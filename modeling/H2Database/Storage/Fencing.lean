import H2Database.Storage.Threads

/-!
# Fencing

A fleet with a thread for each call at each node.  What touches no token is carried out as in
`FleetSystem`.
-/

namespace H2Database.Storage

open Reasoning List

def refusal (answer : H2Result Lsn) : Option (H2Result Lsn) := if answer.isOk then none else some answer

/-- What the thread sends with its next step, if that is its last. -/
def Thread.answer (thread : Thread) (node : SmartStorageNode) : Option (H2Result Lsn) :=
  match thread.request, thread.stage with
  | .lease token, .started => refusal ((Request.lease token).serve node).1
  | .lease _, .checked => some (.ok 0)
  | .append _ _, .started => if node.state = .offline then some (.error node.offlineError) else none
  -- the node may have gone offline since the thread has looked
  | .append records token, .online =>
    refusal ((Request.append records token).serve { node with state := .online }).1
  | .append _ _, .pushed maxLsn => some (.ok maxLsn)
  | _, _ => none

def QuorumCall.send (call : QuorumCall) (i : Nat) : Option (H2Result Lsn) → QuorumCall
  | some answer => call.answered i answer
  | none => call

/-- `stages c i` is how far the thread of call `c` at node `i` has come. -/
structure ThreadedFleet where
  sys : FleetSystem
  stages : Nat → Nat → Stage

namespace ThreadedFleet

def new (fleet : StorageFleet) : ThreadedFleet := ⟨.new fleet, fun _ _ => .started⟩

def advance (t : ThreadedFleet) (c i : Nat) : ThreadedFleet :=
  match t.sys.calls[c]?, t.sys.fleet.nodes[i]? with
  | some call, some node =>
    if i ∈ call.waiting then
      let thread : Thread := ⟨call.request, t.stages c i⟩
      let (node', stage) := thread.advance node
      ⟨⟨t.sys.fleet.updateNode i fun _ => node', t.sys.calls.set c (call.send i (thread.answer node))⟩,
        Function.update t.stages c (Function.update (t.stages c) i stage)⟩
    else t
  | _, _ => t

def step (t : ThreadedFleet) : FleetAction → ThreadedFleet
  | .handle c i => t.advance c i
  | action => ⟨t.sys.step action, t.stages⟩

/-- A lease is not stored over a greater token. -/
def keepsToken (t : ThreadedFleet) : FleetAction → Bool
  | .handle c i =>
    match t.sys.calls[c]?, t.sys.fleet.nodes[i]? with
    | some call, some node =>
      match call.request, t.stages c i with
      | .lease token, .checked => node.currentFencingToken ≤ token
      | _, _ => true
    | _, _ => true
  | _ => true

/-- A call of `acquire_lease_quorum` has returned ok. -/
def Leased (t : ThreadedFleet) (token : FencingToken) : Prop :=
  ∃ call ∈ t.sys.calls, ∃ lsn, call.request = .lease token ∧ call.result = some (.ok lsn)

def Holds (t : ThreadedFleet) (i : Nat) (token : FencingToken) : Prop :=
  ∃ node, t.sys.fleet.nodes[i]? = some node ∧ token ≤ node.currentFencingToken

structure Sound (t : ThreadedFleet) : Prop where
  tallied : t.sys.Tallied
  granted : ∀ call ∈ t.sys.calls, ∀ token, call.request = .lease token →
    ∀ i ∈ call.accepted, t.Holds i token
  fresh : ∀ c i, t.sys.calls.length ≤ c → t.stages c i = .started

/-- No node of the quorum has let call `c` come past its check. -/
structure Fenced (c : Nat) (records : List LogRecord) (token : FencingToken) (quorum : List Nat)
    (t : ThreadedFleet) : Prop where
  held : ∀ i ∈ quorum, t.Holds i (token + 1)
  unchecked : ∀ i ∈ quorum, t.stages c i ∈ [Stage.started, .online, .ended]
  refused : ∃ call, t.sys.calls[c]? = some call ∧ call.request = .append records token ∧
    ∀ i ∈ quorum, i ∉ call.accepted

/-! ## What a step does -/

section

variable {thread : Thread} {node : SmartStorageNode} {answer : H2Result Lsn}

theorem advance_token (thread : Thread) (node : SmartStorageNode) :
    (thread.advance node).1.currentFencingToken = node.currentFencingToken ∨
      ∃ token, thread.request = .lease token ∧ thread.stage = .checked ∧
        (thread.advance node).1.currentFencingToken = token := by
  rcases thread with ⟨request, stage⟩
  cases request with
  | lease token =>
    cases stage with
    | checked => exact .inr ⟨token, rfl, rfl, rfl⟩
    | _ => exact .inl rfl
  | append records token => cases stage <;> exact .inl rfl

theorem not_ok_of_refusal {sent : H2Result Lsn} (h : refusal sent = some answer) : ¬ answer.isOk = true := by
  unfold refusal at h
  split_ifs at h with hok
  cases h
  exact hok

theorem answer_ok (h : thread.answer node = some answer) (hok : answer.isOk = true) :
    (∃ token, thread.request = .lease token ∧ thread.stage = .checked) ∨
      ∃ records token lsn, thread.request = .append records token ∧ thread.stage = .pushed lsn := by
  rcases thread with ⟨request, stage⟩
  cases request with
  | lease token =>
    cases stage with
    | checked => exact .inl ⟨token, rfl, rfl⟩
    | started => exact absurd hok (not_ok_of_refusal h)
    | _ => cases h
  | append records token =>
    cases stage with
    | pushed lsn => exact .inr ⟨records, token, lsn, rfl, rfl⟩
    | started =>
      simp only [Thread.answer] at h
      split_ifs at h
      cases h
      cases hok
    | online => exact absurd hok (not_ok_of_refusal h)
    | _ => cases h

theorem send_request (call : QuorumCall) (i : Nat) (sent : Option (H2Result Lsn)) :
    (call.send i sent).request = call.request := by
  cases sent <;> rfl

theorem mem_send_accepted {call : QuorumCall} {i j : Nat} {sent : Option (H2Result Lsn)}
    (h : j ∈ (call.send i sent).accepted) :
    j ∈ call.accepted ∨ j = i ∧ ∃ answer, sent = some answer ∧ answer.isOk = true := by
  cases sent with
  | none => exact .inl h
  | some answer => exact (QuorumCall.mem_answered_accepted h).imp_right fun h => ⟨h.1, answer, rfl, h.2⟩

theorem tallied_send {config : QuorumConfig} {call : QuorumCall} {i : Nat} (h : call.Tallied config)
    (hi : i ∈ call.waiting) (sent : Option (H2Result Lsn)) : (call.send i sent).Tallied config := by
  cases sent with
  | none => exact h
  | some answer => exact h.answered hi answer

end

inductive Effect (t : ThreadedFleet) : FleetAction → ThreadedFleet → Prop where
  | idle (action : FleetAction) : Effect t action t
  | other {action : FleetAction} (h : ∀ c i, action ≠ .handle c i) :
      Effect t action ⟨t.sys.step action, t.stages⟩
  | advanced {c i : Nat} {call : QuorumCall} {node : SmartStorageNode} (hc : t.sys.calls[c]? = some call)
      (hn : t.sys.fleet.nodes[i]? = some node) (hi : i ∈ call.waiting) :
      Effect t (.handle c i)
        ⟨⟨t.sys.fleet.updateNode i fun _ => (Thread.advance ⟨call.request, t.stages c i⟩ node).1,
          t.sys.calls.set c (call.send i (Thread.answer ⟨call.request, t.stages c i⟩ node))⟩,
        Function.update t.stages c (Function.update (t.stages c) i
          (Thread.advance ⟨call.request, t.stages c i⟩ node).2)⟩

theorem step_effect (t : ThreadedFleet) (action : FleetAction) : t.Effect action (t.step action) := by
  cases action with
  | handle c i =>
    change t.Effect _ (t.advance c i)
    unfold advance
    split
    · rename_i call node hc hn
      split_ifs with hi
      · exact .advanced hc hn hi
      · exact .idle _
    · exact .idle _
  | _ => exact .other fun c i h => by cases h

theorem tokens_aside {nodes nodes' : List SmartStorageNode}
    (h : Forall₂ SmartStorageNode.Aside nodes nodes') :
    nodes'.map SmartStorageNode.currentFencingToken = nodes.map SmartStorageNode.currentFencingToken := by
  induction h with
  | nil => rfl
  | cons hnode _ ih => exact congrArg₂ List.cons hnode.stored.2 ih

theorem tokens_other {sys sys' : FleetSystem} {action : FleetAction}
    (haction : ∀ c i, action ≠ .handle c i) (h : FleetSystem.Effect sys action sys') :
    sys'.fleet.nodes.map SmartStorageNode.currentFencingToken =
      sys.fleet.nodes.map SmartStorageNode.currentFencingToken := by
  cases h with
  | idle => rfl
  | started => rfl
  | handled => exact absurd rfl (haction _ _)
  | received => rw [FleetSystem.settle_nodes]
  | aside _ h => exact tokens_aside h.nodes

variable {t : ThreadedFleet} {i : Nat} {token : FencingToken}

theorem Holds.step (h : t.Holds i token) {action : FleetAction} (hkeeps : t.keepsToken action = true) :
    (t.step action).Holds i token := by
  obtain ⟨node, hn, hle⟩ := h
  have he := t.step_effect action
  generalize t.step action = t' at he
  cases he with
  | idle => exact ⟨node, hn, hle⟩
  | other haction =>
    have hmap := congrArg (·[i]?) (tokens_other haction (t.sys.step_effect action))
    simp only [getElem?_map, hn, Option.map_some] at hmap
    obtain ⟨node', hn', htoken⟩ := Option.map_eq_some_iff.mp hmap
    exact ⟨node', hn', by rwa [htoken]⟩
  | @advanced c j call node₀ hc hn₀ hi =>
    by_cases hij : i = j
    · subst hij
      cases hn.symm.trans hn₀
      refine ⟨_, by rw [StorageFleet.getElem?_updateNode, if_pos rfl, hn]; rfl, ?_⟩
      rcases advance_token ⟨call.request, t.stages c i⟩ node with htoken | ⟨lease, hrequest, hstage, htoken⟩
      · rwa [htoken]
      · rw [htoken]
        simp only at hrequest hstage
        have hkept : node.currentFencingToken ≤ lease := by
          simpa [keepsToken, hc, hn, hrequest, hstage] using hkeeps
        exact Nat.le_trans hle hkept
    · exact ⟨node, by rw [StorageFleet.getElem?_updateNode, if_neg hij]; exact hn, hle⟩

theorem Sound.step (h : t.Sound) {action : FleetAction} (hkeeps : t.keepsToken action = true) :
    (t.step action).Sound := by
  have hholds : ∀ i token, t.Holds i token → (t.step action).Holds i token := fun i token h => h.step hkeeps
  have he := t.step_effect action
  generalize t.step action = t' at he hholds
  cases he with
  | idle => exact h
  | other haction =>
    have he := t.sys.step_effect action
    refine ⟨h.tallied.step action, ?_, fun c i hc => h.fresh c i ?_⟩
    · refine he.forall_calls (fun call hmem token hrequest i hi =>
        hholds i token (h.granted call hmem token hrequest i hi)) ?_ ?_
      · intro request token _ i hi
        rw [QuorumCall.start_accepted] at hi
        cases hi
      · intro c call call' hcall heffect
        cases heffect with
        | same => exact hcall
        | handled hhandle => exact absurd hhandle (haction _ _)
        | received =>
          rw [QuorumCall.take_request, QuorumCall.take_accepted]
          exact hcall
    · by_contra hlt
      obtain ⟨call', hc', -⟩ := he.call (List.getElem?_eq_getElem (Nat.lt_of_not_le hlt))
      exact absurd (List.getElem?_eq_some_iff.mp hc').1 (Nat.not_lt.mpr hc)
  | @advanced c i call node hc hn hi =>
    refine ⟨fun call' hmem => ?_, fun call' hmem token hrequest j hj => ?_, fun c' j hc' => ?_⟩
    · rcases mem_or_eq_of_mem_set hmem with hmem | rfl
      · exact h.tallied call' hmem
      · exact tallied_send (h.tallied call (mem_of_getElem? hc)) hi _
    · rcases mem_or_eq_of_mem_set hmem with hmem | rfl
      · exact hholds j token (h.granted call' hmem token hrequest j hj)
      · rw [send_request] at hrequest
        rcases mem_send_accepted hj with hj | ⟨rfl, answer, hanswer, hok⟩
        · exact hholds j token (h.granted call (mem_of_getElem? hc) token hrequest j hj)
        · refine ⟨_, by rw [StorageFleet.getElem?_updateNode, if_pos rfl, hn]; rfl, ?_⟩
          rcases answer_ok hanswer hok with ⟨lease, -, hstage⟩ | ⟨records, append, lsn, happend, -⟩
          · simp only at hstage
            rw [hrequest, hstage]
            exact Nat.le_refl token
          · cases hrequest.symm.trans happend
    · rw [List.length_set] at hc'
      have hne : c' ≠ c := fun heq =>
        absurd (List.getElem?_eq_some_iff.mp hc).1 (Nat.not_lt.mpr (heq ▸ hc'))
      simp only [Function.update_of_ne hne]
      exact h.fresh c' j hc'

theorem unchecked_advance {stage : Stage} (hstage : stage ∈ [Stage.started, .online, .ended])
    {records : List LogRecord} {node : SmartStorageNode} (hlow : token < node.currentFencingToken) :
    (Thread.advance ⟨.append records token, stage⟩ node).2 ∈ [Stage.started, .online, .ended] := by
  simp only [mem_cons, not_mem_nil, or_false] at hstage
  rcases hstage with rfl | rfl | rfl
  · simp only [Thread.advance]
    split_ifs <;> decide
  · simp only [Thread.advance, if_pos hlow]
    decide
  · simp [Thread.advance]

theorem Fenced.step {c : Nat} {records : List LogRecord} {quorum : List Nat}
    (h : t.Fenced c records token quorum) {action : FleetAction} (hkeeps : t.keepsToken action = true) :
    (t.step action).Fenced c records token quorum := by
  have hheld : ∀ i ∈ quorum, (t.step action).Holds i (token + 1) := fun i hi => (h.held i hi).step hkeeps
  obtain ⟨call, hc, hrequest, hrefused⟩ := h.refused
  have he := t.step_effect action
  generalize t.step action = t' at he hheld
  cases he with
  | idle => exact h
  | other haction =>
    obtain ⟨call', hc', heffect⟩ := (t.sys.step_effect action).call hc
    refine ⟨hheld, h.unchecked, call', hc', ?_⟩
    cases heffect with
    | same => exact ⟨hrequest, hrefused⟩
    | handled hhandle => exact absurd hhandle (haction _ _)
    | received =>
      rw [QuorumCall.take_request, QuorumCall.take_accepted]
      exact ⟨hrequest, hrefused⟩
  | @advanced c' j call₀ node hc₀ hn hwaiting =>
    by_cases hcc : c' = c
    · subst hcc
      cases hc.symm.trans hc₀
      refine ⟨hheld, fun i hi => ?_, _, set_of_some hc _, ?_⟩
      · simp only [Function.update_self]
        by_cases hij : i = j
        · subst hij
          obtain ⟨node', hn', hle⟩ := h.held i hi
          cases hn.symm.trans hn'
          rw [Function.update_self, hrequest]
          exact unchecked_advance (h.unchecked i hi) hle
        · rw [Function.update_of_ne hij]
          exact h.unchecked i hi
      · refine ⟨(send_request _ _ _).trans hrequest, fun i hi hmem => ?_⟩
        rcases mem_send_accepted hmem with hmem | ⟨rfl, answer, hanswer, hok⟩
        · exact hrefused i hi hmem
        · rcases answer_ok hanswer hok with ⟨lease, hlease, -⟩ | ⟨_, _, lsn, -, hstage⟩
          · cases hrequest.symm.trans hlease
          · have hin := h.unchecked i hi
            simp only at hstage
            rw [hstage] at hin
            simp at hin
    · refine ⟨hheld, fun i hi => ?_, call, (List.getElem?_set_ne hcc).trans hc, hrequest, hrefused⟩
      simp only [Function.update_of_ne (Ne.symm hcc)]
      exact h.unchecked i hi

/-- Two write quorums share a node. -/
def Meeting (config : QuorumConfig) : Prop := config.totalNodes < 2 * QuorumCall.needed config

theorem exists_common {config : QuorumConfig} (hmeet : Meeting config) {a b : QuorumCall}
    (ha : a.Tallied config) (hb : b.Tallied config) (hal : QuorumCall.needed config ≤ a.accepted.length)
    (hbl : QuorumCall.needed config ≤ b.accepted.length) : ∃ i ∈ a.accepted, i ∈ b.accepted := by
  have hsub : ∀ {call : QuorumCall}, call.Tallied config →
      call.accepted.toFinset ⊆ Finset.range config.totalNodes := fun h i hi =>
    Finset.mem_range.mpr (h.inFleet i (mem_toFinset.mp hi))
  have hcards := Finset.inter_nonempty_of_card_lt_card_add_card (hsub ha) (hsub hb) (by
    rw [toFinset_card_of_nodup ha.nodup, toFinset_card_of_nodup hb.nodup, Finset.card_range]
    unfold Meeting at hmeet
    omega)
  obtain ⟨i, hi⟩ := hcards
  rw [Finset.mem_inter, mem_toFinset, mem_toFinset] at hi
  exact ⟨i, hi⟩

theorem sound_new (fleet : StorageFleet) : (new fleet).Sound where
  tallied _ hmem := absurd hmem not_mem_nil
  granted _ hmem := absurd hmem not_mem_nil
  fresh _ _ _ := rfl

theorem config_runs (t : ThreadedFleet) (actions : List FleetAction) :
    (runs step t actions).sys.fleet.config = t.sys.fleet.config := by
  refine @runs_invariant _ _ step (fun t' => t'.sys.fleet.config = t.sys.fleet.config) ?_ _ rfl actions
  intro t' action h
  have he := t'.step_effect action
  generalize t'.step action = t'' at he
  cases he with
  | idle => exact h
  | other => exact (t'.sys.step_effect action).config.trans h
  | advanced => exact h

/-- A lease has been granted, and an append with a lower token that starts then returns ok. -/
def Overtaken (fleet : StorageFleet) (before : List FleetAction) (lease : FencingToken)
    (records : List LogRecord) (token : FencingToken) (after : List FleetAction) : Prop :=
  (runs step (new fleet) before).Leased lease ∧ token < lease ∧ ∃ call lsn,
    (runs step (new fleet) (before ++ .start (.append records token) :: after)).sys.calls[
      (runs step (new fleet) before).sys.calls.length]? = some call ∧ call.result = some (.ok lsn)

theorem not_overtaken {fleet : StorageFleet} (hmeet : Meeting fleet.config)
    {before after : List FleetAction} {records : List LogRecord} (hrecords : records ≠ [])
    (hkeeps : Meets step (fun t action => t.keepsToken action = true) (new fleet)
      (before ++ .start (.append records token) :: after)) {lease : FencingToken} :
    ¬ Overtaken fleet before lease records token after := by
  rintro ⟨hleased, hlow, call, lsn, hc, hok'⟩
  obtain ⟨hbefore, -, hafter⟩ := meets_append.mp hkeeps
  rw [runs_append, runs_cons] at hc
  have hsound : (runs step (new fleet) before).Sound :=
    invariant_runs (fun t action h hkeeps => h.step hkeeps) (sound_new fleet) hbefore
  have hconfig := config_runs (new fleet) before
  generalize runs step (new fleet) before = t at *
  obtain ⟨granted, hmem, leaseLsn, hrequest, hok⟩ := hleased
  have hgranted := hsound.tallied granted hmem
  have hquorum := hgranted.quorum_le (fun append h => by cases hrequest.symm.trans h) hok
  have hfenced : (t.step (.start (.append records token))).Fenced t.sys.calls.length records token
      granted.accepted := by
    refine ⟨fun i hi => ?_, fun i _ => ?_, _, getElem?_concat_length, ?_, ?_⟩
    · obtain ⟨node, hn, hle⟩ := hsound.granted granted hmem lease hrequest i hi
      exact ⟨node, hn, Nat.le_trans hlow hle⟩
    · change t.stages _ i ∈ _
      rw [hsound.fresh _ i (Nat.le_refl _)]
      exact mem_cons_self
    · exact QuorumCall.start_request _ _ _
    · rw [QuorumCall.start_accepted]
      exact fun i _ => not_mem_nil
  have hstarted : (t.step (.start (.append records token))).Sound := hsound.step rfl
  have hconfig' := (config_runs (t.step (.start (.append records token))) after).trans hconfig
  have hsound' : (runs step (t.step (.start (.append records token))) after).Sound :=
    invariant_runs (fun t action h hkeeps => h.step hkeeps) hstarted hafter
  have hfenced' := @invariant_runs _ _ step _ _ (Fenced t.sys.calls.length records token granted.accepted)
    (fun t action h hkeeps => h.step hkeeps) _ hfenced hafter
  obtain ⟨call', hc', happend, hrefused⟩ := hfenced'.refused
  cases hc.symm.trans hc'
  have hcall := hsound'.tallied call (mem_of_getElem? hc)
  rw [hconfig'] at hcall
  rw [hconfig] at hgranted hquorum
  obtain ⟨i, hi, hin⟩ := exists_common hmeet hgranted hcall hquorum
    (hcall.quorum_le (fun append h => hrecords (Request.append.inj (happend.symm.trans h)).1) hok')
  exact hrefused i hi hin

def stale : List LogRecord := [.put 1 0 1 "a" [1] [10] 0]

/-- Two nodes grant the lease, and the third has taken the append before it hears of it. -/
def granting : List FleetAction :=
  [.start (.lease 2), .handle 0 0, .handle 0 1, .handle 0 0, .handle 0 1, .receive 0 0, .receive 0 0]

def refusing : List FleetAction :=
  List.replicate 5 (.handle 1 2) ++ [.handle 1 0, .handle 1 1, .handle 1 0, .handle 1 1] ++
    List.replicate 3 (.receive 1 0)

theorem not_overtaken_granting : (runs step (new .threeNodes) granting).Leased 2 ∧
    ¬ Overtaken .threeNodes granting 2 stale 1 refusing :=
  ⟨⟨_, mem_of_getElem? (i := 0) rfl, 0, rfl, rfl⟩,
    not_overtaken (by unfold Meeting; decide) (by decide) (by decide +kernel)⟩

/-- One node of two is enough to write. -/
def oneOfTwo : StorageFleet where
  nodes := [.new 1, .new 2]
  config := ⟨2, 1, 2⟩
  latestCommittedLsn := 0
  fencingToken := 1
  valid := by decide
  count := rfl

/-- Two leases have looked at the token of each node when the greater is stored, and then the lower. -/
def lowering : List FleetAction :=
  [.start (.lease 3), .start (.lease 2), .handle 1 0, .handle 1 1] ++
    [.handle 0 0, .handle 0 0, .handle 0 1, .handle 0 1, .receive 0 0, .receive 0 0, .handle 1 0, .handle 1 1]

theorem overtaken_oneOfTwo :
    Overtaken oneOfTwo [.start (.lease 2), .handle 0 0, .handle 0 0, .receive 0 0] 2 stale 1
      (List.replicate 5 (.handle 1 1) ++ [.receive 1 0]) ∧
    Overtaken .threeNodes lowering 3 stale 2
      (List.replicate 5 (.handle 2 0) ++ List.replicate 5 (.handle 2 1) ++ [.receive 2 0, .receive 2 0]) :=
  ⟨⟨⟨_, mem_of_getElem? (i := 0) rfl, 0, rfl, rfl⟩, by decide, _, 1, rfl, rfl⟩,
    ⟨_, mem_of_getElem? (i := 0) rfl, 0, rfl, rfl⟩, by decide, _, 1, rfl, rfl⟩

end ThreadedFleet

end H2Database.Storage
