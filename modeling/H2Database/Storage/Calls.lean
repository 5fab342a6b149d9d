import H2Database.Reasoning.Lists
import H2Database.Storage.Quorum
import Mathlib.Data.Finset.Card

/-!
# Calls in flight

`FleetSystem.Effect` lists once what a step of a fleet can do.  `Tallied` relates what a caller has
counted to the nodes that have accepted its request, whatever order the threads run in.
-/

namespace H2Database.Storage

open Mvstore Reasoning List

/-! ## What a node does besides serving requests -/

inductive SmartStorageNode.Aside : SmartStorageNode → SmartStorageNode → Prop where
  | same (node : SmartStorageNode) : Aside node node
  | state (node : SmartStorageNode) (state : NodeState) : Aside node (node.setState state)
  | materialized (node : SmartStorageNode) : Aside node node.materializePending.2
  | opened (node : SmartStorageNode) (mapName : String) :
      Aside node { node with materializedStore := (node.materializedStore.openMap mapName).2 }

theorem SmartStorageNode.getKey_aside (node : SmartStorageNode) (mapName : String) (key : Key)
    (readVersion : Lsn) : Aside node (node.getKey mapName key readVersion).2 := by
  unfold getKey
  split_ifs
  · exact .same node
  · exact .opened node mapName
  · exact .opened node mapName

theorem SmartStorageNode.scanRange_aside (node : SmartStorageNode) (mapName : String)
    (startKey endKey : Option Key) (readVersion : Lsn) :
    Aside node (node.scanRange mapName startKey endKey readVersion).2 := by
  unfold scanRange
  split_ifs
  · exact .same node
  · exact .opened node mapName
  · exact .opened node mapName

namespace StorageFleet

structure Aside (fleet fleet' : StorageFleet) : Prop where
  nodes : List.Forall₂ SmartStorageNode.Aside fleet.nodes fleet'.nodes
  config : fleet'.config = fleet.config
  latestCommittedLsn : fleet'.latestCommittedLsn = fleet.latestCommittedLsn
  fencingToken : fleet'.fencingToken = fleet.fencingToken

theorem aside_refl (nodes : List SmartStorageNode) :
    List.Forall₂ SmartStorageNode.Aside nodes nodes := by
  induction nodes with
  | nil => exact .nil
  | cons node nodes ih => exact .cons (.same node) ih

theorem firstAnswer_aside {α : Type} {ask : SmartStorageNode → H2Result α × SmartStorageNode}
    (hask : ∀ node, SmartStorageNode.Aside node (ask node).2) (nodes : List SmartStorageNode)
    (lastErr : Option H2Error) :
    List.Forall₂ SmartStorageNode.Aside nodes (firstAnswer ask nodes lastErr).2 := by
  induction nodes generalizing lastErr with
  | nil => exact .nil
  | cons node nodes ih =>
    have hnode := hask node
    unfold firstAnswer
    split
    · rename_i val node' heq
      rw [heq] at hnode
      exact .cons hnode (aside_refl nodes)
    · rename_i e node' heq
      rw [heq] at hnode
      exact .cons hnode (ih _)

theorem readFirst_aside {α : Type} {ask : SmartStorageNode → H2Result α × SmartStorageNode}
    (hask : ∀ node, SmartStorageNode.Aside node (ask node).2) (fleet : StorageFleet) :
    Aside fleet (fleet.readFirst ask).2 :=
  ⟨firstAnswer_aside hask fleet.nodes none, rfl, rfl, rfl⟩

theorem updateNode_aside {f : SmartStorageNode → SmartStorageNode}
    (hf : ∀ node, SmartStorageNode.Aside node (f node)) (fleet : StorageFleet) (i : Nat) :
    Aside fleet (fleet.updateNode i f) := by
  refine ⟨?_, rfl, rfl, rfl⟩
  change List.Forall₂ _ _ (fleet.nodes.modify i f)
  generalize fleet.nodes = nodes
  induction nodes generalizing i with
  | nil => cases i <;> exact .nil
  | cons node nodes ih =>
    cases i with
    | zero => exact .cons (hf node) (aside_refl nodes)
    | succ i => exact .cons (.same node) (ih i)

theorem Aside.getElem? {fleet fleet' : StorageFleet} (h : Aside fleet fleet') {i : Nat}
    {node' : SmartStorageNode} (hn : fleet'.nodes[i]? = some node') :
    ∃ node, fleet.nodes[i]? = some node ∧ SmartStorageNode.Aside node node' := by
  have hrel := forall₂_iff_get.mp h.nodes
  obtain ⟨hlt, rfl⟩ := List.getElem?_eq_some_iff.mp hn
  have hlt' : i < fleet.nodes.length := by rw [hrel.1]; exact hlt
  exact ⟨_, List.getElem?_eq_getElem hlt', hrel.2 i hlt' hlt⟩

theorem getElem?_updateNode (fleet : StorageFleet) (i : Nat)
    (f : SmartStorageNode → SmartStorageNode) (j : Nat) :
    (fleet.updateNode i f).nodes[j]? =
      if j = i then (fleet.nodes[j]?).map f else fleet.nodes[j]? := by
  change (fleet.nodes.modify i f)[j]? = _
  rw [getElem?_modify]
  by_cases h : j = i
  · subst h
    simp
  · simp [h, Ne.symm h]

end StorageFleet

/-! ## Effects -/

namespace FleetSystem

inductive Effect (sys : FleetSystem) : FleetAction → FleetSystem → Prop where
  | idle (action : FleetAction) : Effect sys action sys
  | started (request : Request) :
      Effect sys (.start request) { sys with calls := sys.calls ++
        [.start request sys.fleet.nodes.length sys.fleet.latestCommittedLsn] }
  | handled {c i : Nat} {call : QuorumCall} {node : SmartStorageNode}
      (hc : sys.calls[c]? = some call) (hn : sys.fleet.nodes[i]? = some node)
      (hi : i ∈ call.waiting) :
      Effect sys (.handle c i)
        ⟨sys.fleet.updateNode i fun _ => (call.request.serve node).2,
          sys.calls.set c (call.answered i (call.request.serve node).1)⟩
  | received {c a : Nat} {call call' : QuorumCall} {answer : H2Result Lsn}
      (hc : sys.calls[c]? = some call) (hr : call.result = none)
      (ha : call.channel[a]? = some answer)
      (hcall : call' =
        { call with channel := call.channel.eraseIdx a }.take sys.fleet.config answer) :
      Effect sys (.receive c a) ⟨sys.fleet.settle call', sys.calls.set c call'⟩
  | aside (action : FleetAction) {fleet : StorageFleet} (h : StorageFleet.Aside sys.fleet fleet) :
      Effect sys action ⟨fleet, sys.calls⟩

inductive CallEffect (sys : FleetSystem) (action : FleetAction) (c : Nat) (call : QuorumCall) :
    QuorumCall → Prop where
  | same : CallEffect sys action c call call
  | handled {i : Nat} {node : SmartStorageNode} (haction : action = .handle c i)
      (hn : sys.fleet.nodes[i]? = some node) (hi : i ∈ call.waiting) :
      CallEffect sys action c call (call.answered i (call.request.serve node).1)
  | received {a : Nat} {answer : H2Result Lsn} (haction : action = .receive c a)
      (hr : call.result = none) (ha : call.channel[a]? = some answer) :
      CallEffect sys action c call
        ({ call with channel := call.channel.eraseIdx a }.take sys.fleet.config answer)

variable {sys sys' : FleetSystem}

theorem Effect.call {action : FleetAction} (h : Effect sys action sys')
    {c : Nat} {call : QuorumCall} (hc : sys.calls[c]? = some call) :
    ∃ call', sys'.calls[c]? = some call' ∧ CallEffect sys action c call call' := by
  cases h with
  | idle => exact ⟨call, hc, .same⟩
  | started => exact ⟨call, concat_of_some hc _, .same⟩
  | @handled c₀ i call₀ node hc₀ hn hi =>
    by_cases hcc : c₀ = c
    · subst hcc
      cases hc.symm.trans hc₀
      exact ⟨_, set_of_some hc _, .handled rfl hn hi⟩
    · exact ⟨call, (getElem?_set_ne hcc).trans hc, .same⟩
  | @received c₀ a call₀ call' answer hc₀ hr ha hcall =>
    by_cases hcc : c₀ = c
    · subst hcc
      cases hc.symm.trans hc₀
      exact ⟨call', set_of_some hc _, hcall ▸ .received rfl hr ha⟩
    · exact ⟨call, (getElem?_set_ne hcc).trans hc, .same⟩
  | aside => exact ⟨call, hc, .same⟩

theorem Effect.call_cases {action : FleetAction} (h : Effect sys action sys')
    {c : Nat} {call' : QuorumCall} (hc : sys'.calls[c]? = some call') :
    (∃ call, sys.calls[c]? = some call ∧ CallEffect sys action c call call') ∨
    ∃ request, call' = .start request sys.fleet.nodes.length sys.fleet.latestCommittedLsn := by
  cases hold : sys.calls[c]? with
  | some call =>
    obtain ⟨call₁, hc₁, heffect⟩ := h.call hold
    cases hc.symm.trans hc₁
    exact .inl ⟨call, rfl, heffect⟩
  | none =>
    right
    cases h with
    | idle => cases hold.symm.trans hc
    | started request =>
      rcases concat_cases hc with hc | ⟨_, hnew⟩
      · cases hold.symm.trans hc
      · exact ⟨request, hnew⟩
    | handled hc₀ hn hi =>
      rcases set_cases hc with ⟨rfl, _⟩ | ⟨_, hc⟩
      · cases hold.symm.trans hc₀
      · cases hold.symm.trans hc
    | received hc₀ hr ha hcall =>
      rcases set_cases hc with ⟨rfl, _⟩ | ⟨_, hc⟩
      · cases hold.symm.trans hc₀
      · cases hold.symm.trans hc
    | aside => cases hold.symm.trans hc

theorem step_effect (sys : FleetSystem) (action : FleetAction) :
    Effect sys action (sys.step action) := by
  cases action with
  | start request => exact .started request
  | handle c i =>
    change Effect sys _ (sys.handle c i)
    unfold handle
    split
    · rename_i call node hc hn
      split_ifs with hi
      · exact .handled hc hn hi
      · exact .idle _
    · exact .idle _
  | receive c a =>
    change Effect sys _ (sys.receive c a)
    unfold receive
    split
    · exact .idle _
    · rename_i call hc
      split
      · rename_i answer hr ha
        exact .received hc hr ha rfl
      · exact .idle _
  | setState i state =>
    exact .aside _ (StorageFleet.updateNode_aside (fun node => .state node state) _ _)
  | materialize i => exact .aside _ (StorageFleet.updateNode_aside .materialized _ _)
  | getKey mapName key readVersion =>
    exact .aside _ (StorageFleet.readFirst_aside (fun node => node.getKey_aside _ _ _) _)
  | scanRange mapName startKey endKey readVersion =>
    exact .aside _ (StorageFleet.readFirst_aside (fun node => node.scanRange_aside _ _ _ _) _)

end FleetSystem

/-! ## What a caller has counted -/

namespace QuorumCall

/-- The acknowledgements a call needs: the write quorum, but at least one. -/
def needed (config : QuorumConfig) : Nat := max 1 config.writeQuorum

/-- A call that has been sent to the nodes; an append of no records is not. -/
def Sent (call : QuorumCall) : Prop := ∀ token, call.request ≠ .append [] token

structure Tallied (config : QuorumConfig) (call : QuorumCall) : Prop where
  nodup : call.accepted.Nodup
  inFleet : ∀ i ∈ call.accepted, i < config.totalNodes
  waitingNodup : call.waiting.Nodup
  waitingInFleet : ∀ i ∈ call.waiting, i < config.totalNodes
  apart : ∀ i ∈ call.waiting, i ∉ call.accepted
  counted : call.acks + call.channel.countP Except.isOk = call.accepted.length
  quorum : ∀ lsn, call.Sent → call.result = some (.ok lsn) → needed config ≤ call.acks

theorem next_eq (call : QuorumCall) (n : Nat) :
    call.next n = call ∨ call.next n = { call with result := some (.error call.request.timeout) } := by
  unfold next
  split_ifs
  · exact .inl rfl
  · exact .inr rfl

@[simp] theorem next_request (call : QuorumCall) (n : Nat) :
    (call.next n).request = call.request := by
  unfold next
  split <;> rfl

@[simp] theorem next_accepted (call : QuorumCall) (n : Nat) :
    (call.next n).accepted = call.accepted := by
  unfold next
  split <;> rfl

theorem start_request (request : Request) (n : Nat) (lsn : Lsn) :
    (start request n lsn).request = request := by
  unfold start
  split
  · rfl
  · exact next_request _ n

theorem start_accepted (request : Request) (n : Nat) (lsn : Lsn) :
    (start request n lsn).accepted = [] := by
  unfold start
  split
  · rfl
  · exact next_accepted _ n

theorem start_not_ok {request : Request} (n : Nat) (latest : Lsn)
    (hsent : ∀ token, request ≠ .append [] token) (lsn : Lsn) :
    (start request n latest).result ≠ some (.ok lsn) := by
  intro hok
  unfold start at hok
  split at hok
  · exact hsent _ rfl
  · rcases next_eq _ _ with heq | heq <;> rw [heq] at hok <;> cases hok

variable {call : QuorumCall} {answer : H2Result Lsn} {config : QuorumConfig}

theorem mem_answered_accepted {i j : Nat} (h : j ∈ (call.answered i answer).accepted) :
    j ∈ call.accepted ∨ (j = i ∧ answer.isOk = true) := by
  unfold answered at h
  simp only at h
  split_ifs at h with hok
  · rcases mem_cons.mp h with rfl | h
    · exact .inr ⟨rfl, hok⟩
    · exact .inl h
  · exact .inl h

theorem Tallied.next (h : Tallied config call) (n : Nat) :
    Tallied config (call.next n) := by
  rcases call.next_eq n with heq | heq
  · rw [heq]
    exact h
  · rw [heq]
    exact ⟨h.nodup, h.inFleet, h.waitingNodup, h.waitingInFleet, h.apart, h.counted,
      fun lsn _ hok => by cases hok⟩

theorem tallied_start (config : QuorumConfig) (request : Request) (lsn : Lsn) :
    Tallied config (start request config.totalNodes lsn) := by
  have hnew : ∀ request, Tallied config
      (QuorumCall.next ⟨request, List.range config.totalNodes, [], 0, 0, 0, none, []⟩
        config.totalNodes) := by
    intro request
    refine Tallied.next ⟨nodup_nil, ?_, nodup_range, ?_, ?_, rfl, ?_⟩ _
    · exact fun i hi => absurd hi not_mem_nil
    · exact fun i hi => mem_range.mp hi
    · exact fun i _ => not_mem_nil
    · exact fun lsn _ hok => by cases hok
  unfold start
  split
  · rename_i token
    refine ⟨nodup_nil, ?_, nodup_nil, ?_, ?_, rfl, ?_⟩
    · exact fun i hi => absurd hi not_mem_nil
    · exact fun i hi => absurd hi not_mem_nil
    · exact fun i _ => not_mem_nil
    · exact fun lsn hsent _ => absurd rfl (hsent token)
  · exact hnew _

theorem Tallied.answered (h : Tallied config call) {i : Nat} (hi : i ∈ call.waiting) (answer : H2Result Lsn) :
    Tallied config (call.answered i answer) := by
  have herase : ∀ j ∈ call.waiting.erase i, j ∈ call.waiting := fun j hj => mem_of_mem_erase hj
  have hcount : ∀ b, answer.isOk = b →
      (call.channel ++ [answer]).countP Except.isOk =
        call.channel.countP Except.isOk + if b then 1 else 0 := by
    intro b hb
    rw [countP_append, countP_singleton, hb]
  cases hb : answer.isOk with
  | false =>
    unfold QuorumCall.answered
    simp only [hb, Bool.false_eq_true, if_false]
    refine ⟨h.nodup, h.inFleet, h.waitingNodup.erase i, fun j hj => h.waitingInFleet j (herase j hj),
      fun j hj => h.apart j (herase j hj), ?_, h.quorum⟩
    simp only [hcount false hb, Bool.false_eq_true, if_false, Nat.add_zero]
    exact h.counted
  | true =>
    unfold QuorumCall.answered
    simp only [hb, if_true]
    refine ⟨nodup_cons.mpr ⟨h.apart i hi, h.nodup⟩, ?_, h.waitingNodup.erase i,
      fun j hj => h.waitingInFleet j (herase j hj), ?_, ?_, h.quorum⟩
    · exact forall_mem_cons.mpr ⟨h.waitingInFleet i hi, h.inFleet⟩
    · intro j hj hmem
      rcases mem_cons.mp hmem with rfl | hmem
      · exact (List.Nodup.mem_erase_iff h.waitingNodup).mp hj |>.1 rfl
      · exact h.apart j (herase j hj) hmem
    · simp only [hcount true hb, if_true, length_cons, ← h.counted]
      omega

theorem take_cases (call : QuorumCall) (config : QuorumConfig) (answer : H2Result Lsn) :
    (∃ lsn, answer = .ok lsn ∧ config.writeQuorum ≤ call.acks + 1 ∧
      call.take config answer = { call with
        acks := call.acks + 1
        maxAckLsn := max call.maxAckLsn lsn
        result := some (.ok (max call.maxAckLsn lsn)) }) ∨
    ∃ acks errors maxAckLsn result,
      call.take config answer = { call with acks, errors, maxAckLsn, result } ∧
      acks = call.acks + (if answer.isOk then 1 else 0) ∧
      (result = call.result ∨ ∃ e, result = some (.error e)) := by
  have hnext : ∀ (acks errors : Nat) (maxAckLsn : Lsn), ∃ result,
      QuorumCall.next { call with acks, errors, maxAckLsn } config.totalNodes =
        { call with acks, errors, maxAckLsn, result } ∧
      (result = call.result ∨ ∃ e, result = some (.error e)) := by
    intro acks errors maxAckLsn
    rcases next_eq { call with acks, errors, maxAckLsn } config.totalNodes with heq | heq
    · exact ⟨call.result, heq, Or.inl rfl⟩
    · exact ⟨_, heq, Or.inr ⟨_, rfl⟩⟩
  cases answer with
  | ok lsn =>
    by_cases hq : config.writeQuorum ≤ call.acks + 1
    · exact .inl ⟨lsn, rfl, hq, if_pos hq⟩
    · obtain ⟨result, heq, hres⟩ := hnext (call.acks + 1) call.errors (max call.maxAckLsn lsn)
      exact .inr ⟨_, _, _, result, (if_neg hq).trans heq, rfl, hres⟩
  | error e =>
    right
    by_cases hq : config.totalNodes - (call.errors + 1) < config.writeQuorum
    · exact ⟨_, _, _, _, if_pos hq, rfl, Or.inr ⟨_, rfl⟩⟩
    · obtain ⟨result, heq, hres⟩ := hnext call.acks (call.errors + 1) call.maxAckLsn
      exact ⟨_, _, _, result, (if_neg hq).trans heq, rfl, hres⟩

theorem take_request (call : QuorumCall) (config : QuorumConfig) (answer : H2Result Lsn) :
    (call.take config answer).request = call.request := by
  rcases call.take_cases config answer with ⟨_, _, _, heq⟩ | ⟨_, _, _, _, heq, _⟩ <;> rw [heq]

theorem take_accepted (call : QuorumCall) (config : QuorumConfig) (answer : H2Result Lsn) :
    (call.take config answer).accepted = call.accepted := by
  rcases call.take_cases config answer with ⟨_, _, _, heq⟩ | ⟨_, _, _, _, heq, _⟩ <;> rw [heq]

theorem received_frame {call' : QuorumCall} {a : Nat}
    (h : call' = { call with channel := call.channel.eraseIdx a }.take config answer) :
    call'.request = call.request ∧ call'.accepted = call.accepted := by
  rw [h, take_request, take_accepted]
  exact ⟨rfl, rfl⟩

theorem Tallied.take (h : Tallied config call) (hr : call.result = none) {a : Nat}
    (ha : call.channel[a]? = some answer) :
    Tallied config ({ call with channel := call.channel.eraseIdx a }.take config answer) := by
  obtain ⟨hlt, heq⟩ := List.getElem?_eq_some_iff.mp ha
  have hperm := (getElem_cons_eraseIdx_perm hlt).countP_eq (Except.isOk (ε := H2Error) (α := Lsn))
  rw [countP_cons, heq] at hperm
  have hcounted := h.counted
  rcases take_cases { call with channel := call.channel.eraseIdx a } config answer with
    ⟨lsn, rfl, hq, htake⟩ | ⟨acks, errors, maxAckLsn, result, htake, hacks, hres⟩
  · rw [if_pos (show (Except.ok lsn : H2Result Lsn).isOk = true from rfl)] at hperm
    rw [htake]
    refine ⟨h.nodup, h.inFleet, h.waitingNodup, h.waitingInFleet, h.apart, ?_, fun _ _ _ => ?_⟩
    · simp only
      omega
    · simp only [needed] at hq ⊢
      omega
  · rw [htake]
    refine ⟨h.nodup, h.inFleet, h.waitingNodup, h.waitingInFleet, h.apart, ?_, fun lsn _ hok => ?_⟩
    · simp only [hacks]
      omega
    · rcases hres with hsame | ⟨e, herr⟩
      · simp only [hsame, hr] at hok
        cases hok
      · simp only [herr] at hok
        cases hok

theorem Tallied.quorum_le (h : call.Tallied config) (hsent : call.Sent) {lsn : Lsn}
    (hok : call.result = some (.ok lsn)) :
    needed config ≤ call.accepted.length := by
  have hq := h.quorum lsn hsent hok
  have hcounted := h.counted
  omega

end QuorumCall

namespace FleetSystem

def Tallied (sys : FleetSystem) : Prop := ∀ call ∈ sys.calls, call.Tallied sys.fleet.config

@[simp] theorem settle_config (fleet : StorageFleet) (call : QuorumCall) :
    (fleet.settle call).config = fleet.config := by
  unfold StorageFleet.settle
  split <;> rfl

@[simp] theorem settle_nodes (fleet : StorageFleet) (call : QuorumCall) :
    (fleet.settle call).nodes = fleet.nodes := by
  unfold StorageFleet.settle
  split <;> rfl

variable {sys sys' : FleetSystem} {action : FleetAction}

theorem Effect.config (h : Effect sys action sys') :
    sys'.fleet.config = sys.fleet.config := by
  cases h with
  | idle => rfl
  | started => rfl
  | handled => rfl
  | received => exact settle_config _ _
  | aside _ h => exact h.config

theorem Effect.request (h : Effect sys action sys')
    {c : Nat} {call : QuorumCall} (hc : sys.calls[c]? = some call) :
    ∃ call', sys'.calls[c]? = some call' ∧ call'.request = call.request := by
  obtain ⟨call', hc', heffect⟩ := h.call hc
  refine ⟨call', hc', ?_⟩
  cases heffect with
  | same => rfl
  | handled haction hn hi => rfl
  | received haction hr ha => exact (QuorumCall.received_frame rfl).1

theorem Effect.forall_calls (he : Effect sys action sys')
    {P : QuorumCall → Prop} (h : ∀ call ∈ sys.calls, P call)
    (hstart : ∀ request, P (.start request sys.fleet.nodes.length sys.fleet.latestCommittedLsn))
    (hcall : ∀ c call call', P call → CallEffect sys action c call call' → P call') :
      ∀ call ∈ sys'.calls, P call := by
  intro call' hmem
  obtain ⟨c, hc'⟩ := getElem?_of_mem hmem
  rcases he.call_cases hc' with ⟨call, hc, heffect⟩ | ⟨request, rfl⟩
  · exact hcall c call call' (h call (mem_of_getElem? hc)) heffect
  · exact hstart request

theorem Tallied.step {sys : FleetSystem} (h : sys.Tallied) (action : FleetAction) :
    (sys.step action).Tallied := by
  have he := sys.step_effect action
  unfold Tallied
  rw [he.config]
  refine he.forall_calls h (fun request => ?_) fun c call call' hcall heffect => ?_
  · rw [sys.fleet.count]
    exact QuorumCall.tallied_start _ request _
  · cases heffect with
    | same => exact hcall
    | handled haction hn hi => exact hcall.answered hi _
    | received haction hr ha => exact hcall.take hr ha

end FleetSystem

end H2Database.Storage
