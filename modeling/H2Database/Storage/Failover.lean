import H2Database.Storage.Calls
import H2Database.Storage.Compute

/-!
# Failover

A replica that wants to be the primary reads the token of the fleet and takes a lease with the next
one.  Between the two another replica may do the same, and a node grants a token it has granted before.
As long as every lease is acquired while the fleet still has the token that was read, each token has
one primary.
-/

namespace H2Database.Storage

open Mvstore Reasoning List Option Nat

namespace FleetSystem

def Completes (sys : FleetSystem) (c a : Nat) (request : Request) : Prop :=
  ∃ call lsn, sys.calls[c]? = some call ∧ call.request = request ∧ call.result = none ∧
    call.channel[a]? = some (.ok lsn) ∧ sys.fleet.config.writeQuorum ≤ call.acks + 1

variable {sys sys' : FleetSystem}

theorem Effect.ok_cases {action : FleetAction} (h : Effect sys action sys')
    {c : Nat} {call' : QuorumCall} {lsn : Lsn} (hc : sys'.calls[c]? = some call')
    (hsent : call'.Sent) (hok : call'.result = some (.ok lsn)) :
    (∃ call, sys.calls[c]? = some call ∧ call.request = call'.request ∧
      call.result = some (.ok lsn)) ∨
    ∃ a, action = .receive c a ∧ sys.Completes c a call'.request := by
  rcases h.call_cases hc with ⟨call, hc₀, heffect⟩ | ⟨request, rfl⟩
  · cases heffect with
    | same => exact .inl ⟨_, hc₀, rfl, hok⟩
    | handled haction hn hi => exact .inl ⟨call, hc₀, rfl, hok⟩
    | @received a answer haction hr ha =>
      refine .inr ⟨a, haction, ?_⟩
      rcases QuorumCall.take_cases { call with channel := call.channel.eraseIdx a }
        sys.fleet.config answer with ⟨lsn', rfl, hq, htake⟩ | ⟨_, _, _, result, htake, _, hres⟩
      · refine ⟨call, lsn', hc₀, ?_, hr, ha, hq⟩
        rw [htake]
      · rw [htake] at hok
        rcases hres with hsame | ⟨e, herr⟩
        · simp only [hsame, hr] at hok
          cases hok
        · simp only [herr] at hok
          cases hok
  · -- a call that has been sent waits for answers when it starts
    refine absurd hok (QuorumCall.start_not_ok _ _ ?_ lsn)
    rw [QuorumCall.Sent, QuorumCall.start_request] at hsent
    exact hsent

theorem Completes.fencingToken {sys : FleetSystem} {c a : Nat} {token : FencingToken}
    (h : sys.Completes c a (.lease token)) :
    (sys.step (.receive c a)).fleet.fencingToken = token := by
  obtain ⟨call, lsn, hc, hreq, hr, ha, hq⟩ := h
  have htake : { call with channel := call.channel.eraseIdx a }.take sys.fleet.config (.ok lsn) =
      { call with
        channel := call.channel.eraseIdx a
        acks := call.acks + 1
        maxAckLsn := max call.maxAckLsn lsn
        result := some (.ok (max call.maxAckLsn lsn)) } := if_pos hq
  rw [hr] at htake
  simp only [step, receive, hc, hr, ha]
  rw [htake]
  simp only [StorageFleet.settle, hreq]

theorem Effect.fencingToken_cases {action : FleetAction} (h : Effect sys action sys') :
    sys'.fleet.fencingToken = sys.fleet.fencingToken ∨
      ∃ c a token, action = .receive c a ∧ sys.Completes c a (.lease token) := by
  cases h with
  | idle => exact .inl rfl
  | started => exact .inl rfl
  | handled => exact .inl rfl
  | @received c a call call' answer hc hr ha hcall =>
    unfold StorageFleet.settle
    split
    · rename_i lsn token hok hreq
      have hat : (sys.calls.set c call')[c]? = some call' := set_of_some hc _
      have hsent : call'.Sent := by
        intro token' happend
        rw [hreq] at happend
        cases happend
      have he : Effect sys (.receive c a) ⟨sys.fleet.settle call', sys.calls.set c call'⟩ :=
        .received hc hr ha hcall
      rcases he.ok_cases hat hsent hok with ⟨call₀, hc₀, _, hok₀⟩ | ⟨a', haction, hcompletes⟩
      · cases hc.symm.trans hc₀
        rw [hr] at hok₀
        cases hok₀
      · rw [hreq] at hcompletes
        exact .inr ⟨c, a', token, haction, hcompletes⟩
    · exact .inl rfl
    · exact .inl rfl
  | aside _ h => exact .inl h.fencingToken

end FleetSystem

namespace ComputeSystem

/-! ## Who holds a token -/

/-- The promotion waits for the lease, which is call `c`. -/
def Acquiring (sys : ComputeSystem) (k i : Nat) (token : FencingToken) (c : Nat) : Prop :=
  sys.promotions[k]? = some ⟨i, token, .acquiring c⟩

/-- The node has become the primary with the token, or its lease has been granted. -/
def Holds (sys : ComputeSystem) (i : Nat) (token : FencingToken) : Prop :=
  (i, token) ∈ sys.primaries ∨
    ∃ k c lsn, sys.Acquiring k i token c ∧ sys.result c = some (.ok lsn)

/-- A step completes a lease only while the fleet has the token that the promotion has read. -/
def LeaseIsNext (sys : ComputeSystem) : ComputeAction → Prop
  | .storage (.receive c a) => ∀ token, sys.storage.Completes c a (.lease token) →
      token = sys.storage.fleet.fencingToken.next
  | _ => True

structure OneHolder (sys : ComputeSystem) : Prop where
  leases : ∀ k i token c, sys.Acquiring k i token c →
    ∃ call, sys.storage.calls[c]? = some call ∧ call.request = .lease token
  apart : ∀ k k' i j token token' c, sys.Acquiring k i token c → sys.Acquiring k' j token' c → k = k'
  bounded : ∀ i token, sys.Holds i token → token ≤ sys.storage.fleet.fencingToken
  unique : ∀ i j token, sys.Holds i token → sys.Holds j token → i = j
  roles : ∀ i node, sys.nodes[i]? = some node → node.role = .primary →
    (i, node.fencingToken) ∈ sys.primaries
  writers : ∀ commit ∈ sys.commits, (commit.node, commit.token) ∈ sys.primaries ∧
    ∃ call records, sys.storage.calls[commit.call]? = some call ∧
      call.request = .append records commit.token

theorem oneHolder_new (fleet : StorageFleet) : OneHolder (new fleet) := by
  have hholds : ∀ i token, (new fleet).Holds i token → i = 0 ∧ token = fleet.fencingToken := by
    rintro i token (hmem | ⟨k, c, lsn, hk, _⟩)
    · rw [Prod.mk.inj (mem_singleton.mp hmem) |>.1, Prod.mk.inj (mem_singleton.mp hmem) |>.2]
      exact ⟨rfl, rfl⟩
    · cases hk
  refine ⟨?_, ?_, ?_, ?_, ?_, ?_⟩
  · intro k i token c hk
    cases hk
  · intro k k' i j token token' c hk
    cases hk
  · intro i token h
    exact le_of_eq (hholds i token h).2
  · intro i j token hi hj
    rw [(hholds i token hi).1, (hholds j token hj).1]
  · intro i node hn hrole
    cases i with
    | zero =>
      cases hn
      exact mem_singleton.mpr rfl
    | succ i => cases hn
  · exact fun commit h => absurd h not_mem_nil

/-! ## Steps of the fleet -/

variable {sys : ComputeSystem}

theorem holds_storage (h : OneHolder sys) {action : FleetAction} {i : Nat} {token : FencingToken}
    (hholds : { sys with storage := sys.storage.step action }.Holds i token) :
    sys.Holds i token ∨ ∃ k c a, action = .receive c a ∧ sys.storage.Completes c a (.lease token) ∧
      sys.Acquiring k i token c := by
  rcases hholds with hmem | ⟨k, c, lsn, hk, hres⟩
  · exact .inl (.inl hmem)
  · have he := sys.storage.step_effect action
    obtain ⟨call, hc, hreq⟩ := h.leases k i token c hk
    obtain ⟨call', hc', hreq'⟩ := he.request hc
    have hok : call'.result = some (.ok lsn) := by
      rw [← hres]
      simp only [result, hc', bind_some]
    have hsent : call'.Sent := by
      intro token' happend
      rw [hreq', hreq] at happend
      cases happend
    rcases he.ok_cases hc' hsent hok with ⟨call₀, hc₀, _, hok₀⟩ | ⟨a, haction, hcompletes⟩
    · refine .inl (.inr ⟨k, c, lsn, hk, ?_⟩)
      simp only [result, hc₀, bind_some, hok₀]
    · rw [hreq', hreq] at hcompletes
      exact .inr ⟨k, c, a, haction, hcompletes, hk⟩

theorem OneHolder.storage (h : OneHolder sys) (action : FleetAction)
    (hnext : sys.LeaseIsNext (.storage action)) :
    OneHolder { sys with storage := sys.storage.step action } := by
  have he := sys.storage.step_effect action
  have hcomplete : ∀ c a token, action = .receive c a → sys.storage.Completes c a (.lease token) →
      token = sys.storage.fleet.fencingToken.next ∧
        (sys.storage.step action).fleet.fencingToken = token := by
    rintro c a token rfl hcompletes
    exact ⟨hnext token hcompletes, hcompletes.fencingToken⟩
  have htoken : sys.storage.fleet.fencingToken ≤ (sys.storage.step action).fleet.fencingToken := by
    rcases he.fencingToken_cases with heq | ⟨c, a, token, haction, hcompletes⟩
    · exact le_of_eq heq.symm
    · obtain ⟨hlt, heq⟩ := hcomplete c a token haction hcompletes
      rw [heq, hlt]
      exact le_succ _
  refine ⟨?_, h.apart, ?_, ?_, h.roles, ?_⟩
  · intro k i token c hk
    obtain ⟨call, hc, hreq⟩ := h.leases k i token c hk
    obtain ⟨call', hc', hreq'⟩ := he.request hc
    exact ⟨call', hc', hreq'.trans hreq⟩
  · intro i token hholds
    rcases holds_storage h hholds with hold | ⟨k, c, a, haction, hcompletes, hk⟩
    · exact le_trans (h.bounded i token hold) htoken
    · exact le_of_eq (hcomplete c a token haction hcompletes).2.symm
  · -- a token that has just been granted is greater than all that were held before
    have hfresh : ∀ i c a token, action = .receive c a →
        sys.storage.Completes c a (.lease token) → ¬ sys.Holds i token := by
      intro i c a token haction hcompletes hold
      have hle := h.bounded i token hold
      rw [(hcomplete c a token haction hcompletes).1] at hle
      exact not_succ_le_self _ hle
    intro i j token hi hj
    rcases holds_storage h hi with hi | ⟨k, c, a, haction, hcompletes, hk⟩
    · rcases holds_storage h hj with hj | ⟨k', c', a', haction', hcompletes', _⟩
      · exact h.unique i j token hi hj
      · exact absurd hi (hfresh i c' a' token haction' hcompletes')
    · rcases holds_storage h hj with hj | ⟨k', c', a', haction', _, hk'⟩
      · exact absurd hj (hfresh j c a token haction hcompletes)
      · cases haction.symm.trans haction'
        cases h.apart k k' i j token token c hk hk'
        cases hk.symm.trans hk'
        rfl
  · intro commit hcommit
    obtain ⟨hprimary, call, records, hc, hreq⟩ := h.writers commit hcommit
    obtain ⟨call', hc', hreq'⟩ := he.request hc
    exact ⟨hprimary, call', records, hc', hreq'.trans hreq⟩

/-! ## Steps of the compute nodes -/

variable {nodes : List DecoupledComputeNode}

theorem OneHolder.frame (h : OneHolder sys) {commits : List Commit}
    (hnodes : ∀ (i : Nat) (node' : DecoupledComputeNode), nodes[i]? = some node' →
      node'.role = .primary → ∃ node, sys.nodes[i]? = some node ∧ node.role = .primary ∧
        node.fencingToken = node'.fencingToken)
    (hcommits : ∀ commit' ∈ commits, ∃ commit ∈ sys.commits, commit.node = commit'.node ∧
      commit.token = commit'.token ∧ commit.call = commit'.call) :
    OneHolder { sys with nodes, commits } := by
  refine ⟨h.leases, h.apart, h.bounded, h.unique, ?_, ?_⟩
  · intro i node' hn' hrole'
    obtain ⟨node, hn, hrole, htoken⟩ := hnodes i node' hn' hrole'
    rw [← htoken]
    exact h.roles i node hn hrole
  · intro commit' hcommit'
    obtain ⟨commit, hcommit, hnode, htoken, hcall⟩ := hcommits commit' hcommit'
    rw [← hnode, ← htoken, ← hcall]
    exact h.writers commit hcommit

theorem OneHolder.addReadReplica (h : OneHolder sys) :
    OneHolder (sys.step .addReadReplica) := by
  refine h.frame (fun i node' hn' hrole' => ?_) fun commit hcommit => ⟨commit, hcommit, rfl, rfl, rfl⟩
  rcases concat_cases hn' with hn' | ⟨_, rfl⟩
  · exact ⟨node', hn', hrole', rfl⟩
  · cases hrole'

theorem primary_modify {j : Nat}
    {f : DecoupledComputeNode → DecoupledComputeNode} (hrole : ∀ node, (f node).role = node.role)
    (htoken : ∀ node, (f node).fencingToken = node.fencingToken) {i : Nat}
    {node' : DecoupledComputeNode} (hn' : (nodes.modify j f)[i]? = some node')
    (hrole' : node'.role = .primary) :
    ∃ node, nodes[i]? = some node ∧ node.role = .primary ∧
      node.fencingToken = node'.fencingToken := by
  obtain ⟨node, hn, ⟨_, rfl⟩ | ⟨_, rfl⟩⟩ := modify_cases hn'
  · exact ⟨node, hn, (hrole node).symm.trans hrole', (htoken node).symm⟩
  · exact ⟨node', hn, hrole', rfl⟩

theorem OneHolder.registerReplica (h : OneHolder sys) (i j : Nat) :
    OneHolder (sys.step (.registerReplica i j)) := by
  refine h.frame (fun k node' hn' hrole' => ?_) fun commit hcommit => ⟨commit, hcommit, rfl, rfl, rfl⟩
  refine primary_modify ?_ ?_ hn' hrole'
  · exact fun _ => rfl
  · exact fun _ => rfl

theorem OneHolder.promoteToPrimary (h : OneHolder sys) (i : Nat) :
    OneHolder (sys.promoteToPrimary i) := by
  unfold ComputeSystem.promoteToPrimary
  split
  · exact h
  · rename_i node hn
    split_ifs with hrole
    · exact h
    · set sys' : ComputeSystem := { sys with
        promotions := sys.promotions ++ [⟨i, sys.storage.fleet.fencingToken.next, .read⟩] } with hsys'
      have hold : ∀ {k j token c}, sys'.Acquiring k j token c → sys.Acquiring k j token c := by
        intro k j token c hk
        rcases concat_cases hk with hk | ⟨_, hnew⟩
        · exact hk
        · cases hnew
      have hholds : ∀ {j token}, sys'.Holds j token → sys.Holds j token := by
        rintro j token (hmem | ⟨k, c, lsn, hk, hres⟩)
        · exact .inl hmem
        · exact .inr ⟨k, c, lsn, hold hk, hres⟩
      exact ⟨fun k j token c hk => h.leases k j token c (hold hk),
        fun k k' j j' token token' c hk hk' => h.apart k k' j j' token token' c (hold hk) (hold hk'),
        fun j token hj => h.bounded j token (hholds hj),
        fun j j' token hj hj' => h.unique j j' token (hholds hj) (hholds hj'), h.roles, h.writers⟩

theorem acquiring_setPromotion {k k' i : Nat} {token : FencingToken} {c : Nat} {phase : PromotionPhase}
    (h : (sys.setPromotion k phase).Acquiring k' i token c) :
    (k' ≠ k ∧ sys.Acquiring k' i token c) ∨
      (k' = k ∧ phase = .acquiring c ∧ ∃ p, sys.promotions[k]? = some p ∧ p.node = i ∧
        p.newToken = token) := by
  obtain ⟨p, hp, ⟨rfl, hnew⟩ | ⟨hne, rfl⟩⟩ := modify_cases h
  · cases hnew
    exact .inr ⟨rfl, rfl, p, hp, rfl, rfl⟩
  · exact .inl ⟨fun heq => hne heq.symm, hp⟩

theorem OneHolder.acquireLease (h : OneHolder sys) (k : Nat) :
    OneHolder (sys.acquireLease k) := by
  unfold ComputeSystem.acquireLease
  split
  · exact h
  · rename_i p hp
    split
    · rename_i hphase
      have h₁ : OneHolder { sys with storage := sys.storage.step (.start (.lease p.newToken)) } :=
        h.storage (.start (.lease p.newToken)) trivial
      set sys₁ := { sys with storage := sys.storage.step (.start (.lease p.newToken)) } with hsys₁
      set c₀ := sys.storage.calls.length with hc₀
      have hcall : sys₁.storage.calls[c₀]? = some (.start (.lease p.newToken)
          sys.storage.fleet.nodes.length sys.storage.fleet.latestCommittedLsn) :=
        getElem?_concat_length
      -- no other promotion waits for the new call
      have hfresh : ∀ k' i token, ¬ sys₁.Acquiring k' i token c₀ := by
        intro k' i token hk'
        obtain ⟨call, hc, _⟩ := h.leases k' i token c₀ hk'
        exact lt_irrefl _ (List.getElem?_eq_some_iff.mp hc).1
      have hnone : ∀ lsn, sys₁.result c₀ ≠ some (.ok lsn) := by
        intro lsn hres
        simp only [result, hcall, bind_some] at hres
        exact QuorumCall.start_not_ok _ _ (fun token h => by cases h) lsn hres
      have hholds : ∀ {i token}, (sys₁.setPromotion k (.acquiring c₀)).Holds i token →
          sys₁.Holds i token := by
        rintro i token (hmem | ⟨k', c, lsn, hk', hres⟩)
        · exact .inl hmem
        · rcases acquiring_setPromotion hk' with ⟨_, hold⟩ | ⟨_, hc, _⟩
          · exact .inr ⟨k', c, lsn, hold, hres⟩
          · cases hc
            exact absurd hres (hnone lsn)
      refine ⟨?_, ?_, fun i token hi => h₁.bounded i token (hholds hi),
        fun i j token hi hj => h₁.unique i j token (hholds hi) (hholds hj), h₁.roles, h₁.writers⟩
      · intro k' i token c hk'
        rcases acquiring_setPromotion hk' with ⟨_, hold⟩ | ⟨_, hc, p', hp', _, htoken⟩
        · exact h₁.leases k' i token c hold
        · cases hc
          cases hp'.symm.trans hp
          exact ⟨_, hcall, by rw [QuorumCall.start_request, htoken]⟩
      · intro k' k'' i j token token' c hk' hk''
        rcases acquiring_setPromotion hk' with ⟨_, hold'⟩ | ⟨rfl, hc', _⟩
        · rcases acquiring_setPromotion hk'' with ⟨_, hold''⟩ | ⟨_, hc'', _⟩
          · exact h₁.apart k' k'' i j token token' c hold' hold''
          · cases hc''
            exact absurd hold' (hfresh k' i token)
        · rcases acquiring_setPromotion hk'' with ⟨_, hold''⟩ | ⟨rfl, _⟩
          · cases hc'
            exact absurd hold'' (hfresh k'' j token')
          · rfl
    · exact h

theorem OneHolder.leaseAcquired (h : OneHolder sys) (k : Nat) :
    OneHolder (sys.leaseAcquired k) := by
  unfold ComputeSystem.leaseAcquired
  split
  · exact h
  rename_i p hp
  split
  case h_2 => exact h
  rename_i c hphase
  have hacq : sys.Acquiring k p.node p.newToken c := by
    rw [Acquiring, hp, ← hphase]
  have hold : ∀ {k' i token c}, (sys.setPromotion k .finished).Acquiring k' i token c →
      sys.Acquiring k' i token c := by
    intro k' i token c hk'
    rcases acquiring_setPromotion hk' with ⟨_, hold⟩ | ⟨_, hphase', _⟩
    · exact hold
    · cases hphase'
  split
  · rename_i lsn hres
    have hnew : sys.Holds p.node p.newToken := Or.inr ⟨k, c, lsn, hacq, hres⟩
    set sys' : ComputeSystem := { (sys.setPromotion k .finished).updateNode p.node fun node =>
        node.becomePrimary p.newToken sys.storage.fleet.latestCommittedLsn with
      primaries := (p.node, p.newToken) :: sys.primaries } with hsys'
    have hholds : ∀ {i token}, sys'.Holds i token → sys.Holds i token := by
      rintro i token (hmem | ⟨k', c', lsn', hk', hres'⟩)
      · rcases mem_cons.mp hmem with heq | hmem
        · cases heq
          exact hnew
        · exact .inl hmem
      · exact .inr ⟨k', c', lsn', hold hk', hres'⟩
    refine ⟨fun k' i token c hk' => h.leases k' i token c (hold hk'),
      fun k' k'' i j token token' c hk' hk'' =>
        h.apart k' k'' i j token token' c (hold hk') (hold hk''),
      fun i token hi => h.bounded i token (hholds hi),
      fun i j token hi hj => h.unique i j token (hholds hi) (hholds hj), ?_, ?_⟩
    · intro i node' hn' hrole'
      obtain ⟨node, hn, ⟨rfl, rfl⟩ | ⟨_, rfl⟩⟩ := modify_cases hn'
      · exact mem_cons_self
      · exact mem_cons_of_mem _ (h.roles i node' hn hrole')
    · intro commit hcommit
      obtain ⟨hprimary, hcall⟩ := h.writers commit hcommit
      exact ⟨mem_cons_of_mem _ hprimary, hcall⟩
  · have hholds : ∀ {i token}, (sys.setPromotion k .finished).Holds i token → sys.Holds i token := by
      rintro i token (hmem | ⟨k', c', lsn', hk', hres'⟩)
      · exact .inl hmem
      · exact .inr ⟨k', c', lsn', hold hk', hres'⟩
    exact ⟨fun k' i token c hk' => h.leases k' i token c (hold hk'),
      fun k' k'' i j token token' c hk' hk'' =>
        h.apart k' k'' i j token token' c (hold hk') (hold hk''),
      fun i token hi => h.bounded i token (hholds hi),
      fun i j token hi hj => h.unique i j token (hholds hi) (hholds hj), h.roles, h.writers⟩
  · exact h

theorem OneHolder.onCommit (h : OneHolder sys) (i : Nat) (commitVersion : Nat)
    (changes : List ReplicationChange) (clock : Lsn → Nat) :
    OneHolder (sys.onCommit i commitVersion changes clock) := by
  unfold ComputeSystem.onCommit
  split
  · exact h
  rename_i node hn
  split_ifs with hcan
  · set request : Request := .append
      (DecoupledComputeNode.commitRecords commitVersion clock node.currentLsn changes)
      node.fencingToken with hrequest
    have h₁ : OneHolder { sys with storage := sys.storage.step (.start request) } :=
      h.storage (.start request) trivial
    refine ⟨h₁.leases, h₁.apart, h₁.bounded, h₁.unique, h₁.roles, ?_⟩
    refine forall_mem_append.mpr ⟨h₁.writers, forall_mem_singleton.mpr ?_⟩
    exact ⟨h.roles i node hn hcan.1, _, _, getElem?_concat_length, QuorumCall.start_request _ _ _⟩
  · exact h

theorem OneHolder.commitAcked (h : OneHolder sys) (k : Nat) :
    OneHolder (sys.commitAcked k) := by
  have hcommits : ∀ commit' ∈ sys.commits.modify k (fun c => { c with finished := true }),
      ∃ commit ∈ sys.commits, commit.node = commit'.node ∧ commit.token = commit'.token ∧
        commit.call = commit'.call := by
    intro commit' hmem
    obtain ⟨j, hj⟩ := getElem?_of_mem hmem
    obtain ⟨commit, hc, ⟨_, rfl⟩ | ⟨_, rfl⟩⟩ := modify_cases hj
    · exact ⟨commit, mem_of_getElem? hc, rfl, rfl, rfl⟩
    · exact ⟨commit', mem_of_getElem? hc, rfl, rfl, rfl⟩
  unfold ComputeSystem.commitAcked
  split
  · exact h
  rename_i commit hcommit
  simp only
  split
  · rename_i lsn hfin hres
    obtain ⟨nodes, heq, hnodes⟩ := foldl_updateNode
      (commit.node :: (sys.nodes[commit.node]?.map (·.replicaListeners)).getD []) lsn
      { sys with commits := sys.commits.modify k fun c => { c with finished := true } }
    rw [heq]
    refine h.frame (fun i node' hn' hrole' => ?_) hcommits
    rw [hnodes] at hn'
    obtain ⟨node, hn, rfl⟩ := map_eq_some_iff.mp hn'
    refine ⟨node, hn, ?_, ?_⟩
    · split_ifs at hrole' <;> exact hrole'
    · split_ifs <;> rfl
  · exact h.frame (fun i node hn hrole => ⟨node, hn, hrole, rfl⟩) hcommits
  · exact h

theorem OneHolder.step (h : OneHolder sys) (action : ComputeAction)
    (hnext : sys.LeaseIsNext action) : OneHolder (sys.step action) := by
  cases action with
  | addReadReplica => exact h.addReadReplica
  | registerReplica i j => exact h.registerReplica i j
  | promoteToPrimary i => exact h.promoteToPrimary i
  | acquireLease k => exact h.acquireLease k
  | leaseAcquired k => exact h.leaseAcquired k
  | onCommit i commitVersion changes clock => exact h.onCommit i commitVersion changes clock
  | commitAcked k => exact h.commitAcked k
  | storage action =>
    cases action with
    | start request => exact h
    | handle c i => exact h.storage _ hnext
    | receive c a => exact h.storage _ hnext
    | setState i state => exact h.storage _ hnext
    | materialize i => exact h.storage _ hnext
    | getKey mapName key readVersion => exact h.storage _ hnext
    | scanRange mapName startKey endKey readVersion => exact h.storage _ hnext

def AppendedUnder (sys : ComputeSystem) (commit : Commit) (token : FencingToken) : Prop :=
  ∃ call records lsn, sys.storage.calls[commit.call]? = some call ∧
    call.request = .append records token ∧ call.result = some (.ok lsn)

/-- One node at most is the primary with a token, and the appends that succeed under it are its. -/
def SingleWriter (sys : ComputeSystem) : Prop :=
  (∀ i j token, (i, token) ∈ sys.primaries → (j, token) ∈ sys.primaries → i = j) ∧
  ∀ commit ∈ sys.commits, ∀ commit' ∈ sys.commits, ∀ token, sys.AppendedUnder commit token →
    sys.AppendedUnder commit' token → commit.node = commit'.node

theorem OneHolder.singleWriter (h : OneHolder sys) : SingleWriter sys := by
  refine ⟨fun i j token hi hj => h.unique i j token (.inl hi) (.inl hj), ?_⟩
  have hprimary : ∀ commit ∈ sys.commits, ∀ token, sys.AppendedUnder commit token →
      (commit.node, token) ∈ sys.primaries := by
    rintro commit hcommit token ⟨call, records, lsn, hc, hreq, _⟩
    obtain ⟨hmem, call', records', hc', hreq'⟩ := h.writers commit hcommit
    cases hc.symm.trans hc'
    cases hreq.symm.trans hreq'
    exact hmem
  intro commit hcommit commit' hcommit' token happ happ'
  exact h.unique _ _ token (.inl (hprimary commit hcommit token happ))
    (.inl (hprimary commit' hcommit' token happ'))

/-- If leases are acquired only while the fleet has the token that was read, every token has a single
writer. -/
theorem singleWriter_of_leaseIsNext (fleet : StorageFleet) (actions : List ComputeAction)
    (hnext : Meets step LeaseIsNext (new fleet) actions) :
    SingleWriter (runs step (new fleet) actions) :=
  (invariant_runs (fun _ action h hnext => h.step action hnext) (oneHolder_new fleet) hnext).singleWriter

theorem leaseIsNext_of_request {c : Nat}
    (h : sys.storage.calls[c]?.all (fun call =>
      match call.request with
      | .lease token => token = sys.storage.fleet.fencingToken.next
      | .append _ _ => true) = true) (a : Nat) :
    sys.LeaseIsNext (.storage (.receive c a)) := by
  rintro token ⟨call, lsn, hc, hreq, _⟩
  rw [hc, all_some, hreq] at h
  exact of_decide_eq_true h

def answers (c : Nat) : List ComputeAction :=
  [.storage (.handle c 0), .storage (.handle c 1), .storage (.receive c 0), .storage (.receive c 0)]

def failover : List ComputeAction :=
  [.addReadReplica, .promoteToPrimary 1, .acquireLease 0] ++ answers 0 ++ [.leaseAcquired 0]

theorem singleWriter_of_leaseIsNext_failover :
    Meets step LeaseIsNext (new .threeNodes) failover ∧
      (runs step (new .threeNodes) failover).primaries = [(1, 2), (0, 1)] ∧
      SingleWriter (runs step (new .threeNodes) failover) := by
  have hmeets : Meets step LeaseIsNext (new .threeNodes) failover := by
    refine ⟨trivial, trivial, trivial, trivial, trivial, ?_, ?_, trivial, trivial⟩
    · exact leaseIsNext_of_request (by decide +kernel) 0
    · exact leaseIsNext_of_request (by decide +kernel) 0
  exact ⟨hmeets, by decide +kernel, singleWriter_of_leaseIsNext .threeNodes failover hmeets⟩

/-- Two replicas read the token before either has its lease, and both write. -/
def doubleFailover : List ComputeAction :=
  [.addReadReplica, .addReadReplica, .promoteToPrimary 1, .promoteToPrimary 2, .acquireLease 0,
    .acquireLease 1] ++ answers 0 ++ answers 1 ++ [.leaseAcquired 0, .leaseAcquired 1,
    .onCommit 1 1 [⟨"a", [1], some [10], false⟩] (fun _ => 0),
    .onCommit 2 1 [⟨"a", [1], some [20], false⟩] (fun _ => 0)] ++ answers 2 ++ answers 3

theorem two_primaries_under_one_token :
    (1, 2) ∈ (runs step (new .threeNodes) doubleFailover).primaries ∧
    (2, 2) ∈ (runs step (new .threeNodes) doubleFailover).primaries ∧
    (runs step (new .threeNodes) doubleFailover).commits.map (fun commit => (commit.node,
      commit.token, (runs step (new .threeNodes) doubleFailover).result commit.call)) =
      [(1, 2, some (.ok 2)), (2, 2, some (.ok 2))] ∧
    ¬ SingleWriter (runs step (new .threeNodes) doubleFailover) := by
  have hone : (1, 2) ∈ (runs step (new .threeNodes) doubleFailover).primaries := by
    decide +kernel
  have htwo : (2, 2) ∈ (runs step (new .threeNodes) doubleFailover).primaries := by
    decide +kernel
  refine ⟨hone, htwo, by decide +kernel, fun hsingle => ?_⟩
  exact absurd (hsingle.1 1 2 2 hone htwo) (by decide)

end ComputeSystem

end H2Database.Storage
