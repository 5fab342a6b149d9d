import H2Database.Mvstore.CommitOrder

/-!
# The outcomes of a group commit

A record is applied if and only if its outcome says that it is durable, a call keeps the answer that it
has got, and a queue that is poisoned stays so.
-/

namespace H2Database.Mvstore

open Reasoning MVStore List

variable {V : Type} {bc : Bincode (WalRecord V)} {base s : MVStore V}

def CommitOutcome.durable : CommitOutcome → Bool
  | .ok () => true
  | .error (_, durable) => durable

structure CommitFailure where
  error : H2Error
  durable : Bool
  deriving DecidableEq, Repr

namespace GroupCommit

variable {g : GroupCommit V} {persistent : Bool} {file front rest : List UInt8} {txId leader : Nat}
  {prep : Preparation V} {p : GroupCommit V × MVStore V}

/-- The answer of a call, once it has one.  A call that returns from the first critical section has
logged nothing. -/
def result (g : GroupCommit V) (i : Nat) : Option (Except CommitFailure Unit) :=
  match g.calls[i]? with
  | some ⟨.refused e, _⟩ => some (.error ⟨e, false⟩)
  | some ⟨.waiting, some (.ok ())⟩ => some (.ok ())
  | some ⟨.waiting, some (.error (message, durable))⟩ => some (.error ⟨.storage message, durable⟩)
  | _ => none

/-! ## Durable and applied -/

def Settled (g : GroupCommit V) : Prop :=
  ∀ d ∈ g.drains, ∀ p ∈ d.items, CommitOutcome.durable p.2 = d.applied

theorem settled_new (bc : Bincode (WalRecord V)) (base : MVStore V) (persistent sync : Bool) :
    (new bc base persistent sync).Settled := by
  intro x hx
  cases hx

theorem Settled.enqueued (h : g.Settled) (he : Enqueued bc g persistent file s txId prep p) :
    p.1.Settled := by
  cases he <;> exact h

theorem Settled.drained (h : g.Settled) (hd : Drained g persistent front rest s leader p) :
    p.1.Settled := by
  -- the drains so far, and the new one
  have hconcat : ∀ {g' : GroupCommit V} (items : List (PendingCommit V × CommitOutcome))
      (applied : Bool), g'.drains = g.drains → (∀ q ∈ items, CommitOutcome.durable q.2 = applied) →
        (g'.finish leader items applied).Settled := by
    intro g' items applied hdrains hitems d hd
    simp only [finish, hdrains, mem_append, mem_singleton] at hd
    rcases hd with hd | rfl
    · exact h d hd
    · exact hitems
  cases hd with
  | idle hleads => exact h
  | @applied items hleads hitems hdurable =>
    refine hconcat items true rfl fun q hq => ?_
    have hne := hdurable q hq
    rcases hout : q.2 with ⟨message, durable⟩ | _
    · cases durable with
      | false => exact absurd hout (hne message)
      | true => rfl
    · rfl
  | failed message hleads hfile =>
    refine hconcat _ false rfl fun q hq => ?_
    obtain ⟨item, _, rfl⟩ := mem_map.mp hq
    rfl

theorem Settled.applied_eq (h : g.Settled) :
    g.applied = (g.drained.filter fun p => CommitOutcome.durable p.2).map fun p => p.1.record := by
  unfold applied GroupCommit.drained
  unfold Settled at h
  generalize g.drains = drains at h
  induction drains with
  | nil => rfl
  | cons d drains ih =>
    have hd := h d mem_cons_self
    have hrest := ih fun d' hd' => h d' (mem_cons_of_mem _ hd')
    rw [flatMap_cons, filter_append, map_append, ← hrest, filter_cons]
    split_ifs with happlied
    · rw [flatMap_cons, filter_eq_self.mpr fun p hp => (hd p hp).trans happlied]
    · have hnone : d.items.filter (fun p => CommitOutcome.durable p.2) = [] := by
        refine filter_eq_nil_iff.mpr fun p hp => ?_
        rw [hd p hp]
        exact happlied
      rw [hnone, map_nil, nil_append]

/-! ## What stays -/

theorem Enqueued.poisoned (he : Enqueued bc g persistent file s txId prep p)
    (h : g.queue.poisoned ≠ none) : p.1.queue.poisoned ≠ none := by
  cases he with
  | @refused queue wal s' e hs hpending hleader hoffset hfile =>
    show queue.poisoned ≠ none
    rcases hfile with ⟨hsame, _⟩ | ⟨hne, _⟩
    · rw [hsame]
      exact h
    · exact hne
  | queued hs hclean htx hversion hnext hchanges hfile => exact absurd hclean h

theorem Drained.poisoned (hd : Drained g persistent front rest s leader p)
    (h : g.queue.poisoned ≠ none) : p.1.queue.poisoned ≠ none := by
  cases hd with
  | idle hleads => exact h
  | applied hleads hitems hdurable => exact h
  | @failed poisoned wal message hleads hfile =>
    show poisoned ≠ none
    rcases hfile with ⟨hsame, _⟩ | ⟨hne, _⟩
    · rw [hsame]
      exact h
    · exact hne

variable {i : Nat}

theorem result_congr {g' : GroupCommit V} (h : g'.calls[i]? = g.calls[i]?) :
    g'.result i = g.result i := by
  rw [result, result, h]

variable {r : Except CommitFailure Unit}

theorem exists_of_result (h : g.result i = some r) :
    ∃ c, g.calls[i]? = some c ∧ c.phase ≠ .leading ∧
      ((∃ e, c.phase = .refused e) ∨ c.completed ≠ none) := by
  unfold result at h
  split at h
  · rename_i e completed hc
    exact ⟨_, hc, by simp, Or.inl ⟨e, rfl⟩⟩
  · rename_i hc
    exact ⟨_, hc, by simp, Or.inr (by simp)⟩
  · rename_i hc
    exact ⟨_, hc, by simp, Or.inr (by simp)⟩
  · cases h

theorem Enqueued.result (he : Enqueued bc g persistent file s txId prep p)
    (h : g.result i = some r) : p.1.result i = some r := by
  obtain ⟨c, hc, _⟩ := exists_of_result h
  have hlt := (List.getElem?_eq_some_iff.mp hc).1
  rw [← h]
  refine result_congr ?_
  cases he with
  | refused e hs hpending hleader hoffset hfile => exact getElem?_append_left hlt
  | queued hs hclean htx hversion hnext hchanges hfile => exact getElem?_append_left hlt

theorem Drained.result (ht : g.Tracked) (hd : Drained g persistent front rest s leader p)
    (h : g.result i = some r) : p.1.result i = some r := by
  obtain ⟨c, hc, hphase, hdone⟩ := exists_of_result h
  -- its record is not in the queue, and it does not lead
  have hpending : i ∉ g.queue.pending.map PendingCommit.caller := by
    intro hmem
    obtain ⟨x, hx, rfl⟩ := mem_map.mp hmem
    have hcell := ht.untold x hx
    rw [cell, hc, Option.bind_some] at hcell
    refine (ht.accepted x.caller c hc).mp ?_ _ (hdone.resolve_right fun hne => hne hcell).choose_spec
    exact mem_map_of_mem (mem_append_right _ hx)
  have hfinish : ∀ {g' : GroupCommit V} {items : List (PendingCommit V × CommitOutcome)}
      {applied : Bool}, g'.calls = g.calls → items.map Prod.fst = g.queue.pending → g.Leads leader →
        (g'.finish leader items applied).result i = some r := by
    intro g' items applied hcalls hitems hleads
    obtain ⟨lead, hlead, hleading⟩ := hleads
    have hne : leader ≠ i := by
      rintro rfl
      rw [hc] at hlead
      cases hlead
      exact hphase hleading
    have hcallers : i ∉ items.map (·.1.caller) := by
      rw [← hitems, map_map] at hpending
      exact hpending
    rw [← h]
    refine result_congr ?_
    rw [finish, getElem?_modify_ne _ _ hne, deliver_other hcallers, hcalls]
  cases hd with
  | idle hleads => exact h
  | applied hleads hitems hdurable => exact hfinish rfl hitems hleads
  | failed message hleads hfile => exact hfinish rfl (map_fst_failed _ message) hleads

theorem result_of_drained (hl : g.Led) (ht : g.Tracked) {p : PendingCommit V × CommitOutcome}
    (hp : p ∈ g.drained) {message : String} {durable : Bool} (hout : p.2 = .error (message, durable)) :
    g.result p.1.caller = some (.error ⟨.storage message, durable⟩) := by
  have hmem : p.1.caller ∈ g.arrivals.map PendingCommit.caller :=
    mem_map_of_mem (mem_append_left _ (mem_map_of_mem hp))
  have hcell := ht.told p hp
  rw [cell, hout, Option.bind_eq_some_iff] at hcell
  obtain ⟨⟨phase, completed⟩, hc, hcompleted⟩ := hcell
  cases hcompleted
  have haccepted := (ht.accepted _ _ hc).mp hmem
  -- the record of a leader is still in the queue
  have hleading : phase ≠ .leading := by
    rintro rfl
    have hown := hl.own _ ⟨_, hc, rfl⟩
    obtain ⟨x, hx, heq⟩ := mem_map.mp hown
    have hnone := ht.untold x hx
    rw [heq, ht.told p hp] at hnone
    cases hnone
  rw [result, hc]
  cases phase with
  | refused e => exact absurd rfl (haccepted e)
  | leading => exact absurd rfl hleading
  | waiting => rfl

end GroupCommit

end H2Database.Mvstore
