import H2Database.Reasoning.Graphs
import H2Database.Mvstore.Tx.Wakeup

/-!
# Deadlock detection (`h2-mvstore/src/tx/lock.rs`)

Every transaction waits for one other at most.  `check_cycle` follows the holders from the new one and
finds whether it waits for the waiter; as long as no registration closes a cycle there is none.
-/

namespace H2Database.Mvstore

open Reasoning Relation List AList

inductive LockCall where
  | registerWait (waiter holder : Nat)
  | unregisterWait (waiter : Nat)
  | notifyLockReleased (holder : Nat)

namespace LockManager

def step (lm : LockManager) : LockCall → LockManager
  | .registerWait waiter holder =>
    match lm.registerWait waiter holder with
    | .ok lm' => lm'
    | .error _ => lm
  | .unregisterWait waiter => lm.unregisterWait waiter
  | .notifyLockReleased holder => lm.notifyLockReleased holder

def WaitsFor (waitFor : AList fun _ : Nat => Nat) (waiter holder : Nat) : Prop :=
  waitFor.lookup waiter = some holder

/-- The loop of `check_cycle` from `curr`, for as many turns as it takes. -/
inductive Follows (waitFor : AList fun _ : Nat => Nat) (waiter : Nat) : List Nat → Nat → Bool → Prop
  | ended {visited : List Nat} {curr : Nat} (h : waitFor.lookup curr = none) :
      Follows waitFor waiter visited curr false
  | closed {visited : List Nat} {curr : Nat} (h : waitFor.lookup curr = some waiter) :
      Follows waitFor waiter visited curr true
  | revisited {visited : List Nat} {curr next : Nat} (h : waitFor.lookup curr = some next)
      (hne : next ≠ waiter) (hin : next ∈ visited) : Follows waitFor waiter visited curr true
  | turn {visited : List Nat} {curr next : Nat} {found : Bool} (h : waitFor.lookup curr = some next)
      (hne : next ≠ waiter) (hnew : next ∉ visited)
      (rest : Follows waitFor waiter (next :: visited) next found) : Follows waitFor waiter visited curr found

variable {waitFor : AList fun _ : Nat => Nat} {waiter holder : Nat} {visited : List Nat} {curr : Nat}

theorem follows_followCycle (fuel : Nat) (hnew : curr ∉ visited)
    (hfuel : (waitFor.keys.toFinset \ visited.toFinset).card < fuel) :
    Follows waitFor waiter (curr :: visited) curr
      (followCycle waitFor waiter fuel (curr :: visited) curr) := by
  induction fuel generalizing visited curr with
  | zero => omega
  | succ fuel ih =>
    rw [followCycle]
    cases hnext : waitFor.lookup curr with
    | none => exact .ended hnext
    | some next =>
      dsimp only
      split_ifs with hwaiter hvisited
      · exact .closed (hwaiter ▸ hnext)
      · exact .revisited hnext hwaiter hvisited
      · refine .turn hnext hwaiter hvisited (ih hvisited ?_)
        have hkey : curr ∈ waitFor.keys.toFinset \ visited.toFinset := by
          rw [Finset.mem_sdiff, mem_toFinset, mem_toFinset]
          exact ⟨lookup_isSome.mp (by rw [hnext]; rfl), hnew⟩
        have hsub : waitFor.keys.toFinset \ (curr :: visited).toFinset ⊂
            waitFor.keys.toFinset \ visited.toFinset := by
          rw [toFinset_cons, Finset.sdiff_insert]
          exact Finset.erase_ssubset hkey
        have hless := Finset.card_lt_card hsub
        omega

theorem card_keys_sdiff_lt (visited : List Nat) :
    (waitFor.keys.toFinset \ visited.toFinset).card < waitFor.keys.length + 1 := by
  have hsub := Finset.card_le_card (Finset.sdiff_subset (s := waitFor.keys.toFinset) (t := visited.toFinset))
  have hkeys := waitFor.keys.toFinset_card_le
  omega

theorem follows_checkCycle (hne : waiter ≠ holder) :
    Follows waitFor waiter [holder, waiter] holder (checkCycle waitFor waiter holder) := by
  rw [checkCycle, if_neg hne]
  refine follows_followCycle _ ?_ (card_keys_sdiff_lt _)
  rw [mem_singleton]
  exact hne.symm

theorem Follows.unique {found found' : Bool} (h : Follows waitFor waiter visited curr found)
    (h' : Follows waitFor waiter visited curr found') : found = found' := by
  induction h with
  | ended hnext => cases h' <;> simp_all
  | closed hnext => cases h' <;> simp_all
  | revisited hnext hne hin => cases h' <;> simp_all
  | turn hnext hne hnew _ ih =>
    cases h' with
    | turn hnext' _ _ rest =>
      cases hnext.symm.trans hnext'
      exact ih rest
    | ended hnext' => cases hnext.symm.trans hnext'
    | closed hnext' => exact absurd (Option.some.inj (hnext.symm.trans hnext')) hne
    | revisited hnext' _ hin =>
      cases hnext.symm.trans hnext'
      exact absurd hin hnew

theorem Follows.found_iff {found : Bool} (h : Follows waitFor waiter visited curr found)
    (hacyclic : Acyclic (WaitsFor waitFor))
    (hvisited : ∀ x ∈ visited, x ≠ waiter → ReflTransGen (WaitsFor waitFor) x curr) :
    found = true ↔ TransGen (WaitsFor waitFor) curr waiter := by
  induction h with
  | ended hnext =>
    refine iff_of_false Bool.false_ne_true fun hpath => ?_
    obtain ⟨next, hstep, -⟩ := TransGen.head'_iff.mp hpath
    cases hnext.symm.trans hstep
  | closed hnext => exact iff_of_true rfl (.single hnext)
  | revisited hnext hne hin =>
    exact absurd (TransGen.tail' (hvisited _ hin hne) hnext) (hacyclic _)
  | @turn visited curr next found hnext hne _ _ ih =>
    rw [ih fun x hx hxne => ?_]
    · refine ⟨fun hpath => .head hnext hpath, fun hpath => ?_⟩
      obtain ⟨next', hstep, hrest⟩ := TransGen.head'_iff.mp hpath
      cases hnext.symm.trans hstep
      exact (reflTransGen_iff_eq_or_transGen.mp hrest).resolve_left fun heq => hne heq.symm
    · rcases mem_cons.mp hx with rfl | hin
      · exact .refl
      · exact (hvisited x hin hxne).tail hnext

theorem checkCycle_iff (hacyclic : Acyclic (WaitsFor waitFor)) :
    checkCycle waitFor waiter holder = true ↔ ReflTransGen (WaitsFor waitFor) holder waiter := by
  by_cases heq : waiter = holder
  · rw [checkCycle, if_pos heq]
    exact iff_of_true rfl (heq ▸ .refl)
  · rw [(follows_checkCycle heq).found_iff hacyclic fun x hx hne => ?_, reflTransGen_iff_eq_or_transGen,
      or_iff_right heq]
    rcases mem_cons.mp hx with rfl | hx
    · exact .refl
    · exact absurd (mem_singleton.mp hx) hne

theorem replaces_insert (waitFor : AList fun _ : Nat => Nat) (waiter holder : Nat) :
    Replaces (WaitsFor waitFor) (WaitsFor (waitFor.insert waiter holder)) waiter holder := by
  refine ⟨fun y => ?_, fun x y hx => ?_⟩
  · rw [WaitsFor, lookup_insert]
    exact ⟨fun h => (Option.some.inj h).symm, fun h => by rw [h]⟩
  · rw [WaitsFor, WaitsFor, lookup_insert_ne hx]

theorem registerWait_error_iff {lm : LockManager} (hacyclic : Acyclic (WaitsFor lm.waitFor)) :
    (∃ e, lm.registerWait waiter holder = .error e) ↔
      ¬Acyclic (WaitsFor (lm.waitFor.insert waiter holder)) := by
  rw [(replaces_insert lm.waitFor waiter holder).acyclic_iff hacyclic, not_not, ← checkCycle_iff hacyclic]
  unfold registerWait
  split_ifs with hcycle
  · exact iff_of_true ⟨_, rfl⟩ hcycle
  · refine iff_of_false ?_ hcycle
    rintro ⟨e, he⟩
    cases he

theorem acyclic_step {lm : LockManager} (h : Acyclic (WaitsFor lm.waitFor)) (call : LockCall) :
    Acyclic (WaitsFor (lm.step call).waitFor) := by
  cases call with
  | registerWait waiter holder =>
    unfold step
    dsimp only
    split
    next lm' hok =>
      by_contra hcycle
      rw [registerWait_eq hok] at hcycle
      obtain ⟨e, he⟩ := (registerWait_error_iff h).mpr hcycle
      cases hok.symm.trans he
    next => exact h
  | unregisterWait waiter =>
    refine h.mono fun x y hxy => ?_
    have hlookup : (lm.waitFor.erase waiter).lookup x = some y := by
      rw [← unregisterWait_waitFor]
      exact hxy
    by_cases hx : x = waiter
    · rw [hx, lookup_erase] at hlookup
      cases hlookup
    · rwa [lookup_erase_ne hx] at hlookup
  | notifyLockReleased holder =>
    refine h.mono fun x y hxy => ?_
    unfold step notifyLockReleased at hxy
    dsimp only at hxy
    split at hxy <;> exact hxy

/-- Whatever calls have been made, nobody waits in a circle, a registration is refused exactly if it would
close one, and `check_cycle` comes to its answer on every relation. -/
theorem waitFor_acyclic (calls : List LockCall) :
    Acyclic (WaitsFor (runs step new calls).waitFor) ∧
    (∀ waiter holder, (∃ e, (runs step new calls).registerWait waiter holder = .error e) ↔
      ¬Acyclic (WaitsFor ((runs step new calls).waitFor.insert waiter holder))) ∧
    ∀ waitFor waiter holder, waiter ≠ holder → ∀ found,
      Follows waitFor waiter [holder, waiter] holder found ↔ found = checkCycle waitFor waiter holder := by
  have hacyclic : Acyclic (WaitsFor (runs step new calls).waitFor) := by
    refine @runs_invariant _ _ step (fun lm => Acyclic (WaitsFor lm.waitFor))
      (fun lm call h => acyclic_step h call) _ (fun x hx => ?_) calls
    obtain ⟨y, hstep, -⟩ := TransGen.head'_iff.mp hx
    cases hstep
  refine ⟨hacyclic, fun waiter holder => registerWait_error_iff hacyclic, ?_⟩
  intro waitFor waiter holder hne found
  exact ⟨fun h => h.unique (follows_checkCycle hne), fun h => h ▸ follows_checkCycle hne⟩

end LockManager

/-! ## Waiting writes -/

namespace WaitSystem

open LockManager

theorem acyclic_action {s : WaitSystem} (h : Acyclic (WaitsFor s.store.lockManager.waitFor))
    (action : WaitAction) :
    Acyclic (WaitsFor (s.step action).store.lockManager.waitFor) := by
  have hchange := s.step_change action
  generalize s.step action = s' at hchange ⊢
  cases hchange with
  | none => exact h
  | begin => exact h
  | move => exact h
  | removeActive => exact h
  | @register w holder locks _ hreg =>
    have hnew := LockManager.acyclic_step h (.registerWait w holder)
    simp only [LockManager.step, hreg] at hnew
    exact hnew
  | @unregister w => exact LockManager.acyclic_step h (.unregisterWait w)
  | @notify tx => exact LockManager.acyclic_step h (.notifyLockReleased tx)

/-- However the waiting writes and the endings interleave, whoever waits is waiting, over the holders, for a
transaction that has begun and does not wait: there is no deadlock. -/
theorem waits_end_awake (mvstore : MVStore Stored) (actions : List WaitAction) (w : Nat) :
    ∃ z, ReflTransGen (fun x y => ((runs step (new mvstore) actions).phase x).holder = some y) w z ∧
      ((runs step (new mvstore) actions).phase z).holder = none ∧
      (z = w ∨ (runs step (new mvstore) actions).phase z ≠ .notBegun) := by
  have hs : (runs step (new mvstore) actions).Sound :=
    runs_invariant (fun _ action h => h.step action) (sound_new mvstore) actions
  have hacyclic : Acyclic (WaitsFor (runs step (new mvstore) actions).store.lockManager.waitFor) := by
    refine @runs_invariant _ _ step (fun s => Acyclic (WaitsFor s.store.lockManager.waitFor))
      (fun s action h => acyclic_action h action) _ (fun x hx => ?_) actions
    obtain ⟨y, hstep, -⟩ := TransGen.head'_iff.mp hx
    cases hstep
  generalize runs step (new mvstore) actions = s at hs hacyclic ⊢
  obtain ⟨z, hz, hend⟩ := (hacyclic.mono hs.waits).exists_end s.store.lockManager.waitFor.keys.toFinset w
    fun x y _ hxy => mem_toFinset.mpr (lookup_isSome.mp (by rw [hs.waits x y hxy]; rfl))
  refine ⟨z, hz, Option.eq_none_iff_forall_ne_some.mpr hend, ?_⟩
  rcases ReflTransGen.cases_tail hz with rfl | ⟨y, -, hyz⟩
  · exact .inl rfl
  · refine .inr (hs.met y z ?_)
    cases hphase : s.phase y <;> rw [hphase] at hyz <;> cases hyz <;> rfl

end WaitSystem

end H2Database.Mvstore
