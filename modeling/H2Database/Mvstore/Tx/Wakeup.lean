import H2Database.Reasoning.Run
import H2Database.Mvstore.Tx.Transaction

/-!
# Waking up waiters (`h2-mvstore/src/tx/lock.rs`, the loop of `Transaction::put`)

Here the critical sections of a waiting write and of a finishing transaction are steps of their own.  A
waiter sees the mark of an active holder, registers, checks again that the holder is active, looks up
the cell of the holder and sleeps on it.  A holder that ends leaves `active_transactions`, unregisters
itself and releases its cell.  A cell that is made for the holder after that is released by nobody.
-/

namespace H2Database.Mvstore

open Reasoning List AList Function

namespace LockManager

def waiters (lm : LockManager) (holder : Nat) : Nat :=
  lm.waitFor.entries.countP fun e => e.2 = holder

def Counted (lm : LockManager) (holder : Nat) : Prop :=
  match lm.waitCells.lookup holder with
  | none => lm.waiters holder = 0
  | some (count, _) => count = lm.waiters holder ∧ 0 < count

structure Apart (lm : LockManager) : Prop where
  unreleased : ∀ h count cell, lm.waitCells.lookup h = some (count, cell) →
    lm.released[cell]? = some false
  unique : ∀ h h' count count' cell, lm.waitCells.lookup h = some (count, cell) →
    lm.waitCells.lookup h' = some (count', cell) → h = h'

variable {lm lm' : LockManager} {holder cell waiter h : Nat}

theorem Apart.made (h : lm.Apart) {count : Nat} (hl : lm.waitCells.lookup holder = some (count, cell)) :
    cell < lm.released.length := by
  obtain ⟨hlt, _⟩ := List.getElem?_eq_some_iff.mp (h.unreleased holder count cell hl)
  exact hlt

theorem counted_new (holder : Nat) : Counted .new holder := rfl

theorem apart_new : Apart .new := by
  constructor
  · intro h count cell hl
    cases hl
  · intro h h' count count' cell hl
    cases hl

/-! ## `register_wait` -/

theorem waiters_insert {waitFor : AList fun _ : Nat => Nat} (hnew : waitFor.lookup waiter = none)
    (holder h : Nat) :
    (waitFor.insert waiter holder).entries.countP (fun e => e.2 = h) =
      waitFor.entries.countP (fun e => e.2 = h) + if holder = h then 1 else 0 := by
  have hnot : waiter ∉ waitFor := lookup_eq_none.mp hnew
  rw [entries_insert_of_notMem hnot, countP_cons]
  simp only [decide_eq_true_eq]

theorem addWaiter_cases (lm : LockManager) (holder : Nat) :
    (∃ count cell, lm.waitCells.lookup holder = some (count, cell) ∧
      lm.addWaiter holder =
        { lm with waitCells := lm.waitCells.insert holder (count + 1, cell) }) ∨
    (lm.waitCells.lookup holder = none ∧ lm.addWaiter holder =
      { lm with
        waitCells := lm.waitCells.insert holder (1, lm.released.length)
        released := lm.released ++ [false] }) := by
  unfold addWaiter
  split
  · rename_i count cell heq
    exact .inl ⟨count, cell, heq, rfl⟩
  · rename_i heq
    exact .inr ⟨heq, rfl⟩

theorem registerWait_eq (h : lm.registerWait waiter holder = .ok lm') :
    lm' = { lm.addWaiter holder with waitFor := lm.waitFor.insert waiter holder } := by
  unfold registerWait at h
  split_ifs at h
  exact (Except.ok.inj h).symm

section

variable (hreg : lm.registerWait waiter holder = .ok lm')

include hreg

theorem Apart.registerWait (h : lm.Apart) : lm'.Apart := by
  rw [registerWait_eq hreg]
  rcases lm.addWaiter_cases holder with ⟨count, cell, hcell, heq⟩ | ⟨hnone, heq⟩
  · -- the cells are as they were
    have hold : ∀ h' n c, (lm.waitCells.insert holder (count + 1, cell)).lookup h' = some (n, c) →
        ∃ n', lm.waitCells.lookup h' = some (n', c) := by
      intro h' n c hl
      by_cases hh : h' = holder
      · subst hh
        rw [lookup_insert] at hl
        cases hl
        exact ⟨count, hcell⟩
      · rw [lookup_insert_ne hh] at hl
        exact ⟨n, hl⟩
    rw [heq]
    refine ⟨fun h' n c hl => ?_, fun h' h'' n n' c hl hl' => ?_⟩
    · obtain ⟨n', hl'⟩ := hold h' n c hl
      exact h.unreleased h' n' c hl'
    · obtain ⟨m, hm⟩ := hold h' n c hl
      obtain ⟨m', hm'⟩ := hold h'' n' c hl'
      exact h.unique h' h'' m m' c hm hm'
  · rw [heq]
    have hcases : ∀ h' n c, (lm.waitCells.insert holder (1, lm.released.length)).lookup h' =
        some (n, c) → (h' = holder ∧ c = lm.released.length) ∨
          (h' ≠ holder ∧ lm.waitCells.lookup h' = some (n, c)) := by
      intro h' n c hl
      by_cases hh : h' = holder
      · subst hh
        rw [lookup_insert] at hl
        cases hl
        exact .inl ⟨rfl, rfl⟩
      · rw [lookup_insert_ne hh] at hl
        exact .inr ⟨hh, hl⟩
    refine ⟨fun h' n c hl => ?_, fun h' h'' n n' c hl hl' => ?_⟩
    · rcases hcases h' n c hl with ⟨_, rfl⟩ | ⟨_, hl⟩
      · exact getElem?_concat_length
      · exact (getElem?_append_left (h.made hl)).trans (h.unreleased h' n c hl)
    · rcases hcases h' n c hl with ⟨rfl, rfl⟩ | ⟨_, hl⟩
      · rcases hcases h'' n' _ hl' with ⟨rfl, _⟩ | ⟨_, hl'⟩
        · rfl
        · exact absurd (h.made hl') (Nat.lt_irrefl _)
      · rcases hcases h'' n' c hl' with ⟨_, rfl⟩ | ⟨_, hl'⟩
        · exact absurd (h.made hl) (Nat.lt_irrefl _)
        · exact h.unique h' h'' n n' c hl hl'

theorem registerWait_lookup {count : Nat} (hl : lm.waitCells.lookup h = some (count, cell)) :
    lm'.waitCells.lookup h = some (count + if holder = h then 1 else 0, cell) := by
  rw [registerWait_eq hreg]
  rcases lm.addWaiter_cases holder with ⟨count', cell', hcell, heq⟩ | ⟨hnone, heq⟩
  · rw [heq]
    by_cases hh : h = holder
    · subst hh
      cases hcell.symm.trans hl
      simp only [lookup_insert, if_true]
    · simp only [lookup_insert_ne hh, hl, if_neg (Ne.symm hh), Nat.add_zero]
  · rw [heq]
    have hh : h ≠ holder := by
      rintro rfl
      rw [hnone] at hl
      cases hl
    simp only [lookup_insert_ne hh, hl, if_neg (Ne.symm hh), Nat.add_zero]

theorem registerWait_released (hc : cell < lm.released.length) :
    lm'.released[cell]? = lm.released[cell]? := by
  rw [registerWait_eq hreg]
  rcases lm.addWaiter_cases holder with ⟨count', cell', hcell, heq⟩ | ⟨hnone, heq⟩
  · rw [heq]
  · rw [heq]
    exact getElem?_append_left hc

theorem Counted.registerWait
    (hnew : lm.waitFor.lookup waiter = none) (hc : lm.Counted h) : lm'.Counted h := by
  have hwaiters : lm'.waiters h = lm.waiters h + if holder = h then 1 else 0 := by
    rw [registerWait_eq hreg]
    exact waiters_insert hnew holder h
  unfold Counted at hc ⊢
  cases hl : lm.waitCells.lookup h with
  | some p =>
    obtain ⟨count, cell⟩ := p
    rw [hl] at hc
    simp only at hc
    rw [registerWait_lookup hreg hl]
    simp only
    exact ⟨by rw [hwaiters, ← hc.1], by omega⟩
  | none =>
    rw [hl] at hc
    simp only at hc
    rw [registerWait_eq hreg]
    rcases lm.addWaiter_cases holder with ⟨count', cell', hcell, heq⟩ | ⟨hnone, heq⟩
    · have hh : h ≠ holder := by
        rintro rfl
        rw [hl] at hcell
        cases hcell
      rw [heq]
      simp only [lookup_insert_ne hh, hl]
      exact (waiters_insert hnew holder h).trans (by rw [if_neg (Ne.symm hh)]; exact hc)
    · rw [heq]
      by_cases hh : h = holder
      · subst hh
        simp only [lookup_insert]
        refine ⟨?_, Nat.one_pos⟩
        refine Eq.symm ((waiters_insert hnew h h).trans ?_)
        rw [if_pos rfl]
        exact congrArg (· + 1) hc
      · simp only [lookup_insert_ne hh, hl]
        exact (waiters_insert hnew holder h).trans (by rw [if_neg (Ne.symm hh)]; exact hc)

end

/-! ## `unregister_wait` -/

theorem waiters_erase {waitFor : AList fun _ : Nat => Nat} (hw : waitFor.lookup waiter = some holder)
    (h : Nat) :
    (waitFor.erase waiter).entries.countP (fun e => e.2 = h) + (if holder = h then 1 else 0) =
      waitFor.entries.countP (fun e => e.2 = h) := by
  have hmem : waiter ∈ waitFor.entries.keys :=
    lookup_isSome.mp (by rw [hw]; rfl)
  obtain ⟨b, l₁, l₂, hnot, hsplit, herase⟩ := exists_of_kerase hmem
  have hb : waitFor.entries.dlookup waiter = some b :=
    mem_dlookup waitFor.nodupKeys (by rw [hsplit]; simp)
  cases hb.symm.trans hw
  change (List.kerase waiter waitFor.entries).countP _ + _ = _
  rw [herase, hsplit, countP_append, countP_append, countP_cons]
  simp only [decide_eq_true_eq]
  omega

theorem waiters_pos (hw : lm.waitFor.lookup waiter = some holder) : 0 < lm.waiters holder := by
  have h := waiters_erase hw holder
  rw [if_pos rfl] at h
  unfold waiters
  omega

theorem unregisterWait_cases (lm : LockManager) (waiter : Nat) :
    (lm.waitFor.lookup waiter = none ∧ lm.unregisterWait waiter = lm) ∨
    ∃ holder, lm.waitFor.lookup waiter = some holder ∧
      ((lm.waitCells.lookup holder = none ∧
        lm.unregisterWait waiter = { lm with waitFor := lm.waitFor.erase waiter }) ∨
      (∃ count cell, lm.waitCells.lookup holder = some (count, cell) ∧ count - 1 = 0 ∧
        lm.unregisterWait waiter = { lm with
          waitFor := lm.waitFor.erase waiter
          waitCells := lm.waitCells.erase holder }) ∨
      ∃ count cell, lm.waitCells.lookup holder = some (count, cell) ∧ count - 1 ≠ 0 ∧
        lm.unregisterWait waiter = { lm with
          waitFor := lm.waitFor.erase waiter
          waitCells := lm.waitCells.insert holder (count - 1, cell) }) := by
  unfold unregisterWait
  split
  · rename_i hnone
    exact .inl ⟨hnone, rfl⟩
  · rename_i holder hw
    refine .inr ⟨holder, hw, ?_⟩
    simp only
    split
    · rename_i hnone
      exact .inl ⟨hnone, rfl⟩
    · rename_i count cell hcell
      split_ifs with hzero
      · exact .inr (.inl ⟨count, cell, hcell, hzero, rfl⟩)
      · exact .inr (.inr ⟨count, cell, hcell, hzero, rfl⟩)

theorem unregisterWait_waitFor (lm : LockManager) (waiter : Nat) :
    (lm.unregisterWait waiter).waitFor = lm.waitFor.erase waiter := by
  rcases lm.unregisterWait_cases waiter with ⟨hnone, heq⟩ | ⟨holder, _, ⟨_, heq⟩ | h | h⟩
  · have hnot : waiter ∉ lm.waitFor.keys := lookup_eq_none.mp hnone
    rw [heq]
    exact AList.ext (kerase_of_notMem_keys hnot).symm
  · rw [heq]
  · obtain ⟨count, cell, _, _, heq⟩ := h
    rw [heq]
  · obtain ⟨count, cell, _, _, heq⟩ := h
    rw [heq]

theorem unregisterWait_released (lm : LockManager) (waiter : Nat) :
    (lm.unregisterWait waiter).released = lm.released := by
  rcases lm.unregisterWait_cases waiter with ⟨_, heq⟩ | ⟨holder, _, ⟨_, heq⟩ | h | h⟩
  · rw [heq]
  · rw [heq]
  · obtain ⟨count, cell, _, _, heq⟩ := h
    rw [heq]
  · obtain ⟨count, cell, _, _, heq⟩ := h
    rw [heq]

theorem unregisterWait_lookup {count : Nat}
    (hl : (lm.unregisterWait waiter).waitCells.lookup h = some (count, cell)) :
    ∃ count', lm.waitCells.lookup h = some (count', cell) := by
  rcases lm.unregisterWait_cases waiter with ⟨_, heq⟩ | ⟨holder, _, ⟨_, heq⟩ | hcase | hcase⟩
  · rw [heq] at hl
    exact ⟨count, hl⟩
  · rw [heq] at hl
    exact ⟨count, hl⟩
  · obtain ⟨count', cell', _, _, heq⟩ := hcase
    rw [heq] at hl
    by_cases hh : h = holder
    · subst hh
      rw [lookup_erase] at hl
      cases hl
    · rw [lookup_erase_ne hh] at hl
      exact ⟨count, hl⟩
  · obtain ⟨count', cell', hcell, _, heq⟩ := hcase
    rw [heq] at hl
    by_cases hh : h = holder
    · subst hh
      rw [lookup_insert] at hl
      cases hl
      exact ⟨count', hcell⟩
    · rw [lookup_insert_ne hh] at hl
      exact ⟨count, hl⟩

theorem Apart.unregisterWait (h : lm.Apart) (waiter : Nat) :
    (lm.unregisterWait waiter).Apart := by
  constructor
  · intro h' count cell hl
    rw [unregisterWait_released]
    obtain ⟨count', hl'⟩ := unregisterWait_lookup hl
    exact h.unreleased h' count' cell hl'
  · intro h' h'' count count' cell hl hl'
    obtain ⟨m, hm⟩ := unregisterWait_lookup hl
    obtain ⟨m', hm'⟩ := unregisterWait_lookup hl'
    exact h.unique h' h'' m m' cell hm hm'

theorem Counted.unregisterWait (hc : lm.Counted h) (waiter : Nat) :
    (lm.unregisterWait waiter).Counted h := by
  rcases lm.unregisterWait_cases waiter with ⟨_, heq⟩ | ⟨holder, hw, hcases⟩
  · rw [heq]
    exact hc
  · have hwaiters : (lm.unregisterWait waiter).waiters h + (if holder = h then 1 else 0) =
        lm.waiters h := by
      unfold waiters
      rw [unregisterWait_waitFor]
      exact waiters_erase hw h
    unfold Counted at hc ⊢
    by_cases hh : h = holder
    · subst hh
      rw [if_pos rfl] at hwaiters
      rcases hcases with ⟨hnone, _⟩ | ⟨count, cell, hcell, hzero, heq⟩ |
        ⟨count, cell, hcell, hpos, heq⟩
      · -- somebody waits, so there is an entry
        rw [hnone] at hc
        simp only at hc
        omega
      · rw [hcell] at hc
        simp only at hc
        have hnone : (lm.unregisterWait waiter).waitCells.lookup h = none := by
          rw [heq]
          exact lookup_erase h _
        rw [hnone]
        simp only
        omega
      · rw [hcell] at hc
        simp only at hc
        have hsome : (lm.unregisterWait waiter).waitCells.lookup h = some (count - 1, cell) := by
          rw [heq]
          exact lookup_insert _
        rw [hsome]
        simp only
        exact ⟨by omega, by omega⟩
    · rw [if_neg (Ne.symm hh), Nat.add_zero] at hwaiters
      have hsame : (lm.unregisterWait waiter).waitCells.lookup h = lm.waitCells.lookup h := by
        rcases hcases with ⟨_, heq⟩ | ⟨count, cell, _, _, heq⟩ | ⟨count, cell, _, _, heq⟩
        · rw [heq]
        · rw [heq]
          exact lookup_erase_ne hh
        · rw [heq]
          exact lookup_insert_ne hh
      rw [hsame, hwaiters]
      exact hc

/-! ## `notify_lock_released` -/

theorem notify_waitFor (lm : LockManager) (holder : Nat) :
    (lm.notifyLockReleased holder).waitFor = lm.waitFor := by
  unfold notifyLockReleased
  split <;> rfl

theorem notify_lookup_self (lm : LockManager) (holder : Nat) :
    (lm.notifyLockReleased holder).waitCells.lookup holder = none := by
  unfold notifyLockReleased
  split
  · assumption
  · exact lookup_erase holder _

theorem notify_lookup_ne (lm : LockManager) (hne : h ≠ holder) :
    (lm.notifyLockReleased holder).waitCells.lookup h = lm.waitCells.lookup h := by
  unfold notifyLockReleased
  split
  · rfl
  · exact lookup_erase_ne hne

theorem notify_length (lm : LockManager) (holder : Nat) :
    (lm.notifyLockReleased holder).released.length = lm.released.length := by
  unfold notifyLockReleased
  split
  · rfl
  · exact length_set

theorem notify_released (h : (lm.notifyLockReleased holder).released[cell]? = some false) :
    lm.released[cell]? = some false ∧
      ∀ count, lm.waitCells.lookup holder ≠ some (count, cell) := by
  unfold notifyLockReleased at h
  split at h
  · rename_i hnone
    refine ⟨h, fun count hl => ?_⟩
    rw [hnone] at hl
    cases hl
  · rename_i n c hl
    simp only [getElem?_set] at h
    split_ifs at h with hcc hlt
    · cases h
    · refine ⟨h, fun count hl' => ?_⟩
      cases hl.symm.trans hl'
      exact hcc rfl

theorem notify_released_of_ne (hne : ∀ count, lm.waitCells.lookup holder ≠ some (count, cell)) :
    (lm.notifyLockReleased holder).released[cell]? = lm.released[cell]? := by
  unfold notifyLockReleased
  split
  · rfl
  · rename_i n c hl
    have hcc : c ≠ cell := fun heq => hne n (heq ▸ hl)
    exact getElem?_set_ne hcc

theorem Apart.notify (h : lm.Apart) (holder : Nat) :
    (lm.notifyLockReleased holder).Apart := by
  have hold : ∀ {h' count cell}, (lm.notifyLockReleased holder).waitCells.lookup h' =
      some (count, cell) → lm.waitCells.lookup h' = some (count, cell) := by
    intro h' count cell hl
    by_cases hh : h' = holder
    · subst hh
      rw [notify_lookup_self] at hl
      cases hl
    · rwa [notify_lookup_ne lm hh] at hl
  constructor
  · intro h' count cell hl
    have hne : ∀ count', lm.waitCells.lookup holder ≠ some (count', cell) := by
      intro count' hl'
      have hh := h.unique h' holder count count' cell (hold hl) hl'
      subst hh
      rw [notify_lookup_self] at hl
      cases hl
    rw [notify_released_of_ne hne]
    exact h.unreleased h' count cell (hold hl)
  · intro h' h'' count count' cell hl hl'
    exact h.unique h' h'' count count' cell (hold hl) (hold hl')

theorem Counted.notify (hne : h ≠ holder) (hc : lm.Counted h) :
    (lm.notifyLockReleased holder).Counted h := by
  unfold Counted waiters at hc ⊢
  rw [notify_lookup_ne lm hne, notify_waitFor]
  exact hc

end LockManager

/-! ## The critical sections of waiters and holders -/

/-- How far a transaction is in the loop of a write, or in its end. -/
inductive WaitPhase where
  | notBegun
  /-- outside the loop, or before the check of the mark -/
  | running
  /-- has met the mark of an active holder and dropped the key guard -/
  | sawActive (holder : Nat)
  | registered (holder : Nat)
  /-- has checked once more that the holder is active -/
  | rechecked (holder : Nat)
  /-- inside `wait_timeout` with a cell -/
  | sleeping (holder cell : Nat)
  /-- before `unregister_wait` -/
  | leaving
  /-- committing or rolling back, before `remove_active_tx` -/
  | ending
  | erased
  | unregistered
  /-- after `notify_lock_released` -/
  | finished
  deriving DecidableEq, Repr

inductive WaitAction where
  | begin
  | seeActive (waiter holder : Nat)
  | registerWait (waiter : Nat)
  /-- the query is out of time, and the transaction rolls back -/
  | giveUp (waiter : Nat)
  | recheck (waiter : Nat)
  /-- the first half of `wait_timeout` -/
  | lookUp (waiter : Nat)
  | wake (waiter : Nat)
  | timeOut (waiter : Nat)
  | unregisterWait (waiter : Nat)
  /-- a commit or a rollback starts -/
  | finish (tx : Nat)
  | removeActive (tx : Nat)
  | unregisterOwn (tx : Nat)
  | notifyReleased (tx : Nat)
  deriving DecidableEq, Repr

structure WaitSystem where
  store : TransactionStore
  phase : Nat → WaitPhase

namespace WaitSystem

def new (mvstore : MVStore Stored) : WaitSystem := ⟨.new mvstore, fun _ => .notBegun⟩

def setPhase (s : WaitSystem) (tx : Nat) (p : WaitPhase) : WaitSystem :=
  { s with phase := Function.update s.phase tx p }

def setLocks (s : WaitSystem) (lockManager : LockManager) : WaitSystem :=
  { s with store := { s.store with lockManager } }

/-- One critical section.  An action whose transaction is not at that point does nothing. -/
def step (s : WaitSystem) : WaitAction → WaitSystem
  | .begin => { s with store := s.store.begin.2 }.setPhase s.store.begin.1.txId .running
  | .seeActive w h =>
    if s.phase w = .running ∧ h ≠ w ∧ s.store.isTxActive h then s.setPhase w (.sawActive h) else s
  | .registerWait w =>
    match s.phase w with
    | .sawActive h =>
      match s.store.lockManager.registerWait w h with
      | .error _ => s.setPhase w .ending
      | .ok locks => (s.setLocks locks).setPhase w (.registered h)
    | _ => s
  | .giveUp w =>
    match s.phase w with
    | .registered _ => s.setPhase w .ending
    | _ => s
  | .recheck w =>
    match s.phase w with
    | .registered h => s.setPhase w (if s.store.isTxActive h then .rechecked h else .leaving)
    | _ => s
  | .lookUp w =>
    match s.phase w with
    | .rechecked h =>
      match s.store.lockManager.waitCell h with
      | none => s.setPhase w .leaving
      | some cell => s.setPhase w (.sleeping h cell)
    | _ => s
  | .wake w =>
    match s.phase w with
    | .sleeping _ cell =>
      if s.store.lockManager.isReleased (some cell) then s.setPhase w .leaving else s
    | _ => s
  | .timeOut w =>
    match s.phase w with
    | .sleeping _ _ => s.setPhase w .leaving
    | _ => s
  | .unregisterWait w =>
    if s.phase w = .leaving then
      (s.setLocks (s.store.lockManager.unregisterWait w)).setPhase w .running
    else s
  | .finish tx => if s.phase tx = .running then s.setPhase tx .ending else s
  | .removeActive tx =>
    if s.phase tx = .ending then
      { s with store := { s.store with
          activeTransactions := s.store.activeTransactions.erase tx } }.setPhase tx .erased
    else s
  | .unregisterOwn tx =>
    if s.phase tx = .erased then
      (s.setLocks (s.store.lockManager.unregisterWait tx)).setPhase tx .unregistered
    else s
  | .notifyReleased tx =>
    if s.phase tx = .unregistered then
      (s.setLocks (s.store.lockManager.notifyLockReleased tx)).setPhase tx .finished
    else s

theorem removeActiveTx_eq (s : WaitSystem) {tx : Nat} (h : s.phase tx = .ending) :
    (runs step s [.removeActive tx, .unregisterOwn tx, .notifyReleased tx]).store =
      s.store.removeActiveTx tx := by
  simp only [runs_cons, runs_nil, step, setPhase, setLocks, h, update_self, if_true]
  rfl

theorem waitFor_eq (s : WaitSystem) (t : Transaction) (call : WriteCall) {holder : Nat}
    {locks : LockManager} (hphase : s.phase t.txId = .sawActive holder)
    (hactive : s.store.isTxActive holder = true)
    (hreg : s.store.lockManager.registerWait t.txId holder = .ok locks) :
    t.waitFor s.store call holder none =
        (.waits,
          { t with waiting := some ⟨call, holder, locks.waitCell holder, s.store.lockTimeoutMs⟩ },
          (runs step s [.registerWait t.txId, .recheck t.txId, .lookUp t.txId]).store) ∧
      (runs step s [.registerWait t.txId, .recheck t.txId, .lookUp t.txId]).phase t.txId =
        match locks.waitCell holder with
        | none => .leaving
        | some cell => .sleeping holder cell := by
  have hstill : (s.setLocks locks).store.isTxActive holder = true := hactive
  simp only [runs_cons, runs_nil, step, hphase, hreg, setPhase, update_self, hstill,
    if_true, Transaction.waitFor]
  simp only [setLocks]
  cases locks.waitCell holder <;> exact ⟨rfl, update_self ..⟩

/-! ## What every step keeps -/

end WaitSystem

namespace WaitPhase

/-- In `active_transactions`. -/
def isActive : WaitPhase → Bool
  | .notBegun | .erased | .unregistered | .finished => false
  | _ => true

def holder : WaitPhase → Option Nat
  | .registered h | .rechecked h | .sleeping h _ => some h
  | _ => none

def met : WaitPhase → Option Nat
  | .sawActive h => some h
  | p => p.holder

def isIdle : WaitPhase → Bool
  | .notBegun | .running | .sawActive _ => true
  | _ => false

end WaitPhase

namespace WaitSystem

inductive Change (s : WaitSystem) (action : WaitAction) : WaitSystem → Prop where
  | none : Change s action s
  | begin : Change s action ({ s with store := s.store.begin.2 }.setPhase s.store.nextTxId .running)
  /-- only the phase moves -/
  | move {w : Nat} {p : WaitPhase} (hfrom : (s.phase w).isActive = true) (hto : p.isActive = true)
      (hholder : p.holder = .none ∨ p.holder = (s.phase w).holder)
      (hmet : ∀ h, p.met = some h → (s.phase w).met = some h ∨ s.store.isTxActive h = true)
      (hidle : p.isIdle = true → (s.phase w).isIdle = true)
      (hsleep : ∀ h cell, p = .sleeping h cell → action = .lookUp w ∧
        s.phase w = .rechecked h ∧ s.store.lockManager.waitCell h = some cell) :
      Change s action (s.setPhase w p)
  | register {w h : Nat} {locks : LockManager} (hfrom : s.phase w = .sawActive h)
      (hreg : s.store.lockManager.registerWait w h = .ok locks) :
      Change s action ((s.setLocks locks).setPhase w (.registered h))
  | unregister {w : Nat} {p : WaitPhase}
      (hphase : s.phase w = .leaving ∧ p = .running ∨ s.phase w = .erased ∧ p = .unregistered) :
      Change s action ((s.setLocks (s.store.lockManager.unregisterWait w)).setPhase w p)
  | removeActive {tx : Nat} (hfrom : s.phase tx = .ending) :
      Change s action ({ s with store := { s.store with
          activeTransactions := s.store.activeTransactions.erase tx } }.setPhase tx .erased)
  | notify {tx : Nat} (hfrom : s.phase tx = .unregistered) :
      Change s action ((s.setLocks (s.store.lockManager.notifyLockReleased tx)).setPhase tx .finished)

variable {s : WaitSystem} {w : Nat} {p : WaitPhase}

variable {action : WaitAction}

theorem Change.move_plain (hfrom : (s.phase w).isActive = true)
    (hp : p = .leaving ∨ p = .ending) : Change s action (s.setPhase w p) := by
  rcases hp with rfl | rfl
  all_goals
    exact .move hfrom rfl (.inl rfl) (fun h hh => by cases hh) (fun hh => by cases hh)
      (fun h cell hh => by cases hh)

theorem step_change (s : WaitSystem) (action : WaitAction) : Change s action (s.step action) := by
  cases action with
  | begin => exact .begin
  | seeActive w h =>
    simp only [step]
    split_ifs with hcond
    · obtain ⟨hrun, _, hactive⟩ := hcond
      refine .move (by rw [hrun]; rfl) rfl (.inl rfl) ?_ (fun _ => by rw [hrun]; rfl)
        (fun h cell hh => by cases hh)
      intro h' hmet
      cases hmet
      exact .inr hactive
    · exact .none
  | registerWait w =>
    simp only [step]
    split
    · rename_i h hfrom
      split
      · exact .move_plain (by rw [hfrom]; rfl) (.inr rfl)
      · rename_i locks hreg
        exact .register hfrom hreg
    · exact .none
  | giveUp w =>
    simp only [step]
    split
    · rename_i h hfrom
      exact .move_plain (by rw [hfrom]; rfl) (.inr rfl)
    · exact .none
  | recheck w =>
    simp only [step]
    split
    · rename_i h hfrom
      split_ifs with hactive
      · refine .move (by rw [hfrom]; rfl) rfl (.inr (by rw [hfrom]; rfl)) ?_ (fun hh => by cases hh)
          (fun h cell hh => by cases hh)
        intro h' hmet
        cases hmet
        exact .inr hactive
      · exact .move_plain (by rw [hfrom]; rfl) (.inl rfl)
    · exact .none
  | lookUp w =>
    simp only [step]
    split
    · rename_i h hfrom
      split
      · exact .move_plain (by rw [hfrom]; rfl) (.inl rfl)
      · rename_i cell hcell
        refine .move (by rw [hfrom]; rfl) rfl (.inr (by rw [hfrom]; rfl)) ?_ (fun hh => by cases hh) ?_
        · intro h' hmet
          left
          rw [hfrom]
          exact hmet
        · intro h' cell' heq
          cases heq
          exact ⟨rfl, hfrom, hcell⟩
    · exact .none
  | wake w =>
    simp only [step]
    split
    · rename_i h cell hfrom
      split_ifs
      · exact .move_plain (by rw [hfrom]; rfl) (.inl rfl)
      · exact .none
    · exact .none
  | timeOut w =>
    simp only [step]
    split
    · rename_i h cell hfrom
      exact .move_plain (by rw [hfrom]; rfl) (.inl rfl)
    · exact .none
  | unregisterWait w =>
    simp only [step]
    split_ifs with hfrom
    · exact .unregister (.inl ⟨hfrom, rfl⟩)
    · exact .none
  | finish tx =>
    simp only [step]
    split_ifs with hfrom
    · exact .move_plain (by rw [hfrom]; rfl) (.inr rfl)
    · exact .none
  | removeActive tx =>
    simp only [step]
    split_ifs with hfrom
    · exact .removeActive hfrom
    · exact .none
  | unregisterOwn tx =>
    simp only [step]
    split_ifs with hfrom
    · exact .unregister (.inr ⟨hfrom, rfl⟩)
    · exact .none
  | notifyReleased tx =>
    simp only [step]
    split_ifs with hfrom
    · exact .notify hfrom
    · exact .none

theorem setPhase_phase (s : WaitSystem) (w x : Nat) (p : WaitPhase) :
    (s.setPhase w p).phase x = if x = w then p else s.phase x :=
  update_apply ..

/-- What holds of every run: a holder that has not notified yet counts its waiters, and a transaction is
registered exactly where its phase says. -/
structure Sound (s : WaitSystem) : Prop where
  apart : s.store.lockManager.Apart
  counted : ∀ h, s.phase h ≠ .finished → s.store.lockManager.Counted h
  waits : ∀ w h, (s.phase w).holder = some h → s.store.lockManager.waitFor.lookup w = some h
  idle : ∀ w, (s.phase w).isIdle = true → s.store.lockManager.waitFor.lookup w = none
  fresh : ∀ tx, s.store.nextTxId ≤ tx → s.phase tx = .notBegun
  active : ∀ tx, s.store.isTxActive tx = (s.phase tx).isActive
  met : ∀ w h, (s.phase w).met = some h → s.phase h ≠ .notBegun

theorem sound_new (mvstore : MVStore Stored) : (new mvstore).Sound where
  apart := LockManager.apart_new
  counted h _ := LockManager.counted_new h
  waits w h hh := by cases hh
  idle w _ := rfl
  fresh tx _ := rfl
  active tx := rfl
  met w h hh := by cases hh

theorem setPhase_imp {P : WaitPhase → Prop}
    (hp : P p → P (s.phase w)) {x : Nat} (h : P ((s.setPhase w p).phase x)) : P (s.phase x) := by
  rw [setPhase_phase] at h
  split_ifs at h with hx
  · rw [hx]
    exact hp h
  · exact h

theorem setPhase_begun (hp : p ≠ .notBegun) {x : Nat} (h : s.phase x ≠ .notBegun) :
    (s.setPhase w p).phase x ≠ .notBegun := by
  rw [setPhase_phase]
  split_ifs
  · exact hp
  · exact h

theorem Sound.fresh_setPhase (h : s.Sound) (hfrom : s.phase w ≠ .notBegun) {tx : Nat}
    (htx : s.store.nextTxId ≤ tx) :
    (s.setPhase w p).phase tx = .notBegun := by
  rw [setPhase_phase]
  split_ifs with hx
  · subst hx
    exact absurd (h.fresh tx htx) hfrom
  · exact h.fresh tx htx

theorem Sound.met_setPhase (h : s.Sound) (hp : p ≠ .notBegun)
    (hmet : ∀ x, p.met = some x → (s.phase w).met = some x ∨ s.store.isTxActive x = true) {y x : Nat}
    (hyx : ((s.setPhase w p).phase y).met = some x) : (s.setPhase w p).phase x ≠ .notBegun := by
  apply setPhase_begun hp
  rw [setPhase_phase] at hyx
  split_ifs at hyx with hy
  · rcases hmet x hyx with hold | hactive
    · exact h.met w x hold
    · intro hnot
      rw [h.active, hnot] at hactive
      cases hactive
  · exact h.met y x hyx

theorem Sound.active_setPhase (h : s.Sound) (hsame : p.isActive = (s.phase w).isActive) (tx : Nat) :
    s.store.isTxActive tx = ((s.setPhase w p).phase tx).isActive := by
  rw [setPhase_phase]
  split_ifs with hx
  · rw [hx, hsame]
    exact h.active w
  · exact h.active tx

theorem ne_notBegun (h : p.isActive = true) : p ≠ .notBegun := by
  rintro rfl
  cases h

theorem ne_finished (h : p.isActive = true) : p ≠ .finished := by
  rintro rfl
  cases h

theorem Sound.move (h : s.Sound) (hfrom : (s.phase w).isActive = true) (hto : p.isActive = true)
    (hholder : p.holder = none ∨ p.holder = (s.phase w).holder)
    (hmet : ∀ x, p.met = some x → (s.phase w).met = some x ∨ s.store.isTxActive x = true)
    (hidle : p.isIdle = true → (s.phase w).isIdle = true) : (s.setPhase w p).Sound where
  apart := h.apart
  counted x hx := h.counted x (setPhase_imp (P := (· ≠ .finished)) (fun _ => ne_finished hfrom) hx)
  waits x y hxy := by
    refine h.waits x y (setPhase_imp (P := (·.holder = some y)) (fun hp => ?_) hxy)
    rcases hholder with hnone | hsame
    · rw [hnone] at hp
      cases hp
    · exact hsame ▸ hp
  idle x hx := h.idle x (setPhase_imp (P := (·.isIdle = true)) hidle hx)
  fresh tx htx := h.fresh_setPhase (ne_notBegun hfrom) htx
  active := h.active_setPhase (hto.trans hfrom.symm)
  met y x hyx := h.met_setPhase (ne_notBegun hto) hmet hyx

theorem Sound.begin (h : s.Sound) :
    ({ s with store := s.store.begin.2 }.setPhase s.store.nextTxId .running).Sound := by
  set tx := s.store.nextTxId with htx
  have hnew : s.phase tx = .notBegun := h.fresh tx (Nat.le_refl tx)
  constructor
  · exact h.apart
  · intro x hx
    exact h.counted x (setPhase_imp (s := s) (P := (· ≠ .finished))
      (fun _ => by rw [hnew]; exact WaitPhase.noConfusion) hx)
  · intro x y hxy
    exact h.waits x y (setPhase_imp (s := s) (P := (·.holder = some y)) (fun hp => by cases hp) hxy)
  · intro x hx
    exact h.idle x (setPhase_imp (s := s) (P := (·.isIdle = true)) (fun _ => by rw [hnew]; rfl) hx)
  · intro x hx
    change tx + 1 ≤ x at hx
    rw [setPhase_phase, if_neg (by omega)]
    exact h.fresh x (by omega)
  · intro x
    change ((s.store.activeTransactions.insert tx s.store.mvstore.version).lookup x).isSome = _
    rw [setPhase_phase]
    by_cases hx : x = tx
    · rw [if_pos hx, hx, lookup_insert]
      rfl
    · rw [if_neg hx, lookup_insert_ne hx]
      exact h.active x
  · intro y x hyx
    exact h.met_setPhase WaitPhase.noConfusion (fun x hx => by cases hx) hyx

variable {locks : LockManager}

/-- One transaction moves on, and the lock manager changes for that one only. -/
theorem Sound.relock (h : s.Sound) (hfrom : s.phase w ≠ .notBegun) (hto : p ≠ .notBegun)
    (hactive : p.isActive = (s.phase w).isActive) (hmet : ∀ x, p.met = some x → (s.phase w).met = some x)
    (hapart : locks.Apart) (hcounted : ∀ x, (s.setPhase w p).phase x ≠ .finished → locks.Counted x)
    (hother : ∀ x, x ≠ w → locks.waitFor.lookup x = s.store.lockManager.waitFor.lookup x)
    (hwaits : ∀ x, p.holder = some x → locks.waitFor.lookup w = some x)
    (hidle : p.isIdle = true → locks.waitFor.lookup w = none) : ((s.setLocks locks).setPhase w p).Sound where
  apart := hapart
  counted := hcounted
  waits x y hxy := by
    rw [setPhase_phase] at hxy
    split_ifs at hxy with hx
    · exact hx ▸ hwaits y hxy
    · exact (hother x hx).trans (h.waits x y hxy)
  idle x hx := by
    rw [setPhase_phase] at hx
    split_ifs at hx with hxw
    · exact hxw ▸ hidle hx
    · exact (hother x hxw).trans (h.idle x hx)
  fresh tx htx := h.fresh_setPhase hfrom htx
  active := h.active_setPhase hactive
  met y x hyx := h.met_setPhase hto (fun x hx => Or.inl (hmet x hx)) hyx

theorem Sound.register (h : s.Sound) {holder : Nat}
    (hfrom : s.phase w = .sawActive holder) (hreg : s.store.lockManager.registerWait w holder = .ok locks) :
    ((s.setLocks locks).setPhase w (.registered holder)).Sound := by
  have hnone : s.store.lockManager.waitFor.lookup w = none := h.idle w (by rw [hfrom]; rfl)
  have hwaitFor : locks.waitFor = s.store.lockManager.waitFor.insert w holder := by
    rw [LockManager.registerWait_eq hreg]
  have hbegun : s.phase w ≠ .notBegun ∧ s.phase w ≠ .finished := by
    rw [hfrom]
    exact ⟨WaitPhase.noConfusion, WaitPhase.noConfusion⟩
  refine h.relock hbegun.1 WaitPhase.noConfusion (by rw [hfrom]; rfl) (fun x hx => by rw [hfrom]; exact hx)
    (h.apart.registerWait hreg) (fun x hx => ?_) (fun x hx => ?_) (fun x hx => ?_) fun hidle => by cases hidle
  · exact (h.counted x (setPhase_imp (P := (· ≠ .finished)) (fun _ => hbegun.2) hx)).registerWait hreg hnone
  · rw [hwaitFor, lookup_insert_ne hx]
  · rw [hwaitFor, lookup_insert]
    exact hx

theorem Sound.unregister (h : s.Sound)
    (hphase : s.phase w = .leaving ∧ p = .running ∨ s.phase w = .erased ∧ p = .unregistered) :
    ((s.setLocks (s.store.lockManager.unregisterWait w)).setPhase w p).Sound := by
  have hfrom : s.phase w ≠ .notBegun ∧ s.phase w ≠ .finished := by
    rcases hphase with ⟨hw, _⟩ | ⟨hw, _⟩ <;> rw [hw] <;> exact ⟨WaitPhase.noConfusion, WaitPhase.noConfusion⟩
  have hto : p ≠ .notBegun ∧ p.met = none ∧ p.holder = none ∧ p.isActive = (s.phase w).isActive := by
    rcases hphase with ⟨hw, rfl⟩ | ⟨hw, rfl⟩ <;> rw [hw] <;> exact ⟨WaitPhase.noConfusion, rfl, rfl, rfl⟩
  refine h.relock hfrom.1 hto.1 hto.2.2.2 (fun x hx => ?_) (h.apart.unregisterWait w) (fun x hx => ?_)
    (fun x hx => ?_) (fun x hx => ?_) fun _ => ?_
  · cases hto.2.1.symm.trans hx
  · exact (h.counted x (setPhase_imp (P := (· ≠ .finished)) (fun _ => hfrom.2) hx)).unregisterWait w
  · rw [LockManager.unregisterWait_waitFor, lookup_erase_ne hx]
  · cases hto.2.2.1.symm.trans hx
  · rw [LockManager.unregisterWait_waitFor, lookup_erase]

theorem Sound.removeActive (h : s.Sound) {tx : Nat} (hfrom : s.phase tx = .ending) :
    ({ s with store := { s.store with
        activeTransactions := s.store.activeTransactions.erase tx } }.setPhase tx .erased).Sound := by
  constructor
  · exact h.apart
  · intro x hx
    exact h.counted x (setPhase_imp (s := s) (P := (· ≠ .finished))
      (fun _ => by rw [hfrom]; exact WaitPhase.noConfusion) hx)
  · intro x y hxy
    exact h.waits x y (setPhase_imp (s := s) (P := (·.holder = some y)) (fun hp => by cases hp) hxy)
  · intro x hx
    exact h.idle x (setPhase_imp (s := s) (P := (·.isIdle = true)) (fun hp => by cases hp) hx)
  · intro x hx
    exact h.fresh_setPhase (by rw [hfrom]; exact WaitPhase.noConfusion) hx
  · intro x
    change ((s.store.activeTransactions.erase tx).lookup x).isSome = _
    rw [setPhase_phase]
    by_cases hx : x = tx
    · rw [if_pos hx, hx, lookup_erase]
      rfl
    · rw [if_neg hx, lookup_erase_ne hx]
      exact h.active x
  · intro y x hyx
    exact h.met_setPhase WaitPhase.noConfusion (fun x hx => by cases hx) hyx

theorem Sound.notify (h : s.Sound) {tx : Nat} (hfrom : s.phase tx = .unregistered) :
    ((s.setLocks (s.store.lockManager.notifyLockReleased tx)).setPhase tx .finished).Sound := by
  refine h.relock (by rw [hfrom]; exact WaitPhase.noConfusion) WaitPhase.noConfusion (by rw [hfrom]; rfl)
    (fun x hx => by cases hx) (h.apart.notify tx) (fun x hx => ?_) (fun x _ => ?_) (fun x hx => by cases hx)
    fun hidle => by cases hidle
  · rw [setPhase_phase] at hx
    split_ifs at hx with hxtx
    · exact absurd rfl hx
    · exact (h.counted x hx).notify hxtx
  · rw [LockManager.notify_waitFor]

theorem Sound.step (h : s.Sound) (action : WaitAction) : (s.step action).Sound := by
  have hchange := s.step_change action
  generalize s.step action = s' at hchange ⊢
  cases hchange with
  | none => exact h
  | begin => exact h.begin
  | move hfrom hto hholder hmet hidle _ => exact h.move hfrom hto hholder hmet hidle
  | register hfrom hreg => exact h.register hfrom hreg
  | unregister hphase => exact h.unregister hphase
  | removeActive hfrom => exact h.removeActive hfrom
  | notify hfrom => exact h.notify hfrom

/-! ## Sleepers and their cells -/

/-- The holder has left `active_transactions`, or is about to, and has still to notify. -/
def NotificationDue (s : WaitSystem) (h : Nat) : Prop :=
  s.phase h = .ending ∨ s.phase h = .erased ∨ s.phase h = .unregistered

/-- A waiter asleep on an unreleased cell will have that very cell released by its holder. -/
def NoMissedRelease (s : WaitSystem) : Prop :=
  ∀ w h cell, s.phase w = .sleeping h cell → s.store.lockManager.released[cell]? = some false →
    (s.store.isTxActive h = true ∨ s.NotificationDue h) ∧
      s.store.lockManager.waitCell h = some cell

/-- A waiter that looks for the cell of a holder that has notified already finds none. -/
def FindsNoLateCell (s : WaitSystem) : WaitAction → Prop
  | .lookUp w => ∀ h, s.phase w = .rechecked h → s.phase h = .finished →
    s.store.lockManager.waitCell h = none
  | _ => True

/-- As long as a cell is not released, its holder has not notified, and has no other cell. -/
def Heard (s : WaitSystem) : Prop :=
  ∀ w h cell, s.phase w = .sleeping h cell → cell < s.store.lockManager.released.length ∧
    (s.store.lockManager.released[cell]? = some false → s.phase h ≠ .finished ∧
      s.store.lockManager.waitCell h = some cell)

theorem heard_new (mvstore : MVStore Stored) : (new mvstore).Heard := by
  intro w h cell hw
  cases hw

theorem waitCell_some {lm : LockManager} {h cell : Nat} (hc : lm.waitCell h = some cell) :
    ∃ count, lm.waitCells.lookup h = some (count, cell) := by
  unfold LockManager.waitCell at hc
  obtain ⟨⟨count, c⟩, hl, rfl⟩ := Option.map_eq_some_iff.mp hc
  exact ⟨count, hl⟩

theorem waitCell_of_lookup {lm : LockManager} {h count cell : Nat}
    (hl : lm.waitCells.lookup h = some (count, cell)) : lm.waitCell h = some cell := by
  rw [LockManager.waitCell, hl]
  rfl

theorem Heard.setPhase (h : s.Heard) (hp : p ≠ .finished)
    (hsleep : ∀ x cell, p = .sleeping x cell → cell < s.store.lockManager.released.length ∧
      s.phase x ≠ .finished ∧ s.store.lockManager.waitCell x = some cell) : (s.setPhase w p).Heard := by
  intro x y cell hx
  have hkeep : s.phase y ≠ .finished → (s.setPhase w p).phase y ≠ .finished := by
    intro hy
    rw [setPhase_phase]
    split_ifs
    · exact hp
    · exact hy
  rw [setPhase_phase] at hx
  split_ifs at hx with hxw
  · obtain ⟨hlt, hfin, hcell⟩ := hsleep y cell hx
    exact ⟨hlt, fun _ => ⟨hkeep hfin, hcell⟩⟩
  · obtain ⟨hlt, hun⟩ := h x y cell hx
    exact ⟨hlt, fun hrel => ⟨hkeep (hun hrel).1, (hun hrel).2⟩⟩

theorem Heard.register (h : s.Heard) {holder : Nat}
    (hreg : s.store.lockManager.registerWait w holder = .ok locks) : (s.setLocks locks).Heard := by
  intro x y cell hx
  obtain ⟨hlt, hun⟩ := h x y cell hx
  have hsame := LockManager.registerWait_released hreg hlt
  have hget : locks.released[cell]? = some s.store.lockManager.released[cell] :=
    hsame.trans (List.getElem?_eq_getElem hlt)
  refine ⟨(List.getElem?_eq_some_iff.mp hget).1, fun hrel => ?_⟩
  obtain ⟨hfin, hcell⟩ := hun (hsame ▸ hrel)
  obtain ⟨count, hl⟩ := waitCell_some hcell
  exact ⟨hfin, waitCell_of_lookup (LockManager.registerWait_lookup hreg hl)⟩

theorem Heard.unregister (h : s.Heard) (hs : s.Sound) (hw : (s.phase w).holder = none) :
    (s.setLocks (s.store.lockManager.unregisterWait w)).Heard := by
  intro x y cell hx
  change s.phase x = .sleeping y cell at hx
  obtain ⟨hlt, hun⟩ := h x y cell hx
  have hrel := LockManager.unregisterWait_released s.store.lockManager w
  refine ⟨by change cell < (s.store.lockManager.unregisterWait w).released.length; rwa [hrel],
    fun hfalse => ?_⟩
  obtain ⟨hfin, hcell⟩ := hun (hrel ▸ hfalse)
  refine ⟨hfin, ?_⟩
  have hxw : x ≠ w := by
    rintro rfl
    rw [hx] at hw
    cases hw
  have hwaits : (s.store.lockManager.unregisterWait w).waitFor.lookup x = some y := by
    rw [LockManager.unregisterWait_waitFor, lookup_erase_ne hxw]
    exact hs.waits x y (by rw [hx]; rfl)
  have hpos := LockManager.waiters_pos hwaits
  have hcounted := (hs.counted y hfin).unregisterWait w
  unfold LockManager.Counted at hcounted
  split at hcounted
  · exact absurd hcounted (Nat.pos_iff_ne_zero.mp hpos)
  · rename_i count cell' hl
    obtain ⟨count', hl'⟩ := LockManager.unregisterWait_lookup hl
    cases hcell.symm.trans (waitCell_of_lookup hl')
    exact waitCell_of_lookup hl

theorem Heard.notify (h : s.Heard) (tx : Nat) :
    ((s.setLocks (s.store.lockManager.notifyLockReleased tx)).setPhase tx .finished).Heard := by
  intro x y cell hx
  have hx' : s.phase x = .sleeping y cell :=
    setPhase_imp (s := s) (P := (· = .sleeping y cell)) (fun hp => by cases hp) hx
  obtain ⟨hlt, hun⟩ := h x y cell hx'
  refine ⟨(LockManager.notify_length _ tx).symm ▸ hlt, fun hfalse => ?_⟩
  obtain ⟨hold, hother⟩ := LockManager.notify_released hfalse
  obtain ⟨hfin, hcell⟩ := hun hold
  obtain ⟨count, hl⟩ := waitCell_some hcell
  have hytx : y ≠ tx := by
    rintro rfl
    exact hother count hl
  refine ⟨?_, waitCell_of_lookup ((LockManager.notify_lookup_ne _ hytx).trans hl)⟩
  rw [setPhase_phase, if_neg hytx]
  exact hfin

theorem Heard.step (hs : s.Sound) (h : s.Heard)
    (hgood : s.FindsNoLateCell action) : (s.step action).Heard := by
  have hchange := s.step_change action
  generalize s.step action = s' at hchange ⊢
  cases hchange with
  | none => exact h
  | begin =>
    exact Heard.setPhase (s := { s with store := s.store.begin.2 }) h WaitPhase.noConfusion
      fun x cell hx => by cases hx
  | move hfrom hto _ _ _ hsleep =>
    refine h.setPhase (ne_finished hto) fun x cell hx => ?_
    obtain ⟨rfl, hphase, hcell⟩ := hsleep x cell hx
    obtain ⟨count, hl⟩ := waitCell_some hcell
    refine ⟨hs.apart.made hl, fun hfin => ?_, hcell⟩
    rw [hgood x hphase hfin] at hcell
    cases hcell
  | register hfrom hreg =>
    exact (h.register hreg).setPhase WaitPhase.noConfusion fun x cell hx => by cases hx
  | unregister hphase =>
    rcases hphase with ⟨hw, rfl⟩ | ⟨hw, rfl⟩
    all_goals
      exact (h.unregister hs (by rw [hw]; rfl)).setPhase WaitPhase.noConfusion
        fun x cell hx => by cases hx
  | removeActive hfrom =>
    exact Heard.setPhase (s := { s with store := { s.store with activeTransactions := _ } }) h
      WaitPhase.noConfusion fun x cell hx => by cases hx
  | notify hfrom => exact h.notify _

theorem Sound.active_or_due (hs : s.Sound) {h : Nat} (hbegun : s.phase h ≠ .notBegun)
    (hfin : s.phase h ≠ .finished) : s.store.isTxActive h = true ∨ s.NotificationDue h := by
  rw [hs.active, NotificationDue]
  cases hphase : s.phase h with
  | notBegun => exact absurd hphase hbegun
  | finished => exact absurd hphase hfin
  | erased => exact .inr (.inr (.inl rfl))
  | unregistered => exact .inr (.inr (.inr rfl))
  | _ => exact .inl rfl

theorem Heard.noMissedRelease (h : s.Heard) (hs : s.Sound) : s.NoMissedRelease := by
  intro w x cell hw hrel
  obtain ⟨hfin, hcell⟩ := (h w x cell hw).2 hrel
  exact ⟨hs.active_or_due (hs.met w x (by rw [hw]; rfl)) hfin, hcell⟩

theorem Sound.findsNoLateCell (hs : s.Sound) (h : (s.step action).NoMissedRelease) :
    s.FindsNoLateCell action := by
  cases action with
  | lookUp w =>
    intro x hw hfin
    cases hcell : s.store.lockManager.waitCell x with
    | none => rfl
    | some cell =>
      have hstep : s.step (.lookUp w) = s.setPhase w (.sleeping x cell) := by
        simp only [WaitSystem.step, hw, hcell]
      have hxw : x ≠ w := by
        rintro rfl
        rw [hw] at hfin
        cases hfin
      have hx : (s.setPhase w (.sleeping x cell)).phase x = .finished := by
        rw [setPhase_phase, if_neg hxw]
        exact hfin
      obtain ⟨count, hl⟩ := waitCell_some hcell
      rw [hstep] at h
      obtain ⟨hactive | hdue, _⟩ := h w x cell (by rw [setPhase_phase, if_pos rfl])
        (hs.apart.unreleased x count cell hl)
      · have hinactive := hs.active x
        rw [hfin] at hinactive
        cases hactive.symm.trans hinactive
      · rw [NotificationDue, hx] at hdue
        rcases hdue with hdue | hdue | hdue <;> cases hdue
  | _ => trivial

/-- No release is missed in any state of a run exactly if no waiter ever finds a cell that was made for
a holder after its notification. -/
theorem noMissedRelease_iff_findsNoLateCell (mvstore : MVStore Stored) (actions : List WaitAction) :
    (∀ before, before <+: actions → (runs step (new mvstore) before).NoMissedRelease) ↔
      Meets step FindsNoLateCell (new mvstore) actions := by
  have hstep : ∀ (s : WaitSystem) (action : WaitAction), s.Sound ∧ s.Heard → FindsNoLateCell s action →
      (s.step action).Sound ∧ (s.step action).Heard := by
    intro s action h hgood
    exact ⟨h.1.step action, h.2.step h.1 hgood⟩
  refine forall_prefix_iff_meets hstep ?_ ?_ ⟨sound_new mvstore, heard_new mvstore⟩ actions
  · rintro s ⟨hs, hheard⟩
    exact hheard.noMissedRelease hs
  · rintro s action ⟨hs, _⟩ hnext
    exact hs.findsNoLateCell hnext

/-- Transactions 2 and 3 meet the mark of 1.  Transaction 2 has checked that 1 is active when 1 ends and
notifies; 3 registers after that and so makes a new cell, which 2 finds. -/
def lateCell : List WaitAction :=
  [.begin, .begin, .begin, .seeActive 2 1, .seeActive 3 1, .registerWait 2, .recheck 2, .finish 1,
    .removeActive 1, .unregisterOwn 1, .notifyReleased 1, .registerWait 3, .lookUp 2, .recheck 3,
    .unregisterWait 3]

/-- Transaction 2 sleeps on a cell that no holder has. -/
theorem missed_release :
    (runs step (new .new) lateCell).phase 1 = .finished ∧
    (runs step (new .new) lateCell).phase 2 = .sleeping 1 1 ∧
    (runs step (new .new) lateCell).store.lockManager.released[1]? = some false ∧
    (runs step (new .new) lateCell).store.lockManager.waitCells.keys = [] ∧
    ¬ (runs step (new .new) lateCell).NoMissedRelease := by
  refine ⟨by decide, by decide, by decide, by decide, fun h => ?_⟩
  have hcell := (h 2 1 1 (by decide) (by decide)).2
  have hnone : (runs step (new .new) lateCell).store.lockManager.waitCell 1 = none := by decide
  rw [hnone] at hcell
  cases hcell

end WaitSystem

end H2Database.Mvstore
