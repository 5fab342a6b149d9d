import Mathlib.Data.List.AList
import H2Database.Types.Error

/-!
# The wait-for graph (`h2-mvstore/src/tx/lock.rs`)

Who waits for whom, with the detection of cycles, and the cells waiters sleep on.  The key stripes
only make a critical section of each loop body, which is one step here.
-/

namespace H2Database.Mvstore

structure LockManager where
  /-- waiter to holder -/
  waitFor : AList fun _ : Nat => Nat
  /-- holder to its number of waiters and their cell -/
  waitCells : AList fun _ : Nat => Nat × Nat
  /-- the `released` flag of every cell there has been -/
  released : List Bool

namespace LockManager

def new : LockManager := ⟨∅, ∅, []⟩

/-- The loop of `check_cycle`, which passes every waiter at most once. -/
def followCycle (waitFor : AList fun _ : Nat => Nat) (waiter : Nat) :
    Nat → List Nat → Nat → Bool
  | 0, _, _ => false
  | fuel + 1, visited, curr =>
    match waitFor.lookup curr with
    | none => false
    | some next =>
      if next = waiter then true
      else if next ∈ visited then true
      else followCycle waitFor waiter fuel (next :: visited) next

def checkCycle (waitFor : AList fun _ : Nat => Nat) (waiter holder : Nat) : Bool :=
  if waiter = holder then true
  else followCycle waitFor waiter (waitFor.keys.length + 1) [holder, waiter] holder

def addWaiter (lm : LockManager) (holder : Nat) : LockManager :=
  match lm.waitCells.lookup holder with
  | some (count, cell) =>
    { lm with waitCells := lm.waitCells.insert holder (count + 1, cell) }
  | none =>
    { lm with
      waitCells := lm.waitCells.insert holder (1, lm.released.length)
      released := lm.released ++ [false] }

def registerWait (lm : LockManager) (waiter holder : Nat) : H2Result LockManager :=
  if checkCycle lm.waitFor waiter holder then
    .error (.lockConflict s!"Deadlock detected: transaction {waiter} waiting on transaction {holder}, cancelled to break cycle")
  else .ok { lm.addWaiter holder with waitFor := lm.waitFor.insert waiter holder }

def unregisterWait (lm : LockManager) (waiter : Nat) : LockManager :=
  match lm.waitFor.lookup waiter with
  | none => lm
  | some holder =>
    let waitFor := lm.waitFor.erase waiter
    match lm.waitCells.lookup holder with
    | none => { lm with waitFor }
    | some (count, cell) =>
      if count - 1 = 0 then { lm with waitFor, waitCells := lm.waitCells.erase holder }
      else { lm with waitFor, waitCells := lm.waitCells.insert holder (count - 1, cell) }

/-- The cell `wait_timeout` sleeps on; without one it returns at once. -/
def waitCell (lm : LockManager) (holder : Nat) : Option Nat :=
  (lm.waitCells.lookup holder).map Prod.snd

def isReleased (lm : LockManager) (cell : Option Nat) : Bool :=
  match cell with
  | none => true
  | some i => lm.released.getD i false

def notifyLockReleased (lm : LockManager) (holder : Nat) : LockManager :=
  match lm.waitCells.lookup holder with
  | none => lm
  | some (_, cell) =>
    { lm with waitCells := lm.waitCells.erase holder, released := lm.released.set cell true }

end LockManager

end H2Database.Mvstore
