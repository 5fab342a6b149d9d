import H2Database.Mvstore.Tree
import H2Database.Reasoning.Patch

/-!
# Named maps (`h2-mvstore/src/map.rs`)

A map is a tree with a modification counter, a cache of its serialized root and a journal of what has
changed since the last persisted image.  `Tracks` is the purpose of the journal: applied to that image
it gives the tree.  The change sink of replication is left out, and so is the map's own copy of its
name, which only the sink reads.
-/

namespace H2Database.Mvstore

open Reasoning Function

structure MapJournal (V : Type) where
  enabled : Bool
  patch : Patch Key V

structure MVMap (V : Type) where
  tree : MVTree Key V
  modCount : Nat
  cachedRoot : Option (Nat × MVTree Key V)
  journal : MapJournal V

variable {V : Type}

def MapJournal.record (j : MapJournal V) (k : Key) (c : Option V) : MapJournal V :=
  if j.enabled then { j with patch := j.patch.set k c } else j

/-- `MapJournal::reset`. -/
def MapJournal.reset (j : MapJournal V) : MapJournal V := { j with patch := .empty }

namespace MVMap

def new (tree : MVTree Key V) : MVMap V := ⟨tree, 1, none, ⟨false, .empty⟩⟩

def get (m : MVMap V) (k : Key) : Option V := m.tree.get k

def put (m : MVMap V) (k : Key) (v : V) : MVMap V :=
  { m with
    tree := m.tree.put k v
    modCount := m.modCount + 1
    journal := m.journal.record k (some v) }

/-- The map after a removal and the removed value; only a real removal is journaled. -/
def remove (m : MVMap V) (k : Key) : MVMap V × Option V :=
  let removed := (m.tree.remove k).2
  ({ m with
    tree := (m.tree.remove k).1
    modCount := m.modCount + 1
    journal := if removed.isSome then m.journal.record k none else m.journal }, removed)

def clear (m : MVMap V) : MVMap V :=
  { m with
    tree := .empty
    modCount := m.modCount + 1
    journal := if m.journal.enabled then { m.journal with patch := .reset } else m.journal }

/-- The serialized root and the map with its cache filled; an unchanged map answers from the cache. -/
def getSerializedRoot (m : MVMap V) : MVTree Key V × MVMap V :=
  match m.cachedRoot with
  | some (count, root) =>
    if count = m.modCount then (root, m)
    else (m.tree, { m with cachedRoot := some (m.modCount, m.tree) })
  | none => (m.tree, { m with cachedRoot := some (m.modCount, m.tree) })

def takeJournal (m : MVMap V) : Patch Key V × MVMap V :=
  (m.journal.patch, { m with journal := m.journal.reset })

def setJournaling (m : MVMap V) (enabled : Bool) : MVMap V :=
  { m with journal := { m.journal with enabled := enabled } }

def restoreJournal (m : MVMap V) (old : Patch Key V) : MVMap V :=
  { m with journal := { m.journal with patch := m.journal.patch.restore old } }

/-- `journal.reset()` under `freeze_mutations`. -/
def resetJournal (m : MVMap V) : MVMap V := { m with journal := m.journal.reset }

/-! ## The tree after each operation -/

theorem get_tree_put (t : MVTree Key V) (k : Key) (v : V) :
    (t.put k v).get = Function.update t.get k (some v) := by
  funext k'
  rw [MVTree.get_put, update_apply]
  congr

theorem get_tree_remove (t : MVTree Key V) (k : Key) :
    (t.remove k).1.get = Function.update t.get k none := by
  funext k'
  rw [MVTree.get_remove, update_apply]
  congr

theorem put_get (m : MVMap V) (k : Key) (v : V) :
    (m.put k v).get = Function.update m.get k (some v) := get_tree_put m.tree k v

theorem remove_get (m : MVMap V) (k : Key) :
    (m.remove k).1.get = Function.update m.get k none := get_tree_remove m.tree k

@[simp] theorem remove_snd (m : MVMap V) (k : Key) : (m.remove k).2 = m.get k :=
  MVTree.remove_snd m.tree k

theorem clear_get (m : MVMap V) : m.clear.get = fun _ => none := by
  funext k
  exact MVTree.get_empty k

@[simp] theorem put_enabled (m : MVMap V) (k : Key) (v : V) :
    (m.put k v).journal.enabled = m.journal.enabled := by
  unfold put MapJournal.record
  split <;> rfl

@[simp] theorem remove_enabled (m : MVMap V) (k : Key) :
    (m.remove k).1.journal.enabled = m.journal.enabled := by
  unfold remove MapJournal.record
  simp only
  split_ifs <;> rfl

@[simp] theorem clear_enabled (m : MVMap V) : m.clear.journal.enabled = m.journal.enabled := by
  unfold clear
  split <;> rfl

/-! ## The cache -/

/-- A cached root with the current count is the root of the current tree. -/
def Cached (m : MVMap V) : Prop :=
  ∀ count root, m.cachedRoot = some (count, root) →
    count ≤ m.modCount ∧ (count = m.modCount → root = m.tree)

theorem new_cached (tree : MVTree Key V) : (new tree).Cached := fun _ _ h => by cases h

theorem Cached.modified {m m' : MVMap V} (h : m.Cached) (hcount : m'.modCount = m.modCount + 1)
    (hcache : m'.cachedRoot = m.cachedRoot) : m'.Cached := by
  intro count root hroot
  rw [hcache] at hroot
  have := (h count root hroot).1
  exact ⟨by omega, fun heq => by omega⟩

variable {m : MVMap V}

theorem getSerializedRoot_fst (h : m.Cached) : m.getSerializedRoot.1 = m.tree := by
  unfold getSerializedRoot
  split
  · rename_i count root hroot
    split_ifs with heq
    · exact (h count root hroot).2 heq
    · rfl
  · rfl

theorem getSerializedRoot_cached (h : m.Cached) : m.getSerializedRoot.2.Cached := by
  unfold getSerializedRoot
  split
  · split_ifs
    · exact h
    · rintro _ _ ⟨⟩
      exact ⟨Nat.le_refl _, fun _ => rfl⟩
  · rintro _ _ ⟨⟩
    exact ⟨Nat.le_refl _, fun _ => rfl⟩

theorem getSerializedRoot_snd (m : MVMap V) :
    m.getSerializedRoot.2.tree = m.tree ∧ m.getSerializedRoot.2.journal = m.journal ∧
      m.getSerializedRoot.2.modCount = m.modCount := by
  unfold getSerializedRoot
  split
  · split_ifs <;> exact ⟨rfl, rfl, rfl⟩
  · exact ⟨rfl, rfl, rfl⟩

/-! ## The journal -/

/-- The journal is the difference of the map from the image `base`. -/
def Tracks (m : MVMap V) (base : Key → Option V) : Prop := m.journal.patch.apply base = m.get

variable {base : Key → Option V}

theorem Tracks.put (h : m.Tracks base)
    (hon : m.journal.enabled = true) (k : Key) (v : V) : (m.put k v).Tracks base := by
  have hpatch : (m.put k v).journal.patch = m.journal.patch.set k (some v) := by
    simp only [MVMap.put, MapJournal.record, hon, if_true]
  rw [Tracks, hpatch, Patch.apply_set, put_get, h]

theorem Tracks.remove (h : m.Tracks base)
    (hon : m.journal.enabled = true) (k : Key) : (m.remove k).1.Tracks base := by
  rw [Tracks, remove_get]
  cases hget : m.get k with
  | none =>
    have hpatch : (m.remove k).1.journal.patch = m.journal.patch := by
      have hnone : (m.tree.remove k).2 = none := (remove_snd m k).trans hget
      simp only [MVMap.remove, hnone, Option.isSome_none, Bool.false_eq_true, if_false]
    rw [hpatch, h, ← hget, update_eq_self]
  | some v =>
    have hpatch : (m.remove k).1.journal.patch = m.journal.patch.set k none := by
      have hsome : (m.tree.remove k).2 = some v := (remove_snd m k).trans hget
      simp only [MVMap.remove, hsome, Option.isSome_some, if_true, MapJournal.record, hon]
    rw [hpatch, Patch.apply_set, h]

theorem Tracks.clear (hon : m.journal.enabled = true) (base : Key → Option V) :
    m.clear.Tracks base := by
  have hpatch : m.clear.journal.patch = .reset := by
    simp only [MVMap.clear, hon, if_true]
  rw [Tracks, hpatch, clear_get, Patch.apply_reset]

theorem Tracks.of_clear (h : m.Tracks base)
    (hclear : m.journal.patch.clear = true) (base' : Key → Option V) : m.Tracks base' :=
  (Patch.apply_of_clear hclear base' base).trans h

theorem tracks_of_empty (h : m.journal.patch = .empty) : m.Tracks m.get := by
  rw [Tracks, h, Patch.apply_empty]

end MVMap

end H2Database.Mvstore
