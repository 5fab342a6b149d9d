import Mathlib.Data.List.AList

/-!
# Patches of finite maps

A patch says how the bindings of a map differ from an older image of it: the map may have been
emptied, and after that some keys were bound or unbound.  Patches apply to functions
`K → Option V`; recording a change, emptying and putting a patch back under a newer one are the
corresponding operations on functions.
-/

namespace H2Database.Reasoning

open AList Function

variable {K V : Type} [DecidableEq K]

structure Patch (K V : Type) where
  clear : Bool
  changes : AList (fun _ : K => Option V)

namespace Patch

def empty : Patch K V := ⟨false, ∅⟩

/-- The newest word on `k` is `c`. -/
def set (p : Patch K V) (k : K) (c : Option V) : Patch K V :=
  { p with changes := p.changes.insert k c }

/-- Everything recorded before is superseded by an emptying of the map. -/
def reset : Patch K V := ⟨true, ∅⟩

def isEmpty (p : Patch K V) : Bool := !p.clear && p.changes.entries.isEmpty

def restore (recent old : Patch K V) : Patch K V :=
  if recent.clear then recent
  else { clear := old.clear, changes := recent.changes ∪ old.changes }

def apply (p : Patch K V) (f : K → Option V) (k : K) : Option V :=
  match p.changes.lookup k with
  | some c => c
  | none => if p.clear then none else f k

variable {p : Patch K V}

theorem apply_eq_of_lookup {k : K} {c : Option V} (h : p.changes.lookup k = some c)
    (f : K → Option V) : p.apply f k = c := by
  simp only [apply, h]

theorem apply_eq_of_none {k : K} (h : p.changes.lookup k = none)
    (f : K → Option V) : p.apply f k = if p.clear then none else f k := by
  simp only [apply, h]

@[simp] theorem apply_empty (f : K → Option V) : (empty : Patch K V).apply f = f := rfl

@[simp] theorem apply_reset (f : K → Option V) : (reset : Patch K V).apply f = fun _ => none := rfl

theorem apply_set (p : Patch K V) (k : K) (c : Option V) (f : K → Option V) :
    (p.set k c).apply f = Function.update (p.apply f) k c := by
  funext k'
  by_cases hk : k' = k
  · subst hk
    rw [update_self, apply_eq_of_lookup (lookup_insert _)]
  · have hl : (p.set k c).changes.lookup k' = p.changes.lookup k' := lookup_insert_ne hk
    rw [update_of_ne hk]
    unfold apply
    rw [hl]
    rfl

theorem apply_of_clear (h : p.clear = true) (f g : K → Option V) :
    p.apply f = p.apply g := by
  funext k
  simp only [apply, h, if_true]

theorem apply_of_isEmpty (h : p.isEmpty = true) (f : K → Option V) :
    p.apply f = f := by
  simp only [isEmpty, Bool.and_eq_true, Bool.not_eq_true', List.isEmpty_iff] at h
  have hnone : p.changes = ∅ := AList.ext h.2
  funext k
  rw [apply_eq_of_none (by rw [hnone]; rfl), h.1]
  rfl

theorem apply_restore (recent old : Patch K V) (f : K → Option V) :
    (recent.restore old).apply f = recent.apply (old.apply f) := by
  unfold restore
  by_cases hclear : recent.clear = true
  · rw [if_pos hclear]
    exact apply_of_clear hclear _ _
  · rw [if_neg hclear]
    funext k
    cases hk : recent.changes.lookup k with
    | some c =>
      have hmem : k ∈ recent.changes := lookup_isSome.mp (by rw [hk]; rfl)
      rw [apply_eq_of_lookup hk, apply_eq_of_lookup]
      rw [← hk]
      exact lookup_union_left hmem
    | none =>
      have hmem : k ∉ recent.changes := lookup_eq_none.mp hk
      rw [apply_eq_of_none hk, if_neg hclear]
      simp only [apply, lookup_union_right hmem]

theorem apply_apply (p : Patch K V) (f : K → Option V) : p.apply (p.apply f) = p.apply f := by
  funext k
  cases hk : p.changes.lookup k with
  | some c => rw [apply_eq_of_lookup hk, apply_eq_of_lookup hk]
  | none =>
    rw [apply_eq_of_none hk, apply_eq_of_none hk]
    split_ifs
    · rfl
    · rfl

def changeList (p : Patch K V) : List (K × Option V) := p.changes.entries.map fun e => (e.1, e.2)

def replay (changes : List (K × Option V)) (f : K → Option V) : K → Option V :=
  changes.foldl (fun g c => Function.update g c.1 c.2) f

theorem replay_entries {es : List (Sigma fun _ : K => Option V)} (hnd : es.NodupKeys)
    (f : K → Option V) (k : K) :
    replay (es.map fun e => (e.1, e.2)) f k =
      match es.dlookup k with
      | some c => c
      | none => f k := by
  induction es generalizing f with
  | nil => rfl
  | cons e es ih =>
    obtain ⟨hnot, hnd'⟩ := List.nodupKeys_cons.mp hnd
    simp only [replay, List.map_cons, List.foldl_cons] at ih ⊢
    rw [ih hnd']
    by_cases hk : k = e.1
    · subst hk
      rw [List.dlookup_eq_none.mpr hnot, List.dlookup_cons_eq, update_self]
    · rw [List.dlookup_cons_ne _ _ hk, update_of_ne hk]

theorem replay_changeList (p : Patch K V) (f : K → Option V) :
    replay p.changeList (if p.clear then fun _ => none else f) = p.apply f := by
  funext k
  rw [changeList, replay_entries p.changes.nodupKeys]
  unfold apply AList.lookup
  cases hk : List.dlookup k p.changes.entries with
  | some c => rfl
  | none => by_cases hclear : p.clear <;> simp [hclear]

end Patch

end H2Database.Reasoning
