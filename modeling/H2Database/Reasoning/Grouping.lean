import Mathlib.Data.List.Pairwise
import Mathlib.Order.Nat

/-!
# Groups of numbers

Numbers are put into groups of equal keys, one after the other.  What is computed for the members of a
group is written to their places in a list.
-/

namespace H2Database.Reasoning

open List

variable {κ β : Type}

/-! ## Grouping -/

/-- A Boolean equality that is an equivalence where a property holds. -/
structure EquivalenceOn (same : κ → κ → Bool) (P : κ → Prop) : Prop where
  refl : ∀ {k}, P k → same k k = true
  symm : ∀ {k k'}, P k → P k' → same k k' = true → same k' k = true
  trans : ∀ {k k' k''}, P k → P k' → P k'' → same k k' = true → same k' k'' = true → same k k'' = true

/-- A number goes to the first group with its key, or to a new one at the end. -/
def addToGroup (same : κ → κ → Bool) (key : κ) (i : Nat) : List (κ × List Nat) → List (κ × List Nat)
  | [] => [(key, [i])]
  | (k, members) :: others =>
    if same k key then (k, members ++ [i]) :: others else (k, members) :: addToGroup same key i others

structure Groups (same : κ → κ → Bool) (P : κ → Prop) (key : Nat → κ) (m : Nat)
    (groups : List (κ × List Nat)) :
    Prop where
  keys : ∀ g ∈ groups, P g.1
  members : ∀ g ∈ groups, g.2 = (List.range m).filter fun j => same g.1 (key j)
  covered : ∀ j < m, ∃ g ∈ groups, same g.1 (key j) = true
  apart : groups.Pairwise fun g g' => same g.1 g'.1 = false

section

variable {same : κ → κ → Bool} {P : κ → Prop} {key : Nat → κ} {m : Nat} {groups : List (κ × List Nat)}

theorem addToGroup_cases (same : κ → κ → Bool) (k : κ) (i : Nat) (groups : List (κ × List Nat)) :
    (addToGroup same k i groups = groups ++ [(k, [i])] ∧ ∀ g ∈ groups, same g.1 k = false) ∨
      ∃ front g back, groups = front ++ g :: back ∧ same g.1 k = true ∧
        addToGroup same k i groups = front ++ (g.1, g.2 ++ [i]) :: back := by
  induction groups with
  | nil => exact .inl ⟨rfl, forall_mem_nil _⟩
  | cons g groups ih =>
    obtain ⟨k', members⟩ := g
    by_cases hk : same k' k = true
    · exact .inr ⟨[], (k', members), groups, rfl, hk, by rw [addToGroup, if_pos hk]; rfl⟩
    · rw [addToGroup, if_neg hk]
      rcases ih with ⟨hadd, hnone⟩ | ⟨front, g, back, hgroups, hg, hadd⟩
      · exact .inl ⟨by rw [hadd]; rfl, forall_mem_cons.mpr ⟨by rwa [Bool.not_eq_true] at hk, hnone⟩⟩
      · exact .inr ⟨(k', members) :: front, g, back, by rw [hgroups]; rfl, hg, by rw [hadd]; rfl⟩

namespace Groups

theorem empty (same : κ → κ → Bool) (P : κ → Prop) (key : Nat → κ) : Groups same P key 0 [] :=
  ⟨forall_mem_nil _, forall_mem_nil _, fun _ h => absurd h (Nat.not_lt_zero _), List.Pairwise.nil⟩

theorem add (h : EquivalenceOn same P) (hkey : ∀ j ≤ m, P (key j)) (hgroups : Groups same P key m groups) :
    Groups same P key (m + 1) (addToGroup same (key m) m groups) := by
  have hlast : ∀ k : κ, (List.range (m + 1)).filter (fun j => same k (key j)) =
      (List.range m).filter (fun j => same k (key j)) ++ if same k (key m) then [m] else [] := by
    intro k
    rw [range_succ, filter_append]
    cases hk : same k (key m) with
    | true => rw [filter_cons_of_pos (p := fun j => same k (key j)) hk, filter_nil, if_pos rfl]
    | false =>
      rw [filter_cons_of_neg (p := fun j => same k (key j)) (by rw [hk]; decide), filter_nil,
        if_neg Bool.false_ne_true]
  have hm := hkey m (le_refl m)
  rcases addToGroup_cases same (key m) m groups with ⟨hadd, hnone⟩ | ⟨front, g, back, rfl, hg, hadd⟩
  · -- a new group: no number before has the key
    rw [hadd]
    have hnew : (List.range m).filter (fun j => same (key m) (key j)) = [] := by
      rw [filter_eq_nil_iff]
      intro j hj hsame
      have hj := mem_range.mp hj
      obtain ⟨g, hg, hgj⟩ := hgroups.covered j hj
      have hback := h.symm hm (hkey j hj.le) hsame
      have := h.trans (hgroups.keys g hg) (hkey j hj.le) hm hgj hback
      rw [hnone g hg] at this
      cases this
    refine ⟨fun g hg => ?_, fun g hg => ?_, fun j hj => ?_, ?_⟩
    · rcases mem_append.mp hg with hg | hg
      · exact hgroups.keys g hg
      · rw [mem_singleton.mp hg]
        exact hm
    · rcases mem_append.mp hg with hg | hg
      · rw [hlast, hnone g hg, ← hgroups.members g hg]
        exact (append_nil _).symm
      · rw [mem_singleton.mp hg, hlast, hnew, h.refl hm]
        rfl
    · rcases Nat.lt_succ_iff_lt_or_eq.mp hj with hj | rfl
      · obtain ⟨g, hg, hgj⟩ := hgroups.covered j hj
        exact ⟨g, mem_append_left _ hg, hgj⟩
      · exact ⟨_, mem_append_right _ (mem_singleton.mpr rfl), h.refl hm⟩
    · rw [pairwise_append]
      refine ⟨hgroups.apart, pairwise_singleton _ _, fun g hg g' hg' => ?_⟩
      rw [mem_singleton.mp hg']
      exact hnone g hg
  · -- the number joins a group: no other one has its key
    rw [hadd]
    have hmem : ∀ g' ∈ front ++ (g.1, g.2 ++ [m]) :: back, g' = (g.1, g.2 ++ [m]) ∨
        g' ∈ front ++ g :: back ∧ same g'.1 (key m) = false := by
      obtain ⟨-, hback, hcross⟩ := pairwise_append.mp hgroups.apart
      obtain ⟨hback, -⟩ := pairwise_cons.mp hback
      have hgP : P g.1 := hgroups.keys g (by simp)
      intro g' hg'
      rw [mem_append, mem_cons] at hg'
      rcases hg' with hg' | rfl | hg'
      · have hin : g' ∈ front ++ g :: back := mem_append_left _ hg'
        refine .inr ⟨hin, ?_⟩
        by_contra hsame
        rw [Bool.not_eq_false] at hsame
        have := h.trans (hgroups.keys g' hin) hm hgP hsame (h.symm hgP hm hg)
        rw [hcross g' hg' g mem_cons_self] at this
        cases this
      · exact .inl rfl
      · have hin : g' ∈ front ++ g :: back := mem_append_right _ (mem_cons_of_mem _ hg')
        refine .inr ⟨hin, ?_⟩
        by_contra hsame
        rw [Bool.not_eq_false] at hsame
        have hg'P := hgroups.keys g' hin
        have := h.trans hgP hm hg'P hg (h.symm hg'P hm hsame)
        rw [hback g' hg'] at this
        cases this
    refine ⟨fun g' hg' => ?_, fun g' hg' => ?_, fun j hj => ?_, ?_⟩
    · rcases hmem g' hg' with rfl | ⟨hin, -⟩
      · exact hgroups.keys g (by simp)
      · exact hgroups.keys g' hin
    · rcases hmem g' hg' with rfl | ⟨hin, hother⟩
      · rw [hlast, if_pos hg, ← hgroups.members g (by simp)]
      · rw [hlast, hother, ← hgroups.members g' hin]
        exact (append_nil _).symm
    · rcases Nat.lt_succ_iff_lt_or_eq.mp hj with hj | rfl
      · obtain ⟨g', hg', hgj⟩ := hgroups.covered j hj
        rw [mem_append, mem_cons] at hg'
        rcases hg' with hg' | rfl | hg'
        · exact ⟨g', mem_append_left _ hg', hgj⟩
        · exact ⟨_, mem_append_right _ mem_cons_self, hgj⟩
        · exact ⟨g', mem_append_right _ (mem_cons_of_mem _ hg'), hgj⟩
      · exact ⟨_, mem_append_right _ mem_cons_self, hg⟩
    · have hapart := hgroups.apart
      rw [pairwise_append, pairwise_cons] at hapart ⊢
      obtain ⟨hfront, ⟨hhead, hback⟩, hcross⟩ := hapart
      refine ⟨hfront, ⟨hhead, hback⟩, fun g' hg' g'' hg'' => ?_⟩
      rcases mem_cons.mp hg'' with rfl | hg''
      · exact hcross g' hg' g mem_cons_self
      · exact hcross g' hg' g'' (mem_cons_of_mem _ hg'')

theorem disjoint (h : EquivalenceOn same P) (hkey : ∀ j < m, P (key j))
    (hgroups : Groups same P key m groups) :
    groups.Pairwise fun g g' => ∀ i ∈ g.2, i ∉ g'.2 := by
  refine hgroups.apart.imp_of_mem fun {g g'} hg hg' hapart i hi hi' => ?_
  rw [hgroups.members g hg, mem_filter, mem_range] at hi
  rw [hgroups.members g' hg', mem_filter] at hi'
  have hgP := hgroups.keys g hg
  have hg'P := hgroups.keys g' hg'
  have hi := h.trans hgP (hkey i hi.1) hg'P hi.2 (h.symm hg'P (hkey i hi.1) hi'.2)
  rw [hapart] at hi
  cases hi

end Groups

end

/-! ## Writing to the places of a group -/

def scatter (results : List β) (group : List Nat) (values : List β) : List β :=
  (group.zip values).foldl (fun results p => results.set p.1 p.2) results

@[simp] theorem length_scatter (results : List β) (group : List Nat) (values : List β) :
    (scatter results group values).length = results.length := by
  induction group generalizing results values with
  | nil => rfl
  | cons i group ih =>
    cases values with
    | nil => rfl
    | cons v values => exact (ih (results.set i v) values).trans length_set

theorem scatter_of_notMem {group : List Nat} {j : Nat} (hj : j ∉ group) (results values : List β) :
    (scatter results group values)[j]? = results[j]? := by
  induction group generalizing results values with
  | nil => rfl
  | cons i group ih =>
    rw [mem_cons, not_or] at hj
    cases values with
    | nil => rfl
    | cons v values => exact (ih hj.2 (results.set i v) values).trans (List.getElem?_set_ne (Ne.symm hj.1))

theorem scatter_of_mem {group : List Nat} (hnodup : group.Nodup) {results values : List β}
    (hin : ∀ i ∈ group, i < results.length) (hlength : values.length = group.length) {p j : Nat}
    (hp : group[p]? = some j) : (scatter results group values)[j]? = values[p]? := by
  induction group generalizing results values p with
  | nil => cases hp
  | cons i group ih =>
    rw [nodup_cons] at hnodup
    cases values with
    | nil => cases hlength
    | cons v values =>
      cases p with
      | zero =>
        obtain rfl := Option.some.inj hp
        exact (scatter_of_notMem hnodup.1 (results.set i v) values).trans
          (List.getElem?_set_self (hin i mem_cons_self))
      | succ p =>
        refine ih hnodup.2 (fun k hk => ?_) (Nat.succ.inj hlength) hp
        rw [length_set]
        exact hin k (mem_cons_of_mem _ hk)

end H2Database.Reasoning
