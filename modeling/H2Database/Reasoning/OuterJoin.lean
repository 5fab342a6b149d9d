import Mathlib.Data.List.Perm.Basic

/-!
# Joins of two lists

A join pairs the elements of two lists that match.  An outer join keeps elements without a partner, too,
each once.
-/

namespace H2Database.Reasoning

open List

variable {α β : Type}

section

variable (test : α → β → Bool) (ls : List α) (rs : List β)

def matchedPairs : List (Option α × Option β) :=
  ls.flatMap fun a => (rs.filter (test a)).map fun b => (some a, some b)

def unmatchedLeft : List (Option α × Option β) :=
  (ls.filter fun a => !rs.any (test a)).map fun a => (some a, none)

def unmatchedRight : List (Option α × Option β) :=
  (rs.filter fun b => !ls.any fun a => test a b).map fun b => (none, some b)

end

theorem flatMap_comm (ls : List α) (rs : List β) {γ : Type} (f : α → β → List γ) :
    (ls.flatMap fun a => rs.flatMap fun b => f a b).Perm (rs.flatMap fun b => ls.flatMap fun a => f a b) := by
  induction ls with
  | nil =>
    simp only [flatMap_nil, flatMap_eq_nil_iff.mpr fun b _ => rfl]
    exact List.Perm.refl _
  | cons a ls ih =>
    simp only [flatMap_cons]
    exact (ih.append_left _).trans (flatMap_append_perm rs (f a) _)

theorem map_filter_eq_flatMap {γ : Type} (p : β → Bool) (f : β → γ) (rs : List β) :
    (rs.filter p).map f = rs.flatMap fun b => if p b then [f b] else [] := by
  induction rs with
  | nil => rfl
  | cons b rs ih =>
    rw [flatMap_cons, ← ih]
    by_cases hp : p b = true
    · rw [filter_cons_of_pos hp, if_pos hp]
      rfl
    · rw [filter_cons_of_neg hp, if_neg hp]
      rfl

theorem matchedPairs_swap (test : α → β → Bool) (ls : List α) (rs : List β) :
    ((matchedPairs test ls rs).map Prod.swap).Perm (matchedPairs (fun b a => test a b) rs ls) := by
  have hleft : (matchedPairs test ls rs).map Prod.swap =
      ls.flatMap fun a => rs.flatMap fun b => if test a b then [(some b, some a)] else [] := by
    rw [matchedPairs, map_flatMap]
    refine flatMap_congr fun a _ => ?_
    rw [map_map, map_filter_eq_flatMap]
    rfl
  have hright : matchedPairs (fun b a => test a b) rs ls =
      rs.flatMap fun b => ls.flatMap fun a => if test a b then [(some b, some a)] else [] :=
    flatMap_congr fun b _ => map_filter_eq_flatMap _ _ _
  rw [hleft, hright]
  exact flatMap_comm ls rs _

theorem rightJoin_swap (test : α → β → Bool) (ls : List α) (rs : List β) :
    ((matchedPairs test ls rs ++ unmatchedRight test ls rs).map Prod.swap).Perm
      (matchedPairs (fun b a => test a b) rs ls ++ unmatchedLeft (fun b a => test a b) rs ls) := by
  rw [map_append]
  have hunmatched : (unmatchedRight test ls rs).map Prod.swap =
      unmatchedLeft (fun b a => test a b) rs ls := by
    rw [unmatchedRight, unmatchedLeft, map_map]
    rfl
  rw [hunmatched]
  exact (matchedPairs_swap test ls rs).append_right _

theorem leftJoin_perm (test : α → β → Bool) (ls : List α) (rs : List β) :
    (ls.flatMap fun a => if (rs.filter (test a)).isEmpty then [(some a, none)]
      else (rs.filter (test a)).map fun b => (some a, some b)).Perm
      (matchedPairs test ls rs ++ unmatchedLeft test ls rs) := by
  rw [matchedPairs, unmatchedLeft, map_filter_eq_flatMap]
  refine List.Perm.trans ?_ (flatMap_append_perm ls _ _).symm
  refine List.Perm.flatMap_left ls fun a _ => ?_
  have hany : rs.any (test a) = !(rs.filter (test a)).isEmpty := by
    rw [Bool.eq_iff_iff, any_eq_true, Bool.not_eq_true', isEmpty_eq_false_iff_exists_mem]
    simp only [mem_filter]
  rw [hany, Bool.not_not]
  cases hfilter : rs.filter (test a) with
  | nil => exact List.Perm.refl _
  | cons b bs => rw [isEmpty_cons, if_neg Bool.false_ne_true, if_neg Bool.false_ne_true, append_nil]

end H2Database.Reasoning
