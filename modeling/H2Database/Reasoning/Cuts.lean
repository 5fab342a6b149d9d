import Mathlib.Algebra.GroupWithZero.Nat
import Mathlib.Data.List.Basic

/-!
# Cuts in a list

A marked element is where a list is cut, and belongs to none of the pieces.  Where only elements of one kind
are marked, the number of such elements in each piece tells which of them are.
-/

namespace H2Database.Reasoning

open List

variable {α : Type}

def pieces : List (α × Bool) → List (List α)
  | [] => [[]]
  | x :: xs => if x.2 then [] :: pieces xs else (pieces xs).modifyHead (x.1 :: ·)

theorem pieces_eq_cons (xs : List (α × Bool)) : ∃ first others, pieces xs = first :: others := by
  induction xs with
  | nil => exact ⟨[], [], rfl⟩
  | cons x xs ih =>
    obtain ⟨first, others, h⟩ := ih
    rw [pieces, h]
    split_ifs
    · exact ⟨[], first :: others, rfl⟩
    · exact ⟨x.1 :: first, others, rfl⟩

theorem pieces_append (front : List α) (xs : List (α × Bool)) :
    pieces (front.map (fun a => (a, false)) ++ xs) = (pieces xs).modifyHead (front ++ ·) := by
  induction front with
  | nil =>
    obtain ⟨first, others, h⟩ := pieces_eq_cons xs
    rw [map_nil, nil_append, h]
    rfl
  | cons a front ih =>
    obtain ⟨first, others, h⟩ := pieces_eq_cons xs
    rw [map_cons, cons_append, pieces, if_neg Bool.false_ne_true, ih, h]
    rfl

section

variable {p : α → Bool}

theorem countP_pieces {xs : List (α × Bool)} (h : ∀ x ∈ xs, x.2 = true → p x.1 = true) :
    (xs.map Prod.fst).countP p + 1 = ((pieces xs).map (List.countP p)).sum + (pieces xs).length := by
  induction xs with
  | nil => rfl
  | cons x xs ih =>
    have hrest := ih fun y hy => h y (mem_cons_of_mem _ hy)
    obtain ⟨first, others, hpieces⟩ := pieces_eq_cons xs
    rw [map_cons, countP_cons, pieces]
    by_cases hcut : x.2 = true
    · rw [if_pos hcut, if_pos (h x mem_cons_self hcut)]
      simp only [map_cons, countP_nil, sum_cons, length_cons]
      omega
    · rw [hpieces] at hrest
      rw [if_neg hcut, hpieces]
      simp only [modifyHead_cons, map_cons, countP_cons, sum_cons, length_cons] at hrest ⊢
      omega

variable {xs ys : List (α × Bool)}

theorem eq_of_countP_pieces (hsame : xs.map Prod.fst = ys.map Prod.fst)
    (hx : ∀ x ∈ xs, x.2 = true → p x.1 = true) (hy : ∀ y ∈ ys, y.2 = true → p y.1 = true)
    (h : (pieces xs).map (List.countP p) = (pieces ys).map (List.countP p)) : xs = ys := by
  induction xs generalizing ys with
  | nil =>
    cases ys with
    | nil => rfl
    | cons y ys => cases hsame
  | cons x xs ih =>
    cases ys with
    | nil => cases hsame
    | cons y ys =>
      obtain ⟨hfst, hrest⟩ := List.cons.inj hsame
      have hxs : ∀ z ∈ xs, z.2 = true → p z.1 = true := fun z hz => hx z (mem_cons_of_mem _ hz)
      have hys : ∀ z ∈ ys, z.2 = true → p z.1 = true := fun z hz => hy z (mem_cons_of_mem _ hz)
      obtain ⟨first, others, hpx⟩ := pieces_eq_cons xs
      obtain ⟨first', others', hpy⟩ := pieces_eq_cons ys
      -- a mark leaves nothing of the kind in the first piece
      have hmark : x.2 = y.2 := by
        by_contra hne
        rw [pieces, pieces, hpx, hpy] at h
        cases hcut : x.2 with
        | true =>
          have hcut' : y.2 = false := by
            cases hcut' : y.2 with
            | true => exact absurd (hcut.trans hcut'.symm) hne
            | false => rfl
          have hkind := hx x mem_cons_self hcut
          rw [hfst] at hkind
          simp [hcut, hcut', hkind] at h
        | false =>
          have hcut' : y.2 = true := by
            cases hcut' : y.2 with
            | true => rfl
            | false => exact absurd (hcut.trans hcut'.symm) hne
          have hkind := hy y mem_cons_self hcut'
          rw [← hfst] at hkind
          simp [hcut, hcut', hkind] at h
      have htail : (pieces xs).map (List.countP p) = (pieces ys).map (List.countP p) := by
        rw [pieces, pieces, ← hmark, ← hfst] at h
        by_cases hcut : x.2 = true
        · rw [if_pos hcut, if_pos hcut] at h
          exact (List.cons.inj h).2
        · rw [if_neg hcut, if_neg hcut, hpx, hpy] at h
          obtain ⟨hfirst, hothers⟩ := List.cons.inj h
          simp only [countP_cons] at hfirst
          rw [hpx, hpy, map_cons, map_cons, hothers, Nat.add_right_cancel hfirst]
      rw [ih hrest hxs hys htail, Prod.ext hfst hmark]

theorem eq_of_countP_kept (kept : List α → Bool)
    (hsame : xs.map Prod.fst = ys.map Prod.fst) (hx : ∀ x ∈ xs, x.2 = true → p x.1 = true)
    (hy : ∀ y ∈ ys, y.2 = true → p y.1 = true) (hkept : ∀ piece, kept piece = false → piece.countP p = 0)
    (h : ((pieces xs).filter kept).map (List.countP p) = (pieces ys).map (List.countP p)) : xs = ys := by
  have hsum : ∀ ps : List (List α), ((ps.filter kept).map (List.countP p)).sum =
      (ps.map (List.countP p)).sum := by
    intro ps
    induction ps with
    | nil => rfl
    | cons piece ps ih =>
      rw [filter_cons, map_cons, sum_cons]
      split_ifs with hpiece
      · rw [map_cons, sum_cons, ih]
      · rw [ih, hkept piece (eq_false_of_ne_true hpiece), Nat.zero_add]
  have hlength := congrArg List.length h
  rw [length_map, length_map] at hlength
  have hxcount := countP_pieces hx
  have hycount := countP_pieces hy
  rw [hsame] at hxcount
  rw [← hsum, h] at hxcount
  -- the two lists have as many pieces, so all of them are kept
  have hall : (pieces xs).filter kept = pieces xs := by
    apply filter_sublist.eq_of_length_le
    omega
  rw [hall] at h
  exact eq_of_countP_pieces hsame hx hy h

end

end H2Database.Reasoning
