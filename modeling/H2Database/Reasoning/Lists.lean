import Mathlib.Data.List.Lex
import Mathlib.Data.List.Sort
import Mathlib.Order.Lattice

/-!
# Lists

A list as a table of rows under their numbers, as the order in which steps are taken, as a collection that
holds an element some number of times (up to a Boolean relation that is an equivalence on the elements
considered, as where a comparison of values stands for their equality), and as a key in lexicographic order.
-/

namespace H2Database.Reasoning

open List

section

/-! ### Tables: new rows at the end, changes in place -/

variable {α : Type} {l : List α} {a b : α} {i j : Nat}

theorem getElem?_concat (l : List α) (a : α) (i : Nat) :
    (l ++ [a])[i]? = if i = l.length then some a else l[i]? := by
  rw [getElem?_append]
  split_ifs with hlt heq heq
  · omega
  · rfl
  · rw [heq, Nat.sub_self, getElem?_cons_zero]
  · rw [getElem?_eq_none (by rw [length_singleton]; omega), getElem?_eq_none (by omega)]

theorem concat_cases (h : (l ++ [a])[i]? = some b) : l[i]? = some b ∨ i = l.length ∧ b = a := by
  rw [getElem?_concat] at h
  split_ifs at h with hi
  · exact .inr ⟨hi, (Option.some.inj h).symm⟩
  · exact .inl h

theorem concat_of_some (h : l[i]? = some b) (a : α) : (l ++ [a])[i]? = some b :=
  (List.getElem?_append_left (List.getElem?_eq_some_iff.mp h).1).trans h

theorem set_cases (h : (l.set i a)[j]? = some b) : i = j ∧ b = a ∨ i ≠ j ∧ l[j]? = some b := by
  rw [List.getElem?_set] at h
  split_ifs at h with hij
  · exact .inl ⟨hij, (Option.some.inj h).symm⟩
  · exact .inr ⟨hij, h⟩

theorem set_of_some (h : l[i]? = some b) (a : α) : (l.set i a)[i]? = some a :=
  List.getElem?_set_self (List.getElem?_eq_some_iff.mp h).1

theorem modify_cases {f : α → α} (h : (l.modify i f)[j]? = some b) :
    ∃ a, l[j]? = some a ∧ (i = j ∧ b = f a ∨ i ≠ j ∧ b = a) := by
  rw [getElem?_modify] at h
  obtain ⟨a, ha, hb⟩ := Option.map_eq_some_iff.mp h
  refine ⟨a, ha, ?_⟩
  split_ifs at hb with hij
  · exact .inl ⟨hij, hb.symm⟩
  · exact .inr ⟨hij, hb.symm⟩

end

section

/-! ### Folding in another order -/

variable {α β : Type} {f : β → α → β}

variable {acts : α → Bool}

theorem foldl_filter_of_mem_idle {xs : List α} (hidle : ∀ a ∈ xs, acts a = false → ∀ b, f b a = b) (b : β) :
    (xs.filter acts).foldl f b = xs.foldl f b := by
  induction xs generalizing b with
  | nil => rfl
  | cons a xs ih =>
    have hrest := ih fun a' ha' => hidle a' (mem_cons_of_mem _ ha')
    cases ha : acts a with
    | true => rw [filter_cons_of_pos ha, foldl_cons, foldl_cons, hrest]
    | false =>
      have hneg : ¬ acts a = true := by rw [ha]; exact Bool.false_ne_true
      rw [filter_cons_of_neg hneg, foldl_cons, hidle a mem_cons_self ha b, hrest]

theorem foldl_filter_of_idle (hidle : ∀ b a, acts a = false → f b a = b)
    (xs : List α) (b : β) : (xs.filter acts).foldl f b = xs.foldl f b :=
  foldl_filter_of_mem_idle (fun a _ ha b => hidle b a ha) b

theorem foldl_of_idle {xs : List α} (hidle : ∀ a ∈ xs, ∀ b, f b a = b) (b : β) : xs.foldl f b = b := by
  induction xs with
  | nil => rfl
  | cons a xs ih =>
    rw [foldl_cons, hidle a mem_cons_self b]
    exact ih fun a' ha' => hidle a' (mem_cons_of_mem _ ha')

theorem foldl_eq_of_perm {key : α → Nat} {xs ys : List α} (hperm : xs.Perm ys)
    (hidle : ∀ b a, acts a = false → f b a = b)
    (hxs : xs.Pairwise fun a a' => acts a = true → acts a' = true → key a < key a')
    (hys : ys.Pairwise fun a a' => key a < key a') (b : β) : xs.foldl f b = ys.foldl f b := by
  rw [← foldl_filter_of_idle hidle xs, ← foldl_filter_of_idle hidle ys]
  have hx : (xs.filter acts).Pairwise fun a a' => key a < key a' := by
    refine (List.Pairwise.and_mem.mp (hxs.filter acts)).imp ?_
    rintro a a' ⟨ha, ha', hlt⟩
    exact hlt (mem_filter.mp ha).2 (mem_filter.mp ha').2
  have heq : xs.filter acts = ys.filter acts := by
    refine List.Perm.eq_of_pairwise ?_ hx (hys.filter acts) (hperm.filter acts)
    intro a a' _ _ hlt hlt'
    exact absurd hlt' (Nat.lt_asymm hlt)
  rw [heq]

end

section

/-! ### How often an element occurs -/

variable {α : Type} (eq : α → α → Bool)

structure EquivOn (P : α → Prop) : Prop where
  refl : ∀ {x}, P x → eq x x = true
  symm : ∀ {x y}, P x → P y → eq x y = true → eq y x = true
  trans : ∀ {x y z}, P x → P y → P z → eq x y = true → eq y z = true → eq x z = true

def multiplicity (l : List α) (x : α) : Nat := l.countP fun y => eq y x

variable {eq} {P : α → Prop} {l : List α} {x y : α}

@[simp] theorem multiplicity_nil (x : α) : multiplicity eq [] x = 0 := rfl

theorem multiplicity_cons (y : α) (l : List α) (x : α) :
    multiplicity eq (y :: l) x = multiplicity eq l x + if eq y x = true then 1 else 0 := countP_cons

theorem multiplicity_append (l m : List α) (x : α) :
    multiplicity eq (l ++ m) x = multiplicity eq l x + multiplicity eq m x := countP_append

theorem any_iff_multiplicity : (l.any fun y => eq y x) = true ↔ 0 < multiplicity eq l x := by
  rw [multiplicity, countP_pos_iff, any_eq_true]

theorem EquivOn.eq_iff (h : EquivOn eq P) {z : α} (hx : P x) (hy : P y) (hz : P z) (hxy : eq x y = true) :
    eq z x = true ↔ eq z y = true :=
  ⟨fun hzx => h.trans hz hx hy hzx hxy, fun hzy => h.trans hz hy hx hzy (h.symm hx hy hxy)⟩

theorem EquivOn.multiplicity_congr (h : EquivOn eq P) (hl : ∀ z ∈ l, P z) (hx : P x) (hy : P y)
    (hxy : eq x y = true) : multiplicity eq l x = multiplicity eq l y :=
  countP_congr fun z hz => h.eq_iff hx hy (hl z hz) hxy

theorem EquivOn.multiplicity_eraseIdx (h : EquivOn eq P) (hl : ∀ z ∈ l, P z) (hx : P x) (hy : P y) {i : Nat}
    (hi : (l.findIdx? fun z => eq z y) = some i) :
    multiplicity eq (l.eraseIdx i) x + (if eq y x = true then 1 else 0) = multiplicity eq l x := by
  induction l generalizing i with
  | nil => cases hi
  | cons z l ih =>
    have hz : P z := hl z mem_cons_self
    have hl : ∀ z ∈ l, P z := fun z hz => hl z (mem_cons_of_mem _ hz)
    rw [findIdx?_cons] at hi
    split_ifs at hi with hzy
    · obtain rfl := Option.some.inj hi
      have hsame : eq y x = true ↔ eq z x = true :=
        ⟨fun hyx => h.trans hz hy hx hzy hyx, fun hzx => h.trans hy hz hx (h.symm hz hy hzy) hzx⟩
      rw [eraseIdx_cons_zero, multiplicity_cons, if_congr hsame rfl rfl]
    · obtain ⟨j, hj, rfl⟩ := Option.map_eq_some_iff.mp hi
      have := ih hl hj
      rw [eraseIdx_cons_succ, multiplicity_cons, multiplicity_cons]
      omega

theorem multiplicity_of_findIdx?_none (h : (l.findIdx? fun y => eq y x) = none) :
    multiplicity eq l x = 0 := by
  rw [multiplicity, countP_eq_zero]
  intro y hy
  rw [findIdx?_eq_none_iff.mp h y hy]
  exact Bool.false_ne_true

variable {keep : α → Bool} {f : List α → List α → List α} {seen : List α}

/-- The first of equal elements is kept if it passes; one that does not may be remembered all the same. -/
structure KeepsFirst (eq : α → α → Bool) (keep : α → Bool) (f : List α → List α → List α) : Prop where
  nil : ∀ seen, f seen [] = []
  kept : ∀ seen a l, ¬ (seen.any fun s => eq s a) = true → keep a = true →
    f seen (a :: l) = a :: f (seen ++ [a]) l
  skipped : ∀ seen a l, (seen.any fun s => eq s a) = true ∨ ¬ keep a = true →
    f seen (a :: l) = f seen l ∨ f seen (a :: l) = f (seen ++ [a]) l ∧ ¬ keep a = true

theorem KeepsFirst.cases (hf : KeepsFirst eq keep f) (seen : List α) (a : α) (l : List α) :
    (¬ (seen.any fun s => eq s a) = true ∧ keep a = true ∧ f seen (a :: l) = a :: f (seen ++ [a]) l) ∨
    ((seen.any fun s => eq s a) = true ∨ ¬ keep a = true) ∧
      (f seen (a :: l) = f seen l ∨ f seen (a :: l) = f (seen ++ [a]) l ∧ ¬ keep a = true) := by
  by_cases hold : (seen.any fun s => eq s a) = true
  · exact .inr ⟨.inl hold, hf.skipped seen a l (.inl hold)⟩
  · by_cases hkeep : keep a = true
    · exact .inl ⟨hold, hkeep, hf.kept seen a l hold hkeep⟩
    · exact .inr ⟨.inr hkeep, hf.skipped seen a l (.inr hkeep)⟩

theorem KeepsFirst.sublist (hf : KeepsFirst eq keep f) (seen l : List α) : (f seen l).Sublist l := by
  induction l generalizing seen with
  | nil => rw [hf.nil]
  | cons a l ih =>
    rcases hf.cases seen a l with ⟨-, -, heq⟩ | ⟨-, heq | ⟨heq, -⟩⟩
    · exact heq ▸ (ih _).cons_cons a
    · exact heq ▸ (ih seen).cons a
    · exact heq ▸ (ih _).cons a

theorem KeepsFirst.multiplicity (hf : KeepsFirst eq keep f) (h : EquivOn eq P) {Q : Prop} [Decidable Q]
    (hx : P x) (hQ : ∀ a, P a → eq a x = true → (keep a = true ↔ Q)) (hseen : ∀ s ∈ seen, P s)
    (hl : ∀ a ∈ l, P a) :
    multiplicity eq (f seen l) x =
      if multiplicity eq seen x = 0 ∧ 0 < multiplicity eq l x ∧ Q then 1 else 0 := by
  induction l generalizing seen with
  | nil => rw [hf.nil, multiplicity_nil, if_neg fun hpos => Nat.lt_irrefl 0 hpos.2.1]
  | cons a l ih =>
    obtain ⟨ha, hl⟩ := forall_mem_cons.mp hl
    have hskip := ih hseen hl
    have hnext := @ih (seen ++ [a]) (fun s hs => (mem_append.mp hs).elim (hseen s)
      fun hs => mem_singleton.mp hs ▸ ha) hl
    rw [multiplicity_append, multiplicity_cons, multiplicity_nil, Nat.zero_add] at hnext
    rw [multiplicity_cons]
    by_cases hax : eq a x = true
    · have hany : (seen.any fun s => eq s a) = true ↔ 0 < multiplicity eq seen x := by
        rw [any_iff_multiplicity, h.multiplicity_congr hseen ha hx hax]
      rw [if_pos hax] at hnext ⊢
      rcases hf.cases seen a l with ⟨hold, hkeep, heq⟩ | ⟨hold, hcases⟩
      · have := mt hany.mpr hold
        rw [heq, multiplicity_cons, if_pos hax, hnext, if_neg (by omega),
          if_pos ⟨by omega, by omega, (hQ a ha hax).mp hkeep⟩]
      · rw [hany, hQ a ha hax] at hold
        have hno : ¬ (multiplicity eq seen x = 0 ∧ 0 < multiplicity eq l x + 1 ∧ Q) := fun hpos =>
          hold.elim (fun hlt => absurd hpos.1 hlt.ne') fun hq => hq hpos.2.2
        rw [if_neg hno]
        rcases hcases with heq | ⟨heq, -⟩
        · rw [heq, hskip, if_neg fun hpos => hno ⟨hpos.1, Nat.succ_pos _, hpos.2.2⟩]
        · rw [heq, hnext, if_neg fun hpos => absurd hpos.1 (Nat.succ_ne_zero _)]
    · -- an element that is not equal changes no count
      rw [if_neg hax] at hnext ⊢
      rcases hf.cases seen a l with ⟨-, -, heq⟩ | ⟨-, heq | ⟨heq, -⟩⟩
      · rw [heq, multiplicity_cons, if_neg hax]
        exact hnext
      · exact heq ▸ hskip
      · exact heq ▸ hnext

end

section

/-! ### Prefixes in lexicographic order -/

variable {α : Type} [LinearOrder α]

theorem lt_of_not_front {p k l : List α} (hpk : p <+: k) (hpl : ¬ p <+: l) (hlt : p < l) : k < l := by
  induction p generalizing k l with
  | nil => exact absurd nil_prefix hpl
  | cons a p ih =>
    obtain ⟨rest, rfl⟩ := hpk
    cases l with
    | nil => exact absurd hlt (not_lt_nil _)
    | cons b l =>
      rw [cons_append, cons_lt_cons_iff]
      apply (cons_lt_cons_iff.mp hlt).imp id
      rintro ⟨rfl, htail⟩
      refine ⟨rfl, ih (prefix_append p rest) (fun h => hpl ?_) htail⟩
      exact cons_prefix_cons.mpr ⟨rfl, h⟩

theorem not_prefix_of_le {p k l : List α} (hpl : ¬ p <+: l) (hlt : p < l) (hle : l ≤ k) : ¬ p <+: k :=
  fun hpk => absurd (lt_of_not_front hpk hpl hlt) (not_lt.mpr hle)

theorem not_prefix_of_lt {p k : List α} (hlt : k < p) : ¬ p <+: k :=
  fun hpk => List.IsPrefix.le hpk hlt

end

section

/-! ### The longest suffix with a property -/

variable {α : Type} {ok ok' : List α → Bool}

def longestSuffix (ok : List α → Bool) : List α → List α
  | [] => []
  | a :: l => if ok (a :: l) = true then a :: l else longestSuffix ok l

theorem longestSuffix_suffix (l : List α) : longestSuffix ok l <:+ l := by
  induction l with
  | nil => exact suffix_refl []
  | cons a l ih =>
    rw [longestSuffix]
    split_ifs
    · exact suffix_refl _
    · exact ih.trans (suffix_cons a l)

theorem ok_longestSuffix (hnil : ok [] = true) (l : List α) : ok (longestSuffix ok l) = true := by
  induction l with
  | nil => exact hnil
  | cons a l ih =>
    rw [longestSuffix]
    split_ifs with h
    · exact h
    · exact ih

theorem suffix_longestSuffix {s l : List α} (hs : s <:+ l) (hok : ok s = true) :
    s <:+ longestSuffix ok l := by
  induction l with
  | nil => exact hs
  | cons a l ih =>
    rw [longestSuffix]
    split_ifs with h
    · exact hs
    · rcases suffix_cons_iff.mp hs with rfl | hs
      · exact absurd hok h
      · exact ih hs

theorem longestSuffix_of_ok {l : List α} (h : ok l = true) : longestSuffix ok l = l :=
  (longestSuffix_suffix l).eq_of_length_le (suffix_longestSuffix (suffix_refl l) h).length_le

theorem longestSuffix_congr {l : List α} (h : ∀ s, s <:+ l → ok s = ok' s) :
    longestSuffix ok l = longestSuffix ok' l := by
  induction l with
  | nil => rfl
  | cons a l ih =>
    rw [longestSuffix, longestSuffix, h _ (suffix_refl _), ih fun s hs => h s (hs.trans (suffix_cons a l))]

end

end H2Database.Reasoning
