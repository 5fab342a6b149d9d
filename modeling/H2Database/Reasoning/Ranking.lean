import H2Database.Reasoning.Merging
import Mathlib.Order.Interval.Finset.Nat

/-!
# Ranks in a sorted list

A comparison may be a total preorder on the elements of a list only.  Stable sorting puts increasing
numbers in the order of the comparison, and of their size where they compare equal.  In a sorted list the
number of elements before one, and the number of their classes, follow from a look at its neighbour.
-/

namespace H2Database.Reasoning

open List

variable {α : Type}

/-! ## Total preorders -/

structure TotalPreorderOn (cmp : α → α → Ordering) (P : α → Prop) : Prop where
  refl : ∀ {x}, P x → cmp x x = .eq
  swap : ∀ {x y}, P x → P y → cmp y x = (cmp x y).swap
  trans : ∀ {x y z}, P x → P y → P z → (cmp x y).isLE = true → (cmp y z).isLE = true → (cmp x z).isLE = true

namespace TotalPreorderOn

variable {cmp : α → α → Ordering} {P : α → Prop} (h : TotalPreorderOn cmp P) {x y z : α}

include h

theorem eq_comm (hx : P x) (hy : P y) (hxy : cmp x y = .eq) : cmp y x = .eq := by rw [h.swap hx hy, hxy]; rfl

theorem lt_of_lt_of_le (hx : P x) (hy : P y) (hz : P z) (hxy : cmp x y = .lt) (hyz : (cmp y z).isLE = true) :
    cmp x z = .lt := by
  have hle := h.trans hx hy hz (by rw [hxy]; rfl) hyz
  cases hxz : cmp x z with
  | lt => rfl
  | gt =>
    rw [hxz] at hle
    cases hle
  | eq =>
    have hyx := h.trans hy hz hx hyz (by rw [h.eq_comm hx hz hxz]; rfl)
    rw [h.swap hx hy, hxy] at hyx
    cases hyx

theorem lt_of_le_of_lt (hx : P x) (hy : P y) (hz : P z) (hxy : (cmp x y).isLE = true) (hyz : cmp y z = .lt) :
    cmp x z = .lt := by
  have hle := h.trans hx hy hz hxy (by rw [hyz]; rfl)
  cases hxz : cmp x z with
  | lt => rfl
  | gt =>
    rw [hxz] at hle
    cases hle
  | eq =>
    have hzy := h.trans hz hx hy (by rw [h.eq_comm hx hz hxz]; rfl) hxy
    rw [h.swap hy hz, hyz] at hzy
    cases hzy

theorem lt_iff_of_eq (hx : P x) (hy : P y) (hz : P z) (hxy : cmp x y = .eq) : cmp z x = .lt ↔ cmp z y = .lt :=
  ⟨fun hzx => h.lt_of_lt_of_le hz hx hy hzx (by rw [hxy]; rfl),
    fun hzy => h.lt_of_lt_of_le hz hy hx hzy (by rw [h.eq_comm hx hy hxy]; rfl)⟩

theorem eq_iff_of_eq (hx : P x) (hy : P y) (hz : P z) (hxy : cmp x y = .eq) :
    cmp x z = .eq ↔ cmp y z = .eq := by
  have hone : ∀ {x y : α}, P x → P y → cmp x y = .eq → cmp x z = .eq → cmp y z = .eq := by
    intro x y hx hy hxy hxz
    have hyz := h.trans hy hx hz (by rw [h.eq_comm hx hy hxy]; rfl) (by rw [hxz]; rfl)
    have hzy := h.trans hz hx hy (by rw [h.eq_comm hx hz hxz]; rfl) (by rw [hxy]; rfl)
    rw [h.swap hy hz] at hzy
    cases hcmp : cmp y z with
    | eq => rfl
    | lt =>
      rw [hcmp] at hzy
      cases hzy
    | gt =>
      rw [hcmp] at hyz
      cases hyz
  exact ⟨hone hx hy hxy, hone hy hx (h.eq_comm hx hy hxy)⟩

omit h in
theorem comap {β : Type} {f : β → α} {Q : β → Prop} (h : TotalPreorderOn cmp P) (hf : ∀ b, Q b → P (f b)) :
    TotalPreorderOn (fun a b => cmp (f a) (f b)) Q :=
  ⟨fun hx => h.refl (hf _ hx), fun hx hy => h.swap (hf _ hx) (hf _ hy),
    fun hx hy hz => h.trans (hf _ hx) (hf _ hy) (hf _ hz)⟩

theorem reversed : TotalPreorderOn (fun a b => (cmp a b).swap) P := by
  refine ⟨fun hx => by rw [h.refl hx]; rfl, fun hx hy => by rw [h.swap hx hy], fun hx hy hz hxy hyz => ?_⟩
  rw [← h.swap hx hy] at hxy
  rw [← h.swap hy hz] at hyz
  rw [← h.swap hx hz]
  exact h.trans hz hy hx hyz hxy

theorem andThen {cmp' : α → α → Ordering} (h' : TotalPreorderOn cmp' P) :
    TotalPreorderOn (fun a b => (cmp a b).then (cmp' a b)) P := by
  refine ⟨fun hx => by rw [h.refl hx, h'.refl hx]; rfl, fun hx hy => ?_, fun {x y z} hx hy hz hxy hyz => ?_⟩
  · rw [h.swap hx hy, h'.swap hx hy, Ordering.swap_then]
  · cases hcmp : cmp x y with
    | lt =>
      rw [h.lt_of_lt_of_le hx hy hz hcmp]
      · rfl
      · cases hyz' : cmp y z <;> rw [hyz'] at hyz
        · rfl
        · rfl
        · cases hyz
    | gt =>
      rw [hcmp] at hxy
      cases hxy
    | eq =>
      rw [hcmp] at hxy
      cases hcmp' : cmp y z with
      | lt =>
        rw [h.lt_of_le_of_lt hx hy hz (by rw [hcmp]; rfl) hcmp']
        rfl
      | gt =>
        rw [hcmp'] at hyz
        cases hyz
      | eq =>
        rw [hcmp'] at hyz
        rw [(h.eq_iff_of_eq hx hy hz hcmp).mpr hcmp']
        exact h'.trans hx hy hz hxy hyz

end TotalPreorderOn

/-! ## The order of several keys -/

section

variable {K : Type} {cmp : K → α → α → Ordering} {P : α → Prop} {keys : List K} {x y : α}

/-- The first key that tells two elements apart decides. -/
def lexCompare (cmp : K → α → α → Ordering) : List K → α → α → Ordering
  | [], _, _ => .eq
  | key :: keys, x, y => (cmp key x y).then (lexCompare cmp keys x y)

theorem preorder_lexCompare (h : ∀ key ∈ keys, TotalPreorderOn (cmp key) P) :
    TotalPreorderOn (lexCompare cmp keys) P := by
  induction keys with
  | nil => exact ⟨fun _ => rfl, fun _ _ => rfl, fun _ _ _ _ _ => rfl⟩
  | cons key keys ih =>
    obtain ⟨hkey, hkeys⟩ := forall_mem_cons.mp h
    exact hkey.andThen (ih hkeys)

theorem lexCompare_eq_iff : lexCompare cmp keys x y = .eq ↔ ∀ key ∈ keys, cmp key x y = .eq := by
  induction keys with
  | nil => exact iff_of_true rfl (forall_mem_nil _)
  | cons key keys ih => rw [lexCompare, Ordering.then_eq_eq, ih, forall_mem_cons]

theorem lexCompare_lt_iff : lexCompare cmp keys x y = .lt ↔
    ∃ front key back, keys = front ++ key :: back ∧ (∀ k ∈ front, cmp k x y = .eq) ∧ cmp key x y = .lt := by
  induction keys with
  | nil =>
    refine iff_of_false (by rintro ⟨⟩) ?_
    rintro ⟨front, key, back, hkeys, -⟩
    cases front <;> cases hkeys
  | cons key keys ih =>
    rw [lexCompare, Ordering.then_eq_lt, ih]
    constructor
    · rintro (hlt | ⟨heq, front, key', back, rfl, hfront, hlt⟩)
      · exact ⟨[], key, keys, rfl, forall_mem_nil _, hlt⟩
      · exact ⟨key :: front, key', back, rfl, forall_mem_cons.mpr ⟨heq, hfront⟩, hlt⟩
    · rintro ⟨front, key', back, hkeys, hfront, hlt⟩
      cases front with
      | nil =>
        obtain ⟨rfl, rfl⟩ := List.cons.inj hkeys
        exact .inl hlt
      | cons k front =>
        obtain ⟨rfl, rfl⟩ := List.cons.inj hkeys
        obtain ⟨heq, hfront⟩ := forall_mem_cons.mp hfront
        exact .inr ⟨heq, front, key', back, rfl, hfront, hlt⟩

end

/-! ## Stable sorting -/

def rankIn (cmp : α → α → Ordering) (l : List α) (x : α) : Nat := l.countP fun y => cmp y x == .lt

section

variable {cmp : α → α → Ordering} {P : α → Prop} {l : List α} {x y : α}

theorem rankIn_eq (h : TotalPreorderOn cmp P) (hl : ∀ z ∈ l, P z) (hx : P x) (hy : P y)
    (hxy : cmp x y = .eq) :
    rankIn cmp l x = rankIn cmp l y :=
  countP_congr fun z hz => by
    rw [beq_iff_eq, beq_iff_eq]
    exact h.lt_iff_of_eq hx hy (hl z hz) hxy

theorem rankIn_lt (h : TotalPreorderOn cmp P) (hl : ∀ z ∈ l, P z) (hx : x ∈ l) (hy : P y)
    (hxy : cmp x y = .lt) :
    rankIn cmp l x < rankIn cmp l y := by
  have hmono : ∀ m : List α, (∀ z ∈ m, P z) → rankIn cmp m x ≤ rankIn cmp m y := by
    intro m hm
    refine countP_mono_left fun z hz hzx => ?_
    rw [beq_iff_eq] at hzx ⊢
    exact h.lt_of_lt_of_le (hm z hz) (hl x hx) hy hzx (by rw [hxy]; rfl)
  obtain ⟨front, back, rfl⟩ := append_of_mem hx
  have hfront := hmono front fun z hz => hl z (mem_append_left _ hz)
  have hback := hmono back fun z hz => hl z (mem_append_right _ (mem_cons_of_mem _ hz))
  have hself := h.refl (hl x hx)
  simp only [rankIn, countP_append, countP_cons, hxy, hself] at hfront hback ⊢
  have hlt : (Ordering.lt == Ordering.lt) = true := rfl
  have heq : ¬ (Ordering.eq == Ordering.lt) = true := by decide
  rw [if_pos hlt, if_neg heq]
  omega

theorem isLE_iff_rankIn (h : TotalPreorderOn cmp P) (hl : ∀ z ∈ l, P z) (hx : x ∈ l) (hy : y ∈ l) :
    (cmp x y).isLE = true ↔ rankIn cmp l x ≤ rankIn cmp l y := by
  cases hxy : cmp x y with
  | lt => exact iff_of_true rfl (rankIn_lt h hl hx (hl y hy) hxy).le
  | eq => exact iff_of_true rfl (rankIn_eq h hl (hl x hx) (hl y hy) hxy).le
  | gt =>
    have hyx : cmp y x = .lt := by rw [h.swap (hl x hx) (hl y hy), hxy]; rfl
    have := rankIn_lt h hl hy (hl x hx) hyx
    exact iff_of_false (by decide) (by omega)

/-- Sorting by a preorder on the elements is sorting by the number of those before. -/
theorem stableSort_eq_rankIn (h : TotalPreorderOn cmp P) (hl : ∀ z ∈ l, P z) :
    stableSort cmp l = l.mergeSort fun x y => decide (rankIn cmp l x ≤ rankIn cmp l y) := by
  have hmap := @map_mergeSort α α (fun x y => (cmp x y).isLE)
    (fun x y => decide (rankIn cmp l x ≤ rankIn cmp l y)) id l fun x hx y hy => by
      rw [Bool.eq_iff_iff, decide_eq_true_eq]
      exact isLE_iff_rankIn h hl hx hy
  rwa [map_id, map_id] at hmap

theorem rankIn_trans (cmp : α → α → Ordering) (l : List α) (x y z : α)
    (hxy : decide (rankIn cmp l x ≤ rankIn cmp l y) = true)
    (hyz : decide (rankIn cmp l y ≤ rankIn cmp l z) = true) :
    decide (rankIn cmp l x ≤ rankIn cmp l z) = true :=
  decide_eq_true ((of_decide_eq_true hxy).trans (of_decide_eq_true hyz))

theorem rankIn_total (cmp : α → α → Ordering) (l : List α) (x y : α) :
    (decide (rankIn cmp l x ≤ rankIn cmp l y) || decide (rankIn cmp l y ≤ rankIn cmp l x)) = true := by
  rw [Bool.or_eq_true, decide_eq_true_eq, decide_eq_true_eq]
  exact Nat.le_total _ _

theorem ordered_stableSort_on (h : TotalPreorderOn cmp P) (hl : ∀ z ∈ l, P z) :
    Ordered cmp (stableSort cmp l) := by
  have hin : ∀ {x}, x ∈ stableSort cmp l → x ∈ l := fun hx => (stableSort_perm l).mem_iff.mp hx
  have hsorted := pairwise_mergeSort (rankIn_trans cmp l) (rankIn_total cmp l) l
  rw [← stableSort_eq_rankIn h hl] at hsorted
  exact hsorted.imp_of_mem fun hx hy hle =>
    (isLE_iff_rankIn h hl (hin hx) (hin hy)).mpr (of_decide_eq_true hle)

end

theorem pairwise_stableSort {cmp : Nat → Nat → Ordering} {P : Nat → Prop} (h : TotalPreorderOn cmp P)
    {l : List Nat}
    (hl : ∀ i ∈ l, P i) (hinc : l.Pairwise (· < ·)) :
    (stableSort cmp l).Pairwise fun i j => cmp i j = .lt ∨ cmp i j = .eq ∧ i < j := by
  have hnodup : (stableSort cmp l).Nodup := (stableSort_perm l).nodup_iff.mpr (hinc.imp Nat.ne_of_lt)
  have hplaces := pairwise_mergeSort (zipIdxLE_trans (rankIn_trans cmp l))
    (zipIdxLE_total (rankIn_total cmp l)) l.zipIdx
  rw [stableSort_eq_rankIn h hl, ← mergeSort_zipIdx] at hnodup ⊢
  rw [List.Nodup, pairwise_map] at hnodup
  rw [pairwise_map]
  refine (hplaces.and hnodup).imp_of_mem ?_
  rintro ⟨i, m⟩ ⟨j, n⟩ him hjn ⟨hle, hne⟩
  have him : l[m]? = some i := mem_zipIdx_iff_getElem?.mp (mem_mergeSort.mp him)
  have hjn : l[n]? = some j := mem_zipIdx_iff_getElem?.mp (mem_mergeSort.mp hjn)
  have hi : i ∈ l := mem_of_getElem? him
  have hj : j ∈ l := mem_of_getElem? hjn
  have hij := isLE_iff_rankIn h hl hi hj
  have hji := isLE_iff_rankIn h hl hj hi
  simp only [List.zipIdxLE, decide_eq_true_eq] at hle
  split_ifs at hle with h₁ h₂
  · -- equal ranks: the places decide
    have hmn : m ≤ n := of_decide_eq_true hle
    rcases Nat.lt_or_eq_of_le hmn with hmn | rfl
    · refine .inr ⟨?_, ?_⟩
      · have hback := hji.mpr h₂
        rw [h.swap (hl i hi) (hl j hj)] at hback
        cases hcmp : cmp i j with
        | eq => rfl
        | lt =>
          rw [hcmp] at hback
          cases hback
        | gt =>
          have := hij.mpr h₁
          rw [hcmp] at this
          cases this
      · obtain ⟨hm, him⟩ := List.getElem?_eq_some_iff.mp him
        obtain ⟨hn, hjn⟩ := List.getElem?_eq_some_iff.mp hjn
        rw [← him, ← hjn]
        exact pairwise_iff_getElem.mp hinc m n hm hn hmn
    · rw [him] at hjn
      exact absurd (Option.some.inj hjn) hne
  · left
    cases hcmp : cmp i j with
    | lt => rfl
    | eq => exact absurd (hji.mp (by rw [h.swap (hl i hi) (hl j hj), hcmp]; rfl)) h₂
    | gt => exact absurd (hji.mp (by rw [h.swap (hl i hi) (hl j hj), hcmp]; rfl)) h₂

/-! ## Ranks along a sorted list -/

section

variable {cmp : α → α → Ordering} {P : α → Prop} {front back : List α} {x y : α}

theorem filter_before_next (h : TotalPreorderOn cmp P) (hP : ∀ z ∈ front ++ x :: y :: back, P z)
    (hsorted : Ordered cmp (front ++ x :: y :: back)) (hxy : cmp x y = .lt) :
    (front ++ x :: y :: back).filter (fun z => cmp z y == .lt) = front ++ [x] := by
  have hx : P x := hP x (by simp)
  have hy : P y := hP y (by simp)
  obtain ⟨hfront, hback, hcross⟩ := pairwise_append.mp hsorted
  obtain ⟨-, hback⟩ := pairwise_cons.mp hback
  have hfirst : front.filter (fun z => cmp z y == .lt) = front := by
    rw [filter_eq_self]
    intro z hz
    rw [beq_iff_eq]
    exact h.lt_of_le_of_lt (hP z (mem_append_left _ hz)) hx hy (hcross z hz x mem_cons_self) hxy
  have hrest : (y :: back).filter (fun z => cmp z y == .lt) = [] := by
    rw [filter_eq_nil_iff]
    intro z hz
    have hPz : P z := hP z (mem_append_right _ (mem_cons_of_mem _ hz))
    have hle : (cmp y z).isLE = true := by
      rcases mem_cons.mp hz with rfl | hz
      · rw [h.refl hy]
        rfl
      · exact (pairwise_cons.mp hback).1 z hz
    rw [beq_iff_eq, h.swap hy hPz]
    intro hlt
    cases hcmp : cmp y z <;> rw [hcmp] at hlt hle
    · cases hlt
    · cases hlt
    · cases hle
  rw [filter_append, hfirst, filter_cons_of_pos (by rw [hxy]; rfl), hrest]

variable {l : List α}

theorem filter_before_eq (h : TotalPreorderOn cmp P) (hl : ∀ z ∈ l, P z) (hx : P x) (hy : P y)
    (hxy : cmp x y = .eq) : l.filter (fun z => cmp z y == .lt) = l.filter fun z => cmp z x == .lt := by
  refine filter_congr fun z hz => ?_
  rw [Bool.eq_iff_iff, beq_iff_eq, beq_iff_eq]
  exact (h.lt_iff_of_eq hx hy (hl z hz) hxy).symm

theorem filter_before_head (h : TotalPreorderOn cmp P) (hP : ∀ z ∈ x :: back, P z)
    (hsorted : Ordered cmp (x :: back)) :
    (x :: back).filter (fun z => cmp z x == .lt) = [] := by
  rw [filter_eq_nil_iff]
  intro z hz
  have hle : (cmp x z).isLE = true := by
    rcases mem_cons.mp hz with rfl | hz
    · rw [h.refl (hP z mem_cons_self)]
      rfl
    · exact (pairwise_cons.mp hsorted).1 z hz
  rw [beq_iff_eq, h.swap (hP x mem_cons_self) (hP z hz)]
  intro hlt
  cases hcmp : cmp x z <;> rw [hcmp] at hlt hle
  · cases hlt
  · cases hlt
  · cases hle

def classes (cmp : α → α → Ordering) : List α → Nat
  | [] => 0
  | x :: l => classes cmp l + if l.any (tied cmp x) then 0 else 1

/-- As many elements as there are classes, no two of which are tied, stand for all. -/
theorem exists_representatives (h : TotalPreorderOn cmp P) (hl : ∀ z ∈ l, P z) :
    ∃ reps : List α, reps.length = classes cmp l ∧ (∀ r ∈ reps, r ∈ l) ∧
      (reps.Pairwise fun r s => cmp r s ≠ .eq) ∧
      ∀ z ∈ l, ∃ r ∈ reps, cmp r z = .eq := by
  induction l with
  | nil => exact ⟨[], rfl, forall_mem_nil _, List.Pairwise.nil, forall_mem_nil _⟩
  | cons x l ih =>
    obtain ⟨hx, hl⟩ := forall_mem_cons.mp hl
    obtain ⟨reps, hlength, hin, happart, hall⟩ := ih hl
    rw [classes]
    split_ifs with hany
    · obtain ⟨z, hz, hxz⟩ := any_eq_true.mp hany
      obtain ⟨r, hr, hrz⟩ := hall z hz
      have hrx := (h.eq_iff_of_eq (hl z hz) hx (hl r (hin r hr))
        (h.eq_comm hx (hl z hz) (beq_iff_eq.mp hxz))).mp
        (h.eq_comm (hl r (hin r hr)) (hl z hz) hrz)
      exact ⟨reps, hlength, fun r hr => mem_cons_of_mem x (hin r hr), happart,
        forall_mem_cons.mpr ⟨⟨r, hr, h.eq_comm hx (hl r (hin r hr)) hrx⟩, hall⟩⟩
    · refine ⟨x :: reps, congrArg (· + 1) hlength, ?_, pairwise_cons.mpr ⟨fun r hr hxr => ?_, happart⟩, ?_⟩
      · exact forall_mem_cons.mpr ⟨mem_cons_self, fun r hr => mem_cons_of_mem x (hin r hr)⟩
      · exact hany (any_eq_true.mpr ⟨r, hin r hr, beq_iff_eq.mpr hxr⟩)
      · refine forall_mem_cons.mpr ⟨⟨x, mem_cons_self, h.refl hx⟩, fun z hz => ?_⟩
        obtain ⟨r, hr, hrz⟩ := hall z hz
        exact ⟨r, mem_cons_of_mem x hr, hrz⟩

theorem classes_split (h : TotalPreorderOn cmp P) (hl : ∀ z ∈ l, P z) (hx : P x) :
    classes cmp l = classes cmp (l.filter fun z => !tied cmp x z) + if l.any (tied cmp x) then 1 else 0 := by
  induction l with
  | nil => rfl
  | cons z l ih =>
    obtain ⟨hz, hl⟩ := forall_mem_cons.mp hl
    have ih := ih hl
    rw [classes, any_cons]
    by_cases hxz : tied cmp x z = true
    · have hsame : l.any (tied cmp z) = l.any (tied cmp x) := by
        rw [Bool.eq_iff_iff, any_eq_true, any_eq_true]
        refine exists_congr fun w => and_congr_right fun hw => ?_
        rw [tied, tied, beq_iff_eq, beq_iff_eq]
        exact (h.eq_iff_of_eq hx hz (hl w hw) (beq_iff_eq.mp hxz)).symm
      rw [filter_cons_of_neg (by rw [hxz]; decide), hxz, Bool.true_or, if_pos rfl, hsame, ih]
      split_ifs <;> omega
    · rw [Bool.not_eq_true] at hxz
      have hsame : (l.filter fun w => !tied cmp x w).any (tied cmp z) = l.any (tied cmp z) := by
        rw [Bool.eq_iff_iff, any_eq_true, any_eq_true]
        refine exists_congr fun w => ?_
        rw [mem_filter, and_assoc]
        refine and_congr_right fun hw => and_iff_right_of_imp fun hzw => ?_
        by_contra hxw
        rw [Bool.not_eq_true, Bool.not_eq_false'] at hxw
        have := (h.eq_iff_of_eq (hl w hw) hz hx (h.eq_comm hz (hl w hw) (beq_iff_eq.mp hzw))).mp
          (h.eq_comm hx (hl w hw) (beq_iff_eq.mp hxw))
        rw [tied, h.eq_comm hz hx this] at hxz
        cases hxz
      rw [filter_cons_of_pos (by rw [hxz]; rfl), classes, hxz, Bool.false_or, hsame, ih]
      omega

theorem classes_before_next (h : TotalPreorderOn cmp P) (hP : ∀ z ∈ front ++ x :: y :: back, P z)
    (hsorted : Ordered cmp (front ++ x :: y :: back)) (hxy : cmp x y = .lt) :
    classes cmp ((front ++ x :: y :: back).filter fun z => cmp z y == .lt) =
      classes cmp ((front ++ x :: y :: back).filter fun z => cmp z x == .lt) + 1 := by
  have hx : P x := hP x (by simp)
  have hfront : ∀ z ∈ front ++ [x], P z := fun z hz => hP z (by
    rw [mem_append, mem_singleton] at hz
    rcases hz with hz | rfl
    · exact mem_append_left _ hz
    · simp)
  have hany : (front ++ [x]).any (tied cmp x) = true :=
    any_eq_true.mpr ⟨x, by simp, by rw [tied, h.refl hx]; rfl⟩
  rw [filter_before_next h hP hsorted hxy, classes_split h hfront hx, if_pos hany]
  congr 2
  -- up to the element, what is not tied with it is before it
  obtain ⟨hsortedFront, hsortedBack, hcross⟩ := pairwise_append.mp hsorted
  have hback := filter_before_head h (fun z hz => hP z (mem_append_right _ hz)) hsortedBack
  rw [filter_append, filter_append, hback, append_nil,
    filter_cons_of_neg (by rw [tied, h.refl hx]; decide), filter_nil, append_nil]
  refine filter_congr fun z hz => ?_
  have hle := hcross z hz x mem_cons_self
  rw [tied, h.swap (hP z (mem_append_left _ hz)) hx]
  cases hcmp : cmp z x <;> rw [hcmp] at hle
  · rfl
  · rfl
  · cases hle

end

end H2Database.Reasoning
