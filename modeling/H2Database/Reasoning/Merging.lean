import Mathlib.Data.List.Sort
import Mathlib.Order.Defs.LinearOrder

/-!
# Merging sorted runs

A merge takes a least head of the runs again and again.  Which one it takes where several are least is
open.  Every merge is sorted, but only where elements of different runs compare equal because they are
equal is it the stable sort.
-/

namespace H2Database.Reasoning

open List

variable {α : Type} (cmp : α → α → Ordering)

/-- `sort_by`, which is stable. -/
def stableSort (xs : List α) : List α := xs.mergeSort fun a b => (cmp a b).isLE

def Ordered (xs : List α) : Prop := xs.Pairwise fun a b => (cmp a b).isLE = true

def tied (a b : α) : Bool := cmp a b == .eq

inductive Merges : List (List α) → List α → Prop
  | done {runs : List (List α)} (h : ∀ run ∈ runs, run = []) : Merges runs []
  | next {runs : List (List α)} {i : Nat} {a : α} {rest out : List α} (hi : runs[i]? = some (a :: rest))
      (hleast : ∀ run ∈ runs, ∀ b ∈ run.head?, (cmp a b).isLE = true)
      (h : Merges (runs.set i rest) out) : Merges runs (a :: out)

def Settled (runs : List (List α)) : Prop := ∀ (i j : Nat) (run run' : List α), i ≠ j →
  runs[i]? = some run → runs[j]? = some run' → ∀ a ∈ run, ∀ b ∈ run', cmp a b = .eq → a = b

variable {cmp}

section Stable

variable {xs ys : List α}

theorem stableSort_perm (xs : List α) : (stableSort cmp xs).Perm xs := mergeSort_perm xs _

variable [Std.TransCmp cmp]

theorem isLE_self (a : α) : (cmp a a).isLE = true := by
  rw [@Std.ReflCmp.compare_self α cmp _ a]
  rfl

theorem tied_self (a : α) : tied cmp a a = true := beq_iff_eq.mpr Std.ReflCmp.compare_self

theorem isLE_total (a b : α) : ((cmp a b).isLE || (cmp b a).isLE) = true := by
  rw [@Std.OrientedCmp.eq_swap α cmp _ a b]
  cases cmp b a <;> rfl

theorem ordered_stableSort (xs : List α) : Ordered cmp (stableSort cmp xs) :=
  pairwise_mergeSort (fun _ _ _ => Std.TransCmp.isLE_trans) isLE_total xs

theorem filter_stableSort (a : α) :
    (stableSort cmp xs).filter (tied cmp a) = xs.filter (tied cmp a) := by
  have htied : (xs.filter (tied cmp a)).Pairwise fun b c => (cmp b c).isLE = true := by
    rw [pairwise_filter]
    apply pairwise_of_forall
    intro b c hb hc
    have hbc := Std.TransCmp.eq_trans (Std.OrientedCmp.eq_symm (eq_of_beq hb)) (eq_of_beq hc)
    rw [hbc]
    rfl
  have hsub : List.Sublist (xs.filter (tied cmp a)) (stableSort cmp xs) :=
    sublist_mergeSort (fun _ _ _ => Std.TransCmp.isLE_trans) isLE_total htied filter_sublist
  have hfilter := hsub.filter (tied cmp a)
  rw [filter_filter] at hfilter
  simp only [Bool.and_self] at hfilter
  exact (hfilter.eq_of_length ((stableSort_perm xs).filter (tied cmp a)).length_eq.symm).symm

theorem Ordered.head_isLE {x a : α} (hx : Ordered cmp (x :: xs)) (ha : a ∈ x :: xs) :
    (cmp x a).isLE = true := by
  rcases mem_cons.mp ha with rfl | hin
  · exact isLE_self a
  · exact (pairwise_cons.mp hx).1 a hin

theorem Ordered.eq_of_filter_eq (hx : Ordered cmp xs) (hy : Ordered cmp ys)
    (h : ∀ a, xs.filter (tied cmp a) = ys.filter (tied cmp a)) : xs = ys := by
  induction xs generalizing ys with
  | nil =>
    cases ys with
    | nil => rfl
    | cons y ys =>
      have hy' := h y
      rw [filter_cons_of_pos (l := ys) (tied_self y)] at hy'
      cases hy'
  | cons x xs ih =>
    have hx' := h x
    rw [filter_cons_of_pos (l := xs) (tied_self x)] at hx'
    cases ys with
    | nil => cases hx'
    | cons y ys =>
      have hy' := h y
      rw [filter_cons_of_pos (l := ys) (tied_self y)] at hy'
      -- each head is in the other list
      have hyx : (cmp y x).isLE = true := hy.head_isLE (mem_of_mem_filter (hx' ▸ mem_cons_self))
      have hxy : (cmp x y).isLE = true := hx.head_isLE (mem_of_mem_filter (hy' ▸ mem_cons_self))
      have htied : tied cmp x y = true := beq_iff_eq.mpr (Std.OrientedCmp.isLE_antisymm hxy hyx)
      rw [filter_cons_of_pos htied] at hx'
      injection hx' with hhead htail
      subst hhead
      congr 1
      apply ih (List.Pairwise.of_cons hx) (List.Pairwise.of_cons hy)
      intro a
      have ha := h a
      by_cases hin : tied cmp a x = true
      · rw [filter_cons_of_pos hin, filter_cons_of_pos hin] at ha
        injection ha
      · rwa [filter_cons_of_neg hin, filter_cons_of_neg hin] at ha

end Stable

/-! ## Merges -/

section Runs

variable {runs : List (List α)} {i : Nat} {a : α} {rest out : List α}

theorem mem_set_rest (hi : runs[i]? = some (a :: rest)) {run : List α} (hrun : run ∈ runs.set i rest) :
    ∃ run' ∈ runs, run ⊆ run' := by
  rcases mem_or_eq_of_mem_set hrun with hin | rfl
  · exact ⟨run, hin, List.Subset.refl run⟩
  · exact ⟨a :: run, mem_of_getElem? hi, subset_cons_self a run⟩

theorem flatten_perm (hi : runs[i]? = some (a :: rest)) :
    (a :: (runs.set i rest).flatten).Perm runs.flatten := by
  induction runs generalizing i with
  | nil => cases hi
  | cons run runs ih =>
    cases i with
    | zero =>
      cases hi
      exact List.Perm.refl _
    | succ i =>
      rw [set_cons_succ, flatten_cons, flatten_cons]
      exact perm_middle.symm.trans ((ih hi).append_left run)

theorem Merges.perm (h : Merges cmp runs out) : out.Perm runs.flatten := by
  induction h with
  | done hempty => rw [flatten_eq_nil_iff.mpr hempty]
  | next hi hleast h ih => exact (ih.cons _).trans (flatten_perm hi)

theorem ordered_set (hi : runs[i]? = some (a :: rest)) (hordered : ∀ run ∈ runs, Ordered cmp run) :
    ∀ run ∈ runs.set i rest, Ordered cmp run := by
  intro run hrun
  rcases mem_or_eq_of_mem_set hrun with hin | rfl
  · exact hordered run hin
  · exact List.Pairwise.of_cons (hordered _ (mem_of_getElem? hi))

theorem Merges.filter_eq (h : Merges cmp runs out) {p : α → Bool} {k : Nat}
    (hother : ∀ (j : Nat) (run : List α), runs[j]? = some run → j ≠ k → run.filter p = []) :
    out.filter p = (runs[k]?.getD []).filter p := by
  induction h with
  | @done runs hempty =>
    cases hk : runs[k]? with
    | none => rfl
    | some run =>
      rw [Option.getD_some, hempty run (mem_of_getElem? hk)]
  | @next runs i a rest out hi hleast h ih =>
    have hlt : i < runs.length := (List.getElem?_eq_some_iff.mp hi).1
    by_cases hik : i = k
    · subst hik
      rw [hi, Option.getD_some]
      rw [getElem?_set_self hlt, Option.getD_some] at ih
      rw [filter_cons, filter_cons, ih]
      intro j run hj hne
      rw [getElem?_set_ne (Ne.symm hne)] at hj
      exact hother j run hj hne
    · have hnone := hother i _ hi hik
      have hneg : ¬p a = true := filter_eq_nil_iff.mp hnone a mem_cons_self
      rw [getElem?_set_ne hik] at ih
      rw [filter_cons_of_neg hneg]
      apply ih
      intro j run hj hne
      by_cases hij : i = j
      · subst hij
        rw [getElem?_set_self hlt] at hj
        cases hj
        rwa [filter_cons_of_neg hneg] at hnone
      · rw [getElem?_set_ne hij] at hj
        exact hother j run hj hne

variable [Std.TransCmp cmp]

theorem least_of_heads (hordered : ∀ run ∈ runs, Ordered cmp run)
    (hleast : ∀ run ∈ runs, ∀ b ∈ run.head?, (cmp a b).isLE = true) {run : List α} (hrun : run ∈ runs)
    {b : α} (hb : b ∈ run) : (cmp a b).isLE = true := by
  cases run with
  | nil => cases hb
  | cons head rest =>
    have hhead := hleast _ hrun head rfl
    exact Std.TransCmp.isLE_trans hhead ((hordered _ hrun).head_isLE hb)

theorem Merges.ordered (h : Merges cmp runs out) (hordered : ∀ run ∈ runs, Ordered cmp run) :
    Ordered cmp out := by
  induction h with
  | done hempty => exact List.Pairwise.nil
  | next hi hleast h ih =>
    apply List.Pairwise.cons _ (ih (ordered_set hi hordered))
    intro b hb
    obtain ⟨run, hrun, hbrun⟩ := mem_flatten.mp (h.perm.subset hb)
    obtain ⟨run', hrun', hsub⟩ := mem_set_rest hi hrun
    exact least_of_heads hordered hleast hrun' (hsub hbrun)

end Runs

/-! ## Settled runs -/

section Settled

variable {runs : List (List α)}

theorem filter_flatten {p : α → Bool} {k : Nat}
    (hother : ∀ (j : Nat) (run : List α), runs[j]? = some run → j ≠ k → run.filter p = []) :
    runs.flatten.filter p = (runs[k]?.getD []).filter p := by
  induction runs generalizing k with
  | nil => rfl
  | cons run runs ih =>
    rw [flatten_cons, filter_append]
    cases k with
    | zero =>
      have hrest : runs.flatten.filter p = [] := by
        rw [filter_eq_nil_iff]
        intro a ha
        obtain ⟨run', hrun', hin⟩ := mem_flatten.mp ha
        obtain ⟨j, hj⟩ := mem_iff_getElem?.mp hrun'
        exact filter_eq_nil_iff.mp (hother (j + 1) run' hj (Nat.succ_ne_zero j)) a hin
      rw [hrest, append_nil]
      rfl
    | succ k =>
      rw [hother 0 run rfl (Nat.succ_ne_zero k).symm, nil_append]
      exact ih fun j run' hj hne => hother (j + 1) run' hj fun h => hne (Nat.succ.inj h)

theorem mem_of_mem_flatten {b : α} (hb : b ∈ runs.flatten) : ∃ (i : Nat) (run : List α),
    runs[i]? = some run ∧ b ∈ run := by
  obtain ⟨run, hrun, hin⟩ := mem_flatten.mp hb
  obtain ⟨i, hi⟩ := mem_iff_getElem?.mp hrun
  exact ⟨i, run, hi, hin⟩

theorem filter_eq_of_perm {p : α → Bool} {xs ys : List α} (h : xs.Perm ys) {b : α}
    (hall : ∀ d ∈ ys, p d = true → d = b) : xs.filter p = ys.filter p := by
  have hys : ys.filter p = List.replicate (ys.filter p).length b := by
    apply eq_replicate_of_mem
    intro d hd
    exact hall d (mem_of_mem_filter hd) (mem_filter.mp hd).2
  have hxs : xs.filter p = List.replicate (xs.filter p).length b := by
    apply eq_replicate_of_mem
    intro d hd
    exact hall d (h.subset (mem_of_mem_filter hd)) (mem_filter.mp hd).2
  rw [hxs, hys, (h.filter p).length_eq]

variable [Std.TransCmp cmp]

theorem Settled.eq_of_tied (h : Settled cmp runs) {a b c : α} {i j : Nat} {run run' : List α} (hij : i ≠ j)
    (hi : runs[i]? = some run) (hj : runs[j]? = some run') (hb : b ∈ run) (hc : c ∈ run')
    (hab : tied cmp a b = true) (hac : tied cmp a c = true) :
    ∀ d ∈ runs.flatten, tied cmp a d = true → d = b := by
  have hties : ∀ b c, tied cmp a b = true → tied cmp a c = true → cmp b c = .eq := by
    intro b c hb hc
    exact Std.TransCmp.eq_trans (Std.OrientedCmp.eq_symm (eq_of_beq hb)) (eq_of_beq hc)
  have hbc : b = c := h i j run run' hij hi hj b hb c hc (hties b c hab hac)
  intro d hd had
  obtain ⟨k, run'', hk, hin⟩ := mem_of_mem_flatten hd
  by_cases hki : k = i
  · rw [hbc]
    exact h k j run'' run' (hki ▸ hij) hk hj d hin c hc (hties d c had hac)
  · exact h k i run'' run hki hk hi d hin b hb (hties d b had hab)

theorem Merges.filter_tied (h : Settled cmp runs) {out : List α} (hout : Merges cmp runs out) (a : α) :
    out.filter (tied cmp a) = runs.flatten.filter (tied cmp a) := by
  by_cases hone : ∃ k, ∀ (j : Nat) (run : List α), runs[j]? = some run → j ≠ k →
      run.filter (tied cmp a) = []
  · obtain ⟨k, hk⟩ := hone
    rw [hout.filter_eq hk, filter_flatten hk]
  · push Not at hone
    have htie : ∀ (run : List α), run.filter (tied cmp a) ≠ [] → ∃ b ∈ run, tied cmp a b = true := by
      intro run hrun
      obtain ⟨b, hb⟩ := exists_mem_of_ne_nil _ hrun
      exact ⟨b, mem_of_mem_filter hb, (mem_filter.mp hb).2⟩
    obtain ⟨i, run, hi, _, hrun⟩ := hone 0
    obtain ⟨j, run', hj, hji, hrun'⟩ := hone i
    obtain ⟨b, hb, hab⟩ := htie run hrun
    obtain ⟨c, hc, hac⟩ := htie run' hrun'
    exact filter_eq_of_perm hout.perm (h.eq_of_tied hji.symm hi hj hb hc hab hac)

variable (cmp) in
theorem exists_least {xs : List α} (h : xs ≠ []) : ∃ a ∈ xs, ∀ b ∈ xs, (cmp a b).isLE = true := by
  have hsorted : Ordered cmp (stableSort cmp xs) := ordered_stableSort xs
  have hperm : (stableSort cmp xs).Perm xs := stableSort_perm xs
  cases hsort : stableSort cmp xs with
  | nil => exact absurd (List.Perm.nil_eq (hsort ▸ hperm)).symm h
  | cons a rest =>
    rw [hsort] at hsorted hperm
    refine ⟨a, hperm.subset mem_cons_self, fun b hb => hsorted.head_isLE (hperm.symm.subset hb)⟩

variable (cmp) in
theorem exists_merges (n : Nat) (runs : List (List α)) (hn : runs.flatten.length = n) :
    ∃ out, Merges cmp runs out := by
  induction n generalizing runs with
  | zero => exact ⟨[], .done (flatten_eq_nil_iff.mp (eq_nil_of_length_eq_zero hn))⟩
  | succ n ih =>
    have hne : runs.filterMap List.head? ≠ [] := by
      intro hnil
      rw [filterMap_eq_nil_iff] at hnil
      have hempty : runs.flatten = [] := by
        rw [flatten_eq_nil_iff]
        intro run hrun
        exact head?_eq_none_iff.mp (hnil run hrun)
      rw [hempty] at hn
      cases hn
    obtain ⟨a, ha, hleast⟩ := exists_least cmp hne
    obtain ⟨run, hrun, hhead⟩ := mem_filterMap.mp ha
    obtain ⟨i, hi⟩ := mem_iff_getElem?.mp hrun
    cases run with
    | nil => cases hhead
    | cons b rest =>
      cases hhead
      have hlength := (flatten_perm hi).length_eq
      rw [length_cons] at hlength
      obtain ⟨out, hout⟩ := ih (runs.set i rest) (by omega)
      refine ⟨a :: out, .next hi ?_ hout⟩
      intro run' hrun' c hc
      exact hleast c (mem_filterMap.mpr ⟨run', hrun', hc⟩)

variable {W : List α}

theorem head_of_unique (h : ∀ out, Merges cmp runs out → out = W) {k : Nat} {x : α}
    {rest : List α} (hk : runs[k]? = some (x :: rest))
    (hleast : ∀ run ∈ runs, ∀ b ∈ run.head?, (cmp x b).isLE = true) :
    W.head? = some x ∧ ∀ out, Merges cmp (runs.set k rest) out → out = W.tail := by
  obtain ⟨out, hout⟩ := exists_merges cmp _ (runs.set k rest) rfl
  have hW := h _ (.next hk hleast hout)
  refine ⟨by rw [← hW]; rfl, ?_⟩
  intro out' hout'
  rw [← h _ (.next hk hleast hout')]
  rfl

theorem heads_of_unique (h : ∀ out, Merges cmp runs out → out = W) {k j : Nat} {x y : α}
    {rest rest' : List α} (hk : runs[k]? = some (x :: rest)) (hj : runs[j]? = some (y :: rest'))
    (hleast : ∀ run ∈ runs, ∀ b ∈ run.head?, (cmp x b).isLE = true) (hyx : (cmp y x).isLE = true) :
    x = y ∧ ∀ run ∈ runs, ∀ b ∈ run.head?, (cmp y b).isLE = true := by
  have hleast' : ∀ run ∈ runs, ∀ b ∈ run.head?, (cmp y b).isLE = true :=
    fun run hrun b hb => Std.TransCmp.isLE_trans hyx (hleast run hrun b hb)
  have hheads := (head_of_unique h hk hleast).1.symm.trans (head_of_unique h hj hleast').1
  exact ⟨Option.some.inj hheads, hleast'⟩

/-- The run with a least head is settled with another, if what is left of the runs is settled after either
of their heads has been taken. -/
theorem settled_with_least (h : ∀ out, Merges cmp runs out → out = W)
    (hordered : ∀ run ∈ runs, Ordered cmp run)
    (hrest : ∀ (k : Nat) (x : α) (rest : List α), runs[k]? = some (x :: rest) →
      (∀ run ∈ runs, ∀ b ∈ run.head?, (cmp x b).isLE = true) → Settled cmp (runs.set k rest))
    {k j : Nat} {x : α} {rest run : List α} (hkj : k ≠ j) (hk : runs[k]? = some (x :: rest))
    (hj : runs[j]? = some run) (hleast : ∀ run ∈ runs, ∀ b ∈ run.head?, (cmp x b).isLE = true) {a b : α}
    (ha : a ∈ x :: rest) (hb : b ∈ run) (hab : cmp a b = .eq) : a = b := by
  have hlt : ∀ {i : Nat} {run : List α}, runs[i]? = some run → i < runs.length :=
    fun hi => (List.getElem?_eq_some_iff.mp hi).1
  rcases List.mem_cons.mp ha with rfl | ha
  · -- the head of the other run is least, too
    cases run with
    | nil => cases hb
    | cons y rest' =>
      have hyb := (hordered _ (mem_of_getElem? hj)).head_isLE hb
      have hya : (cmp y a).isLE = true := by
        apply Std.TransCmp.isLE_trans hyb
        rw [Std.OrientedCmp.eq_symm hab]
        rfl
      obtain ⟨hay, hleast'⟩ := heads_of_unique h hk hj hleast hya
      rcases mem_cons.mp hb with rfl | hb
      · exact hay
      · exact hrest j y rest' hj hleast' k j (a :: rest) rest' hkj
          (by rw [getElem?_set_ne hkj.symm, hk]) (getElem?_set_self (hlt hj)) a
          mem_cons_self b hb hab
  · exact hrest k x rest hk hleast k j rest run hkj (getElem?_set_self (hlt hk))
      (by rw [getElem?_set_ne hkj, hj]) a ha b hb hab

theorem settled_of_unique (n : Nat) (hn : runs.flatten.length = n)
    (hordered : ∀ run ∈ runs, Ordered cmp run) (h : ∀ out, Merges cmp runs out → out = W) :
    Settled cmp runs := by
  induction n generalizing runs W with
  | zero =>
    intro i j run run' _ hi _ a ha
    have hempty := flatten_eq_nil_iff.mp (eq_nil_of_length_eq_zero hn) run (mem_of_getElem? hi)
    rw [hempty] at ha
    cases ha
  | succ n ih =>
    -- whatever least head is taken, what is left is settled
    have hrest : ∀ (k : Nat) (x : α) (rest : List α), runs[k]? = some (x :: rest) →
        (∀ run ∈ runs, ∀ b ∈ run.head?, (cmp x b).isLE = true) → Settled cmp (runs.set k rest) := by
      intro k x rest hk hleast
      have hlength := (flatten_perm hk).length_eq
      rw [length_cons] at hlength
      exact ih (by omega) (ordered_set hk hordered) (head_of_unique h hk hleast).2
    obtain ⟨out, hout⟩ := exists_merges cmp _ runs rfl
    cases hout with
    | done hempty =>
      rw [flatten_eq_nil_iff.mpr hempty] at hn
      cases hn
    | @next _ k x rest _ hk hleast _ =>
      intro i j run run' hij hi hj a ha b hb hab
      by_cases hik : i = k
      · subst hik
        cases hk.symm.trans hi
        exact settled_with_least h hordered hrest hij hk hj hleast ha hb hab
      · by_cases hjk : j = k
        · subst hjk
          cases hk.symm.trans hj
          exact (settled_with_least h hordered hrest hij.symm hk hi hleast hb ha
            (Std.OrientedCmp.eq_symm hab)).symm
        · exact hrest k x rest hk hleast i j run run' hij (by rw [getElem?_set_ne (Ne.symm hik), hi])
            (by rw [getElem?_set_ne (Ne.symm hjk), hj]) a ha b hb hab

/-- Every merge of the sorted chunks of a list is the stable sort of the list exactly if the chunks are
settled. -/
theorem merges_stableSort_iff (chunks : List (List α)) :
    (∀ out, Merges cmp (chunks.map (stableSort cmp)) out → out = stableSort cmp chunks.flatten) ↔
      Settled cmp chunks := by
  have hordered : ∀ run ∈ chunks.map (stableSort cmp), Ordered cmp run := by
    intro run hrun
    obtain ⟨chunk, _, heq⟩ := mem_map.mp hrun
    rw [← heq]
    exact ordered_stableSort chunk
  have hsettled : Settled cmp (chunks.map (stableSort cmp)) ↔ Settled cmp chunks := by
    constructor
    · intro h i j run run' hij hi hj a ha b hb
      have hget : ∀ {k : Nat} {chunk : List α}, chunks[k]? = some chunk →
          (chunks.map (stableSort cmp))[k]? = some (stableSort cmp chunk) := by
        intro k chunk hk
        rw [getElem?_map, hk]
        rfl
      exact h i j _ _ hij (hget hi) (hget hj) a ((stableSort_perm run).symm.subset ha) b
        ((stableSort_perm run').symm.subset hb)
    · intro h i j run run' hij hi hj a ha b hb
      rw [getElem?_map] at hi hj
      obtain ⟨chunk, hchunk, hrun⟩ := Option.map_eq_some_iff.mp hi
      obtain ⟨chunk', hchunk', hrun'⟩ := Option.map_eq_some_iff.mp hj
      rw [← hrun] at ha
      rw [← hrun'] at hb
      exact h i j chunk chunk' hij hchunk hchunk' a ((stableSort_perm chunk).subset ha) b
        ((stableSort_perm chunk').subset hb)
  rw [← hsettled]
  constructor
  · exact settled_of_unique _ rfl hordered
  · intro h out hout
    apply (hout.ordered hordered).eq_of_filter_eq (ordered_stableSort _)
    intro a
    rw [hout.filter_tied h, filter_stableSort, List.filter_flatten, List.filter_flatten, List.map_map]
    congr 1
    apply List.map_congr_left
    intro chunk _
    exact filter_stableSort a

end Settled

end H2Database.Reasoning
