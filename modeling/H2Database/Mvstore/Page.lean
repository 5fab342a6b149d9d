import Mathlib.Data.List.Lex
import Mathlib.Data.String.Basic
import Mathlib.Order.WithBot

/-!
# Pages of the copy-on-write tree (`h2-mvstore/src/page.rs`)

A page is a leaf with its entries or a branch with the separator keys between its children.  Keys are
byte strings in lexicographic order; the model is generic in the key order, since the metadata tree
is read by map name.  The persisted references of a branch (`child_refs`) are always `MEMORY_ONLY`
and are left out.
-/

namespace H2Database.Mvstore

open List

instance linearOrderUInt8 : LinearOrder UInt8 where
  le_refl := UInt8.le_refl
  le_trans _ _ _ := UInt8.le_trans
  le_antisymm _ _ := UInt8.le_antisymm
  le_total := UInt8.le_total
  lt_iff_le_not_ge a b := by
    simp only [UInt8.lt_iff_toNat_lt, UInt8.le_iff_toNat_le]
    omega
  toDecidableLE := inferInstance
  toDecidableLT := inferInstance
  toDecidableEq := inferInstance

/-- `Vec<u8>` keys. -/
abbrev Key := List UInt8

structure Entry (K V : Type) where
  key : K
  value : V
  deriving DecidableEq, Repr

inductive Page (K V : Type) where
  | leaf (entries : List (Entry K V))
  | branch (keys : List K) (children : List (Page K V))

variable {K V : Type} [LinearOrder K]

/-! ## Binary search -/

/-- `slice::binary_search` on a sorted slice: the index of the key, or the index where it belongs. -/
def binarySearch : List K → K → Except Nat Nat
  | [], _ => .error 0
  | q :: ks, k =>
    if q = k then .ok 0
    else if k < q then .error 0
    else match binarySearch ks k with
      | .ok i => .ok (i + 1)
      | .error i => .error (i + 1)

/-- The index of the child that holds `k`: `Ok(i) => i + 1`, `Err(i) => i`. -/
def childIndex (keys : List K) (k : K) : Nat :=
  match binarySearch keys k with
  | .ok i => i + 1
  | .error i => i

theorem childIndex_of_lt {keys : List K} {k : K} (h : ∀ q ∈ keys, k < q) :
    childIndex keys k = 0 := by
  cases keys with
  | nil => rfl
  | cons q ks =>
    have hq := h q mem_cons_self
    simp only [childIndex, binarySearch, if_neg hq.ne', if_pos hq]

theorem childIndex_cons {q : K} {ks : List K} (hs : (q :: ks).Pairwise (· < ·)) (k : K) :
    childIndex (q :: ks) k = if k < q then 0 else childIndex ks k + 1 := by
  by_cases hlt : k < q
  · rw [if_pos hlt]
    simp only [childIndex, binarySearch, if_neg hlt.ne', if_pos hlt]
  · rw [if_neg hlt]
    by_cases heq : q = k
    · subst heq
      have hz : childIndex ks q = 0 := childIndex_of_lt fun _ hq => rel_of_pairwise_cons hs hq
      rw [hz]
      simp only [childIndex, binarySearch, if_true]
    · simp only [childIndex, binarySearch, if_neg heq, if_neg hlt]
      cases binarySearch ks k <;> rfl

/-! ## Leaves -/

namespace Page

def SortedEntries (es : List (Entry K V)) : Prop := (es.map Entry.key).Pairwise (· < ·)

/-- The leaf case of `get`. -/
def leafGet (es : List (Entry K V)) (k : K) : Option V :=
  match binarySearch (es.map Entry.key) k with
  | .ok i => es[i]?.map Entry.value
  | .error _ => none

def leafPut (es : List (Entry K V)) (k : K) (v : V) : List (Entry K V) :=
  match binarySearch (es.map Entry.key) k with
  | .ok i => es.modify i fun e => { e with value := v }
  | .error i => es.insertIdx i ⟨k, v⟩

def leafRemove (es : List (Entry K V)) (k : K) : List (Entry K V) :=
  match binarySearch (es.map Entry.key) k with
  | .ok i => es.eraseIdx i
  | .error _ => es

theorem leafGet_cons (e : Entry K V) (es : List (Entry K V)) (k : K) :
    leafGet (e :: es) k =
      if e.key = k then some e.value else if k < e.key then none else leafGet es k := by
  simp only [leafGet, map_cons, binarySearch]
  split_ifs
  · rfl
  · rfl
  · cases binarySearch (es.map Entry.key) k <;> rfl

theorem leafPut_cons (e : Entry K V) (es : List (Entry K V)) (k : K) (v : V) :
    leafPut (e :: es) k v =
      if e.key = k then { e with value := v } :: es
      else if k < e.key then ⟨k, v⟩ :: e :: es else e :: leafPut es k v := by
  simp only [leafPut, map_cons, binarySearch]
  split_ifs
  · rfl
  · rfl
  · cases binarySearch (es.map Entry.key) k <;> rfl

theorem leafRemove_cons (e : Entry K V) (es : List (Entry K V)) (k : K) :
    leafRemove (e :: es) k =
      if e.key = k then es else if k < e.key then e :: es else e :: leafRemove es k := by
  simp only [leafRemove, map_cons, binarySearch]
  split_ifs
  · rfl
  · rfl
  · cases binarySearch (es.map Entry.key) k <;> rfl

variable {es : List (Entry K V)} {e : Entry K V}

variable {k : K}

theorem mem_of_leafGet {v : V} (h : leafGet es k = some v) :
    ⟨k, v⟩ ∈ es := by
  induction es with
  | nil => cases h
  | cons e es ih =>
    rw [leafGet_cons] at h
    split_ifs at h with heq hlt
    · cases h
      rw [← heq]
      exact mem_cons_self
    · exact mem_cons_of_mem _ (ih h)

theorem leafGet_of_mem (hs : SortedEntries es) (h : e ∈ es) : leafGet es e.key = some e.value := by
  induction es with
  | nil => cases h
  | cons d es ih =>
    rw [leafGet_cons]
    rcases mem_cons.mp h with rfl | h
    · rw [if_pos rfl]
    · have hlt : d.key < e.key := rel_of_pairwise_cons hs (mem_map_of_mem h)
      rw [if_neg hlt.ne, if_neg hlt.asymm, ih hs.of_cons h]

theorem leafGet_eq_none (h : ∀ e ∈ es, e.key ≠ k) :
    leafGet es k = none := by
  cases hg : leafGet es k with
  | none => rfl
  | some v => exact absurd rfl (h _ (mem_of_leafGet hg))

theorem mem_leafPut {v : V} (h : e ∈ leafPut es k v) : e = ⟨k, v⟩ ∨ e ∈ es := by
  induction es with
  | nil =>
    simp only [leafPut, map_nil, binarySearch, insertIdx_zero, mem_singleton] at h
    exact .inl h
  | cons d es ih =>
    rw [leafPut_cons] at h
    split_ifs at h with heq hlt
    · rcases mem_cons.mp h with rfl | h
      · exact .inl (by rw [heq])
      · exact .inr (mem_cons_of_mem _ h)
    · exact mem_cons.mp h
    · rcases mem_cons.mp h with rfl | h
      · exact .inr mem_cons_self
      · exact (ih h).imp id (mem_cons_of_mem _)

theorem mem_leafRemove (h : e ∈ leafRemove es k) : e ∈ es := by
  unfold leafRemove at h
  split at h
  · exact mem_of_mem_eraseIdx h
  · exact h

theorem sortedEntries_cons :
    SortedEntries (e :: es) ↔ (∀ d ∈ es, e.key < d.key) ∧ SortedEntries es := by
  simp only [SortedEntries, map_cons, pairwise_cons, mem_map, forall_exists_index,
    and_imp, forall_apply_eq_imp_iff₂]

theorem sortedEntries_filter (hs : SortedEntries es) (p : K → Bool) :
    SortedEntries (es.filter fun e => p e.key) := by
  refine List.Pairwise.sublist ?_ hs
  exact filter_sublist.map Entry.key

theorem leafGet_filter (hs : SortedEntries es) (p : K → Bool) (k : K) :
    leafGet (es.filter fun e => p e.key) k = if p k then leafGet es k else none := by
  split_ifs with hp
  · cases hg : leafGet es k with
    | none =>
      refine leafGet_eq_none fun e he hk => ?_
      have hsome := leafGet_of_mem hs (mem_of_mem_filter he)
      rw [hk, hg] at hsome
      cases hsome
    | some v =>
      have hmem : (⟨k, v⟩ : Entry K V) ∈ es.filter fun e => p e.key :=
        mem_filter.mpr ⟨mem_of_leafGet hg, hp⟩
      exact leafGet_of_mem (sortedEntries_filter hs p) hmem
  · refine leafGet_eq_none fun e he hk => hp ?_
    rw [← hk]
    exact (mem_filter.mp he).2

theorem sortedEntries_leafPut (hs : SortedEntries es) (k : K) (v : V) :
    SortedEntries (leafPut es k v) := by
  induction es with
  | nil => exact pairwise_singleton _ _
  | cons e es ih =>
    obtain ⟨hrel, hs'⟩ := sortedEntries_cons.mp hs
    rw [leafPut_cons]
    split_ifs with heq hlt
    · exact sortedEntries_cons.mpr ⟨hrel, hs'⟩
    · refine sortedEntries_cons.mpr ⟨fun d hd => ?_, hs⟩
      rcases mem_cons.mp hd with rfl | hd
      · exact hlt
      · exact hlt.trans (hrel d hd)
    · refine sortedEntries_cons.mpr ⟨fun d hd => ?_, ih hs'⟩
      rcases mem_leafPut hd with rfl | hd
      · exact lt_of_le_of_ne (not_lt.mp hlt) heq
      · exact hrel d hd

theorem sortedEntries_leafRemove (hs : SortedEntries es) (k : K) :
    SortedEntries (leafRemove es k) := by
  induction es with
  | nil => exact hs
  | cons e es ih =>
    obtain ⟨hrel, hs'⟩ := sortedEntries_cons.mp hs
    rw [leafRemove_cons]
    split_ifs with heq hlt
    · exact hs'
    · exact hs
    · exact sortedEntries_cons.mpr ⟨fun d hd => hrel d (mem_leafRemove hd), ih hs'⟩

theorem leafGet_leafPut (es : List (Entry K V)) (k : K) (v : V) (k' : K) :
    leafGet (leafPut es k v) k' = if k' = k then some v else leafGet es k' := by
  induction es with
  | nil =>
    simp only [leafPut, map_nil, binarySearch, insertIdx_zero, leafGet_cons]
    have hnil : leafGet ([] : List (Entry K V)) k' = none := rfl
    rw [hnil]
    by_cases heq : k' = k
    · rw [if_pos heq.symm, if_pos heq]
    · rw [if_neg (Ne.symm heq), if_neg heq, ite_self]
  | cons e es ih =>
    rw [leafPut_cons, leafGet_cons e es k']
    -- the three exits of the search: on the entry, before it, behind it
    by_cases hek : e.key = k
    · rw [if_pos hek, leafGet_cons]
      by_cases hk : k' = k
      · rw [if_pos (hek.trans hk.symm), if_pos hk]
      · rw [if_neg hk]
        have hne : e.key ≠ k' := fun h => hk (h.symm.trans hek)
        rw [if_neg hne, if_neg hne]
    · rw [if_neg hek]
      by_cases hlt : k < e.key
      · rw [if_pos hlt, leafGet_cons, leafGet_cons]
        by_cases hk : k' = k
        · rw [if_pos hk.symm, if_pos hk]
        · rw [if_neg (Ne.symm hk), if_neg hk]
          -- the new entry comes before `e`: a key below it is not in the leaf at all
          by_cases hlt' : k' < k
          · rw [if_pos hlt', if_neg (hlt'.trans hlt).ne', if_pos (hlt'.trans hlt)]
          · rw [if_neg hlt']
      · rw [if_neg hlt, leafGet_cons, ih]
        by_cases hk : k' = k
        · rw [if_pos hk, if_pos hk, hk, if_neg hek, if_neg hlt]
        · rw [if_neg hk, if_neg hk]

theorem leafGet_leafRemove (hs : SortedEntries es) (k k' : K) :
    leafGet (leafRemove es k) k' = if k' = k then none else leafGet es k' := by
  induction es with
  | nil => exact (ite_self _).symm
  | cons e es ih =>
    obtain ⟨hrel, hs'⟩ := sortedEntries_cons.mp hs
    rw [leafRemove_cons, leafGet_cons e es k']
    by_cases hek : e.key = k
    · rw [if_pos hek]
      by_cases hk : k' = k
      · rw [if_pos hk, hk, ← hek]
        -- keys are distinct, so nothing under `k` is left
        exact leafGet_eq_none fun d hd => (hrel d hd).ne'
      · rw [if_neg hk, if_neg (fun h => hk (h.symm.trans hek))]
        by_cases hlt : k' < e.key
        · rw [if_pos hlt]
          exact leafGet_eq_none fun d hd => (hlt.trans (hrel d hd)).ne'
        · rw [if_neg hlt]
    · rw [if_neg hek]
      by_cases hlt : k < e.key
      · rw [if_pos hlt, leafGet_cons]
        by_cases hk : k' = k
        · rw [if_pos hk, hk, if_neg hek, if_pos hlt]
        · rw [if_neg hk]
      · rw [if_neg hlt, leafGet_cons, ih hs']
        by_cases hk : k' = k
        · rw [if_pos hk, if_pos hk, hk, if_neg hek, if_neg hlt]
        · rw [if_neg hk, if_neg hk]

theorem leafRemove_of_none (h : leafGet es k = none) :
    leafRemove es k = es := by
  induction es with
  | nil => rfl
  | cons e es ih =>
    rw [leafGet_cons] at h
    rw [leafRemove_cons]
    split_ifs at h ⊢ with heq hlt
    · rfl
    · rw [ih h]

/-! ## Entries on the two sides of a separator -/

section Separator

variable {left right : List (Entry K V)} {q : K} (hl : ∀ e ∈ left, e.key < q)
  (hr : ∀ e ∈ right, q ≤ e.key)

include hl hr

theorem leafGet_append (k : K) :
    leafGet (left ++ right) k = if k < q then leafGet left k else leafGet right k := by
  induction left with
  | nil =>
    by_cases hlt : k < q
    · rw [if_pos hlt, nil_append]
      exact leafGet_eq_none fun e he => (lt_of_lt_of_le hlt (hr e he)).ne'
    · rw [if_neg hlt, nil_append]
  | cons d left ih =>
    rw [cons_append, leafGet_cons, leafGet_cons,
      ih fun e he => hl e (mem_cons_of_mem _ he)]
    by_cases hlt : k < q
    · rw [if_pos hlt, if_pos hlt]
    · have hdk : d.key < k := lt_of_lt_of_le (hl d mem_cons_self) (not_lt.mp hlt)
      rw [if_neg hlt, if_neg hlt, if_neg hdk.ne, if_neg hdk.asymm]

/-- Adding and removing go to the first entry that is not below the key. -/
theorem edit_append (edit : List (Entry K V) → List (Entry K V)) (k : K)
    (hcons : ∀ e es, edit (e :: es) =
      if e.key = k then edit [] ++ es else if k < e.key then edit [] ++ e :: es else e :: edit es) :
    edit (left ++ right) = if k < q then edit left ++ right else left ++ edit right := by
  induction left with
  | nil =>
    -- `q` separates the two halves, so the search ends in the half the key belongs to
    by_cases hlt : k < q
    · rw [if_pos hlt, nil_append]
      cases right with
      | nil => exact (append_nil _).symm
      | cons e right =>
        have hke : k < e.key := lt_of_lt_of_le hlt (hr e mem_cons_self)
        rw [hcons, if_neg hke.ne', if_pos hke]
    · rw [if_neg hlt, nil_append, nil_append]
  | cons d left ih =>
    rw [cons_append, hcons, hcons, ih fun e he => hl e (mem_cons_of_mem _ he)]
    by_cases hlt : k < q
    · rw [if_pos hlt, if_pos hlt]
      split_ifs <;> simp
    · have hdk : d.key < k := lt_of_lt_of_le (hl d mem_cons_self) (not_lt.mp hlt)
      rw [if_neg hlt, if_neg hlt, if_neg hdk.ne, if_neg hdk.asymm]
      rfl

theorem leafPut_append (k : K) (v : V) :
    leafPut (left ++ right) k v =
      if k < q then leafPut left k v ++ right else left ++ leafPut right k v :=
  edit_append hl hr (leafPut · k v) k fun e es => by
    rw [leafPut_cons]
    split_ifs with h
    · subst h
      rfl
    · rfl
    · rfl

theorem leafRemove_append (k : K) :
    leafRemove (left ++ right) k =
      if k < q then leafRemove left k ++ right else left ++ leafRemove right k :=
  edit_append hl hr (leafRemove · k) k fun e es => leafRemove_cons e es k

theorem sortedEntries_append (hsl : SortedEntries left) (hsr : SortedEntries right) :
    SortedEntries (left ++ right) := by
  induction left with
  | nil => exact hsr
  | cons d left ih =>
    obtain ⟨hrel, hsl'⟩ := sortedEntries_cons.mp hsl
    refine sortedEntries_cons.mpr ⟨fun e he => ?_,
      ih (fun e he => hl e (mem_cons_of_mem _ he)) hsl'⟩
    rcases mem_append.mp he with he | he
    · exact hrel e he
    · exact lt_of_lt_of_le (hl d mem_cons_self) (hr e he)

end Separator

end Page

end H2Database.Mvstore
