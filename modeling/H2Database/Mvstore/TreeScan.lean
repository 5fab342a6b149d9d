import H2Database.Mvstore.Tree
import H2Database.Reasoning.Lists
import H2Database.Reasoning.Run
import Mathlib.Data.List.Induction

/-!
# Walks over the tree (`h2-mvstore/src/tree.rs`)

What a tree holds after puts and removals, and the walks over it.  `scan_prefix` and `scan_range` leave out
the children of a branch whose separators say that nothing in them can be meant, and start a leaf in the
middle; both are a walk with a test for children and a selection of leaf entries, and find what a filter of
all entries finds.
-/

namespace H2Database.Mvstore

open Reasoning List

variable {K V : Type} [LinearOrder K]

namespace Page

mutual

/-- `traverse_for_each`; the closure has a state. -/
def traverseForEach {σ : Type} (f : σ → K → V → σ) : Page K V → σ → σ
  | .leaf entries, s => entries.foldl (fun s e => f s e.key e.value) s
  | .branch _ children, s => traverseAll f children s

def traverseAll {σ : Type} (f : σ → K → V → σ) : List (Page K V) → σ → σ
  | [], s => s
  | c :: cs, s => traverseAll f cs (c.traverseForEach f s)

end

mutual

def collectPruned (skips : Option K → Option K → Bool) (select : List (Entry K V) → List (Entry K V)) :
    Page K V → List (Entry K V)
  | .leaf entries => select entries
  | .branch keys children => collectBetween skips select none keys children

/-- The loop over the children: `keys[i - 1]` and `keys[i]` stand on the two sides of child `i`. -/
def collectBetween (skips : Option K → Option K → Bool) (select : List (Entry K V) → List (Entry K V)) :
    Option K → List K → List (Page K V) → List (Entry K V)
  | _, _, [] => []
  | lower, keys, c :: cs =>
    (if skips lower keys.head? then [] else c.collectPruned skips select) ++
      collectBetween skips select keys.head? keys.tail cs

end

/-- `Ok(idx) => idx`, `Err(idx) => idx`. -/
def searchIndex (keys : List K) (k : K) : Nat :=
  match binarySearch keys k with
  | .ok i => i
  | .error i => i

def takePrefixed (pre : Key) : List (Entry Key V) → List (Entry Key V)
  | [] => []
  | e :: es =>
    if pre.isPrefixOf e.key then e :: takePrefixed pre es
    else if pre < e.key then [] else takePrefixed pre es

def prefixEntries (pre : Key) (entries : List (Entry Key V)) : List (Entry Key V) :=
  takePrefixed pre (entries.drop (searchIndex (entries.map Entry.key) pre))

def skipsPrefix (pre : Key) (lower upper : Option Key) : Bool :=
  lower.any (fun l => decide (pre < l) && !pre.isPrefixOf l) ||
    upper.any fun r => decide (r ≤ pre) && !pre.isPrefixOf r

def collectPrefixEntries (pre : Key) : Page Key V → List (Entry Key V) :=
  collectPruned (skipsPrefix pre) (prefixEntries pre)

end Page

/-- `std::ops::Bound`. -/
inductive Bound (K : Type) where
  | included (k : K)
  | excluded (k : K)
  | unbounded

namespace Bound

def admitsFrom : Bound K → K → Bool
  | .included start, k => start ≤ k
  | .excluded start, k => start < k
  | .unbounded, _ => true

/-- `within_end`. -/
def admitsTo : Bound K → K → Bool
  | .included stop, k => k ≤ stop
  | .excluded stop, k => k < stop
  | .unbounded, _ => true

end Bound

namespace Page

def startIndex (keys : List K) : Bound K → Nat
  | .unbounded => 0
  | .included k => searchIndex keys k
  | .excluded k => childIndex keys k

def rangeEntries (start stop : Bound K) (entries : List (Entry K V)) : List (Entry K V) :=
  (entries.drop (startIndex (entries.map Entry.key) start)).takeWhile fun e => stop.admitsTo e.key

def skipsRange (start stop : Bound K) (lower upper : Option K) : Bool :=
  lower.any (fun lower => match stop with
    | .included stop => stop < lower
    | .excluded stop => stop ≤ lower
    | .unbounded => false) ||
  upper.any fun upper => match start with
    | .included start => upper ≤ start
    | .excluded start => upper ≤ start
    | .unbounded => false

def collectRangeEntries (start stop : Bound K) : Page K V → List (Entry K V) :=
  collectPruned (skipsRange start stop) (rangeEntries start stop)

end Page

namespace MVTree

/-- `MVTree::new`. -/
def new (maxEntriesPerPage : Nat) (splits : 1 ≤ maxEntriesPerPage) : MVTree K V where
  root := .leaf []
  maxEntriesPerPage := maxEntriesPerPage
  splits := splits
  ordered := empty.ordered

def forEachEntry {σ : Type} (t : MVTree K V) (f : σ → K → V → σ) (s : σ) : σ := t.root.traverseForEach f s

def scanPrefix (t : MVTree Key V) (pre : Key) : List (Entry Key V) := t.root.collectPrefixEntries pre

def scanRange (t : MVTree K V) (start stop : Bound K) : List (Entry K V) :=
  t.root.collectRangeEntries start stop

end MVTree

inductive TreeOp (K V : Type) where
  | put (k : K) (v : V)
  | remove (k : K)

namespace TreeOp

def key : TreeOp K V → K
  | .put k _ => k
  | .remove k => k

def perform (t : MVTree K V) : TreeOp K V → MVTree K V
  | .put k v => t.put k v
  | .remove k => (t.remove k).1

end TreeOp

/-! ## What the walks find -/

namespace Page

omit [LinearOrder K] in
mutual

theorem traverseForEach_eq {σ : Type} (f : σ → K → V → σ) :
    (p : Page K V) → (s : σ) →
      p.traverseForEach f s = p.collectEntries.foldl (fun s e => f s e.key e.value) s
  | .leaf entries, s => by rw [traverseForEach, collectEntries]
  | .branch keys children, s => by
    rw [traverseForEach, collectEntries]
    exact traverseAll_eq f children s

theorem traverseAll_eq {σ : Type} (f : σ → K → V → σ) :
    (cs : List (Page K V)) → (s : σ) →
      traverseAll f cs s = (collectAll cs).foldl (fun s e => f s e.key e.value) s
  | [], s => by rw [traverseAll, collectAll, foldl_nil]
  | c :: cs, s => by
    rw [traverseAll, collectAll, foldl_append, traverseForEach_eq f c s]
    exact traverseAll_eq f cs _

end

/-- A test for children and a selection of leaf entries by which the keys with `P` are found. -/
structure Finds (skips : Option K → Option K → Bool) (select : List (Entry K V) → List (Entry K V))
    (P : K → Bool) : Prop where
  select : ∀ es, SortedEntries es → select es = es.filter fun e => P e.key
  skips : ∀ lower upper k, skips lower upper = true → (∀ l ∈ lower, l ≤ k) → (∀ r ∈ upper, k < r) →
    P k = false

section Pruned

variable {skips : Option K → Option K → Bool} {select : List (Entry K V) → List (Entry K V)} {P : K → Bool}

theorem Finds.nothing (hf : Finds skips select P) {lo : WithBot K} {hi : WithTop K} {c : Page K V}
    (hc : c.Ordered lo hi) {lower upper : Option K} (hlower : ∀ l ∈ lower, (l : WithBot K) ≤ lo)
    (hupper : ∀ r ∈ upper, hi ≤ (r : WithTop K)) (h : skips lower upper = true) :
    (c.collectEntries.filter fun e => P e.key) = [] := by
  rw [filter_eq_nil_iff]
  intro e he
  obtain ⟨hlo, hhi⟩ := (Ordered.within c hc).2 e he
  rw [Bool.not_eq_true]
  apply hf.skips lower upper e.key h
  · exact fun l hl => WithBot.coe_le_coe.mp ((hlower l hl).trans hlo)
  · exact fun r hr => WithTop.coe_lt_coe.mp (hhi.trans_le (hupper r hr))

mutual

theorem collectPruned_eq (hf : Finds skips select P) {lo : WithBot K} {hi : WithTop K} :
    (p : Page K V) → p.Ordered lo hi →
      p.collectPruned skips select = p.collectEntries.filter fun e => P e.key
  | .leaf entries, h => by
    rw [collectPruned, collectEntries]
    exact hf.select entries (ordered_leaf.mp h).1
  | .branch keys children, h => by
    rw [collectPruned, collectEntries]
    exact collectBetween_eq hf none (fun l hl => by cases hl) keys children (ordered_branch.mp h)

theorem collectBetween_eq (hf : Finds skips select P) {lo : WithBot K} {hi : WithTop K}
    (lower : Option K) (hlower : ∀ l ∈ lower, (l : WithBot K) ≤ lo) (keys : List K) :
    (children : List (Page K V)) → OrderedAll lo hi keys children →
      collectBetween skips select lower keys children =
        (collectAll children).filter fun e => P e.key
  | [], h => by simp [OrderedAll] at h
  | c :: cs, h => by
    rw [collectBetween, collectAll, filter_append]
    rcases h.cases with ⟨c', rfl, heq, hc⟩ | ⟨q, ks, c', cs', rfl, heq, hlo, hhi, hc, hrest⟩
    · cases heq
      rw [collectBetween, collectAll, filter_nil]
      congr 1
      split_ifs with hs
      · exact (hf.nothing hc hlower (fun r hr => by cases hr) hs).symm
      · exact collectPruned_eq hf c hc
    · cases heq
      congr 1
      · split_ifs with hs
        · refine (hf.nothing hc hlower (fun r hr => ?_) hs).symm
          cases hr
          exact le_rfl
        · exact collectPruned_eq hf c hc
      · refine collectBetween_eq hf (some q) (fun l hl => ?_) ks cs hrest
        cases hl
        exact le_rfl

end

end Pruned

theorem searchIndex_cons (q : K) (ks : List K) (k : K) :
    searchIndex (q :: ks) k = if k ≤ q then 0 else searchIndex ks k + 1 := by
  unfold searchIndex
  rw [binarySearch]
  by_cases heq : q = k
  · rw [if_pos heq, if_pos heq.ge]
  · by_cases hlt : k < q
    · rw [if_neg heq, if_pos hlt, if_pos hlt.le]
    · rw [if_neg heq, if_neg hlt, if_neg fun hle => hlt (lt_of_le_of_ne hle (Ne.symm heq))]
      cases binarySearch ks k <;> rfl

variable {keys : List K} {k q : K}

theorem lt_of_mem_take_searchIndex (h : q ∈ keys.take (searchIndex keys k)) :
    q < k := by
  induction keys with
  | nil => simp at h
  | cons p ks ih =>
    rw [searchIndex_cons] at h
    split_ifs at h with hle
    · cases h
    · rw [take_succ_cons] at h
      rcases mem_cons.mp h with rfl | h
      · exact not_le.mp hle
      · exact ih h

theorem le_of_mem_take_childIndex (hs : keys.Pairwise (· < ·))
    (h : q ∈ keys.take (childIndex keys k)) : q ≤ k := by
  induction keys with
  | nil => simp at h
  | cons p ks ih =>
    rw [childIndex_cons hs] at h
    split_ifs at h with hlt
    · cases h
    · rw [take_succ_cons] at h
      rcases mem_cons.mp h with rfl | h
      · exact not_lt.mp hlt
      · exact ih (pairwise_cons.mp hs).2 h

theorem le_of_mem_drop_searchIndex (hs : keys.Pairwise (· < ·))
    (h : q ∈ keys.drop (searchIndex keys k)) : k ≤ q := by
  induction keys with
  | nil => simp at h
  | cons p ks ih =>
    obtain ⟨hlater, hs'⟩ := pairwise_cons.mp hs
    rw [searchIndex_cons] at h
    split_ifs at h with hle
    · rcases mem_cons.mp h with rfl | h
      · exact hle
      · exact hle.trans (hlater q h).le
    · exact ih hs' h

theorem lt_of_mem_drop_childIndex (hs : keys.Pairwise (· < ·))
    (h : q ∈ keys.drop (childIndex keys k)) : k < q := by
  induction keys with
  | nil => simp at h
  | cons p ks ih =>
    obtain ⟨hlater, hs'⟩ := pairwise_cons.mp hs
    rw [childIndex_cons hs] at h
    split_ifs at h with hlt
    · rcases mem_cons.mp h with rfl | h
      · exact hlt
      · exact hlt.trans (hlater q h)
    · exact ih hs' h

variable {entries : List (Entry K V)}

omit [LinearOrder K] in
theorem filter_drop {P : K → Bool} {i : Nat} (h : ∀ q ∈ (entries.map Entry.key).take i, P q = false) :
    ((entries.drop i).filter fun e => P e.key) = entries.filter fun e => P e.key := by
  have hfront : ((entries.take i).filter fun e => P e.key) = [] := by
    rw [filter_eq_nil_iff]
    intro e he
    rw [h e.key (map_take ▸ mem_map_of_mem he)]
    exact Bool.false_ne_true
  conv_rhs => rw [← take_append_drop i entries, filter_append, hfront, nil_append]

theorem sortedEntries_drop (h : SortedEntries entries) (i : Nat) :
    SortedEntries (entries.drop i) := by
  unfold SortedEntries at *
  rw [map_drop]
  exact h.sublist (drop_sublist _ _)

theorem takePrefixed_eq {pre : Key} {es : List (Entry Key V)} (hs : SortedEntries es) :
    takePrefixed pre es = es.filter fun e => pre.isPrefixOf e.key := by
  induction es with
  | nil => rfl
  | cons e es ih =>
    obtain ⟨hlater, hs'⟩ := sortedEntries_cons.mp hs
    rw [takePrefixed]
    split_ifs with hpre hlt
    · rw [filter_cons, if_pos hpre, ih hs']
    · rw [filter_cons, if_neg hpre, eq_comm, filter_eq_nil_iff]
      -- the interval of the prefix is over
      intro d hd hprefixed
      rw [List.isPrefixOf_iff_prefix] at hpre hprefixed
      exact not_prefix_of_le hpre hlt (hlater d hd).le hprefixed
    · rw [filter_cons, if_neg hpre, ih hs']

theorem prefixEntries_eq (pre : Key) (es : List (Entry Key V)) (hs : SortedEntries es) :
    prefixEntries pre es = es.filter fun e => pre.isPrefixOf e.key := by
  rw [prefixEntries, takePrefixed_eq (sortedEntries_drop hs _), filter_drop]
  intro q hq
  rw [← Bool.not_eq_true, isPrefixOf_iff_prefix]
  exact not_prefix_of_lt (lt_of_mem_take_searchIndex hq)

theorem not_prefix_of_skipsPrefix {pre : Key} (lower upper : Option Key) (k : Key)
    (h : skipsPrefix pre lower upper = true) (hlower : ∀ l ∈ lower, l ≤ k) (hupper : ∀ r ∈ upper, k < r) :
    pre.isPrefixOf k = false := by
  rw [← Bool.not_eq_true, isPrefixOf_iff_prefix]
  rw [skipsPrefix, Bool.or_eq_true, Option.any_eq_true, Option.any_eq_true] at h
  simp only [Bool.and_eq_true, decide_eq_true_eq, Bool.not_eq_true', ← Bool.not_eq_true,
    isPrefixOf_iff_prefix] at h
  rcases h with ⟨l, hl, hlt, hnot⟩ | ⟨r, hr, hle, _⟩
  · exact not_prefix_of_le hnot hlt (hlower l hl)
  · exact not_prefix_of_lt ((hupper r hr).trans_le hle)

theorem admitsTo_of_le {stop : Bound K} {k k' : K} (hle : k ≤ k') (h : stop.admitsTo k' = true) :
    stop.admitsTo k = true := by
  cases stop with
  | included b => exact decide_eq_true (hle.trans (of_decide_eq_true h))
  | excluded b => exact decide_eq_true (hle.trans_lt (of_decide_eq_true h))
  | unbounded => rfl

theorem takeWhile_admitsTo {stop : Bound K} {es : List (Entry K V)} (hs : SortedEntries es) :
    (es.takeWhile fun e => stop.admitsTo e.key) = es.filter fun e => stop.admitsTo e.key := by
  induction es with
  | nil => rfl
  | cons e es ih =>
    obtain ⟨hlater, hs'⟩ := sortedEntries_cons.mp hs
    by_cases h : stop.admitsTo e.key = true
    · rw [takeWhile_cons, if_pos h, filter_cons, if_pos h, ih hs']
    · rw [takeWhile_cons, if_neg h, filter_cons, if_neg h, eq_comm, filter_eq_nil_iff]
      exact fun d hd hd' => h (admitsTo_of_le (hlater d hd).le hd')

theorem admitsFrom_of_mem_take {start : Bound K} (hs : keys.Pairwise (· < ·)) {q : K}
    (hq : q ∈ keys.take (startIndex keys start)) : start.admitsFrom q = false := by
  cases start with
  | included b => exact decide_eq_false (not_le.mpr (lt_of_mem_take_searchIndex hq))
  | excluded b => exact decide_eq_false (not_lt.mpr (le_of_mem_take_childIndex hs hq))
  | unbounded => simp [startIndex] at hq

theorem admitsFrom_of_mem_drop {start : Bound K} (hs : keys.Pairwise (· < ·)) {q : K}
    (hq : q ∈ keys.drop (startIndex keys start)) : start.admitsFrom q = true := by
  cases start with
  | included b => exact decide_eq_true (le_of_mem_drop_searchIndex hs hq)
  | excluded b => exact decide_eq_true (lt_of_mem_drop_childIndex hs hq)
  | unbounded => rfl

theorem rangeEntries_eq (start stop : Bound K) (es : List (Entry K V)) (hs : SortedEntries es) :
    rangeEntries start stop es = es.filter fun e => start.admitsFrom e.key && stop.admitsTo e.key := by
  have hfrom : es.drop (startIndex (es.map Entry.key) start) =
      es.filter fun e => start.admitsFrom e.key := by
    rw [← filter_drop fun q hq => admitsFrom_of_mem_take hs hq, eq_comm, filter_eq_self]
    exact fun e he => admitsFrom_of_mem_drop hs (map_drop ▸ mem_map_of_mem he)
  rw [rangeEntries, takeWhile_admitsTo (sortedEntries_drop hs _), hfrom, filter_filter]
  simp only [Bool.and_comm]

theorem not_admitted_of_skipsRange {start stop : Bound K} (lower upper : Option K) (k : K)
    (h : skipsRange start stop lower upper = true) (hlower : ∀ l ∈ lower, l ≤ k)
    (hupper : ∀ r ∈ upper, k < r) : (start.admitsFrom k && stop.admitsTo k) = false := by
  rw [skipsRange, Bool.or_eq_true, Option.any_eq_true, Option.any_eq_true] at h
  rw [Bool.and_eq_false_iff]
  rcases h with ⟨l, hl, hstop⟩ | ⟨r, hr, hstart⟩
  · right
    cases stop with
    | included b => exact decide_eq_false (not_le.mpr ((of_decide_eq_true hstop).trans_le (hlower l hl)))
    | excluded b => exact decide_eq_false (not_lt.mpr ((of_decide_eq_true hstop).trans (hlower l hl)))
    | unbounded => cases hstop
  · left
    cases start with
    | included b => exact decide_eq_false (not_le.mpr ((hupper r hr).trans_le (of_decide_eq_true hstart)))
    | excluded b =>
      exact decide_eq_false (not_lt.mpr ((hupper r hr).le.trans (of_decide_eq_true hstart)))
    | unbounded => cases hstart

end Page

namespace MVTree

theorem forEachEntry_eq {σ : Type} (t : MVTree K V) (f : σ → K → V → σ) (s : σ) :
    t.forEachEntry f s = t.scanAll.foldl (fun s e => f s e.key e.value) s :=
  Page.traverseForEach_eq f t.root s

theorem scanPrefix_eq (t : MVTree Key V) (pre : Key) :
    t.scanPrefix pre = t.scanAll.filter fun e => pre.isPrefixOf e.key :=
  Page.collectPruned_eq ⟨Page.prefixEntries_eq pre, Page.not_prefix_of_skipsPrefix⟩ t.root t.ordered

theorem scanRange_eq (t : MVTree K V) (start stop : Bound K) :
    t.scanRange start stop =
      t.scanAll.filter fun e => start.admitsFrom e.key && stop.admitsTo e.key :=
  Page.collectPruned_eq ⟨Page.rangeEntries_eq start stop, Page.not_admitted_of_skipsRange⟩ t.root t.ordered

def LastPut (ops : List (TreeOp K V)) (k : K) (v : V) : Prop :=
  ∃ before after, ops = before ++ .put k v :: after ∧ ∀ op ∈ after, op.key ≠ k

theorem get_perform (t : MVTree K V) (op : TreeOp K V) (k : K) :
    (op.perform t).get k = if k = op.key then (match op with
      | .put _ v => some v
      | .remove _ => none) else t.get k := by
  cases op with
  | put k' v => exact get_put t k' v k
  | remove k' => exact get_remove t k' k

omit [LinearOrder K] in
theorem lastPut_concat {ops : List (TreeOp K V)} {op : TreeOp K V} {k : K} {v : V} :
    LastPut (ops ++ [op]) k v ↔ op = .put k v ∨ op.key ≠ k ∧ LastPut ops k v := by
  constructor
  · rintro ⟨before, after, heq, hafter⟩
    rcases eq_nil_or_concat after with rfl | ⟨after, last, rfl⟩
    · left
      exact singleton_inj.mp (append_inj' heq rfl).2
    · right
      rw [concat_eq_append, ← cons_append, ← append_assoc] at heq
      obtain ⟨hops, hlast⟩ := append_inj' heq rfl
      rw [singleton_inj] at hlast
      subst hlast
      refine ⟨hafter _ (by simp), before, after, hops, fun op' hop => hafter op' ?_⟩
      rw [concat_eq_append]
      exact mem_append_left _ hop
  · rintro (rfl | ⟨hne, before, after, rfl, hafter⟩)
    · exact ⟨ops, [], rfl, fun op hop => absurd hop not_mem_nil⟩
    · refine ⟨before, after ++ [op], by simp, fun op' hop => ?_⟩
      rcases mem_append.mp hop with hop | hop
      · exact hafter op' hop
      · rw [mem_singleton.mp hop]
        exact hne

theorem get_runs (m : Nat) (hm : 1 ≤ m) (ops : List (TreeOp K V)) (k : K) (v : V) :
    (runs TreeOp.perform (new m hm) ops).get k = some v ↔ LastPut ops k v := by
  induction ops using List.reverseRecOn with
  | nil =>
    refine iff_of_false (fun h => ?_) ?_
    · change (empty : MVTree K V).get k = some v at h
      rw [get_empty] at h
      cases h
    · rintro ⟨before, after, heq, -⟩
      simp at heq
  | append_singleton ops op ih =>
    rw [runs_append, lastPut_concat]
    change (op.perform (runs TreeOp.perform (new m hm) ops)).get k = some v ↔ _
    rw [get_perform]
    split_ifs with hk
    · subst hk
      cases op with
      | put k' v' => simp [TreeOp.key]
      | remove k' => simp [TreeOp.key]
    · rw [ih]
      have hne : op.key ≠ k := fun h => hk h.symm
      constructor
      · exact fun h => Or.inr ⟨hne, h⟩
      · rintro (rfl | ⟨-, h⟩)
        · exact absurd rfl hne
        · exact h

/-- An ordered map: after any puts and removals, a key has the value of the last put that no removal of the
key follows, a removal answers with it, and the walks list the keys that have a value in their order. -/
theorem ordered_map (m : Nat) (hm : 1 ≤ m) (ops : List (TreeOp Key (List UInt8))) :
    let t := runs TreeOp.perform (new m hm) ops
    (∀ k v, t.get k = some v ↔ LastPut ops k v) ∧
      (∀ k, (t.remove k).2 = t.get k) ∧
      (t.scanAll.map Entry.key).Pairwise (· < ·) ∧
      (∀ k v, ⟨k, v⟩ ∈ t.scanAll ↔ LastPut ops k v) ∧
      t.forEachEntry (fun visited k v => visited ++ [⟨k, v⟩]) [] = t.scanAll := by
  intro t
  refine ⟨get_runs m hm ops, fun k => remove_snd t k, sorted_scanAll t, fun k v => ?_, ?_⟩
  · rw [mem_scanAll]
    exact get_runs m hm ops k v
  · rw [forEachEntry_eq]
    refine (foldl_append_eq_append (f := fun e : Entry Key (List UInt8) => [e])).trans ?_
    rw [nil_append, ← flatMap_def, flatMap_singleton']

theorem ordered_map_split :
    let ops : List (TreeOp Key (List UInt8)) :=
      [.put [2] [20], .put [1] [10], .put [3] [30], .remove [1], .put [2] [21]]
    let t := runs TreeOp.perform (new 1 (by decide)) ops
    t.get [2] = some [21] ∧ LastPut ops [2] [21] := by
  intro ops t
  have hget : t.get [2] = some [21] := by decide
  exact ⟨hget, ((ordered_map 1 (by decide) ops).1 [2] [21]).mp hget⟩

/-- The walks that leave out children find what a filter of all entries finds, in the same order. -/
theorem pruned_scans (m : Nat) (hm : 1 ≤ m) (ops : List (TreeOp Key (List UInt8))) :
    let t := runs TreeOp.perform (new m hm) ops
    (∀ pre, t.scanPrefix pre = t.scanAll.filter fun e => pre.isPrefixOf e.key) ∧
      ∀ start stop, t.scanRange start stop =
        t.scanAll.filter fun e => start.admitsFrom e.key && stop.admitsTo e.key := by
  intro t
  exact ⟨scanPrefix_eq t, scanRange_eq t⟩

theorem pruned_scans_split :
    let ops : List (TreeOp Key (List UInt8)) :=
      [.put [2] [20], .put [1] [10], .put [1, 5] [15], .put [3] [30], .remove [1]]
    let t := runs TreeOp.perform (new 1 (by decide)) ops
    t.scanPrefix [1] = [⟨[1, 5], [15]⟩] ∧ t.scanRange (.excluded [2]) (.included [1]) = [] := by
  intro ops t
  have hscans := pruned_scans 1 (by decide) ops
  constructor
  · rw [hscans.1]
    decide
  · rw [hscans.2]
    decide

end MVTree

end H2Database.Mvstore
