import H2Database.Mvstore.Tree
import H2Database.Sql.Catalog

/-!
# What a statement reads and writes

`Visible` is what a transaction sees of the maps, as `get` and `scan_visible` give it; a `Write` is one
`put` or `remove`.  Statements that run alone work on a `View`, whose maps are the visible entries.
The reads and writes that keep indexes and their unique constraints are here: the probe of `INSERT`,
the probe of an update, and the entries of a row.
-/

namespace H2Database.Sql

open Reasoning Mvstore List Function

structure Visible where
  get : String → Key → Option (List UInt8)
  scan : String → List (Key × List UInt8)

/-- `scan_prefix_visible`. -/
def Visible.scanPrefix (seen : Visible) (map : String) (front : Key) : List (Key × List UInt8) :=
  (seen.scan map).filter fun p => front.isPrefixOf p.1

/-- `std::ops::Bound`. -/
inductive Bound where
  | included (key : Key)
  | excluded (key : Key)
  | unbounded

def Bound.admitsFrom : Bound → Key → Bool
  | .included b, k => decide (b ≤ k)
  | .excluded b, k => decide (b < k)
  | .unbounded, _ => true

def Bound.admitsTo : Bound → Key → Bool
  | .included b, k => decide (k ≤ b)
  | .excluded b, k => decide (k < b)
  | .unbounded, _ => true

/-- `scan_range_visible`. -/
def Visible.scanRange (seen : Visible) (map : String) (lower upper : Bound) :
    List (Key × List UInt8) :=
  (seen.scan map).filter fun p => lower.admitsFrom p.1 && upper.admitsTo p.1

inductive Write where
  | put (map : String) (key : Key) (value : List UInt8)
  | remove (map : String) (key : Key)

abbrev View := String → MVTree Key (List UInt8)

namespace View

def empty : View := fun _ => .empty

def seen (view : View) : Visible where
  get map key := (view map).get key
  scan map := (view map).scanAll.map fun e => (e.key, e.value)

@[simp]
theorem get_seen (view : View) (map : String) (key : Key) : view.seen.get map key = (view map).get key := rfl

def write (view : View) : Write → View
  | .put map key value => Function.update view map ((view map).put key value)
  | .remove map key => Function.update view map ((view map).remove key).1

def writeAll (view : View) (writes : List Write) : View := writes.foldl write view

end View

def rowKey (rowId : UInt64) : Key := leBytes 8 rowId.toNat

def keyRowId (key : Key) : UInt64 := if key.length = 8 then UInt64.ofNat (fromLe key) else 0

section

variable [Crates]

def hasNull (vals : List Value) : Bool := vals.any Value.isNull

def indexPuts (t : TableDef) (indexes : List IndexDef) (spelled : String) (row : Row)
    (rowId : UInt64) : List Write :=
  indexes.filterMap fun idx => (t.getIndexValues idx row).map fun vals =>
    .put (indexMapName spelled idx) (encodeCompositeIndexKey vals rowId) []

def indexRemoves (t : TableDef) (indexes : List IndexDef) (spelled : String) (row : Row)
    (rowId : UInt64) : List Write :=
  indexes.filterMap fun idx => (t.getIndexValues idx row).map fun vals =>
    .remove (indexMapName spelled idx) (encodeCompositeIndexKey vals rowId)

/-- The entry of a row is taken out under its old values and put in under its new ones. -/
def moveEntry (map : String) (oldVals newVals : List Value) (rowId : UInt64) : List Write :=
  [.remove map (encodeCompositeIndexKey oldVals rowId), .put map (encodeCompositeIndexKey newVals rowId) []]

/-! ## Probes -/

def conflictingRow (seen : Visible) (t : TableDef) (vals : List Value) :
    List (Key × List UInt8) → H2Result (Option (UInt64 × Row))
  | [] => .ok none
  | (k, _) :: matched =>
    match decodeCompositeIndexKey k with
    | none => conflictingRow seen t vals matched
    | some (v, rowId) =>
      if Value.eqAll v vals then
        match seen.get t.mapName (rowKey rowId) with
        | some bytes => (t.readRow bytes).map fun row => some (rowId, row)
        | none => conflictingRow seen t vals matched
      else conflictingRow seen t vals matched

/-- The check of `INSERT`: the row that has the new row's values in the first unique index where one
has them. -/
def findConflict (seen : Visible) (t : TableDef) (row : Row) :
    List IndexDef → H2Result (Option (UInt64 × Row))
  | [] => .ok none
  | idx :: indexes =>
    match t.getIndexValues idx row with
    | none => findConflict seen t row indexes
    | some vals =>
      if idx.isUnique && !hasNull vals then
        match conflictingRow seen t vals
            (seen.scanPrefix (indexMapName t.name idx) (encodeIndexPrefix vals)) with
        | .ok none => findConflict seen t row indexes
        | found => found
      else findConflict seen t row indexes

def isDuplicate (seen : Visible) (map : String) (vals : List Value) (rowId : UInt64) : Bool :=
  (seen.scanPrefix map (encodeIndexPrefix vals)).any fun p =>
    match decodeCompositeIndexKey p.1 with
    | some (v, id) => Value.eqAll v vals && id != rowId
    | none => false

/-- The check of an update: a unique index refuses the new values of a row if they differ from the old
ones and another row has them. -/
def refuses (seen : Visible) (map : String) (idx : IndexDef) (oldVals newVals : List Value)
    (rowId : UInt64) : Bool :=
  idx.isUnique && !hasNull newVals && !Value.eqAll oldVals newVals && isDuplicate seen map newVals rowId

end

namespace View

@[simp] theorem get_put (view : View) (m m' : String) (k k' : Key) (v : List UInt8) :
    ((view.write (.put m k v)) m').get k' = if m' = m ∧ k' = k then some v else (view m').get k' := by
  change (Function.update view m ((view m).put k v) m').get k' = _
  by_cases hm : m' = m
  · subst hm
    rw [update_self, MVTree.get_put]
    by_cases hk : k' = k
    · rw [if_pos hk, if_pos ⟨rfl, hk⟩]
    · rw [if_neg hk, if_neg fun h => hk h.2]
  · rw [update_of_ne hm, if_neg fun h => hm h.1]

@[simp] theorem get_remove (view : View) (m m' : String) (k k' : Key) :
    ((view.write (.remove m k)) m').get k' = if m' = m ∧ k' = k then none else (view m').get k' := by
  change (Function.update view m ((view m).remove k).1 m').get k' = _
  by_cases hm : m' = m
  · subst hm
    rw [update_self, MVTree.get_remove]
    by_cases hk : k' = k
    · rw [if_pos hk, if_pos ⟨rfl, hk⟩]
    · rw [if_neg hk, if_neg fun h => hk h.2]
  · rw [update_of_ne hm, if_neg fun h => hm h.1]

end View

def Write.at (m : String) (k : Key) : Write → Option (Option (List UInt8))
  | .put map key value => if m = map ∧ k = key then some (some value) else none
  | .remove map key => if m = map ∧ k = key then some none else none

def lastWrite (m : String) (k : Key) : List Write → Option (Option (List UInt8))
  | [] => none
  | w :: ws => (lastWrite m k ws).or (w.at m k)

def Write.mapName : Write → String
  | .put map _ _ => map
  | .remove map _ => map

def Write.key : Write → Key
  | .put _ key _ => key
  | .remove _ key => key

def Write.value : Write → Option (List UInt8)
  | .put _ _ value => some value
  | .remove _ _ => none

theorem Write.at_eq (w : Write) (n : String) (k : Key) :
    w.at n k = if n = w.mapName ∧ k = w.key then some w.value else none := by
  cases w <;> rfl

theorem lastWrite_append (m : String) (k : Key) (ws ws' : List Write) :
    lastWrite m k (ws ++ ws') = (lastWrite m k ws').or (lastWrite m k ws) := by
  induction ws with
  | nil => rw [nil_append, lastWrite, Option.or_none]
  | cons w ws ih => rw [cons_append, lastWrite, ih, lastWrite, Option.or_assoc]

@[simp] theorem lastWrite_singleton (m : String) (k : Key) (w : Write) : lastWrite m k [w] = w.at m k := rfl

theorem Write.at_eq_none {m : String} {w : Write} (h : w.mapName ≠ m) (k : Key) : w.at m k = none := by
  cases w <;> exact if_neg fun hm => h hm.1.symm

theorem lastWrite_eq_none {m : String} {ws : List Write} (h : ∀ w ∈ ws, w.mapName ≠ m) (k : Key) :
    lastWrite m k ws = none := by
  induction ws with
  | nil => rfl
  | cons w ws ih =>
    rw [lastWrite, ih fun w' hw' => h w' (mem_cons_of_mem _ hw'), Option.none_or,
      Write.at_eq_none (h w mem_cons_self)]

theorem lastWrite_flatMap {α : Type} (mapOf : α → String) {parts : List α} {g : α → List Write}
    (hmaps : ∀ a ∈ parts, ∀ w ∈ g a, w.mapName = mapOf a) {a : α} (ha : a ∈ parts)
    (halone : ∀ b ∈ parts, mapOf b = mapOf a → b = a) (k : Key) :
    lastWrite (mapOf a) k (parts.flatMap g) = lastWrite (mapOf a) k (g a) := by
  induction parts with
  | nil => cases ha
  | cons b parts ih =>
    have hmaps' : ∀ c ∈ parts, ∀ w ∈ g c, w.mapName = mapOf c :=
      fun c hc => hmaps c (mem_cons_of_mem _ hc)
    have halone' : ∀ c ∈ parts, mapOf c = mapOf a → c = a :=
      fun c hc => halone c (mem_cons_of_mem _ hc)
    -- the rest has the writes of `a` once more, or none on its map
    have hrest : lastWrite (mapOf a) k (parts.flatMap g) = lastWrite (mapOf a) k (g a) ∨
        a ∉ parts ∧ lastWrite (mapOf a) k (parts.flatMap g) = none := by
      by_cases hin : a ∈ parts
      · exact .inl (ih hmaps' hin halone')
      · refine .inr ⟨hin, lastWrite_eq_none (fun w hw => ?_) k⟩
        obtain ⟨c, hc, hwc⟩ := mem_flatMap.mp hw
        rw [hmaps' c hc w hwc]
        exact fun heq => hin (halone' c hc heq ▸ hc)
    rw [flatMap_cons, lastWrite_append]
    by_cases hb : mapOf b = mapOf a
    · rw [halone b mem_cons_self hb]
      rcases hrest with heq | ⟨-, hnone⟩
      · rw [heq, Option.or_self]
      · rw [hnone, Option.none_or]
    · have hnone : lastWrite (mapOf a) k (g b) = none :=
        lastWrite_eq_none (fun w hw => (hmaps b mem_cons_self w hw).trans_ne hb) k
      rcases mem_cons.mp ha with rfl | hin
      · exact absurd rfl hb
      · rw [hnone, Option.or_none]
        exact ih hmaps' hin halone'

namespace View

theorem get_write (view : View) (w : Write) (m : String) (k : Key) :
    ((view.write w) m).get k = (w.at m k).getD ((view m).get k) := by
  cases w with
  | put map key value =>
    rw [get_put, Write.at]
    split_ifs <;> rfl
  | remove map key =>
    rw [get_remove, Write.at]
    split_ifs <;> rfl

theorem get_writeAll (view : View) (ws : List Write) (m : String) (k : Key) :
    ((view.writeAll ws) m).get k = (lastWrite m k ws).getD ((view m).get k) := by
  induction ws generalizing view with
  | nil => rfl
  | cons w ws ih =>
    change (((view.write w).writeAll ws) m).get k = _
    rw [ih, get_write, lastWrite]
    cases lastWrite m k ws <;> rfl

theorem mem_scan {view : View} {m : String} {k : Key} {v : List UInt8} :
    (k, v) ∈ view.seen.scan m ↔ (view m).get k = some v := by
  rw [← MVTree.mem_scanAll]
  simp only [seen, mem_map, Prod.mk.injEq]
  constructor
  · rintro ⟨e, he, rfl, rfl⟩
    exact he
  · intro h
    exact ⟨⟨k, v⟩, h, rfl, rfl⟩

end View

end H2Database.Sql
