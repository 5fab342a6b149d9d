import H2Database.Sql.EveryRow
import H2Database.Sql.InstantDdl

/-!
# NOT NULL (`h2-sql/src/catalog.rs`, `h2-sql/src/executor/statement.rs`)

The catalog keeps whether a column may be NULL, and `INFORMATION_SCHEMA` shows it; no statement that writes
a row asks for it.  In which runs no required column is NULL all the same.
-/

namespace H2Database.Sql

open Reasoning Mvstore List Option

/-! ## Required columns -/

/-- What else a `ColumnDef` has: `is_nullable`, and whether the primary key has the column. -/
structure ColumnFlags where
  isNullable : Bool
  isPrimaryKey : Bool

def ColumnFlags.required (f : ColumnFlags) : Bool := !f.isNullable || f.isPrimaryKey

structure FlaggedTable where
  table : TableDef
  flags : List ColumnFlags
  length_eq : flags.length = table.columns.length

structure Schema where
  tables : List (String × FlaggedTable)
  indexes : List IndexDef

def FlaggedTable.addColumn (ft : FlaggedTable) (name : String) (dataType : DataType) (isNullable : Bool) :
    FlaggedTable where
  table := ft.table.addColumn name dataType
  flags := ft.flags ++ [⟨isNullable, false⟩]
  length_eq := by
    rw [TableDef.addColumn, length_append, length_append, ft.length_eq]
    rfl

namespace Schema

def cat (sch : Schema) : Catalog := ⟨sch.tables.map fun p => (p.1, p.2.table), sch.indexes⟩

def Requires (sch : Schema) (t : TableDef) (p : Nat) : Prop :=
  ∃ entry ∈ sch.tables, entry.2.table = t ∧ ∃ f, entry.2.flags[p]? = some f ∧ f.required = true

def getTable (sch : Schema) (name : String) : Option FlaggedTable :=
  (sch.cat.tableKey name).bind fun key => sch.tables.lookup key

/-- The definition goes under its full name, and a public one under its name too. -/
def updateTable (sch : Schema) (ft : FlaggedTable) : Schema :=
  let keys := if ft.table.schema = "public" then [ft.table.fullName, ft.table.name]
    else [ft.table.fullName]
  if (sch.tables.lookup ft.table.name).isSome || (sch.tables.lookup ft.table.fullName).isSome then
    { sch with tables := keys.map (fun key => (key, ft)) ++ sch.tables.filter fun p => p.1 ∉ keys }
  else sch

/-- `ALTER TABLE ADD COLUMN`. -/
def addColumn (sch : Schema) (tableName name : String) (dataType : DataType) (isNullable : Bool) : Schema :=
  match sch.getTable tableName with
  | none => sch
  | some ft =>
    if (ft.table.columnIndex name).isSome then sch
    else sch.updateTable (ft.addColumn name dataType isNullable)

end Schema

def Filled (req : TableDef → Nat → Prop) (t : TableDef) (row : Row) : Prop :=
  ∀ p, req t p → (row[p]?.getD .null).isNull = false

section

variable [Crates] {req : TableDef → Nat → Prop} {cat : Catalog} {view : View} {counters : Counters}

/-! ## Values that are given -/

variable {row new : Row} {p : Nat} {t : TableDef} {seen : Visible}

omit [Crates] in
theorem lt_of_filled (h : (row[p]?.getD .null).isNull = false) : p < row.length := by
  by_contra hlt
  rw [getElem?_eq_none (Nat.le_of_not_lt hlt)] at h
  cases h

omit [Crates] in
theorem isNull_set {i : Nat} {val : Value} (hval : val.isNull = false)
    (hp : (row[p]?.getD .null).isNull = false) : ((row.set i val)[p]?.getD .null).isNull = false := by
  have hlt := lt_of_filled hp
  by_cases hi : i = p
  · subst hi
    rw [getElem?_set_self hlt]
    exact hval
  · rwa [getElem?_set_ne hi]

theorem filled_fillColumns {vals : List (Nat × Value)} (h : fillColumns t vals row = .ok new)
    (hlt : p < row.length)
    (hp : (row[p]?.getD .null).isNull = false ∨ ∃ v, (p, v) ∈ vals ∧ v.isNull = false) :
    (new[p]?.getD .null).isNull = false := by
  induction vals generalizing row with
  | nil =>
    cases h
    rcases hp with hrow | ⟨v, hin, -⟩
    · exact hrow
    · cases hin
  | cons q rest ih =>
    obtain ⟨i, v⟩ := q
    unfold fillColumns at h
    split_ifs at h with hnull
    · refine ih h hlt (hp.imp_right fun hgiven => ?_)
      obtain ⟨w, hin, hw⟩ := hgiven
      rcases mem_cons.mp hin with heq | hlater
      · cases heq
        rw [hw] at hnull
        cases hnull
      · exact ⟨w, hlater, hw⟩
    · obtain ⟨casted, hcast, h⟩ := H2Result.bind_eq_ok.mp h
      have hcasted : casted.isNull = false := by
        rw [isNull_of_castTo hcast]
        exact Bool.eq_false_of_not_eq_true hnull
      refine ih h (by rwa [length_set]) ?_
      rcases hp with hrow | ⟨w, hin, hw⟩
      · exact .inl (isNull_set hcasted hrow)
      · rcases mem_cons.mp hin with heq | hlater
        · cases heq
          left
          rw [getElem?_set_self hlt]
          exact hcasted
        · exact .inr ⟨w, hlater, hw⟩

variable {nextval : Nat → H2Result Int64}

theorem filled_fillSequences {columns : List ColumnDef} {i : Nat}
    (h : fillSequences nextval i columns row = .ok new) (hlt : p < row.length)
    (hp : (row[p]?.getD .null).isNull = false ∨
      ∃ k c, columns[k]? = some c ∧ p = i + k ∧ c.sequenceName.isSome = true) :
    (new[p]?.getD .null).isNull = false := by
  induction columns generalizing i row with
  | nil =>
    cases h
    rcases hp with hrow | ⟨k, c, hk, -⟩
    · exact hrow
    · cases hk
  | cons d columns ih =>
    -- what the rest of the columns gives, unless it is this one that gives the value
    have hlater : ∀ {row' : Row}, ((row'[p]?.getD .null).isNull = false ∨ p ≠ i) →
        ((row[p]?.getD .null).isNull = false → (row'[p]?.getD .null).isNull = false) →
        (row'[p]?.getD .null).isNull = false ∨
          ∃ k c, columns[k]? = some c ∧ p = i + 1 + k ∧ c.sequenceName.isSome = true := by
      intro row' hhere hkeep
      rcases hp with hrow | ⟨k, c, hk, hpk, hc⟩
      · exact .inl (hkeep hrow)
      · cases k with
        | zero => exact .inl (hhere.resolve_right fun hne => hne hpk)
        | succ k => exact .inr ⟨k, c, hk, by omega, hc⟩
    unfold fillSequences at h
    split_ifs at h with htakes
    · obtain ⟨n, -, h⟩ := H2Result.bind_eq_ok.mp h
      obtain ⟨casted, hcast, h⟩ := H2Result.bind_eq_ok.mp h
      have hcasted : casted.isNull = false := isNull_of_castTo hcast
      refine ih h (by rwa [length_set]) (hlater ?_ (isNull_set hcasted))
      by_cases hpi : p = i
      · subst hpi
        left
        rw [getElem?_set_self hlt]
        exact hcasted
      · exact .inr hpi
    · refine ih h hlt ?_
      rcases hp with hrow | ⟨k, c, hk, hpk, hc⟩
      · exact .inl hrow
      · cases k with
        | zero =>
          -- a column with a sequence that takes no value has one already
          cases hk
          subst hpk
          rw [hc, Bool.true_and] at htakes
          exact .inl (Bool.eq_false_of_not_eq_true htakes)
        | succ k => exact .inr ⟨k, c, hk, by omega, hc⟩

/-- Each required column is listed with a value that is not NULL, or `generated` gives it one. -/
def Supplied (req : TableDef → Nat → Prop) (t : TableDef) (vals : List (Nat × Value))
    (generated : ColumnDef → Bool) : Prop :=
  ∀ p, req t p → ∃ c, t.columns[p]? = some c ∧
    ((∃ v, (p, v) ∈ vals ∧ v.isNull = false) ∨ generated c = true)

variable {targets : List Nat}

theorem filled_buildRow {values : List Value} (h : buildRow t targets values nextval = .ok row)
    (hsupplied : Supplied req t (targets.zip values) fun c => c.sequenceName.isSome) :
    Filled req t row := by
  intro p hp
  obtain ⟨filled, hfilled, hrow⟩ := H2Result.bind_eq_ok.mp h
  obtain ⟨c, hc, hgiven⟩ := hsupplied p hp
  have hlt : p < t.columns.length := (List.getElem?_eq_some_iff.mp hc).1
  refine filled_fillSequences hrow (by rwa [length_fillColumns hfilled, length_replicate]) ?_
  rcases hgiven with hlisted | hsequence
  · exact .inl (filled_fillColumns hfilled (by rwa [length_replicate]) (.inr hlisted))
  · exact .inr ⟨p, c, hc, (Nat.zero_add p).symm, hsequence⟩

variable {fields : List (Nat × String)}

theorem filled_fillFields (h : fillFields t fields row = .ok new)
    (hlt : p < row.length) (hp : (row[p]?.getD .null).isNull = false ∨ ∃ field, (p, field) ∈ fields) :
    (new[p]?.getD .null).isNull = false := by
  induction fields generalizing row with
  | nil =>
    cases h
    rcases hp with hrow | ⟨field, hin⟩
    · exact hrow
    · cases hin
  | cons q rest ih =>
    obtain ⟨i, field⟩ := q
    obtain ⟨casted, hcast, h⟩ := H2Result.bind_eq_ok.mp h
    have hcasted : casted.isNull = false := isNull_of_castTo hcast
    refine ih h (by rwa [length_set]) ?_
    rcases hp with hrow | ⟨field', hin⟩
    · exact .inl (isNull_set hcasted hrow)
    · rcases mem_cons.mp hin with heq | hlater
      · cases heq
        left
        rw [getElem?_set_self hlt]
        exact hcasted
      · exact .inr ⟨field', hlater⟩

theorem length_fillFields (h : fillFields t fields row = .ok new) :
    new.length = row.length := by
  induction fields generalizing row with
  | nil =>
    cases h
    rfl
  | cons q rest ih =>
    obtain ⟨casted, -, h⟩ := H2Result.bind_eq_ok.mp h
    rw [ih h, length_set]

def FieldsSupplied (req : TableDef → Nat → Prop) (t : TableDef) (fields : List (Nat × String)) : Prop :=
  ∀ p, req t p → ∃ c, t.columns[p]? = some c ∧
    ((∃ field, (p, field) ∈ fields) ∨ c.sequenceName.isSome = true)

theorem filled_buildLine {c : CopyFrom} {number : Nat} {fields : List String}
    (h : buildLine c t targets number fields = .ok row)
    (hsupplied : FieldsSupplied req t (targets.zip fields)) : Filled req t row := by
  intro p hp
  unfold buildLine at h
  split_ifs at h
  · cases h
  · obtain ⟨filled, hfilled, hrow⟩ := H2Result.bind_eq_ok.mp h
    obtain ⟨d, hd, hgiven⟩ := hsupplied p hp
    have hlt : p < t.columns.length := (List.getElem?_eq_some_iff.mp hd).1
    refine filled_fillSequences hrow (by rwa [length_fillFields hfilled, length_replicate]) ?_
    rcases hgiven with hlisted | hsequence
    · exact .inl (filled_fillFields hfilled (by rwa [length_replicate]) (.inr hlisted))
    · exact .inr ⟨p, d, hd, (Nat.zero_add p).symm, hsequence⟩

/-! ## Values that are assigned -/

def lastAssigned (seen : Visible) (t : TableDef) (source : Row → Row) (p : Nat) (row : Row) :
    List Assignment → Option Value
  | [] => none
  | a :: rest =>
    match t.columnIndex a.column with
    | none => none
    | some i =>
      match a.value seen (source row) with
      | .error _ => none
      | .ok v =>
        match v.castTo ((t.columns[i]?.map ColumnDef.dataType).getD .blob) with
        | .error _ => none
        | .ok casted =>
          (lastAssigned seen t source p (row.set i casted) rest).or (if i = p then some v else none)

def AssignsValues (req : TableDef → Nat → Prop) (seen : Visible) (t : TableDef) (source : Row → Row)
    (row : Row) (assignments : List Assignment) : Prop :=
  ∀ p, req t p → ∀ v, lastAssigned seen t source p row assignments = some v → v.isNull = false

variable {assignments : List Assignment}

theorem filled_assign {name : String} {source : Row → Row}
    (h : assign seen t name source row assignments = .ok new) (hlt : p < row.length)
    (hp : match lastAssigned seen t source p row assignments with
      | some v => v.isNull = false
      | none => (row[p]?.getD .null).isNull = false) : (new[p]?.getD .null).isNull = false := by
  induction assignments generalizing row with
  | nil =>
    cases h
    exact hp
  | cons a rest ih =>
    unfold assign at h
    unfold lastAssigned at hp
    split at h
    · cases h
    · rename_i i hi
      obtain ⟨v, hv, h⟩ := H2Result.bind_eq_ok.mp h
      obtain ⟨casted, hcast, h⟩ := H2Result.bind_eq_ok.mp h
      simp only [hi, hv, hcast] at hp
      refine ih h (by rwa [length_set]) ?_
      cases hlast : lastAssigned seen t source p (row.set i casted) rest with
      | some w =>
        rw [hlast] at hp
        exact hp
      | none =>
        rw [hlast, none_or] at hp
        by_cases hip : i = p
        · rw [if_pos hip] at hp
          subst hip
          dsimp only
          rw [getElem?_set_self hlt, getD_some, isNull_of_castTo hcast]
          exact hp
        · rw [if_neg hip] at hp
          dsimp only
          rwa [getElem?_set_ne hip]

theorem AssignsValues.filled {name : String} {source : Row → Row}
    (h : AssignsValues req seen t source row assignments) (hrow : Filled req t row)
    (hnew : assign seen t name source row assignments = .ok new) : Filled req t new := by
  intro p hp
  refine filled_assign hnew (lt_of_filled (hrow p hp)) ?_
  cases hlast : lastAssigned seen t source p row assignments with
  | some v => exact h p hp v hlast
  | none => exact hrow p hp

/-- What the assignments of an `UPDATE` are evaluated on, if the clause selects the row. -/
def updateSource (seen : Visible) (upd : Update) (others : Option (List Row)) (row : Row) :
    Option (Row → Row) :=
  match others with
  | none => match selects seen upd.selection row with
    | .ok true => some id
    | _ => none
  | some rows => match selectsWith seen upd.selection row rows with
    | .ok (some combined) => some fun _ => combined
    | _ => none

theorem updatedRow_eq_some {upd : Update} {others : Option (List Row)}
    (h : updatedRow seen upd t others row = .ok (some new)) :
    ∃ source, updateSource seen upd others row = some source ∧
      assign seen t upd.tableName source row upd.assignments = .ok new := by
  unfold updatedRow at h
  unfold updateSource
  cases others with
  | none =>
    obtain ⟨selected, hselected, h⟩ := H2Result.bind_eq_ok.mp h
    split_ifs at h with htrue
    · subst htrue
      obtain ⟨new', hnew, h⟩ := H2Result.bind_eq_ok.mp h
      cases h
      simp only [hselected]
      exact ⟨id, rfl, hnew⟩
    · cases h
  | some rows =>
    obtain ⟨found, hfound, h⟩ := H2Result.bind_eq_ok.mp h
    simp only [hfound]
    cases found with
    | none => cases h
    | some combined =>
      obtain ⟨new', hnew, h⟩ := H2Result.bind_eq_ok.mp h
      cases h
      exact ⟨_, rfl, hnew⟩

/-- What the first clause about an unmatched row that applies inserts. -/
def mergeValues (seen : Visible) (m : Merge) (t : TableDef) (source : Row) :
    List MergeClause → Option (List (Nat × Expr))
  | [] => none
  | c :: clauses =>
    if c.kind = .notMatched then
      match selects seen c.condition source, c.action with
      | .error _, _ => none
      | .ok true, .insert columns values =>
        match targetIndices t m.targetName columns with
        | .error _ => none
        | .ok targets => some (targets.zip values)
      | .ok _, _ => mergeValues seen m t source clauses
    else mergeValues seen m t source clauses

variable {source : Row}

theorem mergeNotMatched_eq_some {m : Merge} {clauses : List MergeClause}
    (h : mergeNotMatched seen m t source clauses = .ok (some row)) :
    ∃ vals, mergeValues seen m t source clauses = some vals ∧
      fillExprs seen t source vals (List.replicate t.columns.length .null) = .ok row := by
  induction clauses with
  | nil => cases h
  | cons c clauses ih =>
    unfold mergeNotMatched at h
    unfold mergeValues
    split_ifs at h ⊢
    · obtain ⟨selected, hselected, h⟩ := H2Result.bind_eq_ok.mp h
      simp only [hselected]
      split_ifs at h with htrue
      · subst htrue
        cases haction : c.action with
        | insert columns values =>
          rw [haction] at h
          obtain ⟨targets, htargets, h⟩ := H2Result.bind_eq_ok.mp h
          obtain ⟨filled, hfilled, h⟩ := H2Result.bind_eq_ok.mp h
          cases h
          simp only [htargets]
          exact ⟨_, rfl, hfilled⟩
        | update assignments =>
          rw [haction] at h
          exact ih h
        | delete =>
          rw [haction] at h
          exact ih h
      · rw [Bool.eq_false_of_not_eq_true htrue]
        exact ih h
    · exact ih h

/-- The value that the last of the expressions for a column gives it. -/
def lastInserted (seen : Visible) (source : Row) (p : Nat) : List (Nat × Expr) → Option Value
  | [] => none
  | (i, e) :: rest => (lastInserted seen source p rest).or (if i = p then (e seen source).toOption else none)

def Inserted (req : TableDef → Nat → Prop) (seen : Visible) (t : TableDef) (source : Row)
    (vals : List (Nat × Expr)) : Prop :=
  ∀ p, req t p → p < t.columns.length ∧ ∃ v, lastInserted seen source p vals = some v ∧ v.isNull = false

variable {vals : List (Nat × Expr)}

theorem filled_fillExprs (h : fillExprs seen t source vals row = .ok new) (hlt : p < row.length)
    (hp : match lastInserted seen source p vals with
      | some v => v.isNull = false
      | none => (row[p]?.getD .null).isNull = false) : (new[p]?.getD .null).isNull = false := by
  induction vals generalizing row with
  | nil =>
    cases h
    exact hp
  | cons q rest ih =>
    obtain ⟨i, e⟩ := q
    obtain ⟨v, hv, h⟩ := H2Result.bind_eq_ok.mp h
    obtain ⟨casted, hcast, h⟩ := H2Result.bind_eq_ok.mp h
    refine ih h (by rwa [length_set]) ?_
    unfold lastInserted at hp
    cases hlast : lastInserted seen source p rest with
    | some w =>
      rw [hlast] at hp
      exact hp
    | none =>
      rw [hlast, none_or, hv] at hp
      by_cases hip : i = p
      · subst hip
        rw [if_pos rfl] at hp
        dsimp only
        rw [getElem?_set_self hlt, getD_some, isNull_of_castTo hcast]
        exact hp
      · rw [if_neg hip] at hp
        dsimp only
        rwa [getElem?_set_ne hip]

theorem Inserted.filled (h : Inserted req seen t source vals)
    (hfill : fillExprs seen t source vals (List.replicate t.columns.length .null) = .ok row) :
    Filled req t row := by
  intro p hp
  obtain ⟨hlt, v, hlast, hv⟩ := h p hp
  refine filled_fillExprs hfill (by rwa [length_replicate]) ?_
  rw [hlast]
  exact hv

/-! ## Steps that put no NULL in a required column -/

/-- What a task is given has a value for each required column, and assigns none of them NULL. -/
def Task.Supplies (req : TableDef → Nat → Prop) (cat : Catalog) (view : View) : Task → Prop
  | .insertRow ins t indexes targets number rawValues =>
    (∀ row, checkInsert cat view.seen ins t indexes targets number rawValues = .ok (row, none) →
      Supplied req t (targets.zip rawValues) fun c => c.sequenceName.isSome) ∧
    ∀ row rowId old,
      checkInsert cat view.seen ins t indexes targets number rawValues = .ok (row, some (rowId, old)) →
      match ins.on with
      | some (.doUpdate selection assignments) => selects view.seen selection (old ++ row) = .ok true →
          AssignsValues req view.seen t (fun _ => old ++ row) old assignments
      | some (.duplicateKeyUpdate assignments) =>
          AssignsValues req view.seen t (fun _ => old) old assignments
      | _ => True
  | .updateRows upd t _ others entries updated => ∀ key bytes rest row source,
    entries = (key, bytes) :: rest → key ∉ updated → t.readRow bytes = .ok row →
    updateSource view.seen upd others row = some source →
    AssignsValues req view.seen t source row upd.assignments
  | .mergeRow m t _ targetRows source =>
    (∀ rowId old assignments, findTarget view.seen m.on source targetRows = .ok (some (rowId, old)) →
      matchedAssignments view.seen old source m.clauses = some assignments →
      AssignsValues req view.seen t (fun _ => old ++ source) old assignments) ∧
    ∀ vals, findTarget view.seen m.on source targetRows = .ok none →
      mergeValues view.seen m t source m.clauses = some vals → Inserted req view.seen t source vals
  | .copyLine _ t targets _ fields => FieldsSupplied req t (targets.zip fields)
  | .setChild s => s.child.mapName = tableMap s.child.name ∧
    (req s.child s.column → s.newVal.isNull = false)
  | _ => True

/-- The row can be stored, and its required columns are found again where they are looked for, in every
table with the map. -/
def Shows (req : TableDef → Nat → Prop) (map : String) (t : TableDef) (row : Row) : Prop :=
  row.Storable ∧ ∀ t', t'.mapName = map → Filled req t row → Filled req t' (t'.alignRow row)

def Task.Shown (req : TableDef → Nat → Prop) (cat : Catalog) (view : View) : Task → Prop
  | .insertRow ins t indexes targets number rawValues => ∀ row,
    checkInsert cat view.seen ins t indexes targets number rawValues = .ok (row, none) →
    Shows req t.mapName t row
  | .mergeRow m t _ targetRows source => ∀ row, findTarget view.seen m.on source targetRows = .ok none →
    mergeNotMatched view.seen m t source m.clauses = .ok (some row) → Shows req t.mapName t row
  | .copyLine c t targets number fields => ∀ row, buildLine c t targets number fields = .ok row →
    Shows req t.mapName t row
  | .rewrite r => validateForeignKeysForRow cat view.seen r.table r.new = .ok () →
    (moveEntries view r r.indexes).2 = .ok () → Shows req r.table.mapName r.table r.new
  | .setChild s => Shows req (tableMap s.child.name) s.child (s.row.set s.column s.newVal)
  | _ => True

theorem Shows.reads {map : String} (h : Shows req map t row) (hfilled : Filled req t row) {t' : TableDef}
    (hmap : t'.mapName = map) {read : Row} (hread : t'.readRow row.toBytes = .ok read) :
    Filled req t' read := by
  rw [TableDef.readRow, Row.fromBytes_toBytes h.1] at hread
  cases hread
  exact h.2 t' hmap hfilled

theorem Task.makes_of_supplies {task : Task} (h : task.Supplies req cat view) :
    task.Makes (Filled req) cat view := by
  cases task with
  | insertRow ins t indexes targets number rawValues =>
    intro row rowId old hcheck hold
    have hassigns := h.2 row rowId old hcheck
    rcases hon : ins.on with _ | (_ | ⟨selection, assignments⟩ | assignments | _)
    · trivial
    · trivial
    · rw [hon] at hassigns
      exact fun hselected new hnew => (hassigns hselected).filled hold hnew
    · rw [hon] at hassigns
      exact fun new hnew => hassigns.filled hold hnew
    · trivial
  | updateRows upd t indexes others entries updated =>
    intro key bytes rest row new hentries hin hrow hfilled hnew
    obtain ⟨source, hsource, hassign⟩ := updatedRow_eq_some hnew
    exact (h key bytes rest row source hentries hin hrow hsource).filled hfilled hassign
  | mergeRow m t indexes targetRows source =>
    intro rowId old assignments new hfind hold hassignments hnew
    exact (h.1 rowId old assignments hfind hassignments).filled hold hnew
  | _ => trivial

theorem buildRow_of_checkInsert {ins : Insert} {indexes : List IndexDef} {number : Nat}
    {rawValues : List Value} {found : Option (UInt64 × Row)}
    (h : checkInsert cat seen ins t indexes targets number rawValues = .ok (row, found)) :
    buildRow t targets rawValues (ins.nextval number) = .ok row := by
  unfold checkInsert at h
  split_ifs at h
  · cases h
  · obtain ⟨built, hbuilt, h⟩ := H2Result.bind_eq_ok.mp h
    obtain ⟨u, -, h⟩ := H2Result.bind_eq_ok.mp h
    obtain ⟨found', -, h⟩ := H2Result.bind_eq_ok.mp h
    cases h
    exact hbuilt

theorem Task.puts_of_supplies {task : Task} (hcarries : task.Carries (Filled req))
    (h : task.Supplies req cat view) (hshown : task.Shown req cat view) :
    task.Puts (Filled req) cat view counters := by
  intro map key bytes hstep t read hmap hread
  cases hstep with
  | insert hcheck hid =>
    have hfilled := filled_buildRow (buildRow_of_checkInsert hcheck) (h.1 _ hcheck)
    exact (hshown _ hcheck).reads hfilled hmap hread
  | merge hfind hrow hid hvalid =>
    obtain ⟨vals, hvals, hfill⟩ := mergeNotMatched_eq_some hrow
    have hfilled := (h.2 vals hfind hvals).filled hfill
    exact (hshown _ hfind hrow).reads hfilled hmap hread
  | copy hrow hid =>
    exact (hshown _ hrow).reads (filled_buildLine hrow h) hmap hread
  | rewrite hvalid hmoved =>
    exact (hshown hvalid hmoved).reads hcarries hmap hread
  | @setChild s =>
    have hrow : Filled req s.child s.row := hcarries h.1
    refine Shows.reads hshown (fun p hp => ?_) hmap hread
    by_cases hcolumn : s.column = p
    · subst hcolumn
      rw [getElem?_set_self (lt_of_filled (hrow _ hp))]
      exact h.2 hp
    · rw [getElem?_set_ne hcolumn]
      exact hrow p hp

structure SchemaSession where
  schema : Schema
  session : Session

inductive SchemaAction where
  | session (a : Action)
  | addColumn (tableName name : String) (dataType : DataType) (isNullable : Bool)

namespace SchemaSession

def step (s : SchemaSession) : SchemaAction → SchemaSession
  | .session a => { s with session := s.session.step s.schema.cat a }
  | .addColumn tableName name dataType isNullable =>
    if s.session.idle then { s with schema := s.schema.addColumn tableName name dataType isNullable }
    else s

def NotNull (s : SchemaSession) : Prop := EveryRow (Filled s.schema.Requires) s.session.view

/-- A statement gives values to required columns, and a required column is added to a table without rows,
also without rows that a rollback would bring back. -/
def Enforces (s : SchemaSession) : SchemaAction → Prop
  | .session .advance => ∀ task rest, s.session.tasks = task :: rest →
    task.Supplies s.schema.Requires s.schema.cat s.session.view ∧
      task.Shown s.schema.Requires s.schema.cat s.session.view
  | .session _ => True
  | .addColumn tableName name _ isNullable => ∀ ft, s.schema.getTable tableName = some ft →
    ft.table.columnIndex name = none → ft.table.Placed ∧ (isNullable = false → ∀ key,
      rowAt s.session.view ft.table key = none ∧ rowAt s.session.saved ft.table key = none)

/-- What is visible, what a rollback brings back and what tasks carry has no NULL in required columns. -/
def Sound (s : SchemaSession) : Prop :=
  s.session.Holds (EveryRow (Filled s.schema.Requires)) (Task.Carries (Filled s.schema.Requires))

theorem sound_new (sch : Schema) (counters : Counters) : (⟨sch, .new counters⟩ : SchemaSession).Sound := by
  apply Session.holds_new
  intro t key row hrow
  cases hrow

variable {sch : Schema}

omit [Crates] in
theorem mem_tables_of_getTable {name : String} {ft : FlaggedTable}
    (h : sch.getTable name = some ft) : ∃ entry ∈ sch.tables, entry.2 = ft := by
  obtain ⟨key, -, hkey⟩ := bind_eq_some_iff.mp h
  obtain ⟨before, after, heq, -⟩ := lookup_eq_some_iff.mp hkey
  exact ⟨(key, ft), heq ▸ mem_append_right _ mem_cons_self, rfl⟩

omit [Crates] in
theorem mem_updateTable {ft : FlaggedTable} {entry : String × FlaggedTable}
    (h : entry ∈ (sch.updateTable ft).tables) : entry ∈ sch.tables ∨ entry.2 = ft := by
  unfold Schema.updateTable at h
  dsimp only at h
  generalize (if ft.table.schema = "public" then [ft.table.fullName, ft.table.name]
    else [ft.table.fullName]) = keys at h
  split_ifs at h
  · rcases mem_append.mp h with hnew | hold
    · obtain ⟨key, -, rfl⟩ := mem_map.mp hnew
      exact .inr rfl
    · exact .inl (mem_of_mem_filter hold)
  · exact .inl h

variable {dataType : DataType}

variable {tableName name : String}

omit [Crates] in
theorem requires_addColumn {isNullable : Bool}
    (h : (sch.addColumn tableName name dataType isNullable).Requires t p) :
    sch.Requires t p ∨ ∃ ft, sch.getTable tableName = some ft ∧ ft.table.columnIndex name = none ∧
      t = ft.table.addColumn name dataType ∧ (sch.Requires ft.table p ∨ isNullable = false) := by
  unfold Schema.addColumn at h
  split at h
  · exact .inl h
  · rename_i ft hft
    split_ifs at h with hexists
    · exact .inl h
    · obtain ⟨entry, hin, rfl, f, hf, hrequired⟩ := h
      rcases mem_updateTable hin with hold | hnew
      · exact .inl ⟨entry, hold, rfl, f, hf, hrequired⟩
      · refine .inr ⟨ft, hft, not_isSome_iff_eq_none.mp hexists, by rw [hnew]; rfl, ?_⟩
        rw [hnew, FlaggedTable.addColumn, getElem?_append] at hf
        split_ifs at hf with hlt
        · -- a column that was there
          obtain ⟨entry', hin', heq⟩ := mem_tables_of_getTable hft
          exact .inl ⟨entry', hin', congrArg FlaggedTable.table heq, f, heq ▸ hf, hrequired⟩
        · right
          obtain rfl := mem_singleton.mp (mem_of_getElem? hf)
          simpa [ColumnFlags.required] using hrequired

theorem rowAt_addColumn {v : View} (h : t.Placed) {name : String}
    {key : Key} {row : Row} (hrow : rowAt v (t.addColumn name dataType) key = some row) :
    ∃ old, rowAt v t key = some old ∧ (t.columns = [] ∨ ∃ val, row = old ++ [val]) := by
  obtain ⟨bytes, hbytes, hread⟩ := bind_eq_some_iff.mp hrow
  obtain ⟨raw, hraw, rfl⟩ := H2Result.map_eq_ok.mp (eq_ok_of_toOption hread)
  have hold : rowAt v t key = some (t.alignRow raw) := by
    rw [rowAt, show (v t.mapName).get key = some bytes from hbytes, bind_some, TableDef.readRow,
      hraw]
    rfl
  refine ⟨t.alignRow raw, hold, ?_⟩
  by_cases hnil : t.columns = []
  · exact .inl hnil
  · exact .inr ⟨_, TableDef.alignRow_addColumn h (fun hempty => absurd hempty hnil) name dataType⟩

omit [Crates] in
theorem requires_lt (h : sch.Requires t p) :
    p < t.columns.length := by
  obtain ⟨entry, -, rfl, f, hf, -⟩ := h
  rw [← entry.2.length_eq]
  exact (List.getElem?_eq_some_iff.mp hf).1

theorem everyRow_addColumn {v : View} (h : EveryRow (Filled sch.Requires) v) {isNullable : Bool}
    (henforces : ∀ ft, sch.getTable tableName = some ft → ft.table.columnIndex name = none →
      ft.table.Placed ∧ (isNullable = false → ∀ key, rowAt v ft.table key = none)) :
    EveryRow (Filled (sch.addColumn tableName name dataType isNullable).Requires) v := by
  intro t key row hrow p hp
  rcases requires_addColumn hp with hbefore | ⟨ft, hft, hnew, rfl, hrequired⟩
  · exact h t key row hrow p hbefore
  · obtain ⟨hplaced, hempty⟩ := henforces ft hft hnew
    obtain ⟨old, hold, hcolumns⟩ := rowAt_addColumn hplaced hrow
    rcases hrequired with hbefore | hnotnull
    · have hfilled := h ft.table key old hold p hbefore
      have hlt := requires_lt hbefore
      rcases hcolumns with hnil | ⟨val, rfl⟩
      · rw [hnil] at hlt
        exact absurd hlt (Nat.not_lt_zero p)
      · rwa [getElem?_append_left (lt_of_filled hfilled)]
    · rw [hempty hnotnull key] at hold
      cases hold

theorem Sound.step {s : SchemaSession} (h : s.Sound) {a : SchemaAction} (henforces : s.Enforces a) :
    (s.step a).Sound := by
  cases a with
  | session a =>
    have hcarries : ∀ task rest, s.session.tasks = task :: rest →
        task.Carries (Filled s.schema.Requires) :=
      fun task rest htasks => h.tasks task (htasks ▸ mem_cons_self)
    apply Session.Holds.step h
    · intro st more _ hok
      exact fun task htask => carries_of_starts h.view (Statement.starts hok task htask)
    · rintro task rest rfl htasks -
      obtain ⟨hsupplies, hshown⟩ := henforces task rest htasks
      exact Task.everyRow_run h.view (Task.puts_of_supplies (hcarries task rest htasks) hsupplies hshown)
    · rintro task rest more rfl htasks hok
      have hmakes := Task.makes_of_supplies (henforces task rest htasks).1
      exact Task.carries_run h.view (hcarries task rest htasks) hmakes hok
  | addColumn tableName name dataType isNullable =>
    rw [SchemaSession.step]
    split_ifs with hidle
    · refine ⟨everyRow_addColumn h.view fun ft hft hnew => ?_,
        everyRow_addColumn h.saved fun ft hft hnew => ?_, fun task htask => ?_⟩
      · obtain ⟨hplaced, hempty⟩ := henforces ft hft hnew
        exact ⟨hplaced, fun hnotnull key => (hempty hnotnull key).1⟩
      · obtain ⟨hplaced, hempty⟩ := henforces ft hft hnew
        exact ⟨hplaced, fun hnotnull key => (hempty hnotnull key).2⟩
      · rw [isEmpty_iff.mp hidle] at htask
        cases htask
    · exact h

end SchemaSession

/-- In a run whose steps enforce it no required column is NULL in any row that is visible. -/
theorem not_null_enforced (sch : Schema) (counters : Counters) {as : List SchemaAction}
    (henforces : Meets SchemaSession.step SchemaSession.Enforces ⟨sch, .new counters⟩ as) :
    (runs SchemaSession.step ⟨sch, .new counters⟩ as).NotNull := by
  have hsound : (runs SchemaSession.step ⟨sch, .new counters⟩ as).Sound :=
    invariant_runs (fun _ _ h henforces => h.step henforces) (SchemaSession.sound_new sch counters)
      henforces
  exact hsound.view

end

attribute [local instance] plainCrates

/-- A table with one column, which is `NOT NULL`. -/
def requiredTable : FlaggedTable := ⟨.new "t" [integerColumn "a"], [⟨false, false⟩], rfl⟩

def requiredSchema : Schema := ⟨[("t", requiredTable), ("public.t", requiredTable)], []⟩

def insertOne (val : Value) : List SchemaAction :=
  [.session (.execute (.insert (insertInto "t" [val]))), .session .advance, .session .advance]

theorem requires_requiredSchema {t : TableDef} {p : Nat} :
    requiredSchema.Requires t p ↔ t = requiredTable.table ∧ p = 0 := by
  constructor
  · rintro ⟨entry, hin, rfl, f, hf, -⟩
    have hentry : entry.2 = requiredTable := by
      rcases mem_pair.mp hin with rfl | rfl <;> rfl
    rw [hentry] at hf ⊢
    have hlt : p < 1 := (List.getElem?_eq_some_iff.mp hf).1
    exact ⟨rfl, by omega⟩
  · rintro ⟨rfl, rfl⟩
    exact ⟨("t", requiredTable), mem_cons_self, rfl, ⟨false, false⟩, rfl, rfl⟩

/-- A row with a value is inserted. -/
theorem not_null_enforced_insert : (runs SchemaSession.step
    ⟨requiredSchema, .new fun _ => 1⟩ (insertOne (.integer 1))).NotNull := by
  have hbuilt : ∀ {row : Row} {o : Option (UInt64 × Row)} {cat : Catalog} {seen : Visible},
      checkInsert cat seen (insertInto "t" [.integer 1]) requiredTable.table [] [0] 0 [.integer 1] =
        .ok (row, o) → row = [.integer 1] := by
    intro row o cat seen hcheck
    have hrow := buildRow_of_checkInsert hcheck
    cases hrow
    rfl
  apply not_null_enforced
  refine ⟨trivial, ?_, ?_, trivial⟩
  · intro task rest htasks
    cases htasks
    refine ⟨⟨fun row _ p hp => ?_, fun row rowId old _ => trivial⟩, fun row hcheck => ?_⟩
    · obtain ⟨-, rfl⟩ := requires_requiredSchema.mp hp
      exact ⟨_, rfl, Or.inl ⟨.integer 1, mem_cons_self, rfl⟩⟩
    · rw [hbuilt hcheck]
      refine ⟨⟨by decide, trivial, trivial⟩, fun t' _ _ p hp => ?_⟩
      obtain ⟨rfl, rfl⟩ := requires_requiredSchema.mp hp
      rfl
  · intro task rest htasks
    cases htasks
    exact ⟨trivial, trivial⟩

/-- `INSERT` puts NULL into the column. -/
theorem insert_null_into_required : ¬(runs SchemaSession.step
    ⟨requiredSchema, .new fun _ => 1⟩ (insertOne .null)).NotNull := by
  intro hnotnull
  have hnull : ((rowAt (runs SchemaSession.step ⟨requiredSchema, .new fun _ => 1⟩
      (insertOne .null)).session.view requiredTable.table (rowKey 1)).map fun row : Row =>
        (row[0]?.getD Value.null).isNull) = some true := by
    decide +kernel
  obtain ⟨row, hrow, hisnull⟩ := map_eq_some_iff.mp hnull
  have hvalue := hnotnull _ _ row hrow 0 (requires_requiredSchema.mpr ⟨rfl, rfl⟩)
  rw [hisnull] at hvalue
  cases hvalue

end H2Database.Sql
