import H2Database.Sql.RowWrites
import H2Database.Sql.Spawning

/-!
# What holds of every row

A property `R` of the rows of a table holds of every row that is visible, as long as the rows that tasks
make of others have it, and what is put reads as rows that have it.  Tasks carry rows that were read
before; they have it too.
-/

namespace H2Database.Sql

open Reasoning Mvstore List

theorem mem_of_findTarget {seen : Visible} {on : Expr} {source : Row} {rows : List (UInt64 × Row)}
    {p : UInt64 × Row} (h : findTarget seen on source rows = .ok (some p)) : p ∈ rows := by
  induction rows with
  | nil => cases h
  | cons q rows ih =>
    obtain ⟨selected, -, h⟩ := H2Result.bind_eq_ok.mp h
    split_ifs at h
    · cases h
      exact mem_cons_self
    · exact mem_cons_of_mem _ (ih h)

variable [Crates] (R : TableDef → Row → Prop) {cat : Catalog} {view : View} {counters : Counters}

def EveryRow (view : View) : Prop := ∀ t key row, rowAt view t key = some row → R t row

def Task.Carries : Task → Prop
  | .rewrite r => R r.table r.new
  | .updateRows _ t _ _ entries _ => ∀ p ∈ entries, ∀ row, t.readRow p.2 = .ok row → R t row
  | .mergeRow _ t _ targetRows _ => ∀ p ∈ targetRows, R t p.2
  | .setChild s => s.child.mapName = tableMap s.child.name → R s.child s.row
  | _ => True

def Task.Makes (cat : Catalog) (view : View) : Task → Prop
  | .insertRow ins t indexes targets number rawValues => ∀ row rowId old,
    checkInsert cat view.seen ins t indexes targets number rawValues = .ok (row, some (rowId, old)) →
    R t old → match ins.on with
      | some (.doUpdate selection assignments) =>
        selects view.seen selection (old ++ row) = .ok true → ∀ new,
          assign view.seen t ins.tableName (fun _ => old ++ row) old assignments = .ok new → R t new
      | some (.duplicateKeyUpdate assignments) => ∀ new,
          assign view.seen t ins.tableName (fun _ => old) old assignments = .ok new → R t new
      | _ => True
  | .updateRows upd t _ others entries updated => ∀ key bytes rest row new, entries = (key, bytes) :: rest →
    key ∉ updated → t.readRow bytes = .ok row → R t row →
    updatedRow view.seen upd t others row = .ok (some new) → R t new
  | .mergeRow m t _ targetRows source => ∀ rowId old assignments new,
    findTarget view.seen m.on source targetRows = .ok (some (rowId, old)) → R t old →
    matchedAssignments view.seen old source m.clauses = some assignments →
    assign view.seen t m.targetName (fun _ => old ++ source) old assignments = .ok new → R t new
  | _ => True

/-- What a task puts reads as rows with the property, in every table with the map. -/
def Task.Puts (cat : Catalog) (view : View) (counters : Counters) (task : Task) : Prop :=
  ∀ map key bytes, RowStep cat view counters task (.put map key bytes) →
    ∀ t row, t.mapName = map → t.readRow bytes = .ok row → R t row

variable {R}

/-! ## Rows that are read -/

variable {t : TableDef} {row : Row}

theorem EveryRow.of_get (h : EveryRow R view) {key : Key} {bytes : List UInt8}
    (hbytes : (view t.mapName).get key = some bytes) (hrow : t.readRow bytes = .ok row) :
    R t row := by
  apply h t key row
  rw [rowAt, hbytes, Option.bind_some, hrow]
  rfl

theorem EveryRow.of_mem_scan (h : EveryRow R view) {p : Key × List UInt8}
    (hp : p ∈ view.seen.scan t.mapName) (hrow : t.readRow p.2 = .ok row) : R t row :=
  h.of_get (View.mem_scan.mp hp) hrow

theorem EveryRow.of_matchingChildRows (h : EveryRow R view) {child : TableDef} {column : Nat} {val : Value}
    {rows : List (Key × Row)} (hrows : matchingChildRows view.seen child column val = .ok rows)
    (hpublic : child.mapName = tableMap child.name) {p : Key × Row} (hp : p ∈ rows) : R child p.2 := by
  obtain ⟨all, hall, rfl⟩ := H2Result.map_eq_ok.mp hrows
  obtain ⟨e, he, -, hrow⟩ := exists_of_mem_readRows hall (mem_of_mem_filter hp)
  rw [← hpublic] at he
  exact h.of_mem_scan he hrow

variable {rowId : UInt64}

theorem EveryRow.of_conflictingRow (h : EveryRow R view) {vals : List Value}
    {entries : List (Key × List UInt8)}
    (hrow : conflictingRow view.seen t vals entries = .ok (some (rowId, row))) : R t row := by
  induction entries with
  | nil => cases hrow
  | cons p entries ih =>
    unfold conflictingRow at hrow
    split at hrow
    · exact ih hrow
    · split_ifs at hrow
      · split at hrow
        · rename_i bytes hbytes
          obtain ⟨read, hread, heq⟩ := H2Result.map_eq_ok.mp hrow
          cases heq
          exact h.of_get hbytes hread
        · exact ih hrow
      · exact ih hrow

variable {indexes : List IndexDef}

theorem EveryRow.of_findConflict (h : EveryRow R view) {new : Row}
    (hrow : findConflict view.seen t new indexes = .ok (some (rowId, row))) : R t row := by
  induction indexes with
  | nil => cases hrow
  | cons idx indexes ih =>
    unfold findConflict at hrow
    split at hrow
    · exact ih hrow
    · split_ifs at hrow
      · split at hrow
        · exact ih hrow
        · exact h.of_conflictingRow hrow
      · exact ih hrow

theorem EveryRow.of_checkInsert (h : EveryRow R view) {ins : Insert}
    {targets : List Nat} {number : Nat} {rawValues : List Value} {row old : Row}
    (hcheck : checkInsert cat view.seen ins t indexes targets number rawValues =
      .ok (row, some (rowId, old))) : R t old := by
  unfold checkInsert at hcheck
  split_ifs at hcheck
  · cases hcheck
  · obtain ⟨built, -, hcheck⟩ := H2Result.bind_eq_ok.mp hcheck
    obtain ⟨u, -, hcheck⟩ := H2Result.bind_eq_ok.mp hcheck
    obtain ⟨found, hfound, hcheck⟩ := H2Result.bind_eq_ok.mp hcheck
    cases hcheck
    exact h.of_findConflict hfound

/-! ## Tasks carry rows with the property -/

theorem carries_handleForeignKeysOnDelete (parent : String) (row : Row) :
    ∀ task ∈ handleForeignKeysOnDelete cat parent row, task.Carries R := by
  intro task htask
  obtain ⟨_, _, -, -, rfl⟩ := exists_of_mem_onDelete htask
  trivial

theorem carries_handleForeignKeysOnUpdate (parent : String) (old new : Row) :
    ∀ task ∈ handleForeignKeysOnUpdate cat parent old new, task.Carries R := by
  intro task htask
  obtain ⟨_, _, -, -, rfl⟩ := exists_of_mem_onUpdate htask
  trivial

variable {task : Task}

theorem Task.carries_run (h : EveryRow R view) (hcarries : task.Carries R)
    (hmakes : task.Makes R cat view) {more : List Task}
    (hmore : (task.run cat view counters).result = .ok more) : ∀ task ∈ more, task.Carries R := by
  cases Task.spawns hmore with
  | nothing => exact fun task htask => absurd htask not_mem_nil
  | @doUpdate _ _ _ _ _ _ row old new rowId _ _ hcheck hon hselected hnew =>
    have hmade := hmakes row rowId old hcheck (h.of_checkInsert hcheck)
    rw [hon] at hmade
    exact forall_mem_cons.mpr ⟨trivial, forall_mem_singleton.mpr (hmade hselected new hnew)⟩
  | @duplicateKey _ _ _ _ _ _ row old new rowId _ hcheck hon hnew =>
    have hmade := hmakes row rowId old hcheck (h.of_checkInsert hcheck)
    rw [hon] at hmade
    exact forall_mem_cons.mpr ⟨trivial, forall_mem_singleton.mpr (hmade new hnew)⟩
  | deleteRow | mergeDelete =>
    exact forall_mem_append.mpr ⟨carries_handleForeignKeysOnDelete _ _,
      forall_mem_singleton.mpr trivial⟩
  | passed =>
    exact forall_mem_singleton.mpr fun p hp => hcarries p (mem_cons_of_mem _ hp)
  | @updateRow _ _ _ _ key bytes rest _ row new hkey hrow hnew =>
    refine forall_mem_append.mpr ⟨carries_handleForeignKeysOnUpdate _ _ _, ?_⟩
    refine forall_mem_cons.mpr ⟨?_, forall_mem_singleton.mpr ?_⟩
    · exact hmakes key bytes rest row new rfl hkey hrow (hcarries _ mem_cons_self row hrow) hnew
    · exact fun p hp => hcarries p (mem_cons_of_mem _ hp)
  | @mergeUpdate _ _ _ _ _ old new rowId assignments hfind hassignments hnew =>
    refine forall_mem_append.mpr ⟨carries_handleForeignKeysOnUpdate _ _ _, ?_⟩
    refine forall_mem_singleton.mpr ?_
    exact hmakes rowId old assignments new hfind (hcarries _ (mem_of_findTarget hfind)) hassignments hnew
  | onDelete => exact carries_handleForeignKeysOnDelete _ _
  | onUpdate => exact carries_handleForeignKeysOnUpdate _ _ _
  | dropChildren hchildren =>
    intro task htask
    obtain ⟨p, -, hin⟩ := mem_flatMap.mp htask
    rcases mem_pair.mp hin with rfl | rfl <;> trivial
  | clearChildren hchildren | setChildren hchildren =>
    intro task htask
    obtain ⟨p, hp, rfl⟩ := mem_map.mp htask
    exact fun hpublic => h.of_matchingChildRows hchildren hpublic hp

theorem carries_of_starts (h : EveryRow R view) (hstarts : Starts view.seen task) :
    task.Carries R := by
  cases hstarts with
  | updateRows hfound => exact fun p hp row hrow => h.of_mem_scan (hfound p hp).mem_scan hrow
  | mergeRow hrows =>
    intro target htarget
    obtain ⟨read, hread, rfl⟩ := mem_map.mp htarget
    obtain ⟨e, he, -, hrow⟩ := exists_of_mem_readRows hrows hread
    exact h.of_mem_scan he hrow
  | insertRow | insertEnd | deleteRow | deleteEnd | updateEnd | copyLine => trivial

/-! ## A task keeps the property -/

theorem EveryRow.of_sameRows {view' : View} (h : EveryRow R view) (hsame : SameRows view view') :
    EveryRow R view' := by
  intro t key row hrow
  rw [hsame.rowAt] at hrow
  exact h t key row hrow

theorem EveryRow.of_writesRow {view' : View} {w : Write} (h : EveryRow R view)
    (hw : WritesRow view view' w)
    (hput : ∀ map key bytes, w = .put map key bytes → ∀ t row, t.mapName = map →
      t.readRow bytes = .ok row → R t row) : EveryRow R view' := by
  intro t key row hrow
  by_cases hsame : t.mapName = w.mapName ∧ key = w.key
  · obtain ⟨hmap, rfl⟩ := hsame
    rw [hw.rowAt_self hmap] at hrow
    obtain ⟨bytes, hbytes, hread⟩ := Option.bind_eq_some_iff.mp hrow
    cases w with
    | put map key' bytes' =>
      cases hbytes
      refine hput map key' bytes rfl t row hmap ?_
      cases hres : t.readRow bytes with
      | error e =>
        rw [hres] at hread
        cases hread
      | ok r =>
        rw [hres] at hread
        cases hread
        rfl
    | remove map key' => cases hbytes
  · rw [hw.rowAt_of_ne hsame] at hrow
    exact h t key row hrow

theorem Task.everyRow_run (h : EveryRow R view) (hputs : task.Puts R cat view counters) :
    EveryRow R (task.run cat view counters).view := by
  rcases task.rows_cases cat view counters with
    ⟨w, hstep, hw, -⟩ | ⟨-, hsame⟩
  · refine h.of_writesRow hw fun map key bytes heq => ?_
    subst heq
    exact hputs map key bytes hstep
  · exact h.of_sameRows hsame

end H2Database.Sql
