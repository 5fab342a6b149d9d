import H2Database.Sql.Spawning
import H2Database.Sql.Upkeep

/-!
# Runs that keep the indexes

Which steps of a session are `Careful`, and that in a run of careful steps every index mirrors its table
in every state.
-/

namespace H2Database.Sql

open Reasoning Mvstore List

section

variable {cat : Catalog} {view : View} {counters : Counters}

theorem length_of_mem_scan (hkeys : RowKeys view) {t : TableDef} {p : Key × List UInt8}
    (h : p ∈ view.seen.scan t.mapName) : p.1.length = 8 := by
  obtain ⟨name, hname⟩ := mapName_eq t
  rw [hname] at h
  exact hkeys name p.1 (by rw [View.mem_scan.mp h]; rfl)

variable [Crates]

/-! ## Keys of the rows that tasks are about -/

/-- The rows a task is about have keys of eight bytes, and the column of a child row is in it. -/
def Task.Keyed : Task → Prop
  | .rewrite r => r.key.length = 8 ∧ r.rowId = keyRowId r.key
  | .deleteRow _ _ _ _ key _ => key.length = 8
  | .dropRow _ _ _ key _ => key.length = 8
  | .updateRows _ _ _ _ entries _ => ∀ p ∈ entries, p.1.length = 8
  | .dropChild _ _ key _ => key.length = 8
  | .setChild s => s.key.length = 8 ∧ s.column < s.row.length
  | _ => True

omit [Crates] in
theorem keyed_handleForeignKeysOnDelete (cat : Catalog) (parent : String) (row : Row) :
    ∀ task ∈ handleForeignKeysOnDelete cat parent row, task.Keyed := by
  intro task htask
  obtain ⟨_, _, -, -, rfl⟩ := exists_of_mem_onDelete htask
  trivial

omit [Crates] in
theorem keyed_handleForeignKeysOnUpdate (cat : Catalog) (parent : String) (old new : Row) :
    ∀ task ∈ handleForeignKeysOnUpdate cat parent old new, task.Keyed := by
  intro task htask
  obtain ⟨_, _, -, -, rfl⟩ := exists_of_mem_onUpdate htask
  trivial

omit [Crates] in
theorem keyed_rowKey (t : TableDef) (indexes : List IndexDef) (spelled : String) (rowId : UInt64)
    (old new : Row) (probes onlyMoved : Bool) :
    (Task.rewrite ⟨t, indexes, spelled, rowKey rowId, rowId, old, new, probes, onlyMoved⟩).Keyed :=
  ⟨rowKey_length rowId, (keyRowId_rowKey rowId).symm⟩

theorem keyed_of_mem_matchingChildRows (hkeys : RowKeys view) {child : TableDef} {column : Nat}
    {val : Value} {rows : List (Key × Row)}
    (h : matchingChildRows view.seen child column val = .ok rows) {p : Key × Row} (hp : p ∈ rows) :
    p.1.length = 8 ∧ column < p.2.length := by
  obtain ⟨all, hall, rfl⟩ := H2Result.map_eq_ok.mp h
  obtain ⟨hin, hval⟩ := mem_filter.mp hp
  obtain ⟨e, he, heq, -⟩ := exists_of_mem_readRows hall hin
  refine ⟨heq ▸ hkeys child.name e.1 (by rw [View.mem_scan.mp he]; rfl), ?_⟩
  by_contra hlt
  rw [List.getElem?_eq_none (Nat.le_of_not_lt hlt)] at hval
  cases hval

variable {task : Task}

theorem keyed_of_starts (hkeys : RowKeys view) (h : Starts view.seen task) : task.Keyed := by
  cases h with
  | deleteRow hfound => exact length_of_mem_scan hkeys hfound.mem_scan
  | updateRows hfound => exact fun p hp => length_of_mem_scan hkeys (hfound p hp).mem_scan
  | insertRow | insertEnd | deleteEnd | updateEnd | mergeRow | copyLine => trivial

theorem Task.keyed_run (hkeys : RowKeys view) (hkeyed : task.Keyed) {more : List Task}
    (h : (task.run cat view counters).result = .ok more) : ∀ task ∈ more, task.Keyed := by
  cases Task.spawns h with
  | nothing => exact fun task htask => absurd htask not_mem_nil
  | doUpdate | duplicateKey =>
    exact forall_mem_cons.mpr ⟨trivial, forall_mem_singleton.mpr (keyed_rowKey ..)⟩
  | deleteRow =>
    exact forall_mem_append.mpr ⟨keyed_handleForeignKeysOnDelete _ _ _,
      forall_mem_singleton.mpr hkeyed⟩
  | passed =>
    exact forall_mem_singleton.mpr fun p hp => hkeyed p (mem_cons_of_mem _ hp)
  | @updateRow _ _ _ _ key bytes =>
    refine forall_mem_append.mpr ⟨keyed_handleForeignKeysOnUpdate _ _ _ _, ?_⟩
    refine forall_mem_cons.mpr ⟨⟨hkeyed (key, bytes) mem_cons_self, rfl⟩, ?_⟩
    exact forall_mem_singleton.mpr fun p hp => hkeyed p (mem_cons_of_mem _ hp)
  | mergeUpdate =>
    exact forall_mem_append.mpr ⟨keyed_handleForeignKeysOnUpdate _ _ _ _,
      forall_mem_singleton.mpr (keyed_rowKey ..)⟩
  | mergeDelete =>
    exact forall_mem_append.mpr ⟨keyed_handleForeignKeysOnDelete _ _ _,
      forall_mem_singleton.mpr (rowKey_length _)⟩
  | onDelete => exact keyed_handleForeignKeysOnDelete _ _ _
  | onUpdate => exact keyed_handleForeignKeysOnUpdate _ _ _ _
  | dropChildren hchildren =>
    intro task htask
    obtain ⟨p, hp, hin⟩ := mem_flatMap.mp htask
    rcases mem_pair.mp hin with rfl | rfl
    · trivial
    · exact (keyed_of_mem_matchingChildRows hkeys hchildren hp).1
  | clearChildren hchildren | setChildren hchildren =>
    intro task htask
    obtain ⟨p, hp, rfl⟩ := mem_map.mp htask
    exact keyed_of_mem_matchingChildRows hkeys hchildren hp

/-! ## Careful steps -/

def RefusesAtOnce (view : View) (r : Rewrite) : Prop :=
  ∀ before idx after, r.indexes = before ++ idx :: after →
    refused (view.writeAll (before.flatMap (movedEntry r))) r idx = true →
    before.flatMap (movedEntry r) = []

/-- What a task has to meet.  In an explicit transaction a refused row leaves what was moved before. -/
def Task.Careful (cat : Catalog) (view : View) (counters : Counters) (explicit : Bool) : Task → Prop
  | .insertRow ins t indexes targets number rawValues => ∀ row rowId counters',
    checkInsert cat view.seen ins t indexes targets number rawValues = .ok (row, none) →
    cat.allocateRowId counters ins.tableName = .ok (rowId, counters') →
    Placeable cat view t indexes t.name row rowId
  | .rewrite r => validateForeignKeysForRow cat view.seen r.table r.new = .ok () →
    ((moveEntries view r r.indexes).2 = .ok () → Rewritable cat view r) ∧
    (explicit = true → RefusesAtOnce view r)
  | .dropRow t indexes spelled key row => Droppable cat view t indexes spelled key row
  | .mergeRow m t indexes targetRows source => ∀ row rowId counters',
    findTarget view.seen m.on source targetRows = .ok none →
    mergeNotMatched view.seen m t source m.clauses = .ok (some row) →
    validateForeignKeysForRow cat view.seen t row = .ok () →
    cat.allocateRowId counters m.targetName = .ok (rowId, counters') →
    Placeable cat view t indexes t.name row rowId
  | .copyLine c t targets number fields => ∀ row rowId counters',
    buildLine c t targets number fields = .ok row →
    cat.allocateRowId counters c.tableName = .ok (rowId, counters') →
    Placeable cat view t (cat.getTableIndexes c.tableName) c.tableName row rowId
  | .dropChild child indexes key row => ChildDroppable cat view child indexes key row
  | .setChild s => Settable cat view s
  | _ => True

theorem mirrored_rewrite {r : Rewrite} {explicit : Bool} (hm : Mirrored cat view)
    (hkeyed : (Task.rewrite r).Keyed) (hc : (Task.rewrite r).Careful cat view counters explicit)
    (hend : explicit = false → (rewrite cat view r).2 = .ok ()) :
    Mirrored cat (rewrite cat view r).1 := by
  unfold rewrite at hend ⊢
  cases hfk : validateForeignKeysForRow cat view.seen r.table r.new with
  | error e => exact hm
  | ok u =>
    obtain ⟨hrewritable, hwhole⟩ := hc hfk
    rw [hfk] at hend
    dsimp only at hend ⊢
    rcases moveEntries_cases r r.indexes view with hok | ⟨before, idx, after, e, hsplit, hrefused, herr⟩
    · rw [hok]
      exact ((hrewritable (by rw [hok])).changed hkeyed.1 hkeyed.2 hm).mirrored hkeyed.1 hm
    · rw [herr] at hend ⊢
      cases explicit with
      | false => cases hend rfl
      | true =>
        dsimp only
        rw [hwhole rfl before idx after hsplit hrefused]
        exact hm

theorem Task.mirrored_run {explicit : Bool} (hm : Mirrored cat view)
    (hkeyed : task.Keyed) (hc : task.Careful cat view counters explicit)
    (hend : explicit = false → ∃ more, (task.run cat view counters).result = .ok more) :
    Mirrored cat (task.run cat view counters).view := by
  cases task with
  | insertRow ins t indexes targets number rawValues =>
    change Mirrored cat (Sql.insertRow cat view counters ins t indexes targets number rawValues).view
    unfold Sql.insertRow
    split
    · exact hm
    · exact hm
    · rename_i row hcheck
      split
      · exact hm
      · rename_i rowId counters' hid
        exact ((hc row rowId counters' hcheck hid).changed hm (.inl rfl)).mirrored
          (rowKey_length rowId) hm
  | insertEnd ins =>
    change Mirrored cat (Sql.insertEnd cat view counters ins).view
    unfold Sql.insertEnd
    split <;> exact hm
  | rewrite r =>
    refine mirrored_rewrite hm hkeyed hc fun hauto => ?_
    obtain ⟨more, hmore⟩ := hend hauto
    obtain ⟨u, hu, -⟩ := H2Result.map_eq_ok.mp hmore
    exact hu
  | deleteRow del t indexes others key bytes => exact hm
  | dropRow t indexes spelled key row => exact (Droppable.changed hc hkeyed hm).mirrored hkeyed hm
  | deleteEnd del =>
    change Mirrored cat (Sql.deleteEnd cat view counters del).view
    unfold Sql.deleteEnd
    split <;> exact hm
  | updateRows upd t indexes others entries updated => exact hm
  | updateEnd upd => exact hm
  | mergeRow m t indexes targetRows source =>
    change Mirrored cat (Sql.mergeRow cat view counters m t indexes targetRows source).view
    unfold Sql.mergeRow
    split
    · exact hm
    · exact hm
    · rename_i hfind
      split
      · exact hm
      · exact hm
      · rename_i row hrow
        split
        · exact hm
        · rename_i rowId counters' hid
          split
          · exact hm
          · rename_i hfk
            exact ((hc row rowId counters' hfind hrow hfk hid).changed hm (.inl rfl)).mirrored
              (rowKey_length rowId) hm
  | copyLine c t targets number fields =>
    change Mirrored cat (Sql.copyLine cat view counters c t targets number fields).view
    unfold Sql.copyLine
    split
    · exact hm
    · rename_i row hrow
      split
      · exact hm
      · rename_i rowId counters' hid
        exact ((hc row rowId counters' hrow hid).changed hm (.inr rfl)).mirrored
          (rowKey_length rowId) hm
  | onDelete parent row => exact hm
  | deleteChildren parent parentDef row child fk => exact hm
  | dropChild child indexes key row => exact (ChildDroppable.changed hc hkeyed hm).mirrored hkeyed hm
  | onUpdate parent old new => exact hm
  | updateChildren parent parentDef old new child fk => exact hm
  | setChild s => exact (Settable.changed hc hkeyed.1 hkeyed.2 hm).mirrored hkeyed.1 hm

theorem mirrored_empty (cat : Catalog) : Mirrored cat .empty := by
  refine ⟨fun t idx _ k => ⟨fun h => ?_, ?_⟩, fun name k h => ?_⟩
  · cases h
  · rintro ⟨key, hkey⟩
    obtain ⟨row, hrow, -⟩ := entryAt_eq_some hkey
    cases hrow
  · cases h

namespace Session

structure Mirrored (cat : Catalog) (s : Session) : Prop where
  view : Sql.Mirrored cat s.view
  saved : Sql.Mirrored cat s.saved
  tasks : ∀ task ∈ s.tasks, task.Keyed

theorem mirrored_new (cat : Catalog) (counters : Counters) : (new counters).Mirrored cat :=
  ⟨mirrored_empty cat, mirrored_empty cat, fun _ htask => absurd htask not_mem_nil⟩

def Careful (cat : Catalog) (s : Session) : Action → Prop
  | .advance => ∀ task ∈ s.tasks.head?, task.Careful cat s.view s.counters s.explicit
  | _ => True

theorem Mirrored.step {s : Session} (h : s.Mirrored cat) {a : Action} (hc : s.Careful cat a) :
    (s.step cat a).Mirrored cat := by
  have hholds : s.Holds (Sql.Mirrored cat) Task.Keyed := ⟨h.view, h.saved, h.tasks⟩
  have hafter : (s.step cat a).Holds (Sql.Mirrored cat) Task.Keyed := by
    apply hholds.step
    · intro st more _ hok
      exact fun task htask => keyed_of_starts h.view.rowKeys (Statement.starts hok task htask)
    · rintro task rest rfl htasks hend
      have hcareful : task.Careful cat s.view s.counters s.explicit := hc task (by rw [htasks]; rfl)
      exact Task.mirrored_run h.view (h.tasks task (htasks ▸ mem_cons_self)) hcareful hend
    · intro task rest more _ htasks hok
      exact Task.keyed_run h.view.rowKeys (h.tasks task (htasks ▸ mem_cons_self)) hok
  exact ⟨hafter.view, hafter.saved, hafter.tasks⟩

end Session

/-- In a run of careful steps every index mirrors its table in every state. -/
theorem indexes_mirror {s : Session} (hs : s.Mirrored cat) {as : List Action}
    (hcareful : Meets (Session.step cat) (Session.Careful cat) s as) :
    AllMirror cat (runs (Session.step cat) s as).view := by
  have hrun : (runs (Session.step cat) s as).Mirrored cat :=
    invariant_runs (fun _ _ h hc => h.step hc) hs hcareful
  exact hrun.view.mirror

end

section

@[reducible] def plainCrates : Crates where
  decimalEq _ _ := false
  decimalFromI64 _ := none
  decimalFromF32 _ := none
  decimalFromF64 _ := none
  parseDecimal _ := none
  decimalToF64 _ := none
  decimalToI64 _ := none
  f32ToF64 _ := 0
  i64ToF64 _ := 0
  f64ToF32 _ := 0
  f32ToI64 _ := 0
  f64ToI64 _ := 0
  parseF64 _ := none
  jsonEq _ _ := false
  parseJson _ := .error ""
  jsonFromSlice _ := none
  parseTimestamp _ := none
  parseDate _ := none
  parseTime _ := none
  parseUuid _ := none
  parseInterval _ := none
  midnight _ := none
  dateNaive _ := ⟨0, by decide⟩
  timeOf _ := ⟨0, 0⟩
  validTime _ := true
  validTimestamp _ := true
  display _ := ""
  debug _ := ""
  debugAll _ := ""

attribute [local instance] plainCrates

def integerColumn (name : String) : ColumnDef := ⟨name, .integer, none, none⟩

def insertInto (table : String) (vals : List Value) : Insert :=
  ⟨table, [], [vals], fun _ _ => .ok 0, none, none⟩

def deleteFrom (table : String) : Delete := ⟨table, none, none, ⟨none, fun _ => none⟩, none⟩

def pairTable : TableDef := ⟨"t", "public", [integerColumn "a", integerColumn "b"], []⟩

def pairIndex : IndexDef := ⟨"i", "t", ["a", "b"], false⟩

def pairs : Catalog := ⟨[("t", pairTable), ("public.t", pairTable)], [pairIndex]⟩

theorem maintains_pairs : Maintains pairs pairTable [pairIndex] "t" := by
  have hone : ∀ t, pairs.Defines t → t = pairTable := by
    rintro t ⟨name, hname⟩
    obtain ⟨key, hkey⟩ := Catalog.mem_tables_of_getTable hname
    simp only [pairs, mem_pair, Prod.mk.injEq] at hkey
    rcases hkey with ⟨-, rfl⟩ | ⟨-, rfl⟩ <;> rfl
  constructor
  · rintro idx hidx
    obtain rfl := mem_singleton.mp hidx
    exact ⟨hidx, rfl⟩
  · intro idx _
    rfl
  · exact fun t' ht' _ => hone t' ht'
  · rintro idx hidx t' idx' hhas -
    obtain rfl := mem_singleton.mp hidx
    exact ⟨hone t' ⟨_, hhas.2⟩, mem_singleton.mp hhas.1⟩

theorem readsBack_pair : ReadsBack pairs pairTable [.integer 1, .integer 2] :=
  ⟨[.integer 1, .integer 2], rfl, fun _ _ => rfl⟩

/-- A row comes and goes again with its entry. -/
theorem indexes_mirror_pairs : AllMirror pairs (runs (Session.step pairs) (Session.new fun _ => 1)
    [.execute (.insert (insertInto "t" [.integer 1, .integer 2])), .advance, .advance,
      .execute (.delete (deleteFrom "t")), .advance, .advance, .advance]).view := by
  have hfree : ∀ {s : Session} {task : Task}, s.tasks.head? = some task →
      task.Careful pairs s.view s.counters s.explicit → s.Careful pairs .advance := by
    intro s task hhead hcareful task' htask'
    rw [hhead] at htask'
    cases htask'
    exact hcareful
  have hall : ∀ idx, pairs.Has pairTable idx → idx ∈ [pairIndex] := fun idx h => h.1
  refine indexes_mirror (Session.mirrored_new _ _)
    ⟨trivial, hfree rfl ?_, hfree rfl trivial, trivial, hfree rfl trivial, hfree rfl ?_, hfree rfl trivial,
      trivial⟩
  · intro row rowId counters' hcheck hid
    cases hcheck
    cases hid
    exact ⟨maintains_pairs, hall, rfl, readsBack_pair⟩
  · refine ⟨maintains_pairs, hall, fun now hnow idx _ => ?_⟩
    cases hnow
    rfl

def parentTable : TableDef := ⟨"p", "public", [integerColumn "id"], []⟩

def childTable : TableDef :=
  ⟨"c", "public", [integerColumn "a", integerColumn "b"], [⟨"a", "p", "id", .cascade, .noAction⟩]⟩

def childIndex : IndexDef := ⟨"i", "c", ["a", "b"], false⟩

def family : Catalog where
  tables := [("p", parentTable), ("public.p", parentTable), ("c", childTable), ("public.c", childTable)]
  indexes := [childIndex]

def cascadeRun : Session := runs (Session.step family) (Session.new fun _ => 1)
  [.execute (.insert (insertInto "p" [.integer 1])), .advance, .advance,
    .execute (.insert (insertInto "c" [.integer 1, .integer 2])), .advance, .advance,
    .execute (.delete (deleteFrom "p")), .advance, .advance, .advance, .advance, .advance, .advance,
    .advance]

/-- `CASCADE` takes the child row away and looks for its entry under the first column alone. -/
theorem cascadeRun_leaves_entry : cascadeRun.idle = true ∧ cascadeRun.result = .ok () ∧
    ¬AllMirror family cascadeRun.view := by
  refine ⟨by decide +kernel, by decide +kernel, fun hmirror => ?_⟩
  have hentry : ((cascadeRun.view (indexMapName childTable.name childIndex)).get
      (encodeCompositeIndexKey [.integer 1, .integer 2] 1)).isSome := by decide +kernel
  have hrows : cascadeRun.view.seen.scan childTable.mapName = [] := by decide +kernel
  have hhas : family.Has childTable childIndex := ⟨mem_singleton_self _, rfl⟩
  obtain ⟨key, hkey⟩ := (hmirror childTable childIndex hhas _).mp hentry
  obtain ⟨row, hrow, -⟩ := entryAt_eq_some hkey
  obtain ⟨bytes, hbytes, -⟩ := Option.bind_eq_some_iff.mp hrow
  have hscan := View.mem_scan.mpr hbytes
  rw [hrows] at hscan
  cases hscan

end

end H2Database.Sql
