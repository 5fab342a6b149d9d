import H2Database.Sql.Mirror

/-!
# Statements that keep the indexes

For each step that writes, the condition under which it changes one row with its entries: that it
maintains the table's indexes, and all of them, that the row it has read is the row that is there, that
the key it builds is the entry's key.  In a run whose steps meet it every index mirrors its table.
-/

namespace H2Database.Sql

open Reasoning Mvstore List Option

variable [Crates] {cat : Catalog} {view : View} {t : TableDef} {indexes : List IndexDef}
  {spelled : String}

/-! ## A new row -/

def entryPut (t : TableDef) (spelled : String) (row : Row) (rowId : UInt64) (idx : IndexDef) :
    List Write :=
  ((t.getIndexValues idx row).map fun vals =>
    Write.put (indexMapName spelled idx) (encodeCompositeIndexKey vals rowId) []).toList

def entryRemove (t : TableDef) (spelled : String) (row : Row) (rowId : UInt64) (idx : IndexDef) :
    List Write :=
  ((t.getIndexValues idx row).map fun vals =>
    Write.remove (indexMapName spelled idx) (encodeCompositeIndexKey vals rowId)).toList

/-- The row number is new, all indexes of the table get the entry, and the row is read back. -/
structure Placeable (cat : Catalog) (view : View) (t : TableDef) (indexes : List IndexDef)
    (spelled : String) (row : Row) (rowId : UInt64) : Prop where
  maintains : Maintains cat t indexes spelled
  all : ∀ idx, cat.Has t idx → idx ∈ indexes
  fresh : rowAt view t (rowKey rowId) = none
  readsBack : ReadsBack cat t row

variable {key : Key} {row : Row} {ws : List Write} {idx : IndexDef}

omit [Crates] in
theorem put_at_ne {m : String} {value : List UInt8} {k : Key} (hk : k ≠ key) :
    (Write.put m key value).at m k = none :=
  if_neg fun h => hk h.2

omit [Crates] in
theorem remove_at_ne {m : String} {k : Key} (hk : k ≠ key) :
    (Write.remove m key).at m k = none :=
  if_neg fun h => hk h.2

theorem stepWrites_place {rowId : UInt64}
    (hws : ws = indexPuts t indexes spelled row rowId ++ [.put t.mapName (rowKey rowId) row.toBytes] ∨
      ws = .put t.mapName (rowKey rowId) row.toBytes :: indexPuts t indexes spelled row rowId) :
    StepWrites t indexes spelled (entryPut t spelled row rowId)
      (.put t.mapName (rowKey rowId) row.toBytes) ws where
  entries idx _ e he := by
    obtain ⟨vals, -, rfl⟩ := map_eq_some_iff.mp (mem_toList.mp he)
    rfl
  row := rfl
  order := by
    unfold indexPuts at hws
    rwa [filterMap_eq_flatMap_toList] at hws

variable {g : IndexDef → List Write}

omit [Crates] in
theorem StepWrites.get_put {value : List UInt8}
    (hw : StepWrites t indexes spelled g (.put t.mapName key value) ws) :
    ((view.writeAll ws) t.mapName).get key = some value := by
  obtain ⟨name, hname⟩ := mapName_eq t
  have hget : ((view.writeAll ws) (tableMap name)).get key =
      ((Write.put t.mapName key value).at (tableMap name) key).getD _ := hw.get_table name key
  rw [← hname, Write.at, if_pos ⟨rfl, rfl⟩] at hget
  exact hget

theorem Placeable.changed {rowId : UInt64} (h : Placeable cat view t indexes spelled row rowId)
    (hmirrored : Mirrored cat view)
    (hws : ws = indexPuts t indexes spelled row rowId ++ [.put t.mapName (rowKey rowId) row.toBytes] ∨
      ws = .put t.mapName (rowKey rowId) row.toBytes :: indexPuts t indexes spelled row rowId) :
    Changed cat view (view.writeAll ws) t (rowKey rowId) fun idx => entryOf t idx (rowKey rowId) row := by
  have hw := stepWrites_place hws
  have hnone : ∀ idx, entryAt view t idx (rowKey rowId) = none := fun idx => by
    rw [entryAt, h.fresh, bind_none]
  refine hw.changed h.maintains (rowKey_length rowId) hmirrored (fun k hk => put_at_ne hk)
    (fun idx hhas => h.readsBack.entryAt hw.get_put hhas) (fun idx hidx => Or.inl ⟨none, ?_, ?_⟩)
    (fun idx hhas hnot => absurd (h.all idx hhas) hnot)
  · unfold entryPut entryOf
    rw [keyRowId_rowKey, h.maintains.named idx hidx]
    cases t.getIndexValues idx row with
    | none => exact moves_nil _
    | some vals => exact moves_put _ _
  · intro k _
    rw [hnone idx]

/-! ## A row that goes -/

structure Droppable (cat : Catalog) (view : View) (t : TableDef) (indexes : List IndexDef)
    (spelled : String) (key : Key) (row : Row) : Prop where
  maintains : Maintains cat t indexes spelled
  all : ∀ idx, cat.Has t idx → idx ∈ indexes
  current : Current cat view t key row

theorem StepWrites.entryAt_removed
    (hw : StepWrites t indexes spelled g (.remove t.mapName key) ws) (idx : IndexDef) :
    entryAt (view.writeAll ws) t idx key = none := by
  obtain ⟨name, hname⟩ := mapName_eq t
  have hget : ((view.writeAll ws) (tableMap name)).get key =
      ((Write.remove t.mapName key).at (tableMap name) key).getD _ := hw.get_table name key
  rw [← hname, Write.at, if_pos ⟨rfl, rfl⟩, getD_some] at hget
  rw [entryAt, rowAt, hget]
  rfl

theorem stepWrites_drop (key : Key) (row : Row) :
    StepWrites t indexes spelled (entryRemove t spelled row (keyRowId key)) (.remove t.mapName key)
      (indexRemoves t indexes spelled row (keyRowId key) ++ [.remove t.mapName key]) where
  entries idx _ e he := by
    obtain ⟨vals, -, rfl⟩ := map_eq_some_iff.mp (mem_toList.mp he)
    rfl
  row := rfl
  order := by
    unfold indexRemoves
    rw [filterMap_eq_flatMap_toList]
    exact .inl rfl

theorem Droppable.changed (h : Droppable cat view t indexes spelled key row) (hkey : key.length = 8)
    (hmirrored : Mirrored cat view) :
    Changed cat view (dropRow view t indexes spelled key row) t key fun _ => none := by
  have hw : StepWrites t indexes spelled (entryRemove t spelled row (keyRowId key))
      (.remove t.mapName key) _ := stepWrites_drop key row
  refine hw.changed h.maintains hkey hmirrored (fun k hk => remove_at_ne hk)
    (fun idx _ => hw.entryAt_removed idx)
    (fun idx hidx => Or.inl ⟨entryOf t idx key row, ?_, ?_⟩)
    (fun idx hhas hnot => absurd (h.all idx hhas) hnot)
  · unfold entryRemove entryOf
    rw [h.maintains.named idx hidx]
    cases t.getIndexValues idx row with
    | none => exact moves_nil _
    | some vals => exact moves_remove _ _
  · intro k hin
    have hhas := h.maintains.own idx hidx
    exact (hmirrored.mirror t idx hhas).old_iff hmirrored.rowKeys hkey (h.current.entryAt hhas) hin

/-! ## Foreign-key actions -/

/-- `CASCADE` knows an entry of one column only. -/
structure ChildDroppable (cat : Catalog) (view : View) (child : TableDef) (indexes : List IndexDef)
    (key : Key) (row : Row) : Prop extends Droppable cat view child indexes child.name key row where
  isPublic : child.mapName = tableMap child.name
  single : ∀ idx ∈ indexes, (child.getIndexValues idx row).isSome → ∃ c, idx.columns = [c]

def childRemove (child : TableDef) (row : Row) (rowId : UInt64) (idx : IndexDef) : List Write :=
  ((firstColumn child idx).map fun i =>
    Write.remove (indexMapName child.name idx) (encodeIndexKey (row[i]?.getD .null) rowId)).toList

omit [Crates] in
theorem firstColumn_single {c : String} (hc : idx.columns = [c]) :
    firstColumn t idx = t.columnIndex c := by
  rw [firstColumn, hc]
  rfl

theorem not_isSome_of_unresolved (hm : Mirrors view t idx) (h : t.getIndexValues idx row = none) {k : Key} :
    ¬((view (indexMapName t.name idx)).get k).isSome := by
  intro hin
  obtain ⟨key, hkey⟩ := (hm k).mp hin
  obtain ⟨row', -, hentry⟩ := entryAt_eq_some hkey
  rw [entryOf, TableDef.getIndexValues_eq_none h row'] at hentry
  cases hentry

theorem ChildDroppable.changed (h : ChildDroppable cat view t indexes key row) (hkey : key.length = 8)
    (hmirrored : Mirrored cat view) :
    Changed cat view (dropChild view t indexes key row) t key fun _ => none := by
  have hw : StepWrites t indexes t.name (childRemove t row (keyRowId key)) (.remove t.mapName key)
      (indexes.flatMap (childRemove t row (keyRowId key)) ++ [.remove t.mapName key]) :=
    { entries := fun idx _ e he => by
        obtain ⟨i, -, rfl⟩ := map_eq_some_iff.mp (mem_toList.mp he)
        rfl
      row := rfl
      order := Or.inl rfl }
  have hview : dropChild view t indexes key row = view.writeAll
      (indexes.flatMap (childRemove t row (keyRowId key)) ++ [.remove t.mapName key]) := by
    unfold dropChild
    rw [h.isPublic, filterMap_eq_flatMap_toList]
    rfl
  rw [hview]
  refine hw.changed h.maintains hkey hmirrored (fun k hk => remove_at_ne hk)
    (fun idx _ => hw.entryAt_removed idx) (fun idx hidx => Or.inl ?_)
    (fun idx hhas hnot => absurd (h.all idx hhas) hnot)
  have hhas := h.maintains.own idx hidx
  have hm := hmirrored.mirror t idx hhas
  cases hvals : t.getIndexValues idx row with
  | none =>
    -- whatever is removed from it, the index has no entries
    unfold childRemove
    cases firstColumn t idx with
    | none => exact ⟨none, moves_nil _, fun k hin => absurd hin (not_isSome_of_unresolved hm hvals)⟩
    | some i => exact ⟨_, moves_remove _ _, fun k hin => absurd hin (not_isSome_of_unresolved hm hvals)⟩
  | some vals =>
    obtain ⟨c, hc⟩ := h.single idx hidx (by rw [hvals]; rfl)
    refine ⟨entryOf t idx key row, ?_, fun k hin =>
      hm.old_iff hmirrored.rowKeys hkey (h.current.entryAt hhas) hin⟩
    unfold childRemove entryOf
    rw [TableDef.getIndexValues_single hc, firstColumn_single hc]
    cases t.columnIndex c with
    | none => exact moves_nil _
    | some i => exact moves_remove _ _

/-- The other actions know an entry of one column only, and take it out under a value the row must
have. -/
structure Settable (cat : Catalog) (view : View) (s : SetChild) : Prop where
  maintains : Maintains cat s.child s.indexes s.child.name
  all : ∀ idx, cat.Has s.child idx → idx ∈ s.indexes
  isPublic : s.child.mapName = tableMap s.child.name
  first : ∀ idx ∈ s.indexes, firstColumn s.child idx = some s.column → ∃ c, idx.columns = [c]
  others : ∀ idx ∈ s.indexes, firstColumn s.child idx ≠ some s.column →
    ∀ c ∈ idx.columns, s.child.columnIndex c ≠ some s.column
  old : ∀ idx ∈ s.indexes, firstColumn s.child idx = some s.column →
    encodeMemcomparableValue s.oldVal = encodeMemcomparableValue (s.row[s.column]?.getD .null)
  present : (rowAt view s.child s.key).isSome
  current : Current cat view s.child s.key s.row
  readsBack : ReadsBack cat s.child (s.row.set s.column s.newVal)

omit [Crates] in
theorem getElem?_set_column {column : Nat} (h : column < row.length) (val : Value) :
    ((row.set column val)[column]?).getD .null = val := by
  rw [getElem?_set_self h, getD_some]

/-- The entries that `setChild` moves. -/
def childMove (s : SetChild) (idx : IndexDef) : List Write :=
  if firstColumn s.child idx = some s.column then
    moveEntry (indexMapName s.child.name idx) [s.oldVal] [s.newVal] (keyRowId s.key)
  else []

theorem Settable.changed {s : SetChild} (h : Settable cat view s) (hkey : s.key.length = 8)
    (hcolumn : s.column < s.row.length) (hmirrored : Mirrored cat view) :
    Changed cat view (setChild view s) s.child s.key fun idx =>
      entryOf s.child idx s.key (s.row.set s.column s.newVal) := by
  set written : Row := s.row.set s.column s.newVal with hwritten
  have hw : StepWrites s.child s.indexes s.child.name (childMove s)
      (.put s.child.mapName s.key written.toBytes)
      (s.indexes.flatMap (childMove s) ++ [.put s.child.mapName s.key written.toBytes]) :=
    { entries := fun idx _ e he => by
        unfold childMove at he
        split_ifs at he
        · rcases mem_pair.mp he with rfl | rfl <;> rfl
        · cases he
      row := rfl
      order := Or.inl rfl }
  have hview : setChild view s = view.writeAll
      (s.indexes.flatMap (childMove s) ++ [.put s.child.mapName s.key written.toBytes]) := by
    unfold setChild
    rw [h.isPublic]
    rfl
  rw [hview]
  refine hw.changed h.maintains hkey hmirrored (fun k hk => put_at_ne hk)
    (fun idx hhas => h.readsBack.entryAt hw.get_put hhas) (fun idx hidx => ?_)
    (fun idx hhas hnot => absurd (h.all idx hhas) hnot)
  have hhas := h.maintains.own idx hidx
  by_cases hfirst : firstColumn s.child idx = some s.column
  · -- an index of the column alone: its entry moves
    obtain ⟨c, hc⟩ := h.first idx hidx hfirst
    have hfound : s.child.columnIndex c = some s.column := (firstColumn_single hc).symm.trans hfirst
    have hvals : ∀ row : Row, s.child.getIndexValues idx row = some [row[s.column]?.getD .null] := by
      intro row
      rw [TableDef.getIndexValues_single hc, hfound]
      rfl
    have hold : entryOf s.child idx s.key s.row =
        some (encodeCompositeIndexKey [s.oldVal] (keyRowId s.key)) := by
      rw [entryOf, hvals, map_some, encodeCompositeIndexKey, encodeCompositeIndexKey,
        encodeIndexPrefix, encodeIndexPrefix, flatMap_singleton, flatMap_singleton,
        h.old idx hidx hfirst]
    have hnew : entryOf s.child idx s.key written =
        some (encodeCompositeIndexKey [s.newVal] (keyRowId s.key)) := by
      rw [entryOf, hvals, map_some, hwritten, getElem?_set_column hcolumn]
    refine .inl ⟨entryOf s.child idx s.key s.row, ?_, fun k hin =>
      (hmirrored.mirror s.child idx hhas).old_iff hmirrored.rowKeys hkey (h.current.entryAt hhas) hin⟩
    rw [hold, hnew, childMove, if_pos hfirst]
    exact moves_move _ _ _
  · -- the others do not have the column
    refine .inr ⟨if_neg hfirst, ?_⟩
    obtain ⟨now, hnow⟩ := isSome_iff_exists.mp h.present
    rw [entryAt, hnow, bind_some, entryOf, entryOf, h.current now hnow idx hhas, hwritten,
      TableDef.getIndexValues_set (h.others idx hidx hfirst)]

/-! ## A row that is written again -/

def movedEntry (r : Rewrite) (idx : IndexDef) : List Write :=
  match r.table.getIndexValues idx r.old, r.table.getIndexValues idx r.new with
  | some oldVals, some newVals =>
    if r.onlyMoved && Value.eqAll oldVals newVals then []
    else moveEntry (indexMapName r.spelled idx) oldVals newVals r.rowId
  | _, _ => []

def refused (view : View) (r : Rewrite) (idx : IndexDef) : Bool :=
  match r.table.getIndexValues idx r.old, r.table.getIndexValues idx r.new with
  | some oldVals, some newVals =>
    r.probes && refuses view.seen (indexMapName r.spelled idx) idx oldVals newVals r.rowId
  | _, _ => false

variable {r : Rewrite}

theorem moveEntries_of_not_refused (h : refused view r idx = false) (indexes : List IndexDef) :
    moveEntries view r (idx :: indexes) =
      moveEntries (view.writeAll (movedEntry r idx)) r indexes := by
  unfold refused at h
  rw [moveEntries, movedEntry]
  cases hold : r.table.getIndexValues idx r.old with
  | none => rfl
  | some oldVals =>
    cases hnew : r.table.getIndexValues idx r.new with
    | none => rfl
    | some newVals =>
      rw [hold, hnew] at h
      dsimp only at h ⊢
      rw [h, if_neg Bool.false_ne_true]
      split_ifs <;> rfl

theorem moveEntries_of_refused (h : refused view r idx = true) (indexes : List IndexDef) :
    ∃ e, moveEntries view r (idx :: indexes) = (view, .error e) := by
  unfold refused at h
  cases hold : r.table.getIndexValues idx r.old with
  | none =>
    rw [hold] at h
    cases h
  | some oldVals =>
    cases hnew : r.table.getIndexValues idx r.new with
    | none =>
      rw [hold, hnew] at h
      cases h
    | some newVals =>
      rw [hold, hnew] at h
      dsimp only at h
      rw [moveEntries, hold, hnew]
      dsimp only
      rw [h, if_pos rfl]
      exact ⟨_, rfl⟩

theorem moveEntries_cases (r : Rewrite) (indexes : List IndexDef) (view : View) :
    moveEntries view r indexes = (view.writeAll (indexes.flatMap (movedEntry r)), .ok ()) ∨
    ∃ before idx after e, indexes = before ++ idx :: after ∧
      refused (view.writeAll (before.flatMap (movedEntry r))) r idx = true ∧
      moveEntries view r indexes = (view.writeAll (before.flatMap (movedEntry r)), .error e) := by
  induction indexes generalizing view with
  | nil => exact .inl rfl
  | cons idx indexes ih =>
    cases href : refused view r idx with
    | true =>
      obtain ⟨e, he⟩ := moveEntries_of_refused href indexes
      exact .inr ⟨[], idx, indexes, e, rfl, href, he⟩
    | false =>
      have happend : ∀ rest : List IndexDef, (view.writeAll (movedEntry r idx)).writeAll
          (rest.flatMap (movedEntry r)) = view.writeAll ((idx :: rest).flatMap (movedEntry r)) := by
        intro rest
        rw [flatMap_cons, View.writeAll, View.writeAll, View.writeAll, foldl_append]
      rw [moveEntries_of_not_refused href]
      rcases ih (view.writeAll (movedEntry r idx)) with hok | ⟨before, idx', after, e, rfl, hrefused, herr⟩
      · rw [hok, happend]
        exact .inl rfl
      · rw [happend] at hrefused herr
        exact .inr ⟨idx :: before, idx', after, e, rfl, hrefused, herr⟩

/-- Indexes that are not kept have the same values before and after, entries that are left alone the same
key, and the row that has been read is still there. -/
structure Rewritable (cat : Catalog) (view : View) (r : Rewrite) : Prop where
  maintains : Maintains cat r.table r.indexes r.spelled
  skipped : ∀ idx, cat.Has r.table idx → idx ∉ r.indexes →
    r.table.getIndexValues idx r.old = r.table.getIndexValues idx r.new
  left : ∀ idx ∈ r.indexes, ∀ oldVals newVals, r.table.getIndexValues idx r.old = some oldVals →
    r.table.getIndexValues idx r.new = some newVals → r.onlyMoved = true →
    Value.eqAll oldVals newVals = true → encodeIndexPrefix oldVals = encodeIndexPrefix newVals
  present : (rowAt view r.table r.key).isSome ∨
    r.onlyMoved = false ∧ ∀ idx, cat.Has r.table idx → idx ∈ r.indexes
  current : Current cat view r.table r.key r.old
  readsBack : ReadsBack cat r.table r.new

theorem Current.entryAt_eq {read : Row} (h : Current cat view t key read)
    (hpresent : (rowAt view t key).isSome) (hhas : cat.Has t idx) :
    Sql.entryAt view t idx key = entryOf t idx key read := by
  obtain ⟨now, hnow⟩ := isSome_iff_exists.mp hpresent
  rw [Sql.entryAt, hnow, bind_some, entryOf, entryOf, h now hnow idx hhas]

theorem Rewritable.changed (h : Rewritable cat view r)
    (hkey : r.key.length = 8) (hrowId : r.rowId = keyRowId r.key) (hmirrored : Mirrored cat view) :
    Changed cat view ((view.writeAll (r.indexes.flatMap (movedEntry r))).write
      (.put r.table.mapName r.key r.new.toBytes)) r.table r.key fun idx =>
        entryOf r.table idx r.key r.new := by
  have hw : StepWrites r.table r.indexes r.spelled (movedEntry r)
      (.put r.table.mapName r.key r.new.toBytes)
      (r.indexes.flatMap (movedEntry r) ++ [.put r.table.mapName r.key r.new.toBytes]) :=
    { entries := fun idx _ e he => by
        unfold movedEntry at he
        split at he
        · split_ifs at he
          · cases he
          · rcases mem_pair.mp he with rfl | rfl <;> rfl
        · cases he
      row := rfl
      order := Or.inl rfl }
  have hview : (view.writeAll (r.indexes.flatMap (movedEntry r))).write
      (.put r.table.mapName r.key r.new.toBytes) = view.writeAll
        (r.indexes.flatMap (movedEntry r) ++ [.put r.table.mapName r.key r.new.toBytes]) := by
    rw [View.writeAll, View.writeAll, foldl_append]
    rfl
  rw [hview]
  refine hw.changed h.maintains hkey hmirrored (fun k hk => put_at_ne hk)
    (fun idx hhas => h.readsBack.entryAt hw.get_put hhas) (fun idx hidx => ?_)
    (fun idx hhas hnot => ?_)
  · have hhas := h.maintains.own idx hidx
    have hold : ∀ k, ((view (indexMapName r.table.name idx)).get k).isSome →
        (entryOf r.table idx r.key r.old = some k ↔ entryAt view r.table idx r.key = some k) :=
      fun k hin => (hmirrored.mirror r.table idx hhas).old_iff hmirrored.rowKeys hkey
        (h.current.entryAt hhas) hin
    have hnamed := h.maintains.named idx hidx
    cases hoVals : r.table.getIndexValues idx r.old with
    | none =>
      refine .inl ⟨entryOf r.table idx r.key r.old, ?_, hold⟩
      rw [movedEntry, hoVals, entryOf, hoVals, entryOf, TableDef.getIndexValues_eq_none hoVals]
      exact moves_nil _
    | some oldVals =>
      cases hnVals : r.table.getIndexValues idx r.new with
      | none =>
        rw [TableDef.getIndexValues_eq_none hnVals] at hoVals
        cases hoVals
      | some newVals =>
        by_cases hleft : (r.onlyMoved && Value.eqAll oldVals newVals) = true
        · -- the entry is left alone, as it would be put back
          obtain ⟨honly, heq⟩ := Bool.and_eq_true_iff.mp hleft
          have hpresent : (rowAt view r.table r.key).isSome :=
            h.present.resolve_right fun hall => by rw [honly] at hall; cases hall.1
          refine .inr ⟨?_, ?_⟩
          · rw [movedEntry, hoVals, hnVals]
            exact if_pos hleft
          · rw [h.current.entryAt_eq hpresent hhas, entryOf, entryOf, hoVals, hnVals, map_some,
              map_some, encodeCompositeIndexKey, encodeCompositeIndexKey,
              h.left idx hidx oldVals newVals hoVals hnVals honly heq]
        · refine .inl ⟨entryOf r.table idx r.key r.old, ?_, hold⟩
          rw [movedEntry, hoVals, hnVals]
          dsimp only
          rw [if_neg hleft, entryOf, entryOf, hoVals, hnVals, hnamed, hrowId]
          exact moves_move _ _ _
  · rcases h.present with hpresent | ⟨-, hall⟩
    · rw [h.current.entryAt_eq hpresent hhas, entryOf, entryOf, h.skipped idx hhas hnot]
    · exact absurd (hall idx hhas) hnot

end H2Database.Sql
