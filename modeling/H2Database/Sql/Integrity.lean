import H2Database.Sql.Cascades

/-!
# Runs that keep referential integrity

Between two statements every value that is not NULL and refers to a parent has one, as long as each step
`Minds` the references.  In the midst of a statement the stack tells what is still to be done: the rows of
a deletion are covered by the tasks before them, and an update owes what its row will offer.
-/

namespace H2Database.Sql

open Reasoning Mvstore List

variable [Crates] {cat : Catalog} {view : View} {counters : Counters}

def Task.IsBase : Task → Prop
  | .insertRow _ _ _ _ _ _ | .insertEnd _ | .deleteRow _ _ _ _ _ _ | .deleteEnd _ => True
  | .updateRows _ _ _ _ _ _ | .updateEnd _ | .mergeRow _ _ _ _ _ | .copyLine _ _ _ _ _ => True
  | _ => False

/-- What follows from a task of a statement on a table: nothing but such tasks, the deletion of one row
after its children, or the update of one row after its children. -/
inductive Follows (cat : Catalog) (spelled : String) (t : TableDef) : List Task → Prop
  | base {more : List Task} (h : ∀ task ∈ more, task.IsBase) : Follows cat spelled t more
  | delete {row : Row} {indexes : List IndexDef} {name : String} {key : Key} :
      Follows cat spelled t (handleForeignKeysOnDelete cat spelled row ++ [.dropRow t indexes name key row])
  | update {r : Rewrite} {asked more : List Task} (htable : r.table = t)
      (hlength : r.new.length = r.old.length)
      (hasked : asked = [.onUpdate spelled r.old r.new] ∨
        asked = handleForeignKeysOnUpdate cat spelled r.old r.new)
      (hmore : ∀ task ∈ more, task.IsBase) : Follows cat spelled t (asked ++ .rewrite r :: more)

/-! ## Careful steps -/

/-- What a task has to meet.  Names have to be those the foreign keys know, child tables public and maps
of rows apart; rows have to be read back, new ones under free numbers; rows that were read earlier have
to be as they were read; and `COPY` has to bring rows that pass the check it does not make. -/
def Task.Minds (cat : Catalog) (view : View) (counters : Counters) : Task → Prop
  | .insertRow ins t indexes targets number rawValues =>
    (∀ row rowId counters', checkInsert cat view.seen ins t indexes targets number rawValues =
        .ok (row, none) →
      cat.allocateRowId counters ins.tableName = .ok (rowId, counters') → NewRow cat view t row rowId) ∧
    ∀ row found, checkInsert cat view.seen ins t indexes targets number rawValues =
      .ok (row, some found) → cat.Named ins.tableName t
  | .deleteRow del t _ _ _ _ => cat.Named del.tableName t
  | .updateRows upd t _ _ _ _ => cat.Named upd.tableName t
  | .mergeRow m t _ targetRows source =>
    (∀ found, findTarget view.seen m.on source targetRows = .ok (some found) →
      cat.Named m.targetName t) ∧
    ∀ row rowId counters', findTarget view.seen m.on source targetRows = .ok none →
      mergeNotMatched view.seen m t source m.clauses = .ok (some row) →
      cat.allocateRowId counters m.targetName = .ok (rowId, counters') → NewRow cat view t row rowId
  | .copyLine c t targets number fields => ∀ row rowId counters',
    buildLine c t targets number fields = .ok row →
    cat.allocateRowId counters c.tableName = .ok (rowId, counters') →
    NewRow cat view t row rowId ∧ validateForeignKeysForRow cat view.seen t row = .ok ()
  | .rewrite r => validateForeignKeysForRow cat view.seen r.table r.new = .ok () →
    (moveEntries view r r.indexes).2 = .ok () → Rewrites cat view r
  | .dropRow t _ _ key row => cat.Alone t ∧ KeyCurrent cat view t key row
  | .deleteChildren _ _ _ child fk => child.mapName = tableMap child.name ∧
    (fk.onDelete = .cascade → cat.Named child.name child)
  | .dropChild child _ key row =>
    child.mapName = tableMap child.name ∧ cat.Alone child ∧ KeyCurrent cat view child key row
  | .updateChildren _ _ _ _ child _ => child.mapName = tableMap child.name
  | .setChild s => SetsLink cat view s
  | _ => True

omit [Crates] in
theorem forall_nil_base : ∀ task ∈ ([] : List Task), task.IsBase :=
  fun _ htask => absurd htask not_mem_nil

variable {task : Task}

theorem isBase_of_starts {seen : Visible} (h : Starts seen task) : task.IsBase := by
  cases h <;> trivial

theorem Task.follows (hbase : task.IsBase) (hminds : task.Minds cat view counters)
    {more : List Task} (h : (task.run cat view counters).result = .ok more) :
    more = [] ∨ ∃ spelled t, cat.Named spelled t ∧ Follows cat spelled t more := by
  cases Task.spawns h with
  | nothing => exact .inl rfl
  | @doUpdate _ t indexes _ _ _ row old new rowId _ _ hcheck _ _ hnew =>
    exact .inr ⟨_, _, hminds.2 _ _ hcheck, .update (r := doUpdateRewrite t indexes rowId old new) rfl
      (assign_length hnew) (.inl rfl) forall_nil_base⟩
  | @duplicateKey _ t indexes _ _ _ row old new rowId _ hcheck _ hnew =>
    exact .inr ⟨_, _, hminds.2 _ _ hcheck, .update (r := duplicateKeyRewrite t indexes rowId old new) rfl
      (assign_length hnew) (.inl rfl) forall_nil_base⟩
  | deleteRow => exact .inr ⟨_, _, hminds, .delete⟩
  | passed => exact .inr ⟨_, _, hminds, .base (forall_mem_singleton.mpr trivial)⟩
  | @updateRow upd t indexes _ key _ _ _ row new _ _ hnew =>
    exact .inr ⟨_, _, hminds, .update (r := updateRewrite upd t indexes key row new) rfl
      (updatedRow_length hnew) (.inr rfl) (forall_mem_singleton.mpr trivial)⟩
  | @mergeUpdate _ t indexes _ _ old new rowId _ hfind _ hnew =>
    exact .inr ⟨_, _, hminds.1 _ hfind, .update (r := mergeRewrite t indexes rowId old new) rfl
      (assign_length hnew) (.inr rfl) forall_nil_base⟩
  | mergeDelete hfind => exact .inr ⟨_, _, hminds.1 _ hfind, .delete⟩
  | onDelete | onUpdate | dropChildren | clearChildren | setChildren => cases hbase

/-! ## What is still to be done -/

/-- The tasks on top of the stack delete rows, each after the rows that refer to it. -/
structure Deleting (cat : Catalog) (view : View) (top base : List Task) : Prop where
  kind : ∀ task ∈ top, task.IsDeletion
  covered : Covered cat (rowAt view) top
  base : ∀ task ∈ base, task.IsBase
  intact : Intact cat (rowAt view)

def Task.OfRewrite (cat : Catalog) (r : Rewrite) : Task → Prop
  | .onUpdate parent old new => cat.Named parent r.table ∧ old = r.old ∧ new = r.new
  | .updateChildren _ parentDef old new child fk => parentDef = r.table ∧ old = r.old ∧ new = r.new ∧
      cat.Refers child fk ∧ cat.getTable fk.foreignTable = some r.table
  | .setChild s => s.newVal.isNull = true ∨ ∃ fk ∈ s.child.foreignKeys,
      s.child.columnIndex fk.column = some s.column ∧ cat.getTable fk.foreignTable = some r.table ∧
        keyValue r.table fk r.new = some s.newVal
  | _ => False

/-- The tasks see to the rows that refer to a value the row is to lose. -/
def Attends (cat : Catalog) (rows : Rows TableDef Key Row) (tasks : List Task) (r : Rewrite) : Prop :=
  ∀ child fk, cat.Refers child fk → cat.getTable fk.foreignTable = some r.table →
    ∀ p q, keyValue r.table fk r.old = some p → keyValue r.table fk r.new = some q → p.eq q = false →
      (∃ parent, Task.updateChildren parent r.table r.old r.new child fk ∈ tasks) ∨
      (∃ parent, cat.Named parent r.table ∧ Task.onUpdate parent r.old r.new ∈ tasks) ∨
      Untied rows tasks child fk p

/-- The tasks on top of the stack see to the child rows of the row that is written after them. -/
structure Updating (cat : Catalog) (view : View) (top : List Task) (r : Rewrite) (base : List Task) :
    Prop where
  kind : ∀ task ∈ top, task.OfRewrite cat r
  attends : Attends cat (rowAt view) top r
  length : r.new.length = r.old.length
  base : ∀ task ∈ base, task.IsBase
  owing : IntactOwing cat (owedBy r) (rowAt view)

inductive Stacked (cat : Catalog) (view : View) (tasks : List Task) : Prop
  | deleting {top base : List Task} (htasks : tasks = top ++ base) (h : Deleting cat view top base)
  | updating {top base : List Task} {r : Rewrite} (htasks : tasks = top ++ .rewrite r :: base)
      (h : Updating cat view top r base)

variable {tasks : List Task}

theorem Stacked.of_base (hbase : ∀ task ∈ tasks, task.IsBase)
    (h : Intact cat (rowAt view)) : Stacked cat view tasks :=
  .deleting (nil_append tasks).symm
    ⟨fun _ htask => absurd htask not_mem_nil, covered_nil _, hbase, h⟩

theorem Stacked.intact (h : Stacked cat view []) : Intact cat (rowAt view) := by
  cases h with
  | deleting _ h => exact h.intact
  | updating htasks _ => simp at htasks

theorem intact_sameRows {view' : View} (hrows : SameRows view view')
    {owed : Link TableDef Row Value → Value → Prop} (h : IntactOwing cat owed (rowAt view)) :
    IntactOwing cat owed (rowAt view') := by
  rwa [show rowAt view' = rowAt view from funext fun t => funext fun key => hrows.rowAt t key]

variable {parent : String} {r : Rewrite}

omit [Crates] in
theorem ofRewrite_handle (hnamed : cat.Named parent r.table) :
    ∀ task ∈ handleForeignKeysOnUpdate cat parent r.old r.new, task.OfRewrite cat r := by
  intro task htask
  obtain ⟨parentDef, p, hfound, hp, rfl⟩ := exists_of_mem_onUpdate htask
  obtain ⟨hrefers, hparent⟩ := mem_getTablesReferencing.mp hp
  cases hnamed.found.symm.trans hfound
  exact ⟨rfl, rfl, rfl, hrefers, hparent ▸ hfound⟩

theorem Stacked.of_follows {spelled : String} {t : TableDef} (hnamed : cat.Named spelled t)
    {more rest : List Task} (hfollows : Follows cat spelled t more)
    (hrest : ∀ task ∈ rest, task.IsBase) (h : Intact cat (rowAt view)) :
    Stacked cat view (more ++ rest) := by
  cases hfollows with
  | base hmore => exact .of_base (forall_mem_append.mpr ⟨hmore, hrest⟩) h
  | @delete row indexes name key =>
    have hasks : ∀ task ∈ handleForeignKeysOnDelete cat spelled row,
        task.IsDeletion ∧ task.goes = none := by
      intro task htask
      obtain ⟨_, _, -, -, rfl⟩ := exists_of_mem_onDelete htask
      exact ⟨trivial, rfl⟩
    refine .deleting rfl ⟨forall_mem_append.mpr ⟨fun task htask => (hasks task htask).1,
      forall_mem_singleton.mpr trivial⟩, ?_, hrest, h⟩
    refine covered_concat (fun task htask => (hasks task htask).2) fun t' row' hgoes => ?_
    cases hgoes
    exact fun child fk hrefers hparent p _ =>
      Or.inl ⟨spelled, hnamed.deleteChildren_mem row hrefers hparent⟩
  | @update r asked more' htable hlength hasked hmore =>
    subst htable
    have hrest' : ∀ task ∈ more' ++ rest, task.IsBase := forall_mem_append.mpr ⟨hmore, hrest⟩
    have howing : IntactOwing cat (owedBy r) (rowAt view) := by
      intro l hl v href
      exact .inl ((h l hl v href).resolve_right fun hfalse => hfalse)
    rw [append_assoc, cons_append]
    refine .updating rfl ⟨?_, ?_, hlength, hrest', howing⟩
    · rcases hasked with rfl | rfl
      · exact forall_mem_singleton.mpr ⟨hnamed, rfl, rfl⟩
      · exact ofRewrite_handle hnamed
    · intro child fk hrefers hparent p q _ _ _
      rcases hasked with rfl | rfl
      · exact .inr (.inl ⟨spelled, hnamed, mem_cons_self⟩)
      · exact .inl ⟨spelled, hnamed.updateChildren_mem _ _ hrefers hparent⟩

/-! ## One task -/

theorem valid_of_checkInsert {seen : Visible} {ins : Insert} {t : TableDef} {indexes : List IndexDef}
    {targets : List Nat} {number : Nat} {rawValues : List Value} {row : Row}
    {found : Option (UInt64 × Row)}
    (h : checkInsert cat seen ins t indexes targets number rawValues = .ok (row, found)) :
    validateForeignKeysForRow cat seen t row = .ok () := by
  unfold checkInsert at h
  split_ifs at h
  · cases h
  obtain ⟨built, -, h⟩ := H2Result.bind_eq_ok.mp h
  obtain ⟨u, hvalid, h⟩ := H2Result.bind_eq_ok.mp h
  obtain ⟨found', -, h⟩ := H2Result.bind_eq_ok.mp h
  cases h
  exact hvalid

theorem Stacked.base_step {rest more : List Task} (hbase : task.IsBase)
    (hrest : ∀ task ∈ rest, task.IsBase) (hintact : Intact cat (rowAt view))
    (hminds : task.Minds cat view counters) (hok : (task.run cat view counters).result = .ok more) :
    Stacked cat (task.run cat view counters).view (more ++ rest) := by
  have hafter : Intact cat (rowAt (task.run cat view counters).view) := by
    rcases task.rows_cases cat view counters with
      ⟨w, hstep, hw, -⟩ | ⟨-, hsame⟩
    · cases hstep with
      | insert hcheck hid =>
        exact (hminds.1 _ _ _ hcheck hid).intact (valid_of_checkInsert hcheck) hw hintact
      | merge hfind hrow hid hvalid => exact (hminds.2 _ _ _ hfind hrow hid).intact hvalid hw hintact
      | copy hrow hid =>
        obtain ⟨hnew, hvalid⟩ := hminds _ _ _ hrow hid
        exact hnew.intact hvalid hw hintact
      | rewrite | drop | dropChild | setChild => cases hbase
    · exact intact_sameRows hsame hintact
  rcases task.follows hbase hminds hok with rfl | ⟨spelled, t, hnamed, hfollows⟩
  · exact .of_base hrest hafter
  · exact .of_follows hnamed hfollows hrest hafter

variable {top base more : List Task}

theorem Deleting.step (hsymm : Crates.Symmetric)
    (h : Deleting cat view (task :: top) base) (hminds : task.Minds cat view counters)
    (hok : (task.run cat view counters).result = .ok more) :
    Deleting cat (task.run cat view counters).view (more ++ top) base := by
  have hkind := forall_mem_cons.mp h.kind
  -- where the row of the task goes, no task is left that should see to it
  have hgone : ∀ t row, task.goes = some (t, row) → Unreferenced cat (rowAt view) t row :=
    fun t row hgoes => (h.covered [] task top t row rfl hgoes).unreferenced
  have hwrite : ∀ {view' : View}, (.ok [] : H2Result (List Task)) = .ok more →
      (∀ parent parentDef asked child fk, task ≠ .deleteChildren parent parentDef asked child fk) →
      (∀ parent asked, task ≠ .onDelete parent asked) →
      (∀ tasks child fk p, cat.Refers child fk → Untied (rowAt view) (task :: tasks) child fk p →
        Untied (rowAt view') tasks child fk p) →
      Intact cat (rowAt view') → Deleting cat view' (more ++ top) base := by
    intro view' hmore hdelete hon huntied hintact
    cases hmore
    refine ⟨hkind.2, h.covered.step (covered_nil _) fun before t row hcovers => ?_, h.base, hintact⟩
    exact hcovers.write hdelete hon (huntied before)
  cases task with
  | onDelete parent row =>
    cases hok
    have hmore : ∀ task ∈ handleForeignKeysOnDelete cat parent row,
        task.IsDeletion ∧ task.goes = none := by
      intro task htask
      obtain ⟨_, _, -, -, rfl⟩ := exists_of_mem_onDelete htask
      exact ⟨trivial, rfl⟩
    exact ⟨forall_mem_append.mpr ⟨fun task htask => (hmore task htask).1, hkind.2⟩,
      h.covered.step (covered_of_stays fun task htask => (hmore task htask).2)
        fun before t row' hcovers => hcovers.onDelete, h.base, h.intact⟩
  | deleteChildren parent parentDef row child fk =>
    have hmore : (∀ task ∈ more, task.IsDeletion) ∧ Covered cat (rowAt view) more := by
      rcases deleteChildren_cases hok with rfl | ⟨children, hcascade, rfl⟩ | hset
      · exact ⟨fun task htask => absurd htask not_mem_nil, covered_nil _⟩
      · refine ⟨fun task htask => ?_, covered_children (hminds.2 hcascade) children⟩
        obtain ⟨p, -, hin⟩ := mem_flatMap.mp htask
        rcases mem_pair.mp hin with rfl | rfl <;> trivial
      · refine ⟨fun task htask => ?_, covered_of_stays fun task htask => ?_⟩
        · obtain ⟨s, rfl, hnull⟩ := hset task htask
          exact hnull
        · obtain ⟨s, rfl, -⟩ := hset task htask
          rfl
    exact ⟨forall_mem_append.mpr ⟨hmore.1, hkind.2⟩,
      h.covered.step hmore.2 fun before t row' hcovers =>
        Covers.deleteChildren hsymm hok hminds.1 hcovers, h.base, h.intact⟩
  | dropChild child indexes key row =>
    obtain ⟨hpublic, halone, hcurrent⟩ := hminds
    have hw : WritesRow view (dropChild view child indexes key row)
        (.remove (tableMap child.name) key) := writesRow_dropChild child indexes key row
    refine hwrite hok (fun _ _ _ _ _ heq => by cases heq) (fun _ _ heq => by cases heq)
      (fun tasks child' fk p hrefers huntied => ?_)
      (IntactOwing.removed h.intact halone hcurrent (hgone child row rfl) hpublic hw)
    exact huntied.replaced (hw.replaced hpublic halone) hrefers.contains
      (fun key' hunties => ⟨hunties.1.symm, hunties.2.symm⟩) fun _ row' v hrow' => by cases hrow'
  | dropRow t indexes spelled key row =>
    obtain ⟨halone, hcurrent⟩ := hminds
    have hw : WritesRow view (dropRow view t indexes spelled key row) (.remove t.mapName key) :=
      writesRow_dropRow t indexes spelled key row
    refine hwrite hok (fun _ _ _ _ _ heq => by cases heq) (fun _ _ heq => by cases heq)
      (fun tasks child' fk p hrefers huntied => ?_)
      (IntactOwing.removed h.intact halone hcurrent (hgone t row rfl) rfl hw)
    exact huntied.replaced (hw.replaced rfl halone) hrefers.contains
      (fun key' hunties => hunties.elim) fun _ row' v hrow' => by cases hrow'
  | setChild s =>
    have hnull : s.newVal.isNull = true := hkind.1
    have hnot : s.newVal.isNull = false → False := fun hfalse => by
      rw [hnull] at hfalse
      cases hfalse
    have hw := writesRow_setChild view s
    refine hwrite hok (fun _ _ _ _ _ heq => by cases heq) (fun _ _ heq => by cases heq)
      (fun tasks child' fk p hrefers huntied => ?_)
      (hminds.intact hw (fun fk _ _ hfalse => (hnot hfalse).elim) h.intact)
    exact huntied.set hminds hw hrefers fun _ _ hfalse => (hnot hfalse).elim
  | insertRow | insertEnd | deleteRow | deleteEnd | updateRows | updateEnd | mergeRow | copyLine
  | rewrite | onUpdate | updateChildren => exact hkind.1.elim

theorem Attends.onUpdate {rows : Rows TableDef Key Row} (hnamed : cat.Named parent r.table)
    (h : Attends cat rows (.onUpdate parent r.old r.new :: tasks) r) :
    Attends cat rows (handleForeignKeysOnUpdate cat parent r.old r.new ++ tasks) r := by
  intro child fk hrefers hparent p q hp hq hne
  rcases h child fk hrefers hparent p q hp hq hne with ⟨parent', hin⟩ | ⟨parent', hnamed', hin⟩ | huntied
  · rcases mem_cons.mp hin with heq | hin
    · cases heq
    · exact .inl ⟨parent', mem_append_right _ hin⟩
  · rcases mem_cons.mp hin with heq | hin
    · exact .inl ⟨parent, mem_append_left _ (hnamed.updateChildren_mem _ _ hrefers hparent)⟩
    · exact .inr (.inl ⟨parent', hnamed', mem_append_right _ hin⟩)
  · refine .inr (.inr (huntied.mono fun key task htask hunties => ?_))
    rcases mem_cons.mp htask with rfl | hin
    · cases hunties
    · exact mem_append_right _ hin

theorem Attends.updateChildren (hsymm : Crates.Symmetric)
    {child : TableDef} {fk : ForeignKeyDef} {more tasks : List Task}
    (hmore : Sql.updateChildren cat view.seen parent r.table r.old r.new child fk = .ok more)
    (hpublic : child.mapName = tableMap child.name)
    (h : Attends cat (rowAt view) (.updateChildren parent r.table r.old r.new child fk :: tasks) r) :
    Attends cat (rowAt view) (more ++ tasks) r := by
  intro child' fk' hrefers hparent p q hp hq hne
  rcases h child' fk' hrefers hparent p q hp hq hne with
    ⟨parent', hin⟩ | ⟨parent', hnamed, hin⟩ | huntied
  · rcases mem_cons.mp hin with heq | hin
    · cases heq
      refine .inr (.inr ((updateChildren_ok hsymm hmore hpublic hp hq hne).mono ?_))
      exact fun key task htask _ => mem_append_left _ htask
    · exact .inl ⟨parent', mem_append_right _ hin⟩
  · rcases mem_cons.mp hin with heq | hin
    · cases heq
    · exact .inr (.inl ⟨parent', hnamed, mem_append_right _ hin⟩)
  · refine .inr (.inr (huntied.mono fun key task htask hunties => ?_))
    rcases mem_cons.mp htask with rfl | hin
    · cases hunties
    · exact mem_append_right _ hin

theorem Attends.setChild {s : SetChild} {view' : View}
    (h : Attends cat (rowAt view) (.setChild s :: tasks) r) (hs : SetsLink cat view s)
    (hof : (Task.setChild s).OfRewrite cat r) (hw : WritesRow view view' (.put (tableMap s.child.name) s.key
      (Row.toBytes (s.row.set s.column s.newVal)))) : Attends cat (rowAt view') tasks r := by
  intro child fk hrefers hparent p q hp hq hne
  rcases h child fk hrefers hparent p q hp hq hne with ⟨parent, hin⟩ | ⟨parent, hnamed, hin⟩ | huntied
  · exact .inl ⟨parent, (mem_cons.mp hin).resolve_left fun heq => by cases heq⟩
  · exact .inr (.inl ⟨parent, hnamed, (mem_cons.mp hin).resolve_left fun heq => by cases heq⟩)
  · refine .inr (.inr (huntied.set hs hw hrefers fun hcolumn hchild hnull => ?_))
    rcases hof with hset | ⟨fk', hfk', hcolumn', -, hval⟩
    · rw [hset] at hnull
      cases hnull
    · -- the column has one foreign key, so the value is the one the parent is to have
      rw [hchild] at hcolumn
      have hsame : fk = fk' :=
        (hs.single hnull).2 fk (hchild ▸ hrefers.mem) fk' hfk' hcolumn hcolumn'
      rw [← hsame, hq] at hval
      rw [← Option.some.inj hval]
      exact hne

theorem Updating.step (hsymm : Crates.Symmetric)
    (h : Updating cat view (task :: top) r base) (hminds : task.Minds cat view counters)
    (hok : (task.run cat view counters).result = .ok more) :
    Updating cat (task.run cat view counters).view (more ++ top) r base := by
  obtain ⟨hof, hkind⟩ := forall_mem_cons.mp h.kind
  cases task with
  | onUpdate parent old new =>
    obtain ⟨hnamed, rfl, rfl⟩ := hof
    cases hok
    exact ⟨forall_mem_append.mpr ⟨ofRewrite_handle hnamed, hkind⟩, h.attends.onUpdate hnamed,
      h.length, h.base, h.owing⟩
  | updateChildren parent parentDef old new child fk =>
    obtain ⟨rfl, rfl, rfl, hrefers, hparent⟩ := hof
    refine ⟨forall_mem_append.mpr ⟨fun task htask => ?_, hkind⟩,
      h.attends.updateChildren hsymm hok hminds, h.length, h.base, h.owing⟩
    rcases updateChildren_tasks hok with rfl | ⟨oldVal, newVal, column, children, hcolumn, -, hval, rfl⟩
    · cases htask
    · obtain ⟨p, -, rfl⟩ := mem_map.mp htask
      exact hval.imp_right fun hval => ⟨fk, hrefers.mem, hcolumn, hparent, hval⟩
  | setChild s =>
    cases hok
    have hw := writesRow_setChild view s
    refine ⟨hkind, h.attends.setChild hminds hof hw, h.length, h.base,
      hminds.intact hw (fun fk hfk hcolumn hnull => ?_) h.owing⟩
    rcases hof with hset | ⟨fk', hfk', hcolumn', hparent, hval⟩
    · rw [hset] at hnull
      cases hnull
    · obtain ⟨hself, hsingle⟩ := hminds.single hnull
      rw [hsingle fk hfk fk' hfk' hcolumn hcolumn']
      exact ⟨hparent, s.newVal, by rw [Catalog.offers_link hparent, hval], hself⟩
  | insertRow | insertEnd | deleteRow | deleteEnd | updateRows | updateEnd | mergeRow | copyLine
  | rewrite | onDelete | deleteChildren | dropChild | dropRow => exact hof.elim

theorem rewrite_ok (h : (rewrite cat view r).2 = .ok ()) :
    validateForeignKeysForRow cat view.seen r.table r.new = .ok () ∧
      (moveEntries view r r.indexes).2 = .ok () := by
  unfold rewrite at h
  cases hvalid : validateForeignKeysForRow cat view.seen r.table r.new with
  | error e =>
    rw [hvalid] at h
    cases h
  | ok u =>
    rw [hvalid] at h
    dsimp only at h
    rcases hmoved : moveEntries view r r.indexes with ⟨view', e | u'⟩
    · rw [hmoved] at h
      cases h
    · exact ⟨rfl, rfl⟩

theorem Updating.rewrite {base more : List Task} (h : Updating cat view [] r base)
    (hminds : (Task.rewrite r).Minds cat view counters)
    (hok : ((Task.rewrite r).run cat view counters).result = .ok more) :
    Stacked cat ((Task.rewrite r).run cat view counters).view (more ++ base) := by
  obtain ⟨u, hu, rfl⟩ := H2Result.map_eq_ok.mp hok
  obtain ⟨hvalid, hmoved⟩ := rewrite_ok hu
  have hhandled : Handled cat (rowAt view) r := by
    intro child fk hrefers hparent p q hp hq hne v href
    obtain ⟨key, row, hrow, hv⟩ := href
    rcases h.attends child fk hrefers hparent p q hp hq hne with ⟨_, hin⟩ | ⟨_, -, hin⟩ | huntied
    · cases hin
    · cases hin
    · by_contra heq
      obtain ⟨task, htask, -⟩ := huntied key row v hrow hv (Bool.eq_true_of_not_eq_false heq)
      cases htask
  rcases (Task.rewrite r).rows_cases cat view counters with
    ⟨w, hstep, hw, -⟩ | ⟨hnone, -⟩
  · cases hstep
    exact .of_base h.base ((hminds hvalid hmoved).intact h.length hvalid hhandled hw h.owing)
  · exact absurd (RowStep.rewrite hvalid hmoved) (hnone _)

theorem Stacked.step (hsymm : Crates.Symmetric) {rest more : List Task}
    (h : Stacked cat view (task :: rest)) (hminds : task.Minds cat view counters)
    (hok : (task.run cat view counters).result = .ok more) :
    Stacked cat (task.run cat view counters).view (more ++ rest) := by
  cases h with
  | @deleting top base htasks h =>
    cases top with
    | nil =>
      have hbase := h.base
      rw [nil_append] at htasks
      rw [← htasks] at hbase
      obtain ⟨htask, hrest⟩ := forall_mem_cons.mp hbase
      exact .base_step htask hrest h.intact hminds hok
    | cons first top =>
      cases htasks
      exact .deleting (append_assoc ..).symm (h.step hsymm hminds hok)
  | @updating top base r htasks h =>
    cases top with
    | nil =>
      cases htasks
      exact h.rewrite hminds hok
    | cons first top =>
      cases htasks
      exact .updating (append_assoc ..).symm (h.step hsymm hminds hok)

/-- No row refers to a value that only the row to be written will offer. -/
def Unawaited (cat : Catalog) (view : View) (r : Rewrite) : Prop :=
  ∀ l ∈ cat.links, ∀ v, l.ReferredIn (rowAt view) v → owedBy r l v → l.OfferedIn Agrees (rowAt view) v

theorem Stacked.failed {rest : List Task} (h : Stacked cat view (task :: rest))
    {e : H2Error} (herr : (task.run cat view counters).result = .error e)
    (hawaits : ∀ r, .rewrite r ∈ task :: rest → Unawaited cat view r) :
    Intact cat (rowAt (task.run cat view counters).view) := by
  have hsame : SameRows view (task.run cat view counters).view := by
    rcases task.rows_cases cat view counters with
      ⟨w, -, -, hok⟩ | ⟨-, hsame⟩
    · rw [herr] at hok
      cases hok
    · exact hsame
  refine intact_sameRows hsame ?_
  cases h with
  | deleting _ h => exact h.intact
  | @updating top base r htasks h =>
    intro l hl v href
    have hin : Task.rewrite r ∈ task :: rest := by
      rw [htasks]
      exact mem_append_right _ mem_cons_self
    exact .inl ((h.owing l hl v href).elim id fun howed => hawaits r hin l hl v href howed)

end H2Database.Sql
