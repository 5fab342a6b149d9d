import H2Database.Sql.Careful
import H2Database.Sql.Integrity

/-!
# Referential integrity of a session

Sessions that may also `TRUNCATE`, which clears the maps of a table at once and for every transaction.  In
a run whose steps mind the references no value is without its parent whenever no statement is going on.
-/

namespace H2Database.Sql

open Reasoning Mvstore List Option

/-! ## TRUNCATE -/

inductive SqlAction where
  | session (a : Action)
  | truncate (tableNames : List String) (committed : H2Result Unit)

def View.clear (view : View) (maps : List String) : View := fun m => if m ∈ maps then .empty else view m

namespace Session

/-- The row numbers begin again, in the definitions under both keys of the table. -/
def resetCounters (counters : Counters) (t : TableDef) : Counters :=
  let written := Function.update counters t.fullName 1
  if t.schema = "public" then Function.update written t.name 1 else written

/-- One table of the list.  What is cleared does not come back with a rollback. -/
def truncateTable (cat : Catalog) (isQueue : TableDef → Bool) (s : Session) (tableName : String) :
    H2Result Session :=
  match cat.getTable tableName with
  | none => .error (.catalog s!"Table '{tableName}' not found")
  | some t =>
    if isQueue t then .error (.unsupported s!"TRUNCATE is not allowed on Queue Table '{tableName}'")
    else match (cat.getTablesReferencing tableName).find? fun p =>
        !(s.view.seen.scan (tableMap p.1.name)).isEmpty with
      | some (child, fk) => .error (.execution
          (s!"Cannot truncate table '{tableName}' because it is referenced by table '{child.name}' " ++
            s!"(foreign key on column '{fk.column}')"))
      | none =>
        let maps := t.mapName :: (cat.getTableIndexes tableName).map (indexMapName tableName)
        .ok { s with
          view := s.view.clear maps
          saved := s.saved.clear maps
          counters := resetCounters s.counters t }

def truncateTables (cat : Catalog) (isQueue : TableDef → Bool) (s : Session) :
    List String → Session × H2Result Unit
  | [] => (s, .ok ())
  | name :: names =>
    match s.truncateTable cat isQueue name with
    | .error e => (s, .error e)
    | .ok s' => truncateTables cat isQueue s' names

variable [Crates]

def sqlStep (cat : Catalog) (isQueue : TableDef → Bool) (s : Session) : SqlAction → Session
  | .session a => s.step cat a
  | .truncate names committed =>
    if s.idle then
      let (s', result) := s.truncateTables cat isQueue names
      s'.proceed ⟨s'.view, s'.counters, (result.bind fun _ => committed).map fun _ => []⟩ []
    else s

end Session

/-! ## Careful runs -/

section

variable [Crates] {cat : Catalog} {isQueue : TableDef → Bool}

/-- `TRUNCATE` knows the table by the name its foreign keys know, and finds the rows of its child tables;
there were none either when an explicit transaction began. -/
structure Truncates (cat : Catalog) (s : Session) (name : String) (t : TableDef) : Prop where
  named : cat.Named name t
  alone : cat.Alone t
  children : ∀ child fk, cat.Refers child fk → cat.getTable fk.foreignTable = some t →
    child.mapName = tableMap child.name ∧ (s.explicit = true → ∀ key, rowAt s.saved child key = none)

def TruncatesAll (cat : Catalog) (isQueue : TableDef → Bool) : Session → List String → Prop
  | _, [] => True
  | s, name :: names => (∀ t, cat.getTable name = some t → Truncates cat s name t) ∧
      ∀ s', s.truncateTable cat isQueue name = .ok s' → TruncatesAll cat isQueue s' names

namespace Session

/-- In an explicit transaction, where what a statement has written stays if it fails, none fails while a
child row has the new value of a row that has not got it yet. -/
def Minds (cat : Catalog) (isQueue : TableDef → Bool) (s : Session) : SqlAction → Prop
  | .session .advance => ∀ task rest, s.tasks = task :: rest → task.Minds cat s.view s.counters ∧
      (s.explicit = true → ∀ e, (task.run cat s.view s.counters).result = .error e →
        ∀ r, .rewrite r ∈ s.tasks → Unawaited cat s.view r)
  | .truncate names _ => TruncatesAll cat isQueue s names
  | _ => True

/-- Where no statement is going on, and where the open transaction began, every reference has its parent. -/
structure Sound (cat : Catalog) (s : Session) : Prop where
  stacked : Stacked cat s.view s.tasks
  saved : Intact cat (rowAt s.saved)
  same : s.explicit = false → s.tasks = [] → s.saved = s.view

theorem intact_empty (cat : Catalog) : Intact cat (rowAt View.empty) := by
  intro l hl v href
  obtain ⟨key, row, hrow, -⟩ := href
  cases hrow

theorem sound_new (cat : Catalog) (counters : Counters) : (new counters).Sound cat :=
  ⟨.of_base (fun _ htask => absurd htask not_mem_nil) (intact_empty cat), intact_empty cat,
    fun _ _ => rfl⟩

variable {s : Session}

theorem Sound.intact (h : s.Sound cat) (hidle : s.tasks = []) :
    Intact cat (rowAt s.view) := by
  have hstacked := h.stacked
  rw [hidle] at hstacked
  exact hstacked.intact

theorem Sound.proceed (h : s.Sound cat) {o : Outcome} {rest : List Task}
    (hok : ∀ more, o.result = .ok more → Stacked cat o.view (more ++ rest))
    (herr : s.explicit = true → ∀ e, o.result = .error e → Intact cat (rowAt o.view)) :
    (s.proceed o rest).Sound cat := by
  unfold Session.proceed
  split
  · rename_i e hres
    refine ⟨.of_base (fun _ htask => absurd htask not_mem_nil) ?_, h.saved, fun hauto _ => ?_⟩
    · dsimp only
      split_ifs with hexplicit
      · exact herr hexplicit e hres
      · exact h.saved
    · dsimp only at hauto ⊢
      rw [hauto, if_neg Bool.false_ne_true]
  · rename_i more hres
    have hstacked := hok more hres
    refine ⟨hstacked, ?_, fun hauto hnil => ?_⟩
    · dsimp only
      split_ifs with hlast
      · have hnil : more ++ rest = [] := isEmpty_iff.mp (Bool.and_eq_true_iff.mp hlast).1
        rw [hnil] at hstacked
        exact hstacked.intact
      · exact h.saved
    · dsimp only at hauto hnil ⊢
      rw [hnil, hauto]
      rfl

theorem Sound.step (hsymm : Crates.Symmetric) (h : s.Sound cat) {a : Action}
    (hminds : s.Minds cat isQueue (.session a)) : (s.step cat a).Sound cat := by
  cases a with
  | execute st =>
    unfold Session.step
    dsimp only
    split_ifs with hidle
    · have hintact := h.intact (idle_iff.mp hidle)
      refine h.proceed (fun more hmore => ?_) fun _ _ _ => hintact
      rw [append_nil]
      exact .of_base (fun task htask => isBase_of_starts (Statement.starts hmore task htask)) hintact
    · exact h
  | advance =>
    unfold Session.step
    dsimp only
    cases htasks : s.tasks with
    | nil => exact h
    | cons task rest =>
      obtain ⟨htask, hfails⟩ := hminds task rest htasks
      have hstacked := h.stacked
      rw [htasks] at hstacked
      refine h.proceed (fun more hmore => hstacked.step hsymm htask hmore) fun hexplicit e herr => ?_
      exact hstacked.failed herr fun r hin => hfails hexplicit e herr r (htasks ▸ hin)
  | begin =>
    unfold Session.step
    dsimp only
    split_ifs with hcond
    · have hidle := idle_iff.mp (Bool.and_eq_true_iff.mp hcond).1
      exact ⟨h.stacked, h.intact hidle, fun _ _ => rfl⟩
    · exact h
  | commit =>
    unfold Session.step
    dsimp only
    split_ifs with hcond
    · have hidle := idle_iff.mp (Bool.and_eq_true_iff.mp hcond).1
      exact ⟨h.stacked, h.intact hidle, fun _ _ => rfl⟩
    · exact h
  | rollback =>
    unfold Session.step
    dsimp only
    split_ifs with hcond
    · have hidle := idle_iff.mp (Bool.and_eq_true_iff.mp hcond).1
      refine ⟨.of_base (fun task htask => ?_) h.saved, h.saved, fun _ _ => rfl⟩
      dsimp only at htask
      rw [hidle] at htask
      exact absurd htask not_mem_nil
    · exact h

variable {t : TableDef}

variable {view : View}

theorem rowAt_clear {maps : List String} (h : t.mapName ∉ maps) (key : Key) :
    rowAt (view.clear maps) t key = rowAt view t key := by
  rw [rowAt, rowAt, View.clear, if_neg h]

theorem rowAt_cleared {maps : List String} (h : t.mapName ∈ maps)
    (key : Key) : rowAt (view.clear maps) t key = none := by
  rw [rowAt, View.clear, if_pos h, MVTree.get_empty, bind_none]

theorem intact_clear {name : String} {indexes : List IndexDef}
    (halone : cat.Alone t) (hnone : ∀ child fk, cat.Refers child fk →
      cat.getTable fk.foreignTable = some t → ∀ key, rowAt view child key = none)
    (h : Intact cat (rowAt view)) :
    Intact cat (rowAt (view.clear (t.mapName :: indexes.map (indexMapName name)))) := by
  have hmaps : ∀ t', cat.Contains t' → t' ≠ t →
      t'.mapName ∉ t.mapName :: indexes.map (indexMapName name) := by
    intro t' ht' hne hin
    rcases mem_cons.mp hin with hsame | hin
    · exact hne (halone t' ht' hsame)
    · obtain ⟨idx, -, hidx⟩ := mem_map.mp hin
      obtain ⟨own, hown⟩ := mapName_eq t'
      exact indexMapName_ne name own idx (hidx.trans hown)
  intro l hl v href
  obtain ⟨key, row, hrow, hv⟩ := href
  have hchild : l.child ≠ t := by
    intro heq
    rw [heq, rowAt_cleared mem_cons_self] at hrow
    cases hrow
  have hamong := Catalog.among_links hl
  rw [rowAt_clear (hmaps _ hamong.child hchild)] at hrow
  obtain ⟨t', key', row', p, hparent, hrow', hp, hagree⟩ :=
    (h l hl v ⟨key, row, hrow, hv⟩).resolve_right fun hfalse => hfalse
  have hne : t' ≠ t := by
    rintro rfl
    obtain ⟨child, fk, hrefers, rfl⟩ := hl
    cases (hnone child fk hrefers hparent key).symm.trans hrow
  refine .inl ⟨t', key', row', p, hparent, ?_, hp, hagree⟩
  rw [rowAt_clear (hmaps t' (hamong.parent t' hparent) hne), hrow']

theorem Sound.truncateTable {s s' : Session} (h : s.Sound cat) (hidle : s.tasks = []) {name : String}
    (htruncates : ∀ t, cat.getTable name = some t → Truncates cat s name t)
    (hok : s.truncateTable cat isQueue name = .ok s') : s'.Sound cat ∧ s'.tasks = [] := by
  unfold Session.truncateTable at hok
  split at hok
  · cases hok
  · rename_i t ht
    have htr := htruncates t ht
    split_ifs at hok
    split at hok
    · cases hok
    · rename_i hfind
      cases hok
      -- what the check has not found is not there
      have hview : ∀ child fk, cat.Refers child fk → cat.getTable fk.foreignTable = some t →
          ∀ key, rowAt s.view child key = none := by
        intro child fk hrefers hparent key
        have hmem : (child, fk) ∈ cat.getTablesReferencing name :=
          mem_getTablesReferencing.mpr ⟨hrefers, htr.named.known child fk hrefers hparent⟩
        have hempty : (s.view.seen.scan (tableMap child.name)).isEmpty = true := by
          simpa using List.find?_eq_none.mp hfind _ hmem
        rw [rowAt, (htr.children child fk hrefers hparent).1]
        cases hget : (s.view (tableMap child.name)).get key with
        | none => rfl
        | some bytes =>
          have hscan := View.mem_scan.mpr hget
          rw [isEmpty_iff.mp hempty] at hscan
          cases hscan
      have hsaved : ∀ child fk, cat.Refers child fk → cat.getTable fk.foreignTable = some t →
          ∀ key, rowAt s.saved child key = none := by
        intro child fk hrefers hparent key
        cases hexplicit : s.explicit with
        | true => exact (htr.children child fk hrefers hparent).2 hexplicit key
        | false =>
          rw [h.same hexplicit hidle]
          exact hview child fk hrefers hparent key
      refine ⟨⟨.of_base (fun task htask => ?_) (intact_clear htr.alone hview (h.intact hidle)),
        intact_clear htr.alone hsaved h.saved, fun hauto _ => ?_⟩, hidle⟩
      · dsimp only at htask
        rw [hidle] at htask
        exact absurd htask not_mem_nil
      · dsimp only at hauto ⊢
        rw [h.same hauto hidle]

theorem Sound.truncateTables {names : List String} (h : s.Sound cat)
    (hidle : s.tasks = []) (htruncates : TruncatesAll cat isQueue s names) :
    (s.truncateTables cat isQueue names).1.Sound cat ∧
      (s.truncateTables cat isQueue names).1.tasks = [] := by
  induction names generalizing s with
  | nil => exact ⟨h, hidle⟩
  | cons name names ih =>
    unfold Session.truncateTables
    split
    · exact ⟨h, hidle⟩
    · rename_i s' hok
      obtain ⟨h', hidle'⟩ := h.truncateTable hidle htruncates.1 hok
      exact ih h' hidle' (htruncates.2 s' hok)

theorem Sound.sqlStep (hsymm : Crates.Symmetric) (h : s.Sound cat) {a : SqlAction}
    (hminds : s.Minds cat isQueue a) : (s.sqlStep cat isQueue a).Sound cat := by
  cases a with
  | session a => exact h.step hsymm hminds
  | truncate names committed =>
    unfold Session.sqlStep
    dsimp only
    split_ifs with hidle
    · obtain ⟨h', hidle'⟩ := h.truncateTables (idle_iff.mp hidle) hminds
      refine h'.proceed (fun more hmore => ?_) fun _ _ _ => h'.intact hidle'
      obtain ⟨u, -, rfl⟩ := H2Result.map_eq_ok.mp hmore
      exact .of_base (fun _ htask => absurd htask not_mem_nil) (h'.intact hidle')
    · exact h

end Session

/-- In a run whose steps mind the references every value that refers to a parent has one, whenever no
statement is going on. -/
theorem references_intact (hsymm : Crates.Symmetric) {s : Session} (hs : s.Sound cat)
    {as : List SqlAction}
    (hminds : Meets (Session.sqlStep cat isQueue) (Session.Minds cat isQueue) s as)
    (hidle : (runs (Session.sqlStep cat isQueue) s as).idle = true) :
    Intact cat (rowAt (runs (Session.sqlStep cat isQueue) s as).view) := by
  have hrun : (runs (Session.sqlStep cat isQueue) s as).Sound cat :=
    invariant_runs (fun _ _ h hm => h.sqlStep hsymm hm) hs hminds
  exact hrun.intact (Session.idle_iff.mp hidle)

end

section

attribute [local instance] plainCrates

theorem symmetric_plain : Crates.Symmetric := ⟨fun _ _ => rfl, fun _ _ => rfl⟩

theorem contains_family {t : TableDef} (h : family.Contains t) : t = parentTable ∨ t = childTable := by
  obtain ⟨key, hkey⟩ := h
  simp only [family, mem_cons, not_mem_nil, or_false, Prod.mk.injEq] at hkey
  rcases hkey with ⟨-, rfl⟩ | ⟨-, rfl⟩ | ⟨-, rfl⟩ | ⟨-, rfl⟩
  · exact .inl rfl
  · exact .inl rfl
  · exact .inr rfl
  · exact .inr rfl

def childKey : ForeignKeyDef := ⟨"a", "p", "id", .cascade, .noAction⟩

theorem refers_family {child : TableDef} {fk : ForeignKeyDef} (h : family.Refers child fk) :
    child = childTable ∧ fk = childKey := by
  have hmem := h.mem
  rcases contains_family h.contains with rfl | rfl
  · cases hmem
  · exact ⟨rfl, mem_singleton.mp hmem⟩

theorem getTable_family : family.getTable "p" = some parentTable := by rfl

theorem alone_family {t : TableDef} (h : t = parentTable ∨ t = childTable) : family.Alone t := by
  intro t' ht' hmap
  have hne : parentTable.mapName ≠ childTable.mapName := by decide +kernel
  rcases contains_family ht' with rfl | rfl <;> rcases h with rfl | rfl
  · rfl
  · exact absurd hmap hne
  · exact absurd hmap.symm hne
  · rfl

theorem named_family_p : family.Named "p" parentTable where
  found := getTable_family
  known child fk hrefers _ := by
    obtain ⟨rfl, rfl⟩ := refers_family hrefers
    rfl

theorem named_family_c : family.Named "c" childTable where
  found := by rfl
  known child fk hrefers hparent := by
    obtain ⟨rfl, rfl⟩ := refers_family hrefers
    have hname := congrArg TableDef.name (Option.some.inj (getTable_family.symm.trans hparent))
    exact absurd hname (by decide)

def familyRun : List SqlAction :=
  [.session (.execute (.insert (insertInto "p" [.integer 1]))), .session .advance, .session .advance,
    .session (.execute (.insert (insertInto "c" [.integer 1, .integer 2]))), .session .advance,
    .session .advance, .session (.execute (.delete (deleteFrom "p"))), .session .advance,
    .session .advance, .session .advance, .session .advance, .session .advance, .session .advance,
    .session .advance]

theorem references_intact_family : Intact family (rowAt (runs
    (Session.sqlStep family fun _ => false) (Session.new fun _ => 1) familyRun).view) := by
  have hfree : ∀ {s : Session} {task : Task}, s.tasks.head? = some task → s.explicit = false →
      task.Minds family s.view s.counters → s.Minds family (fun _ => false) (.session .advance) := by
    intro s task hhead hauto hminds task' rest htasks
    rw [htasks] at hhead
    cases hhead
    exact ⟨hminds, fun hexplicit => by rw [hauto] at hexplicit; cases hexplicit⟩
  refine references_intact symmetric_plain (Session.sound_new family _) ?_ (by decide +kernel)
  have hp : family.Alone parentTable := alone_family (Or.inl rfl)
  have hc : family.Alone childTable := alone_family (Or.inr rfl)
  have hback : ∀ {t : TableDef} {row : Row}, t.readRow row.toBytes = .ok row → KeepsLinks family t row :=
    fun hread => ⟨_, hread, fun _ _ => rfl, fun _ _ _ _ => rfl⟩
  refine ⟨trivial, hfree rfl rfl ⟨?_, ?_⟩, hfree rfl rfl trivial, trivial, hfree rfl rfl ⟨?_, ?_⟩,
    hfree rfl rfl trivial, trivial, hfree rfl rfl named_family_p,
      hfree rfl rfl ⟨rfl, fun _ => named_family_c⟩,
    hfree rfl rfl trivial, hfree rfl rfl ⟨rfl, hc, ?_⟩, hfree rfl rfl ⟨rfl, fun _ => named_family_c⟩,
    hfree rfl rfl ⟨hp, ?_⟩, hfree rfl rfl trivial, trivial⟩
  · intro row rowId counters' hcheck hid
    cases hcheck
    cases hid
    exact ⟨hp, rfl, hback rfl, fun fk hfk => absurd hfk not_mem_nil⟩
  · intro row found hcheck
    cases hcheck
  · intro row rowId counters' hcheck hid
    cases hcheck
    cases hid
    refine ⟨hc, rfl, hback rfl, fun fk hfk _ parent hparent => ?_⟩
    rw [mem_singleton.mp hfk] at hparent ⊢
    rw [← Option.some.inj (getTable_family.symm.trans hparent)]
    decide +kernel
  · intro row found hcheck
    cases hcheck
  · intro now hnow child fk _ _
    cases hnow
    rfl
  · intro now hnow child fk _ _
    cases hnow
    rfl

theorem parent_of_intact {rows : Rows TableDef Key Row} (hintact : Intact family rows)
    (hchild : ((rows childTable (rowKey 1)).any fun row =>
      (foreignValue childTable childKey row).isSome) = true) :
    ∃ key prow, rows parentTable key = some prow := by
  obtain ⟨row, hrow, hsome⟩ := (any_eq_true _ _).mp hchild
  obtain ⟨v, hv⟩ := isSome_iff_exists.mp hsome
  have hrefers : family.Refers childTable childKey := ⟨⟨"c", by simp [family]⟩, mem_singleton.mpr rfl⟩
  have hoffered := hintact _ (Catalog.link_mem hrefers) v ⟨rowKey 1, row, hrow, hv⟩
  obtain ⟨t, key, prow, p, ht, hprow, -⟩ := hoffered.resolve_right fun hfalse => hfalse
  cases Option.some.inj (getTable_family.symm.trans ht)
  exact ⟨key, prow, hprow⟩

def copyInto (table : String) (records : List (List String)) : CopyFrom :=
  ⟨table, [], records, fun _ _ => .ok 0⟩

def copyRun : List SqlAction :=
  [.session (.execute (.copyFrom (copyInto "c" [["7", "1"]]))), .session .advance]

/-- `COPY` brings a child row whose parent is not there. -/
theorem copy_breaks_references : ¬∀ as : List SqlAction,
    let s := runs (Session.sqlStep family fun _ => false) (Session.new fun _ => 1) as
    s.idle = true → s.result = .ok () → Intact family (rowAt s.view) := by
  intro h
  have hintact := h copyRun (by decide +kernel) (by decide +kernel)
  set view := (runs (Session.sqlStep family fun _ => false) (Session.new fun _ => 1) copyRun).view with hview
  have hchild : ((rowAt view childTable (rowKey 1)).any fun row =>
      (foreignValue childTable childKey row).isSome) = true := by
    rw [hview]
    decide +kernel
  have hparents : view.seen.scan parentTable.mapName = [] := by
    rw [hview]
    decide +kernel
  obtain ⟨key, prow, hprow⟩ := parent_of_intact hintact hchild
  obtain ⟨bytes, hbytes, -⟩ := bind_eq_some_iff.mp hprow
  have hscan := View.mem_scan.mpr hbytes
  rw [hparents] at hscan
  cases hscan

end

end H2Database.Sql
