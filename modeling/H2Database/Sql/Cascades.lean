import H2Database.Sql.References

/-!
# Foreign-key actions

A row is deleted after its child rows have been seen to, and theirs before them; a row is updated after
its child rows have been given its new value.  While that goes on, each task that takes a row away has
those tasks before it on the stack that take care of the rows that refer to it.
-/

namespace H2Database.Sql

open Reasoning Mvstore List

variable [Crates] {cat : Catalog} {view : View}

/-! ## Child rows that are seen to -/

def Task.Unties (child : TableDef) (fk : ForeignKeyDef) (key : Key) (p : Value) : Task → Prop
  | .dropChild child' _ key' _ => child' = child ∧ key' = key
  | .setChild s => s.child = child ∧ s.key = key ∧ child.columnIndex fk.column = some s.column ∧
      (s.newVal.isNull = false → p.eq s.newVal = false)
  | _ => False

def Untied (rows : Rows TableDef Key Row) (tasks : List Task) (child : TableDef) (fk : ForeignKeyDef)
    (p : Value) : Prop :=
  ∀ key row v, rows child key = some row → foreignValue child fk row = some v → p.eq v = true →
    ∃ task ∈ tasks, task.Unties child fk key p

variable {rows : Rows TableDef Key Row} {tasks more : List Task} {child t parentDef : TableDef}
  {fk : ForeignKeyDef} {p : Value} {parent : String} {row : Row}

theorem Untied.mono {tasks' : List Task} (h : Untied rows tasks child fk p)
    (hsub : ∀ key, ∀ task ∈ tasks, task.Unties child fk key p → task ∈ tasks') :
    Untied rows tasks' child fk p := by
  intro key row v hrow hv heq
  obtain ⟨task, htask, hunties⟩ := h key row v hrow hv heq
  exact ⟨task, hsub key task htask hunties, hunties⟩

variable {rows' : Rows TableDef Key Row} {task : Task}

theorem Untied.replaced {tables : Set TableDef}
    (h : Untied rows (task :: tasks) child fk p) {key : Key} {new : Option Row}
    (hrows : Replaced tables rows rows' t key new) (hchild : child ∈ tables)
    (htask : ∀ key', task.Unties child fk key' p → child = t ∧ key' = key)
    (hnew : child = t → ∀ row v, new = some row → foreignValue child fk row = some v →
      p.eq v = true → ∃ task ∈ tasks, task.Unties child fk key p) :
    Untied rows' tasks child fk p := by
  intro key' row v hrow hv heq
  by_cases hsame : child = t ∧ key' = key
  · rw [hsame.1, hsame.2, hrows.self] at hrow
    rw [hsame.2]
    exact hnew hsame.1 row v hrow hv heq
  · rw [hrows.others child hchild key' hsame] at hrow
    obtain ⟨task', htask', hunties⟩ := h key' row v hrow hv heq
    rcases mem_cons.mp htask' with rfl | hin
    · exact absurd (htask key' hunties) hsame
    · exact ⟨task', hin, hunties⟩

theorem Untied.set {s : SetChild} {view' : View} (h : Untied (rowAt view) (.setChild s :: tasks) child fk p)
    (hs : SetsLink cat view s)
    (hw : WritesRow view view' (.put (tableMap s.child.name) s.key
      (Row.toBytes (s.row.set s.column s.newVal)))) (hrefers : cat.Refers child fk)
    (hval : child.columnIndex fk.column = some s.column → child = s.child → s.newVal.isNull = false →
      p.eq s.newVal = false) :
    Untied (rowAt view') tasks child fk p := by
  obtain ⟨back, hback, hforeign, -⟩ := hs.back
  have hreplaced := hw.replaced hs.isPublic hs.alone
  rw [Write.value, Option.bind_some, hback] at hreplaced
  refine h.replaced hreplaced hrefers.contains (fun key' hunties => ?_) fun hchild row v hrow hv heq => ?_
  · exact ⟨hunties.1.symm, hunties.2.1.symm⟩
  · subst hchild
    cases hrow
    rw [hforeign fk hrefers.mem] at hv
    rcases foreignValue_set hv with ⟨hcolumn, rfl, hnull⟩ | ⟨hcolumn, hbefore⟩
    · rw [hval hcolumn rfl hnull] at heq
      cases heq
    · -- the row refers to the value by another column, so the task that sees to it is another
      obtain ⟨task, htask, hunties⟩ := h s.key s.row v hs.current hbefore heq
      rcases mem_cons.mp htask with rfl | hin
      · exact absurd hunties.2.2.1 hcolumn
      · exact ⟨task, hin, hunties⟩

/-! ## What the tasks of foreign keys give -/

omit [Crates] in
theorem mem_getTablesReferencing {p : TableDef × ForeignKeyDef} :
    p ∈ cat.getTablesReferencing parent ↔ cat.Refers p.1 p.2 ∧ p.2.foreignTable = parent := by
  unfold Catalog.getTablesReferencing
  rw [mem_flatMap]
  constructor
  · rintro ⟨⟨key, t⟩, hin, hp⟩
    obtain ⟨fk, hfk, rfl⟩ := mem_map.mp hp
    obtain ⟨hmem, htable⟩ := mem_filter.mp hfk
    exact ⟨⟨⟨key, hin⟩, hmem⟩, of_decide_eq_true htable⟩
  · rintro ⟨⟨⟨key, hin⟩, hmem⟩, htable⟩
    refine ⟨(key, p.1), hin, mem_map.mpr ⟨p.2, ?_, rfl⟩⟩
    exact mem_filter.mpr ⟨hmem, decide_eq_true htable⟩

omit [Crates] in
theorem Catalog.Named.deleteChildren_mem (h : cat.Named parent t) (row : Row) (hrefers : cat.Refers child fk)
    (hparent : cat.getTable fk.foreignTable = some t) :
    .deleteChildren parent t row child fk ∈ handleForeignKeysOnDelete cat parent row := by
  unfold handleForeignKeysOnDelete
  rw [h.found]
  exact mem_map.mpr ⟨(child, fk),
    mem_getTablesReferencing.mpr ⟨hrefers, h.known child fk hrefers hparent⟩, rfl⟩

omit [Crates] in
theorem Catalog.Named.updateChildren_mem (h : cat.Named parent t) (old new : Row)
    (hrefers : cat.Refers child fk) (hparent : cat.getTable fk.foreignTable = some t) :
    .updateChildren parent t old new child fk ∈ handleForeignKeysOnUpdate cat parent old new := by
  unfold handleForeignKeysOnUpdate
  rw [h.found]
  exact mem_map.mpr ⟨(child, fk),
    mem_getTablesReferencing.mpr ⟨hrefers, h.known child fk hrefers hparent⟩, rfl⟩

theorem eq_null {v : Value} (hp : p.isNull = true) (hv : v.isNull = false) : p.eq v = false := by
  cases p <;> first | (cases hp; done) | skip
  cases v <;> first | (cases hv; done) | rfl

theorem deleteChildren_ok (hsymm : Crates.Symmetric)
    (h : deleteChildren cat view.seen parent parentDef row child fk = .ok more)
    (hpublic : child.mapName = tableMap child.name) (hp : keyValue parentDef fk row = some p) :
    Untied (rowAt view) more child fk p := by
  intro key crow v hrow hv heq
  obtain ⟨i, hi, hval, hnull⟩ := foreignValue_eq_some.mp hv
  unfold deleteChildren at h
  unfold keyValue at hp
  rw [hp] at h
  dsimp only at h
  split_ifs at h with hpnull
  · rw [eq_null hpnull hnull] at heq
    cases heq
  · rw [hi] at h
    dsimp only at h
    obtain ⟨children, hchildren, h⟩ := H2Result.bind_eq_ok.mp h
    rw [Value.eq_comm hsymm] at heq
    have hmem := mem_matchingChildRows hchildren hpublic hrow hval heq
    split_ifs at h with hempty
    · rw [isEmpty_iff.mp hempty] at hmem
      cases hmem
    · split at h
      · cases h
      · cases h
      · cases h
        refine ⟨_, mem_flatMap.mpr ⟨_, hmem, mem_cons_of_mem _ mem_cons_self⟩, ?_⟩
        exact ⟨rfl, rfl⟩
      · cases h
        refine ⟨_, mem_map.mpr ⟨_, hmem, rfl⟩, rfl, rfl, hi, fun hnew => ?_⟩
        cases hnew

theorem deleteChildren_cases (h : deleteChildren cat view.seen parent parentDef row child fk = .ok more) :
    more = [] ∨
    (∃ children : List (Key × Row), fk.onDelete = .cascade ∧ more = children.flatMap fun p =>
      [.onDelete child.name p.2, .dropChild child (cat.getTableIndexes child.name) p.1 p.2]) ∨
    ∀ task ∈ more, ∃ s, task = .setChild s ∧ s.newVal.isNull = true := by
  rcases deleteChildren_tasks h with hnil |
    ⟨val, column, children, _, _, _, _, ⟨haction, heq⟩ | ⟨haction, heq⟩⟩
  · exact .inl hnil
  · exact .inr (.inl ⟨children, haction, heq⟩)
  · refine .inr (.inr fun task htask => ?_)
    rw [heq] at htask
    obtain ⟨p, _, hp⟩ := mem_map.mp htask
    exact ⟨_, hp.symm, rfl⟩

theorem updateChildren_ok (hsymm : Crates.Symmetric) {old new : Row}
    (h : updateChildren cat view.seen parent parentDef old new child fk = .ok more)
    (hpublic : child.mapName = tableMap child.name) {q : Value} (hp : keyValue parentDef fk old = some p)
    (hq : keyValue parentDef fk new = some q) (hne : p.eq q = false) :
    Untied (rowAt view) more child fk p := by
  intro key crow v hrow hv heq
  obtain ⟨i, hi, hval, hnull⟩ := foreignValue_eq_some.mp hv
  obtain ⟨j, hj, hp⟩ := Option.bind_eq_some_iff.mp hp
  rw [keyValue, hj, Option.bind_some] at hq
  unfold updateChildren at h
  rw [hj] at h
  dsimp only at h
  rw [hp, hq] at h
  dsimp only at h
  rw [hne, Bool.false_or] at h
  split_ifs at h with hpnull
  · rw [eq_null hpnull hnull] at heq
    cases heq
  · rw [hi] at h
    dsimp only at h
    obtain ⟨children, hchildren, h⟩ := H2Result.bind_eq_ok.mp h
    rw [Value.eq_comm hsymm] at heq
    have hmem := mem_matchingChildRows hchildren hpublic hrow hval heq
    split_ifs at h with hempty
    · rw [isEmpty_iff.mp hempty] at hmem
      cases hmem
    · split at h
      · cases h
      · cases h
      · cases h
        exact ⟨_, mem_map.mpr ⟨_, hmem, rfl⟩, rfl, rfl, hi, fun _ => hne⟩
      · cases h
        refine ⟨_, mem_map.mpr ⟨_, hmem, rfl⟩, rfl, rfl, hi, fun hnew => ?_⟩
        cases hnew

/-! ## Deletions -/

def Task.IsDeletion : Task → Prop
  | .onDelete _ _ | .deleteChildren _ _ _ _ _ | .dropChild _ _ _ _ | .dropRow _ _ _ _ _ => True
  | .setChild s => s.newVal.isNull = true
  | _ => False

def Task.goes : Task → Option (TableDef × Row)
  | .dropRow t _ _ _ row => some (t, row)
  | .dropChild child _ _ row => some (child, row)
  | _ => none

def Covers (cat : Catalog) (rows : Rows TableDef Key Row) (tasks : List Task) (t : TableDef)
    (row : Row) : Prop :=
  ∀ child fk, cat.Refers child fk → cat.getTable fk.foreignTable = some t →
    ∀ p, keyValue t fk row = some p →
      (∃ parent, Task.deleteChildren parent t row child fk ∈ tasks) ∨
      (∃ parent, cat.Named parent t ∧ Task.onDelete parent row ∈ tasks) ∨
      Untied rows tasks child fk p

/-- The tasks before each task that takes a row away see to the rows that refer to it. -/
def Covered (cat : Catalog) (rows : Rows TableDef Key Row) (tasks : List Task) : Prop :=
  ∀ before task after t row, tasks = before ++ task :: after → task.goes = some (t, row) →
    Covers cat rows before t row

theorem covered_nil (rows : Rows TableDef Key Row) : Covered cat rows [] := by
  intro before task after t row h
  cases before <;> cases h

theorem covered_of_stays (h : ∀ task ∈ tasks, task.goes = none) : Covered cat rows tasks := by
  rintro before task after t row rfl hgoes
  rw [h task (mem_append_right _ mem_cons_self)] at hgoes
  cases hgoes

theorem covered_concat {last : Task} (hstay : ∀ task ∈ tasks, task.goes = none)
    (hlast : ∀ t row, last.goes = some (t, row) → Covers cat rows tasks t row) :
    Covered cat rows (tasks ++ [last]) := by
  intro before task after t row hsplit hgoes
  rcases eq_nil_or_concat after with rfl | ⟨after, x, rfl⟩
  · obtain ⟨rfl, hone⟩ := append_inj' hsplit rfl
    cases hone
    exact hlast t row hgoes
  · rw [concat_eq_append, ← cons_append, ← append_assoc] at hsplit
    obtain ⟨rfl, -⟩ := append_inj' hsplit rfl
    rw [hstay task (mem_append_right _ mem_cons_self)] at hgoes
    cases hgoes

theorem Covered.step {rows rows' : Rows TableDef Key Row}
    (h : Covered cat rows (task :: tasks)) (hmore : Covered cat rows' more)
    (hcovers : ∀ before t row, Covers cat rows (task :: before) t row →
      Covers cat rows' (more ++ before) t row) : Covered cat rows' (more ++ tasks) := by
  intro before task' after t row hsplit hgoes
  rcases append_eq_append_iff.mp hsplit with ⟨front, rfl, hrest⟩ | ⟨back, hfront, hback⟩
  · exact hcovers front t row (h (task :: front) task' after t row (by rw [hrest]; rfl) hgoes)
  · cases back with
    | nil =>
      rw [append_nil] at hfront
      rw [← hfront, ← append_nil more]
      refine hcovers [] t row (h [task] task' after t row ?_ hgoes)
      rw [nil_append] at hback
      rw [← hback]
      rfl
    | cons b back =>
      obtain ⟨rfl, -⟩ := cons_eq_cons.mp hback
      exact hmore before task' back t row hfront hgoes

theorem Covers.onDelete {asked : Row} (h : Covers cat rows (.onDelete parent asked :: tasks) t row) :
    Covers cat rows (handleForeignKeysOnDelete cat parent asked ++ tasks) t row := by
  intro child fk hrefers hparent p hp
  rcases h child fk hrefers hparent p hp with ⟨parent', hin⟩ | ⟨parent', hnamed, hin⟩ | huntied
  · rcases mem_cons.mp hin with heq | hin
    · cases heq
    · exact .inl ⟨parent', mem_append_right _ hin⟩
  · rcases mem_cons.mp hin with heq | hin
    · cases heq
      exact .inl ⟨parent, mem_append_left _ (hnamed.deleteChildren_mem row hrefers hparent)⟩
    · exact .inr (.inl ⟨parent', hnamed, mem_append_right _ hin⟩)
  · refine .inr (.inr (huntied.mono fun key task htask hunties => ?_))
    rcases mem_cons.mp htask with rfl | hin
    · cases hunties
    · exact mem_append_right _ hin

theorem Covers.deleteChildren (hsymm : Crates.Symmetric) {asked : Row}
    (hmore : Sql.deleteChildren cat view.seen parent parentDef asked child fk = .ok more)
    (hpublic : child.mapName = tableMap child.name)
    (h : Covers cat (rowAt view) (.deleteChildren parent parentDef asked child fk :: tasks) t row) :
    Covers cat (rowAt view) (more ++ tasks) t row := by
  intro child' fk' hrefers hparent p hp
  rcases h child' fk' hrefers hparent p hp with ⟨parent', hin⟩ | ⟨parent', hnamed, hin⟩ | huntied
  · rcases mem_cons.mp hin with heq | hin
    · cases heq
      refine .inr (.inr ((deleteChildren_ok hsymm hmore hpublic hp).mono ?_))
      exact fun key task htask _ => mem_append_left _ htask
    · exact .inl ⟨parent', mem_append_right _ hin⟩
  · rcases mem_cons.mp hin with heq | hin
    · cases heq
    · exact .inr (.inl ⟨parent', hnamed, mem_append_right _ hin⟩)
  · refine .inr (.inr (huntied.mono fun key task htask hunties => ?_))
    rcases mem_cons.mp htask with rfl | hin
    · cases hunties
    · exact mem_append_right _ hin

theorem Covers.write (h : Covers cat rows (task :: tasks) t row)
    (hdelete : ∀ parent parentDef asked child fk, task ≠ .deleteChildren parent parentDef asked child fk)
    (hon : ∀ parent asked, task ≠ .onDelete parent asked)
    (huntied : ∀ child fk p, cat.Refers child fk → Untied rows (task :: tasks) child fk p →
      Untied rows' tasks child fk p) : Covers cat rows' tasks t row := by
  intro child fk hrefers hparent p hp
  rcases h child fk hrefers hparent p hp with ⟨parent, hin⟩ | ⟨parent, hnamed, hin⟩ | hbefore
  · exact .inl ⟨parent, (mem_cons.mp hin).resolve_left fun heq => hdelete _ _ _ _ _ heq.symm⟩
  · exact .inr (.inl ⟨parent, hnamed,
      (mem_cons.mp hin).resolve_left fun heq => hon _ _ heq.symm⟩)
  · exact .inr (.inr (huntied child fk p hrefers hbefore))

theorem Covers.unreferenced (h : Covers cat rows [] t row) : Unreferenced cat rows t row := by
  intro child fk hrefers hparent v href p hp
  obtain ⟨key, crow, hrow, hv⟩ := href
  rcases h child fk hrefers hparent p hp with ⟨parent, hin⟩ | ⟨parent, -, hin⟩ | huntied
  · cases hin
  · cases hin
  · by_contra heq
    obtain ⟨task, htask, -⟩ := huntied key crow v hrow hv (Bool.eq_true_of_not_eq_false heq)
    cases htask

theorem covered_children {indexes : List IndexDef} (hnamed : cat.Named child.name child)
    (children : List (Key × Row)) :
    Covered cat rows (children.flatMap fun p =>
      [.onDelete child.name p.2, .dropChild child indexes p.1 p.2]) := by
  have hasked : ∀ before task after, (children.flatMap fun p =>
      [Task.onDelete child.name p.2, .dropChild child indexes p.1 p.2]) = before ++ task :: after →
      ∀ t row, task.goes = some (t, row) → t = child ∧ .onDelete child.name row ∈ before := by
    induction children with
    | nil =>
      intro before task after h
      cases before <;> cases h
    | cons p children ih =>
      intro before task after h t row hgoes
      rw [flatMap_cons] at h
      cases before with
      | nil =>
        cases h
        cases hgoes
      | cons first before =>
        cases before with
        | nil =>
          cases h
          cases hgoes
          exact ⟨rfl, mem_cons_self⟩
        | cons second before =>
          injection h with h₁ h₂
          injection h₂ with h₂ h₃
          obtain ⟨ht, hin⟩ := ih before task after h₃ t row hgoes
          exact ⟨ht, mem_cons_of_mem _ (mem_cons_of_mem _ hin)⟩
  intro before task after t row hsplit hgoes
  obtain ⟨rfl, hin⟩ := hasked before task after hsplit t row hgoes
  exact fun child' fk hrefers hparent p hp => Or.inr (.inl ⟨_, hnamed, hin⟩)

end H2Database.Sql
