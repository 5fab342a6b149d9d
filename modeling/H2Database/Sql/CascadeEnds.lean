import H2Database.Reasoning.TaskStack
import H2Database.Sql.Careful
import H2Database.Sql.Cascades
import H2Database.Sql.MapNames
import Mathlib.Order.WellFounded

/-!
# Cascades that end (`h2-sql/src/executor/foreign_key.rs`)

`handle_foreign_keys_on_delete` calls itself for each child row that `CASCADE` takes away, and the row is
removed when that call has returned.  The calls end if the references that cascade do not lead on for ever,
and where nothing else than `CASCADE` can stop them, only then: a row that refers to itself is visited again
and again.
-/

namespace H2Database.Sql

open Reasoning Mvstore List

section

variable [Crates]

/-! ## Calls that return -/

def taskStep (cat : Catalog) (s : View × Counters) (task : Task) : Option ((View × Counters) × List Task) :=
  let outcome := task.run cat s.1 s.2
  outcome.result.toOption.map fun more => ((outcome.view, outcome.counters), more)

variable {cat : Catalog} {view : View}

variable {task : Task}

theorem taskStep_of_error {counters : Counters} {e : H2Error}
    (h : (task.run cat view counters).result = .error e) : taskStep cat (view, counters) task = none := by
  rw [taskStep, h]
  rfl

theorem taskStep_of_ok {counters : Counters} {more : List Task}
    (h : (task.run cat view counters).result = .ok more) : taskStep cat (view, counters) task =
      some (((task.run cat view counters).view, (task.run cat view counters).counters), more) := by
  rw [taskStep, h]
  rfl

theorem of_taskStep_eq_some {st st' : View × Counters} {more : List Task}
    (h : taskStep cat st task = some (st', more)) : (task.run cat st.1 st.2).result = .ok more ∧
      st' = ((task.run cat st.1 st.2).view, (task.run cat st.1 st.2).counters) := by
  obtain ⟨more', hmore, heq⟩ := Option.map_eq_some_iff.mp h
  cases heq
  cases hresult : (task.run cat st.1 st.2).result with
  | error e =>
    rw [hresult] at hmore
    cases hmore
  | ok tasks =>
    rw [hresult] at hmore
    cases hmore
    exact ⟨rfl, rfl⟩

namespace Session

def Returns (cat : Catalog) (s : Session) : Prop :=
  ∃ n, (runs (step cat) s (List.replicate n .advance)).idle = true

/-- `handle_foreign_keys_on_delete` is called for a row. -/
def handlingOnDelete (s : Session) (parent : String) (row : Row) : Session :=
  { s with tasks := [.onDelete parent row] }

variable {s : Session} {cat : Catalog}

omit [Crates] in
theorem proceed_of_error {o : Outcome} {e : H2Error} (h : o.result = .error e) (rest : List Task) :
    (s.proceed o rest).tasks = [] := by
  rw [proceed, h]

omit [Crates] in
theorem proceed_of_ok {o : Outcome} {more : List Task} (h : o.result = .ok more) (rest : List Task) :
    ((s.proceed o rest).view, (s.proceed o rest).counters) = (o.view, o.counters) ∧
      (s.proceed o rest).tasks = more ++ rest := by
  rw [proceed, h]
  exact ⟨rfl, rfl⟩

theorem step_advance {task : Task} {rest : List Task} (h : s.tasks = task :: rest) :
    s.step cat .advance = s.proceed (task.run cat s.view s.counters) rest := by
  rw [step, h]

theorem ends_of_returns (h : s.Returns cat) : Ends (taskStep cat) (s.view, s.counters) s.tasks := by
  obtain ⟨n, hidle⟩ := h
  induction n generalizing s with
  | zero =>
    rw [replicate_zero, runs_nil, idle_iff] at hidle
    rw [hidle]
    exact .nil _
  | succ n ih =>
    rw [replicate_succ, runs_cons] at hidle
    cases htasks : s.tasks with
    | nil => exact .nil _
    | cons task rest =>
      rw [step_advance htasks] at hidle
      cases hresult : (task.run cat s.view s.counters).result with
      | error e => exact .stop (taskStep_of_error hresult)
      | ok more =>
        obtain ⟨hst, hmore⟩ := proceed_of_ok (s := s) hresult rest
        have hends := ih hidle
        rw [hst, hmore] at hends
        exact .step (taskStep_of_ok hresult) hends

theorem returns_of_nil (h : s.tasks = []) : s.Returns cat := ⟨0, idle_iff.mpr h⟩

theorem returns_of_step (h : (s.step cat .advance).Returns cat) : s.Returns cat := by
  obtain ⟨n, hidle⟩ := h
  exact ⟨n + 1, by rwa [replicate_succ, runs_cons]⟩

theorem returns_of_ends {st : View × Counters} {tasks : List Task} (h : Ends (taskStep cat) st tasks)
    (hst : (s.view, s.counters) = st) (htasks : s.tasks = tasks) : s.Returns cat := by
  induction h generalizing s with
  | nil st => exact returns_of_nil htasks
  | @stop st task rest hstop =>
    subst hst
    apply returns_of_step
    rw [step_advance htasks]
    cases hresult : (task.run cat s.view s.counters).result with
    | error e => exact returns_of_nil (proceed_of_error hresult rest)
    | ok more =>
      rw [taskStep_of_ok hresult] at hstop
      cases hstop
  | @step st st' task more rest hrun _ ih =>
    subst hst
    apply returns_of_step
    rw [step_advance htasks]
    cases hresult : (task.run cat s.view s.counters).result with
    | error e =>
      rw [taskStep_of_error hresult] at hrun
      cases hrun
    | ok more' =>
      rw [taskStep_of_ok hresult] at hrun
      cases hrun
      obtain ⟨hst, hmore⟩ := proceed_of_ok (s := s) hresult rest
      exact ih hst hmore

theorem returns_iff : s.Returns cat ↔ Ends (taskStep cat) (s.view, s.counters) s.tasks :=
  ⟨ends_of_returns, fun h => returns_of_ends h rfl rfl⟩

end Session

/-! ## Where cascades lead -/

/-- What the map of a table may come to hold: what is visible, and what `SET NULL` makes of it. -/
inductive Possible (cat : Catalog) (view : View) : String → List UInt8 → Prop
  | visible {name : String} {key : Key} {bytes : List UInt8}
      (h : (view (tableMap name)).get key = some bytes) : Possible cat view name bytes
  | cleared {child : TableDef} {fk : ForeignKeyDef} {column : Nat} {bytes : List UInt8} {row : Row}
      (hrefers : cat.Refers child fk) (haction : fk.onDelete = .setNull)
      (hcolumn : child.columnIndex fk.column = some column) (hread : child.readRow bytes = .ok row)
      (h : Possible cat view child.name bytes) :
      Possible cat view child.name (Row.toBytes (row.set column .null))

/-- The row of the child table has the value of the row of the parent table. -/
def RefersBy (parentDef : TableDef) (row : Row) (child : TableDef) (fk : ForeignKeyDef) (crow : Row) : Prop :=
  ∃ val column v, keyValue parentDef fk row = some val ∧ val.isNull = false ∧
    child.columnIndex fk.column = some column ∧ crow[column]? = some v ∧ v.eq val = true

/-- A row that the child table may come to hold refers to the row. -/
structure RefersTo (cat : Catalog) (view : View) (parentDef : TableDef) (row : Row) (child : TableDef)
    (fk : ForeignKeyDef) (crow : Row) : Prop where
  possible : ∃ bytes, Possible cat view child.name bytes ∧ child.readRow bytes = .ok crow
  refers : RefersBy parentDef row child fk crow

/-- `CASCADE` leads from a row of one table to a row of another. -/
inductive Cascades (cat : Catalog) (view : View) : String × Row → String × Row → Prop
  | intro {parent : String} {parentDef child : TableDef} {fk : ForeignKeyDef} {row crow : Row}
      (hparent : cat.getTable parent = some parentDef) (hrefers : cat.Refers child fk)
      (hname : fk.foreignTable = parent) (haction : fk.onDelete = .cascade)
      (h : RefersTo cat view parentDef row child fk crow) :
      Cascades cat view (parent, row) (child.name, crow)

def Endless (cat : Catalog) (view : View) (start : String × Row) : Prop :=
  ∃ chain : Nat → String × Row, chain 0 = start ∧ ∀ n, Cascades cat view (chain n) (chain (n + 1))

theorem endless_iff {start : String × Row} :
    Endless cat view start ↔ ¬Acc (fun y x => Cascades cat view x y) start := by
  rw [not_acc_iff_exists_descending_chain, Endless]

theorem Endless.step {x : String × Row} (h : Endless cat view x) :
    ∃ y, Cascades cat view x y ∧ Endless cat view y := by
  obtain ⟨y, hy, hstep⟩ := exists_not_acc_lt_of_not_acc (endless_iff.mp h)
  exact ⟨y, hstep, endless_iff.mpr hy⟩

theorem Cascades.endless {x y : String × Row} (h : Cascades cat view x y)
    (hy : Endless cat view y) : Endless cat view x :=
  endless_iff.mpr fun hacc => endless_iff.mp hy (hacc.inv h)

/-! ## Cascades that lead nowhere return -/

section

variable {cat : Catalog} {view : View}

def Expected (cat : Catalog) (view : View) (st : View × Counters) : Prop :=
  ∀ name key bytes, (st.1 (tableMap name)).get key = some bytes → Possible cat view name bytes

variable {st : View × Counters}

theorem Expected.removed {view' : View} {name : String} {key : Key}
    (h : Expected cat view st) (hw : WritesRow st.1 view' (.remove (tableMap name) key)) :
    Expected cat view (view', st.2) := by
  intro name' key' bytes hbytes
  apply h name' key' bytes
  rw [hw, Write.at_eq] at hbytes
  split_ifs at hbytes
  · cases hbytes
  · exact hbytes

theorem Expected.put {view' : View} {name : String} {key : Key} {new : List UInt8}
    (h : Expected cat view st) (hw : WritesRow st.1 view' (.put (tableMap name) key new))
    (hnew : Possible cat view name new) : Expected cat view (view', st.2) := by
  intro name' key' bytes hbytes
  rw [hw, Write.at_eq] at hbytes
  split_ifs at hbytes with heq
  · cases hbytes
    rw [tableMap_inj.mp heq.1]
    exact hnew
  · exact h name' key' bytes hbytes

variable {parentDef : TableDef} {row : Row} {child : TableDef} {fk : ForeignKeyDef}

omit cat view in
theorem mem_matchingChildRows_iff {seen : View} {val : Value} {column : Nat} {children : List (Key × Row)}
    (hval : keyValue parentDef fk row = some val) (hnull : val.isNull = false)
    (hcolumn : child.columnIndex fk.column = some column)
    (hchildren : matchingChildRows seen.seen child column val = .ok children) {p : Key × Row} :
    p ∈ children ↔
      (∃ bytes, (seen (tableMap child.name)).get p.1 = some bytes ∧ child.readRow bytes = .ok p.2) ∧
        RefersBy parentDef row child fk p.2 := by
  obtain ⟨rows, hrows, heq⟩ := H2Result.map_eq_ok.mp hchildren
  rw [← heq, mem_filter, Option.any_eq_true]
  constructor
  · rintro ⟨hin, v, hv, hveq⟩
    obtain ⟨e, he, hkey, hread⟩ := exists_of_mem_readRows hrows hin
    exact ⟨⟨e.2, View.mem_scan.mp (hkey ▸ he), hread⟩, val, column, v, hval, hnull, hcolumn, hv, hveq⟩
  · rintro ⟨⟨bytes, hbytes, hread⟩, val', column', v, hval', _, hcolumn', hv, hveq⟩
    cases hval.symm.trans hval'
    cases hcolumn.symm.trans hcolumn'
    exact ⟨mem_readRows hrows (View.mem_scan.mpr hbytes) hread, v, hv, hveq⟩

theorem Expected.refersTo (h : Expected cat view st) {p : Key × Row}
    (hp : (∃ bytes, (st.1 (tableMap child.name)).get p.1 = some bytes ∧ child.readRow bytes = .ok p.2) ∧
      RefersBy parentDef row child fk p.2) : RefersTo cat view parentDef row child fk p.2 := by
  obtain ⟨⟨bytes, hbytes, hread⟩, hrefers⟩ := hp
  exact ⟨⟨bytes, h child.name p.1 bytes hbytes, hread⟩, hrefers⟩

theorem passes_dropChild {indexes : List IndexDef} {key : Key} :
    Passes (taskStep cat) (Expected cat view) [.dropChild child indexes key row] := by
  apply passes_of_run
  intro st st' more hst hrun
  obtain ⟨hresult, hst'⟩ := of_taskStep_eq_some hrun
  cases hresult
  rw [hst']
  exact ⟨hst.removed (writesRow_dropChild child indexes key row), passes_nil⟩

theorem passes_setChild {set : SetChild}
    (h : Possible cat view set.child.name (Row.toBytes (set.row.set set.column set.newVal))) :
    Passes (taskStep cat) (Expected cat view) [.setChild set] := by
  apply passes_of_run
  intro st st' more hst hrun
  obtain ⟨hresult, hst'⟩ := of_taskStep_eq_some hrun
  cases hresult
  rw [hst']
  exact ⟨hst.put (writesRow_setChild st.1 set) h, passes_nil⟩

theorem passes_deleteChildren {parent : String} (hrefers : cat.Refers child fk)
    (h : ∀ crow, fk.onDelete = .cascade → RefersTo cat view parentDef row child fk crow →
      Passes (taskStep cat) (Expected cat view) [.onDelete child.name crow]) :
    Passes (taskStep cat) (Expected cat view) [.deleteChildren parent parentDef row child fk] := by
  apply passes_of_run
  intro st st' more hst hrun
  obtain ⟨hresult, hst'⟩ := of_taskStep_eq_some hrun
  have hexpected : Expected cat view st' := by
    rw [hst']
    exact hst
  refine ⟨hexpected, ?_⟩
  rcases deleteChildren_tasks hresult with hnil |
    ⟨val, column, children, hval, hnull, hcolumn, hchildren, ⟨haction, heq⟩ | ⟨haction, heq⟩⟩
  · rw [hnil]
    exact passes_nil
  · rw [heq]
    apply passes_of_forall
    intro task htask
    obtain ⟨p, hp, htask⟩ := mem_flatMap.mp htask
    rcases mem_pair.mp htask with htask | htask
    · rw [htask]
      exact h p.2 haction (hst.refersTo ((mem_matchingChildRows_iff hval hnull hcolumn hchildren).mp hp))
    · rw [htask]
      exact passes_dropChild
  · rw [heq]
    apply passes_of_forall
    intro task htask
    obtain ⟨p, hp, htask⟩ := mem_map.mp htask
    obtain ⟨⟨bytes, hbytes, hread⟩, _⟩ := (mem_matchingChildRows_iff hval hnull hcolumn hchildren).mp hp
    rw [← htask]
    exact passes_setChild (.cleared hrefers haction hcolumn hread (hst child.name p.1 bytes hbytes))

theorem passes_onDelete {start : String × Row} (h : Acc (fun y x => Cascades cat view x y) start) :
    Passes (taskStep cat) (Expected cat view) [.onDelete start.1 start.2] := by
  induction h with
  | intro start _ ih =>
    apply passes_of_run
    intro st st' more hst hrun
    obtain ⟨hresult, hst'⟩ := of_taskStep_eq_some hrun
    have hmore : handleForeignKeysOnDelete cat start.1 start.2 = more := Except.ok.inj hresult
    rw [hst', ← hmore]
    refine ⟨hst, passes_of_forall fun task htask => ?_⟩
    obtain ⟨parentDef, p, hparent, hp, heq⟩ := exists_of_mem_onDelete htask
    obtain ⟨hrefers, hname⟩ := mem_getTablesReferencing.mp hp
    rw [heq]
    apply passes_deleteChildren hrefers
    intro crow haction hrefersTo
    exact ih (p.1.name, crow) (.intro hparent hrefers hname haction hrefersTo)

end

/-! ## Cascades that lead on for ever do not return -/

/-- Nothing but `CASCADE` is met on the way: no key sets NULL, none that restricts is referred by, and the
rows of tables with keys, which have names of their own, can be read. -/
structure Unhindered (cat : Catalog) (view : View) (start : String × Row) : Prop where
  unset : ∀ child fk, cat.Refers child fk → fk.onDelete ≠ .setNull
  unrestricted : ∀ x parentDef child fk crow, Relation.ReflTransGen (Cascades cat view) start x →
    cat.getTable x.1 = some parentDef → cat.Refers child fk → fk.foreignTable = x.1 →
      RefersTo cat view parentDef x.2 child fk crow → fk.onDelete = .cascade
  readable : ∀ child fk, cat.Refers child fk → ∀ key bytes,
    (view (tableMap child.name)).get key = some bytes → ∃ row, child.readRow bytes = .ok row
  alone : ∀ child fk child' fk', cat.Refers child fk → cat.Refers child' fk' → child.name = child'.name →
    child = child'

section

variable (cat : Catalog) (view : View) (start : String × Row)

/-- Rows have been removed, but none from which cascades lead on for ever. -/
structure Kept (now : View) : Prop where
  visible : ∀ name key bytes, (now (tableMap name)).get key = some bytes →
    (view (tableMap name)).get key = some bytes
  endless : ∀ child fk key bytes crow, cat.Refers child fk →
    (view (tableMap child.name)).get key = some bytes → child.readRow bytes = .ok crow →
      Endless cat view (child.name, crow) → (now (tableMap child.name)).get key = some bytes

structure Searched (parent : String) (parentDef : TableDef) (row : Row) (child : TableDef)
    (fk : ForeignKeyDef) : Prop where
  reached : Relation.ReflTransGen (Cascades cat view) start (parent, row)
  found : cat.getTable parent = some parentDef
  refers : cat.Refers child fk
  named : fk.foreignTable = parent

/-- The task comes to an end, and removes no row from which cascades lead on for ever. -/
def Task.Mild : Task → Prop
  | .onDelete parent row =>
    Relation.ReflTransGen (Cascades cat view) start (parent, row) ∧ ¬Endless cat view (parent, row)
  | .deleteChildren parent parentDef row child fk => Searched cat view start parent parentDef row child fk ∧
      ∀ crow, RefersTo cat view parentDef row child fk crow → ¬Endless cat view (child.name, crow)
  | .dropChild child _ key _ => (∃ fk, cat.Refers child fk) ∧
      ∀ bytes crow, (view (tableMap child.name)).get key = some bytes → child.readRow bytes = .ok crow →
        ¬Endless cat view (child.name, crow)
  | _ => False

def Task.Doomed : Task → Prop
  | .onDelete parent row =>
    Relation.ReflTransGen (Cascades cat view) start (parent, row) ∧ Endless cat view (parent, row)
  | .deleteChildren parent parentDef row child fk => Searched cat view start parent parentDef row child fk ∧
      ∃ crow, RefersTo cat view parentDef row child fk crow ∧ Endless cat view (child.name, crow)
  | _ => False

/-- Before anything else is done, a task is met that leads on for ever. -/
inductive Doom : List Task → Prop
  | here {task : Task} {rest : List Task} (h : task.Doomed cat view start) : Doom (task :: rest)
  | later {task : Task} {rest : List Task} (h : task.Mild cat view start) (hrest : Doom rest) :
      Doom (task :: rest)

end

section

variable {cat : Catalog} {view : View} {start : String × Row}

variable {rest : List Task} {parent : String} {parentDef child : TableDef} {row : Row} {fk : ForeignKeyDef}
  {children : List (Key × Row)}

theorem Doom.append {tasks : List Task} (h : ∀ task ∈ tasks, task.Mild cat view start)
    (hrest : Doom cat view start rest) : Doom cat view start (tasks ++ rest) := by
  induction tasks with
  | nil => exact hrest
  | cons task tasks ih =>
    exact .later (h task mem_cons_self) (ih fun task' htask' => h task' (mem_cons_of_mem _ htask'))

variable {task : Task}

theorem doom_of_mem {tasks : List Task}
    (h : ∀ task ∈ tasks, task.Mild cat view start ∨ task.Doomed cat view start)
    (htask : task ∈ tasks) (hdoomed : task.Doomed cat view start) : Doom cat view start (tasks ++ rest) := by
  induction tasks with
  | nil => cases htask
  | cons first tasks ih =>
    rcases h first mem_cons_self with hmild | hfirst
    · rcases mem_cons.mp htask with heq | hin
      · exact .here (heq ▸ hdoomed)
      · exact .later hmild (ih (fun task' htask' => h task' (mem_cons_of_mem _ htask')) hin)
    · exact .here hfirst

theorem Unhindered.visible (h : Unhindered cat view start) {name : String} {bytes : List UInt8}
    (hp : Possible cat view name bytes) : ∃ key, (view (tableMap name)).get key = some bytes := by
  cases hp with
  | visible hget => exact ⟨_, hget⟩
  | cleared hrefers haction => exact absurd haction (h.unset _ _ hrefers)

variable {now : View}

theorem Kept.expected (h : Kept cat view now) (counters : Counters) :
    Expected cat view (now, counters) :=
  fun name key bytes hbytes => .visible (h.visible name key bytes hbytes)

theorem readRows_ok {t : TableDef} {entries : List (Key × List UInt8)}
    (h : ∀ e ∈ entries, ∃ row, t.readRow e.2 = .ok row) : ∃ rows, readRows t entries = .ok rows := by
  induction entries with
  | nil => exact ⟨[], rfl⟩
  | cons e entries ih =>
    obtain ⟨row, hrow⟩ := h e mem_cons_self
    obtain ⟨rows, hrows⟩ := ih fun e' he' => h e' (mem_cons_of_mem _ he')
    refine ⟨(e.1, row) :: rows, ?_⟩
    rw [readRows, hrow, hrows]
    rfl

/-- The calls and removals for child rows that `CASCADE` takes away. -/
def cascadeTasks (cat : Catalog) (child : TableDef) (children : List (Key × Row)) : List Task :=
  children.flatMap fun p =>
    [.onDelete child.name p.2, .dropChild child (cat.getTableIndexes child.name) p.1 p.2]

omit view start in
theorem deleteChildren_of_nothing {seen : Visible}
    (h : ∀ val column, keyValue parentDef fk row = some val → val.isNull = false →
      child.columnIndex fk.column ≠ some column) :
    deleteChildren cat seen parent parentDef row child fk = .ok [] := by
  rw [deleteChildren]
  split
  next => rfl
  next val hval =>
    split_ifs with hnull
    · rfl
    · split
      next => rfl
      next column hcolumn => exact absurd hcolumn (h val column hval (Bool.not_eq_true _ ▸ hnull))

omit view start in
theorem deleteChildren_of_cascade {seen : Visible} {val : Value} {column : Nat}
    (hval : keyValue parentDef fk row = some val) (hnull : val.isNull = false)
    (hcolumn : child.columnIndex fk.column = some column)
    (hchildren : matchingChildRows seen child column val = .ok children)
    (haction : children ≠ [] → fk.onDelete = .cascade) :
    deleteChildren cat seen parent parentDef row child fk = .ok (cascadeTasks cat child children) := by
  rw [keyValue] at hval
  rw [deleteChildren, hval]
  show (if val.isNull = true then _ else _) = _
  rw [if_neg (by rw [hnull]; exact Bool.false_ne_true), hcolumn]
  show (matchingChildRows seen child column val).bind _ = _
  rw [hchildren]
  show (if children.isEmpty = true then _ else _) = _
  by_cases hnil : children = []
  · rw [if_pos (isEmpty_iff.mpr hnil), hnil]
    rfl
  · rw [if_neg fun hempty => hnil (isEmpty_iff.mp hempty), haction hnil]
    rfl

theorem Searched.run (hs : Searched cat view start parent parentDef row child fk)
    (h : Unhindered cat view start) (hnow : Kept cat view now) :
    ∃ children, deleteChildren cat now.seen parent parentDef row child fk =
        .ok (cascadeTasks cat child children) ∧
      ∀ p, p ∈ children ↔
        (∃ bytes, (now (tableMap child.name)).get p.1 = some bytes ∧ child.readRow bytes = .ok p.2) ∧
          RefersBy parentDef row child fk p.2 := by
  by_cases hsearch : ∃ val column, keyValue parentDef fk row = some val ∧ val.isNull = false ∧
      child.columnIndex fk.column = some column
  · obtain ⟨val, column, hval, hnull, hcolumn⟩ := hsearch
    have hreadable : ∀ e ∈ now.seen.scan (tableMap child.name), ∃ row, child.readRow e.2 = .ok row :=
      fun e he => h.readable child fk hs.refers e.1 e.2
        (hnow.visible child.name e.1 e.2 (View.mem_scan.mp he))
    obtain ⟨rows, hrows⟩ := readRows_ok hreadable
    have hchildren : matchingChildRows now.seen child column val =
        .ok (rows.filter fun p => (p.2[column]?).any fun v => v.eq val) := by
      rw [matchingChildRows, hrows]
      rfl
    have hmem := fun p => mem_matchingChildRows_iff (p := p) hval hnull hcolumn hchildren
    refine ⟨_, deleteChildren_of_cascade hval hnull hcolumn hchildren fun hne => ?_, hmem⟩
    obtain ⟨p, hp⟩ := exists_mem_of_ne_nil _ hne
    exact h.unrestricted _ _ _ _ _ hs.reached hs.found hs.refers hs.named
      ((hnow.expected fun _ => 0).refersTo ((hmem p).mp hp))
  · refine ⟨[], deleteChildren_of_nothing fun val column hval hnull hcolumn =>
      hsearch ⟨val, column, hval, hnull, hcolumn⟩, fun p => iff_of_false not_mem_nil fun hp => ?_⟩
    obtain ⟨val, column, _, hval, hnull, hcolumn, _⟩ := hp.2
    exact hsearch ⟨val, column, hval, hnull, hcolumn⟩

theorem Searched.reaches (hs : Searched cat view start parent parentDef row child fk)
    (h : Unhindered cat view start) {crow : Row} (hcrow : RefersTo cat view parentDef row child fk crow) :
    Relation.ReflTransGen (Cascades cat view) start (child.name, crow) := by
  have haction := h.unrestricted _ _ _ _ _ hs.reached hs.found hs.refers hs.named hcrow
  exact hs.reached.tail (.intro hs.found hs.refers hs.named haction hcrow)

variable {indexes : List IndexDef}

theorem Kept.mild_dropChild (hnow : Kept cat view now) (hrefers : cat.Refers child fk) {p : Key × Row}
    (hp : ∃ bytes, (now (tableMap child.name)).get p.1 = some bytes ∧ child.readRow bytes = .ok p.2)
    (hends : ¬Endless cat view (child.name, p.2)) :
    (Task.dropChild child indexes p.1 p.2).Mild cat view start := by
  obtain ⟨bytes, hbytes, hread⟩ := hp
  refine ⟨⟨fk, hrefers⟩, fun bytes' crow hbytes' hread' => ?_⟩
  cases (hnow.visible _ _ _ hbytes).symm.trans hbytes'
  cases hread.symm.trans hread'
  exact hends

theorem Kept.dropChild (hnow : Kept cat view now) (h : Unhindered cat view start)
    {key : Key} (hmild : (Task.dropChild child indexes key row).Mild cat view start) :
    Kept cat view (Sql.dropChild now child indexes key row) := by
  have hw : WritesRow now (Sql.dropChild now child indexes key row) (.remove (tableMap child.name) key) :=
    writesRow_dropChild child indexes key row
  obtain ⟨⟨fk, hrefers⟩, hends⟩ := hmild
  constructor
  · intro name k bytes hbytes
    rw [hw, Write.at_eq] at hbytes
    split_ifs at hbytes
    · cases hbytes
    · exact hnow.visible name k bytes hbytes
  · intro child' fk' k bytes crow hrefers' hbytes hread hendless
    rw [hw, Write.at_eq]
    split_ifs with heq
    · -- the row that goes is not one from which cascades lead on
      cases h.alone child' fk' child fk hrefers' hrefers (tableMap_inj.mp heq.1)
      rw [heq.2] at hbytes
      exact absurd hendless (hends bytes crow hbytes hread)
    · exact hnow.endless child' fk' k bytes crow hrefers' hbytes hread hendless

theorem searched_of_mem (hreached : Relation.ReflTransGen (Cascades cat view) start (parent, row))
    (htask : task ∈ handleForeignKeysOnDelete cat parent row) :
    ∃ parentDef child fk, task = .deleteChildren parent parentDef row child fk ∧
      Searched cat view start parent parentDef row child fk := by
  obtain ⟨parentDef, p, hparent, hp, heq⟩ := exists_of_mem_onDelete htask
  obtain ⟨hrefers, hname⟩ := mem_getTablesReferencing.mp hp
  exact ⟨parentDef, p.1, p.2, heq, hreached, hparent, hrefers, hname⟩

theorem Searched.mild_or_doomed (hs : Searched cat view start parent parentDef row child fk) :
    (Task.deleteChildren parent parentDef row child fk).Mild cat view start ∨
      (Task.deleteChildren parent parentDef row child fk).Doomed cat view start := by
  by_cases hex : ∃ crow, RefersTo cat view parentDef row child fk crow ∧ Endless cat view (child.name, crow)
  · exact .inr ⟨hs, hex⟩
  · exact .inl ⟨hs, fun crow hcrow hendless => hex ⟨crow, hcrow, hendless⟩⟩

theorem doom_onDelete (hreached : Relation.ReflTransGen (Cascades cat view) start (parent, row))
    (hendless : Endless cat view (parent, row)) :
    Doom cat view start (handleForeignKeysOnDelete cat parent row ++ rest) := by
  obtain ⟨y, hstep, hy⟩ := hendless.step
  cases hstep with
  | @intro _ parentDef child fk _ crow hparent hrefers hname haction h =>
    have hin : Task.deleteChildren parent parentDef row child fk ∈
        handleForeignKeysOnDelete cat parent row := by
      rw [handleForeignKeysOnDelete, hparent]
      exact mem_map.mpr ⟨(child, fk), mem_getTablesReferencing.mpr ⟨hrefers, hname⟩, rfl⟩
    refine doom_of_mem (fun task htask => ?_) hin ⟨⟨hreached, hparent, hrefers, hname⟩, crow, h, hy⟩
    obtain ⟨_, _, _, heq, hs⟩ := searched_of_mem hreached htask
    rw [heq]
    exact hs.mild_or_doomed

theorem mild_cascadeTasks (hcalls : ∀ p ∈ children, (Task.onDelete child.name p.2).Mild cat view start)
    (hdrops : ∀ p ∈ children,
      (Task.dropChild child (cat.getTableIndexes child.name) p.1 p.2).Mild cat view start) :
    ∀ task ∈ cascadeTasks cat child children, task.Mild cat view start := by
  intro task htask
  obtain ⟨p, hp, htask⟩ := mem_flatMap.mp htask
  rcases mem_pair.mp htask with heq | heq
  · exact heq ▸ hcalls p hp
  · exact heq ▸ hdrops p hp

theorem doom_cascadeTasks
    (hreached : ∀ p ∈ children, Relation.ReflTransGen (Cascades cat view) start (child.name, p.2))
    (hdrops : ∀ p ∈ children, ¬Endless cat view (child.name, p.2) →
      (Task.dropChild child (cat.getTableIndexes child.name) p.1 p.2).Mild cat view start)
    (hendless : ∃ p ∈ children, Endless cat view (child.name, p.2)) :
    Doom cat view start (cascadeTasks cat child children ++ rest) := by
  induction children with
  | nil =>
    obtain ⟨p, hp, _⟩ := hendless
    cases hp
  | cons first children ih =>
    show Doom cat view start (.onDelete child.name first.2 ::
      .dropChild child (cat.getTableIndexes child.name) first.1 first.2 ::
        (cascadeTasks cat child children ++ rest))
    have hfirst := hreached first mem_cons_self
    by_cases hcase : Endless cat view (child.name, first.2)
    · exact .here ⟨hfirst, hcase⟩
    · refine .later ⟨hfirst, hcase⟩ (.later (hdrops first mem_cons_self hcase) (ih ?_ ?_ ?_))
      · exact fun p hp => hreached p (mem_cons_of_mem _ hp)
      · exact fun p hp => hdrops p (mem_cons_of_mem _ hp)
      · obtain ⟨p, hp, hp'⟩ := hendless
        rcases mem_cons.mp hp with heq | hin
        · exact absurd (heq ▸ hp') hcase
        · exact ⟨p, hin, hp'⟩

theorem Searched.doomed (hs : Searched cat view start parent parentDef row child fk)
    (h : Unhindered cat view start) {st : View × Counters} (hkept : Kept cat view st.1) {crow : Row}
    (hcrow : RefersTo cat view parentDef row child fk crow) (hendless : Endless cat view (child.name, crow))
    (rest : List Task) :
    ∃ st' more, taskStep cat st (.deleteChildren parent parentDef row child fk) = some (st', more) ∧
      Kept cat view st'.1 ∧ Doom cat view start (more ++ rest) := by
  obtain ⟨children, hok, hmem⟩ := hs.run h hkept
  refine ⟨st, _, taskStep_of_ok hok, hkept, doom_cascadeTasks (fun p hp => ?_) (fun p hp hends => ?_) ?_⟩
  · exact hs.reaches h ((hkept.expected st.2).refersTo ((hmem p).mp hp))
  · exact hkept.mild_dropChild hs.refers ((hmem p).mp hp).1 hends
  · obtain ⟨⟨bytes, hpossible, hread⟩, hrefers⟩ := hcrow
    obtain ⟨key, hkey⟩ := h.visible hpossible
    have hnow := hkept.endless child fk key bytes crow hs.refers hkey hread hendless
    exact ⟨(key, crow), (hmem (key, crow)).mpr ⟨⟨bytes, hnow, hread⟩, hrefers⟩, hendless⟩

theorem Doom.step (h : Unhindered cat view start) {st : View × Counters}
    (hkept : Kept cat view st.1) (hdoom : Doom cat view start (task :: rest)) :
    ∃ st' more, taskStep cat st task = some (st', more) ∧ Kept cat view st'.1 ∧
      Doom cat view start (more ++ rest) := by
  cases hdoom with
  | here hdoomed =>
    cases task with
    | onDelete parent row => exact ⟨st, _, rfl, hkept, doom_onDelete hdoomed.1 hdoomed.2⟩
    | deleteChildren parent parentDef row child fk =>
      obtain ⟨hs, crow, hcrow, hendless⟩ := hdoomed
      exact hs.doomed h hkept hcrow hendless rest
    | _ => exact hdoomed.elim
  | later hmild hrest =>
    cases task with
    | onDelete parent row =>
      refine ⟨st, _, rfl, hkept, hrest.append fun task htask => ?_⟩
      obtain ⟨parentDef, child, fk, heq, hs⟩ := searched_of_mem hmild.1 htask
      rw [heq]
      refine ⟨hs, fun crow hcrow hendless => ?_⟩
      have haction := h.unrestricted _ _ _ _ _ hs.reached hs.found hs.refers hs.named hcrow
      exact hmild.2 (Cascades.endless (.intro hs.found hs.refers hs.named haction hcrow) hendless)
    | deleteChildren parent parentDef row child fk =>
      obtain ⟨hs, hends⟩ := hmild
      obtain ⟨children, hok, hmem⟩ := hs.run h hkept
      have hrefersTo := fun p hp => (hkept.expected st.2).refersTo ((hmem p).mp hp)
      refine ⟨st, _, taskStep_of_ok hok, hkept, hrest.append (mild_cascadeTasks ?_ ?_)⟩
      · intro p hp
        exact ⟨hs.reaches h (hrefersTo p hp), hends p.2 (hrefersTo p hp)⟩
      · intro p hp
        exact hkept.mild_dropChild hs.refers ((hmem p).mp hp).1 (hends p.2 (hrefersTo p hp))
    | dropChild child indexes key row => exact ⟨_, [], rfl, hkept.dropChild h hmild, hrest⟩
    | _ => exact hmild.elim

theorem not_ends_of_endless (h : Unhindered cat view start) (hendless : Endless cat view start)
    (counters : Counters) : ¬Ends (taskStep cat) (view, counters) [.onDelete start.1 start.2] := by
  apply not_ends fun st tasks => Kept cat view st.1 ∧ Doom cat view start tasks
  · intro st hdoom
    cases hdoom.2
  · intro st task rest hdoom
    exact hdoom.2.step h hdoom.1
  · refine ⟨⟨fun name key bytes hbytes => hbytes, fun child fk key bytes crow _ hbytes _ _ => hbytes⟩, ?_⟩
    exact .here ⟨.refl, hendless⟩

end

/-- The call for a row returns if cascades do not lead on from it for ever.  Where nothing but `CASCADE` is
met it returns only then. -/
theorem Session.handleForeignKeysOnDelete_returns (cat : Catalog) (s : Session) (parent : String)
    (row : Row) :
    (¬Endless cat s.view (parent, row) → (s.handlingOnDelete parent row).Returns cat) ∧
      (Unhindered cat s.view (parent, row) →
        ((s.handlingOnDelete parent row).Returns cat ↔ ¬Endless cat s.view (parent, row))) := by
  have hreturns : ¬Endless cat s.view (parent, row) → (s.handlingOnDelete parent row).Returns cat := by
    intro hends
    rw [endless_iff, not_not] at hends
    rw [returns_iff]
    exact (passes_onDelete hends).ends fun name key bytes hbytes => .visible hbytes
  refine ⟨hreturns, fun h => ⟨fun hret hendless => ?_, hreturns⟩⟩
  rw [returns_iff] at hret
  exact not_ends_of_endless h hendless s.counters hret

end

/-! ## A row that refers to itself -/

attribute [local instance] plainCrates

def treeTable : TableDef where
  name := "t"
  schema := "public"
  columns := [integerColumn "id", integerColumn "parent"]
  foreignKeys := [⟨"parent", "t", "id", .cascade, .noAction⟩]

def tree : Catalog := ⟨[("t", treeTable), ("public.t", treeTable)], []⟩

def ownParent : View :=
  View.empty.write (.put (tableMap "t") (rowKey 1) (Row.toBytes [.integer 1, .integer 1]))

theorem refers_tree {child : TableDef} {fk : ForeignKeyDef} (h : tree.Refers child fk) :
    child = treeTable ∧ fk.onDelete = .cascade := by
  obtain ⟨⟨key, hkey⟩, hfk⟩ := h
  have hchild : child = treeTable := by
    rcases mem_pair.mp hkey with heq | heq <;> exact (Prod.mk.inj heq).2
  rw [hchild] at hfk
  exact ⟨hchild, congrArg ForeignKeyDef.onDelete (mem_singleton.mp hfk)⟩

theorem get_ownParent {key : Key} {bytes : List UInt8} (h : (ownParent (tableMap "t")).get key = some bytes) :
    bytes = Row.toBytes [.integer 1, .integer 1] := by
  rw [ownParent, View.get_put] at h
  split_ifs at h
  · exact (Option.some.inj h).symm
  · cases h

theorem unhindered_tree (start : String × Row) : Unhindered tree ownParent start where
  unset child fk hrefers := by
    rw [(refers_tree hrefers).2]
    decide
  unrestricted _ _ _ _ _ _ _ hrefers _ _ := (refers_tree hrefers).2
  readable child fk hrefers key bytes hbytes := by
    rw [(refers_tree hrefers).1] at hbytes ⊢
    rw [get_ownParent hbytes]
    exact ⟨[.integer 1, .integer 1], rfl⟩
  alone _ _ _ _ hrefers hrefers' _ := (refers_tree hrefers).1.trans (refers_tree hrefers').1.symm

theorem endless_ownParent : Endless tree ownParent ("t", [.integer 1, .integer 1]) := by
  refine ⟨fun _ => ("t", [.integer 1, .integer 1]), rfl, fun _ => ?_⟩
  have hrefers : tree.Refers treeTable ⟨"parent", "t", "id", .cascade, .noAction⟩ :=
    ⟨⟨"t", mem_cons_self⟩, mem_cons_self⟩
  have hvisible : (ownParent (tableMap "t")).get (rowKey 1) =
      some (Row.toBytes [.integer 1, .integer 1]) := by
    rw [ownParent, View.get_put, if_pos ⟨rfl, rfl⟩]
  have hrefersTo : RefersTo tree ownParent treeTable [.integer 1, .integer 1] treeTable
      ⟨"parent", "t", "id", .cascade, .noAction⟩ [.integer 1, .integer 1] :=
    ⟨⟨_, .visible hvisible, rfl⟩, .integer 1, 1, .integer 1, rfl, rfl, rfl, rfl, rfl⟩
  have hparent : tree.getTable "t" = some treeTable := rfl
  exact .intro hparent hrefers rfl rfl hrefersTo

/-- The row is visited again before it is removed, and so on for ever. -/
theorem Session.ownParent_never_returns :
    ¬(Session.handlingOnDelete ⟨ownParent, fun _ => 2, ownParent, false, [], .ok ()⟩ "t"
      [.integer 1, .integer 1]).Returns tree := by
  rw [returns_iff]
  exact not_ends_of_endless (unhindered_tree _) endless_ownParent fun _ => 2

end H2Database.Sql
