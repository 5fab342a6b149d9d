import H2Database.Sql.Ctes
import H2Database.Sql.Pushdown

/-!
# What a CTE stands for

A query depends on the tables in scope that it refers to.  A CTE that is bound the usual way has the rows of
its query.  One whose body is a UNION has the rows of its left side and, where the right side does not refer
to it, what a thousand evaluations of the right side add to them.
-/

namespace H2Database.Sql

open List hiding isEmpty_iff

section

variable [Crates]

/-! ## Rows without repetitions -/

theorem distinctRows_append (seen as bs : List Row) : distinctRows seen (as ++ bs) =
    distinctRows seen as ++ distinctRows (seen ++ distinctRows seen as) bs := by
  induction as generalizing seen with
  | nil => simp [distinctRows]
  | cons r as ih =>
    rw [cons_append, distinctRows, distinctRows]
    split_ifs
    · exact ih seen
    · rw [ih, cons_append, append_assoc, singleton_append]

theorem distinctRows_sublist (seen rows : List Row) : (distinctRows seen rows).Sublist rows := by
  induction rows generalizing seen with
  | nil => exact nil_sublist _
  | cons r rows ih =>
    rw [distinctRows]
    split_ifs
    · exact (ih seen).cons r
    · exact (ih _).cons_cons r

theorem not_eqAll_of_mem_distinctRows {seen rows : List Row} {s r : Row} (hs : s ∈ seen)
    (hr : r ∈ distinctRows seen rows) : Value.eqAll s r = false := by
  induction rows generalizing seen with
  | nil => cases hr
  | cons a rows ih =>
    rw [distinctRows] at hr
    split_ifs at hr with hseen
    · exact ih hs hr
    · rcases mem_cons.mp hr with rfl | hr
      · rw [Bool.not_eq_true, any_eq_false] at hseen
        exact eq_false_of_ne_true (hseen s hs)
      · exact ih (mem_append_left _ hs) hr

theorem countP_distinctRows {p : Row → Bool} {seen rows : List Row}
    (hp : ∀ s ∈ seen ++ distinctRows seen rows, ∀ r, Value.eqAll s r = true → p r = true) :
    (distinctRows seen rows).countP (!p ·) = rows.countP (!p ·) := by
  induction rows generalizing seen with
  | nil => rfl
  | cons r rows ih =>
    rw [distinctRows] at hp ⊢
    split_ifs at hp ⊢ with hseen
    · obtain ⟨s, hs, heq⟩ := any_eq_true.mp hseen
      rw [ih hp, countP_cons, hp s (mem_append_left _ hs) r heq]
      rfl
    · rw [countP_cons, countP_cons, ih]
      rwa [append_assoc, singleton_append]

/-! ## A right side that is always the same -/

def addedRows (all : Bool) (right rows : List Row) : List Row :=
  if all then right else distinctRows rows right

def repeatRows (all : Bool) (right : List Row) : Nat → List Row → List Row
  | 0, rows => rows
  | n + 1, rows =>
    if (addedRows all right rows).isEmpty then rows else repeatRows all right n
      (rows ++ addedRows all right rows)

theorem repeatRows_of_empty {all : Bool} {right rows : List Row} (h : addedRows all right rows = [])
    (n : Nat) : repeatRows all right n rows = rows := by
  cases n with
  | zero => rfl
  | succ n => rw [repeatRows, h, isEmpty_nil, if_pos rfl]

theorem repeatRows_of_added {all : Bool} {right rows : List Row} (h : addedRows all right rows ≠ [])
    (n : Nat) : repeatRows all right (n + 1) rows =
      repeatRows all right n (rows ++ addedRows all right rows) := by
  rw [repeatRows, if_neg (by rwa [List.isEmpty_iff])]

theorem sublist_repeatRows (all : Bool) (right : List Row) (n : Nat) (rows : List Row) :
    rows.Sublist (repeatRows all right n rows) := by
  induction n generalizing rows with
  | zero => exact List.Sublist.refl rows
  | succ n ih =>
    by_cases h : addedRows all right rows = []
    · rw [repeatRows_of_empty h]
    · rw [repeatRows_of_added h]
      exact (sublist_append_left _ _).trans (ih _)

theorem iterateRows_constant (all : Bool) (answer : Answer) (n : Nat) {rows working : List Row}
    (hworking : working ≠ []) : iterateRows (fun _ => .ok answer) all n rows working true =
      some (repeatRows all answer.rows n rows) := by
  induction n generalizing rows working with
  | zero => rfl
  | succ n ih =>
    rw [iterateRows, if_neg (by rwa [List.isEmpty_iff])]
    by_cases hempty : answer.rows = []
    · rw [repeatRows_of_empty (by cases all <;> simp [addedRows, hempty, distinctRows])]
      simp [hempty]
    · have hanswer : ¬ answer.rows.isEmpty = true := by rwa [List.isEmpty_iff]
      cases all with
      | true =>
        have hadded : addedRows true answer.rows rows ≠ [] := hempty
        rw [repeatRows_of_added hadded]
        simp only [if_neg hanswer, if_true]
        exact ih hempty
      | false =>
        simp only [if_neg hanswer, if_neg Bool.false_ne_true]
        by_cases hadded : addedRows false answer.rows rows = []
        · have hnew : (distinctRows rows answer.rows).isEmpty = true := List.isEmpty_iff.mpr hadded
          rw [if_pos hnew, repeatRows_of_empty hadded]
        · have hnew : ¬ (distinctRows rows answer.rows).isEmpty = true := by rwa [List.isEmpty_iff]
          rw [if_neg hnew, repeatRows_of_added hadded]
          exact ih hadded

theorem iterateRows_first (all : Bool) (answer : Answer) (n : Nat) {rows : List Row} (hrows : rows ≠ []) :
    iterateRows (fun _ => .ok answer) all (n + 1) rows rows false =
      some (repeatRows all answer.rows (n + 1) rows) := by
  have hempty : ¬ rows.isEmpty = true := by rwa [List.isEmpty_iff]
  rw [← iterateRows_constant all answer (n + 1) hrows, iterateRows, iterateRows, if_neg hempty, if_neg hempty]

theorem distinctRows_eq_of_perm {l r rows : List Row} (hl : l.Sublist rows)
    (hperm : rows.Perm (distinctRows [] (l ++ r))) : distinctRows [] l = l := by
  set kept := distinctRows [] l with hkept
  rw [distinctRows_append, nil_append, ← hkept] at hperm
  -- the rows that equal one that is kept
  set p : Row → Bool := fun r => kept.any fun s => Value.eqAll s r with hp
  have hnone : (distinctRows kept r).countP p = 0 := by
    rw [countP_eq_zero]
    intro a ha hpa
    obtain ⟨s, hs, heq⟩ := any_eq_true.mp hpa
    rw [not_eqAll_of_mem_distinctRows hs ha] at heq
    cases heq
  have hmore : l.countP p ≤ kept.countP p := by
    calc l.countP p ≤ rows.countP p := hl.countP_le
      _ = kept.countP p + (distinctRows kept r).countP p := by rw [hperm.countP_eq, countP_append]
      _ = kept.countP p := by rw [hnone, Nat.add_zero]
  have hothers : kept.countP (!p ·) = l.countP (!p ·) := by
    refine countP_distinctRows fun s hs a heq => any_eq_true.mpr ⟨s, ?_, heq⟩
    rwa [nil_append] at hs
  refine (distinctRows_sublist [] l).eq_of_length_le ?_
  have hcount : ∀ rows : List Row, rows.length = rows.countP p + rows.countP (!p ·) := by
    intro rows
    rw [length_eq_countP_add_countP p]
    simp
  rw [← hkept, hcount l, hcount kept, hothers]
  omega

/-- A union is what the evaluations of the right side make of it if no row of the left side repeats another
and the second evaluation adds nothing. -/
theorem perm_union_iff (l r : List Row) (n : Nat) :
    (repeatRows false r (n + 2) l).Perm (combineRows .union false l r) ↔
      distinctRows [] l = l ∧ distinctRows (l ++ distinctRows l r) r = [] := by
  constructor
  · intro h
    have hl := distinctRows_eq_of_perm (sublist_repeatRows false r (n + 2) l) h
    refine ⟨hl, ?_⟩
    have hlength := h.length_eq
    rw [combineRows, distinctRows_append, nil_append, hl] at hlength
    by_contra hagain
    -- the second evaluation has added a row
    by_cases hfirst : addedRows false r l = []
    · have hnone : distinctRows l r = [] := hfirst
      rw [hnone, append_nil] at hagain
      exact hagain hnone
    · have hsecond : addedRows false r (l ++ addedRows false r l) ≠ [] := hagain
      rw [repeatRows_of_added hfirst, repeatRows_of_added hsecond] at hlength
      have hle := (sublist_repeatRows false r n (l ++ addedRows false r l ++
        addedRows false r (l ++ addedRows false r l))).length_le
      have hpos := length_pos_iff.mpr hagain
      simp only [addedRows, if_neg Bool.false_ne_true, length_append] at hle hlength
      omega
  · rintro ⟨hl, hagain⟩
    rw [combineRows, distinctRows_append, nil_append, hl]
    by_cases hfirst : addedRows false r l = []
    · rw [repeatRows_of_empty hfirst, show distinctRows l r = [] from hfirst, append_nil]
    · have hsecond : addedRows false r (l ++ addedRows false r l) = [] := hagain
      rw [repeatRows_of_added hfirst, repeatRows_of_empty hsecond]
      rfl

theorem perm_unionAll_iff (l r : List Row) (n : Nat) :
    (repeatRows true r (n + 2) l).Perm (combineRows .union true l r) ↔ r = [] := by
  constructor
  · intro h
    by_contra hr
    have hlength := h.length_eq
    rw [repeatRows_of_added (show addedRows true r _ ≠ [] from hr),
      repeatRows_of_added (show addedRows true r _ ≠ [] from hr)] at hlength
    have hle := (sublist_repeatRows true r n (l ++ r ++ r)).length_le
    have hpos := length_pos_iff.mpr hr
    simp only [addedRows, if_true, combineRows, length_append] at hle hlength
    omega
  · rintro rfl
    rw [repeatRows_of_empty (show addedRows true [] l = [] from rfl), combineRows, append_nil]

def AddsOnce (all : Bool) (l r : List Row) : Prop :=
  if all then r = [] else distinctRows [] l = l ∧ distinctRows (l ++ distinctRows l r) r = []

theorem perm_combineRows_iff_addsOnce (all : Bool) (l r : List Row) :
    (repeatRows all r 1000 l).Perm (combineRows .union all l r) ↔ AddsOnce all l r := by
  cases all with
  | false => exact perm_union_iff l r 998
  | true => exact perm_unionAll_iff l r 998

end

section

variable [QueryEngine]

/-! ## Scope -/

def Withs.binds : Withs → String → Prop
  | .nil, _ => False
  | .cons name _ _ _ _ rest, n => n = QueryEngine.toLowercase name ∨ rest.binds n

def SetExpr.refers : SetExpr → String → Prop
  | .select s, n => QueryEngine.refers s n
  | .setOperation _ _ left right, n => left.refers n ∨ right.refers n
  | .other, _ => False

/-- A CTE is in scope in what follows it, and in its own query only where that is evaluated as a recursive
one. -/
def Withs.refers : Withs → String → Prop
  | .nil, _ => False
  | .cons name _ withs body _ rest, n =>
    (withs.refers n ∨ body.refers n ∧ ¬ withs.binds n) ∨ rest.refers n ∧ n ≠ QueryEngine.toLowercase name

def Query.refers (q : Query) (n : String) : Prop :=
  q.withs.refers n ∨ q.body.refers n ∧ ¬ q.withs.binds n

/-- No CTE has the name of a table that one before it, or it itself, refers to. -/
def Withs.Closed (withs : Withs) : Prop := ∀ n, withs.refers n → ¬ withs.binds n

theorem Ctes.insert_self (ctes : Ctes) (name : String) (table : TableDef) (rows : List Row) :
    ctes.insert name table rows (QueryEngine.toLowercase name) = some (table, rows) :=
  Function.update_self ..

variable {name : String} {ctes : Ctes} {withs : Withs} {columns : List String} {left right : SetExpr}
  {clauses : Clauses}

variable {n : String}

theorem Ctes.insert_of_ne (h : n ≠ QueryEngine.toLowercase name) (ctes : Ctes) (table : TableDef)
    (rows : List Row) : ctes.insert name table rows n = ctes n :=
  Function.update_of_ne h ..

variable {ctes' : Ctes}

theorem Ctes.insert_congr (h : ctes n = ctes' n) (name : String) (table : TableDef) (rows : List Row) :
    ctes.insert name table rows n = ctes'.insert name table rows n := by
  by_cases hn : n = QueryEngine.toLowercase name
  · rw [hn, Ctes.insert_self, Ctes.insert_self]
  · rw [Ctes.insert_of_ne hn, Ctes.insert_of_ne hn, h]

variable [Crates] [Arithmetic]

/-- In scopes that agree on what a WITH refers to, it fails alike, or binds the same tables and leaves the
others. -/
def BindsAlike (withs : Withs) (bind : Ctes → H2Result Ctes) : Prop :=
  ∀ ctes ctes' : Ctes, (∀ n, withs.refers n → ctes n = ctes' n) →
    (∃ e, bind ctes = .error e ∧ bind ctes' = .error e) ∨
      ∃ b b' : Ctes, bind ctes = .ok b ∧ bind ctes' = .ok b' ∧
        ∀ n, withs.binds n ∨ ctes n = ctes' n → b n = b' n

variable {bind : Ctes → H2Result Ctes}

theorem executeBody_congr (h : BindsAlike withs bind) (body : SetExpr)
    (clauses : Clauses) (hagree : ∀ n, withs.refers n ∨ body.refers n ∧ ¬ withs.binds n → ctes n = ctes' n) :
    executeBody bind body clauses ctes = executeBody bind body clauses ctes' := by
  have hbind := h ctes ctes' fun n hn => hagree n (.inl hn)
  induction body generalizing clauses ctes ctes' with
  | select s =>
    rcases hbind with ⟨e, he, he'⟩ | ⟨b, b', hb, hb', hsame⟩
    · rw [executeBody, executeBody, he, he']
    · rw [executeBody, executeBody, hb, hb']
      refine QueryEngine.select_congr s clauses b b' fun n hn => hsame n ?_
      by_cases hbound : withs.binds n
      · exact .inl hbound
      · exact .inr (hagree n (.inr ⟨hn, hbound⟩))
  | setOperation op all left right ihl ihr =>
    rcases hbind with ⟨e, he, he'⟩ | ⟨b, b', hb, hb', hsame⟩
    · rw [executeBody, executeBody, he, he']
    · have hside : ∀ n, withs.refers n ∨ (left.refers n ∨ right.refers n) ∧ ¬ withs.binds n →
          b n = b' n := fun n hn => hsame n (.inr (hagree n hn))
      have hinner := h b b' fun n hn => hside n (.inl hn)
      have hl := ihl .none (fun n hn => hside n (hn.imp id fun hn => ⟨.inl hn.1, hn.2⟩)) hinner
      have hr := ihr .none (fun n hn => hside n (hn.imp id fun hn => ⟨.inr hn.1, hn.2⟩)) hinner
      rw [executeBody, executeBody, hb, hb']
      change (executeBody bind left .none b >>= _) = executeBody bind left .none b' >>= _
      rw [hl, hr]
  | other =>
    rcases hbind with ⟨e, he, he'⟩ | ⟨b, b', hb, hb', hsame⟩
    · rw [executeBody, executeBody, he, he']
    · rw [executeBody, executeBody, hb, hb']
      rfl

theorem recursiveCte_congr (h : BindsAlike withs bind) (name : String)
    (columns : List String) (body : SetExpr) (clauses : Clauses)
    (hagree : ∀ n, withs.refers n ∨ body.refers n ∧ ¬ withs.binds n → ctes n = ctes' n) :
    recursiveCte bind name columns body clauses ctes = recursiveCte bind name columns body clauses ctes' := by
  unfold recursiveCte
  split
  · rename_i all left right
    have hl : executeBody bind left clauses ctes = executeBody bind left clauses ctes' :=
      executeBody_congr h left clauses fun n hn => hagree n (hn.imp id fun hn => ⟨.inl hn.1, hn.2⟩)
    have hr : ∀ table working, executeBody bind right clauses (ctes.insert name table working) =
        executeBody bind right clauses (ctes'.insert name table working) := fun table working =>
      executeBody_congr h right clauses fun n hn =>
        Ctes.insert_congr (hagree n (hn.imp id fun hn => ⟨.inr hn.1, hn.2⟩)) name table working
    simp only [hl, hr]
  · rfl

theorem bindAll_alike (withs : Withs) : BindsAlike withs (bindAll withs) := by
  induction withs with
  | nil => exact fun ctes ctes' _ => Or.inr ⟨ctes, ctes', rfl, rfl, fun n hn => hn.elim False.elim id⟩
  | cons name columns withs body clauses rest ihw ihr =>
    intro ctes ctes' hagree
    have hquery : ∀ n, withs.refers n ∨ body.refers n ∧ ¬ withs.binds n → ctes n = ctes' n :=
      fun n hn => hagree n (.inl hn)
    -- what follows, with one table more in both scopes
    have hrest : ∀ table rows,
        (∃ e, bindAll rest (ctes.insert name table rows) = .error e ∧
          bindAll rest (ctes'.insert name table rows) = .error e) ∨
        ∃ b b' : Ctes, bindAll rest (ctes.insert name table rows) = .ok b ∧
          bindAll rest (ctes'.insert name table rows) = .ok b' ∧
            ∀ n, (n = QueryEngine.toLowercase name ∨ rest.binds n) ∨ ctes n = ctes' n → b n = b' n := by
      intro table rows
      have hinserted : ∀ n, n = QueryEngine.toLowercase name ∨ ctes n = ctes' n →
          ctes.insert name table rows n = ctes'.insert name table rows n := by
        rintro n (rfl | hn)
        · rw [Ctes.insert_self, Ctes.insert_self]
        · exact Ctes.insert_congr hn name table rows
      rcases ihr (ctes.insert name table rows) (ctes'.insert name table rows) fun n hn => hinserted n
          ((eq_or_ne n _).imp id fun hne => hagree n (.inr ⟨hn, hne⟩)) with
        herror | ⟨b, b', hb, hb', hsame⟩
      · exact .inl herror
      · refine .inr ⟨b, b', hb, hb', ?_⟩
        rintro n ((hn | hn) | hn)
        · exact hsame n (.inr (hinserted n (.inl hn)))
        · exact hsame n (.inl hn)
        · exact hsame n (.inr (hinserted n (.inr hn)))
    rw [bindAll, bindAll, recursiveCte_congr ihw name columns body clauses hquery,
      executeBody_congr ihw body clauses hquery]
    cases recursiveCte (bindAll withs) name columns body clauses ctes' with
    | some table => exact hrest table.1 table.2
    | none =>
      cases executeBody (bindAll withs) body clauses ctes' with
      | error e => exact .inl ⟨e, rfl, rfl⟩
      | ok answer => exact hrest _ _

theorem bindAll_keeps (h : ¬ withs.binds n) {scope : Ctes} (hb : bindAll withs ctes = .ok scope) :
    scope n = ctes n := by
  induction withs generalizing ctes with
  | nil =>
    cases hb
    rfl
  | cons name columns withs body clauses rest _ ih =>
    obtain ⟨hname, hrest⟩ := not_or.mp h
    rw [bindAll] at hb
    split at hb
    · rw [ih hrest hb, Ctes.insert_of_ne hname]
    · obtain ⟨answer, _, hb⟩ := H2Result.bind_eq_ok.mp hb
      rw [ih hrest hb, Ctes.insert_of_ne hname]

/-! ## A CTE and its query -/

/-- With whatever CTEs after it, a CTE has the rows of its query, and fails as its query does. -/
def StandsFor (ctes : Ctes) (name : String) (columns : List String) (q : Query) : Prop :=
  ∀ rest : Withs, ¬ rest.binds (QueryEngine.toLowercase name) →
    match q.execute ctes with
    | .error e => bindAll (.cons name columns q.withs q.body q.clauses rest) ctes = .error e
    | .ok answer => ∀ scope, bindAll (.cons name columns q.withs q.body q.clauses rest) ctes = .ok scope →
      ∃ table rows, scope (QueryEngine.toLowercase name) = some (table, rows) ∧ rows.Perm answer.rows

/-- The body is no UNION, or a side of it fails, or the left side has no rows; or else nothing but the sides
decides what the union is, and the right side adds nothing when it is evaluated again. -/
def Unaffected (ctes : Ctes) (q : Query) : Prop :=
  match q.body with
  | .setOperation .union all left right =>
    ∀ l r, executeBody (bindAll q.withs) left q.clauses ctes = .ok l →
      executeBody (bindAll q.withs) right q.clauses ctes = .ok r → l.rows ≠ [] →
      q.withs.Closed ∧ q.clauses = .none ∧ AddsOnce all l.rows r.rows
  | _ => True

variable {all : Bool} {l r : Answer}

theorem recursiveCte_of_sides (hrefers : ¬ (withs.refers (QueryEngine.toLowercase name) ∨
      right.refers (QueryEngine.toLowercase name) ∧ ¬ withs.binds (QueryEngine.toLowercase name)))
    (hl : executeBody (bindAll withs) left clauses ctes = .ok l)
    (hr : executeBody (bindAll withs) right clauses ctes = .ok r) (hrows : l.rows ≠ []) :
    recursiveCte (bindAll withs) name columns (.setOperation .union all left right) clauses ctes =
      some (cteTable name columns l, repeatRows all r.rows 1000 l.rows) := by
  have hsame : ∀ working, executeBody (bindAll withs) right clauses
      (ctes.insert name (cteTable name columns l) working) = .ok r := by
    intro working
    rw [← hr]
    refine executeBody_congr (bindAll_alike withs) right clauses fun n hn => Ctes.insert_of_ne ?_ ..
    rintro rfl
    exact hrefers hn
  unfold recursiveCte
  simp only [hl, hsame]
  rw [iterateRows_first all r 999 hrows, Option.map_some]

theorem recursiveCte_eq_none (hrefers : ¬ (withs.refers (QueryEngine.toLowercase name) ∨
      right.refers (QueryEngine.toLowercase name) ∧ ¬ withs.binds (QueryEngine.toLowercase name)))
    (h : ∀ l r, executeBody (bindAll withs) left clauses ctes = .ok l →
      executeBody (bindAll withs) right clauses ctes = .ok r → l.rows = []) :
    recursiveCte (bindAll withs) name columns (.setOperation .union all left right) clauses ctes = none := by
  have hsame : ∀ table working, executeBody (bindAll withs) right clauses (ctes.insert name table working) =
      executeBody (bindAll withs) right clauses ctes := by
    intro table working
    refine executeBody_congr (bindAll_alike withs) right clauses fun n hn => Ctes.insert_of_ne ?_ ..
    rintro rfl
    exact hrefers hn
  unfold recursiveCte
  simp only [hsame]
  cases hl : executeBody (bindAll withs) left clauses ctes with
  | error e => rfl
  | ok l =>
    cases hr : executeBody (bindAll withs) right clauses ctes with
    | error e => simp [iterateRows]
    | ok r => simp [iterateRows, h l r hl hr]

theorem standsFor_of_none {q : Query}
    (h : recursiveCte (bindAll q.withs) name columns q.body q.clauses ctes = none) :
    StandsFor ctes name columns q := by
  intro rest hrest
  have hbind : bindAll (.cons name columns q.withs q.body q.clauses rest) ctes =
      q.execute ctes >>= fun answer =>
        bindAll rest (ctes.insert name (cteTable name columns answer) answer.rows) := by
    rw [bindAll, h]
    rfl
  cases hq : q.execute ctes with
  | error e =>
    rw [hbind, hq]
    rfl
  | ok answer =>
    intro scope hscope
    rw [hbind, hq] at hscope
    exact ⟨_, answer.rows, (bindAll_keeps hrest hscope).trans (Ctes.insert_self ..), List.Perm.refl _⟩

theorem standsFor_of_some {q : Query} {table : TableDef} {rows : List Row}
    (h : recursiveCte (bindAll q.withs) name columns q.body q.clauses ctes = some (table, rows)) :
    StandsFor ctes name columns q ↔ ∃ answer, q.execute ctes = .ok answer ∧ rows.Perm answer.rows := by
  have hbind : ∀ rest, bindAll (.cons name columns q.withs q.body q.clauses rest) ctes =
      bindAll rest (ctes.insert name table rows) := by
    intro rest
    rw [bindAll, h]
  constructor
  · intro hstands
    have hnil := hstands .nil id
    rw [hbind .nil] at hnil
    cases hq : q.execute ctes with
    | error e =>
      rw [hq] at hnil
      cases hnil
    | ok answer =>
      rw [hq] at hnil
      obtain ⟨table', rows', hfound, hperm⟩ := hnil _ rfl
      rw [Ctes.insert_self] at hfound
      cases hfound
      exact ⟨answer, rfl, hperm⟩
  · rintro ⟨answer, hq, hperm⟩ rest hrest
    rw [hq]
    intro scope hscope
    rw [hbind] at hscope
    exact ⟨table, rows, (bindAll_keeps hrest hscope).trans (Ctes.insert_self ..), hperm⟩

theorem bindAll_of_executeBody {body : SetExpr} {answer : Answer}
    (h : executeBody (bindAll withs) body clauses ctes = .ok answer) :
    ∃ inner, bindAll withs ctes = .ok inner := by
  cases hbind : bindAll withs ctes with
  | ok inner => exact ⟨inner, rfl⟩
  | error e =>
    cases body with
    | select s =>
      rw [executeBody, hbind] at h
      cases h
    | setOperation op all left right =>
      rw [executeBody, hbind] at h
      cases h
    | other =>
      rw [executeBody, hbind] at h
      cases h

/-- The sides of a union do not change when its WITH is in scope already. -/
theorem execute_of_sides (hclosed : withs.Closed) (hl : executeBody (bindAll withs) left .none ctes = .ok l)
    (hr : executeBody (bindAll withs) right .none ctes = .ok r) :
    Query.execute ⟨withs, .setOperation .union all left right, .none⟩ ctes =
      .ok ⟨l.columns, combineRows .union all l.rows r.rows⟩ := by
  obtain ⟨inner, hinner⟩ := bindAll_of_executeBody hl
  have hside : ∀ body, executeBody (bindAll withs) body .none inner =
      executeBody (bindAll withs) body .none ctes := by
    intro body
    apply executeBody_congr (bindAll_alike withs)
    rintro n (hn | hn)
    · exact bindAll_keeps (hclosed n hn) hinner
    · exact bindAll_keeps hn.2 hinner
  rw [Query.execute, executeBody, hinner]
  change (executeBody (bindAll withs) left .none inner >>= _) = _
  rw [hside, hl]
  change (executeBody (bindAll withs) right .none inner >>= _) = _
  rw [hside, hr]
  rfl

theorem standsFor_iff_addsOnce (hclosed : withs.Closed)
    (hright : ¬ (withs.refers (QueryEngine.toLowercase name) ∨
      right.refers (QueryEngine.toLowercase name) ∧ ¬ withs.binds (QueryEngine.toLowercase name)))
    (hl : executeBody (bindAll withs) left .none ctes = .ok l)
    (hr : executeBody (bindAll withs) right .none ctes = .ok r) (hrows : l.rows ≠ []) :
    StandsFor ctes name columns ⟨withs, .setOperation .union all left right, .none⟩ ↔
      AddsOnce all l.rows r.rows := by
  have hcte := @recursiveCte_of_sides _ name ctes withs columns left right .none _ _ all l r hright hl
    hr hrows
  rw [standsFor_of_some hcte, execute_of_sides hclosed hl hr, ← perm_combineRows_iff_addsOnce]
  constructor
  · rintro ⟨answer, hanswer, hperm⟩
    cases hanswer
    exact hperm
  · exact fun hperm => ⟨_, rfl, hperm⟩

end

@[reducible] def plainEngine : QueryEngine where
  Select := List Row
  toLowercase := id
  orderKey _ _ row := row.headD .null
  select rows _ _ := .ok ⟨["a"], rows⟩
  refers _ _ := False
  select_congr _ _ _ _ _ := rfl

attribute [local instance] plainCrates plainArithmetic plainEngine

def numberRow (n : Int) : Row := [.bigInt (.ofInt n)]

def unionOf (all : Bool) (l r : List Row) : Query :=
  ⟨.nil, .setOperation .union all (.select l) (.select r), .none⟩

end H2Database.Sql
