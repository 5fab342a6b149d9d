import H2Database.Sql.Careful
import H2Database.Sql.Value
import H2Database.Reasoning.Cuts

/-!
# SQL scripts (`h2-sql/src/executor/helpers.rs`, `h2-types/src/value.rs`)

A backup writes values as literals, and `split_sql_script` cuts a script at the semicolons that are in no
string.  An apostrophe begins or ends a string unless it stands behind a backslash.
-/

namespace H2Database.Sql

open Reasoning List

def quoted (s : String) : String :=
  String.ofList ('\'' :: (s.toList.flatMap fun c => if c = '\'' then ['\'', '\''] else [c]) ++ ['\''])

section

variable [Crates]

mutual

/-- `lossy` is what bytes are as a text. -/
def Value.toSqlLiteral (lossy : List UInt8 → String) : Value → String
  | .null => "NULL"
  | .boolean b => if b then "TRUE" else "FALSE"
  | .tinyInt n => toString n.toInt
  | .smallInt n => toString n.toInt
  | .integer n => toString n.toInt
  | .bigInt n => toString n.toInt
  | .float f => Crates.display (.float f)
  | .double d => Crates.display (.double d)
  | .decimal d => Crates.display (.decimal d)
  | .string s => quoted s
  | .bytes b => quoted (lossy b)
  | .date d => "DATE '" ++ Crates.display (.date d) ++ "'"
  | .time t => "TIME '" ++ Crates.display (.time t) ++ "'"
  | .timestamp ts => "TIMESTAMP '" ++ Crates.display (.timestamp ts) ++ "'"
  | .uuid u => "'" ++ Crates.display (.uuid u) ++ "'"
  | .json j => quoted (Crates.display (.json j))
  | .interval inv => "INTERVAL '" ++ Crates.display (.interval inv) ++ "'"
  | .array arr => "ARRAY[" ++ ", ".intercalate (Value.toSqlLiterals lossy arr) ++ "]"

def Value.toSqlLiterals (lossy : List UInt8 → String) : List Value → List String
  | [] => []
  | v :: vs => v.toSqlLiteral lossy :: Value.toSqlLiterals lossy vs

end

end

structure ScriptSplitter where
  stmts : List String
  current : List Char
  inSingleQuote : Bool
  prevChar : Char

namespace ScriptSplitter

def pushCurrent (s : ScriptSplitter) : List String :=
  let trimmed := trim (String.ofList s.current)
  if trimmed ≠ "" then s.stmts ++ [trimmed] else s.stmts

def step (s : ScriptSplitter) (ch : Char) : ScriptSplitter :=
  if ch = '\'' ∧ s.prevChar ≠ '\\' then ⟨s.stmts, s.current ++ [ch], !s.inSingleQuote, ch⟩
  else if ch = ';' ∧ s.inSingleQuote = false then ⟨s.pushCurrent, [], s.inSingleQuote, ch⟩
  else ⟨s.stmts, s.current ++ [ch], s.inSingleQuote, ch⟩

end ScriptSplitter

def splitSqlScript (content : String) : List String :=
  (content.toList.foldl ScriptSplitter.step ⟨[], [], false, Char.ofNat 0⟩).pushCurrent

/-! ## Where a script is cut -/

/-- The semicolons in no string.  `lookBack` says that an apostrophe behind a backslash does not count. -/
def cutMarks (lookBack : Bool) : Bool → Char → List Char → List (Char × Bool)
  | _, _, [] => []
  | inString, prev, c :: cs =>
    (c, decide (c = ';' ∧ inString = false)) ::
      cutMarks lookBack (if c = '\'' ∧ ¬(lookBack = true ∧ prev = '\\') then !inString else inString) c cs

/-- The pieces of a script without surrounding blanks; blank ones are dropped. -/
def statementsOf (ps : List (List Char)) : List String :=
  (ps.map fun piece => trim (String.ofList piece)).filter (· ≠ "")

theorem map_fst_cutMarks (lookBack inString : Bool) (prev : Char) (cs : List Char) :
    (cutMarks lookBack inString prev cs).map Prod.fst = cs := by
  induction cs generalizing inString prev with
  | nil => rfl
  | cons c cs ih => rw [cutMarks, map_cons, ih]

theorem eq_semicolon_of_mem_cutMarks {lookBack inString : Bool} {prev : Char} {cs : List Char}
    {x : Char × Bool}
    (hx : x ∈ cutMarks lookBack inString prev cs) (hcut : x.2 = true) : x.1 = ';' := by
  induction cs generalizing inString prev with
  | nil => cases hx
  | cons c cs ih =>
    rw [cutMarks] at hx
    rcases mem_cons.mp hx with rfl | hx
    · exact (of_decide_eq_true hcut).1
    · exact ih hx

theorem statementsOf_cons (piece : List Char) (ps : List (List Char)) : statementsOf (piece :: ps) =
    (if trim (String.ofList piece) ≠ "" then [trim (String.ofList piece)] else []) ++ statementsOf ps := by
  rw [statementsOf, map_cons, filter_cons]
  split_ifs with h h' h' <;> simp_all [statementsOf]

theorem foldl_step (s : ScriptSplitter) (cs : List Char) : (cs.foldl ScriptSplitter.step s).pushCurrent =
    s.stmts ++ statementsOf
      ((pieces (cutMarks true s.inSingleQuote s.prevChar cs)).modifyHead (s.current ++ ·)) := by
  induction cs generalizing s with
  | nil =>
    rw [foldl_nil, cutMarks, pieces, modifyHead_cons, append_nil, statementsOf_cons]
    simp only [ScriptSplitter.pushCurrent, statementsOf, map_nil, filter_nil, append_nil]
    split_ifs
    · rfl
    · rw [append_nil]
  | cons c cs ih =>
    rw [foldl_cons, ih, cutMarks, pieces]
    obtain ⟨first, others, h⟩ :=
      pieces_eq_cons (cutMarks true (s.step c).inSingleQuote (s.step c).prevChar cs)
    rw [h]
    by_cases hquote : c = '\'' ∧ s.prevChar ≠ '\\'
    · have hstep : s.step c = ⟨s.stmts, s.current ++ [c], !s.inSingleQuote, c⟩ := if_pos hquote
      rw [hstep] at h ⊢
      have hcut : ¬ (c = ';' ∧ s.inSingleQuote = false) := by
        rintro ⟨rfl, -⟩
        exact absurd hquote.1 (by decide)
      have hback : c = '\'' ∧ ¬(true = true ∧ s.prevChar = '\\') := ⟨hquote.1, fun hp => hquote.2 hp.2⟩
      rw [if_pos hback, h, decide_eq_false hcut, if_neg Bool.false_ne_true]
      simp
    · have hback : ¬ (c = '\'' ∧ ¬(true = true ∧ s.prevChar = '\\')) := by
        intro hq
        exact hquote ⟨hq.1, fun hp => hq.2 ⟨rfl, hp⟩⟩
      rw [if_neg hback]
      by_cases hcut : c = ';' ∧ s.inSingleQuote = false
      · have hstep : s.step c = ⟨s.pushCurrent, [], s.inSingleQuote, c⟩ := by
          rw [ScriptSplitter.step, if_neg hquote, if_pos hcut]
        rw [hstep] at h ⊢
        rw [h, decide_eq_true hcut, if_pos rfl]
        simp only [modifyHead_cons, append_nil, nil_append, statementsOf_cons s.current,
          ScriptSplitter.pushCurrent]
        split_ifs
        · rw [append_assoc]
        · rw [nil_append]
      · have hstep : s.step c = ⟨s.stmts, s.current ++ [c], s.inSingleQuote, c⟩ := by
          rw [ScriptSplitter.step, if_neg hquote, if_neg hcut]
        rw [hstep] at h ⊢
        rw [h, decide_eq_false hcut, if_neg Bool.false_ne_true]
        simp

theorem splitSqlScript_eq (content : String) : splitSqlScript content =
    statementsOf (pieces (cutMarks true false (Char.ofNat 0) content.toList)) := by
  rw [splitSqlScript, foldl_step]
  obtain ⟨first, others, h⟩ := pieces_eq_cons (cutMarks true false (Char.ofNat 0) content.toList)
  simp only [h, nil_append, modifyHead_cons]

/-! ## Statements -/

def escapedQuotes : Char → List Char → Nat
  | _, [] => 0
  | prev, c :: cs => (if c = '\'' ∧ prev = '\\' then 1 else 0) + escapedQuotes c cs

theorem cutMarks_eq_iff (inString inString' : Bool) (prev prev' : Char) (cs : List Char) :
    cutMarks true inString prev cs = cutMarks false inString' prev' cs ↔ ∀ a b, cs = a ++ ';' :: b →
      (escapedQuotes prev a + if inString = inString' then 0 else 1) % 2 = 0 := by
  induction cs generalizing inString inString' prev prev' with
  | nil => simp [cutMarks]
  | cons c cs ih =>
    rw [cutMarks, cutMarks, List.cons.injEq, ih]
    -- the semicolon is `c` itself, or it is behind `c`
    have hfirst : (∀ a b, c :: cs = a ++ ';' :: b →
        (escapedQuotes prev a + if inString = inString' then 0 else 1) % 2 = 0) ↔
        (c = ';' → inString = inString') ∧ ∀ a b, cs = a ++ ';' :: b →
          (escapedQuotes prev (c :: a) + if inString = inString' then 0 else 1) % 2 = 0 := by
      constructor
      · intro h
        refine ⟨fun hc => ?_, fun a b hcs => h (c :: a) b (by rw [hcs]; rfl)⟩
        by_contra hne
        have := h [] cs (by rw [hc]; rfl)
        simp [escapedQuotes, hne] at this
      · intro h a b hcs
        cases a with
        | nil =>
          obtain ⟨rfl, -⟩ := List.cons.inj hcs
          simp [escapedQuotes, h.1 rfl]
        | cons d a =>
          obtain ⟨hd, htail⟩ := List.cons.inj hcs
          rw [← hd]
          exact h.2 a b htail
    rw [hfirst]
    apply and_congr
    · constructor
      · intro h hc
        subst hc
        cases inString <;> cases inString' <;> simp_all
      · intro h
        by_cases hc : c = ';'
        · rw [h hc]
        · simp [hc]
    · apply forall_congr'
      intro a
      apply forall_congr'
      intro b
      apply imp_congr_right
      intro _
      rw [escapedQuotes]
      by_cases hquote : c = '\''
      · by_cases hprev : prev = '\\'
        · cases inString <;> cases inString' <;> simp [hquote, hprev] <;> omega
        · cases inString <;> cases inString' <;> simp [hquote, hprev]
      · simp [hquote]

section

theorem toList_trim (cs : List Char) : (trim (String.ofList cs)).toList =
    ((cs.dropWhile isWhiteSpace).reverse.dropWhile isWhiteSpace).reverse := by
  rw [trim, String.toList_ofList, String.toList_ofList]

theorem trim_lineBreak (cs : List Char) : trim (String.ofList ('\n' :: cs)) = trim (String.ofList cs) := by
  apply String.toList_inj.mp
  rw [toList_trim, toList_trim, dropWhile_cons, if_pos (by decide)]

theorem countP_trim (cs : List Char) :
    (trim (String.ofList cs)).toList.countP (· = ';') = cs.countP (· = ';') := by
  have hdrop : ∀ cs : List Char, (cs.dropWhile isWhiteSpace).countP (· = ';') = cs.countP (· = ';') := by
    intro cs
    induction cs with
    | nil => rfl
    | cons c cs ih =>
      rw [dropWhile_cons]
      split_ifs with hc
      · have hne : ¬ c = ';' := by
          rintro rfl
          exact absurd hc (by decide)
        rw [ih, countP_cons, if_neg (by simpa using hne), Nat.add_zero]
      · rfl
  rw [toList_trim, countP_reverse, hdrop, countP_reverse, hdrop]

/-- The text begins and ends outside of strings, and all its semicolons are inside. -/
def Balanced (inString : Bool) (text : List Char) (after : Bool) : Prop :=
  ∀ prev rest, ∃ prev', cutMarks false inString prev (text ++ rest) =
    text.map (fun c => (c, false)) ++ cutMarks false after prev' rest

theorem Balanced.append {q q' q'' : Bool} {a b : List Char} (ha : Balanced q a q') (hb : Balanced q' b q'') :
    Balanced q (a ++ b) q'' := by
  intro prev rest
  obtain ⟨prev', h⟩ := ha prev (b ++ rest)
  obtain ⟨prev'', h'⟩ := hb prev' rest
  exact ⟨prev'', by rw [append_assoc, h, h', map_append, append_assoc]⟩

theorem balanced_nil (q : Bool) : Balanced q [] q := fun prev _ => ⟨prev, rfl⟩

theorem balanced_quote (q : Bool) : Balanced q ['\''] !q := by
  intro prev rest
  exact ⟨'\'', by simp [cutMarks]⟩

theorem balanced_char {c : Char} (hc : c ≠ '\'') {q : Bool} (hcut : c = ';' → q = true) :
    Balanced q [c] q := by
  intro prev rest
  refine ⟨c, ?_⟩
  rw [singleton_append, cutMarks, if_neg fun h => hc h.1, decide_eq_false]
  · rfl
  · intro h
    rw [hcut h.1] at h
    cases h.2

theorem balanced_quoted (content : String) : Balanced false (quoted content).toList false := by
  have hinside : ∀ cs : List Char,
      Balanced true (cs.flatMap fun c => if c = '\'' then ['\'', '\''] else [c]) true := by
    intro cs
    induction cs with
    | nil => exact balanced_nil true
    | cons c cs ih =>
      rw [flatMap_cons]
      refine Balanced.append ?_ ih
      split_ifs with hc
      · exact (balanced_quote true).append (balanced_quote false)
      · exact balanced_char hc fun _ => rfl
  rw [quoted, String.toList_ofList, ← singleton_append]
  exact ((balanced_quote false).append (hinside content.toList)).append (balanced_quote true)

theorem pieces_joined (prev : Char) (text : List Char) (texts : List (List Char))
    (h : ∀ t ∈ text :: texts, Balanced false t false) :
    pieces (cutMarks false false prev ([';', '\n'].intercalate (text :: texts))) =
      text :: texts.map fun t => '\n' :: t := by
  induction texts generalizing prev text with
  | nil =>
    obtain ⟨prev', h⟩ := h text mem_cons_self prev []
    rw [append_nil] at h
    rw [intercalate_singleton, h, pieces_append]
    simp [cutMarks, pieces]
  | cons t texts ih =>
    obtain ⟨prev', hfront⟩ := h text mem_cons_self prev
      (';' :: '\n' :: [';', '\n'].intercalate (t :: texts))
    have hjoin : [';', '\n'].intercalate (text :: t :: texts) =
        text ++ ';' :: '\n' :: [';', '\n'].intercalate (t :: texts) := by
      rw [intercalate_cons_cons, append_assoc]
      rfl
    rw [hjoin, hfront, pieces_append]
    -- the semicolon is a cut, and the line break begins the next piece
    have hcut : cutMarks false false prev' (';' :: '\n' :: [';', '\n'].intercalate (t :: texts)) =
        (';', true) :: ('\n', false) :: cutMarks false false '\n' ([';', '\n'].intercalate (t :: texts)) := by
      simp [cutMarks]
    rw [hcut, pieces, if_pos rfl, pieces, if_neg Bool.false_ne_true,
      ih '\n' t fun u hu => h u (mem_cons_of_mem _ hu)]
    simp

variable [Crates] {lossy : List UInt8 → String}

/-- A part of a statement: the literal of a value that is a string with its apostrophes doubled, or text with
neither an apostrophe nor a semicolon. -/
inductive Fragment (lossy : List UInt8 → String) where
  | plain (text : List Char) (clean : ∀ c ∈ text, c ≠ '\'' ∧ c ≠ ';')
  | literal (v : Value) (content : String) (isString : v.toSqlLiteral lossy = quoted content)

def Fragment.text : Fragment lossy → List Char
  | .plain text _ => text
  | .literal v _ _ => (v.toSqlLiteral lossy).toList

def statementText (fragments : List (Fragment lossy)) : String :=
  String.ofList (fragments.flatMap Fragment.text)

def script (stmts : List (List (Fragment lossy))) : String := ";\n".intercalate (stmts.map statementText)

theorem Fragment.balanced (f : Fragment lossy) : Balanced false f.text false := by
  cases f with
  | plain text clean =>
    rw [Fragment.text]
    induction text with
    | nil => exact balanced_nil false
    | cons c text ih =>
      have hc := clean c mem_cons_self
      rw [← singleton_append]
      exact (balanced_char hc.1 fun h => absurd h hc.2).append (ih fun d hd => clean d (mem_cons_of_mem _ hd))
  | literal v content isString =>
    rw [Fragment.text, isString]
    exact balanced_quoted content

theorem balanced_statement (fragments : List (Fragment lossy)) :
    Balanced false (fragments.flatMap Fragment.text) false := by
  induction fragments with
  | nil => exact balanced_nil false
  | cons f fragments ih =>
    rw [flatMap_cons]
    exact f.balanced.append ih

/-! ## The split of a script -/

/-- A script is split into its statements if none of them is blank and an even number of apostrophes behind
backslashes stands before each semicolon, and only then. -/
theorem splitSqlScript_script_iff (stmts : List (List (Fragment lossy))) :
    splitSqlScript (script stmts) = (stmts.map fun fragments => trim (statementText fragments)) ↔
      (∀ fragments ∈ stmts, trim (statementText fragments) ≠ "") ∧
        ∀ a b, (script stmts).toList = a ++ ';' :: b → escapedQuotes (Char.ofNat 0) a % 2 = 0 := by
  set found := cutMarks true false (Char.ofNat 0) (script stmts).toList with hfound
  set meant := cutMarks false false (Char.ofNat 0) (script stmts).toList with hmeant
  have heven : found = meant ↔ ∀ a b, (script stmts).toList = a ++ ';' :: b →
      escapedQuotes (Char.ofNat 0) a % 2 = 0 := cutMarks_eq_iff false false _ _ _
  rw [← heven, splitSqlScript_eq]
  cases hstmts : stmts with
  | nil =>
    have hempty : (script stmts).toList = [] := by
      rw [hstmts, script, map_nil, String.intercalate_nil]
      rfl
    have hsame : found = meant := by
      rw [hfound, hmeant, hempty]
      rfl
    rw [← hstmts, ← hfound, hsame, hmeant, hempty]
    simp [hstmts, cutMarks, pieces, statementsOf, trim]
  | cons first others =>
    -- the pieces that are meant are the statements
    have hpieces : pieces meant = first.flatMap Fragment.text ::
        (others.map fun fragments => fragments.flatMap Fragment.text).map fun t => '\n' :: t := by
      rw [hmeant, script, String.toList_intercalate, hstmts]
      have hjoin : ((first :: others).map statementText).map String.toList = first.flatMap Fragment.text ::
          others.map fun fragments => fragments.flatMap Fragment.text := by
        simp [statementText, Function.comp_def]
      rw [hjoin]
      apply pieces_joined
      intro t ht
      rcases mem_cons.mp ht with rfl | ht
      · exact balanced_statement first
      · obtain ⟨fragments, -, rfl⟩ := mem_map.mp ht
        exact balanced_statement fragments
    have htexts : (pieces meant).map (fun piece => trim (String.ofList piece)) =
        (first :: others).map fun fragments => trim (statementText fragments) := by
      rw [hpieces, map_cons, map_cons, map_map, map_map]
      refine congrArg _ (map_congr_left fun fragments _ => ?_)
      exact trim_lineBreak _
    rw [← hstmts, ← hfound]
    rw [← hstmts] at htexts
    constructor
    · intro h
      refine ⟨fun fragments hin => ?_, ?_⟩
      · have hmem : trim (statementText fragments) ∈ statementsOf (pieces found) := by
          rw [h]
          exact mem_map_of_mem hin
        exact of_decide_eq_true (mem_filter.mp hmem).2
      · apply eq_of_countP_kept (p := (· = ';')) fun piece => trim (String.ofList piece) ≠ ""
        · rw [hfound, hmeant, map_fst_cutMarks, map_fst_cutMarks]
        · exact fun x hx hcut => decide_eq_true (eq_semicolon_of_mem_cutMarks hx hcut)
        · exact fun x hx hcut => decide_eq_true (eq_semicolon_of_mem_cutMarks hx hcut)
        · intro piece hpiece
          rw [← countP_trim, not_not.mp (of_decide_eq_false hpiece)]
          rfl
        · have hcounts := congrArg (List.map fun s : String => s.toList.countP (· = ';'))
            (h.trans htexts.symm)
          rw [statementsOf, filter_map, map_map, map_map] at hcounts
          simp only [Function.comp_def, countP_trim] at hcounts
          exact hcounts
    · rintro ⟨hblank, hsame⟩
      rw [hsame, statementsOf, htexts, filter_eq_self]
      intro text htext
      obtain ⟨fragments, hin, rfl⟩ := mem_map.mp htext
      exact decide_eq_true (hblank fragments hin)

end

attribute [local instance] plainCrates

def backslashScript : List (List (Fragment fun _ => "")) :=
  [[.plain ['V', 'A', 'L', 'U', 'E', 'S', ' '] (by simp), .literal (.string "\\") "\\" rfl],
    [.plain ['E', 'N', 'D'] (by simp)]]

theorem backslashScript_not_split : ¬ splitSqlScript (script backslashScript) =
    backslashScript.map fun fragments => trim (statementText fragments) := by
  decide +kernel

end H2Database.Sql
