import H2Database.Sql.Script
import Mathlib.Data.List.DropRight

/-!
# CSV files (`h2-sql/src/executor/helpers.rs`, `h2-sql/src/executor/statement.rs`)

`COPY TO` writes a row as a line.  A field that has the delimiter, a quote or a line break in it stands
between quotes.  `COPY FROM` cuts the file into lines, takes the blanks off both ends of each, and leaves
out the empty ones.
-/

namespace H2Database.Sql

open List

/-! ## Fields and lines -/

section

variable [Crates]

def fieldText : Value → List Char
  | .null => []
  | .string s => s.toList
  | v => (Crates.display v).toList

def formatCsvField (val : Value) (delimiter : Char) : List Char :=
  let s := fieldText val
  if delimiter ∈ s ∨ '"' ∈ s ∨ '\n' ∈ s ∨ '\r' ∈ s then
    '"' :: (s.flatMap fun c => if c = '"' then ['"', '"'] else [c]) ++ ['"']
  else s

end

/-- The fields of a line, behind what has been read of the current one. -/
def parseFields (delimiter : Char) : Bool → List Char → List Char → List (List Char)
  | _, current, [] => [current]
  | true, current, '"' :: '"' :: cs => parseFields delimiter true (current ++ ['"']) cs
  | true, current, '"' :: cs => parseFields delimiter false current cs
  | true, current, c :: cs => parseFields delimiter true (current ++ [c]) cs
  | false, current, c :: cs =>
    if c = '"' then parseFields delimiter true current cs
    else if c = delimiter then current :: parseFields delimiter false [] cs
    else parseFields delimiter false (current ++ [c]) cs

def parseCsvLine (line : List Char) (delimiter : Char) : List String :=
  (parseFields delimiter false [] line).map String.ofList

/-- `str::lines`: a carriage return before a line feed belongs to the line break. -/
def lines (content : List Char) : List (List Char) :=
  let parts := content.splitOn '\n'
  parts.dropLast.map stripReturn ++ parts.getLast?.toList.filter (· ≠ [])
where
  stripReturn (line : List Char) : List Char :=
    if line.getLast? = some '\r' then line.dropLast else line

/-! ## COPY -/

section

variable [Crates]

def csvLine (delimiter : Char) (row : Row) : List Char :=
  [delimiter].intercalate (row.map fun v => formatCsvField v delimiter)

def headerLine (delimiter : Char) (cols : List String) : List Char :=
  [delimiter].intercalate (cols.map String.toList)

/-- The file of `COPY TO`. -/
def csvText (header : Bool) (delimiter : Char) (cols : List String) (rows : List Row) : String :=
  String.ofList ((if header then headerLine delimiter cols ++ ['\n'] else []) ++
    rows.flatMap fun row => csvLine delimiter row ++ ['\n'])

end

/-- `COPY FROM` leaves out a blank line. -/
def csvRecord (delimiter : Char) (line : List Char) : Option (List String) :=
  let trimmed := trim (String.ofList line)
  if trimmed = "" then none else some (parseCsvLine trimmed.toList delimiter)

/-- The fields of the lines that `COPY FROM` takes. -/
def csvRecords (header : Bool) (delimiter : Char) (content : String) : List (List String) :=
  ((lines content.toList).drop (if header then 1 else 0)).filterMap (csvRecord delimiter)

section

variable [Crates]

def importLines (c : CopyFrom) (t : TableDef) (targets : List Nat) :
    Nat → List (List String) → H2Result (List Row)
  | _, [] => .ok []
  | number, fields :: records => do
    let row ← buildLine c t targets number fields
    let rows ← importLines c t targets (number + 1) records
    .ok (row :: rows)

def importedRows (c : CopyFrom) (t : TableDef) (targets : List Nat) : H2Result (List Row) :=
  importLines c t targets 0 c.records

end

/-! ## Reading a line -/

attribute [local simp] parseFields

variable {cs : List Char}

theorem head?_ne_quote (h : ∀ cs', cs = '"' :: cs' → False) : cs.head? ≠ some '"' := by
  cases cs with
  | nil => simp
  | cons c cs =>
    intro hc
    exact h cs (by rw [Option.some.inj hc])

theorem parseFields_close (delimiter : Char) (current : List Char) (h : cs.head? ≠ some '"') :
    parseFields delimiter true current ('"' :: cs) = parseFields delimiter false current cs := by
  cases cs with
  | nil => rfl
  | cons c cs =>
    rw [parseFields]
    rintro cs' heq
    obtain ⟨rfl, -⟩ := List.cons.inj heq
    exact h rfl

theorem parseFields_quoted (delimiter : Char) (current : List Char) {c : Char}
    (hc : c ≠ '"') (cs : List Char) :
    parseFields delimiter true current (c :: cs) = parseFields delimiter true (current ++ [c]) cs := by
  rw [parseFields]
  · exact fun _ h => absurd h hc
  · exact hc

theorem parseFields_doubled (delimiter : Char) (current cs : List Char) {rest : List Char}
    (hrest : rest.head? ≠ some '"') :
    parseFields delimiter true current
      ((cs.flatMap fun c => if c = '"' then ['"', '"'] else [c]) ++ '"' :: rest) =
      parseFields delimiter false (current ++ cs) rest := by
  induction cs generalizing current with
  | nil => rw [List.flatMap_nil, List.nil_append, parseFields_close delimiter current hrest, List.append_nil]
  | cons c cs ih =>
    rw [List.flatMap_cons, List.append_assoc]
    split_ifs with hc
    · rw [List.cons_append, List.singleton_append, parseFields, ih, hc, List.append_assoc,
        List.singleton_append]
    · rw [List.singleton_append, parseFields_quoted delimiter current hc, ih, List.append_assoc,
        List.singleton_append]

theorem parseFields_plain (delimiter : Char) (current : List Char) (hquote : '"' ∉ cs)
    (hdelimiter : delimiter ∉ cs) (rest : List Char) :
    parseFields delimiter false current (cs ++ rest) = parseFields delimiter false (current ++ cs) rest := by
  induction cs generalizing current with
  | nil => rw [nil_append, append_nil]
  | cons c cs ih =>
    obtain ⟨hc, hcs⟩ := not_or.mp (mt mem_cons.mpr hquote)
    obtain ⟨hd, hds⟩ := not_or.mp (mt mem_cons.mpr hdelimiter)
    rw [cons_append, parseFields, if_neg (Ne.symm hc), if_neg (Ne.symm hd), ih _ hcs hds, append_assoc,
      singleton_append]

section

variable [Crates] {delimiter : Char}

theorem parseFields_format (v : Value) (current : List Char) {rest : List Char}
    (hrest : rest.head? ≠ some '"') :
    parseFields delimiter false current (formatCsvField v delimiter ++ rest) =
      parseFields delimiter false (current ++ fieldText v) rest := by
  rw [formatCsvField]
  split_ifs with h
  · rw [List.cons_append, List.cons_append, List.append_assoc, parseFields, if_pos rfl, List.singleton_append]
    exact parseFields_doubled delimiter current (fieldText v) hrest
  · obtain ⟨hd, hq, -⟩ := not_or.mp h |>.imp_right not_or.mp
    exact parseFields_plain delimiter current hq hd rest

theorem parseFields_csvLine (hd : delimiter ≠ '"') {row : Row} (hrow : row ≠ []) :
    parseFields delimiter false [] (csvLine delimiter row) = row.map fieldText := by
  have hline : ∀ (v : Value) (row : Row) (current : List Char),
      parseFields delimiter false current (csvLine delimiter (v :: row)) =
        (current ++ fieldText v) :: row.map fieldText := by
    intro v row
    induction row generalizing v with
    | nil =>
      intro current
      have h := @parseFields_format _ delimiter v current [] (by simp)
      rw [append_nil] at h
      rw [csvLine, map_cons, map_nil, intercalate_singleton, h]
      rfl
    | cons w row ih =>
      intro current
      rw [csvLine, map_cons, map_cons, intercalate_cons_cons, append_assoc,
        singleton_append, parseFields_format v current (by simpa using hd), parseFields, if_neg hd,
          if_pos rfl]
      have := ih w []
      rw [csvLine, map_cons] at this
      rw [this, nil_append, map_cons]
  cases row with
  | nil => exact absurd rfl hrow
  | cons v row =>
    rw [hline v row [], nil_append, map_cons]

end

/-! ## The weight of a line -/

def fieldsWeight (fields : List (List Char)) : Nat := (fields.map List.length).sum + fields.length

theorem fieldsWeight_cons (field : List Char) (fields : List (List Char)) :
    fieldsWeight (field :: fields) = field.length + 1 + fieldsWeight fields := by
  rw [fieldsWeight, fieldsWeight, map_cons, sum_cons, length_cons]
  omega

theorem fieldsWeight_noQuotes (delimiter : Char) (inQuotes : Bool) (current : List Char) (hcs : '"' ∉ cs) :
    fieldsWeight (parseFields delimiter inQuotes current cs) = current.length + 1 + cs.length := by
  induction cs generalizing inQuotes current with
  | nil =>
    rw [parseFields, fieldsWeight_cons]
    rfl
  | cons c cs ih =>
    obtain ⟨hc, hcs⟩ := not_or.mp (mt List.mem_cons.mpr hcs)
    cases inQuotes with
    | true =>
      rw [parseFields_quoted delimiter current (Ne.symm hc), ih true _ hcs, List.length_append,
        List.length_cons, List.length_cons, List.length_nil]
      omega
    | false =>
      rw [parseFields, if_neg (Ne.symm hc), List.length_cons]
      split_ifs with hd
      · rw [fieldsWeight_cons, ih false _ hcs, List.length_nil]
        omega
      · rw [ih false _ hcs, List.length_append, List.length_singleton]
        omega

theorem fieldsWeight_append (delimiter : Char) (inQuotes : Bool) (current cs : List Char) {tail : List Char}
    (htail : '"' ∉ tail) : fieldsWeight (parseFields delimiter inQuotes current (cs ++ tail)) =
      fieldsWeight (parseFields delimiter inQuotes current cs) + tail.length := by
  have hhead : ∀ {cs : List Char}, cs.head? ≠ some '"' → (cs ++ tail).head? ≠ some '"' := by
    intro cs hcs
    cases cs with
    | nil => exact fun h => htail (mem_of_mem_head? h)
    | cons c cs => exact hcs
  induction inQuotes, current, cs using parseFields.induct delimiter with
  | case1 inQuotes current =>
    rw [nil_append, fieldsWeight_noQuotes delimiter _ _ htail, parseFields, fieldsWeight_cons]
    rfl
  | case2 current cs ih =>
    rw [cons_append, cons_append, parseFields, parseFields, ih]
  | case3 current cs hcs ih =>
    have hcs := head?_ne_quote hcs
    rw [cons_append, parseFields_close delimiter current (hhead hcs), parseFields_close delimiter current hcs,
      ih]
  | case4 current c cs hc hc' ih =>
    rw [cons_append, parseFields_quoted delimiter current hc', parseFields_quoted delimiter current hc', ih]
  | case5 current cs ih =>
    rw [cons_append, parseFields, if_pos rfl, parseFields, if_pos rfl, ih]
  | case6 current cs hc ih =>
    rw [cons_append, parseFields, if_neg hc, if_pos rfl, parseFields, if_neg hc, if_pos rfl,
      fieldsWeight_cons, fieldsWeight_cons, ih]
    omega
  | case7 current c cs hc hd ih =>
    rw [cons_append, parseFields, if_neg hc, if_neg hd, parseFields, if_neg hc, if_neg hd, ih]

theorem fieldsWeight_read (delimiter : Char) (read : List Char) (inQuotes : Bool) (current cs : List Char) :
    fieldsWeight (parseFields delimiter inQuotes (read ++ current) cs) =
      read.length + fieldsWeight (parseFields delimiter inQuotes current cs) := by
  induction inQuotes, current, cs using parseFields.induct delimiter with
  | case1 inQuotes current =>
    rw [parseFields, parseFields, fieldsWeight_cons, fieldsWeight_cons, length_append]
    omega
  | case2 current cs ih =>
    rw [parseFields, parseFields, append_assoc, ih]
  | case3 current cs hcs ih =>
    have hcs := head?_ne_quote hcs
    rw [parseFields_close delimiter _ hcs, parseFields_close delimiter _ hcs, ih]
  | case4 current c cs hc hc' ih =>
    rw [parseFields_quoted delimiter _ hc', parseFields_quoted delimiter _ hc', append_assoc, ih]
  | case5 current cs ih =>
    rw [parseFields, if_pos rfl, parseFields, if_pos rfl, ih]
  | case6 current cs hc ih =>
    rw [parseFields, if_neg hc, if_pos rfl, parseFields, if_neg hc, if_pos rfl, fieldsWeight_cons,
      fieldsWeight_cons, length_append]
    omega
  | case7 current c cs hc hd ih =>
    rw [parseFields, if_neg hc, if_neg hd, parseFields, if_neg hc, if_neg hd, append_assoc, ih]

theorem fieldsWeight_current (delimiter : Char) (inQuotes : Bool) (current cs : List Char) :
    fieldsWeight (parseFields delimiter inQuotes current cs) =
      current.length + fieldsWeight (parseFields delimiter inQuotes [] cs) := by
  have h := fieldsWeight_read delimiter current inQuotes [] cs
  rwa [append_nil] at h

theorem fieldsWeight_front (delimiter : Char) {front : List Char}
    (hfront : '"' ∉ front) (current cs : List Char) :
    fieldsWeight (parseFields delimiter false current (front ++ cs)) =
      front.length + fieldsWeight (parseFields delimiter false current cs) := by
  induction front generalizing current with
  | nil => rw [List.nil_append, List.length_nil, Nat.zero_add]
  | cons c front ih =>
    obtain ⟨hc, hfront⟩ := not_or.mp (mt List.mem_cons.mpr hfront)
    rw [List.cons_append, parseFields, if_neg (Ne.symm hc), List.length_cons,
      fieldsWeight_current delimiter false current cs]
    split_ifs with hd
    · rw [fieldsWeight_cons, ih hfront]
      omega
    · rw [ih hfront, fieldsWeight_current delimiter false (current ++ [c]) cs, List.length_append,
        List.length_singleton]
      omega

/-! ## Blanks at the ends of a line -/

theorem quote_notMem_of_isWhiteSpace (h : ∀ c ∈ cs, isWhiteSpace c = true) : '"' ∉ cs :=
  fun hq => absurd (h _ hq) (by decide)

theorem exists_trim (cs : List Char) : ∃ front tail : List Char, (∀ c ∈ front, isWhiteSpace c = true) ∧
    (∀ c ∈ tail, isWhiteSpace c = true) ∧ cs = front ++ (trim (String.ofList cs)).toList ++ tail := by
  refine ⟨cs.takeWhile isWhiteSpace, ((cs.dropWhile isWhiteSpace).reverse.takeWhile isWhiteSpace).reverse,
    fun c hc => mem_takeWhile_imp hc, fun c hc => mem_takeWhile_imp (mem_reverse.mp hc), ?_⟩
  rw [toList_trim, append_assoc, ← reverse_append, takeWhile_append_dropWhile, reverse_reverse,
    takeWhile_append_dropWhile]

theorem parseFields_trim_iff (delimiter : Char) (cs : List Char) :
    parseFields delimiter false [] (trim (String.ofList cs)).toList = parseFields delimiter false [] cs ↔
      (trim (String.ofList cs)).toList = cs := by
  refine ⟨fun h => ?_, fun h => by rw [h]⟩
  obtain ⟨front, tail, hfront, htail, hcs⟩ := exists_trim cs
  have hweight := congrArg fieldsWeight h
  have hall : fieldsWeight (parseFields delimiter false [] cs) = front.length +
      fieldsWeight (parseFields delimiter false [] (trim (String.ofList cs)).toList) + tail.length := by
    conv_lhs => rw [hcs]
    rw [fieldsWeight_append delimiter false [] _ (quote_notMem_of_isWhiteSpace htail),
      fieldsWeight_front delimiter (quote_notMem_of_isWhiteSpace hfront)]
  have hfront : front = [] := eq_nil_of_length_eq_zero (by omega)
  have htail : tail = [] := eq_nil_of_length_eq_zero (by omega)
  rw [hfront, htail, nil_append, append_nil] at hcs
  exact hcs.symm

theorem trim_eq_self_iff (cs : List Char) : (trim (String.ofList cs)).toList = cs ∧ cs ≠ [] ↔
    (∃ c, cs.head? = some c ∧ isWhiteSpace c = false) ∧ ∃ c, cs.getLast? = some c ∧
      isWhiteSpace c = false := by
  constructor
  · rintro ⟨htrim, hne⟩
    rw [toList_trim] at htrim
    have hlast := rdropWhile_last_not isWhiteSpace (cs.dropWhile isWhiteSpace)
    have hprefix := rdropWhile_prefix isWhiteSpace (l := cs.dropWhile isWhiteSpace)
    have hlength := hprefix.length_le.trans (dropWhile_suffix isWhiteSpace (l := cs)).length_le
    rw [List.rdropWhile, htrim] at hprefix
    have hdrop : cs.dropWhile isWhiteSpace = cs :=
      (dropWhile_suffix isWhiteSpace).eq_of_length_le hprefix.length_le
    have hhead := head_dropWhile_not isWhiteSpace (l := cs) (by rwa [hdrop])
    refine ⟨⟨cs.head hne, head?_eq_some_head hne, ?_⟩, cs.getLast hne,
      getLast?_eq_some_getLast hne, ?_⟩
    · simpa only [hdrop] using hhead
    · simp only [List.rdropWhile, htrim] at hlast
      exact Bool.not_eq_true _ ▸ hlast hne
  · rintro ⟨⟨c, hc, hblank⟩, d, hd, hblank'⟩
    have hne : cs ≠ [] := by
      rintro rfl
      cases hc
    refine ⟨?_, hne⟩
    obtain ⟨front, tail, hfront, htail, hcs⟩ := exists_trim cs
    have hfront : front = [] := by
      cases front with
      | nil => rfl
      | cons x front =>
        rw [hcs, cons_append, cons_append, head?_cons, Option.some.injEq] at hc
        rw [← hc, hfront x mem_cons_self] at hblank
        cases hblank
    have htail : tail = [] := by
      rcases eq_nil_or_concat tail with rfl | ⟨tail, x, rfl⟩
      · rfl
      · rw [hcs, concat_eq_append, ← append_assoc, getLast?_append_cons, getLast?_singleton,
          Option.some.injEq] at hd
        rw [← hd, htail x (by simp)] at hblank'
        cases hblank'
    rw [hfront, htail, nil_append, append_nil] at hcs
    exact hcs.symm

theorem trim_stripReturn (line : List Char) :
    trim (String.ofList (lines.stripReturn line)) = trim (String.ofList line) := by
  rw [lines.stripReturn]
  split_ifs with h
  · obtain ⟨front, rfl⟩ := getLast?_eq_some_iff.mp h
    apply String.toList_inj.mp
    rw [dropLast_concat, toList_trim, toList_trim, dropWhile_append]
    split_ifs with hempty
    · rw [isEmpty_iff.mp hempty]
      decide
    · rw [reverse_append, reverse_singleton, singleton_append, dropWhile_cons, if_pos (by decide)]
  · rfl

/-! ## The lines of a file -/

theorem lines_append (text rest : List Char) :
    lines (text ++ '\n' :: rest) = (text.splitOn '\n').map lines.stripReturn ++ lines rest := by
  have hrest := splitOn_ne_nil '\n' rest
  rw [lines, splitOn_append_cons_self, dropLast_append_of_ne_nil hrest, map_append,
    append_assoc, getLast?_append_of_ne_nil _ hrest]
  rfl

theorem lines_flatMap (texts : List (List Char)) : lines (texts.flatMap fun text => text ++ ['\n']) =
    texts.flatMap fun text => (text.splitOn '\n').map lines.stripReturn := by
  induction texts with
  | nil => rfl
  | cons text texts ih =>
    rw [flatMap_cons, flatMap_cons, append_assoc, singleton_append, lines_append, ih]

theorem notMem_of_mem_splitOn (a : Char) {xs part : List Char} (h : part ∈ xs.splitOn a) : a ∉ part := by
  induction xs generalizing part with
  | nil =>
    rw [splitOn_nil, mem_singleton] at h
    rw [h]
    exact not_mem_nil
  | cons x xs ih =>
    rw [splitOn_cons_eq_if_modifyHead] at h
    split_ifs at h with hx
    · rcases mem_cons.mp h with rfl | h
      · exact not_mem_nil
      · exact ih h
    · obtain ⟨first, others, hsplit⟩ := exists_cons_of_ne_nil (splitOn_ne_nil a xs)
      rw [hsplit, modifyHead_cons] at h
      rcases mem_cons.mp h with rfl | h
      · have := @ih first (by rw [hsplit]; exact mem_cons_self)
        rw [mem_cons, not_or]
        exact ⟨fun heq => hx (by rw [heq]; exact beq_self_eq_true x), this⟩
      · exact ih (by rw [hsplit]; exact mem_cons_of_mem _ h)

theorem lineBreak_notMem_fields (delimiter : Char) {inQuotes : Bool} {current cs : List Char}
    (hcs : '\n' ∉ cs)
    (hcurrent : '\n' ∉ current) : ∀ field ∈ parseFields delimiter inQuotes current cs, '\n' ∉ field := by
  have hpush : ∀ {current : List Char} {c : Char}, '\n' ∉ current → '\n' ≠ c → '\n' ∉ current ++ [c] := by
    intro current c hcurrent hc
    rw [mem_append, mem_singleton, not_or]
    exact ⟨hcurrent, hc⟩
  have htail : ∀ {c : Char} {cs : List Char}, '\n' ∉ c :: cs → '\n' ∉ cs :=
    fun h hmem => h (mem_cons_of_mem _ hmem)
  have hhead : ∀ {c : Char} {cs : List Char}, '\n' ∉ c :: cs → '\n' ≠ c :=
    fun h heq => h (heq ▸ mem_cons_self)
  induction inQuotes, current, cs using parseFields.induct delimiter with
  | case1 inQuotes current =>
    rw [parseFields, forall_mem_singleton]
    exact hcurrent
  | case2 current cs ih =>
    rw [parseFields]
    exact ih (htail (htail hcs)) (hpush hcurrent (by decide))
  | case3 current cs hquote ih =>
    have hquote := head?_ne_quote hquote
    rw [parseFields_close delimiter _ hquote]
    exact ih (htail hcs) hcurrent
  | case4 current c cs hc hc' ih =>
    rw [parseFields_quoted delimiter _ hc']
    exact ih (htail hcs) (hpush hcurrent (hhead hcs))
  | case5 current cs ih =>
    rw [parseFields, if_pos rfl]
    exact ih (htail hcs) hcurrent
  | case6 current cs hc ih =>
    rw [parseFields, if_neg hc, if_pos rfl, forall_mem_cons]
    exact ⟨hcurrent, ih (htail hcs) not_mem_nil⟩
  | case7 current c cs hc hd ih =>
    rw [parseFields, if_neg hc, if_neg hd]
    exact ih (htail hcs) (hpush hcurrent (hhead hcs))

theorem length_parseFields (delimiter : Char) {inQuotes : Bool} {current cs : List Char}
    (hcs : delimiter ∉ cs) :
    (parseFields delimiter inQuotes current cs).length = 1 := by
  have htail : ∀ {c : Char} {cs : List Char}, delimiter ∉ c :: cs → delimiter ∉ cs :=
    fun h hmem => h (mem_cons_of_mem _ hmem)
  induction inQuotes, current, cs using parseFields.induct delimiter with
  | case1 inQuotes current => rw [parseFields, length_singleton]
  | case2 current cs ih =>
    rw [parseFields]
    exact ih (htail (htail hcs))
  | case3 current cs hquote ih =>
    have hquote := head?_ne_quote hquote
    rw [parseFields_close delimiter _ hquote]
    exact ih (htail hcs)
  | case4 current c cs hc hc' ih =>
    rw [parseFields_quoted delimiter _ hc']
    exact ih (htail hcs)
  | case5 current cs ih =>
    rw [parseFields, if_pos rfl]
    exact ih (htail hcs)
  | case6 current cs hc ih => exact absurd mem_cons_self hcs
  | case7 current c cs hc hd ih =>
    rw [parseFields, if_neg hc, if_neg hd]
    exact ih (htail hcs)

theorem csvRecord_fields {delimiter : Char} {line : List Char} {fields : List String} (hline : '\n' ∉ line)
    (h : csvRecord delimiter line = some fields) :
    (∀ field ∈ fields, '\n' ∉ field.toList) ∧ (delimiter = '\n' → fields.length = 1) := by
  have htrim : '\n' ∉ (trim (String.ofList line)).toList := by
    obtain ⟨front, tail, -, -, hcs⟩ := exists_trim line
    intro hmem
    rw [hcs] at hline
    exact hline (mem_append_left _ (mem_append_right _ hmem))
  rw [csvRecord] at h
  split_ifs at h with hblank
  obtain rfl := Option.some.inj h
  constructor
  · intro field hfield
    obtain ⟨cs, hcs, rfl⟩ := mem_map.mp hfield
    rw [String.toList_ofList]
    exact lineBreak_notMem_fields delimiter htrim not_mem_nil cs hcs
  · rintro rfl
    rw [parseCsvLine, length_map, length_parseFields '\n' htrim]

theorem eq_some_of_filterMap {α β : Type} {f : α → Option β} {g : β → α} {xs : List α}
    (h : (xs.filterMap f).map g = xs) : ∀ x ∈ xs, ∃ y, f x = some y ∧ g y = x := by
  induction xs with
  | nil => exact forall_mem_nil _
  | cons x xs ih =>
    cases hx : f x with
    | none =>
      rw [filterMap_cons_none hx] at h
      have hlength := congrArg List.length h
      have := length_filterMap_le f xs
      rw [length_map, length_cons] at hlength
      omega
    | some y =>
      rw [filterMap_cons_some hx, map_cons] at h
      obtain ⟨hy, h⟩ := List.cons.inj h
      exact forall_mem_cons.mpr ⟨⟨y, hx, hy⟩, ih h⟩

/-! ## The line of a row -/

/-- What stands at an end of a row's line, where the value is `s` with `c` at this end. -/
def edge (delimiter : Char) (s : List Char) (c : Option Char) (more : Bool) : Option Char :=
  if delimiter ∈ s ∨ '"' ∈ s ∨ '\n' ∈ s ∨ '\r' ∈ s then some '"'
  else c.or (if more then some delimiter else none)

section

variable [Crates] {delimiter : Char}

theorem csvLine_cons_cons (v w : Value) (row : Row) : csvLine delimiter (v :: w :: row) =
    formatCsvField v delimiter ++ delimiter :: csvLine delimiter (w :: row) := by
  rw [csvLine, map_cons, map_cons, intercalate_cons_cons, append_assoc, singleton_append]
  rfl

theorem csvLine_singleton (v : Value) : csvLine delimiter [v] = formatCsvField v delimiter :=
  intercalate_singleton

theorem head?_csvLine (v : Value) (row : Row) : (csvLine delimiter (v :: row)).head? =
    edge delimiter (fieldText v) (fieldText v).head? (1 < (v :: row).length) := by
  cases row with
  | nil =>
    rw [csvLine_singleton, formatCsvField, edge]
    split_ifs with h hmore
    · rfl
    · exact absurd hmore (by simp)
    · rw [Option.or_none]
  | cons w row =>
    rw [csvLine_cons_cons, formatCsvField, edge]
    split_ifs with h hmore
    · rfl
    · rw [head?_append, head?_cons]
    · exact absurd hmore (by simp)

theorem getLast?_csvLine (row : Row) (v : Value) : (csvLine delimiter (row ++ [v])).getLast? =
    edge delimiter (fieldText v) (fieldText v).getLast? (1 < (row ++ [v]).length) := by
  -- a delimiter before the value shows only if nothing is written behind it
  have hbehind : ∀ more :
    Bool, (edge delimiter (fieldText v) (fieldText v).getLast? more).or (some delimiter) =
      edge delimiter (fieldText v) (fieldText v).getLast? true := by
    intro more
    rw [edge, edge]
    split
    · rfl
    · cases more with
      | true => rw [if_pos rfl, Option.or_assoc]; rfl
      | false => rw [if_neg Bool.false_ne_true, if_pos rfl, Option.or_none]
  induction row with
  | nil =>
    rw [nil_append, csvLine_singleton, formatCsvField, edge]
    split_ifs with h hmore
    · rw [getLast?_concat]
    · exact absurd hmore (by simp)
    · rw [Option.or_none]
  | cons w row ih =>
    obtain ⟨u, others, hrow⟩ : ∃ u others, row ++ [v] = u :: others := exists_cons_of_ne_nil (by simp)
    have hlength : 1 < (w :: row ++ [v]).length := by simp
    rw [decide_eq_true hlength, ← hbehind, ← ih, cons_append, hrow, csvLine_cons_cons, getLast?_append,
      getLast?_cons, Option.or_some]
    cases (csvLine delimiter (u :: others)).getLast? <;> rfl

theorem lineBreak_notMem_formatCsvField {s : String} (hs : '\n' ∉ s.toList) :
    '\n' ∉ formatCsvField (.string s) delimiter := by
  have hdoubled : '\n' ∉ s.toList.flatMap fun c => if c = '"' then ['"', '"'] else [c] := by
    rw [List.mem_flatMap]
    rintro ⟨c, hc, hmem⟩
    split_ifs at hmem
    · exact absurd hmem (by decide)
    · exact hs (List.mem_singleton.mp hmem ▸ hc)
  rw [formatCsvField, fieldText]
  split_ifs
  · simpa using hdoubled
  · exact hs

theorem lineBreak_notMem_csvLine {row : Row} (htext : ∀ v ∈ row, ∃ s, v = .string s ∧ '\n' ∉ s.toList)
    (hline : delimiter = '\n' → row.length ≤ 1) : '\n' ∉ csvLine delimiter row := by
  induction row with
  | nil => exact List.not_mem_nil
  | cons v row ih =>
    obtain ⟨s, rfl, hs⟩ := htext v List.mem_cons_self
    cases row with
    | nil =>
      rw [csvLine_singleton]
      exact lineBreak_notMem_formatCsvField hs
    | cons w row =>
      have hd : delimiter ≠ '\n' := fun hd => absurd (hline hd) (by simp)
      rw [csvLine_cons_cons, List.mem_append, List.mem_cons, not_or, not_or]
      exact ⟨lineBreak_notMem_formatCsvField hs, hd.symm,
        ih (fun v hv => htext v (List.mem_cons_of_mem _ hv)) fun h => absurd h hd⟩

theorem csvRecord_csvLine_iff (hd : delimiter ≠ '"') (row : Row) :
    csvRecord delimiter (lines.stripReturn (csvLine delimiter row)) =
        some (row.map fun v => String.ofList (fieldText v)) ↔
      (trim (String.ofList (csvLine delimiter row))).toList = csvLine delimiter row ∧
        csvLine delimiter row ≠ [] := by
  have hofList : Function.Injective String.ofList := fun _ _ => String.ofList_injective
  rw [csvRecord, trim_stripReturn]
  by_cases hrow : row = []
  · refine iff_of_false ?_ fun h => h.2 (by rw [hrow, csvLine, map_nil, intercalate_nil])
    rw [hrow, csvLine, map_nil, intercalate_nil, if_pos (by decide)]
    simp
  split_ifs with hblank
  · refine iff_of_false (by simp) fun h => h.2 ?_
    rw [← h.1, hblank]
    rfl
  · have hmap : (row.map fun v => String.ofList (fieldText v)) = (row.map fieldText).map String.ofList := by
      rw [map_map]
      rfl
    rw [Option.some.injEq, parseCsvLine, hmap, (map_injective_iff.mpr hofList).eq_iff,
      ← parseFields_csvLine hd hrow, parseFields_trim_iff]
    refine ⟨fun h => ⟨h, fun hnil => hblank ?_⟩, fun h => h.1⟩
    rw [hnil] at h ⊢
    exact String.toList_inj.mp h

end

/-! ## The rows of the lines -/

section

variable [Crates]

variable {t : TableDef}

theorem fillFields_varChar (ht : ∀ col ∈ t.columns, ∃ len, col.dataType = .varChar len)
    (fields : List String) (done : Row) (h : done.length + fields.length = t.columns.length) :
    fillFields t ((List.range' done.length fields.length).zip fields)
      (done ++ List.replicate fields.length .null) = .ok (done ++ fields.map .string) := by
  induction fields generalizing done with
  | nil => rfl
  | cons field fields ih =>
    rw [length_cons] at h
    obtain ⟨len, hlen⟩ := ht _ (getElem_mem (show done.length < t.columns.length by omega))
    have hcast : (Value.string field).castTo ((t.columns[done.length]?.map ColumnDef.dataType).getD .blob) =
        .ok (.string field) := by
      rw [getElem?_eq_getElem (by omega), Option.map_some, Option.getD_some, hlen]
      rfl
    have hset : (done ++ List.replicate (fields.length + 1) Value.null).set done.length (.string field) =
        (done ++ [.string field]) ++ List.replicate fields.length .null := by
      rw [replicate_succ, set_append_right _ _ le_rfl, Nat.sub_self, set_cons_zero, append_assoc,
        singleton_append]
    have hnext := ih (done ++ [.string field]) (by rw [length_append, length_singleton]; omega)
    rw [length_append, length_singleton] at hnext
    rw [length_cons, List.range'_succ, zip_cons_cons, fillFields, hcast]
    change fillFields t _ (List.set _ _ _) = _
    rw [hset, hnext, append_assoc, singleton_append, map_cons]

theorem fillSequences_notNull (nextval : Nat → H2Result Int64) (i : Nat) (columns : List ColumnDef)
    {row : Row}
    (hrow : ∀ v ∈ row, v.isNull = false) (h : i + columns.length ≤ row.length) :
    fillSequences nextval i columns row = .ok row := by
  induction columns generalizing i with
  | nil => rfl
  | cons col columns ih =>
    rw [length_cons] at h
    have hi := hrow _ (getElem_mem (show i < row.length by omega))
    rw [fillSequences, getElem?_eq_getElem (by omega), Option.getD_some, hi, Bool.and_false,
      if_neg Bool.false_ne_true, ih (i + 1) (by omega)]

variable {c : CopyFrom}

theorem buildLine_varChar (ht : ∀ col ∈ t.columns, ∃ len, col.dataType = .varChar len)
    (number : Nat) {fields : List String} (h : fields.length = t.columns.length) :
    buildLine c t (List.range t.columns.length) number fields = .ok (fields.map .string) := by
  have hfill := fillFields_varChar ht fields [] (by rw [length_nil, Nat.zero_add, h])
  rw [length_nil, nil_append, nil_append, ← range_eq_range', h] at hfill
  have hsequences : fillSequences (c.nextval number) 0 t.columns (fields.map .string) =
      .ok (fields.map .string) := by
    refine fillSequences_notNull _ 0 t.columns (fun v hv => ?_) (by rw [length_map, h, Nat.zero_add])
    obtain ⟨s, -, rfl⟩ := mem_map.mp hv
    rfl
  rw [buildLine, length_range, if_neg (not_not.mpr h)]
  change (do
    let row ← fillFields t _ _
    fillSequences (c.nextval number) 0 t.columns row) = _
  rw [hfill]
  exact hsequences

theorem importLines_eq_ok_iff
    (ht : ∀ col ∈ t.columns, ∃ len, col.dataType = .varChar len) (number : Nat) (records : List (List String))
    (rows : List Row) : importLines c t (List.range t.columns.length) number records = .ok rows ↔
      (∀ fields ∈ records, fields.length = t.columns.length) ∧ records.map (List.map .string) = rows := by
  induction records generalizing number rows with
  | nil => exact ⟨fun h => ⟨forall_mem_nil _, Except.ok.inj h⟩, fun h => congrArg Except.ok h.2⟩
  | cons fields records ih =>
    rw [importLines, H2Result.bind_eq_ok, forall_mem_cons, map_cons]
    constructor
    · rintro ⟨row, hrow, h⟩
      obtain ⟨others, hothers, h⟩ := H2Result.bind_eq_ok.mp h
      have hlength : fields.length = t.columns.length := by
        by_contra hlength
        rw [buildLine, length_range, if_pos hlength] at hrow
        cases hrow
      rw [buildLine_varChar ht number hlength, Except.ok.injEq] at hrow
      rw [ih] at hothers
      exact ⟨⟨hlength, hothers.1⟩, by rw [hrow, hothers.2]; exact Except.ok.inj h⟩
    · rintro ⟨⟨hlength, hlengths⟩, rfl⟩
      refine ⟨_, buildLine_varChar ht number hlength, ?_⟩
      rw [(ih (number + 1) _).mpr ⟨hlengths, rfl⟩]
      rfl

/-- The values of the row are texts without a line break, its line is one line, and what stands at the ends of
the line is no blank. -/
structure CsvKept (delimiter : Char) (row : Row) : Prop where
  text : ∀ v ∈ row, ∃ s, v = .string s ∧ '\n' ∉ s.toList
  oneLine : delimiter = '\n' → row.length ≤ 1
  first : ∃ s, row.head? = some (.string s) ∧
    ∃ c, edge delimiter s.toList s.toList.head? (1 < row.length) = some c ∧ isWhiteSpace c = false
  last : ∃ s, row.getLast? = some (.string s) ∧
    ∃ c, edge delimiter s.toList s.toList.getLast? (1 < row.length) = some c ∧ isWhiteSpace c = false

variable {delimiter : Char} {row : Row}

theorem map_fieldText (h : ∀ v ∈ row, ∃ s, v = .string s) :
    (row.map fun v => String.ofList (fieldText v)).map .string = row := by
  rw [map_map]
  refine (map_congr_left fun v hv => ?_).trans row.map_id
  obtain ⟨s, rfl⟩ := h v hv
  exact congrArg Value.string String.ofList_toList

/-- A row of texts comes back from its line if something stands at the ends of the line that is no blank. -/
theorem csvRecord_edges_iff (hd : delimiter ≠ '"') (htext : ∀ v ∈ row, ∃ s, v = .string s) :
    csvRecord delimiter (lines.stripReturn (csvLine delimiter row)) =
        some (row.map fun v => String.ofList (fieldText v)) ↔
      (∃ s, row.head? = some (.string s) ∧
        ∃ c, edge delimiter s.toList s.toList.head? (1 < row.length) = some c ∧ isWhiteSpace c = false) ∧
      ∃ s, row.getLast? = some (.string s) ∧
        ∃ c, edge delimiter s.toList s.toList.getLast? (1 < row.length) = some c ∧
          isWhiteSpace c = false := by
  have hone : ∀ {s : String} {P : String → Prop},
      (∃ s', some (Value.string s) = some (.string s') ∧ P s') ↔ P s := by
    intro s P
    refine ⟨?_, fun h => ⟨s, rfl, h⟩⟩
    rintro ⟨s', hs, h⟩
    cases hs
    exact h
  rw [csvRecord_csvLine_iff hd, trim_eq_self_iff]
  cases row with
  | nil =>
    refine iff_of_false ?_ ?_
    · rintro ⟨⟨c, hc, -⟩, -⟩
      cases hc
    · rintro ⟨⟨s, hs, -⟩, -⟩
      cases hs
  | cons v row =>
    obtain ⟨s, rfl⟩ := htext v List.mem_cons_self
    obtain ⟨others, w, hlast⟩ : ∃ others w, Value.string s :: row = others ++ [w] :=
      (List.eq_nil_or_concat' (Value.string s :: row)).resolve_left (List.cons_ne_nil _ _)
    obtain ⟨s', rfl⟩ := htext w (by rw [hlast]; simp)
    have hhead := @head?_csvLine _ delimiter (.string s) row
    have hback := @getLast?_csvLine _ delimiter others (.string s')
    rw [← hlast] at hback
    have hlast : (Value.string s :: row).getLast? = some (.string s') := by rw [hlast, List.getLast?_concat]
    rw [hhead, hback, List.head?_cons, hlast, hone, hone]
    rfl

theorem csvRecords_csvText (header : Bool) (delimiter : Char) (cols : List String) (rows : List Row) :
    csvRecords header delimiter (csvText header delimiter cols rows) =
      (if header then ((headerLine delimiter cols).splitOn '\n').tail.filterMap (csvRecord delimiter)
        else []) ++
        (rows.flatMap fun row => (csvLine delimiter row).splitOn '\n').filterMap (csvRecord delimiter) := by
  have hstrip : csvRecord delimiter ∘ lines.stripReturn = csvRecord delimiter := by
    funext line
    rw [Function.comp, csvRecord, csvRecord, trim_stripReturn]
  have hrows : lines (rows.flatMap fun row => csvLine delimiter row ++ ['\n']) =
      (rows.flatMap fun row => (csvLine delimiter row).splitOn '\n').map lines.stripReturn := by
    have := lines_flatMap (rows.map (csvLine delimiter))
    rw [List.flatMap_map, List.flatMap_map] at this
    rw [this, List.map_flatMap]
  rw [csvRecords, csvText, String.toList_ofList]
  cases header with
  | false =>
    rw [if_neg Bool.false_ne_true, if_neg Bool.false_ne_true, if_neg Bool.false_ne_true, List.drop_zero,
      List.nil_append, List.nil_append, hrows, List.filterMap_map, hstrip]
  | true =>
    obtain ⟨first, others, hsplit⟩ :=
      List.exists_cons_of_ne_nil (List.splitOn_ne_nil '\n' (headerLine delimiter cols))
    rw [if_pos rfl, if_pos rfl, if_pos rfl, List.append_assoc, List.singleton_append, lines_append,
      hsplit, hrows,
      List.map_cons, List.cons_append, List.drop_succ_cons, List.drop_zero, List.tail_cons,
        List.filterMap_append,
      List.filterMap_map, List.filterMap_map, hstrip]

theorem flatMap_splitOn_csvLine {rows : List Row} (h : ∀ row ∈ rows, '\n' ∉ csvLine delimiter row) :
    (rows.flatMap fun row => (csvLine delimiter row).splitOn '\n') = rows.map (csvLine delimiter) := by
  induction rows with
  | nil => rfl
  | cons row rows ih =>
    rw [List.flatMap_cons, List.splitOn_eq_singleton (h row List.mem_cons_self), List.map_cons,
      ih fun row hrow => h row (List.mem_cons_of_mem _ hrow), List.singleton_append]

/-- Rows come back from their file, whatever the header, if each of them is kept and the further lines of the
header are blank; and where the header is one line they come back only then. -/
theorem importedRows_csvText (ht : ∀ col ∈ t.columns, ∃ len, col.dataType = .varChar len)
    (header : Bool) (hd : delimiter ≠ '"') (cols : List String) {rows : List Row}
    (hrows : ∀ row ∈ rows, row.length = t.columns.length ∧ ∀ v ∈ row, v = .null ∨ ∃ s, v = .string s)
    (hc : c.records = csvRecords header delimiter (csvText header delimiter cols rows)) :
    ((∀ row ∈ rows, CsvKept delimiter row) →
        (header = true → ∀ line ∈ ((headerLine delimiter cols).splitOn '\n').tail,
          trim (String.ofList line) = "") →
      importedRows c t (List.range t.columns.length) = .ok rows) ∧
      ((header = true → '\n' ∉ headerLine delimiter cols) →
        importedRows c t (List.range t.columns.length) = .ok rows → ∀ row ∈ rows, CsvKept delimiter row) := by
  have hstrip : ∀ line, csvRecord delimiter (lines.stripReturn line) = csvRecord delimiter line := by
    intro line
    rw [csvRecord, csvRecord, trim_stripReturn]
  rw [importedRows, importLines_eq_ok_iff ht, hc, csvRecords_csvText]
  constructor
  · intro hkept hheader
    have hnone : (if header then ((headerLine delimiter cols).splitOn '\n').tail.filterMap
      (csvRecord delimiter)
        else []) = [] := by
      split_ifs with h
      · refine filterMap_eq_nil_iff.mpr fun line hline => ?_
        rw [csvRecord, hheader h line hline, if_pos rfl]
      · rfl
    have hall : (rows.map (csvLine delimiter)).filterMap (csvRecord delimiter) =
        rows.map fun row => row.map fun v => String.ofList (fieldText v) := by
      rw [filterMap_map, ← filterMap_eq_map]
      refine filterMap_congr fun row hrow => ?_
      have htext : ∀ v ∈ row, ∃ s, v = .string s :=
        fun v hv => (hkept row hrow).text v hv |>.imp fun _ h => h.1
      rw [Function.comp_apply, ← hstrip]
      exact (csvRecord_edges_iff hd htext).mpr ⟨(hkept row hrow).first, (hkept row hrow).last⟩
    rw [hnone, nil_append, flatMap_splitOn_csvLine fun row hrow =>
      lineBreak_notMem_csvLine (hkept row hrow).text (hkept row hrow).oneLine, hall]
    constructor
    · intro fields hfields
      obtain ⟨row, hrow, rfl⟩ := mem_map.mp hfields
      rw [length_map, (hrows row hrow).1]
    · rw [map_map]
      refine (map_congr_left fun row hrow => ?_).trans rows.map_id
      exact map_fieldText fun v hv => (hkept row hrow).text v hv |>.imp fun _ h => h.1
  · rintro hheader ⟨-, h⟩
    have hnone : (if header then ((headerLine delimiter cols).splitOn '\n').tail.filterMap
      (csvRecord delimiter)
        else []) = [] := by
      split_ifs with hh
      · rw [splitOn_eq_singleton (hheader hh)]
        rfl
      · rfl
    rw [hnone, nil_append] at h
    -- every row is made of the fields of a line
    have hfields : ∀ row ∈ rows, (∀ v ∈ row, ∃ s, v = .string s ∧ '\n' ∉ s.toList) ∧
        (delimiter = '\n' → row.length ≤ 1) := by
      intro row hrow
      rw [← h] at hrow
      obtain ⟨fields, hfields, rfl⟩ := mem_map.mp hrow
      obtain ⟨line, hline, hrecord⟩ := mem_filterMap.mp hfields
      obtain ⟨row, -, hline⟩ := mem_flatMap.mp hline
      obtain ⟨htext, hone⟩ := csvRecord_fields (notMem_of_mem_splitOn '\n' hline) hrecord
      refine ⟨fun v hv => ?_, fun hd => ?_⟩
      · obtain ⟨s, hs, rfl⟩ := mem_map.mp hv
        exact ⟨s, rfl, htext s hs⟩
      · rw [length_map, hone hd]
    rw [flatMap_splitOn_csvLine fun row hrow =>
      lineBreak_notMem_csvLine (hfields row hrow).1 (hfields row hrow).2,
      filterMap_map] at h
    intro row hrow
    obtain ⟨fields, hrecord, hfieldsRow⟩ := eq_some_of_filterMap h row hrow
    have htext : ∀ v ∈ row, ∃ s, v = .string s := fun v hv => (hfields row hrow).1 v hv |>.imp fun _ h => h.1
    have hsame : fields = row.map fun v => String.ofList (fieldText v) := by
      rw [← hfieldsRow, map_map]
      exact ((map_congr_left fun field _ => String.ofList_toList).trans fields.map_id).symm
    rw [Function.comp_apply, ← hstrip, hsame] at hrecord
    obtain ⟨hfirst, hlast⟩ := (csvRecord_edges_iff hd htext).mp hrecord
    exact ⟨(hfields row hrow).1, (hfields row hrow).2, hfirst, hlast⟩

end

end H2Database.Sql
