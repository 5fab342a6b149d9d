import H2Database.Sql.IntervalSeconds

/-!
# Intervals that read back from their text

What `Display` writes is taken apart into words, and `parse` is followed over them.
-/

namespace H2Database.Sql

open Reasoning List Option Nat
open Int hiding cast_ofNat cast_zero

/-! ## Words -/

theorem splitWhitespace_append (xs ys : List Char) {c : Char} (hc : isWhiteSpace c) :
    splitWhitespace (xs ++ c :: ys) = splitWhitespace xs ++ splitWhitespace ys := by
  rw [splitWhitespace, splitOnP_append_cons xs ys hc, filter_append]
  rfl

def IsWord (word : List Char) : Prop := word ≠ [] ∧ ∀ c ∈ word, isWhiteSpace c = false

theorem splitWhitespace_word {word : List Char} (h : IsWord word) : splitWhitespace word = [word] := by
  have hempty : word.isEmpty = false := isEmpty_eq_false_iff.mpr h.1
  rw [splitWhitespace, splitOnP_eq_singleton h.2]
  simp only [filter_cons, hempty, Bool.not_false, if_true, filter_nil]

theorem splitWhitespace_dropWhile (cs : List Char) :
    splitWhitespace (cs.dropWhile isWhiteSpace) = splitWhitespace cs := by
  induction cs with
  | nil => rfl
  | cons c cs ih =>
    by_cases hc : isWhiteSpace c
    · rw [dropWhile_cons_of_pos hc, ih]
      exact (splitWhitespace_append [] cs hc).symm
    · rw [dropWhile_cons_of_neg hc]

theorem splitWhitespace_rdropWhile (cs : List Char) :
    splitWhitespace (cs.rdropWhile isWhiteSpace) = splitWhitespace cs := by
  induction cs using List.reverseRecOn with
  | nil => rfl
  | append_singleton cs c ih =>
    by_cases hc : isWhiteSpace c
    · rw [rdropWhile_concat_pos _ _ _ hc, ih, splitWhitespace_append cs [] hc]
      exact (append_nil _).symm
    · rw [rdropWhile_concat_neg _ _ _ hc]

theorem splitWhitespace_trim (cs : List Char) :
    splitWhitespace (trim (String.ofList cs)).toList = splitWhitespace cs := by
  rw [trim, String.toList_ofList, String.toList_ofList]
  exact (splitWhitespace_rdropWhile _).trans (splitWhitespace_dropWhile cs)

theorem splitWhitespace_intercalate (parts : List (List Char)) :
    splitWhitespace ([' '].intercalate parts) = parts.flatMap splitWhitespace := by
  induction parts with
  | nil => rfl
  | cons part parts ih =>
    rcases parts with _ | ⟨next, parts⟩
    · rw [intercalate_singleton, flatMap_singleton]
    · rw [intercalate_cons_cons, append_assoc, singleton_append,
        splitWhitespace_append _ _ (by decide), ih]
      rfl

/-! ## Numbers -/

/-- The characters are the digits of the number, perhaps after zeros. -/
structure Numeral (n : Nat) (cs : List Char) : Prop where
  ne_nil : cs ≠ []
  digits : ∀ c ∈ cs, c.isDigit
  value : Nat.ofDigitChars 10 cs 0 = n

theorem numeral_toDigits (n : Nat) : Numeral n (Nat.toDigits 10 n) where
  ne_nil := toDigits_ne_nil
  digits := fun _ hc => isDigit_of_mem_toDigits (by decide) (by decide) hc
  value := ofDigitChars_ten_toDigits

theorem numeral_padded (n : Nat) : Numeral n (padded n) where
  ne_nil := fun h => toDigits_ne_nil (append_eq_nil_iff.mp h).2
  digits := by
    intro c hc
    rcases mem_append.mp hc with hzero | hdigit
    · rw [eq_of_mem_replicate hzero]
      decide
    · exact (numeral_toDigits n).digits c hdigit
  value := by
    rw [padded, ofDigitChars_append, ofDigitChars_replicate_zero, mul_zero]
    exact (numeral_toDigits n).value

theorem toNat_of_isDigit {c : Char} (h : c.isDigit) : 48 ≤ c.toNat ∧ c.toNat ≤ 57 := by
  simp only [Char.isDigit, Bool.and_eq_true, decide_eq_true_eq] at h
  exact h

theorem isWhiteSpace_of_isDigit {c : Char} (h : c.isDigit) : isWhiteSpace c = false := by
  have := toNat_of_isDigit h
  simp only [isWhiteSpace, Bool.or_eq_false_iff, Bool.and_eq_false_iff, decide_eq_false_iff_not,
    beq_eq_false_iff_ne]
  omega

theorem toLower_of_isDigit {c : Char} (h : c.isDigit) : c.toLower = c := by
  apply dif_neg
  rintro ⟨hge, _⟩
  have hge : 65 ≤ c.toNat := hge
  have := toNat_of_isDigit h
  omega

def signed (negative : Bool) (cs : List Char) : List Char := if negative then '-' :: cs else cs

namespace Numeral

variable {n : Nat} {cs : List Char} (h : Numeral n cs)

include h

theorem parseDigits_eq : parseDigits cs = some n := by
  have hempty : cs.isEmpty = false := isEmpty_eq_false_iff.mpr h.ne_nil
  have hall : cs.all Char.isDigit := all_eq_true.mpr h.digits
  rw [parseDigits, if_neg (by rw [hempty, hall]; decide)]
  exact congrArg some h.value

theorem ne_cons {d : Char} (hd : ¬ d.isDigit) (ds : List Char) : cs ≠ d :: ds := by
  intro heq
  apply hd
  apply h.digits
  rw [heq]
  exact mem_cons_self

theorem takeSign_signed (negative : Bool) : takeSign (signed negative cs) = (negative, cs) := by
  cases negative with
  | true => rfl
  | false =>
    show takeSign cs = (false, cs)
    unfold takeSign
    split
    · exact absurd rfl (h.ne_cons (by decide) _)
    · exact absurd rfl (h.ne_cons (by decide) _)
    · rfl

theorem map_toLower : cs.map Char.toLower = cs := by
  have hsame : ∀ c ∈ cs, c.toLower = c := fun c hc => toLower_of_isDigit (h.digits c hc)
  exact (map_congr_left hsame).trans (map_id cs)

theorem not_mem {d : Char} (hd : ¬ d.isDigit) : d ∉ cs :=
  fun hmem => hd (h.digits d hmem)

theorem parseNumber_eq : parseNumber cs = some (.ofRat n) := by
  have htake : cs.takeWhile Char.isDigit = cs := takeWhile_eq_self_iff.mpr h.digits
  have hdrop : cs.dropWhile Char.isDigit = [] := dropWhile_eq_nil_iff.mpr h.digits
  simp only [parseNumber, htake, hdrop, append_nil, h.parseDigits_eq, parseExponent, map_some,
    bind_some, length_nil, cast_zero, sub_zero, zpow_zero, mul_one]

theorem parseF64_signed (hlt : n < 2 ^ 53) (negative : Bool) :
    parseF64 (signed negative cs) = some (.finite ((if negative then -n else n : Int) : ℚ)) := by
  have hfinite : Binary64.ofRat n = .finite n := by
    have := @Binary64.ofRat_intCast n (by rw [abs_cast]; exact_mod_cast hlt)
    exact this
  have hnumber : (if cs.map Char.toLower = "inf".toList ∨ cs.map Char.toLower = "infinity".toList then
      some (Binary64.infinite false)
    else if cs.map Char.toLower = "nan".toList then some .nan
    else parseNumber cs) = some (.finite n) := by
    rw [h.map_toLower, if_neg, if_neg, h.parseNumber_eq, hfinite]
    · exact h.ne_cons (by decide) _
    · rintro (hinf | hinf)
      · exact h.ne_cons (by decide) _ hinf
      · exact h.ne_cons (by decide) _ hinf
  simp only [parseF64, h.takeSign_signed, hnumber, map_some]
  cases negative with
  | true => exact congrArg (fun q => some (Binary64.finite q)) (cast_neg _).symm
  | false => rfl

theorem parseI64_signed (hlt : n < 2 ^ 63) (negative : Bool) :
    (parseI64 (String.ofList (signed negative cs))).map Int64.toInt =
      some (if negative then -n else n : Int) := by
  have hsome : ∀ i : Int, -2 ^ 63 < i → i < 2 ^ 63 →
      ((some i).bind fun i =>
        if -9223372036854775808 ≤ i ∧ i ≤ 9223372036854775807 then some (Int64.ofInt i) else none).map
        Int64.toInt = some i := by
    intro i hlo hhi
    rw [bind_some, if_pos (by omega), map_some, Int64.toInt_ofInt_of_le (by omega) (by omega)]
  unfold parseI64
  rw [String.toList_ofList]
  cases negative with
  | true =>
    simp only [signed, if_true, h.parseDigits_eq]
    exact hsome (-n) (by omega) (by omega)
  | false =>
    simp only [signed, Bool.false_eq_true, if_false]
    split
    · exact absurd rfl (h.ne_cons (by decide) _)
    · exact absurd rfl (h.ne_cons (by decide) _)
    · rw [h.parseDigits_eq]
      exact hsome n (by omega) (by omega)

end Numeral

theorem decimal_eq (n : Int) : decimal n = signed (n < 0) (Nat.toDigits 10 n.natAbs) := by
  unfold decimal signed
  simp only [decide_eq_true_eq]

theorem isWord_signed {n : Nat} {cs : List Char} (h : Numeral n cs) (negative : Bool) :
    IsWord (signed negative cs) := by
  cases negative with
  | true =>
    refine ⟨cons_ne_nil _ _, ?_⟩
    intro c hc
    rcases mem_cons.mp hc with rfl | hdigit
    · decide
    · exact isWhiteSpace_of_isDigit (h.digits c hdigit)
  | false => exact ⟨h.ne_nil, fun c hc => isWhiteSpace_of_isDigit (h.digits c hc)⟩

theorem not_mem_signed {n : Nat} {cs : List Char} (h : Numeral n cs) (negative : Bool) :
    ':' ∉ signed negative cs := by
  cases negative with
  | true =>
    intro hmem
    rcases mem_cons.mp hmem with heq | hdigit
    · exact absurd heq (by decide)
    · exact h.not_mem (by decide) hdigit
  | false => exact h.not_mem (by decide)

theorem isWord_decimal (n : Int) : IsWord (decimal n) := by
  rw [decimal_eq]
  exact isWord_signed (numeral_toDigits n.natAbs) _

theorem not_mem_decimal (n : Int) : ':' ∉ decimal n := by
  rw [decimal_eq]
  exact not_mem_signed (numeral_toDigits n.natAbs) _

theorem parseF64_decimal {n : Int} (h : |n| < 2 ^ 53) : parseF64 (decimal n) = some (.finite n) := by
  rw [abs_eq_natAbs] at h
  rw [decimal_eq, (numeral_toDigits n.natAbs).parseF64_signed (by omega)]
  have hsign : (if decide (n < 0) = true then -(n.natAbs : Int) else n.natAbs) = n := by
    simp only [decide_eq_true_eq]
    split_ifs <;> omega
  rw [hsign]

/-! ## What is printed -/

theorem fit_ok {checked : Bool} {w : Nat} {n : Int} (hlo : -2 ^ (w - 1) ≤ n) (hhi : n < 2 ^ (w - 1)) :
    fit checked w n = .ok n :=
  if_pos ⟨hlo, hhi⟩

def unitWord (unit : String) (plural : Bool) : List Char := unit.toList ++ if plural then ['s'] else []

def countWords (n : Int) (unit : String) (plural : Bool) : List (List Char) :=
  if n ≠ 0 then [decimal n, unitWord unit plural] else []

theorem isWord_year : IsWord "year".toList := by
  simp [IsWord, isWhiteSpace]

theorem isWord_mon : IsWord "mon".toList := by
  simp [IsWord, isWhiteSpace]

theorem isWord_day : IsWord "day".toList := by
  simp [IsWord, isWhiteSpace]

theorem isWord_unitWord {unit : String} (h : IsWord unit.toList) (plural : Bool) :
    IsWord (unitWord unit plural) := by
  refine ⟨fun heq => h.1 (append_eq_nil_iff.mp heq).1, ?_⟩
  intro c hc
  rcases mem_append.mp hc with hmem | hmem
  · exact h.2 c hmem
  · split_ifs at hmem
    · rw [mem_singleton.mp hmem]
      decide
    · exact absurd hmem not_mem_nil

theorem splitWhitespace_count (n : Int) {word : List Char} (h : IsWord word) :
    splitWhitespace (decimal n ++ ' ' :: word) = [decimal n, word] := by
  rw [splitWhitespace_append _ _ (by decide), splitWhitespace_word h, splitWhitespace_word (isWord_decimal n)]
  rfl

theorem countedPart_eq {checked : Bool} {n : Int} {unit : String} (hbound : |n| ≤ 2 ^ 31)
    (hfit : checked → |n| < 2 ^ 31) (hunit : IsWord unit.toList) :
    ∃ parts plural, countedPart checked n unit = .ok parts ∧
      parts.flatMap splitWhitespace = countWords n unit plural ∧ (parts = [] ↔ n = 0) := by
  by_cases hn : n = 0
  · refine ⟨[], false, ?_, ?_, fun _ => hn, fun _ => rfl⟩
    · rw [countedPart, if_neg (not_not.mpr hn)]
    · rw [countWords, if_neg (not_not.mpr hn)]
      rfl
  · obtain ⟨abs, habs⟩ : ∃ abs, fit checked 32 |n| = .ok abs := by
      by_cases hlt : |n| < 2 ^ 31
      · exact ⟨|n|, fit_ok (by have := abs_nonneg n; omega) hlt⟩
      · have hunchecked : checked = false := by
          rcases Bool.eq_false_or_eq_true checked with h | h
          · exact absurd (hfit h) hlt
          · exact h
        rw [fit, if_neg (by omega), hunchecked]
        exact ⟨_, rfl⟩
    refine ⟨[decimal n ++ ' ' :: unitWord unit (1 < abs)], 1 < abs, ?_, ?_, ?_⟩
    · rw [countedPart, if_pos hn, habs, unitWord]
      simp only [decide_eq_true_eq]
      rfl
    · rw [countWords, if_pos hn, flatMap_singleton, splitWhitespace_count n (isWord_unitWord hunit _)]
    · exact iff_of_false (cons_ne_nil _ _) hn

theorem countedPart_error {n : Int} {unit : String} (hn : 2 ^ 31 ≤ |n|) :
    countedPart true n unit = .error ⟨⟩ := by
  have hne : n ≠ 0 := by
    rintro rfl
    exact absurd hn (by decide)
  rw [countedPart, if_pos hne, fit, if_neg (by omega)]
  rfl

/-! ## Following the words -/

section

variable {checked : Bool} {sums : IntervalSums} {rest : List (List Char)}

theorem parseParts_count {n : Int} (hn : |n| < 2 ^ 53) {unit : String} {plural : Bool} {sums' : IntervalSums}
    (hzero : n = 0 → sums' = sums)
    (hunit : sums.addUnit checked (.finite n) (unitName (unitWord unit plural)) = some (.ok sums')) :
    parseParts checked sums (countWords n unit plural ++ rest) = parseParts checked sums' rest := by
  by_cases h : n = 0
  · rw [countWords, if_neg (not_not.mpr h), hzero h, nil_append]
  · rw [countWords, if_pos h, cons_append, cons_append, nil_append, parseParts.eq_def]
    simp only [not_mem_decimal n, false_and, if_false, parseF64_decimal hn, hunit]
    rfl

theorem parseParts_unknown {n : Int} (hn : |n| < 2 ^ 53) (h : n ≠ 0) {unit : String} {plural : Bool}
    (hunit : sums.addUnit checked (.finite n) (unitName (unitWord unit plural)) = none) :
    parseParts checked sums (countWords n unit plural ++ rest) = .ok none := by
  rw [countWords, if_pos h, cons_append, cons_append, nil_append, parseParts.eq_def]
  simp only [not_mem_decimal n, false_and, if_false, parseF64_decimal hn, hunit]

theorem mulNat_intCast {n : Int} {c : Nat} (h : |n * c| < 2 ^ 53) :
    (Binary64.finite n).mulNat c = .finite ((n * c : Int) : ℚ) := by
  have hcast : (n : ℚ) * c = ((n * c : Int) : ℚ) := by push_cast; rfl
  rw [Binary64.mulNat, hcast, Binary64.ofRat_intCast h]

theorem unitName_year (plural : Bool) : unitName (unitWord "year" plural) = "year" := by
  cases plural <;> decide

theorem unitName_mon (plural : Bool) : unitName (unitWord "mon" plural) = "mon" := by
  cases plural <;> decide

theorem unitName_day (plural : Bool) : unitName (unitWord "day" plural) = "day" := by
  cases plural <;> decide

theorem parseParts_years {y : Int} (hlo : -2 ^ 31 ≤ y * 12) (hhi : y * 12 < 2 ^ 31) (plural : Bool) :
    parseParts checked ⟨0, 0, 0⟩ (countWords y "year" plural ++ rest) =
      parseParts checked ⟨y * 12, 0, 0⟩ rest := by
  have hmul := @mulNat_intCast y 12 (by rw [abs_eq_natAbs]; omega)
  have hfit : fit checked 32 (0 + y * 12) = .ok (y * 12) := by
    rw [zero_add]
    exact fit_ok hlo hhi
  have hadd : IntervalSums.addMonths checked ⟨0, 0, 0⟩ (y * 12) = .ok ⟨y * 12, 0, 0⟩ := by
    simp only [IntervalSums.addMonths, hfit]
    rfl
  apply parseParts_count (by rw [abs_eq_natAbs]; omega)
  · intro hy
    rw [hy, zero_mul]
  · rw [unitName_year, IntervalSums.addUnit, if_pos rfl, hmul, Binary64.toI32,
      Binary64.toInt_intCast (by omega) (by omega)]
    exact congrArg some hadd

theorem parseParts_months {r : Int} (hr : r ≠ 0) (hbound : |r| < 2 ^ 53) (plural : Bool) :
    parseParts checked sums (countWords r "mon" plural ++ rest) = .ok none := by
  apply parseParts_unknown hbound hr
  rw [unitName_mon]
  rfl

theorem parseParts_days {a d : Int} (hlo : -2 ^ 31 ≤ d) (hhi : d < 2 ^ 31) (plural : Bool) :
    parseParts checked ⟨a, 0, 0⟩ (countWords d "day" plural ++ rest) = parseParts checked ⟨a, d, 0⟩ rest := by
  have hunit : ∀ num, IntervalSums.addUnit checked ⟨a, 0, 0⟩ num "day" =
      some (IntervalSums.addDays checked ⟨a, 0, 0⟩ num.toI32) := fun _ => rfl
  have hfit : fit checked 32 (0 + d) = .ok d := by
    rw [zero_add]
    exact fit_ok hlo hhi
  have hadd : IntervalSums.addDays checked ⟨a, 0, 0⟩ d = .ok ⟨a, d, 0⟩ := by
    simp only [IntervalSums.addDays, hfit]
    rfl
  apply parseParts_count (by rw [abs_eq_natAbs]; omega)
  · intro hd
    rw [hd]
  · rw [unitName_day, hunit, Binary64.toI32, Binary64.toInt_intCast hlo (by omega), hadd]

def timeValue (negative : Bool) (h m c : Nat) : Int :=
  (if negative then -(h : Int) else h) * 3600000000 + m * 60000000 + c * 1000000

theorem timeFields_eq {h m c : Nat} (hh : h < 2 ^ 63) (hm : m < 2 ^ 63) (hc : c < 2 ^ 53) (negative : Bool) :
    timeFields ((signed negative (padded h) ++ ':' :: (padded m ++ ':' :: padded c)).splitOn ':') =
      some (if negative then -(h : Int) else h, (m : Int), .finite ((c : Int) : ℚ)) := by
  have hhours := (numeral_padded h).parseI64_signed hh negative
  have hmins := (numeral_padded m).parseI64_signed hm false
  have hsecs := (numeral_padded c).parseF64_signed hc false
  rw [signed, if_neg Bool.false_ne_true] at hmins hsecs
  rw [splitOn_append_cons_self_of_not_mem (not_mem_signed (numeral_padded h) negative),
    splitOn_append_cons_self_of_not_mem ((numeral_padded m).not_mem (by decide)),
    splitOn_eq_singleton ((numeral_padded c).not_mem (by decide))]
  rw [map_eq_some_iff] at hhours hmins
  obtain ⟨hours, hhours, hhours'⟩ := hhours
  obtain ⟨mins, hmins, hmins'⟩ := hmins
  simp only [timeFields, hhours, hmins, hsecs, bind_eq_bind, bind_some, hhours', hmins']
  rfl

theorem addTime_ok {a d h m c : Int} {secs : Binary64} (hsecs : (secs.mulNat 1000000).toI64 = c)
    (hc : 0 ≤ c ∧ c < 60000000) (hm : 0 ≤ m ∧ m < 60) (hlo : -2 ^ 63 ≤ h * 3600000000)
    (hhi : h * 3600000000 + m * 60000000 + c < 2 ^ 63) :
    IntervalSums.addTime checked ⟨a, d, 0⟩ h m secs = .ok ⟨a, d, h * 3600000000 + m * 60000000 + c⟩ := by
  have hhours : fit checked 64 (h * 3600000000) = .ok (h * 3600000000) := fit_ok (by omega) (by omega)
  have hmins : fit checked 64 (m * 60000000) = .ok (m * 60000000) := fit_ok (by omega) (by omega)
  have hboth : fit checked 64 (h * 3600000000 + m * 60000000) = .ok (h * 3600000000 + m * 60000000) :=
    fit_ok (by omega) (by omega)
  have hall : fit checked 64 (h * 3600000000 + m * 60000000 + c) = .ok (h * 3600000000 + m * 60000000 + c) :=
    fit_ok (by omega) (by omega)
  simp only [IntervalSums.addTime, hsecs, bind, Except.bind, hhours, hmins, hboth, hall, zero_add]

theorem parseParts_time {a d : Int} {h m c : Nat} (hsum : (h * 3600 + m * 60 + c) * 1000000 < 2 ^ 63)
    (hm : m < 60)
    (hc : c < 60) (negative : Bool) :
    parseParts checked ⟨a, d, 0⟩ [signed negative (padded h) ++ ':' :: (padded m ++ ':' :: padded c)] =
      .ok (some ⟨a, d, timeValue negative h m c⟩) := by
  have hfields := timeFields_eq (h := h) (m := m) (c := c) (by omega) (by omega) (by omega) negative
  have hcolon : ':' ∈ signed negative (padded h) ++ ':' :: (padded m ++ ':' :: padded c) :=
    mem_append_right _ mem_cons_self
  have hlength : 2 ≤ ((signed negative (padded h) ++ ':' :: (padded m ++ ':' :: padded c)).splitOn
      ':').length := by
    rw [splitOn_append_cons_self_of_not_mem (not_mem_signed (numeral_padded h) negative),
      splitOn_append_cons_self_of_not_mem ((numeral_padded m).not_mem (by decide))]
    exact le_add_left 2 _
  have hsecs : (Binary64.mulNat 1000000 (.finite ((c : Int) : ℚ))).toI64 = c * 1000000 := by
    have hmul := @mulNat_intCast c 1000000 (by rw [abs_eq_natAbs]; omega)
    rw [cast_ofNat] at hmul
    rw [hmul, Binary64.toI64, Binary64.toInt_intCast (by omega) (by omega)]
  have hhours : -(h : Int) ≤ (if negative then -(h : Int) else h) ∧
      (if negative then -(h : Int) else h) ≤ h := by
    split_ifs <;> omega
  have hadd := @addTime_ok checked a d (if negative then -(h : Int) else h) m (c * 1000000) _ hsecs
    (by omega) (by omega) (by omega) (by omega)
  rw [parseParts.eq_def]
  simp only [hcolon, hlength, and_self, if_true, hfields, hadd]
  rfl

end

/-! ## The time -/

section

variable {micros : Int} {s : Nat} (habs : micros.natAbs = 1000000 * s) (hlt : 1000000 * s < 2 ^ 63)

include habs hlt

theorem timePart_signed :
    timePart micros = signed (micros < 0) (padded (printedHours s)) ++
      ':' :: (padded (printedMins s) ++ ':' :: padded (printedSecs s)) := by
  rw [timePart_eq habs hlt, signed]
  by_cases hneg : micros < 0
  · simp only [hneg, decide_true, if_true, cons_append, nil_append]
  · simp only [hneg, decide_false, Bool.false_eq_true, if_false, nil_append]

theorem splitWhitespace_timePart : splitWhitespace (timePart micros) = [timePart micros] := by
  rw [timePart_signed habs hlt]
  apply splitWhitespace_word
  refine ⟨append_ne_nil_of_right_ne_nil _ (cons_ne_nil _ _), ?_⟩
  intro c hc
  simp only [mem_append, mem_cons] at hc
  rcases hc with hhours | rfl | hmins | rfl | hsecs
  · exact (isWord_signed (numeral_padded _) _).2 c hhours
  · decide
  · exact isWhiteSpace_of_isDigit ((numeral_padded _).digits c hmins)
  · decide
  · exact isWhiteSpace_of_isDigit ((numeral_padded _).digits c hsecs)

omit habs in
theorem printed_bounds :
    (printedHours s * 3600 + printedMins s * 60 + printedSecs s) * 1000000 < 2 ^ 63 ∧ printedMins s < 60 ∧
      printedSecs s < 60 := by
  have hmins := printedMins_lt s
  by_cases hdown : RoundsDown s
  · have := printed_down hlt hdown
    omega
  · have := printed_exact hlt hdown
    omega

theorem timeValue_eq_iff :
    timeValue (micros < 0) (printedHours s) (printedMins s) (printedSecs s) = micros ↔
      (0 ≤ micros ∨ 3600000000 ∣ micros) ∧ ¬ RoundsDown s := by
  have hmins := printedMins_lt s
  unfold timeValue
  simp only [decide_eq_true_eq]
  by_cases hdown : RoundsDown s
  · have hprinted := printed_down hlt hdown
    -- the seconds are wrong modulo a minute, and for negative times in their parity
    apply iff_of_false
    · split_ifs <;> omega
    · exact fun h => h.2 hdown
  · have hprinted := printed_exact hlt hdown
    rw [and_iff_left hdown]
    split_ifs <;> omega

end

def timeWords (iv : IntervalValue) : List (List Char) :=
  if iv.microseconds.toInt ≠ 0 ∨ (iv.months.toInt.tdiv 12 = 0 ∧ iv.months.toInt.tmod 12 = 0) ∧
    iv.days.toInt = 0 then
    [timePart iv.microseconds.toInt]
  else []

theorem months_bounds (m : Int32) :
    -2 ^ 31 ≤ m.toInt.tdiv 12 * 12 ∧ m.toInt.tdiv 12 * 12 < 2 ^ 31 ∧ |m.toInt.tdiv 12| < 2 ^ 31 ∧
      |m.toInt.tmod 12| < 2 ^ 31 ∧ m.toInt.tdiv 12 * 12 + m.toInt.tmod 12 = m.toInt := by
  have hle := m.le_toInt
  have hlt := m.toInt_lt
  have hsum := mul_tdiv_add_tmod m.toInt 12
  have hrem := tmod_lt_of_pos m.toInt (show 0 < 12 by decide)
  have hrem' := lt_tmod_of_pos m.toInt (show 0 < 12 by decide)
  have hyears : (m.toInt.tdiv 12 * 12).natAbs ≤ m.toInt.natAbs := by
    rw [natAbs_mul, natAbs_tdiv]
    exact div_mul_le_self _ _
  rw [abs_eq_natAbs, abs_eq_natAbs]
  omega

theorem display_eq {checked : Bool} {iv : IntervalValue} {s : Nat}
    (habs : iv.microseconds.toInt.natAbs = 1000000 * s) (hlt : 1000000 * s < 2 ^ 63)
    (hdays : checked → |iv.days.toInt| < 2 ^ 31) :
    ∃ text py pr pd, iv.display checked = .ok text ∧
      splitWhitespace (trim text).toList = countWords (iv.months.toInt.tdiv 12) "year" py ++
        (countWords (iv.months.toInt.tmod 12) "mon" pr ++
          (countWords iv.days.toInt "day" pd ++ timeWords iv)) := by
  have hmonths := months_bounds iv.months
  have hdays0 := iv.days.le_toInt
  have hdays' := iv.days.toInt_lt
  have hday : |iv.days.toInt| ≤ 2 ^ 31 := by
    rw [abs_eq_natAbs]
    omega
  obtain ⟨years, py, hy, hyw, hy0⟩ :=
    @countedPart_eq checked _ "year" hmonths.2.2.1.le (fun _ => hmonths.2.2.1)
    isWord_year
  obtain ⟨months, pr, hr, hrw, hr0⟩ :=
    @countedPart_eq checked _ "mon" hmonths.2.2.2.1.le (fun _ => hmonths.2.2.2.1)
    isWord_mon
  obtain ⟨days, pd, hd, hdw, hd0⟩ := @countedPart_eq checked _ "day" hday hdays isWord_day
  have htime : (if iv.microseconds.toInt ≠ 0 ∨
    years ++ months ++ days = [] then [timePart iv.microseconds.toInt]
      else []) = timeWords iv := by
    simp only [timeWords, append_eq_nil_iff, hy0, hr0, hd0]
  have htimew : (timeWords iv).flatMap splitWhitespace = timeWords iv := by
    unfold timeWords
    split_ifs
    · rw [flatMap_singleton, splitWhitespace_timePart habs hlt]
    · rfl
  refine ⟨String.ofList ([' '].intercalate (years ++ months ++ days ++ timeWords iv)), py, pr, pd, ?_, ?_⟩
  · rw [IntervalValue.display, hy, hr, hd, ← htime]
    rfl
  · rw [splitWhitespace_trim, splitWhitespace_intercalate, flatMap_append, flatMap_append,
      flatMap_append, hyw, hrw, hdw, htimew, append_assoc, append_assoc]

/-- The interval is printed, by itself and as a literal, and from the text it is read as it was. -/
def RoundTrips (checked : Bool) (iv : IntervalValue) : Prop :=
  ∃ text, iv.display checked = .ok text ∧ iv.toSqlLiteral checked = .ok ("INTERVAL '" ++ text ++ "'") ∧
    IntervalValue.parse checked text = .ok (some iv)

theorem roundTrips_of_display {checked : Bool} {iv : IntervalValue} {text : String}
    (hdisplay : iv.display checked = .ok text) :
    RoundTrips checked iv ↔ IntervalValue.parse checked text = .ok (some iv) := by
  constructor
  · rintro ⟨text', hdisplay', _, hparse⟩
    have heq : text = text' := Except.ok.inj (hdisplay.symm.trans hdisplay')
    rw [heq]
    exact hparse
  · intro hparse
    refine ⟨text, hdisplay, ?_, hparse⟩
    rw [IntervalValue.toSqlLiteral, hdisplay]
    rfl

section

variable {checked : Bool} {iv : IntervalValue}

theorem natAbs_micros (h : 1000000 ∣ iv.microseconds.toInt) :
    iv.microseconds.toInt.natAbs = 1000000 * (iv.microseconds.toInt.natAbs / 1000000) ∧
      1000000 * (iv.microseconds.toInt.natAbs / 1000000) < 2 ^ 63 := by
  have := iv.microseconds.le_toInt
  have := iv.microseconds.toInt_lt
  omega

theorem display_minDays (h : iv.days = Int32.minValue) : ∃ e, iv.display true = .error e := by
  have hmonths := months_bounds iv.months
  obtain ⟨years, _, hy, _⟩ := @countedPart_eq true _ "year" hmonths.2.2.1.le (fun _ => hmonths.2.2.1)
    isWord_year
  obtain ⟨months, _, hr, _⟩ := @countedPart_eq true _ "mon" hmonths.2.2.2.1.le (fun _ => hmonths.2.2.2.1)
    isWord_mon
  have hd : countedPart true iv.days.toInt "day" = .error ⟨⟩ := countedPart_error (by rw [h]; decide)
  rw [IntervalValue.display, hy, hr, hd]
  exact ⟨⟨⟩, rfl⟩

theorem abs_days_lt (h : iv.days ≠ Int32.minValue) : |iv.days.toInt| < 2 ^ 31 := by
  have hle := iv.days.le_toInt
  have hlt := iv.days.toInt_lt
  have hne : iv.days.toInt ≠ -2 ^ 31 := fun heq => h (Int32.toInt_inj.mp heq)
  rw [abs_eq_natAbs]
  omega

theorem parse_of_months (h : 1000000 ∣ iv.microseconds.toInt) (hdays : checked → |iv.days.toInt| < 2 ^ 31)
    (hmonths : iv.months.toInt.tmod 12 ≠ 0) :
    ∃ text, iv.display checked = .ok text ∧ IntervalValue.parse checked text = .ok none := by
  obtain ⟨text, py, pr, pd, hdisplay, hwords⟩ := display_eq (natAbs_micros h).1 (natAbs_micros h).2 hdays
  have hbounds := months_bounds iv.months
  have hmon : |iv.months.toInt.tmod 12| < 2 ^ 53 := hbounds.2.2.2.1.trans (by decide)
  refine ⟨text, hdisplay, ?_⟩
  rw [IntervalValue.parse, hwords, parseParts_years hbounds.1 hbounds.2.1, parseParts_months hmonths hmon]
  rfl

theorem ofInt_eq_iff {z : Int} (hlo : -2 ^ 63 ≤ z) (hhi : z < 2 ^ 63) :
    (⟨Int32.ofInt iv.months.toInt, Int32.ofInt iv.days.toInt, Int64.ofInt z⟩ : IntervalValue) = iv ↔
      z = iv.microseconds.toInt := by
  rw [Int32.ofInt_toInt, Int32.ofInt_toInt]
  constructor
  · intro heq
    have hmicros : Int64.ofInt z = iv.microseconds := congrArg IntervalValue.microseconds heq
    rw [← hmicros, Int64.toInt_ofInt_of_le hlo hhi]
  · intro heq
    rw [heq, Int64.ofInt_toInt]

theorem roundTrips_iff_time (h : 1000000 ∣ iv.microseconds.toInt) (hdays : checked → |iv.days.toInt| < 2 ^ 31)
    (hmonths : iv.months.toInt.tmod 12 = 0) :
    RoundTrips checked iv ↔ (0 ≤ iv.microseconds.toInt ∨ 3600000000 ∣ iv.microseconds.toInt) ∧
      ¬ RoundsDown (iv.microseconds.toInt.natAbs / 1000000) := by
  have hmicros := natAbs_micros h
  obtain ⟨text, py, pr, pd, hdisplay, hwords⟩ := display_eq hmicros.1 hmicros.2 hdays
  have hbounds := months_bounds iv.months
  have hyears : iv.months.toInt.tdiv 12 * 12 = iv.months.toInt := by omega
  have hnone : ∀ rest, countWords (iv.months.toInt.tmod 12) "mon" pr ++ rest = rest := by
    intro rest
    rw [countWords, if_neg (not_not.mpr hmonths), nil_append]
  have hparse : IntervalValue.parse checked text =
      (parseParts checked ⟨iv.months.toInt, iv.days.toInt, 0⟩ (timeWords iv)).map fun sums =>
        sums.map fun sums =>
          ⟨Int32.ofInt sums.months, Int32.ofInt sums.days, Int64.ofInt sums.microseconds⟩ := by
    rw [IntervalValue.parse, hwords, parseParts_years hbounds.1 hbounds.2.1, hyears, hnone,
      parseParts_days iv.days.le_toInt iv.days.toInt_lt]
  have hread : ∀ z : Int, -2 ^ 63 ≤ z → z < 2 ^ 63 →
      parseParts checked ⟨iv.months.toInt, iv.days.toInt, 0⟩ (timeWords iv) =
        .ok (some ⟨iv.months.toInt, iv.days.toInt, z⟩) →
      (RoundTrips checked iv ↔ z = iv.microseconds.toInt) := by
    intro z hlo hhi hparts
    rw [roundTrips_of_display hdisplay, hparse, hparts, ← ofInt_eq_iff hlo hhi]
    exact ⟨fun heq => Option.some.inj (Except.ok.inj heq), fun heq => congrArg (Except.ok ∘ some) heq⟩
  by_cases htime : iv.microseconds.toInt = 0 ∧ timeWords iv = []
  · have hdown : ¬ RoundsDown (iv.microseconds.toInt.natAbs / 1000000) := by
      rw [htime.1]
      rintro ⟨j, _, hge, _⟩
      exact absurd hge (Nat.not_le_of_lt (Nat.two_pow_pos (59 + j)))
    rw [hread 0 (by decide) (by decide) (by rw [htime.2]; rfl), htime.1]
    exact iff_of_true rfl ⟨.inl (le_refl _), by rw [← htime.1]; exact hdown⟩
  · have hwords : timeWords iv = [timePart iv.microseconds.toInt] := by
      unfold timeWords at htime ⊢
      split_ifs at htime ⊢ with hprinted
      · rfl
      · exact absurd ⟨not_not.mp fun hne => hprinted (.inl hne), rfl⟩ htime
    have hprinted := printed_bounds hmicros.2
    rw [← timeValue_eq_iff hmicros.1 hmicros.2]
    apply hread
    · unfold timeValue
      split_ifs <;> omega
    · unfold timeValue
      split_ifs <;> omega
    · rw [hwords, timePart_signed hmicros.1 hmicros.2]
      exact parseParts_time hprinted.1 hprinted.2.1 hprinted.2.2 _

theorem roundTrips_iff (checked : Bool) (iv : IntervalValue) (h : 1000000 ∣ iv.microseconds.toInt) :
    RoundTrips checked iv ↔
      12 ∣ iv.months.toInt ∧ (checked → iv.days ≠ Int32.minValue) ∧
        (0 ≤ iv.microseconds.toInt ∨ 3600000000 ∣ iv.microseconds.toInt) ∧
          ¬ RoundsDown (iv.microseconds.toInt.natAbs / 1000000) := by
  by_cases hdays : checked → iv.days ≠ Int32.minValue
  · have hlt : checked → |iv.days.toInt| < 2 ^ 31 := fun hchecked => abs_days_lt (hdays hchecked)
    by_cases hmonths : iv.months.toInt.tmod 12 = 0
    · rw [roundTrips_iff_time h hlt hmonths]
      have hdvd : 12 ∣ iv.months.toInt := dvd_of_tmod_eq_zero hmonths
      exact ⟨fun htime => ⟨hdvd, hdays, htime⟩, fun hall => hall.2.2⟩
    · apply iff_of_false
      · obtain ⟨text, hdisplay, hparse⟩ := parse_of_months h hlt hmonths
        rw [roundTrips_of_display hdisplay, hparse]
        intro heq
        cases heq
      · exact fun hall => hmonths (tmod_eq_zero_of_dvd hall.1)
  · apply iff_of_false
    · rintro ⟨text, hdisplay, _⟩
      simp only [Classical.not_imp, not_not] at hdays
      obtain ⟨e, herror⟩ := display_minDays hdays.2
      rw [hdays.1, herror] at hdisplay
      cases hdisplay
    · exact fun hall => hdays hall.2.1

theorem twoYears_roundTrips : RoundTrips true ⟨24, -3, 3723000000⟩ :=
  (roundTrips_iff true ⟨24, -3, 3723000000⟩ (by decide)).mpr
    ⟨by decide, by decide, by decide, by decide⟩

/-- One month is printed as `1 mon`. -/
theorem oneMonth_not_roundTrips :
    ¬ ∀ checked iv, 1000000 ∣ iv.microseconds.toInt → RoundTrips checked iv := by
  intro hall
  obtain ⟨text, hdisplay, hparse⟩ := @parse_of_months false ⟨1, 0, 0⟩ (by decide) (by decide) (by decide)
  have hread := (roundTrips_of_display hdisplay).mp (hall false ⟨1, 0, 0⟩ (by decide))
  rw [hparse] at hread
  cases hread

end

end H2Database.Sql
