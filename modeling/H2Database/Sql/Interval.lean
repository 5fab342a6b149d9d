import H2Database.Reasoning.Binary64
import H2Database.Sql.Value
import Mathlib.Data.List.DropRight

/-!
# The text of intervals (`h2-types/src/value.rs`)

`IntervalValue::parse` and its `Display`.  Integers are checked at every operation that can overflow: a
build with overflow checks panics there, and one without wraps around.
-/

namespace H2Database.Sql

open Reasoning

structure Overflow where
  deriving DecidableEq, Repr

abbrev Checked := Except Overflow

def fit (checked : Bool) (w : Nat) (n : Int) : Checked Int :=
  if -2 ^ (w - 1) ≤ n ∧ n < 2 ^ (w - 1) then .ok n
  else if checked then .error ⟨⟩
  else .ok (n.bmod (2 ^ w))

def decimal (n : Int) : List Char :=
  if n < 0 then '-' :: Nat.toDigits 10 n.natAbs else Nat.toDigits 10 n.natAbs

/-- `{:02}`. -/
def padded (n : Nat) : List Char :=
  List.replicate (2 - (Nat.toDigits 10 n).length) '0' ++ Nat.toDigits 10 n

/-- A count with its unit, in the plural where the absolute value is more than one. -/
def countedPart (checked : Bool) (n : Int) (unit : String) : Checked (List (List Char)) :=
  if n ≠ 0 then
    (fit checked 32 |n|).map fun abs =>
      [decimal n ++ ' ' :: (unit.toList ++ if 1 < abs then ['s'] else [])]
  else .ok []

/-- Hours, minutes and seconds, by way of the seconds as a floating-point number. -/
def timePart (microseconds : Int) : List Char :=
  let totalSecs := (Binary64.ofRat microseconds).divNat 1000000
  let secs := (totalSecs.abs.modNat 60).toU64
  let mins := (totalSecs.abs.divNat 60).toU64 % 60
  let hours := (totalSecs.abs.divNat 3600).toU64
  (if microseconds < 0 then ['-'] else []) ++
    (padded hours.toNat ++ ':' :: (padded mins.toNat ++ ':' :: padded secs.toNat))

/-- `to_string`. -/
def IntervalValue.display (checked : Bool) (iv : IntervalValue) : Checked String := do
  let years ← countedPart checked (iv.months.toInt.tdiv 12) "year"
  let months ← countedPart checked (iv.months.toInt.tmod 12) "mon"
  let days ← countedPart checked iv.days.toInt "day"
  let parts := years ++ months ++ days
  let time := if iv.microseconds.toInt ≠ 0 ∨ parts = [] then [timePart iv.microseconds.toInt] else []
  .ok (String.ofList ([' '].intercalate (parts ++ time)))

def takeSign : List Char → Bool × List Char
  | '-' :: cs => (true, cs)
  | '+' :: cs => (false, cs)
  | cs => (false, cs)

def parseExponent : List Char → Option Int
  | [] => some 0
  | c :: cs =>
    if c = 'e' ∨ c = 'E' then
      (parseDigits (takeSign cs).2).map fun n => if (takeSign cs).1 then -(n : Int) else n
    else none

/-- Digits with or without a point among them or beside them, and an exponent. -/
def parseNumber (cs : List Char) : Option Binary64 :=
  let whole := cs.takeWhile Char.isDigit
  let rest := cs.dropWhile Char.isDigit
  let (fraction, rest) := match rest with
    | '.' :: rest => (rest.takeWhile Char.isDigit, rest.dropWhile Char.isDigit)
    | rest => ([], rest)
  (parseDigits (whole ++ fraction)).bind fun n =>
    (parseExponent rest).map fun e => .ofRat (n * 10 ^ (e - (fraction.length : Int)))

/-- `str::parse::<f64>`. -/
def parseF64 (cs : List Char) : Option Binary64 :=
  let (negative, cs) := takeSign cs
  let word := cs.map Char.toLower
  let magnitude :=
    if word = "inf".toList ∨ word = "infinity".toList then some (.infinite false)
    else if word = "nan".toList then some .nan
    else parseNumber cs
  magnitude.map fun x => if negative then x.neg else x

/-! ## Parsing -/

/-- `str::split_whitespace`. -/
def splitWhitespace (cs : List Char) : List (List Char) :=
  (cs.splitOnP isWhiteSpace).filter fun word => !word.isEmpty

/-- `char::to_lowercase`, as far as it leads to ASCII: there is the Kelvin sign, and no other. -/
def toLowercase (c : Char) : Char := if c.toNat = 0x212A then 'k' else c.toLower

def unitName (word : List Char) : String :=
  String.ofList ((word.map toLowercase).rdropWhile fun c => c == 's')

structure IntervalSums where
  months : Int
  days : Int
  microseconds : Int

def timeFields : List (List Char) → Option (Int × Int × Binary64)
  | h :: m :: rest => do
    let h ← parseI64 (String.ofList h)
    let m ← parseI64 (String.ofList m)
    let s ← match rest with
      | s :: _ => parseF64 s
      | [] => some (.finite 0)
    some (h.toInt, m.toInt, s)
  | _ => none

def IntervalSums.addTime (checked : Bool) (sums : IntervalSums) (h m : Int) (s : Binary64) :
    Checked IntervalSums := do
  let hours ← fit checked 64 (h * 3600000000)
  let mins ← fit checked 64 (m * 60000000)
  let both ← fit checked 64 (hours + mins)
  let all ← fit checked 64 (both + (s.mulNat 1000000).toI64)
  let microseconds ← fit checked 64 (sums.microseconds + all)
  .ok { sums with microseconds := microseconds }

def IntervalSums.addMonths (checked : Bool) (sums : IntervalSums) (n : Int) : Checked IntervalSums :=
  (fit checked 32 (sums.months + n)).map fun months => { sums with months := months }

def IntervalSums.addDays (checked : Bool) (sums : IntervalSums) (n : Int) : Checked IntervalSums :=
  (fit checked 32 (sums.days + n)).map fun days => { sums with days := days }

def IntervalSums.addMicroseconds (checked : Bool) (sums : IntervalSums) (n : Int) : Checked IntervalSums :=
  (fit checked 64 (sums.microseconds + n)).map fun microseconds => { sums with microseconds := microseconds }

/-- `none` is for a unit that there is not. -/
def IntervalSums.addUnit (checked : Bool) (sums : IntervalSums) (num : Binary64) (unit : String) :
    Option (Checked IntervalSums) :=
  if unit = "year" then some (sums.addMonths checked (num.mulNat 12).toI32)
  else if unit = "month" then some (sums.addMonths checked num.toI32)
  else if unit = "week" then some (sums.addDays checked (num.mulNat 7).toI32)
  else if unit = "day" then some (sums.addDays checked num.toI32)
  else if unit = "hour" then some (sums.addMicroseconds checked (num.mulNat 3600000000).toI64)
  else if unit = "minute" then some (sums.addMicroseconds checked (num.mulNat 60000000).toI64)
  else if unit = "second" then some (sums.addMicroseconds checked (num.mulNat 1000000).toI64)
  else if unit = "millisecond" ∨ unit = "msec" then
    some (sums.addMicroseconds checked (num.mulNat 1000).toI64)
  else if unit = "microsecond" ∨ unit = "usec" then some (sums.addMicroseconds checked num.toI64)
  else none

def parseParts (checked : Bool) (sums : IntervalSums) : List (List Char) → Checked (Option IntervalSums)
  | [] => .ok (some sums)
  | part :: rest =>
    let timeParts := part.splitOn ':'
    if ':' ∈ part ∧ 2 ≤ timeParts.length then
      match timeFields timeParts with
      | none => .ok none
      | some (h, m, s) => do
        let sums ← sums.addTime checked h m s
        parseParts checked sums rest
    else
      match parseF64 part, rest with
      | some num, unit :: rest =>
        match sums.addUnit checked num (unitName unit) with
        | none => .ok none
        | some sums => do
          let sums ← sums
          parseParts checked sums rest
      | _, _ => .ok none

/-- `IntervalValue::parse`. -/
def IntervalValue.parse (checked : Bool) (s : String) : Checked (Option IntervalValue) :=
  (parseParts checked ⟨0, 0, 0⟩ (splitWhitespace (trim s).toList)).map fun sums =>
    sums.map fun sums =>
      ⟨Int32.ofInt sums.months, Int32.ofInt sums.days, Int64.ofInt sums.microseconds⟩

/-- The part of `Value::to_sql_literal` for intervals. -/
def IntervalValue.toSqlLiteral (checked : Bool) (iv : IntervalValue) : Checked String :=
  (iv.display checked).map fun text => "INTERVAL '" ++ text ++ "'"

end H2Database.Sql
