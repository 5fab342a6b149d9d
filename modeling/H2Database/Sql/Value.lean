import H2Database.Types.Error
import H2Database.Reasoning.Bytes

/-!
# SQL values (`h2-types/src/value.rs`, `h2-types/src/data_type.rs`)

Floating-point numbers stand for their bits, decimals for their sixteen-byte image and JSON documents
for their text.  `Crates` is what the third-party crates (`rust_decimal`, `chrono`, `serde_json`,
`uuid`) and floating-point arithmetic compute with them, and the texts that `Display` and `Debug` print.
-/

namespace H2Database.Sql

structure NaiveDate where
  numDays : Int32
  valid : -95746129 ≤ numDays.toInt ∧ numDays.toInt ≤ 95745399
  deriving DecidableEq

def NaiveDate.fromNumDaysFromCeOpt (days : Int32) : Option NaiveDate :=
  if h : -95746129 ≤ days.toInt ∧ days.toInt ≤ 95745399 then some ⟨days, h⟩ else none

structure NaiveTime where
  secs : UInt32
  nanos : UInt32
  deriving DecidableEq

structure Timestamp where
  secs : Int64
  nanos : UInt32
  deriving DecidableEq

def Timestamp.nanosOpt (ts : Timestamp) : Option Int64 :=
  let n := ts.secs.toInt * 1000000000 + ts.nanos.toNat
  if -9223372036854775808 ≤ n ∧ n ≤ 9223372036854775807 then some (Int64.ofInt n) else none

def Timestamp.fromNanos (nanos : Int64) : Timestamp :=
  ⟨Int64.ofInt (nanos.toInt.fdiv 1000000000), UInt32.ofNat (nanos.toInt.fmod 1000000000).toNat⟩

structure Decimal where
  image : BitVec 128
  deriving DecidableEq

structure Uuid where
  bits : BitVec 128
  deriving DecidableEq

structure Json where
  text : List UInt8
  deriving DecidableEq

structure IntervalValue where
  months : Int32
  days : Int32
  microseconds : Int64
  deriving DecidableEq

inductive Value where
  | null
  | boolean (b : Bool)
  | tinyInt (i : Int8)
  | smallInt (i : Int16)
  | integer (i : Int32)
  | bigInt (i : Int64)
  | float (bits : UInt32)
  | double (bits : UInt64)
  | decimal (d : Decimal)
  | string (s : String)
  | bytes (b : List UInt8)
  | date (d : NaiveDate)
  | time (t : NaiveTime)
  | timestamp (ts : Timestamp)
  | uuid (u : Uuid)
  | json (j : Json)
  | array (items : List Value)
  | interval (iv : IntervalValue)

/-- What other crates and the floating-point unit answer. -/
class Crates where
  decimalEq : Decimal → Decimal → Bool
  decimalFromI64 : Int64 → Option Decimal
  decimalFromF32 : UInt32 → Option Decimal
  decimalFromF64 : UInt64 → Option Decimal
  parseDecimal : String → Option Decimal
  decimalToF64 : Decimal → Option UInt64
  decimalToI64 : Decimal → Option Int64
  f32ToF64 : UInt32 → UInt64
  i64ToF64 : Int64 → UInt64
  f64ToF32 : UInt64 → UInt32
  f32ToI64 : UInt32 → Int64
  f64ToI64 : UInt64 → Int64
  parseF64 : String → Option UInt64
  jsonEq : Json → Json → Bool
  parseJson : String → Except String Json
  jsonFromSlice : List UInt8 → Option Json
  parseTimestamp : String → Option Timestamp
  parseDate : String → Option NaiveDate
  parseTime : String → Option NaiveTime
  parseUuid : String → Option Uuid
  parseInterval : String → Option IntervalValue
  midnight : NaiveDate → Option Timestamp
  dateNaive : Timestamp → NaiveDate
  timeOf : Timestamp → NaiveTime
  validTime : NaiveTime → Bool
  validTimestamp : Timestamp → Bool
  display : Value → String
  debug : Value → String
  debugAll : List Value → String

/-- The code points of the Unicode property `White_Space`. -/
def isWhiteSpace (c : Char) : Bool :=
  let n := c.toNat
  (9 ≤ n && n ≤ 13) || n == 0x20 || n == 0x85 || n == 0xA0 || n == 0x1680 ||
    (0x2000 ≤ n && n ≤ 0x200A) || n == 0x2028 || n == 0x2029 || n == 0x202F || n == 0x205F || n == 0x3000

def trim (s : String) : String :=
  String.ofList ((s.toList.dropWhile isWhiteSpace).reverse.dropWhile isWhiteSpace).reverse

def parseDigits (cs : List Char) : Option Nat :=
  if cs.isEmpty || !cs.all Char.isDigit then none
  else some (cs.foldl (fun n c => 10 * n + (c.toNat - 48)) 0)

def parseI64 (s : String) : Option Int64 :=
  let n : Option Int := match s.toList with
    | '-' :: cs => (parseDigits cs).map fun n => -(n : Int)
    | '+' :: cs => (parseDigits cs).map fun n => (n : Int)
    | cs => (parseDigits cs).map fun n => (n : Int)
  n.bind fun i =>
    if -9223372036854775808 ≤ i ∧ i ≤ 9223372036854775807 then some (Int64.ofInt i) else none

/-! ## Floating-point equality -/

def f32Eq (a b : UInt32) : Bool :=
  let nan (u : UInt32) := decide (0x7F800000 < u &&& 0x7FFFFFFF)
  !nan a && !nan b && (a == b || (a ||| b) &&& 0x7FFFFFFF == 0)

def f64Eq (a b : UInt64) : Bool :=
  let nan (u : UInt64) := decide (0x7FF0000000000000 < u &&& 0x7FFFFFFFFFFFFFFF)
  !nan a && !nan b && (a == b || (a ||| b) &&& 0x7FFFFFFFFFFFFFFF == 0)

theorem f32Eq_comm (a b : UInt32) : f32Eq a b = f32Eq b a := by
  have hor : (a ||| b) = (b ||| a) := UInt32.or_comm a b
  have hbeq : (a == b) = (b == a) := BEq.comm
  simp only [f32Eq, hor, hbeq]
  rw [Bool.and_comm (!decide (0x7F800000 < a &&& 0x7FFFFFFF))]

theorem f64Eq_comm (a b : UInt64) : f64Eq a b = f64Eq b a := by
  have hor : (a ||| b) = (b ||| a) := UInt64.or_comm a b
  have hbeq : (a == b) = (b == a) := BEq.comm
  simp only [f64Eq, hor, hbeq]
  rw [Bool.and_comm (!decide (0x7FF0000000000000 < a &&& 0x7FFFFFFFFFFFFFFF))]

namespace Value

variable [Crates]

def isNull : Value → Bool
  | .null => true
  | _ => false

def isDecimal : Value → Bool
  | .decimal _ => true
  | _ => false

def isFloating : Value → Bool
  | .float _ | .double _ => true
  | _ => false

def isNumeric : Value → Bool
  | .tinyInt _ | .smallInt _ | .integer _ | .bigInt _ | .float _ | .double _ | .decimal _ => true
  | _ => false

def toDecimal : Value → Option Decimal
  | .decimal d => some d
  | .tinyInt n => Crates.decimalFromI64 n.toInt64
  | .smallInt n => Crates.decimalFromI64 n.toInt64
  | .integer n => Crates.decimalFromI64 n.toInt64
  | .bigInt n => Crates.decimalFromI64 n
  | .float f => Crates.decimalFromF32 f
  | .double d => Crates.decimalFromF64 d
  | .string s => Crates.parseDecimal (trim s)
  | _ => none

def toF64 : Value → Option UInt64
  | .float f => some (Crates.f32ToF64 f)
  | .double d => some d
  | .decimal d => Crates.decimalToF64 d
  | .tinyInt n => some (Crates.i64ToF64 n.toInt64)
  | .smallInt n => some (Crates.i64ToF64 n.toInt64)
  | .integer n => some (Crates.i64ToF64 n.toInt64)
  | .bigInt n => some (Crates.i64ToF64 n)
  | .string s => Crates.parseF64 (trim s)
  | _ => none

def toI64 : Value → Option Int64
  | .tinyInt n => some n.toInt64
  | .smallInt n => some n.toInt64
  | .integer n => some n.toInt64
  | .bigInt n => some n
  | .decimal d => Crates.decimalToI64 d
  | .float f => some (Crates.f32ToI64 f)
  | .double d => some (Crates.f64ToI64 d)
  | .string s => parseI64 (trim s)
  | _ => none

/-- `compare_numeric` answers `Equal`. -/
def compareNumericEq (a b : Value) : Bool :=
  if a.isDecimal || b.isDecimal then
    match a.toDecimal, b.toDecimal with
    | some x, some y => Crates.decimalEq x y
    | _, _ => false
  else if a.isFloating || b.isFloating then
    match a.toF64, b.toF64 with
    | some x, some y => f64Eq x y
    | _, _ => false
  else
    match a.toI64, b.toI64 with
    | some x, some y => x == y
    | _, _ => false

mutual

/-- `PartialEq`.  An interval equals nothing, itself included. -/
def eq : Value → Value → Bool
  | .null, .null => true
  | .boolean a, .boolean b => a == b
  | .tinyInt a, .tinyInt b => a == b
  | .smallInt a, .smallInt b => a == b
  | .integer a, .integer b => a == b
  | .bigInt a, .bigInt b => a == b
  | .float a, .float b => f32Eq a b
  | .double a, .double b => f64Eq a b
  | .decimal a, .decimal b => Crates.decimalEq a b
  | .string a, .string b => a == b
  | .bytes a, .bytes b => a == b
  | .date a, .date b => a == b
  | .time a, .time b => a == b
  | .timestamp a, .timestamp b => a == b
  | .uuid a, .uuid b => a == b
  | .json a, .json b => Crates.jsonEq a b
  | .array a, .array b => eqAll a b
  | .timestamp a, .string s | .string s, .timestamp a => Crates.parseTimestamp s == some a
  | .date a, .string s | .string s, .date a => Crates.parseDate (trim s) == some a
  | a, b => a.isNumeric && b.isNumeric && compareNumericEq a b

def eqAll : List Value → List Value → Bool
  | [], [] => true
  | a :: as, b :: bs => eq a b && eqAll as bs
  | _, _ => false

end

end Value

structure Crates.Symmetric [Crates] : Prop where
  decimal : ∀ a b, Crates.decimalEq a b = Crates.decimalEq b a
  json : ∀ a b, Crates.jsonEq a b = Crates.jsonEq b a

section

variable [Crates]

theorem Value.compareNumericEq_comm (h : Crates.Symmetric) (a b : Value) :
    compareNumericEq a b = compareNumericEq b a := by
  unfold compareNumericEq
  rw [Bool.or_comm b.isDecimal, Bool.or_comm b.isFloating]
  split_ifs
  · cases a.toDecimal <;> cases b.toDecimal <;> first | rfl | exact h.decimal _ _
  · cases a.toF64 <;> cases b.toF64 <;> first | rfl | exact f64Eq_comm _ _
  · cases a.toI64 <;> cases b.toI64 <;> first | rfl | exact BEq.comm

mutual

theorem Value.eq_comm (h : Crates.Symmetric) (a b : Value) : a.eq b = b.eq a := by
  -- two numbers of different types are compared as numbers
  have hnum := Value.compareNumericEq_comm h a b
  cases a <;> cases b <;>
    simp only [Value.eq, Value.isNumeric, Bool.true_and, Bool.and_false, Bool.false_and, hnum]
  all_goals
    first
      | exact BEq.comm
      | exact f32Eq_comm _ _
      | exact f64Eq_comm _ _
      | exact h.decimal _ _
      | exact h.json _ _
      | exact Value.eqAll_comm h _ _

theorem Value.eqAll_comm (h : Crates.Symmetric) (as bs : List Value) :
    Value.eqAll as bs = Value.eqAll bs as := by
  cases as <;> cases bs
  · rfl
  · rfl
  · rfl
  · rw [Value.eqAll, Value.eqAll, Value.eq_comm h, Value.eqAll_comm h]

end

end

/-! ## Types and casts -/

inductive DataType where
  | boolean
  | tinyInt
  | smallInt
  | integer
  | bigInt
  | float
  | double
  | decimal (precision scale : UInt8)
  | char (len : Nat)
  | varChar (len : Option Nat)
  | binary (len : Option Nat)
  | blob
  | date
  | time
  | timestamp
  | timestampTz
  | uuid
  | json
  | array (inner : DataType)
  | interval

/-- NULL, or a value of the type.  A cast to a binary or an array type takes any value as it is. -/
def DataType.holds : DataType → Value → Bool
  | _, .null => true
  | .boolean, .boolean _ | .tinyInt, .tinyInt _ | .smallInt, .smallInt _ | .integer, .integer _ => true
  | .bigInt, .bigInt _ | .float, .float _ | .double, .double _ | .decimal _ _, .decimal _ => true
  | .varChar _, .string _ | .char _, .string _ | .date, .date _ | .time, .time _ => true
  | .timestamp, .timestamp _ | .timestampTz, .timestamp _ | .uuid, .uuid _ | .json, .json _ => true
  | .interval, .interval _ | .binary _, _ | .blob, _ | .array _, _ => true
  | _, _ => false

def parsed (s type : String) : Option Value → H2Result Value
  | some v' => .ok v'
  | none => .error (.typeError s!"Cannot parse '{s}' as {type}")

variable {v v' : Value}

theorem parsed_ok {s type : String} {o : Option Value} (h : parsed s type o = .ok v') :
    o = some v' := by
  cases o with
  | none => cases h
  | some w =>
    cases h
    rfl

theorem parsed_map_ok {α : Type} {f : α → Value} {s type : String} {o : Option α}
    (h : parsed s type (o.map f) = .ok v') : ∃ a, v' = f a := by
  obtain ⟨a, -, rfl⟩ := Option.map_eq_some_iff.mp (parsed_ok h)
  exact ⟨a, rfl⟩

variable [Crates]

def castResult (v : Value) (type : String) : Option Value → H2Result Value
  | some v' => .ok v'
  | none => .error (.typeError s!"Cannot cast {Crates.debug v} to {type}")

def castToBoolean (v : Value) : H2Result Value :=
  match v with
  | .boolean b => .ok (.boolean b)
  | .string s =>
    let word := (trim s).toUpper
    if word ∈ ["TRUE", "1", "T", "YES"] then .ok (.boolean true)
    else if word ∈ ["FALSE", "0", "F", "NO"] then .ok (.boolean false)
    else .error (.typeError s!"Cannot cast '{s}' to BOOLEAN")
  | v => castResult v "BOOLEAN" none

def castToTimestamp (v : Value) : H2Result Value :=
  match v with
  | .timestamp ts => .ok (.timestamp ts)
  | .string s => parsed s "TIMESTAMP / TIMESTAMPTZ" ((Crates.parseTimestamp s).map .timestamp)
  | .date d =>
    match Crates.midnight d with
    | some ts => .ok (.timestamp ts)
    | none => .error (.typeError s!"Cannot cast date {Crates.debug (.date d)} to TIMESTAMP")
  | v => castResult v "TIMESTAMP / TIMESTAMPTZ" none

def castToDate (v : Value) : H2Result Value :=
  match v with
  | .date d => .ok (.date d)
  | .timestamp ts => .ok (.date (Crates.dateNaive ts))
  | .string s => parsed s "DATE" ((Crates.parseDate (trim s)).map .date)
  | v => castResult v "DATE" none

def castToTime (v : Value) : H2Result Value :=
  match v with
  | .time t => .ok (.time t)
  | .timestamp ts => .ok (.time (Crates.timeOf ts))
  | .string s => parsed s "TIME" ((Crates.parseTime (trim s)).map .time)
  | v => castResult v "TIME" none

def castToJson (v : Value) : H2Result Value :=
  match v with
  | .json j => .ok (.json j)
  | .string s =>
    match Crates.parseJson s with
    | .ok j => .ok (.json j)
    | .error e => .error (.typeError s!"Invalid JSON string: {e}")
  | v => castResult v "JSON" none

def castToUuid (v : Value) : H2Result Value :=
  match v with
  | .uuid u => .ok (.uuid u)
  | .string s => parsed s "UUID" ((Crates.parseUuid (trim s)).map .uuid)
  | v => castResult v "UUID" none

def castToInterval (v : Value) : H2Result Value :=
  match v with
  | .interval iv => .ok (.interval iv)
  | .string s => parsed s "INTERVAL" ((Crates.parseInterval s).map .interval)
  | v => castResult v "INTERVAL" none

def castToString : Value → Value
  | .string s => .string s
  | v => .string (Crates.display v)

/-- A cast narrows an integer to the width of its target and keeps NULL. -/
def Value.castTo (v : Value) (target : DataType) : H2Result Value :=
  if v.isNull then .ok .null
  else match target with
    | .tinyInt => castResult v "TINYINT" (v.toI64.map fun i => .tinyInt i.toInt8)
    | .smallInt => castResult v "SMALLINT" (v.toI64.map fun i => .smallInt i.toInt16)
    | .integer => castResult v "INTEGER" (v.toI64.map fun i => .integer i.toInt32)
    | .bigInt => castResult v "BIGINT" (v.toI64.map .bigInt)
    | .float => castResult v "FLOAT" (v.toF64.map fun f => .float (Crates.f64ToF32 f))
    | .double => castResult v "DOUBLE" (v.toF64.map .double)
    | .decimal _ _ => castResult v "DECIMAL" (v.toDecimal.map .decimal)
    | .varChar _ | .char _ => .ok (castToString v)
    | .boolean => castToBoolean v
    | .json => castToJson v
    | .timestamp | .timestampTz => castToTimestamp v
    | .date => castToDate v
    | .time => castToTime v
    | .uuid => castToUuid v
    | .interval => castToInterval v
    | _ => .ok v

theorem castResult_ok {type : String} {o : Option Value}
    (h : castResult v type o = .ok v') : o = some v' := by
  cases o with
  | none => cases h
  | some w =>
    cases h
    rfl

theorem castToBoolean_eq (h : castToBoolean v = .ok v') : ∃ b, v' = .boolean b := by
  unfold castToBoolean at h
  split at h
  · cases h
    exact ⟨_, rfl⟩
  · dsimp only at h
    split_ifs at h <;> (cases h; exact ⟨_, rfl⟩)
  · cases castResult_ok h

theorem castToTimestamp_eq (h : castToTimestamp v = .ok v') :
    ∃ ts, v' = .timestamp ts := by
  unfold castToTimestamp at h
  split at h
  · cases h
    exact ⟨_, rfl⟩
  · exact parsed_map_ok h
  · split at h
    · cases h
      exact ⟨_, rfl⟩
    · cases h
  · cases castResult_ok h

theorem castToDate_eq (h : castToDate v = .ok v') : ∃ d, v' = .date d := by
  unfold castToDate at h
  split at h
  · cases h
    exact ⟨_, rfl⟩
  · cases h
    exact ⟨_, rfl⟩
  · exact parsed_map_ok h
  · cases castResult_ok h

theorem castToTime_eq (h : castToTime v = .ok v') : ∃ t, v' = .time t := by
  unfold castToTime at h
  split at h
  · cases h
    exact ⟨_, rfl⟩
  · cases h
    exact ⟨_, rfl⟩
  · exact parsed_map_ok h
  · cases castResult_ok h

theorem castToJson_eq (h : castToJson v = .ok v') : ∃ j, v' = .json j := by
  unfold castToJson at h
  split at h
  · cases h
    exact ⟨_, rfl⟩
  · split at h
    · cases h
      exact ⟨_, rfl⟩
    · cases h
  · cases castResult_ok h

theorem castToUuid_eq (h : castToUuid v = .ok v') : ∃ u, v' = .uuid u := by
  unfold castToUuid at h
  split at h
  · cases h
    exact ⟨_, rfl⟩
  · exact parsed_map_ok h
  · cases castResult_ok h

theorem castToInterval_eq (h : castToInterval v = .ok v') : ∃ iv, v' = .interval iv := by
  unfold castToInterval at h
  split at h
  · cases h
    exact ⟨_, rfl⟩
  · exact parsed_map_ok h
  · cases castResult_ok h

theorem castToString_eq (v : Value) : ∃ s, castToString v = .string s := by
  cases v <;> exact ⟨_, rfl⟩

theorem castTo_cases {target : DataType} (h : v.castTo target = .ok v') :
    v.isNull = true ∧ v' = .null ∨ v.isNull = false ∧ v'.isNull = false ∧ target.holds v' = true := by
  unfold Value.castTo at h
  split_ifs at h with hnull
  · cases h
    exact .inl ⟨hnull, rfl⟩
  · have hv : v.isNull = false := Bool.eq_false_of_not_eq_true hnull
    refine .inr ⟨hv, ?_⟩
    cases target with
    | boolean =>
      obtain ⟨b, rfl⟩ := castToBoolean_eq h
      exact ⟨rfl, rfl⟩
    | varChar | char =>
      obtain ⟨text, htext⟩ := castToString_eq v
      cases htext ▸ h
      exact ⟨rfl, rfl⟩
    | json =>
      obtain ⟨j, rfl⟩ := castToJson_eq h
      exact ⟨rfl, rfl⟩
    | timestamp | timestampTz =>
      obtain ⟨ts, rfl⟩ := castToTimestamp_eq h
      exact ⟨rfl, rfl⟩
    | date =>
      obtain ⟨d, rfl⟩ := castToDate_eq h
      exact ⟨rfl, rfl⟩
    | time =>
      obtain ⟨t, rfl⟩ := castToTime_eq h
      exact ⟨rfl, rfl⟩
    | uuid =>
      obtain ⟨u, rfl⟩ := castToUuid_eq h
      exact ⟨rfl, rfl⟩
    | interval =>
      obtain ⟨iv, rfl⟩ := castToInterval_eq h
      exact ⟨rfl, rfl⟩
    | binary | blob | array =>
      cases h
      exact ⟨hv, by cases v <;> rfl⟩
    | tinyInt | smallInt | integer | bigInt | float | double | decimal =>
      obtain ⟨i, -, rfl⟩ := Option.map_eq_some_iff.mp (castResult_ok h)
      exact ⟨rfl, rfl⟩

theorem isNull_of_castTo {target : DataType} (h : v.castTo target = .ok v') :
    v'.isNull = v.isNull := by
  rcases castTo_cases h with ⟨hv, rfl⟩ | ⟨hv, hv', -⟩
  · exact hv.symm
  · rw [hv, hv']

end H2Database.Sql
