import H2Database.Sql.ColumnFolds

/-!
# Which columns are read right

`extract_numeric_column` steps over the values before a column by sizes of its own.  The bytes of a UUID
are taken for a length, arrays and intervals have no size, and a column that holds neither a number nor a
truth value is read as zero.
-/

namespace H2Database.Sql

open Reasoning List Option

/-- How the extraction comes to a column: behind the values before it, nowhere, or into the middle of some
other value. -/
inductive Course where
  | arrives
  | stops
  | strays
  deriving DecidableEq

/-- The way behind `n` values.  A step that is no value's end leads behind the row or astray. -/
def courseOver : Nat → List Value → Course
  | 0, _ => .arrives
  | _ + 1, [] => .stops
  | n + 1, v :: vals =>
    match v.step with
    | none => .stops
    | some size =>
      if size = (encodeValue v).length then courseOver n vals
      else if (encodeValues (v :: vals)).length ≤ size then .stops
      else .strays

def Row.course (row : Row) (column : Nat) : Course :=
  if row.length % 2 ^ 32 ≤ column then .stops else courseOver column row

section

variable [Crates]

def Value.isCounted : Value → Bool
  | .boolean _ => true
  | v => v.isNumeric

def Value.HasNumber (v : Value) (p : Int64 × UInt64) : Prop :=
  match v with
  | .boolean b => p = if b then (1, 0x3FF0000000000000) else (0, 0)
  | v => v.isNumeric = true ∧ v.toI64 = some p.1 ∧ v.toF64 = some p.2

def Value.Tells (v : Value) : Option (Int64 × UInt64) → Prop
  | none => v.isCounted = false
  | some p => v.HasNumber p

def Row.Tells (row : Row) (column : Nat) (answer : Option (Int64 × UInt64)) : Prop :=
  match row[column]? with
  | none => answer = none
  | some v => v.Tells answer

/-- The values that are read right where the extraction arrives.  A decimal is read as zero. -/
def Value.Extracted : Value → Prop
  | .decimal d => Crates.decimalToI64 d = some 0 ∧ Crates.decimalToF64 d = some 0
  | .string _ | .bytes _ | .date _ | .time _ | .timestamp _ | .uuid _ | .json _ => False
  | _ => True

/-- The extraction arrives at a value that it reads right, or it stops and there is no number to be read. -/
def Row.Extractable (row : Row) (column : Nat) : Prop :=
  match row.course column with
  | .arrives => ∀ v, row[column]? = some v → v.Extracted
  | .stops => ∀ v, row[column]? = some v → v.isCounted = false
  | .strays => False

/-! ## The way to a column -/

theorem extractFrom_zero (v : Value) (rest : List UInt8) :
    extractFrom 0 (encodeValue v ++ rest) = v.step.bind fun _ => v.number := by
  rw [extractFrom, numericField_encodeValue_eq]
  cases hstep : v.step with
  | none => rfl
  | some size =>
    rw [map_some, bind_some, bind_some]
    by_cases hnull : v.isNull = true
    · rw [if_pos ((head?_encodeValue v rest).mpr hnull), (Value.number_eq_none v).mpr hnull]
    · rw [if_neg (mt (head?_encodeValue v rest).mp hnull)]
      exact (Value.number_of_isNull (Bool.eq_false_of_not_eq_true hnull)).symm

theorem extractFrom_nil (n : Nat) : extractFrom n [] = none := by
  cases n <;> rfl

theorem extractFrom_succ (n : Nat) (v : Value) (rest : List UInt8) :
    extractFrom (n + 1) (encodeValue v ++ rest) =
      v.step.bind fun size => extractFrom n ((encodeValue v ++ rest).drop size) := by
  rw [extractFrom, numericField_encodeValue_eq]
  cases v.step <;> rfl

theorem extractFrom_of_arrives {n : Nat} {vals : List Value} (h : courseOver n vals = .arrives) :
    extractFrom n (encodeValues vals) = extractFrom 0 (encodeValues (vals.drop n)) := by
  induction n generalizing vals with
  | zero => rfl
  | succ n ih =>
    cases vals with
    | nil => cases h
    | cons v vals =>
      rw [courseOver] at h
      rw [encodeValues, extractFrom_succ]
      cases hstep : v.step with
      | none =>
        rw [hstep] at h
        cases h
      | some size =>
        rw [hstep] at h
        dsimp only at h
        split_ifs at h with hsize
        rw [bind_some, hsize, drop_left, drop_succ_cons]
        exact ih h

theorem extractFrom_of_stops {n : Nat} {vals : List Value} (h : courseOver n vals = .stops) :
    extractFrom n (encodeValues vals) = none := by
  induction n generalizing vals with
  | zero => cases h
  | succ n ih =>
    cases vals with
    | nil => exact extractFrom_nil _
    | cons v vals =>
      rw [courseOver] at h
      rw [encodeValues, extractFrom_succ]
      cases hstep : v.step with
      | none => rfl
      | some size =>
        rw [hstep] at h
        dsimp only at h
        rw [bind_some]
        split_ifs at h with hsize hend
        · rw [hsize, drop_left]
          exact ih h
        · rw [encodeValues] at hend
          rw [drop_eq_nil_of_le hend]
          exact extractFrom_nil n

/-! ## The extraction -/

theorem extractNumericColumn_toBytes_eq (row : Row) (column : Nat) :
    extractNumericColumn row.toBytes column =
      if row.length % 2 ^ 32 ≤ column then none else extractFrom column (encodeValues row) := by
  simp only [extractNumericColumn, Row.toBytes]
  rw [if_neg (by decide), takeLe_leBytes_mod]
  rfl

theorem Value.tells_iff (v : Value) : v.Tells (v.step.bind fun _ => v.number) ↔ v.Extracted := by
  cases v with
  | null | array _ | interval _ => exact iff_of_true rfl trivial
  | boolean b => exact iff_of_true rfl trivial
  | tinyInt _ | smallInt _ | integer _ | bigInt _ | float _ | double _ =>
    exact iff_of_true ⟨rfl, rfl, rfl⟩ trivial
  | decimal d => exact and_iff_right rfl
  | string _ | bytes _ | date _ | time _ | timestamp _ | uuid _ | json _ =>
    exact iff_of_false (fun h => Bool.false_ne_true h.1) id

/-- Where the extraction does not go astray, it tells what the column holds exactly where the condition
says. -/
theorem extractNumericColumn_tells (row : Row) (column : Nat) :
    (row.Extractable column → row.Tells column (extractNumericColumn row.toBytes column)) ∧
      (row.course column ≠ .strays →
        row.Tells column (extractNumericColumn row.toBytes column) → row.Extractable column) := by
  rw [extractNumericColumn_toBytes_eq]
  unfold Row.Extractable Row.Tells Row.course
  by_cases hcount : row.length % 2 ^ 32 ≤ column
  · rw [if_pos hcount, if_pos hcount]
    cases hcolumn : row[column]? with
    | none => exact ⟨fun _ => rfl, fun _ _ v hv => by cases hv⟩
    | some v => exact ⟨fun h => h v rfl, fun _ h w hw => some_inj.mp hw ▸ h⟩
  · have hlt : column < row.length := by
      have := Nat.mod_le row.length (2 ^ 32)
      omega
    rw [if_neg hcount, if_neg hcount, getElem?_eq_getElem hlt]
    dsimp only
    cases hcourse : courseOver column row with
    | arrives =>
      have hread := extractFrom_of_arrives hcourse
      rw [drop_eq_getElem_cons hlt, encodeValues, extractFrom_zero] at hread
      rw [hread]
      have htells := Value.tells_iff row[column]
      exact ⟨fun h => htells.mpr (h _ rfl), fun _ h w hw => some_inj.mp hw ▸ htells.mp h⟩
    | stops =>
      rw [extractFrom_of_stops hcourse]
      exact ⟨fun h => h _ rfl, fun _ h w hw => some_inj.mp hw ▸ h⟩
    | strays => exact ⟨fun h => h.elim, fun h => absurd rfl h⟩

end

section

attribute [local instance] plainCrates

/-- The step over a UUID of zeros ends inside it, and no number is found in the next column. -/
theorem extractNumericColumn_behindUuid :
    Row.Tells [.uuid ⟨0⟩, .integer 7] 1 (some (7, Crates.i64ToF64 7)) ∧
      ¬ Row.Tells [.uuid ⟨0⟩, .integer 7] 1
        (extractNumericColumn (Row.toBytes [.uuid ⟨0⟩, .integer 7]) 1) := by
  have hread : extractNumericColumn (Row.toBytes [.uuid ⟨0⟩, .integer 7]) 1 = none := by decide
  refine ⟨⟨rfl, rfl, rfl⟩, ?_⟩
  rw [hread]
  exact Bool.true_eq_false_eq_False

end

end H2Database.Sql
