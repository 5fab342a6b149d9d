import H2Database.Sql.Row
import H2Database.Reasoning.Run

/-!
# FETCH (`h2-sql/src/executor/statement.rs`)

A cursor holds the rows of its query and a position: -1 before the first row, the number of the row it is on,
the number of rows behind the last one.  Every direction moves the position by an arithmetic of its own.
-/

namespace H2Database.Sql

open H2Database.Reasoning List

/-! ## Cursors -/

/-- An `isize` after an operation (a release build wraps around). -/
def isize (i : Int) : Int := (i + 9223372036854775808) % 18446744073709551616 - 9223372036854775808

/-- The cursor of `DECLARE`, as far as `FETCH` reads it.  A vector is no longer than `isize::MAX` bytes, and a
row takes 24 of them. -/
structure CursorState where
  columns : List String
  rows : List Row
  currentPos : Int
  fits : 24 * rows.length ≤ 9223372036854775807

/-- The number after a direction: a number token, or another value. -/
inductive FetchLimit where
  | number (s : String)
  | other

inductive FetchDirection where
  | next
  | prior
  | first
  | last
  | absolute (limit : FetchLimit)
  | relative (limit : FetchLimit)
  | all
  | forwardAll
  | forward (limit : Option FetchLimit)
  | count (limit : FetchLimit)
  | backward (limit : Option FetchLimit)
  | backwardAll

/-- `s.parse().unwrap_or(1)` as an `isize`. -/
def FetchLimit.toIsize : FetchLimit → Int
  | .number s => ((parseI64 s).map Int64.toInt).getD 1
  | .other => 1

/-- `s.parse().unwrap_or(1)` as a `usize`, which takes no minus sign. -/
def FetchLimit.toUsize : FetchLimit → Nat
  | .number s =>
    let n := match s.toList with
      | '+' :: cs => parseDigits cs
      | cs => parseDigits cs
    (n.filter (· < 18446744073709551616)).getD 1
  | .other => 1

/-! ## The directions -/

/-- `rows[pos as usize]`, which panics outside the rows. -/
def rowAtPosition (rows : List Row) (pos : Int) : Option Row := rows[(pos % 18446744073709551616).toNat]?

def fetchOne (rows : List Row) (pos : Int) : Option (Int × List Row) :=
  if 0 ≤ pos ∧ pos < rows.length then (rowAtPosition rows pos).map fun row => (pos, [row]) else some (pos, [])

/-- `FORWARD` and `BACKWARD` go on until they leave the rows. -/
def fetchLoop (rows : List Row) (by' : Int) : Nat → Int → List Row → Option (Int × List Row)
  | 0, pos, result => some (pos, result)
  | count + 1, pos, result =>
    let pos := isize (pos + by')
    if 0 ≤ pos ∧ pos < rows.length then
      (rowAtPosition rows pos).bind fun row => fetchLoop rows by' count pos (result ++ [row])
    else some (pos, result)

/-- `BACKWARD ALL` from a position above the first row looks at no bound. -/
def fetchBackwardAll (rows : List Row) : Nat → List Row → Option (List Row)
  | 0, result => some result
  | pos + 1, result => (rowAtPosition rows pos).bind fun row => fetchBackwardAll rows pos (result ++ [row])

/-- The new position and the rows; nothing where the index is out of bounds. -/
def fetchRows (rows : List Row) (currentPos : Int) : FetchDirection → Option (Int × List Row)
  | .next => fetchOne rows (isize (currentPos + 1))
  | .prior => fetchOne rows (isize (currentPos - 1))
  | .first => fetchOne rows 0
  | .last => fetchOne rows (rows.length - 1)
  | .absolute limit =>
    let n := limit.toIsize
    fetchOne rows (if 0 < n then n - 1 else rows.length + n)
  | .relative limit => fetchOne rows (isize (currentPos + limit.toIsize))
  | .all | .forwardAll => some (rows.length, rows.drop (max (isize (currentPos + 1)) 0).toNat)
  | .forward limit => fetchLoop rows 1 ((limit.map FetchLimit.toUsize).getD 1) currentPos []
  | .count limit => fetchLoop rows 1 limit.toUsize currentPos []
  | .backward limit => fetchLoop rows (-1) ((limit.map FetchLimit.toUsize).getD 1) currentPos []
  | .backwardAll => (fetchBackwardAll rows currentPos.toNat []).map fun result => (-1, result)

namespace CursorState

variable (c : CursorState)

def fetch (direction : FetchDirection) : Option (CursorState × List Row) :=
  (fetchRows c.rows c.currentPos direction).map fun fetched => ({ c with currentPos := fetched.1 }, fetched.2)

def InRange : Prop := -1 ≤ c.currentPos ∧ c.currentPos ≤ c.rows.length

def Allows : FetchDirection → Prop
  | .next => c.currentPos < c.rows.length
  | .prior => -1 < c.currentPos
  | .absolute limit => -1 - c.rows.length ≤ limit.toIsize ∧ limit.toIsize ≤ c.rows.length + 1
  | .relative limit =>
    -1 ≤ c.currentPos + limit.toIsize ∧ c.currentPos + limit.toIsize ≤ c.rows.length
  | .forward limit => (limit.map FetchLimit.toUsize).getD 1 = 0 ∨ c.currentPos < c.rows.length
  | .count limit => limit.toUsize = 0 ∨ c.currentPos < c.rows.length
  | .backward limit => (limit.map FetchLimit.toUsize).getD 1 = 0 ∨ -1 < c.currentPos
  | .first | .last | .all | .forwardAll | .backwardAll => True

end CursorState

/-! ## One FETCH -/

section

variable {rows : List Row}

theorem rowAt_eq (pos : Nat) (h : pos < rows.length) (hfits : 24 * rows.length ≤ 9223372036854775807) :
    rowAtPosition rows pos = some rows[pos] := by
  have hpos : ((pos : Int) % 18446744073709551616).toNat = pos := by omega
  rw [rowAtPosition, hpos, getElem?_eq_getElem h]

theorem fetchOne_position (pos : Int) (hfits : 24 * rows.length ≤ 9223372036854775807) :
    ∃ result, fetchOne rows pos = some (pos, result) := by
  rw [fetchOne]
  split_ifs with h
  · obtain ⟨n, rfl⟩ := Int.eq_ofNat_of_zero_le h.1
    exact ⟨_, by rw [rowAt_eq n (by omega) hfits, Option.map_some]⟩
  · exact ⟨_, rfl⟩

theorem fetchLoop_inRange_iff {by' : Int} (hby : by' = 1 ∨ by' = -1)
    (hfits : 24 * rows.length ≤ 9223372036854775807) (count : Nat) (pos : Int) (result : List Row)
    (hpos : -1 ≤ pos ∧ pos ≤ rows.length) :
    ∃ after rows', fetchLoop rows by' count pos result = some (after, rows') ∧
      (-1 ≤ after ∧ after ≤ rows.length ↔ count = 0 ∨ -1 ≤ pos + by' ∧ pos + by' ≤ rows.length) := by
  induction count generalizing pos result with
  | zero => exact ⟨pos, result, rfl, iff_of_true hpos (.inl rfl)⟩
  | succ count ih =>
    have hsize : isize (pos + by') = pos + by' := by
      rw [isize]
      omega
    rw [fetchLoop, hsize]
    split_ifs with h
    · obtain ⟨n, hn⟩ := Int.eq_ofNat_of_zero_le h.1
      obtain ⟨after, rows', hloop, hafter⟩ := ih (pos + by') (result ++ [rows[n]]) (by omega)
      refine ⟨after, rows', ?_, ?_⟩
      · rw [hn, rowAt_eq n (by omega) hfits, Option.bind_some, ← hn, hloop]
      · rw [hafter]
        omega
    · exact ⟨pos + by', result, rfl, fun hrange => Or.inr hrange, fun hrange => hrange.resolve_left id⟩

theorem fetchBackwardAll_isSome (hfits : 24 * rows.length ≤ 9223372036854775807) {pos : Nat}
    (hpos : pos ≤ rows.length) (result : List Row) :
      ∃ rows', fetchBackwardAll rows pos result = some rows' := by
  induction pos generalizing result with
  | zero => exact ⟨result, rfl⟩
  | succ pos ih =>
    obtain ⟨rows', h⟩ := ih (by omega) (result ++ [rows[pos]])
    exact ⟨rows', by rw [fetchBackwardAll, rowAt_eq pos (by omega) hfits, Option.bind_some, h]⟩

end

namespace CursorState

variable (c : CursorState)

/-- A direction that is allowed is carried out and leaves the cursor in range; any other one leaves it out of
range. -/
theorem fetchRows_inRange_iff (h : c.InRange) (direction : FetchDirection) :
    ∃ after rows', fetchRows c.rows c.currentPos direction = some (after, rows') ∧
      (-1 ≤ after ∧ after ≤ c.rows.length ↔ c.Allows direction) := by
  obtain ⟨hlow, hhigh⟩ := h
  have hfits := c.fits
  have hone : ∀ {pos : Int} {p : Prop}, (-1 ≤ pos ∧ pos ≤ c.rows.length ↔ p) →
      ∃ after rows', fetchOne c.rows pos = some (after, rows') ∧
        (-1 ≤ after ∧ after ≤ c.rows.length ↔ p) := by
    intro pos p hp
    obtain ⟨rows', hrows⟩ := fetchOne_position pos hfits
    exact ⟨pos, rows', hrows, hp⟩
  have hloop : ∀ {by' : Int} {p : Prop} (count : Nat), by' = 1 ∨ by' = -1 →
      (-1 ≤ c.currentPos + by' ∧ c.currentPos + by' ≤ c.rows.length ↔ p) →
      ∃ after rows', fetchLoop c.rows by' count c.currentPos [] = some (after, rows') ∧
        (-1 ≤ after ∧ after ≤ c.rows.length ↔ count = 0 ∨ p) := by
    intro by' p count hby hp
    obtain ⟨after, rows', hrows, hiff⟩ := fetchLoop_inRange_iff hby hfits count c.currentPos [] ⟨hlow, hhigh⟩
    exact ⟨after, rows', hrows, by rw [hiff, hp]⟩
  cases direction with
  | next => exact hone (by rw [isize, Allows]; omega)
  | prior => exact hone (by rw [isize, Allows]; omega)
  | first => exact hone (iff_of_true (by omega) trivial)
  | last => exact hone (iff_of_true (by omega) trivial)
  | absolute limit =>
    refine hone ?_
    rw [Allows]
    split_ifs <;> omega
  | relative limit =>
    have hlimit : -9223372036854775808 ≤ limit.toIsize ∧ limit.toIsize ≤ 9223372036854775807 := by
      cases limit with
      | other => exact ⟨by decide, by decide⟩
      | number s =>
        rw [FetchLimit.toIsize]
        cases parseI64 s with
        | none => exact ⟨by decide, by decide⟩
        | some n => exact ⟨n.le_toInt, Int.le_of_lt_add_one n.toInt_lt⟩
    refine hone ?_
    rw [isize, Allows]
    omega
  | all => exact ⟨_, _, rfl, iff_of_true (by omega) trivial⟩
  | forwardAll => exact ⟨_, _, rfl, iff_of_true (by omega) trivial⟩
  | forward limit => exact hloop _ (.inl rfl) (by omega)
  | count limit => exact hloop _ (.inl rfl) (by omega)
  | backward limit => exact hloop _ (.inr rfl) (by omega)
  | backwardAll =>
    obtain ⟨rows', hrows⟩ :=
      fetchBackwardAll_isSome hfits (show c.currentPos.toNat ≤ c.rows.length by omega) []
    refine ⟨-1, rows', ?_, iff_of_true (by omega) trivial⟩
    rw [fetchRows, hrows, Option.map_some]

theorem fetch_prior_behind (h : c.currentPos = c.rows.length) :
    ∃ after, c.fetch .prior = some (after, c.rows.getLast?.toList) := by
  have hfits := c.fits
  have hsize : isize (c.currentPos - 1) = c.rows.length - 1 := by
    rw [isize]
    omega
  rw [fetch, fetchRows, hsize, fetchOne]
  split_ifs with hrow
  · obtain ⟨n, hn⟩ := Int.eq_ofNat_of_zero_le hrow.1
    have hlast : c.rows.getLast? = some c.rows[n] := by
      rw [getLast?_eq_getElem?, ← getElem?_eq_getElem]
      congr 1
      omega
    rw [hn, rowAt_eq n (by omega) hfits, hlast]
    exact ⟨_, rfl⟩
  · have hnone : c.rows.getLast? = none := by
      rw [getLast?_eq_none_iff]
      exact eq_nil_of_length_eq_zero (by omega)
    rw [hnone]
    exact ⟨_, rfl⟩

def fetchStep (state : Option CursorState) (direction : FetchDirection) : Option CursorState :=
  state.bind fun c => (c.fetch direction).map Prod.fst

def StaysInRange (state : Option CursorState) : Prop := ∃ c, state = some c ∧ c.InRange

def allowsIn (state : Option CursorState) (direction : FetchDirection) : Prop :=
  ∀ c, state = some c → c.Allows direction

theorem fetchStep_inRange_iff (h : c.InRange) (direction : FetchDirection) :
    StaysInRange (fetchStep (some c) direction) ↔ c.Allows direction := by
  obtain ⟨after, rows', hrows, hiff⟩ := c.fetchRows_inRange_iff h direction
  have hstep : fetchStep (some c) direction = some { c with currentPos := after } := by
    rw [fetchStep, Option.bind_some, fetch, hrows]
    rfl
  rw [hstep, ← hiff]
  constructor
  · rintro ⟨c', hc', hrange⟩
    obtain rfl := Option.some.inj hc'
    exact hrange
  · exact fun hrange => ⟨_, rfl, hrange⟩

theorem rows_fetchStep {state : Option CursorState} {direction : FetchDirection}
    (h : ∀ c', state = some c' → c'.rows = c.rows) :
    ∀ c', fetchStep state direction = some c' → c'.rows = c.rows := by
  intro c' hc'
  obtain ⟨before, hbefore, hfetch⟩ := Option.bind_eq_some_iff.mp hc'
  rw [fetch, Option.map_map] at hfetch
  obtain ⟨fetched, -, rfl⟩ := Option.map_eq_some_iff.mp hfetch
  exact h before hbefore

/-- Along a run from the beginning no access is out of bounds, every position is in range, and PRIOR after a
NEXT that has gone past the end answers the last row, if and only if every direction is allowed where it is
carried out. -/
theorem fetches_inRange_iff (hstart : c.currentPos = -1) (directions : List FetchDirection) :
    ((∀ before, before <+: directions → StaysInRange (runs fetchStep (some c) before)) ∧
        ∀ before after, before ++ [.next, .prior] <+: directions →
          runs fetchStep (some c) (before ++ [.next]) = some after → after.rows.length ≤ after.currentPos →
          ∃ after', after.fetch .prior = some (after', c.rows.getLast?.toList)) ↔
      Meets fetchStep allowsIn (some c) directions := by
  have hrange : (∀ before, before <+: directions → StaysInRange (runs fetchStep (some c) before)) ↔
      Meets fetchStep allowsIn (some c) directions := by
    have hc : StaysInRange (some c) := ⟨c, rfl, by omega, by omega⟩
    refine forall_prefix_iff_meets ?_ (fun _ h => h) ?_ hc directions
    · rintro _ direction ⟨c', rfl, hc'⟩ hallows
      exact (c'.fetchStep_inRange_iff hc' direction).mpr (hallows c' rfl)
    · rintro _ direction ⟨c', rfl, hc'⟩ hstays c'' hc''
      obtain rfl := Option.some.inj hc''
      exact (c'.fetchStep_inRange_iff hc' direction).mp hstays
  rw [← hrange]
  refine ⟨fun h => h.1, fun h => ⟨h, fun before after hprefix hafter hbehind => ?_⟩⟩
  have hprefix : before ++ [.next] <+: directions :=
    (prefix_append (before ++ [.next]) [.prior]).trans (by rwa [append_assoc])
  obtain ⟨c', hc', hlow, hhigh⟩ := h _ hprefix
  rw [hafter] at hc'
  obtain rfl := Option.some.inj hc'
  have hstart : ∀ c', some c = some c' → c'.rows = c.rows := fun c' hc' => by rw [Option.some.inj hc']
  have hrows : after.rows = c.rows :=
    @runs_invariant _ _ fetchStep (fun state => ∀ c', state = some c' → c'.rows = c.rows)
      (fun _ _ hsame => c.rows_fetchStep hsame) (some c) hstart _ after hafter
  rw [← hrows]
  exact after.fetch_prior_behind (by omega)

/-- Two rows: four times NEXT, and BACKWARD ALL reads behind the last row. -/
def twoRows : CursorState := ⟨["a"], [[.integer 1], [.integer 2]], -1, by decide⟩

theorem backwardAll_outOfBounds : ¬ (∀ before, before <+: [.next, .next, .next, .next, .backwardAll] →
    StaysInRange (runs fetchStep (some twoRows) before)) := by
  intro h
  obtain ⟨c', hc', -⟩ := h _ (prefix_refl _)
  have hpanic : runs fetchStep (some twoRows) [.next, .next, .next, .next, .backwardAll] = none := rfl
  rw [hpanic] at hc'
  cases hc'

theorem fetches_inRange_twoRows :
    (∀ before, before <+: [.next, .next, .next, .prior] →
      StaysInRange (runs fetchStep (some twoRows) before)) ∧
      ∀ before after, before ++ [.next, .prior] <+: [.next, .next, .next, .prior] →
        runs fetchStep (some twoRows) (before ++ [.next]) = some after →
          after.rows.length ≤ after.currentPos →
        ∃ after', after.fetch .prior = some (after', twoRows.rows.getLast?.toList) := by
  refine (twoRows.fetches_inRange_iff rfl _).mpr ⟨?_, ?_, ?_, ?_, trivial⟩
  all_goals
    intro c hc
    obtain rfl := Option.some.inj hc
    change (_ : Int) < _
    decide

end CursorState

end H2Database.Sql
