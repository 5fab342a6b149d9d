import H2Database.Reasoning.Images
import H2Database.Sql.Pushdown

/-!
# Index keys in the order of their values

The image of a value is behind a tag, NULL's tag is the least, and the images of one kind compare as the
values.  So keys of one index compare as the values of their columns and then as the numbers of their rows.
A timestamp within a leap second has the image of one in the next second.
-/

namespace H2Database.Sql

open Reasoning List Nat Int
open Option hiding all all_eq_true map map_id

/-! ## Texts and byte strings -/

theorem utf8_eq (s : String) : utf8 s = s.toList.flatMap String.utf8EncodeChar := by
  show s.toByteArray.data.toList = _
  rw [← String.utf8Encode_toList, List.utf8Encode, data_toByteArray]

theorem compare_utf8_bytes (s t : String) : compare (utf8 s) (utf8 t) = compare s t := by
  rw [utf8_eq, utf8_eq, compare_utf8]

theorem escape_cons (b : UInt8) (bs : List UInt8) :
    escape (b :: bs) = if b = 0 then 0 :: 0xFF :: escape bs else b :: escape bs := by
  unfold escape
  rw [flatMap_cons]
  split <;> rfl

theorem compare_zero {b : UInt8} (hb : b ≠ 0) : compare 0 b = .lt := by
  have h : b.toNat ≠ 0 := fun h => hb (UInt8.toNat_inj.mp h)
  rw [compare_uint8]
  exact compare_lt_iff_lt.mpr (pos_of_ne_zero h)

theorem compare_to_zero {b : UInt8} (hb : b ≠ 0) : compare b 0 = .gt := by
  rw [Std.OrientedOrd.eq_swap, compare_zero hb]
  rfl

theorem compares_escape (bs cs : List UInt8) :
    Compares (escape bs ++ [0, 0]) (escape cs ++ [0, 0]) (compare bs cs) := by
  induction bs generalizing cs with
  | nil =>
    cases cs with
    | nil => exact compares_self _
    | cons c cs =>
      rw [escape_cons]
      split_ifs with hc
      · exact compares_cons_self 0 (compares_of_lt (by decide) _ _)
      · exact compares_of_lt (compare_zero hc) _ _
  | cons b bs ih =>
    cases cs with
    | nil =>
      rw [escape_cons]
      split_ifs with hb
      · exact compares_cons_self 0 (compares_of_gt (by decide) _ _)
      · exact compares_of_gt (compare_to_zero hb) _ _
    | cons c cs =>
      rw [escape_cons, escape_cons, List.compare_cons_cons]
      split_ifs with hb hc hc
      · rw [hb, hc]
        exact compares_cons_self 0 (compares_cons_self 0xFF (ih cs))
      · rw [hb, compare_zero hc]
        exact compares_of_lt (compare_zero hc) _ _
      · rw [hc, compare_to_zero hb]
        exact compares_of_gt (compare_to_zero hb) _ _
      · exact compares_cons (ih cs)

/-! ## Signed integers -/

theorem xor_two_pow {k n : Nat} (h : n < 2 ^ (k + 1)) :
    n ^^^ 2 ^ k = if n < 2 ^ k then n + 2 ^ k else n - 2 ^ k := by
  have hpos : 0 < 2 ^ k := Nat.two_pow_pos k
  have hdiv : (n ^^^ 2 ^ k) / 2 ^ k = n / 2 ^ k ^^^ 1 := by
    rw [Nat.xor_div_two_pow, Nat.div_self hpos]
  have hmod : (n ^^^ 2 ^ k) % 2 ^ k = n % 2 ^ k := by
    rw [Nat.xor_mod_two_pow, Nat.mod_self, Nat.xor_zero]
  have hsplit := Nat.div_add_mod (n ^^^ 2 ^ k) (2 ^ k)
  rw [hdiv, hmod] at hsplit
  rw [← hsplit]
  split_ifs with hlt
  · rw [div_eq_of_lt hlt, mod_eq_of_lt hlt, zero_xor]
    omega
  · have hge : 2 ^ k ≤ n := Nat.le_of_not_lt hlt
    have hsucc : 2 ^ (k + 1) = 2 ^ k * 2 := pow_succ 2 k
    have hone : n / 2 ^ k = 1 := Nat.div_eq_of_lt_le (by omega) (by omega)
    rw [hone, Nat.mod_eq_sub_mod hge, Nat.mod_eq_of_lt (by omega), Nat.xor_self]
    omega

theorem toNat_flip {k : Nat} (x : BitVec (k + 1)) :
    ((x ^^^ BitVec.twoPow (k + 1) k).toNat : Int) = x.toInt + 2 ^ k := by
  have hsucc : 2 ^ (k + 1) = 2 ^ k * 2 := pow_succ 2 k
  have hbit : (BitVec.twoPow (k + 1) k).toNat = 2 ^ k := by
    rw [BitVec.toNat_twoPow]
    exact Nat.mod_eq_of_lt (by have := Nat.two_pow_pos k; omega)
  rw [BitVec.toNat_xor, hbit, xor_two_pow x.isLt, BitVec.toInt_eq_toNat_cond]
  have hcast : ((2 ^ k : Nat) : Int) = 2 ^ k := by
    rw [Nat.cast_pow, Nat.cast_ofNat]
  split_ifs <;> omega

theorem compares_beBytes {w m n : Nat} (hm : m < 256 ^ w) (hn : n < 256 ^ w) :
    Compares (beBytes w m) (beBytes w n) (compare m n) := by
  rw [← compare_beBytes hm hn]
  exact compares_of_length (by rw [length_beBytes, length_beBytes])

theorem compares_flip {w k : Nat} (hw : 256 ^ w = 2 ^ (k + 1)) (x y : BitVec (k + 1)) :
    Compares (beBytes w (x ^^^ BitVec.twoPow (k + 1) k).toNat)
      (beBytes w (y ^^^ BitVec.twoPow (k + 1) k).toNat) (compare x.toInt y.toInt) := by
  have hx : (x ^^^ BitVec.twoPow (k + 1) k).toNat < 256 ^ w := hw ▸ BitVec.isLt _
  have hy : (y ^^^ BitVec.twoPow (k + 1) k).toNat < 256 ^ w := hw ▸ BitVec.isLt _
  have hcompare : compare x.toInt y.toInt =
      compare (x ^^^ BitVec.twoPow (k + 1) k).toNat (y ^^^ BitVec.twoPow (k + 1) k).toNat := by
    rw [← compare_natCast, toNat_flip, toNat_flip]
    apply compare_congr <;> omega
  rw [hcompare]
  exact compares_beBytes hx hy

theorem beBytes_one (b : UInt8) : beBytes 1 b.toNat = [b] := by
  simp [beBytes, leBytes]

theorem compares_int8 (a b : Int8) :
    Compares [a.toUInt8 ^^^ 0x80] [b.toUInt8 ^^^ 0x80] (compare a.toInt b.toInt) := by
  rw [← beBytes_one, ← beBytes_one]
  exact compares_flip (by decide) a.toBitVec b.toBitVec

theorem compares_int16 (a b : Int16) : Compares (beBytes 2 (a.toUInt16 ^^^ 0x8000).toNat)
    (beBytes 2 (b.toUInt16 ^^^ 0x8000).toNat) (compare a.toInt b.toInt) :=
  compares_flip (by decide) a.toBitVec b.toBitVec

theorem compares_int32 (a b : Int32) : Compares (beBytes 4 (a.toUInt32 ^^^ 0x80000000).toNat)
    (beBytes 4 (b.toUInt32 ^^^ 0x80000000).toNat) (compare a.toInt b.toInt) :=
  compares_flip (by decide) a.toBitVec b.toBitVec

theorem compares_int64 (a b : Int64) : Compares (beBytes 8 (a.toUInt64 ^^^ 0x8000000000000000).toNat)
    (beBytes 8 (b.toUInt64 ^^^ 0x8000000000000000).toNat) (compare a.toInt b.toInt) :=
  compares_flip (by decide) a.toBitVec b.toBitVec

/-! ## Timestamps -/

/-- The second after the last of a minute has the nanoseconds from `10 ^ 9` on. -/
def Timestamp.inLeapSecond (ts : Timestamp) : Bool := decide (1000000000 ≤ ts.nanos.toNat)

theorem toInt_of_nanosOpt {ts : Timestamp} {nanos : Int64} (h : ts.nanosOpt = some nanos) :
    nanos.toInt = ts.secs.toInt * 1000000000 + ts.nanos.toNat := by
  unfold Timestamp.nanosOpt at h
  dsimp only at h
  split_ifs at h with hrange
  rw [← some_inj.mp h]
  exact Int64.toInt_ofInt_of_le hrange.1 (lt_add_one_of_le hrange.2)

theorem seconds_and_nanos (s : Int) {f : Nat} (h : ¬ 1000000000 ≤ f) :
    (s * 1000000000 + f) / 1000000000 = s ∧ ((s * 1000000000 + f) % 1000000000).toNat = f := by
  omega

theorem fromNanos_eq_iff {ts : Timestamp} {nanos : Int64} (h : ts.nanosOpt = some nanos) :
    Timestamp.fromNanos nanos = ts ↔ ts.inLeapSecond = false := by
  have hnanos := toInt_of_nanosOpt h
  have hpos : (0 : Int) ≤ 1000000000 := by decide
  unfold Timestamp.fromNanos Timestamp.inLeapSecond
  rw [fdiv_eq_ediv_of_nonneg _ hpos, fmod_eq_emod_of_nonneg _ hpos, hnanos, decide_eq_false_iff_not]
  constructor
  · intro heq hleap
    -- what is read back has less than a second of nanoseconds
    have hsub := congrArg (fun ts => ts.nanos.toNat) heq
    have hlt : ((ts.secs.toInt * 1000000000 + ts.nanos.toNat) % 1000000000).toNat < 1000000000 := by
      omega
    dsimp only at hsub
    rw [UInt32.toNat_ofNat_of_lt' (lt_trans hlt (by decide))] at hsub
    omega
  · intro hleap
    have hparts := seconds_and_nanos ts.secs.toInt hleap
    rw [hparts.1, hparts.2, Int64.ofInt_toInt, UInt32.ofNat_toNat]

theorem compare_nanos {a b : Timestamp} {n m : Int64} (ha : a.nanosOpt = some n) (hb : b.nanosOpt = some m)
    (hleap : a.inLeapSecond = false) (hleap' : b.inLeapSecond = false) :
    Value.compareInts [a.secs.toInt, a.nanos.toNat] [b.secs.toInt, b.nanos.toNat] =
      compare n.toInt m.toInt := by
  have hn := toInt_of_nanosOpt ha
  have hm := toInt_of_nanosOpt hb
  have hsub := of_decide_eq_false hleap
  have hsub' := of_decide_eq_false hleap'
  unfold Value.compareInts
  rw [List.compare_cons_cons, List.compare_cons_cons, hn, hm]
  show (compare a.secs.toInt b.secs.toInt).then ((compare (a.nanos.toNat : Int) b.nanos.toNat).then .eq) = _
  rw [Ordering.then_eq]
  rcases lt_trichotomy a.secs.toInt b.secs.toInt with h | h | h
  · rw [compare_lt_iff_lt.mpr h]
    exact (compare_lt_iff_lt.mpr (by omega)).symm
  · rw [compare_eq_iff_eq.mpr h]
    exact compare_congr (by omega) (by omega)
  · rw [compare_gt_iff_gt.mpr h]
    exact (compare_gt_iff_gt.mpr (by omega)).symm

/-- The kinds that are kept in order, a timestamp if its nanoseconds since 1970 have 64 bits. -/
def Value.isKeyed : Value → Bool
  | .null | .boolean _ | .tinyInt _ | .smallInt _ | .integer _ | .bigInt _ => true
  | .string _ | .bytes _ | .date _ | .uuid _ => true
  | .timestamp ts => ts.nanosOpt.isSome
  | _ => false

def Value.inLeapSecond : Value → Bool
  | .timestamp ts => ts.inLeapSecond
  | _ => false

structure Value.InColumn (v w : Value) : Prop where
  left : v.isKeyed = true
  right : w.isKeyed = true
  kind : v.kind = w.kind ∨ v.isNull = true ∨ w.isNull = true

section

variable {v : Value}

theorem Value.eq_null (h : v.isNull = true) : v = .null := by
  cases v <;> first | rfl | cases h

theorem nanosOpt_fromNanos (nanos : Int64) : (Timestamp.fromNanos nanos).nanosOpt = some nanos := by
  have hpos : (0 : Int) ≤ 1000000000 := by decide
  have hlt := Int64.toInt_lt nanos
  have hge := Int64.le_toInt nanos
  unfold Timestamp.fromNanos Timestamp.nanosOpt
  rw [fdiv_eq_ediv_of_nonneg _ hpos, fmod_eq_emod_of_nonneg _ hpos]
  have hsecs : (Int64.ofInt (nanos.toInt / 1000000000)).toInt = nanos.toInt / 1000000000 :=
    Int64.toInt_ofInt_of_le (by omega) (by omega)
  have hsub : (nanos.toInt % 1000000000).toNat < 1000000000 := by omega
  dsimp only
  rw [hsecs, UInt32.toNat_ofNat_of_lt' (lt_trans hsub (by decide))]
  have hsum : nanos.toInt / 1000000000 * 1000000000 + ((nanos.toInt % 1000000000).toNat : Int) =
      nanos.toInt := by
    omega
  rw [hsum, if_pos ⟨by omega, by omega⟩, Int64.ofInt_toInt]

variable [Crates]

theorem compares_null (v : Value) (hv : v.isNull = false) :
    Compares (encodeMemcomparableValue .null) (encodeMemcomparableValue v) .lt := by
  cases v with
  | null => cases hv
  | _ => exact compares_of_lt (by decide) _ _

variable [Arithmetic]

theorem partialCmp_null (hv : v.isNull = false) : Value.partialCmp .null v = some .lt := by
  cases v with
  | null => cases hv
  | _ => simp only [Value.partialCmp]

theorem partialCmp_to_null (hv : v.isNull = false) : Value.partialCmp v .null = some .gt := by
  cases v with
  | null => cases hv
  | _ => simp only [Value.partialCmp]

theorem compares_of_kind {v w : Value} (hv : v.isKeyed = true) (hw : w.isKeyed = true)
    (hkind : v.kind = w.kind) (hleap : v.inLeapSecond = false) (hleap' : w.inLeapSecond = false) :
    ∃ o, v.partialCmp w = some o ∧
      Compares (encodeMemcomparableValue v) (encodeMemcomparableValue w) o := by
  cases v <;> cases w <;> try cases hkind
  case null.null => exact ⟨.eq, by simp only [Value.partialCmp], compares_self _⟩
  case boolean.boolean a b =>
    refine ⟨compare a b, by simp only [Value.partialCmp], compares_cons_self _ ?_⟩
    cases a <;> cases b <;> exact compares_of_length rfl
  case tinyInt.tinyInt a b =>
    exact ⟨compare a.toInt b.toInt, by simp only [Value.partialCmp], compares_cons_self _ (compares_int8 a b)⟩
  case smallInt.smallInt a b =>
    exact ⟨compare a.toInt b.toInt, by simp only [Value.partialCmp],
      compares_cons_self _ (compares_int16 a b)⟩
  case integer.integer a b =>
    exact ⟨compare a.toInt b.toInt, by simp only [Value.partialCmp],
      compares_cons_self _ (compares_int32 a b)⟩
  case bigInt.bigInt a b =>
    exact ⟨compare a.toInt b.toInt, by simp only [Value.partialCmp],
      compares_cons_self _ (compares_int64 a b)⟩
  case string.string a b =>
    refine ⟨compare a b, by simp only [Value.partialCmp], compares_cons_self _ ?_⟩
    rw [← compare_utf8_bytes]
    exact compares_escape _ _
  case bytes.bytes a b =>
    exact ⟨compare a b, by simp only [Value.partialCmp], compares_cons_self _ (compares_escape a b)⟩
  case date.date a b =>
    exact ⟨compare a.numDays.toInt b.numDays.toInt, by simp only [Value.partialCmp],
      compares_cons_self _ (compares_int32 a.numDays b.numDays)⟩
  case timestamp.timestamp a b =>
    obtain ⟨n, hn⟩ := isSome_iff_exists.mp hv
    obtain ⟨m, hm⟩ := isSome_iff_exists.mp hw
    refine ⟨compare n.toInt m.toInt, ?_, ?_⟩
    · simp only [Value.partialCmp]
      rw [compare_nanos hn hm hleap hleap']
    · simp only [encodeMemcomparableValue]
      rw [hn, hm, getD_some, getD_some]
      exact compares_cons_self _ (compares_int64 n m)
  case uuid.uuid a b =>
    exact ⟨compare a.bits.toNat b.bits.toNat, by simp only [Value.partialCmp],
      compares_cons_self _ (compares_beBytes a.bits.isLt b.bits.isLt)⟩
  all_goals cases hv

theorem Value.InColumn.compares {v w : Value} (h : v.InColumn w) (hleap : v.inLeapSecond = false)
    (hleap' : w.inLeapSecond = false) : ∃ o, v.partialCmp w = some o ∧
      Compares (encodeMemcomparableValue v) (encodeMemcomparableValue w) o := by
  by_cases hkind : v.kind = w.kind
  · exact compares_of_kind h.left h.right hkind hleap hleap'
  · rcases h.kind with heq | hnull | hnull
    · exact absurd heq hkind
    · rw [Value.eq_null hnull] at hkind ⊢
      have hw : w.isNull = false := by
        apply Bool.eq_false_of_not_eq_true
        intro hw
        exact hkind (by rw [Value.eq_null hw])
      exact ⟨.lt, partialCmp_null hw, compares_null w hw⟩
    · rw [Value.eq_null hnull] at hkind ⊢
      have hv : v.isNull = false := by
        apply Bool.eq_false_of_not_eq_true
        intro hv
        exact hkind (by rw [Value.eq_null hv])
      exact ⟨.gt, partialCmp_to_null hv, (compares_null v hv).swap⟩

abbrev InColumns : List Value → List Value → Prop := List.Forall₂ Value.InColumn

def noLeapSecond (vals : List Value) : Bool := vals.all fun v => !v.inLeapSecond

variable {vals vals' : List Value}

theorem InColumns.compares (h : InColumns vals vals')
    (hleap : noLeapSecond vals = true) (hleap' : noLeapSecond vals' = true) :
    ∃ o, Value.partialCmpAll vals vals' = some o ∧
      Compares (vals.flatMap encodeMemcomparableValue) (vals'.flatMap encodeMemcomparableValue) o := by
  induction h with
  | nil => exact ⟨.eq, by simp only [Value.partialCmpAll], compares_nil⟩
  | cons hvw _ ih =>
    simp only [noLeapSecond, all_cons, Bool.and_eq_true, Bool.not_eq_true'] at hleap hleap' ih
    obtain ⟨o, ho, hhead⟩ := hvw.compares hleap.1 hleap'.1
    obtain ⟨o', ho', htail⟩ := ih hleap.2 hleap'.2
    refine ⟨o.then o', ?_, ?_⟩
    · rw [Value.partialCmpAll, ho]
      cases o with
      | lt => rfl
      | eq => exact ho'
      | gt => rfl
    · rw [flatMap_cons, flatMap_cons]
      exact hhead.append htail

def compareEntries (vals : List Value) (rowId : UInt64) (vals' : List Value) (rowId' : UInt64) :
    Option Ordering :=
  (Value.partialCmpAll vals vals').map fun o => o.then (compare rowId.toNat rowId'.toNat)

/-- Two keys compare as the entries, are one for one entry alone and are read back. -/
structure KeysFaithful (vals : List Value) (rowId : UInt64) (vals' : List Value) (rowId' : UInt64) :
    Prop where
  order : some (compare (encodeCompositeIndexKey vals rowId) (encodeCompositeIndexKey vals' rowId')) =
    compareEntries vals rowId vals' rowId'
  injective : encodeCompositeIndexKey vals rowId = encodeCompositeIndexKey vals' rowId' →
    vals = vals' ∧ rowId = rowId'
  decode : decodeCompositeIndexKey (encodeCompositeIndexKey vals rowId) = some (vals, rowId)
  decode' : decodeCompositeIndexKey (encodeCompositeIndexKey vals' rowId') = some (vals', rowId')

theorem compare_encodeCompositeIndexKey (h : InColumns vals vals')
    (hleap : noLeapSecond vals = true) (hleap' : noLeapSecond vals' = true) (rowId rowId' : UInt64) :
    some (compare (encodeCompositeIndexKey vals rowId) (encodeCompositeIndexKey vals' rowId')) =
      compareEntries vals rowId vals' rowId' := by
  obtain ⟨o, ho, hvals⟩ := h.compares hleap hleap'
  have hrow : Compares (beBytes 8 rowId.toNat) (beBytes 8 rowId'.toNat) (compare rowId.toNat rowId'.toNat) :=
    compares_beBytes (UInt64.toNat_lt rowId) (UInt64.toNat_lt rowId')
  have hkey := hvals.append (compares_cons_self 0x00 hrow)
  unfold encodeCompositeIndexKey encodeIndexPrefix compareEntries
  rw [append_assoc, append_assoc, ho, map_some]
  exact congrArg some hkey.compare_eq

/-- The value that is read back: a timestamp within a leap second comes back in the next second. -/
def Value.settled : Value → Value
  | .timestamp ts => .timestamp ((ts.nanosOpt.map Timestamp.fromNanos).getD ts)
  | v => v

omit [Arithmetic] in
theorem encode_settled (hv : v.isKeyed = true) :
    encodeMemcomparableValue v.settled = encodeMemcomparableValue v := by
  cases v with
  | timestamp ts =>
    obtain ⟨nanos, hnanos⟩ := isSome_iff_exists.mp hv
    simp only [Value.settled, encodeMemcomparableValue]
    rw [hnanos, map_some, getD_some, nanosOpt_fromNanos]
  | _ => rfl

omit [Arithmetic] in
theorem exact_settled (hv : v.isKeyed = true) :
    v.settled.exact = true ∧ v.settled.eq v.settled = true := by
  cases v with
  | timestamp ts =>
    obtain ⟨nanos, hnanos⟩ := isSome_iff_exists.mp hv
    simp only [Value.settled, Value.exact, Value.eq]
    rw [hnanos, map_some, getD_some, nanosOpt_fromNanos, map_some]
    exact ⟨beq_self_eq_true _, beq_self_eq_true _⟩
  | null => exact ⟨rfl, by simp only [Value.settled, Value.eq]⟩
  | boolean _ | tinyInt _ | smallInt _ | integer _ | bigInt _ | string _ | bytes _ | date _ | uuid _ =>
    refine ⟨rfl, ?_⟩
    simp only [Value.settled, Value.eq]
    exact beq_self_eq_true _
  | _ => cases hv

omit [Crates] [Arithmetic] in
theorem settled_eq_iff (hv : v.isKeyed = true) : v.settled = v ↔ v.inLeapSecond = false := by
  cases v with
  | timestamp ts =>
    obtain ⟨nanos, hnanos⟩ := isSome_iff_exists.mp hv
    simp only [Value.settled, Value.inLeapSecond, Value.timestamp.injEq]
    rw [hnanos, map_some, getD_some]
    exact fromNanos_eq_iff hnanos
  | _ => exact iff_of_true rfl rfl

omit [Arithmetic] in
theorem decode_settled {vals : List Value} (h : ∀ v ∈ vals, v.isKeyed = true) (rowId : UInt64) :
    decodeCompositeIndexKey (encodeCompositeIndexKey vals rowId) = some (vals.map Value.settled, rowId) := by
  have himage : (vals.map Value.settled).flatMap encodeMemcomparableValue =
      vals.flatMap encodeMemcomparableValue := by
    rw [flatMap_map]
    exact flatMap_congr fun v hv => encode_settled (h v hv)
  have hkey : encodeCompositeIndexKey vals rowId =
      encodeCompositeIndexKey (vals.map Value.settled) rowId := by
    unfold encodeCompositeIndexKey encodeIndexPrefix
    rw [himage]
  rw [hkey]
  apply decode_encodeCompositeIndexKey
  intro v hv
  obtain ⟨w, hw, rfl⟩ := mem_map.mp hv
  exact exact_settled (h w hw)

omit [Crates] [Arithmetic] in
theorem map_settled_eq_iff (vals : List Value) :
    vals.map Value.settled = vals ↔ ∀ v ∈ vals, v.settled = v := by
  have h := map_inj_left (l := vals) (f := Value.settled) (g := id)
  rwa [map_id] at h

omit [Arithmetic] in
theorem decode_iff {vals : List Value} (h : ∀ v ∈ vals, v.isKeyed = true) (rowId : UInt64) :
    decodeCompositeIndexKey (encodeCompositeIndexKey vals rowId) = some (vals, rowId) ↔
      noLeapSecond vals = true := by
  rw [decode_settled h, noLeapSecond, all_eq_true]
  constructor
  · intro heq v hv
    have hmap : vals.map Value.settled = vals := (Prod.mk.inj (Option.some.inj heq)).1
    rw [(settled_eq_iff (h v hv)).mp ((map_settled_eq_iff vals).mp hmap v hv)]
    rfl
  · intro hleap
    have hmap : vals.map Value.settled = vals := by
      apply (map_settled_eq_iff vals).mpr
      intro v hv
      exact (settled_eq_iff (h v hv)).mpr ((Bool.not_eq_true' _).mp (hleap v hv))
    rw [hmap]

omit [Crates] [Arithmetic] in
theorem InColumns.isKeyed (h : InColumns vals vals') :
    (∀ v ∈ vals, v.isKeyed = true) ∧ ∀ v ∈ vals', v.isKeyed = true := by
  induction h with
  | nil => exact ⟨fun v hv => (not_mem_nil hv).elim, fun v hv => (not_mem_nil hv).elim⟩
  | cons hvw _ ih =>
    exact ⟨forall_mem_cons.mpr ⟨hvw.left, ih.1⟩, forall_mem_cons.mpr ⟨hvw.right, ih.2⟩⟩

/-- Keys of one index are in the order of their entries, tell them apart and are read back, exactly where no
timestamp is in a leap second. -/
theorem keysFaithful_iff {vals vals' : List Value} (h : InColumns vals vals') (rowId rowId' : UInt64) :
    KeysFaithful vals rowId vals' rowId' ↔ noLeapSecond vals = true ∧ noLeapSecond vals' = true := by
  have hdecode := decode_iff h.isKeyed.1 rowId
  have hdecode' := decode_iff h.isKeyed.2 rowId'
  constructor
  · intro hfaithful
    exact ⟨hdecode.mp hfaithful.decode, hdecode'.mp hfaithful.decode'⟩
  · intro hleap
    refine ⟨compare_encodeCompositeIndexKey h hleap.1 hleap.2 rowId rowId', ?_, hdecode.mpr hleap.1,
      hdecode'.mpr hleap.2⟩
    intro hkey
    have hread := hdecode.mpr hleap.1
    rw [hkey, hdecode'.mpr hleap.2] at hread
    exact ⟨(Prod.mk.inj (Option.some.inj hread)).1.symm, (Prod.mk.inj (Option.some.inj hread)).2.symm⟩

end

section

attribute [local instance] plainCrates plainArithmetic

theorem keysFaithful_texts :
    KeysFaithful [.null, .string "a"] 1 [.integer (-1), .string "a\u0000"] 2 := by
  have h : InColumns [.null, .string "a"] [.integer (-1), .string "a\u0000"] :=
    List.Forall₂.cons ⟨rfl, rfl, Or.inr (Or.inl rfl)⟩ (List.Forall₂.cons ⟨rfl, rfl, Or.inl rfl⟩ .nil)
  exact (keysFaithful_iff h 1 2).mpr ⟨rfl, rfl⟩

/-- 1970-01-01 00:00:60 and 00:01:00 have one key. -/
theorem leapSecond_not_faithful :
    InColumns [.timestamp ⟨59, 1000000000⟩] [.timestamp ⟨60, 0⟩] ∧
      encodeCompositeIndexKey [.timestamp ⟨59, 1000000000⟩] 1 =
        encodeCompositeIndexKey [.timestamp ⟨60, 0⟩] 1 ∧
      ¬ KeysFaithful [.timestamp ⟨59, 1000000000⟩] 1 [.timestamp ⟨60, 0⟩] 1 := by
  have hkey : encodeCompositeIndexKey [.timestamp ⟨59, 1000000000⟩] 1 =
      encodeCompositeIndexKey [.timestamp ⟨60, 0⟩] 1 := by
    decide
  refine ⟨List.Forall₂.cons ⟨by decide, by decide, Or.inl rfl⟩ .nil, hkey, ?_⟩
  intro h
  have hvals := (List.cons.inj (h.injective hkey).1).1
  have hsecs : (59 : Int64) = 60 := congrArg Timestamp.secs (Value.timestamp.inj hvals)
  exact absurd hsecs (by decide)

end

end H2Database.Sql
