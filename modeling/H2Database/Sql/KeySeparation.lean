import H2Database.Sql.KeyOrder

/-!
# Which values index keys tell apart

Times, documents, arrays and intervals have one image for all, a decimal has the image of the `DOUBLE` next
to it, and a timestamp out of range the image of 1970.  The other values of a kind have images of their own.
-/

namespace H2Database.Sql

open Reasoning List

/-! ## Equal images -/

theorem beBytes_inj {w m n : Nat} (hm : m < 256 ^ w) (hn : n < 256 ^ w) :
    beBytes w m = beBytes w n ↔ m = n := by
  constructor
  · intro h
    have hread := congrArg fromBe h
    rwa [fromBe_beBytes_of_lt hm, fromBe_beBytes_of_lt hn] at hread
  · intro h
    rw [h]

theorem orderF32_inj (a b : UInt32) : orderF32 a = orderF32 b ↔ a = b := by
  constructor
  · intro h
    rw [← bitsF32_orderF32 a, h, bitsF32_orderF32]
  · intro h
    rw [h]

theorem orderF64_inj (a b : UInt64) : orderF64 a = orderF64 b ↔ a = b := by
  constructor
  · intro h
    rw [← bitsF64_orderF64 a, h, bitsF64_orderF64]
  · intro h
    rw [h]

def Timestamp.instant (ts : Timestamp) : Int := ts.secs.toInt * 1000000000 + ts.nanos.toNat

def Timestamp.InRange (ts : Timestamp) : Prop :=
  -9223372036854775808 ≤ ts.instant ∧ ts.instant ≤ 9223372036854775807

/-- One timestamp is in range, two of them are different instants, and one alone is not 1970. -/
structure Timestamp.Separated (a b : Timestamp) : Prop where
  inRange : a.InRange ∨ b.InRange
  both : a.InRange → b.InRange → a.instant ≠ b.instant
  left : a.InRange → ¬ b.InRange → a.instant ≠ 0
  right : b.InRange → ¬ a.InRange → b.instant ≠ 0

theorem toInt_nanosOpt (ts : Timestamp) :
    ts.InRange ∧ (ts.nanosOpt.getD 0).toInt = ts.instant ∨
      ¬ ts.InRange ∧ (ts.nanosOpt.getD 0).toInt = 0 := by
  by_cases h : ts.InRange
  · have hnanos : ts.nanosOpt = some (Int64.ofInt ts.instant) := if_pos h
    apply Or.inl
    rw [hnanos, Option.getD_some]
    exact ⟨h, toInt_of_nanosOpt hnanos⟩
  · have hnanos : ts.nanosOpt = none := if_neg h
    apply Or.inr
    rw [hnanos]
    exact ⟨h, rfl⟩

theorem Timestamp.separated_iff (a b : Timestamp) :
    a.Separated b ↔ a.nanosOpt.getD 0 ≠ b.nanosOpt.getD 0 := by
  have hne : a.nanosOpt.getD 0 ≠ b.nanosOpt.getD 0 ↔
      (a.nanosOpt.getD 0).toInt ≠ (b.nanosOpt.getD 0).toInt := not_congr Int64.toInt_inj.symm
  rw [hne]
  rcases toInt_nanosOpt a with ⟨ha, hna⟩ | ⟨ha, hna⟩ <;>
    rcases toInt_nanosOpt b with ⟨hb, hnb⟩ | ⟨hb, hnb⟩ <;> rw [hna, hnb]
  · exact ⟨fun h => h.both ha hb,
      fun h => ⟨.inl ha, fun _ _ => h, fun _ h' => absurd hb h', fun _ h' => absurd ha h'⟩⟩
  · exact ⟨fun h => h.left ha hb,
      fun h => ⟨.inl ha, fun _ h' => absurd h' hb, fun _ _ => h, fun h' => absurd h' hb⟩⟩
  · exact ⟨fun h => (h.right hb ha).symm,
      fun h => ⟨.inr hb, fun h' => absurd h' ha, fun h' => absurd h' ha, fun _ _ => h.symm⟩⟩
  · exact ⟨fun h => (h.inRange.elim ha hb).elim, fun h => absurd rfl h⟩

/-! ## Images of one kind -/

section

theorem tagged_inj {tag : UInt8} {m n : Nat} (hm : m < 2 ^ 64) (hn : n < 2 ^ 64) :
    tag :: beBytes 8 m = tag :: beBytes 8 n ↔ m = n := by
  rw [cons_inj_right]
  exact beBytes_inj hm hn

theorem flip64_inj (a b : Int64) :
    (a.toUInt64 ^^^ 0x8000000000000000).toNat = (b.toUInt64 ^^^ 0x8000000000000000).toNat ↔ a = b := by
  constructor
  · intro h
    have hread := congrArg (fun n => (UInt64.ofNat n ^^^ 0x8000000000000000).toInt64) h
    rwa [unflip64, unflip64, Int64.toInt64_toUInt64, Int64.toInt64_toUInt64] at hread
  · intro h
    rw [h]

variable [Crates]

def Value.Different (a b : Value) : Prop := a ≠ b ∧ a.eq b = false

def Value.Separated : Value → Value → Prop
  | .decimal a, .decimal b => (Crates.decimalToF64 a).getD 0 ≠ (Crates.decimalToF64 b).getD 0
  | .timestamp a, .timestamp b => a.Separated b
  | .time _, _ | .json _, _ | .array _, _ | .interval _, _ => False
  | _, _ => True

variable {a b : Value}

theorem exists_compares (hkind : a.kind = b.kind) :
    ∃ o, Compares (encodeMemcomparableValue a) (encodeMemcomparableValue b) o := by
  cases a <;> cases b <;> try cases hkind
  case string.string a b => exact ⟨_, compares_cons_self _ (compares_escape _ _)⟩
  case bytes.bytes a b => exact ⟨_, compares_cons_self _ (compares_escape a b)⟩
  all_goals
    exact ⟨_, compares_of_length (by simp only [encodeMemcomparableValue, length_cons, length_beBytes,
      length_nil])⟩

theorem eq_of_encode (ha : a.isKeyed = true) (hb : b.isKeyed = true)
    (hleap : a.inLeapSecond = false) (hleap' : b.inLeapSecond = false)
    (h : encodeMemcomparableValue a = encodeMemcomparableValue b) : a = b := by
  have hexact := exact_settled ha
  have hexact' := exact_settled hb
  rw [(settled_eq_iff ha).mpr hleap] at hexact
  rw [(settled_eq_iff hb).mpr hleap'] at hexact'
  have hread := decode_encode hexact.1 hexact.2 []
  rw [h, decode_encode hexact'.1 hexact'.2] at hread
  exact (Prod.mk.inj (Option.some.inj hread)).1.symm

theorem encode_ne_iff (hkind : a.kind = b.kind) (h : a.Different b) :
    encodeMemcomparableValue a ≠ encodeMemcomparableValue b ↔ a.Separated b := by
  cases a <;> cases b <;> try cases hkind
  case decimal.decimal a b =>
    simp only [encodeMemcomparableValue, Value.Separated]
    rw [ne_eq, tagged_inj (UInt64.toNat_lt _) (UInt64.toNat_lt _), UInt64.toNat_inj, orderF64_inj]
  case timestamp.timestamp a b =>
    simp only [encodeMemcomparableValue, Value.Separated]
    rw [ne_eq, tagged_inj (UInt64.toNat_lt _) (UInt64.toNat_lt _), flip64_inj, Timestamp.separated_iff]
  case float.float a b =>
    refine iff_of_true ?_ trivial
    intro heq
    have hbytes := (List.cons.inj heq).2
    rw [beBytes_inj (UInt32.toNat_lt _) (UInt32.toNat_lt _), UInt32.toNat_inj, orderF32_inj] at hbytes
    exact h.1 (congrArg Value.float hbytes)
  case double.double a b =>
    refine iff_of_true ?_ trivial
    intro heq
    have hbytes := (List.cons.inj heq).2
    rw [beBytes_inj (UInt64.toNat_lt _) (UInt64.toNat_lt _), UInt64.toNat_inj, orderF64_inj] at hbytes
    exact h.1 (congrArg Value.double hbytes)
  case time.time | json.json | array.array | interval.interval => exact iff_of_false (fun hne => hne rfl) id
  all_goals exact iff_of_true (fun heq => h.1 (eq_of_encode rfl rfl rfl rfl heq)) trivial

/-! ## Lookups -/

theorem encodeIndexPrefix_single (a : Value) :
    encodeIndexPrefix [a] = encodeMemcomparableValue a ++ [0x00] := by
  rw [encodeIndexPrefix, flatMap_singleton]

theorem prefix_iff (hkind : a.kind = b.kind) (rowId : UInt64) :
    encodeIndexPrefix [a] <+: encodeCompositeIndexKey [b] rowId ↔
      encodeMemcomparableValue a = encodeMemcomparableValue b := by
  obtain ⟨o, ho⟩ := exists_compares hkind
  unfold encodeCompositeIndexKey
  rw [encodeIndexPrefix_single, encodeIndexPrefix_single]
  constructor
  · intro h
    obtain ⟨rest, hrest⟩ := h
    rw [append_assoc, append_assoc] at hrest
    exact ho.eq_of_append hrest
  · intro h
    rw [h]
    exact prefix_append _ _

/-- Two different values of one kind have different prefixes, and a lookup for one never meets an entry of
the other, exactly where the condition says. -/
theorem indexPrefix_separates_iff {a b : Value} (hkind : a.kind = b.kind) (h : a.Different b) :
    encodeIndexPrefix [a] ≠ encodeIndexPrefix [b] ∧
        (∀ rowId, ¬ encodeIndexPrefix [a] <+: encodeCompositeIndexKey [b] rowId) ↔ a.Separated b := by
  rw [← encode_ne_iff hkind h]
  constructor
  · intro hlookup heq
    exact hlookup.2 0 ((prefix_iff hkind 0).mpr heq)
  · intro hne
    constructor
    · intro heq
      rw [encodeIndexPrefix_single, encodeIndexPrefix_single] at heq
      exact hne (append_cancel_right heq)
    · intro rowId hprefix
      exact hne ((prefix_iff hkind rowId).mp hprefix)

end

section

attribute [local instance] plainCrates

theorem indexPrefix_separates_texts :
    encodeIndexPrefix [.string "a"] ≠ encodeIndexPrefix [.string "b"] ∧
      ∀ rowId, ¬ encodeIndexPrefix [.string "a"] <+: encodeCompositeIndexKey [.string "b"] rowId := by
  have h : Value.Different (.string "a") (.string "b") := by
    have heq : Value.eq (.string "a") (.string "b") = false := by decide
    exact ⟨fun hab => absurd (Value.string.inj hab) (by decide), heq⟩
  have hkind : Value.kind (.string "a") = Value.kind (.string "b") := rfl
  exact (indexPrefix_separates_iff hkind h).mpr trivial

/-- Midnight and one second later. -/
theorem times_not_separated :
    Value.Different (.time ⟨0, 0⟩) (.time ⟨1, 0⟩) ∧
      encodeIndexPrefix [.time ⟨0, 0⟩] = encodeIndexPrefix [.time ⟨1, 0⟩] ∧
      encodeIndexPrefix [.time ⟨0, 0⟩] <+: encodeCompositeIndexKey [.time ⟨1, 0⟩] 7 := by
  have hne : (0 : UInt32) ≠ 1 := by decide
  refine ⟨⟨fun h => hne (congrArg NaiveTime.secs (Value.time.inj h)), by decide⟩, rfl, ?_⟩
  exact prefix_append _ _

end

end H2Database.Sql
