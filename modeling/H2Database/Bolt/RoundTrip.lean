import H2Database.Bolt.Decoding

/-!
# What is encoded is read back, if it holds no bytes

`decode` has a marker for each size class of every kind of value but one: the markers `0xCC`, `0xCD` and
`0xCE`, which `encode_bytes` writes, are unknown to it.
-/

namespace H2Database.Bolt.PackValue

open Reasoning Sql List Nat

/-! What is read is taken to fit in memory. -/

attribute [local instance] unlimited

variable {level : Nat}

/-! ## Sizes -/

variable {len : Nat}

theorem toNat_tiny {tiny : UInt8} (htiny : tiny ∈ [0x80, 0x90, 0xA0, 0xB0]) (hlen : len ≤ 15) :
    (tiny ||| UInt8.ofNat len).toNat = tiny.toNat + len := by
  have hall : ∀ tiny ∈ [(0x80 : UInt8), 0x90, 0xA0, 0xB0], ∀ len < 16,
      (tiny ||| UInt8.ofNat len).toNat = tiny.toNat + len := by decide +kernel
  exact hall tiny htiny len (by omega)

theorem and_tiny {t : Nat} (ht : t ∈ [0x80, 0x90, 0xA0, 0xB0]) (hlen : len ≤ 15) :
    (t + len) &&& 0x0F = len := by
  have hall : ∀ t ∈ [0x80, 0x90, 0xA0, 0xB0], ∀ len < 16, (t + len) &&& 0x0F = len := by decide
  exact hall t ht len (by omega)

section

variable (content : List UInt8 → Nat → Nat → PackRead (PackValue × Nat))

/-- What `decode` does behind the marker of a size class of `w` bytes. -/
def sizedContent (w : Nat) (truncated : String) (buf : List UInt8) : PackRead (PackValue × Nat) := do
  let n ← numberAt buf w truncated
  let rest ← restFrom buf (w + 1)
  content rest.1 n (w + 1)

theorem sizedContent_beBytes (m : UInt8) {w n : Nat} (h : n < 256 ^ w) (tail : List UInt8)
    (truncated : String) :
    sizedContent content w truncated (m :: (beBytes w n ++ tail)) = content tail n (w + 1) := by
  have hle : w + 1 ≤ (m :: (beBytes w n ++ tail)).length := by
    rw [length_cons, length_append, length_beBytes]
    omega
  have hrest := restFrom_bind hle fun rest => content rest n (w + 1)
  rw [drop_succ_cons, drop_left' (length_beBytes w n)] at hrest
  rw [sizedContent, numberAt_beBytes m h, pure_bind]
  exact hrest

theorem sizedContent_byte (m : UInt8) {n : Nat} (h : n ≤ 255) (tail : List UInt8) (truncated : String) :
    sizedContent content 1 truncated (m :: UInt8.ofNat n :: tail) = content tail n 2 :=
  sizedContent_beBytes content m (w := 1) (lt_succ_of_le h) tail truncated

/-- The arms of `decode` for a kind of value: the tiny markers and one marker for each size class. -/
structure SizeClasses (level : Nat) (tiny m8 m16 m32 : UInt8) : Prop where
  tiny : ∀ (m : UInt8) (len : Nat), len ≤ 15 → m.toNat = tiny.toNat + len →
    ∀ tail, decode level (m :: tail) = content tail len 1
  sized8 : ∃ truncated, ∀ tail, decode level (m8 :: tail) = sizedContent content 1 truncated (m8 :: tail)
  sized16 : ∃ truncated, ∀ tail, decode level (m16 :: tail) = sizedContent content 2 truncated (m16 :: tail)
  sized32 : ∃ truncated, ∀ tail, decode level (m32 :: tail) = sizedContent content 4 truncated (m32 :: tail)

variable {content} in
theorem decode_sizeMarker {tiny m8 m16 m32 : UInt8} (h : SizeClasses content level tiny m8 m16 m32)
    (htiny : tiny ∈ [0x80, 0x90, 0xA0, 0xB0]) (hlen : len < 2 ^ 32) (tail : List UInt8) :
    decode level (sizeMarker tiny m8 m16 m32 len ++ tail) =
      content tail len (sizeMarker tiny m8 m16 m32 len).length := by
  unfold sizeMarker
  split
  next h15 => exact h.tiny _ len h15 (toNat_tiny htiny h15) tail
  next =>
    split
    next h8 =>
      obtain ⟨truncated, heq⟩ := h.sized8
      rw [cons_append, heq]
      exact sizedContent_byte content m8 h8 tail truncated
    next =>
      split
      next h16 =>
        obtain ⟨truncated, heq⟩ := h.sized16
        rw [cons_append, heq, sizedContent_beBytes content m16 (by omega)]
        rfl
      next =>
        obtain ⟨truncated, heq⟩ := h.sized32
        rw [cons_append, heq, sizedContent_beBytes content m32 (by omega)]
        rfl

end

variable (content : List UInt8 → Nat → Nat → PackRead (PackValue × Nat)) in
theorem tinyContent (m : UInt8) (tail : List UInt8) {t : Nat} (ht : t ∈ [0x80, 0x90, 0xA0, 0xB0])
    (hlen : len ≤ 15) :
    (do let rest ← restFrom (m :: tail) 1; content rest.1 ((t + len) &&& 0x0F) 1) = content tail len 1 := by
  rw [and_tiny ht hlen]
  exact restFrom_bind (succ_le_succ (zero_le _)) fun rest => content rest len 1

theorem string_sizes : SizeClasses decodeStringContent level 0x80 0xD0 0xD1 0xD2 where
  tiny m len hlen hm tail := by
    have hmarker : m.toNat = 0x80 + len := hm
    rw [decode, entered_bind rfl, hmarker]
    simp (disch := omega) only [if_neg, if_pos]
    exact tinyContent _ m tail (t := 0x80) (by decide) hlen
  sized8 := ⟨_, fun tail => by rw [decode, entered_bind rfl]; rfl⟩
  sized16 := ⟨_, fun tail => by rw [decode, entered_bind rfl]; rfl⟩
  sized32 := ⟨_, fun tail => by rw [decode, entered_bind rfl]; rfl⟩

theorem list_sizes : SizeClasses (decodeListContent level) level 0x90 0xD4 0xD5 0xD6 where
  tiny m len hlen hm tail := by
    have hmarker : m.toNat = 0x90 + len := hm
    rw [decode, entered_bind rfl, hmarker]
    simp (disch := omega) only [if_neg, if_pos]
    exact tinyContent _ m tail (t := 0x90) (by decide) hlen
  sized8 := ⟨_, fun tail => by rw [decode, entered_bind rfl]; rfl⟩
  sized16 := ⟨_, fun tail => by rw [decode, entered_bind rfl]; rfl⟩
  sized32 := ⟨_, fun tail => by rw [decode, entered_bind rfl]; rfl⟩

theorem map_sizes : SizeClasses (decodeMapContent level) level 0xA0 0xD8 0xD9 0xDA where
  tiny m len hlen hm tail := by
    have hmarker : m.toNat = 0xA0 + len := hm
    rw [decode, entered_bind rfl, hmarker]
    simp (disch := omega) only [if_neg, if_pos]
    exact tinyContent _ m tail (t := 0xA0) (by decide) hlen
  sized8 := ⟨_, fun tail => by rw [decode, entered_bind rfl]; rfl⟩
  sized16 := ⟨_, fun tail => by rw [decode, entered_bind rfl]; rfl⟩
  sized32 := ⟨_, fun tail => by rw [decode, entered_bind rfl]; rfl⟩

theorem decode_structMarker (hlen : len < 2 ^ 16) (tail : List UInt8) :
    decode level (structMarker len ++ tail) = decodeStructContent level tail len
      (structMarker len).length := by
  unfold structMarker
  split
  next h15 =>
    have hmarker : (0xB0 ||| UInt8.ofNat len).toNat = 0xB0 + len := toNat_tiny (by decide) h15
    generalize 0xB0 ||| UInt8.ofNat len = m at hmarker ⊢
    rw [singleton_append, decode, entered_bind rfl, hmarker]
    simp (disch := omega) only [if_neg, if_pos]
    exact tinyContent _ m tail (t := 0xB0) (by decide) h15
  next =>
    split
    next h8 =>
      rw [cons_append, decode, entered_bind rfl]
      exact sizedContent_byte (decodeStructContent level) 0xDC h8 tail "Truncated Struct8"
    next =>
      rw [cons_append, decode, entered_bind rfl]
      exact sizedContent_beBytes (decodeStructContent level) 0xDD (by omega) tail "Truncated Struct16"

/-! ## Integers and texts -/

theorem toNat_toUInt8 (i : Int8) :
    (i.toUInt8.toNat : Int) = if 0 ≤ i.toInt then i.toInt else i.toInt + 256 := by
  have h : i.toInt = if 2 * i.toUInt8.toNat < 256 then (i.toUInt8.toNat : Int) else i.toUInt8.toNat - 256 :=
    BitVec.toInt_eq_toNat_cond _
  have hlt := i.toUInt8.toNat_lt
  split at h <;> split <;> omega

variable {i : Int64}

theorem toInt64_toInt8 (h : -128 ≤ i.toInt ∧ i.toInt ≤ 127) : i.toInt8.toInt64 = i := by
  rw [← Int64.toInt_inj, Int8.toInt_toInt64, Int64.toInt_toInt8, Int.bmod_eq_of_le (by omega) (by omega)]

theorem toInt64_toInt16 (h : -32768 ≤ i.toInt ∧ i.toInt ≤ 32767) : i.toInt16.toInt64 = i := by
  rw [← Int64.toInt_inj, Int16.toInt_toInt64, Int64.toInt_toInt16, Int.bmod_eq_of_le (by omega) (by omega)]

theorem toInt64_toInt32 (h : -2147483648 ≤ i.toInt ∧ i.toInt ≤ 2147483647) :
    i.toInt32.toInt64 = i := by
  rw [← Int64.toInt_inj, Int32.toInt_toInt64, Int64.toInt_toInt32, Int.bmod_eq_of_le (by omega) (by omega)]

theorem decode_tinyInteger (h : -16 ≤ i.toInt ∧ i.toInt ≤ 127) (tail : List UInt8) :
    decode level (i.toInt8.toUInt8 :: tail) = pure (.integer i, 1) := by
  have hi8 : i.toInt8.toInt = i.toInt := by
    rw [Int64.toInt_toInt8, Int.bmod_eq_of_le (by omega) (by omega)]
  have hbyte := toNat_toUInt8 i.toInt8
  rw [hi8] at hbyte
  rw [decode, entered_bind rfl]
  by_cases hneg : 0 ≤ i.toInt
  · rw [if_pos hneg] at hbyte
    simp (disch := omega) only [if_neg, if_pos]
    have hnat : (Int64.ofNat i.toInt8.toUInt8.toNat).toInt = i.toInt := by
      rw [Int64.toInt_ofNat_of_lt (by omega), hbyte]
    rw [Int64.toInt_inj.mp hnat]
  · rw [if_neg hneg] at hbyte
    simp (disch := omega) only [if_neg, if_pos]
    rw [UInt8.ofNat_toNat, Int8.toInt8_toUInt8, toInt64_toInt8 (by omega)]

theorem decode_encodeInteger (i : Int64) (tail : List UInt8) :
    decode level (encodeInteger i ++ tail) = pure (.integer i, (encodeInteger i).length) := by
  unfold encodeInteger
  split
  next htiny => exact decode_tinyInteger htiny tail
  next =>
    split
    next h8 =>
      have hv : PackValue.integer (UInt8.ofNat i.toInt8.toUInt8.toNat).toInt8.toInt64 = .integer i := by
        rw [UInt8.ofNat_toNat, Int8.toInt8_toUInt8, toInt64_toInt8 h8]
      have hbytes : beBytes 1 i.toInt8.toUInt8.toNat = [i.toInt8.toUInt8] :=
        congrArg (fun b => [b]) UInt8.ofNat_toNat
      have hread := number_beBytes 0xC8 (w := 1) (UInt8.toNat_lt _) tail "Truncated Int8"
        (f := fun n => .integer (UInt8.ofNat n).toInt8.toInt64) hv
      rw [hbytes] at hread
      rw [cons_append, decode, entered_bind rfl]
      exact hread
    next =>
      split
      next h16 =>
        have hv : PackValue.integer (UInt16.ofNat i.toInt16.toUInt16.toNat).toInt16.toInt64 = .integer i := by
          rw [UInt16.ofNat_toNat, Int16.toInt16_toUInt16, toInt64_toInt16 h16]
        rw [cons_append, decode, entered_bind rfl]
        exact number_beBytes 0xC9 (UInt16.toNat_lt _) tail "Truncated Int16"
          (f := fun n => .integer (UInt16.ofNat n).toInt16.toInt64) hv
      next =>
        split
        next h32 =>
          have hv : PackValue.integer (UInt32.ofNat i.toInt32.toUInt32.toNat).toInt32.toInt64 =
              .integer i := by
            rw [UInt32.ofNat_toNat, Int32.toInt32_toUInt32, toInt64_toInt32 h32]
          rw [cons_append, decode, entered_bind rfl]
          exact number_beBytes 0xCA (UInt32.toNat_lt _) tail "Truncated Int32"
            (f := fun n => .integer (UInt32.ofNat n).toInt32.toInt64) hv
        next =>
          have hv : PackValue.integer (UInt64.ofNat i.toUInt64.toNat).toInt64 = .integer i := by
            rw [UInt64.ofNat_toNat, Int64.toInt64_toUInt64]
          rw [cons_append, decode, entered_bind rfl]
          exact number_beBytes 0xCB (UInt64.toNat_lt _) tail "Truncated Int64"
            (f := fun n => .integer (UInt64.ofNat n).toInt64) hv

theorem decode_encodeString {s : String} (h : (utf8 s).length < 2 ^ 32) (tail : List UInt8) :
    decode level (encodeString s ++ tail) = pure (.string s, (encodeString s).length) := by
  have hslice : slice (utf8 s ++ tail) 0 (utf8 s).length = .ok (utf8 s) := by
    rw [slice_of_le (zero_le _) (by rw [length_append]; omega), take_left, drop_zero]
  unfold encodeString
  rw [append_assoc, decode_sizeMarker string_sizes (by decide) h, decodeStringContent, hslice,
    if_neg (by rw [length_append]; omega)]
  apply Eq.trans (pure_bind (utf8 s) _)
  rw [fromUtf8_utf8, length_append]

section

mutual

/-- The first byte string in a value, in the order in which it is encoded. -/
def firstBytes : PackValue → Option (List UInt8)
  | .bytes b => some b
  | .list items => firstBytesItems items
  | .map entries => firstBytesEntries entries
  | .struct _ fields => firstBytesItems fields
  | _ => none

def firstBytesItems : List PackValue → Option (List UInt8)
  | [] => none
  | item :: items => (firstBytes item).or (firstBytesItems items)

def firstBytesEntries : List (String × PackValue) → Option (List UInt8)
  | [] => none
  | (_, v) :: entries => (firstBytes v).or (firstBytesEntries entries)

end

mutual

/-- Lengths below `2 ^ 32`, fewer than `2 ^ 16` fields, and as in any map no key twice. -/
def Fits : PackValue → Prop
  | .string s => (utf8 s).length < 2 ^ 32
  | .bytes b => b.length < 2 ^ 32
  | .list items => items.length < 2 ^ 32 ∧ FitItems items
  | .map entries => entries.length < 2 ^ 32 ∧ (entries.map Prod.fst).Nodup ∧ FitEntries entries
  | .struct _ fields => fields.length < 2 ^ 16 ∧ FitItems fields
  | _ => True

def FitItems : List PackValue → Prop
  | [] => True
  | item :: items => item.Fits ∧ FitItems items

def FitEntries : List (String × PackValue) → Prop
  | [] => True
  | (key, v) :: entries => (utf8 key).length < 2 ^ 32 ∧ v.Fits ∧ FitEntries entries

end

end

/-- The marker that `encode_bytes` writes. -/
def bytesMarker (b : List UInt8) : Nat :=
  if b.length ≤ 255 then 0xCC else if b.length ≤ 65535 then 0xCD else 0xCE

def unlessBytes {α : Type} (first : Option (List UInt8)) (a : α) : PackRead α :=
  match first with
  | none => pure a
  | some b => throw (.execution s!"Unknown PackStream marker: {hexText (bytesMarker b)}")

theorem unlessBytes_bind {α β : Type} (first second : Option (List UInt8)) (a : α) (b : β)
    {f : α → PackRead β} (h : f a = unlessBytes second b) :
    unlessBytes first a >>= f = unlessBytes (first.or second) b := by
  cases first with
  | none => exact h
  | some bytes => rfl

theorem unlessBytes_bind_pure {α β : Type} (first : Option (List UInt8)) (a : α) (b : β)
    {f : α → PackRead β} (h : f a = pure b) : unlessBytes first a >>= f = unlessBytes first b := by
  cases first with
  | none => exact h
  | some bytes => rfl

theorem decode_encodeBytes (b tail : List UInt8) :
    decode level (encodeBytes b ++ tail) =
      throw (.execution s!"Unknown PackStream marker: {hexText (bytesMarker b)}") := by
  unfold encodeBytes bytesMarker
  split
  · rw [cons_append, decode, entered_bind rfl]
    rfl
  · split
    · rw [cons_append, cons_append, decode, entered_bind rfl]
      rfl
    · rw [cons_append, cons_append, decode, entered_bind rfl]
      rfl

theorem decode_at {α : Type} {front rest : List UInt8} {x : PackRead (PackValue × Nat)}
    (h : decode level rest = x)
    (f : PackValue × Nat → PackRead α) :
    ((restFrom (front ++ rest) front.length : PackRead _) >>= fun tail => decode level tail.1 >>= f) =
      x >>= f := by
  have hle : front.length ≤ (front ++ rest).length := by rw [length_append]; omega
  rw [restFrom_bind hle fun tail => decode level tail >>= f, drop_left, h]

theorem insertEntry_new {entries : List (String × PackValue)} {key : String}
    (h : key ∉ entries.map Prod.fst) (v : PackValue) : insertEntry entries key v = entries ++ [(key, v)] := by
  have hany : (entries.any fun entry => entry.1 == key) = false := by
    rw [any_eq_false]
    intro entry hentry heq
    exact h (mem_map.mpr ⟨entry, hentry, eq_of_beq heq⟩)
  rw [insertEntry, hany]
  rfl

mutual

theorem decode_encode {v : PackValue} (hv : v.Fits) (level : Nat) (tail : List UInt8) :
    decode level (encode v ++ tail) = unlessBytes v.firstBytes (v, (encode v).length) := by
  cases v with
  | null =>
    rw [encode, singleton_append, decode, entered_bind rfl]
    rfl
  | boolean b =>
    cases b with
    | false =>
      rw [encode, singleton_append, decode, entered_bind rfl]
      rfl
    | true =>
      rw [encode, singleton_append, decode, entered_bind rfl]
      rfl
  | integer i =>
    rw [encode]
    exact decode_encodeInteger i tail
  | float f =>
    have hv : PackValue.float (UInt64.ofNat f.toNat) = .float f := by rw [UInt64.ofNat_toNat]
    have hread := number_beBytes 0xC1 (w := 8) (UInt64.toNat_lt f) tail "Truncated float"
      (f := fun n => .float (UInt64.ofNat n)) hv
    rw [encode, cons_append, decode, entered_bind rfl]
    exact hread
  | string s => exact decode_encodeString hv tail
  | bytes b => exact decode_encodeBytes b tail
  | list items =>
    obtain ⟨hlength, hitems⟩ : items.length < 2 ^ 32 ∧ FitItems items := hv
    have hread := decodeItems_encodeItems hitems level [] tail
    rw [nil_append, length_nil, zero_add] at hread
    rw [encode, append_assoc, decode_sizeMarker list_sizes (by decide) hlength, decodeListContent, hread,
      length_append]
    exact unlessBytes_bind_pure _ _ _ rfl
  | map entries =>
    obtain ⟨hlength, hkeys, hentries⟩ :
      entries.length < 2 ^ 32 ∧ (entries.map Prod.fst).Nodup ∧ FitEntries entries := hv
    have hread := @decodeEntries_encodeEntries entries hentries [] hkeys level [] tail
    rw [nil_append, length_nil, zero_add] at hread
    rw [encode, append_assoc, decode_sizeMarker map_sizes (by decide) hlength, decodeMapContent, hread,
      length_append]
    exact unlessBytes_bind_pure _ _ _ rfl
  | struct tag fields =>
    obtain ⟨hlength, hfields⟩ : fields.length < 2 ^ 16 ∧ FitItems fields := hv
    have hread := decodeItems_encodeItems hfields level [tag] tail
    rw [encode, append_assoc, decode_structMarker hlength, decodeStructContent,
      if_neg (by exact Bool.false_ne_true), cons_append, byteAt_bind, length_append,
      length_cons]
    apply (congrArg (· >>= _) hread).trans
    apply unlessBytes_bind_pure
    dsimp only
    rw [length_singleton, add_comm 1]

theorem decodeItems_encodeItems {items : List PackValue} (hitems : FitItems items) (level : Nat)
    (front tail : List UInt8) :
    decodeItems level (front ++ (encodeItems items ++ tail)) front.length items.length =
      unlessBytes (firstBytesItems items) (items, front.length + (encodeItems items).length) := by
  cases items with
  | nil =>
    rw [length_nil, decodeItems]
    rfl
  | cons item items =>
    obtain ⟨hitem, hrest⟩ : item.Fits ∧ FitItems items := hitems
    have hfirst := decode_encode hitem (level + 1) (encodeItems items ++ tail)
    have hread := decodeItems_encodeItems hrest level (front ++ encode item) tail
    rw [append_assoc, length_append] at hread
    rw [length_cons, decodeItems, encodeItems, append_assoc, decode_at hfirst, firstBytesItems]
    apply unlessBytes_bind
    dsimp only
    rw [hread, length_append, ← add_assoc]
    exact unlessBytes_bind_pure _ _ _ rfl

theorem decodeEntries_encodeEntries {entries : List (String × PackValue)} (hentries : FitEntries entries)
    {before : List (String × PackValue)} (hkeys : ((before ++ entries).map Prod.fst).Nodup)
    (level : Nat) (front tail : List UInt8) :
    decodeEntries level (front ++ (encodeEntries entries ++ tail)) before front.length entries.length =
      unlessBytes (firstBytesEntries entries)
        (before ++ entries, front.length + (encodeEntries entries).length) := by
  cases entries with
  | nil =>
    rw [length_nil, decodeEntries, append_nil]
    rfl
  | cons entry entries =>
    obtain ⟨hkey, hv, hrest⟩ : (utf8 entry.1).length < 2 ^ 32 ∧ entry.2.Fits ∧ FitEntries entries := hentries
    have hnew : entry.1 ∉ before.map Prod.fst := by
      intro hmem
      rw [map_append, nodup_append] at hkeys
      exact hkeys.2.2 _ hmem _ mem_cons_self rfl
    have hfirst := @decode_encodeString (level + 1) _ hkey (encode entry.2 ++ (encodeEntries entries ++ tail))
    have hsecond := decode_encode hv (level + 1) (encodeEntries entries ++ tail)
    have hkeys' : (((before ++ [entry]) ++ entries).map Prod.fst).Nodup := by
      rw [append_assoc]
      exact hkeys
    have hread := decodeEntries_encodeEntries hrest hkeys' level
      (front ++ encodeString entry.1 ++ encode entry.2) tail
    have hbytes : encodeEntries (entry :: entries) ++ tail =
        encodeString entry.1 ++ (encode entry.2 ++ (encodeEntries entries ++ tail)) := by
      rw [encodeEntries, append_assoc, append_assoc]
    rw [hbytes, length_cons, decodeEntries, decode_at hfirst, pure_bind]
    dsimp only [mapKey]
    have hsplit : front ++ (encodeString entry.1 ++ (encode entry.2 ++ (encodeEntries entries ++ tail))) =
        front ++ encodeString entry.1 ++ (encode entry.2 ++ (encodeEntries entries ++ tail)) := by
      rw [append_assoc]
    have hoffset : front.length + (encodeString entry.1).length = (front ++ encodeString entry.1).length := by
      rw [length_append]
    rw [pure_bind, hsplit, hoffset, decode_at hsecond, firstBytesEntries]
    apply unlessBytes_bind
    dsimp only
    have hlength : (encodeEntries (entry :: entries)).length =
        (encodeString entry.1).length + ((encode entry.2).length + (encodeEntries entries).length) := by
      rw [encodeEntries, length_append, length_append]
    rw [insertEntry_new hnew, hlength, ← append_assoc, ← length_append, hread, append_assoc,
      length_append, length_append, add_assoc, add_assoc]
    rfl

end

theorem decode_encode_iff {v : PackValue} (hv : v.Fits) (level : Nat) (tail : List UInt8) :
    decode level (encode v ++ tail) = pure (v, (encode v).length) ↔ v.firstBytes = none := by
  rw [decode_encode hv level]
  cases v.firstBytes with
  | none => exact iff_of_true rfl rfl
  | some b =>
    apply iff_of_false
    · intro h
      cases h
    · exact Option.some_ne_none b

def nested : PackValue := .list [.boolean true, .map [("k", .integer (-300))]]

theorem nested_fits : nested.Fits :=
  ⟨by decide, trivial, ⟨by decide, by decide, by decide, trivial, trivial⟩, trivial⟩

theorem decode_encode_nested :
    decode 0 (encode nested ++ [0xFF]) = pure (nested, (encode nested).length) :=
  (decode_encode_iff nested_fits 0 [0xFF]).mpr rfl

/-- Not even the empty byte string is read back. -/
theorem noBytes_unread :
    ¬ ∀ v : PackValue, v.Fits → ∀ tail, decode 0 (encode v ++ tail) = pure (v, (encode v).length) := by
  intro h
  have hread := h (.bytes []) (Nat.two_pow_pos 32) []
  rw [encode, decode_encodeBytes] at hread
  cases hread

end H2Database.Bolt.PackValue
