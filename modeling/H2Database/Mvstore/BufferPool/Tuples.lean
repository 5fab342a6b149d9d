import H2Database.Mvstore.BufferPool.SlottedPage
import H2Database.Reasoning.Run
import Mathlib.Algebra.Order.BigOperators.Group.List
import Mathlib.Data.List.Pairwise

/-!
# The tuples of a slotted page

Slots grow up from the header and tuples grow down from the end of the page.  `Holds buf ts` says that the
page keeps exactly the tuples `ts`, apart from one another and from the slots; an insertion, a deletion and
a defragmentation change `ts` as the names say.
-/

namespace H2Database.Mvstore

open Reasoning List Option

namespace SlottedPage

variable {buf : Page8K} {bs : List UInt8}

theorem readAt_copyTo_of_disjoint {off p n : Nat} (hin : p + n ≤ pageSize)
    (h : p + n ≤ off ∨ off + bs.length ≤ p) : readAt (copyTo buf off bs).1 p n = readAt buf.1 p n := by
  unfold copyTo
  split_ifs
  · apply readAt_writeAt_disjoint _ h
    rw [buf.2]
    exact hin
  · rfl

theorem readAt_copyTo_self {off : Nat} (h : off + bs.length ≤ pageSize) :
    readAt (copyTo buf off bs).1 off bs.length = bs := by
  rw [copyTo, dif_pos h]
  exact readAt_writeAt buf.1 bs off

theorem readUInt_copyTo_of_disjoint {off p w : Nat} (hin : p + w ≤ pageSize)
    (h : p + w ≤ off ∨ off + bs.length ≤ p) : readUInt (copyTo buf off bs) p w = readUInt buf p w := by
  rw [readUInt, readAt_copyTo_of_disjoint hin h]
  rfl

theorem length_uint (w n : Nat) : (leBytes w n).reverse.length = w := by
  rw [length_reverse, length_leBytes]

theorem readAt_writeUInt_of_disjoint {off w n p len : Nat} (hin : p + len ≤ pageSize)
    (h : p + len ≤ off ∨ off + w ≤ p) : readAt (writeUInt buf off w n).1 p len = readAt buf.1 p len :=
  readAt_copyTo_of_disjoint hin (by rw [length_uint]; exact h)

theorem readUInt_writeUInt_of_disjoint {off w n p v : Nat} (hin : p + v ≤ pageSize)
    (h : p + v ≤ off ∨ off + w ≤ p) : readUInt (writeUInt buf off w n) p v = readUInt buf p v :=
  readUInt_copyTo_of_disjoint hin (by rw [length_uint]; exact h)

theorem readUInt_writeUInt_self {off w n : Nat} (hin : off + w ≤ pageSize)
    (hn : n < 256 ^ w) : readUInt (writeUInt buf off w n) off w = n := by
  have hroom : off + (leBytes w n).reverse.length ≤ pageSize := by
    rw [length_uint]
    exact hin
  have hself := @readAt_copyTo_self buf (leBytes w n).reverse off hroom
  rw [length_uint] at hself
  rw [readUInt, writeUInt, hself, reverse_reverse, fromLe_leBytes_of_lt hn]

/-! ## One tuple and its slot -/

def slotOffset (slotId : Nat) : Nat := pageHeaderSize + slotId * slotSize

theorem slot_congr {buf buf' : Page8K} {i : Nat}
    (hoff : readUInt buf' (slotOffset i) 2 = readUInt buf (slotOffset i) 2)
    (hlen : readUInt buf' (slotOffset i + 2) 2 = readUInt buf (slotOffset i + 2) 2) :
    slot buf' i = slot buf i := by
  rw [slotOffset] at hoff hlen
  simp only [slot, hoff, hlen]

theorem slot_some {i : Nat} {p : Nat × Nat} (h : slot buf i = some p) :
    p.1 ≠ 0 ∧ p.2 ≠ 0 ∧ p.1 + p.2 ≤ pageSize := by
  simp only [slot] at h
  split_ifs at h with hlive
  have hp := Option.some.inj h
  rw [← hp]
  exact hlive

def place (buf : Page8K) (i off : Nat) (data : List UInt8) : Page8K :=
  writeUInt (writeUInt (copyTo buf off data) (slotOffset i) 2 off) (slotOffset i + 2) 2 data.length

section Place

variable {buf : Page8K} {i off : Nat} {data : List UInt8}

theorem slotOffset_eq (i : Nat) : slotOffset i = 32 + i * 4 := rfl

theorem place_header {p w : Nat} (h : p + w ≤ 32) (hslot : slotOffset i + 4 ≤ off) (hin : off ≤ pageSize) :
    readUInt (place buf i off data) p w = readUInt buf p w := by
  have hi := slotOffset_eq i
  have hpage : p + w ≤ pageSize := by omega
  rw [place, readUInt_writeUInt_of_disjoint hpage (.inl (by omega)),
    readUInt_writeUInt_of_disjoint hpage (.inl (by omega)),
    readUInt_copyTo_of_disjoint hpage (.inl (by omega))]

theorem slot_place_self (hslot : slotOffset i + 4 ≤ off) (hin : off + data.length ≤ pageSize)
    (hdata : data ≠ []) : slot (place buf i off data) i = some (off, data.length) := by
  have hi := slotOffset_eq i
  have hsize : pageSize = 8192 := rfl
  have hpos : 0 < data.length := length_pos_iff.mpr hdata
  have hoff : readUInt (place buf i off data) (slotOffset i) 2 = off := by
    rw [place, readUInt_writeUInt_of_disjoint (by omega) (.inl (by omega)),
      readUInt_writeUInt_self (by omega) (by omega)]
  have hlen : readUInt (place buf i off data) (slotOffset i + 2) 2 = data.length := by
    rw [place, readUInt_writeUInt_self (by omega) (by omega)]
  rw [slotOffset] at hoff hlen
  simp only [slot, hoff, hlen]
  rw [if_pos ⟨by omega, by omega, hin⟩]

theorem slot_place_of_ne {j : Nat} (hji : j ≠ i) (hj : slotOffset j + 4 ≤ off) (hin : off ≤ pageSize) :
    slot (place buf i off data) j = slot buf j := by
  have hjeq := slotOffset_eq j
  have hieq := slotOffset_eq i
  have hentry : ∀ p, slotOffset j ≤ p → p + 2 ≤ slotOffset j + 4 →
      readUInt (place buf i off data) p 2 = readUInt buf p 2 := by
    intro p hlo hhi
    have hpage : p + 2 ≤ pageSize := by omega
    rw [place, readUInt_writeUInt_of_disjoint hpage (by omega),
      readUInt_writeUInt_of_disjoint hpage (by omega), readUInt_copyTo_of_disjoint hpage (.inl (by omega))]
  apply slot_congr
  · exact hentry _ (by omega) (by omega)
  · exact hentry _ (by omega) (by omega)

theorem readAt_place_self (hslot : slotOffset i + 4 ≤ off) (hin : off + data.length ≤ pageSize) :
    readAt (place buf i off data).1 off data.length = data := by
  rw [place, readAt_writeUInt_of_disjoint hin (.inr (by omega)),
    readAt_writeUInt_of_disjoint hin (.inr (by omega)), readAt_copyTo_self hin]

theorem readAt_place_of_le {p n : Nat} (hslot : slotOffset i + 4 ≤ off) (hp : off + data.length ≤ p)
    (hin : p + n ≤ pageSize) : readAt (place buf i off data).1 p n = readAt buf.1 p n := by
  rw [place, readAt_writeUInt_of_disjoint hin (.inr (by omega)),
    readAt_writeUInt_of_disjoint hin (.inr (by omega)), readAt_copyTo_of_disjoint hin (.inr hp)]

end Place

/-! ## The header -/

section Header

variable {buf : Page8K} {off w n : Nat} (h : off + w ≤ 32)

include h

theorem slot_writeUInt_header {i : Nat} (hi : slotOffset i + 4 ≤ pageSize) :
    slot (writeUInt buf off w n) i = slot buf i := by
  have hieq := slotOffset_eq i
  apply slot_congr
  · exact readUInt_writeUInt_of_disjoint (by omega) (.inr (by omega))
  · exact readUInt_writeUInt_of_disjoint (by omega) (.inr (by omega))

theorem readAt_writeUInt_header {p len : Nat} (hp : 32 ≤ p) (hin : p + len ≤ pageSize) :
    readAt (writeUInt buf off w n).1 p len = readAt buf.1 p len :=
  readAt_writeUInt_of_disjoint hin (.inr (by omega))

end Header

def setCounters (buf : Page8K) (count lower upper : Nat) : Page8K :=
  writeUInt (writeUInt (writeUInt buf 14 2 count) 16 2 lower) 18 2 upper

section Counters

variable {buf : Page8K} {count lower upper : Nat}

theorem getTupleCount_setCounters (h : count < 65536) :
    getTupleCount (setCounters buf count lower upper) = count := by
  rw [getTupleCount, setCounters, readUInt_writeUInt_of_disjoint (by decide) (by decide),
    readUInt_writeUInt_of_disjoint (by decide) (by decide), readUInt_writeUInt_self (by decide) h]

theorem getFreeSpaceLower_setCounters (h : lower < 65536) :
    getFreeSpaceLower (setCounters buf count lower upper) = lower := by
  rw [getFreeSpaceLower, setCounters, readUInt_writeUInt_of_disjoint (by decide) (by decide),
    readUInt_writeUInt_self (by decide) h]

theorem getFreeSpaceUpper_setCounters (h : upper < 65536) :
    getFreeSpaceUpper (setCounters buf count lower upper) = upper := by
  rw [getFreeSpaceUpper, setCounters, readUInt_writeUInt_self (by decide) h]

theorem slot_setCounters {i : Nat} (hi : slotOffset i + 4 ≤ pageSize) :
    slot (setCounters buf count lower upper) i = slot buf i := by
  rw [setCounters, slot_writeUInt_header (by decide) hi, slot_writeUInt_header (by decide) hi,
    slot_writeUInt_header (by decide) hi]

theorem readAt_setCounters {p len : Nat} (hp : 32 ≤ p) (hin : p + len ≤ pageSize) :
    readAt (setCounters buf count lower upper).1 p len = readAt buf.1 p len := by
  rw [setCounters, readAt_writeUInt_header (by decide) hp hin, readAt_writeUInt_header (by decide) hp hin,
    readAt_writeUInt_header (by decide) hp hin]

end Counters

def clearSlot (buf : Page8K) (i : Nat) : Page8K :=
  writeUInt (writeUInt buf (slotOffset i) 2 0) (slotOffset i + 2) 2 0

section Clear

variable {buf : Page8K} {i : Nat}

theorem readUInt_clearSlot {p w : Nat} (hin : p + w ≤ pageSize)
    (h : p + w ≤ slotOffset i ∨ slotOffset i + 4 ≤ p) :
      readUInt (clearSlot buf i) p w = readUInt buf p w := by
  rw [clearSlot, readUInt_writeUInt_of_disjoint hin (by omega), readUInt_writeUInt_of_disjoint hin (by omega)]

theorem readAt_clearSlot {p n : Nat} (h : slotOffset i + 4 ≤ p) (hin : p + n ≤ pageSize) :
    readAt (clearSlot buf i).1 p n = readAt buf.1 p n := by
  rw [clearSlot, readAt_writeUInt_of_disjoint hin (.inr (by omega)),
    readAt_writeUInt_of_disjoint hin (.inr (by omega))]

theorem slot_clearSlot_self (hin : slotOffset i + 4 ≤ pageSize) : slot (clearSlot buf i) i = none := by
  have hoff : readUInt (clearSlot buf i) (slotOffset i) 2 = 0 := by
    rw [clearSlot, readUInt_writeUInt_of_disjoint (by omega) (.inl (by omega)),
      readUInt_writeUInt_self (by omega) (by decide)]
  rw [slotOffset] at hoff
  simp only [slot, hoff]
  rw [if_neg fun h => h.1 rfl]

theorem slot_clearSlot_of_ne {j : Nat} (hji : j ≠ i) (hj : slotOffset j + 4 ≤ pageSize) :
    slot (clearSlot buf i) j = slot buf j := by
  have hjeq := slotOffset_eq j
  have hieq := slotOffset_eq i
  apply slot_congr
  · exact readUInt_clearSlot (by omega) (by omega)
  · exact readUInt_clearSlot (by omega) (by omega)

end Clear

/-! ## The tuples of a page -/

def Apart (p q : Nat × Nat) : Prop := p.1 + p.2 ≤ q.1 ∨ q.1 + q.2 ≤ p.1

/-- The slot of a tuple points at its bytes, at `upper` or behind. -/
structure Stands (buf : Page8K) (upper : Nat) (t : Nat × List UInt8) (off : Nat) : Prop where
  points : slot buf t.1 = some (off, t.2.length)
  ge : upper ≤ off
  bytes : readAt buf.1 off t.2.length = t.2

def total (ts : List (Nat × List UInt8)) : Nat := (ts.map fun t => t.2.length).sum

/-- The page keeps the tuples `ts`, in the order of their slots, and no others. -/
structure Holds (buf : Page8K) (ts : List (Nat × List UInt8)) : Prop where
  lower : getFreeSpaceLower buf = slotOffset (getTupleCount buf)
  lower_le : getFreeSpaceLower buf ≤ getFreeSpaceUpper buf
  upper_le : getFreeSpaceUpper buf + total ts ≤ pageSize
  stands : ∀ t ∈ ts, t.1 < getTupleCount buf ∧ ∃ off, Stands buf (getFreeSpaceUpper buf) t off
  dead : ∀ i, i < getTupleCount buf → i ∉ ts.map Prod.fst → slot buf i = none
  sorted : ts.Pairwise fun s t => s.1 < t.1
  apart : ts.Pairwise fun s t => ∀ p q, slot buf s.1 = some p → slot buf t.1 = some q → Apart p q

namespace Holds

variable {buf : Page8K} {ts : List (Nat × List UInt8)}

variable {i : Nat}

theorem slot_eq_none (h : Holds buf ts) (hi : i < getTupleCount buf)
    (hnot : ∀ data, (i, data) ∉ ts) : slot buf i = none := by
  apply h.dead i hi
  intro hmem
  obtain ⟨t, ht, hfst⟩ := mem_map.mp hmem
  apply hnot t.2
  rw [← hfst]
  exact ht

variable {data : List UInt8}

theorem of_entries (h : Holds buf ts) {buf' : Page8K} {off : Nat}
    (hcount : getTupleCount buf' = i + 1) (hi : i = getTupleCount buf)
    (hlower : getFreeSpaceLower buf' = slotOffset (i + 1)) (hupper : getFreeSpaceUpper buf' = off)
    (hroom : slotOffset (i + 1) ≤ off) (hoff : off + data.length = getFreeSpaceUpper buf)
    (hslot : ∀ j, j < i → slot buf' j = slot buf j) (hnew : slot buf' i = some (off, data.length))
    (hbytes : ∀ p n, getFreeSpaceUpper buf ≤ p → p + n ≤ pageSize → readAt buf'.1 p n = readAt buf.1 p n)
    (hdata : readAt buf'.1 off data.length = data) : Holds buf' (ts ++ [(i, data)]) := by
  have hlt : ∀ t ∈ ts, t.1 < i := fun t ht => hi ▸ (h.stands t ht).1
  have hup := h.upper_le
  constructor
  · rw [hlower, hcount]
  · rw [hlower, hupper]
    exact hroom
  · rw [hupper, total, map_append, sum_append]
    rw [total] at hup
    simp only [map_cons, map_nil, sum_cons, sum_nil]
    omega
  · intro t ht
    rw [hcount, hupper]
    rcases mem_append.mp ht with hold | hnewt
    · obtain ⟨_, p, hp⟩ := h.stands t hold
      have hin := (slot_some hp.points).2.2
      refine ⟨by have := hlt t hold; omega, p, ?_⟩
      constructor
      · rw [hslot t.1 (hlt t hold)]
        exact hp.points
      · have := hp.ge
        omega
      · rw [hbytes p t.2.length hp.ge hin]
        exact hp.bytes
    · rw [mem_singleton.mp hnewt]
      exact ⟨Nat.lt_succ_self i, off, hnew, Nat.le_refl off, hdata⟩
  · intro j hj hnot
    rw [map_append, mem_append] at hnot
    have hne : j ≠ i := fun he => hnot (.inr (by simp [he]))
    have hji : j < i := by omega
    rw [hslot j hji]
    exact h.dead j (hi ▸ hji) fun hmem => hnot (.inl hmem)
  · rw [pairwise_append]
    refine ⟨h.sorted, pairwise_singleton _ _, ?_⟩
    intro s hs t ht
    rw [mem_singleton.mp ht]
    exact hlt s hs
  · rw [pairwise_append]
    refine ⟨?_, pairwise_singleton _ _, ?_⟩
    · apply h.apart.imp_of_mem
      intro s t hs ht hst
      rw [hslot s.1 (hlt s hs), hslot t.1 (hlt t ht)]
      exact hst
    · intro s hs t ht p q hp hq
      rw [mem_singleton.mp ht, hnew] at hq
      obtain ⟨_, o, ho⟩ := h.stands s hs
      rw [hslot s.1 (hlt s hs), ho.points] at hp
      rw [← Option.some.inj hp, ← Option.some.inj hq]
      have := ho.ge
      right
      simp only
      omega

theorem insert (h : Holds buf ts) (hdata : data ≠ []) {buf' : Page8K}
    (hins : insertTuple buf data = some (i, buf')) :
    i = getTupleCount buf ∧ Holds buf' (ts ++ [(i, data)]) := by
  have hlow := h.lower
  have hle := h.lower_le
  have hup := h.upper_le
  have hsize : pageSize = 8192 := rfl
  have hslotSize : slotSize = 4 := rfl
  have hcountOff := slotOffset_eq (getTupleCount buf)
  simp only [SlottedPage.insertTuple] at hins
  split_ifs at hins with hfull
  rw [getFreeSpace, if_pos hle] at hfull
  have hins := Option.some.inj hins
  set off := getFreeSpaceUpper buf - data.length with hoff
  have hentry : slotOffset (getTupleCount buf) + 4 ≤ off := by omega
  have hinside : off + data.length ≤ pageSize := by omega
  have hplaced : writeUInt (writeUInt (copyTo buf off data) (getFreeSpaceLower buf) 2 off)
      (getFreeSpaceLower buf + 2) 2 data.length = place buf (getTupleCount buf) off data := by
    rw [hlow, place]
  have hcount : getTupleCount (place buf (getTupleCount buf) off data) = getTupleCount buf :=
    place_header (by decide) hentry (by omega)
  rw [hplaced, hcount] at hins
  obtain ⟨hi, hbuf⟩ := Prod.mk.inj hins
  rw [← setCounters] at hbuf
  refine ⟨hi.symm, ?_⟩
  have hnext : getFreeSpaceLower buf + slotSize = slotOffset (getTupleCount buf + 1) := by
    rw [hlow, slotOffset_eq, slotOffset_eq]
    omega
  rw [← hi, ← hbuf]
  apply h.of_entries _ rfl _ (getFreeSpaceUpper_setCounters (by omega))
  · rw [← hnext]
    omega
  · omega
  · intro j hj
    have hjoff := slotOffset_eq j
    rw [slot_setCounters (by omega), slot_place_of_ne (by omega) (by omega) (by omega)]
  · rw [slot_setCounters (by omega), slot_place_self hentry hinside hdata]
  · intro p n hp hin
    rw [readAt_setCounters (by omega) hin, readAt_place_of_le hentry (by omega) hin]
  · rw [readAt_setCounters (by omega) hinside, readAt_place_self hentry hinside]
  · exact getTupleCount_setCounters (by omega)
  · rw [← hnext]
    exact getFreeSpaceLower_setCounters (by omega)

/-! ## Deletions -/

theorem slotOffset_le (h : Holds buf ts) (hi : i < getTupleCount buf) :
    slotOffset i + 4 ≤ getFreeSpaceUpper buf ∧ slotOffset i + 4 ≤ pageSize := by
  have hlow := h.lower
  have hle := h.lower_le
  have hup := h.upper_le
  rw [slotOffset_eq] at hlow ⊢
  omega

theorem delete (h : Holds buf ts) (i : Nat) :
    Holds (deleteTuple buf i).2 (ts.filter fun t => t.1 ≠ i) := by
  rw [deleteTuple]
  split_ifs with hi
  · have hall : ts.filter (fun t => t.1 ≠ i) = ts := by
      rw [filter_eq_self]
      intro t ht
      have := (h.stands t ht).1
      exact decide_eq_true (by omega)
    rw [hall]
    exact h
  · have hi : i < getTupleCount buf := by omega
    change Holds (clearSlot buf i) _
    have hroom := (h.slotOffset_le hi).2
    have hieq := slotOffset_eq i
    have hheader : ∀ p, p + 2 ≤ 32 → readUInt (clearSlot buf i) p 2 = readUInt buf p 2 := fun p hp =>
      readUInt_clearSlot (by omega) (.inl (by omega))
    have hcount : getTupleCount (clearSlot buf i) = getTupleCount buf := hheader 14 (by decide)
    have hlower : getFreeSpaceLower (clearSlot buf i) = getFreeSpaceLower buf := hheader 16 (by decide)
    have hupper : getFreeSpaceUpper (clearSlot buf i) = getFreeSpaceUpper buf := hheader 18 (by decide)
    have hslot : ∀ t ∈ ts, t.1 ≠ i → slot (clearSlot buf i) t.1 = slot buf t.1 := fun t ht hne =>
      slot_clearSlot_of_ne hne (h.slotOffset_le (h.stands t ht).1).2
    have hmem : ∀ t, t ∈ ts.filter (fun t => t.1 ≠ i) → t ∈ ts ∧ t.1 ≠ i := fun t ht => by
      rw [mem_filter] at ht
      exact ⟨ht.1, of_decide_eq_true ht.2⟩
    constructor
    · rw [hlower, hcount]
      exact h.lower
    · rw [hlower, hupper]
      exact h.lower_le
    · rw [hupper]
      have hsum : total (ts.filter fun t => t.1 ≠ i) ≤ total ts :=
        (filter_sublist.map _).sum_le_sum fun _ _ => Nat.zero_le _
      have := h.upper_le
      omega
    · intro t ht
      obtain ⟨hts, hne⟩ := hmem t ht
      obtain ⟨hlt, off, hoff⟩ := h.stands t hts
      rw [hcount, hupper]
      refine ⟨hlt, off, ?_⟩
      constructor
      · rw [hslot t hts hne]
        exact hoff.points
      · exact hoff.ge
      · have hge := hoff.ge
        have hbehind := (h.slotOffset_le hi).1
        rw [readAt_clearSlot (by omega) (slot_some hoff.points).2.2]
        exact hoff.bytes
    · intro j hj hnot
      rw [hcount] at hj
      by_cases hji : j = i
      · rw [hji]
        exact slot_clearSlot_self hroom
      · rw [slot_clearSlot_of_ne hji (h.slotOffset_le hj).2]
        apply h.slot_eq_none hj
        intro data hdata
        apply hnot
        exact mem_map.mpr ⟨(j, data), mem_filter.mpr ⟨hdata, decide_eq_true hji⟩, rfl⟩
    · exact h.sorted.filter _
    · apply (h.apart.filter _).imp_of_mem
      intro s t hs ht hst
      rw [hslot s (hmem s hs).1 (hmem s hs).2, hslot t (hmem t ht).1 (hmem t ht).2]
      exact hst

/-! ## The live tuples -/

theorem mem_iff (h : Holds buf ts) : (i, data) ∈ ts ↔
      i < getTupleCount buf ∧ ∃ p, slot buf i = some p ∧ readAt buf.1 p.1 p.2 = data := by
  constructor
  · intro hmem
    obtain ⟨hi, off, hoff⟩ := h.stands (i, data) hmem
    exact ⟨hi, (off, data.length), hoff.points, hoff.bytes⟩
  · intro hlive
    obtain ⟨hi, p, hp, hdata⟩ := hlive
    by_contra hnot
    have hnone : slot buf i = none := by
      apply h.slot_eq_none hi
      intro other hother
      obtain ⟨_, off, hoff⟩ := h.stands (i, other) hother
      have hpoff : (off, other.length) = p := Option.some.inj (hoff.points.symm.trans hp)
      have hsame : other = data := by
        rw [← hdata, ← hpoff]
        exact hoff.bytes.symm
      exact hnot (hsame ▸ hother)
    rw [hnone] at hp
    cases hp

theorem mem_liveTuples : (i, data) ∈ liveTuples buf ↔
    i < getTupleCount buf ∧ ∃ p, slot buf i = some p ∧ readAt buf.1 p.1 p.2 = data := by
  rw [liveTuples, mem_filterMap]
  constructor
  · intro hmem
    obtain ⟨j, hj, hmap⟩ := hmem
    obtain ⟨p, hp, heq⟩ := map_eq_some_iff.mp hmap
    obtain ⟨hji, hdata⟩ := Prod.mk.inj heq
    rw [← hji]
    exact ⟨mem_range.mp hj, p, hp, hdata⟩
  · intro hlive
    obtain ⟨hi, p, hp, hdata⟩ := hlive
    refine ⟨i, mem_range.mpr hi, ?_⟩
    rw [hp, map_some, hdata]

theorem sorted_liveTuples (buf : Page8K) : (liveTuples buf).Pairwise fun s t => s.1 < t.1 := by
  rw [liveTuples, pairwise_filterMap]
  apply pairwise_lt_range.imp
  intro i j hij s hs t ht
  obtain ⟨_, _, rfl⟩ := map_eq_some_iff.mp hs
  obtain ⟨_, _, rfl⟩ := map_eq_some_iff.mp ht
  exact hij

theorem liveTuples_eq (h : Holds buf ts) : liveTuples buf = ts := by
  have hnodup : ∀ us : List (Nat × List UInt8), (us.Pairwise fun s t => s.1 < t.1) → us.Nodup :=
    fun us hus => hus.imp fun hlt heq => by
      rw [heq] at hlt
      exact Nat.lt_irrefl _ hlt
  have hperm : (liveTuples buf).Perm ts := by
    rw [perm_ext_iff_of_nodup (hnodup _ (sorted_liveTuples buf)) (hnodup _ h.sorted)]
    intro t
    exact mem_liveTuples.trans h.mem_iff.symm
  apply hperm.eq_of_pairwise _ (sorted_liveTuples buf) h.sorted
  intro s t _ _ hst hts
  omega

theorem getTuple_iff (h : Holds buf ts) :
    getTuple buf i = some data ↔ (i, data) ∈ ts := by
  rw [h.mem_iff, getTuple]
  split_ifs with hi
  · apply iff_of_false (by simp)
    omega
  · rw [map_eq_some_iff]
    constructor
    · intro hread
      exact ⟨by omega, hread⟩
    · intro hlive
      exact hlive.2

theorem liveTupleCount_eq (h : Holds buf ts) : liveTupleCount buf = ts.length := by
  rw [← h.liveTuples_eq, liveTupleCount, liveTuples]
  generalize List.range (getTupleCount buf) = slots
  induction slots with
  | nil => rfl
  | cons i slots ih =>
    cases hslot : slot buf i with
    | none => simpa [hslot] using ih
    | some p => simpa [hslot] using ih

end Holds

/-! ## Defragmentation -/

/-- What the loop has done to the page `buf` when it has moved the tuples `done`. -/
structure Moved (buf : Page8K) (done : List (Nat × List UInt8)) (acc : Page8K × Nat) : Prop where
  header : ∀ p, p + 2 ≤ 32 → readUInt acc.1 p 2 = readUInt buf p 2
  filled : acc.2 + total done = pageSize
  stands : ∀ t ∈ done, ∃ off, Stands acc.1 acc.2 t off
  apart : done.Pairwise fun s t => ∀ p q, slot acc.1 s.1 = some p → slot acc.1 t.1 = some q → Apart p q
  others : ∀ i, i < getTupleCount buf → i ∉ done.map Prod.fst → slot acc.1 i = slot buf i

theorem total_append (ts us : List (Nat × List UInt8)) : total (ts ++ us) = total ts + total us := by
  rw [total, map_append, sum_append, total, total]

theorem total_singleton (t : Nat × List UInt8) : total [t] = t.2.length := by
  rw [total, map_singleton, sum_singleton]

theorem Moved.step {done : List (Nat × List UInt8)} {acc : Page8K × Nat}
    (h : Moved buf done acc) {t : Nat × List UInt8} (ht : t.1 ∉ done.map Prod.fst) (hdata : t.2 ≠ [])
    (hcount : t.1 < getTupleCount buf)
    (hroom : slotOffset (getTupleCount buf) + total (done ++ [t]) ≤ pageSize)
    (hdone : ∀ s ∈ done, s.1 < getTupleCount buf) : Moved buf (done ++ [t]) (moveTuple acc t) := by
  have hfilled := h.filled
  have hcountOff := slotOffset_eq (getTupleCount buf)
  have htOff := slotOffset_eq t.1
  rw [total_append, total_singleton] at hroom
  set off := acc.2 - t.2.length with hoff
  have hmove : moveTuple acc t = (place acc.1 t.1 off t.2, off) := rfl
  have hin : off + t.2.length ≤ pageSize := by omega
  have hkeep : ∀ i, i < getTupleCount buf → i ≠ t.1 → slot (place acc.1 t.1 off t.2) i = slot acc.1 i := by
    intro i hi hne
    have hiOff := slotOffset_eq i
    exact slot_place_of_ne hne (by omega) (by omega)
  have hself : slot (place acc.1 t.1 off t.2) t.1 = some (off, t.2.length) :=
    slot_place_self (by omega) hin hdata
  have hne : ∀ s ∈ done, s.1 ≠ t.1 := fun s hs heq => ht (heq ▸ mem_map_of_mem hs)
  rw [hmove]
  constructor
  · intro p hp
    rw [← h.header p hp]
    exact place_header hp (by omega) (by omega)
  · rw [total_append, total_singleton]
    simp only
    omega
  · intro s hs
    simp only
    rcases mem_append.mp hs with hold | hnew
    · obtain ⟨o, ho⟩ := h.stands s hold
      have hge := ho.ge
      refine ⟨o, ?_, by omega, ?_⟩
      · rw [hkeep s.1 (hdone s hold) (hne s hold)]
        exact ho.points
      · rw [readAt_place_of_le (by omega) (by omega) (slot_some ho.points).2.2]
        exact ho.bytes
    · rw [mem_singleton.mp hnew]
      exact ⟨off, hself, Nat.le_refl off, readAt_place_self (by omega) hin⟩
  · simp only
    rw [pairwise_append]
    refine ⟨?_, pairwise_singleton _ _, ?_⟩
    · apply h.apart.imp_of_mem
      intro s u hs hu hsu
      rw [hkeep s.1 (hdone s hs) (hne s hs), hkeep u.1 (hdone u hu) (hne u hu)]
      exact hsu
    · intro s hs u hu p q hp hq
      rw [mem_singleton.mp hu, hself] at hq
      obtain ⟨o, ho⟩ := h.stands s hs
      rw [hkeep s.1 (hdone s hs) (hne s hs), ho.points] at hp
      rw [← Option.some.inj hp, ← Option.some.inj hq]
      have hge := ho.ge
      right
      simp only
      omega
  · intro i hi hnot
    rw [map_append, mem_append] at hnot
    have hni : i ≠ t.1 := fun he => hnot (.inr (by simp [he]))
    simp only
    rw [hkeep i hi hni]
    exact h.others i hi fun hmem => hnot (.inl hmem)

theorem Moved.foldl {done rest : List (Nat × List UInt8)} {acc : Page8K × Nat}
    (h : Moved buf done acc) (hsorted : (done ++ rest).Pairwise fun s t => s.1 < t.1)
    (hall : ∀ t ∈ done ++ rest, t.1 < getTupleCount buf ∧ t.2 ≠ [])
    (hroom : slotOffset (getTupleCount buf) + total (done ++ rest) ≤ pageSize) :
    Moved buf (done ++ rest) (rest.foldl moveTuple acc) := by
  induction rest generalizing done acc with
  | nil =>
    rw [append_nil]
    exact h
  | cons t rest ih =>
    have hsplit : done ++ t :: rest = done ++ [t] ++ rest := by
      rw [append_assoc, singleton_append]
    rw [hsplit] at hsorted hall hroom ⊢
    have ht := hall t (by simp)
    apply ih _ hsorted hall hroom
    apply h.step _ ht.2 ht.1
    · rw [total_append] at hroom
      omega
    · intro s hs
      exact (hall s (by simp [hs])).1
    · intro hmem
      obtain ⟨s, hs, hst⟩ := mem_map.mp hmem
      have hlt := (pairwise_append.mp (pairwise_append.mp hsorted).1).2.2 s hs t mem_cons_self
      omega

variable {ts : List (Nat × List UInt8)}

theorem Holds.moved (h : Holds buf ts) :
    Moved buf ts (ts.foldl moveTuple (buf, pageSize)) := by
  have hstart : Moved buf [] (buf, pageSize) := by
    constructor
    · intro p _
      rfl
    · rfl
    · intro t ht
      cases ht
    · exact List.Pairwise.nil
    · intro i _ _
      rfl
  have hlow := h.lower
  have hle := h.lower_le
  have hup := h.upper_le
  apply hstart.foldl h.sorted
  · intro t ht
    obtain ⟨hlt, off, hoff⟩ := h.stands t ht
    refine ⟨hlt, fun hnil => (slot_some hoff.points).2.1 ?_⟩
    rw [hnil]
    rfl
  · rw [nil_append]
    omega

theorem Holds.defragment (h : Holds buf ts) :
    Holds (defragment buf) ts := by
  have hmoved := h.moved
  have hdef : SlottedPage.defragment buf = writeUInt (ts.foldl moveTuple (buf, pageSize)).1 18 2
      (ts.foldl moveTuple (buf, pageSize)).2 := by
    rw [SlottedPage.defragment, h.liveTuples_eq]
  generalize hacc : ts.foldl moveTuple (buf, pageSize) = acc at hmoved hdef
  have hsize : pageSize = 8192 := rfl
  have hlow := h.lower
  have hle := h.lower_le
  have hup := h.upper_le
  have hfilled := hmoved.filled
  have hcount : getTupleCount (SlottedPage.defragment buf) = getTupleCount buf := by
    rw [hdef, getTupleCount, readUInt_writeUInt_of_disjoint (by decide) (by decide)]
    exact hmoved.header 14 (by decide)
  have hlower : getFreeSpaceLower (SlottedPage.defragment buf) = getFreeSpaceLower buf := by
    rw [hdef, getFreeSpaceLower, readUInt_writeUInt_of_disjoint (by decide) (by decide)]
    exact hmoved.header 16 (by decide)
  have hupper : getFreeSpaceUpper (SlottedPage.defragment buf) = acc.2 := by
    rw [hdef, getFreeSpaceUpper, readUInt_writeUInt_self (by decide) (by omega)]
  have hslot : ∀ i, i < getTupleCount buf → slot (SlottedPage.defragment buf) i = slot acc.1 i :=
    fun i hi => by rw [hdef, slot_writeUInt_header (by decide) (h.slotOffset_le hi).2]
  constructor
  · rw [hlower, hcount]
    exact hlow
  · rw [hlower, hupper]
    omega
  · rw [hupper]
    omega
  · intro t ht
    have hlt := (h.stands t ht).1
    obtain ⟨off, hoff⟩ := hmoved.stands t ht
    have hge := hoff.ge
    have hoffset := slotOffset_eq (getTupleCount buf)
    rw [hcount, hupper]
    refine ⟨hlt, off, ?_, hge, ?_⟩
    · rw [hslot t.1 hlt]
      exact hoff.points
    · rw [hdef, readAt_writeUInt_header (by decide) (by omega) (slot_some hoff.points).2.2]
      exact hoff.bytes
  · intro i hi hnot
    rw [hcount] at hi
    rw [hslot i hi, hmoved.others i hi hnot]
    exact h.dead i hi hnot
  · exact h.sorted
  · apply hmoved.apart.imp_of_mem
    intro s t hs ht hst
    rw [hslot s.1 (h.stands s hs).1, hslot t.1 (h.stands t ht).1]
    exact hst

theorem holds_init (pageId : Nat) (pageType : UInt8) : Holds (init pageId pageType) [] := by
  have hcount : getTupleCount (init pageId pageType) = 0 := by
    simp only [getTupleCount, init]
    rw [readUInt_writeUInt_of_disjoint (by decide) (by decide),
      readUInt_writeUInt_of_disjoint (by decide) (by decide),
      readUInt_writeUInt_of_disjoint (by decide) (by decide), readUInt_writeUInt_self (by decide) (by decide)]
  have hlower : getFreeSpaceLower (init pageId pageType) = 32 := by
    simp only [getFreeSpaceLower, init]
    rw [readUInt_writeUInt_of_disjoint (by decide) (by decide),
      readUInt_writeUInt_of_disjoint (by decide) (by decide), readUInt_writeUInt_self (by decide) (by decide)]
    rfl
  have hupper : getFreeSpaceUpper (init pageId pageType) = 8192 := by
    simp only [getFreeSpaceUpper, init]
    rw [readUInt_writeUInt_of_disjoint (by decide) (by decide),
      readUInt_writeUInt_self (by decide) (by decide)]
    rfl
  constructor
  · rw [hlower, hcount]
    rfl
  · rw [hlower, hupper]
    decide
  · rw [hupper]
    decide
  · intro t ht
    cases ht
  · intro i hi
    rw [hcount] at hi
    omega
  · exact List.Pairwise.nil
  · exact List.Pairwise.nil

end SlottedPage

inductive PageOp where
  | insert (data : List UInt8)
  | delete (slotId : Nat)
  | defragment

def PageOp.apply (buf : Page8K) : PageOp → Page8K
  | .insert data => ((SlottedPage.insertTuple buf data).map Prod.snd).getD buf
  | .delete slotId => (SlottedPage.deleteTuple buf slotId).2
  | .defragment => SlottedPage.defragment buf

/-- A page with the tuples inserted into it and not deleted, each with the slot its insertion returned. -/
def PageOp.record (acc : Page8K × List (Nat × List UInt8)) (op : PageOp) :
    Page8K × List (Nat × List UInt8) :=
  (op.apply acc.1, match op with
    | .insert data =>
      match SlottedPage.insertTuple acc.1 data with
      | some (slotId, _) => acc.2 ++ [(slotId, data)]
      | none => acc.2
    | .delete slotId => acc.2.filter fun t => t.1 ≠ slotId
    | .defragment => acc.2)

namespace SlottedPage

def Filled (op : PageOp) : Prop := ∀ data, op = .insert data → data ≠ []

variable {acc : Page8K × List (Nat × List UInt8)}

theorem Holds.record (h : Holds acc.1 acc.2) {op : PageOp}
    (hop : Filled op) : Holds (op.record acc).1 (op.record acc).2 := by
  cases op with
  | insert data =>
    simp only [PageOp.record, PageOp.apply]
    cases hins : insertTuple acc.1 data with
    | none => exact h
    | some inserted => exact (h.insert (hop data rfl) hins).2
  | delete slotId => exact h.delete slotId
  | defragment => exact h.defragment

theorem Holds.run (h : Holds acc.1 acc.2) {ops : List PageOp} (hops : ∀ op ∈ ops, Filled op) :
    Holds (runs PageOp.record acc ops).1 (runs PageOp.record acc ops).2 := by
  induction ops generalizing acc with
  | nil => exact h
  | cons op ops ih =>
    exact ih (h.record (hops op mem_cons_self)) fun op' hop' => hops op' (mem_cons_of_mem _ hop')

theorem fst_runs_record (acc : Page8K × List (Nat × List UInt8)) (ops : List PageOp) :
    (runs PageOp.record acc ops).1 = runs PageOp.apply acc.1 ops := by
  induction ops generalizing acc with
  | nil => rfl
  | cons op ops ih => exact ih (op.record acc)

theorem mem_runs_record {t : Nat × List UInt8} (ht : t ∈ acc.2)
    {ops : List PageOp} (hops : ∀ op ∈ ops, op ≠ .delete t.1) :
    t ∈ (runs PageOp.record acc ops).2 := by
  induction ops generalizing acc with
  | nil => exact ht
  | cons op ops ih =>
    apply ih _ fun op' hop' => hops op' (mem_cons_of_mem _ hop')
    have hne := hops op mem_cons_self
    cases op with
    | insert data =>
      simp only [PageOp.record]
      split
      · exact mem_append_left _ ht
      · exact ht
    | delete slotId =>
      have hkeep : t.1 ≠ slotId := fun heq => hne (by rw [heq])
      exact mem_filter.mpr ⟨ht, decide_eq_true hkeep⟩
    | defragment => exact ht

/-- The slots end where the free space begins, the tuples stand behind it, and no two overlap. -/
structure WellFormed (buf : Page8K) : Prop where
  slots : getFreeSpaceLower buf = pageHeaderSize + getTupleCount buf * slotSize
  ordered : getFreeSpaceLower buf ≤ getFreeSpaceUpper buf ∧ getFreeSpaceUpper buf ≤ pageSize
  inside : ∀ i p, i < getTupleCount buf → slot buf i = some p →
    getFreeSpaceUpper buf ≤ p.1 ∧ p.1 + p.2 ≤ pageSize
  apart : ∀ i j p q, i < getTupleCount buf → j < getTupleCount buf → i ≠ j → slot buf i = some p →
    slot buf j = some q → Apart p q

theorem Holds.wellFormed {buf : Page8K} {ts : List (Nat × List UInt8)} (h : Holds buf ts) :
    WellFormed buf := by
  have hlive : ∀ i p, i < getTupleCount buf → slot buf i = some p → (i, readAt buf.1 p.1 p.2) ∈ ts :=
    fun i p hi hp => h.mem_iff.mpr ⟨hi, p, hp, rfl⟩
  constructor
  · exact h.lower
  · have hup := h.upper_le
    exact ⟨h.lower_le, by omega⟩
  · intro i p hi hp
    obtain ⟨_, off, hoff⟩ := h.stands _ (hlive i p hi hp)
    have hge := hoff.ge
    have hpoff := Option.some.inj (hp.symm.trans hoff.points)
    rw [hpoff] at hp ⊢
    exact ⟨hge, (slot_some hp).2.2⟩
  · intro i j p q hi hj hij hp hq
    have hsymm : Std.Symm fun s t : Nat × List UInt8 =>
        ∀ p q, slot buf s.1 = some p → slot buf t.1 = some q → Apart p q :=
      ⟨fun s t hst p q hp hq => (hst q p hq hp).symm⟩
    have hne : (i, readAt buf.1 p.1 p.2) ≠ (j, readAt buf.1 q.1 q.2) := fun heq => hij (Prod.mk.inj heq).1
    exact h.apart.forall (hlive i p hi hp) (hlive j q hj hq) hne p q hp hq

theorem slotted_page (pageId : Nat) (pageType : UInt8) (ops : List PageOp) (hops : ∀ op ∈ ops, Filled op) :
    let page := runs PageOp.apply (init pageId pageType) ops
    let live := (runs PageOp.record (init pageId pageType, []) ops).2
    WellFormed page ∧ (∀ i data, getTuple page i = some data ↔ (i, data) ∈ live) ∧
      liveTupleCount page = live.length ∧
      (∀ data, insertTuple page data = none ↔ getFreeSpace page < data.length + slotSize) ∧
      ∀ data i page', data ≠ [] → insertTuple page data = some (i, page') →
        ∀ later, (∀ op ∈ later, Filled op ∧ op ≠ .delete i) →
          getTuple (runs PageOp.apply page' later) i = some data := by
  intro page live
  have hrun : Holds page live := by
    have hstart : Holds (init pageId pageType, ([] : List (Nat × List UInt8))).1 [] :=
      holds_init pageId pageType
    have hend := hstart.run hops
    rw [fst_runs_record] at hend
    exact hend
  refine ⟨hrun.wellFormed, fun i data => hrun.getTuple_iff, hrun.liveTupleCount_eq, ?_, ?_⟩
  · intro data
    simp only [insertTuple]
    split_ifs with hfull
    · exact iff_of_true rfl hfull
    · exact iff_of_false (by simp) hfull
  · intro data i page' hdata hins later hlater
    have hinserted : Holds (page', live ++ [(i, data)]).1 (page', live ++ [(i, data)]).2 :=
      (hrun.insert hdata hins).2
    have hfinal := hinserted.run fun op hop => (hlater op hop).1
    have hmem : (i, data) ∈ (runs PageOp.record (page', live ++ [(i, data)]) later).2 :=
      mem_runs_record (by simp) fun op hop => (hlater op hop).2
    rw [← fst_runs_record (page', live ++ [(i, data)])]
    exact hfinal.getTuple_iff.mpr hmem

theorem slotted_page_reused :
    WellFormed (runs PageOp.apply (init 7 1) [.insert [1, 2], .insert [3], .delete 0, .defragment,
      .insert [4]]) :=
  (slotted_page 7 1 [.insert [1, 2], .insert [3], .delete 0, .defragment, .insert [4]] (by simp [Filled])).1

end SlottedPage

end H2Database.Mvstore
