import Mathlib.Data.List.Basic

/-!
# Files as byte strings, and what a crash can leave of an ordered series of writes

A file is the list of its bytes.  `CrashOf f steps f'` says that `f'` may be found on disk after a
crash while `steps` were being carried out on `f`: a write that a `sync` has followed is intact, the
write in progress may be torn in any way, and nothing outside its window has changed.
-/

namespace H2Database.Reasoning

open List

/-- Overwrite the bytes of `f` from `off` on with `bs`; a gap past the end reads as zeros. -/
def writeAt (f : List UInt8) (off : Nat) (bs : List UInt8) : List UInt8 :=
  f.take off ++ List.replicate (off - f.length) 0 ++ bs ++ f.drop (off + bs.length)

/-- The window of `len` bytes at `off` (shorter where the file ends earlier). -/
def readAt (f : List UInt8) (off len : Nat) : List UInt8 := (f.drop off).take len

/-! ## Reading a file back -/

variable {f bs : List UInt8} {off len : Nat}

theorem getElem?_writeAt (bs : List UInt8) (h : off ≤ f.length) (i : Nat) :
    (writeAt f off bs)[i]? = if off ≤ i ∧ i < off + bs.length then bs[i - off]? else f[i]? := by
  have hz : off - f.length = 0 := by omega
  have ht : (f.take off).length = off := by rw [length_take]; omega
  simp only [writeAt, hz, replicate_zero, append_nil, append_assoc]
  by_cases hlo : i < off
  · rw [getElem?_append_left (by omega), getElem?_take_of_lt hlo, if_neg (by omega)]
  · rw [getElem?_append_right (by omega), ht]
    by_cases hhi : i < off + bs.length
    · rw [getElem?_append_left (by omega), if_pos (by omega)]
    · rw [getElem?_append_right (by omega), getElem?_drop, if_neg (by omega)]
      congr 1
      omega

theorem length_writeAt {f : List UInt8} {off : Nat} (bs : List UInt8) (h : off ≤ f.length) :
    (writeAt f off bs).length = max f.length (off + bs.length) := by
  simp only [writeAt, length_append, length_take, length_replicate,
    length_drop]
  omega

theorem writeAt_end (f bs : List UInt8) : writeAt f f.length bs = f ++ bs := by
  simp [writeAt]

theorem getElem?_readAt (f : List UInt8) (off len i : Nat) :
    (readAt f off len)[i]? = if i < len then f[off + i]? else none := by
  simp only [readAt, getElem?_take, getElem?_drop]

theorem readAt_congr {g : List UInt8} (h : ∀ i, off ≤ i → i < off + len → f[i]? = g[i]?) :
    readAt f off len = readAt g off len := by
  apply ext_getElem?
  intro i
  rw [getElem?_readAt, getElem?_readAt]
  split
  · exact h _ (by omega) (by omega)
  · rfl

theorem readAt_writeAt_self (bs : List UInt8) (h : off ≤ f.length) :
    readAt (writeAt f off bs) off bs.length = bs := by
  apply ext_getElem?
  intro i
  rw [getElem?_readAt, getElem?_writeAt bs h]
  by_cases hi : i < bs.length
  · rw [if_pos hi, if_pos (by omega), Nat.add_sub_cancel_left]
  · rw [if_neg hi, getElem?_eq_none (by omega)]

theorem writeAt_writeAt {cs : List UInt8} (h : off ≤ f.length) (hlen : bs.length = cs.length) :
    writeAt (writeAt f off bs) off cs = writeAt f off cs := by
  have hoff : off ≤ (writeAt f off bs).length := by
    rw [length_writeAt bs h]
    omega
  apply ext_getElem?
  intro i
  rw [getElem?_writeAt cs hoff, getElem?_writeAt cs h, getElem?_writeAt bs h, hlen]
  split_ifs <;> rfl

theorem writeAt_readAt (h : off + len ≤ f.length) :
    writeAt f off (readAt f off len) = f := by
  have hlen : (readAt f off len).length = len := by
    rw [readAt, length_take, length_drop]
    omega
  apply ext_getElem?
  intro i
  rw [getElem?_writeAt _ (by omega), hlen]
  split_ifs with hi
  · rw [getElem?_readAt, if_pos (by omega), Nat.add_sub_cancel' hi.1]
  · rfl
theorem readAt_writeAt (f bs : List UInt8) (off : Nat) : readAt (writeAt f off bs) off bs.length = bs := by
  have hfront : (f.take off ++ List.replicate (off - f.length) 0).length = off := by
    rw [length_append, length_take, length_replicate]
    omega
  rw [readAt, writeAt, append_assoc, drop_left' hfront, take_left]

theorem readAt_writeAt_disjoint {p : Nat} (hin : p + len ≤ f.length)
    (hd : p + len ≤ off ∨ off + bs.length ≤ p) : readAt (writeAt f off bs) p len = readAt f p len := by
  apply readAt_congr
  intro i hlo hhi
  by_cases hoff : off ≤ f.length
  · rw [getElem?_writeAt bs hoff, if_neg (by omega)]
  · have htake : f.take off = f := take_of_length_le (by omega)
    rw [writeAt, htake, append_assoc, append_assoc, getElem?_append_left (by omega)]

theorem readAt_append_left {g : List UInt8} {p : Nat} (h : p + len ≤ f.length) :
    readAt (f ++ g) p len = readAt f p len := by
  apply readAt_congr
  intro i _ hhi
  exact getElem?_append_left (by omega)

theorem readAt_append_right (f g : List UInt8) : readAt (f ++ g) f.length g.length = g := by
  simp [readAt]

theorem readAt_flatten {parts : List (List UInt8)} {i : Nat} {part : List UInt8}
    (h : parts[i]? = some part) : readAt parts.flatten (parts.take i).flatten.length part.length = part := by
  obtain ⟨hi, rfl⟩ := List.getElem?_eq_some_iff.mp h
  have hsplit : parts.flatten = (parts.take i).flatten ++ (parts[i] ++ (parts.drop (i + 1)).flatten) := by
    rw [← flatten_cons, getElem_cons_drop, ← flatten_append, take_append_drop]
  rw [readAt, hsplit, drop_left, take_left]

/-- `f'` is `f` with the window of the write (`off`, `bs`) holding anything; a write that extends
the file may have extended it by any part of its length. -/
structure Torn (f : List UInt8) (off : Nat) (bs f' : List UInt8) : Prop where
  length_ge : f.length ≤ f'.length
  length_le : f'.length ≤ max f.length (off + bs.length)
  outside : ∀ i, i < f.length → i < off ∨ off + bs.length ≤ i → f'[i]? = f[i]?

theorem Torn.readAt_disjoint {f' : List UInt8} {p : Nat} (h : Torn f off bs f') (hin : p + len ≤ f.length)
    (hd : p + len ≤ off ∨ off + bs.length ≤ p) :
    readAt f' p len = readAt f p len := by
  apply readAt_congr
  intro i hlo hhi
  exact h.outside i (by omega) (by omega)

theorem torn_writeAt {torn : List UInt8} (hin : off + bs.length ≤ f.length) (hlen : torn.length = bs.length) :
    Torn f off bs (writeAt f off torn) := by
  have hl := @length_writeAt f off torn (by omega)
  refine ⟨by omega, by omega, ?_⟩
  intro i _ hout
  rw [getElem?_writeAt torn (by omega), if_neg (by omega)]

inductive DiskStep where
  | write (off : Nat) (bs : List UInt8)
  | sync

/-- What a crash can leave when the writes are ordered by syncs: nothing done yet, the first write
in progress, or the first write made durable by the sync behind it and a crash later on. -/
inductive CrashOf : List UInt8 → List DiskStep → List UInt8 → Prop where
  | stopped (f : List UInt8) (steps : List DiskStep) : CrashOf f steps f
  | torn {f f' bs : List UInt8} {off : Nat} {steps : List DiskStep} :
      Torn f off bs f' → CrashOf f (.write off bs :: steps) f'
  | synced {f f' bs : List UInt8} {off : Nat} {steps : List DiskStep} :
      CrashOf (writeAt f off bs) steps f' → CrashOf f (.write off bs :: .sync :: steps) f'

def runSteps (f : List UInt8) : List DiskStep → List UInt8
  | [] => f
  | .write off bs :: steps => runSteps (writeAt f off bs) steps
  | .sync :: steps => runSteps f steps

end H2Database.Reasoning
