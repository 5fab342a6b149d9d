import H2Database.Bolt.PackStream
import H2Database.Reasoning.Reading

/-!
# Decoding any bytes

Whatever the bytes are, `decode` makes no access outside them.  What it answers takes at least one byte and
no more than there are, and is the same when more bytes follow.  But it reserves what a count announces
before it reads the first item, and nests as deep as the bytes say: without the room or the stack for that
the process is aborted.
-/

namespace H2Database.Bolt.PackValue

open Reasoning Sql Nat
open List hiding isEmpty_iff

/-! ## Reads -/

section

variable {α : Type}

theorem byteAt_bind (m : UInt8) (tail : List UInt8) (f : UInt8 → PackRead α) :
    ((byteAt (m :: tail) 0 : PackRead UInt8) >>= f) = f m := by
  rw [byteAt_zero]
  rfl

theorem exhausted_bind {β : Type} {x : PackRead α} (h : x.run = .error .exhausted) (f : α → PackRead β) :
    (x >>= f).run = .error .exhausted := by
  show (x.run >>= ExceptT.bindCont f) = _
  rw [h]
  rfl

theorem entered_bind [Memory] {level : Nat} (h : Memory.stack level = true) (m : UInt8) (tail : List UInt8)
    (e : H2Error) (f : UInt8 → PackRead α) :
    ((enterCall level : PackRead Unit) >>= fun _ =>
      if (m :: tail).isEmpty then throw e else (byteAt (m :: tail) 0 : PackRead UInt8) >>= f) = f m := by
  rw [enterCall, if_pos h]
  exact byteAt_bind m tail f

theorem restFrom_bind {buf : List UInt8} {a : Nat} (h : a ≤ buf.length) (f : List UInt8 → PackRead α) :
    ((restFrom buf a : PackRead {rest : List UInt8 // rest.length + a = buf.length}) >>=
      fun rest => f rest.1) = f (buf.drop a) := by
  rw [restFrom, dif_pos h]
  rfl

theorem numberAt_beBytes (m : UInt8) {w n : Nat} (h : n < 256 ^ w) (tail : List UInt8) (truncated : String) :
    numberAt (m :: (beBytes w n ++ tail)) w truncated = pure n := by
  have hlength : (beBytes w n ++ tail).length = w + tail.length := by
    rw [length_append, length_beBytes]
  have hslice : slice (m :: (beBytes w n ++ tail)) 1 (w + 1) = .ok (beBytes w n) := by
    rw [slice_cons (Nat.zero_le w) (by omega), drop_zero, Nat.sub_zero,
      take_left' (length_beBytes w n)]
  rw [numberAt, length_cons, if_neg (by omega), hslice]
  show (pure (fromBe (beBytes w n)) : PackRead Nat) = pure n
  rw [fromBe_beBytes_of_lt h]

theorem number_beBytes (m : UInt8) {w n : Nat} (h : n < 256 ^ w) (tail : List UInt8) (truncated : String)
    {f : Nat → PackValue} {v : PackValue} (hv : f n = v) :
    (do let n ← numberAt (m :: (beBytes w n ++ tail)) w truncated; pure (f n, w + 1)) = pure (v, w + 1) := by
  rw [numberAt_beBytes m h, pure_bind, hv]

end

section

variable {ample : Prop} (buf r : List UInt8)

/-- The process is aborted only where the memory is not ample. -/
def Spent (ample : Prop) (fault : Fault) : Prop := fault = .exhausted ∧ ¬ ample

theorem stable_byteAt {i : Nat} (h : i < buf.length) :
    Stable (Spent ample) (fun byte byte' => byte = byte' ∧ byte = buf.get ⟨i, h⟩)
      (byteAt buf i : PackRead UInt8) (byteAt (buf ++ r) i) := by
  have h' : i < (buf ++ r).length := by rw [length_append]; omega
  have heq : byteAt (buf ++ r) i = byteAt buf i := by
    rw [byteAt, byteAt, dif_pos h, dif_pos h']
    exact congrArg Except.ok (getElem_append_left h)
  rw [heq, byteAt, dif_pos h]
  exact Stable.pure ⟨rfl, rfl⟩

theorem stable_slice {a b : Nat} (hab : a ≤ b) (hb : b ≤ buf.length) :
    Stable (Spent ample) (fun bytes bytes' => bytes = bytes' ∧ bytes = (buf.take b).drop a)
      (slice buf a b : PackRead (List UInt8)) (slice (buf ++ r) a b) := by
  have hb' : b ≤ (buf ++ r).length := by rw [length_append]; omega
  rw [slice_of_le hab hb, slice_of_le hab hb', take_append_of_le_length hb]
  exact Stable.pure ⟨rfl, rfl⟩

theorem stable_restFrom {a : Nat} (h : a ≤ buf.length) :
    Stable (Spent ample) (fun rest rest' => rest'.1 = rest.1 ++ r ∧ rest.1 <:+ buf)
      (restFrom buf a : PackRead {rest : List UInt8 // rest.length + a = buf.length})
      (restFrom (buf ++ r) a) := by
  have h' : a ≤ (buf ++ r).length := by rw [length_append]; omega
  rw [restFrom, restFrom, dif_pos h, dif_pos h']
  apply Stable.pure
  exact ⟨drop_append_of_le_length h, drop_suffix a buf⟩

theorem stable_numberAt (w : Nat) (truncated : String) :
    Stable (Spent ample)
      (fun n n' => n = n' ∧ w + 1 ≤ buf.length ∧ n = fromBe ((buf.take (w + 1)).drop 1))
      (numberAt buf w truncated) (numberAt (buf ++ r) w truncated) := by
  apply Stable.guard
  · rw [length_append]
    omega
  · intro h
    apply Stable.bind (stable_slice buf r (by omega) (by omega))
    rintro bytes _ ⟨heq, hbytes⟩
    rw [← heq]
    exact Stable.pure ⟨rfl, by omega, congrArg fromBe hbytes⟩

/-! ## Contents

A result and the bytes that it takes are safe between two bounds if they do not depend on what follows. -/

def Within {α : Type} (lo hi : Nat) (p q : α × Nat) : Prop := p = q ∧ lo ≤ p.2 ∧ p.2 ≤ hi

theorem stable_decodeStringContent (len headerLen : Nat) :
    Stable (Spent ample) (Within headerLen (headerLen + buf.length)) (decodeStringContent buf len headerLen)
      (decodeStringContent (buf ++ r) len headerLen) := by
  apply Stable.guard
  · rw [length_append]
    omega
  · intro h
    apply Stable.bind (stable_slice buf r (Nat.zero_le _) (Nat.le_of_not_lt h))
    rintro bytes _ ⟨heq, _⟩
    rw [← heq]
    split
    · exact Stable.throw _
    · exact Stable.pure ⟨rfl, le_add_right _ _, by omega⟩

section

variable [Memory]

theorem stable_withCapacity {n : Nat} (h : ample → Memory.room n = true) :
    Stable (Spent ample) Eq (withCapacity n : PackRead Unit) (withCapacity n) := by
  unfold withCapacity
  by_cases hroom : Memory.room n = true
  · rw [if_pos hroom]
    exact Stable.pure rfl
  · rw [if_neg hroom]
    exact ⟨rfl, fun hample => hroom (h hample)⟩

theorem stable_enterCall {level : Nat} (h : ample → Memory.stack level = true) :
    Stable (Spent ample) Eq (enterCall level : PackRead Unit) (enterCall level) := by
  unfold enterCall
  by_cases hstack : Memory.stack level = true
  · rw [if_pos hstack]
    exact Stable.pure rfl
  · rw [if_neg hstack]
    exact ⟨rfl, fun hample => hstack (h hample)⟩

/-- No access outside these bytes, no result that takes more than them, none that depends on what follows. -/
def Safe (ample : Prop) (level : Nat) (buf r : List UInt8) : Prop :=
  Stable (Spent ample) (Within 1 buf.length) (decode level buf) (decode level (buf ++ r))

section

variable {level : Nat} (hsafe : ∀ rest : List UInt8, rest <:+ buf → Safe ample (level + 1) rest r)
include hsafe

theorem stable_decodeItems (count : Nat) {offset : Nat} (h : offset ≤ buf.length) :
    Stable (Spent ample) (Within offset buf.length) (decodeItems level buf offset count)
      (decodeItems level (buf ++ r) offset count) := by
  induction count generalizing offset with
  | zero =>
    rw [decodeItems, decodeItems]
    exact Stable.pure ⟨rfl, le_refl _, h⟩
  | succ count ih =>
    rw [decodeItems, decodeItems]
    apply Stable.bind (stable_restFrom buf r h)
    rintro rest rest' ⟨hrest, hsuffix⟩
    have hlength := rest.2
    rw [hrest]
    apply Stable.bind (hsafe rest.1 hsuffix)
    rintro ⟨item, consumed⟩ _ ⟨heq, _, hconsumed⟩
    rw [← heq]
    dsimp only at hconsumed
    apply Stable.bind (ih (by omega))
    rintro ⟨items, next⟩ _ ⟨heq, hnext, hbound⟩
    rw [← heq]
    dsimp only at hnext
    exact Stable.pure ⟨rfl, by dsimp only; omega, hbound⟩

theorem stable_decodeEntries (count : Nat) (entries : List (String × PackValue)) {offset : Nat}
    (h : offset ≤ buf.length) :
    Stable (Spent ample) (Within offset buf.length) (decodeEntries level buf entries offset count)
      (decodeEntries level (buf ++ r) entries offset count) := by
  induction count generalizing offset entries with
  | zero =>
    rw [decodeEntries, decodeEntries]
    exact Stable.pure ⟨rfl, le_refl _, h⟩
  | succ count ih =>
    rw [decodeEntries, decodeEntries]
    apply Stable.bind (stable_restFrom buf r h)
    rintro rest rest' ⟨hrest, hsuffix⟩
    have hlength := rest.2
    rw [hrest]
    apply Stable.bind (hsafe rest.1 hsuffix)
    rintro ⟨keyVal, kConsumed⟩ _ ⟨heq, _, hkConsumed⟩
    rw [← heq]
    dsimp only at hkConsumed
    have hkey : Stable (Spent ample) Eq (mapKey keyVal) (mapKey keyVal) := by
      cases keyVal with
      | string s => exact Stable.pure rfl
      | _ => exact Stable.throw _
    apply Stable.bind hkey
    intro key _ hkeys
    rw [← hkeys]
    apply Stable.bind (stable_restFrom buf r (by omega))
    rintro valRest valRest' ⟨hvalRest, hvalSuffix⟩
    have hvalLength := valRest.2
    rw [hvalRest]
    apply Stable.bind (hsafe valRest.1 hvalSuffix)
    rintro ⟨val, vConsumed⟩ _ ⟨heq, _, hvConsumed⟩
    rw [← heq]
    dsimp only at hvConsumed
    apply Stable.mono (ih _ (by omega))
    rintro p q ⟨hpq, hlow, hhigh⟩
    exact ⟨hpq, by omega, hhigh⟩

variable {count : Nat} (hroom : ample → Memory.room count = true) (headerLen : Nat)
include hroom

theorem stable_decodeListContent :
    Stable (Spent ample) (Within headerLen (headerLen + buf.length))
      (decodeListContent level buf count headerLen) (decodeListContent level (buf ++ r) count headerLen) := by
  rw [decodeListContent, decodeListContent]
  apply Stable.bind (stable_withCapacity hroom)
  intro _ _ _
  apply Stable.bind (stable_decodeItems buf r hsafe count (zero_le _))
  rintro ⟨items, offset⟩ _ ⟨heq, _, hoffset⟩
  rw [← heq]
  dsimp only at hoffset
  exact Stable.pure ⟨rfl, le_add_right _ _, by dsimp only; omega⟩

theorem stable_decodeMapContent :
    Stable (Spent ample) (Within headerLen (headerLen + buf.length))
      (decodeMapContent level buf count headerLen) (decodeMapContent level (buf ++ r) count headerLen) := by
  rw [decodeMapContent, decodeMapContent]
  apply Stable.bind (stable_withCapacity hroom)
  intro _ _ _
  apply Stable.bind (stable_decodeEntries buf r hsafe count [] (zero_le _))
  rintro ⟨entries, offset⟩ _ ⟨heq, _, hoffset⟩
  rw [← heq]
  dsimp only at hoffset
  exact Stable.pure ⟨rfl, le_add_right _ _, by dsimp only; omega⟩

theorem stable_decodeStructContent :
    Stable (Spent ample) (Within headerLen (headerLen + buf.length))
      (decodeStructContent level buf count headerLen)
      (decodeStructContent level (buf ++ r) count headerLen) := by
  rw [decodeStructContent, decodeStructContent]
  apply Stable.guard
  · intro h
    rw [List.isEmpty_iff] at h ⊢
    exact (append_eq_nil_iff.mp h).1
  · intro h
    have hpos : 0 < buf.length := length_pos_iff.mpr fun hnil => h (List.isEmpty_iff.mpr hnil)
    apply Stable.bind (stable_byteAt buf r hpos)
    rintro tag _ ⟨htag, _⟩
    rw [← htag]
    apply Stable.bind (stable_withCapacity hroom)
    intro _ _ _
    apply Stable.bind (stable_decodeItems buf r hsafe count hpos)
    rintro ⟨fields, offset⟩ _ ⟨heq, _, hoffset⟩
    rw [← heq]
    dsimp only at hoffset
    exact Stable.pure ⟨rfl, le_add_right _ _, by dsimp only; omega⟩

end

end

end

/-! ## What the bytes announce -/

/-- How many bytes behind the marker of a list, a map or a structure are its count. -/
def countWidths : List (Nat × Nat) :=
  [(0xD4, 1), (0xD5, 2), (0xD6, 4), (0xD8, 1), (0xD9, 2), (0xDA, 4), (0xDC, 1), (0xDD, 2)]

/-- A count that stands behind such a marker, or in one, wherever among the bytes that is. -/
inductive Announces : List UInt8 → Nat → Prop where
  | tiny {marker : UInt8} {rest : List UInt8} (h : 0x90 ≤ marker.toNat ∧ marker.toNat ≤ 0xBF) :
      Announces (marker :: rest) (marker.toNat &&& 0x0F)
  | sized {marker : UInt8} {rest : List UInt8} {w : Nat} (h : (marker.toNat, w) ∈ countWidths)
      (hw : w ≤ rest.length) : Announces (marker :: rest) (fromBe (rest.take w))
  | later {marker : UInt8} {rest : List UInt8} {n : Nat} (h : Announces rest n) :
      Announces (marker :: rest) n

namespace Announces

theorem of_suffix {rest buf : List UInt8} {n : Nat} (h : Announces rest n) (hsuffix : rest <:+ buf) :
    Announces buf n := by
  induction buf with
  | nil =>
    rw [suffix_nil] at hsuffix
    exact hsuffix ▸ h
  | cons marker tail ih =>
    rcases suffix_cons_iff.mp hsuffix with heq | hsuffix
    · exact heq ▸ h
    · exact .later (ih hsuffix)

theorem lt {buf : List UInt8} {n : Nat} (h : Announces buf n) : n < 2 ^ 32 := by
  induction h with
  | tiny h => exact lt_of_le_of_lt and_le_right (by decide)
  | @sized marker rest w h hw =>
    have hwidth : ∀ p ∈ countWidths, p.2 ≤ 4 := by decide
    have hlength : (rest.take w).reverse.length = w := by rw [length_reverse, length_take_of_le hw]
    calc fromBe (rest.take w) < 256 ^ (rest.take w).reverse.length := fromLe_lt _
      _ = 256 ^ w := by rw [hlength]
      _ ≤ 256 ^ 4 := Nat.pow_le_pow_right (by decide) (hwidth _ h)
  | later _ ih => exact ih

variable {buf : List UInt8} {h : 0 < buf.length}

theorem of_tiny (hm : 0x90 ≤ (buf.get ⟨0, h⟩).toNat ∧ (buf.get ⟨0, h⟩).toNat ≤ 0xBF) :
    Announces buf ((buf.get ⟨0, h⟩).toNat &&& 0x0F) := by
  cases buf with
  | nil => cases h
  | cons marker rest => exact .tiny hm

theorem of_sized {w : Nat} (hm : ((buf.get ⟨0, h⟩).toNat, w) ∈ countWidths) (hw : w + 1 ≤ buf.length) :
    Announces buf (fromBe ((buf.take (w + 1)).drop 1)) := by
  cases buf with
  | nil => cases h
  | cons marker rest => exact .sized hm (le_of_succ_le_succ hw)

end Announces

section

variable {ample : Prop} (buf r : List UInt8) {content : List UInt8 → Nat → PackRead (PackValue × Nat)}
    {a : Nat}

theorem stable_content {n : Nat} (ha : 1 ≤ a) (h : a ≤ buf.length)
    (hcontent : ∀ rest : List UInt8, rest <:+ buf → rest.length < buf.length →
      Stable (Spent ample) (Within a (a + rest.length)) (content rest n) (content (rest ++ r) n)) :
    Stable (Spent ample) (Within 1 buf.length) (do let rest ← restFrom buf a; content rest.1 n : PackRead _)
      (do let rest ← restFrom (buf ++ r) a; content rest.1 n : PackRead _) := by
  apply Stable.bind (stable_restFrom buf r h)
  rintro rest rest' ⟨hrest, hsuffix⟩
  have hlength := rest.2
  rw [hrest]
  apply Stable.mono (hcontent rest.1 hsuffix (by omega))
  rintro p q ⟨hpq, hlow, hhigh⟩
  exact ⟨hpq, by omega, by omega⟩

theorem stable_sizedContent (w : Nat) (truncated : String)
    (hcontent : ∀ n, w + 1 ≤ buf.length → n = fromBe ((buf.take (w + 1)).drop 1) →
      ∀ rest : List UInt8, rest <:+ buf → rest.length < buf.length →
        Stable (Spent ample) (Within (w + 1) (w + 1 + rest.length)) (content rest n)
          (content (rest ++ r) n)) :
    Stable (Spent ample) (Within 1 buf.length)
      (do let n ← numberAt buf w truncated; let rest ← restFrom buf (w + 1); content rest.1 n)
      (do
        let n ← numberAt (buf ++ r) w truncated
        let rest ← restFrom (buf ++ r) (w + 1)
        content rest.1 n) := by
  apply Stable.bind (stable_numberAt buf r w truncated)
  rintro n _ ⟨hn, hw, hnumber⟩
  rw [← hn]
  exact stable_content buf r (le_add_left _ _) hw (hcontent n hw hnumber)

theorem stable_number (w : Nat) (truncated : String) (f : Nat → PackValue) :
    Stable (Spent ample) (Within 1 buf.length) (do let n ← numberAt buf w truncated; pure (f n, w + 1))
      (do let n ← numberAt (buf ++ r) w truncated; pure (f n, w + 1)) := by
  apply Stable.bind (stable_numberAt buf r w truncated)
  rintro n _ ⟨hn, hw, _⟩
  rw [← hn]
  exact Stable.pure ⟨rfl, le_add_left _ _, hw⟩

end

section

variable [Memory]

/-- Room for every count that the bytes announce, and stack for calls that nest as deep as they are long. -/
def Afforded (buf : List UInt8) : Prop :=
  (∀ n, Announces buf n → Memory.room n = true) ∧ ∀ level ≤ buf.length, Memory.stack level = true

variable {whole : List UInt8}

variable {level : Nat} {buf : List UInt8}

theorem safe_step (r : List UInt8) (hsuffix : buf <:+ whole) (hlevel : level + buf.length ≤ whole.length)
    (hsafe : ∀ rest : List UInt8, rest <:+ buf → rest.length < buf.length →
      Safe (Afforded whole) (level + 1) rest r) :
    Safe (Afforded whole) level buf r := by
  have hnested (rest : List UInt8) (hrest : rest <:+ buf) (hlt : rest.length < buf.length)
      (inner : List UInt8) (hinner : inner <:+ rest) : Safe (Afforded whole) (level + 1) inner r :=
    hsafe inner (hinner.trans hrest) (lt_of_le_of_lt hinner.length_le hlt)
  have hroom {n : Nat} (h : Announces buf n) (hwhole : Afforded whole) : Memory.room n = true :=
    hwhole.1 n (h.of_suffix hsuffix)
  have hstring (a n : Nat) (rest : List UInt8) (_ : rest <:+ buf) (_ : rest.length < buf.length) :=
    @stable_decodeStringContent (Afforded whole) rest r n a
  have hlist (a : Nat) {n : Nat} (hn : Announces buf n) (rest : List UInt8) (hrest : rest <:+ buf)
      (hlt : rest.length < buf.length) :=
    stable_decodeListContent rest r (hnested rest hrest hlt) (hroom hn) a
  have hmap (a : Nat) {n : Nat} (hn : Announces buf n) (rest : List UInt8) (hrest : rest <:+ buf)
      (hlt : rest.length < buf.length) :=
    stable_decodeMapContent rest r (hnested rest hrest hlt) (hroom hn) a
  have hstruct (a : Nat) {n : Nat} (hn : Announces buf n) (rest : List UInt8) (hrest : rest <:+ buf)
      (hlt : rest.length < buf.length) :=
    stable_decodeStructContent rest r (hnested rest hrest hlt) (hroom hn) a
  rw [Safe, decode, decode]
  apply Stable.bind (stable_enterCall fun hwhole => hwhole.2 level (by omega))
  intro _ _ _
  apply Stable.guard
  · intro h
    rw [List.isEmpty_iff] at h ⊢
    exact (append_eq_nil_iff.mp h).1
  · intro h
    have hpos : 1 ≤ buf.length := length_pos_iff.mpr fun hnil => h (List.isEmpty_iff.mpr hnil)
    have hbyte {v : PackValue} :
        Stable (Spent (Afforded whole)) (Within 1 buf.length) (pure (v, 1) : PackRead _) (pure (v, 1)) :=
      Stable.pure ⟨rfl, le_refl _, hpos⟩
    apply Stable.bind (stable_byteAt buf r hpos)
    rintro marker _ ⟨hmarker, hfirst⟩
    rw [← hmarker]
    dsimp only
    have htiny (h : 0x90 ≤ marker.toNat ∧ marker.toNat ≤ 0xBF) : Announces buf (marker.toNat &&& 0x0F) := by
      rw [hfirst] at h ⊢
      exact .of_tiny h
    have hsized (t w : Nat) (ht : (t, w) ∈ countWidths) (h : marker.toNat = t) (n : Nat)
        (hw : w + 1 ≤ buf.length) (hn : n = fromBe ((buf.take (w + 1)).drop 1)) : Announces buf n := by
      rw [← h, hfirst] at ht
      exact hn ▸ .of_sized ht hw
    -- the arms in the order of the markers
    apply Stable.ite fun _ => hbyte
    apply Stable.ite fun _ => hbyte
    apply Stable.ite fun _ => hbyte
    apply Stable.ite fun _ => stable_number buf r 8 _ fun n => .float (UInt64.ofNat n)
    apply Stable.ite fun _ => hbyte
    apply Stable.ite fun _ => hbyte
    apply Stable.ite fun _ => stable_number buf r 1 _ fun n => .integer (UInt8.ofNat n).toInt8.toInt64
    apply Stable.ite fun _ => stable_number buf r 2 _ fun n => .integer (UInt16.ofNat n).toInt16.toInt64
    apply Stable.ite fun _ => stable_number buf r 4 _ fun n => .integer (UInt32.ofNat n).toInt32.toInt64
    apply Stable.ite fun _ => stable_number buf r 8 _ fun n => .integer (UInt64.ofNat n).toInt64
    apply Stable.ite fun _ => stable_content buf r (le_refl _) hpos (hstring 1 _)
    apply Stable.ite fun _ => stable_sizedContent buf r 1 _ fun n _ _ => hstring 2 n
    apply Stable.ite fun _ => stable_sizedContent buf r 2 _ fun n _ _ => hstring 3 n
    apply Stable.ite fun _ => stable_sizedContent buf r 4 _ fun n _ _ => hstring 5 n
    apply Stable.ite fun h => stable_content buf r (le_refl _) hpos (hlist 1 (htiny (by omega)))
    apply Stable.ite fun h => stable_sizedContent buf r 1 _ fun n hw hn =>
      hlist 2 (hsized 0xD4 1 (by decide) h n hw hn)
    apply Stable.ite fun h => stable_sizedContent buf r 2 _ fun n hw hn =>
      hlist 3 (hsized 0xD5 2 (by decide) h n hw hn)
    apply Stable.ite fun h => stable_sizedContent buf r 4 _ fun n hw hn =>
      hlist 5 (hsized 0xD6 4 (by decide) h n hw hn)
    apply Stable.ite fun h => stable_content buf r (le_refl _) hpos (hmap 1 (htiny (by omega)))
    apply Stable.ite fun h => stable_sizedContent buf r 1 _ fun n hw hn =>
      hmap 2 (hsized 0xD8 1 (by decide) h n hw hn)
    apply Stable.ite fun h => stable_sizedContent buf r 2 _ fun n hw hn =>
      hmap 3 (hsized 0xD9 2 (by decide) h n hw hn)
    apply Stable.ite fun h => stable_sizedContent buf r 4 _ fun n hw hn =>
      hmap 5 (hsized 0xDA 4 (by decide) h n hw hn)
    apply Stable.ite fun h => stable_content buf r (le_refl _) hpos (hstruct 1 (htiny (by omega)))
    apply Stable.ite fun h => stable_sizedContent buf r 1 _ fun n hw hn =>
      hstruct 2 (hsized 0xDC 1 (by decide) h n hw hn)
    apply Stable.ite fun h => stable_sizedContent buf r 2 _ fun n hw hn =>
      hstruct 3 (hsized 0xDD 2 (by decide) h n hw hn)
    exact Stable.throw _

theorem safe_all (r : List UInt8) (n : Nat) (hn : buf.length < n)
    (hsuffix : buf <:+ whole) (hlevel : level + buf.length ≤ whole.length) :
    Safe (Afforded whole) level buf r := by
  induction n generalizing level buf with
  | zero => exact absurd hn (not_lt_zero _)
  | succ n ih =>
    apply safe_step r hsuffix hlevel
    intro rest hrest hlt
    exact ih (by omega) (hrest.trans hsuffix) (by omega)

/-- `decode` answers.  A result takes at least one byte and no more than there are, and is the same whatever
follows. -/
def Answers (buf : List UInt8) : Prop :=
  ∃ answer : H2Result (PackValue × Nat), (decode 0 buf).run = .ok answer ∧
    ∀ v n, answer = .ok (v, n) → 1 ≤ n ∧ n ≤ buf.length ∧ ∀ r, (decode 0 (buf ++ r)).run = .ok (.ok (v, n))

theorem exhausted_or_answers (buf : List UInt8) :
    (decode 0 buf).run = .error .exhausted ∧ ¬ Afforded buf ∨ Answers buf := by
  have hsafe (r : List UInt8) : Safe (Afforded buf) 0 buf r :=
    safe_all r (buf.length + 1) (lt_succ_self _) suffix_rfl (le_of_eq (zero_add _))
  rcases (hsafe []).answers with ⟨fault, hrun, hfault, hmemory⟩ | ⟨answer, hrun, _⟩
  · exact .inl ⟨hfault ▸ hrun, hmemory⟩
  · refine .inr ⟨answer, hrun, fun v n hanswer => ?_⟩
    have hext (r : List UInt8) :
        (decode 0 (buf ++ r)).run = .ok (.ok (v, n)) ∧ 1 ≤ n ∧ n ≤ buf.length := by
      rcases (hsafe r).answers with ⟨fault, hrun', _⟩ | ⟨answer', hrun', hresult⟩
      · rw [hrun] at hrun'
        cases hrun'
      · rw [hrun] at hrun'
        cases hrun'
        obtain ⟨q, hq, heq, hlow, hhigh⟩ := hresult (v, n) hanswer
        rw [hq, ← heq]
        exact ⟨rfl, hlow, hhigh⟩
    exact ⟨(hext []).2.1, (hext []).2.2, fun r => (hext r).1⟩

/-! ## Bytes for which there is no memory -/

theorem not_answers (h : (decode 0 buf).run = .error .exhausted) : ¬ Answers buf := by
  rintro ⟨answer, hrun, _⟩
  rw [h] at hrun
  cases hrun

theorem exhausted_of_stack (h : Memory.stack level = false) (buf : List UInt8) :
    (decode level buf).run = .error .exhausted := by
  rw [decode, enterCall, if_neg (by rw [h]; decide)]
  rfl

theorem exhausted_of_room {level n : Nat} (h : Memory.room n = false) (buf : List UInt8) (headerLen : Nat) :
    (decodeListContent level buf n headerLen).run = .error .exhausted := by
  rw [decodeListContent, withCapacity, if_neg (by rw [h]; decide)]
  rfl

theorem decode_list32 {level n : Nat} (h : Memory.stack level = true) (hn : n < 2 ^ 32) :
    decode level (0xD6 :: beBytes 4 n) = decodeListContent level [] n 5 := by
  have hnumber := @numberAt_beBytes 0xD6 4 n (by omega) [] "Truncated List32"
  have hrest := @restFrom_bind _ (0xD6 :: beBytes 4 n) 5 (by rw [length_cons, length_beBytes])
    fun rest => decodeListContent level rest n 5
  rw [append_nil] at hnumber
  rw [drop_succ_cons, drop_of_length_le (by rw [length_beBytes])] at hrest
  rw [decode, entered_bind h]
  apply (congrArg (· >>= _) hnumber).trans
  exact hrest

theorem decode_list1 (h : Memory.stack level = true) (rest : List UInt8) :
    decode level (0x91 :: rest) = decodeListContent level rest 1 1 := by
  rw [decode, entered_bind h]
  exact @restFrom_bind _ (0x91 :: rest) 1 (succ_pos _) fun rest => decodeListContent level rest 1 1

theorem exhausted_of_nested {level k : Nat} (h : Memory.stack (level + k) = false) :
    (decode level (List.replicate k 0x91)).run = .error .exhausted := by
  induction k generalizing level with
  | zero => exact exhausted_of_stack h _
  | succ k ih =>
    cases hstack : Memory.stack level with
    | false => exact exhausted_of_stack hstack _
    | true =>
      have hdeeper : Memory.stack (level + 1 + k) = false := by
        rw [← h]
        congr 1
        omega
      have hinner := ih hdeeper
      rw [replicate_succ, decode_list1 hstack]
      cases hroom : Memory.room 1 with
      | false => exact exhausted_of_room hroom _ _
      | true =>
        have hitems : (decodeItems level (List.replicate k 0x91) 0 1).run = .error .exhausted := by
          rw [decodeItems]
          apply (congrArg ExceptT.run (restFrom_bind (zero_le _) fun rest =>
            decode (level + 1) rest >>= _)).trans
          exact exhausted_bind hinner _
        rw [decodeListContent, withCapacity, if_pos hroom]
        exact exhausted_bind hitems _

/-- Without an access outside the bytes `decode` answers or the process is aborted, and that only where the
bytes announce a count that has no room, or may nest too deep.  It answers whatever the bytes are exactly
when every count of four bytes has room and the stack has no end. -/
theorem decode_safe_iff :
    (∀ buf, (decode 0 buf).run = .error .exhausted ∧ ¬ Afforded buf ∨ Answers buf) ∧
      ((∀ buf, Answers buf) ↔
        (∀ n < 2 ^ 32, Memory.room n = true) ∧ ∀ level, Memory.stack level = true) := by
  refine ⟨exhausted_or_answers, fun h => ⟨fun n hn => ?_, fun level => ?_⟩, fun h buf => ?_⟩
  · by_contra hroom
    apply not_answers _ (h (0xD6 :: beBytes 4 n))
    cases hstack : Memory.stack 0 with
    | false => exact exhausted_of_stack hstack _
    | true =>
      rw [decode_list32 hstack hn]
      exact exhausted_of_room (Bool.eq_false_of_not_eq_true hroom) _ _
  · by_contra hstack
    apply not_answers _ (h (List.replicate level 0x91))
    apply exhausted_of_nested
    rw [zero_add]
    exact Bool.eq_false_of_not_eq_true hstack
  · rcases exhausted_or_answers buf with ⟨-, hmemory⟩ | hanswers
    · exact absurd ⟨fun n hn => h.1 n hn.lt, fun level _ => h.2 level⟩ hmemory
    · exact hanswers

end

/-- A memory of a million values, and a stack of a thousand calls. -/
@[reducible] def bounded : Memory := ⟨fun n => n ≤ 1000000, fun level => level ≤ 1000⟩

/-- Five bytes that announce a list of `2 ^ 32 - 1` items. -/
theorem hugeList_exhausted :
    (@decode bounded 0 [0xD6, 0xFF, 0xFF, 0xFF, 0xFF]).run = .error .exhausted ∧
      ¬ ∀ buf, @Answers bounded buf := by
  have hrun : (@decode bounded 0 [0xD6, 0xFF, 0xFF, 0xFF, 0xFF]).run = .error .exhausted := by
    have hlist := @decode_list32 bounded 0 (2 ^ 32 - 1) (by decide) (by decide)
    rw [show beBytes 4 (2 ^ 32 - 1) = [0xFF, 0xFF, 0xFF, 0xFF] by decide] at hlist
    rw [hlist]
    exact @exhausted_of_room bounded _ _ (by decide) _ _
  exact ⟨hrun, fun h => @not_answers bounded _ hrun (h _)⟩

end H2Database.Bolt.PackValue
