import H2Database.Mvstore.BufferPool.Transparent

/-!
# Calls of the buffer pool that fail

`fetch_page` and `new_page` take their victim out of the clock before they write it back and read into it,
and a call that fails behind that point does not give the frame back.  `Intact` is what a failed call should
leave; it does so exactly when the clock had nothing to offer.
-/

namespace H2Database.Mvstore

open Reasoning List Nat

/-! ## Turns of the clock -/

namespace ClockReplacer

theorem offers_sweep (n : Nat) (r : ClockReplacer) (g : Nat) :
    (sweep n r).2.Offers g ↔ r.Offers g ∧ (sweep n r).1 ≠ some g := by
  induction n generalizing r with
  | zero => simp [sweep]
  | succ n ih =>
    rw [sweep]
    split_ifs with hin href
    · exact ih _
    · unfold Offers
      by_cases hg : r.clockHand = g
      · simp [hg, getElem?_set]
      · simp [hg, getElem?_set_ne]
    · exact ih _

theorem hand_sweep (n : Nat) {r : ClockReplacer} (h : r.clockHand < r.inReplacer.length) :
    (sweep n r).2.clockHand < (sweep n r).2.inReplacer.length := by
  induction n generalizing r with
  | zero => exact h
  | succ n ih =>
    have hnext : (r.clockHand + 1) % r.inReplacer.length < r.inReplacer.length :=
      mod_lt _ (by omega)
    rw [sweep]
    split_ifs
    · apply ih
      exact hnext
    · show _ < (r.inReplacer.set r.clockHand false).length
      rw [length_set]
      exact hnext
    · apply ih
      exact hnext

variable {r : ClockReplacer} {f : Nat}

theorem refBits_sweep (n : Nat) (h : r.refBits.getD f false = false) :
    (sweep n r).2.refBits.getD f false = false := by
  induction n generalizing r with
  | zero => exact h
  | succ n ih =>
    rw [sweep]
    split_ifs
    · apply ih
      show (r.refBits.set r.clockHand false).getD f false = false
      rw [← Bool.not_eq_true, getD_eq_true, getElem?_set]
      rw [← Bool.not_eq_true, getD_eq_true] at h
      split_ifs <;> simp [h]
    · exact h
    · apply ih
      exact h

theorem refBits_of_sweep_none {n k : Nat} (hoff : r.Offers f) (hhand : r.clockHand < r.inReplacer.length)
    (hf : f = (r.clockHand + k) % r.inReplacer.length) (hk : k < n) (hnone : (sweep n r).1 = none) :
    r.refBits.getD f false = true ∧ (sweep n r).2.refBits.getD f false = false := by
  -- induction on the frames still to pass, `k` of them before `f`
  induction n generalizing r k with
  | zero => omega
  | succ n ih =>
    have hnext : (r.clockHand + 1) % r.inReplacer.length < r.inReplacer.length :=
      mod_lt _ (by omega)
    cases k with
    | zero =>
      have hcurr : f = r.clockHand := by
        rw [hf, add_zero, mod_eq_of_lt hhand]
      subst hcurr
      rw [sweep, if_pos (getD_eq_true.mpr hoff)] at hnone ⊢
      split_ifs at hnone ⊢ with href
      · refine ⟨href, refBits_sweep n ?_⟩
        show (r.refBits.set r.clockHand false).getD r.clockHand false = false
        rw [← Bool.not_eq_true, getD_eq_true, getElem?_set]
        simp
    | succ k =>
      have hmod : f = ((r.clockHand + 1) % r.inReplacer.length + k) % r.inReplacer.length := by
        rw [hf, mod_add_mod]
        congr 1
        omega
      have hk' : k < n := by omega
      rw [sweep] at hnone ⊢
      split_ifs at hnone ⊢ with hin href
      · obtain ⟨hbit, hclear⟩ := ih (r := { r with
            clockHand := (r.clockHand + 1) % r.inReplacer.length
            refBits := r.refBits.set r.clockHand false }) hoff hnext hmod hk' hnone
        refine ⟨?_, hclear⟩
        rw [getD_eq_true] at hbit ⊢
        rw [getElem?_set] at hbit
        split_ifs at hbit
        · cases hbit
        · exact hbit
      · exact ih (r := { r with clockHand := (r.clockHand + 1) % r.inReplacer.length }) hoff hnext hmod
          hk' hnone

theorem sweep_add {m n : Nat} (h : (sweep (m + n) r).1 = none) :
    (sweep m r).1 = none ∧ sweep (m + n) r = sweep n (sweep m r).2 := by
  induction m generalizing r with
  | zero =>
    rw [zero_add]
    exact ⟨rfl, rfl⟩
  | succ m ih =>
    rw [succ_add, sweep] at h ⊢
    rw [sweep]
    split_ifs at h ⊢
    · exact ih h
    · exact ih h

theorem exists_turn {hand n : Nat} (hhand : hand < n) (hf : f < n) : ∃ k < n, f = (hand + k) % n := by
  by_cases hle : hand ≤ f
  · refine ⟨f - hand, by omega, ?_⟩
    rw [Nat.add_sub_cancel' hle, Nat.mod_eq_of_lt hf]
  · refine ⟨f + n - hand, by omega, ?_⟩
    have hsum : hand + (f + n - hand) = f + n := by omega
    rw [hsum, Nat.add_mod_right, Nat.mod_eq_of_lt hf]

theorem victim_eq_none_iff (hhand : 0 < r.inReplacer.length → r.clockHand < r.inReplacer.length) :
    r.victim.1 = none ↔ ∀ f, ¬ r.Offers f := by
  constructor
  · intro hnone f hoff
    have hf : f < r.inReplacer.length := (List.getElem?_eq_some_iff.mp hoff).1
    have hlt := hhand (by omega)
    have htwo : (sweep (r.inReplacer.length + r.inReplacer.length) r).1 = none := by
      rw [← mul_two]
      exact hnone
    obtain ⟨hfirst, hsecond⟩ := sweep_add htwo
    rw [hsecond] at htwo
    obtain ⟨k, hk, hturn⟩ := exists_turn hlt hf
    have hclear := (refBits_of_sweep_none hoff hlt hturn hk hfirst).2
    have hlen := (sweep_spec r.inReplacer.length r).1
    have hoff' : (sweep r.inReplacer.length r).2.Offers f :=
      (offers_sweep _ r f).mpr ⟨hoff, by rw [hfirst]; simp⟩
    have hlt' := hand_sweep r.inReplacer.length hlt
    obtain ⟨k', hk', hturn'⟩ := exists_turn hlt' (hlen.symm ▸ hf)
    rw [hlen] at hk'
    have hset := (refBits_of_sweep_none hoff' hlt' hturn' hk' htwo).1
    rw [hclear] at hset
    cases hset
  · intro hoff
    cases hvictim : r.victim with
    | mk v r' =>
      cases v with
      | none => rfl
      | some f => exact absurd ((victim_spec hvictim).2.2 f rfl).1 (hoff f)

theorem offers_pin_iff {g : Nat} : (r.pin f).Offers g ↔ g ≠ f ∧ r.Offers g := by
  refine ⟨offers_pin, fun h => ?_⟩
  unfold Offers pin
  rw [getElem?_set_ne h.1.symm]
  exact h.2

theorem offers_unpin_of_ne {g : Nat} (hg : g ≠ f) :
    (r.unpin f).Offers g ↔ r.Offers g := by
  unfold Offers unpin
  rw [getElem?_set_ne hg.symm]

theorem offers_unpin_self (hf : f < r.inReplacer.length) :
    (r.unpin f).Offers f := by
  unfold Offers unpin
  rw [getElem?_set_self hf]

instance (r : ClockReplacer) (f : Nat) : Decidable (r.Offers f) :=
  inferInstanceAs (Decidable (r.inReplacer[f]? = some true))

end ClockReplacer

namespace BufferPoolManager

def Usable (pool : BufferPoolManager) (f : Nat) : Prop :=
  (pool.frame f).pinCount ≠ 0 ∨ pool.replacer.Offers f

instance (pool : BufferPoolManager) (f : Nat) : Decidable (pool.Usable f) :=
  inferInstanceAs (Decidable ((pool.frame f).pinCount ≠ 0 ∨ pool.replacer.Offers f))

def usableFrames (pool : BufferPoolManager) : Nat :=
  (List.range pool.frames.length).countP fun f => decide (pool.Usable f)

/-- From one state to a later one no contents are lost and no frame: pages still cached are fetched with their
contents, dirty pages are still cached or on the disk, and every frame is pinned or evictable. -/
structure Intact (s s' : BufferPoolManager) : Prop where
  fetched : ∀ p f, s.pageTable.lookup p = some f → (s'.pageTable.lookup p).isSome = true →
    ∀ io, ∃ g pool, s'.fetchPage io p = (.ok g, pool) ∧ (pool.frame g).data = (s.frame f).data
  dirty : ∀ p f, s.pageTable.lookup p = some f → (s.frame f).isDirty = true →
    (∃ g, s'.pageTable.lookup p = some g ∧ (s'.frame g).isDirty = true ∧
      (s'.frame g).data = (s.frame f).data) ∨ s'.disk.page p = some (s.frame f).data
  frames : s'.usableFrames = s.frames.length

theorem usableFrames_eq_iff (pool : BufferPoolManager) :
    pool.usableFrames = pool.frames.length ↔ ∀ f < pool.frames.length, pool.Usable f := by
  have hcount := countP_eq_length (p := fun f => decide (pool.Usable f))
    (l := List.range pool.frames.length)
  rw [length_range] at hcount
  unfold usableFrames
  rw [hcount]
  simp only [mem_range, decide_eq_true_eq]

/-- A frame is either on offer or has a positive count of pins. -/
def Settled (pool : BufferPoolManager) (f : Nat) : Prop :=
  (pool.frame f).pinCount = 0 ∧ pool.replacer.Offers f ∨ 0 < (pool.frame f).pinCount ∧
    ¬ pool.replacer.Offers f

structure Balanced (pool : BufferPoolManager) : Prop where
  size : pool.replacer.inReplacer.length = pool.frames.length
  hand : 0 < pool.frames.length → pool.replacer.clockHand < pool.frames.length
  frames : ∀ f < pool.frames.length, pool.Settled f

variable {s s' : BufferPoolManager}

variable {f : Nat}

theorem Balanced.offers_lt (hs : s.Balanced) (h : s.replacer.Offers f) : f < s.frames.length := by
  rw [← hs.size]
  exact (List.getElem?_eq_some_iff.mp h).1

theorem Balanced.usableFrames_eq (hs : s.Balanced) : s.usableFrames = s.frames.length := by
  rw [usableFrames_eq_iff]
  intro f hf
  rcases hs.frames f hf with ⟨-, hoff⟩ | ⟨hpin, -⟩
  · exact .inr hoff
  · exact .inl hpin.ne'

theorem Balanced.victim_eq_none_iff (hs : s.Balanced) :
    s.replacer.victim.1 = none ↔ ∀ f, ¬ s.replacer.Offers f := by
  apply ClockReplacer.victim_eq_none_iff
  rw [hs.size]
  exact hs.hand

theorem Balanced.of_frames (hs : s.Balanced) (hlen : s'.frames.length = s.frames.length)
    (hsize : s'.replacer.inReplacer.length = s.replacer.inReplacer.length)
    (hhand : 0 < s.frames.length → s'.replacer.clockHand < s.frames.length)
    (hframes : ∀ f < s.frames.length,
      (s'.frame f).pinCount = (s.frame f).pinCount ∧ (s'.replacer.Offers f ↔ s.replacer.Offers f) ∨
        s'.Settled f) : s'.Balanced := by
  refine ⟨hsize.trans (hs.size.trans hlen.symm), ?_, fun f hf => ?_⟩
  · rw [hlen]
    exact hhand
  · rw [hlen] at hf
    rcases hframes f hf with ⟨hpin, hoff⟩ | hsettled
    · rw [Settled, hpin, hoff]
      exact hs.frames f hf
    · exact hsettled

theorem disk_unpinPage (s : BufferPoolManager) (p : Nat) (isDirty : Bool) :
    (s.unpinPage p isDirty).2.disk = s.disk := by
  unfold unpinPage
  split
  · rfl
  · simp only
    split <;> rfl

theorem frame_setFrame_cases (s : BufferPoolManager) (f : Nat) (fr : PageFrame) (g : Nat) :
    (s.setFrame f fr).frame g = s.frame g ∨ g = f ∧ (s.setFrame f fr).frame g = fr := by
  by_cases hf : f < s.frames.length
  · rw [frame_setFrame hf]
    by_cases hg : g = f
    · exact .inr ⟨hg, if_pos hg⟩
    · exact .inl (if_neg hg)
  · left
    unfold frame setFrame
    rw [set_eq_of_length_le (Nat.le_of_not_lt hf)]

variable {fr : PageFrame}

theorem pinCount_setFrame (hfr : fr.pinCount = (s.frame f).pinCount) (g : Nat) :
    ((s.setFrame f fr).frame g).pinCount = (s.frame g).pinCount := by
  rcases frame_setFrame_cases s f fr g with h | ⟨rfl, h⟩
  · rw [h]
  · rw [h, hfr]

theorem data_setFrame (hfr : fr.data = (s.frame f).data) (g : Nat) :
    ((s.setFrame f fr).frame g).data = (s.frame g).data := by
  rcases frame_setFrame_cases s f fr g with h | ⟨rfl, h⟩
  · rw [h]
  · rw [h, hfr]

theorem fetchPage_hit {p f : Nat} (hlook : s.pageTable.lookup p = some f) (io : DiskFaults) :
    ∃ pool, s.fetchPage io p = (.ok f, pool) ∧ (pool.frame f).data = (s.frame f).data := by
  rcases fetchPage_cases s io p with ⟨g, hg, heq⟩ | ⟨hnone, -⟩
  · obtain rfl : g = f := Option.some.inj (hg.symm.trans hlook)
    exact ⟨_, heq, @data_setFrame s g { s.frame g with pinCount := (s.frame g).pinCount + 1 } rfl g⟩
  · rw [hlook] at hnone
    cases hnone

structure SamePins (s s' : BufferPoolManager) : Prop where
  replacer : s'.replacer = s.replacer
  length : s'.frames.length = s.frames.length
  pinCount : ∀ g, (s'.frame g).pinCount = (s.frame g).pinCount

theorem SamePins.refl (s : BufferPoolManager) : SamePins s s := ⟨rfl, rfl, fun _ => rfl⟩

theorem SamePins.trans {s'' : BufferPoolManager} (h : SamePins s s') (h' : SamePins s' s'') :
    SamePins s s'' :=
  ⟨h'.replacer.trans h.replacer, h'.length.trans h.length, fun g => (h'.pinCount g).trans (h.pinCount g)⟩

theorem Balanced.of_samePins (hs : s.Balanced) (h : SamePins s s') : s'.Balanced := by
  apply hs.of_frames h.length
  · rw [h.replacer]
  · rw [h.replacer]
    exact hs.hand
  · intro f _
    rw [h.replacer]
    exact .inl ⟨h.pinCount f, Iff.rfl⟩

theorem samePins_setFrame (hfr : fr.pinCount = (s.frame f).pinCount) :
    SamePins s (s.setFrame f fr) :=
  ⟨rfl, length_setFrame s f fr, pinCount_setFrame hfr⟩

theorem samePins_evict {io : DiskFaults} (h : s.evict io f = .ok s') : SamePins s s' := by
  unfold evict at h
  simp only at h
  split at h
  · cases h
    exact SamePins.refl s
  · split at h
    · split at h
      · cases h
      · cases h
        have hset := @samePins_setFrame s f { s.frame f with isDirty := false } rfl
        exact ⟨hset.replacer, hset.length, hset.pinCount⟩
    · cases h
      exact ⟨rfl, rfl, fun _ => rfl⟩

theorem samePins_flushFrame (s : BufferPoolManager) (io : DiskFaults) (p f : Nat) :
    SamePins s (s.flushFrame io p f).2 := by
  unfold flushFrame
  simp only
  split
  · split
    · exact samePins_setFrame rfl
    · have hset := @samePins_setFrame s f { s.frame f with
        data := SlottedPage.computeAndWriteChecksum (s.frame f).data, isDirty := false } rfl
      exact ⟨hset.replacer, hset.length, hset.pinCount⟩
  · exact SamePins.refl s

theorem samePins_flushEntries (io : DiskFaults) (entries : List (Sigma fun _ : Nat => Nat))
    (s : BufferPoolManager) : SamePins s (s.flushEntries io entries).2 := by
  induction entries generalizing s with
  | nil => exact SamePins.refl s
  | cons e entries ih =>
    have hone := samePins_flushFrame s io e.1 e.2
    unfold flushEntries
    split
    · rename_i heq
      rw [heq] at hone
      exact hone
    · rename_i heq
      rw [heq] at hone
      exact hone.trans (ih _)

theorem samePins_flushPage (s : BufferPoolManager) (io : DiskFaults) (p : Nat) :
    SamePins s (s.flushPage io p).2 := by
  unfold flushPage
  split
  · exact SamePins.refl s
  · rename_i f _
    have hone := samePins_flushFrame s io p f
    split <;>
    · rename_i heq
      rw [heq] at hone
      exact hone

variable {r : ClockReplacer}

theorem Balanced.victim_spec (hs : s.Balanced) {v : Option Nat} (hvictim : s.replacer.victim = (v, r)) :
    r.inReplacer.length = s.replacer.inReplacer.length ∧
      (0 < s.frames.length → r.clockHand < s.frames.length) ∧
      ∀ g, r.Offers g ↔ s.replacer.Offers g ∧ v ≠ some g := by
  have hoff := ClockReplacer.offers_sweep (s.replacer.inReplacer.length * 2) s.replacer
  have hhand := @ClockReplacer.hand_sweep (s.replacer.inReplacer.length * 2) s.replacer
  have hsize := (ClockReplacer.victim_spec hvictim).1
  rw [← ClockReplacer.victim, hvictim] at hhand
  rw [← ClockReplacer.victim, hvictim] at hoff
  refine ⟨hsize, fun hpos => ?_, hoff⟩
  have hlt := hhand (by rw [hs.size]; exact hs.hand hpos)
  rw [hsize, hs.size] at hlt
  exact hlt

theorem Balanced.starved (hs : s.Balanced) (hvictim : s.replacer.victim = (none, r)) :
    Balanced { s with replacer := r } := by
  obtain ⟨hsize, hhand, hoff⟩ := hs.victim_spec hvictim
  apply hs.of_frames
  · rfl
  · exact hsize
  · exact hhand
  · intro f _
    refine .inl ⟨rfl, (hoff f).trans ?_⟩
    simp

theorem Balanced.hit (hs : s.Balanced) (f : Nat) :
    Balanced { s.setFrame f { s.frame f with pinCount := (s.frame f).pinCount + 1 } with
      replacer := s.replacer.pin f } := by
  apply hs.of_frames
  · exact length_setFrame s f _
  · exact length_set
  · exact hs.hand
  · intro g hg
    by_cases hgf : g = f
    · subst hgf
      have hframe := frame_setFrame hg { s.frame g with pinCount := (s.frame g).pinCount + 1 } g
      rw [if_pos rfl] at hframe
      have hpin : _ = (s.frame g).pinCount + 1 := congrArg PageFrame.pinCount hframe
      have hnonneg : 0 ≤ (s.frame g).pinCount := by
        rcases hs.frames g hg with ⟨hzero, -⟩ | ⟨hpos, -⟩
        · exact hzero.ge
        · exact hpos.le
      refine .inr (.inr ⟨?_, fun hoff => (ClockReplacer.offers_pin_iff.mp hoff).1 rfl⟩)
      exact (Int.lt_add_one_of_le hnonneg).trans_eq hpin.symm
    · left
      constructor
      · have hframe := frame_setFrame_cases s f { s.frame f with pinCount := (s.frame f).pinCount + 1 } g
        exact congrArg PageFrame.pinCount (hframe.resolve_right fun h => hgf h.1)
      · exact ClockReplacer.offers_pin_iff.trans (and_iff_right hgf)

theorem Balanced.install (hs : s.Balanced)
    (hvictim : s.replacer.victim = (some f, r)) {d : DiskManager} {io : DiskFaults}
    (hev : BufferPoolManager.evict { s with replacer := r, disk := d } io f = .ok s') (p : Nat)
    (data : Page8K) (isDirty : Bool) : Balanced (s'.install f p data isDirty) := by
  have hsame := samePins_evict hev
  obtain ⟨hsize, hhand, hoff⟩ := hs.victim_spec hvictim
  have hlen : s'.frames.length = s.frames.length := hsame.length
  have hreplacer : (s'.install f p data isDirty).replacer = r.pin f :=
    congrArg (fun c : ClockReplacer => c.pin f) hsame.replacer
  have hf : f < s'.frames.length := by
    rw [hlen]
    exact hs.offers_lt ((ClockReplacer.victim_spec hvictim).2.2 f rfl).1
  apply hs.of_frames
  · exact (length_setFrame s' f _).trans hlen
  · rw [hreplacer]
    exact length_set.trans hsize
  · rw [hreplacer]
    exact hhand
  · intro g hg
    rw [hreplacer, frame_install hf]
    by_cases hgf : g = f
    · right
      refine .inr ⟨?_, ?_⟩
      · rw [frame_install hf, if_pos hgf]
        exact Int.one_pos
      · rw [hreplacer, hgf]
        simp [ClockReplacer.offers_pin_iff]
    · left
      rw [if_neg hgf, ClockReplacer.offers_pin_iff, and_iff_right hgf]
      refine ⟨hsame.pinCount g, (hoff g).trans ?_⟩
      simp [Ne.symm hgf]

theorem Balanced.unpin (hs : s.Balanced) {p : Nat}
    (hpinned : ∀ f, s.pageTable.lookup p = some f → f < s.frames.length → 0 < (s.frame f).pinCount)
    (isDirty : Bool) :
    Balanced (s.unpinPage p isDirty).2 := by
  unfold unpinPage
  cases hlook : s.pageTable.lookup p with
  | none => exact hs
  | some f =>
    simp only
    have hpin : ∀ g < s.frames.length, ((s.setFrame f { s.frame f with
        isDirty := (s.frame f).isDirty || isDirty, pinCount := (s.frame f).pinCount - 1 }).frame g).pinCount =
          if g = f then (s.frame f).pinCount - 1 else (s.frame g).pinCount := by
      intro g hg
      by_cases hgf : g = f
      · subst hgf
        rw [frame_setFrame hg, if_pos rfl, if_pos rfl]
      · rw [if_neg hgf]
        exact congrArg PageFrame.pinCount
          ((frame_setFrame_cases s f _ g).resolve_right fun h => hgf h.1)
    split_ifs with hone
    · -- the last pin is gone, and the frame is on offer
      apply hs.of_frames
      · exact length_setFrame s f _
      · exact length_set
      · exact hs.hand
      · intro g hg
        by_cases hgf : g = f
        · subst hgf
          exact .inr (.inl ⟨(hpin g hg).trans (by rw [if_pos rfl, hone]; rfl),
            ClockReplacer.offers_unpin_self (hs.size ▸ hg)⟩)
        · have hkept := hpin g hg
          rw [if_neg hgf] at hkept
          exact .inl ⟨hkept, ClockReplacer.offers_unpin_of_ne hgf⟩
    · apply hs.of_frames
      · exact length_setFrame s f _
      · rfl
      · exact hs.hand
      · intro g hg
        have hkept := hpin g hg
        by_cases hgf : g = f
        · subst hgf
          rw [if_pos rfl] at hkept
          have hpos := hpinned g hlook hg
          have hnot : ¬ s.replacer.Offers g := by
            rcases hs.frames g hg with ⟨hzero, -⟩ | ⟨-, hnot⟩
            · exact absurd hzero hpos.ne'
            · exact hnot
          refine .inr (.inr ⟨?_, hnot⟩)
          rw [hkept]
          omega
        · rw [if_neg hgf] at hkept
          exact .inl ⟨hkept, Iff.rfl⟩

end BufferPoolManager

/-! ## Calls of a session -/

namespace PoolSession

open BufferPoolManager

/-- The call is or makes one of `fetch_page` or `new_page` that fails and leaves the pool so. -/
def Fails (s : PoolSession) (c : DiskFaults × PoolCall) (pool : BufferPoolManager) : Prop :=
  match c.2 with
  | .newPage pageType => ∃ e, s.pool.newPage c.1 pageType = (.error e, pool)
  | .fetchPage p => ∃ e, s.pool.fetchPage c.1 p = (.error e, pool)
  | .freePage p => ∃ e, s.pool.fetchPage c.1 p = (.error e, pool)
  | .vacuumPage p => ∃ e, s.pool.fetchPage c.1 p = (.error e, pool)
  | _ => False

def FailsIntact (s : PoolSession) (c : DiskFaults × PoolCall) : Prop :=
  ∀ pool, s.Fails c pool → Intact s.pool pool

def FailsStarved (s : PoolSession) (c : DiskFaults × PoolCall) : Prop :=
  (∃ pool, s.Fails c pool) → ∀ f, ¬ s.pool.replacer.Offers f

/-- The call wraps no counter of pins: a page that is given back has a pin, and one that is fetched from its
frame has fewer than `u32::MAX`. -/
def Unwrapped (s : PoolSession) (c : DiskFaults × PoolCall) : Prop :=
  match c.2 with
  | .unpinPage i _ => ∀ h, s.handles[i]? = some h → h.isOpen = true →
      ∀ f, s.pool.pageTable.lookup h.pageId = some f → 0 < (s.pool.frame f).pinCount
  | .fetchPage p | .freePage p | .vacuumPage p =>
    ∀ f, s.pool.pageTable.lookup p = some f → (s.pool.frame f).pinCount < 2 ^ 32 - 1
  | _ => True

theorem balanced_new (disk : DiskManager) (poolSize : Nat) :
    (BufferPoolManager.new disk poolSize).Balanced := by
  -- frames are put on offer one after the other
  have hclock : ∀ (n : Nat) (r : ClockReplacer), n ≤ r.inReplacer.length →
      let r' := (List.range n).foldl ClockReplacer.unpin r
      r'.inReplacer.length = r.inReplacer.length ∧ r'.clockHand = r.clockHand ∧ ∀ f < n, r'.Offers f := by
    intro n r hn
    induction n with
    | zero => exact ⟨rfl, rfl, fun f hf => absurd hf (not_lt_zero f)⟩
    | succ n ih =>
      obtain ⟨hlen, hhand, hoff⟩ := ih (le_of_succ_le hn)
      rw [range_succ, foldl_append]
      refine ⟨length_set.trans hlen, hhand, fun f hf => ?_⟩
      by_cases hfn : f = n
      · subst hfn
        apply ClockReplacer.offers_unpin_self
        rw [hlen]
        exact hn
      · apply (ClockReplacer.offers_unpin_of_ne hfn).mpr
        apply hoff
        omega
  have hreplicate : (ClockReplacer.new poolSize).inReplacer.length = poolSize := length_replicate
  have hframes : (BufferPoolManager.new disk poolSize).frames.length = poolSize := length_replicate
  obtain ⟨hlen, hhand, hoff⟩ := hclock poolSize (.new poolSize) hreplicate.ge
  refine ⟨?_, ?_, fun f hf => ?_⟩
  · rw [hframes]
    exact hlen.trans hreplicate
  · rw [hframes]
    intro hpos
    exact hhand.trans_lt hpos
  · rw [hframes] at hf
    have hpin : ((BufferPoolManager.new disk poolSize).frame f).pinCount = 0 := by
      unfold frame BufferPoolManager.new
      rw [getD_eq_getElem?_getD, getElem?_replicate, if_pos hf]
      rfl
    exact .inl ⟨hpin, hoff f hf⟩

variable {s : PoolSession} {c : DiskFaults × PoolCall} {pool : BufferPoolManager}

theorem Fails.outcome (h : s.Fails c pool) :
    (∃ r, s.pool.replacer.victim = (none, r) ∧ pool = { s.pool with replacer := r }) ∨
      ∃ f r, s.pool.replacer.victim = (some f, r) ∧ pool.replacer = r ∧
        pool.frames.length = s.pool.frames.length ∧ (pool.frame f).pinCount = (s.pool.frame f).pinCount := by
  have hfetch : ∀ p, (∃ e, s.pool.fetchPage c.1 p = (.error e, pool)) →
      (∃ r, s.pool.replacer.victim = (none, r) ∧ pool = { s.pool with replacer := r }) ∨
        ∃ f r, s.pool.replacer.victim = (some f, r) ∧ pool.replacer = r ∧
          pool.frames.length = s.pool.frames.length ∧
          (pool.frame f).pinCount = (s.pool.frame f).pinCount := by
    rintro p ⟨e, he⟩
    rcases fetchPage_cases s.pool c.1 p with ⟨f, -, heq⟩ |
      ⟨-, ⟨r, e', hvictim, heq⟩ | ⟨f, r, hvictim, hfound⟩⟩
    · rw [heq] at he
      cases he
    · rw [heq] at he
      cases he
      exact .inl ⟨r, hvictim, rfl⟩
    · rcases hfound with ⟨e₁, e₂, -, heq⟩ | ⟨s', hev, ⟨e₁, e₂, -, heq⟩ | ⟨data, -, heq⟩⟩
      · rw [heq] at he
        cases he
        exact .inr ⟨f, r, hvictim, rfl, rfl, rfl⟩
      · rw [heq] at he
        cases he
        have hsame := samePins_evict hev
        exact .inr ⟨f, r, hvictim, hsame.replacer, hsame.length, hsame.pinCount f⟩
      · rw [heq] at he
        cases he
  obtain ⟨io, call⟩ := c
  cases call with
  | newPage pageType =>
    obtain ⟨e, he⟩ := h
    rcases newPage_cases s.pool io pageType with ⟨r, e', hvictim, heq⟩ | ⟨f, r, hvictim, hfound⟩
    · rw [heq] at he
      cases he
      exact .inl ⟨r, hvictim, rfl⟩
    · rcases hfound with ⟨e₁, e₂, -, heq⟩ | ⟨s', -, heq⟩
      · rw [heq] at he
        cases he
        exact .inr ⟨f, r, hvictim, rfl, rfl, rfl⟩
      · rw [heq] at he
        cases he
  | fetchPage p => exact hfetch p h
  | freePage p => exact hfetch p h
  | vacuumPage p => exact hfetch p h
  | _ => cases h

theorem intact_of_starved (hs : s.pool.Balanced) {r : ClockReplacer}
    (hvictim : s.pool.replacer.victim = (none, r)) : Intact s.pool { s.pool with replacer := r } := by
  refine ⟨fun p f hlook _ io => ?_, fun p f hlook hdirty => ?_, ?_⟩
  · obtain ⟨pool, hfetch, hdata⟩ := fetchPage_hit (s := { s.pool with replacer := r }) hlook io
    exact ⟨f, pool, hfetch, hdata⟩
  · exact .inl ⟨f, hlook, hdirty, rfl⟩
  · exact (hs.starved hvictim).usableFrames_eq

theorem Fails.intact_iff (hs : s.pool.Balanced) (h : s.Fails c pool) :
    Intact s.pool pool ↔ ∀ f, ¬ s.pool.replacer.Offers f := by
  rw [← hs.victim_eq_none_iff]
  rcases h.outcome with ⟨r, hvictim, rfl⟩ | ⟨f, r, hvictim, hreplacer, hlen, hpin⟩
  · rw [hvictim]
    exact iff_of_true (intact_of_starved hs hvictim) rfl
  · -- the victim is neither pinned nor on offer any more
    obtain ⟨hoff, hnot⟩ := (ClockReplacer.victim_spec hvictim).2.2 f rfl
    have hf := hs.offers_lt hoff
    rw [hvictim]
    refine iff_of_false (fun hintact => ?_) (by simp)
    have husable := (usableFrames_eq_iff pool).mp (hintact.frames.trans hlen.symm) f (hlen.symm ▸ hf)
    rcases husable with hpinned | hoffered
    · rcases hs.frames f hf with ⟨hzero, -⟩ | ⟨-, hnoff⟩
      · exact hpinned (hpin.trans hzero)
      · exact hnoff hoff
    · rw [hreplacer] at hoffered
      exact hnot hoffered

variable {io : DiskFaults}

theorem balanced_fetchPage (hs : pool.Balanced) {p : Nat}
    (hstarved : ∀ e pool', pool.fetchPage io p = (.error e, pool') → ∀ f, ¬ pool.replacer.Offers f) :
    (pool.fetchPage io p).2.Balanced := by
  have hvictim : ∀ {f r}, pool.replacer.victim = (some f, r) → pool.replacer.Offers f :=
    fun h => ((ClockReplacer.victim_spec h).2.2 _ rfl).1
  rcases fetchPage_cases pool io p with ⟨f, -, heq⟩ | ⟨-, ⟨r, e', hnone, heq⟩ | ⟨f, r, hsome, hfound⟩⟩
  · rw [heq]
    exact hs.hit f
  · rw [heq]
    exact hs.starved hnone
  · rcases hfound with ⟨e₁, e₂, -, heq⟩ | ⟨s', hev, ⟨e₁, e₂, -, heq⟩ | ⟨data, -, heq⟩⟩
    · exact absurd (hvictim hsome) (hstarved _ _ heq f)
    · exact absurd (hvictim hsome) (hstarved _ _ heq f)
    · rw [heq]
      exact hs.install (d := pool.disk) hsome hev p data false

theorem balanced_newPage (hs : pool.Balanced) {pageType : UInt8}
    (hstarved : ∀ e pool', pool.newPage io pageType = (.error e, pool') → ∀ f, ¬ pool.replacer.Offers f) :
    (pool.newPage io pageType).2.Balanced := by
  rcases newPage_cases pool io pageType with ⟨r, e, hnone, heq⟩ | ⟨f, r, hsome, hfound⟩
  · rw [heq]
    exact hs.starved hnone
  · rcases hfound with ⟨e₁, e₂, -, heq⟩ | ⟨s', hev, heq⟩
    · exact absurd ((ClockReplacer.victim_spec hsome).2.2 f rfl).1 (hstarved _ _ heq f)
    · rw [heq]
      exact hs.install hsome hev _ _ true

theorem fetchPage_ok {pool pool' : BufferPoolManager} {p f : Nat} (h : pool.fetchPage io p = (.ok f, pool')) :
    pool'.pageTable.lookup p = some f ∧ ∃ r : ClockReplacer, pool'.replacer = r.pin f := by
  rcases fetchPage_cases pool io p with ⟨g, hlook, heq⟩ | ⟨-, ⟨r, e, -, heq⟩ | ⟨g, r, -, hfound⟩⟩
  · rw [heq] at h
    cases h
    exact ⟨hlook, _, rfl⟩
  · rw [heq] at h
    cases h
  · rcases hfound with ⟨e, e', -, heq⟩ | ⟨s', -, ⟨e, e', -, heq⟩ | ⟨data, -, heq⟩⟩
    · rw [heq] at h
      cases h
    · rw [heq] at h
      cases h
    · rw [heq] at h
      cases h
      exact ⟨AList.lookup_insert _, _, rfl⟩

theorem pinned_fetchPage {pool pool' : BufferPoolManager} (hs : pool'.Balanced) {p f : Nat}
    (h : pool.fetchPage io p = (.ok f, pool')) :
    pool'.pageTable.lookup p = some f ∧ (f < pool'.frames.length → 0 < (pool'.frame f).pinCount) := by
  obtain ⟨hlook, r, hr⟩ := fetchPage_ok h
  refine ⟨hlook, fun hf => ?_⟩
  rcases hs.frames f hf with ⟨-, hoff⟩ | ⟨hpos, -⟩
  · rw [hr] at hoff
    exact absurd rfl (ClockReplacer.offers_pin_iff.mp hoff).1
  · exact hpos

theorem balanced_rewriteUnpin {pool pool' : BufferPoolManager} (hs : pool'.Balanced) {p f : Nat}
    (h : pool.fetchPage io p = (.ok f, pool')) (g : Page8K → Page8K) :
    ((pool'.rewriteFrame f g).unpinPage p true).2.Balanced := by
  obtain ⟨hlook, hpos⟩ := pinned_fetchPage hs h
  have hsame := @samePins_setFrame pool' f
    { pool'.frame f with data := g (pool'.frame f).data, isDirty := true } rfl
  refine (hs.of_samePins hsame).unpin (fun f' hlook' hf => ?_) true
  obtain rfl : f = f' := Option.some.inj (hlook.symm.trans hlook')
  rw [hsame.pinCount]
  exact hpos (hf.trans_eq hsame.length)

theorem balanced_rewritesPage {p : Nat} {α : Type}
    {res : H2Result α × BufferPoolManager} (h : pool.RewritesPage io p res)
    (hs : (pool.fetchPage io p).2.Balanced) :
    res.2.Balanced := by
  cases h with
  | failed hfetch => rwa [hfetch] at hs
  | refused change hfetch hunpin =>
    rw [hfetch] at hs
    exact congrArg Prod.snd hunpin ▸ balanced_rewriteUnpin hs hfetch change
  | rewritten change a hfetch hunpin =>
    rw [hfetch] at hs
    have hs' := balanced_rewriteUnpin hs hfetch change
    rw [hunpin] at hs'
    exact hs'.of_samePins ⟨rfl, rfl, fun _ => rfl⟩

theorem balanced_step (hs : s.pool.Balanced) (hstarved : s.FailsStarved c) (hunwrapped : s.Unwrapped c) :
    (PoolSession.step s c).pool.Balanced := by
  obtain ⟨io, call⟩ := c
  cases call with
  | newPage pageType =>
    rw [pool_newPage]
    exact balanced_newPage hs fun e pool' h => hstarved ⟨pool', e, h⟩
  | fetchPage p =>
    rw [pool_fetchPage]
    exact balanced_fetchPage hs fun e pool' h => hstarved ⟨pool', e, h⟩
  | modify i g =>
    unfold PoolSession.step
    simp only
    split
    · exact hs
    · split
      · exact hs.of_samePins (samePins_setFrame rfl)
      · exact hs
  | unpinPage i isDirty =>
    unfold PoolSession.step
    simp only
    split
    · exact hs
    · rename_i h hi
      split
      · rename_i hopen
        exact hs.unpin (fun f hlook _ => hunwrapped h hi hopen f hlook) _
      · exact hs
  | flushPage p => exact hs.of_samePins (samePins_flushPage s.pool io p)
  | flushAll => exact hs.of_samePins (samePins_flushEntries io _ s.pool)
  | freePage p =>
    have hfetch := balanced_fetchPage hs fun e pool' h => hstarved ⟨pool', e, h⟩
    show (s.rewritten p (s.pool.freePage io p)).pool.Balanced
    rw [pool_rewritten]
    exact balanced_rewritesPage (rewritesPage_free _ io p) hfetch
  | vacuumPage p =>
    have hfetch := balanced_fetchPage hs fun e pool' h => hstarved ⟨pool', e, h⟩
    show (s.rewritten p (s.pool.vacuumPage io p)).pool.Balanced
    rw [pool_rewritten]
    exact balanced_rewritesPage (rewritesPage_vacuum _ io p) hfetch

theorem failsIntact_iff (hs : s.pool.Balanced) : s.FailsIntact c ↔ s.FailsStarved c := by
  constructor
  · rintro hintact ⟨pool, hfails⟩
    exact (hfails.intact_iff hs).mp (hintact pool hfails)
  · intro hstarved pool hfails
    exact (hfails.intact_iff hs).mpr (hstarved ⟨pool, hfails⟩)

/-- **In a run that wraps no counter of pins every failed fetch and every failed allocation leaves the pool
intact exactly when all of them have found no evictable frame.** -/
theorem failures_intact_iff (disk : DiskManager) (poolSize : Nat) (calls : List (DiskFaults × PoolCall))
    (h : Meets PoolSession.step Unwrapped (start disk poolSize) calls) :
    Meets PoolSession.step FailsIntact (start disk poolSize) calls ↔
      Meets PoolSession.step FailsStarved (start disk poolSize) calls := by
  have hstep : ∀ (s : PoolSession) (c : DiskFaults × PoolCall), s.pool.Balanced →
      FailsStarved s c ∧ Unwrapped s c → (PoolSession.step s c).pool.Balanced :=
    fun _ _ hs hgood => balanced_step hs hgood.1 hgood.2
  have hiff : Meets PoolSession.step (fun s c => FailsIntact s c ∧ Unwrapped s c)
    (start disk poolSize) calls ↔
      Meets PoolSession.step (fun s c => FailsStarved s c ∧ Unwrapped s c) (start disk poolSize) calls :=
    meets_iff_meets hstep (fun _ _ hs => and_congr_left' (failsIntact_iff hs))
      (balanced_new disk poolSize) calls
  rw [meets_and, meets_and] at hiff
  exact ⟨fun hintact => (hiff.mp ⟨hintact, h⟩).1, fun hstarved => (hiff.mpr ⟨hstarved, h⟩).1⟩

/-- A page behind the end of the file is fetched into the only frame. -/
theorem fetchBehindEnd_not_intact :
    ¬ Meets PoolSession.step FailsIntact (start (.openFile []) 1) [(.none, .fetchPage 7)] := by
  intro h
  have hframes := (h.1 _ ⟨_, rfl⟩).frames
  exact absurd hframes (by decide)

/-- The only frame is pinned when a second page is wanted, and given back afterwards. -/
def pinnedTwice : List (DiskFaults × PoolCall) :=
  [(.none, .newPage 1), (.none, .newPage 1), (.none, .fetchPage 0), (.none, .unpinPage 0 true),
    (.none, .unpinPage 1 false)]

theorem pinnedTwice_intact : Meets PoolSession.step FailsIntact (start .newInMemory 1) pinnedTwice := by
  refine (failures_intact_iff .newInMemory 1 pinnedTwice ?_).mpr ?_
  · refine ⟨trivial, trivial, ?_, ?_, ?_, trivial⟩
    · intro f hf
      obtain rfl := Option.some.inj hf
      decide
    · intro h hh _ f hf
      obtain rfl := Option.some.inj hh
      obtain rfl := Option.some.inj hf
      decide
    · intro h hh _ f hf
      obtain rfl := Option.some.inj hh
      obtain rfl := Option.some.inj hf
      decide
  · -- only the second call fails
    refine ⟨?_, fun _ f hoff => ?_, ?_, ?_, ?_, trivial⟩
    · rintro ⟨_, _, h⟩
      cases h
    · cases f <;> cases hoff
    · rintro ⟨_, _, h⟩
      cases h
    · rintro ⟨_, h⟩
      cases h
    · rintro ⟨_, h⟩
      cases h

end PoolSession

end H2Database.Mvstore
