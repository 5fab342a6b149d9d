import H2Database.Mvstore.BufferPool.Session

/-!
# When the buffer pool is a transparent cache

The invariant `Sound` ties the frames, the page table, the pins and the disk to what callers have
written.  Every call keeps it as long as no page number comes to stand in a second frame, and a call that
lets this happen breaks the table at once.
-/

namespace H2Database.Mvstore

open Reasoning List Option Function AList Nat

/-! ## The disk -/

namespace DiskManager

theorem page_store_self (d : DiskManager) (p : Nat) (buf : Page8K) :
    (d.store p buf).page p = some buf := by
  cases hfile : d.file with
  | none => simp [page, store, hfile]
  | some file =>
    have hread : readAt (writeAt file (p * pageSize) buf.1) (p * pageSize) pageSize = buf.1 := by
      have h := readAt_writeAt file buf.1 (p * pageSize)
      rwa [buf.2] at h
    simp only [page, store, hfile, map_some, hread, buf.2, dif_pos]

theorem page_store_ne {d : DiskManager} {p q : Nat} (hne : q ≠ p) {b : Page8K}
    (h : d.page q = some b) (buf : Page8K) : (d.store p buf).page q = some b := by
  cases hfile : d.file with
  | none =>
    simp only [page, hfile, Option.some.injEq] at h
    simp only [page, store, hfile, map_none, isSome_none, Bool.false_eq_true, if_false,
      lookup_insert_ne hne, h]
  | some file =>
    simp only [page, hfile] at h
    split at h
    · rename_i hlen
      -- a whole page lies inside the file, and the windows of two pages do not meet
      have hin : q * pageSize + pageSize ≤ file.length := by
        rw [readAt, length_take, length_drop] at hlen
        unfold pageSize at hlen ⊢
        omega
      have hwin : q * pageSize + pageSize ≤ p * pageSize ∨ p * pageSize + buf.1.length ≤ q * pageSize := by
        rw [buf.2]
        unfold pageSize
        omega
      have hread := readAt_writeAt_disjoint hin hwin
      simp only [page, store, hfile, map_some, hread, hlen, dif_pos]
      exact h
    · cases h

@[simp] theorem page_allocatePage (d : DiskManager) : d.allocatePage.2.page = d.page := by
  unfold allocatePage
  split <;> rfl

@[simp] theorem page_deallocatePage (d : DiskManager) (p : Nat) : (d.deallocatePage p).page = d.page := by
  unfold deallocatePage
  split <;> rfl

end DiskManager

/-! ## The clock -/

namespace ClockReplacer

def Offers (r : ClockReplacer) (f : Nat) : Prop := r.inReplacer[f]? = some true

theorem getD_eq_true {l : List Bool} {i : Nat} : l.getD i false = true ↔ l[i]? = some true := by
  rw [getD_eq_getElem?_getD]
  cases l[i]? with
  | none => simp
  | some b => simp

theorem sweep_spec (n : Nat) (r : ClockReplacer) :
    (sweep n r).2.inReplacer.length = r.inReplacer.length ∧
      (∀ g, (sweep n r).2.Offers g → r.Offers g) ∧
      ∀ f, (sweep n r).1 = some f → r.Offers f ∧ ¬ (sweep n r).2.Offers f := by
  induction n generalizing r with
  | zero => exact ⟨rfl, fun _ h => h, fun _ h => by cases h⟩
  | succ n ih =>
    rw [sweep]
    split_ifs with hin href
    · exact ih _
    · refine ⟨length_set, fun g hg => ?_, fun f hf => ?_⟩
      · unfold Offers at hg ⊢
        rw [getElem?_set] at hg
        split_ifs at hg with heq
        · cases hg
        · exact hg
      · cases hf
        refine ⟨getD_eq_true.mp hin, ?_⟩
        unfold Offers
        rw [getElem?_set, if_pos rfl]
        split_ifs <;> simp
    · exact ih _

theorem victim_spec {r r' : ClockReplacer} {v : Option Nat} (h : r.victim = (v, r')) :
    r'.inReplacer.length = r.inReplacer.length ∧ (∀ g, r'.Offers g → r.Offers g) ∧
      ∀ f, v = some f → r.Offers f ∧ ¬ r'.Offers f := by
  have hspec := sweep_spec (r.inReplacer.length * 2) r
  rw [← victim, h] at hspec
  exact hspec

theorem offers_pin {r : ClockReplacer} {f g : Nat} (h : (r.pin f).Offers g) : g ≠ f ∧ r.Offers g := by
  unfold Offers pin at h
  simp only [getElem?_set] at h
  split_ifs at h with heq
  · cases h
  · exact ⟨Ne.symm heq, h⟩

theorem offers_unpin {r : ClockReplacer} {f g : Nat} (h : (r.unpin f).Offers g) : g = f ∨ r.Offers g := by
  unfold Offers unpin at h
  simp only [getElem?_set] at h
  split_ifs at h with heq
  · exact .inl heq.symm
  · exact .inr h

end ClockReplacer

/-! ## Frames and evictions -/

namespace BufferPoolManager

theorem frame_setFrame {s : BufferPoolManager} {f : Nat} (hf : f < s.frames.length) (fr : PageFrame)
    (g : Nat) : (s.setFrame f fr).frame g = if g = f then fr else s.frame g := by
  unfold frame setFrame
  rw [getD_eq_getElem?_getD, getD_eq_getElem?_getD, getElem?_set]
  by_cases hg : f = g
  · rw [if_pos hg, if_pos hf, if_pos hg.symm, getD_some]
  · rw [if_neg hg, if_neg (Ne.symm hg)]

@[simp] theorem length_setFrame (s : BufferPoolManager) (f : Nat) (fr : PageFrame) :
    (s.setFrame f fr).frames.length = s.frames.length := length_set

/-- What a successful eviction does: the table loses the page, and the disk gets it if it was dirty. -/
structure Evicted (s s' : BufferPoolManager) (f : Nat) : Prop where
  replacer : s'.replacer = s.replacer
  length : s'.frames.length = s.frames.length
  other : ∀ g, g ≠ f → s'.frame g = s.frame g
  pageId : (s'.frame f).pageId = (s.frame f).pageId
  table : ∀ p, s'.pageTable.lookup p =
    if p = (s.frame f).pageId ∧ p ≠ noPage then none else s.pageTable.lookup p
  disk : s'.disk = if (s.frame f).pageId ≠ noPage ∧ (s.frame f).isDirty = true then
    s.disk.store (s.frame f).pageId (s.frame f).data else s.disk

theorem lookup_erase_pageId (t : AList fun _ : Nat => Nat) {q : Nat} (hq : q ≠ noPage) (p : Nat) :
    (t.erase q).lookup p = if p = q ∧ p ≠ noPage then none else t.lookup p := by
  by_cases hp : p = q
  · subst hp
    rw [lookup_erase, if_pos ⟨rfl, hq⟩]
  · rw [lookup_erase_ne hp, if_neg fun h => hp h.1]

theorem evict_ok {s s' : BufferPoolManager} {io : DiskFaults} {f : Nat} (hf : f < s.frames.length)
    (h : s.evict io f = .ok s') : Evicted s s' f := by
  unfold evict at h
  simp only at h
  split at h
  · rename_i hno
    cases h
    refine ⟨rfl, rfl, fun _ _ => rfl, rfl, fun p => ?_, ?_⟩
    · rw [if_neg fun hp => hp.2 (hp.1.trans hno)]
    · rw [if_neg fun hp => hp.1 hno]
  · rename_i hpage
    split at h
    · rename_i hdirty
      unfold DiskManager.writePage at h
      cases hio : io.write (s.frame f).pageId with
      | some e =>
        rw [hio] at h
        cases h
      | none =>
        rw [hio] at h
        cases h
        have hframe : ∀ g, BufferPoolManager.frame
            { s.setFrame f { s.frame f with isDirty := false } with
              disk := s.disk.store (s.frame f).pageId (s.frame f).data
              pageTable := s.pageTable.erase (s.frame f).pageId } g =
            if g = f then { s.frame f with isDirty := false } else s.frame g :=
          frame_setFrame hf _
        refine ⟨rfl, length_setFrame s f _, fun g hg => ?_, ?_, ?_, ?_⟩
        · rw [hframe, if_neg hg]
        · rw [hframe, if_pos rfl]
        · exact lookup_erase_pageId s.pageTable hpage
        · rw [if_pos ⟨hpage, hdirty⟩]
    · rename_i hclean
      cases h
      refine ⟨rfl, rfl, fun _ _ => rfl, rfl, lookup_erase_pageId s.pageTable hpage, ?_⟩
      rw [if_neg fun hp => hclean hp.2]

theorem fetchPage_cases (s : BufferPoolManager) (io : DiskFaults) (p : Nat) :
    (∃ f, s.pageTable.lookup p = some f ∧ s.fetchPage io p = (.ok f,
        { s.setFrame f { s.frame f with pinCount := (s.frame f).pinCount + 1 } with
          replacer := s.replacer.pin f })) ∨
      s.pageTable.lookup p = none ∧
        ((∃ r e, s.replacer.victim = (none, r) ∧
            s.fetchPage io p = (.error e, { s with replacer := r })) ∨
          ∃ f r, s.replacer.victim = (some f, r) ∧
            ((∃ e e', BufferPoolManager.evict { s with replacer := r } io f = .error e ∧
                s.fetchPage io p = (.error e', { s with replacer := r })) ∨
              ∃ s', BufferPoolManager.evict { s with replacer := r } io f = .ok s' ∧
                ((∃ e e', s'.disk.readPage io p = .error e ∧ s.fetchPage io p = (.error e', s')) ∨
                  ∃ data, s'.disk.readPage io p = .ok data ∧
                    s.fetchPage io p = (.ok f, s'.install f p data false)))) := by
  unfold fetchPage
  cases hlook : s.pageTable.lookup p with
  | some f => exact .inl ⟨f, rfl, rfl⟩
  | none =>
    refine .inr ⟨rfl, ?_⟩
    cases hvictim : s.replacer.victim with
    | mk v r =>
      cases v with
      | none => exact .inl ⟨r, _, rfl, rfl⟩
      | some f =>
        refine .inr ⟨f, r, rfl, ?_⟩
        cases hev : BufferPoolManager.evict { s with replacer := r } io f with
        | error e => exact .inl ⟨e, _, rfl, by simp only [hev]; rfl⟩
        | ok s' =>
          refine .inr ⟨s', rfl, ?_⟩
          cases hread : s'.disk.readPage io p with
          | error e => exact .inl ⟨e, _, rfl, by simp only [hev, hread]; rfl⟩
          | ok data => exact .inr ⟨data, rfl, by simp only [hev, hread]⟩

theorem newPage_cases (s : BufferPoolManager) (io : DiskFaults) (pageType : UInt8) :
    (∃ r e, s.replacer.victim = (none, r) ∧
        s.newPage io pageType = (.error e, { s with replacer := r })) ∨
      ∃ f r, s.replacer.victim = (some f, r) ∧
        ((∃ e e', BufferPoolManager.evict
              { s with replacer := r, disk := s.disk.allocatePage.2 } io f = .error e ∧
            s.newPage io pageType =
              (.error e', { s with replacer := r, disk := s.disk.allocatePage.2 })) ∨
          ∃ s', BufferPoolManager.evict
              { s with replacer := r, disk := s.disk.allocatePage.2 } io f = .ok s' ∧
            s.newPage io pageType = (.ok (s.disk.allocatePage.1, f), s'.install f s.disk.allocatePage.1
              (SlottedPage.init s.disk.allocatePage.1 pageType) true)) := by
  unfold newPage
  cases hvictim : s.replacer.victim with
  | mk v r =>
    cases v with
    | none => exact .inl ⟨r, _, rfl, rfl⟩
    | some f =>
      refine .inr ⟨f, r, rfl, ?_⟩
      cases hev : BufferPoolManager.evict
          { s with replacer := r, disk := s.disk.allocatePage.2 } io f with
      | error e => exact .inl ⟨e, _, rfl, by simp only [hev]; rfl⟩
      | ok s' => exact .inr ⟨s', rfl, by simp only [hev]⟩

theorem frame_install {s : BufferPoolManager} {f : Nat} (hf : f < s.frames.length) (p : Nat)
    (data : Page8K) (isDirty : Bool) (g : Nat) :
    (s.install f p data isDirty).frame g = if g = f then ⟨data, p, 1, isDirty⟩ else s.frame g :=
  frame_setFrame hf _ g

theorem lookup_install (s : BufferPoolManager) (f p : Nat) (data : Page8K) (isDirty : Bool) (q : Nat) :
    (s.install f p data isDirty).pageTable.lookup q = if q = p then some f else s.pageTable.lookup q := by
  change (s.pageTable.insert p f).lookup q = _
  by_cases hq : q = p
  · subst hq
    rw [lookup_insert, if_pos rfl]
  · rw [lookup_insert_ne hq, if_neg hq]

/-- What `free_page` and `vacuum_page` come to: a page is fetched, rewritten and given back, and its number
may go back to the disk. -/
inductive RewritesPage {α : Type} (s : BufferPoolManager) (io : DiskFaults) (p : Nat) :
    H2Result α × BufferPoolManager → Prop
  | failed {e : H2Error} {pool : BufferPoolManager} (hfetch : s.fetchPage io p = (.error e, pool)) :
      RewritesPage s io p (.error e, pool)
  | refused {f : Nat} {e : H2Error} {pool pool' : BufferPoolManager} (change : Page8K → Page8K)
      (hfetch : s.fetchPage io p = (.ok f, pool))
      (hunpin : (pool.rewriteFrame f change).unpinPage p true = (.error e, pool')) :
      RewritesPage s io p (.error e, pool')
  | rewritten {f : Nat} {pool pool' : BufferPoolManager} {d : DiskManager} (change : Page8K → Page8K) (a : α)
      (hfetch : s.fetchPage io p = (.ok f, pool))
      (hunpin : (pool.rewriteFrame f change).unpinPage p true = (.ok (), pool'))
      (hd : d = pool'.disk ∨ d = pool'.disk.deallocatePage p) :
      RewritesPage s io p (.ok a, { pool' with disk := d })

theorem rewritesPage_free (s : BufferPoolManager) (io : DiskFaults) (p : Nat) :
    s.RewritesPage io p (s.freePage io p) := by
  unfold freePage
  cases hfetch : s.fetchPage io p with
  | mk res pool =>
    cases res with
    | error e => exact .failed hfetch
    | ok f =>
      simp only
      split <;> rename_i hunpin
      · exact .refused _ hfetch hunpin
      · exact .rewritten _ _ hfetch hunpin (.inr rfl)

theorem rewritesPage_vacuum (s : BufferPoolManager) (io : DiskFaults) (p : Nat) :
    s.RewritesPage io p (s.vacuumPage io p) := by
  unfold vacuumPage
  cases hfetch : s.fetchPage io p with
  | mk res pool =>
    cases res with
    | error e => exact .failed hfetch
    | ok f =>
      simp only
      split
      · split <;> rename_i hunpin
        · exact .refused _ hfetch hunpin
        · exact .rewritten _ _ hfetch hunpin (.inr rfl)
      · split <;> rename_i hunpin
        · exact .refused _ hfetch hunpin
        · exact .rewritten _ _ hfetch hunpin (.inl rfl)

end BufferPoolManager

namespace PoolSession

open BufferPoolManager

/-- The frame is as on the disk: it is not dirty, and no open handle has changed it. -/
def Clean (s : PoolSession) (f : Nat) : Prop :=
  (s.pool.frame f).isDirty = false ∧
    ∀ h ∈ s.handles, h.isOpen = true → h.frameId = f → h.modified = false

def pinsOf (handles : List PageHandle) (f : Nat) : Nat :=
  handles.countP fun h => h.isOpen && h.frameId == f

structure Sound (s : PoolSession) : Prop where
  size : s.pool.replacer.inReplacer.length = s.pool.frames.length
  table : Consistent s.pool
  pins : ∀ f, f < s.pool.frames.length → (s.pool.frame f).pinCount = pinsOf s.handles f
  handle : ∀ h ∈ s.handles, h.isOpen = true → s.pool.pageTable.lookup h.pageId = some h.frameId
  offered : ∀ f, s.pool.replacer.Offers f → (s.pool.frame f).pinCount = 0
  cached : ∀ p f b, s.pool.pageTable.lookup p = some f → s.written p = some b →
    (s.pool.frame f).data = b
  stored : ∀ p b, s.written p = some b → (∀ f, s.pool.pageTable.lookup p = some f → s.Clean f) →
    s.pool.disk.page p = some b

variable {s : PoolSession}

theorem Sound.offered_lt (hs : s.Sound) {f : Nat} (h : s.pool.replacer.Offers f) :
    f < s.pool.frames.length := by
  rw [← hs.size]
  exact (List.getElem?_eq_some_iff.mp h).1

theorem Sound.pinsOf_eq_zero (hs : s.Sound) {f : Nat} (hf : f < s.pool.frames.length)
    (hzero : (s.pool.frame f).pinCount = 0) : pinsOf s.handles f = 0 :=
  Int.natCast_eq_zero.mp ((hs.pins f hf).symm.trans hzero)

theorem pinsOf_concat (handles : List PageHandle) (h : PageHandle) (f : Nat) :
    pinsOf (handles ++ [h]) f = pinsOf handles f + if h.isOpen = true ∧ h.frameId = f then 1 else 0 := by
  unfold pinsOf
  rw [countP_append, countP_singleton]
  simp only [Bool.and_eq_true, beq_iff_eq]

variable {handles : List PageHandle}

theorem frameId_ne_of_pinsOf {f : Nat} (h0 : pinsOf handles f = 0)
    {h : PageHandle} (hmem : h ∈ handles) (hopen : h.isOpen = true) : h.frameId ≠ f := by
  intro heq
  have := countP_eq_zero.mp h0 h hmem
  simp [hopen, heq] at this

theorem Sound.replacer (hs : s.Sound) {r : ClockReplacer}
    (hsize : r.inReplacer.length = s.pool.replacer.inReplacer.length)
    (hsub : ∀ g, r.Offers g → s.pool.replacer.Offers g) :
    Sound { s with pool := { s.pool with replacer := r } } :=
  ⟨hsize.trans hs.size, hs.table, hs.pins, hs.handle, fun f hf => hs.offered f (hsub f hf), hs.cached,
    hs.stored⟩

theorem Sound.disk (hs : s.Sound) {d : DiskManager} (hd : d.page = s.pool.disk.page) :
    Sound { s with pool := { s.pool with disk := d } } :=
  ⟨hs.size, hs.table, hs.pins, hs.handle, hs.offered, hs.cached, fun p b hb hc =>
    (congrFun hd p).trans (hs.stored p b hb hc)⟩

theorem sound_start (disk : DiskManager) (poolSize : Nat) : (start disk poolSize).Sound := by
  have hframe : ∀ f, (BufferPoolManager.new disk poolSize).frame f = PageFrame.new := by
    intro f
    unfold frame BufferPoolManager.new
    rw [getD_eq_getElem?_getD, getElem?_replicate]
    split_ifs <;> rfl
  have hsize : ∀ (fs : List Nat) (r : ClockReplacer),
      (fs.foldl ClockReplacer.unpin r).inReplacer.length = r.inReplacer.length := by
    intro fs
    induction fs with
    | nil => exact fun _ => rfl
    | cons f fs ih => exact fun r => (ih (r.unpin f)).trans length_set
  refine ⟨?_, ?_, ?_, ?_, ?_, ?_, ?_⟩
  · change ((List.range poolSize).foldl ClockReplacer.unpin _).inReplacer.length =
      (List.replicate poolSize PageFrame.new).length
    rw [hsize, length_replicate]
    exact length_replicate
  · intro p f
    constructor
    · intro h
      cases h
    · rintro ⟨-, hpage, hne⟩
      exact absurd ((congrArg PageFrame.pageId (hframe f)).symm.trans hpage).symm hne
  · intro f _
    exact congrArg PageFrame.pinCount (hframe f)
  · intro h hmem
    cases hmem
  · intro f _
    exact congrArg PageFrame.pinCount (hframe f)
  · intro p f b h
    cases h
  · intro p b hb _
    exact hb

/-! ## A page comes into a frame -/

section Install

variable {f p : Nat} {data : Page8K} {isDirty : Bool} {pool : BufferPoolManager}
  {written : Nat → Option Page8K}

theorem Sound.stored_evicted (hs : s.Sound) (hf : f < s.pool.frames.length)
    (hpin : (s.pool.frame f).pinCount = 0) (hev : Evicted s.pool pool f) {q : Nat} {b : Page8K}
    (hb : s.written q = some b)
    (hc : ∀ g, s.pool.pageTable.lookup q = some g → g = f ∨ s.Clean g) : pool.disk.page q = some b := by
  have hnone : pinsOf s.handles f = 0 := hs.pinsOf_eq_zero hf hpin
  rw [hev.disk]
  by_cases hq : s.pool.pageTable.lookup q = some f
  · -- the page of the victim itself: it is written back unless the disk has it
    obtain ⟨-, hpage, hne⟩ := (hs.table q f).mp hq
    split_ifs with hdirty
    · rw [hpage, DiskManager.page_store_self, hs.cached q f b hq hb]
    · have hclean : s.Clean f := by
        refine ⟨?_, fun h hmem hopen heq => absurd heq (frameId_ne_of_pinsOf hnone hmem hopen)⟩
        rw [← Bool.not_eq_true]
        exact fun hd => hdirty ⟨hpage ▸ hne, hd⟩
      refine hs.stored q b hb fun g hg => ?_
      rw [hq] at hg
      cases hg
      exact hclean
  · have hstored : s.pool.disk.page q = some b := by
      refine hs.stored q b hb fun g hg => (hc g hg).resolve_left ?_
      rintro rfl
      exact hq hg
    split_ifs with hdirty
    · refine DiskManager.page_store_ne ?_ hstored _
      rintro rfl
      exact hq ((hs.table _ f).mpr ⟨hf, rfl, hdirty.1⟩)
    · exact hstored

theorem Sound.table_installed (hs : s.Sound) (hf : f < s.pool.frames.length)
    (hev : Evicted s.pool pool f) (data : Page8K) (isDirty : Bool) (q g : Nat) :
    (pool.install f p data isDirty).pageTable.lookup q = some g ↔
      q = p ∧ g = f ∨ q ≠ p ∧ g ≠ f ∧ s.pool.pageTable.lookup q = some g := by
  rw [lookup_install, hev.table]
  by_cases hq : q = p
  · simp only [hq, if_true, Option.some.injEq, true_and, ne_eq, not_true_eq_false, false_and, or_false]
    exact eq_comm
  · rw [if_neg hq]
    have hvictim : s.pool.pageTable.lookup q = some f ↔ q = (s.pool.frame f).pageId ∧ q ≠ noPage :=
      (hs.table q f).trans ⟨fun h => ⟨h.2.1.symm, h.2.2⟩, fun h => ⟨hf, h.1.symm, h.2⟩⟩
    simp only [hq, false_and, false_or, ne_eq, not_false_eq_true, true_and]
    split_ifs with hold
    · have hlook := hvictim.mpr hold
      constructor
      · intro h
        cases h
      · rintro ⟨hg, h⟩
        rw [hlook] at h
        exact absurd (Option.some.inj h).symm hg
    · refine ⟨fun h => ⟨?_, h⟩, fun h => h.2⟩
      rintro rfl
      exact hold (hvictim.mp h)

theorem Sound.install (hs : s.Sound) (hoff : s.pool.replacer.Offers f)
    {r : ClockReplacer} {d : DiskManager} (hsize : r.inReplacer.length = s.pool.replacer.inReplacer.length)
    (hsub : ∀ g, r.Offers g → s.pool.replacer.Offers g) (hd : d.page = s.pool.disk.page)
    (hev : Evicted { s.pool with replacer := r, disk := d } pool f) (hp : p ≠ noPage)
    (halias : ∀ g, s.pool.pageTable.lookup p = some g → g = f)
    (hother : ∀ q, q ≠ p → written q = s.written q) (hdata : ∀ b, written p = some b → data = b)
    (hread : isDirty = false → ∀ b, written p = some b → pool.disk.page p = some b) :
    Sound ⟨pool.install f p data isDirty, s.handles ++ [⟨p, f, false, true⟩], written⟩ := by
  have hf := hs.offered_lt hoff
  have hpin := hs.offered f hoff
  have hnone : pinsOf s.handles f = 0 := hs.pinsOf_eq_zero hf hpin
  have hs' : Sound { s with pool := { s.pool with replacer := r, disk := d } } :=
    (hs.disk hd).replacer hsize hsub
  have hlen : pool.frames.length = s.pool.frames.length := hev.length
  have hfp : f < pool.frames.length := hlen ▸ hf
  have htable : ∀ q g, (pool.install f p data isDirty).pageTable.lookup q = some g ↔
      q = p ∧ g = f ∨ q ≠ p ∧ g ≠ f ∧ s.pool.pageTable.lookup q = some g :=
    hs'.table_installed hf hev data isDirty
  have hframe : ∀ g, g ≠ f → (pool.install f p data isDirty).frame g = s.pool.frame g := by
    intro g hg
    rw [frame_install hfp, if_neg hg]
    exact hev.other g hg
  have hself : (pool.install f p data isDirty).frame f = ⟨data, p, 1, isDirty⟩ := by
    rw [frame_install hfp, if_pos rfl]
  have hinstlen : (pool.install f p data isDirty).frames.length = s.pool.frames.length :=
    (length_setFrame pool f _).trans hlen
  refine ⟨?_, ?_, ?_, ?_, ?_, ?_, ?_⟩
  · change (pool.replacer.pin f).inReplacer.length = _
    rw [hinstlen, ClockReplacer.pin, hev.replacer]
    exact (length_set).trans (hsize.trans hs.size)
  · intro q g
    rw [htable]
    unfold Holds
    rw [hinstlen]
    by_cases hg : g = f
    · subst hg
      rw [hself]
      simp only [and_true, ne_eq, not_true_eq_false, false_and, and_false, or_false]
      exact ⟨fun hq => ⟨hf, hq.symm, hq ▸ hp⟩, fun h => h.2.1.symm⟩
    · rw [hframe g hg]
      simp only [hg, and_false, false_or, ne_eq, not_false_eq_true, true_and]
      refine ⟨fun h => (hs.table q g).mp h.2, fun h => ⟨?_, (hs.table q g).mpr h⟩⟩
      rintro rfl
      exact hg (halias g ((hs.table q g).mpr h))
  · intro g hg
    rw [hinstlen] at hg
    rw [pinsOf_concat]
    by_cases heq : g = f
    · subst heq
      rw [hself, hnone]
      simp
    · rw [hframe g heq, hs.pins g hg, if_neg fun h => heq h.2.symm, add_zero]
  · intro h hmem hopen
    rw [htable]
    rcases mem_append.mp hmem with hold | hnew
    · have hne := frameId_ne_of_pinsOf hnone hold hopen
      have hlook := hs.handle h hold hopen
      refine .inr ⟨?_, hne, hlook⟩
      intro heq
      exact hne (halias _ (heq ▸ hlook))
    · rw [mem_singleton.mp hnew]
      exact .inl ⟨rfl, rfl⟩
  · intro g hg
    have hpinned : (r.pin f).Offers g := by
      change (pool.replacer.pin f).Offers g at hg
      rwa [hev.replacer] at hg
    obtain ⟨hne, hgr⟩ := ClockReplacer.offers_pin hpinned
    rw [hframe g hne]
    exact hs.offered g (hsub g hgr)
  · intro q g b hlook hb
    rcases (htable q g).mp hlook with ⟨rfl, rfl⟩ | ⟨hq, hg, hlook'⟩
    · rw [hself]
      exact hdata b hb
    · rw [hframe g hg]
      exact hs.cached q g b hlook' ((hother q hq).symm.trans hb)
  · intro q b hb hclean
    change pool.disk.page q = some b
    by_cases hq : q = p
    · subst hq
      have hc := hclean f ((htable q f).mpr (.inl ⟨rfl, rfl⟩))
      refine hread ?_ b hb
      have := hc.1
      rwa [hself] at this
    · refine hs'.stored_evicted hf hpin hev ((hother q hq).symm.trans hb) fun g hg => ?_
      by_cases hgf : g = f
      · exact .inl hgf
      · have hc := hclean g ((htable q g).mpr (.inr ⟨hq, hgf, hg⟩))
        refine .inr ⟨?_, fun h hmem => hc.2 h (mem_append_left _ hmem)⟩
        have := hc.1
        rwa [hframe g hgf] at this

end Install

/-! ## A frame changes under its page -/

section Change

variable {f p : Nat} {fr : PageFrame} {r : ClockReplacer} {d : DiskManager}
  {handles : List PageHandle} {written : Nat → Option Page8K}

def Untouched (handles : List PageHandle) (f : Nat) : Prop :=
  ∀ h ∈ handles, h.isOpen = true → h.frameId = f → h.modified = false

theorem Sound.change (hs : s.Sound) (hlook : s.pool.pageTable.lookup p = some f)
    (hpage : fr.pageId = (s.pool.frame f).pageId)
    (hsize : r.inReplacer.length = s.pool.replacer.inReplacer.length)
    (hoff : ∀ g, r.Offers g → g = f ∧ fr.pinCount = 0 ∨ g ≠ f ∧ s.pool.replacer.Offers g)
    (hpins : pinsOf handles f = fr.pinCount) (hpins' : ∀ g, g ≠ f → pinsOf handles g = pinsOf s.handles g)
    (hhandle : ∀ h ∈ handles, h.isOpen = true → s.pool.pageTable.lookup h.pageId = some h.frameId)
    (htouch : ∀ g, g ≠ f → Untouched handles g → Untouched s.handles g)
    (hother : ∀ q, q ≠ p → written q = s.written q) (hdata : ∀ b, written p = some b → fr.data = b)
    (hkeep : ∀ q b, q ≠ p → s.pool.disk.page q = some b → d.page q = some b)
    (hdisk : fr.isDirty = false → Untouched handles f → ∀ b, written p = some b → d.page p = some b) :
    Sound ⟨{ s.pool.setFrame f fr with replacer := r, disk := d }, handles, written⟩ := by
  obtain ⟨hf, hid, hne⟩ := (hs.table p f).mp hlook
  have hframe : ∀ g, BufferPoolManager.frame { s.pool.setFrame f fr with replacer := r, disk := d } g =
      if g = f then fr else s.pool.frame g := frame_setFrame hf fr
  have hlen : ({ s.pool.setFrame f fr with replacer := r, disk := d } : BufferPoolManager).frames.length =
      s.pool.frames.length := length_setFrame s.pool f fr
  refine ⟨?_, ?_, ?_, hhandle, ?_, ?_, ?_⟩
  · exact hsize.trans (hs.size.trans hlen.symm)
  · intro q g
    unfold Holds
    rw [hframe, hlen]
    refine (hs.table q g).trans ?_
    unfold Holds
    split_ifs with hg
    · rw [hg, hpage]
    · rfl
  · intro g hg
    rw [hlen] at hg
    rw [hframe]
    split_ifs with heq
    · rw [heq]
      exact hpins.symm
    · rw [hs.pins g hg]
      exact congrArg Nat.cast (hpins' g heq).symm
  · intro g hg
    rw [hframe]
    rcases hoff g hg with ⟨heq, hzero⟩ | ⟨heq, hoffers⟩
    · rw [if_pos heq]
      exact hzero
    · rw [if_neg heq]
      exact hs.offered g hoffers
  · intro q g b hq hb
    rw [hframe]
    by_cases hqp : q = p
    · subst hqp
      have hgf : g = f := Option.some.inj (hq.symm.trans hlook)
      rw [if_pos hgf]
      exact hdata b hb
    · have hgf : g ≠ f := by
        rintro rfl
        exact hqp (((hs.table q g).mp hq).2.1.symm.trans hid)
      rw [if_neg hgf]
      exact hs.cached q g b hq ((hother q hqp).symm.trans hb)
  · intro q b hb hclean
    change d.page q = some b
    by_cases hqp : q = p
    · subst hqp
      have hc := hclean f hlook
      have hdirty := hc.1
      rw [hframe, if_pos rfl] at hdirty
      exact hdisk hdirty hc.2 b hb
    · refine hkeep q b hqp (hs.stored q b ((hother q hqp).symm.trans hb) fun g hg => ?_)
      have hgf : g ≠ f := by
        rintro rfl
        exact hqp (((hs.table q g).mp hg).2.1.symm.trans hid)
      have hc := hclean g hg
      have hdirty := hc.1
      rw [hframe, if_neg hgf] at hdirty
      exact ⟨hdirty, htouch g hgf hc.2⟩

theorem Sound.offers_ne (hs : s.Sound) {h : PageHandle} (hmem : h ∈ s.handles) (hopen : h.isOpen = true)
    {g : Nat} (hg : s.pool.replacer.Offers g) : g ≠ h.frameId := by
  rintro rfl
  exact frameId_ne_of_pinsOf (hs.pinsOf_eq_zero (hs.offered_lt hg) (hs.offered _ hg)) hmem hopen rfl

theorem Sound.hit (hs : s.Sound) (hlook : s.pool.pageTable.lookup p = some f) :
    Sound ⟨{ s.pool.setFrame f { s.pool.frame f with pinCount := (s.pool.frame f).pinCount + 1 } with
      replacer := s.pool.replacer.pin f }, s.handles ++ [⟨p, f, false, true⟩], s.written⟩ := by
  obtain ⟨hf, -, -⟩ := (hs.table p f).mp hlook
  have huntouched : ∀ g, Untouched (s.handles ++ [⟨p, f, false, true⟩]) g → Untouched s.handles g :=
    fun g hg h hmem => hg h (mem_append_left _ hmem)
  refine hs.change hlook rfl length_set ?_ ?_ ?_ ?_ (fun g _ => huntouched g) (fun _ _ => rfl) ?_
    (fun _ _ _ h => h) ?_
  · intro g hg
    exact .inr (ClockReplacer.offers_pin hg)
  · rw [pinsOf_concat, if_pos ⟨rfl, rfl⟩, cast_add, ← hs.pins f hf, cast_one]
  · intro g hg
    rw [pinsOf_concat, if_neg fun h => hg h.2.symm, add_zero]
  · intro h hmem hopen
    rcases mem_append.mp hmem with hold | hnew
    · exact hs.handle h hold hopen
    · rw [mem_singleton.mp hnew]
      exact hlook
  · intro b hb
    exact hs.cached p f b hlook hb
  · intro hdirty htouch b hb
    refine hs.stored p b hb fun g hg => ?_
    rw [hlook] at hg
    cases hg
    exact ⟨hdirty, huntouched f htouch⟩

theorem Sound.rewrite (hs : s.Sound) (hlook : s.pool.pageTable.lookup p = some f) (data : Page8K)
    (isDirty : Bool) (hother : ∀ q, q ≠ p → written q = s.written q)
    (hdata : ∀ b, written p = some b → data = b)
    (hkeep : ∀ q b, q ≠ p → s.pool.disk.page q = some b → d.page q = some b)
    (hdisk : isDirty = false → Untouched s.handles f → ∀ b, written p = some b → d.page p = some b) :
    Sound ⟨{ s.pool.setFrame f { s.pool.frame f with data := data, isDirty := isDirty } with disk := d },
      s.handles, written⟩ := by
  obtain ⟨hf, -, -⟩ := (hs.table p f).mp hlook
  refine hs.change hlook rfl rfl ?_ (hs.pins f hf).symm (fun _ _ => rfl) hs.handle (fun _ _ h => h)
    hother hdata hkeep hdisk
  intro g hg
  by_cases hgf : g = f
  · exact .inl ⟨hgf, hgf ▸ hs.offered g hg⟩
  · exact .inr ⟨hgf, hg⟩

end Change

/-! ## Handles -/

section Handles

variable {handles : List PageHandle} {i : Nat} {h h' : PageHandle}

theorem pinsOf_set (hi : handles[i]? = some h) (h' : PageHandle) (f : Nat) :
    pinsOf (handles.set i h') f + (if h.isOpen = true ∧ h.frameId = f then 1 else 0) =
      pinsOf handles f + if h'.isOpen = true ∧ h'.frameId = f then 1 else 0 := by
  obtain ⟨hlt, heq⟩ := List.getElem?_eq_some_iff.mp hi
  have hmem : h ∈ handles := heq ▸ getElem_mem hlt
  have hpos : (h.isOpen = true ∧ h.frameId = f) → 0 < pinsOf handles f := by
    intro hop
    exact countP_pos_iff.mpr ⟨h, hmem, by simp [hop.1, hop.2]⟩
  unfold pinsOf at hpos ⊢
  rw [countP_set hlt, heq]
  simp only [Bool.and_eq_true, beq_iff_eq]
  split_ifs with h1 h2 h2
  · have := hpos h1
    omega
  · have := hpos h1
    omega
  · omega
  · omega

theorem mem_set_of_ne (hi : handles[i]? = some h) {k : PageHandle} (hk : k ∈ handles) (hne : k ≠ h)
    (h' : PageHandle) : k ∈ handles.set i h' := by
  obtain ⟨j, hj⟩ := getElem?_of_mem hk
  refine mem_of_getElem? (i := j) ?_
  rw [getElem?_set_ne, hj]
  rintro rfl
  exact hne (Option.some.inj (hj.symm.trans hi))

theorem Untouched.of_set (hi : handles[i]? = some h) {g : Nat} (hu : Untouched (handles.set i h') g)
    (hh : h.isOpen = true → h.frameId = g → h.modified = false) : Untouched handles g := by
  intro k hk hopen hg
  by_cases hkh : k = h
  · subst hkh
    exact hh hopen hg
  · exact hu k (mem_set_of_ne hi hk hkh h') hopen hg

/-- `unpin_page` through a handle, which is closed; a handle that has changed the page gives it back as
dirty. -/
theorem Sound.unpin (hs : s.Sound) (hi : s.handles[i]? = some h) (hopen : h.isOpen = true)
    {isDirty : Bool} (hdirty : h.modified = true → isDirty = true) :
    Sound ⟨(s.pool.unpinPage h.pageId isDirty).2, s.handles.set i { h with isOpen := false },
      s.written⟩ := by
  have hmem : h ∈ s.handles := mem_of_getElem? hi
  have hlook := hs.handle h hmem hopen
  obtain ⟨hf, -, -⟩ := (hs.table _ _).mp hlook
  have hset := pinsOf_set hi { h with isOpen := false }
  have hpin := hs.pins h.frameId hf
  set fr : PageFrame :=
    { s.pool.frame h.frameId with
      isDirty := (s.pool.frame h.frameId).isDirty || isDirty
      pinCount := (s.pool.frame h.frameId).pinCount - 1 } with hfr
  set r := if (s.pool.frame h.frameId).pinCount = 1 then s.pool.replacer.unpin h.frameId
    else s.pool.replacer with hr
  have hpool : (s.pool.unpinPage h.pageId isDirty).2 =
      { s.pool.setFrame h.frameId fr with replacer := r, disk := s.pool.disk } := by
    simp only [unpinPage, hlook, hr, hfr]
    split_ifs <;> rfl
  rw [hpool]
  refine hs.change hlook rfl ?_ ?_ ?_ ?_ ?_ ?_ (fun _ _ => rfl) (fun b hb => hs.cached _ _ b hlook hb)
    (fun _ _ _ hq => hq) ?_
  · rw [hr]
    split_ifs
    · exact length_set
    · rfl
  · intro g hg
    rw [hr] at hg
    split_ifs at hg with hone
    · by_cases hgf : g = h.frameId
      · exact .inl ⟨hgf, by rw [hfr, hone]; rfl⟩
      · exact .inr ⟨hgf, (ClockReplacer.offers_unpin hg).resolve_left hgf⟩
    · exact .inr ⟨hs.offers_ne hmem hopen hg, hg⟩
  · have := hset h.frameId
    rw [if_pos ⟨hopen, rfl⟩, if_neg fun hc => Bool.false_ne_true hc.1] at this
    rw [hfr]
    simp only
    omega
  · intro g hg
    have := hset g
    rw [if_neg fun hc => hg hc.2.symm, if_neg fun hc => Bool.false_ne_true hc.1] at this
    exact this
  · intro k hk hkopen
    rcases mem_or_eq_of_mem_set hk with hold | rfl
    · exact hs.handle k hold hkopen
    · cases hkopen
  · intro g hg hu
    exact hu.of_set hi fun _ heq => absurd heq.symm hg
  · intro hclean hu b hb
    rw [hfr, Bool.or_eq_false_iff] at hclean
    have hmod : h.modified = false := by
      rw [← Bool.not_eq_true]
      intro hm
      have := hdirty hm
      rw [hclean.2] at this
      cases this
    refine hs.stored _ b hb fun g hg => ?_
    rw [hlook] at hg
    cases hg
    exact ⟨hclean.1, hu.of_set hi fun _ _ => hmod⟩

theorem Sound.modify (hs : s.Sound) (hi : s.handles[i]? = some h) (hopen : h.isOpen = true)
    (data : Page8K) :
    Sound ⟨s.pool.setFrame h.frameId { s.pool.frame h.frameId with data := data },
      s.handles.set i { h with modified := true },
      Function.update s.written h.pageId (some data)⟩ := by
  have hmem : h ∈ s.handles := mem_of_getElem? hi
  have hlook := hs.handle h hmem hopen
  obtain ⟨hf, -, -⟩ := (hs.table _ _).mp hlook
  have hset : ∀ f, pinsOf (s.handles.set i { h with modified := true }) f = pinsOf s.handles f := by
    intro f
    exact add_right_cancel (pinsOf_set hi { h with modified := true } f)
  refine hs.change hlook rfl rfl ?_ ?_ (fun g _ => hset g) ?_ ?_ ?_ ?_ (fun _ _ _ hq => hq) ?_
  · intro g hg
    exact .inr ⟨hs.offers_ne hmem hopen hg, hg⟩
  · rw [hset, ← hs.pins h.frameId hf]
  · intro k hk hkopen
    rcases mem_or_eq_of_mem_set hk with hold | rfl
    · exact hs.handle k hold hkopen
    · exact hlook
  · intro g hg hu
    exact hu.of_set hi fun _ heq => absurd heq.symm hg
  · intro q hq
    exact update_of_ne hq _ _
  · intro b hb
    rw [update_self] at hb
    exact Option.some.inj hb
  · -- the frame is not clean: this handle has changed it
    intro _ hu
    have hin : { h with modified := true } ∈ s.handles.set i { h with modified := true } :=
      mem_set (List.getElem?_eq_some_iff.mp hi).1 _
    exact absurd (hu _ hin hopen rfl) (by simp)

end Handles

/-! ## Flushing -/

variable {written : Nat → Option Page8K}

theorem Sound.weaken (hs : s.Sound)
    (hsub : ∀ q b, written q = some b → s.written q = some b) : Sound { s with written := written } :=
  ⟨hs.size, hs.table, hs.pins, hs.handle, hs.offered,
    fun p f b hlook hb => hs.cached p f b hlook (hsub p b hb),
    fun p b hb hclean => hs.stored p b (hsub p b hb) hclean⟩

theorem Sound.flushFrame (hs : s.Sound) {p f : Nat} (hlook : s.pool.pageTable.lookup p = some f)
    (io : DiskFaults) :
    (s.pool.flushFrame io p f).2.pageTable = s.pool.pageTable ∧
      (∀ g, g ≠ f → (s.pool.flushFrame io p f).2.frame g = s.pool.frame g) ∧
      ∃ w, Sound ⟨(s.pool.flushFrame io p f).2, s.handles, w⟩ ∧ (∀ q, q ≠ p → w q = s.written q) ∧
        (w p = s.written p ∧ (s.pool.flushFrame io p f).2.frame f = s.pool.frame f ∨
          w p = some ((s.pool.flushFrame io p f).2.frame f).data) := by
  obtain ⟨hf, -, -⟩ := (hs.table p f).mp hlook
  set data := SlottedPage.computeAndWriteChecksum (s.pool.frame f).data with hdata
  have hother : ∀ q, q ≠ p → Function.update s.written p (some data) q = s.written q :=
    fun q hq => update_of_ne hq _ _
  have hself : ∀ b, Function.update s.written p (some data) p = some b → data = b := by
    intro b hb
    rw [update_self] at hb
    exact Option.some.inj hb
  have hframe : ∀ (isDirty : Bool) (d : DiskManager) (g : Nat), BufferPoolManager.frame
      { s.pool.setFrame f { s.pool.frame f with data := data, isDirty := isDirty } with disk := d } g =
      if g = f then { s.pool.frame f with data := data, isDirty := isDirty } else s.pool.frame g :=
    fun _ _ => frame_setFrame hf _
  cases hdirty : (s.pool.frame f).isDirty with
  | false =>
    have hpool : s.pool.flushFrame io p f = (.ok (), s.pool) := by
      simp only [BufferPoolManager.flushFrame, hdirty, Bool.false_eq_true, if_false]
    rw [hpool]
    exact ⟨rfl, fun _ _ => rfl, s.written, hs, fun _ _ => rfl, Or.inl ⟨rfl, rfl⟩⟩
  | true =>
    cases hio : io.write p with
    | some e =>
      -- the checksum is in the frame, which stays dirty
      have hpool : s.pool.flushFrame io p f = (.error e,
          { s.pool.setFrame f { s.pool.frame f with data := data, isDirty := true } with
            disk := s.pool.disk }) := by
        simp only [BufferPoolManager.flushFrame, DiskManager.writePage, hdirty, hio, if_true, hdata]
        rfl
      rw [hpool]
      refine ⟨rfl, fun g hg => ?_, Function.update s.written p (some data), ?_, hother, Or.inr ?_⟩
      · exact (hframe true _ g).trans (if_neg hg)
      · exact hs.rewrite hlook data true hother hself (fun _ _ _ hq => hq) (fun h => by cases h)
      · rw [update_self]
        exact congrArg (fun fr : PageFrame => some fr.data) ((hframe true _ f).trans (if_pos rfl)).symm
    | none =>
      have hpool : s.pool.flushFrame io p f = (.ok (),
          { s.pool.setFrame f { s.pool.frame f with data := data, isDirty := false } with
            disk := s.pool.disk.store p data }) := by
        simp only [BufferPoolManager.flushFrame, DiskManager.writePage, hdirty, hio, if_true, hdata]
      rw [hpool]
      refine ⟨rfl, fun g hg => ?_, Function.update s.written p (some data), ?_, hother, Or.inr ?_⟩
      · exact (hframe false _ g).trans (if_neg hg)
      · refine hs.rewrite hlook data false hother hself ?_ ?_
        · intro q b hq hb
          exact DiskManager.page_store_ne hq hb data
        · intro _ _ b hb
          rw [← hself b hb]
          exact DiskManager.page_store_self _ p data
      · rw [update_self]
        exact congrArg (fun fr : PageFrame => some fr.data) ((hframe false _ f).trans (if_pos rfl)).symm

/-- Entries flushed one after the other: a page is known as before or as its frame now is, and the frames
of the former have kept their bytes. -/
theorem Sound.flushEntries (entries : List (Sigma fun _ : Nat => Nat)) (hs : s.Sound)
    (hentries : ∀ e ∈ entries, s.pool.pageTable.lookup e.1 = some e.2) (io : DiskFaults) :
    (s.pool.flushEntries io entries).2.pageTable = s.pool.pageTable ∧
      ∃ w, Sound ⟨(s.pool.flushEntries io entries).2, s.handles, w⟩ ∧
        (∀ q, s.pool.pageTable.lookup q = none → w q = s.written q) ∧
        ∀ q f, s.pool.pageTable.lookup q = some f →
          (w q = s.written q ∧ ((s.pool.flushEntries io entries).2.frame f).data = (s.pool.frame f).data ∨
            w q = some ((s.pool.flushEntries io entries).2.frame f).data) := by
  induction entries generalizing s with
  | nil => exact ⟨rfl, s.written, hs, fun _ _ => rfl, fun _ _ _ => Or.inl ⟨rfl, rfl⟩⟩
  | cons e entries ih =>
    have hlook := hentries e mem_cons_self
    obtain ⟨htable, hframes, w, hw, hother, hpage⟩ := hs.flushFrame hlook io
    -- what one flush leaves of each page
    have hone : ∀ q f, s.pool.pageTable.lookup q = some f →
        (w q = s.written q ∧
            ((s.pool.flushFrame io e.1 e.2).2.frame f).data = (s.pool.frame f).data ∨
          w q = some ((s.pool.flushFrame io e.1 e.2).2.frame f).data) := by
      intro q f hq
      by_cases hqe : q = e.1
      · subst hqe
        have hfe : f = e.2 := Option.some.inj (hq.symm.trans hlook)
        subst hfe
        rcases hpage with ⟨hwq, hfr⟩ | hwq
        · exact .inl ⟨hwq, by rw [hfr]⟩
        · exact .inr hwq
      · have hfe : f ≠ e.2 := by
          rintro rfl
          exact hqe (((hs.table q _).mp hq).2.1.symm.trans ((hs.table _ _).mp hlook).2.1)
        exact .inl ⟨hother q hqe, by rw [hframes f hfe]⟩
    have hnone : ∀ q, s.pool.pageTable.lookup q = none → w q = s.written q := by
      intro q hq
      refine hother q ?_
      rintro rfl
      rw [hlook] at hq
      cases hq
    unfold BufferPoolManager.flushEntries
    cases hres : s.pool.flushFrame io e.1 e.2 with
    | mk res pool =>
      rw [hres] at htable hw hone
      cases res with
      | error msg => exact ⟨htable, w, hw, hnone, hone⟩
      | ok _ =>
        obtain ⟨htable', w', hw', hnone', hpage'⟩ := ih hw fun e' he' => by
          rw [htable]
          exact hentries e' (mem_cons_of_mem _ he')
        refine ⟨htable'.trans htable, w', hw', fun q hq => ?_, fun q f hq => ?_⟩
        · exact (hnone' q (by rw [htable]; exact hq)).trans (hnone q hq)
        · rcases hpage' q f (by rw [htable]; exact hq) with ⟨hwq, hdata⟩ | hwq
          · rcases hone q f hq with ⟨hwq', hdata'⟩ | hwq'
            · exact .inl ⟨hwq.trans hwq', hdata.trans hdata'⟩
            · refine .inr ?_
              rw [hwq, hdata]
              exact hwq'
          · exact .inr hwq

variable {pool : BufferPoolManager}

theorem Sound.flushed (hs : s.Sound) {w : Nat → Option Page8K} (hw : Sound ⟨pool, s.handles, w⟩)
    (hnone : ∀ q, s.pool.pageTable.lookup q = none → w q = s.written q)
    (hpage : ∀ q f, s.pool.pageTable.lookup q = some f →
      (w q = s.written q ∧ (pool.frame f).data = (s.pool.frame f).data ∨
        w q = some (pool.frame f).data)) : (s.flushed pool).Sound := by
  refine hw.weaken fun q b hb => ?_
  cases hlook : s.pool.pageTable.lookup q with
  | none =>
    rw [hlook] at hb
    exact (hnone q hlook).trans hb
  | some f =>
    simp only [hlook] at hb
    rcases hpage q f hlook with ⟨hwq, hdata⟩ | hwq
    · rw [if_pos hdata] at hb
      exact hwq.trans hb
    · split_ifs at hb with hsame
      · exact hwq.trans (congrArg some (hsame.trans (hs.cached q f b hlook hb)))
      · exact hwq.trans hb

/-! ## Fetching and allocating -/

variable {io : DiskFaults}

variable {p : Nat}

theorem page_of_readPage {d : DiskManager} {data : Page8K} (h : d.readPage io p = .ok data) :
    d.page p = some data := by
  unfold DiskManager.readPage at h
  cases hio : io.read p with
  | some e => simp [hio] at h
  | none =>
    cases hpage : d.page p with
    | none => simp [hio, hpage] at h
    | some b =>
      simp only [hio, hpage, Except.ok.injEq] at h
      rw [h]

theorem Sound.read_eq (hs : s.Sound) {f p : Nat} {r : ClockReplacer}
    {data b : Page8K} (hlook : s.pool.pageTable.lookup p = none)
    (hvictim : s.pool.replacer.victim = (some f, r))
    (hev : BufferPoolManager.evict { s.pool with replacer := r } io f = .ok pool)
    (hread : pool.disk.readPage io p = .ok data) (hb : s.written p = some b) : data = b := by
  obtain ⟨hsize, hsub, hof⟩ := ClockReplacer.victim_spec hvictim
  have hoff := (hof f rfl).1
  have hf := hs.offered_lt hoff
  have hpage : pool.disk.page p = some b := by
    refine (hs.replacer hsize hsub).stored_evicted hf (hs.offered f hoff) (evict_ok hf hev) hb ?_
    intro g hg
    exact absurd (hlook.symm.trans hg) (by simp)
  exact Option.some.inj ((page_of_readPage hread).symm.trans hpage)

theorem Sound.fetch (hs : s.Sound) (hu : FetchUnaliased s.pool io p) :
    (∀ e pool, s.pool.fetchPage io p = (.error e, pool) → Sound { s with pool := pool }) ∧
      ∀ f pool, s.pool.fetchPage io p = (.ok f, pool) →
        Sound ⟨pool, s.handles ++ [⟨p, f, false, true⟩], s.written⟩ := by
  rcases fetchPage_cases s.pool io p with ⟨f, hlook, heq⟩ | ⟨hlook, hmiss⟩
  · rw [heq]
    refine ⟨(fun _ _ h => by cases h), fun g pool h => ?_⟩
    cases h
    exact hs.hit hlook
  rcases hmiss with ⟨r, e, hvictim, heq⟩ | ⟨f, r, hvictim, hfound⟩
  · rw [heq]
    obtain ⟨hsize, hsub, -⟩ := ClockReplacer.victim_spec hvictim
    refine ⟨fun _ pool h => ?_, fun _ _ h => by cases h⟩
    cases h
    exact hs.replacer hsize hsub
  obtain ⟨hsize, hsub, hof⟩ := ClockReplacer.victim_spec hvictim
  have hoff := (hof f rfl).1
  have hf := hs.offered_lt hoff
  rcases hfound with ⟨e, e', -, heq⟩ | ⟨pool', hev, hread⟩
  · rw [heq]
    refine ⟨fun _ pool h => ?_, fun _ _ h => by cases h⟩
    cases h
    exact hs.replacer hsize hsub
  have hcond := hu hlook f r pool' hvictim hev
  rcases hread with ⟨e, e', hread, heq⟩ | ⟨data, hread, heq⟩
  · -- the victim was empty, so nothing has been evicted
    rw [hread] at hcond
    have hpool : pool' = { s.pool with replacer := r } := by
      have hno : (BufferPoolManager.frame { s.pool with replacer := r } f).pageId = noPage := hcond
      simp only [evict, hno, if_true] at hev
      exact (Except.ok.inj hev).symm
    rw [heq]
    refine ⟨fun _ pool h => ?_, fun _ _ h => by cases h⟩
    cases h
    rw [hpool]
    exact hs.replacer hsize hsub
  · rw [hread] at hcond
    rw [heq]
    refine ⟨(fun _ _ h => by cases h), fun g pool h => ?_⟩
    cases h
    have hdata : ∀ b, s.written p = some b → data = b :=
      fun b => hs.read_eq hlook hvictim hev hread
    refine hs.install hoff hsize hsub rfl (evict_ok hf hev) hcond ?_ (fun _ _ => rfl) hdata ?_
    · intro g hg
      exact absurd (hlook.symm.trans hg) (by simp)
    · intro _ b hb
      rw [← hdata b hb]
      exact page_of_readPage hread

theorem Sound.newPage (hs : s.Sound) (hu : NewPageUnaliased s.pool io) (pageType : UInt8) :
    (∀ e pool, s.pool.newPage io pageType = (.error e, pool) → Sound { s with pool := pool }) ∧
      ∀ p f pool, s.pool.newPage io pageType = (.ok (p, f), pool) →
        Sound ⟨pool, s.handles ++ [⟨p, f, false, true⟩],
          Function.update s.written p (some (pool.frame f).data)⟩ := by
  rcases newPage_cases s.pool io pageType with ⟨r, e, hvictim, heq⟩ | ⟨f, r, hvictim, hfound⟩
  · rw [heq]
    obtain ⟨hsize, hsub, -⟩ := ClockReplacer.victim_spec hvictim
    refine ⟨fun _ pool h => ?_, fun _ _ _ h => by cases h⟩
    cases h
    exact hs.replacer hsize hsub
  obtain ⟨hsize, hsub, hof⟩ := ClockReplacer.victim_spec hvictim
  have hoff := (hof f rfl).1
  have hf := hs.offered_lt hoff
  have hpage := DiskManager.page_allocatePage s.pool.disk
  rcases hfound with ⟨e, e', -, heq⟩ | ⟨pool', hev, heq⟩
  · rw [heq]
    refine ⟨fun _ pool h => ?_, fun _ _ _ h => by cases h⟩
    cases h
    exact (hs.disk hpage).replacer hsize hsub
  · rw [heq]
    refine ⟨(fun _ _ h => by cases h), fun p g pool h => ?_⟩
    cases h
    obtain ⟨hno, halias⟩ := hu f r pool' hvictim hev
    have hevicted : Evicted { s.pool with replacer := r, disk := s.pool.disk.allocatePage.2 } pool' f :=
      evict_ok hf hev
    have hframe : ∀ data : Page8K, (pool'.install f s.pool.disk.allocatePage.1 data true).frame f =
        ⟨data, s.pool.disk.allocatePage.1, 1, true⟩ := by
      intro data
      rw [frame_install (hevicted.length ▸ hf), if_pos rfl]
    rw [hframe]
    refine hs.install hoff hsize hsub hpage hevicted hno halias ?_ ?_ (fun h => by cases h)
    · intro q hq
      exact update_of_ne hq _ _
    · intro b hb
      rw [update_self] at hb
      exact Option.some.inj hb

/-! ## Freeing and vacuuming -/

theorem Sound.dropClosed {h : PageHandle} (hclosed : h.isOpen = false)
    (hs : Sound ⟨pool, handles ++ [h], written⟩) : Sound ⟨pool, handles, written⟩ := by
  refine ⟨hs.size, hs.table, fun f hf => ?_, fun k hk => ?_, hs.offered, hs.cached, fun p b hb hc => ?_⟩
  · refine (hs.pins f hf).trans ?_
    rw [pinsOf_concat, if_neg fun h' => Bool.false_ne_true (hclosed.symm.trans h'.1), add_zero]
  · exact hs.handle k (mem_append_left _ hk)
  · refine hs.stored p b hb fun f hf => ⟨(hc f hf).1, fun k hk hopen => ?_⟩
    rcases mem_append.mp hk with hold | hnew
    · exact (hc f hf).2 k hold hopen
    · rw [mem_singleton.mp hnew, hclosed] at hopen
      cases hopen

theorem Sound.rewriteUnpin {p f : Nat}
    (hs : Sound ⟨pool, handles ++ [⟨p, f, false, true⟩], written⟩) (g : Page8K → Page8K) :
    ((pool.rewriteFrame f g).unpinPage p true).1 = .ok () ∧
      Sound ⟨((pool.rewriteFrame f g).unpinPage p true).2, handles,
        Function.update written p (some (g (pool.frame f).data))⟩ := by
  have hlook : pool.pageTable.lookup p = some f :=
    hs.handle ⟨p, f, false, true⟩ (mem_append_right _ mem_cons_self) rfl
  have hrewritten : Sound ⟨pool.rewriteFrame f g, handles ++ [⟨p, f, false, true⟩],
      Function.update written p (some (g (pool.frame f).data))⟩ := by
    refine hs.rewrite (d := pool.disk) hlook (g (pool.frame f).data) true ?_ ?_ (fun _ _ _ h => h)
      (fun h => by cases h)
    · intro q hq
      exact update_of_ne hq _ _
    · intro b hb
      rw [update_self] at hb
      exact Option.some.inj hb
  have hi : (handles ++ [⟨p, f, false, true⟩])[handles.length]? = some ⟨p, f, false, true⟩ := by
    rw [getElem?_append_right (Nat.le_refl _), Nat.sub_self]
    rfl
  constructor
  · have hlook' : (pool.rewriteFrame f g).pageTable.lookup p = some f := hlook
    simp only [unpinPage, hlook']
  · have hunpinned : Sound ⟨((pool.rewriteFrame f g).unpinPage p true).2, _, _⟩ :=
      hrewritten.unpin hi rfl (fun _ => rfl)
    refine Sound.dropClosed (h := ⟨p, f, false, false⟩) rfl ?_
    simpa using hunpinned

variable {α : Type}

theorem Sound.rewritten {b : Page8K}
    (hw : Sound ⟨pool, s.handles, Function.update s.written p (some b)⟩) (a : α) :
    (s.rewritten p (.ok a, pool)).Sound := by
  refine hw.weaken fun q c hc => ?_
  change Function.update s.written p ((pool.pageTable.lookup p).map fun f => (pool.frame f).data) q =
    some c at hc
  change Function.update s.written p (some b) q = some c
  by_cases hq : q = p
  · subst hq
    rw [update_self] at hc ⊢
    obtain ⟨f, hlook, hdata⟩ := map_eq_some_iff.mp hc
    have := hw.cached q f b hlook (update_self _ _ _)
    rw [← hdata, ← this]
  · rw [update_of_ne hq] at hc ⊢
    exact hc

variable {res : H2Result α × BufferPoolManager}

theorem Sound.rewritesPage (hs : s.Sound) (hu : FetchUnaliased s.pool io p)
    (h : s.pool.RewritesPage io p res) : (s.rewritten p res).Sound := by
  obtain ⟨herr, hok⟩ := hs.fetch hu
  cases h with
  | failed hfetch => exact herr _ _ hfetch
  | refused change hfetch hunpin =>
    have hres := ((hok _ _ hfetch).rewriteUnpin change).1
    rw [hunpin] at hres
    cases hres
  | rewritten change a hfetch hunpin hd =>
    have hsound := ((hok _ _ hfetch).rewriteUnpin change).2
    rw [hunpin] at hsound
    rcases hd with rfl | rfl
    · exact hsound.rewritten a
    · exact (hsound.disk (DiskManager.page_deallocatePage _ p)).rewritten a

variable {c : DiskFaults × PoolCall}

theorem Sound.step (hs : s.Sound) (hu : Unaliased s c) : (PoolSession.step s c).Sound := by
  obtain ⟨io, call⟩ := c
  cases call with
  | newPage pageType =>
    obtain ⟨herr, hok⟩ := hs.newPage hu pageType
    unfold PoolSession.step
    simp only
    cases hnew : s.pool.newPage io pageType with
    | mk res pool =>
      cases res with
      | error e => exact herr e pool hnew
      | ok pf => exact hok pf.1 pf.2 pool hnew
  | fetchPage p =>
    obtain ⟨herr, hok⟩ := hs.fetch hu
    unfold PoolSession.step
    simp only
    cases hfetch : s.pool.fetchPage io p with
    | mk res pool =>
      cases res with
      | error e => exact herr e pool hfetch
      | ok f => exact hok f pool hfetch
  | modify i g =>
    unfold PoolSession.step
    simp only
    cases hi : s.handles[i]? with
    | none => exact hs
    | some h =>
      simp only
      split
      · rename_i hopen
        exact hs.modify hi hopen _
      · exact hs
  | unpinPage i isDirty =>
    unfold PoolSession.step
    simp only
    cases hi : s.handles[i]? with
    | none => exact hs
    | some h =>
      simp only
      split
      · rename_i hopen
        refine hs.unpin hi hopen fun hmod => ?_
        rw [hmod, Bool.or_true]
      · exact hs
  | flushPage p =>
    change (s.flushed (s.pool.flushPage io p).2).Sound
    cases hlook : s.pool.pageTable.lookup p with
    | none =>
      have hpool : (s.pool.flushPage io p).2 = s.pool := by simp only [BufferPoolManager.flushPage, hlook]
      rw [hpool]
      exact hs.flushed hs (fun _ _ => rfl) fun _ _ _ => Or.inl ⟨rfl, rfl⟩
    | some f =>
      have hpool : (s.pool.flushPage io p).2 = (s.pool.flushEntries io [⟨p, f⟩]).2 := by
        simp only [BufferPoolManager.flushPage, hlook, BufferPoolManager.flushEntries]
        cases s.pool.flushFrame io p f with
        | mk res pool => cases res <;> rfl
      obtain ⟨-, w, hw, hnone, hpage⟩ := hs.flushEntries [⟨p, f⟩]
        (fun e he => by rw [mem_singleton.mp he]; exact hlook) io
      rw [hpool]
      exact hs.flushed hw hnone hpage
  | flushAll =>
    obtain ⟨-, w, hw, hnone, hpage⟩ := hs.flushEntries s.pool.pageTable.entries
      (fun e he => mem_lookup_iff.mpr he) io
    exact hs.flushed hw hnone hpage
  | freePage p => exact hs.rewritesPage hu (rewritesPage_free _ io p)
  | vacuumPage p => exact hs.rewritesPage hu (rewritesPage_vacuum _ io p)

theorem Sound.transparent (hs : s.Sound) : Transparent s := by
  refine ⟨hs.table, fun f r hvictim => ?_, fun io p f pool hfetch b hb => ?_⟩
  · exact hs.offered f ((ClockReplacer.victim_spec hvictim).2.2 f rfl).1
  · rcases fetchPage_cases s.pool io p with ⟨g, hlook, heq⟩ | ⟨hlook, hmiss⟩
    · rw [heq] at hfetch
      cases hfetch
      have hframe := frame_setFrame ((hs.table p f).mp hlook).1
        { s.pool.frame f with pinCount := (s.pool.frame f).pinCount + 1 } f
      rw [if_pos rfl] at hframe
      have hdata := congrArg PageFrame.data hframe
      exact hdata.trans (hs.cached p f b hlook hb)
    rcases hmiss with ⟨r, e, -, heq⟩ | ⟨g, r, hvictim, hfound⟩
    · rw [heq] at hfetch
      cases hfetch
    rcases hfound with ⟨e, e', -, heq⟩ | ⟨pool', hev, ⟨e, e', -, heq⟩ | ⟨data, hread, heq⟩⟩
    · rw [heq] at hfetch
      cases hfetch
    · rw [heq] at hfetch
      cases hfetch
    · rw [heq] at hfetch
      cases hfetch
      have hf := hs.offered_lt ((ClockReplacer.victim_spec hvictim).2.2 f rfl).1
      have hevicted : Evicted { s.pool with replacer := r } pool' f := evict_ok hf hev
      rw [frame_install (hevicted.length ▸ hf), if_pos rfl]
      exact hs.read_eq hlook hvictim hev hread hb

/-! ## A call that aliases a page breaks the table -/

theorem Consistent.ne_noPage (h : Consistent pool) {p f : Nat}
    (hlook : pool.pageTable.lookup p = some f) : p ≠ noPage := ((h p f).mp hlook).2.2

theorem Sound.fetchUnaliased (hs : s.Sound)
    (herr : ∀ e pool, s.pool.fetchPage io p = (.error e, pool) → Consistent pool)
    (hok : ∀ f pool, s.pool.fetchPage io p = (.ok f, pool) → pool.pageTable.lookup p = some f → p ≠ noPage) :
    FetchUnaliased s.pool io p := by
  intro hlook f r pool' hvictim hev
  have hf := hs.offered_lt ((ClockReplacer.victim_spec hvictim).2.2 f rfl).1
  have hevicted : Evicted { s.pool with replacer := r } pool' f := evict_ok hf hev
  cases hread : pool'.disk.readPage io p with
  | ok data =>
    have hfetch : s.pool.fetchPage io p = (.ok f, pool'.install f p data false) := by
      simp only [BufferPoolManager.fetchPage, hlook, hvictim, hev, hread]
    refine hok f _ hfetch ?_
    rw [lookup_install, if_pos rfl]
  | error e =>
    have hfetch : s.pool.fetchPage io p =
        (.error (.storage s!"Disk read error during page fetch: {e}"), pool') := by
      simp only [BufferPoolManager.fetchPage, hlook, hvictim, hev, hread]
    by_contra hpage
    have hholds : Holds pool' f (s.pool.frame f).pageId :=
      ⟨hevicted.length ▸ hf, hevicted.pageId, hpage⟩
    have hmapped := (herr _ _ hfetch _ _).mpr hholds
    rw [hevicted.table, if_pos ⟨rfl, hpage⟩] at hmapped
    cases hmapped

theorem Sound.newPageUnaliased (hs : s.Sound) (pageType : UInt8)
    (hok : ∀ p f pool, s.pool.newPage io pageType = (.ok (p, f), pool) → Consistent pool) :
    NewPageUnaliased s.pool io := by
  intro f r pool' hvictim hev
  have hf := hs.offered_lt ((ClockReplacer.victim_spec hvictim).2.2 f rfl).1
  have hevicted : Evicted { s.pool with replacer := r, disk := s.pool.disk.allocatePage.2 } pool' f :=
    evict_ok hf hev
  set p := s.pool.disk.allocatePage.1 with hp
  have hnew : s.pool.newPage io pageType =
      (.ok (p, f), pool'.install f p (SlottedPage.init p pageType) true) := by
    simp only [BufferPoolManager.newPage, hvictim, hev, hp]
  have hcons := hok p f _ hnew
  have hself : (pool'.install f p (SlottedPage.init p pageType) true).pageTable.lookup p = some f := by
    rw [lookup_install, if_pos rfl]
  refine ⟨hcons.ne_noPage hself, fun g hg => ?_⟩
  by_contra hne
  obtain ⟨hglt, hgpage, hgno⟩ := (hs.table p g).mp hg
  have hholds : Holds (pool'.install f p (SlottedPage.init p pageType) true) g p := by
    refine ⟨?_, ?_, hgno⟩
    · exact ((length_setFrame pool' f _).trans hevicted.length).symm ▸ hglt
    · rw [frame_install (hevicted.length ▸ hf), if_neg hne, hevicted.other g hne]
      exact hgpage
  exact hne (Option.some.inj (((hcons p g).mpr hholds).symm.trans hself))

theorem pageTable_unpinPage (pool : BufferPoolManager) (p : Nat) (isDirty : Bool) :
    (pool.unpinPage p isDirty).2.pageTable = pool.pageTable := by
  unfold BufferPoolManager.unpinPage
  split
  · rfl
  · simp only
    split <;> rfl

theorem pool_rewritten (s : PoolSession) (p : Nat) (res : H2Result α × BufferPoolManager) :
    (s.rewritten p res).pool = res.2 := by
  obtain ⟨res, pool⟩ := res
  cases res <;> rfl

theorem pool_newPage (s : PoolSession) (io : DiskFaults) (pageType : UInt8) :
    (PoolSession.step s (io, .newPage pageType)).pool = (s.pool.newPage io pageType).2 := by
  unfold PoolSession.step
  simp only
  split <;> rename_i heq <;> rw [heq]

theorem pool_fetchPage (s : PoolSession) (io : DiskFaults) (p : Nat) :
    (PoolSession.step s (io, .fetchPage p)).pool = (s.pool.fetchPage io p).2 := by
  unfold PoolSession.step
  simp only
  split <;> rename_i heq <;> rw [heq]

theorem rewritesPage_spec (h : pool.RewritesPage io p res) :
    res.2.pageTable = (pool.fetchPage io p).2.pageTable ∧
      ∀ e pool', pool.fetchPage io p = (.error e, pool') → res.2 = pool' := by
  have htable : ∀ {pool' pool'' : BufferPoolManager} {f : Nat} {change : Page8K → Page8K}
    {res' : H2Result Unit},
      (pool'.rewriteFrame f change).unpinPage p true = (res', pool'') →
        pool''.pageTable = pool'.pageTable := by
    intro pool' pool'' f change res' hunpin
    have h := pageTable_unpinPage (pool'.rewriteFrame f change) p true
    rwa [hunpin] at h
  cases h with
  | failed hfetch =>
    rw [hfetch]
    exact ⟨rfl, fun _ _ h => congrArg Prod.snd h⟩
  | refused change hfetch hunpin =>
    rw [hfetch]
    exact ⟨htable hunpin, fun _ _ h => by cases h⟩
  | rewritten change a hfetch hunpin =>
    rw [hfetch]
    have hsame := htable hunpin
    exact ⟨hsame, fun _ _ h => by cases h⟩

theorem Sound.fetchUnaliased_of_rewritten (hs : s.Sound)
    (hspec : res.2.pageTable = (s.pool.fetchPage io p).2.pageTable ∧
      ∀ e pool', s.pool.fetchPage io p = (.error e, pool') → res.2 = pool')
    (h : Consistent (s.rewritten p res).pool) : FetchUnaliased s.pool io p := by
  rw [pool_rewritten] at h
  refine hs.fetchUnaliased (fun e pool hfetch => ?_) (fun f pool hfetch hlook => ?_)
  · rwa [← hspec.2 e pool hfetch]
  · refine h.ne_noPage (f := f) ?_
    rw [hspec.1, hfetch]
    exact hlook

theorem Sound.unaliased (hs : s.Sound) (h : Consistent (PoolSession.step s c).pool) : Unaliased s c := by
  obtain ⟨io, call⟩ := c
  cases call with
  | newPage pageType =>
    refine hs.newPageUnaliased pageType fun p f pool hnew => ?_
    simp only [PoolSession.step, hnew] at h
    exact h
  | fetchPage p =>
    refine hs.fetchUnaliased (fun e pool hfetch => ?_) (fun f pool hfetch hlook => ?_)
    · simp only [PoolSession.step, hfetch] at h
      exact h
    · simp only [PoolSession.step, hfetch] at h
      exact h.ne_noPage hlook
  | modify i g => trivial
  | unpinPage i isDirty => trivial
  | flushPage p => trivial
  | flushAll => trivial
  | freePage p => exact hs.fetchUnaliased_of_rewritten (rewritesPage_spec (rewritesPage_free _ io p)) h
  | vacuumPage p => exact hs.fetchUnaliased_of_rewritten (rewritesPage_spec (rewritesPage_vacuum _ io p)) h

/-- **The buffer pool is a transparent cache in every state of a run exactly when no call of the run lets
a page number come to stand in a second frame, or leaves one in a frame without a mapping.** -/
theorem transparent_iff_unaliased (disk : DiskManager) (poolSize : Nat)
    (calls : List (DiskFaults × PoolCall)) :
    (∀ before, before <+: calls → Transparent (runs PoolSession.step (start disk poolSize) before)) ↔
      Meets PoolSession.step Unaliased (start disk poolSize) calls :=
  forall_prefix_iff_meets (fun _ _ hs => hs.step) (fun _ hs => hs.transparent)
    (fun _ _ hs h => hs.unaliased h.consistent) (sound_start disk poolSize) calls

/-- A page is freed while it is cached, and its number is given out again. -/
def freedAndReused : List (DiskFaults × PoolCall) :=
  [(.none, .newPage 1), (.none, .unpinPage 0 false), (.none, .freePage 0), (.none, .newPage 1),
    (.none, .unpinPage 1 false)]

/-- Page 0 stands in both frames. -/
theorem freedAndReused_not_transparent :
    ¬ Transparent (runs PoolSession.step (start .newInMemory 2) freedAndReused) := by
  intro h
  have hfirst : Holds (runs PoolSession.step (start .newInMemory 2) freedAndReused).pool 0 0 :=
    ⟨by decide +kernel, by decide +kernel, by decide +kernel⟩
  have hsecond : Holds (runs PoolSession.step (start .newInMemory 2) freedAndReused).pool 1 0 :=
    ⟨by decide +kernel, by decide +kernel, by decide +kernel⟩
  have hsame := ((h.consistent 0 0).mpr hfirst).symm.trans ((h.consistent 0 1).mpr hsecond)
  exact absurd (Option.some.inj hsame) (by decide)

end PoolSession

end H2Database.Mvstore
