import H2Database.Mvstore.BufferPool.Failures
import H2Database.Mvstore.BufferPool.Tuples

/-!
# The checksums of the pages that go to the disk

`flush_page` and `flush_all` compute the checksum of a page before they write it; an eviction writes the
frame as it is.  Which images a call hands to `write_page` is said by `images`, and which of them verify by
the seal of the page: a page is sealed if it has no checksum or the one of its bytes.
-/

namespace H2Database.Mvstore

open Reasoning List

/-! ## The CRC on naturals, as the kernel computes it -/

/-- `crcBit` on the number of its register. -/
def crcBitNat (c : Nat) : Nat := Nat.xor (Nat.div c 2) (Nat.mul 0xEDB88320 (Nat.mod c 2))

def crcByteNat (c : Nat) (b : UInt8) : Nat :=
  crcBitNat (crcBitNat (crcBitNat (crcBitNat (crcBitNat (crcBitNat (crcBitNat (crcBitNat
    (Nat.xor c b.toNat))))))))

theorem toNat_crcBit (c : UInt32) : (crcBit c).toNat = crcBitNat c.toNat := by
  have hhalf : (c >>> 1).toNat = c.toNat / 2 := by
    rw [UInt32.toNat_shiftRight]
    show c.toNat >>> 1 = c.toNat / 2
    rw [Nat.shiftRight_eq_div_pow]
  have hodd : (c &&& 1).toNat = c.toNat % 2 := by
    rw [UInt32.toNat_and]
    exact Nat.and_one_is_mod c.toNat
  have hbit : crcBitNat c.toNat = c.toNat / 2 ^^^ 0xEDB88320 * (c.toNat % 2) := rfl
  rw [hbit]
  unfold crcBit
  by_cases h : c &&& 1 = 1
  · rw [if_pos h, UInt32.toNat_xor, hhalf, ← hodd, h]
    rfl
  · have hzero : c.toNat % 2 = 0 := by
      rw [← hodd]
      have hlt : (c &&& 1).toNat < 2 := by
        rw [hodd]
        exact Nat.mod_lt _ (by decide)
      have hne : (c &&& 1).toNat ≠ 1 := fun heq => h (UInt32.toNat_inj.mp heq)
      omega
    rw [if_neg h, hhalf, hzero, Nat.mul_zero, Nat.xor_zero]

theorem toNat_crcByte (c : UInt32) (b : UInt8) : (crcByte c b).toNat = crcByteNat c.toNat b := by
  unfold crcByte crcByteNat
  simp only [toNat_crcBit, UInt32.toNat_xor, UInt8.toNat_toUInt32]
  rfl

theorem crc32_eq (bytes : List UInt8) :
    crc32 bytes = bytes.foldl crcByteNat 0xFFFFFFFF ^^^ 0xFFFFFFFF := by
  have hfold : ∀ c : UInt32, (bytes.foldl crcByte c).toNat = bytes.foldl crcByteNat c.toNat := by
    induction bytes with
    | nil => exact fun _ => rfl
    | cons b bytes ih =>
      intro c
      rw [foldl_cons, foldl_cons, ih, toNat_crcByte]
  rw [crc32, UInt32.toNat_xor, hfold]
  rfl

/-! ## Sealed pages -/

namespace SlottedPage

def Sealed (buf : Page8K) : Prop := readUInt buf 20 4 = 0 ∨ computeAndWriteChecksum buf = buf

theorem readUInt_computeAndWriteChecksum (buf : Page8K) :
    readUInt (computeAndWriteChecksum buf) 20 4 = crc32 (writeUInt buf 20 4 0).1 :=
  readUInt_writeUInt_self (by decide) (crc32_lt _)

variable {off w : Nat}

theorem val_writeUInt (buf : Page8K) (h : off + w ≤ pageSize) (n : Nat) :
    (writeUInt buf off w n).1 = writeAt buf.1 off (leBytes w n).reverse := by
  rw [writeUInt, copyTo, dif_pos (by rw [length_uint]; exact h)]

theorem writeUInt_writeUInt (buf : Page8K) (h : off + w ≤ pageSize) (m n : Nat) :
    writeUInt (writeUInt buf off w m) off w n = writeUInt buf off w n := by
  apply Subtype.ext
  rw [val_writeUInt _ h, val_writeUInt _ h, val_writeUInt _ h]
  apply writeAt_writeAt
  · rw [buf.2]
    omega
  · rw [length_uint, length_uint]

theorem writeUInt_readUInt (buf : Page8K) (h : off + w ≤ pageSize) :
    writeUInt buf off w (readUInt buf off w) = buf := by
  have hin : off + w ≤ buf.1.length := by
    rw [buf.2]
    exact h
  have hlen : (readAt buf.1 off w).reverse.length = w := by
    rw [length_reverse, readAt, length_take, length_drop]
    omega
  have hbytes := leBytes_fromLe (readAt buf.1 off w).reverse
  rw [hlen] at hbytes
  apply Subtype.ext
  rw [val_writeUInt _ h, readUInt, hbytes, reverse_reverse]
  exact writeAt_readAt hin

theorem verifyChecksum_iff (buf : Page8K) : verifyChecksum buf = true ↔ Sealed buf := by
  have hclear : computeAndWriteChecksum buf = writeUInt buf 20 4 (crc32 (writeUInt buf 20 4 0).1) :=
    writeUInt_writeUInt buf (by decide) 0 _
  unfold verifyChecksum Sealed
  simp only [Bool.or_eq_true, beq_iff_eq]
  refine or_congr Iff.rfl ⟨fun h => ?_, fun h => ?_⟩
  · rw [hclear, h]
    exact writeUInt_readUInt buf (by decide)
  · rw [← readUInt_computeAndWriteChecksum, h]

theorem sealed_computeAndWriteChecksum (buf : Page8K) : Sealed (computeAndWriteChecksum buf) := by
  right
  have hclear : writeUInt (computeAndWriteChecksum buf) 20 4 0 = writeUInt buf 20 4 0 :=
    (writeUInt_writeUInt _ (by decide) _ 0).trans (writeUInt_writeUInt buf (by decide) 0 0)
  show writeUInt (writeUInt (computeAndWriteChecksum buf) 20 4 0) 20 4
    (crc32 (writeUInt (computeAndWriteChecksum buf) 20 4 0).1) = _
  rw [hclear]
  rfl

theorem sealed_init (pageId : Nat) (pageType : UInt8) : Sealed (init pageId pageType) :=
  .inl (readUInt_writeUInt_self (by decide) (by decide))

theorem sealed_markAsFree (buf : Page8K) : Sealed (markAsFree buf) := sealed_init (getPageId buf) 2

end SlottedPage

/-! ## The images of a call -/

namespace BufferPoolManager

/-- What an eviction hands to `write_page`, with the page number. -/
def evictImages (pool : BufferPoolManager) (frameId : Nat) : List (Nat × Page8K) :=
  let fr := pool.frame frameId
  if fr.pageId ≠ noPage ∧ fr.isDirty = true then [(fr.pageId, fr.data)] else []

def victimImages (pool : BufferPoolManager) : List (Nat × Page8K) :=
  match pool.replacer.victim.1 with
  | none => []
  | some frameId => pool.evictImages frameId

def fetchImages (pool : BufferPoolManager) (pageId : Nat) : List (Nat × Page8K) :=
  match pool.pageTable.lookup pageId with
  | some _ => []
  | none => pool.victimImages

def flushImages (pool : BufferPoolManager) (pageId frameId : Nat) : List (Nat × Page8K) :=
  let fr := pool.frame frameId
  if fr.isDirty then [(pageId, SlottedPage.computeAndWriteChecksum fr.data)] else []

def flushEntriesImages (pool : BufferPoolManager) (io : DiskFaults) :
    List (Sigma fun _ : Nat => Nat) → List (Nat × Page8K)
  | [] => []
  | e :: entries =>
    pool.flushImages e.1 e.2 ++
      match pool.flushFrame io e.1 e.2 with
      | (.error _, _) => []
      | (.ok (), pool) => pool.flushEntriesImages io entries

end BufferPoolManager

namespace PoolSession

/-- The images that a call hands to `write_page`, in order, with their page numbers. -/
def images (s : PoolSession) (c : DiskFaults × PoolCall) : List (Nat × Page8K) :=
  match c.2 with
  | .newPage _ => s.pool.victimImages
  | .fetchPage p => s.pool.fetchImages p
  | .freePage p => s.pool.fetchImages p
  | .vacuumPage p => s.pool.fetchImages p
  | .flushPage p =>
    match s.pool.pageTable.lookup p with
    | none => []
    | some frameId => s.pool.flushImages p frameId
  | .flushAll => s.pool.flushEntriesImages c.1 s.pool.pageTable.entries
  | .modify _ _ => []
  | .unpinPage _ _ => []

end PoolSession

namespace DiskManager

def storeImages (d : DiskManager) (io : DiskFaults) (images : List (Nat × Page8K)) : DiskManager :=
  (images.filter fun w => (io.write w.1).isNone).foldl (fun d w => d.store w.1 w.2) d

def SameContents (d d' : DiskManager) : Prop := d'.file = d.file ∧ d'.memoryPages = d.memoryPages

theorem storeImages_append (d : DiskManager) (io : DiskFaults) (images images' : List (Nat × Page8K)) :
    d.storeImages io (images ++ images') = (d.storeImages io images).storeImages io images' := by
  rw [storeImages, filter_append, foldl_append]
  rfl

theorem SameContents.refl (d : DiskManager) : SameContents d d := ⟨rfl, rfl⟩

theorem SameContents.trans {d d' d'' : DiskManager} (h : SameContents d d') (h' : SameContents d' d'') :
    SameContents d d'' :=
  ⟨h'.1.trans h.1, h'.2.trans h.2⟩

theorem sameContents_allocatePage (d : DiskManager) : SameContents d d.allocatePage.2 := by
  unfold allocatePage
  split <;> exact ⟨rfl, rfl⟩

theorem sameContents_deallocatePage (d : DiskManager) (p : Nat) : SameContents d (d.deallocatePage p) := by
  unfold deallocatePage
  split <;> exact ⟨rfl, rfl⟩

theorem SameContents.store {d d' : DiskManager} (h : SameContents d d') (p : Nat) (buf : Page8K) :
    SameContents (d.store p buf) (d'.store p buf) := by
  unfold SameContents DiskManager.store
  rw [h.1, h.2]
  exact ⟨rfl, rfl⟩

theorem SameContents.storeImages {d d' : DiskManager} (h : SameContents d d') (io : DiskFaults)
    (images : List (Nat × Page8K)) : SameContents (d.storeImages io images) (d'.storeImages io images) := by
  unfold DiskManager.storeImages
  generalize images.filter (fun w => (io.write w.1).isNone) = stored
  induction stored generalizing d d' with
  | nil => exact h
  | cons w stored ih => exact ih (h.store w.1 w.2)

end DiskManager

namespace BufferPoolManager

open DiskManager

variable {s s' : BufferPoolManager}

theorem disk_evict (s : BufferPoolManager) (io : DiskFaults) (f : Nat) :
    (∀ s', s.evict io f = .ok s' → s'.disk = s.disk.storeImages io (s.evictImages f)) ∧
      ∀ e, s.evict io f = .error e → s.disk = s.disk.storeImages io (s.evictImages f) := by
  by_cases hno : (s.frame f).pageId = noPage
  · have hev : s.evict io f = .ok s := by simp only [evict, if_pos hno]
    have himages : s.evictImages f = [] := if_neg fun h => h.1 hno
    rw [hev, himages]
    exact ⟨fun s' h => by cases h; rfl, fun e h => by cases h⟩
  by_cases hdirty : (s.frame f).isDirty = true
  · have himages : s.evictImages f = [((s.frame f).pageId, (s.frame f).data)] := if_pos ⟨hno, hdirty⟩
    rw [himages]
    unfold evict writePage
    simp only [if_neg hno, if_pos hdirty]
    cases hio : io.write (s.frame f).pageId with
    | some e =>
      refine ⟨(fun _ h => by cases h), fun e h => ?_⟩
      simp [DiskManager.storeImages, hio]
    | none =>
      refine ⟨fun s' h => ?_, fun e h => by cases h⟩
      cases h
      simp [DiskManager.storeImages, hio]
  · have himages : s.evictImages f = [] := if_neg fun h => hdirty h.2
    rw [himages]
    unfold evict
    simp only [if_neg hno, if_neg hdirty]
    exact ⟨fun s' h => by cases h; rfl, fun e h => by cases h⟩

theorem disk_flushFrame (s : BufferPoolManager) (io : DiskFaults) (p f : Nat) :
    (s.flushFrame io p f).2.disk = s.disk.storeImages io (s.flushImages p f) := by
  unfold flushFrame flushImages
  simp only
  split_ifs
  · unfold writePage
    cases hio : io.write p <;> simp [DiskManager.storeImages, setFrame, hio]
  · rfl

theorem disk_flushEntries (io : DiskFaults) (entries : List (Sigma fun _ : Nat => Nat))
    (s : BufferPoolManager) :
    (s.flushEntries io entries).2.disk = s.disk.storeImages io (s.flushEntriesImages io entries) := by
  induction entries generalizing s with
  | nil => rfl
  | cons e entries ih =>
    have hone := disk_flushFrame s io e.1 e.2
    unfold flushEntries flushEntriesImages
    rw [storeImages_append, ← hone]
    cases s.flushFrame io e.1 e.2 with
    | mk res pool =>
      cases res with
      | error msg => rfl
      | ok _ => exact ih pool

theorem disk_flushPage (s : BufferPoolManager) (io : DiskFaults) {p f : Nat}
    (hlook : s.pageTable.lookup p = some f) :
    (s.flushPage io p).2.disk = s.disk.storeImages io (s.flushImages p f) := by
  have hone := disk_flushFrame s io p f
  unfold flushPage
  rw [hlook]
  simp only
  rw [← hone]
  cases s.flushFrame io p f with
  | mk res pool => cases res <;> rfl

theorem disk_fetchPage (s : BufferPoolManager) (io : DiskFaults) (p : Nat) :
    (s.fetchPage io p).2.disk = s.disk.storeImages io (s.fetchImages p) := by
  unfold fetchImages victimImages
  rcases fetchPage_cases s io p with ⟨f, hlook, heq⟩ |
    ⟨hlook, ⟨r, e', hvictim, heq⟩ | ⟨f, r, hvictim, hfound⟩⟩
  · rw [heq, hlook]
    rfl
  · rw [heq, hlook, hvictim]
    rfl
  · rw [hlook, hvictim]
    obtain ⟨hok, herr⟩ := disk_evict { s with replacer := r } io f
    rcases hfound with ⟨e, e', hev, heq⟩ | ⟨s', hev, ⟨e, e', -, heq⟩ | ⟨data, -, heq⟩⟩
    · rw [heq]
      exact herr e hev
    · rw [heq]
      exact hok s' hev
    · rw [heq]
      exact hok s' hev

theorem contents_newPage (s : BufferPoolManager) (io : DiskFaults) (pageType : UInt8) :
    SameContents (s.disk.storeImages io s.victimImages) (s.newPage io pageType).2.disk := by
  have halloc := (sameContents_allocatePage s.disk).storeImages io s.victimImages
  rcases newPage_cases s io pageType with ⟨r, e, hvictim, heq⟩ | ⟨f, r, hvictim, hfound⟩
  · rw [heq, victimImages, hvictim]
    exact SameContents.refl _
  · obtain ⟨hok, herr⟩ := disk_evict { s with replacer := r, disk := s.disk.allocatePage.2 } io f
    rw [victimImages, hvictim] at halloc ⊢
    rcases hfound with ⟨e, e', hev, heq⟩ | ⟨s', hev, heq⟩
    · rw [heq]
      exact halloc.trans ((herr e hev) ▸ SameContents.refl _)
    · rw [heq]
      exact halloc.trans ((hok s' hev) ▸ SameContents.refl _)

theorem RewritesPage.contents {s : BufferPoolManager} {io : DiskFaults} {p : Nat} {α : Type}
    {res : H2Result α × BufferPoolManager} (h : s.RewritesPage io p res) :
    SameContents (s.fetchPage io p).2.disk res.2.disk := by
  have hdisk : ∀ {pool pool' : BufferPoolManager} {f : Nat} {change : Page8K → Page8K} {res' : H2Result Unit},
      (pool.rewriteFrame f change).unpinPage p true = (res', pool') → pool'.disk = pool.disk := by
    intro pool pool' f change res' hunpin
    have h := disk_unpinPage (pool.rewriteFrame f change) p true
    rwa [hunpin] at h
  cases h with
  | failed hfetch =>
    rw [hfetch]
    exact SameContents.refl _
  | refused change hfetch hunpin =>
    rw [hfetch, hdisk hunpin]
    exact SameContents.refl _
  | rewritten change a hfetch hunpin hd =>
    rw [hfetch, ← hdisk hunpin]
    rcases hd with rfl | rfl
    · exact SameContents.refl _
    · exact sameContents_deallocatePage _ p

end BufferPoolManager

/-! ## Dirty frames -/

open SlottedPage (Sealed)

/-- Every dirty frame has no checksum or the one of its bytes. -/
def DirtySealed (frames : List PageFrame) : Prop :=
  ∀ fr ∈ frames, fr.isDirty = true → Sealed fr.data

namespace DirtySealed

open BufferPoolManager

theorem set {frames : List PageFrame} (h : DirtySealed frames) {fr : PageFrame} (f : Nat)
    (hfr : fr.isDirty = true → Sealed fr.data) : DirtySealed (frames.set f fr) := by
  intro x hx
  rcases mem_or_eq_of_mem_set hx with hold | rfl
  · exact h x hold
  · exact hfr

variable {s s' : BufferPoolManager} (h : DirtySealed s.frames)

include h

theorem frame (f : Nat) (hdirty : (s.frame f).isDirty = true) : Sealed (s.frame f).data := by
  unfold BufferPoolManager.frame at hdirty ⊢
  rw [getD_eq_getElem?_getD] at hdirty ⊢
  cases hf : s.frames[f]? with
  | none =>
    rw [hf] at hdirty
    cases hdirty
  | some fr =>
    rw [hf] at hdirty
    exact h fr (mem_of_getElem? hf) hdirty

theorem evict {io : DiskFaults} {f : Nat} (hev : s.evict io f = .ok s') : DirtySealed s'.frames := by
  unfold BufferPoolManager.evict at hev
  simp only at hev
  split_ifs at hev
  · cases hev
    exact h
  · split at hev
    · cases hev
    · cases hev
      exact h.set f fun hdirty => by cases hdirty
  · cases hev
    exact h

theorem fetchPage (io : DiskFaults) (p : Nat) : DirtySealed (s.fetchPage io p).2.frames := by
  rcases fetchPage_cases s io p with ⟨f, -, heq⟩ | ⟨-, ⟨r, e, -, heq⟩ | ⟨f, r, -, hfound⟩⟩
  · rw [heq]
    exact h.set f (h.frame f)
  · rw [heq]
    exact h
  · rcases hfound with ⟨e, e', -, heq⟩ | ⟨s', hev, ⟨e, e', -, heq⟩ | ⟨data, -, heq⟩⟩
    · rw [heq]
      exact h
    · rw [heq]
      exact @evict { s with replacer := r } s' h io f hev
    · rw [heq]
      exact (@evict { s with replacer := r } s' h io f hev).set f fun hdirty => by cases hdirty

theorem newPage (io : DiskFaults) (pageType : UInt8) : DirtySealed (s.newPage io pageType).2.frames := by
  rcases newPage_cases s io pageType with ⟨r, e, -, heq⟩ | ⟨f, r, -, ⟨e, e', -, heq⟩ | ⟨s', hev, heq⟩⟩
  · rw [heq]
    exact h
  · rw [heq]
    exact h
  · rw [heq]
    have hevicted := @evict { s with replacer := r, disk := s.disk.allocatePage.2 } s' h io f hev
    exact hevicted.set f fun _ => SlottedPage.sealed_init _ _

theorem unpinPage {p : Nat} {isDirty : Bool} (hp : isDirty = true → ∀ f < s.frames.length,
      s.pageTable.lookup p = some f → Sealed (s.frame f).data) :
    DirtySealed (s.unpinPage p isDirty).2.frames := by
  unfold BufferPoolManager.unpinPage
  cases hlook : s.pageTable.lookup p with
  | none => exact h
  | some f =>
    have hset : DirtySealed (s.frames.set f { s.frame f with
        isDirty := (s.frame f).isDirty || isDirty, pinCount := (s.frame f).pinCount - 1 }) := by
      by_cases hf : f < s.frames.length
      · refine h.set f fun hdirty => ?_
        rcases (Bool.or_eq_true _ _).mp hdirty with hold | hnew
        · exact h.frame f hold
        · exact hp hnew f hf hlook
      · rw [set_eq_of_length_le (Nat.le_of_not_lt hf)]
        exact h
    simp only
    split_ifs <;> exact hset

theorem flushFrame (io : DiskFaults) (p f : Nat) : DirtySealed (s.flushFrame io p f).2.frames := by
  have hset : ∀ isDirty, DirtySealed (s.frames.set f
      { s.frame f with data := SlottedPage.computeAndWriteChecksum (s.frame f).data, isDirty }) :=
    fun _ => h.set f fun _ => SlottedPage.sealed_computeAndWriteChecksum _
  unfold BufferPoolManager.flushFrame
  simp only
  split_ifs
  · split <;> exact hset _
  · exact h

omit h in
theorem flushEntries (io : DiskFaults) (entries : List (Sigma fun _ : Nat => Nat)) (s : BufferPoolManager)
    (h : DirtySealed s.frames) : DirtySealed (s.flushEntries io entries).2.frames := by
  induction entries generalizing s with
  | nil => exact h
  | cons e entries ih =>
    have hone := h.flushFrame io e.1 e.2
    unfold BufferPoolManager.flushEntries
    cases hres : s.flushFrame io e.1 e.2 with
    | mk res pool =>
      rw [hres] at hone
      cases res with
      | error msg => exact hone
      | ok _ => exact ih pool hone

theorem flushPage (io : DiskFaults) (p : Nat) : DirtySealed (s.flushPage io p).2.frames := by
  unfold BufferPoolManager.flushPage
  split
  · exact h
  · rename_i f _
    have hone := h.flushFrame io p f
    split <;> rename_i heq <;> exact (congrArg (fun r => r.2.frames) heq) ▸ hone

theorem rewritten {io : DiskFaults} {p f : Nat} {pool pool' : BufferPoolManager} {change : Page8K → Page8K}
    {res : H2Result Unit} (hfetch : s.fetchPage io p = (.ok f, pool))
    (hchange : Sealed (change (pool.frame f).data))
    (hunpin : (pool.rewriteFrame f change).unpinPage p true = (res, pool')) : DirtySealed pool'.frames := by
  have hfetched := h.fetchPage io p
  rw [hfetch] at hfetched
  have hset : DirtySealed (pool.rewriteFrame f change).frames := hfetched.set f fun _ => hchange
  have hgiven := @unpinPage _ hset p true fun _ g hg hlook => by
    cases (PoolSession.fetchPage_ok hfetch).1.symm.trans hlook
    refine hset.frame f ?_
    rw [rewriteFrame, frame_setFrame (by rwa [rewriteFrame, setFrame, length_set] at hg), if_pos rfl]
  rwa [hunpin] at hgiven

theorem freePage (io : DiskFaults) (p : Nat) : DirtySealed (s.freePage io p).2.frames := by
  unfold BufferPoolManager.freePage
  cases hfetch : s.fetchPage io p with
  | mk res pool =>
    cases res with
    | error e => exact congrArg Prod.snd hfetch ▸ h.fetchPage io p
    | ok f =>
      simp only
      split <;> rename_i hunpin <;> exact (h.rewritten hfetch (SlottedPage.sealed_markAsFree _) hunpin :)

theorem vacuumPage (io : DiskFaults) (p : Nat) (hdefragment : ∀ f pool, s.fetchPage io p = (.ok f, pool) →
      Sealed (SlottedPage.defragment (pool.frame f).data)) :
    DirtySealed (s.vacuumPage io p).2.frames := by
  unfold BufferPoolManager.vacuumPage
  cases hfetch : s.fetchPage io p with
  | mk res pool =>
    cases res with
    | error e => exact congrArg Prod.snd hfetch ▸ h.fetchPage io p
    | ok f =>
      simp only
      split
      · split <;> rename_i hunpin <;> exact (h.rewritten hfetch (SlottedPage.sealed_markAsFree _) hunpin :)
      · split <;> rename_i hunpin <;> exact h.rewritten hfetch (hdefragment f pool hfetch) hunpin

end DirtySealed

namespace PoolSession

open BufferPoolManager DiskManager

theorem contents_step (s : PoolSession) (c : DiskFaults × PoolCall) :
    SameContents (s.pool.disk.storeImages c.1 (s.images c)) (PoolSession.step s c).pool.disk := by
  obtain ⟨io, call⟩ := c
  cases call with
  | newPage pageType =>
    rw [pool_newPage]
    exact contents_newPage s.pool io pageType
  | fetchPage p =>
    rw [pool_fetchPage, disk_fetchPage]
    exact SameContents.refl _
  | modify i g =>
    unfold PoolSession.step
    simp only
    split
    · exact SameContents.refl _
    · split <;> exact SameContents.refl _
  | unpinPage i isDirty =>
    unfold PoolSession.step
    simp only
    split
    · exact SameContents.refl _
    · split
      · exact (disk_unpinPage s.pool _ _) ▸ SameContents.refl _
      · exact SameContents.refl _
  | flushPage p =>
    show SameContents _ (s.pool.flushPage io p).2.disk
    unfold images
    simp only
    cases hlook : s.pool.pageTable.lookup p with
    | none =>
      have hpool : (s.pool.flushPage io p).2 = s.pool := by simp only [BufferPoolManager.flushPage, hlook]
      rw [hpool]
      exact SameContents.refl _
    | some f =>
      rw [disk_flushPage s.pool io hlook]
      exact SameContents.refl _
  | flushAll =>
    show SameContents _ (s.pool.flushAll io).2.disk
    rw [flushAll, disk_flushEntries]
    exact SameContents.refl _
  | freePage p =>
    show SameContents _ (s.rewritten p (s.pool.freePage io p)).pool.disk
    rw [pool_rewritten]
    exact (disk_fetchPage s.pool io p) ▸ (rewritesPage_free s.pool io p).contents
  | vacuumPage p =>
    show SameContents _ (s.rewritten p (s.pool.vacuumPage io p)).pool.disk
    rw [pool_rewritten]
    exact (disk_fetchPage s.pool io p) ▸ (rewritesPage_vacuum s.pool io p).contents

/-- The disk with the images of the calls stored in turn, those that no fault has kept from it. -/
def storeRun (d : DiskManager) : PoolSession → List (DiskFaults × PoolCall) → DiskManager
  | _, [] => d
  | s, c :: calls => storeRun (d.storeImages c.1 (s.images c)) (PoolSession.step s c) calls

theorem contents_runs {d : DiskManager} {s : PoolSession} (h : SameContents d s.pool.disk)
    (calls : List (DiskFaults × PoolCall)) :
    SameContents (storeRun d s calls) (runs PoolSession.step s calls).pool.disk := by
  induction calls generalizing d s with
  | nil => exact h
  | cons c calls ih => exact ih ((h.storeImages c.1 _).trans (contents_step s c))

/-- Whatever has failed in a run, the disk holds what it held at the start with the images of the run's
flushes and evictions stored in turn, and nothing else. -/
theorem disk_of_images (disk : DiskManager) (poolSize : Nat) (calls : List (DiskFaults × PoolCall)) :
    SameContents (storeRun disk (start disk poolSize) calls)
      (runs PoolSession.step (start disk poolSize) calls).pool.disk :=
  contents_runs (SameContents.refl disk) calls

/-! ## Which images verify -/

def ImagesVerify (s : PoolSession) (c : DiskFaults × PoolCall) : Prop :=
  ∀ w ∈ s.images c, SlottedPage.verifyChecksum w.2 = true

def VictimSealed (pool : BufferPoolManager) : Prop :=
  ∀ f r, pool.replacer.victim = (some f, r) → (pool.frame f).pageId ≠ noPage →
    (pool.frame f).isDirty = true → SlottedPage.Sealed (pool.frame f).data

def EvictsSealed (s : PoolSession) (c : DiskFaults × PoolCall) : Prop :=
  match c.2 with
  | .newPage _ => VictimSealed s.pool
  | .fetchPage p => s.pool.pageTable.lookup p = none → VictimSealed s.pool
  | .freePage p => s.pool.pageTable.lookup p = none → VictimSealed s.pool
  | .vacuumPage p => s.pool.pageTable.lookup p = none → VictimSealed s.pool
  | _ => True

theorem victimImages_verify_iff (pool : BufferPoolManager) :
    (∀ w ∈ pool.victimImages, SlottedPage.verifyChecksum w.2 = true) ↔ VictimSealed pool := by
  unfold victimImages VictimSealed
  cases hvictim : pool.replacer.victim with
  | mk v r =>
    cases v with
    | none => simp
    | some f =>
      unfold evictImages
      simp only [SlottedPage.verifyChecksum_iff]
      constructor
      · intro h f' r' heq hpage hdirty
        cases heq
        exact h (_, _) (by rw [if_pos ⟨hpage, hdirty⟩]; exact mem_singleton_self _)
      · intro h w hw
        split_ifs at hw with hpair
        · rw [mem_singleton.mp hw]
          exact h f r rfl hpair.1 hpair.2
        · cases hw

theorem fetchImages_verify_iff (pool : BufferPoolManager) (p : Nat) :
    (∀ w ∈ pool.fetchImages p, SlottedPage.verifyChecksum w.2 = true) ↔
      (pool.pageTable.lookup p = none → VictimSealed pool) := by
  unfold fetchImages
  cases pool.pageTable.lookup p with
  | none =>
    rw [← victimImages_verify_iff]
    simp
  | some f => simp

theorem flushImages_verify (pool : BufferPoolManager) (p f : Nat) :
    ∀ w ∈ pool.flushImages p f, SlottedPage.verifyChecksum w.2 = true := by
  intro w hw
  unfold flushImages at hw
  simp only at hw
  split_ifs at hw
  · rw [mem_singleton.mp hw, SlottedPage.verifyChecksum_iff]
    exact SlottedPage.sealed_computeAndWriteChecksum _
  · cases hw

theorem flushEntriesImages_verify (io : DiskFaults) (entries : List (Sigma fun _ : Nat => Nat))
    (pool : BufferPoolManager) :
    ∀ w ∈ pool.flushEntriesImages io entries, SlottedPage.verifyChecksum w.2 = true := by
  induction entries generalizing pool with
  | nil =>
    intro w hw
    cases hw
  | cons e entries ih =>
    intro w hw
    unfold flushEntriesImages at hw
    rcases mem_append.mp hw with hone | hrest
    · exact flushImages_verify pool e.1 e.2 w hone
    · split at hrest
      · cases hrest
      · exact ih _ w hrest

theorem imagesVerify_iff (s : PoolSession) (c : DiskFaults × PoolCall) :
    s.ImagesVerify c ↔ s.EvictsSealed c := by
  obtain ⟨io, call⟩ := c
  unfold ImagesVerify EvictsSealed images
  cases call with
  | newPage pageType => exact victimImages_verify_iff s.pool
  | fetchPage p => exact fetchImages_verify_iff s.pool p
  | freePage p => exact fetchImages_verify_iff s.pool p
  | vacuumPage p => exact fetchImages_verify_iff s.pool p
  | modify i g => simp
  | unpinPage i isDirty => simp
  | flushPage p =>
    refine iff_of_true ?_ trivial
    simp only
    split
    · intro w hw
      cases hw
    · exact flushImages_verify s.pool p _
  | flushAll => exact iff_of_true (flushEntriesImages_verify io _ s.pool) trivial

/-- What the call changes or gives back as dirty it leaves without a checksum or with the right one. -/
def KeepsSeal (s : PoolSession) (c : DiskFaults × PoolCall) : Prop :=
  match c.2 with
  | .modify i g => ∀ h ∈ s.handles[i]?, Sealed (g (s.pool.frame h.frameId).data)
  | .unpinPage i isDirty => ∀ h ∈ s.handles[i]?, (isDirty || h.modified) = true →
      ∀ f, s.pool.pageTable.lookup h.pageId = some f → Sealed (s.pool.frame f).data
  | .vacuumPage p => ∀ f pool, s.pool.fetchPage c.1 p = (.ok f, pool) →
      Sealed (SlottedPage.defragment (pool.frame f).data)
  | _ => True

theorem dirtySealed_step (s : PoolSession) (c : DiskFaults × PoolCall) (h : DirtySealed s.pool.frames)
    (hkeeps : s.KeepsSeal c) : DirtySealed (PoolSession.step s c).pool.frames := by
  obtain ⟨io, call⟩ := c
  cases call with
  | newPage pageType =>
    rw [pool_newPage]
    exact h.newPage io pageType
  | fetchPage p =>
    rw [pool_fetchPage]
    exact h.fetchPage io p
  | modify i g =>
    unfold PoolSession.step
    simp only
    split
    · exact h
    · rename_i handle hi
      split_ifs
      · exact h.set handle.frameId fun _ => hkeeps handle hi
      · exact h
  | unpinPage i isDirty =>
    unfold PoolSession.step
    simp only
    split
    · exact h
    · rename_i handle hi
      split_ifs
      · exact h.unpinPage fun hdirty f _ hlook => hkeeps handle hi hdirty f hlook
      · exact h
  | flushPage p => exact h.flushPage io p
  | flushAll => exact DirtySealed.flushEntries io _ s.pool h
  | freePage p => exact (pool_rewritten s p _).symm ▸ h.freePage io p
  | vacuumPage p => exact (pool_rewritten s p _).symm ▸ h.vacuumPage io p hkeeps

/-- Where the callers keep the checksums of their pages right, every image verifies. -/
theorem imagesVerify_of_keepsSeal (disk : DiskManager) (poolSize : Nat) (calls : List (DiskFaults × PoolCall))
    (h : Meets PoolSession.step KeepsSeal (start disk poolSize) calls) :
    Meets PoolSession.step ImagesVerify (start disk poolSize) calls := by
  have hstart : DirtySealed (start disk poolSize).pool.frames := by
    intro fr hfr hdirty
    cases eq_of_mem_replicate hfr
    cases hdirty
  have hverify : ∀ (s : PoolSession) c, DirtySealed s.pool.frames → s.ImagesVerify c := by
    rintro s ⟨io, call⟩ hs
    have hvictim : VictimSealed s.pool := fun f _ _ _ hdirty => hs.frame f hdirty
    refine (imagesVerify_iff s _).mpr ?_
    cases call with
    | newPage pageType => exact hvictim
    | fetchPage p => exact fun _ => hvictim
    | freePage p => exact fun _ => hvictim
    | vacuumPage p => exact fun _ => hvictim
    | _ => trivial
  have hboth := meets_iff_meets dirtySealed_step
    (fun s c hs => and_iff_left_of_imp fun _ => hverify s c hs) hstart calls
  exact (hboth.mpr h).imp fun _ _ => And.right

/-- **Every image that a run hands to `write_page` verifies exactly when every dirty page that it evicts has
no checksum or still the one of its bytes.** -/
theorem images_verify_iff (disk : DiskManager) (poolSize : Nat) (calls : List (DiskFaults × PoolCall)) :
    Meets PoolSession.step ImagesVerify (start disk poolSize) calls ↔
      Meets PoolSession.step EvictsSealed (start disk poolSize) calls := by
  constructor
  · exact Meets.imp fun s c => (imagesVerify_iff s c).mp
  · exact Meets.imp fun s c => (imagesVerify_iff s c).mpr

def retyped (buf : Page8K) : Page8K := SlottedPage.copyTo buf 12 [2]

/-- A page is flushed and changed while it is pinned, and it is evicted before it is flushed again. -/
def flushedAndChanged : List (DiskFaults × PoolCall) :=
  [(.none, .newPage 1), (.none, .flushPage 0), (.none, .modify 0 retyped), (.none, .unpinPage 0 true),
    (.none, .newPage 1)]

theorem crc32_init : crc32 (SlottedPage.writeUInt (SlottedPage.init 0 1) 20 4 0).1 = 476661418 := by
  rw [crc32_eq]
  decide +kernel

theorem not_sealed_changed :
    ¬ SlottedPage.Sealed (retyped (SlottedPage.computeAndWriteChecksum (SlottedPage.init 0 1))) := by
  have hflushed : SlottedPage.computeAndWriteChecksum (SlottedPage.init 0 1) =
      SlottedPage.writeUInt (SlottedPage.init 0 1) 20 4 476661418 := by
    rw [← crc32_init]
    exact SlottedPage.writeUInt_writeUInt _ (by decide) 0 _
  rw [hflushed, ← SlottedPage.verifyChecksum_iff]
  unfold SlottedPage.verifyChecksum
  rw [crc32_eq]
  decide +kernel

section

attribute [local irreducible] SlottedPage.init SlottedPage.computeAndWriteChecksum retyped

theorem flushedAndChanged_not_verified :
    ¬ Meets PoolSession.step ImagesVerify (start .newInMemory 1) flushedAndChanged := by
  intro h
  have hevict := (imagesVerify_iff _ _).mp h.2.2.2.2.1
  exact not_sealed_changed (hevict 0 _ rfl (by decide +kernel) (by decide +kernel))

end
end PoolSession

end H2Database.Mvstore
