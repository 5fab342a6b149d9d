import H2Database.Mvstore.FileStore

/-!
# Publishing a checkpoint record across a crash

An append writes the record behind the end of the file, then the shadow slot, then the primary slot,
with a sync after each.  `AtomicAppend` says that whatever a crash leaves of these writes, the file
opens and its chain is the one before the append or the one with the record.
-/

namespace H2Database.Mvstore.FileStore

open Reasoning List Nat

variable {P R V : Type} (bc : Codecs P R V)

/-! ## The chain of a file that has only grown -/

/-- `g` extends `f` and agrees with it behind the header area. -/
structure Grown (f g : List UInt8) : Prop where
  length : f.length ≤ g.length
  same : ∀ i, headerSize ≤ i → i < f.length → g[i]? = f[i]?

variable {f g bs : List UInt8} {off : Nat} {visited : Finset Nat} {deltas : List (DeltaPayload R V)}

theorem Grown.readAt (h : Grown f g) {len : Nat} (hlo : headerSize ≤ off) (hhi : off + len ≤ f.length) :
    readAt g off len = readAt f off len :=
  readAt_congr fun i hi hj => h.same i (by omega) (by omega)

theorem Grown.refl (f : List UInt8) : Grown f f := ⟨le_refl _, fun _ _ _ => rfl⟩

theorem Grown.trans {k : List UInt8} (h : Grown f g) (h' : Grown g k) : Grown f k :=
  ⟨le_trans h.length h'.length, fun i hlo hhi => by
    rw [h'.same i hlo (lt_of_lt_of_le hhi h.length), h.same i hlo hhi]⟩

theorem grown_append (f g : List UInt8) : Grown f (f ++ g) :=
  ⟨by rw [length_append]; omega, fun _ _ hhi => List.getElem?_append_left hhi⟩

theorem Torn.grown_slot (h : Torn f off bs g) (hoff : off + bs.length ≤ headerSize) : Grown f g :=
  ⟨h.length_ge, fun i hlo hhi => h.outside i hhi (by omega)⟩

theorem Torn.grown_end (h : Torn f f.length bs g) : Grown f g :=
  ⟨h.length_ge, fun i _ hhi => h.outside i hhi (.inl hhi)⟩

theorem grown_writeSlot (hoff : off + bs.length ≤ headerSize) (hf : headerSize ≤ f.length) :
    Grown f (writeAt f off bs) :=
  Torn.grown_slot (torn_writeAt (by omega) rfl) hoff

/-- The record at `offset` is a new one, behind the header area and inside the file. -/
def Walkable (f : List UInt8) (offset length : Nat) (visited : Finset Nat) : Prop :=
  ¬(offset ∈ visited ∨ offset < headerSize ∨ 2 ^ 64 ≤ offset + length ∨
    f.length < offset + length)

variable {offset length : Nat}

variable {delta : DeltaPayload R V}

theorem walk_delta (hz : length ≠ 0) (hw : Walkable f offset length visited)
    (hdec : decodeRecord bc (readAt f offset length) = .ok (.delta delta)) :
    walk bc f offset length visited deltas =
      walk bc f delta.previousOffset delta.previousLength (insert offset visited)
        (delta :: deltas) := by
  rw [walk, if_neg hz, dif_neg hw, hdec]

theorem walk_chunk {base : ChunkPayload P} (hz : length ≠ 0) (hw : Walkable f offset length visited)
    (hdec : decodeRecord bc (readAt f offset length) = .ok (.chunk base)) :
    walk bc f offset length visited deltas = .ok (some base, deltas) := by
  rw [walk, if_neg hz, dif_neg hw, hdec]

theorem Grown.walkable (h : Grown f g) {visited' : Finset Nat} (hz : length ≠ 0)
    (hv : ∀ y ∈ visited', y ∈ visited ∨ f.length ≤ y) (hw : Walkable f offset length visited) :
    Walkable g offset length visited' := by
  unfold Walkable at hw ⊢
  push Not at hw ⊢
  have hl := h.length
  refine ⟨fun hin => ?_, hw.2.1, hw.2.2.1, by omega⟩
  rcases hv offset hin with hold | hnew
  · exact hw.1 hold
  · omega

theorem walk_grown (h : Grown f g) {chain : Chain P R V}
    (newer : List (DeltaPayload R V)) {visited' : Finset Nat}
    (hv : ∀ y ∈ visited', y ∈ visited ∨ f.length ≤ y)
    (hok : walk bc f offset length visited deltas = .ok chain) :
    walk bc g offset length visited' (deltas ++ newer) = .ok (chain.1, chain.2 ++ newer) := by
  induction offset, length, visited, deltas using @walk.induct P R V bc f generalizing visited' with
  -- induction on the walk in the old file; the new file has the same bytes wherever that walk reads
  | case1 offset visited deltas =>
    rw [walk, if_pos rfl] at hok ⊢
    cases hok
    rfl
  | case2 offset length visited deltas hz hbad =>
    rw [walk, if_neg hz, dif_pos hbad] at hok
    cases hok
  | case3 offset length visited deltas hz hgood e hdec =>
    rw [walk, if_neg hz, dif_neg hgood, hdec] at hok
    cases hok
  | case4 offset length visited deltas hz hgood delta hdec ih =>
    rw [walk_delta bc hz hgood hdec] at hok
    have hgood' := h.walkable hz hv hgood
    have hread : readAt g offset length = readAt f offset length := by
      push Not at hgood
      exact h.readAt hgood.2.1 hgood.2.2.2
    rw [walk_delta bc hz hgood' (hread ▸ hdec)]
    refine ih ?_ hok
    intro y hy
    -- offsets visited from records behind the old file are too large to meet the walk again
    rcases Finset.mem_insert.mp hy with rfl | hy
    · exact .inl (Finset.mem_insert_self _ _)
    · exact (hv y hy).imp (Finset.mem_insert_of_mem) id
  | case5 offset length visited deltas hz hgood base hdec =>
    rw [walk_chunk bc hz hgood hdec] at hok
    cases hok
    have hread : readAt g offset length = readAt f offset length := by
      push Not at hgood
      exact h.readAt hgood.2.1 hgood.2.2.2
    exact walk_chunk bc hz (h.walkable hz hv hgood) (hread ▸ hdec)

theorem chainAt_grown (h : Grown f g) {header : Header} {chain : Chain P R V}
    (hok : chainAt bc f header = .ok chain) : chainAt bc g header = .ok chain := by
  have hvis : ∀ y ∈ (∅ : Finset Nat), y ∈ (∅ : Finset Nat) ∨ f.length ≤ y := by simp
  simpa [chainAt] using walk_grown bc h [] hvis hok

/-! ## The new record -/

/-- `record` is the image of `op`, its length fits a `u32`, and it is read back as `op`. -/
structure Recordable (op : Append P R V) (record : List UInt8) : Prop where
  serialized : op.serialize bc = .ok record
  fits : record.length < 2 ^ 32
  readBack : decodeRecord bc record = .ok op

theorem recordable_delta {payload : List UInt8}
    (h : bc.delta.RoundTrips delta payload) (hfits : payload.length + 12 < 2 ^ 32) :
    Recordable bc (.delta delta) (DeltaPayload.frame payload) := by
  refine ⟨?_, by rw [DeltaPayload.length_frame]; exact hfits, ?_⟩
  · simp only [Append.serialize, DeltaPayload.serialize, h.1]
  · rw [decodeRecord, if_pos (DeltaPayload.isDelta_frame payload),
      DeltaPayload.deserialize_frame bc.delta h (by omega)]

theorem recordable_chunk {chunk : ChunkPayload P} {payload : List UInt8}
    (h : bc.chunk.RoundTrips chunk payload) (hfits : payload.length + 8 < 2 ^ 32)
    (hmagic : payload.length ≠ 0x31443248) :
    Recordable bc (.chunk chunk) (ChunkPayload.frame payload) := by
  refine ⟨?_, by rw [ChunkPayload.length_frame]; exact hfits, ?_⟩
  · simp only [Append.serialize, ChunkPayload.serialize, h.1]
  · rw [decodeRecord, if_neg (fun hd => hmagic ((isDelta_chunkFrame payload (by omega)).mp hd)),
      ChunkPayload.deserialize_frame bc.chunk h (by omega)]

theorem Recordable.length_pos {op : Append P R V} {record : List UInt8}
    (h : Recordable bc op record) : record.length ≠ 0 := by
  intro hz
  have hnil : record = [] := eq_nil_of_length_eq_zero hz
  have hdec : decodeRecord bc [] = .ok op := hnil ▸ h.readBack
  have hbad : decodeRecord bc [] = .error (.corrupted "Chunk data too short") := rfl
  rw [hbad] at hdec
  cases hdec

/-- The header in use is the one the slots of `file` select; it leads to `chain`, and `record` is the
record about to be appended. -/
structure Publishing (file : List UInt8) (header : Header) (chain : Chain P R V)
    (op : Append P R V) (record : List UInt8) : Prop where
  area : headerSize ≤ file.length
  selected : selectHeader (Header.deserialize (slot file 0))
    (Header.deserialize (slot file shadowHeaderOffset)) = .ok header
  chain : chainAt bc file header = .ok chain
  recordable : Recordable bc (op.link header) record
  fits : file.length + record.length < 2 ^ 64
  version : op.version < 2 ^ 64

variable {bc}
variable {file record : List UInt8} {header : Header} {chain : Chain P R V} {op : Append P R V}

theorem Publishing.inRange (h : Publishing bc file header chain op record) :
    (nextHeader op file record).InRange := by
  have hf := h.fits
  exact ⟨h.version, by simp only [nextHeader]; omega, mod_lt _ (by decide)⟩

theorem Publishing.chainAt_next (h : Publishing bc file header chain op record)
    (hg : Grown (file ++ record) g) :
    chainAt bc g (nextHeader op file record) = .ok ((op.link header).extend chain) := by
  have hz : record.length ≠ 0 := h.recordable.length_pos
  have hmod : record.length % 2 ^ 32 = record.length := mod_eq_of_lt h.recordable.fits
  have harea := h.area
  have hin : file.length + record.length ≤ g.length := by
    rw [← length_append]
    exact hg.length
  -- the new record stands at the old end of the file, behind both header slots
  have hw : Walkable g file.length record.length ∅ := by
    have := h.fits
    unfold Walkable
    push Not
    exact ⟨by simp, by omega, by omega, by omega⟩
  have hdec : decodeRecord bc (readAt g file.length record.length) = .ok (op.link header) := by
    rw [hg.readAt harea (by rw [length_append]), readAt_append_right]
    exact h.recordable.readBack
  simp only [chainAt, nextHeader, hmod]
  cases op with
  | chunk payload => exact walk_chunk bc hz hw hdec
  | delta payload =>
    -- a delta leads on to the record the old header names
    rw [walk_delta bc hz hw hdec]
    have hvis : ∀ y ∈ (insert file.length ∅ : Finset Nat), y ∈ (∅ : Finset Nat) ∨
        file.length ≤ y := by simp
    exact walk_grown bc ((grown_append file record).trans hg) _ hvis h.chain

/-! ## What a crash leaves -/

theorem Torn.slot_disjoint {p : Nat} (h : Torn f off bs g) (harea : headerSize ≤ f.length)
    (hp : p + 28 ≤ 4096) (hd : p + 28 ≤ off ∨ off + bs.length ≤ p) : slot g p = slot f p := by
  change 4096 ≤ f.length at harea
  exact h.readAt_disjoint (show p + 28 ≤ f.length by omega) hd

theorem slot_writeAt_self (hl : bs.length = 28) (harea : headerSize ≤ f.length) (hoff : off + 28 ≤ 4096) :
    slot (writeAt f off bs) off = bs := by
  change 4096 ≤ f.length at harea
  have hread := readAt_writeAt_self bs (show off ≤ f.length by omega)
  rwa [hl] at hread

/-- The three phases a crash can fall into: before the shadow slot is touched, while it is being
written, and with the new header durable in it. -/
theorem crashOf_publishSteps {next : Header} {g : List UInt8} (harea : headerSize ≤ file.length)
    (hc : CrashOf file (publishSteps file record next true) g) :
    (Grown file g ∧ slot g 0 = slot file 0 ∧
        slot g shadowHeaderOffset = slot file shadowHeaderOffset) ∨
      (Grown (file ++ record) g ∧ slot g 0 = slot file 0) ∨
      (Grown (file ++ record) g ∧ slot g shadowHeaderOffset = next.record) := by
  have hl := next.length_record
  have hshadow : shadowHeaderOffset + next.record.length ≤ headerSize := by rw [hl]; decide
  have hprimary : 0 + next.record.length ≤ headerSize := by rw [hl]; decide
  have harea' : 4096 ≤ file.length := harea
  simp only [publishSteps, writeHeaderSlots, syncIf, if_true, cons_append,
    nil_append] at hc
  cases hc with
  | stopped => exact .inl ⟨Grown.refl file, rfl, rfl⟩
  | torn ht =>
    exact .inl ⟨Torn.grown_end ht, Torn.slot_disjoint ht harea (by decide) (.inl (by omega)),
      Torn.slot_disjoint ht harea (by decide) (.inl (by change 2048 + 28 ≤ _; omega))⟩
  | synced hc =>
    rw [writeAt_end] at hc
    have harea₁ : headerSize ≤ (file ++ record).length := by
      rw [length_append]; omega
    have hslot : slot (file ++ record) 0 = slot file 0 :=
      readAt_append_left (show 0 + 28 ≤ file.length by omega)
    cases hc with
    | stopped => exact .inr (.inl ⟨Grown.refl _, hslot⟩)
    | torn ht =>
      refine .inr (.inl ⟨Torn.grown_slot ht hshadow, ?_⟩)
      rw [Torn.slot_disjoint ht harea₁ (by decide) (.inl (by decide)), hslot]
    | synced hc =>
      have hgrown := grown_writeSlot hshadow harea₁
      have hs := slot_writeAt_self hl harea₁ (show shadowHeaderOffset + 28 ≤ 4096 by decide)
      have harea₂ := le_trans harea₁ hgrown.length
      -- whatever happens to the primary slot from here on, the shadow is not touched
      have hlast : ∀ g', Torn (writeAt (file ++ record) shadowHeaderOffset next.record) 0
          next.record g' → Grown (file ++ record) g' ∧ slot g' shadowHeaderOffset = next.record := by
        intro g' ht
        refine ⟨hgrown.trans (Torn.grown_slot ht hprimary), ?_⟩
        rw [Torn.slot_disjoint ht harea₂ (by decide) (.inr (by rw [hl]; decide)), hs]
      cases hc with
      | stopped => exact .inr (.inr ⟨hgrown, hs⟩)
      | torn ht => exact .inr (.inr (hlast _ ht))
      | synced hc =>
        cases hc with
        | stopped => exact .inr (.inr (hlast _ (torn_writeAt (le_trans hprimary harea₂) rfl)))

/-! ## Atomicity -/

/-- The assumption on CRC-32: a slot found after a crash is the one from before, the new one, or it
does not decode. -/
def TornSlotsDetected (file g : List UInt8) (next : Header) : Prop :=
  ∀ off, off = 0 ∨ off = shadowHeaderOffset →
    slot g off = slot file off ∨ slot g off = next.record ∨
      ∃ e, Header.deserialize (slot g off) = .error e

variable (bc) in
/-- Whatever a crash leaves of the append, the file opens and leads to the chain before it or to the
chain with the record. -/
def AtomicAppend (file : List UInt8) (header : Header) (chain : Chain P R V) (op : Append P R V)
    (record : List UInt8) : Prop :=
  ∀ g backup, CrashOf file (publishSteps file record (nextHeader op file record) true) g →
    TornSlotsDetected file g (nextHeader op file record) →
    ∃ fs, openAt (some g) backup true = .ok fs ∧
      (readCheckpointChain bc fs = .ok chain ∨
        readCheckpointChain bc fs = .ok ((op.link header).extend chain))

variable (bc) in
/-- The primary slot decodes, and its header leads to the chain in use or already to the new one. -/
def PrimaryCurrent (file : List UInt8) (header : Header) (chain : Chain P R V)
    (op : Append P R V) (record : List UInt8) : Prop :=
  ∃ first, Header.deserialize (slot file 0) = .ok first ∧
    (chainAt bc (file ++ record) first = .ok chain ∨
      chainAt bc (file ++ record) first = .ok ((op.link header).extend chain))

theorem openAt_of_area (harea : headerSize ≤ g.length) (backup : Option (List UInt8)) (sync : Bool) :
    openAt (some g) backup sync =
      match selectHeader (Header.deserialize (slot g 0))
          (Header.deserialize (slot g shadowHeaderOffset)) with
      | .error e => .error e
      | .ok h => .ok ⟨some g, h, sync⟩ := by
  unfold openAt
  exact if_neg (by change ¬ g.length < headerSize; omega)

theorem openAt_of_selected {h : Header} (harea : headerSize ≤ g.length)
    (hsel : selectHeader (Header.deserialize (slot g 0))
      (Header.deserialize (slot g shadowHeaderOffset)) = .ok h) (backup : Option (List UInt8)) (sync : Bool) :
    openAt (some g) backup sync = .ok ⟨some g, h, sync⟩ := by
  rw [openAt_of_area harea, hsel]

theorem selectHeader_ok (first second : Header) :
    selectHeader (.ok first) (.ok second) = .ok first ∨
      selectHeader (.ok first) (.ok second) = .ok second := by
  simp only [selectHeader]
  split
  · exact .inr rfl
  · exact .inl rfl

theorem Publishing.primaryCurrent_of_slot (h : Publishing bc file header chain op record)
    (hslot : Header.deserialize (slot file 0) = .ok header) :
    PrimaryCurrent bc file header chain op record :=
  ⟨header, hslot, Or.inl (chainAt_grown bc (grown_append file record) h.chain)⟩

def tornShadow (file record : List UInt8) : List UInt8 :=
  writeAt (file ++ record) shadowHeaderOffset (List.replicate 28 0)

theorem crashOf_tornShadow (harea : headerSize ≤ file.length) (next : Header) :
    CrashOf file (publishSteps file record next true) (tornShadow file record) := by
  have hl := next.length_record
  simp only [publishSteps, writeHeaderSlots, syncIf, if_true, cons_append,
    nil_append]
  refine CrashOf.synced (CrashOf.torn ?_)
  rw [writeAt_end]
  refine torn_writeAt ?_ (by rw [hl]; rfl)
  change 4096 ≤ file.length at harea
  rw [hl, length_append]
  change 2048 + 28 ≤ _
  omega

theorem area_append (record : List UInt8) (harea : headerSize ≤ file.length) :
    headerSize ≤ (file ++ record).length := by
  rw [length_append]
  omega

theorem slots_tornShadow (record : List UInt8) (harea : headerSize ≤ file.length) :
    slot (tornShadow file record) 0 = slot file 0 ∧
      slot (tornShadow file record) shadowHeaderOffset = List.replicate 28 0 := by
  have harea' : 4096 ≤ file.length := harea
  have harea₁ := area_append record harea
  refine ⟨?_, slot_writeAt_self rfl harea₁ (by decide)⟩
  have ht : Torn (file ++ record) shadowHeaderOffset (List.replicate 28 0)
      (tornShadow file record) := torn_writeAt (le_trans (by decide) harea₁) rfl
  rw [Torn.slot_disjoint ht harea₁ (by decide) (.inl (by decide))]
  exact readAt_append_left (show 0 + 28 ≤ file.length by omega)

theorem openAt_tornShadow (record : List UInt8) (harea : headerSize ≤ file.length)
    (backup : Option (List UInt8)) :
    openAt (some (tornShadow file record)) backup true =
      match Header.deserialize (slot file 0) with
      | .error e => .error e
      | .ok first => .ok ⟨some (tornShadow file record), first, true⟩ := by
  have harea₁ := area_append record harea
  have hgrown : Grown (file ++ record) (tornShadow file record) :=
    grown_writeSlot (by decide) harea₁
  have hzeros : Header.deserialize (List.replicate 28 0) =
      .error (.corrupted "Invalid header magic bytes") := rfl
  obtain ⟨h₀, h₁⟩ := slots_tornShadow record harea
  rw [openAt_of_area (le_trans harea₁ hgrown.length), h₀, h₁, hzeros]
  cases Header.deserialize (slot file 0) with
  | error e => rfl
  | ok first => rfl

variable (bc) in
/-- `sel` leads to the chain before the append or to the one after it. -/
def Leads (g : List UInt8) (header : Header) (chain : Chain P R V) (op : Append P R V)
    (sel : Header) : Prop :=
  chainAt bc g sel = .ok chain ∨ chainAt bc g sel = .ok ((op.link header).extend chain)

theorem Leads.grown {sel : Header} (hg : Grown f g) (h : Leads bc f header chain op sel) :
    Leads bc g header chain op sel :=
  h.imp (chainAt_grown bc hg) (chainAt_grown bc hg)

/-- With the record in the file, whatever is left in the slots selects a header that leads to one of
the two chains. -/
theorem Publishing.leads_of_recorded (h : Publishing bc file header chain op record)
    (hcur : PrimaryCurrent bc file header chain op record) (hg : Grown (file ++ record) g)
    (hdet : TornSlotsDetected file g (nextHeader op file record))
    (hone : slot g 0 = slot file 0 ∨ slot g shadowHeaderOffset = (nextHeader op file record).record) :
    ∃ sel, selectHeader (Header.deserialize (slot g 0))
        (Header.deserialize (slot g shadowHeaderOffset)) = .ok sel ∧
      Leads bc g header chain op sel := by
  obtain ⟨first, hfirst, hlead⟩ := hcur
  have hlead : Leads bc g header chain op first := Leads.grown hg hlead
  have hnext : Leads bc g header chain op (nextHeader op file record) := Or.inr (h.chainAt_next hg)
  have hdec := Header.deserialize_record h.inRange
  have hboth : ∃ sel, selectHeader (.ok first) (.ok (nextHeader op file record)) = .ok sel ∧
      Leads bc g header chain op sel := by
    rcases selectHeader_ok first (nextHeader op file record) with hs | hs
    · exact ⟨_, hs, hlead⟩
    · exact ⟨_, hs, hnext⟩
  -- the crash falls before the primary slot is touched, or after the shadow slot is written
  rcases hone with h₀ | h₁
  · rw [h₀]
    rcases hdet shadowHeaderOffset (.inr rfl) with hold | hnew | ⟨e, herr⟩
    · rw [hold]
      -- nothing of the new header is visible: the old choice is made again
      exact ⟨header, h.selected,
        Or.inl (chainAt_grown bc ((grown_append file record).trans hg) h.chain)⟩
    · rw [hnew, hdec, hfirst]
      exact hboth
    · rw [herr, hfirst]
      -- a torn shadow slot does not decode, so the primary slot decides
      exact ⟨first, rfl, hlead⟩
  · rw [h₁, hdec]
    rcases hdet 0 (.inl rfl) with hold | hnew | ⟨e, herr⟩
    · rw [hold, hfirst]
      exact hboth
    · rw [hnew, hdec]
      exact ⟨_, by simp [selectHeader], hnext⟩
    · rw [herr]
      -- a torn primary slot does not decode, so the shadow slot decides
      exact ⟨_, rfl, hnext⟩

theorem Publishing.atomic_of_primaryCurrent (h : Publishing bc file header chain op record)
    (hcur : PrimaryCurrent bc file header chain op record) :
    AtomicAppend bc file header chain op record := by
  intro g backup hcrash hdet
  have hsel : headerSize ≤ g.length ∧ ∃ sel, selectHeader (Header.deserialize (slot g 0))
      (Header.deserialize (slot g shadowHeaderOffset)) = .ok sel ∧
        Leads bc g header chain op sel := by
    rcases crashOf_publishSteps h.area hcrash with ⟨hg, h₀, h₁⟩ | ⟨hg, h₀⟩ | ⟨hg, h₁⟩
    · rw [h₀, h₁]
      exact ⟨le_trans h.area hg.length, header, h.selected, Or.inl (chainAt_grown bc hg h.chain)⟩
    · exact ⟨le_trans (area_append record h.area) hg.length,
        h.leads_of_recorded hcur hg hdet (.inl h₀)⟩
    · exact ⟨le_trans (area_append record h.area) hg.length,
        h.leads_of_recorded hcur hg hdet (.inr h₁)⟩
  obtain ⟨harea, sel, hs, hl⟩ := hsel
  exact ⟨_, openAt_of_selected harea hs backup true, hl⟩

theorem tornShadow_detected (record : List UInt8) (harea : headerSize ≤ file.length)
    (next : Header) : TornSlotsDetected file (tornShadow file record) next := by
  obtain ⟨h₀, h₁⟩ := slots_tornShadow record harea
  rintro off (rfl | rfl)
  · exact .inl h₀
  · rw [h₁]
    exact .inr (.inr ⟨_, rfl⟩)

theorem Publishing.primaryCurrent_of_atomic (h : Publishing bc file header chain op record)
    (hatomic : AtomicAppend bc file header chain op record) :
    PrimaryCurrent bc file header chain op record := by
  have harea := h.area
  have harea₁ := area_append record harea
  obtain ⟨fs, hopen, hlead⟩ := hatomic _ none (crashOf_tornShadow harea _)
    (tornShadow_detected record harea _)
  rw [openAt_tornShadow record harea none] at hopen
  cases hslot : Header.deserialize (slot file 0) with
  | error e =>
    rw [hslot] at hopen
    cases hopen
  | ok first =>
    rw [hslot] at hopen
    cases hopen
    -- the torn slot lies in the header area, so the chain is that of `file ++ record`
    have hback : Grown (tornShadow file record) (file ++ record) := by
      have hoff : shadowHeaderOffset ≤ (file ++ record).length :=
        le_trans (by decide) harea₁
      refine ⟨?_, fun i hlo _ => ?_⟩
      · have hin : shadowHeaderOffset + 28 ≤ (file ++ record).length :=
          le_trans (by decide) harea₁
        rw [tornShadow, length_writeAt _ hoff, length_replicate, max_eq_left hin]
      · rw [tornShadow, getElem?_writeAt _ hoff, if_neg]
        rw [length_replicate]
        change ¬(2048 ≤ i ∧ i < 2048 + 28)
        change 4096 ≤ i at hlo
        omega
    exact ⟨first, hslot, Leads.grown hback hlead⟩

/-! ## The slots between appends -/

/-- The file with the record behind it, the new header in the shadow slot and `primary` in the
primary one. -/
def published (file record primary : List UInt8) (next : Header) : List UInt8 :=
  writeAt (writeAt (file ++ record) shadowHeaderOffset next.record) 0 primary

theorem runSteps_publishSteps (next : Header) (sync : Bool) :
    runSteps file (publishSteps file record next sync) =
      published file record next.record next := by
  rw [published, ← writeAt_end]
  cases sync <;> rfl

theorem crashOf_published (next : Header) {primary : List UInt8} (harea : headerSize ≤ file.length)
    (hp : primary.length = 28) :
    CrashOf file (publishSteps file record next true) (published file record primary next) := by
  have hl := next.length_record
  have harea₁ := area_append record harea
  have hgrown : Grown (file ++ record) (writeAt (file ++ record) shadowHeaderOffset next.record) :=
    grown_writeSlot (by rw [hl]; decide) harea₁
  simp only [publishSteps, writeHeaderSlots, syncIf, if_true, cons_append,
    nil_append]
  refine CrashOf.synced (CrashOf.synced (CrashOf.torn ?_))
  rw [writeAt_end]
  exact torn_writeAt (by rw [hl]; exact le_trans (by decide) (le_trans harea₁ hgrown.length))
    (by rw [hl, hp])

theorem slots_published (record : List UInt8) (next : Header) {primary : List UInt8}
    (harea : headerSize ≤ file.length) (hp : primary.length = 28) :
    slot (published file record primary next) 0 = primary ∧
      slot (published file record primary next) shadowHeaderOffset = next.record ∧
      Grown (file ++ record) (published file record primary next) ∧
      (published file record primary next).length = file.length + record.length := by
  have hl := next.length_record
  have harea₁ := area_append record harea
  have harea₁' : 4096 ≤ (file ++ record).length := harea₁
  -- the file with its shadow slot written and its primary slot still as it was
  set shadowed := writeAt (file ++ record) shadowHeaderOffset next.record with hshadowed
  have hgrown : Grown (file ++ record) shadowed := grown_writeSlot (by rw [hl]; decide) harea₁
  have harea₂ := le_trans harea₁ hgrown.length
  have hlen : shadowed.length = (file ++ record).length := by
    rw [hshadowed, length_writeAt _ (le_trans (by decide) harea₁), hl]
    exact max_eq_left (le_trans (by decide) harea₁)
  have ht : Torn shadowed 0 primary (published file record primary next) :=
    torn_writeAt (by rw [hp]; exact le_trans (by decide) harea₂) rfl
  refine ⟨slot_writeAt_self hp harea₂ (by decide), ?_,
    hgrown.trans (Torn.grown_slot ht (by rw [hp]; decide)), ?_⟩
  · rw [Torn.slot_disjoint ht harea₂ (by decide) (.inr (by rw [hp]; decide))]
    exact slot_writeAt_self hl harea₁ (by decide)
  · rw [published, ← hshadowed, length_writeAt _ (zero_le _), hp, hlen, ← length_append]
    exact max_eq_left (by omega)

theorem Publishing.next (h : Publishing bc file header chain op record) {op' : Append P R V}
    {record' primary : List UInt8} (hp : primary.length = 28)
    (hsel : ∀ second, Header.deserialize (nextHeader op file record).record = .ok second →
      selectHeader (Header.deserialize primary) (.ok second) = .ok second)
    (hrec : Recordable bc (op'.link (nextHeader op file record)) record')
    (hfits : file.length + record.length + record'.length < 2 ^ 64)
    (hversion : op'.version < 2 ^ 64) :
    Publishing bc (published file record primary (nextHeader op file record))
      (nextHeader op file record) ((op.link header).extend chain) op' record' := by
  obtain ⟨h₀, h₁, hgrown, hlen⟩ := slots_published record (nextHeader op file record) h.area hp
  have hdec := Header.deserialize_record h.inRange
  refine ⟨le_trans (area_append record h.area) hgrown.length, ?_, h.chainAt_next hgrown, hrec,
    by rw [hlen]; exact hfits, hversion⟩
  rw [h₀, h₁, hdec]
  exact hsel _ hdec

/-- A crash that tears the primary slot leaves a store on which no append is atomic: the header in
use is in the shadow slot only, and that slot is written first. -/
theorem Publishing.tornPrimary_next (h : Publishing bc file header chain op record)
    {op' : Append P R V} {record' : List UInt8}
    (hrec : Recordable bc (op'.link (nextHeader op file record)) record')
    (hfits : file.length + record.length + record'.length < 2 ^ 64)
    (hversion : op'.version < 2 ^ 64) :
    let torn := published file record (List.replicate 28 0) (nextHeader op file record)
    CrashOf file (publishSteps file record (nextHeader op file record) true) torn ∧
      Publishing bc torn (nextHeader op file record) ((op.link header).extend chain) op' record' ∧
      ¬ AtomicAppend bc torn (nextHeader op file record) ((op.link header).extend chain) op'
        record' := by
  intro torn
  have hzeros : Header.deserialize (List.replicate 28 0) =
      .error (.corrupted "Invalid header magic bytes") := rfl
  have hnext : Publishing bc torn (nextHeader op file record) ((op.link header).extend chain) op'
      record' := h.next rfl (fun second _ => by rw [hzeros]; rfl) hrec hfits hversion
  refine ⟨crashOf_published _ h.area rfl, hnext, fun hatomic => ?_⟩
  obtain ⟨first, hslot, _⟩ := hnext.primaryCurrent_of_atomic hatomic
  rw [(slots_published record (nextHeader op file record) h.area rfl).1, hzeros] at hslot
  cases hslot

/-! ## A new database file -/

theorem slots_fresh (h : Header) :
    slot h.serialize 0 = h.record ∧ slot h.serialize shadowHeaderOffset = List.replicate 28 0 := by
  have hl := h.length_record
  refine ⟨?_, ?_⟩
  · change (h.serialize.drop 0).take 28 = h.record
    rw [drop_zero, Header.serialize, take_left' hl]
  · change (h.serialize.drop 2048).take 28 = List.replicate 28 0
    rw [Header.serialize, drop_append, drop_of_length_le (by rw [hl]; decide), hl,
      nil_append, drop_replicate, take_replicate]
    rfl

theorem Publishing.fresh (hrec : Recordable bc (op.link ⟨0, 0, 0⟩) record)
    (hversion : op.version < 2 ^ 64) :
    Publishing bc (Header.serialize ⟨0, 0, 0⟩) ⟨0, 0, 0⟩ (none, []) op record := by
  have hfits := hrec.fits
  have hlen : (Header.serialize ⟨0, 0, 0⟩).length = 4096 := by
    rw [Header.serialize, length_append, Header.length_record, length_replicate]
    rfl
  obtain ⟨h₀, h₁⟩ := slots_fresh ⟨0, 0, 0⟩
  refine ⟨by rw [hlen]; exact le_refl _, ?_, ?_, hrec, by rw [hlen]; omega, hversion⟩
  · rw [h₀, h₁, Header.deserialize_record ⟨by decide, by decide, by decide⟩]
    rfl
  · rw [chainAt, walk, if_pos rfl]

def leafCoder : Coder (List (List UInt8 × List UInt8)) :=
  Coder.iso (.pair (.uint 4) (.vec (.pair .bytes .bytes))) (fun p => p.2) (fun es => (0, es))

def leafCodecs : Codecs (List (List UInt8 × List UInt8)) (List UInt8) (List UInt8) where
  chunk := Bincode.ofCoder (chunkPayloadCoder leafCoder)
  delta := Bincode.ofCoder deltaPayloadCoder

/-- An append is atomic across every crash exactly when the primary slot it starts from is current. -/
theorem atomicAppend_iff_primaryCurrent (h : Publishing bc file header chain op record) :
    AtomicAppend bc file header chain op record ↔ PrimaryCurrent bc file header chain op record :=
  ⟨h.primaryCurrent_of_atomic, h.atomic_of_primaryCurrent⟩

/-- The checkpoint of an empty store, as `MVStore::checkpoint` writes it first. -/
def firstCheckpoint : Append (List (List UInt8 × List UInt8)) (List UInt8) (List UInt8) :=
  .chunk (ChunkPayload.new 1 1 [])

def secondCheckpoint : Append (List (List UInt8 × List UInt8)) (List UInt8) (List UInt8) :=
  .delta ⟨2, 0, 0, [], []⟩

def freshFile : List UInt8 := Header.serialize ⟨0, 0, 0⟩

def firstRecord : List UInt8 :=
  ChunkPayload.frame ((chunkPayloadCoder leafCoder).encode (ChunkPayload.new 1 1 []))

def secondRecord : List UInt8 :=
  DeltaPayload.frame (deltaPayloadCoder.encode ⟨2, 4096, 44, [], []⟩)

theorem firstCheckpoint_recordable :
    Recordable leafCodecs (firstCheckpoint.link ⟨0, 0, 0⟩) firstRecord := by
  have hreads : (chunkPayloadCoder leafCoder).Reads (ChunkPayload.new 1 1 []) :=
    chunkPayloadCoder_reads ⟨by decide, by decide, by decide, by decide⟩
      (Coder.iso_reads (Coder.pair_reads (Coder.uint_reads (by decide))
        (Coder.vec_reads (by decide) (by simp [ChunkPayload.new]))) rfl)
  have hlen : ((chunkPayloadCoder leafCoder).encode (ChunkPayload.new 1 1 [])).length = 36 := rfl
  refine recordable_chunk leafCodecs (Bincode.ofCoder_roundTrips hreads) ?_ ?_
  · rw [hlen]; decide
  · rw [hlen]; decide

theorem nextHeader_firstCheckpoint :
    nextHeader firstCheckpoint freshFile firstRecord = ⟨1, 4096, 44⟩ := by
  have hfile : freshFile.length = 4096 := by
    rw [freshFile, Header.serialize, length_append, Header.length_record,
      length_replicate]
    rfl
  have hrec : firstRecord.length = 44 := by
    rw [firstRecord, ChunkPayload.length_frame]
    rfl
  rw [nextHeader, hfile, hrec]
  rfl

theorem secondCheckpoint_recordable :
    Recordable leafCodecs (secondCheckpoint.link ⟨1, 4096, 44⟩) secondRecord := by
  have hreads : deltaPayloadCoder.Reads ⟨2, 4096, 44, [], []⟩ :=
    deltaPayloadCoder_reads ⟨by decide, by decide, by decide, by decide, by simp, by decide,
      by simp⟩
  exact recordable_delta leafCodecs (Bincode.ofCoder_roundTrips hreads) (by decide)

theorem publishing_firstCheckpoint :
    Publishing leafCodecs freshFile ⟨0, 0, 0⟩ (none, []) firstCheckpoint firstRecord :=
  Publishing.fresh firstCheckpoint_recordable (by decide)

/-- The first checkpoint of a new file survives every crash. -/
theorem atomicAppend_firstCheckpoint :
    Publishing leafCodecs freshFile ⟨0, 0, 0⟩ (none, []) firstCheckpoint firstRecord ∧
      AtomicAppend leafCodecs freshFile ⟨0, 0, 0⟩ (none, []) firstCheckpoint firstRecord := by
  have hpub := publishing_firstCheckpoint
  refine ⟨hpub, (atomicAppend_iff_primaryCurrent hpub).mpr (hpub.primaryCurrent_of_slot ?_)⟩
  rw [freshFile, (slots_fresh ⟨0, 0, 0⟩).1,
    Header.deserialize_record ⟨by decide, by decide, by decide⟩]

/-- The first checkpoint of a new file is cut off while its primary slot is written; the store opens
by the shadow slot, and the second checkpoint is cut off while the shadow slot is written: the file
does not open any more. -/
theorem secondCheckpoint_not_atomic :
    let torn := published freshFile firstRecord (List.replicate 28 0) ⟨1, 4096, 44⟩
    let g := tornShadow torn secondRecord
    CrashOf freshFile (publishSteps freshFile firstRecord ⟨1, 4096, 44⟩ true) torn ∧
    Publishing leafCodecs torn ⟨1, 4096, 44⟩ (some (ChunkPayload.new 1 1 []), [])
      secondCheckpoint secondRecord ∧
    CrashOf torn (publishSteps torn secondRecord (nextHeader secondCheckpoint torn secondRecord)
      true) g ∧
    openAt (some g) none true = .error (.corrupted "Invalid header magic bytes") ∧
    ¬ AtomicAppend leafCodecs torn ⟨1, 4096, 44⟩ (some (ChunkPayload.new 1 1 []), [])
      secondCheckpoint secondRecord := by
  intro torn g
  have hpub := publishing_firstCheckpoint
  have hrec := secondCheckpoint_recordable
  have hlen : secondRecord.length = 48 := by
    rw [secondRecord, DeltaPayload.length_frame]
    rfl
  have hfits : freshFile.length + firstRecord.length + secondRecord.length < 2 ^ 64 := by
    have := congrArg Header.lastChunkOffset nextHeader_firstCheckpoint
    have := congrArg Header.lastChunkLength nextHeader_firstCheckpoint
    have := hpub.recordable.fits
    simp only [nextHeader] at *
    omega
  rw [← nextHeader_firstCheckpoint] at hrec
  -- the general fact, at two concrete records
  obtain ⟨hcrash, hnext, hnot⟩ := hpub.tornPrimary_next hrec hfits (by decide)
  rw [nextHeader_firstCheckpoint] at hcrash hnext hnot
  refine ⟨hcrash, hnext, crashOf_tornShadow hnext.area _, ?_, hnot⟩
  rw [openAt_tornShadow secondRecord hnext.area, (slots_published firstRecord _ hpub.area rfl).1]
  rfl

end H2Database.Mvstore.FileStore
