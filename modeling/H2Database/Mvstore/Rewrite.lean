import H2Database.Mvstore.Publication
import H2Database.Reasoning.Run

/-!
# Rewriting the database file (`compact_and_rewrite` in `h2-mvstore/src/file_store.rs`)

A rewrite fills a temporary file, drops the handle of the database file, moves the two files into place
under their names and opens the result.  The environment may let every call of the file system fail; a
failing write may have stored some of its bytes.  `Durable` says what a store opened on a file owes its
callers, and a rewrite that fails keeps it exactly when it fails while it still has the handle.
-/

namespace H2Database.Mvstore.FileStore

open Reasoning List Nat

/-- The failing call of a series of writes and syncs, and how many bytes a failing write stores. -/
structure IoFault where
  step : Nat
  stored : Nat
  error : H2Error

/-- The file after the steps before the failing one and the part of that one that was carried out. -/
def runUntil (f : List UInt8) : List DiskStep → Nat → Nat → List UInt8
  | [], _, _ => f
  | .write off bs :: _, 0, stored => writeAt f off (bs.take stored)
  | .sync :: _, 0, _ => f
  | .write off bs :: steps, n + 1, stored => runUntil (writeAt f off bs) steps n stored
  | .sync :: steps, n + 1, stored => runUntil f steps n stored

/-- The steps carried out on a file, with the error of the first that fails. -/
def attempt (f : List UInt8) (steps : List DiskStep) (fault : Option IoFault) : Option H2Error × List UInt8 :=
  match fault with
  | none => (none, runSteps f steps)
  | some x =>
    if x.step < steps.length then (some x.error, runUntil f steps x.step x.stored)
    else (none, runSteps f steps)

/-! ## Files and their names -/

/-- What stands under the three names: the database file, `.compact_tmp` and `.compact_bak`. -/
structure Directory where
  path : Option (List UInt8)
  temp : Option (List UInt8)
  backup : Option (List UInt8)

/-- A store with a path.  The handle of its file, while it has one, is that of the file at the path. -/
structure PathStore where
  dir : Directory
  store : FileStore

variable {P R V : Type} (bc : Codecs P R V)

namespace PathStore

def written (s : PathStore) (file : List UInt8) (header : Header) : PathStore :=
  ⟨{ s.dir with path := some file }, { s.store with file := some file, header := header }⟩

/-- `FileStore::open`. -/
def openOn (dir : Directory) (sync : Bool) : H2Result PathStore :=
  match openAt dir.path dir.backup sync with
  | .error e => .error e
  | .ok store =>
    .ok ⟨{ dir with path := store.file, backup := if dir.path.isSome then dir.backup else none }, store⟩

/-- `is_in_memory`. -/
def isInMemory (s : PathStore) : Bool := s.store.file.isNone

/-- `append_and_commit` and `append_delta_and_commit`. -/
def append (s : PathStore) (op : Append P R V) (fault : Option IoFault) : H2Result Unit × PathStore :=
  match s.store.file with
  | none =>
    (.ok (), { s with store := { s.store with header := { s.store.header with version := op.version } } })
  | some file =>
    match (op.link s.store.header).serialize bc with
    | .error e => (.error e, s)
    | .ok record =>
      let header := nextHeader op file record
      match attempt file (publishSteps file record header s.store.syncOnCommit) fault with
      | (some e, file') => (.error e, s.written file' s.store.header)
      | (none, file') => (.ok (), s.written file' header)

/-! ## The rewrite -/

/-- One turn of the loop: whether each call of the file system would succeed. -/
structure RenameTry where
  toBackup : Bool
  replace : Bool
  cleanup : Bool
  rollback : Bool
  direct : Bool

/-- What the file system answers to the calls of a rewrite. -/
structure RewriteFaults where
  create : Option H2Error
  header : Option IoFault
  chunk : Option IoFault
  removeBackup : Bool
  tries : Fin 10 → RenameTry
  reopen : Option H2Error

def prepare (payload : ChunkPayload P) (faults : RewriteFaults) (temp : Option (List UInt8)) :
    H2Result Header × Option (List UInt8) :=
  match faults.create with
  | some e => (.error e, temp)
  | none =>
    let dummy : Header := ⟨payload.chunkMeta.version, 0, 0⟩
    match attempt [] [.write 0 dummy.serialize] faults.header with
    | (some e, file) => (.error e, some file)
    | (none, file) =>
      match payload.serialize bc.chunk with
      | .error e => (.error e, some file)
      | .ok bytes =>
        let final : Header := ⟨payload.chunkMeta.version, file.length, bytes.length % 2 ^ 32⟩
        match attempt file (publishSteps file bytes final true) faults.chunk with
        | (some e, file') => (.error e, some file')
        | (none, file') => (.ok final, some file')

/-- One turn of the loop, and whether it has put the new file into place. -/
def tryReplace (dir : Directory) (t : RenameTry) : Bool × Directory :=
  if t.toBackup && dir.path.isSome then
    let moved : Directory := { dir with path := none, backup := dir.path }
    if t.replace && moved.temp.isSome then
      (true, { path := moved.temp, temp := none, backup := if t.cleanup then none else moved.backup })
    else if t.rollback then (false, { moved with path := moved.backup, backup := none })
    else (false, moved)
  else if t.direct && dir.temp.isSome then (true, { dir with path := dir.temp, temp := none })
  else (false, dir)

def replaceFile (dir : Directory) : List RenameTry → Bool × Directory
  | [] => (false, dir)
  | t :: rest =>
    match tryReplace dir t with
    | (true, dir') => (true, dir')
    | (false, dir') => replaceFile dir' rest

def compactAndRewrite (s : PathStore) (payload : ChunkPayload P) (faults : RewriteFaults) :
    H2Result Unit × PathStore :=
  match prepare bc payload faults s.dir.temp with
  | (.error e, temp) => (.error e, { s with dir := { s.dir with temp := temp } })
  | (.ok final, temp) =>
    -- the handle is dropped here
    let closed : FileStore := { s.store with file := none }
    let dir : Directory :=
      { s.dir with temp := temp, backup := if faults.removeBackup then none else s.dir.backup }
    match replaceFile dir (List.ofFn faults.tries) with
    | (false, dir') =>
      (.error (.storage "Failed to replace storage file during compaction"), ⟨dir', closed⟩)
    | (true, dir') =>
      match faults.reopen with
      | some e => (.error e, ⟨dir', closed⟩)
      | none => (.ok (), ⟨dir', { closed with file := dir'.path, header := final }⟩)

/-- The file opens from its path with `op` as its newest record. -/
def Shows (s : PathStore) (op : Append P R V) : Prop :=
  ∃ reopened file link, openOn s.dir s.store.syncOnCommit = .ok reopened ∧
    reopened.store.file = some file ∧ reopened.store.header.version = op.version ∧
    decodeRecord bc (readAt file reopened.store.header.lastChunkOffset
      reopened.store.header.lastChunkLength) = .ok (op.link link)

/-- The record of the append can be read back, and the file has room for it. -/
def Storable (s : PathStore) (op : Append P R V) : Prop :=
  ∀ file record, s.store.file = some file → (op.link s.store.header).serialize bc = .ok record →
    Recordable bc (op.link s.store.header) record ∧ file.length + record.length < 2 ^ 64 ∧
      op.version < 2 ^ 64

def appendAll (s : PathStore) (ops : List (Append P R V × Option IoFault)) : PathStore :=
  runs (fun s a => (s.append bc a.1 a.2).2) s ops

/-- Every later append that returns `Ok` is in the file. -/
def KeepsAppends (s : PathStore) : Prop :=
  ∀ (before : List (Append P R V × Option IoFault)) (op : Append P R V) (fault : Option IoFault)
    (s' : PathStore), Storable bc (s.appendAll bc before) op →
    (s.appendAll bc before).append bc op fault = (.ok (), s') → Shows bc s' op

/-- A fault among the first `n` steps. -/
def Hits (fault : Option IoFault) (n : Nat) : Prop := ∃ x, fault = some x ∧ x.step < n

/-- One of the calls before the handle is dropped fails: creating, filling or syncing the temporary file. -/
def FailsEarly (payload : ChunkPayload P) (faults : RewriteFaults) : Prop :=
  faults.create.isSome ∨ Hits faults.header 1 ∨ (∃ e, payload.serialize bc.chunk = .error e) ∨
    Hits faults.chunk 6

/-- The handle is that of the file at the path, which has its header area. -/
def OnPath (s : PathStore) : Prop :=
  ∀ file, s.store.file = some file → s.dir.path = some file ∧ headerSize ≤ file.length

/-! ## Writes only lengthen a file -/

theorem length_le_writeAt (f : List UInt8) (off : Nat) (bs : List UInt8) :
    f.length ≤ (writeAt f off bs).length := by
  simp only [writeAt, length_append, length_take, length_replicate, length_drop]
  omega

theorem length_le_runSteps (f : List UInt8) (steps : List DiskStep) :
    f.length ≤ (runSteps f steps).length := by
  induction steps generalizing f with
  | nil => exact le_refl _
  | cons step steps ih =>
    cases step with
    | write off bs => exact le_trans (length_le_writeAt f off bs) (ih _)
    | sync => exact ih f

theorem length_le_runUntil (f : List UInt8) (steps : List DiskStep) (n stored : Nat) :
    f.length ≤ (runUntil f steps n stored).length := by
  induction steps generalizing f n with
  | nil => exact le_refl _
  | cons step steps ih =>
    cases step with
    | write off bs =>
      cases n with
      | zero => exact length_le_writeAt f off _
      | succ n => exact le_trans (length_le_writeAt f off bs) (ih _ n)
    | sync =>
      cases n with
      | zero => exact le_refl _
      | succ n => exact ih f n

theorem length_le_attempt (f : List UInt8) (steps : List DiskStep) (fault : Option IoFault) :
    f.length ≤ (attempt f steps fault).2.length := by
  unfold attempt
  split
  · exact length_le_runSteps f steps
  · split_ifs
    · exact length_le_runUntil f steps _ _
    · exact length_le_runSteps f steps

theorem attempt_ok {f f' : List UInt8} {steps : List DiskStep} {fault : Option IoFault}
    (h : attempt f steps fault = (none, f')) : f' = runSteps f steps := by
  unfold attempt at h
  cases fault with
  | none => exact (Prod.mk.inj h).2.symm
  | some x =>
    simp only at h
    split_ifs at h
    · cases (Prod.mk.inj h).1
    · exact (Prod.mk.inj h).2.symm

theorem attempt_failed_iff {f : List UInt8} {steps : List DiskStep} {fault : Option IoFault} :
    (∃ e f', attempt f steps fault = (some e, f')) ↔ Hits fault steps.length := by
  unfold attempt Hits
  cases fault with
  | none => simp
  | some x =>
    by_cases hx : x.step < steps.length
    · simp [hx]
    · simp [hx]

/-! ## Appends -/

variable {bc} {s s' : PathStore} {op : Append P R V} {fault : Option IoFault}

theorem openOn_onPath {dir : Directory} {sync : Bool} (h : openOn dir sync = .ok s) :
    s.OnPath ∧ s.isInMemory = false := by
  have harea : ∀ file : List UInt8, ¬file.length < headerSize → headerSize ≤ file.length := fun _ hlt => by
    omega
  unfold openOn at h
  cases hopen : openAt dir.path dir.backup sync with
  | error e =>
    rw [hopen] at h
    cases h
  | ok store =>
    rw [hopen] at h
    cases h
    have hfile : ∃ file, store.file = some file ∧ headerSize ≤ file.length := by
      unfold openAt at hopen
      simp only at hopen
      split_ifs at hopen with hshort
      · cases hopen
        refine ⟨_, rfl, ?_⟩
        have hserialized : (Header.serialize ⟨0, 0, 0⟩).length = headerSize := by
          rw [Header.serialize, length_append, Header.length_record, length_replicate]
          rfl
        rw [length_writeAt _ (zero_le _), hserialized]
        omega
      · split at hopen
        · cases hopen
        · cases hopen
          exact ⟨_, rfl, harea _ hshort⟩
    obtain ⟨file, hsome, hlen⟩ := hfile
    constructor
    · intro file' hfile'
      rw [hsome] at hfile'
      cases hfile'
      exact ⟨hsome, hlen⟩
    · rw [isInMemory, hsome]
      rfl

theorem append_onPath (h : s.OnPath) :
    (s.append bc op fault).2.OnPath ∧ (s.append bc op fault).2.isInMemory = s.isInMemory := by
  unfold append
  cases hfile : s.store.file with
  | none =>
    refine ⟨fun file hsome => ?_, ?_⟩
    · rw [hfile] at hsome
      cases hsome
    · rw [isInMemory, isInMemory, hfile]
  | some file =>
    simp only
    cases hser : (op.link s.store.header).serialize bc with
    | error e => exact ⟨h, rfl⟩
    | ok record =>
      have hlen := (h file hfile).2
      have hwritten : ∀ header, (s.written (attempt file (publishSteps file record
          (nextHeader op file record) s.store.syncOnCommit) fault).2 header).OnPath := by
        intro header file' hsome
        cases hsome
        exact ⟨rfl, le_trans hlen (length_le_attempt _ _ _)⟩
      simp only
      split
      · rename_i heq
        rw [heq] at hwritten
        exact ⟨hwritten _, by rw [isInMemory, isInMemory, hfile]; rfl⟩
      · rename_i heq
        rw [heq] at hwritten
        exact ⟨hwritten _, by rw [isInMemory, isInMemory, hfile]; rfl⟩

theorem appendAll_onPath (h : s.OnPath) (ops : List (Append P R V × Option IoFault)) :
    (s.appendAll bc ops).OnPath ∧ (s.appendAll bc ops).isInMemory = s.isInMemory := by
  induction ops generalizing s with
  | nil => exact ⟨h, rfl⟩
  | cons a ops ih =>
    obtain ⟨hfirst, hsame⟩ := @append_onPath P R V bc s a.1 a.2 h
    obtain ⟨hrest, hmemory⟩ := ih hfirst
    exact ⟨hrest, hmemory.trans hsame⟩

theorem append_shows (h : s.OnPath) (hdisk : s.isInMemory = false) (hop : Storable bc s op)
    (hok : s.append bc op fault = (.ok (), s')) : Shows bc s' op := by
  cases hfile : s.store.file with
  | none =>
    rw [isInMemory, hfile] at hdisk
    cases hdisk
  | some file =>
    have harea := (h file hfile).2
    simp only [append, hfile] at hok
    cases hser : (op.link s.store.header).serialize bc with
    | error e =>
      rw [hser] at hok
      cases hok
    | ok record =>
      obtain ⟨hrec, hfits, hversion⟩ := hop file record hfile hser
      rw [hser] at hok
      simp only at hok
      split at hok
      · cases (Prod.mk.inj hok).1
      · rename_i file' hattempt
        have hfile' : file' = published file record (nextHeader op file record).record
            (nextHeader op file record) := by
          rw [attempt_ok hattempt, runSteps_publishSteps]
        have hs' : s.written file' (nextHeader op file record) = s' := (Prod.mk.inj hok).2
        have hlen := (nextHeader op file record).length_record
        obtain ⟨hprimary, hshadow, hgrown, _⟩ :=
          slots_published record (nextHeader op file record) harea hlen
        have hmod : record.length % 2 ^ 32 = record.length := mod_eq_of_lt hrec.fits
        have hrange : (nextHeader op file record).InRange :=
          ⟨hversion, by simp only [nextHeader]; omega, mod_lt _ (by decide)⟩
        have hsel : selectHeader (Header.deserialize (slot file' 0))
            (Header.deserialize (slot file' shadowHeaderOffset)) = .ok (nextHeader op file record) := by
          rw [hfile', hprimary, hshadow, Header.deserialize_record hrange]
          simp [selectHeader]
        have harea' : headerSize ≤ file'.length := by
          rw [hfile']
          exact le_trans (area_append record harea) hgrown.length
        have hopen : openAt (some file') s.dir.backup s.store.syncOnCommit =
            .ok ⟨some file', nextHeader op file record, s.store.syncOnCommit⟩ :=
          openAt_of_selected harea' hsel _ _
        rw [← hs']
        refine ⟨⟨{ s.dir with path := some file' },
          ⟨some file', nextHeader op file record, s.store.syncOnCommit⟩⟩,
          file', s.store.header, ?_, rfl, rfl, ?_⟩
        · simp only [openOn, written]
          rw [hopen]
          rfl
        · simp only [nextHeader]
          rw [hmod, hfile', hgrown.readAt harea (by rw [length_append]), readAt_append_right]
          exact hrec.readBack

theorem keepsAppends_of_onPath (h : s.OnPath) (hdisk : s.isInMemory = false) : KeepsAppends bc s := by
  intro before op fault s' hop hok
  obtain ⟨hpath, hmemory⟩ := @appendAll_onPath P R V bc s h before
  exact append_shows hpath (hmemory.trans hdisk) hop hok

theorem not_keepsAppends (payload : ChunkPayload P) (hmemory : s.isInMemory = true) : ¬KeepsAppends bc s := by
  intro hkeeps
  have hfile : s.store.file = none := Option.isNone_iff_eq_none.mp hmemory
  -- a version other than the one the file opens with
  obtain ⟨v, hv⟩ : ∃ v, ∀ reopened, openOn s.dir s.store.syncOnCommit = .ok reopened →
      reopened.store.header.version ≠ v := by
    cases hopen : openOn s.dir s.store.syncOnCommit with
    | error e =>
      refine ⟨0, fun reopened heq => ?_⟩
      cases heq
    | ok opened =>
      refine ⟨opened.store.header.version + 1, fun reopened heq => ?_⟩
      cases heq
      omega
  have hop : Storable bc (s.appendAll bc [])
      (.chunk ⟨{ payload.chunkMeta with version := v }, payload.rootPage⟩) := by
    intro file record hsome
    rw [appendAll, runs_nil, hfile] at hsome
    cases hsome
  have hshown := hkeeps [] _ none
      (s.append bc (.chunk ⟨{ payload.chunkMeta with version := v }, payload.rootPage⟩) none).2
    hop (by rw [appendAll, runs_nil, append, hfile])
  obtain ⟨reopened, _, _, hopen, _, hversion, _⟩ := hshown
  rw [append, hfile] at hopen
  exact hv reopened hopen hversion

theorem keepsAppends_iff (h : s.OnPath) (payload : ChunkPayload P) :
    KeepsAppends bc s ↔ s.isInMemory = false := by
  constructor
  · intro hkeeps
    rw [← Bool.not_eq_true]
    exact fun hmemory => not_keepsAppends payload hmemory hkeeps
  · exact keepsAppends_of_onPath h

/-! ## What a rewrite does -/

theorem attempt_none_or_some (f : List UInt8) (steps : List DiskStep) (fault : Option IoFault) :
    (∃ f', attempt f steps fault = (none, f') ∧ ¬Hits fault steps.length) ∨
      ∃ e f', attempt f steps fault = (some e, f') ∧ Hits fault steps.length := by
  cases hattempt : attempt f steps fault with
  | mk error f' =>
    cases error with
    | none =>
      refine .inl ⟨f', rfl, fun hhits => ?_⟩
      obtain ⟨e, g, hfailed⟩ := (@attempt_failed_iff f steps fault).mpr hhits
      rw [hattempt] at hfailed
      cases hfailed
    | some e => exact .inr ⟨e, f', rfl, attempt_failed_iff.mp ⟨e, f', hattempt⟩⟩

theorem prepare_cases (payload : ChunkPayload P) (faults : RewriteFaults) (temp : Option (List UInt8)) :
    (FailsEarly bc payload faults ∧ ∃ e temp', prepare bc payload faults temp = (.error e, temp')) ∨
      (¬FailsEarly bc payload faults ∧ ∃ final file, prepare bc payload faults temp = (.ok final, some file) ∧
        headerSize ≤ file.length) := by
  unfold prepare FailsEarly
  cases faults.create with
  | some e => exact .inl ⟨.inl rfl, e, temp, rfl⟩
  | none =>
    simp only [Option.isSome_none, Bool.false_eq_true, false_or]
    rcases attempt_none_or_some [] [.write 0 (Header.serialize ⟨payload.chunkMeta.version, 0, 0⟩)]
      faults.header with hok | hfailed
    · obtain ⟨file, hheader, hnohit⟩ := hok
      have hserialized : (Header.serialize ⟨payload.chunkMeta.version, 0, 0⟩).length = headerSize := by
        rw [Header.serialize, length_append, Header.length_record, length_replicate]
        rfl
      have hfile : headerSize ≤ file.length := by
        rw [attempt_ok hheader, runSteps, runSteps, length_writeAt _ (zero_le _), hserialized]
        omega
      rw [hheader]
      cases hser : payload.serialize bc.chunk with
      | error e => exact .inl ⟨.inr (.inl ⟨e, rfl⟩), e, some file, rfl⟩
      | ok bytes =>
        simp only
        rcases attempt_none_or_some file (publishSteps file bytes
          ⟨payload.chunkMeta.version, file.length, bytes.length % 2 ^ 32⟩ true) faults.chunk with hok |
            hfailed
        · obtain ⟨file', hchunk, hnochunk⟩ := hok
          rw [hchunk]
          have hgrown := length_le_attempt file (publishSteps file bytes
            ⟨payload.chunkMeta.version, file.length, bytes.length % 2 ^ 32⟩ true) faults.chunk
          rw [hchunk] at hgrown
          refine .inr ⟨?_, _, file', rfl, le_trans hfile hgrown⟩
          intro hearly
          rcases hearly with hh | herr | hc
          · exact hnohit hh
          · obtain ⟨e, he⟩ := herr
            cases he
          · exact hnochunk hc
        · obtain ⟨e, file', hchunk, hhit⟩ := hfailed
          rw [hchunk]
          exact .inl ⟨.inr (.inr hhit), e, some file', rfl⟩
    · obtain ⟨e, file, hheader, hhit⟩ := hfailed
      rw [hheader]
      exact .inl ⟨.inl hhit, e, some file, rfl⟩

theorem tryReplace_cases (dir : Directory) (t : RenameTry) :
    ((tryReplace dir t).1 = true ∧ dir.temp.isSome ∧ (tryReplace dir t).2.path = dir.temp) ∨
      ((tryReplace dir t).1 = false ∧ (tryReplace dir t).2.temp = dir.temp) := by
  unfold tryReplace
  by_cases hbackup : (t.toBackup && dir.path.isSome) = true
  · rw [if_pos hbackup]
    by_cases hreplace : (t.replace && dir.temp.isSome) = true
    · simp only [if_pos hreplace]
      exact .inl ⟨trivial, (Bool.and_eq_true_iff.mp hreplace).2, trivial⟩
    · simp only [if_neg hreplace]
      split_ifs
      · exact .inr ⟨rfl, rfl⟩
      · exact .inr ⟨rfl, rfl⟩
  · rw [if_neg hbackup]
    by_cases hdirect : (t.direct && dir.temp.isSome) = true
    · rw [if_pos hdirect]
      exact .inl ⟨rfl, (Bool.and_eq_true_iff.mp hdirect).2, rfl⟩
    · rw [if_neg hdirect]
      exact .inr ⟨rfl, rfl⟩

theorem replaceFile_path {dir dir' : Directory} {tries : List RenameTry}
    (h : replaceFile dir tries = (true, dir')) : dir'.path = dir.temp := by
  induction tries generalizing dir with
  | nil => cases h
  | cons t rest ih =>
    rw [replaceFile] at h
    have hcases := tryReplace_cases dir t
    split at h
    · rename_i placed hplaced
      rw [hplaced] at hcases
      rcases hcases with hdone | hfailed
      · rw [← (Prod.mk.inj h).2]
        exact hdone.2.2
      · cases hfailed.1
    · rename_i next hnext
      rw [hnext] at hcases
      rcases hcases with hdone | hfailed
      · cases hdone.1
      · rw [ih h]
        exact hfailed.2

theorem compactAndRewrite_cases (s : PathStore) (payload : ChunkPayload P) (faults : RewriteFaults) :
    (FailsEarly bc payload faults ∧ ∃ e temp, s.compactAndRewrite bc payload faults =
        (.error e, { s with dir := { s.dir with temp := temp } })) ∨
      (¬FailsEarly bc payload faults ∧ (∃ e s', s.compactAndRewrite bc payload faults = (.error e, s') ∧
        s'.store.file = none)) ∨
      ∃ s', s.compactAndRewrite bc payload faults = (.ok (), s') ∧
        ∃ file, s'.store.file = some file ∧ s'.dir.path = some file ∧ headerSize ≤ file.length := by
  unfold compactAndRewrite
  rcases prepare_cases payload faults s.dir.temp with hearly | hready
  · obtain ⟨hfails, e, temp, hprepare⟩ := hearly
    rw [hprepare]
    exact .inl ⟨hfails, e, temp, rfl⟩
  · obtain ⟨hnot, final, file, hprepare, hlen⟩ := hready
    rw [hprepare]
    simp only
    cases hreplace : replaceFile ⟨s.dir.path, some file,
        if faults.removeBackup then none else s.dir.backup⟩ (List.ofFn faults.tries) with
    | mk replaced dir' =>
      cases replaced with
      | false => exact .inr (.inl ⟨hnot, _, _, rfl, rfl⟩)
      | true =>
        cases hreopen : faults.reopen with
        | some e => exact .inr (.inl ⟨hnot, e, _, rfl, rfl⟩)
        | none =>
          have hpath := replaceFile_path hreplace
          exact .inr (.inr ⟨_, rfl, file, hpath, hpath, hlen⟩)

variable {payload : ChunkPayload P} {faults : RewriteFaults}

theorem compactAndRewrite_onPath (h : s.OnPath) : (s.compactAndRewrite bc payload faults).2.OnPath := by
  rcases @compactAndRewrite_cases P R V bc s payload faults with hearly | hlate | hdone
  · obtain ⟨_, e, temp, heq⟩ := hearly
    rw [heq]
    exact h
  · obtain ⟨_, e, s', heq, hnone⟩ := hlate
    rw [heq]
    intro file hfile
    rw [hnone] at hfile
    cases hfile
  · obtain ⟨s', heq, file, hfile, hpath, hlen⟩ := hdone
    rw [heq]
    intro file' hfile'
    rw [hfile] at hfile'
    cases hfile'
    exact ⟨hpath, hlen⟩

variable (P R V) in
inductive StoreCall where
  | append (op : Append P R V) (fault : Option IoFault)
  | compact (payload : ChunkPayload P) (faults : RewriteFaults)

variable (bc) in
def call (s : PathStore) : StoreCall P R V → PathStore
  | .append op fault => (s.append bc op fault).2
  | .compact payload faults => (s.compactAndRewrite bc payload faults).2

variable (bc) in
def Orderly (s : PathStore) : StoreCall P R V → Prop
  | .append _ _ => True
  | .compact payload faults =>
    (s.compactAndRewrite bc payload faults).1 = .ok () ∨ FailsEarly bc payload faults

theorem call_onPath (h : s.OnPath) (c : StoreCall P R V) : (s.call bc c).OnPath := by
  cases c with
  | append op fault => exact (append_onPath h).1
  | compact payload faults => exact compactAndRewrite_onPath h

theorem runs_onPath (h : s.OnPath) (calls : List (StoreCall P R V)) : (runs (call bc) s calls).OnPath := by
  induction calls generalizing s with
  | nil => exact h
  | cons c calls ih => exact ih (call_onPath h c)

theorem call_inMemory (h : s.OnPath) (hdisk : s.isInMemory = false) {c : StoreCall P R V}
    (hc : Orderly bc s c) : (s.call bc c).isInMemory = false := by
  cases c with
  | append op fault => exact (append_onPath h).2.trans hdisk
  | compact payload faults =>
    rw [call]
    rcases @compactAndRewrite_cases P R V bc s payload faults with hearly | hlate | hdone
    · obtain ⟨_, e, temp, heq⟩ := hearly
      rw [heq]
      exact hdisk
    · obtain ⟨hnot, e, s', heq, _⟩ := hlate
      rw [Orderly, heq] at hc
      rcases hc with hok | hfails
      · cases hok
      · exact absurd hfails hnot
    · obtain ⟨s', heq, file, hfile, _⟩ := hdone
      rw [heq, isInMemory, hfile]
      rfl

theorem runs_inMemory (h : s.OnPath) (hdisk : s.isInMemory = false) {calls : List (StoreCall P R V)}
    (horderly : Meets (call bc) (Orderly bc) s calls) : (runs (call bc) s calls).isInMemory = false := by
  induction calls generalizing s with
  | nil => exact hdisk
  | cons c calls ih => exact ih (call_onPath h c) (call_inMemory h hdisk horderly.1) horderly.2

theorem failed_rewrite_inMemory {e : H2Error}
    (hfailed : s.compactAndRewrite bc payload faults = (.error e, s')) :
    s'.isInMemory = false ↔ s.isInMemory = false ∧ FailsEarly bc payload faults := by
  rcases @compactAndRewrite_cases P R V bc s payload faults with hearly | hlate | hdone
  · obtain ⟨hfails, e', temp, heq⟩ := hearly
    rw [hfailed] at heq
    have hs' := (Prod.mk.inj heq).2
    rw [hs']
    exact ⟨fun hdisk => ⟨hdisk, hfails⟩, fun hcond => hcond.1⟩
  · obtain ⟨hnot, e', s'', heq, hnone⟩ := hlate
    rw [hfailed] at heq
    rw [← (Prod.mk.inj heq).2] at hnone
    rw [isInMemory, hnone]
    exact iff_of_false Bool.noConfusion fun hcond => hnot hcond.2
  · obtain ⟨s'', heq, _⟩ := hdone
    rw [hfailed] at heq
    cases (Prod.mk.inj heq).1

variable (bc) in
/-- After a failed rewrite of a store opened on a file, later appends are in the file, and the store is no
in-memory one, exactly when the store had its handle and the failure came before it was dropped; where
every rewrite of a run is orderly, both hold throughout. -/
theorem failed_rewrite_durable_iff (dir : Directory) (sync : Bool) (opened : PathStore)
    (hopen : openOn dir sync = .ok opened) (calls : List (StoreCall P R V)) :
    (∀ payload faults e s', (runs (call bc) opened calls).compactAndRewrite bc payload faults =
      (.error e, s') →
      (KeepsAppends bc s' ↔
        (runs (call bc) opened calls).isInMemory = false ∧ FailsEarly bc payload faults) ∧
      (s'.isInMemory = false ↔
        (runs (call bc) opened calls).isInMemory = false ∧ FailsEarly bc payload faults)) ∧
    (Meets (call bc) (Orderly bc) opened calls →
      KeepsAppends bc (runs (call bc) opened calls) ∧ (runs (call bc) opened calls).isInMemory = false) := by
  have hpath : (runs (call bc) opened calls).OnPath := runs_onPath (openOn_onPath hopen).1 calls
  constructor
  · intro payload faults e s' hfailed
    have hpath' : s'.OnPath := by
      have honPath := @compactAndRewrite_onPath P R V bc _ payload faults hpath
      rw [hfailed] at honPath
      exact honPath
    have hmemory := failed_rewrite_inMemory hfailed
    exact ⟨(keepsAppends_iff hpath' payload).trans hmemory, hmemory⟩
  · intro horderly
    have hdisk := runs_inMemory (openOn_onPath hopen).1 (openOn_onPath hopen).2 horderly
    exact ⟨keepsAppends_of_onPath hpath hdisk, hdisk⟩

/-! ## A new database file -/

theorem openOn_new : openOn ⟨none, none, none⟩ true =
    .ok ⟨⟨some (writeAt [] 0 (Header.serialize ⟨0, 0, 0⟩)), none, none⟩,
      some (writeAt [] 0 (Header.serialize ⟨0, 0, 0⟩)), ⟨0, 0, 0⟩, true⟩ := rfl

def noTemporary : RewriteFaults :=
  ⟨some (.io "No space left on device"), none, none, false, fun _ => ⟨true, true, true, true, true⟩, none⟩

theorem failed_rewrite_durable_noTemporary :
    ∃ opened e s', openOn ⟨none, none, none⟩ true = .ok opened ∧
      opened.compactAndRewrite leafCodecs (ChunkPayload.new 1 1 []) noTemporary = (.error e, s') ∧
      KeepsAppends leafCodecs s' := by
  have hiff := (failed_rewrite_durable_iff leafCodecs ⟨none, none, none⟩ true _ openOn_new []).1
    (ChunkPayload.new 1 1 []) noTemporary _ _ rfl
  exact ⟨_, _, _, openOn_new, rfl, hiff.1.mpr ⟨rfl, Or.inl rfl⟩⟩

def noRenames : RewriteFaults :=
  ⟨none, none, none, false, fun _ => ⟨false, false, false, false, false⟩, none⟩

theorem not_failsEarly_noRenames : ¬FailsEarly leafCodecs (ChunkPayload.new 1 1 []) noRenames := by
  intro hearly
  rcases hearly with hcreate | hheader | hser | hchunk
  · cases hcreate
  · obtain ⟨x, hx, _⟩ := hheader
    cases hx
  · obtain ⟨e, he⟩ := hser
    cases he
  · obtain ⟨x, hx, _⟩ := hchunk
    cases hx

theorem replaceFile_noRenames (dir : Directory) :
    replaceFile dir (List.ofFn noRenames.tries) = (false, dir) := rfl

theorem compactAndRewrite_noRenames (s : PathStore) :
    ∃ dir, s.compactAndRewrite leafCodecs (ChunkPayload.new 1 1 []) noRenames =
      (.error (.storage "Failed to replace storage file during compaction"),
        ⟨dir, { s.store with file := none }⟩) := by
  rcases prepare_cases (ChunkPayload.new 1 1 []) noRenames s.dir.temp with hearly | hready
  · exact absurd hearly.1 not_failsEarly_noRenames
  · obtain ⟨_, final, file, hprepare, _⟩ := hready
    refine ⟨{ s.dir with temp := some file }, ?_⟩
    simp only [compactAndRewrite]
    rw [hprepare]
    simp only [replaceFile_noRenames]
    rfl

/-- A new database file whose first rewrite cannot rename: the store is an in-memory one from then on. -/
theorem failed_rewrite_not_durable :
    ∃ opened e s', openOn ⟨none, none, none⟩ true = .ok opened ∧
      opened.compactAndRewrite leafCodecs (ChunkPayload.new 1 1 []) noRenames = (.error e, s') ∧
      ¬KeepsAppends leafCodecs s' ∧ s'.isInMemory = true := by
  obtain ⟨dir, hfailed⟩ := compactAndRewrite_noRenames
    ⟨⟨some (writeAt [] 0 (Header.serialize ⟨0, 0, 0⟩)), none, none⟩,
      some (writeAt [] 0 (Header.serialize ⟨0, 0, 0⟩)), ⟨0, 0, 0⟩, true⟩
  exact ⟨_, _, _, openOn_new, hfailed, not_keepsAppends (ChunkPayload.new 1 1 []) rfl, rfl⟩

end PathStore

end H2Database.Mvstore.FileStore
