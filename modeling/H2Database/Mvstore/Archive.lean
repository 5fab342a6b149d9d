import H2Database.Mvstore.Wal
import H2Database.Reasoning.Run
import H2Database.Reasoning.Sorted

/-!
# The archive of the log (`h2-mvstore/src/wal.rs`)

`WalArchiver` writes each record as a frame to the current of a series of segment files, and
`read_archive_records` reads every segment up to its first bad frame, one after the other.  Damage to a
segment therefore loses its later records and nothing else, so what is read is a prefix of the archive
exactly when no other segment holds a record that is newer than a lost one.
-/

namespace H2Database.Mvstore

open Reasoning List

abbrev Directory := List (String × List UInt8)

/-- The file that is open for writing stands under its name. -/
structure WalArchiver where
  currentSegmentWriter : Option String
  currentSegmentBytes : Nat
  segmentSizeLimit : Nat
  currentSegmentId : Nat
  minVersion : Nat
  maxVersion : Nat
  totalRecords : Nat
  deriving DecidableEq, Repr

/-- The directory of the archive and the archiver that writes to it. -/
structure Archive where
  dir : Directory
  archiver : WalArchiver
  deriving DecidableEq, Repr

namespace WalArchiver

/-! ## Segment files -/

/-- `str::parse::<u64>`. -/
def parseU64 (cs : List Char) : Option Nat :=
  let digits := if cs.head? = some '+' then cs.tail else cs
  let n := digits.foldl (fun n c => 10 * n + (c.toNat - '0'.toNat)) 0
  if digits ≠ [] ∧ digits.all Char.isDigit ∧ n < 2 ^ 64 then some n else none

def segmentId (name : String) : Option Nat :=
  let cs := name.toList
  if "wal_".toList.isPrefixOf cs ∧ ".wal".toList.isSuffixOf cs then
    parseU64 ((cs.drop 4).take (cs.length - 8))
  else none

def paddedDigits (n : Nat) : List Char :=
  let digits := Nat.toDigits 10 n
  List.replicate (16 - digits.length) '0' ++ digits

/-- The name `wal_{:016}.wal`. -/
def segmentFileName (id : Nat) : String :=
  String.ofList ("wal_".toList ++ paddedDigits id ++ ".wal".toList)

/-- `Path::extension` is `wal`; a name that starts with its only dot has no extension. -/
def hasWalExtension (name : String) : Bool :=
  ".wal".toList.isSuffixOf name.toList && name.toList != ".wal".toList

/-- The largest number among the segments of a directory, 0 without any. -/
def maxSegmentId (dir : Directory) : Nat :=
  dir.foldl (fun m p => match segmentId p.1 with
    | some id => if m < id then id else m
    | none => m) 0

def withSegmentSize (dir : Directory) (segmentSizeLimit : Nat) : WalArchiver where
  currentSegmentWriter := none
  currentSegmentBytes := 0
  segmentSizeLimit := segmentSizeLimit
  currentSegmentId := min (maxSegmentId dir + 1) (2 ^ 64 - 1)
  minVersion := 0
  maxVersion := 0
  totalRecords := 0

def defaultSegmentSizeLimit : Nat := 16 * 1024 * 1024

/-- `WalArchiver::new`. -/
def new (dir : Directory) : WalArchiver := withSegmentSize dir defaultSegmentSizeLimit

end WalArchiver

namespace Directory

/-- Opening for append with `create(true)`: a missing file is made. -/
def openAppend (dir : Directory) (name : String) : Directory :=
  if name ∈ dir.map Prod.fst then dir else dir ++ [(name, [])]

def modify (dir : Directory) (name : String) (f : List UInt8 → List UInt8) : Directory :=
  dir.map fun p => if p.1 = name then (p.1, f p.2) else p

end Directory

namespace Archive

open WalArchiver

variable {V : Type} (bc : Bincode (WalRecord V))

/-! ## Archiving -/

def rotate (s : Archive) : Archive :=
  let fileName := segmentFileName s.archiver.currentSegmentId
  { dir := Directory.openAppend s.dir fileName
    archiver := { s.archiver with
      currentSegmentWriter := some fileName
      currentSegmentBytes := 0
      currentSegmentId := (s.archiver.currentSegmentId + 1) % 2 ^ 64 } }

/-- There is no current segment, or the frame would make it larger than the limit. -/
def mustRotate (s : Archive) (buf : List UInt8) : Bool :=
  s.archiver.currentSegmentWriter.isNone ||
    decide (s.archiver.segmentSizeLimit < s.archiver.currentSegmentBytes + buf.length)

def writeAll (s : Archive) (buf : List UInt8) : Archive :=
  match s.archiver.currentSegmentWriter with
  | none => s
  | some name =>
    { dir := Directory.modify s.dir name (· ++ buf)
      archiver := { s.archiver with currentSegmentBytes := s.archiver.currentSegmentBytes + buf.length } }

def count (s : Archive) (record : WalRecord V) : Archive :=
  let a := s.archiver
  { s with archiver := { a with
      minVersion := if a.minVersion = 0 ∨ record.commitVersion < a.minVersion then record.commitVersion
        else a.minVersion
      maxVersion := if a.maxVersion < record.commitVersion then record.commitVersion else a.maxVersion
      totalRecords := a.totalRecords + 1 } }

/-- `archive_record` on files that can be written. -/
def archiveRecord (s : Archive) (record : WalRecord V) : H2Result Archive :=
  match bc.serialize record with
  | .error e => .error (.serialization e)
  | .ok payload =>
    let buf := WalManager.frame payload
    let s := if s.mustRotate buf then s.rotate else s
    .ok ((s.writeAll buf).count record)

/-- What happens to an archive: a new archiver starts on the directory, or a record is archived. -/
inductive Event (V : Type) where
  | restart (segmentSizeLimit : Nat)
  | archive (record : WalRecord V)

def step (s : Archive) : Event V → Archive
  | .restart segmentSizeLimit => { s with archiver := withSegmentSize s.dir segmentSizeLimit }
  | .archive record =>
    match s.archiveRecord bc record with
    | .ok s => s
    | .error _ => s

def start (segmentSizeLimit : Nat) : Archive := ⟨[], withSegmentSize [] segmentSizeLimit⟩

def Event.record? : Event V → Option (WalRecord V)
  | .restart _ => none
  | .archive record => some record

def archived (events : List (Event V)) : List (WalRecord V) := events.filterMap Event.record?

def newerThan (fromVersion : Nat) (record : WalRecord V) : Bool :=
  decide (fromVersion < record.commitVersion)

/-- The records of one segment up to its first bad frame; the loop is that of `read_all_records`. -/
def readSegment (fromVersion : Nat) (file : List UInt8) : List (WalRecord V) :=
  (WalManager.readLoop bc file 0).1.filter (newerThan fromVersion)

/-- `read_archive_records` on a directory that exists and whose files can be opened. -/
def readArchiveRecords (dir : Directory) (fromVersion : Nat) : List (WalRecord V) :=
  let files := (dir.filter fun p => hasWalExtension p.1).mergeSort fun p q => decide (p.1 ≤ q.1)
  let records := files.flatMap fun p => readSegment bc fromVersion p.2
  records.mergeSort fun a b => decide (a.commitVersion ≤ b.commitVersion)

/-! ## The segments of an archive -/

abbrev Segments (V : Type) := List (String × List (WalRecord V))

def Segments.image (segs : Segments V) : Directory :=
  segs.map fun p => (p.1, WalManager.image bc p.2)

/-- The archive holds the given records, each in one of the segments and there in the order in which
they were archived. -/
structure LaidOut (s : Archive) (segs : Segments V) (records : List (WalRecord V)) : Prop where
  dir : s.dir = Segments.image bc segs
  names : (segs.map Prod.fst).Nodup
  extension : ∀ p ∈ segs, hasWalExtension p.1 = true
  writer : ∀ name ∈ s.archiver.currentSegmentWriter, name ∈ segs.map Prod.fst
  holds : (segs.flatMap Prod.snd).Perm records
  order : ∀ p ∈ segs, p.2.Sublist records

theorem hasWalExtension_segmentFileName (id : Nat) : hasWalExtension (segmentFileName id) = true := by
  have hlist : (segmentFileName id).toList =
      "wal_".toList ++ paddedDigits id ++ ".wal".toList := by
    unfold segmentFileName
    exact String.toList_ofList
  rw [hasWalExtension, hlist, Bool.and_eq_true]
  refine ⟨isSuffixOf_iff_suffix.mpr ⟨_, rfl⟩, ?_⟩
  rw [bne_iff_ne]
  intro h
  -- the name is longer than its extension
  have hlen := congrArg List.length h
  have hwal : 0 < "wal_".toList.length := by decide
  simp only [length_append] at hlen
  omega

theorem map_fst_image (segs : Segments V) :
    (Segments.image bc segs).map Prod.fst = segs.map Prod.fst := by
  rw [Segments.image, map_map]
  rfl

theorem laidOut_start (segmentSizeLimit : Nat) :
    LaidOut bc (start segmentSizeLimit) ([] : Segments V) [] where
  dir := rfl
  names := nodup_nil
  extension := by simp
  writer := by simp [start, withSegmentSize]
  holds := List.Perm.refl _
  order := by simp

variable {bc}

variable {segs : Segments V}

variable {s : Archive} {records : List (WalRecord V)}

theorem LaidOut.restart (h : LaidOut bc s segs records) (segmentSizeLimit : Nat) :
    LaidOut bc { s with archiver := withSegmentSize s.dir segmentSizeLimit } segs records :=
  { h with writer := by simp [withSegmentSize] }

theorem LaidOut.rotate (h : LaidOut bc s segs records) :
    ∃ segs' name, LaidOut bc s.rotate segs' records ∧
      s.rotate.archiver.currentSegmentWriter = some name := by
  set name := segmentFileName s.archiver.currentSegmentId with hname
  have hdirNames : s.dir.map Prod.fst = segs.map Prod.fst := by rw [h.dir, map_fst_image]
  by_cases hmem : name ∈ segs.map Prod.fst
  · have hopen : s.rotate.dir = s.dir := if_pos (hdirNames ▸ hmem)
    refine ⟨segs, name, { h with dir := hopen.trans h.dir, writer := ?_ }, rfl⟩
    intro n hn
    cases hn
    exact hmem
  · have hopen : s.rotate.dir = s.dir ++ [(name, [])] := if_neg (hdirNames ▸ hmem)
    refine ⟨segs ++ [(name, [])], name, ?_, rfl⟩
    refine ⟨?_, ?_, ?_, ?_, ?_, ?_⟩
    · rw [hopen, h.dir, Segments.image, Segments.image, map_append]
      rfl
    · rw [map_append, map_singleton]
      exact h.names.append (nodup_singleton _) (disjoint_singleton.mpr hmem)
    · intro p hp
      rcases mem_append.mp hp with hp | hp
      · exact h.extension p hp
      · rw [mem_singleton.mp hp]
        exact hasWalExtension_segmentFileName _
    · intro n hn
      cases hn
      simp [hname]
    · simpa using h.holds
    · intro p hp
      rcases mem_append.mp hp with hp | hp
      · exact h.order p hp
      · rw [mem_singleton.mp hp]
        exact nil_sublist _

def Segments.append (segs : Segments V) (name : String) (record : WalRecord V) : Segments V :=
  segs.map fun p => if p.1 = name then (p.1, p.2 ++ [record]) else p

theorem map_fst_append (segs : Segments V) (name : String) (record : WalRecord V) :
    (Segments.append segs name record).map Prod.fst = segs.map Prod.fst := by
  rw [Segments.append, map_map]
  refine map_congr_left fun p _ => ?_
  simp only [Function.comp_apply]
  split_ifs <;> rfl

variable {name : String}

theorem flatMap_append (hnodup : (segs.map Prod.fst).Nodup) (hmem : name ∈ segs.map Prod.fst)
    (record : WalRecord V) : ((Segments.append segs name record).flatMap Prod.snd).Perm
      (segs.flatMap Prod.snd ++ [record]) := by
  induction segs with
  | nil => cases hmem
  | cons p segs ih =>
    rw [map_cons, nodup_cons] at hnodup
    rw [Segments.append, map_cons, flatMap_cons, flatMap_cons]
    by_cases hp : p.1 = name
    · -- the other segments have other names
      have hrest : Segments.append segs name record = segs := by
        refine (map_congr_left fun q hq => ?_).trans (map_id _)
        have hne : q.1 ≠ name := by
          rintro rfl
          exact hnodup.1 (hp ▸ mem_map_of_mem hq)
        exact if_neg hne
      rw [Segments.append] at hrest
      rw [if_pos hp, hrest, append_assoc, append_assoc]
      exact List.Perm.append_left _ perm_append_comm
    · have hin : name ∈ segs.map Prod.fst :=
        (mem_cons.mp hmem).resolve_left fun heq => hp heq.symm
      rw [if_neg hp, append_assoc]
      exact List.Perm.append_left _ (ih hnodup.2 hin)

theorem LaidOut.writeAll (h : LaidOut bc s segs records)
    (hwriter : s.archiver.currentSegmentWriter = some name) {record : WalRecord V}
    {payload : List UInt8} (hlog : WalManager.Loggable bc record payload) :
    LaidOut bc ((s.writeAll (WalManager.frame payload)).count record)
      (Segments.append segs name record) (records ++ [record]) := by
  have hmem : name ∈ segs.map Prod.fst := h.writer name hwriter
  have hdir : ((s.writeAll (WalManager.frame payload)).count record).dir =
      Directory.modify s.dir name (· ++ WalManager.frame payload) := by
    simp only [count, Archive.writeAll, hwriter]
  have hwriter' : ((s.writeAll (WalManager.frame payload)).count record).archiver.currentSegmentWriter =
      some name := by
    simp only [count, Archive.writeAll, hwriter]
  have hsublist : ∀ {rs : List (WalRecord V)}, rs.Sublist records → rs.Sublist (records ++ [record]) :=
    fun hrs => hrs.trans (sublist_append_left _ _)
  refine ⟨?_, ?_, ?_, ?_, ?_, ?_⟩
  · rw [hdir, h.dir, Directory.modify, Segments.image, Segments.image, Segments.append, map_map,
      map_map]
    refine map_congr_left fun p _ => ?_
    simp only [Function.comp_apply]
    split_ifs
    · rw [WalManager.image_append, WalManager.image_cons bc hlog, WalManager.image, append_nil]
    · rfl
  · rw [map_fst_append]
    exact h.names
  · intro p hp
    obtain ⟨q, hq, rfl⟩ := mem_map.mp hp
    split_ifs
    · exact h.extension q hq
    · exact h.extension q hq
  · intro n hn
    rw [hwriter'] at hn
    cases hn
    rw [map_fst_append]
    exact hmem
  · exact (flatMap_append h.names hmem record).trans (h.holds.append_right _)
  · intro p hp
    obtain ⟨q, hq, rfl⟩ := mem_map.mp hp
    split_ifs
    · exact (h.order q hq).append (List.Sublist.refl _)
    · exact hsublist (h.order q hq)

theorem LaidOut.archiveRecord (h : LaidOut bc s segs records)
    {record : WalRecord V} {payload : List UInt8} (hlog : WalManager.Loggable bc record payload) :
    ∃ s' segs', s.archiveRecord bc record = .ok s' ∧ LaidOut bc s' segs' (records ++ [record]) := by
  rw [Archive.archiveRecord, hlog.roundTrips.1]
  cases hrot : s.mustRotate (WalManager.frame payload) with
  | true =>
    obtain ⟨segs₁, name, h₁, hwriter⟩ := h.rotate
    exact ⟨_, _, rfl, by simpa only [hrot, if_true] using h₁.writeAll hwriter hlog⟩
  | false =>
    cases hwriter : s.archiver.currentSegmentWriter with
    | none => simp [mustRotate, hwriter] at hrot
    | some name =>
      refine ⟨_, Segments.append segs name record, rfl, ?_⟩
      simpa only [hrot, Bool.false_eq_true, if_false] using h.writeAll hwriter hlog

theorem LaidOut.runs (h : LaidOut bc s segs records)
    {events : List (Event V)} (hlog : ∀ r ∈ archived events, ∃ payload, WalManager.Loggable bc r payload) :
    ∃ segs', LaidOut bc (Reasoning.runs (step bc) s events) segs' (records ++ archived events) := by
  induction events generalizing s segs records with
  | nil => exact ⟨segs, by simpa [archived] using h⟩
  | cons e events ih =>
    cases e with
    | restart limit => exact ih (h.restart limit) hlog
    | archive record =>
      obtain ⟨payload, hpayload⟩ := hlog record mem_cons_self
      obtain ⟨s', segs', hok, h'⟩ := h.archiveRecord hpayload
      obtain ⟨segs'', h''⟩ := ih h' fun r hr => hlog r (mem_cons_of_mem _ hr)
      refine ⟨segs'', ?_⟩
      have hstep : step bc s (.archive record) = s' := by simp only [step, hok]
      rw [runs_cons, hstep]
      simpa [archived, Event.record?, append_assoc] using h''

variable (bc)

/-- The file is what damage has left of a segment: its first `whole` records are intact, and the reader
refuses the frame behind them. -/
def Damaged (seg : List (WalRecord V)) (whole : Nat) (file : List UInt8) : Prop :=
  ∃ rest, file = WalManager.image bc (seg.take whole) ++ rest ∧
    ∀ validEnd, WalManager.readLoop bc rest validEnd = ([], validEnd)

variable {bc}

variable {seg : List (WalRecord V)}

theorem readSegment_damaged
    (hlog : ∀ r ∈ seg, ∃ payload, WalManager.Loggable bc r payload) {whole : Nat} {file : List UInt8}
    (h : Damaged bc seg whole file) (fromVersion : Nat) :
    readSegment bc fromVersion file = (seg.take whole).filter (newerThan fromVersion) := by
  obtain ⟨rest, rfl, hstop⟩ := h
  have htake : ∀ r ∈ seg.take whole, ∃ payload, WalManager.Loggable bc r payload :=
    fun r hr => hlog r (mem_of_mem_take hr)
  have hread := WalManager.readLoop_image bc htake rest 0
  rw [readSegment, hread, hstop, append_nil]

theorem readSegment_image
    (hlog : ∀ r ∈ seg, ∃ payload, WalManager.Loggable bc r payload) (fromVersion : Nat) :
    readSegment bc fromVersion (WalManager.image bc seg) = seg.filter (newerThan fromVersion) := by
  have hwhole : Damaged bc seg seg.length (WalManager.image bc seg) := by
    refine ⟨[], by rw [take_length, append_nil], fun validEnd => ?_⟩
    exact WalManager.readLoop_short bc (by simp) validEnd
  rw [readSegment_damaged hlog hwhole, take_length]

/-! ## What is read of a damaged archive -/

theorem readArchiveRecords_perm {dir : Directory} (hext : ∀ p ∈ dir, hasWalExtension p.1 = true)
    (fromVersion : Nat) :
    (readArchiveRecords bc dir fromVersion).Perm
      (dir.flatMap fun p => readSegment bc fromVersion p.2) := by
  have hall : (dir.filter fun p => hasWalExtension p.1) = dir := filter_eq_self.mpr hext
  rw [readArchiveRecords, hall]
  exact (mergeSort_perm _ _).trans ((mergeSort_perm dir _).flatMap_right _)

theorem flatMap_readSegment_image (hlog : ∀ p ∈ segs, ∀ r ∈ p.2, ∃ payload, WalManager.Loggable bc r payload)
    (fromVersion : Nat) :
    ((Segments.image bc segs).flatMap fun p => readSegment bc fromVersion p.2) =
      (segs.flatMap Prod.snd).filter (newerThan fromVersion) := by
  rw [Segments.image, flatMap_map, filter_flatMap]
  refine flatMap_congr fun p hp => ?_
  exact readSegment_image (hlog p hp) fromVersion

theorem LaidOut.readArchiveRecords_eq
    (h : LaidOut bc s segs records) (hlog : ∀ r ∈ records, ∃ payload, WalManager.Loggable bc r payload)
    (hinc : Increasing WalRecord.commitVersion records) (fromVersion : Nat) :
    readArchiveRecords bc s.dir fromVersion = records.filter (newerThan fromVersion) := by
  have hlogs : ∀ p ∈ segs, ∀ r ∈ p.2, ∃ payload, WalManager.Loggable bc r payload :=
    fun p hp r hr => hlog r ((h.order p hp).subset hr)
  have hext : ∀ p ∈ s.dir, hasWalExtension p.1 = true := by
    intro p hp
    rw [h.dir] at hp
    obtain ⟨q, hq, rfl⟩ := mem_map.mp hp
    exact h.extension q hq
  have hfiles : (s.dir.filter fun p => hasWalExtension p.1) = s.dir := filter_eq_self.mpr hext
  rw [readArchiveRecords, hfiles]
  refine Increasing.mergeSort_eq (hinc.filter _) ?_
  refine ((mergeSort_perm s.dir _).flatMap_right _).trans ?_
  rw [h.dir, flatMap_readSegment_image hlogs]
  exact h.holds.filter _

variable {before after : Segments V}

theorem modify_image_split
    (hnodup : ((before ++ (name, seg) :: after).map Prod.fst).Nodup) (file : List UInt8) :
    Directory.modify (Segments.image bc (before ++ (name, seg) :: after)) name (fun _ => file) =
      Segments.image bc before ++ (name, file) :: Segments.image bc after := by
  rw [map_append, map_cons, nodup_middle, nodup_cons] at hnodup
  have hother : ∀ segs : Segments V, (∀ p ∈ segs, p ∈ before ++ after) →
      Directory.modify (Segments.image bc segs) name (fun _ => file) = Segments.image bc segs := by
    intro segs hsub
    refine (map_congr_left fun q hq => ?_).trans (map_id _)
    obtain ⟨p, hp, rfl⟩ := mem_map.mp hq
    refine if_neg fun heq => hnodup.1 ?_
    rw [← map_append]
    exact mem_map.mpr ⟨p, hsub p hp, heq⟩
  have hbefore := hother before fun p hp => mem_append_left _ hp
  have hafter := hother after fun p hp => mem_append_right _ hp
  rw [Directory.modify] at hbefore hafter
  rw [Directory.modify, Segments.image, map_append, map_append, map_cons, map_cons,
    ← Segments.image, ← Segments.image, hbefore, hafter, if_pos rfl]

/-- The records that can still be read when only the first `whole` records of a segment are left. -/
def survivors (before : Segments V) (seg : List (WalRecord V)) (after : Segments V) (whole : Nat) :
    List (WalRecord V) :=
  before.flatMap Prod.snd ++ seg.take whole ++ after.flatMap Prod.snd

theorem mem_survivors {whole : Nat} {r : WalRecord V} :
    r ∈ survivors before seg after whole ↔
      (∃ p ∈ before ++ after, r ∈ p.2) ∨ r ∈ seg.take whole := by
  simp only [survivors, mem_append, mem_flatMap]
  constructor
  · rintro ((⟨p, hp, hr⟩ | h) | ⟨p, hp, hr⟩)
    · exact .inl ⟨p, Or.inl hp, hr⟩
    · exact .inr h
    · exact .inl ⟨p, Or.inr hp, hr⟩
  · rintro (⟨p, hp | hp, hr⟩ | h)
    · exact .inl (.inl ⟨p, hp, hr⟩)
    · exact .inr ⟨p, hp, hr⟩
    · exact .inl (.inr h)

section Damage

variable {s : Archive} {before after : Segments V} {name : String} {seg records : List (WalRecord V)}
  (h : LaidOut bc s (before ++ (name, seg) :: after) records)
include h

theorem LaidOut.split (whole : Nat) :
    (survivors before seg after whole ++ seg.drop whole).Perm records := by
  have hflat : (before ++ (name, seg) :: after).flatMap Prod.snd =
      before.flatMap Prod.snd ++ (seg.take whole ++ seg.drop whole) ++ after.flatMap Prod.snd := by
    rw [List.flatMap_append, List.flatMap_cons, List.take_append_drop, List.append_assoc]
  refine List.Perm.trans ?_ (hflat ▸ h.holds)
  rw [survivors, List.append_assoc, List.append_assoc, List.append_assoc, List.append_assoc]
  refine List.Perm.append_left _ (List.Perm.append_left _ ?_)
  exact perm_append_comm

theorem LaidOut.readArchiveRecords_damaged
    (hlog : ∀ r ∈ records, ∃ payload, WalManager.Loggable bc r payload) {whole : Nat}
    {file : List UInt8} (hdamage : Damaged bc seg whole file) (fromVersion : Nat) :
    (readArchiveRecords bc (Directory.modify s.dir name fun _ => file) fromVersion).Perm
      ((survivors before seg after whole).filter (newerThan fromVersion)) := by
  have hlogs : ∀ p ∈ before ++ (name, seg) :: after, ∀ r ∈ p.2,
      ∃ payload, WalManager.Loggable bc r payload :=
    fun p hp r hr => hlog r ((h.order p hp).subset hr)
  have hbefore := flatMap_readSegment_image
    (fun p hp => hlogs p (mem_append_left _ hp)) fromVersion
  have hafter := flatMap_readSegment_image
    (fun p hp => hlogs p (mem_append_right _ (mem_cons_of_mem _ hp))) fromVersion
  have hseg := readSegment_damaged
    (hlogs (name, seg) (mem_append_right _ mem_cons_self)) hdamage fromVersion
  rw [h.dir, modify_image_split h.names]
  refine (readArchiveRecords_perm ?_ fromVersion).trans ?_
  · intro p hp
    have hname : p.1 ∈ (before ++ (name, seg) :: after).map Prod.fst := by
      have := mem_map_of_mem (f := Prod.fst) hp
      rwa [map_append, map_cons, map_fst_image, map_fst_image, ← map_cons
        (f := Prod.fst) (a := (name, seg)), ← map_append] at this
    obtain ⟨q, hq, heq⟩ := mem_map.mp hname
    rw [← heq]
    exact h.extension q hq
  · rw [List.flatMap_append, List.flatMap_cons, hbefore, hafter, hseg, survivors, List.filter_append,
      List.filter_append, List.append_assoc]

end Damage

/-- For every run of the archiver over any number of segments and restarts, and whatever damage is done
to one of the segments, the reader returns a prefix of the archived records newer than `fromVersion`
exactly when each such record that the damage has lost is newer than every record of the other
segments. -/
theorem readArchiveRecords_isPrefix_iff (segmentSizeLimit : Nat) (events : List (Event V))
    (hlog : ∀ r ∈ archived events, ∃ payload, WalManager.Loggable bc r payload)
    (hinc : Increasing WalRecord.commitVersion (archived events)) :
    ∃ segs, LaidOut bc (runs (step bc) (start segmentSizeLimit) events) segs (archived events) ∧
      ∀ before name seg after, segs = before ++ (name, seg) :: after →
        ∀ whole file, Damaged bc seg whole file → ∀ fromVersion,
          (readArchiveRecords bc (Directory.modify
              (runs (step bc) (start segmentSizeLimit) events).dir name fun _ => file) fromVersion <+:
            (archived events).filter (newerThan fromVersion) ↔
          ∀ lost ∈ seg.drop whole, fromVersion < lost.commitVersion →
            ∀ other ∈ before ++ after, ∀ r ∈ other.2, r.commitVersion < lost.commitVersion) := by
  obtain ⟨segs, h⟩ := (laidOut_start bc segmentSizeLimit).runs hlog
  rw [nil_append] at h
  refine ⟨segs, h, ?_⟩
  rintro before name seg after rfl whole file hdamage fromVersion
  set result := readArchiveRecords bc (Directory.modify
    (runs (step bc) (start segmentSizeLimit) events).dir name fun _ => file) fromVersion with hresult
  have hperm := h.readArchiveRecords_damaged hlog hdamage fromVersion
  have hsplit := h.split whole
  -- versions differ, so the survivors are neither among the lost nor repeated
  have hne : (survivors before seg after whole ++ seg.drop whole).Pairwise
      fun a b => a.commitVersion ≠ b.commitVersion :=
    (hsplit.pairwise_iff fun hab hba => hab hba.symm).mpr (hinc.imp fun hlt => Nat.ne_of_lt hlt)
  have hmem : ∀ r, r ∈ result ↔ r ∈ survivors before seg after whole ∧ fromVersion < r.commitVersion := by
    intro r
    rw [hperm.mem_iff, mem_filter, newerThan, decide_eq_true_eq]
  have hlost : ∀ r ∈ seg.drop whole, r ∉ result := by
    intro r hr hin
    exact (pairwise_append.mp hne).2.2 r ((hmem r).mp hin).1 r hr rfl
  have hsorted : Increasing WalRecord.commitVersion result := by
    have hdistinct : result.Pairwise fun a b => a.commitVersion ≠ b.commitVersion :=
      (hperm.pairwise_iff fun hab hba => hab hba.symm).mpr ((pairwise_append.mp hne).1.filter _)
    have hle : result.Pairwise fun a b => a.commitVersion ≤ b.commitVersion :=
      pairwise_mergeSort_key _ _
    exact (hle.and hdistinct).imp fun hab => Nat.lt_of_le_of_ne hab.1 hab.2
  have hsub : result ⊆ (archived events).filter (newerThan fromVersion) := by
    intro r hr
    obtain ⟨hsurv, hnew⟩ := (hmem r).mp hr
    exact mem_filter.mpr ⟨hsplit.subset (mem_append_left _ hsurv), decide_eq_true hnew⟩
  rw [hsorted.isPrefix_iff (hinc.filter _) hsub]
  constructor
  · intro hkeep lost hin hnew other hother r hr
    by_cases hold : r.commitVersion ≤ fromVersion
    · exact Nat.lt_of_le_of_lt hold hnew
    · refine hkeep lost ?_ (hlost lost hin) r ?_
      · exact mem_filter.mpr
          ⟨hsplit.subset (mem_append_right _ hin), decide_eq_true hnew⟩
      · exact (hmem r).mpr ⟨mem_survivors.mpr (Or.inl ⟨other, hother, hr⟩), Nat.lt_of_not_le hold⟩
  · intro hcond r hr hnot kept hkept
    obtain ⟨harch, hnew⟩ := mem_filter.mp hr
    have hnew' : fromVersion < r.commitVersion := of_decide_eq_true hnew
    -- a record that is not returned is a lost one
    have hr' : r ∈ seg.drop whole := (mem_append.mp (hsplit.symm.subset harch)).resolve_left
      fun hsurv => hnot ((hmem r).mpr ⟨hsurv, hnew'⟩)
    rcases mem_survivors.mp ((hmem kept).mp hkept).1 with ⟨other, hother, hk⟩ | hk
    · exact hcond r hr' hnew' other hother kept hk
    · -- both in the damaged segment, where the lost records come after those that are whole
      have hseg : Increasing WalRecord.commitVersion seg :=
        hinc.sublist (h.order (name, seg) (mem_append_right _ mem_cons_self))
      rw [Increasing, ← take_append_drop whole seg] at hseg
      exact (pairwise_append.mp hseg).2.2 kept hk r hr'

def putRecord (v : Nat) : WalRecord (List UInt8) :=
  ⟨v, v, [⟨"items", [UInt8.ofNat v], some [7]⟩], 0⟩

theorem loggable_putRecord {v : Nat} (hv : v < 2 ^ 64) :
    WalManager.Loggable (Bincode.ofCoder walRecordCoder) (putRecord v)
      (walRecordCoder.encode (putRecord v)) :=
  WalManager.loggable_onePut hv hv _ _ (by decide)

def twoSegments : List (Event (List UInt8)) :=
  [.archive (putRecord 1), .restart defaultSegmentSizeLimit, .archive (putRecord 2)]

theorem loggable_twoSegments : ∀ r ∈ archived twoSegments,
    ∃ payload, WalManager.Loggable (Bincode.ofCoder walRecordCoder) r payload := by
  intro r hr
  have hmem : r ∈ [putRecord 1, putRecord 2] := hr
  rw [mem_cons, mem_singleton] at hmem
  rcases hmem with rfl | rfl
  · exact ⟨_, loggable_putRecord (by decide)⟩
  · exact ⟨_, loggable_putRecord (by decide)⟩

theorem readArchiveRecords_isPrefix_iff_twoSegments :
    ∃ segs, LaidOut (Bincode.ofCoder walRecordCoder)
        (runs (step (Bincode.ofCoder walRecordCoder)) (start 0) twoSegments) segs
        (archived twoSegments) ∧
      ∀ before name seg after, segs = before ++ (name, seg) :: after →
        ∀ whole file, Damaged (Bincode.ofCoder walRecordCoder) seg whole file → ∀ fromVersion,
          (readArchiveRecords (Bincode.ofCoder walRecordCoder) (Directory.modify
              (runs (step (Bincode.ofCoder walRecordCoder)) (start 0) twoSegments).dir name
              fun _ => file) fromVersion <+: (archived twoSegments).filter (newerThan fromVersion) ↔
          ∀ lost ∈ seg.drop whole, fromVersion < lost.commitVersion →
            ∀ other ∈ before ++ after, ∀ r ∈ other.2, r.commitVersion < lost.commitVersion) :=
  readArchiveRecords_isPrefix_iff 0 twoSegments loggable_twoSegments
    (pairwise_pair.mpr (by decide : (putRecord 1).commitVersion < (putRecord 2).commitVersion))

/-- The first of two segments is cut to nothing: the second record is returned without the first. -/
theorem readArchiveRecords_skips_lost :
    (runs (step (Bincode.ofCoder walRecordCoder)) (start defaultSegmentSizeLimit) twoSegments).dir =
        Segments.image (Bincode.ofCoder walRecordCoder)
          [("wal_0000000000000001.wal", [putRecord 1]), ("wal_0000000000000002.wal", [putRecord 2])] ∧
      Damaged (Bincode.ofCoder walRecordCoder) [putRecord 1] 0 [] ∧
      readArchiveRecords (Bincode.ofCoder walRecordCoder) (Directory.modify
        (runs (step (Bincode.ofCoder walRecordCoder)) (start defaultSegmentSizeLimit) twoSegments).dir
        "wal_0000000000000001.wal" fun _ => []) 0 = [putRecord 2] ∧
      ¬ [putRecord 2] <+: (archived twoSegments).filter (newerThan 0) := by
  have hstop : ∀ validEnd, WalManager.readLoop (Bincode.ofCoder walRecordCoder) [] validEnd =
      ([], validEnd) :=
    fun validEnd => WalManager.readLoop_short _ (by simp) validEnd
  have hdamage : Damaged (Bincode.ofCoder walRecordCoder) [putRecord 1] 0 [] := ⟨[], rfl, hstop⟩
  have hfirst := (loggable_putRecord (show 1 < 2 ^ 64 by decide)).roundTrips.1
  have hsecond := (loggable_putRecord (show 2 < 2 ^ 64 by decide)).roundTrips.1
  have hname₁ : segmentFileName 1 = "wal_0000000000000001.wal" := by decide
  have hname₂ : segmentFileName 2 = "wal_0000000000000002.wal" := by decide
  have hid : segmentId "wal_0000000000000001.wal" = some 1 := by decide
  have hdir : (runs (step (Bincode.ofCoder walRecordCoder)) (start defaultSegmentSizeLimit)
      twoSegments).dir = Segments.image (Bincode.ofCoder walRecordCoder)
        [("wal_0000000000000001.wal", [putRecord 1]), ("wal_0000000000000002.wal", [putRecord 2])] := by
    simp [twoSegments, step, archiveRecord, hfirst, hsecond, mustRotate, start, withSegmentSize, rotate,
      writeAll, count, Directory.openAppend, Directory.modify, maxSegmentId, hname₁, hname₂, hid,
      Segments.image, WalManager.image]
  have hlogged := loggable_putRecord (show 2 < 2 ^ 64 by decide)
  have hread : readSegment (Bincode.ofCoder walRecordCoder) 0
      (WalManager.image (Bincode.ofCoder walRecordCoder) [putRecord 2]) = [putRecord 2] :=
    readSegment_image (by simpa using ⟨_, hlogged⟩) 0
  refine ⟨hdir, hdamage, ?_, by decide⟩
  have hmodify : Directory.modify (Segments.image (Bincode.ofCoder walRecordCoder)
        [("wal_0000000000000001.wal", [putRecord 1]), ("wal_0000000000000002.wal", [putRecord 2])])
        "wal_0000000000000001.wal" (fun _ => []) =
      [("wal_0000000000000001.wal", []), ("wal_0000000000000002.wal",
        WalManager.image (Bincode.ofCoder walRecordCoder) [putRecord 2])] := by
    simp [Directory.modify, Segments.image]
  have hempty : readSegment (Bincode.ofCoder walRecordCoder) 0 [] = [] := by
    rw [readSegment, hstop, filter_nil]
  rw [hdir, hmodify]
  refine perm_singleton.mp ((readArchiveRecords_perm ?_ 0).trans ?_)
  · intro p hp
    rw [mem_cons, mem_singleton] at hp
    rcases hp with rfl | rfl
    · decide
    · decide
  · rw [flatMap_cons, flatMap_cons, flatMap_nil, hempty, hread]
    exact List.Perm.refl _

end Archive

end H2Database.Mvstore
