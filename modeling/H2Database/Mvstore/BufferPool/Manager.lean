import H2Database.Mvstore.BufferPool.SlottedPage
import Mathlib.Data.List.AList

/-!
# The buffer pool (`h2-mvstore/src/buffer_pool/`)

`BufferPoolManager` over a `DiskManager` and a `ClockReplacer`, one call at a time.  Page and frame
numbers are naturals and the page number `u32::MAX` marks a frame that holds no page.  Which disk accesses
of a call fail is given to it (`DiskFaults`); a read also fails behind the end of the file.  After a failed
read the bytes in the frame are not specified, and the model leaves them.
-/

namespace H2Database.Mvstore

open Reasoning

/-- The disk accesses that fail during a call, by page, with the text of the error. -/
structure DiskFaults where
  write : Nat → Option String
  read : Nat → Option String

def DiskFaults.none : DiskFaults := ⟨fun _ => Option.none, fun _ => Option.none⟩

/-! ## The disk -/

structure DiskManager where
  file : Option (List UInt8)
  memoryPages : AList fun _ : Nat => Page8K
  numPages : Nat
  freePages : List Nat

namespace DiskManager

def newInMemory : DiskManager := ⟨none, ∅, 0, []⟩

/-- `DiskManager::open` on a file. -/
def openFile (file : List UInt8) : DiskManager := ⟨some file, ∅, file.length / pageSize % 2 ^ 32, []⟩

def page (d : DiskManager) (pageId : Nat) : Option Page8K :=
  match d.file with
  | some file =>
    if h : (readAt file (pageId * pageSize) pageSize).length = pageSize then
      some ⟨readAt file (pageId * pageSize) pageSize, h⟩
    else none
  | none => some ((d.memoryPages.lookup pageId).getD SlottedPage.zeroed)

def readPage (d : DiskManager) (io : DiskFaults) (pageId : Nat) : Except String Page8K :=
  match io.read pageId, d.page pageId with
  | some e, _ => .error e
  | none, none => .error "failed to fill whole buffer"
  | none, some data => .ok data

def store (d : DiskManager) (pageId : Nat) (buf : Page8K) : DiskManager :=
  { d with
    file := d.file.map fun file => writeAt file (pageId * pageSize) buf.1
    memoryPages := if d.file.isSome then d.memoryPages else d.memoryPages.insert pageId buf
    numPages := if d.numPages ≤ pageId then (pageId + 1) % 2 ^ 32 else d.numPages }

def writePage (d : DiskManager) (io : DiskFaults) (pageId : Nat) (buf : Page8K) :
    Except String DiskManager :=
  match io.write pageId with
  | some e => .error e
  | none => .ok (d.store pageId buf)

/-- The page freed last, else a new one; the list of free pages has its last entry in front. -/
def allocatePage (d : DiskManager) : Nat × DiskManager :=
  match d.freePages with
  | reused :: rest => (reused, { d with freePages := rest })
  | [] => (d.numPages, { d with numPages := (d.numPages + 1) % 2 ^ 32 })

def deallocatePage (d : DiskManager) (pageId : Nat) : DiskManager :=
  if pageId ∈ d.freePages then d else { d with freePages := pageId :: d.freePages }

end DiskManager

structure ClockReplacer where
  clockHand : Nat
  refBits : List Bool
  inReplacer : List Bool
  deriving DecidableEq, Repr

namespace ClockReplacer

def new (numFrames : Nat) : ClockReplacer :=
  ⟨0, List.replicate numFrames false, List.replicate numFrames false⟩

def sweep : Nat → ClockReplacer → Option Nat × ClockReplacer
  | 0, r => (none, r)
  | n + 1, r =>
    let curr := r.clockHand
    let r := { r with clockHand := (curr + 1) % r.inReplacer.length }
    if r.inReplacer.getD curr false then
      if r.refBits.getD curr false then
        -- a second chance
        sweep n { r with refBits := r.refBits.set curr false }
      else (some curr, { r with inReplacer := r.inReplacer.set curr false })
    else sweep n r

def victim (r : ClockReplacer) : Option Nat × ClockReplacer := sweep (r.inReplacer.length * 2) r

def pin (r : ClockReplacer) (frameId : Nat) : ClockReplacer :=
  { r with refBits := r.refBits.set frameId false, inReplacer := r.inReplacer.set frameId false }

def unpin (r : ClockReplacer) (frameId : Nat) : ClockReplacer :=
  { r with refBits := r.refBits.set frameId true, inReplacer := r.inReplacer.set frameId true }

end ClockReplacer

/-! ## The pool -/

/-- `u32::MAX`. -/
def noPage : Nat := 2 ^ 32 - 1

/-- The counter of pins has 32 bits: a count that has been taken below zero has wrapped, so any number but
zero is pinned.  More than `u32::MAX` pins at once are not modelled. -/
structure PageFrame where
  data : Page8K
  pageId : Nat
  pinCount : Int
  isDirty : Bool

def PageFrame.new : PageFrame := ⟨SlottedPage.zeroed, noPage, 0, false⟩

structure BufferPoolManager where
  disk : DiskManager
  replacer : ClockReplacer
  frames : List PageFrame
  pageTable : AList fun _ : Nat => Nat

namespace BufferPoolManager

def new (disk : DiskManager) (poolSize : Nat) : BufferPoolManager where
  disk := disk
  replacer := (List.range poolSize).foldl ClockReplacer.unpin (.new poolSize)
  frames := List.replicate poolSize .new
  pageTable := ∅

def frame (s : BufferPoolManager) (frameId : Nat) : PageFrame := s.frames.getD frameId .new

def setFrame (s : BufferPoolManager) (frameId : Nat) (fr : PageFrame) : BufferPoolManager :=
  { s with frames := s.frames.set frameId fr }

/-- The old page of a victim is written back if it is dirty, and its mapping is removed. -/
def evict (s : BufferPoolManager) (io : DiskFaults) (frameId : Nat) : Except String BufferPoolManager :=
  let fr := s.frame frameId
  if fr.pageId = noPage then .ok s
  else if fr.isDirty then
    match s.disk.writePage io fr.pageId fr.data with
    | .error e => .error e
    | .ok disk => .ok { (s.setFrame frameId { fr with isDirty := false }) with
        disk := disk, pageTable := s.pageTable.erase fr.pageId }
  else .ok { s with pageTable := s.pageTable.erase fr.pageId }

def install (s : BufferPoolManager) (frameId pageId : Nat) (data : Page8K) (isDirty : Bool) :
    BufferPoolManager :=
  { s.setFrame frameId ⟨data, pageId, 1, isDirty⟩ with
    pageTable := s.pageTable.insert pageId frameId
    replacer := s.replacer.pin frameId }

def fetchPage (s : BufferPoolManager) (io : DiskFaults) (pageId : Nat) :
    H2Result Nat × BufferPoolManager :=
  match s.pageTable.lookup pageId with
  | some frameId =>
    let fr := s.frame frameId
    (.ok frameId, { s.setFrame frameId { fr with pinCount := fr.pinCount + 1 } with
      replacer := s.replacer.pin frameId })
  | none =>
    match s.replacer.victim with
    | (none, r) => (.error (.storage
        "All buffer pool frames are currently pinned; out of memory"), { s with replacer := r })
    | (some frameId, r) =>
      let s := { s with replacer := r }
      match s.evict io frameId with
      | .error e => (.error (.storage s!"Disk write error during page flush: {e}"), s)
      | .ok s =>
        match s.disk.readPage io pageId with
        | .error e => (.error (.storage s!"Disk read error during page fetch: {e}"), s)
        | .ok data => (.ok frameId, s.install frameId pageId data false)

def newPage (s : BufferPoolManager) (io : DiskFaults) (pageType : UInt8) :
    H2Result (Nat × Nat) × BufferPoolManager :=
  match s.replacer.victim with
  | (none, r) => (.error (.storage
      "All buffer pool frames are pinned; cannot allocate new page"), { s with replacer := r })
  | (some frameId, r) =>
    let (newPageId, disk) := s.disk.allocatePage
    let s := { s with replacer := r, disk := disk }
    match s.evict io frameId with
    | .error e => (.error (.storage s!"Disk write error: {e}"), s)
    | .ok s =>
      (.ok (newPageId, frameId),
        s.install frameId newPageId (SlottedPage.init newPageId pageType) true)

def unpinPage (s : BufferPoolManager) (pageId : Nat) (isDirty : Bool) :
    H2Result Unit × BufferPoolManager :=
  match s.pageTable.lookup pageId with
  | none => (.error (.storage s!"Page {pageId} not found in buffer pool"), s)
  | some frameId =>
    let fr := s.frame frameId
    let s' := s.setFrame frameId
      { fr with isDirty := fr.isDirty || isDirty, pinCount := fr.pinCount - 1 }
    (.ok (), if fr.pinCount = 1 then { s' with replacer := s'.replacer.unpin frameId } else s')

/-- A dirty frame gets its checksum and is written out under the page number. -/
def flushFrame (s : BufferPoolManager) (io : DiskFaults) (pageId frameId : Nat) :
    Except String Unit × BufferPoolManager :=
  let fr := s.frame frameId
  if fr.isDirty then
    let data := SlottedPage.computeAndWriteChecksum fr.data
    match s.disk.writePage io pageId data with
    | .error e => (.error e, s.setFrame frameId { fr with data := data })
    | .ok disk => (.ok (), { s.setFrame frameId { fr with data := data, isDirty := false } with
        disk := disk })
  else (.ok (), s)

def flushPage (s : BufferPoolManager) (io : DiskFaults) (pageId : Nat) :
    H2Result Unit × BufferPoolManager :=
  match s.pageTable.lookup pageId with
  | none => (.ok (), s)
  | some frameId =>
    match s.flushFrame io pageId frameId with
    | (.error e, s) => (.error (.storage s!"Flush error: {e}"), s)
    | (.ok (), s) => (.ok (), s)

/-- The loop of `flush_all` over the entries of the page table; it ends at the first failed write. -/
def flushEntries (s : BufferPoolManager) (io : DiskFaults) :
    List (Sigma fun _ : Nat => Nat) → H2Result Unit × BufferPoolManager
  | [] => (.ok (), s)
  | e :: entries =>
    match s.flushFrame io e.1 e.2 with
    | (.error msg, s) => (.error (.storage s!"Flush all error: {msg}"), s)
    | (.ok (), s) => s.flushEntries io entries

def flushAll (s : BufferPoolManager) (io : DiskFaults) : H2Result Unit × BufferPoolManager :=
  s.flushEntries io s.pageTable.entries

def rewriteFrame (s : BufferPoolManager) (frameId : Nat) (f : Page8K → Page8K) : BufferPoolManager :=
  let fr := s.frame frameId
  s.setFrame frameId { fr with data := f fr.data, isDirty := true }

def freePage (s : BufferPoolManager) (io : DiskFaults) (pageId : Nat) :
    H2Result Unit × BufferPoolManager :=
  match s.fetchPage io pageId with
  | (.error e, s) => (.error e, s)
  | (.ok frameId, s) =>
    match (s.rewriteFrame frameId SlottedPage.markAsFree).unpinPage pageId true with
    | (.error e, s) => (.error e, s)
    | (.ok (), s) => (.ok (), { s with disk := s.disk.deallocatePage pageId })

def vacuumPage (s : BufferPoolManager) (io : DiskFaults) (pageId : Nat) :
    H2Result Bool × BufferPoolManager :=
  match s.fetchPage io pageId with
  | (.error e, s) => (.error e, s)
  | (.ok frameId, s) =>
    if SlottedPage.isAllDead (s.frame frameId).data then
      match (s.rewriteFrame frameId SlottedPage.markAsFree).unpinPage pageId true with
      | (.error e, s) => (.error e, s)
      | (.ok (), s) => (.ok true, { s with disk := s.disk.deallocatePage pageId })
    else
      match (s.rewriteFrame frameId SlottedPage.defragment).unpinPage pageId true with
      | (.error e, s) => (.error e, s)
      | (.ok (), s) => (.ok false, s)

end BufferPoolManager

end H2Database.Mvstore
