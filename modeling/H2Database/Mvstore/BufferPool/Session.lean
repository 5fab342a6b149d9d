import H2Database.Mvstore.BufferPool.Manager
import H2Database.Reasoning.Run

/-!
# Callers of the buffer pool

A session is a pool with the pins its callers hold and the bytes last written to each page.  A caller
gets a handle from `new_page` or `fetch_page`, changes the frame through it, and gives each handle back
with one `unpin_page`, as dirty if it has changed the page.  `Transparent` is what callers rely on, and
`Unaliased` the condition on a call under which it keeps that.
-/

namespace H2Database.Mvstore

open Reasoning

structure PageHandle where
  pageId : Nat
  frameId : Nat
  modified : Bool
  isOpen : Bool
  deriving DecidableEq, Repr

structure PoolSession where
  pool : BufferPoolManager
  handles : List PageHandle
  written : Nat → Option Page8K

inductive PoolCall where
  | newPage (pageType : UInt8)
  | fetchPage (pageId : Nat)
  | modify (handle : Nat) (f : Page8K → Page8K)
  | unpinPage (handle : Nat) (isDirty : Bool)
  | flushPage (pageId : Nat)
  | flushAll
  | freePage (pageId : Nat)
  | vacuumPage (pageId : Nat)

namespace PoolSession

def start (disk : DiskManager) (poolSize : Nat) : PoolSession :=
  ⟨.new disk poolSize, [], disk.page⟩

/-- A flush writes checksums into frames, under the page numbers of the table. -/
def flushed (s : PoolSession) (pool : BufferPoolManager) : PoolSession :=
  { s with
    pool := pool
    written := fun p =>
      match s.pool.pageTable.lookup p with
      | some f =>
        if (pool.frame f).data = (s.pool.frame f).data then s.written p else some (pool.frame f).data
      | none => s.written p }

def rewritten {α : Type} (s : PoolSession) (pageId : Nat) : H2Result α × BufferPoolManager → PoolSession
  | (.error _, pool) => { s with pool := pool }
  | (.ok _, pool) =>
    { s with
      pool := pool
      written := Function.update s.written pageId
        ((pool.pageTable.lookup pageId).map fun f => (pool.frame f).data) }

def step (s : PoolSession) (c : DiskFaults × PoolCall) : PoolSession :=
  match c.2 with
  | .newPage pageType =>
    match s.pool.newPage c.1 pageType with
    | (.error _, pool) => { s with pool := pool }
    | (.ok (p, f), pool) =>
      ⟨pool, s.handles ++ [⟨p, f, false, true⟩],
        Function.update s.written p (some (pool.frame f).data)⟩
  | .fetchPage p =>
    match s.pool.fetchPage c.1 p with
    | (.error _, pool) => { s with pool := pool }
    | (.ok f, pool) => { s with pool := pool, handles := s.handles ++ [⟨p, f, false, true⟩] }
  | .modify i g =>
    match s.handles[i]? with
    | none => s
    | some h =>
      if h.isOpen then
        let fr := s.pool.frame h.frameId
        ⟨s.pool.setFrame h.frameId { fr with data := g fr.data },
          s.handles.set i { h with modified := true },
          Function.update s.written h.pageId (some (g fr.data))⟩
      else s
  | .unpinPage i isDirty =>
    match s.handles[i]? with
    | none => s
    | some h =>
      if h.isOpen then
        { s with
          pool := (s.pool.unpinPage h.pageId (isDirty || h.modified)).2
          handles := s.handles.set i { h with isOpen := false } }
      else s
  | .flushPage p => s.flushed (s.pool.flushPage c.1 p).2
  | .flushAll => s.flushed (s.pool.flushAll c.1).2
  | .freePage p => s.rewritten p (s.pool.freePage c.1 p)
  | .vacuumPage p => s.rewritten p (s.pool.vacuumPage c.1 p)

/-! ## What callers rely on -/

def Holds (pool : BufferPoolManager) (frameId pageId : Nat) : Prop :=
  frameId < pool.frames.length ∧ (pool.frame frameId).pageId = pageId ∧ pageId ≠ noPage

/-- Each page is held by at most one frame, and the table maps it to that frame. -/
def Consistent (pool : BufferPoolManager) : Prop :=
  ∀ p f, pool.pageTable.lookup p = some f ↔ Holds pool f p

/-- The pool is a transparent cache: the table maps a page to a frame exactly when the frame holds it, a
pinned frame is not chosen as victim, and a page that is fetched comes with the bytes last written to
it. -/
structure Transparent (s : PoolSession) : Prop where
  consistent : Consistent s.pool
  unpinned : ∀ f r, s.pool.replacer.victim = (some f, r) → (s.pool.frame f).pinCount = 0
  fetched : ∀ io p f pool, s.pool.fetchPage io p = (.ok f, pool) →
    ∀ b, s.written p = some b → (pool.frame f).data = b

/-- A fetch that misses and gets as far as the read has a page number, and if the read fails, the victim
has held no page. -/
def FetchUnaliased (pool : BufferPoolManager) (io : DiskFaults) (pageId : Nat) : Prop :=
  pool.pageTable.lookup pageId = none → ∀ f r pool', pool.replacer.victim = (some f, r) →
    BufferPoolManager.evict { pool with replacer := r } io f = .ok pool' →
      match pool'.disk.readPage io pageId with
      | .ok _ => pageId ≠ noPage
      | .error _ => (pool.frame f).pageId = noPage

/-- The page number that `new_page` takes is one, and no frame but the victim still caches it. -/
def NewPageUnaliased (pool : BufferPoolManager) (io : DiskFaults) : Prop :=
  ∀ f r pool', pool.replacer.victim = (some f, r) →
    BufferPoolManager.evict { pool with replacer := r, disk := pool.disk.allocatePage.2 } io f =
      .ok pool' →
    pool.disk.allocatePage.1 ≠ noPage ∧
      ∀ g, pool.pageTable.lookup pool.disk.allocatePage.1 = some g → g = f

def Unaliased (s : PoolSession) (c : DiskFaults × PoolCall) : Prop :=
  match c.2 with
  | .newPage _ => NewPageUnaliased s.pool c.1
  | .fetchPage p => FetchUnaliased s.pool c.1 p
  | .freePage p => FetchUnaliased s.pool c.1 p
  | .vacuumPage p => FetchUnaliased s.pool c.1 p
  | _ => True

end PoolSession

end H2Database.Mvstore
