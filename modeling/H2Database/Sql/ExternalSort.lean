import H2Database.Reasoning.Merging
import H2Database.Sql.Careful
import Mathlib.Data.List.Perm.Basic

/-!
# External sort (`h2-sql/src/memory/external_sort.rs`)

Rows are collected until they take as much room as `work_mem`; then they are sorted and written to a file,
a run.  At the end the runs are merged with a heap whose entries compare by their rows alone: of several
greatest entries `BinaryHeap::pop` may give any one, here the one that `ties` says.
-/

namespace H2Database.Sql

open Reasoning List Nat

def frame (row : Row) : List UInt8 := beBytes 4 row.toBytes.length ++ row.toBytes

structure TempRun where
  unread : List UInt8

structure MergeEntry where
  row : Row
  runIndex : Nat

namespace TempRun

def createFromRows (rows : List Row) : TempRun := ⟨rows.flatMap frame⟩

def nextRow [Crates] (run : TempRun) : H2Result (Option Row × TempRun) :=
  -- fewer than four bytes are the end of the file
  if run.unread.length < 4 then .ok (none, ⟨[]⟩)
  else
    let len := fromBe (run.unread.take 4)
    let rest := run.unread.drop 4
    if rest.length < len then .error (.storage "failed to fill whole buffer")
    else (Row.fromBytes (rest.take len)).map fun row => (some row, ⟨rest.drop len⟩)

end TempRun

def MergeEntry.cmp (compareFn : Row → Row → Ordering) (a b : MergeEntry) : Ordering := compareFn b.row a.row

def greatest (compareFn : Row → Row → Ordering) (heap : List MergeEntry) : List Nat :=
  (List.range heap.length).filter fun i =>
    heap[i]?.any fun e => heap.all fun e' => (e'.cmp compareFn e).isLE

/-- `BinaryHeap::pop`: one of the greatest entries, and the others. -/
def popGreatest (compareFn : Row → Row → Ordering) (tie : Nat) (heap : List MergeEntry) :
    Option (MergeEntry × List MergeEntry) :=
  let places := greatest compareFn heap
  places[tie % places.length]?.bind fun i => heap[i]?.map fun e => (e, heap.eraseIdx i)

def Value.approxBytes : Value → Nat
  | .string s => (utf8 s).length + 16
  | .bytes b => b.length + 16
  | .json j => j.text.length + 16
  | _ => 16

def approxRowBytes (row : Row) : Nat := (row.map Value.approxBytes).sum + 24

structure ExternalSorter where
  workMem : Nat
  buffer : List Row
  currentBufferBytes : Nat
  spilledRuns : List TempRun
  totalRows : Nat

namespace ExternalSorter

def new (workMem : Nat) : ExternalSorter := ⟨workMem, [], 0, [], 0⟩

variable (compareFn : Row → Row → Ordering)

def spillBuffer (s : ExternalSorter) : ExternalSorter :=
  if s.buffer.isEmpty then s
  else { s with
    buffer := []
    currentBufferBytes := 0
    spilledRuns := s.spilledRuns ++ [.createFromRows (stableSort compareFn s.buffer)] }

def addRow (s : ExternalSorter) (row : Row) : ExternalSorter :=
  let added := { s with
    buffer := s.buffer ++ [row]
    currentBufferBytes := s.currentBufferBytes + approxRowBytes row
    totalRows := s.totalRows + 1 }
  if s.workMem ≤ added.currentBufferBytes then added.spillBuffer compareFn else added

section

variable [Crates]

/-- The first row of each run, from the run with this number on, and the runs behind these rows. -/
def loadFirst : Nat → List TempRun → H2Result (List TempRun × List MergeEntry)
  | _, [] => .ok ([], [])
  | n, run :: runs => do
    let (first, run) ← run.nextRow
    let (runs, heap) ← loadFirst (n + 1) runs
    .ok (run :: runs, (first.map fun row => ⟨row, n⟩).toList ++ heap)

/-- The loop of `finish`; it is left when the heap is empty. -/
def mergeRuns : Nat → (Nat → Nat) → List TempRun → List MergeEntry → Option (H2Result (List Row))
  | 0, _, _, _ => none
  | fuel + 1, ties, runs, heap =>
    match popGreatest compareFn (ties 0) heap with
    | none => some (.ok [])
    | some (smallest, heap) =>
      match (runs[smallest.runIndex]?.getD ⟨[]⟩).nextRow with
      | .error e => some (.error e)
      | .ok (next, run) =>
        let heap := heap ++ (next.map fun row => ⟨row, smallest.runIndex⟩).toList
        (mergeRuns fuel (fun n => ties (n + 1)) (runs.set smallest.runIndex run) heap).map fun result =>
          result.map (smallest.row :: ·)

/-- `none` would be a merge that goes on for longer than there are rows. -/
def finish (ties : Nat → Nat) (s : ExternalSorter) : Option (H2Result (List Row)) :=
  if s.spilledRuns.isEmpty then some (.ok (stableSort compareFn s.buffer))
  else match loadFirst 0 (s.spillBuffer compareFn).spilledRuns with
    | .error e => some (.error e)
    | .ok (runs, heap) => mergeRuns compareFn (s.totalRows + 1) ties runs heap

end

def sort [Crates] (workMem : Nat) (ties : Nat → Nat) (rows : List Row) : Option (H2Result (List Row)) :=
  (rows.foldl (addRow compareFn) (new workMem)).finish compareFn ties

end ExternalSorter

/-- The rows as they are cut into runs, with what is in the buffer and its size. -/
def cuts (workMem : Nat) : List Row → Nat → List Row → List (List Row)
  | buffer, _, [] => if buffer.isEmpty then [] else [buffer]
  | buffer, size, row :: rows =>
    if workMem ≤ size + approxRowBytes row then (buffer ++ [row]) :: cuts workMem [] 0 rows
    else cuts workMem (buffer ++ [row]) (size + approxRowBytes row) rows

/-! ## The heap -/

section Heap

variable {compareFn : Row → Row → Ordering} {heap rest : List MergeEntry} {e : MergeEntry} {tie : Nat}

theorem mem_greatest {i : Nat} : i ∈ greatest compareFn heap ↔
    ∃ e, heap[i]? = some e ∧ ∀ e' ∈ heap, (compareFn e.row e'.row).isLE = true := by
  rw [greatest, mem_filter, mem_range, Option.any_eq_true]
  constructor
  · intro h
    obtain ⟨e, he, hall⟩ := h.2
    exact ⟨e, he, all_eq_true.mp hall⟩
  · intro h
    obtain ⟨e, he, hall⟩ := h
    exact ⟨(List.getElem?_eq_some_iff.mp he).1, e, he, all_eq_true.mpr hall⟩

theorem perm_of_popGreatest (h : popGreatest compareFn tie heap = some (e, rest)) :
    heap.Perm (e :: rest) ∧ ∀ e' ∈ heap, (compareFn e.row e'.row).isLE = true := by
  obtain ⟨i, hi, hmap⟩ := Option.bind_eq_some_iff.mp h
  obtain ⟨e', he', heq⟩ := Option.map_eq_some_iff.mp hmap
  cases heq
  obtain ⟨e'', he'', hleast⟩ := mem_greatest.mp (mem_of_getElem? hi)
  rw [he'] at he''
  cases he''
  obtain ⟨hlt, hget⟩ := List.getElem?_eq_some_iff.mp he'
  refine ⟨?_, hleast⟩
  rw [← hget]
  exact (getElem_cons_eraseIdx_perm hlt).symm

theorem exists_popGreatest (he : e ∈ heap) (hleast : ∀ e' ∈ heap, (compareFn e.row e'.row).isLE = true) :
    ∃ tie rest, popGreatest compareFn tie heap = some (e, rest) := by
  obtain ⟨i, hi⟩ := mem_iff_getElem?.mp he
  obtain ⟨tie, htie⟩ := mem_iff_getElem?.mp (mem_greatest.mpr ⟨e, hi, hleast⟩)
  refine ⟨tie, heap.eraseIdx i, ?_⟩
  rw [popGreatest, mod_eq_of_lt (List.getElem?_eq_some_iff.mp htie).1, htie, Option.bind_some, hi]
  rfl

theorem popGreatest_eq_none [Std.TransCmp compareFn] (h : popGreatest compareFn tie heap = none) :
    heap = [] := by
  by_contra hne
  have hrows : heap.map MergeEntry.row ≠ [] := fun hnil => hne (map_eq_nil_iff.mp hnil)
  obtain ⟨row, hrow, hleast⟩ := exists_least compareFn hrows
  obtain ⟨e, he, heq⟩ := mem_map.mp hrow
  obtain ⟨i, hi⟩ := mem_iff_getElem?.mp he
  have hin : i ∈ greatest compareFn heap :=
    mem_greatest.mpr ⟨e, hi, fun e' he' => heq ▸ hleast _ (mem_map_of_mem he')⟩
  have hlt : tie % (greatest compareFn heap).length < (greatest compareFn heap).length :=
    mod_lt _ (length_pos_of_mem hin)
  obtain ⟨e', he', _⟩ := mem_greatest.mp (getElem_mem hlt)
  rw [popGreatest, getElem?_eq_getElem hlt, Option.bind_some, he'] at h
  cases h

end Heap

/-! ## The runs -/

/-- The entries of the heads of the runs, of which the first has this number. -/
def heads : Nat → List (List Row) → List MergeEntry
  | _, [] => []
  | n, run :: runs => (run.head?.map fun row => ⟨row, n⟩).toList ++ heads (n + 1) runs

section Heads

variable {runs : List (List Row)} {e : MergeEntry} {row : Row} {rest : List Row} {i n : Nat}

theorem mem_heads : e ∈ heads n runs ↔ ∃ (i : Nat) (rest : List Row), e.runIndex = n + i ∧
    runs[i]? = some (e.row :: rest) := by
  induction runs generalizing n with
  | nil => simp [heads]
  | cons run runs ih =>
    rw [heads, mem_append, ih]
    constructor
    · intro h
      rcases h with h | h
      · rw [Option.mem_toList, Option.map_eq_some_iff] at h
        obtain ⟨row, hrow, heq⟩ := h
        cases run with
        | nil => cases hrow
        | cons head rest =>
          cases hrow
          rw [← heq]
          exact ⟨0, rest, rfl, rfl⟩
      · obtain ⟨i, rest, hindex, hrun⟩ := h
        exact ⟨i + 1, rest, by omega, hrun⟩
    · intro h
      obtain ⟨i, rest, hindex, hrun⟩ := h
      cases i with
      | zero =>
        left
        cases hrun
        rw [Option.mem_toList]
        exact congrArg (fun k => some (MergeEntry.mk e.row k)) hindex.symm
      | succ i => exact .inr ⟨i, rest, by omega, hrun⟩

theorem heads_set (hi : runs[i]? = some (row :: rest)) : ∃ others,
    (heads n runs).Perm (⟨row, n + i⟩ :: others) ∧ (heads n (runs.set i rest)).Perm
      ((rest.head?.map fun next => MergeEntry.mk next (n + i)).toList ++ others) := by
  induction runs generalizing n i with
  | nil => cases hi
  | cons run runs ih =>
    cases i with
    | zero =>
      cases hi
      exact ⟨heads (n + 1) runs, List.Perm.refl _, List.Perm.refl _⟩
    | succ i =>
      obtain ⟨others, hbefore, hafter⟩ := ih (n := n + 1) hi
      have hindex : n + 1 + i = n + (i + 1) := by omega
      rw [hindex] at hbefore hafter
      refine ⟨(run.head?.map fun row => MergeEntry.mk row n).toList ++ others, ?_, ?_⟩
      · exact (hbefore.append_left _).trans perm_middle
      · rw [set_cons_succ, heads]
        apply (hafter.append_left _).trans
        rw [← append_assoc, ← append_assoc]
        exact perm_append_comm.append_right _

end Heads

/-! ## The merge -/

section Merge

variable [Crates] {compareFn : Row → Row → Ordering}

/-- A row that is read from a run as it was written: its bytes give it back, and their number fits into
four bytes. -/
structure ReadsFromRun (row : Row) : Prop where
  bytes : Row.fromBytes row.toBytes = .ok row
  length : row.toBytes.length < 2 ^ 32

theorem nextRow_frames {rows : List Row} (h : ∀ row ∈ rows, ReadsFromRun row) :
    (TempRun.mk (rows.flatMap frame)).nextRow = .ok (rows.head?, ⟨rows.tail.flatMap frame⟩) := by
  cases rows with
  | nil => rfl
  | cons row rows =>
    obtain ⟨hbytes, hlength⟩ := h row mem_cons_self
    have hunread : (row :: rows).flatMap frame =
        beBytes 4 row.toBytes.length ++ (row.toBytes ++ rows.flatMap frame) := by
      rw [flatMap_cons, frame, append_assoc]
    have hwidth : (beBytes 4 row.toBytes.length).length = 4 := length_beBytes 4 _
    unfold TempRun.nextRow
    dsimp only
    rw [hunread, if_neg (by rw [length_append, hwidth]; omega), take_left' hwidth,
      drop_left' hwidth, fromBe_beBytes_of_lt hlength,
      if_neg (by rw [length_append]; omega), take_left, drop_left, hbytes]
    rfl

def behind (runs : List (List Row)) : List TempRun := runs.map fun run => ⟨run.tail.flatMap frame⟩

omit [Crates] in
theorem behind_set (runs : List (List Row)) (i : Nat) (rest : List Row) :
    behind (runs.set i rest) = (behind runs).set i ⟨rest.tail.flatMap frame⟩ := map_set

theorem loadFirst_eq {runs : List (List Row)} (h : ∀ run ∈ runs, ∀ row ∈ run, ReadsFromRun row) (n : Nat) :
    ExternalSorter.loadFirst n (runs.map TempRun.createFromRows) = .ok (behind runs, heads n runs) := by
  induction runs generalizing n with
  | nil => rfl
  | cons run runs ih =>
    rw [map_cons, ExternalSorter.loadFirst, TempRun.createFromRows,
      nextRow_frames (h run mem_cons_self),
      ih (fun run' hrun' => h run' (mem_cons_of_mem _ hrun'))]
    rfl

variable {runs : List (List Row)} {heap : List MergeEntry}

theorem pop_step (hread : ∀ run ∈ runs, ∀ row ∈ run, ReadsFromRun row) (hheap : heap.Perm (heads 0 runs))
    {tie : Nat} {e : MergeEntry} {left : List MergeEntry}
    (hpop : popGreatest compareFn tie heap = some (e, left)) : ∃ rest,
      runs[e.runIndex]? = some (e.row :: rest) ∧
      (∀ run ∈ runs, ∀ b ∈ run.head?, (compareFn e.row b).isLE = true) ∧
      ((behind runs)[e.runIndex]?.getD ⟨[]⟩).nextRow = .ok (rest.head?, ⟨rest.tail.flatMap frame⟩) ∧
      (left ++ (rest.head?.map fun row => MergeEntry.mk row e.runIndex).toList).Perm
        (heads 0 (runs.set e.runIndex rest)) := by
  obtain ⟨hperm, hleast⟩ := perm_of_popGreatest hpop
  have hin : e ∈ heads 0 runs := hheap.subset (hperm.symm.subset mem_cons_self)
  obtain ⟨i, rest, hindex, hrun⟩ := mem_heads.mp hin
  rw [zero_add] at hindex
  rw [hindex]
  refine ⟨rest, hrun, ?_, ?_, ?_⟩
  · intro run hrun' b hb
    obtain ⟨j, hj⟩ := mem_iff_getElem?.mp hrun'
    have hentry : MergeEntry.mk b j ∈ heads 0 runs := by
      rw [mem_heads]
      cases run with
      | nil => cases hb
      | cons head tail =>
        cases hb
        exact ⟨j, tail, (zero_add j).symm, hj⟩
    exact hleast _ (hheap.symm.subset hentry)
  · rw [behind, getElem?_map, hrun]
    apply nextRow_frames
    intro row hrow
    exact hread _ (mem_of_getElem? hrun) row (mem_cons_of_mem _ hrow)
  · obtain ⟨others, hbefore, hafter⟩ := heads_set (n := 0) hrun
    rw [zero_add] at hbefore hafter
    have he : e = ⟨e.row, i⟩ := congrArg (MergeEntry.mk e.row) hindex
    have hleft : left.Perm others := by
      have hcons := (hperm.symm.trans hheap).trans hbefore
      rw [← he] at hcons
      exact hcons.cons_inv
    exact (perm_append_comm.trans (hleft.append_left _)).trans hafter.symm

theorem reads_set (hread : ∀ run ∈ runs, ∀ row ∈ run, ReadsFromRun row) {i : Nat} {row : Row}
    {rest : List Row} (hi : runs[i]? = some (row :: rest)) :
    ∀ run ∈ runs.set i rest, ∀ row ∈ run, ReadsFromRun row := by
  intro run hrun row' hrow'
  obtain ⟨run', hrun', hsub⟩ := mem_set_rest hi hrun
  exact hread run' hrun' row' (hsub hrow')

theorem mergeRuns_merges [Std.TransCmp compareFn] (fuel : Nat) (ties : Nat → Nat)
    {runs : List (List Row)} {heap : List MergeEntry}
    (hread : ∀ run ∈ runs, ∀ row ∈ run, ReadsFromRun row) (hheap : heap.Perm (heads 0 runs))
    (hfuel : runs.flatten.length < fuel) : ∃ out,
      ExternalSorter.mergeRuns compareFn fuel ties (behind runs) heap = some (.ok out) ∧
        Merges compareFn runs out := by
  induction fuel generalizing ties runs heap with
  | zero => omega
  | succ fuel ih =>
    rw [ExternalSorter.mergeRuns]
    cases hpop : popGreatest compareFn (ties 0) heap with
    | none =>
      refine ⟨[], rfl, .done fun run hrun => ?_⟩
      rw [popGreatest_eq_none hpop] at hheap
      cases run with
      | nil => rfl
      | cons row rest =>
        obtain ⟨i, hi⟩ := mem_iff_getElem?.mp hrun
        have hin : MergeEntry.mk row i ∈ heads 0 runs := mem_heads.mpr ⟨i, rest, (zero_add i).symm, hi⟩
        exact absurd (hheap.symm.subset hin) not_mem_nil
    | some popped =>
      obtain ⟨e, left⟩ := popped
      obtain ⟨rest, hrun, hleast, hnext, hheap'⟩ := pop_step hread hheap hpop
      have hlength := (flatten_perm hrun).length_eq
      rw [length_cons] at hlength
      obtain ⟨out, hout, hmerges⟩ := ih (fun n => ties (n + 1)) (reads_set hread hrun) hheap' (by omega)
      refine ⟨e.row :: out, ?_, .next hrun hleast hmerges⟩
      dsimp only
      rw [hnext]
      dsimp only
      rw [← behind_set, hout]
      rfl

theorem exists_ties [Std.TransCmp compareFn] {out : List Row} (h : Merges compareFn runs out)
    (hread : ∀ run ∈ runs, ∀ row ∈ run, ReadsFromRun row) (hheap : heap.Perm (heads 0 runs)) {fuel : Nat}
    (hfuel : runs.flatten.length < fuel) : ∃ ties,
      ExternalSorter.mergeRuns compareFn fuel ties (behind runs) heap = some (.ok out) := by
  induction h generalizing heap fuel with
  | @done runs hempty =>
    have hheads : heads 0 runs = [] := by
      rw [eq_nil_iff_forall_not_mem]
      intro e he
      obtain ⟨i, rest, _, hi⟩ := mem_heads.mp he
      cases hempty _ (mem_of_getElem? hi)
    rw [hheads] at hheap
    cases fuel with
    | zero => omega
    | succ fuel =>
      refine ⟨fun _ => 0, ?_⟩
      rw [List.Perm.eq_nil hheap]
      rfl
  | @next runs i a rest out hi hleast h ih =>
    cases fuel with
    | zero => omega
    | succ fuel =>
      have hin : MergeEntry.mk a i ∈ heap :=
        hheap.symm.subset (mem_heads.mpr ⟨i, rest, (zero_add i).symm, hi⟩)
      have hgreatest : ∀ e' ∈ heap, (compareFn a e'.row).isLE = true := by
        intro e' he'
        obtain ⟨j, tail, _, hj⟩ := mem_heads.mp (hheap.subset he')
        exact hleast _ (mem_of_getElem? hj) _ rfl
      obtain ⟨tie, left, hpop⟩ := exists_popGreatest hin hgreatest
      obtain ⟨rest', hrun, _, hnext, hheap'⟩ := pop_step hread hheap hpop
      dsimp only at hrun hnext hheap'
      rw [hi] at hrun
      cases hrun
      have hlength := (flatten_perm hi).length_eq
      rw [length_cons] at hlength
      have hlt : (runs.set i rest).flatten.length < fuel := by omega
      obtain ⟨ties, hties⟩ := ih (reads_set hread hi) hheap' hlt
      refine ⟨fun n => if n = 0 then tie else ties (n - 1), ?_⟩
      rw [ExternalSorter.mergeRuns, if_pos rfl, hpop]
      dsimp only
      rw [hnext]
      dsimp only
      rw [← behind_set]
      have hshift : (fun n => if n + 1 = 0 then tie else ties (n + 1 - 1)) = ties := by
        funext n
        rw [if_neg (Nat.succ_ne_zero n), Nat.add_sub_cancel]
      rw [hshift, hties]
      rfl

end Merge

/-! ## The runs of a sorter -/

namespace ExternalSorter

variable {compareFn : Row → Row → Ordering}

theorem spilledRuns_spillBuffer (s : ExternalSorter) : (s.spillBuffer compareFn).spilledRuns =
    s.spilledRuns ++ ((if s.buffer.isEmpty then [] else [s.buffer]).map (stableSort compareFn)).map
      TempRun.createFromRows := by
  unfold spillBuffer
  split_ifs
  · rw [map_nil, map_nil, append_nil]
  · rfl

theorem runs_foldl (rows : List Row) (s : ExternalSorter) :
    ((rows.foldl (addRow compareFn) s).spillBuffer compareFn).spilledRuns = s.spilledRuns ++
      ((cuts s.workMem s.buffer s.currentBufferBytes rows).map (stableSort compareFn)).map
        TempRun.createFromRows := by
  induction rows generalizing s with
  | nil => exact spilledRuns_spillBuffer s
  | cons row rows ih =>
    rw [foldl_cons, ih, cuts, addRow]
    dsimp only
    split_ifs
    · have hne : ¬(s.buffer ++ [row]).isEmpty = true := by simp
      rw [spillBuffer, if_neg hne]
      simp
    · rfl

theorem totalRows_foldl (rows : List Row) (s : ExternalSorter) :
    (rows.foldl (addRow compareFn) s).totalRows = s.totalRows + rows.length := by
  induction rows generalizing s with
  | nil => rfl
  | cons row rows ih =>
    have hadd : (s.addRow compareFn row).totalRows = s.totalRows + 1 := by
      unfold addRow spillBuffer
      dsimp only
      split_ifs <;> rfl
    rw [foldl_cons, ih, hadd, length_cons]
    omega

theorem buffer_foldl (rows : List Row) (s : ExternalSorter)
    (h : (rows.foldl (addRow compareFn) s).spilledRuns = []) :
    (rows.foldl (addRow compareFn) s).buffer = s.buffer ++ rows ∧ s.spilledRuns = [] := by
  induction rows generalizing s with
  | nil => exact ⟨(append_nil _).symm, h⟩
  | cons row rows ih =>
    obtain ⟨hbuffer, hspilled⟩ := ih (s.addRow compareFn row) h
    rw [foldl_cons, hbuffer]
    unfold addRow spillBuffer at hspilled ⊢
    dsimp only at hspilled ⊢
    split_ifs at hspilled ⊢ with _ hempty
    · simp at hempty
    · simp at hspilled
    · exact ⟨by simp, hspilled⟩

end ExternalSorter

theorem flatten_cuts (workMem : Nat) (rows buffer : List Row) (size : Nat) :
    (cuts workMem buffer size rows).flatten = buffer ++ rows := by
  induction rows generalizing buffer size with
  | nil =>
    rw [cuts, append_nil]
    split_ifs with hempty
    · exact (isEmpty_iff.mp hempty).symm
    · exact append_nil _
  | cons row rows ih =>
    rw [cuts]
    split_ifs
    · rw [flatten_cons, ih, nil_append, append_assoc]
      rfl
    · rw [ih, append_assoc]
      rfl

theorem settled_of_length_le_one {α : Type} {cmp : α → α → Ordering} {runs : List (List α)}
    (h : runs.length ≤ 1) : Settled cmp runs := by
  intro i j run run' hij hi hj
  have hlti := (List.getElem?_eq_some_iff.mp hi).1
  have hltj := (List.getElem?_eq_some_iff.mp hj).1
  omega

/-! ## The sort -/

theorem length_flatten_runs (compareFn : Row → Row → Ordering) (workMem : Nat) (rows : List Row) :
    ((cuts workMem [] 0 rows).map (stableSort compareFn)).flatten.length < rows.length + 1 := by
  have hlength : (((cuts workMem [] 0 rows).map (stableSort compareFn)).map List.length) =
      (cuts workMem [] 0 rows).map List.length := by
    rw [map_map]
    exact map_congr_left fun cut _ => (stableSort_perm cut).length_eq
  rw [length_flatten, hlength, ← length_flatten, flatten_cuts]
  exact lt_succ_self _

section Sorted

variable [Crates] {compareFn : Row → Row → Ordering} {rows : List Row}

omit [Crates] in
theorem length_lastRun (buffer : List Row) : (if buffer.isEmpty then [] else [buffer]).length ≤ 1 := by
  cases buffer <;> simp

omit [Crates] in
theorem length_cuts {workMem : Nat}
    (h : (rows.foldl (ExternalSorter.addRow compareFn) (.new workMem)).spilledRuns = []) :
    (cuts workMem [] 0 rows).length ≤ 1 := by
  have hruns := @ExternalSorter.runs_foldl compareFn rows (.new workMem)
  rw [ExternalSorter.spilledRuns_spillBuffer, h] at hruns
  have hlength := congrArg List.length hruns
  simp only [ExternalSorter.new, nil_append, length_map] at hlength
  rw [← hlength]
  exact length_lastRun _

theorem reads_cuts {workMem : Nat} (hread : ∀ row ∈ rows, ReadsFromRun row) :
    ∀ run ∈ (cuts workMem [] 0 rows).map (stableSort compareFn), ∀ row ∈ run, ReadsFromRun row := by
  intro run hrun row hrow
  obtain ⟨cut, hcut, heq⟩ := mem_map.mp hrun
  rw [← heq] at hrow
  apply hread
  rw [← nil_append rows, ← flatten_cuts workMem rows [] 0]
  exact mem_flatten.mpr ⟨cut, hcut, (stableSort_perm cut).subset hrow⟩

theorem sort_of_spilled {workMem : Nat} {ties : Nat → Nat}
    (hread : ∀ row ∈ rows, ReadsFromRun row)
    (h : (rows.foldl (ExternalSorter.addRow compareFn) (.new workMem)).spilledRuns ≠ []) :
    ExternalSorter.sort compareFn workMem ties rows =
      ExternalSorter.mergeRuns compareFn (rows.length + 1) ties
        (behind ((cuts workMem [] 0 rows).map (stableSort compareFn)))
        (heads 0 ((cuts workMem [] 0 rows).map (stableSort compareFn))) := by
  have hruns := @ExternalSorter.runs_foldl compareFn rows (.new workMem)
  have htotal := @ExternalSorter.totalRows_foldl compareFn rows (.new workMem)
  have hcuts := @reads_cuts _ compareFn _ workMem hread
  have hempty : ¬(rows.foldl (ExternalSorter.addRow compareFn) (.new workMem)).spilledRuns.isEmpty = true :=
    fun hnil => h (isEmpty_iff.mp hnil)
  rw [ExternalSorter.sort, ExternalSorter.finish, if_neg hempty, hruns, htotal]
  dsimp only [ExternalSorter.new]
  rw [nil_append, loadFirst_eq hcuts, zero_add]

theorem sort_of_not_spilled {workMem : Nat} {ties : Nat → Nat}
    (h : (rows.foldl (ExternalSorter.addRow compareFn) (.new workMem)).spilledRuns = []) :
    ExternalSorter.sort compareFn workMem ties rows = some (.ok (stableSort compareFn rows)) := by
  have hbuffer := (ExternalSorter.buffer_foldl rows (.new workMem) h).1
  rw [ExternalSorter.sort, ExternalSorter.finish, h, hbuffer]
  rfl

/-- The sort gives the stable sort of the rows, whatever tie is broken how, exactly if rows that are in
different cuts and compare equal are equal. -/
theorem sort_eq_stableSort_iff [Std.TransCmp compareFn] (workMem : Nat)
    (hread : ∀ row ∈ rows, ReadsFromRun row) :
    (∀ ties, ExternalSorter.sort compareFn workMem ties rows = some (.ok (stableSort compareFn rows))) ↔
      Settled compareFn (cuts workMem [] 0 rows) := by
  by_cases h : (rows.foldl (ExternalSorter.addRow compareFn) (.new workMem)).spilledRuns = []
  · exact iff_of_true (fun ties => sort_of_not_spilled h) (settled_of_length_le_one (length_cuts h))
  · have hcuts := @reads_cuts _ compareFn _ workMem hread
    rw [← merges_stableSort_iff, flatten_cuts, nil_append]
    constructor
    · intro hall out hout
      obtain ⟨ties, hties⟩ := exists_ties hout hcuts (List.Perm.refl _)
        (length_flatten_runs compareFn workMem rows)
      have hsort := hall ties
      rw [sort_of_spilled hread h, hties] at hsort
      exact Except.ok.inj (Option.some.inj hsort)
    · intro hall ties
      obtain ⟨out, hout, hmerges⟩ := @mergeRuns_merges _ compareFn _ _ ties _ _ hcuts (List.Perm.refl _)
        (length_flatten_runs compareFn workMem rows)
      rw [sort_of_spilled hread h, hout, hall out hmerges]

/-- However little memory there is and whatever tie is broken how, the rows come back, all and in order. -/
theorem sort_ordered [Std.TransCmp compareFn] (workMem : Nat) (ties : Nat → Nat)
    (hread : ∀ row ∈ rows, ReadsFromRun row) : ∃ out,
      ExternalSorter.sort compareFn workMem ties rows = some (.ok out) ∧ out.Perm rows ∧
        Ordered compareFn out := by
  by_cases h : (rows.foldl (ExternalSorter.addRow compareFn) (.new workMem)).spilledRuns = []
  · exact ⟨_, sort_of_not_spilled h, stableSort_perm rows, ordered_stableSort rows⟩
  · have hcuts := @reads_cuts _ compareFn _ workMem hread
    obtain ⟨out, hout, hmerges⟩ := @mergeRuns_merges _ compareFn _ _ ties _ _ hcuts (.refl _)
      (length_flatten_runs compareFn workMem rows)
    refine ⟨out, (sort_of_spilled hread h).trans hout, hmerges.perm.trans ?_, hmerges.ordered ?_⟩
    · -- what the runs hold are the cuts, each sorted by itself
      have hperm := List.Perm.flatMap_left (cuts workMem [] 0 rows) fun cut _ =>
        @stableSort_perm _ compareFn cut
      rwa [flatMap_id', flatten_cuts] at hperm
    · intro run hrun
      obtain ⟨cut, -, rfl⟩ := mem_map.mp hrun
      exact ordered_stableSort cut

end Sorted

section Widths

attribute [local instance] plainCrates

def byWidth : Row → Row → Ordering := compareOn List.length

instance transCmp_byWidth : Std.TransCmp byWidth := inferInstanceAs (Std.TransCmp (compareOn List.length))

theorem sort_ordered_widths : ∃ out,
    ExternalSorter.sort byWidth 40 (fun n => n) [[.null, .null], [.null]] = some (.ok out) ∧
      out.Perm [[.null, .null], [.null]] ∧ Ordered byWidth out :=
  sort_ordered 40 _
    (forall_mem_cons.mpr ⟨⟨rfl, by decide⟩, forall_mem_singleton.mpr ⟨rfl, by decide⟩⟩)

/-- A wider row comes before a narrower one, each in a run of its own. -/
theorem sort_twoWidths : ExternalSorter.sort byWidth 40 (fun _ => 0) [[.null, .null], [.integer 1]] =
    some (.ok (stableSort byWidth [[.null, .null], [.integer 1]])) := by
  refine (sort_eq_stableSort_iff 40 ?_).mpr ?_ fun _ => 0
  · intro row hrow
    rcases mem_pair.mp hrow with rfl | rfl
    · exact ⟨rfl, by decide⟩
    · exact ⟨rfl, by decide⟩
  · intro i j run run' hij hi hj a ha b hb hab
    have hcuts : cuts 40 [] 0 [[.null, .null], [.integer 1]] = [[[.null, .null]], [[.integer 1]]] := rfl
    rw [hcuts] at hi hj
    have hwidth : ∀ {k : Nat} {run : List Row}, [[[Value.null, .null]], [[.integer 1]]][k]? = some run →
        ∀ row ∈ run, row.length + k = 2 := by
      intro k run hk row hrow
      cases k with
      | zero =>
        cases hk
        rw [mem_singleton.mp hrow]
        rfl
      | succ k =>
        cases k with
        | zero =>
          cases hk
          rw [mem_singleton.mp hrow]
          rfl
        | succ k => cases hk
    -- rows of different runs have different widths
    have ha := hwidth hi a ha
    have hb := hwidth hj b hb
    have hlength : a.length = b.length := Nat.compare_eq_eq.mp hab
    omega

def equalWidths : List Row := [[.integer 1], [.integer 2], [.integer 3], [.integer 4]]

/-- When each of the rows is a run of its own, the merge may take the third before the second. -/
theorem sort_equalWidths :
    ExternalSorter.sort byWidth 40 (fun n => if n = 1 then 1 else 0) equalWidths =
      some (.ok [[.integer 1], [.integer 3], [.integer 2], [.integer 4]]) ∧
    stableSort byWidth equalWidths = equalWidths ∧
    ¬∀ ties, ExternalSorter.sort byWidth 40 ties equalWidths =
      some (.ok (stableSort byWidth equalWidths)) := by
  have hread : ∀ row ∈ equalWidths, ReadsFromRun row := by
    intro row hrow
    simp only [equalWidths, mem_cons, not_mem_nil, or_false] at hrow
    rcases hrow with rfl | rfl | rfl | rfl
    all_goals exact ⟨rfl, by decide⟩
  have hspilled : (equalWidths.foldl (ExternalSorter.addRow byWidth) (.new 40)).spilledRuns ≠ [] :=
    fun h => absurd (congrArg List.length h) (by decide +kernel)
  have hruns : (cuts 40 [] 0 equalWidths).map (stableSort byWidth) =
      [[[.integer 1]], [[.integer 2]], [[.integer 3]], [[.integer 4]]] := by
    have hcuts : cuts 40 [] 0 equalWidths =
        [[[.integer 1]], [[.integer 2]], [[.integer 3]], [[.integer 4]]] := rfl
    rw [hcuts]
    simp [stableSort]
  have hmerged : ExternalSorter.sort byWidth 40 (fun n => if n = 1 then 1 else 0) equalWidths =
      some (.ok [[.integer 1], [.integer 3], [.integer 2], [.integer 4]]) := by
    rw [sort_of_spilled hread hspilled, hruns]
    rfl
  have hsorted : stableSort byWidth equalWidths = equalWidths := mergeSort_of_pairwise (by decide)
  refine ⟨hmerged, hsorted, ?_⟩
  intro hall
  have hrows := hall fun n => if n = 1 then 1 else 0
  rw [hmerged, hsorted] at hrows
  simp [equalWidths] at hrows

end Widths

end H2Database.Sql
