import H2Database.Sql.Clients
import H2Database.Sql.Referential

/-!
# Foreign keys under concurrency

What a statement of a client reads it reads on the snapshot of its transaction and under the
transaction's own writes, so its tasks are those of a session on the view of what it sees.  Row numbers
alone come from the catalog that all share: each task finds the counters as the others have left them.

The checks of a foreign key read that snapshot, and nothing makes the transaction that inserts a child row
and the one that deletes its parent write the same key.  If every transaction that has written commits on
the newest snapshot, and after none of its statements has failed half-way, references stay intact; where two
overlap, both may commit.
-/

namespace H2Database.Sql

open Reasoning Mvstore List

/-! ## Statements of concurrent clients -/

def Visible.view (seen : Visible) : View := fun n =>
  (seen.scan n).foldl (fun tree p => tree.put p.1 p.2) .empty

def View.values (view : View) : MapValues := fun n k => (view n).get k

theorem View.values_writeAll (view : View) (ws : List Write) :
    (view.writeAll ws).values = overlay view.values ws :=
  funext fun n => funext fun k => View.get_writeAll view ws n k

theorem get_foldl_put {f : Key → Option (List UInt8)} {entries : List (Key × List UInt8)}
    (h : ∀ p ∈ entries, f p.1 = some p.2) (tree : MVTree Key (List UInt8)) (k : Key) :
    (entries.foldl (fun tree p => tree.put p.1 p.2) tree).get k =
      if k ∈ entries.map Prod.fst then f k else tree.get k := by
  induction entries generalizing tree with
  | nil => rfl
  | cons p entries ih =>
    obtain ⟨hp, hrest⟩ := forall_mem_cons.mp h
    rw [foldl_cons, ih hrest, MVTree.get_put, map_cons]
    by_cases hin : k ∈ entries.map Prod.fst
    · rw [if_pos hin, if_pos (mem_cons_of_mem _ hin)]
    · by_cases hk : k = p.1
      · rw [if_neg hin, if_pos hk, if_pos (mem_cons.mpr (.inl hk)), hk, hp]
      · rw [if_neg hin, if_neg hk, if_neg fun h => (mem_cons.mp h).elim hk hin]

theorem Reflects.values_view {seen : Visible} {values : MapValues} (h : Reflects seen values) :
    seen.view.values = values := by
  funext n k
  have hentries : ∀ p ∈ seen.scan n, values n p.1 = some p.2 := fun p hp => (h.scan n p.1 p.2).mp hp
  rw [View.values, Visible.view, get_foldl_put hentries]
  split_ifs with hin
  · rfl
  · rw [MVTree.get_empty]
    cases hval : values n k with
    | none => rfl
    | some v =>
      exact absurd (mem_map.mpr ⟨(k, v), (h.scan n k v).mpr hval, rfl⟩) hin

section

variable [Crates]

/-- The writes of tasks and of what follows from them, up to the first that fails; `finds` are the counters
that each task finds. -/
def runTasks (cat : Catalog) : List Counters → View → List Task → List Write × H2Result Unit
  | _, _, [] => ([], .ok ())
  | [], _, _ :: _ => ([], .error (.execution "stack overflow"))
  | counters :: finds, view, task :: rest =>
    match (task.run cat view counters).result with
    | .error e => (task.writes cat view counters, .error e)
    | .ok more =>
      let (ws, result) := runTasks cat finds (task.run cat view counters).view (more ++ rest)
      (task.writes cat view counters ++ ws, result)

def plan (cat : Catalog) (finds : List Counters) (st : Statement) (seen : Visible) :
    List Write × H2Result Unit :=
  match st.start cat seen with
  | .error e => ([], .error e)
  | .ok tasks => runTasks cat finds seen.view tasks

def TasksMeet (cat : Catalog) (good : View → Counters → Task → Prop) :
    List Counters → View → List Task → Prop
  | _, _, [] => True
  | [], _, _ :: _ => True
  | counters :: finds, view, task :: rest => good view counters task ∧
      ∀ more, (task.run cat view counters).result = .ok more →
        TasksMeet cat good finds (task.run cat view counters).view (more ++ rest)

theorem runTasks_invariant {cat : Catalog} {good : View → Counters → Task → Prop}
    (inv : View → List Task → Prop)
    (hstep : ∀ view counters task rest more, inv view (task :: rest) → good view counters task →
      (task.run cat view counters).result = .ok more →
        inv (task.run cat view counters).view (more ++ rest))
    {finds : List Counters} {view : View} {tasks : List Task} {ws : List Write} (hinv : inv view tasks)
    (hmeet : TasksMeet cat good finds view tasks) (hrun : runTasks cat finds view tasks = (ws, .ok ())) :
    inv (view.writeAll ws) [] := by
  induction finds generalizing view tasks ws with
  | nil =>
    cases tasks with
    | nil =>
      cases hrun
      exact hinv
    | cons task rest => cases hrun
  | cons counters finds ih =>
    cases tasks with
    | nil =>
      cases hrun
      exact hinv
    | cons task rest =>
      unfold runTasks at hrun
      split at hrun
      · cases hrun
      · rename_i more hmore
        obtain ⟨rfl, hrest⟩ := Prod.mk.inj hrun
        rw [View.writeAll_append, ← Task.view_run]
        exact ih (hstep _ _ _ _ more hinv hmeet.1 hmore) (hmeet.2 more hmore) (Prod.ext rfl hrest)

end

/-! ## References -/

section

variable [Crates] {cat : Catalog}

def rowsOf (values : MapValues) : Rows TableDef Key Row := fun t key =>
  (values t.mapName key).bind fun bytes => (t.readRow bytes).toOption

theorem rowsOf_values (view : View) : rowsOf view.values = rowAt view := rfl

namespace Clients

/-- Statements mind the references on what their transaction sees.  Between the begin of a transaction that
writes something and its commit no other has committed, and no statement of it has failed half-way. -/
def Minds (cat : Catalog) (c : Clients) : ClientAction → Prop
  | .execute tx statement => ∃ finds st, statement = plan cat finds st ∧
      ∀ t, c.traced.sys.awake tx = some t → ∀ tasks,
        st.start cat (seenBy t c.traced.sys.store) = .ok tasks →
          TasksMeet cat (fun view counters task => task.Minds cat view counters) finds
            (seenBy t c.traced.sys.store).view tasks
  | .commit tx _ => ∀ t, c.traced.sys.transactions.lookup tx = some t → t.undoLog ≠ [] →
      t.snapshotVersion = c.traced.sys.store.mvstore.version ∧ (c.agendas tx).torn = false
  | _ => True

theorem keeps_plan (hsymm : Crates.Symmetric) {finds : List Counters} {st : Statement} {seen : Visible}
    (hminds : ∀ tasks, st.start cat seen = .ok tasks →
      TasksMeet cat (fun view counters task => task.Minds cat view counters) finds seen.view tasks) :
    Keeps (fun values => Intact cat (rowsOf values)) seen (plan cat finds st) := by
  intro values writes hreflects hintact hplan
  unfold plan at hplan
  split at hplan
  · cases hplan
  rename_i tasks htasks
  have hview : Intact cat (rowAt seen.view) := by
    rw [← rowsOf_values, hreflects.values_view]
    exact hintact
  have hend := runTasks_invariant (Stacked cat)
    (fun view counters task rest more h hm hok => h.step hsymm hm hok)
    (.of_base (fun task htask => isBase_of_starts (Statement.starts htasks task htask)) hview)
    (hminds tasks htasks) hplan
  rw [← hreflects.values_view, ← View.values_writeAll]
  exact hend.intact

/-- Whatever the clients do, references are intact among the committed values. -/
theorem references_committed (hsymm : Crates.Symmetric) {s : MVStore Stored} (hs : s.AtRest)
    (hintact : Intact cat (rowsOf s.committed)) {as : List ClientAction}
    (hminds : Meets step (Minds cat) (new s) as) :
    Intact cat (rowsOf (runs step (new s) as).committed) := by
  refine committed_runs (P := fun values => Intact cat (rowsOf values)) hs hintact
    (hminds.imp fun c a ha => ?_)
  cases a with
  | execute tx statement =>
    obtain ⟨finds, st, rfl, hminds⟩ := ha
    exact fun t ht => keeps_plan hsymm (hminds t ht)
  | commit tx sync => exact ha
  | begin | read | write | wake | timeOut | rollback => trivial

end Clients

end

section

attribute [local instance] plainCrates

abbrev planIn (cat : Catalog) (steps : Nat) (st : Statement) : ClientStatement :=
  plan cat (List.replicate steps fun _ => 1) st

abbrev insertParent : ClientStatement :=
  planIn family 2 (.insert (insertInto "p" [.integer 1]))

abbrev insertChild : ClientStatement :=
  planIn family 2 (.insert (insertInto "c" [.integer 1, .integer 2]))

abbrev deleteParent : ClientStatement := planIn family 7 (.delete (deleteFrom "p"))

/-- A parent, and then its child in a transaction that begins after the first has committed. -/
def inTurn : List ClientAction :=
  [.begin, .execute 1 insertParent, .write 1 none, .commit 1 (.ok ()), .begin,
    .execute 2 insertChild, .write 2 none, .write 2 none, .commit 2 (.ok ())]

theorem references_committed_inTurn :
    Intact family (rowsOf (runs Clients.step (Clients.new .new) inTurn).committed) := by
  have hp : family.Alone parentTable := alone_family (Or.inl rfl)
  have hc : family.Alone childTable := alone_family (Or.inr rfl)
  have hback : ∀ {t : TableDef} {row : Row}, t.readRow row.toBytes = .ok row → KeepsLinks family t row :=
    fun hread => ⟨_, hread, fun _ _ => rfl, fun _ _ _ _ => rfl⟩
  refine Clients.references_committed symmetric_plain MVStore.atRest_new ?_ ?_
  · intro l hl v href
    obtain ⟨key, row, hrow, -⟩ := href
    cases hrow
  refine ⟨trivial, ⟨_, _, rfl, fun t ht tasks htasks => ?_⟩, trivial, fun t ht _ => ?_, trivial,
    ⟨_, _, rfl, fun t ht tasks htasks => ?_⟩, trivial, trivial, fun t ht _ => ?_, trivial⟩
  · cases htasks
    refine ⟨⟨fun row rowId counters' hcheck hid => ?_, fun _ _ _ => named_family_p⟩, fun more hmore => ?_⟩
    · cases ht
      cases hcheck
      cases hid
      exact ⟨hp, rfl, hback rfl, fun fk hfk => absurd hfk not_mem_nil⟩
    · cases hmore
      exact ⟨trivial, fun more hmore => by cases hmore; trivial⟩
  · cases ht
    exact ⟨rfl, rfl⟩
  · cases htasks
    refine ⟨⟨fun row rowId counters' hcheck hid => ?_, fun _ _ _ => named_family_c⟩, fun more hmore => ?_⟩
    · cases ht
      cases hcheck
      cases hid
      refine ⟨hc, rfl, hback rfl, fun fk hfk _ parent hparent => ?_⟩
      rw [mem_singleton.mp hfk] at hparent ⊢
      rw [← Option.some.inj (getTable_family.symm.trans hparent)]
      decide +kernel
    · cases ht
      cases hmore
      exact ⟨trivial, fun more hmore => by cases hmore; trivial⟩
  · cases ht
    exact ⟨rfl, rfl⟩

/-- A child row is inserted and its parent deleted, each transaction begun before the other commits. -/
def overlapping : List ClientAction :=
  [.begin, .execute 1 insertParent, .write 1 none, .commit 1 (.ok ()), .begin, .begin,
    .execute 2 insertChild, .execute 3 deleteParent, .write 2 none, .write 2 none, .write 3 none,
    .commit 2 (.ok ()), .commit 3 (.ok ())]

def overlapped : MVStore Stored :=
  (runs Clients.step (Clients.new .new) overlapping).traced.sys.store.mvstore

/-- Both commit, and the child row has no parent. -/
theorem overlapping_breaks_references : ¬∀ as : List ClientAction,
    (∀ tx statement, .execute tx statement ∈ as → ∃ finds st, statement = plan family finds st) →
      Intact family (rowsOf (runs Clients.step (Clients.new .new) as).committed) := by
  intro h
  have hintact := h overlapping (by
    intro tx statement hin
    simp only [overlapping, mem_cons, ClientAction.execute.injEq, reduceCtorEq, false_or,
      not_mem_nil, or_false] at hin
    rcases hin with ⟨-, rfl⟩ | ⟨-, rfl⟩ | ⟨-, rfl⟩ <;> exact ⟨_, _, rfl⟩)
  have hchild : ((rowsOf overlapped.committed childTable (rowKey 1)).any fun row =>
      (foreignValue childTable childKey row).isSome) = true := by decide +kernel
  have hparents : ∀ key ∈ overlapped.keys parentTable.mapName,
      overlapped.committed parentTable.mapName key = none := by decide +kernel
  obtain ⟨key, prow, hprow⟩ := parent_of_intact hintact hchild
  obtain ⟨bytes, hbytes, -⟩ := Option.bind_eq_some_iff.mp hprow
  cases (hparents key (MVStore.mem_keys_of_committed hbytes)).symm.trans hbytes

end

end H2Database.Sql
