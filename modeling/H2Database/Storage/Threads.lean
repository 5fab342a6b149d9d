import H2Database.Storage.Arrival

/-!
# The threads of a node

A fleet serves each request to a node in a thread of its own, and a node has no lock around a request:
`append_logs` loads the token, loads the flushed LSN, adds its records to the buffer and then stores the
flushed LSN, and `acquire_lease` loads the token and then stores it.  A materialization loads the window of
LSNs that it takes, and then takes them.  `ServedNode` is a node with its threads, each at any of these
points.
-/

namespace H2Database.Storage

open Mvstore Reasoning List Nat

/-- How far the thread of a request has come. -/
inductive Stage where
  | started
  | online
  | checked
  | loaded (flushedLsn : Lsn)
  | pushed (maxLsn : Lsn)
  | ended
  deriving DecidableEq, Repr

structure Thread where
  request : Request
  stage : Stage
  deriving DecidableEq, Repr

/-- One load or store of the thread, or its turn with the lock of the buffer. -/
def Thread.advance (thread : Thread) (node : SmartStorageNode) : SmartStorageNode × Stage :=
  match thread.request, thread.stage with
  | .lease token, .started => (node, if token < node.currentFencingToken then .ended else .checked)
  | .lease token, .checked => ({ node with currentFencingToken := token }, .ended)
  | .append _ _, .started => (node, if node.state = .offline then .ended else .online)
  | .append _ token, .online => (node, if token < node.currentFencingToken then .ended else .checked)
  | .append _ _, .checked => (node, .loaded node.flushedLsn)
  | .append records _, .loaded flushedLsn =>
    ({ node with walBuffer := node.walBuffer ++ records },
      .pushed (SmartStorageNode.maxLsn flushedLsn records))
  | .append _ _, .pushed maxLsn => ({ node with flushedLsn := maxLsn }, .ended)
  | _, stage => (node, stage)

theorem SmartStorageNode.Aside.stored {node node' : SmartStorageNode} (h : Aside node node') :
    node'.flushedLsn = node.flushedLsn ∧ node'.currentFencingToken = node.currentFencingToken := by
  cases h with
  | same => exact ⟨rfl, rfl⟩
  | state => exact ⟨rfl, rfl⟩
  | materialized =>
    unfold materializePending
    split_ifs <;> exact ⟨rfl, rfl⟩
  | opened => exact ⟨rfl, rfl⟩

/-- A thread that is alone with the node does what `serve` does. -/
theorem Thread.advance_alone (request : Request) (node : SmartStorageNode) :
    (fun p : SmartStorageNode × Stage => Thread.advance ⟨request, p.2⟩ p.1)^[5] (node, .started) =
      ((request.serve node).2, .ended) := by
  cases request with
  | lease token =>
    by_cases hlow : token < node.currentFencingToken
    · simp [advance, Request.serve, SmartStorageNode.acquireLease, hlow]
    · simp [advance, Request.serve, SmartStorageNode.acquireLease, hlow]
  | append records token =>
    by_cases hoff : node.state = .offline
    · simp [advance, Request.serve, SmartStorageNode.appendLogs, hoff]
    · by_cases hlow : token < node.currentFencingToken
      · simp [advance, Request.serve, SmartStorageNode.appendLogs, hoff, hlow]
      · simp [advance, Request.serve, SmartStorageNode.appendLogs, hoff, hlow]

/-- What a materialization does that has loaded these bounds. -/
def SmartStorageNode.applyWindow (node : SmartStorageNode) (applied flushed : Lsn) : SmartStorageNode :=
  let logsToApply := node.walBuffer.filter fun r => applied < r.lsn ∧ r.lsn ≤ flushed
  { node with
    materializedStore := logsToApply.foldl applyRecord node.materializedStore
    appliedLsn := maxLsn applied logsToApply }

/-- A node with the threads of its requests, and the window of the materialization that runs. -/
structure ServedNode where
  node : SmartStorageNode
  threads : List Thread
  window : Option (Lsn × Lsn)

inductive ServedAction where
  | arrive (request : Request)
  | advance (thread : Nat)
  | loadWindow
  | applyWindow
  | setState (state : NodeState)
  | read (mapName : String) (key : Key) (readVersion : Lsn)
  deriving DecidableEq, Repr

namespace ServedNode

def new (nodeId : Nat) : ServedNode := ⟨.new nodeId, [], none⟩

def step (served : ServedNode) : ServedAction → ServedNode
  | .arrive request => { served with threads := served.threads ++ [⟨request, .started⟩] }
  | .advance k =>
    match served.threads[k]? with
    | none => served
    | some thread =>
      let (node, stage) := thread.advance served.node
      { served with node, threads := served.threads.set k ⟨thread.request, stage⟩ }
  | .loadWindow =>
    if served.node.state = .offline ∨ served.node.flushedLsn ≤ served.node.appliedLsn then served
    else { served with window := served.window.or (some (served.node.appliedLsn, served.node.flushedLsn)) }
  | .applyWindow =>
    match served.window with
    | none => served
    | some (applied, flushed) => { served with node := served.node.applyWindow applied flushed, window := none }
  | .setState state => { served with node := served.node.setState state }
  | .read mapName key readVersion => { served with node := (served.node.getKey mapName key readVersion).2 }

/-- The batch that the step adds to the buffer. -/
def batch (served : ServedNode) : ServedAction → List (List LogRecord)
  | .advance k =>
    match served.threads[k]? with
    | some ⟨.append records _, .loaded _⟩ => [records]
    | _ => []
  | _ => []

def arrivals (served : ServedNode) : List ServedAction → List (List LogRecord)
  | [] => []
  | action :: actions => served.batch action ++ (served.step action).arrivals actions

/-- No request is being served and no materialization runs. -/
def Quiet (served : ServedNode) : Prop :=
  (∀ thread ∈ served.threads, thread.stage = .ended) ∧ served.window = none

/-- The flushed LSN is not lowered. -/
def Raises (served : ServedNode) : ServedAction → Prop
  | .advance k => ∀ request lsn, served.threads[k]? = some ⟨request, .pushed lsn⟩ →
    served.node.flushedLsn ≤ lsn
  | _ => True

/-- Nothing newer than the batch has been applied, and nothing newer of the same keys has arrived. -/
def BatchInOrder (served : ServedNode) (action : ServedAction) : Prop :=
  ∀ records ∈ served.batch action, (∀ rec ∈ records, served.node.appliedLsn < rec.lsn) ∧
    (∀ old ∈ served.node.walBuffer, ∀ rec ∈ records, Clash old rec → old.lsn < rec.lsn) ∧
    records.Pairwise fun a b => Clash a b → a.lsn < b.lsn

def InOrder (served : ServedNode) (action : ServedAction) : Prop :=
  served.Raises action ∧ served.BatchInOrder action

variable {served : ServedNode}

/-! ## What a step does -/

theorem advance_cases (thread : Thread) (node : SmartStorageNode) :
    (∃ token stage, thread.advance node = ({ node with currentFencingToken := token }, stage) ∧
      (∀ records token flushed, thread ≠ ⟨.append records token, .loaded flushed⟩) ∧
      ∀ lsn, thread.stage = .pushed lsn → stage = .pushed lsn) ∨
    (∃ records token flushed, thread = ⟨.append records token, .loaded flushed⟩) ∨
    ∃ records token lsn, thread = ⟨.append records token, .pushed lsn⟩ := by
  rcases thread with ⟨request, stage⟩
  cases request with
  | lease token =>
    left
    cases stage <;> exact ⟨_, _, rfl, by simp, by simp⟩
  | append records token =>
    cases stage with
    | loaded flushed => exact .inr (.inl ⟨records, token, flushed, rfl⟩)
    | pushed lsn => exact .inr (.inr ⟨records, token, lsn, rfl⟩)
    | _ => exact .inl ⟨_, _, rfl, by simp, by simp⟩

/-- Every record is at or below the flushed LSN, or the thread that added it is still to store that. -/
def Covered (served : ServedNode) : Prop :=
  ∀ rec ∈ served.node.walBuffer, rec.lsn ≤ served.node.flushedLsn ∨
    ∃ (k : Nat) (request : Request) (lsn : Lsn),
      served.threads[k]? = some ⟨request, .pushed lsn⟩ ∧ rec.lsn ≤ lsn

theorem Covered.of_eq {served' : ServedNode} (h : served.Covered)
    (hbuffer : served'.node.walBuffer = served.node.walBuffer)
    (hflushed : served'.node.flushedLsn = served.node.flushedLsn)
    (hthreads : served'.threads = served.threads) :
    served'.Covered := by
  intro rec hrec
  rw [hbuffer] at hrec
  rw [hflushed, hthreads]
  exact h rec hrec

theorem Covered.advance (h : served.Covered) {k : Nat} (hraises : served.Raises (.advance k)) :
    (served.step (.advance k)).Covered := by
  rw [step]
  cases hk : served.threads[k]? with
  | none => exact h
  | some thread =>
    have hset : ∀ thread', (served.threads.set k thread')[k]? = some thread' := fun thread' =>
      List.getElem?_set_self (List.getElem?_eq_some_iff.mp hk).1
    have hother : ∀ {k' : Nat} thread', k ≠ k' → (served.threads.set k thread')[k']? = served.threads[k']? :=
      fun thread' hne => List.getElem?_set_ne hne
    dsimp only
    intro rec hrec
    rcases advance_cases thread served.node with
      ⟨token, stage, heq, -, hstage⟩ | ⟨records, token, flushed, rfl⟩ | ⟨records, token, stored, rfl⟩
    · rw [heq] at hrec ⊢
      refine (h rec hrec).imp id ?_
      rintro ⟨k', request, lsn, hk', hle⟩
      by_cases hsame : k = k'
      · subst hsame
        cases hk.symm.trans hk'
        exact ⟨k, request, lsn, (hset _).trans (by rw [hstage lsn rfl]), hle⟩
      · exact ⟨k', request, lsn, (hother _ hsame).trans hk', hle⟩
    · rcases mem_append.mp hrec with hold | hnew
      · refine (h rec hold).imp id ?_
        rintro ⟨k', request, lsn, hk', hle⟩
        have hne : k ≠ k' := by
          rintro rfl
          cases hk.symm.trans hk'
        exact ⟨k', request, lsn, (hother _ hne).trans hk', hle⟩
      · exact .inr ⟨k, _, _, hset _, SmartStorageNode.lsn_le_maxLsn hnew _⟩
    · have hstored : served.node.flushedLsn ≤ stored := hraises _ _ hk
      rcases h rec hrec with hle | ⟨k', request, lsn, hk', hle⟩
      · exact .inl (le_trans hle hstored)
      · by_cases hsame : k = k'
        · subst hsame
          cases hk.symm.trans hk'
          exact .inl hle
        · exact .inr ⟨k', request, lsn, (hother _ hsame).trans hk', hle⟩

theorem Covered.step (h : served.Covered) (action : ServedAction)
    (hraises : served.Raises action) : (served.step action).Covered := by
  cases action with
  | arrive request =>
    intro rec hrec
    refine (h rec hrec).imp id ?_
    rintro ⟨k, request, lsn, hk, hle⟩
    exact ⟨k, request, lsn, (List.getElem?_append_left (List.getElem?_eq_some_iff.mp hk).1).trans hk, hle⟩
  | advance k => exact h.advance hraises
  | loadWindow =>
    rw [ServedNode.step]
    split_ifs <;> exact h
  | applyWindow =>
    rw [ServedNode.step]
    split <;> exact h
  | setState state => exact h
  | read mapName key readVersion =>
    have ha := served.node.getKey_aside mapName key readVersion
    exact h.of_eq ha.walBuffer ha.stored.1 rfl

theorem covered_new (nodeId : Nat) : (new nodeId).Covered := fun _ h => absurd h not_mem_nil

theorem Covered.flushed (h : served.Covered) (hquiet : ∀ thread ∈ served.threads, thread.stage = .ended) :
    ∀ rec ∈ served.node.walBuffer, rec.lsn ≤ served.node.flushedLsn := by
  intro rec hrec
  rcases h rec hrec with hle | ⟨k, request, lsn, hk, -⟩
  · exact hle
  · cases hquiet _ (mem_of_getElem? hk)

theorem walBuffer_step (served : ServedNode) (action : ServedAction) :
    (served.step action).node.walBuffer = served.node.walBuffer ++ (served.batch action).flatten := by
  cases action with
  | advance k =>
    rw [step, batch]
    cases hk : served.threads[k]? with
    | none => exact (append_nil _).symm
    | some thread =>
      dsimp only
      rcases advance_cases thread served.node with
        ⟨token, stage, heq, hnot, -⟩ | ⟨records, token, flushed, rfl⟩ | ⟨records, token, stored, rfl⟩
      · rw [heq]
        split
        · rename_i records token flushed hthread
          cases hthread
          exact absurd rfl (hnot _ _ _)
        · exact (append_nil _).symm
      · simp [Thread.advance]
      · simp [Thread.advance]
  | arrive request => exact (append_nil _).symm
  | loadWindow =>
    rw [step]
    split_ifs <;> exact (append_nil _).symm
  | applyWindow =>
    rw [step]
    split <;> exact (append_nil _).symm
  | setState state => exact (append_nil _).symm
  | read mapName key readVersion =>
    exact (served.node.getKey_aside mapName key readVersion).walBuffer.trans (append_nil _).symm

theorem walBuffer_runs (served : ServedNode) (actions : List ServedAction) :
    (runs step served actions).node.walBuffer = served.node.walBuffer ++
      (served.arrivals actions).flatten := by
  induction actions generalizing served with
  | nil => exact (append_nil _).symm
  | cons action actions ih =>
    rw [runs_cons, ih, walBuffer_step, arrivals, flatten_append, append_assoc]

end ServedNode

/-! ## What has been applied -/

namespace SmartStorageNode

/-- The records of `done`, in this order, have been applied: all those at or below the applied LSN.  Records
of one key are in the order of their LSNs. -/
structure Redone (node : SmartStorageNode) (done : List LogRecord) : Prop where
  taken : done.Perm (node.walBuffer.filter fun rec => rec.lsn ≤ node.appliedLsn)
  ordered : node.walBuffer.Pairwise fun a b => Clash a b → a.lsn < b.lsn
  applied : done.Pairwise fun a b => Clash a b → a.lsn < b.lsn
  materialized : ∀ name key, node.materializedStore.read name key = done.foldl (LogRecord.redo name key) none

variable {node : SmartStorageNode} {done : List LogRecord}

theorem Redone.push (h : Redone node done) {records : List LogRecord}
    (hnew : ∀ rec ∈ records, node.appliedLsn < rec.lsn)
    (hold : ∀ old ∈ node.walBuffer, ∀ rec ∈ records, Clash old rec → old.lsn < rec.lsn)
    (hrecords : records.Pairwise fun a b => Clash a b → a.lsn < b.lsn) :
    Redone { node with walBuffer := node.walBuffer ++ records } done where
  taken := by
    have hnone : records.filter (fun rec => rec.lsn ≤ node.appliedLsn) = [] := by
      rw [filter_eq_nil_iff]
      intro rec hrec hle
      exact not_le.mpr (hnew rec hrec) (of_decide_eq_true hle)
    rw [filter_append, hnone, append_nil]
    exact h.taken
  ordered := pairwise_append.mpr ⟨h.ordered, hrecords, hold⟩
  applied := h.applied
  materialized := h.materialized

theorem Redone.applyWindow (h : Redone node done) (flushed : Lsn) :
    ∃ done', Redone (node.applyWindow node.appliedLsn flushed) done' := by
  set logs := node.walBuffer.filter fun r => node.appliedLsn < r.lsn ∧ r.lsn ≤ flushed with hlogs
  have hmem : ∀ rec ∈ logs, rec ∈ node.walBuffer ∧ node.appliedLsn < rec.lsn ∧ rec.lsn ≤ flushed := by
    intro rec hrec
    rw [hlogs, mem_filter, decide_eq_true_eq] at hrec
    exact hrec
  -- what is at or below the new applied LSN was so before, or has been taken now
  have hsplit : (done ++ logs).Perm
      (node.walBuffer.filter fun rec => rec.lsn ≤ maxLsn node.appliedLsn logs) := by
    refine ((h.taken.append_right logs).trans (List.Perm.of_eq ?_)).trans
      (filter_append_perm (fun rec => rec.lsn ≤ node.appliedLsn) _)
    rw [filter_filter, filter_filter]
    congr 1
    · refine filter_congr fun rec hrec => ?_
      have hle := le_maxLsn node.appliedLsn logs
      rw [← Bool.decide_and, decide_eq_decide]
      exact ⟨fun h => ⟨h, le_trans h hle⟩, And.left⟩
    · rw [hlogs]
      refine filter_congr fun rec hrec => ?_
      rw [← hlogs, ← decide_not, ← Bool.decide_and, decide_eq_decide, not_le]
      constructor
      · rintro ⟨hlt, hle⟩
        have hin : rec ∈ logs := by
          rw [hlogs, mem_filter, decide_eq_true_eq]
          exact ⟨hrec, hlt, hle⟩
        exact ⟨hlt, lsn_le_maxLsn hin _⟩
      · rintro ⟨hlt, hle⟩
        refine ⟨hlt, ?_⟩
        rcases maxLsn_cases node.appliedLsn logs with heq | ⟨top, htop, heq⟩
        · exact absurd (heq ▸ hle) (not_le.mpr hlt)
        · exact le_trans (heq ▸ hle) (hmem top htop).2.2
  refine ⟨done ++ logs, hsplit, h.ordered, ?_, ?_⟩
  · refine pairwise_append.mpr ⟨h.applied, h.ordered.sublist filter_sublist, ?_⟩
    intro a ha b hb _
    have hle := of_decide_eq_true (mem_filter.mp (h.taken.subset ha)).2
    exact lt_of_le_of_lt hle (hmem b hb).2.1
  · intro name key
    rw [foldl_append, ← h.materialized]
    exact read_foldl_applyRecord logs _ name key

theorem Redone.getKey (h : Redone node done) (mapName : String) (key : Key) (readVersion : Lsn) :
    Redone (node.getKey mapName key readVersion).2 done ∧
      (node.getKey mapName key readVersion).2.appliedLsn = node.appliedLsn := by
  unfold SmartStorageNode.getKey
  by_cases hoff : node.state = .offline
  · rw [if_pos hoff]
    exact ⟨h, rfl⟩
  · rw [if_neg hoff]
    refine ⟨⟨h.taken, h.ordered, h.applied, fun name key => ?_⟩, rfl⟩
    rw [MVStore.read_openMap]
    exact h.materialized name key

theorem Redone.materializePending (h : Redone node done) (hon : node.state ≠ .offline)
    (hflushed : ∀ rec ∈ node.walBuffer, rec.lsn ≤ node.flushedLsn) :
    ∃ done', done'.Perm node.walBuffer ∧ Redone node.materializePending.2 done' := by
  unfold SmartStorageNode.materializePending
  rw [if_neg hon]
  split_ifs with hle
  · refine ⟨done, h.taken.trans (List.Perm.of_eq (filter_eq_self.mpr fun rec hrec => ?_)), h⟩
    exact decide_eq_true (le_trans (hflushed rec hrec) hle)
  · obtain ⟨done', hdone⟩ := h.applyWindow node.flushedLsn
    refine ⟨done', hdone.taken.trans (List.Perm.of_eq (filter_eq_self.mpr fun rec hrec => ?_)), hdone⟩
    refine decide_eq_true ?_
    by_cases hbefore : rec.lsn ≤ node.appliedLsn
    · exact le_trans hbefore (le_maxLsn _ _)
    · refine lsn_le_maxLsn (mem_filter.mpr ⟨hrec, decide_eq_true ⟨?_, hflushed rec hrec⟩⟩) _
      exact not_le.mp hbefore

end SmartStorageNode

namespace ServedNode

variable {served : ServedNode}

structure Orderly (served : ServedNode) : Prop where
  covered : served.Covered
  redone : ∃ done, served.node.Redone done
  window : ∀ applied flushed, served.window = some (applied, flushed) → applied = served.node.appliedLsn

theorem orderly_new (nodeId : Nat) : Orderly (new nodeId) where
  covered := covered_new nodeId
  redone := ⟨[], .nil, List.Pairwise.nil, List.Pairwise.nil, fun _ key => MVStore.read_of_find_none rfl key⟩
  window := fun _ _ h => by cases h

theorem Orderly.advance (h : served.Orderly) {k : Nat} (hin : served.InOrder (.advance k)) :
    (∃ done, (served.step (.advance k)).node.Redone done) ∧
      (served.step (.advance k)).node.appliedLsn = served.node.appliedLsn ∧
      (served.step (.advance k)).window = served.window := by
  obtain ⟨done, hdone⟩ := h.redone
  have hbatch := hin.2
  rw [BatchInOrder, batch] at hbatch
  rw [step]
  cases hk : served.threads[k]? with
  | none => exact ⟨⟨done, hdone⟩, rfl, rfl⟩
  | some thread =>
    dsimp only
    rcases advance_cases thread served.node with
      ⟨token, stage, heq, -, -⟩ | ⟨records, token, flushed, rfl⟩ | ⟨records, token, stored, rfl⟩
    · rw [heq]
      exact ⟨⟨done, hdone.taken, hdone.ordered, hdone.applied, hdone.materialized⟩, rfl, rfl⟩
    · rw [hk] at hbatch
      obtain ⟨hnew, hold, hrecords⟩ := hbatch records mem_cons_self
      exact ⟨⟨done, hdone.push hnew hold hrecords⟩, rfl, rfl⟩
    · exact ⟨⟨done, hdone.taken, hdone.ordered, hdone.applied, hdone.materialized⟩, rfl, rfl⟩

theorem Orderly.step (h : served.Orderly) (action : ServedAction)
    (hin : served.InOrder action) : (served.step action).Orderly := by
  have hcovered := h.covered.step action hin.1
  obtain ⟨done, hdone⟩ := h.redone
  cases action with
  | arrive request => exact ⟨hcovered, ⟨done, hdone⟩, h.window⟩
  | advance k =>
    obtain ⟨hredone, happlied, hwindow⟩ := h.advance hin
    refine ⟨hcovered, hredone, fun applied flushed heq => ?_⟩
    rw [happlied]
    exact h.window applied flushed (hwindow ▸ heq)
  | loadWindow =>
    rw [ServedNode.step] at hcovered ⊢
    split_ifs at hcovered ⊢
    · exact h
    · refine ⟨hcovered, ⟨done, hdone⟩, fun applied flushed heq => ?_⟩
      rcases Option.or_eq_some_iff.mp heq with hold | ⟨-, hnew⟩
      · exact h.window applied flushed hold
      · cases hnew
        rfl
  | applyWindow =>
    rw [ServedNode.step] at hcovered ⊢
    cases hwindow : served.window with
    | none =>
      rw [hwindow] at hcovered
      exact ⟨hcovered, ⟨done, hdone⟩, h.window⟩
    | some window =>
      obtain ⟨applied, flushed⟩ := window
      rw [hwindow] at hcovered
      refine ⟨hcovered, ?_, fun _ _ heq => by cases heq⟩
      rw [h.window applied flushed hwindow]
      exact hdone.applyWindow flushed
  | setState state =>
    exact ⟨hcovered, ⟨done, hdone.taken, hdone.ordered, hdone.applied, hdone.materialized⟩, h.window⟩
  | read mapName key readVersion =>
    obtain ⟨hread, happlied⟩ := hdone.getKey mapName key readVersion
    exact ⟨hcovered, ⟨done, hread⟩, fun applied flushed heq =>
      (h.window applied flushed heq).trans happlied.symm⟩

/-- If batches are added in order, and no thread lowers the flushed LSN, a node that has materialized all of
them holds the fold of the records in the order of their LSNs, whatever the order of arrival was. -/
theorem materialized_eq_foldl_log (nodeId : Nat) (actions : List ServedAction)
    (hin : Meets step InOrder (new nodeId) actions) (hquiet : (runs step (new nodeId) actions).Quiet)
    (hon : (runs step (new nodeId) actions).node.state ≠ .offline) (batches : List (List LogRecord))
    (hbatches : ((new nodeId).arrivals actions).Perm batches) (log : List LogRecord)
    (hlog : log.Perm batches.flatten) (hsorted : log.Pairwise fun a b => a.lsn < b.lsn)
    (name : String) (key : Key) :
    (runs step (new nodeId) actions).node.materializePending.2.materializedStore.read name key =
      log.foldl (LogRecord.redo name key) none := by
  have horderly : (runs step (new nodeId) actions).Orderly :=
    invariant_runs (fun _ action h hin => h.step action hin) (orderly_new nodeId) hin
  have hbuffer : (runs step (new nodeId) actions).node.walBuffer.Perm log := by
    rw [walBuffer_runs]
    exact hbatches.flatten.trans hlog.symm
  obtain ⟨done, hdone⟩ := horderly.redone
  obtain ⟨all, hall, hredone⟩ := hdone.materializePending hon (horderly.covered.flushed hquiet.1)
  rw [hredone.materialized]
  refine foldl_eq_of_perm (hall.trans hbuffer) (fun val rec h => LogRecord.redo_of_not_writes val rec h) ?_
    hsorted none
  exact hredone.applied.imp fun hlt ha hb => hlt ⟨name, key, ha, hb⟩

/-- The second batch is added before the first thread stores its flushed LSN, and a materialization takes its
window in between. -/
def overlapping : List ServedAction :=
  [.arrive (.append [.put 1 0 1 "a" [1] [10] 0] 1), .arrive (.append [.put 2 1 2 "a" [1] [20] 0] 1),
    .advance 0, .advance 0, .advance 0, .advance 1, .advance 1, .advance 1, .advance 0, .advance 1,
      .advance 0,
    .loadWindow, .advance 1, .applyWindow]

/-- No thread is about to lower the flushed LSN. -/
def canStore (served : ServedNode) : Bool :=
  served.threads.all fun thread =>
    match thread.stage with
    | .pushed lsn => served.node.flushedLsn ≤ lsn
    | _ => true

theorem raises_of_canStore (h : served.canStore = true) (action : ServedAction) : served.Raises action := by
  cases action with
  | advance k =>
    intro request lsn hk
    exact of_decide_eq_true (all_eq_true.mp h _ (mem_of_getElem? hk))
  | _ => trivial

/-- And a batch is above all that has come before it. -/
def ascends (served : ServedNode) (action : ServedAction) : Bool :=
  served.canStore && (served.batch action).all fun records => records.Pairwise (·.lsn < ·.lsn) &&
    records.all fun rec => served.node.appliedLsn < rec.lsn && served.node.walBuffer.all (·.lsn < rec.lsn)

theorem inOrder_of_ascends (served : ServedNode) (action : ServedAction) (h : served.ascends action = true) :
    served.InOrder action := by
  rw [ascends, Bool.and_eq_true] at h
  refine ⟨raises_of_canStore h.1 action, fun records hrecords => ?_⟩
  have hbatch := all_eq_true.mp h.2 records hrecords
  simp only [Bool.and_eq_true, decide_eq_true_eq, all_eq_true] at hbatch
  refine ⟨fun rec hrec => (hbatch.2 rec hrec).1, fun old hold rec hrec _ =>
    (hbatch.2 rec hrec).2 old hold, ?_⟩
  apply List.Pairwise.imp _ hbatch.1
  intro a b hlt _
  exact hlt

theorem materialized_eq_foldl_log_overlapping :
    (runs step (new 1) overlapping).node.materializePending.2.materializedStore.read "a" [1] =
      [LogRecord.put 1 0 1 "a" [1] [10] 0, .put 2 1 2 "a" [1] [20] 0].foldl
        (LogRecord.redo "a" [1]) none := by
  have hin : Meets step InOrder (new 1) overlapping := by
    refine Meets.imp inOrder_of_ascends ?_
    decide +kernel
  have hquiet : (runs step (new 1) overlapping).Quiet := ⟨by decide +kernel, by decide +kernel⟩
  exact materialized_eq_foldl_log 1 overlapping hin hquiet (by decide +kernel) _ (.refl _)
    [.put 1 0 1 "a" [1] [10] 0, .put 2 1 2 "a" [1] [20] 0] (by decide +kernel) (by decide) "a" [1]

/-- A request that is served alone, and a materialization. -/
def servedAlone (k : Nat) (request : Request) : List ServedAction :=
  .arrive request :: List.replicate 5 (.advance k)

def lateArrival : List ServedAction :=
  servedAlone 0 (.append [.put 2 1 2 "a" [2] [20] 0] 1) ++ [.loadWindow, .applyWindow] ++
    servedAlone 1 (.append [.put 1 0 1 "a" [1] [10] 0] 1) ++ [.loadWindow, .applyWindow]

def olderValueLast : List ServedAction :=
  servedAlone 0 (.append [.put 2 1 2 "a" [1] [20] 0] 1) ++
    servedAlone 1 (.append [.put 1 0 1 "a" [1] [10] 0] 1) ++ [.loadWindow, .applyWindow]

/-- Both threads load the flushed LSN 0, and the one with the lower LSN stores its own last. -/
def loweredFlushed : List ServedAction :=
  [.arrive (.append [.put 1 0 1 "a" [1] [10] 0] 1), .arrive (.append [.put 2 1 2 "a" [1] [20] 0] 1),
    .advance 0, .advance 0, .advance 0, .advance 1, .advance 1, .advance 1, .advance 0, .advance 1,
      .advance 1,
    .advance 0, .loadWindow, .applyWindow]

/-- The first is never applied, the second overrides the newer value, and the third keeps the older one. -/
theorem overtaken_batches_not_redone :
    ((new 1).arrivals lateArrival = [[.put 2 1 2 "a" [2] [20] 0], [.put 1 0 1 "a" [1] [10] 0]] ∧
      (runs step (new 1) lateArrival).node.materializedStore.read "a" [1] = none ∧
      [LogRecord.put 1 0 1 "a" [1] [10] 0, .put 2 1 2 "a" [2] [20] 0].foldl (LogRecord.redo "a" [1]) none =
        some [10]) ∧
    ∀ actions ∈ [olderValueLast, loweredFlushed],
      (runs step (new 1) actions).node.materializedStore.read "a" [1] = some [10] ∧
      [LogRecord.put 1 0 1 "a" [1] [10] 0, .put 2 1 2 "a" [1] [20] 0].foldl (LogRecord.redo "a" [1]) none =
        some [20] := by
  decide +kernel

end ServedNode

end H2Database.Storage
