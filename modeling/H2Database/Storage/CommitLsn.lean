import H2Database.Storage.Compute
import H2Database.Storage.QuorumRead

/-!
# LSNs of commits

A primary takes the LSNs of a commit from where the last successful commit ended.  If an append fails
after some node has accepted its batch, the next commit uses the same LSNs, and the failed batch stays
in the log of that node.  If no failed append leaves anything behind, LSNs are unique and reads return
only what has not failed.
-/

namespace H2Database

open Nat hiding ne_of_lt
open Mvstore List Option

def LogRecord.Puts (rec : LogRecord) (name : String) (key : Key) (val : List UInt8) : Prop :=
  rec.opType = .put ∧ rec.mapName = name ∧ rec.key = key ∧ rec.value = some val

namespace Storage

open Reasoning

/-! ## Where values come from -/

namespace SmartStorageNode

def Sourced (node : SmartStorageNode) : Prop :=
  ∀ name key val, node.materializedStore.read name key = some val →
    ∃ rec ∈ node.walBuffer, rec.Puts name key val

theorem sourced_new (nodeId : Nat) : Sourced (.new nodeId) := by
  intro name key val h
  rw [show (new nodeId).materializedStore.read name key = none from
    MVStore.read_of_find_none rfl key] at h
  cases h

variable {name : String} {v : Option (List UInt8)} {val : List UInt8} {node : SmartStorageNode}

variable {key : Key}

theorem redo_eq_some {rec : LogRecord} (h : LogRecord.redo name key v rec = some val) :
    v = some val ∨ rec.Puts name key val := by
  unfold LogRecord.redo at h
  split_ifs at h with hw
  · cases hop : rec.opType with
    | put =>
      rw [hop] at h
      unfold LogRecord.writes at hw
      simp only [hop, Bool.and_eq_true, decide_eq_true_eq] at hw
      cases hv : rec.value with
      | none =>
        simp only [hv, none_or] at h
        exact .inl h
      | some x =>
        simp only [hv, some_or, Option.some.injEq] at h
        subst h
        exact .inr ⟨hop, hw.1, hw.2, hv⟩
    | _ => simp only [hop, reduceCtorEq] at h
  · exact .inl h

theorem foldl_redo_eq_some {records : List LogRecord}
    (h : records.foldl (LogRecord.redo name key) v = some val) :
    v = some val ∨ ∃ rec ∈ records, rec.Puts name key val := by
  induction records generalizing v with
  | nil => exact .inl h
  | cons rec records ih =>
    rcases ih h with hv | ⟨r, hr, hputs⟩
    · rcases redo_eq_some hv with hv | hputs
      · exact .inl hv
      · exact .inr ⟨rec, mem_cons_self, hputs⟩
    · exact .inr ⟨r, mem_cons_of_mem _ hr, hputs⟩

theorem foldl_overlayKey_eq_some {records : List LogRecord}
    (hkey : ∀ rec ∈ records, rec.mapName = name ∧ rec.key = key) (h : records.foldl overlayKey v = some val) :
    v = some val ∨ ∃ rec ∈ records, rec.Puts name key val := by
  induction records generalizing v with
  | nil => exact .inl h
  | cons rec records ih =>
    obtain ⟨hname, hk⟩ := hkey rec mem_cons_self
    rcases ih (fun r hr => hkey r (mem_cons_of_mem _ hr)) h with hv | ⟨r, hr, hputs⟩
    · unfold overlayKey at hv
      split at hv
      · rename_i hop
        exact .inr ⟨rec, mem_cons_self, hop, hname, hk, hv⟩
      · cases hv
      · exact .inl hv
    · exact .inr ⟨r, mem_cons_of_mem _ hr, hputs⟩

variable {readVersion : Lsn}

theorem mem_of_mem_overlay {rec : LogRecord} (h : rec ∈ node.overlay readVersion) :
    rec ∈ node.walBuffer := by
  unfold overlay unapplied at h
  split_ifs at h
  · exact (mem_filter.mp h).1
  · cases h

theorem Sourced.materializePending (h : node.Sourced) :
    node.materializePending.2.Sourced := by
  unfold SmartStorageNode.materializePending
  split_ifs
  · exact h
  · exact h
  · intro name key val hread
    change (node.logsToApply.foldl applyRecord node.materializedStore).read name key = _ at hread
    rw [read_foldl_applyRecord] at hread
    rcases foldl_redo_eq_some hread with hv | ⟨rec, hrec, hputs⟩
    · exact h name key val hv
    · exact ⟨rec, (mem_filter.mp hrec).1, hputs⟩

theorem Sourced.aside {node' : SmartStorageNode} (ha : Aside node node') (h : node.Sourced) :
    node'.Sourced := by
  cases ha with
  | same => exact h
  | state => exact h
  | materialized => exact h.materializePending
  | opened mapName =>
    intro name key val hread
    rw [MVStore.read_openMap] at hread
    exact h name key val hread

theorem Sourced.serve (h : node.Sourced) (request : Request) :
    (request.serve node).2.Sourced := by
  cases request with
  | lease token =>
    obtain ⟨current, heq⟩ := node.acquireLease_eq token
    change (node.acquireLease token).2.Sourced
    rw [heq]
    exact h
  | append records token =>
    have hstore : (node.appendLogs records token).2.materializedStore = node.materializedStore := by
      unfold appendLogs
      split_ifs <;> rfl
    intro name key val hread
    change (node.appendLogs records token).2.materializedStore.read name key = _ at hread
    rw [hstore] at hread
    obtain ⟨rec, hrec, hputs⟩ := h name key val hread
    refine ⟨rec, ?_, hputs⟩
    change rec ∈ (node.appendLogs records token).2.walBuffer
    rw [appendLogs_walBuffer]
    exact mem_append_left _ hrec

theorem Sourced.getKey (h : node.Sourced) (hon : node.state ≠ .offline)
    (hget : (node.getKey name key readVersion).1 = .ok (some val)) :
    ∃ rec ∈ node.walBuffer, rec.Puts name key val := by
  rw [getKey_eq hon] at hget
  have hval := Except.ok.inj hget
  rcases foldl_overlayKey_eq_some
    (fun rec hrec => of_decide_eq_true (mem_filter.mp hrec).2) hval with hv | ⟨rec, hrec, hputs⟩
  · exact h name key val hv
  · exact ⟨rec, mem_of_mem_overlay (mem_filter.mp hrec).1, hputs⟩

theorem Sourced.scanRange (h : node.Sourced) (hon : node.state ≠ .offline) {startKey endKey : Option Key}
    {entries : List (Entry Key (List UInt8))}
    (hscan : (node.scanRange name startKey endKey readVersion).1 = .ok entries) {e : Entry Key (List UInt8)}
    (he : e ∈ entries) :
    ∃ rec ∈ node.walBuffer, rec.Puts name e.key e.value := by
  obtain ⟨merged, heq, hsorted, hget⟩ := scanRange_eq hon name startKey endKey readVersion
  rw [heq] at hscan
  cases hscan
  have hleaf := Page.leafGet_of_mem hsorted (mem_filter.mp he).1
  rw [hget] at hleaf
  rcases foldl_redo_eq_some hleaf with hv | ⟨rec, hrec, hputs⟩
  · exact h name e.key e.value hv
  · exact ⟨rec, mem_of_mem_overlay hrec, hputs⟩

end SmartStorageNode

/-! ## Logs without failed batches -/

namespace FleetSystem

def Failed (sys : FleetSystem) (c : Nat) : Prop :=
  ∃ call e, sys.calls[c]? = some call ∧ call.result = some (.error e)

def Clean (sys : FleetSystem) : Prop :=
  ∀ (i : Nat) (node : SmartStorageNode), sys.fleet.nodes[i]? = some node →
    node.Sourced ∧ ∀ rec ∈ node.walBuffer, ∃ c, sys.Reached c i ∧ rec ∈ sys.batch c ∧ ¬ sys.Failed c

/-- A call fails only when no node has accepted it, and no node accepts it afterwards. -/
def LeavesNothing (sys : FleetSystem) : FleetAction → Prop
  | .receive c a => ∀ call answer e, sys.calls[c]? = some call → call.result = none →
      call.channel[a]? = some answer →
      ({ call with channel := call.channel.eraseIdx a }.take sys.fleet.config answer).result =
        some (.error e) → call.accepted = []
  | .handle c i => sys.Failed c → ∀ call node, sys.calls[c]? = some call →
      sys.fleet.nodes[i]? = some node → i ∈ call.waiting →
      (call.request.serve node).1.isOk = false
  | _ => True

variable {fleet : StorageFleet}

theorem clean_new (hnew : ∀ node ∈ fleet.nodes, ∃ nodeId, node = .new nodeId) : Clean (new fleet) := by
  intro i node hn
  obtain ⟨nodeId, rfl⟩ := hnew node (mem_of_getElem? hn)
  exact ⟨SmartStorageNode.sourced_new nodeId, fun rec hrec => absurd hrec not_mem_nil⟩

variable {sys : FleetSystem}

theorem failed_set_ne {c c' : Nat} {call' : QuorumCall}
    (hne : c ≠ c') : Failed ⟨fleet, sys.calls.set c call'⟩ c' ↔ sys.Failed c' := by
  unfold Failed
  simp only [getElem?_set_ne hne]

theorem failed_set {c : Nat} {call call' : QuorumCall} (hc : sys.calls[c]? = some call) :
    Failed ⟨fleet, sys.calls.set c call'⟩ c ↔ ∃ e, call'.result = some (.error e) := by
  unfold Failed
  simp only [List.getElem?_set_self (List.getElem?_eq_some_iff.mp hc).1, Option.some.injEq]
  constructor
  · rintro ⟨_, e, rfl, he⟩
    exact ⟨e, he⟩
  · rintro ⟨e, he⟩
    exact ⟨call', e, rfl, he⟩

theorem failed_started {request : Request} {c : Nat}
    (hc : c < sys.calls.length) : (sys.step (.start request)).Failed c ↔ sys.Failed c := by
  have hcalls : (sys.step (.start request)).calls = sys.calls ++
    [.start request sys.fleet.nodes.length sys.fleet.latestCommittedLsn] := rfl
  unfold Failed
  rw [hcalls]
  simp only [getElem?_append_left hc]

theorem Effect.failed {sys sys' : FleetSystem} {action : FleetAction} (h : Effect sys action sys')
    {c : Nat} (hf : sys.Failed c) : sys'.Failed c := by
  obtain ⟨call, e, hc, he⟩ := hf
  obtain ⟨call', hc', heffect⟩ := h.call hc
  refine ⟨call', e, hc', ?_⟩
  cases heffect with
  | same => exact he
  | handled haction hn hi => exact he
  | received haction hr ha => cases hr.symm.trans he

theorem serve_walBuffer (request : Request) (node : SmartStorageNode) :
    (request.serve node).2.walBuffer = node.walBuffer ++
      if (request.serve node).1.isOk then
        match request with
        | .append records _ => records
        | .lease _ => []
      else [] := by
  cases request with
  | lease token =>
    obtain ⟨current, heq⟩ := node.acquireLease_eq token
    simp only [ite_self, append_nil]
    change (node.acquireLease token).2.walBuffer = _
    rw [heq]
  | append records token => exact node.appendLogs_walBuffer records token

theorem Clean.step (h : sys.Clean) (action : FleetAction)
    (hleaves : sys.LeavesNothing action) : (sys.step action).Clean := by
  have he := sys.step_effect action
  have hbatch : ∀ c, c < sys.calls.length → (sys.step action).batch c = sys.batch c :=
    fun c hc => he.batch hc
  generalize hsys' : sys.step action = sys' at he hbatch
  intro j node' hn'
  cases he with
  | idle => exact h j node' hn'
  | started request =>
    obtain ⟨hsource, hlog⟩ := h j node' hn'
    refine ⟨hsource, fun rec hrec => ?_⟩
    obtain ⟨c, hreach, hmem, hnot⟩ := hlog rec hrec
    refine ⟨c, reached_started.mpr hreach, ?_, ?_⟩
    · rw [hbatch c hreach.lt]
      exact hmem
    · exact fun hf => hnot ((failed_started hreach.lt).mp hf)
  | @handled c i call node hc hn hi =>
    have hlt := (List.getElem?_eq_some_iff.mp hc).1
    -- what was in a log before
    have hold : ∀ rec, (∃ c', sys.Reached c' j ∧ rec ∈ sys.batch c' ∧ ¬ sys.Failed c') →
        ∃ c', Reached ⟨sys.fleet.updateNode i fun _ => (call.request.serve node).2,
            sys.calls.set c (call.answered i (call.request.serve node).1)⟩ c' j ∧
          rec ∈ FleetSystem.batch ⟨sys.fleet.updateNode i fun _ => (call.request.serve node).2,
            sys.calls.set c (call.answered i (call.request.serve node).1)⟩ c' ∧
          ¬ Failed ⟨sys.fleet.updateNode i fun _ => (call.request.serve node).2,
            sys.calls.set c (call.answered i (call.request.serve node).1)⟩ c' := by
      rintro rec ⟨c', hreach, hmem, hnot⟩
      refine ⟨c', ?_, ?_, ?_⟩
      · by_cases hcc : c = c'
        · subst hcc
          obtain ⟨call', hc', hacc⟩ := hreach
          cases hc.symm.trans hc'
          refine ⟨_, getElem?_set_self hlt, ?_⟩
          rw [accepted_answered]
          split_ifs
          · exact mem_cons_of_mem _ hacc
          · exact hacc
        · obtain ⟨call', hc', hacc⟩ := hreach
          exact ⟨call', (getElem?_set_ne hcc).trans hc', hacc⟩
      · rw [hbatch c' hreach.lt]
        exact hmem
      · by_cases hcc : c = c'
        · subst hcc
          rw [failed_set hc]
          rintro ⟨e, he⟩
          exact hnot ⟨call, e, hc, he⟩
        · rw [failed_set_ne hcc]
          exact hnot
    rw [StorageFleet.getElem?_updateNode] at hn'
    split_ifs at hn' with hij
    · subst hij
      rw [hn, map_some] at hn'
      cases hn'
      obtain ⟨hsource, hlog⟩ := h j node hn
      refine ⟨hsource.serve _, fun rec hrec => ?_⟩
      rw [serve_walBuffer] at hrec
      rcases mem_append.mp hrec with hmem | hmem
      · exact hold rec (hlog rec hmem)
      · split_ifs at hmem with hok
        · refine ⟨c, ⟨_, getElem?_set_self hlt, ?_⟩, ?_, ?_⟩
          · rw [accepted_answered, hok]
            exact mem_cons_self
          · rw [hbatch c hlt, batch_of_call hc]
            exact hmem
          · rw [failed_set hc]
            rintro ⟨e, he⟩
            -- a node would have accepted a call that has failed
            have hrefused := hleaves ⟨call, e, hc, he⟩ call node hc hn hi
            rw [hok] at hrefused
            cases hrefused
        · cases hmem
    · obtain ⟨hsource, hlog⟩ := h j node' hn'
      exact ⟨hsource, fun rec hrec => hold rec (hlog rec hrec)⟩
  | @received c a call call' answer hc hr ha hcall =>
    rw [settle_nodes] at hn'
    obtain ⟨hsource, hlog⟩ := h j node' hn'
    refine ⟨hsource, fun rec hrec => ?_⟩
    obtain ⟨c', hreach, hmem, hnot⟩ := hlog rec hrec
    have hacc := (QuorumCall.received_frame hcall).2
    refine ⟨c', (reached_set hc (by rw [hacc]) c').mpr hreach, ?_, ?_⟩
    · rw [hbatch c' hreach.lt]
      exact hmem
    · by_cases hcc : c = c'
      · subst hcc
        rw [failed_set hc]
        rintro ⟨e, he⟩
        rw [hcall] at he
        obtain ⟨call₀, hc₀, hin⟩ := hreach
        cases hc.symm.trans hc₀
        rw [hleaves call answer e hc hr ha he] at hin
        cases hin
      · rw [failed_set_ne hcc]
        exact hnot
  | aside _ haside =>
    obtain ⟨node, hn, ha⟩ := haside.getElem? hn'
    obtain ⟨hsource, hlog⟩ := h j node hn
    refine ⟨hsource.aside ha, ?_⟩
    rw [ha.walBuffer]
    intro rec hrec
    obtain ⟨c, hreach, hmem, hnot⟩ := hlog rec hrec
    exact ⟨c, hreach, by rw [hbatch c hreach.lt]; exact hmem, hnot⟩

/-! ## Acknowledged records -/

/-- The log of a node is only ever added to. -/
theorem walBuffer_step (sys : FleetSystem) (action : FleetAction) {j : Nat} {node' : SmartStorageNode}
    (hn' : (sys.step action).fleet.nodes[j]? = some node') :
    ∃ node, sys.fleet.nodes[j]? = some node ∧ node.walBuffer <+: node'.walBuffer := by
  have he := sys.step_effect action
  generalize sys.step action = sys' at he hn'
  cases he with
  | idle => exact ⟨node', hn', prefix_refl _⟩
  | started => exact ⟨node', hn', prefix_refl _⟩
  | @handled c i call node hc hn hi =>
    rw [StorageFleet.getElem?_updateNode] at hn'
    split_ifs at hn' with hij
    · subst hij
      rw [hn, map_some] at hn'
      cases hn'
      refine ⟨node, hn, ?_⟩
      rw [serve_walBuffer]
      exact prefix_append _ _
    · exact ⟨node', hn', prefix_refl _⟩
  | received =>
    rw [settle_nodes] at hn'
    exact ⟨node', hn', prefix_refl _⟩
  | aside _ h =>
    obtain ⟨node, hn, ha⟩ := h.getElem? hn'
    exact ⟨node, hn, by rw [ha.walBuffer]⟩

/-- A node that has accepted a call has its records. -/
def Kept (sys : FleetSystem) : Prop :=
  ∀ c i node, sys.Reached c i → sys.fleet.nodes[i]? = some node → sys.batch c ⊆ node.walBuffer

theorem Kept.step (h : sys.Kept) (action : FleetAction) : (sys.step action).Kept := by
  have he := sys.step_effect action
  intro c j node' hreach hn'
  obtain ⟨node, hn, hgrows⟩ := sys.walBuffer_step action hn'
  have hold : sys.Reached c j → (sys.step action).batch c ⊆ node'.walBuffer := fun hreach => by
    rw [he.batch hreach.lt]
    exact List.Subset.trans (h c j node hreach hn) hgrows.subset
  obtain ⟨call', hc', hacc⟩ := hreach
  rcases he.call_cases hc' with ⟨call, hc, heffect⟩ | ⟨request, rfl⟩
  · cases heffect with
    | same => exact hold ⟨_, hc, hacc⟩
    | received => exact hold ⟨call, hc, by rwa [QuorumCall.take_accepted] at hacc⟩
    | @handled i served haction hserved hi =>
      rcases QuorumCall.mem_answered_accepted hacc with hacc | ⟨rfl, hok⟩
      · exact hold ⟨call, hc, hacc⟩
      · subst haction
        cases hn.symm.trans hserved
        simp only [FleetSystem.step, handle, hc, hn, if_pos hi, StorageFleet.getElem?_updateNode, if_true,
          map_some, Option.some.injEq] at hn'
        rw [he.batch (List.getElem?_eq_some_iff.mp hc).1, batch_of_call hc, ← hn', serve_walBuffer,
          if_pos hok]
        exact subset_append_right _ _
  · rw [QuorumCall.start_accepted] at hacc
    cases hacc

/-- An append that has returned well is in the logs of a write quorum, then and in every later state. -/
theorem acknowledged_on_quorum (fleet : StorageFleet) (actions : List FleetAction) {c : Nat}
    {call : QuorumCall}
    (hc : (runs step (new fleet) actions).calls[c]? = some call) (hsent : call.Sent) {lsn : Lsn}
    (hok : call.result = some (.ok lsn)) :
    ∃ quorum : List Nat, quorum.Nodup ∧ fleet.config.writeQuorum ≤ quorum.length ∧
      ∀ i ∈ quorum, ∃ node, (runs step (new fleet) actions).fleet.nodes[i]? = some node ∧
        (runs step (new fleet) actions).batch c ⊆ node.walBuffer := by
  have hconfig : (runs step (new fleet) actions).fleet.config = fleet.config :=
    @runs_invariant _ _ step (fun sys => sys.fleet.config = fleet.config)
      (fun sys action h => (sys.step_effect action).config.trans h) _ rfl actions
  have htallied : (runs step (new fleet) actions).Tallied :=
    runs_invariant (fun _ action h => h.step action) (fun _ h => absurd h not_mem_nil) actions
  have hkept : (runs step (new fleet) actions).Kept := by
    refine runs_invariant (fun _ action h => h.step action) ?_ actions
    rintro c i node ⟨call, hc, -⟩
    cases hc
  generalize runs step (new fleet) actions = sys at *
  have hcall := htallied call (mem_of_getElem? hc)
  refine ⟨call.accepted, hcall.nodup, ?_, fun i hi => ?_⟩
  · rw [← hconfig]
    exact le_trans (le_max_right _ _) (hcall.quorum_le hsent hok)
  · have hlt : i < sys.fleet.nodes.length := by
      rw [sys.fleet.count]
      exact hcall.inFleet i hi
    exact ⟨_, getElem?_eq_getElem hlt, hkept c i _ ⟨call, hc, hi⟩ (getElem?_eq_getElem hlt)⟩

theorem acknowledged_on_quorum_putAt : ∃ quorum : List Nat, quorum.Nodup ∧ 2 ≤ quorum.length ∧
    ∀ i ∈ quorum, ∃ node, (runs step (new .threeNodes) (putAt 0 1)).fleet.nodes[i]? = some node ∧
      (runs step (new .threeNodes) (putAt 0 1)).batch 0 ⊆ node.walBuffer :=
  acknowledged_on_quorum .threeNodes (putAt 0 1) rfl (fun token h => by cases h) rfl

end FleetSystem

/-! ## Commits one after the other -/

namespace DecoupledComputeNode

theorem changeRecord_lsn (commitVersion : Nat) (lsn : Lsn) (change : ReplicationChange) (now : Nat) :
    (changeRecord commitVersion lsn change now).lsn = lsn := by
  unfold changeRecord
  split_ifs
  · rfl
  · split <;> rfl

theorem commitRecords_lt {commitVersion : Nat} {clock : Lsn → Nat} {curLsn : Lsn}
    {changes : List ReplicationChange} :
    ∀ rec ∈ commitRecords commitVersion clock curLsn changes, curLsn < rec.lsn := by
  induction changes generalizing curLsn with
  | nil =>
    intro rec hrec
    rw [mem_singleton.mp hrec]
    exact lt_succ_self _
  | cons change changes ih =>
    intro rec hrec
    rcases mem_cons.mp hrec with rfl | hrec
    · rw [changeRecord_lsn]
      exact lt_succ_self _
    · exact lt_trans (lt_succ_self _) (ih rec hrec)

theorem commitRecords_pairwise (commitVersion : Nat) (clock : Lsn → Nat) (curLsn : Lsn)
    (changes : List ReplicationChange) :
    (commitRecords commitVersion clock curLsn changes).Pairwise fun a b => a.lsn < b.lsn := by
  induction changes generalizing curLsn with
  | nil => exact pairwise_singleton _ _
  | cons change changes ih =>
    refine pairwise_cons.mpr ⟨fun rec hrec => ?_, ih _⟩
    rw [changeRecord_lsn]
    exact commitRecords_lt rec hrec

theorem commitRecords_ne_nil (commitVersion : Nat) (clock : Lsn → Nat) (curLsn : Lsn)
    (changes : List ReplicationChange) : commitRecords commitVersion clock curLsn changes ≠ [] := by
  cases changes <;> exact cons_ne_nil _ _

end DecoupledComputeNode

namespace ComputeSystem

open FleetSystem

/-- One primary makes all the commits, one after the other.  `curLsn` is where its next commit starts:
behind what has been committed, before the batch of a commit that is not over. -/
structure Serial (sys : ComputeSystem) (curLsn : Lsn) : Prop where
  promotions : sys.promotions = []
  current : ∃ node, sys.nodes[0]? = some node ∧ node.currentLsn = curLsn
  alone : ∀ (i : Nat) (node : DecoupledComputeNode), sys.nodes[i]? = some node →
    node.role = .primary → i = 0
  count : sys.commits.length = sys.storage.calls.length
  calls : ∀ (k : Nat) (commit : Commit), sys.commits[k]? = some commit →
    commit.call = k ∧ commit.node = 0
  last : ∀ (k : Nat) (commit : Commit), sys.commits[k]? = some commit → commit.finished = false →
    k + 1 = sys.commits.length
  past : ∀ (k : Nat) (commit : Commit), sys.commits[k]? = some commit → commit.finished = true →
    ¬ sys.storage.Failed k → ∀ rec ∈ sys.storage.batch k, rec.lsn ≤ curLsn
  ahead : ∀ (k : Nat) (commit : Commit), sys.commits[k]? = some commit → commit.finished = false →
    ∀ rec ∈ sys.storage.batch k, curLsn < rec.lsn
  ordered : ∀ c c', c < c' → ¬ sys.storage.Failed c → ¬ sys.storage.Failed c' →
    ∀ rec ∈ sys.storage.batch c, ∀ rec' ∈ sys.storage.batch c', rec.lsn < rec'.lsn
  distinct : ∀ c, (sys.storage.batch c).Pairwise fun a b => a.lsn < b.lsn
  nonempty : ∀ c, c < sys.storage.calls.length → sys.storage.batch c ≠ []

theorem batch_of_none {sys : FleetSystem} {c : Nat} (h : sys.calls.length ≤ c) : sys.batch c = [] := by
  rw [FleetSystem.batch, getElem?_eq_none_iff.mpr h]
  rfl

theorem serial_new (fleet : StorageFleet) : Serial (new fleet) fleet.latestCommittedLsn := by
  have hbatch : ∀ c, (new fleet).storage.batch c = [] := fun c => batch_of_none (zero_le c)
  refine ⟨rfl, ⟨_, rfl, rfl⟩, ?_, rfl, ?_, ?_, ?_, ?_, ?_, ?_, ?_⟩
  · intro i node hn _
    cases i with
    | zero => rfl
    | succ i => cases hn
  · intro k commit hk
    cases hk
  · intro k commit hk
    cases hk
  · intro k commit hk
    cases hk
  · intro k commit hk
    cases hk
  · intro c c' _ _ _ rec hrec
    rw [hbatch] at hrec
    cases hrec
  · intro c
    rw [hbatch]
    exact List.Pairwise.nil
  · intro c hc
    exact absurd hc (not_lt_zero c)

variable {sys : ComputeSystem} {curLsn : Lsn}

variable {action : FleetAction}

theorem Serial.storage (h : Serial sys curLsn)
    (hlen : (sys.storage.step action).calls.length = sys.storage.calls.length) :
    Serial { sys with storage := sys.storage.step action } curLsn := by
  have he := sys.storage.step_effect action
  have hbatch : ∀ c, (sys.storage.step action).batch c = sys.storage.batch c := by
    intro c
    by_cases hc : c < sys.storage.calls.length
    · exact he.batch hc
    · rw [batch_of_none (Nat.le_of_not_lt hc), batch_of_none (hlen ▸ Nat.le_of_not_lt hc)]
  have hnot : ∀ {c}, ¬ (sys.storage.step action).Failed c → ¬ sys.storage.Failed c :=
    fun hn hf => hn (he.failed hf)
  refine ⟨h.promotions, h.current, h.alone, h.count.trans hlen.symm, h.calls, h.last, ?_, ?_, ?_, ?_,
    ?_⟩
  · intro k commit hk hfin hf
    rw [hbatch]
    exact h.past k commit hk hfin (hnot hf)
  · intro k commit hk hfin
    rw [hbatch]
    exact h.ahead k commit hk hfin
  · intro c c' hlt hf hf'
    rw [hbatch, hbatch]
    exact h.ordered c c' hlt (hnot hf) (hnot hf')
  · intro c
    rw [hbatch]
    exact h.distinct c
  · intro c hc
    rw [hbatch]
    exact h.nonempty c (hlen ▸ hc)

theorem Serial.nodes (h : Serial sys curLsn) {nodes : List DecoupledComputeNode}
    (hcurrent : ∃ node, nodes[0]? = some node ∧ node.currentLsn = curLsn)
    (halone : ∀ (i : Nat) (node : DecoupledComputeNode), nodes[i]? = some node → node.role = .primary →
      i = 0) :
    Serial { sys with nodes } curLsn :=
  ⟨h.promotions, hcurrent, halone, h.count, h.calls, h.last, h.past, h.ahead, h.ordered, h.distinct,
    h.nonempty⟩

theorem Serial.addReadReplica (h : Serial sys curLsn) :
    Serial (sys.step .addReadReplica) curLsn := by
  obtain ⟨node, hn, hcur⟩ := h.current
  refine h.nodes ⟨node, ?_, hcur⟩ fun i node' hn' hrole => ?_
  · exact concat_of_some hn _
  · rcases concat_cases hn' with hn' | ⟨_, rfl⟩
    · exact h.alone i node' hn' hrole
    · cases hrole

theorem Serial.registerReplica (h : Serial sys curLsn) (i j : Nat) :
    Serial (sys.step (.registerReplica i j)) curLsn := by
  obtain ⟨node, hn, hcur⟩ := h.current
  have hget : ∀ k : Nat, (sys.nodes.modify i fun node =>
      { node with replicaListeners := node.replicaListeners ++ [j] })[k]? =
      sys.nodes[k]?.map fun node =>
        if i = k then { node with replicaListeners := node.replicaListeners ++ [j] } else node := by
    intro k
    rw [getElem?_modify]
    split_ifs <;> rfl
  refine h.nodes ⟨_, (hget 0).trans (by rw [hn]; rfl), ?_⟩ fun k node' hn' hrole => ?_
  · split_ifs <;> exact hcur
  · rw [hget] at hn'
    obtain ⟨node₀, hn₀, rfl⟩ := map_eq_some_iff.mp hn'
    refine h.alone k node₀ hn₀ ?_
    split_ifs at hrole <;> exact hrole

theorem Serial.onCommit (h : Serial sys curLsn) (i : Nat) (commitVersion : Nat)
    (changes : List ReplicationChange) (clock : Lsn → Nat) :
    Serial (sys.onCommit i commitVersion changes clock) curLsn := by
  unfold ComputeSystem.onCommit
  split
  · exact h
  rename_i node hn
  split_ifs with hcan
  case neg => exact h
  obtain ⟨hrole, hfinished⟩ := hcan
  cases h.alone i node hn hrole
  obtain ⟨node₀, hn₀, hcur⟩ := h.current
  cases hn.symm.trans hn₀
  set records := DecoupledComputeNode.commitRecords commitVersion clock node.currentLsn changes
    with hrecords
  set storage := sys.storage.step (.start (.append records node.fencingToken)) with hstorage
  have he := sys.storage.step_effect (.start (.append records node.fencingToken))
  have hlen : storage.calls.length = sys.storage.calls.length + 1 := length_append
  have hold : ∀ c, c < sys.storage.calls.length → storage.batch c = sys.storage.batch c :=
    fun c hc => he.batch hc
  have hcall : storage.calls[sys.storage.calls.length]? = some (.start
      (.append records node.fencingToken) sys.storage.fleet.nodes.length
      sys.storage.fleet.latestCommittedLsn) := getElem?_concat_length
  have hnew : storage.batch sys.storage.calls.length = records := by
    rw [batch_of_call hcall, QuorumCall.start_request]
  have hnone : ∀ c, sys.storage.calls.length < c → storage.batch c = [] :=
    fun c hc => batch_of_none (by omega)
  have hahead : ∀ rec ∈ records, curLsn < rec.lsn := by
    rw [← hcur]
    exact DecoupledComputeNode.commitRecords_lt
  have hfailed : ∀ c, c < sys.storage.calls.length → ¬ storage.Failed c → ¬ sys.storage.Failed c :=
    fun c hc hf hf' => hf ((failed_started hc).mpr hf')
  -- all commits before are over, so what has not failed of them is at or below the LSN
  have hpast : ∀ c, c < sys.storage.calls.length → ¬ sys.storage.Failed c →
      ∀ rec ∈ sys.storage.batch c, rec.lsn ≤ curLsn := by
    intro c hc hf
    have hat := getElem?_eq_getElem (h.count.symm ▸ hc)
    exact h.past c _ hat (hfinished _ (mem_of_getElem? hat) (h.calls c _ hat).2) hf
  have hcases : ∀ (k : Nat) (commit : Commit),
      (sys.commits ++ [⟨0, node.fencingToken, sys.storage.calls.length, false⟩])[k]? = some commit →
      (k < sys.storage.calls.length ∧ sys.commits[k]? = some commit ∧ commit.finished = true) ∨
      (k = sys.storage.calls.length ∧
        commit = ⟨0, node.fencingToken, sys.storage.calls.length, false⟩) := by
    intro k commit hk
    rcases concat_cases hk with hk | ⟨rfl, rfl⟩
    · exact .inl ⟨h.count ▸ (List.getElem?_eq_some_iff.mp hk).1, hk,
        hfinished _ (mem_of_getElem? hk) (h.calls k _ hk).2⟩
    · exact .inr ⟨h.count, rfl⟩
  refine ⟨h.promotions, h.current, h.alone, ?_, ?_, ?_, ?_, ?_, ?_, ?_, ?_⟩
  · rw [hlen, length_append, h.count]
    rfl
  · intro k commit hk
    rcases hcases k commit hk with ⟨_, hk', _⟩ | ⟨rfl, rfl⟩
    · exact h.calls k commit hk'
    · exact ⟨rfl, rfl⟩
  · intro k commit hk hfin
    rcases hcases k commit hk with ⟨_, _, hfin'⟩ | ⟨rfl, rfl⟩
    · rw [hfin'] at hfin
      cases hfin
    · rw [length_append, h.count]
      rfl
  · intro k commit hk hfin hf
    rcases hcases k commit hk with ⟨hlt, hk', _⟩ | ⟨rfl, rfl⟩
    · rw [hold k hlt]
      exact hpast k hlt (hfailed k hlt hf)
    · cases hfin
  · intro k commit hk hfin
    rcases hcases k commit hk with ⟨_, _, hfin'⟩ | ⟨rfl, rfl⟩
    · rw [hfin'] at hfin
      cases hfin
    · rw [hnew]
      exact hahead
  · intro c c' hlt hf hf'
    by_cases hc' : c' < sys.storage.calls.length
    · rw [hold c (lt_trans hlt hc'), hold c' hc']
      exact h.ordered c c' hlt (hfailed c (Nat.lt_trans hlt hc') hf) (hfailed c' hc' hf')
    · rcases Nat.eq_or_lt_of_le (Nat.le_of_not_lt hc') with rfl | hgt
      · rw [hold c hlt, hnew]
        intro rec hrec rec' hrec'
        exact Nat.lt_of_le_of_lt (hpast c hlt (hfailed c hlt hf) rec hrec) (hahead rec' hrec')
      · intro rec _ rec' hrec'
        rw [hnone c' hgt] at hrec'
        cases hrec'
  · intro c
    rcases lt_trichotomy c sys.storage.calls.length with hlt | rfl | hgt
    · rw [hold c hlt]
      exact h.distinct c
    · rw [hnew]
      exact DecoupledComputeNode.commitRecords_pairwise _ _ _ _
    · rw [hnone c hgt]
      exact List.Pairwise.nil
  · intro c hc
    by_cases hlt : c < sys.storage.calls.length
    · rw [hold c hlt]
      exact h.nonempty c hlt
    · have hceq : c = sys.storage.calls.length := by
        change c < storage.calls.length at hc
        omega
      rw [hceq, hnew]
      exact DecoupledComputeNode.commitRecords_ne_nil _ _ _ _

theorem batch_le_result (hcov : sys.storage.Covered) {c : Nat} {lsn : Lsn}
    (hres : sys.result c = some (.ok lsn)) : ∀ rec ∈ sys.storage.batch c, rec.lsn ≤ lsn := by
  obtain ⟨call, hc, hok⟩ := bind_eq_some_iff.mp hres
  intro rec hrec
  rw [batch_of_call hc] at hrec
  split at hrec
  · rename_i records token hreq
    exact (hcov call (mem_of_getElem? hc) records token hreq rec hrec).2 lsn hok
  · cases hrec

theorem Serial.finish {curLsn' : Lsn} (h : Serial sys curLsn) {k : Nat} {commit : Commit}
    (hk : sys.commits[k]? = some commit) (hopen : commit.finished = false) {nodes : List DecoupledComputeNode}
    (hcurrent : ∃ node, nodes[0]? = some node ∧ node.currentLsn = curLsn')
    (halone : ∀ (i : Nat) (node : DecoupledComputeNode), nodes[i]? = some node → node.role = .primary → i = 0)
    (hle : curLsn ≤ curLsn')
    (hbatch : ¬ sys.storage.Failed k → ∀ rec ∈ sys.storage.batch k, rec.lsn ≤ curLsn') :
    Serial { sys with
      nodes
      commits := sys.commits.modify k fun c => { c with finished := true } } curLsn' := by
  have hcases : ∀ (j : Nat) (commit' : Commit),
      (sys.commits.modify k fun c => { c with finished := true })[j]? = some commit' →
      (j = k ∧ commit'.finished = true ∧ commit'.call = commit.call ∧ commit'.node = commit.node) ∨
      (j ≠ k ∧ sys.commits[j]? = some commit') := by
    intro j commit' hj
    obtain ⟨old, hold, ⟨rfl, rfl⟩ | ⟨hne, rfl⟩⟩ := modify_cases hj
    · cases hk.symm.trans hold
      exact .inl ⟨rfl, rfl, rfl, rfl⟩
    · exact .inr ⟨fun heq => hne heq.symm, hold⟩
  -- the commit was the only one that was not over
  have honly : ∀ (j : Nat) (commit' : Commit), j ≠ k → sys.commits[j]? = some commit' →
      commit'.finished = true := by
    intro j commit' hne hj
    cases hfin : commit'.finished with
    | true => rfl
    | false =>
      have hj' := h.last j commit' hj hfin
      have hk' := h.last k commit hk hopen
      omega
  refine ⟨h.promotions, hcurrent, halone, ?_, ?_, ?_, ?_, ?_, h.ordered, h.distinct, h.nonempty⟩
  · exact (length_modify _ _ _).trans h.count
  · intro j commit' hj
    rcases hcases j commit' hj with ⟨rfl, _, hcall, hnode⟩ | ⟨_, hj'⟩
    · rw [hcall, hnode]
      exact h.calls j commit hk
    · exact h.calls j commit' hj'
  · intro j commit' hj hfin
    rcases hcases j commit' hj with ⟨_, hfin', _⟩ | ⟨hne, hj'⟩
    · rw [hfin'] at hfin
      cases hfin
    · rw [honly j commit' hne hj'] at hfin
      cases hfin
  · intro j commit' hj hfin hf
    rcases hcases j commit' hj with ⟨rfl, _⟩ | ⟨_, hj'⟩
    · exact hbatch hf
    · exact fun rec hrec => le_trans (h.past j commit' hj' hfin hf rec hrec) hle
  · intro j commit' hj hfin
    rcases hcases j commit' hj with ⟨_, hfin', _⟩ | ⟨hne, hj'⟩
    · rw [hfin'] at hfin
      cases hfin
    · rw [honly j commit' hne hj'] at hfin
      cases hfin

theorem Serial.commitAcked (h : Serial sys curLsn) (hcov : sys.storage.Covered) (k : Nat) :
    ∃ curLsn', Serial (sys.commitAcked k) curLsn' := by
  unfold ComputeSystem.commitAcked
  split
  · exact ⟨curLsn, h⟩
  rename_i commit hk
  simp only
  obtain ⟨hcall, hnode⟩ := h.calls k commit hk
  obtain ⟨node, hn, hcur⟩ := h.current
  split
  · rename_i lsn hfin hres
    rw [hcall] at hres
    obtain ⟨nodes, heq, hnodes⟩ := foldl_updateNode
      (commit.node :: (sys.nodes[commit.node]?.map (·.replicaListeners)).getD []) lsn
      { sys with commits := sys.commits.modify k fun c => { c with finished := true } }
    rw [heq]
    have hbatch := batch_le_result hcov hres
    have hle : curLsn ≤ lsn := by
      have hlt : k < sys.storage.calls.length := h.count ▸ (List.getElem?_eq_some_iff.mp hk).1
      obtain ⟨rec, hrec⟩ := exists_mem_of_ne_nil _ (h.nonempty k hlt)
      exact le_trans (le_of_lt (h.ahead k commit hk hfin rec hrec)) (hbatch rec hrec)
    refine ⟨lsn, h.finish hk hfin ⟨{ node with currentLsn := lsn }, ?_, rfl⟩ ?_ hle fun _ => hbatch⟩
    · rw [hnodes, hn, hnode, map_some, if_pos mem_cons_self]
    · intro i node' hn' hrole
      rw [hnodes] at hn'
      obtain ⟨node₀, hn₀, rfl⟩ := map_eq_some_iff.mp hn'
      refine h.alone i node₀ hn₀ ?_
      split_ifs at hrole <;> exact hrole
  · rename_i e hfin hres
    rw [hcall] at hres
    obtain ⟨call, hc, herr⟩ := bind_eq_some_iff.mp hres
    refine ⟨curLsn, h.finish hk hfin h.current h.alone (le_refl _) fun hnot => ?_⟩
    exact absurd ⟨call, e, hc, herr⟩ hnot
  · exact ⟨curLsn, h⟩

def FailsClean (sys : ComputeSystem) : ComputeAction → Prop
  | .storage action => sys.storage.LeavesNothing action
  | _ => True

def NoFailover : ComputeAction → Prop
  | .promoteToPrimary _ => False
  | _ => True

structure Committing (sys : ComputeSystem) : Prop where
  covered : sys.storage.Covered
  clean : sys.storage.Clean
  serial : ∃ curLsn, Serial sys curLsn

theorem length_calls_step (sys : FleetSystem)
    (h : ∀ request, action ≠ .start request) : (sys.step action).calls.length = sys.calls.length := by
  have he := sys.step_effect action
  generalize sys.step action = sys' at he
  cases he with
  | idle => rfl
  | started request => exact absurd rfl (h request)
  | handled => exact length_set
  | received => exact length_set
  | aside => rfl

theorem Committing.storage (h : Committing sys)
    (hstart : ∀ request, action ≠ .start request) (hclean : sys.storage.LeavesNothing action) :
    Committing { sys with storage := sys.storage.step action } := by
  obtain ⟨curLsn, hserial⟩ := h.serial
  exact ⟨h.covered.step action, h.clean.step action hclean,
    curLsn, hserial.storage (length_calls_step _ hstart)⟩

theorem Committing.step (h : Committing sys) (action : ComputeAction)
    (hno : NoFailover action) (hclean : sys.FailsClean action) : Committing (sys.step action) := by
  obtain ⟨curLsn, hserial⟩ := h.serial
  have hpromotions : ∀ k : Nat, sys.promotions[k]? = none := by
    intro k
    rw [hserial.promotions]
    rfl
  cases action with
  | addReadReplica => exact ⟨h.covered, h.clean, curLsn, hserial.addReadReplica⟩
  | registerReplica i j => exact ⟨h.covered, h.clean, curLsn, hserial.registerReplica i j⟩
  | promoteToPrimary i => exact absurd hno id
  | acquireLease k =>
    change Committing (sys.acquireLease k)
    unfold ComputeSystem.acquireLease
    rw [hpromotions]
    exact h
  | leaseAcquired k =>
    change Committing (sys.leaseAcquired k)
    unfold ComputeSystem.leaseAcquired
    rw [hpromotions]
    exact h
  | onCommit i commitVersion changes clock =>
    have hserial' := hserial.onCommit i commitVersion changes clock
    refine ⟨?_, ?_, curLsn, hserial'⟩
    · change (sys.onCommit i commitVersion changes clock).storage.Covered
      unfold ComputeSystem.onCommit
      split
      · exact h.covered
      · split_ifs
        · exact h.covered.step _
        · exact h.covered
    · change (sys.onCommit i commitVersion changes clock).storage.Clean
      unfold ComputeSystem.onCommit
      split
      · exact h.clean
      · split_ifs
        · exact h.clean.step _ trivial
        · exact h.clean
  | commitAcked k =>
    have hstorage : (sys.commitAcked k).storage = sys.storage := by
      unfold ComputeSystem.commitAcked
      split
      · rfl
      · simp only
        split
        · obtain ⟨nodes, heq, _⟩ := foldl_updateNode _ _ _
          rw [heq]
        · rfl
        · rfl
    have hserial' := hserial.commitAcked h.covered k
    exact ⟨hstorage ▸ h.covered, hstorage ▸ h.clean, hserial'⟩
  | storage action =>
    cases action with
    | start request => exact h
    | handle c i => exact h.storage (fun _ heq => by cases heq) hclean
    | receive c a => exact h.storage (fun _ heq => by cases heq) hclean
    | setState i state => exact h.storage (fun _ heq => by cases heq) hclean
    | materialize i => exact h.storage (fun _ heq => by cases heq) hclean
    | getKey mapName key readVersion => exact h.storage (fun _ heq => by cases heq) hclean
    | scanRange mapName startKey endKey readVersion =>
      exact h.storage (fun _ heq => by cases heq) hclean

/-- Records with the same LSN are the same, in whichever logs they are. -/
def UniqueLsns (sys : FleetSystem) : Prop :=
  ∀ (i j : Nat) (node peer : SmartStorageNode), sys.fleet.nodes[i]? = some node →
    sys.fleet.nodes[j]? = some peer → ∀ rec ∈ node.walBuffer, ∀ rec' ∈ peer.walBuffer,
      rec.lsn = rec'.lsn → rec = rec'

def PutByUnfailed (sys : FleetSystem) (name : String) (key : Key) (val : List UInt8) : Prop :=
  ∃ c, ¬ sys.Failed c ∧ ∃ rec ∈ sys.batch c, rec.Puts name key val

def ReadsUnfailed (sys : FleetSystem) : Prop :=
  (∀ name key readVersion val, (sys.fleet.getKeyQuorum name key readVersion).1 = .ok (some val) →
    PutByUnfailed sys name key val) ∧
  ∀ name startKey endKey readVersion entries,
    (sys.fleet.scanRangeQuorum name startKey endKey readVersion).1 = .ok entries →
    ∀ e ∈ entries, PutByUnfailed sys name e.key e.value

theorem Committing.uniqueLsns (h : Committing sys) :
    UniqueLsns sys.storage := by
  obtain ⟨curLsn, hserial⟩ := h.serial
  intro i j node peer hn hp rec hrec rec' hrec' heq
  obtain ⟨c, _, hmem, hnot⟩ := (h.clean i node hn).2 rec hrec
  obtain ⟨c', _, hmem', hnot'⟩ := (h.clean j peer hp).2 rec' hrec'
  have hsame : c = c' := by
    rcases lt_trichotomy c c' with hlt | hcc | hgt
    · exact absurd heq (ne_of_lt (hserial.ordered c c' hlt hnot hnot' rec hmem rec' hmem'))
    · exact hcc
    · exact absurd heq.symm (ne_of_lt (hserial.ordered c' c hgt hnot' hnot rec' hmem' rec hmem))
  subst hsame
  have hnodup : ((sys.storage.batch c).map LogRecord.lsn).Nodup :=
    pairwise_map.mpr ((hserial.distinct c).imp fun hlt => ne_of_lt hlt)
  exact inj_on_of_nodup_map hnodup hmem hmem' heq

theorem Committing.readsUnfailed (h : Committing sys) :
    ReadsUnfailed sys.storage := by
  have hsource : ∀ (i : Nat) (node : SmartStorageNode), sys.storage.fleet.nodes[i]? = some node →
      ∀ name key val, (∃ rec ∈ node.walBuffer, rec.Puts name key val) →
      PutByUnfailed sys.storage name key val := by
    rintro i node hn name key val ⟨rec, hrec, hputs⟩
    obtain ⟨c, _, hmem, hnot⟩ := (h.clean i node hn).2 rec hrec
    exact ⟨c, hnot, rec, hmem, hputs⟩
  constructor
  · intro name key readVersion val hget
    obtain ⟨i, node, _, hn, hon, hans⟩ :=
      firstAnswer_ok (fun node => getKey_isOk node name key readVersion) hget
    exact hsource i node hn name key val ((h.clean i node hn).1.getKey hon hans)
  · intro name startKey endKey readVersion entries hscan e he
    obtain ⟨i, node, _, hn, hon, hans⟩ :=
      firstAnswer_ok (fun node => scanRange_isOk node name startKey endKey readVersion) hscan
    exact hsource i node hn name e.key e.value ((h.clean i node hn).1.scanRange hon hans he)

/-- If no failed append leaves anything behind, LSNs are unique in all the logs, and no read returns
anything of a failed append. -/
theorem uniqueLsns_of_failsClean (fleet : StorageFleet)
    (hnew : ∀ node ∈ fleet.nodes, ∃ nodeId, node = .new nodeId) (actions : List ComputeAction)
    (hno : ∀ action ∈ actions, NoFailover action)
    (hclean : Meets step FailsClean (new fleet) actions) :
    UniqueLsns (runs step (new fleet) actions).storage ∧
      ReadsUnfailed (runs step (new fleet) actions).storage := by
  have hnewInv : Committing (new fleet) :=
    ⟨fun _ h => absurd h not_mem_nil, clean_new hnew, _, serial_new fleet⟩
  have hinv : Committing (runs step (new fleet) actions) :=
    invariant_runs (fun _ action h hgood => h.step action hgood.1 hgood.2) hnewInv
      (hclean.and_mem hno)
  exact ⟨hinv.uniqueLsns, hinv.readsUnfailed⟩

def failingCommit : List ComputeAction :=
  [.storage (.setState 1 .offline), .storage (.setState 2 .offline),
    .onCommit 0 1 [⟨"a", [1], some [10], false⟩] (fun _ => 0)]

def refusals : List ComputeAction :=
  [.storage (.handle 0 1), .storage (.handle 0 2), .storage (.receive 0 0), .storage (.receive 0 0),
    .storage (.receive 0 0), .commitAcked 0, .storage (.setState 1 .online), .storage (.setState 2 .online)]

def nextCommit : List ComputeAction :=
  [.onCommit 0 2 [⟨"a", [1], some [20], false⟩] (fun _ => 0), .storage (.handle 1 1),
    .storage (.handle 1 2), .storage (.receive 1 0), .storage (.receive 1 0), .commitAcked 1]

theorem leavesNothing_receive {sys : FleetSystem} {c a : Nat}
    (h : sys.calls[c]?.all (fun call => call.accepted.isEmpty ||
      call.channel[a]?.all fun answer => !(({ call with channel := call.channel.eraseIdx a }.take
        sys.fleet.config answer).result.any fun r => !Except.isOk r)) = true) :
    sys.LeavesNothing (.receive c a) := by
  intro call answer e hc _ ha herr
  rw [hc, all_some, ha, all_some, herr, Bool.or_eq_true] at h
  rcases h with h | h
  · exact isEmpty_iff.mp h
  · cases h

theorem leavesNothing_handle {sys : FleetSystem} {c i : Nat}
    (h : sys.calls[c]?.all (fun call => call.result.all Except.isOk) = true) :
    sys.LeavesNothing (.handle c i) := by
  rintro ⟨call, e, hc, herr⟩
  rw [hc, all_some, herr] at h
  cases h

/-- The failed commit reaches nobody. -/
theorem uniqueLsns_of_failsClean_nextCommit :
    Meets step FailsClean (new .threeNodes) (failingCommit ++ refusals ++ nextCommit) ∧
      UniqueLsns (runs step (new .threeNodes) (failingCommit ++ refusals ++ nextCommit)).storage := by
  have hclean : Meets step FailsClean (new .threeNodes) (failingCommit ++ refusals ++ nextCommit) := by
    refine ⟨trivial, trivial, trivial, ?_, ?_, ?_, ?_, ?_, trivial, trivial, trivial, trivial, ?_, ?_,
      ?_, ?_, trivial, trivial⟩
    · exact leavesNothing_handle (by decide +kernel)
    · exact leavesNothing_handle (by decide +kernel)
    · exact leavesNothing_receive (by decide +kernel)
    · exact leavesNothing_receive (by decide +kernel)
    · exact leavesNothing_receive (by decide +kernel)
    · exact leavesNothing_handle (by decide +kernel)
    · exact leavesNothing_handle (by decide +kernel)
    · exact leavesNothing_receive (by decide +kernel)
    · exact leavesNothing_receive (by decide +kernel)
  have hno : ∀ action ∈ failingCommit ++ refusals ++ nextCommit, NoFailover action := by
    intro action h
    simp only [failingCommit, refusals, nextCommit, cons_append, nil_append, mem_cons,
      not_mem_nil, or_false] at h
    rcases h with rfl | rfl | rfl | rfl | rfl | rfl | rfl | rfl | rfl | rfl | rfl | rfl | rfl | rfl |
      rfl | rfl | rfl <;> trivial
  exact ⟨hclean, (uniqueLsns_of_failsClean .threeNodes StorageFleet.threeNodes_new _ hno hclean).1⟩

def failedCommit : List ComputeAction :=
  failingCommit ++ [.storage (.handle 0 0)] ++ refusals ++ nextCommit

/-- The next commit uses its LSNs again, and a read at the committed LSN returns its value. -/
theorem failed_commit_survives :
    (runs step (new .threeNodes) failedCommit).storage.calls.map
      (fun call => call.result.map Except.isOk) = [some false, some true] ∧
    (runs step (new .threeNodes) failedCommit).storage.fleet.nodes.map
      (fun node => node.walBuffer.map fun rec => (rec.lsn, rec.value)) =
      [[(1, some [10]), (2, none)], [(1, some [20]), (2, none)], [(1, some [20]), (2, none)]] ∧
    ¬ UniqueLsns (runs step (new .threeNodes) failedCommit).storage ∧
    (runs step (new .threeNodes) failedCommit).storage.fleet.latestCommittedLsn = 2 ∧
    ((runs step (new .threeNodes) failedCommit).storage.fleet.getKeyQuorum "a" [1] 2).1 =
      .ok (some [10]) := by
  refine ⟨by decide +kernel, by decide +kernel, fun hunique => ?_, by decide +kernel,
    by decide +kernel⟩
  have heq := hunique 0 1 _ _ rfl rfl (.put 1 0 1 "a" [1] [10] 0) (by decide +kernel)
    (.put 1 0 2 "a" [1] [20] 0) (by decide +kernel) rfl
  cases heq

end ComputeSystem

end Storage

end H2Database
