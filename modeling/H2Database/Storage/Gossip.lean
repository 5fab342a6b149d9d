import H2Database.Storage.Threads

/-!
# Gossip repair

Repair lets every node ask every other one for the records past its own flushed LSN.  A node that
missed a batch and got a later one has a flushed LSN past the batch, and never asks for it.  Repair
makes all logs complete exactly if no node has such a hole.
-/

namespace H2Database.Storage

open Mvstore Reasoning List Nat

namespace SmartStorageNode

theorem materializePending_frame (node : SmartStorageNode) :
    node.materializePending.2.walBuffer = node.walBuffer ∧
      node.materializePending.2.flushedLsn = node.flushedLsn ∧
      node.materializePending.2.state = node.state := by
  unfold materializePending
  split_ifs <;> exact ⟨rfl, rfl, rfl⟩

theorem gossipSyncFrom_spec {node : SmartStorageNode} (hon : node.state ≠ .offline)
    (peer : SmartStorageNode) :
    (node.gossipSyncFrom peer).2.walBuffer = node.walBuffer ++ node.missingLogs peer ∧
      (node.gossipSyncFrom peer).2.flushedLsn = maxLsn node.flushedLsn (node.missingLogs peer) ∧
      (node.gossipSyncFrom peer).2.state = node.state := by
  unfold gossipSyncFrom
  rw [if_neg hon]
  have hnil : ∀ hmissing : node.missingLogs peer = [],
      node.walBuffer = node.walBuffer ++ node.missingLogs peer ∧
        node.flushedLsn = maxLsn node.flushedLsn (node.missingLogs peer) ∧ node.state = node.state := by
    intro hmissing
    rw [hmissing, append_nil]
    exact ⟨rfl, rfl, rfl⟩
  split_ifs with hle hlen
  · refine hnil (filter_eq_nil_iff.mpr fun rec _ hrec => ?_)
    obtain ⟨hlt, hle'⟩ := of_decide_eq_true hrec
    exact not_lt.mpr (le_trans hle' hle) hlt
  · exact hnil (eq_nil_of_length_eq_zero hlen)
  · exact materializePending_frame _

theorem mem_missingLogs {node peer : SmartStorageNode} {rec : LogRecord} :
    rec ∈ node.missingLogs peer ↔
      rec ∈ peer.walBuffer ∧ node.flushedLsn < rec.lsn ∧ rec.lsn ≤ peer.flushedLsn := by
  unfold missingLogs
  rw [mem_filter, decide_eq_true_eq]

end SmartStorageNode

/-! ## One step of the repair -/

namespace StorageFleet

def Flushed (fleet : StorageFleet) : Prop :=
  ∀ (i : Nat) (node : SmartStorageNode), fleet.nodes[i]? = some node →
    ∀ rec ∈ node.walBuffer, rec.lsn ≤ node.flushedLsn

/-- No node lacks a record at or below its flushed LSN that another node holds. -/
def NoHoles (fleet : StorageFleet) : Prop :=
  ∀ (i j : Nat) (node peer : SmartStorageNode), fleet.nodes[i]? = some node →
    fleet.nodes[j]? = some peer → ∀ rec ∈ peer.walBuffer, rec.lsn ≤ node.flushedLsn → rec ∈ node.walBuffer

def Online (fleet : StorageFleet) : Prop :=
  ∀ (i : Nat) (node : SmartStorageNode), fleet.nodes[i]? = some node → node.state = .online

/-- Node `k` is there and holds the record. -/
def HoldsRecord (fleet : StorageFleet) (k : Nat) (rec : LogRecord) : Prop :=
  ∃ node, fleet.nodes[k]? = some node ∧ rec ∈ node.walBuffer

structure Sound (fleet : StorageFleet) : Prop where
  online : fleet.Online
  flushed : fleet.Flushed

def gossipStep (fleet : StorageFleet) (ij : Nat × Nat) : StorageFleet := (fleet.gossip ij.1 ij.2).2

/-- Node `k` after the step. -/
def fetched (fleet : StorageFleet) (ij : Nat × Nat) (k : Nat) (node : SmartStorageNode) : SmartStorageNode :=
  match fleet.nodes[ij.2]? with
  | none => node
  | some peer => if k = ij.1 then (node.gossipSyncFrom peer).2 else node

theorem nodes_gossipStep (fleet : StorageFleet) (ij : Nat × Nat) (k : Nat) :
    (fleet.gossipStep ij).nodes[k]? = (fleet.nodes[k]?).map (fleet.fetched ij k) := by
  unfold gossipStep gossip fetched
  cases hp : fleet.nodes[ij.2]? with
  | none => cases fleet.nodes[ij.1]? <;> exact Option.map_id'.symm
  | some peer =>
    by_cases hki : k = ij.1
    · subst hki
      cases hn : fleet.nodes[ij.1]? with
      | none => exact hn
      | some node =>
        simp only [if_true]
        split
        · rename_i heq
          rw [getElem?_updateNode, if_pos rfl, hn]
          exact (congrArg (fun p => some p.2) heq).symm
        · rename_i heq
          rw [getElem?_updateNode, if_pos rfl, hn]
          exact (congrArg (fun p => some p.2) heq).symm
    · simp only [if_neg hki]
      rw [Option.map_id']
      split
      · split <;> rw [getElem?_updateNode, if_neg hki]
      · rfl

/-- A log becomes longer by what the other node holds past the flushed LSN. -/
structure Fetches (fleet : StorageFleet) (j : Nat) (node node' : SmartStorageNode)
    (missing : List LogRecord) : Prop where
  log : node'.walBuffer = node.walBuffer ++ missing
  flushed : node'.flushedLsn = SmartStorageNode.maxLsn node.flushedLsn missing
  state : node'.state = node.state
  held : ∀ rec ∈ missing, ∃ peer, fleet.nodes[j]? = some peer ∧ missing = node.missingLogs peer ∧
    rec ∈ peer.walBuffer ∧ node.flushedLsn < rec.lsn ∧ rec.lsn ≤ peer.flushedLsn

variable {fleet : StorageFleet} {i j k : Nat} {node node' peer : SmartStorageNode} {rec : LogRecord}

section

variable (hs : fleet.Sound)

include hs

theorem Sound.ne_offline (hk : fleet.nodes[k]? = some node) : node.state ≠ .offline :=
  hs.online k node hk ▸ NodeState.noConfusion

theorem Sound.fetches (ij : Nat × Nat) (hk : fleet.nodes[k]? = some node) :
    ∃ missing, Fetches fleet ij.2 node (fleet.fetched ij k node) missing := by
  have hsame : Fetches fleet ij.2 node node [] :=
    ⟨(append_nil _).symm, rfl, rfl, fun _ h => absurd h not_mem_nil⟩
  unfold fetched
  split
  · exact ⟨[], hsame⟩
  · rename_i peer hp
    split_ifs
    · obtain ⟨hlog, hflushed, hstate⟩ := SmartStorageNode.gossipSyncFrom_spec (hs.ne_offline hk) peer
      exact ⟨_, hlog, hflushed, hstate, fun rec hrec =>
        ⟨peer, hp, rfl, SmartStorageNode.mem_missingLogs.mp hrec⟩⟩
    · exact ⟨[], hsame⟩

theorem Sound.before {ij : Nat × Nat} (hk : (fleet.gossipStep ij).nodes[k]? = some node') :
    ∃ node missing, fleet.nodes[k]? = some node ∧ Fetches fleet ij.2 node node' missing := by
  rw [nodes_gossipStep] at hk
  obtain ⟨node, hn, rfl⟩ := Option.map_eq_some_iff.mp hk
  obtain ⟨missing, h⟩ := hs.fetches ij hn
  exact ⟨node, missing, hn, h⟩

theorem Sound.after (hk : fleet.nodes[k]? = some node) (ij : Nat × Nat) :
    ∃ node' missing, (fleet.gossipStep ij).nodes[k]? = some node' ∧
      Fetches fleet ij.2 node node' missing := by
  obtain ⟨missing, h⟩ := hs.fetches ij hk
  exact ⟨_, missing, by rw [nodes_gossipStep, hk]; rfl, h⟩

theorem Sound.step (ij : Nat × Nat) : (fleet.gossipStep ij).Sound := by
  constructor
  · intro k node' hk
    obtain ⟨node, missing, hn, h⟩ := hs.before hk
    exact h.state.trans (hs.online k node hn)
  · intro k node' hk rec hrec
    obtain ⟨node, missing, hn, h⟩ := hs.before hk
    rw [h.log] at hrec
    rw [h.flushed]
    rcases mem_append.mp hrec with hold | hnew
    · exact le_trans (hs.flushed k node hn rec hold) (SmartStorageNode.le_maxLsn _ _)
    · exact SmartStorageNode.lsn_le_maxLsn hnew _

theorem NoHoles.step (h : fleet.NoHoles) (ij : Nat × Nat) : (fleet.gossipStep ij).NoHoles := by
  intro k l node' peer' hk hl rec hrec hle
  obtain ⟨node, missing, hn, hnode⟩ := hs.before hk
  obtain ⟨peer, missing', hp, hpeer⟩ := hs.before hl
  -- whoever holds the record afterwards, somebody held it before
  obtain ⟨m, holder, hm, hheld⟩ : ∃ m, fleet.HoldsRecord m rec := by
    rw [hpeer.log] at hrec
    rcases mem_append.mp hrec with hold | hnew
    · exact ⟨l, peer, hp, hold⟩
    · obtain ⟨other, hj, -, hother, -⟩ := hpeer.held rec hnew
      exact ⟨ij.2, other, hj, hother⟩
  rw [hnode.log]
  rw [hnode.flushed] at hle
  by_cases hbefore : rec.lsn ≤ node.flushedLsn
  · exact mem_append_left _ (h k m node holder hn hm rec hheld hbefore)
  · rcases SmartStorageNode.maxLsn_cases node.flushedLsn missing with heq | ⟨top, htop, heq⟩
    · exact absurd (heq ▸ hle) hbefore
    · obtain ⟨other, hj, rfl, -, -, htop⟩ := hnode.held top htop
      have hother : rec.lsn ≤ other.flushedLsn := le_trans (heq ▸ hle) htop
      refine mem_append_right _ (SmartStorageNode.mem_missingLogs.mpr ⟨?_, ?_, hother⟩)
      · exact h ij.2 m other holder hj hm rec hheld hother
      · exact Nat.lt_of_not_le hbefore

end

/-! ## The whole repair -/

theorem runGossipRepair_snd (fleet : StorageFleet) :
    fleet.runGossipRepair.2 = runs gossipStep fleet (repairOrder fleet.nodes.length) := by
  unfold runGossipRepair runs
  generalize repairOrder fleet.nodes.length = pairs
  generalize 0 = count
  induction pairs generalizing fleet count with
  | nil => rfl
  | cons ij pairs ih => exact ih _ _

/-- Node `k` is there, lacks the record and is past it. -/
def HasHole (fleet : StorageFleet) (k : Nat) (rec : LogRecord) : Prop :=
  ∃ node, fleet.nodes[k]? = some node ∧ rec ∉ node.walBuffer ∧ rec.lsn ≤ node.flushedLsn

theorem HoldsRecord.step (hs : fleet.Sound) (h : fleet.HoldsRecord k rec)
    (ij : Nat × Nat) : (fleet.gossipStep ij).HoldsRecord k rec := by
  obtain ⟨node, hk, hrec⟩ := h
  obtain ⟨node', missing, hk', hf⟩ := hs.after hk ij
  exact ⟨node', hk', hf.log ▸ mem_append_left _ hrec⟩

theorem HasHole.step (hs : fleet.Sound) (h : fleet.HasHole k rec) (ij : Nat × Nat) :
    (fleet.gossipStep ij).HasHole k rec := by
  obtain ⟨node, hk, hrec, hle⟩ := h
  obtain ⟨node', missing, hk', hf⟩ := hs.after hk ij
  refine ⟨node', hk', fun hmem => ?_, hf.flushed ▸ le_trans hle (SmartStorageNode.le_maxLsn _ _)⟩
  rw [hf.log] at hmem
  rcases mem_append.mp hmem with hold | hnew
  · exact hrec hold
  · obtain ⟨_, _, _, _, hlt, _⟩ := hf.held rec hnew
    exact not_lt.mpr hle hlt

theorem HoldsRecord.of_gossip (hs : fleet.Sound) (hno : fleet.NoHoles) (hn : fleet.nodes[i]? = some node)
    (h : fleet.HoldsRecord j rec) : (fleet.gossipStep (i, j)).HoldsRecord i rec := by
  obtain ⟨peer, hp, hrec⟩ := h
  refine ⟨(node.gossipSyncFrom peer).2, by simp [nodes_gossipStep, hn, fetched, hp], ?_⟩
  rw [(SmartStorageNode.gossipSyncFrom_spec (hs.ne_offline hn) peer).1]
  by_cases hle : rec.lsn ≤ node.flushedLsn
  · exact mem_append_left _ (hno i j node peer hn hp rec hrec hle)
  · refine mem_append_right _ (SmartStorageNode.mem_missingLogs.mpr ⟨hrec, ?_, ?_⟩)
    · exact Nat.lt_of_not_le hle
    · exact hs.flushed j peer hp rec hrec

theorem mem_repairOrder {n : Nat} : (i, j) ∈ repairOrder n ↔ i < n ∧ j < n ∧ j ≠ i := by
  unfold repairOrder
  simp only [mem_flatMap, mem_map, mem_filter, mem_range, Prod.mk.injEq,
    decide_eq_true_eq]
  constructor
  · rintro ⟨i', hi, j', ⟨hj, hne⟩, rfl, rfl⟩
    exact ⟨hi, hj, hne⟩
  · rintro ⟨hi, hj, hne⟩
    exact ⟨i, hi, j, ⟨hj, hne⟩, rfl, rfl⟩

theorem HoldsRecord.runs (hs : fleet.Sound) (h : fleet.HoldsRecord k rec) (pairs : List (Nat × Nat)) :
    (Reasoning.runs gossipStep fleet pairs).HoldsRecord k rec :=
  (runs_invariant (fun (f : StorageFleet) ij (h : f.Sound ∧ f.HoldsRecord k rec) =>
    ⟨h.1.step ij, h.2.step h.1 ij⟩) ⟨hs, h⟩ pairs).2

/-- After the repair, every node holds every record that any node held. -/
def Repaired (fleet : StorageFleet) : Prop :=
  ∀ i < fleet.nodes.length, ∀ j rec, fleet.HoldsRecord j rec →
    fleet.runGossipRepair.2.HoldsRecord i rec

theorem repaired_of_noHoles (hs : fleet.Sound) (hno : fleet.NoHoles) :
    fleet.Repaired := by
  intro i hi j rec hrec
  rw [runGossipRepair_snd]
  have hj : j < fleet.nodes.length := by
    obtain ⟨peer, hp, _⟩ := hrec
    exact (List.getElem?_eq_some_iff.mp hp).1
  by_cases hij : j = i
  · subst hij
    exact hrec.runs hs _
  · -- the repair up to the turn of the pair, its turn, and the rest
    obtain ⟨before, after, hsplit⟩ := append_of_mem (mem_repairOrder.mpr ⟨hi, hj, hij⟩)
    rw [hsplit, runs_append, runs_cons]
    obtain ⟨hsound, hnoHoles, hthere⟩ := runs_invariant
      (fun (f : StorageFleet) ij (h : f.Sound ∧ f.NoHoles ∧ f.nodes[i]?.isSome = true) =>
        ⟨h.1.step ij, h.2.1.step h.1 ij, by rw [nodes_gossipStep, Option.isSome_map]; exact h.2.2⟩)
      ⟨hs, hno, by rw [getElem?_eq_getElem hi]; rfl⟩ before
    obtain ⟨node, hn⟩ := Option.isSome_iff_exists.mp hthere
    exact (HoldsRecord.of_gossip hsound hnoHoles hn (hrec.runs hs before)).runs (hsound.step _) after

theorem noHoles_of_repaired (hs : fleet.Sound) (h : fleet.Repaired) :
    fleet.NoHoles := by
  intro i j node peer hn hp rec hrec hle
  by_contra hmem
  have hhole : fleet.HasHole i rec := ⟨node, hn, hmem, hle⟩
  have hend := (runs_invariant (fun (f : StorageFleet) ij (h : f.Sound ∧ f.HasHole i rec) =>
    ⟨h.1.step ij, h.2.step h.1 ij⟩) ⟨hs, hhole⟩ (repairOrder fleet.nodes.length)).2
  obtain ⟨node₁, hn₁, hheld⟩ := h i (List.getElem?_eq_some_iff.mp hn).1 j rec ⟨peer, hp, hrec⟩
  obtain ⟨node₂, hn₂, hlacks, _⟩ := hend
  rw [runGossipRepair_snd] at hn₁
  cases hn₁.symm.trans hn₂
  exact hlacks hheld

/-! ## A fleet and the threads of its nodes -/

inductive FleetEvent where
  /-- a call of the fleet, which sends the request to every node -/
  | call (request : Request)
  | node (i : Nat) (action : ServedAction)

/-- What the event is for node `i`. -/
def FleetEvent.actionsOf (i : Nat) : FleetEvent → List ServedAction
  | .call request => [.arrive request]
  | .node j action => if j = i then [action] else []

/-- Node `i` after a history: the nodes share nothing but the calls. -/
def served (history : List FleetEvent) (i : Nat) (node : SmartStorageNode) : ServedNode :=
  runs ServedNode.step ⟨node, [], none⟩ (history.flatMap (·.actionsOf i))

def after (fleet : StorageFleet) (history : List FleetEvent) : StorageFleet :=
  { fleet with
    nodes := fleet.nodes.mapIdx fun i node => (served history i node).node
    count := length_mapIdx.trans fleet.count }

/-- No thread ever lowers the flushed LSN of its node, and in the end no request is being served. -/
def Settles (fleet : StorageFleet) (history : List FleetEvent) : Prop :=
  ∀ i < fleet.nodes.length, ∀ node ∈ fleet.nodes[i]?,
    Meets ServedNode.step ServedNode.Raises ⟨node, [], none⟩ (history.flatMap (·.actionsOf i)) ∧
      ∀ thread ∈ (served history i node).threads, thread.stage = .ended

/-- After a history of a new fleet, once all nodes are online, a repair makes all logs complete exactly if no
node has a hole. -/
theorem repaired_iff_noHoles (fleet : StorageFleet)
    (hnew : ∀ node ∈ fleet.nodes, ∃ nodeId, node = .new nodeId)
    (history : List FleetEvent) (hsettles : fleet.Settles history) (hon : (fleet.after history).Online) :
    (fleet.after history).Repaired ↔ (fleet.after history).NoHoles := by
  have hflushed : (fleet.after history).Flushed := by
    intro i node' hi
    rw [after, getElem?_mapIdx] at hi
    obtain ⟨node, hn, rfl⟩ := Option.map_eq_some_iff.mp hi
    obtain ⟨hraises, hended⟩ := hsettles i (List.getElem?_eq_some_iff.mp hn).1 node hn
    obtain ⟨nodeId, rfl⟩ := hnew node (mem_of_getElem? hn)
    have hcovered : (served history i (.new nodeId)).Covered :=
      invariant_runs (fun _ action h hin => h.step action hin) (ServedNode.covered_new nodeId) hraises
    exact hcovered.flushed hended
  exact ⟨noHoles_of_repaired ⟨hon, hflushed⟩, repaired_of_noHoles ⟨hon, hflushed⟩⟩

theorem online_of_forall (h : ∀ node ∈ fleet.nodes, node.state = .online) : fleet.Online :=
  fun _ node hn => h node (mem_of_getElem? hn)

theorem settles_of_canStore {history : List FleetEvent}
    (h : ∀ i < fleet.nodes.length, ∀ node ∈ fleet.nodes[i]?,
      Meets ServedNode.step (fun s _ => s.canStore = true) ⟨node, [], none⟩
        (history.flatMap (·.actionsOf i)) ∧
        ∀ thread ∈ (served history i node).threads, thread.stage = .ended) : fleet.Settles history :=
  fun i hi node hn => ⟨(h i hi node hn).1.imp fun _ action hs => ServedNode.raises_of_canStore hs action,
    (h i hi node hn).2⟩

/-- The threads of a call, one after the other. -/
def handled (call : Nat) : List FleetEvent :=
  [0, 1, 2].flatMap fun i => List.replicate 5 (.node i (.advance call))

def outage : List FleetEvent :=
  [.node 0 (.setState .offline), .call (.append [.put 1 0 1 "a" [1] [10] 0] 1)] ++ handled 0 ++
    [.node 0 (.setState .online)]

theorem repaired_iff_noHoles_outage : (threeNodes.after outage).Online ∧
    ((threeNodes.after outage).Repaired ↔ (threeNodes.after outage).NoHoles) := by
  have hon : (threeNodes.after outage).Online := online_of_forall (by decide +kernel)
  have hsettles : threeNodes.Settles outage := settles_of_canStore (by decide +kernel)
  exact ⟨hon, repaired_iff_noHoles threeNodes threeNodes_new outage hsettles hon⟩

def outageThenWrite : List FleetEvent :=
  outage ++ [.call (.append [.put 2 1 2 "a" [2] [20] 0] 1)] ++ handled 1

theorem hole_not_repaired : (threeNodes.after outageThenWrite).Online ∧ threeNodes.Settles outageThenWrite ∧
    (threeNodes.after outageThenWrite).HoldsRecord 1 (.put 1 0 1 "a" [1] [10] 0) ∧
      ¬ (threeNodes.after outageThenWrite).Repaired := by
  have hheld : (threeNodes.after outageThenWrite).HoldsRecord 1 (.put 1 0 1 "a" [1] [10] 0) :=
    ⟨_, rfl, by decide +kernel⟩
  have hlacks : ∀ node ∈ (threeNodes.after outageThenWrite).runGossipRepair.2.nodes[0]?,
      .put 1 0 1 "a" [1] [10] 0 ∉ node.walBuffer := by decide +kernel
  refine ⟨online_of_forall (by decide +kernel), settles_of_canStore (by decide +kernel), hheld, fun h => ?_⟩
  obtain ⟨node, hn, hrec⟩ := h 0 (by decide +kernel) 1 _ hheld
  exact hlacks node hn hrec

end StorageFleet

end H2Database.Storage
