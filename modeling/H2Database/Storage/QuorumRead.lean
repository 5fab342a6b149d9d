import H2Database.Storage.Arrival

/-!
# Reads after quorum writes

A write is acknowledged by a quorum of the nodes, but a read takes the answer of the first node that is
not offline, which may have missed the write.  If that node has accepted the write, and batches reach
the nodes in order, the read sees it.
-/

namespace H2Database.Storage

open Mvstore Reasoning List

namespace FleetSystem

/-- The records that call `c` appends. -/
def batch (sys : FleetSystem) (c : Nat) : List LogRecord :=
  match sys.calls[c]?.map QuorumCall.request with
  | some (.append records _) => records
  | _ => []

/-- Node `i` has accepted call `c`. -/
def Reached (sys : FleetSystem) (c i : Nat) : Prop :=
  ∃ call, sys.calls[c]? = some call ∧ i ∈ call.accepted

variable {sys : FleetSystem} {node : SmartStorageNode}

theorem Reached.lt {c i : Nat} (h : sys.Reached c i) : c < sys.calls.length := by
  obtain ⟨call, hc, _⟩ := h
  exact (List.getElem?_eq_some_iff.mp hc).1

variable {sys' : FleetSystem}

theorem Effect.batch {action : FleetAction} (h : Effect sys action sys') {c : Nat}
    (hc : c < sys.calls.length) : sys'.batch c = sys.batch c := by
  have hat := getElem?_eq_getElem hc
  obtain ⟨call', hc', hreq⟩ := h.request hat
  unfold FleetSystem.batch
  rw [hat, hc', Option.map_some, Option.map_some, hreq]

/-! ## The order of arrival -/

/-- The calls that node `i` has accepted, in the order of their arrival: those that have been applied
and those that are pending.  A call that was overtaken by a later one has no key in common with it. -/
structure Arrived (sys : FleetSystem) (i : Nat) (node : SmartStorageNode) (done todo : List Nat) :
    Prop where
  logged : node.Logged (done.flatMap sys.batch) (todo.flatMap sys.batch)
  nodup : (done ++ todo).Nodup
  reached : ∀ c, c ∈ done ++ todo ↔ sys.Reached c i
  ordered : (done ++ todo).Pairwise fun c c' => c' < c →
    ∀ rec ∈ sys.batch c, ∀ rec' ∈ sys.batch c', ¬ Clash rec rec'

def InOrder (sys : FleetSystem) : Prop :=
  ∀ i node, sys.fleet.nodes[i]? = some node → ∃ done todo, sys.Arrived i node done todo

/-- A node accepts a batch only before anything newer has been applied and before any later call with
a key in common has arrived. -/
def DeliveredInOrder (sys : FleetSystem) : FleetAction → Prop
  | .handle c i => ∀ call node, sys.calls[c]? = some call → sys.fleet.nodes[i]? = some node →
      i ∈ call.waiting → (call.request.serve node).1.isOk = true →
      (∀ rec ∈ sys.batch c, node.appliedLsn < rec.lsn) ∧
      ∀ c', c < c' → sys.Reached c' i →
        ∀ rec' ∈ sys.batch c', ∀ rec ∈ sys.batch c, ¬ Clash rec' rec
  | _ => True

variable {fleet : StorageFleet}

theorem inOrder_new (hnew : ∀ node ∈ fleet.nodes, ∃ nodeId, node = .new nodeId) : InOrder (new fleet) := by
  intro i node hn
  obtain ⟨nodeId, rfl⟩ := hnew node (mem_of_getElem? hn)
  refine ⟨[], [], SmartStorageNode.logged_new nodeId, nodup_nil, fun c => ?_, .nil⟩
  refine ⟨fun h => absurd h not_mem_nil, ?_⟩
  rintro ⟨call, hc, _⟩
  cases hc

variable {done todo : List Nat}

theorem Arrived.congr {i : Nat} (h : Arrived sys i node done todo)
    (hbatch : ∀ c, sys.Reached c i → sys'.batch c = sys.batch c)
    (hreached : ∀ c, sys'.Reached c i ↔ sys.Reached c i) : Arrived sys' i node done todo := by
  have hdone : done.flatMap sys'.batch = done.flatMap sys.batch :=
    flatMap_congr fun c hc => hbatch c ((h.reached c).mp (mem_append_left _ hc))
  have htodo : todo.flatMap sys'.batch = todo.flatMap sys.batch :=
    flatMap_congr fun c hc => hbatch c ((h.reached c).mp (mem_append_right _ hc))
  refine ⟨?_, h.nodup, fun c => (h.reached c).trans (hreached c).symm, ?_⟩
  · rw [hdone, htodo]
    exact h.logged
  · refine (List.Pairwise.and_mem.mp h.ordered).imp ?_
    rintro c c' ⟨hc, hc', hord⟩
    rw [hbatch c ((h.reached c).mp hc), hbatch c' ((h.reached c').mp hc')]
    exact hord

theorem Arrived.aside {i : Nat} {node' : SmartStorageNode}
    (h : Arrived sys i node done todo) (ha : SmartStorageNode.Aside node node') :
    ∃ done todo, Arrived sys i node' done todo := by
  rcases h.logged.aside ha with hlog | hlog
  · exact ⟨done, todo, hlog, h.nodup, h.reached, h.ordered⟩
  · refine ⟨done ++ todo, [], ?_, ?_, ?_, ?_⟩
    · rw [flatMap_append]
      exact hlog
    · rw [append_nil]
      exact h.nodup
    · rw [append_nil]
      exact h.reached
    · rw [append_nil]
      exact h.ordered

variable {request : Request}

theorem serve_logged {done todo : List LogRecord} (h : node.Logged done todo) {records : List LogRecord}
    (hrec : records = match request with | .append records _ => records | .lease _ => [])
    (hok : (request.serve node).1.isOk = true) (hnew : ∀ rec ∈ records, node.appliedLsn < rec.lsn) :
    (request.serve node).2.Logged done (todo ++ records) := by
  cases request with
  | lease token =>
    subst hrec
    rw [append_nil]
    exact h.acquireLease token
  | append records' token =>
    subst hrec
    exact h.append hok hnew

theorem serve_of_error (h : (request.serve node).1.isOk = false) : (request.serve node).2 = node := by
  cases request with
  | lease token =>
    unfold Request.serve SmartStorageNode.acquireLease at h ⊢
    simp only at h ⊢
    split_ifs at h ⊢
    · rfl
    · cases h
  | append records token => exact SmartStorageNode.appendLogs_of_error h

theorem batch_of_call {c : Nat} {call : QuorumCall} (hc : sys.calls[c]? = some call) : sys.batch c =
      match call.request with
      | .append records _ => records
      | .lease _ => [] := by
  unfold batch
  rw [hc, Option.map_some]
  cases call.request <;> rfl

theorem reached_started {c i : Nat} : (sys.step (.start request)).Reached c i ↔ sys.Reached c i := by
  have hcalls : (sys.step (.start request)).calls = sys.calls ++
    [.start request sys.fleet.nodes.length sys.fleet.latestCommittedLsn] := rfl
  unfold Reached
  rw [hcalls]
  constructor
  · rintro ⟨call, hc, hi⟩
    rcases concat_cases hc with hc | ⟨_, rfl⟩
    · exact ⟨call, hc, hi⟩
    · rw [QuorumCall.start_accepted] at hi
      cases hi
  · rintro ⟨call, hc, hi⟩
    exact ⟨call, concat_of_some hc _, hi⟩

theorem reached_set {c : Nat} {call call' : QuorumCall}
    (hc : sys.calls[c]? = some call) {j : Nat} (hacc : j ∈ call'.accepted ↔ j ∈ call.accepted) (c' : Nat) :
    Reached ⟨fleet, sys.calls.set c call'⟩ c' j ↔ sys.Reached c' j := by
  have hlt := (List.getElem?_eq_some_iff.mp hc).1
  unfold Reached
  by_cases hcc : c = c'
  · subst hcc
    simp only [getElem?_set_self hlt, hc, Option.some.injEq, exists_eq_left']
    exact hacc
  · simp only [getElem?_set_ne hcc]

theorem accepted_answered (call : QuorumCall) (i : Nat) (answer : H2Result Lsn) :
    (call.answered i answer).accepted =
      if answer.isOk then i :: call.accepted else call.accepted := rfl

theorem Arrived.handled {c i : Nat} {call : QuorumCall} (h : Arrived sys i node done todo)
    (hc : sys.calls[c]? = some call) (hn : sys.fleet.nodes[i]? = some node)
    (hi : i ∈ call.waiting) (hfresh : i ∉ call.accepted) (hin : sys.DeliveredInOrder (.handle c i))
    (hsys' : sys' = ⟨fleet, sys.calls.set c (call.answered i (call.request.serve node).1)⟩)
    (hbatch : ∀ c, c < sys.calls.length → sys'.batch c = sys.batch c) :
    ∃ done todo, Arrived sys' i (call.request.serve node).2 done todo := by
  have hlt := (List.getElem?_eq_some_iff.mp hc).1
  cases hok : (call.request.serve node).1.isOk with
  | false =>
    rw [serve_of_error hok]
    refine ⟨done, todo, h.congr (fun c hr => hbatch c hr.lt) fun c' => ?_⟩
    rw [hsys']
    refine reached_set hc ?_ c'
    rw [accepted_answered, hok]
    exact Iff.rfl
  | true =>
    obtain ⟨hnew, hafter⟩ := hin call node hc hn hi hok
    have hnot : c ∉ done ++ todo := by
      intro hmem
      obtain ⟨call', hc', hacc⟩ := (h.reached c).mp hmem
      cases hc.symm.trans hc'
      exact hfresh hacc
    have hsame : ∀ c' ∈ done ++ todo ++ [c], sys'.batch c' = sys.batch c' := by
      intro c' hc'
      rcases mem_append.mp hc' with hmem | hmem
      · exact hbatch c' ((h.reached c').mp hmem).lt
      · rw [mem_singleton.mp hmem]
        exact hbatch c hlt
    refine ⟨done, todo ++ [c], ?_, ?_, ?_, ?_⟩
    · have hlogged := serve_logged h.logged (batch_of_call hc) hok hnew
      have hdone : done.flatMap sys'.batch = done.flatMap sys.batch :=
        flatMap_congr fun c' hc' => hsame c' (by simp [hc'])
      have htodo : (todo ++ [c]).flatMap sys'.batch = todo.flatMap sys.batch ++ sys.batch c := by
        rw [flatMap_append, flatMap_singleton, hsame c (by simp)]
        congr 1
        exact flatMap_congr fun c' hc' => hsame c' (by simp [hc'])
      rw [hdone, htodo]
      exact hlogged
    · rw [← append_assoc]
      exact nodup_append.mpr ⟨h.nodup, nodup_singleton c, fun a ha b hb heq => by
        rw [mem_singleton.mp hb] at heq
        exact hnot (heq ▸ ha)⟩
    · intro c'
      rw [← append_assoc, mem_append, h.reached, mem_singleton, hsys']
      by_cases hcc : c' = c
      · subst hcc
        refine ⟨fun _ => ⟨_, getElem?_set_self hlt, ?_⟩, fun _ => Or.inr rfl⟩
        rw [accepted_answered, hok]
        exact mem_cons_self
      · unfold Reached
        simp only [getElem?_set_ne (Ne.symm hcc), hcc, or_false]
    · rw [← append_assoc]
      refine pairwise_append.mpr ⟨?_, pairwise_singleton _ _, ?_⟩
      · refine (List.Pairwise.and_mem.mp h.ordered).imp ?_
        rintro a b ⟨ha, hb, hord⟩
        rw [hsame a (mem_append_left _ ha), hsame b (mem_append_left _ hb)]
        exact hord
      · intro a ha b hb hlt'
        rw [mem_singleton] at hb
        subst hb
        rw [hsame a (mem_append_left _ ha), hsame b (by simp)]
        exact hafter a hlt' ((h.reached a).mp ha)

theorem InOrder.step (h : sys.InOrder) (ht : sys.Tallied) (action : FleetAction)
    (hin : sys.DeliveredInOrder action) : (sys.step action).InOrder := by
  have he := sys.step_effect action
  have hbatch : ∀ c, c < sys.calls.length → (sys.step action).batch c = sys.batch c :=
    fun c hc => he.batch hc
  generalize hsys' : sys.step action = sys' at he hbatch
  intro j node' hn'
  cases he with
  | idle => exact h j node' hn'
  | started request =>
    obtain ⟨done, todo, harr⟩ := h j node' hn'
    exact ⟨done, todo, harr.congr (fun c hr => hbatch c hr.lt) fun c => reached_started⟩
  | @handled c i call node hc hn hi =>
    rw [StorageFleet.getElem?_updateNode] at hn'
    split_ifs at hn' with hij
    · subst hij
      rw [hn, Option.map_some] at hn'
      cases hn'
      obtain ⟨done, todo, harr⟩ := h j node hn
      have hfresh := (ht call (mem_of_getElem? hc)).apart j hi
      exact harr.handled hc hn hi hfresh hin rfl hbatch
    · obtain ⟨done, todo, harr⟩ := h j node' hn'
      refine ⟨done, todo, harr.congr (fun c hr => hbatch c hr.lt) fun c' => reached_set hc ?_ c'⟩
      rw [accepted_answered]
      split_ifs
      · simp [hij]
      · exact Iff.rfl
  | @received c a call call' answer hc hr ha hcall =>
    rw [settle_nodes] at hn'
    obtain ⟨done, todo, harr⟩ := h j node' hn'
    refine ⟨done, todo, harr.congr (fun c hr => hbatch c hr.lt) fun c' => reached_set hc ?_ c'⟩
    rw [(QuorumCall.received_frame hcall).2]
  | aside _ haside =>
    obtain ⟨node, hn, ha⟩ := haside.getElem? hn'
    obtain ⟨done, todo, harr⟩ := h j node hn
    obtain ⟨done', todo', harr'⟩ := harr.aside ha
    exact ⟨done', todo', harr'.congr (fun c hr => hbatch c hr.lt) fun c => Iff.rfl⟩

end FleetSystem

/-! ## The LSN a write returns -/

/-- Every acknowledgement of the call, and what it returns, is at or past its records. -/
def QuorumCall.Covered (call : QuorumCall) : Prop :=
  ∀ records token, call.request = .append records token → ∀ rec ∈ records,
    (∀ lsn, .ok lsn ∈ call.channel → rec.lsn ≤ lsn) ∧
    ∀ lsn, call.result = some (.ok lsn) → rec.lsn ≤ lsn

theorem QuorumCall.covered_start (request : Request) (n : Nat) (latest : Lsn) :
    (QuorumCall.start request n latest).Covered := by
  intro records token hreq rec hrec
  rw [start_request] at hreq
  have hsent : ∀ token, request ≠ .append [] token := by
    rintro token' rfl
    cases hreq
    exact absurd hrec not_mem_nil
  refine ⟨fun lsn hlsn => ?_, fun lsn hok => absurd hok (start_not_ok n latest hsent lsn)⟩
  unfold start at hlsn
  split at hlsn
  · cases hlsn
  · rcases next_eq _ _ with heq | heq <;> rw [heq] at hlsn <;> cases hlsn

theorem QuorumCall.Covered.answered {call : QuorumCall} (h : call.Covered) (i : Nat)
    (node : SmartStorageNode) : (call.answered i (call.request.serve node).1).Covered := by
  intro records token hreq rec hrec
  obtain ⟨hchan, hres⟩ := h records token hreq rec hrec
  refine ⟨fun lsn hlsn => ?_, hres⟩
  rcases mem_append.mp hlsn with hold | hnew
  · exact hchan lsn hold
  · change call.request = .append records token at hreq
    rw [hreq, mem_singleton] at hnew
    unfold Request.serve SmartStorageNode.appendLogs at hnew
    simp only at hnew
    split_ifs at hnew
    cases hnew
    exact SmartStorageNode.lsn_le_maxLsn hrec _

theorem QuorumCall.Covered.take {call : QuorumCall} (h : call.Covered) (hr : call.result = none)
    {config : QuorumConfig} {a : Nat} {answer : H2Result Lsn} (ha : call.channel[a]? = some answer) :
    ({ call with channel := call.channel.eraseIdx a }.take config answer).Covered := by
  intro records token hreq rec hrec
  rw [take_request] at hreq
  obtain ⟨hchan, _⟩ := h records token hreq rec hrec
  have hsub : ∀ lsn, .ok lsn ∈ call.channel.eraseIdx a → rec.lsn ≤ lsn := fun lsn hlsn =>
    hchan lsn (mem_of_mem_eraseIdx hlsn)
  rcases take_cases { call with channel := call.channel.eraseIdx a } config answer with
    ⟨lsn, rfl, _, htake⟩ | ⟨acks, errors, maxAckLsn, result, htake, _, hres⟩
  · rw [htake]
    refine ⟨hsub, fun lsn' hok => ?_⟩
    cases hok
    exact Nat.le_trans (hchan lsn (mem_of_getElem? ha)) (Nat.le_max_right _ _)
  · rw [htake]
    refine ⟨hsub, fun lsn' hok => ?_⟩
    rcases hres with hsame | ⟨e, herr⟩
    · simp only [hsame, hr] at hok
      cases hok
    · simp only [herr] at hok
      cases hok

namespace FleetSystem

def Covered (sys : FleetSystem) : Prop := ∀ call ∈ sys.calls, call.Covered

variable {sys : FleetSystem}

theorem Covered.step (h : sys.Covered) (action : FleetAction) : (sys.step action).Covered := by
  refine (sys.step_effect action).forall_calls h (fun request => QuorumCall.covered_start _ _ _)
    fun c call call' hcall heffect => ?_
  cases heffect with
  | same => exact hcall
  | handled haction hn hi => exact hcall.answered _ _
  | received haction hr ha => exact hcall.take hr ha

/-! ## The value of a batch -/

/-- The last record of the batch that writes the key puts the value, or deletes the key. -/
def Assigns (records : List LogRecord) (name : String) (key : Key) (val : Option (List UInt8)) :
    Prop :=
  ∃ before rec after, records = before ++ rec :: after ∧ rec.mapName = name ∧ rec.key = key ∧
    ((rec.opType = .put ∧ rec.value = val ∧ val.isSome = true) ∨
      (rec.opType = .delete ∧ val = none)) ∧
    ∀ r ∈ after, r.writes name key = false

theorem foldl_of_last {α β : Type} {f : β → α → β} {before after : List α} {a : α} {c : β}
    (hlast : ∀ b, f b a = c) (hidle : ∀ x ∈ after, ∀ b, f b x = b) (b : β) :
    (before ++ a :: after).foldl f b = c := by
  rw [foldl_append, foldl_cons, hlast, foldl_of_idle hidle]

variable {name : String} {before after : List LogRecord} {rec : LogRecord}

variable {key : Key}

variable {val : Option (List UInt8)} {done todo : List LogRecord}

theorem overlay_of_last
    (hsplit : done ++ todo = before ++ rec :: after) (hredo : ∀ v, LogRecord.redo name key v rec = val)
    (hafter : ∀ r ∈ after, r.writes name key = false) {reads : LogRecord → Bool}
    {f : Option (List UInt8) → LogRecord → Option (List UInt8)} (hreads : reads rec = true)
    (hf : ∀ v, f v rec = val) (hidle : ∀ r, reads r = true → r.writes name key = false → ∀ v, f v r = v) :
    (todo.filter reads).foldl f (done.foldl (LogRecord.redo name key) none) = val := by
  have hfilter : ∀ rs : List LogRecord, (∀ r ∈ rs, r.writes name key = false) →
      ∀ r ∈ rs.filter reads, ∀ v, f v r = v := by
    intro rs hrs r hr v
    obtain ⟨hmem, hread⟩ := mem_filter.mp hr
    exact hidle r hread (hrs r hmem) v
  have hpending : ∀ as, todo = as ++ rec :: after →
      (todo.filter reads).foldl f (done.foldl (LogRecord.redo name key) none) = val := by
    rintro as rfl
    rw [filter_append, filter_cons_of_pos hreads]
    exact foldl_of_last hf (hfilter after hafter) _
  rcases append_eq_append_iff.mp hsplit with ⟨as, _, htodo⟩ | ⟨bs, hdone, hcons⟩
  · exact hpending as htodo
  · cases bs with
    | nil => exact hpending [] hcons.symm
    | cons r bs =>
      -- the record has been applied, and nothing that is pending writes the key
      obtain ⟨rfl, rfl⟩ := List.cons.inj hcons
      rw [hdone, foldl_of_last hredo fun r hr v =>
        LogRecord.redo_of_not_writes v r (hafter r (mem_append_left _ hr))]
      exact foldl_of_idle (hfilter todo fun r hr => hafter r (mem_append_right _ hr)) _

theorem overlayKey_of_not_writes (hname : rec.mapName = name) (hkey : rec.key = key)
    (h : rec.writes name key = false) (val : Option (List UInt8)) :
    SmartStorageNode.overlayKey val rec = val := by
  unfold LogRecord.writes at h
  unfold SmartStorageNode.overlayKey
  cases hop : rec.opType <;> simp_all

variable {node : SmartStorageNode}

theorem node_reads_last (h : node.Logged done todo) (hon : node.state ≠ .offline)
    (hsplit : done ++ todo = before ++ rec :: after) (hname : rec.mapName = name) (hkey : rec.key = key)
    (hval : (rec.opType = .put ∧ rec.value = val ∧ val.isSome = true) ∨ (rec.opType = .delete ∧ val = none))
    (hafter : ∀ r ∈ after, r.writes name key = false) {readVersion : Lsn} (hle : rec.lsn ≤ readVersion) :
    (node.getKey name key readVersion).1 = .ok val ∧
    ∀ startKey endKey, ∃ merged, (node.scanRange name startKey endKey readVersion).1 =
        .ok (merged.filter fun e => SmartStorageNode.inRange startKey endKey e.key) ∧
      Page.SortedEntries merged ∧ Page.leafGet merged key = val := by
  have hredo : ∀ v, LogRecord.redo name key v rec = val := by
    intro v
    rcases hval with ⟨hop, rfl, hsome⟩ | ⟨hop, rfl⟩
    · obtain ⟨x, hx⟩ := Option.isSome_iff_exists.mp hsome
      simp [LogRecord.redo, LogRecord.writes, hop, hname, hkey, hx]
    · simp [LogRecord.redo, LogRecord.writes, hop, hname, hkey]
  have hoverlay : ∀ v, SmartStorageNode.overlayKey v rec = val := by
    intro v
    rcases hval with ⟨hop, rfl, _⟩ | ⟨hop, rfl⟩
    · simp [SmartStorageNode.overlayKey, hop]
    · simp [SmartStorageNode.overlayKey, hop]
  refine ⟨?_, fun startKey endKey => ?_⟩
  · rw [SmartStorageNode.getKey_eq hon, h.overlay, h.materialized, filter_filter]
    congr 1
    refine overlay_of_last hsplit hredo hafter ?_ hoverlay ?_
    · simp [hname, hkey, hle]
    · intro r hr hnot v
      simp only [Bool.and_eq_true, decide_eq_true_eq] at hr
      exact overlayKey_of_not_writes hr.1.1 hr.1.2 hnot v
  · obtain ⟨merged, heq, hsorted, hget⟩ :=
      SmartStorageNode.scanRange_eq hon name startKey endKey readVersion
    refine ⟨merged, heq, hsorted, (hget key).trans ?_⟩
    rw [h.overlay, h.materialized]
    refine overlay_of_last hsplit hredo hafter (decide_eq_true hle) hredo ?_
    exact fun r _ hnot v => LogRecord.redo_of_not_writes v r hnot

theorem firstAnswer_ok {α : Type} {ask : SmartStorageNode → H2Result α × SmartStorageNode}
    (hask : ∀ node, (ask node).1.isOk = true ↔ node.state ≠ .offline)
    {nodes : List SmartStorageNode} {lastErr : Option H2Error} {val : α}
    (hok : (StorageFleet.firstAnswer ask nodes lastErr).1 = .ok val) :
    ∃ i node, nodes.findIdx? (fun node => node.state ≠ .offline) = some i ∧
      nodes[i]? = some node ∧ node.state ≠ .offline ∧ (ask node).1 = .ok val := by
  induction nodes generalizing lastErr with
  | nil => cases hok
  | cons node nodes ih =>
    have hiff := hask node
    unfold StorageFleet.firstAnswer at hok
    split at hok
    · rename_i val' node' heq
      cases hok
      rw [heq] at hiff
      have hon := hiff.mp rfl
      refine ⟨0, node, ?_, rfl, hon, by rw [heq]⟩
      rw [findIdx?_cons, if_pos (decide_eq_true hon)]
    · rename_i e node' heq
      rw [heq] at hiff
      have hoff : ¬ decide (node.state ≠ .offline) = true := by
        rw [decide_eq_true_eq, ← hiff]
        exact Bool.false_ne_true
      obtain ⟨i, node₁, hidx, hn, hon, hval⟩ := ih hok
      refine ⟨i + 1, node₁, ?_, hn, hon, hval⟩
      rw [findIdx?_cons, if_neg hoff, hidx]
      rfl

theorem getKey_isOk (node : SmartStorageNode) (mapName : String) (key : Key) (readVersion : Lsn) :
    (node.getKey mapName key readVersion).1.isOk = true ↔ node.state ≠ .offline := by
  unfold SmartStorageNode.getKey
  by_cases hoff : node.state = .offline
  · rw [if_pos hoff]
    exact ⟨fun h => (by cases h), fun h => absurd hoff h⟩
  · rw [if_neg hoff]
    exact ⟨fun _ => hoff, fun _ => rfl⟩

theorem scanRange_isOk (node : SmartStorageNode) (mapName : String) (startKey endKey : Option Key)
    (readVersion : Lsn) :
    (node.scanRange mapName startKey endKey readVersion).1.isOk = true ↔ node.state ≠ .offline := by
  unfold SmartStorageNode.scanRange
  by_cases hoff : node.state = .offline
  · rw [if_pos hoff]
    exact ⟨fun h => (by cases h), fun h => absurd hoff h⟩
  · rw [if_neg hoff]
    exact ⟨fun _ => hoff, fun _ => rfl⟩

/-- The node that a read would ask has accepted call `b`. -/
def ReaderHas (sys : FleetSystem) (b : Nat) : Prop :=
  ∀ i, sys.fleet.nodes.findIdx? (fun node => node.state ≠ .offline) = some i → sys.Reached b i

theorem Arrived.last {i : Nat} {done todo : List Nat}
    (h : Arrived sys i node done todo) {b : Nat} (hb : sys.Reached b i)
    (hbatch : sys.batch b = before ++ rec :: after) (hrec : rec.writes name key = true)
    (hafter : ∀ r ∈ after, r.writes name key = false)
    (hlater : ∀ c, b < c → ∀ r ∈ sys.batch c, r.writes name key = false) :
    ∃ before' after', done.flatMap sys.batch ++ todo.flatMap sys.batch = before' ++ rec :: after' ∧
      ∀ r ∈ after', r.writes name key = false := by
  obtain ⟨xs, ys, hsplit⟩ := append_of_mem ((h.reached b).mpr hb)
  refine ⟨xs.flatMap sys.batch ++ before, after ++ ys.flatMap sys.batch, ?_, ?_⟩
  · rw [← flatMap_append, hsplit, flatMap_append, flatMap_cons, hbatch]
    simp only [append_assoc, cons_append]
  · intro r hr
    rcases mem_append.mp hr with hr | hr
    · exact hafter r hr
    · obtain ⟨c, hc, hrc⟩ := mem_flatMap.mp hr
      have hnodup := h.nodup
      have hordered := h.ordered
      rw [hsplit] at hnodup hordered
      rw [nodup_append, nodup_cons] at hnodup
      rw [pairwise_append, pairwise_cons] at hordered
      have hne : c ≠ b := fun heq => hnodup.2.1.1 (heq ▸ hc)
      rcases Nat.lt_or_gt_of_ne hne with hlt | hgt
      · -- an earlier call that came later has no key of the batch
        have hclash := hordered.2.1.1 c hc hlt rec (by rw [hbatch]; simp) r hrc
        cases hw : r.writes name key with
        | false => rfl
        | true => exact absurd ⟨name, key, hrec, hw⟩ hclash
      · exact hlater c hgt r hrc

/-- If batches are delivered in order and the node that is read has accepted the write, a read at or
past the LSN that the write returned sees it. -/
theorem read_of_readerHas (fleet : StorageFleet)
    (hnew : ∀ node ∈ fleet.nodes, ∃ nodeId, node = .new nodeId) (actions : List FleetAction)
    (hin : Meets step DeliveredInOrder (new fleet) actions) (b : Nat) (call : QuorumCall)
    (hcall : (runs step (new fleet) actions).calls[b]? = some call) (records : List LogRecord)
    (token : FencingToken) (hreq : call.request = .append records token) (lsn : Lsn)
    (hok : call.result = some (.ok lsn)) (name : String) (key : Key) (val : Option (List UInt8))
    (hassign : Assigns records name key val)
    (hlater : ∀ c, b < c → ∀ rec ∈ (runs step (new fleet) actions).batch c,
      rec.writes name key = false)
    (hreader : (runs step (new fleet) actions).ReaderHas b) (readVersion : Lsn)
    (hle : lsn ≤ readVersion) :
    (∀ val', ((runs step (new fleet) actions).fleet.getKeyQuorum name key readVersion).1 = .ok val' →
      val' = val) ∧
    ∀ startKey endKey entries, ((runs step (new fleet) actions).fleet.scanRangeQuorum name startKey
        endKey readVersion).1 = .ok entries →
      ∀ x, ⟨key, x⟩ ∈ entries ↔
        SmartStorageNode.inRange startKey endKey key = true ∧ val = some x := by
  set sys := runs step (new fleet) actions with hsys
  have hinv : sys.Tallied ∧ sys.InOrder :=
    invariant_runs
      (fun s action (h : s.Tallied ∧ s.InOrder) hin => ⟨h.1.step action, h.2.step h.1 action hin⟩)
      ⟨fun _ h => absurd h not_mem_nil, inOrder_new hnew⟩ hin
  have hcovered : sys.Covered :=
    runs_invariant (fun _ action h => h.step action) (fun _ h => absurd h not_mem_nil) actions
  obtain ⟨before, rec, after, hrecords, hname, hkey, hval, hafter⟩ := hassign
  have hbatch : sys.batch b = before ++ rec :: after := by
    rw [batch_of_call hcall, hreq]
    exact hrecords
  have hwrites : rec.writes name key = true := by
    rcases hval with ⟨hop, _⟩ | ⟨hop, _⟩ <;> simp [LogRecord.writes, hop, hname, hkey]
  have hlsn : rec.lsn ≤ readVersion := by
    refine Nat.le_trans ((hcovered call (mem_of_getElem? hcall) records token hreq rec ?_).2 lsn
      hok) hle
    rw [hrecords]
    simp
  -- what the node that answers holds
  have hanswer : ∀ i node, sys.fleet.nodes.findIdx? (fun node => node.state ≠ .offline) = some i →
      sys.fleet.nodes[i]? = some node → node.state ≠ .offline →
      (node.getKey name key readVersion).1 = .ok val ∧
      ∀ startKey endKey, ∃ merged, (node.scanRange name startKey endKey readVersion).1 =
          .ok (merged.filter fun e => SmartStorageNode.inRange startKey endKey e.key) ∧
        Page.SortedEntries merged ∧ Page.leafGet merged key = val := by
    intro i node hidx hn hon
    obtain ⟨done, todo, harr⟩ := hinv.2 i node hn
    obtain ⟨before', after', hsplit, hafter'⟩ :=
      harr.last (hreader i hidx) hbatch hwrites hafter hlater
    exact node_reads_last harr.logged hon hsplit hname hkey hval hafter' hlsn
  constructor
  · intro val' hget
    obtain ⟨i, node, hidx, hn, hon, hans⟩ :=
      firstAnswer_ok (fun node => getKey_isOk node name key readVersion) hget
    rw [(hanswer i node hidx hn hon).1] at hans
    cases hans
    rfl
  · intro startKey endKey entries hscan x
    obtain ⟨i, node, hidx, hn, hon, hans⟩ :=
      firstAnswer_ok (fun node => scanRange_isOk node name startKey endKey readVersion) hscan
    obtain ⟨merged, heq, hsorted, hget⟩ := (hanswer i node hidx hn hon).2 startKey endKey
    rw [heq] at hans
    cases hans
    rw [mem_filter]
    constructor
    · rintro ⟨hmem, hrange⟩
      exact ⟨hrange, hget.symm.trans (Page.leafGet_of_mem hsorted hmem)⟩
    · rintro ⟨hrange, rfl⟩
      exact ⟨Page.mem_of_leafGet hget, hrange⟩

theorem deliveredInOrder_of_latest {c i : Nat} (hlen : sys.calls.length ≤ c + 1)
    (hnew : ∀ node ∈ sys.fleet.nodes, ∀ rec ∈ sys.batch c, node.appliedLsn < rec.lsn) :
    sys.DeliveredInOrder (.handle c i) := by
  intro call node hc hn hi hok
  refine ⟨hnew node (mem_of_getElem? hn), fun c' hlt hr => ?_⟩
  have := hr.lt
  omega

/-- A put that the nodes `i` and `j` accept. -/
def putAt (i j : Nat) : List FleetAction :=
  [.start (.append [.put 1 0 1 "a" [1] [10] 0] 1), .handle 0 i, .handle 0 j, .receive 0 0,
    .receive 0 0]

theorem read_of_readerHas_putAt :
    ∃ val', ((runs step (new .threeNodes) (putAt 0 1)).fleet.getKeyQuorum "a" [1] 1).1 = .ok val' ∧
      val' = some [10] := by
  have hin : Meets step DeliveredInOrder (new .threeNodes) (putAt 0 1) := by
    refine ⟨trivial, ?_, ?_, trivial, trivial, trivial⟩
    · exact deliveredInOrder_of_latest (by decide +kernel) (by decide +kernel)
    · exact deliveredInOrder_of_latest (by decide +kernel) (by decide +kernel)
  have hcall : ∃ call, (runs step (new .threeNodes) (putAt 0 1)).calls[0]? = some call ∧
      call.request = .append [.put 1 0 1 "a" [1] [10] 0] 1 ∧ call.result = some (.ok 1) ∧
      0 ∈ call.accepted := ⟨_, rfl, rfl, rfl, by decide +kernel⟩
  obtain ⟨call, hcall, hreq, hok, hacc⟩ := hcall
  have hget : ((runs step (new .threeNodes) (putAt 0 1)).fleet.getKeyQuorum "a" [1] 1).1 =
    .ok (some [10]) := by decide +kernel
  refine ⟨_, hget, (read_of_readerHas .threeNodes StorageFleet.threeNodes_new (putAt 0 1) hin 0 call
    hcall _ _ hreq
    1 hok "a" [1] (some [10]) ?_ ?_ ?_ 1 (Nat.le_refl 1)).1 _ hget⟩
  · exact ⟨[], _, [], rfl, rfl, rfl, Or.inl ⟨rfl, rfl, rfl⟩, fun _ h => absurd h not_mem_nil⟩
  · intro c hc rec hrec
    have hnil : (runs step (new .threeNodes) (putAt 0 1)).batch c = [] := by
      have hlen : (runs step (new .threeNodes) (putAt 0 1)).calls[c]? = none := by
        rw [getElem?_eq_none_iff]
        exact hc
      rw [batch, hlen]
      rfl
    rw [hnil] at hrec
    cases hrec
  · intro i hi
    have hzero : (runs step (new .threeNodes) (putAt 0 1)).fleet.nodes.findIdx?
      (fun node => node.state ≠ .offline) = some 0 := by decide +kernel
    cases hzero.symm.trans hi
    exact ⟨call, hcall, hacc⟩

/-- A node that was offline during the write answers the read. -/
theorem read_misses_quorum_write :
    (runs step (new .threeNodes) (.setState 0 .offline :: putAt 1 2 ++ [.setState 0 .online])).calls.map
      (fun call => (call.request, call.result)) =
      [(.append [.put 1 0 1 "a" [1] [10] 0] 1, some (.ok 1))] ∧
    ((runs step (new .threeNodes) (.setState 0 .offline :: putAt 1 2 ++
      [.setState 0 .online])).fleet.getKeyQuorum "a" [1] 1).1 = .ok none ∧
    ((runs step (new .threeNodes) (.setState 0 .offline :: putAt 1 2 ++
      [.setState 0 .online])).fleet.scanRangeQuorum "a" none none 1).1 = .ok [] := by
  decide +kernel

end FleetSystem

end H2Database.Storage
