import H2Database.Replication.Hub

/-!
# What `remote_apply` promises

A call of `on_commit` that returns has heard from one standby: the acknowledgements of all of them go into
one maximum.  So one of the standbys that were connected at the broadcast has applied the record, and with
a single standby that is the one.
-/

namespace H2Database.Replication

open Reasoning List Nat
open Mvstore

def HandlerPhase.queue : HandlerPhase → List (ReplicationCommitRecord Bytes)
  | .serving rx => rx.queue
  | _ => []

def ReplicationMessage.recordVersion : ReplicationMessage → Option Nat
  | .commit record => some record.commitVersion
  | _ => none

def ReplicationMessage.ackVersion : ReplicationMessage → Option Nat
  | .applied version => some version
  | _ => none

namespace StandbyConnection

def pending (c : StandbyConnection) : List Nat :=
  c.handler.queue.map ReplicationCommitRecord.commitVersion ++
    c.toStandby.filterMap ReplicationMessage.recordVersion

def acks (c : StandbyConnection) : List Nat := c.toPrimary.filterMap ReplicationMessage.ackVersion

structure Moves (c c' : StandbyConnection) : Prop where
  pending : ∀ v ∈ c'.pending, v ∈ c.pending
  kept : ∀ v ∈ c.appliedVersions, v ∈ c'.appliedVersions
  applied : ∀ v ∈ c'.appliedVersions, v ∈ c.appliedVersions ∨ v ∈ c.pending ∧ c.standby ≠ .stopped
  acks : ∀ v ∈ c'.acks, v ∈ c.acks ∨ v ∈ c'.appliedVersions
  stopped : c.standby = .stopped → c'.standby = .stopped

theorem Moves.refl (c : StandbyConnection) : c.Moves c :=
  ⟨fun _ h => h, fun _ h => h, fun _ h => Or.inl h, fun _ h => Or.inl h, fun h => h⟩

theorem moves_subscribe (c : StandbyConnection) : c.Moves c.subscribe := by
  unfold subscribe
  split
  · refine ⟨fun v hv => ?_, fun _ h => h, fun _ h => Or.inl h, fun _ h => Or.inl h, fun h => h⟩
    exact mem_append_right _ hv
  · exact .refl c

theorem moves_request (c : StandbyConnection) : c.Moves c.request := by
  unfold request
  split
  · rename_i hphase
    refine ⟨fun _ h => h, fun _ h => h, fun _ h => Or.inl h, fun v hv => ?_, fun h => ?_⟩
    · refine .inl ?_
      simpa [StandbyConnection.acks, ReplicationMessage.ackVersion] using hv
    · rw [hphase] at h
      cases h
  · exact .refl c

theorem moves_forward (c : StandbyConnection) : c.Moves c.forward := by
  unfold forward
  split
  · rename_i rx hrx
    split
    · refine ⟨fun v hv => ?_, fun _ h => h, fun _ h => Or.inl h, fun _ h => Or.inl h, fun h => h⟩
      simpa [StandbyConnection.pending, HandlerPhase.queue, hrx] using hv
    · split
      · exact .refl c
      · rename_i record rest hqueue
        refine ⟨fun v hv => ?_, fun _ h => h, fun _ h => Or.inl h, fun _ h => Or.inl h, fun h => h⟩
        simp only [StandbyConnection.pending, HandlerPhase.queue, hrx, hqueue, mem_append,
          filterMap_append, filterMap_cons, ReplicationMessage.recordVersion, filterMap_nil,
          map_cons, mem_cons] at hv ⊢
        tauto
  · exact .refl c

variable {c : StandbyConnection}

variable {msg : ReplicationMessage} {rest : List ReplicationMessage}

theorem pending_tail (h : c.toStandby = msg :: rest) {v : Nat}
    (hv : v ∈ c.handler.queue.map ReplicationCommitRecord.commitVersion ++
      rest.filterMap ReplicationMessage.recordVersion) : v ∈ c.pending := by
  unfold StandbyConnection.pending
  rw [h]
  rcases mem_append.mp hv with hq | hr
  · exact mem_append_left _ hq
  · refine mem_append_right _ ?_
    obtain ⟨m, hm, hmv⟩ := mem_filterMap.mp hr
    exact mem_filterMap.mpr ⟨m, mem_cons_of_mem _ hm, hmv⟩

theorem moves_receive (c : StandbyConnection) (io : WriteOutcome) (reload : H2Result Unit) :
    c.Moves (c.receive io reload) := by
  unfold receive
  split
  · exact .refl c
  rename_i msg rest hmsg
  split
  · -- the snapshot
    rename_i hphase
    have hrunning : c.standby ≠ .stopped := by simp [hphase]
    split
    all_goals
      exact ⟨fun v hv => pending_tail hmsg hv, fun _ h => h, fun _ h => Or.inl h, fun _ h => Or.inl h,
        fun h => absurd h hrunning⟩
  · exact ⟨fun v hv => pending_tail hmsg hv, fun _ h => h, fun _ h => Or.inl h, fun _ h => Or.inl h,
      fun _ => rfl⟩
  · -- a record
    rename_i record hphase
    have hrunning : c.standby ≠ .stopped := by simp [hphase]
    have hpending : record.commitVersion ∈ c.pending := by
      refine mem_append_right _ ?_
      rw [hmsg]
      exact mem_filterMap.mpr ⟨_, mem_cons_self, rfl⟩
    split
    · exact ⟨fun v hv => pending_tail hmsg hv, fun _ h => h, fun _ h => Or.inl h, fun _ h => Or.inl h,
        fun _ => rfl⟩
    · refine ⟨fun v hv => pending_tail hmsg hv, fun _ h => mem_append_left _ h, fun v hv => ?_,
        fun v hv => ?_, fun h => absurd h hrunning⟩
      · rcases mem_append.mp hv with hold | hnew
        · exact .inl hold
        · rw [mem_singleton.mp hnew]
          exact .inr ⟨hpending, hrunning⟩
      · simp only [StandbyConnection.acks, filterMap_append, filterMap_cons,
          ReplicationMessage.ackVersion, filterMap_nil, mem_append, mem_singleton] at hv
        rcases hv with hold | hnew
        · exact .inl hold
        · rw [hnew]
          exact .inr (mem_append_right _ mem_cons_self)
  · refine ⟨fun v hv => pending_tail hmsg hv, fun _ h => h, fun _ h => Or.inl h, fun v hv => Or.inl ?_,
      fun h => h⟩
    simpa [StandbyConnection.acks, ReplicationMessage.ackVersion] using hv
  · exact ⟨fun v hv => pending_tail hmsg hv, fun _ h => h, fun _ h => Or.inl h, fun _ h => Or.inl h,
      fun h => h⟩
  · exact .refl c

theorem moves_close (c : StandbyConnection) : c.Moves { c with handler := .closed } :=
  ⟨fun _ hv => mem_append_right _ hv, fun _ h => h, fun _ h => Or.inl h, fun _ h => Or.inl h,
    fun h => h⟩

theorem moves_stop (c : StandbyConnection) : c.Moves { c with standby := .stopped } :=
  ⟨fun _ hv => hv, fun _ h => h, fun _ h => Or.inl h, fun _ h => Or.inl h, fun _ => rfl⟩

theorem moves_serve (h : c.toPrimary = msg :: rest) {answer : List ReplicationMessage}
    (hanswer : answer.filterMap ReplicationMessage.recordVersion = []) :
    c.Moves { c with toPrimary := rest, toStandby := c.toStandby ++ answer } := by
  refine ⟨fun v hv => ?_, fun _ h => h, fun _ h => Or.inl h, fun v hv => Or.inl ?_, fun h => h⟩
  · simpa [StandbyConnection.pending, hanswer] using hv
  · obtain ⟨m, hm, hmv⟩ := mem_filterMap.mp hv
    unfold StandbyConnection.acks
    rw [h]
    exact mem_filterMap.mpr ⟨m, mem_cons_of_mem _ hm, hmv⟩

theorem pending_send {record : ReplicationCommitRecord Bytes} {v : Nat} (hv : v ∈ (c.send record).pending) :
    v ∈ c.pending ∨ v = record.commitVersion ∧ c.handler.isClosed = false := by
  unfold send at hv
  cases hhandler : c.handler with
  | accepted =>
    rw [hhandler] at hv
    exact .inl hv
  | closed =>
    rw [hhandler] at hv
    exact .inl hv
  | serving rx =>
    simp only [hhandler, StandbyConnection.pending, HandlerPhase.queue, mem_append] at hv
    simp only [StandbyConnection.pending, hhandler, HandlerPhase.queue, mem_append,
      HandlerPhase.isClosed, and_true]
    rcases hv with hqueue | hstream
    · obtain ⟨r, hr, rfl⟩ := mem_map.mp hqueue
      have hcase : r ∈ rx.queue ∨ r = record := by
        unfold Receiver.send at hr
        split at hr
        · simpa using hr
        · rcases mem_append.mp hr with htail | hnew
          · exact .inl (mem_of_mem_tail htail)
          · exact .inr (mem_singleton.mp hnew)
      rcases hcase with hold | rfl
      · exact .inl (.inl (mem_map_of_mem hold))
      · exact .inr rfl
    · exact .inl (.inr hstream)

theorem send_appliedVersions (c : StandbyConnection) (record : ReplicationCommitRecord Bytes) :
    (c.send record).appliedVersions = c.appliedVersions ∧ (c.send record).acks = c.acks ∧
      (c.send record).standby = c.standby := by
  unfold send
  split <;> exact ⟨rfl, rfl, rfl⟩

end StandbyConnection

namespace PrimaryReplicationHub

def HasApplied (h : PrimaryReplicationHub) (i v : Nat) : Prop :=
  ∃ c, h.connections[i]? = some c ∧ v ∈ c.appliedVersions

def IsDisconnected (h : PrimaryReplicationHub) (i : Nat) : Prop :=
  ∃ c, h.connections[i]? = some c ∧ c.Disconnected

/-- Every call that has returned well has been applied by every standby that was connected when its record
was broadcast and still is. -/
def AppliedEverywhere (h : PrimaryReplicationHub) : Prop :=
  ∀ call ∈ h.returned, call.2 = .ok () → ∀ ids, call.1.connected = some ids →
    ∀ i ∈ ids, h.HasApplied i call.1.version ∨ h.IsDisconnected i

/-- Every call that has returned well has been applied by a standby that was connected when its record was
broadcast, and by the one where only one was. -/
def AppliedSomewhere (h : PrimaryReplicationHub) : Prop :=
  ∀ call ∈ h.returned, call.2 = .ok () → ∀ ids, call.1.connected = some ids →
    (∃ i ∈ ids, h.HasApplied i call.1.version) ∧ ∀ i, ids = [i] → h.HasApplied i call.1.version

def Ascending (h : PrimaryReplicationHub) : HubEvent → Prop
  | .onCommit commitVersion _ _ => 0 < commitVersion ∧ ∀ w ∈ h.broadcasts, w < commitVersion
  | _ => True

/-- A call that waits: its version is the last one, and only standbys of its list can apply it. -/
structure Awaited (h : PrimaryReplicationHub) (call : CommitCall) : Prop where
  positive : 0 < call.version
  last : ∀ w ∈ h.broadcasts, w ≤ call.version
  confined : ∃ ids, call.connected = some ids ∧ ∀ i c, h.connections[i]? = some c →
    (call.version ∈ c.pending → i ∈ ids ∨ c.standby = .stopped) ∧
      (call.version ∈ c.appliedVersions → i ∈ ids)

structure Sound (h : PrimaryReplicationHub) : Prop where
  pending : ∀ c ∈ h.connections, ∀ v ∈ c.pending, v ∈ h.broadcasts
  applied : ∀ c ∈ h.connections, ∀ v ∈ c.appliedVersions, v ∈ h.broadcasts
  acks : ∀ c ∈ h.connections, ∀ v ∈ c.acks, v ∈ c.appliedVersions
  top : h.applied = 0 ∨ ∃ c ∈ h.connections, h.applied ∈ c.appliedVersions
  waiting : ∀ call, h.waiting = some call → h.Awaited call
  returned : ∀ call ∈ h.returned, call.2 = .ok () → ∀ ids, call.1.connected = some ids →
    ∃ i ∈ ids, h.HasApplied i call.1.version

variable {h : PrimaryReplicationHub}

theorem sound_new : Sound new := by
  refine ⟨?_, ?_, ?_, Or.inl rfl, ?_, ?_⟩
  · intro c hc
    cases hc
  · intro c hc
    cases hc
  · intro c hc
    cases hc
  · intro call hcall
    cases hcall
  · intro call hcall
    cases hcall

theorem Sound.appliedSomewhere (hs : h.Sound) : h.AppliedSomewhere := by
  intro call hcall hok ids hids
  obtain ⟨i, hi, happlied⟩ := hs.returned call hcall hok ids hids
  refine ⟨⟨i, hi, happlied⟩, fun j hj => ?_⟩
  rw [hj] at hi
  rwa [← mem_singleton.mp hi]

variable {f : StandbyConnection → StandbyConnection}

theorem getElem?_onConnection {i j : Nat}
    {c' : StandbyConnection} (hc : (h.onConnection i f).connections[j]? = some c') :
    ∃ c, h.connections[j]? = some c ∧ (c' = c ∨ i = j ∧ c' = f c) := by
  change (h.connections.modify i f)[j]? = some c' at hc
  rw [getElem?_modify, Option.map_eq_map] at hc
  obtain ⟨c, hget, rfl⟩ := Option.map_eq_some_iff.mp hc
  refine ⟨c, hget, ?_⟩
  by_cases hij : i = j
  · rw [if_pos hij]
    exact .inr ⟨hij, rfl⟩
  · rw [if_neg hij]
    exact .inl rfl

/-- Every connection of the next state comes from one that has moved, and the other way round. -/
structure Advances (h h' : PrimaryReplicationHub) : Prop where
  comes : ∀ (i : Nat) (c' : StandbyConnection), h'.connections[i]? = some c' →
    ∃ c, h.connections[i]? = some c ∧ c.Moves c'
  goes : ∀ (i : Nat) (c : StandbyConnection), h.connections[i]? = some c →
    ∃ c', h'.connections[i]? = some c' ∧ c.Moves c'
  broadcasts : h'.broadcasts = h.broadcasts
  waiting : h'.waiting = h.waiting
  returned : h'.returned = h.returned

theorem Advances.of_onConnection {i : Nat} (hf : ∀ c, h.connections[i]? = some c → c.Moves (f c)) (v : Nat) :
    Advances h { h.onConnection i f with applied := v } := by
  refine ⟨fun j c' hc' => ?_, fun j c hc => ?_, rfl, rfl, rfl⟩
  · obtain ⟨c, hc, rfl | ⟨rfl, rfl⟩⟩ := getElem?_onConnection hc'
    · exact ⟨c', hc, .refl c'⟩
    · exact ⟨c, hc, hf c hc⟩
  · have hget : (h.connections.modify i f)[j]? = some (if i = j then f c else c) := by
      rw [getElem?_modify, hc]
      split <;> rfl
    refine ⟨_, hget, ?_⟩
    split
    · rename_i hij
      exact hf c (hij ▸ hc)
    · exact .refl c

theorem Sound.advance (hs : h.Sound) {h' : PrimaryReplicationHub} (ha : h.Advances h')
    (htop : h'.applied = 0 ∨ ∃ c ∈ h'.connections, h'.applied ∈ c.appliedVersions) : h'.Sound := by
  have hcomes : ∀ c' ∈ h'.connections, ∃ c ∈ h.connections, c.Moves c' := by
    intro c' hc'
    obtain ⟨i, hi⟩ := getElem?_of_mem hc'
    obtain ⟨c, hc, hmoves⟩ := ha.comes i c' hi
    exact ⟨c, mem_of_getElem? hc, hmoves⟩
  refine ⟨?_, ?_, ?_, htop, ?_, ?_⟩
  · intro c' hc' v hv
    obtain ⟨c, hc, hmoves⟩ := hcomes c' hc'
    rw [ha.broadcasts]
    exact hs.pending c hc v (hmoves.pending v hv)
  · intro c' hc' v hv
    obtain ⟨c, hc, hmoves⟩ := hcomes c' hc'
    rw [ha.broadcasts]
    rcases hmoves.applied v hv with hold | ⟨hpending, -⟩
    · exact hs.applied c hc v hold
    · exact hs.pending c hc v hpending
  · intro c' hc' v hv
    obtain ⟨c, hc, hmoves⟩ := hcomes c' hc'
    rcases hmoves.acks v hv with hold | hnew
    · exact hmoves.kept v (hs.acks c hc v hold)
    · exact hnew
  · intro call hcall
    rw [ha.waiting] at hcall
    obtain ⟨hpos, hlast, ids, hids, hconfined⟩ := hs.waiting call hcall
    refine ⟨hpos, ha.broadcasts ▸ hlast, ids, hids, fun i c' hc' => ?_⟩
    obtain ⟨c, hc, hmoves⟩ := ha.comes i c' hc'
    obtain ⟨hpending, happlied⟩ := hconfined i c hc
    refine ⟨fun hv => ?_, fun hv => ?_⟩
    · exact (hpending (hmoves.pending _ hv)).imp_right hmoves.stopped
    · rcases hmoves.applied _ hv with hold | ⟨hnew, hrunning⟩
      · exact happlied hold
      · exact (hpending hnew).resolve_right hrunning
  · intro call hcall hok ids hids
    rw [ha.returned] at hcall
    obtain ⟨i, hi, c, hc, hv⟩ := hs.returned call hcall hok ids hids
    obtain ⟨c', hc', hmoves⟩ := ha.goes i c hc
    exact ⟨i, hi, c', hc', hmoves.kept _ hv⟩

theorem Sound.onConnection (hs : h.Sound) {i : Nat}
    (hf : ∀ c, h.connections[i]? = some c → c.Moves (f c)) : (h.onConnection i f).Sound := by
  have ha : h.Advances (h.onConnection i f) := .of_onConnection hf h.applied
  refine hs.advance ha ?_
  rcases hs.top with hzero | ⟨c, hc, hv⟩
  · exact .inl hzero
  · obtain ⟨j, hj⟩ := getElem?_of_mem hc
    obtain ⟨c', hc', hmoves⟩ := ha.goes j c hj
    exact .inr ⟨c', mem_of_getElem? hc', hmoves.kept _ hv⟩

theorem Sound.acknowledged (hs : h.Sound) {i v : Nat} {c : StandbyConnection}
    {rest : List ReplicationMessage} (hc : h.connections[i]? = some c)
    (hmsg : c.toPrimary = .applied v :: rest) :
    ((h.onConnection i fun c => { c with toPrimary := rest }).notifyApplied v).Sound := by
  have hmoves : ∀ c', h.connections[i]? = some c' →
      c'.Moves { c' with toPrimary := rest, toStandby := c'.toStandby ++ [] } := by
    intro c' hc'
    rw [hc] at hc'
    cases hc'
    exact StandbyConnection.moves_serve hmsg rfl
  simp only [append_nil] at hmoves
  have ha : h.Advances ((h.onConnection i fun c => { c with toPrimary := rest }).notifyApplied v) :=
    .of_onConnection hmoves _
  refine hs.advance ha ?_
  have happlied : v ∈ c.appliedVersions := by
    refine hs.acks c (mem_of_getElem? hc) v ?_
    unfold StandbyConnection.acks
    rw [hmsg]
    exact mem_filterMap.mpr ⟨_, mem_cons_self, rfl⟩
  have hmax : ((h.onConnection i fun c => { c with toPrimary := rest }).notifyApplied v).applied =
      max h.applied v := rfl
  rw [hmax]
  rcases le_total h.applied v with hle | hle
  · rw [max_eq_right hle]
    obtain ⟨c', hc', hkept⟩ := ha.goes i c hc
    exact .inr ⟨c', mem_of_getElem? hc', hkept.kept v happlied⟩
  · rw [max_eq_left hle]
    rcases hs.top with hzero | ⟨d, hd, hv⟩
    · exact .inl hzero
    · obtain ⟨j, hj⟩ := getElem?_of_mem hd
      obtain ⟨d', hd', hkept⟩ := ha.goes j d hj
      exact .inr ⟨d', mem_of_getElem? hd', hkept.kept _ hv⟩

theorem Sound.serve (hs : h.Sound) (i : Nat) (primary : MVStore Bytes) : (h.serve i primary).Sound := by
  unfold PrimaryReplicationHub.serve
  cases hc : h.connections[i]? with
  | none => exact hs
  | some c =>
    have hread : ∀ {msg : ReplicationMessage} {rest answer : List ReplicationMessage},
        c.toPrimary = msg :: rest → answer.filterMap ReplicationMessage.recordVersion = [] →
        ∀ c', h.connections[i]? = some c' →
          c'.Moves { c' with toPrimary := rest, toStandby := c'.toStandby ++ answer } := by
      intro msg rest answer hmsg hanswer c' hc'
      rw [hc] at hc'
      cases hc'
      exact StandbyConnection.moves_serve hmsg hanswer
    simp only
    split
    · rename_i hmsg
      exact hs.onConnection (hread hmsg rfl)
    · rename_i hmsg
      exact hs.acknowledged hc hmsg
    · rename_i hmsg
      exact hs.onConnection (hread hmsg rfl)
    · rename_i hmsg
      refine hs.onConnection fun c' hc' => ?_
      have hmoves := hread hmsg (filterMap_nil (f := ReplicationMessage.recordVersion)) c' hc'
      rwa [append_nil] at hmoves
    · exact hs

theorem Sound.accept (hs : h.Sound) (store : MVStore Bytes) : (h.step (.accept store)).Sound := by
  have hold : ∀ (i : Nat) (c : StandbyConnection), h.connections[i]? = some c →
      (h.connections ++ [StandbyConnection.new store])[i]? = some c := by
    intro i c hc
    rw [List.getElem?_append_left (List.getElem?_eq_some_iff.mp hc).1, hc]
  -- a new connection has no message and has applied nothing
  have hnew : (StandbyConnection.new store).pending = [] ∧
      (StandbyConnection.new store).appliedVersions = [] ∧ (StandbyConnection.new store).acks = [] :=
    ⟨rfl, rfl, rfl⟩
  have hcases : ∀ c ∈ h.connections ++ [StandbyConnection.new store],
      c ∈ h.connections ∨ c = StandbyConnection.new store := by
    intro c hc
    exact (mem_append.mp hc).imp_right mem_singleton.mp
  refine ⟨?_, ?_, ?_, ?_, ?_, ?_⟩
  · intro c hc v hv
    rcases hcases c hc with hc | rfl
    · exact hs.pending c hc v hv
    · rw [hnew.1] at hv
      cases hv
  · intro c hc v hv
    rcases hcases c hc with hc | rfl
    · exact hs.applied c hc v hv
    · rw [hnew.2.1] at hv
      cases hv
  · intro c hc v hv
    rcases hcases c hc with hc | rfl
    · exact hs.acks c hc v hv
    · rw [hnew.2.2] at hv
      cases hv
  · rcases hs.top with hzero | ⟨c, hc, hv⟩
    · exact .inl hzero
    · exact .inr ⟨c, mem_append_left _ hc, hv⟩
  · intro call hcall
    obtain ⟨hpos, hlast, ids, hids, hconfined⟩ := hs.waiting call hcall
    refine ⟨hpos, hlast, ids, hids, fun i c hc => ?_⟩
    change (h.connections ++ [StandbyConnection.new store])[i]? = some c at hc
    rw [getElem?_append] at hc
    split at hc
    · exact hconfined i c hc
    · rw [mem_singleton.mp (mem_of_getElem? hc), hnew.1, hnew.2.1]
      refine ⟨fun hv => ?_, fun hv => ?_⟩
      · cases hv
      · cases hv
  · intro call hcall hok ids hids
    obtain ⟨i, hi, c, hc, hv⟩ := hs.returned call hcall hok ids hids
    exact ⟨i, hi, c, hold i c hc, hv⟩

theorem mem_connected {i : Nat} :
    i ∈ h.connected ↔ ∃ c, h.connections[i]? = some c ∧ ¬ c.Disconnected := by
  unfold connected
  rw [mem_filter, mem_range]
  cases hc : h.connections[i]? with
  | none => simp
  | some c =>
    have hlt := (List.getElem?_eq_some_iff.mp hc).1
    simp [hlt]

theorem Sound.broadcast (hs : h.Sound) {v : Nat} (hpos : 0 < v) (hlast : ∀ w ∈ h.broadcasts, w < v)
    (changes : List (ReplicationChange Bytes)) (timestampMs : Nat) :
    Sound { h with
      connections := h.connections.map fun c => c.send ⟨v, changes, timestampMs⟩
      waiting := some ⟨v, some h.connected⟩
      broadcasts := h.broadcasts ++ [v] } := by
  have hsent := fun c : StandbyConnection => c.send_appliedVersions ⟨v, changes, timestampMs⟩
  have hfresh : v ∉ h.broadcasts := fun hv => lt_irrefl v (hlast v hv)
  refine ⟨?_, ?_, ?_, ?_, ?_, ?_⟩
  · intro c' hc' w hw
    obtain ⟨c, hc, rfl⟩ := mem_map.mp hc'
    rcases StandbyConnection.pending_send hw with hold | ⟨rfl, -⟩
    · exact mem_append_left _ (hs.pending c hc w hold)
    · exact mem_append_right _ mem_cons_self
  · intro c' hc' w hw
    obtain ⟨c, hc, rfl⟩ := mem_map.mp hc'
    rw [(hsent c).1] at hw
    exact mem_append_left _ (hs.applied c hc w hw)
  · intro c' hc' w hw
    obtain ⟨c, hc, rfl⟩ := mem_map.mp hc'
    rw [(hsent c).2.1] at hw
    rw [(hsent c).1]
    exact hs.acks c hc w hw
  · rcases hs.top with hzero | ⟨c, hc, hw⟩
    · exact .inl hzero
    · refine .inr ⟨c.send ⟨v, changes, timestampMs⟩, mem_map_of_mem hc, ?_⟩
      rw [(hsent c).1]
      exact hw
  · intro call hcall
    cases hcall
    refine ⟨hpos, fun w hw => ?_, h.connected, rfl, fun i c' hc' => ?_⟩
    · rcases mem_append.mp hw with hold | hnew
      · exact le_of_lt (hlast w hold)
      · exact le_of_eq (mem_singleton.mp hnew)
    · change (h.connections.map _)[i]? = some c' at hc'
      rw [getElem?_map] at hc'
      obtain ⟨c, hc, rfl⟩ := Option.map_eq_some_iff.mp hc'
      have hmem := mem_of_getElem? hc
      refine ⟨fun hv => ?_, fun hv => ?_⟩
      · rcases StandbyConnection.pending_send hv with hold | ⟨-, hlistens⟩
        · exact absurd (hs.pending c hmem v hold) hfresh
        · rw [(hsent c).2.2]
          by_cases hstopped : c.standby = .stopped
          · exact .inr hstopped
          · refine .inl (mem_connected.mpr ⟨c, hc, ?_⟩)
            rintro (hclosed | hst)
            · rw [hlistens] at hclosed
              cases hclosed
            · exact hstopped hst
      · rw [(hsent c).1] at hv
        exact absurd (hs.applied c hmem v hv) hfresh
  · intro call hcall hok ids hids
    obtain ⟨i, hi, c, hc, hv⟩ := hs.returned call hcall hok ids hids
    refine ⟨i, hi, c.send ⟨v, changes, timestampMs⟩, ?_, ?_⟩
    · change (h.connections.map _)[i]? = _
      rw [getElem?_map, hc]
      rfl
    · rw [(hsent c).1]
      exact hv

theorem Sound.onCommit (hs : h.Sound) {v : Nat} (hpos : 0 < v) (hlast : ∀ w ∈ h.broadcasts, w < v)
    (changes : List (ReplicationChange Bytes)) (timestampMs : Nat) :
    (h.onCommit v changes timestampMs).Sound := by
  -- a call without a broadcast has no standbys to speak of
  have hsilent : Sound { h with returned := h.returned ++ [(⟨v, none⟩, .ok ())] } := by
    refine ⟨hs.pending, hs.applied, hs.acks, hs.top, fun call hcall => ?_,
      fun call hcall hok ids hids => ?_⟩
    · obtain ⟨hcpos, hclast, hconfined⟩ := hs.waiting call hcall
      exact ⟨hcpos, hclast, hconfined⟩
    rcases mem_append.mp hcall with hold | hnew
    · exact hs.returned call hold hok ids hids
    · rw [mem_singleton.mp hnew] at hids
      cases hids
  unfold PrimaryReplicationHub.onCommit
  split
  · exact hsilent
  · split
    · exact hsilent
    · exact hs.broadcast hpos hlast changes timestampMs

theorem Sound.finish (hs : h.Sound) {call : CommitCall} (hcall : h.waiting = some call)
    {result : H2Result Unit} (hresult : result = .ok () → call.version ≤ h.applied) :
    (h.finish call result).Sound := by
  obtain ⟨hpos, hlast, ids, hids, hconfined⟩ := hs.waiting call hcall
  refine ⟨hs.pending, hs.applied, hs.acks, hs.top, (fun _ h => by cases h), ?_⟩
  intro call' hcall' hok ids' hids'
  rcases mem_append.mp hcall' with hold | hnew
  · exact hs.returned call' hold hok ids' hids'
  · rw [mem_singleton.mp hnew] at hok hids' ⊢
    have hle := hresult hok
    rw [hids] at hids'
    cases hids'
    rcases hs.top with hzero | ⟨c, hc, hv⟩
    · rw [hzero] at hle
      exact absurd hpos (Nat.not_lt_of_le hle)
    · have hsame : h.applied = call.version :=
        Nat.le_antisymm (hlast _ (hs.applied c hc _ hv)) hle
      obtain ⟨i, hi⟩ := getElem?_of_mem hc
      rw [hsame] at hv
      exact ⟨i, (hconfined i c hi).2 hv, c, hi, hv⟩

theorem Sound.step (hs : h.Sound) {e : HubEvent} (ha : h.Ascending e) : (h.step e).Sound := by
  cases e with
  | accept store => exact hs.accept store
  | subscribe i => exact hs.onConnection fun c _ => c.moves_subscribe
  | request i => exact hs.onConnection fun c _ => c.moves_request
  | onCommit v changes timestampMs =>
    unfold PrimaryReplicationHub.step
    cases hwaiting : h.waiting with
    | some call => exact hs
    | none => exact hs.onCommit ha.1 ha.2 changes timestampMs
  | forward i => exact hs.onConnection fun c _ => c.moves_forward
  | serve i primary => exact hs.serve i primary
  | receive i io reload => exact hs.onConnection fun c _ => c.moves_receive io reload
  | close i => exact hs.onConnection fun c _ => c.moves_close
  | stop i => exact hs.onConnection fun c _ => c.moves_stop
  | wake =>
    unfold PrimaryReplicationHub.step
    cases hwaiting : h.waiting with
    | none => exact hs
    | some call =>
      simp only
      split
      · exact hs
      · rename_i hreached
        exact hs.finish hwaiting fun _ => Nat.le_of_not_lt hreached
  | timeout =>
    unfold PrimaryReplicationHub.step
    cases hwaiting : h.waiting with
    | none => exact hs
    | some call =>
      simp only
      split
      · exact hs.finish hwaiting fun hok => by cases hok
      · exact hs

/-- **In every run, over any number of standbys and any order of what they do, a call of `on_commit` that
has broadcast its record returns well only once a standby that was connected at the broadcast has applied
it; where one standby was connected, that one has.** -/
theorem remoteApply_appliedSomewhere (events : List HubEvent)
    (hrun : Meets PrimaryReplicationHub.step Ascending new events) :
    (runs PrimaryReplicationHub.step new events).AppliedSomewhere :=
  (invariant_runs (fun _ _ hs ha => hs.step ha) sound_new hrun).appliedSomewhere

def standbyFollows (i : Nat) : List HubEvent :=
  [.accept .new, .subscribe i, .request i, .serve i .new, .receive i .done (.ok ())]

def firstCommit : HubEvent := .onCommit 1 [.put "items" [1] [7]] 0

/-- A standby applies the record and its acknowledgement wakes the primary. -/
def standbyAcknowledges (i : Nat) : List HubEvent :=
  [.forward i, .receive i .done (.ok ()), .serve i .new, .wake]

theorem remoteApply_appliedSomewhere_oneStandby :
    (runs PrimaryReplicationHub.step new
      (standbyFollows 0 ++ firstCommit :: standbyAcknowledges 0)).HasApplied 0 1 :=
  (remoteApply_appliedSomewhere (standbyFollows 0 ++ firstCommit :: standbyAcknowledges 0)
    ⟨trivial, trivial, trivial, trivial, trivial, ⟨by decide, by decide⟩, trivial, trivial, trivial,
      trivial, trivial⟩ (⟨1, some [0]⟩, .ok ()) mem_cons_self rfl [0] rfl).2 0 rfl

/-- Two standbys follow, and the first acknowledgement ends the wait. -/
theorem remoteApply_misses_secondStandby :
    ¬ (runs PrimaryReplicationHub.step new
      (standbyFollows 0 ++ standbyFollows 1 ++ firstCommit :: standbyAcknowledges 0)).AppliedEverywhere := by
  intro h
  have hcall := h (⟨1, some [0, 1]⟩, .ok ()) mem_cons_self rfl [0, 1] rfl 1 (by simp)
  rcases hcall with ⟨c, hc, hv⟩ | ⟨c, hc, hd⟩
  · have hnone : c.appliedVersions = [] := by
      cases hc
      rfl
    rw [hnone] at hv
    cases hv
  · cases hc
    revert hd
    decide

end PrimaryReplicationHub

end H2Database.Replication
