import H2Database.Mvstore.Tx.Orderly

/-!
# Stored values against the trace

`Faithful` ties the values a store holds to the trace of its transactions: the mark under a key is the
last write of the open transaction that owns it, the history of a key is the newest part of the records
committed under it, and an open transaction's snapshot cuts those records into the ones committed
since it began and the ones before.
-/

namespace H2Database.Mvstore

open Reasoning MVStore VersionedValue TransactionStore List Option Function

namespace TxSystem

theorem Effect.edited {sys sys' : TxSystem} {call : Call} {e : Option Event}
    (h : Effect sys call sys' e) : Edited sys.store.mvstore sys'.store.mvstore := by
  cases h with
  | idle => exact Edited.refl _
  | began _ => exact Edited.refl _
  | quiet _ _ hq _ => exact hq.edited
  | marked _ _ _ _ hm _ => exact hm.edited
  | rolledBack _ _ hr => exact hr.edited
  | closed _ _ _ _ => exact Edited.refl _
  | committed _ _ _ hc => exact hc.edited

/-! ## Sleeping writes -/

section Sleeping

def Sleeping (P : MVStore Stored → WriteCall → Prop) (sys : TxSystem) : Prop :=
  ∀ tx t w, sys.transactions.lookup tx = some t → t.waiting = some w → P sys.store.mvstore w.call

variable {P : MVStore Stored → WriteCall → Prop}
  (hedited : ∀ s s' wc, P s wc → Edited s s' → P s' wc)
  (hfind : ∀ (s : MVStore Stored) wc, s.maps.find wc.mapName = some wc.map → P s wc)

include hedited

theorem Sleeping.after {sys : TxSystem} (h : sys.Sleeping P) {tx : Nat} {t : Transaction}
    {ts : TransactionStore} (he : Edited sys.store.mvstore ts.mvstore)
    (hw : ∀ w, t.waiting = some w → P ts.mvstore w.call) : (sys.after tx (t, ts)).Sleeping P := by
  intro tx' t' w ht' hw'
  rw [lookup_after] at ht'
  split_ifs at ht' with htx
  · cases ht'
    exact hw w hw'
  · exact hedited _ _ _ (h tx' t' w ht' hw') he

include hfind

theorem Sleeping.reaches {sys : TxSystem} (h : sys.Sleeping P) {tx : Nat} {t : Transaction}
    {ts : TransactionStore} {wc : WriteCall} (ht : sys.transactions.lookup tx = some t)
    (he : Edited sys.store.mvstore ts.mvstore) (hr : Reaches t ts wc) : P ts.mvstore wc := by
  rcases hr with hopened | ⟨w, hw, rfl⟩
  · exact hfind _ _ hopened
  · exact hedited _ _ _ (h tx t w ht hw) he

theorem Sleeping.effect {sys sys' : TxSystem} (h : sys.Sleeping P) {call : Call} {e : Option Event}
    (he : Effect sys call sys' e) : sys'.Sleeping P := by
  have hawake : ∀ {t : Transaction}, t.waiting = none → ∀ {s : MVStore Stored} w,
      t.waiting = some w → P s w.call := by
    intro t hnone s w hw
    rw [hnone] at hw
    cases hw
  have hstore := he.edited
  cases he with
  | idle => exact h
  | began _ =>
    change (sys.after sys.store.nextTxId (sys.store.begin.1, sys.store.begin.2)).Sleeping P
    exact h.after hedited hstore (hawake rfl)
  | @quiet tx t ts waiting ht hq hw =>
    refine h.after hedited hstore fun w hw' => ?_
    rcases (hw w hw').2 with hold | hsleeps
    · exact hedited _ _ _ (h tx t w ht hold) hq.edited
    · exact h.reaches hedited hfind ht hq.edited hsleeps.reaches
  | marked => exact h.after hedited hstore (hawake rfl)
  | rolledBack => exact h.after hedited hstore (hawake rfl)
  | closed _ _ hnone _ => exact h.after hedited hstore (hawake hnone)
  | committed _ _ hnone _ => exact h.after hedited hstore (hawake hnone)

end Sleeping

def AtName (s : MVStore Stored) (wc : WriteCall) : Prop := s.maps.find wc.mapName = some wc.map

def Bound (sys : TxSystem) : Prop :=
  ∀ tx t w, sys.transactions.lookup tx = some t → t.waiting = some w →
    sys.store.mvstore.maps.find w.call.mapName = some w.call.map

theorem Bound.reaches {sys : TxSystem} (h : sys.Bound) {tx : Nat} {t : Transaction}
    {ts : TransactionStore} {wc : WriteCall} (ht : sys.transactions.lookup tx = some t)
    (he : Edited sys.store.mvstore ts.mvstore) (hr : Reaches t ts wc) :
    ts.mvstore.maps.find wc.mapName = some wc.map :=
  Sleeping.reaches (P := AtName) (fun _ _ _ hwc he => he.find hwc) (fun _ _ hwc => hwc) h ht he hr

theorem Bound.effect {sys sys' : TxSystem} (h : sys.Bound) {call : Call} {e : Option Event}
    (he : Effect sys call sys' e) : sys'.Bound :=
  Sleeping.effect (P := AtName) (fun _ _ _ hwc he => he.find hwc) (fun _ _ hwc => hwc) h he

end TxSystem

/-! ## The values a call leaves -/

namespace MVStore

variable {n : String}

theorem versioned_of_read {s : MVStore Stored} {k : Key} {vv : VersionedValue}
    (h : s.read n k = some (.versioned vv)) : s.versioned n k = vv := by
  rw [versioned, h]

theorem versioned_of_read_none {s : MVStore Stored} {k : Key}
    (h : s.read n k = none) : s.versioned n k = ⟨none, []⟩ := by
  rw [versioned, h]

theorem versioned_of_read_eq {s s' : MVStore Stored} {k : Key}
    (h : s'.read n k = s.read n k) : s'.versioned n k = s.versioned n k := by
  rw [versioned, versioned, h]

end MVStore

variable {logs : List UndoLogEntry}

theorem Transaction.Committed.versioned {s s' : MVStore Stored} {tx : Nat}
    (h : Transaction.Committed s s' tx logs) (hv : s.AllVersioned) (n : String) (k : Key) :
    s'.versioned n k = if ⟨n, k⟩ ∈ logs ∧ (s.versioned n k).activeTxId = some tx then
      (s.versioned n k).commitUncommitted (s.nextCommitVersion + 1) else s.versioned n k := by
  have hread := h.read n k
  by_cases hlog : (⟨n, k⟩ : UndoLogEntry) ∈ logs
  · rw [if_pos hlog] at hread
    rcases hv.read n k with hnone | hsome
    · rw [hnone] at hread
      have hempty := versioned_of_read_none hnone
      rw [versioned_of_read_none hread, hempty, if_neg (by simp [activeTxId])]
    · rw [hsome] at hread
      simp only [afterCommit] at hread
      split_ifs at hread with hown
      · rw [versioned_of_read hread, if_pos ⟨hlog, hown⟩]
      · rw [versioned_of_read hread, if_neg fun hc => hown hc.2]
  · rw [if_neg hlog] at hread
    rw [versioned_of_read_eq hread, if_neg fun hc => hlog hc.1]

variable {ts ts' : TransactionStore}

theorem TransactionStore.RolledBack.versioned {tx : Nat}
    (h : RolledBack ts ts' tx logs) (hv : ts.mvstore.AllVersioned) (n : String) (k : Key) :
    ts'.mvstore.versioned n k =
      if ⟨n, k⟩ ∈ logs ∧ (ts.mvstore.versioned n k).activeTxId = some tx then
        (ts.mvstore.versioned n k).rollbackUncommitted else ts.mvstore.versioned n k := by
  have hread := h.read n k
  by_cases hlog : (⟨n, k⟩ : UndoLogEntry) ∈ logs
  · rw [if_pos hlog] at hread
    rcases hv.read n k with hnone | hsome
    · rw [hnone] at hread
      rw [versioned_of_read_none hread, versioned_of_read_none hnone, if_neg (by simp [activeTxId])]
    · rw [hsome] at hread
      simp only [afterRollback] at hread
      split_ifs at hread with hown hempty
      · -- the key is gone, and there was nothing committed under it
        rw [versioned_of_read_none hread, if_pos ⟨hlog, hown⟩, rollbackUncommitted,
          isEmpty_iff.mp hempty]
      · rw [versioned_of_read hread, if_pos ⟨hlog, hown⟩]
      · rw [versioned_of_read hread, if_neg fun hc => hown hc.2]
  · rw [if_neg hlog] at hread
    rw [versioned_of_read_eq hread, if_neg fun hc => hlog hc.1]

theorem TransactionStore.Marked.versioned {tx : Nat} {wc : WriteCall}
    (h : Marked ts ts' tx wc) (hfind : ts'.mvstore.maps.find wc.mapName = some wc.map) (n : String)
    (k : Key) :
    ts'.mvstore.versioned n k = if n = wc.mapName ∧ k = wc.key then
      { ts.mvstore.versioned n k with uncommitted := some ⟨tx, wc.value⟩ }
      else ts.mvstore.versioned n k := by
  have hread := h.read hfind n k
  split_ifs at hread ⊢
  · exact versioned_of_read hread
  · exact versioned_of_read_eq hread

abbrev Base := String → Key → List VersionRecord

structure Faithful (base : Base) (sys : TxSystem) (tr : Trace) : Prop where
  orderly : sys.Orderly
  bound : sys.Bound
  silent : ∀ tx n k, sys.store.nextTxId ≤ tx → tr.ownWrite tx n k = none
  marks : ∀ n k u, (sys.store.mvstore.versioned n k).uncommitted = some u →
    (sys.opened u.txId).isSome ∧ tr.ownWrite u.txId n k = some u.value
  own : ∀ tx n k value, (sys.opened tx).isSome → tr.ownWrite tx n k = some value →
    (sys.store.mvstore.versioned n k).uncommitted = some ⟨tx, value⟩
  undo : ∀ tx sv logs n k, sys.opened tx = some (sv, logs) →
    (⟨n, k⟩ ∈ logs ↔ (tr.ownWrite tx n k).isSome)
  kept : ∀ n k, (sys.store.mvstore.versioned n k).committedHistory =
    (tr.commitLog (base n k) n k).take 32
  descending : ∀ n k, (tr.commitLog (base n k) n k).Pairwise fun r r' =>
    r'.commitVersion < r.commitVersion
  bounded : ∀ n k, ∀ r ∈ tr.commitLog (base n k) n k,
    r.commitVersion ≤ sys.store.mvstore.version
  since : ∀ tx sv logs n k, sys.opened tx = some (sv, logs) → ∃ newer older,
    tr.commitLog (base n k) n k = newer ++ older ∧ newer.length = tr.commitsSince tx n k ∧
      (∀ r ∈ newer, sv < r.commitVersion) ∧ ∀ r ∈ older, r.commitVersion ≤ sv
  snapshot : ∀ tx sv logs, sys.opened tx = some (sv, logs) → sv ≤ sys.store.mvstore.version

namespace Faithful

variable {base : Base} {sys : TxSystem} {tr : Trace}

variable {sys' : TxSystem}

theorem same (h : Faithful base sys tr) (ho : sys'.Orderly) (hb : sys'.Bound)
    (hnext : sys'.store.nextTxId = sys.store.nextTxId) (hopened : sys'.opened = sys.opened)
    (hversioned : sys'.store.mvstore.versioned = sys.store.mvstore.versioned)
    (hversion : sys'.store.mvstore.version = sys.store.mvstore.version) : Faithful base sys' tr where
  orderly := ho
  bound := hb
  silent := hnext ▸ h.silent
  marks := by rw [hversioned, hopened]; exact h.marks
  own := by rw [hversioned, hopened]; exact h.own
  undo := by rw [hopened]; exact h.undo
  kept := by rw [hversioned]; exact h.kept
  descending := h.descending
  bounded := by rw [hversion]; exact h.bounded
  since := by rw [hopened]; exact h.since
  snapshot := by rw [hopened, hversion]; exact h.snapshot

theorem began (h : Faithful base sys tr) (ho : sys'.Orderly) (hb : sys'.Bound)
    (hnext : sys'.store.nextTxId = sys.store.nextTxId + 1) (hmvstore : sys'.store.mvstore = sys.store.mvstore)
    (hopened : sys'.opened =
      Function.update sys.opened sys.store.nextTxId (some (sys.store.mvstore.version, []))) :
    Faithful base sys' (.began sys.store.nextTxId sys.store.mvstore.version :: tr) where
  orderly := ho
  bound := hb
  silent tx n k htx := h.silent tx n k (by omega)
  marks n k u hu := by
    rw [hmvstore] at hu
    obtain ⟨hsome, hown⟩ := h.marks n k u hu
    refine ⟨?_, hown⟩
    rw [hopened, update_apply]
    split_ifs
    · rfl
    · exact hsome
  own tx n k value hsome hown := by
    rw [Trace.ownWrite_began] at hown
    rw [hmvstore]
    refine h.own tx n k value ?_ hown
    rw [hopened, update_apply] at hsome
    split_ifs at hsome with htx
    · rw [htx, h.silent _ n k (Nat.le_refl _)] at hown
      cases hown
    · exact hsome
  undo tx sv logs n k htx := by
    rw [hopened, update_apply] at htx
    split_ifs at htx with heq
    · cases htx
      rw [Trace.ownWrite_began, heq, h.silent _ n k (Nat.le_refl _)]
      simp
    · exact h.undo tx sv logs n k htx
  kept n k := by rw [hmvstore]; exact h.kept n k
  descending := h.descending
  bounded n k r hr := by rw [hmvstore]; exact h.bounded n k r hr
  since tx sv logs n k htx := by
    rw [hopened, update_apply] at htx
    rw [Trace.commitsSince_began, Trace.commitLog_began]
    split_ifs at htx with heq
    · cases htx
      refine ⟨[], _, rfl, ?_, fun r hr => absurd hr not_mem_nil, h.bounded n k⟩
      rw [if_pos heq.symm]
      rfl
    · rw [if_neg (Ne.symm heq)]
      exact h.since tx sv logs n k htx
  snapshot tx sv logs htx := by
    rw [hmvstore]
    rw [hopened, update_apply] at htx
    split_ifs at htx
    · cases htx
      exact Nat.le_refl _
    · exact h.snapshot tx sv logs htx

theorem mark_owner {ts : TransactionStore} {tx : Nat} {wc : WriteCall} (h : Faithful base sys tr)
    (hm : Marked sys.store ts tx wc)
    (hfind : ts.mvstore.maps.find wc.mapName = some wc.map) {u : UncommittedRecord}
    (hu : (sys.store.mvstore.versioned wc.mapName wc.key).uncommitted = some u) : u.txId = tx := by
  by_contra hne
  have hinactive := hm.free hfind u hu hne
  rw [h.orderly.active, (h.marks _ _ u hu).1] at hinactive
  cases hinactive

theorem marked {tx sv : Nat} {logs : List UndoLogEntry} {wc : WriteCall}
    (h : Faithful base sys tr) (ho : sys'.Orderly) (hb : sys'.Bound) (hm : Marked sys.store sys'.store tx wc)
    (hfind : sys'.store.mvstore.maps.find wc.mapName = some wc.map) (htx : sys.opened tx = some (sv, logs))
    (hopened : sys'.opened =
      Function.update sys.opened tx (some (sv, logs ++ [⟨wc.mapName, wc.key⟩]))) :
    Faithful base sys' (.wrote tx wc.mapName wc.key wc.value :: tr) where
  orderly := ho
  bound := hb
  silent tx' n k htx' := by
    rw [hm.nextTxId] at htx'
    rw [Trace.ownWrite_wrote, if_neg, h.silent tx' n k htx']
    rintro ⟨rfl, -⟩
    have hnone := h.orderly.fresh tx htx'
    rw [TxSystem.opened, hnone] at htx
    cases htx
  marks n k u hu := by
    rw [hm.versioned hfind, Trace.ownWrite_wrote] at *
    have hsome : ∀ tx', (sys.opened tx').isSome → (sys'.opened tx').isSome := by
      intro tx' hsome
      rw [hopened, update_apply]
      split_ifs
      · rfl
      · exact hsome
    split_ifs at hu with hnk
    · cases hu
      exact ⟨hsome tx (by rw [htx]; rfl), by rw [if_pos ⟨rfl, hnk.1.symm, hnk.2.symm⟩]⟩
    · obtain ⟨hopen, hown⟩ := h.marks n k u hu
      refine ⟨hsome _ hopen, ?_⟩
      rw [if_neg fun hc => hnk ⟨hc.2.1.symm, hc.2.2.symm⟩]
      exact hown
  own tx' n k value hsome hown := by
    rw [hm.versioned hfind]
    rw [Trace.ownWrite_wrote] at hown
    have hold : (sys.opened tx').isSome := by
      rw [hopened, update_apply] at hsome
      split_ifs at hsome with heq
      · rw [heq, htx]
        rfl
      · exact hsome
    by_cases hnk : n = wc.mapName ∧ k = wc.key
    · rw [if_pos hnk]
      by_cases heq : tx = tx'
      · rw [if_pos ⟨heq, hnk.1.symm, hnk.2.symm⟩] at hown
        cases hown
        rw [heq]
      · -- another open transaction cannot have a mark here
        rw [if_neg fun hc => heq hc.1] at hown
        have hu := h.own tx' n k value hold hown
        rw [hnk.1, hnk.2] at hu
        exact absurd (h.mark_owner hm hfind hu).symm heq
    · rw [if_neg hnk]
      rw [if_neg fun hc => hnk ⟨hc.2.1.symm, hc.2.2.symm⟩] at hown
      exact h.own tx' n k value hold hown
  undo tx' sv' logs' n k htx' := by
    rw [hopened, update_apply] at htx'
    rw [Trace.ownWrite_wrote]
    split_ifs at htx' with heq
    · cases htx'
      rw [mem_append, mem_singleton, UndoLogEntry.mk.injEq, heq, h.undo tx sv logs n k htx]
      by_cases hnk : n = wc.mapName ∧ k = wc.key
      · simp [hnk.1, hnk.2]
      · rw [if_neg fun hc => hnk ⟨hc.2.1.symm, hc.2.2.symm⟩]
        simp only [hnk, or_false]
    · rw [if_neg fun hc => heq hc.1.symm]
      exact h.undo tx' sv' logs' n k htx'
  kept n k := by
    rw [hm.versioned hfind, Trace.commitLog_wrote, ← h.kept n k]
    split_ifs <;> rfl
  descending := h.descending
  bounded n k r hr := by rw [hm.version]; exact h.bounded n k r hr
  since tx' sv' logs' n k htx' := by
    rw [hopened, update_apply] at htx'
    rw [Trace.commitLog_wrote, Trace.commitsSince_wrote]
    split_ifs at htx' with heq
    · cases htx'
      rw [heq]
      exact h.since tx sv logs n k htx
    · exact h.since tx' sv' logs' n k htx'
  snapshot tx' sv' logs' htx' := by
    rw [hm.version]
    rw [hopened, update_apply] at htx'
    split_ifs at htx'
    · cases htx'
      exact h.snapshot tx sv logs htx
    · exact h.snapshot tx' sv' logs' htx'

section Ended

variable {sys' : TxSystem} {tx sv : Nat} {logs : List UndoLogEntry}

theorem mem_undo_iff (h : Faithful base sys tr) (htx : sys.opened tx = some (sv, logs)) (n : String)
    (k : Key) :
    ⟨n, k⟩ ∈ logs ↔ (sys.store.mvstore.versioned n k).activeTxId = some tx := by
  rw [h.undo tx sv logs n k htx, activeTxId]
  constructor
  · intro hsome
    obtain ⟨value, hvalue⟩ := isSome_iff_exists.mp hsome
    rw [h.own tx n k value (by rw [htx]; rfl) hvalue, map_some]
  · intro hactive
    obtain ⟨u, hu, rfl⟩ := map_eq_some_iff.mp hactive
    rw [(h.marks n k u hu).2]
    rfl

def Unmarked (sys sys' : TxSystem) (tx : Nat) : Prop :=
  ∀ n k, (sys'.store.mvstore.versioned n k).uncommitted =
    if (sys.store.mvstore.versioned n k).activeTxId = some tx then none
    else (sys.store.mvstore.versioned n k).uncommitted

theorem marks_ended (h : Faithful base sys tr) (hu : Unmarked sys sys' tx)
    (hopened : sys'.opened = Function.update sys.opened tx none) (n : String) (k : Key)
    (u : UncommittedRecord) (hmark : (sys'.store.mvstore.versioned n k).uncommitted = some u) :
    (sys'.opened u.txId).isSome ∧ tr.ownWrite u.txId n k = some u.value := by
  rw [hu n k] at hmark
  split_ifs at hmark with hactive
  obtain ⟨hsome, hown⟩ := h.marks n k u hmark
  refine ⟨?_, hown⟩
  rw [hopened, update_of_ne, hsome]
  rintro rfl
  exact hactive (by rw [activeTxId, hmark, map_some])

theorem own_ended (h : Faithful base sys tr) (hu : Unmarked sys sys' tx)
    (hopened : sys'.opened = Function.update sys.opened tx none) (tx' : Nat) (n : String) (k : Key)
    (value : Option (List UInt8)) (hsome : (sys'.opened tx').isSome)
    (hown : tr.ownWrite tx' n k = some value) :
    (sys'.store.mvstore.versioned n k).uncommitted = some ⟨tx', value⟩ := by
  rw [hopened, update_apply] at hsome
  split_ifs at hsome with heq
  · cases hsome
  · have hmark := h.own tx' n k value hsome hown
    rw [hu n k, if_neg, hmark]
    rw [activeTxId, hmark, map_some]
    intro hc
    exact heq (Option.some.inj hc)

theorem opened_ended (hopened : sys'.opened = Function.update sys.opened tx none) {tx' : Nat}
    {p : Nat × List UndoLogEntry} (h : sys'.opened tx' = some p) :
    tx' ≠ tx ∧ sys.opened tx' = some p := by
  rw [hopened, update_apply] at h
  split_ifs at h with heq
  exact ⟨heq, h⟩

theorem rolledBack (h : Faithful base sys tr) (ho : sys'.Orderly) (hb : sys'.Bound)
    (hr : RolledBack sys.store sys'.store tx logs) (htx : sys.opened tx = some (sv, logs))
    (hopened : sys'.opened = Function.update sys.opened tx none) : Faithful base sys' tr := by
  have hversioned : ∀ n k, sys'.store.mvstore.versioned n k =
      if (sys.store.mvstore.versioned n k).activeTxId = some tx then
        (sys.store.mvstore.versioned n k).rollbackUncommitted
      else sys.store.mvstore.versioned n k := by
    intro n k
    rw [hr.versioned h.orderly.versioned]
    simp only [h.mem_undo_iff htx, and_self]
  have hunmarked : Unmarked sys sys' tx := by
    intro n k
    rw [hversioned]
    split_ifs <;> rfl
  refine ⟨ho, hb, ?_, h.marks_ended hunmarked hopened, h.own_ended hunmarked hopened, ?_, ?_,
    h.descending, ?_, ?_, ?_⟩
  · rw [hr.nextTxId]
    exact h.silent
  · intro tx' sv' logs' n k htx'
    exact h.undo tx' sv' logs' n k (opened_ended hopened htx').2
  · intro n k
    rw [hversioned, ← h.kept n k]
    split_ifs <;> rfl
  · rw [hr.version]
    exact h.bounded
  · intro tx' sv' logs' n k htx'
    exact h.since tx' sv' logs' n k (opened_ended hopened htx').2
  · intro tx' sv' logs' htx'
    rw [hr.version]
    exact h.snapshot tx' sv' logs' (opened_ended hopened htx').2

theorem closed (h : Faithful base sys tr) (ho : sys'.Orderly) (hb : sys'.Bound)
    (hmvstore : sys'.store.mvstore = sys.store.mvstore)
    (hnext : sys'.store.nextTxId = sys.store.nextTxId) (htx : sys.opened tx = some (sv, []))
    (hopened : sys'.opened = Function.update sys.opened tx none) (cv : Nat) :
    Faithful base sys' (.committed tx cv :: tr) := by
  have hnone : ∀ n k, tr.ownWrite tx n k = none := by
    intro n k
    rw [← not_isSome_iff_eq_none, ← h.undo tx sv [] n k htx]
    exact not_mem_nil
  have hlog : ∀ n k, Trace.commitLog (base n k) n k (.committed tx cv :: tr) =
      tr.commitLog (base n k) n k := fun n k => Trace.commitLog_committed_of_none (hnone n k) cv _
  have hunmarked : Unmarked sys sys' tx := by
    intro n k
    rw [hmvstore, if_neg]
    rw [← h.mem_undo_iff htx]
    exact not_mem_nil
  refine ⟨ho, hb, ?_, h.marks_ended hunmarked hopened, h.own_ended hunmarked hopened, ?_, ?_,
    ?_, ?_, ?_, ?_⟩
  · rw [hnext]
    exact h.silent
  · intro tx' sv' logs' n k htx'
    exact h.undo tx' sv' logs' n k (opened_ended hopened htx').2
  · intro n k
    rw [hmvstore, hlog]
    exact h.kept n k
  · intro n k
    rw [hlog]
    exact h.descending n k
  · intro n k
    rw [hmvstore, hlog]
    exact h.bounded n k
  · intro tx' sv' logs' n k htx'
    rw [hlog, Trace.commitsSince_committed, hnone n k]
    exact h.since tx' sv' logs' n k (opened_ended hopened htx').2
  · intro tx' sv' logs' htx'
    rw [hmvstore]
    exact h.snapshot tx' sv' logs' (opened_ended hopened htx').2

theorem committed (h : Faithful base sys tr) (ho : sys'.Orderly) (hb : sys'.Bound)
    (hc : Transaction.Committed sys.store.mvstore sys'.store.mvstore tx logs)
    (hnext : sys'.store.nextTxId = sys.store.nextTxId) (htx : sys.opened tx = some (sv, logs))
    (hopened : sys'.opened = Function.update sys.opened tx none) :
    Faithful base sys' (.committed tx sys'.store.mvstore.version :: tr) := by
  have hversion := hc.version
  have hcounter := h.orderly.counter
  have hversioned : ∀ n k, sys'.store.mvstore.versioned n k =
      if (sys.store.mvstore.versioned n k).activeTxId = some tx then
        (sys.store.mvstore.versioned n k).commitUncommitted sys'.store.mvstore.version
      else sys.store.mvstore.versioned n k := by
    intro n k
    rw [hc.versioned h.orderly.versioned, hversion]
    simp only [h.mem_undo_iff htx, and_self]
  have hunmarked : Unmarked sys sys' tx := by
    intro n k
    rw [hversioned]
    split_ifs with hactive
    · obtain ⟨u, hu, _⟩ := map_eq_some_iff.mp hactive
      rw [commitUncommitted, hu]
    · rfl
  -- under each key, either nothing has changed or one record was committed
  have hkey : ∀ n k,
      (tr.ownWrite tx n k = none ∧
        sys'.store.mvstore.versioned n k = sys.store.mvstore.versioned n k) ∨
      ∃ value, tr.ownWrite tx n k = some value ∧
        (sys'.store.mvstore.versioned n k).committedHistory =
          (⟨value, sys'.store.mvstore.version⟩ ::
            (sys.store.mvstore.versioned n k).committedHistory).take 32 := by
    intro n k
    have hmem := h.mem_undo_iff htx n k
    rw [h.undo tx sv logs n k htx] at hmem
    cases hown : tr.ownWrite tx n k with
    | none =>
      refine .inl ⟨rfl, ?_⟩
      rw [hversioned, if_neg]
      rw [← hmem, hown]
      simp
    | some value =>
      refine .inr ⟨value, rfl, ?_⟩
      have hmark := h.own tx n k value (by rw [htx]; rfl) hown
      rw [hversioned, if_pos (hmem.mp (by rw [hown]; rfl)), commitUncommitted, hmark]
  refine ⟨ho, hb, ?_, h.marks_ended hunmarked hopened, h.own_ended hunmarked hopened, ?_, ?_,
    ?_, ?_, ?_, ?_⟩
  · rw [hnext]
    exact h.silent
  · intro tx' sv' logs' n k htx'
    exact h.undo tx' sv' logs' n k (opened_ended hopened htx').2
  · intro n k
    rcases hkey n k with ⟨hnone, hsame⟩ | ⟨value, hown, hhist⟩
    · rw [Trace.commitLog_committed_of_none hnone, hsame]
      exact h.kept n k
    · rw [Trace.commitLog_committed_of_some hown, hhist, h.kept n k, take_succ_cons,
        take_succ_cons, take_take]
      rfl
  · intro n k
    rcases hkey n k with ⟨hnone, _⟩ | ⟨value, hown, _⟩
    · rw [Trace.commitLog_committed_of_none hnone]
      exact h.descending n k
    · rw [Trace.commitLog_committed_of_some hown, pairwise_cons]
      refine ⟨fun r hr => ?_, h.descending n k⟩
      have hle := h.bounded n k r hr
      change r.commitVersion < sys'.store.mvstore.version
      omega
  · intro n k r hr
    rcases hkey n k with ⟨hnone, _⟩ | ⟨value, hown, _⟩
    · rw [Trace.commitLog_committed_of_none hnone] at hr
      have hle := h.bounded n k r hr
      omega
    · rw [Trace.commitLog_committed_of_some hown] at hr
      rcases mem_cons.mp hr with rfl | hr
      · exact Nat.le_refl _
      · have hle := h.bounded n k r hr
        omega
  · intro tx' sv' logs' n k htx'
    have htx₀ := (opened_ended hopened htx').2
    obtain ⟨newer, older, hlog, hlen, hnew, hold⟩ := h.since tx' sv' logs' n k htx₀
    rcases hkey n k with ⟨hnone, _⟩ | ⟨value, hown, _⟩
    · rw [Trace.commitLog_committed_of_none hnone, Trace.commitsSince_committed, hnone]
      exact ⟨newer, older, hlog, hlen, hnew, hold⟩
    · rw [Trace.commitLog_committed_of_some hown, Trace.commitsSince_committed, hown, hlog]
      refine ⟨_ :: newer, older, rfl, ?_, fun r hr => ?_, hold⟩
      · rw [length_cons, hlen]
        rfl
      · rcases mem_cons.mp hr with rfl | hr
        · have hle := h.snapshot tx' sv' logs' htx₀
          change sv' < sys'.store.mvstore.version
          omega
        · exact hnew r hr
  · intro tx' sv' logs' htx'
    have hle := h.snapshot tx' sv' logs' (opened_ended hopened htx').2
    omega

end Ended

theorem effect {call : Call} {e : Option Event} (h : Faithful base sys tr)
    (he : TxSystem.Effect sys call sys' e) : Faithful base sys' (e.toList ++ tr) := by
  have ho := h.orderly.effect he
  have hb := h.bound.effect he
  cases he with
  | idle => exact h
  | began _ => exact h.began ho hb rfl rfl (TxSystem.opened_after sys _ (_, _))
  | @quiet tx t ts waiting ht hq hw =>
    have hopened : (sys.after tx ({ t with waiting }, ts)).opened = sys.opened :=
      TxSystem.opened_after_same ht (by rfl)
    exact h.same ho hb hq.nextTxId hopened (versioned_congr hq.read) hq.version
  | @marked tx t ts wc ht hopen htarget hreach hm hvisible =>
    refine h.marked ho hb hm (h.bound.reaches ht hm.edited hreach)
      (TxSystem.opened_of_lookup ht hopen) ?_
    rw [TxSystem.opened_after, Transaction.openView, if_pos hopen]
  | rolledBack ht hopen hr =>
    exact h.rolledBack ho hb hr (TxSystem.opened_of_lookup ht hopen)
      (TxSystem.opened_after sys _ (_, _))
  | @closed tx t ht hopen hawake hundo =>
    have htx := TxSystem.opened_of_lookup ht hopen
    rw [hundo] at htx
    exact h.closed ho hb rfl rfl htx (TxSystem.opened_after sys _ (_, _)) _
  | committed ht hopen hawake hc =>
    exact h.committed ho hb hc rfl (TxSystem.opened_of_lookup ht hopen)
      (TxSystem.opened_after sys _ (_, _))

theorem step (h : Faithful base sys tr) (call : Call) :
    Faithful base (sys.step call).2 ((sys.event call).toList ++ tr) :=
  h.effect (h.orderly.step_effect call)

end Faithful

end H2Database.Mvstore
