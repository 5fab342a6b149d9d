import H2Database.Mvstore.Tx.Faithful

/-!
# Snapshot reads

What `Transaction::get` answers in any interleaving of transactions, read off the trace, and how long
the record a snapshot sees is kept.
-/

namespace H2Database.Mvstore

open Reasoning MVStore VersionedValue TransactionStore List Option Nat

/-! ## Runs from a store at rest -/

/-- A store no transaction is using: nothing is marked, and the histories are in order. -/
structure MVStore.AtRest (s : MVStore Stored) : Prop where
  versioned : s.AllVersioned
  unmarked : ∀ n k, (s.versioned n k).uncommitted = none
  short : ∀ n k, (s.versioned n k).committedHistory.length ≤ 32
  descending : ∀ n k, (s.versioned n k).committedHistory.Pairwise fun r r' =>
    r'.commitVersion < r.commitVersion
  bounded : ∀ n k, ∀ r ∈ (s.versioned n k).committedHistory, r.commitVersion ≤ s.version
  counter : s.version ≤ s.nextCommitVersion

theorem MVStore.atRest_new : (new : MVStore Stored).AtRest where
  versioned n k stored h := by cases h
  unmarked n k := rfl
  short n k := zero_le 32
  descending n k := List.Pairwise.nil
  bounded n k r hr := by cases hr
  counter := le_refl 0

def MVStore.base (s : MVStore Stored) : Base := fun n k => (s.versioned n k).committedHistory

namespace TracedTx

theorem faithful_new {s : MVStore Stored} (h : s.AtRest) :
    Faithful s.base (new s).sys (new s).trace where
  orderly := TxSystem.orderly_new h.versioned h.counter
  bound _ _ _ ht := by cases ht
  silent _ _ _ _ := rfl
  marks n k u hu := by
    change (s.versioned n k).uncommitted = some u at hu
    rw [h.unmarked] at hu
    cases hu
  own _ _ _ _ _ hown := by cases hown
  undo _ _ _ _ _ htx := by cases htx
  kept n k := (take_of_length_le (h.short n k)).symm
  descending := h.descending
  bounded := h.bounded
  since _ _ _ _ _ htx := by cases htx
  snapshot _ _ _ htx := by cases htx

theorem faithful_runs {base : Base} {t : TracedTx} (h : Faithful base t.sys t.trace)
    (calls : List Call) :
    Faithful base (runs step t calls).sys (runs step t calls).trace := by
  induction calls generalizing t with
  | nil => exact h
  | cons call calls ih => exact ih (h.step call)

end TracedTx

theorem VersionedValue.readVisible_empty (tx sv : Nat) :
    (⟨none, []⟩ : VersionedValue).readVisible tx sv = none := rfl

theorem Transaction.readStored_versioned (t : Transaction) (vv : VersionedValue) :
    t.readStored (.versioned vv) = .ok (vv.readVisible t.txId t.snapshotVersion) := by
  unfold readStored
  cases hraw : Stored.readVisibleRaw (.versioned vv) t.txId t.snapshotVersion with
  | some v => rw [readSingle_readVisible hraw t.txId]
  | none => rfl

theorem Transaction.get_of_opened {t : Transaction} (hopen : t.status = .opened)
    {ts : TransactionStore} (hv : ts.mvstore.AllVersioned) (n : String) (k : Key) :
    (t.get ts n k).1 =
      .ok ((ts.mvstore.versioned n k).readVisible t.txId t.snapshotVersion) := by
  have hget : (ts.openMap n).2.mapGet (ts.openMap n).1 k = ts.mvstore.read n k :=
    mapGet_openMap ts.mvstore n k
  unfold get
  rw [checkOpen, if_pos hopen]
  simp only [hget]
  rcases hv.read n k with hnone | hsome
  · rw [hnone, versioned_of_read_none hnone, readVisible_empty]
  · rw [hsome]
    exact t.readStored_versioned _

variable {newer older : List VersionRecord}

theorem VersionedValue.visibleRecord_append {sv : Nat}
    (hnew : ∀ r ∈ newer, sv < r.commitVersion) (hold : ∀ r ∈ older, r.commitVersion ≤ sv) :
    visibleRecord (newer ++ older) sv = older.head? := by
  rw [visibleRecord, find?_append, find?_eq_none.mpr fun r hr => by
    simpa using hnew r hr, none_or]
  cases older with
  | nil => rfl
  | cons r rest => exact find?_cons_of_pos (by simpa using hold r mem_cons_self)

theorem VersionedValue.visibleRecord_take {sv m : Nat}
    (hnew : ∀ r ∈ newer, sv < r.commitVersion) (hold : ∀ r ∈ older, r.commitVersion ≤ sv)
    (hm : newer.length < m) : visibleRecord ((newer ++ older).take m) sv = older.head? := by
  rw [take_append, take_of_length_le (le_of_lt hm),
    visibleRecord_append hnew fun r hr => hold r (mem_of_mem_take hr), head?_take,
    if_neg (by omega)]

theorem VersionedValue.visibleRecord_take_none {sv m : Nat}
    (hnew : ∀ r ∈ newer, sv < r.commitVersion) (hm : m ≤ newer.length) :
    visibleRecord ((newer ++ older).take m) sv = none := by
  rw [take_append_of_le_length hm, visibleRecord, find?_eq_none]
  intro r hr
  simpa using hnew r (mem_of_mem_take hr)

/-! ## What a snapshot sees -/

def Trace.olderThan (base : List VersionRecord) (n : String) (k : Key) (sv : Nat) (tr : Trace) :
    List VersionRecord :=
  (tr.commitLog base n k).filter fun r => r.commitVersion ≤ sv

/-- The transaction's own last write, and without one the newest of those records. -/
def answer (own : Option (Option (List UInt8))) (older : List VersionRecord) : Option (List UInt8) :=
  match own with
  | some value => value
  | none => older.head?.bind VersionRecord.value

namespace Faithful

variable {base : Base} {sys : TxSystem} {tr : Trace} {tx : Nat} {t : Transaction}

section

variable (ht : sys.transactions.lookup tx = some t)

include ht

section

variable (hopen : t.status = .opened)

include hopen

theorem olderThan_eq (h : Faithful base sys tr) (n : String) (k : Key) :
    ∃ newer, tr.commitLog (base n k) n k = newer ++ tr.olderThan (base n k) n k t.snapshotVersion ∧
      newer.length = tr.commitsSince tx n k ∧ (∀ r ∈ newer, t.snapshotVersion < r.commitVersion) ∧
      ∀ r ∈ tr.olderThan (base n k) n k t.snapshotVersion, r.commitVersion ≤ t.snapshotVersion := by
  obtain ⟨newer, older, hlog, hlen, hnew, hold⟩ :=
    h.since tx _ _ n k (TxSystem.opened_of_lookup ht hopen)
  have holder : tr.olderThan (base n k) n k t.snapshotVersion = older := by
    have hnone : newer.filter (fun r => r.commitVersion ≤ t.snapshotVersion) = [] := by
      rw [filter_eq_nil_iff]
      intro r hr
      simpa using hnew r hr
    have hall : older.filter (fun r => r.commitVersion ≤ t.snapshotVersion) = older := by
      rw [filter_eq_self]
      intro r hr
      simpa using hold r hr
    rw [Trace.olderThan, hlog, filter_append, hnone, hall, nil_append]
  rw [holder]
  exact ⟨newer, hlog, hlen, hnew, hold⟩

theorem visibleRecord_eq (h : Faithful base sys tr) (n : String) (k : Key) :
    visibleRecord (sys.store.mvstore.versioned n k).committedHistory t.snapshotVersion =
      if tr.commitsSince tx n k < 32 then (tr.olderThan (base n k) n k t.snapshotVersion).head?
      else none := by
  obtain ⟨newer, hlog, hlen, hnew, hold⟩ := h.olderThan_eq ht hopen n k
  rw [h.kept n k, hlog, ← hlen]
  split_ifs with hlt
  · exact visibleRecord_take hnew hold hlt
  · exact visibleRecord_take_none hnew (not_lt.mp hlt)

theorem readVisible_eq (h : Faithful base sys tr) {n : String} {k : Key}
    (hfew : tr.commitsSince tx n k < 32) :
    (sys.store.mvstore.versioned n k).readVisible tx t.snapshotVersion =
      answer (tr.ownWrite tx n k) (tr.olderThan (base n k) n k t.snapshotVersion) := by
  have hopened := TxSystem.opened_of_lookup ht hopen
  have hcommitted : (sys.store.mvstore.versioned n k).readCommitted t.snapshotVersion =
      answer none (tr.olderThan (base n k) n k t.snapshotVersion) := by
    rw [readCommitted, h.visibleRecord_eq ht hopen, if_pos hfew]
    rfl
  unfold readVisible
  cases hu : (sys.store.mvstore.versioned n k).uncommitted with
  | none =>
    cases hown : tr.ownWrite tx n k with
    | none => exact hcommitted
    | some value =>
      rw [h.own tx n k value (by rw [hopened]; rfl) hown] at hu
      cases hu
  | some u =>
    simp only
    split_ifs with htx
    · have hown := (h.marks n k u hu).2
      rw [htx] at hown
      rw [hown]
      rfl
    · cases hown : tr.ownWrite tx n k with
      | none => exact hcommitted
      | some value =>
        rw [h.own tx n k value (by rw [hopened]; rfl) hown] at hu
        cases hu
        exact absurd rfl htx

theorem get_eq (h : Faithful base sys tr) {n : String} {k : Key} (hfew : tr.commitsSince tx n k < 32) :
    (t.get sys.store n k).1 =
      .ok (answer (tr.ownWrite tx n k) (tr.olderThan (base n k) n k t.snapshotVersion)) := by
  rw [Transaction.get_of_opened hopen h.orderly.versioned, h.orderly.proper.txId tx t ht,
    h.readVisible_eq ht hopen hfew]

end

end

end Faithful

/-! ## The answer stays -/

def Call.writer : Call → Option Nat
  | .put tx _ _ _ _ => some tx
  | .remove tx _ _ _ => some tx
  | .wake tx _ => some tx
  | _ => none

variable {call : Call}

theorem TxSystem.writer_of_target {sys : TxSystem} {tx : Nat} {wc : WriteCall}
    (h : sys.target call = some (tx, wc)) : call.writer = some tx := by
  cases call with
  | put | remove =>
    cases h
    rfl
  | wake tx' remaining =>
    rw [target, map_eq_some_iff] at h
    obtain ⟨p, _, heq⟩ := h
    cases heq
    rfl
  | begin | get | timeOut | commit | rollback => cases h

namespace TxSystem.Effect

variable {sys sys' : TxSystem} {call : Call} {e : Option Event}

theorem version_le (ho : sys.Orderly) (h : Effect sys call sys' e) :
    sys.store.mvstore.version ≤ sys'.store.mvstore.version := by
  cases h with
  | idle => exact le_refl _
  | began _ => exact le_refl _
  | quiet _ _ hq _ => exact le_of_eq hq.version.symm
  | marked _ _ _ _ hm _ => exact le_of_eq hm.version.symm
  | rolledBack _ _ hr => exact le_of_eq hr.version.symm
  | closed => exact le_refl _
  | @committed tx t mvstore ht hopen hawake hc =>
    change _ ≤ mvstore.version
    have hcounter := ho.counter
    have hversion := hc.version
    omega

theorem ownWrite_eq (h : Effect sys call sys' e) {tx : Nat} (hw : call.writer ≠ some tx)
    (n : String) (k : Key) (tr : Trace) :
    Trace.ownWrite tx n k (e.toList ++ tr) = tr.ownWrite tx n k := by
  cases h with
  | idle => rfl
  | began _ => rfl
  | quiet => rfl
  | marked ht hopen htarget hreach hm hvisible =>
    refine if_neg fun hc => hw ?_
    rw [writer_of_target htarget, hc.1]
  | rolledBack => rfl
  | closed => rfl
  | committed => rfl

theorem snapshotVersion_eq (ho : sys.Orderly) (h : Effect sys call sys' e) {tx : Nat}
    {t : Transaction} (ht : sys.transactions.lookup tx = some t) :
    ∃ t', sys'.transactions.lookup tx = some t' ∧ t'.snapshotVersion = t.snapshotVersion := by
  have hafter : ∀ {tx' : Nat} {t₁ t₂ : Transaction} {ts : TransactionStore},
      sys.transactions.lookup tx' = some t₁ → t₂.snapshotVersion = t₁.snapshotVersion →
      ∃ t', (sys.after tx' (t₂, ts)).transactions.lookup tx = some t' ∧
        t'.snapshotVersion = t.snapshotVersion := by
    intro tx' t₁ t₂ ts ht₁ hsv
    by_cases htx : tx = tx'
    · subst htx
      cases ht.symm.trans ht₁
      exact ⟨t₂, by rw [lookup_after, if_pos rfl], hsv⟩
    · exact ⟨t, by rw [lookup_after, if_neg htx, ht], rfl⟩
  cases h with
  | idle => exact ⟨t, ht, rfl⟩
  | began _ =>
    have hne : tx ≠ sys.store.nextTxId := by
      rintro rfl
      rw [ho.fresh _ (le_refl _)] at ht
      cases ht
    exact ⟨t, (AList.lookup_insert_ne hne).trans ht, rfl⟩
  | quiet _ ht₁ _ _ => exact hafter ht₁ rfl
  | marked ht₁ => exact hafter ht₁ rfl
  | rolledBack ht₁ => exact hafter ht₁ rfl
  | closed ht₁ => exact hafter ht₁ rfl
  | committed ht₁ => exact hafter ht₁ rfl

end TxSystem.Effect

variable {base : Base}

theorem Faithful.olderThan_effect {sys sys' : TxSystem} {tr : Trace}
    {e : Option Event} (h : Faithful base sys tr) (he : TxSystem.Effect sys call sys' e) {sv : Nat}
    (hsv : sv ≤ sys.store.mvstore.version) (n : String) (k : Key) :
    Trace.olderThan (base n k) n k sv (e.toList ++ tr) = tr.olderThan (base n k) n k sv := by
  cases he with
  | idle => rfl
  | began _ => rfl
  | quiet => rfl
  | marked => rfl
  | rolledBack => rfl
  | @closed tx t ht hopen hawake hundo =>
    have hnone : tr.ownWrite tx n k = none := by
      rw [← not_isSome_iff_eq_none,
        ← h.undo _ _ _ n k (TxSystem.opened_of_lookup ht hopen), hundo]
      exact not_mem_nil
    unfold Trace.olderThan
    rw [toList_some, singleton_append, Trace.commitLog_committed_of_none hnone]
  | @committed tx t mvstore ht hopen hawake hc =>
    have hlt : sv < mvstore.version := by
      have hcounter := h.orderly.counter
      have hversion := hc.version
      omega
    unfold Trace.olderThan
    rw [toList_some, singleton_append]
    cases hown : tr.ownWrite tx n k with
    | none => rw [Trace.commitLog_committed_of_none hown]
    | some value =>
      rw [Trace.commitLog_committed_of_some hown, filter_cons_of_neg]
      simpa using hlt

structure StillSees (base : Base) (tx sv : Nat) (n : String) (k : Key)
    (own : Option (Option (List UInt8))) (older : List VersionRecord) (t : TracedTx) : Prop where
  faithful : Faithful base t.sys t.trace
  snapshot : ∃ t', t.sys.transactions.lookup tx = some t' ∧ t'.snapshotVersion = sv
  version : sv ≤ t.sys.store.mvstore.version
  own : t.trace.ownWrite tx n k = own
  older : t.trace.olderThan (base n k) n k sv = older

variable {own : Option (Option (List UInt8))}

theorem StillSees.step {tx sv : Nat} {n : String} {k : Key} {older : List VersionRecord} {t : TracedTx}
    (h : StillSees base tx sv n k own older t) (hw : call.writer ≠ some tx) :
    StillSees base tx sv n k own older (t.step call) := by
  have ho := h.faithful.orderly
  have he := ho.step_effect call
  obtain ⟨t', ht', hsv⟩ := h.snapshot
  obtain ⟨t'', ht'', hsv'⟩ := he.snapshotVersion_eq ho ht'
  exact ⟨h.faithful.step call, ⟨t'', ht'', hsv'.trans hsv⟩,
    le_trans h.version (he.version_le ho), (he.ownWrite_eq hw n k _).trans h.own,
    (h.faithful.olderThan_effect he h.version n k).trans h.older⟩

theorem StillSees.runs {tx sv : Nat} {n : String} {k : Key} {older : List VersionRecord} {t : TracedTx}
    {calls : List Call} (h : StillSees base tx sv n k own older t) (hw : ∀ c ∈ calls, c.writer ≠ some tx) :
    StillSees base tx sv n k own older (Reasoning.runs TracedTx.step t calls) := by
  induction calls generalizing t with
  | nil => exact h
  | cons c calls ih =>
    exact ih (h.step (hw c mem_cons_self)) fun d hd => hw d (mem_cons_of_mem _ hd)

namespace TracedTx

/-- The value a transaction with this snapshot is to be given: its own last write, and without one the
value of the record with the greatest version up to the snapshot, if there is any. -/
def Sees (base : Base) (tr : Trace) (tx sv : Nat) (n : String) (k : Key)
    (value : Option (List UInt8)) : Prop :=
  match tr.ownWrite tx n k with
  | some own => value = own
  | none =>
    (∃ r ∈ tr.commitLog (base n k) n k, r.commitVersion ≤ sv ∧
      (∀ r' ∈ tr.commitLog (base n k) n k, r'.commitVersion ≤ sv →
        r'.commitVersion ≤ r.commitVersion) ∧ value = r.value) ∨
    ((∀ r ∈ tr.commitLog (base n k) n k, sv < r.commitVersion) ∧ value = none)

theorem sees_answer {base : Base} {tr : Trace} {n : String} {k : Key}
    (hdesc : (tr.commitLog (base n k) n k).Pairwise fun r r' => r'.commitVersion < r.commitVersion)
    (tx sv : Nat) :
    Sees base tr tx sv n k (answer (tr.ownWrite tx n k) (tr.olderThan (base n k) n k sv)) := by
  unfold Sees
  cases tr.ownWrite tx n k with
  | some own => rfl
  | none =>
    have hmem : ∀ r, r ∈ tr.olderThan (base n k) n k sv ↔
        r ∈ tr.commitLog (base n k) n k ∧ r.commitVersion ≤ sv := by
      intro r
      rw [Trace.olderThan, mem_filter]
      simp
    have hdesc' : (tr.olderThan (base n k) n k sv).Pairwise fun r r' =>
        r'.commitVersion < r.commitVersion := hdesc.sublist filter_sublist
    cases holder : tr.olderThan (base n k) n k sv with
    | nil =>
      refine .inr ⟨fun r hr => ?_, rfl⟩
      by_contra hle
      have hin := (hmem r).mpr ⟨hr, not_lt.mp hle⟩
      rw [holder] at hin
      cases hin
    | cons r rest =>
      rw [holder, pairwise_cons] at hdesc'
      have hr := (hmem r).mp (by rw [holder]; exact mem_cons_self)
      refine .inl ⟨r, hr.1, hr.2, fun r' hr' hle => ?_, rfl⟩
      have hin := (hmem r').mpr ⟨hr', hle⟩
      rw [holder] at hin
      rcases mem_cons.mp hin with rfl | hrest
      · exact le_refl _
      · exact le_of_lt (hdesc'.1 r' hrest)

/-- In every interleaving an open transaction reads what its snapshot is to be given, and goes on
reading it whatever the other transactions do. -/
theorem snapshot_read (s : MVStore Stored) (hs : s.AtRest) (calls : List Call) (tx : Nat)
    (t : Transaction) (ht : (runs step (new s) calls).sys.transactions.lookup tx = some t)
    (hopen : t.status = .opened) (n : String) (k : Key)
    (hfew : (runs step (new s) calls).trace.commitsSince tx n k < 32) :
    (∃ value, (t.get (runs step (new s) calls).sys.store n k).1 = .ok value ∧
      Sees s.base (runs step (new s) calls).trace tx t.snapshotVersion n k value) ∧
    ∀ (more : List Call) (t' : Transaction), (∀ c ∈ more, c.writer ≠ some tx) →
      (runs step (new s) (calls ++ more)).sys.transactions.lookup tx = some t' →
      t'.status = .opened →
      (runs step (new s) (calls ++ more)).trace.commitsSince tx n k < 32 →
      (t'.get (runs step (new s) (calls ++ more)).sys.store n k).1 =
        (t.get (runs step (new s) calls).sys.store n k).1 := by
  have hf := faithful_runs (faithful_new hs) calls
  have hget := hf.get_eq ht hopen hfew
  refine ⟨⟨_, hget, sees_answer (hf.descending n k) tx t.snapshotVersion⟩, ?_⟩
  intro more t' hmore ht' hopen' hfew'
  have hstart : StillSees s.base tx t.snapshotVersion n k _ _ (runs step (new s) calls) :=
    ⟨hf, ⟨t, ht, rfl⟩, hf.snapshot tx _ _ (TxSystem.opened_of_lookup ht hopen), rfl, rfl⟩
  have hend := hstart.runs hmore
  rw [← runs_append] at hend
  obtain ⟨t'', ht'', hsv⟩ := hend.snapshot
  cases ht'.symm.trans ht''
  rw [hget, hend.faithful.get_eq ht' hopen' hfew', hsv, hend.own, hend.older]

/-- One committed write of one key by the transaction `tx`. -/
def commitsKey (tx : Nat) (value : List UInt8) : List Call :=
  [.begin, .put tx "a" [1] value none, .commit tx (.ok ())]

def readerCalls : List Call := commitsKey 1 [10] ++ [.begin] ++ commitsKey 3 [20]

theorem snapshot_read_sample :
    ∃ value, ((⟨2, 1, .opened, [], none⟩ : Transaction).get
        (runs step (new MVStore.new) readerCalls).sys.store "a" [1]).1 = .ok value ∧
      Sees MVStore.new.base (runs step (new MVStore.new) readerCalls).trace 2 1 "a" [1] value :=
  (snapshot_read MVStore.new atRest_new readerCalls 2 ⟨2, 1, .opened, [], none⟩
    (by decide +kernel) rfl "a" [1] (by decide +kernel)).1

/-- The record a registered transaction's snapshot sees is in the history of its key, and is what the
transaction reads there, exactly as long as fewer than 32 commits have hit the key since it began. -/
theorem visible_record_kept (s : MVStore Stored) (hs : s.AtRest) (calls : List Call) (tx : Nat)
    (t : Transaction) (ht : (runs step (new s) calls).sys.transactions.lookup tx = some t)
    (hactive : (runs step (new s) calls).sys.store.isTxActive tx = true) (n : String) (k : Key)
    (r : VersionRecord)
    (hr : visibleRecord ((runs step (new s) calls).trace.commitLog (s.base n k) n k)
      t.snapshotVersion = some r) :
    (visibleRecord
      ((runs step (new s) calls).sys.store.mvstore.versioned n k).committedHistory
      t.snapshotVersion = some r ↔ (runs step (new s) calls).trace.commitsSince tx n k < 32) ∧
    ((runs step (new s) calls).trace.commitsSince tx n k < 32 →
      (runs step (new s) calls).trace.ownWrite tx n k = none →
      (t.get (runs step (new s) calls).sys.store n k).1 = .ok r.value) := by
  have hf := faithful_runs (faithful_new hs) calls
  have hopen : t.status = .opened := by
    rw [hf.orderly.active, TxSystem.opened, ht, bind_some, Transaction.openView] at hactive
    by_contra hne
    rw [if_neg hne] at hactive
    cases hactive
  have hhead : ((runs step (new s) calls).trace.olderThan (s.base n k) n k
      t.snapshotVersion).head? = some r := by
    rw [Trace.olderThan, head?_filter]
    exact hr
  constructor
  · rw [hf.visibleRecord_eq ht hopen, hhead]
    split_ifs with hlt
    · exact ⟨fun _ => hlt, fun _ => rfl⟩
    · exact ⟨fun h => (by cases h), fun h => absurd h hlt⟩
  · intro hfew hown
    rw [hf.get_eq ht hopen hfew, hown, answer, hhead]
    rfl

theorem visible_record_kept_sample :
    visibleRecord ((runs step (new MVStore.new) readerCalls).sys.store.mvstore.versioned
        "a" [1]).committedHistory 1 = some ⟨some [10], 1⟩ ↔
      (runs step (new MVStore.new) readerCalls).trace.commitsSince 2 "a" [1] < 32 :=
  (visible_record_kept MVStore.new atRest_new readerCalls 2 ⟨2, 1, .opened, [], none⟩
    (by decide +kernel) (by decide +kernel) "a" [1] ⟨some [10], 1⟩ (by decide +kernel)).1

def patientReaderCalls : List Call :=
  commitsKey 1 [10] ++ [.begin] ++ (List.range 32).flatMap fun i => commitsKey (i + 3) [20]

/-- The reader is still registered and its answer has turned from the value into nothing. -/
theorem thirty_two_commits_drop_record :
    (runs step (new MVStore.new) patientReaderCalls).sys.store.isTxActive 2 = true ∧
    ((⟨2, 1, .opened, [], none⟩ : Transaction).get
      (runs step (new MVStore.new) readerCalls).sys.store "a" [1]).1 = .ok (some [10]) ∧
    visibleRecord ((runs step (new MVStore.new) patientReaderCalls).sys.store.mvstore.versioned
      "a" [1]).committedHistory 1 = none ∧
    ((⟨2, 1, .opened, [], none⟩ : Transaction).get
      (runs step (new MVStore.new) patientReaderCalls).sys.store "a" [1]).1 = .ok none := by
  decide +kernel

end TracedTx

/-! ## Serial order -/

/-- What the committed transactions leave under a key, written one after another as they were committed. -/
def Trace.serial (start : Option (List UInt8)) (n : String) (k : Key) : Trace → Option (List UInt8)
  | [] => start
  | .committed tx _ :: tr => (Trace.ownWrite tx n k tr).getD (serial start n k tr)
  | _ :: tr => serial start n k tr

theorem Trace.serial_eq (base : List VersionRecord) (n : String) (k : Key) (tr : Trace) :
    tr.serial (answer none base) n k = answer none (tr.commitLog base n k) := by
  induction tr with
  | nil => rfl
  | cons e tr ih =>
    cases e with
    | committed tx version =>
      rw [serial, ih]
      cases hown : Trace.ownWrite tx n k tr with
      | none => rw [commitLog_committed_of_none hown, getD_none]
      | some value =>
        rw [commitLog_committed_of_some hown]
        rfl
    | _ => exact ih

namespace TracedTx

/-- Whatever has been interleaved, a transaction begun now reads what the committed transactions leave when
they are written one after another: those that are open or were rolled back leave nothing. -/
theorem begun_reads_serial (s : MVStore Stored) (hs : s.AtRest) (calls : List Call) (n : String) (k : Key) :
    ((runs step (new s) calls).sys.store.begin.1.get (runs step (new s) calls).sys.store.begin.2 n k).1 =
      .ok ((runs step (new s) calls).trace.serial (answer none (s.base n k)) n k) := by
  have hf := faithful_runs (faithful_new hs) calls
  generalize runs step (new s) calls = t at hf ⊢
  have hsince : Trace.commitsSince t.sys.store.nextTxId n k (t.step .begin).trace = 0 := if_pos rfl
  have hget := (hf.step .begin).get_eq (AList.lookup_insert _) rfl (hsince.trans_lt (by decide))
  rw [Trace.serial_eq]
  refine hget.trans (congrArg Except.ok ?_)
  have hown : Trace.ownWrite t.sys.store.nextTxId n k (t.step .begin).trace = none :=
    hf.silent t.sys.store.nextTxId n k (le_refl _)
  have hall : Trace.olderThan (s.base n k) n k t.sys.store.mvstore.version (t.step .begin).trace =
      Trace.commitLog (s.base n k) n k t.trace :=
    filter_eq_self.mpr fun r hr => decide_eq_true (hf.bounded n k r hr)
  exact congrArg₂ answer hown hall

theorem begun_reads_serial_readers :
    ((runs step (new MVStore.new) readerCalls).sys.store.begin.1.get
      (runs step (new MVStore.new) readerCalls).sys.store.begin.2 "a" [1]).1 = .ok (some [20]) :=
  begun_reads_serial MVStore.new atRest_new readerCalls "a" [1]

end TracedTx

/-! ## Marks and histories -/

/-- A key is marked by the open transaction whose undo log has it and by no other, and its history has one
record a commit, the newest first, and at most 32. -/
structure TxSystem.Locked (sys : TxSystem) (n : String) (k : Key) : Prop where
  held : ∀ tx sv logs, sys.opened tx = some (sv, logs) →
    (⟨n, k⟩ ∈ logs ↔ (sys.store.mvstore.versioned n k).activeTxId = some tx)
  holder : ∀ tx, (sys.store.mvstore.versioned n k).activeTxId = some tx → (sys.opened tx).isSome
  length : (sys.store.mvstore.versioned n k).committedHistory.length ≤ 32
  descending : (sys.store.mvstore.versioned n k).committedHistory.Pairwise fun r r' =>
    r'.commitVersion < r.commitVersion
  bounded : ∀ r ∈ (sys.store.mvstore.versioned n k).committedHistory,
    r.commitVersion ≤ sys.store.mvstore.version

namespace TracedTx

theorem locked_runs (s : MVStore Stored) (hs : s.AtRest) (calls : List Call) (n : String) (k : Key) :
    (runs step (new s) calls).sys.Locked n k := by
  have hf := faithful_runs (faithful_new hs) calls
  have hkept := hf.kept n k
  refine ⟨fun tx sv logs htx => hf.mem_undo_iff htx n k, fun tx hactive => ?_, ?_, ?_, fun r hr => ?_⟩
  · obtain ⟨u, hu, rfl⟩ := map_eq_some_iff.mp hactive
    exact (hf.marks n k u hu).1
  · rw [hkept, length_take]
    exact min_le_left _ _
  · rw [hkept]
    exact (hf.descending n k).sublist (take_sublist _ _)
  · rw [hkept] at hr
    exact hf.bounded n k r (mem_of_mem_take hr)

theorem locked_runs_readers : (runs step (new MVStore.new) readerCalls).sys.Locked "a" [1] :=
  locked_runs MVStore.new atRest_new readerCalls "a" [1]

end TracedTx

end H2Database.Mvstore
