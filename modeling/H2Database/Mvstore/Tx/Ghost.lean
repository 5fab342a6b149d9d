import H2Database.Mvstore.Tx.Database

/-!
# Ghost writes

A checkpoint writes the marks of open transactions into the file, opening does not take them out, and
transaction ids start again at 1 in every process.  A mark in the file is therefore harmless only as
long as no crash makes it part of a reopened store.
-/

namespace H2Database.Mvstore

open Reasoning MVStore VersionedValue TransactionStore List Option

def Stored.unmarked : Stored → Bool
  | .versioned vv => vv.uncommitted.isNone
  | .raw _ => true

/-- Every uncommitted record in the file stands under a key the log overwrites. -/
def FileImage.unmarked (file : FileImage Stored) (wal : List (WalRecord Stored)) : Bool :=
  match openAt file [] with
  | .ok s => s.maps.named.all fun p => p.2.tree.scanAll.all fun e =>
      e.value.unmarked || (lastChange p.1 e.key (wal.flatMap WalRecord.changes)).isSome
  | .error _ => true

variable {n : String} {k : Key} {stored : Stored}

theorem FileImage.unmarked_binding {file : FileImage Stored} {wal : List (WalRecord Stored)}
    {img : Contents Stored} (h : Holds file img) (hu : file.unmarked wal = true)
    (hb : binding img n k = some stored)
    (hlast : lastChange n k (wal.flatMap WalRecord.changes) = none) : stored.unmarked = true := by
  obtain ⟨s, hopen, _, hcont, _⟩ := openAt_nil h
  rw [← hcont, binding, bind_eq_some_iff] at hb
  obtain ⟨f, hf, hk⟩ := hb
  obtain ⟨m, hm, rfl⟩ := contents_eq_some.mp hf
  simp only [unmarked, hopen] at hu
  have hmap := all_eq_true.mp hu (n, m) (Registry.mem_named.mpr hm)
  have hentry := all_eq_true.mp hmap ⟨k, stored⟩ ((MVTree.mem_scanAll _ _ _).mpr hk)
  rw [hlast] at hentry
  simpa using hentry

def Trace.Recorded (tr : Trace) (n : String) (k : Key) (stored : Stored) : Prop :=
  ∃ vv, stored = .versioned vv ∧ ∀ r ∈ vv.committedHistory, r ∈ tr.commitLog [] n k

theorem Trace.Recorded.mono {tr tr' : Trace}
    (h : tr.Recorded n k stored) (hsub : tr.commitLog [] n k ⊆ tr'.commitLog [] n k) :
    tr'.Recorded n k stored := by
  obtain ⟨vv, rfl, hvv⟩ := h
  exact ⟨vv, rfl, fun r hr => hsub (hvv r hr)⟩

/-- Every mark is the last write of its owner in this lifetime, and everything committed in the store,
in its log and in its file was committed by a transaction. -/
structure Honest (t : TracedTx) : Prop where
  orderly : t.sys.Orderly
  bound : t.sys.Bound
  marks : ∀ n k u, (t.sys.store.mvstore.versioned n k).uncommitted = some u →
    t.trace.ownWrite u.txId n k = some u.value
  stored : ∀ n k, ∀ r ∈ (t.sys.store.mvstore.versioned n k).committedHistory,
    r ∈ t.trace.commitLog [] n k
  logged : ∀ n k stored,
    ⟨n, k, some stored⟩ ∈ t.sys.store.mvstore.wal.flatMap WalRecord.changes →
    stored.unmarked = true ∧ t.trace.Recorded n k stored
  image : ∃ atImage img, Journaled t.sys.store.mvstore atImage img ∧
    NamesKept ⟨t.sys.store.mvstore, atImage⟩ ∧
    ∀ n k stored, binding img n k = some stored → t.trace.Recorded n k stored

theorem honest_new : Honest (TracedTx.new MVStore.new) where
  orderly := TxSystem.orderly_new atRest_new.versioned atRest_new.counter
  bound _ _ _ ht := by cases ht
  marks n k u hu := by cases hu
  stored n k r hr := by cases hr
  logged n k stored h := by cases h
  image := by
    refine ⟨MVStore.new, fun _ => none, journaled_init, fun h => ?_, fun _ _ _ h => ?_⟩
    · cases h
    · cases h

theorem Trace.commitLog_subset (base : List VersionRecord) (n : String) (k : Key) (e : Option Event)
    (tr : Trace) : tr.commitLog base n k ⊆ Trace.commitLog base n k (e.toList ++ tr) := by
  cases e with
  | none => exact fun r hr => hr
  | some e =>
    cases e with
    | committed tx cv =>
      intro r hr
      rw [toList_some, singleton_append]
      cases hown : tr.ownWrite tx n k with
      | none =>
        rw [Trace.commitLog_committed_of_none hown]
        exact hr
      | some value =>
        rw [Trace.commitLog_committed_of_some hown]
        exact mem_cons_of_mem _ hr
    | began | wrote | reopened => exact fun r hr => hr

theorem recorded_of_read {s : MVStore Stored} (hv : s.AllVersioned) {tr : Trace}
    (hs : ∀ r ∈ (s.versioned n k).committedHistory, r ∈ tr.commitLog [] n k)
    (hr : s.read n k = some stored) : tr.Recorded n k stored := by
  obtain ⟨vv, rfl⟩ := hv n k stored hr
  rw [versioned_of_read hr] at hs
  exact ⟨vv, rfl, hs⟩

theorem Transaction.unmarked_of_mem_commitChange {txId cv : Nat} {s : MVStore Stored} {log : UndoLogEntry}
    (h : ⟨n, k, some stored⟩ ∈ commitChange txId cv s log) : stored.unmarked = true := by
  unfold commitChange at h
  split at h
  · split_ifs at h with hown
    · have heq := mem_singleton.mp h
      cases heq
      obtain ⟨u, hu, _⟩ := map_eq_some_iff.mp hown
      rw [commitUncommitted, hu]
      rfl
    · cases h
  · have heq := mem_singleton.mp h
    cases heq

namespace Honest

variable {t : TracedTx} {sys' : TxSystem} {call : Call} {e : Option Event}

theorem image_edited (h : Honest t) {s' : MVStore Stored} (he : Edited t.sys.store.mvstore s')
    (e : Option Event) : ∃ atImage img, Journaled s' atImage img ∧ NamesKept ⟨s', atImage⟩ ∧
      ∀ n k stored, binding img n k = some stored →
        Trace.Recorded (e.toList ++ t.trace) n k stored := by
  obtain ⟨atImage, img, hj, hn, himg⟩ := h.image
  have hd := he.dataStep
  refine ⟨atImage, img, hj.dataStep hd, fun hcp n id hid => ?_, fun n k stored hb => ?_⟩
  · exact he.find (hn (hd.hasCheckpoint ▸ hcp) n id hid)
  · exact (himg n k stored hb).mono (Trace.commitLog_subset [] n k e t.trace)

theorem uncommitted (h : Honest t) (he : TxSystem.Effect t.sys call sys' e)
    (hwal : sys'.store.mvstore.wal = t.sys.store.mvstore.wal)
    (hmarks : ∀ n k u, (sys'.store.mvstore.versioned n k).uncommitted = some u →
      Trace.ownWrite u.txId n k (e.toList ++ t.trace) = some u.value)
    (hhistory : ∀ n k, (sys'.store.mvstore.versioned n k).committedHistory =
      (t.sys.store.mvstore.versioned n k).committedHistory) :
    Honest ⟨sys', e.toList ++ t.trace⟩ where
  orderly := h.orderly.effect he
  bound := h.bound.effect he
  marks := hmarks
  stored n k r hr := by
    rw [hhistory] at hr
    exact Trace.commitLog_subset [] n k e t.trace (h.stored n k r hr)
  logged n k stored hmem := by
    rw [hwal] at hmem
    obtain ⟨hu, hrec⟩ := h.logged n k stored hmem
    exact ⟨hu, hrec.mono (Trace.commitLog_subset [] n k e t.trace)⟩
  image := h.image_edited he.edited e

variable {tr : Transaction}

theorem marked {tx : Nat} {ts : TransactionStore} {wc : WriteCall} (h : Honest t)
    (hm : Marked t.sys.store ts tx wc) (hfind : ts.mvstore.maps.find wc.mapName = some wc.map)
    (he : TxSystem.Effect t.sys call (t.sys.after tx (tr, ts))
      (some (.wrote tx wc.mapName wc.key wc.value))) :
    Honest ⟨t.sys.after tx (tr, ts), .wrote tx wc.mapName wc.key wc.value :: t.trace⟩ := by
  refine h.uncommitted he hm.wal (fun n k u hu => ?_) fun n k => ?_
  · change (ts.mvstore.versioned n k).uncommitted = some u at hu
    rw [hm.versioned hfind] at hu
    rw [toList_some, singleton_append, Trace.ownWrite_wrote]
    split_ifs at hu with hnk
    · cases hu
      rw [if_pos ⟨rfl, hnk.1.symm, hnk.2.symm⟩]
    · rw [if_neg fun hc => hnk ⟨hc.2.1.symm, hc.2.2.symm⟩]
      exact h.marks n k u hu
  · change (ts.mvstore.versioned n k).committedHistory = _
    rw [hm.versioned hfind]
    split_ifs <;> rfl

theorem rolledBack {tx : Nat} {ts : TransactionStore} {logs : List UndoLogEntry}
    (h : Honest t) (hr : RolledBack t.sys.store ts tx logs)
    (he : TxSystem.Effect t.sys call (t.sys.after tx (tr, ts)) none) :
    Honest ⟨t.sys.after tx (tr, ts), t.trace⟩ := by
  have hversioned := hr.versioned h.orderly.versioned
  refine h.uncommitted he hr.wal (fun n k u hu => ?_) fun n k => ?_
  · change (ts.mvstore.versioned n k).uncommitted = some u at hu
    rw [hversioned] at hu
    split_ifs at hu
    · cases hu
    · exact h.marks n k u hu
  · change (ts.mvstore.versioned n k).committedHistory = _
    rw [hversioned]
    split_ifs <;> rfl

theorem committed {tx : Nat} {mvstore : MVStore Stored} (h : Honest t)
    (hc : Transaction.Committed t.sys.store.mvstore mvstore tx tr.undoLog)
    (he : TxSystem.Effect t.sys call (t.sys.after tx (tr.closed { t.sys.store with mvstore }))
      (some (.committed tx mvstore.version))) :
    Honest ⟨t.sys.after tx (tr.closed { t.sys.store with mvstore }),
      .committed tx mvstore.version :: t.trace⟩ := by
  have hversioned := hc.versioned h.orderly.versioned
  have hsub := fun n k =>
    Trace.commitLog_subset [] n k (some (.committed tx mvstore.version)) t.trace
  have ho := h.orderly.effect he
  -- the record a commit adds is the write its mark stands for
  have hstored : ∀ n k, ∀ r ∈ (mvstore.versioned n k).committedHistory,
      r ∈ Trace.commitLog [] n k (.committed tx mvstore.version :: t.trace) := by
    intro n k r hr
    rw [hversioned] at hr
    split_ifs at hr with hown
    · obtain ⟨u, hu, huid⟩ := map_eq_some_iff.mp hown.2
      have hwrote := h.marks n k u hu
      rw [huid] at hwrote
      rw [commitUncommitted, hu, ← hc.version] at hr
      rcases mem_cons.mp (mem_of_mem_take hr) with rfl | hold
      · rw [Trace.commitLog_committed_of_some hwrote]
        exact mem_cons_self
      · exact hsub n k (h.stored n k r hold)
    · exact hsub n k (h.stored n k r hr)
  refine ⟨ho, h.bound.effect he, fun n k u hu => ?_, hstored, fun n k stored hmem => ?_,
    h.image_edited he.edited (some (.committed tx mvstore.version))⟩
  · change (mvstore.versioned n k).uncommitted = some u at hu
    rw [hversioned] at hu
    split_ifs at hu with hown
    · obtain ⟨u', hu', _⟩ := map_eq_some_iff.mp hown.2
      rw [commitUncommitted, hu'] at hu
      cases hu
    · exact h.marks n k u hu
  · change _ ∈ mvstore.wal.flatMap WalRecord.changes at hmem
    rw [hc.wal, flatMap_append, mem_append] at hmem
    rcases hmem with hold | hnew
    · obtain ⟨hu, hrec⟩ := h.logged n k stored hold
      exact ⟨hu, hrec.mono (hsub n k)⟩
    · rw [flatMap_singleton, mem_flatMap] at hnew
      obtain ⟨log, hlog, hchange⟩ := hnew
      refine ⟨Transaction.unmarked_of_mem_commitChange hchange, ?_⟩
      have heq := Transaction.mem_commitChange h.orderly.versioned hchange
      obtain ⟨rfl, rfl, hvalue⟩ := WalChange.mk.inj heq
      refine recorded_of_read ho.versioned (hstored _ _) ?_
      refine (hc.read log.mapName log.key).trans ?_
      rw [if_pos hlog]
      exact hvalue.symm

theorem effect (h : Honest t) (he : TxSystem.Effect t.sys call sys' e) :
    Honest ⟨sys', e.toList ++ t.trace⟩ := by
  have he' := he
  cases he with
  | idle => exact h
  | began _ => exact h.uncommitted he' rfl h.marks fun _ _ => rfl
  | @quiet tx tr ts waiting ht hq hw =>
    have hversioned : ts.mvstore.versioned = t.sys.store.mvstore.versioned :=
      versioned_congr hq.read
    refine h.uncommitted he' hq.wal (fun n k u hu => ?_) fun n k => ?_
    · refine h.marks n k u ?_
      rw [← hversioned]
      exact hu
    · rw [← hversioned]
      rfl
  | marked ht hopen htarget hreach hm hvisible =>
    exact h.marked hm (h.bound.reaches ht hm.edited hreach) he'
  | rolledBack ht hopen hr => exact h.rolledBack hr he'
  | closed => exact h.uncommitted he' rfl h.marks fun _ _ => rfl
  | committed ht hopen hawake hc => exact h.committed hc he'

/-! ## Checkpoints and crashes -/

theorem nextImage_recorded (h : Honest t) {atImage : MVStore Stored} {img : Contents Stored}
    (hj : Journaled t.sys.store.mvstore atImage img) (hn : NamesKept ⟨t.sys.store.mvstore, atImage⟩)
    (himg : ∀ n k stored, binding img n k = some stored → t.trace.Recorded n k stored) (n : String)
    (k : Key) (stored : Stored)
    (hb : binding (t.sys.store.mvstore.nextImage img) n k = some stored) :
    t.trace.Recorded n k stored := by
  rcases binding_nextImage (t := ⟨t.sys.store.mvstore, atImage⟩) hj hn n k with hstore | ⟨_, hold⟩
  · rw [hstore] at hb
    exact recorded_of_read h.orderly.versioned (h.stored n k) hb
  · rw [hold] at hb
    exact himg n k stored hb

theorem image_checkpoint (h : Honest t) (io : WriteOutcome) :
    ∃ atImage img, Journaled (t.sys.store.mvstore.checkpoint io).2 atImage img ∧
      NamesKept ⟨(t.sys.store.mvstore.checkpoint io).2, atImage⟩ ∧
      ∀ n k stored, binding img n k = some stored → t.trace.Recorded n k stored := by
  obtain ⟨atImage, img, hj, hn, himg⟩ := h.image
  have hpublished := hj.published
  unfold checkpoint
  split
  · exact ⟨atImage, img, hj.unpublished, hn, himg⟩
  · exact ⟨_, _, hpublished, fun _ _ _ hid => hid, h.nextImage_recorded hj hn himg⟩
  · exact ⟨_, _, hpublished.withWal [] [], fun _ _ _ hid => hid, h.nextImage_recorded hj hn himg⟩

theorem checkpoint (h : Honest t) (io : WriteOutcome) : Honest (t.perform (.checkpoint io)) := by
  have hread := read_checkpoint t.sys.store.mvstore io
  have hversioned := versioned_congr hread
  refine ⟨?_, fun tx tr w ht hw => ?_, fun n k u hu => ?_, fun n k r hr => ?_,
    fun n k stored hmem => h.logged n k stored ?_, h.image_checkpoint io⟩
  · exact h.orderly.withStore (h.orderly.versioned.congr hread)
      (counter_checkpoint h.orderly.counter io)
  · exact (find_checkpoint _ io _).trans (h.bound tx tr w ht hw)
  · refine h.marks n k u ?_
    rw [← hversioned]
    exact hu
  · refine h.stored n k r ?_
    rw [← hversioned]
    exact hr
  · change _ ∈ (t.sys.store.mvstore.checkpoint io).2.wal.flatMap WalRecord.changes at hmem
    unfold MVStore.checkpoint at hmem
    split at hmem
    · exact hmem
    · exact hmem
    · cases hmem

theorem recovered (h : Honest t) {img : Contents Stored} (hholds : Holds t.sys.store.mvstore.file img)
    (himg : ∀ n k stored, binding img n k = some stored → t.trace.Recorded n k stored) {kept : Nat}
    (hclean : t.sys.store.mvstore.file.unmarked (t.sys.store.mvstore.wal.take kept) = true)
    (hb : (lastChange n k ((t.sys.store.mvstore.wal.take kept).flatMap WalRecord.changes)).getD
      (binding img n k) = some stored) : stored.unmarked = true ∧ t.trace.Recorded n k stored := by
  cases hlast : lastChange n k
      ((t.sys.store.mvstore.wal.take kept).flatMap WalRecord.changes) with
  | none =>
    rw [hlast, getD_none] at hb
    exact ⟨FileImage.unmarked_binding hholds hclean hb hlast, himg n k stored hb⟩
  | some value =>
    rw [hlast, getD_some] at hb
    subst hb
    obtain ⟨r, hr, hc⟩ := mem_flatMap.mp (exists_of_lastChange hlast)
    exact h.logged n k stored (mem_flatMap.mpr ⟨r, mem_of_mem_take hr, hc⟩)

theorem crash (h : Honest t) {kept : Nat}
    (hclean : t.sys.store.mvstore.file.unmarked (t.sys.store.mvstore.wal.take kept) = true) :
    Honest (t.perform (.crash kept)) := by
  obtain ⟨atImage, img, hj, hn, himg⟩ := h.image
  obtain ⟨s₀, s, hopen₀, hopen, hj₀, hstep, hwal, hfind, hread⟩ :=
    read_openAt hj.holds (t.sys.store.mvstore.wal.take kept)
  have hperform : t.perform (.crash kept) = ⟨.new s, .reopened :: t.trace⟩ := by
    simp only [TracedTx.perform, hopen]
  have hall : ∀ n k stored, s.read n k = some stored →
      stored.unmarked = true ∧ t.trace.Recorded n k stored := by
    intro n k stored hst
    rw [hread] at hst
    exact h.recovered hj.holds himg hclean hst
  have hversioned : s.AllVersioned := by
    intro n k stored hst
    obtain ⟨vv, hvv, _⟩ := (hall n k stored hst).2
    exact ⟨vv, hvv⟩
  have hcounter := (openAt_versions hopen).1
  rw [hperform]
  refine ⟨TxSystem.orderly_new hversioned (by rw [hcounter]), fun _ _ _ ht => ?_, fun n k u hu => ?_,
    fun n k r hr => ?_, fun n k stored hmem => ?_, s₀, img, hj₀.dataStep hstep, ?_, himg⟩
  · cases ht
  · change (s.versioned n k).uncommitted = some u at hu
    rcases hversioned.read n k with hnone | hsome
    · rw [versioned_of_read_none hnone] at hu
      cases hu
    · have hunmarked := (hall n k _ hsome).1
      rw [Stored.unmarked, hu] at hunmarked
      cases hunmarked
  · change r ∈ (s.versioned n k).committedHistory at hr
    rcases hversioned.read n k with hnone | hsome
    · rw [versioned_of_read_none hnone] at hr
      cases hr
    · obtain ⟨vv, hvv, hrec⟩ := (hall n k _ hsome).2
      cases hvv
      exact hrec r hr
  · change _ ∈ s.wal.flatMap WalRecord.changes at hmem
    rw [hwal] at hmem
    obtain ⟨r, hr, hc⟩ := mem_flatMap.mp hmem
    exact h.logged n k stored (mem_flatMap.mpr ⟨r, mem_of_mem_take hr, hc⟩)
  · exact fun _ n id hid => hfind n id hid

end Honest

def DbOp.isTransactional : DbOp → Bool
  | .call _ | .checkpoint _ | .crash _ => true
  | _ => false

namespace TracedTx

/-- The condition on a crash: no mark of the file comes back with the store. -/
def CleanCrash (t : TracedTx) : DbOp → Prop
  | .crash kept =>
    t.sys.store.mvstore.file.unmarked (t.sys.store.mvstore.wal.take kept) = true
  | _ => True

theorem honest_perform {t : TracedTx} (h : Honest t) {op : DbOp} (hop : op.isTransactional = true)
    (hclean : t.CleanCrash op) : Honest (t.perform op) := by
  cases op with
  | call c => exact h.effect (h.orderly.step_effect c)
  | checkpoint io => exact h.checkpoint io
  | crash kept => exact h.crash hclean
  | clearMap | removeMap | vacuumMap => cases hop

theorem honest_runs {t : TracedTx} {ops : List DbOp} (h : Honest t)
    (hops : ∀ op ∈ ops, op.isTransactional = true) (hm : Meets perform CleanCrash t ops) :
    Honest (runs perform t ops) := by
  induction ops generalizing t with
  | nil => exact h
  | cons op ops ih =>
    exact ih (honest_perform h (hops op mem_cons_self) hm.1)
      (fun o ho => hops o (mem_cons_of_mem _ ho)) hm.2

/-- In every run whose crashes leave no uncommitted record of the file in the reopened store, a value
that a transaction reads was written by itself or committed by some transaction. -/
theorem no_ghost_write (ops : List DbOp) (hops : ∀ op ∈ ops, op.isTransactional = true)
    (hm : Meets perform CleanCrash (new MVStore.new) ops) (tx : Nat) (t : Transaction)
    (ht : (runs perform (new MVStore.new) ops).sys.transactions.lookup tx = some t) (n : String)
    (k : Key) (v : List UInt8)
    (hget : (t.get (runs perform (new MVStore.new) ops).sys.store n k).1 = .ok (some v)) :
    (runs perform (new MVStore.new) ops).trace.ownWrite tx n k = some (some v) ∨
      ∃ r ∈ (runs perform (new MVStore.new) ops).trace.commitLog [] n k, r.value = some v := by
  have h := honest_runs honest_new hops hm
  have hid := h.orderly.proper.txId tx t ht
  have hopen : t.status = .opened := by
    by_contra hne
    rw [Transaction.get, Transaction.checkOpen, if_neg hne] at hget
    cases hget
  rw [Transaction.get_of_opened hopen h.orderly.versioned, hid, Except.ok.injEq] at hget
  have hcommitted : ((runs perform (new MVStore.new) ops).sys.store.mvstore.versioned
      n k).readCommitted t.snapshotVersion = some v →
      ∃ r ∈ (runs perform (new MVStore.new) ops).trace.commitLog [] n k, r.value = some v := by
    intro hv
    obtain ⟨r, hr, hvalue⟩ := bind_eq_some_iff.mp hv
    exact ⟨r, h.stored n k r (mem_of_find?_eq_some hr), hvalue⟩
  unfold readVisible at hget
  split at hget
  · rename_i u hu
    split_ifs at hget with htx
    · left
      rw [← htx, h.marks n k u hu, hget]
    · exact Or.inr (hcommitted hget)
  · exact Or.inr (hcommitted hget)

/-- A commit, a checkpoint, an open write, a crash, and a reader in the next lifetime. -/
def cleanCrashOps : List DbOp :=
  [.call .begin, .call (.put 1 "a" [1] [10] none), .call (.commit 1 (.ok ())), .checkpoint .done,
    .call .begin, .call (.put 2 "a" [1] [20] none), .crash 0, .call .begin]

theorem no_ghost_write_sample :
    (runs perform (new MVStore.new) cleanCrashOps).trace.ownWrite 1 "a" [1] = some (some [10]) ∨
      ∃ r ∈ (runs perform (new MVStore.new) cleanCrashOps).trace.commitLog [] "a" [1],
        r.value = some [10] :=
  no_ghost_write cleanCrashOps (by decide)
    ⟨trivial, trivial, trivial, trivial, trivial, trivial,
      by change FileImage.unmarked _ _ = true; decide +kernel, trivial, trivial⟩
    1 ⟨1, 2, .opened, [], none⟩ (by decide +kernel) "a" [1] [10] (by decide +kernel)

def markedCrashOps : List DbOp :=
  [.call .begin, .call (.put 1 "a" [1] [10] none), .checkpoint .done, .crash 0, .call .begin]

/-- The first transaction of the next lifetime reads the value nobody committed as its own. -/
theorem crash_revives_mark :
    (runs perform (new MVStore.new) markedCrashOps).sys.transactions.lookup 1 =
      some ⟨1, 1, .opened, [], none⟩ ∧
    ((⟨1, 1, .opened, [], none⟩ : Transaction).get
      (runs perform (new MVStore.new) markedCrashOps).sys.store "a" [1]).1 = .ok (some [10]) ∧
    (runs perform (new MVStore.new) markedCrashOps).trace.ownWrite 1 "a" [1] = none ∧
    (runs perform (new MVStore.new) markedCrashOps).trace.commitLog [] "a" [1] = [] := by
  decide +kernel

end TracedTx

end H2Database.Mvstore
