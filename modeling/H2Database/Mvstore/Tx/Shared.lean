import H2Database.Mvstore.Tx.Scan
import H2Database.Mvstore.Tx.Thinning

/-!
# Several engines over one store (`h2-graph/src/engine.rs`, `h2-mvstore/src/tx/store.rs`)

Every engine has a `TransactionStore` of its own over the `MVStore` that all of them share.  Each counts
its transactions from 1 and knows its own open ones only, while a mark in the store bears nothing but a
transaction's number.  `writer` notes beside the store which engine has made the last mark under a key.
-/

namespace H2Database.Mvstore

open Reasoning MVStore VersionedValue TransactionStore Function

structure SharedSystem where
  mvstore : MVStore Stored
  engines : Nat → TxSystem
  writer : String → Key → Option Nat

inductive SharedAction where
  | call (engine : Nat) (c : Call)
  | vacuumMap (engine : Nat) (name : String)

namespace SharedSystem

/-- An engine that has begun nothing yet is as good as one that has not been opened. -/
def new (mvstore : MVStore Stored) : SharedSystem := ⟨mvstore, fun _ => .new mvstore, fun _ _ => none⟩

def engine (s : SharedSystem) (i : Nat) : TxSystem := (s.engines i).withStore s.mvstore

def answer (s : SharedSystem) (i : Nat) (c : Call) : Response := ((s.engine i).step c).1

def writerAfter (writer : String → Key → Option Nat) (i : Nat) :
    Option Event → String → Key → Option Nat
  | some (.wrote _ n k _) => fun n' k' => if n' = n ∧ k' = k then some i else writer n' k'
  | _ => writer

def step (s : SharedSystem) : SharedAction → SharedSystem
  | .call i c =>
    { mvstore := ((s.engine i).step c).2.store.mvstore
      engines := Function.update s.engines i ((s.engine i).step c).2
      writer := writerAfter s.writer i ((s.engine i).event c) }
  | .vacuumMap i name => { s with mvstore := ((s.engine i).store.vacuumMap name).2.mvstore }

/-- Under the key there is an uncommitted record of a transaction of another engine. -/
def Foreign (s : SharedSystem) (i : Nat) (n : String) (k : Key) (u : UncommittedRecord) : Prop :=
  (s.mvstore.versioned n k).uncommitted = some u ∧ ∃ j, s.writer n k = some j ∧ j ≠ i

/-- What a step leaves alone of the other engines' transactions: a read under their records is a read of
what is committed, their records stay, and a vacuum takes nothing from what they see. -/
structure Isolated (s : SharedSystem) (a : SharedAction) : Prop where
  reads : ∀ i tx n k u t, a = .call i (.get tx n k) → s.Foreign i n k u →
    (s.engine i).awake tx = some t → t.status = .opened →
    s.answer i (.get tx n k) = .read (.ok ((s.mvstore.versioned n k).readCommitted t.snapshotVersion))
  marks : ∀ i c n k u, a = .call i c → s.Foreign i n k u →
    ((s.step a).mvstore.versioned n k).uncommitted = some u
  views : ∀ i name j tx t, a = .vacuumMap i name → j ≠ i →
    (s.engine j).transactions.lookup tx = some t → t.status = .opened →
    ∀ n k, (s.step a).mvstore.view t.txId t.snapshotVersion n k =
      s.mvstore.view t.txId t.snapshotVersion n k

variable {s : SharedSystem}

theorem not_foreign_of_unmarked {n : String} {k : Key}
    (h : (s.mvstore.versioned n k).uncommitted = none) (i : Nat) (u : UncommittedRecord) :
    ¬ s.Foreign i n k u := by
  rintro ⟨hu, _⟩
  rw [h] at hu
  cases hu

/-- The engine has another open transaction of the record's number, for which a write would wait. -/
def Waits (s : SharedSystem) (i tx : Nat) (u : UncommittedRecord) : Prop :=
  u.txId ≠ tx ∧ (s.engine i).store.isTxActive u.txId = true

/-- No transaction reads where another engine's transaction of the same number has a record, or writes
where another engine's transaction has one unless it takes it for one of its own engine's; and no engine
vacuums while another engine has a transaction with an older snapshot than all of its own. -/
def Apart (s : SharedSystem) : SharedAction → Prop
  | .call _ (.begin) | .call _ (.commit _ _) | .call _ (.rollback _) | .call _ (.timeOut _ _) => True
  | .call i (.get tx n k) => ∀ u, s.Foreign i n k u → u.txId ≠ tx
  | .call i c => ∀ tx wc u, (s.engine i).target c = some (tx, wc) →
      s.Foreign i wc.mapName wc.key u → s.Waits i tx u
  | .vacuumMap i _ => ∀ j tx t, j ≠ i → (s.engine j).transactions.lookup tx = some t →
      t.status = .opened → (s.engine i).store.oldestActiveVersion ≤ t.snapshotVersion

structure Ready (s : SharedSystem) : Prop where
  orderly : ∀ i, (s.engine i).Orderly
  bound : ∀ i, (s.engine i).Bound

/-- The marks under the keys of an open transaction's undo log are its own. -/
structure Sound (s : SharedSystem) : Prop extends Ready s where
  own : ∀ i tx sv logs, (s.engine i).opened tx = some (sv, logs) → ∀ n k, ⟨n, k⟩ ∈ logs →
    s.writer n k = some i ∧ (s.mvstore.versioned n k).activeTxId = some tx

variable {mvstore : MVStore Stored}

theorem ready_new (hv : mvstore.AllVersioned)
    (hc : mvstore.version ≤ mvstore.nextCommitVersion) : (new mvstore).Ready where
  orderly _ := TxSystem.orderly_new hv hc
  bound _ _ _ _ ht := by cases ht

theorem sound_new (hv : mvstore.AllVersioned)
    (hc : mvstore.version ≤ mvstore.nextCommitVersion) : (new mvstore).Sound :=
  ⟨ready_new hv hc, fun _ _ _ _ ho => by cases ho⟩

theorem Ready.onStore (h : s.Ready)
    (hv : mvstore.AllVersioned) (hc : mvstore.version ≤ mvstore.nextCommitVersion)
    (hfind : ∀ n id, s.mvstore.maps.find n = some id → mvstore.maps.find n = some id) :
    Ready { s with mvstore } :=
  ⟨fun i => (h.orderly i).withStore hv hc, fun i tx t w ht hw => hfind _ _ (h.bound i tx t w ht hw)⟩

theorem Sound.not_foreign (h : s.Sound) {i tx sv : Nat} {logs : List UndoLogEntry}
    (ho : (s.engine i).opened tx = some (sv, logs)) {n : String} {k : Key}
    (hlog : (⟨n, k⟩ : UndoLogEntry) ∈ logs) (u : UncommittedRecord) : ¬ s.Foreign i n k u := by
  rintro ⟨_, j, hj, hne⟩
  rw [(h.own i tx sv logs ho n k hlog).1] at hj
  cases hj
  exact hne rfl

theorem engine_of_ne {s s' : SharedSystem} {i j : Nat} {sys : TxSystem}
    (h : s'.engines = Function.update s.engines i sys) (hne : j ≠ i) :
    s'.engine j = (s.engine j).withStore s'.mvstore := by
  rw [engine, h, update_of_ne hne]
  rfl

section

variable {s : SharedSystem} {i : Nat} {c : Call}

theorem engine_call_self : (s.step (.call i c)).engine i = ((s.engine i).step c).2 := by
  change (Function.update s.engines i _ i).withStore _ = _
  rw [update_self]
  rfl

theorem Ready.effect (h : s.Ready) (i : Nat) (c : Call) :
    TxSystem.Effect (s.engine i) c ((s.engine i).step c).2 ((s.engine i).event c) :=
  (h.orderly i).step_effect c

theorem Ready.call (h : s.Ready) (i : Nat) (c : Call) : (s.step (.call i c)).Ready := by
  have he := h.effect i c
  refine ⟨fun j => ?_, fun j => ?_⟩ <;> by_cases hj : j = i
  · rw [hj, engine_call_self]
    exact (h.orderly i).effect he
  · have hafter := (h.orderly i).effect he
    rw [engine_of_ne rfl hj]
    exact (h.orderly j).withStore hafter.versioned hafter.counter
  · rw [hj, engine_call_self]
    exact (h.bound i).effect he
  · rw [engine_of_ne rfl hj]
    intro tx t w ht hw
    exact he.edited.find (h.bound j tx t w ht hw)

theorem opened_call (hsame : ((s.engine i).step c).2.opened = (s.engine i).opened) (j : Nat) :
    ((s.step (.call i c)).engine j).opened = (s.engine j).opened := by
  by_cases hj : j = i
  · rw [hj, engine_call_self, hsame]
  · rw [engine_of_ne rfl hj]
    rfl

variable {tx : Nat}

theorem opened_call_update {o : Option (Nat × List UndoLogEntry)}
    (hafter : ((s.engine i).step c).2.opened = Function.update (s.engine i).opened tx o) (j tx' : Nat) :
    ((s.step (.call i c)).engine j).opened tx' =
      if j = i ∧ tx' = tx then o else (s.engine j).opened tx' := by
  by_cases hj : j = i
  · rw [hj, engine_call_self, hafter, update_apply]
    simp
  · rw [engine_of_ne rfl hj, if_neg fun hc => hj hc.1]
    rfl

variable {wc : WriteCall} {u : UncommittedRecord}

theorem Apart.waits (hgood : s.Apart (.call i c))
    (htarget : (s.engine i).target c = some (tx, wc)) (hu : s.Foreign i wc.mapName wc.key u) :
    s.Waits i tx u := by
  cases c with
  | put | remove | wake => exact hgood tx wc u htarget hu
  | begin | get | timeOut | commit | rollback => cases htarget

theorem Apart.not_foreign (hgood : s.Apart (.call i c))
    {ts : TransactionStore} (htarget : (s.engine i).target c = some (tx, wc))
    (hm : Marked (s.engine i).store ts tx wc)
    (hfind : ts.mvstore.maps.find wc.mapName = some wc.map) (u : UncommittedRecord) :
    ¬ s.Foreign i wc.mapName wc.key u := by
  intro hu
  obtain ⟨hne, hrunning⟩ := hgood.waits htarget hu
  rw [hm.free hfind u hu.1 hne] at hrunning
  cases hrunning

variable {t : Transaction}

theorem Sound.own_ended (h : s.Sound) {sys' : TxSystem}
    (hsys : ((s.engine i).step c).2 = sys') (ht : (s.engine i).transactions.lookup tx = some t)
    (hopen : t.status = .opened) (hafter : sys'.opened = Function.update (s.engine i).opened tx none)
    (hkept : ∀ n k, ¬ (⟨n, k⟩ ∈ t.undoLog ∧ (s.mvstore.versioned n k).activeTxId = some tx) →
      sys'.store.mvstore.versioned n k = s.mvstore.versioned n k) (j tx' sv : Nat) (logs : List UndoLogEntry)
    (ho : ((s.step (.call i c)).engine j).opened tx' = some (sv, logs)) (n : String) (k : Key)
    (hlog : (⟨n, k⟩ : UndoLogEntry) ∈ logs) :
    s.writer n k = some j ∧ (sys'.store.mvstore.versioned n k).activeTxId = some tx' := by
  rw [opened_call_update (hsys ▸ hafter)] at ho
  split_ifs at ho with hsame
  obtain ⟨hwriter, hactive⟩ := h.own j tx' sv logs ho n k hlog
  -- the keys of the other logs have other marks
  refine ⟨hwriter, ?_⟩
  rw [hkept n k, hactive]
  rintro ⟨hlog', hactive'⟩
  have hwriter' := (h.own i tx _ _ (TxSystem.opened_of_lookup ht hopen) n k hlog').1
  rw [hwriter] at hwriter'
  rw [hactive] at hactive'
  cases hwriter'
  cases hactive'
  exact hsame ⟨rfl, rfl⟩

theorem Sound.own_marked (h : s.Sound) (hgood : s.Apart (.call i c)) {ts : TransactionStore}
    (hsys : ((s.engine i).step c).2 = (s.engine i).after tx
      ({ t with undoLog := t.undoLog ++ [⟨wc.mapName, wc.key⟩], waiting := none }, ts))
    (ht : (s.engine i).transactions.lookup tx = some t) (hopen : t.status = .opened)
    (htarget : (s.engine i).target c = some (tx, wc)) (hm : Marked (s.engine i).store ts tx wc)
    (hfind : ts.mvstore.maps.find wc.mapName = some wc.map)
    (j tx' sv : Nat) (logs : List UndoLogEntry)
    (ho : ((s.step (.call i c)).engine j).opened tx' = some (sv, logs)) (n : String) (k : Key)
    (hlog : (⟨n, k⟩ : UndoLogEntry) ∈ logs) :
    writerAfter s.writer i (some (.wrote tx wc.mapName wc.key wc.value)) n k = some j ∧
      (ts.mvstore.versioned n k).activeTxId = some tx' := by
  have hopened := TxSystem.opened_of_lookup ht hopen
  rw [hm.versioned hfind]
  change (if n = wc.mapName ∧ k = wc.key then some i else s.writer n k) = some j ∧ _
  have hafter : ((s.engine i).step c).2.opened = Function.update (s.engine i).opened tx
      (some (t.snapshotVersion, t.undoLog ++ [⟨wc.mapName, wc.key⟩])) := by
    rw [hsys, TxSystem.opened_after, Transaction.openView, if_pos hopen]
  rw [opened_call_update hafter] at ho
  by_cases hkey : n = wc.mapName ∧ k = wc.key
  · rw [if_pos hkey, if_pos hkey]
    split_ifs at ho with hsame
    · rw [hsame.1, hsame.2]
      exact ⟨rfl, rfl⟩
    · -- another open transaction has its mark here: the write would have waited for it
      exfalso
      obtain ⟨hwriter, hactive⟩ := h.own j tx' sv logs ho n k hlog
      obtain ⟨u, hu, hid⟩ := Option.map_eq_some_iff.mp hactive
      rw [hkey.1, hkey.2] at hwriter hu
      by_cases hj : j = i
      · rw [hj] at ho
        have hne : u.txId ≠ tx := fun hx => hsame ⟨hj, hid.symm.trans hx⟩
        have hrunning := (h.orderly i).active u.txId
        rw [hid, ho, ← hid, hm.free hfind u hu hne] at hrunning
        cases hrunning
      · exact hgood.not_foreign htarget hm hfind u ⟨hu, j, hwriter, hj⟩
  · rw [if_neg hkey, if_neg hkey]
    split_ifs at ho with hsame
    · -- the log of the transaction has grown by the written key only
      cases ho
      rw [hsame.1, hsame.2]
      rcases List.mem_append.mp hlog with hold | hnew
      · exact h.own i tx _ _ hopened n k hold
      · cases List.mem_singleton.mp hnew
        exact absurd ⟨rfl, rfl⟩ hkey
    · exact h.own j tx' sv logs ho n k hlog

theorem Sound.call (h : s.Sound) (hgood : s.Apart (.call i c)) : (s.step (.call i c)).Sound := by
  refine ⟨h.toReady.call i c, ?_⟩
  have he := h.effect i c
  have hb := h.bound i
  have hv := (h.orderly i).versioned
  change ∀ j tx sv logs, ((s.step (.call i c)).engine j).opened tx = some (sv, logs) → ∀ n k,
    (⟨n, k⟩ : UndoLogEntry) ∈ logs → writerAfter s.writer i ((s.engine i).event c) n k = some j ∧
      (((s.engine i).step c).2.store.mvstore.versioned n k).activeTxId = some tx
  generalize hsys : ((s.engine i).step c).2 = sys' at he
  generalize (s.engine i).event c = e at he
  cases he with
  | idle =>
    intro j tx sv logs ho
    rw [opened_call (by rw [hsys])] at ho
    exact h.own j tx sv logs ho
  | began hcall =>
    intro j tx sv logs ho n k hlog
    have hafter : ((s.engine i).step c).2.opened = Function.update (s.engine i).opened
        (s.engine i).store.nextTxId (some ((s.engine i).store.mvstore.version, [])) := by
      rw [hsys]
      exact TxSystem.opened_after _ _ ((s.engine i).store.begin)
    rw [opened_call_update hafter] at ho
    split_ifs at ho
    · cases ho
      cases hlog
    · exact h.own j tx sv logs ho n k hlog
  | quiet waiting ht hq hw =>
    intro j tx' sv logs ho n k hlog
    rw [opened_call (hsys ▸ TxSystem.opened_after_same ht rfl)] at ho
    have hread := versioned_congr hq.read
    change s.writer n k = some j ∧ _
    rw [TxSystem.after, hread]
    exact h.own j tx' sv logs ho n k hlog
  | marked ht hopen htarget hreach hm hvisible =>
    have hfind := hb.reaches ht hm.edited hreach
    exact h.own_marked hgood hsys ht hopen htarget hm hfind
  | rolledBack ht hopen hr =>
    refine h.own_ended hsys ht hopen (TxSystem.opened_after _ _ _) fun n k hother => ?_
    exact (hr.versioned hv n k).trans (if_neg hother)
  | closed ht hopen hawake hundo =>
    exact h.own_ended hsys ht hopen (TxSystem.opened_after _ _ _) fun n k _ => rfl
  | committed ht hopen hawake hc =>
    refine h.own_ended hsys ht hopen (TxSystem.opened_after _ _ _) fun n k hother => ?_
    exact (hc.versioned hv n k).trans (if_neg hother)

theorem Sound.marks_call (h : s.Sound) (hgood : s.Apart (.call i c)) {n : String} {k : Key}
    (hu : s.Foreign i n k u) : ((s.step (.call i c)).mvstore.versioned n k).uncommitted = some u := by
  have he := h.effect i c
  have hb := h.bound i
  have hv := (h.orderly i).versioned
  have hmark : ((s.engine i).store.mvstore.versioned n k).uncommitted = some u := hu.1
  -- the keys an ending transaction gives up are in its own log
  have hother : ∀ tx t, (s.engine i).transactions.lookup tx = some t → t.status = .opened →
      ¬ (⟨n, k⟩ ∈ t.undoLog ∧ ((s.engine i).store.mvstore.versioned n k).activeTxId = some tx) := by
    intro tx t ht hopen hc
    exact h.not_foreign (TxSystem.opened_of_lookup ht hopen) hc.1 u hu
  change (((s.engine i).step c).2.store.mvstore.versioned n k).uncommitted = some u
  generalize ((s.engine i).step c).2 = sys' at he
  generalize (s.engine i).event c = e at he
  cases he with
  | idle => exact hmark
  | began => exact hmark
  | quiet waiting ht hq hw => rw [TxSystem.after, versioned_congr hq.read, hmark]
  | marked ht hopen htarget hreach hm hvisible =>
    have hfind := hb.reaches ht hm.edited hreach
    rw [TxSystem.after, hm.versioned hfind, if_neg, hmark]
    rintro ⟨rfl, rfl⟩
    exact hgood.not_foreign htarget hm hfind u hu
  | rolledBack ht hopen hr => rw [TxSystem.after, hr.versioned hv, if_neg (hother _ _ ht hopen), hmark]
  | closed => exact hmark
  | committed ht hopen hawake hc =>
    exact ((hc.versioned hv n k).trans (if_neg (hother _ _ ht hopen))) ▸ hmark

theorem Sound.reads_call (h : s.Sound) {n : String} {k : Key}
    (hgood : s.Apart (.call i (.get tx n k))) (hu : s.Foreign i n k u)
    (ht : (s.engine i).awake tx = some t) (hopen : t.status = .opened) :
    s.answer i (.get tx n k) =
      .read (.ok ((s.mvstore.versioned n k).readCommitted t.snapshotVersion)) := by
  have hid := (h.orderly i).proper.txId tx t (TxSystem.awake_eq_some ht).1
  have hget := t.get_of_opened hopen (h.orderly i).versioned n k
  have hseen : (s.mvstore.versioned n k).readVisible t.txId t.snapshotVersion =
      (s.mvstore.versioned n k).readCommitted t.snapshotVersion := by
    rw [readVisible, hu.1, hid]
    exact if_neg (hgood u hu)
  rw [← hseen, answer, TxSystem.step, ht]
  exact congrArg Response.read hget

end

/-! ## The vacuum -/

theorem thin_vacuumed {ts ts' : TransactionStore} {name : String} (h : Vacuumed ts ts' name)
    (hv : ts.mvstore.AllVersioned) (n : String) (k : Key) :
    Thin ts.oldestActiveVersion (ts.mvstore.versioned n k) (ts'.mvstore.versioned n k) := by
  have hread := h.read n k
  split_ifs at hread
  · rcases hv.read n k with hnone | hsome
    · rw [hnone, Option.bind_none] at hread
      rw [versioned_of_read_none hread, versioned_of_read_none hnone]
      exact Thin.refl _ _
    · rw [hsome, Option.bind_some] at hread
      generalize ts.mvstore.versioned n k = vv at hread
      simp only [Stored.vacuumed, Stored.fromBytes] at hread
      split_ifs at hread with hdead
      · rw [versioned_of_read_none hread]
        exact thin_of_isDead hdead
      · split at hread
        · rename_i pruned hpruned
          rw [versioned_of_read hread]
          exact thin_of_pruneOldVersions hpruned
        · rw [versioned_of_read hread]
          exact Thin.refl _ _
  · rw [versioned_of_read_eq hread]
    exact Thin.refl _ _

section

variable {s : SharedSystem}

theorem Ready.vacuum (h : s.Ready) (i : Nat) (name : String) : (s.step (.vacuumMap i name)).Ready := by
  have hvac := vacuumMap_vacuumed (s.engine i).store name
  refine h.onStore (hvac.allVersioned (h.orderly i).versioned) ?_ fun n id hid => hvac.edited.find hid
  rw [hvac.maps]
  exact (h.orderly i).counter

theorem Sound.vacuum (h : s.Sound) (i : Nat) (name : String) : (s.step (.vacuumMap i name)).Sound := by
  have hvac := vacuumMap_vacuumed (s.engine i).store name
  have hv := (h.orderly i).versioned
  have hkept : ∀ n k, ((s.step (.vacuumMap i name)).mvstore.versioned n k).uncommitted =
      (s.mvstore.versioned n k).uncommitted := fun n k => (hvac.versioned hv n k).uncommitted
  refine ⟨h.toReady.vacuum i name, fun j tx sv logs ho n k hlog => ?_⟩
  obtain ⟨hwriter, hactive⟩ := h.own j tx sv logs ho n k hlog
  refine ⟨hwriter, ?_⟩
  rw [activeTxId, hkept]
  exact hactive

theorem Sound.views_vacuum (h : s.Sound) {i : Nat} {name : String}
    (hgood : s.Apart (.vacuumMap i name)) {j tx : Nat} {t : Transaction} (hne : j ≠ i)
    (ht : (s.engine j).transactions.lookup tx = some t) (hopen : t.status = .opened) (n : String)
    (k : Key) : (s.step (.vacuumMap i name)).mvstore.view t.txId t.snapshotVersion n k =
      s.mvstore.view t.txId t.snapshotVersion n k := by
  have hvac := vacuumMap_vacuumed (s.engine i).store name
  exact (thin_vacuumed hvac (h.orderly i).versioned n k).readVisible t.txId (hgood j tx t hne ht hopen)

end

theorem Sound.step (h : s.Sound) (a : SharedAction) (hgood : s.Apart a) : (s.step a).Sound := by
  cases a with
  | call i c => exact h.call hgood
  | vacuumMap i name => exact h.vacuum i name

theorem Sound.isolated (h : s.Sound) {a : SharedAction} (hgood : s.Apart a) :
    s.Isolated a := by
  refine ⟨?_, ?_, ?_⟩
  · rintro i tx n k u t rfl hu ht hopen
    exact h.reads_call hgood hu ht hopen
  · rintro i c n k u rfl hu
    exact h.marks_call hgood hu
  · rintro i name j tx t rfl hne ht hopen n k
    exact h.views_vacuum hgood hne ht hopen n k

def turnsOnKey : List SharedAction :=
  [.call 0 .begin, .call 0 (.put 1 "_g_social_nodes" [1] [10] none), .call 0 (.commit 1 (.ok ())),
    .call 1 .begin, .call 1 (.get 1 "_g_social_nodes" [1])]

/-- The first transactions of two engines are both transaction 1, so the second reads what the first
has not committed. -/
def sameNumber : List SharedAction :=
  [.call 0 .begin, .call 0 (.put 1 "_g_social_nodes" [1] [10] none), .call 1 .begin,
    .call 1 (.get 1 "_g_social_nodes" [1])]

end SharedSystem

end H2Database.Mvstore
