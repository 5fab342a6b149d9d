import H2Database.Mvstore.Tx.Scan
import H2Database.Sql.Mirror

/-!
# Clients (`h2-sql/src/executor/mod.rs` over `h2-mvstore/src/tx`)

Statements of several transactions on one store.  A statement asks its questions on what its
transaction sees, and then makes its puts and removals one by one; the calls of the others may come
between any two of these steps.  A statement that fails leaves what it has written.  The engine rolls the
transaction back after it only where there was no `BEGIN`, and that is a step of its own.

What every statement keeps on what it sees is kept by the committed values, as long as a transaction
that has written something commits only on the newest snapshot, and none in which a statement has failed
behind a part of its writes.
-/

namespace H2Database.Sql

open Reasoning Mvstore Option Function

def seenBy (t : Transaction) (ts : TransactionStore) : Visible where
  get n k := (t.get ts n k).1.toOption.join
  scan n := (t.scanVisible ts n).1.toOption.getD []

/-- What the statement of a transaction has still to write and whether it has changed something yet, and
whether a statement of the transaction fails behind a part of its writes. -/
structure Agenda where
  planned : List Write
  begun : Bool
  torn : Bool

namespace Agenda

def new : Agenda := ⟨[], false, false⟩

def started (s : Agenda) (p : List Write × H2Result Unit) : Agenda :=
  ⟨p.1, false, s.torn || (!p.1.isEmpty && p.2.toOption.isNone)⟩

def wrote (s : Agenda) (changed : Bool) : Agenda := ⟨s.planned.tail, s.begun || changed, s.torn⟩

def failed (s : Agenda) : Agenda := ⟨[], false, s.torn || s.begun⟩

end Agenda

structure Clients where
  traced : TracedTx
  agendas : Nat → Agenda

/-- A statement asks its questions, and makes the writes up to its end or to its failure. -/
abbrev ClientStatement := Visible → List Write × H2Result Unit

inductive ClientAction where
  | begin
  | read (tx : Nat) (mapName : String) (key : Key)
  | execute (tx : Nat) (statement : ClientStatement)
  | write (tx : Nat) (remaining : Option Nat)
  | wake (tx : Nat) (remaining : Option Nat)
  | timeOut (tx : Nat) (remaining : Option Nat)
  | commit (tx : Nat) (sync : H2Result Unit)
  | rollback (tx : Nat)

def Write.call (tx : Nat) (remaining : Option Nat) : Write → Call
  | .put map key value => .put tx map key value remaining
  | .remove map key => .remove tx map key remaining

namespace Clients

def new (mvstore : MVStore Stored) : Clients := ⟨.new mvstore, fun _ => .new⟩

abbrev planned (c : Clients) (tx : Nat) : List Write := (c.agendas tx).planned

def set (c : Clients) (call : Call) (tx : Nat) (agenda : Agenda) : Clients :=
  ⟨c.traced.step call, Function.update c.agendas tx agenda⟩

/-- The statement goes on after a write of it has been made, and fails with it. -/
def answer (c : Clients) (tx : Nat) (call : Call) : Clients :=
  match (c.traced.sys.step call).1 with
  | .wrote (.returned (.ok changed)) => c.set call tx ((c.agendas tx).wrote changed)
  | .wrote (.returned (.error _)) => c.set call tx (c.agendas tx).failed
  | _ => ⟨c.traced.step call, c.agendas⟩

def step (c : Clients) : ClientAction → Clients
  | .begin => ⟨c.traced.step .begin, c.agendas⟩
  | .read tx mapName key => ⟨c.traced.step (.get tx mapName key), c.agendas⟩
  | .execute tx statement =>
    match c.traced.sys.awake tx with
    | none => c
    | some t =>
      if t.status = .opened ∧ c.planned tx = [] then
        ⟨c.traced, Function.update c.agendas tx
          ((c.agendas tx).started (statement (seenBy t c.traced.sys.store)))⟩
      else c
  | .write tx remaining =>
    match c.planned tx with
    | [] => c
    | w :: _ => c.answer tx (w.call tx remaining)
  | .wake tx remaining => c.answer tx (.wake tx remaining)
  | .timeOut tx remaining => c.answer tx (.timeOut tx remaining)
  | .commit tx sync => if c.planned tx = [] then ⟨c.traced.step (.commit tx sync), c.agendas⟩ else c
  | .rollback tx =>
    match c.traced.sys.awake tx with
    | none => c
    | some _ => c.set (.rollback tx) tx .new

def committed (c : Clients) : MapValues := c.traced.sys.store.mvstore.committed

end Clients

/-! ## Writes on values -/

def overlay (values : MapValues) (writes : List Write) : MapValues := fun n k =>
  (lastWrite n k writes).getD (values n k)

@[simp] theorem overlay_nil (values : MapValues) : overlay values [] = values := rfl

theorem overlay_cons (values : MapValues) (w : Write) (ws : List Write) :
    overlay values (w :: ws) = overlay (overlay values [w]) ws := by
  funext n k
  rw [overlay, overlay, overlay, lastWrite, lastWrite_singleton]
  cases lastWrite n k ws <;> rfl

structure Reflects (seen : Visible) (values : MapValues) : Prop where
  get : ∀ n k, seen.get n k = values n k
  scan : ∀ n k v, (k, v) ∈ seen.scan n ↔ values n k = some v

theorem reflects_seenBy {t : Transaction} {ts : TransactionStore} (hopen : t.status = .opened)
    (hv : ts.mvstore.AllVersioned) :
    Reflects (seenBy t ts) (ts.mvstore.view t.txId t.snapshotVersion) where
  get n k := by
    change (t.get ts n k).1.toOption.join = _
    rw [Transaction.get_eq_view hopen hv]
    rfl
  scan n k v := by
    obtain ⟨entries, hscan, hmem⟩ := Transaction.mem_scanVisible hopen hv n
    change (k, v) ∈ (t.scanVisible ts n).1.toOption.getD [] ↔ _
    rw [hscan]
    exact hmem k v

/-- If the values that are seen have the property, what the statement makes of them has it again. -/
def Keeps (P : MapValues → Prop) (seen : Visible) (statement : ClientStatement) : Prop :=
  ∀ values writes, Reflects seen values → P values → statement seen = (writes, .ok ()) →
    P (overlay values writes)

namespace Clients

/-- Statements keep the property on what they see.  A transaction with writes commits on the newest snapshot,
and not after a statement that has failed behind a part of its writes. -/
def Good (P : MapValues → Prop) (c : Clients) : ClientAction → Prop
  | .execute tx statement => ∀ t, c.traced.sys.awake tx = some t →
      Keeps P (seenBy t c.traced.sys.store) statement
  | .commit tx _ => ∀ t, c.traced.sys.transactions.lookup tx = some t → t.undoLog ≠ [] →
      t.snapshotVersion = c.traced.sys.store.mvstore.version ∧ (c.agendas tx).torn = false
  | _ => True

end Clients

def Write.Makes (w : Write) (wc : WriteCall) : Prop :=
  wc.mapName = w.mapName ∧ wc.key = w.key ∧ wc.value = w.value

theorem overlay_singleton (values : MapValues) (w : Write) (n : String) (k : Key) :
    overlay values [w] n k = if n = w.mapName ∧ k = w.key then w.value else values n k := by
  rw [overlay, lastWrite_singleton, w.at_eq]
  split_ifs <;> rfl

theorem Write.target_call (w : Write) (sys : TxSystem) (tx : Nat) (remaining : Option Nat) :
    ∃ wc, sys.target (w.call tx remaining) = some (tx, wc) ∧ w.Makes wc := by
  cases w with
  | put map key value => exact ⟨_, rfl, rfl, rfl, rfl⟩
  | remove map key => exact ⟨_, rfl, rfl, rfl, rfl⟩

theorem Write.isWriteOf_call (w : Write) (tx : Nat) (remaining : Option Nat) :
    (w.call tx remaining).IsWriteOf tx := by
  cases w <;> rfl

/-- A transaction whose statements have not failed half-way has the property once its planned writes are made,
and also before the statement has changed anything. -/
def Agenda.Leads (s : Agenda) (P : MapValues → Prop) (values : MapValues) : Prop :=
  s.torn = false → P (overlay values s.planned) ∧ (s.begun = false → P values)

theorem Agenda.leads_of_nil {P : MapValues → Prop} {s : Agenda} {values : MapValues}
    (hplanned : s.planned = []) (h : P values) :
    s.Leads P values := by
  intro _
  rw [hplanned, overlay_nil]
  exact ⟨h, fun _ => h⟩

namespace Clients

variable {P : MapValues → Prop} {base : Base} {c : Clients}

/-- The committed values have the property.  A transaction on the newest snapshot is led to it; a write that
sleeps is the first of those it plans. -/
structure Kept (P : MapValues → Prop) (base : Base) (c : Clients) : Prop where
  faithful : Faithful base c.traced.sys c.traced.trace
  committed : P c.committed
  fresh : ∀ tx, c.traced.sys.store.nextTxId ≤ tx → c.planned tx = []
  sleeping : ∀ tx t w, c.traced.sys.transactions.lookup tx = some t → t.waiting = some w →
    ∃ wr ws, c.planned tx = wr :: ws ∧ wr.Makes w.call
  current : ∀ tx t, c.traced.sys.transactions.lookup tx = some t → t.status = .opened →
    t.snapshotVersion = c.traced.sys.store.mvstore.version →
      (c.agendas tx).Leads P (c.traced.sys.store.mvstore.view tx c.traced.sys.store.mvstore.version)

theorem kept_new {s : MVStore Stored} (h : s.AtRest) (hP : P s.committed) : Kept P s.base (new s) where
  faithful := TracedTx.faithful_new h
  committed := hP
  fresh _ _ := rfl
  sleeping _ _ _ ht := by cases ht
  current _ _ ht := by cases ht

theorem Kept.called (h : Kept P base c) (call : Call) {agendas : Nat → Agenda}
    (hcommit : ∀ tx t version, c.traced.sys.event call = some (.committed tx version) →
      c.traced.sys.transactions.lookup tx = some t → t.status = .opened → t.undoLog ≠ [] →
        P (c.traced.sys.store.mvstore.view tx c.traced.sys.store.mvstore.version))
    (hfresh : ∀ tx, c.traced.sys.store.nextTxId ≤ tx → (agendas tx).planned = [])
    (hsleeping : ∀ tx t w, (c.traced.step call).sys.transactions.lookup tx = some t →
      t.waiting = some w → ∃ wr ws, (agendas tx).planned = wr :: ws ∧ wr.Makes w.call)
    (hleads : ∀ tx t t', c.traced.sys.transactions.lookup tx = some t → t.status = .opened →
      t.snapshotVersion = c.traced.sys.store.mvstore.version →
        (c.traced.step call).sys.transactions.lookup tx = some t' → t'.status = .opened →
          t'.snapshotVersion = (c.traced.step call).sys.store.mvstore.version →
            (agendas tx).Leads P ((c.traced.step call).sys.store.mvstore.view tx
              (c.traced.step call).sys.store.mvstore.version)) :
    Kept P base ⟨c.traced.step call, agendas⟩ := by
  have he := h.faithful.orderly.step_effect call
  refine ⟨h.faithful.step call, ?_, fun tx hle => hfresh tx (Nat.le_trans he.nextTxId_le hle),
    hsleeping, fun tx t' ht' hopen hnewest => ?_⟩
  · change P (c.traced.sys.step call).2.store.mvstore.committed
    rcases h.faithful.committed_effect he with heq | ⟨tx, t, version, hev, ht, hopen, hundo, heq⟩
    · rw [heq]
      exact h.committed
    · rw [heq]
      exact hcommit tx t version hev ht hopen hundo
  · rcases h.faithful.newest_effect he ht' hopen hnewest with ⟨hnew, hview⟩ | ⟨t, ht, hopen₀, hnewest₀, -⟩
    · change (agendas tx).Leads P ((c.traced.sys.step call).2.store.mvstore.view tx
        (c.traced.sys.step call).2.store.mvstore.version)
      rw [hview]
      exact Agenda.leads_of_nil (hfresh tx (Nat.le_of_eq hnew.symm)) h.committed
    · exact hleads tx t t' ht hopen₀ hnewest₀ ht' hopen hnewest

variable {tx : Nat} {t : Transaction} {call : Call}

theorem Kept.ended (h : Kept P base c) (hplanned : c.planned tx = [])
    (ht : c.traced.sys.transactions.lookup tx = some t) (hopen : t.status = .opened)
    (hnewest : t.snapshotVersion = c.traced.sys.store.mvstore.version) (htorn : (c.agendas tx).torn = false) :
    P (c.traced.sys.store.mvstore.view tx c.traced.sys.store.mvstore.version) := by
  have hend := (h.current tx t ht hopen hnewest htorn).1
  rwa [show (c.agendas tx).planned = [] from hplanned, overlay_nil] at hend

theorem Kept.view_same (h : Kept P base c) (call : Call) {t' : Transaction}
    (hev : ∀ n k value, c.traced.sys.event call ≠ some (.wrote tx n k value))
    (ht : c.traced.sys.transactions.lookup tx = some t)
    (ht' : (c.traced.step call).sys.transactions.lookup tx = some t') (hopen : t'.status = .opened)
    (hnewest : t'.snapshotVersion = (c.traced.step call).sys.store.mvstore.version) :
    (c.traced.step call).sys.store.mvstore.view tx (c.traced.step call).sys.store.mvstore.version =
      c.traced.sys.store.mvstore.view tx c.traced.sys.store.mvstore.version := by
  have he := h.faithful.orderly.step_effect call
  rcases h.faithful.newest_effect he ht' hopen hnewest with ⟨hnew, -⟩ | ⟨_, _, _, _, hcases⟩
  · rw [hnew, h.faithful.orderly.fresh _ (Nat.le_refl _)] at ht
    cases ht
  · rcases hcases with ⟨-, hview⟩ | ⟨wc, -, hwrote, -⟩
    · exact hview
    · exact absurd hwrote (hev _ _ _)

theorem Kept.sleeping_same (h : Kept P base c) (htarget : c.traced.sys.target call = none) {w : Waiting}
    (ht : (c.traced.step call).sys.transactions.lookup tx = some t) (hw : t.waiting = some w) :
    ∃ wr ws, c.planned tx = wr :: ws ∧ wr.Makes w.call := by
  have he := h.faithful.orderly.step_effect call
  rcases he.waiting_cases ht hw with ⟨t₀, ht₀, hw₀⟩ | hnew
  · exact h.sleeping tx t₀ w ht₀ hw₀
  · rw [htarget] at hnew
    cases hnew

theorem event_ne_wrote {sys : TxSystem} (htarget : sys.target call = none) (tx : Nat) (n : String) (k : Key)
    (value : Option (List UInt8)) :
    sys.event call ≠ some (.wrote tx n k value) := by
  intro h
  unfold TxSystem.event at h
  rw [htarget] at h
  split at h
  · cases h
  · cases h
  · obtain ⟨_, _, heq⟩ := map_eq_some_iff.mp h
    cases heq
  · cases h

theorem Kept.quiet (h : Kept P base c) (htarget : c.traced.sys.target call = none)
    (hcommits : c.traced.sys.commits call = none) : Kept P base ⟨c.traced.step call, c.agendas⟩ := by
  refine h.called call (fun tx t version hev _ _ _ => ?_) h.fresh
    (fun tx t w ht hw => h.sleeping_same htarget ht hw) fun tx t t' ht hopen₀ hnewest₀ ht' hopen hnewest => ?_
  · unfold TxSystem.event at hev
    rw [htarget, hcommits] at hev
    split at hev <;> cases hev
  · rw [h.view_same call (event_ne_wrote htarget tx) ht ht' hopen hnewest]
    exact h.current tx t ht hopen₀ hnewest₀

theorem Kept.replanned (h : Kept P base c) {agenda : Agenda}
    (hawake : ∀ t, c.traced.sys.transactions.lookup tx = some t → t.waiting = none)
    (hfresh : c.traced.sys.store.nextTxId ≤ tx → agenda.planned = [])
    (hleads : ∀ t, c.traced.sys.transactions.lookup tx = some t → t.status = .opened →
      t.snapshotVersion = c.traced.sys.store.mvstore.version → agenda.Leads P
        (c.traced.sys.store.mvstore.view tx c.traced.sys.store.mvstore.version)) :
    Kept P base ⟨c.traced, Function.update c.agendas tx agenda⟩ := by
  refine ⟨h.faithful, h.committed, fun tx' hle => ?_, fun tx' t w ht hw => ?_,
    fun tx' t ht hopen hnewest => ?_⟩
  · change (Function.update c.agendas tx agenda tx').planned = []
    rw [update_apply]
    split_ifs with htx
    · exact hfresh (htx ▸ hle)
    · exact h.fresh tx' hle
  · have hne : tx' ≠ tx := by
      intro heq
      rw [hawake t (heq ▸ ht)] at hw
      cases hw
    change ∃ wr ws, (Function.update c.agendas tx agenda tx').planned = wr :: ws ∧ _
    rw [update_of_ne hne]
    exact h.sleeping tx' t w ht hw
  · change (Function.update c.agendas tx agenda tx').Leads P _
    by_cases htx : tx' = tx
    · subst htx
      rw [update_self]
      exact hleads t ht hopen hnewest
    · rw [update_of_ne htx]
      exact h.current tx' t ht hopen hnewest

theorem Kept.rollback (h : Kept P base c) (tx : Nat)
    (hawake : ∀ t, c.traced.sys.transactions.lookup tx = some t → t.waiting = none) :
    Kept P base (c.set (.rollback tx) tx .new) := by
  have hrolled : Kept P base ⟨c.traced.step (.rollback tx), c.agendas⟩ := h.quiet rfl rfl
  refine hrolled.replanned (fun t ht => ?_) (fun _ => rfl) fun t ht hopen _ => ?_
  · by_contra hw
    obtain ⟨w, hw⟩ := ne_none_iff_exists'.mp hw
    rcases (h.faithful.orderly.step_effect (.rollback tx)).waiting_cases ht hw with ⟨t₀, ht₀, hw₀⟩ | hnew
    · rw [hawake t₀ ht₀] at hw₀
      cases hw₀
    · cases hnew
  · exact absurd hopen (TxSystem.lookup_rollback hawake ht)

theorem Kept.commit (h : Kept P base c) (sync : H2Result Unit) (hplanned : c.planned tx = [])
    (hnewest : Good P c (.commit tx sync)) :
    Kept P base ⟨c.traced.step (.commit tx sync), c.agendas⟩ := by
  refine h.called (.commit tx sync) (fun tx' t version hev ht hopen hundo => ?_) h.fresh
    (fun tx' t w ht hw => h.sleeping_same rfl ht hw) fun tx' t t' ht hopen₀ hnewest₀ ht' hopen hnewest => ?_
  · have htx : tx' = tx := by
      unfold TxSystem.event at hev
      split at hev
      · cases hev
      · cases hev
      · obtain ⟨tx₁, hcommits, heq⟩ := map_eq_some_iff.mp hev
        obtain ⟨_, _, htx₁⟩ := map_eq_some_iff.mp hcommits
        cases heq
        exact htx₁.symm
      · cases hev
    rw [htx] at ht ⊢
    obtain ⟨hversion, htorn⟩ := hnewest t ht hundo
    exact h.ended hplanned ht hopen hversion htorn
  · rw [h.view_same (.commit tx sync) (event_ne_wrote rfl tx') ht ht' hopen hnewest]
    exact h.current tx' t ht hopen₀ hnewest₀

theorem answer_idle (h : c.traced.sys.step call = (.idle, c.traced.sys)) :
    c.answer tx call = c := by
  rw [answer, h]
  simp only
  rw [TracedTx.step, TxSystem.event, h]
  rfl

variable {p : Progress × Transaction × TransactionStore}

theorem Kept.returned (h : Kept P base c)
    (hcall : call.IsWriteOf tx) (ht : c.traced.sys.transactions.lookup tx = some t)
    (hstep : c.traced.sys.step call = c.traced.sys.write tx p)
    (hanswers : TxSystem.Answers c.traced.sys call tx t p) {wr : Write} {ws : List Write}
    (hplanned : c.planned tx = wr :: ws)
    (hmakes : ∀ wc, c.traced.sys.target call = some (tx, wc) → wr.Makes wc) {b : Bool}
    (hp : p.1 = .returned (.ok b)) :
    Kept P base (c.set call tx ((c.agendas tx).wrote b)) := by
  have he := h.faithful.orderly.step_effect call
  have hevent : c.traced.sys.event call = if b then (c.traced.sys.target call).map fun q =>
      .wrote q.1 q.2.mapName q.2.key q.2.value else none := by
    unfold TxSystem.event
    rw [hstep, TxSystem.write, hp]
    cases b <;> rfl
  have hother : ∀ tx', tx' ≠ tx → ∀ n k value,
      c.traced.sys.event call ≠ some (.wrote tx' n k value) := by
    intro tx' hne n k value hev
    rw [hevent] at hev
    split_ifs at hev
    obtain ⟨q, hq, heq⟩ := map_eq_some_iff.mp hev
    cases heq
    exact hne (TxSystem.target_of_isWriteOf hcall hq)
  have hlookup : (c.traced.step call).sys.transactions.lookup tx = some p.2.1 := by
    change (c.traced.sys.step call).2.transactions.lookup tx = _
    rw [hstep]
    exact TxSystem.lookup_after_self _ _ _
  refine h.called call (fun tx' t' version hev _ _ _ => ?_) (fun tx' hle => ?_)
    (fun tx' t' w ht' hw => ?_) fun tx' t₀ t' ht₀ hopen₀ hnewest₀ ht' hopen hnewest => ?_
  · rw [hevent] at hev
    split_ifs at hev
    obtain ⟨q, hq, heq⟩ := map_eq_some_iff.mp hev
    cases heq
  · rw [update_apply]
    split_ifs with htx
    · change (c.planned tx).tail = []
      rw [h.fresh tx (htx ▸ hle)]
      rfl
    · exact h.fresh tx' hle
  · have hne : tx' ≠ tx := by
      intro heq
      rw [heq, hlookup] at ht'
      rw [← Option.some.inj ht', hanswers.awake _ hp] at hw
      cases hw
    rw [update_of_ne hne]
    rcases he.waiting_cases ht' hw with ⟨t₁, ht₁, hw₁⟩ | hnew
    · exact h.sleeping tx' t₁ w ht₁ hw₁
    · exact absurd (TxSystem.target_of_isWriteOf hcall hnew) hne
  · by_cases htx : tx' = tx
    · subst htx
      rw [update_self]
      intro htorn
      obtain ⟨hend, hstart⟩ := h.current tx' t₀ ht₀ hopen₀ hnewest₀ htorn
      cases ht.symm.trans ht₀
      obtain ⟨wc, hwc⟩ := hanswers.target b hp
      obtain ⟨hmap, hkey, hvalue⟩ := hmakes wc hwc
      have hview : (c.traced.step call).sys.store.mvstore.view tx'
          (c.traced.step call).sys.store.mvstore.version = overlay (c.traced.sys.store.mvstore.view tx'
            c.traced.sys.store.mvstore.version) [wr] := by
        funext n k
        rw [overlay_singleton]
        cases b with
        | true =>
          rcases h.faithful.newest_effect he ht' hopen hnewest with ⟨hnew, -⟩ | ⟨_, _, _, _, hcases⟩
          · rw [hnew, h.faithful.orderly.fresh _ (Nat.le_refl _)] at ht
            cases ht
          · rcases hcases with ⟨hnot, -⟩ | ⟨wc', htarget, -, hview⟩
            · rw [hevent, hwc] at hnot
              exact absurd rfl (hnot _ _ _)
            · cases hwc.symm.trans htarget
              rw [← hmap, ← hkey, ← hvalue]
              exact hview n k
        | false =>
          rw [h.view_same call (fun n k value hev => by
            rw [hevent] at hev
            cases hev) ht ht' hopen hnewest]
          -- a removal that returns false has found nothing to remove
          obtain ⟨hnone, hview⟩ := hanswers.nothing hp wc hwc
          rw [hnewest₀] at hview
          split_ifs with hnk
          · rw [hnk.1, hnk.2, ← hvalue, hnone, ← hmap, ← hkey, hview]
          · rfl
      refine ⟨?_, fun hbegun => ?_⟩
      · change P (overlay _ (c.planned tx').tail)
        rw [hplanned, List.tail_cons, hview, ← overlay_cons, ← hplanned]
        exact hend
      · obtain ⟨hbefore, rfl⟩ := Bool.or_eq_false_iff.mp hbegun
        rw [h.view_same call (fun n k value hev => by
          rw [hevent] at hev
          cases hev) ht ht' hopen hnewest]
        exact hstart hbefore
    · rw [update_of_ne htx, h.view_same call (hother tx' htx) ht₀ ht' hopen hnewest]
      exact h.current tx' t₀ ht₀ hopen₀ hnewest₀

theorem Kept.unmade (h : Kept P base c) (hcall : call.IsWriteOf tx)
    (hresponse : (c.traced.sys.step call).1 = .wrote p.1) (hp : ∀ b, p.1 ≠ .returned (.ok b))
    {wr : Write} {ws : List Write} (hplanned : c.planned tx = wr :: ws)
    (hmakes : ∀ wc, c.traced.sys.target call = some (tx, wc) → wr.Makes wc) :
    Kept P base ⟨c.traced.step call, c.agendas⟩ := by
  have he := h.faithful.orderly.step_effect call
  have hevent : c.traced.sys.event call = none := by
    unfold TxSystem.event
    rw [hresponse]
    split
    · rename_i heq
      cases heq
    · rename_i heq
      exact absurd (Response.wrote.inj heq) (hp true)
    · rename_i heq
      cases heq
    · rfl
  refine h.called call (fun tx' t version hev _ _ _ => ?_) h.fresh (fun tx' t w ht hw => ?_)
    fun tx' t t' ht hopen₀ hnewest₀ ht' hopen hnewest => ?_
  · rw [hevent] at hev
    cases hev
  · rcases he.waiting_cases ht hw with ⟨t₀, ht₀, hw₀⟩ | hnew
    · exact h.sleeping tx' t₀ w ht₀ hw₀
    · have htx := TxSystem.target_of_isWriteOf hcall hnew
      rw [htx] at hnew ⊢
      exact ⟨wr, ws, hplanned, hmakes w.call hnew⟩
  · rw [h.view_same call (fun n k value hev => by (rw [hevent] at hev; cases hev)) ht ht' hopen hnewest]
    exact h.current tx' t ht hopen₀ hnewest₀

theorem Kept.answer (h : Kept P base c) (hcall : call.IsWriteOf tx)
    (hplans : c.traced.sys.step call ≠ (.idle, c.traced.sys) → ∃ wr ws, c.planned tx = wr :: ws ∧
      ∀ wc, c.traced.sys.target call = some (tx, wc) → wr.Makes wc) :
    Kept P base (c.answer tx call) := by
  by_cases hidle : c.traced.sys.step call = (.idle, c.traced.sys)
  · rw [answer_idle hidle]
    exact h
  obtain ⟨t, p, ht, hstep, hanswers⟩ :=
    (TxSystem.step_write_cases h.faithful hcall).resolve_left hidle
  obtain ⟨wr, ws, hplanned, hmakes⟩ := hplans hidle
  have hresponse : (c.traced.sys.step call).1 = .wrote p.1 := by rw [hstep, TxSystem.write]
  have hlookup : (c.traced.step call).sys.transactions.lookup tx = some p.2.1 := by
    change (c.traced.sys.step call).2.transactions.lookup tx = _
    rw [hstep]
    exact TxSystem.lookup_after_self _ _ _
  unfold Clients.answer
  rw [hresponse]
  cases hp : p.1 with
  | waits =>
    rw [hp] at hresponse
    exact h.unmade (p := p) hcall (hp ▸ hresponse) (by simp [hp]) hplanned hmakes
  | returned r =>
    cases r with
    | ok b => exact h.returned hcall ht hstep hanswers hplanned hmakes hp
    | error e =>
      have hunmade := h.unmade hcall hresponse (by simp [hp]) hplanned hmakes
      refine hunmade.replanned (fun t' ht' => ?_) (fun _ => rfl) fun t' ht' hopen hnewest htorn => ?_
      · rw [← Option.some.inj (hlookup.symm.trans ht')]
        exact hanswers.awake _ hp
      · obtain ⟨htorn, hbegun⟩ := Bool.or_eq_false_iff.mp htorn
        have hstart := (hunmade.current tx t' ht' hopen hnewest htorn).2 hbegun
        exact ⟨hstart, fun _ => hstart⟩

theorem Kept.execute (h : Kept P base c) {statement : ClientStatement}
    (hgood : Good P c (.execute tx statement)) : Kept P base (c.step (.execute tx statement)) := by
  cases hawake : c.traced.sys.awake tx with
  | none =>
    simp only [Clients.step, hawake]
    exact h
  | some t =>
    obtain ⟨ht, hw⟩ := TxSystem.awake_eq_some hawake
    simp only [Clients.step, hawake]
    split_ifs with hready
    · obtain ⟨hopen, hplanned⟩ := hready
      refine h.replanned (fun t' ht' => ?_) (fun hle => ?_) fun t' ht' _ hnewest htorn => ?_
      · rw [← Option.some.inj (ht.symm.trans ht')]
        exact hw
      · rw [h.faithful.orderly.fresh tx hle] at ht
        cases ht
      · cases ht.symm.trans ht'
        obtain ⟨htorn, hended⟩ := Bool.or_eq_false_iff.mp htorn
        have hcurrent := h.ended hplanned ht hopen hnewest htorn
        refine ⟨?_, fun _ => hcurrent⟩
        have hreflects := reflects_seenBy hopen h.faithful.orderly.versioned
        rw [h.faithful.orderly.proper.txId tx t ht, hnewest] at hreflects
        have hkeeps := hgood t hawake _ (statement (seenBy t c.traced.sys.store)).1 hreflects hcurrent
        change P (overlay _ (statement (seenBy t c.traced.sys.store)).1)
        rcases hstatement : statement (seenBy t c.traced.sys.store) with ⟨writes, e | u⟩
        · -- a statement that is to fail writes nothing here
          rw [hstatement, Except.toOption, isNone_none, Bool.and_true, Bool.not_eq_false'] at hended
          rw [List.isEmpty_iff.mp hended, overlay_nil]
          exact hcurrent
        · rw [hstatement] at hkeeps
          exact hkeeps rfl
    · exact h

theorem Kept.step (h : Kept P base c) {a : ClientAction} (hgood : Good P c a) :
    Kept P base (c.step a) := by
  cases a with
  | begin => exact h.quiet rfl rfl
  | read tx mapName key => exact h.quiet rfl rfl
  | execute tx statement => exact h.execute hgood
  | write tx remaining =>
    cases hplanned : c.planned tx with
    | nil =>
      simp only [Clients.step, hplanned]
      exact h
    | cons w ws =>
      simp only [Clients.step, hplanned]
      refine h.answer (w.isWriteOf_call tx remaining) fun _ => ⟨w, ws, hplanned, fun wc hwc => ?_⟩
      obtain ⟨wc', htarget, hmakes⟩ := w.target_call c.traced.sys tx remaining
      cases htarget.symm.trans hwc
      exact hmakes
  | wake tx remaining =>
    refine h.answer rfl fun hidle => ?_
    cases hasleep : c.traced.sys.asleep tx with
    | none => exact absurd (by simp only [TxSystem.step, hasleep]) hidle
    | some p =>
      obtain ⟨t, w⟩ := p
      obtain ⟨ht, hw⟩ := TxSystem.asleep_eq_some hasleep
      obtain ⟨wr, ws, hplanned, hmakes⟩ := h.sleeping tx t w ht hw
      refine ⟨wr, ws, hplanned, fun wc hwc => ?_⟩
      rw [TxSystem.target, hasleep] at hwc
      cases hwc
      exact hmakes
  | timeOut tx remaining =>
    refine h.answer rfl fun hidle => ?_
    cases hasleep : c.traced.sys.asleep tx with
    | none => exact absurd (by simp only [TxSystem.step, hasleep]) hidle
    | some p =>
      obtain ⟨t, w⟩ := p
      obtain ⟨ht, hw⟩ := TxSystem.asleep_eq_some hasleep
      obtain ⟨wr, ws, hplanned, -⟩ := h.sleeping tx t w ht hw
      exact ⟨wr, ws, hplanned, fun wc hwc => by cases hwc⟩
  | commit tx sync =>
    by_cases hplanned : c.planned tx = []
    · simp only [Clients.step, if_pos hplanned]
      exact h.commit sync hplanned hgood
    · simp only [Clients.step, if_neg hplanned]
      exact h
  | rollback tx =>
    cases hawake : c.traced.sys.awake tx with
    | none =>
      simp only [Clients.step, hawake]
      exact h
    | some t =>
      simp only [Clients.step, hawake]
      obtain ⟨ht, hw⟩ := TxSystem.awake_eq_some hawake
      refine h.rollback _ fun t' ht' => ?_
      rw [← Option.some.inj (ht.symm.trans ht')]
      exact hw

theorem committed_runs {s : MVStore Stored} (hs : s.AtRest) (hP : P s.committed)
    {as : List ClientAction} (hgood : Meets step (Good P) (new s) as) :
    P (runs step (new s) as).committed :=
  (invariant_runs (fun _ _ h hg => h.step hg) (kept_new hs hP) hgood).committed

end Clients

end H2Database.Sql
