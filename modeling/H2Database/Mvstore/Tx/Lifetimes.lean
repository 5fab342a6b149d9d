import H2Database.Mvstore.Tx.Shared

/-!
# What a store never holds

A property of records that holds of everything in a store, in its log and in the image of its file holds
of everything a later lifetime of the store begins with.  For a property of keys it is enough to look at
the keys that transactions put.
-/

namespace H2Database.Mvstore

open Reasoning MVStore VersionedValue TransactionStore List Option

namespace MVStore

structure Throughout (P : String → Key → Stored → Prop) (s : MVStore Stored) : Prop where
  stored : ∀ n k stored, s.read n k = some stored → P n k stored
  logged : ∀ n k stored, ⟨n, k, some stored⟩ ∈ s.wal.flatMap WalRecord.changes → P n k stored
  image : ∃ atImage img, Journaled s atImage img ∧ NamesKept ⟨s, atImage⟩ ∧
    ∀ n k stored, binding img n k = some stored → P n k stored

namespace Throughout

variable {P Q : String → Key → Stored → Prop} {s s' : MVStore Stored}

theorem new : Throughout P MVStore.new where
  stored _ _ _ h := by cases h
  logged _ _ _ h := by cases h
  image := by
    refine ⟨MVStore.new, fun _ => none, journaled_init, fun h => ?_, fun _ _ _ h => ?_⟩
    · cases h
    · cases h

section

variable (h : Throughout P s)

include h

theorem mono (hPQ : ∀ n k stored, P n k stored → Q n k stored) :
    Throughout Q s := by
  obtain ⟨atImage, img, hj, hn, himg⟩ := h.image
  exact ⟨fun n k st hst => hPQ n k st (h.stored n k st hst),
    fun n k st hst => hPQ n k st (h.logged n k st hst),
    atImage, img, hj, hn, fun n k st hst => hPQ n k st (himg n k st hst)⟩

theorem edited (he : Edited s s') (hstored : ∀ n k stored, s'.read n k = some stored → P n k stored)
    (hlogged : ∀ n k stored, ⟨n, k, some stored⟩ ∈ s'.wal.flatMap WalRecord.changes → P n k stored) :
    Throughout P s' := by
  obtain ⟨atImage, img, hj, hn, himg⟩ := h.image
  have hd := he.dataStep
  refine ⟨hstored, hlogged, atImage, img, hj.dataStep hd, fun hcp n id hid => ?_, himg⟩
  exact he.find (hn (hd.hasCheckpoint ▸ hcp) n id hid)

theorem edited_unlogged (he : Edited s s') (hwal : s'.wal = s.wal)
    (hstored : ∀ n k stored, s'.read n k = some stored → P n k stored) : Throughout P s' := by
  refine h.edited he hstored fun n k stored hmem => h.logged n k stored ?_
  rwa [hwal] at hmem

theorem nextImage {atImage : MVStore Stored} {img : Contents Stored}
    (hj : Journaled s atImage img) (hn : NamesKept ⟨s, atImage⟩)
    (himg : ∀ n k stored, binding img n k = some stored → P n k stored) (n : String) (k : Key)
    (stored : Stored) (hb : binding (s.nextImage img) n k = some stored) : P n k stored := by
  rcases binding_nextImage (t := ⟨s, atImage⟩) hj hn n k with hstore | ⟨_, hold⟩
  · rw [hstore] at hb
    exact h.stored n k stored hb
  · rw [hold] at hb
    exact himg n k stored hb

theorem checkpoint (io : WriteOutcome) : Throughout P (s.checkpoint io).2 := by
  obtain ⟨atImage, img, hj, hn, himg⟩ := h.image
  have hread := read_checkpoint s io
  have hpublished := hj.published
  refine ⟨fun n k stored hst => ?_, fun n k stored hmem => h.logged n k stored ?_, ?_⟩
  · rw [hread] at hst
    exact h.stored n k stored hst
  · unfold MVStore.checkpoint at hmem
    split at hmem
    · exact hmem
    · exact hmem
    · cases hmem
  · unfold MVStore.checkpoint
    split
    · exact ⟨atImage, img, hj.unpublished, hn, himg⟩
    · exact ⟨_, _, hpublished, fun _ _ _ hid => hid, h.nextImage hj hn himg⟩
    · exact ⟨_, _, hpublished.withWal [] [], fun _ _ _ hid => hid, h.nextImage hj hn himg⟩

theorem reopened {kept : Nat} (hopen : openAt s.file (s.wal.take kept) = .ok s') : Throughout P s' := by
  obtain ⟨atImage, img, hj, hn, himg⟩ := h.image
  obtain ⟨s₀, s'', hopen₀, hopen'', hj₀, hstep, hwal, hfind, hread⟩ :=
    read_openAt hj.holds (s.wal.take kept)
  rw [hopen] at hopen''
  cases hopen''
  have hlog : ∀ n k stored,
      ⟨n, k, some stored⟩ ∈ (s.wal.take kept).flatMap WalRecord.changes → P n k stored := by
    intro n k stored hmem
    obtain ⟨r, hr, hc⟩ := mem_flatMap.mp hmem
    exact h.logged n k stored (mem_flatMap.mpr ⟨r, mem_of_mem_take hr, hc⟩)
  refine ⟨fun n k stored hst => ?_, fun n k stored hmem => ?_, s₀, img, hj₀.dataStep hstep,
    fun _ n id hid => hfind n id hid, himg⟩
  · rw [hread] at hst
    cases hlast : lastChange n k ((s.wal.take kept).flatMap WalRecord.changes) with
    | none =>
      rw [hlast, getD_none] at hst
      exact himg n k stored hst
    | some value =>
      rw [hlast, getD_some] at hst
      subst hst
      exact hlog n k stored (exists_of_lastChange hlast)
  · rw [hwal] at hmem
    exact hlog n k stored hmem

end

end Throughout

end MVStore

def AtKeys (Q : String → Key → Prop) (n : String) (k : Key) (stored : Stored) : Prop :=
  (∃ vv, stored = .versioned vv) ∧ Q n k

namespace MVStore.Throughout

variable {Q : String → Key → Prop}

theorem allVersioned {s : MVStore Stored} (h : Throughout (AtKeys Q) s) : s.AllVersioned :=
  fun n k stored hst => (h.stored n k stored hst).1

theorem effect {sys sys' : TxSystem} {c : Call} {e : Option Event}
    (h : Throughout (AtKeys Q) sys.store.mvstore) (hb : sys.Bound)
    (he : TxSystem.Effect sys c sys' e)
    (hput : ∀ tx wc, sys.target c = some (tx, wc) → wc.value.isSome → Q wc.mapName wc.key) :
    Throughout (AtKeys Q) sys'.store.mvstore := by
  have hv := h.allVersioned
  have hedited := he.edited
  cases he with
  | idle => exact h
  | began => exact h
  | quiet waiting ht hq hw =>
    refine h.edited_unlogged hedited hq.wal fun n k stored hst => h.stored n k stored ?_
    rwa [TxSystem.after, hq.read] at hst
  | marked ht hopen htarget hreach hm hvisible =>
    have hfind := hb.reaches ht hm.edited hreach
    refine h.edited_unlogged hedited hm.wal fun n k stored hst => ?_
    rw [TxSystem.after, hm.read hfind] at hst
    split_ifs at hst with hkey
    · cases hst
      refine ⟨⟨_, rfl⟩, ?_⟩
      rw [hkey.1, hkey.2]
      rcases hvisible hfind with hsome | hseen
      · exact hput _ _ htarget hsome
      · -- what is removed was there
        rcases hv.read _ _ with hnone | hstored
        · rw [versioned_of_read_none hnone] at hseen
          cases hseen
        · exact (h.stored _ _ _ hstored).2
    · exact h.stored n k stored hst
  | rolledBack ht hopen hr =>
    refine h.edited_unlogged hedited hr.wal fun n k stored hst => ?_
    refine ⟨hr.allVersioned hv n k stored hst, ?_⟩
    rw [TxSystem.after, hr.read] at hst
    rcases hv.read n k with hnone | hstored
    · rw [hnone] at hst
      split_ifs at hst
      cases hst
    · exact (h.stored n k _ hstored).2
  | closed => exact h
  | committed ht hopen hawake hc =>
    have hthere : ∀ n k stored, sys.store.mvstore.read n k ≠ none →
        (∃ vv, stored = .versioned vv) → AtKeys Q n k stored := by
      intro n k stored hne hst
      obtain ⟨old, hold⟩ := ne_none_iff_exists'.mp hne
      exact ⟨hst, (h.stored n k old hold).2⟩
    refine h.edited hedited (fun n k stored hst => ?_) fun n k stored hmem => ?_
    · refine hthere n k stored ?_ (hc.allVersioned hv n k stored hst)
      rw [TxSystem.after, Transaction.closed, removeActiveTx, hc.read] at hst
      intro hnone
      rw [hnone] at hst
      split_ifs at hst
      cases hst
    · rw [TxSystem.after, Transaction.closed, removeActiveTx, hc.wal] at hmem
      rw [flatMap_append, mem_append] at hmem
      rcases hmem with hold | hnew
      · exact h.logged n k stored hold
      · -- a logged value is what the commit makes of the stored one
        rw [flatMap_singleton, mem_flatMap] at hnew
        obtain ⟨log, hlog, hchange⟩ := hnew
        have heq := Transaction.mem_commitChange hv hchange
        rw [WalChange.mk.injEq] at heq
        obtain ⟨rfl, rfl, hvalue⟩ := heq
        refine hthere _ _ _ ?_ (afterCommit_versioned (hv _ _) hvalue.symm)
        intro hnone
        rw [hnone] at hvalue
        cases hvalue

theorem vacuumed {ts ts' : TransactionStore} {name : String} (h : Throughout (AtKeys Q) ts.mvstore)
    (hvac : Vacuumed ts ts' name) : Throughout (AtKeys Q) ts'.mvstore := by
  have hwal : ts'.mvstore.wal = ts.mvstore.wal := by rw [hvac.maps]
  refine h.edited_unlogged hvac.edited hwal fun n k stored hst => ?_
  refine ⟨hvac.allVersioned h.allVersioned n k stored hst, ?_⟩
  rw [hvac.read] at hst
  split_ifs at hst
  · obtain ⟨old, hold, _⟩ := bind_eq_some_iff.mp hst
    exact (h.stored n k old hold).2
  · exact (h.stored n k stored hst).2

end MVStore.Throughout

namespace TxSystem.Effect

variable {sys sys' : TxSystem} {c : Call} {e : Option Event}

theorem read_none (he : Effect sys c sys' e) (hb : sys.Bound) {n : String} {k : Key}
    (hnone : sys.store.mvstore.read n k = none)
    (hother : ∀ tx v, e ≠ some (.wrote tx n k (some v))) : sys'.store.mvstore.read n k = none := by
  cases he with
  | idle => exact hnone
  | began => exact hnone
  | quiet waiting ht hq hw => exact (congrFun (congrFun hq.read n) k).trans hnone
  | marked ht hopen htarget hreach hm hvisible =>
    refine (hm.read (hb.reaches ht hm.edited hreach) n k).trans ?_
    rw [if_neg, hnone]
    rintro ⟨rfl, rfl⟩
    rcases hvisible (hb.reaches ht hm.edited hreach) with hput | hseen
    · obtain ⟨v, hv⟩ := isSome_iff_exists.mp hput
      exact hother _ v (by rw [hv])
    · -- nothing can be removed here
      rw [versioned_of_read_none hnone] at hseen
      cases hseen
  | rolledBack ht hopen hr =>
    refine (hr.read n k).trans ?_
    rw [hnone]
    exact ite_self _
  | closed => exact hnone
  | committed ht hopen hawake hc =>
    refine (hc.read n k).trans ?_
    rw [hnone]
    exact ite_self _

theorem sleeping (he : Effect sys c sys' e) {tx : Nat} {t : Transaction} {w : Waiting}
    (ht : sys'.transactions.lookup tx = some t) (hw : t.waiting = some w) :
    (∃ t₀, sys.transactions.lookup tx = some t₀ ∧ t₀.waiting = some w) ∨
      sys.target c = some (tx, w.call) ∧
        (sys'.store.mvstore.maps.find w.call.mapName = some w.call.map →
          (sys.store.mvstore.versioned w.call.mapName w.call.key).uncommitted ≠ none) := by
  -- who has taken a step is awake, unless the step was to fall asleep
  have hafter : ∀ {tx' : Nat} {t' : Transaction} {ts : TransactionStore},
      (sys.after tx' (t', ts)).transactions.lookup tx = some t → t'.waiting = none →
      ∃ t₀, sys.transactions.lookup tx = some t₀ ∧ t₀.waiting = some w := by
    intro tx' t' ts hlook hawake
    rw [lookup_after] at hlook
    split_ifs at hlook
    · cases hlook
      rw [hawake] at hw
      cases hw
    · exact ⟨t, hlook, hw⟩
  cases he with
  | idle => exact .inl ⟨t, ht, hw⟩
  | began =>
    exact .inl (@hafter sys.store.nextTxId sys.store.begin.1 sys.store.begin.2 ht rfl)
  | quiet waiting hold hq hsleeps =>
    rw [lookup_after] at ht
    split_ifs at ht with htx
    · cases ht
      rcases (hsleeps w hw).2 with hslept | hnew
      · exact .inl ⟨_, htx ▸ hold, hslept⟩
      · refine .inr ⟨htx ▸ hnew.target, fun hfind hnone => ?_⟩
        obtain ⟨u, hu, _⟩ := hnew.holder hfind
        rw [hnone] at hu
        cases hu
    · exact .inl ⟨t, ht, hw⟩
  | marked => exact .inl (hafter ht rfl)
  | rolledBack => exact .inl (hafter ht rfl)
  | closed hold hopen hawake hundo => exact .inl (hafter ht hawake)
  | committed hold hopen hawake hc => exact .inl (hafter ht hawake)

end TxSystem.Effect

theorem TxSystem.event_eq_wrote {sys : TxSystem} {c : Call} {tx : Nat} {n : String} {k : Key}
    {value : Option (List UInt8)} (h : sys.event c = some (.wrote tx n k value)) :
    (sys.step c).1 = .wrote (.returned (.ok true)) ∧
      ∃ wc, sys.target c = some (tx, wc) ∧ wc.mapName = n ∧ wc.key = k ∧ wc.value = value := by
  unfold event at h
  split at h
  · cases h
  · rename_i hstep
    obtain ⟨⟨tx', wc⟩, htarget, heq⟩ := map_eq_some_iff.mp h
    cases heq
    exact ⟨hstep, wc, htarget, rfl, rfl, rfl⟩
  · obtain ⟨_, _, heq⟩ := map_eq_some_iff.mp h
    cases heq
  · cases h

end H2Database.Mvstore
