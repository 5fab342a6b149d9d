import H2Database.Mvstore.Tx.Database

/-!
# `vacuum_map`, key by key

The vacuum of a map drops dead keys and cuts histories, and touches nothing else: `vacuumed` says what
it leaves of one value.
-/

namespace H2Database.Mvstore

open Reasoning MVStore VersionedValue List Option

def Stored.vacuumed (horizonVersion : Nat) (stored : Stored) : Option Stored :=
  match stored.fromBytes with
  | .error _ => some stored
  | .ok vv =>
    if vv.isDead horizonVersion then none
    else
      match vv.pruneOldVersions horizonVersion with
      | some pruned => some (.versioned pruned)
      | none => some stored

namespace TransactionStore

def vacuumChange (horizonVersion : Nat) (e : Entry Key Stored) : List (Key × Option Stored) :=
  match e.value.fromBytes with
  | .error _ => []
  | .ok vv =>
    if vv.isDead horizonVersion then [(e.key, none)]
    else
      match vv.pruneOldVersions horizonVersion with
      | some pruned => [(e.key, some (.versioned pruned))]
      | none => []

def applyChanges (changes : List (Key × Option Stored)) (m : MVMap Stored) : MVMap Stored :=
  changes.foldl (fun m c => applyChange m c.1 c.2) m

theorem vacuumEntry_fst (h : Nat) (m : MVMap Stored) (e : Entry Key Stored) :
    (vacuumEntry h m e).1 = applyChanges (vacuumChange h e) m := by
  unfold vacuumEntry vacuumChange
  cases e.value.fromBytes with
  | error _ => rfl
  | ok vv =>
    simp only
    cases vv.isDead h with
    | true => rfl
    | false => cases vv.pruneOldVersions h <;> rfl

theorem vacuumEntries_fst (h : Nat) (m : MVMap Stored) (es : List (Entry Key Stored)) :
    (vacuumEntries h m es).1 = applyChanges (es.flatMap (vacuumChange h)) m := by
  unfold vacuumEntries
  generalize 0 = count
  induction es generalizing m count with
  | nil => rfl
  | cons e es ih =>
    rw [foldl_cons, flatMap_cons, applyChanges, foldl_append]
    refine (ih _ _).trans ?_
    change applyChanges _ (vacuumEntry h m e).1 = _
    rw [vacuumEntry_fst]
    rfl

theorem applyChanges_vacuumChange_of_ne (h : Nat) (m : MVMap Stored) {e : Entry Key Stored} {k : Key}
    (hk : k ≠ e.key) : (applyChanges (vacuumChange h e) m).get k = m.get k := by
  have hone : ∀ c, (applyChange m e.key c).get k = m.get k := by
    intro c
    rw [applyChange_get, Function.update_of_ne hk]
  unfold vacuumChange
  split
  · rfl
  · split_ifs
    · exact hone none
    · split
      · exact hone (some _)
      · rfl

variable {m : MVMap Stored}

theorem applyChanges_vacuumChange_self (h : Nat) {e : Entry Key Stored} (he : m.get e.key = some e.value) :
    (applyChanges (vacuumChange h e) m).get e.key = e.value.vacuumed h := by
  have hone : ∀ c, (applyChange m e.key c).get e.key = c := by
    intro c
    rw [applyChange_get, Function.update_self]
  unfold vacuumChange Stored.vacuumed
  split
  · exact he
  · split_ifs
    · exact hone none
    · split
      · exact hone (some _)
      · exact he

theorem applyChanges_get (h : Nat) {es : List (Entry Key Stored)} (hnd : (es.map Entry.key).Nodup)
    (hes : ∀ e ∈ es, m.get e.key = some e.value) (k : Key) :
    (k ∉ es.map Entry.key → (applyChanges (es.flatMap (vacuumChange h)) m).get k = m.get k) ∧
    ∀ e ∈ es, e.key = k →
      (applyChanges (es.flatMap (vacuumChange h)) m).get k = e.value.vacuumed h := by
  induction es generalizing m with
  | nil => exact ⟨fun _ => rfl, fun e he => absurd he not_mem_nil⟩
  | cons e es ih =>
    rw [map_cons, nodup_cons] at hnd
    have hsplit : applyChanges ((e :: es).flatMap (vacuumChange h)) m =
        applyChanges (es.flatMap (vacuumChange h)) (applyChanges (vacuumChange h e) m) := by
      rw [flatMap_cons, applyChanges, foldl_append]
      rfl
    have hrest : ∀ d ∈ es, (applyChanges (vacuumChange h e) m).get d.key = some d.value := by
      intro d hd
      rw [applyChanges_vacuumChange_of_ne h m fun heq => hnd.1 (heq ▸ mem_map_of_mem hd)]
      exact hes d (mem_cons_of_mem _ hd)
    obtain ⟨hout, hin⟩ := ih hnd.2 hrest
    rw [hsplit]
    constructor
    · intro hk
      rw [map_cons, mem_cons, not_or] at hk
      rw [hout hk.2, applyChanges_vacuumChange_of_ne h m hk.1]
    · intro d hd hdk
      rcases mem_cons.mp hd with rfl | hd
      · subst hdk
        rw [hout hnd.1, applyChanges_vacuumChange_self h (hes d mem_cons_self)]
      · exact hin d hd hdk

theorem vacuumEntries_get (h : Nat) (m : MVMap Stored) (k : Key) :
    (vacuumEntries h m m.tree.scanAll).1.get k = (m.get k).bind (Stored.vacuumed h) := by
  have hes : ∀ e ∈ m.tree.scanAll, m.get e.key = some e.value := fun e he =>
    (MVTree.mem_scanAll _ _ _).mp he
  have hnd : (m.tree.scanAll.map Entry.key).Nodup := m.tree.sorted_scanAll.imp fun hlt => hlt.ne
  have hget := applyChanges_get h hnd hes k
  rw [vacuumEntries_fst]
  cases hk : m.get k with
  | none =>
    rw [hget.1, hk, bind_none]
    intro hmem
    obtain ⟨e, he, rfl⟩ := mem_map.mp hmem
    rw [hes e he] at hk
    cases hk
  | some stored =>
    have hmem : (⟨k, stored⟩ : Entry Key Stored) ∈ m.tree.scanAll := (MVTree.mem_scanAll _ _ _).mpr hk
    rw [hget.2 _ hmem rfl, bind_some]

/-! ## The vacuum as edits of the store -/

theorem update_applyChanges (changes : List (Key × Option Stored)) (s : MVStore Stored) (id : Nat) :
    s.update id (applyChanges changes) = changes.foldl (fun s c => s.change id c.1 c.2) s := by
  induction changes generalizing s with
  | nil =>
    have hid : s.maps.modify id (applyChanges []) = s.maps := by
      have hobjects : s.maps.objects.modify id (applyChanges []) = s.maps.objects :=
        modify_id _ _
      unfold Registry.modify
      simp only [hobjects]
    rw [update, hid]
    rfl
  | cons c changes ih =>
    rw [foldl_cons, ← ih]
    have hobjects : s.maps.objects.modify id (applyChanges (c :: changes)) =
        (s.maps.objects.modify id fun m => applyChange m c.1 c.2).modify id (applyChanges changes) := by
      rw [modify_modify_eq]
      rfl
    unfold MVStore.change update Registry.modify
    simp only [hobjects]

theorem update_const {s : MVStore Stored} {id : Nat} (h : s.maps.deref id = some m)
    (f : MVMap Stored → MVMap Stored) : s.update id (fun _ => f m) = s.update id f := by
  have hobjects : s.maps.objects.modify id (fun _ => f m) = s.maps.objects.modify id f := by
    refine ext_getElem? fun i => ?_
    rw [getElem?_modify, getElem?_modify]
    by_cases hi : id = i
    · subst hi
      change s.maps.objects[id]? = some m at h
      rw [h]
      simp
    · simp [hi]
  unfold update Registry.modify
  simp only [hobjects]

/-- A store after `vacuum_map`. -/
structure Vacuumed (ts ts' : TransactionStore) (name : String) : Prop where
  edited : Edited ts.mvstore ts'.mvstore
  maps : OnlyMaps ts.mvstore ts'.mvstore
  nextTxId : ts'.nextTxId = ts.nextTxId
  active : ts'.activeTransactions = ts.activeTransactions
  read : ∀ n k, ts'.mvstore.read n k = if n = name then
    (ts.mvstore.read n k).bind (Stored.vacuumed ts.oldestActiveVersion) else ts.mvstore.read n k

theorem vacuumMap_eq (ts : TransactionStore) (name : String) :
    ∃ m changes mvstore, (ts.mvstore.openMap name).2.maps.deref (ts.mvstore.openMap name).1 = some m ∧
      changes = m.tree.scanAll.flatMap (vacuumChange ts.oldestActiveVersion) ∧
      mvstore = changes.foldl (fun s c => s.change (ts.mvstore.openMap name).1 c.1 c.2)
        (ts.mvstore.openMap name).2 ∧
      (ts.vacuumMap name).2 = { ts with mvstore } := by
  obtain ⟨m, hm⟩ := Registry.deref_of_find (find_openMap_self ts.mvstore name)
  refine ⟨m, _, _, hm, rfl, rfl, ?_⟩
  unfold vacuumMap openMap
  simp only [hm]
  rw [vacuumEntries_fst, update_const hm, update_applyChanges]

theorem vacuumMap_vacuumed (ts : TransactionStore) (name : String) :
    Vacuumed ts (ts.vacuumMap name).2 name := by
  obtain ⟨m, changes, mvstore, hm, hchanges, hstore, heq⟩ := vacuumMap_eq ts name
  have hfind := find_openMap_self ts.mvstore name
  have hopened := read_openMap ts.mvstore name
  rw [heq, hstore]
  refine ⟨?_, ?_, rfl, rfl, fun n k => ?_⟩
  · refine (Edited.openMap ts.mvstore name).trans (Edited.foldl (fun s c => ?_) _ _)
    exact Edited.change s _ c.1 c.2
  · refine (onlyMaps_openMap ts.mvstore name).trans (OnlyMaps.foldl (fun s c => ?_) _ _)
    exact onlyMaps_update s _ _
  · simp only
    rw [← update_applyChanges, ← update_const hm, hchanges, ← vacuumEntries_fst, ← hopened]
    change binding (contents ((ts.mvstore.openMap name).2.maps.modify _ _)) n k = _
    rw [contents_modify hfind, binding]
    by_cases hn : n = name
    · subst hn
      rw [Function.update_self, if_pos rfl, Registry.get_of_find hfind, hm, read_of_find hfind, hm,
        map_some, bind_some, bind_some]
      exact vacuumEntries_get _ m k
    · rw [Function.update_of_ne hn, if_neg hn]
      rfl

end TransactionStore

/-! ## What the vacuum leaves of a value -/

theorem VersionedValue.pruneOldVersions_eq_some {vv pruned : VersionedValue} {h : Nat}
    (hp : vv.pruneOldVersions h = some pruned) :
    ∃ i, pruned = { vv with committedHistory := vv.committedHistory.take (i + 1) } := by
  unfold pruneOldVersions at hp
  split_ifs at hp
  split at hp
  · cases hp
  · rename_i i _
    split_ifs at hp
    cases hp
    exact ⟨i, rfl⟩

theorem vacuumed_cases (h : Nat) (vv : VersionedValue) :
    (Stored.vacuumed h (.versioned vv) = none ∧ vv.uncommitted = none ∧
      vv.committedHistory.head?.bind VersionRecord.value = none) ∨
    ∃ kept, Stored.vacuumed h (.versioned vv) =
      some (.versioned { vv with committedHistory := vv.committedHistory.take (kept + 1) }) := by
  unfold Stored.vacuumed
  simp only [Stored.fromBytes]
  split_ifs with hdead
  · left
    unfold isDead at hdead
    split at hdead
    · cases hdead
    · rename_i hmark hhist
      exact ⟨rfl, hmark, by rw [hhist]; rfl⟩
    · rename_i first rest hmark hhist
      rw [Bool.and_eq_true, isNone_iff_eq_none] at hdead
      exact ⟨rfl, hmark, by rw [hhist, head?_cons, bind_some, hdead.2]⟩
  · right
    split
    · rename_i pruned hpruned
      obtain ⟨kept, rfl⟩ := pruneOldVersions_eq_some hpruned
      exact ⟨kept, rfl⟩
    · refine ⟨vv.committedHistory.length, ?_⟩
      rw [take_of_length_le (Nat.le_succ _)]

structure Cut (vv vv' : VersionedValue) : Prop where
  uncommitted : vv'.uncommitted = vv.uncommitted
  history : vv'.committedHistory ⊆ vv.committedHistory
  newest : vv'.committedHistory.head?.bind VersionRecord.value =
    vv.committedHistory.head?.bind VersionRecord.value

variable {ts ts' : TransactionStore}

theorem TransactionStore.Vacuumed.allVersioned {name : String}
    (h : Vacuumed ts ts' name) (hv : ts.mvstore.AllVersioned) : ts'.mvstore.AllVersioned := by
  intro n k stored hst
  rw [h.read] at hst
  split_ifs at hst
  · obtain ⟨old, hold, hvac⟩ := bind_eq_some_iff.mp hst
    obtain ⟨vv, rfl⟩ := hv n k old hold
    rcases vacuumed_cases ts.oldestActiveVersion vv with ⟨hnone, _⟩ | ⟨kept, hsome⟩
    · rw [hnone] at hvac
      cases hvac
    · rw [hsome] at hvac
      cases hvac
      exact ⟨_, rfl⟩
  · exact hv n k stored hst

theorem TransactionStore.Vacuumed.versioned {name : String}
    (h : Vacuumed ts ts' name) (hv : ts.mvstore.AllVersioned) (n : String) (k : Key) :
    Cut (ts.mvstore.versioned n k) (ts'.mvstore.versioned n k) := by
  have hread := h.read n k
  split_ifs at hread
  · rcases hv.read n k with hnone | hsome
    · rw [hnone, bind_none] at hread
      rw [versioned_of_read_none hread, versioned_of_read_none hnone]
      exact ⟨rfl, List.Subset.refl _, rfl⟩
    · rw [hsome, bind_some] at hread
      generalize ts.mvstore.versioned n k = vv at hread
      rcases vacuumed_cases ts.oldestActiveVersion vv with ⟨hgone, hmark, hnewest⟩ | ⟨kept, hkept⟩
      · rw [hgone] at hread
        rw [versioned_of_read_none hread]
        exact ⟨hmark.symm, nil_subset _, hnewest.symm⟩
      · rw [hkept] at hread
        rw [versioned_of_read hread]
        refine ⟨rfl, take_subset _ _, ?_⟩
        simp only [head?_take]
        rfl
  · rw [versioned_of_read_eq hread]
    exact ⟨rfl, List.Subset.refl _, rfl⟩

end H2Database.Mvstore
