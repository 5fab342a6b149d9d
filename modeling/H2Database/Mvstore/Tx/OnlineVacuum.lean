import H2Database.Mvstore.Tx.Thinning

/-!
# `vacuum_map` among transactions (`h2-mvstore/src/tx/store.rs`)

A vacuum reads its horizon, scans its map, and then writes key by key from the copy it has scanned,
without the key's lock.  Here the three are steps of their own, between any calls of transactions and
the steps of other vacuums.
-/

namespace H2Database.Mvstore

open Reasoning MVStore VersionedValue TransactionStore
open List hiding isEmpty_iff

structure VacuumJob where
  mapName : String
  horizonVersion : Nat
  /-- after the scan: the map, and the entries the loop has still to look at -/
  entries : Option (Nat × List (Entry Key Stored))
  prunedCount : Nat

namespace VacuumJob

def start (ts : TransactionStore) (name : String) : VacuumJob := ⟨name, ts.oldestActiveVersion, none, 0⟩

/-- `open_map` and `scan_all`. -/
def scan (job : VacuumJob) (ts : TransactionStore) : VacuumJob × TransactionStore :=
  match job.entries with
  | some _ => (job, ts)
  | none =>
    let (map, ts) := ts.openMap job.mapName
    match ts.mvstore.maps.deref map with
    | none => (job, ts)
    | some m => ({ job with entries := some (map, m.tree.scanAll) }, ts)

def clean (job : VacuumJob) (ts : TransactionStore) : VacuumJob × TransactionStore :=
  match job.entries with
  | some (map, e :: es) =>
    match ts.mvstore.maps.deref map with
    | none => (job, ts)
    | some m =>
      let (m', dropped) := vacuumEntry job.horizonVersion m e
      ({ job with
          entries := some (map, es)
          prunedCount := if dropped then job.prunedCount + 1 else job.prunedCount },
        { ts with mvstore := ts.mvstore.update map fun _ => m' })
  | _ => (job, ts)

end VacuumJob

inductive VacuumAction where
  | call (c : Call)
  | vacuumMap (name : String)
  | scan (job : Nat)
  | clean (job : Nat)

structure VacuumSystem where
  sys : TxSystem
  jobs : List VacuumJob

namespace VacuumSystem

def new (mvstore : MVStore Stored) : VacuumSystem := ⟨.new mvstore, []⟩

def after (v : VacuumSystem) (job : Nat) (p : VacuumJob × TransactionStore) : VacuumSystem :=
  ⟨{ v.sys with store := p.2 }, v.jobs.set job p.1⟩

def step (v : VacuumSystem) : VacuumAction → Option Response × VacuumSystem
  | .call c => (some (v.sys.step c).1, { v with sys := (v.sys.step c).2 })
  | .vacuumMap name => (none, { v with jobs := v.jobs ++ [.start v.sys.store name] })
  | .scan j =>
    match v.jobs[j]? with
    | none => (none, v)
    | some job => (none, v.after j (job.scan v.sys.store))
  | .clean j =>
    match v.jobs[j]? with
    | none => (none, v)
    | some job => (none, v.after j (job.clean v.sys.store))

def next (v : VacuumSystem) (action : VacuumAction) : VacuumSystem := (v.step action).2

def run (v : VacuumSystem) : List VacuumAction → List Response × VacuumSystem
  | [] => ([], v)
  | action :: actions =>
    let (answer, v) := v.step action
    let (answers, v) := v.run actions
    (answer.toList ++ answers, v)

def calls : List VacuumAction → List Call
  | [] => []
  | .call c :: actions => c :: calls actions
  | _ :: actions => calls actions

end VacuumSystem

def TxSystem.run (sys : TxSystem) : List Call → List Response × TxSystem
  | [] => ([], sys)
  | c :: cs =>
    let (answer, sys) := sys.step c
    let (answers, sys) := sys.run cs
    (answer :: answers, sys)

/-! ## The write of a vacuum -/

namespace TransactionStore

theorem vacuumChange_cases (h : Nat) (e : Entry Key Stored) :
    vacuumChange h e = [] ∨
    (∃ vv, e.value.fromBytes = .ok vv ∧ vv.isDead h = true ∧ vacuumChange h e = [(e.key, none)]) ∨
    ∃ vv pruned, e.value.fromBytes = .ok vv ∧ vv.pruneOldVersions h = some pruned ∧
      vacuumChange h e = [(e.key, some (.versioned pruned))] := by
  unfold vacuumChange
  cases hvv : e.value.fromBytes with
  | error _ => exact .inl rfl
  | ok vv =>
    simp only
    split_ifs with hdead
    · exact .inr (.inl ⟨vv, rfl, hdead, rfl⟩)
    · split
      · rename_i pruned hpruned
        exact .inr (.inr ⟨vv, pruned, rfl, hpruned, rfl⟩)
      · exact .inl rfl

variable {s : MVStore Stored}

theorem update_vacuumEntry {map : Nat} {m : MVMap Stored}
    (hm : s.maps.deref map = some m) (h : Nat) (e : Entry Key Stored) :
    s.update map (fun _ => (vacuumEntry h m e).1) =
      (vacuumChange h e).foldl (fun s c => s.change map c.1 c.2) s := by
  rw [vacuumEntry_fst, update_const hm, update_applyChanges]

/-- A store after a vacuum has cleaned one key that it had scanned as it was. -/
structure Cleaned (s s' : MVStore Stored) (h : Nat) : Prop where
  edited : Edited s s'
  version : s'.version = s.version
  nextCommitVersion : s'.nextCommitVersion = s.nextCommitVersion
  allVersioned : s'.AllVersioned
  values : ∀ n k, Thin h (s.versioned n k) (s'.versioned n k)

theorem cleaned_refl (hv : s.AllVersioned) (h : Nat) : Cleaned s s h :=
  ⟨Edited.refl _, rfl, rfl, hv, fun _ _ => Thin.refl h _⟩

theorem cleaned_change (hv : s.AllVersioned) {name : String} {map h : Nat}
    (hfind : s.maps.find name = some map) {key : Key} {vv : VersionedValue} {c : Option Stored}
    (hc : c = none ∧ vv = ⟨none, []⟩ ∨ c = some (.versioned vv))
    (hthin : Thin h (s.versioned name key) vv) : Cleaned s (s.change map key c) h := by
  refine ⟨Edited.change s map key c, rfl, rfl, fun n k stored hst => ?_, fun n k => ?_⟩
  · rw [read_change hfind] at hst
    split_ifs at hst
    · rcases hc with ⟨rfl, _⟩ | rfl
      · cases hst
      · exact ⟨vv, (Option.some.inj hst).symm⟩
    · exact hv n k stored hst
  · have hread := read_change hfind key c n k
    split_ifs at hread with hnk
    · obtain ⟨rfl, rfl⟩ := hnk
      rcases hc with ⟨rfl, rfl⟩ | rfl
      · rw [versioned_of_read_none hread]
        exact hthin
      · rw [versioned_of_read hread]
        exact hthin
    · rw [versioned_of_read_eq hread]
      exact Thin.refl h _

theorem cleaned_vacuumChange (hv : s.AllVersioned) {name : String} {map h : Nat}
    (hfind : s.maps.find name = some map) {e : Entry Key Stored}
    (hkey : vacuumChange h e = [] ∨ s.read name e.key = some e.value) :
    Cleaned s ((vacuumChange h e).foldl (fun s c => s.change map c.1 c.2) s) h := by
  by_cases hnil : vacuumChange h e = []
  · rw [hnil]
    exact cleaned_refl hv h
  · have hread := hkey.resolve_left hnil
    obtain ⟨vv, hvalue⟩ := hv name e.key e.value hread
    have hvv := versioned_of_read (hvalue ▸ hread)
    rcases vacuumChange_cases h e with hnone | ⟨vv', hvv', hdead, heq⟩ | ⟨vv', pruned, hvv', hp, heq⟩
    · exact absurd hnone hnil
    · rw [hvalue] at hvv'
      cases hvv'
      rw [heq, foldl_cons, foldl_nil]
      exact cleaned_change hv hfind (.inl ⟨rfl, rfl⟩) (hvv.symm ▸ thin_of_isDead hdead)
    · rw [hvalue] at hvv'
      cases hvv'
      rw [heq, foldl_cons, foldl_nil]
      exact cleaned_change hv hfind (.inr rfl) (hvv.symm ▸ thin_of_pruneOldVersions hp)

end TransactionStore

namespace VacuumJob

/-- Every open transaction reads at the horizon of the vacuum or later, and the map of the vacuum still
has its name. -/
structure Sound (job : VacuumJob) (ts : TransactionStore) : Prop where
  horizon : job.horizonVersion ≤ ts.oldestActiveVersion
  find : ∀ map es, job.entries = some (map, es) → ts.mvstore.maps.find job.mapName = some map

theorem scan_cases (job : VacuumJob) (ts : TransactionStore) :
    job.scan ts = (job, ts) ∨ ∃ m, (ts.openMap job.mapName).2.mvstore.maps.deref
        (ts.openMap job.mapName).1 = some m ∧
      job.scan ts = ({ job with entries := some ((ts.openMap job.mapName).1, m.tree.scanAll) },
        (ts.openMap job.mapName).2) := by
  obtain ⟨m, hm⟩ := Registry.deref_of_find (find_openMap_self ts.mvstore job.mapName)
  have hm' : (ts.openMap job.mapName).2.mvstore.maps.deref (ts.openMap job.mapName).1 = some m := hm
  unfold scan
  split
  · exact .inl rfl
  · simp only [hm']
    exact .inr ⟨m, rfl, rfl⟩

theorem clean_eq {job : VacuumJob} {ts : TransactionStore} {map : Nat} {e : Entry Key Stored}
    {es : List (Entry Key Stored)} {m : MVMap Stored} (hentries : job.entries = some (map, e :: es))
    (hm : ts.mvstore.maps.deref map = some m) :
    ∃ count, job.clean ts = ({ job with entries := some (map, es), prunedCount := count },
      { ts with
        mvstore := (vacuumChange job.horizonVersion e).foldl (fun s c => s.change map c.1 c.2)
          ts.mvstore }) := by
  refine ⟨if (vacuumEntry job.horizonVersion m e).2 then job.prunedCount + 1 else job.prunedCount, ?_⟩
  rw [← update_vacuumEntry hm]
  simp only [clean, hentries, hm]

theorem clean_cases (job : VacuumJob) (ts : TransactionStore) :
    job.clean ts = (job, ts) ∨ ∃ map e es count, job.entries = some (map, e :: es) ∧
      job.clean ts = ({ job with entries := some (map, es), prunedCount := count },
        { ts with
          mvstore := (vacuumChange job.horizonVersion e).foldl (fun s c => s.change map c.1 c.2)
            ts.mvstore }) := by
  cases hentries : job.entries with
  | none =>
    left
    simp only [clean, hentries]
  | some scanned =>
    obtain ⟨map, entries⟩ := scanned
    cases entries with
    | nil =>
      left
      simp only [clean, hentries]
    | cons e es =>
      cases hm : ts.mvstore.maps.deref map with
      | none =>
        left
        simp only [clean, hentries, hm]
      | some m =>
        obtain ⟨count, heq⟩ := clean_eq hentries hm
        exact .inr ⟨map, e, es, count, rfl, heq⟩

end VacuumJob

namespace VacuumSystem

/-! ## A vacuum with nothing in between -/

variable {es : List (Entry Key Stored)}

theorem clean_runs {v : VacuumSystem} {j : Nat} {job : VacuumJob} (hj : v.jobs[j]? = some job) {map : Nat}
    (hentries : job.entries = some (map, es)) (hfind : v.sys.store.mvstore.maps.find job.mapName = some map) :
    (runs next v (List.replicate es.length (.clean j))).sys.store =
      { v.sys.store with
        mvstore := (es.flatMap (vacuumChange job.horizonVersion)).foldl
          (fun s c => s.change map c.1 c.2) v.sys.store.mvstore } := by
  induction es generalizing v job with
  | nil => rfl
  | cons e es ih =>
    obtain ⟨m, hm⟩ := Registry.deref_of_find hfind
    obtain ⟨count, hclean⟩ := VacuumJob.clean_eq hentries hm
    have hnext : v.next (.clean j) = v.after j (job.clean v.sys.store) := by
      simp only [next, step, hj]
    have hlt : j < v.jobs.length := (List.getElem?_eq_some_iff.mp hj).1
    have hj' : (v.after j (job.clean v.sys.store)).jobs[j]? = some (job.clean v.sys.store).1 :=
      List.getElem?_set_self hlt
    rw [List.length_cons, List.replicate_succ, runs_cons, hnext, List.flatMap_cons, List.foldl_append]
    rw [hclean] at hj' ⊢
    refine (ih hj' rfl ?_).trans rfl
    -- a key is written, and the map keeps its name
    have hedited : ∀ (s : MVStore Stored) (c : Key × Option Stored), Edited s (s.change map c.1 c.2) :=
      fun s c => Edited.change s map c.1 c.2
    exact (Edited.foldl hedited _ _).find hfind

theorem vacuumMap_alone (v : VacuumSystem) (name : String) : ∃ n,
    (runs next v (.vacuumMap name :: .scan v.jobs.length ::
      List.replicate n (.clean v.jobs.length))).sys.store = (v.sys.store.vacuumMap name).2 := by
  obtain ⟨m, changes, mvstore, hm, hchanges, hstore, heq⟩ := vacuumMap_eq v.sys.store name
  refine ⟨m.tree.scanAll.length, ?_⟩
  set v₁ := v.next (.vacuumMap name) with hv₁
  have hj₁ : v₁.jobs[v.jobs.length]? = some (.start v.sys.store name) := getElem?_concat_length
  have hscan : VacuumJob.scan (.start v.sys.store name) v.sys.store =
      (⟨name, v.sys.store.oldestActiveVersion, some ((v.sys.store.openMap name).1, m.tree.scanAll), 0⟩,
        (v.sys.store.openMap name).2) := by
    have hm' : (v.sys.store.openMap name).2.mvstore.maps.deref (v.sys.store.openMap name).1 = some m := hm
    simp only [VacuumJob.scan, VacuumJob.start, hm']
  have hnext : v₁.next (.scan v.jobs.length) = v₁.after v.jobs.length
      (VacuumJob.scan (.start v.sys.store name) v.sys.store) := by
    simp only [next, step, hj₁]
    rfl
  have hlt : v.jobs.length < v₁.jobs.length := (List.getElem?_eq_some_iff.mp hj₁).1
  rw [runs_cons, runs_cons, ← hv₁, hnext, hscan, heq, hstore, hchanges]
  refine (clean_runs (List.getElem?_set_self hlt) rfl ?_).trans rfl
  exact find_openMap_self v.sys.store.mvstore name

/-! ## What transactions see of vacuums -/

/-- What a vacuum writes comes from the value that still stands under the key. -/
def current (v : VacuumSystem) : VacuumAction → Bool
  | .clean j =>
    match v.jobs[j]? with
    | none => true
    | some job =>
      match job.entries with
      | some (map, e :: _) => (vacuumChange job.horizonVersion e).isEmpty ||
          v.sys.store.mapGet map e.key == some e.value
      | _ => true
  | _ => true

theorem current_clean {v : VacuumSystem} {j : Nat} (h : v.current (.clean j) = true) {job : VacuumJob}
    (hj : v.jobs[j]? = some job) {map : Nat} {e : Entry Key Stored}
    (hentries : job.entries = some (map, e :: es)) :
    vacuumChange job.horizonVersion e = [] ∨ v.sys.store.mapGet map e.key = some e.value := by
  simp only [current, hj, hentries, Bool.or_eq_true, List.isEmpty_iff, beq_iff_eq] at h
  exact h

structure Follows (v : VacuumSystem) (sys : TxSystem) : Prop where
  thin : TxSystem.ThinSystem sys v.sys
  jobs : ∀ job ∈ v.jobs, job.Sound v.sys.store

end VacuumSystem

namespace TxSystem

theorem ThinSystem.cleaned {sys sys' : TxSystem} (h : ThinSystem sys sys') {s : MVStore Stored}
    {horizon : Nat} (hle : horizon ≤ sys.store.oldestActiveVersion)
    (hc : Cleaned sys'.store.mvstore s horizon) : ThinSystem sys (sys'.withStore s) where
  orderly := h.orderly
  orderly' := by
    refine h.orderly'.withStore hc.allVersioned ?_
    rw [hc.version, hc.nextCommitVersion]
    exact h.orderly'.counter
  bound := h.bound
  bound' tx t w ht hw := hc.edited.find (h.bound' tx t w ht hw)
  listed := h.listed
  store :=
    { h.store with
      version := hc.version.trans h.store.version
      nextCommitVersion := hc.nextCommitVersion.trans h.store.nextCommitVersion
      thin := hc.allVersioned
      values := fun n k => (h.store.values n k).trans ((hc.values n k).mono hle) }
  transactions := h.transactions

theorem Effect.active {sys sys' : TxSystem} {call : Call} {e : Option Event}
    (he : Effect sys call sys' e) {tx sv : Nat}
    (htx : sys'.store.activeTransactions.lookup tx = some sv) :
    sys.store.activeTransactions.lookup tx = some sv ∨ sv = sys.store.mvstore.version := by
  have herase : ∀ {ended : Nat}, (sys.store.activeTransactions.erase ended).lookup tx = some sv →
      sys.store.activeTransactions.lookup tx = some sv := by
    intro ended h
    by_cases hne : tx = ended
    · rw [hne, AList.lookup_erase] at h
      cases h
    · rwa [AList.lookup_erase_ne hne] at h
  cases he with
  | idle => exact .inl htx
  | began _ =>
    change (sys.store.activeTransactions.insert _ _).lookup tx = some sv at htx
    by_cases hnew : tx = sys.store.nextTxId
    · rw [hnew, AList.lookup_insert] at htx
      exact .inr (Option.some.inj htx).symm
    · rw [AList.lookup_insert_ne hnew] at htx
      exact .inl htx
  | quiet _ _ hq _ => exact .inl (hq.active ▸ htx)
  | marked _ _ _ _ hm _ => exact .inl (hm.active ▸ htx)
  | rolledBack _ _ hr => exact .inl (herase (hr.active ▸ htx))
  | closed _ _ _ _ => exact .inl (herase htx)
  | committed _ _ _ _ => exact .inl (herase htx)

end TxSystem

namespace VacuumSystem

variable {v : VacuumSystem} {sys : TxSystem}

theorem Follows.oldest (h : v.Follows sys) :
    v.sys.store.oldestActiveVersion = sys.store.oldestActiveVersion := by
  rw [oldestActiveVersion, h.thin.store.active, h.thin.store.version]
  rfl

theorem Follows.past (h : v.Follows sys) : v.sys.store.Past := by
  intro tx sv htx
  rw [h.thin.store.version]
  exact h.thin.store.past tx sv (h.thin.store.active ▸ htx)

theorem Follows.call (h : v.Follows sys) (c : Call) :
    ((v.sys.step c).1 = (sys.step c).1) ∧ Follows { v with sys := (v.sys.step c).2 } (sys.step c).2 := by
  obtain ⟨hanswer, hthin⟩ := h.thin.step c
  have he := h.thin.orderly'.step_effect c
  have hmono := oldestActiveVersion_mono h.past (he.version_le h.thin.orderly')
    fun tx sv htx => he.active htx
  refine ⟨hanswer, hthin, fun job hjob => ⟨?_, fun map es hes => ?_⟩⟩
  · exact Nat.le_trans (h.jobs job hjob).horizon hmono
  · exact he.edited.find ((h.jobs job hjob).find map es hes)

variable {job : VacuumJob} {s : MVStore Stored}

theorem Follows.after (h : v.Follows sys) {j : Nat} {horizon : Nat}
    (hle : horizon ≤ v.sys.store.oldestActiveVersion) (hc : Cleaned v.sys.store.mvstore s horizon)
    (hjob : job.Sound { v.sys.store with mvstore := s }) :
    (v.after j (job, { v.sys.store with mvstore := s })).Follows sys := by
  refine ⟨h.thin.cleaned (h.oldest ▸ hle) hc, fun job' hjob' => ?_⟩
  rcases mem_or_eq_of_mem_set hjob' with hold | rfl
  · have hsound := h.jobs job' hold
    refine ⟨?_, fun map es hes => hc.edited.find (hsound.find map es hes)⟩
    change job'.horizonVersion ≤ ((_ : Option Nat).getD s.version)
    rw [hc.version]
    exact hsound.horizon
  · exact hjob

theorem Follows.start (h : v.Follows sys) (name : String) :
    Follows { v with jobs := v.jobs ++ [.start v.sys.store name] } sys := by
  refine ⟨h.thin, fun job hjob => ?_⟩
  rcases mem_append.mp hjob with hold | hnew
  · exact h.jobs job hold
  · rw [mem_singleton.mp hnew]
    exact ⟨Nat.le_refl _, fun map es hes => by cases hes⟩

theorem cleaned_openMap (hv : s.AllVersioned) (name : String) (horizon : Nat) :
    Cleaned s (s.openMap name).2 horizon := by
  have hmaps := onlyMaps_openMap s name
  have hread := read_openMap s name
  refine ⟨Edited.openMap s name, by rw [hmaps], by rw [hmaps], hv.congr hread, fun n k => ?_⟩
  rw [versioned_congr hread]
  exact Thin.refl _ _

theorem Follows.scan (h : v.Follows sys) {j : Nat} (hj : v.jobs[j]? = some job) :
    (v.after j (job.scan v.sys.store)).Follows sys := by
  have hsound := h.jobs job (mem_of_getElem? hj)
  have hv := h.thin.orderly'.versioned
  rcases job.scan_cases v.sys.store with heq | ⟨m, hm, heq⟩
  · rw [heq]
    exact h.after hsound.horizon (cleaned_refl hv _) hsound
  · rw [heq]
    refine h.after hsound.horizon (cleaned_openMap hv job.mapName _) ⟨?_, fun map es hes => ?_⟩
    · have hversion := (quiet_openMap v.sys.store job.mapName).version
      change job.horizonVersion ≤ (_ : Option Nat).getD (v.sys.store.openMap job.mapName).2.mvstore.version
      rw [hversion]
      exact hsound.horizon
    · cases hes
      exact find_openMap_self v.sys.store.mvstore job.mapName

theorem Follows.clean (h : v.Follows sys) {j : Nat} (hj : v.jobs[j]? = some job)
    (hcurrent : v.current (.clean j) = true) : (v.after j (job.clean v.sys.store)).Follows sys := by
  have hsound := h.jobs job (mem_of_getElem? hj)
  have hv := h.thin.orderly'.versioned
  rcases job.clean_cases v.sys.store with heq | ⟨map, e, es, count, hentries, heq⟩
  · rw [heq]
    exact h.after hsound.horizon (cleaned_refl hv _) hsound
  · rw [heq]
    have hfind := hsound.find map (e :: es) hentries
    have hkey := current_clean hcurrent hj hentries
    rw [mapGet, ← read_of_find hfind] at hkey
    have hc := cleaned_vacuumChange hv hfind hkey
    refine h.after hsound.horizon hc ⟨?_, fun map' es' hes => ?_⟩
    · change job.horizonVersion ≤ (_ : Option Nat).getD (MVStore.version _)
      rw [hc.version]
      exact hsound.horizon
    · cases hes
      exact hc.edited.find hfind

theorem Follows.step (h : v.Follows sys) {action : VacuumAction} (hcurrent : v.current action = true)
    (hother : ∀ c, action ≠ .call c) :
    (v.step action).1 = none ∧ (v.step action).2.Follows sys := by
  cases action with
  | call c => exact absurd rfl (hother c)
  | vacuumMap name => exact ⟨rfl, h.start name⟩
  | scan j =>
    simp only [VacuumSystem.step]
    cases hj : v.jobs[j]? with
    | none => exact ⟨rfl, h⟩
    | some job => exact ⟨rfl, h.scan hj⟩
  | clean j =>
    simp only [VacuumSystem.step]
    cases hj : v.jobs[j]? with
    | none => exact ⟨rfl, h⟩
    | some job => exact ⟨rfl, h.clean hj hcurrent⟩

theorem Follows.run (h : v.Follows sys) {actions : List VacuumAction}
    (hm : Meets next (fun v action => v.current action = true) v actions) :
    (v.run actions).1 = (sys.run (calls actions)).1 ∧
      (v.run actions).2.Follows (sys.run (calls actions)).2 := by
  induction actions generalizing v sys with
  | nil => exact ⟨rfl, h⟩
  | cons action actions ih =>
    obtain ⟨hcurrent, hrest⟩ := hm
    cases action with
    | call c =>
      obtain ⟨hanswer, hnext⟩ := h.call c
      obtain ⟨hanswers, hend⟩ := ih hnext hrest
      refine ⟨?_, hend⟩
      change (v.sys.step c).1 :: (run { v with sys := (v.sys.step c).2 } actions).1 =
        (sys.step c).1 :: ((sys.step c).2.run (calls actions)).1
      rw [hanswer, hanswers]
    | vacuumMap name =>
      obtain ⟨hnone, hnext⟩ := h.step hcurrent (fun c hc => by cases hc)
      exact ih hnext hrest
    | scan j =>
      obtain ⟨hnone, hnext⟩ := h.step hcurrent (fun c hc => by cases hc)
      obtain ⟨hanswers, hend⟩ := ih hnext hrest
      refine ⟨?_, hend⟩
      change (v.step (.scan j)).1.toList ++ ((v.step (.scan j)).2.run actions).1 = _
      rw [hnone]
      exact hanswers
    | clean j =>
      obtain ⟨hnone, hnext⟩ := h.step hcurrent (fun c hc => by cases hc)
      obtain ⟨hanswers, hend⟩ := ih hnext hrest
      refine ⟨?_, hend⟩
      change (v.step (.clean j)).1.toList ++ ((v.step (.clean j)).2.run actions).1 = _
      rw [hnone]
      exact hanswers

theorem follows_new (hv : s.AllVersioned) (hc : s.version ≤ s.nextCommitVersion) :
    (new s).Follows (.new s) where
  thin :=
    { orderly := TxSystem.orderly_new hv hc
      orderly' := TxSystem.orderly_new hv hc
      bound := fun _ _ _ ht => by cases ht
      bound' := fun _ _ _ ht => by cases ht
      listed := fun _ _ _ htx => by cases htx
      store := ⟨rfl, rfl, rfl, rfl, rfl, rfl, hv, hv, fun _ _ htx => (by cases htx),
        fun _ _ => Thin.refl _ _⟩
      transactions := fun _ => .none }
  jobs _ hjob := by cases hjob

/-- If every value a vacuum writes comes from the value that still stands under the key, the transactions
get the answers they would get without any vacuum, and every mark and every value that an open or
later transaction can see is as it would be. -/
theorem vacuum_loses_nothing (s : MVStore Stored) (hv : s.AllVersioned)
    (hc : s.version ≤ s.nextCommitVersion) (actions : List VacuumAction)
    (hm : Meets next (fun v action => v.current action = true) (new s) actions) :
    ((new s).run actions).1 = ((TxSystem.new s).run (calls actions)).1 ∧
    ∀ n k,
      (((new s).run actions).2.sys.store.mvstore.versioned n k).uncommitted =
        (((TxSystem.new s).run (calls actions)).2.store.mvstore.versioned n k).uncommitted ∧
      ∀ sv, ((new s).run actions).2.sys.store.oldestActiveVersion ≤ sv →
        (((new s).run actions).2.sys.store.mvstore.versioned n k).readCommitted sv =
          (((TxSystem.new s).run (calls actions)).2.store.mvstore.versioned n k).readCommitted sv := by
  obtain ⟨hanswers, hend⟩ := (follows_new hv hc).run hm
  refine ⟨hanswers, fun n k => ?_⟩
  have hvalue := hend.thin.store.values n k
  refine ⟨hvalue.mark, fun sv hsv => hvalue.read sv ?_⟩
  rw [← hend.oldest]
  exact hsv

def deletedKeyActions : List VacuumAction :=
  [.call .begin, .call (.put 1 "a" [1] [10] none), .call (.commit 1 (.ok ())), .call .begin,
    .call (.remove 2 "a" [1] none), .call (.commit 2 (.ok ())), .vacuumMap "a", .scan 0, .clean 0]

theorem vacuum_loses_nothing_sample :
    ((new MVStore.new).run deletedKeyActions).1 =
        ((TxSystem.new MVStore.new).run (calls deletedKeyActions)).1 ∧
    ∀ n k,
      (((new MVStore.new).run deletedKeyActions).2.sys.store.mvstore.versioned n k).uncommitted =
        (((TxSystem.new MVStore.new).run (calls deletedKeyActions)).2.store.mvstore.versioned n
          k).uncommitted ∧
      ∀ sv, ((new MVStore.new).run deletedKeyActions).2.sys.store.oldestActiveVersion ≤ sv →
        (((new MVStore.new).run deletedKeyActions).2.sys.store.mvstore.versioned n k).readCommitted sv =
          (((TxSystem.new MVStore.new).run (calls deletedKeyActions)).2.store.mvstore.versioned n
            k).readCommitted sv :=
  vacuum_loses_nothing MVStore.new MVStore.atRest_new.versioned (Nat.le_refl 0) deletedKeyActions
    ⟨rfl, rfl, rfl, rfl, rfl, rfl, rfl, rfl, by decide +kernel, trivial⟩

/-- A deleted key is scanned, and before the vacuum gets to it a transaction puts it and commits. -/
def overtakenActions : List VacuumAction :=
  [.call .begin, .call (.put 1 "a" [1] [10] none), .call (.commit 1 (.ok ())), .call .begin,
    .call (.remove 2 "a" [1] none), .call (.commit 2 (.ok ())), .vacuumMap "a", .scan 0,
    .call .begin, .call (.put 3 "a" [1] [20] none), .call (.commit 3 (.ok ())), .clean 0,
    .call .begin, .call (.get 4 "a" [1])]

/-- The committed value is gone; without the vacuum it is read. -/
theorem vacuum_drops_newer_commit :
    ((new MVStore.new).run overtakenActions).1 ≠
        ((TxSystem.new MVStore.new).run (calls overtakenActions)).1 ∧
    ((new MVStore.new).run overtakenActions).1.getLast? = some (.read (.ok none)) ∧
    ((TxSystem.new MVStore.new).run (calls overtakenActions)).1.getLast? =
      some (.read (.ok (some [20]))) ∧
    ((new MVStore.new).run overtakenActions).2.sys.store.mvstore.read "a" [1] = none := by
  decide +kernel

end VacuumSystem

end H2Database.Mvstore
