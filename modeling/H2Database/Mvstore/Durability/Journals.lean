import H2Database.Mvstore.Durability.Runs

/-!
# Journals and the changes since the last image

Once there is a checkpoint, what a later one writes is the image before it and the journals.  As long
as every map is journaled nothing is lost on the way.
-/

namespace H2Database.Mvstore.MVStore

open Reasoning

variable {V : Type}

def StoreOp.keepsNames : StoreOp → Bool
  | .renameMap _ _ | .removeMap _ => false
  | _ => true

def NamesKept (t : Traced) : Prop :=
  t.store.hasCheckpoint = true →
    ∀ n id, t.atImage.maps.find n = some id → t.store.maps.find n = some id

theorem find_step {s : MVStore Stored} {op : StoreOp} (hop : op.keepsNames = true)
    (hkeeps : op.keepsFile = true) {n : String} {id : Nat} (h : s.maps.find n = some id) :
    (s.step op).maps.find n = some id := by
  cases op with
  | openMap name => exact find_openMap h
  | put handle key value => exact h
  | remove handle key => exact h
  | clear handle => exact h
  | clearMap name =>
    simp only [step, clearMap]
    split
    · exact h
    · exact h
  | renameMap oldName newName => cases hop
  | removeMap name => cases hop
  -- a commit opens maps by name, which drops and moves no name
  | commit txId changes sync =>
    simp only [step, commitWith, commitRecord]
    cases sync with
    | error e => exact h
    | ok _ => exact find_applyWalChanges h
  | checkpoint publish => cases hkeeps
  | reclaim publish => cases hkeeps
  | compact publish => cases hkeeps
  | reopen => cases hkeeps

theorem namesKept_step {t : Traced} {img : Contents Stored} {op : StoreOp}
    (hj : Journaled t.store t.atImage img) (h : NamesKept t) (hop : op.keepsNames = true) :
    NamesKept (t.step op) := by
  by_cases hkeeps : op.keepsFile = true
  · intro hcp n id hn
    have hdata := dataStep_step t.store hkeeps
    rw [(t.step_of_keepsFile hkeeps img).1] at hn
    exact find_step hop hkeeps (h (hdata.hasCheckpoint ▸ hcp) n id hn)
  cases op with
  | checkpoint publish =>
    cases publish with
    | error e => exact h
    -- a new image begins with the names of the store
    | ok _ => exact fun _ _ _ hn => hn
  | reclaim publish =>
    cases publish with
    | error e => exact h
    | ok _ => exact fun _ _ _ hn => hn
  | compact publish =>
    cases publish with
    | error e => exact h
    | ok _ => exact fun _ _ _ hn => hn
  | reopen =>
    obtain ⟨s₀, hopen₀, _, _, _⟩ := openAt_nil hj.holds
    obtain ⟨s, hopen, _, _, hmaps⟩ := openAt_wal hopen₀ t.store.wal
    intro _ n id hn
    simp only [Traced.step, MVStore.step, hopen₀, hopen, Except.toOption, Option.getD_some]
      at hn ⊢
    rw [hmaps]
    exact find_replayWal hn
  | openMap | put | remove | clear | clearMap | renameMap | removeMap | commit =>
    exact absurd rfl hkeeps

/-- What a checkpoint writes for one key: its binding in the store, or, if that has not changed since
the last image, what the image has. -/
theorem binding_nextImage {t : Traced} {img : Contents Stored}
    (hj : Journaled t.store t.atImage img) (hn : NamesKept t) (n : String) (k : Key) :
    binding (t.store.nextImage img) n k = binding (contents t.store.maps) n k ∨
      (binding (contents t.store.maps) n k = binding (contents t.atImage.maps) n k ∧
        binding (t.store.nextImage img) n k = binding img n k) := by
  cases hm : t.store.maps.get n with
  | none =>
    left
    exact (nextRead_of_get_none hm img k).trans (read_of_find_none (Registry.get_eq_none.mp hm) k).symm
  | some m =>
    cases hroot : t.store.needsRoot n with
    | true => exact .inl (nextRead_of_needsRoot hroot img k)
    | false =>
      -- the name was in the last image, and still stands for the object it stood for there
      have hcp := (needsRoot_eq_false.mp hroot).1
      obtain ⟨f, hf⟩ := hj.known.image hroot
      have hsome : (img n).isSome = true := by rw [hf]; rfl
      obtain ⟨id, hid⟩ := Option.isSome_iff_exists.mp ((hj.own hcp n).mp hsome)
      obtain ⟨m₀, hm₀⟩ := Registry.deref_of_find hid
      have hbase : contents t.atImage.maps n = some m₀.get := by
        rw [contents, Registry.get_of_find hid, hm₀]
        rfl
      have hfind := hn hcp n id hid
      have htracks : m.Tracks m₀.get := hj.tracks hcp n id m m₀.get hid hbase ⟨n, hfind⟩
        ((Registry.get_of_find hfind).symm.trans hm)
      have hkey : binding (contents t.atImage.maps) n k = m₀.get k := by
        rw [binding, hbase]
        rfl
      rw [hkey]
      exact nextRead_of_tracks hj.known hm htracks k

theorem openAt_checkpoint {s atImage : MVStore V} {img : Contents V}
    (h : Journaled s atImage img) :
    ∃ s', openAt (s.checkpoint .done).2.file (s.checkpoint .done).2.wal = .ok s' ∧
      contents s'.maps = s.nextImage img := by
  obtain ⟨s', hopen, _, hcont, _⟩ := openAt_nil h.published.holds
  exact ⟨s', hopen, hcont⟩

theorem allEnabled_iff (s : MVStore V) :
    s.AllEnabled ↔ ∀ p ∈ s.maps.named, p.2.journal.enabled = true :=
  ⟨fun h p hp => h p.1 p.2 (Registry.mem_named.mp hp),
    fun h n m hm => h (n, m) (Registry.mem_named.mpr hm)⟩

instance (s : MVStore V) : Decidable s.AllEnabled := decidable_of_iff' _ s.allEnabled_iff

/-- In every run in which `compact` and `reclaim_checkpoint_history` find all journals on, the journals
are on whenever there is a checkpoint, and the next checkpoint loses no change made since the last
image: a binding that it does not write as it is now has not changed since then. -/
theorem journals_on (ops : List StoreOp) (hnames : ∀ op ∈ ops, op.keepsNames = true)
    (hm : Meets Traced.step Traced.JournalsOn Traced.init ops) :
    let t := runs Traced.step Traced.init ops
    (t.store.hasCheckpoint = true → t.store.AllEnabled) ∧
      ∃ image reopened, openAt t.store.file [] = .ok image ∧
        openAt (t.store.checkpoint .done).2.file (t.store.checkpoint .done).2.wal = .ok reopened ∧
        ∀ n k, binding (contents reopened.maps) n k = binding (contents t.store.maps) n k ∨
          (binding (contents t.store.maps) n k = binding (contents t.atImage.maps) n k ∧
            binding (contents reopened.maps) n k = binding (contents image.maps) n k) := by
  intro t
  have hstep : ∀ (t : Traced) (op : StoreOp),
      ((∃ img, Journaled t.store t.atImage img) ∧ NamesKept t) →
      (op.keepsNames = true ∧ t.JournalsOn op) →
      (∃ img, Journaled (t.step op).store (t.step op).atImage img) ∧ NamesKept (t.step op) := by
    rintro t op ⟨⟨img, hj⟩, hn⟩ ⟨hkeeps, hop⟩
    exact ⟨⟨_, journaled_step hj hop⟩, namesKept_step hj hn hkeeps⟩
  -- the invariant is carried over the run; nothing else is said about the steps
  obtain ⟨⟨img, hj⟩, hn⟩ := invariant_runs hstep
    ⟨⟨_, journaled_init⟩, fun h => by cases h⟩ (hm.and_mem hnames)
  obtain ⟨image, himage, _, hcont, _⟩ := openAt_nil hj.holds
  obtain ⟨reopened, hreopened, hcont'⟩ := openAt_checkpoint hj
  refine ⟨hj.enabled, image, reopened, himage, hreopened, fun n k => ?_⟩
  rw [hcont, hcont']
  exact binding_nextImage hj hn n k

/-- A checkpoint, a compaction with the journals on, and a commit. -/
theorem journals_on_sample :
    let value : Stored := .versioned (.newCommitted [7] 2)
    let t := runs Traced.step Traced.init [.openMap "t", .checkpoint (.ok ()), .compact (.ok ()),
      .commit 1 [⟨"t", [1], some value⟩] (.ok ())]
    t.store.hasCheckpoint = true ∧ t.store.AllEnabled ∧
      binding (contents t.store.maps) "t" [1] = some value := by
  intro value t
  have h := journals_on [.openMap "t", .checkpoint (.ok ()), .compact (.ok ()),
    .commit 1 [⟨"t", [1], some value⟩] (.ok ())] (by decide)
    ⟨trivial, trivial, by change AllEnabled _; decide +kernel, trivial, trivial⟩
  have hcp : t.store.hasCheckpoint = true := by decide +kernel
  exact ⟨hcp, h.1 hcp, by decide +kernel⟩

/-- `compact` as the first persistent operation leaves the open map without a journal, and the next
checkpoint, which cuts the log, loses the commit in between. -/
theorem compact_first_loses_commit :
    let value : Stored := .versioned (.newCommitted [7] 1)
    let t := runs Traced.step Traced.init
      [.openMap "t", .compact (.ok ()), .commit 1 [⟨"t", [1], some value⟩] (.ok ())]
    t.store.hasCheckpoint = true ∧
      (t.store.maps.get "t").map (fun m => m.journal.enabled) = some false ∧
      binding (contents t.store.maps) "t" [1] = some value ∧
      (openAt (t.store.checkpoint .done).2.file (t.store.checkpoint .done).2.wal).toOption.map
        (fun s => binding (contents s.maps) "t" [1]) = some none := by
  decide +kernel

end H2Database.Mvstore.MVStore
