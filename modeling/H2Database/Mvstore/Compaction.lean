import H2Database.Mvstore.Checkpoint

/-!
# What a compaction keeps (`MVStore::compact` in `h2-mvstore/src/store.rs`)

`compact` rewrites every value whose bytes decode as a versioned value, also where a map was given plain
bytes; decoding lets trailing bytes be.  `Kept` says which stored values read the same after the file has
been compacted and opened again.
-/

namespace H2Database.Mvstore

open Reasoning List

namespace Stored

def visible (stored : Stored) (version : Nat) : Option (List UInt8) :=
  match stored.fromBytes with
  | .ok vv => vv.readCommitted version
  | .error _ => none

/-- What a compaction owes one key: of a versioned value the value visible at `version`, and
nothing where there is none; of plain bytes the same bytes. -/
def Preserved (version : Nat) (stored : Stored) (after : Option Stored) : Prop :=
  match stored with
  | .versioned vv => (after.bind fun stored' => stored'.visible version) = vv.readCommitted version ∧
      (after = none ↔ vv.readCommitted version = none)
  | .raw bs => after.map Stored.bytes = some bs

/-- A versioned value has no uncommitted change of the reader `u64::MAX`, or one that says what is visible;
plain bytes do not decode, or they are the image of one value committed at `version`. -/
def Kept (version : Nat) (stored : Stored) : Prop :=
  match stored with
  | .versioned vv => ∀ u ∈ vv.uncommitted, u.txId = 2 ^ 64 - 1 → u.value = vv.readCommitted version
  | .raw bs => (∃ e, VersionedValue.fromBytes bs = .error e) ∨
      ∃ value, bs = (VersionedValue.newCommitted value version).toBytes

def InRange : Stored → Prop
  | .versioned vv => vv.InRange
  | .raw bs => bs.length < 2 ^ 63

end Stored

namespace MVStore

/-! ## The clean tree -/

variable {version : Nat}

variable {es : List (Entry Key Stored)}

theorem get_compactEntries_of_not_mem {k : Key} (h : k ∉ es.map Entry.key)
    (clean : Root Stored) : (es.foldl (fun clean e =>
      match compactValue version e.value with
      | some value => clean.put e.key value
      | none => clean) clean).get k = clean.get k := by
  induction es generalizing clean with
  | nil => rfl
  | cons e es ih =>
    rw [map_cons, mem_cons, not_or] at h
    rw [foldl_cons, ih h.2]
    cases compactValue version e.value with
    | none => rfl
    | some value => rw [MVTree.get_put, if_neg h.1]

theorem get_compactEntries_of_mem (hnd : (es.map Entry.key).Nodup)
    {e : Entry Key Stored} (he : e ∈ es) {clean : Root Stored} (hfree : clean.get e.key = none) :
    (es.foldl (fun clean e =>
      match compactValue version e.value with
      | some value => clean.put e.key value
      | none => clean) clean).get e.key = compactValue version e.value := by
  induction es generalizing clean with
  | nil => cases he
  | cons d es ih =>
    rw [map_cons, nodup_cons] at hnd
    rw [foldl_cons]
    rcases mem_cons.mp he with heq | hrest
    · rw [← heq] at hnd
      rw [← heq, get_compactEntries_of_not_mem hnd.1]
      cases compactValue version e.value with
      | none => exact hfree
      | some value => rw [MVTree.get_put, if_pos rfl]
    · have hne : e.key ≠ d.key := fun h => hnd.1 (h ▸ mem_map_of_mem hrest)
      apply ih hnd.2 hrest
      cases compactValue version d.value with
      | none => exact hfree
      | some value => rw [MVTree.get_put, if_neg hne, hfree]

theorem get_compactTree (tree : Root Stored) (k : Key) :
    (compactTree version tree).get k = (tree.get k).bind (compactValue version) := by
  have hnd : (tree.scanAll.map Entry.key).Nodup := tree.sorted_scanAll.imp fun h => h.ne
  unfold compactTree
  cases hget : tree.get k with
  | none =>
    have hnot : k ∉ tree.scanAll.map Entry.key := by
      intro hmem
      obtain ⟨e, he, hkey⟩ := mem_map.mp hmem
      have hsome := (MVTree.mem_scanAll tree e.key e.value).mp he
      rw [hkey, hget] at hsome
      cases hsome
    exact (get_compactEntries_of_not_mem hnot .empty).trans (MVTree.get_empty k)
  | some stored =>
    exact get_compactEntries_of_mem hnd ((MVTree.mem_scanAll tree k stored).mpr hget) (MVTree.get_empty k)

theorem readCommitted_newCommitted (value : List UInt8) :
    (VersionedValue.newCommitted value version).readCommitted version = some value := by
  simp [VersionedValue.newCommitted, VersionedValue.readCommitted, VersionedValue.visibleRecord]

variable {stored : Stored}

theorem visible_compactValue {vv : VersionedValue} (hvv : stored.fromBytes = .ok vv) :
    ((compactValue version stored).bind fun stored' => stored'.visible version) =
      vv.readVisible (2 ^ 64 - 1) version := by
  rw [compactValue, hvv]
  dsimp only
  cases vv.readVisible (2 ^ 64 - 1) version with
  | none => rfl
  | some value => exact readCommitted_newCommitted value

theorem compactValue_eq_none {vv : VersionedValue} (hvv : stored.fromBytes = .ok vv) :
    compactValue version stored = none ↔ vv.readVisible (2 ^ 64 - 1) version = none := by
  rw [compactValue, hvv]
  simp

theorem readVisible_max_iff (vv : VersionedValue) :
    vv.readVisible (2 ^ 64 - 1) version = vv.readCommitted version ↔
    ∀ u ∈ vv.uncommitted, u.txId = 2 ^ 64 - 1 → u.value = vv.readCommitted version := by
  unfold VersionedValue.readVisible
  cases hu : vv.uncommitted with
  | none => simp
  | some u =>
    simp only [Option.mem_some_iff, forall_eq']
    split_ifs with hmax
    · exact ⟨fun h _ => h, fun h => h hmax⟩
    · exact ⟨fun _ h => absurd h hmax, fun _ => rfl⟩

theorem fromBytes_newCommitted {value bs : List UInt8} (hversion : version < 2 ^ 64)
    (hlen : bs.length < 2 ^ 63)
    (hbs : bs = (VersionedValue.newCommitted value version).toBytes) :
    VersionedValue.fromBytes bs = .ok (VersionedValue.newCommitted value version) := by
  have hvalue : value.length < 2 ^ 63 := by
    have himage : bs = (0 :: leBytes 8 1) ++
        ((1 :: leBytes 8 value.length) ++ (value ++ leBytes 8 version)) :=
      hbs.trans (VersionedValue.toBytes_single value version)
    have hle : value.length ≤ bs.length := by
      rw [himage]
      simp only [length_append]
      omega
    omega
  rw [hbs]
  apply VersionedValue.fromBytes_toBytes
  constructor
  · simp [VersionedValue.newCommitted]
  · simp [VersionedValue.newCommitted]
  · simp [VersionedValue.newCommitted]
  · simpa [VersionedValue.newCommitted] using hversion
  · simpa [VersionedValue.newCommitted] using hvalue

theorem preserved_iff_kept (hversion : version < 2 ^ 64) (hrange : stored.InRange) :
    Stored.Preserved version stored (compactValue version stored) ↔ stored.Kept version := by
  cases stored with
  | versioned vv =>
    have hvisible := @visible_compactValue version (.versioned vv) vv rfl
    have hnone := @compactValue_eq_none version (.versioned vv) vv rfl
    simp only [Stored.Preserved, Stored.Kept]
    rw [hvisible, hnone, ← readVisible_max_iff]
    constructor
    · intro h
      exact h.1
    · intro h
      rw [h]
      exact ⟨rfl, Iff.rfl⟩
  | raw bs =>
    simp only [Stored.Preserved, Stored.Kept]
    cases hbytes : VersionedValue.fromBytes bs with
    | error e => simp [compactValue, Stored.fromBytes, hbytes, Stored.bytes]
    | ok vv =>
      simp only [compactValue, Stored.fromBytes, hbytes, reduceCtorEq, exists_false, false_or, Option.map_map,
        Option.map_eq_some_iff]
      constructor
      · intro h
        obtain ⟨value, _, himage⟩ := h
        exact ⟨value, himage.symm⟩
      · intro h
        obtain ⟨value, himage⟩ := h
        have hdecode := fromBytes_newCommitted hversion hrange himage
        rw [hbytes] at hdecode
        cases hdecode
        exact ⟨value, readCommitted_newCommitted value, himage.symm⟩

/-! ## Compacting and opening again -/

/-- Compacting and opening the file again preserves every key of every map. -/
def CompactPreserves (s : MVStore Stored) : Prop :=
  ∃ reopened, openAt (s.compact .done).2.file (s.compact .done).2.wal = .ok reopened ∧
    ∀ n m, s.maps.get n = some m → ∃ m', reopened.maps.get n = some m' ∧
      ∀ k stored, m.get k = some stored → stored.Preserved s.version (m'.get k)

/-- The sizes of the source's types, in the version and in every value. -/
def InRange (s : MVStore Stored) : Prop :=
  s.version < 2 ^ 64 ∧ ∀ n m, s.maps.get n = some m → ∀ k stored, m.get k = some stored → stored.InRange

theorem openAt_compact (s : MVStore Stored) : ∃ reopened,
    openAt (s.compact .done).2.file (s.compact .done).2.wal = .ok reopened ∧
      contents reopened.maps = s.compacted := by
  have hrec : recorded (.new 1 s.version (catalogOf (s.maps.named.map fun p =>
      (p.1, compactTree s.version p.2.tree)))) = s.compacted :=
    funext (recorded_catalogOf (fun _ m => compactTree s.version m.tree) 1 s.version)
  obtain ⟨maps, hreplay, hcontents⟩ := holds_compactAndRewrite (.new 1 s.version (catalogOf
    (s.maps.named.map fun p => (p.1, compactTree s.version p.2.tree))))
  have hopen : openAt (s.compact .done).2.file (s.compact .done).2.wal =
      openAt (.compactAndRewrite (.new 1 s.version (catalogOf (s.maps.named.map fun p =>
        (p.1, compactTree s.version p.2.tree))))) [] := rfl
  rw [hopen, openAt, hreplay]
  refine ⟨_, rfl, ?_⟩
  have hjournaled : contents (maps.mapNamed fun _ m => m.setJournaling true) = contents maps :=
    contents_mapNamed fun _ _ => rfl
  exact hjournaled.trans (hcontents.trans hrec)

theorem get_reopened {s reopened : MVStore Stored} (hcontents : contents reopened.maps = s.compacted)
    {n : String}
    {m : MVMap Stored} (hm : s.maps.get n = some m) : ∃ m', reopened.maps.get n = some m' ∧
      ∀ k, m'.get k = (m.get k).bind (compactValue s.version) := by
  have hn : contents reopened.maps n = some (compactTree s.version m.tree).get := by
    rw [hcontents, compacted, hm]
    rfl
  obtain ⟨m', hm', hget⟩ := contents_eq_some.mp hn
  refine ⟨m', hm', fun k => ?_⟩
  rw [hget, get_compactTree]
  rfl

/-- Every value of the store is one that `compact` keeps. -/
def AllKept (s : MVStore Stored) : Prop :=
  ∀ n m, s.maps.get n = some m → ∀ k stored, m.get k = some stored → stored.Kept s.version

variable {s : MVStore Stored} (hs : s.InRange)

include hs

theorem allKept_of_compactPreserves (hpreserves : s.CompactPreserves) : s.AllKept := by
  intro n m hm k stored hk
  obtain ⟨reopened, hopen, hcontents⟩ := openAt_compact s
  obtain ⟨reopened', hopen', hall⟩ := hpreserves
  rw [hopen] at hopen'
  cases hopen'
  obtain ⟨m', hm', hget⟩ := get_reopened hcontents hm
  obtain ⟨m'', hm'', hkept⟩ := hall n m hm
  rw [hm'] at hm''
  cases hm''
  have hpreserved := hkept k stored hk
  rw [hget, hk] at hpreserved
  exact (preserved_iff_kept hs.1 (hs.2 n m hm k stored hk)).mp hpreserved

theorem compactPreserves_of_allKept (hkept : s.AllKept) : s.CompactPreserves := by
  obtain ⟨reopened, hopen, hcontents⟩ := openAt_compact s
  refine ⟨reopened, hopen, fun n m hm => ?_⟩
  obtain ⟨m', hm', hget⟩ := get_reopened hcontents hm
  refine ⟨m', hm', fun k stored hk => ?_⟩
  rw [hget, hk]
  exact (preserved_iff_kept hs.1 (hs.2 n m hm k stored hk)).mpr (hkept n m hm k stored hk)

theorem compact_preserves_iff : s.CompactPreserves ↔ s.AllKept :=
  ⟨allKept_of_compactPreserves hs, compactPreserves_of_allKept hs⟩

omit hs

/-! ## A map of one key -/

def single (stored : Stored) : MVStore Stored :=
  (MVStore.new.openMap "m").2.update 0 fun m => m.put [1] stored

theorem get_single (stored : Stored) :
    (single stored).maps.get "m" = some ((MVMap.new .empty).put [1] stored) :=
  rfl

theorem get_single_eq {stored stored' : Stored} {n : String} {m : MVMap Stored} {k : Key}
    (hm : (single stored).maps.get n = some m) (hk : m.get k = some stored') : stored' = stored := by
  by_cases hn : n = "m"
  · rw [hn, get_single] at hm
    cases hm
    rw [MVMap.put_get, Function.update_apply] at hk
    split_ifs at hk
    · exact (Option.some.inj hk).symm
    · have hempty : (MVMap.new (.empty : Root Stored)).get k = none := MVTree.get_empty k
      rw [hempty] at hk
      cases hk
  · have hfind : (MVStore.new.openMap "m" : Nat × MVStore Stored).2.maps.find "m" = some 0 := rfl
    have hget : (single stored).maps.get n = none := by
      rw [single, update, Registry.get_modify hfind, if_neg hn]
      exact (Registry.get_create _ _ _ n).trans (if_neg hn)
    rw [hget] at hm
    cases hm

theorem inRange_single (h : stored.InRange) : (single stored).InRange := by
  constructor
  · exact (by decide : 0 < 2 ^ 64)
  · intro n m hm k stored' hk
    rw [get_single_eq hm hk]
    exact h

/-- A deleted value that one transaction is writing again reads as before. -/
theorem compact_preserves_deleted :
    (single (.versioned ⟨some ⟨7, some [1]⟩, [⟨none, 0⟩]⟩)).CompactPreserves := by
  have hrange : (single (.versioned ⟨some ⟨7, some [1]⟩, [⟨none, 0⟩]⟩)).InRange :=
    inRange_single ⟨by simp, by simp, by decide, by simp, by simp⟩
  apply (compact_preserves_iff hrange).mpr
  intro n m hm k stored hk
  rw [get_single_eq hm hk]
  simp [Stored.Kept]

/-- Nine zero bytes decode as a value without any record: the key is gone. -/
theorem compact_loses_zeros : ¬(single (.raw (List.replicate 9 0))).CompactPreserves := by
  have hrange : (single (.raw (List.replicate 9 0))).InRange := inRange_single (by decide : 9 < 2 ^ 63)
  intro hpreserves
  have hkept := allKept_of_compactPreserves hrange hpreserves "m" _ rfl [1] (.raw (List.replicate 9 0)) rfl
  rcases hkept with herror | himage
  · obtain ⟨e, he⟩ := herror
    have hdecodes : VersionedValue.fromBytes (List.replicate 9 0) = .ok ⟨none, []⟩ := rfl
    rw [hdecodes] at he
    cases he
  · obtain ⟨value, hbytes⟩ := himage
    have hlen := congrArg List.length hbytes
    have himage : (VersionedValue.newCommitted value 0).toBytes =
        (0 :: leBytes 8 1) ++ ((1 :: leBytes 8 value.length) ++ (value ++ leBytes 8 0)) :=
      VersionedValue.toBytes_single value 0
    have hversion : (single (.raw (List.replicate 9 0))).version = 0 := rfl
    rw [hversion, himage] at hlen
    simp only [length_append, length_cons, length_leBytes, length_replicate] at hlen
    omega

end MVStore

end H2Database.Mvstore
