import H2Database.Mvstore.Store

/-!
# What a database file holds

`contents` is the abstract state of a store: the bindings of every named map.  `FileImage.Holds` says
what opening a file gives, and `published_holds` what the record of a checkpoint adds to it.
-/

namespace H2Database.Mvstore

open Reasoning List Function

variable {V : Type}

/-- The bindings of every named map; `none` where there is no map. -/
abbrev Contents (V : Type) := String → Option (Key → Option V)

def binding (c : Contents V) (n : String) (k : Key) : Option V := (c n).bind fun f => f k

namespace MVStore

def contents (maps : Maps V) : Contents V := fun n => (maps.get n).map MVMap.get

variable {maps : Maps V} {n : String} {d : MapDelta (Root V) V} {s : MVStore V} {img : Contents V}

theorem contents_eq_some {f : Key → Option V} :
    contents maps n = some f ↔ ∃ m, maps.get n = some m ∧ m.get = f := by
  simp only [contents, Option.map_eq_some_iff]

theorem contents_create (maps : Maps V) (n : String) (m : MVMap V) :
    contents (maps.create n m) = Function.update (contents maps) n (some m.get) := by
  funext n'
  unfold contents
  rw [Registry.get_create, update_apply]
  split <;> rfl

theorem contents_modify {id : Nat} (h : maps.find n = some id) (f : MVMap V → MVMap V) :
    contents (maps.modify id f) =
      Function.update (contents maps) n ((maps.get n).map fun m => (f m).get) := by
  funext n'
  unfold contents
  rw [Registry.get_modify h, update_apply]
  split
  · rename_i heq
    rw [heq, Option.map_map]
    rfl
  · rfl

theorem contents_remove (maps : Maps V) (n : String) :
    contents (maps.remove n) = Function.update (contents maps) n none := by
  funext n'
  unfold contents
  rw [Registry.get_remove, update_apply]
  split <;> rfl

theorem contents_mapNamed {f : String → MVMap V → MVMap V} (h : ∀ n m, (f n m).get = m.get) :
    contents (maps.mapNamed f) = contents maps := by
  funext n
  unfold contents
  rw [Registry.get_mapNamed, Option.map_map]
  cases maps.get n with
  | none => rfl
  | some m => exact congrArg some (h n m)

/-! ## Replaying deltas -/

theorem applyChange_get (m : MVMap V) (k : Key) (c : Option V) :
    (applyChange m k c).get = Function.update m.get k c := by
  cases c with
  | none => exact m.remove_get k
  | some v => exact m.put_get k v

theorem applyChanges_get (changes : List (Key × Option V)) (m : MVMap V) :
    (changes.foldl (fun m c => applyChange m c.1 c.2) m).get = Patch.replay changes m.get := by
  induction changes generalizing m with
  | nil => rfl
  | cons c changes ih =>
    rw [foldl_cons, ih, applyChange_get]
    rfl

def patched (d : MapDelta (Root V) V) (f : Key → Option V) : Key → Option V :=
  Patch.replay d.changes (if d.clear then fun _ => none else f)

theorem applyMapDelta_get (m : MVMap V) (d : MapDelta (Root V) V) :
    (applyMapDelta m d).get = patched d m.get := by
  rw [applyMapDelta, applyChanges_get, patched]
  split
  · rw [MVMap.clear_get]
  · rfl

def replayed (c : Contents V) (d : MapDelta (Root V) V) : Option (Key → Option V) :=
  match d.replaceRoot with
  | some root => some (patched d root.get)
  | none => (c d.name).map (patched d)

theorem replayMapDelta_ok (h : d.replaceRoot.isSome ∨ (contents maps d.name).isSome) :
    ∃ maps', replayMapDelta maps d = .ok maps' ∧
      contents maps' = Function.update (contents maps) d.name (replayed (contents maps) d) := by
  unfold replayMapDelta replayed
  cases hroot : d.replaceRoot with
  | some root =>
    refine ⟨_, rfl, ?_⟩
    rw [contents_create, applyMapDelta_get]
    rfl
  | none =>
    rw [hroot] at h
    -- without a root the delta is a difference to a map that must be there
    have hsome : (contents maps d.name).isSome := h.resolve_left (by simp)
    cases hid : maps.find d.name with
    | none =>
      rw [contents, Registry.get_eq_none.mpr hid] at hsome
      cases hsome
    | some id =>
      refine ⟨_, rfl, ?_⟩
      rw [contents_modify hid]
      simp only [applyMapDelta_get, contents, Option.map_map]
      rfl

theorem foldlM_replayMapDelta {ds : List (MapDelta (Root V) V)}
    (hnd : (ds.map MapDelta.name).Nodup) (maps : Maps V)
    (h : ∀ d ∈ ds, d.replaceRoot.isSome ∨ (contents maps d.name).isSome) :
    ∃ maps', ds.foldlM replayMapDelta maps = .ok maps' ∧
      (∀ d ∈ ds, contents maps' d.name = replayed (contents maps) d) ∧
      ∀ n, n ∉ ds.map MapDelta.name → contents maps' n = contents maps n := by
  induction ds generalizing maps with
  | nil => exact ⟨maps, rfl, fun d hd => absurd hd not_mem_nil, fun _ _ => rfl⟩
  | cons d ds ih =>
    rw [map_cons, nodup_cons] at hnd
    obtain ⟨maps₁, hstep, hcont⟩ := replayMapDelta_ok (h d mem_cons_self)
    have hne : ∀ e ∈ ds, e.name ≠ d.name := fun e he heq =>
      hnd.1 (heq ▸ mem_map_of_mem he)
    -- the deltas of one record name distinct maps, so each sees its map as it was before the record
    have hother : ∀ e ∈ ds, contents maps₁ e.name = contents maps e.name := fun e he => by
      rw [hcont, update_of_ne (hne e he)]
    obtain ⟨maps', hrun, hin, hout⟩ := ih hnd.2 maps₁ (fun e he => by
      rw [hother e he]
      exact h e (mem_cons_of_mem _ he))
    refine ⟨maps', ?_, fun e he => ?_, fun n hn => ?_⟩
    · rw [foldlM_cons, hstep]
      exact hrun
    · rcases mem_cons.mp he with rfl | he
      · rw [hout _ hnd.1, hcont, update_self]
      · rw [hin e he]
        unfold replayed
        rw [hother e he]
    · rw [map_cons, mem_cons, not_or] at hn
      rw [hout n hn.2, hcont, update_of_ne hn.1]

theorem contents_foldl_remove (names : List String) (maps : Maps V) (n : String) :
    contents (names.foldl Registry.remove maps) n =
      if n ∈ names then none else contents maps n := by
  induction names generalizing maps with
  | nil => rfl
  | cons m names ih =>
    rw [foldl_cons, ih, contents_remove, update_apply]
    by_cases hm : n = m <;> by_cases hn : n ∈ names <;> simp [hm, hn]

/-! ## Full records -/

theorem get_catalogOf {roots : List (String × Root V)} (hnd : (roots.map Prod.fst).Nodup)
    (n : String) (root : Root V) : (catalogOf roots).get n = some root ↔ (n, root) ∈ roots := by
  suffices h : ∀ (t : Catalog V), (roots.foldl (fun t p => t.put p.1 p.2) t).get n = some root ↔
      (n, root) ∈ roots ∨ (n ∉ roots.map Prod.fst ∧ t.get n = some root) by
    rw [catalogOf, h .empty, MVTree.get_empty]
    simp
  induction roots with
  | nil => simp
  | cons p roots ih =>
    intro t
    rw [map_cons, nodup_cons] at hnd
    rw [foldl_cons, ih hnd.2, MVTree.get_put]
    obtain ⟨m, r⟩ := p
    by_cases hm : n = m
    · subst hm
      have hnot : (n, root) ∉ roots := fun hin =>
        hnd.1 (mem_map.mpr ⟨(n, root), hin, rfl⟩)
      simp only [hnot, hnd.1, map_cons, mem_cons, Prod.mk.injEq, true_and, if_true,
        Option.some.injEq, false_or, not_false_eq_true, not_true_eq_false, false_and, or_false]
      exact eq_comm
    · simp [hm]

theorem foldl_restore_get {es : List (Entry String (Root V))} (hnd : (es.map Entry.key).Nodup)
    (maps : Maps V) (n : String) :
    contents (es.foldl (fun maps e => maps.create e.key (MVMap.new e.value)) maps) n =
      match es.find? fun e => e.key = n with
      | some e => some e.value.get
      | none => contents maps n := by
  induction es generalizing maps with
  | nil => rfl
  | cons e es ih =>
    rw [map_cons, nodup_cons] at hnd
    rw [foldl_cons, ih hnd.2, contents_create]
    by_cases he : e.key = n
    · have hnone : (es.find? fun e => e.key = n) = none := by
        rw [find?_eq_none]
        intro d hd hdn
        exact hnd.1 (he ▸ of_decide_eq_true hdn ▸ mem_map_of_mem hd)
      rw [hnone, find?_cons_of_pos (by simpa using he), ← he, update_self]
      rfl
    · rw [find?_cons_of_neg (by simpa using he), update_of_ne (Ne.symm he)]

theorem contents_restoreMaps (payload : ChunkPayload (Catalog V)) (n : String) :
    contents (restoreMaps payload) n = (payload.rootPage.get n).map MVTree.get := by
  -- the metadata tree names every map once
  have hsorted := payload.rootPage.sorted_scanAll
  have hnd : (payload.rootPage.scanAll.map Entry.key).Nodup := hsorted.imp fun h => h.ne
  rw [restoreMaps, foldl_restore_get hnd]
  cases hfound : payload.rootPage.scanAll.find? fun e => e.key = n with
  | none =>
    have hget : payload.rootPage.get n = none := by
      cases hget : payload.rootPage.get n with
      | none => rfl
      | some root =>
        have hmem := (MVTree.mem_scanAll _ _ _).mpr hget
        simpa using find?_eq_none.mp hfound _ hmem
    rw [hget]
    rfl
  | some e =>
    have hkey : e.key = n := by simpa using find?_some hfound
    have hget : payload.rootPage.get n = some e.value := by
      rw [← hkey]
      exact (MVTree.mem_scanAll _ _ _).mp (mem_of_find?_eq_some hfound)
    rw [hget]
    rfl

/-! ## The image in the file -/

/-- The file opens, and its maps have the bindings `c`. -/
def Holds (f : FileImage V) (c : Contents V) : Prop :=
  ∃ maps, replayChain f.chain = .ok maps ∧ contents maps = c

theorem holds_new : Holds (.new : FileImage V) fun _ => none := ⟨.empty, rfl, rfl⟩

def recorded (payload : ChunkPayload (Catalog V)) : Contents V :=
  fun n => (payload.rootPage.get n).map MVTree.get

theorem holds_chunk (f : FileImage V) (payload : ChunkPayload (Catalog V)) :
    Holds (f.append (.chunk payload)) (recorded payload) :=
  ⟨restoreMaps payload, rfl, funext (contents_restoreMaps payload)⟩

theorem holds_compactAndRewrite (payload : ChunkPayload (Catalog V)) :
    Holds (.compactAndRewrite payload) (recorded payload) :=
  ⟨restoreMaps payload, rfl, funext (contents_restoreMaps payload)⟩

theorem replayChain_delta {f : FileImage V} {maps' : Maps V} {delta : DeltaPayload (Root V) V}
    (h : replayChain f.chain = .ok maps) (h' : replayDelta maps delta = .ok maps') :
    replayChain (f.append (.delta delta)).chain = .ok maps' := by
  unfold replayChain at h ⊢
  simp only [FileImage.append, FileStore.Append.extend, foldlM_append, foldlM_cons,
    foldlM_nil]
  rw [h]
  change Except.bind (replayDelta maps delta) pure = _
  rw [h']
  rfl

theorem recorded_catalogOf (g : String → MVMap V → Root V) (id version : Nat) (n : String) :
    recorded (.new id version (catalogOf (maps.named.map fun p => (p.1, g p.1 p.2)))) n =
      (maps.get n).map fun m => (g n m).get := by
  have hnd : ((maps.named.map fun p => (p.1, g p.1 p.2)).map Prod.fst).Nodup := by
    rw [map_map]
    exact maps.nodup_named
  unfold recorded ChunkPayload.new
  cases hget : maps.get n with
  | none =>
    cases hcat : (catalogOf (maps.named.map fun p => (p.1, g p.1 p.2))).get n with
    | none => rfl
    | some root =>
      obtain ⟨p, hp, hpe⟩ := mem_map.mp ((get_catalogOf hnd n root).mp hcat)
      cases hpe
      rw [Registry.mem_named.mp hp] at hget
      cases hget
  | some m =>
    have hcat := (get_catalogOf hnd n (g n m)).mpr
      (mem_map.mpr ⟨(n, m), Registry.mem_named.mpr hget, rfl⟩)
    simp only [hcat, Option.map_some]

def Cached (s : MVStore V) : Prop := ∀ n m, s.maps.get n = some m → m.Cached

theorem Cached.serializedRoots (h : s.Cached) :
    s.serializedRoots = s.maps.named.map fun p => (p.1, p.2.tree) := by
  refine map_congr_left fun p hp => ?_
  rw [MVMap.getSerializedRoot_fst (h p.1 p.2 (Registry.mem_named.mp hp))]

theorem recorded_serializedRoots (h : s.Cached) (id version : Nat) :
    recorded (.new id version (catalogOf s.serializedRoots)) = contents s.maps := by
  funext n
  rw [h.serializedRoots, recorded_catalogOf (fun _ m => m.tree)]
  rfl

/-- The bindings the next checkpoint writes, when the file holds `img`. -/
def nextImage (s : MVStore V) (img : Contents V) : Contents V := fun n =>
  (s.maps.get n).bind fun m =>
    if s.needsRoot n then some m.get else (img n).map m.journal.patch.apply

def Known (s : MVStore V) (img : Contents V) : Prop :=
  s.hasCheckpoint = true → ∀ n, (s.checkpointedMaps.lookup n).isSome ↔ (img n).isSome

theorem needsRoot_eq_false : s.needsRoot n = false ↔
    s.hasCheckpoint = true ∧ (s.checkpointedMaps.lookup n).isSome = true := by
  simp only [needsRoot, Bool.or_eq_false_iff, Bool.not_eq_false', Option.isNone_eq_false_iff]

theorem Known.image (hk : s.Known img) (h : s.needsRoot n = false) : ∃ f, img n = some f := by
  obtain ⟨hcp, hknown⟩ := needsRoot_eq_false.mp h
  exact Option.isSome_iff_exists.mp ((hk hcp n).mp hknown)

variable {m : MVMap V}

theorem mapDelta_name (h : s.mapDelta n m = some d) : d.name = n := by
  unfold mapDelta at h
  split_ifs at h <;> cases h <;> rfl

theorem mem_mapDeltas :
    d ∈ (s.maps.named.filterMap fun p => s.mapDelta p.1 p.2) ↔
      ∃ m, s.maps.get d.name = some m ∧ s.mapDelta d.name m = some d := by
  rw [mem_filterMap]
  constructor
  · rintro ⟨p, hp, hd⟩
    have hname := mapDelta_name hd
    exact ⟨p.2, by rw [hname]; exact Registry.mem_named.mp hp, by rw [hname]; exact hd⟩
  · rintro ⟨m, hm, hd⟩
    exact ⟨(d.name, m), Registry.mem_named.mpr hm, hd⟩

theorem nodup_mapDeltas (s : MVStore V) :
    ((s.maps.named.filterMap fun p => s.mapDelta p.1 p.2).map MapDelta.name).Nodup := by
  have hsub : ((s.maps.named.filterMap fun p => s.mapDelta p.1 p.2).map MapDelta.name).Sublist
      (s.maps.named.map Prod.fst) := by
    induction s.maps.named with
    | nil => exact List.Sublist.slnil
    | cons p ps ih =>
      rw [filterMap_cons, map_cons]
      cases hd : s.mapDelta p.1 p.2 with
      | none => exact ih.cons _
      | some d =>
        rw [map_cons, mapDelta_name hd]
        exact ih.cons_cons _
  exact hsub.nodup s.maps.nodup_named

theorem replayed_mapDelta (hc : m.Cached) (h : s.mapDelta n m = some d) (c : Contents V) :
    replayed c d = if s.needsRoot n then some m.get else (c n).map m.journal.patch.apply := by
  unfold mapDelta at h
  split_ifs at h with hroot hempty <;> cases h
  · rw [if_pos hroot, MVMap.getSerializedRoot_fst hc]
    rfl
  · rw [if_neg hroot]
    change (c n).map _ = _
    congr 1
    funext f
    exact Patch.replay_changeList m.journal.patch f

def removedMaps (s : MVStore V) : List String :=
  s.checkpointedMaps.keys.filter fun n => (s.maps.find n).isNone

theorem mem_removedMaps (hcp : s.hasCheckpoint = true) (hk : s.Known img) (n : String) :
    n ∈ s.removedMaps ↔ (img n).isSome ∧ s.maps.get n = none := by
  rw [removedMaps, mem_filter, Option.isNone_iff_eq_none, ← Registry.get_eq_none,
    ← AList.mem_keys, ← AList.lookup_isSome, hk hcp n]

theorem mapDelta_replayable (hcp : s.hasCheckpoint = true) (hk : s.Known img)
    (h : s.mapDelta n m = some d) : d.replaceRoot.isSome ∨ (img n).isSome := by
  unfold mapDelta at h
  split_ifs at h with hroot hempty
  · cases h
    exact .inl rfl
  · refine .inr ((hk hcp n).mp ?_)
    simp only [needsRoot, hcp, Bool.not_true, Bool.false_or, Option.isNone_iff_eq_none] at hroot
    exact Option.isSome_iff_ne_none.mpr hroot

theorem nextImage_of_none (hm : s.maps.get n = some m) (h : s.mapDelta n m = none)
    (img : Contents V) : s.nextImage img n = img n := by
  unfold mapDelta at h
  split_ifs at h with hroot hempty
  simp only [nextImage, hm, Option.bind_some, if_neg hroot]
  cases img n with
  | none => rfl
  | some f => exact congrArg some (Patch.apply_of_isEmpty hempty f)

theorem delta_holds (hcp : s.hasCheckpoint = true) (hc : s.Cached) (hf : Holds s.file img)
    (hk : s.Known img) :
    Holds s.published.file (s.nextImage img) := by
  obtain ⟨maps, hmaps, hcont⟩ := hf
  set ds := s.maps.named.filterMap fun p => s.mapDelta p.1 p.2 with hds
  -- dropping the removed maps leaves the image of the live ones
  have hcont₁ : ∀ n, contents (s.removedMaps.foldl Registry.remove maps) n =
      if n ∈ s.removedMaps then none else img n := by
    intro n
    rw [contents_foldl_remove, hcont]
  have hlive : ∀ n m, s.maps.get n = some m →
      contents (s.removedMaps.foldl Registry.remove maps) n = img n := by
    intro n m hm
    rw [hcont₁, if_neg]
    rw [mem_removedMaps hcp hk]
    rintro ⟨_, hnone⟩
    rw [hm] at hnone
    cases hnone
  obtain ⟨maps', hrun, hin, hout⟩ := foldlM_replayMapDelta s.nodup_mapDeltas
    (s.removedMaps.foldl Registry.remove maps) (by
      intro d hd
      obtain ⟨m, hm, hdelta⟩ := mem_mapDeltas.mp hd
      rw [hlive _ m hm]
      exact mapDelta_replayable hcp hk hdelta)
  refine ⟨maps', ?_, ?_⟩
  · have hrec : s.published.file = s.file.append s.checkpointRecord := rfl
    rw [hrec, checkpointRecord, if_pos hcp]
    exact replayChain_delta hmaps hrun
  · funext n
    by_cases hn : n ∈ ds.map MapDelta.name
    · obtain ⟨d, hd, rfl⟩ := mem_map.mp hn
      obtain ⟨m, hm, hdelta⟩ := mem_mapDeltas.mp hd
      rw [hin d hd, replayed_mapDelta (hc _ m hm) hdelta, hlive _ m hm, nextImage, hm,
        Option.bind_some]
    · rw [hout n hn]
      cases hm : s.maps.get n with
      | none =>
        rw [hcont₁, nextImage, hm, Option.bind_none]
        split_ifs with hr
        · rfl
        · rw [mem_removedMaps hcp hk] at hr
          exact Option.not_isSome_iff_eq_none.mp fun hsome => hr ⟨hsome, hm⟩
      | some m =>
        have hnone : s.mapDelta n m = none := by
          by_contra hne
          obtain ⟨d, hd⟩ := Option.ne_none_iff_exists'.mp hne
          have hname := mapDelta_name hd
          exact hn (mem_map.mpr ⟨d, mem_mapDeltas.mpr
            ⟨m, by rw [hname]; exact hm, by rw [hname]; exact hd⟩, hname⟩)
        rw [hlive n m hm, nextImage_of_none hm hnone]

theorem nextImage_first (hcp : s.hasCheckpoint = false) (img : Contents V) :
    s.nextImage img = contents s.maps := by
  funext n
  have hroot : s.needsRoot n = true := by simp [needsRoot, hcp]
  unfold nextImage contents
  simp only [hroot, if_true]
  cases s.maps.get n <;> rfl

theorem published_holds (hc : s.Cached) (hf : Holds s.file img) (hk : s.Known img) :
    Holds s.published.file (s.nextImage img) := by
  cases hcp : s.hasCheckpoint with
  | true => exact delta_holds hcp hc hf hk
  | false =>
    have hrec : s.published.file = s.file.append s.checkpointRecord := rfl
    rw [nextImage_first hcp, hrec, checkpointRecord, hcp,
      ← recorded_serializedRoots hc (s.chunkIdCounter + 1) (s.version + 1)]
    exact holds_chunk _ _

end MVStore

end H2Database.Mvstore
