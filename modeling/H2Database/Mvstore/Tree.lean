import H2Database.Mvstore.Page

/-!
# The copy-on-write tree (`h2-mvstore/src/tree.rs`)

The recursive operations follow the source; the access to `children[idx]` is the walk of a second
function over the list of children.  What a tree means is the sorted list of its entries
(`collectEntries`): a read is a search in that list, an insert with all its splits is one insertion
there, a removal one erasure.  `MVTree` carries the ordering of its pages.
-/

namespace H2Database.Mvstore

open List

variable {K V : Type} [LinearOrder K]

namespace Page

mutual

/-- The loop of `MVTree::get`. -/
def get : Page K V → K → Option V
  | .leaf entries, k => leafGet entries k
  | .branch keys children, k => getAt children (childIndex keys k) k

def getAt : List (Page K V) → Nat → K → Option V
  | [], _, _ => none
  | c :: _, 0, k => c.get k
  | _ :: cs, i + 1, k => getAt cs i k

end

mutual

/-- `collect_entries`. -/
def collectEntries : Page K V → List (Entry K V)
  | .leaf entries => entries
  | .branch _ children => collectAll children

def collectAll : List (Page K V) → List (Entry K V)
  | [] => []
  | c :: cs => c.collectEntries ++ collectAll cs

end

/-! ## Inserting -/

/-- What `insert_recursive` returns: the new page and, after a split, the pivot with the page on its
right. -/
abbrev Inserted (K V : Type) := Page K V × Option (K × Page K V)

/-- A leaf that may have grown past the limit: `split_off(len / 2)`. -/
def splitLeaf (maxEntries : Nat) (entries : List (Entry K V)) : Inserted K V :=
  if maxEntries < entries.length then
    match entries.drop (entries.length / 2) with
    | [] => (.leaf entries, none)
    | e :: right => (.leaf (entries.take (entries.length / 2)), some (e.key, .leaf (e :: right)))
  else (.leaf entries, none)

/-- A branch that may have grown past the limit: the middle key moves up. -/
def splitBranch (maxEntries : Nat) (keys : List K) (children : List (Page K V)) : Inserted K V :=
  if maxEntries < keys.length then
    match keys.drop (keys.length / 2) with
    | [] => (.branch keys children, none)
    | pivot :: rightKeys =>
      (.branch (keys.take (keys.length / 2)) (children.take (keys.length / 2 + 1)),
        some (pivot, .branch rightKeys (children.drop (keys.length / 2 + 1))))
  else (.branch keys children, none)

/-- The separators and children of a branch once child `idx` has been inserted into. -/
def graft (keys : List K) (children : List (Page K V)) (idx : Nat) (r : Inserted K V) :
    List K × List (Page K V) :=
  match r.2 with
  | none => (keys, children.set idx r.1)
  | some (pivot, right) =>
    (keys.insertIdx idx pivot, (children.set idx r.1).insertIdx (idx + 1) right)

mutual

def insertRecursive (maxEntries : Nat) : Page K V → K → V → Inserted K V
  | .leaf entries, k, v =>
    match binarySearch (entries.map Entry.key) k with
    | .ok i => (.leaf (entries.modify i fun e => { e with value := v }), none)
    | .error i => splitLeaf maxEntries (entries.insertIdx i ⟨k, v⟩)
  | .branch keys children, k, v =>
    match insertAt maxEntries children (childIndex keys k) k v with
    | none => (.branch keys children, none)
    | some r =>
      let grafted := graft keys children (childIndex keys k) r
      match r.2 with
      | none => (.branch grafted.1 grafted.2, none)
      | some _ => splitBranch maxEntries grafted.1 grafted.2

/-- The insertion into `children[idx]`. -/
def insertAt (maxEntries : Nat) : List (Page K V) → Nat → K → V → Option (Inserted K V)
  | [], _, _, _ => none
  | c :: _, 0, k, v => some (insertRecursive maxEntries c k v)
  | _ :: cs, i + 1, k, v => insertAt maxEntries cs i k v

end

mutual

def removeRecursive : Page K V → K → Page K V × Option V
  | .leaf entries, k =>
    match binarySearch (entries.map Entry.key) k with
    | .ok i => (.leaf (entries.eraseIdx i), entries[i]?.map Entry.value)
    | .error _ => (.leaf entries, none)
  | .branch keys children, k =>
    match removeAt children (childIndex keys k) k with
    | some (child, some v) => (.branch keys (children.set (childIndex keys k) child), some v)
    | _ => (.branch keys children, none)

/-- The removal from `children[idx]`. -/
def removeAt : List (Page K V) → Nat → K → Option (Page K V × Option V)
  | [], _, _ => none
  | c :: _, 0, k => some (removeRecursive c k)
  | _ :: cs, i + 1, k => removeAt cs i k

end

/-! ## Ordered pages -/

mutual

/-- Every key of the page lies in `[lo, hi)`, and the separators route each key to its child. -/
def Ordered : WithBot K → WithTop K → Page K V → Prop
  | lo, hi, .leaf entries => SortedEntries entries ∧ ∀ e ∈ entries, lo ≤ e.key ∧ e.key < hi
  | lo, hi, .branch keys children => OrderedAll lo hi keys children

def OrderedAll : WithBot K → WithTop K → List K → List (Page K V) → Prop
  | lo, hi, [], [c] => Ordered lo hi c
  | lo, hi, q :: ks, c :: cs => lo < q ∧ q < hi ∧ Ordered lo q c ∧ OrderedAll q hi ks cs
  | _, _, _, _ => False

end

variable {lo : WithBot K} {hi : WithTop K} {children : List (Page K V)}

theorem ordered_leaf {entries : List (Entry K V)} :
    Ordered lo hi (.leaf entries) ↔
      SortedEntries entries ∧ ∀ e ∈ entries, lo ≤ e.key ∧ e.key < hi := by
  rw [Ordered]

theorem ordered_branch {keys : List K} :
    Ordered lo hi (.branch keys children) ↔ OrderedAll lo hi keys children := by
  rw [Ordered]

variable {q : K} {c : Page K V}

variable {ks : List K}

theorem orderedAll_cons {cs : List (Page K V)} :
    OrderedAll lo hi (q :: ks) (c :: cs) ↔
      lo < q ∧ q < hi ∧ Ordered lo q c ∧ OrderedAll q hi ks cs := by
  rw [OrderedAll]

theorem orderedAll_single :
    OrderedAll lo hi [] [c] ↔ Ordered lo hi c := by
  rw [OrderedAll]

theorem OrderedAll.cases {keys : List K} (h : OrderedAll lo hi keys children) :
    (∃ c, keys = [] ∧ children = [c] ∧ Ordered lo hi c) ∨
      ∃ q ks c cs, keys = q :: ks ∧ children = c :: cs ∧ lo < q ∧ q < hi ∧ Ordered lo q c ∧
        OrderedAll q hi ks cs := by
  cases children with
  | nil => cases keys <;> simp [OrderedAll] at h
  | cons c cs =>
    cases keys with
    | cons q ks => exact .inr ⟨q, ks, c, cs, rfl, rfl, orderedAll_cons.mp h⟩
    | nil =>
      cases cs with
      | nil => exact .inl ⟨c, rfl, rfl, orderedAll_single.mp h⟩
      | cons c' cs => simp [OrderedAll] at h

theorem OrderedAll.keys {keys : List K} (h : OrderedAll lo hi keys children) :
    keys.Pairwise (· < ·) ∧ ∀ q ∈ keys, lo < q ∧ q < hi := by
  induction keys generalizing lo children with
  | nil => exact ⟨List.Pairwise.nil, fun q hq => absurd hq not_mem_nil⟩
  | cons q ks ih =>
    rcases h.cases with ⟨_, hnil, _⟩ | ⟨q', ks', c, cs, heq, rfl, hlo, hhi, _, hrest⟩
    · cases hnil
    · cases heq
      obtain ⟨hsorted, hbounds⟩ := ih hrest
      refine ⟨pairwise_cons.mpr
        ⟨fun p hp => WithBot.coe_lt_coe.mp (hbounds p hp).1, hsorted⟩, fun p hp => ?_⟩
      rcases mem_cons.mp hp with rfl | hp
      · exact ⟨hlo, hhi⟩
      · exact ⟨hlo.trans (hbounds p hp).1, (hbounds p hp).2⟩

theorem getAt_childIndex_cons (hs : (q :: ks).Pairwise (· < ·))
    (c : Page K V) (cs : List (Page K V)) (k : K) :
    getAt (c :: cs) (childIndex (q :: ks) k) k =
      if k < q then c.get k else getAt cs (childIndex ks k) k := by
  rw [childIndex_cons hs]
  by_cases hlt : k < q
  · rw [if_pos hlt, if_pos hlt, getAt]
  · rw [if_neg hlt, if_neg hlt, getAt]

theorem getAt_childIndex_single (c : Page K V) (k : K) :
    getAt [c] (childIndex [] k) k = c.get k := by
  change getAt [c] 0 k = _
  rw [getAt]

/-! ## The entries of an ordered page -/

/-- The bounds of the entries under a page or under the children of a branch. -/
def Within (lo : WithBot K) (hi : WithTop K) (es : List (Entry K V)) : Prop :=
  SortedEntries es ∧ ∀ e ∈ es, lo ≤ e.key ∧ e.key < hi

variable {left right : List (Entry K V)}

theorem Within.append (hlo : lo < q) (hhi : q < hi) (hl : Within lo q left) (hr : Within q hi right) :
    Within lo hi (left ++ right) := by
  refine ⟨sortedEntries_append (q := q) (fun e he => WithTop.coe_lt_coe.mp (hl.2 e he).2)
    (fun e he => WithBot.coe_le_coe.mp (hr.2 e he).1) hl.1 hr.1, fun e he => ?_⟩
  rcases mem_append.mp he with he | he
  · exact ⟨(hl.2 e he).1, (hl.2 e he).2.trans hhi⟩
  · exact ⟨hlo.le.trans (hr.2 e he).1, (hr.2 e he).2⟩

mutual

theorem Ordered.within {lo : WithBot K} {hi : WithTop K} :
    (p : Page K V) → Ordered lo hi p → Within lo hi p.collectEntries
  | .leaf entries, h => by
    rw [collectEntries]
    exact ordered_leaf.mp h
  | .branch keys children, h => by
    rw [collectEntries]
    exact OrderedAll.within keys children (ordered_branch.mp h)

theorem OrderedAll.within {lo : WithBot K} {hi : WithTop K} (keys : List K) :
    (children : List (Page K V)) → OrderedAll lo hi keys children →
      Within lo hi (collectAll children)
  | [], h => by simp [OrderedAll] at h
  | c :: cs, h => by
    rw [collectAll]
    rcases h.cases with ⟨c', rfl, heq, hc⟩ | ⟨q, ks, c', cs', rfl, heq, hlo, hhi, hc, hrest⟩
    · cases heq
      rw [collectAll, append_nil]
      exact Ordered.within c hc
    · cases heq
      exact Within.append hlo hhi (Ordered.within c hc) (OrderedAll.within ks cs hrest)

end

mutual

theorem get_eq_leafGet {lo : WithBot K} {hi : WithTop K} (k : K) :
    (p : Page K V) → Ordered lo hi p → p.get k = leafGet p.collectEntries k
  | .leaf entries, _ => by rw [get, collectEntries]
  | .branch keys children, h => by
    rw [get, collectEntries]
    exact getAt_eq_leafGet k keys children (ordered_branch.mp h)

theorem getAt_eq_leafGet {lo : WithBot K} {hi : WithTop K} (k : K) (keys : List K) :
    (children : List (Page K V)) → OrderedAll lo hi keys children →
      getAt children (childIndex keys k) k = leafGet (collectAll children) k
  | [], h => by simp [OrderedAll] at h
  | c :: cs, h => by
    rw [collectAll]
    have hkeys := h.keys.1
    rcases h.cases with ⟨c', rfl, heq, hc⟩ | ⟨q, ks, c', cs', rfl, heq, hlo, hhi, hc, hrest⟩
    · cases heq
      rw [getAt_childIndex_single, collectAll, append_nil]
      exact get_eq_leafGet k c hc
    · cases heq
      rw [getAt_childIndex_cons hkeys,
        leafGet_append (fun e he => WithTop.coe_lt_coe.mp ((Ordered.within c hc).2 e he).2)
          (fun e he => WithBot.coe_le_coe.mp ((OrderedAll.within ks cs hrest).2 e he).1),
        get_eq_leafGet k c hc, getAt_eq_leafGet k ks cs hrest]

end

/-! ## Inserting keeps the order -/

def Inserted.collect (r : Inserted K V) : List (Entry K V) :=
  match r.2 with
  | none => r.1.collectEntries
  | some (_, right) => r.1.collectEntries ++ right.collectEntries

def Inserted.Ordered (lo : WithBot K) (hi : WithTop K) (r : Inserted K V) : Prop :=
  match r.2 with
  | none => r.1.Ordered lo hi
  | some (pivot, right) =>
    lo < pivot ∧ pivot < hi ∧ r.1.Ordered lo pivot ∧ right.Ordered pivot hi

theorem Within.split {e : Entry K V} (h : Within lo hi (left ++ e :: right)) :
    Within lo e.key left ∧ Within e.key hi (e :: right) := by
  obtain ⟨hs, hb⟩ := h
  rw [SortedEntries, map_append, pairwise_append] at hs
  obtain ⟨hsl, hsr, hcross⟩ := hs
  refine ⟨⟨hsl, fun d hd => ⟨(hb d (mem_append_left _ hd)).1, ?_⟩⟩,
    ⟨hsr, fun d hd => ⟨?_, (hb d (mem_append_right _ hd)).2⟩⟩⟩
  · exact WithTop.coe_lt_coe.mpr (hcross _ (mem_map_of_mem hd) _ (by simp))
  · rcases mem_cons.mp hd with rfl | hd
    · exact le_refl _
    · exact WithBot.coe_le_coe.mpr
        (rel_of_pairwise_cons hsr (mem_map_of_mem hd)).le

theorem splitLeaf_spec {maxEntries : Nat} (hmax : 1 ≤ maxEntries)
    {es : List (Entry K V)} (h : Within lo hi es) :
    (splitLeaf maxEntries es).Ordered lo hi ∧ (splitLeaf maxEntries es).collect = es := by
  unfold splitLeaf
  split_ifs with hbig
  · cases hright : es.drop (es.length / 2) with
    | nil => exact ⟨ordered_leaf.mpr h, by simp only [Inserted.collect, collectEntries]⟩
    | cons e right =>
      have hsplit : es.take (es.length / 2) ++ e :: right = es := by
        rw [← hright, take_append_drop]
      obtain ⟨hl, hr⟩ := Within.split (hsplit.symm ▸ h)
      have he := h.2 e (hsplit ▸ mem_append_right _ mem_cons_self)
      refine ⟨⟨?_, he.2, ordered_leaf.mpr hl, ordered_leaf.mpr hr⟩, ?_⟩
      · -- the left half is not empty, and its keys lie between `lo` and the pivot
        cases hleft : es.take (es.length / 2) with
        | nil =>
          have hlen := congrArg List.length hleft
          rw [length_take, length_nil] at hlen
          omega
        | cons d left =>
          rw [hleft] at hl
          have hd := hl.2 d mem_cons_self
          exact lt_of_le_of_lt hd.1 (WithBot.coe_lt_coe.mpr (WithTop.coe_lt_coe.mp hd.2))
      · simp only [Inserted.collect, collectEntries]
        exact hsplit
  · exact ⟨ordered_leaf.mpr h, by simp only [Inserted.collect, collectEntries]⟩

theorem OrderedAll.split {left right : List K} (h : OrderedAll lo hi (left ++ q :: right) children) :
    OrderedAll lo q left (children.take (left.length + 1)) ∧
      OrderedAll q hi right (children.drop (left.length + 1)) := by
  induction left generalizing lo children with
  | nil =>
    rcases h.cases with ⟨_, hnil, _⟩ | ⟨q', ks, c, cs, heq, rfl, hlo, hhi, hc, hrest⟩
    · cases hnil
    · cases heq
      exact ⟨orderedAll_single.mpr hc, hrest⟩
  | cons p left ih =>
    rcases h.cases with ⟨_, hnil, _⟩ | ⟨q', ks, c, cs, heq, rfl, hlo, hhi, hc, hrest⟩
    · cases hnil
    · cases heq
      obtain ⟨hl, hr⟩ := ih hrest
      have hpq : p < q := WithBot.coe_lt_coe.mp (hrest.keys.2 q (by simp)).1
      exact ⟨orderedAll_cons.mpr ⟨hlo, WithTop.coe_lt_coe.mpr hpq, hc, hl⟩, hr⟩

omit [LinearOrder K] in
theorem collectAll_append (cs ds : List (Page K V)) :
    collectAll (cs ++ ds) = collectAll cs ++ collectAll ds := by
  induction cs with
  | nil => rw [nil_append, collectAll, nil_append]
  | cons c cs ih => rw [cons_append, collectAll, collectAll, ih, append_assoc]

theorem splitBranch_spec (maxEntries : Nat) {keys : List K} (h : OrderedAll lo hi keys children) :
    (splitBranch maxEntries keys children).Ordered lo hi ∧
      (splitBranch maxEntries keys children).collect = collectAll children := by
  unfold splitBranch
  split_ifs with hbig
  · cases hright : keys.drop (keys.length / 2) with
    | nil => exact ⟨ordered_branch.mpr h, by simp only [Inserted.collect, collectEntries]⟩
    | cons pivot right =>
      have hsplit : keys.take (keys.length / 2) ++ pivot :: right = keys := by
        rw [← hright, take_append_drop]
      have hlen : (keys.take (keys.length / 2)).length = keys.length / 2 := by
        rw [length_take]
        omega
      obtain ⟨hl, hr⟩ := OrderedAll.split (hsplit.symm ▸ h)
      rw [hlen] at hl hr
      have hp := h.keys.2 pivot (hsplit ▸ mem_append_right _ mem_cons_self)
      refine ⟨⟨hp.1, hp.2, ordered_branch.mpr hl, ordered_branch.mpr hr⟩, ?_⟩
      simp only [Inserted.collect, collectEntries]
      rw [← collectAll_append, take_append_drop]
  · exact ⟨ordered_branch.mpr h, by simp only [Inserted.collect, collectEntries]⟩

omit [LinearOrder K] in
theorem graft_cons (q : K) (ks : List K) (c : Page K V) (cs : List (Page K V)) (i : Nat)
    (r : Inserted K V) :
    graft (q :: ks) (c :: cs) (i + 1) r =
      (q :: (graft ks cs i r).1, c :: (graft ks cs i r).2) := by
  unfold graft
  cases r.2 with
  | none => rfl
  | some split => rfl

theorem graft_front {cs : List (Page K V)} {r : Inserted K V} (hlo : lo < q) (hhi : q < hi)
    (hrest : OrderedAll q hi ks cs) (hr : r.Ordered lo q) :
    OrderedAll lo hi (graft (q :: ks) (c :: cs) 0 r).1 (graft (q :: ks) (c :: cs) 0 r).2 ∧
      collectAll (graft (q :: ks) (c :: cs) 0 r).2 = r.collect ++ collectAll cs := by
  obtain ⟨page, split⟩ := r
  cases split with
  | none =>
    refine ⟨orderedAll_cons.mpr ⟨hlo, hhi, hr, hrest⟩, ?_⟩
    simp only [graft, set_cons_zero, collectAll, Inserted.collect]
  | some split =>
    obtain ⟨hlo', hhi', hpage, hright⟩ := hr
    refine ⟨orderedAll_cons.mpr ⟨hlo', hhi'.trans hhi, hpage,
      orderedAll_cons.mpr ⟨WithBot.coe_lt_coe.mpr (WithTop.coe_lt_coe.mp hhi'), hhi, hright,
        hrest⟩⟩, ?_⟩
    simp only [graft, set_cons_zero, insertIdx_succ_cons, insertIdx_zero,
      collectAll, Inserted.collect, append_assoc]

theorem graft_single {r : Inserted K V} (hr : r.Ordered lo hi) :
    OrderedAll lo hi (graft [] [c] 0 r).1 (graft [] [c] 0 r).2 ∧
      collectAll (graft [] [c] 0 r).2 = r.collect := by
  obtain ⟨page, split⟩ := r
  cases split with
  | none =>
    refine ⟨orderedAll_single.mpr hr, ?_⟩
    simp only [graft, set_cons_zero, collectAll, Inserted.collect, append_nil]
  | some split =>
    obtain ⟨hlo', hhi', hpage, hright⟩ := hr
    refine ⟨orderedAll_cons.mpr ⟨hlo', hhi', hpage, orderedAll_single.mpr hright⟩, ?_⟩
    simp only [graft, set_cons_zero, insertIdx_succ_cons, insertIdx_zero,
      collectAll, Inserted.collect, append_nil]

theorem Within.leafPut {es : List (Entry K V)}
    (h : Within lo hi es) {k : K} (hlo : lo ≤ k) (hhi : k < hi) (v : V) :
    Within lo hi (leafPut es k v) := by
  refine ⟨sortedEntries_leafPut h.1 k v, fun e he => ?_⟩
  rcases mem_leafPut he with rfl | he
  · exact ⟨hlo, hhi⟩
  · exact h.2 e he

mutual

theorem insertRecursive_spec {maxEntries : Nat} (hmax : 1 ≤ maxEntries) (k : K) (v : V) :
    (p : Page K V) → ∀ {lo : WithBot K} {hi : WithTop K}, Ordered lo hi p → lo ≤ k → k < hi →
      (insertRecursive maxEntries p k v).Ordered lo hi ∧
        (insertRecursive maxEntries p k v).collect = leafPut p.collectEntries k v
  | .leaf entries, lo, hi, h, hlo, hhi => by
    have hput := Within.leafPut (ordered_leaf.mp h) hlo hhi v
    rw [insertRecursive, collectEntries]
    unfold leafPut at hput ⊢
    -- only an insertion makes a leaf longer; a replaced value does not split it
    cases hsearch : binarySearch (entries.map Entry.key) k with
    | ok i =>
      simp only [hsearch] at hput ⊢
      exact ⟨ordered_leaf.mpr hput, by simp only [Inserted.collect, collectEntries]⟩
    | error i =>
      simp only [hsearch] at hput ⊢
      exact splitLeaf_spec hmax hput
  | .branch keys children, lo, hi, h, hlo, hhi => by
    obtain ⟨r, hr, hord, hcol⟩ :=
      insertAt_spec hmax k v children keys (ordered_branch.mp h) hlo hhi
    rw [insertRecursive, collectEntries, hr]
    obtain ⟨page, split⟩ := r
    cases split with
    | none => exact ⟨ordered_branch.mpr hord, by simpa only [Inserted.collect, collectEntries]⟩
    | some split =>
      -- the child has split: the branch has one more key and may have to split in turn
      obtain ⟨hs, hc⟩ := splitBranch_spec maxEntries hord
      exact ⟨hs, hc.trans hcol⟩

theorem insertAt_spec {maxEntries : Nat} (hmax : 1 ≤ maxEntries) (k : K) (v : V) :
    (children : List (Page K V)) → ∀ (keys : List K) {lo : WithBot K} {hi : WithTop K},
      OrderedAll lo hi keys children → lo ≤ k → k < hi →
      ∃ r, insertAt maxEntries children (childIndex keys k) k v = some r ∧
        OrderedAll lo hi (graft keys children (childIndex keys k) r).1
          (graft keys children (childIndex keys k) r).2 ∧
        collectAll (graft keys children (childIndex keys k) r).2 =
          leafPut (collectAll children) k v
  | [], _, _, _, h, _, _ => by simp [OrderedAll] at h
  | c :: cs, keys, lo, hi, h, hlo, hhi => by
    have hkeys := h.keys.1
    -- induction on the children: the key goes into the first one, or to the right of its separator
    rcases h.cases with ⟨c', rfl, heq, hc⟩ | ⟨q, ks, c', cs', rfl, heq, hloq, hhiq, hc, hrest⟩
    · cases heq
      obtain ⟨hord, hcol⟩ := insertRecursive_spec hmax k v c hc hlo hhi
      refine ⟨insertRecursive maxEntries c k v, ?_, ?_⟩
      · change insertAt maxEntries [c] 0 k v = _
        rw [insertAt]
      · change OrderedAll lo hi (graft [] [c] 0 _).1 (graft [] [c] 0 _).2 ∧
          collectAll (graft [] [c] 0 _).2 = _
        obtain ⟨hg, hgc⟩ := graft_single (c := c) hord
        rw [collectAll, collectAll, append_nil]
        exact ⟨hg, hgc.trans hcol⟩
    · cases heq
      have hl : ∀ e ∈ c.collectEntries, e.key < q :=
        fun e he => WithTop.coe_lt_coe.mp ((Ordered.within c hc).2 e he).2
      have hr : ∀ e ∈ collectAll cs, q ≤ e.key :=
        fun e he => WithBot.coe_le_coe.mp ((OrderedAll.within ks cs hrest).2 e he).1
      rw [childIndex_cons hkeys, collectAll, leafPut_append hl hr]
      by_cases hlt : k < q
      · obtain ⟨hord, hcol⟩ := insertRecursive_spec hmax k v c hc hlo (WithTop.coe_lt_coe.mpr hlt)
        obtain ⟨hg, hgc⟩ := graft_front (c := c) hloq hhiq hrest hord
        rw [if_pos hlt, if_pos hlt]
        refine ⟨insertRecursive maxEntries c k v, by rw [insertAt], hg, ?_⟩
        rw [hgc, hcol]
      · obtain ⟨r, hr, hord, hcol⟩ :=
          insertAt_spec hmax k v cs ks hrest (WithBot.coe_le_coe.mpr (not_lt.mp hlt)) hhi
        rw [if_neg hlt, if_neg hlt]
        refine ⟨r, by rw [insertAt, hr], ?_, ?_⟩
        · rw [graft_cons]
          exact orderedAll_cons.mpr ⟨hloq, hhiq, hc, hord⟩
        · rw [graft_cons, collectAll, hcol]

end

/-! ## Removing keeps the order -/

mutual

theorem removeRecursive_spec (k : K) :
    (p : Page K V) → ∀ {lo : WithBot K} {hi : WithTop K}, Ordered lo hi p →
      (removeRecursive p k).1.Ordered lo hi ∧
        (removeRecursive p k).1.collectEntries = leafRemove p.collectEntries k ∧
        (removeRecursive p k).2 = leafGet p.collectEntries k
  | .leaf entries, lo, hi, h => by
    have hw := ordered_leaf.mp h
    have hrem : Within lo hi (leafRemove entries k) :=
      ⟨sortedEntries_leafRemove hw.1 k, fun e he => hw.2 e (mem_leafRemove he)⟩
    rw [removeRecursive, collectEntries]
    unfold leafRemove leafGet at *
    cases hsearch : binarySearch (entries.map Entry.key) k with
    | ok i =>
      simp only [hsearch] at hrem ⊢
      exact ⟨ordered_leaf.mpr hrem, by rw [collectEntries], trivial⟩
    | error i =>
      simp only [hsearch] at hrem ⊢
      exact ⟨h, by rw [collectEntries], trivial⟩
  | .branch keys children, lo, hi, h => by
    obtain ⟨child, old, hr, hord, hcol, hold⟩ :=
      removeAt_spec k children keys (ordered_branch.mp h)
    rw [removeRecursive, collectEntries, hr]
    cases old with
    | some v => exact ⟨ordered_branch.mpr hord, by rw [collectEntries, hcol], hold⟩
    | none =>
      -- an absent key leaves the branch as it was, which is what the source returns
      refine ⟨h, ?_, hold⟩
      rw [collectEntries, leafRemove_of_none hold.symm]

theorem removeAt_spec (k : K) :
    (children : List (Page K V)) → ∀ (keys : List K) {lo : WithBot K} {hi : WithTop K},
      OrderedAll lo hi keys children →
      ∃ child old, removeAt children (childIndex keys k) k = some (child, old) ∧
        OrderedAll lo hi keys (children.set (childIndex keys k) child) ∧
        collectAll (children.set (childIndex keys k) child) =
          leafRemove (collectAll children) k ∧
        old = leafGet (collectAll children) k
  | [], _, _, _, h => by simp [OrderedAll] at h
  | c :: cs, keys, lo, hi, h => by
    have hkeys := h.keys.1
    -- as for insertion, but no page is ever merged
    rcases h.cases with ⟨c', rfl, heq, hc⟩ | ⟨q, ks, c', cs', rfl, heq, hloq, hhiq, hc, hrest⟩
    · cases heq
      obtain ⟨hord, hcol, hold⟩ := removeRecursive_spec k c hc
      refine ⟨(removeRecursive c k).1, (removeRecursive c k).2, ?_, ?_⟩
      · change removeAt [c] 0 k = _
        rw [removeAt]
      · change OrderedAll lo hi [] [(removeRecursive c k).1] ∧
          collectAll [(removeRecursive c k).1] = _ ∧ _
        simp only [collectAll, append_nil]
        exact ⟨orderedAll_single.mpr hord, hcol, hold⟩
    · cases heq
      have hl : ∀ e ∈ c.collectEntries, e.key < q :=
        fun e he => WithTop.coe_lt_coe.mp ((Ordered.within c hc).2 e he).2
      have hr : ∀ e ∈ collectAll cs, q ≤ e.key :=
        fun e he => WithBot.coe_le_coe.mp ((OrderedAll.within ks cs hrest).2 e he).1
      rw [childIndex_cons hkeys, collectAll, leafRemove_append hl hr, leafGet_append hl hr]
      by_cases hlt : k < q
      · obtain ⟨hord, hcol, hold⟩ := removeRecursive_spec k c hc
        rw [if_pos hlt, if_pos hlt, if_pos hlt]
        refine ⟨(removeRecursive c k).1, (removeRecursive c k).2, by rw [removeAt],
          orderedAll_cons.mpr ⟨hloq, hhiq, hord, hrest⟩, ?_, hold⟩
        rw [set_cons_zero, collectAll, hcol]
      · obtain ⟨child, old, hrem, hord, hcol, hold⟩ := removeAt_spec k cs ks hrest
        rw [if_neg hlt, if_neg hlt, if_neg hlt]
        refine ⟨child, old, by rw [removeAt, hrem],
          orderedAll_cons.mpr ⟨hloq, hhiq, hc, hord⟩, ?_, hold⟩
        rw [set_cons_succ, collectAll, hcol]

end

end Page

/-! ## The tree -/

/-- The tree with its pages in order; `version` is not read anywhere and is left out. -/
structure MVTree (K V : Type) [LinearOrder K] where
  root : Page K V
  maxEntriesPerPage : Nat
  splits : 1 ≤ maxEntriesPerPage
  ordered : root.Ordered ⊥ ⊤

namespace MVTree

/-- `MVTree::new` at the page size the store uses. -/
def empty : MVTree K V where
  root := .leaf []
  maxEntriesPerPage := 32
  splits := by decide
  ordered := Page.ordered_leaf.mpr ⟨List.Pairwise.nil, fun _ he => absurd he not_mem_nil⟩

def get (t : MVTree K V) (k : K) : Option V := t.root.get k

def scanAll (t : MVTree K V) : List (Entry K V) := t.root.collectEntries

def newRoot : Page.Inserted K V → Page K V
  | (page, none) => page
  | (page, some (pivot, right)) => .branch [pivot] [page, right]

theorem newRoot_spec {r : Page.Inserted K V} (h : r.Ordered ⊥ ⊤) :
    (newRoot r).Ordered ⊥ ⊤ ∧ (newRoot r).collectEntries = r.collect := by
  obtain ⟨page, split⟩ := r
  cases split with
  | none => exact ⟨h, rfl⟩
  | some split =>
    obtain ⟨hlo, hhi, hpage, hright⟩ := h
    refine ⟨Page.ordered_branch.mpr (Page.orderedAll_cons.mpr ⟨hlo, hhi, hpage,
      Page.orderedAll_single.mpr hright⟩), ?_⟩
    simp only [newRoot, Page.collectEntries, Page.collectAll, Page.Inserted.collect,
      append_nil]

theorem insert_spec (t : MVTree K V) (k : K) (v : V) :
    (t.root.insertRecursive t.maxEntriesPerPage k v).Ordered ⊥ ⊤ ∧
      (t.root.insertRecursive t.maxEntriesPerPage k v).collect =
        Page.leafPut t.root.collectEntries k v :=
  Page.insertRecursive_spec t.splits k v t.root t.ordered bot_le (WithTop.coe_lt_top k)

def put (t : MVTree K V) (k : K) (v : V) : MVTree K V where
  root := newRoot (t.root.insertRecursive t.maxEntriesPerPage k v)
  maxEntriesPerPage := t.maxEntriesPerPage
  splits := t.splits
  ordered := (newRoot_spec (t.insert_spec k v).1).1

def remove (t : MVTree K V) (k : K) : MVTree K V × Option V :=
  match (t.root.removeRecursive k).2 with
  | none => (t, none)
  | some v => ({ t with
      root := (t.root.removeRecursive k).1
      ordered := (Page.removeRecursive_spec k t.root t.ordered).1 }, some v)

/-! ## The meaning of a tree -/

theorem sorted_scanAll (t : MVTree K V) : Page.SortedEntries t.scanAll :=
  (Page.Ordered.within t.root t.ordered).1

theorem get_eq_leafGet (t : MVTree K V) (k : K) : t.get k = Page.leafGet t.scanAll k :=
  Page.get_eq_leafGet k t.root t.ordered

theorem scanAll_put (t : MVTree K V) (k : K) (v : V) :
    (t.put k v).scanAll = Page.leafPut t.scanAll k v := by
  obtain ⟨hord, hcol⟩ := t.insert_spec k v
  rw [scanAll, put, (newRoot_spec hord).2, hcol, scanAll]

@[simp] theorem get_empty (k : K) : (empty : MVTree K V).get k = none := by
  rw [get_eq_leafGet]
  rfl

theorem get_put (t : MVTree K V) (k : K) (v : V) (k' : K) :
    (t.put k v).get k' = if k' = k then some v else t.get k' := by
  rw [get_eq_leafGet, get_eq_leafGet, scanAll_put, Page.leafGet_leafPut]

theorem remove_snd (t : MVTree K V) (k : K) : (t.remove k).2 = t.get k := by
  have h := (Page.removeRecursive_spec k t.root t.ordered).2.2
  rw [get_eq_leafGet, scanAll, ← h]
  unfold remove
  cases (t.root.removeRecursive k).2 <;> rfl

theorem get_remove (t : MVTree K V) (k k' : K) :
    (t.remove k).1.get k' = if k' = k then none else t.get k' := by
  obtain ⟨_, hcol, hold⟩ := Page.removeRecursive_spec k t.root t.ordered
  have hget := t.get_eq_leafGet k
  unfold remove
  cases hrem : (t.root.removeRecursive k).2 with
  | none =>
    change t.get k' = _
    by_cases hk : k' = k
    · rw [if_pos hk, hk, hget, scanAll, ← hold, hrem]
    · rw [if_neg hk]
  | some v =>
    rw [get_eq_leafGet, get_eq_leafGet t k']
    change Page.leafGet (t.root.removeRecursive k).1.collectEntries k' = _
    rw [hcol]
    exact Page.leafGet_leafRemove t.sorted_scanAll k k'

theorem mem_scanAll (t : MVTree K V) (k : K) (v : V) :
    ⟨k, v⟩ ∈ t.scanAll ↔ t.get k = some v := by
  rw [get_eq_leafGet]
  exact ⟨fun h => Page.leafGet_of_mem t.sorted_scanAll h, Page.mem_of_leafGet⟩

end MVTree

end H2Database.Mvstore
