import H2Database.Reasoning.Lists
import H2Database.Reasoning.Merging
import H2Database.Sql.IndexEntries
import H2Database.Sql.Careful
import H2Database.Sql.RowWrites
import Mathlib.Algebra.Order.BigOperators.Group.List

/-!
# Head truncation of queues (`h2-sql/src/executor/admin.rs`)

`purge_queue_retention` takes away the messages that are too old and then, from the front, as many as are too
much for the byte limit.
-/

namespace H2Database.Sql

open Reasoning Mvstore List

/-! ## The messages -/

/-- What of the definition of a queue says how long messages stay. -/
structure QueueTable where
  table : TableDef
  isQueue : Bool
  retentionDurationMs : Option UInt64
  maxBytes : Option UInt64

structure QueueRowItem where
  key : Key
  offset : Int64
  timestampMs : Int64
  byteSize : Nat
  row : Row

/-- `timestamp_millis`. -/
def Timestamp.timestampMillis (ts : Timestamp) : Int64 :=
  Int64.ofInt (ts.secs.toInt * 1000 + (ts.nanos.toNat / 1000000 : Nat))

def messageOffset (key : Key) (row : Row) : Int64 :=
  match (row[0]? : Option Value) with
  | some (.bigInt v) => v
  | _ => Int64.ofNat (keyRowId key).toNat

def messageTime (row : Row) : Int64 :=
  match (row[1]? : Option Value) with
  | some (.timestamp ts) => ts.timestampMillis
  | _ => 0

section

variable [Crates]

def queueRowItem (t : TableDef) (entry : Key × List UInt8) : H2Result QueueRowItem :=
  (t.readRow entry.2).map fun row =>
    ⟨entry.1, messageOffset entry.1 row, messageTime row, entry.1.length + entry.2.length, row⟩

def queueItems (t : TableDef) : List (Key × List UInt8) → H2Result (List QueueRowItem)
  | [] => .ok []
  | entry :: entries => do
    let item ← queueRowItem t entry
    let items ← queueItems t entries
    .ok (item :: items)

end

/-! ## Which of them go -/

def compareOffsets : QueueRowItem → QueueRowItem → Ordering := compareOn fun item => item.offset.toInt

instance transCmp_compareOffsets : Std.TransCmp compareOffsets :=
  inferInstanceAs (Std.TransCmp (compareOn fun item : QueueRowItem => item.offset.toInt))

def totalBytes (items : List QueueRowItem) : Nat := (items.map QueueRowItem.byteSize).sum

/-- `now_ms.saturating_sub(retention_ms as i64)`. -/
def cutoff (nowMs : Int64) (retentionMs : UInt64) : Int :=
  max (-2 ^ 63) (min (2 ^ 63 - 1) (nowMs.toInt - (Int64.ofNat retentionMs.toNat).toInt))

def isNew (purged : List QueueRowItem) (item : QueueRowItem) : Bool := purged.all fun p => p.key != item.key

def purgeByTime (items : List QueueRowItem) : Option Int → List QueueRowItem
  | none => []
  | some cutoff => items.foldl (fun purged item =>
    if item.timestampMs.toInt < cutoff ∧ isNew purged item = true then purged ++ [item] else purged) []

def purgeBySize (maxBytes : Nat) : Nat → List QueueRowItem → List QueueRowItem → List QueueRowItem
  | _, purged, [] => purged
  | current, purged, item :: items =>
    if current ≤ maxBytes then purged
    else if isNew purged item = true then
      purgeBySize maxBytes (current - item.byteSize) (purged ++ [item]) items
    else purgeBySize maxBytes current purged items

def toPurge (cutoff : Option Int) (maxBytes : Option Nat) (items : List QueueRowItem) : List QueueRowItem :=
  let old := purgeByTime items cutoff
  match maxBytes with
  | none => old
  | some b => purgeBySize b (totalBytes items - totalBytes old) old items

section

variable [Crates]

/-- On the table of the name, if there is one, with the indexes of the catalog on it. -/
def purgeQueueRetention (nowMs : Int64) (table : Option QueueTable) (indexes : List IndexDef) (view : View) :
    View × H2Result Nat :=
  match table with
  | none => (view, .ok 0)
  | some q =>
    if q.isQueue = false ∨ (q.retentionDurationMs = none ∧ q.maxBytes = none) then (view, .ok 0)
    else match queueItems q.table (view.seen.scan q.table.mapName) with
      | .error e => (view, .error e)
      | .ok items =>
        let purged := toPurge (q.retentionDurationMs.map (cutoff nowMs)) (q.maxBytes.map UInt64.toNat)
          (stableSort compareOffsets items)
        (purged.foldl (fun view item => dropRow view q.table indexes q.table.name item.key item.row) view,
          .ok purged.length)

end

/-! ## What is to stay -/

/-- No message is older than the cutoff, and together they are not too large. -/
def retained (cutoff : Option Int) (maxBytes : Option Nat) (items : List QueueRowItem) : Bool :=
  items.all (fun item => cutoff.all fun c => decide (c ≤ item.timestampMs.toInt)) &&
    maxBytes.all fun b => decide (totalBytes items ≤ b)

structure InOrder (items : List QueueRowItem) : Prop where
  keys : items.Pairwise fun a b => a.key ≠ b.key
  times : items.Pairwise fun a b => a.timestampMs.toInt ≤ b.timestampMs.toInt

theorem retained_nil (c : Option Int) (b : Option Nat) : retained c b [] = true := by
  cases b <;> rfl

variable {b : Option Nat}

theorem retained_of_subset {c : Option Int} {items kept : List QueueRowItem} (h : InOrder items)
    (hsub : items ⊆ kept) (hkept : retained c b kept = true) : retained c b items = true := by
  obtain ⟨htime, hsize⟩ := (Bool.and_eq_true _ _).mp hkept
  rw [all_eq_true] at htime
  refine (Bool.and_eq_true _ _).mpr ⟨all_eq_true.mpr fun item hin => htime item (hsub hin), ?_⟩
  have hnodup : items.Nodup := h.keys.imp fun hne heq => hne (congrArg _ heq)
  obtain ⟨front, hperm, hfront⟩ := subperm_of_subset hnodup hsub
  have hle : totalBytes items ≤ totalBytes kept := by
    rw [totalBytes, ← (hperm.map QueueRowItem.byteSize).sum_eq]
    exact (hfront.map _).sum_le_sum fun _ _ => Nat.zero_le _
  cases b with
  | none => rfl
  | some b => exact decide_eq_true (hle.trans (of_decide_eq_true hsize))

variable {items : List QueueRowItem}

theorem retained_cutoff {c c' : Option Int}
    (h : ∀ item ∈ items, c.all (fun c => decide (c ≤ item.timestampMs.toInt)) = true →
      c'.all (fun c => decide (c ≤ item.timestampMs.toInt)) = true) (hc : retained c b items = true) :
    retained c' b items = true := by
  obtain ⟨htime, hsize⟩ := (Bool.and_eq_true _ _).mp hc
  rw [all_eq_true] at htime
  exact (Bool.and_eq_true _ _).mpr ⟨all_eq_true.mpr fun item hin => h item hin (htime item hin), hsize⟩

theorem cutoff_le_of_lt {nowMs : Int64} {r : UInt64} (hr : r.toNat < 2 ^ 63) {ts : Int64}
    (h : nowMs.toInt - r.toNat ≤ ts.toInt) : cutoff nowMs r ≤ ts.toInt := by
  have hlow := Int64.le_toInt ts
  rw [cutoff, Int64.toInt_ofNat_of_lt hr]
  omega

theorem le_cutoff (nowMs : Int64) (r : UInt64) : nowMs.toInt - r.toNat ≤ cutoff nowMs r := by
  have hnow := Int64.toInt_lt nowMs
  have hsigned : (Int64.ofNat r.toNat).toInt ≤ r.toNat := by
    by_cases hr : r.toNat < 2 ^ 63
    · rw [Int64.toInt_ofNat_of_lt hr]
    · have := Int64.toInt_lt (Int64.ofNat r.toNat)
      omega
  rw [cutoff]
  omega

theorem totalBytes_append (as bs : List QueueRowItem) :
    totalBytes (as ++ bs) = totalBytes as + totalBytes bs := by
  rw [totalBytes, map_append, sum_append]
  rfl

variable {purged : List QueueRowItem}

theorem isNew_iff {item : QueueRowItem} :
    isNew purged item = true ↔ ∀ p ∈ purged, p.key ≠ item.key := by
  simp [isNew]

theorem foldl_purgeByTime {c : Int} (hkeys : items.Pairwise fun a b => a.key ≠ b.key)
    (hnew : ∀ item ∈ items, isNew purged item = true) :
    items.foldl (fun purged item =>
      if item.timestampMs.toInt < c ∧ isNew purged item = true then purged ++ [item] else purged) purged =
      purged ++ items.filter fun item => decide (item.timestampMs.toInt < c) := by
  induction items generalizing purged with
  | nil => rw [filter_nil, append_nil, foldl_nil]
  | cons item items ih =>
    obtain ⟨hitem, hkeys⟩ := pairwise_cons.mp hkeys
    obtain ⟨hfirst, hnew⟩ := forall_mem_cons.mp hnew
    rw [foldl_cons]
    by_cases hold : item.timestampMs.toInt < c
    · rw [if_pos ⟨hold, hfirst⟩, filter_cons_of_pos (by rwa [decide_eq_true_eq]), ih hkeys, append_assoc,
        singleton_append]
      intro next hnext
      rw [isNew_iff]
      intro p hp
      rcases mem_append.mp hp with hp | hp
      · exact isNew_iff.mp (hnew next hnext) p hp
      · exact mem_singleton.mp hp ▸ hitem next hnext
    · rw [if_neg fun h => hold h.1, filter_cons_of_neg (by rwa [decide_eq_true_eq]), ih hkeys hnew]

theorem purgeBySize_of_le {b current : Nat} (h : current ≤ b) (purged items : List QueueRowItem) :
    purgeBySize b current purged items = purged := by
  cases items with
  | nil => rfl
  | cons item items => rw [purgeBySize, if_pos h]

theorem purgeBySize_append {b current : Nat} {purged old : List QueueRowItem}
    (hold : ∀ item ∈ old, item ∈ purged)
    (items : List QueueRowItem) :
    purgeBySize b current purged (old ++ items) = purgeBySize b current purged items := by
  induction old with
  | nil => rfl
  | cons item old ih =>
    obtain ⟨hitem, hold⟩ := forall_mem_cons.mp hold
    by_cases hle : current ≤ b
    · rw [purgeBySize_of_le hle, purgeBySize_of_le hle]
    · rw [cons_append, purgeBySize, if_neg hle, if_neg fun h => isNew_iff.mp h item hitem rfl, ih hold]

theorem purgeBySize_append_longestSuffix {b : Nat} {purged items : List QueueRowItem}
    (hkeys : items.Pairwise fun a b => a.key ≠ b.key) (hnew : ∀ item ∈ items, isNew purged item = true) :
    purgeBySize b (totalBytes items) purged items ++
      longestSuffix (fun s => decide (totalBytes s ≤ b)) items =
      purged ++ items := by
  induction items generalizing purged with
  | nil => rfl
  | cons item items ih =>
    obtain ⟨hitem, hkeys⟩ := pairwise_cons.mp hkeys
    obtain ⟨hfirst, hnew⟩ := forall_mem_cons.mp hnew
    rw [longestSuffix]
    by_cases hle : totalBytes (item :: items) ≤ b
    · rw [purgeBySize_of_le hle, if_pos (by rwa [decide_eq_true_eq])]
    · have hrest : totalBytes (item :: items) - item.byteSize = totalBytes items :=
        Nat.add_sub_cancel_left _ _
      rw [purgeBySize, if_neg hle, if_pos hfirst, if_neg (by rwa [decide_eq_true_eq]), hrest, ih hkeys,
        append_assoc, singleton_append]
      intro next hnext
      rw [isNew_iff]
      intro p hp
      rcases mem_append.mp hp with hp | hp
      · exact isNew_iff.mp (hnew next hnext) p hp
      · exact mem_singleton.mp hp ▸ hitem next hnext

theorem filter_append_recent {c : Int}
    (htimes : items.Pairwise fun a b => a.timestampMs.toInt ≤ b.timestampMs.toInt) :
    ∃ recent, (items.filter fun item => decide (item.timestampMs.toInt < c)) ++ recent = items ∧
      ∀ item ∈ recent, c ≤ item.timestampMs.toInt := by
  induction items with
  | nil => exact ⟨[], rfl, forall_mem_nil _⟩
  | cons item items ih =>
    obtain ⟨hitem, htimes⟩ := pairwise_cons.mp htimes
    by_cases hold : item.timestampMs.toInt < c
    · obtain ⟨recent, heq, hrecent⟩ := ih htimes
      refine ⟨recent, ?_, hrecent⟩
      rw [filter_cons_of_pos (by rwa [decide_eq_true_eq]), cons_append, heq]
    · have hall : ∀ next ∈ item :: items, c ≤ next.timestampMs.toInt :=
        forall_mem_cons.mpr ⟨by omega, fun next hnext => by have := hitem next hnext; omega⟩
      refine ⟨item :: items, ?_, hall⟩
      rw [filter_eq_nil_iff.mpr, nil_append]
      intro next hnext
      rw [decide_eq_true_eq]
      have := hall next hnext
      omega

/-- What goes and what is to stay are the messages, in order. -/
theorem toPurge_append_longestSuffix (c : Option Int) (b : Option Nat)
    (h : InOrder items) : toPurge c b items ++ longestSuffix (retained c b) items = items := by
  -- the time rule takes a front of the messages
  obtain ⟨old, recent, heq, hold, hrecent, hgone⟩ : ∃ old recent, old ++ recent = items ∧
      (∀ item ∈ old, ∃ c', c = some c' ∧ item.timestampMs.toInt < c') ∧
      (∀ item ∈ recent, c.all (fun c => decide (c ≤ item.timestampMs.toInt)) = true) ∧
      purgeByTime items c = old := by
    cases c with
    | none => exact ⟨[], items, rfl, forall_mem_nil _, fun _ _ => rfl, rfl⟩
    | some c =>
      obtain ⟨recent, heq, hrecent⟩ := filter_append_recent h.times
      refine ⟨_, recent, heq, fun item hitem => ⟨c, rfl, ?_⟩, fun item hitem => ?_, ?_⟩
      · exact of_decide_eq_true (mem_filter.mp hitem).2
      · exact decide_eq_true (hrecent item hitem)
      · exact (foldl_purgeByTime h.keys fun _ _ => rfl).trans (nil_append _)
  subst heq
  have hkeys := pairwise_append.mp h.keys
  have hsuffix : longestSuffix (retained c b) (old ++ recent) =
      longestSuffix (fun s => b.all fun b => decide (totalBytes s ≤ b)) recent := by
    have hrest : longestSuffix (retained c b) recent = _ := longestSuffix_congr fun s hs => by
      rw [retained, all_eq_true.mpr fun item hitem => hrecent item (hs.subset hitem), Bool.true_and]
    rw [← hrest]
    clear hgone hkeys h
    induction old with
    | nil => rfl
    | cons item old ih =>
      obtain ⟨⟨c', rfl, hlt⟩, hold⟩ := forall_mem_cons.mp hold
      rw [cons_append, longestSuffix, if_neg, ih hold]
      simp only [retained, all_cons, Option.all_some,
        decide_eq_false (show ¬ c' ≤ item.timestampMs.toInt by omega),
        Bool.false_and, Bool.false_eq_true, not_false_eq_true]
  rw [hsuffix]
  unfold toPurge
  rw [hgone]
  cases b with
  | none => rw [longestSuffix_of_ok rfl]
  | some b =>
    have hnew : ∀ item ∈ recent, isNew old item = true := fun item hitem =>
      isNew_iff.mpr fun p hp => hkeys.2.2 p hp item hitem
    dsimp only
    rw [totalBytes_append, Nat.add_sub_cancel_left, purgeBySize_append fun _ h => h]
    exact purgeBySize_append_longestSuffix hkeys.2.1 hnew

theorem toPurge_of_retained {c : Option Int} (h : InOrder items)
    (hall : retained c b items = true) : toPurge c b items = [] := by
  have happend := toPurge_append_longestSuffix c b h
  rw [longestSuffix_of_ok hall] at happend
  exact append_cancel_right (happend.trans (nil_append _).symm)

/-! ## The removals -/

theorem get_writeAll_removes {ws : List Write} (hws : ∀ w ∈ ws, w.value = none) (view : View)
    (m : String) (k : Key) :
    (∃ w ∈ ws, m = w.mapName ∧ k = w.key) ∧ ((view.writeAll ws) m).get k = none ∨
    (∀ w ∈ ws, ¬ (m = w.mapName ∧ k = w.key)) ∧ ((view.writeAll ws) m).get k = (view m).get k := by
  induction ws generalizing view with
  | nil => exact .inr ⟨forall_mem_nil _, rfl⟩
  | cons w ws ih =>
    obtain ⟨hw, hws⟩ := forall_mem_cons.mp hws
    rcases ih hws (view.write w) with ⟨⟨w', hw', hat⟩, hnone⟩ | ⟨hno, hsame⟩
    · exact .inl ⟨⟨w', mem_cons_of_mem _ hw', hat⟩, hnone⟩
    · have hget : ((view.writeAll (w :: ws)) m).get k = (w.at m k).getD ((view m).get k) :=
        hsame.trans (View.get_write view w m k)
      rw [hget, Write.at_eq]
      by_cases hat : m = w.mapName ∧ k = w.key
      · rw [if_pos hat, hw]
        exact .inl ⟨⟨w, mem_cons_self, hat⟩, rfl⟩
      · rw [if_neg hat]
        exact .inr ⟨forall_mem_cons.mpr ⟨hat, hno⟩, rfl⟩

section

variable [Crates]

variable {t : TableDef} {entries : List (Key × List UInt8)}

theorem queueItems_eq_ok {items : List QueueRowItem} (h : queueItems t entries = .ok items) :
    List.Forall₂ (fun entry item => queueRowItem t entry = .ok item) entries items := by
  induction entries generalizing items with
  | nil =>
    cases h
    exact .nil
  | cons entry entries ih =>
    obtain ⟨item, hitem, h⟩ := H2Result.bind_eq_ok.mp h
    obtain ⟨items', hitems, h⟩ := H2Result.bind_eq_ok.mp h
    cases h
    exact .cons hitem (ih hitems)

theorem queueItems_isOk
    (h : ∀ entry ∈ entries, ∃ item, queueRowItem t entry = .ok item) :
      ∃ items, queueItems t entries = .ok items := by
  induction entries with
  | nil => exact ⟨[], rfl⟩
  | cons entry entries ih =>
    obtain ⟨⟨item, hitem⟩, h⟩ := forall_mem_cons.mp h
    obtain ⟨items, hitems⟩ := ih h
    exact ⟨item :: items, by rw [queueItems, hitem, hitems]; rfl⟩

variable {item : QueueRowItem}

theorem key_of_queueRowItem {entry : Key × List UInt8}
    (h : queueRowItem t entry = .ok item) : item.key = entry.1 := by
  obtain ⟨row, -, rfl⟩ := H2Result.map_eq_ok.mp h
  rfl

theorem keys_of_queueItems {items : List QueueRowItem}
    (h : queueItems t entries = .ok items) : items.map QueueRowItem.key = entries.map Prod.fst := by
  have hall := queueItems_eq_ok h
  clear h
  induction hall with
  | nil => rfl
  | cons hitem _ ih => rw [map_cons, map_cons, key_of_queueRowItem hitem, ih]

theorem mem_queueItems {items : List QueueRowItem}
    (h : queueItems t entries = .ok items) :
      (∀ entry ∈ entries, ∃ item ∈ items, queueRowItem t entry = .ok item) ∧
      ∀ item ∈ items, ∃ entry ∈ entries, queueRowItem t entry = .ok item := by
  have hall := queueItems_eq_ok h
  clear h
  induction hall with
  | nil => exact ⟨forall_mem_nil _, forall_mem_nil _⟩
  | cons hitem _ ih =>
    refine ⟨forall_mem_cons.mpr ⟨⟨_, mem_cons_self, hitem⟩, fun entry hentry => ?_⟩,
      forall_mem_cons.mpr ⟨⟨_, mem_cons_self, hitem⟩, fun item hin => ?_⟩⟩
    · obtain ⟨item, hin, hitem⟩ := ih.1 entry hentry
      exact ⟨item, mem_cons_of_mem _ hin, hitem⟩
    · obtain ⟨entry, hentry, hitem⟩ := ih.2 item hin
      exact ⟨entry, mem_cons_of_mem _ hentry, hitem⟩

def messageRemoves (t : TableDef) (indexes : List IndexDef) (item : QueueRowItem) : List Write :=
  indexRemoves t indexes t.name item.row (keyRowId item.key) ++ [.remove t.mapName item.key]

theorem foldl_dropRow (t : TableDef) (indexes : List IndexDef) (items : List QueueRowItem) (view : View) :
    items.foldl (fun view item => dropRow view t indexes t.name item.key item.row) view =
      view.writeAll (items.flatMap (messageRemoves t indexes)) := by
  induction items generalizing view with
  | nil => rfl
  | cons item items ih => rw [foldl_cons, ih, flatMap_cons, View.writeAll_append]; rfl

theorem value_messageRemoves {indexes : List IndexDef} {w : Write}
    (hw : w ∈ messageRemoves t indexes item) : w.value = none := by
  rcases mem_append.mp hw with hw | hw
  · obtain ⟨idx, -, hidx⟩ := mem_filterMap.mp hw
    obtain ⟨vals, -, rfl⟩ := Option.map_eq_some_iff.mp hidx
    rfl
  · rw [mem_singleton.mp hw]
    rfl

theorem eq_of_mem_messageRemoves {indexes : List IndexDef} {w : Write}
    (hw : w ∈ messageRemoves t indexes item) (hmap : w.mapName = t.mapName) : w.key = item.key := by
  rcases mem_append.mp hw with hw | hw
  · obtain ⟨spelled, idx, heq⟩ := entriesOnly_indexRemoves w hw
    obtain ⟨name, hname⟩ := mapName_eq t
    exact absurd (heq.symm.trans (hmap.trans hname)) (indexMapName_ne spelled name idx)
  · rw [mem_singleton.mp hw]
    rfl

/-! ## The purge -/

variable {q : QueueTable} {indexes : List IndexDef} {nowMs : Int64} {view : View} {items : List QueueRowItem}

/-- The messages of `kept` stay, the others go with their entries of indexes, and nothing else changes. -/
structure HeadTruncated (q : QueueTable) (indexes : List IndexDef) (view : View)
    (sorted kept : List QueueRowItem)
    (after : View × H2Result Nat) : Prop where
  suffix : kept <:+ sorted
  answer : after.2 = .ok (sorted.length - kept.length)
  stays : ∀ item ∈ kept, (after.1 q.table.mapName).get item.key = (view q.table.mapName).get item.key
  gone : ∀ item ∈ sorted, item ∉ kept → ∀ w ∈ messageRemoves q.table indexes item,
    (after.1 w.mapName).get w.key = none
  rest : ∀ m k, (∀ item ∈ sorted, item ∉ kept → ∀ w ∈ messageRemoves q.table indexes item,
    ¬ (m = w.mapName ∧ k = w.key)) → (after.1 m).get k = (view m).get k

def takenLimits (q : QueueTable) (nowMs : Int64) : List QueueRowItem → Bool :=
  retained (q.retentionDurationMs.map (cutoff nowMs)) (q.maxBytes.map UInt64.toNat)

def givenLimits (q : QueueTable) (nowMs : Int64) : List QueueRowItem → Bool :=
  retained (q.retentionDurationMs.map fun r => nowMs.toInt - r.toNat) (q.maxBytes.map UInt64.toNat)

theorem inOrder_sorted (hitems : queueItems q.table (view.seen.scan q.table.mapName) = .ok items)
    (htimes : ∀ a ∈ items, ∀ b ∈ items, a.offset.toInt ≤ b.offset.toInt →
      a.timestampMs.toInt ≤ b.timestampMs.toInt) :
    InOrder (stableSort compareOffsets items) where
  keys := by
    have hkeys : (items.map QueueRowItem.key).Nodup := keys_of_queueItems hitems ▸ view.nodup_scan _
    have hperm : (stableSort compareOffsets items).Perm items := stableSort_perm items
    exact pairwise_map.mp ((hperm.map QueueRowItem.key).nodup_iff.mpr hkeys)
  times := by
    have hmem : ∀ item, item ∈ stableSort compareOffsets items ↔ item ∈ items :=
      fun item => (stableSort_perm items).mem_iff
    refine (List.Pairwise.and_mem.mp (ordered_stableSort items)).imp ?_
    rintro a b ⟨ha, hb, hle⟩
    exact htimes a ((hmem a).mp ha) b ((hmem b).mp hb) (Std.isLE_compare.mp hle)

theorem purgeQueueRetention_eq (hqueue : q.isQueue = true) (nowMs : Int64) (indexes : List IndexDef)
    (hitems : queueItems q.table (view.seen.scan q.table.mapName) = .ok items) {purged : List QueueRowItem}
    (hpurged : toPurge (q.retentionDurationMs.map (cutoff nowMs)) (q.maxBytes.map UInt64.toNat)
      (stableSort compareOffsets items) = purged) :
    purgeQueueRetention nowMs (some q) indexes view =
      (view.writeAll (purged.flatMap (messageRemoves q.table indexes)), .ok purged.length) := by
  rw [purgeQueueRetention]
  split_ifs with hno
  · obtain ⟨htime, hsize⟩ := hno.resolve_left (by rw [hqueue]; exact Bool.noConfusion)
    rw [htime, hsize] at hpurged
    obtain rfl : [] = purged := hpurged
    rfl
  · rw [hitems]
    dsimp only
    rw [hpurged, foldl_dropRow]

theorem headTruncated_purgeQueueRetention (hqueue : q.isQueue = true) (nowMs : Int64)
    (indexes : List IndexDef)
    (hitems : queueItems q.table (view.seen.scan q.table.mapName) = .ok items)
    (horder : InOrder (stableSort compareOffsets items)) :
    HeadTruncated q indexes view (stableSort compareOffsets items)
      (longestSuffix (takenLimits q nowMs) (stableSort compareOffsets items))
      (purgeQueueRetention nowMs (some q) indexes view) := by
  have happend := toPurge_append_longestSuffix (q.retentionDurationMs.map (cutoff nowMs))
    (q.maxBytes.map UInt64.toNat) horder
  have heq := purgeQueueRetention_eq hqueue nowMs indexes hitems rfl
  rw [heq]
  change _ ++ longestSuffix (takenLimits q nowMs) _ = _ at happend
  generalize toPurge _ _ (stableSort compareOffsets items) = purged at happend
  generalize longestSuffix (takenLimits q nowMs) (stableSort compareOffsets items) = kept at happend
  generalize stableSort compareOffsets items = sorted at happend horder
  subst happend
  have hkeys := pairwise_append.mp horder.keys
  have hpurged : ∀ item ∈ purged ++ kept, item ∉ kept → item ∈ purged := fun item hin hout =>
    (mem_append.mp hin).resolve_right hout
  have hout : ∀ item ∈ purged, item ∉ kept := fun item hin hkept => hkeys.2.2 item hin item hkept rfl
  have hvalues : ∀ w ∈ purged.flatMap (messageRemoves q.table indexes), w.value = none := by
    intro w hw
    obtain ⟨item, -, hitem⟩ := mem_flatMap.mp hw
    exact value_messageRemoves hitem
  refine ⟨suffix_append _ _, by rw [length_append, Nat.add_sub_cancel], fun item hkept => ?_,
    fun item hin hnot w hw => ?_, fun m k hno => ?_⟩
  · rcases get_writeAll_removes hvalues view q.table.mapName item.key with ⟨⟨w, hw, hmap, hkey⟩, -⟩ |
      ⟨-, hsame⟩
    · obtain ⟨p, hp, hw⟩ := mem_flatMap.mp hw
      exact absurd ((eq_of_mem_messageRemoves hw hmap.symm).symm.trans hkey.symm) (hkeys.2.2 p hp item hkept)
    · exact hsame
  · rcases get_writeAll_removes hvalues view w.mapName w.key with ⟨-, hnone⟩ | ⟨hno, -⟩
    · exact hnone
    · exact absurd ⟨rfl, rfl⟩ (hno w (mem_flatMap.mpr ⟨item, hpurged item hin hnot, hw⟩))
  · rcases get_writeAll_removes hvalues view m k with ⟨⟨w, hw, hat⟩, -⟩ | ⟨-, hsame⟩
    · obtain ⟨p, hp, hw⟩ := mem_flatMap.mp hw
      exact absurd hat (hno p (mem_append_left _ hp) (hout p hp) w hw)
    · exact hsame

theorem purgeQueueRetention_again (hqueue : q.isQueue = true) (nowMs : Int64) (indexes : List IndexDef)
    (hitems : queueItems q.table (view.seen.scan q.table.mapName) = .ok items)
    (htimes : ∀ a ∈ items, ∀ b ∈ items, a.offset.toInt ≤ b.offset.toInt →
      a.timestampMs.toInt ≤ b.timestampMs.toInt) :
    purgeQueueRetention nowMs (some q) indexes (purgeQueueRetention nowMs (some q) indexes view).1 =
      ((purgeQueueRetention nowMs (some q) indexes view).1, .ok 0) := by
  have hcut := headTruncated_purgeQueueRetention hqueue nowMs indexes hitems (inOrder_sorted hitems htimes)
  generalize (purgeQueueRetention nowMs (some q) indexes view) = after at hcut
  obtain ⟨view', answer⟩ := after
  have hsorted : ∀ item, item ∈ stableSort compareOffsets items ↔ item ∈ items :=
    fun item => (stableSort_perm items).mem_iff
  -- what is left is what has stayed
  have hleft : ∀ entry ∈ view'.seen.scan q.table.mapName, ∃ item ∈ items,
    queueRowItem q.table entry = .ok item ∧
      item ∈ longestSuffix (takenLimits q nowMs) (stableSort compareOffsets items) := by
    rintro ⟨k, v⟩ hentry
    rw [View.mem_scan] at hentry
    have hsame := hcut.rest q.table.mapName k fun item hin hnot w hw hat => by
      have hnone := hcut.gone item hin hnot w hw
      rw [← hat.1, ← hat.2, hentry] at hnone
      cases hnone
    obtain ⟨item, hin, hitem⟩ :=
      (mem_queueItems hitems).1 (k, v) (View.mem_scan.mpr (hsame.symm.trans hentry))
    refine ⟨item, hin, hitem, ?_⟩
    by_contra hnot
    have hnone := hcut.gone item ((hsorted item).mpr hin) hnot (.remove q.table.mapName item.key)
      (mem_append_right _ mem_cons_self)
    rw [key_of_queueRowItem hitem] at hnone
    cases hnone.symm.trans hentry
  obtain ⟨items', hitems'⟩ := queueItems_isOk fun entry hentry =>
    (hleft entry hentry).imp fun _ h => h.2.1
  have hkept : ∀ item ∈ items', item ∈ items ∧
      item ∈ longestSuffix (takenLimits q nowMs) (stableSort compareOffsets items) := by
    intro item hin
    obtain ⟨entry, hentry, hitem⟩ := (mem_queueItems hitems').2 item hin
    obtain ⟨item', hin', hitem', hkept⟩ := hleft entry hentry
    obtain rfl := Except.ok.inj (hitem.symm.trans hitem')
    exact ⟨hin', hkept⟩
  have horder' := inOrder_sorted hitems' fun a ha b hb => htimes a (hkept a ha).1 b (hkept b hb).1
  have hretained : takenLimits q nowMs (stableSort compareOffsets items') = true :=
    retained_of_subset horder' (fun item hin => (hkept item ((stableSort_perm items').mem_iff.mp hin)).2)
      (ok_longestSuffix (retained_nil _ _) _)
  exact purgeQueueRetention_eq hqueue nowMs indexes hitems' (toPurge_of_retained horder' hretained)

/-- The queue is cut as it is to be if and only if the retention time is below 2^63 milliseconds, or no
message that is to stay is older than the cutoff that comes of it as a signed number. -/
theorem purgeQueueRetention_iff (hqueue : q.isQueue = true) (nowMs : Int64) (indexes : List IndexDef)
    (hitems : queueItems q.table (view.seen.scan q.table.mapName) = .ok items)
    (htimes : ∀ a ∈ items, ∀ b ∈ items, a.offset.toInt ≤ b.offset.toInt →
      a.timestampMs.toInt ≤ b.timestampMs.toInt) :
    (HeadTruncated q indexes view (stableSort compareOffsets items)
        (longestSuffix (givenLimits q nowMs) (stableSort compareOffsets items))
        (purgeQueueRetention nowMs (some q) indexes view) ∧
      purgeQueueRetention nowMs (some q) indexes (purgeQueueRetention nowMs (some q) indexes view).1 =
        ((purgeQueueRetention nowMs (some q) indexes view).1, .ok 0)) ↔
    ∀ r, q.retentionDurationMs = some r → 2 ^ 63 ≤ r.toNat →
      ∀ item ∈ longestSuffix (givenLimits q nowMs) (stableSort compareOffsets items),
        cutoff nowMs r ≤ item.timestampMs.toInt := by
  have hcut := headTruncated_purgeQueueRetention hqueue nowMs indexes hitems (inOrder_sorted hitems htimes)
  generalize stableSort compareOffsets items = sorted at hcut
  have hgiven : givenLimits q nowMs (longestSuffix (givenLimits q nowMs) sorted) = true :=
    ok_longestSuffix (retained_nil _ _) _
  constructor
  · rintro ⟨hgood, -⟩ r hr - item hin
    -- as many stay, and so the same
    have hsame : longestSuffix (takenLimits q nowMs) sorted = longestSuffix (givenLimits q nowMs) sorted := by
      have hlen := Except.ok.inj (hcut.answer.symm.trans hgood.answer)
      have hle := hcut.suffix.length_le
      have hle' := hgood.suffix.length_le
      exact (suffix_of_suffix_length_le hcut.suffix hgood.suffix (by omega)).eq_of_length (by omega)
    have htaken : takenLimits q nowMs (longestSuffix (takenLimits q nowMs) sorted) = true :=
      ok_longestSuffix (retained_nil _ _) _
    rw [hsame, takenLimits, retained, hr, Bool.and_eq_true, all_eq_true] at htaken
    exact of_decide_eq_true (htaken.1 item hin)
  · intro hcond
    refine ⟨?_, purgeQueueRetention_again hqueue nowMs indexes hitems htimes⟩
    have hmore : longestSuffix (takenLimits q nowMs) sorted <:+ longestSuffix
        (givenLimits q nowMs) sorted := by
      apply suffix_longestSuffix (longestSuffix_suffix sorted)
      refine retained_cutoff (fun item _ h => ?_) (ok_longestSuffix (retained_nil _ _) sorted)
      cases hr : q.retentionDurationMs with
      | none => rfl
      | some r =>
        rw [hr] at h
        exact decide_eq_true ((le_cutoff nowMs r).trans (of_decide_eq_true h))
    have hless : longestSuffix (givenLimits q nowMs) sorted <:+ longestSuffix
        (takenLimits q nowMs) sorted := by
      apply suffix_longestSuffix (longestSuffix_suffix sorted)
      refine retained_cutoff (fun item hin h => ?_) hgiven
      cases hr : q.retentionDurationMs with
      | none => rfl
      | some r =>
        rw [hr] at h
        by_cases hlt : r.toNat < 2 ^ 63
        · exact decide_eq_true (cutoff_le_of_lt hlt (of_decide_eq_true h))
        · exact decide_eq_true (hcond r hr (by omega) item hin)
    exact hmore.eq_of_length_le hless.length_le ▸ hcut

end

/-! ## One message -/

attribute [local instance] plainCrates

def messageTable : TableDef :=
  ⟨"q", "public", [⟨"offset", .bigInt, none, none⟩, ⟨"timestamp", .timestamp, none, none⟩], []⟩

def messageRow : Row := [.bigInt 1, .timestamp ⟨1000, 0⟩]

def oneMessage : View := View.empty.write (.put messageTable.mapName (rowKey 1) messageRow.toBytes)

def firstMessage : QueueRowItem := ⟨rowKey 1, 1, 1000000, 8 + messageRow.toBytes.length, messageRow⟩

def queueKeeping (retentionMs : UInt64) : QueueTable := ⟨messageTable, true, some retentionMs, none⟩

theorem queueItems_oneMessage :
    queueItems messageTable (oneMessage.seen.scan messageTable.mapName) = .ok [firstMessage] := by
  rfl

theorem stableSort_firstMessage : stableSort compareOffsets [firstMessage] = [firstMessage] :=
  mergeSort_singleton _

def message (n secs : Int64) : QueueRowItem :=
  ⟨rowKey n.toUInt64, n, secs * 1000, 35, [.bigInt n, .timestamp ⟨secs, 0⟩]⟩

def messages : List QueueRowItem := [message 1 1000, message 2 5000, message 3 5001]

def threeMessages : View :=
  messages.foldl (fun view m => view.write (.put messageTable.mapName m.key m.row.toBytes)) View.empty

def hourly : QueueTable := ⟨messageTable, true, some 3600000, some 50⟩

/-- The first message is older than an hour, and of the others there is room for one. -/
theorem purgeQueueRetention_hour :
    HeadTruncated hourly [] threeMessages messages [message 3 5001]
        (purgeQueueRetention 5002000 (some hourly) [] threeMessages) ∧
      purgeQueueRetention 5002000 (some hourly) []
          (purgeQueueRetention 5002000 (some hourly) [] threeMessages).1 =
        ((purgeQueueRetention 5002000 (some hourly) [] threeMessages).1, .ok 0) := by
  have hitems : queueItems messageTable (threeMessages.seen.scan messageTable.mapName) = .ok messages := rfl
  have hsorted : stableSort compareOffsets messages = messages :=
    mergeSort_of_pairwise (by decide +kernel)
  have hkept : longestSuffix (givenLimits hourly 5002000) messages = [message 3 5001] := rfl
  have hcut := (@purgeQueueRetention_iff _ hourly threeMessages _ rfl 5002000 [] hitems
    (by decide +kernel)).mpr
    (by rintro r ⟨⟩ hlarge; exact absurd hlarge (by decide))
  rwa [hsorted, hkept] at hcut

/-- The longest retention time that there is purges it. -/
theorem purgeQueueRetention_longest :
    queueItems messageTable (oneMessage.seen.scan messageTable.mapName) = .ok [firstMessage] ∧
    ¬ HeadTruncated (queueKeeping 18446744073709551615)
      [] oneMessage (stableSort compareOffsets [firstMessage])
      (longestSuffix (givenLimits (queueKeeping 18446744073709551615) 1001000)
        (stableSort compareOffsets [firstMessage]))
      (purgeQueueRetention 1001000 (some (queueKeeping 18446744073709551615)) [] oneMessage) := by
  refine ⟨queueItems_oneMessage, fun h => ?_⟩
  have hanswer := h.answer
  rw [purgeQueueRetention_eq rfl 1001000 [] queueItems_oneMessage rfl, stableSort_firstMessage] at hanswer
  exact absurd (Except.ok.inj hanswer) (by decide +kernel)

end H2Database.Sql
