import Mathlib.Data.List.Nodup
import H2Database.Sql.Mirror

/-!
# Row numbers (`h2-sql/src/catalog.rs`)

A public table has its next row number twice, in the definition under its name and in the one under its
full name.  `allocate_row_id` counts in the definition it finds; `update_approx_row_count` and
`update_table_stats` copy a definition and write the copy back under both keys.  A `RowIdSystem`
interleaves allocations with these reads and writes.
-/

namespace H2Database.Sql

open Reasoning Mvstore List Option Function Nat

namespace Catalog

variable (cat : Catalog)

def createTable (schemas views : List String) (t : TableDef) : H2Result Catalog :=
  if t.schema ∉ schemas then .error (.catalog s!"Schema '{t.schema}' does not exist")
  else if t.fullName ∈ views ∨ t.name ∈ views then
    .error (.catalog s!"Cannot create table '{t.name}': view with same name exists")
  else if cat.containsKey t.fullName || (t.schema = "public" && cat.containsKey t.name) then
    .error (.catalog s!"Table '{t.name}' already exists")
  else if t.schema = "public" then
    .ok { cat with tables := (t.fullName, t) :: (t.name, t) :: cat.tables }
  else .ok { cat with tables := (t.fullName, t) :: cat.tables }

/-- `get_table`: a definition with the next row number it has under its key. -/
def fetchTable (counters : Counters) (name : String) : Option (TableDef × UInt64) :=
  (cat.tableKey name).bind fun key => (cat.tables.lookup key).map fun t => (t, counters key)

/-- The row number of a written definition counts under both keys of its table. -/
def updateTable (counters : Counters) (t : TableDef) (nextRowId : UInt64) : H2Result Counters :=
  if !cat.containsKey t.name && !cat.containsKey t.fullName then
    .error (.catalog s!"Table '{t.name}' not found")
  else
    let written := Function.update counters t.fullName nextRowId
    .ok (if t.schema = "public" then Function.update written t.name nextRowId else written)

def IsKeyOf (t : TableDef) (key : String) : Prop :=
  key = t.fullName ∨ t.schema = "public" ∧ key = t.name

instance (t : TableDef) (key : String) : Decidable (IsKeyOf t key) := inferInstanceAs (Decidable (_ ∨ _))

/-- Every definition is filed under keys of its own, and under all of them. -/
structure Filed : Prop where
  own : ∀ key t, cat.tables.lookup key = some t → IsKeyOf t key
  all : ∀ key t, cat.tables.lookup key = some t → ∀ key', IsKeyOf t key' →
    cat.tables.lookup key' = some t

variable {cat}

theorem lookup_cons_eq_ite (key key' : String) (t : TableDef) (tables : List (String × TableDef)) :
    ((key', t) :: tables).lookup key = if key = key' then some t else tables.lookup key := by
  rw [lookup_cons]
  split_ifs with h
  · rw [h, beq_self_eq_true]
  · rw [beq_false_of_ne h]

variable {key : String}

theorem lookup_of_not_containsKey (h : ¬cat.containsKey key = true) :
    cat.tables.lookup key = none :=
  not_isSome_iff_eq_none.mp h

variable {t : TableDef}

theorem containsKey_fullName (hcat : cat.Filed)
    (h : cat.tables.lookup key = some t) : cat.containsKey t.fullName = true := by
  rw [containsKey, hcat.all key t h t.fullName (.inl rfl)]
  rfl

variable {schemas views : List String}

theorem createTable_ok {cat' : Catalog} (h : cat.createTable schemas views t = .ok cat') (key : String) :
    (cat'.tables.lookup key = if IsKeyOf t key then some t else cat.tables.lookup key) ∧
      (IsKeyOf t key → cat.tables.lookup key = none) := by
  unfold createTable at h
  split_ifs at h with _ _ hexists hpublic
  all_goals
    cases h
    rw [Bool.or_eq_true, not_or] at hexists
    have hfull := lookup_of_not_containsKey hexists.1
  · have hname : cat.tables.lookup t.name = none :=
      lookup_of_not_containsKey fun h => hexists.2 (by rw [h, hpublic]; rfl)
    refine ⟨?_, fun hkey => hkey.elim (fun h => h ▸ hfull) fun h => h.2 ▸ hname⟩
    rw [lookup_cons_eq_ite, lookup_cons_eq_ite]
    by_cases h1 : key = t.fullName
    · rw [if_pos h1, if_pos (show IsKeyOf t key from Or.inl h1)]
    · by_cases h2 : key = t.name
      · rw [if_neg h1, if_pos h2, if_pos (show IsKeyOf t key from Or.inr ⟨hpublic, h2⟩)]
      · rw [if_neg h1, if_neg h2]
        exact (if_neg fun h : IsKeyOf t key => h.elim h1 fun h => h2 h.2).symm
  · refine ⟨?_, fun hkey => hkey.elim (fun h => h ▸ hfull) fun h => absurd h.1 hpublic⟩
    rw [lookup_cons_eq_ite]
    by_cases h1 : key = t.fullName
    · rw [if_pos h1, if_pos (show IsKeyOf t key from Or.inl h1)]
    · rw [if_neg h1]
      exact (if_neg fun h : IsKeyOf t key => h.elim h1 fun h => hpublic h.1).symm

theorem Filed.createTable (hcat : cat.Filed)
    {cat' : Catalog} (h : cat.createTable schemas views t = .ok cat') : cat'.Filed := by
  have hlookup := createTable_ok h
  constructor
  · intro key t' ht'
    rw [(hlookup key).1] at ht'
    split_ifs at ht' with hkey
    · cases ht'
      exact hkey
    · exact hcat.own key t' ht'
  · intro key t' ht' key' hkey'
    rw [(hlookup key).1] at ht'
    rw [(hlookup key').1]
    split_ifs at ht' with hkey
    · cases ht'
      rw [if_pos hkey']
    · -- a table that was there has none of the new keys
      have hold := hcat.all key t' ht' key' hkey'
      rw [if_neg fun hnew => by rw [(hlookup key').2 hnew] at hold; cases hold]
      exact hold

theorem filed_empty (indexes : List IndexDef) : (⟨[], indexes⟩ : Catalog).Filed :=
  ⟨fun _ _ h => (by cases h), fun _ _ h => (by cases h)⟩

theorem Filed.eq_of_isKeyOf (hcat : cat.Filed) {key₁ key₂ key : String} {t₁ t₂ : TableDef}
    (h₁ : cat.tables.lookup key₁ = some t₁) (h₂ : cat.tables.lookup key₂ = some t₂)
    (hkey₁ : IsKeyOf t₁ key) (hkey₂ : IsKeyOf t₂ key) : t₁ = t₂ :=
  Option.some.inj ((hcat.all key₁ t₁ h₁ key hkey₁).symm.trans (hcat.all key₂ t₂ h₂ key hkey₂))

theorem fetchTable_eq_some {counters : Counters} {name : String} {n : UInt64}
    (h : cat.fetchTable counters name = some (t, n)) :
    ∃ key, cat.tableKey name = some key ∧ cat.tables.lookup key = some t ∧ n = counters key := by
  obtain ⟨key, hkey, h⟩ := bind_eq_some_iff.mp h
  obtain ⟨t', ht', heq⟩ := map_eq_some_iff.mp h
  cases heq
  exact ⟨key, hkey, ht', rfl⟩

theorem updateTable_ok (hcat : cat.Filed)
    (ht : cat.tables.lookup key = some t) (counters : Counters) (n : UInt64) :
    cat.updateTable counters t n = .ok fun key => if IsKeyOf t key then n else counters key := by
  rw [updateTable, containsKey_fullName hcat ht, Bool.not_true, Bool.and_false,
    if_neg Bool.false_ne_true]
  refine congrArg _ (funext fun key => ?_)
  split_ifs with hpublic hkey hkey
  · rcases hkey with hfull | ⟨-, hname⟩
    · rw [hfull, update_apply, update_self]
      split_ifs <;> rfl
    · rw [hname, update_self]
  · rw [update_of_ne fun h => hkey (.inr ⟨hpublic, h⟩),
      update_of_ne fun h => hkey (.inl h)]
  · rw [hkey.resolve_right fun h => hpublic h.1, update_self]
  · exact update_of_ne (fun h => hkey (.inl h)) _ _

theorem updateApproxRowCount_eq (hcat : cat.Filed) (counters : Counters) (name : String) :
    (.ok (cat.updateApproxRowCount counters name) : H2Result Counters) =
      match cat.fetchTable counters name with
      | none => .ok counters
      | some (t, n) => cat.updateTable counters t n := by
  unfold updateApproxRowCount fetchTable
  cases hkey : cat.tableKey name with
  | none => rfl
  | some key =>
    cases ht : cat.tables.lookup key with
    | none => simp only [bind_some, ht, map_none]
    | some t =>
      simp only [bind_some, ht, map_some]
      rw [updateTable, containsKey_fullName hcat ht, Bool.not_true, Bool.and_false,
        if_neg Bool.false_ne_true]

end Catalog

/-! ## Sessions that allocate and write back -/

/-- `held` is what a session has read and not written back yet; `issued` the row numbers handed out,
newest first, with the full names of their tables. -/
structure RowIdSystem where
  counters : Counters
  held : Nat → Option (TableDef × UInt64)
  issued : List (String × UInt64)

inductive RowIdAction where
  | allocate (name : String)
  | read (session : Nat) (name : String)
  | write (session : Nat)

namespace RowIdSystem

def new (counters : Counters) : RowIdSystem := ⟨counters, fun _ => none, []⟩

def step (cat : Catalog) (s : RowIdSystem) : RowIdAction → RowIdSystem
  | .allocate name =>
    match cat.allocateRowId s.counters name, cat.getTable name with
    | .ok (id, counters), some t =>
      { s with counters := counters, issued := (t.fullName, id) :: s.issued }
    | _, _ => s
  | .read session name =>
    { s with held := Function.update s.held session (cat.fetchTable s.counters name) }
  | .write session =>
    match s.held session with
    | none => s
    | some (t, n) => { s with
        counters := (cat.updateTable s.counters t n).toOption.getD s.counters
        held := Function.update s.held session none }

def idsOf (s : RowIdSystem) (fullName : String) : List UInt64 :=
  (s.issued.filter fun p => p.1 = fullName).map Prod.snd

def nextRowId (s : RowIdSystem) (t : TableDef) : Nat :=
  if t.schema = "public" then max (s.counters t.fullName).toNat (s.counters t.name).toNat
  else (s.counters t.fullName).toNat

/-- An allocation counts where the larger number is, and the last one is not taken; what is written back
has not been overtaken. -/
def Current (cat : Catalog) (s : RowIdSystem) : RowIdAction → Prop
  | .allocate name => ∀ key t, cat.tableKey name = some key → cat.tables.lookup key = some t →
    s.nextRowId t ≤ (s.counters key).toNat ∧ s.counters key ≠ 0xFFFFFFFFFFFFFFFF
  | .read _ _ => True
  | .write session => ∀ t n, s.held session = some (t, n) → s.nextRowId t ≤ n.toNat

variable {cat : Catalog} {s : RowIdSystem}

theorem counters_le_nextRowId {t : TableDef} {key : String} (h : Catalog.IsKeyOf t key) :
    (s.counters key).toNat ≤ s.nextRowId t := by
  unfold nextRowId
  rcases h with rfl | ⟨hpublic, rfl⟩
  · split_ifs
    · exact le_max_left _ _
    · exact le_refl _
  · rw [if_pos hpublic]
    exact le_max_right _ _

theorem nextRowId_congr {s' : RowIdSystem} {t : TableDef}
    (h : ∀ key, Catalog.IsKeyOf t key → s'.counters key = s.counters key) :
    s'.nextRowId t = s.nextRowId t := by
  unfold nextRowId
  split_ifs with hpublic
  · rw [h _ (.inl rfl), h _ (.inr ⟨hpublic, rfl⟩)]
  · rw [h _ (.inl rfl)]

/-- Row numbers that were handed out are behind the next one of their table, and none was twice. -/
structure Sound (cat : Catalog) (s : RowIdSystem) : Prop where
  behind : ∀ key t, cat.tables.lookup key = some t → ∀ id, (t.fullName, id) ∈ s.issued →
    id.toNat < s.nextRowId t
  held : ∀ session t n, s.held session = some (t, n) → ∃ key, cat.tables.lookup key = some t
  once : s.issued.Nodup

theorem sound_new (cat : Catalog) (counters : Counters) : (new counters).Sound cat where
  behind _ _ _ _ h := by cases h
  held _ _ _ h := by cases h
  once := nodup_nil

theorem lt_succ_of_ne_max {n : UInt64} (h : n ≠ 0xFFFFFFFFFFFFFFFF) : n.toNat < (n + 1).toNat := by
  have hmax : n.toNat ≠ 0xFFFFFFFFFFFFFFFF := fun heq => h (UInt64.toNat_inj.mp heq)
  have hlt : n.toNat < 2 ^ 64 := UInt64.toNat_lt n
  rw [UInt64.toNat_add]
  change n.toNat < (n.toNat + 1) % 2 ^ 64
  rw [mod_eq_of_lt (by omega)]
  omega

theorem Sound.step (hcat : cat.Filed) (h : s.Sound cat) {a : RowIdAction} (hc : s.Current cat a) :
    (s.step cat a).Sound cat := by
  cases a with
  | allocate name =>
    unfold RowIdSystem.step
    dsimp only
    split
    · rename_i id counters t hid ht
      obtain ⟨key, hkey, hlookup⟩ := bind_eq_some_iff.mp ht
      have hown := hcat.own key t hlookup
      obtain ⟨htop, hmax⟩ := hc key t hkey hlookup
      unfold Catalog.allocateRowId at hid
      rw [hkey] at hid
      cases hid
      set s' : RowIdSystem := { s with
        counters := Function.update s.counters key (s.counters key + 1)
        issued := (t.fullName, s.counters key) :: s.issued } with hs'
      have hnext : (s.counters key).toNat < s'.nextRowId t := calc
        (s.counters key).toNat < (s.counters key + 1).toNat := lt_succ_of_ne_max hmax
        _ = (s'.counters key).toNat := congrArg UInt64.toNat (update_self key _ s.counters).symm
        _ ≤ s'.nextRowId t := counters_le_nextRowId hown
      refine ⟨fun key₂ t₂ h₂ id hmem => ?_, h.held, nodup_cons.mpr ⟨fun hmem => ?_, h.once⟩⟩
      · by_cases heq : t₂ = t
        · subst heq
          rcases mem_cons.mp hmem with hid | hold
          · cases hid
            exact hnext
          · exact lt_trans (lt_of_lt_of_le (h.behind key₂ t₂ h₂ id hold) htop) hnext
        · -- the other table has another full name and keeps its counters
          have hne : ∀ key', Catalog.IsKeyOf t₂ key' → key' ≠ key := by
            rintro key' hkey' rfl
            exact heq (hcat.eq_of_isKeyOf h₂ hlookup hkey' hown)
          rw [nextRowId_congr fun key' hkey' => update_of_ne (hne key' hkey') _ s.counters]
          refine h.behind key₂ t₂ h₂ id ((mem_cons.mp hmem).resolve_left fun hid => ?_)
          have hname : t₂.fullName = t.fullName := congrArg Prod.fst hid
          exact heq (hcat.eq_of_isKeyOf h₂ hlookup (.inl rfl) (.inl hname))
      · exact lt_irrefl _ (lt_of_lt_of_le (h.behind key t hlookup _ hmem) htop)
    · exact h
  | read session name =>
    refine ⟨h.behind, fun session' t n hheld => ?_, h.once⟩
    change Function.update s.held session (cat.fetchTable s.counters name) session' = _ at hheld
    by_cases heq : session' = session
    · rw [heq, update_self] at hheld
      obtain ⟨key, -, hkey, -⟩ := Catalog.fetchTable_eq_some hheld
      exact ⟨key, hkey⟩
    · rw [update_of_ne heq] at hheld
      exact h.held session' t n hheld
  | write session =>
    unfold RowIdSystem.step
    dsimp only
    split
    · exact h
    · rename_i t n hheld
      obtain ⟨key, hkey⟩ := h.held session t n hheld
      have hle := hc t n hheld
      rw [Catalog.updateTable_ok hcat hkey]
      dsimp only [Except.toOption, getD_some]
      refine ⟨fun key₂ t₂ h₂ id hmem => ?_, fun session' t' n' hheld' => ?_, h.once⟩
      · by_cases heq : t₂ = t
        · subst heq
          refine lt_of_lt_of_le (h.behind key₂ t₂ h₂ id hmem) (le_trans hle ?_)
          refine le_trans (le_of_eq ?_) (counters_le_nextRowId (.inl rfl))
          exact congrArg UInt64.toNat (if_pos (.inl rfl : Catalog.IsKeyOf t₂ t₂.fullName)).symm
        · rw [nextRowId_congr fun key' hkey' => if_neg fun hkey'' =>
            heq (hcat.eq_of_isKeyOf h₂ hkey hkey' hkey'')]
          exact h.behind key₂ t₂ h₂ id hmem
      · change Function.update s.held session none session' = _ at hheld'
        by_cases heq : session' = session
        · rw [heq, update_self] at hheld'
          cases hheld'
        · rw [update_of_ne heq] at hheld'
          exact h.held session' t' n' hheld'

end RowIdSystem

/-- Where every allocation counts on from the larger number and nothing overtaken is written back, no
row number is handed out twice for a table, and the keys of its new rows are different. -/
theorem rowIds_unique {cat : Catalog} (hcat : cat.Filed) (counters : Counters) {as : List RowIdAction}
    (hcurrent : Meets (RowIdSystem.step cat) (RowIdSystem.Current cat) (.new counters) as)
    (fullName : String) :
    ((runs (RowIdSystem.step cat) (.new counters) as).idsOf fullName).Nodup ∧
      (((runs (RowIdSystem.step cat) (.new counters) as).idsOf fullName).map rowKey).Nodup := by
  have hsound : (runs (RowIdSystem.step cat) (.new counters) as).Sound cat :=
    invariant_runs (fun _ _ h hc => h.step hcat hc) (RowIdSystem.sound_new cat counters) hcurrent
  have hids : ((runs (RowIdSystem.step cat) (.new counters) as).idsOf fullName).Nodup := by
    refine List.Nodup.map_on (fun p hp q hq heq => ?_) (hsound.once.filter _)
    have hp' := (mem_filter.mp hp).2
    have hq' := (mem_filter.mp hq).2
    exact Prod.ext ((of_decide_eq_true hp').trans (of_decide_eq_true hq').symm) heq
  exact ⟨hids, hids.map (Function.LeftInverse.injective keyRowId_rowKey)⟩

def bareTable : TableDef := ⟨"t", "public", [], []⟩

def bareCatalog : Catalog := ⟨[("public.t", bareTable), ("t", bareTable)], []⟩

theorem filed_bareCatalog : bareCatalog.Filed := by
  have hcreated : Catalog.createTable ⟨[], []⟩ ["public"] [] bareTable = .ok bareCatalog := rfl
  exact (Catalog.filed_empty []).createTable hcreated

/-- The count of one spelling is written back before the other one is used. -/
def countKept : List RowIdAction := [.allocate "t", .read 0 "t", .write 0, .allocate "public.t"]

theorem rowIds_unique_countKept :
    ((runs (RowIdSystem.step bareCatalog) (.new fun _ => 1) countKept).idsOf "public.t").Nodup ∧
      (((runs (RowIdSystem.step bareCatalog) (.new fun _ => 1) countKept).idsOf "public.t").map
        rowKey).Nodup := by
  have hcurrent : Meets (RowIdSystem.step bareCatalog) (RowIdSystem.Current bareCatalog)
      (.new fun _ => 1) countKept := by
    refine ⟨?_, trivial, ?_, ?_, trivial⟩
    · intro key t hkey ht
      cases hkey.symm.trans (by decide +kernel : bareCatalog.tableKey "t" = some "t")
      cases ht.symm.trans (by rfl : bareCatalog.tables.lookup "t" = some bareTable)
      exact ⟨by decide +kernel, by decide +kernel⟩
    · intro t n hheld
      cases hheld
      decide +kernel
    · intro key t hkey ht
      cases hkey.symm.trans (by decide +kernel : bareCatalog.tableKey "public.t" = some "public.t")
      cases ht.symm.trans (by rfl : bareCatalog.tables.lookup "public.t" = some bareTable)
      exact ⟨by decide +kernel, by decide +kernel⟩
  exact rowIds_unique filed_bareCatalog _ hcurrent _

/-- One allocation under each spelling: both get row number 1. -/
theorem spellings_share_rowId : ¬∀ as : List RowIdAction,
    ((runs (RowIdSystem.step bareCatalog) (.new fun _ => 1) as).idsOf "public.t").Nodup := by
  intro h
  have hids : (runs (RowIdSystem.step bareCatalog) (.new fun _ => 1)
      [.allocate "t", .allocate "public.t"]).idsOf "public.t" = [1, 1] := by decide +kernel
  have hnodup := h [.allocate "t", .allocate "public.t"]
  rw [hids] at hnodup
  exact absurd hnodup (by decide)

end H2Database.Sql
