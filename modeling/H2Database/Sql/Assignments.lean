import H2Database.Reasoning.Assignments
import H2Database.Sql.NotNull
import Mathlib.Tactic.IntervalCases

/-!
# The `SET` clauses of `UPDATE` (`h2-sql/src/executor/statement.rs`)

There are three loops over the assignments.  That of `UPDATE ... FROM` evaluates every right-hand side on
the old row and the row that it was matched with; the one behind a scan and that of the fast path evaluate
it on the row that the assignments before it have already changed.
-/

namespace H2Database.Sql

open Reasoning List

section

variable {seen : Visible} {t : TableDef} {row : Row} {source : Row → Row} {upd : Update}

/-- `markDirty` as a last assignment. -/
def dirtyFlag (kind : TableKind) (row : Row) : List (Setter Value) :=
  match kind with
  | .cache _ => if 2 < row.length then [⟨2, fun _ => some (.boolean true)⟩] else []
  | _ => []

theorem map_markDirty (source : Row → Row) (kind : TableKind) {new : Row}
    (hlength : new.length = row.length) :
    some (markDirty kind new) = assignAll source new (dirtyFlag kind row) := by
  cases kind with
  | plain => rfl
  | queue => rfl
  | cache ttlMs =>
    rw [markDirty, dirtyFlag, hlength]
    split <;> rfl

theorem length_le_alignRow (t : TableDef) (raw : Row) : t.columns.length ≤ (t.alignRow raw).length := by
  unfold TableDef.alignRow
  split
  · rw [length_map]
  · rw [length_append, length_replicate]
    omega

theorem known_of_checkColumns (h : checkColumns t upd = .ok ()) :
    ∀ a ∈ upd.assignments, (t.columnIndex a.column).isSome := by
  rw [checkColumns, forM_eq_forM] at h
  generalize upd.assignments = assignments at h ⊢
  induction assignments with
  | nil => exact fun a ha => absurd ha not_mem_nil
  | cons a rest ih =>
    rw [forM_cons] at h
    obtain ⟨_, ha, hrest⟩ := H2Result.bind_eq_ok.mp h
    cases hcol : t.columnIndex a.column with
    | none =>
      rw [hcol] at ha
      cases ha
    | some i => exact forall_mem_cons.mpr ⟨by rw [hcol]; rfl, ih hrest⟩

theorem dirtyFlag_cases (kind : TableKind) (row : Row) :
    dirtyFlag kind row = [] ∨
      2 < row.length ∧ dirtyFlag kind row = [⟨2, fun _ => some (.boolean true)⟩] := by
  unfold dirtyFlag
  split
  · split
    next h => exact .inr ⟨h, rfl⟩
    next => exact .inl rfl
  · exact .inl rfl

theorem reassigned_dirtyFlag {old new : Row} {setters : List (Setter Value)}
    (hnew : Reassigned old row setters new)
    (hdirty : dirtyFlag kind row ≠ [] → new[2]? = some (.boolean true)) :
    Reassigned old row (setters ++ dirtyFlag kind row) new := by
  rcases dirtyFlag_cases kind row with hnil | ⟨hlt, hflag⟩
  · rwa [hnil, append_nil]
  · have htrue := hdirty (by rw [hflag]; exact cons_ne_nil _ _)
    rw [hflag]
    exact hnew.concat hlt htrue.symm

theorem dirty_of_assignAll {new : Row} {setters : List (Setter Value)}
    (h : assignAll source row (setters ++ dirtyFlag kind row) = some new) (hne : dirtyFlag kind row ≠ []) :
    new[2]? = some (.boolean true) := by
  rcases dirtyFlag_cases kind row with hnil | ⟨hlt, hflag⟩
  · exact absurd hnil hne
  · rw [hflag] at h
    obtain ⟨_, v, _, hv, hlast⟩ := assignAll_last h hlt
    cases hv
    exact hlast fun b hb => absurd hb not_mem_nil

theorem updateSource_none (h : updateSource seen upd none row = some source) :
    source = id := by
  unfold updateSource at h
  dsimp only at h
  split at h
  · exact (Option.some.inj h).symm
  · cases h

theorem updateSource_some {rows : List Row}
    (h : updateSource seen upd (some rows) row = some source) : ∃ combined, source = fun _ => combined := by
  unfold updateSource at h
  dsimp only at h
  split at h
  next combined _ => exact ⟨combined, (Option.some.inj h).symm⟩
  next => cases h

end

section

variable [Crates]

/-! ## Assignments as setters -/

def Assignment.setter (seen : Visible) (t : TableDef) (a : Assignment) : Setter Value where
  place := (t.columnIndex a.column).getD 0
  value row := do
    let i ← t.columnIndex a.column
    let v ← (a.value seen row).toOption
    (v.castTo ((t.columns[i]?.map ColumnDef.dataType).getD .blob)).toOption

variable {seen : Visible} {t : TableDef}

theorem toOption_assign {name : String} {source : Row → Row} {assignments : List Assignment}
    (hknown : ∀ a ∈ assignments, (t.columnIndex a.column).isSome) (row : Row) :
    (assign seen t name source row assignments).toOption =
      assignAll source row (assignments.map (Assignment.setter seen t)) := by
  induction assignments generalizing row with
  | nil => rfl
  | cons a rest ih =>
    obtain ⟨i, hi⟩ := Option.isSome_iff_exists.mp (hknown a mem_cons_self)
    have hrest := ih fun b hb => hknown b (mem_cons_of_mem _ hb)
    rw [assign, map_cons, assignAll]
    simp only [hi, Assignment.setter, Option.getD_some, Option.bind_eq_bind, Option.bind_some]
    cases a.value seen (source row) with
    | error e => rfl
    | ok v =>
      show (v.castTo _ >>= fun casted => assign seen t name source (row.set i casted) rest).toOption =
        ((v.castTo _).toOption).bind _
      cases v.castTo ((t.columns[i]?.map ColumnDef.dataType).getD .blob) with
      | error e => rfl
      | ok casted => exact hrest (row.set i casted)

variable {row : Row} {kind : TableKind} {source : Row → Row}

variable {upd : Update}

theorem rewrittenRow_eq_assignAll {others : Option (List Row)} {nowMs : Int64}
    (hlive : (kind = .queue || expired kind nowMs row) = false)
    (hselected : updateSource seen upd others row = some source)
    (hknown : ∀ a ∈ upd.assignments, (t.columnIndex a.column).isSome) :
    rewrittenRow seen t kind upd others nowMs row =
      assignAll source row (upd.assignments.map (Assignment.setter seen t) ++ dirtyFlag kind row) := by
  have hupdated : updatedRow seen upd t others row =
      (assign seen t upd.tableName source row upd.assignments).map some := by
    unfold updateSource at hselected
    unfold updatedRow
    cases others with
    | none =>
      dsimp only at hselected ⊢
      split at hselected
      next heq =>
        cases hselected
        rw [heq]
        rfl
      next => cases hselected
    | some rows =>
      dsimp only at hselected ⊢
      split at hselected
      next combined heq =>
        cases hselected
        rw [heq]
        rfl
      next => cases hselected
  rw [rewrittenRow, if_neg (by rw [hlive]; exact Bool.false_ne_true), hupdated, assignAll_append,
    ← @toOption_assign _ seen t upd.tableName source _ hknown]
  cases hassign : assign seen t upd.tableName source row upd.assignments with
  | error e => rfl
  | ok new => exact map_markDirty source kind (assign_length hassign)

/-! ## Simultaneous assignment -/

theorem place_lt (hrow : t.columns.length ≤ row.length) {assignments : List Assignment}
    (hknown : ∀ a ∈ assignments, (t.columnIndex a.column).isSome) :
    ∀ s ∈ assignments.map (Assignment.setter seen t) ++ dirtyFlag kind row, s.place < row.length := by
  intro s hs
  rcases mem_append.mp hs with hs | hs
  · obtain ⟨a, ha, hsetter⟩ := mem_map.mp hs
    obtain ⟨i, hi⟩ := Option.isSome_iff_exists.mp (hknown a ha)
    have hlt : i < t.columns.length := (List.findIdx?_eq_some_iff_getElem.mp hi).1
    rw [← hsetter]
    show (t.columnIndex a.column).getD 0 < row.length
    rw [hi]
    exact Nat.lt_of_lt_of_le hlt hrow
  · unfold dirtyFlag at hs
    split at hs
    · split at hs
      next h =>
        rw [mem_singleton.mp hs]
        exact h
      next => cases hs
    · cases hs

theorem Reorders.setters {as bs : List Assignment}
    (h : Reorders (fun a : Assignment => t.columnIndex a.column) as bs)
    (hknown : ∀ a ∈ as, (t.columnIndex a.column).isSome) :
    Reorders Setter.place (as.map (Assignment.setter seen t)) (bs.map (Assignment.setter seen t)) := by
  have hplace {cs : List Assignment} (hcs : ∀ a ∈ cs, (t.columnIndex a.column).isSome) (p : Nat) :
      cs.filter (fun a => (a.setter seen t).place == p) =
        cs.filter (fun a => t.columnIndex a.column == some p) := by
    apply filter_congr
    intro a ha
    obtain ⟨i, hi⟩ := Option.isSome_iff_exists.mp (hcs a ha)
    show ((t.columnIndex a.column).getD 0 == p) = (t.columnIndex a.column == some p)
    rw [hi]
    rfl
  refine ⟨h.1.map _, fun p => ?_⟩
  have hbs : ∀ b ∈ bs, (t.columnIndex b.column).isSome := fun b hb => hknown b (h.1.mem_iff.mp hb)
  rw [filter_map, filter_map]
  apply congrArg (List.map _)
  exact (hplace hbs p).trans ((h.2 (some p)).trans (hplace hknown p).symm)

/-- In every order of the assignments to different columns `UPDATE` makes `new` of `row`. -/
def Simultaneous (seen : Visible) (t : TableDef) (kind : TableKind) (upd : Update)
    (others : Option (List Row)) (nowMs : Int64) (row new : Row) : Prop :=
  ∀ assignments, Reorders (fun a : Assignment => t.columnIndex a.column) upd.assignments assignments →
    rewrittenRow seen t kind { upd with assignments } others nowMs row = some new

/-- Without a `FROM` clause an `UPDATE` makes the claimed row, in every order of the assignments to different
columns, if no right-hand side notices which of the other columns have already been changed; where no column
is assigned twice, only then. -/
theorem update_simultaneous_iff {kind : TableKind} {upd : Update} {others : Option (List Row)}
    {nowMs : Int64} (raw : Row) {source : Row → Row} {new : Row}
    (hlive : (kind = .queue || expired kind nowMs (t.alignRow raw)) = false)
    (hselected : updateSource seen upd others (t.alignRow raw) = some source)
    (hcolumns : checkColumns t upd = .ok ())
    (hnew : Reassigned (source (t.alignRow raw)) (t.alignRow raw)
      (upd.assignments.map (Assignment.setter seen t)) new) :
    ((dirtyFlag kind (t.alignRow raw) ≠ [] → new[2]? = some (.boolean true)) ∧
        (others = none → Steady (t.alignRow raw) (upd.assignments.map (Assignment.setter seen t))) →
      Simultaneous seen t kind upd others nowMs (t.alignRow raw) new) ∧
    (Simultaneous seen t kind upd others nowMs (t.alignRow raw) new →
      (dirtyFlag kind (t.alignRow raw) ≠ [] → new[2]? = some (.boolean true)) ∧
        (others = none →
          ((upd.assignments.map (Assignment.setter seen t) ++
            dirtyFlag kind (t.alignRow raw)).map Setter.place).Nodup →
          Steady (t.alignRow raw) (upd.assignments.map (Assignment.setter seen t)))) := by
  have hrow := length_le_alignRow t raw
  generalize t.alignRow raw = row at hlive hselected hnew hrow ⊢
  have hknown := known_of_checkColumns hcolumns
  have hmakes {assignments : List Assignment} (hperm : assignments.Perm upd.assignments) :
      rewrittenRow seen t kind { upd with assignments } others nowMs row =
        assignAll source row (assignments.map (Assignment.setter seen t) ++ dirtyFlag kind row) := by
    apply rewrittenRow_eq_assignAll hlive
    · exact hselected
    · exact fun a ha => hknown a (hperm.mem_iff.mp ha)
  constructor
  · rintro ⟨hdirty, hsteady⟩ assignments hreorders
    have hsetters := @Reorders.setters _ seen _ _ _ hreorders hknown
    rw [hmakes hreorders.1, assignAll_eq_some_iff (reassigned_dirtyFlag (hnew.reorder hsetters) hdirty)
      (place_lt hrow fun a ha => hknown a (hreorders.1.mem_iff.mp ha))]
    cases others with
    | none =>
      have hid := updateSource_none hselected
      subst hid
      have hturns := (hsteady rfl).inTurn hsetters hnew.defined
      rcases dirtyFlag_cases kind row with hnil | ⟨_, hflag⟩
      · rwa [hnil, append_nil]
      · rw [hflag]
        exact hturns.concat fun _ => rfl
    | some rows =>
      obtain ⟨combined, hsource⟩ := updateSource_some hselected
      subst hsource
      apply inTurn_const
      exact reassigned_dirtyFlag (hnew.reorder hsetters) hdirty
  · intro h
    constructor
    · have hself := h upd.assignments (Reorders.refl _ _)
      rw [hmakes (List.Perm.refl _)] at hself
      exact dirty_of_assignAll hself
    · intro hnone hnodup
      rw [hnone] at hselected
      have hid := updateSource_none hselected
      subst hid
      apply steady_of_orders hnew
      · exact fun a ha => @place_lt _ seen _ _ kind hrow _ hknown a (mem_append_left _ ha)
      · exact hnodup
      · intro assignments hperm
        refine (hmakes hperm).symm.trans (h assignments (reorders_of_perm ?_ hperm))
        rw [map_append, map_map] at hnodup
        exact List.Nodup.of_map (fun i : Option Nat => i.getD 0)
          (by rw [map_map]; exact (nodup_append.mp hnodup).1)

end

section

attribute [local instance] plainCrates

def nothingSeen : Visible := ⟨fun _ _ => none, fun _ => []⟩

def cell (i : Nat) : Expr := fun _ row => .ok (row[i]?.getD .null)

def updatePairs (assignments : List Assignment) : Update :=
  ⟨"t", assignments, none, none, ⟨none, fun _ => none⟩, none⟩

/-- `SET a = b, b = 2`. -/
def copyColumn : List Assignment := [⟨"a", cell 1⟩, ⟨"b", fun _ _ => .ok (.integer 2)⟩]

/-- `SET a = b, b = a`. -/
def swapColumns : List Assignment := [⟨"a", cell 1⟩, ⟨"b", cell 0⟩]

theorem reassigned_copy : Reassigned [.integer 1, .integer 2] [.integer 1, .integer 2]
    (copyColumn.map (Assignment.setter nothingSeen pairTable)) [.integer 2, .integer 2] where
  defined a ha := by
    rcases mem_pair.mp ha with h | h <;> rw [h] <;> rfl
  length := rfl
  places p hp := by
    have hp' : p < 2 := hp
    interval_cases p <;> rfl

/-- The second assignment leaves `b` as it was. -/
theorem steady_copy : Steady [.integer 1, .integer 2]
    (copyColumn.map (Assignment.setter nothingSeen pairTable)) := by
  intro before a after heq r hr
  have hb : r[1]? = some (.integer 2) := by
    rcases hr.places 1 with h | ⟨c, hc, hplace, h⟩
    · exact h
    · have hin : c ∈ copyColumn.map (Assignment.setter nothingSeen pairTable) := by
        rw [heq]
        rcases mem_append.mp hc with hc | hc
        · exact mem_append_left _ hc
        · exact mem_append_right _ (mem_cons_of_mem _ (mem_filter.mp hc).1)
      rcases mem_pair.mp hin with hc | hc <;> subst hc
      · cases hplace
      · exact h
  have hin : a ∈ copyColumn.map (Assignment.setter nothingSeen pairTable) := by
    rw [heq]
    exact mem_append_right _ mem_cons_self
  rcases mem_pair.mp hin with ha | ha <;> subst ha
  · simp only [Assignment.setter, cell, hb]
    rfl
  · rfl

theorem update_simultaneous_copy :
    Simultaneous nothingSeen pairTable .plain (updatePairs copyColumn) none 0
      (pairTable.alignRow [.integer 1, .integer 2]) [.integer 2, .integer 2] :=
  (@update_simultaneous_iff _ nothingSeen pairTable .plain (updatePairs copyColumn) none 0
    [.integer 1, .integer 2] id _ rfl rfl rfl reassigned_copy).1
      ⟨fun h => absurd rfl h, fun _ => steady_copy⟩

/-- Swapped columns both get the value of the second. -/
theorem swap_not_simultaneous :
    Reassigned [.integer 1, .integer 2] [.integer 1, .integer 2]
        (swapColumns.map (Assignment.setter nothingSeen pairTable)) [.integer 2, .integer 1] ∧
      rewrittenRow nothingSeen pairTable .plain (updatePairs swapColumns) none 0
        [.integer 1, .integer 2] = some [.integer 2, .integer 2] := by
  refine ⟨⟨fun a ha => ?_, rfl, fun p hp => ?_⟩, rfl⟩
  · rcases mem_pair.mp ha with h | h <;> rw [h] <;> rfl
  · have hp' : p < 2 := hp
    interval_cases p <;> rfl

end

end H2Database.Sql
