import H2Database.Reasoning.References
import H2Database.Sql.RowWrites
import H2Database.Sql.Spawning

/-!
# Foreign keys (`h2-sql/src/executor/foreign_key.rs`)

Every foreign key is a link from the rows of its table to the rows of the table it names.  What the check
of a new row and the searches for child rows answer is said here in terms of these links, and what the
write of a row has to meet so that no value loses its parent.
-/

namespace H2Database.Sql

open Reasoning Mvstore List Option

def foreignValue (t : TableDef) (fk : ForeignKeyDef) (row : Row) : Option Value :=
  ((t.columnIndex fk.column).bind fun i => row[i]?).filter fun v => !v.isNull

variable [Crates]

/-! ## Links -/

def Agrees (p v : Value) : Prop := p.eq v = true

namespace Catalog

variable (cat : Catalog)

omit [Crates]

def Contains (t : TableDef) : Prop := ∃ key, (key, t) ∈ cat.tables

structure Refers (child : TableDef) (fk : ForeignKeyDef) : Prop where
  contains : cat.Contains child
  mem : fk ∈ child.foreignKeys

def link (child : TableDef) (fk : ForeignKeyDef) : Link TableDef Row Value where
  child := child
  parent := cat.getTable fk.foreignTable
  refers := foreignValue child fk
  offers row := (cat.getTable fk.foreignTable).bind fun parent => keyValue parent fk row

def links : Set (Link TableDef Row Value) := {l | ∃ child fk, cat.Refers child fk ∧ l = cat.link child fk}

/-- The name is the one by which the foreign keys on a table know it. -/
structure Named (name : String) (t : TableDef) : Prop where
  found : cat.getTable name = some t
  known : ∀ child fk, cat.Refers child fk → cat.getTable fk.foreignTable = some t →
    fk.foreignTable = name

def Alone (t : TableDef) : Prop := ∀ t', cat.Contains t' → t'.mapName = t.mapName → t' = t

variable {cat}

theorem contains_of_getTable {name : String} {t : TableDef} (h : cat.getTable name = some t) :
    cat.Contains t :=
  mem_tables_of_getTable h

theorem among_links {l : Link TableDef Row Value} (h : l ∈ cat.links) :
    l.Among {t | cat.Contains t} := by
  obtain ⟨child, fk, hrefers, rfl⟩ := h
  exact ⟨hrefers.contains, fun t ht => contains_of_getTable ht⟩

theorem link_mem {child : TableDef} {fk : ForeignKeyDef} (h : cat.Refers child fk) :
    cat.link child fk ∈ cat.links :=
  ⟨child, fk, h, rfl⟩

theorem offers_link {child t : TableDef} {fk : ForeignKeyDef} (h : cat.getTable fk.foreignTable = some t)
    (row : Row) : (cat.link child fk).offers row = keyValue t fk row := by
  simp only [link, h, bind_some]

end Catalog

/-- Every value by which a row refers to a parent has a parent row, or is owed one. -/
def IntactOwing (cat : Catalog) (owed : Link TableDef Row Value → Value → Prop)
    (rows : Rows TableDef Key Row) : Prop :=
  IntactBut cat.links Agrees owed rows

/-- Every visible value that is not NULL and refers to a parent has a visible parent row. -/
def Intact (cat : Catalog) (rows : Rows TableDef Key Row) : Prop :=
  IntactOwing cat (fun _ _ => False) rows

variable {t : TableDef} {fk : ForeignKeyDef} {row : Row} {view' : View}
  {owed : Link TableDef Row Value → Value → Prop}

omit [Crates] in
theorem foreignValue_eq_some {v : Value} :
    foreignValue t fk row = some v ↔
      ∃ i, t.columnIndex fk.column = some i ∧ row[i]? = some v ∧ v.isNull = false := by
  rw [foreignValue, filter_eq_some_iff, bind_eq_some_iff]
  constructor
  · rintro ⟨⟨i, hi, hv⟩, hnull⟩
    exact ⟨i, hi, hv, by simpa using hnull⟩
  · rintro ⟨i, hi, hv, hnull⟩
    exact ⟨⟨i, hi, hv⟩, by simpa using hnull⟩

/-! ## What the code finds -/

variable {cat : Catalog} {view : View}

omit [Crates] in
theorem forM_ok {α : Type} {f : α → H2Result Unit} {xs : List α} (h : xs.forM f = .ok ()) :
    ∀ x ∈ xs, f x = .ok () := by
  induction xs with
  | nil => exact fun x hx => absurd hx not_mem_nil
  | cons x xs ih =>
    obtain ⟨u, hx, hxs⟩ := H2Result.bind_eq_ok.mp (h : (f x >>= fun _ => xs.forM f) = .ok ())
    exact forall_mem_cons.mpr ⟨hx, ih hxs⟩

variable {column : Nat}

variable {entries : List (Key × List UInt8)}

theorem findParent_true {val : Value} (h : findParent t column val entries = .ok true) :
    ∃ key bytes row p, (key, bytes) ∈ entries ∧ t.readRow bytes = .ok row ∧ row[column]? = some p ∧
      p.eq val = true := by
  induction entries with
  | nil => cases h
  | cons entry entries ih =>
    obtain ⟨row, hrow, h⟩ := H2Result.bind_eq_ok.mp h
    split_ifs at h with hany
    · obtain ⟨p, hp, heq⟩ := (any_eq_true _ _).mp hany
      exact ⟨entry.1, entry.2, row, p, mem_cons_self, hrow, hp, heq⟩
    · obtain ⟨key, bytes, row', p, hin, hrest⟩ := ih h
      exact ⟨key, bytes, row', p, mem_cons_of_mem _ hin, hrest⟩

/-- The rows of the parents are where the check of a row looks for them. -/
def ChecksParents (cat : Catalog) (t : TableDef) (row : Row) : Prop :=
  ∀ fk ∈ t.foreignKeys, (foreignValue t fk row).isSome →
    ∀ parent, cat.getTable fk.foreignTable = some parent → parent.mapName = tableMap fk.foreignTable

theorem offeredIn_of_valid (h : validateForeignKeysForRow cat view.seen t row = .ok ())
    (hparents : ChecksParents cat t row) (hfk : fk ∈ t.foreignKeys) {v : Value}
    (hv : foreignValue t fk row = some v) :
    (cat.link t fk).OfferedIn Agrees (rowAt view) v := by
  obtain ⟨i, hi, hval, hnull⟩ := foreignValue_eq_some.mp hv
  have hvalid := forM_ok h fk hfk
  unfold validateForeignKey at hvalid
  rw [hi, bind_some, hval] at hvalid
  dsimp only at hvalid
  rw [hnull, if_neg Bool.false_ne_true] at hvalid
  split at hvalid
  · cases hvalid
  · rename_i parent hparent
    split at hvalid
    · cases hvalid
    · rename_i column hcolumn
      obtain ⟨found, hfound, hvalid⟩ := H2Result.bind_eq_ok.mp hvalid
      split_ifs at hvalid with htrue
      rw [htrue] at hfound
      obtain ⟨key, bytes, prow, p, hin, hprow, hp, heq⟩ := findParent_true hfound
      have hmap := hparents fk hfk (by rw [hv]; rfl) parent hparent
      refine ⟨parent, key, prow, p, hparent, ?_, ?_, heq⟩
      · rw [rowAt, hmap, View.mem_scan.mp hin, bind_some, hprow]
        rfl
      · rw [Catalog.offers_link hparent, keyValue, hcolumn, bind_some, hp]

variable {rows : List (Key × Row)}

theorem mem_readRows
    (h : readRows t entries = .ok rows) {key : Key} {bytes : List UInt8} (hin : (key, bytes) ∈ entries)
    (hrow : t.readRow bytes = .ok row) : (key, row) ∈ rows := by
  induction entries generalizing rows with
  | nil => cases hin
  | cons entry entries ih =>
    obtain ⟨first, hfirst, h⟩ := H2Result.bind_eq_ok.mp h
    obtain ⟨rest, hrest, h⟩ := H2Result.bind_eq_ok.mp h
    cases h
    rcases mem_cons.mp hin with rfl | hlater
    · cases hfirst.symm.trans hrow
      exact mem_cons_self
    · exact mem_cons_of_mem _ (ih hrest hlater)

theorem mem_matchingChildRows {child : TableDef} {val : Value}
    (h : matchingChildRows view.seen child column val = .ok rows)
    (hpublic : child.mapName = tableMap child.name) {key : Key} (hrow : rowAt view child key = some row)
    {v : Value} (hv : row[column]? = some v) (heq : v.eq val = true) : (key, row) ∈ rows := by
  obtain ⟨all, hall, rfl⟩ := H2Result.map_eq_ok.mp h
  obtain ⟨bytes, hbytes, hread⟩ := bind_eq_some_iff.mp hrow
  rw [hpublic] at hbytes
  have hok : child.readRow bytes = .ok row := by
    cases hres : child.readRow bytes with
    | error e =>
      rw [hres] at hread
      cases hread
    | ok r =>
      rw [hres] at hread
      cases hread
      rfl
  refine mem_filter.mpr ⟨mem_readRows hall (View.mem_scan.mpr hbytes) hok, ?_⟩
  exact (any_eq_true _ _).mpr ⟨v, hv, heq⟩

/-! ## Writing one row -/

/-- The row is read back with the values by which it refers and is referred to. -/
def KeepsLinks (cat : Catalog) (t : TableDef) (row : Row) : Prop :=
  ∃ back, t.readRow row.toBytes = .ok back ∧
    (∀ fk ∈ t.foreignKeys, foreignValue t fk back = foreignValue t fk row) ∧
    ∀ child fk, cat.Refers child fk → cat.getTable fk.foreignTable = some t →
      keyValue t fk back = keyValue t fk row

/-- The row under the key, if it is there, still has the values others refer to as it was read. -/
def KeyCurrent (cat : Catalog) (view : View) (t : TableDef) (key : Key) (read : Row) : Prop :=
  ∀ now, rowAt view t key = some now → ∀ child fk, cat.Refers child fk →
    cat.getTable fk.foreignTable = some t → keyValue t fk now = keyValue t fk read

def Unreferenced (cat : Catalog) (rows : Rows TableDef Key Row) (t : TableDef) (row : Row) : Prop :=
  ∀ child fk, cat.Refers child fk → cat.getTable fk.foreignTable = some t →
    ∀ v, (cat.link child fk).ReferredIn rows v → ∀ p, keyValue t fk row = some p → p.eq v = false

theorem WritesRow.replaced {w : Write} (h : WritesRow view view' w) (hmap : t.mapName = w.mapName)
    (halone : cat.Alone t) :
    Replaced {t | cat.Contains t} (rowAt view) (rowAt view') t w.key
      (w.value.bind fun bytes => (t.readRow bytes).toOption) where
  self := h.rowAt_self hmap
  others t' ht' k' hne := by
    refine h.rowAt_of_ne fun hsame => hne ?_
    exact ⟨halone t' ht' (hsame.1.trans hmap.symm), hsame.2⟩

structure NewRow (cat : Catalog) (view : View) (t : TableDef) (row : Row) (rowId : UInt64) : Prop where
  alone : cat.Alone t
  fresh : rowAt view t (rowKey rowId) = none
  back : KeepsLinks cat t row
  parents : ChecksParents cat t row

theorem NewRow.intact {rowId : UInt64} (h : NewRow cat view t row rowId)
    (hvalid : validateForeignKeysForRow cat view.seen t row = .ok ())
    (hw : WritesRow view view' (.put t.mapName (rowKey rowId) row.toBytes))
    (hintact : IntactOwing cat owed (rowAt view)) : IntactOwing cat owed (rowAt view') := by
  obtain ⟨back, hback, hforeign, -⟩ := h.back
  refine hintact.added (hw.replaced rfl h.alone) (fun l hl => Catalog.among_links hl) h.fresh ?_
  intro l hl hchild r v hr hv
  obtain ⟨child, fk, hrefers, rfl⟩ := hl
  obtain rfl : child = t := hchild
  have hr' : some back = some r := by
    rw [← hr, Write.value, bind_some, hback]
    rfl
  cases hr'
  have hv' : foreignValue child fk row = some v := (hforeign fk hrefers.mem).symm.trans hv
  exact offeredIn_of_valid hvalid h.parents hrefers.mem hv'

theorem IntactOwing.removed {key : Key} (hintact : IntactOwing cat owed (rowAt view)) (halone : cat.Alone t)
    (hcurrent : KeyCurrent cat view t key row) (hunreferenced : Unreferenced cat (rowAt view) t row)
    {map : String} (hmap : t.mapName = map) (hw : WritesRow view view' (.remove map key)) :
    IntactOwing cat owed (rowAt view') := by
  refine IntactBut.removed hintact (hw.replaced hmap halone) (fun l hl => Catalog.among_links hl) ?_
  intro l hl hparent v href now p hnow hp hagree
  obtain ⟨child, fk, hrefers, rfl⟩ := hl
  rw [Catalog.offers_link hparent, hcurrent now hnow child fk hrefers hparent] at hp
  have hfalse := hunreferenced child fk hrefers hparent v href p hp
  rw [Agrees, hfalse] at hagree
  cases hagree

/-- A column of a child row is written: the row is as it was read, no row refers to what the column has
had, and what it gets it has under one foreign key alone. -/
structure SetsLink (cat : Catalog) (view : View) (s : SetChild) : Prop where
  isPublic : s.child.mapName = tableMap s.child.name
  alone : cat.Alone s.child
  current : rowAt view s.child s.key = some s.row
  back : KeepsLinks cat s.child (s.row.set s.column s.newVal)
  spares : ∀ child fk, cat.Refers child fk → cat.getTable fk.foreignTable = some s.child →
    s.child.columnIndex fk.foreignColumn = some s.column →
      ∀ v, (cat.link child fk).ReferredIn (rowAt view) v →
        ∀ p, keyValue s.child fk s.row = some p → p.eq v = false
  single : s.newVal.isNull = false → s.newVal.eq s.newVal = true ∧
    ∀ fk ∈ s.child.foreignKeys, ∀ fk' ∈ s.child.foreignKeys,
      s.child.columnIndex fk.column = some s.column → s.child.columnIndex fk'.column = some s.column →
        fk = fk'

omit [Crates] in
theorem foreignValue_set {val v : Value} (h : foreignValue t fk (row.set column val) = some v) :
    (t.columnIndex fk.column = some column ∧ v = val ∧ val.isNull = false) ∨
      (t.columnIndex fk.column ≠ some column ∧ foreignValue t fk row = some v) := by
  obtain ⟨i, hi, hv, hnull⟩ := foreignValue_eq_some.mp h
  by_cases heq : column = i
  · subst heq
    rw [getElem?_set_self'] at hv
    obtain ⟨_, -, rfl⟩ := map_eq_some_iff.mp hv
    exact .inl ⟨hi, rfl, hnull⟩
  · rw [getElem?_set_ne heq] at hv
    refine .inr ⟨fun hcolumn => heq ?_, foreignValue_eq_some.mpr ⟨i, hi, hv, hnull⟩⟩
    exact Option.some.inj (hcolumn.symm.trans hi)

omit [Crates] in
theorem keyValue_set (h : t.columnIndex fk.foreignColumn ≠ some column) (row : Row) (val : Value) :
    keyValue t fk (row.set column val) = keyValue t fk row := by
  unfold keyValue
  cases hj : t.columnIndex fk.foreignColumn with
  | none => rfl
  | some j =>
    have hne : column ≠ j := by
      intro heq
      rw [hj, heq] at h
      exact h rfl
    rw [bind_some, bind_some, getElem?_set_ne hne]

theorem SetsLink.intact {s : SetChild} (h : SetsLink cat view s)
    (hw : WritesRow view view' (.put (tableMap s.child.name) s.key
      (Row.toBytes (s.row.set s.column s.newVal))))
    (howed : ∀ fk ∈ s.child.foreignKeys, s.child.columnIndex fk.column = some s.column →
      s.newVal.isNull = false → owed (cat.link s.child fk) s.newVal)
    (hintact : IntactOwing cat owed (rowAt view)) : IntactOwing cat owed (rowAt view') := by
  obtain ⟨back, hback, hforeign, hkey⟩ := h.back
  have hreplaced := hw.replaced h.isPublic h.alone
  rw [Write.value, bind_some, hback] at hreplaced
  -- what the row refers to now is owed, or it has referred to it before
  have hrefers : ∀ fk, cat.Refers s.child fk → ∀ v, foreignValue s.child fk back = some v →
      owed (cat.link s.child fk) v ∨ (cat.link s.child fk).ReferredIn (rowAt view) v := by
    intro fk hfk v hv
    rw [hforeign fk hfk.mem] at hv
    rcases foreignValue_set hv with ⟨hcolumn, rfl, hnull⟩ | ⟨-, hbefore⟩
    · exact .inl (howed fk hfk.mem hcolumn hnull)
    · exact .inr ⟨s.key, s.row, h.current, hbefore⟩
  refine IntactBut.replaced hintact hreplaced (fun l hl => Catalog.among_links hl)
    (fun l hl hchild r v hr hv => ?_) (fun l hl hparent v href now p hnow hp hagree => ?_)
    fun l hl v _ hv => Or.inr hv
  · have hl' := hl
    obtain ⟨child, fk, hfk, rfl⟩ := hl
    obtain rfl : child = s.child := hchild
    cases hr
    rcases hrefers fk hfk v hv with hout | hbefore
    · exact .inr (.inr hout)
    · rcases hintact _ hl' v hbefore with hoffered | hout
      · exact .inl hoffered
      · exact .inr (.inr hout)
  · obtain ⟨child, fk, hfk, rfl⟩ := hl
    cases h.current.symm.trans hnow
    rw [Catalog.offers_link hparent] at hp
    by_cases hcolumn : s.child.columnIndex fk.foreignColumn = some s.column
    · -- no row has referred to the value that is gone
      have hnone : ¬(cat.link child fk).ReferredIn (rowAt view) v := by
        intro hbefore
        rw [Agrees, h.spares child fk hfk hparent hcolumn v hbefore p hp] at hagree
        cases hagree
      rcases hreplaced.referredIn (Catalog.among_links (Catalog.link_mem hfk)) href with
        ⟨hchild, r, hr, hv⟩ | hbefore
      · obtain rfl : child = s.child := hchild
        cases hr
        exact .inr ((hrefers fk hfk v hv).resolve_right hnone)
      · exact absurd hbefore hnone
    · refine .inl (hreplaced.offeredIn_new hparent ?_ hagree)
      rw [Catalog.offers_link hparent, hkey child fk hfk hparent, keyValue_set hcolumn, hp]

def owedBy (r : Rewrite) (l : Link TableDef Row Value) (v : Value) : Prop :=
  l.parent = some r.table ∧ ∃ p, l.offers r.new = some p ∧ p.eq v = true

/-- The row has its old values as it was read.  A new value that equals the old one equals whatever the
old one equals, and where the row refers to its own old value it has this value still. -/
structure Rewrites (cat : Catalog) (view : View) (r : Rewrite) : Prop where
  alone : cat.Alone r.table
  back : KeepsLinks cat r.table r.new
  parents : ChecksParents cat r.table r.new
  current : KeyCurrent cat view r.table r.key r.old
  same : ∀ child fk, cat.Refers child fk → cat.getTable fk.foreignTable = some r.table →
    ∀ p q, keyValue r.table fk r.old = some p → keyValue r.table fk r.new = some q → p.eq q = true →
      ∀ v, p.eq v = true → q.eq v = true
  itself : ∀ fk ∈ r.table.foreignKeys, cat.getTable fk.foreignTable = some r.table →
    ∀ v p, foreignValue r.table fk r.new = some v → keyValue r.table fk r.old = some p → p.eq v = true →
      ∃ q, keyValue r.table fk r.new = some q ∧ q.eq v = true

def Handled (cat : Catalog) (rows : Rows TableDef Key Row) (r : Rewrite) : Prop :=
  ∀ child fk, cat.Refers child fk → cat.getTable fk.foreignTable = some r.table →
    ∀ p q, keyValue r.table fk r.old = some p → keyValue r.table fk r.new = some q → p.eq q = false →
      ∀ v, (cat.link child fk).ReferredIn rows v → p.eq v = false

omit [Crates] in
theorem keyValue_isSome {row' : Row} (hlength : row'.length = row.length) {p : Value}
    (h : keyValue t fk row = some p) :
    ∃ q, keyValue t fk row' = some q := by
  obtain ⟨j, hj, hp⟩ := bind_eq_some_iff.mp h
  have hlt : j < row'.length := by
    rw [hlength]
    exact (List.getElem?_eq_some_iff.mp hp).1
  exact ⟨row'[j], by rw [keyValue, hj, bind_some, List.getElem?_eq_getElem hlt]⟩

theorem Rewrites.intact {r : Rewrite} (h : Rewrites cat view r) (hlength : r.new.length = r.old.length)
    (hvalid : validateForeignKeysForRow cat view.seen r.table r.new = .ok ())
    (hhandled : Handled cat (rowAt view) r)
    (hw : WritesRow view view' (.put r.table.mapName r.key r.new.toBytes))
    (hintact : IntactOwing cat (owedBy r) (rowAt view)) : Intact cat (rowAt view') := by
  obtain ⟨back, hback, hforeign, hkey⟩ := h.back
  have hreplaced := hw.replaced rfl h.alone
  rw [Write.value, bind_some, hback] at hreplaced
  have hoffers : ∀ child fk, cat.Refers child fk → cat.getTable fk.foreignTable = some r.table →
      ∀ q v, keyValue r.table fk r.new = some q → q.eq v = true →
        (cat.link child fk).OfferedIn Agrees (rowAt view') v := by
    intro child fk hfk hparent q v hq hagree
    refine hreplaced.offeredIn_new hparent ?_ hagree
    rw [Catalog.offers_link hparent, hkey child fk hfk hparent, hq]
  refine IntactBut.replaced hintact hreplaced (fun l hl => Catalog.among_links hl)
    (fun l hl hchild row v hr hv => ?_) (fun l hl hparent v href now p hnow hp hagree => ?_)
    fun l hl v href hv => ?_
  · obtain ⟨child, fk, hfk, rfl⟩ := hl
    obtain rfl : child = r.table := hchild
    cases hr
    have hv' : foreignValue r.table fk r.new = some v := (hforeign fk hfk.mem).symm.trans hv
    exact .inl (offeredIn_of_valid hvalid h.parents hfk.mem hv')
  · obtain ⟨child, fk, hfk, rfl⟩ := hl
    rw [Catalog.offers_link hparent, h.current now hnow child fk hfk hparent] at hp
    refine .inl ?_
    rcases hreplaced.referredIn (Catalog.among_links (Catalog.link_mem hfk)) href with
      ⟨hchild, row, hr, hv⟩ | hbefore
    · obtain rfl : child = r.table := hchild
      cases hr
      have hv' : foreignValue r.table fk r.new = some v := (hforeign fk hfk.mem).symm.trans hv
      obtain ⟨q, hq, hqv⟩ := h.itself fk hfk.mem hparent v p hv' hp hagree
      exact hoffers r.table fk hfk hparent q v hq hqv
    · obtain ⟨q, hq⟩ := keyValue_isSome hlength hp
      cases hpq : p.eq q with
      | true => exact hoffers child fk hfk hparent q v hq (h.same child fk hfk hparent p q hp hq hpq v hagree)
      | false =>
        rw [Agrees, hhandled child fk hfk hparent p q hp hq hpq v hbefore] at hagree
        cases hagree
  · obtain ⟨child, fk, hfk, rfl⟩ := hl
    obtain ⟨hparent, p, hp, hagree⟩ := hv
    rw [Catalog.offers_link hparent] at hp
    exact .inl (hoffers child fk hfk hparent p v hp hagree)

end H2Database.Sql
