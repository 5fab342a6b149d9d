import Mathlib.Data.Set.Basic

/-!
# References between rows

Rows under keys, in tables, and links from the rows of one table to the rows of another: a row refers to
a value, and a row of the other table has to offer one that agrees with it.  `IntactBut` allows that some
values are owed.  What is shown is when the change of one row leaves the rows intact.
-/

namespace H2Database.Reasoning

variable {T K R V : Type*}

abbrev Rows (T K R : Type*) := T → K → Option R

structure Link (T R V : Type*) where
  child : T
  parent : Option T
  refers : R → Option V
  offers : R → Option V

structure Replaced (tables : Set T) (rows rows' : Rows T K R) (t : T) (k : K) (new : Option R) : Prop where
  self : rows' t k = new
  others : ∀ t' ∈ tables, ∀ k', ¬(t' = t ∧ k' = k) → rows' t' k' = rows t' k'

namespace Link

def ReferredIn (l : Link T R V) (rows : Rows T K R) (v : V) : Prop :=
  ∃ k r, rows l.child k = some r ∧ l.refers r = some v

def OfferedIn (l : Link T R V) (agree : V → V → Prop) (rows : Rows T K R) (v : V) : Prop :=
  ∃ t k r p, l.parent = some t ∧ rows t k = some r ∧ l.offers r = some p ∧ agree p v

structure Among (l : Link T R V) (tables : Set T) : Prop where
  child : l.child ∈ tables
  parent : ∀ t, l.parent = some t → t ∈ tables

end Link

def IntactBut (links : Set (Link T R V)) (agree : V → V → Prop) (owed : Link T R V → V → Prop)
    (rows : Rows T K R) : Prop :=
  ∀ l ∈ links, ∀ v, l.ReferredIn rows v → l.OfferedIn agree rows v ∨ owed l v

section

variable {tables : Set T} {links : Set (Link T R V)} {agree : V → V → Prop}
  {owed owed' : Link T R V → V → Prop} {rows rows' : Rows T K R} {t : T} {k : K} {new : Option R}

variable {l : Link T R V}

theorem Replaced.referredIn (h : Replaced tables rows rows' t k new)
    (hl : l.Among tables) {v : V} (href : l.ReferredIn rows' v) :
    (l.child = t ∧ ∃ r, new = some r ∧ l.refers r = some v) ∨ l.ReferredIn rows v := by
  obtain ⟨k', r, hr, hv⟩ := href
  by_cases hsame : l.child = t ∧ k' = k
  · rw [hsame.1, hsame.2, h.self] at hr
    exact .inl ⟨hsame.1, r, hr, hv⟩
  · rw [h.others l.child hl.child k' hsame] at hr
    exact .inr ⟨k', r, hr, hv⟩

theorem Replaced.offeredIn (h : Replaced tables rows rows' t k new)
    (hl : l.Among tables) {v : V} (hoffered : l.OfferedIn agree rows v) :
    l.OfferedIn agree rows' v ∨
      l.parent = some t ∧ ∃ now p, rows t k = some now ∧ l.offers now = some p ∧ agree p v := by
  obtain ⟨t', k', r, p, ht', hr, hp, hagree⟩ := hoffered
  by_cases hsame : t' = t ∧ k' = k
  · rw [hsame.1] at ht'
    rw [hsame.1, hsame.2] at hr
    exact .inr ⟨ht', r, p, hr, hp, hagree⟩
  · rw [← h.others t' (hl.parent t' ht') k' hsame] at hr
    exact .inl ⟨t', k', r, p, ht', hr, hp, hagree⟩

theorem Replaced.offeredIn_new {r : R} (h : Replaced tables rows rows' t k (some r))
    (hparent : l.parent = some t) {p v : V} (hp : l.offers r = some p) (hagree : agree p v) :
    l.OfferedIn agree rows' v :=
  ⟨t, k, r, p, hparent, h.self, hp, hagree⟩

section

variable (hintact : IntactBut links agree owed rows)

include hintact

theorem IntactBut.replaced (h : Replaced tables rows rows' t k new) (hlinks : ∀ l ∈ links, l.Among tables)
    (hnew : ∀ l ∈ links, l.child = t → ∀ r v, new = some r → l.refers r = some v →
      l.OfferedIn agree rows v ∨ l.OfferedIn agree rows' v ∨ owed' l v)
    (hold : ∀ l ∈ links, l.parent = some t → ∀ v, l.ReferredIn rows' v → ∀ now p,
      rows t k = some now → l.offers now = some p → agree p v → l.OfferedIn agree rows' v ∨ owed' l v)
    (howed : ∀ l ∈ links, ∀ v, l.ReferredIn rows' v → owed l v →
      l.OfferedIn agree rows' v ∨ owed' l v) :
    IntactBut links agree owed' rows' := by
  intro l hl v href
  have hoffered : l.OfferedIn agree rows v → l.OfferedIn agree rows' v ∨ owed' l v := by
    intro hbefore
    rcases h.offeredIn (hlinks l hl) hbefore with hafter | ⟨hparent, now, p, hnow, hp, hagree⟩
    · exact .inl hafter
    · exact hold l hl hparent v href now p hnow hp hagree
  rcases h.referredIn (hlinks l hl) href with ⟨hchild, r, hr, hv⟩ | hbefore
  · rcases hnew l hl hchild r v hr hv with hbefore | hafter
    · exact hoffered hbefore
    · exact hafter
  · rcases hintact l hl v hbefore with hbefore | hbefore
    · exact hoffered hbefore
    · exact howed l hl v href hbefore

theorem IntactBut.added (h : Replaced tables rows rows' t k new) (hlinks : ∀ l ∈ links, l.Among tables)
    (hfresh : rows t k = none) (hnew : ∀ l ∈ links, l.child = t → ∀ r v, new = some r → l.refers r = some v →
      l.OfferedIn agree rows v) :
    IntactBut links agree owed rows' := by
  refine hintact.replaced h hlinks (fun l hl hchild r v hr hv => Or.inl (hnew l hl hchild r v hr hv))
    (fun l hl hparent v href now p hnow => ?_) fun l hl v href hv => Or.inr hv
  rw [hfresh] at hnow
  cases hnow

theorem IntactBut.removed (h : Replaced tables rows rows' t k none) (hlinks : ∀ l ∈ links, l.Among tables)
    (hold : ∀ l ∈ links, l.parent = some t → ∀ v, l.ReferredIn rows v → ∀ now p,
      rows t k = some now → l.offers now = some p → ¬agree p v) :
    IntactBut links agree owed rows' := by
  refine hintact.replaced h hlinks (fun l hl hchild r v hr => ?_)
    (fun l hl hparent v href now p hnow hp hagree => ?_) fun l hl v href hv => Or.inr hv
  · cases hr
  · rcases h.referredIn (hlinks l hl) href with ⟨-, r, hr, -⟩ | hbefore
    · cases hr
    · exact absurd hagree (hold l hl hparent v hbefore now p hnow hp)

end

end

end H2Database.Reasoning
