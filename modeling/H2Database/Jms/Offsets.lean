import H2Database.Jms.Broker

/-!
# The offsets of a queue

Each offset is given to one transaction.  It is in flight until that ends, and is then published or
discarded; what has been published is there until it is purged.
-/

namespace H2Database.Jms

open Reasoning List Function

/-! ## Edits -/

theorem mem_offsets {x : Nat} {c : Contents} : x ∈ c.offsets ↔ ∃ m ∈ c.messages, m.offset = x :=
  mem_map

theorem mem_offsets_edits {edits : List Edit} {c : Contents} {x : Nat}
    (h : x ∈ (edits.foldl Contents.edit c).offsets) :
    x ∈ c.offsets ∨ x ∈ (Transaction.mk c edits).inserted := by
  induction edits generalizing c with
  | nil => exact .inl h
  | cons e edits ih =>
    rcases ih h with hx | hx
    · cases e with
      | insert m =>
        obtain ⟨m', hm', rfl⟩ := mem_offsets.mp hx
        rcases mem_append.mp hm' with hm' | hm'
        · exact .inl (mem_offsets.mpr ⟨m', hm', rfl⟩)
        · rw [mem_singleton.mp hm']
          exact .inr mem_cons_self
      | remove offset =>
        obtain ⟨m', hm', rfl⟩ := mem_offsets.mp hx
        exact .inl (mem_offsets.mpr ⟨m', (mem_filter.mp hm').1, rfl⟩)
      | saveOffset group offset => exact .inl hx
    · refine .inr ?_
      cases e with
      | insert m => exact mem_cons_of_mem _ hx
      | remove offset => exact hx
      | saveOffset group offset => exact hx

namespace Broker

def inFlight (b : Broker) (o : Owner) : List Nat := ((b.transactions o).map Transaction.inserted).getD []

def snapshot (b : Broker) (o : Owner) : List Nat := ((b.transactions o).map (·.snapshot.offsets)).getD []

variable {b : Broker} {t : Transaction}

theorem inFlight_of_some {o : Owner} (h : b.transactions o = some t) :
    b.inFlight o = t.inserted := by
  rw [inFlight, h]
  rfl

theorem snapshot_of_some {o : Owner} (h : b.transactions o = some t) :
    b.snapshot o = t.snapshot.offsets := by
  rw [snapshot, h]
  rfl

@[simp] theorem contents_opened (b : Broker) (o : Owner) : (b.opened o).contents = b.contents := by
  unfold opened
  split_ifs <;> rfl

@[simp] theorem nextRowId_opened (b : Broker) (o : Owner) : (b.opened o).nextRowId = b.nextRowId := by
  unfold opened
  split_ifs <;> rfl

@[simp] theorem consumers_opened (b : Broker) (o : Owner) : (b.opened o).consumers = b.consumers := by
  unfold opened
  split_ifs <;> rfl

@[simp] theorem inFlight_opened (b : Broker) (o : Owner) : (b.opened o).inFlight = b.inFlight := by
  unfold opened
  split_ifs with h
  · rfl
  · have hnone : b.transactions o = none := by
      rwa [Bool.not_eq_true, Option.isSome_eq_false_iff, Option.isNone_iff_eq_none] at h
    funext o'
    by_cases ho : o' = o
    · rw [ho, inFlight, inFlight, hnone]
      simp [begin, Transaction.inserted]
    · simp [inFlight, begin, update_of_ne ho]

variable {o o' : Owner} {x : Nat}

theorem mem_snapshot_opened (h : x ∈ (b.opened o).snapshot o') :
    x ∈ b.snapshot o' ∨ x ∈ b.contents.offsets := by
  unfold opened at h
  split_ifs at h
  · exact .inl h
  · by_cases ho : o' = o
    · subst ho
      simp only [snapshot, begin, update_self, Option.map_some, Option.getD_some] at h
      exact .inr h
    · simp only [snapshot, begin, update_of_ne ho] at h
      exact .inl h

theorem inFlight_edit (b : Broker) (o : Owner) (e : Edit) : (b.edit o e).inFlight =
    Function.update b.inFlight o (((b.transactions o).map fun t => (t.add e).inserted).getD []) := by
  funext o'
  by_cases ho : o' = o
  · subst ho
    simp only [inFlight, edit, update_self, Option.map_map]
    rfl
  · simp only [inFlight, edit, update_of_ne ho]

@[simp] theorem snapshot_edit (b : Broker) (o : Owner) (e : Edit) : (b.edit o e).snapshot = b.snapshot := by
  funext o'
  by_cases ho : o' = o
  · subst ho
    simp only [snapshot, edit, update_self, Option.map_map]
    rfl
  · simp only [snapshot, edit, update_of_ne ho]

@[simp] theorem inFlight_remove (b : Broker) (o : Owner) (offset : Nat) :
    (b.edit o (.remove offset)).inFlight = b.inFlight := by
  rw [inFlight_edit, update_eq_self_iff, inFlight]
  cases b.transactions o with
  | none => rfl
  | some t => simp [Transaction.inserted, Transaction.add]

theorem inFlight_insert (b : Broker) (o : Owner) (text : String) (h : (b.transactions o).isSome = true) :
    (b.insert o text).inFlight = Function.update b.inFlight o (b.inFlight o ++ [b.nextRowId]) := by
  rw [insert, if_pos h]
  change (b.edit o (.insert ⟨b.nextRowId, text⟩)).inFlight = _
  rw [inFlight_edit]
  congr 1
  obtain ⟨t, ht⟩ := Option.isSome_iff_exists.mp h
  rw [inFlight, ht]
  simp [Transaction.inserted, Transaction.add]

theorem inFlight_close (b : Broker) (o : Owner) : (b.close o).inFlight = Function.update b.inFlight o [] := by
  funext o'
  by_cases ho : o' = o
  · subst ho
    simp [inFlight, close]
  · simp [inFlight, close, update_of_ne ho]

theorem mem_inFlight_close (hx : x ∈ (b.close o).inFlight o') :
    o' ≠ o ∧ x ∈ b.inFlight o' := by
  rw [inFlight_close] at hx
  by_cases ho : o' = o
  · subst ho
    rw [update_self] at hx
    cases hx
  · rw [update_of_ne ho] at hx
    exact ⟨ho, hx⟩

theorem mem_snapshot_close (h : x ∈ (b.close o).snapshot o') :
    x ∈ b.snapshot o' := by
  by_cases ho : o' = o
  · subst ho
    simp [snapshot, close] at h
  · simpa [snapshot, close, update_of_ne ho] using h

theorem mem_view {o : Owner} (h : b.transactions o = some t)
    (hx : x ∈ t.view.offsets) : x ∈ b.snapshot o ∨ x ∈ b.inFlight o := by
  rw [snapshot_of_some h, inFlight_of_some h]
  exact mem_offsets_edits hx

theorem purge_induction {P : Broker → Prop} (hstep : ∀ b o x, P b → P (b.edit o (.remove x)))
    (h : P b) (o : Owner) (offsets : List Nat) : P (b.purge o offsets) := by
  unfold purge
  split
  · exact h
  · rename_i t ht
    generalize offsets.filter (· ∈ t.view.offsets) = removed
    clear ht
    induction removed generalizing b with
    | nil => exact h
    | cons x removed ih => exact ih (hstep b o x h)

end Broker

/-! ## What has happened -/

namespace Event

def published : Event → List Nat
  | .committed _ published _ => published
  | _ => []

def purged : Event → List Nat
  | .committed _ _ purged => purged
  | _ => []

def discarded : Event → List Nat
  | .rolledBack _ discarded => discarded
  | _ => []

end Event

def published (tr : List Event) : List Nat := tr.flatMap Event.published

def purged (tr : List Event) : List Nat := tr.flatMap Event.purged

def discarded (tr : List Event) : List Nat := tr.flatMap Event.discarded

@[simp] theorem published_cons (e : Event) (tr : List Event) :
    published (e :: tr) = e.published ++ published tr := rfl

/-- Where an offset can be: in flight with one transaction, published or discarded. -/
structure Sound (b : Broker) (published purged discarded : List Nat) : Prop where
  below : ∀ x, x ∈ published ∨ x ∈ discarded ∨ (∃ o, x ∈ b.inFlight o) → x < b.nextRowId
  contents : ∀ x ∈ b.contents.offsets, x ∈ published
  snapshots : ∀ o, ∀ x ∈ b.snapshot o, x ∈ published
  fresh : ∀ o, ∀ x ∈ b.inFlight o, x ∉ published ∧ x ∉ discarded
  alone : ∀ o o', o' ≠ o → ∀ x ∈ b.inFlight o, x ∉ b.inFlight o'
  unpublished : ∀ x ∈ discarded, x ∉ published
  gone : ∀ x ∈ published, x ∈ b.contents.offsets ∨ x ∈ purged
  purged : ∀ x ∈ purged, x ∈ published ∧ x ∉ b.contents.offsets

def Watched.Sound (w : Watched) : Prop :=
  Jms.Sound w.broker (published w.trace) (purged w.trace) (discarded w.trace)

namespace Sound

variable {b b' : Broker} {pub pur dis : List Nat}

theorem new : Sound .new [] [] [] where
  below x hx := by
    rcases hx with hx | hx | ⟨o, hx⟩
    · cases hx
    · cases hx
    · cases hx
  contents x hx := by cases hx
  snapshots o x hx := by cases hx
  fresh o x hx := by cases hx
  alone o o' _ x hx := by cases hx
  unpublished x hx := by cases hx
  gone x hx := by cases hx
  purged x hx := by cases hx

section

variable (h : Sound b pub pur dis)

include h

theorem same (hcontents : b'.contents.offsets = b.contents.offsets)
    (hinFlight : b'.inFlight = b.inFlight) (hnext : b'.nextRowId = b.nextRowId)
    (hsnapshots : ∀ o, ∀ x ∈ b'.snapshot o, x ∈ b.snapshot o ∨ x ∈ b.contents.offsets) :
    Sound b' pub pur dis where
  below := by
    rw [hinFlight, hnext]
    exact h.below
  contents := by
    rw [hcontents]
    exact h.contents
  snapshots o x hx := (hsnapshots o x hx).elim (h.snapshots o x) (h.contents x)
  fresh := by
    rw [hinFlight]
    exact h.fresh
  alone := by
    rw [hinFlight]
    exact h.alone
  unpublished := h.unpublished
  gone := by
    rw [hcontents]
    exact h.gone
  purged := by
    rw [hcontents]
    exact h.purged

theorem opened (o : Owner) : Sound (b.opened o) pub pur dis :=
  h.same (by rw [Broker.contents_opened]) (by rw [Broker.inFlight_opened]) (by rw [Broker.nextRowId_opened])
    fun _ _ hx => Broker.mem_snapshot_opened hx

theorem purge (o : Owner) (offsets : List Nat) :
    Sound (b.purge o offsets) pub pur dis := by
  refine Broker.purge_induction (P := fun b => Sound b pub pur dis) (fun b o x hb => ?_) h o offsets
  refine hb.same rfl (Broker.inFlight_remove b o x) rfl fun o' y hy => Or.inl ?_
  rwa [Broker.snapshot_edit] at hy

theorem insert (o : Owner) (text : String) :
    Sound (b.insert o text) pub pur dis := by
  by_cases hopen : (b.transactions o).isSome = true
  · have hinFlight := Broker.inFlight_insert b o text hopen
    have hnext : (b.insert o text).nextRowId = b.nextRowId + 1 := by rw [Broker.insert, if_pos hopen]
    have hcontents : (b.insert o text).contents = b.contents := by
      rw [Broker.insert, if_pos hopen]
      rfl
    have hsnapshot : (b.insert o text).snapshot = b.snapshot := by
      rw [Broker.insert, if_pos hopen]
      exact Broker.snapshot_edit b o _
    -- an offset in flight is the one just given, or it was in flight before
    have hcases : ∀ o' x, x ∈ (b.insert o text).inFlight o' →
        o' = o ∧ x = b.nextRowId ∨ x ∈ b.inFlight o' := by
      intro o' x hx
      rw [hinFlight] at hx
      by_cases ho : o' = o
      · subst ho
        rw [update_self] at hx
        rcases mem_append.mp hx with hx | hx
        · exact .inr hx
        · exact .inl ⟨rfl, mem_singleton.mp hx⟩
      · rw [update_of_ne ho] at hx
        exact .inr hx
    have hnew : ∀ x, x ∈ pub ∨ x ∈ dis ∨ (∃ o, x ∈ b.inFlight o) → x ≠ b.nextRowId :=
      fun x hx => Nat.ne_of_lt (h.below x hx)
    constructor
    · intro x hx
      rw [hnext]
      rcases hx with hx | hx | ⟨o', hx⟩
      · exact Nat.lt_succ_of_lt (h.below x (.inl hx))
      · exact Nat.lt_succ_of_lt (h.below x (.inr (.inl hx)))
      · rcases hcases o' x hx with ⟨_, rfl⟩ | hx
        · exact Nat.lt_succ_self _
        · exact Nat.lt_succ_of_lt (h.below x (.inr (.inr ⟨o', hx⟩)))
    · rw [hcontents]
      exact h.contents
    · rw [hsnapshot]
      exact h.snapshots
    · intro o' x hx
      rcases hcases o' x hx with ⟨_, rfl⟩ | hx
      · exact ⟨fun hp => hnew _ (.inl hp) rfl, fun hd => hnew _ (.inr (.inl hd)) rfl⟩
      · exact h.fresh o' x hx
    · intro o₁ o₂ hne x hx₁ hx₂
      rcases hcases o₁ x hx₁ with ⟨ho₁, hx⟩ | hx₁
      · rcases hcases o₂ x hx₂ with ⟨ho₂, _⟩ | hx₂
        · exact hne (ho₂.trans ho₁.symm)
        · exact hnew x (.inr (.inr ⟨o₂, hx₂⟩)) hx
      · rcases hcases o₂ x hx₂ with ⟨_, hx⟩ | hx₂
        · exact hnew x (.inr (.inr ⟨o₁, hx₁⟩)) hx
        · exact h.alone o₁ o₂ hne x hx₁ hx₂
    · exact h.unpublished
    · rw [hcontents]
      exact h.gone
    · rw [hcontents]
      exact h.purged
  · rwa [Broker.insert, if_neg hopen]

theorem rolledBack {o : Owner} {t : Transaction} (ht : b.transactions o = some t) :
    Sound (b.close o) pub pur (t.inserted ++ dis) := by
  have hown : ∀ x ∈ t.inserted, x ∈ b.inFlight o := by
    rw [Broker.inFlight_of_some ht]
    exact fun x hx => hx
  constructor
  · intro x hx
    rcases hx with hx | hx | ⟨o', hx⟩
    · exact h.below x (.inl hx)
    · rcases mem_append.mp hx with hx | hx
      · exact h.below x (.inr (.inr ⟨o, hown x hx⟩))
      · exact h.below x (.inr (.inl hx))
    · exact h.below x (.inr (.inr ⟨o', (Broker.mem_inFlight_close hx).2⟩))
  · exact h.contents
  · exact fun o' x hx => h.snapshots o' x (Broker.mem_snapshot_close hx)
  · intro o' x hx
    obtain ⟨ho, hx⟩ := Broker.mem_inFlight_close hx
    refine ⟨(h.fresh o' x hx).1, fun hd => ?_⟩
    rcases mem_append.mp hd with hd | hd
    · exact h.alone o' o ho.symm x hx (hown x hd)
    · exact (h.fresh o' x hx).2 hd
  · exact fun o₁ o₂ hne x hx₁ hx₂ => h.alone o₁ o₂ hne x
      (Broker.mem_inFlight_close hx₁).2 (Broker.mem_inFlight_close hx₂).2
  · intro x hx
    rcases mem_append.mp hx with hx | hx
    · exact (h.fresh o x (hown x hx)).1
    · exact h.unpublished x hx
  · exact h.gone
  · exact h.purged

theorem committed {o : Owner} {t : Transaction} (ht : b.transactions o = some t)
    {contents : Contents} (hcontents : contents = t.edits.foldl Contents.edit b.contents) :
    Sound { b.close o with contents }
      (contents.offsets.filter (· ∉ b.contents.offsets) ++ pub)
      (b.contents.offsets.filter (· ∉ contents.offsets) ++ pur) dis := by
  have hmem : ∀ x ∈ contents.offsets, x ∈ b.contents.offsets ∨ x ∈ b.inFlight o := by
    intro x hx
    rw [hcontents] at hx
    rw [Broker.inFlight_of_some ht]
    exact mem_offsets_edits hx
  have hpublished : ∀ x, x ∈ contents.offsets.filter (· ∉ b.contents.offsets) →
      x ∈ contents.offsets ∧ x ∈ b.inFlight o := by
    intro x hx
    obtain ⟨hx, hnot⟩ := mem_filter.mp hx
    exact ⟨hx, (hmem x hx).resolve_left (of_decide_eq_true hnot)⟩
  constructor
  · intro x hx
    rcases hx with hx | hx | ⟨o', hx⟩
    · rcases mem_append.mp hx with hx | hx
      · exact h.below x (.inr (.inr ⟨o, (hpublished x hx).2⟩))
      · exact h.below x (.inl hx)
    · exact h.below x (.inr (.inl hx))
    · exact h.below x (.inr (.inr ⟨o', (Broker.mem_inFlight_close hx).2⟩))
  · intro x hx
    by_cases hold : x ∈ b.contents.offsets
    · exact mem_append_right _ (h.contents x hold)
    · exact mem_append_left _ (mem_filter.mpr ⟨hx, decide_eq_true hold⟩)
  · exact fun o' x hx => mem_append_right _ (h.snapshots o' x (Broker.mem_snapshot_close hx))
  · intro o' x hx
    obtain ⟨ho, hx⟩ := Broker.mem_inFlight_close hx
    refine ⟨fun hp => ?_, (h.fresh o' x hx).2⟩
    rcases mem_append.mp hp with hp | hp
    · exact h.alone o' o ho.symm x hx (hpublished x hp).2
    · exact (h.fresh o' x hx).1 hp
  · exact fun o₁ o₂ hne x hx₁ hx₂ => h.alone o₁ o₂ hne x
      (Broker.mem_inFlight_close hx₁).2 (Broker.mem_inFlight_close hx₂).2
  · intro x hx hp
    rcases mem_append.mp hp with hp | hp
    · exact (h.fresh o x (hpublished x hp).2).2 hx
    · exact h.unpublished x hx hp
  · intro x hx
    by_cases hnow : x ∈ contents.offsets
    · exact .inl hnow
    · refine .inr ?_
      rcases mem_append.mp hx with hx | hx
      · exact absurd (hpublished x hx).1 hnow
      · rcases h.gone x hx with hx | hx
        · exact mem_append_left _ (mem_filter.mpr ⟨hx, decide_eq_true hnow⟩)
        · exact mem_append_right _ hx
  · intro x hx
    rcases mem_append.mp hx with hx | hx
    · obtain ⟨hx, hnot⟩ := mem_filter.mp hx
      exact ⟨mem_append_right _ (h.contents x hx), of_decide_eq_true hnot⟩
    · obtain ⟨hp, hnot⟩ := h.purged x hx
      exact ⟨mem_append_right _ hp, fun hnow => (hmem x hnow).elim hnot fun hf => (h.fresh o x hf).1 hp⟩

end

end Sound

end H2Database.Jms
