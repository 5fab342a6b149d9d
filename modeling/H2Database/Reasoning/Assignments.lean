import Mathlib.Data.List.Induction
import Mathlib.Data.List.Nodup

/-!
# Assignments one after the other and all at once

A row is a list, and an assignment puts a value that is computed from a row into a place.  Assignments
that are carried out one after the other may each see what those before it did.  `Reassigned` says what they
mean when all are computed from one row, `InTurn` when a run of them comes to that, and `Steady` which
assignments come to it in every order.
-/

namespace H2Database.Reasoning

open List Option

variable {α β κ : Type}

structure Setter (α : Type) where
  place : Nat
  value : List α → Option α

/-- One after the other, each computed from what `source` makes of the row so far. -/
def assignAll (source : List α → List α) (row : List α) : List (Setter α) → Option (List α)
  | [] => some row
  | a :: rest => (a.value (source row)).bind fun v => assignAll source (row.set a.place v) rest

def lastAt (as : List (Setter α)) (p : Nat) : Option (Setter α) :=
  (as.filter fun a => a.place == p).getLast?

/-- `new` is `row` with each assigned place replaced by the value that its assignment has on `old`. -/
structure Reassigned (old row : List α) (as : List (Setter α)) (new : List α) : Prop where
  defined : ∀ a ∈ as, (a.value old).isSome
  length : new.length = row.length
  places : ∀ p < row.length, new[p]? = match lastAt as p with
    | none => row[p]?
    | some a => a.value old

/-- When its turn comes no assignment lacks a value, and the last one to a place has the value that it has
on `old`. -/
def InTurn (source : List α → List α) (old row : List α) (as : List (Setter α)) : Prop :=
  ∀ done a rest r, as = done ++ a :: rest → assignAll source row done = some r →
    ∃ v, a.value (source r) = some v ∧ ((∀ b ∈ rest, b.place ≠ a.place) → a.value old = some v)

/-- `r` is `row` with some of its places changed, each to the value of an assignment to it on `row`. -/
structure Mixed (row : List α) (as : List (Setter α)) (r : List α) : Prop where
  length : r.length = row.length
  places : ∀ p, r[p]? = row[p]? ∨ ∃ a ∈ as, a.place = p ∧ r[p]? = a.value row

/-- No value depends on which of the other assignments, later ones to its own place apart, have already been
carried out. -/
def Steady (row : List α) (as : List (Setter α)) : Prop :=
  ∀ before a after, as = before ++ a :: after →
    ∀ r, Mixed row (before ++ after.filter fun b => b.place != a.place) r → a.value r = a.value row

def Reorders (key : β → κ) [BEq κ] (xs ys : List β) : Prop :=
  ys.Perm xs ∧ ∀ k, ys.filter (fun b => key b == k) = xs.filter (fun b => key b == k)

theorem Reorders.refl (key : β → κ) [BEq κ] (xs : List β) : Reorders key xs xs :=
  ⟨List.Perm.refl _, fun _ => rfl⟩

theorem reorders_of_perm {key : β → κ} [BEq κ] [LawfulBEq κ] {xs ys : List β} (hnodup : (xs.map key).Nodup)
    (h : ys.Perm xs) : Reorders key xs ys := by
  refine ⟨h, fun k => ?_⟩
  have hperm := h.filter fun b => key b == k
  have hshort : (xs.filter fun b => key b == k).length ≤ 1 := by
    have hpairs := (pairwise_map.mp hnodup).filter fun b => key b == k
    have hkey : ∀ b ∈ xs.filter (fun b => key b == k), key b = k := fun b hb => eq_of_beq (mem_filter.mp hb).2
    generalize xs.filter (fun b => key b == k) = zs at hpairs hkey
    cases zs with
    | nil => exact Nat.zero_le 1
    | cons a rest =>
      cases rest with
      | nil => exact Nat.le_refl 1
      | cons b rest =>
        refine absurd ?_ ((pairwise_cons.mp hpairs).1 b mem_cons_self)
        rw [hkey a mem_cons_self, hkey b (mem_cons_of_mem _ mem_cons_self)]
  generalize xs.filter (fun b => key b == k) = zs at hperm hshort ⊢
  cases zs with
  | nil => exact perm_nil.mp hperm
  | cons a rest =>
    cases rest with
    | nil => exact perm_singleton.mp hperm
    | cons b rest => exact absurd hshort (by simp)

section

variable {source : List α → List α} {row : List α} {as : List (Setter α)}

theorem assignAll_append (done rest : List (Setter α)) :
    assignAll source row (done ++ rest) =
      (assignAll source row done).bind fun r => assignAll source r rest := by
  induction done generalizing row with
  | nil => rfl
  | cons a done ih =>
    rw [cons_append, assignAll, assignAll]
    cases a.value (source row) with
    | none => rfl
    | some v => exact ih

variable {new : List α}

theorem length_assignAll (h : assignAll source row as = some new) :
    new.length = row.length := by
  induction as generalizing row with
  | nil =>
    cases h
    rfl
  | cons a rest ih =>
    obtain ⟨v, _, h⟩ := bind_eq_some_iff.mp h
    rw [ih h, length_set]

theorem assignAll_frame (h : assignAll source row as = some new) {p : Nat}
    (hp : ∀ a ∈ as, a.place ≠ p) : new[p]? = row[p]? := by
  induction as generalizing row with
  | nil =>
    cases h
    rfl
  | cons a rest ih =>
    obtain ⟨v, _, h⟩ := bind_eq_some_iff.mp h
    rw [ih h fun b hb => hp b (mem_cons_of_mem _ hb),
      getElem?_set_ne (hp a mem_cons_self)]

variable {a : Setter α}

variable {done rest : List (Setter α)}

theorem assignAll_last
    (h : assignAll source row (done ++ a :: rest) = some new) (hplace : a.place < row.length) :
    ∃ r v, assignAll source row done = some r ∧ a.value (source r) = some v ∧
      ((∀ b ∈ rest, b.place ≠ a.place) → new[a.place]? = some v) := by
  rw [assignAll_append] at h
  obtain ⟨r, hr, h⟩ := bind_eq_some_iff.mp h
  obtain ⟨v, hv, h⟩ := bind_eq_some_iff.mp h
  refine ⟨r, v, hr, hv, fun hrest => ?_⟩
  rw [assignAll_frame h hrest]
  exact getElem?_set_self (by rwa [length_assignAll hr])

theorem lastAt_eq_some (h : ∀ b ∈ rest, b.place ≠ a.place) : lastAt (done ++ a :: rest) a.place = some a := by
  have hnone : rest.filter (fun b => b.place == a.place) = [] :=
    filter_eq_nil_iff.mpr fun b hb heq => h b hb (eq_of_beq heq)
  have hself : (a.place == a.place) = true := beq_self_eq_true _
  rw [lastAt, filter_append, filter_cons_of_pos (p := fun b : Setter α => b.place == a.place) hself,
    hnone]
  exact getLast?_concat

theorem lastAt_eq_none {p : Nat} (h : ∀ a ∈ as, a.place ≠ p) : lastAt as p = none := by
  have hnone : as.filter (fun b => b.place == p) = [] :=
    filter_eq_nil_iff.mpr fun b hb heq => h b hb (eq_of_beq heq)
  rw [lastAt, hnone]
  rfl

theorem exists_last (as : List (Setter α)) (p : Nat) :
    (∀ a ∈ as, a.place ≠ p) ∨
      ∃ done a rest, as = done ++ a :: rest ∧ a.place = p ∧ ∀ b ∈ rest, b.place ≠ p := by
  induction as with
  | nil => exact .inl fun a ha => absurd ha not_mem_nil
  | cons a as ih =>
    rcases ih with hnone | ⟨done, b, rest, heq, hb, hrest⟩
    · by_cases ha : a.place = p
      · exact .inr ⟨[], a, as, rfl, ha, hnone⟩
      · exact .inl (forall_mem_cons.mpr ⟨ha, hnone⟩)
    · exact .inr ⟨a :: done, b, rest, by rw [heq, cons_append], hb, hrest⟩

theorem InTurn.assignAll_isSome {old : List α} (h : InTurn source old row as) :
    ∃ new, assignAll source row as = some new := by
  have hfront : ∀ rest done, as = done ++ rest → (∃ r, assignAll source row done = some r) →
      ∃ new, assignAll source row as = some new := by
    intro rest
    induction rest with
    | nil =>
      intro done heq hdone
      rw [heq, append_nil]
      exact hdone
    | cons a rest ih =>
      rintro done heq ⟨r, hr⟩
      obtain ⟨v, hv, _⟩ := h done a rest r heq hr
      apply ih (done ++ [a]) (by rw [heq, append_assoc, singleton_append])
      refine ⟨r.set a.place v, ?_⟩
      rw [assignAll_append, hr, bind_some, assignAll, hv, bind_some, assignAll]
  exact hfront as [] rfl ⟨row, rfl⟩

/-- One after the other comes to the same as all at once exactly if every last assignment has, when its
turn comes, the value that it has on the old row. -/
theorem assignAll_eq_some_iff {old new : List α} (hnew : Reassigned old row as new)
    (hplaces : ∀ a ∈ as, a.place < row.length) :
    assignAll source row as = some new ↔ InTurn source old row as := by
  constructor
  · intro h done a rest r heq hr
    have hin : a ∈ as := by
      rw [heq]
      exact mem_append_right _ mem_cons_self
    have hplace := hplaces a hin
    rw [heq] at h
    obtain ⟨r', v, hr', hv, hlast⟩ := assignAll_last h hplace
    rw [hr] at hr'
    cases hr'
    refine ⟨v, hv, fun hrest => ?_⟩
    have hvalue := hnew.places a.place hplace
    rw [heq, lastAt_eq_some hrest, hlast hrest] at hvalue
    exact hvalue.symm
  · intro h
    obtain ⟨r, hr⟩ := h.assignAll_isSome
    rw [hr]
    have hlength := length_assignAll hr
    apply congrArg some
    apply ext_getElem?
    intro p
    by_cases hp : p < row.length
    · rw [hnew.places p hp]
      rcases exists_last as p with hnone | ⟨done, a, rest, heq, ha, hrest⟩
      · rw [lastAt_eq_none hnone, assignAll_frame hr hnone]
      · subst ha
        rw [heq] at hr
        obtain ⟨r', v, hr', hv, hlast⟩ := assignAll_last hr hp
        obtain ⟨w, hw, hold⟩ := h done a rest r' heq hr'
        rw [hv] at hw
        cases hw
        rw [heq, lastAt_eq_some hrest, hlast hrest]
        exact (hold hrest).symm
    · rw [getElem?_eq_none (by omega), getElem?_eq_none (by rw [hnew.length]; omega)]

theorem inTurn_const {old new : List α} (hnew : Reassigned old row as new) :
    InTurn (fun _ => old) old row as := by
  intro done a rest r heq _
  have hin : a ∈ as := by
    rw [heq]
    exact mem_append_right _ mem_cons_self
  obtain ⟨v, hv⟩ := isSome_iff_exists.mp (hnew.defined a hin)
  exact ⟨v, hv, fun _ => hv⟩

theorem InTurn.concat {old : List α} (h : InTurn source old row as) {c : Setter α} {v : α}
    (hc : ∀ r, c.value r = some v) : InTurn source old row (as ++ [c]) := by
  intro done a rest r heq hr
  rcases eq_nil_or_concat rest with hrest | ⟨rest', last, hrest⟩
  · rw [hrest] at heq
    cases (append_inj_right' heq rfl)
    exact ⟨v, hc _, fun _ => hc _⟩
  · rw [hrest, concat_eq_append, ← cons_append, ← append_assoc] at heq
    obtain ⟨w, hw, hold⟩ := h done a rest' r (append_inj_left' heq rfl) hr
    refine ⟨w, hw, fun hplaces => hold fun b hb => hplaces b ?_⟩
    rw [hrest, concat_eq_append]
    exact mem_append_left _ hb

variable {r : List α} {bs : List (Setter α)}

theorem Mixed.mono (h : Mixed row as r) (hsub : ∀ a ∈ as, a ∈ bs) :
    Mixed row bs r where
  length := h.length
  places p := by
    rcases h.places p with hp | ⟨a, ha, hplace, hvalue⟩
    · exact .inl hp
    · exact .inr ⟨a, hsub a ha, hplace, hvalue⟩

theorem Mixed.set {v : α} (h : Mixed row as r) (hv : a.value row = some v) :
    Mixed row (as ++ [a]) (r.set a.place v) where
  length := by rw [length_set, h.length]
  places p := by
    by_cases hp : a.place = p
    · subst hp
      by_cases hlt : a.place < row.length
      · right
        refine ⟨a, mem_append_right _ (mem_singleton.mpr rfl), rfl, ?_⟩
        rw [hv, getElem?_set_self (by rwa [h.length])]
      · left
        rw [getElem?_eq_none (by rw [length_set, h.length]; omega),
          getElem?_eq_none (by omega)]
    · rw [getElem?_set_ne hp]
      exact (h.mono fun b hb => mem_append_left _ hb).places p

theorem Steady.value_eq {bs done rest : List (Setter α)} (h : Steady row as)
    (horder : Reorders Setter.place as bs) (heq : bs = done ++ a :: rest) (hr : Mixed row done r) :
    a.value r = a.value row := by
  -- the assignments to the place of `a` stand in `as` in the order in which they stand in `bs`
  have hfilter := horder.2 a.place
  rw [heq, filter_append,
    filter_cons_of_pos (p := fun b : Setter α => b.place == a.place) (beq_self_eq_true _)] at hfilter
  obtain ⟨before, tail, has, hbefore, htail⟩ := filter_eq_append_iff.mp hfilter.symm
  obtain ⟨skipped, after, htail, _, _, _⟩ := filter_eq_cons_iff.mp htail
  subst htail
  apply h (before ++ skipped) a after (by rw [has, append_assoc])
  apply hr.mono
  intro b hb
  by_cases hplace : b.place = a.place
  · have hin : b ∈ done.filter fun b => b.place == a.place := mem_filter.mpr ⟨hb, beq_iff_eq.mpr hplace⟩
    rw [← hbefore] at hin
    exact mem_append_left _ (mem_append_left _ (mem_filter.mp hin).1)
  · have hin : b ∈ as := horder.1.mem_iff.mp (by rw [heq]; exact mem_append_left _ hb)
    rw [has, ← append_assoc] at hin
    rcases mem_append.mp hin with hin | hin
    · exact mem_append_left _ hin
    · rcases mem_cons.mp hin with hin | hin
      · exact absurd (congrArg Setter.place hin) hplace
      · exact mem_append_right _ (mem_filter.mpr ⟨hin, bne_iff_ne.mpr hplace⟩)

theorem Steady.mixed {bs done rest : List (Setter α)} (h : Steady row as)
    (horder : Reorders Setter.place as bs) (heq : bs = done ++ rest) (hr : assignAll id row done = some r) :
    Mixed row done r := by
  induction done using List.reverseRecOn generalizing rest r with
  | nil =>
    cases hr
    exact ⟨rfl, fun _ => .inl rfl⟩
  | append_singleton done a ih =>
    rw [assignAll_append] at hr
    obtain ⟨mid, hmid, hr⟩ := bind_eq_some_iff.mp hr
    obtain ⟨v, hv, hr⟩ := bind_eq_some_iff.mp hr
    cases hr
    rw [append_assoc, singleton_append] at heq
    have hmixed := ih heq hmid
    exact hmixed.set ((h.value_eq horder heq hmixed).symm.trans hv)

/-- In every order each assignment has its old value when its turn comes. -/
theorem Steady.inTurn (h : Steady row as) (horder : Reorders Setter.place as bs)
    (hdefined : ∀ a ∈ as, (a.value row).isSome) : InTurn id row row bs := by
  intro done a rest r heq hr
  have hvalue := h.value_eq horder heq (h.mixed horder heq hr)
  have hin : a ∈ as := horder.1.mem_iff.mp (by rw [heq]; exact mem_append_right _ mem_cons_self)
  obtain ⟨v, hv⟩ := isSome_iff_exists.mp (hdefined a hin)
  exact ⟨v, hvalue.trans hv, fun _ => hv⟩

theorem Reassigned.value_eq {old new : List α} (hnew : Reassigned old row as new)
    (hnodup : (as.map Setter.place).Nodup) (ha : a ∈ as) (hplace : a.place < row.length) :
    new[a.place]? = a.value old := by
  rw [hnew.places a.place hplace]
  rcases exists_last as a.place with hnone | ⟨done, b, rest, heq, hb, hrest⟩
  · exact absurd rfl (hnone a ha)
  · have hin : b ∈ as := by
      rw [heq]
      exact mem_append_right _ mem_cons_self
    rw [← inj_on_of_nodup_map hnodup hin ha hb, heq, lastAt_eq_some (by rwa [hb])]

/-- Where no place is assigned twice, assignments that come to the same in every order are steady. -/
theorem steady_of_orders {f : β → Setter α} {xs : List β} {flag : List (Setter α)}
    (hnew : Reassigned row row (xs.map f) new) (hplaces : ∀ a ∈ xs.map f, a.place < row.length)
    (hnodup : ((xs.map f ++ flag).map Setter.place).Nodup)
    (h : ∀ ys : List β, ys.Perm xs → assignAll id row (ys.map f ++ flag) = some new) :
      Steady row (xs.map f) := by
  classical
  intro before a after heq r hr
  obtain ⟨xb, tail, hxs, hbefore, htail⟩ := map_eq_append_iff.mp heq
  obtain ⟨x, xa, htail, hx, hafter⟩ := map_eq_cons_iff.mp htail
  subst hxs htail hbefore hafter hx
  -- first those that `r` shows, then `f x`, then the others
  obtain ⟨shown, hshown⟩ : ∃ shown : β → Bool, ∀ b, shown b = true ↔ r[(f b).place]? = (f b).value row :=
    ⟨fun b => decide (r[(f b).place]? = (f b).value row), fun b => decide_eq_true_iff⟩
  have hperm : ((xb ++ xa).filter shown ++ x :: (xb ++ xa).filter fun b => !shown b).Perm (xb ++ x :: xa) :=
    perm_middle.trans (((filter_append_perm shown (xb ++ xa)).cons x).trans perm_middle.symm)
  have hrun := h _ hperm
  have hdistinct := (((hperm.map f).append_right flag).map Setter.place).nodup_iff.mpr hnodup
  rw [map_append, map_cons, append_assoc, cons_append] at hrun
  rw [@map_append _ _ f, map_cons, append_assoc, cons_append, map_append,
    map_cons] at hdistinct
  have hplain : (((xb ++ x :: xa).map f).map Setter.place).Nodup := by
    rw [map_append] at hnodup
    exact (nodup_append.mp hnodup).1
  have hin : f x ∈ (xb ++ x :: xa).map f := mem_map_of_mem (mem_append_right _ mem_cons_self)
  obtain ⟨r', v, hr', hv, hlast⟩ := assignAll_last hrun (hplaces _ hin)
  obtain ⟨_, htail, hapart⟩ := nodup_append.mp hdistinct
  have hself : (f x).value r' = (f x).value row := by
    refine Eq.trans hv ?_
    rw [← hnew.value_eq hplain hin (hplaces _ hin), hlast]
    exact fun b hb hplace => (nodup_cons.mp htail).1 (mem_map.mpr ⟨b, hb, hplace⟩)
  suffices hsame : r = r' by rw [hsame, hself]
  apply ext_getElem?
  intro p
  by_cases hp : ∃ b ∈ (xb ++ xa).filter shown, (f b).place = p
  · obtain ⟨b, hb, hp⟩ := hp
    subst hp
    have hb' : f b ∈ (xb ++ x :: xa).map f :=
      mem_map_of_mem (hperm.mem_iff.mp (mem_append_left _ hb))
    rw [(hshown b).mp (mem_filter.mp hb).2, ← hnew.value_eq hplain hb' (hplaces _ hb')]
    rw [assignAll_append, hr', bind_some] at hrun
    apply assignAll_frame hrun
    intro c hc hplace
    exact hapart _ (mem_map_of_mem (mem_map_of_mem hb)) _
      (mem_map.mpr ⟨c, hc, rfl⟩) hplace.symm
  · rw [assignAll_frame hr' fun c hc hplace => ?_]
    · rcases hr.places p with hold | ⟨c, hc, hplace, hvalue⟩
      · exact hold
      · exfalso
        have hc' : c ∈ (xb ++ xa).map f := by
          rw [map_append]
          rcases mem_append.mp hc with hc | hc
          · exact mem_append_left _ hc
          · exact mem_append_right _ (mem_filter.mp hc).1
        obtain ⟨b, hb, hbc⟩ := mem_map.mp hc'
        subst hbc
        rw [← hplace] at hvalue
        exact hp ⟨b, mem_filter.mpr ⟨hb, (hshown b).mpr hvalue⟩, hplace⟩
    · obtain ⟨b, hb, hbc⟩ := mem_map.mp hc
      subst hbc
      exact hp ⟨b, hb, hplace⟩

theorem Reassigned.reorder {old new : List α} (hnew : Reassigned old row as new)
    (h : Reorders Setter.place as bs) : Reassigned old row bs new where
  defined a ha := hnew.defined a (h.1.mem_iff.mp ha)
  length := hnew.length
  places p hp := by
    have hlast : lastAt bs p = lastAt as p := congrArg List.getLast? (h.2 p)
    rw [hlast]
    exact hnew.places p hp

theorem Reassigned.concat {old new : List α} (hnew : Reassigned old row as new)
    (hplace : a.place < row.length) (hvalue : a.value old = new[a.place]?) :
    Reassigned old row (as ++ [a]) new where
  defined b hb := by
    rcases mem_append.mp hb with hb | hb
    · exact hnew.defined b hb
    · rw [mem_singleton.mp hb, hvalue, getElem?_eq_getElem (by rwa [hnew.length])]
      rfl
  length := hnew.length
  places p hp := by
    by_cases hap : a.place = p
    · subst hap
      have hlast : lastAt (as ++ [a]) a.place = some a :=
        lastAt_eq_some fun b hb => absurd hb not_mem_nil
      rw [hlast]
      exact hvalue.symm
    · have hfalse : ¬ (a.place == p) = true := fun heq => hap (eq_of_beq heq)
      have hlast : lastAt (as ++ [a]) p = lastAt as p := by
        rw [lastAt, filter_append, filter_cons_of_neg (p := fun b : Setter α => b.place == p) hfalse,
          filter_nil, append_nil]
        rfl
      rw [hlast]
      exact hnew.places p hp

end

end H2Database.Reasoning
