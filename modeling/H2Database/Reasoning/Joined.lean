import Mathlib.Data.List.Basic

/-!
# Names joined by a separator

Two names joined by a separator give back both of them, unless the separator also occurs inside one.
-/

namespace H2Database.Reasoning

open List

variable {α : Type} {x : α}

theorem append_cons_eq_append_cons_iff {a b c d : List α} :
    a ++ x :: b = c ++ x :: d ↔
      (a = c ∧ b = d) ∨ (∃ u, c = a ++ x :: u ∧ b = u ++ x :: d) ∨
        ∃ u, a = c ++ x :: u ∧ d = u ++ x :: b := by
  rw [append_eq_append_iff]
  constructor
  · intro h
    -- what stands between the two ends is empty or starts with the separator
    rcases h with ⟨u, hc, hb⟩ | ⟨u, ha, hd⟩
    · cases u with
      | nil =>
        left
        exact ⟨by rw [hc, append_nil], by simpa using hb⟩
      | cons y u =>
        right
        left
        injection hb with hy hb
        exact ⟨u, by rw [hc, hy], hb⟩
    · cases u with
      | nil =>
        left
        exact ⟨by rw [ha, append_nil], by simpa using hd.symm⟩
      | cons y u =>
        right
        right
        injection hd with hy hd
        exact ⟨u, by rw [ha, hy], hd⟩
  · intro h
    rcases h with ⟨ha, hb⟩ | ⟨u, hc, hb⟩ | ⟨u, ha, hd⟩
    · left
      exact ⟨[], by rw [ha, append_nil], by rw [hb, nil_append]⟩
    · left
      exact ⟨x :: u, hc, by rw [hb]; rfl⟩
    · right
      exact ⟨x :: u, ha, by rw [hd]; rfl⟩

/-- `a` and `b` with the separator between them. -/
def joined (sep : Char) (a b : String) : String := a ++ String.singleton sep ++ b

/-- The second pair of names is the first one, divided at a later separator. -/
def Redivided (sep : Char) (a b c d : String) : Prop :=
  ∃ u, c = joined sep a u ∧ b = joined sep u d

theorem toList_joined (sep : Char) (a b : String) :
    (joined sep a b).toList = a.toList ++ sep :: b.toList := by
  simp [joined, String.toList_append]

variable {sep : Char}

theorem eq_joined_iff {a b c : String} :
    c = joined sep a b ↔ c.toList = a.toList ++ sep :: b.toList := by
  rw [← toList_joined, String.toList_inj]

theorem length_joined (sep : Char) (a b : String) :
    (joined sep a b).toList.length = a.toList.length + b.toList.length + 1 := by
  rw [toList_joined, length_append, length_cons]
  omega

variable {a b c d : String}

theorem Redivided.ne (h : Redivided sep a b c d) : a ≠ c ∧ b ≠ d := by
  obtain ⟨u, hc, hb⟩ := h
  have hlength := length_joined sep a u
  have hlength' := length_joined sep u d
  rw [← hc] at hlength
  rw [← hb] at hlength'
  constructor
  · intro h
    rw [h] at hlength
    omega
  · intro h
    rw [h] at hlength'
    omega

theorem redivided_iff :
    Redivided sep a b c d ↔ ∃ u : List Char, c.toList = a.toList ++ sep :: u ∧
      b.toList = u ++ sep :: d.toList := by
  constructor
  · rintro ⟨u, hc, hb⟩
    exact ⟨u.toList, eq_joined_iff.mp hc, eq_joined_iff.mp hb⟩
  · rintro ⟨u, hc, hb⟩
    exact ⟨String.ofList u, eq_joined_iff.mpr (by rw [String.toList_ofList]; exact hc),
      eq_joined_iff.mpr (by rw [String.toList_ofList]; exact hb)⟩

theorem joined_eq_joined_iff :
    joined sep a b = joined sep c d ↔
      (a = c ∧ b = d) ∨ Redivided sep a b c d ∨ Redivided sep c d a b := by
  rw [eq_joined_iff, toList_joined, append_cons_eq_append_cons_iff, String.toList_inj, String.toList_inj,
    redivided_iff, redivided_iff]

theorem joined_right_inj {a b c : String} : joined sep a c = joined sep b c ↔ a = b := by
  rw [joined, joined, String.append_left_inj, String.append_left_inj]

theorem joined_ne_joined {sep sep' : Char} (h : sep ≠ sep') (a b : String) :
    joined sep a b ≠ joined sep' a b := by
  intro heq
  rw [eq_joined_iff, toList_joined, append_right_inj] at heq
  injection heq with hsep
  exact h hsep

end H2Database.Reasoning
