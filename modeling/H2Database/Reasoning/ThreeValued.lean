import Mathlib.Data.Bool.Basic
import Mathlib.Data.List.Basic

/-!
# Three-valued logic

A truth value is true, false or unknown (`none`).  The connectives answer as soon as the known operands
decide.
-/

namespace H2Database.Reasoning

abbrev Truth := Option Bool

namespace Truth

def not (t : Truth) : Truth := t.map (!·)

def and : Truth → Truth → Truth
  | some false, _ => some false
  | _, some false => some false
  | some true, some true => some true
  | _, _ => none

def or : Truth → Truth → Truth
  | some true, _ => some true
  | _, some true => some true
  | some false, some false => some false
  | _, _ => none

def any : List Truth → Truth
  | [] => some false
  | t :: ts => or t (any ts)

@[simp] theorem and_some (a b : Bool) : and (some a) (some b) = some (a && b) := by
  cases a <;> cases b <;> rfl

@[simp] theorem or_some (a b : Bool) : or (some a) (some b) = some (a || b) := by
  cases a <;> cases b <;> rfl

variable {s t : Truth}

theorem and_eq_true : and s t = some true ↔ s = some true ∧ t = some true := by
  rcases s with _ | _ | _ <;> rcases t with _ | _ | _ <;> decide

theorem and_eq_false : and s t = some false ↔ s = some false ∨ t = some false := by
  rcases s with _ | _ | _ <;> rcases t with _ | _ | _ <;> decide

theorem or_eq_true : or s t = some true ↔ s = some true ∨ t = some true := by
  rcases s with _ | _ | _ <;> rcases t with _ | _ | _ <;> decide

theorem or_eq_false : or s t = some false ↔ s = some false ∧ t = some false := by
  rcases s with _ | _ | _ <;> rcases t with _ | _ | _ <;> decide

theorem any_eq_true {ts : List Truth} : any ts = some true ↔ some true ∈ ts := by
  induction ts with
  | nil => simp [any]
  | cons t ts ih => rw [any, or_eq_true, ih, List.mem_cons, eq_comm]

theorem any_eq_false {ts : List Truth} : any ts = some false ↔ ∀ t ∈ ts, t = some false := by
  induction ts with
  | nil => simp [any]
  | cons t ts ih => rw [any, or_eq_false, ih, List.forall_mem_cons]

theorem any_of_known (ts : List Truth) (h : ∀ t ∈ ts, ∃ b, t = some b) : ∃ b, any ts = some b := by
  induction ts with
  | nil => exact ⟨false, rfl⟩
  | cons t ts ih =>
    obtain ⟨a, rfl⟩ := h t List.mem_cons_self
    obtain ⟨b, hb⟩ := ih fun u hu => h u (List.mem_cons_of_mem _ hu)
    exact ⟨a || b, by rw [any, hb, or_some]⟩

end Truth

end H2Database.Reasoning
