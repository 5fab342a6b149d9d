/-!
# Reads that are stable under more input

A read panics, answers an error or answers a result.  `Stable P R x y` says that `x` does not panic, except
as `P` allows, and that where `x` answers a result, so does `y`, a related one.  With `x` a read of some
bytes and `y` the same read of more bytes, that is: the read is safe, and what follows the bytes does not
change its result.
-/

namespace H2Database.Reasoning

variable {π ε α β γ δ : Type}

def Stable (P : π → Prop) (R : α → β → Prop) (x : ExceptT ε (Except π) α) (y : ExceptT ε (Except π) β) :
    Prop :=
  match x.run with
  | .error p => P p
  | .ok (.error _) => True
  | .ok (.ok a) => ∃ b, y = pure b ∧ R a b

namespace Stable

variable {P : π → Prop} {R : α → β → Prop} {x : ExceptT ε (Except π) α} {y : ExceptT ε (Except π) β}

theorem pure {a : α} {b : β} (h : R a b) :
    Stable P R (Pure.pure a : ExceptT ε (Except π) α) (Pure.pure b) := ⟨b, rfl, h⟩

theorem throw (e : ε) : Stable P R (MonadExcept.throw e : ExceptT ε (Except π) α) y := trivial

theorem bind {S : γ → δ → Prop} {f : α → ExceptT ε (Except π) γ} {g : β → ExceptT ε (Except π) δ}
    (hx : Stable P R x y) (hf : ∀ a b, R a b → Stable P S (f a) (g b)) : Stable P S (x >>= f) (y >>= g) := by
  cases x with
  | error p => exact hx
  | ok answer =>
    cases answer with
    | error e => trivial
    | ok a =>
      obtain ⟨b, hy, hR⟩ : ∃ b, y = Pure.pure b ∧ R a b := hx
      rw [hy]
      exact hf a b hR

theorem mono {S : α → β → Prop} (hx : Stable P R x y) (h : ∀ a b, R a b → S a b) : Stable P S x y := by
  cases x with
  | error p => exact hx
  | ok answer =>
    cases answer with
    | error e => trivial
    | ok a =>
      obtain ⟨b, hy, hR⟩ : ∃ b, y = Pure.pure b ∧ R a b := hx
      exact ⟨b, hy, h a b hR⟩

theorem ite {c : Prop} [Decidable c] {x' : ExceptT ε (Except π) α} {y' : ExceptT ε (Except π) β}
    (hx : c → Stable P R x y) (hx' : Stable P R x' y') :
    Stable P R (if c then x else x') (if c then y else y') := by
  by_cases hc : c
  · rw [if_pos hc, if_pos hc]
    exact hx hc
  · rw [if_neg hc, if_neg hc]
    exact hx'

theorem guard {c d : Prop} [Decidable c] [Decidable d] (e : ε) (hcd : d → c) (hx : ¬ c → Stable P R x y) :
    Stable P R (if c then MonadExcept.throw e else x) (if d then MonadExcept.throw e else y) := by
  by_cases hc : c
  · rw [if_pos hc]
    exact throw e
  · rw [if_neg hc, if_neg (mt hcd hc)]
    exact hx hc

theorem answers (hx : Stable P R x y) :
    (∃ p, x.run = .error p ∧ P p) ∨
      ∃ answer, x.run = .ok answer ∧ ∀ a, answer = .ok a → ∃ b, y = Pure.pure b ∧ R a b := by
  cases x with
  | error p => exact .inl ⟨p, rfl, hx⟩
  | ok answer =>
    refine .inr ⟨answer, rfl, fun a ha => ?_⟩
    rw [ha] at hx
    exact hx

end Stable

end H2Database.Reasoning
