import Mathlib.Data.List.Nodup
import Mathlib.Logic.Function.Basic

/-!
# Partial maps

Entries are taken out of a partial map, and an entry is moved to another key, where it takes the place
of what was there.
-/

namespace H2Database.Reasoning

open List Function Option

variable {K V : Type} [DecidableEq K]

def without (f : K → Option V) (keys : List K) : K → Option V := fun k => if k ∈ keys then none else f k

variable {f : K → Option V} {keys : List K} {k : K}

theorem without_of_mem (h : k ∈ keys) : without f keys k = none := if_pos h

theorem without_of_not_mem (h : k ∉ keys) : without f keys k = f k := if_neg h

theorem without_eq_self_iff : without f keys k = f k ↔ (k ∈ keys → f k = none) := by
  by_cases h : k ∈ keys
  · rw [without_of_mem h, eq_comm]
    exact ⟨fun hnone _ => hnone, fun hnone => hnone h⟩
  · exact iff_of_true (without_of_not_mem h) fun hin => absurd hin h

/-- The entry of one key is moved to another; there is none to move if the map lacks it. -/
def rekey (f : K → Option V) (old new : K) : Option (K → Option V) :=
  (f old).map fun v => Function.update (without f [old]) new (some v)

theorem rekey_apply_of_ne {f' : K → Option V} {old new : K} (h : rekey f old new = some f') (hold : k ≠ old)
    (hnew : k ≠ new) : f' k = f k := by
  obtain ⟨v, _, hf'⟩ := map_eq_some_iff.mp h
  rw [← hf', update_of_ne hnew]
  exact without_of_not_mem fun hin => hold (mem_singleton.mp hin)

theorem rekey_apply_old {f' : K → Option V} {old new : K} (h : rekey f old new = some f') (hne : old ≠ new) :
    f' old = none := by
  obtain ⟨v, _, hf'⟩ := map_eq_some_iff.mp h
  rw [← hf', update_of_ne hne]
  exact without_of_mem mem_cons_self

theorem rekey_self (f : K → Option V) (k : K) : (rekey f k k).getD f = f := by
  cases hk : f k with
  | none =>
    rw [rekey, hk]
    rfl
  | some v =>
    rw [rekey, hk, map_some, getD_some]
    ext1 k'
    by_cases heq : k' = k
    · rw [heq, update_self, hk]
    · rw [update_of_ne heq]
      exact without_of_not_mem fun hin => heq (mem_singleton.mp hin)

section Lists

variable {entries : List (K × V)}

theorem lookup_filter_of_mem (h : k ∈ keys) :
    (entries.filter fun entry => entry.1 ∉ keys).lookup k = none := by
  rw [lookup_eq_none_iff]
  intro entry hentry
  have hout := (mem_filter.mp hentry).2
  rw [bne_iff_ne]
  intro heq
  rw [← heq] at hout
  simp [h] at hout

theorem lookup_filter_of_not_mem (h : k ∉ keys) :
    (entries.filter fun entry => entry.1 ∉ keys).lookup k = entries.lookup k := by
  induction entries with
  | nil => rfl
  | cons entry entries ih =>
    by_cases hin : entry.1 ∈ keys
    · have hne : (k == entry.1) = false := by
        rw [beq_eq_false_iff_ne]
        intro heq
        exact h (heq ▸ hin)
      rw [filter_cons_of_neg (by simp [hin]), ih, lookup_cons, hne]
    · rw [filter_cons_of_pos (by simp [hin]), lookup_cons, lookup_cons, ih]

theorem lookup_filter :
    (entries.filter fun entry => entry.1 ∉ keys).lookup k = without (fun k => entries.lookup k) keys k := by
  by_cases h : k ∈ keys
  · rw [lookup_filter_of_mem h, without_of_mem h]
  · rw [lookup_filter_of_not_mem h, without_of_not_mem h]

theorem lookup_map_append (keys : List K) (v : V) (entries : List (K × V)) (k : K) :
    (keys.map (fun key => (key, v)) ++ entries).lookup k = if k ∈ keys then some v else entries.lookup k := by
  induction keys with
  | nil => rfl
  | cons key keys ih =>
    rw [map_cons, cons_append, lookup_cons]
    by_cases heq : k = key
    · rw [beq_iff_eq.mpr heq, if_pos (heq ▸ mem_cons_self)]
    · rw [beq_eq_false_iff_ne.mpr heq, ih]
      simp [heq]

end Lists

end H2Database.Reasoning
