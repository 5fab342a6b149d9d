import Mathlib.Data.Finset.Card
import Mathlib.Logic.Relation

/-!
# Cycles, walks and searches

What the replacement of all edges out of one node by a single edge means for the cycles of a relation; walks,
and the places a search has come to that goes on from the shortest ones first; and loops over a queue.
-/

namespace H2Database.Reasoning

open List

section

/-! ### Cycles -/

open Relation

variable {α : Type} {r r' : α → α → Prop} {a b : α}

def Acyclic (r : α → α → Prop) : Prop := ∀ x, ¬TransGen r x x

theorem Acyclic.mono (h : Acyclic r) (hsub : ∀ x y, r' x y → r x y) : Acyclic r' :=
  fun x hx => h x (TransGen.mono hsub _ _ hx)

/-- `r'` is `r` with `b` as the only successor of `a`. -/
def Replaces (r r' : α → α → Prop) (a b : α) : Prop :=
  (∀ y, r' a y ↔ y = b) ∧ ∀ x y, x ≠ a → (r' x y ↔ r x y)

theorem Replaces.transGen_to (h : Replaces r r' a b) (hr : Acyclic r) {x : α} (hx : TransGen r x a) :
    TransGen r' x a := by
  induction hx using TransGen.head_induction_on with
  | @single x hxa =>
    have hne : x ≠ a := by
      rintro rfl
      exact hr x (.single hxa)
    exact .single ((h.2 x a hne).mpr hxa)
  | @head x y hxy hya ih =>
    have hne : x ≠ a := by
      rintro rfl
      exact hr x (.head hxy hya)
    exact .head ((h.2 x y hne).mpr hxy) ih

theorem Replaces.transGen_cases (h : Replaces r r' a b) {x y : α} (hxy : TransGen r' x y) :
    TransGen r x y ∨ ReflTransGen r x a ∧ ReflTransGen r b y ∨ ReflTransGen r b a := by
  induction hxy with
  | @single y hstep =>
    by_cases hx : x = a
    · subst hx
      cases (h.1 y).mp hstep
      exact .inr (.inl ⟨.refl, .refl⟩)
    · exact .inl (.single ((h.2 x y hx).mp hstep))
  | @tail y z _ hstep ih =>
    by_cases hy : y = a
    · subst hy
      cases (h.1 z).mp hstep
      rcases ih with hpath | ⟨-, hclosed⟩ | hclosed
      · exact .inr (.inl ⟨hpath.to_reflTransGen, .refl⟩)
      · exact .inr (.inr hclosed)
      · exact .inr (.inr hclosed)
    · have hyz := (h.2 y z hy).mp hstep
      rcases ih with hpath | ⟨hto, hfrom⟩ | hclosed
      · exact .inl (hpath.tail hyz)
      · exact .inr (.inl ⟨hto, hfrom.tail hyz⟩)
      · exact .inr (.inr hclosed)

theorem Replaces.acyclic_iff (h : Replaces r r' a b) (hr : Acyclic r) :
    Acyclic r' ↔ ¬ReflTransGen r b a := by
  constructor
  · intro hr' hback
    rcases reflTransGen_iff_eq_or_transGen.mp hback with heq | hpath
    · exact hr' a (.single ((h.1 a).mpr heq))
    · exact hr' a (.head ((h.1 b).mpr rfl) (h.transGen_to hr hpath))
  · intro hno x hx
    rcases h.transGen_cases hx with hpath | ⟨hto, hfrom⟩ | hclosed
    · exact hr x hpath
    · exact hno (hfrom.trans hto)
    · exact hno hclosed

/-- Where only finitely many places lead on and none comes back to itself, one comes to an end. -/
theorem Acyclic.exists_end [DecidableEq α] (h : Acyclic r) (places : Finset α) (x : α)
    (hplaces : ∀ y z, ReflTransGen r x y → r y z → y ∈ places) : ∃ z, ReflTransGen r x z ∧ ∀ y, ¬r z y := by
  induction places using Finset.strongInduction generalizing x with
  | H places ih =>
    by_cases hend : ∃ y, r x y
    · obtain ⟨y, hxy⟩ := hend
      obtain ⟨z, hz, hlast⟩ :=
        ih (places.erase x) (Finset.erase_ssubset (hplaces x y .refl hxy)) y fun y' z hy hz =>
        Finset.mem_erase.mpr ⟨fun heq => h x (.head' hxy (heq ▸ hy)), hplaces y' z (hy.head hxy) hz⟩
      exact ⟨z, hz.head hxy, hlast⟩
    · exact ⟨x, .refl, not_exists.mp hend⟩

end

section

/-! ### Walks -/

variable {ν η : Type} {step : ν → η → Prop} {dst : η → ν} {start : ν} {hops : List η} {hop : η}

/-- Each hop is one that may be gone from where the hop before it has led. -/
def Walk (step : ν → η → Prop) (dst : η → ν) : ν → List η → Prop
  | _, [] => True
  | a, hop :: hops => step a hop ∧ Walk step dst (dst hop) hops

def endOf (dst : η → ν) (start : ν) (hops : List η) : ν := hops.foldl (fun _ hop => dst hop) start

@[simp] theorem endOf_concat : endOf dst start (hops ++ [hop]) = dst hop := by
  rw [endOf, foldl_append]
  rfl

theorem walk_concat : Walk step dst start (hops ++ [hop]) ↔
    Walk step dst start hops ∧ step (endOf dst start hops) hop := by
  induction hops generalizing start with
  | nil => exact and_comm
  | cons first hops ih =>
    rw [cons_append, Walk, ih, Walk, and_assoc]
    rfl

theorem walk_and {step' : ν → η → Prop} {p : η → Prop} (h : ∀ a hop, step' a hop ↔ step a hop ∧ p hop) :
    Walk step' dst start hops ↔ Walk step dst start hops ∧ ∀ hop ∈ hops, p hop := by
  induction hops generalizing start with
  | nil => exact ⟨fun _ => ⟨trivial, fun hop hin => absurd hin not_mem_nil⟩, fun _ => trivial⟩
  | cons hop hops ih =>
    rw [Walk, ih, h, Walk, forall_mem_cons]
    exact and_and_and_comm

/-- A search has come to the places in `visited`, and is still to go on from the ends of `items`. -/
structure Frontier [DecidableEq ν] (step : ν → η → Prop) (dst : η → ν) (start : ν) (visited : Finset ν)
    (items : List (List η)) : Prop where
  begun : start ∈ visited
  walk : ∀ hops ∈ items, Walk step dst start hops
  shortest : ∀ hops ∈ items, ∀ w, Walk step dst start w → endOf dst start w = endOf dst start hops →
    hops.length ≤ w.length
  closed : ∀ a hop, a ∈ visited → step a hop → dst hop ∈ visited ∨ ∃ hops ∈ items, endOf dst start hops = a

variable [DecidableEq ν] {visited : Finset ν} {items : List (List η)}

/-- Out of the places visited one has to go through the end of an item. -/
theorem Frontier.far (h : Frontier step dst start visited items) {d : Nat}
    (hd : ∀ hops ∈ items, d ≤ hops.length)
    {w : List η} (hw : Walk step dst start w) (hout : endOf dst start w ∉ visited) : d < w.length := by
  induction w using List.reverseRecOn with
  | nil => exact absurd h.begun hout
  | append_singleton w hop ih =>
    obtain ⟨hwalk, hstep⟩ := walk_concat.mp hw
    rw [endOf_concat] at hout
    rw [length_append, length_singleton]
    by_cases hin : endOf dst start w ∈ visited
    · rcases h.closed _ hop hin hstep with hdst | ⟨hops, hmem, hend⟩
      · exact absurd hdst hout
      · have hle := h.shortest hops hmem w hwalk hend.symm
        have hd := hd hops hmem
        omega
    · have hlt := ih hwalk hin
      omega

/-- The search comes to a new place from the end of an item, and no item is shorter than that one. -/
theorem Frontier.discover (h : Frontier step dst start visited items) (hmem : hops ∈ items)
    (hfirst : ∀ item ∈ items, hops.length ≤ item.length) (hstep : step (endOf dst start hops) hop)
    (hnew : dst hop ∉ visited) :
    Frontier step dst start (insert (dst hop) visited) (items ++ [hops ++ [hop]]) := by
  constructor
  · exact Finset.mem_insert_of_mem h.begun
  · intro item hitem
    rcases mem_append.mp hitem with hitem | hitem
    · exact h.walk item hitem
    · rw [mem_singleton.mp hitem]
      exact walk_concat.mpr ⟨h.walk hops hmem, hstep⟩
  · intro item hitem w hw hend
    rcases mem_append.mp hitem with hitem | hitem
    · exact h.shortest item hitem w hw hend
    · rw [mem_singleton.mp hitem] at hend ⊢
      rw [endOf_concat] at hend
      have hlt := h.far hfirst hw (hend ▸ hnew)
      rw [length_append, length_singleton]
      omega
  · intro a hop' ha hstep'
    rcases Finset.mem_insert.mp ha with rfl | ha
    · exact .inr ⟨_, mem_append_right _ mem_cons_self, endOf_concat⟩
    · rcases h.closed a hop' ha hstep' with hin | ⟨item, hitem, hend⟩
      · exact .inl (Finset.mem_insert_of_mem hin)
      · exact .inr ⟨item, mem_append_left _ hitem, hend⟩

theorem Frontier.leave (h : Frontier step dst start visited (hops :: items))
    (hdone : ∀ hop, step (endOf dst start hops) hop → dst hop ∈ visited) :
    Frontier step dst start visited items := by
  refine ⟨h.begun, fun item hitem => h.walk item (mem_cons_of_mem _ hitem),
    fun item hitem => h.shortest item (mem_cons_of_mem _ hitem), fun a hop ha hstep => ?_⟩
  rcases h.closed a hop ha hstep with hin | ⟨item, hitem, hend⟩
  · exact .inl hin
  · rcases mem_cons.mp hitem with rfl | hitem
    · exact .inl (hdone hop (hend ▸ hstep))
    · exact .inr ⟨item, hitem, hend⟩

end

section

/-! ### Queues -/

variable {σ τ ρ : Type}

/-- `while let Some(task) = queue.pop_front()`: a task leaves a state and tasks for the end of the queue,
or it ends the loop.  The answer is `none` if the loop takes more turns. -/
def drain (visit : σ → τ → ρ ⊕ (σ × List τ)) (finish : σ → ρ) : Nat → σ → List τ → Option ρ
  | 0, _, _ => none
  | _ + 1, s, [] => some (finish s)
  | turns + 1, s, task :: queue =>
    match visit s task with
    | .inl result => some result
    | .inr (s', more) => drain visit finish turns s' (queue ++ more)

/-- The loop ends, with this result. -/
def Drains (visit : σ → τ → ρ ⊕ (σ × List τ)) (finish : σ → ρ) (s : σ) (queue : List τ) (result : ρ) : Prop :=
  ∃ turns, ∀ more, drain visit finish (turns + more) s queue = some result

variable {visit : σ → τ → ρ ⊕ (σ × List τ)} {finish : σ → ρ} {s s' : σ} {queue more : List τ} {task : τ}
    {result : ρ}

theorem Drains.nil : Drains visit finish s [] (finish s) := by
  refine ⟨1, fun more => ?_⟩
  rw [Nat.add_comm]
  rfl

theorem Drains.stop (h : visit s task = .inl result) : Drains visit finish s (task :: queue) result := by
  refine ⟨1, fun more => ?_⟩
  rw [Nat.add_comm, drain, h]

theorem Drains.step (h : visit s task = .inr (s', more))
    (hrest : Drains visit finish s' (queue ++ more) result) :
    Drains visit finish s (task :: queue) result := by
  obtain ⟨turns, hturns⟩ := hrest
  refine ⟨turns + 1, fun extra => ?_⟩
  rw [Nat.add_right_comm, drain, h]
  exact hturns extra

theorem Drains.unique {result' : ρ} (h : Drains visit finish s queue result)
    (h' : Drains visit finish s queue result') :
    result = result' := by
  obtain ⟨turns, hturns⟩ := h
  obtain ⟨turns', hturns'⟩ := h'
  have hsame := hturns' turns
  rw [Nat.add_comm, hturns turns'] at hsame
  exact Option.some.inj hsame

/-- Tasks that do not depend on the results so far are done, and then what they have put into the queue. -/
theorem Drains.level {α β : Type} {visit : List β → τ → ρ ⊕ (List β × List τ)} {finish : List β → ρ}
    {toTask : α → τ}
    {outs : α → List β} {kids : α → List τ} {xs : List α} {s : List β}
    (h : ∀ x ∈ xs, ∀ s, visit s (toTask x) = .inr (s ++ outs x, kids x))
    (hrest : Drains visit finish (s ++ xs.flatMap outs) (queue ++ xs.flatMap kids) result) :
    Drains visit finish s (xs.map toTask ++ queue) result := by
  induction xs generalizing s queue with
  | nil =>
    rw [flatMap_nil, flatMap_nil, append_nil, append_nil] at hrest
    exact hrest
  | cons x xs ih =>
    rw [flatMap_cons, flatMap_cons, ← append_assoc, ← append_assoc] at hrest
    refine Drains.step (h x mem_cons_self s) ?_
    change Drains visit finish _ (xs.map toTask ++ queue ++ kids x) result
    rw [append_assoc]
    exact ih (fun y hy => h y (mem_cons_of_mem _ hy)) hrest

end

end H2Database.Reasoning
