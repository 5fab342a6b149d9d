import Mathlib.Data.List.AList

/-!
# Named objects behind handles

A registry holds objects that are shared by handle: `objects` is the heap, a handle is an index into
it, and `names` says which object each name stands for.  Dropping or overwriting a name leaves the
object to those who still hold its handle.  A registry carries the facts that every name stands for
an object of the heap and that no object has two names.
-/

namespace H2Database.Reasoning

open List AList
open Option hiding map map_map

variable {N α : Type} [DecidableEq N]

structure Registry (N α : Type) [DecidableEq N] where
  objects : List α
  names : AList (fun _ : N => Nat)
  valid : ∀ n id, names.lookup n = some id → id < objects.length
  inj : ∀ n m id, names.lookup n = some id → names.lookup m = some id → n = m

namespace Registry

def empty : Registry N α where
  objects := []
  names := ∅
  valid _ _ h := by cases h
  inj _ _ _ h := by cases h

def find (r : Registry N α) (n : N) : Option Nat := r.names.lookup n

def deref (r : Registry N α) (id : Nat) : Option α := r.objects[id]?

def get (r : Registry N α) (n : N) : Option α := (r.find n).bind r.deref

def Live (r : Registry N α) (id : Nat) : Prop := ∃ n, r.find n = some id

/-- A new object under `n`; an object that had the name loses it. -/
def create (r : Registry N α) (n : N) (a : α) : Registry N α where
  objects := r.objects ++ [a]
  names := r.names.insert n r.objects.length
  valid m id h := by
    rw [length_append, length_singleton]
    by_cases hm : m = n
    · subst hm
      rw [lookup_insert] at h
      cases h
      omega
    · rw [lookup_insert_ne hm] at h
      have := r.valid m id h
      omega
  inj m m' id h h' := by
    by_cases hm : m = n <;> by_cases hm' : m' = n
    · exact hm.trans hm'.symm
    · subst hm
      rw [lookup_insert] at h
      rw [lookup_insert_ne hm'] at h'
      cases h
      exact absurd (r.valid m' _ h') (Nat.lt_irrefl _)
    · subst hm'
      rw [lookup_insert_ne hm] at h
      rw [lookup_insert] at h'
      cases h'
      exact absurd (r.valid m _ h) (Nat.lt_irrefl _)
    · rw [lookup_insert_ne hm] at h
      rw [lookup_insert_ne hm'] at h'
      exact r.inj m m' id h h'

def modify (r : Registry N α) (id : Nat) (f : α → α) : Registry N α where
  objects := r.objects.modify id f
  names := r.names
  valid n i h := by
    rw [length_modify]
    exact r.valid n i h
  inj := r.inj

def mapNamed (r : Registry N α) (f : N → α → α) : Registry N α where
  objects := r.objects.mapIdx fun id a =>
    match r.names.entries.find? fun e => e.2 == id with
    | some e => f e.1 a
    | none => a
  names := r.names
  valid n i h := by
    rw [length_mapIdx]
    exact r.valid n i h
  inj := r.inj

def remove (r : Registry N α) (n : N) : Registry N α where
  objects := r.objects
  names := r.names.erase n
  valid m id h := by
    by_cases hm : m = n
    · subst hm
      rw [lookup_erase] at h
      cases h
    · rw [lookup_erase_ne hm] at h
      exact r.valid m id h
  inj m m' id h h' := by
    by_cases hm : m = n
    · subst hm
      rw [lookup_erase] at h
      cases h
    · by_cases hm' : m' = n
      · subst hm'
        rw [lookup_erase] at h'
        cases h'
      · rw [lookup_erase_ne hm] at h
        rw [lookup_erase_ne hm'] at h'
        exact r.inj m m' id h h'

/-- Give a nameless object of the heap the name `n`. -/
def bind (r : Registry N α) (n : N) (id : Nat) (hid : id < r.objects.length)
    (hfree : ∀ m, r.find m ≠ some id) : Registry N α where
  objects := r.objects
  names := r.names.insert n id
  valid m i h := by
    by_cases hm : m = n
    · subst hm
      rw [lookup_insert] at h
      cases h
      exact hid
    · rw [lookup_insert_ne hm] at h
      exact r.valid m i h
  inj m m' i h h' := by
    by_cases hm : m = n <;> by_cases hm' : m' = n
    · exact hm.trans hm'.symm
    · subst hm
      rw [lookup_insert] at h
      rw [lookup_insert_ne hm'] at h'
      cases h
      exact absurd h' (hfree m')
    · subst hm'
      rw [lookup_insert_ne hm] at h
      rw [lookup_insert] at h'
      cases h'
      exact absurd h (hfree m)
    · rw [lookup_insert_ne hm] at h
      rw [lookup_insert_ne hm'] at h'
      exact r.inj m m' i h h'

theorem find_remove (r : Registry N α) (n m : N) :
    (r.remove n).find m = if m = n then none else r.find m := by
  unfold find remove
  by_cases hm : m = n
  · subst hm
    rw [if_pos rfl, lookup_erase]
  · rw [if_neg hm, lookup_erase_ne hm]

/-- The object under `old` gets the name `new` instead; `none` when there is no such object. -/
def rename (r : Registry N α) (old new : N) : Option (Registry N α) :=
  match h : r.find old with
  | none => none
  | some id => some ((r.remove old).bind new id (r.valid old id h) fun m hm => by
      rw [find_remove] at hm
      split_ifs at hm with hmo
      exact hmo (r.inj m old id hm h))

/-! ## Names and handles after each operation -/

variable {r : Registry N α} {n : N} {id : Nat}

theorem deref_of_find (h : r.find n = some id) :
    ∃ a, r.deref id = some a :=
  ⟨_, getElem?_eq_getElem (r.valid n id h)⟩

theorem find_inj {m : N} (h : r.find n = some id) (h' : r.find m = some id) : n = m := r.inj n m id h h'

theorem find_create (r : Registry N α) (n : N) (a : α) (m : N) :
    (r.create n a).find m = if m = n then some r.objects.length else r.find m := by
  unfold find create
  by_cases hm : m = n
  · subst hm
    rw [if_pos rfl, lookup_insert]
  · rw [if_neg hm, lookup_insert_ne hm]

theorem deref_create (r : Registry N α) (n : N) (a : α) (id : Nat) :
    (r.create n a).deref id = if id = r.objects.length then some a else r.deref id := by
  unfold deref create
  by_cases hid : id = r.objects.length
  · subst hid
    rw [if_pos rfl, getElem?_concat_length]
  · rw [if_neg hid]
    by_cases hlt : id < r.objects.length
    · exact getElem?_append_left hlt
    · rw [getElem?_eq_none (by rw [length_append, length_singleton]; omega),
        getElem?_eq_none (by omega)]

@[simp] theorem find_modify (r : Registry N α) (id : Nat) (f : α → α) (n : N) :
    (r.modify id f).find n = r.find n := rfl

theorem deref_modify (r : Registry N α) (id : Nat) (f : α → α) (i : Nat) :
    (r.modify id f).deref i = if i = id then (r.deref i).map f else r.deref i := by
  unfold deref modify
  simp only [getElem?_modify]
  by_cases hi : i = id
  · subst hi
    rw [if_pos rfl]
    cases r.objects[i]? <;> simp
  · rw [if_neg hi]
    cases r.objects[i]? <;> simp [Ne.symm hi]

@[simp] theorem find_mapNamed (r : Registry N α) (f : N → α → α) (n : N) :
    (r.mapNamed f).find n = r.find n := rfl

theorem find?_entries (h : r.find n = some id) :
    (r.names.entries.find? fun e => e.2 == id) = some ⟨n, id⟩ := by
  have hmem : (⟨n, id⟩ : Sigma fun _ : N => Nat) ∈ r.names.entries := mem_lookup_iff.mp h
  cases hfound : r.names.entries.find? fun e => e.2 == id with
  | none => simpa using find?_eq_none.mp hfound _ hmem
  | some e =>
    have he := find?_some hfound
    have hname : r.find e.1 = some e.2 := mem_lookup_iff.mpr (mem_of_find?_eq_some hfound)
    rw [beq_iff_eq] at he
    rw [he] at hname
    obtain ⟨m, i⟩ := e
    cases he
    cases find_inj hname h
    rfl

theorem deref_mapNamed (h : r.find n = some id) (f : N → α → α) :
    (r.mapNamed f).deref id = (r.deref id).map (f n) := by
  have hfound := find?_entries h
  unfold deref mapNamed
  simp only [getElem?_mapIdx, hfound]

@[simp] theorem deref_remove (r : Registry N α) (n : N) (id : Nat) :
    (r.remove n).deref id = r.deref id := rfl

theorem rename_eq_some {r' : Registry N α} {old new : N} (h : r.rename old new = some r') :
    (∃ id, r.find old = some id ∧
      ∀ m, r'.find m = if m = new then some id else if m = old then none else r.find m) ∧
      r'.deref = r.deref ∧ r'.objects = r.objects := by
  unfold rename at h
  split at h
  · cases h
  · rename_i id hid
    cases h
    refine ⟨⟨id, hid, fun m => ?_⟩, rfl, rfl⟩
    unfold find bind
    by_cases hm : m = new
    · subst hm
      rw [if_pos rfl, lookup_insert]
    · rw [if_neg hm, lookup_insert_ne hm]
      exact r.find_remove old m

/-! ## Objects by name -/

theorem get_of_find (h : r.find n = some id) :
    r.get n = r.deref id := by
  rw [get, h, bind_some]

theorem get_eq_none : r.get n = none ↔ r.find n = none := by
  constructor
  · intro h
    cases hf : r.find n with
    | none => rfl
    | some id =>
      obtain ⟨a, ha⟩ := deref_of_find hf
      rw [get_of_find hf, ha] at h
      cases h
  · intro h
    rw [get, h, bind_none]

theorem get_create (r : Registry N α) (n : N) (a : α) (m : N) :
    (r.create n a).get m = if m = n then some a else r.get m := by
  unfold get
  rw [find_create]
  by_cases hm : m = n
  · rw [if_pos hm, if_pos hm, bind_some, deref_create, if_pos rfl]
  · rw [if_neg hm, if_neg hm]
    cases hf : r.find m with
    | none => rfl
    | some id =>
      have hid := r.valid m id hf
      rw [bind_some, bind_some, deref_create, if_neg (by omega)]

theorem get_modify (h : r.find n = some id) (f : α → α) (m : N) :
    (r.modify id f).get m = if m = n then (r.get m).map f else r.get m := by
  unfold get
  rw [find_modify]
  by_cases hm : m = n
  · subst hm
    rw [if_pos rfl, h, bind_some, bind_some, deref_modify, if_pos rfl]
  · rw [if_neg hm]
    cases hf : r.find m with
    | none => rfl
    | some i =>
      have hi : i ≠ id := by
        rintro rfl
        exact hm (find_inj hf h)
      rw [bind_some, bind_some, deref_modify, if_neg hi]

theorem get_modify_eq_some {f : α → α} {b : α} (h : (r.modify id f).get n = some b) :
    ∃ a, r.get n = some a ∧ (b = a ∨ b = f a) := by
  cases hf : r.find n with
  | none =>
    rw [get, find_modify, hf] at h
    cases h
  | some i =>
    rw [get, find_modify, hf, bind_some, deref_modify] at h
    rw [get_of_find hf]
    split_ifs at h with hi
    · obtain ⟨a, ha, rfl⟩ := map_eq_some_iff.mp h
      exact ⟨a, ha, Or.inr rfl⟩
    · exact ⟨b, h, Or.inl rfl⟩

theorem get_mapNamed (r : Registry N α) (f : N → α → α) (m : N) :
    (r.mapNamed f).get m = (r.get m).map (f m) := by
  unfold get
  rw [find_mapNamed]
  cases hf : r.find m with
  | none => rfl
  | some i => rw [bind_some, bind_some, deref_mapNamed hf]

theorem get_remove (r : Registry N α) (n m : N) :
    (r.remove n).get m = if m = n then none else r.get m := by
  unfold get
  rw [find_remove]
  by_cases hm : m = n
  · rw [if_pos hm, if_pos hm, bind_none]
  · rw [if_neg hm, if_neg hm]
    rfl

def named (r : Registry N α) : List (N × α) :=
  r.names.entries.filterMap fun e => (r.deref e.2).map fun a => (e.1, a)

theorem mem_named {a : α} : (n, a) ∈ r.named ↔ r.get n = some a := by
  simp only [named, mem_filterMap, map_eq_some_iff, Prod.mk.injEq]
  constructor
  · rintro ⟨e, he, b, hb, rfl, rfl⟩
    have hf : r.find e.1 = some e.2 := mem_lookup_iff.mpr he
    rw [get_of_find hf, hb]
  · intro h
    cases hf : r.find n with
    | none =>
      rw [get_eq_none.mpr hf] at h
      cases h
    | some id =>
      rw [get_of_find hf] at h
      exact ⟨⟨n, id⟩, mem_lookup_iff.mp hf, a, h, rfl, rfl⟩

theorem nodup_named (r : Registry N α) : (r.named.map Prod.fst).Nodup := by
  have hsub : (r.named.map Prod.fst).Sublist r.names.keys := by
    unfold named AList.keys List.keys
    induction r.names.entries with
    | nil => exact List.Sublist.slnil
    | cons e es ih =>
      rw [filterMap_cons, map_cons]
      cases r.deref e.2 with
      | none => exact ih.cons _
      | some a => exact ih.cons_cons _
  exact hsub.nodup r.names.keys_nodup

def tabulate {β : Type} (r : Registry N α) (f : α → β) : AList (fun _ : N => β) :=
  List.toAList (r.named.map fun p => ⟨p.1, f p.2⟩)

theorem lookup_tabulate {β : Type} (r : Registry N α) (f : α → β) (n : N) :
    (r.tabulate f).lookup n = (r.get n).map f := by
  have hkeys : (r.named.map fun p => (⟨p.1, f p.2⟩ : Sigma fun _ : N => β)).keys =
      r.named.map Prod.fst := by
    rw [List.keys, map_map]
    rfl
  have hnd : (r.named.map fun p => (⟨p.1, f p.2⟩ : Sigma fun _ : N => β)).NodupKeys := by
    rw [List.NodupKeys, hkeys]
    exact r.nodup_named
  rw [tabulate, lookup_to_alist]
  apply Option.ext
  intro b
  rw [← mem_def, mem_dlookup_iff hnd, map_eq_some_iff, List.mem_map]
  constructor
  · rintro ⟨p, hp, hpe⟩
    cases hpe
    exact ⟨p.2, mem_named.mp hp, rfl⟩
  · rintro ⟨a, ha, rfl⟩
    exact ⟨(n, a), mem_named.mpr ha, rfl⟩

end Registry

end H2Database.Reasoning
