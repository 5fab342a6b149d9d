import H2Database.Mvstore.Checkpoint

/-!
# A checkpoint among writers (`MVStore::checkpoint` in `h2-mvstore/src/store.rs`)

A checkpoint takes the journals of the maps one by one while other threads go on changing them.  A change
holds the journal's lock, raises the counter, and only then writes the tree; `get_serialized_root` takes no
lock between the counter and the tree.  `step` carries out one such step of a writer or of the checkpoint.
The registry of maps and the log stay as they are during the call, which holds their locks.
-/

namespace H2Database.Mvstore

open Reasoning

variable {V : Type}

inductive Mutation (V : Type) where
  | put (key : Key) (value : V)
  | remove (key : Key)
  | clear

def MVMap.count (m : MVMap V) : MVMap V := { m with modCount := m.modCount + 1 }

def Mutation.write (m : MVMap V) : Mutation V → MVMap V
  | .put k v => { m with tree := m.tree.put k v, journal := m.journal.record k (some v) }
  | .remove k => { m with
      tree := (m.tree.remove k).1
      journal := if (m.tree.remove k).2.isSome then m.journal.record k none else m.journal }
  | .clear => { m with
      tree := .empty
      journal := if m.journal.enabled then { m.journal with patch := .reset } else m.journal }

/-! ## The checkpoint -/

structure Drained (V : Type) where
  name : String
  modificationCount : Nat
  journal : Patch Key V
  root : Option (Root V)

def Drained.delta (d : Drained V) : Option (MapDelta (Root V) V) :=
  match d.root with
  | some root => some ⟨d.name, some root, false, []⟩
  | none =>
    if d.journal.isEmpty then none else some ⟨d.name, none, d.journal.clear, d.journal.changeList⟩

/-- Where the call is.  `todo` are the maps still to come, `drained` those it has been through. -/
inductive Stage (V : Type) where
  | idle
  | visit (todo : List String) (drained : List (Drained V))
  | take (name : String) (count : Nat) (todo : List String) (drained : List (Drained V))
  | load (name : String) (count : Nat) (journal : Patch Key V) (todo : List String)
      (drained : List (Drained V))
  | serialize (name : String) (count : Nat) (journal : Patch Key V) (loaded : Nat) (todo : List String)
      (drained : List (Drained V))
  | write (drained : List (Drained V))
  | restore (left : List (String × Patch Key V))

/-- A store with the changes that are half done, by the map they hold. -/
structure Shared (V : Type) where
  store : MVStore V
  writers : String → Option (Mutation V)
  stage : Stage V

inductive SharedOp (V : Type) where
  | begin (name : String) (μ : Mutation V)
  | finish (name : String)
  | call (order : List String)
  | advance (result cut : H2Result Unit)

namespace Shared

def updateNamed (s : MVStore V) (name : String) (f : MVMap V → MVMap V) : MVStore V :=
  match s.maps.find name with
  | some id => s.update id f
  | none => s

def journals (drained : List (Drained V)) : List (String × Patch Key V) :=
  drained.map fun d => (d.name, d.journal)

def record (s : MVStore V) (drained : List (Drained V)) : FileStore.Append (Catalog V) (Root V) V :=
  if s.hasCheckpoint then
    .delta {
      version := s.version + 1
      previousOffset := 0
      previousLength := 0
      removedMaps := s.checkpointedMaps.keys.filter fun n => (s.maps.find n).isNone
      maps := drained.filterMap Drained.delta }
  else .chunk (.new s.chunkIdCounter (s.version + 1)
    (MVStore.catalogOf (drained.filterMap fun d => d.root.map fun root => (d.name, root))))

/-- The store once the record is written; `cut` is what the log answers. -/
def publish (s : MVStore V) (drained : List (Drained V)) (cut : H2Result Unit) : MVStore V :=
  { s with
    file := s.file.append (record s drained)
    wal := if cut = .ok () then [] else s.wal
    version := s.version + 1
    checkpointedMaps := List.toAList (drained.map fun d => ⟨d.name, d.modificationCount⟩)
    hasCheckpoint := true
    nextCommitVersion := max s.nextCommitVersion (s.version + 1) }

/-- The next step of the call; one that needs the journal of a map waits for its writer. -/
def advance (t : Shared V) (result cut : H2Result Unit) : Shared V :=
  match t.stage with
  | .idle => t
  | .visit [] drained => { t with stage := .write drained }
  | .visit (name :: todo) drained =>
    match t.store.maps.get name with
    | none => t
    | some m =>
      if t.store.hasCheckpoint then { t with stage := .take name m.modCount todo drained }
      else if (t.writers name).isSome then t
      else { t with
        store := updateNamed t.store name fun m => m.setJournaling true
        stage := .take name m.modCount todo drained }
  | .take name count todo drained =>
    match t.store.maps.get name with
    | none => t
    | some m =>
      if (t.writers name).isSome then t
      else { t with
        store := updateNamed t.store name fun m => m.takeJournal.2
        stage :=
          if t.store.needsRoot name then .load name count m.takeJournal.1 todo drained
          else .visit todo (drained ++ [⟨name, count, m.takeJournal.1, none⟩]) }
  | .load name count journal todo drained =>
    match t.store.maps.get name with
    | none => t
    | some m =>
      match m.cachedRoot with
      | some (cached, root) =>
        if cached = m.modCount then
          { t with stage := .visit todo (drained ++ [⟨name, count, journal, some root⟩]) }
        else { t with stage := .serialize name count journal m.modCount todo drained }
      | none => { t with stage := .serialize name count journal m.modCount todo drained }
  | .serialize name count journal loaded todo drained =>
    match result, t.store.maps.get name with
    | .error _, _ => { t with stage := .restore ((name, journal) :: journals drained) }
    | .ok (), none => t
    | .ok (), some m => { t with
        store := updateNamed t.store name fun m => { m with cachedRoot := some (loaded, m.tree) }
        stage := .visit todo (drained ++ [⟨name, count, journal, some m.tree⟩]) }
  | .write drained =>
    match result with
    | .error _ => { t with stage := .restore (journals drained) }
    | .ok () => { t with store := publish t.store drained cut, stage := .idle }
  | .restore [] => { t with stage := .idle }
  | .restore ((name, journal) :: left) =>
    if (t.writers name).isSome then t
    else { t with
      store := updateNamed t.store name fun m => m.restoreJournal journal
      stage := .restore left }

def step (t : Shared V) : SharedOp V → Shared V
  | .begin name μ =>
    match t.store.maps.get name, t.writers name with
    | some _, none => { t with
        store := updateNamed t.store name MVMap.count
        writers := Function.update t.writers name (some μ) }
    | _, _ => t
  | .finish name =>
    match t.writers name with
    | some μ => { t with
        store := updateNamed t.store name fun m => μ.write m
        writers := Function.update t.writers name none }
    | none => t
  | .call order =>
    match t.stage with
    | .idle =>
      if order.Perm (t.store.maps.named.map Prod.fst) then { t with
        store := { t.store with chunkIdCounter := t.store.chunkIdCounter + 1 }
        stage := .visit order [] }
      else t
    | _ => t
  | .advance result cut => t.advance result cut

def start (s : MVStore V) : Shared V := ⟨s, fun _ => none, .idle⟩

/-- When the tree is read, no change of the map has raised the counter the cache will remember without
having written the tree. -/
def Calm (t : Shared V) : SharedOp V → Prop
  | .advance (.ok ()) _ =>
    match t.stage with
    | .serialize name _ _ loaded _ _ =>
      ∀ m, t.store.maps.get name = some m → (t.writers name).isSome → loaded ≠ m.modCount
    | _ => True
  | _ => True

end Shared

end H2Database.Mvstore
