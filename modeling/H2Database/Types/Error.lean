import Mathlib.Data.List.Basic

/-!
# `H2Error` (`h2-types/src/error.rs`)

The error kinds with their message texts.  An I/O error carries the operating system's text.
-/

namespace H2Database

inductive H2Error where
  | io (msg : String)
  | serialization (msg : String)
  | typeError (msg : String)
  | storage (msg : String)
  | transaction (msg : String)
  | sqlParse (msg : String)
  | execution (msg : String)
  | catalog (msg : String)
  | lockConflict (msg : String)
  | queryTimeout (msg : String)
  | corrupted (msg : String)
  | readOnly (msg : String)
  | replication (msg : String)
  | unsupported (msg : String)
  | offsetOutOfRange (msg : String)
  | authentication (msg : String)
  | permissionDenied (msg : String)
  deriving DecidableEq, Repr

def H2Error.display : H2Error → String
  | .io msg => s!"I/O error: {msg}"
  | .serialization msg => s!"Serialization error: {msg}"
  | .typeError msg => s!"Type error: {msg}"
  | .storage msg => s!"Storage error: {msg}"
  | .transaction msg => s!"Transaction error: {msg}"
  | .sqlParse msg => s!"SQL parse error: {msg}"
  | .execution msg => s!"Execution error: {msg}"
  | .catalog msg => s!"Catalog error: {msg}"
  | .lockConflict msg => s!"Lock conflict: {msg}"
  | .queryTimeout msg => s!"Query timeout: {msg}"
  | .corrupted msg => s!"Corrupted database file: {msg}"
  | .readOnly msg => s!"Read-only transaction: {msg}"
  | .replication msg => s!"Replication error: {msg}"
  | .unsupported msg => s!"Unsupported operation: {msg}"
  | .offsetOutOfRange msg => s!"Offset out of range: {msg}"
  | .authentication msg => s!"Authentication error: {msg}"
  | .permissionDenied msg => s!"Permission denied: {msg}"

abbrev H2Result (α : Type) := Except H2Error α

namespace H2Result

variable {α β : Type} {x : H2Result α} {b : β}

theorem bind_eq_ok {f : α → H2Result β} : x >>= f = .ok b ↔ ∃ a, x = .ok a ∧ f a = .ok b := by
  constructor
  · intro h
    cases x with
    | error e => cases h
    | ok a => exact ⟨a, rfl, h⟩
  · rintro ⟨a, hx, h⟩
    rw [hx]
    exact h

theorem map_eq_ok {f : α → β} : x.map f = .ok b ↔ ∃ a, x = .ok a ∧ f a = b := by
  constructor
  · intro h
    cases x with
    | error e => cases h
    | ok a =>
      cases h
      exact ⟨a, rfl, rfl⟩
  · rintro ⟨a, hx, h⟩
    rw [hx, ← h]
    rfl

end H2Result

/-! # Log records (`h2-types/src/storage.rs`)

What a compute node sends to the storage nodes.  Page ids and the event that invalidates a cache are
left out; no modelled function reads them. -/

abbrev Lsn := Nat

abbrev FencingToken := Nat

def FencingToken.next (token : FencingToken) : FencingToken := token + 1

inductive LogOpType where
  | put
  | delete
  | commit
  | rollback
  | createMap
  | dropMap
  | truncateMap
  deriving DecidableEq, Repr

structure LogRecord where
  lsn : Lsn
  prevLsn : Lsn
  txId : Nat
  opType : LogOpType
  mapName : String
  key : List UInt8
  value : Option (List UInt8)
  timestampMs : Nat
  deriving DecidableEq, Repr

namespace LogRecord

/-! The constructors; `now` is what the clock says. -/

def put (lsn prevLsn : Lsn) (txId : Nat) (mapName : String) (key value : List UInt8) (now : Nat) :
    LogRecord :=
  ⟨lsn, prevLsn, txId, .put, mapName, key, some value, now⟩

def delete (lsn prevLsn : Lsn) (txId : Nat) (mapName : String) (key : List UInt8) (now : Nat) :
    LogRecord :=
  ⟨lsn, prevLsn, txId, .delete, mapName, key, none, now⟩

def commit (lsn prevLsn : Lsn) (txId : Nat) (now : Nat) : LogRecord :=
  ⟨lsn, prevLsn, txId, .commit, "", [], none, now⟩

end LogRecord

end H2Database
