import H2Database.Mvstore.Tx.Scan
import H2Database.Mvstore.TreeScan

/-!
# Reads without decoding (`h2-mvstore/src/tx/versioned_value.rs`, `h2-mvstore/src/tx/transaction.rs`)

A read first tries `read_visible_raw`, which finds its way through the bytes by itself and knows one shape of
value only.  Bytes on which it answers are the image of a value of that shape, whatever else a map may hold,
so that the reads of a transaction answer as if they decoded every value.
-/

namespace H2Database.Mvstore

open Reasoning MVStore VersionedValue List

namespace Transaction

/-- What a walk reads of stored bytes: the fast path, then the decoded value, if there is one. -/
def visible (t : Transaction) (stored : Stored) : Option (List UInt8) :=
  match stored.readVisibleRaw t.txId t.snapshotVersion with
  | some v => some v
  | none =>
    match stored.fromBytes with
    | .ok vv => vv.readVisible t.txId t.snapshotVersion
    | .error _ => none

section

variable {σ : Type} (read : Stored → Option (List UInt8))

/-- A walk over the entries that are visible; `read` is how it reads them. -/
def forEachBy (t : Transaction) (ts : TransactionStore) (mapName : String)
    (f : σ → Key → List UInt8 → σ) (s : σ) : H2Result σ :=
  t.checkOpen.map fun _ =>
    match (ts.openMap mapName).2.mvstore.maps.deref (ts.openMap mapName).1 with
    | none => s
    | some m => m.tree.forEachEntry (fun s k stored =>
        match read stored with
        | some v => f s k v
        | none => s) s

/-- The loop over the entries that a scan has found.  `checkQueryTimeout i` is what `check_query_timeout`
says in round `i`. -/
def visibleEntries (checkQueryTimeout : Nat → H2Result Unit) :
    Nat → List (Entry Key Stored) → H2Result (List (Key × List UInt8))
  | _, [] => .ok []
  | i, e :: es => do
    checkQueryTimeout i
    let rest ← visibleEntries checkQueryTimeout (i + 1) es
    match read e.value with
    | some v => pure ((e.key, v) :: rest)
    | none => pure rest

def scanBy (t : Transaction) (ts : TransactionStore) (mapName : String)
    (entries : MVTree Key Stored → List (Entry Key Stored)) (checkQueryTimeout : Nat → H2Result Unit) :
    H2Result (List (Key × List UInt8)) :=
  match t.checkOpen with
  | .error e => .error e
  | .ok () =>
    match (ts.openMap mapName).2.mvstore.maps.deref (ts.openMap mapName).1 with
    | none => .ok []
    | some m => visibleEntries read checkQueryTimeout 0 (entries m.tree)

end

def forEachVisible {σ : Type} (t : Transaction) (ts : TransactionStore) (mapName : String)
    (f : σ → Key → List UInt8 → σ) (s : σ) : H2Result σ :=
  t.forEachBy t.visible ts mapName f s

def scanPrefixVisible (t : Transaction) (ts : TransactionStore) (mapName : String) (pre : Key)
    (checkQueryTimeout : Nat → H2Result Unit) : H2Result (List (Key × List UInt8)) :=
  t.scanBy t.visible ts mapName (fun tree => tree.scanPrefix pre) checkQueryTimeout

def scanRangeVisible (t : Transaction) (ts : TransactionStore) (mapName : String) (start stop : Bound Key)
    (checkQueryTimeout : Nat → H2Result Unit) : H2Result (List (Key × List UInt8)) :=
  t.scanBy t.visible ts mapName (fun tree => tree.scanRange start stop) checkQueryTimeout

def decode (t : Transaction) (stored : Stored) : H2Result (Option (List UInt8)) :=
  stored.fromBytes.map fun vv => vv.readVisible t.txId t.snapshotVersion

def decoded (t : Transaction) (stored : Stored) : Option (List UInt8) :=
  match t.decode stored with
  | .ok v => v
  | .error _ => none

/-- A `get` that decodes. -/
def getDecoded (t : Transaction) (ts : TransactionStore) (mapName : String) (key : Key) :
    H2Result (Option (List UInt8)) :=
  match t.checkOpen with
  | .error e => .error e
  | .ok () =>
    match (ts.openMap mapName).2.mapGet (ts.openMap mapName).1 key with
    | none => .ok none
    | some stored => t.decode stored

end Transaction

/-! ## Agreement -/

namespace VersionedValue

variable {v : List UInt8}

theorem eq_toBytes_of_readVisibleRaw {bytes : List UInt8} {reader sv : Nat}
    (h : readVisibleRaw bytes reader sv = some v) :
    ∃ cv, cv ≤ sv ∧ cv < 2 ^ 64 ∧ v.length < 2 ^ 64 ∧ bytes = toBytes ⟨none, [⟨some v, cv⟩]⟩ := by
  unfold readVisibleRaw at h
  split_ifs at h with hshape hcount
  simp only at h
  split_ifs at h with hlength hversion
  obtain rfl := Option.some.inj h
  obtain ⟨hlong, htag⟩ := hshape
  obtain ⟨hone, hsome⟩ := hcount
  set n := fromLe ((bytes.drop 10).take 8) with hn
  have htake : ∀ i, i + 8 ≤ bytes.length → ((bytes.drop i).take 8).length = 8 := by
    intro i hi
    rw [length_take, length_drop]
    omega
  have hn64 : n < 256 ^ 8 := by
    have hlt := fromLe_lt ((bytes.drop 10).take 8)
    rwa [htake 10 (by omega)] at hlt
  -- a sum that wraps round is shorter than the shortest value
  have hsize : bytes.length = 26 + n := by omega
  have hvalue : ((bytes.drop 18).take n).length = n := by
    rw [length_take, length_drop]
    omega
  have hlast : ((bytes.drop (18 + n)).take 8).length = 8 := htake (18 + n) (by omega)
  have himage : ∀ i, i + 8 ≤ bytes.length →
      leBytes 8 (fromLe ((bytes.drop i).take 8)) = (bytes.drop i).take 8 := by
    intro i hi
    have himage := leBytes_fromLe ((bytes.drop i).take 8)
    rwa [htake i hi] at himage
  refine ⟨fromLe ((bytes.drop (18 + n)).take 8), hversion, ?_, by omega, ?_⟩
  · have hlt := fromLe_lt ((bytes.drop (18 + n)).take 8)
    rw [hlast] at hlt
    exact hlt
  · have hcountBytes : leBytes 8 1 = (bytes.drop 1).take 8 := by rw [← himage 1 (by omega), hone]
    have hlengthBytes : leBytes 8 n = (bytes.drop 10).take 8 := himage 10 (by omega)
    have hversionBytes : (bytes.drop (18 + n)).take 8 = bytes.drop (18 + n) :=
      take_of_length_le (by rw [length_drop]; omega)
    rw [toBytes_single, hvalue, himage (18 + n) (by omega), hcountBytes, hlengthBytes, hversionBytes]
    have hcons : ∀ i b, bytes[i]? = some b → bytes.drop i = b :: bytes.drop (i + 1) := by
      intro i b hb
      obtain ⟨hi, rfl⟩ := List.getElem?_eq_some_iff.mp hb
      exact List.drop_eq_getElem_cons hi
    have hcut : ∀ i j k, i + j = k → (bytes.drop i).take j ++ bytes.drop k = bytes.drop i := by
      rintro i j k rfl
      rw [← drop_drop, take_append_drop]
    -- the pieces are put together from the end
    rw [hcut 18 n _ rfl, cons_append, cons_append, hcut 10 8 18 rfl, ← hcons 9 1 hsome,
      hcut 1 8 9 rfl, ← hcons 0 0 htag, drop_zero]

theorem fromBytes_toBytes_single {cv : Nat} (hv : v.length < 2 ^ 64) (hcv : cv < 2 ^ 64) :
    fromBytes (toBytes ⟨none, [⟨some v, cv⟩]⟩) = .ok ⟨none, [⟨some v, cv⟩]⟩ := by
  have hreads : coder.Reads ⟨none, [⟨some v, cv⟩]⟩ := by
    refine Coder.iso_reads (Coder.pair_reads (Coder.option_reads fun u hu => by cases hu)
      (Coder.vec_reads (by simp) fun r hr => ?_)) rfl
    rw [mem_singleton.mp hr]
    refine Coder.iso_reads (Coder.pair_reads (Coder.option_reads fun w hw => ?_)
      (Coder.uint_reads hcv)) rfl
    cases hw
    exact Coder.bytes_reads hv
  exact fromBytes_of_reads hreads

theorem fromBytes_of_readVisibleRaw {bytes : List UInt8} {reader sv : Nat}
    (h : readVisibleRaw bytes reader sv = some v) :
    ∃ vv, fromBytes bytes = .ok vv ∧ vv.readVisible reader sv = some v := by
  obtain ⟨cv, hcv, hcv64, hv64, rfl⟩ := eq_toBytes_of_readVisibleRaw h
  refine ⟨_, fromBytes_toBytes_single hv64 hcv64, ?_⟩
  apply readSingle_readVisible
  exact if_pos hcv

end VersionedValue

theorem Stored.fromBytes_of_readVisibleRaw {stored : Stored} {reader sv : Nat} {v : List UInt8}
    (h : stored.readVisibleRaw reader sv = some v) :
    ∃ vv, stored.fromBytes = .ok vv ∧ vv.readVisible reader sv = some v := by
  cases stored with
  | versioned vv => exact ⟨vv, rfl, readSingle_readVisible h reader⟩
  | raw bytes => exact VersionedValue.fromBytes_of_readVisibleRaw h

namespace Transaction

theorem readStored_eq_decode (t : Transaction) (stored : Stored) : t.readStored stored = t.decode stored := by
  unfold readStored decode
  split
  · rename_i v h
    obtain ⟨vv, hvv, hread⟩ := Stored.fromBytes_of_readVisibleRaw h
    rw [hvv, Except.map, hread]
  · cases stored.fromBytes <;> rfl

theorem visible_eq_decoded (t : Transaction) : t.visible = t.decoded := by
  ext1 stored
  unfold visible decoded decode
  split
  · rename_i v h
    obtain ⟨vv, hvv, hread⟩ := Stored.fromBytes_of_readVisibleRaw h
    rw [hvv]
    exact hread.symm
  · cases stored.fromBytes <;> rfl

theorem get_eq_getDecoded (t : Transaction) (ts : TransactionStore) (mapName : String) (key : Key) :
    (t.get ts mapName key).1 = t.getDecoded ts mapName key := by
  unfold get getDecoded
  cases t.checkOpen with
  | error e => rfl
  | ok u =>
    simp only
    cases (ts.openMap mapName).2.mapGet (ts.openMap mapName).1 key with
    | none => rfl
    | some stored => exact t.readStored_eq_decode stored

/-- The fast path agrees with the decoder on any bytes, and so every read returns what decoding every value
would return. -/
theorem raw_reads_decode :
    (∀ (bytes : List UInt8) reader sv v, VersionedValue.readVisibleRaw bytes reader sv = some v →
      ∃ vv, VersionedValue.fromBytes bytes = .ok vv ∧ vv.readVisible reader sv = some v) ∧
    (∀ t ts mapName key, (get t ts mapName key).1 = t.getDecoded ts mapName key) ∧
    (∀ (σ : Type) t ts mapName (f : σ → Key → List UInt8 → σ) s,
      forEachVisible t ts mapName f s = t.forEachBy t.decoded ts mapName f s) ∧
    (∀ t ts mapName pre check, scanPrefixVisible t ts mapName pre check =
      t.scanBy t.decoded ts mapName (fun tree => tree.scanAll.filter fun e => pre.isPrefixOf e.key) check) ∧
    ∀ t ts mapName start stop check, scanRangeVisible t ts mapName start stop check =
      t.scanBy t.decoded ts mapName
        (fun tree => tree.scanAll.filter fun e => start.admitsFrom e.key && stop.admitsTo e.key) check := by
  refine ⟨fun bytes reader sv v h => VersionedValue.fromBytes_of_readVisibleRaw h, get_eq_getDecoded,
    fun σ t ts mapName f s => ?_, fun t ts mapName pre check => ?_,
    fun t ts mapName start stop check => ?_⟩
  · rw [forEachVisible, visible_eq_decoded]
  · rw [scanPrefixVisible, visible_eq_decoded]
    simp only [MVTree.scanPrefix_eq]
  · rw [scanRangeVisible, visible_eq_decoded]
    simp only [MVTree.scanRange_eq]

theorem raw_reads_decode_single :
    ∃ vv, VersionedValue.fromBytes (VersionedValue.toBytes ⟨none, [⟨some [7, 8], 3⟩]⟩) = .ok vv ∧
      vv.readVisible 1 4 = some [7, 8] :=
  raw_reads_decode.1 _ 1 4 [7, 8] (by decide +kernel)

end Transaction

end H2Database.Mvstore
