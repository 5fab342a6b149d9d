import H2Database.Sql.Mirror
import Mathlib.Data.List.Nodup
import Mathlib.Data.List.Perm.Basic

/-!
# Rows behind the entries of an index

The last eight bytes of an entry are the number of its row.  In an index that mirrors its table the
entries that pass a test lead to the rows whose entries pass it, each of them once.
-/

namespace H2Database.Sql

open Reasoning Mvstore List

def keyOfEntry (k : Key) : Key := rowKey (UInt64.ofNat (fromBe (k.drop (k.length - 8))))

theorem rowKey_keyRowId {key : Key} (h : key.length = 8) : rowKey (keyRowId key) = key :=
  eq_of_keyRowId (rowKey_length _) h (keyRowId_rowKey _)

theorem View.nodup_scan (view : View) (m : String) : ((view.seen.scan m).map Prod.fst).Nodup := by
  have hsorted := (view m).sorted_scanAll
  rw [View.seen, map_map]
  exact hsorted.imp fun h => ne_of_lt h

theorem View.nodup_map_filter_scan (view : View) (m : String) (P : Key × List UInt8 → Bool) :
    (((view.seen.scan m).filter P).map Prod.fst).Nodup :=
  (view.nodup_scan m).sublist ((filter_sublist).map Prod.fst)

variable [Crates]

theorem keyOfEntry_encodeCompositeIndexKey (vals : List Value) (rowId : UInt64) :
    keyOfEntry (encodeCompositeIndexKey vals rowId) = rowKey rowId := by
  have hlength : (encodeCompositeIndexKey vals rowId).length - 8 = (encodeIndexPrefix vals).length := by
    rw [encodeCompositeIndexKey, length_append, length_beBytes]
    omega
  unfold keyOfEntry
  rw [hlength, encodeCompositeIndexKey, drop_left, fromBe_beBytes_of_lt (UInt64.toNat_lt rowId),
    UInt64.ofNat_toNat]

theorem nine_le_length_encodeCompositeIndexKey (vals : List Value) (rowId : UInt64) :
    9 ≤ (encodeCompositeIndexKey vals rowId).length := by
  rw [encodeCompositeIndexKey, encodeIndexPrefix, length_append, length_append, length_beBytes,
    length_singleton]
  omega

theorem keyOfEntry_entryOf {t : TableDef} {idx : IndexDef} {key k : Key} {row : Row} (hkey : key.length = 8)
    (h : entryOf t idx key row = some k) : keyOfEntry k = key ∧ 9 ≤ k.length := by
  obtain ⟨vals, -, rfl⟩ := Option.map_eq_some_iff.mp h
  rw [keyOfEntry_encodeCompositeIndexKey]
  exact ⟨rowKey_keyRowId hkey, nine_le_length_encodeCompositeIndexKey _ _⟩

section

variable {view : View} {t : TableDef} {idx : IndexDef}

theorem keyOfEntry_entryAt (hkeys : ∀ key, ((view t.mapName).get key).isSome → key.length = 8) {key k : Key}
    (h : entryAt view t idx key = some k) : keyOfEntry k = key ∧ 9 ≤ k.length := by
  obtain ⟨row, hrow, hentry⟩ := entryAt_eq_some h
  obtain ⟨bytes, hbytes, -⟩ := Option.bind_eq_some_iff.mp hrow
  exact keyOfEntry_entryOf (hkeys key (by rw [hbytes]; rfl)) hentry

theorem entries_perm (hm : Mirrors view t idx)
    (hkeys : ∀ key, ((view t.mapName).get key).isSome → key.length = 8) (P : Key → Bool) :
    (((view.seen.scan (indexMapName t.name idx)).filter fun e => P e.1).map fun e => keyOfEntry e.1).Perm
      (((view.seen.scan t.mapName).filter fun e => (entryAt view t idx e.1).any P).map Prod.fst) := by
  have hentry : ∀ e ∈ view.seen.scan (indexMapName t.name idx), ∃ key, entryAt view t idx key = some e.1 :=
    fun e he => (hm e.1).mp (by rw [View.mem_scan.mp he]; rfl)
  apply (perm_ext_iff_of_nodup ?_ (view.nodup_map_filter_scan _ _)).mpr
  · intro key
    simp only [mem_map, mem_filter]
    constructor
    · intro h
      obtain ⟨e, ⟨he, hP⟩, rfl⟩ := h
      obtain ⟨key, hkey⟩ := hentry e he
      obtain ⟨row, hrow, -⟩ := entryAt_eq_some hkey
      obtain ⟨bytes, hbytes, -⟩ := Option.bind_eq_some_iff.mp hrow
      rw [(keyOfEntry_entryAt hkeys hkey).1]
      exact ⟨(key, bytes), ⟨View.mem_scan.mpr hbytes, by rw [hkey]; exact hP⟩, rfl⟩
    · intro h
      obtain ⟨e, ⟨he, hP⟩, rfl⟩ := h
      obtain ⟨k, hk, hPk⟩ := (Option.any_eq_true P _).mp hP
      have hin := (hm k).mpr ⟨e.1, hk⟩
      obtain ⟨bytes, hbytes⟩ := Option.isSome_iff_exists.mp hin
      exact ⟨(k, bytes), ⟨View.mem_scan.mpr hbytes, hPk⟩, (keyOfEntry_entryAt hkeys hk).1⟩
  · -- an entry is the only one of its row
    have hfst : (((view.seen.scan (indexMapName t.name idx)).filter fun e => P e.1).map fun e =>
      keyOfEntry e.1) =
        (((view.seen.scan (indexMapName t.name idx)).filter fun e => P e.1).map Prod.fst).map keyOfEntry := by
      rw [map_map]
      rfl
    rw [hfst]
    apply List.Nodup.map_on _ (view.nodup_map_filter_scan _ _)
    intro k hk k' hk' heq
    obtain ⟨e, he, rfl⟩ := mem_map.mp hk
    obtain ⟨e', he', rfl⟩ := mem_map.mp hk'
    obtain ⟨key, hkey⟩ := hentry e (mem_filter.mp he).1
    obtain ⟨key', hkey'⟩ := hentry e' (mem_filter.mp he').1
    rw [(keyOfEntry_entryAt hkeys hkey).1, (keyOfEntry_entryAt hkeys hkey').1] at heq
    rw [heq, hkey'] at hkey
    exact (Option.some_inj.mp hkey).symm

end

end H2Database.Sql
