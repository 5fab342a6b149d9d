import H2Database.Sql.Pushdown
import H2Database.Sql.Window
import Mathlib.Data.Set.Card
import Mathlib.Order.Interval.Finset.Nat

/-!
# Each value stands at its row

A row belongs to one partition, whose order gives it a place.  Every function tells its value from the
place and the order alone, and the vector of values has it at the number of the row.
-/

namespace H2Database.Sql

open Nat hiding eq_zero_or_pos
open Reasoning List

/-! ## Buckets -/

/-- Contiguous buckets, as many as fit, whose sizes differ by at most one; the larger ones come first. -/
structure EvenBuckets (n buckets : Nat) (bucket : Nat → Nat) : Prop where
  monotone : ∀ {p q}, p ≤ q → q < n → bucket p ≤ bucket q
  inRange : ∀ {p}, p < n → 1 ≤ bucket p ∧ bucket p ≤ min buckets n
  size : ∀ {b}, 1 ≤ b → b ≤ min buckets n →
    ((Finset.range n).filter fun p => bucket p = b).card = n / buckets + if b ≤ n % buckets then 1 else 0

/-- The first place of the bucket after the first `b` ones. -/
def bucketStart (n buckets b : Nat) : Nat := b * (n / buckets) + min b (n % buckets)

section

variable {n buckets p b : Nat}

theorem bucketStart_mono {b b' : Nat} (h : b ≤ b') : bucketStart n buckets b ≤ bucketStart n buckets b' := by
  have := mul_le_mul_right (n / buckets) h
  simp only [bucketStart]
  omega

theorem bucketStart_succ (n buckets b : Nat) :
    bucketStart n buckets (b + 1) =
      bucketStart n buckets b + (n / buckets + if b + 1 ≤ n % buckets then 1 else 0) := by
  simp only [bucketStart, succ_mul]
  split_ifs <;> omega

theorem bucketStart_min (hbuckets : 0 < buckets) : bucketStart n buckets (min buckets n) = n := by
  have hn := div_add_mod n buckets
  have hmod := mod_lt n hbuckets
  rcases lt_or_ge n buckets with hlt | hge
  · have hdiv := div_eq_of_lt hlt
    have hmod' := mod_eq_of_lt hlt
    rw [bucketStart, hdiv, hmod', min_eq_right hlt.le, min_self, mul_zero, zero_add]
  · rw [bucketStart, min_eq_left hge, min_eq_right hmod.le, hn]

theorem div_eq_iff_between {x q c : Nat} (hq : 0 < q) : x / q = c ↔ c * q ≤ x ∧ x < (c + 1) * q := by
  rw [← le_div_iff_mul_le hq, ← div_lt_iff_lt_mul hq]
  omega

theorem ntileBucket_eq_iff (hp : p < n) : ntileBucket n buckets p = b + 1 ↔
    bucketStart n buckets b ≤ p ∧ p < bucketStart n buckets (b + 1) := by
  rw [ntileBucket]
  simp only [bucketStart]
  generalize hbase : n / buckets = base
  generalize hrem : n % buckets = remainder
  rcases Nat.eq_zero_or_pos base with rfl | hpos
  · -- fewer rows than buckets
    have hn := div_add_mod n buckets
    rw [hbase, mul_zero, zero_add] at hn
    rw [if_pos rfl]
    omega
  rw [if_neg hpos.ne']
  have hlarge : ∀ c, c * (base + 1) = c * base + c := fun c => mul_succ c base
  split_ifs with hplace
  · -- the larger buckets
    rw [add_right_cancel_iff, div_eq_iff_between (show 0 < base + 1 by omega), hlarge, hlarge]
    rcases lt_or_ge b remainder with hb | hb
    · omega
    · have hle := mul_le_mul_right (base + 1) hb
      have := mul_le_mul_right base hb
      rw [hlarge] at hplace
      rw [hlarge, hlarge] at hle
      exact iff_of_false (by omega) (by rw [min_eq_right hb]; omega)
  · have hsucc : (b + 1) * base = b * base + base := succ_mul b base
    rcases lt_or_ge b remainder with hb | hb
    · have hle := mul_le_mul_right (base + 1) (show b + 1 ≤ remainder by omega)
      rw [hlarge] at hplace
      rw [hlarge, hlarge] at hle
      refine iff_of_false (by generalize (p - remainder * (base + 1)) / base = q; omega) ?_
      rw [min_eq_left (by omega : b + 1 ≤ remainder)]
      omega
    · -- the smaller ones
      obtain ⟨c, rfl⟩ := Nat.exists_eq_add_of_le hb
      have hadd : (remainder + c) * base = remainder * base + c * base := Nat.add_mul remainder c base
      have hnext : (c + 1) * base = c * base + base := Nat.succ_mul c base
      have hiff : remainder + (p - remainder * (base + 1)) / base + 1 = remainder + c + 1 ↔
          (p - remainder * (base + 1)) / base = c := by omega
      rw [hiff, div_eq_iff_between hpos, hsucc, hadd, hnext]
      rw [hlarge] at hplace ⊢
      omega

theorem evenBuckets_ntileBucket (hbuckets : 0 < buckets) : EvenBuckets n buckets (ntileBucket n buckets) := by
  have hpositive : ∀ p, ∃ b, ntileBucket n buckets p = b + 1 := by
    intro p
    simp only [ntileBucket]
    split_ifs <;> exact ⟨_, rfl⟩
  refine ⟨fun {p q} hpq hq => ?_, fun {p} hp => ?_, fun {b} hb hle => ?_⟩
  · obtain ⟨b, hb⟩ := hpositive p
    obtain ⟨c, hc⟩ := hpositive q
    have hp := (ntileBucket_eq_iff (lt_of_le_of_lt hpq hq)).mp hb
    have hq := (ntileBucket_eq_iff hq).mp hc
    rw [hb, hc]
    by_contra hlt
    have := @bucketStart_mono n buckets (c + 1) b (by omega)
    omega
  · obtain ⟨b, hb⟩ := hpositive p
    have hbetween := (ntileBucket_eq_iff hp).mp hb
    rw [hb]
    refine ⟨succ_pos b, ?_⟩
    by_contra hlt
    have := @bucketStart_mono n buckets (min buckets n) b (by omega)
    rw [bucketStart_min hbuckets] at this
    omega
  · obtain ⟨b, rfl⟩ := Nat.exists_eq_add_of_le' hb
    have hend := @bucketStart_mono n buckets (b + 1) (min buckets n) hle
    rw [bucketStart_min hbuckets] at hend
    have hplaces : ((Finset.range n).filter fun p => ntileBucket n buckets p = b + 1) =
        Finset.Ico (bucketStart n buckets b) (bucketStart n buckets (b + 1)) := by
      ext p
      rw [Finset.mem_filter, Finset.mem_range, Finset.mem_Ico]
      exact ⟨fun h => (ntileBucket_eq_iff h.1).mp h.2,
        fun h => ⟨by omega, (ntileBucket_eq_iff (by omega)).mpr h⟩⟩
    rw [hplaces, Nat.card_Ico, bucketStart_succ, Nat.add_sub_cancel_left]

end

/-! ## Partitions -/

section

variable [Crates] [Arithmetic] {E : Type} {evaluate : E → Row → H2Result Value} {P : Value → Prop}
  {spec : WindowSpec E} {rows : List Row}

theorem OrderedValues.equivalence_eq (h : OrderedValues P) : EquivalenceOn Value.eq P := by
  refine ⟨fun ha => ?_, fun ha hb hab => ?_, fun ha hb hc hab hbc => ?_⟩
  · rw [h.eq_iff_getD ha ha]
    exact h.preorder.refl ha
  · rw [h.eq_iff_getD hb ha]
    exact h.preorder.eq_comm ha hb ((h.eq_iff_getD ha hb).mp hab)
  · rw [h.eq_iff_getD ha hc]
    exact (h.preorder.eq_iff_of_eq ha hb hc ((h.eq_iff_getD ha hb).mp hab)).mpr ((h.eq_iff_getD hb hc).mp hbc)

namespace WindowSpec

omit [Arithmetic] in
theorem eqAll_partitionKey (row row' : Row) :
    Value.eqAll (spec.partitionKey evaluate row) (spec.partitionKey evaluate row') = true ↔
      ∀ e ∈ spec.partitionBy, (keyOf evaluate e row).eq (keyOf evaluate e row') = true := by
  rw [partitionKey, partitionKey]
  induction spec.partitionBy with
  | nil => exact iff_of_true rfl (forall_mem_nil _)
  | cons e exprs ih =>
      rw [map_cons, map_cons, Value.eqAll, Bool.and_eq_true, ih, forall_mem_cons]

theorem equivalence_eqAll (h : spec.OrderedKeys evaluate rows) :
    EquivalenceOn Value.eqAll fun key => ∃ row ∈ rows, spec.partitionKey evaluate row = key := by
  have heq : ∀ e ∈ spec.partitionBy, EquivalenceOn Value.eq fun v => ∃ row ∈ rows, keyOf evaluate e row = v :=
    fun e he => (orderedOn_iff.mp (h.partitionBy e he)).equivalence_eq
  refine ⟨?_, ?_, ?_⟩
  · rintro _ ⟨row, hrow, rfl⟩
    rw [eqAll_partitionKey]
    exact fun e he => (heq e he).refl ⟨row, hrow, rfl⟩
  · rintro _ _ ⟨row, hrow, rfl⟩ ⟨row', hrow', rfl⟩
    rw [eqAll_partitionKey, eqAll_partitionKey]
    exact fun hsame e he => (heq e he).symm ⟨row, hrow, rfl⟩ ⟨row', hrow', rfl⟩ (hsame e he)
  · rintro _ _ _ ⟨row, hrow, rfl⟩ ⟨row', hrow', rfl⟩ ⟨row'', hrow'', rfl⟩
    rw [eqAll_partitionKey, eqAll_partitionKey, eqAll_partitionKey]
    exact fun hsame hsame' e he => (heq e he).trans ⟨row, hrow, rfl⟩ ⟨row', hrow', rfl⟩ ⟨row'', hrow'', rfl⟩
      (hsame e he) (hsame' e he)

variable (spec rows) (evaluate) in
def keyAt (i : Nat) : List Value := spec.partitionKey evaluate (rows[i]?.getD [])

omit [Crates] [Arithmetic] in
theorem keyAt_in {i : Nat} (hi : i < rows.length) :
    ∃ row ∈ rows, spec.partitionKey evaluate row = spec.keyAt evaluate rows i :=
  ⟨rows[i], getElem_mem hi, by rw [keyAt, getElem?_eq_getElem hi, Option.getD_some]⟩

theorem groups_partitionFrom (h : spec.OrderedKeys evaluate rows) (front back : List Row)
    (groups : List (List Value × List Nat)) (hall : rows = front ++ back)
    (hgroups : Groups Value.eqAll (fun key => ∃ row ∈ rows, spec.partitionKey evaluate row = key)
      (spec.keyAt evaluate rows) front.length groups) :
    Groups Value.eqAll (fun key => ∃ row ∈ rows, spec.partitionKey evaluate row = key)
      (spec.keyAt evaluate rows) rows.length
      (spec.partitionFrom evaluate front.length back groups) := by
  induction back generalizing front groups with
  | nil =>
    rw [append_nil] at hall
    rw [partitionFrom, hall]
    rwa [hall] at hgroups
  | cons row back ih =>
    have hkey : spec.partitionKey evaluate row = spec.keyAt evaluate rows front.length := by
      rw [keyAt, hall, getElem?_append_right (le_refl _), Nat.sub_self, getElem?_cons_zero,
        Option.getD_some]
    have hlength : front.length < rows.length := by
      rw [hall, length_append, length_cons]
      omega
    have hadd := hgroups.add (equivalence_eqAll h)
      fun j hj => keyAt_in (lt_of_le_of_lt hj hlength)
    have hrest := ih (front ++ [row]) _ (by rw [hall, append_assoc, singleton_append])
      (by rwa [length_append, length_singleton])
    rw [length_append, length_singleton] at hrest
    rwa [partitionFrom, hkey]

/-- The partition of the row `i`, in its order; rows that tie are in the order of their numbers. -/
structure IsPartition (evaluate : E → Row → H2Result Value) (spec : WindowSpec E) (rows : List Row) (i : Nat)
    (group : List Nat) : Prop where
  nodup : group.Nodup
  mem_iff : ∀ j, j ∈ group ↔ j < rows.length ∧
    ∀ e ∈ spec.partitionBy, KeyTied evaluate e (rows[i]?.getD []) (rows[j]?.getD [])
  sorted : group.Pairwise fun j k => Precedes evaluate spec.orderBy (rows[j]?.getD []) (rows[k]?.getD []) ∨
    Ties evaluate spec.orderBy (rows[j]?.getD []) (rows[k]?.getD []) ∧ j < k

theorem compareRows_lt_iff (h : spec.OrderedKeys evaluate rows) {j k : Nat} (hj : j < rows.length)
    (hk : k < rows.length) : spec.compareRows evaluate rows j k = .lt ↔
      Precedes evaluate spec.orderBy (rows[j]?.getD []) (rows[k]?.getD []) :=
  compareOver_lt_iff h.orderBy (getD_mem hj) (getD_mem hk)

theorem compareRows_eq_iff (h : spec.OrderedKeys evaluate rows) {j k : Nat} (hj : j < rows.length)
    (hk : k < rows.length) : spec.compareRows evaluate rows j k = .eq ↔
      Ties evaluate spec.orderBy (rows[j]?.getD []) (rows[k]?.getD []) :=
  compareOver_eq_iff h.orderBy (getD_mem hj) (getD_mem hk)

omit [Arithmetic] in
theorem eqAll_keyAt {i j : Nat} : Value.eqAll (spec.keyAt evaluate rows i)
    (spec.keyAt evaluate rows j) = true ↔
    ∀ e ∈ spec.partitionBy, KeyTied evaluate e (rows[i]?.getD []) (rows[j]?.getD []) := by
  rw [keyAt, keyAt, eqAll_partitionKey]
  simp only [KeyTied, keyValue_iff, exists_and_left, exists_eq_left']

theorem sortIndices_perm (indices : List Nat) : (spec.sortIndices evaluate rows indices).Perm indices := by
  rw [sortIndices]
  split_ifs
  · exact List.Perm.refl _
  · exact stableSort_perm indices

theorem isPartition_sortIndices (h : spec.OrderedKeys evaluate rows)
    {groups : List (List Value × List Nat)}
    (hgroups : Groups Value.eqAll (fun key => ∃ row ∈ rows, spec.partitionKey evaluate row = key)
      (spec.keyAt evaluate rows) rows.length groups)
    {g : List Value × List Nat} (hg : g ∈ groups) {i : Nat} (hi : i ∈ g.2) :
    IsPartition evaluate spec rows i (spec.sortIndices evaluate rows g.2) := by
  have heq := spec.equivalence_eqAll h
  have hmembers := hgroups.members g hg
  have hkey := hgroups.keys g hg
  have hinc : g.2.Pairwise (· < ·) := by
    rw [hmembers]
    exact pairwise_lt_range.filter _
  have hmem : ∀ {j : Nat}, j ∈ g.2 ↔
      j < rows.length ∧ Value.eqAll g.1 (spec.keyAt evaluate rows j) = true := by
    intro j
    rw [hmembers, mem_filter, mem_range]
  have hperm : (spec.sortIndices evaluate rows g.2).Perm g.2 := sortIndices_perm g.2
  have hin : ∀ {j : Nat}, j ∈ spec.sortIndices evaluate rows g.2 → j < rows.length :=
    fun hj => (hmem.mp (hperm.mem_iff.mp hj)).1
  refine ⟨hperm.nodup_iff.mpr (hinc.imp ne_of_lt), fun j => ?_, ?_⟩
  · rw [hperm.mem_iff, hmem, ← eqAll_keyAt]
    refine and_congr_right fun hj => ?_
    have hiP := @keyAt_in E evaluate spec rows i (hmem.mp hi).1
    have hjP := @keyAt_in E evaluate spec rows j hj
    exact ⟨fun hsame => heq.trans hiP hkey hjP (heq.symm hkey hiP (hmem.mp hi).2) hsame,
      fun hsame => heq.trans hkey hiP hjP (hmem.mp hi).2 hsame⟩
  · have hsorted : (spec.sortIndices evaluate rows g.2).Pairwise fun j k =>
        spec.compareRows evaluate rows j k = .lt ∨ spec.compareRows evaluate rows j k = .eq ∧ j < k := by
      rw [sortIndices]
      split_ifs with hempty
      · -- no order: all rows compare equal
        refine hinc.imp fun {j k} hjk => Or.inr ⟨?_, hjk⟩
        rw [compareRows, isEmpty_iff.mp hempty, compareOver]
      · exact pairwise_stableSort (preorder_compareRows h) (fun j hj => (hmem.mp hj).1) hinc
    refine hsorted.imp_of_mem fun {j k} hj hk hjk => ?_
    rw [compareRows_lt_iff h (hin hj) (hin hk), compareRows_eq_iff h (hin hj) (hin hk)] at hjk
    exact hjk

end WindowSpec

end

/-! ## Writing the values of all partitions -/

section

variable {sort : List Nat → List Nat} {values : List Nat → H2Result (List Value)}
  {groups : List (List Value × List Nat)} {results final : List Value}

theorem foldlM_scatter (hsort : ∀ g, (sort g).Perm g)
    (hlength : ∀ g vs, values g = .ok vs → vs.length = g.length) (hnodup : ∀ g ∈ groups, g.2.Nodup)
    (hapart : groups.Pairwise fun g g' => ∀ i ∈ g.2, i ∉ g'.2)
    (hin : ∀ g ∈ groups, ∀ i ∈ g.2, i < results.length)
    (hfinal : groups.foldlM (fun results g => do
      let vs ← values (sort g.2)
      .ok (scatter results (sort g.2) vs)) results = .ok final) :
    final.length = results.length ∧ (∀ j, (∀ g ∈ groups, j ∉ g.2) → final[j]? = results[j]?) ∧
      ∀ g ∈ groups, ∃ vs, values (sort g.2) = .ok vs ∧ ∀ p j :
        Nat, (sort g.2)[p]? = some j → final[j]? = vs[p]? := by
  induction groups generalizing results with
  | nil =>
    obtain rfl : results = final := Except.ok.inj hfinal
    exact ⟨rfl, fun _ _ => rfl, forall_mem_nil _⟩
  | cons g groups ih =>
    obtain ⟨hg, hapart⟩ := pairwise_cons.mp hapart
    obtain ⟨hgnodup, hnodup⟩ := forall_mem_cons.mp hnodup
    obtain ⟨hgin, hin⟩ := forall_mem_cons.mp hin
    rw [foldlM_cons] at hfinal
    obtain ⟨after, hafter, hfinal⟩ := H2Result.bind_eq_ok.mp hfinal
    obtain ⟨vs, hvs, hafter⟩ := H2Result.bind_eq_ok.mp hafter
    obtain rfl : scatter results (sort g.2) vs = after := Except.ok.inj hafter
    obtain ⟨hlen, hothers, hgroups⟩ := ih hnodup hapart (by simpa using hin) hfinal
    rw [length_scatter] at hlen
    refine ⟨hlen, fun j hj => ?_, forall_mem_cons.mpr ⟨⟨vs, hvs, fun p j hp => ?_⟩, hgroups⟩⟩
    · obtain ⟨hjg, hj⟩ := forall_mem_cons.mp hj
      rw [hothers j hj, scatter_of_notMem (mt (hsort g.2).mem_iff.mp hjg)]
    · have hjg : j ∈ g.2 := (hsort g.2).mem_iff.mp (mem_of_getElem? hp)
      rw [hothers j fun g' hg' => hg g' hg' j hjg]
      exact scatter_of_mem ((hsort g.2).nodup_iff.mpr hgnodup)
        (fun i hi => hgin i ((hsort g.2).mem_iff.mp hi)) (hlength _ vs hvs) hp

theorem foldlM_scatter_isOk (hvalues : ∀ g ∈ groups, ∃ vs, values (sort g.2) = .ok vs) :
    ∃ final : List Value, groups.foldlM (fun results g => do
      let vs ← values (sort g.2)
      .ok (scatter results (sort g.2) vs)) results = (.ok final : H2Result (List Value)) := by
  induction groups generalizing results with
  | nil => exact ⟨results, rfl⟩
  | cons g groups ih =>
    obtain ⟨⟨vs, hvs⟩, hvalues⟩ := forall_mem_cons.mp hvalues
    obtain ⟨final, hfinal⟩ := @ih (scatter results (sort g.2) vs) hvalues
    refine ⟨final, ?_⟩
    rw [foldlM_cons, hvs]
    exact hfinal

end

/-! ## What the functions promise -/

theorem mapM_getElem? {α β : Type} {f : α → H2Result β} {l : List α} {bs : List β} (h : l.mapM f = .ok bs) :
    bs.length = l.length ∧ ∀ (p : Nat) (a : α), l[p]? = some a → ∃ b, f a = .ok b ∧ bs[p]? = some b := by
  induction l generalizing bs with
  | nil =>
    obtain rfl : [] = bs := Except.ok.inj h
    exact ⟨rfl, fun p a hp => by cases hp⟩
  | cons a l ih =>
    rw [mapM_cons] at h
    obtain ⟨b, hb, h⟩ := H2Result.bind_eq_ok.mp h
    obtain ⟨rest, hrest, h⟩ := H2Result.bind_eq_ok.mp h
    obtain rfl : b :: rest = bs := Except.ok.inj h
    obtain ⟨hlength, hplaces⟩ := ih hrest
    refine ⟨congrArg (· + 1) hlength, fun p a' hp => ?_⟩
    cases p with
    | zero =>
      obtain rfl := Option.some.inj hp
      exact ⟨b, hb, rfl⟩
    | succ p => exact hplaces p a' hp

theorem mapM_isOk {α β : Type} {f : α → H2Result β} {l : List α} (h : ∀ a ∈ l, ∃ b, f a = .ok b) :
    ∃ bs, l.mapM f = .ok bs := by
  induction l with
  | nil => exact ⟨[], rfl⟩
  | cons a l ih =>
    obtain ⟨⟨b, hb⟩, h⟩ := forall_mem_cons.mp h
    obtain ⟨bs, hbs⟩ := ih h
    exact ⟨b :: bs, by rw [mapM_cons, hb, hbs]; rfl⟩

theorem length_rankLoop (isSame : Nat → Nat → Bool) (next : Nat → Nat → Nat) (i rank : Nat)
    (prev : Option Nat)
    (group : List Nat) : (rankLoop isSame next i rank prev group).length = group.length := by
  induction group generalizing i rank prev with
  | nil => rfl
  | cons x group ih => exact congrArg (· + 1) (ih _ _ _)

def number (n : Nat) : Value := .bigInt (Int64.ofNat n)

section

variable {E : Type} {evaluate : E → Row → H2Result Value}

/-- The offset of LEAD and LAG is the second argument, and 1 where there is none; a negative one is 0. -/
def IsOffset (evaluate : E → Row → H2Result Value) (args : List (Option E)) (offset : Nat) : Prop :=
  args.length ≤ 1 ∧ offset = 1 ∨
    ∃ e v n, args[1]? = some (some e) ∧ evaluate e [] = .ok v ∧ v.heldInt = some n ∧ offset = n.toNat

/-- The default of LEAD and LAG is the third argument, and NULL where there is none. -/
def IsDefault (evaluate : E → Row → H2Result Value) (args : List (Option E)) (default : Value) : Prop :=
  args.length ≤ 2 ∧ default = .null ∨ ∃ e, args[2]? = some (some e) ∧ evaluate e [] = .ok default

/-- The argument of NTILE. -/
def IsBuckets (evaluate : E → Row → H2Result Value) (args : List (Option E)) (n : Int) : Prop :=
  ∃ e v, args.head? = some (some e) ∧ evaluate e [] = .ok v ∧ v.heldInt = some n ∧ n ≠ 0

/-- The argument on the row that `target` says for the offset, or the default where it says none. -/
def Shifted (evaluate : E → Row → H2Result Value) (args : List (Option E)) (rows : List Row)
    (target : Nat → Option Nat) (v : Value) : Prop :=
  ∃ e offset default, args.head? = some (some e) ∧ IsOffset evaluate args offset ∧
    IsDefault evaluate args default ∧ (∀ j, target offset = some j → evaluate e (rows[j]?.getD []) = .ok v) ∧
    (target offset = none → v = default)

variable {args : List (Option E)}

theorem shiftOffset_eq_ok {name : String} {offset : Nat} :
    shiftOffset evaluate name args = .ok offset ↔ IsOffset evaluate args offset := by
  rw [shiftOffset, IsOffset]
  rcases harg : args[1]? with _ | arg
  · have hfew := getElem?_eq_none_iff.mp harg
    simp [hfew, eq_comm]
  have hmany : ¬ args.length ≤ 1 := by
    have := (List.getElem?_eq_some_iff.mp harg).1
    omega
  cases arg with
  | none =>
    refine iff_of_false (by rintro ⟨⟩) ?_
    rintro (⟨h, -⟩ | ⟨e, v, n, h, -⟩)
    · exact hmany h
    · cases h
  | some e =>
    simp only [hmany, false_and, false_or, Option.some.injEq, H2Result.bind_eq_ok, getFuncArgExpr]
    constructor
    · rintro ⟨e', he, v, hv, hoffset⟩
      obtain rfl := Except.ok.inj he
      cases v <;> simp_all [Value.heldInt]
    · rintro ⟨e', v, n, rfl, hv, hn, rfl⟩
      refine ⟨e, rfl, v, hv, ?_⟩
      cases v <;> simp_all [Value.heldInt]

theorem shiftDefault_eq_ok {default : Value} :
    shiftDefault evaluate args = .ok default ↔ IsDefault evaluate args default := by
  rw [shiftDefault, IsDefault]
  rcases harg : args[2]? with _ | arg
  · have hfew := getElem?_eq_none_iff.mp harg
    simp [hfew, eq_comm]
  have hmany : ¬ args.length ≤ 2 := by
    have := (List.getElem?_eq_some_iff.mp harg).1
    omega
  cases arg with
  | none =>
    refine iff_of_false (by rintro ⟨⟩) ?_
    rintro (⟨h, -⟩ | ⟨e, h, -⟩)
    · exact hmany h
    · cases h
  | some e => simp [hmany, getFuncArgExpr, H2Result.bind_eq_ok]

theorem shiftValues_getElem? {e : E} {default : Value} {target : Nat → Option Nat} {rows : List Row}
    {group : List Nat} {vs : List Value} (h : shiftValues evaluate e default target rows group = .ok vs) :
    vs.length = group.length ∧ ∀ p < group.length, ∃ v, vs[p]? = some v ∧
      (∀ j, ((target p).bind fun place => group[place]?) = some j → evaluate e (rows[j]?.getD []) = .ok v) ∧
      (((target p).bind fun place => group[place]?) = none → v = default) := by
  obtain ⟨hlength, hplaces⟩ := mapM_getElem? h
  rw [length_range] at hlength
  refine ⟨hlength, fun p hp => ?_⟩
  obtain ⟨v, hv, hvs⟩ := hplaces p p (getElem?_range hp)
  refine ⟨v, hvs, fun j hj => ?_, fun hnone => ?_⟩
  · rw [hj] at hv
    exact hv
  · rw [hnone] at hv
    exact (Except.ok.inj hv).symm

theorem shiftValues_isOk {e : E} {rows : List Row} {group : List Nat} (default : Value)
    (target : Nat → Option Nat)
    (hgroup : ∀ i ∈ group, i < rows.length) (hrows : ∀ row ∈ rows, ∃ v, evaluate e row = .ok v) :
    ∃ vs, shiftValues evaluate e default target rows group = .ok vs := by
  refine mapM_isOk fun p _ => ?_
  cases hj : (target p).bind fun place => group[place]? with
  | none => exact ⟨default, rfl⟩
  | some j =>
    obtain ⟨place, -, hplace⟩ := Option.bind_eq_some_iff.mp hj
    have hlt := hgroup j (mem_of_getElem? hplace)
    obtain ⟨v, hv⟩ := hrows _ (getElem_mem hlt)
    refine ⟨v, ?_⟩
    simp only [getElem?_eq_getElem hlt, Option.getD_some]
    exact hv

theorem firstArg_eq_ok {message : String} {e : E} :
    firstArg args message = .ok e ↔ args.head? = some (some e) := by
  cases args with
  | nil => exact iff_of_false (by rintro ⟨⟩) (by rintro ⟨⟩)
  | cons arg args =>
    cases arg with
    | none => exact iff_of_false (by rintro ⟨⟩) (by rintro ⟨⟩)
    | some e' => simp [firstArg, getFuncArgExpr]

theorem bucketCount_eq_ok {v : Value} {buckets : Nat} :
    bucketCount v = .ok buckets ↔ ∃ n, v.heldInt = some n ∧ asUsize n = buckets := by
  cases v <;> simp [bucketCount, Value.heldInt]

theorem heldInt_bounds {v : Value} {n : Int} (h : v.heldInt = some n) : -2 ^ 63 ≤ n ∧ n < 2 ^ 63 := by
  cases v <;> simp only [Value.heldInt, Option.some.injEq, reduceCtorEq] at h
  case tinyInt m =>
    have := m.le_toInt
    have := m.toInt_lt
    omega
  case smallInt m =>
    have := m.le_toInt
    have := m.toInt_lt
    omega
  case integer m =>
    have := m.le_toInt
    have := m.toInt_lt
    omega
  case bigInt m =>
    have := m.le_toInt
    have := m.toInt_lt
    omega

theorem ntileBuckets_eq_ok {buckets : Nat} :
    ntileBuckets evaluate args = .ok buckets ↔ ∃ n, IsBuckets evaluate args n ∧ asUsize n = buckets := by
  simp only [ntileBuckets, H2Result.bind_eq_ok, firstArg_eq_ok, bucketCount_eq_ok]
  constructor
  · rintro ⟨e, he, v, hv, _, ⟨n, hn, rfl⟩, hbuckets⟩
    split_ifs at hbuckets with hzero
    refine ⟨n, ⟨e, v, he, hv, hn, ?_⟩, Except.ok.inj hbuckets⟩
    rintro rfl
    exact hzero rfl
  · rintro ⟨n, ⟨e, v, he, hv, hn, hne⟩, rfl⟩
    refine ⟨e, he, v, hv, _, ⟨n, hn, rfl⟩, if_neg ?_⟩
    have hbounds := heldInt_bounds hn
    rw [asUsize]
    omega

end

section

variable [Crates] {E : Type} {evaluate : E → Row → H2Result Value} {spec : WindowSpec E} {rows : List Row}
  {func : WindowFunction E} {args : List (Option E)} {group : List Nat}

namespace WindowFunction

theorem groupValues_rowNumber (hname : func.name = "ROW_NUMBER") :
    func.groupValues evaluate spec args rows group =
    .ok (rankValues ((List.range group.length).map (· + 1))) := if_pos hname

theorem groupValues_rank (hname : func.name = "RANK") : func.groupValues evaluate spec args rows group =
    .ok (rankValues (rankLoop (spec.isSame evaluate rows) (fun i _ => i + 1) 0 1 none group)) := by
  simp [groupValues, hname]

theorem groupValues_denseRank (hname : func.name = "DENSE_RANK") :
    func.groupValues evaluate spec args rows group =
    .ok (rankValues (rankLoop (spec.isSame evaluate rows) (fun _ rank => rank + 1) 0 1 none group)) := by
  simp [groupValues, hname]

theorem groupValues_ntile (hname : func.name = "NTILE") : func.groupValues evaluate spec args rows group =
    ntileBuckets evaluate args >>= fun buckets =>
      .ok (rankValues ((List.range group.length).map (ntileBucket group.length buckets))) := by
  simp [groupValues, hname]

def shiftTarget (name : String) (offset pos : Nat) : Option Nat :=
  if name = "LEAD" then some (pos + offset) else if offset ≤ pos then some (pos - offset) else none

omit [Crates] in
theorem shiftTarget_lead (offset : Nat) : shiftTarget "LEAD" offset = fun pos => some (pos + offset) := by
  funext pos
  exact if_pos rfl

omit [Crates] in
theorem shiftTarget_lag (offset : Nat) :
    shiftTarget "LAG" offset = fun pos => if offset ≤ pos then some (pos - offset) else none := by
  funext pos
  exact if_neg (by decide)

theorem groupValues_shift (hname : func.name = "LEAD" ∨ func.name = "LAG") :
    ∃ message, func.groupValues evaluate spec args rows group =
      firstArg args message >>= fun e => shiftOffset evaluate func.name args >>= fun offset =>
        shiftDefault evaluate args >>= fun default =>
          shiftValues evaluate e default (shiftTarget func.name offset) rows group := by
  rcases hname with hname | hname
  · exact ⟨"LEAD requires at least 1 argument", by simp [groupValues, hname, shiftTarget_lead]⟩
  · exact ⟨"LAG requires at least 1 argument", by simp [groupValues, hname, shiftTarget_lag]⟩

theorem length_groupValues {vs : List Value} (h : func.groupValues evaluate spec args rows group = .ok vs) :
    vs.length = group.length := by
  rw [groupValues] at h
  split_ifs at h
  · rw [← Except.ok.inj h, rankValues, length_map, length_map, length_range]
  · rw [← Except.ok.inj h, rankValues, length_map, length_rankLoop]
  · rw [← Except.ok.inj h, rankValues, length_map, length_rankLoop]
  · obtain ⟨e, -, h⟩ := H2Result.bind_eq_ok.mp h
    obtain ⟨offset, -, h⟩ := H2Result.bind_eq_ok.mp h
    obtain ⟨default, -, h⟩ := H2Result.bind_eq_ok.mp h
    exact (shiftValues_getElem? h).1
  · obtain ⟨e, -, h⟩ := H2Result.bind_eq_ok.mp h
    obtain ⟨offset, -, h⟩ := H2Result.bind_eq_ok.mp h
    obtain ⟨default, -, h⟩ := H2Result.bind_eq_ok.mp h
    exact (shiftValues_getElem? h).1
  · obtain ⟨e, -, h⟩ := H2Result.bind_eq_ok.mp h
    exact (shiftValues_getElem? h).1
  · obtain ⟨e, -, h⟩ := H2Result.bind_eq_ok.mp h
    exact (shiftValues_getElem? h).1
  · obtain ⟨buckets, -, h⟩ := H2Result.bind_eq_ok.mp h
    rw [← Except.ok.inj h, rankValues, length_map, length_map, length_range]

end WindowFunction

end

section

variable [Crates] [Arithmetic] {E : Type} {evaluate : E → Row → H2Result Value} {P : Value → Prop}
  {spec : WindowSpec E} {rows : List Row} {func : WindowFunction E} {args : List (Option E)}
  {group : List Nat}

/-- The numbers of the rows of a partition that the order puts before the row `i`. -/
def WindowSpec.before (evaluate : E → Row → H2Result Value) (spec : WindowSpec E) (rows : List Row)
    (group : List Nat) (i : Nat) : Set Nat :=
  {j | j ∈ group ∧ Precedes evaluate spec.orderBy (rows[j]?.getD []) (rows[i]?.getD [])}

namespace WindowFunction

/-- The value of the row `i`, which is at the place `p` of its partition. -/
structure Expected (evaluate : E → Row → H2Result Value) (func : WindowFunction E) (spec : WindowSpec E)
    (args : List (Option E)) (rows : List Row) (group : List Nat) (p i : Nat) (v : Value) : Prop where
  rowNumber : func.name = "ROW_NUMBER" → v = number (p + 1)
  rank : func.name = "RANK" → v = number ((spec.before evaluate rows group i).ncard + 1)
  -- each of the keys before stands once in the list
  denseRank : func.name = "DENSE_RANK" → ∃ keys : List Nat, v = number (keys.length + 1) ∧
    (∀ k ∈ keys, k ∈ spec.before evaluate rows group i) ∧
    (keys.Pairwise fun j k => ¬ Ties evaluate spec.orderBy (rows[j]?.getD []) (rows[k]?.getD [])) ∧
    ∀ j ∈ spec.before evaluate rows group i, ∃ k ∈ keys,
      Ties evaluate spec.orderBy (rows[k]?.getD []) (rows[j]?.getD [])
  ntile : func.name = "NTILE" → ∃ n, IsBuckets evaluate args n ∧
    (1 ≤ n → ∃ bucket, EvenBuckets group.length n.toNat bucket ∧ v = number (bucket p))
  lead : func.name = "LEAD" → Shifted evaluate args rows (fun offset => group[p + offset]?) v
  lag : func.name = "LAG" →
    Shifted evaluate args rows (fun offset => if offset ≤ p then group[p - offset]? else none) v

theorem mem_before_iff (h : spec.OrderedKeys evaluate rows) (hgroup : ∀ j ∈ group, j < rows.length) {i : Nat}
    (hi : i ∈ group) (j : Nat) : j ∈ spec.before evaluate rows group i ↔
      j ∈ group.filter fun j => spec.compareRows evaluate rows j i == .lt := by
  rw [mem_filter, beq_iff_eq]
  exact and_congr_right fun hj => (spec.compareRows_lt_iff h (hgroup j hj) (hgroup i hi)).symm

theorem expected_groupValues (h : spec.OrderedKeys evaluate rows) {p i : Nat}
    (hpartition : spec.IsPartition evaluate rows i group) (hp : group[p]? = some i) {vs : List Value}
    (hvs : func.groupValues evaluate spec args rows group = .ok vs) :
    ∃ v, vs[p]? = some v ∧ func.Expected evaluate spec args rows group p i v := by
  have hplace : p < group.length := (List.getElem?_eq_some_iff.mp hp).1
  have hlt : p < vs.length := by rwa [length_groupValues hvs]
  obtain ⟨v, hv⟩ : ∃ v, vs[p]? = some v := ⟨vs[p], List.getElem?_eq_getElem hlt⟩
  have hgroup : ∀ j ∈ group, j < rows.length := fun j hj => ((hpartition.mem_iff j).mp hj).1
  have hi : i ∈ group := mem_of_getElem? hp
  have hsorted : Ordered (spec.compareRows evaluate rows) group := by
    refine hpartition.sorted.imp_of_mem fun {j k} hj hk hjk => ?_
    rw [← spec.compareRows_lt_iff h (hgroup j hj) (hgroup k hk),
      ← spec.compareRows_eq_iff h (hgroup j hj) (hgroup k hk)] at hjk
    rcases hjk with hjk | ⟨hjk, -⟩ <;> rw [hjk] <;> rfl
  have hbefore := mem_before_iff h hgroup hi
  have hshift : func.name = "LEAD" ∨ func.name = "LAG" →
      Shifted evaluate args rows
        (fun offset => (shiftTarget func.name offset p).bind fun place => group[place]?) v := by
    intro hname
    obtain ⟨message, hshift⟩ := @groupValues_shift _ E evaluate spec rows func args group hname
    rw [hshift] at hvs
    obtain ⟨e, he, hvs⟩ := H2Result.bind_eq_ok.mp hvs
    obtain ⟨offset, hoffset, hvs⟩ := H2Result.bind_eq_ok.mp hvs
    obtain ⟨default, hdefault, hvs⟩ := H2Result.bind_eq_ok.mp hvs
    obtain ⟨v', hv', hinside, houtside⟩ := (shiftValues_getElem? hvs).2 p hplace
    obtain rfl : v' = v := Option.some.inj (hv'.symm.trans hv)
    exact ⟨e, offset, default, firstArg_eq_ok.mp he, shiftOffset_eq_ok.mp hoffset,
      shiftDefault_eq_ok.mp hdefault, hinside, houtside⟩
  refine ⟨v, hv, fun hname => ?_, fun hname => ?_, fun hname => ?_, fun hname => ?_, fun hname => ?_,
    fun hname => ?_⟩
  · rw [groupValues_rowNumber hname] at hvs
    rw [← Except.ok.inj hvs, rankValues, getElem?_map, getElem?_map,
      getElem?_range hplace] at hv
    exact (Option.some.inj hv).symm
  · rw [groupValues_rank hname, rankLoop_rank h hgroup hsorted] at hvs
    rw [← Except.ok.inj hvs, rankValues, getElem?_map, getElem?_map, hp] at hv
    have hset : spec.before evaluate rows group i =
        ((group.filter fun j => spec.compareRows evaluate rows j i == .lt).toFinset : Set Nat) := by
      ext j
      rw [hbefore, Finset.mem_coe, mem_toFinset]
    rw [hset, Set.ncard_coe_finset, toFinset_card_of_nodup (hpartition.nodup.filter _)]
    exact (Option.some.inj hv).symm
  · rw [groupValues_denseRank hname, rankLoop_denseRank h hgroup hsorted] at hvs
    rw [← Except.ok.inj hvs, rankValues, getElem?_map, getElem?_map, hp] at hv
    have hin : ∀ j ∈ group.filter fun j => spec.compareRows evaluate rows j i == .lt, j < rows.length :=
      fun j hj => hgroup j (mem_of_mem_filter hj)
    obtain ⟨keys, hlength, hkeys, hapart, hall⟩ := exists_representatives (spec.preorder_compareRows h) hin
    refine ⟨keys, ?_, fun k hk => (hbefore k).mpr (hkeys k hk), ?_, fun j hj => ?_⟩
    · rw [hlength]
      exact (Option.some.inj hv).symm
    · refine hapart.imp_of_mem fun {j k} hj hk hjk => ?_
      rwa [← spec.compareRows_eq_iff h (hin j (hkeys j hj)) (hin k (hkeys k hk))]
    · obtain ⟨k, hk, hkj⟩ := hall j ((hbefore j).mp hj)
      exact ⟨k, hk, (spec.compareRows_eq_iff h (hin k (hkeys k hk)) (hin j ((hbefore j).mp hj))).mp hkj⟩
  · rw [groupValues_ntile hname] at hvs
    obtain ⟨buckets, hbuckets, hvs⟩ := H2Result.bind_eq_ok.mp hvs
    rw [← Except.ok.inj hvs, rankValues, getElem?_map, getElem?_map,
      getElem?_range hplace] at hv
    obtain ⟨n, hn, rfl⟩ := ntileBuckets_eq_ok.mp hbuckets
    refine ⟨n, hn, fun hpos => ⟨_, evenBuckets_ntileBucket (by omega), ?_⟩⟩
    obtain ⟨_, _, -, -, hheld, -⟩ := hn
    have hbounds := heldInt_bounds hheld
    have husize : asUsize n = n.toNat := by
      rw [asUsize]
      omega
    rw [← husize]
    exact (Option.some.inj hv).symm
  · have hlead := hshift (.inl hname)
    rw [hname] at hlead
    simpa only [shiftTarget_lead, Option.bind_some] using hlead
  · have hlag := hshift (.inr hname)
    rw [hname] at hlag
    have htarget : (fun offset => (shiftTarget "LAG" offset p).bind fun place => group[place]?) =
        fun offset => if offset ≤ p then group[p - offset]? else none := by
      funext offset
      simp only [shiftTarget_lag]
      split_ifs <;> rfl
    rwa [htarget] at hlag

/-- The values of a function on rows: each stands at the number of the row that it was computed for. -/
def Meets (evaluate : E → Row → H2Result Value) (func : WindowFunction E) (rows : List Row)
    (values : List Value) :
    Prop :=
  ∃ spec args, func.overClause = some spec ∧ func.args = some args ∧ values.length = rows.length ∧
    ∀ i < rows.length, ∃ group p v, spec.IsPartition evaluate rows i group ∧ group[p]? = some i ∧
      values[i]? = some v ∧ func.Expected evaluate spec args rows group p i v

/-- The keys of a function are totally preordered, and equal exactly when they compare equal. -/
def OrderedKeys (evaluate : E → Row → H2Result Value) (func : WindowFunction E) (rows : List Row) : Prop :=
  ∀ spec, func.overClause = some spec → spec.OrderedKeys evaluate rows

def Evaluable (evaluate : E → Row → H2Result Value) (func : WindowFunction E) (rows : List Row) : Prop :=
  ∃ spec args, func.overClause = some spec ∧ func.args = some args ∧
    (func.name ∈ ["ROW_NUMBER", "RANK", "DENSE_RANK"] ∨
      func.name = "NTILE" ∧ (∃ n, IsBuckets evaluate args n) ∨
      (func.name = "LEAD" ∨ func.name = "LAG") ∧ ∃ e offset default, args.head? = some (some e) ∧
        IsOffset evaluate args offset ∧ IsDefault evaluate args default ∧
        ∀ row ∈ rows, ∃ v, evaluate e row = .ok v)

theorem compute_meets (h : func.OrderedKeys evaluate rows) {values : List Value}
    (hvalues : func.compute evaluate rows = .ok values) : func.Meets evaluate rows values := by
  rw [compute] at hvalues
  cases hover : func.overClause with
  | none =>
    rw [hover] at hvalues
    cases hvalues
  | some spec =>
    cases hargs : func.args with
    | none =>
      rw [hover, hargs] at hvalues
      cases hvalues
    | some args =>
      simp only [hover, hargs] at hvalues
      have hkeys := h spec hover
      have hgroups := spec.groups_partitionFrom hkeys [] rows [] rfl (Groups.empty _ _ _)
      have hmem : ∀ g ∈ spec.partitionFrom evaluate 0 rows [], ∀ i : Nat, i ∈ g.2 ↔
          i < rows.length ∧ Value.eqAll g.1 (spec.keyAt evaluate rows i) = true := by
        intro g hg i
        rw [hgroups.members g hg, mem_filter, mem_range]
      have hperm : ∀ g, (spec.sortIndices evaluate rows g).Perm g := spec.sortIndices_perm
      obtain ⟨hlength, -, hplaces⟩ := foldlM_scatter hperm (fun g vs hvs => length_groupValues hvs)
        (fun g hg => by
          rw [hgroups.members g hg]
          exact nodup_range.filter _)
        (hgroups.disjoint (spec.equivalence_eqAll hkeys) fun j hj => spec.keyAt_in hj)
        (fun g hg i hi => by
          rw [length_replicate]
          exact ((hmem g hg i).mp hi).1) hvalues
      rw [length_replicate] at hlength
      refine ⟨spec, args, hover, hargs, hlength, fun i hi => ?_⟩
      obtain ⟨g, hg, hkey⟩ := hgroups.covered i hi
      have hig := (hmem g hg i).mpr ⟨hi, hkey⟩
      have hpartition := spec.isPartition_sortIndices hkeys hgroups hg hig
      obtain ⟨p, hp⟩ := mem_iff_getElem?.mp ((spec.sortIndices_perm g.2).mem_iff.mpr hig)
      obtain ⟨vs, hvs, hwritten⟩ := hplaces g hg
      obtain ⟨v, hv, hexpected⟩ := expected_groupValues hkeys hpartition hp hvs
      exact ⟨_, p, v, hpartition, hp, (hwritten p i hp).trans hv, hexpected⟩

theorem compute_isOk (h : func.OrderedKeys evaluate rows) (heval : func.Evaluable evaluate rows) :
    ∃ values, func.compute evaluate rows = .ok values := by
  obtain ⟨spec, args, hover, hargs, heval⟩ := heval
  have hgroups := spec.groups_partitionFrom (h spec hover) [] rows [] rfl (Groups.empty _ _ _)
  simp only [compute, hover, hargs]
  refine foldlM_scatter_isOk fun g hg => ?_
  have hin : ∀ i ∈ spec.sortIndices evaluate rows g.2, i < rows.length := by
    intro i hi
    rw [(spec.sortIndices_perm g.2).mem_iff, hgroups.members g hg, mem_filter, mem_range] at hi
    exact hi.1
  rcases heval with hname | ⟨hname, n, hn⟩ | ⟨hname, e, offset, default, he, hoffset, hdefault, hall⟩
  · simp only [mem_cons, not_mem_nil, or_false] at hname
    rcases hname with hname | hname | hname
    · exact ⟨_, groupValues_rowNumber hname⟩
    · exact ⟨_, groupValues_rank hname⟩
    · exact ⟨_, groupValues_denseRank hname⟩
  · rw [groupValues_ntile hname, ntileBuckets_eq_ok.mpr ⟨n, hn, rfl⟩]
    exact ⟨_, rfl⟩
  · obtain ⟨message, hshift⟩ := groupValues_shift hname
    rw [hshift, firstArg_eq_ok.mpr he, shiftOffset_eq_ok.mpr hoffset, shiftDefault_eq_ok.mpr hdefault]
    exact shiftValues_isOk default _ hin hall

end WindowFunction

theorem foldlM_meets {all funcs : List (WindowFunction E)} (h : ∀ func ∈ all, func.OrderedKeys evaluate rows)
    (hfuncs : ∀ func ∈ funcs, func ∈ all) {before results : String → Option (List Value)}
    (hbefore : ∀ text values, before text = some values →
      ∃ other ∈ all, other.text = text ∧ other.Meets evaluate rows values)
    (hresults : funcs.foldlM (fun results func => (func.compute evaluate rows).map fun values =>
      fun text => if text = func.text then some values else results text) before = .ok results) :
    (∀ text values, results text = some values →
      ∃ other ∈ all, other.text = text ∧ other.Meets evaluate rows values) ∧
    (∀ text, (before text).isSome = true → (results text).isSome = true) ∧
      ∀ func ∈ funcs, (results func.text).isSome = true := by
  induction funcs generalizing before with
  | nil =>
    obtain rfl : before = results := Except.ok.inj hresults
    exact ⟨hbefore, fun _ => id, forall_mem_nil _⟩
  | cons func funcs ih =>
    obtain ⟨hfunc, hfuncs⟩ := forall_mem_cons.mp hfuncs
    rw [foldlM_cons] at hresults
    obtain ⟨after, hafter, hresults⟩ := H2Result.bind_eq_ok.mp hresults
    obtain ⟨values, hvalues, rfl⟩ := H2Result.map_eq_ok.mp hafter
    obtain ⟨hmeets, hkept, hfound⟩ := ih hfuncs (fun text values' htext => by
      split_ifs at htext with heq
      · obtain rfl := Option.some.inj htext
        exact ⟨func, hfunc, heq.symm, WindowFunction.compute_meets (h func hfunc) hvalues⟩
      · exact hbefore text values' htext) hresults
    refine ⟨hmeets, fun text htext => hkept text ?_, forall_mem_cons.mpr ⟨hkept _ ?_, hfound⟩⟩
    · split_ifs
      · rfl
      · exact htext
    · rw [if_pos rfl]
      rfl

/-- Under the text of each function stand the values of a function with that text. -/
theorem computeWindowFunctions_meets {funcs : List (WindowFunction E)}
    (h : ∀ func ∈ funcs, func.OrderedKeys evaluate rows) :
    ((∀ func ∈ funcs, func.Evaluable evaluate rows) →
      ∃ results, computeWindowFunctions evaluate funcs rows = .ok results) ∧
    ∀ results, computeWindowFunctions evaluate funcs rows = .ok results →
      ∀ func ∈ funcs, ∃ values, results func.text = some values ∧
        ∃ other ∈ funcs, other.text = func.text ∧ other.Meets evaluate rows values := by
  refine ⟨fun heval => ?_, fun results hresults func hfunc => ?_⟩
  · have hfold : ∀ (some' : List (WindowFunction E)) (before : String → Option (List Value)),
        (∀ func ∈ some', func ∈ funcs) → ∃ results,
          some'.foldlM (fun results func => (func.compute evaluate rows).map fun values =>
            fun text => if text = func.text then some values else results text) before =
              (.ok results : H2Result (String → Option (List Value))) := by
      intro some'
      induction some' with
      | nil => exact fun before _ => ⟨before, rfl⟩
      | cons func some' ih =>
        intro before hin
        obtain ⟨hfunc, hin⟩ := forall_mem_cons.mp hin
        obtain ⟨values, hvalues⟩ := WindowFunction.compute_isOk (h func hfunc) (heval func hfunc)
        rw [foldlM_cons, hvalues]
        exact ih _ hin
    exact hfold funcs _ fun _ => id
  · obtain ⟨hmeets, -, hfound⟩ :=
      foldlM_meets h (fun _ => id) (fun text values hnone => by cases hnone) hresults
    obtain ⟨values, hvalues⟩ := Option.isSome_iff_exists.mp (hfound func hfunc)
    exact ⟨values, hvalues, hmeets _ values hvalues⟩

end

section

variable [Crates] [Arithmetic]

theorem orderedValues_integer : OrderedValues fun v : Value => ∃ n, v = .integer n := by
  have hcmp : ∀ m n : Int32, (Value.integer m).partialCmp (.integer n) = some (compare m.toInt n.toInt) := by
    intro m n
    rw [Value.partialCmp]
  have heq : ∀ m n : Int32, (Value.integer m).eq (.integer n) = (m == n) := by
    intro m n
    rw [Value.eq]
  refine ⟨⟨?_, ?_, ?_⟩, ?_, ?_⟩
  · rintro _ ⟨n, rfl⟩
    rw [hcmp, Option.getD_some, compare_eq_iff_eq]
  · rintro _ _ ⟨m, rfl⟩ ⟨n, rfl⟩
    rw [hcmp, hcmp, Option.getD_some, Option.getD_some]
    exact Std.OrientedCmp.eq_swap
  · rintro _ _ _ ⟨m, rfl⟩ ⟨n, rfl⟩ ⟨k, rfl⟩
    simp only [hcmp, Option.getD_some]
    exact Std.TransCmp.isLE_trans
  · rintro _ _ ⟨m, rfl⟩ ⟨n, rfl⟩
    rw [hcmp]
    rfl
  · rintro _ _ ⟨m, rfl⟩ ⟨n, rfl⟩
    rw [hcmp, heq, beq_iff_eq, Option.some.injEq, compare_eq_iff_eq, Int32.toInt_inj]

end

section

attribute [local instance] plainCrates plainArithmetic

def valueInColumn (c : Nat) (row : Row) : H2Result Value := .ok (row[c]?.getD .null)

/-- `PARTITION BY a ORDER BY b`. -/
def overPartition : WindowSpec Nat := ⟨[0], [(1, none)]⟩

def rankInPartition : WindowFunction Nat :=
  ⟨"RANK", "RANK() OVER (PARTITION BY a ORDER BY b)", some overPartition, some []⟩

def fourRows : List Row :=
  [[.integer 1, .integer 7], [.integer 2, .integer 5], [.integer 1, .integer 3], [.integer 1, .integer 7]]

theorem compute_rankInPartition : rankInPartition.compute valueInColumn fourRows =
    .ok [number 2, number 1, number 1, number 2] := by
  have hsort : overPartition.sortIndices valueInColumn fourRows [0, 2, 3] = [2, 0, 3] := by
    have h02 : overPartition.compareRows valueInColumn fourRows 0 2 = .gt := rfl
    have h03 : overPartition.compareRows valueInColumn fourRows 0 3 = .eq := rfl
    have h23 : overPartition.compareRows valueInColumn fourRows 2 3 = .lt := rfl
    have hstable : overPartition.sortIndices valueInColumn fourRows [0, 2, 3] =
        stableSort (overPartition.compareRows valueInColumn fourRows) [0, 2, 3] := rfl
    rw [hstable]
    simp [stableSort, List.mergeSort, List.MergeSort.Internal.splitInTwo, h02, h03, h23]
  have hone : overPartition.sortIndices valueInColumn fourRows [1] = [1] := mergeSort_singleton 1
  have hgroups : overPartition.partitionFrom valueInColumn 0 fourRows [] =
      [([.integer 1], [0, 2, 3]), ([.integer 2], [1])] := rfl
  simp only [WindowFunction.compute, rankInPartition, hgroups, foldlM_cons, hsort, hone]
  rfl

theorem computeWindowFunctions_meets_fourRows :
    (∃ results, computeWindowFunctions valueInColumn [rankInPartition] fourRows = .ok results ∧
      results rankInPartition.text = some [number 2, number 1, number 1, number 2]) ∧
    ∀ results, computeWindowFunctions valueInColumn [rankInPartition] fourRows = .ok results →
      ∀ func ∈ [rankInPartition], ∃ values, results func.text = some values ∧
        ∃ other ∈ [rankInPartition], other.text = func.text ∧ other.Meets valueInColumn fourRows values := by
  have hkeys : ∀ func ∈ [rankInPartition], func.OrderedKeys valueInColumn fourRows := by
    rw [forall_mem_singleton]
    intro spec hspec
    obtain rfl := Option.some.inj hspec
    have hordered : ∀ c ∈ [0, 1], OrderedOn valueInColumn fourRows c := by
      refine fun c hc => orderedOn_iff.mpr (orderedValues_integer.mono ?_)
      rintro _ ⟨row, hrow, rfl⟩
      simp only [mem_cons, not_mem_nil, or_false, fourRows] at hc hrow
      rcases hc with rfl | rfl <;> rcases hrow with rfl | rfl | rfl | rfl <;> exact ⟨_, rfl⟩
    refine ⟨fun e he => hordered e ?_, fun o ho => hordered o.1 ?_⟩
    · obtain rfl := mem_singleton.mp he
      decide
    · obtain rfl := mem_singleton.mp ho
      decide
  have heval : ∀ func ∈ [rankInPartition], func.Evaluable valueInColumn fourRows := by
    rw [forall_mem_singleton]
    exact ⟨_, _, rfl, rfl, Or.inl (by decide)⟩
  refine ⟨?_, (computeWindowFunctions_meets hkeys).2⟩
  obtain ⟨results, hresults⟩ := (computeWindowFunctions_meets hkeys).1 heval
  refine ⟨results, hresults, ?_⟩
  rw [computeWindowFunctions, foldlM_cons, compute_rankInPartition] at hresults
  rw [← Except.ok.inj hresults]
  rfl

end

end H2Database.Sql
