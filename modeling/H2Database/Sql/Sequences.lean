import H2Database.Sql.Value
import H2Database.Reasoning.Run
import Mathlib.Logic.Function.Basic

/-!
# Sequences (`h2-sql/src/catalog.rs`)

A sequence of the schema `public` is filed under its name and again under its name with the schema.  `nextval`
advances the definition it finds under the spelling it is given.
-/

namespace H2Database.Sql

open H2Database.Reasoning List Function Int

structure SequenceDef where
  name : String
  schema : String
  currentValue : Int64
  incrementBy : Int64
  minValue : Int64
  maxValue : Int64
  startWith : Int64
  cycle : Bool
  isCalled : Bool

/-- What the catalog holds of sequences: the definitions in memory, and the entries `seq:<key>` of its map. -/
structure Sequences where
  sequences : String → Option SequenceDef
  stored : String → Option SequenceDef

/-- `i64::saturating_add`. -/
def saturatingAdd (a b : Int64) : Int64 :=
  Int64.ofInt (max (-9223372036854775808) (min (a.toInt + b.toInt) 9223372036854775807))

/-- `CREATE SEQUENCE`. -/
def newSequence (schema name : String) (incrementBy minValue maxValue startWith : Int64) (cycle : Bool) :
    SequenceDef :=
  ⟨name, schema, startWith, incrementBy, minValue, maxValue, startWith, cycle, false⟩

/-- The definition after a call.  It is as it was where the limit is reached. -/
def SequenceDef.next (seq : SequenceDef) (name : String) : H2Result SequenceDef :=
  if !seq.isCalled then .ok { seq with isCalled := true }
  else
    let next := saturatingAdd seq.currentValue seq.incrementBy
    if 0 < seq.incrementBy ∧ seq.maxValue < next then
      if seq.cycle then .ok { seq with currentValue := seq.minValue }
      else .error (.execution s!"Sequence '{name}' reached maximum value")
    else if seq.incrementBy < 0 ∧ next < seq.minValue then
      if seq.cycle then .ok { seq with currentValue := seq.maxValue }
      else .error (.execution s!"Sequence '{name}' reached minimum value")
    else .ok { seq with currentValue := next }

/-! ## The catalog -/

variable (toLowercase : String → String)

def SequenceDef.fullName (seq : SequenceDef) : String := s!"{toLowercase seq.schema}.{toLowercase seq.name}"

def SequenceDef.keys (seq : SequenceDef) : List String :=
  if seq.schema = "public" then [toLowercase seq.name, seq.fullName toLowercase] else
    [seq.fullName toLowercase]

namespace Sequences

variable (seqs : Sequences)

def insertAll (f : String → Option SequenceDef) (keys : List String) (seq : SequenceDef) :
    String → Option SequenceDef :=
  fun key => if key ∈ keys then some seq else f key

def Holds (seq : SequenceDef) : Prop :=
  (seqs.sequences (seq.fullName toLowercase)).isSome ∨
    seq.schema = "public" ∧ (seqs.sequences (toLowercase seq.name)).isSome

instance instDecidableHolds (seq : SequenceDef) : Decidable (seqs.Holds toLowercase seq) :=
  inferInstanceAs (Decidable (_ ∨ _))

def createSequence (seq : SequenceDef) (ifNotExists : Bool) : H2Result Sequences :=
  if seqs.Holds toLowercase seq then
    if ifNotExists then .ok seqs else .error (.catalog s!"Sequence '{seq.name}' already exists")
  else
    .ok ⟨insertAll seqs.sequences (seq.keys toLowercase) seq,
      insertAll seqs.stored (seq.keys toLowercase) seq⟩

def sequenceKey (name : String) : Option String :=
  let nameKey := toLowercase name
  if (seqs.sequences nameKey).isSome then some nameKey
  else if '.' ∉ nameKey.toList ∧ (seqs.sequences s!"public.{nameKey}").isSome then some s!"public.{nameKey}"
  else none

def nextval (name : String) : H2Result Int64 × Sequences :=
  match (seqs.sequenceKey toLowercase name).bind fun key => (seqs.sequences key).map fun seq =>
    (key, seq) with
  | none => (.error (.catalog s!"Sequence '{name}' not found"), seqs)
  | some (key, seq) =>
    match seq.next name with
    | .error e => (.error e, seqs)
    | .ok seq =>
      (.ok seq.currentValue,
        ⟨Function.update seqs.sequences key (some seq), insertAll seqs.stored (seq.keys toLowercase) seq⟩)

end Sequences

/-! ## One definition -/

/-- The `i`-th value of a sequence. -/
def SequenceDef.value (seq : SequenceDef) (i : Nat) : Int := seq.startWith.toInt + i * seq.incrementBy.toInt

def SequenceDef.InLimits (seq : SequenceDef) (v : Int) : Prop :=
  seq.minValue.toInt ≤ v ∧ v ≤ seq.maxValue.toInt

/-- The addition meets the limit before it meets the end of the 64-bit numbers. -/
def SequenceDef.Fits (seq : SequenceDef) (i : Nat) : Prop :=
  (0 < seq.incrementBy.toInt → seq.maxValue.toInt < 9223372036854775807 ∨ seq.value i ≤ 9223372036854775807) ∧
    (seq.incrementBy.toInt < 0 → -9223372036854775808 < seq.minValue.toInt ∨
      -9223372036854775808 ≤ seq.value i)

theorem toInt_saturatingAdd (a b : Int64) : (saturatingAdd a b).toInt =
    max (-9223372036854775808) (min (a.toInt + b.toInt) 9223372036854775807) :=
  Int64.toInt_ofInt_of_le (by omega) (by omega)

namespace SequenceDef

/-- The value of this number is beyond the limit, and the limit is not the end of the 64-bit numbers. -/
def Beyond (made : SequenceDef) (i : Nat) : Prop :=
  (0 < made.incrementBy.toInt → made.maxValue.toInt < 9223372036854775807 ∧
    made.maxValue.toInt < made.value i) ∧
    (made.incrementBy.toInt < 0 → -9223372036854775808 < made.minValue.toInt ∧
      made.value i < made.minValue.toInt)

/-- A definition after some calls: `taken` values have been given out, and if there were more calls, the next
value is beyond the limit. -/
structure Reached (made seq : SequenceDef) (taken calls : Nat) : Prop where
  same : seq = { made with currentValue := seq.currentValue, isCalled := true }
  current : seq.currentValue.toInt = made.value (taken - 1)
  pos : 0 < taken
  stuck : taken = calls ∨ taken < calls ∧ made.Beyond taken

/-- A sequence as `CREATE SEQUENCE` makes it, with its start within the limits. -/
structure Made (made : SequenceDef) : Prop where
  notCalled : made.isCalled = false
  start : made.currentValue = made.startWith
  noCycle : made.cycle = false
  increment : made.incrementBy ≠ 0
  low : made.minValue ≤ made.startWith
  high : made.startWith ≤ made.maxValue

variable {made seq : SequenceDef}

/-- What a call is to answer: the value of this number, or an error beyond the limit. -/
def Answers (made : SequenceDef) (i : Nat) (answer : H2Result Int64) : Prop :=
  (made.InLimits (made.value i) → ∃ n : Int64, answer = .ok n ∧ n.toInt = made.value i) ∧
    (¬ made.InLimits (made.value i) → ∃ e, answer = .error e)

theorem value_succ (made : SequenceDef) (i : Nat) :
    made.value (i + 1) = made.value i + made.incrementBy.toInt := by
  rw [value, value, Nat.cast_succ, add_mul, one_mul, add_assoc]

theorem value_zero (made : SequenceDef) : made.value 0 = made.startWith.toInt := by
  rw [value, Int.natCast_zero, Int.zero_mul, Int.add_zero]

theorem value_le_value {i j : Nat} (h : i ≤ j) : (0 ≤ made.incrementBy.toInt → made.value i ≤ made.value j) ∧
    (made.incrementBy.toInt ≤ 0 → made.value j ≤ made.value i) := by
  induction h with
  | refl => exact ⟨fun _ => le_rfl, fun _ => le_rfl⟩
  | step _ ih =>
    rw [Nat.succ_eq_add_one, value_succ]
    omega

theorem Made.bounds (h : made.Made) :
    made.incrementBy.toInt ≠ 0 ∧ made.minValue.toInt ≤ made.startWith.toInt ∧
    made.startWith.toInt ≤ made.maxValue.toInt :=
  ⟨fun hzero => h.increment (Int64.toInt_inj.mp hzero), Int64.le_iff_toInt_le.mp h.low,
    Int64.le_iff_toInt_le.mp h.high⟩

theorem next_first (h : made.Made) (name : String) :
    ∃ seq, made.next name = .ok seq ∧ seq.currentValue = made.startWith ∧ made.Reached seq 1 1 := by
  refine ⟨{ made with isCalled := true }, ?_, h.start, rfl, ?_, Nat.one_pos, Or.inl rfl⟩
  · rw [next, h.notCalled]
    rfl
  · rw [h.start, Nat.sub_self, value_zero]

theorem next_reached (h : made.Made) {taken calls : Nat} (hseq : made.Reached seq taken calls)
    (name : String) :
    (made.Beyond taken → ∃ e, seq.next name = .error e) ∧
      (¬ made.Beyond taken → ∃ v : Int64, seq.next name = .ok { made with currentValue := v, isCalled :=
  true } ∧
        v.toInt = max (-9223372036854775808) (min (made.value taken) 9223372036854775807)) := by
  obtain ⟨hne, hlow, hhigh⟩ := h.bounds
  have hvalue : seq.currentValue.toInt + made.incrementBy.toInt = made.value taken := by
    rw [hseq.current, ← value_succ, Nat.sub_add_cancel hseq.pos]
  have hnext := toInt_saturatingAdd seq.currentValue made.incrementBy
  rw [hvalue] at hnext
  have hmono := @value_le_value made _ _ (Nat.zero_le taken)
  rw [value_zero] at hmono
  have hmax := made.maxValue.toInt_lt
  have hmin := made.minValue.le_toInt
  have hzero : (0 : Int64).toInt = 0 := rfl
  rw [hseq.same]
  simp only [next, Bool.not_true, Bool.false_eq_true, if_false, h.noCycle, Int64.lt_iff_toInt_lt, hnext,
    hzero]
  rw [Beyond]
  split_ifs with hup hdown
  · exact ⟨fun _ => ⟨_, rfl⟩, fun hbeyond => absurd ⟨fun _ => by omega, fun _ => by omega⟩ hbeyond⟩
  · exact ⟨fun _ => ⟨_, rfl⟩, fun hbeyond => absurd ⟨fun _ => by omega, fun _ => by omega⟩ hbeyond⟩
  · exact ⟨fun hbeyond => by omega, fun _ => ⟨_, rfl, hnext⟩⟩

def after (seq : SequenceDef) (name : String) : SequenceDef := (seq.next name).toOption.getD seq

theorem answers_iff_fits (h : made.Made) {taken calls : Nat} (hseq : made.Reached seq taken calls)
    (name : String) :
    (made.Answers calls ((seq.next name).map currentValue) ↔ made.Fits calls) ∧
      (made.Fits calls → ∃ taken', made.Reached (seq.after name) taken' (calls + 1)) := by
  obtain ⟨hne, hlow, hhigh⟩ := h.bounds
  have hstart := @value_le_value made _ _ (Nat.zero_le calls)
  rw [value_zero] at hstart
  obtain ⟨hbeyond, hgoes⟩ := next_reached h hseq name
  by_cases hb : made.Beyond taken
  · -- the limit is reached: an error, and it stays reached
    obtain ⟨e, he⟩ := hbeyond hb
    have hmono := @value_le_value made _ _ (show taken ≤ calls by have := hseq.stuck; omega)
    rw [Beyond] at hb
    have hout : ¬ made.InLimits (made.value calls) := by
      rw [InLimits]
      omega
    have hfits : made.Fits calls := by
      rw [Fits]
      omega
    have hafter : seq.after name = seq := by
      rw [after, he]
      rfl
    refine ⟨iff_of_true ⟨fun hin => absurd hin hout, fun _ => ⟨e, by rw [he]; rfl⟩⟩ hfits,
      fun _ => ⟨taken, ?_⟩⟩
    rw [hafter]
    exact ⟨hseq.same, hseq.current, hseq.pos, Or.inr ⟨by have := hseq.stuck; omega, hb⟩⟩
  · have htaken : taken = calls := hseq.stuck.resolve_right fun hstuck => hb hstuck.2
    subst htaken
    obtain ⟨v, hnext, hv⟩ := hgoes hb
    have hmin := made.minValue.le_toInt
    have hmax := made.maxValue.toInt_lt
    rw [Beyond] at hb
    have hfits : made.Fits taken ↔ made.InLimits (made.value taken) := by
      rw [Fits, InLimits]
      omega
    have hanswer : made.Answers taken ((seq.next name).map currentValue) ↔
        made.InLimits (made.value taken) := by
      rw [hnext]
      constructor
      · intro hanswers
        by_contra hout
        obtain ⟨e, he⟩ := hanswers.2 hout
        cases he
      · intro hin
        refine ⟨fun _ => ⟨v, rfl, ?_⟩, fun hout => absurd hin hout⟩
        rw [InLimits] at hin
        rw [hv]
        omega
    refine ⟨hanswer.trans hfits.symm, fun hf => ⟨taken + 1, ?_⟩⟩
    have hin := hfits.mp hf
    rw [InLimits] at hin
    have hafter : seq.after name = { made with currentValue := v, isCalled := true } := by
      rw [after, hnext]
      rfl
    rw [hafter]
    refine ⟨rfl, ?_, Nat.succ_pos taken, Or.inl rfl⟩
    rw [Nat.add_sub_cancel]
    change v.toInt = _
    rw [hv]
    omega

end SequenceDef

namespace Sequences

def call (state : Sequences × Nat) (name : String) : Sequences × Nat :=
  ((state.1.nextval toLowercase name).2, state.2 + 1)

/-- The call with this number answers as it is to, and an error leaves the sequences as they are. -/
def delivers (made : SequenceDef) (state : Sequences × Nat) (name : String) : Prop :=
  made.Answers state.2 (state.1.nextval toLowercase name).1 ∧
    (¬ made.InLimits (made.value state.2) → (state.1.nextval toLowercase name).2 = state.1)

variable {toLowercase} {made seq : SequenceDef} {seqs : Sequences} {name key : String}

theorem nextval_of_key (hkey : seqs.sequenceKey toLowercase name = some key)
    (hseq : seqs.sequences key = some seq) :
    (seqs.nextval toLowercase name).1 = (seq.next name).map SequenceDef.currentValue ∧
      (seqs.nextval toLowercase name).2.sequences = Function.update seqs.sequences key
        (some (seq.after name)) ∧
      ((∃ e, seq.next name = .error e) → (seqs.nextval toLowercase name).2 = seqs) := by
  rw [nextval, hkey, Option.bind_some, hseq, Option.map_some, SequenceDef.after]
  dsimp only
  cases hnext : seq.next name with
  | error e =>
    refine ⟨rfl, ?_, fun _ => rfl⟩
    exact (update_eq_self_iff.mpr hseq.symm).symm
  | ok seq' =>
    refine ⟨rfl, rfl, ?_⟩
    rintro ⟨e, he⟩
    cases he

theorem delivers_iff {calls : Nat} (hkey : seqs.sequenceKey toLowercase name = some key)
    (hseq : seqs.sequences key = some seq) : delivers toLowercase made (seqs, calls) name ↔
      made.Answers calls ((seq.next name).map SequenceDef.currentValue) := by
  obtain ⟨hanswer, -, herror⟩ := nextval_of_key hkey hseq
  rw [delivers, hanswer]
  refine and_iff_left_of_imp fun hanswers hout => herror ?_
  obtain ⟨e, he⟩ := hanswers.2 hout
  cases hnext : seq.next name with
  | error e => exact ⟨e, rfl⟩
  | ok seq' =>
    rw [hnext] at he
    cases he

theorem sequenceKey_eq {seqs' : Sequences}
    (h : ∀ key, (seqs'.sequences key).isSome = (seqs.sequences key).isSome) (name : String) :
    seqs'.sequenceKey toLowercase name = seqs.sequenceKey toLowercase name := by
  simp only [sequenceKey, h]

structure Behind (toLowercase : String → String) (made : SequenceDef) (key : String) (seqs : Sequences)
    (calls : Nat) : Prop where
  reached : ∃ seq taken, seqs.sequences key = some seq ∧ made.Reached seq taken calls
  others : ∀ key' ∈ made.keys toLowercase, key' ≠ key → seqs.sequences key' = some made

theorem isSome_update {f : String → Option SequenceDef} (h : f key = some seq) (seq' : SequenceDef)
    (key' : String) :
    (Function.update f key (some seq') key').isSome = (f key').isSome := by
  by_cases hkey : key' = key
  · rw [hkey, update_self, h]
    rfl
  · rw [update_of_ne hkey]

/-- Calls from the second one on: they do as they are to exactly if they all use the key of the first one and
the additions fit. -/
theorem calls_iff (h : made.Made) (names : List String) {calls : Nat} (hcalls : 0 < calls)
    (hbehind : Behind toLowercase made key seqs calls)
    (haccepted : ∀ name ∈ names, ∃ key' ∈ made.keys toLowercase,
      seqs.sequenceKey toLowercase name = some key') :
    Meets (call toLowercase) (delivers toLowercase made) (seqs, calls) names ↔
      (∀ name ∈ names, seqs.sequenceKey toLowercase name = some key) ∧
        ∀ i < names.length, made.Fits (calls + i) := by
  induction names generalizing seqs calls with
  | nil => exact iff_of_true trivial ⟨forall_mem_nil _, fun i hi => absurd hi (Nat.not_lt_zero i)⟩
  | cons name names ih =>
    obtain ⟨key', hmem, hkey'⟩ := haccepted name mem_cons_self
    have haccepted := fun name' hname' => haccepted name' (mem_cons_of_mem name hname')
    rw [Meets, forall_mem_cons, hkey', length_cons]
    by_cases hkey : key' = key
    · subst hkey
      obtain ⟨seq, taken, hseq, hreached⟩ := hbehind.reached
      obtain ⟨-, hsequences, -⟩ := nextval_of_key hkey' hseq
      obtain ⟨hanswers, hnext⟩ := SequenceDef.answers_iff_fits h hreached name
      rw [delivers_iff hkey' hseq, hanswers]
      have hsame : ∀ key, ((seqs.nextval toLowercase name).2.sequences key).isSome =
          (seqs.sequences key).isSome := by
        intro key
        rw [hsequences, isSome_update hseq]
      have hrest : made.Fits calls → (Meets (call toLowercase) (delivers toLowercase made)
          (call toLowercase (seqs, calls) name) names ↔
          (∀ name ∈ names, seqs.sequenceKey toLowercase name = some key') ∧
            ∀ i < names.length, made.Fits (calls + 1 + i)) := by
        intro hfits
        obtain ⟨taken', hreached'⟩ := hnext hfits
        have hbehind' : Behind toLowercase made key' (seqs.nextval toLowercase name).2 (calls + 1) := by
          refine ⟨⟨_, taken', by rw [hsequences, update_self], hreached'⟩,
            fun other hother hne => ?_⟩
          rw [hsequences, update_of_ne hne, hbehind.others other hother hne]
        have hiff := ih (Nat.succ_pos calls) hbehind' fun name' hname' => by
          rw [sequenceKey_eq hsame]
          exact haccepted name' hname'
        simp only [sequenceKey_eq hsame] at hiff
        exact hiff
      constructor
      · rintro ⟨hfits, hmeets⟩
        obtain ⟨hkeys, hfit⟩ := (hrest hfits).mp hmeets
        refine ⟨⟨rfl, hkeys⟩, fun i hi => ?_⟩
        cases i with
        | zero => exact hfits
        | succ i =>
          rw [Nat.add_comm i 1, ← Nat.add_assoc]
          exact hfit i (Nat.lt_of_succ_lt_succ hi)
      · rintro ⟨⟨-, hkeys⟩, hfit⟩
        have hfits := hfit 0 (Nat.succ_pos _)
        refine ⟨hfits, (hrest hfits).mpr ⟨hkeys, fun i hi => ?_⟩⟩
        rw [Nat.add_assoc, Nat.add_comm 1 i]
        exact hfit (i + 1) (Nat.succ_lt_succ hi)
    · -- the other key still gives the start value
      refine iff_of_false ?_ fun hkeys => hkey (Option.some.inj hkeys.1.1)
      rintro ⟨hdelivers, -⟩
      rw [delivers_iff hkey' (hbehind.others key' hmem hkey)] at hdelivers
      obtain ⟨seq', hfirst, hvalue, -⟩ := SequenceDef.next_first h name
      obtain ⟨hne, -, -⟩ := h.bounds
      rw [hfirst] at hdelivers
      by_cases hin : made.InLimits (made.value calls)
      · obtain ⟨n, hn, hv⟩ := hdelivers.1 hin
        obtain rfl := Except.ok.inj hn
        rw [hvalue, SequenceDef.value] at hv
        have hproduct : (calls : Int) * made.incrementBy.toInt = 0 := by omega
        rcases mul_eq_zero.mp hproduct with hzero | hzero
        · omega
        · exact hne hzero
      · obtain ⟨e, he⟩ := hdelivers.2 hin
        cases he

/-- A new sequence answers every one of the calls as it is to if and only if they all go to the one of its
entries and, where a limit is the end of the 64-bit numbers, the values do not go beyond that. -/
theorem nextvals_iff {old seqs : Sequences} (schema name : String)
    {incrementBy minValue maxValue startWith : Int64} (hincrement : incrementBy ≠ 0)
    (hlow : minValue ≤ startWith)
    (hhigh : startWith ≤ maxValue) (made : SequenceDef)
    (hmade : made = newSequence schema name incrementBy minValue maxValue startWith false)
    (hnew : ¬ old.Holds toLowercase made) (ifNotExists : Bool)
    (hcreate : old.createSequence toLowercase made ifNotExists = .ok seqs) (names : List String)
    (haccepted : ∀ x ∈ names, ∃ key ∈ made.keys toLowercase, seqs.sequenceKey toLowercase x = some key) :
    Meets (call toLowercase) (delivers toLowercase made) (seqs, 0) names ↔
      (∀ x ∈ names, ∀ y ∈ names, seqs.sequenceKey toLowercase x = seqs.sequenceKey toLowercase y) ∧
        ∀ i < names.length, made.Fits i := by
  have h : made.Made := by
    rw [hmade]
    exact ⟨rfl, rfl, rfl, hincrement, hlow, hhigh⟩
  have hentries : ∀ key ∈ made.keys toLowercase, seqs.sequences key = some made := by
    rw [createSequence, if_neg hnew] at hcreate
    intro key hkey
    rw [← Except.ok.inj hcreate]
    exact if_pos hkey
  cases names with
  | nil => exact iff_of_true trivial ⟨forall_mem_nil _, fun i hi => absurd hi (Nat.not_lt_zero i)⟩
  | cons x names =>
    obtain ⟨key, hmem, hkey⟩ := haccepted x mem_cons_self
    obtain ⟨seq, hfirst, hvalue, hreached⟩ := SequenceDef.next_first h x
    obtain ⟨-, hlow', hhigh'⟩ := h.bounds
    obtain ⟨-, hsequences, -⟩ := nextval_of_key hkey (hentries key hmem)
    have hafter : made.after x = seq := by
      rw [SequenceDef.after, hfirst]
      rfl
    have hdelivers : delivers toLowercase made (seqs, 0) x := by
      rw [delivers_iff hkey (hentries key hmem), hfirst]
      refine ⟨fun _ => ⟨_, rfl, by rw [hvalue, SequenceDef.value_zero]⟩, fun hout => absurd ?_ hout⟩
      rw [SequenceDef.InLimits, SequenceDef.value_zero]
      exact ⟨hlow', hhigh'⟩
    have hfits : made.Fits 0 := by
      have := made.startWith.le_toInt
      have := made.startWith.toInt_lt
      rw [SequenceDef.Fits, SequenceDef.value_zero]
      omega
    have hsame : ∀ key, ((seqs.nextval toLowercase x).2.sequences key).isSome =
        (seqs.sequences key).isSome := by
      intro key
      rw [hsequences, isSome_update (hentries _ hmem)]
    have hbehind : Behind toLowercase made key (seqs.nextval toLowercase x).2 1 := by
      refine ⟨⟨seq, 1, by rw [hsequences, update_self, hafter], hreached⟩,
        fun other hother hne => ?_⟩
      rw [hsequences, update_of_ne hne, hentries other hother]
    have hiff := calls_iff h names Nat.one_pos hbehind fun y hy => by
      rw [sequenceKey_eq hsame]
      exact haccepted y (mem_cons_of_mem _ hy)
    simp only [sequenceKey_eq hsame] at hiff
    rw [Meets, call, hiff, and_iff_right hdelivers]
    refine and_congr ⟨fun hkeys => ?_, fun hkeys y hy => ?_⟩ ⟨fun hfit i hi => ?_, fun hfit i hi => ?_⟩
    · have hall : ∀ y ∈ x :: names, seqs.sequenceKey toLowercase y = some key :=
        forall_mem_cons.mpr ⟨hkey, hkeys⟩
      intro y hy z hz
      rw [hall y hy, hall z hz]
    · rw [hkeys y (mem_cons_of_mem _ hy) x mem_cons_self, hkey]
    · cases i with
      | zero => exact hfits
      | succ i =>
        rw [Nat.add_comm i 1]
        exact hfit i (Nat.lt_of_succ_lt_succ hi)
    · rw [Nat.add_comm 1 i]
      exact hfit (i + 1) (Nat.succ_lt_succ hi)

def asciiLowercase (s : String) : String := String.ofList (s.toList.map Char.toLower)

/-- The sequence of `CREATE SEQUENCE s`. -/
def plainSequence : SequenceDef := newSequence "public" "s" 1 1 9223372036854775807 1 false

def plainSequences : Sequences :=
  ⟨insertAll (fun _ => none) ["s", "public.s"] plainSequence,
    insertAll (fun _ => none) ["s", "public.s"] plainSequence⟩

theorem createSequence_plain :
    (⟨fun _ => none, fun _ => none⟩ : Sequences).createSequence asciiLowercase plainSequence false =
      .ok plainSequences := by
  have hkeys : plainSequence.keys asciiLowercase = ["s", "public.s"] := by decide +kernel
  rw [createSequence, if_neg (by decide +kernel), hkeys]
  rfl

/-- The second spelling gives the first value once more. -/
theorem bothSpellings_repeat : ¬ Meets (call asciiLowercase) (delivers asciiLowercase plainSequence)
    (plainSequences, 0) ["s", "public.s"] := by
  rintro ⟨-, ⟨hanswers, -⟩, -⟩
  have hsecond : ((call asciiLowercase (plainSequences, 0) "s").1.nextval asciiLowercase
    "public.s").1.toOption =
      some 1 := by
    decide +kernel
  obtain ⟨n, hn, hv⟩ := hanswers.1 ⟨by decide, by decide⟩
  rw [hn] at hsecond
  rw [Option.some.inj hsecond] at hv
  exact absurd hv (by decide)

theorem nextvals_iff_plain : Meets (call asciiLowercase) (delivers asciiLowercase plainSequence)
    (plainSequences, 0) ["s", "S"] := by
  have hkey : ∀ x ∈ ["s", "S"], plainSequences.sequenceKey asciiLowercase x = some "s" := by decide +kernel
  have hmem : "s" ∈ plainSequence.keys asciiLowercase := by decide +kernel
  refine (nextvals_iff "public" "s" (by decide) (by decide) (by decide) plainSequence rfl
    (by decide +kernel) false
    createSequence_plain ["s", "S"] fun x hx => ⟨"s", hmem, hkey x hx⟩).mpr
    ⟨fun x hx y hy => by rw [hkey x hx, hkey y hy], fun i hi => ?_⟩
  have hi : i < 2 := hi
  refine ⟨fun _ => Or.inr ?_, fun hdown => absurd hdown (by decide)⟩
  change (1 : Int) + i * 1 ≤ 9223372036854775807
  omega

end Sequences

end H2Database.Sql
