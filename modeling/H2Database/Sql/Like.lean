import Mathlib.Data.List.Infix
import Mathlib.Data.List.Lemmas

/-!
# LIKE (`h2-sql/src/expression.rs`)

The code takes a `%` at the front and at the end of a pattern for a wildcard, and every other character for
itself.  In the standard `%` is any string and `_` any character, wherever they stand.
-/

namespace H2Database.Sql

open List Option

/-- `None` where the source slices from 1 to 0. -/
def likeMatched (s p : List Char) : Option Bool :=
  if p.head? = some '%' ∧ p.getLast? = some '%' then
    if p.length = 1 then none else some (decide (p.tail.dropLast <:+: s))
  else if p.head? = some '%' then some (decide (p.tail <:+ s))
  else if p.getLast? = some '%' then some (decide (p.dropLast <+: s))
  else some (decide (s = p))

/-! ## Patterns -/

inductive PatternItem where
  | anyString
  | anyChar
  | char (c : Char)
  deriving DecidableEq

def matchesPattern : List PatternItem → List Char → Bool
  | [], s => s.isEmpty
  | .anyString :: p, s => s.tails.any fun rest => matchesPattern p rest
  | .anyChar :: p, s => match s with
    | [] => false
    | _ :: s => matchesPattern p s
  | .char c :: p, s => match s with
    | [] => false
    | d :: s => d = c && matchesPattern p s

def standardPattern (p : List Char) : List PatternItem :=
  p.map fun c => if c = '%' then .anyString else if c = '_' then .anyChar else .char c

def endPattern (p : List Char) : List PatternItem :=
  let front := if p.head? = some '%' then [PatternItem.anyString] else []
  let rest := if p.head? = some '%' then p.tail else p
  if rest.getLast? = some '%' then front ++ rest.dropLast.map .char ++ [.anyString]
  else front ++ rest.map .char

/-- Whether the text matches does not depend on which of the two ways the pattern is read. -/
def ReadsAlike (s p : List Char) : Prop :=
  p ≠ ['%'] ∧ matchesPattern (endPattern p) s = matchesPattern (standardPattern p) s

theorem matches_anyString {p : List PatternItem} {s : List Char} :
    matchesPattern (.anyString :: p) s = true ↔ ∃ rest, rest <:+ s ∧ matchesPattern p rest = true := by
  simp [matchesPattern, mem_tails]

theorem matches_chars {cs : List Char} {p : List PatternItem} {s : List Char} :
    matchesPattern (cs.map .char ++ p) s = true ↔ ∃ rest, s = cs ++ rest ∧ matchesPattern p rest = true := by
  induction cs generalizing s with
  | nil => simp
  | cons c cs ih =>
    cases s with
    | nil => simp [matchesPattern]
    | cons d s =>
      rw [map_cons, cons_append]
      change (decide (d = c) && matchesPattern (cs.map .char ++ p) s) = true ↔ _
      rw [Bool.and_eq_true, decide_eq_true_iff, ih]
      simp only [cons_append, List.cons.injEq, and_assoc, exists_and_left]

theorem matches_self {cs s : List Char} : matchesPattern (cs.map .char) s = true ↔ s = cs := by
  have h := @matches_chars cs [] s
  rw [append_nil] at h
  rw [h]
  simp [matchesPattern]

theorem matches_front {cs s : List Char} :
    matchesPattern (cs.map .char ++ [.anyString]) s = true ↔ cs <+: s := by
  rw [matches_chars]
  constructor
  · rintro ⟨rest, rfl, _⟩
    exact prefix_append cs rest
  · rintro ⟨rest, rfl⟩
    exact ⟨rest, rfl, matches_anyString.mpr ⟨[], nil_suffix, rfl⟩⟩

theorem likeMatched_eq {s p : List Char} (h : p ≠ ['%']) :
    likeMatched s p = some (matchesPattern (endPattern p) s) := by
  by_cases hfront : p.head? = some '%'
  · obtain ⟨q, rfl⟩ : ∃ q, p = '%' :: q := ⟨p.tail, (cons_head?_tail hfront).symm⟩
    have hq : q ≠ [] := fun hnil => h (by rw [hnil])
    have hlast : ('%' :: q).getLast? = q.getLast? := by
      rw [getLast?_cons, getLast?_eq_some_getLast hq]
      rfl
    by_cases hback : q.getLast? = some '%'
    · -- the rest, but for its last character, stands somewhere in the text
      have hlong : ('%' :: q).length ≠ 1 := by simpa using hq
      rw [likeMatched, if_pos ⟨hfront, hlast.trans hback⟩, if_neg hlong, some_inj,
        Bool.eq_iff_iff, decide_eq_true_iff, endPattern]
      simp only [hfront, if_true, tail_cons, hback]
      rw [append_assoc, singleton_append, matches_anyString, infix_iff_prefix_suffix]
      exact exists_congr fun rest => by rw [matches_front, and_comm]
    · rw [likeMatched, if_neg fun hboth => hback (hlast.symm.trans hboth.2), if_pos hfront, some_inj,
        Bool.eq_iff_iff, decide_eq_true_iff, endPattern]
      simp only [hfront, if_true, tail_cons, hback, if_false]
      rw [singleton_append, matches_anyString]
      constructor
      · exact fun hsuffix => ⟨q, hsuffix, matches_self.mpr rfl⟩
      · rintro ⟨rest, hsuffix, hmatch⟩
        rwa [← matches_self.mp hmatch]
  · rw [likeMatched, if_neg fun hboth => hfront hboth.1, if_neg hfront, endPattern]
    by_cases hback : p.getLast? = some '%'
    · simp only [hback, hfront, if_true, if_false, nil_append, some_inj]
      rw [Bool.eq_iff_iff, decide_eq_true_iff, matches_front]
    · simp only [hback, hfront, if_false, nil_append, some_inj]
      rw [Bool.eq_iff_iff, decide_eq_true_iff, matches_self]

theorem likeMatched_percent (s : List Char) : likeMatched s ['%'] = none := rfl

/-! ## Patterns that are read as the standard has them -/

/-- `ILIKE` compares what `to_lowercase` makes of both. -/
def ilikeMatched (lower : List Char → List Char) (s p : List Char) : Option Bool :=
  likeMatched (lower s) (lower p)

/-- Wildcards stand at the ends only, each is a `%`, and the pattern is more than one of them. -/
def EndWildcards (p : List Char) : Prop := p ≠ ['%'] ∧ '_' ∉ p ∧ '%' ∉ p.tail.dropLast

theorem exists_middle {p : List Char} (hp : p ≠ ['%']) : ∃ front middle back,
    endPattern p = front ++ middle.map .char ++ back ∧
    standardPattern p = front ++ standardPattern middle ++ back ∧
    (EndWildcards p ↔ '_' ∉ middle ∧ '%' ∉ middle) := by
  have hstar : standardPattern ['%'] = [.anyString] := rfl
  have happend : ∀ q r, standardPattern (q ++ r) = standardPattern q ++ standardPattern r :=
    fun q r => map_append
  rcases p with _ | ⟨c, q⟩
  · exact ⟨[], [], [], rfl, rfl, by simp [EndWildcards]⟩
  rcases q.eq_nil_or_concat with rfl | ⟨m, d, rfl⟩
  · have hc : c ≠ '%' := fun heq => hp (by rw [heq])
    exact ⟨[], [c], [], by simp [endPattern, hc], by simp, by simp [EndWildcards, hc, Ne.symm hc]⟩
  rw [concat_eq_append] at hp ⊢
  have hlast : (c :: (m ++ [d])).getLast? = some d := by
    rw [← cons_append, getLast?_concat]
  have hsplit : standardPattern (c :: (m ++ [d])) =
      standardPattern [c] ++ standardPattern m ++ standardPattern [d] := by
    rw [← singleton_append, ← append_assoc, happend, happend]
  by_cases hc : c = '%' <;> by_cases hd : d = '%'
  · refine ⟨[.anyString], m, [.anyString], ?_, ?_, ?_⟩
    · simp [endPattern, hc, hd]
    · rw [hsplit, hc, hd, hstar]
    · simp [EndWildcards, hc, hd]
  · refine ⟨[.anyString], m ++ [d], [], ?_, ?_, ?_⟩
    · simp [endPattern, hc, hd]
    · rw [hsplit, hc, hstar, append_nil, happend, append_assoc]
    · simp [EndWildcards, hc, Ne.symm hd]
  · refine ⟨[], c :: m, [.anyString], ?_, ?_, ?_⟩
    · rw [hd] at hlast
      simp only [endPattern, head?_cons, some_inj, hc, if_false, hd, hlast, if_true]
      rw [← cons_append, dropLast_concat]
    · rw [hsplit, hd, hstar, nil_append, ← happend, singleton_append]
    · simp [EndWildcards, hd, Ne.symm hc]
  · refine ⟨[], c :: (m ++ [d]), [], ?_, by simp, ?_⟩
    · simp only [endPattern, head?_cons, some_inj, hc, if_false, hlast, hd]
      rw [append_nil]
    · simp [EndWildcards, Ne.symm hc, Ne.symm hd]

theorem standardPattern_of_plain {middle : List Char} (h : '_' ∉ middle ∧ '%' ∉ middle) :
    standardPattern middle = middle.map .char := by
  refine map_congr_left fun c hc => ?_
  have hstar : c ≠ '%' := by
    rintro rfl
    exact h.2 hc
  have hany : c ≠ '_' := by
    rintro rfl
    exact h.1 hc
  rw [if_neg hstar, if_neg hany]

theorem mem_of_matches {c : Char} {items : List PatternItem} {s : List Char}
    (h : matchesPattern items s = true) (hc : .char c ∈ items) : c ∈ s := by
  induction items generalizing s with
  | nil => cases hc
  | cons item items ih =>
    cases item with
    | anyString =>
      obtain ⟨rest, hrest, hmatch⟩ := matches_anyString.mp h
      have hin : .char c ∈ items := by simpa using hc
      exact hrest.subset (ih hmatch hin)
    | anyChar =>
      cases s with
      | nil => cases h
      | cons d s => exact mem_cons_of_mem d (ih h (by simpa using hc))
    | char d =>
      cases s with
      | nil => cases h
      | cons e s =>
        obtain ⟨heq, hmatch⟩ := (Bool.and_eq_true _ _).mp h
        rcases mem_cons.mp hc with hhead | hin
        · cases hhead
          rw [of_decide_eq_true heq]
          exact mem_cons_self
        · exact mem_cons_of_mem e (ih hmatch hin)

/-- A text that the pattern matches, without the characters of wildcards. -/
def sampleOf (p : List Char) : List Char :=
  p.flatMap fun c => if c = '%' then [] else if c = '_' then ['x'] else [c]

theorem matches_sampleOf (p : List Char) : matchesPattern (standardPattern p) (sampleOf p) = true := by
  induction p with
  | nil => rfl
  | cons c p ih =>
    rw [standardPattern, map_cons, sampleOf, flatMap_cons]
    split_ifs with hstar hany
    · exact matches_anyString.mpr ⟨sampleOf p, suffix_rfl, ih⟩
    · exact ih
    · change (decide (c = c) && matchesPattern (standardPattern p) (sampleOf p)) = true
      rw [decide_eq_true rfl, ih]
      rfl

theorem not_mem_sampleOf (p : List Char) : '_' ∉ sampleOf p ∧ '%' ∉ sampleOf p := by
  unfold sampleOf
  simp only [mem_flatMap, not_exists, not_and]
  constructor <;>
  · intro c _
    split_ifs with hstar hany
    · exact not_mem_nil
    · decide
    · simpa using fun h => by first | exact hany h.symm | exact hstar h.symm

/-- A pattern is matched as the standard has it, by `LIKE` and behind the folding by `ILIKE`, exactly if its
wildcards are a `%` at its ends. -/
theorem likeMatched_standard_iff (lower : List Char → List Char) (p : List Char) :
    ((∀ s, likeMatched s p = some (matchesPattern (standardPattern p) s)) ∧
      ∀ s q, lower q = p → ilikeMatched lower s q = some (matchesPattern (standardPattern p) (lower s))) ↔
    EndWildcards p := by
  constructor
  · rintro ⟨hlike, -⟩
    have hp : p ≠ ['%'] := by
      rintro rfl
      cases (likeMatched_percent []).symm.trans (hlike [])
    obtain ⟨front, middle, back, hend, -, hiff⟩ := exists_middle hp
    have hmatch := Option.some.inj ((likeMatched_eq hp).symm.trans (hlike (sampleOf p)))
    rw [matches_sampleOf, hend] at hmatch
    have hmem : ∀ c ∈ middle, c ∈ sampleOf p := fun c hc => mem_of_matches hmatch
      (mem_append_left _ (mem_append_right _ (mem_map_of_mem hc)))
    exact hiff.mpr ⟨fun h => (not_mem_sampleOf p).1 (hmem _ h), fun h => (not_mem_sampleOf p).2 (hmem _ h)⟩
  · intro h
    obtain ⟨front, middle, back, hend, hstandard, hiff⟩ := exists_middle h.1
    have hlike : ∀ s, likeMatched s p = some (matchesPattern (standardPattern p) s) := by
      intro s
      rw [likeMatched_eq h.1, hend, hstandard, standardPattern_of_plain (hiff.mp h)]
    exact ⟨hlike, fun s q hq => by rw [ilikeMatched, hq, hlike]⟩

/-- `'abc' LIKE 'a%c'` is false, and a pattern of one `%` is no pattern. -/
theorem like_middle_percent : ¬∀ s p, likeMatched s p = some (matchesPattern (standardPattern p) s) :=
  fun h => absurd (h ['a', 'b', 'c'] ['a', '%', 'c']) (by decide)

end H2Database.Sql
