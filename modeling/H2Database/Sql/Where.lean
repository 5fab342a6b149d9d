import H2Database.Sql.Condition
import H2Database.Sql.Pushdown

/-!
# WHERE and NULL (`h2-sql/src/expression.rs`)

A condition selects a row if the standard's value of it is true.  For the code a comparison with NULL has an
answer, which `NOT` turns round; only where NULL decides no comparison do both mean the same.
-/

namespace H2Database.Sql

open Reasoning List

section

variable [Crates] [Arithmetic]

/-! ## The law -/

namespace Condition

section

variable (ctx : RowContext) (seen : Visible) (row : Row)

/-- The condition has a value in the code, which is true if and only if it is in the standard. -/
def Obeys (c : Condition) : Prop :=
  ∃ v, evaluate ctx seen row c = pure v ∧ (v = .boolean true ↔ standard ctx seen row c = .boolean true)

def Denotes (c : Condition) (v : Value) : Prop :=
  evaluate ctx seen row c = pure v ∧ standard ctx seen row c = ctx.standardValue v

def IsTruth (v : Value) : Prop := v = .null ∨ ∃ b, v = .boolean b

def IsText (v : Value) : Prop := v = .null ∨ ∃ s, v = .string s

/-- One operator on columns and literals of the types that it takes. -/
inductive Atom : Condition → Prop
  | truth {o : Operand} {v : Value} (h : evaluateExprContext ctx seen row o.expr = .ok v) (ht : IsTruth v) :
      Atom (.operand o)
  | compare {l r : Operand} {op : Comparison} {v w : Value}
      (hl : evaluateExprContext ctx seen row l.expr = .ok v)
      (hr : evaluateExprContext ctx seen row r.expr = .ok w)
      (ht : TypeCorrect op (ctx.standardValue v) (ctx.standardValue w)) :
      Atom (.compare (.operand l) op (.operand r))
  | isNull {o : Operand} {negated : Bool} {v : Value} (h : evaluateExprContext ctx seen row o.expr = .ok v) :
      Atom (.isNull negated (.operand o))
  | like {o p : Operand} {negated : Bool} {v w : Value}
      (hv : evaluateExprContext ctx seen row o.expr = .ok v)
      (hw : evaluateExprContext ctx seen row p.expr = .ok w) (htv : IsText v) (htw : IsText w) :
      Atom (.like negated (.operand o) (.operand p))
  | inList {o : Operand} {items : List Operand} {negated : Bool} {v : Value}
      (hv : evaluateExprContext ctx seen row o.expr = .ok v)
      (ht : ∀ i ∈ items, ∃ w, evaluateExprContext ctx seen row i.expr = .ok w ∧
        TypeCorrect .eq (ctx.standardValue v) (ctx.standardValue w)) :
      Atom (.inList (.operand o) (items.map .operand) negated)
  | between {o low high : Operand} {negated : Bool} {v l h : Value}
      (hv : evaluateExprContext ctx seen row o.expr = .ok v)
      (hl : evaluateExprContext ctx seen row low.expr = .ok l)
      (hh : evaluateExprContext ctx seen row high.expr = .ok h)
      (htl : TypeCorrect .gtEq (ctx.standardValue v) (ctx.standardValue l))
      (hth : TypeCorrect .ltEq (ctx.standardValue v) (ctx.standardValue h)) :
      Atom (.between (.operand o) negated (.operand low) (.operand high))

/-- The standard's value is known, equal intervals are not compared for equality, and a pattern means the same
if only its ends are taken for wildcards. -/
def Known : Condition → Prop
  | c@(.compare l op r) => standard ctx seen row c ≠ .null ∧
      (op.isEquality = true → ¬ EqualIntervals (standard ctx seen row l) (standard ctx seen row r))
  | c@(.inList d list _) => standard ctx seen row c ≠ .null ∧
      ∀ w ∈ standards ctx seen row list, ¬ EqualIntervals (standard ctx seen row d) w
  | c@(.like _ d p) => standard ctx seen row c ≠ .null ∧
      ∀ s q, standard ctx seen row d = .string s → standard ctx seen row p = .string q →
        ReadsAlike s.toList q.toList
  | c => standard ctx seen row c ≠ .null

end

inductive Built (A : Condition → Prop) : Condition → Prop
  | atom {c : Condition} (h : A c) : Built A c
  | nested {c : Condition} (h : Built A c) : Built A (.nested c)
  | not {c : Condition} (h : Built A c) : Built A (.not c)
  | and {c d : Condition} (hc : Built A c) (hd : Built A d) : Built A (.and c d)
  | or {c d : Condition} (hc : Built A c) (hd : Built A d) : Built A (.or c d)
  | compare {c d : Condition} (op : Comparison) (hc : Built A c) (hd : Built A d) : Built A (.compare c op d)
  | isNull {c : Condition} (negated : Bool) (h : Built A c) : Built A (.isNull negated c)
  | inList {c : Condition} {list : List Condition} (negated : Bool) (hc : Built A c)
      (hlist : ∀ d ∈ list, Built A d) : Built A (.inList c list negated)
  | between {c l h : Condition} (negated : Bool) (hc : Built A c) (hl : Built A l) (hh : Built A h) :
      Built A (.between c negated l h)

variable {ctx : RowContext} {seen : Visible} {row : Row} {c d : Condition} {v w : Value}

omit [Crates] [Arithmetic] in
theorem isNull_standardValue (v : Value) : (ctx.standardValue v).isNull = ctx.isNull v := by
  unfold RowContext.standardValue
  split_ifs with h
  · exact h.symm
  · cases v with
    | null => exact absurd rfl h
    | string s => exact (Bool.not_eq_true _ ▸ h).symm
    | _ => rfl

omit [Crates] [Arithmetic] in
theorem standardValue_eq (h : (ctx.standardValue v).isNull = false) : ctx.standardValue v = v := by
  rw [isNull_standardValue] at h
  exact if_neg (by rw [h]; exact Bool.false_ne_true)

theorem sqlCompare_known (op : Comparison) {a b : Value} {known : Bool} (h : sqlCompare op a b = some known) :
    a.isNull = false ∧ b.isNull = false := by
  rw [← Bool.or_eq_false_iff, ← Bool.not_eq_true]
  intro hnull
  have heq : a.sqlEq b = none := by
    rcases (Bool.or_eq_true _ _).mp hnull with hnull | hnull
    · obtain rfl : a = .null := by cases a <;> first | rfl | cases hnull
      cases b <;> rfl
    · obtain rfl : b = .null := by cases b <;> first | rfl | cases hnull
      cases a <;> rfl
  cases op with
  | eq => exact Option.some_ne_none known (h.symm.trans heq)
  | notEq =>
    rw [sqlCompare, heq] at h
    cases h
  | _ =>
    rw [sqlCompare, Value.sqlOrder, if_pos hnull] at h
    cases h

theorem denotes_operand {o : Operand} (h : evaluateExprContext ctx seen row o.expr = .ok v) :
    Denotes ctx seen row (.operand o) v := by
  refine ⟨?_, ?_⟩
  · rw [evaluate, h]
    rfl
  · rw [standard, h]

theorem denotes_boolean {b : Bool} : Denotes ctx seen row c (.boolean b) ↔
    evaluate ctx seen row c = pure (.boolean b) ∧ standard ctx seen row c = .boolean b := Iff.rfl

/-- Whether a condition has an answer in the code that is the standard's. -/
def Agrees (ctx : RowContext) (seen : Visible) (row : Row) (c : Condition) : Prop :=
  ∃ b, Denotes ctx seen row c (.boolean b)

omit [Crates] [Arithmetic] in
theorem ofTruth_eq_boolean {t : Truth} {b : Bool} : Value.ofTruth t = .boolean b ↔ t = some b := by
  rcases t with _ | k
  · simp [Value.ofTruth]
  · simp [Value.ofTruth]

omit [Crates] [Arithmetic] in
theorem ofTruth_ne_null {t : Truth} : Value.ofTruth t ≠ .null ↔ ∃ b, t = some b := by
  rcases t with _ | k
  · simp [Value.ofTruth]
  · simp [Value.ofTruth]

theorem agrees_iff {t : Truth} {e : Evaluation Value} (he : evaluate ctx seen row c = e)
    (hs : standard ctx seen row c = .ofTruth t) :
    Agrees ctx seen row c ↔ ∃ b, t = some b ∧ e = pure (.boolean b) := by
  refine exists_congr fun b => ?_
  rw [denotes_boolean, he, hs, ofTruth_eq_boolean, and_comm]

theorem agrees_compare (hc : Arithmetic.Consistent) {op : Comparison} (hl : Denotes ctx seen row c v)
    (hr : Denotes ctx seen row d w) (ht : TypeCorrect op (ctx.standardValue v) (ctx.standardValue w)) :
    Agrees ctx seen row (.compare c op d) ↔ Known ctx seen row (.compare c op d) := by
  have he : evaluate ctx seen row (.compare c op d) = .of (evaluateBinaryOp v op.operator w) := by
    rw [evaluate, hl.1, hr.1]
    rfl
  have hs : standard ctx seen row (.compare c op d) =
      .ofTruth (sqlCompare op (ctx.standardValue v) (ctx.standardValue w)) := by
    rw [standard, hl.2, hr.2]
  rw [agrees_iff he hs, Known, hs, ofTruth_ne_null, hl.2, hr.2, ← exists_and_right]
  refine exists_congr fun b => and_congr_right fun hb => ?_
  -- neither operand is NULL, and so the values are the code's
  obtain ⟨hv, hw⟩ := sqlCompare_known op hb
  rw [← evaluateBinaryOp_iff hc ht hb, standardValue_eq hv, standardValue_eq hw]
  constructor
  · intro h
    injection h
  · exact congrArg some

theorem agrees_isNull (negated : Bool) (h : Denotes ctx seen row c v) :
    Agrees ctx seen row (.isNull negated c) := by
  refine ⟨negate negated (ctx.isNull v), ?_, ?_⟩
  · rw [evaluate, h.1]
    rfl
  · rw [standard, h.2, isNull_standardValue]
    rfl

omit [Crates] [Arithmetic] in
theorem sqlLike_eq_some {a b : Value} {known : Bool} (h : sqlLike a b = some known) :
    ∃ s q, a = .string s ∧ b = .string q ∧
      matchesPattern (standardPattern q.toList) s.toList = known := by
  unfold sqlLike at h
  split at h
  · cases h
    exact ⟨_, _, rfl, rfl, rfl⟩
  · cases h

omit [Crates] [Arithmetic] in
theorem pure_negate_inj {negated a b : Bool} :
    (pure (.boolean (negate negated a)) : Evaluation Value) = pure (.boolean (negate negated b)) ↔ a = b := by
  constructor
  · intro h
    injection h with h
    injection h with h
    injection h with h
    revert h
    cases negated <;> cases a <;> cases b <;> decide
  · rintro rfl
    rfl

variable {negated : Bool}

theorem agrees_like (hl : Denotes ctx seen row c v) (hr : Denotes ctx seen row d w) :
    Agrees ctx seen row (.like negated c d) ↔ Known ctx seen row (.like negated c d) := by
  have he : evaluate ctx seen row (.like negated c d) =
      (likeMatches v w).map fun matched => .ok (.boolean (negate negated matched)) := by
    rw [evaluate, hl.1, hr.1, pure_bind, pure_bind]
    cases likeMatches v w <;> rfl
  have hs : standard ctx seen row (.like negated c d) =
      .ofTruth ((sqlLike (ctx.standardValue v) (ctx.standardValue w)).map (negate negated)) := by
    rw [standard, hl.2, hr.2]
  rw [agrees_iff he hs, Known, hs, ofTruth_ne_null, hl.2, hr.2, ← exists_and_right]
  refine exists_congr fun b => and_congr_right fun hb => ?_
  obtain ⟨known, hknown, rfl⟩ := Option.map_eq_some_iff.mp hb
  obtain ⟨s, q, hv, hw, hmatch⟩ := sqlLike_eq_some hknown
  -- both are texts, and so they are the code's
  obtain rfl : v = .string s := by rw [← hv, standardValue_eq (by rw [hv]; rfl)]
  obtain rfl : w = .string q := by rw [← hw, standardValue_eq (by rw [hw]; rfl)]
  have hread : likeMatches (.string s) (.string q) = some known ↔ ReadsAlike s.toList q.toList := by
    change likeMatched s.toList q.toList = _ ↔ _
    by_cases hpercent : q.toList = ['%']
    · rw [hpercent, likeMatched_percent]
      refine iff_of_false (fun h => by cases h) fun h => h.1 rfl
    · rw [likeMatched_eq hpercent, ← hmatch, Option.some_inj]
      exact ⟨fun h => ⟨hpercent, h⟩, fun h => h.2⟩
  constructor
  · intro h s' q' hs' hq'
    rw [hv] at hs'
    rw [hw] at hq'
    cases hs'
    cases hq'
    refine hread.mp ?_
    cases hm : likeMatches (.string s) (.string q) with
    | none =>
      rw [hm] at h
      cases h
    | some m =>
      rw [hm] at h
      rw [pure_negate_inj.mp h]
  · intro h
    rw [hread.mpr (h s q hv hw)]
    rfl

variable {list : List Condition}

theorem findIn_eq {ws : List Value} (h : List.Forall₂ (Denotes ctx seen row) list ws) (v : Value) :
    findIn ctx seen row v list = pure (ws.any v.eq) ∧
      standards ctx seen row list = ws.map ctx.standardValue := by
  induction h with
  | nil => exact ⟨rfl, rfl⟩
  | cons hd _ ih =>
    rename_i _ w _ ws _
    constructor
    · rw [findIn, hd.1, pure_bind, any_cons, ih.1]
      cases v.eq w <;> rfl
    · rw [standards, hd.2, ih.2, map_cons]

theorem exists_values {Q : Value → Prop} (h : ∀ d ∈ list, ∃ w, Denotes ctx seen row d w ∧ Q w) :
    ∃ ws, List.Forall₂ (Denotes ctx seen row) list ws ∧ ∀ w ∈ ws, Q w := by
  induction list with
  | nil => exact ⟨[], .nil, fun w hw => by cases hw⟩
  | cons d list ih =>
    obtain ⟨w, hd, hw⟩ := h d mem_cons_self
    obtain ⟨ws, hlist, hws⟩ := ih fun e he => h e (mem_cons_of_mem _ he)
    exact ⟨w :: ws, .cons hd hlist, forall_mem_cons.mpr ⟨hw, hws⟩⟩

theorem agrees_inList (hc : Arithmetic.Consistent) {ws : List Value}
    (hv : Denotes ctx seen row c v) (hlist : List.Forall₂ (Denotes ctx seen row) list ws)
    (ht : ∀ w ∈ ws, TypeCorrect .eq (ctx.standardValue v) (ctx.standardValue w)) :
    Agrees ctx seen row (.inList c list negated) ↔ Known ctx seen row (.inList c list negated) := by
  obtain ⟨hfind, hitems⟩ := findIn_eq hlist v
  have he : evaluate ctx seen row (.inList c list negated) =
      pure (.boolean (negate negated (ws.any v.eq))) := by
    rw [evaluate, hv.1, pure_bind, hfind]
    rfl
  have hs : standard ctx seen row (.inList c list negated) =
      .ofTruth ((Truth.any ((ws.map ctx.standardValue).map (ctx.standardValue v).sqlEq)).map
        (negate negated)) := by
    rw [standard, hv.2, hitems]
  rw [agrees_iff he hs, Known, hs, ofTruth_ne_null, hv.2, hitems, ← exists_and_right]
  refine exists_congr fun b => and_congr_right fun hb => ?_
  obtain ⟨known, hknown, rfl⟩ := Option.map_eq_some_iff.mp hb
  -- what the standard knows of an item
  have hanswer : ∀ w ∈ ws, ∀ {k : Bool}, (ctx.standardValue v).sqlEq (ctx.standardValue w) = some k →
      v.eq w = (k && !v.holdsInterval) := by
    intro w hw k hk
    obtain ⟨hnull, hnull'⟩ := sqlCompare_known .eq hk
    have heq := Value.eq_of_sqlEq hc (ht w hw).1 hk
    rwa [standardValue_eq hnull, standardValue_eq hnull'] at heq
  have hfound : ws.any v.eq = known ↔
      ∀ w ∈ ws.map ctx.standardValue, ¬ EqualIntervals (ctx.standardValue v) w := by
    cases known with
    | true =>
      obtain ⟨u, hu, hequal⟩ := mem_map.mp (Truth.any_eq_true.mp hknown)
      obtain ⟨w, hw, rfl⟩ := mem_map.mp hu
      have hvalue : ctx.standardValue v = v := standardValue_eq (sqlCompare_known .eq hequal).1
      by_cases hinterval : v.holdsInterval = true
      · refine iff_of_false ?_ fun hnone => hnone _ hu ⟨hequal, by rw [hvalue]; exact hinterval⟩
        rw [Bool.not_eq_true, any_eq_false]
        intro w' _
        rw [Value.eq_of_holdsInterval hinterval]
        exact Bool.false_ne_true
      · refine iff_of_true ?_ fun _ _ hboth => hinterval (hvalue ▸ hboth.2)
        rw [any_eq_true]
        refine ⟨w, hw, ?_⟩
        rw [hanswer w hw hequal, eq_false_of_ne_true hinterval]
        rfl
    | false =>
      have hnone := Truth.any_eq_false.mp hknown
      refine iff_of_true ?_ fun u hu hboth => ?_
      · rw [any_eq_false]
        intro w hw
        rw [hanswer w hw (hnone _ (mem_map_of_mem (mem_map_of_mem hw)))]
        exact Bool.false_ne_true
      · have hfalse := hnone _ (mem_map_of_mem hu)
        rw [hboth.1] at hfalse
        cases hfalse
  rw [← hfound, pure_negate_inj]

theorem known_between {low high : Condition} :
    Known ctx seen row (.between c negated low high) ↔
      standard ctx seen row (.between c negated low high) ≠ .null := Iff.rfl

theorem agrees_between (hc : Arithmetic.Consistent) {low high : Condition} {l h : Value}
    (hv : Denotes ctx seen row c v) (hl : Denotes ctx seen row low l) (hh : Denotes ctx seen row high h)
    (htl : TypeCorrect .gtEq (ctx.standardValue v) (ctx.standardValue l))
    (hth : TypeCorrect .ltEq (ctx.standardValue v) (ctx.standardValue h)) :
    Agrees ctx seen row (.between c negated low high) ↔
      Known ctx seen row (.between c negated low high) := by
  have he : evaluate ctx seen row (.between c negated low high) =
      pure (.boolean (negate negated (v.ge l && v.le h))) := by
    rw [evaluate, hv.1, hl.1, hh.1]
    rfl
  have hs : standard ctx seen row (.between c negated low high) =
      .ofTruth (((sqlCompare .gtEq (ctx.standardValue v) (ctx.standardValue l)).and
        (sqlCompare .ltEq (ctx.standardValue v) (ctx.standardValue h))).map (negate negated)) := by
    rw [standard, hv.2, hl.2, hh.2]
  have hlow : ∀ {k : Bool}, sqlCompare .gtEq (ctx.standardValue v) (ctx.standardValue l) = some k →
      v.ge l = k := by
    intro k hk
    obtain ⟨hnull, hnull'⟩ := sqlCompare_known _ hk
    have hop := (evaluateBinaryOp_iff hc htl hk).mpr fun heq => by cases heq
    rw [standardValue_eq hnull, standardValue_eq hnull'] at hop
    injection hop with hop
    injection hop
  have hhigh : ∀ {k : Bool}, sqlCompare .ltEq (ctx.standardValue v) (ctx.standardValue h) = some k →
      v.le h = k := by
    intro k hk
    obtain ⟨hnull, hnull'⟩ := sqlCompare_known _ hk
    have hop := (evaluateBinaryOp_iff hc hth hk).mpr fun heq => by cases heq
    rw [standardValue_eq hnull, standardValue_eq hnull'] at hop
    injection hop with hop
    injection hop
  rw [agrees_iff he hs, known_between, hs, ofTruth_ne_null]
  refine exists_congr fun b => and_iff_left_of_imp fun hb => ?_
  obtain ⟨known, hknown, rfl⟩ := Option.map_eq_some_iff.mp hb
  have hanswer : (v.ge l && v.le h) = known := by
    cases known with
    | true =>
      obtain ⟨hl, hh⟩ := Truth.and_eq_true.mp hknown
      rw [hlow hl, hhigh hh]
      rfl
    | false =>
      rw [Bool.and_eq_false_iff]
      exact (Truth.and_eq_false.mp hknown).imp hlow hhigh
  rw [hanswer]

theorem Atom.agrees_iff (hc : Arithmetic.Consistent) (h : Atom ctx seen row c) :
    Agrees ctx seen row c ↔ Known ctx seen row c := by
  cases h with
  | truth h ht =>
    have hdenotes := denotes_operand h
    rcases ht with rfl | ⟨b, rfl⟩
    · refine iff_of_false ?_ fun hknown => hknown hdenotes.2
      rintro ⟨b, hb⟩
      have hnull := hdenotes.2.symm.trans hb.2
      cases hnull
    · refine iff_of_true ⟨b, hdenotes⟩ fun hnull => ?_
      have hboolean := hdenotes.2.symm.trans hnull
      cases hboolean
  | compare hl hr ht => exact agrees_compare hc (denotes_operand hl) (denotes_operand hr) ht
  | isNull h =>
    obtain ⟨b, hb⟩ := agrees_isNull _ (denotes_operand h)
    refine iff_of_true ⟨b, hb⟩ fun hnull => ?_
    have hboolean := hb.2.symm.trans hnull
    cases hboolean
  | like hv hw htv htw => exact agrees_like (denotes_operand hv) (denotes_operand hw)
  | inList hv ht =>
    obtain ⟨ws, hlist, hws⟩ := exists_values fun d hd => by
      obtain ⟨i, hi, rfl⟩ := mem_map.mp hd
      obtain ⟨w, hw, htype⟩ := ht i hi
      exact ⟨w, denotes_operand hw, htype⟩
    exact agrees_inList hc (denotes_operand hv) hlist hws
  | between hv hl hh htl hth =>
    exact agrees_between hc (denotes_operand hv) (denotes_operand hl) (denotes_operand hh) htl hth

theorem typeCorrect_boolean (op : Comparison) (a b : Bool) : TypeCorrect op (.boolean a) (.boolean b) :=
  ⟨rfl, fun _ _ h => by cases h⟩

theorem sqlCompare_boolean (op : Comparison) (a b : Bool) :
    ∃ k, sqlCompare op (.boolean a) (.boolean b) = some k := by
  cases op <;> exact ⟨_, rfl⟩

theorem not_equalIntervals_boolean (a : Bool) (w : Value) : ¬ EqualIntervals (.boolean a) w :=
  fun h => Bool.false_ne_true h.2

theorem Built.agrees (hc : Arithmetic.Consistent) {A : Condition → Prop}
    (hA : ∀ c, A c → Agrees ctx seen row c) (h : Built A c) : Agrees ctx seen row c := by
  induction h with
  | atom h => exact hA _ h
  | nested _ ih =>
    obtain ⟨b, hb⟩ := ih
    exact ⟨b, by rw [Denotes, evaluate, standard]; exact hb⟩
  | not _ ih =>
    obtain ⟨b, hb⟩ := ih
    refine ⟨!b, ?_, ?_⟩
    · rw [evaluate, hb.1]
      rfl
    · rw [standard, hb.2]
      rfl
  | and _ _ ihc ihd =>
    obtain ⟨a, ha⟩ := ihc
    obtain ⟨b, hb⟩ := ihd
    refine ⟨a && b, ?_, ?_⟩
    · rw [evaluate, ha.1, hb.1]
      rfl
    · rw [standard, ha.2, hb.2]
      cases a <;> cases b <;> rfl
  | or _ _ ihc ihd =>
    obtain ⟨a, ha⟩ := ihc
    obtain ⟨b, hb⟩ := ihd
    refine ⟨a || b, ?_, ?_⟩
    · rw [evaluate, ha.1, hb.1]
      rfl
    · rw [standard, ha.2, hb.2]
      cases a <;> cases b <;> rfl
  | compare op _ _ ihc ihd =>
    obtain ⟨a, ha⟩ := ihc
    obtain ⟨b, hb⟩ := ihd
    refine (agrees_compare hc ha hb (typeCorrect_boolean op a b)).mpr ⟨?_, fun _ => ?_⟩
    · rw [standard, ha.2, hb.2]
      exact ofTruth_ne_null.mpr (sqlCompare_boolean op a b)
    · rw [ha.2]
      exact not_equalIntervals_boolean a _
  | isNull negated _ ih =>
    obtain ⟨b, hb⟩ := ih
    exact agrees_isNull negated hb
  | inList negated _ _ ihc ihlist =>
    obtain ⟨a, ha⟩ := ihc
    obtain ⟨ws, hlist, hws⟩ := exists_values (Q := fun w => ∃ b, w = .boolean b) fun d hd => by
      obtain ⟨b, hb⟩ := ihlist d hd
      exact ⟨.boolean b, hb, b, rfl⟩
    refine (agrees_inList hc ha hlist fun w hw => ?_).mpr ⟨?_, fun w _ => ?_⟩
    · obtain ⟨b, rfl⟩ := hws w hw
      exact typeCorrect_boolean .eq a b
    · obtain ⟨k, hk⟩ := Truth.any_of_known
        ((ws.map ctx.standardValue).map (ctx.standardValue (.boolean a)).sqlEq) fun t ht => by
          rw [map_map] at ht
          obtain ⟨w, hw, rfl⟩ := mem_map.mp ht
          obtain ⟨b, rfl⟩ := hws w hw
          exact sqlCompare_boolean .eq a b
      rw [standard, ha.2, (findIn_eq hlist .null).2, hk]
      exact ofTruth_ne_null.mpr ⟨negate negated k, rfl⟩
    · rw [ha.2]
      exact not_equalIntervals_boolean a w
  | between negated _ _ _ ihc ihl ihh =>
    obtain ⟨a, ha⟩ := ihc
    obtain ⟨l, hl⟩ := ihl
    obtain ⟨h, hh⟩ := ihh
    refine (agrees_between hc ha hl hh (typeCorrect_boolean _ a l) (typeCorrect_boolean _ a h)).mpr ?_
    obtain ⟨low, hlow⟩ := sqlCompare_boolean .gtEq a l
    obtain ⟨high, hhigh⟩ := sqlCompare_boolean .ltEq a h
    rw [known_between, standard, ha.2, hl.2, hh.2]
    refine ofTruth_ne_null.mpr ⟨negate negated (low && high), ?_⟩
    change ((sqlCompare .gtEq (.boolean a) (.boolean l)).and
      (sqlCompare .ltEq (.boolean a) (.boolean h))).map (negate negated) = _
    rw [hlow, hhigh, Truth.and_some]
    rfl

theorem agrees_of_obeys (h : Obeys ctx seen row c) (hnot : Obeys ctx seen row (.not c)) :
    Agrees ctx seen row c := by
  obtain ⟨v, hv, htrue⟩ := h
  obtain ⟨u, hu, hnot⟩ := hnot
  rw [evaluate, hv, pure_bind] at hu
  rw [standard, ofTruth_eq_boolean] at hnot
  cases v with
  | boolean b =>
    refine ⟨b, hv, ?_⟩
    cases b with
    | true => exact htrue.mp rfl
    | false =>
      -- the negation is true in the code and so in the standard
      have hu : u = .boolean true := by
        injection hu with hu
        injection hu with hu
        exact hu.symm
      have hfalse := hnot.mp hu
      cases hs : standard ctx seen row c with
      | boolean k =>
        rw [hs] at hfalse
        cases k with
        | true => cases hfalse
        | false => rfl
      | _ =>
        rw [hs] at hfalse
        cases hfalse
  | _ => cases hu

/-- Over a row, all that is built from some comparisons obeys three-valued logic if and only if they are
known. -/
theorem obeys_iff_known (hc : Arithmetic.Consistent) {A : Condition → Prop}
    (hA : ∀ c, A c → Atom ctx seen row c) :
    (∀ c, Built A c → Obeys ctx seen row c) ↔ ∀ c, A c → Known ctx seen row c := by
  constructor
  · intro h c hmem
    have hbuilt : Built A c := .atom hmem
    exact ((hA c hmem).agrees_iff hc).mp (agrees_of_obeys (h c hbuilt) (h _ (.not hbuilt)))
  · intro h c hbuilt
    obtain ⟨b, hb⟩ := hbuilt.agrees hc fun d hd => ((hA d hd).agrees_iff hc).mpr (h d hd)
    exact ⟨.boolean b, hb.1, by rw [hb.2]; rfl⟩

end Condition

end

/-! ## NULL in a comparison -/

@[reducible] def unequalDecimals : Arithmetic := { plainArithmetic with decimalCmp := fun _ _ => .lt }

attribute [local instance] plainCrates unequalDecimals

theorem consistent_unequalDecimals : Arithmetic.Consistent := ⟨fun _ _ => rfl⟩

namespace Condition

/-- `a < 'm'` -/
def belowM : Condition := .compare (.operand (.column "a")) .lt (.operand (.literal (.text "m")))

theorem belowM_obeys : Obeys (columnsOf twoColumns) View.empty.seen [.string "b"] (.not belowM) := by
  have hbuilt : Built (· = belowM) (.not belowM) := .not (.atom rfl)
  refine (obeys_iff_known consistent_unequalDecimals fun c hc => ?_).mpr (fun c hc => ?_) _ hbuilt
  · rw [hc]
    exact .compare (v := .string "b") (w := .string "m") rfl rfl ⟨rfl, fun _ _ h => by cases h⟩
  · rw [hc]
    constructor
    · intro h
      cases h
    · intro h
      cases h

/-- NULL is below a text. -/
theorem null_belowM : Atom (columnsOf twoColumns) View.empty.seen [.null] belowM ∧
    ¬ Obeys (columnsOf twoColumns) View.empty.seen [.null] belowM := by
  refine ⟨.compare (v := .null) (w := .string "m") rfl rfl ⟨rfl, fun _ _ h => by cases h⟩, ?_⟩
  rintro ⟨v, hv, htrue⟩
  have htruth : v = .boolean true := by
    have heval : (pure (.boolean true) : Evaluation Value) = pure v := hv
    injection heval with heval
    injection heval with heval
    exact heval.symm
  have hstandard : (Value.null : Value) = .boolean true := htrue.mp htruth
  cases hstandard

end Condition

end H2Database.Sql
