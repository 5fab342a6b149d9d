import H2Database.Jms.Steps

/-!
# Delivery

A consumer that only receives gets messages of rising offsets.  It misses one that is committed after the
consumer has gone past its offset, and one that is purged before it gets there without being the oldest; and
an offset that was rolled back is taken for one that is out of range.
-/

namespace H2Database.Jms

open Reasoning List Function Nat

/-! ## What has been delivered -/

def startOf (c : Nat) (tr : List Event) : Nat :=
  (tr.findSome? fun
    | .created c' _ _ start => if c' = c then some start else none
    | _ => none).getD 0

def Event.delivery (c : Nat) : Event → Option Nat
  | .received c' _ _ (.ok (some m)) => if c' = c then some m.offset else none
  | _ => none

def delivered (c : Nat) (tr : List Event) : List Nat := tr.filterMap (Event.delivery c)

/-- The consumer receives rising offsets, and does not go past a message that commits without having
received it; it is told that its offset is out of range only where a message has been purged. -/
structure Delivers (c : Nat) (w : Watched) : Prop where
  increasing : (delivered c w.trace).Pairwise (· > ·)
  complete : ∀ consumer, w.broker.consumers c = some consumer → ∀ x ∈ published w.trace,
    startOf c w.trace ≤ x → x < consumer.currentOffset → x ∈ delivered c w.trace
  justified : ∀ later s current e earlier, w.trace = later ++ .received c s current (.error e) :: earlier →
    ∃ x ∈ purged earlier, current ≤ x

variable {c : Nat} {w : Watched}

/-- The event is about another consumer or about none, or the consumer has found no message. -/
def Event.Foreign (c : Nat) : Event → Prop
  | .created c' _ _ _ => c' ≠ c
  | .received c' _ _ answer => c' ≠ c ∨ answer = .ok none
  | _ => True

variable {e : Event} {b : Broker}

theorem Event.Foreign.delivery (h : e.Foreign c) : e.delivery c = none := by
  cases e with
  | received c' s current answer =>
    cases answer with
    | error e => rfl
    | ok m =>
      cases m with
      | none => rfl
      | some m => exact if_neg (h.resolve_right (by simp))
  | _ => rfl

theorem delivered_cons_none (h : e.delivery c = none) (tr : List Event) :
    delivered c (e :: tr) = delivered c tr := by
  rw [delivered, filterMap_cons_none h]
  rfl

theorem startOf_cons (h : ∀ s groupId start, e ≠ .created c s groupId start) (tr : List Event) :
    startOf c (e :: tr) = startOf c tr := by
  unfold startOf
  rw [findSome?_cons]
  cases e with
  | created c' s groupId start =>
    have hne : c' ≠ c := by
      rintro rfl
      exact h s groupId start rfl
    simp [hne]
  | _ => rfl

theorem Event.Foreign.ne_created (h : e.Foreign c) (s : Nat) (groupId : String) (start : Nat) :
    e ≠ .created c s groupId start := by
  rintro rfl
  exact h rfl

theorem delivers_noted (he : e.Foreign c) (hconsumer : b.consumers c = w.broker.consumers c) :
    Delivers c ⟨b, e :: w.trace⟩ ↔ Delivers c w ∧ ∀ consumer, w.broker.consumers c = some consumer →
      ∀ x ∈ e.published, startOf c w.trace ≤ x → x < consumer.currentOffset → x ∈ delivered c w.trace := by
  have hdelivered := delivered_cons_none he.delivery w.trace
  have hstart := startOf_cons he.ne_created w.trace
  have hsplit : ∀ (later : List Event) (s current : Nat) (e' : H2Error) (earlier : List Event),
      e :: w.trace = later ++ .received c s current (.error e') :: earlier →
        ∃ later', w.trace = later' ++ .received c s current (.error e') :: earlier := by
    intro later s current e' earlier heq
    cases later with
    | nil =>
      cases heq
      exact he.elim (absurd rfl) (by simp)
    | cons first later => exact ⟨later, (List.cons.inj heq).2⟩
  constructor
  · rintro ⟨hincreasing, hcomplete, hjustified⟩
    simp only [hdelivered, hstart, hconsumer, published_cons] at hincreasing hcomplete
    refine ⟨⟨hincreasing, fun k hk x hx => hcomplete k hk x (mem_append_right _ hx), ?_⟩,
      fun k hk x hx => hcomplete k hk x (mem_append_left _ hx)⟩
    intro later s current e' earlier heq
    exact hjustified (e :: later) s current e' earlier (by rw [heq, cons_append])
  · rintro ⟨⟨hincreasing, hcomplete, hjustified⟩, hpublished⟩
    refine ⟨?_, ?_, ?_⟩
    · rwa [hdelivered]
    · intro k hk x hx
      rw [hdelivered, hstart]
      rcases mem_append.mp hx with hx | hx
      · exact hpublished k (hconsumer.symm.trans hk) x hx
      · exact hcomplete k (hconsumer.symm.trans hk) x hx
    · intro later s current e' earlier heq
      obtain ⟨later', heq'⟩ := hsplit later s current e' earlier heq
      exact hjustified later' s current e' earlier heq'

theorem Delivers.noted (hold : Delivers c w) (he : e.Foreign c) (hpublished : e.published = [])
    (hconsumer : b.consumers c = w.broker.consumers c) :
    Delivers c ⟨b, e :: w.trace⟩ := by
  refine (delivers_noted he hconsumer).mpr ⟨hold, fun _ _ x hx => ?_⟩
  rw [hpublished] at hx
  cases hx

theorem delivers_same (hconsumer : b.consumers c = w.broker.consumers c) :
    Delivers c ⟨b, w.trace⟩ ↔ Delivers c w := by
  constructor
  · rintro ⟨hincreasing, hcomplete, hjustified⟩
    exact ⟨hincreasing, fun k hk => hcomplete k (hconsumer.trans hk), hjustified⟩
  · rintro ⟨hincreasing, hcomplete, hjustified⟩
    exact ⟨hincreasing, fun k hk => hcomplete k (hconsumer.symm.trans hk), hjustified⟩

structure Advances (c : Nat) (w : Watched) : Prop where
  sound : w.Sound
  unborn : w.broker.consumers c = none → delivered c w.trace = []
  behind : ∀ consumer, w.broker.consumers c = some consumer → ∀ x ∈ delivered c w.trace,
    x < consumer.currentOffset
  started : ∀ consumer, w.broker.consumers c = some consumer →
    startOf c w.trace ≤ consumer.currentOffset
  increasing : (delivered c w.trace).Pairwise (· > ·)

theorem Advances.new : Advances c .new where
  sound := Sound.new
  unborn _ := rfl
  behind consumer hconsumer := by cases hconsumer
  started consumer hconsumer := by cases hconsumer
  increasing := List.Pairwise.nil

theorem Advances.same (h : Advances c w) (hsound : Watched.Sound ⟨b, w.trace⟩)
    (hconsumer : b.consumers c = w.broker.consumers c) : Advances c ⟨b, w.trace⟩ where
  sound := hsound
  unborn hnone := h.unborn (hconsumer.symm.trans hnone)
  behind consumer hk := h.behind consumer (hconsumer.symm.trans hk)
  started consumer hk := h.started consumer (hconsumer.symm.trans hk)
  increasing := h.increasing

theorem Advances.noted (h : Advances c w) (hsound : Watched.Sound ⟨b, e :: w.trace⟩)
    (hconsumer : b.consumers c = w.broker.consumers c) (hdelivery : e.delivery c = none)
    (hcreated : ∀ s groupId start, e ≠ .created c s groupId start) :
    Advances c ⟨b, e :: w.trace⟩ := by
  have hdelivered := delivered_cons_none hdelivery w.trace
  have hstart := startOf_cons hcreated w.trace
  constructor
  · exact hsound
  · intro hnone
    rw [hdelivered]
    exact h.unborn (hconsumer.symm.trans hnone)
  · intro consumer hk
    rw [hdelivered]
    exact h.behind consumer (hconsumer.symm.trans hk)
  · intro consumer hk
    rw [hstart]
    exact h.started consumer (hconsumer.symm.trans hk)
  · rw [hdelivered]
    exact h.increasing

variable {consumer : Consumer}

theorem Advances.message (h : Advances c w) {m : Message} (hsound : Watched.Sound
      ⟨b, .received c consumer.session consumer.currentOffset (.ok (some m)) :: w.trace⟩)
    (hconsumer : w.broker.consumers c = some consumer) (hm : consumer.currentOffset ≤ m.offset)
    (hb : b.consumers =
      Function.update w.broker.consumers c (some { consumer with currentOffset := m.offset + 1 })) :
    Advances c ⟨b, .received c consumer.session consumer.currentOffset (.ok (some m)) :: w.trace⟩ := by
  have hdelivered : delivered c
    (.received c consumer.session consumer.currentOffset (.ok (some m)) :: w.trace) =
      m.offset :: delivered c w.trace := by
    simp [delivered, Event.delivery]
  have hnow : b.consumers c = some { consumer with currentOffset := m.offset + 1 } := by
    rw [hb, update_self]
  have hbefore : ∀ x ∈ delivered c w.trace, x < m.offset :=
    fun x hx => lt_of_lt_of_le (h.behind consumer hconsumer x hx) hm
  constructor
  · exact hsound
  · intro hnone
    cases hnow.symm.trans hnone
  · intro consumer' hk x hx
    cases hnow.symm.trans hk
    rw [hdelivered] at hx
    rcases mem_cons.mp hx with rfl | hx
    · exact lt_succ_self _
    · exact lt_succ_of_lt (hbefore x hx)
  · intro consumer' hk
    cases hnow.symm.trans hk
    exact le_trans (h.started consumer hconsumer) (le_succ_of_le hm)
  · rw [hdelivered, pairwise_cons]
    exact ⟨hbefore, h.increasing⟩

theorem Delivers.new : Delivers c .new where
  increasing := List.Pairwise.nil
  complete consumer hconsumer := by cases hconsumer
  justified later s current e earlier heq := by
    cases later <;> cases heq

theorem delivers_created {s start : Nat} {groupId : String} (hold : Delivers c w) :
    Delivers c ⟨b.setConsumer c ⟨s, groupId, start⟩, .created c s groupId start :: w.trace⟩ := by
  have hdelivered : delivered c (.created c s groupId start :: w.trace) = delivered c w.trace := rfl
  refine ⟨?_, ?_, ?_⟩
  · rw [hdelivered]
    exact hold.increasing
  · intro consumer hconsumer x _ hstart hx
    simp only [Broker.setConsumer, update_self, Option.some.injEq] at hconsumer
    subst hconsumer
    simp only [startOf, findSome?_cons, if_true, Option.getD_some] at hstart
    exact absurd hx (not_lt.mpr hstart)
  · intro later s' current e earlier heq
    cases later with
    | nil => cases (List.cons.inj heq).1
    | cons first later => exact hold.justified later s' current e earlier (List.cons.inj heq).2

theorem delivers_message (h : Advances c w) (hold : Delivers c w)
    (hconsumer : w.broker.consumers c = some consumer) {m : Message} (hm : consumer.currentOffset ≤ m.offset)
    (hb : b.consumers =
      Function.update w.broker.consumers c (some { consumer with currentOffset := m.offset + 1 })) :
    Delivers c ⟨b, .received c consumer.session consumer.currentOffset (.ok (some m)) :: w.trace⟩ ↔
      ∀ x ∈ published w.trace, consumer.currentOffset ≤ x → m.offset ≤ x := by
  have hdelivered : delivered c
    (.received c consumer.session consumer.currentOffset (.ok (some m)) :: w.trace) =
      m.offset :: delivered c w.trace := by
    simp [delivered, Event.delivery]
  have hstart : startOf c (.received c consumer.session consumer.currentOffset (.ok (some m)) :: w.trace) =
      startOf c w.trace := rfl
  have hnow : b.consumers c = some { consumer with currentOffset := m.offset + 1 } := by
    rw [hb, update_self]
  constructor
  · intro hdelivers x hx hle
    by_contra hlt
    have hmem := hdelivers.complete _ hnow x hx (by
      rw [hstart]
      exact le_trans (h.started consumer hconsumer) hle) (by
      simp only
      omega)
    rw [hdelivered] at hmem
    rcases mem_cons.mp hmem with rfl | hmem
    · exact hlt (le_refl _)
    · exact absurd (h.behind consumer hconsumer x hmem) (not_lt.mpr hle)
  · intro hfirst
    refine ⟨?_, ?_, ?_⟩
    · rw [hdelivered, pairwise_cons]
      exact ⟨fun x hx => lt_of_lt_of_le (h.behind consumer hconsumer x hx) hm, hold.increasing⟩
    · intro consumer' hconsumer' x hx hle hlt
      cases hnow.symm.trans hconsumer'
      rw [hdelivered]
      by_cases hbehind : x < consumer.currentOffset
      · exact mem_cons_of_mem _ (hold.complete consumer hconsumer x hx hle hbehind)
      · have hge := hfirst x hx (not_lt.mp hbehind)
        have heq : x = m.offset := by
          simp only at hlt
          omega
        exact heq ▸ mem_cons_self
    · intro later s current e earlier heq
      cases later with
      | nil => cases (List.cons.inj heq).1
      | cons first later => exact hold.justified later s current e earlier (List.cons.inj heq).2

theorem delivers_refused (h : Advances c w) (hold : Delivers c w)
    (hb : b.consumers = w.broker.consumers) (e : H2Error) :
    Delivers c ⟨b, .received c consumer.session consumer.currentOffset (.error e) :: w.trace⟩ ↔
      ∃ x ∈ published w.trace, consumer.currentOffset ≤ x ∧ x ∉ w.broker.contents.offsets := by
  have hpurged : ∀ x, x ∈ purged w.trace ↔ x ∈ published w.trace ∧ x ∉ w.broker.contents.offsets :=
    fun x => ⟨h.sound.purged x, fun hx => (h.sound.gone x hx.1).resolve_left hx.2⟩
  constructor
  · intro hdelivers
    obtain ⟨x, hx, hle⟩ := hdelivers.justified [] _ _ e _ rfl
    exact ⟨x, ((hpurged x).mp hx).1, hle, ((hpurged x).mp hx).2⟩
  · rintro ⟨x, hx, hle, hgone⟩
    refine ⟨hold.increasing, ?_, ?_⟩
    · intro consumer' hconsumer' x hx
      simp only [hb] at hconsumer'
      exact hold.complete consumer' hconsumer' x hx
    · intro later s current e' earlier heq
      cases later with
      | nil =>
        cases heq
        exact ⟨x, (hpurged x).mpr ⟨hx, hgone⟩, hle⟩
      | cons first later => exact hold.justified later s current e' earlier (List.cons.inj heq).2

/-! ## Nothing is skipped -/

section

variable [Setup]

/-- The consumer stands before the oldest message that it sees, and a message at its offset or after it has
been published and is gone; or else the next one that it sees is the first of those that have been
published. -/
def FindsNext (w : Watched) (consumer : Consumer) : Prop :=
  (BeforeOldest (w.broker.seen consumer) consumer.currentOffset →
    ∃ x ∈ published w.trace, consumer.currentOffset ≤ x ∧ x ∉ w.broker.contents.offsets) ∧
  (¬ BeforeOldest (w.broker.seen consumer) consumer.currentOffset →
    ∀ m, nextMessage (w.broker.seen consumer) consumer.currentOffset = some m →
      ∀ x ∈ published w.trace, consumer.currentOffset ≤ x → m.offset ≤ x)

/-- A commit publishes nothing that the consumer has gone past, and the consumer skips nothing that has been
published. -/
def NoOvertaking (c : Nat) (w : Watched) : Action → Prop
  | .commit o => ∀ t, w.broker.transactions o = some t → ∀ consumer, w.broker.consumers c = some consumer →
      ∀ x ∈ (t.edits.foldl Contents.edit w.broker.contents).offsets, x ∉ w.broker.contents.offsets →
        startOf c w.trace ≤ x → x < consumer.currentOffset → x ∈ delivered c w.trace
  | .receive c' => c' = c → ∀ consumer, w.broker.consumers c = some consumer → FindsNext w consumer
  | _ => True

variable {c : Nat} {w : Watched}

theorem delivers_effect (h : Advances c w) (hold : Delivers c w) {a : Action} {w' : Watched}
    (heffect : Effect w a w') : Delivers c w' ↔ NoOvertaking c w a := by
  cases heffect with
  | quiet hconsumers hinFlight hcommit hreceive =>
    refine iff_of_true ((delivers_same (congrFun hconsumers c)).mpr hold) ?_
    cases a with
    | commit o =>
      intro t ht
      rw [hcommit o rfl] at ht
      cases ht
    | receive c' =>
      rintro rfl consumer hconsumer
      rw [hreceive c' rfl] at hconsumer
      cases hconsumer
    | _ => trivial
  | committed ht hcontents =>
    subst hcontents
    refine Iff.trans (delivers_noted ?_ ?_) ?_
    · exact trivial
    · rfl
    constructor
    · rintro ⟨_, hpublished⟩ t' ht' consumer hconsumer x hx hnot
      cases ht.symm.trans ht'
      exact hpublished consumer hconsumer x (mem_filter.mpr ⟨hx, decide_eq_true hnot⟩)
    · refine fun hcommit => ⟨hold, fun consumer hconsumer x hx => ?_⟩
      obtain ⟨hx, hnot⟩ := mem_filter.mp hx
      exact hcommit _ ht consumer hconsumer x hx (of_decide_eq_true hnot)
  | rolledBack ht =>
    refine iff_of_true (hold.noted ?_ rfl rfl) trivial
    exact trivial
  | @created c' s groupId hnone =>
    refine iff_of_true ?_ trivial
    by_cases hc : c' = c
    · subst hc
      exact delivers_created hold
    · refine hold.noted ?_ rfl (update_of_ne (Ne.symm hc) ..)
      exact hc
  | @refused c' consumer b e hconsumer hbefore hconsumers _ =>
    by_cases hc : c' = c
    · subst hc
      refine (delivers_refused h hold hconsumers e).trans ⟨fun hgone _ consumer' hconsumer' => ?_, fun hno =>
        (hno rfl consumer hconsumer).1 hbefore⟩
      cases hconsumer.symm.trans hconsumer'
      exact ⟨fun _ => hgone, fun hn => absurd hbefore hn⟩
    · refine iff_of_true (hold.noted ?_ rfl (congrFun hconsumers c)) fun heq => absurd heq hc
      exact .inl hc
  | @empty c' consumer b hconsumer hnot hnext hconsumers _ =>
    refine iff_of_true (hold.noted ?_ rfl (congrFun hconsumers c)) ?_
    · exact .inr rfl
    rintro rfl consumer' hconsumer'
    cases hconsumer.symm.trans hconsumer'
    refine ⟨fun hb => absurd hb hnot, fun _ m hm => ?_⟩
    rw [hnext] at hm
    cases hm
  | @message c' consumer b m hconsumer hnot hnext hconsumers _ =>
    by_cases hc : c' = c
    · subst hc
      refine (delivers_message h hold hconsumer (nextMessage_spec hnext).2 hconsumers).trans
        ⟨fun hfirst _ consumer' hconsumer' => ?_, fun hno => (hno rfl consumer hconsumer).2 hnot m hnext⟩
      cases hconsumer.symm.trans hconsumer'
      refine ⟨fun hb => absurd hb hnot, fun _ m' hm' => ?_⟩
      cases hnext.symm.trans hm'
      exact hfirst
    · refine iff_of_true (hold.noted ?_ rfl ?_) fun heq => absurd heq hc
      · exact .inl hc
      · rw [hconsumers, update_of_ne (Ne.symm hc)]

theorem Advances.effect (h : Advances c w) {a : Action} {w' : Watched} (hsound : w'.Sound)
    (heffect : Effect w a w') : Advances c w' := by
  cases heffect with
  | quiet hconsumers => exact h.same hsound (congrFun hconsumers c)
  | committed ht => exact h.noted hsound rfl rfl (by simp)
  | rolledBack ht => exact h.noted hsound rfl rfl (by simp)
  | @created c' s groupId hnone =>
    by_cases hc : c' = c
    · subst hc
      have hdelivered : delivered c' (.created c' s groupId (w.broker.startOffset groupId) :: w.trace) = [] :=
        h.unborn hnone
      refine ⟨hsound, fun _ => hdelivered, ?_, ?_, ?_⟩
      · intro consumer _ x hx
        rw [hdelivered] at hx
        cases hx
      · intro consumer hk
        simp only [Broker.setConsumer, update_self, Option.some.injEq] at hk
        subst hk
        simp [startOf]
      · rw [hdelivered]
        exact List.Pairwise.nil
    · exact h.noted hsound (update_of_ne (Ne.symm hc) ..) rfl (by simp [hc])
  | refused _ _ hconsumers => exact h.noted hsound (congrFun hconsumers c) rfl (by simp)
  | empty _ _ _ hconsumers => exact h.noted hsound (congrFun hconsumers c) rfl (by simp)
  | @message c' consumer b m hconsumer _ hnext hconsumers =>
    by_cases hc : c' = c
    · subst hc
      exact h.message hsound hconsumer (nextMessage_spec hnext).2 hconsumers
    · refine h.noted hsound ?_ (if_neg hc) (by simp)
      rw [hconsumers, update_of_ne (Ne.symm hc)]

theorem Advances.step (h : Advances c w) (a : Action) : Advances c (w.step a) :=
  h.effect (Watched.sound_step h.sound a) (w.effect a)

/-- The queue holds what has been published and not purged; an offset in flight is in one transaction, and
is neither published nor discarded; nothing is published that was discarded, and no consumer is given an
offset that is not above those it has been given. -/
structure Accounted (w : Watched) : Prop where
  queue : ∀ x, x ∈ w.broker.contents.offsets ↔ x ∈ published w.trace ∧ x ∉ purged w.trace
  inFlight : ∀ o o' x, x ∈ w.broker.inFlight o → (x ∈ w.broker.inFlight o' → o = o') ∧
    x ∉ published w.trace ∧ x ∉ discarded w.trace
  discarded : ∀ x ∈ discarded w.trace, x ∉ published w.trace
  rising : ∀ c, (delivered c w.trace).Pairwise (· > ·)

theorem accounted_runs (as : List Action) : Accounted (runs Watched.step .new as) := by
  have hadvances : ∀ c, Advances c (runs Watched.step .new as) :=
    fun c => runs_invariant (fun _ a h => h.step a) .new as
  have hs := (hadvances 0).sound
  refine ⟨fun x => ⟨fun hx => ⟨hs.contents x hx, fun hp => (hs.purged x hp).2 hx⟩, fun hx => ?_⟩,
    fun o o' x hx => ⟨fun hx' => ?_, hs.fresh o x hx⟩, hs.unpublished, fun c => (hadvances c).increasing⟩
  · exact (hs.gone x hx.1).resolve_right hx.2
  · by_contra hne
    exact hs.alone o o' (Ne.symm hne) x hx hx'

theorem delivers_step (h : Advances c w) (hold : Delivers c w) (a : Action) :
    Delivers c (w.step a) ↔ NoOvertaking c w a :=
  delivers_effect h hold (w.effect a)

/-- A queue delivers every message, in every state of a run, if and only if no step overtakes one. -/
theorem delivers_iff_noOvertaking (c : Nat) (as : List Action) :
    (∀ before, before <+: as → Delivers c (runs Watched.step .new before)) ↔
      Meets Watched.step (NoOvertaking c) .new as := by
  have hstep : ∀ w a, Advances c w ∧ Delivers c w → NoOvertaking c w a →
      Advances c (w.step a) ∧ Delivers c (w.step a) :=
    fun w a hinv hgood => ⟨hinv.1.step a, (delivers_step hinv.1 hinv.2 a).mpr hgood⟩
  exact forall_prefix_iff_meets hstep (fun w hinv => hinv.2)
    (fun w a hinv hdelivers => (delivers_step hinv.1 hinv.2 a).mp hdelivers) ⟨.new, .new⟩ as

end

/-- A queue with sessions of both kinds: those of even number are not transacted. -/
@[reducible] def plainSetup : Setup := ⟨"q", fun s => s % 2 = 1, fun _ => true⟩

attribute [local instance] plainSetup

/-- The second message of the queue is committed after the third, which the consumer has received by then. -/
def overtaken : List Action :=
  [.createConsumer 0 0 "g", .begin 0, .insert 0 "a", .commit (.producer 0), .receive 0,
    .begin 0, .insert 0 "b", .begin 1, .insert 1 "c", .commit (.producer 1), .receive 0,
      .commit (.producer 0),
    .receive 0]

/-- The first producer has rolled back: the consumer is told that its offset is out of range, and nothing has
been purged. -/
def refused : List Action :=
  [.createConsumer 0 0 "g", .begin 0, .insert 0 "a", .rollback (.producer 0), .begin 0, .insert 0 "b",
    .commit (.producer 0), .receive 0]

theorem overtaken_not_delivered : ¬ Delivers 0 (runs Watched.step .new overtaken) ∧
    ¬ Delivers 0 (runs Watched.step .new refused) := by
  constructor
  · intro h
    have hmissed : 2 ∉ delivered 0 (runs Watched.step .new overtaken).trace := by decide
    exact hmissed (h.complete ⟨0, "g", 4⟩ rfl 2 (by decide) (by decide) (by decide))
  · intro h
    obtain ⟨x, hx, _⟩ := h.justified [] 0 1 _ _ rfl
    have hnone : purged (runs Watched.step .new refused).trace.tail = [] := by decide
    have hmem : x ∈ purged (runs Watched.step .new refused).trace.tail := hx
    rw [hnone] at hmem
    cases hmem

end H2Database.Jms
