import H2Database.Jms.Delivery

/-!
# Transacted sessions

What a session has received belongs to its transaction as what it has sent does.  But the offset of a
consumer goes on with each message and is not taken back by a rollback, and a commit does not save it for
the group.
-/

namespace H2Database.Jms

open Reasoning List Function Nat Option

/-! ## What a transaction has received -/

def Event.ends (o : Owner) : Event → Bool
  | .committed o' _ _ => o' = o
  | .rolledBack o' _ => o' = o
  | _ => false

/-- What the consumer has received since a transaction of the session last ended, newest first. -/
def pending (c s : Nat) : List Event → List Nat
  | [] => []
  | e :: tr => if e.ends (.session s) then [] else (e.delivery c).toList ++ pending c s tr

def acknowledged (c s : Nat) : List Event → List Nat
  | [] => []
  | .committed o _ _ :: tr => (if o = .session s then pending c s tr else []) ++ acknowledged c s tr
  | _ :: tr => acknowledged c s tr

/-- What was received before a rollback is received again, with the next message.  What was received before a
commit is not received by a consumer of the group that is created later.  What was sent before a rollback is
not received. -/
structure AllOrNothing (w : Watched) : Prop where
  redelivered : ∀ c consumer, w.broker.consumers c = some consumer →
    ∀ later current answer middle sent earlier, w.trace = later ++
      .received c consumer.session current answer :: (middle ++
        .rolledBack (.session consumer.session) sent :: earlier) →
    (∀ s current answer, .received c s current answer ∉ middle) →
      ∀ x, (pending c consumer.session earlier).getLast? = some x → ∃ m, answer = .ok (some m) ∧ m.offset = x
  acknowledged : ∀ c consumer, w.broker.consumers c = some consumer →
    ∀ later c' s' start earlier, w.trace = later ++ .created c' s' consumer.groupId start :: earlier →
      ∀ x ∈ acknowledged c consumer.session earlier, x ∉ delivered c' later
  discarded : ∀ x ∈ discarded w.trace, ∀ c, x ∉ delivered c w.trace

theorem pending_subset (c s : Nat) (tr : List Event) : pending c s tr ⊆ delivered c tr := by
  induction tr with
  | nil => exact List.Subset.refl _
  | cons e tr ih =>
    rw [pending]
    split_ifs
    · exact nil_subset _
    · intro x hx
      rw [delivered, filterMap_cons]
      rcases mem_append.mp hx with hx | hx
      · rw [mem_toList] at hx
        simp only [hx]
        exact mem_cons_self
      · cases e.delivery c with
        | none => exact ih hx
        | some y => exact mem_cons_of_mem _ (ih hx)

theorem pending_cons_subset {c s : Nat} {e : Event} (h : e.ends (.session s) = false) (tr : List Event) :
    pending c s tr ⊆ pending c s (e :: tr) := by
  rw [pending, h, if_neg Bool.false_ne_true]
  exact subset_append_right _ _

theorem acknowledged_subset (c s : Nat) (tr : List Event) : acknowledged c s tr ⊆ delivered c tr := by
  induction tr with
  | nil => exact List.Subset.refl _
  | cons e tr ih =>
    have htail : delivered c tr ⊆ delivered c (e :: tr) := by
      rw [delivered, delivered, filterMap_cons]
      cases e.delivery c with
      | none => exact List.Subset.refl _
      | some y => exact subset_cons_self _ _
    cases e with
    | committed o published purged =>
      intro x hx
      rcases mem_append.mp hx with hx | hx
      · split_ifs at hx
        · exact htail (pending_subset c s tr hx)
        · cases hx
      · exact htail (ih hx)
    | _ => exact fun x hx => htail (ih hx)

theorem Advances.unborn_suffix {c : Nat} {w : Watched} (h : Advances c w)
    (hnone : w.broker.consumers c = none)
    {later earlier : List Event} (htrace : w.trace = later ++ earlier) : delivered c earlier = [] := by
  have hall := h.unborn hnone
  rw [htrace, delivered, filterMap_append, append_eq_nil_iff] at hall
  exact hall.2

theorem inFlight_close_cases {b : Broker} {o o' : Owner} {x : Nat} (hx : x ∈ (b.close o).inFlight o') :
    o ≠ o' ∧ x ∈ b.inFlight o' := by
  rw [Broker.inFlight_close] at hx
  by_cases ho : o' = o
  · subst ho
    rw [update_self] at hx
    cases hx
  · rw [update_of_ne ho] at hx
    exact ⟨Ne.symm ho, hx⟩

theorem Event.delivery_eq_some {c x : Nat} {e : Event} (h : e.delivery c = some x) :
    ∃ s current m, e = .received c s current (.ok (some m)) ∧ m.offset = x := by
  unfold Event.delivery at h
  split at h
  · rename_i c' s current m
    split_ifs at h with hc
    cases h
    exact ⟨s, current, m, by rw [hc], rfl⟩
  · cases h

/-- A message that has been received is not discarded, and if it is in flight then in the transaction of the
consumer's session. -/
structure Entitled (c : Nat) (w : Watched) : Prop where
  below : ∀ x ∈ delivered c w.trace, x < w.broker.nextRowId
  alive : ∀ x ∈ delivered c w.trace, x ∉ discarded w.trace
  own : ∀ x ∈ delivered c w.trace, ∀ o, x ∈ w.broker.inFlight o → ∃ consumer,
    w.broker.consumers c = some consumer ∧ o = .session consumer.session ∧
      x ∈ pending c consumer.session w.trace

/-- A consumer receives nothing from before its start; what its group had committed lies before that.  And
nothing was received in a transaction that was rolled back. -/
structure Remembers (w : Watched) : Prop where
  advances : ∀ c, Advances c w
  entitled : ∀ c, Entitled c w
  born : ∀ later c s groupId start earlier, w.trace = later ++ .created c s groupId start :: earlier →
    (∃ consumer, w.broker.consumers c = some consumer ∧ start ≤ consumer.currentOffset) ∧
      ∀ x ∈ delivered c later, start ≤ x
  passed : ∀ later c' s groupId start earlier, w.trace = later ++ .created c' s groupId start :: earlier →
    ∀ c consumer, w.broker.consumers c = some consumer → consumer.groupId = groupId →
      ∀ x ∈ acknowledged c consumer.session earlier, x < start
  untouched : ∀ later s sent earlier, w.trace = later ++ .rolledBack (.session s) sent :: earlier →
    ∀ c consumer, w.broker.consumers c = some consumer → consumer.session = s → pending c s earlier = []

theorem Remembers.new : Remembers .new where
  advances c := .new
  entitled c :=
    { below := fun x hx => by cases hx
      alive := fun x hx => by cases hx
      own := fun x hx => by cases hx }
  born later c s groupId start earlier hsplit := by cases later <;> cases hsplit
  passed later c s groupId start earlier hsplit := by cases later <;> cases hsplit
  untouched later s sent earlier hsplit := by cases later <;> cases hsplit

theorem Remembers.allOrNothing {w : Watched} (h : Remembers w) : AllOrNothing w where
  redelivered c consumer hconsumer later current answer middle sent earlier htrace _ x hx := by
    have hsplit : w.trace = (later ++ .received c consumer.session current answer :: middle) ++
        .rolledBack (.session consumer.session) sent :: earlier := by
      rw [htrace]
      simp
    rw [h.untouched _ _ _ _ hsplit c consumer hconsumer rfl] at hx
    cases hx
  acknowledged c consumer hconsumer later c' s' start earlier htrace x hx hdelivered := by
    have hbefore := h.passed later c' s' consumer.groupId start earlier htrace c consumer hconsumer rfl x hx
    have hstart := (h.born later c' s' consumer.groupId start earlier htrace).2 x hdelivered
    omega
  discarded x hx c hdelivered := (h.entitled c).alive x hdelivered hx

section

variable [Setup]

/-- A session is rolled back only if its consumers have received nothing since its transaction began, and a
consumer is created only where its group's saved offset, or else the oldest message, lies behind all that the
sessions of the group have received and committed. -/
def KeepsOffsets (w : Watched) : Action → Prop
  | .rollback (.session s) => w.broker.transactions (.session s) ≠ none →
      ∀ c consumer, w.broker.consumers c = some consumer → consumer.session = s → pending c s w.trace = []
  | .createConsumer c' _ groupId => w.broker.consumers c' = none →
      ∀ c consumer, w.broker.consumers c = some consumer → consumer.groupId = groupId →
        ∀ x ∈ acknowledged c consumer.session w.trace, x < w.broker.startOffset groupId
  | _ => True

def Causes (w : Watched) (a : Action) : Event → Prop
  | .committed o _ _ => a = .commit o
  | .rolledBack o sent => a = .rollback o ∧ ∃ t, w.broker.transactions o = some t ∧ sent = t.inserted
  | .created c s groupId start => a = .createConsumer c s groupId ∧ w.broker.consumers c = none ∧
      start = w.broker.startOffset groupId
  | .received c s current answer => ∃ consumer, w.broker.consumers c = some consumer ∧
      s = consumer.session ∧ current = consumer.currentOffset ∧ ∀ m, answer = .ok (some m) →
        nextMessage (w.broker.seen consumer) current = some m

namespace Effect

variable {w w' : Watched} {a : Action}

section

variable (h : Effect w a w')

include h

theorem noted : w'.trace = w.trace ∨ ∃ e, w'.trace = e :: w.trace ∧ Causes w a e := by
  cases h with
  | quiet => exact .inl rfl
  | committed ht => exact .inr ⟨_, rfl, rfl⟩
  | rolledBack ht => exact .inr ⟨_, rfl, rfl, _, ht, rfl⟩
  | created hnone => exact .inr ⟨_, rfl, rfl, hnone, rfl⟩
  | refused hconsumer => exact .inr ⟨_, rfl, _, hconsumer, rfl, rfl, fun m hm => by cases hm⟩
  | empty hconsumer => exact .inr ⟨_, rfl, _, hconsumer, rfl, rfl, fun m hm => by cases hm⟩
  | message hconsumer _ hnext =>
    refine .inr ⟨_, rfl, _, hconsumer, rfl, rfl, fun m hm => ?_⟩
    cases hm
    exact hnext

theorem split {later earlier : List Event} {f : Event} (hsplit : w'.trace = later ++ f :: earlier) :
    (∃ before, w.trace = before ++ f :: earlier ∧
        (later = before ∨ ∃ e, later = e :: before ∧ Causes w a e)) ∨
      later = [] ∧ earlier = w.trace ∧ Causes w a f := by
  rcases h.noted with htrace | ⟨e, htrace, hcauses⟩
  · exact .inl ⟨later, htrace.symm.trans hsplit, Or.inl rfl⟩
  · rw [htrace] at hsplit
    cases later with
    | nil =>
      obtain ⟨rfl, rfl⟩ := List.cons.inj hsplit
      exact .inr ⟨rfl, rfl, hcauses⟩
    | cons first later =>
      obtain ⟨hfirst, htail⟩ := List.cons.inj hsplit
      exact .inl ⟨later, htail, Or.inr ⟨e, by rw [hfirst], hcauses⟩⟩

theorem persists {c : Nat} {consumer : Consumer}
    (hconsumer : w.broker.consumers c = some consumer) : ∃ consumer', w'.broker.consumers c = some consumer' ∧
      consumer'.session = consumer.session ∧ consumer'.groupId = consumer.groupId ∧
        consumer.currentOffset ≤ consumer'.currentOffset := by
  have hsame : ∀ b : Broker, b.consumers = w.broker.consumers → ∃ consumer', b.consumers c = some consumer' ∧
      consumer'.session = consumer.session ∧ consumer'.groupId = consumer.groupId ∧
        consumer.currentOffset ≤ consumer'.currentOffset := by
    intro b hb
    rw [hb]
    exact ⟨consumer, hconsumer, rfl, rfl, le_refl _⟩
  cases h with
  | quiet hconsumers => exact hsame _ hconsumers
  | committed ht => exact hsame _ rfl
  | rolledBack ht => exact hsame _ rfl
  | @created c' s groupId hnone =>
    have hc : c ≠ c' := by
      rintro rfl
      rw [hnone] at hconsumer
      cases hconsumer
    exact ⟨consumer, (update_of_ne hc ..).trans hconsumer, rfl, rfl, le_refl _⟩
  | refused _ _ hconsumers => exact hsame _ hconsumers
  | empty _ _ _ hconsumers => exact hsame _ hconsumers
  | @message c' consumer' b m hconsumer' _ hnext hconsumers =>
    simp only [hconsumers]
    by_cases hc : c = c'
    · subst hc
      cases hconsumer.symm.trans hconsumer'
      exact ⟨_, update_self .., rfl, rfl, le_succ_of_le (nextMessage_spec hnext).2⟩
    · exact ⟨consumer, (update_of_ne hc ..).trans hconsumer, rfl, rfl, le_refl _⟩

theorem came {c : Nat} {consumer : Consumer}
    (hconsumer : w'.broker.consumers c = some consumer) : w.broker.consumers c = none ∨
      ∃ old, w.broker.consumers c = some old ∧ old.session = consumer.session ∧
        old.groupId = consumer.groupId := by
  cases hold : w.broker.consumers c with
  | none => exact .inl rfl
  | some old =>
    obtain ⟨consumer', hconsumer', hs, hg, _⟩ := h.persists hold
    cases hconsumer.symm.trans hconsumer'
    exact .inr ⟨old, rfl, hs.symm, hg.symm⟩

theorem delivered_cases {c x : Nat} (hx : x ∈ delivered c w'.trace) :
    x ∈ delivered c w.trace ∨ ∃ consumer m, w.broker.consumers c = some consumer ∧
      nextMessage (w.broker.seen consumer) consumer.currentOffset = some m ∧ x = m.offset ∧
        w'.trace = .received c consumer.session consumer.currentOffset (.ok (some m)) :: w.trace ∧
          w'.broker.inFlight = w.broker.inFlight := by
  cases h with
  | @message c' consumer b m hconsumer _ hnext _ hinFlight =>
    by_cases hc : c' = c
    · subst hc
      have hdelivered : Event.delivery c' (.received c' consumer.session consumer.currentOffset
          (.ok (some m))) = some m.offset := if_pos rfl
      rw [delivered, filterMap_cons_some hdelivered] at hx
      rcases mem_cons.mp hx with rfl | hx
      · exact .inr ⟨consumer, m, hconsumer, hnext, rfl, rfl, hinFlight⟩
      · exact .inl hx
    · have hdelivered : Event.delivery c (.received c' consumer.session consumer.currentOffset
          (.ok (some m))) = none := if_neg hc
      rw [delivered_cons_none hdelivered] at hx
      exact .inl hx
  | _ => exact .inl hx

theorem still {o : Owner} {x : Nat} (hx : x ∈ w'.broker.inFlight o) :
    x = w.broker.nextRowId ∨ x ∈ w.broker.inFlight o ∧
      (w'.trace = w.trace ∨ ∃ e, w'.trace = e :: w.trace ∧ e.ends o = false) := by
  cases h with
  | quiet _ hinFlight => exact (hinFlight o x hx).symm.imp id fun hx => ⟨hx, Or.inl rfl⟩
  | committed ht =>
    obtain ⟨ho, hx⟩ := inFlight_close_cases hx
    exact .inr ⟨hx, Or.inr ⟨_, rfl, decide_eq_false ho⟩⟩
  | rolledBack ht =>
    obtain ⟨ho, hx⟩ := inFlight_close_cases hx
    exact .inr ⟨hx, Or.inr ⟨_, rfl, decide_eq_false ho⟩⟩
  | created hnone => exact .inr ⟨hx, Or.inr ⟨_, rfl, rfl⟩⟩
  | refused _ _ _ hinFlight => exact .inr ⟨hinFlight ▸ hx, Or.inr ⟨_, rfl, rfl⟩⟩
  | empty _ _ _ _ hinFlight => exact .inr ⟨hinFlight ▸ hx, Or.inr ⟨_, rfl, rfl⟩⟩
  | message _ _ _ _ hinFlight => exact .inr ⟨hinFlight ▸ hx, Or.inr ⟨_, rfl, rfl⟩⟩

end

end Effect

/-! ## The invariant is kept -/

variable {w w' : Watched} {a : Action}

variable {later earlier : List Event} {consumer : Consumer}

theorem Remembers.passed_effect (h : Remembers w) (hkeeps : KeepsOffsets w a) (heffect : Effect w a w')
    {c' s start : Nat} {groupId : String}
    (hsplit : w'.trace = later ++ .created c' s groupId start :: earlier) {c : Nat}
    (hconsumer : w'.broker.consumers c = some consumer) (hgroup : consumer.groupId = groupId) {x : Nat}
    (hx : x ∈ acknowledged c consumer.session earlier) : x < start := by
  rcases heffect.split hsplit with ⟨before, hbefore, _⟩ | ⟨_, rfl, rfl, hnone, rfl⟩
  · rcases heffect.came hconsumer with hunborn | ⟨old, hold, hs, hg⟩
    · have hnothing := (h.advances c).unborn_suffix hunborn
        (hbefore.trans (append_cons before _ earlier))
      have hmem := acknowledged_subset c _ _ hx
      rw [hnothing] at hmem
      cases hmem
    · rw [← hs] at hx
      exact h.passed before c' s groupId start earlier hbefore c old hold (hg.trans hgroup) x hx
  · rcases heffect.came hconsumer with hunborn | ⟨old, hold, hs, hg⟩
    · have hmem := acknowledged_subset c _ _ hx
      rw [(h.advances c).unborn hunborn] at hmem
      cases hmem
    · rw [← hs] at hx
      exact hkeeps hnone c old hold (hg.trans hgroup) x hx

theorem Remembers.untouched_effect (h : Remembers w) (hkeeps : KeepsOffsets w a) (heffect : Effect w a w')
    {s : Nat} {sent : List Nat}
    (hsplit : w'.trace = later ++ .rolledBack (.session s) sent :: earlier) {c : Nat}
    (hconsumer : w'.broker.consumers c = some consumer) (hsession : consumer.session = s) :
    pending c s earlier = [] := by
  rcases heffect.split hsplit with ⟨before, hbefore, _⟩ | ⟨_, rfl, rfl, t, ht, rfl⟩
  · rcases heffect.came hconsumer with hunborn | ⟨old, hold, hs, _⟩
    · have hnothing := (h.advances c).unborn_suffix hunborn
        (hbefore.trans (append_cons before _ earlier))
      exact subset_nil.mp (hnothing ▸ pending_subset c s earlier)
    · exact h.untouched before s sent earlier hbefore c old hold (hs.trans hsession)
  · rcases heffect.came hconsumer with hunborn | ⟨old, hold, hs, _⟩
    · exact subset_nil.mp ((h.advances c).unborn hunborn ▸ pending_subset c s w.trace)
    · exact hkeeps (by rw [ht]; exact some_ne_none t) c old hold (hs.trans hsession)

theorem Remembers.born_effect (h : Remembers w) (heffect : Effect w a w')
    {c s start : Nat} {groupId : String}
    (hsplit : w'.trace = later ++ .created c s groupId start :: earlier) :
    (∃ consumer, w'.broker.consumers c = some consumer ∧ start ≤ consumer.currentOffset) ∧
      ∀ x ∈ delivered c later, start ≤ x := by
  rcases heffect.split hsplit with ⟨before, hbefore, hlater⟩ | ⟨rfl, rfl, rfl, hnone, rfl⟩
  · obtain ⟨⟨consumer, hconsumer, hstart⟩, hdelivered⟩ := h.born before c s groupId start earlier hbefore
    obtain ⟨consumer', hconsumer', _, _, hle⟩ := heffect.persists hconsumer
    refine ⟨⟨consumer', hconsumer', le_trans hstart hle⟩, ?_⟩
    rcases hlater with rfl | ⟨e, rfl, hcauses⟩
    · exact hdelivered
    · intro x hx
      cases hdelivery : e.delivery c with
      | none => exact hdelivered x (by rwa [delivered_cons_none hdelivery] at hx)
      | some y =>
        rw [delivered, filterMap_cons_some hdelivery] at hx
        rcases mem_cons.mp hx with rfl | hx
        · obtain ⟨s', current, m, rfl, rfl⟩ := Event.delivery_eq_some hdelivery
          obtain ⟨old, hold, rfl, rfl, hnext⟩ := hcauses
          cases hconsumer.symm.trans hold
          exact le_trans hstart (nextMessage_spec (hnext m rfl)).2
        · exact hdelivered x hx
  · refine ⟨?_, fun x hx => by cases hx⟩
    generalize htrace : Event.created c s groupId (w.broker.startOffset groupId) :: w.trace = tr at hsplit
    cases heffect with
    | quiet =>
      have hlength := congrArg List.length (htrace.trans hsplit.symm)
      simp at hlength
    | created hnone => exact ⟨_, update_self .., le_refl _⟩

theorem Sound.seen {b : Broker} {pub pur dis : List Nat} (h : Sound b pub pur dis)
    {x : Nat} (hx : x ∈ (b.seen consumer).map Message.offset) :
    x < b.nextRowId ∧ x ∉ dis ∧ ∀ o, x ∈ b.inFlight o → o = .session consumer.session := by
  have hpublished : x ∈ pub → x < b.nextRowId ∧ x ∉ dis ∧ ∀ o, x ∈ b.inFlight o →
      o = .session consumer.session :=
    fun hp => ⟨h.below x (.inl hp), fun hd => h.unpublished x hd hp, fun o ho => absurd hp (h.fresh o x ho).1⟩
  rcases Broker.mem_seen hx with hx | hx | hx
  · exact hpublished (h.contents x hx)
  · exact hpublished (h.snapshots _ x hx)
  · refine ⟨h.below x (.inr (.inr ⟨_, hx⟩)), (h.fresh _ x hx).2, fun o ho => ?_⟩
    by_contra hne
    exact h.alone _ o hne x hx ho

theorem Remembers.entitled_effect (h : Remembers w) (hkeeps : KeepsOffsets w a) (heffect : Effect w a w')
    (hnext : w.broker.nextRowId ≤ w'.broker.nextRowId) (c : Nat) : Entitled c w' := by
  have hsound := (h.advances c).sound
  have hold := h.entitled c
  constructor
  · intro x hx
    rcases heffect.delivered_cases hx with hx | ⟨consumer, m, _, hm, rfl, _⟩
    · exact lt_of_lt_of_le (hold.below x hx) hnext
    · exact lt_of_lt_of_le (hsound.seen (mem_map_of_mem (nextMessage_spec hm).1)).1 hnext
  · intro x hx hdiscarded
    rcases heffect.delivered_cases hx with hx | ⟨consumer, m, _, hm, rfl, htrace, _⟩
    · rcases heffect.noted with htrace | ⟨e, htrace, hcauses⟩
      · rw [htrace] at hdiscarded
        exact hold.alive x hx hdiscarded
      · rw [htrace] at hdiscarded
        rcases mem_append.mp hdiscarded with hnow | hbefore
        · cases e with
          | rolledBack o sent =>
            -- it was in flight, so the consumer has received it in this transaction
            obtain ⟨rfl, t, ht, rfl⟩ := hcauses
            obtain ⟨consumer, hconsumer, rfl, hpending⟩ :=
              hold.own x hx o (by rw [Broker.inFlight_of_some ht]; exact hnow)
            rw [hkeeps (by rw [ht]; exact some_ne_none t) c consumer hconsumer rfl] at hpending
            cases hpending
          | _ => cases hnow
        · exact hold.alive x hx hbefore
    · rw [htrace] at hdiscarded
      exact (hsound.seen (mem_map_of_mem (nextMessage_spec hm).1)).2.1 hdiscarded
  · intro x hx o ho
    rcases heffect.delivered_cases hx with hx | ⟨consumer, m, hconsumer, hm, rfl, htrace, hinFlight⟩
    · rcases heffect.still ho with rfl | ⟨ho, hgoes⟩
      · exact absurd (hold.below _ hx) (lt_irrefl _)
      · obtain ⟨consumer, hconsumer, rfl, hpending⟩ := hold.own x hx o ho
        obtain ⟨consumer', hconsumer', hs, _⟩ := heffect.persists hconsumer
        refine ⟨consumer', hconsumer', by rw [hs], ?_⟩
        rw [hs]
        rcases hgoes with htrace | ⟨e, htrace, hends⟩
        · rwa [htrace]
        · rw [htrace]
          exact pending_cons_subset hends w.trace hpending
    · rw [hinFlight] at ho
      have howner := (hsound.seen (mem_map_of_mem (nextMessage_spec hm).1)).2.2 o ho
      obtain ⟨consumer', hconsumer', hs, _⟩ := heffect.persists hconsumer
      refine ⟨consumer', hconsumer', by rw [hs, howner], ?_⟩
      rw [htrace, hs, pending]
      simp [Event.ends, Event.delivery]

theorem Remembers.step (h : Remembers w) (a : Action) (hkeeps : KeepsOffsets w a) : Remembers (w.step a) where
  advances c := (h.advances c).step a
  entitled c := h.entitled_effect hkeeps (w.effect a) (Watched.nextRowId_step_le w a) c
  born _ _ _ _ _ _ hsplit := h.born_effect (w.effect a) hsplit
  passed _ _ _ _ _ _ hsplit _ _ hconsumer hgroup _ hx :=
    h.passed_effect hkeeps (w.effect a) hsplit hconsumer hgroup hx
  untouched _ _ _ _ hsplit _ _ hconsumer hsession :=
    h.untouched_effect hkeeps (w.effect a) hsplit hconsumer hsession

/-- Sessions are all or nothing in every run that keeps the offsets of their consumers. -/
theorem allOrNothing_runs (as : List Action) (h : Meets Watched.step KeepsOffsets .new as) :
    AllOrNothing (runs Watched.step .new as) := by
  have hstep : ∀ w a, Remembers w → KeepsOffsets w a → Remembers (w.step a) :=
    fun w a hw hkeeps => hw.step a hkeeps
  exact (invariant_runs hstep .new h).allOrNothing

end

attribute [local instance] plainSetup

/-- A message is sent and taken back, another is received and committed, and its offset is saved for a
consumer that goes on behind it. -/
def resumed : List Action :=
  [.send 1 "a", .commit (.session 1), .createConsumer 0 1 "g", .send 1 "b", .rollback (.session 1),
    .receive 0, .commit (.session 1), .commitOffset 0 2, .createConsumer 1 1 "g", .send 1 "c",
    .commit (.session 1), .receive 1]

theorem allOrNothing_committed : AllOrNothing (runs Watched.step .new resumed) ∧
    delivered 0 (runs Watched.step .new resumed).trace = [1] ∧
    delivered 1 (runs Watched.step .new resumed).trace = [3] ∧
    discarded (runs Watched.step .new resumed).trace = [2] := by
  refine ⟨allOrNothing_runs resumed ⟨trivial, trivial, fun _ c consumer hconsumer => ?_, trivial,
    fun _ c consumer hconsumer hsession => ?_, trivial, trivial, trivial,
      fun _ c consumer hconsumer hgroup x hx => ?_,
    trivial, trivial, trivial, trivial⟩, by decide, by decide, by decide⟩
  · cases hconsumer
  · rfl
  · by_cases hc : c = 0
    · subst hc
      obtain rfl := Option.some.inj hconsumer
      obtain rfl := mem_singleton.mp hx
      decide
    · have hnone := (hconsumer.symm.trans (update_of_ne hc _ _)).trans (update_of_ne hc _ _)
      exact absurd hnone (some_ne_none _)

def twoMessages : List Action :=
  [.begin 0, .insert 0 "a", .insert 0 "b", .commit (.producer 0), .createConsumer 0 1 "g", .receive 0]

/-- The second message is received after the rollback, the first is received again after the commit, and a
message is received that is never sent. -/
theorem sessions_lose_and_repeat :
    ¬ AllOrNothing (runs Watched.step .new (twoMessages ++ [.rollback (.session 1), .receive 0])) ∧
    ¬ AllOrNothing (runs Watched.step .new
      (twoMessages ++ [.commit (.session 1), .createConsumer 1 1 "g", .receive 1])) ∧
    ¬ AllOrNothing (runs Watched.step .new
      [.createConsumer 0 1 "g", .send 1 "a", .receive 0, .rollback (.session 1)]) := by
  refine ⟨fun h => ?_, fun h => ?_, fun h => ?_⟩
  · obtain ⟨m, hm, hoffset⟩ := h.redelivered 0 ⟨1, "g", 3⟩ rfl [] 2 (.ok (some ⟨2, "b"⟩)) [] [] _ rfl
      (fun _ _ _ => not_mem_nil) 1 rfl
    cases hm
    cases hoffset
  · exact h.acknowledged 0 ⟨1, "g", 2⟩ rfl [_] 1 1 1 _ rfl 1 (by decide) (by decide)
  · exact h.discarded 1 (by decide) 0 (by decide)

end H2Database.Jms
