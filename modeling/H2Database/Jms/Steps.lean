import H2Database.Jms.Offsets

/-!
# What a step does

A step of the queue leaves the consumers and what has happened as they are, or it is noted: a transaction
ends, a consumer is created or is answered.
-/

namespace H2Database.Jms

open List Nat

/-! ## What a consumer is answered -/

theorem nextMessage_spec {messages : List Message} {current : Nat} {m : Message}
    (h : nextMessage messages current = some m) : m ∈ messages ∧ current ≤ m.offset := by
  have hmem := mem_of_mem_head? h
  rw [mem_insertionSort, mem_filter] at hmem
  exact ⟨hmem.1, of_decide_eq_true hmem.2⟩

section

variable [Setup]

def BeforeOldest (messages : List Message) (current : Nat) : Prop :=
  ∃ min, oldest messages = some min ∧ 0 < min ∧ current < min

theorem tryReceiveSingle_cases (messages : List Message) (current : Nat) :
    BeforeOldest messages current ∧ (∃ e, tryReceiveSingle messages current = .error e) ∨
      ¬ BeforeOldest messages current ∧
        tryReceiveSingle messages current = .ok (nextMessage messages current) := by
  unfold tryReceiveSingle BeforeOldest
  cases h : oldest messages with
  | none => simp
  | some min =>
    by_cases hmin : 0 < min ∧ current < min
    · exact .inl ⟨⟨min, rfl, hmin⟩, ⟨_, if_pos hmin⟩⟩
    · refine .inr ⟨?_, if_neg hmin⟩
      rintro ⟨min', heq, hmin'⟩
      cases heq
      exact hmin hmin'

namespace Broker

def seen (b : Broker) (consumer : Consumer) : List Message := (b.reader consumer).2.messages

theorem reader_eq (b : Broker) (consumer : Consumer) :
    (b.reader consumer).1 = b ∨ (b.reader consumer).1 = b.opened (.session consumer.session) := by
  unfold reader
  split_ifs
  · exact .inr rfl
  · exact .inl rfl

@[simp] theorem consumers_reader (b : Broker) (consumer : Consumer) :
    (b.reader consumer).1.consumers = b.consumers := by
  rcases b.reader_eq consumer with h | h <;> simp [h]

theorem receive_cases (b : Broker) (c : Nat) (consumer : Consumer) :
    BeforeOldest (b.seen consumer) consumer.currentOffset ∧ (∃ e, (b.receive c consumer).2 = .error e) ∧
        (b.receive c consumer).1.consumers = b.consumers ∨
      ¬ BeforeOldest (b.seen consumer) consumer.currentOffset ∧
        (b.receive c consumer).2 = .ok (nextMessage (b.seen consumer) consumer.currentOffset) ∧
        (b.receive c consumer).1.consumers =
          match nextMessage (b.seen consumer) consumer.currentOffset with
          | none => b.consumers
          | some m => Function.update b.consumers c
            (some { consumer with currentOffset := m.offset + 1 }) := by
  have hconsumers := b.consumers_reader consumer
  unfold receive
  simp only []
  rcases tryReceiveSingle_cases (b.seen consumer) consumer.currentOffset with
    ⟨hbefore, e, hanswer⟩ | ⟨hnot, hanswer⟩
  · rw [seen] at hanswer
    simp only [hanswer]
    exact .inl ⟨hbefore, ⟨e, rfl⟩, hconsumers⟩
  · refine .inr ⟨hnot, ?_⟩
    rw [seen] at hanswer ⊢
    simp only [hanswer]
    cases nextMessage (b.reader consumer).2.messages consumer.currentOffset with
    | none => exact ⟨rfl, hconsumers⟩
    | some m =>
      simp only []
      split_ifs
      · exact ⟨rfl, by simp [setConsumer]⟩
      · exact ⟨rfl, by simp [setConsumer]⟩

theorem mem_seen {b : Broker} {consumer : Consumer} {x : Nat}
    (hx : x ∈ (b.seen consumer).map Message.offset) :
    x ∈ b.contents.offsets ∨ x ∈ b.snapshot (.session consumer.session) ∨
      x ∈ b.inFlight (.session consumer.session) := by
  unfold seen reader at hx
  split_ifs at hx
  · cases ht : (b.opened (.session consumer.session)).transactions (.session consumer.session) with
    | none =>
      simp only [ht, contents_opened] at hx
      exact .inl hx
    | some t =>
      simp only [ht] at hx
      rcases mem_view ht hx with hx | hx
      · exact (mem_snapshot_opened hx).elim (fun hx => Or.inr (.inl hx)) Or.inl
      · rw [inFlight_opened] at hx
        exact .inr (.inr hx)
  · exact .inl hx

end Broker

theorem Sound.receive {b : Broker} {pub pur dis : List Nat} (h : Sound b pub pur dis) (c : Nat)
    (consumer : Consumer) : Sound (b.receive c consumer).1 pub pur dis := by
  have hreader : Sound (b.reader consumer).1 pub pur dis := by
    rcases b.reader_eq consumer with heq | heq <;> rw [heq]
    · exact h
    · exact h.opened _
  have hsame : ∀ b' : Broker, b'.contents.messages = (b.reader consumer).1.contents.messages →
      b'.transactions = (b.reader consumer).1.transactions →
      b'.nextRowId = (b.reader consumer).1.nextRowId → Sound b' pub pur dis := by
    intro b' hmessages htransactions hnext
    refine hreader.same ?_ ?_ hnext ?_
    · rw [Contents.offsets, hmessages]
      rfl
    · funext o
      rw [Broker.inFlight, htransactions]
      rfl
    · intro o x hx
      rw [Broker.snapshot, htransactions] at hx
      exact .inl hx
  unfold Broker.receive
  simp only []
  split
  · split_ifs
    · exact hsame _ rfl rfl rfl
    · exact hsame _ rfl rfl rfl
  · exact hreader

omit [Setup] in
theorem consumers_insert (b : Broker) (o : Owner) (text : String) :
    (b.insert o text).consumers = b.consumers := by
  unfold Broker.insert
  split_ifs <;> rfl

omit [Setup] in
theorem consumers_purge (b : Broker) (o : Owner) (offsets : List Nat) :
    (b.purge o offsets).consumers = b.consumers := by
  refine Broker.purge_induction (P := fun b' => b'.consumers = b.consumers) (fun b' o x h => ?_) rfl o offsets
  exact h

theorem Watched.sound_step {w : Watched} (h : w.Sound) (a : Action) : (w.step a).Sound := by
  cases a with
  | begin p => exact Jms.Sound.opened h _
  | insert p text => exact Jms.Sound.insert h _ text
  | purge o offsets => exact Jms.Sound.purge h o offsets
  | commit o =>
    simp only [step]
    split
    · exact h
    · rename_i t ht
      exact Jms.Sound.committed h ht rfl
  | rollback o =>
    simp only [step]
    split
    · exact h
    · rename_i t ht
      exact Jms.Sound.rolledBack h ht
  | send s text =>
    simp only [step]
    split_ifs
    · exact (Jms.Sound.opened h _).insert _ text
    · exact h
  | createConsumer c s groupId =>
    simp only [step]
    split
    · exact h
    · exact Jms.Sound.same h rfl rfl rfl fun _ _ hx => Or.inl hx
  | commitOffset c offset =>
    simp only [step]
    split
    · exact h
    · exact Jms.Sound.same h rfl rfl rfl fun _ _ hx => Or.inl hx
  | receive c =>
    simp only [step]
    split
    · exact h
    · rename_i consumer _
      exact Jms.Sound.receive h c consumer

theorem inFlight_receive (b : Broker) (c : Nat) (consumer : Consumer) :
    (b.receive c consumer).1.inFlight = b.inFlight := by
  have hreader : (b.reader consumer).1.inFlight = b.inFlight := by
    rcases b.reader_eq consumer with h | h <;> simp [h]
  unfold Broker.receive
  simp only []
  split
  · split_ifs
    · exact hreader
    · exact hreader
  · exact hreader

theorem nextRowId_receive (b : Broker) (c : Nat) (consumer : Consumer) :
    (b.receive c consumer).1.nextRowId = b.nextRowId := by
  have hreader : (b.reader consumer).1.nextRowId = b.nextRowId := by
    rcases b.reader_eq consumer with h | h <;> simp [h]
  unfold Broker.receive
  simp only []
  split
  · split_ifs
    · exact hreader
    · exact hreader
  · exact hreader

/-- Before, the action and after.  In a step that is not noted only the next offset can come to be in
flight. -/
inductive Effect (w : Watched) : Action → Watched → Prop where
  | quiet {a : Action} {b : Broker} (hconsumers : b.consumers = w.broker.consumers)
      (hinFlight : ∀ o, ∀ x ∈ b.inFlight o, x ∈ w.broker.inFlight o ∨ x = w.broker.nextRowId)
      (hcommit : ∀ o, a = .commit o → w.broker.transactions o = none)
      (hreceive : ∀ c, a = .receive c → w.broker.consumers c = none) : Effect w a ⟨b, w.trace⟩
  | committed {o : Owner} {t : Transaction} {contents : Contents} (ht : w.broker.transactions o = some t)
      (hcontents : contents = t.edits.foldl Contents.edit w.broker.contents) :
      Effect w (.commit o) ⟨{ w.broker.close o with contents },
        .committed o (contents.offsets.filter (· ∉ w.broker.contents.offsets))
          (w.broker.contents.offsets.filter (· ∉ contents.offsets)) :: w.trace⟩
  | rolledBack {o : Owner} {t : Transaction} (ht : w.broker.transactions o = some t) :
      Effect w (.rollback o) ⟨w.broker.close o, .rolledBack o t.inserted :: w.trace⟩
  | created {c s : Nat} {groupId : String} (hnone : w.broker.consumers c = none) :
      Effect w (.createConsumer c s groupId)
        ⟨w.broker.setConsumer c ⟨s, groupId, w.broker.startOffset groupId⟩,
          .created c s groupId (w.broker.startOffset groupId) :: w.trace⟩
  | refused {c : Nat} {consumer : Consumer} {b : Broker} {e : H2Error}
      (hconsumer : w.broker.consumers c = some consumer)
      (hbefore : BeforeOldest (w.broker.seen consumer) consumer.currentOffset)
      (hconsumers : b.consumers = w.broker.consumers) (hinFlight : b.inFlight = w.broker.inFlight) :
      Effect w (.receive c)
        ⟨b, .received c consumer.session consumer.currentOffset (.error e) :: w.trace⟩
  | empty {c : Nat} {consumer : Consumer} {b : Broker} (hconsumer : w.broker.consumers c = some consumer)
      (hnot : ¬ BeforeOldest (w.broker.seen consumer) consumer.currentOffset)
      (hnext : nextMessage (w.broker.seen consumer) consumer.currentOffset = none)
      (hconsumers : b.consumers = w.broker.consumers) (hinFlight : b.inFlight = w.broker.inFlight) :
      Effect w (.receive c)
        ⟨b, .received c consumer.session consumer.currentOffset (.ok none) :: w.trace⟩
  | message {c : Nat} {consumer : Consumer} {b : Broker} {m : Message}
      (hconsumer : w.broker.consumers c = some consumer)
      (hnot : ¬ BeforeOldest (w.broker.seen consumer) consumer.currentOffset)
      (hnext : nextMessage (w.broker.seen consumer) consumer.currentOffset = some m)
      (hconsumers : b.consumers =
        Function.update w.broker.consumers c (some { consumer with currentOffset := m.offset + 1 }))
      (hinFlight : b.inFlight = w.broker.inFlight) :
      Effect w (.receive c)
        ⟨b, .received c consumer.session consumer.currentOffset (.ok (some m)) :: w.trace⟩

theorem Watched.nextRowId_step_le (w : Watched) (a : Action) :
    w.broker.nextRowId ≤ (w.step a).broker.nextRowId := by
  have hinsert : ∀ (b : Broker) o text, b.nextRowId ≤ (b.insert o text).nextRowId := by
    intro b o text
    unfold Broker.insert
    split_ifs
    · exact le_succ _
    · exact le_refl _
  cases a with
  | begin p => simp [step]
  | insert p text => exact hinsert _ _ _
  | purge o offsets =>
    refine Broker.purge_induction (P := fun b => w.broker.nextRowId ≤ b.nextRowId) (fun b o x h => ?_)
      (le_refl _) o offsets
    exact h
  | send s text =>
    simp only [step]
    split_ifs
    · exact le_trans (by simp) (hinsert _ _ _)
    · exact le_refl _
  | receive c =>
    simp only [step]
    split
    · exact le_refl _
    · rename_i consumer _
      exact le_of_eq (nextRowId_receive w.broker c consumer).symm
  | _ =>
    simp only [step]
    split <;> exact le_refl _

omit [Setup] in
theorem inFlight_insert_le {b : Broker} {o o' : Owner} {text : String} {x : Nat}
    (hx : x ∈ (b.insert o text).inFlight o') : x ∈ b.inFlight o' ∨ x = b.nextRowId := by
  by_cases hopen : (b.transactions o).isSome = true
  · rw [Broker.inFlight_insert b o text hopen] at hx
    by_cases ho : o' = o
    · subst ho
      rw [Function.update_self] at hx
      exact (mem_append.mp hx).imp id mem_singleton.mp
    · rw [Function.update_of_ne ho] at hx
      exact .inl hx
  · rw [Broker.insert, if_neg hopen] at hx
    exact .inl hx

omit [Setup] in
theorem inFlight_purge (b : Broker) (o : Owner) (offsets : List Nat) :
    (b.purge o offsets).inFlight = b.inFlight := by
  refine Broker.purge_induction (P := fun b' => b'.inFlight = b.inFlight) (fun b' o x h => ?_) rfl o offsets
  rw [Broker.inFlight_remove, h]

theorem Watched.effect (w : Watched) (a : Action) : Effect w a (w.step a) := by
  cases a with
  | begin p =>
    refine .quiet (by simp) (fun o x hx => Or.inl ?_) (by simp) (by simp)
    rwa [Broker.inFlight_opened] at hx
  | insert p text =>
    exact .quiet (by rw [consumers_insert]) (fun _ _ hx => inFlight_insert_le hx) (by simp) (by simp)
  | purge o offsets =>
    refine .quiet (by rw [consumers_purge]) (fun _ x hx => Or.inl ?_) (by simp) (by simp)
    rwa [inFlight_purge] at hx
  | commit o =>
    simp only [step]
    split
    · rename_i hnone
      exact .quiet rfl (fun _ _ hx => Or.inl hx) (by rintro _ ⟨⟩; exact hnone) (by simp)
    · rename_i t ht
      exact .committed ht rfl
  | rollback o =>
    simp only [step]
    split
    · exact .quiet rfl (fun _ _ hx => Or.inl hx) (by simp) (by simp)
    · rename_i t ht
      exact .rolledBack ht
  | send s text =>
    simp only [step]
    split_ifs
    · refine .quiet (by rw [consumers_insert, Broker.consumers_opened]) (fun o x hx => ?_) (by simp) (by simp)
      have hcases := inFlight_insert_le hx
      rwa [Broker.inFlight_opened, Broker.nextRowId_opened] at hcases
    · exact .quiet rfl (fun _ _ hx => Or.inl hx) (by simp) (by simp)
  | createConsumer c s groupId =>
    simp only [step]
    split
    · exact .quiet rfl (fun _ _ hx => Or.inl hx) (by simp) (by simp)
    · rename_i hnone
      exact .created hnone
  | commitOffset c offset =>
    simp only [step]
    split
    · exact .quiet rfl (fun _ _ hx => Or.inl hx) (by simp) (by simp)
    · exact .quiet rfl (fun _ _ hx => Or.inl hx) (by simp) (by simp)
  | receive c =>
    simp only [step]
    split
    · rename_i hnone
      exact .quiet rfl (fun _ _ hx => Or.inl hx) (by simp) (by rintro _ ⟨⟩; exact hnone)
    · rename_i consumer hconsumer
      have hinFlight := inFlight_receive w.broker c consumer
      rcases w.broker.receive_cases c consumer with ⟨hbefore, ⟨e, he⟩, hsame⟩ | ⟨hnot, hanswer, hafter⟩
      · rw [he]
        exact .refused hconsumer hbefore hsame hinFlight
      · rw [hanswer]
        cases hnext : nextMessage (w.broker.seen consumer) consumer.currentOffset with
        | none =>
          rw [hnext] at hafter
          exact .empty hconsumer hnot hnext hafter hinFlight
        | some m =>
          rw [hnext] at hafter
          exact .message hconsumer hnot hnext hafter hinFlight

end

end H2Database.Jms
