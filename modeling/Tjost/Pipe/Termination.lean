import Tjost.Pipe.Channel

/-!
# The termination of `tjost_pipe_consume`

A call of the consumer alone: the producer makes no step, and `sched_cb` answers
`0`. The loop tests for a header, and goes round without taking anything off the
ring when the header announces more bytes than there are. So the call returns
from every state that `tjost_pipe_produce` leaves behind except one: between the
header and the payload of an event that has a payload, it spins
(`Channel.consume_returns_iff`).

* `Channel.exec_record` — five steps hand over the record at the read position.
* `Channel.exec_pending` — so all complete records are handed over, whatever
  stands behind them.
* `Channel.exec_spin` — in front of a lone header the loop is a cycle of three
  steps.
-/

open Transition

namespace Tjost

namespace Channel

variable {ρ : Type} (R : ByteRing ρ ringbufSize)

/-- `n` steps of the consumer. -/
def turns (n : ℕ) : List Label := List.replicate n (.consumer false)

/-- **A call of the consumer ends.** With no step of the producer it returns `0` after
finitely many steps, and every complete record has been handed over. -/
def ConsumeReturns (s : Channel ρ) : Prop :=
  ∃ n s', (machine R).exec s (.consume :: turns n) = some s' ∧ s'.consumer.pc = .idle ∧
    s'.consumer.returned = s.consumer.returned ++ [0] ∧
    s'.consumer.delivered = (s.accepted ++ s.producer.complete).map Record.tuple

/-- The producer stands between the header and the payload of an event that has a
payload. -/
def HalfWritten (s : Channel ρ) : Prop := ∃ r, s.producer = .payload r ∧ r.buf ≠ []

variable {R} {s s' : Channel ρ} {r : Record} {rest : List UInt8}

theorem turns_add (m n : ℕ) : turns (m + n) = turns m ++ turns n := List.replicate_add ..

/-- One step of the consumer, and the rest of the run. -/
theorem exec_turn {ring : ρ} {c : Consumer} (h : s.consumer.step R false s.ring = some (ring, c))
    (n : ℕ) : (machine R).exec s (turns (n + 1)) =
      (machine R).exec { s with ring := ring, consumer := c } (turns n) := by
  have hstep : (machine R).step s (.consumer false) =
      some { s with ring := ring, consumer := c } := by
    change (s.consumer.step R false s.ring).map _ = _
    rw [h]
    rfl
  rw [turns, List.replicate_succ, Machine.exec_cons, hstep]
  rfl

/-- The first steps of the loop, up to the test for the whole record. -/
theorem exec_header (hpc : s.consumer.pc = .space)
    (hring : R.contents s.ring = r.header.encode ++ rest) (n : ℕ) :
    (machine R).exec s (turns (n + 2)) =
      (machine R).exec { s with consumer := { s.consumer with pc := .record r.header } }
        (turns n) := by
  have hspace : sizeofEvent ≤ R.readSpace s.ring := by
    rw [R.readSpace_eq, hring, List.length_append, Record.length_header]
    exact Nat.le_add_right _ _
  have hpeek : R.peek s.ring sizeofEvent = r.header.encode := by
    have h := R.peek_append hring
    rwa [Record.length_header] at h
  have hfirst : s.consumer.step R false s.ring =
      some (s.ring, { s.consumer with pc := .peek }) := by
    simp only [Consumer.step, hpc, if_pos hspace]
  have hsecond : Consumer.step R false s.ring { s.consumer with pc := .peek } =
      some (s.ring, { s.consumer with pc := .record r.header }) := by
    simp only [Consumer.step, hpeek, Record.length_header, ne_eq, not_true_eq_false, if_false,
      EventHeader.decode_encode]
  rw [exec_turn hfirst, exec_turn hsecond]

/-- **A complete record** is handed over in five steps. -/
theorem exec_record (hpc : s.consumer.pc = .space) (hr : r.Sized)
    (hring : R.contents s.ring = r.bytes ++ rest) :
    ∃ ring, R.contents ring = rest ∧ ∀ n, (machine R).exec s (turns (n + 5)) =
      (machine R).exec { s with
        ring := ring
        consumer := { s.consumer with delivered := s.consumer.delivered ++ [r.tuple] } }
        (turns n) := by
  rw [Record.bytes, List.append_assoc] at hring
  have hbuf : R.contents (R.readAdvance s.ring sizeofEvent) = r.buf ++ rest := by
    have h := R.readAdvance_append hring
    rwa [Record.length_header] at h
  obtain ⟨hrest, hread⟩ := R.read_append hbuf
  refine ⟨(R.read (R.readAdvance s.ring sizeofEvent) r.buf.length).1, hrest, fun n => ?_⟩
  have hwhole : sizeofEvent + r.buf.length ≤ R.readSpace s.ring := by
    rw [R.readSpace_eq, hring, List.length_append, List.length_append, Record.length_header]
    omega
  have hthird : Consumer.step R false s.ring { s.consumer with pc := .record r.header } =
      some (s.ring, { s.consumer with pc := .advance r.header }) := by
    simp only [Consumer.step, hr.recordSize, if_pos hwhole]
  have hfourth : Consumer.step R false s.ring { s.consumer with pc := .advance r.header } =
      some (R.readAdvance s.ring sizeofEvent, { s.consumer with pc := .read r.header }) := rfl
  have hfifth : Consumer.step R false (R.readAdvance s.ring sizeofEvent)
      { s.consumer with pc := .read r.header } =
        some ((R.read (R.readAdvance s.ring sizeofEvent) r.buf.length).1,
          { s.consumer with delivered := s.consumer.delivered ++ [r.tuple] }) := by
    simp only [Consumer.step, hr.size, hread, ne_eq, not_true_eq_false, if_false,
      Bool.false_eq_true, hpc]
    rfl
  rw [exec_header hpc hring, exec_turn hthird, exec_turn hfourth, exec_turn hfifth]

/-- **The complete records** are handed over one after the other. -/
theorem exec_pending {pending : List Record} (hpc : s.consumer.pc = .space)
    (hsized : ∀ r ∈ pending, r.Sized)
    (hring : R.contents s.ring = pending.flatMap Record.bytes ++ rest) :
    ∃ ring, R.contents ring = rest ∧ ∀ n, (machine R).exec s (turns (n + 5 * pending.length)) =
      (machine R).exec { s with
        ring := ring
        consumer := { s.consumer with
          delivered := s.consumer.delivered ++ pending.map Record.tuple } }
        (turns n) := by
  induction pending generalizing s with
  | nil =>
    refine ⟨s.ring, hring, fun n => ?_⟩
    rw [List.map_nil, List.append_nil]
    rfl
  | cons r pending ih =>
    rw [List.flatMap_cons, List.append_assoc] at hring
    obtain ⟨ring, hring₁, hone⟩ := exec_record hpc (hsized r List.mem_cons_self) hring
    obtain ⟨ring', hring', hall⟩ := ih
      (s := { s with
        ring := ring
        consumer := { s.consumer with delivered := s.consumer.delivered ++ [r.tuple] } })
      hpc (fun x hx => hsized x (List.mem_cons_of_mem _ hx)) hring₁
    refine ⟨ring', hring', fun n => ?_⟩
    have hsteps : n + 5 * (r :: pending).length = n + 5 * pending.length + 5 := by
      rw [List.length_cons]
      omega
    rw [hsteps, hone, hall, List.map_cons, List.append_assoc]
    rfl

/-- On an empty ring the call returns. -/
theorem exec_return (hpc : s.consumer.pc = .space) (hring : R.contents s.ring = []) :
    (machine R).exec s (turns 1) = some { s with consumer := s.consumer.finish 0 } := by
  have hspace : ¬ sizeofEvent ≤ R.readSpace s.ring := by
    rw [R.readSpace_eq, hring]
    decide
  have hstep : s.consumer.step R false s.ring = some (s.ring, s.consumer.finish 0) := by
    simp only [Consumer.step, hpc, if_neg hspace]
  rw [exec_turn hstep]
  rfl

/-- **A lone header.** Three steps lead back to the test of the loop. -/
theorem exec_spin (hpc : s.consumer.pc = .space) (hr : r.Sized) (hbuf : r.buf ≠ [])
    (hring : R.contents s.ring = r.header.encode) (n : ℕ) :
    (machine R).exec s (turns (n + 3)) = (machine R).exec s (turns n) := by
  have hwhole : ¬ sizeofEvent + r.buf.length ≤ R.readSpace s.ring := by
    have hpos : 0 < r.buf.length := List.length_pos_iff.mpr hbuf
    rw [R.readSpace_eq, hring, Record.length_header]
    omega
  have hback : Consumer.step R false s.ring { s.consumer with pc := .record r.header } =
      some (s.ring, s.consumer) := by
    simp only [Consumer.step, hr.recordSize, if_neg hwhole, ← hpc]
  rw [← List.append_nil r.header.encode] at hring
  rw [exec_header hpc hring, exec_turn hback]

/-- The loop comes back to its test any number of times. -/
theorem exec_spins (hpc : s.consumer.pc = .space) (hr : r.Sized) (hbuf : r.buf ≠ [])
    (hring : R.contents s.ring = r.header.encode) (k : ℕ) :
    (machine R).exec s (turns (3 * k)) = some s := by
  induction k with
  | zero => rfl
  | succ k ih =>
    rw [Nat.mul_succ, exec_spin hpc hr hbuf hring]
    exact ih

/-- Behind the return of a call there are no steps. -/
theorem not_idle_of_exec {t : Channel ρ} {m n : ℕ} (h : (machine R).exec s (turns n) = some s')
    (hmore : (machine R).exec s (turns (n + (m + 1))) = some t) : s'.consumer.pc ≠ .idle := by
  intro hidle
  have hstuck : (machine R).step s' (.consumer false) = none := by
    change (s'.consumer.step R false s'.ring).map _ = none
    simp only [Consumer.step, hidle, Option.map_none]
  have hnone : (machine R).exec s' (turns (m + 1)) = none := by
    rw [turns, List.replicate_succ, Machine.exec_cons, hstuck]
    rfl
  rw [turns_add, Machine.exec_append, h, Option.bind_some, hnone] at hmore
  cases hmore

/-- A call hands over all complete records, and is then at the test of its loop. -/
theorem exec_complete (hi : Inv R s) (hidle : s.consumer.pc = .idle) :
    ∃ s₁ k, (∀ n, (machine R).exec s (.consume :: turns (n + k)) = (machine R).exec s₁ (turns n)) ∧
      s₁.consumer = ⟨.space, (s.accepted ++ s.producer.complete).map Record.tuple,
        s.consumer.returned⟩ ∧
      R.contents s₁.ring = s.producer.partly.flatMap fun r => r.header.encode := by
  obtain ⟨taken, current, pending, held, hwritten, hdelivered, hcontents, hat⟩ := hi.framed.split
  rw [hidle] at hat
  obtain ⟨rfl, rfl⟩ := hat
  rw [List.append_nil] at hwritten
  rw [List.nil_append] at hcontents
  have hsized : ∀ r ∈ pending, r.Sized := by
    intro r hr
    refine hi.framed.sized r (List.mem_append_left _ ?_)
    rw [← hwritten]
    exact List.mem_append_right _ hr
  have hstep : (machine R).step s .consume =
      some { s with consumer := { s.consumer with pc := .space } } := if_pos hidle
  obtain ⟨ring, hring, hall⟩ := exec_pending
    (s := { s with consumer := { s.consumer with pc := .space } }) rfl hsized hcontents
  refine ⟨{ s with
      ring := ring
      consumer := ⟨.space, s.consumer.delivered ++ pending.map Record.tuple,
        s.consumer.returned⟩ },
    5 * pending.length, fun n => ?_, ?_, hring⟩
  · rw [Machine.exec_cons, hstep]
    exact hall n
  · change Consumer.mk .space (s.consumer.delivered ++ pending.map Record.tuple) _ = _
    rw [hdelivered, ← List.map_append, hwritten]

/-- From a state without a lone header the call returns. -/
theorem Inv.consumeReturns (hi : Inv R s) (hidle : s.consumer.pc = .idle)
    (hhalf : ¬ s.HalfWritten) : s.ConsumeReturns R := by
  obtain ⟨s₁, k, hrun, hconsumer, hring⟩ := exec_complete hi hidle
  have hpartly : s.producer.partly = [] := by
    cases hpc : s.producer with
    | payload r => exact if_pos (not_not.mp fun hbuf => hhalf ⟨r, hpc, hbuf⟩)
    | idle => rfl
    | query r => rfl
    | header r => rfl
  rw [hpartly, List.flatMap_nil] at hring
  refine ⟨1 + k, { s₁ with consumer := s₁.consumer.finish 0 }, ?_, rfl, ?_, ?_⟩
  · rw [hrun, exec_return (by rw [hconsumer]) hring]
  · change s₁.consumer.returned ++ [0] = _
    rw [hconsumer]
  · change s₁.consumer.delivered = _
    rw [hconsumer]

/-- In front of a lone header it does not. -/
theorem Inv.not_consumeReturns (hi : Inv R s) (hidle : s.consumer.pc = .idle)
    (hhalf : s.HalfWritten) : ¬ s.ConsumeReturns R := by
  rintro ⟨n, s', hexec, hreturned, -, -⟩
  obtain ⟨r, hpc, hbuf⟩ := hhalf
  obtain ⟨s₁, k, hrun, hconsumer, hring⟩ := exec_complete hi hidle
  have hpartly : s.producer.partly = [r] := by
    rw [hpc]
    exact if_neg hbuf
  rw [hpartly, List.flatMap_singleton] at hring
  have hr : r.Sized := hi.framed.sized r (by simp [hpartly])
  have hspins := exec_spins (by rw [hconsumer]) hr hbuf hring (n + 1)
  rw [← hrun, Machine.exec_cons] at hspins
  rw [Machine.exec_cons] at hexec
  -- the run goes on past the step after which the call is said to have returned
  obtain ⟨t, ht, hspins⟩ := Option.bind_eq_some_iff.mp hspins
  rw [ht, Option.bind_some] at hexec
  have hsplit : 3 * (n + 1) + k = n + (2 * n + 2 + k + 1) := by omega
  rw [hsplit] at hspins
  exact not_idle_of_exec hexec hspins hreturned

/-- **The termination of `tjost_pipe_consume`.** -/
theorem consume_returns_iff (hs : (machine R).Reachable s) (hidle : s.consumer.pc = .idle) :
    s.ConsumeReturns R ↔ ¬ s.HalfWritten :=
  ⟨fun h hhalf => (inv_of_reachable hs).not_consumeReturns hidle hhalf h,
    (inv_of_reachable hs).consumeReturns hidle⟩

/-- An event that is in the ring is handed over. -/
theorem consume_returns_iff_start :
    ∃ s, (machine (ByteRing.fifo ringbufSize)).exec start
        [.produce ⟨⟨0, 0, 0, 0⟩, 1, 7, [42]⟩, .producer, .producer, .producer] = some s ∧
      s.ConsumeReturns (ByteRing.fifo ringbufSize) := by
  have hrun : ((machine (ByteRing.fifo ringbufSize)).exec start
      [.produce ⟨⟨0, 0, 0, 0⟩, 1, 7, [42]⟩, .producer, .producer, .producer]).map
        (fun s => (s.producer, s.consumer.pc)) = some (.idle, .idle) := by
    decide +kernel
  obtain ⟨s, hs, hobserved⟩ := Option.map_eq_some_iff.mp hrun
  obtain ⟨hproducer, hidle⟩ := Prod.mk.inj hobserved
  refine ⟨s, hs, (consume_returns_iff ⟨start, _, start_init, hs⟩ hidle).mpr ?_⟩
  rintro ⟨r, hpc, -⟩
  rw [hproducer] at hpc
  cases hpc

/-- **The half-written event.** The producer has written the header of an event with
one byte and makes no further step: a call of the consumer never returns. -/
theorem half_written_spins :
    ∃ s, (machine (ByteRing.fifo ringbufSize)).exec start
        [.produce ⟨⟨0, 0, 0, 0⟩, 1, 7, [42]⟩, .producer, .producer] = some s ∧
      s.consumer.pc = .idle ∧ ¬ s.ConsumeReturns (ByteRing.fifo ringbufSize) := by
  have hrun : ((machine (ByteRing.fifo ringbufSize)).exec start
      [.produce ⟨⟨0, 0, 0, 0⟩, 1, 7, [42]⟩, .producer, .producer]).map
        (fun s => (s.producer, s.consumer.pc)) =
          some (.payload ⟨⟨0, 0, 0, 0⟩, 1, 7, [42]⟩, .idle) := by
    decide +kernel
  obtain ⟨s, hs, hobserved⟩ := Option.map_eq_some_iff.mp hrun
  obtain ⟨hproducer, hidle⟩ := Prod.mk.inj hobserved
  have hi : Inv (ByteRing.fifo ringbufSize) s := inv_of_reachable ⟨start, _, start_init, hs⟩
  exact ⟨s, hs, hidle, hi.not_consumeReturns hidle ⟨_, hproducer, List.cons_ne_nil _ _⟩⟩

end Channel

end Tjost
