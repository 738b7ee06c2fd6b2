import Tjost.Library.Transition
import Tjost.Pipe.Produce

/-!
# A pipe between two threads

`tjost_pipe_produce` and `tjost_pipe_consume` as threads that share a ring, one
ring operation a step (`Channel.machine`). Between two steps of one thread the
other may take any number of steps.

The consumer takes a record once it can read as many bytes as the header says.
So a record is complete, for the consumer, as soon as its last byte is in the
ring: usually that is the end of the payload write, just before the call returns
`0`; for an event of size `0` it is the header write, one step earlier
(`ProducerPc.complete`).

`Channel.machine_integrity`: in every reachable state, the tuples passed to
`sched_cb` are a prefix of those of the calls that returned `0`, followed by that
of the call in progress if its record is complete. Nothing is lost: a consumer
that has read everything has passed on all of them. A call that returns `-1` has
written nothing, and the error returns after partial transfers are never taken.

The invariant is in two parts. `Framed` relates the bytes in the ring and the
position of the consumer to the list of complete records; `Channel.Inv` adds what
the producer knows about the room in the ring.
-/

open Transition

namespace Tjost

/-! ### Records and tuples -/

/-- The arguments of a call of `tjost_pipe_produce`, and the unread bytes of its
`Tjost_Event`. -/
structure Record where
  stale : Stale
  module : ModulePtr
  time : NFrames
  buf : List UInt8
  deriving DecidableEq, Repr

/-- What `sched_cb` gets. -/
structure Tuple where
  module : ModulePtr
  time : NFrames
  size : UInt64
  buf : List UInt8
  deriving DecidableEq, Repr

namespace Record

variable (r : Record)

def header : EventHeader := r.stale.header r.module r.time r.buf.length

def bytes : List UInt8 := r.header.encode ++ r.buf

def tuple : Tuple := ⟨r.module, r.time, UInt64.ofNat r.buf.length, r.buf⟩

/-- `sizeof(Tjost_Event) + size` does not overflow a `size_t`. -/
def Sized : Prop := sizeofEvent + r.buf.length < 2 ^ 64

instance : Decidable r.Sized := inferInstanceAs (Decidable (_ < _))

@[simp] theorem length_header : r.header.encode.length = sizeofEvent :=
  EventHeader.length_encode _

@[simp] theorem length_bytes : r.bytes.length = sizeofEvent + r.buf.length := by
  simp [bytes]

variable {r}

theorem Sized.size (h : r.Sized) : r.header.size.toNat = r.buf.length := by
  unfold Sized at h
  change (UInt64.ofNat r.buf.length).toNat = _
  rw [UInt64.toNat_ofNat']
  exact Nat.mod_eq_of_lt (by omega)

/-- The size of the whole record, as the consumer computes it. -/
theorem Sized.recordSize (h : r.Sized) :
    (UInt64.ofNat sizeofEvent + r.header.size).toNat = sizeofEvent + r.buf.length := by
  have hsize := h.size
  unfold Sized at h
  rw [UInt64.toNat_add, hsize, UInt64.toNat_ofNat']
  have hevent : sizeofEvent % 2 ^ 64 = sizeofEvent := by decide
  rw [hevent]
  exact Nat.mod_eq_of_lt h

end Record

/-! ### The threads -/

/-- Where a `tjost_pipe_produce` is. -/
inductive ProducerPc
  | idle
  /-- Before `jack_ringbuffer_write_space`. -/
  | query (r : Record)
  /-- Before the write of the header. -/
  | header (r : Record)
  /-- Before the write of the payload. -/
  | payload (r : Record)
  deriving DecidableEq, Repr

/-- Where a `tjost_pipe_consume` is. -/
inductive ConsumerPc
  | idle
  /-- Before the test of the loop. -/
  | space
  /-- Before `jack_ringbuffer_peek`. -/
  | peek
  /-- Before the test for the whole record. -/
  | record (tev : EventHeader)
  /-- Before `jack_ringbuffer_read_advance`. -/
  | advance (tev : EventHeader)
  /-- Before `jack_ringbuffer_read`. -/
  | read (tev : EventHeader)
  deriving DecidableEq, Repr

/-- The consuming thread: where it is, what it has passed to `sched_cb`, and what
its calls have returned. -/
structure Consumer where
  pc : ConsumerPc
  delivered : List Tuple
  returned : List ℤ
  deriving DecidableEq, Repr

/-- A finished `tjost_pipe_produce`: its arguments, its result, and the number of
bytes it wrote. -/
structure Return where
  record : Record
  value : ℤ
  wrote : ℕ
  deriving DecidableEq, Repr

variable {ρ : Type} (R : ByteRing ρ ringbufSize)

/-- `return value` in `tjost_pipe_consume`. -/
def Consumer.finish (c : Consumer) (value : ℤ) : Consumer :=
  { c with pc := .idle, returned := c.returned ++ [value] }

/-- The next step of `tjost_pipe_consume`. The call of `sched_cb`, which answers
`stop`, belongs to the read before it. -/
def Consumer.step (stop : Bool) (ring : ρ) (c : Consumer) : Option (ρ × Consumer) :=
  match c.pc with
  | .idle => none
  | .space =>
    if sizeofEvent ≤ R.readSpace ring then some (ring, { c with pc := .peek })
    else some (ring, c.finish 0)
  | .peek =>
    let tev := R.peek ring sizeofEvent
    if tev.length ≠ sizeofEvent then some (ring, c.finish (-1))
    else some (ring, { c with pc := .record (EventHeader.decode tev) })
  | .record tev =>
    if (UInt64.ofNat sizeofEvent + tev.size).toNat ≤ R.readSpace ring then
      some (ring, { c with pc := .advance tev })
    else some (ring, { c with pc := .space })
  | .advance tev => some (R.readAdvance ring sizeofEvent, { c with pc := .read tev })
  | .read tev =>
    let (ring, buffer) := R.read ring tev.size.toNat
    if buffer.length ≠ tev.size.toNat then some (ring, c.finish (-1))
    else
      let c : Consumer :=
        { c with delivered := c.delivered ++ [⟨tev.module, tev.time, tev.size, buffer⟩] }
      if stop then some (ring, c.finish 0) else some (ring, { c with pc := .space })

/-- A ring between a producing and a consuming thread. -/
structure Channel (ρ : Type) where
  ring : ρ
  producer : ProducerPc
  /-- Bytes written by the call in progress. -/
  wrote : ℕ
  returned : List Return
  consumer : Consumer

namespace Channel

/-- `return value` in `tjost_pipe_produce`. -/
def finish (s : Channel ρ) (r : Record) (value : ℤ) : Channel ρ :=
  { s with producer := .idle, returned := s.returned ++ [⟨r, value, s.wrote⟩] }

/-- The next step of `tjost_pipe_produce`. -/
def produceStep (s : Channel ρ) : Option (Channel ρ) :=
  match s.producer with
  | .idle => none
  | .query r =>
    if R.writeSpace s.ring < sizeofEvent + r.buf.length then some (s.finish r (-1))
    else some { s with producer := .header r }
  | .header r =>
    let (ring, n) := R.write s.ring r.header.encode
    let s := { s with ring, wrote := s.wrote + n }
    if n ≠ sizeofEvent then some (s.finish r (-1))
    else some { s with producer := .payload r }
  | .payload r =>
    let (ring, n) := R.write s.ring r.buf
    let s := { s with ring, wrote := s.wrote + n }
    if n ≠ r.buf.length then some (s.finish r (-1)) else some (s.finish r 0)

/-- A thread that is not in a call starts one, or a thread that is in a call takes
its next step. -/
inductive Label
  | produce (r : Record)
  | producer
  | consume
  | consumer (stop : Bool)
  deriving DecidableEq, Repr

def step (s : Channel ρ) : Label → Option (Channel ρ)
  | .produce r =>
    if s.producer = .idle ∧ r.Sized then some { s with producer := .query r, wrote := 0 }
    else none
  | .producer => s.produceStep R
  | .consume =>
    if s.consumer.pc = .idle then some { s with consumer := { s.consumer with pc := .space } }
    else none
  | .consumer stop =>
    (s.consumer.step R stop s.ring).map fun (ring, consumer) => { s with ring, consumer }

/-- The ring is empty and no call has been made. -/
def Init (s : Channel ρ) : Prop :=
  R.contents s.ring = [] ∧ s.producer = .idle ∧ s.returned = [] ∧ s.consumer = ⟨.idle, [], []⟩

def machine : Machine (Channel ρ) Label where
  init := Init R
  step := step R

/-- The calls that returned `0`. -/
def accepted (s : Channel ρ) : List Record :=
  (s.returned.filter fun x => x.value = 0).map Return.record

end Channel

/-! ### Framing -/

/-- The position of the consumer: the record it has taken but not passed on, and
the bytes of it that are still in the ring. `ahead` are the records behind that
one whose header is in the ring. -/
def ConsumerPc.At (pc : ConsumerPc) (contents : List UInt8) (ahead current : List Record)
    (held : List UInt8) : Prop :=
  match pc with
  | .idle | .space => current = [] ∧ held = []
  | .peek => (current = [] ∧ held = []) ∧ sizeofEvent ≤ contents.length
  | .record tev => (current = [] ∧ held = []) ∧ ∃ r, ahead.head? = some r ∧ tev = r.header
  | .advance tev => ∃ r, current = [r] ∧ held = r.bytes ∧ tev = r.header
  | .read tev => ∃ r, current = [r] ∧ held = r.buf ∧ tev = r.header

/-- **The framing.** `written` are the complete records so far, in order, and
`partly` is the record, if there is one, whose header is in the ring but not its
payload. -/
structure Framed (contents : List UInt8) (c : Consumer) (written partly : List Record) :
    Prop where
  sized : ∀ r ∈ written ++ partly, r.Sized
  nonempty : ∀ r ∈ partly, r.buf ≠ []
  partly_le : partly.length ≤ 1
  split : ∃ (taken current pending : List Record) (held : List UInt8),
    taken ++ current ++ pending = written ∧ c.delivered = taken.map Record.tuple ∧
      contents = held ++ pending.flatMap Record.bytes ++
        partly.flatMap (fun r => r.header.encode) ∧
      c.pc.At contents (pending ++ partly) current held

/-- More bytes and more records behind. -/
theorem ConsumerPc.At.mono {pc : ConsumerPc} {contents contents' : List UInt8}
    {ahead ahead' current : List Record} {held : List UInt8}
    (h : pc.At contents ahead current held) (hlen : contents.length ≤ contents'.length)
    (hhead : ∀ r, ahead.head? = some r → ahead'.head? = some r) :
    pc.At contents' ahead' current held := by
  cases pc with
  | idle => exact h
  | space => exact h
  | peek => exact ⟨h.1, h.2.trans hlen⟩
  | record tev =>
    obtain ⟨hempty, r, hr, htev⟩ := h
    exact ⟨hempty, r, hhead r hr, htev⟩
  | advance tev => exact h
  | read tev => exact h

namespace Framed

variable {R} {contents : List UInt8} {c : Consumer} {written partly : List Record} {r : Record}

theorem empty : Framed [] ⟨.idle, [], []⟩ [] [] where
  sized _ hr := absurd hr List.not_mem_nil
  nonempty _ hr := absurd hr List.not_mem_nil
  partly_le := Nat.zero_le _
  split := ⟨[], [], [], [], rfl, rfl, rfl, rfl, rfl⟩

/-- The write of the header of a record with a payload. -/
theorem append_header (h : Framed contents c written []) (hr : r.Sized) (hbuf : r.buf ≠ []) :
    Framed (contents ++ r.header.encode) c written [r] where
  sized x hx := by
    rcases List.mem_append.mp hx with hx | hx
    · exact h.sized x (List.mem_append_left _ hx)
    · rw [List.mem_singleton.mp hx]
      exact hr
  nonempty x hx := by
    rw [List.mem_singleton.mp hx]
    exact hbuf
  partly_le := le_refl _
  split := by
    obtain ⟨taken, current, pending, held, hwritten, hdelivered, hcontents, hat⟩ := h.split
    refine ⟨taken, current, pending, held, hwritten, hdelivered, ?_, hat.mono ?_ ?_⟩
    · rw [hcontents]
      simp
    · simp
    · intro x hx
      rw [List.append_nil] at hx
      rw [List.head?_append, hx]
      rfl

/-- The write of the payload that completes a record. -/
theorem append_payload (h : Framed contents c written [r]) :
    Framed (contents ++ r.buf) c (written ++ [r]) [] where
  sized x hx := h.sized x (by rwa [List.append_nil] at hx)
  nonempty x hx := absurd hx List.not_mem_nil
  partly_le := Nat.zero_le _
  split := by
    obtain ⟨taken, current, pending, held, hwritten, hdelivered, hcontents, hat⟩ := h.split
    refine ⟨taken, current, pending ++ [r], held, ?_, hdelivered, ?_, hat.mono ?_ ?_⟩
    · rw [← hwritten, List.append_assoc _ pending]
    · rw [hcontents]
      simp [Record.bytes]
    · simp
    · simp

/-- The write of the header of a record without a payload. -/
theorem append_empty (h : Framed contents c written []) (hr : r.Sized) (hbuf : r.buf = []) :
    Framed (contents ++ r.header.encode) c (written ++ [r]) [] where
  sized x hx := by
    rw [List.append_nil] at hx
    rcases List.mem_append.mp hx with hx | hx
    · exact h.sized x (List.mem_append_left _ hx)
    · rw [List.mem_singleton.mp hx]
      exact hr
  nonempty x hx := absurd hx List.not_mem_nil
  partly_le := Nat.zero_le _
  split := by
    obtain ⟨taken, current, pending, held, hwritten, hdelivered, hcontents, hat⟩ := h.split
    refine ⟨taken, current, pending ++ [r], held, ?_, hdelivered, ?_, hat.mono ?_ ?_⟩
    · rw [← hwritten, List.append_assoc _ pending]
    · rw [hcontents]
      simp [Record.bytes, hbuf]
    · simp
    · intro x hx
      rw [List.append_nil] at hx
      rw [List.append_nil, List.head?_append, hx]
      rfl

/-- A readable header is that of the record ahead. -/
theorem peek_header {pending : List Record}
    (hlen : sizeofEvent ≤ (pending.flatMap Record.bytes ++
      partly.flatMap fun r => r.header.encode).length) :
    ∃ r, (pending ++ partly).head? = some r ∧
      (pending.flatMap Record.bytes ++ partly.flatMap fun r => r.header.encode).take
        sizeofEvent = r.header.encode := by
  cases pending with
  | cons r pending =>
    refine ⟨r, rfl, ?_⟩
    rw [List.flatMap_cons, Record.bytes, List.append_assoc, List.append_assoc]
    exact List.take_left' (r.length_header)
  | nil =>
    cases partly with
    | cons r partly =>
      refine ⟨r, rfl, ?_⟩
      rw [List.flatMap_nil, List.nil_append, List.flatMap_cons]
      exact List.take_left' (r.length_header)
    | nil => exact absurd hlen (by decide)

/-- Ahead of the consumer there is a whole record, or at most a header. -/
theorem ahead_cases {pending : List Record} (hpartly : partly.length ≤ 1)
    (hr : (pending ++ partly).head? = some r) :
    (∃ rest, pending = r :: rest) ∨ pending = [] ∧ partly = [r] := by
  cases pending with
  | cons x rest =>
    obtain rfl : x = r := by simpa using hr
    exact Or.inl ⟨rest, rfl⟩
  | nil =>
    refine Or.inr ⟨rfl, ?_⟩
    cases partly with
    | nil => simp at hr
    | cons x rest =>
      obtain rfl : x = r := by simpa using hr
      have hrest : rest = [] := List.length_eq_zero_iff.mp (by simpa using hpartly)
      rw [hrest]

/-- The start of a call of the consumer. -/
theorem consume (h : Framed contents c written partly) (hidle : c.pc = .idle) :
    Framed contents { c with pc := .space } written partly := by
  obtain ⟨taken, current, pending, held, hwritten, hdelivered, hcontents, hat⟩ := h.split
  rw [hidle] at hat
  exact ⟨h.sized, h.nonempty, h.partly_le, taken, current, pending, held, hwritten, hdelivered,
    hcontents, hat⟩

/-- What is passed on is a prefix of what is written. -/
theorem delivered_prefix (h : Framed contents c written partly) :
    c.delivered <+: written.map Record.tuple := by
  obtain ⟨taken, current, pending, held, hwritten, hdelivered, -, -⟩ := h.split
  rw [← hwritten, hdelivered, List.append_assoc, List.map_append]
  exact List.prefix_append _ _

/-- Between two calls, an empty ring means that everything has been passed on. -/
theorem delivered_all (h : Framed contents c written partly) (hempty : contents = [])
    (hidle : c.pc = .idle) : c.delivered = written.map Record.tuple := by
  obtain ⟨taken, current, pending, held, hwritten, hdelivered, hcontents, hat⟩ := h.split
  rw [hidle] at hat
  obtain ⟨rfl, rfl⟩ := hat
  have hpending : pending = [] := by
    cases pending with
    | nil => rfl
    | cons r pending =>
      have hlen := congrArg List.length (hempty.symm.trans hcontents)
      simp [sizeofEvent] at hlen
      omega
  rw [← hwritten, hdelivered, hpending, List.append_nil, List.append_nil]

/-- **A step of the consumer** keeps the framing, frees room at most, and does not
end in an error. -/
theorem consumer_step {ring ring' : ρ} {c' : Consumer} {stop : Bool}
    (h : Framed (R.contents ring) c written partly)
    (hs : c.step R stop ring = some (ring', c')) :
    Framed (R.contents ring') c' written partly ∧
      (R.contents ring').length ≤ (R.contents ring).length ∧
      ∀ v ∈ c'.returned, v ∈ c.returned ∨ v = 0 := by
  obtain ⟨taken, current, pending, held, hwritten, hdelivered, hcontents, hat⟩ := h.split
  have hmem : ∀ v ∈ (c.finish 0).returned, v ∈ c.returned ∨ v = 0 := by
    intro v hv
    rcases List.mem_append.mp hv with hv | hv
    · exact Or.inl hv
    · exact Or.inr (List.mem_singleton.mp hv)
  obtain ⟨pc, delivered, returned⟩ := c
  cases pc with
  | idle => simp [Consumer.step] at hs
  | space =>
    obtain ⟨rfl, rfl⟩ := hat
    simp only [Consumer.step] at hs
    split at hs
    · next hspace =>
      obtain ⟨rfl, rfl⟩ := Prod.mk.inj (Option.some.inj hs)
      rw [R.readSpace_eq] at hspace
      exact ⟨⟨h.sized, h.nonempty, h.partly_le, taken, [], pending, [], hwritten, hdelivered,
        hcontents, ⟨rfl, rfl⟩, hspace⟩, le_refl _, fun v hv => Or.inl hv⟩
    · obtain ⟨rfl, rfl⟩ := Prod.mk.inj (Option.some.inj hs)
      exact ⟨⟨h.sized, h.nonempty, h.partly_le, taken, [], pending, [], hwritten, hdelivered,
        hcontents, rfl, rfl⟩, le_refl _, hmem⟩
  | peek =>
    -- at least a header is readable, so the peek is complete
    obtain ⟨⟨rfl, rfl⟩, hlen⟩ := hat
    rw [List.nil_append] at hcontents
    rw [hcontents] at hlen
    obtain ⟨r, hr, htake⟩ := peek_header hlen
    have hpeek : R.peek ring sizeofEvent = r.header.encode := by
      rw [R.peek_eq, hcontents, htake]
    simp only [Consumer.step, hpeek, Record.length_header, ne_eq, not_true_eq_false,
      if_false, EventHeader.decode_encode] at hs
    obtain ⟨rfl, rfl⟩ := Prod.mk.inj (Option.some.inj hs)
    exact ⟨⟨h.sized, h.nonempty, h.partly_le, taken, [], pending, [], hwritten, hdelivered,
      hcontents, ⟨rfl, rfl⟩, r, hr, rfl⟩, le_refl _, fun v hv => Or.inl hv⟩
  | record tev =>
    obtain ⟨⟨rfl, rfl⟩, r, hr, rfl⟩ := hat
    rw [List.nil_append] at hcontents
    -- the header may be that of the record that is being written
    have hsized : r.Sized := by
      rw [← hwritten] at h
      rcases List.mem_append.mp (List.mem_of_mem_head? hr) with hr | hr
      · exact h.sized r (List.mem_append_left _ (List.mem_append_right _ hr))
      · exact h.sized r (List.mem_append_right _ hr)
    simp only [Consumer.step, hsized.recordSize] at hs
    split at hs
    · next hspace =>
      obtain ⟨rfl, rfl⟩ := Prod.mk.inj (Option.some.inj hs)
      rw [R.readSpace_eq, hcontents] at hspace
      rcases ahead_cases h.partly_le hr with ⟨rest, rfl⟩ | ⟨rfl, rfl⟩
      · refine ⟨⟨h.sized, h.nonempty, h.partly_le, taken, [r], rest, r.bytes, ?_, hdelivered,
          ?_, r, rfl, rfl, rfl⟩, le_refl _, fun v hv => Or.inl hv⟩
        · rw [← hwritten]
          simp
        · rw [hcontents, List.flatMap_cons]
      · -- only a header is there, and the record has a payload
        have hbuf := h.nonempty r (List.mem_singleton_self r)
        have hpos : 0 < r.buf.length := List.length_pos_iff.mpr hbuf
        simp only [List.flatMap_nil, List.nil_append, List.flatMap_singleton,
          Record.length_header] at hspace
        omega
    · obtain ⟨rfl, rfl⟩ := Prod.mk.inj (Option.some.inj hs)
      exact ⟨⟨h.sized, h.nonempty, h.partly_le, taken, [], pending, [], hwritten, hdelivered,
        hcontents, rfl, rfl⟩, le_refl _, fun v hv => Or.inl hv⟩
  | advance tev =>
    obtain ⟨r, rfl, rfl, rfl⟩ := hat
    simp only [Consumer.step] at hs
    obtain ⟨rfl, rfl⟩ := Prod.mk.inj (Option.some.inj hs)
    -- the header is dropped, and the payload is held at the front
    have hfront : R.contents ring = r.header.encode ++ (r.buf ++
        (pending.flatMap Record.bytes ++ partly.flatMap fun r => r.header.encode)) := by
      rw [hcontents, Record.bytes, List.append_assoc, List.append_assoc]
    have hadvance := R.readAdvance_append hfront
    rw [r.length_header] at hadvance
    refine ⟨⟨h.sized, h.nonempty, h.partly_le, taken, [r], pending, r.buf, hwritten, hdelivered,
      ?_, r, rfl, rfl, rfl⟩, ?_, fun v hv => Or.inl hv⟩
    · rw [hadvance, List.append_assoc]
    · rw [hadvance, hfront]
      simp
  | read tev =>
    obtain ⟨r, rfl, rfl, rfl⟩ := hat
    have hsized : r.Sized := by
      refine h.sized r (List.mem_append_left _ ?_)
      rw [← hwritten]
      simp
    rw [List.append_assoc] at hcontents
    -- the payload is read as a whole, and the record is delivered
    obtain ⟨hrest, hread⟩ := R.read_append hcontents
    have hframed : ∀ pc, pc = .idle ∨ pc = .space → ∀ returned : List ℤ,
        Framed (R.contents (R.read ring r.buf.length).1)
          ⟨pc, delivered ++ [r.tuple], returned⟩ written partly := by
      intro pc hpc returned
      refine ⟨h.sized, h.nonempty, h.partly_le, taken ++ [r], [], pending, [], ?_, ?_, ?_, ?_⟩
      · rw [← hwritten, List.append_nil]
      · rw [List.map_append]
        exact congrArg (· ++ _) hdelivered
      · rw [hrest, List.nil_append]
      · rcases hpc with rfl | rfl
        · exact ⟨rfl, rfl⟩
        · exact ⟨rfl, rfl⟩
    have hle : (R.contents (R.read ring r.buf.length).1).length ≤ (R.contents ring).length := by
      rw [hrest, hcontents]
      simp
    simp only [Consumer.step, hsized.size, hread, ne_eq, not_true_eq_false, if_false] at hs
    split at hs
    · obtain ⟨rfl, rfl⟩ := Prod.mk.inj (Option.some.inj hs)
      exact ⟨hframed _ (Or.inl rfl) _, hle, hmem⟩
    · obtain ⟨rfl, rfl⟩ := Prod.mk.inj (Option.some.inj hs)
      exact ⟨hframed _ (Or.inr rfl) _, hle, fun v hv => Or.inl hv⟩

end Framed

/-! ### The invariant -/

/-- The record of the call in progress, if its last byte is in the ring. -/
def ProducerPc.complete : ProducerPc → List Record
  | .payload r => if r.buf = [] then [r] else []
  | _ => []

/-- The record of the call in progress, if its header is in the ring and its
payload is missing. -/
def ProducerPc.partly : ProducerPc → List Record
  | .payload r => if r.buf = [] then [] else [r]
  | _ => []

/-- The room that the call in progress has found, and what it has written. -/
def ProducerPc.Room (pc : ProducerPc) (writeSpace wrote : ℕ) : Prop :=
  match pc with
  | .idle => True
  | .query r => r.Sized ∧ wrote = 0
  | .header r => r.Sized ∧ wrote = 0 ∧ sizeofEvent + r.buf.length ≤ writeSpace
  | .payload r => wrote = sizeofEvent ∧ r.buf.length ≤ writeSpace

theorem ProducerPc.Room.mono {pc : ProducerPc} {space space' wrote : ℕ}
    (h : pc.Room space wrote) (hle : space ≤ space') : pc.Room space' wrote := by
  cases pc with
  | idle => exact h
  | query r => exact h
  | header r => exact ⟨h.1, h.2.1, h.2.2.trans hle⟩
  | payload r => exact ⟨h.1, h.2.trans hle⟩

/-- The call wrote its whole record and returned `0`, or wrote nothing and returned
`-1`. -/
def Return.Whole (x : Return) : Prop :=
  x.value = 0 ∧ x.wrote = sizeofEvent + x.record.buf.length ∨ x.value = -1 ∧ x.wrote = 0

namespace Channel

structure Inv (s : Channel ρ) : Prop where
  room : s.producer.Room (R.writeSpace s.ring) s.wrote
  framed : Framed (R.contents s.ring) s.consumer (s.accepted ++ s.producer.complete)
    s.producer.partly
  whole : ∀ x ∈ s.returned, x.Whole
  consumed : ∀ v ∈ s.consumer.returned, v = 0

variable {R} {s s' : Channel ρ} {r : Record}

theorem accepted_finish_zero (s : Channel ρ) (r : Record) :
    (s.finish r 0).accepted = s.accepted ++ [r] := by
  simp [accepted, finish]

theorem accepted_finish_neg (s : Channel ρ) (r : Record) :
    (s.finish r (-1)).accepted = s.accepted := by
  simp [accepted, finish]

theorem Init.inv (h : Init R s) : Inv R s := by
  obtain ⟨hring, hproducer, hreturned, hconsumer⟩ := h
  have hnone : s.accepted = [] := by rw [accepted, hreturned]; rfl
  refine ⟨by rw [hproducer]; trivial, ?_, ?_, ?_⟩
  · rw [hring, hproducer, hconsumer, hnone]
    exact Framed.empty
  · rw [hreturned]
    exact fun _ hx => absurd hx List.not_mem_nil
  · rw [hconsumer]
    exact fun _ hv => absurd hv List.not_mem_nil

/-- A payload write is complete, and the call returns `0`. -/
theorem payload_step (hi : Inv R s) (hpc : s.producer = .payload r) :
    ∃ ring, s.produceStep R = some
        (Channel.finish { s with ring := ring, wrote := sizeofEvent + r.buf.length } r 0) ∧
      R.contents ring = R.contents s.ring ++ r.buf := by
  obtain ⟨hwrote, hroom⟩ : s.wrote = sizeofEvent ∧ r.buf.length ≤ R.writeSpace s.ring := by
    have h := hi.room
    rwa [hpc] at h
  refine ⟨(R.write s.ring r.buf).1, ?_, R.contents_write_of_fits hroom⟩
  simp only [produceStep, hpc, R.write_count_of_fits hroom, ne_eq, not_true_eq_false, if_false,
    hwrote]

/-- **A step of the producer.** -/
theorem Inv.produceStep (hi : Inv R s) (h : s.produceStep R = some s') : Inv R s' := by
  cases hpc : s.producer with
  | idle => simp [Channel.produceStep, hpc] at h
  | query r =>
    have hroom := hi.room
    have hframed := hi.framed
    rw [hpc] at hroom hframed
    simp only [Channel.produceStep, hpc] at h
    split at h
    · -- no room: the call returns `-1`, and has written nothing
      obtain rfl := Option.some.inj h
      refine ⟨trivial, ?_, ?_, hi.consumed⟩
      · rw [accepted_finish_neg]
        exact hframed
      · intro x hx
        rcases List.mem_append.mp hx with hx | hx
        · exact hi.whole x hx
        · rw [List.mem_singleton.mp hx]
          exact Or.inr ⟨rfl, hroom.2⟩
    · next hspace =>
      obtain rfl := Option.some.inj h
      exact ⟨⟨hroom.1, hroom.2, Nat.le_of_not_lt hspace⟩, hframed, hi.whole, hi.consumed⟩
  | header r =>
    obtain ⟨hsized, hwrote, hroom⟩ :
        r.Sized ∧ s.wrote = 0 ∧ sizeofEvent + r.buf.length ≤ R.writeSpace s.ring := by
      have h := hi.room
      rwa [hpc] at h
    have hframed : Framed (R.contents s.ring) s.consumer (s.accepted ++ []) [] := by
      have h := hi.framed
      rwa [hpc] at h
    have hlen : r.header.encode.length + r.buf.length ≤ R.writeSpace s.ring := by
      rwa [Record.length_header]
    have hfit := Nat.le_trans (Nat.le_add_right _ _) hlen
    have hcount := R.write_count_of_fits hfit
    rw [Record.length_header] at hcount
    simp only [Channel.produceStep, hpc, hcount, ne_eq, not_true_eq_false, if_false] at h
    obtain rfl := Option.some.inj h
    refine ⟨⟨by rw [hwrote, Nat.zero_add], R.fits_after_write hlen⟩, ?_, hi.whole, hi.consumed⟩
    change Framed (R.contents (R.write s.ring r.header.encode).1) s.consumer
      (s.accepted ++ (ProducerPc.payload r).complete) (ProducerPc.payload r).partly
    rw [R.contents_write_of_fits hfit, ProducerPc.complete, ProducerPc.partly]
    rw [List.append_nil] at hframed
    -- a record without a payload is complete with its header
    by_cases hbuf : r.buf = []
    · rw [if_pos hbuf, if_pos hbuf]
      exact hframed.append_empty hsized hbuf
    · rw [if_neg hbuf, if_neg hbuf, List.append_nil]
      exact hframed.append_header hsized hbuf
  | payload r =>
    obtain ⟨ring, hstep, hcontents⟩ := payload_step hi hpc
    obtain rfl := Option.some.inj (hstep.symm.trans h)
    refine ⟨trivial, ?_, ?_, hi.consumed⟩
    · have hframed := hi.framed
      rw [hpc, ProducerPc.complete, ProducerPc.partly] at hframed
      rw [accepted_finish_zero]
      change Framed (R.contents ring) s.consumer (s.accepted ++ [r] ++ []) []
      rw [hcontents, List.append_nil]
      by_cases hbuf : r.buf = []
      · rw [if_pos hbuf, if_pos hbuf] at hframed
        rwa [hbuf, List.append_nil]
      · rw [if_neg hbuf, if_neg hbuf, List.append_nil] at hframed
        exact hframed.append_payload
    · intro x hx
      rcases List.mem_append.mp hx with hx | hx
      · exact hi.whole x hx
      · rw [List.mem_singleton.mp hx]
        exact Or.inl ⟨rfl, rfl⟩

/-- **A step of either thread.** -/
theorem Inv.step (hi : Inv R s) {l : Label} (h : Channel.step R s l = some s') : Inv R s' := by
  cases l with
  | produce r =>
    simp only [Channel.step] at h
    split at h
    · next hstart =>
      obtain ⟨hidle, hsized⟩ := hstart
      obtain rfl := Option.some.inj h
      have hframed := hi.framed
      rw [hidle] at hframed
      exact ⟨⟨hsized, rfl⟩, hframed, hi.whole, hi.consumed⟩
    · cases h
  | producer => exact hi.produceStep h
  | consume =>
    simp only [Channel.step] at h
    split at h
    · next hidle =>
      obtain rfl := Option.some.inj h
      exact ⟨hi.room, hi.framed.consume hidle, hi.whole, hi.consumed⟩
    · cases h
  | consumer stop =>
    obtain ⟨⟨ring, consumer⟩, hstep, rfl⟩ := Option.map_eq_some_iff.mp h
    obtain ⟨hframed, hle, hreturned⟩ := hi.framed.consumer_step hstep
    -- the room that the producer has found can only have grown
    refine ⟨hi.room.mono ?_, hframed, hi.whole, ?_⟩
    · rw [R.writeSpace_eq, R.writeSpace_eq]
      change _ ≤ ringbufSize - 1 - (R.contents ring).length
      omega
    · intro v hv
      exact (hreturned v hv).elim (hi.consumed v) id

theorem inv_of_reachable (hs : (machine R).Reachable s) : Inv R s := by
  refine hs.invariant (I := Inv R) (fun s h => Init.inv h) ?_
  intro s l s' hi h
  exact hi.step h

/-- **Pipe integrity.** -/
theorem machine_integrity (hs : (machine R).Reachable s) :
    s.consumer.delivered <+: (s.accepted ++ s.producer.complete).map Record.tuple ∧
      (R.contents s.ring = [] → s.consumer.pc = .idle →
        s.consumer.delivered = (s.accepted ++ s.producer.complete).map Record.tuple) ∧
      (∀ r, s.producer = .payload r →
        ∃ s', (machine R).step s .producer = some s' ∧ s'.accepted = s.accepted ++ [r]) ∧
      (∀ x ∈ s.returned, x.Whole) ∧ ∀ v ∈ s.consumer.returned, v = 0 := by
  have hi := inv_of_reachable hs
  refine ⟨hi.framed.delivered_prefix, fun hempty hidle => ?_, ?_, hi.whole, hi.consumed⟩
  · exact hi.framed.delivered_all hempty hidle
  · intro r hpc
    obtain ⟨ring, hstep, -⟩ := payload_step hi hpc
    exact ⟨_, hstep, accepted_finish_zero _ _⟩

/-- An empty pipe. -/
def start : Channel (ByteRing.Fifo ringbufSize) where
  ring := ByteRing.Fifo.empty ringbufSize ringbufSize_pos
  producer := .idle
  wrote := 0
  returned := []
  consumer := ⟨.idle, [], []⟩

theorem start_init : Init (ByteRing.fifo ringbufSize) start := ⟨rfl, rfl, rfl, rfl⟩

/-- The consumer starts between the header and the payload of an event and waits
for the payload. -/
theorem machine_integrity_start :
    ∃ s, (machine (ByteRing.fifo ringbufSize)).exec start
        [.produce ⟨⟨0, 0, 0, 0⟩, 1, 7, [42]⟩, .producer, .producer, .consume, .consumer false,
          .consumer false, .consumer false, .producer, .consumer false, .consumer false,
          .consumer false, .consumer false, .consumer false] = some s ∧
      s.consumer.delivered <+: (s.accepted ++ s.producer.complete).map Record.tuple ∧
      s.consumer.delivered = [⟨1, 7, 1, [42]⟩] := by
  have hrun : ((machine (ByteRing.fifo ringbufSize)).exec start
      [.produce ⟨⟨0, 0, 0, 0⟩, 1, 7, [42]⟩, .producer, .producer, .consume, .consumer false,
        .consumer false, .consumer false, .producer, .consumer false, .consumer false,
        .consumer false, .consumer false, .consumer false]).map
          (fun s => s.consumer.delivered) = some [⟨1, 7, 1, [42]⟩] := by
    decide +kernel
  obtain ⟨s, hs, hdelivered⟩ := Option.map_eq_some_iff.mp hrun
  exact ⟨s, hs, (machine_integrity ⟨start, _, start_init, hs⟩).1, hdelivered⟩

/-- **An event of size `0` overtakes its call.** Its record is complete with the
header, and the consumer passes it on before the call has returned. -/
theorem delivered_before_return :
    ∃ s, (machine (ByteRing.fifo ringbufSize)).exec start
        [.produce ⟨⟨0, 0, 0, 0⟩, 1, 7, []⟩, .producer, .producer, .consume, .consumer false,
          .consumer false, .consumer false, .consumer false, .consumer false] = some s ∧
      s.consumer.delivered = [⟨1, 7, 0, []⟩] ∧ s.returned = [] ∧
      ¬ s.consumer.delivered <+: s.accepted.map Record.tuple := by
  have hrun : ((machine (ByteRing.fifo ringbufSize)).exec start
      [.produce ⟨⟨0, 0, 0, 0⟩, 1, 7, []⟩, .producer, .producer, .consume, .consumer false,
        .consumer false, .consumer false, .consumer false, .consumer false]).map
          (fun s => (s.consumer.delivered, s.returned)) = some ([⟨1, 7, 0, []⟩], []) := by
    decide +kernel
  obtain ⟨s, hs, hobserved⟩ := Option.map_eq_some_iff.mp hrun
  obtain ⟨hdelivered, hreturned⟩ := Prod.mk.inj hobserved
  refine ⟨s, hs, hdelivered, hreturned, ?_⟩
  rw [hdelivered, accepted, hreturned]
  decide

end Channel

end Tjost
