import Mathlib.Data.List.Forall2
import Tjost.Modules.Outputs
import Tjost.Pipe.Channel

/-!
# The transmit ring of the network modules

`mod_net_process_out` writes records into `rb_tx` from JACK's thread, and the uv
loop sends them: `_next` takes the header of a record off the ring and hands its
payload to `osc_stream_send2` without copying it, and the payload is taken off
by `mod_net_send_cb` when the stream has sent it. Then `_next` runs again.
`_next` is also called on a wake-up (`mod_net_asio`), at any time.

`Outgoing.machine` interleaves the two threads, one ring operation a step. While
a payload is being sent it stands at the read position, so a wake-up in that time
makes `_next` take it for a header (`Outgoing.wake_up_splits`). The same
happens after a record that starts with neither `#` nor `/`, whose payload is
left in the ring.

`Outgoing.Alone` asks for neither. Under it the framing holds in every state
(`Outgoing.framing`): a call of `_next` starts at the boundary between two
records, and the sends are those of the records written so far, each once and in
order, up to the one the ring begins with.
-/

open Transition

namespace Tjost

namespace Net

/-- A call of `osc_stream_send2`: the header that `_next` has peeked, and the
vectors. -/
structure Send where
  tev : EventHeader
  msg : List (List UInt8)
  deriving DecidableEq, Repr

/-- Where the uv loop is in `_next`. -/
inductive NextPc
  | idle
  /-- Before the first test. -/
  | space
  /-- Before the peek of the header. -/
  | peek
  /-- Before the test for the whole record. -/
  | record (tev : EventHeader)
  /-- Before the header is taken off. -/
  | advance (tev : EventHeader)
  /-- Before the peek of the first character. -/
  | char (tev : EventHeader)
  /-- Before the read vector is sent. -/
  | vector (tev : EventHeader)
  deriving DecidableEq, Repr

/-- `rb_tx` between the two threads. -/
structure Outgoing (ρ : Type) where
  rbTx : ρ
  producer : ProducerPc
  next : NextPc
  /-- The payload lengths of the sends whose completion is outstanding. -/
  inFlight : List ℕ
  /-- The records that `process_out` has begun to write. -/
  written : List Record
  sent : List Send

variable {ρ σ : Type} (R : ByteRing ρ ringbufSize)

namespace Outgoing

/-- The next step of the append of a record in `mod_net_process_out`. -/
def produceStep (s : Outgoing ρ) : Option (Outgoing ρ) :=
  match s.producer with
  | .idle => none
  | .query r =>
    if R.writeSpace s.rbTx < sizeofEvent + r.buf.length then some { s with producer := .idle }
    else some { s with producer := .header r }
  | .header r =>
    some { s with
      rbTx := (R.write s.rbTx r.header.encode).1
      producer := .payload r
      written := s.written ++ [r] }
  | .payload r => some { s with rbTx := (R.write s.rbTx r.buf).1, producer := .idle }

/-- `size` bytes at the read position, in one vector or in two. -/
def vectors (size : ℕ) (vec : List UInt8 × List UInt8) : List (List UInt8) :=
  if size ≤ vec.1.length then [vec.1.take size]
  else [vec.1, vec.2.take (size - vec.1.length)]

/-- The next step of `_next`. `ch` is what the uninitialised character holds where
there is nothing to peek. The time tag is computed and not used. -/
def nextStep (ch : UInt8) (s : Outgoing ρ) : Option (Outgoing ρ) :=
  match s.next with
  | .idle => none
  | .space =>
    if sizeofEvent ≤ R.readSpace s.rbTx then some { s with next := .peek }
    else some { s with next := .idle }
  | .peek =>
    some { s with next := .record (EventHeader.decode (R.peek s.rbTx sizeofEvent)) }
  | .record tev =>
    if (UInt64.ofNat sizeofEvent + tev.size).toNat ≤ R.readSpace s.rbTx then
      some { s with next := .advance tev }
    else some { s with next := .idle }
  | .advance tev =>
    some { s with rbTx := R.readAdvance s.rbTx sizeofEvent, next := .char tev }
  -- the cases '#' and '/' do the same
  | .char tev =>
    if (R.peek s.rbTx 1).headD ch = 35 ∨ (R.peek s.rbTx 1).headD ch = 47 then
      some { s with next := .vector tev }
    else some { s with next := .idle }
  | .vector tev =>
    let size := tev.size.toUInt32.toNat
    some { s with
      next := .idle
      inFlight := s.inFlight ++ [size]
      sent := s.sent ++ [⟨tev, vectors size (R.getReadVector s.rbTx)⟩] }

inductive Label
  /-- `process_out` comes to an event. -/
  | event (r : Record)
  | producer
  /-- `mod_net_asio`. -/
  | asio
  /-- `mod_net_send_cb` of an outstanding send. -/
  | sendCb (i : ℕ)
  | next (ch : UInt8)
  deriving DecidableEq, Repr

def step (s : Outgoing ρ) : Label → Option (Outgoing ρ)
  | .event r =>
    if s.producer = .idle ∧ r.Sized then some { s with producer := .query r } else none
  | .producer => s.produceStep R
  | .asio => if s.next = .idle then some { s with next := .space } else none
  | .sendCb i =>
    match s.next, s.inFlight[i]? with
    | .idle, some len =>
      some { s with
        rbTx := R.readAdvance s.rbTx len
        inFlight := s.inFlight.eraseIdx i
        next := .space }
    | _, _ => none
  | .next ch => s.nextStep R ch

/-- Nothing has been written, and nobody is in a call. -/
def Init (s : Outgoing ρ) : Prop :=
  R.contents s.rbTx = [] ∧ s.producer = .idle ∧ s.next = .idle ∧ s.inFlight = [] ∧
    s.written = [] ∧ s.sent = []

def machine : Machine (Outgoing ρ) Label where
  init := Init R
  step := step R

end Outgoing

/-- The condition on the step of `_next` at `pc`, where `first` is the byte at the
read position. -/
def NextPc.Packet (pc : NextPc) (first : Option UInt8) : Prop :=
  match pc with
  | .char tev => tev.size ≠ 0 ∧ (first = some 35 ∨ first = some 47)
  | _ => True

instance NextPc.decidablePacket (first : Option UInt8) : ∀ pc : NextPc, Decidable (pc.Packet first)
  | .char _ => inferInstanceAs (Decidable (_ ∧ _))
  | .idle | .space | .peek | .record _ | .advance _ | .vector _ => instDecidableTrue

/-- **One in flight, and packets only.** The condition on a state and the step taken
in it: a wake-up finds no send in flight, and the payload of the record starts with
`#` or `/` when `_next` looks at it. -/
def Outgoing.Alone (s : Outgoing ρ) : Outgoing.Label → Prop
  | .asio => s.inFlight = []
  | .next _ => s.next.Packet (R.peek s.rbTx 1).head?
  | _ => True

instance Outgoing.decidableAlone (s : Outgoing ρ) : ∀ l, Decidable (s.Alone R l)
  | .asio => inferInstanceAs (Decidable (_ = _))
  | .next _ => inferInstanceAs (Decidable (s.next.Packet _))
  | .event _ | .producer | .sendCb _ => instDecidableTrue

/-! ### The invariant -/

/-- The send is that of the record. -/
def Send.Of (x : Send) (r : Record) : Prop := x.tev = r.header ∧ x.msg.flatten = r.buf

/-- What the append in progress is still to write of the last record. -/
def Outgoing.missing (s : Outgoing ρ) : List UInt8 :=
  match s.producer with
  | .payload r => r.buf
  | _ => []

/-- Where the read position is. `done` are the records that have been sent and
`pending` the others. -/
def NextPc.At (pc : NextPc) (inFlight : List ℕ) (contents missing : List UInt8)
    (done pending : List Record) : Prop :=
  match pc with
  | .idle =>
    (inFlight = [] ∧ contents ++ missing = pending.flatMap Record.bytes) ∨
      ∃ r, done.getLast? = some r ∧ inFlight = [r.buf.length] ∧
        r.buf.length ≤ contents.length ∧
        contents ++ missing = r.buf ++ pending.flatMap Record.bytes
  | .space => inFlight = [] ∧ contents ++ missing = pending.flatMap Record.bytes
  | .peek =>
    inFlight = [] ∧ contents ++ missing = pending.flatMap Record.bytes ∧
      sizeofEvent ≤ contents.length
  | .record tev =>
    inFlight = [] ∧ contents ++ missing = pending.flatMap Record.bytes ∧
      ∃ r, pending.head? = some r ∧ tev = r.header
  | .advance tev =>
    inFlight = [] ∧ contents ++ missing = pending.flatMap Record.bytes ∧
      ∃ r, pending.head? = some r ∧ tev = r.header ∧ r.bytes.length ≤ contents.length
  | .char tev | .vector tev =>
    inFlight = [] ∧ ∃ r rest, pending = r :: rest ∧ tev = r.header ∧
      r.buf.length ≤ contents.length ∧
      contents ++ missing = r.buf ++ rest.flatMap Record.bytes

/-- More records behind, and more bytes of them in the ring. -/
theorem NextPc.At.grow {pc : NextPc} {inFlight : List ℕ}
    {contents missing contents' missing' : List UInt8} {done pending more : List Record}
    (h : pc.At inFlight contents missing done pending)
    (hlen : contents.length ≤ contents'.length)
    (hmore : contents' ++ missing' = contents ++ missing ++ more.flatMap Record.bytes) :
    pc.At inFlight contents' missing' done (pending ++ more) := by
  have hahead : ∀ bs : List UInt8, ∀ rest : List Record,
      contents ++ missing = bs ++ rest.flatMap Record.bytes →
        contents' ++ missing' = bs ++ (rest ++ more).flatMap Record.bytes := by
    intro bs rest hrest
    rw [hmore, hrest, List.flatMap_append, List.append_assoc]
  -- new records come behind, so the first one stays
  have hhead : ∀ r, pending.head? = some r → (pending ++ more).head? = some r := by
    intro r hr
    rw [List.head?_append, hr]
    rfl
  have hvector : ∀ tev : EventHeader, (NextPc.vector tev).At inFlight contents missing done pending →
      (NextPc.vector tev).At inFlight contents' missing' done (pending ++ more) := by
    rintro tev ⟨hflight, r, rest, rfl, htev, hr, hrest⟩
    exact ⟨hflight, r, rest ++ more, rfl, htev, hr.trans hlen, hahead _ _ hrest⟩
  cases pc with
  | idle =>
    rcases h with ⟨hflight, hpending⟩ | ⟨r, hdone, hflight, hr, hpending⟩
    · exact Or.inl ⟨hflight, hahead [] _ hpending⟩
    · exact Or.inr ⟨r, hdone, hflight, hr.trans hlen, hahead _ _ hpending⟩
  | space => exact ⟨h.1, hahead [] _ h.2⟩
  | peek => exact ⟨h.1, hahead [] _ h.2.1, h.2.2.trans hlen⟩
  | record tev =>
    obtain ⟨hflight, hpending, r, hr, htev⟩ := h
    exact ⟨hflight, hahead [] _ hpending, r, hhead r hr, htev⟩
  | advance tev =>
    obtain ⟨hflight, hpending, r, hr, htev, hle⟩ := h
    exact ⟨hflight, hahead [] _ hpending, r, hhead r hr, htev, hle.trans hlen⟩
  | char tev => exact hvector tev h
  | vector tev => exact hvector tev h

namespace Outgoing

structure Inv (s : Outgoing ρ) : Prop where
  room : ∃ wrote, s.producer.Room (R.writeSpace s.rbTx) wrote
  sized : ∀ r ∈ s.written, r.Sized
  framed : ∃ done pending, s.written = done ++ pending ∧ List.Forall₂ Send.Of s.sent done ∧
    s.next.At s.inFlight (R.contents s.rbTx) s.missing done pending

variable {R} {s s' : Outgoing ρ}

theorem Init.inv (h : Init R s) : Inv R s := by
  obtain ⟨hring, hproducer, hnext, hflight, hwritten, hsent⟩ := h
  refine ⟨⟨0, ?_⟩, ?_, [], [], hwritten, ?_, ?_⟩
  · rw [hproducer]
    trivial
  · rw [hwritten]
    exact fun r hr => absurd hr List.not_mem_nil
  · rw [hsent]
    exact List.Forall₂.nil
  · rw [hnext, hring, hflight, missing, hproducer]
    exact Or.inl ⟨rfl, rfl⟩

/-! ### The steps -/

/-- **A step of `process_out`.** -/
theorem Inv.produceStep (hi : Inv R s) (h : s.produceStep R = some s') : Inv R s' := by
  obtain ⟨⟨wrote, hroom⟩, hsized, done, pending, hwritten, hsent, hat⟩ := hi
  rw [missing] at hat
  cases hpc : s.producer with
  | idle => simp [Outgoing.produceStep, hpc] at h
  | query r =>
    rw [hpc] at hroom hat
    simp only [Outgoing.produceStep, hpc] at h
    split at h
    · obtain rfl := Option.some.inj h
      exact ⟨⟨0, trivial⟩, hsized, done, pending, hwritten, hsent, hat⟩
    · next hspace =>
      obtain rfl := Option.some.inj h
      exact ⟨⟨0, hroom.1, rfl, Nat.le_of_not_lt hspace⟩, hsized, done, pending, hwritten, hsent,
        hat⟩
  | header r =>
    rw [hpc] at hroom hat
    obtain ⟨hr, -, hfits⟩ := hroom
    rw [← r.length_header] at hfits
    have hfit := Nat.le_trans (Nat.le_add_right _ _) hfits
    simp only [Outgoing.produceStep, hpc] at h
    obtain rfl := Option.some.inj h
    -- the record is pending from here on, with its payload still missing
    refine ⟨⟨sizeofEvent, rfl, R.fits_after_write hfits⟩, ?_, done, pending ++ [r], ?_, hsent,
      hat.grow ?_ ?_⟩
    · intro x hx
      rcases List.mem_append.mp hx with hx | hx
      · exact hsized x hx
      · rw [List.mem_singleton.mp hx]
        exact hr
    · rw [← List.append_assoc, ← hwritten]
    · rw [R.contents_write_of_fits hfit]
      simp
    · -- the payload counts as written with the header
      rw [R.contents_write_of_fits hfit]
      simp [missing, Record.bytes]
  | payload r =>
    rw [hpc] at hroom hat
    obtain ⟨-, hfit⟩ := hroom
    simp only [Outgoing.produceStep, hpc] at h
    obtain rfl := Option.some.inj h
    -- what was missing is in the ring now: the bytes ahead are the same
    have hgrown : s.next.At s.inFlight (R.contents (R.write s.rbTx r.buf).1) [] done
        (pending ++ []) := by
      refine hat.grow ?_ ?_
      · rw [R.contents_write_of_fits hfit]
        simp
      · rw [R.contents_write_of_fits hfit]
        simp
    rw [List.append_nil] at hgrown
    exact ⟨⟨0, trivial⟩, hsized, done, pending, hwritten, hsent, hgrown⟩

/-- A readable header is that of the first record ahead. -/
theorem peek_header {contents missing : List UInt8} {pending : List Record}
    (hahead : contents ++ missing = pending.flatMap Record.bytes)
    (hlen : sizeofEvent ≤ contents.length) :
    ∃ r, pending.head? = some r ∧ contents.take sizeofEvent = r.header.encode := by
  cases pending with
  | nil =>
    have hnil : contents = [] := (List.append_eq_nil_iff.mp hahead).1
    rw [hnil] at hlen
    exact absurd hlen (by decide)
  | cons r pending =>
    refine ⟨r, rfl, ?_⟩
    rw [← List.take_append_of_le_length hlen, hahead, List.flatMap_cons, Record.bytes,
      List.append_assoc]
    exact List.take_left' r.length_header

/-- Bytes that are in the ring are off it first. -/
theorem split_front {contents missing bs rest : List UInt8}
    (hahead : contents ++ missing = bs ++ rest) (hlen : bs.length ≤ contents.length) :
    ∃ tail, contents = bs ++ tail ∧ tail ++ missing = rest := by
  rcases List.append_eq_append_iff.mp hahead with ⟨cs, hbs, hmissing⟩ | ⟨cs, hcontents, hrest⟩
  · have hcs : cs = [] := by
      rw [hbs, List.length_append] at hlen
      exact List.length_eq_zero_iff.mp (by omega)
    rw [hcs, List.append_nil] at hbs
    rw [hcs, List.nil_append] at hmissing
    exact ⟨[], by rw [hbs, List.append_nil], hmissing⟩
  · exact ⟨cs, hcontents, hrest.symm⟩

/-- The vectors are the first `size` bytes, whether the ring wraps or not. -/
theorem flatten_vectors (size : ℕ) (vec : List UInt8 × List UInt8) :
    (vectors size vec).flatten = (vec.1 ++ vec.2).take size := by
  unfold vectors
  split
  · next hle => rw [List.take_append_of_le_length hle, List.flatten_singleton]
  · next hgt =>
    rw [List.take_append, List.take_of_length_le (Nat.le_of_not_le hgt)]
    simp

/-- The size of a record in the ring survives the conversion to 32 bits. -/
theorem size_of_fits {r : Record} {ring : ρ} (hr : r.Sized)
    (hle : r.buf.length ≤ (R.contents ring).length) :
    r.header.size.toUInt32.toNat = r.buf.length := by
  have hlt := R.contents_length_lt ring
  have hsize : ringbufSize < 2 ^ 32 := by decide
  rw [UInt64.toNat_toUInt32, hr.size]
  exact Nat.mod_eq_of_lt (by omega)

/-- Taking bytes off leaves more room. -/
theorem writeSpace_mono {ring ring' : ρ} {bs : List UInt8}
    (h : R.contents ring = bs ++ R.contents ring') :
    R.writeSpace ring ≤ R.writeSpace ring' := by
  rw [R.writeSpace_eq, R.writeSpace_eq, h, List.length_append]
  omega

/-- **A step of `_next`.** -/
theorem Inv.nextStep {ch : UInt8} (hi : Inv R s) (hg : s.Alone R (.next ch))
    (h : s.nextStep R ch = some s') : Inv R s' := by
  obtain ⟨⟨wrote, hroom⟩, hsized, done, pending, hwritten, hsent, hat⟩ := hi
  change s.next.Packet _ at hg
  cases hpc : s.next with
  | idle => simp [Outgoing.nextStep, hpc] at h
  | space =>
    rw [hpc] at hat
    simp only [Outgoing.nextStep, hpc] at h
    split at h
    · next hspace =>
      obtain rfl := Option.some.inj h
      rw [R.readSpace_eq] at hspace
      exact ⟨⟨wrote, hroom⟩, hsized, done, pending, hwritten, hsent, hat.1, hat.2, hspace⟩
    · obtain rfl := Option.some.inj h
      exact ⟨⟨wrote, hroom⟩, hsized, done, pending, hwritten, hsent, Or.inl hat⟩
  | peek =>
    rw [hpc] at hat
    obtain ⟨hflight, hahead, hlen⟩ := hat
    obtain ⟨r, hr, hpeek⟩ := peek_header hahead hlen
    simp only [Outgoing.nextStep, hpc] at h
    rw [R.peek_eq, hpeek, EventHeader.decode_encode] at h
    obtain rfl := Option.some.inj h
    exact ⟨⟨wrote, hroom⟩, hsized, done, pending, hwritten, hsent, hflight, hahead, r, hr, rfl⟩
  | record tev =>
    rw [hpc] at hat
    obtain ⟨hflight, hahead, r, hr, rfl⟩ := hat
    -- the test for the whole record computes its true size
    have hrsized : r.Sized := by
      refine hsized r ?_
      rw [hwritten]
      exact List.mem_append_right _ (List.mem_of_mem_head? hr)
    simp only [Outgoing.nextStep, hpc, hrsized.recordSize] at h
    split at h
    · next hspace =>
      obtain rfl := Option.some.inj h
      rw [R.readSpace_eq, ← r.length_bytes] at hspace
      exact ⟨⟨wrote, hroom⟩, hsized, done, pending, hwritten, hsent, hflight, hahead, r, hr, rfl,
        hspace⟩
    · obtain rfl := Option.some.inj h
      exact ⟨⟨wrote, hroom⟩, hsized, done, pending, hwritten, hsent, Or.inl ⟨hflight, hahead⟩⟩
  | advance tev =>
    rw [hpc] at hat
    obtain ⟨hflight, hahead, r, hr, rfl, hle⟩ := hat
    obtain ⟨rest, rfl⟩ := List.head?_eq_some_iff.mp hr
    rw [r.length_bytes] at hle
    rw [List.flatMap_cons, Record.bytes, List.append_assoc] at hahead
    -- the header goes off the ring, and the payload comes to its front
    obtain ⟨tail, hcontents, htail⟩ := split_front hahead (by rw [r.length_header]; omega)
    have hadvance := R.readAdvance_append hcontents
    rw [r.length_header] at hadvance
    simp only [Outgoing.nextStep, hpc] at h
    obtain rfl := Option.some.inj h
    refine ⟨⟨wrote, hroom.mono (writeSpace_mono (by rw [hadvance]; exact hcontents))⟩, hsized,
      done, r :: rest, hwritten, hsent, hflight, r, rest, rfl, rfl, ?_, ?_⟩
    · rw [hcontents, List.length_append, r.length_header] at hle
      change _ ≤ (R.contents (R.readAdvance s.rbTx sizeofEvent)).length
      rw [hadvance]
      omega
    · change R.contents (R.readAdvance s.rbTx sizeofEvent) ++ s.missing = _
      rw [hadvance]
      exact htail
  | char tev =>
    rw [hpc] at hat hg
    -- the record is a packet, so its first byte is the `#` or `/` that the test asks for
    obtain ⟨-, hfirst⟩ := hg
    have hpacket : (R.peek s.rbTx 1).headD ch = 35 ∨ (R.peek s.rbTx 1).headD ch = 47 := by
      rw [List.headD_eq_head?_getD]
      rcases hfirst with hfirst | hfirst
      · exact Or.inl (by rw [hfirst]; rfl)
      · exact Or.inr (by rw [hfirst]; rfl)
    simp only [Outgoing.nextStep, hpc] at h
    rw [if_pos hpacket] at h
    obtain rfl := Option.some.inj h
    exact ⟨⟨wrote, hroom⟩, hsized, done, pending, hwritten, hsent, hat⟩
  | vector tev =>
    rw [hpc] at hat
    obtain ⟨hflight, r, rest, rfl, rfl, hle, hahead⟩ := hat
    have hrsized : r.Sized := by
      refine hsized r ?_
      rw [hwritten]
      exact List.mem_append_right _ List.mem_cons_self
    obtain ⟨tail, hcontents, -⟩ := split_front hahead hle
    simp only [Outgoing.nextStep, hpc, size_of_fits hrsized hle] at h
    obtain rfl := Option.some.inj h
    -- the record is sent, but its payload stays in the ring until the completion
    refine ⟨⟨wrote, hroom⟩, hsized, done ++ [r], rest, ?_, ?_, Or.inr ⟨r, ?_, ?_, hle, hahead⟩⟩
    · rw [hwritten, List.append_assoc]
      rfl
    · refine List.rel_append hsent (List.Forall₂.cons ⟨rfl, ?_⟩ List.Forall₂.nil)
      rw [flatten_vectors, R.getReadVector_eq, hcontents, List.take_left]
    · rw [List.getLast?_concat]
    · change s.inFlight ++ [r.buf.length] = [r.buf.length]
      rw [hflight, List.nil_append]

/-- **A step of either thread.** -/
theorem Inv.step {l : Label} (hi : Inv R s) (hg : s.Alone R l)
    (h : Outgoing.step R s l = some s') : Inv R s' := by
  cases l with
  | event r =>
    obtain ⟨hroom, hsized, done, pending, hwritten, hsent, hat⟩ := hi
    simp only [Outgoing.step] at h
    split at h
    · next hstart =>
      obtain ⟨hidle, hr⟩ := hstart
      obtain rfl := Option.some.inj h
      rw [missing, hidle] at hat
      exact ⟨⟨0, hr, rfl⟩, hsized, done, pending, hwritten, hsent, hat⟩
    · cases h
  | producer => exact hi.produceStep h
  | asio =>
    obtain ⟨hroom, hsized, done, pending, hwritten, hsent, hat⟩ := hi
    have hflight : s.inFlight = [] := hg
    simp only [Outgoing.step] at h
    split at h
    · next hidle =>
      obtain rfl := Option.some.inj h
      rw [hidle] at hat
      -- no send is in flight, by the guard
      rcases hat with hat | ⟨r, -, hone, -⟩
      · exact ⟨hroom, hsized, done, pending, hwritten, hsent, hat⟩
      · rw [hflight] at hone
        cases hone
    · cases h
  | sendCb i =>
    obtain ⟨⟨wrote, hroom⟩, hsized, done, pending, hwritten, hsent, hat⟩ := hi
    simp only [Outgoing.step] at h
    split at h
    · next len hidle hlen =>
      obtain rfl := Option.some.inj h
      rw [hidle] at hat
      rcases hat with ⟨hnone, -⟩ | ⟨r, -, hone, hle, hahead⟩
      · rw [hnone] at hlen
        simp at hlen
      · -- the completion is that of the send in flight
        obtain ⟨rfl, rfl⟩ : i = 0 ∧ len = r.buf.length := by
          rw [hone, List.getElem?_singleton] at hlen
          split at hlen
          · next hi => exact ⟨hi, (Option.some.inj hlen).symm⟩
          · cases hlen
        obtain ⟨tail, hcontents, htail⟩ := split_front hahead hle
        have hadvance := R.readAdvance_append hcontents
        refine ⟨⟨wrote, hroom.mono (writeSpace_mono (by rw [hadvance]; exact hcontents))⟩, hsized,
          done, pending, hwritten, hsent, ?_, ?_⟩
        · change s.inFlight.eraseIdx 0 = []
          rw [hone]
          rfl
        · change R.contents (R.readAdvance s.rbTx r.buf.length) ++ s.missing = _
          rw [hadvance]
          exact htail
    · cases h
  | next ch => exact hi.nextStep hg h

/-! ### Whole cycles -/

/-- The steps of `process_out`. -/
def Label.ofProcessOut : Label → Bool
  | .event _ | .producer => true
  | _ => false

/-- The record that `process_out` writes for an event. -/
def record (P : Platform ρ σ) (tev : Event) : Record := ⟨P.stale tev, tev.module, tev.time, tev.buf⟩

/-- An `append` is a run of the producer. -/
theorem append_run {P : Platform ρ σ} {s : Outgoing ρ} (tev : Event) (hidle : s.producer = .idle)
    (hsized : (record P tev).Sized) :
    ∃ ks written, (∀ k ∈ ks, k.ofProcessOut) ∧
      (machine P.ring).exec s ks =
        some { s with rbTx := (append P tev s.rbTx).1, written := written } := by
  obtain ⟨rbTx, producer, next, inFlight, written, sent⟩ := s
  obtain rfl : producer = .idle := hidle
  have hevent : (machine P.ring).step ⟨rbTx, .idle, next, inFlight, written, sent⟩
      (.event (record P tev)) =
        some ⟨rbTx, .query (record P tev), next, inFlight, written, sent⟩ := if_pos ⟨rfl, hsized⟩
  unfold append
  by_cases hspace : P.ring.writeSpace rbTx < sizeofEvent + tev.size
  · refine ⟨[.event (record P tev), .producer], written, by simp [Label.ofProcessOut], ?_⟩
    have hfull : (machine P.ring).step ⟨rbTx, .query (record P tev), next, inFlight, written, sent⟩
        .producer = some ⟨rbTx, .idle, next, inFlight, written, sent⟩ := if_pos hspace
    rw [if_pos hspace, Machine.exec_cons, hevent, Option.bind_some, Machine.exec_cons, hfull]
    rfl
  · refine ⟨[.event (record P tev), .producer, .producer, .producer],
      written ++ [record P tev], by simp [Label.ofProcessOut], ?_⟩
    have hroom : (machine P.ring).step ⟨rbTx, .query (record P tev), next, inFlight, written, sent⟩
        .producer = some ⟨rbTx, .header (record P tev), next, inFlight, written, sent⟩ :=
      if_neg hspace
    rw [if_neg hspace, Machine.exec_cons, hevent, Option.bind_some, Machine.exec_cons, hroom]
    rfl

/-- **A cycle of `mod_net_process_out`** is a run of the machine. -/
theorem processOut_run {P : Platform ρ σ} {last nframes : NFrames} {s : Outgoing ρ}
    {o : OutState ρ} (hidle : s.producer = .idle) (hdat : o.dat = s.rbTx)
    (hsized : ∀ tev ∈ o.queue, sizeofEvent + tev.buf.length < 2 ^ 64) :
    ∃ ks written, (∀ k ∈ ks, k.ofProcessOut) ∧
      (machine P.ring).exec s ks =
        some { s with rbTx := (processOut P last nframes o).dat, written := written } := by
  have hrun : ∃ ks written, (∀ k ∈ ks, k.ofProcessOut) ∧
      (machine P.ring).exec s ks =
        some { s with rbTx := ((loop P last).run last nframes o).dat, written := written } := by
    refine dueLoop_invariant (I := fun o : OutState ρ => ∃ ks written,
      (∀ k ∈ ks, Label.ofProcessOut k) ∧
        (machine P.ring).exec s ks = some { s with rbTx := o.dat, written := written })
      _ ?_ o ⟨[], s.written, by simp, by rw [hdat]; rfl⟩
    rintro tev htev o' ⟨ks, written, hks, hexec⟩
    -- the body of the loop appends the event with its clamped time
    obtain ⟨ks', written', hks', hexec'⟩ :=
      append_run (P := P) (s := { s with rbTx := o'.dat, written := written })
        { tev with time := clamp last (loop P last).late tev.time } hidle
        (hsized tev htev)
    refine ⟨ks ++ ks', written', ?_, ?_⟩
    · intro k hk
      rcases List.mem_append.mp hk with hk | hk
      · exact hks k hk
      · exact hks' k hk
    · rw [Machine.exec_append, hexec]
      exact hexec'
  have hsame : (processOut P last nframes o).dat = ((loop P last).run last nframes o).dat := by
    unfold processOut
    dsimp only
    split <;> rfl
  rw [hsame]
  exact hrun

/-! ### The framing of the ring -/

/-- **Framing of the transmit ring.** While every wake-up finds no send in flight
and every record is a packet: the sends are those of the first of the written
records, in order and each once; a call of `_next` starts with the other records
ahead and no send in flight, and the header it takes is that of the first of them;
and a payload in flight stays at the read position. -/
theorem framing (hs : (machine R).ReachableUnder (Alone R) s) :
    ∃ done pending, s.written = done ++ pending ∧ List.Forall₂ Send.Of s.sent done ∧
      (s.next = .space → s.inFlight = [] ∧
        R.contents s.rbTx ++ s.missing = pending.flatMap Record.bytes) ∧
      (∀ tev, s.next = .record tev → ∃ r, pending.head? = some r ∧ tev = r.header) ∧
      (∀ len ∈ s.inFlight, ∃ r, done.getLast? = some r ∧ len = r.buf.length ∧
        (R.contents s.rbTx).take len = r.buf) ∧
      (s.next = .idle → s.inFlight = [] →
        R.contents s.rbTx ++ s.missing = pending.flatMap Record.bytes) := by
  have hi : Inv R s := by
    refine hs.invariant (I := Inv R) (fun s h => Init.inv h) ?_
    intro s l s' hi hg h
    exact hi.step hg h
  obtain ⟨-, -, done, pending, hwritten, hsent, hat⟩ := hi
  refine ⟨done, pending, hwritten, hsent, ?_, ?_, ?_, ?_⟩
  · intro hpc
    rw [hpc] at hat
    exact hat
  · intro tev hpc
    rw [hpc] at hat
    exact hat.2.2
  · intro len hlen
    have hnone : s.inFlight ≠ [] := List.ne_nil_of_mem hlen
    -- a send is in flight only while `_next` is not running
    cases hpc : s.next with
    | idle =>
      rw [hpc] at hat
      rcases hat with ⟨hflight, -⟩ | ⟨r, hdone, hflight, hle, hahead⟩
      · exact absurd hflight hnone
      · rw [hflight, List.mem_singleton] at hlen
        obtain ⟨tail, hcontents, -⟩ := split_front hahead hle
        refine ⟨r, hdone, hlen, ?_⟩
        rw [hlen, hcontents, List.take_left]
    | space => rw [hpc] at hat; exact absurd hat.1 hnone
    | peek => rw [hpc] at hat; exact absurd hat.1 hnone
    | record tev => rw [hpc] at hat; exact absurd hat.1 hnone
    | advance tev => rw [hpc] at hat; exact absurd hat.1 hnone
    | char tev => rw [hpc] at hat; exact absurd hat.1 hnone
    | vector tev => rw [hpc] at hat; exact absurd hat.1 hnone
  · intro hpc hflight
    rw [hpc] at hat
    rcases hat with ⟨-, hahead⟩ | ⟨r, -, hone, -⟩
    · exact hahead
    · rw [hflight] at hone
      cases hone

/-- An empty ring. -/
def start : Outgoing (ByteRing.Fifo ringbufSize) where
  rbTx := ByteRing.Fifo.empty ringbufSize ringbufSize_pos
  producer := .idle
  next := .idle
  inFlight := []
  written := []
  sent := []

theorem start_init : Init (ByteRing.fifo ringbufSize) start := ⟨rfl, rfl, rfl, rfl, rfl, rfl⟩

/-- `/abcdef ,hhhhs` with three zeros, the number `2^59` and the string `/xyz`. -/
def message : Record where
  stale := ⟨0, 0, 0, 0⟩
  module := 0
  time := 64
  buf := [47, 97, 98, 99, 100, 101, 102, 0, 44, 104, 104, 104, 104, 115, 0, 0] ++
    List.replicate 24 0 ++ [8, 0, 0, 0, 0, 0, 0, 0] ++ [47, 120, 121, 122, 0, 0, 0, 0]

/-- `/b`. -/
def message' : Record := ⟨⟨0, 0, 0, 0⟩, 0, 128, [47, 98, 0, 0, 44, 0, 0, 0]⟩

/-- The steps of an append, and those of a call of `_next` that sends. -/
def appendSteps (r : Record) : List Label := [.event r, .producer, .producer, .producer]

def sendSteps : List Label := List.replicate 6 (.next 0)

/-- Two messages, the second of which is written while the first one is sent. -/
theorem framing_start :
    ∃ s, (machine (ByteRing.fifo ringbufSize)).exec start
        (appendSteps message ++ [.asio] ++ sendSteps ++ appendSteps message' ++ [.sendCb 0] ++
          sendSteps) = some s ∧
      s.sent = [⟨message.header, [message.buf]⟩, ⟨message'.header, [message'.buf]⟩] ∧
      ∃ done pending, s.written = done ++ pending ∧ List.Forall₂ Send.Of s.sent done := by
  have halone : (machine (ByteRing.fifo ringbufSize)).Meets (Alone (ByteRing.fifo ringbufSize))
      start (appendSteps message ++ [.asio] ++ sendSteps ++ appendSteps message' ++ [.sendCb 0] ++
        sendSteps) := by
    decide +kernel
  have hrun : ((machine (ByteRing.fifo ringbufSize)).exec start
      (appendSteps message ++ [.asio] ++ sendSteps ++ appendSteps message' ++ [.sendCb 0] ++
        sendSteps)).map Outgoing.sent =
          some [⟨message.header, [message.buf]⟩, ⟨message'.header, [message'.buf]⟩] := by
    decide +kernel
  obtain ⟨s, hs, hsent⟩ := Option.map_eq_some_iff.mp hrun
  obtain ⟨done, pending, hwritten, hof, -⟩ := framing ⟨start, _, start_init, halone, hs⟩
  exact ⟨s, hs, hsent, done, pending, hwritten, hof⟩

/-- **A wake-up during a send.** `_next` takes the payload in flight for a header, and
sends the last eight bytes of the first message as a packet. -/
theorem wake_up_splits :
    ∃ s, (machine (ByteRing.fifo ringbufSize)).exec start
        (appendSteps message ++ [.asio] ++ sendSteps ++ appendSteps message' ++ [.asio] ++
          sendSteps) = some s ∧
      s.written = [message, message'] ∧
      s.sent.map (fun x => x.msg.flatten) = [message.buf, [47, 120, 121, 122, 0, 0, 0, 0]] ∧
      ¬ ∃ done pending, s.written = done ++ pending ∧ List.Forall₂ Send.Of s.sent done := by
  have hrun : ((machine (ByteRing.fifo ringbufSize)).exec start
      (appendSteps message ++ [.asio] ++ sendSteps ++ appendSteps message' ++ [.asio] ++
        sendSteps)).map (fun s => (s.written, s.sent.map fun x => x.msg.flatten)) =
          some ([message, message'], [message.buf, [47, 120, 121, 122, 0, 0, 0, 0]]) := by
    decide +kernel
  obtain ⟨s, hs, hobserved⟩ := Option.map_eq_some_iff.mp hrun
  obtain ⟨hwritten, hsent⟩ := Prod.mk.inj hobserved
  refine ⟨s, hs, hwritten, hsent, ?_⟩
  rintro ⟨done, pending, hdone, hof⟩
  -- two sends are those of two records, so `done` would be both of them
  have hpayloads : s.sent.map (fun x => x.msg.flatten) = done.map Record.buf := by
    refine List.forall₂_eq_eq_eq ▸ ?_
    rw [List.forall₂_map_left_iff, List.forall₂_map_right_iff]
    exact hof.imp fun x r h => h.2
  rw [hsent] at hpayloads
  have hprefix : done <+: [message, message'] := by
    rw [← hwritten, hdone]
    exact List.prefix_append _ _
  have htwo := hprefix.eq_of_length (by
    have hlen := congrArg List.length hpayloads
    simpa using hlen.symm)
  rw [htwo] at hpayloads
  revert hpayloads
  decide

end Outgoing

end Net

end Tjost
