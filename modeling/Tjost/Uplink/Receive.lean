import Mathlib.Logic.Function.Basic
import Tjost.Pipe.Channel

/-!
# The receive pipe of the uplinks

`pipe_uplink_rx` has two producing threads: JACK's, which runs the notification
callbacks, and the uv loop, which answers `/jack/ports` and `/jack/connections`.
Both build their packet in the one buffer `buf_rx` and push it from there with
`tjost_uplink_rx_push`; `tjost_uplink_rx_drain` is the consumer.

A push is three ring operations (query, header, payload), and nothing keeps two
pushes apart. If the other thread builds a packet before the payload is written, be it
one that does not fit and is never pushed, the record gets the bytes of the other packet
(`UplinkRx.mixed_record`); if it
writes into the ring between a header and its payload, or if the room that a push
has found is used by the other one, the framing is gone.

`UplinkRx.Apart` asks that none of this happens. Under it the ring is framed as a
`Channel` with one producer is (`UplinkRx.Inv`), whichever thread moves, and the
drain obtains exactly the accepted records (`UplinkRx.drain_integrity`).
-/

open Transition

namespace Tjost

/-- The threads that push. -/
inductive Pusher
  /-- JACK's thread, in a notification callback. -/
  | notify
  /-- The uv loop, in a reply. -/
  | loop
  deriving DecidableEq, Repr

def Pusher.other : Pusher → Pusher
  | .notify => .loop
  | .loop => .notify

theorem Pusher.eq_or_eq_other (t u : Pusher) : u = t ∨ u = t.other := by
  cases t <;> cases u <;> decide

/-- A packet for `tjost_uplink_rx_push`, with the module it is for. -/
structure Push where
  stale : Stale
  module : ModulePtr
  packet : List UInt8
  deriving DecidableEq, Repr

/-- A packet is an OSC message in `buf_rx`: it has a path, and it fits. -/
def Push.Valid (p : Push) : Prop :=
  p.packet ≠ [] ∧ p.packet.length ≤ bufSize

instance (p : Push) : Decidable p.Valid := inferInstanceAs (Decidable (_ ∧ _))

/-- The record that the push is to write. Its time is `0`. -/
def Push.record (p : Push) : Record := ⟨p.stale, p.module, 0, p.packet⟩

/-- Where the `tjost_pipe_produce` of a push is. -/
inductive PushPc
  | idle
  | query (p : Push)
  | header (p : Push)
  | payload (p : Push)
  deriving DecidableEq, Repr

/-- The header is in the ring and the payload is missing. -/
def PushPc.writing : PushPc → Bool
  | .payload _ => true
  | _ => false

/-- The receive pipe, its two producers, their buffer and its consumer. -/
structure UplinkRx (ρ : Type) where
  ring : ρ
  bufRx : List UInt8
  pusher : Pusher → PushPc
  /-- The pushes whose `tjost_pipe_produce` returned `0`, in that order. -/
  accepted : List Push
  consumer : Consumer

variable {ρ : Type} (R : ByteRing ρ ringbufSize)

namespace UplinkRx

/-- Build the packet at the start of `buf_rx`. -/
def build (packet bufRx : List UInt8) : List UInt8 :=
  packet ++ bufRx.drop packet.length

def setPusher (s : UplinkRx ρ) (t : Pusher) (pc : PushPc) : UplinkRx ρ :=
  { s with pusher := Function.update s.pusher t pc }

/-- The next step of a push. Its payload is what is in `buf_rx` then. -/
def pushStep (s : UplinkRx ρ) (t : Pusher) : Option (UplinkRx ρ) :=
  match s.pusher t with
  | .idle => none
  | .query p =>
    if R.writeSpace s.ring < sizeofEvent + p.packet.length then some (s.setPusher t .idle)
    else some (s.setPusher t (.header p))
  | .header p =>
    let (ring, n) := R.write s.ring p.record.header.encode
    if n ≠ sizeofEvent then some ({ s with ring }.setPusher t .idle)
    else some ({ s with ring }.setPusher t (.payload p))
  | .payload p =>
    let (ring, n) := R.write s.ring (s.bufRx.take p.packet.length)
    if n ≠ p.packet.length then some ({ s with ring }.setPusher t .idle)
    else some ({ s with ring, accepted := s.accepted ++ [p] }.setPusher t .idle)

inductive Label
  /-- Build a packet and start to push it. -/
  | push (t : Pusher) (p : Push)
  /-- Build a packet that does not fit. It is not pushed, and what has been written of it
  stays in `buf_rx`. -/
  | overflow (t : Pusher) (written : List UInt8)
  | pusher (t : Pusher)
  /-- Start a `tjost_uplink_rx_drain`. -/
  | drain
  | consumer
  deriving DecidableEq, Repr

def step (s : UplinkRx ρ) : Label → Option (UplinkRx ρ)
  | .push t p =>
    if s.pusher t = .idle ∧ p.Valid then
      some ({ s with bufRx := build p.packet s.bufRx }.setPusher t (.query p))
    else none
  | .overflow t written =>
    if s.pusher t = .idle ∧ written.length ≤ bufSize then
      some { s with bufRx := build written s.bufRx }
    else none
  | .pusher t => s.pushStep R t
  | .drain =>
    if s.consumer.pc = .idle then some { s with consumer := { s.consumer with pc := .space } }
    else none
  -- `_tjost_uplink_rx_drain_sched` answers `0`
  | .consumer =>
    (s.consumer.step R false s.ring).map fun (ring, consumer) => { s with ring, consumer }

/-- The pipe is empty and nobody is in a call. -/
def Init (s : UplinkRx ρ) : Prop :=
  R.contents s.ring = [] ∧ s.bufRx.length = bufSize ∧ (∀ t, s.pusher t = .idle) ∧
    s.accepted = [] ∧ s.consumer = ⟨.idle, [], []⟩

def machine : Machine (UplinkRx ρ) Label where
  init := Init R
  step := step R

end UplinkRx

/-- The condition on the step of a push at `pc`, where the other one is at `other`.
A header is written only while the other push is not between its header and its
payload, unless the ring is full, so that nothing is written; what is written
fits; and a payload is written only while `buf_rx` still holds the packet. -/
def PushPc.Apart (pc : PushPc) (writeSpace : ℕ) (bufRx : List UInt8) (other : PushPc) : Prop :=
  match pc with
  | .header _ => writeSpace = 0 ∨ sizeofEvent ≤ writeSpace ∧ other.writing = false
  | .payload p => p.packet.length ≤ writeSpace ∧ bufRx.take p.packet.length = p.packet
  | _ => True

instance PushPc.decidableApart (writeSpace : ℕ) (bufRx : List UInt8) (other : PushPc) :
    ∀ pc : PushPc, Decidable (pc.Apart writeSpace bufRx other)
  | .idle | .query _ => instDecidableTrue
  | .header _ => inferInstanceAs (Decidable (_ ∨ _))
  | .payload _ => inferInstanceAs (Decidable (_ ∧ _))

namespace UplinkRx

/-- **Pushes apart.** The condition on a state and the step taken in it. -/
def Apart (s : UplinkRx ρ) : Label → Prop
  | .pusher t => (s.pusher t).Apart (R.writeSpace s.ring) s.bufRx (s.pusher t.other)
  | _ => True

instance decidableApart (s : UplinkRx ρ) : ∀ l, Decidable (Apart R s l)
  | .pusher t => inferInstanceAs (Decidable ((s.pusher t).Apart _ _ _))
  | .push .. | .overflow .. | .drain | .consumer => instDecidableTrue

/-! ### The invariant -/

/-- `partly` is the record of the push, if there is one, that has written its
header. -/
def Writing (pusher : Pusher → PushPc) (partly : List Record) : Prop :=
  (partly = [] ∧ ∀ t p, pusher t ≠ .payload p) ∨
    ∃ t p, pusher t = .payload p ∧ partly = [p.record] ∧
      ∀ t' p', pusher t' = .payload p' → t' = t

/-- The ring is framed, with the payload of at most one push missing. -/
structure Inv (s : UplinkRx ρ) : Prop where
  valid : ∀ t p, s.pusher t = .query p ∨ s.pusher t = .header p → p.Valid
  framed : ∃ partly, Framed (R.contents s.ring) s.consumer (s.accepted.map Push.record) partly ∧
    Writing s.pusher partly

end UplinkRx

theorem Push.Valid.sized {p : Push} (h : p.Valid) : p.record.Sized := by
  have hle := h.2
  have hbuf : bufSize < 2 ^ 64 - sizeofEvent := by decide
  change sizeofEvent + p.packet.length < 2 ^ 64
  omega

namespace UplinkRx

variable {R} {s s' : UplinkRx ρ} {t : Pusher} {pc : PushPc} {p : Push} {partly : List Record}

/-- A move between two places without a header written. -/
theorem Writing.update {pusher : Pusher → PushPc} (h : Writing pusher partly)
    (hold : ∀ p, pusher t ≠ .payload p) (hnew : ∀ p, pc ≠ .payload p) :
    Writing (Function.update pusher t pc) partly := by
  have hsame : ∀ t' p,
      Function.update pusher t pc t' = .payload p ↔ pusher t' = .payload p := by
    intro t' p
    by_cases ht : t' = t
    · rw [ht, Function.update_self]
      exact iff_of_false (hnew p) (hold p)
    · rw [Function.update_of_ne ht]
  unfold Writing
  simp only [ne_eq, hsame]
  exact h

/-- A push writes its header while no other one has. -/
theorem Writing.begin {pusher : Pusher → PushPc} (h : ∀ t p, pusher t ≠ .payload p) :
    Writing (Function.update pusher t (.payload p)) [p.record] := by
  refine Or.inr ⟨t, p, Function.update_self .., rfl, ?_⟩
  intro t' p' ht'
  by_contra hne
  rw [Function.update_of_ne hne] at ht'
  exact h t' p' ht'

/-- The push that has written its header is the only one. -/
theorem Writing.of_payload {pusher : Pusher → PushPc} (h : Writing pusher partly)
    (ht : pusher t = .payload p) :
    partly = [p.record] ∧ Writing (Function.update pusher t .idle) [] := by
  rcases h with ⟨-, hnone⟩ | ⟨t', p', ht', rfl, honly⟩
  · exact absurd ht (hnone t p)
  · obtain rfl := honly t p ht
    obtain rfl : p = p' := by simpa using ht.symm.trans ht'
    refine ⟨rfl, Or.inl ⟨rfl, ?_⟩⟩
    intro u q hu
    by_cases hut : u = t
    · rw [hut, Function.update_self] at hu
      cases hu
    · rw [Function.update_of_ne hut] at hu
      exact hut (honly u q hu)

theorem Init.inv (h : Init R s) : Inv R s := by
  obtain ⟨hring, -, hidle, haccepted, hconsumer⟩ := h
  refine ⟨?_, [], ?_, Or.inl ⟨rfl, ?_⟩⟩
  · intro t p ht
    rw [hidle t] at ht
    simp at ht
  · rw [hring, haccepted, hconsumer]
    exact Framed.empty
  · intro t p ht
    rw [hidle t] at ht
    cases ht

/-- The other threads' packets after a thread has moved. -/
theorem valid_update (h : ∀ t p, s.pusher t = .query p ∨ s.pusher t = .header p → p.Valid)
    (hpc : ∀ p, pc = .query p ∨ pc = .header p → p.Valid) (t' : Pusher) (p : Push)
    (ht' : Function.update s.pusher t pc t' = .query p ∨
      Function.update s.pusher t pc t' = .header p) : p.Valid := by
  by_cases hne : t' = t
  · rw [hne, Function.update_self] at ht'
    exact hpc p ht'
  · rw [Function.update_of_ne hne] at ht'
    exact h t' p ht'

/-- **A step of a push.** -/
theorem Inv.pushStep (hi : Inv R s) (hg : Apart R s (.pusher t))
    (h : s.pushStep R t = some s') : Inv R s' := by
  obtain ⟨hvalid, partly, hframed, hwriting⟩ := hi
  have hidle : ∀ q, PushPc.idle = .query q ∨ PushPc.idle = .header q → q.Valid := by simp
  simp only [Apart] at hg
  cases hpc : s.pusher t with
  | idle => simp [UplinkRx.pushStep, hpc] at h
  | query p =>
    have hpayload : ∀ q, s.pusher t ≠ .payload q := by simp [hpc]
    simp only [UplinkRx.pushStep, hpc] at h
    split at h
    · obtain rfl := Option.some.inj h
      exact ⟨valid_update hvalid hidle, partly, hframed, hwriting.update hpayload (by simp)⟩
    · obtain rfl := Option.some.inj h
      refine ⟨valid_update hvalid ?_, partly, hframed, hwriting.update hpayload (by simp)⟩
      intro q hq
      obtain rfl : p = q := by simpa using hq
      exact hvalid t p (Or.inl hpc)
  | header p =>
    have hp : p.Valid := hvalid t p (Or.inr hpc)
    have hpayload : ∀ q, s.pusher t ≠ .payload q := by simp [hpc]
    rw [hpc] at hg
    simp only [UplinkRx.pushStep, hpc] at h
    rcases hg with hfull | ⟨hfit, hother⟩
    · -- nothing is written, and the call returns `-1`
      have hcount : (R.write s.ring p.record.header.encode).2 = 0 := by
        rw [R.write_count, hfull, Nat.min_zero]
      have hring : R.contents (R.write s.ring p.record.header.encode).1 = R.contents s.ring := by
        rw [R.contents_write, hfull, List.take_zero, List.append_nil]
      rw [hcount, if_pos (by decide)] at h
      obtain rfl := Option.some.inj h
      refine ⟨valid_update hvalid hidle, partly, ?_, hwriting.update hpayload (by simp)⟩
      rw [← hring] at hframed
      exact hframed
    · -- no other push is between its header and its payload
      have hnone : ∀ t' p', s.pusher t' ≠ .payload p' := by
        intro t' p' ht'
        rcases Pusher.eq_or_eq_other t t' with rfl | rfl
        · exact hpayload p' ht'
        · rw [ht'] at hother
          cases hother
      rw [← p.record.length_header] at hfit
      have hcount := R.write_count_of_fits hfit
      rw [Record.length_header] at hcount
      rw [hcount, if_neg (by simp)] at h
      obtain rfl := Option.some.inj h
      refine ⟨valid_update hvalid (by simp), [p.record], ?_, Writing.begin hnone⟩
      have hpartly : partly = [] := by
        rcases hwriting with ⟨hpartly, -⟩ | ⟨t', p', ht', -⟩
        · exact hpartly
        · exact absurd ht' (hnone t' p')
      rw [hpartly] at hframed
      have happend := hframed.append_header hp.sized hp.1
      rw [← R.contents_write_of_fits hfit] at happend
      exact happend
  | payload p =>
    rw [hpc] at hg
    obtain ⟨hfit, hbuf⟩ := hg
    -- the record in the making is this one
    obtain ⟨rfl, hdone⟩ := hwriting.of_payload hpc
    simp only [UplinkRx.pushStep, hpc, hbuf] at h
    rw [R.write_count_of_fits hfit, if_neg (by simp)] at h
    obtain rfl := Option.some.inj h
    refine ⟨valid_update hvalid hidle, [], ?_, hdone⟩
    have happend := hframed.append_payload
    change Framed (R.contents (R.write s.ring p.packet).1) s.consumer
      ((s.accepted ++ [p]).map Push.record) []
    rw [R.contents_write_of_fits hfit, List.map_append]
    exact happend

/-- **A step of any thread.** -/
theorem Inv.step {l : Label} (hi : Inv R s) (hg : Apart R s l)
    (h : UplinkRx.step R s l = some s') : Inv R s' := by
  cases l with
  | push t p =>
    simp only [UplinkRx.step] at h
    split at h
    · next hstart =>
      obtain ⟨hidle, hp⟩ := hstart
      obtain rfl := Option.some.inj h
      obtain ⟨hvalid, partly, hframed, hwriting⟩ := hi
      refine ⟨valid_update hvalid ?_, partly, hframed, hwriting.update (by simp [hidle]) (by simp)⟩
      intro q hq
      obtain rfl : p = q := by simpa using hq
      exact hp
    · cases h
  | overflow t written =>
    -- the ring and the pushes under way stay
    simp only [UplinkRx.step] at h
    split at h
    · obtain rfl := Option.some.inj h
      exact ⟨hi.valid, hi.framed⟩
    · cases h
  | pusher t => exact hi.pushStep hg h
  | drain =>
    simp only [UplinkRx.step] at h
    split at h
    · next hidle =>
      obtain rfl := Option.some.inj h
      obtain ⟨hvalid, partly, hframed, hwriting⟩ := hi
      exact ⟨hvalid, partly, hframed.consume hidle, hwriting⟩
    · cases h
  | consumer =>
    obtain ⟨⟨ring, consumer⟩, hstep, rfl⟩ := Option.map_eq_some_iff.mp h
    obtain ⟨hvalid, partly, hframed, hwriting⟩ := hi
    exact ⟨hvalid, partly, (hframed.consumer_step hstep).1, hwriting⟩

/-- **Integrity of the receive pipe.** While the pushes are apart, the drain
obtains the accepted packets, in order and each with its own module, and all of
them once it has emptied the ring. -/
theorem drain_integrity (hs : (machine R).ReachableUnder (Apart R) s) :
    s.consumer.delivered <+: s.accepted.map (fun p => p.record.tuple) ∧
      (R.contents s.ring = [] → s.consumer.pc = .idle →
        s.consumer.delivered = s.accepted.map fun p => p.record.tuple) := by
  have hi : Inv R s := by
    refine hs.invariant (I := Inv R) (fun s h => Init.inv h) ?_
    intro s l s' hi hg h
    exact hi.step hg h
  obtain ⟨-, partly, hframed, -⟩ := hi
  have hmap : s.accepted.map (fun p => p.record.tuple) =
      (s.accepted.map Push.record).map Record.tuple := by
    rw [List.map_map]
    rfl
  rw [hmap]
  exact ⟨hframed.delivered_prefix, hframed.delivered_all⟩

/-- An empty pipe. -/
def start : UplinkRx (ByteRing.Fifo ringbufSize) where
  ring := ByteRing.Fifo.empty ringbufSize ringbufSize_pos
  bufRx := List.replicate bufSize 0
  pusher _ := .idle
  accepted := []
  consumer := ⟨.idle, [], []⟩

theorem start_init : Init (ByteRing.fifo ringbufSize) start :=
  ⟨rfl, List.length_replicate, fun _ => rfl, rfl, rfl⟩

/-- A broadcast of the notification thread. -/
def notification : Push := ⟨⟨0, 0, 0, 0⟩, 0, [47, 110, 0, 0]⟩

/-- A reply to the module `1`. -/
def reply : Push := ⟨⟨0, 0, 0, 0⟩, 1, [47, 112, 0, 0]⟩

/-- The two pushes one after the other, with the drain at work between them. -/
def apartRun : List Label :=
  [.push .notify notification, .pusher .notify, .pusher .notify, .drain, .consumer,
    .pusher .notify, .consumer, .push .loop reply, .consumer, .pusher .loop, .consumer,
    .pusher .loop, .consumer, .pusher .loop]

theorem drain_integrity_start :
    ∃ s, (machine (ByteRing.fifo ringbufSize)).exec start apartRun = some s ∧
      s.accepted = [notification, reply] ∧
      s.consumer.delivered <+: s.accepted.map (fun p => p.record.tuple) ∧
      s.consumer.delivered = [notification.record.tuple] := by
  have hapart : (machine (ByteRing.fifo ringbufSize)).Meets (Apart (ByteRing.fifo ringbufSize))
      start apartRun := by
    decide +kernel
  have hrun : ((machine (ByteRing.fifo ringbufSize)).exec start apartRun).map
      (fun s => (s.accepted, s.consumer.delivered)) =
        some ([notification, reply], [notification.record.tuple]) := by
    decide +kernel
  obtain ⟨s, hs, hobserved⟩ := Option.map_eq_some_iff.mp hrun
  obtain ⟨haccepted, hdelivered⟩ := Prod.mk.inj hobserved
  exact ⟨s, hs, haccepted, (drain_integrity ⟨start, _, start_init, hapart, hs⟩).1, hdelivered⟩

/-- **A record of two pushes.** The reply is built into `buf_rx` between the
notification's header and its payload. The drain obtains the header of the
notification with the payload of the reply. -/
theorem mixed_record :
    ∃ s, (machine (ByteRing.fifo ringbufSize)).exec start
        [.push .notify notification, .pusher .notify, .pusher .notify, .push .loop reply,
          .pusher .notify, .drain, .consumer, .consumer, .consumer, .consumer, .consumer,
          .consumer] = some s ∧
      s.accepted = [notification] ∧
      s.consumer.delivered = [{ notification.record.tuple with buf := reply.packet }] ∧
      ¬ s.consumer.delivered <+: s.accepted.map fun p => p.record.tuple := by
  have hrun : ((machine (ByteRing.fifo ringbufSize)).exec start
      [.push .notify notification, .pusher .notify, .pusher .notify, .push .loop reply,
        .pusher .notify, .drain, .consumer, .consumer, .consumer, .consumer, .consumer,
        .consumer]).map (fun s => (s.accepted, s.consumer.delivered)) =
          some ([notification], [{ notification.record.tuple with buf := reply.packet }]) := by
    decide +kernel
  obtain ⟨s, hs, hobserved⟩ := Option.map_eq_some_iff.mp hrun
  obtain ⟨haccepted, hdelivered⟩ := Prod.mk.inj hobserved
  refine ⟨s, hs, haccepted, hdelivered, ?_⟩
  rw [hdelivered, haccepted]
  decide

end UplinkRx

end Tjost
