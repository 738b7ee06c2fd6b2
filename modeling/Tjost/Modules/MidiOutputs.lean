import Tjost.Modules.Emission

/-!
# The three MIDI outputs

`midi_out`, `seq_out` and `rtmidi_out` each have a `_midi` of their own that walks
the format of a message with a pointer on its arguments. Here such a walk is the
list of the calls it makes (`MidiCall`): `osc_get_midi` and `osc_skip` at a
pointer, and the bytes it hands to the device.

In `midi_out` the case of a MIDI argument ends in a `break`. In the other two it
does not, so control falls into the `default` branch, and a second argument is
skipped (`fallThroughCalls`). In `rtmidi_out` the bytes also pass through
`rtmidic_out_send_message`, whose vector starts out with four zeros.

* `MidiOut.calls_inside`, `MidiOut.handed_calls`: the walk of `midi_out` stays
  inside every message, and unless it reports an overflow it hands over bytes 1
  to 3 of every MIDI argument.
* `SeqOut.handed_calls_of_last`: that of `seq_out` does so if the only MIDI
  argument is the last argument.
* `midi_outputs_agree_iff`: the three agree on a message if and only if it has no
  MIDI argument at all.
-/

namespace Tjost

/-- A call made by a `_midi`. Pointers are the argument bytes behind them. -/
inductive MidiCall where
  /-- `osc_get_midi(ptr, &M)`, of whose bytes `M[1]`, `M[2]` and `M[3]` are read. -/
  | getMidi (ptr : List UInt8)
  /-- `osc_skip(type, ptr)`. -/
  | skip (type : Char) (ptr : List UInt8)
  /-- The bytes are handed to the device: by `jack_midi_event_write` in
  `midi_out`, by `snd_midi_event_encode` in `seq_out`, by `sendMessage` in
  `rtmidi_out`. -/
  | hand (m : List UInt8)
  deriving DecidableEq, Repr

/-- What the calls hand to the device, in order. -/
def handed (calls : List MidiCall) : List (List UInt8) :=
  calls.filterMap fun
    | .hand m => some m
    | _ => none

@[simp] theorem handed_getMidi (ptr : List UInt8) (calls : List MidiCall) :
    handed (.getMidi ptr :: calls) = handed calls := rfl

@[simp] theorem handed_skip (type : Char) (ptr : List UInt8) (calls : List MidiCall) :
    handed (.skip type ptr :: calls) = handed calls := rfl

@[simp] theorem handed_hand (m : List UInt8) (calls : List MidiCall) :
    handed (.hand m :: calls) = m :: handed calls := rfl

variable {ρ σ : Type} (P : Platform ρ σ) (nframes : NFrames)

/-! ### The walks -/

/-- The calls of the `_midi` of `mod_midi_out.c`. -/
def MidiOut.calls (time : NFrames) :
    List Char → List UInt8 → List PortEvent → List MidiCall
  | [], _, _ => []
  | type :: fmt, ptr, port =>
    if type = 'm' then
      let m := (ptr.take 4).drop 1
      if P.midiPort.maxEventSize port < 3 then
        .getMidi ptr :: MidiOut.calls time fmt (ptr.drop 4) port
      else
        .getMidi ptr :: .hand m ::
          MidiOut.calls time fmt (ptr.drop 4) (P.midiPort.eventWrite nframes port ⟨time, m⟩)
    else .skip type ptr :: MidiOut.calls time fmt (P.osc.skip type ptr) port

/-- The calls of a `_midi` without a `break` at the end of `case OSC_MIDI`. The
bytes of the argument pass through `wrap` on their way to the device. -/
def fallThroughCalls (wrap : List UInt8 → List UInt8) : List Char → List UInt8 → List MidiCall
  | [], _ => []
  | type :: fmt, ptr =>
    if type = 'm' then
      let m := (ptr.take 4).drop 1
      -- control goes on into `default: ptr = osc_skip(*type, ptr)`
      .getMidi ptr :: .hand (wrap m) :: .skip type (ptr.drop 4) ::
        fallThroughCalls wrap fmt (P.osc.skip type (ptr.drop 4))
    else .skip type ptr :: fallThroughCalls wrap fmt (P.osc.skip type ptr)

/-- The calls of the `_midi` of `mod_seq_out.c`. -/
def SeqOut.calls : List Char → List UInt8 → List MidiCall :=
  fallThroughCalls P id

/-- The vector that `rtmidic_out_send_message` passes to `sendMessage`: `vec(4)`
has four elements, and the message is pushed behind them. -/
def RtmidiOut.sendMessage (message : List UInt8) : List UInt8 :=
  message.foldl (fun vec b => vec ++ [b]) (List.replicate 4 0)

/-- The calls of the `_midi` of `mod_rtmidi_out.c`. -/
def RtmidiOut.calls : List Char → List UInt8 → List MidiCall :=
  fallThroughCalls P RtmidiOut.sendMessage

/-- The port after a message is the port with the strings handed over written
into it. -/
theorem MidiOut.midi_eq_handed (time : NFrames) (fmt : List Char) (ptr : List UInt8)
    (port : List PortEvent) :
    (MidiOut.midi P nframes time fmt ptr port).1 =
      (handed (MidiOut.calls P nframes time fmt ptr port)).foldl
        (fun port m => P.midiPort.eventWrite nframes port ⟨time, m⟩) port := by
  induction fmt generalizing ptr port with
  | nil => rfl
  | cons type fmt ih =>
    unfold MidiOut.midi MidiOut.calls
    by_cases hm : type = 'm'
    · rw [if_pos hm, if_pos hm]
      by_cases hfit : P.midiPort.maxEventSize port < 3
      · rw [if_pos hfit, if_pos hfit, handed_getMidi]
        exact ih (ptr.drop 4) port
      · rw [if_neg hfit, if_neg hfit, handed_getMidi, handed_hand, List.foldl_cons]
        exact ih (ptr.drop 4) _
    · rw [if_neg hm, if_neg hm, handed_skip]
      exact ih _ port

/-! ### Messages -/

/-- The bytes are those of one argument of that type: four for a MIDI argument,
and always what `osc_skip` moves past. -/
structure IsArgument (type : Char) (bytes : List UInt8) : Prop where
  midi : type = 'm' → bytes.length = 4
  skip : ∀ rest, P.osc.skip type (bytes ++ rest) = rest

/-- The format of a message with these arguments. -/
def argsFmt (args : List (Char × List UInt8)) : List Char := args.map Prod.fst

/-- The argument bytes of a message with these arguments. -/
def argsBytes (args : List (Char × List UInt8)) : List UInt8 := args.flatMap Prod.snd

/-- Bytes 1 to 3 of every MIDI argument, in order. -/
def midiStrings (args : List (Char × List UInt8)) : List (List UInt8) :=
  (args.filter fun a => a.1 = 'm').map fun a => (a.2.drop 1).take 3

/-- A call reads nothing but one argument of its type, which lies inside the
message. -/
def MidiCall.Inside : MidiCall → Prop
  | .getMidi ptr => ∃ bytes rest, IsArgument P 'm' bytes ∧ ptr = bytes ++ rest
  | .skip type ptr => ∃ bytes rest, IsArgument P type bytes ∧ ptr = bytes ++ rest
  | .hand _ => True

section Message

variable {P} {type : Char} {bytes : List UInt8} {args : List (Char × List UInt8)}

theorem argsFmt_cons (a : Char × List UInt8) (args : List (Char × List UInt8)) :
    argsFmt (a :: args) = a.1 :: argsFmt args := rfl

theorem argsBytes_cons (a : Char × List UInt8) (args : List (Char × List UInt8)) :
    argsBytes (a :: args) = a.2 ++ argsBytes args := List.flatMap_cons

theorem midiStrings_cons_of_midi (bytes : List UInt8) (args : List (Char × List UInt8)) :
    midiStrings (('m', bytes) :: args) = (bytes.drop 1).take 3 :: midiStrings args := by
  unfold midiStrings
  rw [List.filter_cons_of_pos (by simp), List.map_cons]

theorem midiStrings_cons_of_ne (htype : type ≠ 'm') (bytes : List UInt8)
    (args : List (Char × List UInt8)) :
    midiStrings ((type, bytes) :: args) = midiStrings args := by
  unfold midiStrings
  rw [List.filter_cons_of_neg (by simpa using htype)]

theorem midiStrings_eq_nil (hargs : ∀ a ∈ args, a.1 ≠ 'm') : midiStrings args = [] := by
  unfold midiStrings
  rw [List.filter_eq_nil_iff.mpr (by simpa using hargs), List.map_nil]

/-- What `osc_get_midi` leaves behind the pointer, and the bytes that are read
through it. -/
theorem IsArgument.take_midi (hbytes : IsArgument P 'm' bytes) (rest : List UInt8) :
    (bytes ++ rest).drop 4 = rest ∧ ((bytes ++ rest).take 4).drop 1 = (bytes.drop 1).take 3 := by
  have hlen : bytes.length = 4 := hbytes.midi rfl
  constructor
  · rw [← hlen, List.drop_left]
  · rw [← hlen, List.take_left, List.take_of_length_le]
    rw [List.length_drop, hlen]

theorem IsArgument.getMidi_inside (hbytes : IsArgument P 'm' bytes) (rest : List UInt8) :
    (MidiCall.getMidi (bytes ++ rest)).Inside P :=
  ⟨bytes, rest, hbytes, rfl⟩

theorem IsArgument.skip_inside (hbytes : IsArgument P type bytes) (rest : List UInt8) :
    (MidiCall.skip type (bytes ++ rest)).Inside P :=
  ⟨bytes, rest, hbytes, rfl⟩

end Message

/-! ### `midi_out` -/

namespace MidiOut

variable {P nframes} {args : List (Char × List UInt8)}

/-- The walk of `midi_out` reads nothing but the arguments of the message. -/
theorem calls_inside (hargs : ∀ a ∈ args, IsArgument P a.1 a.2) (time : NFrames)
    (port : List PortEvent) :
    ∀ call ∈ calls P nframes time (argsFmt args) (argsBytes args) port, call.Inside P := by
  induction args generalizing port with
  | nil =>
    intro call hcall
    exact absurd hcall List.not_mem_nil
  | cons a args ih =>
    obtain ⟨type, bytes⟩ := a
    have hbytes : IsArgument P type bytes := hargs _ List.mem_cons_self
    have hrest : ∀ a ∈ args, IsArgument P a.1 a.2 := fun a ha =>
      hargs a (List.mem_cons_of_mem _ ha)
    rw [argsFmt_cons, argsBytes_cons]
    unfold calls
    by_cases hm : type = 'm'
    · subst hm
      obtain ⟨hdrop, -⟩ := hbytes.take_midi (argsBytes args)
      rw [if_pos rfl, hdrop]
      simp only
      split
      · rw [List.forall_mem_cons]
        exact ⟨hbytes.getMidi_inside _, ih hrest port⟩
      · rw [List.forall_mem_cons, List.forall_mem_cons]
        exact ⟨hbytes.getMidi_inside _, trivial, ih hrest _⟩
    · rw [if_neg hm, hbytes.skip, List.forall_mem_cons]
      exact ⟨hbytes.skip_inside _, ih hrest port⟩

variable (nframes) in
/-- What `midi_out` hands over are MIDI arguments of the message in order, and
all of them if it does not report an overflow. -/
theorem handed_calls (hargs : ∀ a ∈ args, IsArgument P a.1 a.2) (time : NFrames)
    (port : List PortEvent) :
    (handed (calls P nframes time (argsFmt args) (argsBytes args) port)).Sublist
        (midiStrings args) ∧
      ((midi P nframes time (argsFmt args) (argsBytes args) port).2 = [] →
        handed (calls P nframes time (argsFmt args) (argsBytes args) port) =
          midiStrings args) := by
  induction args generalizing port with
  | nil => exact ⟨List.Sublist.refl _, fun _ => rfl⟩
  | cons a args ih =>
    obtain ⟨type, bytes⟩ := a
    have hbytes : IsArgument P type bytes := hargs _ List.mem_cons_self
    have hrest : ∀ a ∈ args, IsArgument P a.1 a.2 := fun a ha =>
      hargs a (List.mem_cons_of_mem _ ha)
    rw [argsFmt_cons, argsBytes_cons]
    unfold calls midi
    by_cases hm : type = 'm'
    · subst hm
      obtain ⟨hdrop, htake⟩ := hbytes.take_midi (argsBytes args)
      rw [if_pos rfl, if_pos rfl, midiStrings_cons_of_midi, hdrop, htake]
      simp only
      by_cases hfit : P.midiPort.maxEventSize port < 3
      · -- an overflow: the argument is dropped, and reported
        rw [if_pos hfit, if_pos hfit, handed_getMidi]
        exact ⟨(ih hrest port).1.cons _, fun hreports => absurd hreports (List.cons_ne_nil _ _)⟩
      · rw [if_neg hfit, if_neg hfit, handed_getMidi, handed_hand]
        obtain ⟨hsub, heq⟩ := ih hrest
          (P.midiPort.eventWrite nframes port ⟨time, (bytes.drop 1).take 3⟩)
        exact ⟨hsub.cons_cons _, fun hreports => congrArg _ (heq hreports)⟩
    · rw [if_neg hm, if_neg hm, hbytes.skip, handed_skip, midiStrings_cons_of_ne hm]
      exact ih hrest port

end MidiOut

/-! ### `seq_out` and `rtmidi_out` -/

section FallThrough

variable {P} {args : List (Char × List UInt8)} (wrap : List UInt8 → List UInt8)

theorem fallThroughCalls_cons_of_ne {type : Char} (htype : type ≠ 'm') (fmt : List Char)
    (ptr : List UInt8) :
    fallThroughCalls P wrap (type :: fmt) ptr =
      .skip type ptr :: fallThroughCalls P wrap fmt (P.osc.skip type ptr) := by
  rw [fallThroughCalls, if_neg htype]

/-- Up to the first MIDI argument the walk is in step with the arguments. -/
theorem fallThroughCalls_append {pre : List (Char × List UInt8)}
    (hpre : ∀ a ∈ pre, IsArgument P a.1 a.2) (hne : ∀ a ∈ pre, a.1 ≠ 'm')
    (fmt : List Char) (ptr : List UInt8) :
    ∃ calls, fallThroughCalls P wrap (argsFmt pre ++ fmt) (argsBytes pre ++ ptr) =
        calls ++ fallThroughCalls P wrap fmt ptr ∧
      handed calls = [] ∧ ∀ call ∈ calls, call.Inside P := by
  induction pre with
  | nil => exact ⟨[], rfl, rfl, fun call hcall => absurd hcall List.not_mem_nil⟩
  | cons a pre ih =>
    obtain ⟨type, bytes⟩ := a
    have hbytes : IsArgument P type bytes := hpre _ List.mem_cons_self
    have hm : type ≠ 'm' := hne _ List.mem_cons_self
    obtain ⟨calls, hcalls, hhanded, hinside⟩ :=
      ih (fun a ha => hpre a (List.mem_cons_of_mem _ ha))
        fun a ha => hne a (List.mem_cons_of_mem _ ha)
    refine ⟨.skip type (bytes ++ (argsBytes pre ++ ptr)) :: calls, ?_, ?_, ?_⟩
    · rw [argsFmt_cons, argsBytes_cons, List.cons_append, List.append_assoc,
        fallThroughCalls_cons_of_ne wrap hm, hbytes.skip, hcalls, List.cons_append]
    · rw [handed_skip]
      exact hhanded
    · rw [List.forall_mem_cons]
      exact ⟨hbytes.skip_inside _, hinside⟩

/-- Without a MIDI argument nothing is handed over, and the walk stays inside the
message. -/
theorem fallThroughCalls_of_ne (hargs : ∀ a ∈ args, IsArgument P a.1 a.2)
    (hne : ∀ a ∈ args, a.1 ≠ 'm') :
    handed (fallThroughCalls P wrap (argsFmt args) (argsBytes args)) = [] ∧
      ∀ call ∈ fallThroughCalls P wrap (argsFmt args) (argsBytes args), call.Inside P := by
  obtain ⟨calls, hcalls, hhanded, hinside⟩ := fallThroughCalls_append wrap hargs hne [] []
  rw [List.append_nil, List.append_nil] at hcalls
  rw [hcalls]
  show handed (calls ++ []) = [] ∧ ∀ call ∈ calls ++ [], call.Inside P
  rw [List.append_nil]
  exact ⟨hhanded, hinside⟩

/-- Everything handed over has passed through `wrap`. -/
theorem mem_handed_fallThroughCalls {fmt : List Char} {ptr m : List UInt8}
    (hm : m ∈ handed (fallThroughCalls P wrap fmt ptr)) : ∃ m', m = wrap m' := by
  induction fmt generalizing ptr with
  | nil => exact absurd hm List.not_mem_nil
  | cons type fmt ih =>
    unfold fallThroughCalls at hm
    split at hm
    · rw [handed_getMidi, handed_hand, handed_skip, List.mem_cons] at hm
      obtain hm | hm := hm
      · exact ⟨_, hm⟩
      · exact ih hm
    · rw [handed_skip] at hm
      exact ih hm

end FallThrough

/-- `seq_out` hands over the right bytes if the only MIDI argument is the last
argument. -/
theorem SeqOut.handed_calls_of_last {pre : List (Char × List UInt8)} {bytes : List UInt8}
    (hpre : ∀ a ∈ pre, IsArgument P a.1 a.2) (hne : ∀ a ∈ pre, a.1 ≠ 'm')
    (hbytes : IsArgument P 'm' bytes) :
    handed (SeqOut.calls P (argsFmt (pre ++ [('m', bytes)])) (argsBytes (pre ++ [('m', bytes)]))) =
      midiStrings (pre ++ [('m', bytes)]) := by
  obtain ⟨calls, hcalls, hhanded, -⟩ := fallThroughCalls_append id hpre hne ['m'] bytes
  obtain ⟨-, htake⟩ := hbytes.take_midi []
  rw [List.append_nil] at htake
  have hfmt : argsFmt (pre ++ [('m', bytes)]) = argsFmt pre ++ ['m'] := List.map_append
  have hbuf : argsBytes (pre ++ [('m', bytes)]) = argsBytes pre ++ bytes := by
    simp [argsBytes]
  have hstrings : midiStrings (pre ++ [('m', bytes)]) = [(bytes.drop 1).take 3] := by
    have hnil : midiStrings pre = [] := midiStrings_eq_nil hne
    unfold midiStrings at hnil ⊢
    rw [List.filter_append, List.map_append, hnil]
    rfl
  calc handed (SeqOut.calls P (argsFmt (pre ++ [('m', bytes)])) _)
      = handed (calls ++ fallThroughCalls P id ['m'] bytes) := by
        rw [hfmt, hbuf, SeqOut.calls, hcalls]
    _ = handed calls ++ handed (fallThroughCalls P id ['m'] bytes) := List.filterMap_append
    _ = [(bytes.take 4).drop 1] := by
        rw [hhanded]
        rfl
    _ = midiStrings (pre ++ [('m', bytes)]) := by rw [htake, hstrings]

/-- Every vector passed to `sendMessage` starts with the four zeros. -/
theorem RtmidiOut.sendMessage_eq (message : List UInt8) :
    RtmidiOut.sendMessage message = List.replicate 4 0 ++ message := by
  have hpush : ∀ (message vec : List UInt8),
      message.foldl (fun vec b => vec ++ [b]) vec = vec ++ message := by
    intro message
    induction message with
    | nil =>
      intro vec
      exact (List.append_nil vec).symm
    | cons b message ih =>
      intro vec
      rw [List.foldl_cons, ih, List.append_assoc, List.singleton_append]
  exact hpush message _

/-! ### Agreement -/

/-- The three outputs hand the MIDI strings of the message to their devices, and
read nothing outside of it. -/
structure MidiOutputsAgree (time : NFrames) (port : List PortEvent)
    (args : List (Char × List UInt8)) : Prop where
  midiOut : handed (MidiOut.calls P nframes time (argsFmt args) (argsBytes args) port) =
    midiStrings args
  seqOut : handed (SeqOut.calls P (argsFmt args) (argsBytes args)) = midiStrings args
  rtmidiOut : handed (RtmidiOut.calls P (argsFmt args) (argsBytes args)) = midiStrings args
  inside : ∀ call ∈ MidiOut.calls P nframes time (argsFmt args) (argsBytes args) port ++
    SeqOut.calls P (argsFmt args) (argsBytes args) ++
      RtmidiOut.calls P (argsFmt args) (argsBytes args), call.Inside P

/-- A MIDI string has at most three bytes, and a vector of `rtmidi_out` at least
four. -/
theorem not_agree_of_midi {args : List (Char × List UInt8)} {a : Char × List UInt8}
    (ha : a ∈ args) (hm : a.1 = 'm') :
    handed (RtmidiOut.calls P (argsFmt args) (argsBytes args)) ≠ midiStrings args := by
  intro hagree
  have hstring : (a.2.drop 1).take 3 ∈ midiStrings args :=
    List.mem_map_of_mem (List.mem_filter.mpr ⟨ha, by simpa using hm⟩)
  rw [← hagree] at hstring
  obtain ⟨m, hvec⟩ := mem_handed_fallThroughCalls RtmidiOut.sendMessage hstring
  have hlen := congrArg List.length hvec
  rw [RtmidiOut.sendMessage_eq, List.length_append, List.length_replicate,
    List.length_take] at hlen
  omega

/-- **When the MIDI outputs agree.** They agree on a message if and only if it has
no MIDI argument. -/
theorem midi_outputs_agree_iff {args : List (Char × List UInt8)}
    (hargs : ∀ a ∈ args, IsArgument P a.1 a.2) (time : NFrames) (port : List PortEvent) :
    MidiOutputsAgree P nframes time port args ↔ ∀ a ∈ args, a.1 ≠ 'm' := by
  constructor
  · intro hagree a ha hm
    exact not_agree_of_midi P ha hm hagree.rtmidiOut
  · intro hne
    have hnil : midiStrings args = [] := midiStrings_eq_nil hne
    obtain ⟨hseq, hseqInside⟩ := fallThroughCalls_of_ne id hargs hne
    obtain ⟨hrtmidi, hrtmidiInside⟩ := fallThroughCalls_of_ne RtmidiOut.sendMessage hargs hne
    refine ⟨?_, hseq.trans hnil.symm, hrtmidi.trans hnil.symm, ?_⟩
    · -- what `midi_out` hands over is part of an empty list
      obtain ⟨hsub, -⟩ := MidiOut.handed_calls nframes hargs time port
      rw [hnil] at hsub ⊢
      exact List.sublist_nil.mp hsub
    · intro call hcall
      rw [List.mem_append, List.mem_append] at hcall
      obtain (hcall | hcall) | hcall := hcall
      · exact MidiOut.calls_inside hargs time port call hcall
      · exact hseqInside call hcall
      · exact hrtmidiInside call hcall

/-- A counter and a chord of three notes, in one message. -/
def chord : List (Char × List UInt8) :=
  [('i', [0, 0, 0, 1]), ('m', [0, 0x90, 60, 100]), ('m', [0, 0x90, 64, 100]),
    ('m', [0, 0x90, 67, 100])]

theorem midi_outputs_agree_iff_chord :
    MidiOutputsAgree (Platform.plain 4096 (LuaScript.pass 0)) 64 0 [] chord ↔
      ∀ a ∈ chord, a.1 ≠ 'm' := by
  apply midi_outputs_agree_iff
  intro a ha
  simp only [chord, List.mem_cons, List.not_mem_nil, or_false] at ha
  obtain rfl | rfl | rfl | rfl := ha
  · exact ⟨fun h => absurd h (by decide), fun _ => rfl⟩
  all_goals exact ⟨fun _ => rfl, fun _ => rfl⟩

/-- Of the chord, `seq_out` leaves out the second note. -/
theorem midi_outputs_disagree_chord :
    ¬ MidiOutputsAgree (Platform.plain 4096 (LuaScript.pass 0)) 64 0 [] chord := by
  intro hagree
  have hseq : handed (SeqOut.calls (Platform.plain 4096 (LuaScript.pass 0)) (argsFmt chord)
      (argsBytes chord)) = midiStrings chord := hagree.seqOut
  revert hseq
  decide

end Tjost
