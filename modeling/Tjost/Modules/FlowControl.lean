import Tjost.Modules.Recording

/-!
# Flow control of the replay

The loop of `read` takes an event from the file only if the pipe has room for more than
`TJOST_BUF_SIZE` bytes. `tjost_pipe_produce` then needs room for the bytes of the event and
for its `Tjost_Event`, and where it fails the event has left the file already.

`Replay.noLoss_iff`: no accepted event is lost, over any drains of the pipe, if and only if
every iteration that reads one finds room for it and its header (`Replay.RoomFor`). Only
events of more than `TJOST_BUF_SIZE + 1` bytes with their header can miss it
(`Replay.noLoss_of_short`). `Replay.full_record_lost` is a run that loses one.
-/

open Transition ByteMemory

namespace Tjost

namespace Replay

variable {ρ : Type} (R : ByteRing ρ ringbufSize) (C : OscChecker) (stale : Stale)
  (module : ModulePtr)

/-- The events that `osc_check_message` accepts. -/
def accepted (packets : List Packet) : List Packet :=
  packets.filter fun p => C.checkMessage p.2

/-- **No event is lost.** The accepted events that have been read have been produced, in
order and in front of all else, and at the end of the file all accepted events of it. -/
structure NoLoss (packets : List Packet) (s : Replay ρ) : Prop where
  produced : accepted C (packets.take s.taken) <+: s.produced
  complete : s.eof = true → accepted C packets <+: s.produced

/-- **The condition on an iteration.** The pipe has room for the event that it reads, if
that is accepted. -/
def RoomFor (packets : List Packet) (s : Replay ρ) : Label → Prop
  | .body _ _ => ∀ p ∈ packets[s.taken]?, C.IsMessage p.2 → s.Room R p.2.length
  | _ => True

/-- What holds at all times, whatever is lost. -/
structure Flow (packets : List Packet) (s : Replay ρ) : Prop where
  reads : Reads packets s
  produced : s.eof = false → s.produced.Sublist (accepted C (packets.take s.taken))
  /-- The test of the loop, since when the pipe has only been drained. -/
  guard : s.pc = .body → bufSize < R.writeSpace s.pipe

section Steps

variable {R C stale module} {packets : List Packet} {s s' : Replay ρ} {l : Label}

theorem accepted_take_succ {p : Packet} (hp : packets[s.taken]? = some p) :
    accepted C (packets.take (s.taken + 1)) =
      accepted C (packets.take s.taken) ++ if C.IsMessage p.2 then [p] else [] := by
  unfold accepted
  rw [List.take_add_one, hp, Option.toList_some, List.filter_append, List.filter_singleton]
  by_cases hm : C.IsMessage p.2
  · rw [if_pos hm, (C.accepts_iff p.2).mpr hm]
    rfl
  · have hc : C.checkMessage p.2 = false :=
      Bool.eq_false_iff.mpr fun hc => hm ((C.accepts_iff p.2).mp hc)
    rw [if_neg hm, hc]
    rfl

theorem init_flow (h : Init R packets s) : Flow R C packets s := by
  obtain ⟨-, -, -, hpc, hproduced, -⟩ := id h
  refine ⟨init_reads h, ?_, ?_⟩
  · intro _
    rw [hproduced]
    exact List.nil_sublist _
  · intro hbody
    exact absurd (hpc.symm.trans hbody) (fun h => by cases h)

theorem init_noLoss (h : Init R packets s) : NoLoss C packets s := by
  obtain ⟨-, heof, -, -, hproduced, htaken⟩ := h
  refine ⟨?_, ?_⟩
  · rw [htaken, List.take_zero]
    exact List.nil_prefix
  · intro hend
    exact absurd (heof.symm.trans hend) (by decide)

/-- A drain makes room. -/
theorem writeSpace_le_read (pipe : ρ) (n : ℕ) :
    R.writeSpace pipe ≤ R.writeSpace (R.read pipe n).1 := by
  rw [R.writeSpace_eq, R.writeSpace_eq, R.contents_read, List.length_drop]
  omega

/-- **One step.** What an iteration produces it has just read, until the end of the file. -/
theorem Flow.next (hsize : ∀ p ∈ packets, p.2.length ≤ bufSize) (h : Flow R C packets s) :
    Flow R C packets (s.next R C stale module l) := by
  have hreads : Reads packets (s.next R C stale module l) := h.reads.next hsize
  cases l with
  | asio => exact ⟨hreads, h.produced, fun hpc => by cases hpc⟩
  | test =>
    refine ⟨hreads, h.produced, ?_⟩
    intro hpc
    by_cases hguard : s.eof = false ∧ bufSize < R.writeSpace s.pipe
    · exact hguard.2
    · replace hpc : (if s.eof = false ∧ bufSize < R.writeSpace s.pipe then ReplayPc.body
        else ReplayPc.idle) = .body := hpc
      rw [if_neg hguard] at hpc
      cases hpc
  | drain n => exact ⟨hreads, h.produced, fun hpc => (h.guard hpc).trans_le
      (writeSpace_le_read s.pipe n)⟩
  | body oldTime oldSize =>
    refine ⟨hreads, ?_, ?_⟩
    · intro hopen
      cases hp : packets[s.taken]? with
      | some p =>
        obtain ⟨hlt, hget⟩ := List.getElem?_eq_some_iff.mp hp
        have hmem : p ∈ packets := hget ▸ List.getElem_mem hlt
        obtain ⟨-, heof, htaken, hproduced⟩ :=
          body_packet R C stale module (h.reads.next_packet hp) (hsize p hmem) oldTime oldSize
        have hbefore := h.produced (heof.symm.trans hopen)
        show (s.body R C stale module oldTime oldSize).produced.Sublist
          (accepted C (packets.take (s.body R C stale module oldTime oldSize).taken))
        rw [hproduced, htaken, accepted_take_succ hp]
        -- an accepted event may be lost, and no other is produced
        by_cases hm : C.IsMessage p.2
        · rw [if_pos hm]
          split
          · exact hbefore.append (List.Sublist.refl _)
          · exact hbefore.trans (List.sublist_append_left _ _)
        · rw [if_neg hm, if_neg (fun hboth => hm hboth.1), List.append_nil]
          exact hbefore
      | none =>
        -- the iteration behind the last event sets the flag
        obtain ⟨-, hfile⟩ := h.reads.next_none hp
        obtain ⟨-, heof, -, -⟩ := body_end R C stale module hfile oldTime oldSize
        exact absurd (heof.symm.trans hopen) (by decide)
    · intro hpc
      exact absurd ((body_pc oldTime oldSize).symm.trans hpc) (fun h => by cases h)

/-- **An iteration loses nothing** if and only if it meets the condition. -/
theorem NoLoss.body_iff (hsize : ∀ p ∈ packets, p.2.length ≤ bufSize) (h : Flow R C packets s)
    (hi : NoLoss C packets s) (oldTime oldSize : UInt32) :
    NoLoss C packets (s.body R C stale module oldTime oldSize) ↔
      s.RoomFor R C packets (.body oldTime oldSize) := by
  show _ ↔ ∀ p ∈ packets[s.taken]?, C.IsMessage p.2 → s.Room R p.2.length
  cases hp : packets[s.taken]? with
  | some p =>
    obtain ⟨hlt, hget⟩ := List.getElem?_eq_some_iff.mp hp
    have hmem : p ∈ packets := hget ▸ List.getElem_mem hlt
    obtain ⟨-, heof, htaken, hproduced⟩ :=
      body_packet R C stale module (h.reads.next_packet hp) (hsize p hmem) oldTime oldSize
    -- the file has not ended, so exactly the accepted events have been produced
    have hopen : s.eof = false := by
      by_contra hend
      have hlast := h.reads.eof (by simpa using hend)
      omega
    have hall : s.produced = accepted C (packets.take s.taken) :=
      ((h.produced hopen).eq_of_length_le hi.produced.length_le)
    have hcomplete : ¬ (s.body R C stale module oldTime oldSize).eof = true := by
      rw [heof, hopen]
      decide
    constructor
    · -- without room the iteration is one event short
      intro hnext q hq hm
      obtain rfl : p = q := Option.some.inj hq
      by_contra hfull
      have hprefix := hnext.produced.length_le
      rw [hproduced, if_neg (fun hboth => hfull hboth.2), htaken, accepted_take_succ hp,
        if_pos hm, hall, List.length_append, List.length_singleton] at hprefix
      omega
    · intro hroom
      refine ⟨?_, fun hend => absurd hend hcomplete⟩
      have hnext : (s.body R C stale module oldTime oldSize).produced =
          accepted C (packets.take (s.body R C stale module oldTime oldSize).taken) := by
        rw [hproduced, htaken, accepted_take_succ hp, hall]
        by_cases hm : C.IsMessage p.2
        · rw [if_pos hm, if_pos ⟨hm, hroom p rfl hm⟩]
        · rw [if_neg hm, if_neg (fun hboth => hm hboth.1), List.append_nil]
      exact hnext ▸ List.prefix_refl _
  | none =>
    -- behind the last event the old bytes may be produced once more, which loses nothing
    obtain ⟨hlen, hfile⟩ := h.reads.next_none hp
    obtain ⟨-, -, htaken, hproduced⟩ := body_end R C stale module hfile oldTime oldSize
    have hgrows : s.produced <+: (s.body R C stale module oldTime oldSize).produced := by
      rw [hproduced]
      split
      · exact List.prefix_append _ _
      · exact List.prefix_rfl
    have hkeeps := hi.produced.trans hgrows
    refine iff_of_true ⟨?_, fun _ => ?_⟩ (fun p hp => by cases hp)
    · rw [htaken]
      exact hkeeps
    · rw [hlen, List.take_length] at hkeeps
      exact hkeeps

end Steps

variable {R C stale module} {packets : List Packet} {s : Replay ρ}

/-- **When no event is lost.** -/
theorem noLoss_iff {s₀ : Replay ρ} {ls : List Label}
    (hsize : ∀ p ∈ packets, p.2.length ≤ bufSize)
    (h₀ : (machine R C stale module packets).init s₀)
    (hrun : (machine R C stale module packets).exec s₀ ls = some s) :
    (∀ ls' t, ls' <+: ls → (machine R C stale module packets).exec s₀ ls' = some t →
        NoLoss C packets t) ↔
      (machine R C stale module packets).Meets (RoomFor R C packets) s₀ ls := by
  refine Machine.meets_iff (S := Flow R C packets) ?_ ?_ (init_flow h₀) (init_noLoss h₀) hrun
  · intro s l s' h hstep
    obtain ⟨-, rfl⟩ := step_eq_some.mp hstep
    exact h.next hsize
  · intro s l s' h hi hstep
    obtain ⟨-, rfl⟩ := step_eq_some.mp hstep
    cases l with
    | asio => exact iff_of_true ⟨hi.produced, hi.complete⟩ trivial
    | test => exact iff_of_true ⟨hi.produced, hi.complete⟩ trivial
    | drain n => exact iff_of_true ⟨hi.produced, hi.complete⟩ trivial
    | body oldTime oldSize => exact hi.body_iff hsize h oldTime oldSize

/-- **Short events are never lost.** The test of the loop leaves room for an event of at
most `TJOST_BUF_SIZE + 1` bytes with its header. -/
theorem noLoss_of_short {s₀ : Replay ρ} {ls : List Label}
    (hshort : ∀ p ∈ packets, sizeofEvent + p.2.length ≤ bufSize + 1)
    (h₀ : (machine R C stale module packets).init s₀)
    (hrun : (machine R C stale module packets).exec s₀ ls = some s) : NoLoss C packets s := by
  have hsize : ∀ p ∈ packets, p.2.length ≤ bufSize := by
    intro p hp
    have hp := hshort p hp
    unfold sizeofEvent at hp
    omega
  refine (Machine.exec_invariant (G := fun _ _ => True)
    (I := fun s => Flow R C packets s ∧ NoLoss C packets s) ?_ ⟨init_flow h₀, init_noLoss h₀⟩
    (Machine.meets_true s₀ ls) hrun).2
  rintro s l s' ⟨h, hi⟩ - hstep
  obtain ⟨henabled, rfl⟩ := step_eq_some.mp hstep
  refine ⟨h.next hsize, ?_⟩
  cases l with
  | asio => exact ⟨hi.produced, hi.complete⟩
  | test => exact ⟨hi.produced, hi.complete⟩
  | drain n => exact ⟨hi.produced, hi.complete⟩
  | body oldTime oldSize =>
    refine (hi.body_iff hsize h oldTime oldSize).mpr ?_
    intro p hp _
    have hroom := h.guard henabled
    have hp := hshort p (List.mem_of_getElem? hp)
    unfold Room
    omega

/-- The condition can be decided. -/
instance decidableRoomFor (packets : List Packet) (s : Replay ρ) :
    ∀ l, Decidable (s.RoomFor R C packets l)
  | .body _ _ =>
    inferInstanceAs (Decidable (∀ p ∈ packets[s.taken]?, C.IsMessage p.2 → s.Room R p.2.length))
  | .asio | .test | .drain _ => isTrue trivial

/-- Two messages, with a drain between them. -/
theorem noLoss_iff_start :
    ∃ s, (plain messages).exec (start messages) wholeRun = some s ∧ s.eof = true ∧
      NoLoss plainChecker messages s := by
  have hroom : (plain messages).Meets
      (RoomFor (ByteRing.fifo ringbufSize) plainChecker messages) (start messages) wholeRun := by
    decide +kernel
  have hrun : ((plain messages).exec (start messages) wholeRun).map eof = some true := by
    decide +kernel
  obtain ⟨s, hs, heof⟩ := Option.map_eq_some_iff.mp hrun
  exact ⟨s, hs, heof, (noLoss_iff (by decide) (start_init messages) hs).mpr hroom wholeRun s
    List.prefix_rfl hs⟩

section Full

variable (R C stale module packets) in
/-- An iteration that reads an accepted event, from a test of the loop that finds room. -/
theorem round (hsizes : ∀ p ∈ packets, p.2.length ≤ bufSize) (h : Reads packets s)
    (hpc : s.pc = .test) (heof : s.eof = false) (hspace : bufSize < R.writeSpace s.pipe)
    {p : Packet} (hp : packets[s.taken]? = some p) (hm : C.IsMessage p.2) :
    ∃ t, (machine R C stale module packets).exec s [.test, .body 0 0] = some t ∧
      Reads packets t ∧ t.pc = .test ∧ t.eof = false ∧ t.taken = s.taken + 1 ∧
      (s.Room R p.2.length → t.produced = s.produced ++ [p] ∧
        R.writeSpace t.pipe = R.writeSpace s.pipe - (sizeofEvent + p.2.length)) ∧
      (¬ s.Room R p.2.length → t.produced = s.produced) := by
  have hsize := hsizes p (List.mem_of_getElem? hp)
  set u : Replay ρ := { s with pc := .body } with hu
  have htest : (machine R C stale module packets).step s .test = some u := by
    refine step_eq_some.mpr ⟨hpc, ?_⟩
    show _ = ({ s with pc := _ } : Replay ρ)
    rw [if_pos ⟨heof, hspace⟩]
  have hbody : (machine R C stale module packets).step u (.body 0 0) =
      some (u.body R C stale module 0 0) := step_eq_some.mpr ⟨rfl, rfl⟩
  have hread : Reads packets u := ⟨h.taken_le, h.file, h.eof⟩
  have hfile : u.file = _ := h.next_packet hp
  obtain ⟨-, heof', htaken', hproduced⟩ := body_packet R C stale module hfile hsize 0 0
  have hpipe := body_packet_eq (R := R) (C := C) stale module hfile hsize 0 0
  refine ⟨u.body R C stale module 0 0, ?_, hread.next (l := .body 0 0) hsizes,
    body_pc 0 0, heof'.trans heof, htaken', ?_, ?_⟩
  · refine Machine.exec_cons_eq_some.mpr ⟨_, htest, ?_⟩
    exact Machine.exec_cons_eq_some.mpr ⟨_, hbody, rfl⟩
  · -- the record takes its header and its bytes
    intro hroom
    have hfits : sizeofEvent + p.2.length ≤ R.writeSpace u.pipe := hroom
    obtain ⟨-, hcontents⟩ := pipeProduce_of_fits stale module p.1 hfits
    refine ⟨hproduced.trans (if_pos ⟨hm, hroom⟩), ?_⟩
    rw [hpipe, if_pos ((C.accepts_iff p.2).mpr hm)]
    simp only
    rw [R.writeSpace_eq, hcontents, List.length_append, R.writeSpace_eq]
    unfold Stale.record
    rw [List.length_append, EventHeader.length_encode]
    show _ - _ - ((R.contents s.pipe).length + _) = _
    omega
  · intro hfull
    exact hproduced.trans (if_neg fun hboth => hfull hboth.2)

end Full

/-- The message `/a` with a blob of `n` bytes. -/
def blob (n : ℕ) : Packet :=
  (0, [47, 97, 0, 0, 44, 98, 0, 0] ++ Bytes.toBE 4 n ++ List.replicate n 0)

theorem blob_length (n : ℕ) : (blob n).2.length = n + 12 := by
  unfold blob
  rw [List.length_append, List.length_append, Bytes.length_toBE, List.length_replicate]
  show 8 + 4 + n = n + 12
  omega

theorem blob_isMessage {n : ℕ} (h : n % 4 = 0) : plainChecker.IsMessage (blob n).2 := by
  refine ⟨?_, ?_⟩
  · simp [blob, OscReader.plain, oscString, oscPadded]
  · rw [blob_length]
    omega

/-- Three records that leave room for 16387 bytes, and one of 16384 bytes. -/
def filling : List Packet := [blob 16372, blob 16372, blob 16224, blob 16372]

theorem filling_ok : ∀ p ∈ filling, plainChecker.IsMessage p.2 ∧ p.2.length ≤ bufSize := by
  unfold filling
  simp only [List.forall_mem_cons, List.not_mem_nil, IsEmpty.forall_iff, implies_true, and_true,
    blob_length, bufSize]
  exact ⟨⟨blob_isMessage rfl, by omega⟩, ⟨blob_isMessage rfl, by omega⟩,
    ⟨blob_isMessage rfl, by omega⟩, ⟨blob_isMessage rfl, by omega⟩⟩

/-- An iteration on this file, by the room in the pipe. -/
theorem filling_round {s : Replay (ByteRing.Fifo ringbufSize)} (h : Reads filling s)
    (hpc : s.pc = .test) (heof : s.eof = false) {space n : ℕ}
    (hspace : (ByteRing.fifo ringbufSize).writeSpace s.pipe = space) (hguard : bufSize < space)
    (hp : filling[s.taken]? = some (blob n)) (hn : n % 4 = 0) :
    ∃ t, (plain filling).exec s [.test, .body 0 0] = some t ∧ Reads filling t ∧
      t.pc = .test ∧ t.eof = false ∧ t.taken = s.taken + 1 ∧
      (sizeofEvent + (n + 12) ≤ space → t.produced = s.produced ++ [blob n] ∧
        (ByteRing.fifo ringbufSize).writeSpace t.pipe = space - (sizeofEvent + (n + 12))) ∧
      (¬ sizeofEvent + (n + 12) ≤ space → t.produced = s.produced) := by
  subst hspace
  have hround := round (ByteRing.fifo ringbufSize) plainChecker ⟨0, 0, 0, 0⟩ 1 filling
    (fun p hp => (filling_ok p hp).2) h hpc heof hguard hp (blob_isMessage hn)
  unfold Room at hround
  rwa [blob_length] at hround

/-- **An event of `TJOST_BUF_SIZE` bytes is lost.** The loop finds room for more than that,
but not for the header as well. -/
theorem full_record_lost :
    ∃ ls s, (plain filling).exec (start filling) ls = some s ∧
      (∀ p ∈ filling, plainChecker.IsMessage p.2 ∧ p.2.length ≤ bufSize) ∧
      s.taken = 4 ∧ s.produced = filling.take 3 ∧ ¬ NoLoss plainChecker filling s := by
  set s₀ : Replay (ByteRing.Fifo ringbufSize) := { start filling with pc := .test } with hs₀
  have hasio : (plain filling).step (start filling) .asio = some s₀ :=
    step_eq_some.mpr ⟨rfl, rfl⟩
  have hread : Reads filling s₀ := ⟨Nat.zero_le _, rfl, fun h => by cases h⟩
  have hspace : (ByteRing.fifo ringbufSize).writeSpace s₀.pipe = 65535 := rfl
  -- three records fill the pipe up to 16387 bytes
  obtain ⟨s₁, hrun₁, hread₁, hpc₁, heof₁, htaken₁, hfit₁, -⟩ :=
    filling_round hread rfl rfl hspace (by decide) List.getElem?_cons_zero rfl
  obtain ⟨hproduced₁, hspace₁⟩ := hfit₁ (by decide)
  obtain ⟨s₂, hrun₂, hread₂, hpc₂, heof₂, htaken₂, hfit₂, -⟩ :=
    filling_round hread₁ hpc₁ heof₁ hspace₁ (by decide) (by rw [htaken₁]; rfl) rfl
  obtain ⟨hproduced₂, hspace₂⟩ := hfit₂ (by decide)
  obtain ⟨s₃, hrun₃, hread₃, hpc₃, heof₃, htaken₃, hfit₃, -⟩ :=
    filling_round hread₂ hpc₂ heof₂ hspace₂ (by decide) (by rw [htaken₂, htaken₁]; rfl) rfl
  obtain ⟨hproduced₃, hspace₃⟩ := hfit₃ (by decide)
  -- the loop takes the fourth, and there is no room for its header
  obtain ⟨s₄, hrun₄, -, -, -, htaken₄, -, hfull⟩ :=
    filling_round hread₃ hpc₃ heof₃ hspace₃ (by decide)
      (by rw [htaken₃, htaken₂, htaken₁]; rfl) rfl
  have htaken : s₄.taken = 4 := by
    rw [htaken₄, htaken₃, htaken₂, htaken₁]
    rfl
  have hproduced : s₄.produced = filling.take 3 := by
    rw [hfull (by decide), hproduced₃, hproduced₂, hproduced₁]
    rfl
  refine ⟨.asio :: ([.test, .body 0 0] ++ ([.test, .body 0 0] ++ ([.test, .body 0 0] ++
    [.test, .body 0 0]))), s₄, ?_, filling_ok, htaken, hproduced, ?_⟩
  · refine Machine.exec_cons_eq_some.mpr ⟨_, hasio, ?_⟩
    rw [Machine.exec_append, hrun₁, Option.bind_some, Machine.exec_append, hrun₂,
      Option.bind_some, Machine.exec_append, hrun₃, Option.bind_some, hrun₄]
  · -- three of the four that have been taken have been produced
    intro hno
    have hall : accepted plainChecker filling = filling :=
      List.filter_eq_self.mpr fun p hp => (plainChecker.accepts_iff _).mpr (filling_ok p hp).1
    have hlen := hno.produced.length_le
    rw [htaken, hproduced] at hlen
    rw [show filling.take 4 = filling from rfl, hall] at hlen
    exact absurd hlen (by decide)

end Replay

end Tjost
