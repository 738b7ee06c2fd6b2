import Tjost.Host.DueLoop

/-!
# The drain loop of the output modules

Every `process_out` runs the loop of `Tjost.Host.DueLoop` over its module's
queue. The ten hand-written copies differ in three things, which are the fields
of `DrainLoop`: the module's name in the reports, the time a late event gets, and
what is done with an event (`emit`). The rest of the body is common:
report, clamp, emit, unlink.

`DrainLoop.run_queue`, `run_drained` and `run_out` say what the loop does to an
ordered queue: the events that are not due stay, the due ones are taken off in
queue order with their clamped times, and the output is that of the emits one
after the other (`DrainLoop.emitAll`).
-/

namespace Tjost

/-- What a `process_out` works on: its module's queue, its data, the messages it
pushes, and the ghost record of the events it takes off the queue. -/
structure OutState (δ : Type) where
  queue : List Event
  dat : δ
  messages : List String
  drained : List Drained

/-- A copy of the loop. -/
structure DrainLoop (δ : Type) where
  /-- `MOD_NAME`. -/
  name : String
  /-- The time given to a late event. -/
  late : NFrames
  /-- What is done with an event whose time is clamped, and what it reports. -/
  emit : Event → δ → δ × List String

namespace DrainLoop

variable {δ : Type} (L : DrainLoop δ) (last nframes : NFrames)

/-- The loop body after the due test. -/
def body (tev : Event) (s : OutState δ) : OutState δ :=
  let out := L.emit { tev with time := clamp last L.late tev.time } s.dat
  { queue := unlink tev s.queue
    dat := out.1
    messages := s.messages ++ lateReport L.name last tev.time ++ out.2
    drained := s.drained ++ [Drained.of last L.late tev] }

/-- The loop. -/
def run (s : OutState δ) : OutState δ :=
  dueLoop last nframes (L.body last) s.queue s

/-- The output of the emits of a list of events: the data they leave and the
messages they push, the late reports among them. -/
def emitAll : List Event → δ → δ × List String
  | [], d => (d, [])
  | tev :: l, d =>
    let out := L.emit { tev with time := clamp last L.late tev.time } d
    let rest := emitAll l out.1
    (rest.1, lateReport L.name last tev.time ++ out.2 ++ rest.2)

variable {L} {s : OutState δ}

variable {last} in
theorem foldl_body (l : List Event) (s : OutState δ) :
    (l.foldl (fun s tev => L.body last tev s) s).dat = (L.emitAll last l s.dat).1 ∧
      (l.foldl (fun s tev => L.body last tev s) s).messages =
        s.messages ++ (L.emitAll last l s.dat).2 ∧
      (l.foldl (fun s tev => L.body last tev s) s).drained =
        s.drained ++ l.map (Drained.of last L.late) := by
  induction l generalizing s with
  | nil => simp [emitAll]
  | cons tev l ih =>
    obtain ⟨hdat, hmsg, hdrained⟩ := ih (L.body last tev s)
    rw [List.foldl_cons]
    refine ⟨hdat, ?_, ?_⟩
    · rw [hmsg]
      simp only [body, emitAll, List.append_assoc]
    · rw [hdrained]
      simp only [body, List.map_cons, List.append_assoc, List.singleton_append]

variable {last nframes} in
/-- The events that are not due stay, in order. -/
theorem run_queue (hq : Ordered s.queue) :
    (L.run last nframes s).queue = restEvents last nframes s.queue := by
  unfold run
  rw [dueLoop_eq_foldl hq]
  exact foldl_unlink (g := OutState.queue) (fun _ _ => rfl) _ _ s
    (hq.due_append_rest last nframes).symm

variable {last nframes} in
/-- The due events are taken off, in order and with their clamped times. -/
theorem run_drained (hq : Ordered s.queue) :
    (L.run last nframes s).drained =
      s.drained ++ (dueEvents last nframes s.queue).map (Drained.of last L.late) := by
  unfold run
  rw [dueLoop_eq_foldl hq]
  exact (foldl_body _ s).2.2

variable (L) in
/-- The data and the messages are those of the emits of the due events. -/
theorem run_out (hq : Ordered s.queue) :
    (L.run last nframes s).dat = (L.emitAll last (dueEvents last nframes s.queue) s.dat).1 ∧
      (L.run last nframes s).messages =
        s.messages ++ (L.emitAll last (dueEvents last nframes s.queue) s.dat).2 := by
  unfold run
  rw [dueLoop_eq_foldl hq]
  exact ⟨(foldl_body _ s).1, (foldl_body _ s).2.1⟩

variable {last nframes} in
/-- The loop preserves what its emits preserve. -/
theorem run_dat_invariant {I : δ → Prop} (hemit : ∀ tev d, I d → I (L.emit tev d).1)
    (hs : I s.dat) : I (L.run last nframes s).dat := by
  refine dueLoop_invariant (I := fun s : OutState δ => I s.dat) _ ?_ s hs
  intro tev _ s hs
  exact hemit _ _ hs

/-! ### A record of the emits -/

section Traced

variable {β : Type}

variable (L) in
/-- The loop with a record of what its emits do: `view` is the entries for an event, by
the data that it finds. -/
def traced (view : Event → δ → List β) : DrainLoop (δ × List β) where
  name := L.name
  late := L.late
  emit tev d :=
    let out := L.emit tev d.1
    ((out.1, d.2 ++ view tev d.1), out.2)

/-- The entries for a list of events. -/
def entries (L : DrainLoop δ) (view : Event → δ → List β) : List Event → δ → List β
  | [], _ => []
  | tev :: l, d =>
    let tev := { tev with time := clamp last L.late tev.time }
    view tev d ++ entries L view l (L.emit tev d).1

variable {last nframes} {view : Event → δ → List β}

theorem traced_emitAll (l : List Event) (d : δ) (trace : List β) :
    (L.traced view).emitAll last l (d, trace) =
      (((L.emitAll last l d).1, trace ++ L.entries last view l d), (L.emitAll last l d).2) := by
  induction l generalizing d trace with
  | nil =>
    show ((d, trace), []) = ((d, trace ++ []), [])
    rw [List.append_nil]
  | cons tev l ih =>
    have hrest := ih (L.emit { tev with time := clamp last L.late tev.time } d).1
      (trace ++ view { tev with time := clamp last L.late tev.time } d)
    have hcons : (L.traced view).emitAll last (tev :: l) (d, trace) =
        let rest := (L.traced view).emitAll last l
          ((L.emit { tev with time := clamp last L.late tev.time } d).1,
            trace ++ view { tev with time := clamp last L.late tev.time } d)
        (rest.1, lateReport L.name last tev.time ++
          (L.emit { tev with time := clamp last L.late tev.time } d).2 ++ rest.2) := rfl
    rw [hcons, hrest, List.append_assoc]
    rfl

variable (last nframes view) in
/-- **The record does not change the loop.** -/
theorem traced_run {s : OutState δ} (hq : Ordered s.queue) (trace : List β) :
    let t := (L.traced view).run last nframes ⟨s.queue, (s.dat, trace), s.messages, s.drained⟩
    t.dat = ((L.run last nframes s).dat,
      trace ++ L.entries last view (dueEvents last nframes s.queue) s.dat) := by
  have hdat := ((L.traced view).run_out last nframes
    (s := ⟨s.queue, (s.dat, trace), s.messages, s.drained⟩) hq).1
  rw [traced_emitAll] at hdat
  refine hdat.trans ?_
  rw [(L.run_out last nframes hq).1]

end Traced

end DrainLoop

end Tjost
