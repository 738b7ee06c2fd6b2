import Tjost.Host.Queues

/-!
# The wrap of the frame counter

`jack_nframes_t` is a 32-bit counter. An event lies in the period of a cycle if
`time - last < nframes` in the arithmetic of the counter (`InPeriod`), and a
loop over due events is on time with it if it takes the event off the queue with
its time unchanged and without a late report (`OnTime`).

The loops compare `tev->time` with the raw sum `last + nframes` and with `last`.
In a period that wraps the sum is below `last`. An event before the wrap is then
not below the sum and stays in the queue, and an event after the wrap is below
`last` and counts as late. So a loop is on time with the events of a period if
and only if the period does not wrap. `process_onTime_iff` states this for the
main loop and for the loop of every `process_out`.
-/

namespace Tjost

variable {ρ σ : Type} (P : Platform ρ σ)

/-- The time lies in the period, on the circle of the frame counter. -/
def InPeriod (last nframes time : NFrames) : Prop :=
  time - last < nframes

instance (last nframes time : NFrames) : Decidable (InPeriod last nframes time) :=
  inferInstanceAs (Decidable (_ < _))

/-- A loop that took `taken` off its queue and left `left` was on time with the
event: it took the event with its own time, not late. -/
structure OnTime (tev : Event) (taken : List Drained) (left : List Event) : Prop where
  taken : ⟨tev, tev.time, false⟩ ∈ taken
  gone : tev ∉ left

section Loop

variable {last nframes : NFrames} {tev : Event} {q : List Event}

theorem inPeriod_iff_toNat {time : NFrames} :
    InPeriod last nframes time ↔
      (2 ^ 32 - last.toNat + time.toNat) % 2 ^ 32 < nframes.toNat := by
  unfold InPeriod
  rw [UInt32.lt_iff_toNat_lt, UInt32.toNat_sub]

/-- A period that does not wrap is an interval of times. -/
theorem NoWrap.inPeriod_iff (hw : NoWrap last nframes) {time : NFrames} :
    InPeriod last nframes time ↔
      last.toNat ≤ time.toNat ∧ time.toNat < last.toNat + nframes.toNat := by
  have hlast := last.toNat_lt
  have htime := time.toNat_lt
  unfold NoWrap at hw
  rw [inPeriod_iff_toNat]
  omega

/-- The sum `last + nframes` cannot be above a time that is not below `last`
once it has wrapped. -/
theorem NoWrap.of_due (hdue : due last nframes tev = true)
    (hlast : last.toNat ≤ tev.time.toNat) : NoWrap last nframes := by
  have hn := nframes.toNat_lt
  rw [due_eq_decide_toNat, decide_eq_true_iff, UInt32.toNat_add] at hdue
  unfold NoWrap
  omega

/-- An event that a loop takes on time shows that the period does not wrap. -/
theorem NoWrap.of_taken {late : NFrames} (hzero : tev.time ≠ 0)
    (htaken : ⟨tev, tev.time, false⟩ ∈ (dueEvents last nframes q).map (Drained.of last late)) :
    NoWrap last nframes := by
  obtain ⟨e, he, heq⟩ := List.mem_map.mp htaken
  obtain ⟨-, hdue⟩ := List.mem_filter.mp he
  obtain rfl : e = tev := congrArg Drained.ev heq
  have hlate : isLate last e.time = false := congrArg Drained.late heq
  have hlast : last.toNat ≤ e.time.toNat := by
    rw [← UInt32.le_iff_toNat_le]
    simpa [isLate, hzero] using hlate
  exact NoWrap.of_due hdue hlast

/-- In a period that does not wrap a loop is on time. -/
theorem NoWrap.onTime (hw : NoWrap last nframes) (htev : tev ∈ q)
    (hin : InPeriod last nframes tev.time) (late : NFrames) :
    OnTime tev ((dueEvents last nframes q).map (Drained.of last late))
      (restEvents last nframes q) := by
  obtain ⟨hge, hlt⟩ := hw.inPeriod_iff.mp hin
  have hdue : due last nframes tev = true := hw.due_iff.mpr hlt
  constructor
  · refine List.mem_map.mpr ⟨tev, List.mem_filter.mpr ⟨htev, hdue⟩, ?_⟩
    exact Drained.of_eq hge late
  · intro hrest
    have hndue := (List.mem_filter.mp hrest).2
    simp [hdue] at hndue

end Loop

/-- **The frame counter may not wrap in a period.** Whatever is queued, the main
loop of a cycle is on time with an event of the host queue that lies in the
period, and a `process_out` with one of the queue of its module, if and only if
`last + nframes` does not wrap. -/
theorem process_onTime_iff {h : Host ρ σ} (hi : QueueInv h) (last nframes : NFrames) :
    (∀ (arrivals : List SchedCall), ∀ tev ∈ (receiveIn P arrivals h).queue,
      tev.time ≠ 0 → InPeriod last nframes tev.time →
        let h' := process P last nframes arrivals h
        (OnTime tev (h'.dispatched.drop h.dispatched.length) h'.queue ↔
          NoWrap last nframes)) ∧
    (∀ m, (h.module m).dat.hasProcessOut = true → ∀ tev ∈ (h.module m).queue,
      tev.time ≠ 0 → InPeriod last nframes tev.time →
        let h' := processOut P last nframes m h
        (OnTime tev ((h'.drained.drop h.drained.length).map Prod.snd) (h'.module m).queue ↔
          NoWrap last nframes)) := by
  constructor
  · intro arrivals tev htev hzero hin h'
    have hi₁ := hi.receiveIn (P := P) arrivals
    have hi₂ := hi₁.mainLoop (P := P) last nframes
    have hsend := (hi₂.sendOut_schedules (P := P) last nframes).2
    have hold : tev.seq < (mainLoop P last nframes (receiveIn P arrivals h)).seq :=
      lt_of_lt_of_le (hi₁.host.seq_lt tev htev) (mainLoop_seq_le P hi₁.host.ordered)
    have hdisp : h'.dispatched.drop h.dispatched.length =
        (dueEvents last nframes (receiveIn P arrivals h).queue).map (Drained.of last last) := by
      change (sendOut P last nframes _).dispatched.drop _ = _
      rw [sendOut_dispatched, mainLoop_dispatched P hi₁.host.ordered]
      change ((receive P arrivals h).dispatched ++ _).drop _ = _
      rw [receive_dispatched, List.drop_left]
    rw [hdisp]
    refine ⟨fun hon => NoWrap.of_taken hzero hon.taken, fun hw => ?_⟩
    have hloop := hw.onTime htev hin last
    refine ⟨hloop.taken, fun hleft => ?_⟩
    -- what the output modules add to the queue after the main loop is numbered later
    rcases hsend.new tev hleft with hleft | hnew
    · rw [mainLoop_queue P hi₁.host.ordered] at hleft
      exact hloop.gone hleft
    · omega
  · intro m hout tev htev hzero hin h'
    obtain ⟨hqueue, hdrained⟩ := processOut_drains P last nframes (hi.module m).ordered hout
    have htaken : (h'.drained.drop h.drained.length).map Prod.snd =
        (dueEvents last nframes (h.module m).queue).map
          (Drained.of last ((h.module m).dat.late last nframes)) := by
      change ((processOut P last nframes m h).drained.drop _).map Prod.snd = _
      rw [hdrained, List.drop_left, List.map_map]
      rfl
    have hleft : (h'.module m).queue = restEvents last nframes (h.module m).queue := hqueue
    rw [htaken, hleft]
    exact ⟨fun hon => NoWrap.of_taken hzero hon.taken, fun hw => hw.onTime htev hin _⟩

theorem process_onTime_iff_pair :
    let P := Platform.plain 64 (LuaScript.pass 2)
    let h' := process P 4 8 [⟨false, 1, 6, []⟩] (Host.pair (.oscOut []))
    (OnTime ⟨0, 1, 6, []⟩ (h'.dispatched.drop 0) h'.queue ↔ NoWrap 4 8) :=
  (process_onTime_iff (Platform.plain 64 (LuaScript.pass 2))
    (Host.pair_queueInv (.oscOut [])) 4 8).1 [⟨false, 1, 6, []⟩] ⟨0, 1, 6, []⟩
    (by decide) (by decide) (by decide)

/-- **A period that wraps.** It starts six frames before the wrap and is eight
frames long. The main loop is on time neither with an event before the wrap nor
with one after it, and no more is the loop of `osc_out`. -/
theorem wrap_misses :
    let P := Platform.plain 64 (LuaScript.pass 2)
    let last : NFrames := 0xfffffffa
    let before : Event := ⟨0, 1, 0xfffffffc, []⟩
    let after : Event := ⟨1, 1, 1, []⟩
    let h' := process P last 8 [⟨false, 1, before.time, []⟩, ⟨false, 1, after.time, []⟩]
      (Host.pair (.oscOut []))
    let h := runCalls P [⟨2, before.time, []⟩, ⟨2, after.time, []⟩] (Host.pair (.oscOut []))
    let h'' := processOut P last 8 2 h
    (InPeriod last 8 before.time ∧ InPeriod last 8 after.time) ∧
      (¬ OnTime before h'.dispatched h'.queue ∧ ¬ OnTime after h'.dispatched h'.queue) ∧
      (h.module 2).queue.map Event.time = [after.time, before.time] ∧
      ∀ tev ∈ (h.module 2).queue,
        ¬ OnTime tev (h''.drained.map Prod.snd) (h''.module 2).queue := by
  intro P last before after h' h h''
  refine ⟨by decide, ⟨fun hon => ?_, fun hon => ?_⟩, by decide +kernel, ?_⟩
  · exact absurd hon.taken (by decide +kernel)
  · exact absurd hon.taken (by decide +kernel)
  · intro tev htev hon
    have hnot : ∀ tev ∈ (h.module 2).queue,
        ⟨tev, tev.time, false⟩ ∉ h''.drained.map Prod.snd := by
      decide +kernel
    exact hnot tev htev hon.taken

end Tjost
