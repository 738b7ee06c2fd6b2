import Tjost.Host.Dispatch

/-!
# The hand-overs of one event

The hand-overs of the main loop are recorded with the number of their event. As the
numbers of the scheduled events differ, the record can be read for one event at a time
(`Host.handedOver`): nothing is there while the event is queued, and once it is taken
off the queue it is there for everyone it is for, once
(`HostInv.handedOver_of_queued`, `HostInv.handedOver_of_dispatched`).
-/

namespace Tjost

variable {ρ σ : Type} (P : Platform ρ σ)

/-- The hand-overs of an event that the main loop has taken off its queue. -/
def handOvers (h : Host ρ σ) (d : Drained) : List Delivery :=
  (h.receivers d.ev.module).flatMap fun u => deliveriesOf h u d.ev.seq d.time d.ev.buf

/-- What has been handed over of the event with that number. -/
def Host.handedOver (h : Host ρ σ) (seq : ℕ) : List Delivery :=
  h.delivered.filter fun d => d.seq == seq

theorem deliveries_eq_handOvers (h : Host ρ σ) (last : NFrames) (tev : Event) :
    deliveries h last tev = handOvers h (Drained.of last last tev) := by
  unfold deliveries handOvers Drained.of Host.receivers
  rw [clamp_eq_max]
  simp only
  split
  · rfl
  · rw [List.flatMap_singleton]

theorem SameGraph.handOvers_eq {h h' : Host ρ σ} (g : SameGraph h h') (d : Drained) :
    handOvers h' d = handOvers h d := by
  unfold handOvers Host.receivers
  rw [g.uplinks]
  simp only [g.deliveriesOf_eq]

theorem seq_of_mem_deliveriesOf {h : Host ρ σ} {m : ModulePtr} {seq : ℕ} {time : NFrames}
    {buf : List UInt8} {x : Delivery} (hx : x ∈ deliveriesOf h m seq time buf) : x.seq = seq := by
  unfold deliveriesOf at hx
  rcases List.mem_append.mp hx with hx | hx
  · obtain ⟨c, -, rfl⟩ := List.mem_map.mp hx
    rfl
  · split at hx
    · rw [List.mem_singleton.mp hx]
    · exact absurd hx List.not_mem_nil

theorem seq_of_mem_handOvers {h : Host ρ σ} {d : Drained} {x : Delivery}
    (hx : x ∈ handOvers h d) : x.seq = d.ev.seq := by
  obtain ⟨u, -, hu⟩ := List.mem_flatMap.mp hx
  exact seq_of_mem_deliveriesOf hu

namespace HostInv

variable {h₀ h : Host ρ σ}

/-- The events that were dispatched or are queued have different numbers. -/
theorem pairwise_seq (hi : HostInv h) :
    (h.dispatched.map Drained.ev ++ h.queue).Pairwise fun a b => a.seq ≠ b.seq := by
  refine (hi.numbered.imp fun hab => Nat.ne_of_lt hab).perm hi.perm.symm ?_
  exact fun hab => hab.symm

/-- **Nothing is handed over of a queued event.** -/
theorem handedOver_of_queued (hi : HostInv h)
    (hdel : h.delivered = h.dispatched.flatMap (handOvers h₀)) {e : Event} (he : e ∈ h.queue) :
    h.handedOver e.seq = [] := by
  unfold Host.handedOver
  rw [List.filter_eq_nil_iff]
  intro x hx
  rw [hdel] at hx
  obtain ⟨d, hd, hxd⟩ := List.mem_flatMap.mp hx
  have hne := (List.pairwise_append.mp hi.pairwise_seq).2.2 d.ev (List.mem_map_of_mem hd) e he
  rw [seq_of_mem_handOvers hxd]
  simpa using hne

/-- **An event that was taken off the queue** was handed over to everyone it is for,
once. -/
theorem handedOver_of_dispatched (hi : HostInv h)
    (hdel : h.delivered = h.dispatched.flatMap (handOvers h₀)) {d : Drained}
    (hd : d ∈ h.dispatched) : h.handedOver d.ev.seq = handOvers h₀ d := by
  have hpairwise := (List.pairwise_append.mp hi.pairwise_seq).1
  rw [List.pairwise_map] at hpairwise
  unfold Host.handedOver
  rw [hdel]
  -- the induction is on the record of dispatched events, which have different numbers
  generalize h.dispatched = l at hd hpairwise
  induction l with
  | nil => exact absurd hd List.not_mem_nil
  | cons d' l ih =>
    obtain ⟨hhead, htail⟩ := List.pairwise_cons.mp hpairwise
    rw [List.flatMap_cons, List.filter_append]
    rcases List.mem_cons.mp hd with rfl | hd
    · -- all of its own hand-overs, and none of the others
      have hself : (handOvers h₀ d).filter (fun x => x.seq == d.ev.seq) = handOvers h₀ d := by
        refine List.filter_eq_self.mpr fun x hx => ?_
        rw [seq_of_mem_handOvers hx]
        exact beq_self_eq_true _
      have hothers : (l.flatMap (handOvers h₀)).filter (fun x => x.seq == d.ev.seq) = [] := by
        refine List.filter_eq_nil_iff.mpr fun x hx => ?_
        obtain ⟨d', hd', hx'⟩ := List.mem_flatMap.mp hx
        rw [seq_of_mem_handOvers hx']
        simpa using (hhead d' hd').symm
      rw [hself, hothers, List.append_nil]
    -- the head is another event
    · have hnone : (handOvers h₀ d').filter (fun x => x.seq == d.ev.seq) = [] := by
        refine List.filter_eq_nil_iff.mpr fun x hx => ?_
        rw [seq_of_mem_handOvers hx]
        simpa using hhead d hd
      rw [hnone, List.nil_append]
      exact ih hd htail

/-- The main loop keeps the record of the hand-overs. -/
theorem mainLoop_handOvers (hi : HostInv h) (g : SameGraph h₀ h)
    (hdel : h.delivered = h.dispatched.flatMap (handOvers h₀)) (last nframes : NFrames) :
    (Tjost.mainLoop P last nframes h).delivered =
      (Tjost.mainLoop P last nframes h).dispatched.flatMap (handOvers h₀) := by
  rw [mainLoop_delivered P hi.ordered, mainLoop_dispatched P hi.ordered, hdel,
    List.flatMap_append, List.flatMap_map]
  congr 1
  refine List.flatMap_congr ?_
  intro tev _
  rw [deliveries_eq_handOvers, g.handOvers_eq]

end HostInv

end Tjost
