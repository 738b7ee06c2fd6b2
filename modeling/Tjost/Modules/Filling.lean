import Tjost.Modules.Emission

/-!
# The port buffer of `cv_out`

`_cv` fills the port buffer from the position it has come to up to the frame of its
message, and the loop behind the events fills the rest. Position and value are in the data
of the module.

`CvOut.stores` lists the assignments `port_buf[i] = value` of a call of `process_out`, in
order, as a record of its loop (`DrainLoop.traced`). The buffer is what these assignments
make of it (`CvOut.processOut_portBuf`).

`CvOut.processOut_fills`: whatever is in the queue, the assignments go through the frames
of the period from the first to the last, and the buffer is the sample-and-hold of the due
messages. The position never goes back, because the offsets of the due events do not
decrease along the queue: this is what the proof is about (`CvOut.changeStores_frames`).
-/

namespace Tjost

namespace CvOut

/-- The assignments of `for(; i<stop; i++) port_buf[i] = value`. -/
def fillStores (value : UInt32) (i stop : ℕ) : List (ℕ × UInt32) :=
  (List.range' i (stop - i)).map (·, value)

/-- What assignments make of a buffer. -/
def assign (stores : List (ℕ × UInt32)) (portBuf : ℕ → UInt32) : ℕ → UInt32 :=
  stores.foldl (fun b st => Function.update b st.1 st.2) portBuf

variable {ρ σ : Type} (P : Platform ρ σ)

/-- The assignments of the `_cv` of messages with the path and the format that it takes. -/
def cvStores (time : NFrames) : List OscMessage → CvOutData → List (ℕ × UInt32)
  | [], _ => []
  | msg :: msgs, dat =>
    fillStores dat.value dat.time.toNat time.toNat ++ cvStores time msgs (cv P time msg.args dat)

/-- The assignments of the dispatch of a packet. -/
def dispatchStores (time : NFrames) (msgs : List OscMessage) : CvOutData → List (ℕ × UInt32) :=
  cvStores P time (msgs.filter fun msg => msg.path == ['/', 'c', 'v'] && msg.fmt == ['f'])

/-- The assignments of a `process_out`: those of its loop, and those of the fill behind
it. -/
def stores (last nframes : NFrames) (s : OutState CvOutData) : List (ℕ × UInt32) :=
  let view : Event → CvOutData → List (ℕ × UInt32) := fun tev dat =>
    dispatchStores P (tev.time - last) (P.osc.messages tev.buf) dat
  let t := ((loop P last).traced view).run last nframes
    ⟨s.queue, ({ s.dat with time := 0 }, []), s.messages, s.drained⟩
  t.dat.2 ++ fillStores t.dat.1.value t.dat.1.time.toNat nframes.toNat

/-- The assignments that a list of changes leads to. -/
def changeStores : List (NFrames × UInt32) → CvOutData → List (ℕ × UInt32)
  | [], _ => []
  | c :: cs, dat => fillStores dat.value dat.time.toNat c.1.toNat ++ changeStores cs (dat.change c)

section Stores

variable {last nframes : NFrames}

theorem fill_eq_assign (value : UInt32) (i stop : ℕ) (portBuf : ℕ → UInt32) :
    fill value i stop portBuf = assign (fillStores value i stop) portBuf := by
  unfold fill assign fillStores
  rw [List.foldl_map]

theorem assign_append (l l' : List (ℕ × UInt32)) (portBuf : ℕ → UInt32) :
    assign (l ++ l') portBuf = assign l' (assign l portBuf) := List.foldl_append

theorem assign_of_ne {l : List (ℕ × UInt32)} {k : ℕ} (hne : ∀ st ∈ l, st.1 ≠ k)
    (portBuf : ℕ → UInt32) : assign l portBuf k = portBuf k := by
  induction l generalizing portBuf with
  | nil => rfl
  | cons st l ih =>
    show assign l (Function.update portBuf st.1 st.2) k = portBuf k
    rw [ih fun st' hst' => hne st' (List.mem_cons_of_mem _ hst')]
    exact Function.update_of_ne (hne st List.mem_cons_self).symm _ _

theorem changeStores_append (cs ds : List (NFrames × UInt32)) (dat : CvOutData) :
    changeStores (cs ++ ds) dat =
      changeStores cs dat ++ changeStores ds (cs.foldl CvOutData.change dat) := by
  induction cs generalizing dat with
  | nil => rfl
  | cons c cs ih =>
    rw [List.cons_append, changeStores, ih, changeStores, List.append_assoc]
    rfl

/-- The buffer behind a list of changes is what their assignments make of it. -/
theorem foldl_change_portBuf (cs : List (NFrames × UInt32)) (dat : CvOutData) :
    (cs.foldl CvOutData.change dat).portBuf = assign (changeStores cs dat) dat.portBuf := by
  induction cs generalizing dat with
  | nil => rfl
  | cons c cs ih =>
    rw [List.foldl_cons, ih, changeStores, assign_append]
    congr 1
    exact fill_eq_assign dat.value dat.time.toNat c.1.toNat dat.portBuf

theorem cvStores_eq (time : NFrames) (msgs : List OscMessage) (dat : CvOutData) :
    cvStores P time msgs dat =
      changeStores (msgs.map fun msg => (time, P.osc.getFloat msg.args)) dat := by
  induction msgs generalizing dat with
  | nil => rfl
  | cons msg msgs ih =>
    rw [cvStores, ih]
    rfl

/-- The assignments of the loop are those of the changes that its events ask for. -/
theorem entries_eq (l : List Event) (dat : CvOutData) :
    (loop P last).entries last
        (fun tev dat => dispatchStores P (tev.time - last) (P.osc.messages tev.buf) dat) l dat =
      changeStores (cvChanges P last l) dat := by
  induction l generalizing dat with
  | nil => rfl
  | cons tev l ih =>
    unfold DrainLoop.entries
    simp only
    rw [ih]
    unfold cvChanges
    rw [List.flatMap_cons, changeStores_append, List.foldl_map]
    congr 1
    exact cvStores_eq P _ _ dat

theorem stores_eq {s : OutState CvOutData} (hq : Ordered s.queue) :
    let dat : CvOutData := { s.dat with time := 0 }
    let cs := cvChanges P last (dueEvents last nframes s.queue)
    stores P last nframes s = changeStores cs dat ++
      fillStores (cs.foldl CvOutData.change dat).value (cs.foldl CvOutData.change dat).time.toNat
        nframes.toNat := by
  intro dat cs
  -- the loop over the queue is one over the due events
  have hrun := (loop P last).traced_run last nframes
    (fun tev dat => dispatchStores P (tev.time - last) (P.osc.messages tev.buf) dat)
    (s := { s with dat }) hq []
  have hdat := ((loop P last).run_out last nframes (s := { s with dat }) hq).1
  rw [emitAll_eq] at hdat
  unfold stores
  simp only
  rw [show _ = _ from hrun, hdat, List.nil_append, entries_eq]

/-- **The buffer is what the assignments make of it.** -/
theorem processOut_portBuf {s : OutState CvOutData} (hq : Ordered s.queue) :
    (processOut P last nframes s).dat.portBuf = assign (stores P last nframes s) s.dat.portBuf := by
  have hdat := ((loop P last).run_out last nframes
    (s := { s with dat := { s.dat with time := 0 } }) hq).1
  rw [emitAll_eq] at hdat
  rw [stores_eq P hq]
  simp only
  rw [assign_append, ← fill_eq_assign]
  show fill _ _ _ ((loop P last).run last nframes _).dat.portBuf = _
  rw [hdat, foldl_change_portBuf]

/-! ### The frames -/

theorem fillStores_frames {value : UInt32} {i stop : ℕ} (h : i ≤ stop) :
    List.range i ++ (fillStores value i stop).map Prod.fst = List.range stop := by
  have hfst : (fillStores value i stop).map Prod.fst = List.range' i (stop - i) := by
    unfold fillStores
    rw [List.map_map]
    exact List.map_id _
  have happend := List.range'_append_1 (s := 0) (m := i) (n := stop - i)
  rw [Nat.zero_add, Nat.add_sub_of_le h] at happend
  rw [hfst, List.range_eq_range', List.range_eq_range']
  exact happend

/-- **The position goes through the frames.** If the offsets of the changes do not decrease,
the assignments are at the frames up to the position, one after the other. The induction
is on the changes; what it carries is the position. -/
theorem changeStores_frames {cs : List (NFrames × UInt32)} {dat : CvOutData}
    (hsorted : cs.Pairwise fun c d => c.1 ≤ d.1) (hafter : ∀ c ∈ cs, dat.time ≤ c.1) :
    List.range dat.time.toNat ++ (changeStores cs dat).map Prod.fst =
      List.range (cs.foldl CvOutData.change dat).time.toNat := by
  induction cs generalizing dat with
  | nil => exact List.append_nil _
  | cons c cs ih =>
    obtain ⟨hfirst, hsorted⟩ := List.pairwise_cons.mp hsorted
    -- the first change fills the frames from the position up to its offset
    have hle : dat.time.toNat ≤ c.1.toNat :=
      UInt32.le_iff_toNat_le.mp (hafter c List.mem_cons_self)
    have hrest := @ih (dat.change c) hsorted hfirst
    rw [changeStores, List.map_append, ← List.append_assoc, fillStores_frames hle]
    exact hrest

variable (last) in
/-- The offsets of the changes do not decrease along the queue. -/
theorem cvChanges_pairwise {l : List Event} (hl : Ordered l) :
    (cvChanges P last l).Pairwise fun c d => c.1 ≤ d.1 := by
  unfold cvChanges
  rw [List.pairwise_flatMap]
  constructor
  · -- the messages of one event have one offset
    intro tev _
    rw [List.pairwise_map]
    exact List.pairwise_of_forall fun _ _ => UInt32.le_refl _
  · refine (hl.offset_pairwise last).imp ?_
    intro a b hab c hc d hd
    obtain ⟨_, -, rfl⟩ := List.mem_map.mp hc
    obtain ⟨_, -, rfl⟩ := List.mem_map.mp hd
    exact hab

/-- They are not behind the period. -/
theorem cvChanges_le (hw : NoWrap last nframes) {l : List Event}
    (hl : ∀ e ∈ l, due last nframes e = true) :
    ∀ c ∈ cvChanges P last l, c.1.toNat ≤ nframes.toNat := by
  intro c hc
  obtain ⟨tev, htev, hc⟩ := List.mem_flatMap.mp hc
  obtain ⟨_, -, rfl⟩ := List.mem_map.mp hc
  have hdue := hw.due_iff.mp (hl tev htev)
  show (clamp last last tev.time - last).toNat ≤ nframes.toNat
  rw [offset_toNat, clamp_toNat]
  omega

/-- The position behind the changes is that of the last one. -/
theorem foldl_change_le {n : ℕ} {cs : List (NFrames × UInt32)} {dat : CvOutData}
    (hdat : dat.time.toNat ≤ n) (hcs : ∀ c ∈ cs, c.1.toNat ≤ n) :
    (cs.foldl CvOutData.change dat).time.toNat ≤ n := by
  induction cs generalizing dat with
  | nil => exact hdat
  | cons c cs ih =>
    exact ih (hcs c List.mem_cons_self) fun d hd => hcs d (List.mem_cons_of_mem _ hd)

theorem foldl_change_value (cs : List (NFrames × UInt32)) (dat : CvOutData) :
    (cs.foldl CvOutData.change dat).value = (cs.getLast?.map Prod.snd).getD dat.value := by
  rcases List.eq_nil_or_concat cs with rfl | ⟨cs, c, rfl⟩
  · rfl
  · rw [List.concat_eq_append, List.foldl_append, List.getLast?_concat]
    rfl

variable (last nframes) in
/-- **What `cv_out` does to its port buffer.** It assigns to every frame of the period
once, in order, and to nothing else. A frame gets the value of the last due message whose
offset is not behind it, or the value held from the period before, and the value of the
last due message of all is held for the next one. -/
theorem processOut_fills (hw : NoWrap last nframes) {s : OutState CvOutData}
    (hq : Ordered s.queue) :
    let changes := cvChanges P last (dueEvents last nframes s.queue)
    let s' := processOut P last nframes s
    (stores P last nframes s).map Prod.fst = List.range nframes.toNat ∧
      s'.dat.portBuf = assign (stores P last nframes s) s.dat.portBuf ∧
      (∀ k < nframes.toNat, s'.dat.portBuf k = held s.dat.value changes k) ∧
      (∀ k, nframes.toNat ≤ k → s'.dat.portBuf k = s.dat.portBuf k) ∧
      s'.dat.value = (changes.getLast?.map Prod.snd).getD s.dat.value := by
  intro changes s'
  set dat : CvOutData := { s.dat with time := 0 } with hdat
  have hdue : Ordered (dueEvents last nframes s.queue) := hq.filter _
  have hle : (changes.foldl CvOutData.change dat).time.toNat ≤ nframes.toNat :=
    foldl_change_le (Nat.zero_le _) (cvChanges_le P hw fun e he => (List.mem_filter.mp he).2)
  have hframes : (stores P last nframes s).map Prod.fst = List.range nframes.toNat := by
    -- the changes go up to the position of the last one, and the rest is filled behind them
    have hloop : List.range dat.time.toNat ++ (changeStores changes dat).map Prod.fst = _ :=
      changeStores_frames (cvChanges_pairwise P last hdue) fun c _ =>
        UInt32.le_iff_toNat_le.mpr (Nat.zero_le c.1.toNat)
    rw [stores_eq P hq]
    simp only
    rw [List.map_append, ← fillStores_frames hle]
    congr 1
  refine ⟨hframes, processOut_portBuf P hq, (processOut_emits P last nframes hq).1, ?_, ?_⟩
  · -- no assignment is behind the period
    intro k hk
    show (processOut P last nframes s).dat.portBuf k = _
    rw [processOut_portBuf P hq]
    have hnot : ∀ st ∈ stores P last nframes s, st.1 ≠ k := by
      rintro st hst rfl
      have hmem := List.mem_map_of_mem (f := Prod.fst) hst
      rw [hframes, List.mem_range] at hmem
      omega
    exact assign_of_ne hnot s.dat.portBuf
  · have hrun := ((loop P last).run_out last nframes (s := { s with dat }) hq).1
    rw [emitAll_eq] at hrun
    show ((loop P last).run last nframes { s with dat }).dat.value = _
    rw [hrun]
    exact foldl_change_value changes dat

end Stores

/-- `/cv` with the value `1` for immediate execution, another message that is late, `/cv`
with the value `2` at frame 12, and one that is not due before frame 16. -/
def mixed : OutState CvOutData where
  queue := [⟨0, 0, 0, [47, 99, 118, 0, 44, 102, 0, 0, 63, 128, 0, 0]⟩,
    ⟨1, 0, 5, [47, 99, 117, 0, 44, 102, 0, 0, 64, 64, 0, 0]⟩,
    ⟨2, 0, 12, [47, 99, 118, 0, 44, 102, 0, 0, 64, 0, 0, 0]⟩,
    ⟨3, 0, 20, [47, 99, 118, 0, 44, 102, 0, 0, 64, 64, 0, 0]⟩]
  dat := ⟨fun _ => 9, 0, 7⟩
  messages := []
  drained := []

theorem processOut_fills_mixed :
    let P := Platform.plain 64 (LuaScript.pass 0)
    let s' := processOut P 8 8 mixed
    (stores P 8 8 mixed).map Prod.fst = List.range 8 ∧
      s'.dat.portBuf 3 = 0x3f800000 ∧ s'.dat.portBuf 4 = 0x40000000 ∧
      s'.dat.portBuf 8 = 9 ∧ s'.dat.value = 0x40000000 := by
  intro P s'
  have hq : Ordered mixed.queue := (by decide : mixed.queue.Pairwise Event.Before)
  obtain ⟨hframes, -, hheld, hrest, hvalue⟩ := processOut_fills P 8 8 (by decide) hq
  refine ⟨hframes, ?_, ?_, hrest 8 (by decide), ?_⟩
  · exact (hheld 3 (by decide)).trans (by decide +kernel)
  · exact (hheld 4 (by decide)).trans (by decide +kernel)
  · exact hvalue.trans (by decide +kernel)

end CvOut

end Tjost
