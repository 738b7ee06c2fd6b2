import Tjost.Library.Transition
import Tjost.Modules.ControlVoltage

/-!
# The transport

`process_in` of `mod_transport.c` asks JACK for the state of the transport in every cycle, and
schedules a message if something has changed. What it compares are the state and four fields of
the position, with those of the query that it has sent last. What it sends depends on the valid
bits as well, which it does not compare, and nothing has been sent before the first comparison,
for which `add` leaves the data as the allocator returns it.

`Transport.mirrored_iff`: along a run, the last message scheduled is that of the current query
after every cycle, if and only if every query differs from the data of the module, or says the
same as the query before it, and has a state with a path.
-/

open Transition

namespace Tjost

/-- The part of libosc that `mod_transport.c` uses. -/
structure TransportWriter extends OscWriter where
  setInt32 : Int32 → List UInt8
  length_setInt32 : ∀ i, (setInt32 i).length = 4
  setInt32_injective : Function.Injective setInt32

namespace Transport

/-- `state_path`, which has entries for `JackTransportStopped` up to `JackTransportStarting`. -/
def statePath (state : UInt32) : Option (List Char) :=
  ["/transport/stopped".toList, "/transport/rolling".toList, "/transport/looping".toList,
    "/transport/starting".toList][state.toNat]?

/-- `len`. -/
def len : ℕ := 44

/-- `JackPositionBBT`. -/
def positionBBT : UInt32 := 0x10

/-- `JackBBTFrameOffset`. -/
def bbtFrameOffset : UInt32 := 0x40

/-- What `jack_transport_query` answers: the state, and the fields of the position that are
used. -/
structure Query where
  state : UInt32
  bar : Int32
  beat : Int32
  tick : Int32
  bbtOffset : UInt32
  valid : UInt32
  deriving DecidableEq, Repr

def Query.bbtValid (q : Query) : Bool := q.valid &&& positionBBT != 0

def Query.offsetValid (q : Query) : Bool := q.valid &&& bbtFrameOffset != 0

/-- `Data`. -/
structure Data where
  state : UInt32
  bar : Int32
  tick : Int32
  beat : Int32
  offset : UInt32
  deriving DecidableEq, Repr

/-- What is stored of a query. -/
def Query.data (q : Query) : Data := ⟨q.state, q.bar, q.tick, q.beat, q.bbtOffset⟩

/-- The comparison. -/
def changed (q : Query) (dat : Data) : Bool :=
  q.state != dat.state || q.bar != dat.bar || q.beat != dat.beat || q.tick != dat.tick ||
    q.bbtOffset != dat.offset

/-- The integers of a message. -/
def Query.values (q : Query) : List Int32 :=
  (if q.bbtValid then [q.bar, q.beat, q.tick] else [0, 0, 0]) ++
    [if q.offsetValid then q.bbtOffset.toInt32 else 0]

variable (W : TransportWriter) (outside : Query → List UInt8)

/-- The message with a path. -/
def encode (path : List Char) (q : Query) : List UInt8 :=
  W.setPath path ++ W.setFmt "iiii".toList ++ q.values.flatMap W.setInt32

/-- What is written into the block. `outside` are the bytes that are there when `state_path` is
read outside its bounds. -/
def message (q : Query) : List UInt8 :=
  match statePath q.state with
  | some path => encode W path q
  | none => outside q

/-- `process_in`, on the data of the module. -/
def processIn (m : ModulePtr) (last : NFrames) (q : Query) (dat : Data) : Data × List SchedCall :=
  if changed q dat then (q.data, [⟨true, m, last, message W outside q⟩]) else (dat, [])

end Transport

/-- A transport module: its data, all events that it has scheduled, and the current query. -/
structure Transport where
  dat : Transport.Data
  calls : List SchedCall
  query : Option Transport.Query

namespace Transport

variable (W : TransportWriter) (outside : Query → List UInt8) (m : ModulePtr)

/-- A cycle: its first frame, and what JACK answers. -/
structure Cycle where
  last : NFrames
  query : Query
  deriving DecidableEq, Repr

def step (s : Transport) (c : Cycle) : Transport :=
  let (dat, calls) := processIn W outside m c.last c.query s.dat
  ⟨dat, s.calls ++ calls, some c.query⟩

/-- No cycle yet. `tjost_alloc` has not cleared the data. -/
def Init (s : Transport) : Prop := s.calls = [] ∧ s.query = none

def machine : Machine Transport Cycle where
  init := Init
  step s c := some (step W outside m s c)

/-- **The mirror**: the last message is that of the current query. -/
def Mirrored (s : Transport) : Prop :=
  ∀ q ∈ s.query, ∃ path ∈ statePath q.state,
    (s.calls.getLast?).map SchedCall.buf = some (encode W path q)

/-- Two queries with the same fields say the same. -/
def SameValidity (q q' : Query) : Prop :=
  (q.bbtValid = q'.bbtValid ∨ q.bar = 0 ∧ q.beat = 0 ∧ q.tick = 0) ∧
    (q.offsetValid = q'.offsetValid ∨ q.bbtOffset = 0)

/-- The query has a state with a path, and differs from the data of the module or says the same
as the query before it. -/
def Noticed (s : Transport) (c : Cycle) : Prop :=
  (statePath c.query.state).isSome ∧
    (changed c.query s.dat ∨ ∃ q ∈ s.query, SameValidity q c.query)

instance (q q' : Query) : Decidable (SameValidity q q') := by
  unfold SameValidity
  infer_instance

instance (s : Transport) (c : Cycle) : Decidable (Noticed s c) :=
  match h : s.query with
  | some q => decidable_of_iff ((statePath c.query.state).isSome ∧
      (changed c.query s.dat ∨ SameValidity q c.query)) (by simp [Noticed, h])
  | none => decidable_of_iff ((statePath c.query.state).isSome ∧ changed c.query s.dat)
      (by simp [Noticed, h])

section Mirror

variable {W outside m} {s : Transport} {q q' : Query} {dat : Data}

theorem changed_eq_false : changed q dat = false ↔ q.data = dat := by
  obtain ⟨state, bar, tick, beat, offset⟩ := dat
  simp only [changed, Query.data, Data.mk.injEq, Bool.or_eq_false_iff, bne_eq_false_iff_eq]
  constructor
  · rintro ⟨⟨⟨⟨hstate, hbar⟩, hbeat⟩, htick⟩, hoffset⟩
    exact ⟨hstate, hbar, htick, hbeat, hoffset⟩
  · rintro ⟨hstate, hbar, htick, hbeat, hoffset⟩
    exact ⟨⟨⟨⟨hstate, hbar⟩, hbeat⟩, htick⟩, hoffset⟩

theorem length_values (q : Query) : q.values.length = 4 := by
  unfold Query.values
  cases q.bbtValid <;> rfl

/-- The message fills the block that is allocated for it, whatever the state is. -/
theorem length_message {path : List Char} (hpath : path ∈ statePath q.state) :
    (message W outside q).length = len := by
  have hmessage : message W outside q = encode W path q := by
    unfold message
    rw [hpath]
  -- all paths of the table take 20 bytes
  have hall : ∀ path ∈ ["/transport/stopped".toList, "/transport/rolling".toList,
      "/transport/looping".toList, "/transport/starting".toList], oscPadded path.length = 20 := by
    decide
  have hpadded : oscPadded path.length = 20 := hall path (List.mem_of_getElem? hpath)
  have hargs : ∀ l : List Int32, (l.flatMap W.setInt32).length = l.length * 4 := by
    intro l
    induction l with
    | nil => rfl
    | cons i l ih =>
      rw [List.flatMap_cons, List.length_append, ih, W.length_setInt32, List.length_cons]
      omega
  rw [hmessage]
  unfold encode
  rw [List.length_append, List.length_append, hargs, length_values, W.length_setPath, hpadded,
    W.length_setFmt]
  rfl

/-- Integers that have been written tell themselves apart. -/
theorem flatMap_setInt32_inj {l l' : List Int32} (hlen : l.length = l'.length) :
    l.flatMap W.setInt32 = l'.flatMap W.setInt32 ↔ l = l' := by
  refine ⟨fun h => ?_, fun h => by rw [h]⟩
  induction l generalizing l' with
  | nil => exact (List.length_eq_zero_iff.mp hlen.symm).symm
  | cons i l ih =>
    cases l' with
    | nil => exact absurd hlen (Nat.succ_ne_zero _)
    | cons i' l' =>
      rw [List.flatMap_cons, List.flatMap_cons] at h
      obtain ⟨hi, hl⟩ := List.append_inj h (by rw [W.length_setInt32, W.length_setInt32])
      rw [W.setInt32_injective hi, ih (Nat.succ.inj hlen) hl]

theorem encode_inj (path : List Char) : encode W path q = encode W path q' ↔ q.values = q'.values := by
  unfold encode
  rw [List.append_cancel_left_eq]
  exact flatMap_setInt32_inj ((length_values q).trans (length_values q').symm)

theorem toInt32_eq_zero {x : UInt32} : x.toInt32 = 0 ↔ x = 0 := by
  refine ⟨fun h => ?_, fun h => by rw [h]; rfl⟩
  have hback := congrArg Int32.toUInt32 h
  rwa [UInt32.toUInt32_toInt32] at hback

/-- **What queries with the same fields say**: the same, unless a valid bit has flipped in front
of a field that is not zero. -/
theorem values_eq_iff (h : q.data = q'.data) : q.values = q'.values ↔ SameValidity q q' := by
  obtain ⟨-, hbar, htick, hbeat, hoffset⟩ := Data.mk.injEq .. ▸ h
  -- the two parts of a message, each with its own bit
  have hbbt : (if q.bbtValid then [q.bar, q.beat, q.tick] else [0, 0, 0]) =
        (if q'.bbtValid then [q'.bar, q'.beat, q'.tick] else [0, 0, 0]) ↔
      q.bbtValid = q'.bbtValid ∨ q.bar = 0 ∧ q.beat = 0 ∧ q.tick = 0 := by
    rw [← hbar, ← hbeat, ← htick]
    cases q.bbtValid <;> cases q'.bbtValid <;> simp [eq_comm]
  have hoff : (if q.offsetValid then q.bbtOffset.toInt32 else 0) =
        (if q'.offsetValid then q'.bbtOffset.toInt32 else 0) ↔
      q.offsetValid = q'.offsetValid ∨ q.bbtOffset = 0 := by
    rw [← hoffset, ← toInt32_eq_zero]
    cases q.offsetValid <;> cases q'.offsetValid <;> simp [eq_comm]
  have hlen : (if q.bbtValid then [q.bar, q.beat, q.tick] else [0, 0, 0]).length =
      (if q'.bbtValid then [q'.bar, q'.beat, q'.tick] else [0, 0, 0]).length := by
    cases q.bbtValid <;> cases q'.bbtValid <;> rfl
  unfold Query.values SameValidity
  rw [← hbbt, ← hoff]
  constructor
  · intro heq
    obtain ⟨h₁, h₂⟩ := List.append_inj heq hlen
    exact ⟨h₁, List.singleton_injective h₂⟩
  · rintro ⟨h₁, h₂⟩
    rw [h₁, h₂]

/-- What the data of the module is after a cycle. -/
def Stored (s : Transport) : Prop := ∀ q ∈ s.query, s.dat = q.data

theorem step_stored (s : Transport) (c : Cycle) : Stored (step W outside m s c) := by
  rintro q ⟨⟩
  show (processIn W outside m c.last c.query s.dat).1 = c.query.data
  unfold processIn
  cases hchanged : changed c.query s.dat with
  | true => rw [if_pos rfl]
  | false =>
    -- nothing is stored, and nothing has to be
    rw [if_neg Bool.false_ne_true]
    exact (changed_eq_false.mp hchanged).symm

/-- What a run keeps. -/
structure Kept (s : Transport) : Prop where
  stored : Stored s
  silent : s.query = none → s.calls = []

theorem step_kept (s : Transport) (c : Cycle) : Kept (step W outside m s c) where
  stored := step_stored s c
  silent h := nomatch h

/-- A query that differs from the data is sent. -/
theorem step_of_changed {c : Cycle} (h : changed c.query s.dat = true) :
    Mirrored W (step W outside m s c) ↔ (statePath c.query.state).isSome := by
  have hcalls : (step W outside m s c).calls =
      s.calls ++ [⟨true, m, c.last, message W outside c.query⟩] := by
    show s.calls ++ (processIn W outside m c.last c.query s.dat).2 = _
    unfold processIn
    rw [if_pos h]
  have hlast : ((step W outside m s c).calls.getLast?).map SchedCall.buf =
      some (message W outside c.query) := by
    rw [hcalls, List.getLast?_append]
    rfl
  constructor
  · intro hmirrored
    obtain ⟨path, hpath, -⟩ := hmirrored c.query rfl
    exact Option.isSome_iff_exists.mpr ⟨path, hpath⟩
  · rintro hsome q ⟨⟩
    obtain ⟨path, hpath⟩ := Option.isSome_iff_exists.mp hsome
    refine ⟨path, hpath, hlast.trans ?_⟩
    unfold message
    rw [hpath]

/-- One that does not is not, so it has to say what the query before it has said. -/
theorem step_of_unchanged (hs : Kept s) (hmirrored : Mirrored W s) {c : Cycle}
    (h : changed c.query s.dat = false) :
    Mirrored W (step W outside m s c) ↔
      (statePath c.query.state).isSome ∧ ∃ q ∈ s.query, SameValidity q c.query := by
  have hcalls : (step W outside m s c).calls = s.calls := by
    show s.calls ++ (processIn W outside m c.last c.query s.dat).2 = _
    unfold processIn
    rw [if_neg (by rw [h]; exact Bool.false_ne_true), List.append_nil]
  cases hquery : s.query with
  | none =>
    -- nothing has been sent at all
    refine iff_of_false ?_ ?_
    · intro hnow
      obtain ⟨path, -, hlast⟩ := hnow c.query rfl
      rw [hcalls, hs.silent hquery] at hlast
      exact nomatch hlast
    · rintro ⟨-, q, hq, -⟩
      exact nomatch hq
  | some q =>
    -- the last message is that of `q`, whose stored fields are those of the current query
    obtain ⟨path, hpath, hlast⟩ := hmirrored q hquery
    have hdata : q.data = c.query.data :=
      (hs.stored q hquery).symm.trans (changed_eq_false.mp h).symm
    have hstate : c.query.state = q.state := (congrArg Data.state hdata).symm
    have hpath' : statePath c.query.state = some path := by rw [hstate]; exact hpath
    constructor
    · intro hnow
      obtain ⟨path', hpath'', hlast'⟩ := hnow c.query rfl
      obtain rfl : path = path' := Option.some.inj (hpath'.symm.trans hpath'')
      rw [hcalls, hlast] at hlast'
      refine ⟨by rw [hpath']; rfl, q, rfl, ?_⟩
      exact (values_eq_iff hdata).mp ((encode_inj path).mp (Option.some.inj hlast'))
    · rintro ⟨-, q', ⟨⟩, hsame⟩ q'' ⟨⟩
      refine ⟨path, hpath', ?_⟩
      rw [hcalls, hlast]
      exact congrArg some ((encode_inj path).mpr ((values_eq_iff hdata).mpr hsame))

/-- **One cycle.** -/
theorem step_mirrored_iff (hs : Kept s) (hmirrored : Mirrored W s) (c : Cycle) :
    Mirrored W (step W outside m s c) ↔ Noticed s c := by
  unfold Noticed
  cases h : changed c.query s.dat with
  | true =>
    rw [step_of_changed h]
    exact (and_iff_left (Or.inl rfl)).symm
  | false =>
    rw [step_of_unchanged hs hmirrored h, or_iff_right Bool.false_ne_true]

/-- **When the module mirrors the transport.** -/
theorem mirrored_iff {s' : Transport} {cycles : List Cycle} (hs : Init s)
    (hrun : (machine W outside m).exec s cycles = some s') :
    (∀ cycles' t, cycles' <+: cycles → (machine W outside m).exec s cycles' = some t →
        Mirrored W t) ↔
      (machine W outside m).Meets Noticed s cycles := by
  obtain ⟨hcalls, hquery⟩ := hs
  -- in front of the first cycle there is nothing to mirror
  have hnone : ∀ q, q ∉ s.query := by
    rw [hquery]
    exact fun q => Option.not_mem_none q
  have hkept : Kept s := ⟨fun q hq => absurd hq (hnone q), fun _ => hcalls⟩
  have hmirrored : Mirrored W s := fun q hq => absurd hq (hnone q)
  refine (machine W outside m).meets_iff (S := Kept) (I := Mirrored W) ?_ ?_ hkept hmirrored hrun
  · intro s c s' _ h
    obtain rfl := Option.some.inj h
    exact step_kept s c
  · intro s c s' hs hmirrored h
    obtain rfl := Option.some.inj h
    exact step_mirrored_iff hs hmirrored c

end Mirror

/-- A writer of big-endian integers. -/
def plainWriter : TransportWriter where
  toOscWriter := OscWriter.plain
  setInt32 i := Bytes.toBE 4 i.toUInt32.toNat
  length_setInt32 _ := Bytes.length_toBE 4 _
  setInt32_injective i j h := by
    have hback : ∀ k : Int32, Bytes.ofBE (Bytes.toBE 4 k.toUInt32.toNat) = k.toUInt32.toNat := by
      intro k
      rw [Bytes.ofBE_toBE]
      exact Nat.mod_eq_of_lt k.toUInt32.toNat_lt
    have hnat : i.toUInt32.toNat = j.toUInt32.toNat := by
      rw [← hback i, ← hback j]
      exact congrArg Bytes.ofBE h
    rw [← Int32.toInt32_toUInt32 i, UInt32.toNat_inj.mp hnat, Int32.toInt32_toUInt32]

/-- A module with cleared data. -/
def start : Transport := ⟨⟨0, 0, 0, 0, 0⟩, [], none⟩

/-- The transport rolls through three beats, and the tempo map is gone in the third cycle. -/
theorem mirrored_iff_rolling :
    let cycles : List Cycle := [⟨0, 1, 1, 1, 0, 0, 0x10⟩, ⟨64, 1, 1, 2, 0, 0, 0x10⟩,
      ⟨128, 1, 0, 0, 0, 0, 0⟩]
    ∃ t, (machine plainWriter (fun _ => []) 1).exec start cycles = some t ∧
      Mirrored plainWriter t := by
  intro cycles
  refine ⟨_, rfl, ?_⟩
  exact (@mirrored_iff plainWriter (fun _ => []) 1 start _ cycles ⟨rfl, rfl⟩ rfl).mpr
    (by decide +kernel) cycles _ (List.prefix_refl cycles) rfl

/-- **A transport that is stopped at the start** is like data that are cleared: nothing is
sent. -/
theorem stopped_silent :
    ∃ t, (machine plainWriter (fun _ => []) 1).exec start [⟨0, 0, 0, 0, 0, 0, 0⟩] = some t ∧
      t.calls = [] ∧ ¬ Mirrored plainWriter t := by
  refine ⟨_, rfl, rfl, fun h => ?_⟩
  obtain ⟨path, -, hlast⟩ := h ⟨0, 0, 0, 0, 0, 0⟩ rfl
  exact nomatch hlast

end Transport

end Tjost
