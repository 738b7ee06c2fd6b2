import Mathlib.Data.Int.Notation
import Mathlib.Data.List.TakeWhile
import Tjost.Types
import Tjost.Library.ByteRing

/-!
# Outside code

What the host calls but the repository does not contain: Eina's lists, JACK's
ports and ring buffers, libosc's packet walker, libuv's wake-ups and the Lua
interpreter with the user's script. Each is a structure of operations, together
with the documented behaviour the host relies on. `Platform` bundles them, and
everything that follows is stated for an arbitrary platform.
-/

namespace Tjost

/-- `eina_inlist_sorted_insert`. The comparison is called as `cmp node item`. An
item goes between the nodes that compare below it and those that compare above
it. -/
structure Eina (α : Type) where
  sortedInsert : List α → α → (α → α → ℤ) → List α
  sortedInsert_split : ∀ (pre post : List α) (item : α) (cmp : α → α → ℤ),
    (∀ a ∈ pre, cmp a item < 0) → (∀ b ∈ post, 0 < cmp b item) →
      sortedInsert (pre ++ post) item cmp = pre ++ item :: post

/-- An event in a JACK port buffer: its frame offset in the period and its
bytes. -/
structure PortEvent where
  time : NFrames
  buf : List UInt8
  deriving DecidableEq, Repr

/-- The buffer of an event port (`jack_osc_*`, `jack_midi_*`). A write is
accepted in order, inside the period and up to the size the buffer has left. -/
structure JackPort where
  /-- `*_max_event_size` of a buffer that holds these events. -/
  maxEventSize : List PortEvent → ℕ
  /-- `*_event_write` to a buffer of that many frames. -/
  eventWrite : NFrames → List PortEvent → PortEvent → List PortEvent
  eventWrite_eq : ∀ nframes evs ev, ev.time < nframes → (∀ e ∈ evs, e.time ≤ ev.time) →
    ev.buf.length ≤ maxEventSize evs → eventWrite nframes evs ev = evs ++ [ev]

/-- A message of an OSC packet: its path, its format and its argument bytes. -/
structure OscMessage where
  path : List Char
  fmt : List Char
  args : List UInt8
  deriving DecidableEq, Repr

/-- The part of libosc that the output modules use. Reading moves a pointer
through the argument bytes, which is the list of the bytes behind it. -/
structure OscReader where
  /-- The messages that `osc_dispatch_method` visits in a packet, in order. -/
  messages : List UInt8 → List OscMessage
  /-- `osc_skip`: move past one argument of that type. -/
  skip : Char → List UInt8 → List UInt8
  /-- `osc_get_float`: the bits of the value. -/
  getFloat : List UInt8 → UInt32

/-- A call of an output module from a Lua script, as far as it reaches
`tjost_module_schedule`. -/
structure LuaCall where
  module : ModulePtr
  time : NFrames
  buf : List UInt8

/-- What `tjost_lua_deserialize` makes the script do: its new state, the output
modules it called, and the texts of the errors that ended a callback. -/
structure LuaResult (σ : Type) where
  state : σ
  calls : List LuaCall
  errors : List String

/-- A script with interpreter states `σ`, as seen by the host: the responder of a
module is called for the event at its time. -/
structure LuaScript (σ : Type) where
  respond : σ → ModulePtr → NFrames → List UInt8 → LuaResult σ

/-- Bytes of a `Tjost_Event` that no reader looks at: the list pointers and the
padding. -/
structure Stale where
  next : UInt64
  prev : UInt64
  last : UInt64
  pad : UInt32
  deriving DecidableEq, Repr, Inhabited

/-- The image of an event whose unread bytes are `stale`. -/
def Stale.header (stale : Stale) (module : ModulePtr) (time : NFrames) (size : ℕ) :
    EventHeader where
  next := stale.next
  prev := stale.prev
  last := stale.last
  module := module
  time := time
  pad := stale.pad
  size := UInt64.ofNat size

/-- The code around the host. `ρ` are the states of a ring buffer and `σ` those
of the Lua interpreter. -/
structure Platform (ρ σ : Type) where
  eina : Eina Event
  ring : ByteRing ρ ringbufSize
  oscPort : JackPort
  midiPort : JackPort
  osc : OscReader
  lua : LuaScript σ
  /-- The unread header bytes of an event written to a ring. -/
  stale : Event → Stale
  /-- The `uv_err_name` of what `uv_async_send` answers, if that is an error. -/
  asyncSendError : Option String

/-! ### A platform

Plain implementations of the interfaces, so that the model can be run. -/

/-- Insertion before the first node that does not compare below the item. -/
def Eina.plain (α : Type) : Eina α where
  sortedInsert l item cmp :=
    l.takeWhile (fun a => cmp a item < 0) ++ item :: l.dropWhile (fun a => cmp a item < 0)
  sortedInsert_split pre post item cmp hpre hpost := by
    have htake : (pre ++ post).takeWhile (fun a => cmp a item < 0) = pre := by
      rw [List.takeWhile_append_of_pos (by simpa using hpre)]
      cases post with
      | nil => simp
      | cons b post =>
        have hb := hpost b List.mem_cons_self
        rw [List.takeWhile_cons_of_neg (by simp only [decide_eq_true_eq]; omega), List.append_nil]
    have hdrop : (pre ++ post).dropWhile (fun a => cmp a item < 0) = post := by
      have := List.takeWhile_append_dropWhile (p := fun a => decide (cmp a item < 0))
        (l := pre ++ post)
      rw [htake] at this
      exact List.append_cancel_left this
    rw [htake, hdrop]

/-- A port buffer with room for `capacity` bytes. -/
def JackPort.plain (capacity : ℕ) : JackPort where
  maxEventSize evs := capacity - (evs.map fun e => e.buf.length).sum
  eventWrite nframes evs ev :=
    if ev.time < nframes ∧ (∀ e ∈ evs, e.time ≤ ev.time) ∧
        ev.buf.length ≤ capacity - (evs.map fun e => e.buf.length).sum
    then evs ++ [ev] else evs
  eventWrite_eq _ _ _ hn hord hfit := if_pos ⟨hn, hord, hfit⟩

/-- The number of bytes of an OSC string of `n` characters, its padding
included. -/
def oscPadded (n : ℕ) : ℕ := (n / 4 + 1) * 4

/-- The string at the start of a buffer, and what follows its padding. -/
def oscString (buf : List UInt8) : List Char × List UInt8 :=
  let s := buf.takeWhile (· ≠ 0)
  (s.map fun b => Char.ofNat b.toNat, buf.drop (oscPadded s.length))

/-- A reader of packets that hold one message. -/
def OscReader.plain : OscReader where
  messages buf :=
    let path := oscString buf
    let fmt := oscString path.2
    if buf.head? = some 47 ∧ fmt.1.head? = some ',' then [⟨path.1, fmt.1.tail, fmt.2⟩] else []
  skip type ptr :=
    if type ∈ ['i', 'f', 'c', 'm'] then ptr.drop 4
    else if type ∈ ['h', 'd', 't'] then ptr.drop 8
    else if type ∈ ['s', 'S'] then (oscString ptr).2
    else if type = 'b' then ptr.drop (4 + (Bytes.ofBE (ptr.take 4) + 3) / 4 * 4)
    else ptr
  getFloat ptr := UInt32.ofNat (Bytes.ofBE (ptr.take 4))

/-- A script whose responders pass every event on to the module `out`. -/
def LuaScript.pass (out : ModulePtr) : LuaScript Unit where
  respond _ _ time buf := ⟨(), [⟨out, time, buf⟩], []⟩

/-- A platform of these, with ports of `capacity` bytes. -/
def Platform.plain {σ : Type} (capacity : ℕ) (lua : LuaScript σ) :
    Platform (ByteRing.Fifo ringbufSize) σ where
  eina := Eina.plain Event
  ring := ByteRing.fifo ringbufSize
  oscPort := JackPort.plain capacity
  midiPort := JackPort.plain capacity
  osc := OscReader.plain
  lua := lua
  stale _ := ⟨0, 0, 0, 0⟩
  asyncSendError := none

end Tjost
