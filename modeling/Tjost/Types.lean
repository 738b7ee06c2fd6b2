import Mathlib.Data.List.Basic
import Tjost.Library.Bytes

/-!
# Data types

The data of `tjost.h` that the host, its modules and its pipes share: events,
module types and the constants. Pointers to modules are 64-bit addresses, with
`0` for `NULL`; payloads are byte strings, so the `size` of an event is the
length of its `buf`.

`EventHeader` is the memory image of a `Tjost_Event` without its payload, which
is what the ring buffers carry in front of every payload: three list pointers,
the module, the time, four bytes of padding and the size, `sizeofEvent = 48`
bytes on a little-endian LP64 machine. A header is recovered from its image
(`EventHeader.decode_encode`).
-/

namespace Tjost

/-- `jack_nframes_t`, a 32-bit frame counter. -/
abbrev NFrames := UInt32

/-- Address of a `Tjost_Module`. -/
abbrev ModulePtr := UInt64

/-- `TJOST_MODULE_BROADCAST`, the `NULL` module. -/
def moduleBroadcast : ModulePtr := 0

/-- `TJOST_BUF_SIZE`. -/
def bufSize : ℕ := 0x4000

/-- `TJOST_RINGBUF_SIZE`. -/
def ringbufSize : ℕ := 0x10000

theorem ringbufSize_pos : 0 < ringbufSize := by decide

/-- The bits of `Tjost_Module.type`. -/
abbrev ModuleType := UInt8

def moduleInput : ModuleType := 0b001
def moduleOutput : ModuleType := 0b010
def moduleInOut : ModuleType := moduleInput ||| moduleOutput
def moduleUplink : ModuleType := 0b110

/-- `type & TJOST_MODULE_INPUT`. -/
def isInput (t : ModuleType) : Bool := t &&& moduleInput != 0

/-- `type & TJOST_MODULE_OUTPUT`. An uplink has this bit. -/
def isOutput (t : ModuleType) : Bool := t &&& moduleOutput != 0

/-- A queued event. `seq` numbers the events in the order of scheduling: it is
the identity of the block the event lives in, and no code reads it. -/
structure Event where
  seq : ℕ
  module : ModulePtr
  time : NFrames
  buf : List UInt8
  deriving DecidableEq, Repr

/-- The `size` field of an event. -/
def Event.size (tev : Event) : ℕ := tev.buf.length

/-! ### The memory image of an event -/

/-- `sizeof(Tjost_Event)`. -/
def sizeofEvent : ℕ := 48

/-- The fields of a `Tjost_Event` in memory order, its list pointers and padding
included. -/
structure EventHeader where
  next : UInt64
  prev : UInt64
  last : UInt64
  module : ModulePtr
  time : NFrames
  pad : UInt32
  size : UInt64
  deriving DecidableEq, Repr

namespace EventHeader

/-- The bytes of the struct. -/
def encode (h : EventHeader) : List UInt8 :=
  Bytes.toLE 8 h.next.toNat ++ Bytes.toLE 8 h.prev.toNat ++ Bytes.toLE 8 h.last.toNat ++
    Bytes.toLE 8 h.module.toNat ++ Bytes.toLE 4 h.time.toNat ++ Bytes.toLE 4 h.pad.toNat ++
    Bytes.toLE 8 h.size.toNat

/-- The struct that `sizeofEvent` bytes are the image of. -/
def decode (bs : List UInt8) : EventHeader where
  next := UInt64.ofNat (Bytes.ofLE (bs.take 8))
  prev := UInt64.ofNat (Bytes.ofLE ((bs.drop 8).take 8))
  last := UInt64.ofNat (Bytes.ofLE ((bs.drop 16).take 8))
  module := UInt64.ofNat (Bytes.ofLE ((bs.drop 24).take 8))
  time := UInt32.ofNat (Bytes.ofLE ((bs.drop 32).take 4))
  pad := UInt32.ofNat (Bytes.ofLE ((bs.drop 36).take 4))
  size := UInt64.ofNat (Bytes.ofLE ((bs.drop 40).take 8))

@[simp] theorem length_encode (h : EventHeader) : h.encode.length = sizeofEvent := by
  simp [encode, sizeofEvent]

theorem ofLE_toLE_uint64 (x : UInt64) :
    UInt64.ofNat (Bytes.ofLE (Bytes.toLE 8 x.toNat)) = x := by
  rw [Bytes.ofLE_toLE_of_lt (by simpa using x.toNat_lt), UInt64.ofNat_toNat]

theorem ofLE_toLE_uint32 (x : UInt32) :
    UInt32.ofNat (Bytes.ofLE (Bytes.toLE 4 x.toNat)) = x := by
  rw [Bytes.ofLE_toLE_of_lt (by simpa using x.toNat_lt), UInt32.ofNat_toNat]

/-- Reading back the image of a header. -/
@[simp] theorem decode_encode (h : EventHeader) : decode h.encode = h := by
  cases h
  simp [decode, encode, List.drop_append, List.drop_eq_nil_of_le, List.take_of_length_le,
    ofLE_toLE_uint64, ofLE_toLE_uint32]

end EventHeader

end Tjost
