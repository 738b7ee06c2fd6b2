import Tjost.Lua.PassThrough

/-!
# Packets

A packet of libosc is a message or a bundle, whose elements are packets. The arguments of a
message are `OscArg`s, so a format has no letters but those of the fourteen types.
-/

namespace Tjost

/-- A message or a bundle. -/
inductive OscPacket
  | message (path : List Char) (args : List OscArg)
  | bundle (timetag : UInt64) (elements : List OscPacket)

namespace OscArg

/-- The bytes of an argument. -/
def bytes (O : LibOsc) (a : OscArg) : List UInt8 :=
  match a.item with
  | some item => O.encode item
  | none => []

end OscArg

namespace OscPacket

variable (O : LibOsc)

/-- The format of arguments. -/
def fmt (args : List OscArg) : List Char := args.map OscArg.type

mutual

/-- The bytes of a packet. -/
def encode : OscPacket → List UInt8
  | .message path args =>
    O.encode (.path path) ++ O.encode (.fmt (fmt args)) ++ args.flatMap (OscArg.bytes O)
  | .bundle timetag elements => bundleHeader timetag ++ encodeAll elements

/-- The bytes of the elements of a bundle, each behind its size. -/
def encodeAll : List OscPacket → List UInt8
  | [] => []
  | p :: ps => itemSize (encode p).length ++ encode p ++ encodeAll ps

end

end OscPacket

end Tjost
