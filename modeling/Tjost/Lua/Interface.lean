import Tjost.Library.BinaryFloat
import Tjost.Library.ByteMemory
import Tjost.Types

/-!
# Lua and libosc

The interfaces of the two libraries between which `tjost_lua.c` translates.

A Lua value is what a position of the stack can hold, with the two kinds of
userdata that messages carry. Lua numbers are doubles. Where C leaves the result of
a conversion open (an integer cast out of range, the bits of a NaN), `LuaApi` says
what the machine does.

The setters of libosc append the encoding of a value at a pointer, as long as it
fits into the buffer. The pointers are offsets into `module->buffer`, with `none`
for `NULL`, and its end is `TJOST_BUF_SIZE`.
-/

open BinaryFloat ByteMemory

namespace Tjost

/-! ### Lua -/

inductive LuaValue
  /-- There is no argument at the position. -/
  | none
  | nil
  | boolean (b : Bool)
  | number (x : Number binary64)
  | string (s : List Char)
  /-- A `Tjost_Blob`. -/
  | blob (buf : List UInt8)
  /-- A `Tjost_Midi`. -/
  | midi (buf : List UInt8)
  | other
  deriving DecidableEq

/-- What the Lua library and the machine leave open. -/
structure LuaApi where
  /-- The number that a string reads as. -/
  stringNumber : List Char → Option (Number binary64)
  /-- The text of a number. -/
  numberString : Number binary64 → List Char
  /-- An integer cast out of the range of the type. -/
  castOutside : ℤ → ℤ → Number binary64 → ℤ
  /-- The bits of a NaN. -/
  nan32 : UInt32
  nan64 : UInt64

namespace LuaApi

variable (A : LuaApi)

/-- A cast to the integer type with the values from `lo` to `hi`. -/
def cast (lo hi : ℤ) (x : Number binary64) : ℤ :=
  match x with
  | .finite y => if lo ≤ y.trunc ∧ y.trunc ≤ hi then y.trunc else A.castOutside lo hi x
  | _ => A.castOutside lo hi x

/-- `luaL_checknumber`, or `none` where it raises an error. -/
def checkNumber : LuaValue → Option (Number binary64)
  | .number x => some x
  | .string s => A.stringNumber s
  | _ => none

/-- `lua_isnumber`. -/
def isNumber (v : LuaValue) : Bool := (A.checkNumber v).isSome

/-- `luaL_checkinteger`. -/
def checkInteger (v : LuaValue) : Option ℤ :=
  (A.checkNumber v).map (A.cast (-2 ^ 63) (2 ^ 63 - 1))

/-- `luaL_checkstring`. -/
def checkString : LuaValue → Option (List Char)
  | .string s => some s
  | .number x => some (A.numberString x)
  | _ => none

end LuaApi

/-- `luaL_checkudata` for a `Tjost_Blob`. -/
def LuaValue.checkBlob : LuaValue → Option (List UInt8)
  | .blob buf => some buf
  | _ => Option.none

/-- `luaL_checkudata` for a `Tjost_Midi`. -/
def LuaValue.checkMidi : LuaValue → Option (List UInt8)
  | .midi buf => some buf
  | _ => Option.none

/-! ### libosc -/

/-- What a setter writes and a getter reads. Floats and doubles are their bits. -/
inductive OscItem
  | path (s : List Char)
  | fmt (s : List Char)
  | int32 (i : Int32)
  | float (f : UInt32)
  | string (s : List Char)
  | blob (b : List UInt8)
  | int64 (h : Int64)
  | double (d : UInt64)
  | timetag (t : UInt64)
  | symbol (s : List Char)
  | char (c : Int8)
  | midi (m : List UInt8)
  deriving DecidableEq, Repr

/-- `OSC_IMMEDIATE`. -/
def oscImmediate : UInt64 := 1

/-- The 16 bytes in front of the elements of a bundle. -/
def bundleHeader (timetag : UInt64) : List UInt8 :=
  [35, 98, 117, 110, 100, 108, 101, 0] ++ Bytes.toBE 8 timetag.toNat

@[simp] theorem length_bundleHeader (timetag : UInt64) : (bundleHeader timetag).length = 16 := by
  simp [bundleHeader]

/-- The size in front of a bundle element. -/
def itemSize (n : ℕ) : List UInt8 := Bytes.toBE 4 n

@[simp] theorem length_itemSize (n : ℕ) : (itemSize n).length = 4 := by
  simp [itemSize]

/-- The setters, each with the buffer before its pointer. -/
structure LibOsc where
  checkPath : List Char → Bool
  checkFmt : List Char → Bool
  /-- The encoding of a value. -/
  encode : OscItem → List UInt8
  set : OscItem → ByteMemory.Memory → Option ℕ → ByteMemory.Memory × Option ℕ
  /-- Also answers the bundle pointer. -/
  startBundle : ByteMemory.Memory → Option ℕ → UInt64 → ByteMemory.Memory × Option ℕ × Option ℕ
  endBundle : ByteMemory.Memory → Option ℕ → Option ℕ → ByteMemory.Memory × Option ℕ
  /-- Also answers the item pointer. -/
  startBundleItem : ByteMemory.Memory → Option ℕ → ByteMemory.Memory × Option ℕ × Option ℕ
  endBundleItem : ByteMemory.Memory → Option ℕ → Option ℕ → ByteMemory.Memory × Option ℕ
  encode_path_ne : ∀ s, encode (.path s) ≠ []
  set_eq : ∀ item mem p, p + (encode item).length ≤ bufSize →
    set item mem (some p) = (write mem p (encode item), some (p + (encode item).length))
  startBundle_eq : ∀ mem p timetag, p + 16 ≤ bufSize →
    startBundle mem (some p) timetag = (write mem p (bundleHeader timetag), some (p + 16), some p)
  /-- A bundle with elements ends where it is. -/
  endBundle_eq : ∀ mem p bndl, bndl + 16 < p → endBundle mem (some p) (some bndl) = (mem, some p)
  /-- Four bytes are kept free for the size. -/
  startBundleItem_eq : ∀ mem p, p + 4 ≤ bufSize →
    startBundleItem mem (some p) = (mem, some (p + 4), some p)
  /-- The size of the bytes behind the item pointer goes there. -/
  endBundleItem_eq : ∀ mem p itm, itm + 4 < p →
    endBundleItem mem (some p) (some itm) = (write mem itm (itemSize (p - itm - 4)), some p)

/-! ### Plain implementations -/

/-- Strings are no numbers. -/
def LuaApi.plain : LuaApi where
  stringNumber _ := none
  numberString _ := []
  castOutside lo _ _ := lo
  nan32 := 0x7fc00000
  nan64 := 0x7ff8000000000000

/-- A string with its padding to a multiple of four bytes. -/
def oscPad (s : List Char) : List UInt8 :=
  let bytes := s.map fun c => UInt8.ofNat c.toNat
  bytes ++ List.replicate (4 - s.length % 4) 0

/-- The encodings of the standard. -/
def OscItem.plain : OscItem → List UInt8
  | .path s | .string s | .symbol s => oscPad s
  | .fmt s => oscPad (',' :: s)
  | .int32 i => Bytes.toBE 4 i.toUInt32.toNat
  | .float f => Bytes.toBE 4 f.toNat
  | .blob b => Bytes.toBE 4 b.length ++ b ++ List.replicate ((4 - b.length % 4) % 4) 0
  | .int64 h => Bytes.toBE 8 h.toUInt64.toNat
  | .double d => Bytes.toBE 8 d.toNat
  | .timetag t => Bytes.toBE 8 t.toNat
  | .char c => Bytes.toBE 4 c.toUInt8.toNat
  | .midi m => m

def LibOsc.plain : LibOsc where
  checkPath s := s.head? = some '/'
  checkFmt s := s.all fun c => c ∈ "ifsbhdtTFNIScm".toList
  encode := OscItem.plain
  set item mem ptr :=
    match ptr with
    | some p =>
      if p + item.plain.length ≤ bufSize then
        (write mem p item.plain, some (p + item.plain.length))
      else (mem, none)
    | none => (mem, none)
  startBundle mem ptr timetag :=
    match ptr with
    | some p =>
      if p + 16 ≤ bufSize then (write mem p (bundleHeader timetag), some (p + 16), some p)
      else (mem, none, none)
    | none => (mem, none, none)
  endBundle mem ptr bndl := if ptr.getD 0 > bndl.getD 0 + 16 then (mem, ptr) else (mem, bndl)
  startBundleItem mem ptr :=
    match ptr with
    | some p => if p + 4 ≤ bufSize then (mem, some (p + 4), some p) else (mem, none, none)
    | none => (mem, none, none)
  endBundleItem mem ptr itm :=
    match ptr, itm with
    | some p, some itm =>
      if itm + 4 < p then (write mem itm (itemSize (p - itm - 4)), some p) else (mem, some itm)
    | _, _ => (mem, none)
  encode_path_ne s h := by
    have hlen := congrArg List.length h
    simp only [OscItem.plain, oscPad, List.length_append, List.length_map, List.length_replicate,
      List.length_nil] at hlen
    omega
  set_eq _ _ _ h := if_pos h
  startBundle_eq _ _ _ h := if_pos h
  endBundle_eq _ _ _ h := if_pos h
  startBundleItem_eq _ _ h := if_pos h
  endBundleItem_eq _ _ _ h := if_pos h

end Tjost
