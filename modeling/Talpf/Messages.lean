import Talpf.Library.Varint

/-!
# Message codecs

`IPCMesg` and `MicroMsg` write fields one after the other into a buffer and read them back
in the same order.  An unsigned integer takes as many bytes as it needs.  The loops of the
two classes are independent of each other.  This is the release build, which neither writes
the names of the types nor checks assertions.  An access outside of the buffer has no result.
-/

namespace Talpf

/-- The value of a field; integers have any width. -/
inductive Field where
  | uint {w : ℕ} (number : BitVec w)
  | bool (value : Bool)
  | blob (bytes : List UInt8)

/-- What one has to know of a field to read it. -/
inductive FieldType where
  | uint (w : ℕ)
  | bool
  | blob (size : ℕ)

def Field.type : Field → FieldType
  | .uint (w := w) _ => .uint w
  | .bool _ => .bool
  | .blob bytes => .blob bytes.length

/-- The highest bit of a byte. -/
def hasNextBlock : UInt8 := 128

/-- All other bits of a byte. -/
def block : UInt8 := 127

/-- Copy bytes into a buffer. -/
def memcpy (buffer : List UInt8) (pos : ℕ) (bytes : List UInt8) : Option (List UInt8) :=
  if pos + bytes.length ≤ buffer.length then
    some (buffer.take pos ++ bytes ++ buffer.drop (pos + bytes.length))
  else none

/-- Set one byte of a buffer. -/
def store (buffer : List UInt8) (pos : ℕ) (byte : UInt8) : Option (List UInt8) :=
  if pos < buffer.length then some (buffer.set pos byte) else none

theorem toNat_shiftRight_lt {w : ℕ} {number : BitVec w} (more : number >>> 7 > 0) :
    (number >>> 7).toNat < number.toNat := by
  have positive : 0 < (number >>> 7).toNat := BitVec.lt_def.mp more
  rw [BitVec.toNat_ushiftRight, Nat.shiftRight_eq_div_pow] at positive ⊢
  omega

/-- A message between processes with the current position in it. -/
structure IPCMesg where
  buffer : List UInt8
  pos : ℕ
deriving DecidableEq

namespace IPCMesg

/-- Write an unsigned integer, seven bits at a time. -/
def write {w : ℕ} (mesg : IPCMesg) (number : BitVec w) : Option IPCMesg :=
  let c := UInt8.ofBitVec ((number.setWidth 64 &&& block.toBitVec.setWidth 64).setWidth 8)
  let number' := number >>> 7
  let c := if number' > 0 then c ||| hasNextBlock else c
  match store mesg.buffer mesg.pos c with
  | none => none
  | some buffer =>
      let mesg : IPCMesg := { buffer := buffer, pos := mesg.pos + 1 }
      if number' > 0 then mesg.write number' else some mesg
termination_by number.toNat
decreasing_by exact toNat_shiftRight_lt ‹_›

def writeBool (mesg : IPCMesg) (number : Bool) : Option IPCMesg :=
  mesg.write (if number then 1 else 0 : BitVec 8)

def writeBlob (mesg : IPCMesg) (bytes : List UInt8) : Option IPCMesg :=
  (memcpy mesg.buffer mesg.pos bytes).map fun buffer =>
    { buffer := buffer, pos := mesg.pos + bytes.length }

/-- The position of the last byte of an integer. -/
def lastBlock (buffer : List UInt8) (pos : ℕ) : Option ℕ :=
  if inside : pos < buffer.length then
    if buffer[pos] &&& hasNextBlock ≠ 0 then lastBlock buffer (pos + 1) else some pos
  else none
termination_by buffer.length - pos

/-- Read an unsigned integer; the last byte comes first. -/
def read (w : ℕ) (mesg : IPCMesg) : Option (BitVec w × IPCMesg) :=
  (lastBlock mesg.buffer mesg.pos).map fun last =>
    let blocks := (mesg.buffer.drop mesg.pos).take (last + 1 - mesg.pos)
    let result := blocks.foldr
      (fun c (result : BitVec w) => (result <<< 7) + (c &&& block).toBitVec.setWidth w) 0
    (result, { mesg with pos := last + 1 })

def readBool (mesg : IPCMesg) : Option (Bool × IPCMesg) :=
  (mesg.read 8).map fun (interm, mesg) => (interm != 0, mesg)

def readBlob (mesg : IPCMesg) (size : ℕ) : Option (List UInt8 × IPCMesg) :=
  if mesg.pos + size ≤ mesg.buffer.length then
    some ((mesg.buffer.drop mesg.pos).take size, { mesg with pos := mesg.pos + size })
  else none

/-- Write a field. -/
def put (mesg : IPCMesg) : Field → Option IPCMesg
  | .uint number => mesg.write number
  | .bool value => mesg.writeBool value
  | .blob bytes => mesg.writeBlob bytes

/-- Read a field. -/
def get (mesg : IPCMesg) : FieldType → Option (Field × IPCMesg)
  | .uint w => (mesg.read w).map fun (number, mesg) => (.uint number, mesg)
  | .bool => mesg.readBool.map fun (value, mesg) => (.bool value, mesg)
  | .blob size => (mesg.readBlob size).map fun (bytes, mesg) => (.blob bytes, mesg)

def putAll (mesg : IPCMesg) : List Field → Option IPCMesg
  | [] => some mesg
  | field :: fields => (mesg.put field).bind fun mesg => mesg.putAll fields

def getAll (mesg : IPCMesg) : List FieldType → Option (List Field × IPCMesg)
  | [] => some ([], mesg)
  | type :: types =>
      (mesg.get type).bind fun (field, mesg) =>
        (mesg.getAll types).map fun (fields, mesg) => (field :: fields, mesg)

end IPCMesg

/-- A small message with the current position in it. -/
structure MicroMsg where
  buffer : List UInt8
  pos : ℕ
deriving DecidableEq

namespace MicroMsg

/-- Write an unsigned integer, seven bits at a time. -/
def write {w : ℕ} (mesg : MicroMsg) (number : BitVec w) : Option MicroMsg :=
  let c := UInt8.ofBitVec (number.setWidth 8) &&& block
  let number' := number >>> 7
  let c := if number' > 0 then c ||| hasNextBlock else c
  match store mesg.buffer mesg.pos c with
  | none => none
  | some buffer =>
      let mesg : MicroMsg := { buffer := buffer, pos := mesg.pos + 1 }
      if number' > 0 then mesg.write number' else some mesg
termination_by number.toNat
decreasing_by exact toNat_shiftRight_lt ‹_›

/-- Write a truth value, which is an integer with the values zero and one. -/
def writeBool (mesg : MicroMsg) (number : Bool) : Option MicroMsg :=
  mesg.write (BitVec.ofBool number)

def writeBlob (mesg : MicroMsg) (bytes : List UInt8) : Option MicroMsg :=
  (memcpy mesg.buffer mesg.pos bytes).map fun buffer =>
    { buffer := buffer, pos := mesg.pos + bytes.length }

/-- The position behind the last byte of an integer. -/
def skip (buffer : List UInt8) (pos : ℕ) : Option ℕ :=
  if inside : pos < buffer.length then
    if buffer[pos] &&& hasNextBlock ≠ 0 then skip buffer (pos + 1) else some (pos + 1)
  else none
termination_by buffer.length - pos

/-- Read an unsigned integer; the last byte comes first. -/
def read (w : ℕ) (mesg : MicroMsg) : Option (BitVec w × MicroMsg) :=
  (skip mesg.buffer mesg.pos).map fun pos =>
    let blocks := (mesg.buffer.drop mesg.pos).take (pos - mesg.pos)
    let result := blocks.foldr
      (fun c (result : BitVec w) => (result <<< 7) + (c &&& block).toBitVec.setWidth w) 0
    (result, { mesg with pos := pos })

/-- Read a truth value; both assignments of the loop convert a number to a truth value. -/
def readBool (mesg : MicroMsg) : Option (Bool × MicroMsg) :=
  (skip mesg.buffer mesg.pos).map fun pos =>
    let blocks := (mesg.buffer.drop mesg.pos).take (pos - mesg.pos)
    let result := blocks.foldr
      (fun c result =>
        let shifted : Bool := result.toNat <<< 7 != 0
        shifted.toNat + (c &&& block).toNat != 0) false
    (result, { mesg with pos := pos })

def readBlob (mesg : MicroMsg) (size : ℕ) : Option (List UInt8 × MicroMsg) :=
  if mesg.pos + size ≤ mesg.buffer.length then
    some ((mesg.buffer.drop mesg.pos).take size, { mesg with pos := mesg.pos + size })
  else none

/-- Write a field. -/
def put (mesg : MicroMsg) : Field → Option MicroMsg
  | .uint number => mesg.write number
  | .bool value => mesg.writeBool value
  | .blob bytes => mesg.writeBlob bytes

/-- Read a field. -/
def get (mesg : MicroMsg) : FieldType → Option (Field × MicroMsg)
  | .uint w => (mesg.read w).map fun (number, mesg) => (.uint number, mesg)
  | .bool => mesg.readBool.map fun (value, mesg) => (.bool value, mesg)
  | .blob size => (mesg.readBlob size).map fun (bytes, mesg) => (.blob bytes, mesg)

def putAll (mesg : MicroMsg) : List Field → Option MicroMsg
  | [] => some mesg
  | field :: fields => (mesg.put field).bind fun mesg => mesg.putAll fields

def getAll (mesg : MicroMsg) : List FieldType → Option (List Field × MicroMsg)
  | [] => some ([], mesg)
  | type :: types =>
      (mesg.get type).bind fun (field, mesg) =>
        (mesg.getAll types).map fun (fields, mesg) => (field :: fields, mesg)

end MicroMsg

end Talpf
