import Gudov.ByteArray
import Gudov.ByteCodec

/-!
# Typed reads and writes of the byte array

Integers are bit vectors of their C++ width; a signed and an unsigned type of
one width differ only in `toInt` and `toNat`. `host` is the byte order of the
machine, which is also the value of `GUDOV_BYTE_ORDER`; `endian_` is the order
chosen for the array. Floats are their bit patterns, as the code copies them.
-/
namespace Gudov.ByteArray
open ByteCodec

/-- The bytes of a word in the memory of the host. -/
def toMemory (host : Endian) (k : ℕ) (v : BitVec (8 * k)) : List Byte :=
  match host with
  | .little => digits k v.toNat
  | .big => (digits k v.toNat).reverse

def ofMemory (host : Endian) (k : ℕ) (bs : List Byte) : BitVec (8 * k) :=
  match host with
  | .little => word k bs
  | .big => word k bs.reverse

/-- `bswap_16`, `bswap_32` and `bswap_64`: the bytes of the word in reverse order. -/
def byteSwap {k : ℕ} (v : BitVec (8 * k)) : BitVec (8 * k) :=
  word k (digits k v.toNat).reverse

def setIsLittleEndian (val : Bool) : Call ByteArray Unit := fun b =>
  .value () { b with endian := if val then .little else .big }

def getEndian : Call ByteArray Endian := fun b => .value b.endian b

def getPosition : Call ByteArray ℕ := fun b => .value b.position b

/-- `Write(&value, sizeof(value))` for a value with these bytes. -/
def writeBytes (bs : List Byte) : Call ByteArray Unit := write (bs.map some)

def determinate : List Cell → Option (List Byte)
  | [] => some []
  | none :: _ => none
  | some x :: cs => (determinate cs).map (x :: ·)

/-- `Read(&v, sizeof(v))` for a value that is used afterwards. -/
def readBytes (k : ℕ) : Call ByteArray (List Byte) := do
  let cells ← read k
  match determinate cells with
  | some bs => pure bs
  | none => Call.fail .indeterminate

section
variable (host : Endian)

/-- The common body of the fixed-width writers above one byte. -/
def writeFixed (k : ℕ) (value : BitVec (8 * k)) : Call ByteArray Unit := do
  let endian ← getEndian
  let value := if endian ≠ host then byteSwap value else value
  writeBytes (toMemory host k value)

/-- The macro `XX(type)` of the fixed-width readers. -/
def readFixed (k : ℕ) : Call ByteArray (BitVec (8 * k)) := do
  let bs ← readBytes k
  let v := ofMemory host k bs
  let endian ← getEndian
  if endian = host then pure v else pure (byteSwap v)

def writeFint8 (value : BitVec 8) : Call ByteArray Unit := writeBytes [value]
def writeFuint8 (value : BitVec 8) : Call ByteArray Unit := writeBytes [value]
def writeFint16 (value : BitVec 16) : Call ByteArray Unit := writeFixed host 2 value
def writeFuint16 (value : BitVec 16) : Call ByteArray Unit := writeFixed host 2 value
def writeFint32 (value : BitVec 32) : Call ByteArray Unit := writeFixed host 4 value
def writeFuint32 (value : BitVec 32) : Call ByteArray Unit := writeFixed host 4 value
def writeFint64 (value : BitVec 64) : Call ByteArray Unit := writeFixed host 8 value
def writeFuint64 (value : BitVec 64) : Call ByteArray Unit := writeFixed host 8 value
def writeFloat (bits : BitVec 32) : Call ByteArray Unit := writeFuint32 host bits
def writeDouble (bits : BitVec 64) : Call ByteArray Unit := writeFuint64 host bits

def readFuint8 : Call ByteArray (BitVec 8) := do
  let bs ← readBytes 1
  pure (bs.headD 0)

def readFint8 : Call ByteArray (BitVec 8) := readFuint8
def readFint16 : Call ByteArray (BitVec 16) := readFixed host 2
def readFuint16 : Call ByteArray (BitVec 16) := readFixed host 2
def readFint32 : Call ByteArray (BitVec 32) := readFixed host 4
def readFuint32 : Call ByteArray (BitVec 32) := readFixed host 4
def readFint64 : Call ByteArray (BitVec 64) := readFixed host 8
def readFuint64 : Call ByteArray (BitVec 64) := readFixed host 8
def readFloat : Call ByteArray (BitVec 32) := readFuint32 host
def readDouble : Call ByteArray (BitVec 64) := readFuint64 host

end

def encodeZigzag32 (v : BitVec 32) : BitVec 32 := zigzag v
def encodeZigzag64 (v : BitVec 64) : BitVec 64 := zigzag v
def decodeZigzag32 (v : BitVec 32) : BitVec 32 := unzigzag v
def decodeZigzag64 (v : BitVec 64) : BitVec 64 := unzigzag v

/-- `tmp[i++] = x` on a local array of `limit` bytes. -/
def pushByte (limit : ℕ) (tmp : List Byte) (x : Byte) : Except Fault (List Byte) :=
  if tmp.length < limit then .ok (tmp ++ [x]) else .error .outOfBounds

/-- The loop of `WriteUint32` and `WriteUint64` over `tmp`. Each round drops
seven bits, so one round per bit is enough. -/
def groupLoop {w : ℕ} (limit : ℕ) : ℕ → BitVec w → List Byte → Except Fault (List Byte)
  | 0, _, _ => .error .outOfFuel
  | fuel + 1, value, tmp =>
    if value ≥ 0x80 then
      match pushByte limit tmp (((value &&& 0x7F) ||| 0x80).setWidth 8) with
      | .ok tmp => groupLoop limit fuel (value >>> 7) tmp
      | .error f => .error f
    else pushByte limit tmp (value.setWidth 8)

def writeGroups {w : ℕ} (limit : ℕ) (value : BitVec w) : Call ByteArray Unit := fun b =>
  liftFault (groupLoop limit (w + 1) value []) fun tmp => writeBytes tmp b

def writeUint32 (value : BitVec 32) : Call ByteArray Unit := writeGroups 5 value
def writeUint64 (value : BitVec 64) : Call ByteArray Unit := writeGroups 10 value
def writeInt32 (value : BitVec 32) : Call ByteArray Unit := writeUint32 (encodeZigzag32 value)
def writeInt64 (value : BitVec 64) : Call ByteArray Unit := writeUint64 (encodeZigzag64 value)

/-- The body of `ReadUint32` for the remaining values of `i`. -/
def readUint32Loop : List ℕ → BitVec 32 → Call ByteArray (BitVec 32)
  | [], result => pure result
  | i :: is, result => do
    let b ← readFuint8
    if b < 0x80 then pure (result ||| b.setWidth 32 <<< i)
    else readUint32Loop is (result ||| (b &&& 0x7F).setWidth 32 <<< i)

/-- `for (int i = 0; i < 32; i += 7)` -/
def readUint32 : Call ByteArray (BitVec 32) := readUint32Loop [0, 7, 14, 21, 28] 0

def readInt32 : Call ByteArray (BitVec 32) := do
  let v ← readUint32
  pure (decodeZigzag32 v)

/-- `((uint32_t)b) << i`; a shift by 32 or more is not defined. -/
def shiftUint32 (b : BitVec 8) (i : ℕ) : Call ByteArray (BitVec 32) :=
  if i < 32 then pure (b.setWidth 32 <<< i) else Call.fail .invalidShift

/-- The body of `ReadUint64` for the remaining values of `i`. The groups are cast to
`uint32_t` here too, before they are shifted. -/
def readUint64Loop : List ℕ → BitVec 64 → Call ByteArray (BitVec 64)
  | [], result => pure result
  | i :: is, result => do
    let b ← readFuint8
    if b < 0x80 then do
      let group ← shiftUint32 b i
      pure (result ||| group.setWidth 64)
    else do
      let group ← shiftUint32 (b &&& 0x7F) i
      readUint64Loop is (result ||| group.setWidth 64)

/-- `for (int i = 0; i < 64; i += 7)` -/
def readUint64 : Call ByteArray (BitVec 64) :=
  readUint64Loop [0, 7, 14, 21, 28, 35, 42, 49, 56, 63] 0

def readInt64 : Call ByteArray (BitVec 64) := do
  let v ← readUint64
  pure (decodeZigzag64 v)

section Strings
variable (host : Endian)

/-- `Write(value.c_str(), value.size())` -/
def writeStringWithoutLength (value : List Byte) : Call ByteArray Unit := writeBytes value

/-- The length is narrowed to the type of the prefix, the payload is written in full. -/
def writeStringF16 (value : List Byte) : Call ByteArray Unit := do
  writeFuint16 host (BitVec.ofNat 16 value.length)
  writeStringWithoutLength value

def writeStringF32 (value : List Byte) : Call ByteArray Unit := do
  writeFuint32 host (BitVec.ofNat 32 value.length)
  writeStringWithoutLength value

def writeStringF64 (value : List Byte) : Call ByteArray Unit := do
  writeFuint64 host (BitVec.ofNat 64 value.length)
  writeStringWithoutLength value

def writeStringVint (value : List Byte) : Call ByteArray Unit := do
  writeUint64 (BitVec.ofNat 64 value.length)
  writeStringWithoutLength value

/-- `std::string::max_size()`. -/
def maxSize : ℕ := 2 ^ 63 - 1

variable (room : ℕ → Bool)

/-- `buff.resize(len)`; `room` says whether the allocator finds so many bytes. -/
def resize (len : ℕ) : Call ByteArray Unit :=
  if len > maxSize then Call.throw "basic_string::_M_replace_aux"
  else if room len then pure ()
  else Call.throw "std::bad_alloc"

/-- The common rest of the string readers. -/
def readString (len : ℕ) : Call ByteArray (List Cell) := do
  resize room len
  read len

def readStringF16 : Call ByteArray (List Cell) := do
  let len ← readFuint16 host
  readString room len.toNat

def readStringF32 : Call ByteArray (List Cell) := do
  let len ← readFuint32 host
  readString room len.toNat

def readStringF64 : Call ByteArray (List Cell) := do
  let len ← readFuint64 host
  readString room len.toNat

def readStringVint : Call ByteArray (List Cell) := do
  let len ← readUint64
  readString room len.toNat

end Strings

/-- The typed values with a matching reader and writer. -/
inductive Kind
  | fint8 | fuint8 | fint16 | fuint16 | fint32 | fuint32 | fint64 | fuint64
  | float | double | int32 | uint32
deriving Repr, DecidableEq

def Kind.width : Kind → ℕ
  | .fint8 | .fuint8 => 8
  | .fint16 | .fuint16 => 16
  | .fint32 | .fuint32 | .float | .int32 | .uint32 => 32
  | .fint64 | .fuint64 | .double => 64

def writeKind (host : Endian) : (k : Kind) → BitVec k.width → Call ByteArray Unit
  | .fint8 => writeFint8
  | .fuint8 => writeFuint8
  | .fint16 => writeFint16 host
  | .fuint16 => writeFuint16 host
  | .fint32 => writeFint32 host
  | .fuint32 => writeFuint32 host
  | .fint64 => writeFint64 host
  | .fuint64 => writeFuint64 host
  | .float => writeFloat host
  | .double => writeDouble host
  | .int32 => writeInt32
  | .uint32 => writeUint32

def readKind (host : Endian) : (k : Kind) → Call ByteArray (BitVec k.width)
  | .fint8 => readFint8
  | .fuint8 => readFuint8
  | .fint16 => readFint16 host
  | .fuint16 => readFuint16 host
  | .fint32 => readFint32 host
  | .fuint32 => readFuint32 host
  | .fint64 => readFint64 host
  | .fuint64 => readFuint64 host
  | .float => readFloat host
  | .double => readDouble host
  | .int32 => readInt32
  | .uint32 => readUint32

abbrev Typed := (k : Kind) × BitVec k.width

def writeAll (host : Endian) : List Typed → Call ByteArray Unit
  | [] => pure ()
  | v :: vs => do
    writeKind host v.1 v.2
    writeAll host vs

def readAll (host : Endian) : List Kind → Call ByteArray (List Typed)
  | [] => pure []
  | k :: ks => do
    let v ← readKind host k
    let vs ← readAll host ks
    pure (⟨k,v⟩ :: vs)

end Gudov.ByteArray
