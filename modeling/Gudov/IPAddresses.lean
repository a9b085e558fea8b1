import Gudov.ByteArrayRoundTrip
import Gudov.ColonHex
import Gudov.HttpDump

/-!
# `IPv4Address` and `IPv6Address`

The socket addresses with their fields as they are stored: ports and IPv4 addresses in network
byte order, so that on a little-endian machine their words are swapped; the sixteen bytes of an
IPv6 address in order.

Masks are computed in `int`. A shift by the width of `int` or more, a sum outside of `int` and a
byte outside of the array are undefined.
-/
namespace Gudov
open ByteCodec

inductive Undefined
  | shift
  | overflow
  | outOfBounds
deriving Repr, DecidableEq

def byteSwapOnLittleEndian (endian : Endian) {k : ℕ} (v : BitVec (8 * k)) : BitVec (8 * k) :=
  match endian with
  | .little => ByteArray.byteSwap v
  | .big => v

theorem byteSwapOnLittleEndian_twice (endian : Endian) {k : ℕ} (v : BitVec (8 * k)) :
    byteSwapOnLittleEndian endian (byteSwapOnLittleEndian endian v) = v := by
  cases endian with
  | little => exact ByteArray.byteSwap_byteSwap v
  | big => rfl

/-- `(1 << (sizeof(T) * 8 - bits)) - 1` for a type of `w` bits; the difference is a `size_t`, the
rest an `int`. -/
def createMask (w bits : ℕ) : Except Undefined (BitVec w) :=
  let shift := (w + 2 ^ 64 - bits) % 2 ^ 64
  if 32 ≤ shift then .error .shift
  else if shift = 31 then .error .overflow
  else .ok (BitVec.ofNat w (2 ^ shift - 1))

def afInet : UInt16 := 2
def afInet6 : UInt16 := 10

structure SockaddrIn where
  sinFamily : UInt16
  sinPort : BitVec (8 * 2)
  sAddr : BitVec (8 * 4)
  sinZero : BitVec 64
deriving Repr, DecidableEq

structure SockaddrIn6 where
  sin6Family : UInt16
  sin6Port : BitVec (8 * 2)
  sin6Flowinfo : BitVec 32
  s6Addr : Vector UInt8 16
  sin6ScopeId : BitVec 32
deriving Repr, DecidableEq

structure IPv4Address where
  addr : SockaddrIn
deriving Repr, DecidableEq

structure IPv6Address where
  addr : SockaddrIn6
deriving Repr, DecidableEq

section
variable (endian : Endian)

namespace IPv4Address

/-- The constructor from an address and a port in the byte order of the machine. -/
def ofNumber (address : BitVec (8 * 4)) (port : BitVec (8 * 2)) : IPv4Address :=
  ⟨{ sinFamily := afInet
     sinPort := byteSwapOnLittleEndian endian port
     sAddr := byteSwapOnLittleEndian endian address
     sinZero := 0 }⟩

def getPort (a : IPv4Address) : ℕ := (byteSwapOnLittleEndian endian a.addr.sinPort).toNat

/-- The address as a number whose first bit is the highest one. -/
def number (a : IPv4Address) : BitVec 32 := byteSwapOnLittleEndian endian a.addr.sAddr

/-- A null pointer for a length above 32. -/
def broadcastAddress (prefixLen : ℕ) (a : IPv4Address) : Except Undefined (Option IPv4Address) :=
  if 32 < prefixLen then .ok none
  else do
    let mask ← createMask 32 prefixLen
    let sAddr := a.addr.sAddr ||| byteSwapOnLittleEndian endian (k := 4) mask
    .ok (some ⟨{ a.addr with sAddr := sAddr }⟩)

/-- A null pointer for a length above 32. -/
def networkAddress (prefixLen : ℕ) (a : IPv4Address) : Except Undefined (Option IPv4Address) :=
  if 32 < prefixLen then .ok none
  else do
    let mask ← createMask 32 prefixLen
    let sAddr := a.addr.sAddr &&& byteSwapOnLittleEndian endian (k := 4) mask
    .ok (some ⟨{ a.addr with sAddr := sAddr }⟩)

/-- Nothing of the address is read, and the length is not checked. -/
def subnetAddress (prefixLen : ℕ) : Except Undefined IPv4Address := do
  let mask ← createMask 32 prefixLen
  .ok ⟨{ sinFamily := afInet
         sinPort := 0
         sAddr := ~~~byteSwapOnLittleEndian endian (k := 4) mask
         sinZero := 0 }⟩

end IPv4Address

namespace IPv6Address

def ofBytes (address : Vector UInt8 16) (port : BitVec (8 * 2)) : IPv6Address :=
  ⟨{ sin6Family := afInet6
     sin6Port := byteSwapOnLittleEndian endian port
     sin6Flowinfo := 0
     s6Addr := address
     sin6ScopeId := 0 }⟩

def getPort (a : IPv6Address) : ℕ := (byteSwapOnLittleEndian endian a.addr.sin6Port).toNat

/-- `addr[i]` of the bytes read as an array of `uint16_t`. -/
def word (a : IPv6Address) (i : ℕ) : BitVec (8 * 2) :=
  ByteArray.ofMemory endian 2
    (((a.addr.s6Addr.toList.drop (2 * i)).take 2).map UInt8.toBitVec)

/-- The body of the loop over the words, with the text so far and `usedZeros`. -/
def insertWord (a : IPv6Address) (s : List UInt8 × Bool) (i : ℕ) : List UInt8 × Bool :=
  if a.word endian i = 0 ∧ s.2 = false then s
  else
    let t := if i ≠ 0 ∧ a.word endian (i - 1) = 0 ∧ s.2 = false then (s.1 ++ bytes ":", true) else s
    let os := if i ≠ 0 then t.1 ++ bytes ":" else t.1
    (os ++ ColonHex.hexText (byteSwapOnLittleEndian endian (a.word endian i)).toNat, t.2)

/-- `Insert` on a stream with the format a new one has, as in `ToString`. -/
def insert (a : IPv6Address) (os : List UInt8) : List UInt8 :=
  let s := (List.range 8).foldl (a.insertWord endian) (os ++ bytes "[IPv6 [", false)
  let os := if s.2 = false ∧ a.word endian 7 = 0 then s.1 ++ bytes "::" else s.1
  os ++ bytes "]:" ++ decimal (a.getPort endian) ++ bytes "]"

def toString (a : IPv6Address) : List UInt8 := a.insert endian []

/-- The bytes from `i` on set to `v`, one after the other. -/
def fillFrom (v : UInt8) (i : ℕ) (bs : Vector UInt8 16) : Vector UInt8 16 :=
  (List.range' i (16 - i)).foldl (fun bs j => bs.setIfInBounds j v) bs

def broadcastAddress (prefixLen : ℕ) (a : IPv6Address) : Except Undefined IPv6Address := do
  let mask ← createMask 8 (prefixLen % 8)
  if h : prefixLen / 8 < 16 then
    let bs := a.addr.s6Addr.set (prefixLen / 8) (a.addr.s6Addr[prefixLen / 8] ||| ⟨mask⟩)
    .ok ⟨{ a.addr with s6Addr := fillFrom 0xff (prefixLen / 8 + 1) bs }⟩
  else .error .outOfBounds

def networkAddress (prefixLen : ℕ) (a : IPv6Address) : Except Undefined IPv6Address := do
  let mask ← createMask 8 (prefixLen % 8)
  if h : prefixLen / 8 < 16 then
    let bs := a.addr.s6Addr.set (prefixLen / 8) (a.addr.s6Addr[prefixLen / 8] &&& ⟨mask⟩)
    .ok ⟨{ a.addr with s6Addr := fillFrom 0x00 (prefixLen / 8 + 1) bs }⟩
  else .error .outOfBounds

/-- The bytes in front of `i` set to `v`, one after the other. -/
def fillTo (v : UInt8) (i : ℕ) (bs : Vector UInt8 16) : Vector UInt8 16 :=
  (List.range i).foldl (fun bs j => bs.setIfInBounds j v) bs

/-- Nothing of the address is read. -/
def subnetAddress (prefixLen : ℕ) : Except Undefined IPv6Address := do
  let mask ← createMask 8 (prefixLen % 8)
  if h : prefixLen / 8 < 16 then
    let bs := (Vector.replicate 16 0x00).set (prefixLen / 8) (~~~⟨mask⟩)
    .ok ⟨{ sin6Family := afInet6
           sin6Port := 0
           sin6Flowinfo := 0
           s6Addr := fillTo 0xff (prefixLen / 8) bs
           sin6ScopeId := 0 }⟩
  else .error .outOfBounds

end IPv6Address

end

end Gudov
