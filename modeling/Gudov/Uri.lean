import Gudov.HttpRoundTrip
import Gudov.ByteArrayRoundTrip
import Gudov.UriComponents

/-!
# URIs

`Uri::Create` with the actions of `uri.rl`, the getters, and what is made of a URI: its text
and the address of its host. The actions share one `mark`, a position in the text or null.
`std::string` from a null pointer throws; `atoi` of a null pointer reads it.

`LookupAnyIPAddress` asks the resolver; here it is a parameter.
-/
namespace Gudov
open ActionMachine UriParser
open Http11 (digit space)

structure Uri where
  scheme : List UInt8 := []
  userInfo : List UInt8 := []
  host : List UInt8 := []
  path : List UInt8 := []
  query : List UInt8 := []
  fragment : List UInt8 := []
  port : ℤ := 0
deriving Repr, DecidableEq

namespace Uri

inductive Fault
  | nullString
  | nullRead
deriving Repr, DecidableEq

/-- The local variables of `Create`. -/
structure Parsing where
  uri : Uri := {}
  mark : Option ℕ := none
deriving Repr, DecidableEq

/-- Whether a number starts with a minus, and what follows its sign. -/
def sign : List UInt8 → Bool × List UInt8
  | 45 :: s => (true, s)
  | 43 :: s => (false, s)
  | s => (false, s)

/-- `(int)strtol(s, NULL, 10)`. -/
def atoi (s : List UInt8) : ℤ :=
  let (negative, s) := sign (s.dropWhile space.has)
  let n : ℤ := fromDecimal (s.takeWhile digit.has)
  let n := if negative then max (-2 ^ 63) (-n) else min (2 ^ 63 - 1) n
  n.bmod (2 ^ 32)

section Actions
variable (text : List UInt8)

def slice (m p : ℕ) : List UInt8 := (text.drop m).take (p - m)

/-- `std::string(mark, fpc - mark)`. -/
def taken (mark : Option ℕ) (p : ℕ) : Except Fault (List UInt8) :=
  match mark with
  | none => .error .nullString
  | some m => .ok (slice text m p)

def act : Action → ℕ → Parsing → Except Fault Parsing
  | .marku, p, x => .ok { x with mark := some p }
  | .markh, p, x => .ok { x with mark := some p }
  | .saveScheme, p, x => do
    let v ← taken text x.mark p
    .ok { uri := { x.uri with scheme := v }, mark := none }
  | .savePort, p, x =>
    if x.mark = some p then .ok { x with mark := none }
    else
      match x.mark with
      | none => .error .nullRead
      | some m => .ok { uri := { x.uri with port := atoi (text.drop m) }, mark := none }
  | .saveUserinfo, p, x =>
    match x.mark with
    | none => .ok { x with mark := none }
    | some m => .ok { uri := { x.uri with userInfo := slice text m p }, mark := none }
  | .saveHost, p, x =>
    match x.mark with
    | none => .ok x
    | some m => .ok { x with uri := { x.uri with host := slice text m p } }
  | .savePath, p, x => do
    let v ← taken text x.mark p
    .ok { uri := { x.uri with path := v }, mark := none }
  | .saveQuery, p, x => do
    let v ← taken text x.mark p
    .ok { uri := { x.uri with query := v }, mark := none }
  | .saveFragment, p, x => do
    let v ← taken text x.mark p
    .ok { uri := { x.uri with fragment := v }, mark := none }

end Actions

def create (text : List UInt8) : Except Fault (Option Uri) := do
  let x ← runToEnd (act text) main text {}
  .ok (x.map Parsing.uri)

section Getters
variable (u : Uri)

def isDefaultPort : Bool :=
  if u.port = 0 then true
  else if u.scheme = bytes "http" then u.port = 80
  else if u.scheme = bytes "https" then u.port = 443
  else false

def getPath : List UInt8 := if u.path.isEmpty then bytes "/" else u.path

def getPort : ℤ :=
  if u.port ≠ 0 then u.port
  else if u.scheme = bytes "http" then 80
  else if u.scheme = bytes "https" then 443
  else u.port

/-- `std::to_string`. -/
def decimalInt : ℤ → List UInt8
  | .ofNat n => decimal n
  | .negSucc n => bytes "-" ++ decimal (n + 1)

def toString : List UInt8 :=
  u.scheme ++ bytes "://" ++ u.userInfo ++ (if u.userInfo.isEmpty then [] else bytes "@") ++
    u.host ++ (if u.isDefaultPort then [] else bytes ":" ++ decimalInt u.port) ++ u.getPath ++
    (if u.query.isEmpty then [] else bytes "?") ++ u.query ++
    (if u.fragment.isEmpty then [] else bytes "#") ++ u.fragment

end Getters

end Uri

/-- An address of the resolver: its port in network byte order beside the rest. -/
structure IPAddress (R : Type) where
  rest : R
  sinPort : BitVec (8 * 2)

namespace IPAddress
variable {R : Type} (endian : Endian)

def byteSwapOnLittleEndian (v : BitVec (8 * 2)) : BitVec (8 * 2) :=
  match endian with
  | .little => ByteArray.byteSwap v
  | .big => v

def getPort (a : IPAddress R) : ℕ := (byteSwapOnLittleEndian endian a.sinPort).toNat

def setPort (v : BitVec (8 * 2)) (a : IPAddress R) : IPAddress R :=
  { a with sinPort := byteSwapOnLittleEndian endian v }

theorem getPort_setPort (v : BitVec (8 * 2)) (a : IPAddress R) :
    (a.setPort endian v).getPort endian = v.toNat := by
  cases endian with
  | little => simp only [getPort, setPort, byteSwapOnLittleEndian, ByteArray.byteSwap_byteSwap]
  | big => rfl

end IPAddress

/-- The port is narrowed to the `uint16_t` of `SetPort`. -/
def Uri.createAddress {R : Type} (endian : Endian)
    (lookupAnyIPAddress : List UInt8 → Option (IPAddress R)) (u : Uri) : Option (IPAddress R) :=
  (lookupAnyIPAddress u.host).map fun addr => addr.setPort endian (BitVec.ofInt (8 * 2) u.getPort)

end Gudov
