import Gudov.CallOutcome
import Mathlib.Tactic.NormNum

/-!
# Requests

The part of `http.h` that the request parser fills in: the method table, the
header map ordered by `CaseInsensitiveLess`, and `HttpRequest` with its defaults.
Strings are lists of bytes. A `const char*` into a buffer is the list of the bytes
received from there on, and a comparison that runs past them reads memory whose
content is not determined.
-/
namespace Gudov

/-- The bytes of an ASCII literal. -/
def bytes (s : String) : List UInt8 := s.toList.map fun c => c.toNat.toUInt8

inductive HttpMethod
  | delete | get | head | post | put
  | connect | options | trace
  | copy | lock | mkcol | move | propfind | proppatch | search | unlock
  | bind | rebind | unbind | acl
  | report | mkactivity | checkout | merge
  | msearch | notify | subscribe | unsubscribe
  | patch | purge
  | mkcalendar
  | link | unlink
  | source
  | invalidMethod
deriving Repr, DecidableEq

namespace HttpMethod

/-- `HTTP_METHOD_MAP` with the third column as a string. The tokens of `M - SEARCH`
keep their blanks. -/
def table : List (HttpMethod × List UInt8) :=
  [(delete, bytes "DELETE"), (get, bytes "GET"), (head, bytes "HEAD"), (post, bytes "POST"),
    (put, bytes "PUT"), (connect, bytes "CONNECT"), (options, bytes "OPTIONS"),
    (trace, bytes "TRACE"), (copy, bytes "COPY"), (lock, bytes "LOCK"), (mkcol, bytes "MKCOL"),
    (move, bytes "MOVE"), (propfind, bytes "PROPFIND"), (proppatch, bytes "PROPPATCH"),
    (search, bytes "SEARCH"), (unlock, bytes "UNLOCK"), (bind, bytes "BIND"),
    (rebind, bytes "REBIND"), (unbind, bytes "UNBIND"), (acl, bytes "ACL"),
    (report, bytes "REPORT"), (mkactivity, bytes "MKACTIVITY"), (checkout, bytes "CHECKOUT"),
    (merge, bytes "MERGE"), (msearch, bytes "M - SEARCH"), (notify, bytes "NOTIFY"),
    (subscribe, bytes "SUBSCRIBE"), (unsubscribe, bytes "UNSUBSCRIBE"), (patch, bytes "PATCH"),
    (purge, bytes "PURGE"), (mkcalendar, bytes "MKCALENDAR"), (link, bytes "LINK"),
    (unlink, bytes "UNLINK"), (source, bytes "SOURCE")]

/-- `strncmp(name, m, strlen(name)) == 0`. -/
def startsWith : List UInt8 → List UInt8 → Except Fault Bool
  | [], _ => .ok true
  | _ :: _, [] => .error .indeterminate
  | x :: name, y :: m => if x = y then startsWith name m else .ok false

def firstMatch : List (HttpMethod × List UInt8) → List UInt8 → Except Fault HttpMethod
  | [], _ => .ok invalidMethod
  | (h, name) :: rest, m => do
    if ← startsWith name m then .ok h else firstMatch rest m

def charsToHttpMethod (m : List UInt8) : Except Fault HttpMethod := firstMatch table m

end HttpMethod

/-- The C string of a `std::string`, up to its first 0. -/
def cString (s : List UInt8) : List UInt8 := s.takeWhile (· != 0)

/-- `strncmp(s, literal, n) == 0` for the first `n` bytes of `s`; `literal` ends with 0. -/
def strncmpEq : List UInt8 → List UInt8 → Bool
  | [], _ => true
  | _ :: _, [] => false
  | x :: s, y :: literal => x == y && (x == 0 || strncmpEq s literal)

def toLower (c : UInt8) : UInt8 := if 65 ≤ c ∧ c ≤ 90 then c + 32 else c

/-- `strcasecmp`, which stops at a 0 byte of either string. -/
def strcasecmp : List UInt8 → List UInt8 → Ordering
  | [], [] => .eq
  | [], y :: _ => if y = 0 then .eq else .lt
  | x :: _, [] => if x = 0 then .eq else .gt
  | x :: a, y :: b =>
    if toLower x < toLower y then .lt
    else if toLower y < toLower x then .gt
    else if x = 0 then .eq
    else strcasecmp a b

/-- `HttpRequest::MapType`, in its order. -/
abbrev HeaderMap := List (List UInt8 × List UInt8)

namespace HeaderMap

/-- `headers_[key] = val`; an entry keeps the spelling of its first key. -/
def set (key val : List UInt8) : HeaderMap → HeaderMap
  | [] => [(key, val)]
  | (k, v) :: rest =>
    match strcasecmp key k with
    | .lt => (key, val) :: (k, v) :: rest
    | .eq => (k, val) :: rest
    | .gt => (k, v) :: set key val rest

def find (key : List UInt8) : HeaderMap → Option (List UInt8)
  | [] => none
  | (k, v) :: rest => if strcasecmp key k = .eq then some v else find key rest

def erase (key : List UInt8) (m : HeaderMap) : HeaderMap :=
  m.filter fun p => strcasecmp key p.1 != .eq

end HeaderMap

structure HttpRequest where
  method : HttpMethod := .get
  version : UInt8 := 0x11
  close : Bool := true
  path : List UInt8 := bytes "/"
  query : List UInt8 := []
  fragment : List UInt8 := []
  body : List UInt8 := []
  headers : HeaderMap := []
deriving Repr, DecidableEq

namespace HttpRequest

def getHeader (key : List UInt8) (r : HttpRequest) : List UInt8 := (r.headers.find key).getD []

def setHeader (key val : List UInt8) (r : HttpRequest) : HttpRequest :=
  { r with headers := r.headers.set key val }

def delHeader (key : List UInt8) (r : HttpRequest) : HttpRequest :=
  { r with headers := r.headers.erase key }

def init (r : HttpRequest) : HttpRequest :=
  let conn := r.getHeader (bytes "connection")
  if conn.isEmpty then r
  else { r with close := strcasecmp conn (bytes "keep-alive") != .eq }

/-- `GetHeaderAs<uint64_t>`, given what `boost::lexical_cast` makes of a string. -/
def getHeaderAs (lexicalCast : List UInt8 → Option UInt64) (key : List UInt8) (default : UInt64)
    (r : HttpRequest) : UInt64 :=
  match r.headers.find key with
  | none => default
  | some v => (lexicalCast v).getD default

end HttpRequest

end Gudov
