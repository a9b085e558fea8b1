import Gudov.HttpHeaders
import Gudov.HttpPhases

/-!
# Printing requests

`HttpRequest::Dump`, the size of what it prints, and the requests that are printed as the
parser reads them: their parts hold no character that ends the part, and nothing that the
parser takes for a blank in front of a value.
-/
namespace Gudov
open ActionMachine Http11

/-- A number as a stream prints it. -/
def decimal (n : ℕ) : List UInt8 := (Nat.toDigits 10 n).map fun c => c.toNat.toUInt8

/-- The names stand in the table in the order of the values. -/
def httpMethodToString (m : HttpMethod) : List UInt8 :=
  match HttpMethod.table.find? fun e => e.1 = m with
  | some e => e.2
  | none => bytes "<unknown>"

namespace HttpRequest

def connectionValue (r : HttpRequest) : List UInt8 :=
  if r.close then bytes "close" else bytes "keep-alive"

def dump (r : HttpRequest) : List UInt8 :=
  httpMethodToString r.method ++ bytes " " ++ r.path ++
    (if r.query.isEmpty then [] else bytes "?") ++ r.query ++
    (if r.fragment.isEmpty then [] else bytes "#") ++ r.fragment ++
    bytes " HTTP/" ++ decimal (r.version >>> 4).toNat ++ bytes "." ++
    decimal (r.version &&& 0x0F).toNat ++ bytes "\r\n" ++
    bytes "connection: " ++ r.connectionValue ++ bytes "\r\n" ++
    (r.headers.flatMap fun e =>
      if strcasecmp e.1 (bytes "connection") = .eq then []
      else e.1 ++ bytes ":" ++ e.2 ++ bytes "\r\n") ++
    if r.body.isEmpty then bytes "\r\n"
    else bytes "content-length: " ++ decimal r.body.length ++ bytes "\r\n\r\n" ++ r.body

/-- The bytes of a part with the character in front of it. -/
def partSize (part : List UInt8) : ℕ := if part.isEmpty then 0 else part.length + 1

/-- The bytes printed for a request of version 1.0 or 1.1 without a header `connection`. -/
def size (r : HttpRequest) : ℕ :=
  (httpMethodToString r.method).length + r.path.length + partSize r.query + partSize r.fragment +
    (if r.close then 31 else 36) + (r.headers.map fun e => e.1.length + e.2.length + 3).sum +
    if r.body.isEmpty then 2 else (decimal r.body.length).length + r.body.length + 20

end HttpRequest

/-- Characters of a set, and percent-encoded ones. -/
inductive Encoded (s : ByteSet) : List UInt8 → Prop
  | nil : Encoded s []
  | char {c : UInt8} {w : List UInt8} : s.has c = true → Encoded s w → Encoded s (c :: w)
  | percent {a b : UInt8} {w : List UInt8} : xdigit.has a = true → xdigit.has b = true →
      Encoded s w → Encoded s (37 :: a :: b :: w)

/-- The characters of a path. -/
def pathChar (relaxed : Bool) : ByteSet := .union (uriChar relaxed) (Http11.char '/')

/-- The characters of a query and of a fragment. -/
def partChar (relaxed : Bool) : ByteSet := .union (pathChar relaxed) (Http11.char '?')

/-- The printable characters. -/
def printable : ByteSet := .range 32 126

/-- The requests that are read as they are printed; the headers are in the order of the
map. -/
structure Printable (relaxed : Bool) (r : HttpRequest) : Prop where
  version : r.version = 0x10 ∨ r.version = 0x11
  method : ∀ c ∈ httpMethodToString r.method, upper.has c = true
  path : ∃ w, r.path = 47 :: w ∧ Encoded (pathChar relaxed) w ∧ w.head? ≠ some 47
  query : Encoded (partChar relaxed) r.query
  fragment : Encoded (partChar relaxed) r.fragment
  name : ∀ e ∈ r.headers, e.1 ≠ [] ∧ ∀ c ∈ e.1, nameChar.has c = true
  value : ∀ e ∈ r.headers, (∀ c ∈ e.2, printable.has c = true) ∧ e.2.head? ≠ some 32
  ordered : r.headers.Ordered
  noConnection : r.headers.Lacks (bytes "connection")
  noContentLength : r.headers.Lacks (bytes "content-length")

namespace HttpRequest

/-- A header line, with what stands in front of the value. -/
def fieldLine (pad : List UInt8) (e : List UInt8 × List UInt8) : List UInt8 :=
  e.1 ++ 58 :: (pad ++ e.2 ++ [13, 10])

/-- A part with the character in front of it. -/
def part (c : UInt8) (w : List UInt8) : List UInt8 := if w.isEmpty then [] else c :: w

def target (r : HttpRequest) : List UInt8 := r.path ++ part 63 r.query ++ part 35 r.fragment

/-- The end of the request line. -/
def versionText (v : UInt8) : List UInt8 :=
  [72, 84, 84, 80, 47, 49, 46] ++ [if v = 0x10 then 48 else 49] ++ [13, 10]

/-- The header line about the body. -/
def bodyLine (r : HttpRequest) : List UInt8 :=
  if r.body.isEmpty then []
  else fieldLine [32] (bytes "content-length", decimal r.body.length)

/-- What is printed in front of the body, in the parts that the parser reads. -/
def head (r : HttpRequest) : List UInt8 :=
  httpMethodToString r.method ++ [32] ++ (r.target ++ [32] ++ versionText r.version ++
    fieldLine [32] (bytes "connection", r.connectionValue) ++ r.headers.flatMap (fieldLine []) ++
    r.bodyLine) ++ [13, 10]

end HttpRequest

namespace Printable
variable {relaxed : Bool} {r : HttpRequest}
open HttpRequest

theorem headers_eq (hr : Printable relaxed r) :
    (r.headers.flatMap fun e =>
      if strcasecmp e.1 (bytes "connection") = .eq then []
      else e.1 ++ bytes ":" ++ e.2 ++ bytes "\r\n") = r.headers.flatMap (fieldLine []) := by
  apply List.flatMap_congr
  intro e he
  have hne : strcasecmp e.1 (bytes "connection") ≠ .eq := fun heq =>
    hr.noConnection e he (Std.OrientedCmp.eq_symm heq)
  rw [if_neg hne, List.append_assoc, List.append_assoc]
  rfl

theorem version_eq (hr : Printable relaxed r) :
    bytes " HTTP/" ++ decimal (r.version >>> 4).toNat ++ bytes "." ++
      decimal (r.version &&& 0x0F).toNat ++ bytes "\r\n" = 32 :: versionText r.version := by
  rcases hr.version with hv | hv <;>
  · rw [hv]
    decide

theorem dump_eq (hr : Printable relaxed r) : r.dump = r.head ++ r.body := by
  have hpart : ∀ (c : UInt8) (mark w : List UInt8), mark = [c] →
      (if w.isEmpty then [] else mark) ++ w = part c w := by
    rintro c mark w rfl
    cases w <;> rfl
  have hquery := hpart 63 (bytes "?") r.query rfl
  have hfragment := hpart 35 (bytes "#") r.fragment rfl
  have hname : bytes "content-length: " = bytes "content-length" ++ [58, 32] := by decide
  have hblank : bytes "\r\n\r\n" = [13, 10, 13, 10] := by decide
  have hend : (if r.body.isEmpty then bytes "\r\n"
      else bytes "content-length: " ++ decimal r.body.length ++ bytes "\r\n\r\n" ++ r.body) =
        r.bodyLine ++ [13, 10] ++ r.body := by
    cases hbody : r.body with
    | nil => simp [bodyLine, hbody]; rfl
    | cons c w => simp [bodyLine, hbody, fieldLine, hname, hblank]
  have hconnection : bytes "connection: " ++ r.connectionValue ++ bytes "\r\n" =
      fieldLine [32] (bytes "connection", r.connectionValue) := by
    rw [List.append_assoc]
    rfl
  calc r.dump
      = httpMethodToString r.method ++ bytes " " ++
        (r.path ++ ((if r.query.isEmpty then [] else bytes "?") ++ r.query) ++
          ((if r.fragment.isEmpty then [] else bytes "#") ++ r.fragment)) ++
        (bytes " HTTP/" ++ decimal (r.version >>> 4).toNat ++ bytes "." ++
          decimal (r.version &&& 0x0F).toNat ++ bytes "\r\n") ++
        (bytes "connection: " ++ r.connectionValue ++ bytes "\r\n") ++
        (r.headers.flatMap fun e =>
          if strcasecmp e.1 (bytes "connection") = .eq then []
          else e.1 ++ bytes ":" ++ e.2 ++ bytes "\r\n") ++
        if r.body.isEmpty then bytes "\r\n"
        else bytes "content-length: " ++ decimal r.body.length ++ bytes "\r\n\r\n" ++ r.body := by
          unfold dump
          simp only [List.append_assoc]
    _ = httpMethodToString r.method ++ [32] ++ r.target ++ (32 :: versionText r.version) ++
        fieldLine [32] (bytes "connection", r.connectionValue) ++
        r.headers.flatMap (fieldLine []) ++ (r.bodyLine ++ [13, 10] ++ r.body) := by
          rw [hquery, hfragment, hr.version_eq, hconnection, hr.headers_eq, hend]
          rfl
    _ = r.head ++ r.body := by simp [head]

theorem dump_length (hr : Printable relaxed r) : r.dump.length = r.size := by
  have hpart : ∀ (c : UInt8) (w : List UInt8), (part c w).length = partSize w := by
    intro c w
    cases w <;> rfl
  have hheaders : (r.headers.flatMap (fieldLine [])).length =
      (r.headers.map fun e => e.1.length + e.2.length + 3).sum := by
    rw [List.length_flatMap]
    congr 1
    apply List.map_congr_left
    intro e he
    simp only [fieldLine, List.length_append, List.length_cons, List.length_nil]
    omega
  have hconnection : (fieldLine [32] (bytes "connection", r.connectionValue)).length =
      if r.close then 19 else 24 := by
    cases hclose : r.close <;>
    · simp only [connectionValue, hclose]
      rfl
  have hbody : (r.bodyLine ++ [13, 10] ++ r.body).length =
      if r.body.isEmpty then 2 else (decimal r.body.length).length + r.body.length + 20 := by
    have hname : (bytes "content-length").length = 14 := rfl
    cases hb : r.body with
    | nil => simp [bodyLine, hb]
    | cons c w =>
      simp only [bodyLine, hb, fieldLine, List.isEmpty_cons, Bool.false_eq_true, if_false,
        List.length_append, List.length_cons, List.length_nil, hname]
      omega
  rw [List.length_append, List.length_append] at hbody
  rw [hr.dump_eq]
  simp only [head, target, versionText, size, List.length_append, List.length_cons, List.length_nil,
    hpart, hheaders, hconnection]
  rw [← hbody]
  simp only [List.length_cons, List.length_nil]
  split <;> omega

end Printable

end Gudov
