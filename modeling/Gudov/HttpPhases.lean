import Gudov.Http11Machine
import Gudov.MachineTable

/-!
# The machine on well-formed requests

The states that `http_parser` goes through on a request with a path, a query, a fragment
and header lines, and the transitions between them. Two positions run side by side at the
start of a value, where a blank is part of the value or in front of it, and on the empty
line, whose bytes may as well begin a name: `token` excludes no control characters but 0
and 127.
-/
namespace Gudov.Http11
open ActionMachine

/-- Where a request has got to. -/
inductive Phase
  | uri | root | path | pathHex | pathHex2
  | query0 | query | queryHex | queryHex2
  | fragment0 | fragment | fragmentHex | fragmentHex2
  | version | version1 | version2 | version3 | version4 | version5 | version6 | version7 | version8
  | version9
  | firstLine | line | name
  | value0 | valueBlank0 | value | valueBlank | valueEnd
  | last
deriving Repr, DecidableEq

/-- A head that gets there. -/
def Phase.head : Phase → List UInt8
  | uri => [71, 69, 84, 32]
  | root => [71, 69, 84, 32, 47]
  | path => [71, 69, 84, 32, 47, 97]
  | pathHex => [71, 69, 84, 32, 47, 97, 37]
  | pathHex2 => [71, 69, 84, 32, 47, 97, 37, 52]
  | query0 => [71, 69, 84, 32, 47, 63]
  | query => [71, 69, 84, 32, 47, 63, 97]
  | queryHex => [71, 69, 84, 32, 47, 63, 97, 37]
  | queryHex2 => [71, 69, 84, 32, 47, 63, 97, 37, 52]
  | fragment0 => [71, 69, 84, 32, 47, 35]
  | fragment => [71, 69, 84, 32, 47, 35, 97]
  | fragmentHex => [71, 69, 84, 32, 47, 35, 97, 37]
  | fragmentHex2 => [71, 69, 84, 32, 47, 35, 97, 37, 52]
  | version => [71, 69, 84, 32, 47, 32]
  | version1 => [71, 69, 84, 32, 47, 32, 72]
  | version2 => [71, 69, 84, 32, 47, 32, 72, 84]
  | version3 => [71, 69, 84, 32, 47, 32, 72, 84, 84]
  | version4 => [71, 69, 84, 32, 47, 32, 72, 84, 84, 80]
  | version5 => [71, 69, 84, 32, 47, 32, 72, 84, 84, 80, 47]
  | version6 => [71, 69, 84, 32, 47, 32, 72, 84, 84, 80, 47, 49]
  | version7 => [71, 69, 84, 32, 47, 32, 72, 84, 84, 80, 47, 49, 46]
  | version8 => [71, 69, 84, 32, 47, 32, 72, 84, 84, 80, 47, 49, 46, 49]
  | version9 => [71, 69, 84, 32, 47, 32, 72, 84, 84, 80, 47, 49, 46, 49, 13]
  | firstLine => [71, 69, 84, 32, 47, 32, 72, 84, 84, 80, 47, 49, 46, 49, 13, 10]
  | name => [71, 69, 84, 32, 47, 32, 72, 84, 84, 80, 47, 49, 46, 49, 13, 10, 97]
  | value0 => [71, 69, 84, 32, 47, 32, 72, 84, 84, 80, 47, 49, 46, 49, 13, 10, 97, 58]
  | valueBlank0 => [71, 69, 84, 32, 47, 32, 72, 84, 84, 80, 47, 49, 46, 49, 13, 10, 97, 58, 32]
  | value => [71, 69, 84, 32, 47, 32, 72, 84, 84, 80, 47, 49, 46, 49, 13, 10, 97, 58, 97]
  | valueBlank => [71, 69, 84, 32, 47, 32, 72, 84, 84, 80, 47, 49, 46, 49, 13, 10, 97, 58, 97, 32]
  | valueEnd => [71, 69, 84, 32, 47, 32, 72, 84, 84, 80, 47, 49, 46, 49, 13, 10, 97, 58, 97, 13]
  | line => [71, 69, 84, 32, 47, 32, 72, 84, 84, 80, 47, 49, 46, 49, 13, 10, 97, 58, 97, 13, 10]
  | last => [71, 69, 84, 32, 47, 32, 72, 84, 84, 80, 47, 49, 46, 49, 13, 10, 97, 58, 97, 13, 10, 13]

def Phase.state (relaxed : Bool) (q : Phase) : State Action :=
  State.run (start (main relaxed)) q.head

def char (c : Char) : ByteSet := .range c.toNat.toUInt8 c.toNat.toUInt8

/-- The characters of header names. -/
def nameChar : ByteSet := .union alpha (.union digit (char '-'))

/-- The printable characters but the blank. -/
def visible : ByteSet := .range 33 126

section Rows
variable (relaxed : Bool)

/-- Unreserved characters and sub-delimiters. -/
def uriChar : ByteSet := .union unreserved (subDelims relaxed)

/-- The transitions of a part in which characters may be percent-encoded. -/
def encodedRows (q hex hex2 : Phase) : List (Row Phase Action) :=
  [⟨q,uriChar relaxed,97,q,[]⟩,⟨q,char '/',47,q,[]⟩,⟨q,char '%',37,hex,[]⟩,
    ⟨hex,xdigit,48,hex2,[]⟩,⟨hex2,xdigit,48,q,[]⟩]

def pathRows : List (Row Phase Action) :=
  [⟨.uri,char '/',47,.root,[.mark]⟩,⟨.root,uriChar relaxed,97,.path,[]⟩,
    ⟨.root,char '%',37,.pathHex,[]⟩] ++
    encodedRows relaxed .path .pathHex .pathHex2 ++
    [Phase.root, .path].flatMap fun q => [⟨q,char '?',63,.query0,[.requestPath]⟩,
      ⟨q,char '#',35,.fragment0,[.requestPath, .requestUri]⟩,
      ⟨q,char ' ',32,.version,[.requestPath, .requestUri]⟩]

/-- The transitions of a query or a fragment, whose first character performs the action. -/
def partRows (q₀ q hex hex2 : Phase) (a : Action) : List (Row Phase Action) :=
  [⟨q₀,uriChar relaxed,97,q,[a]⟩,⟨q₀,char '/',47,q,[a]⟩,⟨q₀,char '?',63,q,[a]⟩,
    ⟨q₀,char '%',37,hex,[a]⟩,⟨q,char '?',63,q,[]⟩] ++ encodedRows relaxed q hex hex2

def queryRows : List (Row Phase Action) :=
  partRows relaxed .query0 .query .queryHex .queryHex2 .startQuery ++
    [⟨.query,char '#',35,.fragment0,[.queryString, .requestUri]⟩,
      ⟨.query,char ' ',32,.version,[.queryString, .requestUri]⟩]

def fragmentRows : List (Row Phase Action) :=
  partRows relaxed .fragment0 .fragment .fragmentHex .fragmentHex2 .mark ++
    [⟨.fragment,char ' ',32,.version,[.fragment]⟩]

def versionRows : List (Row Phase Action) :=
  [⟨.version,char 'H',72,.version1,[.mark]⟩,⟨.version1,char 'T',84,.version2,[]⟩,
    ⟨.version2,char 'T',84,.version3,[]⟩,⟨.version3,char 'P',80,.version4,[]⟩,
    ⟨.version4,char '/',47,.version5,[]⟩,⟨.version5,char '1',49,.version6,[]⟩,
    ⟨.version6,char '.',46,.version7,[]⟩,⟨.version7,char '0',48,.version8,[]⟩,
    ⟨.version7,char '1',49,.version8,[]⟩,⟨.version8,char '\r',13,.version9,[.httpVersion]⟩,
    ⟨.version9,char '\n',10,.firstLine,[]⟩]

def headerRows : List (Row Phase Action) :=
  [⟨.firstLine,nameChar,97,.name,[.startField]⟩,⟨.line,nameChar,97,.name,[.startField]⟩,
    ⟨.name,nameChar,97,.name,[]⟩,⟨.name,char ':',58,.value0,[.writeField]⟩,
    ⟨.value0,char ' ',32,.valueBlank0,[.startValue]⟩,⟨.value0,visible,97,.value,[.startValue]⟩,
    ⟨.value0,char '\r',13,.valueEnd,[.startValue, .writeValue]⟩,
    ⟨.valueBlank0,visible,97,.value,[.startValue]⟩,⟨.value,visible,97,.value,[]⟩,
    ⟨.value,char ' ',32,.valueBlank,[]⟩,⟨.value,char '\r',13,.valueEnd,[.writeValue]⟩,
    ⟨.valueBlank,visible,97,.value,[]⟩,⟨.valueBlank,char ' ',32,.valueBlank,[]⟩,
    ⟨.valueBlank,char '\r',13,.valueEnd,[.writeValue]⟩,⟨.valueEnd,char '\n',10,.line,[]⟩,
    ⟨.line,char '\r',13,.last,[.startField]⟩]

def rows : List (Row Phase Action) :=
  pathRows relaxed ++ queryRows relaxed ++ fragmentRows relaxed ++ versionRows ++ headerRows

theorem rows_hold : ∀ row ∈ rows relaxed, row.holds (Phase.state relaxed) = true := by
  cases relaxed <;> decide +kernel

/-- The byte that ends the head. -/
theorem last_step : ((Phase.last.state relaxed).step 10).2 = [.done] ∧
    ((Phase.last.state relaxed).step 10).1.isFinal = true := by
  cases relaxed <;> decide +kernel

end Rows

end Gudov.Http11
