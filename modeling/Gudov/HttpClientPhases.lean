import Gudov.HttpClientMachine

/-!
# The response machine on printed responses

The states that `httpclient_parser` goes through on a status line and header lines, and the
transitions between them. Three names have rules of their own beside `fields`. As long as what
has been read of a name is the beginning of one of them, in either case, their positions run
side by side with the position of `fields`, and they are given up with the first other letter.
-/
namespace Gudov.HttpClient
open ActionMachine
open Http11 (byte any digit space)

/-- The beginnings of these names. -/
def beginnings : List (List UInt8) := (ruled.flatMap fun w => w.inits.tail).dedup

/-- Where a response has got to. -/
inductive Phase
  | version (n : ℕ)
  | status0 | status | reason0 | reason | reasonEnd
  | firstLine | line | closeLine
  | name
  | word (w : List UInt8)
  | value0 | valueBlank | value | valueEnd
  | connection0 | connectionBlank
  | close (n : ℕ)
  | closeEnd
  | length0 | lengthBlank | length
  | last
deriving Repr, DecidableEq

namespace Phase

def statusLine : List UInt8 := bytes "HTTP/1.1 2 O\r\n"

/-- A head that gets there. -/
def head : Phase → List UInt8
  | version n => statusLine.take n
  | status0 => bytes "HTTP/1.1 "
  | status => bytes "HTTP/1.1 2"
  | reason0 => bytes "HTTP/1.1 2 "
  | reason => bytes "HTTP/1.1 2 O"
  | reasonEnd => bytes "HTTP/1.1 2 O\r"
  | firstLine => statusLine
  | line => statusLine ++ bytes "a: a\r\n"
  | closeLine => statusLine ++ bytes "connection: close\r\n"
  | name => statusLine ++ bytes "a"
  | word w => statusLine ++ w
  | value0 => statusLine ++ bytes "a:"
  | valueBlank => statusLine ++ bytes "a: "
  | value => statusLine ++ bytes "a: a"
  | valueEnd => statusLine ++ bytes "a: a\r"
  | connection0 => statusLine ++ bytes "connection:"
  | connectionBlank => statusLine ++ bytes "connection: "
  | close n => statusLine ++ bytes "connection: " ++ (bytes "close").take n
  | closeEnd => statusLine ++ bytes "connection: close\r"
  | length0 => statusLine ++ bytes "content-length:"
  | lengthBlank => statusLine ++ bytes "content-length: "
  | length => statusLine ++ bytes "content-length: 1"
  | last => statusLine ++ bytes "a: a\r\n\r"

def state (q : Phase) : State Action := State.run (start main) q.head

end Phase

/-- What a value consists of, and what it begins with. -/
def valueByte : ByteSet := .diff any (.union (byte 10) (byte 13))
def valueFirst : ByteSet := .diff any space

/-- The letters that go on with the name of a rule. -/
def continuations (w : List UInt8) : List UInt8 :=
  beginnings.filterMap fun u => if u.dropLast = w then u.getLast? else none

def anyCase (cs : List UInt8) : ByteSet := cs.foldr (fun c set => .union (eitherCase c) set) .empty

section Rows
open Phase

def statusRows : List (Row Phase Action) :=
  [⟨version 0,byte 72,72,version 1,[.mark]⟩,⟨version 1,byte 84,84,version 2,[]⟩,
    ⟨version 2,byte 84,84,version 3,[]⟩,⟨version 3,byte 80,80,version 4,[]⟩,
    ⟨version 4,byte 47,47,version 5,[]⟩,⟨version 5,byte 49,49,version 6,[]⟩,
    ⟨version 6,byte 46,46,version 7,[]⟩,⟨version 7,digit,49,version 8,[]⟩,
    ⟨version 8,byte 32,32,status0,[.httpVersion]⟩,⟨status0,digit,50,status,[.mark]⟩,
    ⟨status,digit,50,status,[]⟩,⟨status,byte 32,32,reason0,[.statusCode]⟩,
    ⟨reason0,valueByte,79,reason,[.mark]⟩,⟨reason,valueByte,79,reason,[]⟩,
    ⟨reason,byte 13,13,reasonEnd,[.reasonPhrase]⟩,⟨reasonEnd,byte 10,10,firstLine,[]⟩]

/-- The first letter of a name. -/
def lineRows (q : Phase) : List (Row Phase Action) :=
  ((continuations []).map fun c => ⟨q,eitherCase c,c,word [c],[.startField]⟩) ++
    [⟨q,.diff token (anyCase (continuations [])),33,name,[.startField]⟩]

def wordRows (w : List UInt8) : List (Row Phase Action) :=
  ((continuations w).map fun c => ⟨word w,eitherCase c,c,word (w ++ [c]),[]⟩) ++
    ⟨word w,.diff token (anyCase (continuations w)),33,name,[]⟩ ::
    if w ∈ ruled then [] else [⟨word w,byte 58,58,value0,[.writeField]⟩]

def nameRows : List (Row Phase Action) :=
  lineRows firstLine ++ lineRows line ++
    [⟨name,token,33,name,[]⟩,⟨name,byte 58,58,value0,[.writeField]⟩]

def valueRows : List (Row Phase Action) :=
  [⟨value0,byte 32,32,valueBlank,[.startValue]⟩,⟨valueBlank,valueFirst,97,value,[.startValue]⟩,
    ⟨value,valueByte,97,value,[]⟩,⟨value,byte 13,13,valueEnd,[.writeValue]⟩,
    ⟨valueEnd,byte 10,10,line,[]⟩]

def connectionRows : List (Row Phase Action) :=
  [⟨word (bytes "connection"),byte 58,58,connection0,[.writeField]⟩,
    ⟨connection0,byte 32,32,connectionBlank,[.startValue]⟩,
    ⟨connectionBlank,byte 107,107,value,[.startValue]⟩,
    ⟨connectionBlank,byte 99,99,close 1,[.startValue]⟩,⟨close 1,byte 108,108,close 2,[]⟩,
    ⟨close 2,byte 111,111,close 3,[]⟩,⟨close 3,byte 115,115,close 4,[]⟩,
    ⟨close 4,byte 101,101,close 5,[]⟩,⟨close 5,byte 13,13,closeEnd,[.writeValue]⟩,
    ⟨closeEnd,byte 10,10,closeLine,[]⟩]

def lengthRows : List (Row Phase Action) :=
  [⟨word (bytes "content-length"),byte 58,58,length0,[.writeField]⟩,
    ⟨length0,byte 32,32,lengthBlank,[.startValue]⟩,⟨lengthBlank,digit,49,length,[.startValue]⟩,
    ⟨length,digit,49,length,[]⟩,⟨length,byte 13,13,valueEnd,[.writeContentLen, .writeValue]⟩]

def endRows : List (Row Phase Action) :=
  [⟨closeLine,byte 99,99,word [99],[.writeConnectionClose, .startField]⟩,
    ⟨closeLine,byte 13,13,last,[.writeConnectionClose]⟩,⟨line,byte 13,13,last,[]⟩]

def rows : List (Row Phase Action) :=
  statusRows ++ nameRows ++ beginnings.flatMap wordRows ++ valueRows ++ connectionRows ++
    lengthRows ++ endRows

theorem rows_hold : ∀ row ∈ rows, row.holds Phase.state = true := by
  decide +kernel

/-- The byte that ends the head. -/
theorem last_step : (Phase.last.state.step 10).2 = [.done] ∧
    isFirstFinal (Phase.last.state.step 10).1 = true := by
  decide +kernel

end Rows

end Gudov.HttpClient
