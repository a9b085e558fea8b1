import Gudov.ActionMachine
import Gudov.HttpMessage

/-!
# The machine `http_parser`

The grammar of `http11_parser.rl`, rule by rule. In its language `-` between two
machines is difference, so `(0 - 31)` is the byte 0 and `("1"-"9")` is the digit 1,
and a number in front of a group is a byte followed by that group. The condition
`parser->uri_relaxed` is read from a field that nothing sets; the machine has it as
a parameter.
-/
namespace Gudov.Http11
open ActionMachine ActionMachine.Machine

inductive Action
  | mark
  | startField
  | writeField
  | startValue
  | writeValue
  | requestMethod
  | requestUri
  | fragment
  | startQuery
  | queryString
  | httpVersion
  | requestPath
  | done
  | xml
  | json
deriving Repr, DecidableEq

def byte (n : UInt8) : ByteSet := .range n n

def chars (s : String) : ByteSet := (bytes s).foldr (fun c set => .union (byte c) set) .empty

def between (lo hi : Char) : ByteSet := .range lo.toNat.toUInt8 hi.toNat.toUInt8

def lit (s : String) : Machine Action := word (bytes s)

section Alphabet

def any : ByteSet := .range 0 255
def ascii : ByteSet := .range 0 127
def upper : ByteSet := between 'A' 'Z'
def digit : ByteSet := between '0' '9'
def alpha : ByteSet := .union (between 'a' 'z') upper
def xdigit : ByteSet := .union digit (.union (between 'a' 'f') (between 'A' 'F'))
def space : ByteSet := .union (.range 9 13) (chars " ")

end Alphabet

def crlf : Machine Action := alt (lit "\r\n") (lit "\n")

section Uri
variable (relaxed : Bool)

def moreDelims : ByteSet := if relaxed then chars "\x7b\x7d^" else .empty

def subDelims : ByteSet := .union (chars "!$&'()*+,;=") (moreDelims relaxed)

def unreserved : ByteSet := .union alpha (.union digit (chars "-._~"))

def pctEncoded : Machine Action := seq (lit "%") (seq (one xdigit) (one xdigit))

/-- A byte of the set or a percent-encoded one. -/
def orPct (s : ByteSet) : Machine Action := alt (one s) pctEncoded

def pcharSet : ByteSet := .union unreserved (.union (subDelims relaxed) (chars ":@"))

def pchar : Machine Action := orPct (pcharSet relaxed)

/-- The characters of a query and of a fragment. -/
def pcharSlash : Machine Action := orPct (.union (pcharSet relaxed) (chars "/?"))

def fragment : Machine Action :=
  leave .fragment (enter .mark (star (pcharSlash relaxed)))

def query : Machine Action := leave .queryString (star (pcharSlash relaxed))

def segmentNzNc : Machine Action :=
  plus (orPct (.union unreserved (.union (subDelims relaxed) (chars "@"))))

def segmentNz : Machine Action := plus (pchar relaxed)

def segment : Machine Action := star (pchar relaxed)

def pathEmpty : Machine Action := times 0 (pchar relaxed)

def pathAbempty : Machine Action := star (seq (lit "/") (segment relaxed))

def pathRootless : Machine Action := seq (segmentNz relaxed) (pathAbempty relaxed)

def pathNoscheme : Machine Action := seq (segmentNzNc relaxed) (pathAbempty relaxed)

def pathAbsolute : Machine Action :=
  seq (lit "/") (opt (seq (segmentNz relaxed) (pathAbempty relaxed)))

def regName : Machine Action := star (orPct (.union unreserved (subDelims relaxed)))

def decOctet : Machine Action :=
  alt (one digit) (alt (seq (one (.diff (chars "1") (chars "9"))) (one digit))
    (alt (seq (lit "1") (times 2 (one digit)))
      (alt (seq (lit "2") (seq (one (.diff (chars "0") (chars "4"))) (one digit)))
        (seq (lit "25") (one (.diff (chars "0") (chars "5")))))))

def ipv4Address : Machine Action :=
  seq decOctet (seq (lit ".") (seq decOctet (seq (lit ".") (seq decOctet
    (seq (lit ".") decOctet)))))

def h16 : Machine Action := seq (one xdigit) (atMost 3 (one xdigit))

def h16Colon : Machine Action := seq h16 (lit ":")

def ls32 : Machine Action := alt (seq h16Colon h16) ipv4Address

/-- `( ( h16 ":" ){n,} h16 )?`. -/
def leadingGroups (n : ℕ) : Machine Action :=
  opt (seq (seq (times n h16Colon) (star h16Colon)) h16)

/-- The number in front of `( h16 ":" )`. -/
def counted (n : UInt8) : Machine Action := seq (one (byte n)) h16Colon

def ipv6Address : Machine Action :=
  alt (seq (counted 6) ls32)
    (alt (seq (lit "::") (seq (counted 5) ls32))
      (alt (seq (opt h16) (seq (lit "::") (seq (counted 4) ls32)))
        (alt (seq (leadingGroups 1) (seq (lit "::") (seq (counted 3) ls32)))
          (alt (seq (leadingGroups 2) (seq (lit "::") (seq (counted 2) ls32)))
            (alt (seq (leadingGroups 3) (seq (lit "::") (seq h16Colon ls32)))
              (alt (seq (leadingGroups 4) (seq (lit "::") ls32))
                (alt (seq (leadingGroups 5) (seq (lit "::") h16))
                  (seq (leadingGroups 6) (lit "::")))))))))

def ipvFuture : Machine Action :=
  seq (lit "v") (seq (plus (one xdigit)) (seq (lit ".")
    (plus (one (.union unreserved (.union (subDelims relaxed) (chars ":")))))))

def ipLiteral : Machine Action :=
  seq (lit "[") (seq (alt ipv6Address (ipvFuture relaxed)) (lit "]"))

def port : Machine Action := star (one digit)

def host : Machine Action := alt (ipLiteral relaxed) (alt ipv4Address (regName relaxed))

def userinfo : Machine Action :=
  star (orPct (.union unreserved (.union (subDelims relaxed) (chars ":"))))

def authority : Machine Action :=
  seq (opt (seq (userinfo relaxed) (lit "@"))) (seq (host relaxed) (opt (seq (lit ":") port)))

def scheme : Machine Action :=
  seq (one alpha) (star (one (.union alpha (.union digit (chars "+-.")))))

def relativePart : Machine Action :=
  alt (seq (lit "//") (seq (authority relaxed) (pathAbempty relaxed)))
    (alt (pathAbsolute relaxed) (alt (pathNoscheme relaxed) (pathEmpty relaxed)))

def hierPart : Machine Action :=
  alt (seq (lit "//") (seq (authority relaxed) (pathAbempty relaxed)))
    (alt (pathAbsolute relaxed) (alt (pathRootless relaxed) (pathEmpty relaxed)))

/-- The part common to `relative_ref` and `URI`. -/
def pathAndQuery (path : Machine Action) : Machine Action :=
  seq (leave .requestUri (enter .mark (seq (leave .requestPath path)
    (opt (seq (leave .startQuery (lit "?")) (query relaxed))))))
    (opt (seq (lit "#") (fragment relaxed)))

def relativeRef : Machine Action := pathAndQuery relaxed (relativePart relaxed)

def uri : Machine Action :=
  seq scheme (seq (lit ":") (pathAndQuery relaxed (hierPart relaxed)))

def uriReference : Machine Action := alt (uri relaxed) (relativeRef relaxed)

end Uri

section Request
variable (relaxed : Bool)

def method : Machine Action :=
  leave .requestMethod (enter .mark
    (seq (one (.union upper digit)) (atMost 19 (one (.union upper digit)))))

def httpNumber : Machine Action := seq (lit "1.") (alt (lit "0") (lit "1"))

def httpVersion : Machine Action :=
  leave .httpVersion (enter .mark (seq (lit "HTTP/") httpNumber))

def requestLine : Machine Action :=
  seq method (seq (lit " ") (seq (uriReference relaxed) (seq (lit " ")
    (seq httpVersion crlf))))

def httpCtl : ByteSet := .union (.diff (byte 0) (byte 31)) (byte 127)

def httpSeparator : ByteSet := chars "()<>@,;:\\\"/[]?=\x7b\x7d \t"

def lws : Machine Action := seq (opt crlf) (plus (one (chars " \t")))

def token : ByteSet := .diff ascii (.union httpCtl httpSeparator)

def content : Machine Action := alt (one (.diff any httpCtl)) lws

def fieldName : Machine Action := leave .writeField (enter .startField (plus (one token)))

def fieldValue : Machine Action := leave .writeValue (enter .startValue (star content))

def messageHeader : Machine Action :=
  entryGuarded 0 (seq fieldName (seq (lit ":") (seq (star lws) fieldValue))) crlf

def request : Machine Action := seq (requestLine relaxed) (seq (star messageHeader) crlf)

end Request

section Socket
variable (relaxed : Bool)

def socketJsonStart : Machine Action := seq (lit "@") (relativePart relaxed)

def socketJsonData : Machine Action :=
  finishGuarded 1 (seq (lit "\x7b") (seq (star (one any)) (lit "\x7d"))) (one (byte 0))

def socketXmlData : Machine Action :=
  finishGuarded 2 (seq (leave .requestPath (enter .mark (seq (lit "<")
    (plus (one (.union alpha (.union digit (chars "-."))))))))
    (seq (one (.union (chars "/") (.union space (chars ">")))) (seq (star (one any)) (lit ">"))))
    (one (byte 0))

def socketJson : Machine Action :=
  seq (leave .requestPath (enter .mark (socketJsonStart relaxed)))
    (seq (lit " ") (finish .json (enter .mark socketJsonData)))

def socketXml : Machine Action := finish .xml socketXmlData

def socketRequest : Machine Action := alt socketXml (socketJson relaxed)

end Socket

def main (relaxed : Bool) : Machine Action :=
  finish .done (alt (request relaxed) (socketRequest relaxed))

end Gudov.Http11
