import Gudov.Http11Machine
import Gudov.MachineRun

/-!
# The machine `uri_parser`

The grammar of `uri.rl`, rule by rule. The number in front of a group in `dec_octet` is the
byte 2. Of the paths only the one behind an authority of a `URI` has actions.

The rules without actions are the same under all labels. The numbered machine is written out
over them: the rules with actions occur in `URI` and in `relative_ref`, each time with numbers
of their own.
-/
namespace Gudov.UriParser
open ActionMachine ActionMachine.Machine
open Http11 (byte chars between any ascii digit alpha xdigit unreserved)

inductive Action
  | marku
  | markh
  | saveScheme
  | savePort
  | saveUserinfo
  | saveHost
  | savePath
  | saveQuery
  | saveFragment
deriving Repr, DecidableEq

section Characters
variable {L : Type}

def lit (s : String) : Machine L := word (bytes s)

def subDelims : ByteSet := chars "!$&'()*+,;="

def pctEncoded : Machine L := seq (lit "%") (seq (one xdigit) (one xdigit))

/-- A byte of the set or a percent-encoded one. -/
def orPct (s : ByteSet) : Machine L := alt (one s) pctEncoded

/-- `(any -- ascii) | unreserved | sub_delims`. -/
def segmentSet : ByteSet := .union (.diff any ascii) (.union unreserved subDelims)

def pchar : Machine L := orPct (.union segmentSet (chars ":@"))

/-- `pchar - ":"`. -/
def pcharNoColon : Machine L := orPct (.union segmentSet (chars "@"))

/-- The characters of a query and of a fragment. -/
def pcharSlash : Machine L := orPct (.union (.union segmentSet (chars ":@")) (chars "/?"))

end Characters

section Host
variable {L : Type}

def decOctet : Machine L :=
  alt (one digit) (alt (seq (one (between '1' '9')) (one digit))
    (alt (seq (lit "1") (times 2 (one digit)))
      (alt (seq (one (byte 2)) (seq (one (between '0' '4')) (one digit)))
        (seq (lit "25") (one (between '0' '5'))))))

def ipv4Address : Machine L :=
  seq decOctet (seq (lit ".") (seq decOctet (seq (lit ".") (seq decOctet
    (seq (lit ".") decOctet)))))

def h16 : Machine L := seq (one xdigit) (atMost 3 (one xdigit))

def h16Colon : Machine L := seq h16 (lit ":")

def ls32 : Machine L := alt (seq h16Colon h16) ipv4Address

/-- `((h16 ":"){n} h16)?`. -/
def leadingGroups (n : ℕ) : Machine L := opt (seq (times n h16Colon) h16)

def ipv6Address : Machine L :=
  alt (seq (times 6 h16Colon) ls32)
    (alt (seq (lit "::") (seq (times 5 h16Colon) ls32))
      (alt (seq (opt h16) (seq (lit "::") (seq (times 4 h16Colon) ls32)))
        (alt (seq (leadingGroups 1) (seq (lit "::") (seq (times 3 h16Colon) ls32)))
          (alt (seq (leadingGroups 2) (seq (lit "::") (seq (times 2 h16Colon) ls32)))
            (alt (seq (leadingGroups 3) (seq (lit "::") (seq (times 1 h16Colon) ls32)))
              (alt (seq (leadingGroups 4) (seq (lit "::") ls32))
                (alt (seq (leadingGroups 5) (seq (lit "::") h16))
                  (seq (leadingGroups 6) (lit "::")))))))))

def ipvFuture : Machine L :=
  seq (lit "v") (seq (plus (one xdigit)) (seq (lit ".")
    (plus (one (.union unreserved (.union subDelims (chars ":")))))))

def ipLiteral : Machine L := seq (lit "[") (seq (alt ipv6Address ipvFuture) (lit "]"))

def regName : Machine L := star (orPct (.union unreserved subDelims))

def host : Machine L := alt ipLiteral (alt ipv4Address regName)

def userinfo : Machine L :=
  star (orPct (.union unreserved (.union subDelims (chars ":"))))

def port : Machine L := star (one digit)

end Host

section Path
variable {L : Type}

def segment : Machine L := star pchar

def slashSegments : Machine L := star (seq (lit "/") segment)

def pathAbempty : Machine L := seq (opt (seq (lit "/") segment)) slashSegments

def pathAbsolute : Machine L := seq (lit "/") (opt (seq (plus pchar) slashSegments))

def pathNoscheme : Machine L := seq (plus pcharNoColon) slashSegments

def pathRootless : Machine L := seq (plus pchar) slashSegments

end Path

section Rules

/-- `alpha (alpha | digit | "+" | "-" | ".")*`. -/
def schemeText {L : Type} : Machine L :=
  seq (one alpha) (star (one (.union alpha (.union digit (chars "+-.")))))

def scheme : Machine Action := leave .saveScheme (enter .marku schemeText)

def authority : Machine Action :=
  enter .markh (seq (opt (seq (leave .saveUserinfo userinfo) (lit "@")))
    (seq (leave .saveHost (enter .markh host))
      (opt (seq (lit ":") (leave .savePort (enter .markh port))))))

def query : Machine Action := leave .saveQuery (enter .marku (star pcharSlash))

def fragment : Machine Action := leave .saveFragment (enter .marku (star pcharSlash))

def hierPart : Machine Action :=
  alt (seq (lit "//") (seq authority (leave .savePath (enter .markh pathAbempty))))
    (alt pathAbsolute (alt pathRootless null))

def relativePart : Machine Action :=
  alt (seq (lit "//") (seq authority pathAbempty)) (alt pathAbsolute (alt pathNoscheme null))

/-- `( "?" query )? ( "#" fragment )?`. -/
def queryAndFragment : Machine Action :=
  seq (opt (seq (lit "?") query)) (opt (seq (lit "#") fragment))

def uri : Machine Action :=
  seq scheme (seq (lit ":") (seq hierPart queryAndFragment))

def relativeRef : Machine Action := seq relativePart queryAndFragment

/-- `URI_reference`. -/
def main : Machine Action := alt uri relativeRef

end Rules

section Numbered

abbrev Numbered := Machine (ℕ × Action)

def portAt (n : ℕ) : Numbered := opt (seq (lit ":") (framed n .markh .savePort port))

def hostAndPortAt (n : ℕ) : Numbered := seq (framed n .markh .saveHost host) (portAt (n + 2))

/-- The part of an authority up to the `@`. -/
def userinfoAt (n : ℕ) : Numbered := opt (seq (leave (n, .saveUserinfo) userinfo) (lit "@"))

def authorityAt (n : ℕ) : Numbered :=
  enter (n, .markh) (seq (userinfoAt (n + 1)) (hostAndPortAt (n + 2)))

def queryAt (n : ℕ) : Numbered :=
  opt (seq (lit "?") (framed n .marku .saveQuery (star pcharSlash)))

def fragmentAt (n : ℕ) : Numbered :=
  opt (seq (lit "#") (framed n .marku .saveFragment (star pcharSlash)))

def queryAndFragmentAt (n : ℕ) : Numbered := seq (queryAt n) (fragmentAt (n + 2))

def numberedScheme : Numbered := framed 0 .marku .saveScheme schemeText

def numberedPath : Numbered := framed 8 .markh .savePath pathAbempty

def numberedHierPart : Numbered :=
  alt (seq (lit "//") (seq (authorityAt 2) numberedPath))
    (alt pathAbsolute (alt pathRootless null))

def numberedRelativePart : Numbered :=
  alt (seq (lit "//") (seq (authorityAt 14) pathAbempty))
    (alt pathAbsolute (alt pathNoscheme null))

def afterScheme : Numbered := seq (lit ":") (seq numberedHierPart (queryAndFragmentAt 10))

def numberedUri : Numbered := seq numberedScheme afterScheme

def numberedRelativeRef : Numbered := seq numberedRelativePart (queryAndFragmentAt 20)

theorem number_main : (main.number 0).1 = alt numberedUri numberedRelativeRef := rfl

theorem unranked_main : (main.number 0).1.unranked = true := by
  decide +kernel

end Numbered

end Gudov.UriParser
