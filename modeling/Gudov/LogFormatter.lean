import Mathlib.Data.String.Basic

/-!
# Patterns of log lines

`LogFormatter::Init` cuts a pattern into texts and directives and looks the directives up.
A directive is a percent sign, letters and closing braces, and possibly a format in braces.
A brace that is not closed and a directive that is not in the table are errors; both leave a
text in the place of the directive.

Of two percent signs in a row the first becomes a text and the second one is looked at again.
-/
namespace Gudov

inductive FormatItem
  | message
  | level
  | elapse
  | name
  | threadId
  | newLine
  | dateTime (format : String)
  | filename
  | line
  | tab
  | fiberId
  | text (str : String)
deriving Repr, DecidableEq

namespace FormatItem

/-- The constructor of `DateTimeFormatItem`. -/
def ofDateFormat (format : String) : FormatItem :=
  .dateTime (if format = "" then "%Y-%m-%d %H:%M:%S" else format)

/-- The table `s_format_items`. -/
def ofDirective (str fmt : List Char) : Option FormatItem :=
  match str with
  | ['m'] => some .message
  | ['p'] => some .level
  | ['r'] => some .elapse
  | ['c'] => some .name
  | ['t'] => some .threadId
  | ['n'] => some .newLine
  | ['d'] => some (ofDateFormat (String.ofList fmt))
  | ['f'] => some .filename
  | ['l'] => some .line
  | ['T'] => some .tab
  | ['F'] => some .fiberId
  | _ => none

end FormatItem

/-- The elements of `vec`. -/
inductive PatternPart
  | text (str : List Char)
  | directive (str fmt : List Char)
  | patternError
deriving Repr, DecidableEq

namespace PatternPart

/-- The second part of `Init`: an item, and whether it stands for an error. -/
def item : PatternPart → FormatItem × Bool
  | .text str => (.text (String.ofList str), false)
  | .patternError => (.text "<<pattern_error>>", true)
  | .directive str fmt =>
    match FormatItem.ofDirective str fmt with
    | some item => (item, false)
    | none => (.text ("<<error_format %" ++ String.ofList str ++ ">>"), true)

/-- The format of a directive (`fmt_status` is 1): the directive and what follows it, or
nothing when the pattern ends before the brace is closed. -/
def scanFormat (str fmt : List Char) : List Char → Option (PatternPart × List Char)
  | [] => none
  | c :: cs => if c = '}' then some (.directive str fmt, cs) else scanFormat str (fmt ++ [c]) cs

/-- The directive after a percent sign (`fmt_status` is 0). -/
def scanDirective (str : List Char) : List Char → Option (PatternPart × List Char)
  | [] => some (.directive str [], [])
  | c :: cs =>
    if !c.isAlpha && c ≠ '{' && c ≠ '}' then some (.directive str [], c :: cs)
    else if c = '{' then scanFormat str [] cs
    else scanDirective (str ++ [c]) cs

/-- The text collected so far, if there is any. -/
def flush (nstr : List Char) : List PatternPart := if nstr = [] then [] else [.text nstr]

/-- The loop over the pattern. The characters of a directive are skipped after it was
scanned; those of an unclosed one are not. -/
def scan (nstr : List Char) : ℕ → List Char → List PatternPart
  | _, [] => flush nstr
  | skip + 1, _ :: cs => scan nstr skip cs
  | 0, c :: cs =>
    if c ≠ '%' then scan (nstr ++ [c]) 0 cs
    else if cs.head? = some '%' then scan (nstr ++ ['%']) 0 cs
    else
      match scanDirective [] cs with
      | some (part, rest) => flush nstr ++ part :: scan [] (cs.length - rest.length) cs
      | none => .patternError :: scan nstr 0 cs

end PatternPart

structure LogFormatter where
  pattern : String
  items : List FormatItem
  error : Bool
deriving Repr, DecidableEq

namespace LogFormatter

def init (pattern : String) : LogFormatter :=
  let parts := (PatternPart.scan [] 0 pattern.toList).map PatternPart.item
  { pattern := pattern
    items := parts.map Prod.fst
    error := parts.any Prod.snd }

/-- The formatter of a new logger. -/
def initial : LogFormatter :=
  init "%d\x7b%Y-%m-%d %H:%M:%S\x7d%T%t%T%F%T[%p]%T[%c]%T%f:%l%T%m%n"

end LogFormatter

end Gudov
