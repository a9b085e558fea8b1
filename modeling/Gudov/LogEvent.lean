import Gudov.LogConfig
import Gudov.LogFormatter

/-!
# Formatting an event

Every item puts characters into a stream. The items for the fields of the event write them as
they are, numbers in decimal. The item for the time calls `strftime` with a buffer of 64 bytes;
if the text does not fit, the contents of the buffer are indeterminate, and so is the time that
`localtime_r` leaves when it fails.
-/
namespace Gudov

structure LogEvent where
  file : List Char
  line : ℤ
  elapse : ℕ
  threadId : ℕ
  fiberId : ℕ
  time : ℕ
  content : List Char
  loggerName : List Char
  level : LogLevel
deriving Repr, DecidableEq

/-- `struct tm` -/
structure Tm where
  tmSec : ℕ
  tmMin : ℕ
  tmHour : ℕ
  tmMday : ℕ
  tmMon : ℕ
  tmYear : ℤ
deriving Repr, DecidableEq

/-- What the C library does: `localtime_r`, and the conversions of `strftime` that are not used
here, each with its text and the number of characters it takes after the percent sign. -/
structure TimeLibrary where
  localtime : ℕ → Option Tm
  conversion : Tm → List Char → List Char × ℕ

namespace LogEvent

def decimal : ℤ → List Char
  | .ofNat n => Nat.toDigits 10 n
  | .negSucc n => '-' :: Nat.toDigits 10 (n + 1)

def twoDigits (n : ℕ) : List Char :=
  if n < 10 then '0' :: Nat.toDigits 10 n else Nat.toDigits 10 n

end LogEvent

namespace TimeLibrary
variable (lib : TimeLibrary) (tm : Tm)

/-- A conversion, given by the characters after the percent sign. -/
def convert : List Char → List Char × ℕ
  | '%' :: _ => (['%'], 1)
  | 'Y' :: _ => (LogEvent.decimal (tm.tmYear + 1900), 1)
  | 'm' :: _ => (LogEvent.twoDigits (tm.tmMon + 1), 1)
  | 'd' :: _ => (LogEvent.twoDigits tm.tmMday, 1)
  | 'H' :: _ => (LogEvent.twoDigits tm.tmHour, 1)
  | 'M' :: _ => (LogEvent.twoDigits tm.tmMin, 1)
  | 'S' :: _ => (LogEvent.twoDigits tm.tmSec, 1)
  | cs => lib.conversion tm cs

/-- The text of a format, whose characters that a conversion took are skipped. -/
def strftimeText : ℕ → List Char → List Char
  | _, [] => []
  | skip + 1, _ :: cs => strftimeText skip cs
  | 0, c :: cs =>
    if c = '%' then (lib.convert tm cs).1 ++ strftimeText (lib.convert tm cs).2 cs
    else c :: strftimeText 0 cs

/-- The buffer after `strftime`, as a string. The format ends at a null character. -/
def strftime (maxsize : ℕ) (format : List Char) : Option (List Char) :=
  let text := lib.strftimeText tm 0 (format.takeWhile (· ≠ '\x00'))
  if maxsize ≤ (String.ofList text).utf8ByteSize then none else some text

end TimeLibrary

namespace FormatItem
variable (lib : TimeLibrary)

/-- `format` of the items. -/
def format (event : LogEvent) : FormatItem → Option (List Char)
  | .message => some event.content
  | .level => some event.level.toString.toList
  | .elapse => some (LogEvent.decimal event.elapse)
  | .name => some event.loggerName
  | .threadId => some (LogEvent.decimal event.threadId)
  | .newLine => some ['\n']
  | .dateTime format => do
    let tm ← lib.localtime event.time
    lib.strftime tm 64 format.toList
  | .filename => some event.file
  | .line => some (LogEvent.decimal event.line)
  | .tab => some ['\t']
  | .fiberId => some (LogEvent.decimal event.fiberId)
  | .text str => some str.toList

/-- The items one after the other. -/
def formatAll (event : LogEvent) : List FormatItem → Option (List Char)
  | [] => some []
  | i :: is => do
    let text ← i.format lib event
    let rest ← formatAll event is
    some (text ++ rest)

end FormatItem

/-- `LogFormatter::format` -/
def LogFormatter.format (lib : TimeLibrary) (formatter : LogFormatter) (event : LogEvent) :
    Option (List Char) :=
  FormatItem.formatAll lib event formatter.items

end Gudov
