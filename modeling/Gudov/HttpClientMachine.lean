import Gudov.Http11Machine
import Gudov.MachineTable

/-!
# The machine `httpclient_parser`

The grammar of `httpclient_parser.rl`, rule by rule, with the character classes that the
two grammars share. `Content-Length`, `Connection: close` and `Transfer-Encoding: chunked`
have rules of their own beside `fields`, which reads them as well: the actions of all rules
that a header line follows are performed.

`any -- CRLF` is every byte but a line feed, for a line feed alone is a `CRLF`.
-/
namespace Gudov.HttpClient
open ActionMachine ActionMachine.Machine
open Http11 (byte chars any ascii digit xdigit space)

inductive Action
  | mark
  | startField
  | writeField
  | startValue
  | writeContentLen
  | writeConnectionClose
  | writeValue
  | reasonPhrase
  | statusCode
  | httpVersion
  | chunkSize
  | transChunked
  | done
deriving Repr, DecidableEq

def lit (s : String) : Machine Action := word (bytes s)

/-- The letter in either case. -/
def eitherCase (c : UInt8) : ByteSet :=
  if 97 ≤ toLower c ∧ toLower c ≤ 122 then .union (byte (toLower c)) (byte (toLower c - 32))
  else byte c

theorem byte_cases {P : UInt8 → Prop} (h : ∀ n < 256, P (.ofNat n)) (c : UInt8) : P c := by
  have hc := h c.toNat c.toNat_lt
  rwa [UInt8.ofNat_toNat] at hc

theorem toLower_idem (c : UInt8) : toLower (toLower c) = toLower c :=
  byte_cases (P := fun c => toLower (toLower c) = toLower c) (by decide +kernel) c

theorem eitherCase_self (c : UInt8) : (eitherCase (toLower c)).has c = true :=
  byte_cases (P := fun c => (eitherCase (toLower c)).has c = true) (by decide +kernel) c

theorem toLower_upper (d : UInt8) (h : 97 ≤ toLower d ∧ toLower d ≤ 122) :
    toLower (toLower d - 32) = toLower d :=
  byte_cases (P := fun d => 97 ≤ toLower d ∧ toLower d ≤ 122 → toLower (toLower d - 32) = toLower d)
    (by decide +kernel) d h

theorem eitherCase_has {c d : UInt8} (h : (eitherCase d).has c = true) : toLower c = toLower d := by
  have hbyte : ∀ {x : UInt8}, (byte x).has c = true → c = x := by
    intro x hx
    rw [byte, ByteSet.single_has, decide_eq_true_eq] at hx
    exact hx
  unfold eitherCase at h
  split at h
  next hletter =>
    rw [ByteSet.has, Bool.or_eq_true] at h
    rcases h with h | h
    · rw [hbyte h, toLower_idem]
    · rw [hbyte h, toLower_upper d hletter]
  next => rw [hbyte h]

/-- A literal `/…/i`. -/
def litIgnoreCase (s : String) : Machine Action :=
  (bytes s).foldr (fun c m => seq (one (eitherCase c)) m) null

def crlf : Machine Action := alt (lit "\r\n") (lit "\n")

def ctl : ByteSet := .union (.range 0 31) (byte 127)

def tspecials : ByteSet := chars "()<>@,;:\\\"/[]?=\x7b\x7d \t"

def token : ByteSet := .diff ascii (.union ctl tspecials)

def spaces : Machine Action := star (one space)

section Response

def reasonPhrase : Machine Action :=
  leave .reasonPhrase (enter .mark (plus (one (.diff any (byte 10)))))

def statusCode : Machine Action := leave .statusCode (enter .mark (plus (one digit)))

def httpNumber : Machine Action := seq (plus (one digit)) (seq (lit ".") (plus (one digit)))

def httpVersion : Machine Action := leave .httpVersion (enter .mark (seq (lit "HTTP/") httpNumber))

def statusLine : Machine Action :=
  entryGuarded 0 (seq httpVersion (seq (lit " ") (seq statusCode (seq (lit " ") reasonPhrase)))) crlf

def fieldName : Machine Action := leave .writeField (enter .startField (plus (one token)))

def fieldValue : Machine Action := leave .writeValue (enter .startValue (star (one any)))

def fields : Machine Action :=
  entryGuarded 1 (seq fieldName (seq (lit ":") (seq spaces fieldValue))) crlf

def contentLength : Machine Action :=
  seq (seq (leave .writeField (enter .startField (litIgnoreCase "Content-Length")))
    (seq (lit ":") (seq spaces
      (leave .writeValue (leave .writeContentLen (enter .startValue (plus (one digit)))))))) crlf

def connClose : Machine Action :=
  seq (seq (litIgnoreCase "Connection") (seq (lit ":") (seq spaces (litIgnoreCase "close"))))
    (leave .writeConnectionClose crlf)

def transferEncodingChunked : Machine Action :=
  seq (seq (leave .writeField (enter .startField (litIgnoreCase "Transfer-Encoding")))
    (seq (lit ":") (seq spaces (leave .writeValue (enter .startValue (litIgnoreCase "chunked"))))))
    (finish .transChunked crlf)

def messageHeader : Machine Action :=
  alt transferEncodingChunked (alt connClose (alt contentLength fields))

def response : Machine Action := seq statusLine (seq (star messageHeader) crlf)

/-- The names with rules of their own. -/
def ruled : List (List UInt8) :=
  [bytes "connection", bytes "content-length", bytes "transfer-encoding"]

end Response

section Chunk

def chunkExtVal : Machine Action := plus (one token)

def chunkExtName : Machine Action := plus (one token)

def chunkExtension : Machine Action :=
  star (seq (lit ";") (seq (leave .startValue (leave .writeField (enter .startField chunkExtName)))
    (leave .writeValue (opt (seq (lit "=") (enter .startValue chunkExtVal))))))

def chunkSize : Machine Action := plus (one xdigit)

def chunkedHeader : Machine Action :=
  entryGuarded 2 (seq (leave .chunkSize (enter .mark chunkSize)) chunkExtension) crlf

end Chunk

def main : Machine Action := finish .done (alt response chunkedHeader)

/-- The state `httpclient_parser_first_final`. Ragel numbers the states in the order in which a
search in depth meets them from the start, along the bytes in order, and the final ones last.
The search goes by a digit first and then by the line feed behind a chunk size, so this is the
final state that no byte leaves. Final states with a way on are others: the white space behind
the colon of an empty `Connection`, `Content-Length` or `Transfer-Encoding` line may go on
beyond the end of the head. -/
def isFirstFinal (s : State Action) : Bool := s.isFinal && s.firsts.isEmpty

theorem isFinal_of_isFirstFinal {s : State Action} (h : isFirstFinal s = true) :
    s.isFinal = true :=
  (Bool.and_eq_true_iff.mp h).1

theorem not_firstFinal_of_not_final {s : State Action} (h : s.isFinal = false) :
    isFirstFinal s = false := by
  rw [isFirstFinal, h, Bool.false_and]

end Gudov.HttpClient
