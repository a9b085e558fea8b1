import Mathlib.Data.List.DropRight
import Gudov.CrlfText
import Gudov.HttpResponseParser
import Gudov.HttpRoundTrip

/-!
# How a printed message is framed

The reader of a message finds the end of its head at the first empty line and the length of
its body in a field `content-length`. `Dump` prints this field from the body and the field
`connection` from a flag of its own, next to the entries of the header map. It leaves out the
entries that are called `connection`, but none that is called `content-length`.

The name of a field is what stands in front of the first colon of its line. A key of the
header map may have a colon in it, so it is not always the name.
-/
namespace Gudov
open CrlfText

/-- `HTTP_STATUS_MAP` with the third column as a string. -/
def httpStatusTable : List (ℕ × List UInt8) :=
  [(100, bytes "Continue"), (101, bytes "Switching Protocols"), (102, bytes "Processing"),
    (200, bytes "OK"), (201, bytes "Created"), (202, bytes "Accepted"),
    (203, bytes "Non - Authoritative Information"), (204, bytes "No Content"),
    (205, bytes "Reset Content"), (206, bytes "Partial Content"), (207, bytes "Multi - Status"),
    (208, bytes "Already Reported"), (226, bytes "IM Used"), (300, bytes "Multiple Choices"),
    (301, bytes "Moved Permanently"), (302, bytes "Found"), (303, bytes "See Other"),
    (304, bytes "Not Modified"), (305, bytes "Use Proxy"), (307, bytes "Temporary Redirect"),
    (308, bytes "Permanent Redirect"), (400, bytes "Bad Request"), (401, bytes "Unauthorized"),
    (402, bytes "Payment Required"), (403, bytes "Forbidden"), (404, bytes "Not Found"),
    (405, bytes "Method Not Allowed"), (406, bytes "Not Acceptable"),
    (407, bytes "Proxy Authentication Required"), (408, bytes "Request Timeout"),
    (409, bytes "Conflict"), (410, bytes "Gone"), (411, bytes "Length Required"),
    (412, bytes "Precondition Failed"), (413, bytes "Payload Too Large"),
    (414, bytes "URI Too Long"), (415, bytes "Unsupported Media Type"),
    (416, bytes "Range Not Satisfiable"), (417, bytes "Expectation Failed"),
    (421, bytes "Misdirected Request"), (422, bytes "Unprocessable Entity"),
    (423, bytes "Locked"), (424, bytes "Failed Dependency"), (426, bytes "Upgrade Required"),
    (428, bytes "Precondition Required"), (429, bytes "Too Many Requests"),
    (431, bytes "Request Header Fields Too Large"), (451, bytes "Unavailable For Legal Reasons"),
    (500, bytes "Internal Server Error"), (501, bytes "Not Implemented"),
    (502, bytes "Bad Gateway"), (503, bytes "Service Unavailable"),
    (504, bytes "Gateway Timeout"), (505, bytes "HTTP Version Not Supported"),
    (506, bytes "Variant Also Negotiates"), (507, bytes "Insufficient Storage"),
    (508, bytes "Loop Detected"), (510, bytes "Not Extended"),
    (511, bytes "Network Authentication Required")]

def httpStatusToString (status : ℕ) : List UInt8 :=
  match httpStatusTable.find? fun e => e.1 = status with
  | some e => e.2
  | none => bytes "<unknown>"

namespace HttpResponse

def connectionValue (r : HttpResponse) : List UInt8 :=
  if r.close then bytes "close" else bytes "keep-alive"

/-- `(uint32_t)status_` -/
def statusNumber (r : HttpResponse) : ℕ := (r.status % 2 ^ 32).toNat

def dump (r : HttpResponse) : List UInt8 :=
  bytes "HTTP/" ++ decimal (r.version >>> 4).toNat ++ bytes "." ++
    decimal (r.version &&& 0x0F).toNat ++ bytes " " ++ decimal r.statusNumber ++ bytes " " ++
    (if r.reason.isEmpty then httpStatusToString r.statusNumber else r.reason) ++ bytes "\r\n" ++
    (r.headers.flatMap fun e =>
      if strcasecmp e.1 (bytes "connection") = .eq then []
      else e.1 ++ bytes ": " ++ e.2 ++ bytes "\r\n") ++
    bytes "connection: " ++ r.connectionValue ++ bytes "\r\n" ++
    if r.body.isEmpty then bytes "\r\n"
    else bytes "content-length: " ++ decimal r.body.length ++ bytes "\r\n\r\n" ++ r.body

end HttpResponse

namespace HttpFraming

/-! ## What a reader finds -/

def isBlank (c : UInt8) : Bool := c == 32 || c == 9

/-- A text without the blanks around it. -/
def trim (w : List UInt8) : List UInt8 := (w.dropWhile isBlank).rdropWhile isBlank

/-- What stands in front of the first colon. -/
def fieldName (line : List UInt8) : List UInt8 := line.takeWhile (· != 58)

def fieldValue (line : List UInt8) : List UInt8 := trim (line.dropWhile (· != 58)).tail

/-- The line is a field of this name, which is in lower case. -/
def isNamed (name line : List UInt8) : Bool :=
  line.contains 58 && (fieldName line).map toLower == name

def isDigit (c : UInt8) : Bool := 48 ≤ c && c ≤ 57

/-- The length a field announces, if its value is a number. -/
def announced (line : List UInt8) : Option ℕ :=
  if fieldValue line ≠ [] ∧ (fieldValue line).all isDigit then
    some (fromDecimal (fieldValue line))
  else none

def connection : List UInt8 := bytes "connection"
def contentLength : List UInt8 := bytes "content-length"

/-- The fields say where this body ends, and only once. -/
structure Delimits (fields : List (List UInt8)) (body : List UInt8) : Prop where
  oneLength : fields.countP (isNamed contentLength) ≤ 1
  oneConnection : fields.countP (isNamed connection) ≤ 1
  length : body ≠ [] → ∃ line ∈ fields, isNamed contentLength line = true ∧
    fieldValue line = decimal body.length
  nothing : body = [] → ∀ line ∈ fields, isNamed contentLength line = true →
    ∀ n, announced line = some n → n = 0

/-- The text is cut at its first empty line into a head and this body, and the fields behind
the first line of the head delimit it. -/
def Framed (text body : List UInt8) : Prop :=
  ∃ head, splitBlank text = some (head, body) ∧ Delimits (lines head).tail body

/-! ## What the header map may hold -/

/-- The line of an entry, with what stands in front of the value. -/
def entryLine (pad : List UInt8) (e : List UInt8 × List UInt8) : List UInt8 :=
  e.1 ++ 58 :: (pad ++ e.2)

/-- The key up to its first colon is this name. -/
def entryNamed (name : List UInt8) (e : List UInt8 × List UInt8) : Bool :=
  (e.1.takeWhile (· != 58)).map toLower == name

/-- The condition on the header map: no key goes on behind `connection:`, and no entry is
called `content-length`, where without a body there may be one that announces nothing. -/
def Unambiguous (pad body : List UInt8) (m : HeaderMap) : Prop :=
  (∀ e ∈ m, entryNamed connection e = true → 58 ∉ e.1) ∧
    if body = [] then
      m.countP (entryNamed contentLength) ≤ 1 ∧
        ∀ e ∈ m, entryNamed contentLength e = true →
          ∀ n, announced (entryLine pad e) = some n → n = 0
    else ∀ e ∈ m, entryNamed contentLength e = false

/-! ## The fields of a printed message -/

variable {pad body name : List UInt8} {m : HeaderMap} {e : List UInt8 × List UInt8}

theorem takeWhile_colon (k w : List UInt8) :
    (k ++ 58 :: w).takeWhile (· != 58) = k.takeWhile (· != 58) := by
  induction k with
  | nil => rfl
  | cons c k ih => rw [List.cons_append, List.takeWhile_cons, List.takeWhile_cons, ih]

theorem fieldName_entryLine (pad : List UInt8) (e : List UInt8 × List UInt8) :
    fieldName (entryLine pad e) = e.1.takeWhile (· != 58) :=
  takeWhile_colon e.1 (pad ++ e.2)

theorem isNamed_entryLine (pad : List UInt8) (e : List UInt8 × List UInt8) :
    isNamed name (entryLine pad e) = entryNamed name e := by
  rw [isNamed, entryNamed, fieldName_entryLine]
  simp [entryLine]

/-- The entries that `Dump` prints. -/
def printed (m : HeaderMap) : HeaderMap :=
  m.filter fun e => strcasecmp e.1 (bytes "connection") != .eq

theorem strcasecmp_connection {k : List UInt8} :
    strcasecmp k (bytes "connection") = .eq ↔ folded k = connection := by
  have hfold : folded (bytes "connection") = connection := by decide
  rw [strcasecmp_eq, hfold, Std.LawfulEqCmp.compare_eq_iff_eq]

/-- Letter case aside, a text begins with its part in front of a character. -/
theorem lower_takeWhile_prefix (p : UInt8 → Bool) (k : List UInt8) :
    (k.takeWhile p).map toLower <+: k.map toLower :=
  (List.takeWhile_prefix p).map toLower

/-- An entry called `content-length` is printed. -/
theorem printed_of_contentLength (h : entryNamed contentLength e = true) :
    strcasecmp e.1 (bytes "connection") ≠ .eq := by
  rw [ne_eq, strcasecmp_connection]
  intro hfold
  have hname : (e.1.takeWhile (· != 58)).map toLower = contentLength := by
    simpa [entryNamed] using h
  have hlong : contentLength <+: e.1.map toLower := hname ▸ lower_takeWhile_prefix _ e.1
  have hshort : connection <+: e.1.map toLower := hfold ▸ lower_takeWhile_prefix _ e.1
  exact absurd (List.prefix_of_prefix_length_le hshort hlong (by decide)) (by decide)

theorem takeWhile_self {k : List UInt8} (h : 58 ∉ k) : k.takeWhile (· != 58) = k := by
  rw [List.takeWhile_eq_self_iff]
  intro c hc
  rw [bne_iff_ne]
  rintro rfl
  exact h hc

theorem not_mem_zero_of_lower {k : List UInt8} (h : 0 ∉ k.map toLower) :
    ∀ c ∈ k, (c != 0) = true := by
  intro c hc
  rw [bne_iff_ne]
  rintro rfl
  exact h (List.mem_map.mpr ⟨0,hc,rfl⟩)

/-- An entry called `connection` is printed when its key goes on behind that. -/
theorem printed_connection_iff (h : entryNamed connection e = true) :
    strcasecmp e.1 (bytes "connection") ≠ .eq ↔ 58 ∈ e.1 := by
  have hname : (e.1.takeWhile (· != 58)).map toLower = connection := by
    simpa [entryNamed] using h
  rw [ne_eq, strcasecmp_connection]
  constructor
  · intro hfold
    by_contra hcolon
    rw [takeWhile_self hcolon] at hname
    have hzero := not_mem_zero_of_lower (k := e.1) (by rw [hname]; decide)
    rw [folded, List.takeWhile_eq_self_iff.mpr hzero] at hfold
    exact hfold hname
  · intro hcolon hfold
    -- The part in front of a 0 byte goes on at least as far as the colon.
    have hmem : 58 ∈ e.1.takeWhile (· != 0) := by
      obtain ⟨a,b,hab,ha⟩ := List.eq_append_cons_of_mem hcolon
      rw [hab, takeWhile_colon, takeWhile_self ha] at hname
      have hzero := not_mem_zero_of_lower (k := a) (by rw [hname]; decide)
      rw [hab, List.takeWhile_append_of_pos hzero]
      simp
    have hin : toLower 58 ∈ folded e.1 := List.mem_map_of_mem hmem
    rw [hfold] at hin
    revert hin
    decide

/-- The two fields that `Dump` prints on its own. -/
def connectionLine (close : Bool) : List UInt8 :=
  bytes "connection: " ++ if close then bytes "close" else bytes "keep-alive"

def bodyLines (body : List UInt8) : List (List UInt8) :=
  if body.isEmpty then [] else [bytes "content-length: " ++ decimal body.length]

theorem connectionLine_named (close : Bool) :
    isNamed connection (connectionLine close) = true ∧
      isNamed contentLength (connectionLine close) = false := by
  cases close <;> decide

theorem trim_decimal (n : ℕ) : trim (32 :: decimal n) = decimal n := by
  have hblank : ∀ c ∈ decimal n, isBlank c = false := by
    intro c hc
    have hbounds := decimal_bounds hc
    simp only [isBlank, Bool.or_eq_false_iff, beq_eq_false_iff_ne, ne_eq]
    constructor <;>
    · rintro rfl
      simp at hbounds
  have hfront : (decimal n).dropWhile isBlank = decimal n := by
    rw [List.dropWhile_eq_self_iff]
    intro hpos
    simp [hblank _ (List.getElem_mem hpos)]
  have hblank32 : isBlank 32 = true := rfl
  rw [trim, List.dropWhile_cons, hblank32, if_pos rfl, hfront, List.rdropWhile_eq_self_iff]
  intro hne
  simp [hblank _ (List.getLast_mem hne)]

theorem bodyLine_named (n : ℕ) :
    isNamed contentLength (bytes "content-length: " ++ decimal n) = true ∧
      isNamed connection (bytes "content-length: " ++ decimal n) = false ∧
      fieldValue (bytes "content-length: " ++ decimal n) = decimal n := by
  have hline : bytes "content-length: " ++ decimal n =
      entryLine [32] (contentLength, decimal n) := by
    rw [entryLine]
    rfl
  have hvalue : fieldValue (entryLine [32] (contentLength, decimal n)) =
      trim (32 :: decimal n) := rfl
  rw [hline, isNamed_entryLine, isNamed_entryLine, hvalue, trim_decimal]
  exact ⟨rfl,rfl,rfl⟩

/-! ## Both messages -/

/-- The fields of a printed message, in whatever order. -/
def ownFields (pad body : List UInt8) (close : Bool) (m : HeaderMap) : List (List UInt8) :=
  connectionLine close :: ((printed m).map (entryLine pad) ++ bodyLines body)

theorem countP_ownFields (pad body : List UInt8) (close : Bool) (m : HeaderMap) :
    (ownFields pad body close m).countP (isNamed contentLength) =
        m.countP (entryNamed contentLength) + (if body = [] then 0 else 1) ∧
      (ownFields pad body close m).countP (isNamed connection) =
        1 + m.countP (fun e => entryNamed connection e && decide (58 ∈ e.1)) := by
  have hentries : ∀ name, ((printed m).map (entryLine pad)).countP (isNamed name) =
      m.countP fun e => entryNamed name e && strcasecmp e.1 (bytes "connection") != .eq := by
    intro name
    have hcomp : isNamed name ∘ entryLine pad = entryNamed name := by
      funext e
      exact isNamed_entryLine pad e
    rw [List.countP_map, hcomp, printed, List.countP_filter]
  have hlength : (bodyLines body).countP (isNamed contentLength) = if body = [] then 0 else 1 := by
    cases body with
    | nil => rfl
    | cons c w => simp [bodyLines, (bodyLine_named _).1]
  have hconnection : (bodyLines body).countP (isNamed connection) = 0 := by
    cases body with
    | nil => rfl
    | cons c w => simp [bodyLines, (bodyLine_named _).2.1]
  rw [ownFields, List.countP_cons, List.countP_cons, List.countP_append, List.countP_append,
    hentries, hentries, hlength, hconnection, (connectionLine_named close).1,
    (connectionLine_named close).2]
  have hsame : m.countP (fun e => entryNamed contentLength e &&
      strcasecmp e.1 (bytes "connection") != .eq) = m.countP (entryNamed contentLength) := by
    apply List.countP_congr
    intro e _
    rw [Bool.and_eq_true, bne_iff_ne, and_iff_left_iff_imp]
    exact printed_of_contentLength
  have hcolon : m.countP (fun e => entryNamed connection e &&
      strcasecmp e.1 (bytes "connection") != .eq) =
        m.countP fun e => entryNamed connection e && decide (58 ∈ e.1) := by
    apply List.countP_congr
    intro e _
    rw [Bool.and_eq_true, Bool.and_eq_true, bne_iff_ne, decide_eq_true_eq]
    exact and_congr_right printed_connection_iff
  rw [hsame, hcolon]
  constructor
  · simp
  · simp [Nat.add_comm]

theorem mem_printed_lines (h : entryNamed contentLength e = true) (he : e ∈ m) :
    entryLine pad e ∈ (printed m).map (entryLine pad) := by
  refine List.mem_map_of_mem (List.mem_filter.mpr ⟨he,?_⟩)
  rw [bne_iff_ne]
  exact printed_of_contentLength h

/-- A field called `content-length` is the one printed from the body, or an entry. -/
theorem contentLength_cases {close : Bool} {line : List UInt8}
    (h : line ∈ ownFields pad body close m) (hnamed : isNamed contentLength line = true) :
    (∃ e ∈ m, line = entryLine pad e ∧ entryNamed contentLength e = true) ∨ body ≠ [] := by
  rcases List.mem_cons.mp h with rfl | h
  · rw [(connectionLine_named close).2] at hnamed
    cases hnamed
  · rcases List.mem_append.mp h with h | h
    · obtain ⟨e,he,rfl⟩ := List.mem_map.mp h
      rw [isNamed_entryLine] at hnamed
      exact .inl ⟨e,(List.mem_filter.mp he).1,rfl,hnamed⟩
    · right
      rintro rfl
      cases h

theorem delimits_iff {close : Bool} {fields : List (List UInt8)}
    (hperm : fields.Perm (ownFields pad body close m)) :
    Delimits fields body ↔ Unambiguous pad body m := by
  obtain ⟨hlength,hconnection⟩ := countP_ownFields pad body close m
  rw [← hperm.countP_eq] at hlength hconnection
  have hcolon : fields.countP (isNamed connection) ≤ 1 ↔
      ∀ e ∈ m, entryNamed connection e = true → 58 ∉ e.1 := by
    rw [hconnection]
    have hzero : 1 + m.countP (fun e => entryNamed connection e && decide (58 ∈ e.1)) ≤ 1 ↔
        m.countP (fun e => entryNamed connection e && decide (58 ∈ e.1)) = 0 := by omega
    rw [hzero, List.countP_eq_zero]
    apply forall₂_congr
    intro e _
    rw [Bool.and_eq_true, decide_eq_true_eq, not_and]
  have hmem : ∀ line, line ∈ fields ↔ line ∈ ownFields pad body close m := fun line =>
    hperm.mem_iff
  by_cases hbody : body = []
  · rw [if_pos hbody, Nat.add_zero] at hlength
    rw [Unambiguous, if_pos hbody]
    constructor
    · intro h
      refine ⟨hcolon.mp h.oneConnection,hlength ▸ h.oneLength,?_⟩
      intro e he hnamed
      refine h.nothing hbody _ ?_ (by rw [isNamed_entryLine, hnamed])
      rw [hmem]
      exact List.mem_cons_of_mem _ (List.mem_append_left _ (mem_printed_lines hnamed he))
    · rintro ⟨hnone,hone,hzero⟩
      refine ⟨hlength ▸ hone,hcolon.mpr hnone,fun hne => absurd hbody hne,?_⟩
      intro _ line hline hnamed
      rcases contentLength_cases ((hmem line).mp hline) hnamed with ⟨e,he,rfl,hentry⟩ | hne
      · exact hzero e he hentry
      · exact absurd hbody hne
  · rw [if_neg hbody] at hlength
    rw [Unambiguous, if_neg hbody]
    have hnone : fields.countP (isNamed contentLength) ≤ 1 ↔
        ∀ e ∈ m, entryNamed contentLength e = false := by
      have hzero : m.countP (entryNamed contentLength) + 1 ≤ 1 ↔
          m.countP (entryNamed contentLength) = 0 := by omega
      rw [hlength, hzero, List.countP_eq_zero]
      simp only [Bool.not_eq_true]
    constructor
    · intro h
      exact ⟨hcolon.mp h.oneConnection,hnone.mp h.oneLength⟩
    · rintro ⟨hconn,hlen⟩
      refine ⟨hnone.mpr hlen,hcolon.mpr hconn,?_,fun h => absurd h hbody⟩
      intro _
      refine ⟨bytes "content-length: " ++ decimal body.length,?_,(bodyLine_named _).1,
        (bodyLine_named _).2.2⟩
      rw [hmem]
      refine List.mem_cons_of_mem _ (List.mem_append_right _ ?_)
      simp [bodyLines, hbody]

/-- A text of a first line, fields, an empty line and a body. -/
theorem framed_iff {start : List UInt8} {fields : List (List UInt8)}
    (hlines : ∀ l ∈ start :: fields, l ≠ [] ∧ 13 ∉ l) (body : List UInt8) :
    Framed (printLines (start :: fields) ++ 13 :: 10 :: body) body ↔ Delimits fields body := by
  obtain ⟨head,hsplit,hhead⟩ := split_printLines (List.cons_ne_nil start fields) hlines body
  constructor
  · rintro ⟨head',hsplit',h⟩
    rw [hsplit] at hsplit'
    cases hsplit'
    rwa [hhead] at h
  · intro h
    exact ⟨head,hsplit,by rwa [hhead]⟩

/-- No CR and no LF. -/
def NoBreak (w : List UInt8) : Prop := 13 ∉ w ∧ 10 ∉ w

/-- The entries and what ends the head, in lines. -/
theorem printLines_entries (pad : List UInt8) (m : HeaderMap) :
    printLines ((printed m).map (entryLine pad)) = m.flatMap fun e =>
      if strcasecmp e.1 (bytes "connection") = .eq then []
      else e.1 ++ 58 :: (pad ++ (e.2 ++ [13, 10])) := by
  induction m with
  | nil => rfl
  | cons e m ih =>
    rw [List.flatMap_cons, ← ih]
    by_cases h : strcasecmp e.1 (bytes "connection") = .eq
    · simp [printed, h]
    · simp [printed, h, printLines, entryLine]

theorem printLines_body (body : List UInt8) :
    printLines (bodyLines body) ++ 13 :: 10 :: body =
      if body.isEmpty then bytes "\r\n"
      else bytes "content-length: " ++ decimal body.length ++ bytes "\r\n\r\n" ++ body := by
  cases body with
  | nil => rfl
  | cons c w =>
    simp only [bodyLines, List.isEmpty_cons, Bool.false_eq_true, if_false, printLines,
      List.flatMap_cons, List.flatMap_nil, List.append_nil, List.append_assoc]
    rfl

theorem decimal_noCr (n : ℕ) : 13 ∉ decimal n := by
  intro h
  have hbounds := decimal_bounds h
  simp at hbounds

theorem ownFields_lines (pad : List UInt8) (hpad : 13 ∉ pad)
    (hm : ∀ e ∈ m, NoBreak e.1 ∧ NoBreak e.2) (close : Bool) (body : List UInt8) :
    ∀ l ∈ ownFields pad body close m, l ≠ [] ∧ 13 ∉ l := by
  intro l hl
  rcases List.mem_cons.mp hl with rfl | hl
  · cases close <;> decide
  · rcases List.mem_append.mp hl with hl | hl
    · obtain ⟨e,he,rfl⟩ := List.mem_map.mp hl
      obtain ⟨hkey,hvalue⟩ := hm e (List.mem_filter.mp he).1
      refine ⟨by simp [entryLine],?_⟩
      simp [entryLine, hkey.1, hvalue.1, hpad]
    · unfold bodyLines at hl
      split at hl
      · cases hl
      · rw [List.mem_singleton.mp hl]
        have htext : 13 ∉ bytes "content-length: " := by decide
        refine ⟨List.append_ne_nil_of_left_ne_nil (by decide) _,?_⟩
        rw [List.mem_append, not_or]
        exact ⟨htext,decimal_noCr _⟩

theorem httpMethodToString_noCr (x : HttpMethod) : 13 ∉ httpMethodToString x := by
  cases x <;> decide +kernel

/-- What is printed for a status is not empty and lies in one line. -/
theorem httpStatusToString_line (n : ℕ) :
    httpStatusToString n ≠ [] ∧ ∀ c ∈ httpStatusToString n, c ≠ 10 ∧ c ≠ 13 := by
  have hline : ∀ w : List UInt8, (!w.isEmpty && w.all fun c => c != 10 && c != 13) = true →
      w ≠ [] ∧ ∀ c ∈ w, c ≠ 10 ∧ c ≠ 13 := by
    intro w hw
    simpa using hw
  have htable : (httpStatusTable.all fun e =>
      !e.2.isEmpty && e.2.all fun c => c != 10 && c != 13) = true := by
    decide +kernel
  unfold httpStatusToString
  split
  next e he => exact hline _ (List.all_eq_true.mp htable e (List.mem_of_find?_eq_some he))
  next => exact hline _ (by decide +kernel)

/-- No CR and no LF in what the user supplies besides the body. -/
structure RequestBreaks (r : HttpRequest) : Prop where
  path : NoBreak r.path
  query : NoBreak r.query
  fragment : NoBreak r.fragment
  headers : ∀ e ∈ r.headers, NoBreak e.1 ∧ NoBreak e.2

structure ResponseBreaks (r : HttpResponse) : Prop where
  reason : NoBreak r.reason
  headers : ∀ e ∈ r.headers, NoBreak e.1 ∧ NoBreak e.2

def requestLine (r : HttpRequest) : List UInt8 :=
  httpMethodToString r.method ++ bytes " " ++ r.path ++
    (if r.query.isEmpty then [] else bytes "?") ++ r.query ++
    (if r.fragment.isEmpty then [] else bytes "#") ++ r.fragment ++
    bytes " HTTP/" ++ decimal (r.version >>> 4).toNat ++ bytes "." ++
    decimal (r.version &&& 0x0F).toNat

theorem requestLine_line {r : HttpRequest} (hr : RequestBreaks r) :
    requestLine r ≠ [] ∧ 13 ∉ requestLine r := by
  have hmark : ∀ (b : Bool) (w : List UInt8), 13 ∉ w → 13 ∉ if b then [] else w := by
    intro b w hw
    cases b
    · exact hw
    · simp
  have h₁ := hmark r.query.isEmpty (bytes "?") (by decide)
  have h₂ := hmark r.fragment.isEmpty (bytes "#") (by decide)
  have h₃ : 13 ∉ bytes " " := by decide
  have h₄ : 13 ∉ bytes " HTTP/" := by decide
  have h₅ : 13 ∉ bytes "." := by decide
  constructor
  · simp [requestLine, bytes]
  · simp only [requestLine, List.mem_append, not_or]
    exact ⟨⟨⟨⟨⟨⟨⟨⟨⟨⟨httpMethodToString_noCr _,h₃⟩,hr.path.1⟩,h₁⟩,hr.query.1⟩,h₂⟩,hr.fragment.1⟩,h₄⟩,
      decimal_noCr _⟩,h₅⟩,decimal_noCr _⟩

/-- The text of a first line and the fields, with the entries and the body spelled out. -/
theorem printLines_head (start pad body : List UInt8) (close : Bool) (m : HeaderMap) :
    printLines (start :: ownFields pad body close m) ++ 13 :: 10 :: body =
      start ++ bytes "\r\n" ++ connectionLine close ++ bytes "\r\n" ++
        printLines ((printed m).map (entryLine pad)) ++
        (printLines (bodyLines body) ++ 13 :: 10 :: body) := by
  have hbreak : bytes "\r\n" = [13, 10] := rfl
  simp [printLines, ownFields, hbreak]

theorem request_dump (r : HttpRequest) :
    r.dump = printLines (requestLine r :: ownFields [] r.body r.close r.headers) ++
      13 :: 10 :: r.body := by
  have hbreak : bytes "\r\n" = [13, 10] := rfl
  have hcolon : bytes ":" = [58] := rfl
  rw [printLines_head, printLines_entries, printLines_body, HttpRequest.dump,
    HttpRequest.connectionValue, requestLine, connectionLine, hbreak, hcolon]
  simp only [List.append_assoc, List.nil_append, List.cons_append]

theorem request_framed {r : HttpRequest} (hr : RequestBreaks r) :
    Framed r.dump r.body ↔ Delimits (ownFields [] r.body r.close r.headers) r.body := by
  have hfields := ownFields_lines [] List.not_mem_nil hr.headers r.close r.body
  rw [request_dump, framed_iff (List.forall_mem_cons.mpr ⟨requestLine_line hr,hfields⟩)]

def statusLine (r : HttpResponse) : List UInt8 :=
  bytes "HTTP/" ++ decimal (r.version >>> 4).toNat ++ bytes "." ++
    decimal (r.version &&& 0x0F).toNat ++ bytes " " ++ decimal r.statusNumber ++ bytes " " ++
    if r.reason.isEmpty then httpStatusToString r.statusNumber else r.reason

theorem statusLine_line {r : HttpResponse} (hr : ResponseBreaks r) :
    statusLine r ≠ [] ∧ 13 ∉ statusLine r := by
  have hreason : 13 ∉ if r.reason.isEmpty then httpStatusToString r.statusNumber else r.reason := by
    split
    · intro hmem
      exact ((httpStatusToString_line _).2 13 hmem).2 rfl
    · exact hr.reason.1
  have h₁ : 13 ∉ bytes "HTTP/" := by decide
  have h₂ : 13 ∉ bytes "." := by decide
  have h₃ : 13 ∉ bytes " " := by decide
  constructor
  · simp [statusLine, bytes]
  · simp only [statusLine, List.mem_append, not_or]
    exact ⟨⟨⟨⟨⟨⟨⟨h₁,decimal_noCr _⟩,h₂⟩,decimal_noCr _⟩,h₃⟩,decimal_noCr _⟩,h₃⟩,hreason⟩

/-- A response prints its own field `connection` behind the entries. -/
def responseFields (r : HttpResponse) : List (List UInt8) :=
  (printed r.headers).map (entryLine [32]) ++ connectionLine r.close :: bodyLines r.body

theorem response_dump (r : HttpResponse) :
    r.dump = printLines (statusLine r :: responseFields r) ++ 13 :: 10 :: r.body := by
  have hbreak : bytes "\r\n" = [13, 10] := rfl
  have hcolon : bytes ": " = [58, 32] := rfl
  have hlines : printLines (statusLine r :: responseFields r) ++ 13 :: 10 :: r.body =
      statusLine r ++ bytes "\r\n" ++ printLines ((printed r.headers).map (entryLine [32])) ++
        connectionLine r.close ++ bytes "\r\n" ++
        (printLines (bodyLines r.body) ++ 13 :: 10 :: r.body) := by
    simp [printLines, responseFields, hbreak]
  rw [hlines, printLines_entries, printLines_body, HttpResponse.dump,
    HttpResponse.connectionValue, statusLine, connectionLine, hbreak, hcolon]
  simp only [List.append_assoc, List.cons_append, List.nil_append]

/-- For every request and every response without line breaks outside the body: what is printed
is framed unambiguously exactly when no key of the header map is `connection` with a colon
behind it, and none is called `content-length` unless the body is empty and the one that is
announces no other length. -/
theorem dump_framed_iff (q : HttpRequest) (r : HttpResponse) :
    (RequestBreaks q → (Framed q.dump q.body ↔ Unambiguous [] q.body q.headers)) ∧
    (ResponseBreaks r → (Framed r.dump r.body ↔ Unambiguous [32] r.body r.headers)) := by
  constructor
  · intro hq
    rw [request_framed hq]
    exact delimits_iff (List.Perm.refl _)
  · intro hr
    have hperm : (responseFields r).Perm (ownFields [32] r.body r.close r.headers) :=
      List.perm_middle
    have hfields : ∀ l ∈ responseFields r, l ≠ [] ∧ 13 ∉ l := fun l hl =>
      ownFields_lines [32] (by decide) hr.headers r.close r.body l (hperm.mem_iff.mp hl)
    rw [response_dump, framed_iff (List.forall_mem_cons.mpr ⟨statusLine_line hr,hfields⟩)]
    exact delimits_iff hperm

def hostRequest : HttpRequest :=
  { HttpRequest.setHeader (bytes "host") (bytes "a") {} with body := bytes "abc" }

def hostResponse : HttpResponse :=
  { HttpResponse.setHeader (bytes "Content-Length") (bytes "0") {} with reason := bytes "OK" }

theorem dump_framed_iff_host :
    Framed hostRequest.dump (bytes "abc") ∧ Framed hostResponse.dump [] := by
  have hrequest : RequestBreaks hostRequest := by
    constructor <;> unfold NoBreak <;> decide
  have hresponse : ResponseBreaks hostResponse := by
    constructor <;> unfold NoBreak <;> decide
  obtain ⟨hq,hr⟩ := dump_framed_iff hostRequest hostResponse
  refine ⟨(hq hrequest).mpr ?_,(hr hresponse).mpr ?_⟩
  · unfold Unambiguous
    decide
  · refine ⟨by decide,by decide,?_⟩
    intro e he _ n hn
    rw [List.mem_singleton.mp he] at hn
    exact (Option.some.inj hn).symm

/-- The entry `Content-Length` is printed, and the length of the body behind it. -/
def twoLengths : HttpRequest :=
  { HttpRequest.setHeader (bytes "Content-Length") (bytes "5") {} with body := bytes "abc" }

theorem dump_ambiguous : ¬ ∀ r : HttpRequest, RequestBreaks r → Framed r.dump r.body := by
  intro h
  have hbreaks : RequestBreaks twoLengths := by
    constructor <;> unfold NoBreak <;> decide
  have hdelimits := (request_framed hbreaks).mp (h twoLengths hbreaks)
  exact absurd hdelimits.oneLength (by decide)

end HttpFraming

end Gudov
