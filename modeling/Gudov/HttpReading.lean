import Gudov.HttpParser

/-!
# Reading a head as a whole

What the tokens of a request head are, apart from any buffer: the machine runs over
the whole head and every token is a stretch of it. Each use of a recorded start is
noted as a span, from the start to the byte on which it is used.

The parser works on one piece of the head at a time. As long as no piece begins
inside a span, it makes of its pieces what the reading makes of the head.
-/
namespace Gudov
open ActionMachine Http11 HttpRequestParser

/-- Why a head is not a request although the machine goes through it. -/
inductive Refusal
  | unknownMethod
  | unknownVersion
  | noQuery
  | noName
  | trailing
deriving Repr, DecidableEq

/-- The recorded positions in the head, the request so far, and the spans. `nameAt` is
the position at which `nameLen` was recorded. -/
structure Reading where
  mark : ℕ := 0
  field : ℕ := 0
  nameLen : ℕ := 0
  nameAt : ℕ := 0
  query : Option ℕ := none
  request : HttpRequest := {}
  spans : List (ℕ × ℕ) := []
deriving Repr, DecidableEq

namespace HttpMethod

theorem startsWith_of_prefix {name m : List UInt8} (h : name <+: m) :
    startsWith name m = .ok true := by
  induction name generalizing m with
  | nil => rfl
  | cons x name ih =>
    obtain ⟨rest,rfl⟩ := h
    simpa [startsWith] using ih (List.prefix_append name rest)

/-- Two names of which neither begins the other are told apart within either. -/
theorem startsWith_of_other {name other m : List UInt8} (h : other <+: m)
    (hname : ¬ name <+: other) (hother : ¬ other <+: name) : startsWith name m = .ok false := by
  induction name generalizing other m with
  | nil => exact absurd (List.nil_prefix) hname
  | cons x name ih =>
    obtain ⟨rest,rfl⟩ := h
    cases other with
    | nil => exact absurd (List.nil_prefix) hother
    | cons y other =>
      simp only [List.cons_append, startsWith]
      split
      next hxy =>
        subst hxy
        refine ih (List.prefix_append other rest) ?_ ?_
        · simpa using hname
        · simpa using hother
      next => rfl

theorem firstMatch_eq {l : List (HttpMethod × List UInt8)} {e : HttpMethod × List UInt8}
    {token m : List UInt8} (hfree : l.Pairwise fun a b => ¬ a.2 <+: b.2 ∧ ¬ b.2 <+: a.2)
    (hfind : l.find? (fun e => e.2.isPrefixOf token) = some e) (htoken : token <+: m) :
    firstMatch l m = .ok e.1 := by
  induction l with
  | nil => cases hfind
  | cons d l ih =>
    obtain ⟨hd,hl⟩ := List.pairwise_cons.mp hfree
    rw [List.find?_cons] at hfind
    split at hfind
    next hpre =>
      cases hfind
      have hmatch := startsWith_of_prefix ((List.isPrefixOf_iff_prefix.mp hpre).trans htoken)
      rw [firstMatch, bind_ok hmatch]
      rfl
    next =>
      have hpre : e.2 <+: token := by
        have := List.find?_some hfind
        exact List.isPrefixOf_iff_prefix.mp this
      obtain ⟨h1,h2⟩ := hd e (List.mem_of_find?_eq_some hfind)
      have hmiss := startsWith_of_other (hpre.trans htoken) h1 h2
      rw [firstMatch, bind_ok hmiss]
      exact ih hl hfind

/-- No name of the table begins another one. -/
theorem table_free : table.Pairwise fun a b => ¬ a.2 <+: b.2 ∧ ¬ b.2 <+: a.2 := by
  decide +kernel

theorem table_valid : ∀ e ∈ table, e.1 ≠ invalidMethod := by decide

end HttpMethod

namespace Reading
variable {head : List UInt8}

def slice (head : List UInt8) (start n : ℕ) : List UInt8 := (head.drop start).take n

/-- The first name of the table with which the token begins. -/
def methodOf (token : List UInt8) : Option HttpMethod :=
  (HttpMethod.table.find? fun e => e.2.isPrefixOf token).map Prod.fst

def use (starts : List ℕ) (pos : ℕ) (r : Reading) : Reading :=
  { r with spans := r.spans ++ starts.map fun s => (s, pos) }

/-- The actions of the machine on the byte at `pos` of the head. -/
def act (head : List UInt8) (a : Action) (pos : ℕ) (r : Reading) : Except Refusal Reading :=
  let token := slice head r.mark (pos - r.mark)
  match a with
  | .mark => .ok { r with mark := pos }
  | .startField => .ok { r with field := pos }
  | .writeField => .ok ({ r with nameLen := pos - r.field, nameAt := pos }.use [r.field] pos)
  | .startValue => .ok { r with mark := pos }
  | .writeValue =>
    if pos < r.field + r.nameLen then .error .noName
    else
      let request := if r.nameLen = 0 then r.request
        else r.request.setHeader (slice head r.field r.nameLen) token
      .ok ({ r with request := request }.use [r.field, r.nameAt, r.mark] pos)
  | .requestMethod =>
    match methodOf token with
    | none => .error .unknownMethod
    | some m => .ok ({ r with request := { r.request with method := m } }.use [r.mark] pos)
  | .requestUri => .ok r
  | .fragment => .ok ({ r with request := { r.request with fragment := token } }.use [r.mark] pos)
  | .startQuery => .ok { r with query := some pos }
  | .queryString =>
    match r.query with
    | none => .error .noQuery
    | some q =>
      let query := slice head q (pos - q)
      .ok ({ r with request := { r.request with query := query } }.use [q] pos)
  | .httpVersion =>
    match versionOf token with
    | none => .error .unknownVersion
    | some v => .ok ({ r with request := { r.request with version := v } }.use [r.mark] pos)
  | .requestPath => .ok ({ r with request := { r.request with path := token } }.use [r.mark] pos)
  | .done => if pos + 1 = head.length then .ok r else .error .trailing
  | .xml => .ok r
  | .json => .ok r

/-- The reading of the whole head, if the machine is final after its last byte. -/
def readingOf (relaxed : Bool) (head : List UInt8) : Option Reading :=
  match exec (act head) breaks (start (Http11.main relaxed)) head 0 {} with
  | .ok (t, n, r) => if t.isFinal ∧ n = head.length then some r else none
  | .error _ => none

theorem readingOf_spec {relaxed : Bool} {r : Reading} (h : readingOf relaxed head = some r) :
    ∃ t : State Action, t.isFinal = true ∧
      exec (act head) breaks (start (Http11.main relaxed)) head 0 {} = .ok (t, head.length, r) := by
  unfold readingOf at h
  split at h
  next t n r' hexec =>
    split at h
    next hend =>
      cases h
      exact ⟨t,hend.1,by rw [hexec, hend.2]⟩
    next => cases h
  next => cases h

/-- No cut falls inside a span. -/
def Uncut (cuts : List ℕ) (r : Reading) : Prop :=
  ∀ span ∈ r.spans, ∀ k ∈ cuts, ¬ (span.1 < k ∧ k ≤ span.2)

instance (cuts : List ℕ) (r : Reading) : Decidable (Uncut cuts r) :=
  inferInstanceAs (Decidable (∀ span ∈ r.spans, ∀ k ∈ cuts, ¬ _))

/-- A recorded position: 0 at first, later that of an earlier byte. -/
def Before (limit x : ℕ) : Prop := x < limit ∨ x = 0

theorem Before.mono {m n x : ℕ} (h : Before m x) (hmn : m ≤ n) : Before n x := by
  rcases h with h | h
  · exact .inl (Nat.lt_of_lt_of_le h hmn)
  · exact .inr h

theorem Before.le {n x : ℕ} (h : Before (n + 1) x) : x ≤ n := by
  rcases h with h | h <;> omega

/-- The parser at position `p` of a piece that begins at byte `b` of the head, and the
reading there. An offset of the parser is right if it was recorded in this piece. -/
structure Agrees (head : List UInt8) (cs : State Action) (b size p : ℕ) (h : HttpRequestParser)
    (r : Reading) : Prop where
  cs_eq : h.parser.cs = cs
  nread_eq : h.parser.nread = 0
  data_eq : h.data = r.request
  error_eq : h.error = 0
  mark_before : Before (b + p) r.mark
  field_before : Before (b + p) r.field
  nameAt_before : Before (b + p) r.nameAt
  query_before : ∀ q, r.query = some q → q < b + p
  mark_eq : b ≤ r.mark → h.parser.mark + b = r.mark
  field_eq : b ≤ r.field → h.parser.fieldStart + b = r.field
  nameLen_eq : b ≤ r.nameAt → h.parser.fieldLen = r.nameLen
  query_eq : ∀ q, r.query = some q → b ≤ q → h.parser.queryStart = some (q - b)
  mark_inside : Before p h.parser.mark
  field_inside : Before p h.parser.fieldStart
  fieldLen_le : h.parser.fieldLen ≤ size
  bodyStart_le : h.parser.bodyStart ≤ size
  bodyStart_eq : h.parser.bodyStart = 0 ∨ head.length ≤ b + p

theorem Agrees.mono {cs : State Action} {b size p : ℕ} {h : HttpRequestParser} {r : Reading}
    (ha : Agrees head cs b size p h r) : Agrees head cs b size (p + 1) h r :=
  { ha with
    mark_before := ha.mark_before.mono (by omega)
    field_before := ha.field_before.mono (by omega)
    nameAt_before := ha.nameAt_before.mono (by omega)
    query_before := fun q hq => Nat.lt_succ_of_lt (ha.query_before q hq)
    mark_inside := ha.mark_inside.mono (by omega)
    field_inside := ha.field_inside.mono (by omega)
    bodyStart_eq := ha.bodyStart_eq.imp id (by omega) }

/-- A callback sets the request, and the reading notes the use. -/
theorem Agrees.tell {cs : State Action} {b size p : ℕ} {h : HttpRequestParser} {r : Reading}
    (ha : Agrees head cs b size p h r) (request : HttpRequest) (starts : List ℕ) (pos : ℕ) :
    Agrees head cs b size p (h.setData request) ({ r with request := request }.use starts pos) :=
  { ha with data_eq := rfl }

/-- What is used at `b + p` was recorded in the piece that begins at `b`. -/
theorem Uncut.start_le {cuts : List ℕ} {r : Reading} {b p s : ℕ} {starts : List ℕ}
    (h : Uncut cuts (r.use starts (b + p))) (hb : b = 0 ∨ b ∈ cuts) (hs : s ∈ starts) :
    b ≤ s := by
  rcases hb with rfl | hb
  · exact Nat.zero_le s
  · have hspan : (s, b + p) ∈ (r.use starts (b + p)).spans := by simp [use, hs]
    by_contra hcon
    exact h _ hspan b hb ⟨Nat.lt_of_not_le hcon,Nat.le_add_right b p⟩

/-- Spans are only added. -/
theorem act_uncut {cuts : List ℕ} {a : Action} {pos : ℕ} {r r' : Reading}
    (h : act head a pos r = .ok r') (hr : Uncut cuts r') : Uncut cuts r := by
  have hsub : ∀ span ∈ r.spans, span ∈ r'.spans := by
    intro span hspan
    cases a <;> simp only [act] at h <;> (try split at h) <;> cases h <;> simp [use, hspan]
  exact fun span hspan => hr span (hsub span hspan)

section Piece
variable {cs : State Action} {cuts : List ℕ} {w : List UInt8} {b L p : ℕ}
  {h : HttpRequestParser}

/-- The first `L` bytes of the piece are those of the head from byte `b` on. -/
def Carries (head w : List UInt8) (b L : ℕ) : Prop :=
  L ≤ w.length ∧ (head.drop b).take L = w.take L

theorem Carries.slice_eq (hw : Carries head w b L) {m n : ℕ} (h : m + n ≤ L) :
    slice head (m + b) n = slice w m n := by
  have hcut : ∀ l : List UInt8, (l.drop m).take n = ((l.take L).drop m).take n := by
    intro l
    rw [List.drop_take, List.take_take, Nat.min_eq_left (by omega)]
  unfold slice
  rw [Nat.add_comm, ← List.drop_drop, hcut (head.drop b), hw.2, ← hcut]

/-- A token that begins in the piece. -/
theorem Carries.text_eq (hw : Carries head w b L) (hsize : w.length < 2 ^ 62) (hp : p < L)
    {m start : ℕ} (hm : m + b = start) (hstart : start ≤ b + p) :
    text w m (len m p) = .ok (slice head start (b + p - start)) ∧
      slice head start (b + p - start) = (w.drop m).take (len m p) := by
  have hmp : m ≤ p := by omega
  have hlen : len m p = p - m := by simp [len, hmp]
  have hn : b + p - start = p - m := by omega
  have hslice : slice head start (p - m) = slice w m (p - m) := by
    rw [← hm]
    exact hw.slice_eq (by omega)
  have hle := hw.1
  rw [hlen, hn, hslice]
  refine ⟨?_,rfl⟩
  rw [text, if_neg (by omega), if_neg (by omega)]
  rfl

theorem onRequestMethod_eq {start : ℕ} {token : List UInt8} {m : HttpMethod}
    (hm : methodOf token = some m) (htoken : token <+: w.drop start) :
    onRequestMethod w start h = .ok (h.setData { h.data with method := m }) := by
  obtain ⟨e,hfind,rfl⟩ := Option.map_eq_some_iff.mp hm
  have hvalid : e.1 ≠ .invalidMethod :=
    HttpMethod.table_valid e (List.mem_of_find?_eq_some hfind)
  simp only [onRequestMethod, HttpMethod.charsToHttpMethod,
    HttpMethod.firstMatch_eq HttpMethod.table_free hfind htoken, hvalid, if_false]

/-- The parser does the action on the byte at `p` as the reading does it. -/
def Follows (head w : List UInt8) (cs : State Action) (cuts : List ℕ) (b p : ℕ) (a : Action) :
    Prop :=
  ∀ h r r', Agrees head cs b w.length (p + 1) h r → Reading.act head a (b + p) r = .ok r' →
    Uncut cuts r' →
      ∃ h', HttpRequestParser.act w a p h = .ok h' ∧ Agrees head cs b w.length (p + 1) h' r'

/-- A start is recorded. -/
theorem start_follows {a : Action}
    (ha : a = .mark ∨ a = .startValue ∨ a = .startField ∨ a = .startQuery) :
    Follows head w cs cuts b p a := by
  intro h r r' hag hr _
  have hnow : b + p < b + (p + 1) := by omega
  rcases ha with rfl | rfl | rfl | rfl <;> cases hr
  · exact ⟨_,rfl,{ hag with
      mark_before := .inl hnow
      mark_eq := fun _ => Nat.add_comm p b
      mark_inside := .inl (Nat.lt_succ_self p) }⟩
  · exact ⟨_,rfl,{ hag with
      mark_before := .inl hnow
      mark_eq := fun _ => Nat.add_comm p b
      mark_inside := .inl (Nat.lt_succ_self p) }⟩
  · exact ⟨_,rfl,{ hag with
      field_before := .inl hnow
      field_eq := fun _ => Nat.add_comm p b
      field_inside := .inl (Nat.lt_succ_self p) }⟩
  · refine ⟨_,rfl,{ hag with
      query_before := ?_
      query_eq := ?_ }⟩
    · rintro q ⟨⟩
      exact hnow
    · rintro q ⟨⟩ _
      exact congrArg some (by omega)

theorem writeField_follows (hw : Carries head w b L) (hb : b = 0 ∨ b ∈ cuts) (hp : p < L) :
    Follows head w cs cuts b p .writeField := by
  intro h r r' hag hr hcut
  cases hr
  have hle := hw.1
  have hfield := hag.field_eq (hcut.start_le hb (by simp))
  have hfp := hag.field_inside.le
  have hlen : len h.parser.fieldStart p = b + p - r.field := by
    rw [len, if_pos hfp]
    omega
  refine ⟨_,rfl,{ hag with
    nameAt_before := .inl (by dsimp only [use]; omega)
    nameLen_eq := fun _ => hlen
    fieldLen_le := ?_ }⟩
  change len h.parser.fieldStart p ≤ w.length
  omega

theorem writeValue_follows (hw : Carries head w b L) (hsize : w.length < 2 ^ 62)
    (hb : b = 0 ∨ b ∈ cuts) (hp : p < L) : Follows head w cs cuts b p .writeValue := by
  intro h r r' hag hr hcut
  simp only [Reading.act] at hr
  split at hr
  next => cases hr
  next hname =>
    cases hr
    have hle := hw.1
    have hfield := hag.field_eq (hcut.start_le hb (by simp))
    have hnameLen := hag.nameLen_eq (hcut.start_le hb (by simp))
    have hval := (hw.text_eq hsize hp (hag.mark_eq (hcut.start_le hb (by simp)))
      hag.mark_before.le).1
    have hkey : text w h.parser.fieldStart h.parser.fieldLen =
        .ok (slice head r.field r.nameLen) := by
      rw [text, hnameLen, if_neg (by omega), if_neg (by omega), ← hfield,
        hw.slice_eq (by omega)]
      rfl
    simp only [HttpRequestParser.act, onRequestHttpField, hkey, hval, bind, Except.bind]
    rw [hnameLen]
    split
    next hzero => exact ⟨h,rfl,{ hag with }⟩
    next hzero =>
      rw [hag.data_eq]
      exact ⟨_,rfl,hag.tell _ _ _⟩

/-- A token from `mark` on is handed over. -/
theorem token_follows {a : Action} (hw : Carries head w b L) (hsize : w.length < 2 ^ 62)
    (hb : b = 0 ∨ b ∈ cuts) (hp : p < L)
    (ha : a = .requestMethod ∨ a = .requestPath ∨ a = .fragment ∨ a = .httpVersion) :
    Follows head w cs cuts b p a := by
  intro h r r' hag hr hcut
  have htoken := fun hstart : b ≤ r.mark =>
    hw.text_eq hsize hp (hag.mark_eq hstart) hag.mark_before.le
  rcases ha with rfl | rfl | rfl | rfl
  · simp only [Reading.act] at hr
    split at hr
    next => cases hr
    next m hm =>
      cases hr
      have htok := (htoken (hcut.start_le hb (by simp))).2
      refine ⟨_,?_,hag.tell _ _ _⟩
      rw [← hag.data_eq]
      refine onRequestMethod_eq hm ?_
      rw [htok]
      exact List.take_prefix _ _
  · cases hr
    have htext := (htoken (hcut.start_le hb (by simp))).1
    refine ⟨_,?_,hag.tell _ _ _⟩
    simp only [HttpRequestParser.act, onRequestPath, htext, hag.data_eq, bind, Except.bind]
  · cases hr
    have htext := (htoken (hcut.start_le hb (by simp))).1
    refine ⟨_,?_,hag.tell _ _ _⟩
    simp only [HttpRequestParser.act, onRequestFragment, htext, hag.data_eq, bind, Except.bind]
  · simp only [Reading.act] at hr
    split at hr
    next => cases hr
    next v hv =>
      cases hr
      have htok := (htoken (hcut.start_le hb (by simp))).2
      rw [htok] at hv
      refine ⟨_,?_,hag.tell _ _ _⟩
      simp only [HttpRequestParser.act, onRequestVersion, hv, hag.data_eq]

theorem queryString_follows (hw : Carries head w b L) (hsize : w.length < 2 ^ 62)
    (hb : b = 0 ∨ b ∈ cuts) (hp : p < L) : Follows head w cs cuts b p .queryString := by
  intro h r r' hag hr hcut
  simp only [Reading.act] at hr
  split at hr
  next => cases hr
  next q hq =>
    cases hr
    have hstart : b ≤ q := hcut.start_le hb (by simp)
    have hquery := hag.query_eq q hq hstart
    have htext := (hw.text_eq (m := q - b) hsize hp (Nat.sub_add_cancel hstart)
      (Nat.le_of_lt_succ (hag.query_before q hq))).1
    refine ⟨_,?_,hag.tell _ _ _⟩
    simp only [HttpRequestParser.act, hquery, onRequestQuery, htext, hag.data_eq, bind,
      Except.bind]

theorem done_follows (hw : Carries head w b L) (hp : p < L) :
    Follows head w cs cuts b p .done := by
  intro h r r' hag hr _
  have hle := hw.1
  have hmark := hag.mark_inside.le
  simp only [Reading.act] at hr
  split at hr
  next hend =>
    cases hr
    have hlast : head.length ≤ b + (p + 1) := by omega
    simp only [HttpRequestParser.act]
    split
    next => exact ⟨_,rfl,{ hag with
      bodyStart_le := by dsimp only [setParser]; omega
      bodyStart_eq := .inr hlast }⟩
    next => exact ⟨_,rfl,{ hag with
      bodyStart_le := by dsimp only [setParser]; omega
      bodyStart_eq := .inr hlast }⟩
  next => cases hr

/-- Every action on a byte of the piece. -/
theorem act_follows (hw : Carries head w b L) (hsize : w.length < 2 ^ 62)
    (hb : b = 0 ∨ b ∈ cuts) (hp : p < L) (a : Action) : Follows head w cs cuts b p a := by
  cases a with
  | mark => exact start_follows (by simp)
  | startField => exact start_follows (by simp)
  | writeField => exact writeField_follows hw hb hp
  | startValue => exact start_follows (by simp)
  | writeValue => exact writeValue_follows hw hsize hb hp
  | requestMethod => exact token_follows hw hsize hb hp (by simp)
  | requestUri =>
    intro h r r' hag hr _
    cases hr
    exact ⟨h,rfl,hag⟩
  | fragment => exact token_follows hw hsize hb hp (by simp)
  | startQuery => exact start_follows (by simp)
  | queryString => exact queryString_follows hw hsize hb hp
  | httpVersion => exact token_follows hw hsize hb hp (by simp)
  | requestPath => exact token_follows hw hsize hb hp (by simp)
  | done => exact done_follows hw hp
  | xml =>
    intro h r r' hag hr _
    cases hr
    exact ⟨_,rfl,{ hag with }⟩
  | json =>
    intro h r r' hag hr _
    cases hr
    exact ⟨_,rfl,{ hag with }⟩

end Piece

end Reading

end Gudov
