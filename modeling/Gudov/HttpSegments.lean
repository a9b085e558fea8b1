import Gudov.HttpBody
import Gudov.HttpReading
import Gudov.HttpSession

/-!
# Requests cut into pieces

A request reaches `RecvRequest` in the pieces that the reads return. The parser keeps
its state from one piece to the next but forgets, at each of them, the starts of
tokens. If no piece begins inside a span of the reading, nothing that was forgotten is
used, and the request returned is that of the reading, whatever the pieces are.
-/
namespace Gudov
open ActionMachine Http11 HttpRequestParser Reading

/-- The parser before the piece that begins at byte `b` of the head. -/
structure Resumes (head : List UInt8) (b : ℕ) (h : HttpRequestParser) (r : Reading) : Prop where
  data_eq : h.data = r.request
  error_eq : h.error = 0
  bodyStart_eq : h.parser.bodyStart = 0
  mark_before : Before b r.mark
  field_before : Before b r.field
  nameAt_before : Before b r.nameAt
  query_before : ∀ q, r.query = some q → q < b
  nameLen_eq : b = 0 → r.nameLen = 0

section Piece
variable {head w : List UInt8} {b L p size : ℕ} {cs t : State Action} {cuts : List ℕ}
  {h h' : HttpRequestParser} {r r' : Reading}

theorem new_resumes (relaxed : Bool) : Resumes head 0 (HttpRequestParser.new relaxed) {} where
  data_eq := rfl
  error_eq := rfl
  bodyStart_eq := rfl
  mark_before := .inr rfl
  field_before := .inr rfl
  nameAt_before := .inr rfl
  query_before := by simp
  nameLen_eq := fun _ => rfl

/-- At the start of a call nothing is recorded in the piece. -/
theorem Resumes.agrees (hr : Resumes head b h r) :
    Agrees head h.parser.cs b size 0 (h.setParser (reset h.parser)) r where
  cs_eq := rfl
  nread_eq := rfl
  data_eq := hr.data_eq
  error_eq := hr.error_eq
  mark_before := hr.mark_before
  field_before := hr.field_before
  nameAt_before := hr.nameAt_before
  query_before := hr.query_before
  mark_eq hle := by
    rcases hr.mark_before with hlt | hzero
    · omega
    · change 0 + b = r.mark
      omega
  field_eq hle := by
    rcases hr.field_before with hlt | hzero
    · omega
    · change 0 + b = r.field
      omega
  nameLen_eq hle := by
    rcases hr.nameAt_before with hlt | hzero
    · omega
    · exact (hr.nameLen_eq (by omega)).symm
  query_eq q hq hle := by
    have hlt := hr.query_before q hq
    omega
  mark_inside := .inr rfl
  field_inside := .inr rfl
  fieldLen_le := Nat.zero_le _
  bodyStart_le := by
    change h.parser.bodyStart ≤ size
    rw [hr.bodyStart_eq]
    exact Nat.zero_le _
  bodyStart_eq := .inl hr.bodyStart_eq

/-- The parser after a piece inside the head. -/
theorem agrees_resumes (ha : Agrees head cs b size p h r)
    (hend : b + p < head.length) (hp : 0 < p) (q : HttpParser)
    (hq : q.bodyStart = h.parser.bodyStart) : Resumes head (b + p) (h.setParser q) r where
  data_eq := ha.data_eq
  error_eq := ha.error_eq
  bodyStart_eq := by
    change q.bodyStart = 0
    rcases ha.bodyStart_eq with hzero | hlast
    · rw [hq, hzero]
    · omega
  mark_before := ha.mark_before
  field_before := ha.field_before
  nameAt_before := ha.nameAt_before
  query_before := ha.query_before
  nameLen_eq hzero := by omega

/-- The machine over the bytes of the head in a piece, with the offsets of the parser. -/
theorem exec_agrees {q : ℕ} (hw : Carries head w b L) (hsize : w.length < 2 ^ 62)
    (hb : b = 0 ∨ b ∈ cuts) (hr : Resumes head b h r)
    (hexec : exec (Reading.act head) breaks h.parser.cs (w.take L) b r = .ok (t, b + q, r'))
    (hcut : Uncut cuts r') :
    ∃ h', exec (HttpRequestParser.act w) breaks h.parser.cs (w.take L) 0
        (h.setParser (reset h.parser)) = .ok (t, q, h') ∧
      Agrees head h.parser.cs b w.length q h' r' := by
  have hlen : 0 + (w.take L).length ≤ L := by simp [hw.1]
  have hact : ∀ a p x y y', p < L → Agrees head h.parser.cs b w.length (p + 1) x y →
      Reading.act head a (b + p) y = .ok y' → Uncut cuts y' →
      ∃ x', HttpRequestParser.act w a p x = .ok x' ∧
        Agrees head h.parser.cs b w.length (p + 1) x' y' :=
    fun a _ x y y' hp ha hact hfine => act_follows hw hsize hb hp a x y y' ha hact hfine
  have hback : ∀ a p y y', Reading.act head a p y = .ok y' → Uncut cuts y' → Uncut cuts y :=
    fun _ _ _ _ hact hfine => act_uncut hact hfine
  exact exec_simulates hact hback (fun _ _ _ ha => ha.mono) hlen hr.agrees hexec hcut

/-- The assertions at the end of a call hold. -/
theorem httpParserExecute_eq {q : ℕ} (hne : w ≠ []) (hcs : h.parser.cs ≠ [])
    (hsize : w.length < 2 ^ 31)
    (hexec : exec (HttpRequestParser.act w) breaks h.parser.cs w 0
      (h.setParser (reset h.parser)) = .ok (t, q, h'))
    (ha : Agrees head h.parser.cs b w.length q h' r) (hq : q ≤ w.length) :
    httpParserExecute w h =
      .ok (q, h'.setParser { h'.parser with cs := t, nread := q }) := by
  have hpos : 0 < w.length := List.length_pos_iff.mpr hne
  have hmark : h'.parser.mark < w.length := by
    rcases ha.mark_inside with hlt | hzero <;> omega
  have hfield : h'.parser.fieldStart < w.length := by
    rcases ha.field_inside with hlt | hzero <;> omega
  have hinside : inside w.length { h'.parser with cs := t, nread := q } = true := by
    simp [inside, hq, hmark, hfield, ha.fieldLen_le, ha.bodyStart_le]
  have hreset : (h.setParser (reset h.parser)).parser.cs = h.parser.cs := rfl
  have hint : isInt w.length = true := decide_eq_true hsize
  simp only [httpParserExecute, List.isEmpty_iff, hne, if_false, hint,
    Bool.not_true, Bool.false_eq_true, hreset, hexec, bind, Except.bind, ha.cs_eq, hcs, ha.nread_eq,
    Nat.zero_add]
  simp only [setParser, hinside, if_true]

/-- A piece inside the head is consumed. -/
theorem execute_inner (hne : w ≠ []) (hcs : h.parser.cs ≠ []) (hsize : w.length < 2 ^ 31)
    (hb : b = 0 ∨ b ∈ cuts) {v : List UInt8} (hv : head.drop b = w ++ v) (hvne : v ≠ [])
    (hr : Resumes head b h r)
    (hexec : exec (Reading.act head) breaks h.parser.cs w b r = .ok (t, b + w.length, r'))
    (hcut : Uncut cuts r') :
    ∃ h', h.execute w = .ok ([], h') ∧ h'.parser.cs = t ∧ Resumes head (b + w.length) h' r' := by
  have hw : Carries head w b w.length := by
    refine ⟨Nat.le_refl _,?_⟩
    rw [hv]
    simp
  have hexec' : exec (Reading.act head) breaks h.parser.cs (w.take w.length) b r =
      .ok (t, b + w.length, r') := by
    rw [List.take_length]
    exact hexec
  obtain ⟨h1,hrun,ha⟩ := exec_agrees hw (by omega) hb hr hexec' hcut
  rw [List.take_length] at hrun
  have hcall := httpParserExecute_eq hne hcs hsize hrun ha (Nat.le_refl _)
  have hend : b + w.length < head.length := by
    have hlen := congrArg List.length hv
    have hvpos : 0 < v.length := List.length_pos_iff.mpr hvne
    simp only [List.length_drop, List.length_append] at hlen
    omega
  refine ⟨h1.setParser { h1.parser with cs := t, nread := w.length },?_,rfl,
    agrees_resumes ha hend (List.length_pos_iff.mpr hne) _ rfl⟩
  simp only [HttpRequestParser.execute, hcall, bind, Except.bind, List.drop_length]

/-- The piece in which the head ends leaves the bytes after it. -/
theorem execute_last {hp bp : List UInt8} (hne : hp ≠ []) (hcs : h.parser.cs ≠ [])
    (hsize : (hp ++ bp).length < 2 ^ 31) (hb : b = 0 ∨ b ∈ cuts) (hhp : head.drop b = hp)
    (hr : Resumes head b h r) (hfin : h.parser.cs.FinishedBy .done)
    (hexec : exec (Reading.act head) breaks h.parser.cs hp b r = .ok (t, b + hp.length, r'))
    (ht : t.isFinal = true) (hcut : Uncut cuts r') :
    ∃ h', h.execute (hp ++ bp) = .ok (bp, h') ∧ h'.parser.cs = t ∧ h'.data = r'.request ∧
      h'.error = 0 := by
  have hw : Carries head (hp ++ bp) b hp.length := by
    refine ⟨by simp,?_⟩
    rw [hhp]
    simp
  have hexec' : exec (Reading.act head) breaks h.parser.cs ((hp ++ bp).take hp.length) b r =
      .ok (t, b + hp.length, r') := by
    rw [List.take_left]
    exact hexec
  obtain ⟨h1,hrun,ha⟩ := exec_agrees hw (by omega) hb hr hexec' hcut
  rw [List.take_left] at hrun
  have hrun' : exec (HttpRequestParser.act (hp ++ bp)) breaks h.parser.cs hp 0
      (h.setParser (reset h.parser)) = .ok (t, 0 + hp.length, h1) := by
    rw [Nat.zero_add]
    exact hrun
  have hall := exec_append_final bp hfin rfl hne hrun' ht
  rw [Nat.zero_add] at hall
  have hcall := httpParserExecute_eq (by simp [hne]) hcs hsize hall ha (by simp)
  refine ⟨h1.setParser { h1.parser with cs := t, nread := hp.length },?_,rfl,ha.data_eq,
    ha.error_eq⟩
  simp only [HttpRequestParser.execute, hcall, bind, Except.bind, List.drop_left]

end Piece

namespace HttpSession

/-- The positions at which the pieces from byte `b` on end. -/
def cuts : ℕ → List (List UInt8) → List ℕ
  | _, [] => []
  | b, w :: ws => (b + w.length) :: cuts (b + w.length) ws

/-- The number of bytes in the pieces behind the one that completes the first `left` bytes. -/
def behind : ℕ → List (List UInt8) → ℕ
  | _, [] => 0
  | left, w :: ws => if w.length < left then behind (left - w.length) ws else ws.flatten.length

/-- A piece that begins before the end of the head was returned by a read into the
buffer; `left` is what is left of the head. -/
def Fits (size : ℕ) : ℕ → List (List UInt8) → Prop
  | _, [] => True
  | left, w :: ws => (0 < left → w.length ≤ size) ∧ Fits size (left - w.length) ws

instance (size : ℕ) : ∀ left pieces, Decidable (Fits size left pieces)
  | _, [] => isTrue trivial
  | left, w :: ws =>
    have : Decidable (Fits size (left - w.length) ws) := instDecidableFits size _ ws
    inferInstanceAs (Decidable (_ ∧ _))

section Head
variable {cfg : HttpConfig} {head body : List UInt8} {b fuel : ℕ} {t : State Action}
  {allCuts : List ℕ} {h : HttpRequestParser} {r r' : Reading} {s : HttpSession}

theorem read_piece {w : List UInt8} {ws : List (List UInt8)} {n : ℕ} (hs : s.isConnected = true)
    (hin : s.incoming = w :: ws) (hw : w.length ≤ n) :
    s.read n = (w, { s with incoming := ws }) := by
  simp [read, hs, hin, hw, List.take_of_length_le]

/-- A piece that ends before the head does. -/
theorem piece_inner {u w rest body : List UInt8} (h : w ++ rest = u ++ body)
    (hlt : w.length < u.length) : ∃ v, u = w ++ v ∧ v ≠ [] ∧ rest = v ++ body := by
  rcases List.append_eq_append_iff.mp h with ⟨v,rfl,hrest⟩ | ⟨v,rfl,_⟩
  · refine ⟨v,rfl,?_,hrest⟩
    rintro rfl
    simp at hlt
  · rw [List.length_append] at hlt
    omega

/-- A piece that brings the end of the head. -/
theorem piece_last {u w rest body : List UInt8} (h : w ++ rest = u ++ body)
    (hle : u.length ≤ w.length) : ∃ v, w = u ++ v ∧ body = v ++ rest := by
  rcases List.append_eq_append_iff.mp h with ⟨v,rfl,hrest⟩ | ⟨v,rfl,hbody⟩
  · rw [List.length_append] at hle
    obtain rfl : v = [] := List.length_eq_zero_iff.mp (by omega)
    exact ⟨[],by simp,by simpa using hrest.symm⟩
  · exact ⟨v,rfl,hbody⟩

/-- One turn of the loop whose piece the parser consumes without an error. -/
theorem recvHead_turn (fuel : ℕ) {w data : List UInt8} {ws : List (List UInt8)}
    {h' : HttpRequestParser}
    (hs : s.isConnected = true) (hin : s.incoming = w :: ws) (hwne : w ≠ [])
    (hw : w.length ≤ cfg.bufferSize) (hcall : h.execute w = .ok (data, h'))
    (herror : h'.error = 0) (hcs : h'.parser.cs ≠ []) (hdata : data.length < cfg.bufferSize) :
    recvHead cfg (fuel + 1) [] h s =
      if h'.isFinished then .ok (some (data, h'), { s with incoming := ws })
      else recvHead cfg fuel data h' { s with incoming := ws } := by
  have hread : s.read (cfg.bufferSize - ([] : List UInt8).length) =
      (w, { s with incoming := ws }) := read_piece hs hin (by simpa using hw)
  have hempty : w.isEmpty = false := by simpa using hwne
  have hok : h'.hasError = false := by simp [hasError, herror, hcs]
  have hroom : ¬ data.length = cfg.bufferSize := by omega
  rw [recvHead]
  simp only [hread, hempty, List.nil_append, Bool.false_eq_true, if_false, hcall, hok, hroom, bind,
    Except.bind]

/-- The loop over the head returns what the reading of the rest of it returns. -/
theorem recvHead_spec {pieces : List (List UInt8)} (hfuel : pieces.length < fuel)
    (hs : s.isConnected = true) (hin : s.incoming = pieces)
    (hflat : pieces.flatten = head.drop b ++ body) (hlt : b < head.length)
    (hne : ∀ w ∈ pieces, w ≠ []) (hfits : Fits cfg.bufferSize (head.length - b) pieces)
    (hb : b = 0 ∨ b ∈ allCuts) (hcuts : ∀ k ∈ cuts b pieces, k ∈ allCuts)
    (hr : Resumes head b h r) (hcs : h.parser.cs ≠ []) (hfin : h.parser.cs.FinishedBy .done)
    (hexec : exec (Reading.act head) breaks h.parser.cs (head.drop b) b r =
      .ok (t, head.length, r'))
    (ht : t.isFinal = true) (hcut : Uncut allCuts r') :
    ∃ data h' rest, recvHead cfg fuel [] h s = .ok (some (data, h'), { s with incoming := rest }) ∧
      h'.data = r'.request ∧ data ++ rest.flatten = body ∧ (∀ w ∈ rest, w ≠ []) ∧
      rest.flatten.length = behind (head.length - b) pieces := by
  induction pieces generalizing fuel b h r s with
  | nil =>
    have hlen := congrArg List.length hflat
    simp only [List.flatten_nil, List.length_nil, List.length_append, List.length_drop] at hlen
    omega
  | cons w ws ih =>
    obtain ⟨fuel,rfl⟩ : ∃ n, fuel = n + 1 := ⟨fuel - 1,by omega⟩
    have hwne : w ≠ [] := hne w (by simp)
    have hwsize : w.length ≤ cfg.bufferSize := hfits.1 (by omega)
    have hlong : w.length < 2 ^ 31 := by
      have hsize := cfg.bufferSize_lt
      omega
    have hdrop : (head.drop b).length = head.length - b := List.length_drop
    rcases Nat.lt_or_ge w.length (head.length - b) with hinner | hlast
    · obtain ⟨v,hv,hvne,hws⟩ := piece_inner hflat (by rw [hdrop]; exact hinner)
      have hv' : head.drop (b + w.length) = v := by
        rw [← List.drop_drop, hv, List.drop_left]
      rw [hv] at hexec
      obtain ⟨t1,r1,hrun,hfin1,hne1,hnf1,hrest⟩ := exec_split hfin rfl hexec (by omega)
      have hcut1 : Uncut allCuts r1 :=
        exec_back (fun _ _ _ _ hact hfine => act_uncut hact hfine) hrest hcut
      obtain ⟨h1,hcall,hcs1,hr1⟩ := execute_inner hwne hcs hlong hb hv hvne hr hrun hcut1
      have hturn := recvHead_turn fuel hs hin hwne hwsize hcall hr1.error_eq
        (by rw [hcs1]; exact hne1) (by simpa using cfg.bufferSize_pos)
      have hnot : h1.isFinished = false := by
        rw [isFinished, hcs1]
        exact hnf1 hwne
      rw [hturn, hnot]
      have hb1 : b + w.length = 0 ∨ b + w.length ∈ allCuts :=
        .inr (hcuts _ (by simp [cuts]))
      have hfits1 : Fits cfg.bufferSize (head.length - (b + w.length)) ws := by
        rw [← Nat.sub_sub]
        exact hfits.2
      rw [behind, if_pos hinner, Nat.sub_sub]
      exact ih (by simp only [List.length_cons] at hfuel; omega) hs rfl (by rw [hv', hws])
        (by omega) (fun x hx => hne x (by simp [hx])) hfits1 hb1
        (fun k hk => hcuts k (by simp [cuts, hk])) hr1 (by rw [hcs1]; exact hne1)
        (by rw [hcs1]; exact hfin1) (by rw [hcs1, hv']; exact hrest)
    · obtain ⟨bp,rfl,hbody⟩ := piece_last hflat (by rw [hdrop]; exact hlast)
      have hpne : head.drop b ≠ [] := by
        intro hnil
        rw [hnil] at hdrop
        simp only [List.length_nil] at hdrop
        omega
      have hend : b + (head.drop b).length = head.length := by omega
      obtain ⟨h1,hcall,hcs1,hdata,herror⟩ := execute_last hpne hcs hlong hb rfl hr hfin
        (by rw [hend]; exact hexec) ht hcut
      have htne : t ≠ [] := by
        rintro rfl
        cases ht
      have hroom : bp.length < cfg.bufferSize := by
        rw [List.length_append] at hwsize
        omega
      have hturn := recvHead_turn fuel hs hin hwne hwsize hcall herror (by rw [hcs1]; exact htne)
        hroom
      have hdone : h1.isFinished = true := by
        rw [isFinished, hcs1]
        exact ht
      rw [hdone] at hturn
      rw [behind, if_neg (not_lt.mpr hlast)]
      exact ⟨bp,h1,ws,hturn,hdata,hbody.symm,fun x hx => hne x (by simp [hx]),rfl⟩

end Head

section Body
variable {s : HttpSession}

/-- A read of at least one byte takes the next bytes of the stream. -/
theorem read_spec {n : ℕ} (hs : s.isConnected = true) (hne : ∀ w ∈ s.incoming, w ≠ [])
    (hn : 0 < n) (hin : s.incoming ≠ []) :
    ∃ piece rest, s.read n = (piece, { s with incoming := rest }) ∧ piece ≠ [] ∧
      piece ++ rest.flatten = s.incoming.flatten ∧ ∀ w ∈ rest, w ≠ [] := by
  obtain ⟨w,ws,hcons⟩ := List.exists_cons_of_ne_nil hin
  have hwne : w ≠ [] := hne w (by simp [hcons])
  have hws : ∀ x ∈ ws, x ≠ [] := fun x hx => hne x (by simp [hcons, hx])
  have htake : w.take n ≠ [] := by
    simp only [ne_eq, List.take_eq_nil_iff, hwne, or_false]
    omega
  refine ⟨w.take n,if w.length ≤ n then ws else w.drop n :: ws,?_,htake,?_,?_⟩
  · simp only [read, hs, hcons]
  · rw [hcons]
    split
    next hle => simp [List.take_of_length_le hle]
    next hgt => simp [← List.append_assoc]
  · intro x hx
    split at hx
    next => exact hws x hx
    next hgt =>
      rcases List.mem_cons.mp hx with rfl | hx
      · simpa using hgt
      · exact hws x hx

/-- With exactly `left` bytes to come, all of them are read. -/
theorem readFixSize_spec {maxLen fuel : ℕ} (left : ℕ) (hmax : 0 < maxLen) (hfuel : left ≤ fuel)
    (hs : s.isConnected = true) (hne : ∀ w ∈ s.incoming, w ≠ [])
    (hleft : s.incoming.flatten.length = left) :
    ∃ t, readFixSize maxLen fuel left s = .ok (some s.incoming.flatten, t) := by
  induction fuel generalizing left s with
  | zero =>
    obtain rfl : left = 0 := by omega
    exact ⟨s,by rw [List.length_eq_zero_iff.mp hleft]; rfl⟩
  | succ fuel ih =>
    cases left with
    | zero => exact ⟨s,by rw [List.length_eq_zero_iff.mp hleft]; rfl⟩
    | succ left =>
      have hin : s.incoming ≠ [] := by
        rintro hnil
        simp [hnil] at hleft
      obtain ⟨piece,rest,hread,hpne,hflat,hrest⟩ := read_spec (n := min (left + 1) maxLen) hs hne
        (by omega) hin
      have hlen : piece.length + rest.flatten.length = left + 1 := by
        rw [← List.length_append, hflat, hleft]
      have hpos : 0 < piece.length := List.length_pos_iff.mpr hpne
      obtain ⟨t,ht⟩ := ih (s := { s with incoming := rest }) (left + 1 - piece.length)
        (by omega) hs hrest (by dsimp only; omega)
      refine ⟨t,?_⟩
      rw [readFixSize]
      simp only [hread, List.isEmpty_iff, hpne, if_false, ht, bind, Except.bind, Option.map_some,
        hflat]

/-- The result of `ReadFixSize` is positive, or nothing has to be read. -/
def Readable (left : ℕ) : Prop := left = 0 ∨ positiveInt left = true

instance (left : ℕ) : Decidable (Readable left) := inferInstanceAs (Decidable (_ ∨ _))

theorem recvBody_spec (cfg : HttpConfig) {data body : List UInt8} (hs : s.isConnected = true)
    (hne : ∀ w ∈ s.incoming, w ≠ []) (hbody : data ++ s.incoming.flatten = body) :
    ∃ t, recvBody cfg body.length data s =
      .ok (if Readable s.incoming.flatten.length then some body else none, t) := by
  have hlen : data.length + s.incoming.flatten.length = body.length := by
    rw [← List.length_append, hbody]
  unfold recvBody
  rw [if_neg (by omega)]
  split
  next heq =>
    have hnil : s.incoming.flatten = [] := List.length_eq_zero_iff.mp (by omega)
    refine ⟨s,?_⟩
    rw [← hbody, hnil, List.append_nil]
    rfl
  next hmore =>
    have hleft : body.length - data.length = s.incoming.flatten.length := by omega
    obtain ⟨t,ht⟩ := readFixSize_spec (body.length - data.length) cfg.maxLen_pos
      (Nat.le_refl _) hs hne hleft.symm
    have hreadable : Readable s.incoming.flatten.length ↔
        positiveInt (body.length - data.length) = true := by
      rw [Readable, hleft, or_iff_right (by omega)]
    refine ⟨t,?_⟩
    simp only [ht, bind, Except.bind, Option.map_some, hbody, hreadable]
    split <;> rfl

end Body

/-! ## The body as a stream of reads -/

section Reads
variable {s t : HttpSession} {maxLen fuel left length buffer d : ℕ} {memory : List UInt8}
  {stream : ℕ → UInt8} {out : Option (List UInt8)}

/-- The numbers of bytes that the reads of the loop return. -/
def readLengths (maxLen : ℕ) : ℕ → ℕ → HttpSession → List ℕ
  | fuel + 1, left + 1, s =>
    let (piece, s) := s.read (min (left + 1) maxLen)
    piece.length ::
      if piece.isEmpty then [] else readLengths maxLen fuel (left + 1 - piece.length) s
  | _, _, _ => []

/-- A read takes bytes off the front of the stream, no more than it was asked for. -/
theorem read_flatten (s : HttpSession) (n : ℕ) :
    (s.read n).1 ++ (s.read n).2.incoming.flatten = s.incoming.flatten ∧
      (s.read n).1.length ≤ n := by
  unfold read
  split
  next piece rest _ hin =>
    rw [hin]
    refine ⟨?_,List.length_take_le n piece⟩
    dsimp only
    split
    next hle => rw [List.take_of_length_le hle, List.flatten_cons]
    next => rw [List.flatten_cons, List.flatten_cons, ← List.append_assoc, List.take_append_drop]
  next => exact ⟨List.nil_append _,Nat.zero_le n⟩

/-- The fuel suffices, for every read but the last one returns something. -/
theorem readFixSize_total (hfuel : left ≤ fuel) :
    ∃ out t, readFixSize maxLen fuel left s = .ok (out, t) := by
  induction fuel generalizing left s with
  | zero =>
    obtain rfl : left = 0 := by omega
    exact ⟨some [],s,rfl⟩
  | succ fuel ih =>
    cases left with
    | zero => exact ⟨some [],s,rfl⟩
    | succ left =>
      obtain ⟨piece,u,hread⟩ : ∃ piece u, s.read (min (left + 1) maxLen) = (piece, u) := ⟨_,_,rfl⟩
      rw [readFixSize, hread]
      dsimp only
      split
      next => exact ⟨none,u,rfl⟩
      next hsome =>
        have hpos : 0 < piece.length := by
          rw [List.length_pos_iff]
          simpa using hsome
        have hfuel : left + 1 - piece.length ≤ fuel := by omega
        obtain ⟨out,t,hrun⟩ := ih (s := u) hfuel
        rw [hrun]
        exact ⟨_,t,rfl⟩

/-- What the loop of `stream.cpp` gives for the bytes stored, and for a read without any. -/
def Agrees (stream : ℕ → UInt8) (memory : List UInt8) (buffer length d left : ℕ)
    (out : Option (List UInt8)) (u : Transfer Stream.Receiver) : Prop :=
  match out with
  | none => u.value = 0
  | some w => u.value = Stream.toInt length ∧
      u.state = Stream.stored stream memory buffer length ∧
      w = (List.range left).map fun i => stream (d + i)

theorem readsOf_middle (before after : List ℕ) {r n : ℕ} (hr : r ≤ n) (hn : n < 2 ^ 31) :
    (readsOf (before ++ r :: after)).result before.length n = (r : ℤ) := by
  simp only [readsOf]
  rw [List.getD_eq_getElem?_getD, List.getElem?_append_right (Nat.le_refl _), Nat.sub_self]
  simp only [List.getElem?_cons_zero, Option.getD_some]
  omega

variable (buffer memory stream) in
/-- The loop of `stream.cpp` over these reads, from the call behind those before. -/
theorem fixSize_reads (hmax : maxLen < 2 ^ 31) (hfit : buffer + length ≤ memory.length)
    (hsize : memory.length < 2 ^ 63) (before : List ℕ)
    (hrun : readFixSize maxLen fuel left s = .ok (out, t)) (hleft : d + left = length)
    (hstream : (List.range s.incoming.flatten.length).map (fun i => stream (d + i)) =
      s.incoming.flatten) :
    ∃ u, Stream.fixSize (readsOf (before ++ readLengths maxLen fuel left s)) maxLen
        (Stream.receive stream buffer) length (fuel + 1) before.length d left
        (Stream.stored stream memory buffer d) = .ok u ∧
      Agrees stream memory buffer length d left out u := by
  induction fuel generalizing left s d before out with
  | zero =>
    cases left with
    | zero =>
      cases hrun
      obtain rfl : d = length := hleft
      refine ⟨_,Stream.fixSize_zero,?_⟩
      simp only [Agrees, List.range_zero, List.map_nil, and_self]
    | succ left => cases hrun
  | succ fuel ih =>
    cases left with
    | zero =>
      cases hrun
      obtain rfl : d = length := hleft
      refine ⟨_,Stream.fixSize_zero,?_⟩
      simp only [Agrees, List.range_zero, List.map_nil, and_self]
    | succ left =>
      obtain ⟨piece,v,hread⟩ : ∃ piece v, s.read (min (left + 1) maxLen) = (piece, v) := ⟨_,_,rfl⟩
      obtain ⟨hflat,hlen⟩ := read_flatten s (min (left + 1) maxLen)
      rw [hread] at hflat hlen
      dsimp only at hflat hlen
      rw [readFixSize, hread] at hrun
      dsimp only at hrun
      have hreads : readLengths maxLen (fuel + 1) (left + 1) s = piece.length ::
          if piece.isEmpty then [] else readLengths maxLen fuel (left + 1 - piece.length) v := by
        rw [readLengths, hread]
      have hresult : (readsOf (before ++ readLengths maxLen (fuel + 1) (left + 1) s)).result
          before.length (min (left + 1) maxLen) = (piece.length : ℤ) := by
        rw [hreads]
        exact readsOf_middle before _ hlen (by omega)
      rw [Stream.fixSize_succ (Nat.succ_ne_zero left) hresult]
      have hnat : Stream.toSize (piece.length : ℤ) = piece.length := by
        rw [Stream.toSize_nonneg (Int.natCast_nonneg _) (by omega), Int.toNat_natCast]
      split at hrun
      next hempty =>
        cases hrun
        obtain rfl := List.isEmpty_iff.mp hempty
        exact ⟨_,rfl,rfl⟩
      next hsome =>
        have hpos : 0 < piece.length := by
          rw [List.length_pos_iff]
          simpa using hsome
        obtain ⟨⟨out',t'⟩,hrest,hrun⟩ := exists_of_bind_eq_ok hrun
        cases hrun
        -- The bytes of this read, and those of the others.
        have hsplit : (List.range piece.length).map (fun i => stream (d + i)) = piece ∧
            (List.range v.incoming.flatten.length).map
              (fun i => stream (d + piece.length + i)) = v.incoming.flatten := by
          rw [← hflat, List.length_append, Stream.map_range_add] at hstream
          simp only [← Nat.add_assoc] at hstream
          exact List.append_inj hstream (by simp)
        obtain ⟨u,hu,hagrees⟩ := ih (before ++ [piece.length]) hrest (by omega) hsplit.2
        have hreads' : readLengths maxLen (fuel + 1) (left + 1) s =
            piece.length :: readLengths maxLen fuel (left + 1 - piece.length) v := by
          rw [hreads, if_neg hsome]
        refine ⟨u,?_,?_⟩
        · rw [Stream.call, if_pos (by omega), Int.toNat_natCast,
            Stream.receive_stored stream hfit hsize (by omega), ok_bind, hnat, if_neg hpos.ne',
            Stream.addSize_eq (by omega), Stream.subSize_eq (by omega) (by omega), hreads']
          rw [List.length_append, List.length_singleton, List.append_assoc,
            List.singleton_append] at hu
          exact hu
        · cases out' with
          | none => exact hagrees
          | some w =>
            obtain ⟨hvalue,hstate,rfl⟩ := hagrees
            refine ⟨hvalue,hstate,?_⟩
            have hsum : left + 1 = piece.length + (left + 1 - piece.length) := by omega
            conv_rhs => rw [hsum, Stream.map_range_add, hsplit.1]
            simp only [Nat.add_assoc]

theorem positiveInt_iff {n : ℕ} : positiveInt n = true ↔ 0 < Stream.toInt n := by
  unfold positiveInt Stream.toInt Int.bmod
  rw [decide_eq_true_eq]
  dsimp only
  split <;> omega

/-- The body that the session reads is the body over a stream with these reads. -/
theorem recvBody_stream (cfg : HttpConfig) (hmax : cfg.maxLen < 2 ^ 31) (hlength : length < 2 ^ 63)
    (data : List UInt8) (s : HttpSession) :
    ∃ results fuel, (recvBody cfg length data s).map Prod.fst =
      (HttpBody.recvBody results (fun i => s.incoming.flatten.getD i 0) cfg.maxLen length data
        fuel).mapError Abort.fault := by
  rcases Nat.lt_trichotomy length data.length with hlt | heq | hgt
  · refine ⟨readsOf [],0,?_⟩
    rw [recvBody, if_pos hlt, HttpBody.recvBody, HttpBody.memcpy, List.length_replicate,
      if_neg (not_le.mpr hlt)]
    rfl
  · refine ⟨readsOf [],0,?_⟩
    rw [recvBody, if_neg (by omega), if_pos heq, HttpBody.recvBody, HttpBody.memcpy_zeros heq.ge,
      ok_bind, if_pos heq.le, Nat.sub_eq_zero_of_le heq.le, List.replicate_zero, List.append_nil]
    rfl
  · have hmemory : (data ++ List.replicate (length - data.length) (0 : UInt8)).length = length := by
      simp only [List.length_append, List.length_replicate]
      omega
    obtain ⟨out,t,hrun⟩ : ∃ out t, HttpSession.readFixSize cfg.maxLen (length - data.length)
        (length - data.length) s = .ok (out, t) := readFixSize_total (Nat.le_refl _)
    have hstream : (List.range s.incoming.flatten.length).map
        (fun i => s.incoming.flatten.getD (0 + i) 0) = s.incoming.flatten := by
      refine List.ext_getElem (by simp) ?_
      intro i _ hi
      simp [List.getD_eq_getElem?_getD, List.getElem?_eq_getElem hi]
    obtain ⟨u,hu,hagrees⟩ := fixSize_reads data.length
      (data ++ List.replicate (length - data.length) 0) (fun i => s.incoming.flatten.getD i 0) hmax
      (by omega) (by omega) [] hrun (Nat.zero_add _) hstream
    rw [Stream.stored_zero, List.length_nil, List.nil_append] at hu
    refine ⟨readsOf (readLengths cfg.maxLen (length - data.length) (length - data.length) s),
      length - data.length + 1,?_⟩
    rw [recvBody, if_neg (by omega), if_neg (by omega)]
    dsimp only
    rw [hrun, ok_bind, HttpBody.recvBody,
      HttpBody.memcpy_zeros hgt.le, ok_bind, if_neg (not_le.mpr hgt), Stream.readFixSize, hu,
      ok_bind]
    cases out with
    | none =>
      have hvalue : u.value = 0 := hagrees
      rw [hvalue]
      simp only [Option.map_none, ite_self]
      rfl
    | some w =>
      obtain ⟨hvalue,hstate,rfl⟩ := hagrees
      have hbytes : u.state.memory = data ++ (List.range (length - data.length)).map
          fun i => s.incoming.flatten.getD (0 + i) 0 := by
        rw [hstate, Stream.stored]
        simp [Nat.add_sub_cancel' hgt.le]
      by_cases hpos : positiveInt (length - data.length) = true
      · have hvalue' : ¬ u.value ≤ 0 := by
          rw [hvalue, not_le]
          exact positiveInt_iff.mp hpos
        simp only [hpos, if_true, hvalue', if_false, hbytes]
        rfl
      · have hvalue' : u.value ≤ 0 := by
          rw [hvalue]
          exact not_lt.mp fun h => hpos (positiveInt_iff.mpr h)
        simp only [hpos, hvalue', if_true]
        rfl

end Reads

section Request
variable {cfg : HttpConfig} {relaxed : Bool} {lexicalCast : List UInt8 → Option UInt64}
  {head body : List UInt8} {r : Reading} {s : HttpSession}

/-- A complete valid request: the head is read as a whole, and the body has the length
that the head declares. -/
structure IsRequest (relaxed : Bool) (lexicalCast : List UInt8 → Option UInt64)
    (head body : List UInt8) (r : Reading) : Prop where
  reads : readingOf relaxed head = some r
  declared : (r.request.getHeaderAs lexicalCast (bytes "content-length") 0).toNat = body.length

/-- The reads of the session return the bytes in non-empty pieces. -/
structure Delivers (cfg : HttpConfig) (head body : List UInt8) (s : HttpSession) : Prop where
  connected : s.isConnected = true
  flatten_eq : s.incoming.flatten = head ++ body
  nonempty : ∀ w ∈ s.incoming, w ≠ []
  fits : Fits cfg.bufferSize head.length s.incoming

/-- The request without an `Expect` that has been answered. -/
def expected (r : HttpRequest) : HttpRequest :=
  if strcasecmp (r.getHeader (bytes "Expect")) (bytes "100-continue") = .eq then
    r.delHeader (bytes "Expect")
  else r

/-- The request made of the reading and the body. -/
def received (r : HttpRequest) (body : List UInt8) : HttpRequest :=
  (if body.isEmpty then expected r else { expected r with body := body }).init

theorem start_finishedBy (relaxed : Bool) : (start (Http11.main relaxed)).FinishedBy .done := by
  intro m hm
  exact ⟨_,_,List.mem_singleton.mp hm⟩

/-- A head and what follows it, in one piece. -/
theorem execute_whole {relaxed : Bool} {head rest : List UInt8} {t : State Action} {r : Reading}
    (hne : head ≠ []) (hsize : (head ++ rest).length < 2 ^ 31)
    (hexec : exec (Reading.act head) breaks (start (Http11.main relaxed)) head 0 {} =
      .ok (t, head.length, r)) (ht : t.isFinal = true) :
    ∃ h, (HttpRequestParser.new relaxed).execute (head ++ rest) = .ok (rest, h) ∧
      h.parser.cs = t ∧ h.data = r.request ∧ h.error = 0 := by
  have hcut : Uncut [] r := by simp [Uncut]
  have hstart : exec (Reading.act head) breaks (HttpRequestParser.new relaxed).parser.cs head 0 {} =
      .ok (t, 0 + head.length, r) := by
    rw [Nat.zero_add]
    exact hexec
  exact execute_last hne (List.cons_ne_nil _ _) hsize (.inl rfl) rfl (new_resumes relaxed)
    (start_finishedBy relaxed) hstart ht hcut

theorem start_not_final (relaxed : Bool) : (start (Http11.main relaxed)).isFinal = false := by
  cases relaxed <;> decide

theorem readingOf_pos (hr : readingOf relaxed head = some r) : 0 < head.length := by
  obtain ⟨t,ht,hexec⟩ := readingOf_spec hr
  cases head with
  | nil =>
    cases hexec
    rw [start_not_final] at ht
    cases ht
  | cons c head => simp

theorem pieces_length_le {α : Type} {pieces : List (List α)} (hne : ∀ w ∈ pieces, w ≠ []) :
    pieces.length ≤ pieces.flatten.length := by
  induction pieces with
  | nil => simp
  | cons w ws ih =>
    have hw : 0 < w.length := List.length_pos_iff.mpr (hne w (by simp))
    have hws := ih fun x hx => hne x (by simp [hx])
    simp only [List.length_cons, List.flatten_cons, List.length_append]
    omega

/-- The body is read to its end, as far as it is not in the piece that completes the head. A
length that is negative as an `int64_t` is not looked at. -/
def BodyRead (head body : List UInt8) (s : HttpSession) : Prop :=
  2 ^ 63 ≤ body.length ∨ Readable (behind head.length s.incoming)

instance (head body : List UInt8) (s : HttpSession) : Decidable (BodyRead head body s) :=
  inferInstanceAs (Decidable (_ ∨ _))

/-- The request with the body that the code looks at. -/
def whole (r : HttpRequest) (body : List UInt8) : HttpRequest :=
  received r (if body.length < 2 ^ 63 then body else [])

/-- Whatever the pieces are, the request returned is that of the reading, if the body is read. -/
theorem recvRequest_spec (hreq : IsRequest relaxed lexicalCast head body r)
    (hs : Delivers cfg head body s) (hcut : Uncut (cuts 0 s.incoming) r) :
    ∃ t, recvRequest cfg relaxed lexicalCast s =
      .ok (if BodyRead head body s then some (whole r.request body) else none, t) := by
  obtain ⟨t,ht,hexec⟩ := readingOf_spec hreq.reads
  have hfuel : s.incoming.length < s.fuel := Nat.lt_succ_of_le (pieces_length_le hs.nonempty)
  obtain ⟨data,h,rest,hrecv,hdata,hrest,hne,hbehind⟩ := recvHead_spec hfuel hs.connected rfl
    hs.flatten_eq (readingOf_pos hreq.reads) hs.nonempty hs.fits (.inl rfl) (fun _ hk => hk)
    (new_resumes relaxed) (List.cons_ne_nil _ _) (start_finishedBy relaxed) hexec ht hcut
  have hlength : (h.getContentLength lexicalCast).toNat = body.length := by
    rw [getContentLength, hdata]
    exact hreq.declared
  obtain ⟨u,hu,hcontinue⟩ : ∃ u, u.incoming = rest ∧ u.isConnected = true ∧
      expectContinue h.data { s with incoming := rest } = (expected r.request, u) := by
    rw [hdata]
    unfold expectContinue expected
    split
    · exact ⟨_,by simp [writeFixSize, hs.connected],by simp [writeFixSize, hs.connected],rfl⟩
    · exact ⟨{ s with incoming := rest },rfl,hs.connected,rfl⟩
  unfold recvRequest
  simp only [hrecv, bind, Except.bind, hlength, hcontinue.2]
  split
  next hpos =>
    have hbody : data ++ u.incoming.flatten = body := by
      rw [hu]
      exact hrest
    obtain ⟨v,hv⟩ := recvBody_spec cfg hcontinue.1 (by rw [hu]; exact hne) hbody
    rw [hu, hbehind, Nat.sub_zero] at hv
    have hfull : body.isEmpty = false := by
      rw [List.isEmpty_eq_false_iff]
      exact List.length_pos_iff.mp hpos.1
    have hread : BodyRead head body s ↔ Readable (behind head.length s.incoming) :=
      or_iff_right (by omega)
    refine ⟨v,?_⟩
    by_cases hok : Readable (behind head.length s.incoming)
    · simp only [hv, hread, hok, whole, hpos.2, received, hfull, Bool.false_eq_true, if_false,
        if_true]
    · simp only [hv, hread, hok, if_false]
  next hnone =>
    have hread : BodyRead head body s := by
      by_cases hlong : 2 ^ 63 ≤ body.length
      · exact .inl hlong
      · have hnil : rest.flatten.length = 0 := by
          have hsum := congrArg List.length hrest
          rw [List.length_append] at hsum
          omega
        rw [hnil, Nat.sub_zero] at hbehind
        exact .inr (.inl hbehind.symm)
    have hempty : (if body.length < 2 ^ 63 then body else []) = [] := by
      split
      next hlt => exact List.length_eq_zero_iff.mp (by omega)
      next => rfl
    refine ⟨u,?_⟩
    simp only [hread, if_true, whole, hempty, received, List.isEmpty_nil]

end Request

end HttpSession

end Gudov
