import Gudov.HttpDump
import Gudov.HttpCuts

/-!
# The parts of a request as the machine reads them

What the reading makes of each part of a head: from one phase to another, with a change
of the request. A part is read alike wherever it stands, so the parts are put together in
their order.
-/
namespace Gudov
open ActionMachine Http11 Reading

/-- The token from its start to the byte after it. -/
theorem slice_token {head w : List UInt8} {p : ℕ} (h : w <+: head.drop p) :
    slice head p (p + w.length - p) = w := by
  obtain ⟨v,hv⟩ := h
  rw [slice, Nat.add_sub_cancel_left, ← hv, List.take_left]

theorem prefix_after {head w v : List UInt8} {p : ℕ} (h : w ++ v <+: head.drop p) :
    v <+: head.drop (p + w.length) := by
  obtain ⟨u,hu⟩ := h
  rw [← List.drop_drop, ← hu, List.append_assoc, List.drop_left]
  exact List.prefix_append v u

section Stages
variable {relaxed : Bool}

/-- The bytes lead from one phase to another and change the request, wherever they stand
in a head. -/
def Reads (relaxed : Bool) (q : Phase) (w : List UInt8) (q' : Phase)
    (f : HttpRequest → HttpRequest) : Prop :=
  ∀ head p r, w <+: head.drop p →
    ∃ r', Leads (Phase.state relaxed) (Reading.act head) HttpRequestParser.breaks q p r w q' r' ∧
      r'.request = f r.request

theorem Reads.nil (q : Phase) : Reads relaxed q [] q id := by
  intro head p r _
  exact ⟨r,fun v => rfl,rfl⟩

theorem Reads.trans {q q' q'' : Phase} {w v : List UInt8} {f g : HttpRequest → HttpRequest}
    (h : Reads relaxed q w q' f) (h' : Reads relaxed q' v q'' g) :
    Reads relaxed q (w ++ v) q'' (g ∘ f) := by
  intro head p r hw
  obtain ⟨r₁,hlead,hreq⟩ := h head p r ((List.prefix_append w v).trans hw)
  obtain ⟨r₂,hlead',hreq'⟩ := h' head _ r₁ (prefix_after hw)
  refine ⟨r₂,hlead.trans hlead',?_⟩
  rw [hreq', hreq, Function.comp_apply]

theorem Reads.congr {q q' : Phase} {w v : List UInt8} {f g : HttpRequest → HttpRequest}
    (h : Reads relaxed q w q' f) (hw : v = w) (hf : ∀ r, g r = f r) : Reads relaxed q v q' g := by
  rw [hw, funext hf]
  exact h

/-- The bytes of a set with a row of its own. -/
def RowOn (relaxed : Bool) (q : Phase) (c : UInt8) (q' : Phase) (acts : List Action) : Prop :=
  ∃ row ∈ rows relaxed, row.source = q ∧ row.target = q' ∧ row.acts = acts ∧
    row.bytes.has c = true

theorem RowOn.of_mem (row : Row Phase Action) {c : UInt8} (hrow : row ∈ rows relaxed)
    (hc : row.bytes.has c = true) : RowOn relaxed row.source c row.target row.acts :=
  ⟨row,hrow,rfl,rfl,rfl,hc⟩

section Run
variable {σ ε : Type} {act : Action → ℕ → σ → Except ε σ} {q q' : Phase} {c : UInt8} {p : ℕ}
  {x y : σ} {acts : List Action}

theorem RowOn.leads (h : RowOn relaxed q c q' acts)
    (hp : perform act HttpRequestParser.breaks p acts x = .ok (false, y)) :
    Leads (Phase.state relaxed) act HttpRequestParser.breaks q p x [c] q' y := by
  obtain ⟨row,hrow,rfl,rfl,rfl,hc⟩ := h
  exact Row.leads (rows_hold relaxed row hrow) hc hp

theorem RowOn.walk {w : List UInt8} {q'' : Phase} (h : RowOn relaxed q c q' [])
    (hw : Walk (rows relaxed) q' w q'') : Walk (rows relaxed) q (c :: w) q'' := by
  obtain ⟨row,hrow,rfl,rfl,hacts,hc⟩ := h
  exact Walk.cons hrow hacts hc hw

end Run

section Encoding
variable {q q₀ hex hex2 : Phase} {w : List UInt8}

theorem char_has {c : Char} {d : UInt8} (h : (char c).has d = true) : d = c.toNat.toUInt8 := by
  rw [char, ByteSet.single_has, decide_eq_true_eq] at h
  exact h

theorem pathChar_has {c : UInt8} (h : (pathChar relaxed).has c = true) :
    (uriChar relaxed).has c = true ∨ c = 47 := by
  rw [pathChar, ByteSet.has, Bool.or_eq_true] at h
  exact h.imp id char_has

theorem partChar_has {c : UInt8} (h : (partChar relaxed).has c = true) :
    (uriChar relaxed).has c = true ∨ c = 47 ∨ c = 63 := by
  rw [partChar, ByteSet.has, Bool.or_eq_true] at h
  rcases h with h | h
  · exact (pathChar_has h).imp id .inl
  · exact .inr (.inr (char_has h))

/-- Characters of the set stay in the phase, and so do percent-encoded ones. -/
structure Spells (relaxed : Bool) (s : ByteSet) (q hex hex2 : Phase) : Prop where
  char : ∀ c, s.has c = true → RowOn relaxed q c q []
  percent : RowOn relaxed q 37 hex []
  digit : ∀ c, xdigit.has c = true → RowOn relaxed hex c hex2 []
  digit2 : ∀ c, xdigit.has c = true → RowOn relaxed hex2 c q []

theorem Spells.hex_walk {s : ByteSet} {a b : UInt8} (h : Spells relaxed s q hex hex2)
    (ha : xdigit.has a = true) (hb : xdigit.has b = true) (hw : Walk (rows relaxed) q w q) :
    Walk (rows relaxed) hex (a :: b :: w) q :=
  (h.digit a ha).walk ((h.digit2 b hb).walk hw)

theorem Spells.walk {s : ByteSet} (h : Spells relaxed s q hex hex2) (hw : Encoded s w) :
    Walk (rows relaxed) q w q := by
  induction hw with
  | nil => exact Walk.nil q
  | char hc _ ih => exact (h.char _ hc).walk ih
  | percent ha hb _ ih => exact h.percent.walk (h.hex_walk ha hb ih)

theorem encodedRows_spells (hsub : encodedRows relaxed q hex hex2 ⊆ rows relaxed) :
    Spells relaxed (pathChar relaxed) q hex hex2 where
  char c hc := by
    rcases pathChar_has hc with huri | rfl
    · exact RowOn.of_mem ⟨q,uriChar relaxed,97,q,[]⟩ (hsub (by simp [encodedRows])) huri
    · exact RowOn.of_mem ⟨q,char '/',47,q,[]⟩ (hsub (by simp [encodedRows])) rfl
  percent := RowOn.of_mem ⟨q,char '%',37,hex,[]⟩ (hsub (by simp [encodedRows])) rfl
  digit c hc := RowOn.of_mem ⟨hex,xdigit,48,hex2,[]⟩ (hsub (by simp [encodedRows])) hc
  digit2 c hc := RowOn.of_mem ⟨hex2,xdigit,48,q,[]⟩ (hsub (by simp [encodedRows])) hc

section Path

theorem pathRows_subset : pathRows relaxed ⊆ rows relaxed := by
  intro row hrow
  simp [rows, hrow]

theorem path_spells : Spells relaxed (pathChar relaxed) .path .pathHex .pathHex2 := by
  apply encodedRows_spells
  intro row hrow
  apply pathRows_subset
  simp [pathRows, hrow]

/-- The phases in which a path may end. -/
def PathEnd (q : Phase) : Prop := q = .root ∨ q = .path

/-- A path goes on behind its first character, which is no second slash. -/
theorem path_walk (hw : Encoded (pathChar relaxed) w) (hroot : w.head? ≠ some 47) :
    ∃ q, PathEnd q ∧ Walk (rows relaxed) .root w q := by
  cases hw with
  | nil => exact ⟨.root,.inl rfl,Walk.nil _⟩
  | @char c w hc hw =>
    refine ⟨.path,.inr rfl,?_⟩
    have huri := (pathChar_has hc).resolve_right fun hslash => hroot (by rw [hslash]; rfl)
    have hrow : RowOn relaxed .root c .path [] :=
      RowOn.of_mem ⟨.root,uriChar relaxed,97,.path,[]⟩ (pathRows_subset (by simp [pathRows])) huri
    exact hrow.walk (path_spells.walk hw)
  | @percent a b w ha hb hw =>
    refine ⟨.path,.inr rfl,?_⟩
    have hrow : RowOn relaxed .root 37 .pathHex [] :=
      RowOn.of_mem ⟨.root,char '%',37,.pathHex,[]⟩ (pathRows_subset (by simp [pathRows])) rfl
    exact hrow.walk (path_spells.hex_walk ha hb (path_spells.walk hw))

end Path

section Part
variable {a : Action}

theorem partRows_spells (hsub : partRows relaxed q₀ q hex hex2 a ⊆ rows relaxed) :
    Spells relaxed (partChar relaxed) q hex hex2 := by
  have henc : Spells relaxed (pathChar relaxed) q hex hex2 := by
    apply encodedRows_spells
    intro row hrow
    apply hsub
    simp [partRows, hrow]
  refine { henc with char := ?_ }
  intro c hc
  rw [partChar, ByteSet.has, Bool.or_eq_true] at hc
  rcases hc with hc | hc
  · exact henc.char c hc
  · exact RowOn.of_mem ⟨q,char '?',63,q,[]⟩ (hsub (by simp [partRows])) hc

/-- The first character of a part performs the action. -/
theorem part_walk (hsub : partRows relaxed q₀ q hex hex2 a ⊆ rows relaxed)
    (hw : Encoded (partChar relaxed) w) (hne : w ≠ []) :
    ∃ c v mid, w = c :: v ∧ RowOn relaxed q₀ c mid [a] ∧ Walk (rows relaxed) mid v q := by
  have hspells := partRows_spells hsub
  cases hw with
  | nil => exact absurd rfl hne
  | @char c w hc hw =>
    refine ⟨c,w,q,rfl,?_,hspells.walk hw⟩
    rcases partChar_has hc with huri | rfl | rfl
    · exact RowOn.of_mem ⟨q₀,uriChar relaxed,97,q,[a]⟩ (hsub (by simp [partRows])) huri
    · exact RowOn.of_mem ⟨q₀,char '/',47,q,[a]⟩ (hsub (by simp [partRows])) rfl
    · exact RowOn.of_mem ⟨q₀,char '?',63,q,[a]⟩ (hsub (by simp [partRows])) rfl
  | @percent b d w hb hd hw =>
    refine ⟨37,b :: d :: w,hex,rfl,?_,hspells.hex_walk hb hd (hspells.walk hw)⟩
    exact RowOn.of_mem ⟨q₀,char '%',37,hex,[a]⟩ (hsub (by simp [partRows])) rfl

end Part

end Encoding

section Target
variable {w : List UInt8} {t : UInt8} {q : Phase} {acts : List Action}

/-- What the actions at the end of a path do. -/
def EndsPath (acts : List Action) : Prop := acts = [.requestPath] ∨ acts = [.requestPath, .requestUri]

theorem path_reads (hw : Encoded (pathChar relaxed) w) (hroot : w.head? ≠ some 47)
    (hend : ∀ e, PathEnd e → RowOn relaxed e t q acts) (hacts : EndsPath acts) :
    Reads relaxed .uri ([47] ++ w ++ [t]) q fun r => { r with path := 47 :: w } := by
  intro head p r hp
  obtain ⟨e,he,hwalk⟩ := path_walk hw hroot
  have hslash : RowOn relaxed .uri 47 .root [.mark] :=
    RowOn.of_mem ⟨.uri,char '/',47,.root,[.mark]⟩ (pathRows_subset (by simp [pathRows])) rfl
  have hstart : Leads (Phase.state relaxed) (Reading.act head) HttpRequestParser.breaks .uri p r
      [47] .root { r with mark := p } := hslash.leads rfl
  have hpath := hstart.trans (hwalk.leads (rows_hold relaxed))
  have htoken := slice_token ((List.prefix_append ([47] ++ w) [t]).trans hp)
  have hperform : ∃ r', perform (Reading.act head) HttpRequestParser.breaks
      (p + ([47] ++ w).length) acts { r with mark := p } = .ok (false, r') ∧
      r'.request = { r.request with path := 47 :: w } := by
    rcases hacts with rfl | rfl <;>
    · refine ⟨_,rfl,?_⟩
      dsimp only [use]
      rw [htoken]
      rfl
  obtain ⟨r',hr',hreq⟩ := hperform
  exact ⟨r',hpath.trans ((hend e he).leads hr'),hreq⟩

theorem queryRows_subset : queryRows relaxed ⊆ rows relaxed := by
  intro row hrow
  simp [rows, hrow]

theorem query_reads (hw : Encoded (partChar relaxed) w) (hne : w ≠ [])
    (hend : RowOn relaxed .query t q [.queryString, .requestUri]) :
    Reads relaxed .query0 (w ++ [t]) q fun r => { r with query := w } := by
  intro head p r hp
  have hsub : partRows relaxed .query0 .query .queryHex .queryHex2 .startQuery ⊆ rows relaxed := by
    intro row hrow
    apply queryRows_subset
    simp [queryRows, hrow]
  obtain ⟨c,v,mid,rfl,hfirst,hwalk⟩ := part_walk hsub hw hne
  have hstart : Leads (Phase.state relaxed) (Reading.act head) HttpRequestParser.breaks .query0 p r
      [c] mid { r with query := some p } := hfirst.leads rfl
  have hquery := hstart.trans (hwalk.leads (rows_hold relaxed))
  have htoken := slice_token ((List.prefix_append (c :: v) [t]).trans hp)
  refine ⟨_,hquery.trans (hend.leads rfl),?_⟩
  dsimp only [use]
  rw [List.singleton_append, htoken]

theorem fragmentRows_subset : fragmentRows relaxed ⊆ rows relaxed := by
  intro row hrow
  simp [rows, hrow]

theorem fragment_reads (hw : Encoded (partChar relaxed) w) (hne : w ≠ []) :
    Reads relaxed .fragment0 (w ++ [32]) .version fun r => { r with fragment := w } := by
  intro head p r hp
  have hsub : partRows relaxed .fragment0 .fragment .fragmentHex .fragmentHex2 .mark ⊆
      rows relaxed := by
    intro row hrow
    apply fragmentRows_subset
    simp [fragmentRows, hrow]
  have hend : RowOn relaxed .fragment 32 .version [.fragment] :=
    RowOn.of_mem ⟨.fragment,char ' ',32,.version,[.fragment]⟩
      (fragmentRows_subset (by simp [fragmentRows])) rfl
  obtain ⟨c,v,mid,rfl,hfirst,hwalk⟩ := part_walk hsub hw hne
  have hstart : Leads (Phase.state relaxed) (Reading.act head) HttpRequestParser.breaks .fragment0
      p r [c] mid { r with mark := p } := hfirst.leads rfl
  have hfragment := hstart.trans (hwalk.leads (rows_hold relaxed))
  have htoken := slice_token ((List.prefix_append (c :: v) [32]).trans hp)
  refine ⟨_,hfragment.trans (hend.leads rfl),?_⟩
  dsimp only [use]
  rw [List.singleton_append, htoken]

/-- The parts of a request target that are there. -/
def setTarget (path query fragment : List UInt8) (r : HttpRequest) : HttpRequest :=
  { r with
    path := path
    query := if query.isEmpty then r.query else query
    fragment := if fragment.isEmpty then r.fragment else fragment }

/-- The three characters that end a path. -/
theorem pathEnd_rows {e : Phase} (he : PathEnd e) :
    RowOn relaxed e 63 .query0 [.requestPath] ∧
      RowOn relaxed e 35 .fragment0 [.requestPath, .requestUri] ∧
      RowOn relaxed e 32 .version [.requestPath, .requestUri] := by
  have hmem : ∀ row : Row Phase Action, row ∈ pathRows relaxed → row ∈ rows relaxed :=
    fun _ hrow => pathRows_subset hrow
  rcases he with rfl | rfl
  · refine ⟨RowOn.of_mem ⟨.root,char '?',63,.query0,[.requestPath]⟩ (hmem _ ?_) rfl,
      RowOn.of_mem ⟨.root,char '#',35,.fragment0,[.requestPath, .requestUri]⟩ (hmem _ ?_) rfl,
      RowOn.of_mem ⟨.root,char ' ',32,.version,[.requestPath, .requestUri]⟩ (hmem _ ?_) rfl⟩ <;>
    simp [pathRows]
  · refine ⟨RowOn.of_mem ⟨.path,char '?',63,.query0,[.requestPath]⟩ (hmem _ ?_) rfl,
      RowOn.of_mem ⟨.path,char '#',35,.fragment0,[.requestPath, .requestUri]⟩ (hmem _ ?_) rfl,
      RowOn.of_mem ⟨.path,char ' ',32,.version,[.requestPath, .requestUri]⟩ (hmem _ ?_) rfl⟩ <;>
    simp [pathRows]

theorem queryEnd_rows : RowOn relaxed .query 35 .fragment0 [.queryString, .requestUri] ∧
    RowOn relaxed .query 32 .version [.queryString, .requestUri] := by
  refine ⟨RowOn.of_mem ⟨.query,char '#',35,.fragment0,[.queryString, .requestUri]⟩
    (queryRows_subset ?_) rfl,
    RowOn.of_mem ⟨.query,char ' ',32,.version,[.queryString, .requestUri]⟩
      (queryRows_subset ?_) rfl⟩ <;>
  simp [queryRows]

theorem target_reads {r : HttpRequest} (hr : Printable relaxed r) :
    Reads relaxed .uri (r.target ++ [32]) .version (setTarget r.path r.query r.fragment) := by
  obtain ⟨w,hpath,hw,hroot⟩ := hr.path
  by_cases hq : r.query = [] <;> by_cases hf : r.fragment = []
  · have hread := path_reads hw hroot (fun e he => (pathEnd_rows he).2.2) (.inr rfl)
    apply hread.congr
    · simp [HttpRequest.target, HttpRequest.part, hpath, hq, hf]
    · simp [setTarget, hpath, hq, hf]
  · have hread := path_reads hw hroot (fun e he => (pathEnd_rows he).2.1) (.inr rfl)
    apply (hread.trans (fragment_reads hr.fragment hf)).congr
    · simp [HttpRequest.target, HttpRequest.part, hpath, hq, hf]
    · simp [setTarget, hpath, hq, hf]
  · have hread := path_reads hw hroot (fun e he => (pathEnd_rows he).1) (.inl rfl)
    apply (hread.trans (query_reads hr.query hq queryEnd_rows.2)).congr
    · simp [HttpRequest.target, HttpRequest.part, hpath, hq, hf]
    · simp [setTarget, hpath, hq, hf]
  · have hread := path_reads hw hroot (fun e he => (pathEnd_rows he).1) (.inl rfl)
    apply ((hread.trans (query_reads hr.query hq queryEnd_rows.1)).trans
      (fragment_reads hr.fragment hf)).congr
    · simp [HttpRequest.target, HttpRequest.part, hpath, hq, hf]
    · simp [setTarget, hpath, hq, hf]

end Target

section Version

theorem versionRows_subset : versionRows ⊆ rows relaxed := by
  intro row hrow
  simp [rows, hrow]

theorem version_walk {d : UInt8} (hd : d = 48 ∨ d = 49) :
    Walk (rows relaxed) .version1 [84, 84, 80, 47, 49, 46, d] .version8 := by
  have hwalk : Walk versionRows .version1 [84, 84, 80, 47, 49, 46, d] .version8 := by
    apply follow_walk
    rcases hd with rfl | rfl <;> decide
  exact hwalk.mono versionRows_subset

theorem version_reads {v : UInt8} (hv : v = 0x10 ∨ v = 0x11) :
    Reads relaxed .version (HttpRequest.versionText v) .firstLine
      fun r => { r with version := v } := by
  intro head p r hp
  generalize hd : (if v = 0x10 then 48 else 49 : UInt8) = d
  have hmark : RowOn relaxed .version 72 .version1 [.mark] :=
    RowOn.of_mem ⟨.version,char 'H',72,.version1,[.mark]⟩
      (versionRows_subset (by simp [versionRows])) rfl
  have hreturn : RowOn relaxed .version8 13 .version9 [.httpVersion] :=
    RowOn.of_mem ⟨.version8,char '\r',13,.version9,[.httpVersion]⟩
      (versionRows_subset (by simp [versionRows])) rfl
  have hfeed : Walk (rows relaxed) .version9 [10] .firstLine :=
    (follow_walk (by decide) : Walk versionRows .version9 [10] .firstLine).mono versionRows_subset
  have hdigit : d = 48 ∨ d = 49 := by
    rcases hv with rfl | rfl
    · exact .inl hd.symm
    · exact .inr hd.symm
  have htext : HttpRequest.versionText v = ([72, 84, 84, 80, 47, 49, 46, d] ++ [13]) ++ [10] := by
    rw [HttpRequest.versionText, hd]
    rfl
  rw [htext] at hp ⊢
  have htoken := slice_token ((List.prefix_append _ [13]).trans ((List.prefix_append _ [10]).trans hp))
  have hversion : HttpRequestParser.versionOf [72, 84, 84, 80, 47, 49, 46, d] = some v := by
    rcases hv with rfl | rfl
    · rw [← hd]
      decide
    · rw [← hd]
      decide
  have hstart : Leads (Phase.state relaxed) (Reading.act head) HttpRequestParser.breaks .version p
      r [72] .version1 { r with mark := p } := hmark.leads rfl
  have hnumber := hstart.trans ((version_walk hdigit).leads (rows_hold relaxed))
  have hperform : ∃ r', perform (Reading.act head) HttpRequestParser.breaks
      (p + ([72] ++ [84, 84, 80, 47, 49, 46, d]).length) [.httpVersion] { r with mark := p } =
        .ok (false, r') ∧ r'.request = { r.request with version := v } := by
    refine ⟨{ r with mark := p, request := { r.request with version := v } }.use [p]
      (p + [72, 84, 84, 80, 47, 49, 46, d].length),?_,rfl⟩
    simp only [perform, Reading.act, List.singleton_append, htoken, hversion]
    rfl
  obtain ⟨r',hr',hreq⟩ := hperform
  exact ⟨r',(hnumber.trans (hreturn.leads hr')).trans (hfeed.leads (rows_hold relaxed)),hreq⟩

end Version

section Field
variable {k v pad head : List UInt8} {q : Phase} {p : ℕ} {r : Reading}

theorem headerRows_subset : headerRows ⊆ rows relaxed := by
  intro row hrow
  simp [rows, hrow]

/-- The phases in which a line may begin. -/
def LineStart (q : Phase) : Prop := q = .firstLine ∨ q = .line

theorem name_walk (hk : ∀ c ∈ k, nameChar.has c = true) : Walk (rows relaxed) .name k .name := by
  induction k with
  | nil => exact Walk.nil _
  | cons c k ih =>
    have hrow : RowOn relaxed .name c .name [] :=
      RowOn.of_mem ⟨.name,nameChar,97,.name,[]⟩ (headerRows_subset (by simp [headerRows]))
        (hk c (by simp))
    exact hrow.walk (ih fun d hd => hk d (by simp [hd]))

theorem name_leads (hq : LineStart q) (hne : k ≠ []) (hk : ∀ c ∈ k, nameChar.has c = true) :
    Leads (Phase.state relaxed) (Reading.act head) HttpRequestParser.breaks q p r (k ++ [58])
      .value0 ({ r with field := p, nameLen := p + k.length - p, nameAt := p + k.length }.use [p]
        (p + k.length)) := by
  cases k with
  | nil => exact absurd rfl hne
  | cons c k =>
    have hfirst : RowOn relaxed q c .name [.startField] := by
      rcases hq with rfl | rfl
      · exact RowOn.of_mem ⟨.firstLine,nameChar,97,.name,[.startField]⟩
          (headerRows_subset (by simp [headerRows])) (hk c (by simp))
      · exact RowOn.of_mem ⟨.line,nameChar,97,.name,[.startField]⟩
          (headerRows_subset (by simp [headerRows])) (hk c (by simp))
    have hcolon : RowOn relaxed .name 58 .value0 [.writeField] :=
      RowOn.of_mem ⟨.name,char ':',58,.value0,[.writeField]⟩
        (headerRows_subset (by simp [headerRows])) rfl
    have hstart : Leads (Phase.state relaxed) (Reading.act head) HttpRequestParser.breaks q p r
        [c] .name { r with field := p } := hfirst.leads rfl
    have hwalk : Walk (rows relaxed) .name k .name :=
      name_walk fun d hd => hk d (List.mem_cons_of_mem c hd)
    have hname := hstart.trans (hwalk.leads (rows_hold relaxed))
    exact hname.trans (hcolon.leads rfl)

/-- The phases in which a value may end. -/
def ValueEnd (q : Phase) : Prop := q = .value ∨ q = .valueBlank

theorem printable_has {c : UInt8} (h : printable.has c = true) : c = 32 ∨ visible.has c = true := by
  simp only [printable, visible, ByteSet.has, decide_eq_true_eq, UInt8.le_iff_toNat_le,
    ← UInt8.toNat_inj] at h ⊢
  simp only [UInt8.reduceToNat] at h ⊢
  omega

theorem value_walk (hv : ∀ c ∈ v, printable.has c = true) (hq : ValueEnd q) :
    ∃ q', ValueEnd q' ∧ Walk (rows relaxed) q v q' := by
  induction v generalizing q with
  | nil => exact ⟨q,hq,Walk.nil q⟩
  | cons c v ih =>
    have hrow : ∃ q', ValueEnd q' ∧ RowOn relaxed q c q' [] := by
      rcases printable_has (hv c (by simp)) with rfl | hc
      · refine ⟨.valueBlank,.inr rfl,?_⟩
        rcases hq with rfl | rfl
        · exact RowOn.of_mem ⟨.value,char ' ',32,.valueBlank,[]⟩
            (headerRows_subset (by simp [headerRows])) rfl
        · exact RowOn.of_mem ⟨.valueBlank,char ' ',32,.valueBlank,[]⟩
            (headerRows_subset (by simp [headerRows])) rfl
      · refine ⟨.value,.inl rfl,?_⟩
        rcases hq with rfl | rfl
        · exact RowOn.of_mem ⟨.value,visible,97,.value,[]⟩
            (headerRows_subset (by simp [headerRows])) hc
        · exact RowOn.of_mem ⟨.valueBlank,visible,97,.value,[]⟩
            (headerRows_subset (by simp [headerRows])) hc
    obtain ⟨q',hq',hrow⟩ := hrow
    obtain ⟨q'',hq'',hwalk⟩ := ih (fun d hd => hv d (by simp [hd])) hq'
    exact ⟨q'',hq'',hrow.walk hwalk⟩

/-- A blank in front of the value moves its start. -/
theorem valueStart_leads {c : UInt8} (hc : visible.has c = true) (hpad : pad = [] ∨ pad = [32]) :
    Leads (Phase.state relaxed) (Reading.act head) HttpRequestParser.breaks .value0 p r
      (pad ++ [c]) .value { r with mark := p + pad.length } := by
  rcases hpad with rfl | rfl
  · have hrow : RowOn relaxed .value0 c .value [.startValue] :=
      RowOn.of_mem ⟨.value0,visible,97,.value,[.startValue]⟩
        (headerRows_subset (by simp [headerRows])) hc
    exact hrow.leads rfl
  · have hblank : RowOn relaxed .value0 32 .valueBlank0 [.startValue] :=
      RowOn.of_mem ⟨.value0,char ' ',32,.valueBlank0,[.startValue]⟩
        (headerRows_subset (by simp [headerRows])) rfl
    have hrow : RowOn relaxed .valueBlank0 c .value [.startValue] :=
      RowOn.of_mem ⟨.valueBlank0,visible,97,.value,[.startValue]⟩
        (headerRows_subset (by simp [headerRows])) hc
    have hfirst : Leads (Phase.state relaxed) (Reading.act head) HttpRequestParser.breaks .value0
        p r [32] .valueBlank0 { r with mark := p } := hblank.leads rfl
    exact hfirst.trans (hrow.leads rfl)

/-- The header is set on the byte after its value. -/
theorem writeValue_performs (hname : r.nameLen ≠ 0) (hpos : r.field + r.nameLen ≤ p)
    (hv : slice head r.mark (p - r.mark) = v) :
    ∃ r', perform (Reading.act head) HttpRequestParser.breaks p [.writeValue] r =
        .ok (false, r') ∧
      r'.request = r.request.setHeader (slice head r.field r.nameLen) v := by
  refine ⟨{ r with request := r.request.setHeader (slice head r.field r.nameLen) v }.use
    [r.field, r.nameAt, r.mark] p,?_,rfl⟩
  simp only [perform, Reading.act, if_neg (Nat.not_lt.mpr hpos), if_neg hname, hv]
  rfl

variable (relaxed) in
theorem value_leads (hname : r.nameLen ≠ 0) (hpos : r.field + r.nameLen ≤ p)
    (hv : ∀ c ∈ v, printable.has c = true) (hblank : v.head? ≠ some 32)
    (hpad : pad = [] ∨ pad = [32] ∧ v ≠ []) (hp : pad ++ v <+: head.drop p) :
    ∃ r', Leads (Phase.state relaxed) (Reading.act head) HttpRequestParser.breaks .value0 p r
        (pad ++ v ++ [13]) .valueEnd r' ∧
      r'.request = r.request.setHeader (slice head r.field r.nameLen) v := by
  have htoken := slice_token (prefix_after hp)
  cases v with
  | nil =>
    obtain rfl : pad = [] := hpad.resolve_right fun h => h.2 rfl
    have hrow : RowOn relaxed .value0 13 .valueEnd [.startValue, .writeValue] :=
      RowOn.of_mem ⟨.value0,char '\r',13,.valueEnd,[.startValue, .writeValue]⟩
        (headerRows_subset (by simp [headerRows])) rfl
    obtain ⟨r',hr',hreq⟩ := writeValue_performs (r := { r with mark := p }) hname hpos htoken
    exact ⟨r',hrow.leads hr',hreq⟩
  | cons c v =>
    have hc : visible.has c = true :=
      (printable_has (hv c (by simp))).resolve_left fun h => hblank (by rw [h]; rfl)
    have hrest : ∀ d ∈ v, printable.has d = true := fun d hd => hv d (List.mem_cons_of_mem c hd)
    obtain ⟨q',hq',hwalk⟩ : ∃ q', ValueEnd q' ∧ Walk (rows relaxed) .value v q' :=
      value_walk hrest (.inl rfl)
    have hstart : Leads (Phase.state relaxed) (Reading.act head) HttpRequestParser.breaks .value0 p
        r (pad ++ [c]) .value { r with mark := p + pad.length } :=
      valueStart_leads hc (hpad.imp id And.left)
    have hend : RowOn relaxed q' 13 .valueEnd [.writeValue] := by
      rcases hq' with rfl | rfl
      · exact RowOn.of_mem ⟨.value,char '\r',13,.valueEnd,[.writeValue]⟩
          (headerRows_subset (by simp [headerRows])) rfl
      · exact RowOn.of_mem ⟨.valueBlank,char '\r',13,.valueEnd,[.writeValue]⟩
          (headerRows_subset (by simp [headerRows])) rfl
    have hvalue := hstart.trans (hwalk.leads (rows_hold relaxed))
    have hsplit : pad ++ [c] ++ v = pad ++ c :: v := by simp
    rw [hsplit] at hvalue
    rw [Nat.add_assoc, ← List.length_append] at htoken
    obtain ⟨r',hr',hreq⟩ := writeValue_performs (r := { r with mark := p + pad.length })
      (p := p + (pad ++ c :: v).length) hname (Nat.le_add_right_of_le hpos) htoken
    exact ⟨r',hvalue.trans (hend.leads hr'),hreq⟩

/-- A header line sets its header. -/
theorem field_reads (hq : LineStart q) (hne : k ≠ []) (hk : ∀ c ∈ k, nameChar.has c = true)
    (hv : ∀ c ∈ v, printable.has c = true) (hblank : v.head? ≠ some 32)
    (hpad : pad = [] ∨ pad = [32] ∧ v ≠ []) :
    Reads relaxed q (HttpRequest.fieldLine pad (k, v)) .line (HttpRequest.setHeader k v) := by
  intro head p r hp
  have hline : HttpRequest.fieldLine pad (k, v) = k ++ [58] ++ (pad ++ v ++ [13]) ++ [10] := by
    simp [HttpRequest.fieldLine]
  rw [hline] at hp ⊢
  have hfront := (List.prefix_append _ [10]).trans hp
  have hkey := slice_token ((List.prefix_append k [58]).trans ((List.prefix_append _ _).trans hfront))
  have hpos : k.length ≠ 0 := fun h => hne (List.length_eq_zero_iff.mp h)
  have hfeed : RowOn relaxed .valueEnd 10 .line [] :=
    RowOn.of_mem ⟨.valueEnd,char '\n',10,.line,[]⟩ (headerRows_subset (by simp [headerRows])) rfl
  generalize hr₁ : { r with field := p, nameLen := p + k.length - p, nameAt := p + k.length }.use
    [p] (p + k.length) = r₁
  have hname : Leads (Phase.state relaxed) (Reading.act head) HttpRequestParser.breaks q p r
      (k ++ [58]) .value0 r₁ := by
    rw [← hr₁]
    exact name_leads hq hne hk
  have hlen : r₁.nameLen ≠ 0 := by
    rw [← hr₁]
    dsimp only [use]
    omega
  have hend : r₁.field + r₁.nameLen ≤ p + (k ++ [58]).length := by
    rw [← hr₁]
    simp [use]
  obtain ⟨r',hvalue,hreq⟩ := value_leads relaxed hlen hend hv hblank hpad
    ((List.prefix_append _ [13]).trans (prefix_after hfront))
  refine ⟨r',(hname.trans hvalue).trans (hfeed.leads rfl),?_⟩
  rw [hreq, ← hr₁]
  dsimp only [use]
  rw [hkey]

end Field

end Stages

end Gudov
