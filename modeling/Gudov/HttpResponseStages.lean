import Gudov.HttpClientPhases
import Gudov.HttpResponseParser
import Gudov.HttpRoundTrip

/-!
# The parts of a response as the machine reads them

What the response parser makes of each part of a printed head, wherever it stands in the
buffer and whatever follows it. A header line is read alike by `fields` and by the rule of its
name, for both record the same stretches; they differ in what the rule adds.
-/
namespace Gudov.HttpClient
open ActionMachine HttpResponseParser
open Http11 (byte any digit space)

/-! ## Names -/

theorem anyCase_has {c : UInt8} {ds : List UInt8} (h : (anyCase ds).has c = true) :
    ∃ d ∈ ds, toLower c = toLower d := by
  induction ds with
  | nil => cases h
  | cons d ds ih =>
    rw [anyCase, List.foldr_cons, ByteSet.has, Bool.or_eq_true] at h
    rcases h with h | h
    · exact ⟨d,by simp,eitherCase_has h⟩
    · obtain ⟨e,he,hce⟩ := ih h
      exact ⟨e,by simp [he],hce⟩

theorem beginnings_spec : ∀ u ∈ beginnings,
    u ≠ [] ∧ (u.dropLast = [] ∨ u.dropLast ∈ beginnings) ∧ u.map toLower = u := by
  decide +kernel

theorem mem_continuations {w : List UInt8} {d : UInt8} :
    d ∈ continuations w ↔ w ++ [d] ∈ beginnings := by
  simp only [continuations, List.mem_filterMap]
  constructor
  · rintro ⟨u,hu,hd⟩
    split at hd
    next hw =>
      rw [← hw, List.dropLast_append_getLast? d hd]
      exact hu
    next => cases hd
  · intro h
    exact ⟨w ++ [d],h,by simp⟩

theorem lower_of_continuation {w : List UInt8} {d : UInt8} (h : d ∈ continuations w) :
    toLower d = d := by
  have hlower := (beginnings_spec _ (mem_continuations.mp h)).2.2
  rw [List.map_append, List.map_singleton] at hlower
  exact List.singleton_inj.mp (List.append_inj_right' hlower rfl)

/-- Where the first bytes of a name lead. -/
def namePhase (w : List UInt8) : Phase :=
  if beginnings.contains (w.map toLower) then .word (w.map toLower) else .name

theorem namePhase_eq (w : List UInt8) : namePhase w =
    if w.map toLower ∈ beginnings then .word (w.map toLower) else .name := by
  simp only [namePhase, List.contains_iff_mem]

/-- The phases in which a line may begin. -/
def LineStart (q : Phase) : Prop := q = .firstLine ∨ q = .line

section Names
variable {q : Phase} {c : UInt8} {k w : List UInt8}

theorem rows_subset : statusRows ⊆ rows ∧ nameRows ⊆ rows ∧ valueRows ⊆ rows ∧
    connectionRows ⊆ rows ∧ lengthRows ⊆ rows ∧ endRows ⊆ rows := by
  refine ⟨?_,?_,?_,?_,?_,?_⟩ <;>
  · intro row hrow
    simp [rows, hrow]

theorem wordRows_subset (hw : w ∈ beginnings) : wordRows w ⊆ rows := by
  intro row hrow
  have hmem : row ∈ beginnings.flatMap wordRows := List.mem_flatMap.mpr ⟨w,hw,hrow⟩
  simp [rows, hmem]

/-- A byte that goes on with no rule. -/
theorem not_anyCase (h : w.map toLower ++ [toLower c] ∉ beginnings) :
    (anyCase (continuations (w.map toLower))).has c = false := by
  rw [Bool.eq_false_iff]
  intro hany
  obtain ⟨d,hd,hcd⟩ := anyCase_has hany
  rw [lower_of_continuation hd] at hcd
  rw [hcd] at h
  exact h (mem_continuations.mp hd)

theorem name_first (hq : LineStart q) (hc : token.has c = true) :
    Listed rows q c (namePhase [c]) [.startField] := by
  have hsub : lineRows q ⊆ rows := by
    intro row hrow
    apply rows_subset.2.1
    rcases hq with rfl | rfl <;> simp [nameRows, hrow]
  by_cases hb : [toLower c] ∈ beginnings
  · rw [namePhase_eq, if_pos (by simpa using hb)]
    refine Listed.of_mem ⟨q,eitherCase (toLower c),toLower c,.word [toLower c],[.startField]⟩
      (hsub ?_) (eitherCase_self c)
    simp only [lineRows, List.mem_append, List.mem_map]
    exact .inl ⟨toLower c,mem_continuations.mpr hb,rfl⟩
  · rw [namePhase_eq, if_neg (by simpa using hb)]
    refine Listed.of_mem ⟨q,.diff token (anyCase (continuations [])),33,.name,[.startField]⟩
      (hsub (by simp [lineRows])) ?_
    have hany : (anyCase (continuations [])).has c = false := not_anyCase (w := []) hb
    rw [ByteSet.has, hc, hany]
    rfl

theorem name_next (hw : w ≠ []) (hc : token.has c = true) :
    Listed rows (namePhase w) c (namePhase (w ++ [c])) [] := by
  have hmap : (w ++ [c]).map toLower = w.map toLower ++ [toLower c] := by simp
  rw [namePhase_eq, namePhase_eq, hmap]
  by_cases hb : w.map toLower ∈ beginnings
  · rw [if_pos hb]
    by_cases hnext : w.map toLower ++ [toLower c] ∈ beginnings
    · rw [if_pos hnext]
      refine Listed.of_mem ⟨.word (w.map toLower),eitherCase (toLower c),toLower c,
        .word (w.map toLower ++ [toLower c]),[]⟩ (wordRows_subset hb ?_) (eitherCase_self c)
      simp only [wordRows, List.mem_append, List.mem_map]
      exact .inl ⟨toLower c,mem_continuations.mpr hnext,rfl⟩
    · rw [if_neg hnext]
      refine Listed.of_mem ⟨.word (w.map toLower),
        .diff token (anyCase (continuations (w.map toLower))),33,.name,[]⟩
        (wordRows_subset hb (by simp [wordRows])) ?_
      rw [ByteSet.has, hc, not_anyCase hnext]
      rfl
  · have hnext : w.map toLower ++ [toLower c] ∉ beginnings := by
      intro hmem
      have hprefix := (beginnings_spec _ hmem).2.1
      rw [List.dropLast_concat] at hprefix
      rcases hprefix with h | h
      · exact hw (List.map_eq_nil_iff.mp h)
      · exact hb h
    rw [if_neg hb, if_neg hnext]
    exact Listed.of_mem ⟨.name,token,33,.name,[]⟩ (rows_subset.2.1 (by simp [nameRows])) hc

theorem name_walk (hw : w ≠ []) (hk : ∀ c ∈ k, token.has c = true) :
    Walk rows (namePhase w) k (namePhase (w ++ k)) := by
  induction k generalizing w with
  | nil =>
    rw [List.append_nil]
    exact Walk.nil _
  | cons c k ih =>
    have hrest := ih (w := w ++ [c]) (by simp) fun d hd => hk d (by simp [hd])
    rw [List.append_assoc, List.singleton_append] at hrest
    exact (name_next hw (hk c (by simp))).walk hrest

/-- The colon behind a name without a rule. -/
theorem name_colon (hk : k.map toLower ∉ ruled) :
    Listed rows (namePhase k) 58 .value0 [.writeField] := by
  rw [namePhase_eq]
  split
  next hb =>
    exact Listed.of_mem (c := 58) ⟨.word (k.map toLower),byte 58,58,.value0,[.writeField]⟩
      (wordRows_subset hb (by simp [wordRows, hk])) rfl
  next =>
    exact Listed.of_mem (c := 58) ⟨.name,byte 58,58,.value0,[.writeField]⟩
      (rows_subset.2.1 (by simp [nameRows])) rfl

end Names

/-! ## What is read -/

/-- How the parser stands behind the first `p` bytes of a head. -/
structure Behind (p : ℕ) (h : HttpResponseParser) : Prop where
  mark_le : h.parser.mark ≤ p
  fieldStart_le : h.parser.fieldStart ≤ p
  fieldLen_le : h.parser.fieldLen ≤ p
  bodyStart_le : h.parser.bodyStart ≤ p
  chunked : h.parser.chunked = false
  nread : h.parser.nread = 0
  error : h.error = 0

/-- The bytes lead from one phase to another and change the response, wherever they stand
in the buffer. -/
def Reads (q : Phase) (w : List UInt8) (q' : Phase) (f : HttpResponse → HttpResponse) : Prop :=
  ∀ data p h, data.length < 2 ^ 31 → w <+: data.drop p → Behind p h →
    ∃ h', Leads Phase.state (act data) breaks q p h w q' h' ∧ Behind (p + w.length) h' ∧
      h'.data = f h.data

theorem Reads.nil (q : Phase) : Reads q [] q id := by
  intro data p h _ _ hb
  exact ⟨h,fun v => rfl,hb,rfl⟩

theorem Reads.trans {q q' q'' : Phase} {w v : List UInt8} {f g : HttpResponse → HttpResponse}
    (h : Reads q w q' f) (h' : Reads q' v q'' g) : Reads q (w ++ v) q'' (g ∘ f) := by
  intro data p x hdata hw hx
  obtain ⟨y,hlead,hy,hyf⟩ := h data p x hdata ((List.prefix_append w v).trans hw) hx
  obtain ⟨z,hlead',hz,hzg⟩ := h' data _ y hdata (prefix_after hw) hy
  refine ⟨z,hlead.trans hlead',?_,?_⟩
  · rw [List.length_append, ← Nat.add_assoc]
    exact hz
  · rw [hzg, hyf, Function.comp_apply]

/-! ## Numbers -/

section Number
variable {n : ℕ} {c : UInt8} {rest : List UInt8}

theorem decimal_digit_number {c : UInt8} (hc : 48 ≤ c.toNat ∧ c.toNat ≤ 57) :
    digitValue c < 10 ∧ space.has c = false ∧ digit.has c = true ∧ c ≠ 45 ∧ c ≠ 43 ∧
      (Char.ofNat c.toNat).toNat - 48 = digitValue c :=
  byte_cases (P := fun c => 48 ≤ c.toNat ∧ c.toNat ≤ 57 → digitValue c < 10 ∧ space.has c = false ∧
    digit.has c = true ∧ c ≠ 45 ∧ c ≠ 43 ∧ (Char.ofNat c.toNat).toNat - 48 = digitValue c)
    (by decide +kernel) c hc

theorem foldl_decimal (n : ℕ) : (decimal n).foldl (fun m c => m * 10 + digitValue c) 0 = n := by
  have hread := fromDecimal_decimal n
  rw [fromDecimal, Nat.ofDigitChars_eq_foldl, List.foldl_map] at hread
  conv_rhs => rw [← hread]
  apply List.foldl_ext
  intro m c hc
  have hvalue := (decimal_digit_number (decimal_bounds hc)).2.2.2.2.2
  change m * 10 + digitValue c = 10 * m + ((Char.ofNat c.toNat).toNat - 48)
  rw [hvalue, Nat.mul_comm]

theorem strtol_decimal (n : ℕ) (hn : n < 2 ^ 63) (hc : ¬ digitValue c < 10) :
    strtol 10 (decimal n ++ c :: rest) = n := by
  have hdigits : ∀ d ∈ decimal n, decide (digitValue d < 10) = true :=
    fun d hd => decide_eq_true (decimal_digit_number (decimal_bounds hd)).1
  have htake : (decimal n ++ c :: rest).takeWhile (fun d => digitValue d < 10) = decimal n := by
    rw [List.takeWhile_append_of_pos hdigits, List.takeWhile_cons_of_neg (by simpa using hc),
      List.append_nil]
  have hskip : ∀ w, skipPrefix 10 w = w := by
    intro w
    unfold skipPrefix
    split <;> rfl
  have hvalue : strtoul 10 (decimal n ++ c :: rest) = n := by
    rw [strtoul, hskip, htake, foldl_decimal]
  cases hdec : decimal n with
  | nil => exact absurd hdec (decimal_ne_nil n)
  | cons d ds =>
    have hmem : d ∈ decimal n := hdec ▸ List.mem_cons_self
    obtain ⟨_,hspace,_,hminus,hplus,_⟩ := decimal_digit_number (decimal_bounds hmem)
    rw [hdec] at hvalue
    unfold strtol
    rw [List.cons_append] at hvalue ⊢
    rw [List.dropWhile_cons_of_neg (by simp [hspace])]
    split
    next heq => exact absurd (List.cons.inj heq).1 hminus
    next heq => exact absurd (List.cons.inj heq).1 hplus
    next => rw [hvalue]; omega

end Number

/-! ## The status line -/

section Parts
variable {data w k v : List UInt8} {p n : ℕ} {q q' : Phase} {a : Action} {x y : HttpResponseParser}

theorem text_prefix (hdata : data.length < 2 ^ 31) (hne : w ≠ []) (hw : w <+: data.drop p) :
    HttpRequestParser.text data p w.length = .ok w := by
  have hlen := hw.length_le
  have hpos := List.length_pos_iff.mpr hne
  rw [List.length_drop] at hlen
  unfold HttpRequestParser.text
  rw [if_neg (by omega), if_neg (by omega), List.prefix_iff_eq_take.mp hw, List.length_take,
    Nat.min_eq_left hw.length_le]

theorem perform_one (hact : act data a p x = .ok y) (ha : breaks a = false) :
    perform (act data) breaks p [a] x = .ok (false, y) := by
  simp [perform, hact, ha, bind, Except.bind]

theorem Behind.marked (hx : Behind p x) (n : ℕ) (r : HttpResponse) :
    Behind (p + n) ((x.setParser { x.parser with mark := p }).setData r) :=
  ⟨Nat.le_add_right _ _,Nat.le_add_right_of_le hx.fieldStart_le,
    Nat.le_add_right_of_le hx.fieldLen_le,Nat.le_add_right_of_le hx.bodyStart_le,hx.chunked,
    hx.nread,hx.error⟩

/-- The version with the blank behind it. -/
def versionPart (v : UInt8) : List UInt8 :=
  [72, 84, 84, 80, 47, 49, 46] ++ [if v = 0x10 then 48 else 49] ++ [32]

theorem version_reads {v : UInt8} (hv : v = 0x10 ∨ v = 0x11) :
    Reads (.version 0) (versionPart v) .status0 fun r => { r with version := v } := by
  intro data p h hdata hw hb
  generalize hd : (if v = 0x10 then 48 else 49 : UInt8) = d
  have hsplit : versionPart v = [72] ++ [84, 84, 80, 47, 49, 46, d] ++ [32] := by
    rw [versionPart, hd]
    rfl
  have hdigit : d = 48 ∨ d = 49 := by
    rcases hv with rfl | rfl
    · exact .inl hd.symm
    · exact .inr hd.symm
  rw [hsplit] at hw ⊢
  have hmark : Listed rows (.version 0) 72 (.version 1) [.mark] :=
    Listed.of_mem (c := 72) ⟨.version 0,byte 72,72,.version 1,[.mark]⟩
      (rows_subset.1 (by simp [statusRows])) rfl
  have hwalk : Walk rows (.version 1) [84, 84, 80, 47, 49, 46, d] (.version 8) := by
    have hstatus : Walk statusRows (.version 1) [84, 84, 80, 47, 49, 46, d] (.version 8) := by
      apply follow_walk
      rcases hdigit with rfl | rfl <;> decide
    exact hstatus.mono rows_subset.1
  have hblank : Listed rows (.version 8) 32 .status0 [.httpVersion] :=
    Listed.of_mem (c := 32) ⟨.version 8,byte 32,32,.status0,[.httpVersion]⟩
      (rows_subset.1 (by simp [statusRows])) rfl
  have htoken := slice_token ((List.prefix_append _ [32]).trans hw)
  have hversion : HttpRequestParser.versionOf ([72] ++ [84, 84, 80, 47, 49, 46, d]) = some v := by
    rcases hv with rfl | rfl
    · rw [← hd]
      decide
    · rw [← hd]
      decide
  have hstart : Leads Phase.state (act data) breaks (.version 0) p h [72] (.version 1)
      (h.setParser { h.parser with mark := p }) := hmark.leads rows_hold rfl
  have hnumber := hstart.trans (hwalk.leads rows_hold)
  have hact : act data .httpVersion (p + ([72] ++ [84, 84, 80, 47, 49, 46, d]).length)
      (h.setParser { h.parser with mark := p }) =
        .ok ((h.setParser { h.parser with mark := p }).setData { h.data with version := v }) := by
    change onResponseVersion data p (HttpRequestParser.len p _) _ = _
    rw [len_eq (Nat.le_add_right _ _)]
    rw [Reading.slice] at htoken
    rw [onResponseVersion, htoken, hversion]
    rfl
  refine ⟨_,hnumber.trans (hblank.leads rows_hold (perform_one hact rfl)),hb.marked _ _,rfl⟩

theorem status_reads (hn : n < 2 ^ 63) :
    Reads .status0 (decimal n ++ [32]) .reason0 fun r => { r with status := longToInt n } := by
  intro data p h hdata hw hb
  obtain ⟨rest,hrest⟩ := hw
  have hnumber : strtol 10 (data.drop p) = n := by
    rw [← hrest, List.append_assoc]
    exact strtol_decimal n hn (by decide)
  have hdigits : ∀ c ∈ decimal n, digit.has c = true :=
    fun c hc => (decimal_digit_number (decimal_bounds hc)).2.2.1
  cases hdec : decimal n with
  | nil => exact absurd hdec (decimal_ne_nil n)
  | cons c w =>
    rw [hdec] at hdigits
    have hfirst : Listed rows .status0 c .status [.mark] :=
      Listed.of_mem ⟨.status0,digit,50,.status,[.mark]⟩ (rows_subset.1 (by simp [statusRows]))
        (hdigits c (by simp))
    have hwalk : Walk rows .status w .status := Walk.stay fun d hd =>
      Listed.of_mem ⟨.status,digit,50,.status,[]⟩ (rows_subset.1 (by simp [statusRows]))
        (hdigits d (by simp [hd]))
    have hblank : Listed rows .status 32 .reason0 [.statusCode] :=
      Listed.of_mem (c := 32) ⟨.status,byte 32,32,.reason0,[.statusCode]⟩
        (rows_subset.1 (by simp [statusRows])) rfl
    have hstart : Leads Phase.state (act data) breaks .status0 p h [c] .status
        (h.setParser { h.parser with mark := p }) := hfirst.leads rows_hold rfl
    have hact : act data .statusCode (p + ([c] ++ w).length)
        (h.setParser { h.parser with mark := p }) =
          .ok ((h.setParser { h.parser with mark := p }).setData
            { h.data with status := longToInt n }) := by
      change onResponseStatus data p _ = _
      rw [onResponseStatus, hnumber]
      rfl
    refine ⟨_,(hstart.trans (hwalk.leads rows_hold)).trans
      (hblank.leads rows_hold (perform_one hact rfl)),hb.marked _ _,rfl⟩

theorem reason_reads (hne : w ≠ []) (hv : ∀ c ∈ w, valueByte.has c = true) :
    Reads .reason0 (w ++ [13, 10]) .firstLine fun r => { r with reason := w } := by
  intro data p h hdata hw hb
  have htext := text_prefix hdata hne ((List.prefix_append w _).trans hw)
  cases w with
  | nil => exact absurd rfl hne
  | cons c w =>
    have hfirst : Listed rows .reason0 c .reason [.mark] :=
      Listed.of_mem ⟨.reason0,valueByte,79,.reason,[.mark]⟩ (rows_subset.1 (by simp [statusRows]))
        (hv c (by simp))
    have hwalk : Walk rows .reason w .reason := Walk.stay fun d hd =>
      Listed.of_mem ⟨.reason,valueByte,79,.reason,[]⟩ (rows_subset.1 (by simp [statusRows]))
        (hv d (by simp [hd]))
    have hreturn : Listed rows .reason 13 .reasonEnd [.reasonPhrase] :=
      Listed.of_mem (c := 13) ⟨.reason,byte 13,13,.reasonEnd,[.reasonPhrase]⟩
        (rows_subset.1 (by simp [statusRows])) rfl
    have hfeed : Listed rows .reasonEnd 10 .firstLine [] :=
      Listed.of_mem (c := 10) ⟨.reasonEnd,byte 10,10,.firstLine,[]⟩
        (rows_subset.1 (by simp [statusRows])) rfl
    have hstart : Leads Phase.state (act data) breaks .reason0 p h [c] .reason
        (h.setParser { h.parser with mark := p }) := hfirst.leads rows_hold rfl
    have hact : act data .reasonPhrase (p + ([c] ++ w).length)
        (h.setParser { h.parser with mark := p }) =
          .ok ((h.setParser { h.parser with mark := p }).setData
            { h.data with reason := c :: w }) := by
      change onResponseReason data p (HttpRequestParser.len p _) _ = _
      rw [len_eq (Nat.le_add_right _ _), Nat.add_sub_cancel_left, onResponseReason,
        List.singleton_append, htext]
      rfl
    have hend := ((hstart.trans (hwalk.leads rows_hold)).trans
      (hreturn.leads rows_hold (perform_one hact rfl))).trans (hfeed.leads rows_hold rfl)
    have hsplit : [c] ++ w ++ [13] ++ [10] = c :: w ++ [13, 10] := by simp
    rw [hsplit] at hend
    refine ⟨_,hend,hb.marked _ _,rfl⟩

/-! ## Header lines -/

/-- The actions with which a line begins. -/
def Opens (acts : List Action) : Prop :=
  acts = [.startField] ∨ acts = [.writeConnectionClose, .startField]

/-- The actions behind a value. -/
def Closes (acts : List Action) : Prop :=
  acts = [.writeValue] ∨ acts = [.writeContentLen, .writeValue]

theorem Opens.performs {acts : List Action} (h : Opens acts) (data : List UInt8) (p : ℕ)
    (x : HttpResponseParser) : ∃ b,
    perform (act data) breaks p acts x =
      .ok (false, x.setParser { x.parser with fieldStart := p, close := b }) := by
  rcases h with rfl | rfl
  · exact ⟨x.parser.close,rfl⟩
  · exact ⟨true,rfl⟩

theorem Closes.performs {acts : List Action} (h : Closes acts) {f flen m vlen : ℕ}
    (hmark : x.parser.mark = m) (hf : x.parser.fieldStart = f) (hflen : x.parser.fieldLen = flen)
    (hvlen : HttpRequestParser.len m p = vlen) (hpos : flen ≠ 0)
    (hk : HttpRequestParser.text data f flen = .ok k)
    (hv : HttpRequestParser.text data m vlen = .ok v) : ∃ n,
    perform (act data) breaks p acts x =
      .ok (false, (x.setParser { x.parser with contentLen := n }).setData
        (x.data.setHeader k v)) := by
  have hfield : ∀ y : HttpResponseParser, y.parser.mark = m → y.parser.fieldStart = f →
      y.parser.fieldLen = flen →
        act data .writeValue p y = .ok (y.setData (y.data.setHeader k v)) := by
    intro y hym hyf hyl
    simp only [act, hym, hyf, hyl, hvlen, onResponseHttpField, if_neg hpos, hk, hv, ok_bind]
  rcases h with rfl | rfl
  · exact ⟨x.parser.contentLen,perform_one (hfield x hmark hf hflen) rfl⟩
  · refine ⟨longToInt (strtol 10 (data.drop x.parser.mark)),?_⟩
    exact perform_one (hfield _ hmark hf hflen) rfl

/-- A header line that the machine goes through in this way is read as a header. -/
theorem line_reads {c d : UInt8} {m₀ m₁ v₀ v₁ v₂ v₃ e : Phase} {acts acts' : List Action}
    (hfirst : Listed rows q c m₀ acts) (hopens : Opens acts) (hname : Walk rows m₀ k m₁)
    (hcolon : Listed rows m₁ 58 v₀ [.writeField]) (hblank : Listed rows v₀ 32 v₁ [.startValue])
    (hstart : Listed rows v₁ d v₂ [.startValue]) (hvalue : Walk rows v₂ v v₃)
    (hend : Listed rows v₃ 13 e acts') (hcloses : Closes acts') (hfeed : Listed rows e 10 q' []) :
    Reads q (HttpRequest.fieldLine [32] (c :: k, d :: v)) q'
      (HttpResponse.setHeader (c :: k) (d :: v)) := by
  intro data p h hdata hw hb
  have hline : HttpRequest.fieldLine [32] (c :: k, d :: v) =
      (((c :: k ++ [58]) ++ [32]) ++ (d :: v)) ++ [13, 10] := by
    simp [HttpRequest.fieldLine]
  rw [hline] at hw ⊢
  have hfront := (List.prefix_append _ [13, 10]).trans hw
  have hktext : HttpRequestParser.text data p (c :: k).length = .ok (c :: k) := by
    apply text_prefix hdata (by simp)
    refine List.IsPrefix.trans ?_ hfront
    exact ⟨[58] ++ [32] ++ (d :: v),by simp⟩
  have hvtext := text_prefix hdata (by simp) (prefix_after hfront)
  obtain ⟨b,hopen⟩ := hopens.performs data p h
  have hlead₁ := (hfirst.leads rows_hold hopen).trans (hname.leads rows_hold)
  have hlead₂ := ((hlead₁.trans (hcolon.leads rows_hold rfl)).trans
    (hblank.leads rows_hold rfl)).trans (hstart.leads rows_hold rfl)
  have hlead₃ := hlead₂.trans (hvalue.leads rows_hold)
  have hklen : HttpRequestParser.len p (p + ([c] ++ k).length) = (c :: k).length := by
    rw [len_eq (Nat.le_add_right _ _), Nat.add_sub_cancel_left]
    rfl
  have hvlen : HttpRequestParser.len (p + (c :: k ++ [58] ++ [32]).length)
      (p + ([c] ++ k ++ [58] ++ [32] ++ [d] ++ v).length) = (d :: v).length := by
    simp only [List.length_append, List.length_cons, List.length_nil]
    rw [len_eq (by omega)]
    omega
  obtain ⟨n,hclose⟩ : ∃ n, perform (act data) breaks
      (p + ([c] ++ k ++ [58] ++ [32] ++ [d] ++ v).length) acts'
      (h.setParser { h.parser with
        fieldStart := p
        close := b
        fieldLen := HttpRequestParser.len p (p + ([c] ++ k).length)
        mark := p + (c :: k ++ [58] ++ [32]).length }) =
        .ok (false, (h.setParser { h.parser with
          fieldStart := p
          close := b
          fieldLen := HttpRequestParser.len p (p + ([c] ++ k).length)
          mark := p + (c :: k ++ [58] ++ [32]).length
          contentLen := n }).setData (h.data.setHeader (c :: k) (d :: v))) :=
    hcloses.performs rfl rfl hklen hvlen (by simp) hktext hvtext
  have hlead := (hlead₃.trans (hend.leads rows_hold hclose)).trans (hfeed.leads rows_hold rfl)
  have hsplit : [c] ++ k ++ [58] ++ [32] ++ [d] ++ v ++ [13] ++ [10] =
      c :: k ++ [58] ++ [32] ++ (d :: v) ++ [13, 10] := by
    simp
  rw [hsplit] at hlead
  refine ⟨_,hlead,?_,rfl⟩
  exact {
    mark_le := by
      change p + (c :: k ++ [58] ++ [32]).length ≤ _
      simp only [List.length_append, List.length_cons, List.length_nil]
      omega
    fieldStart_le := Nat.le_add_right _ _
    fieldLen_le := by
      change HttpRequestParser.len p (p + ([c] ++ k).length) ≤ _
      rw [hklen]
      simp only [List.length_append, List.length_cons, List.length_nil]
      omega
    bodyStart_le := Nat.le_add_right_of_le hb.bodyStart_le
    chunked := hb.chunked
    nread := hb.nread
    error := hb.error }

theorem field_reads (hq : LineStart q) (hk : k ≠ []) (hname : ∀ c ∈ k, token.has c = true)
    (hruled : k.map toLower ∉ ruled) (hv : ∀ c ∈ v, valueByte.has c = true)
    (hfirst : ∃ c, v.head? = some c ∧ valueFirst.has c = true) :
    Reads q (HttpRequest.fieldLine [32] (k, v)) .line (HttpResponse.setHeader k v) := by
  cases k with
  | nil => exact absurd rfl hk
  | cons c k =>
    cases v with
    | nil =>
      obtain ⟨d,hd,-⟩ := hfirst
      cases hd
    | cons d v =>
      have hd : valueFirst.has d = true := by
        obtain ⟨d',hd',hfirst⟩ := hfirst
        cases hd'
        exact hfirst
      have hsub : valueRows ⊆ rows := rows_subset.2.2.1
      exact line_reads (name_first hq (hname c (by simp))) (.inl rfl)
        (name_walk (by simp) fun e he => hname e (by simp [he])) (name_colon hruled)
        (Listed.of_mem (c := 32) ⟨.value0,byte 32,32,.valueBlank,[.startValue]⟩
          (hsub (by simp [valueRows])) rfl)
        (Listed.of_mem ⟨.valueBlank,valueFirst,97,.value,[.startValue]⟩
          (hsub (by simp [valueRows])) hd)
        (Walk.stay fun e he => Listed.of_mem ⟨.value,valueByte,97,.value,[]⟩
          (hsub (by simp [valueRows])) (hv e (by simp [he])))
        (Listed.of_mem (c := 13) ⟨.value,byte 13,13,.valueEnd,[.writeValue]⟩
          (hsub (by simp [valueRows])) rfl) (.inl rfl)
        (Listed.of_mem (c := 10) ⟨.valueEnd,byte 10,10,.line,[]⟩ (hsub (by simp [valueRows])) rfl)

/-- The phase behind the line `connection`. -/
def connectionEnd (close : Bool) : Phase := if close then .closeLine else .line

theorem connection_reads (hq : LineStart q) (close : Bool) :
    Reads q (HttpRequest.fieldLine [32]
        (bytes "connection", if close then bytes "close" else bytes "keep-alive"))
      (connectionEnd close)
      (HttpResponse.setHeader (bytes "connection")
        (if close then bytes "close" else bytes "keep-alive")) := by
  have hcons : bytes "connection" = 99 :: bytes "onnection" := by decide
  have hname : Walk rows (namePhase [99]) (bytes "onnection") (.word (bytes "connection")) := by
    have hwalk : Walk rows (namePhase [99]) (bytes "onnection")
        (namePhase ([99] ++ bytes "onnection")) := name_walk (by simp) (by decide +kernel)
    have hphase : namePhase ([99] ++ bytes "onnection") = .word (bytes "connection") := by
      decide +kernel
    rwa [hphase] at hwalk
  have hsub : connectionRows ⊆ rows := rows_subset.2.2.2.1
  have hcolon : Listed rows (.word (bytes "connection")) 58 .connection0 [.writeField] :=
    Listed.of_mem (c := 58) ⟨.word (bytes "connection"),byte 58,58,.connection0,[.writeField]⟩
      (hsub (by simp [connectionRows])) rfl
  have hblank : Listed rows .connection0 32 .connectionBlank [.startValue] :=
    Listed.of_mem (c := 32) ⟨.connection0,byte 32,32,.connectionBlank,[.startValue]⟩
      (hsub (by simp [connectionRows])) rfl
  have hfirst : Listed rows q 99 (namePhase [99]) [.startField] := name_first hq (by decide +kernel)
  rw [hcons]
  cases close with
  | true =>
    have hvalue : bytes "close" = 99 :: bytes "lose" := by decide
    have hlose : Walk connectionRows (.close 1) (bytes "lose") (.close 5) :=
      follow_walk (by decide +kernel)
    simp only [if_true, hvalue]
    exact line_reads hfirst (.inl rfl) hname hcolon hblank
      (Listed.of_mem (c := 99) ⟨.connectionBlank,byte 99,99,.close 1,[.startValue]⟩
        (hsub (by simp [connectionRows])) rfl) (hlose.mono hsub)
      (Listed.of_mem (c := 13) ⟨.close 5,byte 13,13,.closeEnd,[.writeValue]⟩
        (hsub (by simp [connectionRows])) rfl) (.inl rfl)
      (Listed.of_mem (c := 10) ⟨.closeEnd,byte 10,10,.closeLine,[]⟩
        (hsub (by simp [connectionRows])) rfl)
  | false =>
    have hvalue : bytes "keep-alive" = 107 :: bytes "eep-alive" := by decide
    have hbytes : ∀ c ∈ bytes "eep-alive", valueByte.has c = true := by decide +kernel
    have hvsub : valueRows ⊆ rows := rows_subset.2.2.1
    simp only [Bool.false_eq_true, if_false, hvalue]
    exact line_reads hfirst (.inl rfl) hname hcolon hblank
      (Listed.of_mem (c := 107) ⟨.connectionBlank,byte 107,107,.value,[.startValue]⟩
        (hsub (by simp [connectionRows])) rfl)
      (Walk.stay fun e he => Listed.of_mem ⟨.value,valueByte,97,.value,[]⟩
        (hvsub (by simp [valueRows])) (hbytes e he))
      (Listed.of_mem (c := 13) ⟨.value,byte 13,13,.valueEnd,[.writeValue]⟩
        (hvsub (by simp [valueRows])) rfl) (.inl rfl)
      (Listed.of_mem (c := 10) ⟨.valueEnd,byte 10,10,.line,[]⟩ (hvsub (by simp [valueRows])) rfl)

theorem length_reads (close : Bool) (n : ℕ) :
    Reads (connectionEnd close)
      (HttpRequest.fieldLine [32] (bytes "content-length", decimal n)) .line
      (HttpResponse.setHeader (bytes "content-length") (decimal n)) := by
  have hcons : bytes "content-length" = 99 :: bytes "ontent-length" := by decide
  have hname : Walk rows (namePhase [99]) (bytes "ontent-length")
      (.word (bytes "content-length")) := by
    have hwalk : Walk rows (namePhase [99]) (bytes "ontent-length")
        (namePhase ([99] ++ bytes "ontent-length")) := name_walk (by simp) (by decide +kernel)
    have hphase : namePhase ([99] ++ bytes "ontent-length") = .word (bytes "content-length") := by
      decide +kernel
    rwa [hphase] at hwalk
  have hword : namePhase [99] = .word [99] := by decide +kernel
  obtain ⟨acts,hopens,hfirst⟩ : ∃ acts, Opens acts ∧
      Listed rows (connectionEnd close) 99 (namePhase [99]) acts := by
    cases close with
    | true =>
      refine ⟨_,.inr rfl,?_⟩
      rw [hword]
      exact Listed.of_mem (c := 99)
        ⟨.closeLine,byte 99,99,.word [99],[.writeConnectionClose, .startField]⟩
        (rows_subset.2.2.2.2.2 (by simp [endRows])) rfl
    | false => exact ⟨_,.inl rfl,name_first (.inr rfl) (by decide +kernel)⟩
  have hsub : lengthRows ⊆ rows := rows_subset.2.2.2.2.1
  have hdigits : ∀ c ∈ decimal n, digit.has c = true :=
    fun c hc => (decimal_digit_number (decimal_bounds hc)).2.2.1
  cases hdec : decimal n with
  | nil => exact absurd hdec (decimal_ne_nil n)
  | cons d v =>
    rw [hdec] at hdigits
    rw [hcons]
    exact line_reads hfirst hopens hname
      (Listed.of_mem (c := 58) ⟨.word (bytes "content-length"),byte 58,58,.length0,[.writeField]⟩
        (hsub (by simp [lengthRows])) rfl)
      (Listed.of_mem (c := 32) ⟨.length0,byte 32,32,.lengthBlank,[.startValue]⟩
        (hsub (by simp [lengthRows])) rfl)
      (Listed.of_mem ⟨.lengthBlank,digit,49,.length,[.startValue]⟩ (hsub (by simp [lengthRows]))
        (hdigits d (by simp)))
      (Walk.stay fun e he => Listed.of_mem ⟨.length,digit,49,.length,[]⟩
        (hsub (by simp [lengthRows])) (hdigits e (by simp [he])))
      (Listed.of_mem (c := 13) ⟨.length,byte 13,13,.valueEnd,[.writeContentLen, .writeValue]⟩
        (hsub (by simp [lengthRows])) rfl) (.inr rfl)
      (Listed.of_mem (c := 10) ⟨.valueEnd,byte 10,10,.line,[]⟩
        (rows_subset.2.2.1 (by simp [valueRows])) rfl)

/-- The empty line ends the head, whatever is behind it. -/
theorem last_exec (data v : List UInt8) (close : Bool) (hx : Behind p x) (q : Phase)
    (hq : q = connectionEnd close ∨ q = .line) : ∃ t y, isFirstFinal t = true ∧ Behind (p + 2) y ∧
      y.parser.mark ≤ p ∧ y.parser.fieldStart ≤ p ∧ y.data = x.data ∧
      exec (act data) breaks q.state ([13, 10] ++ v) p x = .ok (t, p + 2, y) := by
  have hsub : endRows ⊆ rows := rows_subset.2.2.2.2.2
  obtain ⟨acts,b,hreturn,hperform⟩ : ∃ acts b, Listed rows q 13 .last acts ∧
      perform (act data) breaks p acts x =
        .ok (false, x.setParser { x.parser with close := b }) := by
    have hline : q = .line → ∃ acts b, Listed rows q 13 .last acts ∧
        perform (act data) breaks p acts x =
          .ok (false, x.setParser { x.parser with close := b }) := by
      rintro rfl
      exact ⟨[],x.parser.close,Listed.of_mem (c := 13) ⟨.line,byte 13,13,.last,[]⟩
        (hsub (by simp [endRows])) rfl,rfl⟩
    rcases hq with rfl | hq
    · cases close with
      | true =>
        exact ⟨[.writeConnectionClose],true,Listed.of_mem (c := 13)
          ⟨.closeLine,byte 13,13,.last,[.writeConnectionClose]⟩ (hsub (by simp [endRows])) rfl,rfl⟩
      | false => exact hline rfl
    · exact hline hq
  obtain ⟨hacts,hfinal⟩ := last_step
  have hne : (Phase.last.state.step 10).1 ≠ [] := by
    intro hnil
    rw [hnil] at hfinal
    cases hfinal
  refine ⟨_,x.setParser { x.parser with close := b, bodyStart := p + 2 },hfinal,?_,hx.mark_le,
    hx.fieldStart_le,rfl,?_⟩
  · exact ⟨Nat.le_add_right_of_le hx.mark_le,Nat.le_add_right_of_le hx.fieldStart_le,
      Nat.le_add_right_of_le hx.fieldLen_le,Nat.le_refl _,hx.chunked,hx.nread,hx.error⟩
  · have hlead := hreturn.leads rows_hold hperform (10 :: v)
    have hdone : perform (act data) breaks (p + 1) (Phase.last.state.step 10).2
        (x.setParser { x.parser with close := b }) =
          .ok (true, x.setParser { x.parser with close := b, bodyStart := p + 2 }) := by
      rw [hacts]
      rfl
    rw [List.singleton_append] at hlead
    rw [List.cons_append, List.singleton_append, hlead]
    exact exec_cons_next hne hdone

end Parts

end Gudov.HttpClient
