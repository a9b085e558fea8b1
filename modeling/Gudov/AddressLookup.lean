import Gudov.CallOutcome
import Gudov.HttpMessage

/-!
# `Address::Lookup`

The host is cut into a node and a service, which are handed to `getaddrinfo`. There are two
stages. The first one looks for a bracket, but it tests the byte behind the closing bracket for
0 where a colon is meant, and steps over one byte more. The second one, which is taken when the
first has found no node, looks for a single colon; when there are more, it leaves the service at
the first of them.

A service is an offset into the host, as the code keeps a pointer. The byte behind the last one
is 0.
-/
namespace Gudov.AddressLookup

/-- The place of the first such byte, as an offset. -/
def memchr (c : UInt8) : List UInt8 → Option ℕ
  | [] => none
  | b :: bs => if b = c then some 0 else (memchr c bs).map (· + 1)

/-- `host[0] == '['`, and the node up to `]`. -/
def bracketStage (host : List UInt8) : List UInt8 × Option ℕ :=
  if host.head? = some 91 then
    match memchr 93 (host.drop 1) with
    | some k =>
      ((host.drop 1).take k, if (host ++ [0])[k + 2]? = some 0 then some (k + 3) else none)
    | none => ([], none)
  else ([], none)

/-- The node up to the only `:`. -/
def colonStage (host : List UInt8) : List UInt8 × Option ℕ :=
  match memchr 58 host with
  | some k =>
    match memchr 58 (host.drop (k + 1)) with
    | some _ => ([], some k)
    | none => (host.take k, some (k + 1))
  | none => ([], none)

def nodeAndService (host : List UInt8) : List UInt8 × Option ℕ :=
  let bracket := bracketStage host
  let found := if bracket.1.isEmpty then colonStage host else bracket
  (if found.1.isEmpty then host else found.1, found.2)

/-- The texts that are handed over; the service must begin inside the host. -/
def handed (host : List UInt8) : Except Fault (List UInt8 × Option (List UInt8)) :=
  match nodeAndService host with
  | (node, none) => .ok (node, none)
  | (node, some k) =>
    if k ≤ host.length then .ok (node, some (host.drop k)) else .error .outOfBounds

structure Hints where
  family : Int32
  socktype : Int32
  protocol : Int32

/-- `getaddrinfo` reads both texts up to their first 0; it returns an error, or the list of the
addresses that `Create` takes. -/
def lookup {A R : Type}
    (getaddrinfo : List UInt8 → Option (List UInt8) → Hints → Except Int32 (List A))
    (create : A → R) (result : List R) (host : List UInt8) (hints : Hints) :
    Except Fault (Bool × List R) := do
  let (node, service) ← handed host
  match getaddrinfo (cString node) (service.map cString) hints with
  | .error _ => .ok (false, result)
  | .ok found => .ok (true, result ++ found.map create)

/-! ## What a host stands for -/

/-- `[h]` or `[h]:s`. -/
def Bracketed (host : List UInt8) : Prop :=
  ∃ h, 93 ∉ h ∧ (host = 91 :: (h ++ [93]) ∨ ∃ s, host = 91 :: (h ++ 93 :: 58 :: s))

inductive Splits : List UInt8 → List UInt8 → Option (List UInt8) → Prop
  | bracket {h} (hh : 93 ∉ h) : Splits (91 :: (h ++ [93])) h none
  | bracketService {h s} (hh : 93 ∉ h) : Splits (91 :: (h ++ 93 :: 58 :: s)) h (some s)
  | service {h s} (hno : ¬ Bracketed (h ++ 58 :: s)) (hh : 58 ∉ h) (hs : 58 ∉ s) :
      Splits (h ++ 58 :: s) h (some s)
  | plain {host} (hno : ¬ Bracketed host) (hc : 58 ∉ host) : Splits host host none
  | bare {host} (hno : ¬ Bracketed host) (hc : 2 ≤ host.count 58) : Splits host host none

/-- What is handed over is what the host stands for. -/
def HandsOver (host : List UInt8) : Prop :=
  ∃ node service, handed host = .ok (node, service) ∧ Splits host node service

/-- At most one colon, which is not the first byte, and no brackets, unless the host begins with
`[]` and goes on with something else than a colon. -/
structure Simple (host : List UInt8) : Prop where
  colons : host.count 58 ≤ 1
  first : host.head? ≠ some 58
  brackets : host.head? = some 91 → 93 ∈ host → ∃ c w, host = 91 :: 93 :: c :: w ∧ c ≠ 58

section Scan
variable {c : UInt8} {h s w host : List UInt8}

theorem memchr_append (hc : c ∉ h) : memchr c (h ++ c :: s) = some h.length := by
  induction h with
  | nil => simp [memchr]
  | cons b h ih =>
    rw [List.mem_cons, not_or] at hc
    simp [memchr, Ne.symm hc.1, ih hc.2]

theorem memchr_none (hc : c ∉ h) : memchr c h = none := by
  induction h with
  | nil => rfl
  | cons b h ih =>
    rw [List.mem_cons, not_or] at hc
    simp [memchr, Ne.symm hc.1, ih hc.2]

theorem bracketStage_found (hh : 93 ∉ h) : bracketStage (91 :: (h ++ 93 :: w)) =
    (h, if w.head?.getD 0 = 0 then some (h.length + 3) else none) := by
  cases w with
  | nil => simp [bracketStage, memchr_append hh]
  | cons b w => by_cases hb : b = 0 <;> simp [bracketStage, memchr_append hh, hb]

theorem bracketStage_none (hno : host.head? = some 91 → 93 ∉ host) :
    bracketStage host = ([], none) := by
  unfold bracketStage
  split
  next hfirst =>
    have hdrop : 93 ∉ host.drop 1 := fun hmem => hno hfirst (List.mem_of_mem_drop hmem)
    rw [memchr_none hdrop]
  next => rfl

theorem colonStage_none (hc : 58 ∉ host) : colonStage host = ([], none) := by
  rw [colonStage, memchr_none hc]

theorem colonStage_one (hh : 58 ∉ h) (hs : 58 ∉ s) :
    colonStage (h ++ 58 :: s) = (h, some (h.length + 1)) := by
  simp [colonStage, memchr_append hh, memchr_none hs]

theorem colonStage_more (hh : 58 ∉ h) (hs : 58 ∈ s) :
    colonStage (h ++ 58 :: s) = ([], some h.length) := by
  obtain ⟨u,v,rfl,hu⟩ := List.eq_append_cons_of_mem hs
  simp [colonStage, memchr_append hh, memchr_append hu]

/-- A bracket that is closed at once counts as none. -/
theorem bracketStage_cases (host : List UInt8) :
    (∃ h w, host = 91 :: (h ++ 93 :: w) ∧ 93 ∉ h ∧ h ≠ []) ∨
      ((bracketStage host).1 = [] ∧
        (host.head? = some 91 → 93 ∈ host → ∃ w, host = 91 :: 93 :: w)) := by
  by_cases hopen : host.head? = some 91 ∧ 93 ∈ host
  · obtain ⟨hfirst,hmem⟩ := hopen
    cases host with
    | nil => cases hfirst
    | cons b host =>
      cases hfirst
      have hmem' : 93 ∈ host := by simpa using hmem
      obtain ⟨h,w,rfl,hh⟩ := List.eq_append_cons_of_mem hmem'
      cases h with
      | nil => exact .inr ⟨by rw [bracketStage_found hh],fun _ _ => ⟨w,rfl⟩⟩
      | cons d h => exact .inl ⟨d :: h,w,rfl,hh,List.cons_ne_nil d h⟩
  · refine .inr ⟨?_,fun hfirst hmem => absurd ⟨hfirst,hmem⟩ hopen⟩
    rw [bracketStage_none fun hfirst hmem => hopen ⟨hfirst,hmem⟩]

theorem handed_bracket (hh : 93 ∉ h) (hne : h ≠ []) : handed (91 :: (h ++ 93 :: w)) =
    match w with
    | [] => .error .outOfBounds
    | c :: w => .ok (h, if c = 0 then some w else none) := by
  have hnode : nodeAndService (91 :: (h ++ 93 :: w)) =
      (h, if w.head?.getD 0 = 0 then some (h.length + 3) else none) := by
    simp [nodeAndService, bracketStage_found hh, hne]
  rw [handed, hnode]
  cases w with
  | nil => simp
  | cons c w =>
    by_cases hc : c = 0
    · simp [hc]
    · simp [hc]

variable (hstage : (bracketStage host).1 = [])
include hstage

theorem nodeAndService_colon : nodeAndService host =
    (if (colonStage host).1.isEmpty then host else (colonStage host).1, (colonStage host).2) := by
  simp [nodeAndService, hstage]

theorem handed_plain (hc : 58 ∉ host) : handed host = .ok (host, none) := by
  rw [handed, nodeAndService_colon hstage, colonStage_none hc]
  rfl

theorem handed_one (heq : host = h ++ 58 :: s) (hh : 58 ∉ h) (hs : 58 ∉ s) :
    handed host = .ok (if h.isEmpty then host else h, some s) := by
  rw [handed, nodeAndService_colon hstage, heq, colonStage_one hh hs]
  simp

theorem handed_more (heq : host = h ++ 58 :: s) (hh : 58 ∉ h) (hs : 58 ∈ s) :
    handed host = .ok (host, some (58 :: s)) := by
  rw [handed, nodeAndService_colon hstage, heq, colonStage_more hh hs]
  simp

end Scan

section Exact
variable {h s w host : List UInt8}

/-- The node inside brackets is no beginning of the host that ends at a colon. -/
theorem bracket_ne_before (hh : 58 ∉ h) (w s : List UInt8) : 91 :: (h ++ w) ≠ h ++ 58 :: s := by
  intro heq
  have hat : (91 :: (h ++ w))[h.length]? = some 58 := by simp [heq]
  cases h with
  | nil => cases hat
  | cons b h =>
    rw [List.length_cons, List.getElem?_cons_succ] at hat
    have hmem : 58 ∈ b :: h := by
      rw [List.getElem?_append_left (by simp)] at hat
      exact List.mem_of_getElem? hat
    exact hh hmem

theorem Splits.of_some {node : List UInt8} (hsplits : Splits host node (some s)) :
    host = 91 :: (node ++ 93 :: 58 :: s) ∨
      (¬ Bracketed host ∧ host = node ++ 58 :: s ∧ 58 ∉ node) := by
  cases hsplits with
  | bracketService _ => exact .inl rfl
  | service hno hh _ => exact .inr ⟨hno,rfl,hh⟩

theorem Splits.of_none {node : List UInt8} (hsplits : Splits host node none) :
    host = 91 :: (node ++ [93]) ∨ (¬ Bracketed host ∧ node = host) := by
  cases hsplits with
  | bracket _ => exact .inl rfl
  | plain hno _ => exact .inr ⟨hno,rfl⟩
  | bare hno _ => exact .inr ⟨hno,rfl⟩

/-- A service goes with a part of the host. -/
theorem not_splits_whole : ¬ Splits host host (some s) := by
  intro hsplits
  rcases hsplits.of_some with heq | ⟨_,heq,_⟩
  · have hlen := congrArg List.length heq
    simp at hlen
    omega
  · have hlen := congrArg List.length heq
    simp at hlen

/-- With brackets around a node nothing is handed over as it should be. -/
theorem not_handsOver_bracket (hh : 93 ∉ h) (hne : h ≠ []) :
    ¬ HandsOver (91 :: (h ++ 93 :: w)) := by
  rintro ⟨node,service,hcall,hsplits⟩
  rw [handed_bracket hh hne] at hcall
  cases w with
  | nil => cases hcall
  | cons c w =>
    obtain ⟨rfl,rfl⟩ := Prod.mk.inj (Except.ok.inj hcall)
    by_cases hc : c = 0
    · rw [if_pos hc] at hsplits
      rcases hsplits.of_some with heq | ⟨_,heq,hcolon⟩
      · simp [hc] at heq
      · exact bracket_ne_before hcolon _ _ heq
    · rw [if_neg hc] at hsplits
      rcases hsplits.of_none with heq | ⟨_,heq⟩
      · simp at heq
      · have hlen := congrArg List.length heq
        simp at hlen
        omega

theorem simple_of_handsOver (hhands : HandsOver host) : Simple host := by
  rcases bracketStage_cases host with ⟨h,w,rfl,hh,hne⟩ | ⟨hstage,hopen⟩
  · exact absurd hhands (not_handsOver_bracket hh hne)
  obtain ⟨node,service,hcall,hsplits⟩ := hhands
  have hbrackets : ¬ Bracketed host → host.head? = some 91 → 93 ∈ host →
      ∃ c w, host = 91 :: 93 :: c :: w ∧ c ≠ 58 := by
    intro hno hfirst hmem
    obtain ⟨w,rfl⟩ := hopen hfirst hmem
    cases w with
    | nil => exact absurd ⟨[],List.not_mem_nil,.inl rfl⟩ hno
    | cons c w =>
      refine ⟨c,w,rfl,?_⟩
      rintro rfl
      exact hno ⟨[],List.not_mem_nil,.inr ⟨w,rfl⟩⟩
  by_cases hcolon : 58 ∈ host
  · obtain ⟨h,s,heq,hh⟩ := List.eq_append_cons_of_mem hcolon
    by_cases hs : 58 ∈ s
    · rw [handed_more hstage heq hh hs] at hcall
      obtain ⟨rfl,rfl⟩ := Prod.mk.inj (Except.ok.inj hcall)
      exact absurd hsplits not_splits_whole
    · rw [handed_one hstage heq hh hs] at hcall
      obtain ⟨rfl,rfl⟩ := Prod.mk.inj (Except.ok.inj hcall)
      cases h with
      | nil => exact absurd hsplits not_splits_whole
      | cons b h =>
        have hno : ¬ Bracketed host := by
          rcases hsplits.of_some with heq' | ⟨hno,_⟩
          · exact absurd (heq'.symm.trans heq) (bracket_ne_before hh _ _)
          · exact hno
        refine ⟨?_,?_,hbrackets hno⟩
        · rw [heq, List.count_append, List.count_cons_self, List.count_eq_zero.mpr hh,
            List.count_eq_zero.mpr hs]
        · rw [heq, List.cons_append, List.head?_cons, ne_eq, Option.some.injEq]
          rintro rfl
          exact hh List.mem_cons_self
  · rw [handed_plain hstage hcolon] at hcall
    obtain ⟨rfl,rfl⟩ := Prod.mk.inj (Except.ok.inj hcall)
    have hno : ¬ Bracketed host := by
      rcases hsplits.of_none with heq | ⟨hno,_⟩
      · have hlen := congrArg List.length heq
        simp at hlen
        omega
      · exact hno
    refine ⟨?_,?_,hbrackets hno⟩
    · rw [List.count_eq_zero.mpr hcolon]
      exact Nat.zero_le 1
    · intro hfirst
      exact hcolon (List.mem_of_mem_head? hfirst)

theorem closed_at_once {v : List UInt8} (hh : 93 ∉ h)
    (heq : 91 :: (h ++ 93 :: w) = 91 :: 93 :: v) : h = [] := by
  cases h with
  | nil => rfl
  | cons b h =>
    have hb : b = 93 := (List.cons.inj (List.cons.inj heq).2).1
    exact absurd (by rw [hb]; exact List.mem_cons_self) hh

theorem Simple.not_bracketed (hsimple : Simple host) : ¬ Bracketed host := by
  rintro ⟨h,hh,heq⟩
  have hform : ∃ w, host = 91 :: (h ++ 93 :: w) ∧ (w = [] ∨ ∃ s, w = 58 :: s) := by
    rcases heq with rfl | ⟨s,rfl⟩
    · exact ⟨[],rfl,.inl rfl⟩
    · exact ⟨58 :: s,rfl,.inr ⟨s,rfl⟩⟩
  obtain ⟨w,rfl,hw⟩ := hform
  obtain ⟨c,w',heq',hc⟩ := hsimple.brackets rfl (by simp)
  cases closed_at_once hh heq'
  cases heq'
  rcases hw with hw | ⟨s,hw⟩
  · cases hw
  · cases hw
    exact hc rfl

theorem handsOver_of_simple (hsimple : Simple host) : HandsOver host := by
  have hno := hsimple.not_bracketed
  have hstage : (bracketStage host).1 = [] := by
    rcases bracketStage_cases host with ⟨h,w,rfl,hh,hne⟩ | ⟨hstage,_⟩
    · obtain ⟨c,w',heq,_⟩ := hsimple.brackets rfl (by simp)
      exact absurd (closed_at_once hh heq) hne
    · exact hstage
  by_cases hcolon : 58 ∈ host
  · obtain ⟨h,s,rfl,hh⟩ := List.eq_append_cons_of_mem hcolon
    have hs : 58 ∉ s := by
      have hcount := hsimple.colons
      rw [List.count_append, List.count_cons_self] at hcount
      exact List.count_eq_zero.mp (by omega)
    cases h with
    | nil => exact absurd rfl hsimple.first
    | cons b h => exact ⟨_,_,handed_one hstage rfl hh hs,.service hno hh hs⟩
  · exact ⟨host,none,handed_plain hstage hcolon,.plain hno hcolon⟩

/-- The resolver is then asked for what the host stands for. -/
theorem lookup_of_simple {A R : Type} (hsimple : Simple host)
    (getaddrinfo : List UInt8 → Option (List UInt8) → Hints → Except Int32 (List A))
    (create : A → R) (result : List R) (hints : Hints) :
    ∃ node service, Splits host node service ∧
      lookup getaddrinfo create result host hints =
        match getaddrinfo (cString node) (service.map cString) hints with
        | .error _ => .ok (false, result)
        | .ok found => .ok (true, result ++ found.map create) := by
  obtain ⟨node,service,hcall,hsplits⟩ := handsOver_of_simple hsimple
  refine ⟨node,service,hsplits,?_⟩
  rw [lookup, hcall]
  rfl

end Exact

/-- For every host: what is handed to `getaddrinfo`, with a service that begins inside the host,
is what the host stands for exactly when it has at most one colon, not as its first byte, and no
closed bracket, unless it begins with `[]` and goes on without a colon. -/
theorem handsOver_iff (host : List UInt8) : HandsOver host ↔ Simple host :=
  ⟨simple_of_handsOver,handsOver_of_simple⟩

/-- The service is lost, it is left in, and it points behind the host. -/
theorem not_handsOver : ¬ HandsOver (bytes "[::1]:80") ∧ ¬ HandsOver (bytes "::1") ∧
    handed (bytes "[::1]") = .error .outOfBounds := by
  refine ⟨?_,?_,by decide⟩
  · intro h
    obtain ⟨c,w,heq,_⟩ := (simple_of_handsOver h).brackets (by decide) (by decide)
    cases heq
  · intro h
    exact absurd (simple_of_handsOver h).colons (by decide)

end Gudov.AddressLookup
