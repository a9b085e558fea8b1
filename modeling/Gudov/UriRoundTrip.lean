import Gudov.UriRecorded

/-!
# Reading a printed URI

`ToString` leaves out a default port and empty parts, and prints the path of `GetPath`. What
`Create` makes of that text has the same getters, and prints the same text again.
-/
namespace Gudov.Uri
open ActionMachine UriParser Machine
open Http11 (digit)

section Printing
variable {u : Uri}

/-- The parts of the record fit the rules of a text without user information. -/
structure Printable (u : Uri) : Prop where
  scheme : (schemeText : Numbered).Accepts u.scheme
  userInfo : u.userInfo = []
  host : (UriParser.host : Numbered).Accepts u.host
  path : (pathAbempty : Numbered).Accepts u.path
  query : (star pcharSlash : Numbered).Accepts u.query
  fragment : (star pcharSlash : Numbered).Accepts u.fragment
  port : ∃ n : ℕ, u.port = n ∧ n < 10 ^ 9

/-- An empty part is not printed. -/
def nonempty (w : List UInt8) : Option (List UInt8) := if w.isEmpty then none else some w

/-- The components that `ToString` prints. -/
def printed (u : Uri) : Components where
  scheme := some u.scheme
  authority := some ⟨none, u.host, if u.isDefaultPort then none else some (decimalInt u.port)⟩
  path := u.getPath
  query := nonempty u.query
  fragment := nonempty u.fragment

/-- What is read back: a default port is gone, and the path is not empty. -/
def normal (u : Uri) : Uri :=
  { u with port := if u.isDefaultPort then 0 else u.port, path := u.getPath }

theorem nonempty_getD (w : List UInt8) : (nonempty w).getD [] = w := by
  cases w <;> rfl

theorem nonempty_text {c : UInt8} {w : List UInt8} :
    delimited c (nonempty w) = (if w.isEmpty then [] else [c]) ++ w := by
  cases w <;> rfl

theorem nonempty_mem {w v : List UInt8} (h : v ∈ nonempty w) : v = w := by
  rw [nonempty] at h
  split at h
  · cases h
  · exact (Option.some.inj h).symm

theorem printed_text (hu : u.userInfo = []) : (printed u).text = u.toString := by
  have hport : delimited colon (if u.isDefaultPort then none else some (decimalInt u.port)) =
      if u.isDefaultPort then [] else bytes ":" ++ decimalInt u.port := by
    split <;> rfl
  simp only [Components.text, Components.schemeText, Components.hierText, Components.queryText,
    Components.authorityText, Authority.text, Authority.userinfoText, printed, hport,
    nonempty_text, toString, hu, List.isEmpty_nil, if_true, List.append_nil, List.nil_append,
    List.append_assoc]
  rfl

theorem decimal_digit {n : ℕ} {c : UInt8} (h : c ∈ decimal n) : digit.has c = true := by
  have hbounds := decimal_bounds h
  have hset : digit = .range 48 57 := rfl
  rw [← ByteSet.hasNat_toNat, hset]
  simp only [ByteSet.hasNat, Bool.and_eq_true, Nat.ble_eq, UInt8.reduceToNat]
  omega

theorem Printable.getPath (hu : Printable u) : (pathAbempty : Numbered).Accepts u.getPath := by
  rw [Uri.getPath]
  split
  · refine accepts_seq.mpr ⟨bytes "/",[],rfl,?_,accepts_star_nil⟩
    exact accepts_opt.mpr (.inl (accepts_word_seq.mpr ⟨[],rfl,accepts_star_nil⟩))
  · exact hu.path

theorem Printable.valid (hu : Printable u) : (printed u).Valid := by
  obtain ⟨n,hport,_⟩ := hu.port
  refine ⟨?_,?_,hu.getPath,?_,?_⟩
  · rintro s ⟨⟩
    exact hu.scheme
  · rintro a ⟨⟩
    refine ⟨by simp,hu.host,?_⟩
    intro ds hds
    simp only at hds
    split at hds
    · cases hds
    · obtain rfl := Option.some.inj hds
      rw [hport]
      exact accepts_star_one.mpr fun c hc => decimal_digit hc
  · intro q hq
    rw [nonempty_mem hq]
    exact hu.query
  · intro f hf
    rw [nonempty_mem hf]
    exact hu.fragment

theorem portValue_decimal {n : ℕ} (hn : n < 10 ^ 9) : portValue (decimal n) = n := by
  rw [portValue, fromDecimal_decimal, Int.bmod_eq_of_le] <;> omega

theorem recorded_printed (hu : Printable u) : recorded (printed u) = normal u := by
  obtain ⟨n,hport,hn⟩ := hu.port
  have hrecord : recordPort (if u.isDefaultPort then none else some (decimalInt u.port)) 0 =
      if u.isDefaultPort then 0 else u.port := by
    split
    · rfl
    · rw [hport]
      show (if decimal n = [] then 0 else portValue (decimal n)) = (n : ℤ)
      rw [if_neg (decimal_ne_nil n), portValue_decimal hn]
  simp only [recorded, recordQuery, recordHier, recordAuthority, printed, normal, hrecord,
    hu.userInfo, nonempty_getD]
  rfl

/-- A printed text is read as the normal form of the URI. -/
theorem create_toString (hu : Printable u) : create u.toString = .ok (some (normal u)) := by
  obtain ⟨n,hport,_⟩ := hu.port
  have hempty : emptyPort (printed u) = false := by
    simp only [emptyPort, printed]
    split
    · rfl
    · rw [hport]
      simpa [decimalInt] using decimal_ne_nil n
  rw [← printed_text hu.userInfo, create_text hu.valid, hempty, recorded_printed hu]
  rfl

end Printing

section Normal
variable (u : Uri)

theorem normal_getPort : (normal u).getPort = u.getPort := by
  rw [normal, getPort, getPort, isDefaultPort]
  split_ifs <;> simp_all

theorem normal_getPath : (normal u).getPath = u.getPath := by
  have hne : u.getPath.isEmpty = false := by
    rw [getPath]
    split
    next => rfl
    next hpath => exact Bool.eq_false_iff.mpr hpath
  show (if u.getPath.isEmpty then bytes "/" else u.getPath) = u.getPath
  rw [hne]
  rfl

theorem normal_isDefaultPort : (normal u).isDefaultPort = u.isDefaultPort := by
  cases h : u.isDefaultPort with
  | true =>
    simp only [normal, h, if_true]
    rfl
  | false =>
    simp only [normal, h, Bool.false_eq_true, if_false]
    exact h

theorem normal_toString : (normal u).toString = u.toString := by
  have hport : (if (normal u).isDefaultPort then [] else bytes ":" ++ decimalInt (normal u).port) =
      if u.isDefaultPort then [] else bytes ":" ++ decimalInt u.port := by
    rw [normal_isDefaultPort]
    split
    · rfl
    · simp only [normal, *]
      rfl
  rw [toString, hport, normal_getPath]
  rfl

end Normal

/-- Behind `scheme://`, without user information, the record of an accepted text is printable. -/
theorem recorded_printable {c : Components} (hc : c.Valid) {s h : List UInt8}
    {o : Option (List UInt8)} (hs : c.scheme = some s) (ha : c.authority = some ⟨none, h, o⟩)
    (hlen : (writtenPort c).length ≤ 9) : Printable (recorded c) := by
  obtain ⟨scheme,authority,path,query,fragment⟩ := c
  subst hs ha
  have ha := hc.authority _ rfl
  have hport := recorded_port hc hlen
  refine ⟨hc.scheme s rfl,rfl,ha.host,hc.path,?_,?_,_,hport,?_⟩
  · cases query with
    | none => exact accepts_star_nil
    | some q => exact hc.query q rfl
  · cases fragment with
    | none => exact accepts_star_nil
    | some f => exact hc.fragment f rfl
  · cases o with
    | none => exact Nat.pow_pos (by decide)
    | some ds => exact (portValue_small (authority_digits ha ds rfl) hlen).2

/-- A URI that was read from `scheme://authority` without user information is read back from its
text with the same getters, and its text is a normal form. -/
theorem toString_reads_back {text : List UInt8} {u : Uri} {a : Authority}
    (hcreate : create text = .ok (some u)) (hscheme : (components text).scheme.isSome = true)
    (hauthority : (components text).authority = some a) (huserinfo : a.userinfo = none)
    (hport : (writtenPort (components text)).length ≤ 9) :
    ∃ u', create u.toString = .ok (some u') ∧ u'.scheme = u.scheme ∧ u'.userInfo = u.userInfo ∧
      u'.host = u.host ∧ u'.getPort = u.getPort ∧ u'.getPath = u.getPath ∧ u'.query = u.query ∧
      u'.fragment = u.fragment ∧ u'.toString = u.toString := by
  obtain ⟨hc,_,rfl,_⟩ := create_accepted hcreate
  obtain ⟨s,hs⟩ := Option.isSome_iff_exists.mp hscheme
  obtain ⟨ui,h,o⟩ := a
  subst huserinfo
  have hprintable := recorded_printable hc hs hauthority hport
  exact ⟨_,create_toString hprintable,rfl,rfl,rfl,normal_getPort _,normal_getPath _,rfl,rfl,
    normal_toString _⟩

/-- The default port and the empty query are dropped, and a path is printed. -/
theorem toString_reads_back_default :
    create (bytes "http://gudov.com:80?") = .ok (some
      { scheme := bytes "http", host := bytes "gudov.com", port := 80 }) ∧
    ∃ u', create (bytes "http://gudov.com/") = .ok (some u') ∧ u'.getPort = 80 ∧
      u'.toString = bytes "http://gudov.com/" := by
  have hcreate : create (bytes "http://gudov.com:80?") = .ok (some
      { scheme := bytes "http", host := bytes "gudov.com", port := 80 }) := by
    decide +kernel
  have hc : components (bytes "http://gudov.com:80?") =
      ⟨some (bytes "http"), some ⟨none, bytes "gudov.com", some (bytes "80")⟩, [], some [],
        none⟩ := by
    decide +kernel
  obtain ⟨u',hread,_,_,_,hport,_,_,_,htext⟩ := toString_reads_back
    (a := ⟨none, bytes "gudov.com", some (bytes "80")⟩) hcreate (by
      rw [hc]
      rfl) (by rw [hc]) rfl (by
      rw [hc]
      decide)
  exact ⟨hcreate,u',hread,hport,htext⟩

end Gudov.Uri
