import Gudov.Uri

/-!
# What `Uri::Create` records

The trace of an accepted text is performed part by part. The host and the port are recorded as
they stand in the text, and so is the path of a text with a scheme and an authority. An empty
port leaves the mark null, and the path behind it is taken from there.
-/
namespace Gudov.Uri
open ActionMachine UriParser UriParser.Action Machine
open Http11 (digit)

section Slices
variable {text w rest : List UInt8} {p : ℕ}

theorem slice_eq (h : text.drop p = w ++ rest) : slice text p (p + w.length) = w := by
  rw [slice, h, Nat.add_sub_cancel_left, List.take_left']
  rfl

theorem drop_eq (h : text.drop p = w ++ rest) : text.drop (p + w.length) = rest := by
  rw [← List.drop_drop, h, List.drop_left]

/-- The port that is recorded for digits. -/
def portValue (ds : List UInt8) : ℤ := (min (2 ^ 63 - 1) (fromDecimal ds : ℤ)).bmod (2 ^ 32)

theorem digit_not_space {c : UInt8} (h : digit.has c = true) :
    Http11.space.has c = false ∧ c ≠ 45 ∧ c ≠ 43 := by
  have hbounds : 48 ≤ c.toNat ∧ c.toNat ≤ 57 := by
    rw [← ByteSet.hasNat_toNat] at h
    simpa [digit, Http11.between, ByteSet.hasNat] using h
  refine ⟨?_,?_,?_⟩
  · rw [Bool.eq_false_iff]
    intro hs
    have hspace : Http11.space = .union (.range 9 13) (.union (.range 32 32) .empty) := rfl
    rw [← ByteSet.hasNat_toNat, hspace] at hs
    simp only [ByteSet.hasNat, Bool.or_eq_true, Bool.and_eq_true, Nat.ble_eq, Bool.or_false,
      UInt8.reduceToNat] at hs
    omega
  · rintro rfl
    simp at hbounds
  · rintro rfl
    simp at hbounds

theorem atoi_digits {ds : List UInt8} (hne : ds ≠ []) (hds : ∀ c ∈ ds, digit.has c = true)
    (hrest : ∀ c ∈ rest.head?, digit.has c = false) : atoi (ds ++ rest) = portValue ds := by
  have htake : (ds ++ rest).takeWhile digit.has = ds := by
    rw [List.takeWhile_append_of_pos hds]
    cases rest with
    | nil => simp
    | cons c rest => simp [hrest c rfl]
  cases ds with
  | nil => exact absurd rfl hne
  | cons d ds =>
    obtain ⟨hspace,hminus,hplus⟩ := digit_not_space (hds d (by simp))
    rw [List.cons_append] at htake ⊢
    have hsign : sign (d :: (ds ++ rest)) = (false, d :: (ds ++ rest)) := by
      simp [sign, hminus, hplus]
    rw [atoi, List.dropWhile_cons_of_neg (by simp [hspace]), hsign]
    simp only [htake, portValue, Bool.false_eq_true, if_false]

end Slices

section Playing
variable {text rest h path : List UInt8} {p n k : ℕ} {x : Parsing}

theorem play_cons {a : Action} {es : List (ℕ × Action)} :
    play (act text) ((p, a) :: es) x = act text a p x >>= play (act text) es := rfl

theorem play_nil : play (act text) [] x = .ok x := rfl

theorem act_markh : act text markh p x = .ok ⟨x.uri, some p⟩ := rfl

theorem act_marku : act text marku p x = .ok ⟨x.uri, some p⟩ := rfl

theorem act_saveHost {u : Uri} {m : ℕ} : act text saveHost p ⟨u, some m⟩ =
    .ok ⟨{ u with host := slice text m p }, some m⟩ := rfl

theorem act_savePath {u : Uri} {m : ℕ} : act text savePath p ⟨u, some m⟩ =
    .ok ⟨{ u with path := slice text m p }, none⟩ := rfl

/-- The recorded port. An empty one is not recorded. -/
def recordPort (o : Option (List UInt8)) (port : ℤ) : ℤ :=
  match o with
  | none => port
  | some ds => if ds = [] then port else portValue ds

/-- A host without a port, and the path behind it. -/
theorem play_host (hat : text.drop p = h ++ (path ++ rest)) :
    play (act text) (events (hostAndPortTrace p n h none ++
      frame (p + h.length) k markh savePath path)) x =
      .ok ⟨{ x.uri with host := h, path := path }, none⟩ := by
  have hhost := slice_eq hat
  have hpath := slice_eq (drop_eq hat)
  by_cases hh : h = []
  · subst hh
    have hevents : events (hostAndPortTrace p n [] none ++
        frame (p + ([] : List UInt8).length) k markh savePath path) =
        [(p, markh), (p, saveHost), (p + path.length, savePath)] := by
      simp [events, hostAndPortTrace, frame, delimitedFrame, List.eraseDups_cons]
    rw [hevents]
    rw [List.length_nil, Nat.add_zero] at hhost hpath
    simp only [play_cons, play_nil, act_markh, act_saveHost, act_savePath, ok_bind, hhost, hpath]
  · have hevents : events (hostAndPortTrace p n h none ++
        frame (p + h.length) k markh savePath path) =
        [(p, markh), (p + h.length, saveHost), (p + h.length, markh),
          (p + h.length + path.length, savePath)] := by
      simp [events, hostAndPortTrace, frame, delimitedFrame, List.eraseDups_cons, hh]
    rw [hevents]
    simp only [play_cons, play_nil, act_markh, act_saveHost, act_savePath, ok_bind, hhost, hpath]

theorem events_hostAndPort {ds : List UInt8} : events (hostAndPortTrace p n h (some ds)) =
    [(p, markh), (p + h.length, saveHost), (p + h.length + 1, markh),
      (p + h.length + 1 + ds.length, savePort)] := by
  have hne : ¬p + h.length + 1 = p := by omega
  simp [events, hostAndPortTrace, frame, delimitedFrame, List.eraseDups_cons, hne]

/-- The events of a host with a port, and of a path behind it. -/
theorem events_hostAndPort_path {ds : List UInt8} (hds : ds ≠ []) :
    events (hostAndPortTrace p n h (some ds) ++
      frame (p + h.length + 1 + ds.length) k markh savePath path) =
      [(p, markh), (p + h.length, saveHost), (p + h.length + 1, markh),
        (p + h.length + 1 + ds.length, savePort), (p + h.length + 1 + ds.length, markh),
        (p + h.length + 1 + ds.length + path.length, savePath)] := by
  rw [events_append, events_hostAndPort]
  · simp [events, frame, List.eraseDups_cons]
  · have hpos := List.length_pos_of_ne_nil hds
    intro y hy z hz
    simp only [hostAndPortTrace, frame, delimitedFrame, List.mem_append, List.mem_cons,
      List.not_mem_nil, or_false] at hy hz
    rcases hy with (rfl | rfl) | rfl | rfl <;> rcases hz with rfl | rfl <;> simp <;> omega

/-- The port is read where its digits end. -/
theorem act_savePort {u : Uri} {ds : List UInt8} (hne : ds ≠ [])
    (hds : ∀ c ∈ ds, digit.has c = true) (hrest : ∀ c ∈ rest.head?, digit.has c = false)
    (hat : text.drop p = ds ++ rest) : act text savePort (p + ds.length) ⟨u, some p⟩ =
      .ok ⟨{ u with port := portValue ds }, none⟩ := by
  have hother : ¬some p = some (p + ds.length) := by simp [hne]
  simp only [act, if_neg hother, hat, atoi_digits hne hds hrest]

/-- At an empty port the mark is where the action is. -/
theorem act_savePort_empty {u : Uri} : act text savePort p ⟨u, some p⟩ = .ok ⟨u, none⟩ := by
  simp [act]

section Port
variable {o : Option (List UInt8)}

/-- A host with its port, and the path behind them. -/
theorem play_hostAndPort (ho : ∀ ds ∈ o, ∀ c ∈ ds, digit.has c = true)
    (hat : text.drop p = h ++ (delimited colon o ++ (path ++ rest)))
    (hnext : ∀ c ∈ (path ++ rest).head?, digit.has c = false) :
    play (act text) (events (hostAndPortTrace p n h o ++
      frame (p + h.length + (delimited colon o).length) k markh savePath path)) x =
      if o = some [] then .error .nullString
      else .ok ⟨{ x.uri with host := h, port := recordPort o x.uri.port, path := path },
        none⟩ := by
  cases o with
  | none => exact play_host hat
  | some ds =>
    have hhost := slice_eq hat
    have hdigits : text.drop (p + h.length + 1) = ds ++ (path ++ rest) :=
      drop_eq (w := [colon]) (drop_eq hat)
    have hpath := slice_eq (drop_eq hdigits)
    have hlen : p + h.length + (delimited colon (some ds)).length =
        p + h.length + 1 + ds.length := by
      simp only [delimited, List.length_cons]
      omega
    rw [hlen]
    by_cases hds : ds = []
    · subst hds
      have hne : ¬p + h.length + 1 = p := by omega
      have hevents : events (hostAndPortTrace p n h (some []) ++
          frame (p + h.length + 1 + ([] : List UInt8).length) k markh savePath path) =
          [(p, markh), (p + h.length, saveHost), (p + h.length + 1, markh),
            (p + h.length + 1, savePort), (p + h.length + 1 + path.length, savePath)] := by
        simp [events, hostAndPortTrace, frame, delimitedFrame, List.eraseDups_cons, hne]
      rw [hevents, if_pos rfl]
      simp only [play_cons, act_markh, act_saveHost, act_savePort_empty, ok_bind]
      rfl
    · rw [events_hostAndPort_path hds, if_neg (by simpa using hds)]
      simp only [play_cons, play_nil, act_markh, act_saveHost, act_savePath, ok_bind, hhost,
        act_savePort hds (ho ds rfl) hnext hdigits, hpath, recordPort, if_neg hds]

/-- A host with its port, when the path is not recorded. -/
theorem play_hostAndPort_alone (ho : ∀ ds ∈ o, ∀ c ∈ ds, digit.has c = true)
    (hat : text.drop p = h ++ (delimited colon o ++ rest))
    (hnext : ∀ c ∈ rest.head?, digit.has c = false) :
    ∃ m, play (act text) (events (hostAndPortTrace p n h o)) x =
      .ok ⟨{ x.uri with host := h, port := recordPort o x.uri.port }, m⟩ := by
  have hhost := slice_eq hat
  cases o with
  | none =>
    have hevents : events (hostAndPortTrace p n h none) =
        [(p, markh), (p + h.length, saveHost)] := by
      simp [events, hostAndPortTrace, frame, delimitedFrame, List.eraseDups_cons]
    refine ⟨some p,?_⟩
    rw [hevents]
    simp only [play_cons, play_nil, act_markh, act_saveHost, ok_bind, hhost, recordPort]
  | some ds =>
    have hdigits : text.drop (p + h.length + 1) = ds ++ rest :=
      drop_eq (w := [colon]) (drop_eq hat)
    refine ⟨none,?_⟩
    rw [events_hostAndPort]
    by_cases hds : ds = []
    · subst hds
      simp only [play_cons, play_nil, act_markh, act_saveHost, ok_bind, hhost, recordPort,
        List.length_nil, Nat.add_zero, act_savePort_empty, if_true]
    · simp only [play_cons, play_nil, act_markh, act_saveHost, ok_bind, hhost, recordPort,
        act_savePort hds (ho ds rfl) hnext hdigits, if_neg hds]

end Port

section Userinfo
variable {ui : List UInt8}

/-- What is recorded as user information. Digits behind its first colon are marked as a port,
and the user information is taken from that mark. -/
def recordUserinfo (ui : List UInt8) : List UInt8 :=
  match ui.dropWhile (· ≠ colon) with
  | _ :: d :: r => if digit.has d then d :: r else ui
  | _ => ui

theorem recordUserinfo_free (hcolon : colon ∉ ui) : recordUserinfo ui = ui := by
  rw [recordUserinfo, DelimitedList.dropWhile_nil hcolon]

theorem recordUserinfo_colon {u r : List UInt8} (hu : colon ∉ u) :
    recordUserinfo (u ++ colon :: r) =
      if ∃ d ∈ r.head?, digit.has d = true then r else u ++ colon :: r := by
  have hdrop := DelimitedList.dropWhile_append hu r
  cases r with
  | nil =>
    rw [recordUserinfo, hdrop]
    simp
  | cons d r =>
    rw [recordUserinfo, hdrop]
    simp

theorem act_saveUserinfo {u : Uri} {m : ℕ} : act text saveUserinfo p ⟨u, some m⟩ =
    .ok ⟨{ u with userInfo := slice text m p }, none⟩ := rfl

/-- A user information with the actions of host and port on it. -/
theorem play_userinfo {i : ℕ} (hat : text.drop p = ui ++ rest) :
    ∃ h, play (act text) (events ((p, n, markh) :: (strayTrace p k ui ++
      [(p + ui.length, i, saveUserinfo)]))) x =
      .ok ⟨{ x.uri with userInfo := recordUserinfo ui, host := h }, none⟩ := by
  have hwhole := slice_eq hat
  by_cases hcolon : colon ∈ ui
  · obtain ⟨u,r,rfl,hu⟩ := List.eq_append_cons_of_mem hcolon
    have hrest : text.drop (p + u.length + 1) = r ++ rest := by
      rw [List.append_assoc] at hat
      exact drop_eq (w := [colon]) (drop_eq hat)
    have hlen : p + (u ++ colon :: r).length = p + u.length + 1 + r.length := by
      simp only [List.length_append, List.length_cons]
      omega
    have hne : ¬p + u.length + 1 = p := by omega
    rw [strayTrace_colon hu, recordUserinfo_colon hu]
    rw [hlen] at hwhole ⊢
    refine ⟨slice text p (p + u.length),?_⟩
    by_cases hdigit : ∃ d ∈ r.head?, digit.has d = true
    · obtain ⟨d,hd,hdigit⟩ := hdigit
      cases r with
      | nil => cases hd
      | cons d' r =>
        obtain rfl : d' = d := by simpa using hd
        have hevents : events ((p, n, markh) :: (((p, k, markh) ::
            (p + u.length, k + 1, saveHost) :: portStart (p + u.length + 1) (k + 2) (d' :: r)) ++
            [(p + u.length + 1 + (d' :: r).length, i, saveUserinfo)])) =
            [(p, markh), (p + u.length, saveHost), (p + u.length + 1, markh),
              (p + u.length + 1 + (d' :: r).length, saveUserinfo)] := by
          simp [events, portStart, hdigit, List.eraseDups_cons, hne]
        rw [hevents]
        simp only [play_cons, play_nil, act_markh, act_saveHost, act_saveUserinfo, ok_bind,
          slice_eq hrest]
        simp [hdigit]
    · have hstart : portStart (p + u.length + 1) (k + 2) r = [] := by
        cases r with
        | nil => rfl
        | cons d r => simpa [portStart] using hdigit
      have hevents : events ((p, n, markh) :: (((p, k, markh) ::
          (p + u.length, k + 1, saveHost) :: portStart (p + u.length + 1) (k + 2) r) ++
          [(p + u.length + 1 + r.length, i, saveUserinfo)])) =
          [(p, markh), (p + u.length, saveHost),
            (p + u.length + 1 + r.length, saveUserinfo)] := by
        simp [events, hstart, List.eraseDups_cons]
      rw [hevents, if_neg hdigit]
      simp only [play_cons, play_nil, act_markh, act_saveHost, act_saveUserinfo, ok_bind, hwhole]
  · refine ⟨x.uri.host,?_⟩
    have hevents : events ((p, n, markh) :: (strayTrace p k ui ++
        [(p + ui.length, i, saveUserinfo)])) =
        [(p, markh), (p + ui.length, saveUserinfo)] := by
      by_cases hui : ui = []
      · simp [events, strayTrace, hui, List.eraseDups_cons]
      · simp [events, strayTrace_free hui hcolon, List.eraseDups_cons]
    rw [hevents, recordUserinfo_free hcolon]
    simp only [play_cons, play_nil, act_markh, act_saveUserinfo, ok_bind, hwhole]

end Userinfo

section Authority
variable {a : Authority} {T : List (ℕ × ℕ × Action)}

/-- What is recorded of an authority. -/
def recordAuthority (a : Authority) (u : Uri) : Uri :=
  { u with
    userInfo := match a.userinfo with
      | none => u.userInfo
      | some ui => recordUserinfo ui
    host := a.host
    port := recordPort a.port u.port }

theorem hostAndPortTrace_position {q : ℕ} {o : Option (List UInt8)} {z : ℕ × ℕ × Action}
    (hz : z ∈ hostAndPortTrace q n h o) : q ≤ z.1 := by
  cases o with
  | none =>
    simp only [hostAndPortTrace, frame, delimitedFrame, List.append_nil, List.mem_cons,
      List.not_mem_nil, or_false] at hz
    rcases hz with rfl | rfl <;> simp
  | some ds =>
    simp only [hostAndPortTrace, frame, delimitedFrame, List.mem_append, List.mem_cons,
      List.not_mem_nil, or_false] at hz
    rcases hz with (rfl | rfl) | rfl | rfl <;> simp only <;> omega

/-- The user information is recorded before the host is read. -/
theorem play_authority_start (ha : a.Valid) (hat : text.drop p = a.text ++ rest)
    (hT : ∀ z ∈ T, p + a.text.length ≤ z.1) :
    ∃ y : Parsing, { y.uri with host := a.host, port := recordPort a.port y.uri.port } =
        recordAuthority a x.uri ∧
      play (act text) (events (a.trace p n ++ T)) x =
        play (act text) (events (hostAndPortTrace (p + a.userinfoText.length) (n + 2) a.host
          a.port ++ T)) y := by
  obtain ⟨ui,h,o⟩ := a
  cases ui with
  | none =>
    refine ⟨x,rfl,?_⟩
    exact congrArg (play (act text) · x) events_cons_self
  | some ui =>
    have hlen : (Authority.text ⟨some ui, h, o⟩).length =
        ui.length + 1 + (h ++ delimited colon o).length := by
      simp [Authority.text, Authority.userinfoText]
      omega
    have hui : text.drop p = ui ++ (atSign :: (h ++ delimited colon o) ++ rest) := by
      rw [hat]
      simp [Authority.text, Authority.userinfoText]
    obtain ⟨host,hplay⟩ := play_userinfo (x := x) (n := n) (k := n + 2) (i := n + 1) hui
    refine ⟨⟨{ x.uri with userInfo := recordUserinfo ui, host := host }, none⟩,rfl,?_⟩
    have hsplit : Authority.trace ⟨some ui, h, o⟩ p n ++ T =
        ((p, n, markh) :: (strayTrace p (n + 2) ui ++
          [(p + ui.length, n + 1, saveUserinfo)])) ++
        (hostAndPortTrace (p + ui.length + 1) (n + 2) h o ++ T) := by
      simp [Authority.trace]
    rw [hsplit, events_append, play_append, hplay, ok_bind]
    · simp [Authority.userinfoText, Nat.add_assoc]
    · intro y hy z hz heq
      have hy' : y.1 ≤ p + ui.length := by
        rcases List.mem_cons.mp hy with rfl | hy
        · exact Nat.le_add_right _ _
        rcases List.mem_append.mp hy with hy | hy
        · obtain ⟨u,c,v,hu,hp,_⟩ := (mem_strayTrace (ha.userinfo ui rfl)).mp hy
          rw [hp, hu, List.length_append]
          omega
        · rw [List.mem_singleton.mp hy]
      have hz' : p + ui.length + 1 ≤ z.1 := by
        rcases List.mem_append.mp hz with hz | hz
        · exact hostAndPortTrace_position hz
        · have hpos := hT z hz
          omega
      omega

theorem host_at (hat : text.drop p = a.text ++ rest) :
    text.drop (p + a.userinfoText.length) = a.host ++ (delimited colon a.port ++ rest) := by
  rw [Authority.text, List.append_assoc, List.append_assoc] at hat
  exact drop_eq hat

theorem authority_digits (ha : a.Valid) : ∀ ds ∈ a.port, ∀ c ∈ ds, digit.has c = true :=
  fun ds hds => accepts_star_one.mp (ha.port ds hds)

/-- An authority and the path behind it. -/
theorem play_authority (ha : a.Valid) (hat : text.drop p = a.text ++ (path ++ rest))
    (hnext : ∀ c ∈ (path ++ rest).head?, digit.has c = false) :
    play (act text) (events (a.trace p n ++
      frame (p + a.text.length) k markh savePath path)) x =
      if a.port = some [] then .error .nullString
      else .ok ⟨{ recordAuthority a x.uri with path := path }, none⟩ := by
  have hlen : p + a.text.length =
      p + a.userinfoText.length + a.host.length + (delimited colon a.port).length := by
    simp only [Authority.text, List.length_append]
    omega
  have hT : ∀ z ∈ frame (p + a.text.length) k markh savePath path, p + a.text.length ≤ z.1 := by
    intro z hz
    simp only [frame, List.mem_cons, List.not_mem_nil, or_false] at hz
    rcases hz with rfl | rfl
    · exact le_rfl
    · exact Nat.le_add_right _ _
  obtain ⟨y,hy,hplay⟩ := play_authority_start (x := x) (n := n) ha hat hT
  rw [hplay, hlen, play_hostAndPort (authority_digits ha) (host_at hat) hnext, ← hy]

/-- An authority, when the path is not recorded. -/
theorem play_authority_alone (ha : a.Valid) (hat : text.drop p = a.text ++ rest)
    (hnext : ∀ c ∈ rest.head?, digit.has c = false) :
    ∃ m, play (act text) (events (a.trace p n)) x = .ok ⟨recordAuthority a x.uri, m⟩ := by
  obtain ⟨y,hy,hplay⟩ := play_authority_start (x := x) (n := n) (T := []) ha hat (by simp)
  rw [List.append_nil, List.append_nil] at hplay
  obtain ⟨m,hm⟩ := play_hostAndPort_alone (x := y) (authority_digits ha) (host_at hat) hnext
  refine ⟨m,?_⟩
  rw [hplay, hm, ← hy]

end Authority

section QueryAndFragment
variable {o q f : Option (List UInt8)} {z : ℕ × ℕ × Action}

theorem delimitedFrame_inside {c : UInt8} {a b : Action} (hz : z ∈ delimitedFrame p n a b o) :
    p + 1 ≤ z.1 ∧ z.1 ≤ p + (delimited c o).length := by
  cases o with
  | none => cases hz
  | some w =>
    simp only [delimitedFrame, frame, List.mem_cons, List.not_mem_nil, or_false] at hz
    simp only [delimited, List.length_cons]
    rcases hz with rfl | rfl <;> simp only <;> omega

/-- A part behind a delimiter is recorded as it stands, or not at all. -/
theorem play_delimited {c : UInt8} {a : Action} {g : Uri → List UInt8 → Uri}
    (hact : ∀ p u m, act text a p ⟨u, some m⟩ = .ok ⟨g u (slice text m p), none⟩)
    (ha : a ≠ marku) (hat : text.drop p = delimited c o ++ rest) :
    ∃ m, play (act text) (events (delimitedFrame p n marku a o)) x =
      .ok ⟨match o with
        | none => x.uri
        | some w => g x.uri w, m⟩ := by
  cases o with
  | none => exact ⟨x.mark,rfl⟩
  | some w =>
    have hw : text.drop (p + 1) = w ++ rest := drop_eq (w := [c]) hat
    have hevents : events (delimitedFrame p n marku a (some w)) =
        [(p + 1, marku), (p + 1 + w.length, a)] := by
      simp [events, delimitedFrame, frame, List.eraseDups_cons, ha]
    refine ⟨none,?_⟩
    rw [hevents]
    simp only [play_cons, play_nil, act_marku, ok_bind, hact, slice_eq hw]

def recordQuery (q f : Option (List UInt8)) (u : Uri) : Uri :=
  { u with query := q.getD u.query, fragment := f.getD u.fragment }

theorem play_queryAndFragment
    (hat : text.drop p = delimited question q ++ (delimited hash f ++ rest)) :
    ∃ m, play (act text) (events (queryAndFragmentTrace p n q f)) x =
      .ok ⟨recordQuery q f x.uri, m⟩ := by
  obtain ⟨m,hq⟩ := play_delimited (x := x) (n := n) (g := fun u v => { u with query := v })
    (a := saveQuery) (fun _ _ _ => rfl) (by decide) hat
  obtain ⟨m',hf⟩ := play_delimited (n := n + 2) (g := fun u v => { u with fragment := v })
    (x := ⟨_, m⟩) (a := saveFragment) (fun _ _ _ => rfl) (by decide) (drop_eq hat)
  refine ⟨m',?_⟩
  rw [queryAndFragmentTrace, events_append, play_append, hq, ok_bind, hf]
  · cases q <;> cases f <;> rfl
  · intro y hy z hz heq
    have hy := delimitedFrame_inside (c := question) hy
    have hz := delimitedFrame_inside (c := hash) hz
    omega

end QueryAndFragment

end Playing

section Create
variable {c : Components}

/-- What is recorded before the query. -/
def recordHier (c : Components) (u : Uri) : Uri :=
  match c.authority with
  | none => u
  | some a => { recordAuthority a u with path := if c.scheme.isSome then c.path else u.path }

/-- What is recorded of the components. -/
def recorded (c : Components) : Uri :=
  recordQuery c.query c.fragment (recordHier c { scheme := c.scheme.getD [] })

/-- A colon without a port, in front of a path that is recorded. -/
def emptyPort (c : Components) : Bool :=
  match c.scheme, c.authority with
  | some _, some a => a.port = some []
  | _, _ => false

theorem create_eq (hc : c.Valid) : create c.text =
    (fun x => some x.uri) <$> play (act c.text) (events c.trace) {} := by
  obtain ⟨hacc,htrace⟩ := Components.main_trace hc
  rw [create, runToEnd_accepted unranked_main htrace hacc]
  cases play (act c.text) (events c.trace) {} <;> rfl

/-- Behind an authority there is no digit. -/
theorem after_authority (hc : c.Valid) {a : Authority} (ha : c.authority = some a) :
    ∀ b ∈ (c.path ++ c.queryText).head?, digit.has b = false := by
  intro b hb
  have hmem := hc.after_authority ha b hb
  simp only [List.mem_cons, List.not_mem_nil, or_false] at hmem
  rcases hmem with rfl | rfl | rfl <;> rfl

variable {text : List UInt8} {p : ℕ} {x : Parsing}

theorem play_hier (hc : c.Valid) {s : List UInt8} (hs : c.scheme = some s)
    (hat : text.drop p = c.hierText ++ c.queryText) :
    if emptyPort c then play (act text) (events (c.hierTrace p)) x = .error .nullString
    else ∃ m, play (act text) (events (c.hierTrace p)) x = .ok ⟨recordHier c x.uri, m⟩ := by
  cases ha : c.authority with
  | none =>
    simp only [emptyPort, hs, ha, Components.hierTrace, recordHier, Bool.false_eq_true, if_false]
    exact ⟨x.mark,rfl⟩
  | some a =>
    have hauth : text.drop (p + 2) = a.text ++ (c.path ++ c.queryText) := by
      simp only [Components.hierText, Components.authorityText, ha, List.append_assoc] at hat
      exact drop_eq (w := [slash, slash]) hat
    have hplay := play_authority (x := x) (n := 2) (k := 8) (hc.authority a ha) hauth
      (after_authority hc ha)
    simp only [emptyPort, hs, ha, Components.hierTrace, recordHier, decide_eq_true_eq, hplay]
    split
    · rfl
    · exact ⟨none,rfl⟩

theorem play_relative (hc : c.Valid) (hs : c.scheme = none)
    (hat : text.drop p = c.hierText ++ c.queryText) :
    ∃ m, play (act text) (events (c.relativeTrace p)) x = .ok ⟨recordHier c x.uri, m⟩ := by
  cases ha : c.authority with
  | none =>
    simp only [Components.relativeTrace, recordHier, ha]
    exact ⟨x.mark,rfl⟩
  | some a =>
    have hauth : text.drop (p + 2) = a.text ++ (c.path ++ c.queryText) := by
      simp only [Components.hierText, Components.authorityText, ha, List.append_assoc] at hat
      exact drop_eq (w := [slash, slash]) hat
    obtain ⟨m,hplay⟩ := play_authority_alone (x := x) (n := 14) (hc.authority a ha) hauth
      (after_authority hc ha)
    refine ⟨m,?_⟩
    simp only [Components.relativeTrace, recordHier, ha, hs, hplay]
    rfl

/-- The events of the query come after those before it. -/
theorem events_query {n : ℕ} {T : List (ℕ × ℕ × Action)}
    (hT : ∀ y ∈ T, y.1 ≤ p + c.hierText.length) :
    events (T ++ queryAndFragmentTrace (p + c.hierText.length) n c.query c.fragment) =
      events T ++
        events (queryAndFragmentTrace (p + c.hierText.length) n c.query c.fragment) := by
  apply events_append
  intro y hy z hz heq
  have hy := hT y hy
  rcases List.mem_append.mp hz with hz | hz
  · have hz := delimitedFrame_inside (c := question) hz
    omega
  · have hz := delimitedFrame_inside (c := hash) hz
    omega

theorem query_at (hat : text.drop p = c.hierText ++ c.queryText) :
    text.drop (p + c.hierText.length) =
      delimited question c.query ++ (delimited hash c.fragment ++ []) := by
  rw [drop_eq hat, Components.queryText, List.append_nil]

theorem create_uri (hc : c.Valid) {s : List UInt8} (hs : c.scheme = some s) : create c.text =
    if emptyPort c then .error .nullString else .ok (some (recorded c)) := by
  have hat : c.text.drop 0 = s ++ (colon :: (c.hierText ++ c.queryText)) := by
    simp [Components.text, Components.schemeText, hs]
  have hat' : c.text.drop (s.length + 1) = c.hierText ++ c.queryText := by
    have hdrop := drop_eq (w := [colon]) (drop_eq hat)
    simpa using hdrop
  obtain ⟨_,hinside⟩ := Components.hier_trace (p := s.length + 1) hc hs
  have hquery := (Components.withQuery_trace (p := s.length + 1) (n := 10) hc
    (Components.hier_trace hc hs) Components.hier_avoids
    fun y hy => (Components.hierTrace_numbers hc hy).2).2
  have hscheme : play (act c.text) (events (frame 0 0 marku saveScheme s)) {} =
      .ok ⟨{ scheme := s }, none⟩ := by
    have hevents : events (frame 0 0 marku saveScheme s) =
        [(0, marku), (0 + s.length, saveScheme)] := by
      simp [events, frame, List.eraseDups_cons]
    rw [hevents]
    simp only [play_cons, play_nil, ok_bind, act, taken, slice_eq hat]
  have hsplit : events c.trace = events (frame 0 0 marku saveScheme s) ++
      (events (c.hierTrace (s.length + 1)) ++ events
        (queryAndFragmentTrace (s.length + 1 + c.hierText.length) 10 c.query c.fragment)) := by
    simp only [Components.trace, hs, Components.uriTrace]
    rw [events_append, events_query]
    · intro y hy
      exact (hinside.inside hy).2
    · intro y hy z hz heq
      have hz := hquery.inside hz
      simp only [frame, List.mem_cons, List.not_mem_nil, or_false] at hy
      rcases hy with rfl | rfl <;> simp only at heq <;> omega
  rw [create_eq hc, hsplit, play_append, hscheme, ok_bind, play_append]
  have hhier := play_hier (x := ⟨{ scheme := s }, none⟩) hc hs hat'
  split at hhier
  next hempty =>
    rw [hhier, if_pos hempty]
    rfl
  next hempty =>
    obtain ⟨m,hhier⟩ := hhier
    obtain ⟨m',hplay⟩ := play_queryAndFragment (n := 10)
      (x := ⟨recordHier c { scheme := s }, m⟩) (query_at hat')
    rw [hhier, ok_bind, hplay, if_neg hempty, recorded, hs]
    rfl

theorem create_relative (hc : c.Valid) (hs : c.scheme = none) :
    create c.text = .ok (some (recorded c)) := by
  have hat : c.text.drop 0 = c.hierText ++ c.queryText := by
    simp [Components.text, Components.schemeText, hs]
  obtain ⟨_,hinside⟩ := Components.relative_trace (p := 0) hc hs
  have hpos : ∀ y ∈ c.relativeTrace 0, 1 ≤ y.1 := by
    intro y hy
    rw [Components.relativeTrace] at hy
    split at hy
    next => cases hy
    next a ha =>
      have hy := (hc.authority a ha).trace.inside hy
      omega
  have hquery := events_query (n := 20) (c := c) fun y hy => (hinside.inside hy).2
  have hqueryAt := query_at hat
  rw [Nat.zero_add] at hquery hqueryAt
  have hsplit : events c.trace = events (Components.strayMark c.text) ++
      (events (c.relativeTrace 0) ++
        events (queryAndFragmentTrace c.hierText.length 20 c.query c.fragment)) := by
    simp only [Components.trace, hs]
    rw [events_append, hquery]
    · intro y hy z hz heq
      have hz' : 1 ≤ z.1 := by
        rcases List.mem_append.mp hz with hz | hz
        · exact hpos z hz
        rcases List.mem_append.mp hz with hz | hz
        · have hz := delimitedFrame_inside (c := question) hz
          omega
        · have hz := delimitedFrame_inside (c := hash) hz
          omega
      have hy' := Components.strayMark_first hy
      omega
  obtain ⟨m₀,hmark⟩ : ∃ m, play (act c.text) (events (Components.strayMark c.text)) {} =
      .ok ⟨{}, m⟩ := by
    cases c.text with
    | nil => exact ⟨none,rfl⟩
    | cons d w =>
      rw [Components.strayMark]
      split
      · exact ⟨some 0,rfl⟩
      · exact ⟨none,rfl⟩
  obtain ⟨m,hrelative⟩ := play_relative (x := ⟨{}, m₀⟩) hc hs hat
  obtain ⟨m',hplay⟩ := play_queryAndFragment (n := 20) (x := ⟨recordHier c {}, m⟩) hqueryAt
  rw [create_eq hc, hsplit, play_append, hmark, ok_bind, play_append, hrelative, ok_bind, hplay,
    recorded, hs]
  rfl

/-- What an accepted text is turned into. -/
theorem create_text (hc : c.Valid) : create c.text =
    if emptyPort c then .error .nullString else .ok (some (recorded c)) := by
  cases hs : c.scheme with
  | some s => exact create_uri hc hs
  | none =>
    rw [create_relative hc hs]
    simp [emptyPort, hs]

end Create

end Gudov.Uri
