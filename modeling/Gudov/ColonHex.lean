import Mathlib.Data.List.Induction
import Mathlib.Data.Nat.Notation

/-!
# Addresses written in groups of hexadecimal digits

An address of eight groups is written with colons between them, each group with one to four
digits. One run of groups that are zero may be left out; two colons stand for it.

The reader takes every text of this kind. A list of groups is printed with as few digits as
possible, and two lists with two colons between them.
-/
namespace Gudov.ColonHex

/-! ## Reading -/

def hexDigit (c : UInt8) : Option ℕ :=
  if 48 ≤ c ∧ c ≤ 57 then some (c.toNat - 48)
  else if 97 ≤ c ∧ c ≤ 102 then some (c.toNat - 87)
  else if 65 ≤ c ∧ c ≤ 70 then some (c.toNat - 55)
  else none

def readDigits (w : List UInt8) : Option (List ℕ) := w.mapM hexDigit

def readGroup (w : List UInt8) : Option ℕ :=
  if w = [] ∨ 4 < w.length then none
  else (readDigits w).map fun ds => ds.foldl (fun n d => 16 * n + d) 0

def readGroups (w : List UInt8) : Option (List ℕ) :=
  if w = [] then some [] else (w.splitOn 58).mapM readGroup

/-- Two colons at the head of a text. -/
def opensDouble (c : UInt8) (w : List UInt8) : Bool := c == 58 && w.head? == some 58

/-- What stands before and behind the first two colons. -/
def cut : List UInt8 → Option (List UInt8 × List UInt8)
  | [] => none
  | c :: w => if opensDouble c w then some ([], w.tail) else (cut w).map fun p => (c :: p.1, p.2)

def doubles : List UInt8 → ℕ
  | [] => 0
  | c :: w => (if opensDouble c w then 1 else 0) + doubles w

/-- The groups of an address. -/
def read (w : List UInt8) : Option (List ℕ) :=
  match cut w with
  | none => (readGroups w).bind fun gs => if gs.length = 8 then some gs else none
  | some (u, v) =>
    (readGroups u).bind fun gs => (readGroups v).bind fun hs =>
      if gs.length + hs.length < 8 then
        some (gs ++ List.replicate (8 - (gs.length + hs.length)) 0 ++ hs)
      else none

/-! ## Printing -/

/-- `std::hex` -/
def hexText (n : ℕ) : List UInt8 := (Nat.toDigits 16 n).map fun c => c.toNat.toUInt8

def joined (gs : List ℕ) : List UInt8 := [58].intercalate (gs.map hexText)

section Group
variable {n : ℕ} {c : UInt8}

theorem hexDigit_digitChar {d : ℕ} (hd : d < 16) :
    hexDigit d.digitChar.toNat.toUInt8 = some d := by
  have hall : ∀ d : Fin 16, hexDigit (d : ℕ).digitChar.toNat.toUInt8 = some (d : ℕ) := by decide
  exact hall ⟨d,hd⟩

theorem hexText_lt {d : ℕ} (hd : d < 16) : hexText d = [d.digitChar.toNat.toUInt8] := by
  rw [hexText, Nat.toDigits_of_lt_base hd]
  rfl

/-- The digits are read back, the last one last. -/
theorem readDigits_hexText (n : ℕ) : ∃ ds, readDigits (hexText n) = some ds ∧
    ds.foldl (fun n d => 16 * n + d) 0 = n := by
  induction n using Nat.base_induction 16 (by decide) with
  | single m hm =>
    refine ⟨[m],?_,by simp⟩
    simp [readDigits, hexText_lt hm, hexDigit_digitChar hm]
  | digit m k hk hm ih =>
    obtain ⟨ds,hds,hvalue⟩ := ih
    have hlast : readDigits (hexText k) = some [k] := by
      simp [readDigits, hexText_lt hk, hexDigit_digitChar hk]
    refine ⟨ds ++ [k],?_,by simp [hvalue]⟩
    rw [hexText, ← Nat.toDigits_append_toDigits (by decide) hm hk, List.map_append, readDigits,
      List.mapM_append]
    change (readDigits (hexText m)).bind _ = _
    rw [hds]
    change (readDigits (hexText k)).bind _ = _
    rw [hlast]
    rfl

theorem hexText_ne_nil (n : ℕ) : hexText n ≠ [] := by
  intro h
  exact Nat.toDigits_ne_nil (List.map_eq_nil_iff.mp h)

theorem readGroup_hexText (hn : n < 65536) : readGroup (hexText n) = some n := by
  have hlen : (hexText n).length ≤ 4 := by
    rw [hexText, List.length_map, Nat.length_toDigits_le_iff (by decide) (by decide)]
    exact hn
  obtain ⟨ds,hds,hvalue⟩ := readDigits_hexText n
  rw [readGroup, if_neg (by simp [hexText_ne_nil, hlen]), hds, Option.map_some, hvalue]

/-- No separator is a digit. -/
theorem hexText_digit (hc : c ∈ hexText n) : hexDigit c ≠ none := by
  induction n using Nat.base_induction 16 (by decide) with
  | single m hm =>
    rw [hexText_lt hm, List.mem_singleton] at hc
    rw [hc, hexDigit_digitChar hm]
    exact Option.some_ne_none m
  | digit m k hk hm ih =>
    rw [hexText, ← Nat.toDigits_append_toDigits (by decide) hm hk, List.map_append,
      List.mem_append] at hc
    rcases hc with hc | hc
    · exact ih hc
    · change c ∈ hexText k at hc
      rw [hexText_lt hk, List.mem_singleton] at hc
      rw [hc, hexDigit_digitChar hk]
      exact Option.some_ne_none k

theorem hexText_colon (n : ℕ) : 58 ∉ hexText n := fun h => hexText_digit h (by decide)

end Group

section Joined
variable {gs hs : List ℕ} {g : ℕ} {c : UInt8} {w u : List UInt8}

theorem joined_cons_cons (g h : ℕ) (gs : List ℕ) :
    joined (g :: h :: gs) = hexText g ++ 58 :: joined (h :: gs) := by
  simp [joined]

theorem joined_singleton (g : ℕ) : joined [g] = hexText g := by
  simp [joined]

theorem joined_snoc (hne : gs ≠ []) (g : ℕ) :
    joined (gs ++ [g]) = joined gs ++ 58 :: hexText g := by
  induction gs with
  | nil => exact absurd rfl hne
  | cons h gs ih =>
    cases gs with
    | nil => rw [List.cons_append, List.nil_append, joined_cons_cons, joined_singleton,
        joined_singleton]
    | cons k gs =>
      have hnext := ih (List.cons_ne_nil k gs)
      rw [List.cons_append] at hnext
      rw [List.cons_append, List.cons_append, joined_cons_cons, joined_cons_cons, hnext,
        List.append_assoc, List.cons_append]

theorem mem_joined (hc : c ∈ joined gs) : c = 58 ∨ hexDigit c ≠ none := by
  induction gs with
  | nil => cases hc
  | cons g gs ih =>
    cases gs with
    | nil =>
      rw [joined_singleton] at hc
      exact .inr (hexText_digit hc)
    | cons h gs =>
      rw [joined_cons_cons, List.mem_append, List.mem_cons] at hc
      rcases hc with hc | hc | hc
      · exact .inr (hexText_digit hc)
      · exact .inl hc
      · exact ih hc

theorem mem_compressed (hc : c ∈ joined gs ++ 58 :: 58 :: joined hs) :
    c = 58 ∨ hexDigit c ≠ none := by
  rw [List.mem_append, List.mem_cons, List.mem_cons] at hc
  rcases hc with hc | hc | hc | hc
  · exact mem_joined hc
  · exact .inl hc
  · exact .inl hc
  · exact mem_joined hc

/-- A list of groups begins with a digit. -/
theorem joined_head (g : ℕ) (gs : List ℕ) (w : List UInt8) :
    (joined (g :: gs) ++ w).head? ≠ some 58 := by
  obtain ⟨c,t,htext⟩ := List.exists_cons_of_ne_nil (hexText_ne_nil g)
  have hc : c ≠ 58 := by
    rintro rfl
    exact hexText_colon g (by rw [htext]; exact List.mem_cons_self)
  cases gs with
  | nil =>
    rw [joined_singleton, htext]
    simpa using hc
  | cons h gs =>
    rw [joined_cons_cons, htext]
    simpa using hc

theorem opensDouble_joined (c : UInt8) (g : ℕ) (gs : List ℕ) (w : List UInt8) :
    opensDouble c (joined (g :: gs) ++ w) = false := by
  rw [opensDouble, beq_eq_false_iff_ne.mpr (joined_head g gs w), Bool.and_false]

theorem readGroups_joined (hgs : ∀ g ∈ gs, g < 65536) : readGroups (joined gs) = some gs := by
  cases gs with
  | nil => rfl
  | cons g gs =>
    have hne : joined (g :: gs) ≠ [] := by
      intro hnil
      cases gs with
      | nil => exact hexText_ne_nil g (joined_singleton g ▸ hnil)
      | cons h gs => simp [joined_cons_cons] at hnil
    have hsplit : (joined (g :: gs)).splitOn 58 = (g :: gs).map hexText := by
      refine List.splitOn_intercalate 58 ?_ (by simp)
      intro l hl
      obtain ⟨k,_,rfl⟩ := List.mem_map.mp hl
      exact hexText_colon k
    have hread : ∀ l : List ℕ, (∀ g ∈ l, g < 65536) → (l.map hexText).mapM readGroup = some l := by
      intro l hl
      induction l with
      | nil => rfl
      | cons k l ih =>
        simp [readGroup_hexText (hl k (by simp)), ih fun d hd => hl d (by simp [hd])]
    rw [readGroups, if_neg hne, hsplit]
    exact hread _ hgs

theorem cut_digits (hw : 58 ∉ w) : cut (w ++ u) = (cut u).map fun p => (w ++ p.1, p.2) := by
  induction w with
  | nil => simp
  | cons c w ih =>
    rw [List.mem_cons, not_or] at hw
    have hopen : opensDouble c (w ++ u) = false := by simp [opensDouble, Ne.symm hw.1]
    rw [List.cons_append, cut, hopen, ih hw.2, Option.map_map]
    rfl

/-- The first two colons are not inside a list of groups. -/
theorem cut_joined (gs : List ℕ) (u : List UInt8) :
    cut (joined gs ++ u) = (cut u).map fun p => (joined gs ++ p.1, p.2) := by
  induction gs with
  | nil => simp [joined]
  | cons g gs ih =>
    cases gs with
    | nil =>
      rw [joined_singleton]
      exact cut_digits (hexText_colon g)
    | cons h gs =>
      rw [joined_cons_cons, List.append_assoc, cut_digits (hexText_colon g), List.cons_append,
        cut, opensDouble_joined, ih]
      simp [Option.map_map, Function.comp_def]

theorem doubles_digits (hw : 58 ∉ w) : doubles (w ++ u) = doubles u := by
  induction w with
  | nil => rfl
  | cons c w ih =>
    rw [List.mem_cons, not_or] at hw
    have hopen : opensDouble c (w ++ u) = false := by simp [opensDouble, Ne.symm hw.1]
    simp [doubles, hopen, ih hw.2]

theorem doubles_joined (gs : List ℕ) (u : List UInt8) : doubles (joined gs ++ u) = doubles u := by
  induction gs with
  | nil => rfl
  | cons g gs ih =>
    cases gs with
    | nil =>
      rw [joined_singleton]
      exact doubles_digits (hexText_colon g)
    | cons h gs =>
      rw [joined_cons_cons, List.append_assoc, doubles_digits (hexText_colon g), List.cons_append,
        doubles, opensDouble_joined, ih]
      simp

/-- Eight groups. -/
theorem read_joined (hgs : ∀ g ∈ gs, g < 65536) (hlen : gs.length = 8) :
    read (joined gs) = some gs ∧ doubles (joined gs) = 0 := by
  have hcut : cut (joined gs) = none := by simpa [cut] using cut_joined gs []
  have hdoubles : doubles (joined gs) = 0 := by simpa [doubles] using doubles_joined gs []
  refine ⟨?_,hdoubles⟩
  rw [read, hcut]
  simp [readGroups_joined hgs, hlen]

/-- Two lists of groups with zeros between them. -/
theorem read_compressed (hgs : ∀ g ∈ gs, g < 65536) (hhs : ∀ h ∈ hs, h < 65536) {k : ℕ}
    (hlen : gs.length + hs.length + (k + 1) = 8) :
    read (joined gs ++ 58 :: 58 :: joined hs) = some (gs ++ List.replicate (k + 1) 0 ++ hs) ∧
      doubles (joined gs ++ 58 :: 58 :: joined hs) = 1 := by
  have hcut : cut (joined gs ++ 58 :: 58 :: joined hs) = some (joined gs, joined hs) := by
    rw [cut_joined]
    simp [cut, opensDouble]
  have htail : doubles (58 :: joined hs) = 0 := by
    have hjoined : doubles (joined hs) = 0 := by simpa [doubles] using doubles_joined hs []
    cases hs with
    | nil => rfl
    | cons h hs =>
      have hopen : opensDouble 58 (joined (h :: hs)) = false := by
        simpa using opensDouble_joined 58 h hs []
      simp [doubles, hopen, hjoined]
  have hcount : 8 - (gs.length + hs.length) = k + 1 := by omega
  constructor
  · rw [read, hcut]
    simp only [readGroups_joined hgs, readGroups_joined hhs, Option.bind_some]
    rw [if_pos (by omega), hcount]
  · rw [doubles_joined, doubles, htail]
    rfl

end Joined

/-! ## Printing in one pass -/

/-- One group behind the previous one, with the text so far and whether zeros were left out. The
first zeros are passed over; two colons are printed when they end. -/
def put (prev : Option ℕ) (g : ℕ) (s : List UInt8 × Bool) : List UInt8 × Bool :=
  if g = 0 ∧ s.2 = false then s
  else
    let t := if prev = some 0 ∧ s.2 = false then (s.1 ++ [58], true) else s
    let os := if prev = none then t.1 else t.1 ++ [58]
    (os ++ hexText g, t.2)

/-- The groups that were passed, and what is printed of them behind `os`. -/
inductive Progress (os : List UInt8) : List ℕ → List UInt8 × Bool → Prop
  | before {gs k} (hgs : ∀ g ∈ gs, g ≠ 0) :
      Progress os (gs ++ List.replicate k 0) (os ++ joined gs, false)
  | after {gs k hs} (hne : hs ≠ []) :
      Progress os (gs ++ List.replicate (k + 1) 0 ++ hs)
        (os ++ joined gs ++ 58 :: 58 :: joined hs, true)

section Pass
variable {os : List UInt8} {gs : List ℕ} {s : List UInt8 × Bool}

theorem Progress.start (os : List UInt8) : Progress os [] (os, false) := by
  have h := @Progress.before os [] 0 (by simp)
  simpa [joined] using h

theorem Progress.put (h : Progress os gs s) (g : ℕ) :
    Progress os (gs ++ [g]) (put gs.getLast? g s) := by
  cases h with
  | @before gs k hgs =>
    by_cases hg : g = 0
    · -- passed over
      subst hg
      have hput : ColonHex.put (gs ++ List.replicate k 0).getLast? 0 (os ++ joined gs, false) =
          (os ++ joined gs, false) := by simp [ColonHex.put]
      rw [hput, List.append_assoc, ← List.replicate_succ']
      exact .before hgs
    · cases k with
      | zero =>
        have hnext : ∀ d ∈ gs ++ [g], d ≠ 0 := by
          intro d hd
          rcases List.mem_append.mp hd with hd | hd
          · exact hgs d hd
          · rwa [List.mem_singleton.mp hd]
        have hprogress : Progress os (gs ++ [g] ++ List.replicate 0 0) _ := .before hnext
        by_cases hnil : gs = []
        · subst hnil
          simpa [ColonHex.put, hg, joined] using hprogress
        · obtain ⟨d,hd⟩ := Option.ne_none_iff_exists'.mp (mt List.getLast?_eq_none_iff.mp hnil)
          have hd0 : d ≠ 0 := hgs d (List.mem_of_getLast? hd)
          rw [joined_snoc hnil] at hprogress
          simpa [ColonHex.put, hg, hd, hd0] using hprogress
      | succ k =>
        -- the zeros end here
        have hprogress : Progress os (gs ++ List.replicate (k + 1) 0 ++ [g]) _ :=
          .after (List.cons_ne_nil g [])
        rw [joined_singleton] at hprogress
        simpa [ColonHex.put, hg, List.replicate_succ'] using hprogress
  | @after gs k hs hne =>
    have hprogress : Progress os (gs ++ List.replicate (k + 1) 0 ++ (hs ++ [g])) _ :=
      .after (List.append_ne_nil_of_right_ne_nil hs (List.cons_ne_nil g []))
    obtain ⟨d,hd⟩ := Option.ne_none_iff_exists'.mp (mt List.getLast?_eq_none_iff.mp hne)
    rw [joined_snoc hne] at hprogress
    simpa [ColonHex.put, hd] using hprogress

/-- At the end zeros that were not yet printed are. -/
theorem Progress.read (h : Progress os gs s) (hlt : ∀ g ∈ gs, g < 65536) (hlen : gs.length = 8) :
    ∃ t, (if s.2 = false ∧ gs.getLast? = some 0 then s.1 ++ [58, 58] else s.1) = os ++ t ∧
      read t = some gs ∧ doubles t ≤ 1 ∧ ∀ c ∈ t, c = 58 ∨ hexDigit c ≠ none := by
  cases h with
  | @before gs k hgs =>
    cases k with
    | zero =>
      have hlast : gs.getLast? ≠ some 0 := fun h => hgs 0 (List.mem_of_getLast? h) rfl
      rw [List.replicate_zero, List.append_nil] at hlt hlen ⊢
      obtain ⟨hread,hdoubles⟩ := read_joined hlt hlen
      exact ⟨joined gs,by simp [hlast],hread,by omega,fun c hc => mem_joined hc⟩
    | succ k =>
      have hlt' : ∀ g ∈ gs, g < 65536 := fun g hg => hlt g (List.mem_append_left _ hg)
      have hlen' : gs.length + ([] : List ℕ).length + (k + 1) = 8 := by simpa using hlen
      obtain ⟨hread,hdoubles⟩ := read_compressed hlt' (by simp) hlen'
      refine ⟨joined gs ++ 58 :: 58 :: joined [],?_,by simpa using hread,by omega,fun c hc =>
        mem_compressed hc⟩
      simp [List.replicate_succ', joined]
  | @after gs k hs hne =>
    have hgs : ∀ g ∈ gs, g < 65536 := fun g hg => hlt g (by simp [hg])
    have hhs : ∀ g ∈ hs, g < 65536 := fun g hg => hlt g (by simp [hg])
    have hlen' : gs.length + hs.length + (k + 1) = 8 := by
      rw [List.length_append, List.length_append, List.length_replicate] at hlen
      omega
    obtain ⟨hread,hdoubles⟩ := read_compressed hgs hhs hlen'
    exact ⟨joined gs ++ 58 :: 58 :: joined hs,by simp,hread,by omega,fun c hc => mem_compressed hc⟩

end Pass

end Gudov.ColonHex
