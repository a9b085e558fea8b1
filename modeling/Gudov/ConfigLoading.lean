import Gudov.LogYaml

/-!
# `Config::LoadFromYaml`

The nodes of a tree of maps are listed with their dotted paths, and a variable that is registered
under the lower-cased path of a node gets the text of the node. But the listing stops at a path
with a character that no name may have, and upper-case letters are such characters. So a node
below a key with an upper-case letter is never looked up, and what is below it neither: the paths
are lowered after the check.
-/
namespace Gudov

namespace Config

/-- The characters of a name. -/
def nameChars : List Char := "abcdefghijklmnopqrstuvwxyz._0123456789".toList

/-- `find_first_not_of` finds nothing. -/
def isName (s : String) : Bool := s.toList.all (· ∈ nameChars)

/-- `Scalar()` -/
def scalar : YamlNode → String
  | .scalar text => text
  | _ => ""

/-- The path of an entry of a map. -/
def entryPath (pre : String) (key : YamlNode) : String :=
  if pre = "" then scalar key else pre ++ "." ++ scalar key

mutual

/-- `ListAllMember` -/
def listAllMember (pre : String) : YamlNode → List (String × YamlNode)
  | .map entries =>
    if isName pre then (pre, .map entries) :: listEntries pre entries else []
  | .sequence items => if isName pre then [(pre, .sequence items)] else []
  | .scalar text => if isName pre then [(pre, .scalar text)] else []
  | .null => if isName pre then [(pre, .null)] else []

/-- The loop over the entries of a map. -/
def listEntries (pre : String) : List (YamlNode × YamlNode) → List (String × YamlNode)
  | [] => []
  | entry :: entries => listEntry pre entry ++ listEntries pre entries

def listEntry (pre : String) : YamlNode × YamlNode → List (String × YamlNode)
  | (key, value) => listAllMember (entryPath pre key) value

end

/-- `std::transform` with `tolower`. -/
def lower (s : String) : String := String.ofList (s.toList.map Char.toLower)

/-- What `fromString` is given for a node. -/
def nodeText (yaml : YamlCpp) : YamlNode → String
  | .scalar text => text
  | n => yaml.emit n

section
variable {V : Type} (yaml : YamlCpp) (registry : String → Option V)

/-- `LoadFromYaml`, with the calls of `fromString` in order. -/
def loadFromYaml (root : YamlNode) : List (V × String) :=
  (listAllMember "" root).filterMap fun member =>
    if member.1 = "" then none
    else (registry (lower member.1)).map fun var => (var, nodeText yaml member.2)

end

/-! ## The nodes of a tree -/

mutual

/-- The nodes below a node in pre-order, each with its dotted path. -/
def members (pre : String) : YamlNode → List (String × YamlNode)
  | .map entries => entriesMembers pre entries
  | .sequence _ => []
  | .scalar _ => []
  | .null => []

def entriesMembers (pre : String) : List (YamlNode × YamlNode) → List (String × YamlNode)
  | [] => []
  | entry :: entries => entryMembers pre entry ++ entriesMembers pre entries

def entryMembers (pre : String) : YamlNode × YamlNode → List (String × YamlNode)
  | (key, value) => (entryPath pre key, value) :: members (entryPath pre key) value

end

/-- Letters, digits, `_` and `.` -/
def KeyChar (c : Char) : Prop := c.isAlpha = true ∨ c.isDigit = true ∨ c = '_' ∨ c = '.'

def IsKey (key : YamlNode) : Prop :=
  ∃ text, key = .scalar text ∧ text ≠ "" ∧ ∀ c ∈ text.toList, KeyChar c

mutual

/-- All keys of the maps are words of such characters. -/
def Keyed : YamlNode → Prop
  | .map entries => EntriesKeyed entries
  | .sequence _ => True
  | .scalar _ => True
  | .null => True

def EntriesKeyed : List (YamlNode × YamlNode) → Prop
  | [] => True
  | entry :: entries => EntryKeyed entry ∧ EntriesKeyed entries

def EntryKeyed : YamlNode × YamlNode → Prop
  | (key, value) => IsKey key ∧ Keyed value

end

section Paths
variable {pre : String} {key : YamlNode}

theorem isName_entryPath (h : isName (entryPath pre key) = true) : isName pre = true := by
  by_cases hpre : pre = ""
  · rw [hpre]
    rfl
  · rw [entryPath, if_neg hpre] at h
    simp only [isName, String.toList_append, List.all_append, Bool.and_eq_true] at h
    exact h.1.1

mutual

/-- Below a path that is no name there is none. -/
theorem members_not_name {pre : String} (h : isName pre = false) : ∀ node,
    (members pre node).filter (fun m => isName m.1) = []
  | .map entries => entriesMembers_not_name h entries
  | .sequence _ => rfl
  | .scalar _ => rfl
  | .null => rfl

theorem entriesMembers_not_name {pre : String} (h : isName pre = false) : ∀ entries,
    (entriesMembers pre entries).filter (fun m => isName m.1) = []
  | [] => rfl
  | entry :: entries => by
    rw [entriesMembers, List.filter_append, entryMembers_not_name h entry,
      entriesMembers_not_name h entries, List.append_nil]

theorem entryMembers_not_name {pre : String} (h : isName pre = false) : ∀ entry,
    (entryMembers pre entry).filter (fun m => isName m.1) = []
  | (key, value) => by
    have hpath : isName (entryPath pre key) = false := by
      by_contra hname
      rw [isName_entryPath (Bool.eq_true_of_not_eq_false hname)] at h
      cases h
    rw [entryMembers, List.filter_cons_of_neg (by simp [hpath]), members_not_name hpath value]

end

mutual

/-- The listing keeps the nodes whose path is a name. -/
theorem listAllMember_eq (pre : String) : ∀ node, listAllMember pre node =
    ((pre, node) :: members pre node).filter fun m => isName m.1
  | .map entries => by
    by_cases hname : isName pre = true
    · rw [listAllMember, if_pos hname, listEntries_eq pre entries,
        List.filter_cons_of_pos (by simpa using hname), members]
    · rw [listAllMember, if_neg hname, List.filter_cons_of_neg (by simpa using hname), members,
        entriesMembers_not_name (Bool.eq_false_iff.mpr hname) entries]
  | .sequence items => by
    rw [listAllMember, members, List.filter_cons, List.filter_nil]
  | .scalar text => by
    rw [listAllMember, members, List.filter_cons, List.filter_nil]
  | .null => by
    rw [listAllMember, members, List.filter_cons, List.filter_nil]

theorem listEntries_eq (pre : String) : ∀ entries, listEntries pre entries =
    (entriesMembers pre entries).filter fun m => isName m.1
  | [] => rfl
  | entry :: entries => by
    rw [listEntries, entriesMembers, List.filter_append, listEntry_eq pre entry,
      listEntries_eq pre entries]

theorem listEntry_eq (pre : String) : ∀ entry, listEntry pre entry =
    (entryMembers pre entry).filter fun m => isName m.1
  | (key, value) => by
    rw [listEntry, entryMembers, listAllMember_eq (entryPath pre key) value]

end

/-- A path below the root of a tree with such keys. -/
def IsPath (path : String) : Prop := path ≠ "" ∧ ∀ c ∈ path.toList, KeyChar c

theorem isPath_entryPath (hpre : ∀ c ∈ pre.toList, KeyChar c) (hkey : IsKey key) :
    IsPath (entryPath pre key) := by
  obtain ⟨text,rfl,hne,htext⟩ := hkey
  by_cases hnil : pre = ""
  · rw [entryPath, if_pos hnil]
    exact ⟨hne,htext⟩
  · rw [entryPath, if_neg hnil]
    constructor
    · intro h
      have hlist := congrArg String.toList h
      simp at hlist
    · intro c hc
      simp only [String.toList_append, List.mem_append] at hc
      rcases hc with (hc | hc) | hc
      · exact hpre c hc
      · obtain rfl := List.mem_singleton.mp hc
        exact .inr (.inr (.inr rfl))
      · exact htext c hc

mutual

theorem members_isPath {pre : String} (hpre : ∀ c ∈ pre.toList, KeyChar c) : ∀ node, Keyed node →
    ∀ m ∈ members pre node, IsPath m.1
  | .map entries, hkeyed, m, hm => entriesMembers_isPath hpre entries hkeyed m hm
  | .sequence _, _, _, hm => absurd hm List.not_mem_nil
  | .scalar _, _, _, hm => absurd hm List.not_mem_nil
  | .null, _, _, hm => absurd hm List.not_mem_nil

theorem entriesMembers_isPath {pre : String} (hpre : ∀ c ∈ pre.toList, KeyChar c) :
    ∀ entries, EntriesKeyed entries → ∀ m ∈ entriesMembers pre entries, IsPath m.1
  | [], _, _, hm => absurd hm List.not_mem_nil
  | entry :: entries, hkeyed, m, hm => by
    rw [entriesMembers, List.mem_append] at hm
    rcases hm with hm | hm
    · exact entryMembers_isPath hpre entry hkeyed.1 m hm
    · exact entriesMembers_isPath hpre entries hkeyed.2 m hm

theorem entryMembers_isPath {pre : String} (hpre : ∀ c ∈ pre.toList, KeyChar c) :
    ∀ entry, EntryKeyed entry → ∀ m ∈ entryMembers pre entry, IsPath m.1
  | (key, value), hkeyed, m, hm => by
    have hpath := isPath_entryPath hpre hkeyed.1
    rw [entryMembers, List.mem_cons] at hm
    rcases hm with rfl | hm
    · exact hpath
    · exact members_isPath hpath.2 value hkeyed.2 m hm

end

theorem mem_nameChars_of_bounds {c : Char} {a b : ℕ} (ha : a ≤ c.toNat) (hb : c.toNat ≤ b)
    (h : ∀ n < b + 1, a ≤ n → Char.ofNat n ∈ nameChars) : c ∈ nameChars := by
  rw [← Char.ofNat_toNat c]
  exact h c.toNat (by omega) ha

/-- Of the characters of a key those are no characters of a name that are upper-case. -/
theorem mem_nameChars_iff {c : Char} (hc : KeyChar c) : c ∈ nameChars ↔ c.isUpper = false := by
  constructor
  · intro hmem
    have hall : nameChars.all (fun c => !c.isUpper) = true := rfl
    simpa using List.all_eq_true.mp hall c hmem
  · intro hupper
    rcases hc with halpha | hdigit | rfl | rfl
    · have hlower : c.isLower = true :=
        (Bool.or_eq_true_iff.mp halpha).resolve_left (Bool.eq_false_iff.mp hupper)
      obtain ⟨ha,hz⟩ := Bool.and_eq_true_iff.mp hlower
      exact mem_nameChars_of_bounds (a := 97) (b := 122) (of_decide_eq_true ha)
        (of_decide_eq_true hz) (by decide)
    · obtain ⟨hzero,hnine⟩ := Bool.and_eq_true_iff.mp hdigit
      exact mem_nameChars_of_bounds (a := 48) (b := 57) (of_decide_eq_true hzero)
        (of_decide_eq_true hnine) (by decide)
    · decide
    · decide

def HasUpper (path : String) : Prop := ∃ c ∈ path.toList, c.isUpper = true

theorem isName_iff {path : String} (hpath : IsPath path) : isName path = true ↔ ¬ HasUpper path := by
  simp only [isName, List.all_eq_true, decide_eq_true_eq, HasUpper, not_exists, not_and,
    Bool.not_eq_true]
  constructor
  · intro h c hc
    exact (mem_nameChars_iff (hpath.2 c hc)).mp (h c hc)
  · intro h c hc
    exact (mem_nameChars_iff (hpath.2 c hc)).mpr (h c hc)

end Paths

/-! ## The calls -/

section Calls
variable {α β : Type}

/-- What is left out has no image. -/
theorem filterMap_filter_eq_iff {p : α → Bool} {g : α → Option β} {l : List α} :
    (l.filter p).filterMap g = l.filterMap g ↔ ∀ x ∈ l, p x = false → g x = none := by
  induction l with
  | nil => simp
  | cons x l ih =>
    rw [List.forall_mem_cons]
    cases hp : p x with
    | true =>
      rw [List.filter_cons_of_pos hp]
      cases hg : g x with
      | none =>
        rw [List.filterMap_cons_none hg, List.filterMap_cons_none hg, ih]
        simp
      | some b =>
        rw [List.filterMap_cons_some hg, List.filterMap_cons_some hg, List.cons_eq_cons, ih]
        simp
    | false =>
      rw [List.filter_cons_of_neg (by simp [hp])]
      cases hg : g x with
      | none =>
        rw [List.filterMap_cons_none hg, ih]
        simp
      | some b =>
        rw [List.filterMap_cons_some hg]
        have hshort : ((l.filter p).filterMap g).length ≤ (l.filterMap g).length :=
          (List.filter_sublist.filterMap g).length_le
        constructor
        · intro h
          have hlength := congrArg List.length h
          rw [List.length_cons] at hlength
          omega
        · intro h
          exact absurd (h.1 rfl) (by simp)

end Calls

section
variable {V : Type} (yaml : YamlCpp) (registry : String → Option V)

/-- Every node below the root, in pre-order, whose path is the name of a variable. -/
def callsDue (root : YamlNode) : List (V × String) :=
  (members "" root).filterMap fun member =>
    (registry (lower member.1)).map fun var => (var, nodeText yaml member.2)

theorem loadFromYaml_eq {root : YamlNode} (hkeyed : Keyed root) :
    loadFromYaml yaml registry root = ((members "" root).filter fun m => isName m.1).filterMap
      fun member => (registry (lower member.1)).map fun var => (var, nodeText yaml member.2) := by
  have hroot : ((("", root) :: members "" root).filter fun m => isName m.1) =
      ("", root) :: (members "" root).filter fun m => isName m.1 := List.filter_cons_of_pos rfl
  rw [loadFromYaml, listAllMember_eq, hroot, List.filterMap_cons_none rfl]
  refine List.filterMap_congr ?_
  intro m hm
  have hpath := members_isPath (by simp) root hkeyed m (List.mem_filter.mp hm).1
  rw [if_neg hpath.1]

end

end Config

open Config

/-- For every registry and every tree with such keys: the calls of `fromString` are those that
are due exactly when no variable is registered under the lower-cased path of a node whose path
has an upper-case letter. -/
theorem loadFromYaml_iff {V : Type} (yaml : YamlCpp) (registry : String → Option V)
    {root : YamlNode} (hkeyed : Keyed root) :
    loadFromYaml yaml registry root = callsDue yaml registry root ↔
      ∀ member ∈ members "" root, HasUpper member.1 → registry (lower member.1) = none := by
  rw [loadFromYaml_eq yaml registry hkeyed, callsDue, filterMap_filter_eq_iff]
  refine forall₂_congr fun member hmember => ?_
  have hpath := members_isPath (by simp) root hkeyed member hmember
  rw [Option.map_eq_none_iff, ← Bool.not_eq_true, isName_iff hpath, not_not]

/-! ## One variable -/

/-- A library that is not asked for the text of a scalar. -/
def scalarYaml : YamlCpp where
  emit _ := ""
  load _ := .error .parse
  isIndex _ _ := false
  nullString := .error .badConversion

def portRegistry (name : String) : Option Unit := if name = "server.port" then some () else none

def serverTree (key : String) : YamlNode :=
  .map [(.scalar key, .map [(.scalar "port", .scalar "80")])]

theorem loadFromYaml_iff_port :
    loadFromYaml scalarYaml portRegistry (serverTree "server") =
      callsDue scalarYaml portRegistry (serverTree "server") := by
  refine (loadFromYaml_iff scalarYaml portRegistry ?_).mpr ?_
  · refine ⟨⟨⟨"server",rfl,by decide,?_⟩,⟨⟨"port",rfl,by decide,?_⟩,trivial⟩,trivial⟩,trivial⟩
    · intro c hc
      have hall : "server".toList.all Char.isAlpha = true := rfl
      exact .inl (List.all_eq_true.mp hall c hc)
    · intro c hc
      have hall : "port".toList.all Char.isAlpha = true := rfl
      exact .inl (List.all_eq_true.mp hall c hc)
  · intro member hmember hupper
    obtain ⟨c,hc,hcase⟩ := hupper
    have hall : (members "" (serverTree "server")).all
        (fun m => m.1.toList.all fun c => !c.isUpper) = true := rfl
    have hlower := List.all_eq_true.mp (List.all_eq_true.mp hall member hmember) c hc
    rw [hcase] at hlower
    cases hlower

/-- The key `Server` hides the variable `server.port`. -/
theorem upper_case_key_skipped :
    loadFromYaml scalarYaml portRegistry (serverTree "Server") = [] ∧
    callsDue scalarYaml portRegistry (serverTree "Server") = [((), "80")] := by
  decide

end Gudov
