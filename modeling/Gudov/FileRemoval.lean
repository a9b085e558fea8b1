import Gudov.CallOutcome

/-!
# Removing a tree of files

`FSUtil::Rm` removes what stands at a path, and below a directory everything it reads there.
Each system call may be refused, for whatever reason the kernel has. `Unlink` asks for the
state of a file once more, and takes a file that is hidden then for one that is gone; the loop
over a directory ends where an entry cannot be read. Two slips meet here: the loop keeps only
the answer of the last entry, and `st_mode & S_IFDIR` is not zero for sockets and block devices
either. The first does no harm, because a directory with something left in it cannot be removed.
-/
namespace Gudov

inductive FileKind
  | regular
  | symlink
  | socket
  | block
  | character
  | fifo
deriving Repr, DecidableEq

def sIfdir : BitVec 16 := 0o040000#16

/-- The type bits of `st_mode`. -/
def FileKind.mode : FileKind → BitVec 16
  | .regular => 0o100000#16
  | .symlink => 0o120000#16
  | .socket => 0o140000#16
  | .block => 0o060000#16
  | .character => 0o020000#16
  | .fifo => 0o010000#16

/-- `st_mode & S_IFDIR`, as a truth value. -/
def FileKind.hasDirBit (kind : FileKind) : Bool := kind.mode &&& sIfdir != 0

/-- What stands at a path; a link is not followed. -/
inductive FileTree
  | file (kind : FileKind)
  | dir (entries : List (String × FileTree))

namespace FSUtil

/-- The system calls of `Rm`. A `readdir` is that of the entry it would return, and `unlinkLstat`
is the second `lstat` of a path, the one in `Unlink`. -/
inductive SysCall
  | lstat
  | unlinkLstat
  | unlink
  | opendir
  | readdir
  | rmdir
deriving Repr, DecidableEq

section
variable (refuses : SysCall → List String → Bool)

/-- `FSUtil::Unlink` at a path where a file stands. -/
def unlink (path : List String) (exist : Bool) (kind : FileKind) : Bool × Option FileTree :=
  if !exist && refuses .unlinkLstat path then (true, some (.file kind))
  else if refuses .unlink path then (false, some (.file kind)) else (true, none)

mutual

/-- `FSUtil::Rm` at a path where something stands, with what is left there. A file that is
taken for a directory cannot be opened as one. -/
def rm (path : List String) : FileTree → Bool × Option FileTree
  | .file kind =>
    if refuses .lstat path then (true, some (.file kind))
    else if !kind.hasDirBit then unlink refuses path false kind
    else (false, some (.file kind))
  | .dir entries =>
    if refuses .lstat path then (true, some (.dir entries))
    else if refuses .opendir path then (false, some (.dir entries))
    else
      let (ret, left) := rmEntries path true entries
      if left.isEmpty && !refuses .rmdir path then (ret, none) else (false, some (.dir left))

/-- The loop over the entries of a directory; `ret` is the answer so far. -/
def rmEntries (path : List String) (ret : Bool) :
    List (String × FileTree) → Bool × List (String × FileTree)
  | [] => (ret, [])
  | entry :: entries =>
    if refuses .readdir (path ++ [entry.1]) then (ret, entry :: entries)
    else
      let (ret, left) := rmEntry path entry
      let (ret, lefts) := rmEntries path ret entries
      (ret, left ++ lefts)

def rmEntry (path : List String) : String × FileTree → Bool × List (String × FileTree)
  | (name, t) =>
    let (ret, left) := rm (path ++ [name]) t
    (ret, left.toList.map fun t => (name, t))

end

/-- `FSUtil::Rm`, also where nothing stands. -/
def rmPath (path : List String) : Option FileTree → Bool × Option FileTree
  | none => (true, none)
  | some t => rm refuses path t

end

/-! ## The files of a tree -/

/-- A file with what `Rm` comes by on the way to it. -/
structure Located where
  path : List String
  kind : FileKind
  /-- The directories it is in, from the top one on. -/
  dirs : List (List String)
  /-- The entries that are read in each of them, up to the one it is or is in. -/
  entries : List (List String)

def Located.file (l : Located) : List String × FileKind := (l.path, l.kind)

mutual

def located (path : List String) : FileTree → List Located
  | .file kind => [⟨path,kind,[],[]⟩]
  | .dir entries =>
    (locatedEntries path [] entries).map fun l => { l with dirs := path :: l.dirs }

/-- With the entries that are read before. -/
def locatedEntries (path : List String) (before : List (List String)) :
    List (String × FileTree) → List Located
  | [] => []
  | entry :: entries =>
    locatedEntry path (before ++ [path ++ [entry.1]]) entry ++
      locatedEntries path (before ++ [path ++ [entry.1]]) entries

def locatedEntry (path : List String) (before : List (List String)) :
    String × FileTree → List Located
  | (name, t) =>
    (located (path ++ [name]) t).map fun l => { l with entries := before ++ l.entries }

end

/-- The files of a tree with their paths. -/
def files (path : List String) (t : FileTree) : List (List String × FileKind) :=
  (located path t).map Located.file

/-- The files of what is left. -/
def filesLeft (path : List String) : Option FileTree → List (List String × FileKind)
  | none => []
  | some t => files path t

/-- The file stays: a directory on the way to it is hidden or not opened, one of the entries up
to it is not read, it is hidden itself, it is taken for a directory, or its removal is refused. -/
def Located.stays (refuses : SysCall → List String → Bool) (l : Located) : Bool :=
  l.dirs.any (fun d => refuses .lstat d || refuses .opendir d) ||
    l.entries.any (refuses .readdir) ||
    (refuses .lstat l.path || l.kind.hasDirBit || refuses .unlinkLstat l.path ||
      refuses .unlink l.path)

/-- The path itself is hidden from an `lstat`. -/
def hidden (refuses : SysCall → List String → Bool) (path : List String) : FileTree → Bool
  | .file kind => refuses .lstat path || (!kind.hasDirBit && refuses .unlinkLstat path)
  | .dir _ => refuses .lstat path

section
variable {refuses : SysCall → List String → Bool}

mutual

/-- The answer is whether nothing is left, unless the path itself is hidden. -/
theorem rm_truthful : ∀ (path : List String) (t : FileTree),
    (rm refuses path t).1 = true ↔ (rm refuses path t).2 = none ∨ hidden refuses path t = true
  | path, .file kind => by
    unfold rm unlink hidden
    split_ifs <;> simp_all
  | path, .dir entries => by
    unfold rm hidden
    dsimp only
    split_ifs with hlstat hopen hgone
    · simp [hlstat]
    · simp [hlstat]
    · rw [Bool.and_eq_true, List.isEmpty_iff] at hgone
      simp [rmEntries_true path entries hgone.1]
    · simp [hlstat]

/-- If nothing is left of the entries, the last answer was true. -/
theorem rmEntries_true : ∀ (path : List String) (entries : List (String × FileTree)),
    (rmEntries refuses path true entries).2 = [] → (rmEntries refuses path true entries).1 = true
  | path, [], _ => rfl
  | path, entry :: entries, h => by
    unfold rmEntries at h ⊢
    split_ifs at h ⊢ with hread
    dsimp only at h ⊢
    obtain ⟨hentry,hentries⟩ := List.append_eq_nil_iff.mp h
    have hfirst := rmEntry_true path entry hentry
    rw [hfirst] at hentries ⊢
    exact rmEntries_true path entries hentries

theorem rmEntry_true : ∀ (path : List String) (entry : String × FileTree),
    (rmEntry refuses path entry).2 = [] → (rmEntry refuses path entry).1 = true
  | path, (name, t), h => by
    have htruthful := rm_truthful (path ++ [name]) t
    refine htruthful.mpr (Or.inl ?_)
    cases hleft : (rm refuses (path ++ [name]) t).2 with
    | none => rfl
    | some t' =>
      change ((rm refuses (path ++ [name]) t).2.toList.map fun t => (name, t)) = [] at h
      rw [hleft] at h
      cases h

end

def entriesFiles (path : List String) (entries : List (String × FileTree)) :
    List (List String × FileKind) :=
  entries.flatMap fun entry => files (path ++ [entry.1]) entry.2

theorem locatedEntry_file (path : List String) (before : List (List String))
    (entry : String × FileTree) :
    (locatedEntry path before entry).map Located.file = files (path ++ [entry.1]) entry.2 := by
  rw [locatedEntry, List.map_map]
  rfl

/-- What is read before makes no difference to the files. -/
theorem locatedEntries_file (path : List String) (before : List (List String))
    (entries : List (String × FileTree)) :
    (locatedEntries path before entries).map Located.file = entriesFiles path entries := by
  induction entries generalizing before with
  | nil => rfl
  | cons entry entries ih =>
    rw [locatedEntries, List.map_append, ih, locatedEntry_file, entriesFiles, entriesFiles,
      List.flatMap_cons]

theorem files_dir (path : List String) (entries : List (String × FileTree)) :
    files path (.dir entries) = entriesFiles path entries := by
  rw [files, located, List.map_map, ← locatedEntries_file path []]
  rfl

theorem stays_dir {path : List String} (l : Located) :
    { l with dirs := path :: l.dirs : Located }.stays refuses =
      (refuses .lstat path || refuses .opendir path || l.stays refuses) := by
  simp only [Located.stays, List.any_cons, Bool.or_assoc]

theorem stays_entries {before : List (List String)} (l : Located) :
    { l with entries := before ++ l.entries : Located }.stays refuses =
      (before.any (refuses .readdir) || l.stays refuses) := by
  simp only [Located.stays, List.any_append, Bool.or_assoc, Bool.or_left_comm]

theorem stays_of_unread {path : List String} {before : List (List String)}
    {entry : String × FileTree} {l : Located} (h : before.any (refuses .readdir) = true)
    (hl : l ∈ locatedEntry path before entry) : l.stays refuses = true := by
  rw [locatedEntry] at hl
  obtain ⟨m,-,rfl⟩ := List.mem_map.mp hl
  rw [stays_entries, h, Bool.true_or]

/-- From an entry on that is not read everything stays. -/
theorem stays_behind {path : List String} {before : List (List String)}
    {entry : String × FileTree} {entries : List (String × FileTree)} {l : Located}
    (h : (before ++ [path ++ [entry.1]]).any (refuses .readdir) = true)
    (hl : l ∈ locatedEntries path before (entry :: entries)) : l.stays refuses = true := by
  induction entries generalizing before entry with
  | nil =>
    rw [locatedEntries, locatedEntries, List.append_nil] at hl
    exact stays_of_unread h hl
  | cons next entries ih =>
    rcases List.mem_append.mp hl with hl | hl
    · exact stays_of_unread h hl
    · refine ih ?_ hl
      rw [List.any_append, h, Bool.true_or]

mutual

theorem files_rm : ∀ (path : List String) (t : FileTree), filesLeft path (rm refuses path t).2 =
    ((located path t).filter (Located.stays refuses)).map Located.file
  | path, .file kind => by
    unfold rm unlink
    simp only [located, List.filter_singleton, Located.stays, List.any_nil, Bool.false_or,
      Bool.not_false, Bool.true_and]
    cases hlstat : refuses .lstat path <;> cases hbit : kind.hasDirBit <;>
      cases hagain : refuses .unlinkLstat path <;> cases hunlink : refuses .unlink path <;> rfl
  | path, .dir entries => by
    have hstays : (rm refuses path (.dir entries)).2 = some (.dir entries) →
        (refuses .lstat path || refuses .opendir path) = true →
        filesLeft path (rm refuses path (.dir entries)).2 =
          ((located path (.dir entries)).filter (Located.stays refuses)).map Located.file := by
      intro hleft hclosed
      rw [hleft, List.filter_eq_self.mpr, filesLeft, files]
      intro l hl
      obtain ⟨m,-,rfl⟩ := List.mem_map.mp hl
      rw [stays_dir, hclosed, Bool.true_or]
    by_cases hlstat : refuses .lstat path = true
    · exact hstays (by rw [rm, if_pos hlstat]) (by rw [hlstat, Bool.true_or])
    by_cases hopen : refuses .opendir path = true
    · exact hstays (by rw [rm, if_neg hlstat, if_pos hopen]) (by rw [hopen, Bool.or_true])
    have hentries := files_rmEntries path [] true rfl entries
    have hfilter : ((located path (.dir entries)).filter (Located.stays refuses)).map
        Located.file =
          ((locatedEntries path [] entries).filter (Located.stays refuses)).map Located.file := by
      rw [located, List.filter_map, List.map_map]
      congr 1
      refine List.filter_congr fun l _ => ?_
      rw [Function.comp_apply, stays_dir, Bool.eq_false_iff.mpr hlstat,
        Bool.eq_false_iff.mpr hopen, Bool.or_self, Bool.false_or]
    rw [hfilter, ← hentries, rm, if_neg hlstat, if_neg hopen]
    dsimp only
    split_ifs with hgone
    · rw [Bool.and_eq_true, List.isEmpty_iff] at hgone
      rw [hgone.1]
      rfl
    · exact files_dir path _

theorem files_rmEntries : ∀ (path : List String) (before : List (List String)) (ret : Bool),
    before.any (refuses .readdir) = false → ∀ entries : List (String × FileTree),
      entriesFiles path (rmEntries refuses path ret entries).2 =
        ((locatedEntries path before entries).filter (Located.stays refuses)).map Located.file
  | path, before, ret, _, [] => rfl
  | path, before, ret, hbefore, entry :: entries => by
    by_cases hread : refuses .readdir (path ++ [entry.1]) = true
    · have hunread : (before ++ [path ++ [entry.1]]).any (refuses .readdir) = true := by
        rw [List.any_append, List.any_cons, hread, Bool.true_or, Bool.or_true]
      rw [rmEntries, if_pos hread, List.filter_eq_self.mpr fun _ => stays_behind hunread,
        locatedEntries_file]
    · have hnext : (before ++ [path ++ [entry.1]]).any (refuses .readdir) = false := by
        rw [List.any_append, hbefore, List.any_cons, Bool.eq_false_iff.mpr hread]
        rfl
      rw [rmEntries, if_neg hread, locatedEntries, List.filter_append, List.map_append,
        ← files_rmEntry path _ hnext entry,
        ← files_rmEntries path _ (rmEntry refuses path entry).1 hnext entries]
      exact List.flatMap_append

theorem files_rmEntry : ∀ (path : List String) (before : List (List String)),
    before.any (refuses .readdir) = false → ∀ entry : String × FileTree,
      entriesFiles path (rmEntry refuses path entry).2 =
        ((locatedEntry path before entry).filter (Located.stays refuses)).map Located.file
  | path, before, hbefore, (name, t) => by
    have hleft : entriesFiles path (rmEntry refuses path (name, t)).2 =
        filesLeft (path ++ [name]) (rm refuses (path ++ [name]) t).2 := by
      change entriesFiles path ((rm refuses (path ++ [name]) t).2.toList.map
        fun t => (name, t)) = _
      cases (rm refuses (path ++ [name]) t).2 with
      | none => rfl
      | some t' => exact List.flatMap_singleton _ _
    rw [hleft, files_rm, locatedEntry, List.filter_map, List.map_map]
    congr 1
    refine List.filter_congr fun l _ => ?_
    rw [Function.comp_apply, stays_entries, hbefore, Bool.false_or]

end

end

/-! ## When nothing is refused -/

def allows : SysCall → List String → Bool := fun _ _ => false

theorem stays_allows (l : Located) : l.stays allows = l.kind.hasDirBit := by
  simp [Located.stays, allows]

mutual

/-- A directory that is left has a file in it. -/
theorem rm_allows_left : ∀ (path : List String) (t t' : FileTree),
    (rm allows path t).2 = some t' → files path t' ≠ []
  | path, .file kind, t', h => by
    unfold rm unlink at h
    cases hbit : kind.hasDirBit
    · simp [allows, hbit] at h
    · simp [allows, hbit] at h
      rw [← h]
      exact List.cons_ne_nil _ _
  | path, .dir entries, t', h => by
    unfold rm at h
    simp only [allows, Bool.false_eq_true, if_false, Bool.not_false, Bool.and_true] at h
    split_ifs at h with hgone
    cases h
    rw [files_dir]
    exact rmEntries_allows_left path true entries fun hnil => hgone (List.isEmpty_iff.mpr hnil)

theorem rmEntries_allows_left : ∀ (path : List String) (ret : Bool)
    (entries : List (String × FileTree)), (rmEntries allows path ret entries).2 ≠ [] →
      entriesFiles path (rmEntries allows path ret entries).2 ≠ []
  | path, ret, [], h => absurd rfl h
  | path, ret, entry :: entries, h => by
    have hsplit : (rmEntries allows path ret (entry :: entries)).2 =
        (rmEntry allows path entry).2 ++
          (rmEntries allows path (rmEntry allows path entry).1 entries).2 := rfl
    rw [hsplit] at h
    rw [hsplit, entriesFiles, List.flatMap_append]
    intro hnil
    obtain ⟨hfirst,hrest⟩ := List.append_eq_nil_iff.mp hnil
    have hgone := rmEntry_allows_left path entry hfirst
    rw [hgone, List.nil_append] at h
    exact rmEntries_allows_left path _ entries h hrest

theorem rmEntry_allows_left : ∀ (path : List String) (entry : String × FileTree),
    entriesFiles path (rmEntry allows path entry).2 = [] → (rmEntry allows path entry).2 = []
  | path, (name, t), h => by
    change ((rm allows (path ++ [name]) t).2.toList.map fun t => (name, t)) = []
    change entriesFiles path ((rm allows (path ++ [name]) t).2.toList.map fun t => (name, t)) = []
      at h
    cases hleft : (rm allows (path ++ [name]) t).2 with
    | none => rfl
    | some t' =>
      rw [hleft] at h
      obtain ⟨hfiles,-⟩ := List.append_eq_nil_iff.mp h
      exact absurd hfiles (rm_allows_left (path ++ [name]) t t' hleft)

end

theorem hasDirBit_iff (kind : FileKind) :
    kind.hasDirBit = true ↔ kind = .socket ∨ kind = .block := by
  cases kind <;> decide

theorem rmPath_truthful (refuses : SysCall → List String → Bool) (path : List String)
    (t : Option FileTree) : (rmPath refuses path t).1 = true ↔
      (rmPath refuses path t).2 = none ∨ ∃ u, t = some u ∧ hidden refuses path u = true := by
  cases t with
  | none => exact iff_of_true rfl (Or.inl rfl)
  | some t =>
    rw [rmPath, rm_truthful]
    simp only [Option.some.injEq, exists_eq_left']

/-- The files of what stands at a path, with the way to each. -/
def locatedAt (path : List String) : Option FileTree → List Located
  | none => []
  | some t => located path t

theorem files_rmPath (refuses : SysCall → List String → Bool) (path : List String)
    (t : Option FileTree) : filesLeft path (rmPath refuses path t).2 =
      ((locatedAt path t).filter (Located.stays refuses)).map Located.file := by
  cases t with
  | none => rfl
  | some t => exact files_rm path t

/-- Whatever calls are refused: `Rm` answers true exactly when nothing is left at the path or the
path itself is hidden from an `lstat`, and of the files below it exactly those stay of which
`Located.stays` holds. So without refusals it succeeds exactly when there is no socket and no
block device in the tree. -/
theorem rm_removes (refuses : SysCall → List String → Bool) (path : List String)
    (t : Option FileTree) :
    ((rmPath refuses path t).1 = true ↔
      (rmPath refuses path t).2 = none ∨ ∃ u, t = some u ∧ hidden refuses path u = true) ∧
    filesLeft path (rmPath refuses path t).2 =
      ((locatedAt path t).filter (Located.stays refuses)).map Located.file ∧
    ((rmPath allows path t).1 = true ↔
      ∀ l ∈ locatedAt path t, l.kind ≠ .socket ∧ l.kind ≠ .block) := by
  refine ⟨rmPath_truthful refuses path t,files_rmPath refuses path t,?_⟩
  have hnone : (rmPath allows path t).2 = none ↔
      filesLeft path (rmPath allows path t).2 = [] := by
    constructor
    · intro h
      rw [h]
      rfl
    · intro h
      cases t with
      | none => rfl
      | some t =>
        cases hleft : (rmPath allows path (some t)).2 with
        | none => rfl
        | some t' =>
          rw [hleft] at h
          exact absurd h (rm_allows_left path t t' hleft)
  have hvisible : ¬ ∃ u, t = some u ∧ hidden allows path u = true := by
    rintro ⟨u,-,h⟩
    cases u <;> simp [hidden, allows] at h
  rw [rmPath_truthful, or_iff_left hvisible, hnone, files_rmPath, List.map_eq_nil_iff,
    List.filter_eq_nil_iff]
  refine forall₂_congr fun l _ => ?_
  rw [stays_allows, hasDirBit_iff, not_or]

end FSUtil

end Gudov
