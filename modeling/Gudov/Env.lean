import Gudov.HttpMessage
import Gudov.LatestCalls
import Mathlib.Data.List.DropRight

/-!
# `Env`

The options of the command line: a key behind a hyphen, with or without a value. The loop of `Init`
holds a key back until it has seen the next argument, which is its value or shows that it has none.
It takes exactly the lists that are groups of a key and perhaps a value, and stores the groups in
order. A key may begin with a hyphen itself, a value may not.
-/
namespace Gudov
open LatestCalls

/-- The characters before the null character. -/
structure CString where
  chars : List UInt8
  noNull : 0 ∉ chars

def hyphen : UInt8 := 45

namespace CString

/-- `s[0]`, the null character if there is no other. -/
def first (s : CString) : UInt8 := s.chars.headD 0

def strlen (s : CString) : ℕ := s.chars.length

end CString

/-- An option without its hyphen. -/
structure Key extends CString where
  ne_nil : chars ≠ []

namespace CString

/-- `s + 1`, where the string goes on there. -/
def key (s : CString) (h : 1 < s.strlen) : Key where
  chars := s.chars.tail
  noNull hmem := s.noNull (List.mem_of_mem_tail hmem)
  ne_nil hnil := by
    have hlength := congrArg List.length hnil
    rw [List.length_tail, List.length_nil] at hlength
    unfold strlen at h
    omega

end CString

/-- What `readlink` gives where it succeeds. A path of 1024 bytes or more is left out: it fills the
buffer, and no null character is behind it. -/
structure ExePath extends CString where
  ne_nil : chars ≠ []
  fits : chars.length < 1024

/-- Nothing depends on the order of `args_`. -/
structure Env where
  args : List UInt8 → Option (List UInt8)
  program : List UInt8
  exe : List UInt8
  cwd : List UInt8

namespace Env

def new : Env := ⟨fun _ => none,[],[],[]⟩

def add (key val : List UInt8) (env : Env) : Env :=
  { env with args := fun k => if k = key then some val else env.args k }

def has (key : List UInt8) (env : Env) : Bool := (env.args key).isSome

def del (key : List UInt8) (env : Env) : Env :=
  { env with args := fun k => if k = key then none else env.args k }

def get (key defaultValue : List UInt8) (env : Env) : List UInt8 :=
  (env.args key).getD defaultValue

/-! ## Initialization -/

/-- `if (now_key) { Add(now_key, ""); }` -/
def flush (nowKey : Option Key) (env : Env) : Env :=
  match nowKey with
  | some key => env.add key.chars []
  | none => env

/-- The loop over the arguments and what follows it. -/
def optionLoop : List CString → Option Key → Env → Bool × Env
  | [], nowKey, env => (true, env.flush nowKey)
  | arg :: args, nowKey, env =>
    if arg.first = hyphen then
      if h : 1 < arg.strlen then optionLoop args (some (arg.key h)) (env.flush nowKey)
      else (false, env)
    else
      match nowKey with
      | some key => optionLoop args none (env.add key.chars arg.chars)
      | none => (false, env)

def slash : UInt8 := 47

/-- `substr(0, find_last_of("/"))`, which is all of a path without a slash. -/
def directory (path : List UInt8) : List UInt8 :=
  if slash ∈ path then (path.rdropWhile (· ≠ slash)).dropLast else path

/-- `args` is what follows the name of the program. -/
def init (link : Option ExePath) (program : CString) (args : List CString) (env : Env) :
    Bool × Env :=
  match link with
  | none => (false, env)
  | some path =>
    optionLoop args none
      { env with
        exe := path.chars
        cwd := directory path.chars ++ [slash]
        program := program.chars }

def getAbsolutePath (path : List UInt8) (env : Env) : List UInt8 :=
  if path = [] then [slash] else if path.head? = some slash then path else env.cwd ++ path

def getConfigPath (env : Env) : List UInt8 :=
  env.getAbsolutePath (env.get (bytes "c") (bytes "conf"))

end Env

/-! ## Groups -/

/-- The argument `-k`. -/
def Key.option (key : Key) : CString where
  chars := hyphen :: key.chars
  noNull hmem := by
    rcases List.mem_cons.mp hmem with h | h
    · exact absurd h (by decide)
    · exact key.noNull h

theorem Key.one_lt_strlen (key : Key) : 1 < key.option.strlen := by
  have hpos := List.length_pos_of_ne_nil key.ne_nil
  exact Nat.succ_lt_succ hpos

theorem CString.key_option (s : CString) (hfirst : s.first = hyphen) (h : 1 < s.strlen) :
    (s.key h).option = s := by
  obtain ⟨chars,hnull⟩ := s
  cases chars with
  | nil => exact absurd h (Nat.not_lt_zero 1)
  | cons c cs =>
    cases hfirst
    rfl

/-- `-k` or `-k v`. -/
structure OptionGroup where
  key : Key
  value : Option CString
  value_first : ∀ v ∈ value, v.first ≠ hyphen

namespace OptionGroup

def ofKey (key : Key) : OptionGroup where
  key := key
  value := none
  value_first _ h := by cases h

def ofValue (key : Key) (v : CString) (h : v.first ≠ hyphen) : OptionGroup where
  key := key
  value := some v
  value_first _ hmem := by
    cases hmem
    exact h

def text (g : OptionGroup) : List UInt8 :=
  match g.value with
  | some v => v.chars
  | none => []

def render (g : OptionGroup) : List CString := g.key.option :: g.value.toList

def renderAll (gs : List OptionGroup) : List CString := gs.flatMap render

theorem renderAll_cons (g : OptionGroup) (gs : List OptionGroup) :
    renderAll (g :: gs) = g.render ++ renderAll gs := List.flatMap_cons

/-- What a group says about its key. -/
def stored (g : OptionGroup) : Option (Op (List UInt8) (List UInt8)) :=
  some (.put g.key.chars g.text)

end OptionGroup

namespace Env
open OptionGroup

def addAll (gs : List OptionGroup) (env : Env) : Env :=
  gs.foldl (fun env g => env.add g.key.chars g.text) env

/-- The key that is held back, as the argument it was. -/
def pending (nowKey : Option Key) : List CString := (nowKey.map Key.option).toList

/-- An argument that the loop does not take: a hyphen alone, or a value without a key. -/
def Rejects (nowKey : Option Key) (arg : CString) : Prop :=
  (arg.first = hyphen ∧ arg.strlen ≤ 1) ∨ (arg.first ≠ hyphen ∧ nowKey = none)

section Loop
variable {args : List CString} {nowKey : Option Key} {env : Env}

theorem optionLoop_key {arg : CString} (hfirst : arg.first = hyphen) (hlength : 1 < arg.strlen) :
    optionLoop (arg :: args) nowKey env =
      optionLoop args (some (arg.key hlength)) (env.flush nowKey) := by
  rw [optionLoop.eq_def]
  simp only [hfirst, hlength, if_true, dif_pos]

theorem optionLoop_value {arg : CString} (hfirst : arg.first ≠ hyphen) (key : Key) :
    optionLoop (arg :: args) (some key) env =
      optionLoop args none (env.add key.chars arg.chars) := by
  rw [optionLoop.eq_def]
  simp only [hfirst, if_false]

theorem optionLoop_rejects {arg : CString} (h : Rejects nowKey arg) :
    optionLoop (arg :: args) nowKey env = (false, env) := by
  rw [optionLoop.eq_def]
  rcases h with ⟨hfirst,hlength⟩ | ⟨hfirst,rfl⟩
  · simp only [hfirst, Nat.not_lt_of_le hlength, if_true, dif_neg, not_false_eq_true]
  · simp only [hfirst, if_false]

theorem renderAll_append (gs hs : List OptionGroup) :
    renderAll (gs ++ hs) = renderAll gs ++ renderAll hs := List.flatMap_append

theorem addAll_append (gs hs : List OptionGroup) (env : Env) :
    env.addAll (gs ++ hs) = (env.addAll gs).addAll hs := List.foldl_append

/-- A key that has no value is a group of its own. -/
theorem flush_eq_addAll (nowKey : Option Key) (env : Env) :
    ∃ gs, pending nowKey = renderAll gs ∧ env.flush nowKey = env.addAll gs := by
  cases nowKey with
  | none => exact ⟨[],rfl,rfl⟩
  | some key => exact ⟨[.ofKey key],rfl,rfl⟩

/-- The arguments are groups, which are stored, or they are groups up to one that is rejected
behind a key or none. -/
def Reads (args : List CString) (env : Env) (r : Bool × Env) : Prop :=
  (∃ gs, args = renderAll gs ∧ r = (true, env.addAll gs)) ∨
    ∃ gs nowKey arg rest, args = renderAll gs ++ (pending nowKey ++ arg :: rest) ∧
      Rejects nowKey arg ∧ r = (false, env.addAll gs)

theorem Reads.append {r : Bool × Env} (gs : List OptionGroup) (h : Reads args (env.addAll gs) r) :
    Reads (renderAll gs ++ args) env r := by
  rcases h with ⟨hs,rfl,rfl⟩ | ⟨hs,nowKey,arg,rest,rfl,hrejects,rfl⟩
  · exact .inl ⟨gs ++ hs,(renderAll_append gs hs).symm,by rw [addAll_append]⟩
  · refine .inr ⟨gs ++ hs,nowKey,arg,rest,?_,hrejects,by rw [addAll_append]⟩
    rw [renderAll_append, List.append_assoc]

/-- The key held back from before belongs to the first group. -/
theorem optionLoop_reads (args : List CString) (nowKey : Option Key) (env : Env) :
    Reads (pending nowKey ++ args) env (optionLoop args nowKey env) := by
  induction args generalizing nowKey env with
  | nil =>
    obtain ⟨gs,hgs,hflush⟩ := flush_eq_addAll nowKey env
    refine .inl ⟨gs,?_,?_⟩
    · rw [List.append_nil, hgs]
    · rw [optionLoop, hflush]
  | cons arg args ih =>
    by_cases hrejects : Rejects nowKey arg
    · rw [optionLoop_rejects hrejects]
      exact .inr ⟨[],nowKey,arg,args,rfl,hrejects,rfl⟩
    · simp only [Rejects, not_or, not_and, Nat.not_le] at hrejects
      by_cases hfirst : arg.first = hyphen
      · -- the key held back has no value
        have hlength := hrejects.1 hfirst
        obtain ⟨gs,hgs,hflush⟩ := flush_eq_addAll nowKey env
        have hread := (ih (some (arg.key hlength)) (env.addAll gs)).append gs
        rw [optionLoop_key hfirst hlength, hflush, hgs]
        rwa [pending, Option.map_some, CString.key_option arg hfirst hlength] at hread
      · cases nowKey with
        | none => exact absurd rfl (hrejects.2 hfirst)
        | some key =>
          -- the key held back has this value
          rw [optionLoop_value hfirst]
          exact (ih none (env.add key.chars arg.chars)).append [.ofValue key arg hfirst]

/-- A key that is held back is stored without a value if the groups go on, or end. -/
theorem optionLoop_pending (gs : List OptionGroup) (key : Key) (env : Env) :
    optionLoop (renderAll gs) (some key) env =
      optionLoop (renderAll gs) none (env.add key.chars []) := by
  cases gs with
  | nil => rfl
  | cons g gs =>
    rw [renderAll_cons, render, List.cons_append]
    rw [optionLoop_key rfl g.key.one_lt_strlen, optionLoop_key rfl g.key.one_lt_strlen]
    rfl

theorem optionLoop_renderAll (gs : List OptionGroup) (env : Env) :
    optionLoop (renderAll gs) none env = (true, env.addAll gs) := by
  induction gs generalizing env with
  | nil => rfl
  | cons g gs ih =>
    obtain ⟨key,value,hvalue⟩ := g
    rw [renderAll_cons, render, List.cons_append, optionLoop_key rfl key.one_lt_strlen]
    cases value with
    | none => exact (optionLoop_pending gs key env).trans (ih _)
    | some v =>
      have hfirst : v.first ≠ hyphen := hvalue v rfl
      exact (optionLoop_value hfirst key).trans (ih _)

end Loop

/-! ## What is stored -/

/-- Each key has the value of its last group, the others are as before. -/
structure Stores (gs : List OptionGroup) (before after : Env) : Prop where
  latest : ∀ i k v, Latest stored gs i k v → after.args k = some v
  other : ∀ k, (∀ g ∈ gs, g.key.chars ≠ k) → after.args k = before.args k

theorem addAll_stores (gs : List OptionGroup) (env : Env) : Stores gs env (env.addAll gs) := by
  induction gs using List.reverseRecOn with
  | nil => exact ⟨fun i k v h => absurd h latest_nil,fun k _ => rfl⟩
  | append_singleton gs g ih =>
    have hargs : ∀ k, (env.addAll (gs ++ [g])).args k =
        if k = g.key.chars then some g.text else (env.addAll gs).args k := by
      intro k
      rw [addAll_append]
      rfl
    constructor
    · intro i k v h
      rw [hargs]
      rcases latest_append.mp h with ⟨hlatest,hother⟩ | ⟨rfl,hput⟩
      · have hne : g.key.chars ≠ k := hother _ rfl
        rw [if_neg hne.symm]
        exact ih.latest i k v hlatest
      · cases hput
        exact if_pos rfl
    · intro k hk
      rw [hargs, if_neg (hk g (by simp)).symm]
      exact ih.other k fun g' hg' => hk g' (List.mem_append_left _ hg')

/-- So there are the keys of the groups and those from before. -/
theorem Stores.has_iff {gs : List OptionGroup} {before after : Env} (h : Stores gs before after)
    (k : List UInt8) :
    after.has k = true ↔ (∃ g ∈ gs, g.key.chars = k) ∨ before.has k = true := by
  by_cases hk : ∃ g ∈ gs, g.key.chars = k
  · refine iff_of_true ?_ (.inl hk)
    obtain ⟨g,hg,rfl⟩ := hk
    have hput : ∃ g' ∈ gs, ∃ v, stored g' = some (.put g.key.chars v) := ⟨g,hg,g.text,rfl⟩
    obtain ⟨i,v,hlatest⟩ := exists_latest hput fun _ _ => nofun
    rw [has, h.latest i _ v hlatest]
    rfl
  · rw [or_iff_right hk, has, has, h.other k fun g hg hkey => hk ⟨g,hg,hkey⟩]

/-! ## Paths -/

theorem addAll_cwd (gs : List OptionGroup) (env : Env) : (env.addAll gs).cwd = env.cwd := by
  induction gs generalizing env with
  | nil => rfl
  | cons g gs ih => exact ih _

theorem optionLoop_cwd (args : List CString) (nowKey : Option Key) (env : Env) :
    (optionLoop args nowKey env).2.cwd = env.cwd := by
  rcases optionLoop_reads args nowKey env with ⟨gs,_,hloop⟩ | ⟨gs,_,_,_,_,_,hloop⟩
  · rw [hloop, addAll_cwd]
  · rw [hloop, addAll_cwd]

theorem directory_append {path : List UInt8} (h : slash ∈ path) :
    directory path ++ [slash] = path.rdropWhile (· ≠ slash) := by
  have hne : path.rdropWhile (· ≠ slash) ≠ [] := by
    intro hnil
    rw [List.rdropWhile_eq_nil_iff] at hnil
    simpa using hnil slash h
  have hlast : (path.rdropWhile (· ≠ slash)).getLast hne = slash := by
    simpa using List.rdropWhile_last_not (fun c => decide (c ≠ slash)) path hne
  rw [directory, if_pos h]
  conv_rhs => rw [← List.dropLast_append_getLast hne, hlast]

/-- `cwd_` is the path of the program up to its last slash, whether the options are taken or not. -/
theorem init_cwd (link : ExePath) (program : CString) (args : List CString) (env : Env)
    (h : slash ∈ link.chars) :
    ∃ name, link.chars = (env.init (some link) program args).2.cwd ++ name ∧ slash ∉ name := by
  rw [init, optionLoop_cwd, directory_append h]
  refine ⟨link.chars.rtakeWhile (· ≠ slash),List.rdropWhile_append_rtakeWhile.symm,?_⟩
  intro hmem
  simpa using List.mem_rtakeWhile_imp hmem

/-- With an absolute `cwd_` every path is made absolute. -/
theorem getAbsolutePath_head {env : Env} (h : env.cwd.head? = some slash) (path : List UInt8) :
    (env.getAbsolutePath path).head? = some slash := by
  unfold getAbsolutePath
  split
  · rfl
  · split
    · assumption
    · rw [List.head?_append, h]
      rfl

/-- The program's own path is absolute, and then the path of the configuration is. -/
theorem getConfigPath_head (link : ExePath) (program : CString) (args : List CString) (env : Env)
    (h : link.chars.head? = some slash) :
    (env.init (some link) program args).2.getConfigPath.head? = some slash := by
  refine getAbsolutePath_head ?_ _
  obtain ⟨name,hname,hslash⟩ := init_cwd link program args env (List.mem_of_head? h)
  rw [hname, List.head?_append] at h
  cases hcwd : (env.init (some link) program args).2.cwd.head? with
  | none =>
    rw [hcwd, Option.none_or] at h
    exact absurd (List.mem_of_head? h) hslash
  | some c =>
    rw [hcwd] at h
    exact h

end Env

open Env OptionGroup

/-- `Init` succeeds exactly for the lists of groups, and stores the last value of each key. -/
theorem init_iff (link : ExePath) (program : CString) (args : List CString) (env : Env) :
    ((env.init (some link) program args).1 = true ↔ ∃ gs, args = renderAll gs) ∧
    ∀ gs, args = renderAll gs → Stores gs env (env.init (some link) program args).2 := by
  refine ⟨⟨?_,?_⟩,?_⟩
  · intro h
    rcases optionLoop_reads args none _ with ⟨gs,hgs,_⟩ | ⟨_,_,_,_,_,_,hloop⟩
    · exact ⟨gs,hgs⟩
    · rw [Env.init, hloop] at h
      cases h
  · rintro ⟨gs,rfl⟩
    rw [Env.init, optionLoop_renderAll]
  · rintro gs rfl
    rw [Env.init, optionLoop_renderAll]
    exact ⟨(addAll_stores gs _).latest,(addAll_stores gs _).other⟩

/-- `-c "" --d -c /a`, where a value is empty and a key begins with a hyphen. -/
example : (optionLoop [⟨[45, 99],by decide⟩, ⟨[],by decide⟩, ⟨[45, 45, 100],by decide⟩,
    ⟨[45, 99],by decide⟩, ⟨[47, 97],by decide⟩] none new).2.args [99] = some [47, 97] := by
  decide

/-- An `Init` that fails has stored the groups before the argument that it rejects; the key held
back there is lost. -/
theorem init_fails (link : ExePath) (program : CString) (args : List CString) (env : Env)
    (h : (env.init (some link) program args).1 = false) :
    ∃ gs nowKey arg rest, args = renderAll gs ++ (pending nowKey ++ arg :: rest) ∧
      Rejects nowKey arg ∧ Stores gs env (env.init (some link) program args).2 := by
  rw [Env.init] at h ⊢
  rcases optionLoop_reads args none _ with ⟨gs,_,hloop⟩ | ⟨gs,nowKey,arg,rest,hargs,hrejects,hloop⟩
  · rw [hloop] at h
    cases h
  · refine ⟨gs,nowKey,arg,rest,hargs,hrejects,?_⟩
    rw [hloop]
    exact ⟨(addAll_stores gs _).latest,(addAll_stores gs _).other⟩

end Gudov
