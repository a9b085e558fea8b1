import Gudov.HttpMessage
import Gudov.LatestCalls

/-!
# The route table

A `ServletDispatch` has a map from paths, a vector of patterns in which the order decides, and
a default. The calls that change it are compared with what was said last about a path or a
pattern: this depends on the whole history, since a pattern that is added again moves to the
end of the vector.
-/
namespace Gudov
open LatestCalls

/-- Nothing depends on the order of `datas_`. -/
structure ServletDispatch (S : Type) where
  datas : List UInt8 → Option S
  globs : List (List UInt8 × S)
  default : S

namespace ServletDispatch
variable {S B : Type}

/-- With the `NotFoundServlet`. -/
def new (notFound : S) : ServletDispatch S := ⟨fun _ => none,[],notFound⟩

def addServlet (uri : List UInt8) (slt : S) (d : ServletDispatch S) : ServletDispatch S :=
  { d with datas := fun u => if u = uri then some slt else d.datas u }

def delServlet (uri : List UInt8) (d : ServletDispatch S) : ServletDispatch S :=
  { d with datas := fun u => if u = uri then none else d.datas u }

/-- The loop that erases the first entry of the pattern and leaves. -/
def eraseGlob (uri : List UInt8) : List (List UInt8 × S) → List (List UInt8 × S)
  | [] => []
  | e :: globs => if e.1 = uri then globs else e :: eraseGlob uri globs

def addGlobServlet (uri : List UInt8) (slt : S) (d : ServletDispatch S) : ServletDispatch S :=
  { d with globs := eraseGlob uri d.globs ++ [(uri, slt)] }

def delGlobServlet (uri : List UInt8) (d : ServletDispatch S) : ServletDispatch S :=
  { d with globs := eraseGlob uri d.globs }

def setDefault (v : S) (d : ServletDispatch S) : ServletDispatch S := { d with default := v }

def getServlet (uri : List UInt8) (d : ServletDispatch S) : Option S := d.datas uri

def getGlobServlet (uri : List UInt8) (d : ServletDispatch S) : Option S :=
  (d.globs.find? fun e => e.1 = uri).map Prod.snd

/-- `fnmatch` returns 0 for a match. -/
def getMatchedServlet (fnmatch : List UInt8 → List UInt8 → Int32) (uri : List UInt8)
    (d : ServletDispatch S) : S :=
  match d.datas uri with
  | some slt => slt
  | none =>
    match d.globs.find? fun e => fnmatch (cString e.1) (cString uri) = 0 with
    | some e => e.2
    | none => d.default

/-- The calls that change the table; two are overloaded for a callback. -/
inductive Call (S B : Type)
  | addServlet (uri : List UInt8) (slt : S)
  | addServletFunction (uri : List UInt8) (callback : B)
  | addGlobServlet (uri : List UInt8) (slt : S)
  | addGlobServletFunction (uri : List UInt8) (callback : B)
  | delServlet (uri : List UInt8)
  | delGlobServlet (uri : List UInt8)
  | setDefault (v : S)

section Calls
variable (functionServlet : B → S)

/-- One call, where `functionServlet` is `new FunctionServlet(callback)`. -/
def call (d : ServletDispatch S) : Call S B → ServletDispatch S
  | .addServlet uri slt => d.addServlet uri slt
  | .addServletFunction uri callback => d.addServlet uri (functionServlet callback)
  | .addGlobServlet uri slt => d.addGlobServlet uri slt
  | .addGlobServletFunction uri callback => d.addGlobServlet uri (functionServlet callback)
  | .delServlet uri => d.delServlet uri
  | .delGlobServlet uri => d.delGlobServlet uri
  | .setDefault v => d.setDefault v

def calls (notFound : S) (cs : List (Call S B)) : ServletDispatch S :=
  cs.foldl (call functionServlet) (new notFound)

/-- What a call says about a path. -/
def exactOp : Call S B → Option (Op (List UInt8) S)
  | .addServlet uri slt => some (.put uri slt)
  | .addServletFunction uri callback => some (.put uri (functionServlet callback))
  | .delServlet uri => some (.drop uri)
  | _ => none

/-- What a call says about a pattern. -/
def globOp : Call S B → Option (Op (List UInt8) S)
  | .addGlobServlet uri slt => some (.put uri slt)
  | .addGlobServletFunction uri callback => some (.put uri (functionServlet callback))
  | .delGlobServlet uri => some (.drop uri)
  | _ => none

def defaultOp : Call S B → Option (Op Unit S)
  | .setDefault v => some (.put () v)
  | _ => none

/-- What a lookup is for, told by the history: the servlet added last for this very path if it
is still there, else of the patterns that are there and match the one whose latest call is
oldest, else the latest default. -/
inductive Matched (fnmatch : List UInt8 → List UInt8 → Int32) (notFound : S)
    (cs : List (Call S B)) (uri : List UInt8) : S → Prop
  | exact {i slt} (h : Latest (exactOp functionServlet) cs i uri slt) :
      Matched fnmatch notFound cs uri slt
  | glob {i pattern slt} (hnone : ∀ i slt, ¬ Latest (exactOp functionServlet) cs i uri slt)
      (h : Latest (globOp functionServlet) cs i pattern slt)
      (hmatch : fnmatch (cString pattern) (cString uri) = 0)
      (holdest : ∀ j pattern' slt', Latest (globOp functionServlet) cs j pattern' slt' →
        fnmatch (cString pattern') (cString uri) = 0 → i ≤ j) :
      Matched fnmatch notFound cs uri slt
  | default {slt} (hnone : ∀ i slt, ¬ Latest (exactOp functionServlet) cs i uri slt)
      (hglobs : ∀ i pattern slt', Latest (globOp functionServlet) cs i pattern slt' →
        fnmatch (cString pattern) (cString uri) ≠ 0)
      (h : (∃ i, Latest defaultOp cs i () slt) ∨
        (∀ i v, ¬ Latest defaultOp cs i () v) ∧ slt = notFound) :
      Matched fnmatch notFound cs uri slt

end Calls

theorem eraseGlob_eq (uri : List UInt8) (globs : List (List UInt8 × S)) :
    eraseGlob uri globs = globs.eraseP (·.1 = uri) := by
  induction globs with
  | nil => rfl
  | cons e globs ih =>
    rw [eraseGlob, List.eraseP_cons, ih]
    by_cases h : e.1 = uri <;> simp [h]

section Run
variable {functionServlet : B → S} {notFound : S} {cs : List (Call S B)} {d : ServletDispatch S}

/-- The table tells the history. -/
structure Tells (functionServlet : B → S) (notFound : S) (cs : List (Call S B))
    (d : ServletDispatch S) : Prop where
  datas : Finds (exactOp functionServlet) cs d.datas
  globs : Lists (globOp functionServlet) cs d.globs
  default : ∃ v, Finds defaultOp cs (fun _ => v) ∧ d.default = v.getD notFound

theorem Tells.default_other (h : Tells functionServlet notFound cs d) {c : Call S B}
    (hc : defaultOp c = none) :
    ∃ v, Finds defaultOp (cs ++ [c]) (fun _ => v) ∧ d.default = v.getD notFound := by
  obtain ⟨v,hfinds,hdefault⟩ := h.default
  exact ⟨v,hfinds.other hc,hdefault⟩

theorem call_tells (h : Tells functionServlet notFound cs d) (c : Call S B) :
    Tells functionServlet notFound (cs ++ [c]) (call functionServlet d c) := by
  cases c with
  | addServlet uri slt => exact ⟨h.datas.put rfl,h.globs.other rfl,h.default_other rfl⟩
  | addServletFunction uri callback =>
    exact ⟨h.datas.put rfl,h.globs.other rfl,h.default_other rfl⟩
  | delServlet uri => exact ⟨h.datas.drop rfl,h.globs.other rfl,h.default_other rfl⟩
  | addGlobServlet uri slt =>
    refine ⟨h.datas.other rfl,?_,h.default_other rfl⟩
    simp only [call, addGlobServlet, eraseGlob_eq]
    exact h.globs.put rfl
  | addGlobServletFunction uri callback =>
    refine ⟨h.datas.other rfl,?_,h.default_other rfl⟩
    simp only [call, addGlobServlet, eraseGlob_eq]
    exact h.globs.put rfl
  | delGlobServlet uri =>
    refine ⟨h.datas.other rfl,?_,h.default_other rfl⟩
    simp only [call, delGlobServlet, eraseGlob_eq]
    exact h.globs.drop rfl
  | setDefault v =>
    refine ⟨h.datas.other rfl,h.globs.other rfl,some v,?_,rfl⟩
    obtain ⟨v₀,hfinds,_⟩ := h.default
    exact hfinds.put rfl

variable (functionServlet notFound cs) in
theorem calls_tell : Tells functionServlet notFound cs (calls functionServlet notFound cs) := by
  induction cs using List.reverseRecOn with
  | nil => exact ⟨Finds.nil,Lists.nil,none,Finds.nil,rfl⟩
  | append_singleton cs c ih =>
    rw [calls, List.foldl_append]
    exact call_tells ih c

/-- A lookup returns what the history says. -/
theorem Tells.matched (h : Tells functionServlet notFound cs d)
    (fnmatch : List UInt8 → List UInt8 → Int32) (uri : List UInt8) :
    Matched functionServlet fnmatch notFound cs uri (d.getMatchedServlet fnmatch uri) := by
  unfold getMatchedServlet
  cases hexact : d.datas uri with
  | some slt =>
    obtain ⟨i,hlatest⟩ := (h.datas uri slt).mp hexact
    exact .exact hlatest
  | none =>
    have hnone := h.datas.eq_none_iff.mp hexact
    cases hfind : d.globs.find? fun e => fnmatch (cString e.1) (cString uri) = 0 with
    | some e =>
      obtain ⟨hmatch,i,hlatest,holdest⟩ := h.globs.find_some hfind
      refine .glob hnone hlatest (of_decide_eq_true hmatch) ?_
      intro j pattern slt hj hmatch'
      exact holdest j pattern slt hj (decide_eq_true hmatch')
    | none =>
      refine .default hnone ?_ ?_
      · intro i pattern slt hlatest
        exact of_decide_eq_false (h.globs.find_none hfind i pattern slt hlatest)
      · obtain ⟨v,hfinds,hdefault⟩ := h.default
        cases v with
        | some v =>
          obtain ⟨i,hlatest⟩ := (hfinds () v).mp rfl
          exact .inl ⟨i,hdefault ▸ hlatest⟩
        | none => exact .inr ⟨hfinds.eq_none_iff.mp rfl,hdefault⟩

/-- The history says only one thing. -/
theorem Matched.unique {fnmatch : List UInt8 → List UInt8 → Int32} {uri : List UInt8} {r r' : S}
    (h : Matched functionServlet fnmatch notFound cs uri r)
    (h' : Matched functionServlet fnmatch notFound cs uri r') : r = r' := by
  cases h with
  | exact h =>
    cases h' with
    | exact h' => exact (h.unique h').2
    | glob hnone _ _ _ => exact absurd h (hnone _ _)
    | default hnone _ _ => exact absurd h (hnone _ _)
  | glob hnone h hmatch holdest =>
    cases h' with
    | exact h' => exact absurd h' (hnone _ _)
    | glob _ h' hmatch' holdest' =>
      have hle := holdest _ _ _ h' hmatch'
      have hge := holdest' _ _ _ h hmatch
      cases Nat.le_antisymm hle hge
      cases h.put.symm.trans h'.put
      rfl
    | default _ hglobs _ => exact absurd hmatch (hglobs _ _ _ h)
  | default hnone hglobs h =>
    cases h' with
    | exact h' => exact absurd h' (hnone _ _)
    | glob _ h' hmatch' _ => exact absurd hmatch' (hglobs _ _ _ h')
    | default _ _ h' =>
      rcases h with ⟨i,h⟩ | ⟨hno,rfl⟩
      · rcases h' with ⟨j,h'⟩ | ⟨hno',_⟩
        · exact (h.unique h').2
        · exact absurd h (hno' _ _)
      · rcases h' with ⟨j,h'⟩ | ⟨_,rfl⟩
        · exact absurd h' (hno _ _)
        · rfl

end Run

/-- After every sequence of calls: no pattern stands in the vector twice, what was deleted and
not added again is not found, and a lookup returns what the history says and nothing else. -/
theorem calls_route (functionServlet : B → S) (notFound : S) (cs : List (Call S B))
    (fnmatch : List UInt8 → List UInt8 → Int32) :
    ((calls functionServlet notFound cs).globs.map Prod.fst).Nodup ∧
    (∀ uri, Dropped (exactOp functionServlet) cs uri →
      (calls functionServlet notFound cs).getServlet uri = none) ∧
    (∀ uri, Dropped (globOp functionServlet) cs uri →
      (calls functionServlet notFound cs).getGlobServlet uri = none) ∧
    ∀ uri r, (calls functionServlet notFound cs).getMatchedServlet fnmatch uri = r ↔
      Matched functionServlet fnmatch notFound cs uri r := by
  have h := calls_tell functionServlet notFound cs
  refine ⟨h.globs.keys_nodup,?_,?_,?_⟩
  · intro uri hdropped
    exact h.datas.eq_none_iff.mpr fun _ _ => hdropped.not_latest
  · intro uri hdropped
    refine Option.map_eq_none_iff.mpr (List.find?_eq_none.mpr ?_)
    rintro ⟨pattern,slt⟩ he hpattern
    obtain ⟨i,hlatest⟩ := h.globs.mem_iff.mp he
    have huri : pattern = uri := of_decide_eq_true hpattern
    rw [huri] at hlatest
    exact hdropped.not_latest hlatest
  · intro uri r
    constructor
    · rintro rfl
      exact h.matched fnmatch uri
    · exact (h.matched fnmatch uri).unique

end ServletDispatch

end Gudov
