import Gudov.ConfigVar

/-!
# Updates whose listeners throw

`SetValue` tells the listeners one after the other and stores the value at the end. A listener
that throws ends the call before this, so that the listeners up to it have been told of a value
that the variable never gets. `fromString` takes the exception and returns as it always does. A
listener that keeps a copy then differs from the variable.
-/
namespace Gudov

/-- A `std::exception`, or anything else that is thrown. -/
inductive Thrown
  | exception
  | other
deriving Repr, DecidableEq

/-- A listener gets the old and the new value. It leaves a state, and may throw. -/
abbrev Listener (T σ : Type) := T → T → σ → σ × Option Thrown

/-- A `ConfigVar` with its listeners by their keys. -/
structure ListenedVar (T σ : Type) where
  value : T
  callbacks : List (ℕ × Listener T σ)
  sorted : callbacks.Pairwise fun a b => a.1 < b.1

/-- What an update leaves, the listeners it told and of what, and how it ends. -/
structure Update (T σ α : Type) where
  var : ListenedVar T σ
  env : σ
  told : List (ℕ × T × T)
  result : Except Thrown α

namespace ListenedVar
variable {T σ : Type}

/-! ## Updates -/

/-- The loop over the listeners: the state they leave, those that were called, and what one of
them has thrown. -/
def notifyAll (old new : T) : List (ℕ × Listener T σ) → σ →
    σ × List (ℕ × T × T) × Option Thrown
  | [], env => (env, [], none)
  | (key, callback) :: rest, env =>
    match callback old new env with
    | (env, some e) => (env, [(key, old, new)], some e)
    | (env, none) =>
      let r := notifyAll old new rest env
      (r.1, (key, old, new) :: r.2.1, r.2.2)

section
variable (equal : T → T → Bool)

def setValue (v : T) (var : ListenedVar T σ) (env : σ) : Update T σ Unit :=
  if equal v var.value then { var := var, env := env, told := [], result := .ok () }
  else
    let r := notifyAll var.value v var.callbacks env
    match r.2.2 with
    | some e => { var := var, env := r.1, told := r.2.1, result := .error e }
    | none =>
      { var := { var with value := v }, env := r.1, told := r.2.1, result := .ok () }

/-- The clause `catch (std::exception& e)`, and the return value of `fromString`. -/
def caught : Except Thrown Unit → Except Thrown Bool
  | .error .other => .error .other
  | _ => .ok false

def fromString (cast : String → Except Thrown T) (val : String) (var : ListenedVar T σ)
    (env : σ) : Update T σ Bool :=
  match cast val with
  | .error e => { var := var, env := env, told := [], result := caught (.error e) }
  | .ok v =>
    let u := var.setValue equal v env
    { var := u.var, env := u.env, told := u.told, result := caught u.result }

end

/-! ## Who throws -/

/-- No listener throws, each called in the state that the one before has left. -/
def NoneThrows (old new : T) : List (ℕ × Listener T σ) → σ → Prop
  | [], _ => True
  | (_, callback) :: rest, env =>
    (callback old new env).2 = none ∧ NoneThrows old new rest (callback old new env).1

/-- The last listener throws and no other one. -/
def LastThrows (old new : T) : List (ℕ × Listener T σ) → σ → Prop
  | [], _ => False
  | (_, callback) :: rest, env =>
    ((callback old new env).2 ≠ none ∧ rest = []) ∨
      ((callback old new env).2 = none ∧ LastThrows old new rest (callback old new env).1)

/-- Everyone is told of the change. -/
def allTold (var : ListenedVar T σ) (new : T) : List (ℕ × T × T) :=
  var.callbacks.map fun entry => (entry.1, var.value, new)

section Notify
variable {old new : T} {callbacks : List (ℕ × Listener T σ)} {env : σ}

theorem notifyAll_thrown_iff :
    (notifyAll old new callbacks env).2.2 = none ↔ NoneThrows old new callbacks env := by
  induction callbacks generalizing env with
  | nil => simp [notifyAll, NoneThrows]
  | cons entry rest ih =>
    obtain ⟨key,callback⟩ := entry
    rw [notifyAll, NoneThrows]
    rcases h : callback old new env with ⟨env',thrown⟩
    cases thrown with
    | none => simp [ih]
    | some e => simp

/-- The listeners that are told, up to the first one that throws. -/
theorem notifyAll_told_iff :
    (notifyAll old new callbacks env).2.1 =
        callbacks.map (fun entry => (entry.1, old, new)) ↔
      NoneThrows old new callbacks env ∨ LastThrows old new callbacks env := by
  induction callbacks generalizing env with
  | nil => simp [notifyAll, NoneThrows]
  | cons entry rest ih =>
    obtain ⟨key,callback⟩ := entry
    rw [notifyAll, NoneThrows, LastThrows]
    rcases h : callback old new env with ⟨env',thrown⟩
    cases thrown with
    | none => simp [ih]
    | some e => simp

theorem notifyAll_told_nil_iff :
    (notifyAll old new callbacks env).2.1 = [] ↔ callbacks = [] := by
  cases callbacks with
  | nil => simp [notifyAll]
  | cons entry rest =>
    obtain ⟨key,callback⟩ := entry
    rw [notifyAll]
    rcases h : callback old new env with ⟨env',thrown⟩
    cases thrown with
    | none => simp
    | some e => simp

theorem LastThrows.thrown (h : LastThrows old new callbacks env) :
    (notifyAll old new callbacks env).2.2 ≠ none := by
  rw [Ne, notifyAll_thrown_iff]
  induction callbacks generalizing env with
  | nil => exact absurd h id
  | cons entry rest ih =>
    obtain ⟨key,callback⟩ := entry
    rintro ⟨hnone,hrest⟩
    rcases h with ⟨hthrows,_⟩ | ⟨_,hlast⟩
    · exact hthrows hnone
    · exact ih hlast hrest

/-- What the listeners leave that do not throw. -/
theorem notifyAll_env (h : NoneThrows old new callbacks env) :
    callbacks.foldlM (fun env entry => (.ok (entry.2 old new env).1 : Except Fault σ)) env =
      .ok (notifyAll old new callbacks env).1 := by
  induction callbacks generalizing env with
  | nil => rfl
  | cons entry rest ih =>
    obtain ⟨key,callback⟩ := entry
    obtain ⟨hnone,hrest⟩ := h
    rw [List.foldlM_cons, ok_bind, ih hrest, notifyAll]
    rcases hcall : callback old new env with ⟨env',thrown⟩
    rw [hcall] at hnone
    cases hnone
    rfl

end Notify

/-! ## Listeners that do not throw -/

/-- The variable with the states that its listeners leave, whether or not they throw. -/
def withoutThrows (var : ListenedVar T σ) : ConfigVar T σ where
  value := var.value
  callbacks := var.callbacks.map fun entry old new env => .ok (entry.2 old new env).1

/-- Where no listener throws, the two blocks of `SetValue` make up the update. -/
theorem setValue_withoutThrows {equal : T → T → Bool} {v : T} {var : ListenedVar T σ} {env : σ}
    (h : NoneThrows var.value v var.callbacks env) :
    var.withoutThrows.setValue equal v env =
      .ok ((var.setValue equal v env).var.withoutThrows, (var.setValue equal v env).env) := by
  by_cases hequal : equal v var.value = true
  · have hnotify : var.withoutThrows.notify equal v env = .ok none := if_pos hequal
    rw [ConfigVar.setValue, hnotify, setValue, if_pos hequal]
    rfl
  · have hfold : var.withoutThrows.callbacks.foldlM
        (fun env callback => callback var.value v env) env =
          .ok (notifyAll var.value v var.callbacks env).1 := by
      rw [withoutThrows, List.foldlM_map]
      exact notifyAll_env h
    have hnotify : var.withoutThrows.notify equal v env =
        .ok (some (notifyAll var.value v var.callbacks env).1) := by
      refine (if_neg hequal).trans ?_
      change Except.map some (var.withoutThrows.callbacks.foldlM _ env) = _
      exact congrArg (Except.map some) hfold
    rw [ConfigVar.setValue, hnotify, setValue, if_neg hequal]
    dsimp only
    rw [notifyAll_thrown_iff.mpr h]
    rfl

/-! ## All or nothing -/

/-- Either the value is the converted one and everyone was told of it, or it is the old one and
no one was told. -/
def AllOrNothing (cast : String → Except Thrown T) (val : String) (var : ListenedVar T σ)
    (u : Update T σ Bool) : Prop :=
  (∃ new, cast val = .ok new ∧ u.var.value = new ∧ u.told = var.allTold new) ∨
    (u.var.value = var.value ∧ u.told = [])

/-- The copies that the listeners keep, by their keys. -/
def copies (told : List (ℕ × T × T)) (copy : ℕ → T) : ℕ → T :=
  told.foldl (fun copy t => Function.update copy t.1 t.2.2) copy

section
variable {equal : T → T → Bool} {cast : String → Except Thrown T} {val : String}
  {var : ListenedVar T σ} {env : σ} {new : T}

/-- Copies of those that are told of a value hold it. -/
theorem copies_told {told : List (ℕ × T × T)} {key : ℕ} {copy : ℕ → T}
    (hnew : ∀ t ∈ told, t.2.2 = new) (hkey : (∃ t ∈ told, t.1 = key) ∨ copy key = new) :
    copies told copy key = new := by
  induction told generalizing copy with
  | nil =>
    obtain ⟨t,ht,_⟩ | hcopy := hkey
    · exact absurd ht List.not_mem_nil
    · exact hcopy
  | cons t told ih =>
    refine ih (fun t' ht' => hnew t' (List.mem_cons_of_mem t ht')) ?_
    change (∃ t' ∈ told, t'.1 = key) ∨ Function.update copy t.1 t.2.2 key = new
    by_cases hfirst : key = t.1
    · subst hfirst
      refine .inr ?_
      rw [Function.update_self]
      exact hnew t List.mem_cons_self
    · rw [Function.update_of_ne hfirst]
      refine hkey.imp_left ?_
      rintro ⟨t',ht',hkey'⟩
      rcases List.mem_cons.mp ht' with rfl | ht'
      · exact absurd hkey'.symm hfirst
      · exact ⟨t',ht',hkey'⟩

/-- Then copies that hold the value still do. -/
theorem AllOrNothing.copies {u : Update T σ Bool} (h : AllOrNothing cast val var u)
    {copy : ℕ → T} (hcopy : ∀ entry ∈ var.callbacks, copy entry.1 = var.value) :
    ∀ entry ∈ var.callbacks, ListenedVar.copies u.told copy entry.1 = u.var.value := by
  intro entry hentry
  rcases h with ⟨new,_,hvalue,htold⟩ | ⟨hvalue,htold⟩
  · rw [hvalue, htold]
    refine copies_told ?_ (.inl ⟨_,List.mem_map.mpr ⟨entry,hentry,rfl⟩,rfl⟩)
    intro t ht
    obtain ⟨_,_,rfl⟩ := List.mem_map.mp ht
    rfl
  · rw [hvalue, htold]
    exact hcopy entry hentry

theorem fromString_equal (hcast : cast val = .ok new) (hequal : equal new var.value = true) :
    (var.fromString equal cast val env).var.value = var.value ∧
      (var.fromString equal cast val env).told = [] := by
  simp [fromString, setValue, hcast, hequal]

/-- The listeners are told first, and the value is stored if none of them throws. -/
theorem fromString_changed (env : σ) (hcast : cast val = .ok new)
    (hequal : equal new var.value = false) :
    (var.fromString equal cast val env).told =
        (notifyAll var.value new var.callbacks env).2.1 ∧
      (var.fromString equal cast val env).var.value =
        if (notifyAll var.value new var.callbacks env).2.2 = none then new else var.value := by
  rw [fromString, hcast]
  simp only [setValue, hequal, Bool.false_eq_true, if_false]
  cases (notifyAll var.value new var.callbacks env).2.2 with
  | none => exact ⟨rfl,rfl⟩
  | some e => exact ⟨rfl,rfl⟩

end

end ListenedVar

open ListenedVar

/-- For every variable, its listeners and every text: the update is all or nothing exactly when
the conversion fails, or gives a value that compares equal, or no listener throws when it is told
of the change. (If a value can differ from itself, the last one may throw when nothing changes.)
In such an update the copies that listeners keep stay those of the variable. -/
theorem update_all_or_nothing_iff {T σ : Type} (equal : T → T → Bool)
    (cast : String → Except Thrown T) (val : String) (var : ListenedVar T σ) (env : σ) :
    (AllOrNothing cast val var (var.fromString equal cast val env) ↔
      ∀ new, cast val = .ok new → equal new var.value = false →
        NoneThrows var.value new var.callbacks env ∨
          (new = var.value ∧ LastThrows var.value new var.callbacks env)) ∧
    (AllOrNothing cast val var (var.fromString equal cast val env) → ∀ copy,
      (∀ entry ∈ var.callbacks, copy entry.1 = var.value) → ∀ entry ∈ var.callbacks,
        copies (var.fromString equal cast val env).told copy entry.1 =
          (var.fromString equal cast val env).var.value) := by
  refine ⟨?_,fun h copy hcopy => h.copies hcopy⟩
  constructor
  · intro h new hcast hequal
    obtain ⟨htold,hvalue⟩ := fromString_changed env hcast hequal
    rw [AllOrNothing, htold, hvalue] at h
    rcases h with ⟨v,hv,hstored,hall⟩ | ⟨_,hnone⟩
    · rw [hcast] at hv
      cases hv
      rcases notifyAll_told_iff.mp hall with hquiet | hlast
      · exact .inl hquiet
      · rw [if_neg hlast.thrown] at hstored
        exact .inr ⟨hstored.symm,hlast⟩
    · rw [notifyAll_told_nil_iff] at hnone
      rw [hnone]
      exact .inl trivial
  · intro h
    cases hcast : cast val with
    | error e => exact .inr (by simp [fromString, hcast])
    | ok new =>
      cases hequal : equal new var.value with
      | true => exact .inr (fromString_equal hcast hequal)
      | false =>
        obtain ⟨htold,hvalue⟩ := fromString_changed env hcast hequal
        refine .inl ⟨new,hcast,?_,?_⟩
        · rcases h new hcast hequal with hquiet | ⟨hnew,hlast⟩
          · rw [hvalue, if_pos (notifyAll_thrown_iff.mpr hquiet)]
          · rw [hvalue, if_neg hlast.thrown, hnew]
        · rw [htold]
          refine notifyAll_told_iff.mpr ((h new hcast hequal).imp_right ?_)
          exact fun hlast => hlast.2

/-! ## Two listeners -/

/-- A listener that keeps a copy, and one that throws. -/
def copyAndThrow : ListenedVar ℕ ℕ where
  value := 1
  callbacks := [(1, fun _ new _ => (new, none)), (2, fun _ _ copy => (copy, some .exception))]
  sorted := by simp

/-- The copy is of a value that is not stored. -/
theorem update_half_done :
    let u := copyAndThrow.fromString (fun a b => a = b) (fun _ => .ok 2) "2" 1
    u.var.value = 1 ∧ u.env = 2 ∧ u.told = [(1, 1, 2), (2, 1, 2)] ∧
      ¬ AllOrNothing (fun _ => .ok 2) "2" copyAndThrow u := by
  refine ⟨by decide,by decide,by decide,?_⟩
  rintro (⟨new,hnew,hvalue,_⟩ | ⟨_,hnone⟩)
  · cases hnew
    exact absurd hvalue (by decide)
  · exact absurd hnone (by decide)

end Gudov
