import Mathlib.Logic.Function.Basic
import Gudov.LogConfig
import Gudov.StepSystem

/-!
# Loggers and appenders

Loggers are found by their names, appenders are shared objects. An appender without a
formatter is given that of a logger when it is added to it, and from then on it has one:
a later `SetFormatter` on the logger passes it over, since only a null formatter counts as
inherited.

The type of formatters is arbitrary; its values are the formatters a pointer can lead to.
-/
namespace Gudov
variable {F : Type}

inductive AppenderKind
  | stdout
  | file (filename : String)
deriving Repr, DecidableEq

structure LogAppender (F : Type) where
  kind : AppenderKind
  level : LogLevel
  formatter : Option F := none
deriving Repr, DecidableEq

/-- Assign a formatter to an appender that has none. -/
def LogAppender.inherit (val : F) (a : LogAppender F) : LogAppender F :=
  match a.formatter with
  | none => { a with formatter := some val }
  | some _ => a

/-- Appenders are held by their addresses. -/
structure Logger (F : Type) where
  level : LogLevel := .debug
  formatter : F
  appenders : List ℕ := []
deriving Repr, DecidableEq

structure LogSystem (F : Type) where
  loggers : String → Option (Logger F)
  appenders : List (LogAppender F)

namespace LogSystem

/-- `LoggerManager::GetLogger`. A new logger has the formatter of the constructor. -/
def getLogger (initial : F) (name : String) (s : LogSystem F) : LogSystem F :=
  match s.loggers name with
  | some _ => s
  | none => { s with loggers := Function.update s.loggers name (some { formatter := initial }) }

/-- The constructors of the appenders. -/
def newAppender (kind : AppenderKind) (level : LogLevel) (s : LogSystem F) : LogSystem F :=
  { s with appenders := s.appenders ++ [{ kind := kind, level := level }] }

/-- A method of a logger that changes only its own fields. -/
def modifyLogger (name : String) (f : Logger F → Logger F) (s : LogSystem F) :
    Except Fault (LogSystem F) :=
  match s.loggers name with
  | none => .error .nullDereference
  | some logger => .ok { s with loggers := Function.update s.loggers name (some (f logger)) }

/-- A method of an appender. -/
def modifyAppender (id : ℕ) (f : LogAppender F → LogAppender F) (s : LogSystem F) :
    Except Fault (LogSystem F) :=
  match s.appenders[id]? with
  | none => .error .nullDereference
  | some _ => .ok { s with appenders := s.appenders.modify id f }

def setLevel (name : String) (level : LogLevel) : LogSystem F → Except Fault (LogSystem F) :=
  modifyLogger name fun logger => { logger with level := level }

def clearAppenders (name : String) : LogSystem F → Except Fault (LogSystem F) :=
  modifyLogger name fun logger => { logger with appenders := [] }

/-- The first occurrence is taken out. -/
def delAppender (name : String) (id : ℕ) : LogSystem F → Except Fault (LogSystem F) :=
  modifyLogger name fun logger => { logger with appenders := logger.appenders.erase id }

def setAppenderLevel (id : ℕ) (level : LogLevel) : LogSystem F → Except Fault (LogSystem F) :=
  modifyAppender id fun a => { a with level := level }

def setAppenderFormatter (id : ℕ) (formatter : F) : LogSystem F → Except Fault (LogSystem F) :=
  modifyAppender id fun a => { a with formatter := some formatter }

def setFormatter (name : String) (val : F) (s : LogSystem F) : Except Fault (LogSystem F) :=
  match s.loggers name with
  | none => .error .nullDereference
  | some logger =>
    .ok {
      loggers := Function.update s.loggers name (some { logger with formatter := val })
      appenders := logger.appenders.foldl (fun appenders id => appenders.modify id (·.inherit val))
        s.appenders }

def addAppender (name : String) (id : ℕ) (s : LogSystem F) : Except Fault (LogSystem F) :=
  match s.loggers name, s.appenders[id]? with
  | some logger, some _ =>
    .ok {
      loggers := Function.update s.loggers name
        (some { logger with appenders := logger.appenders ++ [id] })
      appenders := s.appenders.modify id (·.inherit logger.formatter) }
  | _, _ => .error .nullDereference

end LogSystem

theorem LogAppender.inherit_formatter (val : F) (a : LogAppender F) :
    (a.inherit val).formatter = some (a.formatter.getD val) := by
  cases h : a.formatter <;> simp [inherit, h]

/-- An appender that has a formatter keeps it. -/
theorem LogAppender.inherit_of_some {val f : F} {a : LogAppender F} (h : a.formatter = some f) :
    a.inherit val = a := by
  simp [inherit, h]

@[simp] theorem LogAppender.inherit_inherit (val : F) (a : LogAppender F) :
    (a.inherit val).inherit val = a.inherit val :=
  inherit_of_some (inherit_formatter val a)

/-- The loop of `SetFormatter` treats every attached appender once. -/
theorem getElem?_foldl_inherit (val : F) (ids : List ℕ) (appenders : List (LogAppender F)) (i : ℕ) :
    (ids.foldl (fun appenders id => appenders.modify id (·.inherit val)) appenders)[i]? =
      appenders[i]?.map fun a => if i ∈ ids then a.inherit val else a := by
  induction ids generalizing appenders with
  | nil => simp
  | cons id ids ih =>
    rw [List.foldl_cons, ih, List.getElem?_modify]
    by_cases hid : id = i
    · subst hid
      cases appenders[id]? with
      | none => rfl
      | some a => by_cases hmem : id ∈ ids <;> simp [hmem]
    · have hne : i ≠ id := fun h => hid h.symm
      simp [hid, hne]

namespace LogSystem
variable {s t : LogSystem F} {name : String} {id : ℕ}

theorem getLogger_cases (initial : F) (name : String) (s : LogSystem F) :
    s.getLogger initial name = s ∨ s.getLogger initial name =
      { s with loggers := Function.update s.loggers name (some { formatter := initial }) } := by
  unfold getLogger
  split
  · exact .inl rfl
  · exact .inr rfl

theorem modifyLogger_ok {f : Logger F → Logger F} (h : s.modifyLogger name f = .ok t) :
    ∃ logger, s.loggers name = some logger ∧
      t = { s with loggers := Function.update s.loggers name (some (f logger)) } := by
  unfold modifyLogger at h
  split at h
  next => cases h
  next logger hlogger =>
    cases h
    exact ⟨logger,hlogger,rfl⟩

theorem modifyAppender_ok {f : LogAppender F → LogAppender F}
    (h : s.modifyAppender id f = .ok t) :
    id < s.appenders.length ∧ t = { s with appenders := s.appenders.modify id f } := by
  unfold modifyAppender at h
  split at h
  next => cases h
  next a ha =>
    cases h
    exact ⟨(List.getElem?_eq_some_iff.mp ha).1,rfl⟩

theorem setFormatter_ok {val : F} (h : s.setFormatter name val = .ok t) :
    ∃ logger, s.loggers name = some logger ∧
      t.loggers = Function.update s.loggers name (some { logger with formatter := val }) ∧
      ∀ i : ℕ, t.appenders[i]? =
        s.appenders[i]?.map fun a => if i ∈ logger.appenders then a.inherit val else a := by
  unfold setFormatter at h
  split at h
  next => cases h
  next logger hlogger =>
    cases h
    exact ⟨logger,hlogger,rfl,getElem?_foldl_inherit val logger.appenders s.appenders⟩

theorem addAppender_ok (h : s.addAppender name id = .ok t) :
    ∃ logger, s.loggers name = some logger ∧ id < s.appenders.length ∧
      t = {
        loggers := Function.update s.loggers name
          (some { logger with appenders := logger.appenders ++ [id] })
        appenders := s.appenders.modify id (·.inherit logger.formatter) } := by
  unfold addAppender at h
  split at h
  next logger a hlogger ha =>
    cases h
    exact ⟨logger,hlogger,(List.getElem?_eq_some_iff.mp ha).1,rfl⟩
  next => cases h

end LogSystem

end Gudov
