import Mathlib.Data.String.Basic
import Gudov.CallOutcome
import Gudov.OrderedList

/-!
# Log configuration

The values of the variable `logs`: sets of logger entries, ordered and identified by the
name alone. The comparison of two entries compares the appenders of the first one with
themselves, so entries that differ in them only are equal.
-/
namespace Gudov

inductive LogLevel
  | unknown
  | debug
  | info
  | warn
  | error
  | fatal
deriving Repr, DecidableEq

namespace LogLevel

def toString : LogLevel → String
  | .debug => "DEBUG"
  | .info => "INFO"
  | .warn => "WARN"
  | .error => "ERROR"
  | .fatal => "FATAL"
  | .unknown => "UNKNOWN"

def fromString (str : String) : LogLevel :=
  if str = "debug" then .debug
  else if str = "info" then .info
  else if str = "warn" then .warn
  else if str = "error" then .error
  else if str = "fatal" then .fatal
  else if str = "DEBUG" then .debug
  else if str = "INFO" then .info
  else if str = "WARN" then .warn
  else if str = "ERROR" then .error
  else if str = "FATAL" then .fatal
  else .unknown

@[simp] theorem fromString_toString (level : LogLevel) : fromString level.toString = level := by
  cases level <;> simp [toString, fromString]

@[simp] theorem fromString_empty : fromString "" = .unknown := by
  simp [fromString]

end LogLevel

/-- Type 1 writes to a file and type 2 to the standard output. -/
structure LogAppenderConfig where
  type : ℤ := 0
  level : LogLevel := .unknown
  formatter : String := ""
  file : String := ""
deriving Repr, DecidableEq

structure LogConfig where
  name : String := ""
  level : LogLevel := .unknown
  formatter : String := ""
  appenders : List LogAppenderConfig := []
deriving Repr, DecidableEq

namespace LogConfig

/-- `operator==`. The last comparison is of the appenders with themselves. -/
def equal (a b : LogConfig) : Bool :=
  a.name = b.name && a.level = b.level && a.formatter = b.formatter && a.appenders = a.appenders

/-- `operator<`. -/
def before (a b : LogConfig) : Bool := a.name < b.name

theorem equal_iff {a b : LogConfig} :
    a.equal b = true ↔ a.name = b.name ∧ a.level = b.level ∧ a.formatter = b.formatter := by
  simp [equal, and_assoc]

theorem before_strict : OrderedList.Strict before where
  irrefl := by simp [before]
  trans := by
    intro a b c hab hbc
    simp only [before, decide_eq_true_eq] at hab hbc ⊢
    exact hab.trans hbc

theorem before_total {a b : LogConfig} (h : a.name ≠ b.name) :
    a.before b = true ∨ b.before a = true := by
  simpa [before] using lt_or_gt_of_ne h

end LogConfig

/-- A `std::set` of entries. -/
@[ext]
structure LogConfigs where
  items : List LogConfig
  sorted : OrderedList.Sorted LogConfig.before items

namespace LogConfigs

def empty : LogConfigs := ⟨[],List.Pairwise.nil⟩

/-- The entry of the same name. -/
def find (s : LogConfigs) (entry : LogConfig) : Option LogConfig :=
  s.items.find? fun other => other.name = entry.name

/-- An entry is not inserted when one of its name is there. -/
def insert (entry : LogConfig) (s : LogConfigs) : LogConfigs where
  items := OrderedList.insert LogConfig.before entry s.items
  sorted := by
    by_cases hnew : ∀ other ∈ s.items, other.name ≠ entry.name
    · exact OrderedList.insert_sorted LogConfig.before_strict s.sorted fun other hother =>
        LogConfig.before_total (hnew other hother)
    · push Not at hnew
      obtain ⟨other,hother,hname⟩ := hnew
      rw [OrderedList.insert_of_equivalent LogConfig.before_strict s.sorted hother
        (by simp [LogConfig.before, hname]) (by simp [LogConfig.before, hname])]
      exact s.sorted

end LogConfigs

end Gudov
