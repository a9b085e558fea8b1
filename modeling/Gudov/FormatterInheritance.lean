import Gudov.Logger

/-!
# Inherited and own formatters

Runs of the calls on loggers and appenders, with a record of the formatter that was last
set on each appender directly. An appender with such a formatter keeps it in every run.
One without it should use the formatter of its logger. This survives a call exactly when
no new formatter is set on a logger that has such an appender, and no such appender comes
from a logger with another formatter.
-/
namespace Gudov
variable {F : Type}

inductive LogCall (F : Type)
  | getLogger (name : String)
  | newAppender (kind : AppenderKind) (level : LogLevel)
  | setFormatter (name : String) (val : F)
  | addAppender (name : String) (id : ℕ)
  | delAppender (name : String) (id : ℕ)
  | clearAppenders (name : String)
  | setAppenderFormatter (id : ℕ) (formatter : F)
deriving Repr, DecidableEq

namespace LogSystem

def call (initial : F) (s : LogSystem F) : LogCall F → Except Fault (LogSystem F)
  | .getLogger name => .ok (s.getLogger initial name)
  | .newAppender kind level => .ok (s.newAppender kind level)
  | .setFormatter name val => s.setFormatter name val
  | .addAppender name id => s.addAppender name id
  | .delAppender name id => s.delAppender name id
  | .clearAppenders name => s.clearAppenders name
  | .setAppenderFormatter id formatter => s.setAppenderFormatter id formatter

end LogSystem

/-- A system, and the formatter last set on each appender itself. -/
structure LogHistory (F : Type) where
  system : LogSystem F
  own : ℕ → Option F

namespace LogHistory

def record (own : ℕ → Option F) : LogCall F → ℕ → Option F
  | .setAppenderFormatter id formatter => Function.update own id (some formatter)
  | _ => own

def step (initial : F) (s : LogHistory F) (call : LogCall F) :
    Except Fault (Unit × LogHistory F) := do
  .ok ((), { system := ← s.system.call initial call, own := record s.own call })

/-- Neither loggers nor appenders. -/
def start : LogHistory F where
  system := { loggers := fun _ => none, appenders := [] }
  own := fun _ => none

/-- An appender of its own formatter uses this one. -/
def KeepsOwn (s : LogHistory F) : Prop :=
  ∀ id formatter a, s.own id = some formatter → s.system.appenders[id]? = some a →
    a.formatter = some formatter

/-- The appenders of a logger without their own formatter use that of the logger. -/
def Uses (s : LogHistory F) (logger : Logger F) : Prop :=
  ∀ id ∈ logger.appenders, s.own id = none → ∀ a, s.system.appenders[id]? = some a →
    a.formatter = some logger.formatter

def Inherits (s : LogHistory F) : Prop :=
  ∀ name logger, s.system.loggers name = some logger → s.Uses logger

/-- The condition on a call: what it should change is as it should be already. -/
def Fits (s : LogHistory F) : LogCall F → Prop
  | .setFormatter name val =>
    ∀ logger, s.system.loggers name = some logger → val ≠ logger.formatter →
      ∀ id ∈ logger.appenders, s.own id ≠ none
  | .addAppender name id =>
    ∀ logger a, s.system.loggers name = some logger → s.system.appenders[id]? = some a →
      s.own id = none → ∀ formatter ∈ a.formatter, formatter = logger.formatter
  | _ => True

/-- Addresses that are in use are those of appenders. -/
structure Sound (s : LogHistory F) : Prop where
  attached : ∀ name logger, s.system.loggers name = some logger → ∀ id ∈ logger.appenders,
    id < s.system.appenders.length
  allocated : ∀ id, s.own id ≠ none → id < s.system.appenders.length
  keepsOwn : s.KeepsOwn

variable {s t : LogHistory F} {system : LogSystem F} {initial : F} {call : LogCall F} {u : Unit}

theorem step_ok (h : s.step initial call = .ok (u, t)) :
    s.system.call initial call = .ok t.system ∧ t.own = record s.own call := by
  obtain ⟨system,hsystem,h⟩ := exists_of_bind_eq_ok h
  cases h
  exact ⟨hsystem,rfl⟩

/-- What holds of all loggers and of a new one holds after the assignment. -/
theorem forall_update {loggers : String → Option (Logger F)} {P : Logger F → Prop} {name : String}
    {new : Logger F} (h : ∀ other logger, loggers other = some logger → P logger) (hnew : P new) :
    ∀ other logger, Function.update loggers name (some new) other = some logger → P logger := by
  intro other logger hlogger
  by_cases hname : other = name
  · subst hname
    rw [Function.update_self] at hlogger
    cases hlogger
    exact hnew
  · rw [Function.update_of_ne hname] at hlogger
    exact h other logger hlogger

section Grown

/-- Appenders are added, and those with a formatter keep it. -/
structure Grown (old new : List (LogAppender F)) : Prop where
  length_le : old.length ≤ new.length
  keeps : ∀ (id : ℕ) a formatter, old[id]? = some a → a.formatter = some formatter →
    ∃ b, new[id]? = some b ∧ b.formatter = some formatter

variable {appenders : List (LogAppender F)}

theorem Grown.refl : Grown appenders appenders where
  length_le := le_refl _
  keeps := fun _ a _ ha hformatter => ⟨a,ha,hformatter⟩

theorem Grown.append (a : LogAppender F) : Grown appenders (appenders ++ [a]) where
  length_le := by simp
  keeps := by
    intro id b formatter hb hformatter
    have hid := (List.getElem?_eq_some_iff.mp hb).1
    exact ⟨b,by rw [List.getElem?_append_left hid, hb],hformatter⟩

/-- Some of the appenders may inherit. -/
theorem Grown.inherit {new : List (LogAppender F)} {val : F} {ids : List ℕ}
    (hnew : ∀ i : ℕ, new[i]? = appenders[i]?.map fun a => if i ∈ ids then a.inherit val else a) :
    Grown appenders new where
  length_le := by
    by_contra hlt
    have hlast := hnew new.length
    rw [List.getElem?_eq_none (le_refl _), List.getElem?_eq_getElem (by omega)] at hlast
    cases hlast
  keeps := by
    intro id a formatter ha hformatter
    refine ⟨a,?_,hformatter⟩
    simp [hnew, ha, LogAppender.inherit_of_some hformatter]

theorem getElem?_modify_inherit (appenders : List (LogAppender F)) (val : F) (id i : ℕ) :
    (appenders.modify id (·.inherit val))[i]? =
      appenders[i]?.map fun a => if i ∈ [id] then a.inherit val else a := by
  rw [List.getElem?_modify]
  by_cases hid : id = i
  · simp [hid]
  · have hne : i ≠ id := fun h => hid h.symm
    simp [hid, hne]

theorem Sound.of_grown (hs : s.Sound) (hgrown : Grown s.system.appenders system.appenders)
    (hattached : ∀ name logger, system.loggers name = some logger → ∀ id ∈ logger.appenders,
      id < s.system.appenders.length) : Sound { system := system, own := s.own } where
  attached := fun name logger hlogger id hid =>
    (hattached name logger hlogger id hid).trans_le hgrown.length_le
  allocated := fun id hid => (hs.allocated id hid).trans_le hgrown.length_le
  keepsOwn := by
    intro id formatter b hown hb
    have hid : id < s.system.appenders.length := by
      apply hs.allocated
      dsimp only at hown
      simp [hown]
    have ha := List.getElem?_eq_getElem hid
    obtain ⟨c,hc,hformatter⟩ :=
      hgrown.keeps id _ formatter ha (hs.keepsOwn id formatter _ hown ha)
    dsimp only at hb
    rw [hb] at hc
    cases hc
    exact hformatter

end Grown

theorem Sound.modifyLogger (hs : s.Sound) {name : String} {f : Logger F → Logger F}
    (hf : ∀ logger, ∀ id ∈ (f logger).appenders, id ∈ logger.appenders)
    (h : s.system.modifyLogger name f = .ok system) : Sound { system := system, own := s.own } := by
  obtain ⟨logger,hlogger,rfl⟩ := LogSystem.modifyLogger_ok h
  refine hs.of_grown Grown.refl (forall_update hs.attached ?_)
  exact fun id hid => hs.attached name logger hlogger id (hf logger id hid)

theorem Sound.setAppenderFormatter (hs : s.Sound) {id : ℕ} {formatter : F}
    (h : s.system.setAppenderFormatter id formatter = .ok system) :
    Sound { system := system, own := Function.update s.own id (some formatter) } := by
  obtain ⟨hid,rfl⟩ := LogSystem.modifyAppender_ok h
  exact {
    attached := by
      intro name logger hlogger i hi
      simpa using hs.attached name logger hlogger i hi
    allocated := by
      intro i hi
      dsimp only at hi
      by_cases hne : i = id
      · simpa [hne] using hid
      · rw [Function.update_of_ne hne] at hi
        simpa using hs.allocated i hi
    keepsOwn := by
      intro i own b hown hb
      dsimp only at hown hb
      rw [List.getElem?_modify] at hb
      by_cases hne : i = id
      · subst hne
        rw [Function.update_self] at hown
        cases hown
        obtain ⟨a,_,rfl⟩ := Option.map_eq_some_iff.mp hb
        simp
      · rw [Function.update_of_ne hne] at hown
        have hne' : id ≠ i := fun h => hne h.symm
        exact hs.keepsOwn i own b hown (by simpa [hne'] using hb) }

theorem step_sound (hs : s.Sound) (h : s.step initial call = .ok (u, t)) : t.Sound := by
  obtain ⟨system,own⟩ := t
  obtain ⟨hcall,rfl⟩ := step_ok h
  cases call with
  | getLogger name =>
    obtain rfl : s.system.getLogger initial name = system := Except.ok.inj hcall
    rcases LogSystem.getLogger_cases initial name s.system with hsame | hnew
    · rw [hsame]
      exact hs
    · rw [hnew]
      exact hs.of_grown Grown.refl (forall_update hs.attached (by simp))
  | newAppender kind level =>
    cases hcall
    exact hs.of_grown (Grown.append _) hs.attached
  | setFormatter name val =>
    obtain ⟨logger,hlogger,hloggers,happenders⟩ := LogSystem.setFormatter_ok hcall
    apply hs.of_grown (Grown.inherit happenders)
    rw [hloggers]
    exact forall_update hs.attached (hs.attached name logger hlogger)
  | addAppender name id =>
    obtain ⟨logger,hlogger,hid,rfl⟩ := LogSystem.addAppender_ok hcall
    apply hs.of_grown (Grown.inherit (getElem?_modify_inherit _ logger.formatter id))
    apply forall_update hs.attached
    intro i hi
    rcases List.mem_append.mp hi with hi | hi
    · exact hs.attached name logger hlogger i hi
    · rwa [List.mem_singleton.mp hi]
  | delAppender name id =>
    exact hs.modifyLogger (fun logger i hi => List.mem_of_mem_erase hi) hcall
  | clearAppenders name => exact hs.modifyLogger (fun logger i hi => by simp at hi) hcall
  | setAppenderFormatter id formatter => exact hs.setAppenderFormatter hcall

/-- Appenders that use a formatter of their logger do so after some have inherited. -/
theorem Uses.inherit {logger : Logger F} {val : F} {ids : List ℕ} (h : s.Uses logger)
    (hnew : ∀ i : ℕ, system.appenders[i]? =
      s.system.appenders[i]?.map fun a => if i ∈ ids then a.inherit val else a) :
    Uses { system := system, own := s.own } logger := by
  intro id hid hown b hb
  dsimp only at hb
  rw [hnew] at hb
  obtain ⟨a,ha,rfl⟩ := Option.map_eq_some_iff.mp hb
  have hformatter := h id hid hown a ha
  simp [LogAppender.inherit_of_some hformatter, hformatter]

theorem setFormatter_inherits (hs : s.Sound) (hi : s.Inherits) {name : String} {val : F}
    (h : s.system.setFormatter name val = .ok system) :
    Inherits { system := system, own := s.own } ↔ s.Fits (.setFormatter name val) := by
  obtain ⟨logger,hlogger,hloggers,happenders⟩ := LogSystem.setFormatter_ok h
  constructor
  · intro ht other hother hval id hid hown
    rw [hlogger] at hother
    cases hother
    have ha := List.getElem?_eq_getElem (hs.attached name logger hlogger id hid)
    have hold := hi name logger hlogger id hid hown _ ha
    have hb := happenders id
    rw [ha, Option.map_some, if_pos hid, LogAppender.inherit_of_some hold] at hb
    have hnew : system.loggers name = some { logger with formatter := val } := by simp [hloggers]
    have := ht name _ hnew id hid hown _ hb
    rw [hold, Option.some.injEq] at this
    exact hval this.symm
  · intro hfits
    unfold Inherits
    dsimp only
    rw [hloggers]
    apply forall_update fun other logger hother => (hi other logger hother).inherit happenders
    intro id hid hown
    by_cases hval : val = logger.formatter
    · rw [hval]
      exact (hi name logger hlogger).inherit happenders id hid hown
    · exact absurd hown (hfits logger hlogger hval id hid)

theorem addAppender_inherits (hi : s.Inherits) {name : String} {id : ℕ}
    (h : s.system.addAppender name id = .ok system) :
    Inherits { system := system, own := s.own } ↔ s.Fits (.addAppender name id) := by
  obtain ⟨logger,hlogger,hid,rfl⟩ := LogSystem.addAppender_ok h
  have hnew := getElem?_modify_inherit s.system.appenders logger.formatter id
  constructor
  · intro ht other a hother ha hown formatter hformatter
    rw [hlogger] at hother
    cases hother
    have hb := hnew id
    rw [ha, Option.map_some, if_pos (by simp), LogAppender.inherit_of_some hformatter] at hb
    have := ht name { logger with appenders := logger.appenders ++ [id] } (by simp) id (by simp)
      hown a hb
    rwa [hformatter, Option.some.injEq] at this
  · intro hfits
    apply forall_update fun other logger hother => (hi other logger hother).inherit hnew
    intro i hi' hown b hb
    rcases List.mem_append.mp hi' with hi' | hi'
    · exact (hi name logger hlogger).inherit hnew i hi' hown b hb
    · obtain rfl := List.mem_singleton.mp hi'
      dsimp only at hb
      rw [hnew] at hb
      obtain ⟨a,ha,rfl⟩ := Option.map_eq_some_iff.mp hb
      rw [if_pos (by simp), LogAppender.inherit_formatter]
      cases hformatter : a.formatter with
      | none => rfl
      | some formatter => rw [Option.getD_some, hfits logger a hlogger ha hown formatter hformatter]

theorem Inherits.modifyLogger (hi : s.Inherits) {name : String} {f : Logger F → Logger F}
    (hf : ∀ logger, (∀ id ∈ (f logger).appenders, id ∈ logger.appenders) ∧
      (f logger).formatter = logger.formatter)
    (h : s.system.modifyLogger name f = .ok system) :
    Inherits { system := system, own := s.own } := by
  obtain ⟨logger,hlogger,rfl⟩ := LogSystem.modifyLogger_ok h
  apply forall_update hi
  intro id hid hown a ha
  rw [(hf logger).2]
  exact hi name logger hlogger id ((hf logger).1 id hid) hown a ha

/-- A new appender is not attached to a logger. -/
theorem Inherits.newAppender (hs : s.Sound) (hi : s.Inherits) (kind : AppenderKind)
    (level : LogLevel) : Inherits { system := s.system.newAppender kind level, own := s.own } := by
  intro name logger hlogger id hid hown a ha
  have hlt := hs.attached name logger hlogger id hid
  rw [LogSystem.newAppender, List.getElem?_append_left hlt] at ha
  exact hi name logger hlogger id hid hown a ha

theorem Inherits.setAppenderFormatter (hi : s.Inherits) {id : ℕ} {formatter : F}
    (h : s.system.setAppenderFormatter id formatter = .ok system) :
    Inherits { system := system, own := Function.update s.own id (some formatter) } := by
  obtain ⟨_,rfl⟩ := LogSystem.modifyAppender_ok h
  intro name logger hlogger i hmem hown a ha
  dsimp only at hown ha
  by_cases hne : i = id
  · simp [hne] at hown
  · rw [Function.update_of_ne hne] at hown
    have hne' : id ≠ i := fun h => hne h.symm
    exact hi name logger hlogger i hmem hown a (by simpa [hne'] using ha)

/-- From a state in which formatters are inherited, a call keeps that exactly when it fits. -/
theorem step_inherits (hs : s.Sound) (hi : s.Inherits) (h : s.step initial call = .ok (u, t)) :
    t.Inherits ↔ s.Fits call := by
  obtain ⟨system,own⟩ := t
  obtain ⟨hcall,rfl⟩ := step_ok h
  cases call with
  | getLogger name =>
    obtain rfl : s.system.getLogger initial name = system := Except.ok.inj hcall
    refine iff_of_true ?_ trivial
    rcases LogSystem.getLogger_cases initial name s.system with hsame | hnew
    · rw [hsame]
      exact hi
    · rw [hnew]
      exact forall_update hi fun id hid => by simp at hid
  | newAppender kind level =>
    cases hcall
    exact iff_of_true (hi.newAppender hs kind level) trivial
  | setFormatter name val => exact setFormatter_inherits hs hi hcall
  | addAppender name id => exact addAppender_inherits hi hcall
  | delAppender name id =>
    refine iff_of_true (Inherits.modifyLogger hi ?_ hcall) trivial
    exact fun logger => ⟨fun i hi => List.mem_of_mem_erase hi,rfl⟩
  | clearAppenders name =>
    refine iff_of_true (Inherits.modifyLogger hi ?_ hcall) trivial
    exact fun logger => ⟨by simp,rfl⟩
  | setAppenderFormatter id formatter => exact iff_of_true (hi.setAppenderFormatter hcall) trivial

/-- A call leaves every attached appender with the formatter it should use. -/
def CallKeeps (initial : F) (s : LogHistory F) (call : LogCall F) : Prop :=
  ∀ u t, s.step initial call = .ok (u, t) → t.Inherits ∧ t.KeepsOwn

/-- A call on an object that is not there fits. -/
theorem fits_of_error {fault : Fault} (h : s.step initial call = .error fault) : s.Fits call := by
  cases call with
  | setFormatter name val =>
    intro logger hlogger
    simp [step, LogSystem.call, LogSystem.setFormatter, hlogger, ok_bind] at h
  | addAppender name id =>
    intro logger a hlogger ha
    simp [step, LogSystem.call, LogSystem.addAppender, hlogger, ha, ok_bind] at h
  | getLogger name => trivial
  | newAppender kind level => trivial
  | delAppender name id => trivial
  | clearAppenders name => trivial
  | setAppenderFormatter id formatter => trivial

theorem callKeeps_iff (hs : s.Sound) (hi : s.Inherits) :
    s.CallKeeps initial call ↔ s.Fits call := by
  constructor
  · intro hkeeps
    cases h : s.step initial call with
    | error fault => exact fits_of_error h
    | ok result => exact (step_inherits hs hi h).mp (hkeeps _ _ h).1
  · intro hfits u t h
    exact ⟨(step_inherits hs hi h).mpr hfits,(step_sound hs h).keepsOwn⟩

theorem start_sound : Sound (start : LogHistory F) where
  attached := by simp [start]
  allocated := by simp [start]
  keepsOwn := by simp [start, KeepsOwn]

/-- Inherited and own formatters are right in every state of a run just as long as every
call fits. -/
theorem formatters_inherited (initial : F) (calls : List (LogCall F)) :
    StepSystem.Along (step initial) (CallKeeps initial) calls start ↔
      StepSystem.Along (step initial) Fits calls start := by
  have hall : StepSystem.Along (step initial) (fun _ _ => True) calls start :=
    .of_forall (fun _ _ => trivial) calls _
  have hstart : (start : LogHistory F).Sound ∧ (start : LogHistory F).Inherits :=
    ⟨start_sound,by simp [start, Inherits]⟩
  have hkeep : ∀ (s : LogHistory F) call u t, s.Sound ∧ s.Inherits → True → s.Fits call →
      s.step initial call = .ok (u, t) → t.Sound ∧ t.Inherits := by
    intro s call u t hs _ hfits h
    exact ⟨step_sound hs.1 h,(step_inherits hs.1 hs.2 h).mpr hfits⟩
  exact StepSystem.along_iff hkeep (fun s call hs _ => callKeeps_iff hs.1 hs.2) calls _ hstart hall

/-- A new formatter of a logger does not reach the appender added before. -/
theorem formatter_not_inherited :
    ¬ ∀ (initial : ℕ) (calls : List (LogCall ℕ)),
      StepSystem.Along (step initial) (CallKeeps initial) calls start := by
  intro hall
  have hrun := hall 0 [.getLogger "system", .newAppender .stdout .debug, .addAppender "system" 0,
    .setFormatter "system" 1]
  have hlast := (((hrun.2 _ _ rfl).2 _ _ rfl).2 _ _ rfl).1
  have huses := (hlast _ _ rfl).1 "system" _ rfl 0 (by decide) rfl _ rfl
  cases huses

end LogHistory

end Gudov
