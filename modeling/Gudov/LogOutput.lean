import Gudov.FormatterInheritance
import Gudov.LogEvent

/-!
# Which appenders emit an event

A logger passes an event on to its appenders if the level of the event is at least its own, and
to the root logger if it has no appenders. The appender for the standard output tests its level
as well, the appender for files does not. So a file gets every event that its logger passes.

The formatters are taken from `AddAppender`, which leaves no attached appender without one.
-/
namespace Gudov
variable {F T : Type}

/-- The value of the enumerator. -/
def LogLevel.value : LogLevel → ℕ
  | .unknown => 0
  | .debug => 1
  | .info => 2
  | .warn => 3
  | .error => 4
  | .fatal => 5

/-- The comparison `event->GetLevel() >= level_`. -/
def LogEvent.Passes (event : LogEvent) (level : LogLevel) : Prop :=
  level.value ≤ event.level.value

instance (event : LogEvent) (level : LogLevel) : Decidable (event.Passes level) :=
  inferInstanceAs (Decidable (_ ≤ _))

section
variable (format : F → LogEvent → T) (appenders : List (LogAppender F)) (event : LogEvent)

namespace LogAppender

/-- `formatter_->format(event)`, put into the stream. -/
def write (a : LogAppender F) : Except Fault (Option T) :=
  match a.formatter with
  | none => .error .nullDereference
  | some formatter => .ok (some (format formatter event))

/-- `output` of both kinds. -/
def output (a : LogAppender F) : Except Fault (Option T) :=
  match a.kind with
  | .stdout => if event.Passes a.level then a.write format event else .ok none
  | .file _ => a.write format event

end LogAppender

namespace Logger

/-- The loop over the appenders, with the texts they emit. -/
def outputAll : List ℕ → Except Fault (List (ℕ × T))
  | [] => .ok []
  | id :: ids =>
    match appenders[id]? with
    | none => .error .nullDereference
    | some a => do
      let text ← a.output format event
      let texts ← outputAll ids
      .ok ((text.map fun text => (id, text)).toList ++ texts)

/-- `Logger::log`, for a logger and the loggers that the pointers `root_` lead to. -/
def log : List (Logger F) → Except Fault (List (ℕ × T))
  | [] => .ok []
  | logger :: roots =>
    if event.Passes logger.level then
      if logger.appenders ≠ [] then outputAll format appenders event logger.appenders
      else log roots
    else .ok []

end Logger

/-! ## Attached appenders -/

/-- The appenders of the logger exist and have formatters. -/
def Logger.Equipped (logger : Logger F) : Prop :=
  ∀ id ∈ logger.appenders, ∃ a formatter,
    appenders[id]? = some a ∧ a.formatter = some formatter

/-- A logger with its appenders, as `AddAppender` leaves them. -/
structure AttachedLogger where
  logger : Logger F
  equipped : logger.Equipped appenders

end

inductive LogAction (F : Type)
  | call (call : LogCall F)
  | setLevel (name : String) (level : LogLevel)
  | setAppenderLevel (id : ℕ) (level : LogLevel)
deriving Repr, DecidableEq

namespace LogSystem

def act (initial : F) (s : LogSystem F) : LogAction F → Except Fault (LogSystem F)
  | .call call => s.call initial call
  | .setLevel name level => s.setLevel name level
  | .setAppenderLevel id level => s.setAppenderLevel id level

def Equipped (s : LogSystem F) : Prop :=
  ∀ name logger, s.loggers name = some logger → logger.Equipped s.appenders

/-- Appenders with a formatter still have one. -/
def Furnished (old new : List (LogAppender F)) : Prop :=
  ∀ (id : ℕ) a formatter, old[id]? = some a → a.formatter = some formatter →
    ∃ b formatter', new[id]? = some b ∧ b.formatter = some formatter'

section Runs
variable {s t : LogSystem F} {initial : F} {old new : List (LogAppender F)} {logger : Logger F}

theorem Furnished.equipped (h : Furnished old new) (hlogger : logger.Equipped old) :
    logger.Equipped new := by
  intro id hid
  obtain ⟨a,formatter,ha,hformatter⟩ := hlogger id hid
  exact h id a formatter ha hformatter

theorem furnished_of_grown (h : LogHistory.Grown old new) : Furnished old new := by
  intro id a formatter ha hformatter
  obtain ⟨b,hb,hkept⟩ := h.keeps id a formatter ha hformatter
  exact ⟨b,formatter,hb,hkept⟩

/-- A change of one appender that leaves it a formatter. -/
theorem furnished_modify (old : List (LogAppender F)) (id : ℕ) {f : LogAppender F → LogAppender F}
    (hf : ∀ a formatter, a.formatter = some formatter →
      ∃ formatter', (f a).formatter = some formatter') : Furnished old (old.modify id f) := by
  intro i a formatter ha hformatter
  rw [List.getElem?_modify]
  by_cases hid : id = i
  · obtain ⟨formatter',hf'⟩ := hf a formatter hformatter
    exact ⟨f a,formatter',by simp [hid, ha],hf'⟩
  · exact ⟨a,formatter,by simp [hid, ha],hformatter⟩

theorem equipped_update (hs : s.Equipped) (hnew : Furnished s.appenders new) {name : String}
    (hlogger : logger.Equipped new) :
    Equipped { loggers := Function.update s.loggers name (some logger), appenders := new } := by
  refine LogHistory.forall_update ?_ hlogger
  intro other l hl
  exact hnew.equipped (hs other l hl)

theorem modifyLogger_equipped (hs : s.Equipped) {name : String} {f : Logger F → Logger F}
    (hf : ∀ logger, ∀ id ∈ (f logger).appenders, id ∈ logger.appenders)
    (h : s.modifyLogger name f = .ok t) : t.Equipped := by
  obtain ⟨logger,hlogger,rfl⟩ := modifyLogger_ok h
  refine equipped_update hs (furnished_of_grown .refl) ?_
  intro id hid
  exact hs name logger hlogger id (hf logger id hid)

theorem modifyAppender_equipped (hs : s.Equipped) {id : ℕ} {f : LogAppender F → LogAppender F}
    (hf : ∀ a formatter, a.formatter = some formatter →
      ∃ formatter', (f a).formatter = some formatter')
    (h : s.modifyAppender id f = .ok t) : t.Equipped := by
  obtain ⟨_,rfl⟩ := modifyAppender_ok h
  intro name logger hlogger
  exact (furnished_modify s.appenders id hf).equipped (hs name logger hlogger)

theorem call_equipped (hs : s.Equipped) {call : LogCall F} (h : s.call initial call = .ok t) :
    t.Equipped := by
  cases call with
  | getLogger name =>
    obtain rfl : s.getLogger initial name = t := Except.ok.inj h
    rcases getLogger_cases initial name s with hsame | hnew
    · rw [hsame]
      exact hs
    · rw [hnew]
      refine equipped_update hs (furnished_of_grown .refl) ?_
      intro id hid
      exact absurd hid List.not_mem_nil
  | newAppender kind level =>
    cases h
    intro name logger hlogger
    exact (furnished_of_grown (.append _)).equipped (hs name logger hlogger)
  | setFormatter name val =>
    obtain ⟨logger,hlogger,hloggers,happenders⟩ := setFormatter_ok h
    have hnew := furnished_of_grown (.inherit happenders)
    obtain ⟨loggers,appenders⟩ := t
    cases hloggers
    exact equipped_update hs hnew (hnew.equipped (hs name logger hlogger))
  | addAppender name id =>
    obtain ⟨logger,hlogger,hid,rfl⟩ := addAppender_ok h
    have hinherit := LogHistory.getElem?_modify_inherit s.appenders logger.formatter id
    have hnew := furnished_of_grown (.inherit hinherit)
    refine equipped_update hs hnew ?_
    intro i hi
    rcases List.mem_append.mp hi with hi | hi
    · exact hnew.equipped (hs name logger hlogger) i hi
    · obtain rfl := List.mem_singleton.mp hi
      refine ⟨_,_,?_,LogAppender.inherit_formatter logger.formatter s.appenders[i]⟩
      rw [hinherit, List.getElem?_eq_getElem hid]
      simp
  | delAppender name id =>
    exact modifyLogger_equipped hs (fun logger i hi => List.mem_of_mem_erase hi) h
  | clearAppenders name =>
    exact modifyLogger_equipped hs (fun logger i hi => absurd hi List.not_mem_nil) h
  | setAppenderFormatter id formatter =>
    exact modifyAppender_equipped hs (fun a _ _ => ⟨formatter,rfl⟩) h

theorem act_equipped (hs : s.Equipped) {action : LogAction F} (h : s.act initial action = .ok t) :
    t.Equipped := by
  cases action with
  | call call => exact call_equipped hs h
  | setLevel name level =>
    exact modifyLogger_equipped (f := fun logger => { logger with level := level }) hs
      (fun logger i hi => hi) h
  | setAppenderLevel id level =>
    exact modifyAppender_equipped (f := fun a => { a with level := level }) hs
      (fun a formatter ha => ⟨formatter,ha⟩) h

/-- In every run from a system without loggers the attached appenders have formatters. -/
theorem run_equipped {actions : List (LogAction F)} (hs : s.Equipped)
    (h : actions.foldlM (act initial) s = .ok t) : t.Equipped := by
  induction actions generalizing s with
  | nil =>
    cases h
    exact hs
  | cons action actions ih =>
    obtain ⟨u,hu,h⟩ := exists_of_bind_eq_ok h
    exact ih (act_equipped hs hu) h

end Runs

end LogSystem

/-! ## Levels -/

section Levels
variable (format : F → LogEvent → T) {appenders : List (LogAppender F)} (event : LogEvent)

/-- An appender of a logger that emits the event by its level and that of the logger. -/
def Due (appenders : List (LogAppender F)) (logger : Logger F) (id : ℕ) (text : T) : Prop :=
  event.Passes logger.level ∧ id ∈ logger.appenders ∧ ∃ a formatter, appenders[id]? = some a ∧
    event.Passes a.level ∧ a.formatter = some formatter ∧ text = format formatter event

/-- The appenders of the logger emit the event by the levels, or those of the root logger if
there are none. -/
def FiltersByLevel (logger : AttachedLogger appenders)
    (root : Option (AttachedLogger appenders)) : Prop :=
  ∃ out, Logger.log format appenders event
      (logger.logger :: (root.map AttachedLogger.logger).toList) = .ok out ∧
    ∀ id text, (id,text) ∈ out ↔ Due format event appenders logger.logger id text ∨
      (event.Passes logger.logger.level ∧ logger.logger.appenders = [] ∧
        ∃ r ∈ root, Due format event appenders r.logger id text)

/-- No file has a level above that of the event. -/
def FilesPass (logger : AttachedLogger appenders) : Prop :=
  ∀ id ∈ logger.logger.appenders, ∀ a filename, appenders[id]? = some a →
    a.kind = .file filename → event.Passes a.level

/-- An appender that has a formatter emits every event if it writes to a file. -/
theorem output_spec {a : LogAppender F} {formatter : F} (h : a.formatter = some formatter) :
    ∃ text, a.output format event = .ok text ∧ ∀ t, text = some t ↔
      (a.kind = .stdout → event.Passes a.level) ∧ t = format formatter event := by
  have hwrite : a.write format event = .ok (some (format formatter event)) := by
    rw [LogAppender.write, h]
  rw [LogAppender.output]
  cases hkind : a.kind with
  | stdout =>
    by_cases hpass : event.Passes a.level
    · refine ⟨some (format formatter event),by simp only [if_pos hpass, hwrite],?_⟩
      intro t
      simp [hpass, eq_comm]
    · refine ⟨none,by simp only [if_neg hpass],?_⟩
      intro t
      simp [hpass]
  | file filename =>
    refine ⟨_,hwrite,?_⟩
    intro t
    simp [eq_comm]

theorem outputAll_spec {ids : List ℕ} (h : ∀ id ∈ ids, ∃ a formatter,
    appenders[id]? = some a ∧ a.formatter = some formatter) :
    ∃ out, Logger.outputAll format appenders event ids = .ok out ∧ ∀ id text, (id,text) ∈ out ↔
      id ∈ ids ∧ ∃ a formatter, appenders[id]? = some a ∧
        (a.kind = .stdout → event.Passes a.level) ∧ a.formatter = some formatter ∧
          text = format formatter event := by
  induction ids with
  | nil => exact ⟨[],rfl,by simp⟩
  | cons i ids ih =>
    obtain ⟨out,hout,hmem⟩ := ih fun id hid => h id (List.mem_cons_of_mem i hid)
    obtain ⟨a,formatter,ha,hformatter⟩ := h i List.mem_cons_self
    obtain ⟨text,htext,hemits⟩ := output_spec format event hformatter
    refine ⟨(text.map fun text => (i,text)).toList ++ out,?_,?_⟩
    · rw [Logger.outputAll, ha]
      simp only [htext, hout, ok_bind]
    · intro id t
      rw [List.mem_append, hmem, List.mem_cons]
      have hfirst : (id,t) ∈ (text.map fun text => (i,text)).toList ↔ id = i ∧ text = some t := by
        cases text with
        | none => simp
        | some u => simp [eq_comm]
      rw [hfirst, hemits]
      constructor
      · rintro (⟨rfl,hpass,ht⟩ | ⟨hid,hrest⟩)
        · exact ⟨.inl rfl,a,formatter,ha,hpass,hformatter,ht⟩
        · exact ⟨.inr hid,hrest⟩
      · rintro ⟨rfl | hid,b,formatter',hb,hpass,hformatter',ht⟩
        · rw [ha] at hb
          cases hb
          rw [hformatter] at hformatter'
          cases hformatter'
          exact .inl ⟨rfl,hpass,ht⟩
        · exact .inr ⟨hid,b,formatter',hb,hpass,hformatter',ht⟩

variable {event} in
/-- The appenders of a logger that passes the event. -/
theorem due_iff_filesPass {logger : AttachedLogger appenders}
    (hpass : event.Passes logger.logger.level) : ∃ out,
      Logger.outputAll format appenders event logger.logger.appenders = .ok out ∧
        ((∀ id text, (id,text) ∈ out ↔
          Due format event appenders logger.logger id text) ↔
            FilesPass event logger) := by
  obtain ⟨out,hout,hmem⟩ := outputAll_spec format event logger.equipped
  refine ⟨out,hout,?_⟩
  constructor
  · intro hdue id hid a filename ha hkind
    obtain ⟨b,formatter,hb,hformatter⟩ := logger.equipped id hid
    rw [ha] at hb
    cases hb
    have hstdout : a.kind = .stdout → event.Passes a.level := by
      intro h
      rw [hkind] at h
      cases h
    have hemitted := (hmem id (format formatter event)).mpr
      ⟨hid,a,formatter,ha,hstdout,hformatter,rfl⟩
    obtain ⟨_,_,c,_,hc,hlevel,_⟩ := (hdue id _).mp hemitted
    rw [ha] at hc
    cases hc
    exact hlevel
  · intro hfiles id text
    rw [hmem]
    constructor
    · rintro ⟨hid,a,formatter,ha,hlevel,hformatter,htext⟩
      refine ⟨hpass,hid,a,formatter,ha,?_,hformatter,htext⟩
      cases hkind : a.kind with
      | stdout => exact hlevel hkind
      | file filename => exact hfiles id hid a filename ha hkind
    · rintro ⟨_,hid,a,formatter,ha,hlevel,hformatter,htext⟩
      exact ⟨hid,a,formatter,ha,fun _ => hlevel,hformatter,htext⟩

end Levels

section Filtering
variable (format : F → LogEvent → T) {appenders : List (LogAppender F)} {event : LogEvent}
  {logger : AttachedLogger appenders} {root : Option (AttachedLogger appenders)}

/-- A logger with a null `root_`. -/
theorem log_alone (hpass : event.Passes logger.logger.level) :
    Logger.log format appenders event [logger.logger] =
      Logger.outputAll format appenders event logger.logger.appenders := by
  rw [Logger.log, if_pos hpass]
  by_cases hnil : logger.logger.appenders = []
  · rw [if_neg (not_not.mpr hnil), hnil]
    rfl
  · rw [if_pos hnil]

theorem filters_of_not_passes (hpass : ¬ event.Passes logger.logger.level) :
    FiltersByLevel format event logger root := by
  refine ⟨[],by rw [Logger.log, if_neg hpass],?_⟩
  intro id text
  simp [Due, hpass]

theorem filters_own_iff (hpass : event.Passes logger.logger.level)
    (hne : logger.logger.appenders ≠ []) :
    FiltersByLevel format event logger root ↔ FilesPass event logger := by
  obtain ⟨out,hout,hiff⟩ := due_iff_filesPass format hpass
  rw [FiltersByLevel, Logger.log, if_pos hpass, if_pos hne, hout, ← hiff]
  simp [hne]

theorem filters_root_iff (hpass : event.Passes logger.logger.level)
    (hnil : logger.logger.appenders = []) : FiltersByLevel format event logger root ↔
      ∀ r ∈ root, event.Passes r.logger.level → FilesPass event r := by
  have hown : ∀ id text,
      ¬ Due format event appenders logger.logger id text := by
    rintro id text ⟨_,hid,_⟩
    rw [hnil] at hid
    exact absurd hid List.not_mem_nil
  rw [FiltersByLevel, Logger.log, if_pos hpass, if_neg (not_not.mpr hnil)]
  cases root with
  | none => simp [Logger.log, hown]
  | some r =>
    by_cases hroot : event.Passes r.logger.level
    · obtain ⟨out,hout,hiff⟩ := due_iff_filesPass format hroot
      have hlog : Logger.log format appenders event
          (((some r).map AttachedLogger.logger).toList) = .ok out :=
        (log_alone format hroot).trans hout
      rw [hlog]
      simp [hown, hpass, hnil, hroot, ← hiff]
    · have hlog : Logger.log format appenders event
          (((some r).map AttachedLogger.logger).toList) = .ok [] := by
        simp [Logger.log, hroot]
      have hnone : ∀ id text,
          ¬ Due format event appenders r.logger id text := fun _ _ h => hroot h.1
      rw [hlog]
      simp [hown, hnone, hroot]

/-- For every logger and its appenders, every root logger and every event: the levels decide
which appenders emit it exactly when no file that is reached has a level above that of the
event. -/
theorem level_filtering_iff (logger : AttachedLogger appenders)
    (root : Option (AttachedLogger appenders)) (event : LogEvent) :
    FiltersByLevel format event logger root ↔
      (event.Passes logger.logger.level → FilesPass event logger ∧
        (logger.logger.appenders = [] →
          ∀ r ∈ root, event.Passes r.logger.level → FilesPass event r)) := by
  by_cases hpass : event.Passes logger.logger.level
  · by_cases hnil : logger.logger.appenders = []
    · rw [filters_root_iff format hpass hnil]
      simp [hpass, hnil, FilesPass]
    · rw [filters_own_iff format hpass hnil]
      simp [hpass, hnil]
  · simp [filters_of_not_passes format hpass, hpass]

end Filtering

def errorFile : LogAppender Unit where
  kind := .file "log.txt"
  level := .error
  formatter := some ()

def errorFileLogger : AttachedLogger [errorFile] where
  logger := { formatter := (), appenders := [0] }
  equipped := by
    intro id hid
    obtain rfl := List.mem_singleton.mp hid
    exact ⟨errorFile,(),rfl,rfl⟩

def infoEvent : LogEvent where
  file := ['a']
  line := 1
  elapse := 0
  threadId := 0
  fiberId := 0
  time := 0
  content := ['x']
  loggerName := ['s']
  level := .info

/-- A file of level `ERROR` gets an event of level `INFO`. -/
theorem file_ignores_level :
    Logger.log (fun _ event => event.content) [errorFile] infoEvent [errorFileLogger.logger] =
      .ok [(0, ['x'])] ∧
    ¬ FiltersByLevel (fun _ event => event.content) infoEvent errorFileLogger none := by
  have hlog : Logger.log (fun _ event => event.content) [errorFile] infoEvent
      [errorFileLogger.logger] = .ok [(0, ['x'])] := by decide
  refine ⟨hlog,?_⟩
  rintro ⟨out,hout,hiff⟩
  have hsame : out = [(0, ['x'])] := Except.ok.inj (hout.symm.trans hlog)
  rcases (hiff 0 ['x']).mp (by simp [hsame]) with ⟨_,_,a,_,ha,hpass,_⟩ | ⟨_,hnil,_⟩
  · cases ha
    exact absurd hpass (by decide)
  · cases hnil

end Gudov
