import Mathlib.Data.List.Forall2
import Mathlib.Data.List.Nodup
import Gudov.ConfigVar
import Gudov.LogFormatter
import Gudov.Logger

/-!
# Reloading the log configuration

The listener of the variable `logs`. It goes through the entries of the new set and
configures their loggers, and then clears those that are only in the old set. The pointer
to the logger is set for entries that are new or changed; for the others it is null when it
is used. Whether an entry is changed, and whether the listener runs at all, is decided by a
comparison that does not look at the appenders.
-/
namespace Gudov

namespace LogAppenderConfig

/-- The appender that is constructed, if the type is known. -/
def kind (appender : LogAppenderConfig) : Option AppenderKind :=
  if appender.type = 1 then some (.file appender.file)
  else if appender.type = 2 then some .stdout
  else none

/-- The formatter that is set on the appender: that of the entry, if it is valid. -/
def ownFormatter (appender : LogAppenderConfig) : Option LogFormatter :=
  if appender.formatter = "" then none
  else if (LogFormatter.init appender.formatter).error then none
  else some (LogFormatter.init appender.formatter)

end LogAppenderConfig

namespace LogConfigs

theorem distinct (s : LogConfigs) : s.items.Pairwise fun i j => i.name ≠ j.name :=
  s.sorted.imp fun h => ne_of_lt (by simpa [LogConfig.before] using h)

theorem find_eq_some_iff {s : LogConfigs} {i j : LogConfig} :
    s.find i = some j ↔ j ∈ s.items ∧ j.name = i.name := by
  constructor
  · intro h
    exact ⟨List.mem_of_find?_eq_some h,by simpa using List.find?_some h⟩
  · rintro ⟨hmem,hname⟩
    cases hfind : s.find i with
    | none =>
      have := List.find?_eq_none.mp hfind j hmem
      simp [hname] at this
    | some k =>
      have hk : k ∈ s.items := List.mem_of_find?_eq_some hfind
      have hkname : k.name = i.name := by simpa using List.find?_some hfind
      rw [List.inj_on_of_nodup_map (List.pairwise_map.mpr s.distinct) hk hmem
        (hkname.trans hname.symm)]

/-- `operator==` of the sets: the same size and equal entries in order. -/
def equal (a b : LogConfigs) : Bool :=
  a.items.length = b.items.length && (a.items.zip b.items).all fun p => p.1.equal p.2

/-- The pointer to the logger of an entry is set. -/
def changed (old : LogConfigs) (i : LogConfig) : Bool :=
  match old.find i with
  | none => true
  | some it => !(i.equal it)

theorem changed_iff {old : LogConfigs} {i : LogConfig} :
    old.changed i = true ↔ ∀ it ∈ old.find i, i.equal it = false := by
  unfold changed
  cases old.find i with
  | none => simp
  | some it => simp

end LogConfigs

namespace LogSystem

/-- `Logger::SetFormatter` of a pattern; an invalid one changes nothing. -/
def setPattern (name val : String) (s : LogSystem LogFormatter) :
    Except Fault (LogSystem LogFormatter) :=
  if (LogFormatter.init val).error then .ok s else s.setFormatter name (LogFormatter.init val)

/-- The formatter of an entry is set when there is one. -/
def applyFormatter (i : LogConfig) (s : LogSystem LogFormatter) :
    Except Fault (LogSystem LogFormatter) :=
  if i.formatter = "" then .ok s else s.setPattern i.name i.formatter

/-- The body of the loop over the appenders of an entry. -/
def applyAppender (name : String) (s : LogSystem LogFormatter) (appender : LogAppenderConfig) :
    Except Fault (LogSystem LogFormatter) :=
  match appender.kind with
  | none => .error .nullDereference
  | some kind => do
    let id := s.appenders.length
    let s ← (s.newAppender kind .debug).setAppenderLevel id appender.level
    let s ← match appender.ownFormatter with
      | none => .ok s
      | some formatter => s.setAppenderFormatter id formatter
    s.addAppender name id

/-- The body of the loop over the new set. -/
def applyEntry (old : LogConfigs) (s : LogSystem LogFormatter) (i : LogConfig) :
    Except Fault (LogSystem LogFormatter) :=
  if old.changed i then do
    let s ← (s.getLogger LogFormatter.initial i.name).setLevel i.name i.level
    let s ← s.applyFormatter i
    let s ← s.clearAppenders i.name
    i.appenders.foldlM (applyAppender i.name) s
  else .error .nullDereference

/-- The body of the loop over the old set. -/
def removeEntry (new : LogConfigs) (s : LogSystem LogFormatter) (i : LogConfig) :
    Except Fault (LogSystem LogFormatter) :=
  match new.find i with
  | some _ => .ok s
  | none => do
    let s ← (s.getLogger LogFormatter.initial i.name).setLevel i.name .unknown
    s.clearAppenders i.name

/-- The listener of `LogIniter`, after its message. -/
def onConfChanged (old new : LogConfigs) (s : LogSystem LogFormatter) :
    Except Fault (LogSystem LogFormatter) := do
  let s ← new.items.foldlM (applyEntry old) s
  old.items.foldlM (removeEntry new) s

/-- The variable `logs` with its listener. -/
def logDefines (value : LogConfigs) : ConfigVar LogConfigs (LogSystem LogFormatter) where
  value := value
  callbacks := [onConfChanged]

/-- An appender is as its entry says. One without a valid formatter has that of the logger. -/
def AppenderFits (s : LogSystem LogFormatter) (formatter : LogFormatter) (id : ℕ)
    (appender : LogAppenderConfig) : Prop :=
  ∃ a, s.appenders[id]? = some a ∧ appender.kind = some a.kind ∧ a.level = appender.level ∧
    a.formatter = some (appender.ownFormatter.getD formatter)

/-- The logger of an entry is as the entry says. -/
def Configured (s : LogSystem LogFormatter) (i : LogConfig) : Prop :=
  ∃ logger, s.loggers i.name = some logger ∧ logger.level = i.level ∧
    (i.formatter ≠ "" → (LogFormatter.init i.formatter).error = false →
      logger.formatter = LogFormatter.init i.formatter) ∧
    List.Forall₂ (s.AppenderFits logger.formatter) logger.appenders i.appenders

def Cleared (s : LogSystem LogFormatter) (name : String) : Prop :=
  ∃ logger, s.loggers name = some logger ∧ logger.level = .unknown ∧ logger.appenders = []

/-- Every logger of the new set is configured, those of the old one only are cleared. -/
structure Applied (old new : LogConfigs) (s : LogSystem LogFormatter) : Prop where
  configured : ∀ i ∈ new.items, s.Configured i
  cleared : ∀ i ∈ old.items, new.find i = none → s.Cleared i.name

/-- `SetValue` runs the listener, which completes and applies the new set. -/
def Reconfigures (old new : LogConfigs) (s : LogSystem LogFormatter) : Prop :=
  ∃ t, (logDefines old).notify LogConfigs.equal new s = .ok (some t) ∧ t.Applied old new

section Frame

/-- Only the named loggers change, and appenders that have a formatter do not. -/
structure Frame (names : List String) (s t : LogSystem LogFormatter) : Prop where
  loggers : ∀ name, name ∉ names → t.loggers name = s.loggers name
  appenders : ∀ (id : ℕ) a, s.appenders[id]? = some a → a.formatter ≠ none →
    t.appenders[id]? = some a

variable {s t r : LogSystem LogFormatter} {names others : List String} {name : String}
  {logger : Logger LogFormatter}

theorem Frame.refl (names : List String) (s : LogSystem LogFormatter) : Frame names s s :=
  ⟨fun _ _ => rfl,fun _ _ h _ => h⟩

theorem Frame.trans (h : Frame names s t) (h' : Frame others t r) : Frame (names ++ others) s r where
  loggers := by
    intro name hname
    rw [List.mem_append, not_or] at hname
    rw [h'.loggers name hname.2, h.loggers name hname.1]
  appenders := fun id a ha hformatter => h'.appenders id a (h.appenders id a ha hformatter) hformatter

theorem Frame.mono (h : Frame names s t) (hsub : names ⊆ others) : Frame others s t where
  loggers := fun name hname => h.loggers name fun hmem => hname (hsub hmem)
  appenders := h.appenders

/-- Two calls on the same logger. -/
theorem Frame.seq (h : Frame [name] s t) (h' : Frame [name] t r) : Frame [name] s r :=
  (h.trans h').mono (by simp)

theorem Frame.update (name : String) (logger : Logger LogFormatter) (s : LogSystem LogFormatter) :
    Frame [name] s { s with loggers := Function.update s.loggers name (some logger) } where
  loggers := fun other hother => Function.update_of_ne (by simpa using hother) _ _
  appenders := fun _ _ h _ => h

theorem AppenderFits.frame {formatter : LogFormatter} {id : ℕ} {appender : LogAppenderConfig}
    (hfits : s.AppenderFits formatter id appender) (h : Frame names s t) :
    t.AppenderFits formatter id appender := by
  obtain ⟨a,ha,hkind,hlevel,hformatter⟩ := hfits
  exact ⟨a,h.appenders id a ha (by simp [hformatter]),hkind,hlevel,hformatter⟩

theorem Configured.frame {i : LogConfig} (hi : s.Configured i) (h : Frame names s t)
    (hname : i.name ∉ names) : t.Configured i := by
  obtain ⟨logger,hlogger,hlevel,hformatter,happenders⟩ := hi
  refine ⟨logger,(h.loggers i.name hname).trans hlogger,hlevel,hformatter,?_⟩
  exact happenders.imp fun _ _ hfits => hfits.frame h

theorem Cleared.frame (hs : s.Cleared name) (h : Frame names s t) (hname : name ∉ names) :
    t.Cleared name := by
  obtain ⟨logger,hlogger,hcleared⟩ := hs
  exact ⟨logger,(h.loggers name hname).trans hlogger,hcleared⟩

/-- A loop whose body touches at most the logger of an entry, over entries of different
names. -/
theorem foldlM_frame {body : LogSystem LogFormatter → LogConfig → Except Fault (LogSystem LogFormatter)}
    {Done : LogSystem LogFormatter → LogConfig → Prop} {touched : LogConfig → List String}
    (hkeep : ∀ {s t names i}, Done s i → Frame names s t → i.name ∉ names → Done t i)
    (htouched : ∀ i, ∀ name ∈ touched i, name = i.name) {items : List LogConfig}
    (hbody : ∀ i ∈ items, ∀ s, ∃ t, body s i = .ok t ∧ Done t i ∧ Frame (touched i) s t)
    (hitems : items.Pairwise fun i j => i.name ≠ j.name) (s : LogSystem LogFormatter) :
    ∃ t, items.foldlM body s = .ok t ∧ (∀ i ∈ items, Done t i) ∧
      Frame (items.flatMap touched) s t := by
  induction items generalizing s with
  | nil => exact ⟨s,rfl,by simp,Frame.refl _ _⟩
  | cons i items ih =>
    obtain ⟨hnew,hitems⟩ := List.pairwise_cons.mp hitems
    obtain ⟨r,hr,hdone,hframe⟩ := hbody i (by simp) s
    obtain ⟨t,ht,hall,hrest⟩ := ih (fun j hj => hbody j (List.mem_cons_of_mem i hj)) hitems r
    refine ⟨t,?_,?_,hframe.trans hrest⟩
    · rw [List.foldlM_cons, hr, ok_bind, ht]
    · intro j hj
      rcases List.mem_cons.mp hj with rfl | hj
      · apply hkeep hdone hrest
        intro hmem
        obtain ⟨k,hk,hname⟩ := List.mem_flatMap.mp hmem
        exact hnew k hk (htouched k j.name hname)
      · exact hall j hj

end Frame

section Loops
variable {s t : LogSystem LogFormatter} {name : String} {logger : Logger LogFormatter}
  {old new : LogConfigs} {i : LogConfig} {appender : LogAppenderConfig}

/-- A logger is there after it was asked for. -/
theorem getLogger_spec (name : String) (s : LogSystem LogFormatter) :
    (∃ logger, (s.getLogger LogFormatter.initial name).loggers name = some logger) ∧
      Frame [name] s (s.getLogger LogFormatter.initial name) := by
  unfold getLogger
  split
  next logger hlogger => exact ⟨⟨logger,hlogger⟩,Frame.refl _ _⟩
  next => exact ⟨⟨_,Function.update_self _ _ _⟩,Frame.update _ _ _⟩

theorem modifyLogger_spec (f : Logger LogFormatter → Logger LogFormatter)
    (hlogger : s.loggers name = some logger) :
    ∃ t, s.modifyLogger name f = .ok t ∧ t.loggers name = some (f logger) ∧ Frame [name] s t := by
  refine ⟨_,by rw [modifyLogger, hlogger],?_,Frame.update _ _ _⟩
  exact Function.update_self _ _ _

theorem setFormatter_spec (val : LogFormatter) (hlogger : s.loggers name = some logger) :
    ∃ t, s.setFormatter name val = .ok t ∧
      t.loggers name = some { logger with formatter := val } ∧ Frame [name] s t := by
  cases h : s.setFormatter name val with
  | error fault => simp [setFormatter, hlogger] at h
  | ok t =>
    obtain ⟨other,hother,hloggers,happenders⟩ := setFormatter_ok h
    rw [hlogger] at hother
    cases hother
    refine ⟨t,rfl,by rw [hloggers, Function.update_self],?_,?_⟩
    · intro other hother
      rw [hloggers, Function.update_of_ne (by simpa using hother)]
    · intro id a ha hformatter
      obtain ⟨f,hf⟩ := Option.ne_none_iff_exists'.mp hformatter
      simp [happenders, ha, LogAppender.inherit_of_some hf]

theorem applyFormatter_spec (hlogger : s.loggers i.name = some logger) :
    ∃ t logger', s.applyFormatter i = .ok t ∧ t.loggers i.name = some logger' ∧
      logger'.level = logger.level ∧ Frame [i.name] s t ∧
      (i.formatter ≠ "" → (LogFormatter.init i.formatter).error = false →
        logger'.formatter = LogFormatter.init i.formatter) := by
  unfold applyFormatter setPattern
  split
  next hempty => exact ⟨s,logger,rfl,hlogger,rfl,Frame.refl _ _,by simp [hempty]⟩
  next =>
    split
    next herror => exact ⟨s,logger,rfl,hlogger,rfl,Frame.refl _ _,by simp [herror]⟩
    next =>
      obtain ⟨t,ht,hlogger',hframe⟩ := setFormatter_spec (LogFormatter.init i.formatter) hlogger
      exact ⟨t,_,ht,hlogger',rfl,hframe,fun _ _ => rfl⟩

theorem modify_concat {α : Type} (l : List α) (a : α) (f : α → α) :
    (l ++ [a]).modify l.length f = l ++ [f a] := by
  rw [List.modify_eq_take_cons_drop (by simp)]
  simp

/-- The appender of an entry is constructed, set up and added. -/
theorem applyAppender_eq {kind : AppenderKind} (hlogger : s.loggers name = some logger)
    (hkind : appender.kind = some kind) :
    s.applyAppender name appender = .ok {
      loggers := Function.update s.loggers name
        (some { logger with appenders := logger.appenders ++ [s.appenders.length] })
      appenders := s.appenders ++ [{
        kind := kind
        level := appender.level
        formatter := some (appender.ownFormatter.getD logger.formatter) }] } := by
  cases hown : appender.ownFormatter with
  | none =>
    simp [applyAppender, hkind, hown, newAppender, setAppenderLevel, modifyAppender, modify_concat,
      addAppender, hlogger, LogAppender.inherit, ok_bind]
  | some formatter =>
    simp [applyAppender, hkind, hown, newAppender, setAppenderLevel, setAppenderFormatter,
      modifyAppender, modify_concat, addAppender, hlogger, LogAppender.inherit, ok_bind]

/-- The new appender is the last one, and no other thing than the logger has changed. -/
theorem applyAppender_spec {done : List LogAppenderConfig}
    (hlogger : s.loggers name = some logger)
    (hdone : List.Forall₂ (s.AppenderFits logger.formatter) logger.appenders done)
    (hkind : appender.kind ≠ none) :
    ∃ t logger', s.applyAppender name appender = .ok t ∧ t.loggers name = some logger' ∧
      logger'.level = logger.level ∧ logger'.formatter = logger.formatter ∧
      List.Forall₂ (t.AppenderFits logger'.formatter) logger'.appenders (done ++ [appender]) ∧
      Frame [name] s t := by
  obtain ⟨kind,hkind⟩ := Option.ne_none_iff_exists'.mp hkind
  have heq := applyAppender_eq hlogger hkind
  have hframe : ∀ a, Frame [name] s {
      loggers := Function.update s.loggers name
        (some { logger with appenders := logger.appenders ++ [s.appenders.length] })
      appenders := s.appenders ++ [a] } := by
    intro a
    refine ⟨(Frame.update name _ s).loggers,?_⟩
    intro id b hb _
    rw [List.getElem?_append_left (List.getElem?_eq_some_iff.mp hb).1, hb]
  refine ⟨_,_,heq,Function.update_self _ _ _,rfl,rfl,?_,hframe _⟩
  apply List.rel_append
  · exact hdone.imp fun _ _ hfits => hfits.frame (hframe _)
  · refine List.Forall₂.cons ⟨_,List.getElem?_concat_length,hkind,rfl,rfl⟩ List.Forall₂.nil

theorem applyAppenders_spec {appenders done : List LogAppenderConfig}
    (hlogger : s.loggers name = some logger)
    (hdone : List.Forall₂ (s.AppenderFits logger.formatter) logger.appenders done)
    (hkinds : ∀ appender ∈ appenders, appender.kind ≠ none) :
    ∃ t logger', appenders.foldlM (applyAppender name) s = .ok t ∧ t.loggers name = some logger' ∧
      logger'.level = logger.level ∧ logger'.formatter = logger.formatter ∧
      List.Forall₂ (t.AppenderFits logger'.formatter) logger'.appenders (done ++ appenders) ∧
      Frame [name] s t := by
  induction appenders generalizing s logger done with
  | nil => exact ⟨s,logger,rfl,hlogger,rfl,rfl,by simpa using hdone,Frame.refl _ _⟩
  | cons appender appenders ih =>
    obtain ⟨r,logger₁,hr,hlogger₁,hlevel₁,hformatter₁,hdone₁,hframe₁⟩ :=
      applyAppender_spec hlogger hdone (hkinds appender (by simp))
    obtain ⟨t,logger₂,ht,hlogger₂,hlevel₂,hformatter₂,hdone₂,hframe₂⟩ :=
      ih hlogger₁ hdone₁ fun a ha => hkinds a (List.mem_cons_of_mem appender ha)
    refine ⟨t,logger₂,?_,hlogger₂,hlevel₂.trans hlevel₁,hformatter₂.trans hformatter₁,?_,
      hframe₁.seq hframe₂⟩
    · rw [List.foldlM_cons, hr, ok_bind, ht]
    · simpa using hdone₂

/-- An entry the listener can apply: it is new or the comparison sees a difference, and the
types of its appenders are known. -/
def Applicable (old : LogConfigs) (i : LogConfig) : Prop :=
  (∀ it ∈ old.find i, i.equal it = false) ∧ ∀ appender ∈ i.appenders, appender.kind ≠ none

theorem applyEntry_spec (hi : Applicable old i) (s : LogSystem LogFormatter) :
    ∃ t, s.applyEntry old i = .ok t ∧ t.Configured i ∧ Frame [i.name] s t := by
  obtain ⟨⟨logger₀,hlogger₀⟩,hframe₀⟩ := getLogger_spec i.name s
  obtain ⟨s₁,h₁,hlogger₁,hframe₁⟩ :=
    modifyLogger_spec (fun logger => { logger with level := i.level }) hlogger₀
  obtain ⟨s₂,logger₂,h₂,hlogger₂,hlevel₂,hframe₂,hformatter₂⟩ :=
    applyFormatter_spec hlogger₁
  obtain ⟨s₃,h₃,hlogger₃,hframe₃⟩ :=
    modifyLogger_spec (fun logger => { logger with appenders := [] }) hlogger₂
  obtain ⟨t,logger,h₄,hlogger,hlevel,hformatter,happenders,hframe₄⟩ :=
    applyAppenders_spec hlogger₃ List.Forall₂.nil hi.2
  refine ⟨t,?_,⟨logger,hlogger,hlevel.trans hlevel₂,?_,happenders⟩,
    hframe₀.seq (hframe₁.seq (hframe₂.seq (hframe₃.seq hframe₄)))⟩
  · have hchanged := LogConfigs.changed_iff.mpr hi.1
    unfold applyEntry
    simp only [hchanged, if_true, setLevel, clearAppenders]
    rw [h₁, ok_bind, h₂, ok_bind, h₃, ok_bind, h₄]
  · intro hne hvalid
    exact hformatter.trans (hformatter₂ hne hvalid)

theorem removeEntry_spec (new : LogConfigs) (i : LogConfig) (s : LogSystem LogFormatter) :
    ∃ t, s.removeEntry new i = .ok t ∧ (new.find i = none → t.Cleared i.name) ∧
      Frame (if new.find i = none then [i.name] else []) s t := by
  unfold removeEntry
  split
  next it hfind => exact ⟨s,rfl,by simp [hfind],Frame.refl _ _⟩
  next hfind =>
    rw [if_pos hfind]
    obtain ⟨⟨logger₀,hlogger₀⟩,hframe₀⟩ := getLogger_spec i.name s
    obtain ⟨s₁,h₁,hlogger₁,hframe₁⟩ :=
      modifyLogger_spec (fun logger => { logger with level := .unknown }) hlogger₀
    obtain ⟨t,h₂,hlogger₂,hframe₂⟩ :=
      modifyLogger_spec (fun logger => { logger with appenders := [] }) hlogger₁
    refine ⟨t,?_,fun _ => ⟨_,hlogger₂,rfl,rfl⟩,hframe₀.seq (hframe₁.seq hframe₂)⟩
    simp only [setLevel, clearAppenders]
    rw [h₁, ok_bind, h₂]

/-- The second loop does not come to the loggers of the new set. -/
theorem onConfChanged_spec (hnew : ∀ i ∈ new.items, Applicable old i)
    (s : LogSystem LogFormatter) : ∃ t, onConfChanged old new s = .ok t ∧ t.Applied old new := by
  obtain ⟨r,hr,hconfigured,_⟩ := foldlM_frame Configured.frame
    (fun _ _ h => List.mem_singleton.mp h) (fun i hi => applyEntry_spec (hnew i hi)) new.distinct s
  have hkeep : ∀ {s t : LogSystem LogFormatter} {names i}, (new.find i = none → s.Cleared i.name) →
      Frame names s t → i.name ∉ names → new.find i = none → t.Cleared i.name :=
    fun hs hframe hname hfind => (hs hfind).frame hframe hname
  have htouched : ∀ i, ∀ name ∈ if new.find i = none then [i.name] else [], name = i.name := by
    intro i name hname
    split at hname
    · exact List.mem_singleton.mp hname
    · cases hname
  obtain ⟨t,ht,hcleared,hframe⟩ :=
    foldlM_frame hkeep htouched (fun i _ => removeEntry_spec new i) old.distinct r
  refine ⟨t,?_,?_,hcleared⟩
  · rw [onConfChanged, hr, ok_bind, ht]
  · intro i hi
    apply (hconfigured i hi).frame hframe
    intro hmem
    obtain ⟨j,_,hj⟩ := List.mem_flatMap.mp hmem
    have hname := htouched j i.name hj
    have hfind := LogConfigs.find_eq_some_iff.mpr ⟨hi,hname⟩
    simp [hfind] at hj

/-- What follows from a step of a loop holds of all its entries when it completes. -/
theorem forall_of_foldlM {σ α : Type} {body : σ → α → Except Fault σ} {P : α → Prop}
    (hbody : ∀ s a t, body s a = .ok t → P a) {items : List α} {s t : σ}
    (h : items.foldlM body s = .ok t) : ∀ a ∈ items, P a := by
  induction items generalizing s with
  | nil => simp
  | cons b items ih =>
    obtain ⟨r,hr,hrest⟩ := exists_of_bind_eq_ok h
    exact List.forall_mem_cons.mpr ⟨hbody s b r hr,ih hrest⟩

theorem kind_of_applyAppender (h : s.applyAppender name appender = .ok t) : appender.kind ≠ none := by
  intro hnone
  rw [applyAppender, hnone] at h
  cases h

theorem applicable_of_applyEntry (h : s.applyEntry old i = .ok t) : Applicable old i := by
  unfold applyEntry at h
  split at h
  next hchanged =>
    obtain ⟨_,_,h⟩ := exists_of_bind_eq_ok h
    obtain ⟨_,_,h⟩ := exists_of_bind_eq_ok h
    obtain ⟨_,_,h⟩ := exists_of_bind_eq_ok h
    have hkinds : ∀ appender ∈ i.appenders, appender.kind ≠ none :=
      forall_of_foldlM (fun _ _ _ hok => kind_of_applyAppender hok) h
    exact ⟨LogConfigs.changed_iff.mp hchanged,hkinds⟩
  next => cases h

end Loops

/-- No logger has the same level and formatter in both sets, and the types of the new
appenders are known. -/
def Reloadable (old new : LogConfigs) : Prop :=
  ∀ i ∈ new.items,
    (∀ j ∈ old.items, j.name = i.name → ¬ (j.level = i.level ∧ j.formatter = i.formatter)) ∧
    ∀ appender ∈ i.appenders, appender.type = 1 ∨ appender.type = 2

section Reload
variable {old new : LogConfigs} {i : LogConfig} {s : LogSystem LogFormatter}

theorem applicable_iff : Applicable old i ↔
    (∀ j ∈ old.items, j.name = i.name → ¬ (j.level = i.level ∧ j.formatter = i.formatter)) ∧
    ∀ appender ∈ i.appenders, appender.type = 1 ∨ appender.type = 2 := by
  have hkind : ∀ appender : LogAppenderConfig,
      appender.kind ≠ none ↔ appender.type = 1 ∨ appender.type = 2 := by
    intro appender
    by_cases h₁ : appender.type = 1 <;> by_cases h₂ : appender.type = 2 <;>
      simp [LogAppenderConfig.kind, h₁, h₂]
  have hequal : (∀ it ∈ old.find i, i.equal it = false) ↔
      ∀ j ∈ old.items, j.name = i.name → ¬ (j.level = i.level ∧ j.formatter = i.formatter) := by
    constructor
    · intro h j hj hname hsame
      have hfalse := h j (LogConfigs.find_eq_some_iff.mpr ⟨hj,hname⟩)
      rw [LogConfig.equal_iff.mpr ⟨hname.symm,hsame.1.symm,hsame.2.symm⟩] at hfalse
      cases hfalse
    · intro h it hit
      obtain ⟨hmem,hname⟩ := LogConfigs.find_eq_some_iff.mp hit
      rw [Bool.eq_false_iff]
      intro htrue
      obtain ⟨_,hlevel,hformatter⟩ := LogConfig.equal_iff.mp htrue
      exact h it hmem hname ⟨hlevel.symm,hformatter.symm⟩
  rw [Applicable, hequal]
  exact and_congr_right fun _ => forall₂_congr fun appender _ => hkind appender

/-- Different sets that are equal have an entry of the same name, level and formatter. -/
theorem equal_eq_false (hne : old ≠ new) (h : Reloadable old new) : new.equal old = false := by
  rw [Bool.eq_false_iff]
  intro hequal
  simp only [LogConfigs.equal, Bool.and_eq_true, decide_eq_true_eq, List.all_eq_true] at hequal
  cases hnew : new.items with
  | nil =>
    have hold : old.items = [] := by
      apply List.eq_nil_of_length_eq_zero
      simpa [hnew] using hequal.1.symm
    exact hne (LogConfigs.ext (hold.trans hnew.symm))
  | cons i rest =>
    cases hold : old.items with
    | nil => simp [hnew, hold] at hequal
    | cons j others =>
      have hij : i.equal j = true := hequal.2 (i, j) (by simp [hnew, hold])
      obtain ⟨hname,hlevel,hformatter⟩ := LogConfig.equal_iff.mp hij
      exact (h i (by simp [hnew])).1 j (by simp [hold]) hname.symm ⟨hlevel.symm,hformatter.symm⟩

theorem notify_eq (hequal : new.equal old = false) :
    (logDefines old).notify LogConfigs.equal new s = (onConfChanged old new s).map some := by
  simp only [ConfigVar.notify, logDefines, hequal, Bool.false_eq_true, if_false,
    List.foldlM_cons, List.foldlM_nil]
  cases onConfChanged old new s <;> rfl

theorem reloadable_of_reconfigures (h : Reconfigures old new s) : Reloadable old new := by
  obtain ⟨t,ht,_⟩ := h
  cases hequal : new.equal old with
  | true =>
    simp only [ConfigVar.notify, logDefines, hequal, if_true] at ht
    cases ht
  | false =>
    rw [notify_eq hequal] at ht
    cases hrun : onConfChanged old new s with
    | error fault =>
      rw [hrun] at ht
      cases ht
    | ok r =>
      obtain ⟨_,hloop,_⟩ := exists_of_bind_eq_ok hrun
      intro i hi
      have hall : ∀ i ∈ new.items, Applicable old i :=
        forall_of_foldlM (fun _ _ _ hok => applicable_of_applyEntry hok) hloop
      exact applicable_iff.mp (hall i hi)

/-- A differing set is applied exactly when the sets are as the listener needs them. -/
theorem reload_applies (old new : LogConfigs) (hne : old ≠ new) (s : LogSystem LogFormatter) :
    Reconfigures old new s ↔ Reloadable old new := by
  constructor
  · exact reloadable_of_reconfigures
  · intro h
    obtain ⟨t,ht,happlied⟩ := onConfChanged_spec (fun i hi => applicable_iff.mpr (h i hi)) s
    refine ⟨t,?_,happlied⟩
    rw [notify_eq (equal_eq_false hne h), ht]
    rfl

end Reload

theorem root_before_system : "root" < "system" := String.lt_iff_toList_lt.mpr (by decide)

/-- One logger that writes to the standard output. -/
def consoleOnly : LogConfigs where
  items := [{ name := "system", level := .info, appenders := [{ type := 2 }] }]
  sorted := List.pairwise_singleton _ _

/-- The same logger with another level and a file, and a second one. -/
def withFile : LogConfigs where
  items := [{ name := "root", level := .warn, appenders := [{ type := 2, level := .error }] },
    { name := "system", level := .debug, appenders := [{ type := 1, file := "system.txt" }] }]
  sorted := List.pairwise_pair.mpr (decide_eq_true root_before_system)

theorem reload_applies_withFile :
    consoleOnly ≠ withFile ∧
      Reconfigures consoleOnly withFile { loggers := fun _ => none, appenders := [] } := by
  have hne : consoleOnly ≠ withFile := by
    intro h
    simpa [consoleOnly, withFile] using congrArg LogConfigs.items h
  refine ⟨hne,(reload_applies consoleOnly withFile hne _).mpr ?_⟩
  simp [Reloadable, consoleOnly, withFile]

/-- One logger changes its level and the other one stays as it is. -/
def twoLoggers (level : LogLevel) : LogConfigs where
  items := [{ name := "root", level := level }, { name := "system", level := .info }]
  sorted := List.pairwise_pair.mpr (decide_eq_true root_before_system)

/-- The listener uses a null logger for the entry that stays. -/
theorem reload_not_applied :
    ¬ ∀ (old new : LogConfigs) (s : LogSystem LogFormatter), old ≠ new → Reconfigures old new s := by
  intro hall
  have hne : twoLoggers .info ≠ twoLoggers .debug := by
    intro h
    simpa [twoLoggers] using congrArg LogConfigs.items h
  have hreload := reloadable_of_reconfigures
    (hall _ _ { loggers := fun _ => none, appenders := [] } hne)
  have hsystem := (hreload { name := "system", level := .info } (by simp [twoLoggers])).1
    { name := "system", level := .info } (by simp [twoLoggers]) rfl
  exact hsystem ⟨rfl,rfl⟩

end LogSystem

end Gudov
