import Gudov.LogConfig

/-!
# Log configuration as YAML

The two `LexicalCast`s between a set of log entries and its text. Text and nodes are
related by the YAML library, which is a parameter here.

The writer names the formatter of a logger only when it is empty, and the reader knows
neither the level of an appender nor the formatter of one for the standard output. What
comes back is therefore the set without these fields, and it is the set that was written
exactly when they were empty.
-/
namespace Gudov

inductive YamlNode
  | null
  | scalar (text : String)
  | sequence (items : List YamlNode)
  | map (entries : List (YamlNode × YamlNode))

inductive YamlError
  | parse
  | badSubscript
  | badConversion
deriving Repr, DecidableEq

/-- The library. Which numbers a key is equal to and how a null converts to a string
depend on its version. -/
structure YamlCpp where
  emit : YamlNode → String
  load : String → Except YamlError YamlNode
  isIndex : YamlNode → ℕ → Bool
  nullString : Except YamlError String

namespace YamlNode

/-- A key is found when it is a scalar of this text. -/
def hasText (key : String) : YamlNode → Bool
  | .scalar text => text = key
  | _ => false

/-- The subscript by a name. Nothing is the undefined node; a sequence becomes a map of
numbers. -/
def field (key : String) : Option YamlNode → Except YamlError (Option YamlNode)
  | some (.scalar _) => .error .badSubscript
  | some (.map entries) => .ok ((entries.find? fun entry => entry.1.hasText key).map Prod.snd)
  | _ => .ok none

/-- The subscript by a number. -/
def index (yaml : YamlCpp) (i : ℕ) : Option YamlNode → Except YamlError (Option YamlNode)
  | some (.scalar _) => .error .badSubscript
  | some (.map entries) => .ok ((entries.find? fun entry => yaml.isIndex entry.1 i).map Prod.snd)
  | some (.sequence items) => .ok items[i]?
  | _ => .ok none

def size : Option YamlNode → ℕ
  | some (.sequence items) => items.length
  | some (.map entries) => entries.length
  | _ => 0

def asString (yaml : YamlCpp) : YamlNode → Except YamlError String
  | .scalar text => .ok text
  | .null => yaml.nullString
  | _ => .error .badConversion

/-- The string under a key, or a default when the key is undefined. -/
def stringAt (yaml : YamlCpp) (key default : String) (n : Option YamlNode) :
    Except YamlError String := do
  match ← field key n with
  | none => .ok default
  | some value => value.asString yaml

/-- The loop over the subscripts of a node. The body adds what it reads to what there is,
or skips. -/
def forEach {α : Type} (yaml : YamlCpp) (body : α → Option YamlNode → Except YamlError α)
    (n : Option YamlNode) (start : α) : Except YamlError α :=
  (List.range (size n)).foldlM (fun a i => do body a (← index yaml i n)) start

@[simp] theorem field_map_nil (key : String) : field key (some (.map [])) = .ok none := rfl

@[simp] theorem field_map_cons (key name : String) (value : YamlNode)
    (entries : List (YamlNode × YamlNode)) :
    field key (some (.map ((.scalar name, value) :: entries))) =
      if name = key then .ok (some value) else field key (some (.map entries)) := by
  by_cases h : name = key <;> simp [field, hasText, h]

@[simp] theorem asString_scalar (yaml : YamlCpp) (text : String) :
    asString yaml (.scalar text) = .ok text := rfl

@[simp] theorem forEach_none {α : Type} (yaml : YamlCpp)
    (body : α → Option YamlNode → Except YamlError α) (start : α) :
    forEach yaml body none start = .ok start := rfl

theorem forEach_sequence {α : Type} (yaml : YamlCpp)
    (body : α → Option YamlNode → Except YamlError α) (items : List YamlNode) (start : α) :
    forEach yaml body (some (.sequence items)) start =
      items.foldlM (fun a n => body a (some n)) start := by
  have hitems : (List.range items.length).map (fun i => items[i]?) = items.map some := by
    apply List.ext_getElem
    · simp
    · intro i hi _
      have hlt : i < items.length := by simpa using hi
      simp [hlt]
  calc
    forEach yaml body (some (.sequence items)) start =
        ((List.range items.length).map fun i => items[i]?).foldlM body start := by
      rw [List.foldlM_map]
      rfl
    _ = items.foldlM (fun a n => body a (some n)) start := by
      rw [hitems, List.foldlM_map]

end YamlNode

theorem map_eq_self {α : Type} {f : α → α} {l : List α} : l.map f = l ↔ ∀ a ∈ l, f a = a := by
  have hid := List.map_inj_left (f := f) (g := id) (l := l)
  rwa [List.map_id] at hid

namespace LogAppenderConfig
open YamlNode

/-- One appender; nothing when the entry is skipped. -/
def fromNode (yaml : YamlCpp) (a : Option YamlNode) : Except YamlError (Option LogAppenderConfig) := do
  match ← field "type" a with
  | none => .ok none
  | some type =>
    let type ← type.asString yaml
    if type = "FileLogAppender" then
      match ← field "file" a with
      | none => .ok none
      | some file =>
        let file ← file.asString yaml
        let formatter ← stringAt yaml "formatter" "" a
        .ok (some { type := 1, formatter := formatter, file := file })
    else if type = "StdoutLogAppender" then .ok (some { type := 2 })
    else .ok none

def toNode (a : LogAppenderConfig) : YamlNode :=
  let type : List (YamlNode × YamlNode) :=
    if a.type = 1 then
      [(.scalar "type", .scalar "FileLogAppender"), (.scalar "file", .scalar a.file)]
    else if a.type = 2 then [(.scalar "type", .scalar "StdoutLogAppender")]
    else []
  let level : List (YamlNode × YamlNode) :=
    if a.level ≠ .unknown then [(.scalar "level", .scalar a.level.toString)] else []
  let formatter : List (YamlNode × YamlNode) :=
    if a.formatter ≠ "" then [(.scalar "formatter", .scalar a.formatter)] else []
  match type ++ level ++ formatter with
  | [] => .null
  | entries => .map entries

/-- What comes back of an appender. -/
def kept (a : LogAppenderConfig) : LogAppenderConfig :=
  if a.type = 1 then { type := 1, formatter := a.formatter, file := a.file } else { type := 2 }

theorem fromNode_toNode (yaml : YamlCpp) {a : LogAppenderConfig} (ha : a.type = 1 ∨ a.type = 2) :
    fromNode yaml (some a.toNode) = .ok (some a.kept) := by
  rcases ha with ha | ha
  · by_cases hlevel : a.level = .unknown <;> by_cases hformatter : a.formatter = "" <;>
      simp [fromNode, toNode, kept, ha, hlevel, hformatter, stringAt, ok_bind]
  · by_cases hlevel : a.level = .unknown <;> by_cases hformatter : a.formatter = "" <;>
      simp [fromNode, toNode, kept, ha, hlevel, hformatter, ok_bind]

theorem kept_eq_iff {a : LogAppenderConfig} (ha : a.type = 1 ∨ a.type = 2) :
    a.kept = a ↔ a.level = .unknown ∧ (a.type = 2 → a.formatter = "" ∧ a.file = "") := by
  obtain ⟨type,level,formatter,file⟩ := a
  rcases ha with rfl | rfl
  · simp [kept, eq_comm]
  · simp [kept, eq_comm]

end LogAppenderConfig

namespace LogConfig
open YamlNode

/-- The body of the loop over the appenders. -/
def readAppender (yaml : YamlCpp) (appenders : List LogAppenderConfig) (a : Option YamlNode) :
    Except YamlError (List LogAppenderConfig) := do
  match ← LogAppenderConfig.fromNode yaml a with
  | none => .ok appenders
  | some lad => .ok (appenders ++ [lad])

def fromNode (yaml : YamlCpp) (n : Option YamlNode) : Except YamlError (Option LogConfig) := do
  match ← field "name" n with
  | none => .ok none
  | some name =>
    let name ← name.asString yaml
    let level ← stringAt yaml "level" "" n
    let formatter ← stringAt yaml "formatter" "" n
    let appenders ← forEach yaml (readAppender yaml) (← field "appenders" n) []
    .ok (some {
      name := name
      level := LogLevel.fromString level
      formatter := formatter
      appenders := appenders })

/-- The test on the formatter is the wrong way round. -/
def toNode (i : LogConfig) : YamlNode :=
  let level : List (YamlNode × YamlNode) :=
    if i.level ≠ .unknown then [(.scalar "level", .scalar i.level.toString)] else []
  let formatter : List (YamlNode × YamlNode) :=
    if i.formatter = "" then [(.scalar "formatter", .scalar i.formatter)] else []
  let appenders : List (YamlNode × YamlNode) :=
    if i.appenders = [] then []
    else [(.scalar "appenders", .sequence (i.appenders.map LogAppenderConfig.toNode))]
  .map ([(.scalar "name", .scalar i.name)] ++ level ++ formatter ++ appenders)

/-- What comes back of an entry. -/
def kept (i : LogConfig) : LogConfig :=
  { i with formatter := "", appenders := i.appenders.map LogAppenderConfig.kept }

theorem kept_eq_iff {i : LogConfig} (hall : ∀ a ∈ i.appenders, a.type = 1 ∨ a.type = 2) :
    i.kept = i ↔ i.formatter = "" ∧
      ∀ a ∈ i.appenders, a.level = .unknown ∧ (a.type = 2 → a.formatter = "" ∧ a.file = "") := by
  have happenders : i.appenders.map LogAppenderConfig.kept = i.appenders ↔
      ∀ a ∈ i.appenders, a.level = .unknown ∧ (a.type = 2 → a.formatter = "" ∧ a.file = "") := by
    rw [map_eq_self]
    exact forall₂_congr fun a ha => LogAppenderConfig.kept_eq_iff (hall a ha)
  rw [← happenders]
  obtain ⟨name,level,formatter,appenders⟩ := i
  simp [kept, eq_comm]

/-- The appenders are read in their order. -/
theorem readAppenders (yaml : YamlCpp) (read : List LogAppenderConfig)
    {appenders : List LogAppenderConfig} (hall : ∀ a ∈ appenders, a.type = 1 ∨ a.type = 2) :
    (appenders.map LogAppenderConfig.toNode).foldlM (fun read n => readAppender yaml read (some n))
      read = .ok (read ++ appenders.map LogAppenderConfig.kept) := by
  induction appenders generalizing read with
  | nil => simp; rfl
  | cons a appenders ih =>
    have ha := LogAppenderConfig.fromNode_toNode yaml (hall a (by simp))
    rw [List.map_cons, List.foldlM_cons, readAppender, ha, ok_bind]
    rw [ok_bind, ih _ fun b hb => hall b (List.mem_cons_of_mem a hb)]
    simp

theorem fromNode_toNode (yaml : YamlCpp) {i : LogConfig}
    (hall : ∀ a ∈ i.appenders, a.type = 1 ∨ a.type = 2) :
    fromNode yaml (some i.toNode) = .ok (some i.kept) := by
  have hread := readAppenders yaml [] hall
  rw [← forEach_sequence yaml, List.nil_append] at hread
  by_cases hlevel : i.level = .unknown <;> by_cases hformatter : i.formatter = "" <;>
    by_cases happenders : i.appenders = [] <;>
    simp [fromNode, toNode, kept, hlevel, hformatter, happenders, hread, stringAt, ok_bind,
      LogLevel.fromString_empty]

end LogConfig

namespace LogConfigs
open YamlNode

/-- The body of the loop over the entries. -/
def readEntry (yaml : YamlCpp) (vec : LogConfigs) (n : Option YamlNode) :
    Except YamlError LogConfigs := do
  match ← LogConfig.fromNode yaml n with
  | none => .ok vec
  | some ld => .ok (vec.insert ld)

/-- `LexicalCast<std::string, std::set<LogConfig>>`. -/
def fromString (yaml : YamlCpp) (v : String) : Except YamlError LogConfigs := do
  forEach yaml (readEntry yaml) (some (← yaml.load v)) empty

/-- A node nothing was pushed to stays null. -/
def toNode (v : LogConfigs) : YamlNode :=
  if v.items = [] then .null else .sequence (v.items.map LogConfig.toNode)

/-- `LexicalCast<std::set<LogConfig>, std::string>`. -/
def toString (yaml : YamlCpp) (v : LogConfigs) : String := yaml.emit v.toNode

/-- The fields the writer leaves out or the reader does not look at. -/
def Plain (v : LogConfigs) : Prop :=
  ∀ i ∈ v.items, i.formatter = "" ∧
    ∀ a ∈ i.appenders, a.level = .unknown ∧ (a.type = 2 → a.formatter = "" ∧ a.file = "")

/-- What comes back of a set. -/
def kept (v : LogConfigs) : LogConfigs where
  items := v.items.map LogConfig.kept
  sorted := List.pairwise_map.mpr v.sorted

/-- The entries come in the order of their names, so each one is appended. -/
theorem readEntries (yaml : YamlCpp) {v : LogConfigs} (read : LogConfigs) {items : List LogConfig}
    (hitems : v.items = read.items ++ items.map LogConfig.kept)
    (hall : ∀ i ∈ items, ∀ a ∈ i.appenders, a.type = 1 ∨ a.type = 2) :
    (items.map LogConfig.toNode).foldlM (fun read n => readEntry yaml read (some n)) read =
      .ok v := by
  induction items generalizing read with
  | nil =>
    have hv : read = v := by
      ext1
      simpa using hitems.symm
    rw [hv]
    rfl
  | cons i items ih =>
    have hi := LogConfig.fromNode_toNode yaml (hall i (by simp))
    have hlast : (read.insert i.kept).items = read.items ++ [i.kept] := by
      apply OrderedList.insert_last
      intro other hother
      have hsorted := v.sorted
      rw [hitems] at hsorted
      exact (List.pairwise_append.mp hsorted).2.2 other hother i.kept (by simp)
    rw [List.map_cons, List.foldlM_cons, readEntry, hi, ok_bind]
    refine ih (read.insert i.kept) ?_ fun j hj => hall j (List.mem_cons_of_mem i hj)
    rw [hlast, hitems]
    simp

theorem fromString_toString (yaml : YamlCpp) {v : LogConfigs}
    (hall : ∀ i ∈ v.items, ∀ a ∈ i.appenders, a.type = 1 ∨ a.type = 2)
    (hyaml : yaml.load (yaml.emit v.toNode) = .ok v.toNode) :
    fromString yaml (v.toString yaml) = .ok v.kept := by
  rw [fromString, toString, hyaml, ok_bind, toNode]
  split
  next hnil =>
    have hempty : v.kept = empty := by
      ext1
      simp [kept, hnil, empty]
    rw [hempty]
    rfl
  next =>
    rw [forEach_sequence]
    exact readEntries yaml empty rfl hall

theorem kept_eq_iff {v : LogConfigs}
    (hall : ∀ i ∈ v.items, ∀ a ∈ i.appenders, a.type = 1 ∨ a.type = 2) :
    v.kept = v ↔ v.Plain := by
  have hfix : v.kept = v ↔ ∀ i ∈ v.items, i.kept = i := by
    constructor
    · intro h
      exact map_eq_self.mp (congrArg items h)
    · intro h
      ext1
      exact map_eq_self.mpr h
  rw [hfix]
  exact forall₂_congr fun i hi => LogConfig.kept_eq_iff (hall i hi)

/-- A set of writable entries comes back as it was exactly when it is plain. -/
theorem yaml_reads_back (yaml : YamlCpp) (v : LogConfigs)
    (hall : ∀ i ∈ v.items, ∀ a ∈ i.appenders, (a.type = 1 ∧ a.file ≠ "") ∨ a.type = 2)
    (hyaml : yaml.load (yaml.emit v.toNode) = .ok v.toNode) :
    fromString yaml (v.toString yaml) = .ok v ↔ v.Plain := by
  have htypes : ∀ i ∈ v.items, ∀ a ∈ i.appenders, a.type = 1 ∨ a.type = 2 :=
    fun i hi a ha => (hall i hi a ha).imp_left And.left
  rw [fromString_toString yaml htypes hyaml, Except.ok.injEq, kept_eq_iff htypes]

/-- One logger that writes to a file. -/
def fileOnly : LogConfigs where
  items := [{ name := "root", level := .info, appenders := [{ type := 1, file := "root.txt" }] }]
  sorted := List.pairwise_singleton _ _

theorem yaml_reads_back_fileOnly :
    let text := "- name: root\n  level: INFO\n  formatter: \"\"\n  appenders:\n" ++
      "    - type: FileLogAppender\n      file: root.txt"
    let yaml : YamlCpp := {
      emit := fun _ => text
      load := fun _ => .ok fileOnly.toNode
      isIndex := fun _ _ => false
      nullString := .error .badConversion }
    yaml.load (yaml.emit fileOnly.toNode) = .ok fileOnly.toNode ∧
      fromString yaml (fileOnly.toString yaml) = .ok fileOnly := by
  intro text yaml
  refine ⟨rfl,(yaml_reads_back yaml fileOnly ?_ rfl).mpr ?_⟩
  · simp [fileOnly]
  · simp [Plain, fileOnly]

/-- One logger with a formatter of its own. -/
def formatted : LogConfigs where
  items := [{ name := "system", level := .info, formatter := "%m%n" }]
  sorted := List.pairwise_singleton _ _

/-- The formatter of a logger is not written. -/
theorem yaml_loses_formatter :
    ¬ ∀ (yaml : YamlCpp) (v : LogConfigs), (∀ i ∈ v.items, i.name ≠ "") →
      (∀ i ∈ v.items, ∀ a ∈ i.appenders, (a.type = 1 ∧ a.file ≠ "") ∨ a.type = 2) →
      yaml.load (yaml.emit v.toNode) = .ok v.toNode →
      fromString yaml (v.toString yaml) = .ok v := by
  intro hall
  let yaml : YamlCpp := {
    emit := fun _ => "- name: system\n  level: INFO"
    load := fun _ => .ok formatted.toNode
    isIndex := fun _ _ => false
    nullString := .error .badConversion }
  have hback := hall yaml formatted (by simp [formatted]) (by simp [formatted]) rfl
  rw [fromString_toString yaml (by simp [formatted]) rfl, Except.ok.injEq,
    kept_eq_iff (by simp [formatted])] at hback
  simp [Plain, formatted] at hback

end LogConfigs

end Gudov
