import Gudov.ConfigLoading
import Gudov.SequenceCasts

/-!
# Containers to text and back

`LexicalCast` between text and the containers of the standard library, in both directions and
nested at will. The writers build a node from the texts of the elements and print it; the
readers print the elements of the node they load and cast each text. So a value comes back if
the YAML library reads back what it printed, for the nodes of this value, and each scalar in it
has the text that the library prints for a scalar node. An empty string has not: its element
is loaded as null, printed "~" and cast to "~".

A vector does not empty its stream between two elements and comes back only up to length 1.
-/
namespace Gudov.ContainerCasts
open SequenceCast

/-- `LexicalCast<T, std::string>` and `LexicalCast<std::string, T>`. -/
structure Casts (T : Type) where
  write : T → Except YamlError String
  read : String → Except YamlError T

section Containers
variable {T : Type} (yaml : YamlCpp) (c : Casts T)

/-- `YAML::Load(LexicalCast<T, std::string>()(i))` -/
def loaded (x : T) : Except YamlError YamlNode := do
  let text ← c.write x
  yaml.load text

/-- A node that was given no elements stays null. -/
def sequenceOf : List YamlNode → YamlNode
  | [] => .null
  | items => .sequence items

def mapOf : List (YamlNode × YamlNode) → YamlNode
  | [] => .null
  | entries => .map entries

/-- The four writers of sequences. -/
def writeSequence (v : List T) : Except YamlError String := do
  let items ← v.mapM (loaded yaml c)
  .ok (yaml.emit (sequenceOf items))

/-- `node[key] = value` -/
def assign (key : String) (value : YamlNode) (entries : List (YamlNode × YamlNode)) :
    List (YamlNode × YamlNode) :=
  if entries.any fun entry => entry.1.hasText key then
    entries.map fun entry => if entry.1.hasText key then (entry.1, value) else entry
  else entries ++ [(.scalar key, value)]

def assignLoaded (entries : List (YamlNode × YamlNode)) (i : String × T) :
    Except YamlError (List (YamlNode × YamlNode)) := do
  let value ← loaded yaml c i.2
  .ok (assign i.1 value entries)

/-- The two writers of maps. -/
def writeMap (v : List (String × T)) : Except YamlError String := do
  let entries ← v.foldlM (assignLoaded yaml c) []
  .ok (yaml.emit (mapOf entries))

/-- The loop over the iterators of a node. Those of a sequence have no `first`. -/
def readMap {C : Type} (insert : String × T → C → C) (empty : C) (v : String) :
    Except YamlError C := do
  match ← yaml.load v with
  | .map entries =>
    entries.foldlM (fun vec entry => do
      let x ← c.read (yaml.emit entry.2)
      .ok (insert (Config.scalar entry.1, x) vec)) empty
  | .sequence (_ :: _) => .error .badSubscript
  | _ => .ok empty

/-- The keys of a `std::map` are compared, not the values. -/
def keyLess (order : SetOrder String) (a b : String × T) : Bool := order.lt a.1 b.1

def insertUnorderedMap (entry : String × T) (vec : List (String × T)) : List (String × T) :=
  if vec.any fun other => other.1 = entry.1 then vec else vec ++ [entry]

def vectorCasts : Casts (List T) := ⟨writeSequence yaml c,toVector yaml c.read⟩

def listCasts : Casts (List T) := ⟨writeSequence yaml c,SequenceCast.toList yaml c.read⟩

def setCasts (order : SetOrder T) : Casts (List T) :=
  ⟨writeSequence yaml c,toSet yaml c.read order⟩

def unorderedSetCasts (equality : SetEquality T) : Casts (List T) :=
  ⟨writeSequence yaml c,toUnorderedSet yaml c.read equality⟩

def mapCasts (order : SetOrder String) : Casts (List (String × T)) :=
  ⟨writeMap yaml c,readMap yaml c (OrderedList.insert (keyLess order)) []⟩

def unorderedMapCasts : Casts (List (String × T)) :=
  ⟨writeMap yaml c,readMap yaml c insertUnorderedMap []⟩

end Containers

/-! ## Values and the trees their texts stand for -/

/-- Which values a type has, and the node that is printed for each. -/
structure Shape (T : Type) where
  valid : T → Prop
  tree : T → YamlNode

namespace Shape
variable {T : Type} (sh : Shape T)

def sequence (also : List T → Prop) : Shape (List T) where
  valid v := also v ∧ ∀ x ∈ v, sh.valid x
  tree v := sequenceOf (v.map sh.tree)

def map (also : List (String × T) → Prop) : Shape (List (String × T)) where
  valid v := also v ∧ ∀ x ∈ v, sh.valid x.2
  tree v := mapOf (v.map fun x => (.scalar x.1, sh.tree x.2))

end Shape

/-- The casts of the types built from scalars and containers. The text of a scalar is the one
that the library prints for its node, and is cast back. A set is listed in its order, and so are
the keys of a map; what is unordered is listed without repetition. -/
inductive Nested (yaml : YamlCpp) : {T : Type} → Casts T → Shape T → Prop
  | scalar {T : Type} (c : Casts T) (sh : Shape T)
      (h : ∀ v, sh.valid v → (∃ text, sh.tree v = .scalar text) ∧
        c.write v = .ok (yaml.emit (sh.tree v)) ∧ c.read (yaml.emit (sh.tree v)) = .ok v) :
      Nested yaml c sh
  | vector {T : Type} {c : Casts T} {sh : Shape T} (h : Nested yaml c sh) :
      Nested yaml (vectorCasts yaml c) (sh.sequence fun v => v.length ≤ 1)
  | list {T : Type} {c : Casts T} {sh : Shape T} (h : Nested yaml c sh) :
      Nested yaml (listCasts yaml c) (sh.sequence fun _ => True)
  | set {T : Type} {c : Casts T} {sh : Shape T} (order : SetOrder T) (h : Nested yaml c sh) :
      Nested yaml (setCasts yaml c order) (sh.sequence (OrderedList.Sorted order.lt))
  | unorderedSet {T : Type} {c : Casts T} {sh : Shape T} (equality : SetEquality T)
      (h : Nested yaml c sh) :
      Nested yaml (unorderedSetCasts yaml c equality)
        (sh.sequence (List.Pairwise fun x y => equality.same y x = false))
  | map {T : Type} {c : Casts T} {sh : Shape T} (order : SetOrder String)
      (h : Nested yaml c sh) :
      Nested yaml (mapCasts yaml c order) (sh.map (OrderedList.Sorted (keyLess order)))
  | unorderedMap {T : Type} {c : Casts T} {sh : Shape T} (h : Nested yaml c sh) :
      Nested yaml (unorderedMapCasts yaml c) (sh.map fun v => (v.map Prod.fst).Nodup)

/-- The library reads back what it prints, for a node and the nodes in it. -/
inductive Reloads (yaml : YamlCpp) : YamlNode → Prop
  | null (h : yaml.load (yaml.emit .null) = .ok .null) : Reloads yaml .null
  | scalar {text : String} (h : yaml.load (yaml.emit (.scalar text)) = .ok (.scalar text)) :
      Reloads yaml (.scalar text)
  | sequence {items : List YamlNode}
      (h : yaml.load (yaml.emit (.sequence items)) = .ok (.sequence items))
      (hitems : ∀ n ∈ items, Reloads yaml n) : Reloads yaml (.sequence items)
  | map {entries : List (YamlNode × YamlNode)}
      (h : yaml.load (yaml.emit (.map entries)) = .ok (.map entries))
      (hentries : ∀ entry ∈ entries, Reloads yaml entry.2) : Reloads yaml (.map entries)

section Proofs
variable {T : Type} {yaml : YamlCpp} {c : Casts T} {sh : Shape T}

theorem Reloads.load {n : YamlNode} (h : Reloads yaml n) : yaml.load (yaml.emit n) = .ok n := by
  cases h with
  | null h => exact h
  | scalar h => exact h
  | sequence h _ => exact h
  | map h _ => exact h

theorem Reloads.of_sequenceOf {items : List YamlNode} (h : Reloads yaml (sequenceOf items)) :
    ∀ n ∈ items, Reloads yaml n := by
  cases items with
  | nil => simp
  | cons n ns =>
    cases h with
    | sequence _ hitems => exact hitems

theorem Reloads.of_mapOf {entries : List (YamlNode × YamlNode)} (h : Reloads yaml (mapOf entries)) :
    ∀ entry ∈ entries, Reloads yaml entry.2 := by
  cases entries with
  | nil => simp
  | cons entry entries =>
    cases h with
    | map _ hentries => exact hentries

/-- The cast of a value writes its tree and reads it back. -/
def Prints (yaml : YamlCpp) (c : Casts T) (sh : Shape T) (v : T) : Prop :=
  c.write v = .ok (yaml.emit (sh.tree v)) ∧ c.read (yaml.emit (sh.tree v)) = .ok v

theorem Prints.loads {v : T} (h : Prints yaml c sh v) (hyaml : Reloads yaml (sh.tree v)) :
    loaded yaml c v = .ok (sh.tree v) := by
  rw [loaded, h.1, ok_bind, hyaml.load]

/-! ### Sequences -/

theorem mapM_loaded {v : List T} (h : ∀ x ∈ v, loaded yaml c x = .ok (sh.tree x)) :
    v.mapM (loaded yaml c) = .ok (v.map sh.tree) := by
  induction v with
  | nil => rfl
  | cons x v ih =>
    rw [List.mapM_cons, h x List.mem_cons_self, ok_bind, ih fun y hy => h y (by simp [hy]), ok_bind]
    rfl

theorem writeSequence_eq {v : List T} (h : ∀ x ∈ v, loaded yaml c x = .ok (sh.tree x)) :
    writeSequence yaml c v = .ok (yaml.emit (sequenceOf (v.map sh.tree))) := by
  rw [writeSequence, mapM_loaded h, ok_bind]

/-- The loop over the printed sequence puts the elements in, one after the other. -/
theorem castAll_sequenceOf {C : Type} {keep : String → String} (push : C → T → C) (empty : C)
    {v : List T} (hload : yaml.load (yaml.emit (sequenceOf (v.map sh.tree))) =
      .ok (sequenceOf (v.map sh.tree)))
    (hreads : SequenceCast.Reads c.read (seen yaml keep "" (v.map sh.tree)) v) :
    castAll yaml c.read keep push empty (yaml.emit (sequenceOf (v.map sh.tree))) =
      .ok (v.foldl push empty) := by
  cases v with
  | nil =>
    rw [castAll, hload, ok_bind]
    rfl
  | cons x v => exact (castAll_ok_iff hload).mpr ⟨x :: v,hreads,rfl⟩

theorem reads_cleared {v : List T} (h : ∀ x ∈ v, Prints yaml c sh x) :
    SequenceCast.Reads c.read (seen yaml cleared "" (v.map sh.tree)) v := by
  rw [seen_cleared, SequenceCast.Reads, List.map_map, List.map_map]
  exact List.map_congr_left fun x hx => (h x hx).2

theorem reads_kept {v : List T} (hlen : v.length ≤ 1) (h : ∀ x ∈ v, Prints yaml c sh x) :
    SequenceCast.Reads c.read (seen yaml kept "" (v.map sh.tree)) v := by
  match v, hlen with
  | [], _ => rfl
  | [x], _ =>
    have hx := (h x (by simp)).2
    simp only [seen, kept, List.map_cons, List.map_nil, String.empty_append,
      SequenceCast.Reads, hx]

theorem foldl_insert_sorted (lt : T → T → Bool) (vec v : List T)
    (h : OrderedList.Sorted lt (vec ++ v)) :
    v.foldl (fun vec x => OrderedList.insert lt x vec) vec = vec ++ v := by
  induction v generalizing vec with
  | nil => simp
  | cons x v ih =>
    have hlast : OrderedList.insert lt x vec = vec ++ [x] :=
      OrderedList.insert_last fun y hy => (List.pairwise_append.mp h).2.2 y hy x (by simp)
    rw [List.foldl_cons, hlast, ih _ (by simpa using h)]
    simp

theorem foldl_insertUnordered_distinct (equality : SetEquality T) (vec v : List T)
    (h : (vec ++ v).Pairwise fun x y => equality.same y x = false) :
    v.foldl (insertUnordered equality) vec = vec ++ v := by
  induction v generalizing vec with
  | nil => simp
  | cons x v ih =>
    have hnew : vec.any (equality.same x) = false :=
      List.any_eq_false.mpr fun y hy => by
        simp [(List.pairwise_append.mp h).2.2 y hy x (by simp)]
    rw [List.foldl_cons, insertUnordered, hnew, if_neg Bool.false_ne_true, ih _ (by simpa using h)]
    simp

/-! ### Maps -/

/-- The entry of a map in its node. -/
def Shape.entry (sh : Shape T) (x : String × T) : YamlNode × YamlNode :=
  (.scalar x.1, sh.tree x.2)

/-- Different keys are assigned one after the other. -/
theorem foldlM_assignLoaded (vec v : List (String × T)) (hkeys : ((vec ++ v).map Prod.fst).Nodup)
    (h : ∀ x ∈ v, loaded yaml c x.2 = .ok (sh.tree x.2)) :
    v.foldlM (assignLoaded yaml c) (vec.map sh.entry) = .ok ((vec ++ v).map sh.entry) := by
  induction v generalizing vec with
  | nil => rw [List.append_nil]; rfl
  | cons x v ih =>
    have hnew : (vec.map sh.entry).any (fun entry => entry.1.hasText x.1) = false := by
      refine List.any_eq_false.mpr fun entry hentry => ?_
      obtain ⟨y,hy,rfl⟩ := List.mem_map.mp hentry
      rw [List.map_append, List.nodup_append] at hkeys
      have hne : y.1 ≠ x.1 := hkeys.2.2 y.1 (List.mem_map_of_mem hy) x.1 (by simp)
      simp [Shape.entry, YamlNode.hasText, hne]
    have hassign : assignLoaded yaml c (vec.map sh.entry) x = .ok ((vec ++ [x]).map sh.entry) := by
      rw [assignLoaded, h x List.mem_cons_self, ok_bind, assign, hnew, if_neg Bool.false_ne_true,
        List.map_append]
      rfl
    rw [List.foldlM_cons, hassign, ok_bind,
      ih (vec ++ [x]) (by simpa using hkeys) fun y hy => h y (List.mem_cons_of_mem x hy)]
    simp

theorem writeMap_eq {v : List (String × T)} (hkeys : (v.map Prod.fst).Nodup)
    (h : ∀ x ∈ v, loaded yaml c x.2 = .ok (sh.tree x.2)) :
    writeMap yaml c v = .ok (yaml.emit (mapOf (v.map sh.entry))) := by
  have hall := foldlM_assignLoaded [] v hkeys h
  rw [List.map_nil] at hall
  rw [writeMap, hall, ok_bind, List.nil_append]

theorem readMap_mapOf {C : Type} (insert : String × T → C → C) (empty : C) {v : List (String × T)}
    (hload : yaml.load (yaml.emit (mapOf (v.map sh.entry))) = .ok (mapOf (v.map sh.entry)))
    (h : ∀ x ∈ v, Prints yaml c sh x.2) :
    readMap yaml c insert empty (yaml.emit (mapOf (v.map sh.entry))) =
      .ok (v.foldl (fun vec x => insert x vec) empty) := by
  rw [readMap, hload, ok_bind]
  have hloop : ∀ v : List (String × T), (∀ x ∈ v, Prints yaml c sh x.2) → ∀ vec : C,
      (v.map sh.entry).foldlM (fun vec entry => (do
        let x ← c.read (yaml.emit entry.2)
        .ok (insert (Config.scalar entry.1, x) vec) : Except YamlError C)) vec =
        .ok (v.foldl (fun vec x => insert x vec) vec) := by
    intro v hv
    induction v with
    | nil => exact fun _ => rfl
    | cons x v ih =>
      intro vec
      have hx : c.read (yaml.emit (sh.entry x).2) = .ok x.2 := (hv x List.mem_cons_self).2
      rw [List.map_cons, List.foldlM_cons, hx, ok_bind]
      exact ih (fun y hy => hv y (List.mem_cons_of_mem x hy)) _
  cases v with
  | nil => rfl
  | cons x v => exact hloop (x :: v) h empty

theorem keys_of_sorted {order : SetOrder String} {v : List (String × T)}
    (h : OrderedList.Sorted (keyLess order) v) : (v.map Prod.fst).Nodup := by
  refine List.pairwise_map.mpr (h.imp fun {x y} hxy heq => ?_)
  rw [keyLess, heq, order.strict.irrefl] at hxy
  cases hxy

theorem foldl_insertUnorderedMap_distinct (vec v : List (String × T))
    (h : ((vec ++ v).map Prod.fst).Nodup) :
    v.foldl (fun vec x => insertUnorderedMap x vec) vec = vec ++ v := by
  induction v generalizing vec with
  | nil => simp
  | cons x v ih =>
    have hnew : (vec.any fun other => other.1 = x.1) = false := by
      refine List.any_eq_false.mpr fun y hy => ?_
      rw [List.map_append, List.nodup_append] at h
      simpa using h.2.2 y.1 (List.mem_map_of_mem hy) x.1 (by simp)
    rw [List.foldl_cons, insertUnorderedMap, hnew, if_neg Bool.false_ne_true,
      ih _ (by simpa using h)]
    simp

/-! ### All types -/

/-- What holds of the elements of a sequence. -/
theorem Prints.elements {v : List T} (h : ∀ x, sh.valid x → Reloads yaml (sh.tree x) →
      Prints yaml c sh x) (hv : ∀ x ∈ v, sh.valid x)
    (hyaml : Reloads yaml (sequenceOf (v.map sh.tree))) :
    (∀ x ∈ v, Prints yaml c sh x) ∧ ∀ x ∈ v, loaded yaml c x = .ok (sh.tree x) := by
  have htree : ∀ x ∈ v, Reloads yaml (sh.tree x) := fun x hx =>
    hyaml.of_sequenceOf _ (List.mem_map_of_mem hx)
  have hprints : ∀ x ∈ v, Prints yaml c sh x := fun x hx => h x (hv x hx) (htree x hx)
  exact ⟨hprints,fun x hx => (hprints x hx).loads (htree x hx)⟩

/-- What holds of the values of a map. -/
theorem Prints.values {v : List (String × T)} (h : ∀ x, sh.valid x → Reloads yaml (sh.tree x) →
      Prints yaml c sh x) (hv : ∀ x ∈ v, sh.valid x.2)
    (hyaml : Reloads yaml (mapOf (v.map sh.entry))) :
    (∀ x ∈ v, Prints yaml c sh x.2) ∧ ∀ x ∈ v, loaded yaml c x.2 = .ok (sh.tree x.2) := by
  have htree : ∀ x ∈ v, Reloads yaml (sh.tree x.2) := fun x hx =>
    hyaml.of_mapOf _ (List.mem_map_of_mem hx)
  have hprints : ∀ x ∈ v, Prints yaml c sh x.2 := fun x hx => h x.2 (hv x hx) (htree x hx)
  exact ⟨hprints,fun x hx => (hprints x hx).loads (htree x hx)⟩

theorem prints_of_nested (h : Nested yaml c sh) : ∀ v, sh.valid v → Reloads yaml (sh.tree v) →
    Prints yaml c sh v := by
  induction h with
  | scalar c sh h => exact fun v hv _ => (h v hv).2
  | vector _ ih =>
    rintro v ⟨hlen,hv⟩ hyaml
    obtain ⟨hprints,hloaded⟩ := Prints.elements ih hv hyaml
    refine ⟨writeSequence_eq hloaded,?_⟩
    have hread := castAll_sequenceOf (fun vec x => vec ++ [x]) [] hyaml.load
      (reads_kept hlen hprints)
    rwa [foldl_snoc, List.nil_append] at hread
  | list _ ih =>
    rintro v ⟨-,hv⟩ hyaml
    obtain ⟨hprints,hloaded⟩ := Prints.elements ih hv hyaml
    refine ⟨writeSequence_eq hloaded,?_⟩
    have hread := castAll_sequenceOf (fun vec x => vec ++ [x]) [] hyaml.load
      (reads_cleared hprints)
    rwa [foldl_snoc, List.nil_append] at hread
  | set order _ ih =>
    rintro v ⟨hsorted,hv⟩ hyaml
    obtain ⟨hprints,hloaded⟩ := Prints.elements ih hv hyaml
    refine ⟨writeSequence_eq hloaded,?_⟩
    have hread := castAll_sequenceOf (fun vec x => OrderedList.insert order.lt x vec) []
      hyaml.load (reads_cleared hprints)
    rwa [foldl_insert_sorted order.lt [] v hsorted] at hread
  | unorderedSet equality _ ih =>
    rintro v ⟨hdistinct,hv⟩ hyaml
    obtain ⟨hprints,hloaded⟩ := Prints.elements ih hv hyaml
    refine ⟨writeSequence_eq hloaded,?_⟩
    have hread := castAll_sequenceOf (insertUnordered equality) [] hyaml.load
      (reads_cleared hprints)
    rwa [foldl_insertUnordered_distinct equality [] v hdistinct] at hread
  | map order _ ih =>
    rintro v ⟨hsorted,hv⟩ hyaml
    obtain ⟨hprints,hloaded⟩ := Prints.values ih hv hyaml
    refine ⟨writeMap_eq (keys_of_sorted hsorted) hloaded,?_⟩
    have hread := readMap_mapOf (OrderedList.insert (keyLess order)) [] hyaml.load hprints
    rwa [foldl_insert_sorted (keyLess order) [] v hsorted] at hread
  | unorderedMap _ ih =>
    rintro v ⟨hkeys,hv⟩ hyaml
    obtain ⟨hprints,hloaded⟩ := Prints.values ih hv hyaml
    refine ⟨writeMap_eq hkeys hloaded,?_⟩
    have hread := readMap_mapOf insertUnorderedMap [] hyaml.load hprints
    rwa [foldl_insertUnorderedMap_distinct [] v hkeys] at hread

/-- Every value of a type nested from scalars, lists, sets and maps, ordered or not, and vectors
of at most one element, is read back from the text written for it, if the YAML library reads
back what it prints for the nodes of the value and the texts of the scalars are those of their
nodes. -/
theorem container_text_reads_back (h : Nested yaml c sh) {v : T} (hv : sh.valid v)
    (hyaml : Reloads yaml (sh.tree v)) :
    ∃ text, c.write v = .ok text ∧ c.read text = .ok v :=
  ⟨_,prints_of_nested h v hv hyaml⟩

end Proofs

/-! ## A map of lists -/

/-- The library on the nodes of one map. -/
def portsYaml : YamlCpp where
  emit
    | .scalar text => text
    | .sequence _ => "- 1\n- 2"
    | .map _ => "a:\n  - 1\n  - 2"
    | .null => "~"
  load
    | "1" => .ok (.scalar "1")
    | "2" => .ok (.scalar "2")
    | "- 1\n- 2" => .ok (.sequence [.scalar "1", .scalar "2"])
    | "a:\n  - 1\n  - 2" =>
      .ok (.map [(.scalar "a", .sequence [.scalar "1", .scalar "2"])])
    | _ => .error .parse
  isIndex _ _ := false
  nullString := .error .badConversion

def integerCasts : Casts ℤ := ⟨fun n => .ok (toString n),lexicalCastInt⟩

def integerShape : Shape ℤ := ⟨fun n => n = 1 ∨ n = 2,fun n => .scalar (toString n)⟩

theorem container_text_reads_back_ports :
    ∃ text, (mapCasts portsYaml (listCasts portsYaml integerCasts) stringOrder).write
        [("a", [1, 2])] = .ok text ∧
      (mapCasts portsYaml (listCasts portsYaml integerCasts) stringOrder).read text =
        .ok [("a", [1, 2])] := by
  have hnumber : Nested portsYaml integerCasts integerShape := by
    refine .scalar _ _ ?_
    rintro v (rfl | rfl)
    · exact ⟨⟨_,rfl⟩,rfl,rfl⟩
    · exact ⟨⟨_,rfl⟩,rfl,rfl⟩
  refine container_text_reads_back (.map stringOrder (.list hnumber)) ?_ ?_
  · simp [Shape.map, Shape.sequence, integerShape, OrderedList.Sorted]
  · refine .map rfl ?_
    intro entry hentry
    obtain rfl := List.mem_singleton.mp hentry
    refine .sequence rfl ?_
    intro n hn
    rcases List.mem_cons.mp hn with rfl | hn
    · exact .scalar rfl
    · obtain rfl := List.mem_singleton.mp hn
      exact .scalar rfl

end Gudov.ContainerCasts
