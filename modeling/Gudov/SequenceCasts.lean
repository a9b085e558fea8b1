import Gudov.IntegerCast

/-!
# Sequences from YAML

`LexicalCast` from a string to a vector, a list, a set and an unordered set. The four loops cast
the text of each node, which they take from one string stream. Three of them empty the stream
before each node; that of the vector only reads it. So the vector casts the texts of all nodes up
to the current one, put together.

A set keeps one of several equivalent elements, the one that came first.
-/
namespace Gudov
open YamlNode

/-- `operator<` of the elements of a `std::set`. -/
structure SetOrder (T : Type) where
  lt : T → T → Bool
  strict : OrderedList.Strict lt

def SetOrder.Equivalent {T : Type} (order : SetOrder T) (x y : T) : Prop :=
  order.lt x y = false ∧ order.lt y x = false

/-- `operator==` of the elements of a `std::unordered_set`. -/
structure SetEquality (T : Type) where
  same : T → T → Bool
  refl : ∀ x, same x x = true
  symm : ∀ x y, same x y = true → same y x = true

namespace SequenceCast

section
variable {T C : Type} (yaml : YamlCpp) (cast : String → Except YamlError T)

/-- `ss << node[i]`; an undefined node has no text. -/
def text : Option YamlNode → String
  | some n => yaml.emit n
  | none => ""

/-- The body of the loop: `keep` is what the call of `str` leaves in the stream. -/
def body (keep : String → String) (push : C → T → C) (s : String × C) (n : Option YamlNode) :
    Except YamlError (String × C) := do
  let ss := keep s.1 ++ text yaml n
  let x ← cast ss
  .ok (ss, push s.2 x)

def castAll (keep : String → String) (push : C → T → C) (empty : C) (v : String) :
    Except YamlError C := do
  let node ← yaml.load v
  let r ← forEach yaml (body yaml cast keep push) (some node) ("", empty)
  .ok r.2

/-- `ss.str()` -/
def kept (ss : String) : String := ss

/-- `ss.str("")` -/
def cleared (_ : String) : String := ""

def toVector : String → Except YamlError (List T) :=
  castAll yaml cast kept (fun vec x => vec ++ [x]) []

def toList : String → Except YamlError (List T) :=
  castAll yaml cast cleared (fun vec x => vec ++ [x]) []

def toSet (order : SetOrder T) : String → Except YamlError (List T) :=
  castAll yaml cast cleared (fun vec x => OrderedList.insert order.lt x vec) []

/-- An element of an unordered set, in one of the orders it may have. -/
def insertUnordered (equality : SetEquality T) (vec : List T) (x : T) : List T :=
  if vec.any (equality.same x) then vec else vec ++ [x]

def toUnorderedSet (equality : SetEquality T) : String → Except YamlError (List T) :=
  castAll yaml cast cleared (insertUnordered equality) []

end

/-! ## The texts that a loop casts -/

section Loop
variable {T C : Type} {yaml : YamlCpp} {cast : String → Except YamlError T}

/-- The contents of the stream at each cast. -/
def seen (yaml : YamlCpp) (keep : String → String) (ss : String) : List YamlNode → List String
  | [] => []
  | n :: ns => (keep ss ++ yaml.emit n) :: seen yaml keep (keep ss ++ yaml.emit n) ns

/-- Every text is cast to the element at its place. -/
def Reads (cast : String → Except YamlError T) (texts : List String) (es : List T) : Prop :=
  texts.map cast = es.map .ok

theorem reads_cons {t : String} {ts : List String} {es : List T} :
    Reads cast (t :: ts) es ↔ ∃ e es', es = e :: es' ∧ cast t = .ok e ∧ Reads cast ts es' := by
  constructor
  · intro h
    cases es with
    | nil => cases h
    | cons e es =>
      obtain ⟨ht,hts⟩ := List.cons.inj h
      exact ⟨e,es,rfl,ht,hts⟩
  · rintro ⟨e,es',rfl,ht,hts⟩
    exact List.cons_eq_cons.mpr ⟨ht,hts⟩

theorem reads_cons_cons {t : String} {ts : List String} {e : T} {es : List T} :
    Reads cast (t :: ts) (e :: es) ↔ cast t = .ok e ∧ Reads cast ts es :=
  List.cons_eq_cons

theorem Reads.unique {texts : List String} {es es' : List T} (h : Reads cast texts es)
    (h' : Reads cast texts es') : es = es' :=
  List.map_injective_iff.mpr (fun _ _ => Except.ok.inj) (h.symm.trans h')

theorem Reads.getElem {texts : List String} {es : List T} (h : Reads cast texts es) {i : ℕ}
    {t : String} (ht : texts[i]? = some t) : ∃ e, es[i]? = some e ∧ cast t = .ok e := by
  have hi := congrArg (fun l => l[i]?) h
  rw [List.getElem?_map, List.getElem?_map, ht] at hi
  obtain ⟨e,he,hcast⟩ := Option.map_eq_some_iff.mp hi.symm
  exact ⟨e,he,hcast.symm⟩

/-- If every text can be cast, there are elements. -/
theorem exists_reads {texts : List String} (h : ∀ t ∈ texts, ∃ e, cast t = .ok e) :
    ∃ es, Reads cast texts es := by
  induction texts with
  | nil => exact ⟨[],rfl⟩
  | cons t ts ih =>
    obtain ⟨e,he⟩ := h t List.mem_cons_self
    obtain ⟨es,hes⟩ := ih fun u hu => h u (List.mem_cons_of_mem t hu)
    exact ⟨e :: es,reads_cons.mpr ⟨e,es,rfl,he,hes⟩⟩

theorem not_reads_iff {texts : List String} :
    (∀ es, ¬ Reads cast texts es) ↔ ∃ t ∈ texts, ∀ e, cast t ≠ .ok e := by
  constructor
  · intro h
    by_contra hall
    push Not at hall
    obtain ⟨es,hes⟩ := exists_reads hall
    exact h es hes
  · rintro ⟨t,ht,hfail⟩ es hes
    obtain ⟨i,hi⟩ := List.mem_iff_getElem?.mp ht
    obtain ⟨e,_,hcast⟩ := hes.getElem hi
    exact hfail e hcast

/-- Two lists of texts are cast to the same: to some elements, or to none. -/
theorem reads_agree_iff {texts texts' : List String} :
    (∀ es, Reads cast texts es ↔ Reads cast texts' es) ↔
      (∃ es, Reads cast texts es ∧ Reads cast texts' es) ∨
      ((∃ t ∈ texts, ∀ e, cast t ≠ .ok e) ∧ ∃ t ∈ texts', ∀ e, cast t ≠ .ok e) := by
  rw [← not_reads_iff, ← not_reads_iff]
  constructor
  · intro h
    by_cases hes : ∃ es, Reads cast texts es
    · obtain ⟨es,hes⟩ := hes
      exact .inl ⟨es,hes,(h es).mp hes⟩
    · rw [not_exists] at hes
      exact .inr ⟨hes,fun es hes' => hes es ((h es).mpr hes')⟩
  · rintro (⟨es,hes,hes'⟩ | ⟨hnone,hnone'⟩) es₁
    · constructor
      · intro h
        rw [h.unique hes]
        exact hes'
      · intro h
        rw [h.unique hes']
        exact hes
    · exact iff_of_false (hnone es₁) (hnone' es₁)

theorem loop_ok_iff {keep : String → String} {push : C → T → C} {items : List YamlNode}
    {ss : String} {c c' : C} :
    (∃ ss', items.foldlM (fun s n => body yaml cast keep push s (some n)) (ss, c) =
      .ok (ss', c')) ↔ ∃ es, Reads cast (seen yaml keep ss items) es ∧ c' = es.foldl push c := by
  induction items generalizing ss c with
  | nil =>
    constructor
    · rintro ⟨ss',h⟩
      cases h
      exact ⟨[],rfl,rfl⟩
    · rintro ⟨es,h,rfl⟩
      obtain rfl : es = [] := List.map_eq_nil_iff.mp h.symm
      exact ⟨ss,rfl⟩
  | cons n ns ih =>
    rw [seen]
    constructor
    · rintro ⟨ss',h⟩
      rw [List.foldlM_cons] at h
      obtain ⟨s,hs,h⟩ := exists_of_bind_eq_ok h
      obtain ⟨x,hx,hs⟩ := exists_of_bind_eq_ok hs
      cases hs
      obtain ⟨es,hes,hc⟩ := ih.mp ⟨ss',h⟩
      exact ⟨x :: es,reads_cons.mpr ⟨x,es,rfl,hx,hes⟩,hc⟩
    · rintro ⟨es,hes,rfl⟩
      obtain ⟨x,es,rfl,hx,hes⟩ := reads_cons.mp hes
      obtain ⟨ss',h⟩ := ih.mpr ⟨es,hes,rfl⟩
      refine ⟨ss',?_⟩
      have hbody : body yaml cast keep push (ss, c) (some n) =
          .ok (keep ss ++ yaml.emit n, push c x) := by
        have hcast : cast (keep ss ++ text yaml (some n)) = .ok x := hx
        simp only [body, hcast, ok_bind]
        rfl
      rw [List.foldlM_cons, hbody, ok_bind, h]

theorem castAll_ok_iff {keep : String → String} {push : C → T → C} {empty c : C} {v : String}
    {items : List YamlNode} (hload : yaml.load v = .ok (.sequence items)) :
    castAll yaml cast keep push empty v = .ok c ↔
      ∃ es, Reads cast (seen yaml keep "" items) es ∧ c = es.foldl push empty := by
  rw [castAll, hload, ok_bind, forEach_sequence, ← loop_ok_iff]
  constructor
  · intro h
    obtain ⟨r,hr,h⟩ := exists_of_bind_eq_ok h
    cases h
    exact ⟨r.1,hr⟩
  · rintro ⟨ss,h⟩
    rw [h]
    rfl

theorem seen_cleared (ss : String) (items : List YamlNode) :
    seen yaml cleared ss items = items.map yaml.emit := by
  induction items generalizing ss with
  | nil => rfl
  | cons n ns ih =>
    rw [seen, ih, List.map_cons, cleared, String.empty_append]

/-- The texts of the nodes up to the `i`th, put together. -/
def joined (yaml : YamlCpp) (items : List YamlNode) (i : ℕ) : String :=
  ((items.take (i + 1)).map yaml.emit).foldl (· ++ ·) ""

theorem seen_kept (ss : String) (items : List YamlNode) (i : ℕ) :
    (seen yaml kept ss items)[i]? = items[i]?.map fun _ =>
      ((items.take (i + 1)).map yaml.emit).foldl (· ++ ·) ss := by
  induction items generalizing ss i with
  | nil => simp [seen]
  | cons n ns ih =>
    cases i with
    | zero => simp [seen, kept]
    | succ i => simp [seen, kept, ih]

theorem foldl_snoc (es vec : List T) : es.foldl (fun vec x => vec ++ [x]) vec = vec ++ es := by
  induction es generalizing vec with
  | nil => simp
  | cons e es ih => simp [ih]

end Loop

/-! ## Sets -/

/-- The set has the elements of the list, of which no two are equivalent. -/
structure IsSetOf {T : Type} (equivalent : T → T → Prop) (es s : List T) : Prop where
  distinct : s.Pairwise fun x y => ¬ equivalent x y
  taken : ∀ x ∈ s, x ∈ es
  covers : ∀ x ∈ es, ∃ y ∈ s, equivalent x y

section Sets
variable {T : Type} {es vec : List T}

/-- Either the element is put into its place or an equivalent one is there. -/
theorem insert_cases (order : SetOrder T) (x : T) (hsorted : OrderedList.Sorted order.lt vec) :
    OrderedList.Sorted order.lt (OrderedList.insert order.lt x vec) ∧
    (∀ y ∈ vec, y ∈ OrderedList.insert order.lt x vec) ∧
    ∃ y ∈ OrderedList.insert order.lt x vec, order.Equivalent x y := by
  by_cases hcomparable : ∀ y ∈ vec, order.lt y x = true ∨ order.lt x y = true
  · have hperm := OrderedList.insert_perm hcomparable
    refine ⟨OrderedList.insert_sorted order.strict hsorted hcomparable,?_,x,?_,?_⟩
    · intro y hy
      exact hperm.mem_iff.mpr (List.mem_cons_of_mem x hy)
    · exact hperm.mem_iff.mpr List.mem_cons_self
    · exact ⟨order.strict.irrefl x,order.strict.irrefl x⟩
  · push Not at hcomparable
    obtain ⟨z,hz,hzx,hxz⟩ := hcomparable
    replace hzx := Bool.eq_false_iff.mpr hzx
    replace hxz := Bool.eq_false_iff.mpr hxz
    rw [OrderedList.insert_of_equivalent order.strict hsorted hz hzx hxz]
    exact ⟨hsorted,fun y hy => hy,z,hz,hxz,hzx⟩

theorem foldl_insert (order : SetOrder T) (es : List T)
    (hsorted : OrderedList.Sorted order.lt vec) :
    OrderedList.Sorted order.lt (es.foldl (fun vec x => OrderedList.insert order.lt x vec) vec) ∧
    (∀ x ∈ es.foldl (fun vec x => OrderedList.insert order.lt x vec) vec, x ∈ vec ∨ x ∈ es) ∧
    (∀ x ∈ vec, x ∈ es.foldl (fun vec x => OrderedList.insert order.lt x vec) vec) ∧
    ∀ x ∈ es, ∃ y ∈ es.foldl (fun vec x => OrderedList.insert order.lt x vec) vec,
      order.Equivalent x y := by
  induction es generalizing vec with
  | nil => exact ⟨hsorted,fun x hx => .inl hx,fun x hx => hx,by simp⟩
  | cons e es ih =>
    obtain ⟨hnext,hkeeps,z,hz,hez⟩ := insert_cases order e hsorted
    obtain ⟨hlast,htaken,hrest,hcovers⟩ := ih hnext
    refine ⟨hlast,?_,fun x hx => hrest x (hkeeps x hx),?_⟩
    · intro x hx
      rcases htaken x hx with hx | hx
      · rcases OrderedList.mem_of_mem_insert hx with rfl | hx
        · exact .inr List.mem_cons_self
        · exact .inl hx
      · exact .inr (List.mem_cons_of_mem e hx)
    · intro x hx
      rcases List.mem_cons.mp hx with rfl | hx
      · exact ⟨z,hrest z hz,hez⟩
      · exact hcovers x hx

theorem isSetOf_insert (order : SetOrder T) (es : List T) : IsSetOf order.Equivalent es
    (es.foldl (fun vec x => OrderedList.insert order.lt x vec) []) := by
  obtain ⟨hsorted,htaken,_,hcovers⟩ := foldl_insert order es List.Pairwise.nil
  refine ⟨hsorted.imp ?_,?_,hcovers⟩
  · intro x y hxy h
    rw [h.1] at hxy
    cases hxy
  · intro x hx
    exact (htaken x hx).resolve_left List.not_mem_nil

theorem foldl_insertUnordered (equality : SetEquality T) (es : List T)
    (hdistinct : vec.Pairwise fun x y => ¬ equality.same x y = true) :
    (es.foldl (insertUnordered equality) vec).Pairwise
      (fun x y => ¬ equality.same x y = true) ∧
    (∀ x ∈ es.foldl (insertUnordered equality) vec, x ∈ vec ∨ x ∈ es) ∧
    (∀ x ∈ vec, x ∈ es.foldl (insertUnordered equality) vec) ∧
    ∀ x ∈ es, ∃ y ∈ es.foldl (insertUnordered equality) vec, equality.same x y = true := by
  induction es generalizing vec with
  | nil => exact ⟨hdistinct,fun x hx => .inl hx,fun x hx => hx,by simp⟩
  | cons e es ih =>
    rw [List.foldl_cons, insertUnordered]
    by_cases hany : vec.any (equality.same e) = true
    · rw [if_pos hany]
      obtain ⟨hlast,htaken,hrest,hcovers⟩ := ih hdistinct
      obtain ⟨z,hz,hez⟩ := List.any_eq_true.mp hany
      refine ⟨hlast,?_,hrest,?_⟩
      · intro x hx
        exact (htaken x hx).imp_right (List.mem_cons_of_mem e)
      · intro x hx
        rcases List.mem_cons.mp hx with rfl | hx
        · exact ⟨z,hrest z hz,hez⟩
        · exact hcovers x hx
    · rw [if_neg hany]
      have hnew : (vec ++ [e]).Pairwise fun x y => ¬ equality.same x y = true := by
        refine List.pairwise_append.mpr ⟨hdistinct,List.pairwise_singleton _ _,?_⟩
        intro x hx y hy hxy
        obtain rfl := List.mem_singleton.mp hy
        exact hany (List.any_eq_true.mpr ⟨x,hx,equality.symm x y hxy⟩)
      obtain ⟨hlast,htaken,hrest,hcovers⟩ := ih hnew
      refine ⟨hlast,?_,fun x hx => hrest x (List.mem_append_left _ hx),?_⟩
      · intro x hx
        rcases htaken x hx with hx | hx
        · rcases List.mem_append.mp hx with hx | hx
          · exact .inl hx
          · exact .inr (List.mem_singleton.mp hx ▸ List.mem_cons_self)
        · exact .inr (List.mem_cons_of_mem e hx)
      · intro x hx
        rcases List.mem_cons.mp hx with rfl | hx
        · exact ⟨x,hrest x (by simp),equality.refl x⟩
        · exact hcovers x hx

theorem isSetOf_insertUnordered (equality : SetEquality T) (es : List T) :
    IsSetOf (fun x y => equality.same x y = true) es
      (es.foldl (insertUnordered equality) []) := by
  obtain ⟨hdistinct,htaken,_,hcovers⟩ := foldl_insertUnordered equality es List.Pairwise.nil
  exact ⟨hdistinct,fun x hx => (htaken x hx).resolve_left List.not_mem_nil,hcovers⟩

end Sets

/-! ## The four conversions -/

section Agree
variable {T : Type} (yaml : YamlCpp) (cast : String → Except YamlError T) (order : SetOrder T)
  (equality : SetEquality T)

/-- The four conversions of a text with these nodes. -/
structure Agree (v : String) (items : List YamlNode) : Prop where
  sequences : ∀ es, toVector yaml cast v = .ok es ↔ toList yaml cast v = .ok es
  length : ∀ es, toList yaml cast v = .ok es → es.length = items.length
  elements : ∀ es, toList yaml cast v = .ok es → ∀ (i : ℕ) n, items[i]? = some n →
    ∃ e, es[i]? = some e ∧ cast (yaml.emit n) = .ok e
  set : ∀ es, toList yaml cast v = .ok es →
    ∃ s, toSet yaml cast order v = .ok s ∧ IsSetOf order.Equivalent es s
  unorderedSet : ∀ es, toList yaml cast v = .ok es → ∃ s,
    toUnorderedSet yaml cast equality v = .ok s ∧
      IsSetOf (fun x y => equality.same x y = true) es s
  fail : (∀ es, toList yaml cast v ≠ .ok es) →
    (∀ s, toSet yaml cast order v ≠ .ok s) ∧ ∀ s, toUnorderedSet yaml cast equality v ≠ .ok s

variable {yaml cast order equality} {v : String} {items : List YamlNode}

theorem toVector_ok_iff (hload : yaml.load v = .ok (.sequence items)) (es : List T) :
    toVector yaml cast v = .ok es ↔ Reads cast (seen yaml kept "" items) es := by
  rw [toVector, castAll_ok_iff hload]
  simp only [foldl_snoc, List.nil_append]
  exact ⟨fun ⟨_,h,he⟩ => he ▸ h,fun h => ⟨es,h,rfl⟩⟩

theorem toList_ok_iff (hload : yaml.load v = .ok (.sequence items)) (es : List T) :
    toList yaml cast v = .ok es ↔ Reads cast (items.map yaml.emit) es := by
  rw [toList, castAll_ok_iff hload, seen_cleared]
  simp only [foldl_snoc, List.nil_append]
  exact ⟨fun ⟨_,h,he⟩ => he ▸ h,fun h => ⟨es,h,rfl⟩⟩

/-- The three loops that empty the stream agree always. -/
theorem agree_iff (hload : yaml.load v = .ok (.sequence items)) :
    Agree yaml cast order equality v items ↔ ∀ es,
      Reads cast (seen yaml kept "" items) es ↔ Reads cast (items.map yaml.emit) es := by
  constructor
  · intro h es
    rw [← toVector_ok_iff hload, ← toList_ok_iff hload]
    exact h.sequences es
  · intro h
    have hset : ∀ s, toSet yaml cast order v = .ok s ↔ ∃ es,
        Reads cast (items.map yaml.emit) es ∧
          s = es.foldl (fun vec x => OrderedList.insert order.lt x vec) [] := by
      intro s
      rw [toSet, castAll_ok_iff hload, seen_cleared]
    have hunordered : ∀ s, toUnorderedSet yaml cast equality v = .ok s ↔ ∃ es,
        Reads cast (items.map yaml.emit) es ∧ s = es.foldl (insertUnordered equality) [] := by
      intro s
      rw [toUnorderedSet, castAll_ok_iff hload, seen_cleared]
    refine ⟨?_,?_,?_,?_,?_,?_⟩
    · intro es
      rw [toVector_ok_iff hload, toList_ok_iff hload, h]
    · intro es hes
      rw [toList_ok_iff hload] at hes
      have hlength := congrArg List.length hes
      simpa using hlength.symm
    · intro es hes i n hn
      rw [toList_ok_iff hload] at hes
      exact hes.getElem (by rw [List.getElem?_map, hn]; rfl)
    · intro es hes
      rw [toList_ok_iff hload] at hes
      exact ⟨_,(hset _).mpr ⟨es,hes,rfl⟩,isSetOf_insert order es⟩
    · intro es hes
      rw [toList_ok_iff hload] at hes
      exact ⟨_,(hunordered _).mpr ⟨es,hes,rfl⟩,isSetOf_insertUnordered equality es⟩
    · intro hfail
      have hnone : ∀ es, ¬ Reads cast (items.map yaml.emit) es :=
        fun es hes => hfail es ((toList_ok_iff hload es).mpr hes)
      constructor
      · intro s hs
        obtain ⟨es,hes,_⟩ := (hset s).mp hs
        exact hnone es hes
      · intro s hs
        obtain ⟨es,hes,_⟩ := (hunordered s).mp hs
        exact hnone es hes

/-- Node by node: the elements of the texts that the vector reads are those of the nodes. -/
theorem exists_reads_joined_iff :
    (∃ es, Reads cast (seen yaml kept "" items) es ∧ Reads cast (items.map yaml.emit) es) ↔
      ∀ (i : ℕ) n, items[i]? = some n →
        ∃ e, cast (yaml.emit n) = .ok e ∧ cast (joined yaml items i) = .ok e := by
  constructor
  · rintro ⟨es,hes,hes'⟩ i n hn
    have hjoined : (seen yaml kept "" items)[i]? = some (joined yaml items i) := by
      rw [seen_kept, hn]
      rfl
    have htext : (items.map yaml.emit)[i]? = some (yaml.emit n) := by
      rw [List.getElem?_map, hn]
      rfl
    obtain ⟨e,he,hcast⟩ := hes.getElem hjoined
    obtain ⟨e',he',hcast'⟩ := hes'.getElem htext
    rw [he] at he'
    cases he'
    exact ⟨e,hcast',hcast⟩
  · intro h
    have hmap : (seen yaml kept "" items).map cast = (items.map yaml.emit).map cast := by
      refine List.ext_getElem? ?_
      intro i
      rw [List.getElem?_map, List.getElem?_map, List.getElem?_map, seen_kept]
      cases hn : items[i]? with
      | none => rfl
      | some n =>
        obtain ⟨e,hcast,hcast'⟩ := h i n hn
        have hlast : cast (((items.take (i + 1)).map yaml.emit).foldl (· ++ ·) "") =
            cast (yaml.emit n) := hcast'.trans hcast.symm
        simp only [Option.map_some, hlast]
    have hall : ∀ t ∈ items.map yaml.emit, ∃ e, cast t = .ok e := by
      intro t ht
      obtain ⟨n,hn,rfl⟩ := List.mem_map.mp ht
      obtain ⟨i,hi⟩ := List.mem_iff_getElem?.mp hn
      obtain ⟨e,hcast,_⟩ := h i n hi
      exact ⟨e,hcast⟩
    obtain ⟨es,hes⟩ := exists_reads hall
    exact ⟨es,hmap.trans hes,hes⟩

/-- Node by node, or one of the texts of both kinds cannot be cast. -/
theorem agree_joined_iff (hload : yaml.load v = .ok (.sequence items)) :
    Agree yaml cast order equality v items ↔
      (∀ (i : ℕ) n, items[i]? = some n →
        ∃ e, cast (yaml.emit n) = .ok e ∧ cast (joined yaml items i) = .ok e) ∨
      ((∃ n ∈ items, ∀ e, cast (yaml.emit n) ≠ .ok e) ∧
        ∃ i < items.length, ∀ e, cast (joined yaml items i) ≠ .ok e) := by
  rw [agree_iff hload, reads_agree_iff, exists_reads_joined_iff]
  refine or_congr_right ?_
  rw [and_comm]
  refine and_congr ?_ ?_
  · simp only [List.mem_map, exists_exists_and_eq_and]
  · constructor
    · rintro ⟨t,ht,hfail⟩
      obtain ⟨i,hi⟩ := List.mem_iff_getElem?.mp ht
      rw [seen_kept] at hi
      obtain ⟨n,hn,rfl⟩ := Option.map_eq_some_iff.mp hi
      exact ⟨i,(List.getElem?_eq_some_iff.mp hn).1,hfail⟩
    · rintro ⟨i,hi,hfail⟩
      refine ⟨joined yaml items i,List.mem_of_getElem? (i := i) ?_,hfail⟩
      rw [seen_kept, List.getElem?_eq_getElem hi]
      rfl

/-! ### Casts that notice every text in front -/

/-- Only in front of no node may there be a text. -/
theorem seen_kept_eq_iff (ss : String) :
    seen yaml kept ss items = items.map yaml.emit ↔
      (items ≠ [] → ss = "") ∧ ∀ n ∈ items.dropLast, yaml.emit n = "" := by
  induction items generalizing ss with
  | nil => simp [seen]
  | cons n ns ih =>
    have hfront : kept ss ++ yaml.emit n = yaml.emit n ↔ ss = "" := String.append_eq_right_iff
    rw [seen, List.map_cons, List.cons.injEq, hfront, ih]
    cases ns with
    | nil => simp
    | cons m ns =>
      simp only [ne_eq, List.cons_ne_nil, not_false_eq_true, forall_const,
        List.dropLast_cons_of_ne_nil, List.forall_mem_cons]
      refine and_congr_right ?_
      intro hss
      rw [show kept ss = "" from hss, String.empty_append]

def stringOrder : SetOrder String where
  lt x y := decide (x < y)
  strict := ⟨by simp,by simp only [decide_eq_true_eq]; exact fun x y z => lt_trans⟩

def stringEquality : SetEquality String where
  same x y := decide (x = y)
  refl := by simp
  symm := by simp only [decide_eq_true_eq]; exact fun x y h => h.symm

theorem reads_ok (texts : List String) {es : List String} :
    Reads Except.ok texts es ↔ texts = es := by
  rw [Reads, (List.map_injective_iff.mpr fun _ _ => Except.ok.inj).eq_iff]

/-- A text is cast to itself, so strings notice every text in front of one. -/
theorem agree_strings_iff (hload : yaml.load v = .ok (.sequence items))
    {order : SetOrder String} {equality : SetEquality String} :
    Agree yaml Except.ok order equality v items ↔ ∀ n ∈ items.dropLast, yaml.emit n = "" := by
  have hseen : seen yaml kept "" items = items.map yaml.emit ↔
      (items ≠ [] → "" = "") ∧ ∀ n ∈ items.dropLast, yaml.emit n = "" := seen_kept_eq_iff ""
  rw [and_iff_right fun _ => rfl] at hseen
  rw [agree_iff hload, ← hseen]
  simp only [reads_ok]
  constructor
  · intro h
    exact ((h (items.map yaml.emit)).mpr rfl)
  · intro h es
    rw [h]

/-! ### Casts to an integer -/

/-- All nodes but the last are zeros, only the first has a sign, and behind a minus the last
one is a zero too. -/
structure LeadingZeros (yaml : YamlCpp) (items : List YamlNode) : Prop where
  zeros : ∀ n ∈ items.dropLast, lexicalCastInt (yaml.emit n) = .ok 0
  unsigned : ∀ n ∈ items.tail, (yaml.emit n).toList.all Char.isDigit = true
  minus : ∀ n ∈ items.head?, (signed (yaml.emit n).toList).1 = true →
    ∀ m ∈ items.tail, lexicalCastInt (yaml.emit m) = .ok 0

theorem cast_append {p t : String} {a b : ℤ} (hp : lexicalCastInt p = .ok a)
    (ht : lexicalCastInt t = .ok b) : lexicalCastInt (p ++ t) = .ok b ↔
      a = 0 ∧ t.toList.all Char.isDigit = true ∧ ((signed p.toList).1 = true → b = 0) := by
  rw [lexicalCastInt_eq_ok] at hp ht
  rw [lexicalCastInt_eq_ok, String.toList_append, integer_append hp ht]

theorem forall_mem_dropLast_cons {α : Type} {P : α → Prop} {x : α} {xs : List α} :
    (∀ y ∈ (x :: xs).dropLast, P y) ↔ (xs ≠ [] → P x) ∧ ∀ y ∈ xs.dropLast, P y := by
  cases xs with
  | nil => simp
  | cons z zs =>
    rw [List.dropLast_cons_of_ne_nil (List.cons_ne_nil z zs), List.forall_mem_cons,
      forall_prop_of_true (List.cons_ne_nil z zs)]

/-- Behind a text that is cast to `a`. -/
theorem reads_behind {ss : String} {a : ℤ} {es : List ℤ} (hss : lexicalCastInt ss = .ok a)
    (hes : Reads lexicalCastInt (items.map yaml.emit) es) :
    Reads lexicalCastInt (seen yaml kept ss items) es ↔
      (items ≠ [] → a = 0) ∧ (∀ n ∈ items.dropLast, lexicalCastInt (yaml.emit n) = .ok 0) ∧
      (∀ n ∈ items, (yaml.emit n).toList.all Char.isDigit = true) ∧
      ((signed ss.toList).1 = true → ∀ n ∈ items, lexicalCastInt (yaml.emit n) = .ok 0) := by
  induction items generalizing ss a es with
  | nil =>
    obtain rfl : es = [] := List.map_eq_nil_iff.mp hes.symm
    simp [seen, Reads]
  | cons n ns ih =>
    obtain ⟨e,es,rfl,hn,hes⟩ := reads_cons.mp hes
    have hfirst := cast_append hss hn
    have hzero : lexicalCastInt (yaml.emit n) = .ok 0 ↔ e = 0 := by
      rw [hn, Except.ok.injEq]
    have hsign : (signed (ss ++ yaml.emit n).toList).1 = (signed ss.toList).1 := by
      rw [String.toList_append, signed_append _
        (integer_eq_some.mp (lexicalCastInt_eq_ok.mp hss)).1]
    rw [seen, kept, reads_cons_cons, forall_mem_dropLast_cons, List.forall_mem_cons,
      List.forall_mem_cons, hzero, forall_prop_of_true (List.cons_ne_nil n ns)]
    constructor
    · rintro ⟨hcast,hrest⟩
      obtain ⟨ha,hdigits,hminus⟩ := hfirst.mp hcast
      obtain ⟨he,hzeros,hunsigned,hbehind⟩ := (ih hcast hes).mp hrest
      rw [hsign] at hbehind
      exact ⟨ha,⟨he,hzeros⟩,⟨hdigits,hunsigned⟩,fun h => ⟨hminus h,hbehind h⟩⟩
    · rintro ⟨ha,⟨he,hzeros⟩,⟨hdigits,hunsigned⟩,hminus⟩
      have hcast := hfirst.mpr ⟨ha,hdigits,fun h => (hminus h).1⟩
      refine ⟨hcast,(ih hcast hes).mpr ⟨he,hzeros,hunsigned,?_⟩⟩
      rw [hsign]
      exact fun h => (hminus h).2

theorem reads_integers_iff {es : List ℤ} (hes : Reads lexicalCastInt (items.map yaml.emit) es) :
    Reads lexicalCastInt (seen yaml kept "" items) es ↔ LeadingZeros yaml items := by
  cases items with
  | nil =>
    obtain rfl : es = [] := List.map_eq_nil_iff.mp hes.symm
    exact iff_of_true rfl ⟨by simp,by simp,by simp⟩
  | cons n ns =>
    obtain ⟨e,es,rfl,hn,hes⟩ := reads_cons.mp hes
    have hzero : lexicalCastInt (yaml.emit n) = .ok 0 ↔ e = 0 := by
      rw [hn, Except.ok.injEq]
    rw [seen, kept, String.empty_append, reads_cons_cons, and_iff_right hn, reads_behind hn hes]
    constructor
    · rintro ⟨he,hzeros,hunsigned,hminus⟩
      refine ⟨?_,hunsigned,?_⟩
      · rw [forall_mem_dropLast_cons, hzero]
        exact ⟨he,hzeros⟩
      · intro m hm
        cases hm
        exact hminus
    · intro h
      obtain ⟨he,hzeros⟩ := forall_mem_dropLast_cons.mp h.zeros
      exact ⟨fun hne => hzero.mp (he hne),hzeros,h.unsigned,h.minus n rfl⟩

theorem agree_integers_iff (hload : yaml.load v = .ok (.sequence items))
    {order : SetOrder ℤ} {equality : SetEquality ℤ}
    (hnumbers : ∀ n ∈ items, ∃ k, lexicalCastInt (yaml.emit n) = .ok k) :
    Agree yaml lexicalCastInt order equality v items ↔ LeadingZeros yaml items := by
  obtain ⟨es,hes⟩ := exists_reads (List.forall_mem_map.mpr hnumbers)
  rw [agree_iff hload, ← reads_integers_iff hes]
  constructor
  · intro h
    exact (h es).mpr hes
  · intro h es'
    constructor
    · intro h'
      rw [h'.unique h]
      exact hes
    · intro h'
      rw [h'.unique hes]
      exact h

end Agree

end SequenceCast

open SequenceCast

/-- For every text of a sequence. For all element types the four conversions agree exactly when
no node but the last has a text; so it is for strings. Integers agree exactly when zeros lead.
Every element type agrees exactly when its cast ignores the texts in front of each node, or fails
both with and without them. -/
theorem sequenceCasts_agree_iff {yaml : YamlCpp} {v : String} {items : List YamlNode}
    (hload : yaml.load v = .ok (.sequence items)) :
    ((∀ (T : Type) (cast : String → Except YamlError T) (order : SetOrder T)
        (equality : SetEquality T), Agree yaml cast order equality v items) ↔
      ∀ n ∈ items.dropLast, yaml.emit n = "") ∧
    ((∀ n ∈ items, ∃ k, lexicalCastInt (yaml.emit n) = .ok k) →
      ∀ (order : SetOrder ℤ) (equality : SetEquality ℤ),
        Agree yaml lexicalCastInt order equality v items ↔ LeadingZeros yaml items) ∧
    ∀ (T : Type) (cast : String → Except YamlError T) (order : SetOrder T)
      (equality : SetEquality T), Agree yaml cast order equality v items ↔
        (∀ (i : ℕ) n, items[i]? = some n →
          ∃ e, cast (yaml.emit n) = .ok e ∧ cast (joined yaml items i) = .ok e) ∨
        ((∃ n ∈ items, ∀ e, cast (yaml.emit n) ≠ .ok e) ∧
          ∃ i < items.length, ∀ e, cast (joined yaml items i) ≠ .ok e) := by
  refine ⟨?_,fun hnumbers order equality => agree_integers_iff hload hnumbers,
    fun T cast order equality => agree_joined_iff hload⟩
  constructor
  · intro h
    exact (agree_strings_iff hload).mp (h String Except.ok stringOrder stringEquality)
  · intro h T cast order equality
    rw [agree_iff hload, (seen_kept_eq_iff "").mpr ⟨fun _ => rfl,h⟩]
    exact fun es => Iff.rfl

/-! ## Two numbers -/

/-- The library on texts of sequences of digits. -/
def digitsYaml : YamlCpp where
  emit
    | .scalar text => text
    | _ => ""
  load
    | "[0, 5]" => .ok (.sequence [.scalar "0", .scalar "5"])
    | "[1, 2]" => .ok (.sequence [.scalar "1", .scalar "2"])
    | _ => .error .parse
  isIndex _ _ := false
  nullString := .error .badConversion

def integerOrder : SetOrder ℤ where
  lt x y := decide (x < y)
  strict := ⟨by simp,by simp only [decide_eq_true_eq]; omega⟩

def integerEquality : SetEquality ℤ where
  same x y := decide (x = y)
  refl := by simp
  symm := by simp only [decide_eq_true_eq]; omega

/-- The vector casts "05" to 5, as the list casts "5". -/
theorem sequenceCasts_agree_iff_two :
    toVector digitsYaml lexicalCastInt "[0, 5]" = .ok [0, 5] ∧
    Agree digitsYaml lexicalCastInt integerOrder integerEquality "[0, 5]"
      [.scalar "0", .scalar "5"] := by
  have hnumbers : ∀ n ∈ [YamlNode.scalar "0", .scalar "5"],
      ∃ k, lexicalCastInt (digitsYaml.emit n) = .ok k := by
    rw [List.forall_mem_cons, List.forall_mem_singleton]
    exact ⟨⟨0,by decide⟩,⟨5,by decide⟩⟩
  have hzeros : LeadingZeros digitsYaml [.scalar "0", .scalar "5"] := by
    refine ⟨?_,?_,?_⟩
    · exact List.forall_mem_singleton.mpr (by decide)
    · exact List.forall_mem_singleton.mpr (by decide)
    · intro n hn hminus
      cases hn
      exact absurd hminus (by decide)
  exact ⟨by decide,((sequenceCasts_agree_iff rfl).2.1 hnumbers _ _).mpr hzeros⟩

theorem vector_accumulates :
    toVector digitsYaml lexicalCastInt "[1, 2]" = .ok [1, 12] ∧
    toList digitsYaml lexicalCastInt "[1, 2]" = .ok [1, 2] ∧
    ¬ Agree digitsYaml lexicalCastInt integerOrder integerEquality "[1, 2]"
      [.scalar "1", .scalar "2"] := by
  have hvector : toVector digitsYaml lexicalCastInt "[1, 2]" = .ok [1, 12] := by decide
  have hlist : toList digitsYaml lexicalCastInt "[1, 2]" = .ok [1, 2] := by decide
  refine ⟨hvector,hlist,?_⟩
  intro h
  have hsame := (h.sequences [1, 12]).mp hvector
  rw [hlist] at hsame
  exact absurd hsame (by decide)

end Gudov
