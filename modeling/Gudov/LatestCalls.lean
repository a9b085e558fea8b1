import Mathlib.Data.List.Induction

/-!
# Entries by their latest call

A history is a list of calls. Some of them put a value under a key and some drop a key; a
`view` says which. The entry of a key is what the latest call about the key has put, unless it
drops the key.

Two ways to keep the entries are compared with the history: a map, and a list in which the
entry of a key is erased before a new one is appended. The list then has its entries in the
order of their latest calls.
-/
namespace Gudov.LatestCalls

variable {C K V : Type}

inductive Op (K V : Type)
  | put (k : K) (v : V)
  | drop (k : K)

def Op.key : Op K V → K
  | .put k _ => k
  | .drop k => k

/-- The call at this place puts the value, and no later one is about the key. -/
structure Latest (view : C → Option (Op K V)) (calls : List C) (i : ℕ) (k : K) (v : V) : Prop where
  put : (calls[i]?).bind view = some (.put k v)
  last : ∀ j op, i < j → (calls[j]?).bind view = some op → op.key ≠ k

/-- A call drops the key, and no later one puts a value under it. -/
def Dropped (view : C → Option (Op K V)) (calls : List C) (k : K) : Prop :=
  ∃ i : ℕ, (calls[i]?).bind view = some (.drop k) ∧
    ∀ (j : ℕ) v, i < j → (calls[j]?).bind view ≠ some (.put k v)

section History
variable {view : C → Option (Op K V)} {calls : List C} {c : C} {i j : ℕ} {k : K} {v w : V}

theorem Latest.lt (h : Latest view calls i k v) : i < calls.length := by
  by_contra hge
  have hput := h.put
  rw [List.getElem?_eq_none (Nat.le_of_not_lt hge)] at hput
  cases hput

theorem latest_nil : ¬ Latest view [] i k v := by
  intro h
  cases h.lt

theorem Latest.unique (h : Latest view calls i k v) (h' : Latest view calls j k w) :
    i = j ∧ v = w := by
  rcases Nat.lt_trichotomy i j with hlt | rfl | hlt
  · exact absurd rfl (h.last j _ hlt h'.put)
  · have hput := h.put.symm.trans h'.put
    cases hput
    exact ⟨rfl,rfl⟩
  · exact absurd rfl (h'.last i _ hlt h.put)

theorem Dropped.not_latest (h : Dropped view calls k) : ¬ Latest view calls i k v := by
  obtain ⟨j,hdrop,hlater⟩ := h
  intro hlatest
  rcases Nat.lt_trichotomy i j with hlt | rfl | hlt
  · exact hlatest.last j _ hlt hdrop rfl
  · cases hdrop.symm.trans hlatest.put
  · exact hlater i v hlt hlatest.put

/-- One more call. -/
theorem latest_append : Latest view (calls ++ [c]) i k v ↔
    (Latest view calls i k v ∧ ∀ op, view c = some op → op.key ≠ k) ∨
      (i = calls.length ∧ view c = some (.put k v)) := by
  have hold : ∀ {n}, n < calls.length → (calls ++ [c])[n]? = calls[n]? := fun hn =>
    List.getElem?_append_left hn
  have hnew : (calls ++ [c])[calls.length]? = some c := by simp
  constructor
  · intro h
    have hlt := h.lt
    rw [List.length_append, List.length_singleton] at hlt
    rcases Nat.lt_succ_iff_lt_or_eq.mp hlt with hlt | rfl
    · refine .inl ⟨⟨?_,?_⟩,?_⟩
      · rw [← hold hlt]
        exact h.put
      · intro j op hij hop
        have hj : j < calls.length := by
          by_contra hge
          rw [List.getElem?_eq_none (Nat.le_of_not_lt hge)] at hop
          cases hop
        rw [← hold hj] at hop
        exact h.last j op hij hop
      · intro op hop
        refine h.last calls.length op hlt ?_
        rw [hnew]
        exact hop
    · have hput := h.put
      rw [hnew] at hput
      exact .inr ⟨rfl,hput⟩
  · rintro (⟨h,hother⟩ | ⟨rfl,hput⟩)
    · refine ⟨?_,?_⟩
      · rw [hold h.lt]
        exact h.put
      · intro j op hij hop
        rcases Nat.lt_trichotomy j calls.length with hj | rfl | hj
        · rw [hold hj] at hop
          exact h.last j op hij hop
        · rw [hnew] at hop
          exact hother op hop
        · rw [List.getElem?_eq_none (by simp; omega)] at hop
          cases hop
    · refine ⟨by rw [hnew]; exact hput,?_⟩
      intro j op hij hop
      rw [List.getElem?_eq_none (by simp; omega)] at hop
      cases hop

/-- A key under which a value is put, and that is never dropped, has a latest call. -/
theorem exists_latest (hput : ∃ c ∈ calls, ∃ v, view c = some (.put k v))
    (hdrop : ∀ c ∈ calls, view c ≠ some (.drop k)) : ∃ i v, Latest view calls i k v := by
  induction calls using List.reverseRecOn with
  | nil =>
    obtain ⟨c,hc,_⟩ := hput
    exact absurd hc List.not_mem_nil
  | append_singleton calls c ih =>
    by_cases hlast : ∃ v, view c = some (.put k v)
    · obtain ⟨v,hv⟩ := hlast
      exact ⟨calls.length,v,latest_append.mpr (.inr ⟨rfl,hv⟩)⟩
    · obtain ⟨d,hd,v,hv⟩ := hput
      have hold : d ∈ calls := by
        rcases List.mem_append.mp hd with hd | hd
        · exact hd
        · rw [List.mem_singleton.mp hd] at hv
          exact absurd ⟨v,hv⟩ hlast
      obtain ⟨i,w,hlatest⟩ :=
        ih ⟨d,hold,v,hv⟩ fun c hc => hdrop c (List.mem_append_left _ hc)
      refine ⟨i,w,latest_append.mpr (.inl ⟨hlatest,?_⟩)⟩
      intro op hop hkey
      cases op with
      | put k' w' =>
        cases hkey
        exact hlast ⟨w',hop⟩
      | drop k' =>
        cases hkey
        exact hdrop c (by simp) hop

theorem latest_append_none (hc : view c = none) :
    Latest view (calls ++ [c]) i k v ↔ Latest view calls i k v := by
  rw [latest_append]
  simp [hc]

end History

section Map
variable {view : C → Option (Op K V)} {calls : List C} {c : C} {m : K → Option V} {k : K} {v : V}

/-- The map has the entries of the history. -/
def Finds (view : C → Option (Op K V)) (calls : List C) (m : K → Option V) : Prop :=
  ∀ k v, m k = some v ↔ ∃ i, Latest view calls i k v

theorem Finds.nil : Finds view ([] : List C) fun _ => none := by
  intro k v
  constructor
  · intro h
    cases h
  · rintro ⟨i,h⟩
    exact absurd h latest_nil

theorem Finds.other (h : Finds view calls m) (hc : view c = none) :
    Finds view (calls ++ [c]) m := by
  intro k v
  simp only [latest_append_none hc]
  exact h k v

theorem Finds.eq_none_iff (h : Finds view calls m) :
    m k = none ↔ ∀ i v, ¬ Latest view calls i k v := by
  constructor
  · intro hnone i v hlatest
    have hsome := (h k v).mpr ⟨i,hlatest⟩
    rw [hnone] at hsome
    cases hsome
  · intro hall
    cases hm : m k with
    | none => rfl
    | some v =>
      obtain ⟨i,hlatest⟩ := (h k v).mp hm
      exact absurd hlatest (hall i v)

variable [DecidableEq K]

theorem Finds.put (h : Finds view calls m) (hc : view c = some (.put k v)) :
    Finds view (calls ++ [c]) fun k' => if k' = k then some v else m k' := by
  intro k' v'
  simp only [latest_append, hc, Option.some.injEq]
  by_cases hk : k' = k
  · subst hk
    simp [Op.key, eq_comm]
  · simp [hk, Ne.symm hk, Op.key, h k' v']

theorem Finds.drop (h : Finds view calls m) (hc : view c = some (.drop k)) :
    Finds view (calls ++ [c]) fun k' => if k' = k then none else m k' := by
  intro k' v'
  simp only [latest_append, hc, Option.some.injEq]
  by_cases hk : k' = k
  · subst hk
    simp [Op.key]
  · simp [hk, Ne.symm hk, Op.key, h k' v']

end Map

section Table
variable {view : C → Option (Op K V)} {calls : List C} {c : C} {t : List (K × V)}

/-- The list has the entries of the history, in the order of their calls. -/
def Lists (view : C → Option (Op K V)) (calls : List C) (t : List (K × V)) : Prop :=
  ∃ T : List (ℕ × K × V), T.map Prod.snd = t ∧ T.Pairwise (·.1 < ·.1) ∧
    ∀ i k v, (i, k, v) ∈ T ↔ Latest view calls i k v

theorem Lists.nil : Lists view ([] : List C) [] := by
  refine ⟨[],rfl,List.Pairwise.nil,?_⟩
  intro i k v
  simp [latest_nil]

theorem Lists.other (h : Lists view calls t) (hc : view c = none) :
    Lists view (calls ++ [c]) t := by
  obtain ⟨T,rfl,hsorted,hmem⟩ := h
  refine ⟨T,rfl,hsorted,?_⟩
  intro i k v
  rw [latest_append_none hc]
  exact hmem i k v

theorem keys_ne {T : List (ℕ × K × V)} (hsorted : T.Pairwise (·.1 < ·.1))
    (hmem : ∀ i k v, (i, k, v) ∈ T ↔ Latest view calls i k v) :
    T.Pairwise fun e d => e.2.1 ≠ d.2.1 := by
  refine hsorted.imp_of_mem ?_
  rintro ⟨i,k,v⟩ ⟨j,k',w⟩ he hd hlt hkeys
  cases hkeys
  have hij := (((hmem i k v).mp he).unique ((hmem j k w).mp hd)).1
  exact absurd hij (Nat.ne_of_lt hlt)

/-- No two entries are under the same key. -/
theorem Lists.keys_nodup (h : Lists view calls t) : (t.map Prod.fst).Nodup := by
  obtain ⟨T,rfl,hsorted,hmem⟩ := h
  rw [List.map_map, List.Nodup, List.pairwise_map]
  exact keys_ne hsorted hmem

theorem Lists.mem_iff (h : Lists view calls t) {k : K} {v : V} :
    (k, v) ∈ t ↔ ∃ i, Latest view calls i k v := by
  obtain ⟨T,rfl,_,hmem⟩ := h
  simp only [List.mem_map, Prod.exists, exists_eq_right, hmem]

/-- The first entry with a property is the one whose latest call is oldest. -/
theorem Lists.find_some (h : Lists view calls t) {p : K × V → Bool} {e : K × V}
    (hfind : t.find? p = some e) : p e = true ∧ ∃ i, Latest view calls i e.1 e.2 ∧
      ∀ j k v, Latest view calls j k v → p (k, v) = true → i ≤ j := by
  obtain ⟨T,rfl,hsorted,hmem⟩ := h
  rw [List.find?_map, Option.map_eq_some_iff] at hfind
  obtain ⟨⟨i,k,v⟩,hfind,rfl⟩ := hfind
  obtain ⟨hp,before,after,rfl,hbefore⟩ := List.find?_eq_some_iff_append.mp hfind
  refine ⟨hp,i,(hmem i k v).mp (by simp),?_⟩
  intro j k' v' hlatest hp'
  have hj := (hmem j k' v').mpr hlatest
  rw [List.mem_append, List.mem_cons] at hj
  rcases hj with hj | hj | hj
  · have hmiss := hbefore _ hj
    simp [hp'] at hmiss
  · cases hj
    exact Nat.le_refl i
  · have hafter := (List.pairwise_cons.mp (List.pairwise_append.mp hsorted).2.1).1
    exact Nat.le_of_lt (hafter _ hj)

theorem Lists.find_none (h : Lists view calls t) {p : K × V → Bool} (hfind : t.find? p = none) :
    ∀ i k v, Latest view calls i k v → p (k, v) = false := by
  intro i k v hlatest
  have hmiss := List.find?_eq_none.mp hfind (k, v) (h.mem_iff.mpr ⟨i,hlatest⟩)
  rwa [Bool.not_eq_true] at hmiss

theorem mem_eraseP_iff {A : Type} {p : A → Bool} {l : List A} {e : A}
    (h : l.Pairwise fun a b => ¬ (p a = true ∧ p b = true)) :
    e ∈ l.eraseP p ↔ e ∈ l ∧ p e = false := by
  induction l with
  | nil => simp
  | cons a l ih =>
    obtain ⟨hhead,htail⟩ := List.pairwise_cons.mp h
    by_cases ha : p a = true
    · rw [List.eraseP_cons_of_pos ha, List.mem_cons]
      constructor
      · intro he
        have hne : p e ≠ true := fun hpe => hhead e he ⟨ha,hpe⟩
        exact ⟨.inr he,Bool.not_eq_true _ ▸ hne⟩
      · rintro ⟨rfl | he,hpe⟩
        · rw [ha] at hpe
          cases hpe
        · exact he
    · rw [List.eraseP_cons_of_neg ha, List.mem_cons, List.mem_cons, ih htail]
      constructor
      · rintro (rfl | ⟨he,hpe⟩)
        · exact ⟨.inl rfl,by simpa using ha⟩
        · exact ⟨.inr he,hpe⟩
      · rintro ⟨rfl | he,hpe⟩
        · exact .inl rfl
        · exact .inr ⟨he,hpe⟩

variable [DecidableEq K] {k : K} {v : V}

/-- The entry of the key erased, before the call is looked at. -/
theorem erased {T : List (ℕ × K × V)} (hsorted : T.Pairwise (·.1 < ·.1))
    (hmem : ∀ i k v, (i, k, v) ∈ T ↔ Latest view calls i k v) (k : K) :
    ∃ T' : List (ℕ × K × V), T'.map Prod.snd = (T.map Prod.snd).eraseP (·.1 = k) ∧
      T'.Pairwise (·.1 < ·.1) ∧
      ∀ i k' v, (i, k', v) ∈ T' ↔ Latest view calls i k' v ∧ k' ≠ k := by
  refine ⟨T.eraseP fun e => e.2.1 = k,?_,hsorted.sublist List.eraseP_sublist,?_⟩
  · rw [List.eraseP_map]
    rfl
  intro i k' v
  have hone : T.Pairwise fun e d => ¬ (decide (e.2.1 = k) = true ∧ decide (d.2.1 = k) = true) := by
    refine (keys_ne hsorted hmem).imp ?_
    rintro e d hne ⟨he,hd⟩
    exact hne ((of_decide_eq_true he).trans (of_decide_eq_true hd).symm)
  rw [mem_eraseP_iff hone, hmem, decide_eq_false_iff_not]

theorem Lists.drop (h : Lists view calls t) (hc : view c = some (.drop k)) :
    Lists view (calls ++ [c]) (t.eraseP (·.1 = k)) := by
  obtain ⟨T,rfl,hsorted,hmem⟩ := h
  obtain ⟨T',heq,hsorted',hmem'⟩ := erased hsorted hmem k
  refine ⟨T',heq,hsorted',?_⟩
  intro i k' v'
  rw [hmem', latest_append, hc]
  simp [Op.key, eq_comm]

theorem Lists.put (h : Lists view calls t) (hc : view c = some (.put k v)) :
    Lists view (calls ++ [c]) (t.eraseP (·.1 = k) ++ [(k, v)]) := by
  obtain ⟨T,rfl,hsorted,hmem⟩ := h
  obtain ⟨T',heq,hsorted',hmem'⟩ := erased hsorted hmem k
  refine ⟨T' ++ [(calls.length, k, v)],by simp [heq],?_,?_⟩
  · refine List.pairwise_append.mpr ⟨hsorted',List.pairwise_singleton _ _,?_⟩
    rintro ⟨i,k',v'⟩ he d hd
    rw [List.mem_singleton.mp hd]
    exact ((hmem' i k' v').mp he).1.lt
  · intro i k' v'
    rw [List.mem_append, hmem', latest_append, hc]
    simp [Op.key, eq_comm]

end Table

end Gudov.LatestCalls
