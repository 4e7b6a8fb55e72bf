import Mathlib.Data.List.Pairwise

/-! Finite maps that remember the order of insertion, with keys up to an equivalence, and the
runs of their operations. -/

namespace FakeLisp

variable {K V : Type*} {eq : K → K → Bool}

structure KeyEquiv (eq : K → K → Bool) : Prop where
  refl : ∀ k, eq k k = true
  symm : ∀ k k', eq k k' = true → eq k' k = true
  trans : ∀ k k' k'', eq k k' = true → eq k' k'' = true → eq k k'' = true

namespace KeyEquiv

variable (h : KeyEquiv eq) {k k' : K}

include h

theorem comm (k k' : K) : eq k k' = eq k' k := by
  rw [Bool.eq_iff_iff]
  exact ⟨h.symm k k', h.symm k' k⟩

theorem congr_left (hk : eq k k' = true) (k'' : K) : eq k k'' = eq k' k'' := by
  rw [Bool.eq_iff_iff]
  exact ⟨h.trans k' k k'' (h.symm k k' hk), h.trans k k' k'' hk⟩

theorem congr_right (hk : eq k k' = true) (k'' : K) : eq k'' k = eq k'' k' := by
  rw [h.comm, h.congr_left hk, h.comm]

end KeyEquiv

structure InsertionMap (eq : K → K → Bool) (V : Type*) where
  entries : List (K × V)
  unequal : entries.Pairwise fun e e' => eq e.1 e'.1 = false

namespace InsertionMap

def elm (m : InsertionMap eq V) (k : K) : Option (K × V) := m.entries.find? fun e => eq k e.1

def get (m : InsertionMap eq V) (k : K) : Option V := (m.elm k).map Prod.snd

def empty : InsertionMap eq V := ⟨[], List.Pairwise.nil⟩

def erase (m : InsertionMap eq V) (k : K) : InsertionMap eq V where
  entries := m.entries.filter fun e => !eq k e.1
  unequal := m.unequal.filter _

/-- The value of a key that is present becomes `v`. -/
def replace (m : InsertionMap eq V) (k : K) (v : V) : InsertionMap eq V where
  entries := m.entries.map fun e => if eq k e.1 then (e.1, v) else e
  unequal := by
    rw [List.pairwise_map]
    refine m.unequal.imp fun {e e'} he => ?_
    have hfst (d : K × V) : (if eq k d.1 then (d.1, v) else d).1 = d.1 := by split <;> rfl
    rwa [hfst, hfst]

variable (h : KeyEquiv eq)

/-- An absent key goes behind the others. -/
def snoc (m : InsertionMap eq V) (k : K) (v : V) (hk : m.elm k = none) : InsertionMap eq V where
  entries := m.entries ++ [(k, v)]
  unequal := by
    refine List.pairwise_append.mpr ⟨m.unequal, List.pairwise_singleton _ _, ?_⟩
    intro e he e' he'
    obtain rfl := List.mem_singleton.mp he'
    rw [h.comm]
    simpa using List.find?_eq_none.mp hk e he

def set (m : InsertionMap eq V) (k : K) (v : V) : InsertionMap eq V :=
  if hk : m.elm k = none then m.snoc h k v hk else m.replace k v

/-- Only an absent key is inserted. -/
def add (m : InsertionMap eq V) (k : K) (v : V) : InsertionMap eq V :=
  if hk : m.elm k = none then m.snoc h k v hk else m

variable {m : InsertionMap eq V} {k k' : K} {v : V}

@[simp] theorem entries_empty : (empty : InsertionMap eq V).entries = [] := rfl

@[simp] theorem entries_snoc (hk : m.elm k = none) :
    (m.snoc h k v hk).entries = m.entries ++ [(k, v)] := rfl

@[simp] theorem entries_replace : (m.replace k v).entries =
    m.entries.map fun e => if eq k e.1 then (e.1, v) else e := rfl

@[simp] theorem entries_erase : (m.erase k).entries = m.entries.filter fun e => !eq k e.1 := rfl

@[simp] theorem get_empty : (empty : InsertionMap eq V).get k = none := rfl

theorem get_eq_none_iff : m.get k = none ↔ m.elm k = none := Option.map_eq_none_iff

include h in
theorem elm_congr (hk : eq k k' = true) : m.elm k = m.elm k' :=
  congrArg (List.find? · m.entries) (funext fun e => h.congr_left hk e.1)

include h in
theorem get_congr (hk : eq k k' = true) : m.get k = m.get k' :=
  congrArg (Option.map Prod.snd) (elm_congr h hk)

theorem get_snoc (hk : m.elm k = none) :
    (m.snoc h k v hk).get k' = if eq k' k then some v else m.get k' := by
  by_cases hkk : eq k' k = true
  · have hk' : m.elm k' = none := (elm_congr h hkk).trans hk
    rw [elm] at hk'
    simp [get, elm, snoc, hkk, hk']
  · simp [get, elm, snoc, hkk]

include h in
theorem get_replace :
    (m.replace k v).get k' = if eq k' k then (m.get k').map fun _ => v else m.get k' := by
  have hfst : (fun e : K × V => eq k' (if eq k e.1 then (e.1, v) else e).1) =
      fun e => eq k' e.1 := by
    funext e
    split <;> rfl
  rw [get, elm, replace, List.find?_map]
  simp only [Function.comp_def, hfst]
  rw [get, elm]
  cases he : m.entries.find? fun e => eq k' e.1 with
  | none => simp
  | some e =>
    have hek : eq k' e.1 = true := by simpa using List.find?_some he
    have hke : eq k e.1 = eq k' k := by rw [h.comm k', h.congr_right hek]
    by_cases hkk : eq k' k = true <;> simp [hke, hkk]

theorem elm_snoc (hk : m.elm k = none) : (m.snoc h k v hk).elm k = some (k, v) := by
  have hk' := hk
  rw [elm] at hk'
  simp [elm, snoc, hk', h.refl k]

theorem elm_replace : (m.replace k v).elm k = (m.elm k).map fun e => (e.1, v) := by
  have hfst : (fun e : K × V => eq k (if eq k e.1 then (e.1, v) else e).1) =
      fun e => eq k e.1 := by
    funext e
    split <;> rfl
  rw [elm, replace, List.find?_map]
  simp only [Function.comp_def, hfst]
  rw [elm]
  cases he : m.entries.find? fun e => eq k e.1 with
  | none => rfl
  | some e =>
    have hek : eq k e.1 = true := by simpa using List.find?_some he
    simp [hek]

theorem get_set : (m.set h k v).get k' = if eq k' k then some v else m.get k' := by
  unfold set
  split
  · exact get_snoc h _
  · rename_i hk
    rw [get_replace h]
    split
    · rename_i hkk
      obtain ⟨e, he⟩ := Option.ne_none_iff_exists'.mp ((elm_congr h hkk).trans_ne hk)
      simp [get, he]
    · rfl

theorem get_add :
    (m.add h k v).get k' = if eq k' k then (m.get k').or (some v) else m.get k' := by
  unfold add
  split
  · rename_i hk
    rw [get_snoc]
    split
    · rename_i hkk
      rw [get_congr h hkk, get_eq_none_iff.mpr hk]
      rfl
    · rfl
  · rename_i hk
    split
    · rename_i hkk
      obtain ⟨e, he⟩ := Option.ne_none_iff_exists'.mp ((elm_congr h hkk).trans_ne hk)
      simp [get, he]
    · rfl

include h in
theorem get_erase : (m.erase k).get k' = if eq k' k then none else m.get k' := by
  rw [get, elm, erase, List.find?_filter]
  split
  · rename_i hkk
    have hnone : ∀ e ∈ m.entries, (!eq k e.1) = true → eq k' e.1 = false := by
      intro e _
      simp [h.congr_left hkk]
    simpa using hnone
  · rename_i hkk
    have hsame : (fun e : K × V => decide ((!eq k e.1) = true ∧ eq k' e.1 = true)) =
        fun e => eq k' e.1 := by
      funext e
      by_cases hek : eq k' e.1 = true
      · have hke : eq k e.1 = false := by
          rw [Bool.eq_false_iff]
          exact fun hke => hkk (h.trans _ _ _ hek (h.symm _ _ hke))
        simp [hek, hke]
      · simp [hek]
    rw [hsame]
    rfl

theorem mem_of_elm {e : K × V} (he : m.elm k = some e) : e ∈ m.entries :=
  List.mem_of_find?_eq_some he

theorem entries_set_of_none (hk : m.elm k = none) :
    (m.set h k v).entries = m.entries ++ [(k, v)] := by simp [set, hk]

/-- The new value stands where the old one stood. -/
theorem entries_set_of_some {e : K × V} (he : m.elm k = some e) : ∃ pre post,
    m.entries = pre ++ e :: post ∧ (m.set h k v).entries = pre ++ (e.1, v) :: post := by
  obtain ⟨hek, pre, post, hes, hpre⟩ := List.find?_eq_some_iff_append.mp he
  refine ⟨pre, post, hes, ?_⟩
  have hpost : ∀ e' ∈ post, eq k e'.1 = false := by
    intro e' he'
    have hpair := m.unequal
    rw [hes] at hpair
    have hne := List.rel_of_pairwise_cons (List.pairwise_append.mp hpair).2.1 he'
    rwa [h.congr_left hek]
  have hkeep : ∀ l : List (K × V), (∀ e' ∈ l, eq k e'.1 = false) →
      l.map (fun e' => if eq k e'.1 then (e'.1, v) else e') = l := by
    intro l hl
    refine (List.map_congr_left fun e' he' => ?_).trans (List.map_id l)
    simp [hl e' he']
  have hset : m.set h k v = m.replace k v := by simp [set, he]
  rw [hset, entries_replace, hes, List.map_append, List.map_cons, if_pos hek, hkeep post hpost,
    hkeep pre fun e' he' => by simpa using hpre e' he']

include h in
theorem elm_of_mem {e : K × V} (he : e ∈ m.entries) : m.elm e.1 = some e := by
  obtain ⟨pre, post, hes⟩ := List.append_of_mem he
  refine List.find?_eq_some_iff_append.mpr ⟨h.refl e.1, pre, post, hes, fun e' he' => ?_⟩
  have hpair := m.unequal
  rw [hes] at hpair
  have hne := (List.pairwise_append.mp hpair).2.2 e' he' e List.mem_cons_self
  rw [h.comm, hne]
  rfl

include h in
theorem get_of_mem {e : K × V} (he : e ∈ m.entries) : m.get e.1 = some e.2 := by
  rw [get, elm_of_mem h he]
  rfl

theorem mem_of_get (hv : m.get k = some v) : ∃ e ∈ m.entries, eq k e.1 = true ∧ e.2 = v := by
  obtain ⟨e, he, rfl⟩ := Option.map_eq_some_iff.mp hv
  exact ⟨e, mem_of_elm he, by simpa using List.find?_some he, rfl⟩

end InsertionMap

inductive MapOp (K V : Type*) where
  /-- Insertion of an absent key; yields the element that was there. -/
  | put (k : K) (v : V)
  /-- Insertion of an absent key; yields the element that is there. -/
  | insert (k : K) (v : V)
  | set (k : K) (v : V)
  | get (k : K)
  | erase (k : K)
  /-- Erasure of the element with the key, if one is named. -/
  | del (k : Option K)
  /-- A new value for a key that is present. -/
  | store (k : K) (v : V)
  | clear
  | skip

inductive MapRes (K V : Type*) where
  | elm (e : Option (K × V))
  | flag (b : Bool)
  | done

namespace InsertionMap

variable (h : KeyEquiv eq)

def step (m : InsertionMap eq V) : MapOp K V → MapRes K V × InsertionMap eq V
  | .put k v => (.elm (m.elm k), m.add h k v)
  | .insert k v => (.elm ((m.add h k v).elm k), m.add h k v)
  | .set k v => (.elm ((m.set h k v).elm k), m.set h k v)
  | .get k => (.elm (m.elm k), m)
  | .erase k => (.elm (m.elm k), m.erase k)
  | .del (some k) => (.flag (m.elm k).isSome, m.erase k)
  | .del none => (.flag false, m)
  | .store k v => (.done, m.replace k v)
  | .clear => (.done, empty)
  | .skip => (.done, m)

def run (m : InsertionMap eq V) : List (MapOp K V) → List (MapRes K V) × InsertionMap eq V
  | [] => ([], m)
  | op :: ops =>
    let s := m.step h op
    let t := run s.2 ops
    (s.1 :: t.1, t.2)

/-- What an operation makes of the value of each key. -/
def effect (eq : K → K → Bool) (f : K → Option V) : MapOp K V → K → Option V
  | .put k v, k' | .insert k v, k' => if eq k' k then (f k').or (some v) else f k'
  | .set k v, k' => if eq k' k then some v else f k'
  | .erase k, k' | .del (some k), k' => if eq k' k then none else f k'
  | .store k v, k' => if eq k' k then (f k').map fun _ => v else f k'
  | .clear, _ => none
  | .get _, k' | .del none, k' | .skip, k' => f k'

/-- The value last set under a key and neither erased nor cleared since. -/
def lastSet (eq : K → K → Bool) (ops : List (MapOp K V)) : K → Option V :=
  ops.foldl (effect eq) fun _ => none

theorem get_step (m : InsertionMap eq V) (op : MapOp K V) :
    (m.step h op).2.get = effect eq m.get op := by
  funext k'
  cases op with
  | put k v => exact get_add h
  | insert k v => exact get_add h
  | set k v => exact get_set h
  | get k => rfl
  | erase k => exact get_erase h
  | del k =>
    cases k with
    | none => rfl
    | some k => exact get_erase h
  | store k v => exact get_replace h
  | clear => rfl
  | skip => rfl

theorem get_run (ops : List (MapOp K V)) : ((empty : InsertionMap eq V).run h ops).2.get =
    lastSet eq ops := by
  have hfold : ∀ m : InsertionMap eq V, (m.run h ops).2.get = ops.foldl (effect eq) m.get := by
    induction ops with
    | nil => exact fun m => rfl
    | cons op ops ih =>
      intro m
      rw [List.foldl_cons, ← get_step h m op]
      exact ih _
  exact hfold empty

end InsertionMap

end FakeLisp
