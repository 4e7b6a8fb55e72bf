import Mathlib.Data.List.Nodup
import Mathlib.Data.List.Infix

/-! Tables that hold every key once: references into a table are the same place exactly when
their keys are the same. -/

namespace FakeLisp

variable {K : Type*}

/-- A key and its place in a table. -/
structure Interned (K : Type*) where
  addr : Nat
  key : K
  deriving DecidableEq

/-- The keys in the order in which they came. -/
structure InternTable (K : Type*) where
  keys : List K
  nodup : keys.Nodup

namespace InternTable

instance : Membership (Interned K) (InternTable K) := ⟨fun t r => t.keys[r.addr]? = some r.key⟩

/-- A table that has grown keeps the places of its keys. -/
instance : PartialOrder (InternTable K) where
  le t t' := t.keys <+: t'.keys
  le_refl t := List.prefix_refl t.keys
  le_trans _ _ _ h h' := h.trans h'
  le_antisymm := by
    rintro ⟨l, hl⟩ ⟨l', hl'⟩ h h'
    obtain rfl : l = l' := h.eq_of_length (le_antisymm h.length_le h'.length_le)
    rfl

def empty : InternTable K := ⟨[], List.nodup_nil⟩

def add [DecidableEq K] (t : InternTable K) (k : K) : InternTable K × Interned K :=
  if h : k ∈ t.keys then (t, ⟨t.keys.idxOf k, k⟩)
  else (⟨t.keys ++ [k], t.nodup.append (List.nodup_singleton k) (by simpa using h)⟩,
    ⟨t.keys.length, k⟩)

def addAll [DecidableEq K] (t : InternTable K) (ks : List K) : InternTable K :=
  ks.foldl (fun t k => (t.add k).1) t

variable {t t' : InternTable K} {r r' : Interned K} {k : K}

theorem mem_def : r ∈ t ↔ t.keys[r.addr]? = some r.key := Iff.rfl

theorem getElem?_mono (hle : t ≤ t') {a : Nat} (h : t.keys[a]? = some k) :
    t'.keys[a]? = some k := by
  obtain ⟨l, hl⟩ := hle
  have ha := (List.getElem?_eq_some_iff.mp h).1
  rw [← hl, List.getElem?_append_left ha, h]

theorem mem_mono (hle : t ≤ t') (h : r ∈ t) : r ∈ t' := getElem?_mono hle h

theorem keys_mono (hle : t ≤ t') (h : k ∈ t.keys) : k ∈ t'.keys :=
  List.IsPrefix.subset hle h

theorem addr_inj {a a' : Nat} (h : t.keys[a]? = some k) (h' : t.keys[a']? = some k) : a = a' := by
  obtain ⟨ha, rfl⟩ := List.getElem?_eq_some_iff.mp h
  obtain ⟨ha', hk⟩ := List.getElem?_eq_some_iff.mp h'
  exact ((t.nodup.getElem_inj_iff).mp hk).symm

theorem addr_eq_iff (h : r ∈ t) (h' : r' ∈ t) : r.addr = r'.addr ↔ r.key = r'.key := by
  constructor
  · intro ha
    rw [mem_def, ha, mem_def.mp h'] at h
    exact (Option.some.inj h).symm
  · intro hk
    rw [mem_def, ← hk] at h'
    exact addr_inj h h'

section

variable [DecidableEq K]

theorem add_key (t : InternTable K) (k : K) : (t.add k).2.key = k := by
  unfold add
  split <;> rfl

theorem le_add (t : InternTable K) (k : K) : t ≤ (t.add k).1 := by
  unfold add
  split
  · exact le_refl t
  · exact List.prefix_append t.keys [k]

theorem add_mem (t : InternTable K) (k : K) : (t.add k).2 ∈ (t.add k).1 := by
  unfold add
  split
  · rename_i hk
    rw [mem_def]
    simp [List.getElem?_eq_getElem (List.idxOf_lt_length_of_mem hk)]
  · simp [mem_def]

@[simp] theorem mem_keys_add {k' : K} : k' ∈ (t.add k).1.keys ↔ k' ∈ t.keys ∨ k' = k := by
  unfold add
  split
  · rename_i hk
    exact ⟨.inl, fun h => h.elim id fun h => h ▸ hk⟩
  · simp

theorem add_of_mem (h : k ∈ t.keys) : (t.add k).1 = t := by simp [add, h]

@[simp] theorem mem_keys_addAll {ks : List K} {k' : K} :
    k' ∈ (t.addAll ks).keys ↔ k' ∈ t.keys ∨ k' ∈ ks := by
  induction ks generalizing t with
  | nil => simp [addAll]
  | cons k ks ih =>
    have := ih (t := (t.add k).1)
    simp only [addAll, List.foldl_cons] at this ⊢
    rw [this, mem_keys_add, List.mem_cons, or_assoc]

theorem addAll_of_mem {ks : List K} (h : ∀ k ∈ ks, k ∈ t.keys) : t.addAll ks = t := by
  induction ks with
  | nil => rfl
  | cons k ks ih =>
    rw [addAll, List.foldl_cons, add_of_mem (h k List.mem_cons_self)]
    exact ih fun k' hk' => h k' (List.mem_cons_of_mem k hk')

end

end InternTable

end FakeLisp
