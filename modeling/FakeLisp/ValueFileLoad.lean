import FakeLisp.ValueFileRight
import Mathlib.Data.Nat.Bits

/-! Loading the table of values. -/

namespace FakeLisp

namespace ValueFile

open FklValueTable Function

variable {A : Type} [DecidableEq A]

/-- There is one object at most with the contents of a singleton. -/
def Singletons (heap : FklHeap) : Prop :=
  ∀ (i j : Nat) (o : ValueObj Nat), heap[i]? = some o → heap[j]? = some o →
    o.isSingleton = true → i = j

/-- The values with ids up to `n` have been made, the one at `a` at the address `φ a`. -/
structure Loaded (vt : FklValueTable (ValueWord A)) (mem : A → ValueObj A) (heap₀ : FklHeap)
    (φ : A → Nat) (n : Nat) (args : FklLoadValueArgs) : Prop where
  kept : heap₀ <+: args.heap
  singletons : Singletons args.heap
  length : args.values.length = vt.nextId - 1
  value : ∀ w i, vt.ht.get w = some i → i ≤ n → args.values[i - 1]? = some (w.map φ)
  obj : ∀ a i, vt.ht.get (.ptr a) = some i → i ≤ n → args.heap[φ a]? = some ((mem a).map φ)
  inj : ∀ a b i j, vt.ht.get (.ptr a) = some i → vt.ht.get (.ptr b) = some j → i ≤ n → j ≤ n →
    φ a = φ b → a = b
  fresh : ∀ a i, vt.ht.get (.ptr a) = some i → i ≤ n → (mem a).isSingleton = false →
    heap₀.length ≤ φ a

variable {vt : FklValueTable (ValueWord A)} {mem : A → ValueObj A} {fuel n r : Nat} {a : A}
  {heap₀ heap heap' : FklHeap} {φ : A → Nat} {args : FklLoadValueArgs} {bytes : List UInt8}
  {buckets : Buckets}

/-! Creating an object. -/

theorem createObj_fresh {o : ValueObj Nat} (h : ¬(o.isSingleton = true ∧ o ∈ heap)) :
    createObj heap o = (heap.length, heap ++ [o]) := by
  rw [createObj, if_neg h]

theorem set_fresh (o o' : ValueObj Nat) : (heap ++ [o]).set heap.length o' = heap ++ [o'] := by
  simp

theorem Singletons.snoc (hs : Singletons heap) {o : ValueObj Nat}
    (h : ¬(o.isSingleton = true ∧ o ∈ heap)) : Singletons (heap ++ [o]) := by
  have hnew : ∀ {i : Nat} {o' : ValueObj Nat}, (heap ++ [o])[i]? = some o' →
      heap[i]? = some o' ∨ i = heap.length ∧ o' = o := by
    intro i o' hi
    rw [List.getElem?_append] at hi
    split at hi
    · exact Or.inl hi
    · next hge =>
      obtain ⟨hlt, hi⟩ := List.getElem?_eq_some_iff.mp hi
      simp only [List.length_singleton, Nat.lt_one_iff] at hlt
      refine Or.inr ⟨by omega, ?_⟩
      simp only [hlt, List.getElem_cons_zero] at hi
      exact hi.symm
  intro i j o' hi hj hsing
  rcases hnew hi with hi' | ⟨hi', heq⟩
  · rcases hnew hj with hj' | ⟨-, heq⟩
    · exact hs i j o' hi' hj' hsing
    · rw [heq] at hi' hsing
      exact absurd ⟨hsing, List.mem_of_getElem? hi'⟩ h
  · rcases hnew hj with hj' | ⟨hj', -⟩
    · rw [heq] at hj' hsing
      exact absurd ⟨hsing, List.mem_of_getElem? hj'⟩ h
    · rw [hi', hj']

theorem set_of_getElem? {o : ValueObj Nat} (h : heap[r]? = some o) : heap.set r o = heap := by
  obtain ⟨hlt, rfl⟩ := List.getElem?_eq_some_iff.mp h
  exact List.set_getElem_self hlt

/-- The object that is created and then filled, or the one that was there. -/
theorem createObj_spec (hs : Singletons heap) {o : ValueObj Nat}
    (hr : createObj heap o = (r, heap')) {o' : ValueObj Nat}
    (hsing : o'.isSingleton = o.isSingleton) (hsame : o.isSingleton = true → o' = o) :
    heap <+: heap'.set r o' ∧ Singletons (heap'.set r o') ∧ (heap'.set r o')[r]? = some o' ∧
      (o.isSingleton = true ∧ heap[r]? = some o ∨ heap.length ≤ r) := by
  by_cases h : o.isSingleton = true ∧ o ∈ heap
  · rw [createObj, if_pos h] at hr
    obtain ⟨rfl, rfl⟩ := Prod.mk.inj hr
    have hget : heap[heap.idxOf o]? = some o := by
      have hlt := List.idxOf_lt_length_of_mem h.2
      rw [List.getElem?_eq_getElem hlt, List.getElem_idxOf hlt]
    have hset : heap.set (heap.idxOf o) o' = heap := by
      rw [hsame h.1, set_of_getElem? hget]
    rw [hset]
    exact ⟨List.prefix_rfl, hs, by rw [hget, hsame h.1], Or.inl ⟨h.1, hget⟩⟩
  · rw [createObj_fresh h] at hr
    obtain ⟨rfl, rfl⟩ := Prod.mk.inj hr
    rw [set_fresh]
    refine ⟨List.prefix_append _ _, hs.snoc ?_, by simp, Or.inr (le_refl _)⟩
    rintro ⟨hsing', hmem⟩
    rw [hsing] at hsing'
    rw [hsame hsing'] at hmem
    exact h ⟨hsing', hmem⟩

/-! One more value. -/

theorem ne_of_le (ha : vt.ht.get (.ptr a) = some (n + 1)) {b : A} {i : Nat}
    (hb : vt.ht.get (.ptr b) = some i) (hi : i ≤ n) : b ≠ a := by
  rintro rfl
  have := Option.some.inj (hb.symm.trans ha)
  omega

theorem Written.map_update (hw : Written vt mem) (ha : vt.ht.get (.ptr a) = some (n + 1)) {b : A}
    {i : Nat} (hb : vt.ht.get (.ptr b) = some i) (hi : i ≤ n) :
    (mem b).map (update φ a r) = (mem b).map φ := by
  apply ValueObj.map_congr
  intro w hword
  apply ValueWord.map_congr
  rintro c rfl
  rcases hw.closed b i hb _ hword with h | ⟨j, hj, hc⟩
  · cases h
  · exact update_of_ne (ne_of_le ha hc (hj.trans hi)) r φ

theorem Loaded.create (hw : Written vt mem) (hm : Serializable mem fuel)
    (h : Loaded vt mem heap₀ φ n args) (ha : vt.ht.get (.ptr a) = some (n + 1))
    {o : ValueObj Nat} (hr : createObj args.heap o = (r, heap))
    (hsing : o.isSingleton = (mem a).isSingleton)
    (hsame : o.isSingleton = true → o = (mem a).map φ) :
    Loaded vt mem heap₀ (update φ a r) (n + 1)
      ⟨heap.set r ((mem a).map (update φ a r)), args.values.set n (.ptr r)⟩ := by
  have hcontents : o.isSingleton = true → (mem a).map (update φ a r) = o := by
    intro ho
    rw [hsame ho]
    apply ValueObj.map_congr
    rw [ValueObj.words_of_singleton (hsing ▸ ho)]
    intro w hword
    cases hword
  obtain ⟨hkept, hsingletons, hnew, hplace⟩ :=
    createObj_spec h.singletons hr (by simp [hsing]) hcontents
  -- The objects that were made before are at other addresses.
  have hother : ∀ b i, vt.ht.get (.ptr b) = some i → i ≤ n → φ b ≠ r := by
    intro b i hb hi heq
    have hobj := h.obj b i hb hi
    rw [heq] at hobj
    rcases hplace with ⟨ho, hold⟩ | hlen
    · have heq' : (mem b).map φ = (mem a).map φ := by
        rw [← hsame ho]
        exact Option.some.inj (hobj.symm.trans hold)
      have hmem := ValueObj.eq_of_singleton (hsing ▸ ho) heq'.symm
      exact ne_of_le ha hb hi (hm.singleton a b (hsing ▸ ho) hmem).symm
    · obtain ⟨hlt, -⟩ := List.getElem?_eq_some_iff.mp hobj
      omega
  have hupdate : ∀ b i, vt.ht.get (.ptr b) = some i → i ≤ n → update φ a r b = φ b := by
    intro b i hb hi
    exact update_of_ne (ne_of_le ha hb hi) r φ
  have hlast : ∀ w, vt.ht.get w = some (n + 1) → w = .ptr a := fun w hword =>
    hw.numbered.unique hword ha
  refine ⟨h.kept.trans hkept, hsingletons, by simp [h.length], ?_, ?_, ?_, ?_⟩
  · intro w i hword hi
    have hpos := hw.numbered.lt hword
    rcases Nat.lt_or_ge n i with hlt | hle
    · obtain rfl : i = n + 1 := by omega
      obtain rfl := hlast w hword
      rw [Nat.add_sub_cancel, List.getElem?_set_self (by rw [h.length]; omega)]
      simp
    · rw [List.getElem?_set_ne (by omega), h.value w i hword hle]
      congr 1
      apply ValueWord.map_congr
      rintro b rfl
      exact (hupdate b i hword hle).symm
  · intro b i hb hi
    rcases Nat.lt_or_ge n i with hlt | hle
    · obtain rfl : i = n + 1 := by omega
      obtain rfl := ValueWord.ptr.inj (hlast _ hb)
      rwa [update_self]
    · rw [hupdate b i hb hle, hw.map_update ha hb hle]
      have hobj := h.obj b i hb hle
      obtain ⟨hlt, -⟩ := List.getElem?_eq_some_iff.mp hobj
      obtain ⟨tail, htail⟩ := hkept
      rw [← htail, List.getElem?_append_left hlt]
      exact hobj
  · intro b c i j hb hc hi hj heq
    rcases Nat.lt_or_ge n i with hilt | hile
    · obtain rfl : i = n + 1 := by omega
      obtain rfl := ValueWord.ptr.inj (hlast _ hb)
      rcases Nat.lt_or_ge n j with hjlt | hjle
      · obtain rfl : j = n + 1 := by omega
        exact (ValueWord.ptr.inj (hlast _ hc)).symm
      · rw [update_self, hupdate c j hc hjle] at heq
        exact absurd heq.symm (hother c j hc hjle)
    · rcases Nat.lt_or_ge n j with hjlt | hjle
      · obtain rfl : j = n + 1 := by omega
        obtain rfl := ValueWord.ptr.inj (hlast _ hc)
        rw [update_self, hupdate b i hb hile] at heq
        exact absurd heq (hother b i hb hile)
      · rw [hupdate b i hb hile, hupdate c j hc hjle] at heq
        exact h.inj b c i j hb hc hile hjle heq
  · intro b i hb hi hnot
    rcases Nat.lt_or_ge n i with hlt | hle
    · obtain rfl : i = n + 1 := by omega
      obtain rfl := ValueWord.ptr.inj (hlast _ hb)
      rw [update_self]
      rcases hplace with ⟨ho, -⟩ | hlen
      · rw [hsing, hnot] at ho
        cases ho
      · exact h.kept.length_le.trans hlen
    · rw [hupdate b i hb hle]
      exact h.fresh b i hb hle hnot

end ValueFile

end FakeLisp
