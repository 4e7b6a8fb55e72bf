import Mathlib.Data.List.Sort

/-! Sorting by a comparison function. Nothing is known of the order of the result when the
comparison is not an order. -/

namespace FakeLisp

variable {α : Type*}

/-- The comparison puts the elements in one order. -/
structure CmpOrders (cmp : α → α → Int) (s : Set α) : Prop where
  total : ∀ a ∈ s, ∀ b ∈ s, a ≠ b → cmp a b < 0 ∨ cmp b a < 0
  asymm : ∀ a ∈ s, ∀ b ∈ s, cmp a b < 0 → 0 < cmp b a
  trans : ∀ a ∈ s, ∀ b ∈ s, ∀ c ∈ s, cmp a b < 0 → cmp b c < 0 → cmp a c < 0

theorem CmpOrders.mono {cmp : α → α → Int} {s t : Set α} (h : CmpOrders cmp t) (hst : s ⊆ t) :
    CmpOrders cmp s where
  total a ha b hb := h.total a (hst ha) b (hst hb)
  asymm a ha b hb := h.asymm a (hst ha) b (hst hb)
  trans a ha b hb c hc := h.trans a (hst ha) b (hst hb) c (hst hc)

/-- What is known of `qsort`: it sorts where there is an order. -/
structure QsortSpec (qsort : (α → α → Int) → List α → List α) : Prop where
  perm : ∀ cmp l, (qsort cmp l).Perm l
  sorted : ∀ cmp l, l.Nodup → CmpOrders cmp {x | x ∈ l} →
    (qsort cmp l).Pairwise fun a b => cmp a b < 0

/-! The merge sort of a C library. -/

def msortMerge (cmp : α → α → Int) : Nat → List α → List α → List α
  | n + 1, x :: xs, y :: ys =>
    if cmp x y ≤ 0 then x :: msortMerge cmp n xs (y :: ys) else y :: msortMerge cmp n (x :: xs) ys
  | _, xs, ys => xs ++ ys

def msortWithTmp (cmp : α → α → Int) : Nat → List α → List α
  | n + 1, l =>
    if l.length ≤ 1 then l
    else msortMerge cmp l.length (msortWithTmp cmp n (l.take (l.length / 2)))
      (msortWithTmp cmp n (l.drop (l.length / 2)))
  | 0, l => l

def msort (cmp : α → α → Int) (l : List α) : List α := msortWithTmp cmp l.length l

theorem perm_msortMerge (cmp : α → α → Int) (n : Nat) (xs ys : List α) :
    (msortMerge cmp n xs ys).Perm (xs ++ ys) := by
  induction n generalizing xs ys with
  | zero => cases xs <;> cases ys <;> exact List.Perm.refl _
  | succ n ih =>
    cases xs with
    | nil => exact List.Perm.refl _
    | cons x xs =>
      cases ys with
      | nil => exact List.Perm.refl _
      | cons y ys =>
        rw [msortMerge]
        split_ifs
        · exact (ih xs (y :: ys)).cons x
        · exact ((ih (x :: xs) ys).cons y).trans List.perm_middle.symm

theorem perm_msortWithTmp (cmp : α → α → Int) (n : Nat) (l : List α) :
    (msortWithTmp cmp n l).Perm l := by
  induction n generalizing l with
  | zero => exact List.Perm.refl _
  | succ n ih =>
    rw [msortWithTmp]
    split_ifs
    · exact List.Perm.refl _
    · refine (perm_msortMerge _ _ _ _).trans (((ih _).append (ih _)).trans ?_)
      rw [List.take_append_drop]

theorem pairwise_msortMerge {cmp : α → α → Int} {n : Nat} {xs ys : List α}
    (hn : xs.length + ys.length ≤ n) (hnodup : (xs ++ ys).Nodup)
    (h : CmpOrders cmp {x | x ∈ xs ++ ys}) (hxs : xs.Pairwise fun a b => cmp a b < 0)
    (hys : ys.Pairwise fun a b => cmp a b < 0) :
    (msortMerge cmp n xs ys).Pairwise fun a b => cmp a b < 0 := by
  induction n generalizing xs ys with
  | zero =>
    obtain rfl : xs = [] := List.eq_nil_of_length_eq_zero (by omega)
    obtain rfl : ys = [] := List.eq_nil_of_length_eq_zero (by omega)
    exact List.Pairwise.nil
  | succ n ih =>
    cases xs with
    | nil => exact hys
    | cons x xs =>
      cases ys with
      | nil => simpa [msortMerge] using hxs
      | cons y ys =>
        obtain ⟨hx, hxs'⟩ := List.pairwise_cons.mp hxs
        obtain ⟨hy, hys'⟩ := List.pairwise_cons.mp hys
        have hne : x ≠ y := by
          rintro rfl
          simp [List.nodup_append] at hnodup
        have hmemx : x ∈ {z | z ∈ x :: xs ++ y :: ys} := by simp
        have hmemy : y ∈ {z | z ∈ x :: xs ++ y :: ys} := by simp
        simp only [List.length_cons] at hn
        rw [msortMerge]
        split_ifs with hle
        · have hxy : cmp x y < 0 := by
            refine (h.total x hmemx y hmemy hne).resolve_right fun hyx => ?_
            have := h.asymm y hmemy x hmemx hyx
            omega
          refine List.pairwise_cons.mpr ⟨fun z hz => ?_, ?_⟩
          · rcases List.mem_append.mp ((perm_msortMerge _ _ _ _).mem_iff.mp hz) with hz | hz
            · exact hx z hz
            · rcases List.mem_cons.mp hz with rfl | hz
              · exact hxy
              · exact h.trans x hmemx y hmemy z (by simp [hz]) hxy (hy z hz)
          · refine ih (by simp only [List.length_cons]; omega) ?_ (h.mono fun z hz => ?_) hxs' hys
            · exact (List.nodup_cons.mp hnodup).2
            · exact List.mem_cons_of_mem x hz
        · have hyx : cmp y x < 0 := by
            refine (h.total x hmemx y hmemy hne).resolve_left fun hxy => hle hxy.le
          refine List.pairwise_cons.mpr ⟨fun z hz => ?_, ?_⟩
          · rcases List.mem_append.mp ((perm_msortMerge _ _ _ _).mem_iff.mp hz) with hz | hz
            · rcases List.mem_cons.mp hz with rfl | hz
              · exact hyx
              · exact h.trans y hmemy x hmemx z (by simp [hz]) hyx (hx z hz)
            · exact hy z hz
          · have hperm : (x :: xs ++ y :: ys).Perm (y :: (x :: xs ++ ys)) := List.perm_middle
            refine ih (by simp only [List.length_cons]; omega) ?_ (h.mono fun z hz => ?_) hxs hys'
            · exact (List.nodup_cons.mp (hperm.nodup_iff.mp hnodup)).2
            · exact hperm.mem_iff.mpr (List.mem_cons_of_mem y hz)

theorem pairwise_msortWithTmp {cmp : α → α → Int} {n : Nat} {l : List α} (hn : l.length ≤ n)
    (hnodup : l.Nodup) (h : CmpOrders cmp {x | x ∈ l}) :
    (msortWithTmp cmp n l).Pairwise fun a b => cmp a b < 0 := by
  have hshort : ∀ l : List α, l.length ≤ 1 → l.Pairwise fun a b => cmp a b < 0 := by
    intro l hl
    match l, hl with
    | [], _ => exact List.Pairwise.nil
    | [x], _ => exact List.pairwise_singleton _ x
  induction n generalizing l with
  | zero => exact hshort l (by omega)
  | succ n ih =>
    rw [msortWithTmp]
    split_ifs with hle
    · exact hshort l hle
    · have hl := List.take_append_drop (l.length / 2) l
      have hmem : ∀ z, z ∈ msortWithTmp cmp n (l.take (l.length / 2)) ++
          msortWithTmp cmp n (l.drop (l.length / 2)) ↔ z ∈ l := by
        intro z
        rw [List.mem_append, (perm_msortWithTmp _ _ _).mem_iff, (perm_msortWithTmp _ _ _).mem_iff,
          ← List.mem_append, hl]
      have hperm := (perm_msortWithTmp cmp n (l.take (l.length / 2))).append
        (perm_msortWithTmp cmp n (l.drop (l.length / 2)))
      rw [hl] at hperm
      refine pairwise_msortMerge ?_ (hperm.nodup_iff.mpr hnodup) (h.mono fun z hz => ?_) ?_ ?_
      · rw [← List.length_append, hperm.length_eq]
      · exact (hmem z).mp hz
      · refine ih ?_ (hnodup.sublist (List.take_sublist _ _)) (h.mono fun z hz => ?_)
        · simp only [List.length_take]
          omega
        · exact (List.take_sublist _ _).subset hz
      · refine ih ?_ (hnodup.sublist (List.drop_sublist _ _)) (h.mono fun z hz => ?_)
        · simp only [List.length_drop]
          omega
        · exact (List.drop_sublist _ _).subset hz

theorem qsortSpec_msort : QsortSpec (@msort α) where
  perm cmp l := perm_msortWithTmp cmp l.length l
  sorted _ _ hl h := pairwise_msortWithTmp le_rfl hl h

end FakeLisp
