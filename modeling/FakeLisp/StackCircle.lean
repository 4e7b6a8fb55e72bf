import Mathlib.Data.Set.Finite.Basic
import Mathlib.Logic.Relation
import Mathlib.Order.Preorder.Finite
import Mathlib.Order.WellFounded

/-! Steps on stacks, which have their tops first. A run that goes on for ever brings a top back
without taking away what was under it: at infinitely many places the stack is as low as it will
ever be again, and two of these places have the same top. -/

namespace FakeLisp

variable {κ : Type*}

theorem exists_lowest_from (height : ℕ → ℕ) (n : ℕ) :
    ∃ m, n ≤ m ∧ ∀ k, m ≤ k → height m ≤ height k := by
  obtain ⟨m, hm, hmin⟩ := (measure height).wf.has_min {m | n ≤ m} ⟨n, le_refl n⟩
  exact ⟨m, hm, fun k hk => not_lt.mp (hmin k (le_trans hm hk))⟩

theorem infinite_lowest (height : ℕ → ℕ) : {m | ∀ k, m ≤ k → height m ≤ height k}.Infinite := by
  refine Set.infinite_of_forall_exists_gt fun n => ?_
  obtain ⟨m, hm, hlow⟩ := exists_lowest_from height (n + 1)
  exact ⟨m, hlow, hm⟩

/-- Of finitely many tops one comes back with the height never below the one that it had. -/
theorem exists_same_top {top : ℕ → κ} {tops : Set κ} (hfin : tops.Finite)
    (htop : ∀ n, top n ∈ tops) (height : ℕ → ℕ) :
    ∃ i j, i < j ∧ top i = top j ∧ ∀ k, i ≤ k → height i ≤ height k := by
  obtain ⟨i, hi, j, hj, hne, heq⟩ :=
    (infinite_lowest height).exists_ne_map_eq_of_mapsTo (fun n _ => htop n) hfin
  rcases lt_or_gt_of_ne hne with hlt | hlt
  · exact ⟨i, j, hlt, heq, hi⟩
  · exact ⟨j, i, hlt, heq.symm, hj⟩

/-- What lies on the stack was pushed at a step since which the stack has been higher. -/
theorem exists_rise {height : ℕ → ℕ} (hzero : height 0 = 0)
    (hstep : ∀ n, height (n + 1) ≤ height n + 1) {n k : ℕ} (hk : k < height n) :
    ∃ i < n, height i = k ∧ height (i + 1) = k + 1 ∧ ∀ m, i < m → m ≤ n → k < height m := by
  induction n with
  | zero => omega
  | succ n ih =>
    have hle := hstep n
    by_cases hlow : k < height n
    · obtain ⟨i, hi, hat, hrise, habove⟩ := ih hlow
      refine ⟨i, by omega, hat, hrise, fun m him hmn => ?_⟩
      rcases Nat.le_succ_iff.mp hmn with hm | rfl
      · exact habove m him hm
      · exact hk
    · refine ⟨n, by omega, by omega, by omega, fun m hnm hmn => ?_⟩
      obtain rfl : m = n + 1 := by omega
      exact hk

/-- A stack on which no label is pushed while it is still there is no higher than there are
labels. -/
theorem height_le_card {height : ℕ → ℕ} (hzero : height 0 = 0)
    (hstep : ∀ n, height (n + 1) ≤ height n + 1) (label : ℕ → κ) {labels : Finset κ} {n : ℕ}
    (hlabel : ∀ i < n, height i < height (i + 1) → label i ∈ labels)
    (hapart : ∀ i j, i < j → j < n → height i < height (i + 1) → height j < height (j + 1) →
      label i = label j → ∃ m, i < m ∧ m ≤ j ∧ height m ≤ height i) :
    height n ≤ labels.card := by
  have hrise := fun k : Fin (height n) => exists_rise hzero hstep k.isLt
  choose place hlt hat hnext habove using hrise
  have hup : ∀ k, height (place k) < height (place k + 1) := fun k => by rw [hat, hnext]; omega
  have hmono : ∀ k l : Fin (height n), k < l → place k < place l := by
    intro k l hkl
    by_contra hle
    have hne : place l ≠ place k := fun heq => by
      have := hat l
      rw [heq, hat k] at this
      omega
    have := habove l (place k) (by omega) (hlt k).le
    rw [hat k] at this
    omega
  have hneq : ∀ k l : Fin (height n), k < l → label (place k) ≠ label (place l) := by
    intro k l hkl heq
    obtain ⟨m, hm, hml, hlow⟩ :=
      hapart _ _ (hmono k l hkl) (hlt l) (hup k) (hup l) heq
    have hhigh := habove k m hm (hml.trans (hlt l).le)
    rw [hat k] at hlow
    omega
  have hinj : Function.Injective fun k => label (place k) := by
    intro k l heq
    rcases lt_trichotomy k l with h | h | h
    · exact absurd heq (hneq k l h)
    · exact h
    · exact absurd heq.symm (hneq l k h)
  have hcard := Finset.card_le_card_of_injOn (s := Finset.univ) (fun k => label (place k))
    (fun k _ => hlabel _ (hlt k) (hup k)) hinj.injOn
  rwa [Finset.card_univ, Fintype.card_fin] at hcard

/-- A step after which the stack is higher than `n`. -/
def StepsAbove (R : List κ → List κ → Prop) (n : ℕ) (s t : List κ) : Prop :=
  R s t ∧ n < t.length

/-- Some top comes back while the stack never gets as low as what was under it. -/
def Circles (R : List κ → List κ → Prop) : Prop :=
  ∃ q under s, Relation.TransGen (StepsAbove R (List.length under)) (q :: under) (q :: s)

theorem transGen_of_run {R : List κ → List κ → Prop} {f : ℕ → List κ} {i : ℕ}
    (hrun : ∀ n, i ≤ n → R (f n) (f (n + 1))) (n : ℕ) :
    Relation.TransGen R (f i) (f (i + n + 1)) := by
  induction n with
  | zero => exact .single (hrun i (le_refl i))
  | succ n ih => exact ih.tail (hrun (i + n + 1) (by omega))

theorem circles_of_run {R : List κ → List κ → Prop} {tops : Set κ} (hfin : tops.Finite)
    {f : ℕ → List κ} (hrun : ∀ n, R (f n) (f (n + 1)))
    (htop : ∀ n, ∃ q s, f n = q :: s ∧ q ∈ tops) : Circles R := by
  choose top under heq hmem using htop
  obtain ⟨i, j, hij, hsame, hlow⟩ := exists_same_top hfin hmem fun n => (f n).length
  have hsteps : ∀ n, i ≤ n → StepsAbove R (under i).length (f n) (f (n + 1)) := by
    intro n hn
    have hheight := hlow (n + 1) (by omega)
    rw [heq i, List.length_cons] at hheight
    exact ⟨hrun n, hheight⟩
  obtain ⟨n, rfl⟩ := Nat.exists_eq_add_of_lt hij
  refine ⟨top i, under i, under (i + n + 1), ?_⟩
  have hgen := transGen_of_run hsteps n
  rwa [heq i, heq (i + n + 1), ← hsame] at hgen

end FakeLisp
