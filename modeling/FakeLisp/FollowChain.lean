import Mathlib.Data.Fintype.Pigeonhole
import Mathlib.Order.Basic
import Mathlib.Tactic.Common

/-! A partial step is taken again and again. Where only finitely many values have a next one, it
comes to an end or goes round in a circle. -/

namespace FakeLisp

variable {V : Type} (f : V → Option V)

/-- After `n` steps there is no next one. -/
inductive EndsIn : V → Nat → V → Prop where
  | last (v : V) (h : f v = none) : EndsIn v 0 v
  | next (v d e : V) (n : Nat) (h : f v = some d) (hd : EndsIn d n e) : EndsIn v (n + 1) e

/-- The value `k` steps on. -/
def iterAt (p : V) : Nat → Option V
  | 0 => some p
  | k + 1 => (iterAt p k).bind f

/-- Some steps lead to a value that further steps lead back to. -/
def RunsInCircle (p : V) : Prop := ∃ i j q, iterAt f p i = some q ∧ 0 < j ∧ iterAt f q j = some q

variable {f} {p q d e : V} {i j k n : Nat}

theorem iterAt_add (h : iterAt f p i = some q) : iterAt f p (i + j) = iterAt f q j := by
  induction j with
  | zero => exact h
  | succ j ih => rw [← Nat.add_assoc, iterAt, ih, iterAt]

theorem iterAt_succ (h : f p = some d) : iterAt f p (k + 1) = iterAt f d k := by
  rw [Nat.add_comm]
  exact iterAt_add (by rw [iterAt, iterAt, Option.bind_some, h])

theorem iterAt_none (h : iterAt f p i = none) (hij : i ≤ j) : iterAt f p j = none := by
  induction hij with
  | refl => exact h
  | step _ ih => rw [iterAt, ih, Option.bind_none]

/-- A value that comes back comes back again and again. -/
theorem iterAt_mul (h : iterAt f p i = some p) : iterAt f p (i * k) = some p := by
  induction k with
  | zero => rfl
  | succ k ih => rw [Nat.mul_succ, iterAt_add ih, h]

theorem EndsIn.iterAt_eq_none (h : EndsIn f p n e) : iterAt f p (n + 1) = none := by
  induction h with
  | last v h => rw [iterAt, iterAt, Option.bind_some, h]
  | next v d e n h _ ih => rw [iterAt_succ h, ih]

theorem EndsIn.unique {n' : Nat} {e' : V} (h : EndsIn f p n e) (h' : EndsIn f p n' e') :
    n = n' ∧ e = e' := by
  induction h generalizing n' with
  | last v hv =>
    cases h' with
    | last => exact ⟨rfl, rfl⟩
    | next _ d _ _ hv' => cases hv.symm.trans hv'
  | next v d e n hv _ ih =>
    cases h' with
    | last _ hv' => cases hv.symm.trans hv'
    | next _ d' _ n' hv' hd' =>
      obtain rfl := Option.some.inj (hv.symm.trans hv')
      obtain ⟨rfl, rfl⟩ := ih hd'
      exact ⟨rfl, rfl⟩

theorem EndsIn.not_back (h : EndsIn f p n e) (hi : 0 < i) : iterAt f p i ≠ some p := by
  intro hback
  have hmul : iterAt f p (i * (n + 1)) = some p := iterAt_mul hback
  have hnone := iterAt_none h.iterAt_eq_none (Nat.le_mul_of_pos_left (n + 1) hi)
  cases hmul.symm.trans hnone

theorem endsIn_of_iterAt (h : iterAt f p k = none) : ∃ n e, EndsIn f p n e := by
  induction k generalizing p with
  | zero => cases h
  | succ k ih =>
    cases hp : f p with
    | none => exact ⟨0, p, .last p hp⟩
    | some d =>
      obtain ⟨n, e, hd⟩ := ih (iterAt_succ hp ▸ h)
      exact ⟨n + 1, e, .next p d e n hp hd⟩

theorem RunsInCircle.iterAt_ne_none (h : RunsInCircle f p) (k : Nat) : iterAt f p k ≠ none := by
  intro hk
  obtain ⟨i, j, q, hq, hj, hback⟩ := h
  have hmul : iterAt f p (i + j * k) = some q := (iterAt_add hq).trans (iterAt_mul hback)
  have hle : k ≤ i + j * k := Nat.le_add_left_of_le (Nat.le_mul_of_pos_left k hj)
  cases hmul.symm.trans (iterAt_none hk hle)

/-- Without an end some value comes back, by the pigeonhole principle. -/
theorem runsInCircle_of_iterAt (hfin : Finite {v // f v ≠ none}) (h : ∀ k, iterAt f p k ≠ none) :
    RunsInCircle f p := by
  have hsome : ∀ k, ∃ v, iterAt f p k = some v := fun k => Option.ne_none_iff_exists'.mp (h k)
  choose g hg using hsome
  have hnext : ∀ k, f (g k) ≠ none := by
    intro k hnone
    apply h (k + 1)
    rw [iterAt, hg, Option.bind_some, hnone]
  obtain ⟨a, b, hab, heq⟩ := Finite.exists_ne_map_eq_of_infinite
    fun k => (⟨g k, hnext k⟩ : {v // f v ≠ none})
  have hgab : g a = g b := congrArg Subtype.val heq
  obtain ⟨a, b, hlt, hgab⟩ : ∃ a b, a < b ∧ g a = g b := by
    rcases Nat.lt_or_gt_of_ne hab with hlt | hlt
    · exact ⟨a, b, hlt, hgab⟩
    · exact ⟨b, a, hlt, hgab.symm⟩
  refine ⟨a, b - a, g a, hg a, by omega, ?_⟩
  rw [← iterAt_add (hg a), show a + (b - a) = b by omega, hg b, hgab]

theorem endsIn_iff_not_runsInCircle (hfin : Finite {v // f v ≠ none}) (p : V) :
    (∃ n e, EndsIn f p n e) ↔ ¬ RunsInCircle f p := by
  constructor
  · rintro ⟨n, e, h⟩ hcircle
    exact hcircle.iterAt_ne_none (n + 1) h.iterAt_eq_none
  · intro hno
    by_contra hends
    apply hno
    apply runsInCircle_of_iterAt hfin
    intro k hk
    exact hends (endsIn_of_iterAt hk)

theorem iterAt_lt [Preorder V] (hf : ∀ v d, f v = some d → v < d) (hij : i < j)
    (hp : iterAt f p i = some d) (hq : iterAt f p j = some e) : d < e := by
  induction hij generalizing e with
  | refl =>
    rw [iterAt, hp, Option.bind_some] at hq
    exact hf d e hq
  | step _ ih =>
    obtain ⟨v, hv, hve⟩ := Option.bind_eq_some_iff.mp hq
    exact (ih hv).trans (hf v e hve)

/-- In a circle some value is the one behind twice as many steps and one. -/
theorem RunsInCircle.meets (h : RunsInCircle f p) : ∃ n, iterAt f p n = iterAt f p (2 * n + 1) := by
  obtain ⟨i, j, q, hq, hj, hback⟩ := h
  have hle : i + 1 ≤ j * (i + 1) := Nat.le_mul_of_pos_left (i + 1) hj
  obtain ⟨a, ha⟩ : ∃ a, j * (i + 1) = i + a + 1 := ⟨j * (i + 1) - 1 - i, by omega⟩
  refine ⟨i + a, ?_⟩
  have hsum : 2 * (i + a) + 1 = i + (j * (i + 1) + a) := by omega
  rw [hsum, iterAt_add hq, iterAt_add hq, iterAt_add (iterAt_mul hback)]

end FakeLisp
