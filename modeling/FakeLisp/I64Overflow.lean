import FakeLisp.BigIntCmp
import FakeLisp.Overflow

/-! The tests whether the sum or the product of two machine integers overflows. -/

namespace FakeLisp

def int64Max : Int := 2 ^ 63 - 1

def int64Min : Int := -2 ^ 63

/-- `a / b`, which must neither divide by zero nor overflow. -/
def i64Div (a b : Int) : Option Int :=
  if b = 0 ∨ a = int64Min ∧ b = -1 then none else some (a.tdiv b)

def fklIsI64AddOverflow (a b : Int) : Bool :=
  let sum := i64 (a + b)
  a < 0 ∧ b < 0 ∧ sum > 0 ∨ a > 0 ∧ b > 0 ∧ sum < 0

def fklIsI64MulOverflow (a b : Int) : Option Bool :=
  if b = 0 ∨ a = 0 then some false
  else if a ≥ 0 ∧ b ≥ 0 then do
    let q ← i64Div int64Max a
    some (decide (q < b))
  else if a < 0 ∧ b < 0 then do
    let q ← i64Div int64Max a
    some (decide (q > b))
  else if i64 (a * b) = int64Min then some false
  else do
    let t ← i64Div (i64 (a * b)) b
    some (decide (a ≠ t))

/-- Both tests say whether the exact result is an `int64_t`, and no division of theirs fails. -/
def OverflowRight (a b : Int) : Prop :=
  (fklIsI64AddOverflow a b = true ↔ ¬IsI64 (a + b)) ∧
    ∃ r, fklIsI64MulOverflow a b = some r ∧ (r = true ↔ ¬IsI64 (a * b))

variable {a b : Int}

theorem i64Div_eq (hb : b ≠ 0) (ha : a ≠ int64Min) : i64Div a b = some (a.tdiv b) :=
  if_neg fun h => h.elim hb fun h => ha h.1

/-- A sum of two machine integers wraps once at most. -/
theorem i64_add (ha : IsI64 a) (hb : IsI64 b) : i64 (a + b) =
    if a + b < -2 ^ 63 then a + b + 2 ^ 64 else if a + b < 2 ^ 63 then a + b else a + b - 2 ^ 64 := by
  simp only [IsI64] at ha hb
  simp only [i64, toSigned, Int.bmod]
  split_ifs <;> omega

/-- The sum of the least integer and itself wraps to zero, which is not positive. -/
theorem fklIsI64AddOverflow_iff (ha : IsI64 a) (hb : IsI64 b) :
    (fklIsI64AddOverflow a b = true ↔ ¬IsI64 (a + b)) ↔ ¬(a = int64Min ∧ b = int64Min) := by
  have hsum := i64_add ha hb
  simp only [IsI64] at ha hb
  simp only [fklIsI64AddOverflow, decide_eq_true_eq, hsum, IsI64, int64Min]
  split_ifs <;> omega

/-- The quotient of anything but the least integer is a machine integer. -/
theorem i64_tdiv {t : Int} (ht : IsI64 t) (hmin : t ≠ int64Min) : i64 (t.tdiv b) = t.tdiv b := by
  have hle := Int.natAbs_tdiv_le_natAbs t b
  simp only [IsI64, int64Min] at ht hmin
  exact i64_of_isI64 ⟨by omega, by omega⟩

/-- No division fails, and the test is the one that divides back. -/
theorem fklIsI64MulOverflow_eq (a b : Int) :
    fklIsI64MulOverflow a b = some (mulOverflowTest 64 64 int64Max int64Min a b) := by
  unfold fklIsI64MulOverflow mulOverflowTest
  by_cases h0 : b = 0 ∨ a = 0
  · rw [if_pos h0, if_pos h0]
  rw [if_neg h0, if_neg h0]
  obtain ⟨hb, ha⟩ := not_or.mp h0
  have hmax : i64Div int64Max a = some (int64Max.tdiv a) := i64Div_eq ha (by decide)
  by_cases hpos : a ≥ 0 ∧ b ≥ 0
  · rw [if_pos hpos, if_pos hpos, hmax]
    rfl
  rw [if_neg hpos, if_neg hpos]
  by_cases hneg : a < 0 ∧ b < 0
  · rw [if_pos hneg, if_pos hneg, hmax]
    rfl
  rw [if_neg hneg, if_neg hneg]
  by_cases hmin : i64 (a * b) = int64Min
  · rw [if_pos hmin, if_pos hmin]
  · have hback : i64 ((i64 (i64 (a * b))).tdiv b) = (i64 (a * b)).tdiv b := by
      rw [i64_of_isI64 (isI64_i64 _), i64_tdiv (isI64_i64 _) hmin]
    rw [if_neg hmin, if_neg hmin, i64Div_eq hb hmin]
    exact congrArg (fun t => some (decide (a ≠ t))) hback.symm

/-- Both tests are right but for the sum of the least integer and itself, and for a negative
product that overflows and wraps to the least integer. -/
theorem overflowRight_iff (ha : IsI64 a) (hb : IsI64 b) : OverflowRight a b ↔
    ¬(a = int64Min ∧ b = int64Min) ∧
      ¬(a * b < 0 ∧ a * b ≠ int64Min ∧ i64 (a * b) = int64Min) := by
  have hmul := mulOverflowTest_eq_false_iff (p := 63) (w := 64) (by decide) ha hb
  have hmin : IsI64 int64Min := ⟨by decide, by decide⟩
  unfold OverflowRight
  refine and_congr (fklIsI64AddOverflow_iff ha hb) ?_
  rw [fklIsI64MulOverflow_eq]
  simp only [Option.some.injEq, exists_eq_left']
  rw [← not_iff_not (a := _ = true), not_not, Bool.not_eq_true]
  refine (iff_congr hmul Iff.rfl).trans ?_
  constructor
  · rintro h ⟨hneg, hne, hwrap⟩
    have hin : IsI64 (a * b) := h.mp (Or.inr ⟨hneg, hwrap⟩)
    exact hne ((i64_of_isI64 hin).symm.trans hwrap)
  · intro h
    refine ⟨fun hor => ?_, Or.inl⟩
    rcases hor with hin | ⟨hneg, hwrap⟩
    · exact hin
    · by_cases he : a * b = int64Min
      · exact he ▸ hmin
      · exact absurd ⟨hneg, he, hwrap⟩ h

theorem overflowRight_minTimesTwo : OverflowRight int64Min 2 :=
  (overflowRight_iff ⟨by decide, by decide⟩ ⟨by decide, by decide⟩).mpr ⟨by decide, by decide⟩

/-- The sum of `INT64_MIN` and itself is taken for zero, and `2 ^ 62 * -6` for `INT64_MIN`. -/
theorem not_overflowRight_min : ¬OverflowRight int64Min int64Min ∧ ¬OverflowRight (2 ^ 62) (-6) := by
  refine ⟨fun h => absurd (h.1.mpr (by decide)) (by decide), ?_⟩
  rintro ⟨_, r, hr, hright⟩
  have hfalse : fklIsI64MulOverflow (2 ^ 62) (-6) = some false := rfl
  obtain rfl := Option.some.inj (hr.symm.trans hfalse)
  exact absurd (hright.mpr (by decide)) (by decide)

end FakeLisp
