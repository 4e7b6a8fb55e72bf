import FakeLisp.Words

/-! Testing a product for overflow by dividing it back through a bit field. -/

namespace FakeLisp

/-- The values of a signed field of `p + 1` bits. -/
abbrev InField (p : Nat) (x : Int) : Prop := -2 ^ p ≤ x ∧ x < 2 ^ p

/-- Does the product of two values of a field of `n` bits leave it? The product is computed
in `w` bits; `max` and `min` are the bounds of the field. -/
def mulOverflowTest (n w : Nat) (max min a b : Int) : Bool :=
  if b = 0 ∨ a = 0 then false
  else if a ≥ 0 ∧ b ≥ 0 then max.tdiv a < b
  else if a < 0 ∧ b < 0 then max.tdiv a > b
  else if toSigned w (a * b) = min then false
  else
    let t := toSigned n (toSigned w (a * b))
    a ≠ toSigned n (t.tdiv b)

variable {p w : Nat} {a b t : Int}

theorem inField_toSigned (p : Nat) (x : Int) : InField p (toSigned (p + 1) x) :=
  ⟨toSigned_le p x, toSigned_lt p x⟩

theorem toSigned_of_inField (h : InField p t) : toSigned (p + 1) t = t :=
  toSigned_of_mem h.1 h.2

/-- The remainder is too small to hide a difference of whole periods. -/
theorem eq_mul_of_tdiv_eq (hb : InField p b) (hb0 : b ≠ 0)
    (hd : (2 : Int) ^ (p + 1) ∣ t - a * b) (hq : t.tdiv b = a) : t = a * b := by
  have hsplit : b * t.tdiv b + t.tmod b = t := Int.mul_tdiv_add_tmod t b
  have hrem : t - a * b = t.tmod b := by
    rw [hq] at hsplit
    rw [mul_comm a b]
    omega
  have hlt : (t.tmod b).natAbs < ((2 : Int) ^ (p + 1)).natAbs := by
    rw [Int.natAbs_tmod, Int.natAbs_pow, pow_succ]
    have h1 : t.natAbs % b.natAbs < b.natAbs := Nat.mod_lt _ (by omega)
    have h2 : ((2 ^ p : Nat) : Int) = 2 ^ p := by push_cast; rfl
    obtain ⟨hlo, hhi⟩ := hb
    have h3 : b.natAbs ≤ 2 ^ p := by omega
    have : (2 : Int).natAbs = 2 := rfl
    rw [this]
    omega
  rw [hrem] at hd
  have := Int.eq_zero_of_dvd_of_natAbs_lt_natAbs hd hlt
  omega

/-- A quotient by at least two fits the field again. -/
theorem inField_tdiv (ht : InField p t) (hb : 2 ≤ b.natAbs) : InField p (t.tdiv b) := by
  have hle : (t.tdiv b).natAbs ≤ t.natAbs / 2 := by
    rw [Int.natAbs_tdiv]
    exact Nat.div_le_div_left hb (by decide)
  have : (1 : Int) ≤ 2 ^ p := by exact_mod_cast Nat.one_le_two_pow
  obtain ⟨hlo, hhi⟩ := ht
  constructor <;> omega

/-- With operands of different signs the test is right as far as dividing back goes. -/
theorem divide_back_iff (hw : p + 1 ≤ w) (ha : InField p a) (hb : InField p b) (hb0 : b ≠ 0)
    (hab : a * b < 0) :
    a = toSigned (p + 1) ((toSigned (p + 1) (toSigned w (a * b))).tdiv b) ↔ InField p (a * b) := by
  rw [toSigned_toSigned hw]
  constructor
  · intro hback
    by_contra hout
    have hb2 : 2 ≤ b.natAbs := by
      by_contra hsmall
      rcases (by omega : b = 1 ∨ b = -1) with rfl | rfl
      · exact hout (by rwa [mul_one])
      · rw [mul_neg_one] at hab hout
        exact hout ⟨by have := ha.2; omega, by have := ha.1; omega⟩
    have ht := inField_toSigned p (a * b)
    rw [toSigned_of_inField (inField_tdiv ht hb2)] at hback
    have hd : (2 : Int) ^ (p + 1) ∣ toSigned (p + 1) (a * b) - a * b := by
      have := Int.dvd_bmod_sub_self (x := a * b) (m := 2 ^ (p + 1))
      push_cast at this
      exact this
    rw [eq_mul_of_tdiv_eq hb hb0 hd hback.symm] at ht
    exact hout ht
  · intro hin
    rw [toSigned_of_inField hin, Int.mul_tdiv_cancel _ hb0, toSigned_of_inField ha]

/-- The test reports exactly the products out of the field, but for negative ones that wrap
to its least value. -/
theorem mulOverflowTest_eq_false_iff (hw : p + 1 ≤ w) (ha : InField p a) (hb : InField p b) :
    mulOverflowTest (p + 1) w (2 ^ p - 1) (-2 ^ p) a b = false ↔
      InField p (a * b) ∨ a * b < 0 ∧ toSigned w (a * b) = -2 ^ p := by
  have hpos : (0 : Int) < 2 ^ p := by positivity
  unfold mulOverflowTest
  by_cases h0 : b = 0 ∨ a = 0
  · rw [if_pos h0]
    have hz : a * b = 0 := by rcases h0 with rfl | rfl <;> simp
    exact iff_of_true rfl (Or.inl (by rw [hz]; exact ⟨by omega, hpos⟩))
  rw [if_neg h0]
  obtain ⟨hb0, ha0⟩ := not_or.mp h0
  by_cases hpp : a ≥ 0 ∧ b ≥ 0
  · rw [if_pos hpp, decide_eq_false_iff_not, not_lt]
    have hab : 0 < a * b := Int.mul_pos (by omega) (by omega)
    rw [Int.tdiv_eq_ediv_of_nonneg (by omega), Int.le_ediv_iff_mul_le (by omega), mul_comm b a]
    constructor
    · intro h
      exact Or.inl ⟨by omega, by omega⟩
    · rintro (h | h) <;> omega
  rw [if_neg hpp]
  by_cases hnn : a < 0 ∧ b < 0
  · rw [if_pos hnn, decide_eq_false_iff_not, gt_iff_lt, not_lt]
    have hab : 0 < a * b := Int.mul_pos_of_neg_of_neg hnn.1 hnn.2
    have hq : (2 ^ p - 1 : Int).tdiv a = -((2 ^ p - 1) / (-a)) := by
      rw [← Int.tdiv_eq_ediv_of_nonneg (by omega), Int.tdiv_neg, neg_neg]
    have hle := Int.le_ediv_iff_mul_le (a := -b) (b := 2 ^ p - 1) (c := -a) (by omega)
    rw [neg_mul_neg, mul_comm b a] at hle
    rw [hq]
    constructor
    · intro h
      exact Or.inl ⟨by omega, by have := hle.mp (by omega); omega⟩
    · rintro (h | h)
      · have := hle.mpr (by omega)
        omega
      · omega
  rw [if_neg hnn]
  have hab : a * b < 0 := by
    rcases lt_or_gt_of_ne ha0 with h | h
    · exact Int.mul_neg_of_neg_of_pos h (by omega)
    · exact Int.mul_neg_of_pos_of_neg h (by omega)
  by_cases hmin : toSigned w (a * b) = -2 ^ p
  · rw [if_pos hmin]
    exact iff_of_true rfl (Or.inr ⟨hab, hmin⟩)
  · rw [if_neg hmin, decide_eq_false_iff_not, not_not, divide_back_iff hw ha hb hb0 hab]
    exact ⟨Or.inl, fun h => h.resolve_right fun hc => hmin hc.2⟩

end FakeLisp
