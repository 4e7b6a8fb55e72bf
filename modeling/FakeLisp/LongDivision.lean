import Mathlib

/-! The estimate of one quotient digit from leading digits, over an arbitrary
base. A window `V` is divided by `W`, of which only `y1`, `y2` and `vv`, `v2` are
looked at; `P` is the weight of what is not. -/

namespace FakeLisp

/-- `y1`, `y2` lead the divisor; `vv` holds the two leading digits of the window and
`v2` is its third. -/
structure LeadingDigits (B P W V y1 y2 vv v2 : Nat) : Prop where
  base_pos : 0 < B
  weight_pos : 0 < P
  divisor_ge : (y1 * B + y2) * P ≤ W
  divisor_lt : W < (y1 * B + y2 + 1) * P
  window_ge : (vv * B + v2) * P ≤ V
  window_lt : V < (vv * B + v2 + 1) * P
  y2_lt : y2 < B
  v2_lt : v2 < B
  normalized : B ≤ 2 * y1
  quotient_lt : V < W * B

variable {B P W V y1 y2 vv v2 q r : Nat}

namespace LeadingDigits

theorem y1_pos (h : LeadingDigits B P W V y1 y2 vv v2) : 0 < y1 := by
  have := h.base_pos
  have := h.normalized
  omega

theorem divisor_pos (h : LeadingDigits B P W V y1 y2 vv v2) : 0 < W :=
  calc 0 < (y1 * B + y2) * P :=
        Nat.mul_pos (Nat.add_pos_left (Nat.mul_pos h.y1_pos h.base_pos) _) h.weight_pos
    _ ≤ W := h.divisor_ge

/-- The two leading digits of the window are at most those of the divisor, shifted. -/
theorem top_lt (h : LeadingDigits B P W V y1 y2 vv v2) :
    vv * B + v2 < (y1 * B + y2 + 1) * B := by
  have hlt : (vv * B + v2) * P < (y1 * B + y2 + 1) * B * P := by
    calc (vv * B + v2) * P ≤ V := h.window_ge
      _ < W * B := h.quotient_lt
      _ ≤ (y1 * B + y2 + 1) * P * B := Nat.mul_le_mul_right _ h.divisor_lt.le
      _ = (y1 * B + y2 + 1) * B * P := by ring
  exact Nat.lt_of_mul_lt_mul_right hlt

theorem top_le (h : LeadingDigits B P W V y1 y2 vv v2) {t v1 : Nat} (hvv : vv = t * B + v1) :
    t ≤ y1 := by
  by_contra hlt
  have htop := h.top_lt
  have hle : (y1 * B + y2 + 1) * B ≤ vv * B := by
    apply Nat.mul_le_mul_right
    have hmul : (y1 + 1) * B ≤ t * B := Nat.mul_le_mul_right _ (by omega)
    have hexp : (y1 + 1) * B = y1 * B + B := by ring
    have hy2 := h.y2_lt
    omega
  omega

/-- The two leading digits alone give no less than the quotient. -/
theorem div_le_estimate (h : LeadingDigits B P W V y1 y2 vv v2) : V / W ≤ vv / y1 := by
  rw [Nat.le_div_iff_mul_le h.y1_pos]
  have hq : V / W * W ≤ V := Nat.div_mul_le_self V W
  have hW : y1 * (B * P) ≤ W := by
    calc y1 * (B * P) ≤ (y1 * B + y2) * P := by nlinarith [Nat.zero_le (y2 * P)]
      _ ≤ W := h.divisor_ge
  have hV : V < (vv + 1) * (B * P) := by
    calc V < (vv * B + v2 + 1) * P := h.window_lt
      _ ≤ (vv * B + B) * P := Nat.mul_le_mul_right _ (by have := h.v2_lt; omega)
      _ = (vv + 1) * (B * P) := by ring
  have hlt : V / W * y1 * (B * P) < (vv + 1) * (B * P) := by
    calc V / W * y1 * (B * P) = V / W * (y1 * (B * P)) := by ring
      _ ≤ V / W * W := Nat.mul_le_mul_left _ hW
      _ ≤ V := hq
      _ < _ := hV
  exact Nat.lt_succ_iff.mp (Nat.lt_of_mul_lt_mul_right hlt)

/-- It exceeds the base by at most one. -/
theorem estimate_le (h : LeadingDigits B P W V y1 y2 vv v2) : vv / y1 ≤ B + 1 := by
  have htop := h.top_lt
  have hy2 := h.y2_lt
  have hvv : vv * B < (y1 + 1) * B * B := by
    calc vv * B ≤ vv * B + v2 := Nat.le_add_right _ _
      _ < (y1 * B + y2 + 1) * B := htop
      _ ≤ (y1 * B + B) * B := Nat.mul_le_mul_right _ (by omega)
      _ = (y1 + 1) * B * B := by ring
  have hlt : vv < (y1 + 1) * B := Nat.lt_of_mul_lt_mul_right hvv
  have hy1 := h.y1_pos
  have hn := h.normalized
  apply Nat.lt_succ_iff.mp
  rw [Nat.div_lt_iff_lt_mul hy1]
  calc vv < (y1 + 1) * B := hlt
    _ = y1 * B + B := by ring
    _ ≤ y1 * B + 2 * y1 := by omega
    _ = (B + 1).succ * y1 := by rw [Nat.succ_eq_add_one]; ring

/-- Where the third digit refutes the estimate, the quotient is smaller. -/
theorem lt_of_refuted (h : LeadingDigits B P W V y1 y2 vv v2) (hqr : vv = q * y1 + r)
    (hle : V / W ≤ q) (href : r * B + v2 < y2 * q) : V / W < q := by
  refine lt_of_le_of_ne hle (fun heq => ?_)
  have hqW : q * W ≤ V := heq ▸ Nat.div_mul_le_self V W
  have hlt : q * (y1 * B + y2) * P < (vv * B + v2 + 1) * P := by
    calc q * (y1 * B + y2) * P = q * ((y1 * B + y2) * P) := by ring
      _ ≤ q * W := Nat.mul_le_mul_left _ h.divisor_ge
      _ ≤ V := hqW
      _ < _ := h.window_lt
  have hle' : q * (y1 * B + y2) < vv * B + v2 + 1 := Nat.lt_of_mul_lt_mul_right hlt
  have hexp : q * (y1 * B + y2) + (r * B + v2) = vv * B + v2 + y2 * q := by
    rw [hqr]
    ring
  omega

/-- Where it does not, the estimate is off by at most one. -/
theorem le_succ_of_accepted (h : LeadingDigits B P W V y1 y2 vv v2) (hqr : vv = q * y1 + r)
    (hq : q ≤ B + 1) (hacc : y2 * q ≤ r * B + v2) : q ≤ V / W + 1 := by
  rcases Nat.eq_zero_or_pos q with h0 | hpos
  · rw [h0]
    exact Nat.zero_le _
  obtain ⟨p, rfl⟩ : ∃ p, q = p + 1 := ⟨q - 1, by omega⟩
  refine Nat.succ_le_succ ?_
  rw [Nat.le_div_iff_mul_le h.divisor_pos]
  have hY : p ≤ y1 * B + y2 := by
    have : 1 * B ≤ y1 * B := Nat.mul_le_mul_right _ h.y1_pos
    omega
  have hX : (p + 1) * (y1 * B + y2) ≤ vv * B + v2 := by
    have hexp : (p + 1) * (y1 * B + y2) + (r * B + v2) = vv * B + v2 + y2 * (p + 1) := by
      rw [hqr]
      ring
    omega
  calc p * W ≤ p * ((y1 * B + y2 + 1) * P) := Nat.mul_le_mul_left _ h.divisor_lt.le
    _ = (p * (y1 * B + y2) + p) * P := by ring
    _ ≤ ((p + 1) * (y1 * B + y2)) * P := by
        apply Nat.mul_le_mul_right
        have : (p + 1) * (y1 * B + y2) = p * (y1 * B + y2) + (y1 * B + y2) := by ring
        omega
    _ ≤ (vv * B + v2) * P := Nat.mul_le_mul_right _ hX
    _ ≤ V := h.window_ge

/-- A partial remainder of a whole digit proves the estimate without the third digit. -/
theorem le_of_large_rest (h : LeadingDigits B P W V y1 y2 vv v2) (hqr : vv = q * y1 + r)
    (hq : q ≤ B) (hr : B ≤ r) : q ≤ V / W := by
  rw [Nat.le_div_iff_mul_le h.divisor_pos]
  have hW : W ≤ (y1 + 1) * (B * P) := by
    calc W ≤ (y1 * B + y2 + 1) * P := h.divisor_lt.le
      _ ≤ (y1 * B + B) * P := Nat.mul_le_mul_right _ (by have := h.y2_lt; omega)
      _ = (y1 + 1) * (B * P) := by ring
  calc q * W ≤ q * ((y1 + 1) * (B * P)) := Nat.mul_le_mul_left _ hW
    _ = (q * y1 + q) * (B * P) := by ring
    _ ≤ vv * (B * P) := Nat.mul_le_mul_right _ (by omega)
    _ ≤ (vv * B + v2) * P := by nlinarith [Nat.zero_le (v2 * P)]
    _ ≤ V := h.window_ge

end LeadingDigits

/-- Adding a divisor back corrects an estimate that is one too large: `U` is the window
after the subtraction of `q * W`, `t` its sign digit. -/
theorem sign_digit_cases {M : Nat} {U t : Int} (hW : W < M) (hU0 : 0 ≤ U) (hU : U < M)
    (hle : V / W ≤ q) (hq : q ≤ V / W + 1) (hpos : 0 < W)
    (heq : U + t * M = (V : Int) - q * W) :
    (t = 0 ∧ q = V / W ∧ U = V % W) ∨ (t = -1 ∧ q = V / W + 1 ∧ U + W = M + V % W) := by
  have hdm : (V : Int) = W * (V / W : Nat) + (V % W : Nat) := by
    exact_mod_cast (Nat.div_add_mod V W).symm
  have hmod : ((V % W : Nat) : Int) < W := by exact_mod_cast Nat.mod_lt V hpos
  have hmod0 : (0 : Int) ≤ (V % W : Nat) := Int.natCast_nonneg _
  have hWM : (W : Int) < M := by exact_mod_cast hW
  rcases (show q = V / W ∨ q = V / W + 1 by omega) with hq' | hq'
  · have hval : U + t * M = (V % W : Nat) := by
      rw [heq, hq', hdm]
      push_cast
      ring
    have ht : t = 0 := by
      rcases lt_trichotomy t 0 with h | h | h
      · nlinarith
      · exact h
      · nlinarith
    exact Or.inl ⟨ht, hq', by rw [ht] at hval; omega⟩
  · have hval : U + t * M = (V % W : Nat) - W := by
      rw [heq, hq', hdm]
      push_cast
      ring
    have ht : t = -1 := by
      rcases lt_trichotomy t (-1) with h | h | h
      · nlinarith
      · exact h
      · nlinarith
    exact Or.inr ⟨ht, hq', by rw [ht] at hval; omega⟩

end FakeLisp
