import FakeLisp.BigIntAdd

/-! Comparing big integers, the range of the fixnums, and conversion to a
machine integer. -/

namespace FakeLisp

/-- `FKL_FIX_INT_MAX` -/
def fixIntMax : Int := 1152921504606846975

/-- `FKL_FIX_INT_MIN` -/
def fixIntMin : Int := -1152921504606846975 - 1

/-- The integers that a tagged pointer holds. -/
abbrev IsFix (i : Int) : Prop := fixIntMin ≤ i ∧ i ≤ fixIntMax

/-- The values of `int64_t`. -/
abbrev IsI64 (i : Int) : Prop := -2 ^ 63 ≤ i ∧ i < 2 ^ 63

theorem IsFix.isI64 {i : Int} (h : IsFix i) : IsI64 i := by
  simp only [IsFix, IsI64, fixIntMin, fixIntMax] at h ⊢
  omega

theorem i64_of_isI64 {i : Int} (h : IsI64 i) : i64 i = i := toSigned_of_mem (w := 63) h.1 h.2

theorem isI64_i64 (i : Int) : IsI64 (i64 i) := ⟨toSigned_le 63 i, toSigned_lt 63 i⟩

theorem i64_eq_self_iff {i : Int} : i64 i = i ↔ IsI64 i :=
  ⟨fun h => h ▸ isI64_i64 i, i64_of_isI64⟩

def xCmp (a b : FklBigInt) : Int :=
  match topDiff a.digits b.digits (fklAbs a.num).toNat with
  | 0 => 0
  | i + 1 => i32 (a.digits i) - i32 (b.digits i)

def fklBigIntCmp (a b : FklBigInt) : Int :=
  let sign := if a.num ≠ b.num then a.num - b.num
    else if a.num < 0 then -xCmp a b else xCmp a b
  if sign < 0 then -1 else if sign > 0 then 1 else 0

/-- A static constant over a table of digits. -/
def constBigInt (digits : List Nat) (num : Int) : FklBigInt :=
  ⟨fun i => digits.getD i 0, num, digits.length, true⟩

/-- `FKL_BIGINT_FIX_MAX` -/
def bigintFixMax : FklBigInt := constBigInt [0xffffffff &&& digitMask, 0xffffffff &&& digitMask] 2

/-- `FKL_BIGINT_FIX_MIN` -/
def bigintFixMin : FklBigInt := constBigInt [0, 0, 1] (-3)

def i64MinBigint : FklBigInt := constBigInt [0, 0, 8] (-3)

def i64MaxBigint : FklBigInt :=
  constBigInt [0xffffffff &&& digitMask, 0xffffffff &&& digitMask, 7 &&& digitMask] 3

def fklIsBigIntGtLtFix (a : FklBigInt) : Bool :=
  fklBigIntCmp a bigintFixMax > 0 ∨ fklBigIntCmp a bigintFixMin < 0

/-- The loop of `fklBigIntToI`: or the digits into an `int64_t`. -/
def orDigits (digits : Nat → Nat) (num : Nat) : Nat :=
  forUpTo (fun i r => r ||| u64 ((digits i <<< (digitShift * i) : Nat) : Int)) 0 num 0

def fklBigIntToI (bi : FklBigInt) : Int :=
  if bi.num < -3 then -2 ^ 63
  else if bi.num < -2 ∧ fklBigIntCmp bi i64MinBigint < 0 then -2 ^ 63
  else if bi.num = 0 then 0
  else if bi.num > 3 then 2 ^ 63 - 1
  else if bi.num > 2 ∧ fklBigIntCmp bi i64MaxBigint > 0 then 2 ^ 63 - 1
  else
    let r := i64 (orDigits bi.digits (fklAbs bi.num).toNat)
    if bi.num < 0 then i64 (-r) else r

/-! The order. -/

/-- Among normalized numbers the length with its sign decides first. -/
theorem FklBigInt.value_lt_of_num_lt {a b : FklBigInt} (ha : a.Normalized) (hb : b.Normalized)
    (h : a.num < b.num) : a.value < b.value := by
  by_cases hneg : a.num < 0
  · rw [FklBigInt.value_of_neg hneg]
    by_cases hneg' : b.num < 0
    · rw [FklBigInt.value_of_neg hneg']
      have := FklBigInt.mag_lt_of_num_lt hb.toWf ha (by omega)
      omega
    · rw [FklBigInt.value_of_nonneg (by omega)]
      have : a.mag ≠ 0 := fun h0 => by have := ha.mag_eq_zero.mp h0; omega
      omega
  · rw [FklBigInt.value_of_nonneg (by omega), FklBigInt.value_of_nonneg (by omega)]
    have := FklBigInt.mag_lt_of_num_lt ha.toWf hb (by omega)
    omega

theorem i32_digit {d : Nat} (h : d < digitBase) : i32 d = d := by
  rw [digitBase_eq] at h
  exact toSigned_of_mem (w := 31) (by omega) (by omega)

/-- `x_cmp` orders the magnitudes of two numbers of one length. -/
theorem xCmp_sign {a b : FklBigInt} (ha : a.Wf) (hb : b.Wf) (h : a.num.natAbs = b.num.natAbs) :
    (xCmp a b).sign = ((a.mag : Int) - b.mag).sign := by
  unfold xCmp FklBigInt.mag
  rw [fklAbs_toNat, ← h]
  split
  · next h0 => rw [positional_congr (topDiff_zero h0), sub_self]
  · next i hi =>
    obtain ⟨hlt, hne, habove⟩ := topDiff_succ hi
    have hda : ∀ j ≤ i, a.digits j < digitBase := fun j hj => ha.digit_lt j (by omega)
    have hdb : ∀ j ≤ i, b.digits j < digitBase := fun j hj => hb.digit_lt j (by omega)
    rw [i32_digit (hda i (le_refl i)), i32_digit (hdb i (le_refl i))]
    rcases Nat.lt_or_gt_of_ne hne with hd | hd
    · have hmag := positional_lt_of_first_diff hlt (fun j hj => hda j hj.le) hd habove
      rw [Int.sign_eq_neg_one_of_neg (by omega), Int.sign_eq_neg_one_of_neg (by omega)]
    · have hmag := positional_lt_of_first_diff hlt (fun j hj => hdb j hj.le) hd
        (fun j hij hj => (habove j hij hj).symm)
      rw [Int.sign_eq_one_of_pos (by omega), Int.sign_eq_one_of_pos (by omega)]

/-- The three results of a comparison. -/
theorem sign_of_ifs (s : Int) : (if s < 0 then -1 else if s > 0 then 1 else 0 : Int) = s.sign := by
  rcases lt_trichotomy s 0 with h | rfl | h
  · rw [if_pos h, Int.sign_eq_neg_one_of_neg h]
  · rfl
  · rw [if_neg (by omega), if_pos h, Int.sign_eq_one_of_pos h]

theorem fklBigIntCmp_eq {a b : FklBigInt} (ha : a.Normalized) (hb : b.Normalized) :
    fklBigIntCmp a b = (a.value - b.value).sign := by
  unfold fklBigIntCmp
  rw [sign_of_ifs]
  by_cases hnum : a.num = b.num
  · rw [if_neg (not_not.mpr hnum)]
    by_cases hneg : a.num < 0
    · rw [if_pos hneg, Int.sign_neg, xCmp_sign ha.toWf hb.toWf (congrArg _ hnum),
        FklBigInt.value_of_neg hneg, FklBigInt.value_of_neg (by omega), ← Int.sign_neg]
      congr 1
      ring
    · rw [if_neg hneg, xCmp_sign ha.toWf hb.toWf (congrArg _ hnum),
        FklBigInt.value_of_nonneg (by omega), FklBigInt.value_of_nonneg (by omega)]
  · rw [if_pos hnum]
    rcases lt_or_gt_of_ne hnum with h | h
    · have := FklBigInt.value_lt_of_num_lt ha hb h
      rw [Int.sign_eq_neg_one_of_neg (by omega), Int.sign_eq_neg_one_of_neg (by omega)]
    · have := FklBigInt.value_lt_of_num_lt hb ha h
      rw [Int.sign_eq_one_of_pos (by omega), Int.sign_eq_one_of_pos (by omega)]

theorem fklBigIntCmp_pos {a b : FklBigInt} (ha : a.Normalized) (hb : b.Normalized) :
    fklBigIntCmp a b > 0 ↔ b.value < a.value := by
  rw [fklBigIntCmp_eq ha hb, gt_iff_lt, Int.sign_pos_iff]
  omega

theorem fklBigIntCmp_neg {a b : FklBigInt} (ha : a.Normalized) (hb : b.Normalized) :
    fklBigIntCmp a b < 0 ↔ a.value < b.value := by
  rw [fklBigIntCmp_eq ha hb, Int.sign_neg_iff]
  omega

/-! The constants. -/

theorem constBigInt_normalized {digits : List Nat} {num : Int}
    (hd : ∀ i < num.natAbs, digits.getD i 0 < digitBase) (hn : num.natAbs ≤ digits.length)
    (ht : digits.getD (num.natAbs - 1) 0 ≠ 0) : (constBigInt digits num).Normalized where
  digit_lt := hd
  num_le := hn
  top_ne := fun _ => ht

theorem bigintFixMax_normalized : bigintFixMax.Normalized :=
  constBigInt_normalized (by decide) (by decide) (by decide)

theorem bigintFixMin_normalized : bigintFixMin.Normalized :=
  constBigInt_normalized (by decide) (by decide) (by decide)

theorem i64MinBigint_normalized : i64MinBigint.Normalized :=
  constBigInt_normalized (by decide) (by decide) (by decide)

theorem i64MaxBigint_normalized : i64MaxBigint.Normalized :=
  constBigInt_normalized (by decide) (by decide) (by decide)

theorem bigintFixMax_value : bigintFixMax.value = fixIntMax := by decide

theorem bigintFixMin_value : bigintFixMin.value = fixIntMin := by decide

theorem i64MinBigint_value : i64MinBigint.value = -2 ^ 63 := by decide

theorem i64MaxBigint_value : i64MaxBigint.value = 2 ^ 63 - 1 := by decide

theorem fklIsBigIntGtLtFix_iff {a : FklBigInt} (ha : a.Normalized) :
    fklIsBigIntGtLtFix a = true ↔ ¬IsFix a.value := by
  unfold fklIsBigIntGtLtFix
  rw [decide_eq_true_iff, fklBigIntCmp_pos ha bigintFixMax_normalized,
    fklBigIntCmp_neg ha bigintFixMin_normalized, bigintFixMax_value, bigintFixMin_value]
  unfold IsFix
  omega

/-! Conversion. -/

theorem u64_natCast (n : Nat) : u64 (n : Int) = n % 2 ^ 64 := by
  have h := toUnsigned_cast 64 (n : Int)
  exact_mod_cast h

/-- The digits do not overlap, so or-ing them adds them up. -/
theorem orDigits_eq {d : Nat → Nat} {n : Nat} (hd : ∀ i < n, d i < digitBase) :
    orDigits d n = positional digitBase d n % 2 ^ 64 := by
  induction n with
  | zero => rfl
  | succ n ih =>
    have hlow : positional digitBase d n < 2 ^ (30 * n) := by
      rw [pow_mul]
      exact positional_lt (fun i hi => hd i (by omega))
    have hshift : d n <<< (digitShift * n) = 2 ^ (30 * n) * d n := by
      rw [Nat.shiftLeft_eq, digitShift, mul_comm]
    have hpow : digitBase ^ n = 2 ^ (30 * n) := by rw [pow_mul]; rfl
    change orDigits d n ||| u64 ((d (0 + n) <<< (digitShift * (0 + n)) : Nat) : Int) = _
    rw [Nat.zero_add, ih (fun i hi => hd i (by omega)), u64_natCast, ← Nat.or_mod_two_pow, hshift,
      Nat.or_comm, ← Nat.two_pow_add_eq_or_of_lt hlow, positional_succ, hpow]
    congr 1
    ring

theorem i64_mod (n : Nat) : i64 (n % 2 ^ 64 : Nat) = i64 n := by
  have h := Int.emod_bmod (n : Int) (2 ^ 64)
  push_cast at h
  unfold i64 toSigned
  push_cast
  exact h

/-- Conversion is exact on the values of the machine type. -/
theorem fklBigIntToI_eq {a : FklBigInt} (ha : a.Normalized) (h : IsI64 a.value) :
    fklBigIntToI a = a.value := by
  have hlen : a.num.natAbs ≤ 3 := by
    by_contra hlong
    have hle := ha.le_mag (by omega)
    have hpow : digitBase ^ 3 ≤ digitBase ^ (a.num.natAbs - 1) :=
      Nat.pow_le_pow_right digitBase_pos (by omega)
    rw [digitBase_eq] at hpow
    have := a.value_natAbs
    obtain ⟨hlo, hhi⟩ := h
    rw [digitBase_eq] at hle
    omega
  have hor := orDigits_eq (n := a.num.natAbs) ha.digit_lt
  unfold fklBigIntToI
  rw [if_neg (by omega), if_neg fun hc => ?small]
  · by_cases h0 : a.num = 0
    · rw [if_pos h0, ha.value_eq_zero.mpr h0]
    rw [if_neg h0, if_neg (by omega), if_neg fun hc => ?large]
    · dsimp only
      rw [fklAbs_toNat, hor, i64_mod]
      by_cases hneg : a.num < 0
      · rw [if_pos hneg]
        rw [FklBigInt.value_of_neg hneg] at h ⊢
        calc i64 (-i64 a.mag) = i64 (-a.mag) := toSigned_neg_toSigned 64 _
          _ = -a.mag := i64_of_isI64 h
      · rw [if_neg hneg]
        rw [FklBigInt.value_of_nonneg (by omega)] at h ⊢
        exact i64_of_isI64 h
    case large =>
      have := (fklBigIntCmp_pos ha i64MaxBigint_normalized).mp hc.2
      rw [i64MaxBigint_value] at this
      have := h.2
      omega
  case small =>
    have := (fklBigIntCmp_neg ha i64MinBigint_normalized).mp hc.2
    rw [i64MinBigint_value] at this
    have := h.1
    omega

end FakeLisp
