import FakeLisp.Positional
import FakeLisp.Words

/-! The arbitrary precision integers of bigint.c: sign and magnitude in base
`2 ^ 30`, the magnitude in a heap block of `size` words. A failed `FKL_ASSERT`
is `none`. -/

namespace FakeLisp

def digitShift : Nat := 30

def digitBase : Nat := 1 <<< digitShift

def digitMask : Nat := digitBase - 1

/-- `digits` is the heap block; only the words below `size` are allocated, and a
growing reallocation leaves the new ones with whatever they hold. A block of size
zero is the `NULL` pointer. The sign of `num` is the sign of the number. -/
structure FklBigInt where
  digits : Nat → Nat
  num : Int
  size : Nat
  constSize : Bool

def fklAbs (a : Int) : Int := if a > 0 then a else -a

@[simp] theorem fklAbs_toNat (a : Int) : (fklAbs a).toNat = a.natAbs := by
  unfold fklAbs
  split <;> omega

theorem fklAbs_eq (a : Int) : fklAbs a = a.natAbs := by
  unfold fklAbs
  split <;> omega

def bigInt0 : FklBigInt := ⟨fun _ => 0, 0, 0, false⟩

def ensureBigintSize (dst : FklBigInt) (size : Nat) : Option FklBigInt :=
  if dst.size < size then
    if dst.constSize then none else some { dst with size := size }
  else some dst

/-- The loop of `bigint_normalize`: drop zero words from the top. -/
def normalizeLen (digits : Nat → Nat) : Nat → Nat
  | 0 => 0
  | i + 1 => if digits i = 0 then normalizeLen digits i else i + 1

def bigintNormalize (a : FklBigInt) : FklBigInt :=
  let i : Int := normalizeLen a.digits (fklAbs a.num).toNat
  { a with num := if a.num < 0 then -i else i }

/-- A `uint64_t` is shifted to zero after at most 64 rounds. -/
def countDigitsLoop : Nat → Nat → Nat → Nat
  | 0, _, count => count
  | fuel + 1, i, count =>
    if i = 0 then count else countDigitsLoop fuel (i >>> digitShift) (count + 1)

def countDigitsSize (i : Nat) : Nat := if i ≠ 0 then countDigitsLoop 64 i 0 else 0

def setUint64ToDigits (digits : Nat → Nat) (size : Nat) (num : Nat) : Nat → Nat :=
  (forUpTo (fun i (s : (Nat → Nat) × Nat) =>
    (Function.update s.1 i (s.2 &&& digitMask), s.2 >>> digitShift)) 0 size (digits, num)).1

def fklSetBigInt (dst src : FklBigInt) : Option FklBigInt := do
  let dst ← ensureBigintSize dst (fklAbs src.num).toNat
  some { dst with
    num := src.num
    digits := fun i => if i < (fklAbs src.num).toNat then src.digits i else dst.digits i }

def fklSetBigIntU (dst : FklBigInt) (v : Nat) : Option FklBigInt :=
  if v ≠ 0 then do
    let c := countDigitsSize v
    let dst ← ensureBigintSize dst c
    some { dst with num := c, digits := setUint64ToDigits dst.digits c v }
  else some { dst with num := 0 }

def fklSetBigIntI (dst : FklBigInt) (v : Int) : Option FklBigInt := do
  let dst ← fklSetBigIntU dst (u64 (fklAbs v))
  some (if v < 0 then { dst with num := -dst.num } else dst)

/-- `MEDIUM_VALUE` -/
def mediumValue (x : FklBigInt) : Int :=
  if x.num = 0 then 0 else if x.num < 0 then -(x.digits 0 : Int) else x.digits 0

/-- `FKL_BIGINT_IS_0` -/
def FklBigInt.is0 (x : FklBigInt) : Bool :=
  x.num = 0 ∨ fklAbs x.num = 1 ∧ x.digits 0 = 0

/-- `FKL_BIGINT_IS_1` -/
def FklBigInt.is1 (x : FklBigInt) : Bool := x.num = 1 ∧ x.digits 0 = 1

/-- `FKL_BIGINT_IS_N1` -/
def FklBigInt.isN1 (x : FklBigInt) : Bool := x.num = -1 ∧ x.digits 0 = 1

/-! Meaning of the representation. -/

def FklBigInt.mag (x : FklBigInt) : Nat := positional digitBase x.digits x.num.natAbs

def FklBigInt.value (x : FklBigInt) : Int := if x.num < 0 then -(x.mag : Int) else x.mag

/-- The used words are allocated and hold digits. -/
structure FklBigInt.Wf (x : FklBigInt) : Prop where
  digit_lt : ∀ i < x.num.natAbs, x.digits i < digitBase
  num_le : x.num.natAbs ≤ x.size

structure FklBigInt.Normalized (x : FklBigInt) : Prop extends x.Wf where
  top_ne : x.num ≠ 0 → x.digits (x.num.natAbs - 1) ≠ 0

theorem digitBase_pos : 0 < digitBase := by decide

theorem land_digitMask (x : Nat) : x &&& digitMask = x % digitBase :=
  Nat.and_two_pow_sub_one_eq_mod x 30

theorem shiftRight_digitShift (x : Nat) : x >>> digitShift = x / digitBase := by
  simp [digitShift, digitBase, Nat.shiftRight_eq_div_pow, Nat.shiftLeft_eq]

theorem FklBigInt.mag_congr {x y : FklBigInt} (hn : x.num.natAbs = y.num.natAbs)
    (hd : ∀ i < y.num.natAbs, x.digits i = y.digits i) : x.mag = y.mag := by
  unfold FklBigInt.mag
  rw [hn]
  exact positional_congr hd

theorem FklBigInt.value_natAbs (x : FklBigInt) : x.value.natAbs = x.mag := by
  unfold FklBigInt.value
  split <;> omega

theorem FklBigInt.Wf.mag_lt {x : FklBigInt} (h : x.Wf) :
    x.mag < digitBase ^ x.num.natAbs := positional_lt h.digit_lt

theorem FklBigInt.Normalized.le_mag {x : FklBigInt} (h : x.Normalized) (hx : x.num ≠ 0) :
    digitBase ^ (x.num.natAbs - 1) ≤ x.mag := by
  have hle := pow_le_positional (b := digitBase) (h.top_ne hx)
  rwa [Nat.sub_add_cancel (by omega)] at hle

theorem FklBigInt.Normalized.mag_eq_zero {x : FklBigInt} (h : x.Normalized) :
    x.mag = 0 ↔ x.num = 0 := by
  constructor
  · intro hm
    by_contra hx
    have := h.le_mag hx
    have := Nat.pow_pos (n := x.num.natAbs - 1) digitBase_pos
    omega
  · intro hx
    simp [FklBigInt.mag, hx]

theorem FklBigInt.mag_of_num_eq_zero {x : FklBigInt} (h : x.num = 0) : x.mag = 0 := by
  simp [FklBigInt.mag, h]

theorem FklBigInt.Normalized.value_eq_zero {x : FklBigInt} (h : x.Normalized) :
    x.value = 0 ↔ x.num = 0 := by
  rw [← h.mag_eq_zero, ← x.value_natAbs]
  omega

/-- Flipping the sign word negates the value. -/
theorem FklBigInt.value_neg (x : FklBigInt) : { x with num := -x.num }.value = -x.value := by
  have hm : ({ x with num := -x.num } : FklBigInt).mag = x.mag := by simp [FklBigInt.mag]
  unfold FklBigInt.value
  rw [hm]
  rcases lt_trichotomy x.num 0 with h | h | h
  · simp [h, not_lt.mpr (le_of_lt h)]
  · simp [h, FklBigInt.mag_of_num_eq_zero h]
  · simp [h, not_lt.mpr (le_of_lt h)]

theorem FklBigInt.Normalized.neg {x : FklBigInt} (h : x.Normalized) :
    ({ x with num := -x.num } : FklBigInt).Normalized where
  digit_lt := by simpa using h.digit_lt
  num_le := by simpa using h.num_le
  top_ne := by simpa using h.top_ne

theorem FklBigInt.value_of_nonneg {x : FklBigInt} (h : 0 ≤ x.num) : x.value = x.mag := by
  simp [FklBigInt.value, not_lt.mpr h]

theorem FklBigInt.value_of_neg {x : FklBigInt} (h : x.num < 0) : x.value = -x.mag := by
  simp [FklBigInt.value, h]

/-! Normalizing. -/

theorem normalizeLen_le (d : Nat → Nat) (n : Nat) : normalizeLen d n ≤ n := by
  induction n with
  | zero => simp [normalizeLen]
  | succ n ih => unfold normalizeLen; split <;> omega

theorem normalizeLen_zeros (d : Nat → Nat) (n : Nat) :
    ∀ i, normalizeLen d n ≤ i → i < n → d i = 0 := by
  induction n with
  | zero => intro i _ hi; omega
  | succ n ih =>
    intro i hle hi
    unfold normalizeLen at hle
    split at hle
    · rcases Nat.lt_succ_iff_lt_or_eq.mp hi with h | rfl
      · exact ih i hle h
      · assumption
    · omega

theorem normalizeLen_top (d : Nat → Nat) (n : Nat) (h : normalizeLen d n ≠ 0) :
    d (normalizeLen d n - 1) ≠ 0 := by
  induction n with
  | zero => simp [normalizeLen] at h
  | succ n ih =>
    unfold normalizeLen at h ⊢
    split at h
    · rw [if_pos (by assumption)]
      exact ih h
    · rw [if_neg (by assumption)]
      simpa using (by assumption : ¬d n = 0)

theorem bigintNormalize_natAbs (a : FklBigInt) :
    (bigintNormalize a).num.natAbs = normalizeLen a.digits a.num.natAbs := by
  simp only [bigintNormalize, fklAbs_toNat]
  split <;> simp

theorem bigintNormalize_mag (a : FklBigInt) : (bigintNormalize a).mag = a.mag := by
  unfold FklBigInt.mag
  rw [bigintNormalize_natAbs]
  exact (positional_eq_of_zeros (normalizeLen_le _ _) (normalizeLen_zeros _ _)).symm

theorem bigintNormalize_value (a : FklBigInt) : (bigintNormalize a).value = a.value := by
  by_cases h : a.num < 0
  · have hn : (bigintNormalize a).num = -(normalizeLen a.digits a.num.natAbs : Int) := by
      simp [bigintNormalize, h]
    rcases Nat.eq_zero_or_pos (normalizeLen a.digits a.num.natAbs) with h0 | h0
    · have hm := bigintNormalize_mag a
      rw [FklBigInt.mag_of_num_eq_zero (by rw [hn, h0]; rfl)] at hm
      rw [FklBigInt.value_of_nonneg (by rw [hn, h0]; simp), FklBigInt.value_of_neg h,
        bigintNormalize_mag, ← hm]
      simp
    · rw [FklBigInt.value_of_neg (by rw [hn]; omega), FklBigInt.value_of_neg h,
        bigintNormalize_mag]
  · have hn : (bigintNormalize a).num = (normalizeLen a.digits a.num.natAbs : Int) := by
      simp [bigintNormalize, h]
    rw [FklBigInt.value_of_nonneg (by rw [hn]; omega), FklBigInt.value_of_nonneg (by omega),
      bigintNormalize_mag]

theorem bigintNormalize_normalized {a : FklBigInt} (h : a.Wf) :
    (bigintNormalize a).Normalized where
  digit_lt := by
    intro i hi
    rw [bigintNormalize_natAbs] at hi
    exact h.digit_lt i (by have := normalizeLen_le a.digits a.num.natAbs; omega)
  num_le := by
    rw [bigintNormalize_natAbs]
    exact (normalizeLen_le _ _).trans h.num_le
  top_ne := by
    intro hne
    rw [bigintNormalize_natAbs]
    exact normalizeLen_top _ _ (by rw [← bigintNormalize_natAbs]; omega)

theorem bigintNormalize_nonneg {a : FklBigInt} (h : 0 ≤ a.num) : 0 ≤ (bigintNormalize a).num := by
  simp only [bigintNormalize, if_neg (not_lt.mpr h)]
  exact Int.natCast_nonneg _

@[simp] theorem bigintNormalize_constSize (a : FklBigInt) :
    (bigintNormalize a).constSize = a.constSize := rfl

@[simp] theorem bigintNormalize_size (a : FklBigInt) : (bigintNormalize a).size = a.size := rfl

end FakeLisp
