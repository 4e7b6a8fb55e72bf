import FakeLisp.VMArith

/-! Comparing a big integer with another one and with machine integers, the conversions that
clamp, and the addition of a small constant to an integer of the machine. -/

namespace FakeLisp

def fklInitBigIntU (num : Nat) : FklBigInt :=
  if num ≠ 0 then
    let size := countDigitsSize num
    ⟨setUint64ToDigits bigInt0.digits size num, size, size, false⟩
  else bigInt0

def fklInitBigIntI (n : Int) : FklBigInt :=
  let b := fklInitBigIntU (u64 (fklAbs n))
  if n < 0 then { b with num := -b.num } else b

/-- `set_bigint_u64_without_ensure` -/
def setBigintU64WithoutEnsure (dst : FklBigInt) (uv : Nat) : Option FklBigInt :=
  if uv ≠ 0 then do
    let c := countDigitsSize uv
    fklAssert (c ≤ dst.size)
    some { dst with num := c, digits := setUint64ToDigits dst.digits c uv }
  else some { dst with num := 0 }

def fklBigIntCmpI (a : FklBigInt) (b : Int) : Option Int := do
  let bi ← setBigintI64WithoutEnsure smallOperand b
  some (fklBigIntCmp a bi)

def fklBigIntCmpU (a : FklBigInt) (b : Nat) : Option Int := do
  let bi ← setBigintU64WithoutEnsure smallOperand b
  some (fklBigIntCmp a bi)

def fklBigIntAbsCmp (a b : FklBigInt) : Int :=
  let numA := fklAbs a.num
  let numB := fklAbs b.num
  let sign := if numA ≠ numB then numA - numB else xCmp a b
  if sign < 0 then -1 else if sign > 0 then 1 else 0

def u64MaxBigint : FklBigInt :=
  constBigInt [0xffffffff &&& digitMask, 0xffffffff &&& digitMask, 0x0000000f &&& digitMask] 3

def fklBigIntToU (bi : FklBigInt) : Nat :=
  if bi.num ≤ 0 then 0
  else if bi.num > 3 then 2 ^ 64 - 1
  else if bi.num > 2 ∧ fklBigIntCmp bi u64MaxBigint > 0 then 2 ^ 64 - 1
  else orDigits bi.digits bi.num.toNat

/-! Comparison. -/

theorem fklBigIntAbsCmp_eq {a b : FklBigInt} (ha : a.Normalized) (hb : b.Normalized) :
    fklBigIntAbsCmp a b = (|a.value| - |b.value|).sign := by
  rw [Int.abs_eq_natAbs, Int.abs_eq_natAbs, a.value_natAbs, b.value_natAbs]
  unfold fklBigIntAbsCmp
  dsimp only
  rw [sign_of_ifs, fklAbs_eq, fklAbs_eq]
  by_cases hlen : (a.num.natAbs : Int) = b.num.natAbs
  · rw [if_neg (not_not.mpr hlen)]
    exact xCmp_sign ha.toWf hb.toWf (by omega)
  · rw [if_pos hlen]
    rcases lt_or_gt_of_ne hlen with h | h
    · have := FklBigInt.mag_lt_of_num_lt ha.toWf hb (by omega)
      rw [Int.sign_eq_neg_one_of_neg (by omega), Int.sign_eq_neg_one_of_neg (by omega)]
    · have := FklBigInt.mag_lt_of_num_lt hb.toWf ha (by omega)
      rw [Int.sign_eq_one_of_pos (by omega), Int.sign_eq_one_of_pos (by omega)]

/-- Digit by digit, since normalized numbers are represented in one way. -/
theorem fklBigIntEqual_iff {a b : FklBigInt} (ha : a.Normalized) (hb : b.Normalized) :
    fklBigIntEqual a b = true ↔ a.value = b.value := by
  unfold fklBigIntEqual
  rw [decide_eq_true_iff, fklAbs_toNat]
  constructor
  · rintro ⟨hnum, hdig⟩
    have hmag : a.mag = b.mag := FklBigInt.mag_congr (by rw [hnum]) (fun i hi => hdig i (by omega))
    simp only [FklBigInt.value, hmag, hnum]
  · intro hval
    have hnum : a.num = b.num := by
      by_contra hne
      rcases lt_or_gt_of_ne hne with h | h
      · exact (FklBigInt.value_lt_of_num_lt ha hb h).ne hval
      · exact (FklBigInt.value_lt_of_num_lt hb ha h).ne hval.symm
    have hmag : a.mag = b.mag := by rw [← a.value_natAbs, ← b.value_natAbs, hval]
    unfold FklBigInt.mag at hmag
    rw [← hnum] at hmag
    have hdig := positional_inj ha.digit_lt (fun i hi => hb.digit_lt i (hnum ▸ hi)) hmag
    exact ⟨hnum, hdig⟩

/-! Machine integers. -/

theorem fklInitBigIntU_set {num : Nat} (h : num < 2 ^ 64) :
    fklSetBigIntU bigInt0 num = some (fklInitBigIntU num) := by
  unfold fklSetBigIntU fklInitBigIntU
  by_cases h0 : num = 0
  · simp [h0]
    rfl
  · have hpos : 0 < countDigitsSize num := Nat.pos_of_ne_zero (countDigitsSize_spec h0 h).2.1
    simp [h0, ensureBigintSize, bigInt0, hpos]

theorem fklInitBigIntI_set {n : Int} (h : n.natAbs < 2 ^ 64) :
    fklSetBigIntI bigInt0 n = some (fklInitBigIntI n) := by
  have hu : u64 (fklAbs n) = n.natAbs := by
    rw [fklAbs_eq]
    exact toUnsigned_natCast h
  unfold fklSetBigIntI fklInitBigIntI
  rw [hu]
  exact bind_eq_of_eq (fklInitBigIntU_set h) rfl

theorem fklInitBigIntU_assigned {num : Nat} (h : num < 2 ^ 64) :
    Assigned bigInt0 (fklInitBigIntU num) num := by
  obtain ⟨r, hr, hassign, _⟩ := @fklSetBigIntU_spec bigInt0 num h (Or.inl rfl)
  rwa [← Option.some.inj ((fklInitBigIntU_set h).symm.trans hr)] at hassign

theorem fklInitBigIntI_assigned {n : Int} (h : n.natAbs < 2 ^ 64) :
    Assigned bigInt0 (fklInitBigIntI n) n := by
  obtain ⟨r, hr, hassign⟩ := fklSetBigIntI_spec (t := bigInt0) h (Or.inl rfl)
  rwa [← Option.some.inj ((fklInitBigIntI_set h).symm.trans hr)] at hassign

theorem IsI64.natAbs_lt {i : Int} (h : IsI64 i) : i.natAbs < 2 ^ 64 := by
  obtain ⟨h1, h2⟩ := h
  omega

theorem setBigintU64WithoutEnsure_spec {u : Nat} (h : u < 2 ^ 64) :
    ∃ bi, setBigintU64WithoutEnsure smallOperand u = some bi ∧ bi.value = u ∧ bi.Normalized := by
  have hcount : countDigitsSize u ≤ smallOperand.size := countDigitsSize_le_three h
  obtain ⟨bi, hset, hassign, _⟩ := @fklSetBigIntU_spec smallOperand u h (Or.inr hcount)
  refine ⟨bi, ?_, hassign.value, hassign.normalized⟩
  rw [← hset]
  unfold setBigintU64WithoutEnsure fklSetBigIntU
  by_cases h0 : u = 0
  · simp [h0]
  · simp [h0, hcount, ensureBigintSize, not_lt.mpr hcount]

theorem fklBigIntCmpI_eq {a : FklBigInt} (ha : a.Normalized) {i : Int} (hi : IsI64 i) :
    fklBigIntCmpI a i = some (a.value - i).sign := by
  obtain ⟨bi, hset, rfl, hnorm, _⟩ := smallOperand_spec hi.natAbs_lt
  exact bind_eq_of_eq hset (congrArg some (fklBigIntCmp_eq ha hnorm))

theorem fklBigIntCmpU_eq {a : FklBigInt} (ha : a.Normalized) {u : Nat} (hu : u < 2 ^ 64) :
    fklBigIntCmpU a u = some (a.value - u).sign := by
  obtain ⟨bi, hset, hval, hnorm⟩ := setBigintU64WithoutEnsure_spec hu
  rw [← hval]
  exact bind_eq_of_eq hset (congrArg some (fklBigIntCmp_eq ha hnorm))

/-- The comparisons order the values, and the ones with a machine integer are those with the
big integer made of it. -/
theorem fklBigIntCmp_compares (a b : FklBigInt) (ha : a.Normalized) (hb : b.Normalized) :
    fklBigIntCmp a b = (a.value - b.value).sign ∧
    (fklBigIntEqual a b = true ↔ a.value = b.value) ∧
    fklBigIntAbsCmp a b = (|a.value| - |b.value|).sign ∧
    (∀ i, IsI64 i → (fklInitBigIntI i).value = i ∧
      fklBigIntCmpI a i = some (fklBigIntCmp a (fklInitBigIntI i)) ∧
      (fklBigIntCmpI a i = some 0 ↔ fklBigIntEqual a (fklInitBigIntI i) = true)) ∧
    ∀ u < 2 ^ 64, (fklInitBigIntU u).value = u ∧
      fklBigIntCmpU a u = some (fklBigIntCmp a (fklInitBigIntU u)) ∧
      (fklBigIntCmpU a u = some 0 ↔ fklBigIntEqual a (fklInitBigIntU u) = true) := by
  refine ⟨fklBigIntCmp_eq ha hb, fklBigIntEqual_iff ha hb, fklBigIntAbsCmp_eq ha hb,
    fun i hi => ?_, fun u hu => ?_⟩
  · have hinit := fklInitBigIntI_assigned hi.natAbs_lt
    rw [fklBigIntCmpI_eq ha hi, fklBigIntCmp_eq ha hinit.normalized,
      fklBigIntEqual_iff ha hinit.normalized, hinit.value]
    refine ⟨rfl, rfl, ?_⟩
    rw [Option.some_inj, Int.sign_eq_zero_iff_zero, sub_eq_zero]
  · have hinit := fklInitBigIntU_assigned hu
    rw [fklBigIntCmpU_eq ha hu, fklBigIntCmp_eq ha hinit.normalized,
      fklBigIntEqual_iff ha hinit.normalized, hinit.value]
    refine ⟨rfl, rfl, ?_⟩
    rw [Option.some_inj, Int.sign_eq_zero_iff_zero, sub_eq_zero]

/-- The least `int64_t`, whose magnitude does not fit its type. -/
theorem fklBigIntCmp_least :
    (fklInitBigIntI (-2 ^ 63)).value = -2 ^ 63 ∧
    fklBigIntCmpI i64MinBigint (-2 ^ 63) =
      some (fklBigIntCmp i64MinBigint (fklInitBigIntI (-2 ^ 63))) ∧
    (fklBigIntCmpI i64MinBigint (-2 ^ 63) = some 0 ↔
      fklBigIntEqual i64MinBigint (fklInitBigIntI (-2 ^ 63)) = true) :=
  (fklBigIntCmp_compares i64MinBigint i64MaxBigint i64MinBigint_normalized
    i64MaxBigint_normalized).2.2.2.1 (-2 ^ 63) (by decide)

/-! Conversion. -/

theorem u64MaxBigint_normalized : u64MaxBigint.Normalized :=
  constBigInt_normalized (by decide) (by decide) (by decide)

theorem u64MaxBigint_value : u64MaxBigint.value = 2 ^ 64 - 1 := by decide

theorem pow_le_natAbs_of_num {a : FklBigInt} (ha : a.Normalized) (h : 3 < a.num.natAbs) :
    2 ^ 90 ≤ a.mag := by
  have hle := ha.le_mag (by omega)
  have hpow : digitBase ^ 3 ≤ digitBase ^ (a.num.natAbs - 1) :=
    Nat.pow_le_pow_right digitBase_pos (by omega)
  rw [digitBase_eq] at hpow hle
  omega

theorem mag_lt_of_num {a : FklBigInt} (ha : a.Wf) (h : a.num.natAbs ≤ 2) : a.mag < 2 ^ 60 := by
  have hpow : digitBase ^ a.num.natAbs ≤ digitBase ^ 2 := Nat.pow_le_pow_right digitBase_pos h
  have hlt := ha.mag_lt
  rw [digitBase_eq] at hpow hlt
  omega

theorem fklBigIntToI_clamps {a : FklBigInt} (ha : a.Normalized) :
    fklBigIntToI a = max (-2 ^ 63) (min a.value (2 ^ 63 - 1)) := by
  by_cases h : IsI64 a.value
  · rw [fklBigIntToI_eq ha h]
    obtain ⟨h1, h2⟩ := h
    omega
  have hmin := fklBigIntCmp_neg ha i64MinBigint_normalized
  have hmax := fklBigIntCmp_pos ha i64MaxBigint_normalized
  rw [i64MinBigint_value] at hmin
  rw [i64MaxBigint_value] at hmax
  have hlong : 3 ≤ a.num.natAbs := by
    by_contra hshort
    have := mag_lt_of_num ha.toWf (by omega)
    have := a.value_natAbs
    exact h ⟨by omega, by omega⟩
  unfold fklBigIntToI
  rcases le_or_gt 0 a.num with hpos | hneg
  · have hval := FklBigInt.value_of_nonneg hpos
    have hgt : 2 ^ 63 - 1 < a.value := by
      by_contra hle
      exact h ⟨by omega, by omega⟩
    rw [if_neg (by omega), if_neg (fun hc => by omega), if_neg (by omega)]
    have hclamp : max (-2 ^ 63) (min a.value (2 ^ 63 - 1)) = 2 ^ 63 - 1 := by omega
    rw [hclamp]
    split
    · rfl
    · rw [if_pos ⟨by omega, hmax.mpr hgt⟩]
  · have hval := FklBigInt.value_of_neg hneg
    have hlt : a.value < -2 ^ 63 := by
      by_contra hle
      exact h ⟨by omega, by omega⟩
    have hclamp : max (-2 ^ 63) (min a.value (2 ^ 63 - 1)) = -2 ^ 63 := by omega
    rw [hclamp]
    split
    · rfl
    · rw [if_pos ⟨by omega, hmin.mpr hlt⟩]

theorem fklBigIntToU_clamps {a : FklBigInt} (ha : a.Normalized) :
    (fklBigIntToU a : Int) = max 0 (min a.value (2 ^ 64 - 1)) := by
  have hmax := fklBigIntCmp_pos ha u64MaxBigint_normalized
  rw [u64MaxBigint_value] at hmax
  unfold fklBigIntToU
  by_cases hneg : a.num ≤ 0
  · rw [if_pos hneg]
    have hval : a.value ≤ 0 := by
      unfold FklBigInt.value
      split
      · omega
      · rw [FklBigInt.mag_of_num_eq_zero (by omega)]
        rfl
    omega
  have hval := FklBigInt.value_of_nonneg (x := a) (by omega)
  rw [if_neg hneg]
  by_cases hlong : a.num > 3
  · rw [if_pos hlong]
    have := pow_le_natAbs_of_num ha (by omega)
    omega
  rw [if_neg hlong]
  by_cases hlarge : a.num > 2 ∧ fklBigIntCmp a u64MaxBigint > 0
  · rw [if_pos hlarge]
    have := hmax.mp hlarge.2
    omega
  · rw [if_neg hlarge, orDigits_eq fun i hi => ha.digit_lt i (by omega)]
    have hmag : positional digitBase a.digits a.num.toNat = a.mag := by
      unfold FklBigInt.mag
      congr 1
      omega
    have hlt : a.mag < 2 ^ 64 := by
      by_cases hnum : a.num > 2
      · have := mt hmax.mpr fun hgt => hlarge ⟨hnum, hgt⟩
        omega
      · have := mag_lt_of_num ha.toWf (by omega)
        omega
    rw [hmag, Nat.mod_eq_of_lt hlt]
    omega

theorem fklIsBigIntGtLtI64_iff {a : FklBigInt} (ha : a.Normalized) :
    fklIsBigIntGtLtI64 a = true ↔ ¬IsI64 a.value := by
  unfold fklIsBigIntGtLtI64
  rw [decide_eq_true_iff, fklBigIntCmp_pos ha i64MaxBigint_normalized,
    fklBigIntCmp_neg ha i64MinBigint_normalized, i64MaxBigint_value, i64MinBigint_value]
  unfold IsI64
  omega

/-! Adding a small constant. -/

theorem bigintAdd1Min_normalized : bigintAdd1Min.Normalized :=
  constBigInt_normalized (by decide) (by decide) (by decide)

theorem bigintSub1Max_normalized : bigintSub1Max.Normalized :=
  constBigInt_normalized (by decide) (by decide) (by decide)

theorem bigintAdd1Min_value : bigintAdd1Min.value = fixIntMin - 1 := by decide

theorem bigintSub1Max_value : bigintSub1Max.value = fixIntMax + 1 := by decide

/-- The values of `int8_t`. -/
abbrev IsI8 (k : Int) : Prop := -2 ^ 7 ≤ k ∧ k < 2 ^ 7

theorem fklIsBigIntAddkInFixIntRange_iff {a : FklBigInt} (ha : a.Normalized) {k : Int}
    (hk : IsI8 k) (hout : ¬IsFix a.value) :
    fklIsBigIntAddkInFixIntRange a k = true ↔ IsFix (a.value + k) := by
  obtain ⟨hk1, hk2⟩ := hk
  have hfar : a.value ≤ fixIntMin - 1 ∨ fixIntMax + 1 ≤ a.value := by
    simp only [IsFix] at hout
    omega
  have hmin : fixIntMin = -2 ^ 60 := rfl
  have hmax : fixIntMax = 2 ^ 60 - 1 := rfl
  unfold fklIsBigIntAddkInFixIntRange
  by_cases h1 : k = 1
  · rw [if_pos h1, fklBigIntEqual_iff ha bigintAdd1Min_normalized, bigintAdd1Min_value, IsFix]
    omega
  rw [if_neg h1]
  by_cases h2 : k = -1
  · rw [if_pos h2, fklBigIntEqual_iff ha bigintSub1Max_normalized, bigintSub1Max_value, IsFix]
    omega
  rw [if_neg h2]
  by_cases h64 : IsI64 a.value
  · rw [if_neg fun hc => (fklIsBigIntGtLtI64_iff ha).mp hc h64, fklBigIntToI_eq ha h64]
    have hword : IsI64 (a.value + k) → i64 (a.value + k) = a.value + k := i64_of_isI64
    simp only [IsI64] at h64 hword
    dsimp only
    split
    · rw [decide_eq_true_iff, hword (by omega), IsFix]
      omega
    split
    · rw [decide_eq_true_iff, hword (by omega), IsFix]
      omega
    split
    · rw [decide_eq_true_iff, IsFix]
      omega
    split
    · rw [decide_eq_true_iff, IsFix]
      omega
    · omega
  · rw [if_pos ((fklIsBigIntGtLtI64_iff ha).mpr h64)]
    refine iff_of_false (by decide) ?_
    simp only [IsI64, IsFix] at h64 ⊢
    omega

/-- A block that cannot grow and has no word to spare takes no sum of two digits or more. -/
theorem fklAddBigInt_full {m : BigIntMem Bool} (hconst : (m false).constSize = true)
    (hsize : (m false).size ≤ (m false).num.natAbs) (hlong : 1 < (m false).num.natAbs) :
    fklAddBigInt m false true = none := by
  have hnone : ∀ n, (m false).num.natAbs < n → ensureBigintSize (m false) n = none := by
    intro n hn
    unfold ensureBigintSize
    rw [if_pos (by omega), if_pos hconst]
  have hadd : xAdd m false true = none := by
    unfold xAdd
    simp only [fklAbs_toNat]
    split
    · rw [hnone _ (by dsimp only; omega)]
      rfl
    · rw [hnone _ (by dsimp only; omega)]
      rfl
  unfold fklAddBigInt
  rw [if_neg (by rw [fklAbs_eq]; omega), hadd]
  split
  · split
    · rfl
    · unfold xSub2
      simp only [fklAbs_toNat]
      rw [hnone _ (by omega)]
      rfl
  · split
    · unfold xSub
      simp only [fklAbs_toNat]
      rw [hnone _ (by omega)]
      rfl
    · rfl

variable {D : Type} [Binary64 D]

omit [Binary64 D] in
theorem fklVMbigIntAddI_fails {b : FklVMvalueBigInt} (hb : (fklVMbigIntToBigInt b).Normalized)
    (hlong : 1 < b.num.natAbs) (k : Int) : fklVMbigIntAddI (D := D) b k = none := by
  unfold fklVMbigIntAddI
  obtain ⟨t, ht, _, hnum, _⟩ := fklSetBigInt_spec
    (t := ⟨fun _ => 0, 0, (fklAbs b.num).toNat + 1, true⟩) hb
    (Or.inr (by rw [fklAbs_toNat]; exact Nat.le_succ _))
  refine bind_eq_of_eq ht ?_
  by_cases hassert : fklIsBigIntGtLtFix t = true
  · refine bind_eq_of_eq (fklAssert_eq_some hassert) ?_
    have hnum' : t.num = b.num := hnum
    have hset : fklSetBigInt ⟨t.digits, 0, (fklAbs t.num).toNat, true⟩ (fklVMbigIntToBigInt b) =
        some ⟨fun i => if i < (fklAbs b.num).toNat then b.digits i else t.digits i, b.num,
          (fklAbs b.num).toNat, true⟩ := by
      rw [hnum']
      exact bind_eq_of_eq (if_neg (lt_irrefl _)) rfl
    refine bind_eq_of_eq hset ?_
    have hsmall : ∀ x : FklBigInt, x.constSize = true → x.size ≤ x.num.natAbs →
        1 < x.num.natAbs → withSmall fklAddBigInt x k = none := by
      intro x hconst hsize hlong
      unfold withSmall
      cases setBigintI64WithoutEnsure smallOperand k with
      | none => rfl
      | some bi => exact congrArg (· >>= _) (fklAddBigInt_full hconst hsize hlong)
    rw [hsmall _ rfl (fklAbs_toNat b.num).le hlong]
    rfl
  · rw [fklAssert, if_neg hassert]
    rfl

/-- What the machine holds as a big integer has more than two digits. -/
theorem long_of_not_isFix {a : FklBigInt} (ha : a.Normalized) (h : ¬IsFix a.value) :
    2 < a.num.natAbs := by
  by_contra hshort
  have := mag_lt_of_num ha.toWf (by omega)
  have := a.value_natAbs
  simp only [IsFix, fixIntMin, fixIntMax] at h
  omega

omit [Binary64 D] in
theorem fklCreateVMvalueBigIntWithI64_spec {i : Int} (hi : IsI64 i) (h : ¬IsFix i) :
    ∃ w : FklVMvalue D, fklCreateVMvalueBigIntWithI64 i = some w ∧ w.Represents i := by
  have hcount : smallOperand.CanHold (countDigitsSize i.natAbs) :=
    Or.inr (countDigitsSize_le_three hi.natAbs_lt)
  obtain ⟨bi, hset, hbi⟩ := fklSetBigIntI_spec hi.natAbs_lt hcount
  have hval := hbi.value
  rw [← hval] at h
  obtain ⟨w, hw, hr⟩ := fklCreateVMvalueBigInt2_spec (D := D) hbi.normalized h
  rw [hval] at hr
  have hgt := (fklIsBigIntGtLtFix_iff hbi.normalized).mpr h
  exact ⟨w, bind_eq_of_eq hset (bind_eq_of_eq (fklAssert_eq_some hgt) hw), hr⟩

theorem fklProcessVMnumAddk_fix (c : Fixnum) {k : Int} (hk : IsI8 k) :
    ∃ w : FklVMvalue D, fklProcessVMnumAddk (.fix c) k = .ok w ∧ w.Represents (c.val + k) := by
  have hc := c.isFix
  simp only [IsFix, fixIntMin, fixIntMax] at hc
  have h64 : IsI64 (c.val + k) := by
    obtain ⟨h1, h2⟩ := hk
    exact ⟨by omega, by omega⟩
  unfold fklProcessVMnumAddk
  dsimp only
  rw [i64_of_isI64 h64]
  by_cases hout : c.val + k > fixIntMax ∨ c.val + k < fixIntMin
  · rw [if_pos hout]
    obtain ⟨w, hw, hr⟩ := fklCreateVMvalueBigIntWithI64_spec (D := D) h64
      (by simp only [IsFix]; omega)
    exact ⟨w, congrArg assertOk hw, hr⟩
  · rw [if_neg hout]
    exact ⟨_, rfl, represents_fix (fklMakeVMFix_val (by simp only [IsFix]; omega))⟩

theorem fklProcessVMnumAddk_bigint_iff {b : FklVMvalueBigInt}
    (hb : (fklVMbigIntToBigInt b).Normalized) (hout : ¬IsFix (fklVMbigIntToBigInt b).value)
    {k : Int} (hk : IsI8 k) :
    (∃ w : FklVMvalue D, fklProcessVMnumAddk (.bigint b) k = .ok w ∧
      w.Represents ((fklVMbigIntToBigInt b).value + k)) ↔
      IsFix ((fklVMbigIntToBigInt b).value + k) := by
  have hrange := fklIsBigIntAddkInFixIntRange_iff hb hk hout
  unfold fklProcessVMnumAddk
  dsimp only
  by_cases hin : IsFix ((fklVMbigIntToBigInt b).value + k)
  · refine iff_of_true ?_ hin
    have h64 : IsI64 (fklVMbigIntToBigInt b).value := by
      obtain ⟨h1, h2⟩ := hk
      simp only [IsFix, fixIntMin, fixIntMax] at hin
      exact ⟨by omega, by omega⟩
    rw [if_pos (hrange.mpr hin), fklBigIntToI_eq hb h64, i64_of_isI64 hin.isI64]
    exact ⟨_, rfl, represents_fix (fklMakeVMFix_val hin)⟩
  · refine iff_of_false ?_ hin
    have hlong : 2 < b.num.natAbs := long_of_not_isFix hb hout
    rw [if_neg (mt hrange.mp hin), fklVMbigIntAddI_fails hb (by omega)]
    rintro ⟨w, hw, _⟩
    cases hw

/-- What is out of range for a conversion is clamped, the tests of the ranges are exact, and a
small constant is added exactly unless the sum of a big integer has to be one again. -/
theorem fklBigIntToI_addk_iff (a : FklBigInt) (ha : a.Normalized) (k : Int) (hk : IsI8 k) :
    (fklBigIntToI a = max (-2 ^ 63) (min a.value (2 ^ 63 - 1)) ∧
      (fklBigIntToU a : Int) = max 0 (min a.value (2 ^ 64 - 1)) ∧
      (∀ i, IsI64 i → fklBigIntToI (fklInitBigIntI i) = i) ∧
      (∀ u < 2 ^ 64, fklBigIntToU (fklInitBigIntU u) = u) ∧
      (fklIsBigIntGtLtFix a = true ↔ ¬IsFix a.value) ∧
      (fklIsBigIntGtLtI64 a = true ↔ ¬IsI64 a.value) ∧
      (¬IsFix a.value → (fklIsBigIntAddkInFixIntRange a k = true ↔ IsFix (a.value + k)))) ∧
    ∀ v : FklVMvalue D, v.Represents a.value →
      ((∃ w, fklProcessVMnumAddk v k = .ok w ∧ w.Represents (a.value + k)) ↔
        IsFix a.value ∨ IsFix (a.value + k)) := by
  refine ⟨⟨fklBigIntToI_clamps ha, fklBigIntToU_clamps ha, fun i hi => ?_, fun u hu => ?_,
    fklIsBigIntGtLtFix_iff ha, fklIsBigIntGtLtI64_iff ha,
    fklIsBigIntAddkInFixIntRange_iff ha hk⟩, fun v hv => ?_⟩
  · have hinit := fklInitBigIntI_assigned hi.natAbs_lt
    rw [fklBigIntToI_eq hinit.normalized (by rwa [hinit.value]), hinit.value]
  · have hinit := fklInitBigIntU_assigned hu
    have hclamp := fklBigIntToU_clamps hinit.normalized
    rw [hinit.value] at hclamp
    omega
  · obtain ⟨hint, hval, hform⟩ := hv
    rw [← hval]
    cases v with
    | fix c => exact iff_of_true (fklProcessVMnumAddk_fix c hk) (Or.inl c.isFix)
    | bigint b =>
      have hout : ¬IsFix a.value := fun hf => by simpa [FklVMvalue.isFix] using hform.mpr hf
      rw [← hval] at hout
      rw [or_iff_right hout]
      exact fklProcessVMnumAddk_bigint_iff hint hout hk
    | f64 d => exact hint.elim
    | other => exact hint.elim

theorem fklBigIntToI_addk_max :
    (fklBigIntToI i64MaxBigint = max (-2 ^ 63) (min i64MaxBigint.value (2 ^ 63 - 1)) ∧
      (fklBigIntToU i64MaxBigint : Int) = max 0 (min i64MaxBigint.value (2 ^ 64 - 1)) ∧
      (∀ i, IsI64 i → fklBigIntToI (fklInitBigIntI i) = i) ∧
      (∀ u < 2 ^ 64, fklBigIntToU (fklInitBigIntU u) = u) ∧
      (fklIsBigIntGtLtFix i64MaxBigint = true ↔ ¬IsFix i64MaxBigint.value) ∧
      (fklIsBigIntGtLtI64 i64MaxBigint = true ↔ ¬IsI64 i64MaxBigint.value) ∧
      (¬IsFix i64MaxBigint.value →
        (fklIsBigIntAddkInFixIntRange i64MaxBigint 1 = true ↔ IsFix (i64MaxBigint.value + 1)))) ∧
    ∀ v : FklVMvalue Rat, v.Represents i64MaxBigint.value →
      ((∃ w, fklProcessVMnumAddk v 1 = .ok w ∧ w.Represents (i64MaxBigint.value + 1)) ↔
        IsFix i64MaxBigint.value ∨ IsFix (i64MaxBigint.value + 1)) :=
  fklBigIntToI_addk_iff i64MaxBigint i64MaxBigint_normalized 1 (by decide)

/-- The successor of `2⁶¹`, a big integer of three digits: the block cannot take a fourth. -/
theorem fklProcessVMnumAddk_full :
    let b : FklVMvalueBigInt := ⟨3, fun i => [0, 0, 2].getD i 0⟩
    (FklVMvalue.bigint b : FklVMvalue Rat).Represents (2 ^ 61) ∧
      ¬∃ w : FklVMvalue Rat, fklProcessVMnumAddk (.bigint b) 1 = .ok w ∧
        w.Represents (2 ^ 61 + 1) := by
  intro b
  have hb : (fklVMbigIntToBigInt b).Normalized :=
    ⟨⟨by decide, by decide⟩, by decide⟩
  refine ⟨⟨hb, by decide, by decide⟩, ?_⟩
  have hrun : fklProcessVMnumAddk (.bigint b : FklVMvalue Rat) 1 = .error .assertionFailed := by
    rfl
  rintro ⟨w, hw, _⟩
  exact absurd (hrun.symm.trans hw) (by simp)

end FakeLisp
