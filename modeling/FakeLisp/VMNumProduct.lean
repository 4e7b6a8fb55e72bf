import FakeLisp.VMNumber

/-! Products of numbers. -/

namespace FakeLisp

variable {D : Type} [Binary64 D]

/-- `fklInitBigInt1` -/
def bigInt1 : FklBigInt := ⟨Function.update (fun _ => 0) 0 1, 1, 1, false⟩

/-- `IS_DEFAULT_BIGINT`: no block. -/
def FklBigInt.isDefault (x : FklBigInt) : Bool := x.size = 0

/-- `INIT_DEFAULT_BIGINT_1` -/
def initDefaultBigint1 (bi : FklBigInt) : FklBigInt := if bi.isDefault then bigInt1 else bi

def fklProcessVMnumMul (cur : FklVMvalue D) (s : VMnum D) : Option (Int × VMnum D) :=
  match cur with
  | .fix c =>
    if fklIsFixMulOverflow s.r64 c.val then do
      let bi ← withSmall fklMulBigInt (initDefaultBigint1 s.bi) c.val
      some (0, { s with bi := bi })
    else some (0, { s with r64 := i64 (s.r64 * c.val) })
  | .bigint b => do
    let bi ← withVMbigInt fklMulBigInt (initDefaultBigint1 s.bi) b
    some (0, { s with bi := bi })
  | .f64 d => some (0, { s with rd := Binary64.mul s.rd d })
  | .other => some (1, { s with bi := bigInt0 })

def fklProcessVMnumMulResult (s : VMnum D) : Option (FklVMvalue D) :=
  if ¬Binary64.beq s.rd (Binary64.ofI64 1) then
    some (.f64 (Binary64.mul (Binary64.mul s.rd (Binary64.ofI64 s.r64)) (fklBigIntToD s.bi)))
  else if s.bi.isDefault ∨ s.bi.is1 then some (.fix (fklMakeVMFix s.r64))
  else do
    let bi ← withSmall fklMulBigInt (initDefaultBigint1 s.bi) s.r64
    bigIntResult bi

/-- `builtin_mul` -/
def builtinMul (args : List (FklVMvalue D)) : Except VMError (FklVMvalue D) := do
  let s ← processAll fklProcessVMnumMul args ⟨1, Binary64.ofI64 1, bigInt0⟩
  assertOk (fklProcessVMnumMulResult s)

/-! The overflow test. -/

theorem isFix_iff_inField {i : Int} : IsFix i ↔ InField 60 i := by
  simp only [IsFix, InField, fixIntMin, fixIntMax]
  omega

/-- The products that wrap to the least fixnum. -/
def WrapsToMin (z : Int) : Prop := z < 0 ∧ z ≠ fixIntMin ∧ i64 z = fixIntMin

theorem fklIsFixMulOverflow_eq_false_iff {a b : Int} (ha : IsFix a) (hb : IsFix b) :
    fklIsFixMulOverflow a b = false ↔ IsFix (a * b) ∨ WrapsToMin (a * b) := by
  rw [isFix_iff_inField] at ha hb
  have h := mulOverflowTest_eq_false_iff (p := 60) (w := 64) (by decide) ha hb
  rw [← isFix_iff_inField] at h
  refine h.trans ⟨?_, ?_⟩
  · rintro (h | ⟨hneg, hmin⟩)
    · exact Or.inl h
    · by_cases he : a * b = fixIntMin
      · exact Or.inl (he ▸ ⟨by decide, by decide⟩)
      · exact Or.inr ⟨hneg, he, hmin⟩
  · rintro (h | ⟨hneg, _, hmin⟩)
    · exact Or.inl h
    · exact Or.inr ⟨hneg, hmin⟩

/-- Such a product is no fixnum. -/
theorem WrapsToMin.not_isFix {z : Int} (h : WrapsToMin z) : ¬IsFix z := by
  intro hz
  exact h.2.1 ((i64_of_isI64 hz.isI64).symm.trans h.2.2)

/-! The accumulators. -/

abbrev heldProduct (args : List (VMInteger D)) : Held := holdAll (· * ·) fklIsFixMulOverflow 1 args

theorem holds_one : Holds bigInt1 1 where
  value := by decide
  normalized := ⟨⟨by decide, by decide⟩, by decide⟩
  heap := rfl

/-- The accumulators stand for the two parts of the product; the word, up to wrapping, is a
fixnum. -/
structure ProductInv (s : VMnum D) (h : Held) : Prop where
  r64 : s.r64 = i64 h.kept
  fix : IsFix s.r64
  rd : s.rd = Binary64.ofI64 1
  bi : Holds (initDefaultBigint1 s.bi) h.moved

theorem productInv_one : ProductInv (⟨1, Binary64.ofI64 1, bigInt0⟩ : VMnum D) ⟨1, 1⟩ where
  r64 := (i64_of_isI64 (i := 1) ⟨by decide, by decide⟩).symm
  fix := by
    change IsFix 1
    decide
  rd := rfl
  bi := holds_one

theorem fklSetBigInt_block {dst src x : FklBigInt} (h : fklSetBigInt dst src = some x)
    (hd : 0 < dst.size) : 0 < x.size := by
  obtain ⟨y, hy, hx⟩ := Option.bind_eq_some_iff.mp h
  rw [← Option.some.inj hx]
  unfold ensureBigintSize at hy
  split at hy
  · split at hy
    · cases hy
    · rw [← Option.some.inj hy]
      dsimp only
      omega
  · rw [← Option.some.inj hy]
    exact hd

theorem fklMulBigInt_keepsBlock : KeepsBlock fklMulBigInt := by
  intro m m' hrun hsize
  unfold fklMulBigInt at hrun
  split at hrun
  · rw [← Option.some.inj hrun]
    exact hsize
  next h0 =>
  split at hrun
  · rw [← Option.some.inj hrun, Function.update_self]
    exact hsize
  split at hrun
  · rw [← Option.some.inj hrun, negNum, Function.update_self]
    exact hsize
  split at hrun
  · obtain ⟨x, hx, hm⟩ := Option.bind_eq_some_iff.mp hrun
    rw [← Option.some.inj hm, Function.update_self]
    exact fklSetBigInt_block hx hsize
  split at hrun
  · obtain ⟨x, hx, hm⟩ := Option.bind_eq_some_iff.mp hrun
    rw [← Option.some.inj hm, negNum, Function.update_self, Function.update_self]
    exact fklSetBigInt_block (x := x) hx hsize
  · rw [← Option.some.inj hrun, Function.update_self]
    simp only [FklBigInt.is0, decide_eq_true_eq, not_or] at h0
    simp only [bigintNormalize_size, fklAbs_toNat]
    have := h0.1.1
    omega

/-- After an operation on it the big integer is no longer the default. -/
theorem initDefault_of_block {x : FklBigInt} (h : 0 < x.size) : initDefaultBigint1 x = x := by
  unfold initDefaultBigint1 FklBigInt.isDefault
  rw [if_neg]
  simpa using h.ne'

theorem initDefault_block (x : FklBigInt) : 0 < (initDefaultBigint1 x).size := by
  unfold initDefaultBigint1 FklBigInt.isDefault
  split
  · decide
  · next h => simpa [Nat.pos_iff_ne_zero] using h

theorem ProductInv.step {s : VMnum D} {h : Held} (hs : ProductInv s h) {v : FklVMvalue D}
    (hv : v.IsInteger) :
    ∃ s', checkStep (fklProcessVMnumMul v s) = .ok s' ∧
      ProductInv s' (hold (· * ·) fklIsFixMulOverflow h v) := by
  have hblock := initDefault_block s.bi
  cases v with
  | fix c =>
    unfold fklProcessVMnumMul hold
    dsimp only
    rw [← hs.r64]
    by_cases hov : fklIsFixMulOverflow s.r64 c.val = true
    · rw [if_pos hov, if_pos hov]
      obtain ⟨y, hy, hprod⟩ := withSmall_spec fklMulBigInt_exactOp hs.bi c.isFix.isI64
      rw [← initDefault_of_block (withSmall_block fklMulBigInt_keepsBlock hy hblock)] at hprod
      exact ⟨{ s with bi := y }, congrArg checkStep (bind_eq_of_eq hy rfl), hs.r64, hs.fix, hs.rd,
        hprod⟩
    · rw [if_neg hov, if_neg hov]
      refine ⟨_, rfl, ?_, ?_, hs.rd, hs.bi⟩
      · dsimp only
        rw [hs.r64]
        exact toSigned_mul_toSigned 64 _ _
      · dsimp only
        rcases (fklIsFixMulOverflow_eq_false_iff hs.fix c.isFix).mp (Bool.eq_false_iff.mpr hov) with
          hfix | hwrap
        · rwa [i64_of_isI64 hfix.isI64]
        · rw [hwrap.2.2]
          decide
  | bigint b =>
    obtain ⟨y, hy, hprod⟩ := withVMvalue_spec fklMulBigInt_exactOp hs.bi hv
    rw [← initDefault_of_block (withVMbigInt_block fklMulBigInt_keepsBlock hy hblock)] at hprod
    exact ⟨{ s with bi := y }, congrArg checkStep (bind_eq_of_eq hy rfl), hs.r64, hs.fix, hs.rd,
      hprod⟩
  | f64 d => exact hv.elim
  | other => exact hv.elim

theorem processAll_mul (args : List (VMInteger D)) :
    ∃ s, processAll fklProcessVMnumMul (args.map (·.val)) ⟨1, Binary64.ofI64 1, bigInt0⟩ = .ok s ∧
      ProductInv s (heldProduct args) :=
  processAll_spec ProductInv (fun _ _ _ hv hs => hs.step hv) args productInv_one

omit [Binary64 D] in
theorem heldProduct_prod (args : List (VMInteger D)) :
    (heldProduct args).kept * (heldProduct args).moved = (args.map (·.val.intValue)).prod := by
  rw [List.prod_eq_foldl]
  exact op_holdAll (· * ·) fklIsFixMulOverflow args ⟨1, 1⟩

/-- A fixnum comes whose product with the word wraps to the least fixnum. -/
def MultipliesToMin (args : List (VMInteger D)) : Prop :=
  ∃ pre v suf, args = pre ++ v :: suf ∧ WrapsToMin ((heldProduct pre).kept * v.val.getFix)

omit [Binary64 D] in
theorem isFix_heldProduct {args : List (VMInteger D)} (h : ¬MultipliesToMin args) :
    IsFix (heldProduct args).kept := by
  induction args using List.reverseRecOn with
  | nil =>
    change IsFix 1
    decide
  | append_singleton args v ih =>
    have hbefore : ¬MultipliesToMin args := by
      rintro ⟨pre, w, suf, rfl, hwrap⟩
      exact h ⟨pre, w, suf ++ [v], by simp, hwrap⟩
    have hk := ih hbefore
    have hlast : ¬WrapsToMin ((heldProduct args).kept * v.val.getFix) :=
      fun hwrap => h ⟨args, v, [], rfl, hwrap⟩
    rw [heldProduct, holdAll, List.foldl_append]
    change IsFix (hold (· * ·) fklIsFixMulOverflow (heldProduct args) v.val).kept
    obtain ⟨v, hv⟩ := v
    cases v with
    | fix c =>
      simp only [hold, i64_of_isI64 hk.isI64]
      split
      · exact hk
      · next hov =>
        exact ((fklIsFixMulOverflow_eq_false_iff hk c.isFix).mp
          (Bool.eq_false_iff.mpr hov)).resolve_right hlast
    | _ => exact hk

/-! The result. -/

theorem FklBigInt.Normalized.is1_iff {x : FklBigInt} (h : x.Normalized) :
    x.is1 = true ↔ x.value = 1 := by
  refine ⟨FklBigInt.value_of_is1, fun hv => ?_⟩
  have hone : x.value = bigInt1.value := hv.trans holds_one.value.symm
  have hnum : x.num = 1 := by
    rcases lt_trichotomy x.num 1 with hlt | heq | hgt
    · have := FklBigInt.value_lt_of_num_lt (b := bigInt1) h holds_one.normalized hlt
      omega
    · exact heq
    · have := FklBigInt.value_lt_of_num_lt (a := bigInt1) holds_one.normalized h hgt
      omega
  have hmag : x.digits 0 = 1 := by
    rw [FklBigInt.value_of_nonneg (by omega)] at hv
    simp only [FklBigInt.mag, hnum, Int.natAbs_one, positional_succ] at hv
    simpa [positional] using hv
  simp [FklBigInt.is1, hnum, hmag]

theorem ProductInv.first_branch_iff {s : VMnum D} {h : Held} (hs : ProductInv s h) :
    s.bi.isDefault = true ∨ s.bi.is1 = true ↔ h.moved = 1 := by
  by_cases hd : s.bi.isDefault = true
  · have hval := hs.bi.value
    rw [initDefaultBigint1, if_pos hd, holds_one.value] at hval
    exact iff_of_true (Or.inl hd) hval.symm
  · have hbi := hs.bi
    rw [initDefaultBigint1, if_neg hd] at hbi
    rw [← hbi.value, ← hbi.normalized.is1_iff]
    exact or_iff_right hd

/-- The result stands for the wrapped word times the big integer. -/
theorem fklProcessVMnumMulResult_spec {s : VMnum D} {h : Held} (hs : ProductInv s h) :
    ∃ v, fklProcessVMnumMulResult s = some v ∧ v.Represents (i64 h.kept * h.moved) := by
  have hbeq : Binary64.beq s.rd (Binary64.ofI64 1) = true := by
    rw [hs.rd]
    exact Binary64.beq_ofI64 1
  unfold fklProcessVMnumMulResult
  rw [if_neg (not_not.mpr hbeq), ← hs.r64]
  by_cases h1 : h.moved = 1
  · rw [if_pos (hs.first_branch_iff.mpr h1), h1, mul_one]
    exact ⟨_, rfl, represents_fix (fklMakeVMFix_val hs.fix)⟩
  · rw [if_neg (fun hc => h1 (hs.first_branch_iff.mp hc)), mul_comm]
    obtain ⟨y, hy, hprod⟩ := withSmall_spec fklMulBigInt_exactOp hs.bi hs.fix.isI64
    obtain ⟨v, hv, hr⟩ := bigIntResult_spec (D := D) hprod
    exact ⟨v, bind_eq_of_eq hy hv, hr⟩

theorem fklProcessVMnumMulResult_iff {s : VMnum D} {h : Held} (hs : ProductInv s h) :
    (∃ v, fklProcessVMnumMulResult s = some v ∧ v.Represents (h.kept * h.moved)) ↔
      IsFix h.kept ∨ h.moved = 0 := by
  have hfix : i64 h.kept = h.kept ↔ IsFix h.kept :=
    ⟨fun he => he ▸ hs.r64 ▸ hs.fix, fun hk => i64_of_isI64 hk.isI64⟩
  obtain ⟨v, hv, hr⟩ := fklProcessVMnumMulResult_spec hs
  rw [← hfix, ← mul_eq_mul_right_iff]
  constructor
  · rintro ⟨w, hw, hw'⟩
    rw [← Option.some.inj (hv.symm.trans hw)] at hw'
    exact hr.unique hw'
  · intro he
    exact ⟨v, hv, he ▸ hr⟩

/-- The test is right on two fixnums exactly when their product does not wrap to the least
fixnum from elsewhere, and the product of a list is exact, in the right form, exactly when the
part left in the machine word is a fixnum or the rest is zero. It is a fixnum unless a product
on the way wraps so. -/
theorem builtinMul_exact_iff (args : List (VMInteger D)) :
    (∀ a b : Fixnum, (fklIsFixMulOverflow a.val b.val = false ↔ IsFix (a.val * b.val)) ↔
      ¬WrapsToMin (a.val * b.val)) ∧
    ((∃ v, builtinMul (args.map (·.val)) = .ok v ∧
      v.Represents (args.map (·.val.intValue)).prod) ↔
      IsFix (heldProduct args).kept ∨ (heldProduct args).moved = 0) ∧
    (MultipliesToMin args ∨ IsFix (heldProduct args).kept) := by
  refine ⟨?_, ?_, ?_⟩
  · intro a b
    rw [fklIsFixMulOverflow_eq_false_iff a.isFix b.isFix]
    constructor
    · intro h hwrap
      exact hwrap.not_isFix (h.mp (Or.inr hwrap))
    · intro h
      exact or_iff_left h
  · obtain ⟨s, hrun, hs⟩ := processAll_mul args
    have hmul : ∀ v, builtinMul (args.map (·.val)) = .ok v ↔
        fklProcessVMnumMulResult s = some v := by
      intro v
      rw [← assertOk_eq_ok]
      unfold builtinMul
      rw [hrun]
      rfl
    simp only [hmul, ← heldProduct_prod args]
    exact fklProcessVMnumMulResult_iff hs
  · exact or_iff_not_imp_left.mpr isFix_heldProduct

/-- `32 * (-2⁵⁵ - 2⁵⁹)` is `-2⁶⁴ - 2⁶⁰`, which wraps to the least fixnum. -/
theorem builtinMul_wraps :
    let args := [fixArg 32, fixArg (-2 ^ 55 - 2 ^ 59)]
    fklIsFixMulOverflow 32 (-2 ^ 55 - 2 ^ 59) = false ∧ ¬IsFix (32 * (-2 ^ 55 - 2 ^ 59)) ∧
      ¬∃ v, builtinMul (args.map (·.val)) = .ok v ∧
        v.Represents (args.map (·.val.intValue)).prod := by
  have hrun : builtinMul [(fixArg 32).val, (fixArg (-2 ^ 55 - 2 ^ 59)).val] =
      .ok (fixArg fixIntMin).val := by
    rfl
  refine ⟨by decide, by decide, ?_⟩
  rintro ⟨v, hv, hr⟩
  rw [← Except.ok.inj (hrun.symm.trans hv)] at hr
  exact absurd hr.value (by decide)

end FakeLisp
