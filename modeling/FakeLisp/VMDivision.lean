import FakeLisp.VMArith

/-! Division of the integers of the machine: what the accumulated divisor makes of a
quotient, and the remainder. -/

namespace FakeLisp

variable {D : Type} [Binary64 D]

/-! Division in place keeps the kind of block of the dividend. -/

section

variable {ρ : Type} [DecidableEq ρ]

theorem ensureBigintSize_constSize {x y : FklBigInt} {n : Nat} (h : ensureBigintSize x n = some y) :
    y.constSize = x.constSize := by
  unfold ensureBigintSize at h
  split at h
  · split at h
    · cases h
    · rw [← Option.some.inj h]
  · rw [← Option.some.inj h]

theorem fklSetBigInt_constSize {dst src x : FklBigInt} (h : fklSetBigInt dst src = some x) :
    x.constSize = dst.constSize := by
  obtain ⟨y, hy, hx⟩ := Option.bind_eq_some_iff.mp h
  rw [← Option.some.inj hx, ← ensureBigintSize_constSize hy]

theorem fklSetBigIntI_constSize {dst x : FklBigInt} {v : Int} (h : fklSetBigIntI dst v = some x) :
    x.constSize = dst.constSize := by
  obtain ⟨y, hy, hx⟩ := Option.bind_eq_some_iff.mp h
  have hset : y.constSize = dst.constSize := by
    unfold fklSetBigIntU at hy
    split at hy
    · obtain ⟨z, hz, he⟩ := Option.bind_eq_some_iff.mp hy
      rw [← Option.some.inj he, ← ensureBigintSize_constSize hz]
    · rw [← Option.some.inj hy]
  rw [← Option.some.inj hx]
  split
  · exact hset
  · exact hset

theorem assignRem_constSize {m m' : BigIntMem ρ} {rem : Option ρ} {a : ρ}
    {set : FklBigInt → Option FklBigInt} (hset : ∀ x y, set x = some y → y.constSize = x.constSize)
    (h : assignRem m rem set = some m') : (m' a).constSize = (m a).constSize := by
  cases rem with
  | none => rw [← Option.some.inj h]
  | some r =>
    obtain ⟨y, hy, hm⟩ := Option.bind_eq_some_iff.mp h
    rw [← Option.some.inj hm]
    by_cases hr : a = r
    · subst hr
      rw [Function.update_self]
      exact hset _ _ hy
    · rw [Function.update_of_ne hr]

theorem negNum_constSize (m : BigIntMem ρ) (x a : ρ) :
    (negNum m x a).constSize = (m a).constSize := by
  unfold negNum
  by_cases h : a = x
  · subst h
    rw [Function.update_self]
  · rw [Function.update_of_ne h]

/-- The sign of the quotient, once the remainder has its own. -/
theorem quotientSign_constSize (m : BigIntMem ρ) (a : ρ) (p : Prop) [Decidable p] :
    (Function.update (if p then negNum m a else m) a
      (bigintNormalize ((if p then negNum m a else m) a)) a).constSize = (m a).constSize := by
  rw [Function.update_self, bigintNormalize_constSize]
  split
  · exact negNum_constSize m a a
  · rfl

theorem divRemSigns_constSize (m : BigIntMem ρ) (a : ρ) (rem : Option ρ) (negA negB : Bool) :
    (divRemSigns m a rem negA negB a).constSize = (m a).constSize := by
  unfold divRemSigns
  cases rem with
  | none =>
    dsimp only
    rw [if_neg (by simp)]
    exact quotientSign_constSize m a _
  | some r =>
    dsimp only
    have hrem : ((if negA ∧ ¬(m r).is0 then negNum m r else m) a).constSize =
        (m a).constSize := by
      split
      · exact negNum_constSize m r a
      · rfl
    split
    · exact hrem
    · rw [quotientSign_constSize, hrem]

theorem xDivrem_constSize {m m' : BigIntMem ρ} {a b : ρ} {rem : Option ρ}
    (h : xDivrem m a b rem = some m') : (m' a).constSize = (m a).constSize := by
  obtain ⟨_, _, h⟩ := Option.bind_eq_some_iff.mp h
  obtain ⟨x, hx, h⟩ := Option.bind_eq_some_iff.mp h
  obtain ⟨⟨v0, w, q⟩, _, h⟩ := Option.bind_eq_some_iff.mp h
  obtain ⟨m2, hm2, h⟩ := Option.bind_eq_some_iff.mp h
  have hkeep : (m2 a).constSize = (m a).constSize := by
    rw [assignRem_constSize (fun _ _ hy => fklSetBigInt_constSize hy) hm2, Function.update_self,
      ← ensureBigintSize_constSize hx]
  split at h
  · rw [← Option.some.inj h, hkeep]
  · obtain ⟨y, hy, h⟩ := Option.bind_eq_some_iff.mp h
    rw [← Option.some.inj h, Function.update_self, fklSetBigInt_constSize hy, hkeep]

theorem fklDivRemBigInt_constSize {m m' : BigIntMem ρ} {a b : ρ} {rem : Option ρ} {c : Int}
    (h : fklDivRemBigInt m a b rem = some (m', c)) : (m' a).constSize = (m a).constSize := by
  unfold fklDivRemBigInt at h
  dsimp only at h
  split at h
  · cases h
    rfl
  split at h
  · split at h
    · cases h
      rfl
    · obtain ⟨m2, hm2, h⟩ := Option.bind_eq_some_iff.mp h
      cases h
      rw [Function.update_self]
      exact assignRem_constSize (fun _ _ hy => fklSetBigInt_constSize hy) hm2
  split at h
  · obtain ⟨⟨pin, rem1⟩, _, h⟩ := Option.bind_eq_some_iff.mp h
    obtain ⟨m2, hm2, h⟩ := Option.bind_eq_some_iff.mp h
    cases h
    rw [divRemSigns_constSize,
      assignRem_constSize (fun _ _ hy => fklSetBigIntI_constSize hy) hm2, Function.update_self]
  · obtain ⟨m2, hm2, h⟩ := Option.bind_eq_some_iff.mp h
    cases h
    rw [divRemSigns_constSize, xDivrem_constSize hm2]

end

/-! Exact division by what is not zero. -/

/-- `op` computes `f` into an operand on the heap unless the other operand is zero. -/
def ExactUnlessZero (op : BigIntOp) (f : Int → Int → Int) : Prop :=
  ∀ m, (m false).Normalized → (m true).Normalized → (m true).value ≠ 0 →
    (m false).constSize = false →
    ∃ m', op m false true = some m' ∧
      Holds (m' false) (f (m false).value (m true).value)

theorem fklDivBigInt_exact : ExactUnlessZero fklDivBigInt Int.tdiv := by
  intro m ha hb hb0 hc
  have hrem : ∀ r, (none : Option Bool) = some r → r ≠ false →
      (m r).CanHold (m true).num.natAbs := fun r hr => nomatch hr
  obtain ⟨m', hrun, hl⟩ := fklDivRemBigInt_leaves ha hb hb0 (Or.inl hc) hrem
  obtain ⟨hval, hnorm⟩ := hl.quotient (by simp)
  exact ⟨m', bind_eq_of_eq hrun rfl, hval, hnorm, (fklDivRemBigInt_constSize hrun).trans hc⟩

theorem fklRemBigInt_exact : ExactUnlessZero fklRemBigInt Int.tmod := by
  intro m ha hb hb0 hc
  have hrem : ∀ r, some false = some r → r ≠ false → (m r).CanHold (m true).num.natAbs :=
    fun r hr hne => absurd (Option.some.inj hr).symm hne
  obtain ⟨m', hrun, hl⟩ := fklDivRemBigInt_leaves ha hb hb0 (Or.inl hc) hrem
  obtain ⟨hval, hnorm⟩ := hl.remainder false rfl
  exact ⟨m', bind_eq_of_eq hrun rfl, hval, hnorm, (fklDivRemBigInt_constSize hrun).trans hc⟩

section

variable {op : BigIntOp} {f : Int → Int → Int} {x : FklBigInt} {z : Int}

theorem ExactUnlessZero.withBigInt (hop : ExactUnlessZero op f) (hx : Holds x z) {d : FklBigInt}
    (hd : d.Normalized) (hd0 : d.value ≠ 0) :
    ∃ y, withBigInt op x d = some y ∧ Holds y (f z d.value) := by
  obtain ⟨m', hrun, hold⟩ := hop (fun r => if r then d else x) hx.normalized hd hd0 hx.heap
  refine ⟨m' false, bind_eq_of_eq hrun rfl, ?_⟩
  rw [← hx.value]
  exact hold

theorem ExactUnlessZero.withSmall (hop : ExactUnlessZero op f) (hx : Holds x z) {v : Int}
    (hv : IsI64 v) (hv0 : v ≠ 0) : ∃ y, withSmall op x v = some y ∧ Holds y (f z v) := by
  obtain ⟨bi, hset, rfl, hnorm, _⟩ := smallOperand_spec (v := v) (by obtain ⟨h1, h2⟩ := hv; omega)
  obtain ⟨y, hy, hold⟩ := hop.withBigInt hx hnorm hv0
  exact ⟨y, bind_eq_of_eq hset hy, hold⟩

end

omit [Binary64 D] in
theorem setIntegerValue_spec {v : FklVMvalue D} (hv : v.IsInteger) :
    ∃ x, setIntegerValue v = some x ∧ Holds x v.intValue := by
  cases v with
  | fix c =>
    obtain ⟨x, hset, hx⟩ := fklSetBigIntI_spec (t := bigInt0) (v := c.val)
      (by have := c.isFix.isI64; simp only [IsI64] at this; omega) (Or.inl rfl)
    exact ⟨x, hset, hx.value, hx.normalized, fklSetBigIntI_constSize hset⟩
  | bigint b =>
    obtain ⟨x, hset, hx, _⟩ := fklSetBigInt_spec (t := bigInt0) hv (Or.inl rfl)
    exact ⟨x, hset, hx.value, hx.normalized, fklSetBigInt_constSize hset⟩
  | f64 d => exact hv.elim
  | other => exact hv.elim

/-! The remainder. -/

omit [Binary64 D] in
theorem FklVMvalue.IsInteger.isF64 {v : FklVMvalue D} (hv : v.IsInteger) : v.isF64 = false := by
  cases v with
  | f64 d => exact hv.elim
  | _ => rfl

omit [Binary64 D] in
theorem FklVMvalue.exists_fix {v : FklVMvalue D} (hv : v.isFix = true) : ∃ c, v = .fix c := by
  cases v with
  | fix c => exact ⟨c, rfl⟩
  | _ => simp [FklVMvalue.isFix] at hv

theorem isFix_tmod {a : Int} (ha : IsFix a) (b : Int) : IsFix (a.tmod b) := by
  have hle : (a.tmod b).natAbs ≤ a.natAbs := by
    rw [Int.natAbs_tmod]
    exact Nat.mod_le _ _
  rcases le_or_gt 0 a with h0 | h0
  · have := Int.tmod_nonneg b h0
    simp only [IsFix, fixIntMin, fixIntMax] at ha ⊢
    omega
  · have := Int.tmod_nonneg b (show 0 ≤ -a by omega)
    rw [Int.neg_tmod] at this
    simp only [IsFix, fixIntMin, fixIntMax] at ha ⊢
    omega

omit [Binary64 D] in
/-- The remainder of big integers; a divisor of zero is told apart. -/
theorem remBigInts_spec {a b : FklVMvalue D} (ha : a.IsInteger) (hb : b.IsInteger) :
    (b.intValue = 0 → remBigInts a b = some none) ∧
    (b.intValue ≠ 0 →
      ∃ x, remBigInts a b = some (some x) ∧ Holds x (a.intValue.tmod b.intValue)) := by
  obtain ⟨x, hset, hx⟩ := setIntegerValue_spec ha
  cases b with
  | fix c =>
    have hrun : remBigInts a (.fix c) = if c.val = 0 then some none
        else some <$> withSmall fklRemBigInt x c.val := bind_eq_of_eq hset rfl
    rw [hrun]
    refine ⟨fun h0 => if_pos h0, fun h0 => ?_⟩
    obtain ⟨y, hy, hrem⟩ := fklRemBigInt_exact.withSmall hx c.isFix.isI64 h0
    exact ⟨y, (if_neg h0).trans (congrArg (some <$> ·) hy), hrem⟩
  | bigint d =>
    have hnorm : (fklVMbigIntToBigInt d).Normalized := hb
    have hzero : (fklVMbigIntToBigInt d).is0 = true ↔ (fklVMbigIntToBigInt d).value = 0 := by
      rw [hnorm.is0_iff, hnorm.mag_eq_zero, hnorm.value_eq_zero]
    have hrun : remBigInts a (.bigint d) = if (fklVMbigIntToBigInt d).is0 then some none
        else some <$> withBigInt fklRemBigInt x (fklVMbigIntToBigInt d) := bind_eq_of_eq hset rfl
    rw [hrun]
    refine ⟨fun h0 => if_pos (hzero.mpr h0), fun h0 => ?_⟩
    obtain ⟨y, hy, hrem⟩ := fklRemBigInt_exact.withBigInt hx hnorm h0
    exact ⟨y, (if_neg (mt hzero.mp h0)).trans (congrArg (some <$> ·) hy), hrem⟩
  | f64 d => exact hb.elim
  | other => exact hb.elim

theorem fklProcessVMnumMod_spec {a b : FklVMvalue D} (ha : a.IsInteger) (hb : b.IsInteger) :
    (b.intValue = 0 → fklProcessVMnumMod a b = .error .divZeroError) ∧
    (b.intValue ≠ 0 →
      ∃ v, fklProcessVMnumMod a b = .ok v ∧ v.Represents (a.intValue.tmod b.intValue)) := by
  unfold fklProcessVMnumMod
  rw [if_neg (by rw [ha.isF64, hb.isF64]; decide)]
  by_cases hfix : a.isFix = true ∧ b.isFix = true
  · obtain ⟨c, rfl⟩ := FklVMvalue.exists_fix hfix.1
    obtain ⟨d, rfl⟩ := FklVMvalue.exists_fix hfix.2
    rw [if_pos hfix]
    exact ⟨fun h0 => if_pos h0, fun h0 => ⟨_, if_neg h0,
      represents_fix (fklMakeVMFix_val (isFix_tmod c.isFix _))⟩⟩
  · rw [if_neg hfix]
    obtain ⟨hzero, hrem⟩ := remBigInts_spec ha hb
    refine ⟨fun h0 => by rw [hzero h0], fun h0 => ?_⟩
    obtain ⟨x, hx, hold⟩ := hrem h0
    obtain ⟨v, hv, hr⟩ := bigIntResult_spec (D := D) hold
    rw [hx]
    exact ⟨v, congrArg assertOk hv, hr⟩

/-- The remainder of every two integers of the machine has the sign of the dividend, and zero
divides in no representation. -/
theorem fklProcessVMnumMod_truncates (a b : VMInteger D) :
    (b.val.intValue ≠ 0 → ∃ v r, fklProcessVMnumMod a.val b.val = .ok v ∧ v.Represents r ∧
      a.val.intValue = a.val.intValue.tdiv b.val.intValue * b.val.intValue + r ∧
      |r| < |b.val.intValue| ∧ (r ≠ 0 → (r < 0 ↔ a.val.intValue < 0))) ∧
    (b.val.intValue = 0 → fklProcessVMnumMod a.val b.val = .error .divZeroError) := by
  obtain ⟨hzero, hspec⟩ := fklProcessVMnumMod_spec a.property b.property
  refine ⟨fun hb0 => ?_, hzero⟩
  obtain ⟨v, hv, hr⟩ := hspec hb0
  exact ⟨v, _, hv, hr, tdiv_tmod_truncated _ hb0⟩

/-- The least fixnum by minus one. -/
theorem fklProcessVMnumMod_min :
    ∃ v r, fklProcessVMnumMod (fixArg fixIntMin).val (fixArg (-1)).val = .ok v ∧
      v.Represents r ∧ fixIntMin = fixIntMin.tdiv (-1) * -1 + r ∧ |r| < |(-1 : Int)| ∧
      (r ≠ 0 → (r < 0 ↔ fixIntMin < 0)) :=
  (fklProcessVMnumMod_truncates (fixArg fixIntMin) (fixArg (-1))).1 (by decide)

/-! The accumulated divisor. -/

/-- A word that wrapped stands far outside the fixnums. -/
theorem le_of_wraps {z : Int} (hneg : z < 0) (hne : z ≠ fixIntMin) (h : i64 z = fixIntMin) :
    z ≤ 17 * fixIntMin := by
  obtain ⟨j, hj⟩ : ((2 ^ 64 : Nat) : Int) ∣ z - i64 z := Int.dvd_self_sub_bmod
  rw [h] at hj
  simp only [fixIntMin] at *
  omega

/-- The word is exact, or it has wrapped to the least fixnum. -/
def KeptOrWrapped (k : Int) : Prop := IsFix k ∨ (i64 k = fixIntMin ∧ k ≤ 17 * fixIntMin)

theorem not_isFix_of_wrapped {k : Int} (h : k ≤ 17 * fixIntMin) : ¬IsFix k := by
  simp only [IsFix, fixIntMin, fixIntMax] at h ⊢
  omega

theorem KeptOrWrapped.mul {k c : Int} (hk : KeptOrWrapped k) (hfix : IsFix (i64 k)) (hc : IsFix c)
    (hc0 : c ≠ 0) (hov : fklIsFixMulOverflow (i64 k) c = false) : KeptOrWrapped (k * c) := by
  have hword : i64 (k * c) = i64 (i64 k * c) := (toSigned_mul_toSigned 64 k c).symm
  rcases (fklIsFixMulOverflow_eq_false_iff hfix hc).mp hov with hstay | hwrap
  · rcases hk with hk | ⟨hmin, hle⟩
    · rw [i64_of_isI64 hk.isI64] at hstay
      exact Or.inl hstay
    · -- the only multiple of the least fixnum that is a fixnum is itself
      rw [hmin] at hstay hword
      have hone : c = 1 := by
        simp only [IsFix, fixIntMin, fixIntMax] at hstay
        omega
      rw [hone, mul_one]
      exact Or.inr ⟨hmin, hle⟩
  · obtain ⟨hneg, hne, hmin⟩ := hwrap
    rcases hk with hk | ⟨hk, hle⟩
    · rw [i64_of_isI64 hk.isI64] at hneg hne hmin
      exact Or.inr ⟨hmin, le_of_wraps hneg hne hmin⟩
    · refine Or.inr ⟨hword.trans hmin, ?_⟩
      rw [hk] at hneg
      have hpos : 1 ≤ c := by
        simp only [fixIntMin] at hneg
        omega
      simp only [fixIntMin] at hle ⊢
      nlinarith

omit [Binary64 D] in
theorem keptOrWrapped_hold {h : Held} {v : FklVMvalue D} (hk : KeptOrWrapped h.kept)
    (hfix : IsFix (i64 h.kept)) (hv0 : v.intValue ≠ 0) :
    KeptOrWrapped (hold (· * ·) fklIsFixMulOverflow h v).kept := by
  cases v with
  | fix c =>
    simp only [hold]
    split
    · exact hk
    next hov => exact hk.mul hfix c.isFix hv0 (Bool.eq_false_iff.mpr hov)
  | _ => exact hk

theorem KeptOrWrapped.word_ne {k : Int} (hk : KeptOrWrapped k) (h0 : k ≠ 0) : i64 k ≠ 0 := by
  rcases hk with hk | ⟨hmin, _⟩
  · rwa [i64_of_isI64 hk.isI64]
  · rw [hmin]
    decide

theorem fixIntMin_dvd {k : Int} (h : i64 k = fixIntMin) : fixIntMin ∣ k := by
  obtain ⟨j, hj⟩ : ((2 ^ 64 : Nat) : Int) ∣ k - i64 k := Int.dvd_self_sub_bmod
  rw [h] at hj
  refine ⟨1 - 16 * j, ?_⟩
  simp only [fixIntMin] at *
  omega

theorem KeptOrWrapped.word_dvd {k : Int} (hk : KeptOrWrapped k) : i64 k ∣ k := by
  rcases hk with hk | ⟨hmin, _⟩
  · rw [i64_of_isI64 hk.isI64]
  · rw [hmin]
    exact fixIntMin_dvd hmin

theorem processAll_divisors (args : List (VMInteger D)) (hne : ∀ v ∈ args, v.val.intValue ≠ 0) :
    ∃ s, processAll fklProcessVMnumMul (args.map (·.val)) ⟨1, Binary64.ofI64 1, bigInt0⟩ = .ok s ∧
      ProductInv s (heldProduct args) ∧ KeptOrWrapped (heldProduct args).kept := by
  obtain ⟨s, hrun, hs⟩ := processAll_mul args
  refine ⟨s, hrun, hs, ?_⟩
  induction args using List.reverseRecOn generalizing s with
  | nil => exact Or.inl (by change IsFix 1; decide)
  | append_singleton args v ih =>
    obtain ⟨t, ht, hinv⟩ := processAll_mul args
    have hk := ih (fun w hw => hne w (by simp [hw])) t ht hinv
    rw [heldProduct, holdAll, List.foldl_append]
    exact keptOrWrapped_hold hk (hinv.r64 ▸ hinv.fix) (hne v (by simp))

/-! Truncated division. -/

theorem tdiv_tdiv (a b c : Int) : (a.tdiv b).tdiv c = a.tdiv (b * c) := by
  have hnat : ∀ l m n : Nat, ((l : Int).tdiv m).tdiv n = (l : Int).tdiv (m * n) := by
    intro l m n
    rw [← Int.ofNat_tdiv, ← Int.ofNat_tdiv, Nat.div_div_eq_div_mul, Int.ofNat_tdiv, Int.natCast_mul]
  obtain ⟨l, rfl | rfl⟩ := a.eq_nat_or_neg <;> obtain ⟨m, rfl | rfl⟩ := b.eq_nat_or_neg <;>
    obtain ⟨n, rfl | rfl⟩ := c.eq_nat_or_neg <;> 
    simp only [Int.neg_tdiv, Int.tdiv_neg, hnat, neg_mul, mul_neg, neg_neg]

/-- The quotient by the wrapped word is right only where both are zero. -/
theorem tdiv_wrapped_iff {a m k : Int} (hm : m ≠ 0) (hk : k ≤ 17 * fixIntMin) :
    a.tdiv (m * fixIntMin) = a.tdiv (k * m) ↔ |a| < |m * fixIntMin| := by
  have hpos : 0 < m.natAbs * fixIntMin.natAbs :=
    Nat.mul_pos (Int.natAbs_pos.mpr hm) (by decide)
  have hlarge : 17 * (m.natAbs * fixIntMin.natAbs) ≤ k.natAbs * m.natAbs := by
    have hkn : 17 * fixIntMin.natAbs ≤ k.natAbs := by
      simp only [fixIntMin] at hk ⊢
      omega
    calc 17 * (m.natAbs * fixIntMin.natAbs) = 17 * fixIntMin.natAbs * m.natAbs := by ring
      _ ≤ k.natAbs * m.natAbs := Nat.mul_le_mul_right _ hkn
  rw [Int.abs_eq_natAbs, Int.abs_eq_natAbs, Nat.cast_lt, Int.natAbs_mul]
  generalize hx : m.natAbs * fixIntMin.natAbs = x at *
  have hleft : (a.tdiv (m * fixIntMin)).natAbs = a.natAbs / x := by
    rw [Int.natAbs_tdiv, Int.natAbs_mul, hx]
    rfl
  have hright : (a.tdiv (k * m)).natAbs ≤ a.natAbs / x / 17 := by
    rw [Int.natAbs_tdiv, Int.natAbs_mul, Nat.div_div_eq_div_mul, Nat.mul_comm x]
    exact Nat.div_le_div_left hlarge (by omega)
  constructor
  · intro heq
    rw [← heq, hleft] at hright
    exact (Nat.div_eq_zero_iff_lt hpos).mp (by omega)
  · intro hlt
    rw [Nat.div_eq_of_lt hlt] at hleft hright
    have hzero : (a.tdiv (k * m)).natAbs = 0 := by omega
    rw [Int.natAbs_eq_zero.mp hleft, Int.natAbs_eq_zero.mp hzero]
/-! Quotients by the accumulated divisor. -/

omit [Binary64 D] in
theorem heldProduct_ne {args : List (VMInteger D)} (hne : ∀ v ∈ args, v.val.intValue ≠ 0) :
    (heldProduct args).kept ≠ 0 ∧ (heldProduct args).moved ≠ 0 := by
  rw [← mul_ne_zero_iff, heldProduct_prod]
  refine List.prod_ne_zero fun hmem => ?_
  obtain ⟨v, hv, hzero⟩ := List.mem_map.mp hmem
  exact hne v hv hzero

section

variable {s : VMnum D} {h : Held}

theorem ProductInv.divisorIsZero (hs : ProductInv s h) (hr : s.r64 ≠ 0) (hm : h.moved ≠ 0) :
    divisorIsZero s = false := by
  unfold FakeLisp.divisorIsZero
  rw [decide_eq_false_iff_not]
  rintro (h0 | ⟨hnum, hd⟩)
  · exact hr h0
  · have hbi := hs.bi
    rw [initDefaultBigint1, if_neg hd] at hbi
    exact hm (hbi.value.symm.trans (hbi.normalized.value_eq_zero.mpr hnum))

theorem ProductInv.divByBigInt (hs : ProductInv s h) (hm : h.moved ≠ 0) {t : FklBigInt} {z : Int}
    (ht : Holds t z) : ∃ y, divByBigInt t s.bi = some y ∧ Holds y (z.tdiv h.moved) := by
  unfold FakeLisp.divByBigInt
  by_cases hd : s.bi.isDefault = true
  · rw [if_pos hd, hs.first_branch_iff.mp (Or.inl hd), Int.tdiv_one]
    exact ⟨t, rfl, ht⟩
  · have hbi := hs.bi
    rw [initDefaultBigint1, if_neg hd] at hbi
    rw [if_neg hd, ← hbi.value]
    exact fklDivBigInt_exact.withBigInt ht hbi.normalized (by rwa [hbi.value])

theorem ProductInv.divBigInts (hs : ProductInv s h) (hr : s.r64 ≠ 0) (hm : h.moved ≠ 0)
    {prev : FklVMvalue D} (hp : prev.IsInteger) :
    ∃ v, divBigInts prev s = some v ∧ v.Represents (prev.intValue.tdiv (h.moved * s.r64)) := by
  obtain ⟨t, ht, hold⟩ := setIntegerValue_spec hp
  obtain ⟨y, hy, hquot⟩ := hs.divByBigInt hm hold
  obtain ⟨x, hx, hlast⟩ := fklDivBigInt_exact.withSmall hquot hs.fix.isI64 hr
  rw [tdiv_tdiv] at hlast
  obtain ⟨v, hv, hrep⟩ := bigIntResult_spec (D := D) hlast
  exact ⟨v, bind_eq_of_eq ht (bind_eq_of_eq hy (bind_eq_of_eq hx hv)), hrep⟩

/-- Only a fixnum is divided in the word. -/
theorem ProductInv.word_iff (hs : ProductInv s h) {prev : FklVMvalue D} (hp : prev.IsInteger) :
    ¬(prev.isBigInt = true ∨ (¬s.bi.isDefault = true ∧ ¬s.bi.is1 = true)) ↔
      prev.isFix = true ∧ h.moved = 1 := by
  have hkind : ¬prev.isBigInt = true ↔ prev.isFix = true := by
    cases prev with
    | fix c => simp [FklVMvalue.isBigInt, FklVMvalue.isFix]
    | bigint b => simp [FklVMvalue.isBigInt, FklVMvalue.isFix]
    | f64 d => exact hp.elim
    | other => exact hp.elim
  rw [not_or, hkind, ← not_or, not_not, hs.first_branch_iff]

end

/-- When an integer quotient comes out right: the word has not wrapped or the quotient is zero
for both divisors, and it is not the negated least fixnum. -/
def IdivFits (a : FklVMvalue D) (h : Held) : Prop :=
  (IsFix h.kept ∨ |a.intValue| < |h.moved * fixIntMin|) ∧
    ¬(a.isFix = true ∧ h.moved = 1 ∧ a.intValue = fixIntMin ∧ h.kept = -1)

theorem isFix_tdiv_iff {c k : Int} (hc : IsFix c) :
    IsFix (c.tdiv k) ↔ ¬(c = fixIntMin ∧ k = -1) := by
  constructor
  · rintro hq ⟨rfl, rfl⟩
    exact absurd hq (by decide)
  · intro hne
    have habs := Int.natAbs_tdiv c k
    by_cases h1 : k = 1
    · rwa [h1, Int.tdiv_one]
    by_cases h2 : k = -1
    · rw [h2, Int.tdiv_neg, Int.tdiv_one]
      have hmin : c ≠ fixIntMin := fun h => hne ⟨h, h2⟩
      simp only [IsFix, fixIntMin, fixIntMax] at hc hmin ⊢
      omega
    · have hhalf : (c.tdiv k).natAbs ≤ c.natAbs / 2 := by
        rw [habs]
        rcases Nat.eq_zero_or_pos k.natAbs with h0 | h0
        · rw [h0]
          exact (Nat.div_zero _).trans_le (Nat.zero_le _)
        · exact Nat.div_le_div_left (by omega) (by decide)
      simp only [IsFix, fixIntMin, fixIntMax] at hc ⊢
      omega

omit [Binary64 D] in
/-- A result that stands for one number stands for no other. -/
theorem represents_iff_eq {r : Option (FklVMvalue D)} {y z : Int}
    (hr : ∃ v, r = some v ∧ v.Represents y) : (∃ v, r = some v ∧ v.Represents z) ↔ y = z := by
  obtain ⟨v, rfl, hv⟩ := hr
  constructor
  · rintro ⟨w, hw, hz⟩
    rw [← Option.some.inj hw] at hz
    exact hv.unique hz
  · rintro rfl
    exact ⟨v, rfl, hv⟩

section

variable {s : VMnum D} {h : Held} {prev : FklVMvalue D}

/-- Outside the word the quotient is by the part moved and the word. -/
theorem ProductInv.divBigInts_iff (hs : ProductInv s h) (hk : KeptOrWrapped h.kept)
    (hk0 : h.kept ≠ 0) (hm : h.moved ≠ 0) (hp : prev.IsInteger) :
    (∃ v, FakeLisp.divBigInts prev s = some v ∧
      v.Represents (prev.intValue.tdiv (h.kept * h.moved))) ↔
      IsFix h.kept ∨ |prev.intValue| < |h.moved * fixIntMin| := by
  rw [represents_iff_eq (hs.divBigInts (hs.r64 ▸ hk.word_ne hk0) hm hp), hs.r64]
  rcases hk with hfix | ⟨hmin, hle⟩
  · rw [i64_of_isI64 hfix.isI64, mul_comm]
    exact iff_of_true rfl (Or.inl hfix)
  · rw [hmin, tdiv_wrapped_iff hm hle, or_iff_right (not_isFix_of_wrapped hle)]

omit [Binary64 D] in
/-- In the word it is by the word alone, and cut to the width of a fixnum. -/
theorem wordQuotient_iff (hk : KeptOrWrapped h.kept) (c : Fixnum) :
    (∃ v, some (.fix (fklMakeVMFix (c.val.tdiv (i64 h.kept)))) = some v ∧
      FklVMvalue.Represents (D := D) v (c.val.tdiv h.kept)) ↔
      (IsFix h.kept ∨ |c.val| < |fixIntMin|) ∧ ¬(c.val = fixIntMin ∧ h.kept = -1) := by
  rcases hk with hfix | ⟨hmin, hle⟩
  · rw [i64_of_isI64 hfix.isI64, represents_cut_iff rfl, isFix_tdiv_iff c.isFix]
    exact (and_iff_right (Or.inl hfix)).symm
  · have hnot : ¬IsFix h.kept ∧ h.kept ≠ -1 := by
      simp only [IsFix, fixIntMin, fixIntMax] at hle ⊢
      omega
    have hquot : IsFix (c.val.tdiv fixIntMin) :=
      (isFix_tdiv_iff c.isFix).mpr fun hc => absurd hc.2 (by decide)
    have hiff := tdiv_wrapped_iff (a := c.val) one_ne_zero hle
    rw [one_mul, mul_one] at hiff
    rw [hmin, represents_iff_eq ⟨_, rfl, represents_fix (fklMakeVMFix_val hquot)⟩, hiff,
      or_iff_right hnot.1]
    exact (and_iff_left fun hc => hnot.2 hc.2).symm

theorem fklProcessVMnumIdivResult_iff (hs : ProductInv s h) (hk : KeptOrWrapped h.kept)
    (hk0 : h.kept ≠ 0) (hm : h.moved ≠ 0) (hp : prev.IsInteger) :
    (∃ v, fklProcessVMnumIdivResult prev s = some v ∧
      v.Represents (prev.intValue.tdiv (h.kept * h.moved))) ↔ IdivFits prev h := by
  unfold fklProcessVMnumIdivResult IdivFits
  by_cases hw : prev.isFix = true ∧ h.moved = 1
  · rw [if_neg ((hs.word_iff hp).mpr hw)]
    obtain ⟨c, rfl⟩ := FklVMvalue.exists_fix hw.1
    rw [hw.2, mul_one, one_mul, hs.r64]
    simpa [FklVMvalue.isFix, FklVMvalue.intValue, FklVMvalue.getFix] using
      wordQuotient_iff (D := D) hk c
  · rw [if_pos (not_not.mp fun hn => hw ((hs.word_iff hp).mp hn)),
      hs.divBigInts_iff hk hk0 hm hp]
    exact (and_iff_left fun hc => hw ⟨hc.1, hc.2.1⟩).symm

end

/-! The operations. -/

omit [Binary64 D] in
theorem FklVMvalue.IsInteger.isVMint {v : FklVMvalue D} (hv : v.IsInteger) : v.isVMint = true := by
  cases v with
  | fix c => rfl
  | bigint b => rfl
  | f64 d => exact hv.elim
  | other => exact hv.elim

theorem processAll_intMul (args : List (VMInteger D)) (s : VMnum D) :
    processAll fklProcessVMintMul (args.map (·.val)) s =
      processAll fklProcessVMnumMul (args.map (·.val)) s := by
  induction args generalizing s with
  | nil => rfl
  | cons v vs ih =>
    have hstep : fklProcessVMintMul v.val s = fklProcessVMnumMul v.val s := by
      obtain ⟨v, hv⟩ := v
      cases v with
      | fix c => rfl
      | bigint b => rfl
      | f64 d => exact hv.elim
      | other => exact hv.elim
    change (checkStep (fklProcessVMintMul v.val s) >>= processAll _ (vs.map (·.val))) =
      (checkStep (fklProcessVMnumMul v.val s) >>= processAll _ (vs.map (·.val)))
    rw [hstep]
    exact congrArg _ (funext ih)

/-- An integer quotient by divisors none of which is zero is exact, in the right form, exactly
when the part of the product in the machine word has not wrapped or the quotient is zero
anyway, and the dividend is not the least fixnum divided by minus one. -/
theorem idivNumbers_exact_iff (a : VMInteger D) (bs : List (VMInteger D))
    (hne : ∀ b ∈ bs, b.val.intValue ≠ 0) :
    (∃ v, idivNumbers (a.val :: bs.map (·.val)) = .ok v ∧
      v.Represents (a.val.intValue.tdiv (bs.map (·.val.intValue)).prod)) ↔
      IdivFits a.val (heldProduct bs) := by
  obtain ⟨s, hrun, hs, hk⟩ := processAll_divisors bs hne
  obtain ⟨hk0, hm⟩ := heldProduct_ne hne
  have hidiv : ∀ v, idivNumbers (a.val :: bs.map (·.val)) = .ok v ↔
      fklProcessVMnumIdivResult a.val s = some v := by
    intro v
    rw [← assertOk_eq_ok]
    simp only [idivNumbers]
    rw [checkType_eq_ok a.property.isVMint, processAll_intMul, hrun]
    change divide _ s = _ ↔ _
    rw [divide, hs.divisorIsZero (hs.r64 ▸ hk.word_ne hk0) hm]
    rfl
  simp only [hidiv, ← heldProduct_prod bs]
  exact fklProcessVMnumIdivResult_iff hs hk hk0 hm a.property

theorem idivNumbers_seven :
    (∃ v, idivNumbers ((fixArg 7).val :: [fixArg 2, fixArg (-1)].map (·.val)) = .ok v ∧
      v.Represents ((fixArg 7).val.intValue.tdiv
        ([fixArg 2, fixArg (-1)].map (·.val.intValue)).prod)) ↔
      IdivFits (fixArg 7).val (heldProduct [fixArg 2, fixArg (-1)]) :=
  idivNumbers_exact_iff (fixArg 7) [fixArg 2, fixArg (-1)] (by decide)

/-- The least fixnum by minus one wraps to itself. -/
theorem idivNumbers_min :
    ¬∃ v, idivNumbers ((fixArg fixIntMin).val :: [fixArg (-1)].map (·.val)) = .ok v ∧
      v.Represents ((fixArg fixIntMin).val.intValue.tdiv
        ([fixArg (-1)].map (·.val.intValue)).prod) := by
  have hrun : idivNumbers ((fixArg fixIntMin).val :: [fixArg (-1)].map (·.val)) =
      .ok (fixArg fixIntMin).val := by
    rfl
  rintro ⟨v, hv, hr⟩
  rw [← Except.ok.inj (hrun.symm.trans hv)] at hr
  exact absurd hr.value (by decide)

/-! Quotients that may be doubles. -/

theorem fklIsDivisibleBigInt_spec {a d : FklBigInt} (ha : a.Normalized) (hd : d.Normalized)
    (hd0 : d.value ≠ 0) : fklIsDivisibleBigInt a d = some (decide (d.value ∣ a.value)) := by
  obtain ⟨x, hset, hx, _⟩ := fklSetBigInt_spec (t := bigInt0) ha (Or.inl rfl)
  have hold : Holds x a.value := ⟨hx.value, hx.normalized, fklSetBigInt_constSize hset⟩
  obtain ⟨y, hy, hrem⟩ := fklRemBigInt_exact.withBigInt hold hd hd0
  refine bind_eq_of_eq hset (bind_eq_of_eq hy (congrArg some (decide_eq_decide.mpr ?_)))
  rw [← hrem.normalized.value_eq_zero, hrem.value, Int.dvd_iff_tmod_eq_zero]

theorem fklIsDivisibleBigIntI_spec {a : FklBigInt} (ha : a.Normalized) {d : Int} (hd : IsI64 d)
    (hd0 : d ≠ 0) : fklIsDivisibleBigIntI a d = some (decide (d ∣ a.value)) := by
  obtain ⟨bi, hset, rfl, hnorm, _⟩ := smallOperand_spec (v := d) (by obtain ⟨h1, h2⟩ := hd; omega)
  exact bind_eq_of_eq hset (fklIsDivisibleBigInt_spec ha hnorm hd0)

section

variable {s : VMnum D} {h : Held} {prev : FklVMvalue D}

/-- The two divisors are tried one by one. -/
theorem ProductInv.leavesRemainder (hs : ProductInv s h) (hr : s.r64 ≠ 0) (hm : h.moved ≠ 0)
    {b : FklBigInt} (hb : b.Normalized) :
    leavesRemainder b s = some (decide ¬(h.moved ∣ b.value ∧ s.r64 ∣ b.value)) := by
  have hword := fklIsDivisibleBigIntI_spec hb hs.fix.isI64 hr
  unfold FakeLisp.leavesRemainder
  by_cases h1 : h.moved = 1
  · have hfirst := hs.first_branch_iff.mpr h1
    rw [if_neg (by rw [← not_or, not_not]; exact hfirst), hword, h1]
    simp
  · have hfirst := not_or.mp (mt hs.first_branch_iff.mp h1)
    have hbi := hs.bi
    rw [initDefaultBigint1, if_neg hfirst.1] at hbi
    have hdiv := fklIsDivisibleBigInt_spec hb hbi.normalized (by rwa [hbi.value])
    rw [hbi.value] at hdiv
    rw [if_pos hfirst, hdiv, hword]
    by_cases hd : h.moved ∣ b.value <;> simp [hd]

theorem ProductInv.quotientIsDouble (hs : ProductInv s h) (hr : s.r64 ≠ 0) (hm : h.moved ≠ 0)
    (hp : prev.IsInteger) :
    quotientIsDouble prev s = some (if prev.isFix then
        decide (h.moved = 1 ∧ ¬s.r64 ∣ prev.intValue)
      else decide ¬(h.moved ∣ prev.intValue ∧ s.r64 ∣ prev.intValue)) := by
  have hbeq : Binary64.beq s.rd (Binary64.ofI64 1) = true := by
    rw [hs.rd]
    exact Binary64.beq_ofI64 1
  unfold FakeLisp.quotientIsDouble
  rw [if_neg (by rw [hp.isF64, hbeq]; decide)]
  cases prev with
  | fix c =>
    refine congrArg some (decide_eq_decide.mpr ?_)
    rw [hs.first_branch_iff, ne_eq, ← Int.dvd_iff_tmod_eq_zero]
    rfl
  | bigint b => exact hs.leavesRemainder hr hm hp
  | f64 d => exact hp.elim
  | other => exact hp.elim

end

/-- What the division promises: the exact quotient where there is one and else a double. -/
def RightQuotient (v : FklVMvalue D) (a p : Int) : Prop :=
  (p ∣ a → v.Represents (a.tdiv p)) ∧ (¬p ∣ a → v.isF64 = true)

omit [Binary64 D] in
theorem rightQuotient_double {q : D} {a p : Int} :
    (∃ v, some (FklVMvalue.f64 q) = some v ∧ RightQuotient v a p) ↔ ¬p ∣ a := by
  constructor
  · rintro ⟨v, hv, hdvd, _⟩ hp
    rw [← Option.some.inj hv] at hdvd
    exact (hdvd hp).integer
  · exact fun hp => ⟨_, rfl, fun hd => absurd hd hp, fun _ => rfl⟩

omit [Binary64 D] in
theorem rightQuotient_integer {r : Option (FklVMvalue D)} {a p : Int}
    (hr : ∃ v, r = some v ∧ v.IsInteger) :
    (∃ v, r = some v ∧ RightQuotient v a p) ↔
      p ∣ a ∧ ∃ v, r = some v ∧ v.Represents (a.tdiv p) := by
  obtain ⟨w, rfl, hw⟩ := hr
  constructor
  · rintro ⟨v, hv, hdvd, hnot⟩
    have hp : p ∣ a := by
      by_contra hp
      rw [← Option.some.inj hv] at hnot
      exact absurd (hnot hp) (by rw [hw.isF64]; decide)
    exact ⟨hp, v, hv, hdvd hp⟩
  · rintro ⟨hp, v, hv, hrep⟩
    exact ⟨v, hv, fun _ => hrep, fun hn => absurd hp hn⟩

/-- What a wrapped word divides that is so small is zero. -/
theorem eq_zero_of_wrapped {a k m : Int} (hle : k ≤ 17 * fixIntMin) (hd : k * m ∣ a)
    (h : |a| < |m * fixIntMin|) : a = 0 := by
  have hkm : |m * fixIntMin| ≤ |k * m| := by
    rw [mul_comm m, abs_mul, abs_mul]
    refine mul_le_mul_of_nonneg_right ?_ (abs_nonneg m)
    rw [Int.abs_eq_natAbs, Int.abs_eq_natAbs]
    simp only [fixIntMin] at hle ⊢
    omega
  exact Int.eq_zero_of_abs_lt_dvd ((abs_dvd _ _).mpr hd) (h.trans_le hkm)

theorem eq_zero_of_wrapped_dvd {c k : Int} (hc : IsFix c) (hle : k ≤ 17 * fixIntMin) (hd : k ∣ c) :
    c = 0 := by
  refine Int.eq_zero_of_abs_lt_dvd ((abs_dvd _ _).mpr hd) ?_
  rw [Int.abs_eq_natAbs, Int.abs_eq_natAbs]
  simp only [IsFix, fixIntMin, fixIntMax] at *
  omega

/-- When a quotient comes out right. A fixnum is tried by the word alone, and not at all where
there is a part moved; a big integer is tried by the two parts one by one. -/
def DivFits (a : FklVMvalue D) (h : Held) : Prop :=
  if a.isFix then
    if h.moved = 1 then ¬(a.intValue = fixIntMin ∧ (h.kept = -1 ∨ ¬IsFix h.kept))
    else h.kept * h.moved ∣ a.intValue
  else if IsFix h.kept then
    h.moved ∣ a.intValue → h.kept ∣ a.intValue → h.kept * h.moved ∣ a.intValue
  else a.intValue = 0 ∨ ¬(h.moved ∣ a.intValue ∧ fixIntMin ∣ a.intValue)

section

variable {s : VMnum D} {h : Held}

omit [Binary64 D] in
theorem wordDiv_iff (hk : KeptOrWrapped h.kept) (c : Fixnum) (q : D) :
    (∃ v, (if ¬i64 h.kept ∣ c.val then some (FklVMvalue.f64 q)
        else some (.fix (fklMakeVMFix (c.val.tdiv (i64 h.kept))))) = some v ∧
      RightQuotient v c.val h.kept) ↔
      ¬(c.val = fixIntMin ∧ (h.kept = -1 ∨ ¬IsFix h.kept)) := by
  rcases hk with hfix | ⟨hmin, hle⟩
  · rw [i64_of_isI64 hfix.isI64]
    by_cases hd : h.kept ∣ c.val
    · rw [if_neg (not_not.mpr hd), rightQuotient_integer ⟨.fix _, rfl, trivial⟩, and_iff_right hd,
        represents_cut_iff rfl, isFix_tdiv_iff c.isFix, or_iff_left (not_not.mpr hfix)]
    · rw [if_pos hd, rightQuotient_double]
      refine iff_of_true hd fun hc => ?_
      rw [hc.2.resolve_right (not_not.mpr hfix)] at hd
      exact hd ((neg_dvd).mpr (one_dvd _))
  · have hnot := not_isFix_of_wrapped hle
    have hzero : h.kept ∣ c.val → c.val = 0 := eq_zero_of_wrapped_dvd c.isFix hle
    rw [hmin]
    by_cases hd : fixIntMin ∣ c.val
    · rw [if_neg (not_not.mpr hd), rightQuotient_integer ⟨.fix _, rfl, trivial⟩]
      by_cases hc : c.val = fixIntMin
      · refine iff_of_false (fun hr => ?_) (fun hn => hn ⟨hc, Or.inr hnot⟩)
        exact absurd (hc.symm.trans (hzero hr.1)) (by decide)
      · have h0 : c.val = 0 := by
          obtain ⟨j, hj⟩ := hd
          obtain ⟨h1, h2⟩ := c.isFix
          simp only [fixIntMin, fixIntMax] at *
          omega
        refine iff_of_true ?_ fun hn => hc hn.1
        rw [h0, Int.zero_tdiv, Int.zero_tdiv]
        exact ⟨dvd_zero _, _, rfl, represents_fix (fklMakeVMFix_val isFix_zero)⟩
    · rw [if_pos hd, rightQuotient_double]
      refine iff_of_true (fun hk => hd ?_) fun hn => hd (by rw [hn.1])
      rw [hzero hk]
      exact dvd_zero _

theorem ProductInv.rightQuotient_bigInts_iff (hs : ProductInv s h) (hk : KeptOrWrapped h.kept)
    (hk0 : h.kept ≠ 0) (hm : h.moved ≠ 0) {prev : FklVMvalue D} (hp : prev.IsInteger) :
    (∃ v, FakeLisp.divBigInts prev s = some v ∧
      RightQuotient v prev.intValue (h.kept * h.moved)) ↔
      h.kept * h.moved ∣ prev.intValue ∧ (IsFix h.kept ∨ prev.intValue = 0) := by
  obtain ⟨v, hv, hr⟩ := hs.divBigInts (hs.r64 ▸ hk.word_ne hk0) hm hp
  rw [rightQuotient_integer ⟨v, hv, hr.integer⟩, hs.divBigInts_iff hk hk0 hm hp]
  refine and_congr_right fun hd => ?_
  rcases hk with hfix | ⟨_, hle⟩
  · exact iff_of_true (Or.inl hfix) (Or.inl hfix)
  · refine or_congr_right ⟨eq_zero_of_wrapped hle hd, fun h0 => ?_⟩
    rw [h0, abs_zero]
    exact abs_pos.mpr (mul_ne_zero hm (by decide))

theorem fklProcessVMnumDivResult_iff (hs : ProductInv s h) (hk : KeptOrWrapped h.kept)
    (hk0 : h.kept ≠ 0) (hm : h.moved ≠ 0) {prev : FklVMvalue D} (hp : prev.IsInteger) :
    (∃ v, fklProcessVMnumDivResult prev s = some v ∧
      RightQuotient v prev.intValue (h.kept * h.moved)) ↔ DivFits prev h := by
  have hr : s.r64 ≠ 0 := hs.r64 ▸ hk.word_ne hk0
  have hrun : fklProcessVMnumDivResult prev s = _ :=
    bind_eq_of_eq (hs.quotientIsDouble hr hm hp) rfl
  have hbig := hs.rightQuotient_bigInts_iff hk hk0 hm hp
  rw [hrun]
  unfold DivFits
  by_cases hfix : prev.isFix = true
  · obtain ⟨c, rfl⟩ := FklVMvalue.exists_fix hfix
    rw [if_pos hfix, if_pos hfix]
    by_cases h1 : h.moved = 1
    · rw [if_pos h1, if_neg ((hs.word_iff hp).mpr ⟨hfix, h1⟩), h1, mul_one, hs.r64]
      simpa [FklVMvalue.getFix, FklVMvalue.intValue] using
        wordDiv_iff hk c (doubleQuotient (.fix c) s)
    · rw [if_neg (by simp [h1]), if_pos (not_not.mp fun hn => h1 ((hs.word_iff hp).mp hn).2),
        if_neg h1, hbig]
      -- no multiple of the wrapped word is a fixnum
      refine and_iff_left_of_imp fun hd => ?_
      exact hk.imp_right fun hw =>
        eq_zero_of_wrapped_dvd c.isFix hw.2 (dvd_of_mul_right_dvd hd)
  · rw [if_neg hfix, if_neg hfix, if_pos (not_not.mp fun hn => hfix ((hs.word_iff hp).mp hn).1),
      hs.r64]
    by_cases hd : h.moved ∣ prev.intValue ∧ i64 h.kept ∣ prev.intValue
    · rw [if_neg (by simpa using hd), hbig]
      rcases hk with hfix | ⟨hmin, hle⟩
      · rw [i64_of_isI64 hfix.isI64] at hd
        rw [if_pos hfix]
        exact ⟨fun hc _ _ => hc.1, fun hc => ⟨hc hd.1 hd.2, Or.inl hfix⟩⟩
      · rw [hmin] at hd
        rw [if_neg (not_isFix_of_wrapped hle)]
        refine ⟨fun hc => Or.inl (hc.2.resolve_left (not_isFix_of_wrapped hle)), fun hc => ?_⟩
        have h0 := hc.resolve_right (not_not.mpr hd)
        rw [h0]
        exact ⟨dvd_zero _, Or.inr rfl⟩
    · rw [if_pos (decide_eq_true hd), rightQuotient_double]
      refine iff_of_true (fun hp => hd ⟨dvd_of_mul_left_dvd hp,
        hk.word_dvd.trans (dvd_of_mul_right_dvd hp)⟩) ?_
      rcases hk with hfix | ⟨hmin, hle⟩
      · rw [i64_of_isI64 hfix.isI64] at hd
        rw [if_pos hfix]
        exact fun h1 h2 => absurd ⟨h1, h2⟩ hd
      · rw [hmin] at hd
        rw [if_neg (not_isFix_of_wrapped hle)]
        exact Or.inr hd

end

/-- A quotient by divisors none of which is zero is an integer exactly when the product divides
the dividend, and then it is exact, exactly under `DivFits`. -/
theorem divNumbers_right_iff (a b : VMInteger D) (bs : List (VMInteger D))
    (hne : ∀ d ∈ b :: bs, d.val.intValue ≠ 0) :
    (∃ v, divNumbers (a.val :: (b :: bs).map (·.val)) = .ok v ∧
      RightQuotient v a.val.intValue ((b :: bs).map (·.val.intValue)).prod) ↔
      DivFits a.val (heldProduct (b :: bs)) := by
  obtain ⟨s, hrun, hs, hk⟩ := processAll_divisors (b :: bs) hne
  obtain ⟨hk0, hm⟩ := heldProduct_ne hne
  have hdiv : ∀ v, divNumbers (a.val :: (b :: bs).map (·.val)) = .ok v ↔
      fklProcessVMnumDivResult a.val s = some v := by
    intro v
    rw [← assertOk_eq_ok]
    simp only [divNumbers, List.map_cons] at hrun ⊢
    rw [checkType_eq_ok (FklVMvalue.isNumber_of_integer a.property), hrun]
    change divide _ s = _ ↔ _
    rw [divide, hs.divisorIsZero (hs.r64 ▸ hk.word_ne hk0) hm]
    rfl
  simp only [hdiv, ← heldProduct_prod (b :: bs)]
  exact fklProcessVMnumDivResult_iff hs hk hk0 hm a.property

theorem divNumbers_six :
    (∃ v, divNumbers ((fixArg 6).val :: [fixArg 2, fixArg (-3)].map (·.val)) = .ok v ∧
      RightQuotient v (fixArg 6).val.intValue
        ([fixArg 2, fixArg (-3)].map (·.val.intValue)).prod) ↔
      DivFits (fixArg 6).val (heldProduct [fixArg 2, fixArg (-3)]) :=
  divNumbers_right_iff (fixArg 6) (fixArg 2) [fixArg (-3)] (by decide)

/-- Five by `2⁵⁹ * 4`, which is moved to the big integer, is the integer zero. -/
theorem divNumbers_moved :
    let bs := [fixArg (2 ^ 59), fixArg 4]
    ¬∃ v, divNumbers ((fixArg 5).val :: bs.map (·.val)) = .ok v ∧
      RightQuotient v (fixArg 5).val.intValue (bs.map (·.val.intValue)).prod := by
  intro bs
  have hrun : divNumbers ((fixArg 5).val :: bs.map (·.val)) = .ok (fixArg 0).val := by
    rfl
  rintro ⟨v, hv, hr⟩
  rw [← Except.ok.inj (hrun.symm.trans hv)] at hr
  exact absurd (hr.2 (by decide)) (by decide)

end FakeLisp
