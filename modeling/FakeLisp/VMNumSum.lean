import FakeLisp.VMNumber

/-! Sums and differences of numbers, with `fklAddBigInt` and `fklSubBigInt` as
parameters. -/

namespace FakeLisp

variable {D : Type} [Binary64 D]

def fklProcessVMnumAdd (add : BigIntOp) (cur : FklVMvalue D) (s : VMnum D) :
    Option (Int × VMnum D) :=
  match cur with
  | .fix c =>
    if fklIsFixAddOverflow s.r64 c.val then do
      let bi ← withSmall add s.bi c.val
      some (0, { s with bi := bi })
    else some (0, { s with r64 := i64 (s.r64 + c.val) })
  | .bigint b => do
    let bi ← withVMbigInt add s.bi b
    some (0, { s with bi := bi })
  | .f64 d => some (0, { s with rd := Binary64.add s.rd d })
  | .other => some (1, { s with bi := bigInt0 })

def fklProcessVMnumAddResult (add : BigIntOp) (s : VMnum D) : Option (FklVMvalue D) :=
  if ¬Binary64.beq s.rd (Binary64.ofI64 0) then
    some (.f64 (Binary64.add (Binary64.add s.rd (Binary64.ofI64 s.r64)) (fklBigIntToD s.bi)))
  else if s.bi.is0 then some (.fix (fklMakeVMFix s.r64))
  else do
    let bi ← withSmall add s.bi s.r64
    bigIntResult bi

/-- The branch of `fklProcessVMnumSubResult` for big integers. -/
def subBigInts (sub : BigIntOp) (prev : FklVMvalue D) (s : VMnum D) : Option (FklVMvalue D) := do
  let bi ← withVMvalue sub s.bi prev
  let bi ← withSmall sub { bi with num := -bi.num } s.r64
  bigIntResult bi

/-- The branch of `fklProcessVMnumSubResult` for fixnums. -/
def subFixnums (add sub : BigIntOp) (p64 : Int) (s : VMnum D) : Option (FklVMvalue D) :=
  if fklIsFixAddOverflow p64 (i64 (-s.r64)) then do
    let bi ← withSmall add s.bi p64
    let bi ← withSmall sub bi s.r64
    fklCreateVMvalueBigInt2 bi
  else some (.fix (fklMakeVMFix (i64 (p64 - s.r64))))

def fklProcessVMnumSubResult (add sub : BigIntOp) (prev : FklVMvalue D) (s : VMnum D) :
    Option (FklVMvalue D) :=
  if prev.isF64 ∨ ¬Binary64.beq s.rd (Binary64.ofI64 0) then
    some (.f64 (Binary64.sub (Binary64.sub (Binary64.sub (fklVMgetDouble prev) s.rd)
      (Binary64.ofI64 s.r64)) (fklBigIntToD s.bi)))
  else if prev.isBigInt ∨ ¬s.bi.is0 then subBigInts sub prev s
  else subFixnums add sub prev.getFix s

/-- `builtin_add` -/
def builtinAdd (add : BigIntOp) (args : List (FklVMvalue D)) : Except VMError (FklVMvalue D) := do
  let s ← processAll (fklProcessVMnumAdd add) args ⟨0, Binary64.ofI64 0, bigInt0⟩
  assertOk (fklProcessVMnumAddResult add s)

/-- `builtin_sub` of more than one argument. -/
def builtinSub (add sub : BigIntOp) (prev : FklVMvalue D) (args : List (FklVMvalue D)) :
    Except VMError (FklVMvalue D) := do
  checkType prev.isNumber
  let s ← processAll (fklProcessVMnumAdd add) args ⟨0, Binary64.ofI64 0, bigInt0⟩
  assertOk (fklProcessVMnumSubResult add sub prev s)

/-! The accumulators. -/

abbrev heldSum (args : List (VMInteger D)) : Held := holdAll (· + ·) fklIsFixAddOverflow 0 args

/-- The accumulators stand for the two parts of the sum, the word up to wrapping. -/
structure SumInv (s : VMnum D) (h : Held) : Prop where
  r64 : s.r64 = i64 h.kept
  rd : s.rd = Binary64.ofI64 0
  bi : Holds s.bi h.moved

theorem sumInv_zero : SumInv (⟨0, Binary64.ofI64 0, bigInt0⟩ : VMnum D) ⟨0, 0⟩ where
  r64 := rfl
  rd := rfl
  bi := holds_zero

variable {add sub : BigIntOp}

theorem SumInv.step (hadd : ExactOp add (· + ·)) {s : VMnum D} {h : Held} (hs : SumInv s h)
    {v : FklVMvalue D} (hv : v.IsInteger) :
    ∃ s', checkStep (fklProcessVMnumAdd add v s) = .ok s' ∧
      SumInv s' (hold (· + ·) fklIsFixAddOverflow h v) := by
  cases v with
  | fix c =>
    unfold fklProcessVMnumAdd hold
    dsimp only
    rw [← hs.r64]
    split
    · obtain ⟨y, hy, hold⟩ := withSmall_spec hadd hs.bi c.isFix.isI64
      exact ⟨{ s with bi := y }, congrArg checkStep (bind_eq_of_eq hy rfl), hs.r64, hs.rd, hold⟩
    · refine ⟨_, rfl, ?_, hs.rd, hs.bi⟩
      dsimp only
      rw [hs.r64]
      exact toSigned_add_toSigned 64 _ _
  | bigint b =>
    obtain ⟨y, hy, hold⟩ := withVMvalue_spec hadd hs.bi hv
    exact ⟨{ s with bi := y }, congrArg checkStep (bind_eq_of_eq hy rfl), hs.r64, hs.rd, hold⟩
  | f64 d => exact hv.elim
  | other => exact hv.elim

theorem processAll_add (hadd : ExactOp add (· + ·)) (args : List (VMInteger D)) :
    ∃ s, processAll (fklProcessVMnumAdd add) (args.map (·.val))
        ⟨0, Binary64.ofI64 0, bigInt0⟩ = .ok s ∧ SumInv s (heldSum args) :=
  processAll_spec SumInv (fun _ _ _ hv hs => hs.step hadd hv) args sumInv_zero

omit [Binary64 D] in
theorem heldSum_sum (args : List (VMInteger D)) :
    (heldSum args).kept + (heldSum args).moved = (args.map (·.val.intValue)).sum := by
  rw [List.sum_eq_foldl]
  exact op_holdAll (· + ·) fklIsFixAddOverflow args ⟨0, 0⟩

/-! The results. -/

/-- When the sum of the two parts comes out right. -/
def AddFits (h : Held) : Prop := if h.moved = 0 then IsFix h.kept else IsI64 h.kept

/-- When the difference comes out right. -/
def SubFits (prev : FklVMvalue D) (h : Held) : Prop :=
  if prev.isBigInt ∨ h.moved ≠ 0 ∨ fklIsFixAddOverflow prev.getFix (i64 (-i64 h.kept)) then
    IsI64 h.kept
  else IsFix (prev.getFix - h.kept)

theorem SumInv.is0_iff {s : VMnum D} {h : Held} (hs : SumInv s h) :
    s.bi.is0 = true ↔ h.moved = 0 := by
  rw [hs.bi.normalized.is0_iff, ← hs.bi.value, ← FklBigInt.value_natAbs]
  omega

theorem SumInv.rd_beq {s : VMnum D} {h : Held} (hs : SumInv s h) :
    Binary64.beq s.rd (Binary64.ofI64 0) = true := by
  rw [hs.rd]
  exact Binary64.beq_ofI64 0

omit [Binary64 D] in
/-- A result computed from the wrapped word is right when the word did not wrap. -/
theorem represents_wrapped_iff {r : Option (FklVMvalue D)} {f : Int → Int} {x : Int}
    (hf : Function.Injective f) (hr : ∃ v, r = some v ∧ v.Represents (f (i64 x))) :
    (∃ v, r = some v ∧ v.Represents (f x)) ↔ IsI64 x := by
  obtain ⟨v, rfl, hv⟩ := hr
  constructor
  · rintro ⟨w, hw, hx⟩
    rw [← Option.some.inj hw] at hx
    exact i64_eq_self_iff.mp (hf (hv.unique hx))
  · intro hx
    rw [i64_of_isI64 hx] at hv
    exact ⟨v, rfl, hv⟩

theorem fklProcessVMnumAddResult_iff (hadd : ExactOp add (· + ·)) {s : VMnum D} {h : Held}
    (hs : SumInv s h) :
    (∃ v, fklProcessVMnumAddResult add s = some v ∧ v.Represents (h.kept + h.moved)) ↔
      AddFits h := by
  unfold fklProcessVMnumAddResult AddFits
  rw [if_neg (not_not.mpr hs.rd_beq)]
  by_cases h0 : h.moved = 0
  · rw [if_pos (hs.is0_iff.mpr h0), if_pos h0, h0, add_zero, hs.r64]
    exact represents_cut_iff (toSigned_i64 h.kept)
  · rw [if_neg (fun hc => h0 (hs.is0_iff.mp hc)), if_neg h0, add_comm]
    obtain ⟨y, hy, hsum⟩ := withSmall_spec hadd hs.bi (v := s.r64) (hs.r64 ▸ isI64_i64 _)
    rw [hs.r64] at hsum
    rw [bind_eq_of_eq hy rfl]
    exact represents_wrapped_iff (add_right_injective h.moved) (bigIntResult_spec hsum)

theorem subBigInts_iff (hsub : ExactOp sub (· - ·)) {s : VMnum D} {h : Held} (hs : SumInv s h)
    {prev : FklVMvalue D} (hp : prev.IsInteger) :
    (∃ v, subBigInts sub prev s = some v ∧
      v.Represents (prev.intValue - (h.kept + h.moved))) ↔ IsI64 h.kept := by
  obtain ⟨y, hy, hdiff⟩ := withVMvalue_spec hsub hs.bi hp
  obtain ⟨z, hz, hresult⟩ := withSmall_spec hsub hdiff.neg (v := s.r64) (hs.r64 ▸ isI64_i64 _)
  rw [hs.r64] at hresult
  have hval : ∀ x, -(h.moved - prev.intValue) - x = prev.intValue - (x + h.moved) :=
    fun x => by ring
  rw [hval] at hresult
  unfold subBigInts
  rw [bind_eq_of_eq hy (bind_eq_of_eq hz rfl)]
  refine represents_wrapped_iff (f := fun x => prev.intValue - (x + h.moved)) ?_
    (bigIntResult_spec hresult)
  intro a b hab
  dsimp only at hab
  omega

/-- The overflow test has no false alarms. -/
theorem not_isFix_of_overflow {a b : Int} (h : fklIsFixAddOverflow a b = true) :
    ¬IsFix (a + b) := by
  intro hsum
  have hcut : toSigned 61 (i64 (a + b)) = a + b := by
    rw [toSigned_i64]
    exact fklMakeVMFix_val hsum
  unfold fklIsFixAddOverflow at h
  rw [hcut, decide_eq_true_iff] at h
  omega

/-- Nor has it when the negation of the word wraps. -/
theorem not_isFix_of_overflow_neg {p r : Int} (hr : IsI64 r) (hp : IsFix p)
    (h : fklIsFixAddOverflow p (i64 (-r)) = true) : ¬IsFix (p - r) := by
  by_cases hmin : r = -2 ^ 63
  · have hwrap : i64 (-r) = -4 * (2 ^ 61 : Nat) := by rw [hmin]; decide
    have hcut : toSigned 61 (p + -4 * (2 ^ 61 : Nat)) = p :=
      (Int.add_mul_bmod_self_right p (-4) (2 ^ 61)).trans (fklMakeVMFix_val hp)
    unfold fklIsFixAddOverflow at h
    rw [hwrap, toSigned_i64, hcut, decide_eq_true_iff] at h
    omega
  · have hneg : i64 (-r) = -r := i64_of_isI64 ⟨by omega, by omega⟩
    rw [hneg] at h
    exact not_isFix_of_overflow h

theorem toSigned_add_mul (x k : Int) : toSigned 61 (x + k * 2 ^ 61) = toSigned 61 x := by
  have h := Int.add_mul_bmod_self_right x k (2 ^ 61)
  push_cast at h
  exact h

/-- It misses the sum of the least fixnum with itself, and of zero with the negated least one. -/
theorem isFix_of_not_overflow {a b : Int} (ha : IsFix a)
    (hb : fixIntMin ≤ b ∧ b ≤ -fixIntMin) (hmin : ¬(a = fixIntMin ∧ b = fixIntMin))
    (hzero : ¬(a = 0 ∧ b = -fixIntMin)) (h : fklIsFixAddOverflow a b = false) :
    IsFix (a + b) := by
  by_contra hsum
  simp only [IsFix, fixIntMin, fixIntMax] at ha hb hmin hzero hsum
  unfold fklIsFixAddOverflow at h
  rw [toSigned_i64, decide_eq_false_iff_not] at h
  by_cases hpos : 0 < a + b
  · have hcut : toSigned 61 (a + b) = a + b + -1 * 2 ^ 61 := by
      rw [← toSigned_add_mul _ (-1)]
      exact toSigned_of_mem (w := 60) (by omega) (by omega)
    rw [hcut] at h
    omega
  · have hcut : toSigned 61 (a + b) = a + b + 1 * 2 ^ 61 := by
      rw [← toSigned_add_mul _ 1]
      exact toSigned_of_mem (w := 60) (by omega) (by omega)
    rw [hcut] at h
    omega

theorem subFixnums_iff (hadd : ExactOp add (· + ·)) (hsub : ExactOp sub (· - ·)) {s : VMnum D}
    {h : Held} (hs : SumInv s h) (h0 : h.moved = 0) (p : Fixnum) :
    (∃ v, subFixnums add sub p.val s = some v ∧ v.Represents (p.val - h.kept)) ↔
      if fklIsFixAddOverflow p.val (i64 (-i64 h.kept)) then IsI64 h.kept
      else IsFix (p.val - h.kept) := by
  unfold subFixnums
  rw [hs.r64]
  by_cases hov : fklIsFixAddOverflow p.val (i64 (-i64 h.kept)) = true
  · rw [if_pos hov, if_pos hov]
    obtain ⟨y, hy, hsum⟩ := withSmall_spec hadd hs.bi p.isFix.isI64
    obtain ⟨z, hz, hdiff⟩ := withSmall_spec hsub hsum (isI64_i64 h.kept)
    rw [h0, zero_add] at hdiff
    rw [bind_eq_of_eq hy (bind_eq_of_eq hz rfl)]
    refine represents_wrapped_iff (sub_right_injective (b := p.val)) ?_
    obtain ⟨v, hv, hr⟩ := fklCreateVMvalueBigInt2_spec (D := D) hdiff.normalized
      (hdiff.value ▸ not_isFix_of_overflow_neg (isI64_i64 _) p.isFix hov)
    rw [hdiff.value] at hr
    exact ⟨v, hv, hr⟩
  · rw [if_neg hov, if_neg hov]
    refine represents_cut_iff ?_
    rw [show i64 (p.val - i64 h.kept) = i64 (p.val - h.kept) from toSigned_sub_toSigned 64 _ _,
      toSigned_i64]

theorem fklProcessVMnumSubResult_iff (hadd : ExactOp add (· + ·)) (hsub : ExactOp sub (· - ·))
    {s : VMnum D} {h : Held} (hs : SumInv s h) {prev : FklVMvalue D} (hp : prev.IsInteger) :
    (∃ v, fklProcessVMnumSubResult add sub prev s = some v ∧
      v.Represents (prev.intValue - (h.kept + h.moved))) ↔ SubFits prev h := by
  have hdouble : ¬(prev.isF64 = true ∨ ¬Binary64.beq s.rd (Binary64.ofI64 0) = true) := by
    rw [hs.rd_beq]
    cases prev with
    | f64 d => exact hp.elim
    | _ => simp [FklVMvalue.isF64]
  have hmoved : (¬s.bi.is0 = true) ↔ h.moved ≠ 0 := not_congr hs.is0_iff
  unfold fklProcessVMnumSubResult SubFits
  rw [if_neg hdouble]
  simp only [hmoved]
  by_cases hbig : prev.isBigInt = true ∨ h.moved ≠ 0
  · rw [if_pos hbig, if_pos (hbig.imp_right Or.inl)]
    exact subBigInts_iff hsub hs hp
  · obtain ⟨hprev, h0⟩ := not_or.mp hbig
    have h0 : h.moved = 0 := not_not.mp h0
    rw [if_neg hbig, h0, add_zero]
    simp only [hprev, ne_eq, not_true_eq_false, false_or, Bool.false_eq_true]
    cases prev with
    | fix p => exact subFixnums_iff hadd hsub hs h0 p
    | bigint b => exact absurd rfl hprev
    | f64 d => exact hp.elim
    | other => exact hp.elim

/-! Where the parts stop fitting. -/

/-- The least fixnum comes where the word already is the least fixnum. -/
def AddsMinToMin (args : List (VMInteger D)) : Prop :=
  ∃ pre v suf, args = pre ++ v :: suf ∧ (heldSum pre).kept = fixIntMin ∧
    v.val.getFix = fixIntMin

omit [Binary64 D] in
theorem isFix_hold {h : Held} (hk : IsFix h.kept) (v : FklVMvalue D)
    (hmin : ¬(h.kept = fixIntMin ∧ v.getFix = fixIntMin)) :
    IsFix (hold (· + ·) fklIsFixAddOverflow h v).kept := by
  cases v with
  | fix c =>
    simp only [hold, i64_of_isI64 hk.isI64]
    obtain ⟨hlo, hhi⟩ := c.isFix
    by_cases hov : fklIsFixAddOverflow h.kept c.val = true
    · rw [if_pos hov]
      exact hk
    · rw [if_neg hov]
      have hne : ¬(h.kept = 0 ∧ c.val = -fixIntMin) := by
        simp only [fixIntMin, fixIntMax] at hhi ⊢
        omega
      exact isFix_of_not_overflow hk ⟨hlo, by simp only [fixIntMin, fixIntMax] at hhi ⊢; omega⟩
        hmin hne (Bool.eq_false_iff.mpr hov)
  | _ => exact hk

omit [Binary64 D] in
theorem isFix_heldSum {args : List (VMInteger D)} (h : ¬AddsMinToMin args) :
    IsFix (heldSum args).kept := by
  induction args using List.reverseRecOn with
  | nil =>
    change IsFix 0
    decide
  | append_singleton args v ih =>
    have hbefore : ¬AddsMinToMin args := by
      rintro ⟨pre, w, suf, rfl, hmin⟩
      exact h ⟨pre, w, suf ++ [v], by simp, hmin⟩
    have hlast := isFix_hold (ih hbefore) v.val fun hmin => h ⟨args, v, [], rfl, hmin⟩
    simpa [heldSum, holdAll] using hlast

omit [Binary64 D] in
/-- With a fixnum in the word, only subtracting the least one from zero goes wrong. -/
theorem subFits_iff {prev : FklVMvalue D} {h : Held} (hk : IsFix h.kept) :
    SubFits prev h ↔ ¬(prev.isBigInt = false ∧ h.moved = 0 ∧ prev.getFix = 0 ∧
      h.kept = fixIntMin) := by
  have hneg : i64 (-i64 h.kept) = -h.kept := by
    rw [i64_of_isI64 hk.isI64]
    simp only [IsFix, fixIntMin, fixIntMax] at hk
    exact i64_of_isI64 ⟨by omega, by omega⟩
  unfold SubFits
  rw [hneg]
  by_cases hbig : prev.isBigInt = true
  · rw [if_pos (Or.inl hbig)]
    exact iff_of_true hk.isI64 fun hc => by simp [hbig] at hc
  by_cases h0 : h.moved = 0
  · by_cases hov : fklIsFixAddOverflow prev.getFix (-h.kept) = true
    · rw [if_pos (Or.inr (Or.inr hov))]
      refine iff_of_true hk.isI64 fun hc => ?_
      rw [hc.2.2.1] at hov
      simp [fklIsFixAddOverflow] at hov
    · rw [if_neg (not_or.mpr ⟨hbig, not_or.mpr ⟨not_not.mpr h0, hov⟩⟩)]
      constructor
      · rintro hz ⟨-, -, hp0, hmin⟩
        rw [hp0, hmin] at hz
        exact absurd hz (by decide)
      · intro hc
        have hb : fixIntMin ≤ -h.kept ∧ -h.kept ≤ -fixIntMin ∧ -h.kept ≠ fixIntMin := by
          simp only [IsFix, fixIntMin, fixIntMax] at hk ⊢
          omega
        exact isFix_of_not_overflow prev.isFix_getFix ⟨hb.1, hb.2.1⟩ (fun he => hb.2.2 he.2)
          (fun he => hc ⟨Bool.eq_false_iff.mpr hbig, h0, he.1, neg_inj.mp he.2⟩)
          (Bool.eq_false_iff.mpr hov)
  · rw [if_pos (Or.inr (Or.inl h0))]
    exact iff_of_true hk.isI64 fun hc => h0 hc.2.1

/-! The theorem, with exact operations to instantiate it. -/

/-- The digits of an integer, in a block with a word to spare. -/
def FklBigInt.ofInt (z : Int) : FklBigInt :=
  bigintNormalize ⟨fun i => z.natAbs / digitBase ^ i % digitBase,
    if z < 0 then -(z.natAbs + 1 : Nat) else (z.natAbs + 1 : Nat), z.natAbs + 1, false⟩

theorem FklBigInt.ofInt_holds (z : Int) : Holds (FklBigInt.ofInt z) z := by
  set x : FklBigInt := ⟨fun i => z.natAbs / digitBase ^ i % digitBase,
    if z < 0 then -(z.natAbs + 1 : Nat) else (z.natAbs + 1 : Nat), z.natAbs + 1, false⟩ with hx
  have hlen : x.num.natAbs = z.natAbs + 1 := by
    dsimp only [x]
    split <;> omega
  have hwf : x.Wf := ⟨fun i _ => Nat.mod_lt _ digitBase_pos, hlen.le⟩
  have hmag : x.mag = z.natAbs := by
    unfold FklBigInt.mag
    rw [hlen, positional_digits]
    refine Nat.mod_eq_of_lt (Nat.lt_of_lt_of_le (Nat.lt_two_pow_self (n := z.natAbs + 1)) ?_ |>.trans'
      (Nat.lt_succ_self _))
    exact Nat.pow_le_pow_left (by decide) _
  refine ⟨?_, bigintNormalize_normalized hwf, rfl⟩
  change (bigintNormalize x).value = z
  rw [bigintNormalize_value]
  by_cases hneg : z < 0
  · rw [FklBigInt.value_of_neg (by dsimp only [x]; rw [if_pos hneg]; omega), hmag]
    omega
  · rw [FklBigInt.value_of_nonneg (by dsimp only [x]; rw [if_neg hneg]; omega), hmag]
    omega

/-- The operation that writes the exact result `f`. -/
def exactly (f : Int → Int → Int) : BigIntOp := fun m a b =>
  some (Function.update m a (FklBigInt.ofInt (f (m a).value (m b).value)))

theorem exactly_exactOp (f : Int → Int → Int) : ExactOp (exactly f) f := by
  intro m _ _ hheap
  have hr := FklBigInt.ofInt_holds (f (m false).value (m true).value)
  exact ⟨_, rfl, update_leaves hr.value hr.normalized (hr.heap.trans hheap.symm)⟩

/-- The sum of a list and its difference from a number are exact, in the right form, exactly
when the part left in the machine word fits: into a fixnum when nothing is added to it, into
64 bits otherwise. It is a fixnum unless the least one is added to itself, and then only the
difference of zero and the least one goes wrong. -/
theorem builtinAdd_builtinSub_exact_iff (hadd : ExactOp add (· + ·)) (hsub : ExactOp sub (· - ·))
    (prev : VMInteger D) (args : List (VMInteger D)) :
    let sum := (args.map (·.val.intValue)).sum
    ((∃ v, builtinAdd add (args.map (·.val)) = .ok v ∧ v.Represents sum) ↔
      AddFits (heldSum args)) ∧
    ((∃ v, builtinSub add sub prev.val (args.map (·.val)) = .ok v ∧
      v.Represents (prev.val.intValue - sum)) ↔ SubFits prev.val (heldSum args)) ∧
    (AddsMinToMin args ∨ IsFix (heldSum args).kept ∧
      (SubFits prev.val (heldSum args) ↔ ¬(prev.val.isBigInt = false ∧
        (heldSum args).moved = 0 ∧ prev.val.getFix = 0 ∧ (heldSum args).kept = fixIntMin))) := by
  intro sum
  obtain ⟨s, hrun, hs⟩ := processAll_add hadd args
  have hadd' : ∀ v, builtinAdd add (args.map (·.val)) = .ok v ↔
      fklProcessVMnumAddResult add s = some v := by
    intro v
    rw [← assertOk_eq_ok]
    unfold builtinAdd
    rw [hrun]
    rfl
  have hsub' : ∀ v, builtinSub add sub prev.val (args.map (·.val)) = .ok v ↔
      fklProcessVMnumSubResult add sub prev.val s = some v := by
    intro v
    rw [← assertOk_eq_ok]
    unfold builtinSub
    rw [checkType_eq_ok (FklVMvalue.isNumber_of_integer prev.property), hrun]
    rfl
  have hsum : sum = (heldSum args).kept + (heldSum args).moved := (heldSum_sum args).symm
  simp only [hadd', hsub', hsum]
  refine ⟨fklProcessVMnumAddResult_iff hadd hs,
    fklProcessVMnumSubResult_iff hadd hsub hs prev.property, ?_⟩
  by_cases hmin : AddsMinToMin args
  · exact .inl hmin
  · have hk := isFix_heldSum hmin
    exact .inr ⟨hk, subFits_iff hk⟩

theorem builtinAdd_builtinSub_small :
    let args := [fixArg 5, fixArg (-7)]
    let sum := (args.map (·.val.intValue)).sum
    ((∃ v, builtinAdd (exactly (· + ·)) (args.map (·.val)) = .ok v ∧ v.Represents sum) ↔
      AddFits (heldSum args)) ∧
    ((∃ v, builtinSub (exactly (· + ·)) (exactly (· - ·)) (fixArg 3).val (args.map (·.val)) =
      .ok v ∧ v.Represents ((fixArg 3).val.intValue - sum)) ↔
      SubFits (fixArg 3).val (heldSum args)) ∧
    (AddsMinToMin args ∨ IsFix (heldSum args).kept ∧
      (SubFits (fixArg 3).val (heldSum args) ↔ ¬((fixArg 3).val.isBigInt = false ∧
        (heldSum args).moved = 0 ∧ (fixArg 3).val.getFix = 0 ∧
        (heldSum args).kept = fixIntMin))) :=
  builtinAdd_builtinSub_exact_iff (exactly_exactOp _) (exactly_exactOp _) (fixArg 3) _

/-- The least fixnum twice: the cut sum is zero, which is not positive, and so is the result. -/
theorem builtinAdd_fixIntMin_twice :
    let args := [fixArg fixIntMin, fixArg fixIntMin]
    builtinAdd (exactly (· + ·)) (args.map (·.val)) = .ok (fixArg 0).val ∧
      ¬∃ v, builtinAdd (exactly (· + ·)) (args.map (·.val)) = .ok v ∧
        v.Represents (args.map (·.val.intValue)).sum := by
  have hrun : builtinAdd (exactly (· + ·)) [(fixArg fixIntMin).val, (fixArg fixIntMin).val] =
      .ok (fixArg 0).val := by
    rfl
  refine ⟨hrun, ?_⟩
  rintro ⟨v, hv, hr⟩
  rw [← Except.ok.inj (hrun.symm.trans hv)] at hr
  exact absurd hr.value (by decide)

end FakeLisp
