import FakeLisp.VMNumProduct
import FakeLisp.VMNumSum

/-! The other number operations of the machine: negation, adding a small constant,
division and remainder. -/

namespace FakeLisp

variable {D : Type} [Binary64 D]

/-! Big integers. -/

/-- Run a binary operation of two big integers in different places. -/
def withBigInt (op : BigIntOp) (a b : FklBigInt) : Option FklBigInt := do
  let m ← op (fun r => if r then b else a) false true
  some (m false)

def fklDivBigInt : BigIntOp := fun m a d => do
  let (m, _) ← fklDivRemBigInt m a d none
  some m

def fklRemBigInt : BigIntOp := fun m a d => do
  let (m, _) ← fklDivRemBigInt m a d (some a)
  some m

def fklIsDivisibleBigInt (a d : FklBigInt) : Option Bool := do
  let rem ← fklSetBigInt bigInt0 a
  let rem ← withBigInt fklRemBigInt rem d
  some (rem.num = 0)

def fklIsDivisibleBigIntI (a : FklBigInt) (d : Int) : Option Bool := do
  let bi ← setBigintI64WithoutEnsure smallOperand d
  fklIsDivisibleBigInt a bi

def fklBigIntEqual (a b : FklBigInt) : Bool :=
  a.num = b.num ∧ ∀ i < (fklAbs a.num).toNat, a.digits i = b.digits i

/-- `FKL_BIGINT_SUB_1_MAX` -/
def bigintSub1Max : FklBigInt := constBigInt [0, 0, 1] 3

/-- `FKL_BIGINT_ADD_1_MIN` -/
def bigintAdd1Min : FklBigInt := constBigInt [1, 0, 1] (-3)

def fklIsBigIntGtLtI64 (a : FklBigInt) : Bool :=
  fklBigIntCmp a i64MaxBigint > 0 ∨ fklBigIntCmp a i64MinBigint < 0

def fklIsBigIntAddkInFixIntRange (a : FklBigInt) (k : Int) : Bool :=
  if k = 1 then fklBigIntEqual a bigintAdd1Min
  else if k = -1 then fklBigIntEqual a bigintSub1Max
  else if fklIsBigIntGtLtI64 a then false
  else
    let i := fklBigIntToI a
    if i > 0 ∧ k ≤ 0 then i64 (i + k) ≤ fixIntMax
    else if i < 0 ∧ k ≥ 0 then i64 (i + k) ≥ fixIntMin
    else if i < 0 then i ≥ fixIntMin ∧ i64 (i + k) ≥ fixIntMin
    else if i > 0 then i ≤ fixIntMax ∧ i64 (i + k) ≤ fixIntMax
    else true

/-- `fklCreateVMvalueBigIntWithI64` -/
def fklCreateVMvalueBigIntWithI64 (i : Int) : Option (FklVMvalue D) := do
  let bi ← fklSetBigIntI smallOperand i
  fklAssert (fklIsBigIntGtLtFix bi = true)
  fklCreateVMvalueBigInt2 bi

/-- `fklVMbigIntAddI`: the sum is written into a copy, whose block does not grow. -/
def fklVMbigIntAddI (a : FklVMvalueBigInt) (b : Int) : Option (FklVMvalue D) := do
  let t ← fklSetBigInt ⟨fun _ => 0, 0, (fklAbs a.num).toNat + 1, true⟩ (fklVMbigIntToBigInt a)
  fklAssert (fklIsBigIntGtLtFix t = true)
  let a1 ← fklSetBigInt ⟨t.digits, 0, (fklAbs t.num).toNat, true⟩ (fklVMbigIntToBigInt a)
  let a1 ← withSmall fklAddBigInt a1 b
  some (.bigint ⟨a1.num, a1.digits⟩)

/-! One operand. -/

/-- A number of the same value: big integers and doubles are copied. -/
def copyNumber (v : FklVMvalue D) : Except VMError (FklVMvalue D) :=
  match v with
  | .bigint b => assertOk (fklCreateVMvalueBigInt2 (fklVMbigIntToBigInt b))
  | .f64 d => .ok (.f64 d)
  | .fix c => .ok (.fix c)
  | .other => .error .incorrectTypeValue

def fklProcessVMnumAddk (arg : FklVMvalue D) (k : Int) : Except VMError (FklVMvalue D) :=
  match arg with
  | .fix c =>
    let i := i64 (c.val + k)
    if i > fixIntMax ∨ i < fixIntMin then assertOk (fklCreateVMvalueBigIntWithI64 i)
    else .ok (.fix (fklMakeVMFix i))
  | .bigint b =>
    if fklIsBigIntAddkInFixIntRange (fklVMbigIntToBigInt b) k then
      .ok (.fix (fklMakeVMFix (i64 (fklBigIntToI (fklVMbigIntToBigInt b) + k))))
    else assertOk (fklVMbigIntAddI b k)
  | .f64 d => .ok (.f64 (Binary64.add d (Binary64.ofI64 k)))
  | .other => .error .incorrectTypeValue

/-- `fklProcessVMnumNeg`, which takes what is no number for a big integer. -/
def fklProcessVMnumNeg (prev : FklVMvalue D) : Except VMError (FklVMvalue D) :=
  match prev with
  | .f64 d => .ok (.f64 (Binary64.neg d))
  | .fix c =>
    let p64 := i64 (-c.val)
    if p64 > fixIntMax then assertOk (fklCreateVMvalueBigIntWithI64 p64)
    else .ok (.fix (fklMakeVMFix p64))
  | .bigint b => assertOk (bigIntResult ⟨b.digits, -b.num, (fklAbs b.num).toNat, true⟩)
  | .other => .error .unreachable

def fklProcessVMnumRec (prev : FklVMvalue D) : Except VMError (FklVMvalue D) :=
  match prev with
  | .f64 d => .ok (.f64 (Binary64.div (Binary64.ofI64 1) d))
  | .fix c =>
    if c.val = 0 then .error .divZeroError
    else if c.val = 1 then .ok (.fix (fklMakeVMFix 1))
    else if c.val = -1 then .ok (.fix (fklMakeVMFix (-1)))
    else .ok (.f64 (Binary64.div (Binary64.ofI64 1) (Binary64.ofI64 c.val)))
  | .bigint b =>
    let bi := fklVMbigIntToBigInt b
    if bi.is1 then .ok (.fix (fklMakeVMFix 1))
    else if bi.isN1 then .ok (.fix (fklMakeVMFix (-1)))
    else .ok (.f64 (Binary64.div (Binary64.ofI64 1) (fklBigIntToD bi)))
  | .other => .error .unreachable

/-! Division. -/

def fklProcessVMintMul (cur : FklVMvalue D) (s : VMnum D) : Option (Int × VMnum D) :=
  match cur with
  | .fix _ | .bigint _ => fklProcessVMnumMul cur s
  | _ => some (1, { s with bi := bigInt0 })

/-- `fklSetBigIntI` or `fklSetBigIntWithVMbigInt` of an integer. -/
def setIntegerValue (v : FklVMvalue D) : Option FklBigInt :=
  match v with
  | .bigint b => fklSetBigInt bigInt0 (fklVMbigIntToBigInt b)
  | v => fklSetBigIntI bigInt0 v.getFix

/-- Divide by the big integer unless it is the default one. -/
def divByBigInt (t bi : FklBigInt) : Option FklBigInt :=
  if bi.isDefault then some t else withBigInt fklDivBigInt t bi

/-- The branch of the quotients for big integers. -/
def divBigInts (prev : FklVMvalue D) (s : VMnum D) : Option (FklVMvalue D) := do
  let t ← setIntegerValue prev
  let t ← divByBigInt t s.bi
  let t ← withSmall fklDivBigInt t s.r64
  bigIntResult t

/-- `PROCESS_DIV_RES` and `PROCESS_IDIV_RES` raise an error. -/
def divisorIsZero (s : VMnum D) : Bool := s.r64 = 0 ∨ (s.bi.num = 0 ∧ ¬s.bi.isDefault)

def fklProcessVMnumIdivResult (prev : FklVMvalue D) (s : VMnum D) : Option (FklVMvalue D) :=
  if prev.isBigInt ∨ (¬s.bi.isDefault ∧ ¬s.bi.is1) then divBigInts prev s
  else some (.fix (fklMakeVMFix (prev.getFix.tdiv s.r64)))

/-- Does the big integer leave a remainder by one of the two divisors? -/
def leavesRemainder (b : FklBigInt) (s : VMnum D) : Option Bool :=
  if ¬s.bi.isDefault ∧ ¬s.bi.is1 then do
    let d ← fklIsDivisibleBigInt b s.bi
    if d then do
      let d ← fklIsDivisibleBigIntI b s.r64
      some (!d)
    else some true
  else do
    let d ← fklIsDivisibleBigIntI b s.r64
    some (!d)

/-- The test of `fklProcessVMnumDivResult` for a quotient that is a double. -/
def quotientIsDouble (prev : FklVMvalue D) (s : VMnum D) : Option Bool :=
  if prev.isF64 ∨ ¬Binary64.beq s.rd (Binary64.ofI64 1) then some true
  else
    match prev with
    | .fix c => some ((s.bi.isDefault ∨ s.bi.is1) ∧ c.val.tmod s.r64 ≠ 0)
    | .bigint b => leavesRemainder (fklVMbigIntToBigInt b) s
    | _ => some false

def doubleQuotient (prev : FklVMvalue D) (s : VMnum D) : D :=
  let q := Binary64.div (Binary64.div (fklVMgetDouble prev) s.rd) (Binary64.ofI64 s.r64)
  if s.bi.isDefault then q else Binary64.div q (fklBigIntToD s.bi)

def fklProcessVMnumDivResult (prev : FklVMvalue D) (s : VMnum D) : Option (FklVMvalue D) := do
  let double ← quotientIsDouble prev s
  if double then some (.f64 (doubleQuotient prev s))
  else if prev.isBigInt ∨ (¬s.bi.isDefault ∧ ¬s.bi.is1) then divBigInts prev s
  else some (.fix (fklMakeVMFix (prev.getFix.tdiv s.r64)))

/-- The remainder of integers that are not both fixnums; `none` for a divisor of zero. -/
def remBigInts (fir sec : FklVMvalue D) : Option (Option FklBigInt) := do
  let rem ← setIntegerValue fir
  match sec with
  | .bigint b =>
    if (fklVMbigIntToBigInt b).is0 then some none
    else some <$> withBigInt fklRemBigInt rem (fklVMbigIntToBigInt b)
  | v => if v.getFix = 0 then some none else some <$> withSmall fklRemBigInt rem v.getFix

def fklProcessVMnumMod (fir sec : FklVMvalue D) : Except VMError (FklVMvalue D) :=
  if fir.isF64 ∨ sec.isF64 then
    .ok (.f64 (Binary64.fmod (fklVMgetDouble fir) (fklVMgetDouble sec)))
  else if fir.isFix ∧ sec.isFix then
    if sec.getFix = 0 then .error .divZeroError
    else .ok (.fix (fklMakeVMFix (fir.getFix.tmod sec.getFix)))
  else
    match remBigInts fir sec with
    | none => .error .assertionFailed
    | some none => .error .divZeroError
    | some (some rem) => assertOk (bigIntResult rem)

/-! The operations on the operands that an instruction pops, in the order they were pushed. -/

/-- `FKL_OP_ADD` -/
def addNumbers : List (FklVMvalue D) → Except VMError (FklVMvalue D)
  | [v] => copyNumber v
  | vs => builtinAdd fklAddBigInt vs

/-- `FKL_OP_SUB` -/
def subNumbers : List (FklVMvalue D) → Except VMError (FklVMvalue D)
  | [v] => fklProcessVMnumNeg v
  | prev :: vs => builtinSub fklAddBigInt fklSubBigInt prev vs
  | [] => .error .unreachable

/-- `FKL_OP_MUL` -/
def mulNumbers : List (FklVMvalue D) → Except VMError (FklVMvalue D)
  | [v] => copyNumber v
  | vs => builtinMul vs

/-- The end of a division: raise an error or compute the quotient. -/
def divide (result : VMnum D → Option (FklVMvalue D)) (s : VMnum D) :
    Except VMError (FklVMvalue D) :=
  if divisorIsZero s then .error .divZeroError else assertOk (result s)

/-- `FKL_OP_DIV` -/
def divNumbers : List (FklVMvalue D) → Except VMError (FklVMvalue D)
  | [v] => do
    checkType v.isNumber
    fklProcessVMnumRec v
  | prev :: vs => do
    checkType prev.isNumber
    let s ← processAll fklProcessVMnumMul vs ⟨1, Binary64.ofI64 1, bigInt0⟩
    divide (fklProcessVMnumDivResult prev) s
  | [] => .error .unreachable

/-- `FKL_OP_DIV` with the sub-operation `-2` -/
def modNumbers : List (FklVMvalue D) → Except VMError (FklVMvalue D)
  | [fir, sec] => do
    checkType (fir.isNumber && sec.isNumber)
    fklProcessVMnumMod fir sec
  | _ => .error .unreachable

/-- `FKL_OP_IDIV` -/
def idivNumbers : List (FklVMvalue D) → Except VMError (FklVMvalue D)
  | prev :: vs => do
    checkType prev.isVMint
    let s ← processAll fklProcessVMintMul vs ⟨1, Binary64.ofI64 1, bigInt0⟩
    divide (fklProcessVMnumIdivResult prev) s
  | [] => .error .unreachable

/-! Fixnums whose results are fixnums. -/

def fixv (i : Int) : FklVMvalue D := .fix (fklMakeVMFix i)

/-- Every result of the chain of operations is a fixnum. -/
def FixChain (g : Int → Int → Int) : Int → List Int → Prop
  | _, [] => True
  | r, c :: cs => IsFix c ∧ IsFix (g r c) ∧ FixChain g (g r c) cs

omit [Binary64 D] in
theorem processAll_fixes {step : FklVMvalue D → VMnum D → Option (Int × VMnum D)}
    {g : Int → Int → Int}
    (hstep : ∀ (s : VMnum D) c, IsFix s.r64 → IsFix c → IsFix (g s.r64 c) →
      step (fixv c) s = some (0, { s with r64 := g s.r64 c }))
    {cs : List Int} {s : VMnum D} (hs : IsFix s.r64) (h : FixChain g s.r64 cs) :
    processAll step (cs.map fixv) s = .ok { s with r64 := cs.foldl g s.r64 } := by
  induction cs generalizing s with
  | nil => rfl
  | cons c cs ih =>
    obtain ⟨hc, hr, hrest⟩ := h
    change (checkStep (step (fixv c) s) >>= processAll step (cs.map fixv)) = _
    rw [hstep s c hs hc hr]
    exact ih hr hrest

theorem fklProcessVMnumAdd_fix {add : BigIntOp} (s : VMnum D) (c : Int) (_ : IsFix s.r64)
    (hc : IsFix c) (h : IsFix (s.r64 + c)) :
    fklProcessVMnumAdd add (fixv c) s = some (0, { s with r64 := s.r64 + c }) := by
  have hov : fklIsFixAddOverflow s.r64 c = false :=
    Bool.eq_false_iff.mpr fun ho => not_isFix_of_overflow ho h
  simp [fklProcessVMnumAdd, fixv, fklMakeVMFix_val hc, hov, i64_of_isI64 h.isI64]

theorem fklProcessVMnumMul_fix (s : VMnum D) (c : Int) (hs : IsFix s.r64) (hc : IsFix c)
    (h : IsFix (s.r64 * c)) :
    fklProcessVMnumMul (fixv c) s = some (0, { s with r64 := s.r64 * c }) := by
  have hov := (fklIsFixMulOverflow_eq_false_iff hs hc).mpr (Or.inl h)
  simp [fklProcessVMnumMul, fixv, fklMakeVMFix_val hc, hov, i64_of_isI64 h.isI64]

theorem fklProcessVMintMul_fix (s : VMnum D) (c : Int) (hs : IsFix s.r64) (hc : IsFix c)
    (h : IsFix (s.r64 * c)) :
    fklProcessVMintMul (fixv c) s = some (0, { s with r64 := s.r64 * c }) :=
  fklProcessVMnumMul_fix s c hs hc h

theorem isFix_zero : IsFix 0 := ⟨by decide, by decide⟩

theorem isFix_one : IsFix 1 := ⟨by decide, by decide⟩

theorem builtinAdd_fixes (add : BigIntOp) (cs : List Int) (h : FixChain (· + ·) 0 cs) :
    builtinAdd add (cs.map (fixv (D := D))) = .ok (fixv (cs.foldl (· + ·) 0)) := by
  unfold builtinAdd
  rw [processAll_fixes fklProcessVMnumAdd_fix isFix_zero h]
  change assertOk (fklProcessVMnumAddResult add _) = _
  unfold fklProcessVMnumAddResult
  rw [if_neg (not_not.mpr (Binary64.beq_ofI64 0)), if_pos (by rfl)]
  rfl

theorem builtinSub_fixes (add sub : BigIntOp) {p : Int} (cs : List Int)
    (hp : IsFix p) (h : FixChain (· + ·) 0 cs)
    (hneg : IsFix (-cs.foldl (· + ·) 0)) (hd : IsFix (p - cs.foldl (· + ·) 0)) :
    builtinSub add sub (fixv (D := D) p) (cs.map fixv) =
      .ok (fixv (p - cs.foldl (· + ·) 0)) := by
  unfold builtinSub
  rw [processAll_fixes fklProcessVMnumAdd_fix isFix_zero h]
  change assertOk (fklProcessVMnumSubResult add sub (fixv p) _) = _
  unfold fklProcessVMnumSubResult subFixnums
  rw [if_neg (by simp [fixv, FklVMvalue.isF64, Binary64.beq_ofI64]),
    if_neg (by simp [fixv, FklVMvalue.isBigInt, FklBigInt.is0, bigInt0])]
  have hov : fklIsFixAddOverflow p (i64 (-cs.foldl (· + ·) 0)) = false := by
    rw [i64_of_isI64 hneg.isI64]
    exact Bool.eq_false_iff.mpr fun ho => not_isFix_of_overflow ho (by rwa [← sub_eq_add_neg])
  simp only [fixv, FklVMvalue.getFix, fklMakeVMFix_val hp, hov, i64_of_isI64 hd.isI64]
  rfl

theorem builtinMul_fixes (cs : List Int) (h : FixChain (· * ·) 1 cs) :
    builtinMul (cs.map (fixv (D := D))) = .ok (fixv (cs.foldl (· * ·) 1)) := by
  unfold builtinMul
  rw [processAll_fixes fklProcessVMnumMul_fix isFix_one h]
  change assertOk (fklProcessVMnumMulResult _) = _
  unfold fklProcessVMnumMulResult
  rw [if_neg (not_not.mpr (Binary64.beq_ofI64 1)), if_pos (Or.inl (by rfl))]
  rfl

/-- Without a big integer the divisor is the word. -/
theorem divide_fixes {result : VMnum D → Option (FklVMvalue D)} {r : Int} :
    divide result ⟨r, Binary64.ofI64 1, bigInt0⟩ = if r = 0 then .error .divZeroError
      else assertOk (result ⟨r, Binary64.ofI64 1, bigInt0⟩) := by
  have hdefault : bigInt0.isDefault = true := rfl
  simp [divide, divisorIsZero, hdefault]

theorem divNumbers_fixes {p c : Int} {cs : List Int} (hp : IsFix p)
    (h : FixChain (· * ·) 1 (c :: cs)) :
    divNumbers (fixv (D := D) p :: (c :: cs).map fixv) =
      if (c :: cs).foldl (· * ·) 1 = 0 then .error .divZeroError
      else .ok (if p.tmod ((c :: cs).foldl (· * ·) 1) ≠ 0 then
        .f64 (doubleQuotient (fixv p) ⟨(c :: cs).foldl (· * ·) 1, Binary64.ofI64 1, bigInt0⟩)
        else fixv (p.tdiv ((c :: cs).foldl (· * ·) 1))) := by
  have hrun := processAll_fixes (D := D) fklProcessVMnumMul_fix
    (s := ⟨1, Binary64.ofI64 1, bigInt0⟩) isFix_one h
  generalize hr : (c :: cs).foldl (· * ·) 1 = r at hrun ⊢
  have hq : quotientIsDouble (fixv (D := D) p) ⟨r, Binary64.ofI64 1, bigInt0⟩ =
      some (decide (p.tmod r ≠ 0)) := by
    simp [quotientIsDouble, fixv, FklVMvalue.isF64, Binary64.beq_ofI64, fklMakeVMFix_val hp,
      show bigInt0.isDefault = true from rfl]
  have hresult : fklProcessVMnumDivResult (fixv (D := D) p) ⟨r, Binary64.ofI64 1, bigInt0⟩ =
      some (if p.tmod r ≠ 0 then .f64 (doubleQuotient (fixv p) ⟨r, Binary64.ofI64 1, bigInt0⟩)
        else fixv (p.tdiv r)) := by
    unfold fklProcessVMnumDivResult
    refine bind_eq_of_eq hq ?_
    by_cases hm : p.tmod r = 0
    · simp [hm, fixv, FklVMvalue.isBigInt, FklVMvalue.getFix, fklMakeVMFix_val hp,
        show bigInt0.isDefault = true from rfl]
    · simp [hm]
  simp only [divNumbers, List.map_cons] at hrun ⊢
  rw [checkType_eq_ok (by rfl), hrun]
  change divide _ _ = _
  rw [divide_fixes, hresult]
  rfl

theorem idivNumbers_fixes {p : Int} {cs : List Int} (hp : IsFix p) (h : FixChain (· * ·) 1 cs) :
    idivNumbers (fixv (D := D) p :: cs.map fixv) =
      if cs.foldl (· * ·) 1 = 0 then .error .divZeroError
      else .ok (fixv (p.tdiv (cs.foldl (· * ·) 1))) := by
  have hrun := processAll_fixes (D := D) fklProcessVMintMul_fix
    (s := ⟨1, Binary64.ofI64 1, bigInt0⟩) isFix_one h
  generalize cs.foldl (· * ·) 1 = r at hrun ⊢
  have hresult : fklProcessVMnumIdivResult (fixv (D := D) p) ⟨r, Binary64.ofI64 1, bigInt0⟩ =
      some (fixv (p.tdiv r)) := by
    simp [fklProcessVMnumIdivResult, fixv, FklVMvalue.isBigInt, FklVMvalue.getFix,
      fklMakeVMFix_val hp, show bigInt0.isDefault = true from rfl]
  simp only [idivNumbers]
  rw [checkType_eq_ok (by rfl), hrun]
  change divide _ _ = _
  rw [divide_fixes, hresult]
  rfl

theorem modNumbers_fixes {a b : Int} (ha : IsFix a) (hb : IsFix b) :
    modNumbers [fixv (D := D) a, fixv b] =
      if b = 0 then .error .divZeroError else .ok (fixv (a.tmod b)) := by
  simp only [modNumbers]
  rw [checkType_eq_ok (by rfl)]
  change fklProcessVMnumMod (fixv a) (fixv b) = _
  simp [fklProcessVMnumMod, fixv, FklVMvalue.isF64, FklVMvalue.isFix, FklVMvalue.getFix,
    fklMakeVMFix_val ha, fklMakeVMFix_val hb]

end FakeLisp
