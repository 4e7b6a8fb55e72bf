import FakeLisp.BigIntCmp
import FakeLisp.BigIntParse
import FakeLisp.Overflow

/-! The numbers of the virtual machine, the accumulators of its arithmetic, and
the overflow tests on 61-bit fixnums. -/

namespace FakeLisp

/-- The doubles, as far as number arithmetic computes with them; no integer converts to
one that differs from itself. -/
class Binary64 (D : Type) where
  ofI64 : Int → D
  add : D → D → D
  sub : D → D → D
  mul : D → D → D
  div : D → D → D
  neg : D → D
  fmod : D → D → D
  beq : D → D → Bool
  beq_ofI64 : ∀ i, beq (ofI64 i) (ofI64 i) = true

/-- A tagged pointer with tag `FKL_TAG_FIX`: 61 bits are left for the number. -/
structure Fixnum where
  val : Int
  isFix : IsFix val
  deriving DecidableEq

theorem isFix_toSigned (i : Int) : IsFix (toSigned 61 i) := by
  have hlo : -2 ^ 60 ≤ toSigned 61 i := toSigned_le 60 i
  have hhi : toSigned 61 i < 2 ^ 60 := toSigned_lt 60 i
  simp only [IsFix, fixIntMin, fixIntMax]
  omega

/-- `FKL_MAKE_VM_FIX`: the shift by the three tag bits drops the top ones. -/
def fklMakeVMFix (i : Int) : Fixnum where
  val := toSigned 61 i
  isFix := isFix_toSigned i

theorem fklMakeVMFix_val {i : Int} (h : IsFix i) : (fklMakeVMFix i).val = i := by
  simp only [IsFix, fixIntMin, fixIntMax] at h
  exact toSigned_of_mem (w := 60) (by omega) (by omega)

structure FklVMvalueBigInt where
  num : Int
  digits : Nat → Nat

/-- The values that arithmetic tells apart; `other` is everything that is not a number. -/
inductive FklVMvalue (D : Type) where
  | fix (i : Fixnum)
  | bigint (b : FklVMvalueBigInt)
  | f64 (d : D)
  | other

def fklVMbigIntToBigInt (b : FklVMvalueBigInt) : FklBigInt :=
  ⟨b.digits, b.num, (fklAbs b.num).toNat, true⟩

variable {D : Type}

namespace FklVMvalue

/-- `FKL_IS_FIX` -/
def isFix : FklVMvalue D → Bool
  | .fix _ => true
  | _ => false

/-- `FKL_IS_BIGINT` -/
def isBigInt : FklVMvalue D → Bool
  | .bigint _ => true
  | _ => false

/-- `FKL_IS_F64` -/
def isF64 : FklVMvalue D → Bool
  | .f64 _ => true
  | _ => false

/-- `FKL_GET_FIX` -/
def getFix : FklVMvalue D → Int
  | .fix i => i.val
  | _ => 0

/-- `fklIsVMint` -/
def isVMint (v : FklVMvalue D) : Bool := v.isFix || v.isBigInt

/-- `fklIsVMnumber` -/
def isNumber (v : FklVMvalue D) : Bool := v.isFix || v.isBigInt || v.isF64

/-- The integers of the machine: fixnums and normalized big integers. -/
def IsInteger : FklVMvalue D → Prop
  | .fix _ => True
  | .bigint b => (fklVMbigIntToBigInt b).Normalized
  | _ => False

def intValue : FklVMvalue D → Int
  | .fix i => i.val
  | .bigint b => (fklVMbigIntToBigInt b).value
  | _ => 0

theorem isFix_getFix (v : FklVMvalue D) : IsFix v.getFix := by
  cases v with
  | fix i => exact i.isFix
  | _ =>
    change IsFix 0
    decide

theorem isNumber_of_integer {v : FklVMvalue D} (h : v.IsInteger) : v.isNumber = true := by
  cases v with
  | fix i => rfl
  | bigint b => rfl
  | f64 d => exact h.elim
  | other => exact h.elim

/-- `v` stands for `z` in the form the machine keeps it: a fixnum exactly when it fits. -/
structure Represents (v : FklVMvalue D) (z : Int) : Prop where
  integer : v.IsInteger
  value : v.intValue = z
  form : v.isFix = true ↔ IsFix z

end FklVMvalue

abbrev VMInteger (D : Type) := {v : FklVMvalue D // v.IsInteger}

/-! The overflow tests. -/

/-- `fklIsFixAddOverflow`; the sum goes through a bit field of 61 bits. -/
def fklIsFixAddOverflow (a b : Int) : Bool :=
  let sum := toSigned 61 (i64 (a + b))
  (a < 0 ∧ b < 0 ∧ sum > 0) ∨ (a > 0 ∧ b > 0 ∧ sum < 0)

/-- `fklIsFixMulOverflow` -/
def fklIsFixMulOverflow (a b : Int) : Bool := mulOverflowTest 61 64 fixIntMax fixIntMin a b

/-! Operations on the big integer of an accumulator. -/

/-- The operations in place, on two objects `false` and `true`. -/
abbrev BigIntOp := BigIntMem Bool → Bool → Bool → Option (BigIntMem Bool)

/-- `fklAddVMbigInt` and its siblings. -/
def withVMbigInt (op : BigIntOp) (a : FklBigInt) (b : FklVMvalueBigInt) : Option FklBigInt := do
  let m ← op (fun r => if r then fklVMbigIntToBigInt b else a) false true
  some (m false)

/-- The second operand is an integer of the machine. -/
def withVMvalue (op : BigIntOp) (a : FklBigInt) (v : FklVMvalue D) : Option FklBigInt :=
  match v with
  | .bigint b => withVMbigInt op a b
  | v => withSmall op a v.getFix

/-- `fklCreateVMvalueBigInt2`: copy into a block of one word more than needed. -/
def fklCreateVMvalueBigInt2 (bi : FklBigInt) : Option (FklVMvalue D) := do
  fklAssert (fklIsBigIntGtLtFix bi = true)
  let t ← fklSetBigInt ⟨fun _ => 0, 0, (fklAbs bi.num).toNat + 1, true⟩ bi
  some (.bigint ⟨t.num, t.digits⟩)

/-- The end of the result functions. -/
def bigIntResult (bi : FklBigInt) : Option (FklVMvalue D) :=
  if fklIsBigIntGtLtFix bi then fklCreateVMvalueBigInt2 bi
  else some (.fix (fklMakeVMFix (fklBigIntToI bi)))

/-- `fklBigIntToD` -/
def fklBigIntToD [Binary64 D] (bi : FklBigInt) : D :=
  let r := (forUpTo (fun i (s : D × D) =>
    (Binary64.add s.1 (Binary64.mul (Binary64.ofI64 (bi.digits i)) s.2),
      Binary64.mul s.2 (Binary64.ofI64 digitBase))) 0 (fklAbs bi.num).toNat
    (Binary64.ofI64 0, Binary64.ofI64 1)).1
  if bi.num < 0 then Binary64.neg r else r

/-- `fklVMgetDouble` of a number. -/
def fklVMgetDouble [Binary64 D] : FklVMvalue D → D
  | .bigint b => fklBigIntToD (fklVMbigIntToBigInt b)
  | .f64 d => d
  | v => Binary64.ofI64 v.getFix

/-- The locals `r64`, `rd` and `bi` of the number operations. -/
structure VMnum (D : Type) where
  r64 : Int
  rd : D
  bi : FklBigInt

/-- The errors that arithmetic raises, a failed assertion, and what must not be reached. -/
inductive VMError where
  | assertionFailed
  | incorrectTypeValue
  | divZeroError
  | unreachable
  deriving DecidableEq

/-- `FKL_CHECK_TYPE` -/
def checkType (ok : Bool) : Except VMError Unit := if ok then .ok () else .error .incorrectTypeValue

@[simp] theorem checkType_eq_ok {ok : Bool} (h : ok = true) : checkType ok = .ok () := if_pos h

/-- A failed assertion stops the machine. -/
def assertOk {α : Type} : Option α → Except VMError α
  | none => .error .assertionFailed
  | some a => .ok a

theorem assertOk_eq_ok {α : Type} {r : Option α} {a : α} : assertOk r = .ok a ↔ r = some a := by
  cases r <;> simp [assertOk]

/-- The caller's test of the code that a step returns. -/
def checkStep (r : Option (Int × VMnum D)) : Except VMError (VMnum D) :=
  match r with
  | none => .error .assertionFailed
  | some (ret, s) => if ret ≠ 0 then .error .incorrectTypeValue else .ok s

/-- The loop of the builtin procedures over their arguments. -/
def processAll (step : FklVMvalue D → VMnum D → Option (Int × VMnum D)) :
    List (FklVMvalue D) → VMnum D → Except VMError (VMnum D)
  | [], s => .ok s
  | v :: vs, s => do
    let s ← checkStep (step v s)
    processAll step vs s

/-! Representation. -/

/-- A big integer on the heap, normalized, of value `z`. -/
structure Holds (x : FklBigInt) (z : Int) : Prop where
  value : x.value = z
  normalized : x.Normalized
  heap : x.constSize = false

theorem holds_zero : Holds bigInt0 0 where
  value := rfl
  normalized := growing_zero.normalized
  heap := rfl

theorem Holds.neg {x : FklBigInt} {z : Int} (h : Holds x z) :
    Holds { x with num := -x.num } (-z) where
  value := by rw [FklBigInt.value_neg, h.value]
  normalized := h.normalized.neg
  heap := h.heap

/-- `op` computes `f` into an operand on the heap. -/
def ExactOp (op : BigIntOp) (f : Int → Int → Int) : Prop :=
  ∀ m, (m false).Normalized → (m true).Normalized → (m false).constSize = false →
    ∃ m', op m false true = some m' ∧ Leaves m m' false (f (m false).value (m true).value)

theorem fklMulBigInt_exactOp : ExactOp fklMulBigInt (· * ·) :=
  fun _ ha hb hc => fklMulBigInt_leaves ha hb (Or.inl hc)

section

variable {op : BigIntOp} {f : Int → Int → Int} {x : FklBigInt} {z : Int}

theorem withSmall_spec (hop : ExactOp op f) (hx : Holds x z) {v : Int} (hv : IsI64 v) :
    ∃ y, withSmall op x v = some y ∧ Holds y (f z v) := by
  obtain ⟨bi, hset, hval, hnorm, _⟩ := smallOperand_spec (v := v) (by obtain ⟨h1, h2⟩ := hv; omega)
  obtain ⟨m', hrun, hl⟩ := hop (fun r => if r then bi else x) hx.normalized hnorm hx.heap
  refine ⟨m' false, bind_eq_of_eq hset (bind_eq_of_eq hrun rfl), ?_, hl.normalized,
    hl.constSize.trans hx.heap⟩
  rw [hl.value]
  change f x.value bi.value = f z v
  rw [hx.value, hval]

/-- `op` does not free the block of its first operand. -/
def KeepsBlock (op : BigIntOp) : Prop :=
  ∀ m m', op m false true = some m' → 0 < (m false).size → 0 < (m' false).size

theorem withSmall_block (hop : KeepsBlock op) {v : Int} {y : FklBigInt}
    (hy : withSmall op x v = some y) (hx : 0 < x.size) : 0 < y.size := by
  obtain ⟨bi, _, hrest⟩ := Option.bind_eq_some_iff.mp hy
  obtain ⟨m', hrun, hlast⟩ := Option.bind_eq_some_iff.mp hrest
  rw [← Option.some.inj hlast]
  exact hop _ m' hrun hx

theorem withVMbigInt_block (hop : KeepsBlock op) {b : FklVMvalueBigInt} {y : FklBigInt}
    (hy : withVMbigInt op x b = some y) (hx : 0 < x.size) : 0 < y.size := by
  obtain ⟨m', hrun, hlast⟩ := Option.bind_eq_some_iff.mp hy
  rw [← Option.some.inj hlast]
  exact hop _ m' hrun hx

theorem withVMvalue_spec (hop : ExactOp op f) (hx : Holds x z) {v : FklVMvalue D}
    (hv : v.IsInteger) : ∃ y, withVMvalue op x v = some y ∧ Holds y (f z v.intValue) := by
  cases v with
  | fix c => exact withSmall_spec hop hx c.isFix.isI64
  | bigint b =>
    obtain ⟨m', hrun, hl⟩ := hop (fun r => if r then fklVMbigIntToBigInt b else x)
      hx.normalized hv hx.heap
    refine ⟨m' false, bind_eq_of_eq hrun rfl, ?_, hl.normalized, hl.constSize.trans hx.heap⟩
    rw [hl.value]
    change f x.value _ = _
    rw [hx.value]
    rfl
  | f64 d => exact hv.elim
  | other => exact hv.elim

end

theorem represents_fix {i : Fixnum} {z : Int} (h : i.val = z) :
    (FklVMvalue.fix i : FklVMvalue D).Represents z where
  integer := trivial
  value := h
  form := by
    have := i.isFix
    rw [h] at this
    exact iff_of_true rfl this

theorem fklCreateVMvalueBigInt2_spec {x : FklBigInt} (hx : x.Normalized) (hz : ¬IsFix x.value) :
    ∃ v : FklVMvalue D, fklCreateVMvalueBigInt2 x = some v ∧ v.Represents x.value := by
  obtain ⟨t, hset, ht, hnum, hdig⟩ := fklSetBigInt_spec
    (t := ⟨fun _ => 0, 0, (fklAbs x.num).toNat + 1, true⟩) hx
    (Or.inr (by rw [fklAbs_toNat]; dsimp only; omega))
  have hn : (fklVMbigIntToBigInt ⟨t.num, t.digits⟩).Normalized := {
    digit_lt := ht.normalized.digit_lt
    num_le := by simp [fklVMbigIntToBigInt]
    top_ne := ht.normalized.top_ne }
  refine ⟨.bigint ⟨t.num, t.digits⟩,
    bind_eq_of_eq (fklAssert_eq_some ((fklIsBigIntGtLtFix_iff hx).mpr hz))
      (bind_eq_of_eq hset rfl), hn, ht.value, iff_of_false (by simp [FklVMvalue.isFix]) hz⟩

theorem bigIntResult_spec {x : FklBigInt} {z : Int} (hx : Holds x z) :
    ∃ v : FklVMvalue D, bigIntResult x = some v ∧ v.Represents z := by
  obtain ⟨rfl, hnorm, _⟩ := hx
  unfold bigIntResult
  by_cases hz : IsFix x.value
  · rw [if_neg (fun h => (fklIsBigIntGtLtFix_iff hnorm).mp h hz),
      fklBigIntToI_eq hnorm hz.isI64]
    exact ⟨_, rfl, represents_fix (fklMakeVMFix_val hz)⟩
  · rw [if_pos ((fklIsBigIntGtLtFix_iff hnorm).mpr hz)]
    exact fklCreateVMvalueBigInt2_spec hnorm hz

/-- Only one value stands for a number up to its digits' block: what is represented is unique. -/
theorem FklVMvalue.Represents.unique {v : FklVMvalue D} {y z : Int} (hy : v.Represents y)
    (hz : v.Represents z) : y = z := hy.value.symm.trans hz.value

/-- A result cut to the width of a fixnum is right when it is a fixnum. -/
theorem represents_cut_iff {i z : Int} (h : toSigned 61 i = toSigned 61 z) :
    (∃ v, some (.fix (fklMakeVMFix i)) = some v ∧ FklVMvalue.Represents (D := D) v z) ↔
      IsFix z := by
  constructor
  · rintro ⟨v, hv, hr⟩
    rw [← Option.some.inj hv] at hr
    exact hr.form.mp rfl
  · intro hz
    exact ⟨_, rfl, represents_fix (h.trans (fklMakeVMFix_val hz))⟩

theorem toSigned_i64 (x : Int) : toSigned 61 (i64 x) = toSigned 61 x :=
  toSigned_toSigned (by decide) x

/-! The split of the operands between the machine word and the big integer. -/

/-- The exact values behind `r64` and `bi`. -/
structure Held where
  kept : Int
  moved : Int

/-- One operand of `op`: a fixnum stays in the word unless `ovf` reports an overflow. -/
def hold (op : Int → Int → Int) (ovf : Int → Int → Bool) (h : Held) : FklVMvalue D → Held
  | .fix c =>
    if ovf (i64 h.kept) c.val then { h with moved := op h.moved c.val }
    else { h with kept := op h.kept c.val }
  | v => { h with moved := op h.moved v.intValue }

def holdAll (op : Int → Int → Int) (ovf : Int → Int → Bool) (unit : Int)
    (vs : List (VMInteger D)) : Held :=
  vs.foldl (fun h v => hold op ovf h v.val) ⟨unit, unit⟩

/-- The run rule: what each step keeps along with the split, a whole argument list keeps. -/
theorem processAll_spec {step : FklVMvalue D → VMnum D → Option (Int × VMnum D)}
    {op : Int → Int → Int} {ovf : Int → Int → Bool} (P : VMnum D → Held → Prop)
    (hstep : ∀ s h v, FklVMvalue.IsInteger v → P s h →
      ∃ s', checkStep (step v s) = .ok s' ∧ P s' (hold op ovf h v))
    (vs : List (VMInteger D)) {s : VMnum D} {h : Held} (hs : P s h) :
    ∃ s', processAll step (vs.map (·.val)) s = .ok s' ∧
      P s' (vs.foldl (fun h v => hold op ovf h v.val) h) := by
  induction vs generalizing s h with
  | nil => exact ⟨s, rfl, hs⟩
  | cons v vs ih =>
    obtain ⟨t, hrun, ht⟩ := hstep s h v.val v.property hs
    obtain ⟨u, hrest, hu⟩ := ih ht
    refine ⟨u, ?_, hu⟩
    change (checkStep (step v.val s) >>= processAll step (vs.map (·.val))) = _
    rw [hrun]
    exact hrest

theorem op_hold (op : Int → Int → Int) [Std.Associative op] [Std.Commutative op]
    (ovf : Int → Int → Bool) (h : Held) (v : FklVMvalue D) :
    op (hold op ovf h v).kept (hold op ovf h v).moved = op (op h.kept h.moved) v.intValue := by
  have hassoc : ∀ x, op h.kept (op h.moved x) = op (op h.kept h.moved) x := fun x =>
    (Std.Associative.assoc h.kept h.moved x : op (op _ _) _ = op _ (op _ _)).symm
  cases v with
  | fix c =>
    simp only [hold]
    split
    · exact hassoc c.val
    · change op (op h.kept c.val) h.moved = op (op h.kept h.moved) c.val
      ac_rfl
  | bigint b => exact hassoc _
  | f64 d => exact hassoc _
  | other => exact hassoc _

/-- The two parts make up the whole. -/
theorem op_holdAll (op : Int → Int → Int) [Std.Associative op] [Std.Commutative op]
    (ovf : Int → Int → Bool) (vs : List (VMInteger D)) (h : Held) :
    let r := vs.foldl (fun h v => hold op ovf h v.val) h
    op r.kept r.moved = (vs.map (·.val.intValue)).foldl op (op h.kept h.moved) := by
  induction vs generalizing h with
  | nil => rfl
  | cons v vs ih =>
    have hv := ih (hold op ovf h v.val)
    rw [op_hold op ovf] at hv
    exact hv

/-! Fixed operands. -/

/-- Rationals in place of doubles, which agree on small integers. -/
instance : Binary64 Rat where
  ofI64 i := i
  add x y := x + y
  sub x y := x - y
  mul x y := x * y
  div x y := x / y
  neg x := -x
  fmod x y := x - y * (x / y).floor
  beq x y := x == y
  beq_ofI64 i := by simp

/-- A fixnum operand. -/
def fixArg (i : Int) : VMInteger Rat := ⟨.fix (fklMakeVMFix i), trivial⟩

end FakeLisp
