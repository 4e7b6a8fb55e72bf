import FakeLisp.PeepholeConst

/-! Where the 32-bit arithmetic of constant folding agrees with the machine, operation by
operation. -/

namespace FakeLisp

/-! The inputs that go wrong. -/

/-- The products out of range that the overflow test takes for the least value. -/
def WrapsToI24Min (z : Int) : Prop := z < 0 ∧ z ≠ i24Min ∧ i32 z = i24Min

/-- The products that the overflow test lets through. -/
def PassesI24 (z : Int) : Prop := InField 23 z ∨ WrapsToI24Min z

/-- The tests divide before they look at the divisor. -/
def DividesByZero (i : FklIns) : List Int → Prop
  | [a, b] => (i.op = some .idiv ∧ i.sA = 2 ∨ i.op = some .div ∧ (i.sA = 2 ∨ i.sA = -2)) ∧
      a ≠ 0 ∧ b = 0
  | [a, b, c] => (i.op = some .idiv ∨ i.op = some .div) ∧ i.sA = 3 ∧ PassesI24 (a * b) ∧ a ≠ 0 ∧
      b ≠ 0 ∧ i32 (b * c) = 0
  | _ => False

/-- A product wraps to the least value of 24 bits, or a divisor wraps. -/
def FoldsWrongly (i : FklIns) : List Int → Prop
  | [a, b] => i.op = some .mul ∧ i.sA = 2 ∧ WrapsToI24Min (a * b)
  | [a, b, c] => i.sA = 3 ∧
      (i.op = some .mul ∧ (InField 23 (a * b) ∧ WrapsToI24Min (a * b * c) ∨
          WrapsToI24Min (a * b) ∧ 0 < c ∧ c % 512 = 1) ∨
        PassesI24 (a * b) ∧ a ≠ 0 ∧ b ≠ 0 ∧ i32 (b * c) ≠ 0 ∧ i32 (b * c) ≠ b * c ∧
          InField 23 (a.tdiv (i32 (b * c))) ∧
          (i.op = some .idiv ∧ (i32 (b * c)).natAbs ≤ a.natAbs ∨
            i.op = some .div ∧ a.tmod (i32 (b * c)) = 0))
  | _ => False

/-! Small numbers. -/

theorem isFix_of_natAbs {x : Int} (h : x.natAbs < 2 ^ 60) : IsFix x := by
  simp only [IsFix, fixIntMin, fixIntMax]
  omega

theorem isFix_of_inField {x : Int} (h : InField 23 x) : IsFix x := isFix_of_natAbs (by omega)

theorem i32_of_natAbs {x : Int} (h : x.natAbs < 2 ^ 31) : i32 x = x :=
  toSigned_of_mem (w := 31) (by omega) (by omega)

theorem natAbs_le_of_inField {x : Int} (h : InField 23 x) : x.natAbs ≤ 2 ^ 23 := by omega

theorem natAbs_mul_le {a b : Int} (ha : InField 23 a) (hb : InField 23 b) :
    (a * b).natAbs ≤ 2 ^ 46 := by
  rw [Int.natAbs_mul]
  have h := Nat.mul_le_mul (natAbs_le_of_inField ha) (natAbs_le_of_inField hb)
  omega

theorem natAbs_tdiv_le (a b : Int) : (a.tdiv b).natAbs ≤ a.natAbs := by
  rw [Int.natAbs_tdiv]
  exact Nat.div_le_self _ _

theorem isI24MulOverflow_eq_false_iff {a b : Int} (ha : InField 23 a) (hb : InField 23 b) :
    isI24MulOverflow a b = false ↔ PassesI24 (a * b) := by
  have hmin : i24Min = -2 ^ 23 := rfl
  refine (mulOverflowTest_eq_false_iff (p := 23) (w := 32) (by decide) ha hb).trans ?_
  unfold PassesI24 WrapsToI24Min
  rw [hmin]
  constructor
  · rintro (h | ⟨hneg, hw⟩)
    · exact Or.inl h
    · by_cases he : a * b = -2 ^ 23
      · exact Or.inl (by rw [he]; exact ⟨by decide, by decide⟩)
      · exact Or.inr ⟨hneg, he, hw⟩
  · rintro (h | ⟨hneg, _, hw⟩)
    · exact Or.inl h
    · exact Or.inr ⟨hneg, hw⟩

theorem WrapsToI24Min.not_inField {z : Int} (h : WrapsToI24Min z) : ¬InField 23 z := by
  intro hz
  refine h.2.1 ?_
  rw [← h.2.2]
  exact (i32_of_natAbs (by omega)).symm

theorem fixv_inj {D : Type} {x y : Int} (hx : IsFix x) (hy : IsFix y)
    (h : (fixv x : FklVMvalue D) = fixv y) : x = y := by
  have hval := congrArg FklVMvalue.getFix h
  simpa only [fixv, FklVMvalue.getFix, fklMakeVMFix_val hx, fklMakeVMFix_val hy] using hval

/-! The operations on the stack. -/

section

variable {i : FklIns} {args : List Int} {r : Int}

def blankFrame (D : Type) : VMframe D := ⟨fun _ => .null, fun _ => by simp, fun _ => none, fun _ => .null⟩

theorem foldStep_iff (g : ∀ (D : Type) [Binary64 D], List (FklVMvalue D) →
      Except VMError (FklVMvalue D))
    (hexec : ∀ (D : Type) [Binary64 D] (f : VMframe D) (s : VMstate D),
      execIns f i s = execNumber (g D) args.length s) :
    FoldStep i args r ↔ ∀ (D : Type) [Binary64 D], g D (args.map fixv) = .ok (fixv r) := by
  constructor
  · intro h D _
    have hrun := h D (blankFrame D) ⟨[], fun _ => .null⟩
    rw [hexec, execNumber_pushAll] at hrun
    split at hrun
    · cases hrun
    next v hv =>
      have hstack := congrArg VMstate.stack (Except.ok.inj hrun)
      rw [hv, VMword.num.inj (List.cons.inj hstack).1]
      rfl
  · intro h D _ f s
    rw [hexec, execNumber_pushAll, h D]
    rfl

variable {D : Type} [Binary64 D] {f : VMframe D} {s : VMstate D} {n : Nat}

theorem execIns_add (h : i.op = some .add) (hn : i.sA = n) (hmem : (n : Int) ∈ [1, 2, 3]) :
    execIns f i s = execNumber addNumbers n s := by
  simp only [execIns, h, execNumbers, hn, if_pos hmem, Int.toNat_natCast]

theorem execIns_sub (h : i.op = some .sub) (hn : i.sA = n) (hmem : (n : Int) ∈ [1, 2, 3]) :
    execIns f i s = execNumber subNumbers n s := by
  simp only [execIns, h, execNumbers, hn, if_pos hmem, Int.toNat_natCast]

theorem execIns_mul (h : i.op = some .mul) (hn : i.sA = n) (hmem : (n : Int) ∈ [1, 2, 3]) :
    execIns f i s = execNumber mulNumbers n s := by
  simp only [execIns, h, execNumbers, hn, if_pos hmem, Int.toNat_natCast]

theorem execIns_idiv (h : i.op = some .idiv) (hn : i.sA = n) (hmem : (n : Int) ∈ [2, 3]) :
    execIns f i s = execNumber idivNumbers n s := by
  simp only [execIns, h, execNumbers, hn, if_pos hmem, Int.toNat_natCast]

theorem execIns_div (h : i.op = some .div) (hn : i.sA = n) (hmem : (n : Int) ∈ [1, 2, 3]) :
    execIns f i s = execNumber divNumbers n s := by
  simp only [execIns, h, execDiv, hn, if_neg (show (n : Int) ≠ -2 by omega), if_pos hmem,
    Int.toNat_natCast]

theorem execIns_mod (h : i.op = some .div) (hn : i.sA = -2) :
    execIns f i s = execNumber modNumbers 2 s := by
  simp only [execIns, h, execDiv, hn, if_true]

end

/-! What has to be shown of a rule. -/

structure FoldSpec (cf : ConstFold) (i : FklIns) (args : List Int) : Prop where
  traps : cf.isFoldable i args = none ↔ DividesByZero i args
  right : cf.isFoldable i args = some true → (cf.ValueRight i args ↔ ¬FoldsWrongly i args)
  fires : FoldsWrongly i args → cf.isFoldable i args = some true

/-- The rule always fires rightly. -/
theorem FoldSpec.of_right {cf : ConstFold} {i : FklIns} {args : List Int} {b : Bool}
    (hd : ¬DividesByZero i args) (hw : ¬FoldsWrongly i args) (h : cf.isFoldable i args = some b)
    (hright : b = true → cf.ValueRight i args) : FoldSpec cf i args where
  traps := by simp [h, hd]
  right ht := by
    rw [h] at ht
    exact iff_of_true (hright (Option.some.inj ht)) hw
  fires hf := absurd hf hw

/-! One operand. -/

theorem oprand1_spec (i : FklIns) {a : Int} (ha : InField 23 a) :
    FoldSpec oprand1ConstFold i [a] := by
  have hk := sA_inField i
  by_cases haddk : i.op = some .addk
  · have hsum : i32 (a + i.sA) = a + i.sA := i32_of_natAbs (by omega)
    refine FoldSpec.of_right id id (b := inI24 (i32 (a + i.sA)))
      (by simp [oprand1ConstFold, isFoldableOp1, haddk]) fun hin => ?_
    refine ⟨i32 (a + i.sA), by simp [oprand1ConstFold, foldOp1, haddk], (inI24_iff _).mp hin,
      fun D _ f s => ?_⟩
    have hfix : IsFix (a + i.sA) := isFix_of_natAbs (by omega)
    have hr : addk (VMword.fix (D := D) a) i.sA = .ok (.fix (a + i.sA)) := by
      have hval := fklMakeVMFix_val (isFix_of_inField ha)
      simp only [addk, VMword.fix, VMword.number, fklProcessVMnumAddk, hval, i64_of_isI64 hfix.isI64]
      rw [if_neg (by have := hfix.1; have := hfix.2; omega)]
    change execIns f i (s.push (.fix a)) = _
    simp only [execIns, haddk, VMstate.top_push, VMstate.pop_push, bind, Except.bind, hr, hsum]
  by_cases hadd : i.op = some .add
  · refine FoldSpec.of_right id id (b := i.sA = 1)
      (by simp [oprand1ConstFold, isFoldableOp1, hadd]) fun hA => ?_
    have hA : i.sA = 1 := of_decide_eq_true hA
    refine ⟨a, by simp [oprand1ConstFold, foldOp1, hadd, withSubOp, hA], ha, ?_⟩
    exact (foldStep_iff (fun D _ => addNumbers)
      fun D _ f s => execIns_add hadd (n := 1) hA (by decide)).mpr fun D _ => rfl
  by_cases hmul : i.op = some .mul
  · refine FoldSpec.of_right id id (b := i.sA = 1)
      (by simp [oprand1ConstFold, isFoldableOp1, hmul]) fun hA => ?_
    have hA : i.sA = 1 := of_decide_eq_true hA
    refine ⟨a, by simp [oprand1ConstFold, foldOp1, hmul, withSubOp, hA], ha, ?_⟩
    exact (foldStep_iff (fun D _ => mulNumbers)
      fun D _ f s => execIns_mul hmul (n := 1) hA (by decide)).mpr fun D _ => rfl
  by_cases hsub : i.op = some .sub
  · have hneg : i32 (-a) = -a := i32_of_natAbs (by omega)
    refine FoldSpec.of_right id id (b := decide (i.sA = 1) && inI24 (i32 (-a))) ?_ fun hb => ?_
    · by_cases hA : i.sA = 1 <;> simp [oprand1ConstFold, isFoldableOp1, hsub, hA]
    · rw [Bool.and_eq_true, decide_eq_true_iff] at hb
      obtain ⟨hA, hin⟩ := hb
      refine ⟨i32 (-a), by simp [oprand1ConstFold, foldOp1, hsub, withSubOp, hA],
        (inI24_iff _).mp hin, ?_⟩
      refine (foldStep_iff (fun D _ => subNumbers)
        fun D _ f s => execIns_sub hsub (n := 1) hA (by decide)).mpr fun D _ => ?_
      have hfix : IsFix (-a) := isFix_of_natAbs (by omega)
      change fklProcessVMnumNeg (fixv a) = _
      simp only [fklProcessVMnumNeg, fixv, fklMakeVMFix_val (isFix_of_inField ha),
        i64_of_isI64 hfix.isI64, hneg]
      have hle : ¬-a > fixIntMax := not_lt.mpr hfix.2
      rw [if_neg hle]
  · refine FoldSpec.of_right id id (b := false) ?_ (by simp)
    change isFoldableOp1 i a = some false
    unfold isFoldableOp1
    split <;> first | contradiction | rfl

/-! Two operands. -/

section

variable {i : FklIns} {a b : Int}

theorem fixChain_sum2 (ha : InField 23 a) (hb : InField 23 b) : FixChain (· + ·) 0 [a, b] := by
  have h1 : IsFix (0 + a) := isFix_of_natAbs (by omega)
  have h2 : IsFix (0 + a + b) := isFix_of_natAbs (by omega)
  exact ⟨isFix_of_inField ha, h1, isFix_of_inField hb, h2, trivial⟩

theorem fixChain_prod1 (hb : InField 23 b) : FixChain (· * ·) 1 [b] := by
  have h1 : IsFix (1 * b) := by
    rw [one_mul]
    exact isFix_of_inField hb
  exact ⟨isFix_of_inField hb, h1, trivial⟩

theorem fixChain_prod2 (ha : InField 23 a) (hb : InField 23 b) : FixChain (· * ·) 1 [a, b] := by
  have hab := natAbs_mul_le ha hb
  have h2 : IsFix (1 * a * b) := by
    rw [one_mul]
    exact isFix_of_natAbs (by omega)
  exact ⟨isFix_of_inField ha, (fixChain_prod1 ha).2.1, isFix_of_inField hb, h2, trivial⟩

theorem addNumbers_two {D : Type} [Binary64 D] (ha : InField 23 a) (hb : InField 23 b) :
    addNumbers ([a, b].map (fixv (D := D))) = .ok (fixv (a + b)) := by
  have h := builtinAdd_fixes (D := D) fklAddBigInt _ (fixChain_sum2 ha hb)
  simp only [List.foldl_cons, List.foldl_nil, zero_add] at h
  exact h

theorem subNumbers_two {D : Type} [Binary64 D] (ha : InField 23 a) (hb : InField 23 b) :
    subNumbers ([a, b].map (fixv (D := D))) = .ok (fixv (a - b)) := by
  have h1 : IsFix (0 + b) := isFix_of_natAbs (by omega)
  have h := builtinSub_fixes (D := D) fklAddBigInt fklSubBigInt [b] (isFix_of_inField ha)
    ⟨isFix_of_inField hb, h1, trivial⟩
  simp only [List.foldl_cons, List.foldl_nil, zero_add] at h
  exact h (isFix_of_natAbs (by omega)) (isFix_of_natAbs (by omega))

theorem mulNumbers_two {D : Type} [Binary64 D] (ha : InField 23 a) (hb : InField 23 b) :
    mulNumbers ([a, b].map (fixv (D := D))) = .ok (fixv (a * b)) := by
  have h := builtinMul_fixes (D := D) _ (fixChain_prod2 ha hb)
  simp only [List.foldl_cons, List.foldl_nil, one_mul] at h
  exact h

theorem idivNumbers_two {D : Type} [Binary64 D] (ha : InField 23 a) (hb : InField 23 b)
    (hb0 : b ≠ 0) : idivNumbers ([a, b].map (fixv (D := D))) = .ok (fixv (a.tdiv b)) := by
  have h := idivNumbers_fixes (D := D) (isFix_of_inField ha) (fixChain_prod1 hb)
  simp only [List.foldl_cons, List.foldl_nil, one_mul, if_neg hb0] at h
  exact h

theorem divNumbers_two {D : Type} [Binary64 D] (ha : InField 23 a) (hb : InField 23 b)
    (hb0 : b ≠ 0) (hmod : a.tmod b = 0) :
    divNumbers ([a, b].map (fixv (D := D))) = .ok (fixv (a.tdiv b)) := by
  have h := divNumbers_fixes (D := D) (isFix_of_inField ha) (fixChain_prod1 hb)
  simp only [List.foldl_cons, List.foldl_nil, one_mul, if_neg hb0, hmod, ne_eq, not_true_eq_false,
    if_false] at h
  exact h

theorem modNumbers_two {D : Type} [Binary64 D] (ha : InField 23 a) (hb : InField 23 b)
    (hb0 : b ≠ 0) : modNumbers ([a, b].map (fixv (D := D))) = .ok (fixv (a.tmod b)) := by
  have h := modNumbers_fixes (D := D) (isFix_of_inField ha) (isFix_of_inField hb)
  rwa [if_neg hb0] at h

theorem cDiv_of_ne {x y : Int} (hx : InField 23 x) (hy : y ≠ 0) : cDiv x y = some (x.tdiv y) := by
  have h := natAbs_tdiv_le x y
  rw [cDiv, if_neg hy, i32_of_natAbs (by omega)]

theorem cMod_of_ne {x y : Int} (hy : y ≠ 0) : cMod x y = some (x.tmod y) := if_neg hy

theorem oprand2_spec_sum (ha : InField 23 a) (hb : InField 23 b)
    (hop : i.op = some .add ∨ i.op = some .sub) : FoldSpec oprand2ConstFold i [a, b] := by
  have hd : ¬DividesByZero i [a, b] := by
    rcases hop with h | h <;> simp [DividesByZero, h]
  have hw : ¬FoldsWrongly i [a, b] := by
    rcases hop with h | h <;> simp [FoldsWrongly, h]
  rcases hop with hop | hop
  · have hsum : i32 (a + b) = a + b := i32_of_natAbs (by omega)
    refine FoldSpec.of_right hd hw (b := decide (i.sA = 2) && inI24 (i32 (a + b))) ?_ fun h => ?_
    · by_cases hA : i.sA = 2 <;> simp [oprand2ConstFold, isFoldableOp2, hop, hA]
    · rw [Bool.and_eq_true, decide_eq_true_iff] at h
      obtain ⟨hA, hin⟩ := h
      refine ⟨i32 (a + b), by simp [oprand2ConstFold, foldOp2, hop, withSubOp, hA],
        (inI24_iff _).mp hin, ?_⟩
      rw [hsum]
      exact (foldStep_iff (fun D _ => addNumbers)
        fun D _ f s => execIns_add hop (n := 2) hA (by decide)).mpr fun D _ => addNumbers_two ha hb
  · have hsum : i32 (a - b) = a - b := i32_of_natAbs (by omega)
    refine FoldSpec.of_right hd hw (b := decide (i.sA = 2) && inI24 (i32 (a - b))) ?_ fun h => ?_
    · by_cases hA : i.sA = 2 <;> simp [oprand2ConstFold, isFoldableOp2, hop, hA]
    · rw [Bool.and_eq_true, decide_eq_true_iff] at h
      obtain ⟨hA, hin⟩ := h
      refine ⟨i32 (a - b), by simp [oprand2ConstFold, foldOp2, hop, withSubOp, hA],
        (inI24_iff _).mp hin, ?_⟩
      rw [hsum]
      exact (foldStep_iff (fun D _ => subNumbers)
        fun D _ f s => execIns_sub hop (n := 2) hA (by decide)).mpr fun D _ => subNumbers_two ha hb

theorem oprand2_spec_mul (ha : InField 23 a) (hb : InField 23 b) (hop : i.op = some .mul) :
    FoldSpec oprand2ConstFold i [a, b] := by
  have htest := isI24MulOverflow_eq_false_iff ha hb
  have hab := natAbs_mul_le ha hb
  have hfold : oprand2ConstFold.isFoldable i [a, b] =
      some (decide (i.sA = 2) && !isI24MulOverflow a b) := by
    by_cases hA : i.sA = 2 <;> simp [oprand2ConstFold, isFoldableOp2, hop, hA]
  have hwrong : FoldsWrongly i [a, b] ↔ i.sA = 2 ∧ WrapsToI24Min (a * b) := by
    simp [FoldsWrongly, hop]
  refine ⟨by simp [hfold, DividesByZero, hop], fun h => ?_, fun h => ?_⟩
  · rw [hfold, Option.some.injEq, Bool.and_eq_true, decide_eq_true_iff, Bool.not_eq_true'] at h
    obtain ⟨hA, hpass⟩ := h
    have hvalue : oprand2ConstFold.value i [a, b] = some (i32 (a * b)) := by
      simp [oprand2ConstFold, foldOp2, hop, withSubOp, hA]
    have hstep : ∀ r, FoldStep i [a, b] r ↔ (∀ (D : Type) [Binary64 D],
        (Except.ok (fixv (a * b)) : Except VMError (FklVMvalue D)) = .ok (fixv r)) := by
      intro r
      rw [foldStep_iff (fun D _ => mulNumbers)
        fun D _ f s => execIns_mul hop (n := 2) hA (by decide)]
      exact forall_congr' fun D => forall_congr' fun _ => by rw [mulNumbers_two ha hb]
    rw [hwrong]
    constructor
    · rintro ⟨r, hr, hfield, hrun⟩ ⟨-, hwraps⟩
      have heq := fixv_inj (isFix_of_natAbs (by omega)) (isFix_of_inField hfield)
        (Except.ok.inj ((hstep r).mp hrun Rat))
      exact hwraps.not_inField (heq ▸ hfield)
    · intro h
      have hin : InField 23 (a * b) := (htest.mp hpass).resolve_right fun hw => h ⟨hA, hw⟩
      have hi : i32 (a * b) = a * b := i32_of_natAbs (by omega)
      rw [hi] at hvalue
      exact ⟨a * b, hvalue, hin, (hstep _).mpr fun D _ => rfl⟩
  · obtain ⟨hA, hw⟩ := hwrong.mp h
    simp [hfold, hA, htest.mpr (Or.inr hw)]

theorem oprand2_spec_idiv (ha : InField 23 a) (hb : InField 23 b) (hop : i.op = some .idiv) :
    FoldSpec oprand2ConstFold i [a, b] := by
  have hw : ¬FoldsWrongly i [a, b] := by simp [FoldsWrongly, hop]
  by_cases hA : i.sA = 2
  case neg =>
    exact FoldSpec.of_right (by simp [DividesByZero, hop, hA]) hw (b := false)
      (by simp [oprand2ConstFold, isFoldableOp2, hop, hA]) (by simp)
  by_cases ha0 : a = 0
  · exact FoldSpec.of_right (by simp [DividesByZero, ha0]) hw (b := false)
      (by simp [oprand2ConstFold, isFoldableOp2, hop, hA, ha0]) (by simp)
  by_cases hb0 : b = 0
  · refine ⟨?_, fun h => ?_, fun h => absurd h hw⟩
    · simp [oprand2ConstFold, isFoldableOp2, DividesByZero, hop, hA, ha0, hb0, cDiv]
    · simp [oprand2ConstFold, isFoldableOp2, hop, hA, ha0, hb0, cDiv] at h
  · refine FoldSpec.of_right (by simp [DividesByZero, hb0]) hw (b := inI24 (a.tdiv b))
      (by simp [oprand2ConstFold, isFoldableOp2, hop, hA, ha0, cDiv_of_ne ha hb0]) fun hin => ?_
    refine ⟨a.tdiv b, by simp [oprand2ConstFold, foldOp2, hop, withSubOp, hA, cDiv_of_ne ha hb0],
      (inI24_iff _).mp hin, ?_⟩
    exact (foldStep_iff (fun D _ => idivNumbers)
      fun D _ f s => execIns_idiv hop (n := 2) hA (by decide)).mpr
        fun D _ => idivNumbers_two ha hb hb0

theorem oprand2_spec_div (ha : InField 23 a) (hb : InField 23 b) (hop : i.op = some .div) :
    FoldSpec oprand2ConstFold i [a, b] := by
  have hw : ¬FoldsWrongly i [a, b] := by simp [FoldsWrongly, hop]
  by_cases hA : i.sA = 2 ∨ i.sA = -2
  case neg =>
    obtain ⟨h2, hm2⟩ := not_or.mp hA
    exact FoldSpec.of_right (by simp [DividesByZero, hop, h2, hm2]) hw (b := false)
      (by simp [oprand2ConstFold, isFoldableOp2, hop, h2, hm2]) (by simp)
  by_cases ha0 : a = 0
  · refine FoldSpec.of_right (by simp [DividesByZero, ha0]) hw (b := false) ?_ (by simp)
    rcases hA with hA | hA <;> simp [oprand2ConstFold, isFoldableOp2, hop, hA, ha0]
  by_cases hb0 : b = 0
  · have hnone : oprand2ConstFold.isFoldable i [a, b] = none := by
      rcases hA with hA | hA <;>
        simp [oprand2ConstFold, isFoldableOp2, hop, hA, ha0, hb0, cDiv, cMod]
    refine ⟨?_, fun h => ?_, fun h => absurd h hw⟩
    · rw [hnone]
      rcases hA with hA | hA <;> simp [DividesByZero, hop, hA, ha0, hb0]
    · rw [hnone] at h
      cases h
  rcases hA with hA | hA
  · refine FoldSpec.of_right (by simp [DividesByZero, hb0]) hw
      (b := decide (a.tmod b = 0) && inI24 (a.tdiv b)) ?_ fun h => ?_
    · simp [oprand2ConstFold, isFoldableOp2, hop, hA, ha0, cDiv_of_ne ha hb0, cMod_of_ne hb0]
    · rw [Bool.and_eq_true, decide_eq_true_iff] at h
      refine ⟨a.tdiv b, by simp [oprand2ConstFold, foldOp2, hop, withSubOp, hA, cDiv_of_ne ha hb0],
        (inI24_iff _).mp h.2, ?_⟩
      exact (foldStep_iff (fun D _ => divNumbers)
        fun D _ f s => execIns_div hop (n := 2) hA (by decide)).mpr
          fun D _ => divNumbers_two ha hb hb0 h.1
  · refine FoldSpec.of_right (by simp [DividesByZero, hb0]) hw (b := inI24 (a.tmod b)) ?_ fun h => ?_
    · simp [oprand2ConstFold, isFoldableOp2, hop, hA, ha0, cMod_of_ne hb0]
    · refine ⟨a.tmod b, by simp [oprand2ConstFold, foldOp2, hop, hA, cMod_of_ne hb0],
        (inI24_iff _).mp h, ?_⟩
      exact (foldStep_iff (fun D _ => modNumbers)
        fun D _ f s => execIns_mod hop hA).mpr fun D _ => modNumbers_two ha hb hb0

theorem oprand2_spec (i : FklIns) (ha : InField 23 a) (hb : InField 23 b) :
    FoldSpec oprand2ConstFold i [a, b] := by
  by_cases hsum : i.op = some .add ∨ i.op = some .sub
  · exact oprand2_spec_sum ha hb hsum
  by_cases hmul : i.op = some .mul
  · exact oprand2_spec_mul ha hb hmul
  by_cases hidiv : i.op = some .idiv
  · exact oprand2_spec_idiv ha hb hidiv
  by_cases hdiv : i.op = some .div
  · exact oprand2_spec_div ha hb hdiv
  · refine FoldSpec.of_right (by simp [DividesByZero, hidiv, hdiv]) (by simp [FoldsWrongly, hmul])
      (b := false) ?_ (by simp)
    obtain ⟨hadd, hsub⟩ := not_or.mp hsum
    change isFoldableOp2 i a b = some false
    unfold isFoldableOp2
    split <;> first | contradiction | rfl

end

/-! Three operands. -/

section

variable {i : FklIns} {a b c : Int}

theorem addNumbers_three {D : Type} [Binary64 D] (ha : InField 23 a) (hb : InField 23 b)
    (hc : InField 23 c) : addNumbers ([a, b, c].map (fixv (D := D))) = .ok (fixv (a + b + c)) := by
  have h1 : IsFix (0 + a) := isFix_of_natAbs (by omega)
  have h2 : IsFix (0 + a + b) := isFix_of_natAbs (by omega)
  have h3 : IsFix (0 + a + b + c) := isFix_of_natAbs (by omega)
  have h := builtinAdd_fixes (D := D) fklAddBigInt [a, b, c]
    ⟨isFix_of_inField ha, h1, isFix_of_inField hb, h2, isFix_of_inField hc, h3, trivial⟩
  simp only [List.foldl_cons, List.foldl_nil, zero_add] at h
  exact h

theorem subNumbers_three {D : Type} [Binary64 D] (ha : InField 23 a) (hb : InField 23 b)
    (hc : InField 23 c) :
    subNumbers ([a, b, c].map (fixv (D := D))) = .ok (fixv (a - (b + c))) := by
  have h := builtinSub_fixes (D := D) fklAddBigInt fklSubBigInt [b, c] (isFix_of_inField ha)
    (fixChain_sum2 hb hc)
  simp only [List.foldl_cons, List.foldl_nil, zero_add] at h
  exact h (isFix_of_natAbs (by omega)) (isFix_of_natAbs (by omega))

theorem mulNumbers_three {D : Type} [Binary64 D] (ha : InField 23 a) (hb : InField 23 b)
    (hc : InField 23 c) (habc : InField 23 (a * b * c)) :
    mulNumbers ([a, b, c].map (fixv (D := D))) = .ok (fixv (a * b * c)) := by
  obtain ⟨h1, h2, h3, h4, -⟩ := fixChain_prod2 ha hb
  have h5 : IsFix (1 * a * b * c) := by
    rw [one_mul]
    exact isFix_of_inField habc
  have h := builtinMul_fixes (D := D) [a, b, c]
    ⟨h1, h2, h3, h4, isFix_of_inField hc, h5, trivial⟩
  simp only [List.foldl_cons, List.foldl_nil, one_mul] at h
  exact h

/-- Whatever becomes of the product, the machine does not answer with another small number. -/
theorem mulNumbers_three_large {D : Type} [Binary64 D] (ha : InField 23 a) (hb : InField 23 b)
    (hc : InField 23 c) {r : Int} (hr : InField 23 r)
    (h : mulNumbers ([a, b, c].map (fixv (D := D))) = .ok (fixv r)) : r = a * b * c := by
  let args : List (VMInteger D) := [⟨fixv a, trivial⟩, ⟨fixv b, trivial⟩, ⟨fixv c, trivial⟩]
  have hab := natAbs_mul_le ha hb
  have hfa := isFix_of_inField ha
  have hfb := isFix_of_inField hb
  have hfc := isFix_of_inField hc
  have hfab : IsFix (a * b) := isFix_of_natAbs (by omega)
  have hheld : heldProduct args = ⟨a * b, c⟩ ∨
      heldProduct args = ⟨a * b * c, 1⟩ ∧ (IsFix (a * b * c) ∨ WrapsToMin (a * b * c)) := by
    have ho1 : fklIsFixMulOverflow (i64 1) a = false := by
      rw [i64_of_isI64 isFix_one.isI64]
      exact (fklIsFixMulOverflow_eq_false_iff isFix_one hfa).mpr (Or.inl (by rwa [one_mul]))
    have ho2 : fklIsFixMulOverflow (i64 a) b = false := by
      rw [i64_of_isI64 hfa.isI64]
      exact (fklIsFixMulOverflow_eq_false_iff hfa hfb).mpr (Or.inl hfab)
    have ho3 := fklIsFixMulOverflow_eq_false_iff hfab hfc
    simp only [args, heldProduct, holdAll, List.foldl_cons, List.foldl_nil, hold, fixv,
      fklMakeVMFix_val hfa, fklMakeVMFix_val hfb, fklMakeVMFix_val hfc, ho1, ho2, one_mul,
      Bool.false_eq_true, if_false, i64_of_isI64 hfab.isI64]
    by_cases ho : fklIsFixMulOverflow (a * b) c = true
    · exact Or.inl (if_pos ho)
    · exact Or.inr ⟨if_neg ho, ho3.mp (Bool.eq_false_iff.mpr ho)⟩
  obtain ⟨s, hrun, hs⟩ := processAll_mul args
  obtain ⟨v, hv, hrep⟩ := fklProcessVMnumMulResult_spec hs
  have hmul : builtinMul (args.map (·.val)) = .ok v := by
    unfold builtinMul
    rw [hrun]
    exact assertOk_eq_ok.mpr hv
  obtain rfl : v = fixv r := Except.ok.inj (hmul.symm.trans h)
  have hz := hrep.unique (represents_fix (fklMakeVMFix_val (isFix_of_inField hr)))
  rcases hheld with he | ⟨he, hfix | hwraps⟩
  · rw [he, i64_of_isI64 hfab.isI64] at hz
    exact hz.symm
  · rw [he, i64_of_isI64 hfix.isI64, mul_one] at hz
    exact hz.symm
  · rw [he, hwraps.2.2, mul_one] at hz
    simp only [fixIntMin] at hz
    omega

theorem oprand3_spec_sum (ha : InField 23 a) (hb : InField 23 b) (hc : InField 23 c)
    (hop : i.op = some .add ∨ i.op = some .sub) : FoldSpec oprand3ConstFold i [a, b, c] := by
  have hd : ¬DividesByZero i [a, b, c] := by
    rcases hop with h | h <;> simp [DividesByZero, h]
  have hw : ¬FoldsWrongly i [a, b, c] := by
    rcases hop with h | h <;> simp [FoldsWrongly, h]
  rcases hop with hop | hop
  · have hsum : i32 (i32 (a + b) + c) = a + b + c := by
      rw [i32_of_natAbs (x := a + b) (by omega), i32_of_natAbs (by omega)]
    refine FoldSpec.of_right hd hw (b := decide (i.sA = 3) && inI24 (i32 (i32 (a + b) + c))) ?_
      fun h => ?_
    · by_cases hA : i.sA = 3 <;> simp [oprand3ConstFold, isFoldableOp3, hop, hA]
    · rw [Bool.and_eq_true, decide_eq_true_iff] at h
      obtain ⟨hA, hin⟩ := h
      refine ⟨i32 (i32 (a + b) + c), by simp [oprand3ConstFold, foldOp3, hop, withSubOp, hA],
        (inI24_iff _).mp hin, ?_⟩
      rw [hsum]
      exact (foldStep_iff (fun D _ => addNumbers)
        fun D _ f s => execIns_add hop (n := 3) hA (by decide)).mpr
          fun D _ => addNumbers_three ha hb hc
  · have hsum : i32 (a - i32 (b + c)) = a - (b + c) := by
      rw [i32_of_natAbs (x := b + c) (by omega), i32_of_natAbs (by omega)]
    refine FoldSpec.of_right hd hw (b := decide (i.sA = 3) && inI24 (i32 (a - i32 (b + c)))) ?_
      fun h => ?_
    · by_cases hA : i.sA = 3 <;> simp [oprand3ConstFold, isFoldableOp3, hop, hA]
    · rw [Bool.and_eq_true, decide_eq_true_iff] at h
      obtain ⟨hA, hin⟩ := h
      refine ⟨i32 (a - i32 (b + c)), by simp [oprand3ConstFold, foldOp3, hop, withSubOp, hA],
        (inI24_iff _).mp hin, ?_⟩
      rw [hsum]
      exact (foldStep_iff (fun D _ => subNumbers)
        fun D _ f s => execIns_sub hop (n := 3) hA (by decide)).mpr
          fun D _ => subNumbers_three ha hb hc

/-- Multiples of the least value that pass the test again. -/
theorem passesI24_mul_min (hc : InField 23 c) :
    PassesI24 (c * i24Min) ↔ c = 0 ∨ 0 < c ∧ c % 512 = 1 := by
  have hmin : i24Min = -8388608 := rfl
  have hw : i32 (c * -8388608) = -8388608 ↔ c % 512 = 1 := by
    rw [show i32 (c * -8388608) = (c * -8388608).bmod (2 ^ 32) from rfl, Int.bmod_def]
    push_cast
    split <;> omega
  unfold PassesI24 WrapsToI24Min
  rw [hmin, hw]
  constructor
  · rintro (h | ⟨h1, h2, h3⟩)
    · have : c = 0 ∨ c = 1 := by omega
      rcases this with rfl | rfl
      · exact Or.inl rfl
      · exact Or.inr ⟨by decide, by decide⟩
    · exact Or.inr ⟨by omega, h3⟩
  · rintro (rfl | ⟨h1, h2⟩)
    · exact Or.inl ⟨by decide, by decide⟩
    · by_cases h3 : c = 1
      · subst h3
        exact Or.inl ⟨by decide, by decide⟩
      · exact Or.inr ⟨by omega, by omega, h2⟩

theorem i32_mul_i32 (x y : Int) : i32 (i32 x * y) = i32 (x * y) := toSigned_mul_toSigned 32 x y

theorem oprand3_spec_mul (ha : InField 23 a) (hb : InField 23 b) (hc : InField 23 c)
    (hop : i.op = some .mul) : FoldSpec oprand3ConstFold i [a, b, c] := by
  have htest := isI24MulOverflow_eq_false_iff ha hb
  have hab := natAbs_mul_le ha hb
  have hfold : oprand3ConstFold.isFoldable i [a, b, c] =
      some (decide (i.sA = 3) && (!isI24MulOverflow a b && !isI24MulOverflow c (i32 (a * b)))) := by
    by_cases hA : i.sA = 3 <;> simp [oprand3ConstFold, isFoldableOp3, hop, hA]
  have hwrong : FoldsWrongly i [a, b, c] ↔ i.sA = 3 ∧ (InField 23 (a * b) ∧
      WrapsToI24Min (a * b * c) ∨ WrapsToI24Min (a * b) ∧ 0 < c ∧ c % 512 = 1) := by
    simp [FoldsWrongly, hop]
  -- The second test sees the product of the first two as it wrapped.
  have hsecond : PassesI24 (a * b) → (isI24MulOverflow c (i32 (a * b)) = false ↔
      InField 23 (a * b) ∧ PassesI24 (a * b * c) ∨
        WrapsToI24Min (a * b) ∧ (c = 0 ∨ 0 < c ∧ c % 512 = 1)) := by
    rintro (hin | hwr)
    · have hi : i32 (a * b) = a * b := i32_of_natAbs (by omega)
      rw [hi, isI24MulOverflow_eq_false_iff hc hin, mul_comm c (a * b)]
      exact ⟨fun h => Or.inl ⟨hin, h⟩, fun h =>
        (h.resolve_right fun hw => hw.1.not_inField hin).2⟩
    · have hmin : InField 23 i24Min := ⟨by decide, by decide⟩
      rw [hwr.2.2, isI24MulOverflow_eq_false_iff hc hmin, passesI24_mul_min hc]
      exact ⟨fun h => Or.inr ⟨hwr, h⟩, fun h => (h.resolve_left fun hi =>
        hwr.not_inField hi.1).2⟩
  refine ⟨by simp [hfold, DividesByZero, hop], fun h => ?_, fun h => ?_⟩
  · rw [hfold, Option.some.injEq, Bool.and_eq_true, Bool.and_eq_true, decide_eq_true_iff,
      Bool.not_eq_true', Bool.not_eq_true'] at h
    obtain ⟨hA, hpass1, hpass2⟩ := h
    have hp1 := htest.mp hpass1
    have hp2 := (hsecond hp1).mp hpass2
    have hvalue : oprand3ConstFold.value i [a, b, c] = some (i32 (a * b * c)) := by
      simp [oprand3ConstFold, foldOp3, hop, withSubOp, hA, i32_mul_i32]
    have hstep : ∀ r, FoldStep i [a, b, c] r ↔ ∀ (D : Type) [Binary64 D],
        mulNumbers ([a, b, c].map (fixv (D := D))) = .ok (fixv r) := fun r =>
      foldStep_iff (fun D _ => mulNumbers) fun D _ f s => execIns_mul hop (n := 3) hA (by decide)
    rw [hwrong]
    constructor
    · rintro ⟨r, hr, hfield, hrun⟩ ⟨-, hw⟩
      have hex : InField 23 (a * b * c) :=
        mulNumbers_three_large ha hb hc hfield ((hstep r).mp hrun Rat) ▸ hfield
      rcases hw with ⟨-, hw⟩ | ⟨hw, hpos, hmod⟩
      · exact hw.not_inField hex
      · have hlow : a * b < -2 ^ 23 := by
          have := hw.not_inField
          have := hw.1
          omega
        have hle : a * b * c ≤ a * b := by
          have := Int.mul_le_mul_of_nonpos_left (a := a * b) (b := c) (c := 1) (by omega) (by omega)
          omega
        omega
    · intro h
      have hin : InField 23 (a * b * c) := by
        rcases hp2 with ⟨hin1, hin | hw⟩ | ⟨hw, rfl | hpos⟩
        · exact hin
        · exact absurd ⟨hA, Or.inl ⟨hin1, hw⟩⟩ h
        · rw [mul_zero]
          exact ⟨by decide, by decide⟩
        · exact absurd ⟨hA, Or.inr ⟨hw, hpos⟩⟩ h
      rw [i32_of_natAbs (by omega)] at hvalue
      exact ⟨a * b * c, hvalue, hin, (hstep _).mpr fun D _ => mulNumbers_three ha hb hc hin⟩
  · obtain ⟨hA, hw⟩ := hwrong.mp h
    have hp1 : PassesI24 (a * b) := by
      rcases hw with hw | hw
      · exact Or.inl hw.1
      · exact Or.inr hw.1
    have hp2 : isI24MulOverflow c (i32 (a * b)) = false := by
      rw [hsecond hp1]
      rcases hw with hw | hw
      · exact Or.inl ⟨hw.1, Or.inr hw.2⟩
      · exact Or.inr ⟨hw.1, Or.inr hw.2⟩
    simp [hfold, hA, htest.mpr hp1, hp2]

/-! Quotients by a product. -/

theorem tdiv_of_natAbs_lt {x y : Int} (h : x.natAbs < y.natAbs) : x.tdiv y = 0 := by
  rw [← Int.natAbs_eq_zero, Int.natAbs_tdiv]
  exact Nat.div_eq_of_lt h

theorem tmod_of_natAbs_lt {x y : Int} (h : x.natAbs < y.natAbs) : x.tmod y = x := by
  have hsplit := Int.mul_tdiv_add_tmod x y
  rwa [tdiv_of_natAbs_lt h, mul_zero, zero_add] at hsplit

theorem tdiv_eq_zero_iff {x y : Int} (hy : y ≠ 0) : x.tdiv y = 0 ↔ x.natAbs < y.natAbs := by
  rw [← Int.natAbs_eq_zero, Int.natAbs_tdiv]
  change x.natAbs / y.natAbs = 0 ↔ _
  rw [Nat.div_eq_zero_iff]
  omega

/-- A divisor that wraps is larger than any dividend. -/
theorem natAbs_lt_of_wraps {x y : Int} (hx : InField 23 x) (hy : i32 y ≠ y) :
    x.natAbs < y.natAbs := by
  by_contra hle
  exact hy (i32_of_natAbs (by omega))

theorem divisor_ne_zero (h : i32 (b * c) ≠ 0) : b * c ≠ 0 := by
  intro h0
  rw [h0] at h
  exact h (by decide)

theorem idivNumbers_three {D : Type} [Binary64 D] (ha : InField 23 a) (hb : InField 23 b)
    (hc : InField 23 c) (h0 : b * c ≠ 0) :
    idivNumbers ([a, b, c].map (fixv (D := D))) = .ok (fixv (a.tdiv (b * c))) := by
  have h := idivNumbers_fixes (D := D) (isFix_of_inField ha) (fixChain_prod2 hb hc)
  simp only [List.foldl_cons, List.foldl_nil, one_mul, if_neg h0] at h
  exact h

theorem divNumbers_three {D : Type} [Binary64 D] (ha : InField 23 a) (hb : InField 23 b)
    (hc : InField 23 c) (h0 : b * c ≠ 0) :
    divNumbers ([a, b, c].map (fixv (D := D))) = .ok (if a.tmod (b * c) ≠ 0 then
      .f64 (doubleQuotient (fixv a) ⟨b * c, Binary64.ofI64 1, bigInt0⟩)
      else fixv (a.tdiv (b * c))) := by
  have h := divNumbers_fixes (D := D) (isFix_of_inField ha) (fixChain_prod2 hb hc)
  simp only [List.foldl_cons, List.foldl_nil, one_mul, if_neg h0] at h
  exact h

/-- What keeps the test from dividing. -/
theorem oprand3_spec_guard (ha : InField 23 a) (hb : InField 23 b)
    (hop : i.op = some .idiv ∨ i.op = some .div)
    (h : ¬(i.sA = 3 ∧ PassesI24 (a * b) ∧ a ≠ 0 ∧ b ≠ 0)) :
    FoldSpec oprand3ConstFold i [a, b, c] := by
  have htest := isI24MulOverflow_eq_false_iff ha hb
  refine FoldSpec.of_right (fun hd => h ⟨hd.2.1, hd.2.2.1, hd.2.2.2.1, hd.2.2.2.2.1⟩) ?_
    (b := false) ?_ (by simp)
  · rintro ⟨hA, ⟨hmul, -⟩ | ⟨hp, ha0, hb0, -⟩⟩
    · rcases hop with hop | hop <;> simp [hop] at hmul
    · exact h ⟨hA, hp, ha0, hb0⟩
  · by_cases hA : i.sA = 3
    case neg => rcases hop with hop | hop <;> simp [oprand3ConstFold, isFoldableOp3, hop, hA]
    by_cases hp : isI24MulOverflow a b = true
    case pos => rcases hop with hop | hop <;> simp [oprand3ConstFold, isFoldableOp3, hop, hA, hp]
    have hzero : a = 0 ∨ b = 0 := by
      by_contra hne
      obtain ⟨ha0, hb0⟩ := not_or.mp hne
      exact h ⟨hA, htest.mp (Bool.eq_false_iff.mpr hp), ha0, hb0⟩
    rcases hop with hop | hop <;> simp [oprand3ConstFold, isFoldableOp3, hop, hA, hp, hzero]

theorem oprand3_spec_idiv (ha : InField 23 a) (hb : InField 23 b) (hc : InField 23 c)
    (hop : i.op = some .idiv) : FoldSpec oprand3ConstFold i [a, b, c] := by
  by_cases hg : i.sA = 3 ∧ PassesI24 (a * b) ∧ a ≠ 0 ∧ b ≠ 0
  case neg => exact oprand3_spec_guard ha hb (Or.inl hop) hg
  obtain ⟨hA, hp, ha0, hb0⟩ := hg
  have htest := (isI24MulOverflow_eq_false_iff ha hb).mpr hp
  have hfold : oprand3ConstFold.isFoldable i [a, b, c] = (cDiv a (i32 (b * c))).map inI24 := by
    simp [oprand3ConstFold, isFoldableOp3, hop, hA, htest, ha0, hb0]
  have hd : DividesByZero i [a, b, c] ↔ i32 (b * c) = 0 := by
    simp [DividesByZero, hop, hA, hp, ha0, hb0]
  have hw : FoldsWrongly i [a, b, c] ↔ i32 (b * c) ≠ 0 ∧ i32 (b * c) ≠ b * c ∧
      InField 23 (a.tdiv (i32 (b * c))) ∧ (i32 (b * c)).natAbs ≤ a.natAbs := by
    simp [FoldsWrongly, hop, hA, hp, ha0, hb0]
  by_cases hm : i32 (b * c) = 0
  · have hnone : oprand3ConstFold.isFoldable i [a, b, c] = none := by rw [hfold, hm]; rfl
    refine ⟨iff_of_true hnone (hd.mpr hm), fun h => ?_, fun h => absurd hm (hw.mp h).1⟩
    rw [hnone] at h
    cases h
  rw [cDiv_of_ne ha hm, Option.map_some] at hfold
  have hvalue : oprand3ConstFold.value i [a, b, c] = some (a.tdiv (i32 (b * c))) := by
    simp [oprand3ConstFold, foldOp3, hop, withSubOp, hA, cDiv_of_ne ha hm]
  have hstep : ∀ r, FoldStep i [a, b, c] r ↔ ∀ (D : Type) [Binary64 D],
      idivNumbers ([a, b, c].map (fixv (D := D))) = .ok (fixv r) := fun r =>
    foldStep_iff (fun D _ => idivNumbers) fun D _ f s => execIns_idiv hop (n := 3) hA (by decide)
  have h0 := divisor_ne_zero hm
  have hquot := natAbs_tdiv_le a (b * c)
  refine ⟨by simp [hfold, hd, hm], fun h => ?_, fun h => ?_⟩
  · rw [hfold, Option.some.injEq, inI24_iff] at h
    rw [hw]
    constructor
    · rintro ⟨r, hr, hfield, hrun⟩ ⟨-, hwraps, -, hle⟩
      obtain rfl : a.tdiv (i32 (b * c)) = r := Option.some.inj (hvalue.symm.trans hr)
      have hres := (hstep _).mp hrun Rat
      rw [idivNumbers_three ha hb hc h0] at hres
      have heq := fixv_inj (isFix_of_natAbs (by omega)) (isFix_of_inField hfield)
        (Except.ok.inj hres)
      rw [tdiv_of_natAbs_lt (natAbs_lt_of_wraps ha hwraps)] at heq
      have := (tdiv_eq_zero_iff hm).mp heq.symm
      omega
    · intro hnot
      have heq : a.tdiv (b * c) = a.tdiv (i32 (b * c)) := by
        by_cases hwraps : i32 (b * c) = b * c
        · rw [hwraps]
        · rw [tdiv_of_natAbs_lt (natAbs_lt_of_wraps ha hwraps), eq_comm, tdiv_eq_zero_iff hm]
          by_contra hle
          exact hnot ⟨hm, hwraps, h, by omega⟩
      refine ⟨_, hvalue, h, (hstep _).mpr fun D _ => ?_⟩
      rw [← heq]
      exact idivNumbers_three ha hb hc h0
  · rw [hfold, (inI24_iff _).mpr (hw.mp h).2.2.1]

theorem oprand3_spec_div (ha : InField 23 a) (hb : InField 23 b) (hc : InField 23 c)
    (hop : i.op = some .div) : FoldSpec oprand3ConstFold i [a, b, c] := by
  by_cases hg : i.sA = 3 ∧ PassesI24 (a * b) ∧ a ≠ 0 ∧ b ≠ 0
  case neg => exact oprand3_spec_guard ha hb (Or.inr hop) hg
  obtain ⟨hA, hp, ha0, hb0⟩ := hg
  have htest := (isI24MulOverflow_eq_false_iff ha hb).mpr hp
  have hfold : oprand3ConstFold.isFoldable i [a, b, c] = (cDiv a (i32 (b * c))).bind fun res =>
      (cMod a (i32 (b * c))).map fun rem => decide (rem = 0 ∧ inI24 res = true) := by
    simp [oprand3ConstFold, isFoldableOp3, hop, hA, htest, ha0, hb0]
  have hd : DividesByZero i [a, b, c] ↔ i32 (b * c) = 0 := by
    simp [DividesByZero, hop, hA, hp, ha0, hb0]
  have hw : FoldsWrongly i [a, b, c] ↔ i32 (b * c) ≠ 0 ∧ i32 (b * c) ≠ b * c ∧
      InField 23 (a.tdiv (i32 (b * c))) ∧ a.tmod (i32 (b * c)) = 0 := by
    simp [FoldsWrongly, hop, hA, hp, ha0, hb0]
  by_cases hm : i32 (b * c) = 0
  · have hnone : oprand3ConstFold.isFoldable i [a, b, c] = none := by rw [hfold, hm]; rfl
    refine ⟨iff_of_true hnone (hd.mpr hm), fun h => ?_, fun h => absurd hm (hw.mp h).1⟩
    rw [hnone] at h
    cases h
  rw [cDiv_of_ne ha hm, Option.bind_some, cMod_of_ne hm, Option.map_some] at hfold
  have hvalue : oprand3ConstFold.value i [a, b, c] = some (a.tdiv (i32 (b * c))) := by
    simp [oprand3ConstFold, foldOp3, hop, withSubOp, hA, cDiv_of_ne ha hm]
  have hstep : ∀ r, FoldStep i [a, b, c] r ↔ ∀ (D : Type) [Binary64 D],
      divNumbers ([a, b, c].map (fixv (D := D))) = .ok (fixv r) := fun r =>
    foldStep_iff (fun D _ => divNumbers) fun D _ f s => execIns_div hop (n := 3) hA (by decide)
  have h0 := divisor_ne_zero hm
  refine ⟨by simp [hfold, hd, hm], fun h => ?_, fun h => ?_⟩
  · rw [hfold, Option.some.injEq, decide_eq_true_iff, inI24_iff] at h
    obtain ⟨hmod, hfield⟩ := h
    rw [hw]
    constructor
    · rintro ⟨r, -, -, hrun⟩ ⟨-, hwraps, -, -⟩
      have hres := (hstep r).mp hrun Rat
      rw [divNumbers_three ha hb hc h0, tmod_of_natAbs_lt (natAbs_lt_of_wraps ha hwraps),
        if_pos ha0] at hres
      simp [fixv] at hres
    · intro hnot
      have hwraps : i32 (b * c) = b * c := by
        by_contra hne
        exact hnot ⟨hm, hne, hfield, hmod⟩
      refine ⟨_, hvalue, hfield, (hstep _).mpr fun D _ => ?_⟩
      rw [hwraps] at hmod ⊢
      rw [divNumbers_three ha hb hc h0, hmod, if_neg (not_not.mpr rfl)]
  · obtain ⟨-, -, hfield, hmod⟩ := hw.mp h
    rw [hfold, Option.some.injEq, decide_eq_true_iff, inI24_iff]
    exact ⟨hmod, hfield⟩

theorem oprand3_spec (i : FklIns) (ha : InField 23 a) (hb : InField 23 b) (hc : InField 23 c) :
    FoldSpec oprand3ConstFold i [a, b, c] := by
  by_cases hsum : i.op = some .add ∨ i.op = some .sub
  · exact oprand3_spec_sum ha hb hc hsum
  by_cases hmul : i.op = some .mul
  · exact oprand3_spec_mul ha hb hc hmul
  by_cases hidiv : i.op = some .idiv
  · exact oprand3_spec_idiv ha hb hc hidiv
  by_cases hdiv : i.op = some .div
  · exact oprand3_spec_div ha hb hc hdiv
  · refine FoldSpec.of_right (by simp [DividesByZero, hidiv, hdiv])
      (by simp [FoldsWrongly, hmul, hidiv, hdiv]) (b := false) ?_ (by simp)
    obtain ⟨hadd, hsub⟩ := not_or.mp hsum
    change isFoldableOp3 i a b c = some false
    unfold isFoldableOp3
    split <;> first | contradiction | rfl

end

/-! The theorem. -/

def constFolds : List ConstFold := [oprand1ConstFold, oprand2ConstFold, oprand3ConstFold]

theorem ConstFold.sound_iff_of_spec {cf : ConstFold} {p : List FklInsLn}
    (hspec : ∀ i args, args.length = cf.arity → (∀ a ∈ args, InField 23 a) → FoldSpec cf i args)
    (hlen : ∀ {l args}, cf.Finds p l args → args.length = cf.arity) :
    cf.optimizer.Sound p ↔ ∀ l args, cf.Finds p l args → ¬DividesByZero l.ins args ∧
      (isInOneBlock p (cf.arity + 1) ≠ none → ¬FoldsWrongly l.ins args) := by
  rw [ConstFold.sound_iff]
  refine forall_congr' fun l => forall_congr' fun args => forall_congr' fun hf => ?_
  have hs := hspec l.ins args (hlen hf) (execAll_consts (D := Rat) hf.2).1
  constructor
  · rintro ⟨fires, hfires, hright⟩
    refine ⟨fun hd => ?_, fun hblock hw => ?_⟩
    · rw [hs.traps.mpr hd] at hfires
      cases hfires
    · have htrue := hs.fires hw
      obtain rfl : fires = true := Option.some.inj (hfires.symm.trans htrue)
      exact (hs.right htrue).mp (hright rfl hblock) hw
  · rintro ⟨hd, hw⟩
    obtain ⟨fires, hfires⟩ := Option.ne_none_iff_exists'.mp fun h => hd (hs.traps.mp h)
    refine ⟨fires, hfires, fun htrue hblock => ?_⟩
    exact (hs.right (by rw [hfires, htrue])).mpr (hw hblock)

theorem ConstFold.Finds.length_eq {cf : ConstFold} {p : List FklInsLn} {l : FklInsLn}
    {args : List Int} (h : cf.Finds p l args) : args.length = cf.arity := by
  have hlt := (List.getElem?_eq_some_iff.mp h.1).1
  rw [(execAll_consts (D := Rat) h.2).2.1, List.length_take]
  omega

theorem foldSpec_of_mem {cf : ConstFold} (hcf : cf ∈ constFolds) (i : FklIns) (args : List Int)
    (hlen : args.length = cf.arity) (hargs : ∀ a ∈ args, InField 23 a) : FoldSpec cf i args := by
  simp only [constFolds, List.mem_cons, List.not_mem_nil, or_false] at hcf
  rcases hcf with rfl | rfl | rfl
  · obtain ⟨a, rfl⟩ := List.length_eq_one_iff.mp hlen
    exact oprand1_spec i (hargs a (by simp))
  · obtain ⟨a, b, rfl⟩ := List.length_eq_two.mp hlen
    exact oprand2_spec i (hargs a (by simp)) (hargs b (by simp))
  · obtain ⟨a, b, c, rfl⟩ := List.length_eq_three.mp hlen
    exact oprand3_spec i (hargs a (by simp)) (hargs b (by simp)) (hargs c (by simp))

theorem ConstFold.sound_iff_of_mem {cf : ConstFold} (hcf : cf ∈ constFolds) (p : List FklInsLn) :
    cf.optimizer.Sound p ↔ ∀ l args, cf.Finds p l args → ¬DividesByZero l.ins args ∧
      (isInOneBlock p (cf.arity + 1) ≠ none → ¬FoldsWrongly l.ins args) :=
  ConstFold.sound_iff_of_spec (foldSpec_of_mem hcf) ConstFold.Finds.length_eq

/-- Constant folding is sound exactly where no test divides by zero and, inside one block, no
product and no divisor wraps to a number that passes the tests. -/
theorem constFolds_sound_iff (buf : List FklInsLn) (k : Nat) :
    (∀ cf ∈ constFolds, cf.optimizer.Sound (peepholeAt buf k)) ↔
      ∀ cf ∈ constFolds, ∀ l args, cf.Finds (peepholeAt buf k) l args →
        ¬DividesByZero l.ins args ∧
          (isInOneBlock (peepholeAt buf k) (cf.arity + 1) ≠ none → ¬FoldsWrongly l.ins args) :=
  forall₂_congr fun _ hcf => ConstFold.sound_iff_of_mem hcf _

/-- 4096 times -1050624 folds to the least value of 24 bits, 2048 divided by 1024 and 4194305 to
two, and the test of a division by zero divides. -/
theorem constFolds_wrong :
    ¬oprand2ConstFold.optimizer.Sound (peepholeAt
      [bareLine ((makeInsI .pushI16).setSB 4096), bareLine ((makeInsI .pushI24).setSC (-1050624)),
        bareLine (makeInsIsA .mul 2)] 0) ∧
    ¬oprand3ConstFold.optimizer.Sound (peepholeAt
      [bareLine ((makeInsI .pushI16).setSB 2048), bareLine ((makeInsI .pushI16).setSB 1024),
        bareLine ((makeInsI .pushI24).setSC 4194305), bareLine (makeInsIsA .idiv 3)] 0) ∧
    ¬oprand2ConstFold.optimizer.Sound (peepholeAt
      [bareLine (makeInsIsA .pushI8 5), bareLine (makeInsI .push0),
        bareLine (makeInsIsA .idiv 2)] 0) := by
  rw [ConstFold.sound_iff_of_mem (show oprand2ConstFold ∈ constFolds by simp [constFolds]),
    ConstFold.sound_iff_of_mem (show oprand3ConstFold ∈ constFolds by simp [constFolds]),
    ConstFold.sound_iff_of_mem (show oprand2ConstFold ∈ constFolds by simp [constFolds])]
  refine ⟨fun h => ?_, fun h => ?_, fun h => ?_⟩
  · exact (h _ [4096, -1050624] ⟨rfl, by decide⟩).2 (by decide)
      ⟨by decide, by decide, by decide, by decide, by decide⟩
  · exact (h _ [2048, 1024, 4194305] ⟨rfl, by decide⟩).2 (by decide)
      ⟨by decide, Or.inr ⟨Or.inl (by decide), by decide, by decide, by decide, by decide,
        by decide, Or.inl (by decide)⟩⟩
  · exact (h _ [5, 0] ⟨rfl, by decide⟩).1 ⟨Or.inl (by decide), by decide, rfl⟩

/-! Division by zero. -/

theorem withSubOp_eq {i : FklIns} {n : Int} (h : i.sA = n) (r : Option Int) :
    withSubOp i n r = r := by
  simp [withSubOp, fklAssert_eq_some h]

theorem ite_false_eq_true {c : Prop} [Decidable c] {r : Option Bool} :
    (if c then some false else r) = some true ↔ ¬c ∧ r = some true := by
  by_cases hc : c <;> simp [hc]

theorem foldOp2_of_isFoldable {i : FklIns} {a b : Int} (h : isFoldableOp2 i a b = some true) :
    (foldOp2 i a b).isSome = true := by
  unfold isFoldableOp2 at h
  split at h
  case h_6 => cases h
  case h_4 hop =>
    obtain ⟨hA, -, hd⟩ := by simpa only [ite_false_eq_true, not_not] using h
    obtain ⟨r, hr, -⟩ := Option.map_eq_some_iff.mp hd
    simp [foldOp2, hop, withSubOp_eq hA, hr]
  case h_5 hop =>
    obtain ⟨hA, -, hd⟩ := by simpa only [ite_false_eq_true, not_and_or, not_not] using h
    by_cases hm : i.sA = -2
    · rw [if_pos hm] at hd
      obtain ⟨r, hr, -⟩ := Option.map_eq_some_iff.mp hd
      simp [foldOp2, hop, hm, hr]
    · rw [if_neg hm] at hd
      obtain ⟨r, hr, -⟩ := Option.bind_eq_some_iff.mp hd
      simp [foldOp2, hop, hm, withSubOp_eq (hA.resolve_right hm), hr]
  all_goals
    rename_i hop
    have hA : i.sA = 2 := not_not.mp (ite_false_eq_true.mp h).1
    simp [foldOp2, hop, withSubOp_eq hA]

theorem foldOp3_of_isFoldable {i : FklIns} {a b c : Int} (h : isFoldableOp3 i a b c = some true) :
    (foldOp3 i a b c).isSome = true := by
  unfold isFoldableOp3 at h
  split at h
  case h_6 => cases h
  case h_4 hop =>
    obtain ⟨hA, -, -, hd⟩ := by simpa only [ite_false_eq_true, not_not] using h
    obtain ⟨r, hr, -⟩ := Option.map_eq_some_iff.mp hd
    simp [foldOp3, hop, withSubOp_eq hA, hr]
  case h_5 hop =>
    obtain ⟨hA, -, -, hd⟩ := by simpa only [ite_false_eq_true, not_not] using h
    obtain ⟨r, hr, -⟩ := Option.bind_eq_some_iff.mp hd
    simp [foldOp3, hop, withSubOp_eq hA, hr]
  all_goals
    rename_i hop
    have hA : i.sA = 3 := not_not.mp (ite_false_eq_true.mp h).1
    simp [foldOp3, hop, withSubOp_eq hA]

/-- The test, and the value when the test accepts, meet no division by zero. -/
def ConstFold.Evaluates (cf : ConstFold) (i : FklIns) (args : List Int) : Prop :=
  ∃ fires, cf.isFoldable i args = some fires ∧ (fires = true → (cf.value i args).isSome = true)

theorem ConstFold.evaluates_iff_isFoldable {cf : ConstFold} {i : FklIns} {args : List Int}
    (h : cf.isFoldable i args = some true → (cf.value i args).isSome = true) :
    cf.Evaluates i args ↔ cf.isFoldable i args ≠ none := by
  constructor
  · rintro ⟨fires, hfires, -⟩ hnone
    rw [hnone] at hfires
    cases hfires
  · intro hne
    obtain ⟨fires, hfires⟩ := Option.ne_none_iff_exists'.mp hne
    exact ⟨fires, hfires, fun ht => h (hfires.trans (congrArg some ht))⟩

theorem ConstFold.value_of_isFoldable {cf : ConstFold}
    (hcf : cf ∈ [oprand2ConstFold, oprand3ConstFold]) {i : FklIns} {args : List Int}
    (h : cf.isFoldable i args = some true) : (cf.value i args).isSome = true := by
  simp only [List.mem_cons, List.not_mem_nil, or_false] at hcf
  rcases hcf with rfl | rfl
  · match args, h with
    | [a, b], h => exact foldOp2_of_isFoldable h
  · match args, h with
    | [a, b, c], h => exact foldOp3_of_isFoldable h

/-- Over the constants that the bytecode holds, the test divides by zero exactly where its
divisor is zero and the checks before the division do not stop it. -/
theorem ConstFold.evaluates_iff {cf : ConstFold} (hcf : cf ∈ [oprand2ConstFold, oprand3ConstFold])
    {p : List FklInsLn} {l : FklInsLn} {args : List Int} (h : cf.Finds p l args) :
    cf.Evaluates l.ins args ↔ ¬DividesByZero l.ins args := by
  have hmem : cf ∈ constFolds := List.mem_cons_of_mem _ hcf
  have hspec := foldSpec_of_mem hmem l.ins args h.length_eq (execAll_consts (D := Rat) h.2).1
  rw [ConstFold.evaluates_iff_isFoldable (ConstFold.value_of_isFoldable hcf), ne_eq, hspec.traps]

theorem oneByZero_evaluates_iff :
    oprand3ConstFold.Evaluates (makeInsIsA .idiv 3) [1, 1, 0] ↔
      ¬DividesByZero (makeInsIsA .idiv 3) [1, 1, 0] :=
  ConstFold.evaluates_iff (show oprand3ConstFold ∈ [oprand2ConstFold, oprand3ConstFold] by simp)
    (p := [bareLine (makeInsI .push1), bareLine (makeInsI .push1), bareLine (makeInsI .push0),
      bareLine (makeInsIsA .idiv 3)]) (l := bareLine (makeInsIsA .idiv 3)) ⟨rfl, by decide⟩

/-- One divided by zero, its remainder, and one divided by a product that wraps to zero. -/
theorem constFold_not_evaluates :
    (oprand2ConstFold.Finds [bareLine (makeInsI .push1), bareLine (makeInsI .push0),
        bareLine (makeInsIsA .idiv 2)] (bareLine (makeInsIsA .idiv 2)) [1, 0] ∧
      ¬oprand2ConstFold.Evaluates (makeInsIsA .idiv 2) [1, 0]) ∧
    (oprand3ConstFold.Finds [bareLine (makeInsI .push1), bareLine ((makeInsI .pushI24).setSC 65536),
        bareLine ((makeInsI .pushI24).setSC 65536), bareLine (makeInsIsA .div 3)]
        (bareLine (makeInsIsA .div 3)) [1, 65536, 65536] ∧
      ¬oprand3ConstFold.Evaluates (makeInsIsA .div 3) [1, 65536, 65536]) := by
  refine ⟨⟨⟨rfl, by decide⟩, ?_⟩, ⟨⟨rfl, by decide⟩, ?_⟩⟩
  · rintro ⟨fires, hfires, -⟩
    have hnone : oprand2ConstFold.isFoldable (makeInsIsA .idiv 2) [1, 0] = none := by decide
    exact Option.some_ne_none _ (hfires.symm.trans hnone)
  · rintro ⟨fires, hfires, -⟩
    have hnone : oprand3ConstFold.isFoldable (makeInsIsA .div 3) [1, 65536, 65536] = none := by
      decide
    exact Option.some_ne_none _ (hfires.symm.trans hnone)

end FakeLisp
