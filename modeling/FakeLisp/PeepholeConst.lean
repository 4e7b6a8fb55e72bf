import FakeLisp.PeepholeLocal

/-! Constant folding: the rules compute in 32 bits what the machine computes with
fixnums. -/

namespace FakeLisp

/-! The rules. -/

def isFoldableConst (i : FklIns) : Option Int :=
  match i.op with
  | some .push0 => some 0
  | some .push1 => some 1
  | some .pushI8 => some i.sA
  | some .pushI16 => some i.sB
  | some .pushI24 => some i.sC
  | _ => none

def isI24MulOverflow (a b : Int) : Bool := mulOverflowTest 24 32 i24Max i24Min a b

/-- Division of C; a divisor of zero traps. -/
def cDiv (a b : Int) : Option Int := if b = 0 then none else some (i32 (a.tdiv b))

def cMod (a b : Int) : Option Int := if b = 0 then none else some (a.tmod b)

def inI24 (res : Int) : Bool := res ≥ i24Min ∧ res ≤ i24Max

def isFoldableOp1 (i : FklIns) (a : Int) : Option Bool :=
  match i.op with
  | some .addk => some (inI24 (i32 (a + i.sA)))
  | some .add => some (i.sA = 1)
  | some .mul => some (i.sA = 1)
  | some .sub => if i.sA ≠ 1 then some false else some (inI24 (i32 (-a)))
  | _ => some false

def isFoldableOp2 (i : FklIns) (a b : Int) : Option Bool :=
  match i.op with
  | some .add => if i.sA ≠ 2 then some false else some (inI24 (i32 (a + b)))
  | some .sub => if i.sA ≠ 2 then some false else some (inI24 (i32 (a - b)))
  | some .mul => if i.sA ≠ 2 then some false else some (!isI24MulOverflow a b)
  | some .idiv =>
    if i.sA ≠ 2 then some false
    else if a = 0 then some false
    else (cDiv a b).map inI24
  | some .div =>
    if i.sA ≠ 2 ∧ i.sA ≠ -2 then some false
    else if a = 0 then some false
    else if i.sA = -2 then (cMod a b).map inI24
    else (cDiv a b).bind fun res => (cMod a b).map fun rem => rem = 0 ∧ inI24 res
  | _ => some false

def isFoldableOp3 (i : FklIns) (a b c : Int) : Option Bool :=
  match i.op with
  | some .add => if i.sA ≠ 3 then some false else some (inI24 (i32 (i32 (a + b) + c)))
  | some .sub => if i.sA ≠ 3 then some false else some (inI24 (i32 (a - i32 (b + c))))
  | some .mul =>
    if i.sA ≠ 3 then some false
    else some (!isI24MulOverflow a b && !isI24MulOverflow c (i32 (a * b)))
  | some .idiv =>
    if i.sA ≠ 3 then some false
    else if isI24MulOverflow a b then some false
    else if a = 0 ∨ b = 0 then some false
    else (cDiv a (i32 (b * c))).map inI24
  | some .div =>
    if i.sA ≠ 3 then some false
    else if isI24MulOverflow a b then some false
    else if a = 0 ∨ b = 0 then some false
    else (cDiv a (i32 (b * c))).bind fun res =>
      (cMod a (i32 (b * c))).map fun rem => rem = 0 ∧ inI24 res
  | _ => some false

/-- An assertion on the sub-operation before a value is computed. -/
def withSubOp (i : FklIns) (n : Int) (r : Option Int) : Option Int :=
  (fklAssert (i.sA = n)).bind fun _ => r

/-- The value of `oprand1_const_fold_output`. -/
def foldOp1 (i : FklIns) (a : Int) : Option Int :=
  match i.op with
  | some .addk => some (i32 (a + i.sA))
  | some .add | some .mul => withSubOp i 1 (some a)
  | some .sub => withSubOp i 1 (some (i32 (-a)))
  | _ => none

/-- The value of `oprand2_const_fold_output`. -/
def foldOp2 (i : FklIns) (a b : Int) : Option Int :=
  match i.op with
  | some .add => withSubOp i 2 (some (i32 (a + b)))
  | some .sub => withSubOp i 2 (some (i32 (a - b)))
  | some .mul => withSubOp i 2 (some (i32 (a * b)))
  | some .div => if i.sA = -2 then cMod a b else withSubOp i 2 (cDiv a b)
  | some .idiv => withSubOp i 2 (cDiv a b)
  | _ => none

/-- The value of `oprand3_const_fold_output`. -/
def foldOp3 (i : FklIns) (a b c : Int) : Option Int :=
  match i.op with
  | some .add => withSubOp i 3 (some (i32 (i32 (a + b) + c)))
  | some .sub => withSubOp i 3 (some (i32 (a - i32 (b + c))))
  | some .mul => withSubOp i 3 (some (i32 (i32 (a * b) * c)))
  | some .div | some .idiv => withSubOp i 3 (cDiv a (i32 (b * c)))
  | _ => none

/-- What the three rules differ in: the number of operands, the test and the value. -/
structure ConstFold where
  arity : Nat
  isFoldable : FklIns → List Int → Option Bool
  value : FklIns → List Int → Option Int

/-- The end of the output functions: push `r`. -/
def emitPush (i0 : FklInsLn) (r : Int) : Option FklInsLn :=
  if r = 0 ∨ r = 1 then
    some { i0 with ins := i0.ins.setOp (FklOpcode.ofNat (FklOpcode.ctorIdx .push0 + r.toNat)) }
  else if inI24 r then do
    let (l, code) ← fklMakeIns (fun _ => i0.ins) .pushI8 ⟨r, 0, 0⟩
    fklAssert (l = 1)
    some { i0 with ins := code 0 }
  else none

namespace ConstFold

variable (cf : ConstFold)

def predicate (peephole : List FklInsLn) : Option Nat :=
  match peephole[cf.arity]? with
  | none => some 0
  | some l =>
    match (peephole.take cf.arity).mapM fun l => isFoldableConst l.ins with
    | none => some 0
    | some args => do
      let fires ← cf.isFoldable l.ins args
      some (if fires then cf.arity + 1 else 0)

def output (peephole : List FklInsLn) : Option (List FklInsLn) := do
  let i0 ← peephole[0]?
  let l ← peephole[cf.arity]?
  let r ← cf.value l.ins ((peephole.take cf.arity).map fun l => (isFoldableConst l.ins).getD 0)
  let out ← emitPush i0 r
  some [out]

def optimizer : PeepholeOptimizer := ⟨cf.predicate, cf.output⟩

end ConstFold

def oprand1ConstFold : ConstFold where
  arity := 1
  isFoldable i
    | [a] => isFoldableOp1 i a
    | _ => some false
  value i
    | [a] => foldOp1 i a
    | _ => none

def oprand2ConstFold : ConstFold where
  arity := 2
  isFoldable i
    | [a, b] => isFoldableOp2 i a b
    | _ => some false
  value i
    | [a, b] => foldOp2 i a b
    | _ => none

def oprand3ConstFold : ConstFold where
  arity := 3
  isFoldable i
    | [a, b, c] => isFoldableOp3 i a b c
    | _ => some false
  value i
    | [a, b, c] => foldOp3 i a b c
    | _ => none

/-! Constants on the stack. -/

section

variable {D : Type}

def pushAll (args : List Int) (s : VMstate D) : VMstate D :=
  args.foldl (fun s a => s.push (.fix a)) s

theorem pushAll_eq (args : List Int) (s : VMstate D) :
    pushAll args s = ⟨(args.map VMword.fix).reverse ++ s.stack, s.cell⟩ := by
  induction args generalizing s with
  | nil => rfl
  | cons a args ih =>
    rw [List.map_cons, List.reverse_cons, List.append_assoc]
    exact ih (s.push (.fix a))

/-- An operation takes the constants as its operands, in the order they were pushed. -/
theorem execNumber_pushAll (g : List (FklVMvalue D) → Except VMError (FklVMvalue D))
    (args : List Int) (s : VMstate D) :
    execNumber g args.length (pushAll args s) =
      match g (args.map fixv) with
      | .error e => .error (.number e)
      | .ok v => .ok (s.push (.num v)) := by
  have hlen : args.length = ((args.map (VMword.fix (D := D))).reverse).length := by simp
  have hargs : ((args.map (VMword.fix (D := D))).reverse.map VMword.number).reverse =
      args.map fixv := by
    rw [List.map_reverse, List.reverse_reverse, List.map_map]
    rfl
  have hpop : popArgs args.length (pushAll args s) = .ok (args.map fixv, s.stack) := by
    rw [pushAll_eq]
    unfold popArgs
    rw [if_pos (by simp), hlen, List.take_left, List.drop_left, hargs]
  unfold execNumber
  rw [hpop, pushAll_eq]
  rfl

variable [Binary64 D] {f : VMframe D} {s : VMstate D}

theorem isFoldableConst_spec {i : FklIns} {a : Int} (h : isFoldableConst i = some a) :
    InField 23 a ∧ ∀ (f : VMframe D) s, execIns f i s = .ok (s.push (.fix a)) := by
  unfold isFoldableConst at h
  split at h
  case h_6 => cases h
  all_goals
    rename_i hop
    obtain rfl := Option.some.inj h
    refine ⟨?_, fun f s => by simp only [execIns, hop]⟩
  · exact ⟨by decide, by decide⟩
  · exact ⟨by decide, by decide⟩
  · obtain ⟨hlo, hhi⟩ := sA_inField i
    exact ⟨by omega, by omega⟩
  · obtain ⟨hlo, hhi⟩ := sB_inField i
    exact ⟨by omega, by omega⟩
  · exact sC_inField i

theorem execAll_consts {ls : List FklInsLn} {args : List Int}
    (h : ls.mapM (fun l => isFoldableConst l.ins) = some args) :
    (∀ a ∈ args, InField 23 a) ∧ args.length = ls.length ∧
      args = ls.map (fun l => (isFoldableConst l.ins).getD 0) ∧
      ∀ (f : VMframe D) s is, execAll f (insOf ls ++ is) s = execAll f is (pushAll args s) := by
  induction ls generalizing args with
  | nil =>
    obtain rfl : [] = args := by simpa using h
    exact ⟨by simp, rfl, rfl, fun f s is => rfl⟩
  | cons l ls ih =>
    simp only [List.mapM_cons, Option.bind_eq_bind, Option.bind_eq_some_iff, Option.pure_def,
      Option.some.injEq] at h
    obtain ⟨a, ha, as, has, rfl⟩ := h
    obtain ⟨hfield, hlen, hmap, hexec⟩ := ih has
    obtain ⟨hfa, hpush⟩ := isFoldableConst_spec (D := D) ha
    refine ⟨by simpa using ⟨hfa, hfield⟩, by simp [hlen], by rw [List.map_cons, ← hmap, ha]; rfl,
      fun f s is => ?_⟩
    change execAll f (l.ins :: (insOf ls ++ is)) s = _
    rw [execAll_cons_ok (hpush f s), hexec]
    rfl

end

/-! The emitted instruction. -/

theorem inI24_iff (r : Int) : inI24 r = true ↔ InField 23 r := by
  have hmax : i24Max = 8388607 := rfl
  have hmin : i24Min = -8388608 := rfl
  unfold inI24
  rw [decide_eq_true_iff]
  omega

theorem widens_pushI8 {op : FklOpcode} (h : Widens .pushI8 op) (hd : op ≠ .dummy) :
    op = .pushI8 ∨ op = .pushI16 ∨ op = .pushI24 := by
  induction h with
  | refl => exact Or.inl rfl
  | @tail mid next _ hnext ih =>
    subst hnext
    by_cases hmid : mid = .dummy
    · exact absurd (by rw [hmid]; rfl) hd
    · rcases ih hmid with rfl | rfl | rfl
      · exact Or.inr (Or.inl rfl)
      · exact Or.inr (Or.inr rfl)
      · exact absurd rfl hd

/-- A constant of 24 bits is encoded in one instruction that pushes it. -/
theorem fklMakeIns_push {r : Int} (hr : InField 23 r) (ins : Code) :
    ∃ out, fklMakeIns ins .pushI8 ⟨r, 0, 0⟩ = some (1, out) ∧ isFoldableConst (out 0) = some r := by
  obtain ⟨found, hfind, hsome, hnone⟩ := findOpcode_spec (n := 67) ⟨r, 0, 0⟩
    (show FklOpcode.pushI8 ≠ .extraArg by decide) (by decide)
  have hmake : fklMakeIns ins .pushI8 ⟨r, 0, 0⟩ = if found = .dummy then some (0, ins)
      else (emitIns ins found ⟨r, 0, 0⟩).bind fun out => some (fklGetOpcodeModeLen found, out) := by
    unfold fklMakeIns
    rw [if_neg (by decide)]
    exact bind_eq_of_eq rfl (bind_eq_of_eq hfind rfl)
  have hne : found ≠ .dummy := by
    intro hd
    have hfalse := hnone hd .pushI24 (.tail (.tail .refl rfl) rfl) (by decide)
    obtain ⟨fits, hfits, hiff⟩ := argFits_spec ⟨r, 0, 0⟩
      (fklGetOpcodeMode_mem (show FklOpcode.pushI24 ≠ .extraArg by decide))
    rw [hfits, hiff.mpr (Or.inl hr)] at hfalse
    cases hfalse
  obtain ⟨hw, hfit⟩ := hsome hne
  rw [hmake, if_neg hne]
  rcases widens_pushI8 hw hne with rfl | rfl | rfl
  all_goals
    refine ⟨_, rfl, ?_⟩
    simp only [argFits, fklGetOpcodeMode, Option.some.injEq, decide_eq_true_eq] at hfit
    simp only [isFoldableConst, Function.update_self, FklIns.setSA, FklIns.setSB, FklIns.op_setUA,
      FklIns.op_setUB, FklIns.op_setSC, FklIns.op_setOp, FklIns.sA_setUA, FklIns.sB_setUB,
      FklIns.sC_setSC, Option.some.injEq]
  · exact toSigned_of_inField (p := 7) ⟨by omega, by omega⟩
  · exact toSigned_of_inField (p := 15) ⟨by omega, by omega⟩
  · exact toSigned_of_inField hr

theorem emitPush_spec (i0 : FklInsLn) {r : Int} (hr : InField 23 r) :
    ∃ out, emitPush i0 r = some out ∧ isFoldableConst out.ins = some r := by
  unfold emitPush
  by_cases h01 : r = 0 ∨ r = 1
  · rw [if_pos h01]
    refine ⟨_, rfl, ?_⟩
    rcases h01 with rfl | rfl <;> simp [isFoldableConst] <;> rfl
  · rw [if_neg h01, if_pos ((inI24_iff r).mpr hr)]
    obtain ⟨out, hmake, hpush⟩ := fklMakeIns_push hr fun _ => i0.ins
    exact ⟨_, bind_eq_of_eq hmake (bind_eq_of_eq (fklAssert_eq_some rfl) rfl), hpush⟩

theorem inField_of_emitPush {i0 out : FklInsLn} {r : Int} (h : emitPush i0 r = some out) :
    InField 23 r := by
  unfold emitPush at h
  split at h
  · next h01 => rcases h01 with rfl | rfl <;> exact ⟨by decide, by decide⟩
  · split at h
    · next hin => exact (inI24_iff r).mp hin
    · cases h

/-! When a rule is sound. -/

/-- The operation takes the constants to `r`, whatever else the state holds. -/
def FoldStep (i : FklIns) (args : List Int) (r : Int) : Prop :=
  ∀ (D : Type) [Binary64 D] (f : VMframe D) (s : VMstate D),
    execIns f i (pushAll args s) = .ok (s.push (.fix r))

namespace ConstFold

variable (cf : ConstFold)

/-- The operation and the constants that the rule finds. -/
def Finds (p : List FklInsLn) (l : FklInsLn) (args : List Int) : Prop :=
  p[cf.arity]? = some l ∧ (p.take cf.arity).mapM (fun l => isFoldableConst l.ins) = some args

/-- The value is computed, fits, and is what the operation takes the constants to. -/
def ValueRight (i : FklIns) (args : List Int) : Prop :=
  ∃ r, cf.value i args = some r ∧ InField 23 r ∧ FoldStep i args r

variable {cf} {p : List FklInsLn} {l : FklInsLn} {args : List Int}

theorem Finds.predicate_eq (h : cf.Finds p l args) :
    cf.predicate p = (cf.isFoldable l.ins args).map fun fires =>
      if fires then cf.arity + 1 else 0 := by
  unfold ConstFold.predicate
  rw [h.1]
  dsimp only
  rw [h.2]
  dsimp only
  cases cf.isFoldable l.ins args <;> rfl

theorem predicate_of_not_finds (h : ∀ l args, ¬cf.Finds p l args) : cf.predicate p = some 0 := by
  unfold ConstFold.predicate
  split
  · rfl
  next l hl =>
    split
    · rfl
    next args hargs => exact absurd ⟨hl, hargs⟩ (h l args)

theorem Finds.output_eq (h : cf.Finds p l args) :
    ∃ i0, cf.output p = (cf.value l.ins args).bind fun r => (emitPush i0 r).map fun out => [out] := by
  have hlen : 0 < p.length := by
    have := (List.getElem?_eq_some_iff.mp h.1).1
    omega
  refine ⟨p[0], ?_⟩
  unfold ConstFold.output
  rw [List.getElem?_eq_getElem hlen, h.1, ← (execAll_consts (D := Rat) h.2).2.2.1]
  simp only [Option.bind_eq_bind, Option.bind_some]
  congr 1
  funext r
  cases emitPush p[0] r <;> rfl

theorem Finds.execAll_eq (h : cf.Finds p l args) {D : Type} [Binary64 D] (f : VMframe D)
    (s : VMstate D) :
    execAll f (insOf (p.take (cf.arity + 1))) s = execIns f l.ins (pushAll args s) := by
  rw [List.take_add_one, h.1, Option.toList_some, insOf_append,
    (execAll_consts h.2).2.2.2, ← execAll_one]
  rfl

theorem sound_iff (p : List FklInsLn) :
    cf.optimizer.Sound p ↔ ∀ l args, cf.Finds p l args →
      ∃ fires, cf.isFoldable l.ins args = some fires ∧
        (fires = true → isInOneBlock p (cf.arity + 1) ≠ none → cf.ValueRight l.ins args) := by
  constructor
  · rintro ⟨n, hn, hsound⟩ l args h
    change cf.predicate p = some n at hn
    rw [h.predicate_eq, Option.map_eq_some_iff] at hn
    obtain ⟨fires, hfires, rfl⟩ := hn
    refine ⟨fires, hfires, fun htrue hblock => ?_⟩
    rw [if_pos htrue] at hsound
    obtain ⟨out, hout, heq⟩ := hsound (Nat.succ_pos _) hblock
    obtain ⟨i0, houtput⟩ := h.output_eq
    change cf.output p = some out at hout
    rw [houtput, Option.bind_eq_some_iff] at hout
    obtain ⟨r, hr, hemit⟩ := hout
    obtain ⟨o, ho, rfl⟩ := Option.map_eq_some_iff.mp hemit
    have hfield := inField_of_emitPush ho
    obtain ⟨o', ho', hpush⟩ := emitPush_spec i0 hfield
    obtain rfl : o = o' := Option.some.inj (ho.symm.trans ho')
    refine ⟨r, hr, hfield, fun D _ f s => ?_⟩
    rw [← h.execAll_eq, ← heq]
    simp only [insOf, List.map_cons, List.map_nil, execAll_one, (isFoldableConst_spec hpush).2]
  · intro h
    by_cases hfind : ∃ l args, cf.Finds p l args
    · obtain ⟨l, args, hfind⟩ := hfind
      obtain ⟨fires, hfires, hright⟩ := h l args hfind
      refine ⟨if fires then cf.arity + 1 else 0, ?_, fun hn hblock => ?_⟩
      · change cf.predicate p = _
        rw [hfind.predicate_eq, hfires]
        rfl
      · split at hn
        case isFalse => exact absurd hn (lt_irrefl 0)
        next htrue =>
        rw [if_pos htrue] at hblock ⊢
        obtain ⟨r, hr, hfield, hstep⟩ := hright htrue hblock
        obtain ⟨i0, houtput⟩ := hfind.output_eq
        obtain ⟨o, ho, hpush⟩ := emitPush_spec i0 hfield
        refine ⟨[o], ?_, fun D _ f s => ?_⟩
        · change cf.output p = _
          rw [houtput, hr, Option.bind_some, ho]
          rfl
        · rw [hfind.execAll_eq, hstep]
          simp only [insOf, List.map_cons, List.map_nil, execAll_one, (isFoldableConst_spec hpush).2]
    · exact sound_of_zero (predicate_of_not_finds fun l args hf => hfind ⟨l, args, hf⟩)

end ConstFold

end FakeLisp
