import FakeLisp.BitField
import FakeLisp.Words

/-! Instructions of 32 bits and their operands: opcode in the low byte, then a field
of 8 bits and one of 16, or one of 24. Long operands go on in extra instructions. -/

namespace FakeLisp

/-- The opcodes in the order of their numbers. -/
inductive FklOpcode where
  | dummy | pushNil | pushPair | push0 | push1 | pushI8 | pushI16 | pushI24 | pushChar
  | pushConst | pushBox | pushList0 | pushVec0 | pushHasheq0 | pushHasheqv0 | pushHashequal0
  | loadProto | makeProc | dup | drop | checkArg | setBp | call | tailCall | retIfTrue
  | retIfFalse | ret | jmpIfTrue | jmpIfFalse | jmp | importOp | getLoc | putLoc | getVarRef
  | putVarRef | exportOp | loadLib | atom | true | not | eq | eqv | equal | eqn | gt | lt | ge | le
  | addk | addkLoc | add | sub | mul | div | idiv | pair | vec | str | bytes | box | hash
  | closeRef | popLoc | movLoc | movVarRef | exportMore | extraArg
  deriving DecidableEq

/-- The shapes of the operands: letters for the fields, `s` signed and `u` unsigned. -/
inductive FklOpcodeMode where
  | i | isA | iuB | isB | iuC | isC | iuBB | isBB | iuCCB | isCCB | isAuB | iuAuB | iuCuC
  | iuCAuBB | ixAxB
  deriving DecidableEq

def fklGetOpcodeMode : FklOpcode → FklOpcodeMode
  | .pushI8 | .pushBox | .drop | .setBp | .eqn | .gt | .lt | .ge | .le | .addk | .add
  | .sub | .mul | .div | .idiv | .pair | .vec | .str | .bytes | .box | .hash => .isA
  | .pushChar | .popLoc => .iuB
  | .pushI16 => .isB
  | .pushConst | .loadProto | .makeProc | .importOp | .getLoc | .putLoc | .getVarRef
  | .putVarRef | .exportOp | .loadLib | .closeRef | .exportMore => .iuC
  | .pushI24 | .jmpIfTrue | .jmpIfFalse | .jmp => .isC
  | .checkArg | .addkLoc => .isAuB
  | .movLoc | .movVarRef => .iuAuB
  | .extraArg => .ixAxB
  | _ => .i

/-- The opcode to try when the operand does not fit. -/
def fklGetOpcodeNext : FklOpcode → FklOpcode
  | .pushI8 => .pushI16
  | .pushI16 => .pushI24
  | _ => .dummy

def fklGetOpcodeModeLen (op : FklOpcode) : Nat :=
  match fklGetOpcodeMode op with
  | .i | .isA | .iuB | .isB | .iuC | .isC | .isAuB | .iuAuB | .ixAxB => 1
  | .iuBB | .isBB | .iuCuC => 2
  | .iuCCB | .isCCB | .iuCAuBB => 3

structure FklInsArg where
  ix : Int
  ux : Nat
  uy : Nat
  deriving DecidableEq

abbrev FklIns := BitVec 32

/-- `FKL_I24_OFFSET` -/
def i24Offset : Nat := 0x800000

/-- `FKL_U24_MAX` -/
def u24Max : Int := 0xFFFFFF

/-- `FKL_I24_MAX` -/
def i24Max : Int := 0x7FFFFF

/-- `FKL_I24_MIN` -/
def i24Min : Int := -0x800000

namespace FklIns

/-- `FKL_INS_OP`; a byte that is no opcode is `none`. -/
def op (i : FklIns) : Option FklOpcode :=
  let b := (getField i 0 8).toNat
  if b ≤ FklOpcode.ctorIdx .extraArg then some (FklOpcode.ofNat b) else none

def setOp (i : FklIns) (op : FklOpcode) : FklIns := setField i (BitVec.ofNat 32 op.ctorIdx) 0 8

def sA (i : FklIns) : Int := toSigned 8 (getField i 8 8).toNat

def uA (i : FklIns) : Nat := toUnsigned 8 (getField i 8 8).toNat

def setUA (i : FklIns) (a : Int) : FklIns := setField i (BitVec.ofNat 32 (toUnsigned 8 a)) 8 8

def setSA (i : FklIns) (a : Int) : FklIns := setUA i a

def sB (i : FklIns) : Int := toSigned 16 (getField i 16 16).toNat

def uB (i : FklIns) : Nat := toUnsigned 16 (getField i 16 16).toNat

def setUB (i : FklIns) (b : Int) : FklIns := setField i (BitVec.ofNat 32 (toUnsigned 16 b)) 16 16

def setSB (i : FklIns) (b : Int) : FklIns := setUB i b

def sC (i : FklIns) : Int := i32 (i32 (getField i 8 24).toNat - i24Offset)

def uC (i : FklIns) : Nat := u32 (getField i 8 24).toNat

/-- Signed numbers are stored with an offset. -/
def setSC (i : FklIns) (c : Int) : FklIns :=
  setField i (BitVec.ofNat 32 (u32 (i32 c) + i24Offset)) 8 24

def setUC (i : FklIns) (c : Int) : FklIns := setField i (BitVec.ofNat 32 (u32 c)) 8 24

end FklIns

/-- `FKL_MAKE_INS_I` -/
def makeInsI (op : FklOpcode) : FklIns := FklIns.setOp 0 op

/-- `MAKE_EXTRA_uA` -/
def makeExtraUA (a : Nat) : FklIns := (makeInsI .extraArg).setUA a

/-- `MAKE_EXTRA_uB` -/
def makeExtraUB (b : Nat) : FklIns := (makeInsI .extraArg).setUB b

/-- `MAKE_EXTRA_uC` -/
def makeExtraUC (c : Nat) : FklIns := (makeInsI .extraArg).setUC c

/-- The instructions from a position on. -/
abbrev Code := Nat → FklIns

def setInsUxx (ins : Code) (k : Nat) : Code :=
  let ins := Function.update ins 0 ((ins 0).setUC (k % 2 ^ 24 : Nat))
  let ins := Function.update ins 1 (makeExtraUC ((k >>> 24) % 2 ^ 24))
  Function.update ins 2 (makeExtraUB ((k >>> 48) % 2 ^ 16))

def setInsUx (ins : Code) (k : Nat) : Code :=
  let ins := Function.update ins 0 ((ins 0).setUB (k % 2 ^ 16 : Nat))
  Function.update ins 1 (makeExtraUB ((k >>> 16) % 2 ^ 16))

def setIns2Uxx (ins : Code) (ux uy : Nat) : Code :=
  let ins := Function.update ins 0 ((ins 0).setUC (ux % 2 ^ 24 : Nat))
  let ins := Function.update ins 1 ((makeExtraUA ((ux >>> 24) % 2 ^ 8)).setUB (uy % 2 ^ 16 : Nat))
  Function.update ins 2 (makeExtraUB ((uy >>> 16) % 2 ^ 16))

/-! Encoding. -/

/-- The first switch of `fklMakeIns`: the fields that the mode reads, the others zero. -/
def readArg (mode : FklOpcodeMode) (arg : FklInsArg) : Option FklInsArg :=
  match mode with
  | .i => some ⟨0, 0, 0⟩
  | .isA | .isB | .isC | .isBB | .isCCB => some ⟨arg.ix, 0, 0⟩
  | .iuB | .iuC | .iuBB | .iuCCB => some ⟨0, arg.ux, 0⟩
  | .isAuB => some ⟨arg.ix, 0, arg.uy⟩
  | .iuAuB | .iuCuC | .iuCAuBB => some ⟨0, arg.ux, arg.uy⟩
  | .ixAxB => none

/-- The range checks of the loop of `fklMakeIns`. -/
def argFits (mode : FklOpcodeMode) (a : FklInsArg) : Option Bool :=
  match mode with
  | .i => some true
  | .isA => some (¬(a.ix > 127 ∨ a.ix < -128))
  | .isB => some (¬(a.ix > 32767 ∨ a.ix < -32768))
  | .isC => some (¬(a.ix > u24Max ∨ a.ix < i24Min))
  | .isBB => some (¬(a.ix > 2147483647 ∨ a.ix < -2147483648))
  | .isCCB => some true
  | .iuB => some (¬a.ux > 65535)
  | .iuC => some (¬(a.ux : Int) > u24Max)
  | .iuBB => some (¬a.ux > 4294967295)
  | .iuCCB => some true
  | .isAuB => some (¬(a.ix > 127 ∨ a.ix < -128 ∨ a.uy > 65535))
  | .iuAuB => some (¬(a.ux > 255 ∨ a.uy > 65535))
  | .iuCuC => some (¬((a.ux : Int) > u24Max ∨ (a.uy : Int) > u24Max))
  | .iuCAuBB => some (¬(a.ux > 4294967295 ∨ a.uy > 4294967295))
  | .ixAxB => none

/-- The loop of `fklMakeIns` over the chain of opcodes; `dummy` ends it. -/
def findOpcode : Nat → FklOpcode → FklInsArg → Option FklOpcode
  | 0, _, _ => none
  | fuel + 1, op, a =>
    if op = .dummy then some .dummy
    else do
      let fits ← argFits (fklGetOpcodeMode op) a
      if fits then some op else findOpcode fuel (fklGetOpcodeNext op) a

/-- From the label `emit_ins` on. -/
def emitIns (ins : Code) (op : FklOpcode) (a : FklInsArg) : Option Code :=
  let ins := Function.update ins 0 ((ins 0).setOp op)
  let set0 := fun i => some (Function.update ins 0 i)
  match fklGetOpcodeMode op with
  | .i => some ins
  | .isA => set0 ((ins 0).setSA a.ix)
  | .isB => set0 ((ins 0).setSB a.ix)
  | .isC => set0 ((ins 0).setSC a.ix)
  | .isBB => some (setInsUx ins (u32 a.ix))
  | .isCCB => some (setInsUxx ins (u64 a.ix))
  | .iuB => set0 ((ins 0).setUB a.ux)
  | .iuC => set0 ((ins 0).setUC a.ux)
  | .iuBB => some (setInsUx ins (u32 a.ux))
  | .iuCCB => some (setInsUxx ins a.ux)
  | .isAuB => set0 (((ins 0).setSA a.ix).setUB a.uy)
  | .iuAuB => set0 (((ins 0).setUA a.ux).setUB a.uy)
  | .iuCuC => some (Function.update (Function.update ins 0 ((ins 0).setUC a.ux)) 1
      ((ins 1).setUC a.uy))
  | .iuCAuBB => some (setIns2Uxx ins a.ux a.uy)
  | .ixAxB => none

/-- `fklMakeIns`: the number of instructions written, and the code. -/
def fklMakeIns (ins : Code) (op : FklOpcode) (arg : FklInsArg) : Option (Nat × Code) :=
  if op = .dummy then some (0, ins)
  else do
    let a ← readArg (fklGetOpcodeMode op) arg
    let found ← findOpcode 67 op a
    if found = .dummy then some (0, ins)
    else do
      let out ← emitIns ins found a
      some (fklGetOpcodeModeLen found, out)

/-! Decoding. -/

/-- `FKL_INS_uX` -/
def insUX (i0 i1 : FklIns) : Nat := i0.uB ||| u32 (i1.uB <<< 16 : Nat)

/-- `FKL_INS_sX` -/
def insSX (i0 i1 : FklIns) : Int := i32 (insUX i0 i1)

/-- `FKL_INS_uXX` -/
def insUXX (i0 i1 i2 : FklIns) : Nat :=
  i0.uC ||| u64 (i1.uC <<< 24 : Nat) ||| u64 (i2.uB <<< 48 : Nat)

/-- `FKL_INS_sXX` -/
def insSXX (i0 i1 i2 : FklIns) : Int := i64 (insUXX i0 i1 i2)

/-- `get_ins_op_with_op`: the length, and `a` with the fields read. -/
def getInsOpWithOp (op : FklOpcode) (ins : Code) (a : FklInsArg) : Nat × FklInsArg :=
  match fklGetOpcodeMode op with
  | .i => (1, a)
  | .isA => (1, { a with ix := (ins 0).sA })
  | .iuB => (1, { a with ux := (ins 0).uB })
  | .isB => (1, { a with ix := (ins 0).sB })
  | .iuC => (1, { a with ux := (ins 0).uC })
  | .isC => (1, { a with ix := (ins 0).sC })
  | .iuBB => (2, { a with ux := insUX (ins 0) (ins 1) })
  | .isBB => (2, { a with ix := insSX (ins 0) (ins 1) })
  | .iuCCB => (3, { a with ux := insUXX (ins 0) (ins 1) (ins 2) })
  | .isCCB => (3, { a with ix := insSXX (ins 0) (ins 1) (ins 2) })
  | .isAuB => (1, { a with ix := (ins 0).sA, uy := (ins 0).uB })
  | .iuAuB => (1, { a with ux := (ins 0).uA, uy := (ins 0).uB })
  | .iuCuC => (2, { a with ux := (ins 0).uC, uy := (ins 1).uC })
  | .iuCAuBB => (3, { a with
      ux := (ins 0).uC ||| u32 ((ins 1).uA <<< 24 : Nat)
      uy := (ins 1).uB ||| u64 ((ins 2).uB <<< 16 : Nat) })
  | .ixAxB => (1, { a with ux := (ins 0).uA, uy := (ins 0).uB })

def fklGetInsOpArg (ins : Code) (a : FklInsArg) : Option (Nat × FklInsArg) := do
  let op ← (ins 0).op
  some (getInsOpWithOp op ins a)

/-! Fields read after fields written. -/

namespace FklIns

variable (i : FklIns)

theorem toSigned_toUnsigned (w : Nat) (x : Int) : toSigned w (toUnsigned w x : Nat) = toSigned w x := by
  rw [toUnsigned_cast]
  have h := Int.emod_bmod x (2 ^ w)
  push_cast at h
  exact h

theorem toNat_ofNat_mod {s : Nat} (hs : s ≤ 32) (n : Nat) :
    (BitVec.ofNat 32 n).toNat % 2 ^ s = n % 2 ^ s := by
  rw [BitVec.toNat_ofNat, Nat.mod_mod_of_dvd _ (Nat.pow_dvd_pow 2 hs)]

@[simp] theorem op_setOp (op : FklOpcode) : (i.setOp op).op = some op := by
  have hlt : op.ctorIdx ≤ FklOpcode.ctorIdx .extraArg := by cases op <;> decide
  have hmod : op.ctorIdx % 2 ^ 8 = op.ctorIdx := by cases op <;> decide
  unfold FklIns.op setOp
  rw [getField_setField (by decide) (by decide), toNat_ofNat_mod (by decide), hmod]
  simp only [if_pos hlt, FklOpcode.ofNat_ctorIdx]

@[simp] theorem op_setUA (a : Int) : (i.setUA a).op = i.op := by
  unfold FklIns.op setUA
  rw [getField_setField_of_disjoint (by decide) (by decide) (by decide)]

@[simp] theorem op_setUB (b : Int) : (i.setUB b).op = i.op := by
  unfold FklIns.op setUB
  rw [getField_setField_of_disjoint (by decide) (by decide) (by decide)]

@[simp] theorem op_setUC (c : Int) : (i.setUC c).op = i.op := by
  unfold FklIns.op setUC
  rw [getField_setField_of_disjoint (by decide) (by decide) (by decide)]

@[simp] theorem op_setSC (c : Int) : (i.setSC c).op = i.op := by
  unfold FklIns.op setSC
  rw [getField_setField_of_disjoint (by decide) (by decide) (by decide)]

@[simp] theorem uA_setUA (a : Int) : (i.setUA a).uA = toUnsigned 8 a := by
  have hlt := toUnsigned_lt 8 a
  unfold uA setUA
  rw [getField_setField (by decide) (by decide), toNat_ofNat_mod (by decide),
    Nat.mod_eq_of_lt hlt]
  exact toUnsigned_natCast hlt

@[simp] theorem sA_setUA (a : Int) : (i.setUA a).sA = toSigned 8 a := by
  unfold sA setUA
  rw [getField_setField (by decide) (by decide), toNat_ofNat_mod (by decide),
    Nat.mod_eq_of_lt (toUnsigned_lt 8 a), toSigned_toUnsigned]

@[simp] theorem uB_setUB (b : Int) : (i.setUB b).uB = toUnsigned 16 b := by
  have hlt := toUnsigned_lt 16 b
  unfold uB setUB
  rw [getField_setField (by decide) (by decide), toNat_ofNat_mod (by decide),
    Nat.mod_eq_of_lt hlt]
  exact toUnsigned_natCast hlt

@[simp] theorem sB_setUB (b : Int) : (i.setUB b).sB = toSigned 16 b := by
  unfold sB setUB
  rw [getField_setField (by decide) (by decide), toNat_ofNat_mod (by decide),
    Nat.mod_eq_of_lt (toUnsigned_lt 16 b), toSigned_toUnsigned]

@[simp] theorem uA_setUB (b : Int) : (i.setUB b).uA = i.uA := by
  unfold uA setUB
  rw [getField_setField_of_disjoint (by decide) (by decide) (by decide)]

@[simp] theorem sA_setUB (b : Int) : (i.setUB b).sA = i.sA := by
  unfold sA setUB
  rw [getField_setField_of_disjoint (by decide) (by decide) (by decide)]

@[simp] theorem uC_setUC (c : Int) : (i.setUC c).uC = toUnsigned 24 c := by
  have hcut : u32 c % 2 ^ 24 = toUnsigned 24 c := by
    have h32 : (u32 c : Int) = c % 2 ^ 32 := toUnsigned_cast 32 c
    have h24 := toUnsigned_cast 24 c
    omega
  unfold uC setUC
  rw [getField_setField (by decide) (by decide), toNat_ofNat_mod (by decide), hcut]
  exact u32_of_lt (lt_trans (toUnsigned_lt 24 c) (by decide))

/-- The stored 24 bits come back as a signed number. -/
@[simp] theorem sC_setSC (c : Int) : (i.setSC c).sC = toSigned 24 c := by
  unfold sC setSC
  rw [getField_setField (by decide) (by decide), toNat_ofNat_mod (by decide)]
  have hlt : (u32 (i32 c) + i24Offset) % 2 ^ 24 < 2 ^ 24 := Nat.mod_lt _ (by decide)
  have hcong : (((u32 (i32 c) + i24Offset) % 2 ^ 24 : Nat) : Int) = (c + 2 ^ 23) % 2 ^ 24 := by
    push_cast
    rw [toUnsigned_cast, i24Offset]
    have h : toSigned 32 c % 2 ^ 32 = c % 2 ^ 32 := by
      have := Int.bmod_emod (x := c) (m := 2 ^ 32)
      push_cast at this
      exact this
    rw [show i32 c = toSigned 32 c from rfl, h]
    omega
  have h32 : i32 ((u32 (i32 c) + i24Offset) % 2 ^ 24 : Nat) = (c + 2 ^ 23) % 2 ^ 24 := by
    rw [hcong]
    exact toSigned_of_mem (w := 31) (by omega) (by omega)
  have hoff : (i24Offset : Int) = 2 ^ 23 := rfl
  have hrange : i32 ((c + 2 ^ 23) % 2 ^ 24 - 2 ^ 23) = (c + 2 ^ 23) % 2 ^ 24 - 2 ^ 23 :=
    toSigned_of_mem (w := 31) (by omega) (by omega)
  rw [h32, hoff, hrange, toSigned, Int.bmod_def]
  push_cast
  split <;> omega

end FklIns

end FakeLisp
