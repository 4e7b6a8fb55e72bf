import FakeLisp.Bytecode
import FakeLisp.Overflow

/-! Decoding undoes encoding, up to the widening of an operand that does not fit. -/

namespace FakeLisp

/-- The operands that the fields of a mode can hold. -/
def InRange (mode : FklOpcodeMode) (a : FklInsArg) : Prop :=
  match mode with
  | .i => True
  | .isA => InField 7 a.ix
  | .isB => InField 15 a.ix
  | .isC => InField 23 a.ix
  | .isBB => InField 31 a.ix
  | .isCCB => InField 63 a.ix
  | .iuB => a.ux < 2 ^ 16
  | .iuC => a.ux < 2 ^ 24
  | .iuBB => a.ux < 2 ^ 32
  | .iuCCB => a.ux < 2 ^ 64
  | .isAuB => InField 7 a.ix ∧ a.uy < 2 ^ 16
  | .iuAuB | .ixAxB => a.ux < 2 ^ 8 ∧ a.uy < 2 ^ 16
  | .iuCuC => a.ux < 2 ^ 24 ∧ a.uy < 2 ^ 24
  | .iuCAuBB => a.ux < 2 ^ 32 ∧ a.uy < 2 ^ 32

/-- `b` with the fields that the mode uses taken from `a`. -/
def withOperand (mode : FklOpcodeMode) (a b : FklInsArg) : FklInsArg :=
  match mode with
  | .i => b
  | .isA | .isB | .isC | .isBB | .isCCB => { b with ix := a.ix }
  | .iuB | .iuC | .iuBB | .iuCCB => { b with ux := a.ux }
  | .isAuB => { b with ix := a.ix, uy := a.uy }
  | .iuAuB | .iuCuC | .iuCAuBB | .ixAxB => { b with ux := a.ux, uy := a.uy }

/-! Operands over several instructions. -/

/-- Two pieces of a number, the upper one shifted into place. -/
theorem or_shiftLeft_eq {x s : Nat} (hx : x < 2 ^ s) (y : Nat) : x ||| y <<< s = x + y * 2 ^ s := by
  rw [Nat.shiftLeft_eq, Nat.or_comm, mul_comm, ← Nat.two_pow_add_eq_or_of_lt hx, add_comm]

theorem uB_lt (i : FklIns) : i.uB < 2 ^ 16 := toUnsigned_lt 16 _

theorem uA_lt (i : FklIns) : i.uA < 2 ^ 8 := toUnsigned_lt 8 _

theorem uC_lt (i : FklIns) : i.uC < 2 ^ 24 := by
  have h := getField_lt (i := i) (p := 8) (s := 24) (by decide)
  unfold FklIns.uC
  rwa [u32_of_lt (by omega)]

theorem insUX_eq (i0 i1 : FklIns) : insUX i0 i1 = i0.uB + i1.uB * 2 ^ 16 := by
  have h0 := uB_lt i0
  have h1 := uB_lt i1
  unfold insUX
  rw [u32_of_lt (by rw [Nat.shiftLeft_eq]; omega), or_shiftLeft_eq h0]

theorem insUXX_eq (i0 i1 i2 : FklIns) :
    insUXX i0 i1 i2 = i0.uC + i1.uC * 2 ^ 24 + i2.uB * 2 ^ 48 := by
  have h0 := uC_lt i0
  have h1 := uC_lt i1
  have h2 := uB_lt i2
  unfold insUXX
  rw [u64_of_lt (by rw [Nat.shiftLeft_eq]; omega), or_shiftLeft_eq h0,
    u64_of_lt (by rw [Nat.shiftLeft_eq]; omega), or_shiftLeft_eq (by omega)]

section

variable (ins : Code)

@[simp] theorem setInsUx_op (k : Nat) : (setInsUx ins k 0).op = (ins 0).op := by
  simp [setInsUx]

@[simp] theorem setInsUxx_op (k : Nat) : (setInsUxx ins k 0).op = (ins 0).op := by
  simp [setInsUxx]

@[simp] theorem setIns2Uxx_op (ux uy : Nat) : (setIns2Uxx ins ux uy 0).op = (ins 0).op := by
  simp [setIns2Uxx]

theorem insUX_setInsUx {k : Nat} (hk : k < 2 ^ 32) :
    insUX (setInsUx ins k 0) (setInsUx ins k 1) = k := by
  rw [insUX_eq]
  simp only [setInsUx, makeExtraUB, Function.update_self, ne_eq, zero_ne_one, not_false_eq_true,
    Function.update_of_ne, FklIns.uB_setUB, Nat.shiftRight_eq_div_pow]
  rw [toUnsigned_natCast (Nat.mod_lt _ (by decide)), toUnsigned_natCast (Nat.mod_lt _ (by decide))]
  omega

theorem insUXX_setInsUxx {k : Nat} (hk : k < 2 ^ 64) :
    insUXX (setInsUxx ins k 0) (setInsUxx ins k 1) (setInsUxx ins k 2) = k := by
  have h24 : ∀ x : Nat, toUnsigned 24 (x % 2 ^ 24 : Nat) = x % 2 ^ 24 := fun x =>
    toUnsigned_natCast (Nat.mod_lt _ (by decide))
  rw [insUXX_eq]
  simp only [setInsUxx, makeExtraUC, makeExtraUB, Function.update_self, ne_eq, zero_ne_one,
    OfNat.zero_ne_ofNat, OfNat.one_ne_ofNat, not_false_eq_true, Function.update_of_ne,
    FklIns.uB_setUB, FklIns.uC_setUC, Nat.shiftRight_eq_div_pow, h24]
  rw [toUnsigned_natCast (Nat.mod_lt _ (by decide))]
  omega

theorem setIns2Uxx_read {ux uy : Nat} (hux : ux < 2 ^ 32) (huy : uy < 2 ^ 32) :
    let out := setIns2Uxx ins ux uy
    (out 0).uC ||| u32 ((out 1).uA <<< 24 : Nat) = ux ∧
      (out 1).uB ||| u64 ((out 2).uB <<< 16 : Nat) = uy := by
  intro out
  have hC : (out 0).uC = ux % 2 ^ 24 := by
    simp only [out, setIns2Uxx, ne_eq, OfNat.zero_ne_ofNat, zero_ne_one, not_false_eq_true,
      Function.update_of_ne, Function.update_self, FklIns.uC_setUC]
    exact toUnsigned_natCast (Nat.mod_lt _ (by decide))
  have hA : (out 1).uA = ux / 2 ^ 24 := by
    simp only [out, setIns2Uxx, makeExtraUA, ne_eq, OfNat.one_ne_ofNat, not_false_eq_true,
      Function.update_of_ne, Function.update_self, FklIns.uA_setUB, FklIns.uA_setUA,
      Nat.shiftRight_eq_div_pow]
    rw [toUnsigned_natCast (by omega)]
    omega
  have hB : (out 1).uB = uy % 2 ^ 16 := by
    simp only [out, setIns2Uxx, ne_eq, OfNat.one_ne_ofNat, not_false_eq_true,
      Function.update_of_ne, Function.update_self, FklIns.uB_setUB]
    exact toUnsigned_natCast (by omega)
  have hB' : (out 2).uB = uy / 2 ^ 16 := by
    simp only [out, setIns2Uxx, makeExtraUB, Function.update_self, FklIns.uB_setUB,
      Nat.shiftRight_eq_div_pow]
    rw [toUnsigned_natCast (by omega)]
    omega
  rw [hC, hA, hB, hB', u32_of_lt (by rw [Nat.shiftLeft_eq]; omega),
    u64_of_lt (by rw [Nat.shiftLeft_eq]; omega), or_shiftLeft_eq (by omega),
    or_shiftLeft_eq (by omega)]
  constructor <;> omega

end

/-- Encoding an operand in range and decoding it. -/
theorem decode_emitIns (ins : Code) {op : FklOpcode} {a : FklInsArg}
    (hop : fklGetOpcodeMode op ≠ .ixAxB) (ha : InRange (fklGetOpcodeMode op) a) :
    ∃ out, emitIns ins op a = some out ∧ (out 0).op = some op ∧ ∀ b,
      getInsOpWithOp op out b =
        (fklGetOpcodeModeLen op, withOperand (fklGetOpcodeMode op) a b) := by
  unfold emitIns getInsOpWithOp fklGetOpcodeModeLen
  cases hm : fklGetOpcodeMode op with
  | i => exact ⟨_, rfl, by simp, fun b => rfl⟩
  | isA =>
    rw [hm] at ha
    have hix : toSigned 8 a.ix = a.ix := toSigned_of_inField ha
    exact ⟨_, rfl, by simp [FklIns.setSA], fun b => by simp [withOperand, FklIns.setSA, hix]⟩
  | isB =>
    rw [hm] at ha
    have hix : toSigned 16 a.ix = a.ix := toSigned_of_inField ha
    exact ⟨_, rfl, by simp [FklIns.setSB], fun b => by simp [withOperand, FklIns.setSB, hix]⟩
  | isC =>
    rw [hm] at ha
    have hix : toSigned 24 a.ix = a.ix := toSigned_of_inField ha
    exact ⟨_, rfl, by simp, fun b => by simp [withOperand, hix]⟩
  | isBB =>
    rw [hm] at ha
    have hix : toSigned 32 a.ix = a.ix := toSigned_of_inField ha
    refine ⟨_, rfl, by simp, fun b => ?_⟩
    simp [withOperand, insSX, insUX_setInsUx _ (toUnsigned_lt 32 a.ix), FklIns.toSigned_toUnsigned,
      hix]
  | isCCB =>
    rw [hm] at ha
    have hix : toSigned 64 a.ix = a.ix := toSigned_of_inField ha
    refine ⟨_, rfl, by simp, fun b => ?_⟩
    simp [withOperand, insSXX, insUXX_setInsUxx _ (toUnsigned_lt 64 a.ix),
      FklIns.toSigned_toUnsigned, hix]
  | iuB =>
    rw [hm] at ha
    have hux : toUnsigned 16 a.ux = a.ux := toUnsigned_natCast ha
    exact ⟨_, rfl, by simp, fun b => by simp [withOperand, hux]⟩
  | iuC =>
    rw [hm] at ha
    have hux : toUnsigned 24 a.ux = a.ux := toUnsigned_natCast ha
    exact ⟨_, rfl, by simp, fun b => by simp [withOperand, hux]⟩
  | iuBB =>
    rw [hm] at ha
    refine ⟨_, rfl, by simp, fun b => ?_⟩
    simp [withOperand, u32_of_lt ha, insUX_setInsUx _ ha]
  | iuCCB =>
    rw [hm] at ha
    refine ⟨_, rfl, by simp, fun b => ?_⟩
    simp [withOperand, insUXX_setInsUxx _ ha]
  | isAuB =>
    rw [hm] at ha
    have hix : toSigned 8 a.ix = a.ix := toSigned_of_inField ha.1
    have huy : toUnsigned 16 a.uy = a.uy := toUnsigned_natCast ha.2
    refine ⟨_, rfl, by simp [FklIns.setSA], fun b => ?_⟩
    simp [withOperand, FklIns.setSA, hix, huy]
  | iuAuB =>
    rw [hm] at ha
    have hux : toUnsigned 8 a.ux = a.ux := toUnsigned_natCast ha.1
    have huy : toUnsigned 16 a.uy = a.uy := toUnsigned_natCast ha.2
    exact ⟨_, rfl, by simp, fun b => by simp [withOperand, hux, huy]⟩
  | iuCuC =>
    rw [hm] at ha
    have hux : toUnsigned 24 a.ux = a.ux := toUnsigned_natCast ha.1
    have huy : toUnsigned 24 a.uy = a.uy := toUnsigned_natCast ha.2
    exact ⟨_, rfl, by simp, fun b => by simp [withOperand, hux, huy]⟩
  | iuCAuBB =>
    rw [hm] at ha
    refine ⟨_, rfl, by simp, fun b => ?_⟩
    obtain ⟨hux, huy⟩ := setIns2Uxx_read (Function.update ins 0 ((ins 0).setOp op)) ha.1 ha.2
    simp only [withOperand, hux, huy]
  | ixAxB => exact absurd hm hop

theorem sA_inField (i : FklIns) : InField 7 i.sA := by
  unfold FklIns.sA
  exact inField_toSigned 7 _

theorem sB_inField (i : FklIns) : InField 15 i.sB := by
  unfold FklIns.sB
  exact inField_toSigned 15 _

theorem sC_inField (i : FklIns) : InField 23 i.sC := by
  have h := getField_lt (i := i) (p := 8) (s := 24) (by decide)
  have hoff : (i24Offset : Int) = 2 ^ 23 := rfl
  have hget : i32 (getField i 8 24).toNat = (getField i 8 24).toNat :=
    toSigned_of_mem (w := 31) (by omega) (by omega)
  have hsub : i32 ((getField i 8 24).toNat - 2 ^ 23) = (getField i 8 24).toNat - 2 ^ 23 :=
    toSigned_of_mem (w := 31) (by omega) (by omega)
  unfold FklIns.sC
  rw [hget, hoff, hsub]
  constructor <;> omega

theorem insSX_inField (i0 i1 : FklIns) : InField 31 (insSX i0 i1) := by
  unfold insSX
  exact inField_toSigned 31 _

theorem insSXX_inField (i0 i1 i2 : FklIns) : InField 63 (insSXX i0 i1 i2) := by
  unfold insSXX
  exact inField_toSigned 63 _

/-- What decoding returns is in the range of the mode. -/
theorem inRange_getInsOpWithOp (op : FklOpcode) (ins : Code) (b : FklInsArg) :
    InRange (fklGetOpcodeMode op) (getInsOpWithOp op ins b).2 := by
  have hB0 := uB_lt (ins 0)
  have hB1 := uB_lt (ins 1)
  have hB2 := uB_lt (ins 2)
  have hC0 := uC_lt (ins 0)
  have hC1 := uC_lt (ins 1)
  have hA1 := uA_lt (ins 1)
  unfold getInsOpWithOp
  cases fklGetOpcodeMode op with
  | i => trivial
  | isA =>
    simp only [InRange]
    exact sA_inField (ins 0)
  | isB =>
    simp only [InRange]
    exact sB_inField (ins 0)
  | isC =>
    simp only [InRange]
    exact sC_inField (ins 0)
  | isBB =>
    simp only [InRange]
    exact insSX_inField (ins 0) (ins 1)
  | isCCB =>
    simp only [InRange]
    exact insSXX_inField (ins 0) (ins 1) (ins 2)
  | iuB => exact hB0
  | iuC => exact hC0
  | iuBB =>
    simp only [InRange, insUX_eq]
    omega
  | iuCCB =>
    simp only [InRange, insUXX_eq]
    omega
  | isAuB =>
    simp only [InRange]
    exact ⟨sA_inField (ins 0), hB0⟩
  | iuAuB => exact ⟨uA_lt _, hB0⟩
  | iuCuC => exact ⟨hC0, hC1⟩
  | iuCAuBB =>
    simp only [InRange]
    rw [u32_of_lt (by rw [Nat.shiftLeft_eq]; omega), u64_of_lt (by rw [Nat.shiftLeft_eq]; omega),
      or_shiftLeft_eq hC0, or_shiftLeft_eq hB1]
    omega
  | ixAxB => exact ⟨uA_lt _, hB0⟩

/-! The chain of opcodes. -/

/-- The opcodes that an operand of `op` may be widened to. -/
abbrev Widens : FklOpcode → FklOpcode → Prop :=
  Relation.ReflTransGen fun op next => next = fklGetOpcodeNext op

/-- An upper bound of the chain's length. -/
def chainRank : FklOpcode → Nat
  | .dummy => 0
  | .pushI8 => 3
  | .pushI16 => 2
  | _ => 1

theorem chainRank_next {op : FklOpcode} (h : op ≠ .dummy) :
    chainRank (fklGetOpcodeNext op) < chainRank op := by
  cases op <;> first | exact absurd rfl h | decide

/-- The modes of the opcodes in the table. -/
theorem fklGetOpcodeMode_mem {op : FklOpcode} (h : op ≠ .extraArg) :
    fklGetOpcodeMode op ∈ [.i, .isA, .isB, .isC, .iuB, .iuC, .isAuB, .iuAuB] := by
  cases op <;> first | exact absurd rfl h | decide

theorem next_ne_extraArg (op : FklOpcode) : fklGetOpcodeNext op ≠ .extraArg := by
  cases op <;> decide

/-- Widening keeps the fields. -/
theorem next_fields {op : FklOpcode} (h : fklGetOpcodeNext op ≠ .dummy) :
    withOperand (fklGetOpcodeMode (fklGetOpcodeNext op)) = withOperand (fklGetOpcodeMode op) := by
  cases op <;> first | exact absurd rfl h | rfl

theorem Widens.ne_extraArg {op op' : FklOpcode} (h : Widens op op') (hop : op ≠ .extraArg) :
    op' ≠ .extraArg := by
  induction h with
  | refl => exact hop
  | tail _ hnext _ => exact hnext ▸ next_ne_extraArg _

theorem Widens.fields {op op' : FklOpcode} (h : Widens op op') (hop : op' ≠ .dummy) :
    withOperand (fklGetOpcodeMode op') = withOperand (fklGetOpcodeMode op) := by
  induction h with
  | refl => rfl
  | @tail mid _ _ hnext ih =>
    subst hnext
    have hmid : mid ≠ .dummy := by
      rintro rfl
      exact hop rfl
    exact (next_fields hop).trans (ih hmid)

/-- The operands of the chains that end in a signed field of 24 bits and that the range check
lets through although they are too large. -/
def TooLong (mode : FklOpcodeMode) (a : FklInsArg) : Prop :=
  mode = .isC ∧ 2 ^ 23 ≤ a.ix ∧ a.ix ≤ u24Max

theorem argFits_spec {mode : FklOpcodeMode} (a : FklInsArg)
    (h : mode ∈ [.i, .isA, .isB, .isC, .iuB, .iuC, .isAuB, .iuAuB]) :
    ∃ fits, argFits mode a = some fits ∧ (fits = true ↔ InRange mode a ∨ TooLong mode a) := by
  have hmax : u24Max = 16777215 := rfl
  have hmin : i24Min = -8388608 := rfl
  fin_cases h
  all_goals
    refine ⟨_, rfl, ?_⟩
    simp only [decide_eq_true_eq, InRange, TooLong, InField, reduceCtorEq, false_and, or_false,
      true_and]
  all_goals omega

/-- The search returns the first opcode of the chain that takes the operand. -/
theorem findOpcode_spec {n : Nat} {op : FklOpcode} (a : FklInsArg) (hop : op ≠ .extraArg)
    (hfuel : chainRank op < n) :
    ∃ found, findOpcode n op a = some found ∧
      (found ≠ .dummy → Widens op found ∧ argFits (fklGetOpcodeMode found) a = some true) ∧
      (found = .dummy → ∀ op', Widens op op' → op' ≠ .dummy →
        argFits (fklGetOpcodeMode op') a = some false) := by
  induction n generalizing op with
  | zero => omega
  | succ n ih =>
    unfold findOpcode
    by_cases hd : op = .dummy
    · subst hd
      refine ⟨.dummy, if_pos rfl, fun h => absurd rfl h, fun _ op' hw hne => ?_⟩
      exfalso
      induction hw with
      | refl => exact hne rfl
      | @tail mid _ _ hnext ih' =>
        subst hnext
        by_cases hmid : mid = .dummy
        · rw [hmid] at hne
          exact hne rfl
        · exact ih' hmid
    · rw [if_neg hd]
      obtain ⟨fits, hfits, _⟩ := argFits_spec a (fklGetOpcodeMode_mem hop)
      rw [hfits]
      cases fits with
      | true => exact ⟨op, rfl, fun _ => ⟨.refl, hfits⟩, fun h => absurd h hd⟩
      | false =>
        obtain ⟨found, hrun, hsome, hnone⟩ := ih (next_ne_extraArg op)
          (by have := chainRank_next hd; omega)
        refine ⟨found, hrun, fun hne => ?_, fun he op' hw hne => ?_⟩
        · exact ⟨.head rfl (hsome hne).1, (hsome hne).2⟩
        · rcases Relation.ReflTransGen.cases_head hw with rfl | ⟨next, rfl, hrest⟩
          · exact hfits
          · exact hnone he op' hrest hne

/-! The theorem. -/

/-- `out` begins with an instruction of opcode `op` and length `n` from which the fields of
`mode` read as those of `arg`. -/
structure Encodes (out : Code) (n : Nat) (op : FklOpcode) (mode : FklOpcodeMode)
    (arg : FklInsArg) : Prop where
  op_eq : (out 0).op = some op
  operand : ∀ b, fklGetInsOpArg out b = some (n, withOperand mode arg b)

/-- What `fklMakeIns` is for: to write an instruction of `op`, or of an opcode it widens to,
that reads back, unless there is none. -/
def MakeInsRight (ins : Code) (op : FklOpcode) (arg : FklInsArg) : Prop :=
  match fklMakeIns ins op arg with
  | none => False
  | some (0, _) => ∀ op', Widens op op' → op' ≠ .dummy →
      ¬∃ out n, Encodes out n op' (fklGetOpcodeMode op) arg
  | some (n, out) => ∃ op', Widens op op' ∧ Encodes out n op' (fklGetOpcodeMode op) arg

theorem Encodes.inRange {out : Code} {n : Nat} {op : FklOpcode} {mode : FklOpcodeMode}
    {arg : FklInsArg} (h : Encodes out n op mode arg) (b : FklInsArg) :
    InRange (fklGetOpcodeMode op) (withOperand mode arg b) := by
  have hb := h.operand b
  unfold fklGetInsOpArg at hb
  rw [h.op_eq] at hb
  have hpair : getInsOpWithOp op out b = (n, withOperand mode arg b) := Option.some.inj hb
  have hr := inRange_getInsOpWithOp op out b
  rwa [hpair] at hr

theorem readArg_spec {mode : FklOpcodeMode} (arg : FklInsArg)
    (h : mode ∈ [.i, .isA, .isB, .isC, .iuB, .iuC, .isAuB, .iuAuB]) :
    ∃ a, readArg mode arg = some a ∧ ∀ b, withOperand mode a b = withOperand mode arg b := by
  fin_cases h
  all_goals exact ⟨_, rfl, fun _ => rfl⟩

/-- A mode's range only looks at the fields the mode uses. -/
theorem inRange_withOperand (mode : FklOpcodeMode) (a b : FklInsArg) :
    InRange mode (withOperand mode a b) ↔ InRange mode a := by
  cases mode <;> exact Iff.rfl

theorem fklGetOpcodeModeLen_pos (op : FklOpcode) : ∃ k, fklGetOpcodeModeLen op = k + 1 := by
  unfold fklGetOpcodeModeLen
  cases fklGetOpcodeMode op <;> exact ⟨_, rfl⟩

/-- Every other mode with the fields of a signed operand of 24 bits is narrower. -/
theorem ix_lt_of_inRange {mode : FklOpcodeMode} {a : FklInsArg}
    (h : mode ∈ [.i, .isA, .isB, .isC, .iuB, .iuC, .isAuB, .iuAuB])
    (hf : withOperand mode = withOperand .isC) (ha : InRange mode a) : a.ix < 2 ^ 23 := by
  have hsample := congrFun (congrFun hf ⟨1, 1, 1⟩) ⟨0, 0, 0⟩
  fin_cases h
  case «1» | «2» | «3» =>
    have := ha.2
    omega
  all_goals exact absurd hsample (by decide)

/-- Encoding is right but for operands of 24 bits that are meant as signed. -/
theorem fklMakeIns_right_iff (ins : Code) {op : FklOpcode} (arg : FklInsArg)
    (hd : op ≠ .dummy) (hx : op ≠ .extraArg) :
    MakeInsRight ins op arg ↔
      ¬((∃ op', Widens op op' ∧ fklGetOpcodeMode op' = .isC) ∧
        2 ^ 23 ≤ arg.ix ∧ arg.ix ≤ u24Max) := by
  obtain ⟨a, hread, hfields⟩ := readArg_spec arg (fklGetOpcodeMode_mem hx)
  obtain ⟨found, hfind, hsome, hnone⟩ := findOpcode_spec (n := 67) a hx
    (by cases op <;> decide)
  have hread' : ∀ op', Widens op op' → op' ≠ .dummy → ∀ b,
      withOperand (fklGetOpcodeMode op') a b = withOperand (fklGetOpcodeMode op) arg b := by
    intro op' hw hne b
    rw [hw.fields hne]
    exact hfields b
  have hix : ∀ op', Widens op op' → fklGetOpcodeMode op' = .isC → a.ix = arg.ix := by
    intro op' hw hm
    have hne : op' ≠ .dummy := by
      rintro rfl
      cases hm
    have hb := hread' op' hw hne a
    rw [← hw.fields hne, hm] at hb
    have h := congrArg FklInsArg.ix hb
    exact h
  have hmake : fklMakeIns ins op arg = if found = .dummy then some (0, ins)
      else (emitIns ins found a).bind fun out => some (fklGetOpcodeModeLen found, out) := by
    unfold fklMakeIns
    rw [if_neg hd]
    exact bind_eq_of_eq hread (bind_eq_of_eq hfind rfl)
  unfold MakeInsRight
  by_cases hfd : found = .dummy
  · rw [hmake, if_pos hfd]
    refine iff_of_true (fun op' hw hne ⟨out, n, henc⟩ => ?_) ?_
    · obtain ⟨fits, hfits, hiff⟩ := argFits_spec a (fklGetOpcodeMode_mem (hw.ne_extraArg hx))
      have hfalse := hnone hfd op' hw hne
      have hr := henc.inRange a
      rw [← hread' op' hw hne, inRange_withOperand] at hr
      rw [hfits, hiff.mpr (Or.inl hr)] at hfalse
      cases hfalse
    · rintro ⟨⟨op', hw, hm⟩, hlo, hhi⟩
      obtain ⟨fits, hfits, hiff⟩ := argFits_spec a (fklGetOpcodeMode_mem (hw.ne_extraArg hx))
      have hfalse := hnone hfd op' hw (by rintro rfl; cases hm)
      rw [← hix op' hw hm] at hlo hhi
      rw [hfits, hiff.mpr (Or.inr ⟨hm, hlo, hhi⟩)] at hfalse
      cases hfalse
  · obtain ⟨hw, hfit⟩ := hsome hfd
    have hmem := fklGetOpcodeMode_mem (hw.ne_extraArg hx)
    obtain ⟨fits, hfits, hiff⟩ := argFits_spec a hmem
    have htrue : fits = true := Option.some.inj (hfits.symm.trans hfit)
    obtain ⟨k, hlen⟩ := fklGetOpcodeModeLen_pos found
    rw [hmake, if_neg hfd]
    rcases hiff.mp htrue with hin | ⟨hm, hlo, hhi⟩
    · obtain ⟨out, hemit, hop, hdec⟩ := decode_emitIns ins
        (fun hm => by rw [hm] at hmem; exact absurd hmem (by decide)) hin
      rw [hemit, Option.bind_some, hlen]
      refine iff_of_true ⟨found, hw, hop, fun b => ?_⟩ ?_
      · unfold fklGetInsOpArg
        rw [hop, ← hread' found hw hfd, ← hlen]
        exact congrArg some (hdec b)
      · rintro ⟨⟨op', hw', hm⟩, hlo, hhi⟩
        have hne : op' ≠ .dummy := by
          rintro rfl
          cases hm
        have hf : withOperand (fklGetOpcodeMode found) = withOperand .isC := by
          rw [hw.fields hfd, ← hw'.fields hne, hm]
        have hlt := ix_lt_of_inRange hmem hf hin
        rw [hix op' hw' hm] at hlt
        omega
    · refine iff_of_false ?_ (not_not.mpr ⟨⟨found, hw, hm⟩, hix found hw hm ▸ ⟨hlo, hhi⟩⟩)
      have hemit : ∃ out, emitIns ins found a = some out ∧ (out 0).op = some found := by
        unfold emitIns
        rw [hm]
        exact ⟨_, rfl, by simp⟩
      obtain ⟨out, hemit, hop⟩ := hemit
      rw [hemit, Option.bind_some, hlen]
      rintro ⟨op', hw', henc⟩
      obtain rfl : found = op' := Option.some.inj (hop.symm.trans henc.op_eq)
      have hr := henc.inRange a
      rw [← hread' found hw hfd, inRange_withOperand, hm] at hr
      exact absurd hr.2 (not_lt.mpr hlo)

theorem fklMakeIns_pushI8_wide :
    MakeInsRight (fun _ => 0) .pushI8 ⟨70000, 0, 0⟩ ↔
      ¬((∃ op', Widens .pushI8 op' ∧ fklGetOpcodeMode op' = .isC) ∧
        (2 : Int) ^ 23 ≤ 70000 ∧ 70000 ≤ u24Max) :=
  fklMakeIns_right_iff _ _ (by decide) (by decide)

/-- A jump over `2²³` instructions reads back as one in the other direction. -/
theorem fklMakeIns_jmp_wrong :
    (fklMakeIns (fun _ => 0) .jmp ⟨2 ^ 23, 0, 0⟩).bind
        (fun out => fklGetInsOpArg out.2 ⟨0, 0, 0⟩) = some (1, ⟨-2 ^ 23, 0, 0⟩) ∧
      ¬MakeInsRight (fun _ => 0) .jmp ⟨2 ^ 23, 0, 0⟩ := by
  refine ⟨by decide, ?_⟩
  have hmake : ∃ out, fklMakeIns (fun _ => 0) .jmp ⟨2 ^ 23, 0, 0⟩ = some (1, out) ∧
      fklGetInsOpArg out ⟨0, 0, 0⟩ = some (1, ⟨-2 ^ 23, 0, 0⟩) := ⟨_, rfl, by decide⟩
  obtain ⟨out, hmake, hread⟩ := hmake
  unfold MakeInsRight
  rw [hmake]
  rintro ⟨op', _, henc⟩
  have h := henc.operand ⟨0, 0, 0⟩
  rw [hread] at h
  exact absurd h (by decide)

end FakeLisp
