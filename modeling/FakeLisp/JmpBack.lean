import FakeLisp.JmpTarget
import FakeLisp.WhileLoop

/-! The two jumps of a loop are emitted until each was made with the length of the other. The
first guess of the length is too long, and the room that it needs has to be there. -/

namespace FakeLisp

inductive JmpInsCondition where
  | uncond | ifTrue | ifFalse
  deriving DecidableEq

inductive JmpInsOrientation where
  | forward | backward
  deriving DecidableEq

def setAndAppendInsWithSignedImm (bc : List FklIns) (op : FklOpcode) (k : Int) :
    Option (List FklIns) := do
  let (l, ins) ← fklMakeIns (fun _ => 0) op ⟨k, 0, 0⟩
  if l = 0 then none else return bc ++ (List.range l).map ins

def JmpInsCondition.op : JmpInsCondition → FklOpcode
  | uncond => .jmp
  | ifTrue => .jmpIfTrue
  | ifFalse => .jmpIfFalse

def appendJmpIns (bc : List FklIns) (len : Int) (condition : JmpInsCondition) :
    JmpInsOrientation → Option (List FklIns)
  | .forward =>
    if i24Min ≤ len ∧ len ≤ i24Max then setAndAppendInsWithSignedImm bc condition.op len else none
  | .backward =>
    let len := -len - 1
    if i24Min ≤ len ∧ len ≤ i24Max then setAndAppendInsWithSignedImm bc condition.op len else none

/-- The codes, with the length that the jump back was taken to have and the one it has. -/
structure JmpBack where
  insLen : Nat
  actualLen : Nat
  cond : List FklIns
  rest : List FklIns

/-- Both jumps behind codes that were cut back to their lengths. -/
def emitJmps (cond rest : List FklIns) (insLen : Nat) : Option JmpBack := do
  let cond' ← appendJmpIns cond (rest.length + insLen : Nat) .ifTrue .forward
  let rest' ← appendJmpIns rest (rest.length + cond'.length : Nat) .uncond .backward
  return ⟨insLen, rest'.length - rest.length, cond', rest'⟩

def insertJmpIfTrueAndJmpBackBetween (fuel : Nat) (cond rest : List FklIns) :
    Option (List FklIns × List FklIns) := do
  let s ← emitJmps cond rest 3
  let s ← whileLoop (fun s : JmpBack => s.actualLen < s.insLen)
    (fun s => emitJmps (s.cond.take cond.length) (s.rest.take rest.length) s.actualLen) fuel s
  return (s.cond, s.rest)

/-! What it is for. -/

/-- Where a jump at a place of the code leads. -/
def jmpTarget (code : List FklIns) (i : Nat) : Option Int :=
  code[i]?.map fun ins => i + 1 + ins.sC

/-- One jump was put behind each code: from the condition to the end, and back to the start. -/
structure LoopLinked (cond rest : List FklIns) (out : List FklIns × List FklIns) : Prop where
  cond_eq : ∃ jmp : FklIns, out.1 = cond ++ [jmp] ∧ jmp.op = some .jmpIfTrue
  rest_eq : ∃ jmp : FklIns, out.2 = rest ++ [jmp] ∧ jmp.op = some .jmp
  leaves : jmpTarget (out.1 ++ out.2) cond.length = some ((out.1 ++ out.2).length : Int)
  returns : jmpTarget (out.1 ++ out.2) ((out.1 ++ out.2).length - 1) = some 0

/-! One jump. -/

variable {bc cond rest : List FklIns}

theorem JmpInsCondition.mode (condition : JmpInsCondition) :
    fklGetOpcodeMode condition.op = .isC := by
  cases condition <;> rfl

theorem inField_iff {len : Int} : i24Min ≤ len ∧ len ≤ i24Max ↔ InField 23 len := by
  unfold i24Min i24Max InField
  omega

theorem append_signedImm {op : FklOpcode} (hmode : fklGetOpcodeMode op = .isC) {len : Int}
    (hlen : InField 23 len) : ∃ jmp : FklIns,
      setAndAppendInsWithSignedImm bc op len = some (bc ++ [jmp]) ∧ jmp.op = some op ∧
        jmp.sC = len := by
  obtain ⟨out, hmake, hop, hsC⟩ := fklMakeIns_isC (fun _ => 0) hmode hlen
  refine ⟨out 0, ?_, hop, hsC⟩
  unfold setAndAppendInsWithSignedImm
  rw [hmake]
  rfl

theorem append_forward {len : Int} {condition : JmpInsCondition} (hlen : InField 23 len) :
    ∃ jmp : FklIns, appendJmpIns bc len condition .forward = some (bc ++ [jmp]) ∧
      jmp.op = some condition.op ∧ jmp.sC = len := by
  rw [appendJmpIns, if_pos (inField_iff.mpr hlen)]
  exact append_signedImm condition.mode hlen

theorem append_backward {len : Int} {condition : JmpInsCondition} (hlen : InField 23 (-len - 1)) :
    ∃ jmp : FklIns, appendJmpIns bc len condition .backward = some (bc ++ [jmp]) ∧
      jmp.op = some condition.op ∧ jmp.sC = -len - 1 := by
  rw [appendJmpIns, if_pos (inField_iff.mpr hlen)]
  exact append_signedImm condition.mode hlen

/-! Both jumps. -/

/-- Codes with a jump behind each. -/
structure JmpsEmitted (cond rest : List FklIns) (insLen : Nat) (s : JmpBack) : Prop where
  insLen_eq : s.insLen = insLen
  actualLen_eq : s.actualLen = 1
  cond_eq : ∃ jmp : FklIns, s.cond = cond ++ [jmp] ∧ jmp.op = some .jmpIfTrue ∧
    jmp.sC = rest.length + insLen
  rest_eq : ∃ jmp : FklIns, s.rest = rest ++ [jmp] ∧ jmp.op = some .jmp ∧
    jmp.sC = -(rest.length + cond.length + 2)

/-- The jumps fit their fields when the one back has `insLen` words. -/
def JmpsFit (cond rest : List FklIns) (insLen : Nat) : Prop :=
  rest.length + insLen < 2 ^ 23 ∧ rest.length + cond.length + 2 ≤ 2 ^ 23

theorem emitJmps_of_fit {insLen : Nat} (h : JmpsFit cond rest insLen) :
    ∃ s, emitJmps cond rest insLen = some s ∧ JmpsEmitted cond rest insLen s := by
  obtain ⟨hforward, hbackward⟩ := h
  obtain ⟨jmp, hcond, hop, hsC⟩ := @append_forward cond (rest.length + insLen : Nat) .ifTrue
    (by unfold InField; omega)
  have hlen : (cond ++ [jmp]).length = cond.length + 1 := by simp
  obtain ⟨jmpBack, hrest, hopBack, hsCBack⟩ :=
    @append_backward rest (rest.length + (cond ++ [jmp]).length : Nat) .uncond
      (by rw [hlen]; unfold InField; omega)
  refine ⟨⟨insLen, (rest ++ [jmpBack]).length - rest.length, cond ++ [jmp], rest ++ [jmpBack]⟩,
    ?_, rfl, ?_, ⟨jmp, rfl, hop, ?_⟩, ⟨jmpBack, rfl, hopBack, ?_⟩⟩
  · simp only [emitJmps, hcond, hrest, bind, Option.bind_some, pure]
  · simp
  · rw [hsC]
    push_cast
    rfl
  · rw [hsCBack, hlen]
    push_cast
    omega

theorem emitJmps_some {insLen : Nat} {s : JmpBack} (h : emitJmps cond rest insLen = some s) :
    JmpsFit cond rest insLen := by
  obtain ⟨cond', hcond, h⟩ := Option.bind_eq_some_iff.mp h
  obtain ⟨rest', hrest, -⟩ := Option.bind_eq_some_iff.mp h
  have hforward : InField 23 (rest.length + insLen : Nat) := by
    by_contra hnot
    rw [appendJmpIns, if_neg (mt inField_iff.mp hnot)] at hcond
    cases hcond
  obtain ⟨jmp, hjmp, -⟩ := @append_forward cond _ .ifTrue hforward
  obtain rfl := Option.some.inj (hcond.symm.trans hjmp)
  have hbackward : InField 23 (-(rest.length + (cond ++ [jmp]).length : Nat) - 1) := by
    by_contra hnot
    rw [appendJmpIns, if_neg (mt inField_iff.mp hnot)] at hrest
    cases hrest
  have hlen : (cond ++ [jmp]).length = cond.length + 1 := by simp
  rw [hlen] at hbackward
  unfold InField at hforward hbackward
  exact ⟨by omega, by omega⟩

theorem JmpsEmitted.take {insLen : Nat} {s : JmpBack} (h : JmpsEmitted cond rest insLen s) :
    s.cond.take cond.length = cond ∧ s.rest.take rest.length = rest := by
  obtain ⟨jmp, hcond, -⟩ := h.cond_eq
  obtain ⟨jmpBack, hrest, -⟩ := h.rest_eq
  rw [hcond, hrest]
  exact ⟨List.take_left, List.take_left⟩

/-- Jumps that were made with the right length are where they belong. -/
theorem JmpsEmitted.linked {s : JmpBack} (h : JmpsEmitted cond rest 1 s) :
    LoopLinked cond rest (s.cond, s.rest) := by
  obtain ⟨jmp, hcond, hop, hsC⟩ := h.cond_eq
  obtain ⟨jmpBack, hrest, hopBack, hsCBack⟩ := h.rest_eq
  have hlen : (s.cond ++ s.rest).length = cond.length + 1 + rest.length + 1 := by
    rw [hcond, hrest]
    simp
    omega
  have hjmp : (s.cond ++ s.rest)[cond.length]? = some jmp := by
    rw [hcond, hrest]
    simp
  have hjmpBack : (s.cond ++ s.rest)[cond.length + 1 + rest.length]? = some jmpBack := by
    have hbefore : (cond ++ [jmp] ++ rest).length = cond.length + 1 + rest.length := by
      simp
      omega
    rw [hcond, hrest, ← List.append_assoc, ← hbefore]
    exact List.getElem?_concat_length
  refine ⟨⟨jmp, hcond, hop⟩, ⟨jmpBack, hrest, hopBack⟩, ?_, ?_⟩
  · dsimp only
    rw [jmpTarget, hjmp, hlen, Option.map_some, hsC, Option.some_inj]
    push_cast
    ring
  · dsimp only
    rw [hlen, Nat.add_sub_cancel, jmpTarget, hjmpBack, Option.map_some, hsCBack, Option.some_inj]
    push_cast
    ring

/-! The loop. -/

theorem insertJmps_of_fit (h : JmpsFit cond rest 3) : ∃ n out,
    (∀ fuel, n < fuel → insertJmpIfTrueAndJmpBackBetween fuel cond rest = some out) ∧
      LoopLinked cond rest out := by
  obtain ⟨s, hs, hemitted⟩ := emitJmps_of_fit h
  obtain ⟨t, ht, hlast⟩ := @emitJmps_of_fit cond rest 1 ⟨by have := h.1; omega, h.2⟩
  have hloop : LoopsTo (fun s : JmpBack => s.actualLen < s.insLen)
      (fun s => emitJmps (s.cond.take cond.length) (s.rest.take rest.length) s.actualLen)
      1 s t := by
    refine LoopsTo.step (LoopsTo.done ?_) ?_ ?_
    · rw [hlast.actualLen_eq, hlast.insLen_eq]
      rfl
    · rw [hemitted.actualLen_eq, hemitted.insLen_eq]
      rfl
    · rw [hemitted.take.1, hemitted.take.2, hemitted.actualLen_eq]
      exact ht
  refine ⟨1, (t.cond, t.rest), fun fuel hfuel => ?_, hlast.linked⟩
  simp only [insertJmpIfTrueAndJmpBackBetween, hs, hloop fuel hfuel, bind, Option.bind_some, pure]

theorem insertJmps_some {fuel : Nat} {out : List FklIns × List FklIns}
    (h : insertJmpIfTrueAndJmpBackBetween fuel cond rest = some out) : JmpsFit cond rest 3 := by
  unfold insertJmpIfTrueAndJmpBackBetween at h
  obtain ⟨s, hs, -⟩ := Option.bind_eq_some_iff.mp h
  exact emitJmps_some hs

/-- The loop is linked exactly when its words are at most 2 ^ 23 and the way over the body and
the three words of the first guess is in range. -/
theorem insertJmps_linked_iff : (∃ n out,
    (∀ fuel, n < fuel → insertJmpIfTrueAndJmpBackBetween fuel cond rest = some out) ∧
      LoopLinked cond rest out) ↔
    (cond.length + rest.length + 2 : Int) ≤ 2 ^ 23 ∧ (rest.length + 3 : Int) ≤ i24Max := by
  have hfit : JmpsFit cond rest 3 ↔
      (cond.length + rest.length + 2 : Int) ≤ 2 ^ 23 ∧ (rest.length + 3 : Int) ≤ i24Max := by
    unfold JmpsFit i24Max
    omega
  rw [← hfit]
  refine ⟨?_, insertJmps_of_fit⟩
  rintro ⟨n, out, hrun, -⟩
  exact insertJmps_some (hrun (n + 1) n.lt_succ_self)

/-- A loop of 2 ^ 23 words: its jumps, over 2 ^ 23 - 2 words and back over 2 ^ 23, would fit. -/
theorem longBody_asserts : ¬ ∃ fuel out, insertJmpIfTrueAndJmpBackBetween fuel
    [makeInsI .pushNil] (List.replicate (2 ^ 23 - 3) (makeInsI .drop)) = some out := by
  rintro ⟨fuel, out, h⟩
  have hfit := (insertJmps_some h).1
  rw [List.length_replicate] at hfit
  omega

end FakeLisp
