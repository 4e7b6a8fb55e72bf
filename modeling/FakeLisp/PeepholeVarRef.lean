import FakeLisp.PeepholeLocal

/-! The rules on closure variables, which compare an index of 24 bits by its upper 16. -/

namespace FakeLisp

theorem FklIns.uC_eq (i : FklIns) : i.uC = (getField i 8 24).toNat :=
  u32_of_lt (lt_trans (getField_lt (by decide)) (by decide))

theorem FklIns.uB_eq_div (i : FklIns) : i.uB = i.uC / 256 := by
  have hB : i.uB = (getField i 16 16).toNat := toUnsigned_natCast (getField_lt (by decide))
  rw [hB, i.uC_eq, toNat_getField (by decide), toNat_getField (by decide)]
  omega

/-! Variables in two boxes that hold different values. -/

/-- The variable `idx` is in one box, all others are in another. -/
def apartFrame (idx : Nat) : VMframe Rat where
  konsts _ := .null
  konsts_ne_nil _ := by simp
  ref k := some (.box (if k = idx then 1 else 0))
  sid _ := .null

def apartState : VMstate Rat := ⟨[], fun c => if c = .box 1 then .fix 1 else .nil⟩

theorem getVarRef_apart (idx k : Nat) (s : VMstate Rat)
    (h : ∀ a, (s.cell (.box a)).isNull = false) :
    getVarRef (apartFrame idx) s k = .ok (.box (if k = idx then 1 else 0)) := by
  simp [getVarRef, apartFrame, h]

theorem isNull_apartState (a : Nat) : (apartState.cell (.box a)).isNull = false := by
  simp only [apartState]
  split <;> rfl

theorem fix_one_ne_nil : (VMword.fix 1 : VMword Rat) ≠ .nil := by simp [VMword.fix]

section

variable {D : Type} [Binary64 D] {f : VMframe D} {s : VMstate D} {i : FklIns}

theorem execIns_getVarRef (h : i.op = some .getVarRef) :
    execIns f i s = (getVarVal f s i.uC).map s.push := by
  simp only [execIns, h]
  cases getVarVal f s i.uC <;> rfl

theorem execIns_putVarRef (h : i.op = some .putVarRef) :
    execIns f i s = (getVarRef f s i.uC).bind fun c => s.top.map fun w => s.set c w := by
  simp only [execIns, h]
  cases getVarRef f s i.uC with
  | error e => rfl
  | ok c => cases s.top <;> rfl

theorem execAll_cons (is : List FklIns) :
    execAll f (i :: is) s = (execIns f i s).bind (execAll f is) := rfl

end

/-! The move. -/

/-- A read of a variable past the first 256 and a write that the rule takes for a move. -/
def ReadsFarIndex (p : List FklInsLn) : Prop :=
  ∃ i0 i1 rest, p = i0 :: i1 :: rest ∧ i0.ins.op = some .getVarRef ∧ 256 ≤ i0.ins.uC ∧
    i0.ins.uC < 65536 ∧ i1.ins.op = some .putVarRef ∧ i1.ins.uC ≤ 65535 ∧ isInOneBlock p 2 ≠ none

/-- What the move does instead: it takes the index modulo 256. -/
theorem movVarRef_exec {D : Type} [Binary64 D] (f : VMframe D) (s : VMstate D) {i0 i1 : FklIns}
    (hb : isInU16Range i1.uC = true) :
    execIns f (((i0.setOp .movVarRef).setUA i0.uC).setUB i1.uC) s =
      (getVarVal f s (i0.uC % 256)).bind fun w =>
        (getVarRef f s i1.uC).map fun c => (s.push w).set c w := by
  have hA : toUnsigned 8 (i0.uC : Int) = i0.uC % 256 := by
    have := toUnsigned_cast 8 i0.uC
    omega
  rw [execIns_movVarRef (by simp)]
  simp only [FklIns.uB_setUB, FklIns.uA_setUB, FklIns.uA_setUA, hA, toUnsigned_of_isInU16Range hb,
    getVarRef_push]

theorem getPut_exec {D : Type} [Binary64 D] (f : VMframe D) (s : VMstate D) {i0 i1 : FklIns}
    (h0 : i0.op = some .getVarRef) (h1 : i1.op = some .putVarRef) :
    execAll f [i0, i1] s = (getVarVal f s i0.uC).bind fun w =>
      (getVarRef f s i1.uC).map fun c => (s.push w).set c w := by
  rw [execAll_cons, execIns_getVarRef h0]
  cases getVarVal f s i0.uC with
  | error e => rfl
  | ok w =>
    change execAll f [i1] (s.push w) = _
    rw [execAll_one, execIns_putVarRef h1, getVarRef_push]
    rfl

theorem movVarRef_sound_iff (p : List FklInsLn) : movVarRef.Sound p ↔ ¬ReadsFarIndex p := by
  rcases p with _ | ⟨i0, _ | ⟨i1, rest⟩⟩
  case cons.cons =>
    constructor
    · rintro ⟨n, hn, hsound⟩ ⟨_, _, _, ⟨⟩, h0, hlo, hhi, h1, hb, hblock⟩
      have hU16 : isInU16Range i1.ins.uC = true := by simpa [isInU16Range] using hb
      have hB : i0.ins.uB ≤ 255 := by
        rw [FklIns.uB_eq_div]
        omega
      have hpred : movVarRef.predicate (i0 :: i1 :: rest) = some 2 :=
        congrArg some (if_pos ⟨h0, hB, h1, hU16⟩)
      obtain rfl : 2 = n := Option.some.inj (hpred.symm.trans hn)
      obtain ⟨out, hout, heq⟩ := hsound (by decide) hblock
      have hrun := heq Rat (apartFrame (i0.ins.uC % 256)) apartState
      obtain rfl := Option.some.inj (hout.symm.trans rfl)
      simp only [insOf, List.map_cons, List.map_nil, List.take_succ_cons, List.take_zero,
        execAll_one, movVarRef_exec _ _ hU16, getPut_exec _ _ h0 h1, getVarVal,
        getVarRef_apart _ _ _ isNull_apartState] at hrun
      have hne : i0.ins.uC ≠ i0.ins.uC % 256 := by omega
      simp only [if_neg hne, if_true] at hrun
      have hstack := congrArg VMstate.stack (Except.ok.inj hrun)
      exact fix_one_ne_nil (List.cons.inj hstack).1
    · intro hfar
      refine ⟨_, rfl, fun hn hblock => ⟨_, rfl, fun D _ f s => ?_⟩⟩
      split at hn
      case isFalse => exact absurd hn (lt_irrefl 0)
      next hc =>
      obtain ⟨h0, ha, h1, hb⟩ := hc
      rw [if_pos ⟨h0, ha, h1, hb⟩] at hblock ⊢
      have hb' : i1.ins.uC ≤ 65535 := by simpa [isInU16Range] using hb
      have hsmall : i0.ins.uC < 256 := by
        rw [FklIns.uB_eq_div] at ha
        by_contra hlo
        exact hfar ⟨i0, i1, rest, rfl, h0, by omega, by omega, h1, hb', hblock⟩
      simp only [insOf, List.map_cons, List.map_nil, List.take_succ_cons, List.take_zero,
        execAll_one, movVarRef_exec _ _ hb, getPut_exec _ _ h0 h1, Nat.mod_eq_of_lt hsmall]
  all_goals
    refine iff_of_true (sound_of_zero rfl) ?_
    rintro ⟨_, _, _, ⟨⟩, _⟩

/-! The move, a drop and a read. -/

/-- A move, a drop, and a read of a third variable that the rule takes for the first: the
upper bits of its index are the index of the first. -/
def ReadsOther (p : List FklInsLn) : Prop :=
  ∃ i0 i1 i2 rest, p = i0 :: i1 :: i2 :: rest ∧ i0.ins.op = some .movVarRef ∧
    isDrop1 i1.ins = true ∧ i2.ins.op = some .getVarRef ∧ i2.ins.uC / 256 = i0.ins.uA ∧
    i2.ins.uC ≠ i0.ins.uA ∧ i2.ins.uC ≠ i0.ins.uB ∧ isInOneBlock p 3 ≠ none

section

variable {D : Type} [Binary64 D] {f : VMframe D} {s : VMstate D}

omit [Binary64 D] in
theorem getVarRef_ok {idx : Nat} {c : VMcell} (h : getVarRef f s idx = .ok c) :
    f.ref idx = some c ∧ (s.cell c).isNull = false := by
  unfold getVarRef at h
  split at h
  · cases h
  next c' hc =>
    split at h
    · cases h
    next hnull =>
      obtain rfl : c' = c := Except.ok.inj h
      exact ⟨hc, Bool.eq_false_iff.mpr hnull⟩

omit [Binary64 D] in
theorem getVarRef_of_ref {idx : Nat} {c : VMcell} (h : f.ref idx = some c)
    (hnull : (s.cell c).isNull = false) : getVarRef f s idx = .ok c := by
  simp [getVarRef, h, hnull]

omit [Binary64 D] in
/-- A move leaves both variables with the value on top. -/
theorem getVarVal_after_mov {a b k : Nat} {ca cb : VMcell} (ha : getVarRef f s a = .ok ca)
    (hb : getVarRef f s b = .ok cb) (hk : k = a ∨ k = b) :
    getVarVal f (s.set cb (s.cell ca)) k = .ok (s.cell ca) := by
  obtain ⟨hra, hna⟩ := getVarRef_ok ha
  obtain ⟨hrb, _⟩ := getVarRef_ok hb
  have hcell : ∀ c, c = ca ∨ c = cb → (s.set cb (s.cell ca)).cell c = s.cell ca := by
    intro c hc
    simp only [VMstate.cell_set, Function.update_apply]
    split
    next => rfl
    next hne => rw [hc.resolve_right hne]
  have hread : ∀ c, f.ref k = some c → c = ca ∨ c = cb →
      getVarVal f (s.set cb (s.cell ca)) k = .ok (s.cell ca) := by
    intro c hr hc
    simp only [getVarVal, getVarRef_of_ref hr (by rw [hcell c hc]; exact hna), bind, Except.bind,
      hcell c hc]
  rcases hk with rfl | rfl
  · exact hread ca hra (Or.inl rfl)
  · exact hread cb hrb (Or.inr rfl)

/-- The drop after a move takes away what the move pushed. -/
theorem movDrop_exec {i0 i1 i2 : FklIns} (h0 : i0.op = some .movVarRef) (h1 : isDrop1 i1 = true) :
    execAll f [i0, i1, i2] s = (getVarRef f s i0.uA).bind fun ca =>
      (getVarRef f s i0.uB).bind fun cb => execIns f i2 (s.set cb (s.cell ca)) := by
  rw [execAll_cons, execIns_movVarRef h0, getVarVal]
  cases getVarRef f s i0.uA with
  | error e => rfl
  | ok ca =>
    simp only [bind, Except.bind, getVarRef_push]
    cases getVarRef f s i0.uB with
    | error e => rfl
    | ok cb =>
      change execAll f [i1, i2] ((s.set cb (s.cell ca)).push (s.cell ca)) = _
      rw [execAll_cons_ok (execIns_drop1 h1), execAll_one, VMstate.pop_push]

theorem mov_exec {i0 : FklIns} (h0 : i0.op = some .movVarRef) :
    execIns f i0 s = (getVarRef f s i0.uA).bind fun ca =>
      (getVarRef f s i0.uB).bind fun cb => .ok ((s.set cb (s.cell ca)).push (s.cell ca)) := by
  rw [execIns_movVarRef h0, getVarVal]
  cases getVarRef f s i0.uA with
  | error e => rfl
  | ok ca =>
    simp only [bind, Except.bind, getVarRef_push]
    cases getVarRef f s i0.uB <;> rfl

/-- What follows reads one of the two variables, or moves again. -/
theorem movDrop_keeps {i0 i1 i2 : FklIns} (h0 : i0.op = some .movVarRef) (h1 : isDrop1 i1 = true)
    (h2 : i2.op = some .getVarRef ∧ (i2.uC = i0.uA ∨ i2.uC = i0.uB) ∨
      i2.op = some .movVarRef ∧ i2.uA = i0.uA ∧ i2.uB = i0.uB) :
    execIns f i0 s = execAll f [i0, i1, i2] s := by
  rw [movDrop_exec h0 h1, mov_exec h0]
  cases ha : getVarRef f s i0.uA with
  | error e => rfl
  | ok ca =>
    cases hb : getVarRef f s i0.uB with
    | error e => rfl
    | ok cb =>
      simp only [Except.bind]
      rcases h2 with ⟨h2, hidx⟩ | ⟨h2, hA, hB⟩
      · rw [execIns_getVarRef h2, getVarVal_after_mov ha hb hidx]
        rfl
      · have hread := getVarVal_after_mov ha hb (Or.inl rfl)
        have hwrite : getVarRef f (s.set cb (s.cell ca)) i0.uB = .ok cb := by
          refine getVarRef_of_ref (getVarRef_ok hb).1 ?_
          simp only [VMstate.cell_set, Function.update_self]
          exact (getVarRef_ok ha).2
        rw [execIns_movVarRef h2, hA, hB, hread]
        simp only [Except.bind, getVarRef_push, hwrite, Except.map, VMstate.set_push,
          VMstate.set_set]

end

theorem movVarRefDropGet_sound_iff (p : List FklInsLn) :
    movVarRefDropGet.Sound p ↔ ¬ReadsOther p := by
  rcases p with _ | ⟨i0, _ | ⟨i1, _ | ⟨i2, rest⟩⟩⟩
  case cons.cons.cons =>
    have hkeep : ∀ {c : Prop} [Decidable c],
        movVarRefDropGet.predicate (i0 :: i1 :: i2 :: rest) = some (if c then 3 else 0) →
        (c → isInOneBlock (i0 :: i1 :: i2 :: rest) 3 ≠ none →
          i0.ins.op = some .movVarRef ∧ isDrop1 i1.ins = true ∧
          (i2.ins.op = some .getVarRef ∧ (i2.ins.uC = i0.ins.uA ∨ i2.ins.uC = i0.ins.uB) ∨
            i2.ins.op = some .movVarRef ∧ i2.ins.uA = i0.ins.uA ∧ i2.ins.uB = i0.ins.uB)) →
        movVarRefDropGet.Sound (i0 :: i1 :: i2 :: rest) := by
      intro c _ hp h
      refine ⟨_, hp, fun hn hblock => ⟨[i0], rfl, fun D _ f s => ?_⟩⟩
      split at hn
      case isFalse => exact absurd hn (lt_irrefl 0)
      next hc =>
      rw [if_pos hc] at hblock ⊢
      obtain ⟨h0, h1, h2⟩ := h hc hblock
      simp only [insOf, List.map_cons, List.map_nil, List.take_succ_cons, List.take_zero,
        execAll_one]
      exact movDrop_keeps h0 h1 h2
    constructor
    · rintro ⟨n, hn, hsound⟩ ⟨_, _, _, _, ⟨⟩, h0, h1, h2, hupper, ha, hb, hblock⟩
      have hpred : movVarRefDropGet.predicate (i0 :: i1 :: i2 :: rest) = some 3 := by
        simp [movVarRefDropGet, movDropGetPred, h0, h1, h2, FklIns.uB_eq_div, hupper]
      obtain rfl : 3 = n := Option.some.inj (hpred.symm.trans hn)
      obtain ⟨out, hout, heq⟩ := hsound (by decide) hblock
      have hrun := heq Rat (apartFrame i2.ins.uC) apartState
      obtain rfl := Option.some.inj (hout.symm.trans rfl)
      have hcell : ∀ a, ((apartState.set (.box 0) (apartState.cell (.box 0))).cell
          (.box a)).isNull = false := by
        intro a
        rw [VMstate.set_cell]
        exact isNull_apartState a
      simp only [insOf, List.map_cons, List.map_nil, List.take_succ_cons, List.take_zero,
        execAll_one, mov_exec h0, movDrop_exec h0 h1, execIns_getVarRef h2, getVarVal,
        getVarRef_apart _ _ _ isNull_apartState, if_neg ha.symm, if_neg hb.symm, Except.bind,
        VMstate.set_cell, bind, if_true] at hrun
      have hstack := congrArg VMstate.stack (Except.ok.inj hrun)
      exact fix_one_ne_nil (List.cons.inj hstack).1.symm
    · intro hother
      by_cases h0 : i0.ins.op = some .movVarRef
      case neg => exact sound_of_zero (by simp [movVarRefDropGet, movDropGetPred, h0])
      by_cases h1 : isDrop1 i1.ins = true
      case neg => exact sound_of_zero (by simp [movVarRefDropGet, movDropGetPred, h0, h1])
      by_cases h2 : i2.ins.op = some .getVarRef
      · refine hkeep (c := i2.ins.uB = i0.ins.uA) ?_ fun hupper hblock => ⟨h0, h1, Or.inl ⟨h2, ?_⟩⟩
        · simp [movVarRefDropGet, movDropGetPred, h0, h1, h2]
        · by_contra hne
          obtain ⟨ha, hb⟩ := not_or.mp hne
          rw [FklIns.uB_eq_div] at hupper
          exact hother ⟨i0, i1, i2, rest, rfl, h0, h1, h2, hupper, ha, hb, hblock⟩
      · by_cases h2' : i2.ins.op = some .movVarRef
        · refine hkeep (c := i2.ins.uA = i0.ins.uA ∧ i2.ins.uB = i0.ins.uB) ?_
            fun h _ => ⟨h0, h1, Or.inr ⟨h2', h⟩⟩
          simp [movVarRefDropGet, movDropGetPred, h0, h1, h2']
        · exact sound_of_zero (by simp [movVarRefDropGet, movDropGetPred, h0, h1, h2, h2'])
  all_goals
    refine iff_of_true (sound_of_zero rfl) ?_
    rintro ⟨_, _, _, _, ⟨⟩, _⟩

/-! The theorem. -/

def varRefOptimizers : List PeepholeOptimizer := [movVarRef, movVarRefDropGet, movToGet]

/-- The rules on closure variables are sound exactly where none meets an index of more than
eight bits that it cuts short. -/
theorem varRefOptimizers_sound_iff (buf : List FklInsLn) (i : Nat) :
    (∀ o ∈ varRefOptimizers, o.Sound (peepholeAt buf i)) ↔
      ¬ReadsFarIndex (peepholeAt buf i) ∧ ¬ReadsOther (peepholeAt buf i) := by
  simp only [varRefOptimizers, List.forall_mem_cons, List.not_mem_nil, false_implies, implies_true,
    and_true, movToGet_sound, movVarRef_sound_iff, movVarRefDropGet_sound_iff]

/-- Reading variable 256 and writing variable 0 becomes a move from variable 0; a read of
variable 2 after a move from 0 to 1 is dropped. -/
theorem varRefOptimizers_wrong :
    ¬movVarRef.Sound (peepholeAt
      [bareLine (makeInsIuC .getVarRef 256), bareLine (makeInsIuC .putVarRef 0)] 0) ∧
    ¬movVarRefDropGet.Sound (peepholeAt
      [bareLine (((makeInsI .movVarRef).setUA 0).setUB 1), bareLine (makeInsIsA .drop 0),
        bareLine (makeInsIuC .getVarRef 2)] 0) := by
  constructor
  · rw [movVarRef_sound_iff, not_not]
    exact ⟨_, _, [], rfl, by decide, by decide, by decide, by decide, by decide, by decide⟩
  · rw [movVarRefDropGet_sound_iff, not_not]
    exact ⟨_, _, _, [], rfl, by decide, by decide, by decide, by decide, by decide, by decide,
      by decide⟩

end FakeLisp
