import FakeLisp.Peephole

/-! The rules on local variables and on `NOT` preserve execution. -/

namespace FakeLisp

/-! How rules are proved. -/

theorem sound_of_zero {o : PeepholeOptimizer} {p : List FklInsLn} (h : o.predicate p = some 0) :
    o.Sound p := ⟨0, h, fun h0 => absurd h0 (lt_irrefl 0)⟩

theorem sound_of_if {o : PeepholeOptimizer} {p : List FklInsLn} {c : Prop} [Decidable c] {n : Nat}
    (hp : o.predicate p = some (if c then n else 0))
    (h : c → ∃ out, o.output p = some out ∧
      ∀ (D : Type) [Binary64 D] (f : VMframe D) (s : VMstate D),
        execAll f (insOf out) s = execAll f (insOf (p.take n)) s) : o.Sound p := by
  by_cases hc : c
  · rw [if_pos hc] at hp
    exact ⟨n, hp, fun _ _ => h hc⟩
  · rw [if_neg hc] at hp
    exact sound_of_zero hp

theorem FklIns.sA_eq_zero_iff (i : FklIns) : i.sA = 0 ↔ i.uA = 0 := by
  have h := getField_lt (i := i) (p := 8) (s := 8) (by decide)
  unfold FklIns.sA FklIns.uA
  rw [toUnsigned_natCast h, toSigned, Int.bmod_def]
  push_cast
  split <;> omega

theorem isDrop1_iff {i : FklIns} : isDrop1 i = true ↔ i.op = some .drop ∧ i.sA = 0 := by
  simp [isDrop1, FklIns.sA_eq_zero_iff]

section

variable {D : Type} [Binary64 D] {f : VMframe D} {s : VMstate D} {i : FklIns}

theorem execIns_drop1 (h : isDrop1 i = true) : execIns f i s = .ok s.pop := by
  obtain ⟨hop, hA⟩ := isDrop1_iff.mp h
  simp [execIns, hop, execDrop, hA]

theorem execIns_not (h : i.op = some .not) :
    execIns f i s = s.top.map fun w => s.pop.push (if w.isNil then .vmTrue else .nil) := by
  simp only [execIns, h]
  cases s.top <;> rfl

theorem execIns_getLoc (h : i.op = some .getLoc) :
    execIns f i s = .ok (s.push (s.cell (.loc i.uC))) := by
  simp only [execIns, h]

theorem execIns_putLoc (h : i.op = some .putLoc) :
    execIns f i s = s.top.map fun w => s.set (.loc i.uC) w := by
  simp only [execIns, h]
  cases s.top <;> rfl

theorem execIns_popLoc (h : i.op = some .popLoc) :
    execIns f i s = s.top.map fun w => s.pop.set (.loc i.uB) w := by
  simp only [execIns, h]
  cases s.top <;> rfl

theorem execIns_movLoc (h : i.op = some .movLoc) :
    execIns f i s = .ok ((s.set (.loc i.uB) (s.cell (.loc i.uA))).push (s.cell (.loc i.uA))) := by
  simp only [execIns, h]

theorem execIns_movVarRef (h : i.op = some .movVarRef) :
    execIns f i s = (getVarVal f s i.uA).bind fun w =>
      (getVarRef f (s.push w) i.uB).map fun c => (s.push w).set c w := by
  simp only [execIns, h]
  rfl

theorem execAll_cons_ok {t : VMstate D} {is : List FklIns} (h : execIns f i s = .ok t) :
    execAll f (i :: is) s = execAll f is t := by
  simp only [execAll, h]
  rfl

end

/-! Indices. -/

theorem toUnsigned_of_isInU16Range {n : Nat} (h : isInU16Range n = true) :
    toUnsigned 16 (n : Int) = n := by
  refine toUnsigned_natCast ?_
  simp only [isInU16Range, decide_eq_true_eq] at h
  omega

theorem fklGetOpcodeModeLen_eq (op : FklOpcode) : fklGetOpcodeModeLen op = 1 := by
  cases op <;> rfl

theorem setInslnToIns_cons {l : FklInsLn} (h : l.ins.op ≠ none) (ls : List FklInsLn) :
    ∃ ins : Code, setInslnToIns (l :: ls) = some (1, ins) ∧ ins 0 = l.ins := by
  obtain ⟨op, hop⟩ := Option.ne_none_iff_exists'.mp h
  refine ⟨fun k => if k < 1 then ((insOf (l :: ls))[k]?).getD 0 else 0, ?_, rfl⟩
  simp [setInslnToIns, hop, fklGetOpcodeModeLen_eq]

/-- An operand that fits is encoded with the opcode asked for. -/
theorem fklMakeIns_of_fits {op : FklOpcode} {arg a : FklInsArg} (ins : Code) (hd : op ≠ .dummy)
    (hread : readArg (fklGetOpcodeMode op) arg = some a)
    (hfits : argFits (fklGetOpcodeMode op) a = some true) :
    fklMakeIns ins op arg = (emitIns ins op a).map fun out => (1, out) := by
  have hfind : findOpcode 67 op a = some op := by
    rw [findOpcode, if_neg hd, hfits]
    rfl
  unfold fklMakeIns
  rw [if_neg hd, hread]
  simp only [Option.bind_eq_bind, Option.bind_some, hfind, if_neg hd, fklGetOpcodeModeLen_eq]
  cases emitIns ins op a <;> rfl

theorem fklGetInsOpArg_of_op {ins : Code} {op : FklOpcode} (h : (ins 0).op = some op)
    (a : FklInsArg) : fklGetInsOpArg ins a = some (getInsOpWithOp op ins a) := by
  unfold fklGetInsOpArg
  rw [h]
  rfl

theorem setInsToInsln_one {ins : Code} {op : FklOpcode} (hop : (ins 0).op = some op)
    (l : FklInsLn) (ls : List FklInsLn) :
    setInsToInsln ins (l :: ls) = some [{ l with ins := ins 0 }] := by
  simp [setInsToInsln, hop, fklGetOpcodeModeLen_eq]

/-- The output of the rules that keep an index: `arg` is the operand that was read. -/
theorem withFirstIndex_cons {op op' : FklOpcode} {l : FklInsLn} {n : Nat} {a : FklInsArg}
    {i : FklIns} (ls : List FklInsLn) (h : l.ins.op = some op')
    (hread : ∀ ins : Code, ins 0 = l.ins → getInsOpWithOp op' ins ⟨0, 0, 0⟩ = (1, ⟨0, n, 0⟩))
    (hd : op ≠ .dummy) (harg : readArg (fklGetOpcodeMode op) ⟨0, n, 0⟩ = some a)
    (hfits : argFits (fklGetOpcodeMode op) a = some true) (hi : i.op = some op)
    (hemit : ∀ ins : Code, ins 0 = l.ins → ∃ out, emitIns ins op a = some out ∧ out 0 = i) :
    withFirstIndex op (l :: ls) = some [{ l with ins := i }] := by
  obtain ⟨ins, hset, h0⟩ := setInslnToIns_cons (l := l) (by simp [h]) ls
  obtain ⟨out, hout, hout0⟩ := hemit ins h0
  have hget : fklGetInsOpArg ins ⟨0, 0, 0⟩ = some (1, ⟨0, n, 0⟩) := by
    rw [fklGetInsOpArg_of_op (by rw [h0, h]), hread ins h0]
  have hmake : fklMakeIns ins op ⟨0, n, 0⟩ = some (1, out) := by
    rw [fklMakeIns_of_fits ins hd harg hfits, hout]
    rfl
  unfold withFirstIndex
  refine bind_eq_of_eq hset (bind_eq_of_eq hget (bind_eq_of_eq hmake ?_))
  have hop : (out 0).op = some op := by rw [hout0, hi]
  exact hout0 ▸ setInsToInsln_one hop l ls

theorem withFirstIndex_popLoc {l : FklInsLn} (ls : List FklInsLn) (h : l.ins.op = some .putLoc)
    (hr : isInU16Range l.ins.uC = true) :
    withFirstIndex .popLoc (l :: ls) =
      some [{ l with ins := (l.ins.setOp .popLoc).setUB l.ins.uC }] := by
  have hfits : ¬l.ins.uC > 65535 := by
    simpa [isInU16Range] using hr
  refine withFirstIndex_cons (n := l.ins.uC) ls h (fun ins h0 => by rw [← h0]; rfl) (by decide) rfl
    ?_ (by simp) fun ins h0 => ⟨_, rfl, ?_⟩
  · simp [argFits, fklGetOpcodeMode, hfits]
  · simp [h0]

theorem withFirstIndex_putLoc {l : FklInsLn} (ls : List FklInsLn) (h : l.ins.op = some .popLoc) :
    withFirstIndex .putLoc (l :: ls) =
      some [{ l with ins := (l.ins.setOp .putLoc).setUC l.ins.uB }] := by
  have hfits : ¬(l.ins.uB : Int) > u24Max := by
    have hlt := uB_lt l.ins
    have hmax : u24Max = 16777215 := rfl
    omega
  refine withFirstIndex_cons (n := l.ins.uB) ls h (fun ins h0 => by rw [← h0]; rfl) (by decide) rfl
    ?_ (by simp) fun ins h0 => ⟨_, rfl, ?_⟩
  · simp only [argFits, fklGetOpcodeMode, hfits, not_false_eq_true, decide_true]
  · simp [h0]

/-! Each rule. -/

theorem isNil_not {D : Type} (w : VMword D) :
    (if (if w.isNil then VMword.vmTrue else .nil : VMword D).isNil then VMword.vmTrue
      else (.nil : VMword D)).isNil = w.isNil := by
  cases w <;> rfl

theorem not3_sound (p : List FklInsLn) : not3.Sound p := by
  rcases p with _ | ⟨i0, _ | ⟨i1, _ | ⟨i2, rest⟩⟩⟩
  case cons.cons.cons =>
    refine sound_of_if rfl fun ⟨h0, h1, h2⟩ => ⟨[i0], rfl, fun D _ f s => ?_⟩
    simp only [insOf, List.map_cons, List.map_nil, List.take_succ_cons, List.take_zero, execAll_one]
    cases hs : s.stack with
    | nil => simp [execAll, execIns, h0, VMstate.top, hs, bind, Except.bind]
    | cons w ws =>
      have ht : s.top = .ok w := by simp [VMstate.top, hs]
      rw [execIns_not h0, ht, execAll_cons_ok (by rw [execIns_not h0, ht]; rfl),
        execAll_cons_ok (by rw [execIns_not h1]; rfl), execAll_one, execIns_not h2]
      simp only [VMstate.top_push, VMstate.pop_push, Except.map, isNil_not]
  all_goals exact sound_of_zero rfl

theorem incOrDecLoc_sound (p : List FklInsLn) : incOrDecLoc.Sound p := by
  rcases p with _ | ⟨i0, _ | ⟨i1, _ | ⟨i2, rest⟩⟩⟩
  case cons.cons.cons =>
    refine sound_of_if rfl fun ⟨h0, h1, h2, hidx, hrange⟩ => ⟨_, rfl, fun D _ f s => ?_⟩
    have hA : toSigned 8 i1.ins.sA = i1.ins.sA := toSigned_of_inField (sA_inField _)
    have hB := toUnsigned_of_isInU16Range hrange
    rw [hidx] at hB
    simp only [insOf, List.map_cons, List.map_nil, List.take_succ_cons, List.take_zero, execAll_one]
    rw [execAll_cons_ok (execIns_getLoc h0)]
    simp only [execAll, execIns, h1, h2, makeInsIsA, makeInsI, FklIns.setSA, FklIns.op_setUB,
      FklIns.op_setUA, FklIns.op_setOp, FklIns.uB_setUB, FklIns.sA_setUB, FklIns.sA_setUA, hA, hidx,
      hB, VMstate.top_push, VMstate.pop_push]
    simp only [bind, Except.bind]
    cases addk (s.cell (.loc i2.ins.uC)) i1.ins.sA <;> rfl
  all_goals exact sound_of_zero rfl

theorem putLocDrop_sound {p : List FklInsLn} (hp : ∀ l ∈ p, l.ins.op ≠ none) :
    putLocDrop.Sound p := by
  rcases p with _ | ⟨i0, _ | ⟨i1, rest⟩⟩
  case cons.cons =>
    obtain ⟨ins, hset, h0⟩ := setInslnToIns_cons (hp i0 (by simp)) (i1 :: rest)
    have hpred : putLocDrop.predicate (i0 :: i1 :: rest) =
        some (if i0.ins.op = some .putLoc ∧ isInU16Range i0.ins.uC ∧ isDrop1 i1.ins then 2
          else 0) := by
      simp [putLocDrop, putLocDropPredicate, hset, h0, insOf]
    refine sound_of_if hpred fun ⟨hop, hrange, hdrop⟩ => ?_
    refine ⟨_, withFirstIndex_popLoc (i1 :: rest) hop hrange, fun D _ f s => ?_⟩
    simp only [insOf, List.map_cons, List.map_nil, List.take_succ_cons, List.take_zero, execAll_one]
    rw [execIns_popLoc (by simp), FklIns.uB_setUB, toUnsigned_of_isInU16Range hrange]
    cases hs : s.stack with
    | nil => simp [execAll, execIns, hop, VMstate.top, hs, bind, Except.bind, Except.map]
    | cons w ws =>
      have ht : s.top = .ok w := by simp [VMstate.top, hs]
      rw [execAll_cons_ok (by rw [execIns_putLoc hop, ht]; rfl), execAll_one, execIns_drop1 hdrop, ht]
      rfl
  all_goals exact sound_of_zero rfl

theorem popAndGetLoc_sound {p : List FklInsLn} (hp : ∀ l ∈ p, l.ins.op ≠ none) :
    popAndGetLoc.Sound p := by
  rcases p with _ | ⟨i0, _ | ⟨i1, rest⟩⟩
  case cons.cons =>
    obtain ⟨ins, hset, h0⟩ := setInslnToIns_cons (hp i0 (by simp)) (i1 :: rest)
    obtain ⟨ins', hset', h1⟩ := setInslnToIns_cons (hp i1 (by simp)) rest
    have hpred : popAndGetLoc.predicate (i0 :: i1 :: rest) =
        some (if i0.ins.op = some .popLoc ∧ i1.ins.op = some .getLoc ∧ i0.ins.uB = i1.ins.uC then 2
          else 0) := by
      change popAndGetLocPredicate (i0 :: i1 :: rest) = _
      unfold popAndGetLocPredicate
      rw [if_neg (by simp)]
      refine bind_eq_of_eq hset ?_
      dsimp only
      by_cases hop : i0.ins.op = some .popLoc
      case neg => rw [if_pos (Or.inr (by rwa [h0])), if_neg (fun h => hop h.1)]
      rw [if_neg (not_or.mpr ⟨by simp, by rw [h0]; exact not_not.mpr hop⟩)]
      refine bind_eq_of_eq (fklGetInsOpArg_of_op (by rw [h0, hop]) _) (bind_eq_of_eq hset' ?_)
      dsimp only
      by_cases hop' : i1.ins.op = some .getLoc
      case neg => rw [if_pos (by rwa [h1]), if_neg (fun h => hop' h.2.1)]
      rw [if_neg (by rw [h1]; exact not_not.mpr hop')]
      refine bind_eq_of_eq (fklGetInsOpArg_of_op (by rw [h1, hop']) _) ?_
      simp [getInsOpWithOp, fklGetOpcodeMode, h0, h1, hop, hop']
    refine sound_of_if hpred fun ⟨hop, hop', hidx⟩ => ?_
    refine ⟨_, withFirstIndex_putLoc (i1 :: rest) hop, fun D _ f s => ?_⟩
    have hB : toUnsigned 24 (i0.ins.uB : Int) = i0.ins.uB :=
      toUnsigned_natCast (lt_trans (uB_lt _) (by decide))
    simp only [insOf, List.map_cons, List.map_nil, List.take_succ_cons, List.take_zero, execAll_one]
    rw [execIns_putLoc (by simp), FklIns.uC_setUC, hB]
    cases hs : s.stack with
    | nil => simp [execAll, execIns, hop, VMstate.top, hs, bind, Except.bind, Except.map]
    | cons w ws =>
      have ht : s.top = .ok w := by simp [VMstate.top, hs]
      rw [execAll_cons_ok (by rw [execIns_popLoc hop, ht]; rfl), execAll_one, execIns_getLoc hop', ht,
        ← hidx]
      simp [Except.map, VMstate.push, VMstate.set, VMstate.pop, hs]
  all_goals exact sound_of_zero rfl

theorem movLoc_sound (p : List FklInsLn) : movLoc.Sound p := by
  rcases p with _ | ⟨i0, _ | ⟨i1, rest⟩⟩
  case cons.cons =>
    refine sound_of_if rfl fun ⟨h0, ha, h1, hb⟩ => ⟨_, rfl, fun D _ f s => ?_⟩
    have hA : toUnsigned 8 (i0.ins.uC : Int) = i0.ins.uC := toUnsigned_natCast (by omega)
    simp only [insOf, List.map_cons, List.map_nil, List.take_succ_cons, List.take_zero, execAll_one]
    rw [execAll_cons_ok (execIns_getLoc h0), execAll_one, execIns_putLoc h1, execIns_movLoc (by simp)]
    simp only [FklIns.uB_setUB, FklIns.uA_setUB, FklIns.uA_setUA, hA, toUnsigned_of_isInU16Range hb,
      VMstate.top_push, Except.map, VMstate.set_push]
  all_goals exact sound_of_zero rfl

theorem movLocDropGet_sound (p : List FklInsLn) : movLocDropGet.Sound p := by
  rcases p with _ | ⟨i0, _ | ⟨i1, _ | ⟨i2, rest⟩⟩⟩
  case cons.cons.cons =>
    by_cases h0 : i0.ins.op = some .movLoc
    case neg => exact sound_of_zero (by simp [movLocDropGet, movDropGetPred, h0])
    by_cases h1 : isDrop1 i1.ins = true
    case neg => exact sound_of_zero (by simp [movLocDropGet, movDropGetPred, h0, h1])
    have hrun : ∀ (D : Type) [Binary64 D] (f : VMframe D) (s : VMstate D),
        execAll f (insOf ((i0 :: i1 :: i2 :: rest).take 3)) s =
          execIns f i2.ins (s.set (.loc i0.ins.uB) (s.cell (.loc i0.ins.uA))) := by
      intro D _ f s
      simp only [insOf, List.map_cons, List.map_nil, List.take_succ_cons, List.take_zero]
      rw [execAll_cons_ok (execIns_movLoc h0), execAll_cons_ok (execIns_drop1 h1), execAll_one,
        VMstate.pop_push]
    by_cases h2 : i2.ins.op = some .getLoc
    · refine sound_of_if (n := 3) (c := i2.ins.uC = i0.ins.uA) ?_ fun hidx =>
        ⟨[i0], rfl, fun D _ f s => ?_⟩
      · simp [movLocDropGet, movDropGetPred, h0, h1, h2]
      · rw [hrun, execIns_getLoc h2, hidx]
        simp only [insOf, List.map_cons, List.map_nil, execAll_one, execIns_movLoc h0,
          VMstate.cell_set, Function.update_apply]
        split
        next he => rw [he]
        next => rfl
    · by_cases h2' : i2.ins.op = some .movLoc
      · refine sound_of_if (n := 3) (c := i2.ins.uA = i0.ins.uA ∧ i2.ins.uB = i0.ins.uB) ?_
          fun hidx => ⟨[i0], rfl, fun D _ f s => ?_⟩
        · simp [movLocDropGet, movDropGetPred, h0, h1, h2']
        · rw [hrun, execIns_movLoc h2', hidx.1, hidx.2]
          simp only [insOf, List.map_cons, List.map_nil, execAll_one, execIns_movLoc h0,
            VMstate.cell_set, Function.update_apply, VMstate.set_set]
          split
          next he => rw [he]
          next => rfl
      · exact sound_of_zero (by simp [movLocDropGet, movDropGetPred, h0, h1, h2, h2'])
  all_goals exact sound_of_zero rfl

/-- Reading a closure variable does not depend on the operands. -/
theorem getVarRef_push {D : Type} (f : VMframe D) (s : VMstate D) (w : VMword D) (idx : Nat) :
    getVarRef f (s.push w) idx = getVarRef f s idx := rfl

theorem movToGet_sound (p : List FklInsLn) : movToGet.Sound p := by
  rcases p with _ | ⟨i0, rest⟩
  · exact sound_of_zero rfl
  refine sound_of_if rfl fun ⟨hop, hidx⟩ => ⟨_, rfl, fun D _ f s => ?_⟩
  have hA : toUnsigned 24 (i0.ins.uA : Int) = i0.ins.uA :=
    toUnsigned_natCast (lt_trans (uA_lt _) (by decide))
  simp only [insOf, List.map_cons, List.map_nil, List.take_succ_cons, List.take_zero, execAll_one]
  rcases hop with hop | hop
  · rw [if_pos hop, execIns_getLoc (by simp [makeInsIuC, makeInsI]), execIns_movLoc hop, ← hidx,
      makeInsIuC, FklIns.uC_setUC, hA]
    simp
  · rw [if_neg (by simp [hop]), execIns_movVarRef hop, ← hidx]
    simp only [execIns, makeInsIuC, makeInsI, FklIns.op_setUC, FklIns.op_setOp, FklIns.uC_setUC, hA,
      getVarRef_push, getVarVal]
    cases getVarRef f s i0.ins.uA with
    | error e => rfl
    | ok c => exact congrArg Except.ok (VMstate.set_cell (s.push _) c).symm

/-- The constants that are pushed: nil only by its own instruction. -/
theorem execIns_pushConst {D : Type} [Binary64 D] (f : VMframe D) {i : FklIns} {op : FklOpcode}
    (h : i.op = some op)
    (hop : op ∈ [.pushNil, .push0, .push1, .pushI8, .pushI16, .pushI24, .pushConst]) :
    ∃ w : VMword D, (∀ s, execIns f i s = .ok (s.push w)) ∧ (w.isNil = true ↔ op = .pushNil) := by
  fin_cases hop
  case «6» =>
    refine ⟨f.konsts i.uC, fun s => by simp only [execIns, h], ?_⟩
    have hne := f.konsts_ne_nil i.uC
    cases hk : f.konsts i.uC with
    | nil => exact absurd hk hne
    | _ => simp [VMword.isNil]
  all_goals exact ⟨_, fun s => by simp only [execIns, h]; rfl, by simp [VMword.isNil, VMword.fix]⟩

theorem pushConstNot_sound (p : List FklInsLn) : pushConstNot.Sound p := by
  rcases p with _ | ⟨i0, _ | ⟨i1, rest⟩⟩
  case cons.cons =>
    by_cases hc : ∃ op ∈ [FklOpcode.pushNil, .push0, .push1, .pushI8, .pushI16, .pushI24,
        .pushConst], i0.ins.op = some op
    · obtain ⟨op, hmem, hop⟩ := hc
      have hpred : pushConstNot.predicate (i0 :: i1 :: rest) =
          some (if i1.ins.op = some .not then 2 else 0) := by
        fin_cases hmem <;>
          simp [pushConstNot, pushConstNotPred, hop, fklGetOpcodeModeLen_eq, insOf]
      refine sound_of_if hpred fun hnot => ⟨_, rfl, fun D _ f s => ?_⟩
      obtain ⟨w, hpush, hnil⟩ := execIns_pushConst f hop hmem
      simp only [insOf, List.map_cons, List.map_nil, List.take_succ_cons, List.take_zero, execAll_one]
      rw [execAll_cons_ok (hpush s), execAll_one, execIns_not hnot, VMstate.top_push, Except.map,
        VMstate.pop_push, hop]
      by_cases hn : op = .pushNil
      · rw [if_pos (hnil.mpr hn), if_pos (congrArg some hn)]
        simp only [execIns, FklIns.op_setOp]
        rfl
      · rw [if_neg (fun h => hn (hnil.mp h)), if_neg (fun h => hn (Option.some.inj h))]
        simp only [execIns, FklIns.op_setOp]
    · refine sound_of_zero ?_
      simp only [pushConstNot, pushConstNotPred]
      split
      case h_8 => rfl
      all_goals
        rename_i h
        exact (hc ⟨_, by simp, h⟩).elim
  all_goals exact sound_of_zero rfl

/-! All rules, and any number of rewrites. -/

def localOptimizers : List PeepholeOptimizer :=
  [not3, incOrDecLoc, putLocDrop, popAndGetLoc, movLoc, movLocDropGet, movToGet, pushConstNot]

theorem sound_of_mem_localOptimizers {p : List FklInsLn} (hp : WellFormed p)
    {o : PeepholeOptimizer} (ho : o ∈ localOptimizers) : o.Sound p := by
  simp only [localOptimizers, List.mem_cons, List.not_mem_nil, or_false] at ho
  rcases ho with rfl | rfl | rfl | rfl | rfl | rfl | rfl | rfl
  · exact not3_sound p
  · exact incOrDecLoc_sound p
  · exact putLocDrop_sound hp
  · exact popAndGetLoc_sound hp
  · exact movLoc_sound p
  · exact movLocDropGet_sound p
  · exact movToGet_sound p
  · exact pushConstNot_sound p

theorem wellFormed_singleton {l : FklInsLn} {op : FklOpcode} (h : l.ins.op = some op) :
    WellFormed [l] := by
  intro l' hl'
  rw [List.mem_singleton.mp hl', h]
  exact Option.some_ne_none op

theorem setInsToInsln_wellFormed {ins : Code} {p out : List FklInsLn}
    (h : setInsToInsln ins p = some out) : WellFormed out := by
  obtain ⟨op, hop, h⟩ := Option.bind_eq_some_iff.mp h
  cases p with
  | nil => simp [fklGetOpcodeModeLen_eq] at h
  | cons l p =>
    obtain rfl : [{ l with ins := ins 0 }] = out := by simpa [fklGetOpcodeModeLen_eq] using h
    exact wellFormed_singleton hop

theorem withFirstIndex_wellFormed {op : FklOpcode} {p out : List FklInsLn}
    (h : withFirstIndex op p = some out) : WellFormed out := by
  obtain ⟨⟨_, ins⟩, -, h⟩ := Option.bind_eq_some_iff.mp h
  obtain ⟨⟨_, arg⟩, -, h⟩ := Option.bind_eq_some_iff.mp h
  obtain ⟨⟨_, ins'⟩, -, h⟩ := Option.bind_eq_some_iff.mp h
  exact setInsToInsln_wellFormed h

theorem keepFirst_wellFormed {p out : List FklInsLn} (hp : WellFormed p)
    (h : keepFirst p = some out) : WellFormed out := by
  obtain ⟨i0, hi0, h⟩ := Option.bind_eq_some_iff.mp h
  obtain rfl : [i0] = out := Option.some.inj h
  intro l hl
  rw [List.mem_singleton.mp hl]
  exact hp i0 (List.mem_of_mem_head? hi0)

/-- The rules write opcodes only. -/
theorem output_wellFormed {o : PeepholeOptimizer} (ho : o ∈ localOptimizers) {p out : List FklInsLn}
    (hp : WellFormed p) (h : o.output p = some out) : WellFormed out := by
  simp only [localOptimizers, List.mem_cons, List.not_mem_nil, or_false] at ho
  rcases ho with rfl | rfl | rfl | rfl | rfl | rfl | rfl | rfl
  case inl | inr.inr.inr.inr.inr.inl => exact keepFirst_wellFormed hp h
  case inr.inr.inl | inr.inr.inr.inl => exact withFirstIndex_wellFormed h
  case inr.inl | inr.inr.inr.inr.inl =>
    rcases p with _ | ⟨i0, _ | ⟨i1, rest⟩⟩
    case cons.cons =>
      rw [← Option.some.inj h]
      exact wellFormed_singleton (by simp [makeInsIsA, makeInsI, FklIns.setSA]; rfl)
    all_goals cases h
  all_goals
    cases p with
    | nil => cases h
    | cons i0 rest =>
      rw [← Option.some.inj h]
      exact wellFormed_singleton (by simp [makeInsIuC, makeInsI]; rfl)

/-- However often the rules rewrite well-formed code, it computes the same. -/
theorem localOptimizers_run {buf buf' : List FklInsLn} (hbuf : WellFormed buf)
    (h : Relation.ReflTransGen (Rewrites localOptimizers) buf buf') :
    WellFormed buf' ∧ ∀ (D : Type) [Binary64 D] (f : VMframe D) (s : VMstate D),
      execAll f (insOf (liveCode buf')) s = execAll f (insOf (liveCode buf)) s := by
  induction h with
  | refl => exact ⟨hbuf, fun _ _ _ _ => rfl⟩
  | tail _ hstep ih =>
    obtain ⟨hmid, heq⟩ := ih
    refine ⟨hstep.wellFormed hmid fun _ ho _ _ => output_wellFormed ho, fun D _ f s => ?_⟩
    rw [hstep.execAll_eq hmid (fun _ ho _ hp => sound_of_mem_localOptimizers hp ho) f s, heq]

/-- Every rule on local variables, `NOT` and constants is sound at every position of
well-formed code, and so is any number of their rewrites. -/
theorem localOptimizers_sound {buf : List FklInsLn} (hbuf : WellFormed buf) :
    (∀ i, ∀ o ∈ localOptimizers, o.Sound (peepholeAt buf i)) ∧
    ∀ buf', Relation.ReflTransGen (Rewrites localOptimizers) buf buf' →
      WellFormed buf' ∧ ∀ (D : Type) [Binary64 D] (f : VMframe D) (s : VMstate D),
        execAll f (insOf (liveCode buf')) s = execAll f (insOf (liveCode buf)) s :=
  ⟨fun i _ ho => sound_of_mem_localOptimizers (hbuf.peepholeAt i) ho,
    fun _ h => localOptimizers_run hbuf h⟩

theorem localOptimizers_sound_getPut :
    movLoc.Sound (peepholeAt [bareLine (makeInsIuC .getLoc 3), bareLine (makeInsIuC .putLoc 300)]
      0) :=
  (localOptimizers_sound (by
    intro l hl
    simp only [List.mem_cons, List.not_mem_nil, or_false] at hl
    rcases hl with rfl | rfl <;> simp [bareLine, makeInsIuC, makeInsI])).1 0 movLoc
      (by simp [localOptimizers])

end FakeLisp
