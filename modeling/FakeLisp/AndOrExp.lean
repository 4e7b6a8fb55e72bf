import FakeLisp.JmpBack
import FakeLisp.SequenceExp

/-! `and` and `or`. The code is made from the back: each jump leads over all that is behind it, to
the end of the code. -/

namespace FakeLisp

variable {D W : Type} [Binary64 D]

/-- `append_jmp_ins` with `INS_APPEND_FRONT`. -/
def appendJmpInsFront (bcl : List FklIns) (len : Int) (condition : JmpInsCondition)
    (orien : JmpInsOrientation) : Option (List FklIns) :=
  (appendJmpIns [] len condition orien).map (· ++ bcl)

/-- A round of the loops: the last code left of the vector is put before `retval`. -/
def shortRound (condition : JmpInsCondition) (cur retval : List FklIns) : Option (List FklIns) := do
  let retval ←
    if retval.length ≠ 0 then
      let rco := dropIns :: retval
      appendJmpInsFront rco rco.length condition .forward
    else some retval
  some (cur ++ retval)

def andExpBcProcess (bclVec : List (List FklIns)) : Option (List FklIns) :=
  if bclVec.length ≠ 0 then bclVec.foldrM (shortRound .ifFalse) []
  else some [makeInsI .push1]

def orExpBcProcess (bclVec : List (List FklIns)) : Option (List FklIns) :=
  if bclVec.length ≠ 0 then bclVec.foldrM (shortRound .ifTrue) []
  else some [makeInsI .pushNil]

/-! ## What they are for -/

/-- The codes run from left to right; the first one that leaves a value with `stop` is the last one
to run. Without any code the value is `unit`. -/
inductive ShortEval (f : VMframe D) (prim : FklIns → VMstate D × W → Option (VMstate D × W))
    (stop : VMword D → Bool) (unit : VMword D) :
    List (List FklIns) → VMstate D × W → VMstate D × W → Prop where
  | nil (s : VMstate D × W) : ShortEval f prim stop unit [] s (s.1.push unit, s.2)
  | last (c : List FklIns) (s t : VMstate D × W) (w : VMword D)
      (hc : Evals (execCode f prim) c s t) (hw : LeavesOne w s t) : ShortEval f prim stop unit [c] s t
  | stop (c d : List FklIns) (cs : List (List FklIns)) (s t : VMstate D × W) (w : VMword D)
      (hc : Evals (execCode f prim) c s t) (hw : LeavesOne w s t) (hstop : stop w = true) :
      ShortEval f prim stop unit (c :: d :: cs) s t
  | next (c d : List FklIns) (cs : List (List FklIns)) (s t u : VMstate D × W) (w : VMword D)
      (hc : Evals (execCode f prim) c s t) (hw : LeavesOne w s t) (hstop : stop w = false)
      (hrest : ShortEval f prim stop unit (d :: cs) (dropTop t) u) :
      ShortEval f prim stop unit (c :: d :: cs) s u

/-- How many words the codes take, each with two more behind it. -/
def codesLength (codes : List (List FklIns)) : Nat := (codes.map fun c => c.length + 2).sum

/-- The code does what the codes are put together for, and the jump behind each code but the last
one leads to its end. -/
structure ShortRight (f : VMframe D) (prim : FklIns → VMstate D × W → Option (VMstate D × W))
    (stop : VMword D → Bool) (unit : VMword D) (op : FklOpcode) (codes : List (List FklIns))
    (code : List FklIns) : Prop where
  leaves : ∀ s t, ShortEval f prim stop unit codes s t → ∃ w, LeavesOne w s t
  runs : ∀ s t, ShortEval f prim stop unit codes s t → Evals (execCode f prim) code s t
  jumps : ∀ pre c post, codes = pre ++ c :: post → post ≠ [] →
    (code[codesLength pre + c.length]?).bind FklIns.op = some op ∧
      jmpTarget code (codesLength pre + c.length) = some (code.length : Int)

/-! ## The code that is made -/

/-- Between two codes stand a jump to the end and a `DROP`. -/
inductive ShortCode (op : FklOpcode) : List (List FklIns) → List FklIns → Prop where
  | one (c : List FklIns) : ShortCode op [c] c
  | cons (c : List FklIns) (cs : List (List FklIns)) (jmp : FklIns) (code : List FklIns)
      (hop : jmp.op = some op) (hsC : jmp.sC = (dropIns :: code).length) (h : ShortCode op cs code) :
      ShortCode op (c :: cs) (c ++ jmp :: dropIns :: code)

variable {f : VMframe D} {prim : FklIns → VMstate D × W → Option (VMstate D × W)}
  {stop : VMword D → Bool} {unit : VMword D} {op : FklOpcode} {codes : List (List FklIns)}
  {code : List FklIns} {s t : VMstate D × W}

theorem ShortCode.length (h : ShortCode op codes code) : code.length + 2 = codesLength codes := by
  induction h with
  | one c => simp [codesLength]
  | cons c cs jmp code hop hsC h ih =>
    rw [codesLength, List.map_cons, List.sum_cons, ← codesLength, ← ih]
    simp only [List.length_append, List.length_cons]
    omega

theorem shortCode_made (condition : JmpInsCondition) (hne : codes ≠ []) (hcodes : ∀ c ∈ codes, c ≠ [])
    (hroom : (codesLength codes.tail : Int) ≤ i24Max + 1) :
    ∃ code, codes.foldrM (shortRound condition) [] = some code ∧ code ≠ [] ∧
      ShortCode condition.op codes code := by
  induction codes with
  | nil => exact absurd rfl hne
  | cons c codes ih =>
    obtain ⟨hc, hcodes⟩ := List.forall_mem_cons.mp hcodes
    rw [List.tail_cons] at hroom
    rw [List.foldrM_cons]
    by_cases hlast : codes = []
    · subst hlast
      refine ⟨c, ?_, hc, .one c⟩
      simp [shortRound]
    · have htail : codesLength codes.tail ≤ codesLength codes := by
        obtain ⟨d, ds, rfl⟩ := List.exists_cons_of_ne_nil hlast
        rw [codesLength, codesLength, List.tail_cons, List.map_cons, List.sum_cons]
        exact Nat.le_add_left _ _
      obtain ⟨code, hmade, hcode, hshort⟩ := ih hlast hcodes (by omega)
      have hlen := hshort.length
      have hfield : InField 23 ((dropIns :: code).length : Nat) := by
        refine inField_iff.mp ⟨?_, ?_⟩
        · unfold i24Min
          omega
        · rw [List.length_cons]
          push_cast
          omega
      obtain ⟨jmp, hjmp, hop, hsC⟩ : ∃ jmp : FklIns,
          appendJmpIns [] ((dropIns :: code).length : Nat) condition .forward = some ([] ++ [jmp]) ∧
            jmp.op = some condition.op ∧ jmp.sC = ((dropIns :: code).length : Nat) :=
        append_forward hfield
      have hpos : code.length ≠ 0 := fun hzero => hcode (List.length_eq_zero_iff.mp hzero)
      refine ⟨c ++ jmp :: dropIns :: code, ?_, by simp, .cons c codes jmp code hop hsC hshort⟩
      rw [hmade, Option.bind_eq_bind, Option.bind_some, shortRound, if_pos hpos]
      dsimp only
      rw [appendJmpInsFront, hjmp]
      rfl

theorem ShortEval.leaves (h : ShortEval f prim stop unit codes s t) : ∃ w, LeavesOne w s t := by
  induction h with
  | nil s => exact ⟨unit, rfl⟩
  | last c s t w hc hw => exact ⟨w, hw⟩
  | stop c d cs s t w hc hw hstop => exact ⟨w, hw⟩
  | next c d cs s t u w hc hw hstop hrest ih =>
    obtain ⟨v, hv⟩ := ih
    refine ⟨v, ?_⟩
    rw [LeavesOne, hv, hw.dropTop]

/-- The run of the code follows the runs of the codes. -/
theorem ShortCode.evals (h : ShortCode op codes code)
    (hjmp : ∀ (jmp : FklIns) (s t : VMstate D × W) (w : VMword D), jmp.op = some op → LeavesOne w s t →
      execCode f prim jmp t = some (if stop w then jmp.sC else 0, t))
    (hrun : ShortEval f prim stop unit codes s t) : Evals (execCode f prim) code s t := by
  induction h generalizing s with
  | one c =>
    cases hrun with
    | last c s t w hc hw => exact hc
  | cons c cs jmp code hop hsC h ih =>
    cases hrun with
    | last c s t w hc hw => cases h
    | stop c d cs s t w hc hw hstop =>
      have htaken := hjmp jmp s t w hop hw
      rw [if_pos hstop, hsC] at htaken
      exact hc.append (Evals.jump htaken)
    | next c d cs s t u w hc hw hstop hrest =>
      have hpassed := hjmp jmp s t w hop hw
      rw [hstop, if_neg Bool.false_ne_true] at hpassed
      have hdrop := (evals_drop t).append (ih hrest)
      exact hc.append ((Evals.one hpassed).append hdrop)

/-- The jump behind a code that is not the last one. -/
theorem ShortCode.jump (h : ShortCode op codes code) {pre post : List (List FklIns)}
    {c : List FklIns} (hcodes : codes = pre ++ c :: post) (hpost : post ≠ []) :
    ∃ jmp : FklIns, code[codesLength pre + c.length]? = some jmp ∧ jmp.op = some op ∧
      ((codesLength pre + c.length : Nat) : Int) + 1 + jmp.sC = code.length := by
  induction h generalizing pre with
  | one c₁ =>
    cases pre with
    | nil => exact absurd (List.cons.inj hcodes).2.symm hpost
    | cons d pre => simp at hcodes
  | cons c₁ cs jmp code hop hsC h ih =>
    cases pre with
    | nil =>
      obtain ⟨rfl, rfl⟩ := List.cons.inj hcodes
      refine ⟨jmp, by simp [codesLength], hop, ?_⟩
      rw [hsC]
      simp [codesLength]
      omega
    | cons d pre =>
      obtain ⟨rfl, hcs⟩ := List.cons.inj hcodes
      obtain ⟨jmp', hget, hop', htarget⟩ := ih hcs
      have hplace : codesLength (c₁ :: pre) + c.length =
          c₁.length + ((codesLength pre + c.length) + 1 + 1) := by
        rw [codesLength, List.map_cons, List.sum_cons, ← codesLength]
        omega
      refine ⟨jmp', ?_, hop', ?_⟩
      · rw [hplace, List.getElem?_append_right (Nat.le_add_right _ _), Nat.add_sub_cancel_left,
          List.getElem?_cons_succ, List.getElem?_cons_succ]
        exact hget
      · rw [hplace]
        simp only [List.length_append, List.length_cons]
        push_cast at htarget ⊢
        omega

theorem shortRight_of_code (h : ShortCode op codes code)
    (hjmp : ∀ (jmp : FklIns) (s t : VMstate D × W) (w : VMword D), jmp.op = some op → LeavesOne w s t →
      execCode f prim jmp t = some (if stop w then jmp.sC else 0, t)) :
    ShortRight f prim stop unit op codes code where
  leaves s t hrun := hrun.leaves
  runs s t hrun := h.evals hjmp hrun
  jumps pre c post hcodes hpost := by
    obtain ⟨jmp, hget, hop, htarget⟩ := h.jump hcodes hpost
    rw [jmpTarget, hget, Option.bind_some, Option.map_some]
    exact ⟨hop, congrArg some htarget⟩

/-- Without any code a value is pushed. -/
theorem shortRight_nil {ins : FklIns}
    (h : ∀ s : VMstate D × W, execCode f prim ins s = some (0, (s.1.push unit, s.2))) :
    ShortRight f prim stop unit op [] [ins] where
  leaves s t hrun := hrun.leaves
  runs s t hrun := by
    cases hrun
    exact Evals.one (h s)
  jumps pre c post hcodes hpost := by simp at hcodes

theorem andExp_right (f : VMframe D) (prim : FklIns → VMstate D × W → Option (VMstate D × W))
    (hcodes : ∀ c ∈ codes, c ≠ []) (hroom : (codesLength codes.tail : Int) ≤ i24Max + 1) :
    ∃ code, andExpBcProcess codes = some code ∧
      ShortRight f prim VMword.isNil (.fix 1) .jmpIfFalse codes code := by
  by_cases hne : codes = []
  · subst hne
    refine ⟨[makeInsI .push1], rfl, shortRight_nil ?_⟩
    intro s
    have hop : (makeInsI .push1).op = some .push1 := by decide
    simp only [execCode, hop, execIns]
  · obtain ⟨code, hmade, -, hshort⟩ := shortCode_made .ifFalse hne hcodes hroom
    have hlen : codes.length ≠ 0 := fun hzero => hne (List.length_eq_zero_iff.mp hzero)
    refine ⟨code, by rw [andExpBcProcess, if_pos hlen, hmade], shortRight_of_code hshort ?_⟩
    intro jmp s t w hop hw
    have hop' : jmp.op = some .jmpIfFalse := hop
    simp only [execCode, hop', jumpIf]
    rw [hw]

theorem orExp_right (f : VMframe D) (prim : FklIns → VMstate D × W → Option (VMstate D × W))
    (hcodes : ∀ c ∈ codes, c ≠ []) (hroom : (codesLength codes.tail : Int) ≤ i24Max + 1) :
    ∃ code, orExpBcProcess codes = some code ∧
      ShortRight f prim (fun w => !w.isNil) .nil .jmpIfTrue codes code := by
  by_cases hne : codes = []
  · subst hne
    refine ⟨[makeInsI .pushNil], rfl, shortRight_nil ?_⟩
    intro s
    have hop : (makeInsI .pushNil).op = some .pushNil := by decide
    simp only [execCode, hop, execIns]
  · obtain ⟨code, hmade, -, hshort⟩ := shortCode_made .ifTrue hne hcodes hroom
    have hlen : codes.length ≠ 0 := fun hzero => hne (List.length_eq_zero_iff.mp hzero)
    refine ⟨code, by rw [orExpBcProcess, if_pos hlen, hmade], shortRight_of_code hshort ?_⟩
    intro jmp s t w hop hw
    have hop' : jmp.op = some .jmpIfTrue := hop
    simp only [execCode, hop', jumpIf]
    rw [hw]

/-- A code that leaves a value is not empty; the first jump, the longest one, has 24 bits. -/
theorem shortCircuit_right (f : VMframe D) (prim : FklIns → VMstate D × W → Option (VMstate D × W))
    (codes : List (List FklIns)) (hcodes : ∀ c ∈ codes, c ≠ [])
    (hroom : (codesLength codes.tail : Int) ≤ i24Max + 1) :
    (∃ code, andExpBcProcess codes = some code ∧
      ShortRight f prim VMword.isNil (.fix 1) .jmpIfFalse codes code) ∧
    ∃ code, orExpBcProcess codes = some code ∧
      ShortRight f prim (fun w => !w.isNil) .nil .jmpIfTrue codes code :=
  ⟨andExp_right f prim hcodes hroom, orExp_right f prim hcodes hroom⟩

/-- Three codes. -/
theorem shortCircuit_right_three :
    let codes := [[makeInsI .push1], [makeInsI .pushNil], [makeInsI .push0]]
    (∃ code, andExpBcProcess codes = some code ∧
      ShortRight bareFrame (fun _ (_ : VMstate Rat × Unit) => none) VMword.isNil (.fix 1) .jmpIfFalse
        codes code) ∧
    ∃ code, orExpBcProcess codes = some code ∧
      ShortRight bareFrame (fun _ (_ : VMstate Rat × Unit) => none) (fun w => !w.isNil) .nil .jmpIfTrue
        codes code :=
  shortCircuit_right bareFrame _ _ (by decide) (by decide)

end FakeLisp
