import FakeLisp.RunCode
import FakeLisp.VMExec

/-! Sequences of expressions, and the bodies of procedures. The values between are dropped by an
instruction behind each code but the last one of the list, whether it is empty or not. -/

namespace FakeLisp

variable {D W : Type} [Binary64 D]

/-! ## Code in a frame -/

/-- A jump that looks at the top of the stack. -/
def jumpIf (taken : VMword D → Bool) (d : Int) (s : VMstate D × W) :
    Option (Int × (VMstate D × W)) :=
  match s.1.stack with
  | [] => none
  | w :: _ => some (if taken w then d else 0, s)

/-- A return that looks at the top of the stack; there is no next instruction when it is taken. -/
def retIf (taken : VMword D → Bool) (s : VMstate D × W) : Option (Int × (VMstate D × W)) :=
  match s.1.stack with
  | [] => none
  | w :: _ => if taken w then none else some (0, s)

/-- One instruction. The world `W` and what `prim` says are for those that have no model of their
own, calls among them until they have returned. -/
def execCode (f : VMframe D) (prim : FklIns → VMstate D × W → Option (VMstate D × W)) (ins : FklIns)
    (s : VMstate D × W) : Option (Int × (VMstate D × W)) :=
  match ins.op with
  | some .jmp => some (ins.sC, s)
  | some .jmpIfTrue => jumpIf (fun w => !w.isNil) ins.sC s
  | some .jmpIfFalse => jumpIf VMword.isNil ins.sC s
  | some .retIfTrue => retIf (fun w => !w.isNil) s
  | some .retIfFalse => retIf VMword.isNil s
  | some .ret | some .tailCall => none
  | _ =>
    match execIns f ins s.1 with
    | .ok t => some (0, (t, s.2))
    | .error .notModelled => (prim ins s).map fun t => (0, t)
    | .error _ => none

/-- `DROP` of one value. -/
def dropTop (s : VMstate D × W) : VMstate D × W := (s.1.pop, s.2)

/-- One more value is on the stack. -/
def LeavesOne (w : VMword D) (s t : VMstate D × W) : Prop := t.1.stack = w :: s.1.stack

def dropIns : FklIns := makeInsI .drop

variable {f : VMframe D} {prim : FklIns → VMstate D × W → Option (VMstate D × W)}
  {s t u : VMstate D × W} {w : VMword D} {c : List FklIns} {codes : List (List FklIns)}

theorem execCode_drop (s : VMstate D × W) : execCode f prim dropIns s = some (0, dropTop s) := by
  have hop : dropIns.op = some .drop := by decide
  have hsA : dropIns.sA = 0 := by decide
  simp only [execCode, hop, execIns, hsA, execDrop, if_true, dropTop]

theorem evals_drop (s : VMstate D × W) : Evals (execCode f prim) [dropIns] s (dropTop s) :=
  Evals.one (execCode_drop s)

omit [Binary64 D] in
theorem LeavesOne.dropTop (h : LeavesOne w s t) : (dropTop t).1.stack = s.1.stack := by
  rw [FakeLisp.dropTop, VMstate.stack_pop, h, List.tail_cons]

/-- A code that leaves one more value is not empty. -/
theorem LeavesOne.ne_nil (h : LeavesOne w s t) (hc : Evals (execCode f prim) c s t) : c ≠ [] := by
  rintro rfl
  obtain rfl := hc.unique (Evals.nil s)
  exact List.cons_ne_self _ _ h.symm

/-! ## The two loops -/

/-- The codes from the place `i` of a list of `top` ones are put behind `rco`. -/
def concatCodes (top : Nat) : Nat → List (List FklIns) → List FklIns → List FklIns
  | _, [], rco => rco
  | i, cur :: stack, rco =>
    if cur.length ≠ 0 then
      concatCodes top (i + 1) stack (if i < top - 1 then rco ++ cur ++ [dropIns] else rco ++ cur)
    else concatCodes top (i + 1) stack rco

def sequnceExpBcProcess (stack : List (List FklIns)) : List FklIns :=
  if stack.length ≠ 0 then concatCodes stack.length 0 stack [] else [makeInsI .pushNil]

/-- The code of a procedure: the code for the parameters, the first one of the list, and those of
the body behind it. -/
def lambdaExpBcProcess (argsBc : List FklIns) (body : List (List FklIns)) : List FklIns :=
  let retval :=
    if (argsBc :: body).length > 1 then
      concatCodes (argsBc :: body).length 1 body [] ++ [makeInsI .ret]
    else [makeInsI .pushNil, makeInsI .ret]
  argsBc ++ retval

/-- What the loops make of the codes. -/
def seqCode : List (List FklIns) → List FklIns
  | [] => []
  | cur :: stack =>
    (if cur = [] then [] else if stack = [] then cur else cur ++ [dropIns]) ++ seqCode stack

theorem concatCodes_eq (codes : List (List FklIns)) (i : Nat) (rco : List FklIns) :
    concatCodes (i + codes.length) i codes rco = rco ++ seqCode codes := by
  induction codes generalizing i rco with
  | nil => simp [concatCodes, seqCode]
  | cons cur codes ih =>
    have hnext : i + (cur :: codes).length = i + 1 + codes.length := by
      rw [List.length_cons]
      omega
    rw [concatCodes, seqCode]
    by_cases hcur : cur = []
    · have hlen : ¬cur.length ≠ 0 := not_not.mpr (List.length_eq_zero_iff.mpr hcur)
      rw [if_neg hlen, if_pos hcur, hnext, ih, List.nil_append]
    · have hlen : cur.length ≠ 0 := fun h => hcur (List.length_eq_zero_iff.mp h)
      rw [if_pos hlen, if_neg hcur, hnext, ih]
      by_cases hcodes : codes = []
      · subst hcodes
        simp [seqCode]
      · have hpos := List.length_pos_iff.mpr hcodes
        rw [if_pos (by omega), if_neg hcodes]
        simp

theorem sequnceExpBcProcess_eq (h : codes ≠ []) : sequnceExpBcProcess codes = seqCode codes := by
  have hlen : codes.length ≠ 0 := fun hzero => h (List.length_eq_zero_iff.mp hzero)
  have hloop := concatCodes_eq codes 0 []
  rw [Nat.zero_add, List.nil_append] at hloop
  rw [sequnceExpBcProcess, if_pos hlen, hloop]

theorem lambdaExpBcProcess_eq (argsBc : List FklIns) (h : codes ≠ []) :
    lambdaExpBcProcess argsBc codes = argsBc ++ seqCode codes ++ [makeInsI .ret] := by
  have hpos := List.length_pos_iff.mpr h
  have hlen : (argsBc :: codes).length > 1 := by
    rw [List.length_cons]
    omega
  have hloop := concatCodes_eq codes 1 []
  rw [List.nil_append] at hloop
  rw [lambdaExpBcProcess, if_pos hlen, List.length_cons, Nat.add_comm, hloop, List.append_assoc]

/-! ## What a sequence is for -/

/-- The codes that are not empty run in order, each leaves one more value, and all of these but the
last one are gone. -/
inductive SeqEval (f : VMframe D) (prim : FklIns → VMstate D × W → Option (VMstate D × W)) :
    List (List FklIns) → VMstate D × W → VMstate D × W → Prop where
  | skip (cs : List (List FklIns)) (s t : VMstate D × W) (h : SeqEval f prim cs s t) :
      SeqEval f prim ([] :: cs) s t
  | last (c : List FklIns) (cs : List (List FklIns)) (s t : VMstate D × W) (w : VMword D)
      (hc : Evals (execCode f prim) c s t) (hw : LeavesOne w s t) (hrest : ∀ d ∈ cs, d = []) :
      SeqEval f prim (c :: cs) s t
  | next (c : List FklIns) (cs : List (List FklIns)) (s t u : VMstate D × W) (w : VMword D)
      (hc : Evals (execCode f prim) c s t) (hw : LeavesOne w s t)
      (hrest : SeqEval f prim cs (dropTop t) u) : SeqEval f prim (c :: cs) s u

theorem SeqEval.ne_nil (h : SeqEval f prim codes s t) : codes ≠ [] := by
  cases h <;> exact List.cons_ne_nil _ _

theorem SeqEval.leaves (h : SeqEval f prim codes s t) : ∃ w, LeavesOne w s t := by
  induction h with
  | skip cs s t h ih => exact ih
  | last c cs s t w hc hw hrest => exact ⟨w, hw⟩
  | next c cs s t u w hc hw hrest ih =>
    obtain ⟨v, hv⟩ := ih
    refine ⟨v, ?_⟩
    rw [LeavesOne, hv, hw.dropTop]

theorem seqCode_empty (h : ∀ d ∈ codes, d = []) : seqCode codes = [] := by
  induction codes with
  | nil => rfl
  | cons c codes ih =>
    rw [List.forall_mem_cons] at h
    rw [seqCode, if_pos h.1, ih h.2, List.nil_append]

theorem getLast?_empty (h : ∀ d ∈ codes, d = []) (hne : codes ≠ []) : codes.getLast? = some [] := by
  rw [List.getLast?_eq_some_getLast hne, h _ (List.getLast_mem hne)]

/-- The code leaves the value of the last one that is not empty, and drops it again when there is an
empty one behind. -/
theorem SeqEval.evals (h : SeqEval f prim codes s t) :
    Evals (execCode f prim) (seqCode codes) s
      (if codes.getLast? = some [] then dropTop t else t) := by
  induction h with
  | skip cs s t h ih =>
    obtain ⟨d, cs, rfl⟩ := List.exists_cons_of_ne_nil h.ne_nil
    rw [seqCode, if_pos rfl, List.nil_append, List.getLast?_cons_cons]
    exact ih
  | last c cs s t w hc hw hrest =>
    have hne := hw.ne_nil hc
    rw [seqCode, if_neg hne, seqCode_empty hrest, List.append_nil]
    by_cases hcs : cs = []
    · subst hcs
      have hlast : [c].getLast? ≠ some [] := fun heq => hne (Option.some.inj heq)
      rw [if_pos rfl, if_neg hlast]
      exact hc
    · obtain ⟨d, cs, rfl⟩ := List.exists_cons_of_ne_nil hcs
      rw [if_neg hcs, List.getLast?_cons_cons, if_pos (getLast?_empty hrest hcs)]
      exact hc.append (evals_drop t)
  | next c cs s t u w hc hw hrest ih =>
    have hcodes := hrest.ne_nil
    obtain ⟨d, rest, rfl⟩ := List.exists_cons_of_ne_nil hcodes
    rw [seqCode, if_neg (hw.ne_nil hc), if_neg hcodes, List.getLast?_cons_cons]
    exact (hc.append (evals_drop t)).append ih

/-- Both codes leave what the sequence is for; the procedure comes to its `RET` with nothing else. -/
structure SequenceRight (f : VMframe D) (prim : FklIns → VMstate D × W → Option (VMstate D × W))
    (codes : List (List FklIns)) (s t : VMstate D × W) : Prop where
  leaves : ∃ w, LeavesOne w s t
  sequence : Evals (execCode f prim) (sequnceExpBcProcess codes) s t
  lambda : ∀ argsBc s₀, Evals (execCode f prim) argsBc s₀ s → ∀ u,
    Reaches (execCode f prim) (lambdaExpBcProcess argsBc codes) (0, s₀)
      ((lambdaExpBcProcess argsBc codes).length - 1, u) ↔ u = t

theorem execCode_ret (s : VMstate D × W) : execCode f prim (makeInsI .ret) s = none := by
  have hop : (makeInsI .ret).op = some .ret := by decide
  simp only [execCode, hop]

/-- The only state at the `RET` of a code is the one its body ends in. -/
theorem reaches_ret_iff (h : Evals (execCode f prim) c s t) :
    Reaches (execCode f prim) (c ++ [makeInsI .ret]) (0, s) ((c ++ [makeInsI .ret]).length - 1, u) ↔
      u = t := by
  have hlen : (c ++ [makeInsI .ret]).length - 1 = c.length := by simp
  have hrun := h.within [] [makeInsI .ret]
  rw [List.nil_append, List.length_nil, Nat.zero_add] at hrun
  have hstop : ∀ v, stepAt (execCode f prim) (c ++ [makeInsI .ret]) (c.length, v) = none := by
    intro v
    simp [stepAt, execCode_ret]
  rw [hlen]
  constructor
  · intro h'
    exact (Prod.mk.inj (h'.unique hrun (hstop u) (hstop t))).2
  · rintro rfl
    exact hrun

theorem sequenceRight_iff (h : SeqEval f prim codes s t) :
    SequenceRight f prim codes s t ↔ codes.getLast? ≠ some [] := by
  have hrun := h.evals
  constructor
  · rintro ⟨⟨w, hw⟩, hseq, -⟩ hlast
    rw [if_pos hlast] at hrun
    rw [sequnceExpBcProcess_eq h.ne_nil] at hseq
    have hstack := hw.dropTop
    rw [hrun.unique hseq, hw] at hstack
    exact List.cons_ne_self _ _ hstack
  · intro hlast
    rw [if_neg hlast] at hrun
    refine ⟨h.leaves, ?_, ?_⟩
    · rw [sequnceExpBcProcess_eq h.ne_nil]
      exact hrun
    · intro argsBc s₀ hargs u
      rw [lambdaExpBcProcess_eq argsBc h.ne_nil]
      exact reaches_ret_iff (hargs.append hrun)

/-- A frame without constants and closure variables. -/
def bareFrame : VMframe Rat where
  konsts := fun _ => .null
  konsts_ne_nil := nofun
  ref := fun _ => none
  sid := fun _ => .null

def bareState (stack : List (VMword Rat)) : VMstate Rat × Unit := (⟨stack, fun _ => .null⟩, ())

theorem evals_push1 (prim : FklIns → VMstate Rat × Unit → Option (VMstate Rat × Unit))
    (stack : List (VMword Rat)) : Evals (execCode bareFrame prim) [makeInsI .push1] (bareState stack)
      (bareState (.fix 1 :: stack)) := by
  have hop : (makeInsI .push1).op = some .push1 := by decide
  refine Evals.one ?_
  simp only [execCode, hop, execIns, bareState, VMstate.push]

/-- An empty code between two others. -/
theorem sequenceRight_between : SequenceRight bareFrame (fun _ _ => none)
    [[makeInsI .push1], [], [makeInsI .push1]] (bareState []) (bareState [.fix 1]) := by
  have hlast : SeqEval bareFrame (fun _ _ => none) [[makeInsI .push1]] (bareState [])
      (bareState [.fix 1]) :=
    .last _ _ _ _ (.fix 1) (evals_push1 _ _) rfl nofun
  refine (sequenceRight_iff ?_).mpr (by decide)
  exact .next _ _ _ _ _ (.fix 1) (evals_push1 _ _) rfl (.skip _ _ _ hlast)

/-- An empty code behind the other one. -/
theorem not_sequenceRight_behind :
    SeqEval bareFrame (fun _ _ => none) [[makeInsI .push1], []] (bareState [])
      (bareState [.fix 1]) ∧
    ¬SequenceRight bareFrame (fun _ _ => none) [[makeInsI .push1], []] (bareState [])
      (bareState [.fix 1]) := by
  have hrun : SeqEval bareFrame (fun _ _ => none) [[makeInsI .push1], []] (bareState [])
      (bareState [.fix 1]) :=
    .last _ _ _ _ (.fix 1) (evals_push1 _ _) rfl (by simp)
  refine ⟨hrun, ?_⟩
  rintro ⟨-, hseq, -⟩
  have hcode : sequnceExpBcProcess [[makeInsI .push1], []] = [makeInsI .push1, dropIns] := rfl
  have hdrop := (evals_push1 (fun _ _ => none) []).append (evals_drop (bareState [.fix 1]))
  rw [hcode] at hseq
  have hstack := congrArg (fun s : VMstate Rat × Unit => s.1.stack.length) (hseq.unique hdrop)
  revert hstack
  decide

end FakeLisp
