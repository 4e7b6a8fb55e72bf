import FakeLisp.AndOrExp

/-! The other forms that choose: `if`, `when`, `unless`, `cond` and `do` without variables. Their
codes are put together from the codes of the parts, in the order in which these were left. -/

namespace FakeLisp

variable {D W : Type} [Binary64 D]

/-- The codes of a body, each with a `DROP` before it. -/
def dropCodes (co : List FklIns) (codes : List (List FklIns)) : List FklIns :=
  codes.foldl (fun co cur => co ++ dropIns :: cur) co

/-- The last code is that of the expression, the one before it that of the condition. -/
def ifExpBcProcess0 (bclVec : List (List FklIns)) : Option (List FklIns) :=
  match bclVec.reverse with
  | exp :: cond :: _ => do
    let exp := dropIns :: exp
    let cond ← appendJmpIns cond exp.length .ifFalse .forward
    some (cond ++ exp)
  | [exp] => some exp
  | [] => some [makeInsI .pushNil]

def ifExpBcProcess1 (bclVec : List (List FklIns)) : Option (List FklIns) :=
  match bclVec.reverse with
  | exp0 :: cond :: exp1 :: _ => do
    let exp0 := dropIns :: exp0
    let exp1 := dropIns :: exp1
    let exp0 ← appendJmpIns exp0 exp1.length .uncond .forward
    let cond ← appendJmpIns cond exp0.length .ifFalse .forward
    some (cond ++ exp0 ++ exp1)
  | exp0 :: cond :: _ => do
    let exp0 := dropIns :: exp0
    let cond ← appendJmpIns cond exp0.length .ifFalse .forward
    some (cond ++ exp0)
  | [exp0] => some exp0
  | [] => some [makeInsI .pushNil]

/-- `closeRef` is what `check_and_close_ref` appends. -/
def guardExpBcProcess (condition : JmpInsCondition) (closeRef : List FklIns) :
    List (List FklIns) → Option (List FklIns)
  | cond :: rest => do
    let retval := dropCodes [] rest
    let retval ←
      if retval.length ≠ 0 then appendJmpInsFront retval retval.length condition .forward
      else some retval
    some (cond ++ retval ++ closeRef)
  | [] => some [makeInsI .pushNil]

def whenExpBcProcess : List FklIns → List (List FklIns) → Option (List FklIns) :=
  guardExpBcProcess .ifFalse

def unlessExpBcProcess : List FklIns → List (List FklIns) → Option (List FklIns) :=
  guardExpBcProcess .ifTrue

def isConstTrueOp : FklOpcode → Bool
  | .setBp | .push0 | .push1 | .pushI8 | .pushI16 | .pushI24 | .pushChar | .pushConst | .pushPair
  | .pushList0 | .pushVec0 | .pushHasheq0 | .pushHasheqv0 | .pushHashequal0 | .true
  | .extraArg => true
  | _ => false

def isConstTrueBytecodeLnt (code : List FklIns) : Bool :=
  code.all fun ins => (ins.op.map isConstTrueOp).getD false

def condExpBcProcess0 (bclVec : List (List FklIns)) : List FklIns :=
  match bclVec.getLast? with
  | some retval => retval
  | none => [makeInsI .pushNil]

/-- The codes of a body, with a `DROP` between two. -/
def condBody : List (List FklIns) → List FklIns
  | [] => []
  | cur :: rest => dropCodes cur rest

/-- A clause with others behind it; the first code of the vector is theirs. -/
def condExpBcProcess1 (closeRef : List FklIns) : List (List FklIns) → Option (List FklIns)
  | prev :: first :: rest => do
    let prev := dropIns :: prev
    let trueBcl := isConstTrueBytecodeLnt first
    let body := condBody rest
    let retval := body ++ closeRef
    let retval ←
      if rest.length ≠ 0 then appendJmpIns retval prev.length .uncond .forward else some retval
    let retval ←
      if body.length ≠ 0 then
        if !trueBcl then do
          let co := dropIns :: retval
          let co ← appendJmpInsFront co co.length .ifFalse .forward
          some (first ++ co)
        else some retval
      else do
        let first ←
          appendJmpIns first prev.length (if trueBcl then .uncond else .ifTrue) .forward
        some (first ++ retval)
    some (retval ++ prev)
  | bclVec => bclVec.getLast?

/-- The last clause; without any code there is no result. -/
def condExpBcProcess2 : List (List FklIns) → Option (Option (List FklIns))
  | first :: rest => do
    let retval := condBody rest
    if retval.length ≠ 0 then
      if !isConstTrueBytecodeLnt first then do
        let co := dropIns :: retval
        let co ← appendJmpInsFront co co.length .ifFalse .forward
        some (some (first ++ co))
      else some (some retval)
    else some (some (first ++ retval))
  | [] => some none

/-- The loop that links the two jumps turns once. -/
def do0ExpBcProcess (bclVec : List (List FklIns)) : Option (List FklIns) :=
  match bclVec.reverse with
  | rest :: value :: cond :: _ => do
    let (cond, rest) ← insertJmpIfTrueAndJmpBackBetween 2 cond (dropIns :: rest)
    let cond := cond ++ rest
    let cond := if value.length ≠ 0 then cond ++ [dropIns] else cond
    some (cond ++ value)
  | _ => none

def doRestExpBcProcess (bclVec : List (List FklIns)) : List FklIns :=
  if bclVec.length ≠ 0 then sequnceExpBcProcess bclVec ++ [dropIns] else []

def localExpBcProcess (closeRef : List FklIns) (bclVec : List (List FklIns)) : List FklIns :=
  sequnceExpBcProcess bclVec ++ closeRef

/-! ## Jumps forward -/

def JmpInsCondition.taken : JmpInsCondition → VMword D → Bool
  | uncond, _ => true
  | ifTrue, w => !w.isNil
  | ifFalse, w => w.isNil

/-- The jump leads over the code behind it. -/
structure JumpsOver (condition : JmpInsCondition) (jmp : FklIns) (c : List FklIns) : Prop where
  op : jmp.op = some condition.op
  sC : jmp.sC = c.length

variable {f : VMframe D} {prim : FklIns → VMstate D × W → Option (VMstate D × W)}
  {condition : JmpInsCondition} {jmp : FklIns} {c d code : List FklIns}
  {codes : List (List FklIns)} {s t u : VMstate D × W} {w : VMword D}

theorem appendJmpIns_some {bc : List FklIns} {len : Int}
    (h : appendJmpIns bc len condition .forward = some code) :
    ∃ jmp : FklIns, code = bc ++ [jmp] ∧ jmp.op = some condition.op ∧ jmp.sC = len := by
  have hlen : InField 23 len := by
    by_contra hnot
    rw [appendJmpIns, if_neg (mt inField_iff.mp hnot)] at h
    cases h
  obtain ⟨jmp, hmade, hop, hsC⟩ := @append_forward bc _ condition hlen
  exact ⟨jmp, Option.some.inj (h.symm.trans hmade), hop, hsC⟩

theorem appendJmpIns_over (h : appendJmpIns c d.length condition .forward = some code) :
    ∃ jmp, code = c ++ [jmp] ∧ JumpsOver condition jmp d := by
  obtain ⟨jmp, rfl, hop, hsC⟩ := appendJmpIns_some h
  exact ⟨jmp, rfl, hop, hsC⟩

theorem appendJmpInsFront_over (h : appendJmpInsFront c c.length condition .forward = some code) :
    ∃ jmp, code = jmp :: c ∧ JumpsOver condition jmp c := by
  obtain ⟨front, hfront, rfl⟩ := Option.map_eq_some_iff.mp h
  obtain ⟨jmp, rfl, hjmp⟩ := appendJmpIns_over hfront
  exact ⟨jmp, rfl, hjmp⟩

theorem execCode_jmp (f : VMframe D) (prim : FklIns → VMstate D × W → Option (VMstate D × W))
    (hop : jmp.op = some condition.op) (hw : LeavesOne w s t) :
    execCode f prim jmp t = some (if condition.taken w then jmp.sC else 0, t) := by
  cases condition with
  | uncond =>
    have hop' : jmp.op = some .jmp := hop
    simp only [execCode, hop', JmpInsCondition.taken, if_true]
  | ifTrue =>
    have hop' : jmp.op = some .jmpIfTrue := hop
    simp only [execCode, hop', jumpIf, JmpInsCondition.taken]
    rw [hw]
    rfl
  | ifFalse =>
    have hop' : jmp.op = some .jmpIfFalse := hop
    simp only [execCode, hop', jumpIf, JmpInsCondition.taken]
    rw [hw]
    rfl

/-- The code that is jumped over leaves no trace. -/
theorem Evals.taken (hc : Evals (execCode f prim) c s t) (hw : LeavesOne w s t)
    (hjmp : JumpsOver condition jmp d) (htaken : condition.taken w = true) :
    Evals (execCode f prim) (c ++ jmp :: d) s t := by
  have hexec := execCode_jmp f prim hjmp.op hw
  rw [htaken, if_pos rfl, hjmp.sC] at hexec
  exact hc.append (Evals.jump hexec)

theorem Evals.passed (hc : Evals (execCode f prim) c s t) (hw : LeavesOne w s t)
    (hop : jmp.op = some condition.op) (hpassed : condition.taken w = false)
    (hd : Evals (execCode f prim) d t u) : Evals (execCode f prim) (c ++ jmp :: d) s u := by
  have hexec := execCode_jmp f prim hop hw
  rw [hpassed, if_neg Bool.false_ne_true] at hexec
  exact hc.append ((Evals.one hexec).append hd)

theorem Evals.afterDrop (h : Evals (execCode f prim) c (dropTop t) u) :
    Evals (execCode f prim) (dropIns :: c) t u :=
  (evals_drop t).append h

/-! ## Bodies -/

theorem dropCodes_append (co : List FklIns) (codes : List (List FklIns)) :
    dropCodes co codes = co ++ dropCodes [] codes := by
  induction codes generalizing co with
  | nil => exact (List.append_nil co).symm
  | cons cur codes ih =>
    have hfirst : dropCodes co (cur :: codes) = dropCodes (co ++ dropIns :: cur) codes := rfl
    have hnil : dropCodes [] (cur :: codes) = dropCodes (dropIns :: cur) codes := rfl
    rw [hfirst, hnil, ih, ih (dropIns :: cur), List.append_assoc]

theorem dropCodes_cons (d : List FklIns) (codes : List (List FklIns)) :
    dropCodes [] (d :: codes) = dropIns :: condBody (d :: codes) := by
  have hnil : dropCodes [] (d :: codes) = dropCodes (dropIns :: d) codes := rfl
  rw [hnil, dropCodes_append, condBody, dropCodes_append d]
  rfl

/-- The body of a form is a sequence. -/
theorem condBody_eq (h : ∀ c ∈ codes, c ≠ []) : condBody codes = seqCode codes := by
  induction codes with
  | nil => rfl
  | cons cur codes ih =>
    obtain ⟨hcur, hcodes⟩ := List.forall_mem_cons.mp h
    rw [condBody, dropCodes_append, seqCode, if_neg hcur, ← ih hcodes]
    cases codes with
    | nil => rw [if_pos rfl]; rfl
    | cons d codes => rw [if_neg (List.cons_ne_nil _ _), dropCodes_cons, List.append_assoc]; rfl

/-! ## The codes that are made -/

variable {first prev closeRef rest value : List FklIns}

theorem ifExp0_code (h : ifExpBcProcess0 [c, d] = some code) :
    ∃ jmp, code = c ++ jmp :: dropIns :: d ∧ JumpsOver .ifFalse jmp (dropIns :: d) := by
  rw [ifExpBcProcess0, List.reverse_cons] at h
  obtain ⟨cond, hcond, h⟩ := Option.bind_eq_some_iff.mp h
  obtain ⟨jmp, rfl, hjmp⟩ := appendJmpIns_over (d := dropIns :: d) hcond
  cases h
  exact ⟨jmp, List.append_assoc _ _ _, hjmp⟩

theorem ifExp1_code {exp1 : List FklIns} (h : ifExpBcProcess1 [exp1, c, d] = some code) :
    ∃ jmp out, code = c ++ jmp :: (dropIns :: d ++ [out]) ++ dropIns :: exp1 ∧
      JumpsOver .ifFalse jmp (dropIns :: d ++ [out]) ∧
      JumpsOver .uncond out (dropIns :: exp1) := by
  rw [ifExpBcProcess1, List.reverse_cons, List.reverse_cons] at h
  obtain ⟨exp0, hexp0, h⟩ := Option.bind_eq_some_iff.mp h
  obtain ⟨cond, hcond, h⟩ := Option.bind_eq_some_iff.mp h
  obtain ⟨out, rfl, hout⟩ := appendJmpIns_over (d := dropIns :: exp1) hexp0
  obtain ⟨jmp, rfl, hjmp⟩ := appendJmpIns_over (d := dropIns :: d ++ [out]) hcond
  cases h
  exact ⟨jmp, out, by simp, hjmp, hout⟩

theorem guardExp_nil (h : guardExpBcProcess condition closeRef [c] = some code) :
    code = c ++ closeRef := by
  cases h
  simp [dropCodes]

theorem guardExp_code (hne : codes ≠ []) (hcodes : ∀ c ∈ codes, c ≠ [])
    (h : guardExpBcProcess condition closeRef (c :: codes) = some code) :
    ∃ jmp, code = c ++ jmp :: dropIns :: seqCode codes ++ closeRef ∧
      JumpsOver condition jmp (dropIns :: seqCode codes) := by
  have hbody : dropCodes [] codes = dropIns :: seqCode codes := by
    obtain ⟨d, codes, rfl⟩ := List.exists_cons_of_ne_nil hne
    rw [dropCodes_cons, condBody_eq hcodes]
  have hlen : (dropIns :: seqCode codes).length ≠ 0 := Nat.succ_ne_zero _
  rw [guardExpBcProcess, hbody] at h
  dsimp only at h
  rw [if_pos hlen] at h
  obtain ⟨retval, hretval, h⟩ := Option.bind_eq_some_iff.mp h
  obtain ⟨jmp, rfl, hjmp⟩ := appendJmpInsFront_over (c := dropIns :: seqCode codes) hretval
  cases h
  exact ⟨jmp, rfl, hjmp⟩

theorem seqCode_ne_nil (hne : codes ≠ []) (hcodes : ∀ c ∈ codes, c ≠ []) : seqCode codes ≠ [] := by
  obtain ⟨d, codes, rfl⟩ := List.exists_cons_of_ne_nil hne
  have hd := hcodes d (List.mem_cons_self)
  rw [seqCode, if_neg hd]
  split_ifs <;> simp [hd]

/-- What a clause jumps with when it has only a test. -/
def testCondition (first : List FklIns) : JmpInsCondition :=
  if isConstTrueBytecodeLnt first then .uncond else .ifTrue

/-- The jump does not lead over what closes the references of the clause. -/
theorem condExp1_test (h : condExpBcProcess1 closeRef [prev, first] = some code) :
    ∃ jmp, code = first ++ jmp :: (closeRef ++ dropIns :: prev) ∧
      JumpsOver (testCondition first) jmp (dropIns :: prev) := by
  have hlen : ¬([] : List (List FklIns)).length ≠ 0 := fun hne => hne rfl
  have hbody : ¬(condBody []).length ≠ 0 := fun hne => hne rfl
  rw [condExpBcProcess1] at h
  dsimp only at h
  rw [if_neg hlen, Option.bind_eq_bind, Option.bind_some, if_neg hbody] at h
  obtain ⟨jumped, hjumped, h⟩ := Option.bind_eq_some_iff.mp h
  obtain ⟨jmp, rfl, hjmp⟩ := appendJmpIns_over (d := dropIns :: prev) hjumped
  obtain rfl := Option.some.inj h
  exact ⟨jmp, by simp [condBody], hjmp⟩

theorem condExp1_const (hconst : isConstTrueBytecodeLnt first = true) (hne : codes ≠ [])
    (hcodes : ∀ c ∈ codes, c ≠ [])
    (h : condExpBcProcess1 closeRef (prev :: first :: codes) = some code) :
    ∃ out, code = seqCode codes ++ closeRef ++ out :: dropIns :: prev ∧
      JumpsOver .uncond out (dropIns :: prev) := by
  have hlen : codes.length ≠ 0 := mt List.length_eq_zero_iff.mp hne
  have hbody : (seqCode codes).length ≠ 0 :=
    mt List.length_eq_zero_iff.mp (seqCode_ne_nil hne hcodes)
  rw [condExpBcProcess1, condBody_eq hcodes, hconst] at h
  dsimp only at h
  rw [if_pos hlen] at h
  obtain ⟨retval, hretval, h⟩ := Option.bind_eq_some_iff.mp h
  obtain ⟨out, rfl, hout⟩ := appendJmpIns_over (d := dropIns :: prev) hretval
  rw [if_pos hbody] at h
  cases h
  exact ⟨out, by simp, hout⟩

theorem condExp1_body (hconst : isConstTrueBytecodeLnt first = false) (hne : codes ≠ [])
    (hcodes : ∀ c ∈ codes, c ≠ [])
    (h : condExpBcProcess1 closeRef (prev :: first :: codes) = some code) :
    ∃ jmp out, code =
        first ++ jmp :: (dropIns :: (seqCode codes ++ closeRef ++ [out])) ++ dropIns :: prev ∧
      JumpsOver .ifFalse jmp (dropIns :: (seqCode codes ++ closeRef ++ [out])) ∧
      JumpsOver .uncond out (dropIns :: prev) := by
  have hlen : codes.length ≠ 0 := mt List.length_eq_zero_iff.mp hne
  have hbody : (seqCode codes).length ≠ 0 :=
    mt List.length_eq_zero_iff.mp (seqCode_ne_nil hne hcodes)
  rw [condExpBcProcess1, condBody_eq hcodes, hconst] at h
  dsimp only at h
  rw [if_pos hlen] at h
  obtain ⟨retval, hretval, h⟩ := Option.bind_eq_some_iff.mp h
  obtain ⟨out, rfl, hout⟩ := appendJmpIns_over (d := dropIns :: prev) hretval
  rw [if_pos hbody, Bool.not_false, if_pos rfl] at h
  obtain ⟨co, hco, h⟩ := Option.bind_eq_some_iff.mp h
  obtain ⟨jmp, rfl, hjmp⟩ := appendJmpInsFront_over
    (c := dropIns :: (seqCode codes ++ closeRef ++ [out])) hco
  cases h
  exact ⟨jmp, out, rfl, hjmp, hout⟩

theorem condExp2_test (h : condExpBcProcess2 [first] = some (some code)) : code = first := by
  cases h
  exact List.append_nil first

theorem condExp2_const (hconst : isConstTrueBytecodeLnt first = true) (hne : codes ≠ [])
    (hcodes : ∀ c ∈ codes, c ≠ [])
    (h : condExpBcProcess2 (first :: codes) = some (some code)) : code = seqCode codes := by
  have hbody : (seqCode codes).length ≠ 0 :=
    mt List.length_eq_zero_iff.mp (seqCode_ne_nil hne hcodes)
  rw [condExpBcProcess2, condBody_eq hcodes, hconst] at h
  dsimp only at h
  rw [if_pos hbody] at h
  cases h
  rfl

theorem condExp2_body (hconst : isConstTrueBytecodeLnt first = false) (hne : codes ≠ [])
    (hcodes : ∀ c ∈ codes, c ≠ [])
    (h : condExpBcProcess2 (first :: codes) = some (some code)) :
    ∃ jmp, code = first ++ jmp :: dropIns :: seqCode codes ∧
      JumpsOver .ifFalse jmp (dropIns :: seqCode codes) := by
  have hbody : (seqCode codes).length ≠ 0 :=
    mt List.length_eq_zero_iff.mp (seqCode_ne_nil hne hcodes)
  rw [condExpBcProcess2, condBody_eq hcodes, hconst] at h
  dsimp only at h
  rw [if_pos hbody, Bool.not_false, if_pos rfl] at h
  obtain ⟨co, hco, h⟩ := Option.bind_eq_some_iff.mp h
  obtain ⟨jmp, rfl, hjmp⟩ := appendJmpInsFront_over (c := dropIns :: seqCode codes) hco
  cases h
  exact ⟨jmp, rfl, hjmp⟩

theorem condExp1_ne_nil (hcodes : ∀ c ∈ codes, c ≠ [])
    (h : condExpBcProcess1 closeRef (prev :: first :: codes) = some code) : code ≠ [] := by
  by_cases hne : codes = []
  · subst hne
    obtain ⟨jmp, rfl, -⟩ := condExp1_test h
    simp
  · cases hconst : isConstTrueBytecodeLnt first with
    | true =>
      obtain ⟨out, rfl, -⟩ := condExp1_const hconst hne hcodes h
      simp
    | false =>
      obtain ⟨jmp, out, rfl, -⟩ := condExp1_body hconst hne hcodes h
      simp

theorem condExp2_isSome {out : Option (List FklIns)}
    (h : condExpBcProcess2 (first :: codes) = some out) : ∃ code, out = some code := by
  rw [condExpBcProcess2] at h
  dsimp only at h
  split_ifs at h
  · obtain ⟨co, -, h⟩ := Option.bind_eq_some_iff.mp h
    cases h
    exact ⟨_, rfl⟩
  all_goals
    cases h
    exact ⟨_, rfl⟩

theorem condExp2_ne_nil (hfirst : first ≠ []) (hcodes : ∀ c ∈ codes, c ≠ [])
    (h : condExpBcProcess2 (first :: codes) = some (some code)) : code ≠ [] := by
  by_cases hne : codes = []
  · subst hne
    rw [condExp2_test h]
    exact hfirst
  · cases hconst : isConstTrueBytecodeLnt first with
    | true =>
      rw [condExp2_const hconst hne hcodes h]
      exact seqCode_ne_nil hne hcodes
    | false =>
      obtain ⟨jmp, rfl, -⟩ := condExp2_body hconst hne hcodes h
      simp

/-! `and` and `or` once more, from the first code on. -/

theorem shortRound_code (hd : d ≠ []) (h : shortRound condition c d = some code) :
    ∃ jmp, code = c ++ jmp :: dropIns :: d ∧ JumpsOver condition jmp (dropIns :: d) := by
  have hlen : d.length ≠ 0 := mt List.length_eq_zero_iff.mp hd
  rw [shortRound, if_pos hlen] at h
  obtain ⟨retval, hretval, h⟩ := Option.bind_eq_some_iff.mp h
  obtain ⟨jmp, rfl, hjmp⟩ := appendJmpInsFront_over (c := dropIns :: d) hretval
  cases h
  exact ⟨jmp, rfl, hjmp⟩

theorem shortRound_nil : shortRound condition c [] = some c := by
  simp [shortRound]

theorem shortMade_ne_nil (hne : codes ≠ []) (hcodes : ∀ c ∈ codes, c ≠ [])
    (h : codes.foldrM (shortRound condition) [] = some code) : code ≠ [] := by
  obtain ⟨c, cs, rfl⟩ := List.exists_cons_of_ne_nil hne
  rw [List.foldrM_cons] at h
  obtain ⟨d, -, h⟩ := Option.bind_eq_some_iff.mp h
  by_cases hd : d = []
  · subst hd
    obtain rfl := Option.some.inj (shortRound_nil.symm.trans h)
    exact hcodes c List.mem_cons_self
  · obtain ⟨jmp, rfl, -⟩ := shortRound_code hd h
    simp

/-! ## The loop of `do` -/

theorem insertJmps_linked {fuel : Nat} {out : List FklIns × List FklIns}
    (h : insertJmpIfTrueAndJmpBackBetween fuel c d = some out) : LoopLinked c d out := by
  obtain ⟨n, out', hrun, hlinked⟩ := insertJmps_of_fit (insertJmps_some h)
  have hmore : insertJmpIfTrueAndJmpBackBetween (max fuel (n + 1)) c d = some out := by
    unfold insertJmpIfTrueAndJmpBackBetween at h
    obtain ⟨s, hs, h⟩ := Option.bind_eq_some_iff.mp h
    obtain ⟨t, ht, h⟩ := Option.bind_eq_some_iff.mp h
    simp only [insertJmpIfTrueAndJmpBackBetween, hs, whileLoop_mono ht (Nat.le_max_left _ _),
      Option.bind_eq_bind, Option.bind_some]
    exact h
  rw [hrun _ (by omega)] at hmore
  cases hmore
  exact hlinked

theorem do0Exp_code (h : do0ExpBcProcess [c, value, rest] = some code) :
    ∃ jmp back, code = c ++ jmp :: (dropIns :: rest ++ [back]) ++
        (if value ≠ [] then dropIns :: value else []) ∧
      JumpsOver .ifTrue jmp (dropIns :: rest ++ [back]) ∧
      back.op = some .jmp ∧ back.sC = -(c.length + rest.length + 3 : Int) := by
  rw [do0ExpBcProcess, List.reverse_cons, List.reverse_cons] at h
  obtain ⟨⟨cond, tail⟩, hlink, h⟩ := Option.bind_eq_some_iff.mp h
  obtain ⟨⟨jmp, hcond, hop⟩, ⟨back, htail, hback⟩, hleaves, hreturns⟩ := insertJmps_linked hlink
  dsimp only at hcond htail
  subst hcond htail
  refine ⟨jmp, back, ?_, ⟨hop, ?_⟩, hback, ?_⟩
  · cases h
    by_cases hvalue : value = []
    · simp [hvalue]
    · simp [hvalue]
  · have hget : (c ++ [jmp] ++ (dropIns :: rest ++ [back]))[c.length]? = some jmp := by simp
    rw [jmpTarget, hget] at hleaves
    simp at hleaves ⊢
    omega
  · have hplace : (c ++ [jmp] ++ (dropIns :: rest ++ [back])).length - 1 =
        (c ++ [jmp] ++ dropIns :: rest).length := by
      simp
    have hget : (c ++ [jmp] ++ (dropIns :: rest ++ [back]))[(c ++ [jmp] ++ dropIns :: rest).length]? =
        some back := by
      rw [← List.append_assoc]
      exact List.getElem?_concat_length
    rw [hplace, jmpTarget, hget] at hreturns
    simp at hreturns
    omega

/-- A round of the loop comes back to the start. -/
theorem do0Exp_round {jmp back : FklIns} {post : List FklIns} (hc : Evals (execCode f prim) c s t)
    (hw : LeavesOne .nil s t) (hop : jmp.op = some JmpInsCondition.ifTrue.op)
    (hrest : Evals (execCode f prim) (dropIns :: rest) t u) (hback : back.op = some .jmp)
    (hsC : back.sC = -(c.length + rest.length + 3 : Int)) :
    Reaches (execCode f prim) (c ++ jmp :: (dropIns :: rest ++ [back]) ++ post) (0, s) (0, u) := by
  have hbody := (hc.passed hw hop rfl hrest).within [] (back :: post)
  rw [List.nil_append, List.length_nil, Nat.zero_add] at hbody
  have hcode : c ++ jmp :: (dropIns :: rest ++ [back]) ++ post =
      c ++ jmp :: dropIns :: rest ++ back :: post := by
    simp
  rw [hcode]
  apply hbody.trans
  apply Reaches.step
  apply stepAt_eq_some.mpr
  refine ⟨back, back.sC, List.getElem?_append_right (Nat.le_refl _) |>.trans (by simp), ?_, ?_⟩
  · simp only [execCode, hback]
  · rw [hsC]
    simp
    omega

/-! ## Codes that are short enough -/

theorem appendJmpIns_fits (c : List FklIns) (condition : JmpInsCondition)
    (h : (d.length : Int) ≤ i24Max) :
    ∃ jmp, appendJmpIns c d.length condition .forward = some (c ++ [jmp]) := by
  have hfield : InField 23 (d.length : Int) := by
    apply inField_iff.mp
    unfold i24Min
    omega
  obtain ⟨jmp, hmade, -⟩ := @append_forward c _ condition hfield
  exact ⟨jmp, hmade⟩

theorem appendJmpInsFront_fits (condition : JmpInsCondition)
    (h : (c.length : Int) ≤ i24Max) :
    ∃ jmp, appendJmpInsFront c c.length condition .forward = some (jmp :: c) := by
  obtain ⟨jmp, hmade⟩ := appendJmpIns_fits [] condition h
  refine ⟨jmp, ?_⟩
  rw [appendJmpInsFront, hmade]
  rfl

theorem ifExp0_fits (c : List FklIns) (h : (d.length + 1 : Int) ≤ i24Max) :
    ∃ code, ifExpBcProcess0 [c, d] = some code := by
  obtain ⟨jmp, hjmp⟩ := appendJmpIns_fits c .ifFalse (d := dropIns :: d)
    (by simpa using h)
  rw [ifExpBcProcess0, List.reverse_cons]
  exact ⟨_, Option.bind_eq_some_iff.mpr ⟨_, hjmp, rfl⟩⟩

theorem ifExp1_fits {exp1 : List FklIns} (c : List FklIns)
    (h : (d.length + exp1.length + 2 : Int) ≤ i24Max) :
    ∃ code, ifExpBcProcess1 [exp1, c, d] = some code := by
  obtain ⟨out, hout⟩ := appendJmpIns_fits (dropIns :: d) .uncond (d := dropIns :: exp1)
    (by rw [List.length_cons]; push_cast; omega)
  obtain ⟨jmp, hjmp⟩ := appendJmpIns_fits c .ifFalse (d := dropIns :: d ++ [out])
    (by simp; omega)
  rw [ifExpBcProcess1, List.reverse_cons, List.reverse_cons]
  exact ⟨_, Option.bind_eq_some_iff.mpr ⟨_, hout, Option.bind_eq_some_iff.mpr ⟨_, hjmp, rfl⟩⟩⟩

theorem guardExp_fits (condition : JmpInsCondition) (closeRef c : List FklIns)
    (hcodes : ∀ c ∈ codes, c ≠ [])
    (h : ((seqCode codes).length + 1 : Int) ≤ i24Max) :
    ∃ code, guardExpBcProcess condition closeRef (c :: codes) = some code := by
  by_cases hne : codes = []
  · subst hne
    exact ⟨_, rfl⟩
  · have hbody : dropCodes [] codes = dropIns :: seqCode codes := by
      obtain ⟨d, codes, rfl⟩ := List.exists_cons_of_ne_nil hne
      rw [dropCodes_cons, condBody_eq hcodes]
    have hlen : (dropIns :: seqCode codes).length ≠ 0 := Nat.succ_ne_zero _
    obtain ⟨jmp, hjmp⟩ := appendJmpInsFront_fits condition (c := dropIns :: seqCode codes)
      (by simpa using h)
    rw [guardExpBcProcess, hbody]
    dsimp only
    rw [if_pos hlen]
    exact ⟨_, Option.bind_eq_some_iff.mpr ⟨_, hjmp, rfl⟩⟩

theorem condExp1_fits (first : List FklIns) (hcodes : ∀ c ∈ codes, c ≠ [])
    (h : ((seqCode codes).length + closeRef.length + prev.length + 2 : Int) ≤ i24Max) :
    ∃ code, condExpBcProcess1 closeRef (prev :: first :: codes) = some code := by
  have hprev : ((dropIns :: prev).length : Int) ≤ i24Max := by
    rw [List.length_cons]
    push_cast
    omega
  by_cases hne : codes = []
  · subst hne
    have hlen : ¬([] : List (List FklIns)).length ≠ 0 := fun hne => hne rfl
    have hbody : ¬(condBody []).length ≠ 0 := fun hne => hne rfl
    obtain ⟨jmp, hjmp⟩ := appendJmpIns_fits first (testCondition first) hprev
    rw [condExpBcProcess1]
    dsimp only
    rw [if_neg hlen, Option.bind_eq_bind, Option.bind_some, if_neg hbody]
    exact ⟨_, Option.bind_eq_some_iff.mpr ⟨_, hjmp, rfl⟩⟩
  · have hlen : codes.length ≠ 0 := mt List.length_eq_zero_iff.mp hne
    have hbody : (seqCode codes).length ≠ 0 :=
      mt List.length_eq_zero_iff.mp (seqCode_ne_nil hne hcodes)
    obtain ⟨out, hout⟩ := appendJmpIns_fits (seqCode codes ++ closeRef) .uncond hprev
    rw [condExpBcProcess1, condBody_eq hcodes]
    dsimp only
    rw [if_pos hlen, hout, Option.bind_eq_bind, Option.bind_some, if_pos hbody]
    cases hconst : isConstTrueBytecodeLnt first with
    | true => exact ⟨_, rfl⟩
    | false =>
      obtain ⟨jmp, hjmp⟩ := appendJmpInsFront_fits .ifFalse
        (c := dropIns :: (seqCode codes ++ closeRef ++ [out])) (by simp; omega)
      rw [Bool.not_false, if_pos rfl]
      exact ⟨_, Option.bind_eq_some_iff.mpr ⟨_, hjmp, rfl⟩⟩

theorem condExp2_fits (first : List FklIns) (hcodes : ∀ c ∈ codes, c ≠ [])
    (h : ((seqCode codes).length + 1 : Int) ≤ i24Max) :
    ∃ code, condExpBcProcess2 (first :: codes) = some (some code) := by
  rw [condExpBcProcess2, condBody_eq hcodes]
  dsimp only
  by_cases hbody : (seqCode codes).length ≠ 0
  · rw [if_pos hbody]
    cases hconst : isConstTrueBytecodeLnt first with
    | true => exact ⟨_, rfl⟩
    | false =>
      obtain ⟨jmp, hjmp⟩ := appendJmpInsFront_fits .ifFalse (c := dropIns :: seqCode codes)
        (by simpa using h)
      rw [Bool.not_false, if_pos rfl]
      exact ⟨_, Option.bind_eq_some_iff.mpr ⟨_, hjmp, rfl⟩⟩
  · rw [if_neg hbody]
    exact ⟨_, rfl⟩

theorem do0Exp_fits (value : List FklIns) (h : (c.length + rest.length + 4 : Int) ≤ i24Max) :
    ∃ code, do0ExpBcProcess [c, value, rest] = some code := by
  have hfit : JmpsFit c (dropIns :: rest) 3 := by
    unfold i24Max at h
    unfold JmpsFit
    rw [List.length_cons]
    omega
  obtain ⟨s, hs, hemitted⟩ := emitJmps_of_fit hfit
  obtain ⟨t, ht, hlast⟩ := @emitJmps_of_fit c (dropIns :: rest) 1
    ⟨by have := hfit.1; omega, hfit.2⟩
  have hloop : insertJmpIfTrueAndJmpBackBetween 2 c (dropIns :: rest) = some (t.cond, t.rest) := by
    have hgo : decide (1 < s.insLen) = true := by
      rw [hemitted.insLen_eq]
      rfl
    have hend : decide (t.actualLen < t.insLen) = false := by
      rw [hlast.actualLen_eq, hlast.insLen_eq]
      rfl
    simp only [insertJmpIfTrueAndJmpBackBetween, hs, whileLoop, hgo, hemitted.take.1,
      hemitted.take.2, hemitted.actualLen_eq, ht, hend, Option.bind_eq_bind, Option.bind_some,
      Bool.false_eq_true, if_true, if_false]
    rfl
  rw [do0ExpBcProcess, List.reverse_cons, List.reverse_cons]
  exact ⟨_, Option.bind_eq_some_iff.mpr ⟨_, hloop, rfl⟩⟩

end FakeLisp
