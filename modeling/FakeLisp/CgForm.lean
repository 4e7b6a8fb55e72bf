import FakeLisp.CondExp

/-! Forms put into each other: what the compiler makes of them runs as the forms are evaluated. -/

namespace FakeLisp

variable {D W : Type} [Binary64 D]

/-- `and` and `or` -/
inductive ShortKind where
  | andExp | orExp
  deriving DecidableEq

/-- `when` and `unless` -/
inductive GuardKind where
  | whenExp | unlessExp
  deriving DecidableEq

mutual

/-- The forms with a choice in their code; a leaf is any other expression, whose code is made
elsewhere. `closeRef` is what `check_and_close_ref` appends for the scope of the form. -/
inductive CgForm where
  | leaf (code : List FklIns) (hcode : code ≠ [])
  | beginExp (rest : List CgForm)
  | localExp (closeRef : List FklIns) (rest : List CgForm)
  | shortExp (kind : ShortKind) (rest : List CgForm)
  | if0 (value rest : CgForm)
  | if1 (value rest args : CgForm)
  | guardExp (kind : GuardKind) (closeRef : List FklIns) (value : CgForm) (rest : List CgForm)
  | condExp (clauses : CgClauses)
  | do0 (cond : CgForm) (value : Option CgForm) (rest : List CgForm)

inductive CgClauses where
  | nil
  | cons (closeRef : List FklIns) (test : CgForm) (rest : List CgForm) (clauses : CgClauses)

end

namespace ShortKind

def bcProcess : ShortKind → List (List FklIns) → Option (List FklIns)
  | andExp => andExpBcProcess
  | orExp => orExpBcProcess

def condition : ShortKind → JmpInsCondition
  | andExp => .ifFalse
  | orExp => .ifTrue

/-- The value without any expression. -/
def unit : ShortKind → VMword D
  | andExp => .fix 1
  | orExp => .nil

end ShortKind

namespace GuardKind

def bcProcess : GuardKind → List FklIns → List (List FklIns) → Option (List FklIns)
  | whenExp => whenExpBcProcess
  | unlessExp => unlessExpBcProcess

def condition : GuardKind → JmpInsCondition
  | whenExp => .ifFalse
  | unlessExp => .ifTrue

end GuardKind

/-! ## The code of a form -/

mutual

def CgForm.compile : CgForm → Option (List FklIns)
  | .leaf code _ => some code
  | .beginExp rest => (CgForm.compileAll rest).map sequnceExpBcProcess
  | .localExp closeRef rest => (CgForm.compileAll rest).map (localExpBcProcess closeRef)
  | .shortExp kind rest => (CgForm.compileAll rest).bind kind.bcProcess
  | .if0 value rest => do
    let cond ← value.compile
    let exp ← rest.compile
    ifExpBcProcess0 [cond, exp]
  | .if1 value rest args => do
    let exp1 ← args.compile
    let cond ← value.compile
    let exp0 ← rest.compile
    ifExpBcProcess1 [exp1, cond, exp0]
  | .guardExp kind closeRef value rest => do
    let cond ← value.compile
    let codes ← CgForm.compileAll rest
    kind.bcProcess closeRef (cond :: codes)
  | .condExp clauses => clauses.compile.map fun code => condExpBcProcess0 code.toList
  | .do0 cond value rest => do
    let cond ← cond.compile
    let value ← CgForm.compileOpt value
    let codes ← CgForm.compileAll rest
    do0ExpBcProcess [cond, value, doRestExpBcProcess codes]

def CgForm.compileAll : List CgForm → Option (List (List FklIns))
  | [] => some []
  | f :: fs => do
    let code ← f.compile
    let codes ← CgForm.compileAll fs
    some (code :: codes)

/-- Without a value there is an empty code. -/
def CgForm.compileOpt : Option CgForm → Option (List FklIns)
  | none => some []
  | some f => f.compile

/-- The code of a clause has that of the clauses behind it; there is none without a clause. -/
def CgClauses.compile : CgClauses → Option (Option (List FklIns))
  | .nil => some none
  | .cons closeRef test rest clauses => do
    let prev ← clauses.compile
    let first ← test.compile
    let codes ← CgForm.compileAll rest
    match prev with
    | none => condExpBcProcess2 (first :: codes)
    | some prev => (condExpBcProcess1 closeRef (prev :: first :: codes)).map some

end

variable {form : CgForm} {forms : List CgForm} {clauses : CgClauses} {code c : List FklIns}
  {codes : List (List FklIns)}

theorem compileAll_cons {e : CgForm} : CgForm.compileAll (e :: forms) = some codes ↔
    ∃ c cs, e.compile = some c ∧ CgForm.compileAll forms = some cs ∧ codes = c :: cs := by
  simp only [CgForm.compileAll, Option.bind_eq_bind, Option.bind_eq_some_iff, Option.some_inj]
  exact ⟨fun ⟨c, hc, cs, hcs, h⟩ => ⟨c, cs, hc, hcs, h.symm⟩,
    fun ⟨c, cs, hc, hcs, h⟩ => ⟨c, hc, cs, hcs, h.symm⟩⟩

theorem compileAll_ne_nil (h : CgForm.compileAll forms = some codes) (hne : forms ≠ []) :
    codes ≠ [] := by
  obtain ⟨e, es, rfl⟩ := List.exists_cons_of_ne_nil hne
  obtain ⟨c, cs, -, -, rfl⟩ := compileAll_cons.mp h
  exact List.cons_ne_nil _ _

theorem ShortKind.bcProcess_cons (kind : ShortKind) : kind.bcProcess (c :: codes) =
    (c :: codes).foldrM (shortRound kind.condition) [] := by
  cases kind <;> rfl

theorem GuardKind.bcProcess_eq (kind : GuardKind) :
    kind.bcProcess = guardExpBcProcess kind.condition := by
  cases kind <;> rfl

/-! No form is without code. -/

theorem sequnceExp_ne_nil (hcodes : ∀ c ∈ codes, c ≠ []) : sequnceExpBcProcess codes ≠ [] := by
  by_cases hne : codes = []
  · subst hne
    exact List.cons_ne_nil _ _
  · rw [sequnceExpBcProcess_eq hne]
    exact seqCode_ne_nil hne hcodes

theorem shortExp_ne_nil {kind : ShortKind} (hcodes : ∀ c ∈ codes, c ≠ [])
    (h : kind.bcProcess codes = some code) : code ≠ [] := by
  cases codes with
  | nil => cases kind <;> cases h <;> exact List.cons_ne_nil _ _
  | cons c codes =>
    rw [kind.bcProcess_cons] at h
    exact shortMade_ne_nil (List.cons_ne_nil _ _) hcodes h

theorem guardExp_ne_nil {kind : GuardKind} {closeRef : List FklIns} (hc : c ≠ [])
    (hcodes : ∀ c ∈ codes, c ≠ []) (h : kind.bcProcess closeRef (c :: codes) = some code) :
    code ≠ [] := by
  rw [kind.bcProcess_eq] at h
  by_cases hne : codes = []
  · subst hne
    rw [guardExp_nil h]
    exact List.append_ne_nil_of_left_ne_nil hc _
  · obtain ⟨jmp, rfl, -⟩ := guardExp_code hne hcodes h
    simp

mutual

theorem CgForm.compile_ne_nil : ∀ (form : CgForm) {code : List FklIns},
    form.compile = some code → code ≠ []
  | .leaf code hcode, _, h => by
    cases h
    exact hcode
  | .beginExp rest, _, h => by
    obtain ⟨codes, hcodes, rfl⟩ := Option.map_eq_some_iff.mp h
    exact sequnceExp_ne_nil (CgForm.compileAll_forall rest hcodes)
  | .localExp closeRef rest, _, h => by
    obtain ⟨codes, hcodes, rfl⟩ := Option.map_eq_some_iff.mp h
    exact List.append_ne_nil_of_left_ne_nil
      (sequnceExp_ne_nil (CgForm.compileAll_forall rest hcodes)) _
  | .shortExp kind rest, _, h => by
    obtain ⟨codes, hcodes, h⟩ := Option.bind_eq_some_iff.mp h
    exact shortExp_ne_nil (CgForm.compileAll_forall rest hcodes) h
  | .if0 value rest, _, h => by
    obtain ⟨c, -, h⟩ := Option.bind_eq_some_iff.mp h
    obtain ⟨d, -, h⟩ := Option.bind_eq_some_iff.mp h
    obtain ⟨jmp, rfl, -⟩ := ifExp0_code h
    simp
  | .if1 value rest args, _, h => by
    obtain ⟨exp1, -, h⟩ := Option.bind_eq_some_iff.mp h
    obtain ⟨c, -, h⟩ := Option.bind_eq_some_iff.mp h
    obtain ⟨d, -, h⟩ := Option.bind_eq_some_iff.mp h
    obtain ⟨jmp, out, rfl, -⟩ := ifExp1_code h
    simp
  | .guardExp kind closeRef value rest, _, h => by
    obtain ⟨c, hc, h⟩ := Option.bind_eq_some_iff.mp h
    obtain ⟨codes, hcodes, h⟩ := Option.bind_eq_some_iff.mp h
    exact guardExp_ne_nil (CgForm.compile_ne_nil value hc) (CgForm.compileAll_forall rest hcodes) h
  | .condExp clauses, _, h => by
    obtain ⟨code, hcode, rfl⟩ := Option.map_eq_some_iff.mp h
    cases code with
    | none => exact List.cons_ne_nil _ _
    | some code => exact CgClauses.compile_ne_nil clauses hcode
  | .do0 cond value rest, _, h => by
    obtain ⟨c, -, h⟩ := Option.bind_eq_some_iff.mp h
    obtain ⟨v, -, h⟩ := Option.bind_eq_some_iff.mp h
    obtain ⟨codes, -, h⟩ := Option.bind_eq_some_iff.mp h
    obtain ⟨jmp, back, rfl, -⟩ := do0Exp_code h
    simp

theorem CgForm.compileAll_forall : ∀ (forms : List CgForm) {codes : List (List FklIns)},
    CgForm.compileAll forms = some codes → ∀ c ∈ codes, c ≠ []
  | [], _, h => by
    cases h
    simp
  | e :: es, _, h => by
    obtain ⟨c, cs, hc, hcs, rfl⟩ := compileAll_cons.mp h
    exact List.forall_mem_cons.mpr
      ⟨CgForm.compile_ne_nil e hc, CgForm.compileAll_forall es hcs⟩

theorem CgClauses.compile_ne_nil : ∀ (clauses : CgClauses) {code : List FklIns},
    clauses.compile = some (some code) → code ≠ []
  | .nil, _, h => by cases h
  | .cons closeRef test rest clauses, _, h => by
    obtain ⟨prev, -, h⟩ := Option.bind_eq_some_iff.mp h
    obtain ⟨first, hfirst, h⟩ := Option.bind_eq_some_iff.mp h
    obtain ⟨codes, hcodes, h⟩ := Option.bind_eq_some_iff.mp h
    have hne := CgForm.compileAll_forall rest hcodes
    cases prev with
    | none => exact condExp2_ne_nil (CgForm.compile_ne_nil test hfirst) hne h
    | some prev =>
      obtain ⟨code, hcode, hsome⟩ := Option.map_eq_some_iff.mp h
      cases hsome
      exact condExp1_ne_nil hne hcode

end

/-! ## Forms that are short enough -/

mutual

/-- As many words the code of a form has at most. -/
def CgForm.words : CgForm → Nat
  | .leaf code _ => code.length
  | .beginExp rest => CgForm.allWords rest + 1
  | .localExp closeRef rest => CgForm.allWords rest + closeRef.length + 1
  | .shortExp _ rest => CgForm.allWords rest + 1
  | .if0 value rest => value.words + rest.words + 2
  | .if1 value rest args => value.words + rest.words + args.words + 4
  | .guardExp _ closeRef value rest =>
    value.words + CgForm.allWords rest + closeRef.length + 2
  | .condExp clauses => clauses.words + 1
  | .do0 cond value rest => cond.words + CgForm.optWords value + CgForm.allWords rest + 6

def CgForm.allWords : List CgForm → Nat
  | [] => 0
  | e :: es => e.words + 2 + CgForm.allWords es

def CgForm.optWords : Option CgForm → Nat
  | none => 0
  | some e => e.words

def CgClauses.words : CgClauses → Nat
  | .nil => 0
  | .cons closeRef test rest clauses =>
    closeRef.length + test.words + CgForm.allWords rest + clauses.words + 4

end

theorem codesLength_cons : codesLength (c :: codes) = c.length + 2 + codesLength codes := by
  rw [codesLength, List.map_cons, List.sum_cons, ← codesLength]

theorem seqCode_length (codes : List (List FklIns)) :
    (seqCode codes).length ≤ codesLength codes := by
  induction codes with
  | nil => exact Nat.le_refl 0
  | cons c codes ih =>
    rw [seqCode, codesLength_cons, List.length_append]
    split_ifs
    · rw [List.length_nil]
      omega
    · omega
    · rw [List.length_append, List.length_singleton]
      omega

theorem sequnceExp_length (codes : List (List FklIns)) :
    (sequnceExpBcProcess codes).length ≤ codesLength codes + 1 := by
  by_cases hne : codes = []
  · subst hne
    exact Nat.le_refl 1
  · rw [sequnceExpBcProcess_eq hne]
    exact (seqCode_length codes).trans (Nat.le_succ _)

theorem doRestExp_length (codes : List (List FklIns)) :
    (doRestExpBcProcess codes).length ≤ codesLength codes + 2 := by
  have hseq := sequnceExp_length codes
  rw [doRestExpBcProcess]
  split_ifs
  · rw [List.length_append, List.length_singleton]
    omega
  · exact Nat.zero_le _

theorem shortExp_fits (kind : ShortKind) (hcodes : ∀ c ∈ codes, c ≠ [])
    (h : (codesLength codes : Int) ≤ i24Max) :
    ∃ code, kind.bcProcess codes = some code ∧ code.length ≤ codesLength codes + 1 := by
  cases codes with
  | nil => cases kind <;> exact ⟨_, rfl, Nat.le_refl 1⟩
  | cons c codes =>
    have htail : codesLength codes ≤ codesLength (c :: codes) := by
      rw [codesLength_cons]
      exact Nat.le_add_left _ _
    obtain ⟨code, hmade, -, hshort⟩ := shortCode_made kind.condition (List.cons_ne_nil c codes)
      hcodes (by rw [List.tail_cons]; omega)
    have hlen := hshort.length
    refine ⟨code, ?_, by omega⟩
    rw [kind.bcProcess_cons, hmade]

theorem ifExp0_length {d : List FklIns} (h : ifExpBcProcess0 [c, d] = some code) :
    code.length = c.length + d.length + 2 := by
  obtain ⟨jmp, rfl, -⟩ := ifExp0_code h
  rw [List.length_append, List.length_cons, List.length_cons]
  omega

theorem ifExp1_length {d exp1 : List FklIns} (h : ifExpBcProcess1 [exp1, c, d] = some code) :
    code.length = c.length + d.length + exp1.length + 4 := by
  obtain ⟨jmp, out, rfl, -⟩ := ifExp1_code h
  simp only [List.length_append, List.length_cons, List.length_nil]
  omega

theorem do0Exp_length {value rest : List FklIns}
    (h : do0ExpBcProcess [c, value, rest] = some code) :
    code.length ≤ c.length + rest.length + value.length + 4 := by
  obtain ⟨jmp, back, rfl, -⟩ := do0Exp_code h
  split_ifs <;> simp only [List.length_append, List.length_cons, List.length_nil] <;> omega

theorem guardExp_length {condition : JmpInsCondition} {closeRef : List FklIns}
    (hcodes : ∀ c ∈ codes, c ≠ [])
    (h : guardExpBcProcess condition closeRef (c :: codes) = some code) :
    code.length ≤ c.length + codesLength codes + closeRef.length + 2 := by
  have hseq := seqCode_length codes
  by_cases hne : codes = []
  · subst hne
    rw [guardExp_nil h, List.length_append]
    omega
  · obtain ⟨jmp, rfl, -⟩ := guardExp_code hne hcodes h
    simp
    omega

theorem condExp1_length {closeRef prev first : List FklIns} (hcodes : ∀ c ∈ codes, c ≠ [])
    (h : condExpBcProcess1 closeRef (prev :: first :: codes) = some code) :
    code.length ≤ closeRef.length + first.length + codesLength codes + prev.length + 4 := by
  have hseq := seqCode_length codes
  by_cases hne : codes = []
  · subst hne
    obtain ⟨jmp, rfl, -⟩ := condExp1_test h
    simp
    omega
  · cases hconst : isConstTrueBytecodeLnt first with
    | true =>
      obtain ⟨out, rfl, -⟩ := condExp1_const hconst hne hcodes h
      simp
      omega
    | false =>
      obtain ⟨jmp, out, rfl, -⟩ := condExp1_body hconst hne hcodes h
      simp
      omega

theorem condExp2_length {first : List FklIns} (hcodes : ∀ c ∈ codes, c ≠ [])
    (h : condExpBcProcess2 (first :: codes) = some (some code)) :
    code.length ≤ first.length + codesLength codes + 2 := by
  have hseq := seqCode_length codes
  by_cases hne : codes = []
  · subst hne
    rw [condExp2_test h]
    omega
  · cases hconst : isConstTrueBytecodeLnt first with
    | true =>
      rw [condExp2_const hconst hne hcodes h]
      omega
    | false =>
      obtain ⟨jmp, rfl, -⟩ := condExp2_body hconst hne hcodes h
      simp
      omega

mutual

theorem CgForm.compile_fits {n : Nat} (hn : (n : Int) ≤ i24Max) (form : CgForm)
    (h : form.words ≤ n) :
    ∃ code, form.compile = some code ∧ code.length ≤ form.words := by
  cases form with
  | leaf code hcode =>
    refine ⟨code, rfl, ?_⟩
    rw [CgForm.words]
  | beginExp rest =>
    rw [CgForm.words] at h
    obtain ⟨codes, hcodes, hlen⟩ := CgForm.compileAll_fits hn rest (by omega)
    refine ⟨sequnceExpBcProcess codes, by rw [CgForm.compile, hcodes, Option.map_some], ?_⟩
    have hseq := sequnceExp_length codes
    rw [CgForm.words]
    omega
  | localExp closeRef rest =>
    rw [CgForm.words] at h
    obtain ⟨codes, hcodes, hlen⟩ := CgForm.compileAll_fits hn rest (by omega)
    refine ⟨localExpBcProcess closeRef codes, by rw [CgForm.compile, hcodes, Option.map_some], ?_⟩
    have hseq := sequnceExp_length codes
    rw [CgForm.words, localExpBcProcess, List.length_append]
    omega
  | shortExp kind rest =>
    rw [CgForm.words] at h
    obtain ⟨codes, hcodes, hlen⟩ := CgForm.compileAll_fits hn rest (by omega)
    obtain ⟨code, hcode, hle⟩ := shortExp_fits kind
      (CgForm.compileAll_forall rest hcodes) (by omega)
    refine ⟨code, by rw [CgForm.compile, hcodes, Option.bind_some, hcode], ?_⟩
    rw [CgForm.words]
    omega
  | if0 value rest =>
    rw [CgForm.words] at h
    obtain ⟨c, hc, hclen⟩ := CgForm.compile_fits hn value (by omega)
    obtain ⟨d, hd, hdlen⟩ := CgForm.compile_fits hn rest (by omega)
    obtain ⟨code, hcode⟩ := ifExp0_fits c (d := d) (by omega)
    refine ⟨code, ?_, ?_⟩
    · rw [CgForm.compile, hc, hd, Option.bind_eq_bind, Option.bind_some, Option.bind_some]
      exact hcode
    · have hle := ifExp0_length hcode
      rw [CgForm.words]
      omega
  | if1 value rest args =>
    rw [CgForm.words] at h
    obtain ⟨exp1, hexp1, hlen⟩ := CgForm.compile_fits hn args (by omega)
    obtain ⟨c, hc, hclen⟩ := CgForm.compile_fits hn value (by omega)
    obtain ⟨d, hd, hdlen⟩ := CgForm.compile_fits hn rest (by omega)
    obtain ⟨code, hcode⟩ := ifExp1_fits c
      (show (d.length + exp1.length + 2 : Int) ≤ i24Max by omega)
    refine ⟨code, ?_, ?_⟩
    · rw [CgForm.compile, hexp1, hc, hd, Option.bind_eq_bind, Option.bind_some, Option.bind_some,
        Option.bind_some]
      exact hcode
    · have hle := ifExp1_length hcode
      rw [CgForm.words]
      omega
  | guardExp kind closeRef value rest =>
    rw [CgForm.words] at h
    obtain ⟨c, hc, hclen⟩ := CgForm.compile_fits hn value (by omega)
    obtain ⟨codes, hcodes, hlen⟩ := CgForm.compileAll_fits hn rest (by omega)
    have hne := CgForm.compileAll_forall rest hcodes
    have hseq := seqCode_length codes
    obtain ⟨code, hcode⟩ := guardExp_fits kind.condition closeRef c hne (by omega)
    refine ⟨code, ?_, ?_⟩
    · rw [CgForm.compile, hc, hcodes, kind.bcProcess_eq]
      exact hcode
    · have hle := guardExp_length hne hcode
      rw [CgForm.words]
      omega
  | condExp clauses =>
    rw [CgForm.words] at h
    obtain ⟨out, hout, hlen⟩ := CgClauses.compile_fits hn clauses (by omega)
    refine ⟨condExpBcProcess0 out.toList, by rw [CgForm.compile, hout, Option.map_some], ?_⟩
    rw [CgForm.words]
    cases out with
    | none => exact Nat.succ_le_succ (Nat.zero_le _)
    | some code => exact (hlen code rfl).trans (Nat.le_succ _)
  | do0 cond value rest =>
    rw [CgForm.words] at h
    obtain ⟨c, hc, hclen⟩ := CgForm.compile_fits hn cond (by omega)
    obtain ⟨v, hv, hvlen⟩ := CgForm.compileOpt_fits hn value (by omega)
    obtain ⟨codes, hcodes, hlen⟩ := CgForm.compileAll_fits hn rest (by omega)
    have hrest := doRestExp_length codes
    obtain ⟨code, hcode⟩ := do0Exp_fits (c := c) v
      (show (c.length + (doRestExpBcProcess codes).length + 4 : Int) ≤ i24Max by omega)
    refine ⟨code, ?_, ?_⟩
    · rw [CgForm.compile, hc, hv, hcodes, Option.bind_eq_bind, Option.bind_some, Option.bind_some,
        Option.bind_eq_bind, Option.bind_some]
      exact hcode
    · have hle := do0Exp_length hcode
      rw [CgForm.words]
      omega

theorem CgForm.compileAll_fits {n : Nat} (hn : (n : Int) ≤ i24Max) (forms : List CgForm)
    (h : CgForm.allWords forms ≤ n) :
    ∃ codes, CgForm.compileAll forms = some codes ∧
      codesLength codes ≤ CgForm.allWords forms := by
  cases forms with
  | nil => exact ⟨[], rfl, Nat.le_refl _⟩
  | cons e es =>
    rw [CgForm.allWords] at h
    obtain ⟨c, hc, hclen⟩ := CgForm.compile_fits hn e (by omega)
    obtain ⟨cs, hcs, hlen⟩ := CgForm.compileAll_fits hn es (by omega)
    refine ⟨c :: cs, compileAll_cons.mpr ⟨c, cs, hc, hcs, rfl⟩, ?_⟩
    rw [CgForm.allWords, codesLength_cons]
    omega

theorem CgForm.compileOpt_fits {n : Nat} (hn : (n : Int) ≤ i24Max) (value : Option CgForm)
    (h : CgForm.optWords value ≤ n) :
    ∃ code, CgForm.compileOpt value = some code ∧ code.length ≤ CgForm.optWords value := by
  cases value with
  | none => exact ⟨[], rfl, Nat.le_refl _⟩
  | some e => exact CgForm.compile_fits hn e h

theorem CgClauses.compile_fits {n : Nat} (hn : (n : Int) ≤ i24Max) (clauses : CgClauses)
    (h : clauses.words ≤ n) :
    ∃ out, clauses.compile = some out ∧ ∀ code, out = some code → code.length ≤ clauses.words := by
  cases clauses with
  | nil => exact ⟨none, rfl, by simp⟩
  | cons closeRef test rest clauses =>
    rw [CgClauses.words] at h
    obtain ⟨prev, hprev, hplen⟩ := CgClauses.compile_fits hn clauses (by omega)
    obtain ⟨first, hfirst, hflen⟩ := CgForm.compile_fits hn test (by omega)
    obtain ⟨codes, hcodes, hlen⟩ := CgForm.compileAll_fits hn rest (by omega)
    have hne := CgForm.compileAll_forall rest hcodes
    have hseq := seqCode_length codes
    cases prev with
    | none =>
      obtain ⟨code, hcode⟩ := condExp2_fits first hne (by omega)
      refine ⟨some code, ?_, fun _ heq => ?_⟩
      · simp only [CgClauses.compile, hprev, hfirst, hcodes, Option.bind_eq_bind, Option.bind_some,
          hcode]
      · cases heq
        have hle := condExp2_length hne hcode
        rw [CgClauses.words]
        omega
    | some prev =>
      have hplen := hplen prev rfl
      obtain ⟨code, hcode⟩ := condExp1_fits first hne
        (show ((seqCode codes).length + closeRef.length + prev.length + 2 : Int) ≤ i24Max by omega)
      refine ⟨some code, ?_, fun _ heq => ?_⟩
      · simp only [CgClauses.compile, hprev, hfirst, hcodes, Option.bind_eq_bind, Option.bind_some,
          hcode, Option.map_some]
      · cases heq
        have hle := condExp1_length hne hcode
        rw [CgClauses.words]
        omega

end

end FakeLisp
