import FakeLisp.CgFormRight

/-! The compiler does not call itself for the parts of a form: it keeps actions on a stack. An
action waits for the codes of its expressions and makes one code of them, for the action it was
made for. -/

namespace FakeLisp

/-- The callbacks, with what they find in the environment of the action. -/
inductive CgActCb where
  | default
  | beginExp
  | localExp (closeRef : List FklIns)
  | shortExp (kind : ShortKind)
  | ifExp0
  | ifExp1
  | guardExp (kind : GuardKind) (closeRef : List FklIns)
  | condExp0
  | condExp1 (closeRef : List FklIns)
  | condExp2
  | do0Exp
  | doRestExp
  | lastBc

/-- An action is known by its address. -/
structure FklCgAct where
  addr : Nat
  cb : CgActCb
  exps : List CgForm
  prev : Option Nat
  bclVector : List (List FklIns)

/-- The top of the stack comes first; `fklMakeCgAct` finds room at `nextAddr`. -/
structure CgActState where
  actVec : List FklCgAct
  results : List (List FklIns)
  nextAddr : Nat

/-- What the end of the whole code depends on. With `is_precompile` there is a place holder among
the constants, here by its index; `optimize` is `fklPeepholeOptimize` unless it is left out. -/
structure CgLastEnv where
  placeHolder : Option Nat
  optimize : List FklIns → List FklIns

def appendExportMoreBc (k : Nat) (r : List FklIns) : Option (List FklIns) :=
  if (k : Int) ≤ u24Max then some (r ++ [(makeInsI .exportMore).setUC k]) else none

def lastBcProcess (env : CgLastEnv) (bclVec : List (List FklIns)) : Option (List FklIns) := do
  let r := sequnceExpBcProcess bclVec
  let r ←
    match env.placeHolder with
    | some k => appendExportMoreBc k r
    | none => some r
  some (env.optimize (r ++ [makeInsI .ret]))

/-- What stands between the code of the forms and the `RET`. -/
def CgLastEnv.exportMore (env : CgLastEnv) : List FklIns :=
  match env.placeHolder with
  | some k => [(makeInsI .exportMore).setUC k]
  | none => []

theorem lastBcProcess_eq {env : CgLastEnv} (hk : ∀ k ∈ env.placeHolder, (k : Int) ≤ u24Max)
    (bclVec : List (List FklIns)) : lastBcProcess env bclVec =
      some (env.optimize (sequnceExpBcProcess bclVec ++ env.exportMore ++ [makeInsI .ret])) := by
  rw [lastBcProcess, CgLastEnv.exportMore]
  cases h : env.placeHolder with
  | none => simp
  | some k =>
    have hle : (k : Int) ≤ u24Max := hk k h
    simp [appendExportMoreBc, hle]

/-- The result of a callback may be `NULL`; a jump that is too long ends the compiler. -/
def CgActCb.run (env : CgLastEnv) (bclVec : List (List FklIns)) :
    CgActCb → Option (Option (List FklIns))
  | default => some bclVec.getLast?
  | beginExp => some (some (sequnceExpBcProcess bclVec))
  | localExp closeRef => some (some (localExpBcProcess closeRef bclVec))
  | shortExp kind => (kind.bcProcess bclVec).map some
  | ifExp0 => (ifExpBcProcess0 bclVec).map some
  | ifExp1 => (ifExpBcProcess1 bclVec).map some
  | guardExp kind closeRef => (kind.bcProcess closeRef bclVec).map some
  | condExp0 => some (some (condExpBcProcess0 bclVec))
  | condExp1 closeRef => (condExpBcProcess1 closeRef bclVec).map some
  | condExp2 => condExpBcProcess2 bclVec
  | do0Exp => (do0ExpBcProcess bclVec).map some
  | doRestExp => some (some (doRestExpBcProcess bclVec))
  | lastBc => (lastBcProcess env bclVec).map some

namespace CgActState

def pushAct (s : CgActState) (cb : CgActCb) (exps : List CgForm) (prev : Option Nat)
    (bclVector : List (List FklIns)) : CgActState :=
  { s with
    actVec := ⟨s.nextAddr, cb, exps, prev, bclVector⟩ :: s.actVec
    nextAddr := s.nextAddr + 1 }

/-- The actions of the clauses, the last one on top; the result of each is for the one below. -/
def pushClauses (prev : Nat) (s : CgActState) : CgClauses → CgActState
  | .nil => s
  | .cons _ test rest .nil => s.pushAct .condExp2 (test :: rest) (some prev) []
  | .cons closeRef test rest clauses =>
    pushClauses s.nextAddr (s.pushAct (.condExp1 closeRef) (test :: rest) (some prev) []) clauses

/-- The `codegen` functions push what a form needs. -/
def codegen (s : CgActState) : CgForm → CgActState
  | .leaf _ _ => s
  | .beginExp rest => s.pushAct .beginExp rest none []
  | .localExp closeRef rest => s.pushAct (.localExp closeRef) rest none []
  | .shortExp kind rest => s.pushAct (.shortExp kind) rest none []
  | .if0 value rest => s.pushAct .ifExp0 [value, rest] none []
  | .if1 value rest args =>
    (s.pushAct .ifExp1 [value, rest] none []).pushAct .default [args] (some s.nextAddr) []
  | .guardExp kind closeRef value rest =>
    s.pushAct (.guardExp kind closeRef) (value :: rest) none []
  | .condExp clauses => (s.pushAct .condExp0 [] none []).pushClauses s.nextAddr clauses
  | .do0 cond value rest =>
    let do0Action := s.nextAddr
    let s := (s.pushAct .do0Exp [] none []).pushAct .doRestExp rest none []
    let s :=
      match value with
      | some item => s.pushAct .default [item] (some do0Action) []
      | none => s.pushAct .default [] (some do0Action) [[]]
    s.pushAct .default [cond] (some do0Action) []

end CgActState

def FklCgAct.pushBcl (act : FklCgAct) (code : List FklIns) : FklCgAct :=
  { act with bclVector := act.bclVector ++ [code] }

/-- A result is for `prev`, else for the action on top. -/
def giveResult (prev : Option Nat) (code : List FklIns) : List FklCgAct → Option (List FklCgAct)
  | [] => none
  | act :: acts =>
    match prev with
    | none => some (act.pushBcl code :: acts)
    | some addr =>
      if act.addr = addr then some (act.pushBcl code :: acts)
      else (giveResult prev code acts).map (act :: ·)

/-- The inner loop: codes that are there at once are kept, and the first form for which actions
have to be pushed ends it. -/
def takeExps : List CgForm → List (List FklIns) → List (List FklIns) × Option (CgForm × List CgForm)
  | [], bcl => (bcl, none)
  | .leaf code _ :: exps, bcl => takeExps exps (bcl ++ [code])
  | exp :: exps, bcl => (bcl, some (exp, exps))

section

variable (env : CgLastEnv)

def genRound (s : CgActState) : Option CgActState :=
  match s.actVec with
  | [] => none
  | curAction :: acts =>
    match takeExps curAction.exps curAction.bclVector with
    | (bcl, some (exp, exps)) =>
      let curAction := ⟨curAction.addr, curAction.cb, exps, curAction.prev, bcl⟩
      some (CgActState.codegen { s with actVec := curAction :: acts } exp)
    | (bcl, none) => do
      match ← curAction.cb.run env bcl with
      | none => some { s with actVec := acts }
      | some code =>
        if acts.isEmpty then some { s with actVec := [], results := s.results ++ [code] }
        else
          let acts ← giveResult curAction.prev code acts
          some { s with actVec := acts }

def CgActState.busy (s : CgActState) : Bool := !s.actVec.isEmpty

/-- The actions are given with the top first. -/
def fklGenExpressionCodeExt (fuel : Nat) (actions : List FklCgAct) : Option (Option (List FklIns)) :=
  (whileLoop CgActState.busy (genRound env) fuel ⟨actions, [], actions.length⟩).map
    fun s => s.results.getLast?

def fklGenExpressionCodeWithAction (fuel : Nat) (cb : CgActCb) (exps : List CgForm) :
    Option (Option (List FklIns)) :=
  fklGenExpressionCodeExt env fuel [⟨0, cb, exps, none, []⟩, ⟨1, .lastBc, [], none, []⟩]

/-- The expressions of a file. -/
def fklGenExpressionCodeWithFp (fuel : Nat) (exps : List CgForm) : Option (Option (List FklIns)) :=
  fklGenExpressionCodeWithAction env fuel .beginExp exps

def fklGenExpressionCode (fuel : Nat) (exp : CgForm) : Option (Option (List FklIns)) :=
  fklGenExpressionCodeWithAction env fuel .default [exp]

end

/-! ## Rounds that follow each other -/

variable {env : CgLastEnv} {s t u : CgActState} {act : FklCgAct}
  {acts acts' : List FklCgAct} {results : List (List FklIns)} {addr : Nat} {code : List FklIns}
  {codes : List (List FklIns)} {form : CgForm} {forms : List CgForm} {clauses : CgClauses}

/-- The loop comes from one state to another one. -/
def Leads (env : CgLastEnv) (s t : CgActState) : Prop :=
  ∀ n u, LoopsTo CgActState.busy (genRound env) n t u →
    ∃ m, LoopsTo CgActState.busy (genRound env) m s u

theorem Leads.refl (s : CgActState) : Leads env s s := fun n _ h => ⟨n, h⟩

theorem Leads.trans (h : Leads env s t) (h' : Leads env t u) : Leads env s u := by
  intro n v hv
  obtain ⟨m, hm⟩ := h' n v hv
  exact h m v hm

theorem Leads.step (hbusy : s.busy = true) (h : genRound env s = some t) :
    Leads env s t :=
  fun n _ hu => ⟨n + 1, hu.step hbusy h⟩

/-- Where a round does the same, the loop does. -/
theorem Leads.same (hs : s.busy = true) (ht : t.busy = true)
    (h : genRound env s = genRound env t) : Leads env s t := by
  intro n u hu
  refine ⟨n, fun fuel hfuel => ?_⟩
  cases fuel with
  | zero => omega
  | succ fuel =>
    have hrun := hu (fuel + 1) hfuel
    rw [whileLoop, if_pos ht] at hrun
    rw [whileLoop, if_pos hs, h]
    exact hrun

/-- The action on top with other expressions. -/
def FklCgAct.withExps (act : FklCgAct) (exps : List CgForm) : FklCgAct := { act with exps := exps }

/-- The action on top gets the code of the first of its expressions. -/
def Evaluated (env : CgLastEnv) (form : CgForm) : Prop :=
  ∀ code, form.compile = some code → ∀ act acts exps results addr, ∃ addr',
    Leads env ⟨FklCgAct.withExps act (form :: exps) :: acts, results, addr⟩
      ⟨(act.pushBcl code).withExps exps :: acts, results, addr'⟩

/-- An action that has all of its codes hands on what it makes of them. -/
theorem leads_finish (act : FklCgAct) (hrun : act.cb.run env act.bclVector = some (some code))
    (hgive : giveResult act.prev code acts = some acts') :
    Leads env ⟨act.withExps [] :: acts, results, addr⟩ ⟨acts', results, addr⟩ := by
  apply Leads.step rfl
  have hne : acts.isEmpty = false := by
    cases acts with
    | nil => cases hgive
    | cons _ _ => rfl
  simp only [genRound, FklCgAct.withExps, takeExps, hrun, hne, hgive, Option.bind_eq_bind,
    Option.bind_some, Bool.false_eq_true, if_false]

/-- An action whose expressions are evaluated comes to its end. -/
theorem leads_exps (act : FklCgAct) (results : List (List FklIns)) (addr : Nat)
    (hforms : ∀ e ∈ forms, Evaluated env e)
    (hcodes : CgForm.compileAll forms = some codes)
    (hrun : act.cb.run env (act.bclVector ++ codes) = some (some code))
    (hgive : giveResult act.prev code acts = some acts') :
    ∃ addr', Leads env ⟨act.withExps forms :: acts, results, addr⟩ ⟨acts', results, addr'⟩ := by
  induction forms generalizing act codes addr with
  | nil =>
    cases hcodes
    rw [List.append_nil] at hrun
    exact ⟨addr, leads_finish act hrun hgive⟩
  | cons e forms ih =>
    obtain ⟨he, hforms⟩ := List.forall_mem_cons.mp hforms
    obtain ⟨c, cs, hc, hcs, rfl⟩ := compileAll_cons.mp hcodes
    obtain ⟨addr₁, hfirst⟩ := he c hc act acts forms results addr
    have hrun' : (act.pushBcl c).cb.run env ((act.pushBcl c).bclVector ++ cs) =
        some (some code) := by
      rw [FklCgAct.pushBcl, List.append_assoc, List.singleton_append]
      exact hrun
    obtain ⟨addr₂, hrest⟩ := ih (act.pushBcl c) addr₁ hforms hcs hrun' hgive
    exact ⟨addr₂, hfirst.trans hrest⟩

/-- A form for which an action is pushed that hands its result on to the one below. -/
theorem leads_pushed {cb : CgActCb} {bcl : List (List FklIns)}
    (hforms : ∀ e ∈ forms, Evaluated env e) (hcodes : CgForm.compileAll forms = some codes)
    (hrun : cb.run env (bcl ++ codes) = some (some code)) :
    ∃ addr', Leads env (CgActState.pushAct ⟨act :: acts, results, addr⟩ cb forms none bcl)
      ⟨act.pushBcl code :: acts, results, addr'⟩ :=
  leads_exps ⟨addr, cb, [], none, bcl⟩ results (addr + 1) hforms hcodes hrun rfl

/-- A round that pushes the actions of a form. -/
theorem leads_codegen {exps : List CgForm} (hleaf : ∀ code hcode, form ≠ .leaf code hcode) :
    Leads env ⟨act.withExps (form :: exps) :: acts, results, addr⟩
      (CgActState.codegen ⟨act.withExps exps :: acts, results, addr⟩ form) := by
  apply Leads.step rfl
  cases form with
  | leaf code hcode => exact absurd rfl (hleaf code hcode)
  | _ => rfl

theorem evaluated_leaf (c : List FklIns) (hc : c ≠ []) : Evaluated env (.leaf c hc) := by
  intro code hcode act acts exps results addr
  cases hcode
  exact ⟨addr, Leads.same rfl rfl rfl⟩

/-- A form with one action. -/
theorem evaluated_one {cb : CgActCb} (hleaf : ∀ code hcode, form ≠ .leaf code hcode)
    (hpush : ∀ s : CgActState, s.codegen form = s.pushAct cb forms none [])
    (hforms : ∀ e ∈ forms, Evaluated env e)
    (hcompile : ∀ code, form.compile = some code → ∃ codes,
      CgForm.compileAll forms = some codes ∧ cb.run env codes = some (some code)) :
    Evaluated env form := by
  intro code hcode act acts exps results addr
  obtain ⟨codes, hcodes, hrun⟩ := hcompile code hcode
  have hpushed : ∃ addr', Leads env
      (CgActState.pushAct ⟨act.withExps exps :: acts, results, addr⟩ cb forms none [])
      ⟨(act.withExps exps).pushBcl code :: acts, results, addr'⟩ :=
    leads_pushed hforms hcodes hrun
  obtain ⟨addr', hpushed⟩ := hpushed
  rw [← hpush] at hpushed
  exact ⟨addr', (leads_codegen hleaf).trans hpushed⟩

/-! ## Every form -/

/-- The code of clauses is for the action below those of the clauses. -/
def ClausesEvaluated (env : CgLastEnv) (clauses : CgClauses) : Prop :=
  ∀ out, clauses.compile = some out → ∀ act acts results addr, ∃ addr',
    Leads env
      (CgActState.pushClauses (FklCgAct.addr act) ⟨act :: acts, results, addr⟩ clauses)
      ⟨{ act with bclVector := act.bclVector ++ out.toList } :: acts, results, addr'⟩

theorem giveResult_none (act : FklCgAct) (acts : List FklCgAct) (code : List FklIns) :
    giveResult none code (act :: acts) = some (act.pushBcl code :: acts) := rfl

theorem giveResult_top (act : FklCgAct) (acts : List FklCgAct) (code : List FklIns) :
    giveResult (some act.addr) code (act :: acts) = some (act.pushBcl code :: acts) :=
  if_pos rfl

theorem giveResult_below {a : Nat} (h : act.addr ≠ a)
    (hgive : giveResult (some a) code acts = some acts') :
    giveResult (some a) code (act :: acts) = some (act :: acts') := by
  rw [giveResult, if_neg h, hgive, Option.map_some]

theorem clauses_cons {closeRef : List FklIns} {test : CgForm} {rest : List CgForm}
    (hforms : ∀ e ∈ test :: rest, Evaluated env e)
    (hclauses : ClausesEvaluated env clauses) :
    ClausesEvaluated env (.cons closeRef test rest clauses) := by
  intro out hout act acts results addr
  rw [CgClauses.compile] at hout
  obtain ⟨prev, hprev, hout⟩ := Option.bind_eq_some_iff.mp hout
  obtain ⟨first, hfirst, hout⟩ := Option.bind_eq_some_iff.mp hout
  obtain ⟨codes, hcodes, hout⟩ := Option.bind_eq_some_iff.mp hout
  have hall : CgForm.compileAll (test :: rest) = some (first :: codes) :=
    compileAll_cons.mpr ⟨first, codes, hfirst, hcodes, rfl⟩
  cases clauses with
  | nil =>
    cases hprev
    obtain ⟨code, rfl⟩ := condExp2_isSome hout
    exact leads_exps ⟨addr, .condExp2, [], some act.addr, []⟩ results (addr + 1) hforms hall hout
      (giveResult_top act acts code)
  | cons closeRef' test' rest' clauses =>
    obtain ⟨prevCode, rfl⟩ : ∃ prevCode, prev = some prevCode := by
      rw [CgClauses.compile] at hprev
      obtain ⟨prev', hprev', hprev⟩ := Option.bind_eq_some_iff.mp hprev
      obtain ⟨first', hfirst', hprev⟩ := Option.bind_eq_some_iff.mp hprev
      obtain ⟨codes', hcodes', hprev⟩ := Option.bind_eq_some_iff.mp hprev
      cases prev' with
      | none => exact condExp2_isSome hprev
      | some _ =>
        obtain ⟨made, -, rfl⟩ := Option.map_eq_some_iff.mp hprev
        exact ⟨made, rfl⟩
    obtain ⟨code, hcode, rfl⟩ := Option.map_eq_some_iff.mp hout
    obtain ⟨addr₁, hbehind⟩ := hclauses (some prevCode) hprev
      ⟨addr, .condExp1 closeRef, test :: rest, some act.addr, []⟩ (act :: acts) results (addr + 1)
    have hrun : (CgActCb.condExp1 closeRef).run env ([prevCode] ++ first :: codes) =
        some (some code) := by
      rw [CgActCb.run, List.singleton_append, hcode]
      rfl
    obtain ⟨addr₂, hthis⟩ := leads_exps
      ⟨addr, .condExp1 closeRef, [], some act.addr, [prevCode]⟩ results addr₁ hforms hall hrun
      (giveResult_top act acts code)
    exact ⟨addr₂, hbehind.trans hthis⟩

theorem evaluated_cond (h : ClausesEvaluated env clauses) :
    Evaluated env (.condExp clauses) := by
  intro code hcode act acts exps results addr
  obtain ⟨out, hout, rfl⟩ := Option.map_eq_some_iff.mp hcode
  obtain ⟨addr₁, hclauses⟩ := h out hout ⟨addr, .condExp0, [], none, []⟩
    (act.withExps exps :: acts) results (addr + 1)
  have hquest : Leads env
      ⟨⟨addr, .condExp0, [], none, out.toList⟩ :: act.withExps exps :: acts, results, addr₁⟩
      ⟨(act.pushBcl (condExpBcProcess0 out.toList)).withExps exps :: acts, results, addr₁⟩ :=
    leads_finish ⟨addr, .condExp0, [], none, out.toList⟩ rfl rfl
  refine ⟨addr₁, (leads_codegen (by simp)).trans (hclauses.trans hquest)⟩

theorem evaluated_if1 {value rest args : CgForm} (hvalue : Evaluated env value)
    (hrest : Evaluated env rest) (hargs : Evaluated env args) :
    Evaluated env (.if1 value rest args) := by
  intro code hcode act acts exps results addr
  obtain ⟨exp1, hexp1, hcode⟩ := Option.bind_eq_some_iff.mp hcode
  obtain ⟨cond, hcond, hcode⟩ := Option.bind_eq_some_iff.mp hcode
  obtain ⟨exp0, hexp0, hcode⟩ := Option.bind_eq_some_iff.mp hcode
  have hlast : CgForm.compileAll [args] = some [exp1] :=
    compileAll_cons.mpr ⟨exp1, [], hexp1, rfl, rfl⟩
  have hboth : CgForm.compileAll [value, rest] = some [cond, exp0] :=
    compileAll_cons.mpr ⟨cond, [exp0], hcond, compileAll_cons.mpr ⟨exp0, [], hexp0, rfl, rfl⟩, rfl⟩
  have hrun : CgActCb.ifExp1.run env ([exp1] ++ [cond, exp0]) = some (some code) := by
    rw [CgActCb.run, List.singleton_append, hcode]
    rfl
  obtain ⟨addr₁, hfirst⟩ := leads_exps ⟨addr + 1, .default, [], some addr, []⟩ results
    (addr + 2) (List.forall_mem_singleton.mpr hargs) hlast rfl
    (giveResult_top ⟨addr, .ifExp1, [value, rest], none, []⟩ (act.withExps exps :: acts) exp1)
  obtain ⟨addr₂, hsecond⟩ := leads_exps ⟨addr, .ifExp1, [], none, [exp1]⟩ results addr₁
    (List.forall_mem_cons.mpr ⟨hvalue, List.forall_mem_singleton.mpr hrest⟩) hboth hrun
    (giveResult_none (act.withExps exps) acts code)
  exact ⟨addr₂, (leads_codegen (by simp)).trans (hfirst.trans hsecond)⟩

theorem evaluated_do0 {cond : CgForm} {value : Option CgForm} {rest : List CgForm}
    (hcond : Evaluated env cond) (hvalue : ∀ e ∈ value, Evaluated env e)
    (hrest : ∀ e ∈ rest, Evaluated env e) : Evaluated env (.do0 cond value rest) := by
  intro code hcode act acts exps results addr
  obtain ⟨c, hc, hcode⟩ := Option.bind_eq_some_iff.mp hcode
  obtain ⟨v, hv, hcode⟩ := Option.bind_eq_some_iff.mp hcode
  obtain ⟨codes, hcodes, hcode⟩ := Option.bind_eq_some_iff.mp hcode
  have hone : CgForm.compileAll [cond] = some [c] := compileAll_cons.mpr ⟨c, [], hc, rfl, rfl⟩
  have hrun : CgActCb.do0Exp.run env [c, v, doRestExpBcProcess codes] =
      some (some code) := by
    rw [CgActCb.run, hcode]
    rfl
  have hgive : ∀ bcl code', giveResult (some addr) code'
      (⟨addr + 1, .doRestExp, rest, none, []⟩ :: ⟨addr, .do0Exp, [], none, bcl⟩ ::
        act.withExps exps :: acts) =
      some (⟨addr + 1, .doRestExp, rest, none, []⟩ :: ⟨addr, .do0Exp, [], none, bcl ++ [code']⟩ ::
        act.withExps exps :: acts) := by
    intro bcl code'
    apply giveResult_below (Nat.succ_ne_self addr)
    exact giveResult_top ⟨addr, .do0Exp, [], none, bcl⟩ (act.withExps exps :: acts) code'
  -- the action of the value, and what it has already
  obtain ⟨exps', bcl, hpush, hvcodes⟩ : ∃ exps' bcl,
      (∀ s : CgActState, s.codegen (.do0 cond value rest) =
        ((((s.pushAct .do0Exp [] none []).pushAct .doRestExp rest none []).pushAct .default exps'
          (some s.nextAddr) bcl).pushAct .default [cond] (some s.nextAddr) [])) ∧
      ∃ vcodes, (∀ e ∈ exps', Evaluated env e) ∧ CgForm.compileAll exps' = some vcodes ∧
        (bcl ++ vcodes).getLast? = some v := by
    cases value with
    | none =>
      cases hv
      exact ⟨[], [[]], fun _ => rfl, [], by simp, rfl, rfl⟩
    | some item =>
      exact ⟨[item], [], fun _ => rfl, [v], List.forall_mem_singleton.mpr (hvalue item rfl),
        compileAll_cons.mpr ⟨v, [], hv, rfl, rfl⟩, rfl⟩
  obtain ⟨vcodes, hexps, hvcodes, hlast⟩ := hvcodes
  obtain ⟨addr₁, hfirst⟩ := leads_exps ⟨addr + 3, .default, [], some addr, []⟩ results (addr + 4)
    (List.forall_mem_singleton.mpr hcond) hone rfl
    (@giveResult_below ⟨addr + 2, .default, exps', some addr, bcl⟩ _ _ _ _ (by simp) (hgive [] c))
  obtain ⟨addr₂, hsecond⟩ := leads_exps ⟨addr + 2, .default, [], some addr, bcl⟩ results addr₁ hexps
    hvcodes (congrArg some hlast) (hgive [c] v)
  obtain ⟨addr₃, hthird⟩ := leads_exps ⟨addr + 1, .doRestExp, [], none, []⟩ results addr₂ hrest
    hcodes rfl (giveResult_none ⟨addr, .do0Exp, [], none, [c, v]⟩ (act.withExps exps :: acts)
      (doRestExpBcProcess codes))
  have hlastAct : Leads env
      ⟨⟨addr, .do0Exp, [], none, [c, v, doRestExpBcProcess codes]⟩ :: act.withExps exps :: acts,
        results, addr₃⟩
      ⟨(act.pushBcl code).withExps exps :: acts, results, addr₃⟩ :=
    leads_finish ⟨addr, .do0Exp, [], none, [c, v, doRestExpBcProcess codes]⟩ hrun rfl
  have hstart := @leads_codegen env act acts results addr (.do0 cond value rest) exps (by simp)
  rw [hpush] at hstart
  exact ⟨addr₃, hstart.trans (hfirst.trans (hsecond.trans (hthird.trans hlastAct)))⟩

mutual

theorem CgForm.evaluated (form : CgForm) : Evaluated env form := by
  cases form with
  | leaf code hcode => exact evaluated_leaf code hcode
  | beginExp rest =>
    apply evaluated_one (by simp) (fun _ => rfl) (CgForm.allEvaluated rest)
    intro code hcode
    obtain ⟨codes, hcodes, rfl⟩ := Option.map_eq_some_iff.mp hcode
    exact ⟨codes, hcodes, rfl⟩
  | localExp closeRef rest =>
    apply evaluated_one (by simp) (fun _ => rfl) (CgForm.allEvaluated rest)
    intro code hcode
    obtain ⟨codes, hcodes, rfl⟩ := Option.map_eq_some_iff.mp hcode
    exact ⟨codes, hcodes, rfl⟩
  | shortExp kind rest =>
    apply evaluated_one (by simp) (fun _ => rfl) (CgForm.allEvaluated rest)
    intro code hcode
    obtain ⟨codes, hcodes, hcode⟩ := Option.bind_eq_some_iff.mp hcode
    exact ⟨codes, hcodes, Option.map_eq_some_iff.mpr ⟨code, hcode, rfl⟩⟩
  | if0 value rest =>
    apply evaluated_one (by simp) (fun _ => rfl) (List.forall_mem_cons.mpr
      ⟨CgForm.evaluated value, List.forall_mem_singleton.mpr (CgForm.evaluated rest)⟩)
    intro code hcode
    obtain ⟨c, hc, hcode⟩ := Option.bind_eq_some_iff.mp hcode
    obtain ⟨d, hd, hcode⟩ := Option.bind_eq_some_iff.mp hcode
    have hrun : CgActCb.ifExp0.run env [c, d] = some (some code) := by
      rw [CgActCb.run, hcode]
      rfl
    exact ⟨[c, d], compileAll_cons.mpr ⟨c, [d], hc, compileAll_cons.mpr ⟨d, [], hd, rfl, rfl⟩, rfl⟩,
      hrun⟩
  | if1 value rest args =>
    exact evaluated_if1 (CgForm.evaluated value) (CgForm.evaluated rest) (CgForm.evaluated args)
  | guardExp kind closeRef value rest =>
    apply evaluated_one (by simp) (fun _ => rfl) (List.forall_mem_cons.mpr
      ⟨CgForm.evaluated value, CgForm.allEvaluated rest⟩)
    intro code hcode
    obtain ⟨c, hc, hcode⟩ := Option.bind_eq_some_iff.mp hcode
    obtain ⟨codes, hcodes, hcode⟩ := Option.bind_eq_some_iff.mp hcode
    exact ⟨c :: codes, compileAll_cons.mpr ⟨c, codes, hc, hcodes, rfl⟩,
      Option.map_eq_some_iff.mpr ⟨code, hcode, rfl⟩⟩
  | condExp clauses => exact evaluated_cond (CgClauses.evaluated clauses)
  | do0 cond value rest =>
    exact evaluated_do0 (CgForm.evaluated cond) (CgForm.optEvaluated value)
      (CgForm.allEvaluated rest)

theorem CgForm.allEvaluated (forms : List CgForm) : ∀ e ∈ forms, Evaluated env e := by
  cases forms with
  | nil => simp
  | cons e es =>
    exact List.forall_mem_cons.mpr ⟨CgForm.evaluated e, CgForm.allEvaluated es⟩

theorem CgForm.optEvaluated (value : Option CgForm) : ∀ e ∈ value, Evaluated env e := by
  cases value with
  | none => simp
  | some e =>
    have he : Evaluated env e := CgForm.evaluated e
    simpa using he

theorem CgClauses.evaluated (clauses : CgClauses) : ClausesEvaluated env clauses := by
  cases clauses with
  | nil =>
    intro out hout act acts results addr
    cases hout
    refine ⟨addr, ?_⟩
    have hsame : act.bclVector ++ (none : Option (List FklIns)).toList = act.bclVector :=
      List.append_nil _
    rw [hsame]
    exact Leads.refl _
  | cons closeRef test rest clauses =>
    exact clauses_cons (List.forall_mem_cons.mpr ⟨CgForm.evaluated test, CgForm.allEvaluated rest⟩)
      (CgClauses.evaluated clauses)

end

/-- The whole code of expressions is what the last action makes of theirs. -/
theorem genExpressionCode_of_action (cb : CgActCb)
    (hk : ∀ k ∈ env.placeHolder, (k : Int) ≤ u24Max)
    (hcodes : CgForm.compileAll forms = some codes)
    (hrun : cb.run env codes = some (some code)) : ∃ n, ∀ fuel, n < fuel →
      fklGenExpressionCodeWithAction env fuel cb forms = some (some
        (env.optimize (sequnceExpBcProcess [code] ++ env.exportMore ++ [makeInsI .ret]))) := by
  obtain ⟨addr, hfirst⟩ := leads_exps ⟨0, cb, [], none, []⟩ [] 2
    (CgForm.allEvaluated forms) hcodes hrun (giveResult_none ⟨1, .lastBc, [], none, []⟩ [] code)
  have hlast : Leads env ⟨[⟨1, .lastBc, [], none, [code]⟩], [], addr⟩
      ⟨[], [env.optimize (sequnceExpBcProcess [code] ++ env.exportMore ++ [makeInsI .ret])],
        addr⟩ := by
    apply Leads.step rfl
    simp [genRound, takeExps, CgActCb.run, lastBcProcess_eq hk]
  obtain ⟨n, hn⟩ := hfirst.trans hlast 0 _ (LoopsTo.done rfl)
  refine ⟨n, fun fuel hfuel => ?_⟩
  have hloop := hn fuel hfuel
  rw [fklGenExpressionCodeWithAction, fklGenExpressionCodeExt]
  exact congrArg (Option.map _) hloop

theorem compileAll_mem (hcodes : CgForm.compileAll forms = some codes) (hform : form ∈ forms) :
    ∃ code, form.compile = some code := by
  induction forms generalizing codes with
  | nil => cases hform
  | cons e forms ih =>
    obtain ⟨c, cs, hc, hcs, rfl⟩ := compileAll_cons.mp hcodes
    rcases List.mem_cons.mp hform with rfl | hform
    · exact ⟨c, hc⟩
    · exact ih hcs hform

theorem sequnceExp_one (hne : code ≠ []) : sequnceExpBcProcess [code] = code := by
  rw [sequnceExpBcProcess_eq (List.cons_ne_nil _ _), seqCode, if_neg hne, if_pos rfl, seqCode,
    List.append_nil]

/-- For an expression and for a file the stack of actions ends with the code that the forms have
part by part, before a `RET`; with `is_precompile` there is an `EXPORT_MORE` between them. -/
theorem genExpressionCode_compile (env : CgLastEnv) (exps : List CgForm)
    (hk : ∀ k ∈ env.placeHolder, (k : Int) ≤ u24Max)
    (hfits : ((CgForm.beginExp exps).words : Int) ≤ i24Max) :
    (∃ code, (CgForm.beginExp exps).compile = some code ∧ ∃ n, ∀ fuel, n < fuel →
      fklGenExpressionCodeWithFp env fuel exps =
        some (some (env.optimize (code ++ env.exportMore ++ [makeInsI .ret])))) ∧
    ∀ exp ∈ exps, ∃ code, exp.compile = some code ∧ ∃ n, ∀ fuel, n < fuel →
      fklGenExpressionCode env fuel exp =
        some (some (env.optimize (code ++ env.exportMore ++ [makeInsI .ret]))) := by
  rw [CgForm.words] at hfits
  obtain ⟨codes, hcodes, -⟩ := CgForm.compileAll_fits hfits exps (Nat.le_succ _)
  constructor
  · have hcode : (CgForm.beginExp exps).compile = some (sequnceExpBcProcess codes) := by
      rw [CgForm.compile, hcodes, Option.map_some]
    obtain ⟨n, hn⟩ := genExpressionCode_of_action .beginExp hk hcodes rfl
    rw [sequnceExp_one (CgForm.compile_ne_nil _ hcode)] at hn
    exact ⟨_, hcode, n, hn⟩
  · intro exp hexp
    obtain ⟨code, hcode⟩ := compileAll_mem hcodes hexp
    have hone : CgForm.compileAll [exp] = some [code] :=
      compileAll_cons.mpr ⟨code, [], hcode, rfl, rfl⟩
    have hrun : CgActCb.default.run env [code] = some (some code) := rfl
    obtain ⟨n, hn⟩ := genExpressionCode_of_action .default hk hone hrun
    rw [sequnceExp_one (CgForm.compile_ne_nil _ hcode)] at hn
    exact ⟨code, hcode, n, hn⟩

theorem genExpressionCode_compile_cond :
    (∃ code, (CgForm.beginExp [condForm]).compile = some code ∧ ∃ n, ∀ fuel, n < fuel →
      fklGenExpressionCodeWithFp ⟨some 2, id⟩ fuel [condForm] =
        some (some (code ++ [(makeInsI .exportMore).setUC 2] ++ [makeInsI .ret]))) ∧
    ∀ exp ∈ [condForm], ∃ code, exp.compile = some code ∧ ∃ n, ∀ fuel, n < fuel →
      fklGenExpressionCode ⟨some 2, id⟩ fuel exp =
        some (some (code ++ [(makeInsI .exportMore).setUC 2] ++ [makeInsI .ret])) :=
  genExpressionCode_compile ⟨some 2, id⟩ [condForm] (by simp [u24Max]) (by decide)

/-- Without the optimizer and without `is_precompile` the code of a file comes to its `RET` in the
one state that its expressions are evaluated to. -/
theorem genExpressionCode_right {D W : Type} [Binary64 D] (f : VMframe D)
    (prim : FklIns → VMstate D × W → Option (VMstate D × W)) (exps : List CgForm)
    (hfits : ((CgForm.beginExp exps).words : Int) ≤ i24Max) (hok : CgForm.AllCondsOk f prim exps) :
    ∃ code, (∃ n, ∀ fuel, n < fuel →
        fklGenExpressionCodeWithFp ⟨none, id⟩ fuel exps = some (some code)) ∧
      ∀ s t, FormEval f prim (.beginExp exps) s t → ∀ u,
        Reaches (execCode f prim) code (0, s) (code.length - 1, u) ↔ u = t := by
  obtain ⟨⟨code, hcode, hmade⟩, -⟩ := genExpressionCode_compile ⟨none, id⟩ exps (by simp) hfits
  rw [CgLastEnv.exportMore, List.append_nil] at hmade
  exact ⟨code ++ [makeInsI .ret], hmade, fun s t h u => reaches_ret_iff (h.evals hok hcode)⟩

theorem genExpressionCode_right_cond : ∃ code,
    (∃ n, ∀ fuel, n < fuel →
        fklGenExpressionCodeWithFp ⟨none, id⟩ fuel [condForm] = some (some code)) ∧
      ∀ s t, FormEval bareFrame (fun _ (_ : VMstate Rat × Unit) => none) (.beginExp [condForm]) s t →
        ∀ u, Reaches (execCode bareFrame fun _ (_ : VMstate Rat × Unit) => none) code (0, s)
          (code.length - 1, u) ↔ u = t :=
  genExpressionCode_right bareFrame _ [condForm] (by decide) ⟨condForm_ok, trivial⟩

end FakeLisp
