import FakeLisp.CgForm

/-! How the forms are evaluated, and that their code does it. -/

namespace FakeLisp

variable {D W : Type} [Binary64 D]

/-- The value of the whole form is the first one that `stop` holds of. -/
def ShortKind.stop (kind : ShortKind) (w : VMword D) : Bool := kind.condition.taken w

/-- The body is passed over. -/
def GuardKind.stop (kind : GuardKind) (w : VMword D) : Bool := kind.condition.taken w

section

variable (f : VMframe D) (prim : FklIns → VMstate D × W → Option (VMstate D × W))

/-- What leaves the scope is closed, and the stack stays as it is. -/
structure ClosesRefs (closeRef : List FklIns) (s t : VMstate D × W) : Prop where
  runs : Evals (execCode f prim) closeRef s t
  stack_eq : t.1.stack = s.1.stack

/-- A form is evaluated from one state to another one, with its value on top of the stack. -/
inductive FormEval : CgForm → VMstate D × W → VMstate D × W → Prop where
  | leaf (code : List FklIns) (hcode : code ≠ []) (s t : VMstate D × W) (w : VMword D)
      (hc : Evals (execCode f prim) code s t) (hw : LeavesOne w s t) :
      FormEval (.leaf code hcode) s t
  | beginNil (s : VMstate D × W) : FormEval (.beginExp []) s (s.1.push .nil, s.2)
  | beginLast (e : CgForm) (s t : VMstate D × W) (he : FormEval e s t) :
      FormEval (.beginExp [e]) s t
  | beginNext (e d : CgForm) (es : List CgForm) (s t u : VMstate D × W) (he : FormEval e s t)
      (hrest : FormEval (.beginExp (d :: es)) (dropTop t) u) :
      FormEval (.beginExp (e :: d :: es)) s u
  | localExp (closeRef : List FklIns) (rest : List CgForm) (s t u : VMstate D × W)
      (hrest : FormEval (.beginExp rest) s t) (hclose : ClosesRefs f prim closeRef t u) :
      FormEval (.localExp closeRef rest) s u
  | shortNil (kind : ShortKind) (s : VMstate D × W) :
      FormEval (.shortExp kind []) s (s.1.push kind.unit, s.2)
  | shortLast (kind : ShortKind) (e : CgForm) (s t : VMstate D × W) (he : FormEval e s t) :
      FormEval (.shortExp kind [e]) s t
  | shortStop (kind : ShortKind) (e d : CgForm) (es : List CgForm) (s t : VMstate D × W)
      (w : VMword D) (he : FormEval e s t) (hw : LeavesOne w s t) (hstop : kind.stop w = true) :
      FormEval (.shortExp kind (e :: d :: es)) s t
  | shortNext (kind : ShortKind) (e d : CgForm) (es : List CgForm) (s t u : VMstate D × W)
      (w : VMword D) (he : FormEval e s t) (hw : LeavesOne w s t) (hstop : kind.stop w = false)
      (hrest : FormEval (.shortExp kind (d :: es)) (dropTop t) u) :
      FormEval (.shortExp kind (e :: d :: es)) s u
  | if0Nil (value rest : CgForm) (s t : VMstate D × W) (hv : FormEval value s t)
      (hw : LeavesOne .nil s t) : FormEval (.if0 value rest) s t
  | if0True (value rest : CgForm) (s t u : VMstate D × W) (w : VMword D)
      (hv : FormEval value s t) (hw : LeavesOne w s t) (htrue : w.isNil = false)
      (hrest : FormEval rest (dropTop t) u) : FormEval (.if0 value rest) s u
  | if1Nil (value rest args : CgForm) (s t u : VMstate D × W) (hv : FormEval value s t)
      (hw : LeavesOne .nil s t) (hargs : FormEval args (dropTop t) u) :
      FormEval (.if1 value rest args) s u
  | if1True (value rest args : CgForm) (s t u : VMstate D × W) (w : VMword D)
      (hv : FormEval value s t) (hw : LeavesOne w s t) (htrue : w.isNil = false)
      (hrest : FormEval rest (dropTop t) u) : FormEval (.if1 value rest args) s u
  | guardStop (kind : GuardKind) (closeRef : List FklIns) (value : CgForm) (rest : List CgForm)
      (s t u : VMstate D × W) (w : VMword D) (hv : FormEval value s t) (hw : LeavesOne w s t)
      (hstop : kind.stop w = true ∨ rest = []) (hclose : ClosesRefs f prim closeRef t u) :
      FormEval (.guardExp kind closeRef value rest) s u
  | guardNext (kind : GuardKind) (closeRef : List FklIns) (value d : CgForm) (es : List CgForm)
      (s t u v : VMstate D × W) (w : VMword D) (hv : FormEval value s t) (hw : LeavesOne w s t)
      (hstop : kind.stop w = false) (hrest : FormEval (.beginExp (d :: es)) (dropTop t) u)
      (hclose : ClosesRefs f prim closeRef u v) :
      FormEval (.guardExp kind closeRef value (d :: es)) s v
  | condNil (s : VMstate D × W) : FormEval (.condExp .nil) s (s.1.push .nil, s.2)
  | condFail (closeRef : List FklIns) (test : CgForm) (rest : List CgForm) (s t : VMstate D × W)
      (hv : FormEval test s t) (hw : LeavesOne .nil s t) :
      FormEval (.condExp (.cons closeRef test rest .nil)) s t
  | condSkip (closeRef closeRef' : List FklIns) (test test' : CgForm) (rest rest' : List CgForm)
      (clauses : CgClauses) (s t u : VMstate D × W) (hv : FormEval test s t)
      (hw : LeavesOne .nil s t)
      (hnext : FormEval (.condExp (.cons closeRef' test' rest' clauses)) (dropTop t) u) :
      FormEval (.condExp (.cons closeRef test rest (.cons closeRef' test' rest' clauses))) s u
  | condTest (closeRef : List FklIns) (test : CgForm) (clauses : CgClauses) (s t : VMstate D × W)
      (w : VMword D) (hv : FormEval test s t) (hw : LeavesOne w s t) (htrue : w.isNil = false) :
      FormEval (.condExp (.cons closeRef test [] clauses)) s t
  | condLast (closeRef : List FklIns) (test d : CgForm) (es : List CgForm) (s t u : VMstate D × W)
      (w : VMword D) (hv : FormEval test s t) (hw : LeavesOne w s t) (htrue : w.isNil = false)
      (hrest : FormEval (.beginExp (d :: es)) (dropTop t) u) :
      FormEval (.condExp (.cons closeRef test (d :: es) .nil)) s u
  | condBody (closeRef closeRef' : List FklIns) (test test' d : CgForm) (es rest' : List CgForm)
      (clauses : CgClauses) (s t u v : VMstate D × W) (w : VMword D) (hv : FormEval test s t)
      (hw : LeavesOne w s t) (htrue : w.isNil = false)
      (hrest : FormEval (.beginExp (d :: es)) (dropTop t) u)
      (hclose : ClosesRefs f prim closeRef u v) :
      FormEval (.condExp (.cons closeRef test (d :: es) (.cons closeRef' test' rest' clauses))) s v
  | doDone (cond : CgForm) (rest : List CgForm) (s t : VMstate D × W) (w : VMword D)
      (hv : FormEval cond s t) (hw : LeavesOne w s t) (htrue : w.isNil = false) :
      FormEval (.do0 cond none rest) s t
  | doValue (cond value : CgForm) (rest : List CgForm) (s t u : VMstate D × W) (w : VMword D)
      (hv : FormEval cond s t) (hw : LeavesOne w s t) (htrue : w.isNil = false)
      (hvalue : FormEval value (dropTop t) u) : FormEval (.do0 cond (some value) rest) s u
  | doEmpty (cond : CgForm) (value : Option CgForm) (s t u : VMstate D × W)
      (hv : FormEval cond s t) (hw : LeavesOne .nil s t)
      (hnext : FormEval (.do0 cond value []) (dropTop t) u) : FormEval (.do0 cond value []) s u
  | doRound (cond d : CgForm) (value : Option CgForm) (es : List CgForm) (s t u v : VMstate D × W)
      (hv : FormEval cond s t) (hw : LeavesOne .nil s t)
      (hrest : FormEval (.beginExp (d :: es)) (dropTop t) u)
      (hnext : FormEval (.do0 cond value (d :: es)) (dropTop u) v) :
      FormEval (.do0 cond value (d :: es)) s v

/-- What looks like a constant leaves one that is true, and nothing else. -/
def ConstTrue (code : List FklIns) : Prop :=
  isConstTrueBytecodeLnt code = true → ∀ s t w, Evals (execCode f prim) code s t →
    LeavesOne w s t → w.isNil = false ∧ dropTop t = s

mutual

/-- In a `cond` the tests that look like constants are true, and a clause that is only a test has
nothing to close when others come behind it. -/
def CgForm.CondsOk : CgForm → Prop
  | .leaf _ _ => True
  | .beginExp rest => CgForm.AllCondsOk rest
  | .localExp _ rest => CgForm.AllCondsOk rest
  | .shortExp _ rest => CgForm.AllCondsOk rest
  | .if0 value rest => value.CondsOk ∧ rest.CondsOk
  | .if1 value rest args => value.CondsOk ∧ rest.CondsOk ∧ args.CondsOk
  | .guardExp _ _ value rest => value.CondsOk ∧ CgForm.AllCondsOk rest
  | .condExp clauses => clauses.CondsOk
  | .do0 cond value rest => cond.CondsOk ∧ CgForm.OptCondsOk value ∧ CgForm.AllCondsOk rest

def CgForm.AllCondsOk : List CgForm → Prop
  | [] => True
  | e :: es => e.CondsOk ∧ CgForm.AllCondsOk es

def CgForm.OptCondsOk : Option CgForm → Prop
  | none => True
  | some e => e.CondsOk

def CgClauses.CondsOk : CgClauses → Prop
  | .nil => True
  | .cons closeRef test rest clauses =>
    (∀ code, test.compile = some code → ConstTrue f prim code) ∧
      (rest = [] → clauses = .nil ∨ closeRef = []) ∧
      test.CondsOk ∧ CgForm.AllCondsOk rest ∧ clauses.CondsOk

end

end

variable {f : VMframe D} {prim : FklIns → VMstate D × W → Option (VMstate D × W)}
  {form : CgForm} {s t u : VMstate D × W} {w : VMword D} {code c closeRef : List FklIns}

/-! ## The values -/

omit [Binary64 D] in
/-- Behind a value that was dropped the next one leaves one in all. -/
theorem LeavesOne.next {v : VMword D} (hw : LeavesOne w s t)
    (hv : LeavesOne v (FakeLisp.dropTop t) u) :
    LeavesOne v s u := by
  rw [LeavesOne, hv, hw.dropTop]

theorem ClosesRefs.leaves (h : ClosesRefs f prim closeRef t u) (hw : LeavesOne w s t) :
    LeavesOne w s u := by
  rw [LeavesOne, h.stack_eq, hw]

theorem FormEval.leaves (h : FormEval f prim form s t) : ∃ w, LeavesOne w s t := by
  induction h with
  | leaf _ _ _ _ w _ hw => exact ⟨w, hw⟩
  | beginNil | shortNil | condNil => exact ⟨_, rfl⟩
  | beginLast _ _ _ _ ih => exact ih
  | shortLast _ _ _ _ _ ih => exact ih
  | beginNext _ _ _ _ _ _ _ _ ihe ihrest =>
    obtain ⟨w, hw⟩ := ihe
    obtain ⟨v, hv⟩ := ihrest
    exact ⟨v, hw.next hv⟩
  | localExp _ _ _ _ _ _ hclose ih =>
    obtain ⟨w, hw⟩ := ih
    exact ⟨w, hclose.leaves hw⟩
  | shortStop _ _ _ _ _ _ w _ hw => exact ⟨w, hw⟩
  | shortNext _ _ _ _ _ _ _ _ _ hw _ _ _ ih =>
    obtain ⟨v, hv⟩ := ih
    exact ⟨v, hw.next hv⟩
  | if0Nil _ _ _ _ _ hw => exact ⟨_, hw⟩
  | if0True _ _ _ _ _ _ _ hw _ _ _ ih =>
    obtain ⟨v, hv⟩ := ih
    exact ⟨v, hw.next hv⟩
  | if1Nil _ _ _ _ _ _ _ hw _ _ ih =>
    obtain ⟨v, hv⟩ := ih
    exact ⟨v, hw.next hv⟩
  | if1True _ _ _ _ _ _ _ _ hw _ _ _ ih =>
    obtain ⟨v, hv⟩ := ih
    exact ⟨v, hw.next hv⟩
  | guardStop _ _ _ _ _ _ _ w _ hw _ hclose => exact ⟨w, hclose.leaves hw⟩
  | guardNext _ _ _ _ _ _ _ _ _ _ _ hw _ _ hclose _ ih =>
    obtain ⟨v, hv⟩ := ih
    exact ⟨v, hclose.leaves (hw.next hv)⟩
  | condFail _ _ _ _ _ _ hw => exact ⟨_, hw⟩
  | condSkip _ _ _ _ _ _ _ _ _ _ _ hw _ _ ih =>
    obtain ⟨v, hv⟩ := ih
    exact ⟨v, hw.next hv⟩
  | condTest _ _ _ _ _ w _ hw => exact ⟨w, hw⟩
  | condLast _ _ _ _ _ _ _ _ _ hw _ _ _ ih =>
    obtain ⟨v, hv⟩ := ih
    exact ⟨v, hw.next hv⟩
  | condBody _ _ _ _ _ _ _ _ _ _ _ _ _ _ hw _ _ hclose _ ih =>
    obtain ⟨v, hv⟩ := ih
    exact ⟨v, hclose.leaves (hw.next hv)⟩
  | doDone _ _ _ _ w _ hw => exact ⟨w, hw⟩
  | doValue _ _ _ _ _ _ _ _ hw _ _ _ ih =>
    obtain ⟨v, hv⟩ := ih
    exact ⟨v, hw.next hv⟩
  | doEmpty _ _ _ _ _ _ hw _ _ ih =>
    obtain ⟨v, hv⟩ := ih
    exact ⟨v, hw.next hv⟩
  | doRound _ _ _ _ _ _ _ _ _ hw _ _ _ ihrest ih =>
    obtain ⟨x, hx⟩ := ihrest
    obtain ⟨v, hv⟩ := ih
    exact ⟨v, (hw.next hx).next hv⟩


/-! ## The code -/

variable {codes : List (List FklIns)} {forms : List CgForm}

theorem evals_pushNil (s : VMstate D × W) :
    Evals (execCode f prim) [makeInsI .pushNil] s (s.1.push .nil, s.2) := by
  have hop : (makeInsI .pushNil).op = some .pushNil := by decide
  apply Evals.one
  simp only [execCode, hop, execIns]

/-- The code of a body with something in it. -/
theorem compile_body {e : CgForm} (h : CgForm.compileAll (e :: forms) = some codes) :
    (CgForm.beginExp (e :: forms)).compile = some (seqCode codes) := by
  rw [CgForm.compile, h, Option.map_some,
    sequnceExpBcProcess_eq (compileAll_ne_nil h (List.cons_ne_nil _ _))]

theorem compile_shortCons {kind : ShortKind} {e d : CgForm}
    (h : (CgForm.shortExp kind (e :: d :: forms)).compile = some code) :
    ∃ c jmp code', e.compile = some c ∧
      (CgForm.shortExp kind (d :: forms)).compile = some code' ∧
      code = c ++ jmp :: dropIns :: code' ∧
      JumpsOver kind.condition jmp (dropIns :: code') := by
  obtain ⟨codes, hcodes, h⟩ := Option.bind_eq_some_iff.mp h
  obtain ⟨c, cs, hc, hcs, rfl⟩ := compileAll_cons.mp hcodes
  obtain ⟨c', cs', hc', hcs', rfl⟩ := compileAll_cons.mp hcs
  rw [kind.bcProcess_cons, List.foldrM_cons] at h
  obtain ⟨code', hcode', h⟩ := Option.bind_eq_some_iff.mp h
  have hne := shortMade_ne_nil (List.cons_ne_nil _ _) (CgForm.compileAll_forall _ hcs) hcode'
  obtain ⟨jmp, rfl, hjmp⟩ := shortRound_code hne h
  refine ⟨c, jmp, code', hc, ?_, rfl, hjmp⟩
  rw [CgForm.compile, hcs, Option.bind_some, kind.bcProcess_cons, hcode']

theorem compile_shortOne {kind : ShortKind} {e : CgForm}
    (h : (CgForm.shortExp kind [e]).compile = some code) : e.compile = some code := by
  obtain ⟨codes, hcodes, h⟩ := Option.bind_eq_some_iff.mp h
  obtain ⟨c, cs, hc, hcs, rfl⟩ := compileAll_cons.mp hcodes
  cases hcs
  rw [kind.bcProcess_cons, List.foldrM_cons, List.foldrM_nil] at h
  rw [hc, ← @shortRound_nil kind.condition c]
  exact h

/-- The codes of the parts of a `when` or an `unless`. -/
theorem compile_guard {kind : GuardKind} {value : CgForm} {rest : List CgForm}
    (h : (CgForm.guardExp kind closeRef value rest).compile = some code) :
    ∃ c codes, value.compile = some c ∧ CgForm.compileAll rest = some codes ∧
      guardExpBcProcess kind.condition closeRef (c :: codes) = some code := by
  obtain ⟨c, hc, h⟩ := Option.bind_eq_some_iff.mp h
  obtain ⟨codes, hcodes, h⟩ := Option.bind_eq_some_iff.mp h
  rw [kind.bcProcess_eq] at h
  exact ⟨c, codes, hc, hcodes, h⟩

/-- The codes of the parts of a clause. -/
theorem compile_clause {test : CgForm} {rest : List CgForm} {clauses : CgClauses}
    {out : Option (List FklIns)}
    (h : (CgClauses.cons closeRef test rest clauses).compile = some out) :
    ∃ prev first codes code, clauses.compile = some prev ∧ test.compile = some first ∧
      CgForm.compileAll rest = some codes ∧ out = some code ∧
      (prev = none → condExpBcProcess2 (first :: codes) = some (some code)) ∧
      ∀ p, prev = some p → condExpBcProcess1 closeRef (p :: first :: codes) = some code := by
  rw [CgClauses.compile] at h
  obtain ⟨prev, hprev, h⟩ := Option.bind_eq_some_iff.mp h
  obtain ⟨first, hfirst, h⟩ := Option.bind_eq_some_iff.mp h
  obtain ⟨codes, hcodes, h⟩ := Option.bind_eq_some_iff.mp h
  cases prev with
  | none =>
    obtain ⟨code, rfl⟩ := condExp2_isSome h
    exact ⟨none, first, codes, code, hprev, hfirst, hcodes, rfl, fun _ => h, by simp⟩
  | some prev =>
    obtain ⟨code, hcode, rfl⟩ := Option.map_eq_some_iff.mp h
    refine ⟨some prev, first, codes, code, hprev, hfirst, hcodes, rfl, by simp, fun p hp => ?_⟩
    cases hp
    exact hcode

theorem compile_cond {closeRef : List FklIns} {test : CgForm} {rest : List CgForm}
    {clauses : CgClauses}
    (h : (CgForm.condExp (.cons closeRef test rest clauses)).compile = some code) :
    (CgClauses.cons closeRef test rest clauses).compile = some (some code) := by
  obtain ⟨out, hout, rfl⟩ := Option.map_eq_some_iff.mp h
  obtain ⟨_, _, _, code, -, -, -, rfl, -⟩ := compile_clause hout
  exact hout

theorem compile_condLast {test : CgForm} {rest : List CgForm}
    (h : (CgForm.condExp (.cons closeRef test rest .nil)).compile = some code) :
    ∃ first codes, test.compile = some first ∧ CgForm.compileAll rest = some codes ∧
      condExpBcProcess2 (first :: codes) = some (some code) := by
  obtain ⟨prev, first, codes, code', hprev, hfirst, hcodes, hcode, hlast, -⟩ :=
    compile_clause (compile_cond h)
  cases hprev
  cases hcode
  exact ⟨first, codes, hfirst, hcodes, hlast rfl⟩

theorem compile_condCons {closeRef' : List FklIns} {test test' : CgForm} {rest rest' : List CgForm}
    {clauses : CgClauses}
    (h : (CgForm.condExp (.cons closeRef test rest (.cons closeRef' test' rest' clauses))).compile =
      some code) :
    ∃ prev first codes,
      (CgForm.condExp (.cons closeRef' test' rest' clauses)).compile = some prev ∧
      test.compile = some first ∧ CgForm.compileAll rest = some codes ∧
      condExpBcProcess1 closeRef (prev :: first :: codes) = some code := by
  obtain ⟨out, first, codes, code', hprev, hfirst, hcodes, hcode, -, hmade⟩ :=
    compile_clause (compile_cond h)
  obtain ⟨_, _, _, prev, -, -, -, rfl, -⟩ := compile_clause hprev
  cases hcode
  refine ⟨prev, first, codes, ?_, hfirst, hcodes, hmade prev rfl⟩
  rw [CgForm.compile, hprev]
  rfl

theorem compile_do0 {cond : CgForm} {value : Option CgForm} {rest : List CgForm}
    (h : (CgForm.do0 cond value rest).compile = some code) :
    ∃ c v codes, cond.compile = some c ∧ CgForm.compileOpt value = some v ∧
      CgForm.compileAll rest = some codes ∧
      do0ExpBcProcess [c, v, doRestExpBcProcess codes] = some code := by
  obtain ⟨c, hc, h⟩ := Option.bind_eq_some_iff.mp h
  obtain ⟨v, hv, h⟩ := Option.bind_eq_some_iff.mp h
  obtain ⟨codes, hcodes, h⟩ := Option.bind_eq_some_iff.mp h
  exact ⟨c, v, codes, hc, hv, hcodes, h⟩

/-- What is left out has a jump over it, and what is evaluated runs where it stands. -/
theorem FormEval.evals (h : FormEval f prim form s t) (hok : form.CondsOk f prim)
    (hcode : form.compile = some code) : Evals (execCode f prim) code s t := by
  induction h generalizing code with
  | leaf code' _ s t w hc hw =>
    cases hcode
    exact hc
  | beginNil s =>
    cases hcode
    exact evals_pushNil s
  | beginLast e s t he ih =>
    obtain ⟨codes, hcodes, rfl⟩ := Option.map_eq_some_iff.mp hcode
    obtain ⟨c, cs, hc, hcs, rfl⟩ := compileAll_cons.mp hcodes
    cases hcs
    have hne := e.compile_ne_nil hc
    have hseq : sequnceExpBcProcess [c] = c := by
      rw [sequnceExpBcProcess_eq (List.cons_ne_nil _ _), seqCode, if_neg hne, if_pos rfl, seqCode,
        List.append_nil]
    rw [hseq]
    exact ih hok.1 hc
  | beginNext e d es s t u he hrest ihe ih =>
    obtain ⟨codes, hcodes, rfl⟩ := Option.map_eq_some_iff.mp hcode
    obtain ⟨c, cs, hc, hcs, rfl⟩ := compileAll_cons.mp hcodes
    have hcs' : cs ≠ [] := compileAll_ne_nil hcs (List.cons_ne_nil _ _)
    rw [sequnceExpBcProcess_eq (List.cons_ne_nil _ _), seqCode, if_neg (e.compile_ne_nil hc),
      if_neg hcs']
    exact ((ihe hok.1 hc).append (evals_drop t)).append (ih hok.2 (compile_body hcs))
  | localExp closeRef rest s t u hrest hclose ih =>
    obtain ⟨codes, hcodes, rfl⟩ := Option.map_eq_some_iff.mp hcode
    have hbody : (CgForm.beginExp rest).compile = some (sequnceExpBcProcess codes) := by
      rw [CgForm.compile, hcodes, Option.map_some]
    exact (ih hok hbody).append hclose.runs
  | shortNil kind s =>
    cases kind with
    | andExp =>
      cases hcode
      have hop : (makeInsI .push1).op = some .push1 := by decide
      apply Evals.one
      simp only [execCode, hop, execIns, ShortKind.unit]
    | orExp =>
      cases hcode
      exact evals_pushNil s
  | shortLast kind e s t he ih => exact ih hok.1 (compile_shortOne hcode)
  | shortStop kind e d es s t w he hw hstop ih =>
    obtain ⟨c, jmp, code', hc, -, rfl, hjmp⟩ := compile_shortCons hcode
    exact (ih hok.1 hc).taken hw hjmp hstop
  | shortNext kind e d es s t u w he hw hstop hrest ihe ih =>
    obtain ⟨c, jmp, code', hc, hcode', rfl, hjmp⟩ := compile_shortCons hcode
    exact (ihe hok.1 hc).passed hw hjmp.op hstop (ih hok.2 hcode').afterDrop
  | if0Nil value rest s t hv hw ih =>
    obtain ⟨c, hc, hcode⟩ := Option.bind_eq_some_iff.mp hcode
    obtain ⟨d, -, hcode⟩ := Option.bind_eq_some_iff.mp hcode
    obtain ⟨jmp, rfl, hjmp⟩ := ifExp0_code hcode
    exact (ih hok.1 hc).taken hw hjmp rfl
  | if0True value rest s t u w hv hw htrue hrest ihv ih =>
    obtain ⟨c, hc, hcode⟩ := Option.bind_eq_some_iff.mp hcode
    obtain ⟨d, hd, hcode⟩ := Option.bind_eq_some_iff.mp hcode
    obtain ⟨jmp, rfl, hjmp⟩ := ifExp0_code hcode
    exact (ihv hok.1 hc).passed hw hjmp.op htrue (ih hok.2 hd).afterDrop
  | if1Nil value rest args s t u hv hw hargs ihv ih =>
    obtain ⟨exp1, hexp1, hcode⟩ := Option.bind_eq_some_iff.mp hcode
    obtain ⟨c, hc, hcode⟩ := Option.bind_eq_some_iff.mp hcode
    obtain ⟨d, -, hcode⟩ := Option.bind_eq_some_iff.mp hcode
    obtain ⟨jmp, out, rfl, hjmp, -⟩ := ifExp1_code hcode
    exact ((ihv hok.1 hc).taken hw hjmp rfl).append (ih hok.2.2 hexp1).afterDrop
  | if1True value rest args s t u w hv hw htrue hrest ihv ih =>
    obtain ⟨exp1, -, hcode⟩ := Option.bind_eq_some_iff.mp hcode
    obtain ⟨c, hc, hcode⟩ := Option.bind_eq_some_iff.mp hcode
    obtain ⟨d, hd, hcode⟩ := Option.bind_eq_some_iff.mp hcode
    obtain ⟨jmp, out, rfl, hjmp, hout⟩ := ifExp1_code hcode
    obtain ⟨v, hv'⟩ := hrest.leaves
    have hfirst := (ihv hok.1 hc).passed hw hjmp.op htrue (ih hok.2.1 hd).afterDrop
    rw [← List.cons_append, ← List.append_assoc, List.append_assoc _ [out], List.singleton_append]
    exact hfirst.taken (hw.next hv') hout rfl
  | guardStop kind closeRef value rest s t u w hv hw hstop hclose ih =>
    obtain ⟨c, codes, hc, hcodes, hcode⟩ := compile_guard hcode
    by_cases hrest : rest = []
    · subst hrest
      cases hcodes
      rw [guardExp_nil hcode]
      exact (ih hok.1 hc).append hclose.runs
    · obtain ⟨jmp, rfl, hjmp⟩ := guardExp_code (compileAll_ne_nil hcodes hrest)
        (CgForm.compileAll_forall rest hcodes) hcode
      exact ((ih hok.1 hc).taken hw hjmp (hstop.resolve_right hrest)).append hclose.runs
  | guardNext kind closeRef value d es s t u v w hv hw hstop hrest hclose ihv ih =>
    obtain ⟨c, codes, hc, hcodes, hcode⟩ := compile_guard hcode
    obtain ⟨jmp, rfl, hjmp⟩ := guardExp_code (compileAll_ne_nil hcodes (List.cons_ne_nil _ _))
      (CgForm.compileAll_forall _ hcodes) hcode
    have hbody := (ih hok.2 (compile_body hcodes)).afterDrop
    exact ((ihv hok.1 hc).passed hw hjmp.op hstop hbody).append hclose.runs
  | condNil s =>
    cases hcode
    exact evals_pushNil s
  | condFail closeRef test rest s t hv hw ih =>
    obtain ⟨hconst, -, htest, -⟩ := hok
    obtain ⟨first, codes, hfirst, hcodes, hcode⟩ := compile_condLast hcode
    have hrun := ih htest hfirst
    have hno : isConstTrueBytecodeLnt first = false := by
      by_contra htrue
      exact absurd (hconst first hfirst (eq_true_of_ne_false htrue) s t .nil hrun hw).1.symm
        Bool.false_ne_true
    by_cases hrest : codes = []
    · subst hrest
      rw [condExp2_test hcode]
      exact hrun
    · obtain ⟨jmp, rfl, hjmp⟩ := condExp2_body hno hrest (CgForm.compileAll_forall rest hcodes) hcode
      exact hrun.taken hw hjmp rfl
  | condSkip closeRef closeRef' test test' rest rest' clauses s t u hv hw hnext ihv ih =>
    obtain ⟨hconst, hempty, htest, -, hclauses⟩ := hok
    obtain ⟨prev, first, codes, hprev, hfirst, hcodes, hmade⟩ := compile_condCons hcode
    have hrun := ihv htest hfirst
    have hafter := (ih hclauses hprev).afterDrop
    have hno : isConstTrueBytecodeLnt first = false := by
      by_contra htrue
      exact absurd (hconst first hfirst (eq_true_of_ne_false htrue) s t .nil hrun hw).1.symm
        Bool.false_ne_true
    by_cases hrest : codes = []
    · subst hrest
      obtain rfl : rest = [] := by
        by_contra hne
        exact compileAll_ne_nil hcodes hne rfl
      obtain ⟨jmp, rfl, hjmp⟩ := condExp1_test hmade
      obtain rfl : closeRef = [] := (hempty rfl).resolve_left (by simp)
      have hif : testCondition first = .ifTrue := by
        rw [testCondition, hno]
        rfl
      rw [hif] at hjmp
      exact hrun.passed hw hjmp.op rfl hafter
    · obtain ⟨jmp, out, rfl, hjmp, -⟩ :=
        condExp1_body hno hrest (CgForm.compileAll_forall rest hcodes) hmade
      exact (hrun.taken hw hjmp rfl).append hafter
  | condTest closeRef test clauses s t w hv hw htrue ih =>
    obtain ⟨hconst, hempty, htest, -, hclauses⟩ := hok
    cases clauses with
    | nil =>
      obtain ⟨first, codes, hfirst, hcodes, hcode⟩ := compile_condLast hcode
      cases hcodes
      rw [condExp2_test hcode]
      exact ih htest hfirst
    | cons closeRef' test' rest' clauses =>
      obtain ⟨prev, first, codes, hprev, hfirst, hcodes, hcode⟩ := compile_condCons hcode
      cases hcodes
      obtain ⟨jmp, rfl, hjmp⟩ := condExp1_test hcode
      obtain rfl : closeRef = [] := (hempty rfl).resolve_left (by simp)
      have htaken : (testCondition first).taken w = true := by
        rw [testCondition]
        split_ifs <;> simp [JmpInsCondition.taken, htrue]
      exact (ih htest hfirst).taken hw hjmp htaken
  | condLast closeRef test d es s t u w hv hw htrue hrest ihv ih =>
    obtain ⟨hconst, -, htest, hbody, -⟩ := hok
    obtain ⟨first, codes, hfirst, hcodes, hcode⟩ := compile_condLast hcode
    have hne := compileAll_ne_nil hcodes (List.cons_ne_nil _ _)
    have hall := CgForm.compileAll_forall _ hcodes
    have hrun := ihv htest hfirst
    have hbody := ih hbody (compile_body hcodes)
    cases hc : isConstTrueBytecodeLnt first with
    | true =>
      rw [condExp2_const hc hne hall hcode]
      rw [(hconst first hfirst hc s t w hrun hw).2] at hbody
      exact hbody
    | false =>
      obtain ⟨jmp, rfl, hjmp⟩ := condExp2_body hc hne hall hcode
      exact hrun.passed hw hjmp.op htrue hbody.afterDrop
  | condBody closeRef closeRef' test test' d es rest' clauses s t u v w hv hw htrue hrest hclose
      ihv ih =>
    obtain ⟨hconst, -, htest, hbody, -⟩ := hok
    obtain ⟨prev, first, codes, hprev, hfirst, hcodes, hcode⟩ := compile_condCons hcode
    have hne := compileAll_ne_nil hcodes (List.cons_ne_nil _ _)
    have hall := CgForm.compileAll_forall _ hcodes
    have hrun := ihv htest hfirst
    have hbody := ih hbody (compile_body hcodes)
    obtain ⟨x, hx⟩ := hrest.leaves
    cases hc : isConstTrueBytecodeLnt first with
    | true =>
      obtain ⟨out, rfl, hout⟩ := condExp1_const hc hne hall hcode
      rw [(hconst first hfirst hc s t w hrun hw).2] at hbody
      exact (hbody.append hclose.runs).taken (hclose.leaves (hw.next hx)) hout rfl
    | false =>
      obtain ⟨jmp, out, rfl, hjmp, hout⟩ := condExp1_body hc hne hall hcode
      have hfirst := hrun.passed hw hjmp.op htrue (hbody.append hclose.runs).afterDrop
      have hcode : first ++ jmp :: dropIns :: (seqCode codes ++ closeRef ++ [out]) ++
          dropIns :: prev =
          first ++ jmp :: dropIns :: (seqCode codes ++ closeRef) ++ out :: dropIns :: prev := by
        simp
      rw [hcode]
      exact hfirst.taken (hclose.leaves (hw.next hx)) hout rfl
  | doDone cond rest s t w hv hw htrue ih =>
    obtain ⟨c, v, codes, hc, hv', -, hcode⟩ := compile_do0 hcode
    cases hv'
    obtain ⟨jmp, back, rfl, hjmp, -⟩ := do0Exp_code hcode
    have htaken : JmpInsCondition.ifTrue.taken w = true := by
      rw [JmpInsCondition.taken, htrue, Bool.not_false]
    rw [if_neg (by simp), List.append_nil]
    exact (ih hok.1 hc).taken hw hjmp htaken
  | doValue cond value rest s t u w hv hw htrue hvalue ihv ih =>
    obtain ⟨c, v, codes, hc, hv', -, hcode⟩ := compile_do0 hcode
    obtain ⟨jmp, back, rfl, hjmp, -⟩ := do0Exp_code hcode
    have htaken : JmpInsCondition.ifTrue.taken w = true := by
      rw [JmpInsCondition.taken, htrue, Bool.not_false]
    rw [if_pos (value.compile_ne_nil hv')]
    exact ((ihv hok.1 hc).taken hw hjmp htaken).append (ih hok.2.1 hv').afterDrop
  | doEmpty cond value s t u hv hw hnext ihv ih =>
    have hagain := ih hok hcode
    obtain ⟨c, v, codes, hc, -, hcodes, hcode⟩ := compile_do0 hcode
    have hempty : doRestExpBcProcess codes = [] := by
      cases hcodes
      rfl
    obtain ⟨jmp, back, rfl, hjmp, hback, hsC⟩ := do0Exp_code hcode
    have hrun : Evals (execCode f prim) (dropIns :: doRestExpBcProcess codes) t (dropTop t) := by
      rw [hempty]
      exact evals_drop t
    exact (do0Exp_round (ihv hok.1 hc) hw hjmp.op hrun hback hsC).trans hagain
  | doRound cond d value es s t u v hv hw hrest hnext ihv ihrest ih =>
    have hagain := ih hok hcode
    obtain ⟨c, v, codes, hc, -, hcodes, hcode⟩ := compile_do0 hcode
    obtain ⟨jmp, back, rfl, hjmp, hback, hsC⟩ := do0Exp_code hcode
    have hne := compileAll_ne_nil hcodes (List.cons_ne_nil _ _)
    have hbody := ihrest hok.2.2 (compile_body hcodes)
    have hrun : Evals (execCode f prim) (dropIns :: doRestExpBcProcess codes) t (dropTop u) := by
      rw [doRestExpBcProcess, if_pos (mt List.length_eq_zero_iff.mp hne),
        sequnceExpBcProcess_eq hne]
      exact (hbody.append (evals_drop u)).afterDrop
    exact (do0Exp_round (ihv hok.1 hc) hw hjmp.op hrun hback hsC).trans hagain

/-- An instruction that pushes what is not nil. -/
theorem constTrue_one {ins : FklIns} {v : VMword D} (hv : v.isNil = false)
    (h : ∀ s : VMstate D × W, execCode f prim ins s = some (0, (s.1.push v, s.2))) :
    ConstTrue f prim [ins] := by
  intro _ s t w hrun hw
  obtain rfl := hrun.unique (Evals.one (h s))
  obtain ⟨rfl, -⟩ := List.cons.inj hw
  exact ⟨hv, rfl⟩

/-- `(cond (nil 0) (1))` -/
def condForm : CgForm :=
  .condExp (.cons [] (.leaf [makeInsI .pushNil] (List.cons_ne_nil _ _))
    [.leaf [makeInsI .push0] (List.cons_ne_nil _ _)]
    (.cons [] (.leaf [makeInsI .push1] (List.cons_ne_nil _ _)) [] .nil))

theorem condForm_ok :
    condForm.CondsOk bareFrame fun _ (_ : VMstate Rat × Unit) => none := by
  refine ⟨fun code hcode => ?_, fun h => by simp at h, trivial, ⟨trivial, trivial⟩,
    fun code hcode => ?_, fun _ => Or.inl rfl, trivial, trivial, trivial⟩
  · cases hcode
    intro hconst
    exact absurd hconst (by decide)
  · cases hcode
    have hop : (makeInsI .push1).op = some .push1 := by decide
    apply constTrue_one (v := .fix 1) rfl
    intro s
    simp only [execCode, hop, execIns]

/-! ## A test with others behind it -/

/-- The jump of a clause that is only a test leads to the end of the code exactly when there is
nothing to close: the length it is made with leaves out what closes the references. -/
theorem condTest_jump {closeRef closeRef' : List FklIns} {test test' : CgForm}
    {rest' : List CgForm} {clauses : CgClauses}
    (hcode : (CgForm.condExp (.cons closeRef test [] (.cons closeRef' test' rest' clauses))).compile =
      some code) :
    ∃ first prev, test.compile = some first ∧
      (CgForm.condExp (.cons closeRef' test' rest' clauses)).compile = some prev ∧
      code.length = first.length + 1 + closeRef.length + 1 + prev.length ∧
      jmpTarget code first.length = some ((code.length : Int) - closeRef.length) := by
  obtain ⟨prev, first, codes, hprev, hfirst, hcodes, hcode⟩ := compile_condCons hcode
  cases hcodes
  obtain ⟨jmp, rfl, hjmp⟩ := condExp1_test hcode
  have hget : (first ++ jmp :: (closeRef ++ dropIns :: prev))[first.length]? = some jmp := by simp
  refine ⟨first, prev, hfirst, hprev, ?_, ?_⟩
  · simp
    omega
  · rw [jmpTarget, hget, Option.map_some, hjmp.sC, Option.some_inj]
    simp
    omega

/-- `(cond (nil) (1))` where something of the first clause has to be closed. -/
theorem condTest_jump_close :
    ∃ code first prev,
      (CgForm.leaf [makeInsI .pushNil] (List.cons_ne_nil _ _)).compile = some first ∧
      (CgForm.condExp
        (.cons [] (.leaf [makeInsI .push1] (List.cons_ne_nil _ _)) [] .nil)).compile = some prev ∧
      code.length = first.length + 1 + [makeInsI .closeRef].length + 1 + prev.length ∧
      jmpTarget code first.length = some ((code.length : Int) - [makeInsI .closeRef].length) := by
  obtain ⟨code, hcode, -⟩ := CgForm.compile_fits (n := 16) (by decide)
    (.condExp (.cons [makeInsI .closeRef] (.leaf [makeInsI .pushNil] (List.cons_ne_nil _ _)) []
      (.cons [] (.leaf [makeInsI .push1] (List.cons_ne_nil _ _)) [] .nil))) (by decide)
  exact ⟨code, condTest_jump hcode⟩

end FakeLisp
