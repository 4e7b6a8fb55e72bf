import FakeLisp.ExceptFold
import FakeLisp.RuleInText

/-! The parser of grammar texts: productions, ignores and terminals, one section after the other. -/

namespace FakeLisp.GrammerTables.PgText

open RightPart ParserGrammer

inductive FklParserGrammerState where
  | addingProduction
  | addingIgnore
  | addingTerminal
  deriving DecidableEq

/-- Why the parser stops: an error of one of the other parsers, `ERR_ADDING_IGNORE`, or
`FKL_UNREACHABLE`. -/
inductive ParseStop where
  | err (err : ParseErr)
  | addingIgnore
  | unreachable

/-- `current_nonterm` is 0 for `NULL`. -/
structure FklParserGrammerParseArg (C : Type) where
  g : FklGrammer C
  currentNonterm : Nat
  state : FklParserGrammerState

def fklInitParserGrammerParseArg {C : Type} (g : FklGrammer C) : FklParserGrammerParseArg C :=
  ⟨g, 0, .addingProduction⟩

def parseAddingTerminal (t : SymTables) (buf : List UInt8) : Parsed SymTables :=
  let arrow := nextToken buf
  if arrow.err then .error .unexpectedEof
  else if arrow.token.type ≠ .leftArrow then .error (.unexpectedToken arrow.token)
  else
    -- the error of this token is not looked at
    let str := nextToken arrow.rest
    match str.token.type with
    | .termString => .ok ((t.addDelimiter str.token.unescaped).1, str.rest)
    | .none => .error .unexpectedEof
    | _ => .error (.unexpectedToken str.token)

/-- Nothing where a symbol cannot be ignored. -/
def fklGrammerSymbolsToIgnore (syms : List FklGrammerSym) : Option FklGrammerIgnore :=
  syms.mapM fun
    | .term s => some s
    | _ => none

variable {C : Type} (E : RmacroEnv) (A : Actions C)

def parseIgnoreLoop (t : SymTables) (syms : List FklGrammerSym) (buf : List UInt8) :
    Except ParseStop ((SymTables × List FklGrammerSym) × List UInt8) :=
  if _ : buf = [] then .ok ((t, syms), buf)
  else if _ : (nextToken buf).err then .error (.err .unexpectedEof)
  else
    let token := (nextToken buf).token
    let rest := (nextToken buf).rest
    match token.type with
    | .none => parseIgnoreLoop t syms rest
    | .identifier =>
      if isIgnoreHead token.text || isTerminalsHead token.text then
        .error (.err (.unexpectedToken token))
      else if isBuiltinGraSym token.text then .error .unreachable
      else .error (.err (.unexpectedToken token))
    | .termString =>
      let (t, str) := t.addDelimiter token.unescaped
      parseIgnoreLoop t (syms ++ [.term (.string str)]) rest
    | .termRegex =>
      let (t, re) := addRegex E t token.content
      parseIgnoreLoop t (syms ++ [.term (.regex re)]) rest
    | .endToken | .leftArrow => .ok ((t, syms), token.str)
    | .comma | .termKeyword | .reduceTo | .concat | .lb | .rb =>
      .error (.err (.unexpectedToken token))
termination_by buf.length
decreasing_by
  all_goals exact length_rest_lt ‹¬buf = []› (by simp_all)

def addIgnore (g : FklGrammer C) (t : SymTables) (syms : List FklGrammerSym) :
    Except ParseStop (FklGrammer C) :=
  match fklGrammerSymbolsToIgnore syms with
  | none => .error .unreachable
  | some ig =>
    match fklAddIgnoreToIgnoreList g.ignores ig with
    | none => .error .addingIgnore
    | some ignores => .ok { g with toSymTables := t, ignores }

def parseIgnore (g : FklGrammer C) (buf : List UInt8) :
    Except ParseStop (FklGrammer C × List UInt8) :=
  let arrow := nextToken buf
  if arrow.err then .error (.err .unexpectedEof)
  else if arrow.token.type ≠ .leftArrow then .error (.err (.unexpectedToken arrow.token))
  else
    match parseIgnoreLoop E g.toSymTables [] arrow.rest with
    | .error stop => .error stop
    | .ok ((t, syms), buf) => (addIgnore g t syms).map fun g => (g, buf)

/-- What stands behind the arrow, as the state says. -/
def parseDecl (arg : FklParserGrammerParseArg C) (buf : List UInt8) :
    Except ParseStop (FklGrammer C × List UInt8) :=
  match arg.state with
  | .addingProduction => (parseRightPart E A arg.g arg.currentNonterm buf).mapError .err
  | .addingIgnore => parseIgnore E arg.g buf
  | .addingTerminal =>
    ((parseAddingTerminal arg.g.toSymTables buf).mapError .err).map fun (t, buf) =>
      ({ arg.g with toSymTables := t }, buf)

/-- A section begins. For a left side with the special prefix the error is set, and the next token
takes it back. -/
def beginSection (arg : FklParserGrammerParseArg C) (name : List UInt8) :
    FklParserGrammerParseArg C :=
  if isIgnoreHead name then { arg with state := .addingIgnore, currentNonterm := 0 }
  else if isTerminalsHead name then { arg with state := .addingTerminal, currentNonterm := 0 }
  else { arg with state := .addingProduction, currentNonterm := E.symbol name }

/-! How far the parsers read. -/

section

variable {E} {A} {g g' : FklGrammer C} {t : SymTables} {buf rest : List UInt8}

theorem mapError_eq_ok {ε ε' α : Type} {f : ε → ε'} {x : Except ε α} {a : α} :
    x.mapError f = .ok a ↔ x = .ok a := by
  cases x <;> simp [Except.mapError]

theorem parseRightLoop_rest {syms : List FklGrammerSym} {hasIgnore : Bool}
    {out : SymTables × List FklGrammerSym × C}
    (h : parseRightLoop E A t syms hasIgnore buf = .ok (out, rest)) :
    rest.length ≤ buf.length := by
  fun_induction parseRightLoop E A t syms hasIgnore buf with
  | case1 =>
    cases h
    rfl
  | case3 | case4 | case11 | case12 | case13 | case14 =>
    rename_i ih
    exact (ih h).trans length_rest_le
  | case10 =>
    rename_i hargs _ _ ih
    exact (ih h).trans ((parseOptionalArgs_rest hargs).trans length_rest_le)
  | case18 =>
    cases h
    exact length_rest_le.trans length_rest_le
  | _ => cases h

theorem parseIgnoreLoop_rest {syms : List FklGrammerSym} {out : SymTables × List FklGrammerSym}
    (h : parseIgnoreLoop E t syms buf = .ok (out, rest)) : rest.length ≤ buf.length := by
  fun_induction parseIgnoreLoop E t syms buf with
  | case1 =>
    cases h
    rfl
  | case3 | case7 | case8 =>
    rename_i ih
    exact (ih h).trans length_rest_le
  | case9 | case10 =>
    cases h
    exact length_str_le
  | _ => cases h

/-- The arrow is taken. -/
theorem parseDecl_rest {arg : FklParserGrammerParseArg C}
    (h : parseDecl E A arg buf = .ok (g', rest)) :
    rest.length < (nextToken buf).token.str.length := by
  have harrow : ¬(nextToken buf).token.type ≠ .leftArrow →
      (nextToken buf).rest.length < (nextToken buf).token.str.length :=
    fun h => length_rest_lt_str (by rw [not_not.mp h]; decide)
  unfold parseDecl at h
  split at h
  · rw [mapError_eq_ok] at h
    unfold parseRightPart at h
    dsimp only at h
    split_ifs at h with _ htype
    split at h
    · cases h
    · next hloop =>
      split at h
      · cases h
      · cases h
        exact (parseRightLoop_rest hloop).trans_lt (harrow htype)
  · unfold parseIgnore at h
    dsimp only at h
    split_ifs at h with _ htype
    split at h
    · cases h
    · next hloop =>
      obtain ⟨g, -, heq⟩ := Except.map_eq_ok.mp h
      cases heq
      exact (parseIgnoreLoop_rest hloop).trans_lt (harrow htype)
  · obtain ⟨⟨t, buf'⟩, hterm, heq⟩ := Except.map_eq_ok.mp h
    cases heq
    rw [mapError_eq_ok] at hterm
    unfold parseAddingTerminal at hterm
    dsimp only at hterm
    split_ifs at hterm with _ htype
    split at hterm
    · cases hterm
      exact length_rest_le.trans_lt (harrow htype)
    · cases hterm
    · cases hterm

end

def fklParseProductionRuleWithCharBuf (arg : FklParserGrammerParseArg C) (buf : List UInt8) :
    Except ParseStop (FklParserGrammerParseArg C) :=
  if _ : buf = [] then .ok arg
  else if _ : (nextToken buf).err then .error (.err .unexpectedEof)
  else
    let token := (nextToken buf).token
    let rest := (nextToken buf).rest
    match token.type with
    | .endToken =>
      fklParseProductionRuleWithCharBuf
        { arg with state := .addingProduction, currentNonterm := 0 } rest
    | .none => fklParseProductionRuleWithCharBuf arg rest
    | .identifier =>
      let arg := beginSection E arg token.text
      match _ : parseDecl E A arg rest with
      | .error stop => .error stop
      | .ok (g, buf) => fklParseProductionRuleWithCharBuf { arg with g } buf
    | .leftArrow =>
      if arg.currentNonterm = 0 ∧ arg.state = .addingProduction then
        .error (.err (.unexpectedToken token))
      else
        match _ : parseDecl E A arg token.str with
        | .error stop => .error stop
        | .ok (g, buf) => fklParseProductionRuleWithCharBuf { arg with g } buf
    | _ => .error (.err (.unexpectedToken token))
termination_by buf.length
decreasing_by
  · exact length_rest_lt ‹¬buf = []› (by simp_all)
  · exact length_rest_lt ‹¬buf = []› (by simp_all)
  · exact (parseDecl_rest ‹_›).trans_le
      (length_str_le.trans (length_rest_lt (by assumption) (by simp_all)).le)
  · have hlt := parseDecl_rest ‹_›
    rw [nextToken_str] at hlt
    exact hlt.trans_le length_str_le

end FakeLisp.GrammerTables.PgText
