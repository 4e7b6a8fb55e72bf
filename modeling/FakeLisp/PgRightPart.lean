import FakeLisp.PgToken
import FakeLisp.RmacroParse

/-! The parser of the right sides of grammar texts. It adds the strings and the regular expressions
that it reads to the tables of the grammar. -/

namespace FakeLisp.GrammerTables.RightPart

open ConcatChains FakeLisp.ParserGrammer

inductive ParseErr where
  | unexpectedEof
  | unexpectedToken (t : Token)
  | unresolvedActionName (t : Token)
  | addingProduction
  | unresolvedBuiltinTerminal (t : Token)
  | builtinTerminalInitFailed (err : FklBuiltinTerminalInitError) (t : Token)

/-- The actions by their names, if they have to be found, and the actions of the productions for
which there is none. -/
structure Actions (C : Type) where
  resolver : Option (List UInt8 → Option C)
  nullAction : C
  noAction : C

variable {C : Type} (E : RmacroEnv) (A : Actions C)

def isIgnoreHead (name : List UInt8) : Bool := matchDelim pgIgnore name

def isTerminalsHead (name : List UInt8) : Bool := matchDelim pgTerminals name

/-! Arguments of builtin terminals. -/

def addTerminal (t : SymTables) (s : List UInt8) : SymTables × FklString :=
  let (terminals, str) := fklAddString t.terminals s
  ({ t with terminals }, str)

/-- What is read, with what is left of the text. -/
abbrev Parsed (α : Type) := Except ParseErr (α × List UInt8)

/-- The loop, with the token read last. -/
def parseArgsLoop (t : SymTables) (args : List FklString) (token : Token) (buf : List UInt8) :
    Parsed (SymTables × List FklString) :=
  if _ : buf ≠ [] then
    if token.type ≠ .termString then .error (.unexpectedToken token)
    else
      let (t, str) := addTerminal t token.unescaped
      let args := args ++ [str]
      if (nextToken buf).err then .error .unexpectedEof
      else
        match (nextToken buf).token.type with
        | .rb => .ok ((t, args), (nextToken buf).rest)
        | .comma =>
          let next := nextToken (nextToken buf).rest
          if next.err then .error .unexpectedEof
          else parseArgsLoop t args next.token next.rest
        | _ => .error (.unexpectedToken (nextToken buf).token)
  else if token.type = .rb then .ok ((t, args), buf)
  else .error (.unexpectedToken token)
termination_by buf.length
decreasing_by
  exact length_rest_le.trans_lt (length_rest_lt ‹buf ≠ []› (by simp_all))

/-- The errors of the first two tokens are not looked at. -/
def parseBuiltinArgs (t : SymTables) (buf : List UInt8) : Parsed (SymTables × List FklString) :=
  let lb := nextToken buf
  if lb.token.type ≠ .lb then .error (.unexpectedToken lb.token)
  else
    let first := nextToken lb.rest
    if first.token.type = .rb then .ok ((t, []), first.rest)
    else parseArgsLoop t [] first.token first.rest

/-- The arguments of a builtin terminal, if there are any. -/
def parseOptionalArgs (t : SymTables) (buf : List UInt8) : Parsed (SymTables × List FklString) :=
  let next := (nextToken buf).token
  if next.type = .lb then parseBuiltinArgs t next.str else .ok ((t, []), next.str)

section

variable {t : SymTables} {buf rest : List UInt8} {a : SymTables × List FklString}

theorem parseArgsLoop_rest {args : List FklString} {token : Token}
    (h : parseArgsLoop t args token buf = .ok (a, rest)) : rest.length ≤ buf.length := by
  fun_induction parseArgsLoop t args token buf with
  | case3 =>
    cases h
    exact length_rest_le
  | case5 t args token buf hne _ t' str _ args' herr _ next herr' ih =>
    exact (ih h).trans (length_rest_le.trans length_rest_le)
  | case7 =>
    cases h
    rfl
  | _ => cases h

theorem parseBuiltinArgs_rest (h : parseBuiltinArgs t buf = .ok (a, rest)) :
    rest.length ≤ buf.length := by
  unfold parseBuiltinArgs at h
  dsimp only at h
  split at h
  · cases h
  split at h
  · cases h
    exact length_rest_le.trans length_rest_le
  · exact (parseArgsLoop_rest h).trans (length_rest_le.trans length_rest_le)

theorem parseOptionalArgs_rest (h : parseOptionalArgs t buf = .ok (a, rest)) :
    rest.length ≤ buf.length := by
  unfold parseOptionalArgs at h
  dsimp only at h
  split at h
  · exact (parseBuiltinArgs_rest h).trans length_str_le
  · cases h
    exact length_str_le

end

/-! Right sides. -/

def isIgnore : FklGrammerSym → Bool
  | .ignore => true
  | _ => false

def isTerm : FklGrammerSym → Bool
  | .term _ => true
  | _ => false

def fklGraFoldConcatChains : List FklGrammerSym → List FklGrammerSym :=
  foldConcatChains isIgnore isTerm fun len => .comp (len % 2 ^ 32)

def pushGraSym (syms : List FklGrammerSym) (hasIgnore : Bool) (s : FklGrammerSym) :
    List FklGrammerSym := pushSym .ignore syms hasIgnore s

def addDelimiters (t : SymTables) (args : List FklString) : SymTables :=
  { t with delimiters := t.delimiters.addAll (args.map (·.key)) }

def addRegex (t : SymTables) (s : List UInt8) : SymTables × Option Nat :=
  let (regexes, re) := fklAddRegexStr E.compiles t.regexes s
  ({ t with regexes }, re)

def resolveAction (name : List UInt8) : Option C :=
  match A.resolver with
  | none => some A.nullAction
  | some resolve => resolve name

def parseRightLoop (t : SymTables) (syms : List FklGrammerSym) (hasIgnore : Bool)
    (buf : List UInt8) : Parsed (SymTables × List FklGrammerSym × C) :=
  if _ : buf = [] then .ok ((t, syms, A.nullAction), buf)
  else if _ : (nextToken buf).err then .error .unexpectedEof
  else
    let token := (nextToken buf).token
    let rest := (nextToken buf).rest
    match token.type with
    | .none => parseRightLoop t syms hasIgnore rest
    | .concat =>
      if hasIgnore then parseRightLoop t syms false rest else .error (.unexpectedToken token)
    | .identifier =>
      if isIgnoreHead token.text || isTerminalsHead token.text then
        .error (.unexpectedToken token)
      else if isBuiltinGraSym token.text then
        match fklGetBuiltinMatch token.text with
        | none => .error (.unresolvedBuiltinTerminal token)
        | some b =>
          match _ : parseOptionalArgs t rest with
          | .error err => .error err
          | .ok ((t, args), rest) =>
            let err := fklBuiltinTermArgsCheck b args.length
            if err ≠ .dummy then .error (.builtinTerminalInitFailed err token)
            else
              parseRightLoop (addDelimiters t args)
                (pushGraSym syms hasIgnore (.term (.builtin ⟨b, args⟩))) true rest
      else
        parseRightLoop t (pushGraSym syms hasIgnore (.nonterm (E.symbol token.text))) true rest
    | .termString =>
      let (t, str) := t.addDelimiter token.unescaped
      parseRightLoop t (pushGraSym syms hasIgnore (.term (.string str))) true rest
    | .termKeyword =>
      let (t, str) := addTerminal t token.unescaped
      parseRightLoop t (pushGraSym syms hasIgnore (.keyword str)) true rest
    | .termRegex =>
      let (t, re) := addRegex E t token.content
      parseRightLoop t (pushGraSym syms hasIgnore (.term (.regex re))) true rest
    | .reduceTo =>
      let name := nextToken rest
      if name.err then .error .unexpectedEof
      else if name.token.type ≠ .identifier then .error (.unexpectedToken name.token)
      else
        match resolveAction A name.token.text with
        | none => .error (.unresolvedActionName name.token)
        | some action => .ok ((t, syms, action), name.rest)
    | .comma | .endToken | .lb | .rb | .leftArrow => .error (.unexpectedToken token)
termination_by buf.length
decreasing_by
  all_goals have hlt := length_rest_lt ‹¬buf = []› (by simp_all)
  all_goals first
    | exact hlt
    | exact (parseOptionalArgs_rest ‹_›).trans_lt hlt

def addRule (g : FklGrammer C) (left : Nat) (t : SymTables) (syms : List FklGrammerSym)
    (action : C) : Option (FklGrammer C) :=
  ({ g with toSymTables := t } : FklGrammer C).fklAddProdAndExtraToGrammer E.toGrammerEnv
    A.noAction (fklCreateProduction left (fklGraFoldConcatChains syms) action)

def parseRightPart (g : FklGrammer C) (left : Nat) (buf : List UInt8) : Parsed (FklGrammer C) :=
  let arrow := nextToken buf
  if arrow.err then .error .unexpectedEof
  else if arrow.token.type ≠ .leftArrow then .error (.unexpectedToken arrow.token)
  else
    match parseRightLoop E A g.toSymTables [] false arrow.rest with
    | .error err => .error err
    | .ok ((t, syms, action), buf) =>
      match addRule E A g left t syms action with
      | none => .error .addingProduction
      | some g => .ok (g, buf)

end FakeLisp.GrammerTables.RightPart
