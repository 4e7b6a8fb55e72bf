import FakeLisp.ConcatChains
import FakeLisp.RmacroActualLen

/-! The parser of the definitions of reader macros. -/

namespace FakeLisp.GrammerTables

open ConcatChains

inductive RmacroErr where
  | syntaxError (place : Nast)
  | expectStr (place : Nast)
  | expectTop (place : Nast)
  | expectIgnore (place : Nast)
  | expectActionType (place : Nast)
  | invalid (place : Nast)
  | regexCompileFailed (place : Nast)
  | unresolvedBuiltin (place : Nast)
  | invalidActionAst (place : Nast)
  | tooManyArgs (sym : Nast)
  | tooFewArgs (sym : Nast)
  | redefineNonterm (left : Nast)
  | redefineBuiltin (left : Nast)

/-- Nothing where an assertion fails, `FKL_UNREACHABLE` is reached or something is taken for a pair
that is none. -/
abbrev RmacroM := ExceptT RmacroErr Option

def undefinedBehaviour {α : Type} : RmacroM α := (none : Option (Except RmacroErr α))

def keywordAst (s : String) : Nast := .atom (.keyword (bytesOf s))

def symAst (s : String) : Nast := .atom (.sym (bytesOf s))

/-! Comparisons of addresses with symbols and keywords of the context. -/

def isKeyword (s : String) : Nast → Bool
  | .atom (.keyword k) => k = bytesOf s
  | _ => false

def isSym (s : String) : Nast → Bool
  | .atom (.sym k) => k = bytesOf s
  | _ => false

/-! Symbols. -/

/-- Both branches return 1. -/
def isRegexStrValid (E : RmacroEnv) (s : List UInt8) : Bool :=
  match E.compiles s with
  | false => true
  | true => true

def btErr (sym : Nast) : FklBuiltinTerminalInitError → Option RmacroErr
  | .dummy => none
  | .tooManyArgs => some (.tooManyArgs sym)
  | .tooFewArgs => some (.tooFewArgs sym)

/-- What a vector is found to be: a builtin terminal, an error that the caller reports, or one that
is only set. -/
inductive VecResult where
  | builtin
  | report (err : RmacroErr)
  | onlySet (err : RmacroErr)

def vecToBuiltinTerminal (elems : List Nast) : VecResult :=
  match elems with
  | .atom (.sym first) :: rest =>
    if isBuiltinGraSym first then
      match fklGetBuiltinMatch first with
      | none => .report (.unresolvedBuiltin (.block .vec elems))
      | some bs =>
        if rest.all fun arg => (asStr arg).isSome then
          match btErr (.atom (.sym first)) (fklBuiltinTermArgsCheck bs rest.length) with
          | none => .builtin
          | some err => .onlySet err
        else .report (.invalid (.block .vec elems))
    else .report (.invalid (.block .vec elems))
  | _ => .report (.invalid (.block .vec elems))

/-- A vector among symbols, with the error that has been set so far. -/
def vecSym (elems : List Nast) (pending : Option RmacroErr) :
    Except RmacroErr (FklCgRmacroGraSym × Option RmacroErr) :=
  match vecToBuiltinTerminal elems with
  | .builtin => .ok (⟨.builtin, some (.block .vec elems)⟩, pending)
  | .onlySet err => .ok (⟨.none, none⟩, some err)
  | .report err =>
    match pending with
    | none => .error err
    | some old => .ok (⟨.none, none⟩, some old)

/-- A symbol that is no nonterminal. -/
def bareBuiltin (sym : List UInt8) : Except RmacroErr FklCgRmacroGraSym :=
  match fklGetBuiltinMatch sym with
  | none => .error (.unresolvedBuiltin (.atom (.sym sym)))
  | some bt =>
    match btErr (.atom (.sym sym)) (fklBuiltinTermArgsCheck bt 0) with
    | none => .ok ⟨.builtin, some (.atom (.sym sym))⟩
    | some err => .error err

/-- The length of the composite terminal is taken `mod` 2^32. -/
def fklGraFoldConcatChains : List FklCgRmacroGraSym → List FklCgRmacroGraSym :=
  foldConcatChains (fun s => s.type = .ignore)
    (fun s => s.type = .string || s.type = .regex || s.type = .builtin)
    fun len => ⟨.comp, some (.atom (.fix (len % 2 ^ 32 : Nat)))⟩

def pushGraSym (gsyms : List FklCgRmacroGraSym) (hasIgnore : Bool) (s : FklCgRmacroGraSym) :
    List FklCgRmacroGraSym := pushSym ⟨.ignore, none⟩ gsyms hasIgnore s

/-- The error that is there already stays. -/
def syntaxErrorAt {α : Type} (pending : Option RmacroErr) (place : Nast) : RmacroM α :=
  throw (pending.getD (.syntaxError place))

section

variable (E : RmacroEnv)

/-- What the loop over the symbols of a rule ends with: the rest from `=>` on, the symbols, and
the error that has been set. -/
abbrev RuleEnd := Nast × List FklCgRmacroGraSym × Option RmacroErr

def parseRuleLoop (gsyms : List FklCgRmacroGraSym) (hasIgnore : Bool)
    (pending : Option RmacroErr) : Nast → RmacroM RuleEnd
  | .pair cur rest =>
    if isSym "=>" cur then
      if !hasIgnore && gsyms ≠ [] then syntaxErrorAt pending cur
      else pure (.pair cur rest, gsyms, pending)
    else if isKeyword "regex" cur then
      match rest with
      | .pair (.atom (.str s)) rest =>
        if isRegexStrValid E s then
          parseRuleLoop (pushGraSym gsyms hasIgnore ⟨.regex, some (.atom (.str s))⟩) true pending
            rest
        else throw (.regexCompileFailed (.atom (.str s)))
      | _ => throw (.expectStr cur)
    else if isKeyword "keyword" cur then
      match rest with
      | .pair (.atom (.str s)) rest =>
        parseRuleLoop (pushGraSym gsyms hasIgnore ⟨.keyword, some (.atom (.str s))⟩) true pending
          rest
      | _ => throw (.expectStr cur)
    else
      match cur with
      | .atom (.str s) =>
        parseRuleLoop (pushGraSym gsyms hasIgnore ⟨.string, some (.atom (.str s))⟩) true pending
          rest
      | .block .vec elems =>
        match vecSym elems pending with
        | .error err => throw err
        | .ok (s, pending) => parseRuleLoop (pushGraSym gsyms hasIgnore s) true pending rest
      | .pair (.atom (.sym a)) (.atom (.sym b)) =>
        parseRuleLoop (pushGraSym gsyms hasIgnore
          ⟨.nonterm, some (.pair (.atom (.sym a)) (.atom (.sym b)))⟩) true pending rest
      | .atom (.sym sym) =>
        if sym = bytesOf ".." then
          if hasIgnore then
            match rest with
            | .pair _ _ => parseRuleLoop gsyms false pending rest
            | _ => syntaxErrorAt pending cur
          else syntaxErrorAt pending cur
        else if (isValidNontermSym sym).isSome then
          if isBuiltinGraSym sym then
            match bareBuiltin sym with
            | .error err => throw err
            | .ok s => parseRuleLoop (pushGraSym gsyms hasIgnore s) true pending rest
          else
            parseRuleLoop (pushGraSym gsyms hasIgnore ⟨.nonterm, some (.atom (.sym sym))⟩) true
              pending rest
        else syntaxErrorAt pending cur
      | _ => syntaxErrorAt pending cur
  | other => pure (other, gsyms, pending)

/-- The action of a production, from its expression. -/
def parseAction (type : ActionType) (ast : Nast) (syms : List FklCgRmacroGraSym) :
    RmacroM FklRmacroAction :=
  match type with
  | .builtin =>
    if fklIsCgRmacroBuiltinActionValid ast then pure (.ast ast) else throw (.invalidActionAst ast)
  | .simple =>
    match fklCreateVMvalueSimpleActCtx1 ast with
    | some _ => pure (.simple ast)
    | none => throw (.invalidActionAst ast)
  | .custom =>
    pure (.custom (fklCreateCgRmacroCustomAction ⟨none, none, .ast (.atom .nil), false, syms⟩))
  | .replace => pure (.ast ast)

/-- From `->` on. -/
def parseRmacroDefProdRest (left : Nast) (addExtra : Bool) (curPair : Nast) :
    RmacroM (FklCgRmacroCmd × Nast) := do
  match curPair with
  | .pair arrow afterArrow =>
    if !isSym "->" arrow then throw (.syntaxError arrow)
    else
      let (curPair', gsyms, pending) ← parseRuleLoop E [] false none afterArrow
      match curPair' with
      | .pair _ (.pair typeAst action) =>
        match actionTypeOf typeAst with
        | none => throw (.expectActionType typeAst)
        | some type =>
          match action with
          | .pair ast rest =>
            let syms := fklGraFoldConcatChains gsyms
            if syms.any fun s => s.type = .none || s.type = .eof then undefinedBehaviour
            else
              let action ← parseAction type ast syms
              return (.addProd ⟨some left, some typeAst, action, addExtra, syms⟩, rest)
          | _ => syntaxErrorAt pending curPair'
      | .pair _ _ => syntaxErrorAt pending curPair
      | _ => undefinedBehaviour
  | _ => undefinedBehaviour

/-- The builtin nonterminals and terminals are not defined anew. -/
def checkLeft (left : Nast) : RmacroM Unit :=
  match asSym left with
  | some s =>
    if s ∈ E.builtinNonterms then throw (.redefineNonterm left)
    else if (fklGetBuiltinMatch s).isSome then throw (.redefineBuiltin left)
    else pure ()
  | none => pure ()

def leftOf (head : Nast) : Nast := if isKeyword "s-exp" head then .atom .nil else head

/-- From the left side on. -/
def parseRmacroDefProd (curPair : Nast) : RmacroM (FklCgRmacroCmd × Nast) := do
  match curPair with
  | .pair head rest =>
    checkLeft E (leftOf head)
    match rest with
    | .atom .nil => throw (.syntaxError curPair)
    | .pair cur afterCur =>
      if isKeyword "s-exp" cur then
        match afterCur with
        | .atom .nil => throw (.syntaxError curPair)
        | .pair _ _ => parseRmacroDefProdRest E (leftOf head) true afterCur
        | _ => undefinedBehaviour
      else parseRmacroDefProdRest E (leftOf head) false rest
    | _ => undefinedBehaviour
  | _ => undefinedBehaviour

/-- The strings of `:delim`, with the rest behind them. -/
def parseDelimLoop : Nast → RmacroM (List FklCgRmacroCmd × Nast)
  | .atom .nil => pure ([], .atom .nil)
  | .pair cur rest =>
    if isKeyword "end" cur then pure ([], rest)
    else if (asStr cur).isSome then do
      let (cmds, rest) ← parseDelimLoop rest
      return (.addDelim cur :: cmds, rest)
    else pure ([], .pair cur rest)
  | _ => undefinedBehaviour

def parseRmacroDefDelim (curPair : Nast) : RmacroM (List FklCgRmacroCmd × Nast) :=
  match curPair with
  | .pair _ (.atom .nil) => throw (.syntaxError curPair)
  | .pair _ (.pair cur rest) =>
    if (asStr cur).isSome then parseDelimLoop (.pair cur rest) else throw (.syntaxError cur)
  | _ => undefinedBehaviour

def parseIgnoreLoop (gsyms : List FklCgRmacroGraSym) (pending : Option RmacroErr) :
    Nast → RmacroM (Nast × List FklCgRmacroGraSym × Option RmacroErr)
  | .atom .nil => pure (.atom .nil, gsyms, pending)
  | .pair cur rest =>
    match cur with
    | .atom (.str s) => parseIgnoreLoop (gsyms ++ [⟨.string, some (.atom (.str s))⟩]) pending rest
    | .block .vec elems =>
      match vecSym elems pending with
      | .error err => throw err
      | .ok (s, pending) => parseIgnoreLoop (gsyms ++ [s]) pending rest
    | .atom (.keyword k) =>
      if k = bytesOf "regex" then
        match rest with
        | .pair (.atom (.str s)) rest =>
          if isRegexStrValid E s then
            parseIgnoreLoop (gsyms ++ [⟨.regex, some (.atom (.str s))⟩]) pending rest
          else throw (.regexCompileFailed (.atom (.str s)))
        | _ => throw (.expectStr cur)
      else if k = bytesOf "end" then pure (rest, gsyms, pending)
      else pure (.pair cur rest, gsyms, pending)
    | .atom (.sym sym) =>
      if (fklGetBuiltinMatch sym).isNone then
        match rest with
        | .atom .nil => throw (.expectIgnore cur)
        | .pair next _ =>
          if isKeyword "s-exp" next || isSym "->" next then
            pure (.pair cur rest, gsyms, pending)
          else throw (.expectIgnore cur)
        | _ => undefinedBehaviour
      else
        match bareBuiltin sym with
        | .error err => throw err
        | .ok s => parseIgnoreLoop (gsyms ++ [s]) pending rest
    | _ => pure (.pair cur rest, gsyms, pending)
  | _ => undefinedBehaviour

def parseRmacroDefIgnore (curPair : Nast) : RmacroM (FklCgRmacroCmd × Nast) := do
  match curPair with
  | .pair _ (.atom .nil) => throw (.syntaxError curPair)
  | .pair _ rest =>
    let (rest, gsyms, _) ← parseIgnoreLoop E [] none rest
    if gsyms.all fun s => s.type = .string || s.type = .builtin || s.type = .regex then
      return (.addIgnore ⟨none, none, .ast (.atom .nil), false, gsyms⟩, rest)
    else undefinedBehaviour
  | _ => undefinedBehaviour

end

end FakeLisp.GrammerTables
