import FakeLisp.GrammerMerge
import FakeLisp.Pattern

/-! Reader macros. The definition of a reader macro is a list of commands, and each of them changes
the grammar that it is run on. -/

namespace FakeLisp.GrammerTables

def bytesOf (s : String) : List UInt8 := s.toList.map fun c => UInt8.ofNat c.toNat

/-- `FKL_QUALIFIED_NONTERM_SEP` -/
def qualifiedSep : UInt8 := 47

/-- `FKL_PG_SPECIAL_PREFIX` -/
def isBuiltinGraSym (sym : List UInt8) : Bool := (bytesOf "?").isPrefixOf sym

/-- The symbols that name builtin terminals. -/
def builtinMatches : List (List UInt8 × FklLalrBuiltinMatch) :=
  [(bytesOf "?dint", .decInt), (bytesOf "?xint", .hexInt), (bytesOf "?oint", .octInt),
    (bytesOf "?dfloat", .decFloat), (bytesOf "?xfloat", .hexFloat), (bytesOf "?s-dint", .sDint),
    (bytesOf "?s-xint", .sXint), (bytesOf "?s-oint", .sOint), (bytesOf "?s-dfloat", .sDfloat),
    (bytesOf "?s-xfloat", .sXfloat), (bytesOf "?s-char", .sChar), (bytesOf "?symbol", .symbol),
    (bytesOf "?identifier", .identifier), (bytesOf "?nodelimiter", .nodelimiter),
    (bytesOf "?raw-string", .rawString), (bytesOf "?never", .never)]

def fklGetBuiltinMatch (sym : List UInt8) : Option FklLalrBuiltinMatch := builtinMatches.lookup sym

/-- The table of symbols, the compiler of regular expressions, and the builtin grammar: its
nonterminals, of which none is qualified or names a builtin terminal, and the first of them. -/
structure RmacroEnv where
  symbol : List UInt8 → Nat
  symbol_inj : Function.Injective symbol
  symbol_ne_null : ∀ s, symbol s ≠ 0
  compiles : List UInt8 → Bool
  builtinNonterms : List (List UInt8)
  unqualified : ∀ s ∈ builtinNonterms, qualifiedSep ∉ s
  nonterms : ∀ s ∈ builtinNonterms, fklGetBuiltinMatch s = none
  start : List UInt8
  start_nonterm : start ∈ builtinNonterms

namespace RmacroEnv

def isBuiltin (E : RmacroEnv) (nt : Nat) : Bool :=
  builtinMatches.any fun b => E.symbol b.1 == nt

def toGrammerEnv (E : RmacroEnv) : GrammerEnv where
  isBuiltin := E.isBuiltin
  isBuiltin_null := by simp [isBuiltin, E.symbol_ne_null]
  compiles := E.compiles

end RmacroEnv

/-! Actions. -/

/-- The procedure is compiled later. -/
structure FklVMvalueCustomActCtx (V P : Type) where
  actualLen : Nat
  dollars : List V
  proc : Option P

inductive FklRmacroAction where
  | ast (v : Nast)
  | simple (vec : Nast)
  | custom (ctx : FklVMvalueCustomActCtx (List UInt8) Unit)

/-- `CgProdCreatorActions` -/
inductive FklSimpleProdAction where
  | nth | cons | head | list | symbol | string | box | vector | hasheq | hasheqv | hashequal | bytes
  deriving DecidableEq

namespace FklSimpleProdAction

def all : List FklSimpleProdAction :=
  [nth, cons, head, list, symbol, string, box, vector, hasheq, hasheqv, hashequal, bytes]

def name : FklSimpleProdAction → List UInt8
  | nth => bytesOf "nth"
  | cons => bytesOf "cons"
  | head => bytesOf "head"
  | list => bytesOf "list"
  | symbol => bytesOf "symbol"
  | string => bytesOf "string"
  | box => bytesOf "box"
  | vector => bytesOf "vector"
  | hasheq => bytesOf "hasheq"
  | hasheqv => bytesOf "hasheqv"
  | hashequal => bytesOf "hashequal"
  | bytes => bytesOf "bytes"

def isPlace : Nast → Bool
  | .atom (.fix i) => 0 ≤ i
  | _ => false

def isNonEmptyStr : Nast → Bool
  | .atom (.str s) => s ≠ []
  | _ => false

def nthCheck (rest : List Nast) : Bool := rest.length = 1 && rest.all isPlace

def consCheck (rest : List Nast) : Bool := rest.length = 2 && rest.all isPlace

def headCheck (rest : List Nast) : Bool := 2 ≤ rest.length && rest.tail.all isPlace

def listCheck (rest : List Nast) : Bool := 1 ≤ rest.length && rest.all isPlace

def symbolCheck : List Nast → Bool
  | [] => false
  | first :: rest => isPlace first && if rest.length ≤ 2 then rest.all isNonEmptyStr else true

def check : FklSimpleProdAction → List Nast → Bool
  | cons => consCheck
  | head => headCheck
  | list => listCheck
  | symbol | string | bytes => symbolCheck
  | nth | box | vector | hasheq | hasheqv | hashequal => nthCheck

end FklSimpleProdAction

/-- The method table of the context that is made from a vector. -/
def fklCreateVMvalueSimpleActCtx1 : Nast → Option FklSimpleProdAction
  | .block .vec (.atom (.sym sym) :: rest) => do
    let mt ← FklSimpleProdAction.all.find? fun mt => mt.name = sym
    if mt.check rest then some mt else none
  | _ => none

def builtinProdActions : List (List UInt8) :=
  ["nil", "symbol", "first", "second", "third", "pair", "cons", "box", "vector", "quote", "unquote",
    "qsquote", "unqtesp", "hasheq", "hasheqv", "hashequal", "bytes"].map bytesOf

def fklIsCgRmacroBuiltinActionValid (id : Nast) : Bool :=
  match id with
  | .atom (.sym s) => builtinProdActions.contains s
  | _ => false

/-! Commands. -/

inductive FklGrammerSymType where
  | none
  | eof
  | keyword
  | string
  | regex
  | builtin
  | ignore
  | nonterm
  | comp
  deriving DecidableEq

structure FklCgRmacroGraSym where
  type : FklGrammerSymType
  v : Option Nast

/-- The type of the action is `NULL` for ignored text. -/
structure FklVMvalueCgRmacroProd where
  left : Option Nast
  actionType : Option Nast
  action : FklRmacroAction
  addExtra : Bool
  syms : List FklCgRmacroGraSym

inductive FklCgRmacroCmd where
  | addProd (prod : FklVMvalueCgRmacroProd)
  | addIgnore (prod : FklVMvalueCgRmacroProd)
  | addDelim (s : Nast)

abbrev FklVMvalueCgRmacro := List FklCgRmacroCmd

/-! Nonterminals. -/

def makeQualifiedSym (a b : List UInt8) : List UInt8 := a ++ qualifiedSep :: b

/-- What stands from the separator on, or the symbol if there is none. -/
def isValidNontermSym (sym : List UInt8) : Option (List UInt8) :=
  let (pre, pos) := sym.span fun c => c ≠ qualifiedSep
  match pos with
  | [] => some sym
  | c :: other => if pre = [] ∨ qualifiedSep ∈ other then none else some (c :: other)

/-- Nothing where the assertion fails. -/
def isQualifiedSym (sym : List UInt8) : Option Bool :=
  (isValidNontermSym sym).map fun pos => pos.head? = some qualifiedSep

/-! Execution. Nothing where an assertion fails or `FKL_UNREACHABLE` is reached. -/

section

variable (E : RmacroEnv)

/-- `FKL_IS_STR` and `FKL_VM_STR` -/
def asStr : Nast → Option (List UInt8)
  | .atom (.str s) => some s
  | _ => none

def asSym : Nast → Option (List UInt8)
  | .atom (.sym s) => some s
  | _ => none

def addArgs : SymTables → List (List UInt8) → SymTables × List FklString
  | t, [] => (t, [])
  | t, s :: args =>
    let (terminals, str) := fklAddString t.terminals s
    let (t, strs) := addArgs { t with terminals } args
    (t, str :: strs)

def builtinTerminalInit (v : Nast) (t : SymTables) :
    Option (SymTables × FklLalrBuiltinGrammerSym) :=
  match v with
  | .atom (.sym s) => do
    let bt ← fklGetBuiltinMatch s
    if fklBuiltinTermArgsCheck bt 0 = .dummy then some (t, ⟨bt, []⟩) else none
  | .block .vec (first :: rest) => do
    let bt ← fklGetBuiltinMatch (← asSym first)
    let (t, args) := addArgs t (← rest.mapM asStr)
    if fklBuiltinTermArgsCheck bt args.length = .dummy then some (t, ⟨bt, args⟩) else none
  | _ => none

def rmacroNontermOf (name : List UInt8) : Nast → Option (List UInt8)
  | .atom (.sym v) => do
    if ← isQualifiedSym v then return v
    else if v ∈ E.builtinNonterms then return v
    else return makeQualifiedSym name v
  | .pair (.atom (.sym a)) (.atom (.sym b)) => some (makeQualifiedSym a b)
  | _ => none

/-- The kinds of symbols that productions and ignored text have in common. -/
def rmacroTermSym (sym : FklCgRmacroGraSym) (t : SymTables) :
    Option (SymTables × FklGrammerIgnoreSym) := do
  match sym.type with
  | .builtin =>
    let (t, b) ← builtinTerminalInit (← sym.v) t
    return (t, .builtin b)
  | .regex =>
    let (regexes, re) := fklAddRegexStr E.compiles t.regexes (← asStr (← sym.v))
    return ({ t with regexes }, .regex re)
  | .string =>
    let (t, str) := t.addDelimiter (← asStr (← sym.v))
    return (t, .string str)
  | _ => failure

def rmacroProdSymToGraSym (name : List UInt8) (sym : FklCgRmacroGraSym) (t : SymTables) :
    Option (SymTables × FklGrammerSym) := do
  match sym.type with
  | .none | .eof => failure
  | .comp =>
    match ← sym.v with
    | .atom (.fix v) => if 0 ≤ v ∧ v < 2 ^ 32 then return (t, .comp v.toNat) else failure
    | _ => failure
  | .keyword =>
    let (terminals, str) := fklAddString t.terminals (← asStr (← sym.v))
    return ({ t with terminals }, .term (.string str))
  | .nonterm =>
    let left ← rmacroNontermOf E name (← sym.v)
    return (t, .nonterm (E.symbol left))
  | .ignore => if sym.v.isNone then return (t, .ignore) else failure
  | .builtin | .regex | .string =>
    let (t, s) ← rmacroTermSym E sym t
    return (t, .term s)

def rmacroProdSymToIgSym (sym : FklCgRmacroGraSym) (t : SymTables) :
    Option (SymTables × FklGrammerIgnoreSym) := rmacroTermSym E sym t

/-- The symbols of an array one after the other. -/
def rmacroSyms {α : Type} (convert : FklCgRmacroGraSym → SymTables → Option (SymTables × α)) :
    SymTables → List FklCgRmacroGraSym → Option (SymTables × List α)
  | t, [] => some (t, [])
  | t, sym :: syms => do
    let (t, s) ← convert sym t
    let (t, ss) ← rmacroSyms convert t syms
    return (t, s :: ss)

def getRmacroProdLeft (name : List UInt8) (prod : FklVMvalueCgRmacroProd) : Option Nat := do
  match ← prod.left with
  | .atom .nil => return E.symbol E.start
  | .atom (.sym left) =>
    let left := makeQualifiedSym name left
    if left ∈ E.builtinNonterms then failure else return E.symbol left
  | _ => failure

inductive ActionType where
  | builtin
  | simple
  | custom
  | replace
  deriving DecidableEq

def actionTypeOf (v : Nast) : Option ActionType := do
  let s ← asSym v
  if s = bytesOf "builtin" then return .builtin
  else if s = bytesOf "simple" then return .simple
  else if s = bytesOf "custom" then return .custom
  else if s = bytesOf "replace" then return .replace
  else failure

/-- The function of a production with its context. -/
abbrev RmacroAct := ActionType × FklRmacroAction

def createActProd (left : Nat) (type : ActionType) (action : FklRmacroAction)
    (syms : List FklGrammerSym) : Option (FklGrammerProduction RmacroAct) :=
  match type, action with
  | .builtin, .ast id =>
    if fklIsCgRmacroBuiltinActionValid id then
      some (fklCreateProduction left syms (.builtin, .ast id))
    else none
  | .builtin, _ => none
  | type, action => some (fklCreateProduction left syms (type, action))

def rmacroProdToProd (name : List UInt8) (t : SymTables) (prod : FklVMvalueCgRmacroProd) :
    Option (SymTables × FklGrammerProduction RmacroAct) := do
  let type ← actionTypeOf (← prod.actionType)
  let left ← getRmacroProdLeft E name prod
  let (t, syms) ← rmacroSyms (rmacroProdSymToGraSym E name) t prod.syms
  return (t, ← createActProd left type prod.action syms)

/-- `create_extra_start_prod` -/
def createExtraStartProd (left : Nat) : FklGrammerProduction RmacroAct :=
  ⟨E.symbol E.start, [.nonterm left], 0, (.builtin, .ast (.atom (.sym (bytesOf "first"))))⟩

/-- Whether the command is in error, with the grammar that it leaves. -/
def doRmacroAddProd (name : List UInt8) (g : FklGrammer RmacroAct)
    (prod : FklVMvalueCgRmacroProd) : Option (Bool × FklGrammer RmacroAct) := do
  let (t, outProd) ← rmacroProdToProd E name g.toSymTables prod
  let g := { g with toSymTables := t }
  match g.fklAddProdToProdTableNoRepeat E.toGrammerEnv outProd with
  | none => return (true, g)
  | some g =>
    if prod.addExtra then
      let left := makeQualifiedSym name (← asSym (← prod.left))
      return (false, ← g.fklAddProdToProdTable E.toGrammerEnv
        (createExtraStartProd E (E.symbol left)))
    else return (false, g)

def doRmacroAddIgnore (g : FklGrammer RmacroAct) (prod : FklVMvalueCgRmacroProd) :
    Option (FklGrammer RmacroAct) := do
  let (t, ig) ← rmacroSyms (rmacroProdSymToIgSym E) g.toSymTables prod.syms
  return { g with
    toSymTables := t, ignores := (fklAddIgnoreToIgnoreList g.ignores ig).getD g.ignores }

def rmacroCmd (name : List UInt8) (g : FklGrammer RmacroAct) :
    FklCgRmacroCmd → Option (Bool × FklGrammer RmacroAct)
  | .addDelim s => do
    let (t, _) := g.toSymTables.addDelimiter (← asStr s)
    return (false, { g with toSymTables := t })
  | .addProd prod => doRmacroAddProd E name g prod
  | .addIgnore prod => do return (false, ← doRmacroAddIgnore E g prod)

/-- The commands one after the other, up to the first that is in error. -/
def fklExecuteCgRmacro (name : List UInt8) :
    FklGrammer RmacroAct → FklVMvalueCgRmacro → Option (Bool × FklGrammer RmacroAct)
  | g, [] => some (false, g)
  | g, cmd :: cmds => do
    match ← rmacroCmd E name g cmd with
    | (true, g) => return (true, g)
    | (false, g) => fklExecuteCgRmacro name g cmds

end

/-! An environment with the builtin nonterminal `*s-exp*`, where symbols are numbered by their
bytes. -/

def symbolNumber : List UInt8 → Nat
  | [] => 0
  | c :: s => symbolNumber s * 257 + c.toNat + 1

theorem symbolNumber_inj : Function.Injective symbolNumber := by
  intro s
  induction s with
  | nil =>
    intro s' h
    cases s' with
    | nil => rfl
    | cons c s' => simp [symbolNumber] at h
  | cons c s ih =>
    intro s' h
    cases s' with
    | nil => simp [symbolNumber] at h
    | cons c' s' =>
      simp only [symbolNumber] at h
      have hc := c.toNat_lt
      have hc' := c'.toNat_lt
      rw [ih (by omega : symbolNumber s = symbolNumber s'),
        UInt8.toNat_inj.mp (by omega : c.toNat = c'.toNat)]

def sExpEnv (compiles : List UInt8 → Bool) : RmacroEnv where
  symbol s := symbolNumber s + 1
  symbol_inj _ _ h := symbolNumber_inj (Nat.succ_injective h)
  symbol_ne_null _ := Nat.succ_ne_zero _
  compiles := compiles
  builtinNonterms := [bytesOf "*s-exp*"]
  unqualified := by decide
  nonterms := by decide
  start := bytesOf "*s-exp*"
  start_nonterm := by decide

end FakeLisp.GrammerTables
