import FakeLisp.ActionMatch
import FakeLisp.InsertionMap
import FakeLisp.InternTable
import FakeLisp.Obarray

/-!
Grammars with the tables of their strings and regular expressions, how productions and ignores
are added to them, and how one grammar is merged into another.
-/

namespace FakeLisp.GrammerTables

abbrev FklString := Interned (List UInt8)

abbrev FklStringTable := InternTable (List UInt8)

/-- `str_re` and `re_str`, which hold the same pairs -/
abbrev FklRegexTable := InternTable (List UInt8)

/-- What the grammars share: the symbols that name builtin terminals, and whether
`fklRegexCompileCharBuf` compiles a text. -/
structure GrammerEnv where
  isBuiltin : Nat → Bool
  isBuiltin_null : isBuiltin 0 = false
  compiles : List UInt8 → Bool

def fklAddString (st : FklStringTable) (s : List UInt8) : FklStringTable × FklString := st.add s

def fklAddRegexStr (compiles : List UInt8 → Bool) (t : FklRegexTable) (str : List UInt8) :
    FklRegexTable × Option Nat :=
  if str ∈ t.keys ∨ compiles str = true then
    let (t, re) := t.add str
    (t, some re.addr)
  else (t, none)

def fklGetStringWithRegex (t : FklRegexTable) (re : Option Nat) : Option (List UInt8) :=
  re.bind fun re => t.keys[re]?

def minArgs : FklLalrBuiltinMatch → Nat
  | .sChar | .rawString => 1
  | _ => 0

def maxArgs : FklLalrBuiltinMatch → Nat
  | .sDint | .sXint | .sOint | .sDfloat | .sXfloat | .sChar => 1
  | .symbol | .rawString => 2
  | _ => 0

inductive FklBuiltinTerminalInitError where
  | dummy
  | tooManyArgs
  | tooFewArgs
  deriving DecidableEq

def fklBuiltinTermArgsCheck (b : FklLalrBuiltinMatch) (count : Nat) :
    FklBuiltinTerminalInitError :=
  if count < minArgs b then .tooFewArgs
  else if count > maxArgs b then .tooManyArgs
  else .dummy

structure FklLalrBuiltinGrammerSym where
  t : FklLalrBuiltinMatch
  args : List FklString

/-- The kinds of symbols that productions and ignores have in common. The address of a regular
expression that did not compile is `NULL`. -/
inductive FklGrammerIgnoreSym where
  | string (str : FklString)
  | regex (re : Option Nat)
  | builtin (b : FklLalrBuiltinGrammerSym)

inductive FklGrammerSym where
  | term (s : FklGrammerIgnoreSym)
  | keyword (str : FklString)
  | ignore
  | nonterm (nt : Nat)
  | comp (len : Nat)

abbrev FklGrammerIgnore := List FklGrammerIgnoreSym

/-- Arrays are compared by their lengths, then element by element. -/
def arrayEqual {α : Type} (eq : α → α → Bool) (a b : List α) : Bool :=
  a.length == b.length && (a.zip b).all fun e => eq e.1 e.2

def fklBuiltinGrammerSymEqual (s0 s1 : FklLalrBuiltinGrammerSym) : Bool :=
  s0.t == s1.t && arrayEqual (fun a b => fklStringEqual a.key b.key) s0.args s1.args

def ignoreSymEqual : FklGrammerIgnoreSym → FklGrammerIgnoreSym → Bool
  | .builtin b0, .builtin b1 => fklBuiltinGrammerSymEqual b0 b1
  | .string str0, .string str1 => str0.addr == str1.addr
  | .regex re0, .regex re1 => re0 == re1
  | _, _ => false

def ignoreEqual : FklGrammerIgnore → FklGrammerIgnore → Bool := arrayEqual ignoreSymEqual

def prodSymEqual : FklGrammerSym → FklGrammerSym → Bool
  | .term s0, .term s1 => ignoreSymEqual s0 s1
  | .keyword str0, .keyword str1 => str0.addr == str1.addr
  | .nonterm nt0, .nonterm nt1 => nt0 == nt1
  | .ignore, .ignore => true
  | .comp len0, .comp len1 => len0 == len1
  | _, _ => false

variable {C : Type}

/-- The action is its function with its context. -/
structure FklGrammerProduction (C : Type) where
  left : Nat
  syms : List FklGrammerSym
  idx : Nat
  action : C

def prodEqual (prod0 prod1 : FklGrammerProduction C) : Bool :=
  arrayEqual prodSymEqual prod0.syms prod1.syms

def fklCreateProduction (left : Nat) (syms : List FklGrammerSym) (action : C) :
    FklGrammerProduction C :=
  ⟨left, syms, 0, action⟩

theorem nontermEquiv : KeyEquiv (K := Nat) (· == ·) where
  refl := by simp
  symm := by simp
  trans := by simp

structure SymTables where
  terminals : FklStringTable
  delimiters : FklStringTable
  regexes : FklRegexTable

/-- The start symbol is 0 for `NULL`. -/
structure FklGrammer (C : Type) extends SymTables where
  prods : InsertionMap (K := Nat) (· == ·) (List (FklGrammerProduction C))
  ignores : List FklGrammerIgnore
  prodCount : Nat
  start : Nat

namespace FklGrammer

variable (E : GrammerEnv) (g : FklGrammer C)

def fklInitEmptyGrammer : FklGrammer C :=
  ⟨⟨.empty, .empty, .empty⟩, .empty, [], 0, 0⟩

def fklClearGrammer : FklGrammer C :=
  { g with prodCount := 0, start := 0, prods := .empty, ignores := [], delimiters := .empty }

def setProds (nt : Nat) (ps : List (FklGrammerProduction C)) : FklGrammer C :=
  { g with prods := g.prods.set nontermEquiv nt ps }

/-- A production takes the next index behind the productions `ps` of its left side. -/
def appendProd (ps : List (FklGrammerProduction C)) (prod : FklGrammerProduction C) :
    FklGrammer C :=
  { g.setProds prod.left (ps ++ [{ prod with idx := g.prodCount }]) with
    prodCount := g.prodCount + 1 }

/-- The production for the start symbol, of which `action` does nothing. -/
def createExtraProduction (start : Nat) (action : C) : FklGrammerProduction C :=
  ⟨0, [.ignore, .nonterm start], 1, action⟩

/-- What the functions that add a production do in common. They differ in what takes the place of
an equal production and in what is done before the first production of a left side. -/
def addProd (onEqual : FklGrammerProduction C → Option (FklGrammerProduction C))
    (onFirst : FklGrammer C → FklGrammer C) (prod : FklGrammerProduction C) :
    Option (FklGrammer C) :=
  if E.isBuiltin prod.left then none
  else
    match g.prods.get prod.left with
    | some ps =>
      match ps.span fun cur => !prodEqual cur prod with
      | (pre, cur :: post) => (onEqual cur).map fun p => g.setProds prod.left (pre ++ p :: post)
      | (_, []) => some (g.appendProd ps prod)
    | none => some ((onFirst g).appendProd [] prod)

def addExtra (left : Nat) (noAction : C) : FklGrammer C :=
  { g.setProds 0 [{ createExtraProduction left noAction with idx := g.prodCount }] with
    prodCount := g.prodCount + 1, start := left }

def fklAddProdAndExtraToGrammer (noAction : C) (prod : FklGrammerProduction C) :
    Option (FklGrammer C) :=
  g.addProd E (fun _ => some prod)
    (fun g => if g.start = 0 then g.addExtra prod.left noAction else g) prod

def fklAddProdToProdTable (prod : FklGrammerProduction C) : Option (FklGrammer C) :=
  g.addProd E (fun cur => some { prod with idx := cur.idx }) id prod

def fklAddProdToProdTableNoRepeat (prod : FklGrammerProduction C) : Option (FklGrammer C) :=
  g.addProd E (fun _ => none) id prod

/-- The extra production of a grammar whose start symbol has just been set. -/
def fklAddExtraProdToGrammer (noAction : C) (start : Nat) : Option (FklGrammer C) :=
  if E.isBuiltin start then none else some (g.addExtra start noAction)

end FklGrammer

def fklAddIgnoreToIgnoreList (igs : List FklGrammerIgnore) (ig : FklGrammerIgnore) :
    Option (List FklGrammerIgnore) :=
  if igs.any fun cur => ignoreEqual cur ig then none else some (igs ++ [ig])

/-! The merge. -/

namespace SymTables

variable (E : GrammerEnv) (t : SymTables)

/-- A string that is a delimiter too. -/
def addDelimiter (s : List UInt8) : SymTables × FklString :=
  let (terminals, str) := fklAddString t.terminals s
  ({ t with terminals, delimiters := (fklAddString t.delimiters s).1 }, str)

def mergeArgs : SymTables → List FklString → SymTables × List FklString
  | t, [] => (t, [])
  | t, a :: args =>
    let (t, str) := t.addDelimiter a.key
    let (t, strs) := t.mergeArgs args
    (t, str :: strs)

/-- Nothing where the text of a regular expression is `NULL` or `FKL_UNREACHABLE` is reached. -/
def mergeIgnoreSym (regexes : FklRegexTable) :
    FklGrammerIgnoreSym → Option (SymTables × FklGrammerIgnoreSym)
  | .string str =>
    let (t, str) := t.addDelimiter str.key
    some (t, .string str)
  | .regex re => do
    let regexStr ← fklGetStringWithRegex regexes re
    let (res, re) := fklAddRegexStr E.compiles t.regexes regexStr
    return ({ t with regexes := res }, .regex re)
  | .builtin b =>
    let (t, args) := t.mergeArgs b.args
    if fklBuiltinTermArgsCheck b.t b.args.length = .dummy then some (t, .builtin ⟨b.t, args⟩)
    else none

def mergeProdSym (regexes : FklRegexTable) :
    FklGrammerSym → Option (SymTables × FklGrammerSym)
  | .term s => do
    let (t, s) ← t.mergeIgnoreSym E regexes s
    return (t, .term s)
  | .keyword str =>
    let (terminals, str) := fklAddString t.terminals str.key
    some ({ t with terminals }, .keyword str)
  | .nonterm nt => some (t, .nonterm nt)
  | .comp len => some (t, .comp len)
  | .ignore => some (t, .ignore)

/-- The symbols of an array one after the other. -/
def mergeAll {α : Type} (merge : SymTables → α → Option (SymTables × α)) :
    SymTables → List α → Option (SymTables × List α)
  | t, [] => some (t, [])
  | t, s :: ss => do
    let (t, s) ← merge t s
    let (t, ss) ← mergeAll merge t ss
    return (t, s :: ss)

end SymTables

namespace FklGrammer

variable (E : GrammerEnv)

def fklMergeGrammerIgnore (g : FklGrammer C) (ig : FklGrammerIgnore) (regexes : FklRegexTable) :
    Option (FklGrammer C) := do
  let (t, newIg) ← g.toSymTables.mergeAll (·.mergeIgnoreSym E regexes) ig
  let igs := fklAddIgnoreToIgnoreList g.ignores newIg
  return { g with toSymTables := t, ignores := igs.getD g.ignores }

def fklMergeGrammerProd (g : FklGrammer C) (prod : FklGrammerProduction C)
    (regexes : FklRegexTable) : Option (FklGrammer C) := do
  let (t, syms) ← g.toSymTables.mergeAll (·.mergeProdSym E regexes) prod.syms
  let g := { g with toSymTables := t }
  let newProd := fklCreateProduction prod.left syms prod.action
  return (g.fklAddProdToProdTableNoRepeat E newProd).getD g

/-- All productions in the order of the table. -/
def allProds (g : FklGrammer C) : List (FklGrammerProduction C) :=
  g.prods.entries.flatMap (·.2)

def fklMergeGrammer (g other : FklGrammer C) : Option (FklGrammer C) := do
  let g ← other.ignores.foldlM (fun g ig => g.fklMergeGrammerIgnore E ig other.regexes) g
  let g ← other.allProds.foldlM (fun g prod => g.fklMergeGrammerProd E prod other.regexes) g
  return { g with delimiters := g.delimiters.addAll other.delimiters.keys }

end FklGrammer

end FakeLisp.GrammerTables
