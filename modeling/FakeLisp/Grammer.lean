import FakeLisp.CfgFirst
import FakeLisp.OrdMap

/-! Grammars. Strings, regular expressions, builtin terminals and nonterminals are compared by
their addresses. -/

namespace FakeLisp

structure FklLalrBuiltinGrammerSym where
  t : Nat
  args : List (List UInt8)
  deriving DecidableEq

/-- The parts of a composite terminal. -/
inductive FklCompPart where
  | builtin (b : FklLalrBuiltinGrammerSym)
  | regex (re : Nat)
  | string (str : Nat)
  deriving DecidableEq

inductive FklGrammerSym where
  | keyword (str : Nat)
  | string (str : Nat)
  | regex (re : Nat)
  | builtin (b : FklLalrBuiltinGrammerSym)
  | ignore
  | nonterm (nt : Nat)
  | comp (parts : List FklCompPart)
  deriving DecidableEq

inductive FklLalrItemLookAhead where
  | none
  | keyword (s : Nat)
  | string (s : Nat)
  | regex (re : Nat)
  | builtin (b : FklLalrBuiltinGrammerSym)
  | ignore
  | eof
  | comp (parts : List FklCompPart)
  deriving DecidableEq

def FklCompPart.sym : FklCompPart → FklGrammerSym
  | .builtin b => .builtin b
  | .regex re => .regex re
  | .string str => .string str

/-- The parts of a composite terminal follow it in the array. -/
inductive CompLaid : List FklGrammerSym → Prop
  | nil : CompLaid []
  | sym {s : FklGrammerSym} {syms : List FklGrammerSym} (hs : ∀ parts, s ≠ .comp parts)
    (h : CompLaid syms) : CompLaid (s :: syms)
  | comp (parts : List FklCompPart) {syms : List FklGrammerSym} (h : CompLaid syms) :
    CompLaid (.comp parts :: (parts.map FklCompPart.sym ++ syms))

/-! Right sides of small grammars. -/

theorem laid_start : CompLaid [.ignore, .nonterm 1] := .sym (by simp) (.sym (by simp) .nil)

theorem laid_string0 : CompLaid [.string 0] := .sym (by simp) .nil

theorem laid_string1 : CompLaid [.string 1] := .sym (by simp) .nil

structure FklGrammerProduction where
  left : Nat
  syms : List FklGrammerSym
  laid : CompLaid syms
  deriving DecidableEq

/-- The left side of the extra production is `NULL`. -/
def isSqNt (nt : Nat) : Prop := nt = 0

instance (nt : Nat) : Decidable (isSqNt nt) := inferInstanceAs (Decidable (nt = 0))

structure FklGrammer where
  prods : OrdMap Nat (List FklGrammerProduction)
  left_eq : ∀ e ∈ prods.entries, ∀ p ∈ e.2, p.left = e.1
  /-- The bytes of the strings. -/
  str : Nat → List UInt8
  /-- `totalsize` of the regular expressions -/
  totalsize : Nat → Nat
  /-- `is_regex_match_epsilon` -/
  isRegexMatchEpsilon : Nat → Bool
  /-- `is_builtin_terminal_match_epsilon` -/
  isBuiltinTerminalMatchEpsilon : FklLalrBuiltinGrammerSym → Bool

namespace FklGrammer

variable (g : FklGrammer)

def fklGetProductions (nt : Nat) : List FklGrammerProduction :=
  match g.prods.entries.find? fun e => e.1 = nt with
  | some e => e.2
  | none => []

section

variable {g}

theorem productions_of_mem {nt : Nat} {ps : List FklGrammerProduction}
    (h : (nt, ps) ∈ g.prods.entries) : g.fklGetProductions nt = ps := by
  unfold fklGetProductions
  cases hf : g.prods.entries.find? fun e => e.1 = nt with
  | none =>
    have := List.find?_eq_none.mp hf _ h
    simp at this
  | some e =>
    obtain ⟨k, qs⟩ := e
    obtain rfl : k = nt := by simpa using List.find?_some hf
    exact OrdMap.eq_of_mem (List.mem_of_find?_eq_some hf) h

theorem mem_of_productions {nt : Nat} {p : FklGrammerProduction}
    (h : p ∈ g.fklGetProductions nt) : ∃ ps, (nt, ps) ∈ g.prods.entries ∧ p ∈ ps := by
  unfold fklGetProductions at h
  cases hf : g.prods.entries.find? fun e => e.1 = nt with
  | none => simp [hf] at h
  | some e =>
    obtain ⟨k, qs⟩ := e
    obtain rfl : k = nt := by simpa using List.find?_some hf
    exact ⟨qs, List.mem_of_find?_eq_some hf, by simpa [hf] using h⟩

end

def isCompPartMatchEpsilon : FklCompPart → Bool
  | .builtin b => g.isBuiltinTerminalMatchEpsilon b
  | .regex re => g.isRegexMatchEpsilon re
  | .string str => g.str str = []

def isCompTerminalMatchEpsilon (parts : List FklCompPart) : Bool :=
  parts.all g.isCompPartMatchEpsilon

/-- `fklCheckUndefinedNonterm` finds nothing. -/
def Defined : Prop :=
  ∀ e ∈ g.prods.entries, ∀ p ∈ e.2, ∀ nt, .nonterm nt ∈ p.syms →
    ¬isSqNt nt ∧ ∃ ps, (nt, ps) ∈ g.prods.entries

/-! The grammar as a context-free one. -/

/-- The terminals that match the empty string. -/
def TermEps : FklLalrItemLookAhead → Prop
  | .regex re => g.isRegexMatchEpsilon re = true
  | .builtin b => g.isBuiltinTerminalMatchEpsilon b = true
  | .comp parts => g.isCompTerminalMatchEpsilon parts = true
  | .ignore => True
  | _ => False

/-- The right side from a place in it; empty strings are no symbols, and the parts of a composite
terminal belong to it. -/
def rhsOf : Nat → List FklGrammerSym → List (Symbol FklLalrItemLookAhead Nat)
  | _, [] => []
  | skip + 1, _ :: rest => rhsOf skip rest
  | 0, sym :: rest =>
    match sym with
    | .builtin b => .terminal (.builtin b) :: rhsOf 0 rest
    | .comp parts => .terminal (.comp parts) :: rhsOf parts.length rest
    | .regex re => .terminal (.regex re) :: rhsOf 0 rest
    | .nonterm nt => .nonterminal nt :: rhsOf 0 rest
    | .ignore => .terminal .ignore :: rhsOf 0 rest
    | .string s => if g.str s = [] then rhsOf 0 rest else .terminal (.string s) :: rhsOf 0 rest
    | .keyword s => if g.str s = [] then rhsOf 0 rest else .terminal (.keyword s) :: rhsOf 0 rest

/-- The productions of a nonterminal; the extra production is not one of them. -/
def rhss (nt : Nat) : List (List (Symbol FklLalrItemLookAhead Nat)) :=
  if isSqNt nt then [] else (g.fklGetProductions nt).map fun p => g.rhsOf 0 p.syms

end FklGrammer

end FakeLisp
