import FakeLisp.InsertionMap
import FakeLisp.VMValueEqual

/-!
Patterns of macros and the expressions they are matched with. Both are values without cycles:
pairs, vectors, boxes, hash tables and atoms; a pattern also has slots and the wildcard that
stands for the head symbol.
-/

namespace FakeLisp

/-- Symbols and keywords are interned. A double is one object with its bits. -/
inductive NastAtom where
  | nil
  | fix (i : Int)
  | chr (c : Int)
  | sym (s : List UInt8)
  | keyword (s : List UInt8)
  | str (s : List UInt8)
  | bytes (s : List UInt8)
  | bigint (num : Int)
  | f64 (addr : Nat) (bits : UInt64)
deriving DecidableEq

/-- `==` of C on two doubles. -/
def NastAtom.f64s : NastAtom → NastAtom → Bool
  | .f64 _ bits, .f64 _ bits' => f64Equal bits bits'
  | _, _ => false

def NastAtom.equal (a b : NastAtom) : Bool := a = b || a.f64s b

/-- What holds its elements in one block; a hash table holds its keys and values in turn. -/
inductive NastBlock where
  | box
  | vec
  | hashTable (eqType : FklHashTableEqType)
deriving DecidableEq

inductive FklPmatchExpandType where
  | none
  | once
  | all
deriving DecidableEq

inductive FklPatternCover where
  | notEqual
  | cover
  | beCover
  | equal
deriving DecidableEq

inductive Nast where
  | atom (a : NastAtom)
  | slot (addr : Nat) (s : List UInt8) (expand : FklPmatchExpandType)
  | header
  | pair (car cdr : Nast)
  | block (kind : NastBlock) (elems : List Nast)

namespace Nast

/-- The symbol `header`; symbols are compared by address. -/
def isSymbol (header : List UInt8) : Nast → Bool
  | .atom (.sym s) => s = header
  | _ => false

def fklIsVMvalueSlot : Nast → Bool
  | .slot .. => true
  | _ => false

mutual

/-- Slots and the wildcard are userdata without an equality of their own. -/
def fklVMvalueEqual : Nast → Nast → Bool
  | .atom a, .atom b => a.equal b
  | .slot addr _ _, .slot addr' _ _ => addr = addr'
  | .header, .header => true
  | .pair a d, .pair a' d' => fklVMvalueEqual a a' && fklVMvalueEqual d d'
  | .block k es, .block k' es' => k = k' && elemsEqual es es'
  | _, _ => false

def elemsEqual : List Nast → List Nast → Bool
  | [], [] => true
  | e :: es, e' :: es' => fklVMvalueEqual e e' && elemsEqual es es'
  | _, _ => false

end

/-- The number of values that the walks along pairs can reach. -/
def spine : Nast → Nat
  | .pair a d => a.spine + d.spine + 1
  | _ => 1

@[simp] theorem spine_pos (n : Nast) : 0 < n.spine := by
  cases n <;> simp [spine]

/-! Matching. -/

structure FklPmatchRes where
  value : Nast
  container : Nast
  expand : FklPmatchExpandType

/-- Symbols are compared by address. -/
def symEq (s s' : List UInt8) : Bool := s = s'

theorem keyEquiv_symEq : KeyEquiv symEq where
  refl k := by simp [symEq]
  symm k k' := by simp [symEq, eq_comm]
  trans k k' k'' := by simp +contextual [symEq]

abbrev FklPmatchHashMap := InsertionMap symEq FklPmatchRes

structure PmatchPair where
  pat : Nast
  exp : Nast
  cont : Nast

def patternMatchLoop (header : List UInt8) :
    List PmatchPair → Option FklPmatchHashMap → Bool × Option FklPmatchHashMap
  | [], ht => (true, ht)
  | ⟨.slot _ s expand, exp, cont⟩ :: rest, ht =>
    patternMatchLoop header rest (ht.map fun m => m.set keyEquiv_symEq s ⟨exp, cont, expand⟩)
  | ⟨.header, exp, _⟩ :: rest, ht =>
    if !isSymbol header exp then (false, ht) else patternMatchLoop header rest ht
  | ⟨.pair a d, .pair a' d', _⟩ :: rest, ht =>
    patternMatchLoop header (⟨a, a', .pair a' d'⟩ :: ⟨d, d', .pair a' d'⟩ :: rest) ht
  | ⟨pat, exp, _⟩ :: rest, ht =>
    if !fklVMvalueEqual pat exp then (false, ht) else patternMatchLoop header rest ht
termination_by s => (s.map fun t => t.pat.spine).sum
decreasing_by all_goals simp [spine]; try omega

/-- `header` is the head symbol. -/
def fklPatternMatch1 (header : List UInt8) (pat exp : Nast) (ht : Option FklPmatchHashMap) :
    Bool × Option FklPmatchHashMap :=
  patternMatchLoop header [⟨pat, exp, exp⟩] ht

/-! Comparing two patterns. -/

def isPatternEqualLoop : List (Nast × Nast) → Bool
  | [] => true
  | (.slot .., .slot ..) :: s => isPatternEqualLoop s
  | (.pair a d, .pair a' d') :: s => isPatternEqualLoop ((a, a') :: (d, d') :: s)
  | (n0, n1) :: s => if !fklVMvalueEqual n0 n1 then false else isPatternEqualLoop s
termination_by s => (s.map fun n => n.1.spine).sum
decreasing_by all_goals simp [spine]; try omega

def isPatternEqual (pattern exp : Nast) : Bool := isPatternEqualLoop [(pattern, exp)]

def isPartlyCoveredLoop : List (Nast × Nast) → Bool
  | [] => false
  | (.slot .., n1) :: s => if fklIsVMvalueSlot n1 then isPartlyCoveredLoop s else true
  | (.pair a d, .pair a' d') :: s => isPartlyCoveredLoop ((a, a') :: (d, d') :: s)
  | (n0, n1) :: s => if !fklVMvalueEqual n0 n1 then false else isPartlyCoveredLoop s
termination_by s => (s.map fun n => n.1.spine).sum
decreasing_by all_goals simp [spine]; try omega

def isPartlyCovered (pattern exp : Nast) : Bool := isPartlyCoveredLoop [(pattern, exp)]

def fklPatternCoverState (p0 p1 : Nast) : FklPatternCover :=
  if isPatternEqual p0 p1 then .equal
  else if isPartlyCovered p0 p1 then .cover
  else if isPartlyCovered p1 p0 then .beCover
  else .notEqual

end Nast

end FakeLisp
