import FakeLisp.Lr0Items
import FakeLisp.Parser

/-! The analysis table is made of the item sets and their links. The actions of a state are kept in
a list whose order says which of them is tried first. -/

namespace FakeLisp

abbrev FklLalrItemSetHashMap := List (ExploreNode (List FklLalrItem) FklLalrItemSetLink)

/-- What a shift on the symbol matches. -/
def FklGrammerSym.term : FklGrammerSym → Option FklLalrItemLookAhead
  | .keyword str => some (.keyword str)
  | .string str => some (.string str)
  | .regex re => some (.regex re)
  | .builtin b => some (.builtin b)
  | .comp parts => some (.comp parts)
  | .ignore | .nonterm _ => none

theorem FklGrammerSym.term_ne {sym : FklGrammerSym} {t : FklLalrItemLookAhead}
    (h : sym.term = some t) : t ≠ .eof ∧ t ≠ .ignore ∧ t ≠ .none := by
  cases sym <;> cases h <;> simp

def createShiftAction (sym : FklGrammerSym) (allowIgnore : Bool) (state : Nat) :
    Option FklAnalysisStateAction :=
  match h : sym.term with
  | some t => some ⟨⟨t, allowIgnore, fun ht => absurd ht (sym.term_ne h).2.1⟩, .shift state,
      fun ht => absurd ht (sym.term_ne h).1⟩
  | none => none

def createStateGoto (nt : Nat) (allowIgnore : Bool) (state : Nat) : FklAnalysisStateGoto :=
  ⟨allowIgnore, nt, state⟩

def lalrLookaheadAndActionMatchEqual (m : FklAnalysisStateActionMatch)
    (la : FklLalrItemLookAhead) : Bool :=
  match la with
  | .eof | .none | .ignore => false
  | la => m.t = la

def checkReduceConflict (actions : List FklAnalysisStateAction) (la : FklLalrItemLookAhead) :
    Bool :=
  actions.any fun a => lalrLookaheadAndActionMatchEqual a.m la

def FklGrammerSym.isIgnoreOrComp : FklGrammerSym → Bool
  | .ignore | .comp _ => true
  | _ => false

def fklComputeProdActualLen (syms : List FklGrammerSym) : Nat :=
  syms.length - syms.countP FklGrammerSym.isIgnoreOrComp

/-- The action of a production that is complete. -/
def reduceEnum (prod : FklGrammerProduction) : FklAnalysisStateActionEnum :=
  if isSqNt prod.left then .accept else .reduce prod (fklComputeProdActualLen prod.syms)

def createReduceAction (prod : FklGrammerProduction) (la : FklLalrItemLookAhead) :
    FklAnalysisStateAction :=
  ⟨⟨la, false, fun _ => rfl⟩, reduceEnum prod, fun _ => by
    unfold reduceEnum
    split_ifs <;> exact id⟩

def createIgnoreAction : FklAnalysisStateAction :=
  ⟨⟨.ignore, false, fun _ => rfl⟩, .ignore, ignore_not_taken_on_eof⟩

/-- An action is put before the first one that stops the search. -/
def insertAction (stop : FklAnalysisStateAction → Bool) (a : FklAnalysisStateAction) :
    List FklAnalysisStateAction → List FklAnalysisStateAction
  | [] => [a]
  | cur :: actions => if stop cur then a :: cur :: actions else cur :: insertAction stop a actions

/-- The search starts at the first action of the type. -/
def insertActionFrom (curType : Nat) (stop : FklAnalysisStateAction → Bool)
    (a : FklAnalysisStateAction) : List FklAnalysisStateAction → List FklAnalysisStateAction
  | [] => [a]
  | cur :: actions =>
    if cur.m.t.t = curType then insertAction stop a (cur :: actions)
    else cur :: insertActionFrom curType stop a actions

def grammerSymPriority : List Nat :=
  [(.comp [] : FklGrammerSym).type, (.keyword 0 : FklGrammerSym).type,
    (.string 0 : FklGrammerSym).type, (.regex 0 : FklGrammerSym).type,
    (.builtin ⟨0, []⟩ : FklGrammerSym).type, FklGrammerSym.ignore.type]

/-- The loops of `fklGenerateLalrAnalyzeTable` end early. -/
inductive TableFailure where
  | conflict
  | unreachable
  deriving DecidableEq

namespace FklGrammer

variable (g : FklGrammer)

def compPartSize : FklCompPart → Nat
  | .string s => (g.str s).length
  | .regex re => g.totalsize re
  | .builtin _ => 0

def compositeFixedSize (parts : List FklCompPart) : Nat := (parts.map g.compPartSize).sum

/-- The size by which the actions of a type are ordered. -/
def termSize : FklLalrItemLookAhead → Nat
  | .string s | .keyword s => (g.str s).length
  | .regex re => g.totalsize re
  | .comp parts => g.compositeFixedSize parts
  | _ => 0

/-- Where the search for the place of a reduction stops. -/
def reduceStop (la : FklLalrItemLookAhead) (cur : FklAnalysisStateAction) : Bool :=
  match la with
  | .string _ | .keyword _ | .regex _ => cur.m.t.t ≠ la.t ∨ g.termSize la > g.termSize cur.m.t
  | _ => true

def addReduceAction (curType : Nat) (actions : List FklAnalysisStateAction)
    (prod : FklGrammerProduction) (la : FklLalrItemLookAhead) :
    Except TableFailure (List FklAnalysisStateAction) :=
  if checkReduceConflict actions la then .error .conflict
  else .ok (insertActionFrom curType (g.reduceStop la) (createReduceAction prod la) actions)

/-- Where the search for the place of a shift stops. -/
def shiftStop (t : FklLalrItemLookAhead) (allowIgnore : Bool) (cur : FklAnalysisStateAction) :
    Bool :=
  cur.m.t.t ≠ t.t ∨ (!allowIgnore && cur.m.allowIgnore) ∨ g.termSize t > g.termSize cur.m.t

def addShiftAction (curType : Nat) (actions : List FklAnalysisStateAction) (sym : FklGrammerSym)
    (allowIgnore : Bool) (dstState : Nat) : Except TableFailure (List FklAnalysisStateAction) :=
  match createShiftAction sym allowIgnore dstState with
  | some a => .ok (insertActionFrom curType (g.shiftStop a.m.t allowIgnore) a actions)
  | none => .error .unreachable

def addIgnoreAction (actions : List FklAnalysisStateAction) : List FklAnalysisStateAction :=
  insertAction (fun cur => cur.m.t = .ignore) createIgnoreAction actions

/-- A state that is being made. -/
structure TableState where
  action : List FklAnalysisStateAction
  gt : List FklAnalysisStateGoto
  ignoreAdded : Bool

def addLink (priority : Nat) (s : TableState) (ll : FklLalrItemSetLink) :
    Except TableFailure TableState :=
  match ll.sym with
  | .nonterm nt =>
    if priority = (.keyword 0 : FklGrammerSym).type ∧ ll.allowIgnore ∨
        priority = (.string 0 : FklGrammerSym).type ∧ !ll.allowIgnore then
      .ok { s with gt := createStateGoto nt ll.allowIgnore ll.dst :: s.gt }
    else .ok s
  | sym =>
    if sym.type = priority then
      (g.addShiftAction priority s.action sym ll.allowIgnore ll.dst).map fun actions =>
        { s with action := actions }
    else .ok s

def addItem (priority : Nat) (s : TableState) (il : FklLalrItem) :
    Except TableFailure TableState :=
  if il.getItemNext = none ∧ il.la.t = priority then
    if il.la = .ignore then .ok { s with action := addIgnoreAction s.action, ignoreAdded := true }
    else (g.addReduceAction priority s.action il.prod il.la).map fun actions =>
      { s with action := actions }
  else .ok s

def isOnlySingleWayToReduce (set : ExploreNode (List FklLalrItem) FklLalrItemSetLink) : Bool :=
  set.edges.all (fun l => match l.sym with | .nonterm _ => true | _ => false) &&
    (set.key.foldl (fun prods item => hashSetPut prods item.prod) []).length = 1 &&
    set.key.any fun item => item.la = .eof

/-- The actions and gotos of one priority. -/
def addPriority (set : ExploreNode (List FklLalrItem) FklLalrItemSetLink) (s : TableState)
    (priority : Nat) : Except TableFailure TableState := do
  let s ← set.edges.foldlM (g.addLink priority) s
  if isOnlySingleWayToReduce set then return s else set.key.foldlM (g.addItem priority) s

/-- The action of a state that is only there to reduce. -/
def addSingleWay (set : ExploreNode (List FklLalrItem) FklLalrItemSetLink) (s : TableState) :
    Except TableFailure TableState :=
  if isOnlySingleWayToReduce set then
    match set.key with
    | item :: _ =>
      (g.addReduceAction FklLalrItemLookAhead.eof.t s.action item.prod .eof).map fun actions =>
        { s with action := actions }
    | [] => .error .unreachable
  else .ok s

def analysisState (idx : Nat) (set : ExploreNode (List FklLalrItem) FklLalrItemSetLink) :
    Except TableFailure FklAnalysisState := do
  let s ← grammerSymPriority.foldlM (g.addPriority set) ⟨[], [], false⟩
  let s ← g.addSingleWay set s
  if idx = 0 ∧ !s.ignoreAdded then return ⟨addIgnoreAction s.action, s.gt⟩
  else return ⟨s.action, s.gt⟩

def analysisStates : Nat → FklLalrItemSetHashMap → Except TableFailure FklAnalysisTable
  | _, [] => .ok []
  | idx, set :: sets => do
    let s ← g.analysisState idx set
    let ss ← analysisStates (idx + 1) sets
    return s :: ss

/-- `states = NULL`, `num = 0` -/
def clearAnalysisTable : FklAnalysisTable := []

/-- Whether there is a conflict, and the table. -/
def fklGenerateLalrAnalyzeTable (states : FklLalrItemSetHashMap) :
    Option (Bool × FklAnalysisTable) :=
  match g.analysisStates 0 states with
  | .ok table => some (false, table)
  | .error .conflict => some (true, clearAnalysisTable)
  | .error .unreachable => none

end FklGrammer

end FakeLisp
