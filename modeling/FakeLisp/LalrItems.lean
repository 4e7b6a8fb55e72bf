import FakeLisp.AnalysisTable
import FakeLisp.GrammerFirstCache

/-! Look-aheads of the items. Those that an item set gives by itself are put into the sets that it
has links to, the others are spread along the links until nothing changes. -/

namespace FakeLisp

/-- The set at the other end is given by its place. -/
structure FklLookAheadSpreads where
  dstItems : Nat
  src : FklLalrItem
  dst : FklLalrItem

structure LalrItemSet where
  items : List FklLalrItem
  links : List FklLalrItemSetLink
  spreads : List FklLookAheadSpreads

abbrev LalrItemSets := List LalrItemSet

/-- The item set and the items that wait for the next round. -/
structure Lr1Sets where
  itemSet : List FklLalrItem
  nextSet : List FklLalrItem

namespace Lr1Sets

def put (s : Lr1Sets) (newItem : FklLalrItem) : Lr1Sets :=
  if newItem ∈ s.itemSet then s
  else ⟨s.itemSet ++ [newItem], hashSetPut s.nextSet newItem⟩

def putProds (s : Lr1Sets) (prods : List FklGrammerProduction) (la : FklLalrItemLookAhead) :
    Lr1Sets :=
  prods.foldl (fun s prod => s.put ⟨prod, 0, la⟩) s

end Lr1Sets

namespace FklGrammer

variable (g : FklGrammer) (firstSets : FklFirstSets)

/-- What `getFirstSetFromFirstSets` answers, which its cache does not change. -/
def getLaFirstSet (prod : FklGrammerProduction) (beta : Nat) :
    Option (List FklLalrItemLookAhead × Bool) :=
  if prod.syms.length ≤ beta then some ([], true)
  else (g.firstSetLoop firstSets 0 (prod.syms.drop beta) ⟨[], false⟩).map fun item =>
    (item.first, item.hasEpsilon)

/-- The place behind the symbol that follows. -/
def laBeta (l : FklLalrItem) : Nat := if l.isAtDelimSym then l.idx + 2 else l.idx + 1

def lr1ClosureItem (s : Lr1Sets) (l : FklLalrItem) : Option Lr1Sets :=
  match l.getItemNext with
  | some (.nonterm left) =>
    (g.getLaFirstSet firstSets l.prod (laBeta l)).map fun (first, hasEpsilon) =>
      let prods := g.fklGetProductions left
      let s := first.foldl (fun s la => s.putProds prods la) s
      if hasEpsilon then s.putProds prods l.la else s
  | _ => some s

def lr1ClosureRound (s : Lr1Sets) : Option Lr1Sets :=
  s.nextSet.foldlM (g.lr1ClosureItem firstSets) ⟨s.itemSet, []⟩

def lr1ItemSetClosure (fuel : Nat) (itemSet : List FklLalrItem) : Option (List FklLalrItem) :=
  (whileLoop (fun s : Lr1Sets => !s.nextSet.isEmpty) (g.lr1ClosureRound firstSets) fuel
    ⟨itemSet, itemSet⟩).map (·.itemSet)

def addLookaheadSpread (sets : LalrItemSets) (i : Nat) (sp : FklLookAheadSpreads) :
    LalrItemSets :=
  sets.modify i fun set => { set with spreads := sp :: set.spreads }

def putItem (sets : LalrItemSets) (i : Nat) (item : FklLalrItem) : LalrItemSets :=
  sets.modify i fun set => { set with items := hashSetPut set.items item }

def isNonterm : FklGrammerSym → Bool
  | .nonterm _ => true
  | _ => false

/-- An item of the closure of `item` and one of the links of the set at `i`. -/
def checkLink (i : Nat) (item cl : FklLalrItem) (sets : LalrItemSets) (x : FklLalrItemSetLink) :
    LalrItemSets :=
  if x.dst = i then sets
  else
    match cl.getItemNext with
    | none => sets
    | some s =>
      if s ≠ x.sym then sets
      else if !isNonterm s ∨ x.allowIgnore = cl.isAtDelimSym ∨ item.prod ≠ cl.prod then
        if cl.la = .none then addLookaheadSpread sets i ⟨x.dst, item, cl.getItemAdvance⟩
        else putItem sets x.dst cl.getItemAdvance
      else sets

/-- The closure of an item without a look-ahead tells which ones it gives to the links. -/
def checkItem (fuel i : Nat) (sets : LalrItemSets) (il : FklLalrItem) : Option LalrItemSets :=
  if il.la = .none then do
    let closure ← g.lr1ItemSetClosure firstSets fuel [il]
    let set ← sets[i]?
    return closure.foldl (fun sets cl => set.links.foldl (checkLink i il cl) sets) sets
  else some sets

def checkLookaheadSelfGeneratedAndSpread (fuel : Nat) (sets : LalrItemSets) (i : Nat) :
    Option LalrItemSets := do
  let set ← sets[i]?
  set.items.foldlM (g.checkItem firstSets fuel i) sets

/-- The items of the first set are followed by the end. -/
def addEof (items : List FklLalrItem) : List FklLalrItem :=
  items.foldl (fun items il => hashSetPut items { il with la := .eof }) items

def initLalrLookahead (fuel : Nat) (lr0 : LalrItemSets) : Option LalrItemSets := do
  let sets ← (List.range lr0.length).foldlM (g.checkLookaheadSelfGeneratedAndSpread firstSets fuel)
    lr0
  return sets.modify 0 fun set => { set with items := addEof set.items }

def hasItem (sets : LalrItemSets) (i : Nat) (item : FklLalrItem) : Bool :=
  match sets[i]? with
  | some set => item ∈ set.items
  | none => false

/-- The sets and the flag `change`; the item is one of the set that has the spread. -/
def spreadItem (sp : FklLookAheadSpreads) (s : LalrItemSets × Bool) (il : FklLalrItem) :
    LalrItemSets × Bool :=
  if il.la ≠ .none ∧ il.prod = sp.src.prod ∧ il.idx = sp.src.idx then
    let newItem := { sp.dst with la := il.la }
    (putItem s.1 sp.dstItems newItem, s.2 || !hasItem s.1 sp.dstItems newItem)
  else s

def lookaheadSpread (s : LalrItemSets × Bool) (i : Nat) : LalrItemSets × Bool :=
  match s.1[i]? with
  | some set => set.spreads.foldl (fun s sp => set.items.foldl (spreadItem sp) s) s
  | none => s

def spreadRound (s : LalrItemSets × Bool) : LalrItemSets × Bool :=
  (List.range s.1.length).foldl lookaheadSpread (s.1, false)

variable (qsort : (FklLalrItem → FklLalrItem → Int) → List FklLalrItem → List FklLalrItem)

def addLookaheadToItems (fuel : Nat) (items : List FklLalrItem) : Option (List FklLalrItem) :=
  (g.lr1ItemSetClosure firstSets fuel (items.filter fun il => il.la ≠ .none)).map
    (qsort g.lalrItemCmp)

def addLookaheadToSet (fuel : Nat) (set : LalrItemSet) :
    Option (ExploreNode (List FklLalrItem) FklLalrItemSetLink) :=
  (g.addLookaheadToItems firstSets qsort fuel set.items).map fun items => ⟨items, set.links⟩

/-- The item sets of the LR(0) collection, before anything is spread. -/
def lr0Sets (lr0 : FklLalrItemSetHashMap) : LalrItemSets :=
  lr0.map fun node => ⟨node.key, node.edges, []⟩

def fklLr0ToLalrItems (fuel : Nat) (lr0 : FklLalrItemSetHashMap) :
    Option FklLalrItemSetHashMap := do
  let sets ← g.initLalrLookahead firstSets fuel (lr0Sets lr0)
  let s ← whileLoop Prod.snd (fun s => some (spreadRound s)) fuel (sets, true)
  s.1.mapM (g.addLookaheadToSet firstSets qsort fuel)

end FklGrammer

end FakeLisp
