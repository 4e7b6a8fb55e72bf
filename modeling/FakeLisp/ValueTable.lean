import FakeLisp.BreadthFirst
import FakeLisp.InsertionMap

/-!
Numbering the values that are written to a file. Values are known by their addresses; the kinds
of values without components need not be told apart here.
-/

namespace FakeLisp

inductive SerialData (V : Type) where
  | leaf
  | slot (s : V)
  | pair (car cdr : V)
  | vec (base : List V)
  | box (box : V)
  | hashTable (ht : List (V × V))

/-- The serializable values by their addresses. A slot holds a symbol. -/
structure SerialMem (V : Type) where
  data : V → SerialData V
  slot_leaf : ∀ v s, data v = .slot s → data s = .leaf

variable {V : Type} [DecidableEq V]

/-! Tables. -/

theorem keyEquiv_eq : KeyEquiv fun a b : V => decide (a = b) where
  refl k := by simp
  symm k k' h := by simpa [eq_comm] using h
  trans k k' k'' h h' := by simp_all

structure FklValueTable (V : Type) [DecidableEq V] where
  ht : InsertionMap (fun a b : V => decide (a = b)) Nat
  nextId : Nat

def fklInitValueTable : FklValueTable V := ⟨.empty, 1⟩

def fklValueTableAdd (t : FklValueTable V) (v : V) : Nat × FklValueTable V :=
  match t.ht.get v with
  | some n => (n, t)
  | none => (t.nextId, ⟨t.ht.add keyEquiv_eq v t.nextId, t.nextId + 1⟩)

def fklValueTableGet (t : FklValueTable V) (v : V) : Nat := (t.ht.get v).getD 0

/-! The traversal. -/

namespace SerialMem

variable (mem : SerialMem V)

def isSerializableLeafNode (v : V) : Bool :=
  match mem.data v with
  | .leaf | .slot _ => true
  | _ => false

structure BfsState (V : Type) where
  valueSet : List V
  queue : List V
  visited : List V

/-- One round of `traverse_value_bfs`; the callback notes the value. -/
def bfsRound (s : BfsState V) : BfsState V :=
  match s.queue with
  | [] => s
  | v :: queue =>
    let s := { s with queue := queue, visited := s.visited ++ [v] }
    match mem.data v with
    | .leaf | .slot _ => s
    | .pair car cdr =>
      if v ∈ s.valueSet then s
      else { s with valueSet := v :: s.valueSet, queue := s.queue ++ [cdr, car] }
    | .vec base =>
      if v ∈ s.valueSet then s
      else { s with valueSet := v :: s.valueSet, queue := s.queue ++ base.reverse }
    | .box box =>
      if v ∈ s.valueSet then s
      else { s with valueSet := v :: s.valueSet, queue := s.queue ++ [box] }
    | .hashTable ht =>
      if v ∈ s.valueSet then s
      else
        { s with
          valueSet := v :: s.valueSet
          queue := s.queue ++ ht.reverse.flatMap fun e => [e.2, e.1] }

def traverseValueBfs (fuel : Nat) (firstValue : V) : Option (List V) :=
  (whileLoop (fun s : BfsState V => !s.queue.isEmpty) (fun s => some (mem.bfsRound s)) fuel
    ⟨[], [firstValue], []⟩).map fun s => s.visited

def addLeaf (t : FklValueTable V) (v : V) : FklValueTable V :=
  match mem.data v with
  | .slot s => (fklValueTableAdd (fklValueTableAdd t s).2 v).2
  | _ => (fklValueTableAdd t v).2

def fklTraverseSerializableValue (fuel : Nat) (t : FklValueTable V) (v : V) :
    Option (FklValueTable V) :=
  if mem.isSerializableLeafNode v then some (mem.addLeaf t v)
  else
    (mem.traverseValueBfs fuel v).map fun visited =>
      let leafs := visited.filter mem.isSerializableLeafNode
      let nonLeafs := visited.filter fun v => !mem.isSerializableLeafNode v
      nonLeafs.reverse.foldl (fun t v => (fklValueTableAdd t v).2) (leafs.foldl mem.addLeaf t)

/-! Components. -/

/-- What a value sends the traversal to, in that order. -/
def pushed (v : V) : List V :=
  match mem.data v with
  | .leaf | .slot _ => []
  | .pair car cdr => [cdr, car]
  | .vec base => base.reverse
  | .box box => [box]
  | .hashTable ht => ht.reverse.flatMap fun e => [e.2, e.1]

def components (v : V) : List V :=
  match mem.data v with
  | .slot s => [s]
  | _ => mem.pushed v

end SerialMem

end FakeLisp
