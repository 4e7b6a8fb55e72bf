import FakeLisp.Words

/-! The variable references of a procedure frame: made when a closure captures a local variable,
shared by the closures that capture it later, closed when its scope or the frame is left. -/

namespace FakeLisp

/-- `ref->ref`: the address of a slot of the stack, or that of `ref->v`. -/
inductive VarRefPtr where
  | slot (a : Nat)
  | self
  deriving DecidableEq

structure FklVMvalueVarRef (V : Type) where
  idx : Nat
  v : Option V
  ref : VarRefPtr

structure FklVarRefDef where
  isLocal : Bool
  cidx : Nat

/-- `calloc` for the references. -/
structure VarRefMem (R : Type) where
  calloc : List R → R
  calloc_not_mem : ∀ live, calloc live ∉ live

/-- The frame of a procedure, the stack with the values, and the references in the heap. The local
variables are the `lcount` slots from `loc` on. -/
structure VarRefFrame (R V : Type) where
  base : Nat → Option V
  loc : Nat
  lcount : Nat
  ref : List R
  lref : Option (Nat → Option R)
  lrefl : List R
  heap : R → FklVMvalueVarRef V
  live : List R
  /-- The frame has been taken off. -/
  gone : Bool

namespace VarRefFrame

variable {R V : Type} [DecidableEq R] (mem : VarRefMem R) (f : VarRefFrame R V)

open Function (update)

/-- `FKL_VM_GET_ARG(exe, frame, idx)` -/
def getLoc (idx : Nat) : Option V := f.base (f.loc + idx)

/-- `*FKL_VM_VAR_REF_GET(ref)` -/
def varRefGet (r : R) : Option V :=
  match (f.heap r).ref with
  | .slot a => f.base a
  | .self => (f.heap r).v

def varRefSet (r : R) (v : Option V) : VarRefFrame R V :=
  match (f.heap r).ref with
  | .slot a => { f with base := update f.base a v }
  | .self => { f with heap := update f.heap r { f.heap r with v := v } }

/-- The entry of the vector `lref`, if there is a vector. -/
def lrefAt (idx : Nat) : Option R := f.lref.bind fun lref => lref idx

def closeVarRef (r : R) : VarRefFrame R V :=
  { f with heap := update f.heap r { f.heap r with v := f.varRefGet r, ref := .self } }

def closeAllVarRef : VarRefFrame R V :=
  { f.lrefl.foldl closeVarRef f with lrefl := [] }

def doFinalizeCompoundFrame : VarRefFrame R V :=
  { f.closeAllVarRef with lref := none, lrefl := [], ref := [], gone := true }

/-- The loop along `lrefl`: what it leaves of the list, and the frame. -/
def closeVarRefLoop (start : Nat) : List R → VarRefFrame R V → List R × VarRefFrame R V
  | [], f => ([], f)
  | r :: l, f =>
    if (f.heap r).idx ≥ start then
      let f := f.closeVarRef r
      closeVarRefLoop start l
        { f with lref := f.lref.map fun lref => update lref (f.heap r).idx none }
    else
      let (l, f) := closeVarRefLoop start l f
      (r :: l, f)

def closeVarRefFrom (start : Nat) : VarRefFrame R V :=
  match f.lref with
  | none => f
  | some _ =>
    let (l, f) := closeVarRefLoop start f.lrefl f
    { f with lrefl := l }

def initLrefVec : VarRefFrame R V :=
  match f.lref with
  | none => { f with lref := some fun _ => none }
  | some _ => f

def fklCreateVMvalueVarRef (idx : Nat) : R × VarRefFrame R V :=
  let r := mem.calloc f.live
  (r, { f with
    heap := update f.heap r { idx := idx, v := none, ref := .slot (f.loc + idx) }
    live := r :: f.live })

def fklCreateClosedVMvalueVarRef (v : Option V) : R × VarRefFrame R V :=
  let r := mem.calloc f.live
  (r, { f with
    heap := update f.heap r { idx := 2 ^ 32 - 1, v := v, ref := .self }
    live := r :: f.live })

def insertLocalRef (r : R) (cidx : Nat) : VarRefFrame R V :=
  { f with lrefl := r :: f.lrefl, lref := f.lref.map fun lref => update lref cidx (some r) }

/-- The vector has `lcount` entries. -/
def fetchVarRef (c : FklVarRefDef) : Option (R × VarRefFrame R V) :=
  if c.isLocal then do
    fklAssert (c.cidx < f.lcount)
    let f := f.initLrefVec
    match f.lrefAt c.cidx with
    | some r => return (r, f)
    | none =>
      let (r, f) := f.fklCreateVMvalueVarRef mem c.cidx
      return (r, f.insertLocalRef r c.cidx)
  else
    match f.ref[c.cidx]? with
    | some r => some (r, f)
    | none => some (f.fklCreateClosedVMvalueVarRef mem none)

/-- The references of a closure, of which some may be there already. -/
def fklVMfetchVarRef (f : VarRefFrame R V) :
    List (Option R × FklVarRefDef) → Option (List R × VarRefFrame R V)
  | [] => some ([], f)
  | (some r, _) :: closure => do
    let (rs, f) ← fklVMfetchVarRef f closure
    return (r :: rs, f)
  | (none, c) :: closure => do
    let (r, f) ← f.fetchVarRef mem c
    let (rs, f) ← fklVMfetchVarRef f closure
    return (r :: rs, f)

/-- `fklVMcompoundFrameReturn` after a call of the procedure by itself: the arguments go to the
first slots and the others are cleared. Where the stack is full, the error takes the frame off. -/
def returnCall (args : List V) (room : Bool) : VarRefFrame R V :=
  let f := f.closeAllVarRef
  let f := { f with base := fun a =>
    if f.loc ≤ a ∧ a < f.loc + args.length then args[a - f.loc]? else f.base a }
  if room then
    { f with
      base := fun a =>
        if f.loc + args.length ≤ a ∧ a < f.loc + f.lcount then none else f.base a
      lref := none }
  else f.doFinalizeCompoundFrame

end VarRefFrame

/-- What is done with a frame and the references made in it. -/
inductive VarRefOp (R V : Type) where
  | fetch (closure : List (Option R × FklVarRefDef))
  | putLoc (idx : Nat) (v : V)
  | putVarRef (r : R) (v : V)
  | closeRef (start : Nat)
  | returnCall (args : List V) (room : Bool)
  | ret

namespace VarRefFrame

variable {R V : Type} [DecidableEq R] (mem : VarRefMem R)

/-- One operation, with the references of the closure if it makes one. Only the references are left
of a frame that has been taken off, and a variable without a value cannot be set. -/
def step (f : VarRefFrame R V) : VarRefOp R V → Option (List R × VarRefFrame R V)
  | .putVarRef r v => do
    fklAssert (r ∈ f.live ∧ (f.varRefGet r).isSome)
    return ([], f.varRefSet r (some v))
  | .fetch closure => do
    fklAssert (f.gone = false)
    f.fklVMfetchVarRef mem closure
  | .putLoc idx v => do
    fklAssert (f.gone = false ∧ idx < f.lcount)
    return ([], { f with base := Function.update f.base (f.loc + idx) (some v) })
  | .closeRef start => do
    fklAssert (f.gone = false)
    return ([], f.closeVarRefFrom start)
  | .returnCall args room => do
    fklAssert (f.gone = false)
    return ([], f.returnCall args room)
  | .ret => do
    fklAssert (f.gone = false)
    return ([], f.doFinalizeCompoundFrame)

end VarRefFrame

/-- The slots that closures have captured and with which references, which the program does not
keep: since the scope of the slot was left last, and before. -/
structure VarRefCaptures (R : Type) where
  opened : List (Nat × R)
  closed : List R

namespace VarRefCaptures

variable {R V : Type}

/-- The slots that a new closure captures. -/
def ofClosure : List (Option R × FklVarRefDef) → List R → List (Nat × R)
  | (none, c) :: closure, r :: rs =>
    if c.isLocal then (c.cidx, r) :: ofClosure closure rs else ofClosure closure rs
  | (some _, _) :: closure, _ :: rs => ofClosure closure rs
  | _, _ => []

/-- The captures of the slots from `start` on are over. -/
def close (cs : VarRefCaptures R) (start : Nat) : VarRefCaptures R where
  opened := cs.opened.filter fun c => c.1 < start
  closed := (cs.opened.filter fun c => start ≤ c.1).map Prod.snd ++ cs.closed

def step (cs : VarRefCaptures R) (rs : List R) : VarRefOp R V → VarRefCaptures R
  | .fetch closure => { cs with opened := ofClosure closure rs ++ cs.opened }
  | .closeRef start => cs.close start
  | .returnCall _ _ | .ret => cs.close 0
  | .putLoc _ _ | .putVarRef _ _ => cs

end VarRefCaptures

def VarRefFrame.run {R V : Type} [DecidableEq R] (mem : VarRefMem R) (f : VarRefFrame R V)
    (cs : VarRefCaptures R) :
    List (VarRefOp R V) → Option (VarRefCaptures R × VarRefFrame R V)
  | [] => some (cs, f)
  | op :: ops => do
    let (rs, f') ← f.step mem op
    f'.run mem (cs.step rs op) ops

end FakeLisp
