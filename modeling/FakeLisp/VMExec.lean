import FakeLisp.Bytecode
import FakeLisp.VMArith

/-! Straight-line execution: the instructions that push constants, read and write
variables, and compute with numbers. -/

namespace FakeLisp

/-- A word of the stack: a null pointer, nil, a number, or an object at an address. -/
inductive VMword (D : Type) where
  | null
  | nil
  | num (v : FklVMvalue D)
  | obj (addr : Nat)

/-- Where variables live: in the frame, or in boxes of closures. -/
inductive VMcell where
  | loc (i : Nat)
  | box (a : Nat)
  deriving DecidableEq

/-- What the running procedure fixes: constants, the cells behind its closure variables, and
their names. Nil is no constant, for it has its own instruction. -/
structure VMframe (D : Type) where
  konsts : Nat → VMword D
  konsts_ne_nil : ∀ i, konsts i ≠ .nil
  ref : Nat → Option VMcell
  sid : Nat → VMword D

/-- The operands above the variables of the frame, top first, and the cells. -/
structure VMstate (D : Type) where
  stack : List (VMword D)
  cell : VMcell → VMword D

inductive VMtrap (D : Type) where
  | number (e : VMError)
  | symUndefine (name : VMword D)
  | noOperand
  | notModelled

variable {D : Type}

namespace VMword

def number : VMword D → FklVMvalue D
  | .num v => v
  | _ => .other

def isNil : VMword D → Bool
  | .nil => true
  | _ => false

def isNull : VMword D → Bool
  | .null => true
  | _ => false

/-- `FKL_MAKE_VM_FIX` -/
def fix (i : Int) : VMword D := .num (.fix (fklMakeVMFix i))

/-- `FKL_VM_TRUE` -/
def vmTrue : VMword D := fix 1

end VMword

namespace VMstate

def push (s : VMstate D) (w : VMword D) : VMstate D := { s with stack := w :: s.stack }

def top (s : VMstate D) : Except (VMtrap D) (VMword D) :=
  match s.stack with
  | [] => .error .noOperand
  | w :: _ => .ok w

def pop (s : VMstate D) : VMstate D := { s with stack := s.stack.tail }

def set (s : VMstate D) (c : VMcell) (w : VMword D) : VMstate D :=
  { s with cell := Function.update s.cell c w }

@[simp] theorem stack_push (s : VMstate D) (w : VMword D) : (s.push w).stack = w :: s.stack := rfl
@[simp] theorem cell_push (s : VMstate D) (w : VMword D) : (s.push w).cell = s.cell := rfl
@[simp] theorem stack_set (s : VMstate D) (c : VMcell) (w : VMword D) :
    (s.set c w).stack = s.stack := rfl
@[simp] theorem cell_set (s : VMstate D) (c : VMcell) (w : VMword D) :
    (s.set c w).cell = Function.update s.cell c w := rfl
@[simp] theorem stack_pop (s : VMstate D) : s.pop.stack = s.stack.tail := rfl
@[simp] theorem top_push (s : VMstate D) (w : VMword D) : (s.push w).top = .ok w := rfl
@[simp] theorem pop_push (s : VMstate D) (w : VMword D) : (s.push w).pop = s := rfl
@[simp] theorem set_set (s : VMstate D) (c : VMcell) (v w : VMword D) :
    (s.set c v).set c w = s.set c w := by simp [set]
@[simp] theorem set_cell (s : VMstate D) (c : VMcell) : s.set c (s.cell c) = s := by simp [set]
theorem set_push (s : VMstate D) (c : VMcell) (v w : VMword D) :
    (s.push w).set c v = (s.set c v).push w := rfl

end VMstate

/-! Closure variables. -/

/-- The error for an undefined closure variable. -/
def undefinedRef (f : VMframe D) (idx : Nat) : VMtrap D :=
  if (f.sid idx).isNull then .number .assertionFailed else .symUndefine (f.sid idx)

/-- `get_var_ref`: the cell of a closure variable that has a value. -/
def getVarRef (f : VMframe D) (s : VMstate D) (idx : Nat) : Except (VMtrap D) VMcell :=
  match f.ref idx with
  | none => .error (undefinedRef f idx)
  | some c => if (s.cell c).isNull then .error (undefinedRef f idx) else .ok c

/-- `get_var_val` -/
def getVarVal (f : VMframe D) (s : VMstate D) (idx : Nat) : Except (VMtrap D) (VMword D) := do
  let c ← getVarRef f s idx
  .ok (s.cell c)

/-! Numbers. -/

def popArgs (n : Nat) (s : VMstate D) :
    Except (VMtrap D) (List (FklVMvalue D) × List (VMword D)) :=
  if n ≤ s.stack.length then .ok (((s.stack.take n).map VMword.number).reverse, s.stack.drop n)
  else .error .noOperand

def execNumber (f : List (FklVMvalue D) → Except VMError (FklVMvalue D)) (n : Nat)
    (s : VMstate D) : Except (VMtrap D) (VMstate D) := do
  let (args, rest) ← popArgs n s
  match f args with
  | .error e => .error (.number e)
  | .ok v => .ok ⟨.num v :: rest, s.cell⟩

variable [Binary64 D]

/-- The operations that take their sub-operation as the number of operands. -/
def execNumbers (f : List (FklVMvalue D) → Except VMError (FklVMvalue D)) (counts : List Int)
    (n : Int) (s : VMstate D) : Except (VMtrap D) (VMstate D) :=
  if n ∈ counts then execNumber f n.toNat s else .error (.number .unreachable)

/-- `FKL_OP_DIV`, which ignores other sub-operations. -/
def execDiv (n : Int) (s : VMstate D) : Except (VMtrap D) (VMstate D) :=
  if n = -2 then execNumber modNumbers 2 s
  else if n ∈ [1, 2, 3] then execNumber divNumbers n.toNat s
  else .ok s

/-- `FKL_OP_ADDK` -/
def addk (w : VMword D) (k : Int) : Except (VMtrap D) (VMword D) :=
  match fklProcessVMnumAddk w.number k with
  | .error e => .error (.number e)
  | .ok v => .ok (.num v)

/-! Instructions. -/

/-- `FKL_OP_DROP`: dropping from no operands does nothing. -/
def execDrop (n : Int) (s : VMstate D) : Except (VMtrap D) (VMstate D) :=
  if n = 0 then .ok s.pop
  else if n = 1 then .ok { s with stack := [] }
  else .error (.number .unreachable)

def execIns (f : VMframe D) (ins : FklIns) (s : VMstate D) : Except (VMtrap D) (VMstate D) :=
  match ins.op with
  | some .pushNil => .ok (s.push .nil)
  | some .push0 => .ok (s.push (.fix 0))
  | some .push1 => .ok (s.push (.fix 1))
  | some .pushI8 => .ok (s.push (.fix ins.sA))
  | some .pushI16 => .ok (s.push (.fix ins.sB))
  | some .pushI24 => .ok (s.push (.fix ins.sC))
  | some .pushConst => .ok (s.push (f.konsts ins.uC))
  | some .drop => execDrop ins.sA s
  | some .not => do
    let w ← s.top
    .ok (s.pop.push (if w.isNil then .vmTrue else .nil))
  | some .getLoc => .ok (s.push (s.cell (.loc ins.uC)))
  | some .putLoc => do
    let w ← s.top
    .ok (s.set (.loc ins.uC) w)
  | some .popLoc => do
    let w ← s.top
    .ok (s.pop.set (.loc ins.uB) w)
  | some .movLoc =>
    let w := s.cell (.loc ins.uA)
    .ok ((s.set (.loc ins.uB) w).push w)
  | some .addkLoc => do
    let w ← addk (s.cell (.loc ins.uB)) ins.sA
    .ok ((s.push w).set (.loc ins.uB) w)
  | some .getVarRef => do
    let w ← getVarVal f s ins.uC
    .ok (s.push w)
  | some .putVarRef => do
    let c ← getVarRef f s ins.uC
    let w ← s.top
    .ok (s.set c w)
  | some .movVarRef => do
    let w ← getVarVal f s ins.uA
    let c ← getVarRef f (s.push w) ins.uB
    .ok ((s.push w).set c w)
  | some .addk => do
    let w ← s.top
    let r ← addk w ins.sA
    .ok (s.pop.push r)
  | some .add => execNumbers addNumbers [1, 2, 3] ins.sA s
  | some .sub => execNumbers subNumbers [1, 2, 3] ins.sA s
  | some .mul => execNumbers mulNumbers [1, 2, 3] ins.sA s
  | some .div => execDiv ins.sA s
  | some .idiv => execNumbers idivNumbers [2, 3] ins.sA s
  | _ => .error .notModelled

/-- Execute a sequence without jumps. -/
def execAll (f : VMframe D) : List FklIns → VMstate D → Except (VMtrap D) (VMstate D)
  | [], s => .ok s
  | i :: is, s => do
    let s ← execIns f i s
    execAll f is s

theorem execAll_append (f : VMframe D) (is js : List FklIns) (s : VMstate D) :
    execAll f (is ++ js) s = (execAll f is s >>= execAll f js) := by
  induction is generalizing s with
  | nil => rfl
  | cons i is ih =>
    simp only [List.cons_append, execAll, bind_assoc]
    congr 1
    funext t
    exact ih t

theorem execAll_one (f : VMframe D) (i : FklIns) (s : VMstate D) :
    execAll f [i] s = execIns f i s := bind_pure (execIns f i s)

end FakeLisp
