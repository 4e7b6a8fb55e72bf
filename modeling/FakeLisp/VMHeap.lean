import FakeLisp.OrdMap

/-! The objects of the heap and the references between them. -/

namespace FakeLisp

/-- A word: `NULL`, an immediate value or the address of an object. -/
inductive FklVMref (A : Type) where
  | null
  | imm (bits : Nat)
  | ptr (a : A)
  deriving DecidableEq

inductive FklVMvalueMark where
  | w
  | g
  | b
  deriving DecidableEq

/-- `FKL_WEAK_MAP_K` and `FKL_WEAK_MAP_V`. -/
structure FklWeakMapMode where
  k : Bool
  v : Bool

/-- Userdata, by the meta table of its type. -/
inductive FklVMud (A : Type) where
  | weakHashEq (mode : FklWeakMapMode) (ht : OrdMap (FklVMref A) (FklVMref A))
  | obarray (map : OrdMap String (FklVMref A))
  | lnt (ht : OrdMap (FklVMref A) Nat)
  | error (type message : FklVMref A)
  | chanl (recvx sendx : Nat) (buf sendq : List (FklVMref A))
  | codeObj (fids : List (FklVMref A))
  | lib (name proc : FklVMref A) (values : List (FklVMref A))
  | proto (name file : FklVMref A) (vals : List (FklVMref A))
  | type (dll : FklVMref A)
  | slot (s : FklVMref A)
  /-- The values that the `atomic` of another type hands on. -/
  | other (atomic : List (FklVMref A))

/-- The contents of an object, by its type. -/
inductive FklVMobj (A : Type) where
  | f64 | bigint | str | sym | keyword | bytes
  | pair (car cdr : FklVMref A)
  | vec (base : List (FklVMref A))
  | box (v : FklVMref A)
  | hashTable (ht : OrdMap (FklVMref A) (FklVMref A))
  | proc (name bcl proto : FklVMref A) (closure : List (FklVMref A))
  | cproc (dll : FklVMref A)
  /-- The value of the variable, wherever it is kept. -/
  | varRef (v : FklVMref A)
  | userdata (tp : FklVMref A) (ud : FklVMud A)

structure FklVMcell (A : Type) where
  mark : FklVMvalueMark
  next : Option A
  grayNext : Option A
  obj : FklVMobj A

structure FklVMgc (A : Type) where
  mem : A → FklVMcell A
  grayList : Option A
  weakRefs : Option A
  head : Option A

variable {A : Type}

namespace FklVMgc

def mark (gc : FklVMgc A) (a : A) : FklVMvalueMark := (gc.mem a).mark
def next (gc : FklVMgc A) (a : A) : Option A := (gc.mem a).next
def grayNext (gc : FklVMgc A) (a : A) : Option A := (gc.mem a).grayNext
def obj (gc : FklVMgc A) (a : A) : FklVMobj A := (gc.mem a).obj

variable [DecidableEq A]

def setMark (gc : FklVMgc A) (a : A) (m : FklVMvalueMark) : FklVMgc A :=
  { gc with mem := Function.update gc.mem a { gc.mem a with mark := m } }

def setNext (gc : FklVMgc A) (a : A) (p : Option A) : FklVMgc A :=
  { gc with mem := Function.update gc.mem a { gc.mem a with next := p } }

def setGrayNext (gc : FklVMgc A) (a : A) (p : Option A) : FklVMgc A :=
  { gc with mem := Function.update gc.mem a { gc.mem a with grayNext := p } }

def setObj (gc : FklVMgc A) (a : A) (o : FklVMobj A) : FklVMgc A :=
  { gc with mem := Function.update gc.mem a { gc.mem a with obj := o } }

def setGrayList (gc : FklVMgc A) (p : Option A) : FklVMgc A := { gc with grayList := p }

def setWeakRefs (gc : FklVMgc A) (p : Option A) : FklVMgc A := { gc with weakRefs := p }

end FklVMgc

/-! What a set leaves and what it changes. -/

section

variable [DecidableEq A] {gc : FklVMgc A} {a : A} {m : FklVMvalueMark} {p : Option A}
  {o : FklVMobj A}

open FklVMgc Function

theorem comp_update_cell {B : Type} (f : FklVMcell A → B) (mem : A → FklVMcell A) (a : A)
    (c : FklVMcell A) : (fun b => f (update mem a c b)) = update (fun b => f (mem b)) a (f c) := by
  funext b
  by_cases h : b = a
  · subst h; simp
  · simp [h]

@[simp] theorem mark_setMark : (gc.setMark a m).mark = update gc.mark a m :=
  comp_update_cell FklVMcell.mark _ _ _

@[simp] theorem next_setMark : (gc.setMark a m).next = gc.next :=
  (comp_update_cell FklVMcell.next _ _ _).trans (update_eq_self a gc.next)

@[simp] theorem grayNext_setMark : (gc.setMark a m).grayNext = gc.grayNext :=
  (comp_update_cell FklVMcell.grayNext _ _ _).trans (update_eq_self a gc.grayNext)

@[simp] theorem obj_setMark : (gc.setMark a m).obj = gc.obj :=
  (comp_update_cell FklVMcell.obj _ _ _).trans (update_eq_self a gc.obj)

@[simp] theorem mark_setNext : (gc.setNext a p).mark = gc.mark :=
  (comp_update_cell FklVMcell.mark _ _ _).trans (update_eq_self a gc.mark)

@[simp] theorem next_setNext : (gc.setNext a p).next = update gc.next a p :=
  comp_update_cell FklVMcell.next _ _ _

@[simp] theorem obj_setNext : (gc.setNext a p).obj = gc.obj :=
  (comp_update_cell FklVMcell.obj _ _ _).trans (update_eq_self a gc.obj)

@[simp] theorem mark_setGrayNext : (gc.setGrayNext a p).mark = gc.mark :=
  (comp_update_cell FklVMcell.mark _ _ _).trans (update_eq_self a gc.mark)

@[simp] theorem next_setGrayNext : (gc.setGrayNext a p).next = gc.next :=
  (comp_update_cell FklVMcell.next _ _ _).trans (update_eq_self a gc.next)

@[simp] theorem grayNext_setGrayNext : (gc.setGrayNext a p).grayNext = update gc.grayNext a p :=
  comp_update_cell FklVMcell.grayNext _ _ _

@[simp] theorem obj_setGrayNext : (gc.setGrayNext a p).obj = gc.obj :=
  (comp_update_cell FklVMcell.obj _ _ _).trans (update_eq_self a gc.obj)

@[simp] theorem mark_setObj : (gc.setObj a o).mark = gc.mark :=
  (comp_update_cell FklVMcell.mark _ _ _).trans (update_eq_self a gc.mark)

@[simp] theorem next_setObj : (gc.setObj a o).next = gc.next :=
  (comp_update_cell FklVMcell.next _ _ _).trans (update_eq_self a gc.next)

@[simp] theorem grayNext_setObj : (gc.setObj a o).grayNext = gc.grayNext :=
  (comp_update_cell FklVMcell.grayNext _ _ _).trans (update_eq_self a gc.grayNext)

@[simp] theorem obj_setObj : (gc.setObj a o).obj = update gc.obj a o :=
  comp_update_cell FklVMcell.obj _ _ _

omit [DecidableEq A]

@[simp] theorem mark_setGrayList : (gc.setGrayList p).mark = gc.mark := rfl
@[simp] theorem next_setGrayList : (gc.setGrayList p).next = gc.next := rfl
@[simp] theorem grayNext_setGrayList : (gc.setGrayList p).grayNext = gc.grayNext := rfl
@[simp] theorem obj_setGrayList : (gc.setGrayList p).obj = gc.obj := rfl
@[simp] theorem mark_setWeakRefs : (gc.setWeakRefs p).mark = gc.mark := rfl
@[simp] theorem next_setWeakRefs : (gc.setWeakRefs p).next = gc.next := rfl
@[simp] theorem grayNext_setWeakRefs : (gc.setWeakRefs p).grayNext = gc.grayNext := rfl
@[simp] theorem obj_setWeakRefs : (gc.setWeakRefs p).obj = gc.obj := rfl

end

end FakeLisp
