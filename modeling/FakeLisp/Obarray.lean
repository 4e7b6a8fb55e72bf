import FakeLisp.HashMap
import FakeLisp.VMValueEqual
import FakeLisp.WhileLoop

/-! The table of interned symbols: its search, its additions, and what a collection takes out. -/

namespace FakeLisp

/-- The first `n` bytes. -/
def memcmp : Nat → List UInt8 → List UInt8 → Int
  | n + 1, a :: as, b :: bs => if a < b then -1 else if b < a then 1 else memcmp n as bs
  | _, _, _ => 0

def fklStringCharBufCmp (fir buf : List UInt8) : Int :=
  let r := memcmp (min fir.length buf.length) fir buf
  if r ≠ 0 then r
  else if fir.length < buf.length then -1
  else if fir.length > buf.length then 1
  else r

def fklStringEqual (fir sec : List UInt8) : Bool :=
  if fir.length = sec.length then memcmp fir.length fir sec == 0 else false

/-- `calloc` for the nodes of the table and for the symbols. -/
structure ObarrayMem (A S : Type) where
  calloc : List A → A
  calloc_not_mem : ∀ live, calloc live ∉ live
  callocSym : List S → S
  callocSym_not_mem : ∀ live, callocSym live ∉ live

/-- The table, and the symbols on the list of the collector. -/
structure FklVMobarray (A S : Type) where
  map : FklHashMap A (List UInt8) (Option S)
  str : S → List UInt8
  interned : S → Bool
  live : List S

variable {A S : Type} [DecidableEq A] [DecidableEq S]

open Function (update)

def fklStrValueHashConf (mem : ObarrayMem A S) : FklHashConf A (List UInt8) (Option S) where
  hashv k := (fklStringHash k).toNat
  keyEqual := fklStringEqual
  zero := none
  calloc := mem.calloc

def getBtk (ht : FklHashMap A (List UInt8) (Option S)) (buf : List UInt8) :
    Option (Option (BktLink A)) :=
  findLink ht.bktNext ht.buckets (fun cur => fklStringCharBufCmp (ht.k cur) buf == 0)
    (ht.live.length + 1) (fklHashMapBucket ht (fklStringHash buf).toNat)

namespace FklVMobarray

variable (mem : ObarrayMem A S) (m : FklVMobarray A S)

def fklCreateVMvalueObarray : FklVMobarray A S := { m with map := fklHashMapInit m.map }

def fklCreateVMvalueSym (buf : List UInt8) : S × FklVMobarray A S :=
  let r := mem.callocSym m.live
  (r, { m with
    str := update m.str r buf, interned := update m.interned r false, live := r :: m.live })

def createInternedSymbol (buf : List UInt8) : S × FklVMobarray A S :=
  let (r, m) := m.fklCreateVMvalueSym mem buf
  (r, { m with interned := update m.interned r true })

def addStrToObarray (creator : FklVMobarray A S → List UInt8 → S × FklVMobarray A S)
    (buf : List UInt8) : Option (S × FklVMobarray A S) := do
  match ← getBtk m.map buf with
  | some bkt =>
    let cur ← bkt.load m.map.bktNext m.map.buckets
    let r ← m.map.v cur
    return (r, m)
  | none =>
    let (node, ht) := fklHashMapCreateNode (fklStrValueHashConf mem) m.map
      (fklStringHash buf).toNat buf
    let (r, m) := creator m buf
    let ht := { ht with v := update ht.v node (some r) }
    let (_, ht) ← fklHashMapInsertNode ht node
    return (r, { m with map := ht })

def fklVMaddSymbolCharBuf (buf : List UInt8) : Option (S × FklVMobarray A S) :=
  m.addStrToObarray mem (createInternedSymbol mem) buf

def fklVMhasSymbol2 (buf : List UInt8) : Option Bool := do
  return (← getBtk m.map buf).isSome

def fklVMaddSymbolValue (v : S) : Option (S × FklVMobarray A S) := do
  fklAssert (v ∈ m.live)
  let s := m.str v
  match ← getBtk m.map s with
  | some bkt =>
    let cur ← bkt.load m.map.bktNext m.map.buckets
    let r ← m.map.v cur
    return (r, m)
  | none =>
    let (node, ht) := fklHashMapCreateNode (fklStrValueHashConf mem) m.map
      (fklStringHash s).toNat s
    let ht := { ht with v := update ht.v node (some v) }
    let (_, ht) ← fklHashMapInsertNode ht node
    return (v, { m with map := ht, interned := update m.interned v true })

/-- The mark of a symbol that has been freed is not to be read. -/
def fklVMgcIsMarked (marked : S → Bool) : Option S → Option Bool
  | none => some false
  | some v => do
    fklAssert (v ∈ m.live)
    return marked v

/-- The body of the loop of `obarray_update_weak_ref`; `next` is read before a deletion. -/
def updateWeakRefStep (marked : S → Bool) :
    FklHashMap A (List UInt8) (Option S) × Option A →
      Option (FklHashMap A (List UInt8) (Option S) × Option A)
  | (_, none) => none
  | (ht, some cur) => do
    fklAssert (cur ∈ ht.live)
    let next := ht.next cur
    if ← m.fklVMgcIsMarked marked (ht.v cur) then return (ht, next)
    let (_, ht) ← fklHashMapDel (fklStrValueHashConf mem) ht (ht.k cur)
    return (ht, next)

def obarrayUpdateWeakRef (marked : S → Bool) : Option (FklVMobarray A S) := do
  let (ht, _) ← whileLoop (fun s => s.2.isSome) (m.updateWeakRefStep mem marked)
    (m.map.live.length + 1) (m.map, m.map.first)
  return { m with map := ht }

end FklVMobarray

/-- What a program does with symbols; each call is made under the lock of the table, and no thread
runs during a collection. -/
inductive ObarrayOp (S : Type) where
  | addSymbol (buf : List UInt8)
  | hasSymbol (buf : List UInt8)
  /-- A symbol that is not interned. -/
  | createSym (buf : List UInt8)
  | addSymbolValue (v : S)
  | collect (marked : S → Bool)

inductive ObarrayRes (S : Type) where
  | sym (r : S)
  | flag (b : Bool)
  | done
  deriving DecidableEq

namespace FklVMobarray

variable (mem : ObarrayMem A S) (m : FklVMobarray A S)

/-- The symbols that are not marked are freed once the table has let go of them. -/
def collect (marked : S → Bool) : Option (FklVMobarray A S) := do
  let m ← m.obarrayUpdateWeakRef mem marked
  return { m with live := m.live.filter marked }

/-- One operation; `none` is an assertion that fails or an access to memory that is not there. -/
def call : ObarrayOp S → Option (ObarrayRes S × FklVMobarray A S)
  | .addSymbol buf => do
    let (r, m) ← m.fklVMaddSymbolCharBuf mem buf
    return (.sym r, m)
  | .hasSymbol buf => do return (.flag (← m.fklVMhasSymbol2 buf), m)
  | .createSym buf =>
    let (r, m) := m.fklCreateVMvalueSym mem buf
    some (.sym r, m)
  | .addSymbolValue v => do
    let (r, m) ← m.fklVMaddSymbolValue mem v
    return (.sym r, m)
  | .collect marked => do return (.done, ← m.collect mem marked)

/-- The interned symbols that the program holds, each with the bytes it was obtained from: those
that an operation returns and that no collection has freed. -/
def held (hs : List (List UInt8 × S)) : ObarrayOp S → ObarrayRes S → List (List UInt8 × S)
  | .addSymbol buf, .sym r => (buf, r) :: hs
  | .addSymbolValue v, .sym r => (m.str v, r) :: hs
  | .collect marked, _ => hs.filter fun h => marked h.2
  | _, _ => hs

def run (m : FklVMobarray A S) (hs : List (List UInt8 × S)) :
    List (ObarrayOp S) → Option (List (List UInt8 × S) × FklVMobarray A S)
  | [] => some (hs, m)
  | op :: ops => do
    let (r, m') ← m.call mem op
    m'.run (m.held hs op r) ops

/-- The entries along the list of the table. -/
def entries : Option (List (List UInt8 × Option S)) :=
  walkList m.map.next (fun es cur => some (es ++ [m.map.elm cur])) (m.map.live.length + 1)
    m.map.first []

end FklVMobarray

end FakeLisp
