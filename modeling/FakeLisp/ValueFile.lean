import FakeLisp.FileReader
import FakeLisp.Pattern
import FakeLisp.ValueTable

/-! The table of values in a file: how it is written, and how the values are made again. -/

namespace FakeLisp

/-- `NULL`, an immediate value or the address of an object. -/
inductive ValueWord (A : Type) where
  | null
  | nil
  | fix (i : BitVec 61)
  | chr (c : UInt8)
  | ptr (a : A)
deriving DecidableEq

/-- The objects that can be written to a file. -/
inductive ValueObj (A : Type) where
  | f64 (bits : UInt64)
  | bigint (num : BitVec 64) (digits : List (BitVec 32))
  | str (s : List UInt8)
  | keyword (s : List UInt8)
  | sym (interned : Bool) (s : List UInt8)
  | bytes (s : List UInt8)
  | slot (s : ValueWord A) (expand : FklPmatchExpandType)
  | headerWildcard
  | pair (car cdr : ValueWord A)
  | vec (base : List (ValueWord A))
  | box (v : ValueWord A)
  | hashTable (eqType : FklHashTableEqType) (ht : List (ValueWord A × ValueWord A))
deriving DecidableEq

variable {A B : Type}

def ValueWord.map (φ : A → B) : ValueWord A → ValueWord B
  | .null => .null
  | .nil => .nil
  | .fix i => .fix i
  | .chr c => .chr c
  | .ptr a => .ptr (φ a)

def ValueObj.map (φ : A → B) : ValueObj A → ValueObj B
  | .f64 bits => .f64 bits
  | .bigint num digits => .bigint num digits
  | .str s => .str s
  | .keyword s => .keyword s
  | .sym interned s => .sym interned s
  | .bytes s => .bytes s
  | .slot s expand => .slot (s.map φ) expand
  | .headerWildcard => .headerWildcard
  | .pair car cdr => .pair (car.map φ) (cdr.map φ)
  | .vec base => .vec (base.map (ValueWord.map φ))
  | .box v => .box (v.map φ)
  | .hashTable eqType ht => .hashTable eqType (ht.map fun e => (e.1.map φ, e.2.map φ))

def ValueObj.words : ValueObj A → List (ValueWord A)
  | .slot s _ => [s]
  | .pair car cdr => [car, cdr]
  | .vec base => base
  | .box v => [v]
  | .hashTable _ ht => ht.flatMap fun e => [e.1, e.2]
  | _ => []

/-- The contents that one object only has: an empty string, an interned symbol and the like. -/
def ValueObj.isSingleton : ValueObj A → Bool
  | .str s => s.isEmpty
  | .bytes s => s.isEmpty
  | .vec base => base.isEmpty
  | .keyword _ | .sym true _ | .headerWildcard => true
  | _ => false

namespace ValueFile

/-! The equality of keys. -/

section

variable [DecidableEq A] (obj : A → Option (ValueObj A))

/-- Two objects at different addresses. A slot and the header have no equality of their own. -/
def equalObjs (r : Bool) : ValueObj A → ValueObj A → Bool × List (ValueWord A × ValueWord A)
  | .f64 x, .f64 y => (f64Equal x y, [])
  | .bigint num digits, .bigint num' digits' => (num = num' ∧ digits = digits', [])
  | .str s, .str s' => (s = s', [])
  | .bytes s, .bytes s' => (s = s', [])
  | .pair car cdr, .pair car' cdr' => (true, [(car, car'), (cdr, cdr')])
  | .vec base, .vec base' =>
    if base.length ≠ base'.length then (false, []) else (true, base.zip base')
  | .box v, .box v' => (true, [(v, v')])
  | .hashTable t ht, .hashTable t' ht' =>
    if t ≠ t' ∨ ht.length ≠ ht'.length then (false, [])
    else (r, (ht.zip ht').flatMap fun p => [(p.1.1, p.2.1), (p.1.2, p.2.2)])
  | _, _ => (false, [])

/-- One round of the loop of `fklVMvalueEqual`: the result and the pairs pushed. -/
def equalRound (r : Bool) : ValueWord A → ValueWord A →
    Option (Bool × List (ValueWord A × ValueWord A))
  | .null, .null => some (true, [])
  | .null, .ptr _ | .ptr _, .null => none
  | .ptr a, .ptr b =>
    if a = b then some (true, []) else do return equalObjs r (← obj a) (← obj b)
  | w, w' => some (if w = w' then r else false, [])

def equalLoop : Nat → Bool → List (ValueWord A × ValueWord A) → Option Bool
  | _, r, [] => some r
  | 0, _, _ :: _ => none
  | fuel + 1, r, (root1, root2) :: s => do
    let (r, pushed) ← equalRound obj r root1 root2
    if r then equalLoop fuel r (pushed ++ s) else some r

/-- `fklVMvalueEqual`; the rounds that the function runs before its loop are the loop's. -/
def fklVMvalueEqual (fuel : Nat) (fir sec : ValueWord A) : Option Bool :=
  if fir = sec then some true else equalLoop obj fuel true [(fir, sec)]

/-- `FKL_IS_BIGINT`, with the number. -/
def bigintOf : ValueWord A → Option (Option (BitVec 64 × List (BitVec 32)))
  | .null => none
  | .ptr a => (obj a).map fun
    | .bigint num digits => some (num, digits)
    | _ => none
  | _ => some none

def fklVMvalueEqv (fir sec : ValueWord A) : Option Bool := do
  match ← bigintOf obj fir with
  | none => return fir = sec
  | some b =>
    match ← bigintOf obj sec with
    | none => return fir = sec
    | some b' => return b = b'

/-- `vm_hash_eq_funcs` -/
def hashEqFunc (fuel : Nat) : FklHashTableEqType → ValueWord A → ValueWord A → Option Bool
  | .eq => fun fir sec => some (fir = sec)
  | .eqv => fklVMvalueEqv obj
  | .equal => fklVMvalueEqual obj fuel

/-- Only the entries in the bucket of the key are compared with it. -/
def fklVMhashTableSet (fuel : Nat) (bucket : ValueWord A → Nat) (eqType : FklHashTableEqType)
    (key v : ValueWord A) :
    List (ValueWord A × ValueWord A) → Option (List (ValueWord A × ValueWord A))
  | [] => some [(key, v)]
  | e :: ht => do
    if bucket e.1 = bucket key then
      if ← hashEqFunc obj fuel eqType key e.1 then return (e.1, v) :: ht
    return e :: (← fklVMhashTableSet fuel bucket eqType key v ht)

end

/-! Writing. -/

inductive ValueCreateOpcode where
  | nop
  | makeNil
  | makeFix
  | makeChr
  | makeF64
  | makeBigint
  | makeStr
  | makeSym
  | makeKeyword
  | makeBytes
  | makeSlot
  | makeHeaderWildcard
  | createPair
  | createVector
  | createBox
  | createHashtable

def expandCode : FklPmatchExpandType → Nat
  | .none => 0
  | .once => 1
  | .all => 2

/-- `write_value_create_op` -/
def writeOp (op : ValueCreateOpcode) : List UInt8 := fwriteWord 1 op.ctorIdx

/-- `fklWriteString` and `fklWriteBytes` -/
def fklWriteString (s : List UInt8) : List UInt8 := fwriteWord 8 s.length ++ s

section

variable [DecidableEq A] (vt : FklValueTable (ValueWord A)) (id : Nat)

/-- Nothing where the assertion fails. -/
def writeValueId (v : ValueWord A) : Option (List UInt8) :=
  let u := fklValueTableGet vt v
  if (u ≠ 0 ∨ v = .null) ∧ (id = 0 ∨ u ≤ id) then some (fwriteWord 4 u) else none

def writeEntry (e : ValueWord A × ValueWord A) : Option (List UInt8) := do
  return (← writeValueId vt id e.1) ++ (← writeValueId vt id e.2)

def writeObj : ValueObj A → Option (List UInt8)
  | .f64 bits => some (writeOp .makeF64 ++ fwriteWord 8 bits.toNat)
  | .bigint num digits =>
    some (writeOp .makeBigint ++ fwriteWord 8 num.toNat ++
      digits.flatMap fun d => fwriteWord 4 d.toNat)
  | .str s => some (writeOp .makeStr ++ fklWriteString s)
  | .keyword s => some (writeOp .makeKeyword ++ fklWriteString s)
  | .sym interned s =>
    some (writeOp .makeSym ++ fwriteWord 1 interned.toNat ++ fklWriteString s)
  | .bytes s => some (writeOp .makeBytes ++ fklWriteString s)
  | .headerWildcard => some (writeOp .makeHeaderWildcard)
  | .slot s expand => do
    return writeOp .makeSlot ++ (← writeValueId vt id s) ++ fwriteWord 1 (expandCode expand)
  | .pair car cdr => do
    return writeOp .createPair ++ (← writeValueId vt id car) ++ (← writeValueId vt id cdr)
  | .vec base => do
    return writeOp .createVector ++ fwriteWord 8 base.length ++
      (← base.mapM (writeValueId vt id)).flatten
  | .box v => do return writeOp .createBox ++ (← writeValueId vt id v)
  | .hashTable eqType ht => do
    return writeOp .createHashtable ++ fwriteWord 1 eqType.ctorIdx ++ fwriteWord 4 ht.length ++
      (← ht.mapM (writeEntry vt id)).flatten

variable (mem : A → ValueObj A)

def writeValueCreateInstructions (v : ValueWord A) : Option (List UInt8) :=
  match v with
  | .null => none
  | .nil => some (writeOp .makeNil)
  | .fix i => some (writeOp .makeFix ++ fwriteWord 8 (i.signExtend 64).toNat)
  | .chr c => some (writeOp .makeChr ++ fwriteWord 1 c.toNat)
  | .ptr a => writeObj vt id (mem a)

/-- The keys in the order of the list, each of them once. -/
def writeEntries (writtenValues : List (ValueWord A)) :
    List (ValueWord A × Nat) → Option (List UInt8)
  | [] => some []
  | (k, v) :: cur =>
    if k ∈ writtenValues then writeEntries writtenValues cur
    else do
      return (← writeValueCreateInstructions vt v mem k) ++
        (← writeEntries (k :: writtenValues) cur)

def fklWriteValueTable : Option (List UInt8) := do
  return fwriteWord 4 (vt.nextId - 1) ++ (← writeEntries vt mem [] vt.ht.entries)

end

/-! Loading. -/

/-- The objects of the heap by their addresses. -/
abbrev FklHeap := List (ValueObj Nat)

/-- An object is created, but for the contents of which there is one object already. -/
def createObj (heap : FklHeap) (o : ValueObj Nat) : Nat × FklHeap :=
  if o.isSingleton ∧ o ∈ heap then (heap.idxOf o, heap) else (heap.length, heap ++ [o])

structure FklLoadValueArgs where
  heap : FklHeap
  values : List (ValueWord Nat)

def eqTypeOfCode : Nat → Option FklHashTableEqType
  | 0 => some .eq
  | 1 => some .eqv
  | 2 => some .equal
  | _ => none

def expandOfCode : Nat → Option FklPmatchExpandType
  | 0 => some .none
  | 1 => some .once
  | 2 => some .all
  | _ => none

def loadValueId (values : List (ValueWord Nat)) : FileM (ValueWord Nat) := do
  let id ← freadWord 4
  if id = 0 then return .null
  else
    match values[id - 1]? with
    | some .null | none => failure
    | some r => return r

def freadByte : FileM UInt8 := do return UInt8.ofNat (← freadWord 1)

def fklLoadString : FileM (List UInt8) := do
  let size ← freadWord 8
  freadMany freadByte size

/-- The buckets are told by the hash of the key and the number of the entries. -/
abbrev Buckets := FklHeap → FklHashTableEqType → Nat → ValueWord Nat → Nat

section

variable (buckets : Buckets) (fuel : Nat)

/-- `fklVMhashTableSet` on the table at `r`. -/
def setInTable (heap : FklHeap) (r : Nat) (key v : ValueWord Nat) : Option FklHeap :=
  match heap[r]? with
  | some (.hashTable eqType ht) =>
    (fklVMhashTableSet (fun a => heap[a]?) fuel (buckets heap eqType ht.length) eqType key v ht).map
      fun ht => heap.set r (.hashTable eqType ht)
  | _ => none

def loadEntries (values : List (ValueWord Nat)) (r : Nat) : Nat → FklHeap → FileM FklHeap
  | 0, heap => pure heap
  | count + 1, heap => do
    let k ← loadValueId values
    let v ← loadValueId values
    match setInTable buckets fuel heap r k v with
    | some heap => loadEntries values r count heap
    | none => failure

def made (args : FklLoadValueArgs) (o : ValueObj Nat) : ValueWord Nat × FklLoadValueArgs :=
  let (r, heap) := createObj args.heap o
  (.ptr r, ⟨heap, args.values⟩)

/-- The object is found under its own id by the components that are read after it. -/
def placed (args : FklLoadValueArgs) (selfId : Nat) (o : ValueObj Nat) : Nat × FklLoadValueArgs :=
  let (r, heap) := createObj args.heap o
  (r, ⟨heap, args.values.set (selfId - 1) (.ptr r)⟩)

def loadObj (selfId : Nat) (args : FklLoadValueArgs) :
    ValueCreateOpcode → FileM (ValueWord Nat × FklLoadValueArgs)
  | .nop => return (.null, args)
  | .makeNil => return (.nil, args)
  | .makeFix => do
    let i ← freadBits 8 64
    return (.fix (i.setWidth 61), args)
  | .makeChr => do
    let c ← freadByte
    return (.chr c, args)
  | .makeF64 => do
    let f ← freadWord 8
    return made args (.f64 (UInt64.ofNat f))
  | .makeBigint => do
    let num ← freadBits 8 64
    let digits ← freadMany (freadBits 4 32) num.toInt.natAbs
    return made args (.bigint num digits)
  | .makeStr => do
    let s ← fklLoadString
    return made args (.str s)
  | .makeKeyword => do
    let s ← fklLoadString
    return made args (.keyword s)
  | .makeSym => do
    let interned ← freadWord 1
    let s ← fklLoadString
    return made args (.sym (decide (interned ≠ 0)) s)
  | .makeBytes => do
    let s ← fklLoadString
    return made args (.bytes s)
  | .makeSlot => do
    let s ← loadValueId args.values
    let needExpand ← freadWord 1
    match s, expandOfCode needExpand with
    | .ptr a, some expand =>
      match args.heap[a]? with
      | some (.sym _ _) => return made args (.slot s expand)
      | _ => failure
    | _, _ => failure
  | .makeHeaderWildcard => return made args .headerWildcard
  | .createPair => do
    let (r, args) := placed args selfId (.pair .nil .nil)
    let car ← loadValueId args.values
    let cdr ← loadValueId args.values
    return (.ptr r, { args with heap := args.heap.set r (.pair car cdr) })
  | .createVector => do
    let len ← freadWord 8
    let (r, args) := placed args selfId (.vec (List.replicate len .null))
    let base ← freadMany (loadValueId args.values) len
    return (.ptr r, { args with heap := args.heap.set r (.vec base) })
  | .createBox => do
    let (r, args) := placed args selfId (.box .nil)
    let v ← loadValueId args.values
    return (.ptr r, { args with heap := args.heap.set r (.box v) })
  | .createHashtable => do
    match eqTypeOfCode (← freadWord 1) with
    | some eqType =>
      let (r, args) := placed args selfId (.hashTable eqType [])
      let count ← freadWord 4
      let heap ← loadEntries buckets fuel args.values r count args.heap
      return (.ptr r, { args with heap })
    | none => failure

def opcodeOfCode (op : Nat) : Option ValueCreateOpcode :=
  [.nop, .makeNil, .makeFix, .makeChr, .makeF64, .makeBigint, .makeStr, .makeSym, .makeKeyword,
    .makeBytes, .makeSlot, .makeHeaderWildcard, .createPair, .createVector, .createBox,
    .createHashtable][op]?

def loadAndMakeValues (selfId : Nat) (args : FklLoadValueArgs) :
    FileM (ValueWord Nat × FklLoadValueArgs) := do
  match opcodeOfCode (← freadWord 1) with
  | some op => loadObj buckets fuel selfId args op
  | none => return (.null, args)

/-- The loop from `i` on. -/
def loadValues (i : Nat) : Nat → FklLoadValueArgs → FileM FklLoadValueArgs
  | 0, args => pure args
  | n + 1, args => do
    let (v, args) ← loadAndMakeValues buckets fuel (i + 1) args
    loadValues (i + 1) n { args with values := args.values.set i v }

def loadValueTable (heap : FklHeap) : FileM FklLoadValueArgs := do
  let count ← freadWord 4
  loadValues buckets fuel 0 count ⟨heap, List.replicate count .null⟩

end

end ValueFile

end FakeLisp
