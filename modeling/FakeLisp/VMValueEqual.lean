import FakeLisp.VMArith
import Mathlib.Logic.Relation

/-!
Equality of values and the hash that goes with it. A value is a word: an address when its low
three bits are zero, else a number, a character or nil. Userdata and variable references, which
bring their own functions or never come here, are left out.
-/

namespace FakeLisp

/-- `FKL_HASH_EQ`, `FKL_HASH_EQV` and `FKL_HASH_EQUAL`. -/
inductive FklHashTableEqType where
  | eq
  | eqv
  | equal
deriving DecidableEq

/-- The object at an address. A double is told by its bits, a hash table by its entries in the
order of its list. -/
inductive FklVMvalueData where
  | sym
  | keyword
  | proc
  | cproc
  | f64 (bits : UInt64)
  | str (s : List UInt8)
  | bytes (s : List UInt8)
  | bigint (b : FklVMvalueBigInt)
  | pair (car cdr : UInt64)
  | box (v : UInt64)
  | vec (base : List UInt64)
  | hashTable (eqType : FklHashTableEqType) (ht : List (UInt64 × UInt64))

abbrev VMwords := UInt64 → FklVMvalueData

def getTag (p : UInt64) : UInt64 := p &&& 7

def isPtr (p : UInt64) : Bool := getTag p = 0

def isFixWord (p : UInt64) : Bool := getTag p = 2

/-- `==` on doubles: no NaN is equal to anything, and the two zeros are equal. -/
def f64Equal (a b : UInt64) : Bool :=
  let isNaN := fun x : UInt64 => 0x7FF0000000000000 < x &&& 0x7FFFFFFFFFFFFFFF
  let isZero := fun x : UInt64 => x &&& 0x7FFFFFFFFFFFFFFF = 0
  !isNaN a && !isNaN b && (a = b || (isZero a && isZero b))

def fklVMbigIntEqual (a b : FklVMvalueBigInt) : Bool :=
  fklBigIntEqual (fklVMbigIntToBigInt a) (fklVMbigIntToBigInt b)

/-- The pairs of words still to compare, the last one pushed first. -/
abbrev FklPairVector := List (UInt64 × UInt64)

/-- One round of the loop of `fklVMvalueEqual`: the result `r` and the pairs pushed. -/
def equalRound (mem : VMwords) (r : Bool) (root1 root2 : UInt64) : Bool × FklPairVector :=
  if getTag root1 ≠ getTag root2 then (false, [])
  else if !isPtr root1 ∧ !isPtr root2 ∧ root1 ≠ root2 then (false, [])
  else if isPtr root1 ∧ isPtr root2 then
    if root1 = root2 then (true, [])
    else
      match mem root1, mem root2 with
      | .sym, .sym | .keyword, .keyword | .proc, .proc | .cproc, .cproc => (root1 = root2, [])
      | .f64 a, .f64 b => (f64Equal a b, [])
      | .str a, .str b => (a = b, [])
      | .bytes a, .bytes b => (a = b, [])
      | .bigint a, .bigint b => (fklVMbigIntEqual a b, [])
      | .pair a d, .pair a' d' => (true, [(a, a'), (d, d')])
      | .box v, .box v' => (true, [(v, v')])
      | .vec base, .vec base' =>
        if base.length ≠ base'.length then (false, []) else (true, base.zip base')
      | .hashTable t ht, .hashTable t' ht' =>
        if t ≠ t' ∨ ht.length ≠ ht'.length then (false, [])
        else (r, (ht.zip ht').flatMap fun p => [(p.1.1, p.2.1), (p.1.2, p.2.2)])
      | _, _ => (false, [])
  else (r, [])

/-- The loop; it may go on for ever on cyclic values. -/
def equalLoop (mem : VMwords) : Nat → Bool → FklPairVector → Option Bool
  | _, r, [] => some r
  | 0, _, _ :: _ => none
  | fuel + 1, r, (root1, root2) :: s =>
    let (r, pushed) := equalRound mem r root1 root2
    if r then equalLoop mem fuel r (pushed ++ s) else some r

def fklVMvalueEqual (mem : VMwords) (fuel : Nat) (fir sec : UInt64) : Option Bool :=
  if fir = sec then some true
  else if isPtr fir ∧ isPtr sec then
    match mem fir, mem sec with
    | .proc, .proc | .cproc, .cproc | .sym, .sym | .keyword, .keyword => some (fir = sec)
    | .f64 a, .f64 b => some (f64Equal a b)
    | .str a, .str b => some (a = b)
    | .bytes a, .bytes b => some (a = b)
    | .bigint a, .bigint b => some (fklVMbigIntEqual a b)
    | .pair _ _, .pair _ _ | .box _, .box _ | .vec _, .vec _ | .hashTable _ _, .hashTable _ _ =>
      equalLoop mem fuel true [(fir, sec)]
    | _, _ => some false
  else some (fir = sec)

/-! ## The hash -/

def fklHashCombine (seed hash : UInt64) : UInt64 :=
  seed ^^^ (hash + 0x9e3779b9 + (seed <<< (6 : UInt64)) + (seed >>> (2 : UInt64)))

/-- A `char` is signed. -/
def charToWord (c : UInt8) : UInt64 := if c < 0x80 then c.toUInt64 else c.toUInt64 - 256

def fklStringHash (s : List UInt8) : UInt64 := s.foldl (fun h c => 31 * h + charToWord c) 0

def fklBytesHash (s : List UInt8) : UInt64 := s.foldl (fun h c => 31 * h + c.toUInt64) 0

def fklBigIntHash (b : FklBigInt) : UInt64 :=
  (List.range b.num.natAbs).foldl (fun r i => fklHashCombine r (UInt64.ofNat (b.digits i)))
    (UInt64.ofInt b.num)

def fklVMbigIntHash (b : FklVMvalueBigInt) : UInt64 := fklBigIntHash (fklVMbigIntToBigInt b)

/-- `FKL_GET_FIX`: the shift keeps the sign. -/
def getFixWord (v : UInt64) : UInt64 := (v.toInt64 >>> 3).toUInt64

def eqTypeCode : FklHashTableEqType → UInt64
  | .eq => 0
  | .eqv => 1
  | .equal => 2

/-- The recursion goes as deep as the value does, for ever when it is cyclic. -/
def fklVMvalueEqualHashv (mem : VMwords) : Nat → UInt64 → Option UInt64
  | 0, _ => none
  | depth + 1, v =>
    if isFixWord v then some (getFixWord v)
    else if isPtr v then
      match mem v with
      | .bigint b => some (fklVMbigIntHash b)
      | .f64 bits => some bits
      | .str s => some (fklStringHash s)
      | .bytes s => some (fklBytesHash s)
      | .vec base =>
        base.foldlM (fun seed e => do
          some (fklHashCombine seed (← fklVMvalueEqualHashv mem depth e)))
          (UInt64.ofNat base.length)
      | .pair car cdr => do
        let seed := fklHashCombine 2 (← fklVMvalueEqualHashv mem depth car)
        some (fklHashCombine seed (← fklVMvalueEqualHashv mem depth cdr))
      | .box e => do some (fklHashCombine 1 (← fklVMvalueEqualHashv mem depth e))
      | .hashTable t ht =>
        ht.foldlM (fun seed e => do
          let seed := fklHashCombine seed (← fklVMvalueEqualHashv mem depth e.1)
          some (fklHashCombine seed (← fklVMvalueEqualHashv mem depth e.2)))
          (UInt64.ofNat ht.length + eqTypeCode t)
      | _ => some (v >>> 3)
    else some (v >>> 3)

/-! ## The look-up in a table of the equal type -/

/-- The buckets of a table by the low bits of the hash, each a chain of keys and values. The mask
has 32 bits, so the upper half of a hash never tells the bucket. -/
structure FklEqualBuckets where
  mask : UInt32
  bucket : UInt64 → List (UInt64 × UInt64)

/-- `fklValueHashMapBucket` -/
def fklValueHashMapBucket (ht : FklEqualBuckets) (hashv : UInt64) : List (UInt64 × UInt64) :=
  ht.bucket (hashv &&& ht.mask.toUInt64)

/-- The walk along one chain. -/
def findInChain (mem : VMwords) (fuel : Nat) (key : UInt64) :
    List (UInt64 × UInt64) → Option (Option (UInt64 × UInt64))
  | [] => some none
  | elm :: chain => do
    if ← fklVMvalueEqual mem fuel key elm.1 then some (some elm)
    else findInChain mem fuel key chain

/-- `vmhash_find_node`; `none` when a comparison or the hash does not come to an end. -/
def vmhashFindNode (mem : VMwords) (fuel : Nat) (ht : FklEqualBuckets) (key : UInt64) :
    Option (Option (UInt64 × UInt64)) := do
  let hashv ← fklVMvalueEqualHashv mem fuel key
  findInChain mem fuel key (fklValueHashMapBucket ht hashv)

def fklVMhashTableGet (mem : VMwords) (fuel : Nat) (ht : FklEqualBuckets) (key : UInt64) :
    Option (Option (UInt64 × UInt64)) := vmhashFindNode mem fuel ht key

end FakeLisp
