import FakeLisp.BucketChains
import FakeLisp.InsertionMap
import FakeLisp.Words

/-! The hash container: nodes in bucket chains and in one doubly linked list. -/

namespace FakeLisp

/-- `FKL_HASH_KEY_HASH`, `FKL_HASH_KEY_EQUAL`, a zeroed value and the address of a new node, given
those in use. -/
structure FklHashConf (A K V : Type) where
  hashv : K → Nat
  keyEqual : K → K → Bool
  zero : V
  calloc : List A → A

/-- The table, and a map for each field of its nodes. -/
structure FklHashMap (A K V : Type) where
  prev : A → Option A
  next : A → Option A
  bktNext : A → Option A
  hashv : A → Nat
  k : A → K
  v : A → V
  buckets : Nat → Option A
  first : Option A
  last : Option A
  count : Nat
  capacity : Nat
  rehashThreshold : Nat
  mask : Nat
  /-- The nodes allocated for the table and not freed. -/
  live : List A

variable {A K V : Type} [DecidableEq A]

open Function (update)

def fklHashThreshold (capacity : Nat) : Nat := capacity >>> 2 ||| capacity >>> 1

/-- `1 << FKL_HASH_DEFAULT_CAPACITY_SHIFT` -/
def fklHashDefaultCapacity : Nat := 1 <<< 3

def fklHashMapInit (self : FklHashMap A K V) : FklHashMap A K V :=
  { self with
    capacity := fklHashDefaultCapacity
    mask := u32 ((fklHashDefaultCapacity : Int) - 1)
    rehashThreshold := fklHashThreshold fklHashDefaultCapacity
    count := 0
    first := none
    last := none
    buckets := fun _ => none
    live := [] }

/-- A node is freed once. -/
def fklHashFree (live : List A) (a : A) : Option (List A) :=
  if a ∈ live then some (live.erase a) else none

def fklHashMapClear (self : FklHashMap A K V) : Option (FklHashMap A K V) := do
  let live ← walkList self.next fklHashFree (self.live.length + 1) self.first self.live
  return { self with
    buckets := fun _ => none, count := 0, first := none, last := none, live := live }

namespace FklHashMap

/-- `pp = &self->buckets[cur->hashv & self->mask]; cur->bkt_next = *pp; *pp = cur;` -/
def chain (self : FklHashMap A K V) (cur : A) : FklHashMap A K V :=
  let i := self.hashv cur &&& self.mask
  { self with
    bktNext := update self.bktNext cur (self.buckets i)
    buckets := update self.buckets i (some cur) }

/-- `node` becomes the last of the list. -/
def append (self : FklHashMap A K V) (node : A) : Option (FklHashMap A K V) := do
  let self ← match self.first with
    | some _ => self.last.map fun last =>
        { self with
          prev := update self.prev node (some last), next := update self.next last (some node) }
    | none => some { self with first := some node }
  return { self with last := some node }

end FklHashMap

def fklHashMapRehash (self : FklHashMap A K V) : Option (FklHashMap A K V) :=
  walkList self.next (fun self cur => some (self.chain cur)) (self.live.length + 1) self.first
    { self with buckets := fun _ => none }

/-- `realloc` gives no buckets when the capacity has wrapped to 0. -/
def fklHashMapGrow (self : FklHashMap A K V) : Option (FklHashMap A K V) := do
  let capacity := u32 ((self.capacity : Int) * 2)
  fklAssert (capacity ≠ 0)
  fklHashMapRehash { self with
    capacity := capacity
    mask := u32 ((capacity : Int) - 1)
    rehashThreshold := fklHashThreshold capacity }

/-- `c |= c >> 1; c |= c >> 2; c |= c >> 4; c |= c >> 8; c |= c >> 16;` -/
def fklHashSmear (c : Nat) : Nat :=
  let c := c ||| c >>> 1
  let c := c ||| c >>> 2
  let c := c ||| c >>> 4
  let c := c ||| c >>> 8
  c ||| c >>> 16

/-- The least power of two that is at least `count`. -/
def fklHashNextPow2 (count : Nat) : Nat :=
  u32 ((fklHashSmear (u32 ((count : Int) - 1)) : Int) + 1)

def fklHashMapShrink (self : FklHashMap A K V) : Option (FklHashMap A K V) :=
  let capacity := if self.count = 0 then fklHashDefaultCapacity else fklHashNextPow2 self.count
  if self.capacity ≤ capacity then some self
  else do
    fklAssert (capacity ≠ 0)
    fklHashMapRehash { self with
      capacity := capacity
      mask := u32 ((capacity : Int) - 1)
      rehashThreshold := fklHashThreshold capacity }

def fklHashMapBucket (self : FklHashMap A K V) (hashv : Nat) : BktLink A :=
  .bucket (hashv &&& self.mask)

variable (P : FklHashConf A K V)

def fklHashMapCreateNode (self : FklHashMap A K V) (hashv : Nat) (k : K) :
    A × FklHashMap A K V :=
  let node := P.calloc self.live
  (node, { self with
    prev := update self.prev node none
    next := update self.next node none
    bktNext := update self.bktNext node none
    hashv := update self.hashv node hashv
    k := update self.k node k
    v := update self.v node P.zero
    live := node :: self.live })

def fklHashMapInsertNode (self : FklHashMap A K V) (node : A) :
    Option (BktLink A × FklHashMap A K V) := do
  let self ← (if self.count ≥ self.rehashThreshold then fklHashMapGrow self else some self)
  let pp := BktLink.bucket (self.hashv node &&& self.mask)
  let self ← (self.chain node).append node
  return (pp, { self with count := u32 ((self.count : Int) + 1) })

/-- `for (pn = self->buckets[hashv & self->mask]; pn; pn = pn->bkt_next)` up to an equal key. -/
def fklHashMapFind (self : FklHashMap A K V) (k : K) : Option (Option A) :=
  findList self.bktNext (fun pn => P.keyEqual k (self.k pn)) (self.live.length + 1)
    (self.buckets (P.hashv k &&& self.mask))

/-- What `Put`, `Add` and `Insert` do for an absent key. -/
def fklHashMapNew (self : FklHashMap A K V) (k : K) (v : Option V) :
    Option (A × FklHashMap A K V) := do
  let (node, self) := fklHashMapCreateNode P self (P.hashv k) k
  let self := { self with v := match v with | some v => update self.v node v | none => self.v }
  let (_, self) ← fklHashMapInsertNode self node
  return (node, self)

def fklHashMapPut (self : FklHashMap A K V) (k : K) (v : Option V) :
    Option (Option A × FklHashMap A K V) := do
  match ← fklHashMapFind P self k with
  | some pn => return (some pn, self)
  | none =>
    let (_, self) ← fklHashMapNew P self k v
    return (none, self)

def fklHashMapGet (self : FklHashMap A K V) (k : K) : Option (Option A) :=
  fklHashMapFind P self k

def fklHashMapAdd (self : FklHashMap A K V) (k : K) (v : Option V) :
    Option (A × FklHashMap A K V) := do
  match ← fklHashMapFind P self k with
  | some pn =>
    return (pn, { self with v := match v with | some v => update self.v pn v | none => self.v })
  | none => fklHashMapNew P self k v

def fklHashMapInsert (self : FklHashMap A K V) (k : K) (v : Option V) :
    Option (A × FklHashMap A K V) := do
  match ← fklHashMapFind P self k with
  | some pn => return (pn, self)
  | none => fklHashMapNew P self k v

/-- `*pp = pn->bkt_next`, and `pn` taken out of the list and freed. -/
def fklHashMapUnlink (self : FklHashMap A K V) (pp : BktLink A) (pn : A) :
    Option (FklHashMap A K V) := do
  let x := self.bktNext pn
  let next := setAt self.next (self.prev pn) (self.next pn)
  let prev := setAt self.prev (next pn) (self.prev pn)
  let live ← fklHashFree self.live pn
  return { self with
    bktNext := pp.storeNext x self.bktNext
    buckets := pp.storeBucket x self.buckets
    next := next
    prev := prev
    last := if self.last = some pn then prev pn else self.last
    first := if self.first = some pn then next pn else self.first
    count := u32 ((self.count : Int) - 1)
    live := live }

def fklHashMapDelNode (self : FklHashMap A K V) (pp : BktLink A) :
    Option (Bool × FklHashMap A K V) := do
  match pp.load self.bktNext self.buckets with
  | some pn =>
    let self ← fklHashMapUnlink self pp pn
    return (true, self)
  | none => return (false, self)

/-- `for (pp = &self->buckets[hashv & self->mask]; *pp; pp = &(*pp)->bkt_next)` up to an equal
key. -/
def fklHashMapFindLink (self : FklHashMap A K V) (k : K) : Option (Option (BktLink A)) :=
  findLink self.bktNext self.buckets (fun pn => P.keyEqual k (self.k pn)) (self.live.length + 1)
    (fklHashMapBucket self (P.hashv k))

/-- The key and the value go to `*pk` and `*pv`. -/
def fklHashMapErase (self : FklHashMap A K V) (k : K) :
    Option (Option (K × V) × FklHashMap A K V) := do
  match ← fklHashMapFindLink P self k with
  | some pp =>
    let pn ← pp.load self.bktNext self.buckets
    let self' ← fklHashMapUnlink self pp pn
    return (some (self.k pn, self.v pn), self')
  | none => return (none, self)

def fklHashMapDel (self : FklHashMap A K V) (k : K) : Option (Bool × FklHashMap A K V) := do
  match ← fklHashMapFindLink P self k with
  | some pp =>
    let pn ← pp.load self.bktNext self.buckets
    let self ← fklHashMapUnlink self pp pn
    return (true, self)
  | none => return (false, self)

/-- The calls that the users of a table make. -/
inductive FklHashOp (A K V : Type) where
  | put (k : K) (v : Option V)
  | add (k : K) (v : Option V)
  | insert (k : K) (v : Option V)
  | get (k : K)
  | erase (k : K)
  | del (k : K)
  | delNode (pp : BktLink A)
  /-- A store through a value pointer that an operation returned. -/
  | store (pn : A) (v : V)
  | clear
  | rehash
  | grow
  | shrink

namespace FklHashMap

/-- The element at a node. -/
def elm (self : FklHashMap A K V) (pn : A) : K × V := (self.k pn, self.v pn)

/-- A link that callers may hold. -/
def IsLink (self : FklHashMap A K V) : BktLink A → Prop
  | .bucket i => i < self.capacity
  | .next a => a ∈ self.live

instance (self : FklHashMap A K V) : ∀ pp, Decidable (self.IsLink pp)
  | .bucket i => inferInstanceAs (Decidable (i < self.capacity))
  | .next a => inferInstanceAs (Decidable (a ∈ self.live))

/-- One call; `none` is an assertion that fails or an access to memory that is not the table's. -/
def call (self : FklHashMap A K V) : FklHashOp A K V → Option (MapRes K V × FklHashMap A K V)
  | .put k v => do
    let (pn, self') ← fklHashMapPut P self k v
    return (.elm (pn.map self'.elm), self')
  | .add k v => do
    let (pn, self') ← fklHashMapAdd P self k v
    return (.elm (some (self'.elm pn)), self')
  | .insert k v => do
    let (pn, self') ← fklHashMapInsert P self k v
    return (.elm (some (self'.elm pn)), self')
  | .get k => do
    let pn ← fklHashMapGet P self k
    return (.elm (pn.map self.elm), self)
  | .erase k => do
    let (e, self') ← fklHashMapErase P self k
    return (.elm e, self')
  | .del k => do
    let (r, self') ← fklHashMapDel P self k
    return (.flag r, self')
  | .delNode pp => do
    fklAssert (self.IsLink pp)
    let (r, self') ← fklHashMapDelNode self pp
    return (.flag r, self')
  | .store pn v => do
    fklAssert (pn ∈ self.live)
    return (.done, { self with v := update self.v pn v })
  | .clear => do
    return (.done, ← fklHashMapClear self)
  | .rehash => do
    return (.done, ← fklHashMapRehash self)
  | .grow => do
    return (.done, ← fklHashMapGrow self)
  | .shrink => do
    return (.done, ← fklHashMapShrink self)

/-- What a call is for the map that the table holds. -/
def mapOp (self : FklHashMap A K V) : FklHashOp A K V → MapOp K V
  | .put k v => .put k (v.getD P.zero)
  | .add k (some v) => .set k v
  | .add k none => .insert k P.zero
  | .insert k v => .insert k (v.getD P.zero)
  | .get k => .get k
  | .erase k => .erase k
  | .del k => .del (some k)
  | .delNode pp => .del ((pp.load self.bktNext self.buckets).map self.k)
  | .store pn v => .store (self.k pn) v
  | .clear => .clear
  | .rehash | .grow | .shrink => .skip

/-- The calls of a program in turn: what each was for the map and what it returned. -/
def run (self : FklHashMap A K V) :
    List (FklHashOp A K V) → Option (List (MapOp K V × MapRes K V) × FklHashMap A K V)
  | [] => some ([], self)
  | op :: ops => do
    let (r, self') ← self.call P op
    let (rs, self'') ← self'.run ops
    return ((self.mapOp P op, r) :: rs, self'')

end FklHashMap

end FakeLisp
