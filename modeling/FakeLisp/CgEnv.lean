import Mathlib.Algebra.Group.Nat.Defs
import Mathlib.Logic.Function.Basic
import Mathlib.Data.List.Basic
import Mathlib.Tactic.Common
import Mathlib.Logic.Relation

/-! One environment of the compiler: its scopes, the local slots of their variables, and the
closures that capture them. -/

namespace FakeLisp

variable {S : Type} [DecidableEq S]

inductive FklCgEnvSlot where
  | none
  | occ
  | ref
  deriving DecidableEq

/-- `FKL_VAR_REF_INVALID_CIDX` -/
def fklVarRefInvalidCidx : Nat := 2 ^ 32 - 1

structure FklSidScope (S : Type) where
  sid : S
  scope : Nat
  deriving DecidableEq

structure FklSymDef where
  idx : Nat
  cidx : Nat
  isLocal : Bool
  isConst : Bool
  deriving DecidableEq

structure FklCgEnvScope (S : Type) where
  p : Nat
  start : Nat
  empty : Nat
  /-- `end`: how many slots from `start` on the scope has used. -/
  len : Nat
  defs : List (FklSidScope S × FklSymDef)

structure FklUnbound (S : Type) where
  sid : S
  scope : Nat
  /-- The environment of the closure, and the index of its reference. -/
  env : Nat
  idx : Nat
  assign : Bool
  /-- `has_weak_ref`: a table of variables that are not defined yet has its place. -/
  hasWeakRef : Bool

structure FklPreDefRef (S : Type) where
  sid : S
  scope : Nat
  prototypeId : Nat
  idx : Nat

structure FklCgEnv (S : Type) where
  /-- By their ids, from 1 on. -/
  scopes : Nat → FklCgEnvScope S
  scopeCount : Nat
  slots : List FklCgEnvSlot
  uref : List (FklUnbound S)
  pdef : List (FklSidScope S × Bool)
  refPdef : List (FklPreDefRef S)

/-- The elements of a hash map, in order of insertion. -/
def fklHashMapAt {K V : Type} [DecidableEq K] (m : List (K × V)) (k : K) : Option (K × V) :=
  m.find? fun e => e.1 = k

/-- What a step of the compiler does to the references of the closures compiled so far. -/
structure FklRefPatch where
  /-- The prototype, by its index among the children, or the environment it was made from. -/
  proto : Nat
  idx : Nat
  cidx : Nat

def fklCgEnterNewScope (env : FklCgEnv S) (p : Nat) : FklCgEnv S :=
  let start := if p = 0 then 0 else (env.scopes p).start + (env.scopes p).len
  let scope := { p := p, start := start, empty := start, len := 0, defs := [] }
  { env with
    scopes := Function.update env.scopes (env.scopeCount + 1) scope
    scopeCount := env.scopeCount + 1 }

/-- `for (; scope_id; scope_id = scope->p)`, by fuel. -/
def findSymbolDefFrom (env : FklCgEnv S) (id : S) : Nat → Nat → Option (FklSidScope S × FklSymDef)
  | 0, _ => none
  | n + 1, scopeId =>
    if scopeId = 0 then none
    else
      match fklHashMapAt (env.scopes scopeId).defs ⟨id, scopeId⟩ with
      | some r => some r
      | none => findSymbolDefFrom env id n (env.scopes scopeId).p

/-- A scope is made after the scope around it. -/
def fklFindSymbolDef1 (env : FklCgEnv S) (scopeId : Nat) (id : S) :
    Option (FklSidScope S × FklSymDef) :=
  findSymbolDefFrom env id (env.scopeCount + 1) scopeId

def fklGetCgDefByIdInScope (id : S) (scopeId : Nat) (env : FklCgEnv S) :
    Option (FklSidScope S × FklSymDef) :=
  fklHashMapAt (env.scopes scopeId).defs ⟨id, scopeId⟩

def hasResolvableRef (id : S) (scope : Nat) (env : FklCgEnv S) : Option (FklUnbound S) :=
  env.uref.find? fun cur => cur.sid = id && cur.scope = scope

/-- `for (; empty < flags->size && flags->base[empty] != NONE; empty++);` -/
def getNextEmpty (flags : List FklCgEnvSlot) (empty : Nat) : Nat :=
  empty + ((flags.drop empty).takeWhile (· ≠ .none)).length

def fklAddCgDefBySid (id : S) (scopeId : Nat) (env : FklCgEnv S) : FklSymDef × FklCgEnv S :=
  let scope := env.scopes scopeId
  match fklHashMapAt scope.defs ⟨id, scopeId⟩ with
  | some el => (el.2, env)
  | none =>
    let fresh := scope.empty < env.slots.length ∧ (hasResolvableRef id scopeId env).isSome
    let idx := if fresh then env.slots.length else scope.empty
    let empty := if fresh then scope.empty else getNextEmpty env.slots (scope.empty + 1)
    -- the element was zeroed when it was added, and only its `idx` is set
    let el := { idx := idx, cidx := 0, isLocal := false, isConst := false }
    let scope' := { scope with
      empty := empty
      len := max scope.len (idx + 1 - scope.start)
      defs := scope.defs ++ [(⟨id, scopeId⟩, el)] }
    let slots := env.slots ++ List.replicate (idx + 1 - env.slots.length) .none
    (el, { env with
      scopes := Function.update env.scopes scopeId scope', slots := slots.set idx .occ })

def fklAddCgPreDefBySid (id : S) (scope : Nat) (isConst : Bool) (env : FklCgEnv S) : FklCgEnv S :=
  let key := ⟨id, scope⟩
  let pdef := match fklHashMapAt env.pdef key with
    | some _ => env.pdef.map fun e => if e.1 = key then (e.1, isConst) else e
    | none => env.pdef ++ [(key, isConst)]
  { env with pdef := pdef }

def fklGetCgPreDefBySid (id : S) (scope : Nat) (env : FklCgEnv S) : Option Bool :=
  (fklHashMapAt env.pdef ⟨id, scope⟩).map Prod.snd

def fklAddCgRefToPreDef (id : S) (scope prototypeId idx : Nat) (env : FklCgEnv S) : FklCgEnv S :=
  { env with refPdef := env.refPdef ++ [⟨id, scope, prototypeId, idx⟩] }

def FklCgEnv.setSlotRef (env : FklCgEnv S) (idx : Nat) : FklCgEnv S :=
  { env with slots := env.slots.set idx .ref }

/-- The closures that wait for the definition have their references set to its slot. -/
def fklResolveCgPreDef (id : S) (scope : Nat) (env : FklCgEnv S) :
    Option (FklCgEnv S × List FklRefPatch) :=
  (fklGetCgDefByIdInScope id scope env).map fun def' =>
    let found := env.refPdef.filter fun r => r.sid = id && r.scope = scope
    let rest := env.refPdef.filter fun r => !(r.sid = id && r.scope = scope)
    let env := { env with
      pdef := env.pdef.filter fun e => e.1 ≠ ⟨id, scope⟩
      refPdef := rest.reverse }
    (found.foldl (fun env _ => env.setSlotRef def'.2.cidx) env,
      found.map fun r => ⟨r.prototypeId, r.idx, def'.2.idx⟩)

/-- What `fklResolveRef` does with an unresolved reference. -/
inductive ResolveOutcome (S : Type) where
  /-- It is of a scope around. -/
  | ignored
  | toDef (e : FklSidScope S × FklSymDef)
  | toParent (p : Nat)
  | toOuter

def resolveUref (env : FklCgEnv S) (scope : Nat) (uref : FklUnbound S) : ResolveOutcome S :=
  if uref.scope < scope then .ignored
  else
    match fklFindSymbolDef1 env uref.scope uref.sid with
    | some e => .toDef e
    | none =>
      if (env.scopes uref.scope).p ≠ 0 then .toParent (env.scopes uref.scope).p else .toOuter

/-- `fklResolveRef` with no arguments: also the references that outer environments are asked for. -/
def fklResolveRef (env : FklCgEnv S) (scope : Nat) :
    FklCgEnv S × List FklRefPatch × List (FklUnbound S) :=
  let outcome := env.uref.map fun uref => (uref, resolveUref env scope uref)
  let slots := outcome.foldl (fun slots o =>
    match o.2 with
    | .toDef e => slots.set e.2.idx .ref
    | _ => slots) env.slots
  let urefs1 := outcome.filterMap fun o =>
    match o.2 with
    | .ignored => some o.1
    | .toParent p => some { o.1 with scope := p }
    | _ => none
  let patches := outcome.filterMap fun o =>
    match o.2 with
    | .toDef e => some ⟨o.1.env, o.1.idx, e.2.idx⟩
    | _ => none
  let outer := outcome.filterMap fun o =>
    match o.2 with
    | .toOuter => some o.1
    | _ => none
  ({ env with slots := slots, uref := urefs1.reverse }, patches, outer)

/-- At the end of a scope its slots are free again; `some s` if the variables from slot `s` on have
to be closed. -/
def resetFlagAndCheckVarBeRefed (env : FklCgEnv S) (scopeId : Nat) : FklCgEnv S × Option Nat :=
  let sc := env.scopes scopeId
  let env := (fklResolveRef env scopeId).1
  let last := sc.start + sc.len
  let range := (env.slots.drop sc.start).take sc.len
  ({ env with slots := env.slots.mapIdx fun i f => if sc.start ≤ i ∧ i < last then .none else f },
    (range.findIdx? (· = .ref)).map (sc.start + ·))

/-! Histories: which scopes are open, and which variables closures have captured. -/

inductive CgOp (S : Type) where
  | enter (p : Nat)
  | define (id : S) (scope : Nat)
  | preDefine (id : S) (scope : Nat) (isConst : Bool)
  | resolvePreDef (id : S) (scope : Nat)
  /-- A closure made in the scope `scope`, or an environment inside it whose scope is `inner`, uses
  `id`; `outer` says whether the environments around define it. -/
  | refer (id : S) (scope inner prototypeId idx env : Nat) (assign outer : Bool)
  | leave (scope : Nat)

structure CgState (S : Type) where
  env : FklCgEnv S
  /-- The scopes entered and not left, the last first. -/
  opened : List Nat
  /-- The variables that closures have captured. -/
  captured : List (FklSidScope S)
  /-- The predefinitions that closures wait for. -/
  pending : List (FklSidScope S)

namespace CgState

def init : CgState S where
  env := fklCgEnterNewScope
    { scopes := fun _ => ⟨0, 0, 0, 0, []⟩, scopeCount := 0, slots := [], uref := [], pdef := []
      refPdef := [] } 0
  opened := [1]
  captured := []
  pending := []

/-- One step; `none` where the compiler does not do it. -/
def step (st : CgState S) : CgOp S → Option (CgState S)
  | .enter p =>
    if p ∈ st.opened then
      some { st with
        env := fklCgEnterNewScope st.env p, opened := (st.env.scopeCount + 1) :: st.opened }
    else none
  | .define id scope =>
    if scope ∈ st.opened then some { st with env := (fklAddCgDefBySid id scope st.env).2 }
    else none
  | .preDefine id scope isConst =>
    if scope ∈ st.opened then some { st with env := fklAddCgPreDefBySid id scope isConst st.env }
    else none
  | .resolvePreDef id scope =>
    if scope ∈ st.opened then
      (fklResolveCgPreDef id scope st.env).map fun r =>
        { st with
          env := r.1
          captured := if ⟨id, scope⟩ ∈ st.pending then ⟨id, scope⟩ :: st.captured else st.captured
          pending := st.pending.filter (· ≠ ⟨id, scope⟩) }
    else none
  | .refer id scope inner prototypeId idx env assign outer =>
    if scope ∈ st.opened then
      match fklGetCgPreDefBySid id scope st.env with
      | some _ => some { st with
          env := fklAddCgRefToPreDef id inner prototypeId idx st.env
          pending := ⟨id, scope⟩ :: st.pending }
      | none =>
        match fklFindSymbolDef1 st.env scope id with
        | some e => some { st with
            env := st.env.setSlotRef e.2.idx, captured := e.1 :: st.captured }
        | none =>
          if outer then some st
          else some { st with
            env := { st.env with uref := st.env.uref ++ [⟨id, scope, env, idx, assign, false⟩] } }
    else none
  | .leave scope =>
    match st.opened with
    | s :: t :: opened =>
      if s = scope then
        some { st with
          env := (resetFlagAndCheckVarBeRefed st.env scope).1
          opened := t :: opened
          captured := st.captured ++ st.env.uref.filterMap fun uref =>
            match resolveUref st.env scope uref with
            | .toDef e => some e.1
            | _ => none }
      else none
    | _ => none

/-- The scope `t` is `s` or around it. -/
def Around (env : FklCgEnv S) : Nat → Nat → Prop :=
  Relation.ReflTransGen fun s t => (env.scopes s).p = t ∧ t ≠ 0

/-- What the slots of the variables should be like. -/
structure SlotsOk (st : CgState S) : Prop where
  /-- Two variables that can be seen from one scope have two slots. -/
  visible : ∀ s ∈ st.opened, ∀ t t', Around st.env s t → Around st.env s t' →
    ∀ e ∈ (st.env.scopes t).defs, ∀ e' ∈ (st.env.scopes t').defs, e.2.idx = e'.2.idx → e = e'
  /-- A slot has one variable among all the scopes that have not been left. -/
  reused : ∀ t ∈ st.opened, ∀ t' ∈ st.opened,
    ∀ e ∈ (st.env.scopes t).defs, ∀ e' ∈ (st.env.scopes t').defs, e.2.idx = e'.2.idx → e = e'
  /-- The slot of a captured variable says so. -/
  flagged : ∀ k ∈ st.captured, k.scope ∈ st.opened →
    ∃ e ∈ (st.env.scopes k.scope).defs, e.1 = k ∧ st.env.slots[e.2.idx]? = some .ref

/-- A definition is made while no scope inside its scope is open, and no scope that is not around
it is open and has a variable; a predefinition that a closure waits for is of slot 0, and a reference
of its scope was recorded. -/
def Orderly (st : CgState S) : CgOp S → Prop
  | .define id scope => (fklGetCgDefByIdInScope id scope st.env).isSome ∨
      (∀ t ∈ st.opened, (st.env.scopes t).p ≠ scope) ∧
        ∀ t ∈ st.opened, (st.env.scopes t).defs ≠ [] → Around st.env scope t
  | .resolvePreDef id scope => ⟨id, scope⟩ ∉ st.pending ∨
      (∃ r ∈ st.env.refPdef, r.sid = id ∧ r.scope = scope) ∧
        ∀ e, fklGetCgDefByIdInScope id scope st.env = some e → e.2.idx = 0
  | _ => True

end CgState

end FakeLisp
