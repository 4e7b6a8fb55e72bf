import FakeLisp.CgEnv
import FakeLisp.ValueTable

/-! The environments of the compiler with all that they number: references to variables,
constants, child prototypes and used libraries; and the prototypes made of them. -/

namespace FakeLisp

variable {S V K L : Type} [DecidableEq S] [DecidableEq V] [DecidableEq K]

/-- `FKL_TOP_ENV_PROTO_ID` -/
def fklTopEnvProtoId : Nat := 2 ^ 32 - 1

abbrev FklSymDefHashMap (S : Type) [DecidableEq S] :=
  InsertionMap (fun a b : FklSidScope S => decide (a = b)) FklSymDef

structure FklLibId (L : Type) where
  id : Nat
  lib : L

abbrev FklCgUsedLibHashMap (K L : Type) [DecidableEq K] :=
  InsertionMap (fun a b : K => decide (a = b)) (FklLibId L)

/-! Prototypes. -/

inductive ProtoCell (S V L : Type) where
  | sid (sid : Option S)
  | cidx (cidx : Nat)
  | isLocal (isLocal : Bool)
  /-- A variable of the REPL that is not defined yet, `nil` when it is. -/
  | varRef (ref : Option Nat)
  | konst (v : V)
  | proto (p : Option Nat)
  | lib (l : L)
  deriving DecidableEq

structure FklVMvalueProto (S V L : Type) where
  localCount : Nat
  refCount : Nat
  refOffset : Nat
  konstsCount : Nat
  konstsOffset : Nat
  childProtoCount : Nat
  childProtoOffset : Nat
  usedLibrariesCount : Nat
  usedLibrariesOffset : Nat
  vals : List (Option (ProtoCell S V L))
  deriving DecidableEq

/-! Environments. -/

/-- Environments and prototypes are known by their numbers; `base` has the scopes, the slots and
what is not resolved yet. -/
structure FklVMvalueCgEnv (S V K L : Type) [DecidableEq S] [DecidableEq V] [DecidableEq K] where
  base : FklCgEnv S
  parentScope : Nat
  protoId : Nat
  prev : Option Nat
  refs : FklSymDefHashMap S
  konsts : FklValueTable V
  /-- `nil` until the prototype of the child is made. -/
  childProcProtos : List (Option Nat)
  usedLibraries : FklCgUsedLibHashMap K L
  isDebugging : Bool
  proto : Option Nat

structure CgWorld (S V K L : Type) [DecidableEq S] [DecidableEq V] [DecidableEq K] where
  envs : Nat → FklVMvalueCgEnv S V K L
  envCount : Nat
  protos : Nat → FklVMvalueProto S V L
  protoCount : Nat
  varRefCount : Nat

namespace CgWorld

variable (w : CgWorld S V K L)

def modify (e : Nat) (f : FklVMvalueCgEnv S V K L → FklVMvalueCgEnv S V K L) : CgWorld S V K L :=
  { w with envs := Function.update w.envs e (f (w.envs e)) }

def modifyBase (e : Nat) (f : FklCgEnv S → FklCgEnv S) : CgWorld S V K L :=
  w.modify e fun env => { env with base := f env.base }

/-- The key under which the references of an environment are. -/
def refKey (e : Nat) (id : S) : FklSidScope S := ⟨id, (w.envs e).parentScope⟩

/-- A reference is inserted if there is none, with the number of references as its index. -/
def insertRef (e : Nat) (key : FklSidScope S) (isConst : Bool) : CgWorld S V K L :=
  w.modify e fun env =>
    let idx := env.refs.entries.length
    { env with refs := env.refs.add keyEquiv_eq key ⟨idx, idx, false, isConst⟩ }

def setRef (e : Nat) (key : FklSidScope S) (cidx : Nat) (isLocal : Bool) : CgWorld S V K L :=
  w.modify e fun env =>
    match env.refs.get key with
    | some el =>
      { env with refs := env.refs.replace key { el with cidx, isLocal := el.isLocal || isLocal } }
    | none => env

def refIdx (e : Nat) (key : FklSidScope S) : Option Nat :=
  ((w.envs e).refs.get key).map (·.idx)

def fklAddCgBuiltinRefBySid (id : S) (e : Nat) : CgWorld S V K L :=
  w.insertRef e (w.refKey e id) false

/-! The environments around. -/

def envsFrom : Nat → Option Nat → List Nat
  | 0, _ => []
  | _, none => []
  | fuel + 1, some cur => cur :: envsFrom fuel (w.envs cur).prev

/-- `for (cur = env->prev; cur; cur = cur->prev)` -/
def around (e : Nat) : List Nat := w.envsFrom w.envCount (w.envs e).prev

inductive OuterDef (S : Type) where
  | pdef (isConst : Bool)
  | symDef (el : FklSidScope S × FklSymDef)

/-- `use_outer_pdef_or_def` -/
def useOuterPdefOrDef (id : S) : List Nat → Nat → Option (Nat × OuterDef S)
  | [], _ => none
  | cur :: outer, scope =>
    match fklGetCgPreDefBySid id scope (w.envs cur).base with
    | some isConst => some (cur, .pdef isConst)
    | none =>
      match fklFindSymbolDef1 (w.envs cur).base scope id with
      | some el => some (cur, .symDef el)
      | none => useOuterPdefOrDef id outer (w.envs cur).parentScope

/-- The first environment outwards that has the reference. -/
def hasOuterRef (id : S) : List Nat → Option (Nat × FklSymDef)
  | [] => none
  | cur :: outer =>
    match (w.envs cur).refs.get (w.refKey cur id) with
    | some el => some (cur, el)
    | none => hasOuterRef id outer

def isRefSolved (key : FklSidScope S) : Option Nat → Bool
  | none => true
  | some e => !(w.envs e).base.uref.any fun u => u.sid = key.sid && u.scope = key.scope

/-- The loop of `add_ref_to_all_penv`; `cel` is the environment of the reference made last. It
goes wrong when there is no environment left before the target. -/
def addRefOutwards (target : Option Nat) (id : S) :
    CgWorld S V K L → Nat → List Nat → Option (CgWorld S V K L × Nat)
  | w, cel, [] => if target = none then some (w, cel) else none
  | w, cel, cur :: outer =>
    if target = some cur then some (w, cel)
    else do
      let w := w.insertRef cur (w.refKey cur id) false
      let idx ← w.refIdx cur (w.refKey cur id)
      let w := w.setRef cel (w.refKey cel id) idx false
      addRefOutwards target id w cur outer

def addRefToAllPenv (id : S) (cur : Nat) (target : Option Nat) (isConst : Bool) :
    Option (CgWorld S V K L × Nat) :=
  addRefOutwards target id (w.insertRef cur (w.refKey cur id) isConst) cur (w.around cur)

/-- `get_child_env_prototype_id` -/
def getChildEnvPrototypeId (cur target : Nat) : Option Nat :=
  ((cur :: w.around cur).find? fun e => (w.envs e).prev = some target).map
    fun e => (w.envs e).protoId

/-! Registrations. -/

/-- The mark of the unresolved reference, if it was only read until now. -/
def markAssigned (e : Nat) (id : S) (scope : Nat) : CgWorld S V K L :=
  w.modifyBase e fun base =>
    match base.uref.findIdx? fun u => u.sid = id && u.scope = scope with
    | some i => { base with uref := base.uref.modify i fun u => { u with assign := true } }
    | none => base

/-- A reference that nothing around resolves is put on the list of the environment around. -/
def addUnbound (id : S) (e owner : Nat) (key : FklSidScope S) (assign : Bool) :
    CgWorld S V K L :=
  let idx := (w.envs e).refs.entries.length
  let w := (w.insertRef e key false).setRef e key fklVarRefInvalidCidx false
  let uref : FklUnbound S := ⟨id, key.scope, e, (w.refIdx e key).getD idx, assign, false⟩
  w.modifyBase owner fun base => { base with uref := base.uref ++ [uref] }

def fklAddCgRefBySid (id : S) (e : Nat) (assign : Bool) : Option (CgWorld S V K L × Nat) := do
  let env := w.envs e
  let key := w.refKey e id
  match env.refs.get key with
  | some el =>
    return (if assign then w.markAssigned (env.prev.getD e) id env.parentScope else w, el.idx)
  | none =>
    match env.prev with
    | none =>
      let key : FklSidScope S := ⟨id, 0⟩
      let w := w.addUnbound id e e key assign
      return (w, ← w.refIdx e key)
    | some p =>
      match w.useOuterPdefOrDef id (w.around e) env.parentScope with
      | some (target, .pdef isConst) =>
        let protoId ← w.getChildEnvPrototypeId e target
        let (w, cel) ← w.addRefToAllPenv id e (some target) isConst
        let w := w.setRef cel (w.refKey cel id) fklVarRefInvalidCidx true
        let idx ← w.refIdx cel (w.refKey cel id)
        let w := w.modifyBase target (fklAddCgRefToPreDef id env.parentScope protoId idx)
        return (w, ← w.refIdx e key)
      | some (target, .symDef def') =>
        let (w, cel) ← w.addRefToAllPenv id e (some target) def'.2.isConst
        let w := w.setRef cel (w.refKey cel id) def'.2.idx true
        let w := w.modifyBase target (·.setSlotRef def'.2.idx)
        return (w, ← w.refIdx e key)
      | none =>
        match w.hasOuterRef id (w.around e) with
        | some (target, el) =>
          if w.isRefSolved (w.refKey target id) (w.envs target).prev then do
            let (w, _) ← w.addRefToAllPenv id e (w.envs target).prev el.isConst
            return (w, ← w.refIdx e key)
          else
            let w := w.addUnbound id e p key assign
            return (w, ← w.refIdx e key)
        | none =>
          let w := w.addUnbound id e p key assign
          return (w, ← w.refIdx e key)

/-- `fklValueTableAdd` on the constants; instructions have the number less one. -/
def addKonst (v : V) (e : Nat) : CgWorld S V K L × Nat :=
  let (id, konsts) := fklValueTableAdd (w.envs e).konsts v
  (w.modify e fun env => { env with konsts }, id - 1)

def fklVMvalueCgEnvAddUsedLib (e : Nat) (key : K) (lib : L) : CgWorld S V K L × FklLibId L :=
  match (w.envs e).usedLibraries.get key with
  | some id => (w, id)
  | none =>
    let id := ⟨(w.envs e).usedLibraries.entries.length, lib⟩
    (w.modify e fun env =>
      { env with usedLibraries := env.usedLibraries.add keyEquiv_eq key id }, id)

/-- A new environment; the parent keeps a place for its prototype. -/
def fklCreateVMvalueCgEnv (prev : Option Nat) (parentScope : Nat) (isDebugging : Bool) :
    CgWorld S V K L :=
  let scopes : FklCgEnv S :=
    { scopes := fun _ => ⟨0, 0, 0, 0, []⟩, scopeCount := 0, slots := [], uref := [], pdef := []
      refPdef := [] }
  let env : FklVMvalueCgEnv S V K L :=
    { base := fklCgEnterNewScope scopes 0
      parentScope
      protoId := match prev with
        | some p => (w.envs p).childProcProtos.length
        | none => fklTopEnvProtoId
      prev
      refs := .empty
      konsts := fklInitValueTable
      childProcProtos := []
      usedLibraries := .empty
      isDebugging := match prev with
        | some p => (w.envs p).isDebugging
        | none => isDebugging
      proto := none }
  let w' := match prev with
    | some p => w.modify p fun env => { env with childProcProtos := env.childProcProtos ++ [none] }
    | none => w
  { w' with envs := Function.update w'.envs w.envCount env, envCount := w.envCount + 1 }

end CgWorld

end FakeLisp
