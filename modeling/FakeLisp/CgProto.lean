import FakeLisp.CgWorld
import FakeLisp.PlacedMap

/-! The prototype of an environment, with the references that are resolved before; and the steps
of the compiler that register something in an environment. The counts and indices are natural
numbers where the code has `uint32_t`: no table here comes near `2 ^ 32` entries. Of the arguments
of `fklResolveRef`, `resolve_ref_to_def_cb` is left out: it only collects the names that the REPL
links later, and writes neither the environment nor the prototype. -/

namespace FakeLisp

variable {S V K L : Type} [DecidableEq S] [DecidableEq V] [DecidableEq K]

/-- The variables of the REPL that are not defined yet. -/
abbrev FklVMvalueWeakHashEq (S : Type) [DecidableEq S] :=
  InsertionMap (fun a b : S => decide (a = b)) (Option Nat)

structure FklResolveRefArgs where
  topEnv : Option Nat
  noRefsToBuiltins : Bool

namespace CgWorld

variable (w : CgWorld S V K L)

/-! Resolving references. -/

/-- What is known now of a reference of a prototype that was made before. -/
def patchRef (pt idx : Nat) (fields : List (Nat × ProtoCell S V L)) : CgWorld S V K L :=
  let proto := w.protos pt
  let writes := fields.map fun f => (proto.refOffset + idx * 3 + f.1, f.2)
  { w with
    protos := Function.update w.protos pt { proto with vals := storeCells proto.vals writes } }

/-- One round of the first loop of `fklResolveRef`. -/
def resolveRound (args : FklResolveRefArgs) (weakRefs : Option (FklVMvalueWeakHashEq S))
    (e scope : Nat) (st : CgWorld S V K L × List (FklUnbound S)) (i : Nat) :
    Option (CgWorld S V K L × List (FklUnbound S)) := do
  let (w, urefs1) := st
  let env := w.envs e
  let uref ← env.base.uref[i]?
  if uref.scope < scope then return (w, urefs1 ++ [uref])
  let pt ← (w.envs uref.env).proto
  match fklFindSymbolDef1 env.base uref.scope uref.sid with
  | some def' =>
    let w := w.modifyBase e (·.setSlotRef def'.2.idx)
    return (w.patchRef pt uref.idx [(1, .cidx def'.2.idx), (2, .isLocal true)], urefs1)
  | none =>
    let p := (env.base.scopes uref.scope).p
    if p ≠ 0 then
      let uref := { uref with scope := p }
      return (w.modifyBase e fun base => { base with uref := base.uref.set i uref },
        urefs1 ++ [uref])
    else if env.prev ≠ args.topEnv then
      let (w, cidx) ← w.fklAddCgRefBySid uref.sid e uref.assign
      return (w.patchRef pt uref.idx [(1, .cidx cidx)], urefs1)
    else
      let w := if args.noRefsToBuiltins then w else w.fklAddCgBuiltinRefBySid uref.sid e
      let stays := !uref.hasWeakRef || weakRefs.all fun t => (t.get uref.sid).isSome
      return (w, if stays then urefs1 ++ [uref] else urefs1)

structure WeakRefs (S : Type) [DecidableEq S] where
  ht : FklVMvalueWeakHashEq S
  idTable : FklValueTable (Option Nat)

/-- One round of the second loop: the reference is put back, and gets a place behind the
references of the environment if there is a table for that. -/
def putBackRound (e : Nat) (st : CgWorld S V K L × Option (WeakRefs S)) (uref : FklUnbound S) :
    Option (CgWorld S V K L × Option (WeakRefs S)) := do
  let (w, weakRefs) := st
  let w := w.modifyBase e fun base => { base with uref := base.uref ++ [uref] }
  match weakRefs with
  | none => return (w, none)
  | some ⟨ht, idTable⟩ =>
    let pt ← (w.envs uref.env).proto
    let count := (w.envs e).refs.entries.length
    match ht.get uref.sid with
    | none =>
      let ref := some w.varRefCount
      let ht := ht.add keyEquiv_eq uref.sid ref
      -- `has_weak_ref` is set in `urefs1`, when the reference is already copied back to `uref`
      let w := { w with varRefCount := w.varRefCount + 1 }
      return (w.patchRef pt uref.idx [(1, .cidx (ht.entries.length - 1 + count))],
        some ⟨ht, (fklValueTableAdd idTable ref).2⟩)
    | some ref =>
      let cidx := fklValueTableGet idTable ref - 1 + count
      return (w.patchRef pt uref.idx [(1, .cidx cidx)], some ⟨ht, idTable⟩)

def makeIdTable (ht : FklVMvalueWeakHashEq S) : FklValueTable (Option Nat) :=
  ht.entries.foldl (fun t e => (fklValueTableAdd t e.2).2) fklInitValueTable

def fklResolveRef (e scope : Nat) (args : FklResolveRefArgs)
    (weakRefs : Option (FklVMvalueWeakHashEq S)) :
    Option (CgWorld S V K L × Option (FklVMvalueWeakHashEq S)) := do
  let count := (w.envs e).base.uref.length
  let (w, urefs1) ← (List.range count).foldlM (resolveRound args weakRefs e scope) (w, [])
  let w := w.modifyBase e fun base => { base with uref := [] }
  let weakRefs := weakRefs.map fun ht => ⟨ht, makeIdTable ht⟩
  let (w, weakRefs) ← urefs1.reverse.foldlM (putBackRound e) (w, weakRefs)
  return (w, weakRefs.map (·.ht))

/-! The prototype. -/

section Writes

variable (env : FklVMvalueCgEnv S V K L) (weakRefs : Option (FklVMvalueWeakHashEq S))

def weakCount : Nat := (weakRefs.map (·.entries.length)).getD 0

def protoRefCount : Nat := weakCount weakRefs + env.refs.entries.length

def konstsOffset : Nat := protoRefCount env weakRefs * 3

def childProtoOffset : Nat := konstsOffset env weakRefs + env.konsts.ht.entries.length

def usedLibrariesOffset : Nat := childProtoOffset env weakRefs + env.childProcProtos.length

def totalValCount : Nat := usedLibrariesOffset env weakRefs + env.usedLibraries.entries.length

/-- The three members of a `FklVarRefDef`. -/
def varRefDef (i : Nat) (sid : Option S) (cidx : Nat) (isLocal : ProtoCell S V L) :
    List (Nat × ProtoCell S V L) :=
  [(i * 3, .sid sid), (i * 3 + 1, .cidx cidx), (i * 3 + 2, isLocal)]

def symDefSid (l : FklSidScope S × FklSymDef) : Option S :=
  if env.isDebugging || l.2.cidx = fklVarRefInvalidCidx then some l.1.sid else none

def refWrites : List (Nat × ProtoCell S V L) :=
  env.refs.entries.flatMap fun l =>
    varRefDef l.2.idx (symDefSid env l) l.2.cidx (.isLocal l.2.isLocal)

def konstWrites : List (Nat × ProtoCell S V L) :=
  env.konsts.ht.entries.map fun cur => (konstsOffset env weakRefs + (cur.2 - 1), .konst cur.1)

def childWrites : List (Nat × ProtoCell S V L) :=
  env.childProcProtos.zipIdx.map fun p => (childProtoOffset env weakRefs + p.2, .proto p.1)

def libWrites : List (Nat × ProtoCell S V L) :=
  env.usedLibraries.entries.map fun cur =>
    (usedLibrariesOffset env weakRefs + cur.2.id, .lib cur.2.lib)

/-- The variables that are not defined yet come behind the references. -/
def weakWrites : List (Nat × ProtoCell S V L) :=
  match weakRefs with
  | none => []
  | some ht => ht.entries.zipIdx.flatMap fun cur =>
    varRefDef (env.refs.entries.length + cur.2) (some cur.1.1) fklVarRefInvalidCidx
      (.varRef cur.1.2)

/-- What the loops of `fklCreateVMvalueProto3` write to `vals`, in that order. -/
def protoWrites : List (Nat × ProtoCell S V L) :=
  refWrites env ++ konstWrites env weakRefs ++ childWrites env weakRefs ++ libWrites env weakRefs
    ++ weakWrites env weakRefs

def makeProto : FklVMvalueProto S V L where
  localCount := env.base.slots.length
  refCount := protoRefCount env weakRefs
  refOffset := 0
  konstsCount := env.konsts.ht.entries.length
  konstsOffset := konstsOffset env weakRefs
  childProtoCount := env.childProcProtos.length
  childProtoOffset := childProtoOffset env weakRefs
  usedLibrariesCount := env.usedLibraries.entries.length
  usedLibrariesOffset := usedLibrariesOffset env weakRefs
  vals := storeCells (List.replicate (totalValCount env weakRefs) none) (protoWrites env weakRefs)

end Writes

/-- `update_parent_env_proto` -/
def updateParentEnvProto (e proto : Nat) : Option (CgWorld S V K L) := do
  let parent ← (w.envs e).prev
  if (w.envs e).protoId < (w.envs parent).childProcProtos.length then
    return w.modify parent fun env =>
      { env with childProcProtos := env.childProcProtos.set (w.envs e).protoId (some proto) }
  else none

def fklCreateVMvalueProto3 (e : Nat) (args : FklResolveRefArgs)
    (weakRefs : Option (FklVMvalueWeakHashEq S)) :
    Option (CgWorld S V K L × Nat × Option (FklVMvalueWeakHashEq S)) := do
  if (w.envs e).base.pdef.isEmpty then
    let (w, weakRefs) ← w.fklResolveRef e 1 args weakRefs
    let proto := w.protoCount
    let w := { w with
      protos := Function.update w.protos proto (makeProto (w.envs e) weakRefs)
      protoCount := proto + 1 }
    let w ← w.updateParentEnvProto e proto
    return (w.modify e fun env => { env with proto := some proto }, proto, weakRefs)
  else none

/-! Runs. -/

def init : CgWorld S V K L where
  envs _ :=
    { base := ⟨fun _ => ⟨0, 0, 0, 0, []⟩, 0, [], [], [], []⟩
      parentScope := 0
      protoId := 0
      prev := none
      refs := .empty
      konsts := fklInitValueTable
      childProcProtos := []
      usedLibraries := .empty
      isDebugging := false
      proto := none }
  envCount := 0
  protos _ := ⟨0, 0, 0, 0, 0, 0, 0, 0, 0, []⟩
  protoCount := 0
  varRefCount := 0

inductive CgOp (S V K L : Type) [DecidableEq S] where
  | createEnv (prev : Option Nat) (parentScope : Nat) (isDebugging : Bool)
  | addRef (id : S) (e : Nat) (assign : Bool)
  | addBuiltinRef (id : S) (e : Nat)
  | addKonst (v : V) (e : Nat)
  | addUsedLib (e : Nat) (key : K) (lib : L)
  /-- Scopes, definitions and predefinitions. -/
  | changeBase (e : Nat) (f : FklCgEnv S → FklCgEnv S)
  | resolveRef (e scope : Nat) (args : FklResolveRefArgs)
      (weakRefs : Option (FklVMvalueWeakHashEq S))
  | createProto (e : Nat) (args : FklResolveRefArgs) (weakRefs : Option (FklVMvalueWeakHashEq S))

/-- An index that the compiler got, with what it stands for. -/
inductive Handout (S V K L : Type) where
  | ref (e : Nat) (id : S) (idx : Nat)
  | konst (e : Nat) (v : V) (idx : Nat)
  | child (e child protoId : Nat)
  | lib (e : Nat) (key : K) (lib : L) (id : Nat)

def CgOp.Exists : CgOp S V K L → Prop
  | .createEnv prev _ _ => ∀ p ∈ prev, p < w.envCount
  | .addRef _ e _ | .addBuiltinRef _ e | .addKonst _ e | .addUsedLib e _ _ | .changeBase e _
  | .resolveRef e _ _ _ | .createProto e _ _ => e < w.envCount

instance (op : CgOp S V K L) : Decidable (op.Exists w) := by
  cases op <;> unfold CgOp.Exists <;> infer_instance

def stepOp : CgOp S V K L → Option (CgWorld S V K L × List (Handout S V K L))
  | .createEnv prev parentScope isDebugging =>
    some (w.fklCreateVMvalueCgEnv prev parentScope isDebugging,
      prev.toList.map fun p => .child p w.envCount (w.envs p).childProcProtos.length)
  | .addRef id e assign => (w.fklAddCgRefBySid id e assign).map fun r => (r.1, [.ref e id r.2])
  | .addBuiltinRef id e =>
    let w := w.fklAddCgBuiltinRefBySid id e
    (w.refIdx e (w.refKey e id)).map fun idx => (w, [.ref e id idx])
  | .addKonst v e => some ((w.addKonst v e).1, [.konst e v (w.addKonst v e).2])
  | .addUsedLib e key lib =>
    let (w, id) := w.fklVMvalueCgEnvAddUsedLib e key lib
    some (w, [.lib e key id.lib id.id])
  | .changeBase e f => some (w.modifyBase e f, [])
  | .resolveRef e scope args weakRefs =>
    (w.fklResolveRef e scope args weakRefs).map fun r => (r.1, [])
  | .createProto e args weakRefs =>
    (w.fklCreateVMvalueProto3 e args weakRefs).map fun r => (r.1, [])

def runOps : CgWorld S V K L → List (CgOp S V K L) →
    Option (CgWorld S V K L × List (Handout S V K L))
  | w, [] => some (w, [])
  | w, op :: ops => do
    if op.Exists w then
      let (w, handouts) ← w.stepOp op
      let (w, later) ← runOps w ops
      return (w, handouts ++ later)
    else none

end CgWorld

end FakeLisp
