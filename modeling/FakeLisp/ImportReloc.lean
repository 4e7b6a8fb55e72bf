import FakeLisp.Bytecode
import FakeLisp.InsertionMap
import FakeLisp.WhileLoop

/-!
Pre-compiled libraries: the relocations of their import instructions are collected when they are
written, and applied when they are loaded with libraries that may export other symbols by then.
-/

namespace FakeLisp.PreCompile

/-- A symbol is its name. -/
abbrev Sym := List UInt8

abbrev LibId := Nat

/-! Tables of exports. -/

structure FklCgExportIdx where
  idx : Nat
  notOwned : Bool
  deriving DecidableEq

abbrev Exports := InsertionMap (K := Sym) (· == ·) FklCgExportIdx

theorem symEquiv : KeyEquiv (K := Sym) (· == ·) where
  refl := by simp
  symm := by simp
  trans := by simp

namespace Exports

def fklCgExportAdd (ex : Exports) (s : Sym) (notOwned : Bool) : Exports :=
  match ex.get s with
  | some e => ex.replace s { e with notOwned := e.notOwned && notOwned }
  | none => ex.set symEquiv s ⟨ex.entries.length, notOwned⟩

/-- The exports that stay: those that are owned or in `last`. -/
def filterNotOwnedAndUnusedSymbol (ex last : Exports) : Exports where
  entries := ex.entries.filter fun e => !((last.get e.1).isNone && e.2.notOwned)
  unequal := ex.unequal.filter _

/-- The symbols of `last` that are not in `ex`. -/
def filterNewExports (ex last : Exports) : List Sym :=
  (last.entries.filter fun e => (ex.get e.1).isNone).map (·.1)

/-- A name that is stored behind the end does not get into the vector. -/
def fklCreateCgNamesVec (ex : Exports) : List (Option Sym) :=
  ex.entries.foldl (fun v e => v.set e.2.idx (some e.1)) (List.replicate ex.entries.length none)

end Exports

/-! Re-exports. -/

inductive FklCgImportType where
  | common
  | withPrefix (pre : Sym)
  | only (syms : List Sym)
  | aliases (syms : List (Sym × Sym))
  | except (syms : List Sym)

/-- What an import reads and changes of a library: its exports and the heads of its macros,
replacements and reader macros. -/
structure CgLib where
  exports : Exports
  macros : List Sym

namespace CgLib

def importSymbol (dst : CgLib) (newHead : Sym) (item : FklCgExportIdx) : CgLib :=
  { dst with exports := dst.exports.fklCgExportAdd newHead item.notOwned }

def importMacro (dst : CgLib) (newHead : Sym) : CgLib :=
  { dst with macros := newHead :: dst.macros }

/-- All that `keep` lets through, under new names. -/
def importAll (src dst : CgLib) (keep : Sym → Bool) (name : Sym → Sym) : CgLib :=
  let dst := (src.macros.filter keep).foldl (fun l s => l.importMacro (name s)) dst
  (src.exports.entries.filter fun e => keep e.1).foldl
    (fun l e => l.importSymbol (name e.1) e.2) dst

/-- The named ones; nothing when one is missing. -/
def importNamed (src dst : CgLib) (syms : List (Sym × Sym)) : Option CgLib :=
  syms.foldlM (fun l (s, name) =>
    let l' := if s ∈ src.macros then l.importMacro name else l
    match src.exports.get s with
    | some item => some (l'.importSymbol name item)
    | none => if s ∈ src.macros then some l' else none) dst

def fklCgImport (src dst : CgLib) : FklCgImportType → Option CgLib
  | .common => some (src.importAll dst (fun _ => true) id)
  | .withPrefix pre => some (src.importAll dst (fun _ => true) (pre ++ ·))
  | .only syms => src.importNamed dst (syms.map fun s => (s, s))
  | .aliases syms => src.importNamed dst syms
  | .except syms => some (src.importAll dst (· ∉ syms) id)

end CgLib

inductive FklReExportCmd where
  | pushCtx
  | popCtx
  | pop
  | pushLib (idx : Nat)
  /-- The import of a library that was pushed. -/
  | importPushed (idx : Nat) (type : FklCgImportType)
  | importLib (lib : LibId) (type : FklCgImportType)

/-- The libraries made so far, with the last one of them, `last_lib`, at 0. -/
structure ReExportState where
  objs : List CgLib
  cur : Nat
  stack : List Nat
  cgLibVec : List (Option Nat)
  idxStack : List Nat
  startIdx : Nat

namespace ReExportState

def init : ReExportState := ⟨[⟨.empty, []⟩], 0, [], [], [], 0⟩

def importTo (st : ReExportState) (src : CgLib) (type : FklCgImportType) :
    Option ReExportState := do
  let lib ← st.objs[st.cur]?
  let lib ← src.fklCgImport lib type
  return { st with objs := st.objs.set st.cur lib }

def exec (libs : LibId → Option CgLib) (st : ReExportState) : FklReExportCmd → Option ReExportState
  | .pushCtx => some
    { st with idxStack := st.startIdx :: st.idxStack, startIdx := st.cgLibVec.length }
  | .popCtx =>
    match st.idxStack with
    | [] => none
    | start :: rest => some { st with idxStack := rest, startIdx := start }
  | .pop =>
    match st.stack with
    | [] => none
    | cur :: rest => some { st with stack := rest, cur }
  | .pushLib idx =>
    let target := st.startIdx + idx
    let vec := (st.cgLibVec ++ List.replicate (target - st.cgLibVec.length) none).take target
    if idx = 0 then none
    else some { st with
      objs := st.objs ++ [⟨.empty, []⟩], stack := st.cur :: st.stack, cur := st.objs.length,
      cgLibVec := vec.set (target - 1) (some st.objs.length) }
  | .importPushed idx type => do
    let obj ← (← st.cgLibVec[st.startIdx + idx - 1]?)
    st.importTo (← st.objs[obj]?) type
  | .importLib lib type => do st.importTo (← libs lib) type

end ReExportState

/-- `last_lib` after the commands. -/
def executeReExportCmds (libs : LibId → Option CgLib) (cmds : List FklReExportCmd) :
    Option CgLib := do
  let st ← cmds.foldlM (ReExportState.exec libs) .init
  if st.cur = 0 then st.objs[0]? else none

/-! Collection of the relocations. -/

/-- A library that a prototype uses, as it was when the file was written: its names, and for
each of them whether it is used where there is a flag for it. -/
structure UsedLib where
  lib : LibId
  internal : Bool
  names : List Sym
  used : List Bool

structure FklVMvalueProto where
  children : List Nat
  usedLibs : List UsedLib

structure FklReloc where
  lib : LibId
  sym : Sym
  proc : Nat
  ins : Nat
  used : Bool
  deriving DecidableEq

structure RelocScan where
  proto : Nat
  start : Nat
  stop : Nat

structure RangeScan where
  cur : Nat
  nextProto : Option Nat
  curLib : Option UsedLib
  pendings : List RelocScan
  relocs : List FklReloc

/-- One turn of the loop of `collect_import_in_range`; nothing where an assertion fails. -/
def RangeScan.step (protos : List FklVMvalueProto) (code : List FklIns) (proc proto : Nat)
    (st : RangeScan) : Option RangeScan := do
  let ins ← code[st.cur]?
  let p ← protos[proto]?
  let next := { st with cur := st.cur + 1 }
  match ins.op with
  | some .loadProto =>
    if st.nextProto.isSome then none
    else return { next with nextProto := some (← p.children[ins.uC]?) }
  | some .makeProc =>
    let q ← st.nextProto
    return { next with
      cur := st.cur + 1 + ins.uC, nextProto := none,
      pendings := ⟨q, st.cur + 1, st.cur + 1 + ins.uC⟩ :: st.pendings }
  | some .loadLib =>
    let l ← p.usedLibs[ins.uC]?
    return { next with curLib := if l.internal then none else some l }
  | some .importOp =>
    match st.curLib with
    | none => return next
    | some l =>
      let used ← l.used[ins.uC]?
      let sym ← l.names[ins.uC]?
      return { next with relocs := st.relocs ++ [⟨l.lib, sym, proc, st.cur, used⟩] }
  | _ => return next

def collectImportInRange (fuel : Nat) (protos : List FklVMvalueProto) (code : List FklIns)
    (proc : Nat) (scan : RelocScan) (s : List RelocScan × List FklReloc) :
    Option (List RelocScan × List FklReloc) := do
  let st ← whileLoop (fun st : RangeScan => st.cur < scan.stop)
    (RangeScan.step protos code proc scan.proto) fuel ⟨scan.start, none, none, s.1, s.2⟩
  return (st.pendings, st.relocs)

def collectRelocationsImpl (fuel : Nat) (protos : List FklVMvalueProto) (code : List FklIns)
    (proto proc : Nat) (relocs : List FklReloc) : Option (List FklReloc) := do
  let s ← whileLoop (fun s : List RelocScan × List FklReloc => !s.1.isEmpty)
    (fun s => match s.1 with
      | [] => none
      | scan :: rest => collectImportInRange fuel protos code proc scan (rest, s.2))
    fuel ([⟨proto, 0, code.length⟩], relocs)
  return s.2

/-- The bodies of nested procedures lie inside the range from `s` up to `e`. -/
inductive WellNested (code : List FklIns) : Nat → Nat → Prop
  | done (s : Nat) : WellNested code s s
  | plain {s e : Nat} {i : FklIns} (hi : code[s]? = some i) (hop : i.op ≠ some .makeProc)
    (h : WellNested code (s + 1) e) : WellNested code s e
  | makeProc {s e : Nat} {i : FklIns} (hi : code[s]? = some i) (hop : i.op = some .makeProc)
    (hbody : WellNested code (s + 1) (s + 1 + i.uC)) (h : WellNested code (s + 1 + i.uC) e) :
    WellNested code s e

structure FklVMvalueProc where
  proto : Nat
  code : List FklIns
  wellNested : WellNested code 0 code.length

/-- What is written: the exports are numbered in their order, no procedure uses the library
itself, and the first procedure, that of the library, ends with `EXPORT_MORE`. -/
structure WrittenLib where
  lib : LibId
  exports : Exports
  idx_eq : exports.entries.map (·.2.idx) = List.range exports.entries.length
  macros : List Sym
  cmds : List FklReExportCmd
  protos : List FklVMvalueProto
  procs : List FklVMvalueProc
  not_self : ∀ p ∈ protos, ∀ l ∈ p.usedLibs, l.lib ≠ lib
  exportMore : ∃ p, procs[0]? = some p ∧ ∃ i ∈ p.code, i.op = some .exportMore

/-- The procedures one after the other. -/
def collectRelocations (fuel : Nat) (w : WrittenLib) : Option (List FklReloc) :=
  w.procs.zipIdx.foldlM (fun relocs (p, i) =>
    collectRelocationsImpl fuel w.protos p.code p.proto i relocs) []

/-! Loading. -/

/-- A library that is loaded: what was written, what was re-exported then, and the code. -/
structure LoadedLib where
  written : WrittenLib
  relocs : List FklReloc
  last : CgLib
  codes : List (List FklIns)

namespace LoadedLib

variable (l : LoadedLib)

def stayed : Exports := l.written.exports.filterNotOwnedAndUnusedSymbol l.last.exports

def gained : List Sym := l.stayed.filterNewExports l.last.exports

def exports : Exports := l.gained.foldl (fun ex s => ex.fklCgExportAdd s true) l.stayed

/-- `scan_export_more` finds the instruction. -/
def hasExportMore : Bool :=
  (l.codes[0]?.getD []).any fun i => i.op = some .exportMore

/-- `fklVMvalueLibNames`, made again where exports were gained. -/
def names : List (Option Sym) :=
  if l.gained = [] ∨ l.hasExportMore = false then l.written.exports.fklCreateCgNamesVec
  else l.exports.fklCreateCgNamesVec

def cgLib : CgLib := ⟨l.exports, l.written.macros ++ l.last.macros⟩

end LoadedLib

def findLib (libs : List LoadedLib) (lib : LibId) : Option LoadedLib :=
  libs.find? fun l => l.written.lib = lib

/-- The instruction as it is, with a new operand, or pushing nil. -/
def LoadedLib.relocIns (lib : LoadedLib) (r : FklReloc) (ins : FklIns) : Option FklIns :=
  if lib.names[ins.uC]? = some (some r.sym) then some ins
  else
    match lib.exports.get r.sym with
    | some l => some (ins.setUC l.idx)
    | none => if r.used then none else some (makeInsI .pushNil)

def applyReloc (libs : LibId → Option LoadedLib) (codes : List (List FklIns)) (r : FklReloc) :
    Option (List (List FklIns)) := do
  let lib ← libs r.lib
  let code ← codes[r.proc]?
  let ins ← lib.relocIns r (← code[r.ins]?)
  return codes.set r.proc (code.set r.ins ins)

def applyRelocations (libs : LibId → Option LoadedLib) (relocs : List FklReloc)
    (codes : List (List FklIns)) : Option (List (List FklIns)) :=
  relocs.foldlM (applyReloc libs) codes

/-- The libraries that a file needs are loaded already. -/
def fklPreCompileFixup (libs : List LoadedLib) (w : WrittenLib) (relocs : List FklReloc) :
    Option LoadedLib := do
  let last ← executeReExportCmds (fun lib => (findLib libs lib).map (·.cgLib)) w.cmds
  let codes ← applyRelocations (findLib libs) relocs (w.procs.map (·.code))
  return { written := w, relocs, last, codes }

/-- A library is loaded once. -/
def loadLib (fuel : Nat) (libs : List LoadedLib) (w : WrittenLib) : Option (List LoadedLib) :=
  if (findLib libs w.lib).isSome then some libs
  else do
    let relocs ← collectRelocations fuel w
    return libs ++ [← fklPreCompileFixup libs w relocs]

def loadAll (fuel : Nat) (ws : List WrittenLib) : Option (List LoadedLib) :=
  ws.foldlM (loadLib fuel) []

end FakeLisp.PreCompile
