import FakeLisp.CgEnv
import FakeLisp.LalrItem
import FakeLisp.MacroList
import FakeLisp.ValueTable

/-! Importing a library: the five kinds of import take macros, replacements, reader macros and
variables from the tables of one library to those of several targets. -/

namespace FakeLisp.CgImport

/-- A symbol that is not interned is known by its address. -/
inductive CgSym where
  | interned (s : List UInt8)
  | uninterned (addr : Nat) (s : List UInt8)
deriving DecidableEq

def CgSym.text : CgSym → List UInt8
  | .interned s => s
  | .uninterned _ s => s

variable {B R M L P : Type}

abbrev SymTable (V : Type) := InsertionMap (fun a b : CgSym => decide (a = b)) V

structure FklCgExportIdx (L : Type) where
  idx : Nat
  notOwned : Bool
  fromLib : Option L
  fromIdx : Nat

/-- Replacements, reader macros and libraries of the program are objects; `rp` is the path. -/
structure FklVMvalueCgLib (B R M L P : Type) where
  exports : SymTable (FklCgExportIdx L)
  macros : SymTable (List (FklVMvalueCgMacro B))
  replacements : SymTable R
  rmacros : SymTable M
  rp : P
  lib : Option L

inductive FklCgImportType where
  | common
  | withPrefix (pre : CgSym)
  | only (syms : List CgSym)
  | aliases (syms : List (CgSym × CgSym))
  | except (syms : List CgSym)

/-- What an import reads of its arguments. -/
structure FklCgImportArgs (P : Type) where
  type : FklCgImportType
  noReplace : Bool
  isFromExternalLib : Bool
  scope : Nat
  /-- The symbols of an `except`, when the caller has them. -/
  excepts : Option (List CgSym)
  /-- `fklIsInternalModule`, when there is a `cg_ctx`. -/
  isInternalModule : Option (P → Bool)

/-- What an import writes. -/
structure CgTargets (B R M L : Type) where
  macros : List (Option (SymTable (List (FklVMvalueCgMacro B))))
  replacements : List (Option (SymTable R))
  /-- With `need_rebuild`. -/
  rmacros : List (Option (SymTable M) × Bool)
  rmacroVec : Option (List (CgSym × M))
  missingSyms : Option (List CgSym)
  env : Option (FklCgEnv CgSym)
  exports : Option (SymTable (FklCgExportIdx L))
  importCache : Option (List (CgSym × CgSym))

variable (lib : FklVMvalueCgLib B R M L P) (args : FklCgImportArgs P) (dst : CgTargets B R M L)

/-! One entity. -/

def addCompilerMacro (noReplace : Bool) (macros : SymTable (List (FklVMvalueCgMacro B)))
    (head : CgSym) (m : FklVMvalueCgMacro B) : SymTable (List (FklVMvalueCgMacro B)) :=
  macros.set keyEquiv_eq head
    (FakeLisp.addCompilerMacro noReplace ((macros.get head).getD []) m)

def importMacroList (sym : CgSym) (list : List (FklVMvalueCgMacro B)) : CgTargets B R M L :=
  list.foldl (fun dst m =>
    { dst with macros := dst.macros.map (Option.map fun macros =>
        addCompilerMacro args.noReplace macros sym m) }) dst

def importReplacement (sym : CgSym) (rpl : R) : CgTargets B R M L :=
  { dst with replacements := dst.replacements.map (Option.map fun rpls =>
      if args.noReplace && (rpls.get sym).isSome then rpls else rpls.set keyEquiv_eq sym rpl) }

/-- The table, and whether a reader macro was replaced. -/
def doAddRmacro (noReplace : Bool) (map : SymTable M) (newId : CgSym) (rm : M) :
    SymTable M × Bool :=
  let old := map.get newId
  if noReplace && old.isSome then (map, false)
  else ((map.erase newId).set keyEquiv_eq newId rm, old.isSome)

/-- One target, with its `need_rebuild`. -/
def addRmacroTo (noReplace : Bool) (sym : CgSym) (rm : M) :
    Option (SymTable M) × Bool → Option (SymTable M) × Bool
  | (none, needRebuild) => (none, needRebuild)
  | (some rmacros, needRebuild) =>
    let (rmacros, r) := doAddRmacro noReplace rmacros sym rm
    (some rmacros, needRebuild || r)

def importReaderMacro (sym : CgSym) (rm : M) : CgTargets B R M L :=
  let dst := { dst with rmacros := dst.rmacros.map (addRmacroTo args.noReplace sym rm) }
  if args.noReplace then dst
  else { dst with rmacroVec := dst.rmacroVec.map (· ++ [(sym, rm)]) }

/-- The element of the symbol, which is inserted if there is none. -/
def fklCgExportAdd (exports : SymTable (FklCgExportIdx L)) (s : CgSym) (notOwned : Bool) :
    FklCgExportIdx L :=
  let r := (exports.get s).getD ⟨exports.entries.length, notOwned, none, 0⟩
  { r with notOwned := r.notOwned && notOwned }

/-- Nothing where the assertion fails. -/
def importExport (newHead : CgSym) (item : FklCgExportIdx L)
    (exports : SymTable (FklCgExportIdx L)) : Option (SymTable (FklCgExportIdx L)) := do
  let notOwned := item.notOwned || (args.isInternalModule.map fun f => !f lib.rp).getD false
  let i := fklCgExportAdd exports newHead notOwned
  if args.isFromExternalLib then
    let fromLib ← lib.lib
    return exports.set keyEquiv_eq newHead { i with fromLib := some fromLib, fromIdx := item.idx }
  else
    return exports.set keyEquiv_eq newHead
      { i with fromLib := item.fromLib, fromIdx := item.fromIdx }

def importSymbol (newHead old : CgSym) (item : FklCgExportIdx L) :
    Option (CgTargets B R M L) := do
  let exports ← match dst.exports with
    | none => pure none
    | some exports => (importExport lib args newHead item exports).map some
  return { dst with
    exports := exports
    env := dst.env.map fun env => (fklAddCgDefBySid newHead args.scope env).2
    importCache := dst.importCache.map (· ++ [(newHead, old)]) }

/-! The kinds of import. -/

/-- The loops over the four tables of the library. -/
def importTables (skip : CgSym → Bool) (newHead : CgSym → CgSym) : Option (CgTargets B R M L) :=
  let dst := lib.macros.entries.foldl (fun dst cur =>
    if skip cur.1 then dst else importMacroList args dst (newHead cur.1) cur.2) dst
  let dst := lib.replacements.entries.foldl (fun dst cur =>
    if skip cur.1 then dst else importReplacement args dst (newHead cur.1) cur.2) dst
  let dst := lib.rmacros.entries.foldl (fun dst cur =>
    if skip cur.1 then dst else importReaderMacro args dst (newHead cur.1) cur.2) dst
  lib.exports.entries.foldlM (fun dst cur =>
    if skip cur.1 then some dst else importSymbol lib args dst (newHead cur.1) cur.1 cur.2) dst

def appendSymbolPrefix (pre sym : CgSym) : CgSym := .interned (pre.text ++ sym.text)

def doImportMacrosCommon : Option (CgTargets B R M L) :=
  importTables lib args dst (fun _ => false) id

def doImportMacrosPrefix (pre : CgSym) : Option (CgTargets B R M L) :=
  importTables lib args dst (fun _ => false) (appendSymbolPrefix pre)

def doImportMacrosExceptImpl (excepts : List CgSym) : Option (CgTargets B R M L) :=
  importTables lib args dst (· ∈ excepts) id

/-- The missing symbol is noted, where there is a place for it. -/
def noteMissing (sym : CgSym) (hasEntity : Bool) (dst : CgTargets B R M L) :
    Bool × CgTargets B R M L :=
  match dst.missingSyms with
  | some missing =>
    if hasEntity then (false, dst)
    else (true, { dst with missingSyms := some (missing ++ [sym]) })
  | none => (false, dst)

/-- A round of the loops over a list of symbols: the four tables are asked for `sym`. -/
def importNamed (sym newHead : CgSym) : Option (Bool × CgTargets B R M L) := do
  let kv := lib.macros.get sym
  let dst := kv.elim dst (importMacroList args dst newHead)
  let rpl := lib.replacements.get sym
  let dst := rpl.elim dst (importReplacement args dst newHead)
  let rm := lib.rmacros.get sym
  let dst := rm.elim dst (importReaderMacro args dst newHead)
  let item := lib.exports.get sym
  let dst ← item.elim (some dst) (importSymbol lib args dst newHead sym)
  return noteMissing sym (kv.isSome || rpl.isSome || rm.isSome || item.isSome) dst

/-- The result, -1 when a symbol is missing. -/
def importList (syms : List (CgSym × CgSym)) : Option (Int × CgTargets B R M L) := do
  let (importMissing, dst) ← syms.foldlM (fun (importMissing, dst) (sym, newHead) => do
    let (missing, dst) ← importNamed lib args dst sym newHead
    return (importMissing || missing, dst)) (false, dst)
  return (if importMissing then -1 else 0, dst)

def doImportMacrosOnly (syms : List CgSym) : Option (Int × CgTargets B R M L) :=
  importList lib args dst (syms.map fun sym => (sym, sym))

def doImportMacrosAlias (syms : List (CgSym × CgSym)) : Option (Int × CgTargets B R M L) :=
  importList lib args dst syms

/-- The symbols in the order in which they were put into the hash set. -/
def exceptSet (except : List CgSym) : List CgSym := except.foldl hashSetPut []

/-- Element by element, after the numbers of elements. -/
def exceptCacheVerify (excepts except : List CgSym) : Bool :=
  excepts.length = except.length && (except.zip excepts).all fun p => p.1 = p.2

/-- Nothing where the assertion fails. -/
def doImportMacrosExcept (except : List CgSym) : Option (CgTargets B R M L) :=
  match args.excepts with
  | none => doImportMacrosExceptImpl lib args dst (exceptSet except)
  | some excepts =>
    if exceptCacheVerify excepts except then doImportMacrosExceptImpl lib args dst excepts
    else none

def fklCgImport : Option (Int × CgTargets B R M L) :=
  if args.noReplace && dst.rmacroVec.isSome then none
  else
    match args.type with
    | .common => (doImportMacrosCommon lib args dst).map fun dst => (0, dst)
    | .withPrefix pre => (doImportMacrosPrefix lib args dst pre).map fun dst => (0, dst)
    | .only syms => doImportMacrosOnly lib args dst syms
    | .aliases syms => doImportMacrosAlias lib args dst syms
    | .except syms => (doImportMacrosExcept lib args dst syms).map fun dst => (0, dst)

end FakeLisp.CgImport
