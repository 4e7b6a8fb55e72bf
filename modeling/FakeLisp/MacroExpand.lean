import FakeLisp.MacroList

/-! The expansion of macro calls. A call keeps its table of bindings on a chain of the context,
where the collector finds it, while the macro is looked for and its procedure runs; macros may ask
for their arguments to be expanded before. -/

namespace FakeLisp

open Nast

variable {B W : Type}

/-- `ht_storage`, with the storages numbered in the order in which they were made. -/
structure PmatchStorages where
  chain : List Nat
  made : Nat
  old : ∀ s ∈ chain, s < made

namespace PmatchStorages

def fklPushCgPmatchStorage (s : PmatchStorages) : PmatchStorages where
  chain := s.made :: s.chain
  made := s.made + 1
  old := List.forall_mem_cons.mpr ⟨s.made.lt_succ_self, fun t ht => (s.old t ht).trans_le (by simp)⟩

def fklPopCgPmatchStorage (s : PmatchStorages) (own : Nat) : Option PmatchStorages :=
  if s.chain.head? = some own then
    some { s with chain := s.chain.tail, old := fun t ht => s.old t (List.mem_of_mem_tail ht) }
  else none

end PmatchStorages

inductive MacroExpandError where
  | expandFailed (place : Nast)
  | unserializable

/-- What the expansion reads and changes of `FklCgCtx`; `world` is what macros can change. -/
structure MacroCtx (W : Type) where
  storages : PmatchStorages
  error : Option MacroExpandError
  line : Nat
  world : W

/-- The ends of a macro's procedure. -/
inductive MacroProcResult where
  | failed
  | value (r : Nast)
  | unserializable

structure MacroEnv (B W : Type) where
  builtinSymOrig : List UInt8
  scopes : List (List UInt8 → List (FklVMvalueCgMacro B))
  curline : W → Nast → Nat
  execute : B → FklPmatchHashMap → Nat → W → MacroProcResult × W

/-- The value is missing for `NULL`. -/
abbrev Expander (W : Type) := FklPmatchRes → MacroCtx W → Option (Option Nast × MacroCtx W)

def expandMacroArg (once all : Expander W) : Expander W := fun exp ctx =>
  match exp.expand with
  | .none => some (some exp.value, ctx)
  | .once => once exp ctx
  | .all => all exp ctx

/-- The new values are stored in the table; there is none when an argument has no value. -/
def expandAllMacroArg (once all : Expander W) : List (List UInt8 × FklPmatchRes) →
    FklPmatchHashMap → MacroCtx W → Option (Option FklPmatchHashMap × MacroCtx W)
  | [], ht, ctx => some (some ht, ctx)
  | (k, r) :: rest, ht, ctx => do
    let (rr, ctx) ← expandMacroArg once all r ctx
    match rr with
    | none => return (none, ctx)
    | some value => expandAllMacroArg once all rest (ht.replace k { r with value }) ctx

namespace MacroEnv

variable (E : MacroEnv B W)

/-- The result, the value that is expanded next and `NULL` for no value. -/
def executeMacroExpandProcedure (m : FklVMvalueCgMacro B) (ht : FklPmatchHashMap) (line : Nat)
    (r : Nast) (ctx : MacroCtx W) : Option Nast × MacroCtx W :=
  match E.execute m.proc ht line ctx.world with
  | (.failed, world) => (none, { ctx with error := some (.expandFailed r), line, world })
  | (.value v, world) => (some v, { ctx with world })
  | (.unserializable, world) => (some r, { ctx with error := some .unserializable, line, world })

/-- The test of the loop: there is no error and a macro for the value. -/
def nextMacro (r : Option Nast) (ctx : MacroCtx W) :
    Option (Nast × FklVMvalueCgMacro B × FklPmatchHashMap) :=
  match r, ctx.error with
  | some r, none => (findMacro r E.scopes).map fun m => (r, m)
  | _, _ => none

def leave (own : Nat) (r : Option Nast) (ctx : MacroCtx W) :
    Option (Option Nast × MacroCtx W) := do
  let storages ← ctx.storages.fklPopCgPmatchStorage own
  return (r, { ctx with storages })

def tryExpand (loop : FklPmatchRes → Nat → Nat → Option Nast → MacroCtx W →
    Option (Option Nast × MacroCtx W)) : Expander W := fun exp ctx =>
  match exp.value with
  | .pair .. =>
    loop exp ctx.storages.made (E.curline ctx.world exp.container) (some exp.value)
      { ctx with storages := ctx.storages.fklPushCgPmatchStorage }
  | r => some (some r, ctx)

/-- The loop and what follows it; `again` is false where the first macro is the last. -/
def expandLoop (again : Bool) (fuel : Nat) (exp : FklPmatchRes) (own line : Nat)
    (r : Option Nast) (ctx : MacroCtx W) : Option (Option Nast × MacroCtx W) :=
  match E.nextMacro r ctx, fuel with
  | none, _ => leave own r ctx
  | some _, 0 => none
  | some (r, m, ht), fuel + 1 => do
    let (args, ctx) ← expandAllMacroArg (E.tryExpand (expandLoop false fuel))
      (E.tryExpand (expandLoop true fuel)) ht.entries ht ctx
    match args with
    | none => return (none, ctx)
    | some ht =>
      let ht := ht.set keyEquiv_symEq E.builtinSymOrig ⟨r, exp.container, .none⟩
      let (r, ctx) := E.executeMacroExpandProcedure m ht line r ctx
      if again then expandLoop again fuel exp own line r ctx else leave own r ctx

def fklTryExpandCgMacroOnce (fuel : Nat) : Expander W := E.tryExpand (E.expandLoop false fuel)

def fklTryExpandCgMacro (fuel : Nat) : Expander W := E.tryExpand (E.expandLoop true fuel)

end MacroEnv

end FakeLisp
