import FakeLisp.ImportRelocRight
import Mathlib.Data.List.Forall2

/-! The loading of a pre-compiled file works in place on what was read of it. When it fails half
way, what was changed by then stays changed. -/

namespace FakeLisp.PreCompile

/-- A library that a file uses: the number of one that the file needs, or a library. -/
inductive LibRef where
  | placeholder (idx : Nat)
  | lib (l : LibId)
  deriving DecidableEq

structure FklPcDep where
  rp : Sym
  name : Sym
  pathType : Nat
  isImportedByMacro : Bool

/-- A command to export again, with a placeholder for a library that the file needs. -/
inductive LoadedCmd where
  | cmd (c : FklReExportCmd)
  | importPlaceholder (idx : Nat) (type : FklCgImportType)

structure LoadedReloc where
  lib : LibRef
  sym : Sym
  proc : Nat
  ins : Nat
  used : Bool

/-- What was read of a file: the libraries that it needs, those that its prototypes use, the
commands, the relocations, the code, and its own library. -/
structure Fixup where
  pendings : List FklPcDep
  protoLibs : List (List LibRef)
  cmds : List LoadedCmd
  relocations : List LoadedReloc
  codes : List (List FklIns)
  lib : CgLib
  names : List (Option Sym)

/-- A library that is there already. -/
structure BoundLib where
  cgLib : CgLib
  names : List (Option Sym)

/-- What is put into `missing_import`. -/
inductive MissingImport where
  | dep (rp : Sym)
  | lib (l : Option LibId)
  | sym (s : Sym)

/-! Placeholders. -/

def bindRef (libVec : List LibId) : LibRef → Option LibRef
  | .placeholder idx => (libVec[idx]?).map .lib
  | .lib l => some (.lib l)

/-- `fixup_proto_external_libs` -/
def fixupProtoExternalLibs (libVec : List LibId) (libs : List LibRef) : Option (List LibRef) :=
  libs.mapM (bindRef libVec)

def fixupReExportCmdExternalLib (libVec : List LibId) : LoadedCmd → Option LoadedCmd
  | .cmd c => some (.cmd c)
  | .importPlaceholder idx type => (libVec[idx]?).map fun l => .cmd (.importLib l type)

/-- Relocations have only placeholders. -/
def fixupRelocationExternalLib (libVec : List LibId) (r : LoadedReloc) : Option LoadedReloc :=
  match r.lib with
  | .placeholder idx => (libVec[idx]?).map fun l => { r with lib := .lib l }
  | .lib _ => none

def fixupExternalLibs (libVec : List LibId) (st : Fixup) : Option Fixup := do
  let protoLibs ← st.protoLibs.mapM (fixupProtoExternalLibs libVec)
  let cmds ← st.cmds.mapM (fixupReExportCmdExternalLib libVec)
  let relocations ← st.relocations.mapM (fixupRelocationExternalLib libVec)
  some { st with protoLibs, cmds, relocations }

/-! The import of one library into another goes on where a symbol is missing. -/

namespace CgLib

def importNamedMissing (src : CgLib) : List (Sym × Sym) → CgLib → CgLib × List Sym
  | [], dst => (dst, [])
  | (s, name) :: rest, dst =>
    let dst := if s ∈ src.macros then dst.importMacro name else dst
    match src.exports.get s with
    | some item => src.importNamedMissing rest (dst.importSymbol name item)
    | none =>
      let out := src.importNamedMissing rest dst
      if s ∈ src.macros then out else (out.1, s :: out.2)

/-- `fklCgImport`, with the symbols that are missing. -/
def fklCgImportMissing (src dst : CgLib) : FklCgImportType → CgLib × List Sym
  | .common => (src.importAll dst (fun _ => true) id, [])
  | .withPrefix pre => (src.importAll dst (fun _ => true) (pre ++ ·), [])
  | .only syms => src.importNamedMissing (syms.map fun s => (s, s)) dst
  | .aliases syms => src.importNamedMissing syms dst
  | .except syms => (src.importAll dst (· ∉ syms) id, [])

/-- What `execute_re_export_cmds` makes of the library at its end, and the new exports. -/
def updateReExports (lib last : CgLib) : CgLib × List Sym :=
  let stayed := lib.exports.filterNotOwnedAndUnusedSymbol last.exports
  let gained := stayed.filterNewExports last.exports
  (⟨gained.foldl (fun ex s => ex.fklCgExportAdd s true) stayed, lib.macros ++ last.macros⟩, gained)

end CgLib

section

/-! `libs` are the libraries that are there, `bind` is `fklVMvalueCgLibsBind1`; `collect` tells
whether there is a vector for what is missing. -/

variable (libs : LibId → BoundLib) (bind : FklPcDep → Option LibId) (collect : Bool)

structure ReExportExec where
  st : ReExportState
  missing : List MissingImport
  hasError : Bool

/-- Nothing where an assertion fails, `some none` where the function returns. -/
def ReExportExec.importFrom (e : ReExportExec) (src : CgLib) (lib : Option LibId)
    (type : FklCgImportType) : Option (Option ReExportExec) := do
  let dst ← e.st.objs[e.st.cur]?
  let (dst, missings) := src.fklCgImportMissing dst type
  let st := { e.st with objs := e.st.objs.set e.st.cur dst }
  if missings = [] then some (some { e with st })
  else if collect then
    some (some ⟨st, e.missing ++ .lib lib :: missings.map .sym, true⟩)
  else some none

def ReExportExec.exec (e : ReExportExec) : LoadedCmd → Option (Option ReExportExec)
  | .cmd (.importPushed idx type) => do
    let obj ← (← e.st.cgLibVec[e.st.startIdx + idx - 1]?)
    e.importFrom collect (← e.st.objs[obj]?) none type
  | .cmd (.importLib l type) => e.importFrom collect (libs l).cgLib (some l) type
  | .cmd c => (e.st.exec (fun _ => none) c).map fun st => some { e with st }
  | .importPlaceholder _ _ => none

def runReExportCmds : List LoadedCmd → ReExportExec → Option (Option ReExportExec)
  | [], e => some (some e)
  | c :: rest, e => do
    match ← e.exec libs collect c with
    | none => some none
    | some e => runReExportCmds rest e

/-- `execute_re_export_cmds`: the library and its new exports, or none of them where it fails. -/
def executeReExportCmdsOn (st : Fixup) : Option (List MissingImport × Option (CgLib × List Sym)) := do
  match ← runReExportCmds libs collect st.cmds ⟨.init, [], false⟩ with
  | none => some ([], none)
  | some e =>
    if e.hasError then some (e.missing, none)
    else if e.st.cur = 0 then do
      let last ← e.st.objs[0]?
      some (e.missing, some (st.lib.updateReExports last))
    else none

/-- What becomes of the instruction, nothing where its symbol is missed. -/
def BoundLib.relocIns (lib : BoundLib) (r : LoadedReloc) (ins : FklIns) : Option FklIns :=
  if lib.names[ins.uC]? = some (some r.sym) then some ins
  else
    match lib.cgLib.exports.get r.sym with
    | some l => some (ins.setUC l.idx)
    | none => if r.used then none else some (makeInsI .pushNil)

/-- `apply_relocations`: the code, what is missing, and whether that is nothing. -/
def applyRelocationsOn : List LoadedReloc → List (List FklIns) →
    Option (List (List FklIns) × List MissingImport × Bool)
  | [], codes => some (codes, [], true)
  | r :: rest, codes => do
    match r.lib with
    | .placeholder _ => none
    | .lib l =>
      let code ← codes[r.proc]?
      let ins ← code[r.ins]?
      match (libs l).relocIns r ins with
      | some ins => applyRelocationsOn rest (codes.set r.proc (code.set r.ins ins))
      | none =>
        if collect then do
          let (codes, missing, _) ← applyRelocationsOn rest codes
          some (codes, .lib (some l) :: .sym r.sym :: missing, false)
        else some (codes, [], false)

/-- The libraries that the file needs, or the first one that is not there. -/
def bindPendings : List FklPcDep → Except Sym (List LibId)
  | [] => .ok []
  | dep :: rest =>
    match bind dep with
    | none => .error dep.rp
    | some l => (bindPendings rest).map (l :: ·)

structure FixupResult where
  st : Fixup
  missing : List MissingImport
  ok : Bool

/-- `fklPreCompileFixup` -/
def fklPreCompileFixupOn (st : Fixup) : Option FixupResult :=
  match bindPendings bind st.pendings with
  | .error rp => some ⟨st, if collect then [.dep rp] else [], false⟩
  | .ok libVec => do
    let st ← fixupExternalLibs libVec st
    let (missing, out) ← executeReExportCmdsOn libs collect st
    match out with
    | none => some ⟨st, missing, false⟩
    | some (lib, gained) =>
      let (codes, missing', ok) ← applyRelocationsOn libs collect st.relocations st.codes
      let st := { st with lib, codes }
      let missing := missing ++ missing'
      -- `scan_export_more` in the procedure of the library
      if ok ∧ gained ≠ [] ∧ (codes[0]?.getD []).any (fun i => i.op = some .exportMore) then
        some ⟨{ st with names := lib.exports.fklCreateCgNamesVec }, missing, true⟩
      else some ⟨st, missing, ok⟩

end

/-! What is left of the file where the loading fails. -/

/-- A used library stays what it is, unless it is a placeholder. -/
inductive BindsRef (libVec : List LibId) : LibRef → LibRef → Prop where
  | bound (idx : Nat) (l : LibId) (h : libVec[idx]? = some l) :
      BindsRef libVec (.placeholder idx) (.lib l)
  | kept (l : LibId) : BindsRef libVec (.lib l) (.lib l)

def OnlyPlaceholdersBound (libVec : List LibId) (st st' : Fixup) : Prop :=
  List.Forall₂ (List.Forall₂ (BindsRef libVec)) st.protoLibs st'.protoLibs

def wordOf (codes : List (List FklIns)) (p i : Nat) : Option FklIns := (codes[p]?).bind (·[i]?)

/-- The words that no relocation is for are what they were. -/
structure WordsKept (relocations : List LoadedReloc) (codes codes' : List (List FklIns)) : Prop where
  lengths : codes'.map List.length = codes.map List.length
  words : ∀ p i, (∀ r ∈ relocations, ¬ (r.proc = p ∧ r.ins = i)) → wordOf codes' p i = wordOf codes p i

/-- The exports of the file's own are what they were. -/
def OwnedKept (ex ex' : Exports) : Prop :=
  ∀ s e, e.notOwned = false → (ex'.get s = some e ↔ ex.get s = some e)

/-- The commands to export again fail. -/
def ReExportsFail (libs : LibId → BoundLib) (collect : Bool) (libVec : List LibId)
    (st : Fixup) : Prop :=
  ∃ st' missing, fixupExternalLibs libVec st = some st' ∧
    executeReExportCmdsOn libs collect st' = some (missing, none)

/-- What a failed call leaves alone: all where a library cannot be bound; else all but placeholders
of the used libraries, words that relocations are for, and exports that are not owned, and where the
commands to export again fail the words and the exports too. -/
def FailureKeeps (libs : LibId → BoundLib) (bind : FklPcDep → Option LibId) (collect : Bool)
    (st st' : Fixup) : Prop :=
  (∀ rp, bindPendings bind st.pendings = .error rp → st' = st) ∧
  ∀ libVec, bindPendings bind st.pendings = .ok libVec →
    OnlyPlaceholdersBound libVec st st' ∧ WordsKept st.relocations st.codes st'.codes ∧
    OwnedKept st.lib.exports st'.lib.exports ∧
    (ReExportsFail libs collect libVec st → st'.codes = st.codes ∧ st'.lib = st.lib)

variable {libs : LibId → BoundLib} {bind : FklPcDep → Option LibId} {collect ok : Bool}
  {libVec : List LibId} {st st' : Fixup} {codes codes' : List (List FklIns)}
  {missing : List MissingImport}

theorem forall₂_of_mapM {α β : Type} {f : α → Option β} {as : List α} {bs : List β}
    (h : as.mapM f = some bs) : List.Forall₂ (fun a b => f a = some b) as bs := by
  induction as generalizing bs with
  | nil =>
    obtain rfl : bs = [] := by simpa [eq_comm] using h
    exact .nil
  | cons a as ih =>
    rw [List.mapM_cons] at h
    obtain ⟨b, hb, h⟩ := Option.bind_eq_some_iff.mp h
    obtain ⟨rest, hrest, h⟩ := Option.bind_eq_some_iff.mp h
    obtain rfl := Option.some.inj h
    exact .cons hb (ih hrest)

theorem exists_of_forall₂ {α β : Type} {R : α → β → Prop} {as : List α} {bs : List β}
    (h : List.Forall₂ R as bs) {b : β} (hb : b ∈ bs) : ∃ a ∈ as, R a b := by
  induction h with
  | nil => cases hb
  | cons hab _ ih =>
    rcases List.mem_cons.mp hb with rfl | hb
    · exact ⟨_, List.mem_cons_self, hab⟩
    · obtain ⟨a, ha, h⟩ := ih hb
      exact ⟨a, List.mem_cons_of_mem _ ha, h⟩

theorem bindRef_binds {a b : LibRef} (h : bindRef libVec a = some b) : BindsRef libVec a b := by
  cases a with
  | placeholder idx =>
    obtain ⟨l, hl, rfl⟩ := Option.map_eq_some_iff.mp h
    exact .bound idx l hl
  | lib l =>
    obtain rfl := Option.some.inj h
    exact .kept l

theorem fixupRelocationExternalLib_place {r r' : LoadedReloc}
    (h : fixupRelocationExternalLib libVec r = some r') : r'.proc = r.proc ∧ r'.ins = r.ins := by
  unfold fixupRelocationExternalLib at h
  cases hlib : r.lib with
  | placeholder idx =>
    rw [hlib] at h
    obtain ⟨l, -, rfl⟩ := Option.map_eq_some_iff.mp h
    exact ⟨rfl, rfl⟩
  | lib l =>
    rw [hlib] at h
    cases h

/-- What the placeholders are replaced in, and what stays. -/
structure FixesUp (libVec : List LibId) (st st' : Fixup) : Prop where
  bound : OnlyPlaceholdersBound libVec st st'
  places : ∀ r' ∈ st'.relocations, ∃ r ∈ st.relocations, r'.proc = r.proc ∧ r'.ins = r.ins
  codes : st'.codes = st.codes
  lib : st'.lib = st.lib

theorem fixupExternalLibs_fixesUp (h : fixupExternalLibs libVec st = some st') :
    FixesUp libVec st st' := by
  obtain ⟨protoLibs, hprotos, h⟩ := Option.bind_eq_some_iff.mp h
  obtain ⟨cmds, -, h⟩ := Option.bind_eq_some_iff.mp h
  obtain ⟨relocations, hrelocs, h⟩ := Option.bind_eq_some_iff.mp h
  obtain rfl := Option.some.inj h
  refine ⟨?_, ?_, rfl, rfl⟩
  · apply (forall₂_of_mapM hprotos).imp
    intro libs libs' hlibs
    exact (forall₂_of_mapM hlibs).imp fun _ _ => bindRef_binds
  · intro r' hr'
    obtain ⟨r, hr, hfix⟩ := exists_of_forall₂ (forall₂_of_mapM hrelocs) hr'
    exact ⟨r, hr, fixupRelocationExternalLib_place hfix⟩

theorem WordsKept.refl (rs : List LoadedReloc) (codes : List (List FklIns)) :
    WordsKept rs codes codes := ⟨rfl, fun _ _ _ => rfl⟩

theorem WordsKept.trans {rs rs' : List LoadedReloc} {codes'' : List (List FklIns)}
    (h : WordsKept rs codes codes') (h' : WordsKept rs' codes' codes'') :
    WordsKept (rs ++ rs') codes codes'' := by
  refine ⟨h'.lengths.trans h.lengths, ?_⟩
  intro p i hno
  rw [h'.words p i fun r hr => hno r (List.mem_append_right _ hr),
    h.words p i fun r hr => hno r (List.mem_append_left _ hr)]

theorem wordsKept_set {code : List FklIns} {r : LoadedReloc} (hcode : codes[r.proc]? = some code)
    (ins : FklIns) : WordsKept [r] codes (codes.set r.proc (code.set r.ins ins)) := by
  obtain ⟨hlt, hget⟩ := List.getElem?_eq_some_iff.mp hcode
  constructor
  · rw [List.map_set, List.length_set, ← hget]
    apply List.ext_getElem?
    intro k
    by_cases hk : r.proc = k
    · subst hk
      rw [List.getElem?_set_self (by simpa using hlt), List.getElem?_map, hcode, ← hget]
      rfl
    · rw [List.getElem?_set_ne hk]
  · intro p i hno
    have hne := hno r List.mem_cons_self
    unfold wordOf
    by_cases hp : r.proc = p
    · subst hp
      rw [List.getElem?_set_self hlt, hcode, Option.bind_some, Option.bind_some,
        List.getElem?_set_ne fun hi => hne ⟨rfl, hi⟩]
    · rw [List.getElem?_set_ne hp]

theorem applyRelocationsOn_wordsKept {rs : List LoadedReloc}
    (h : applyRelocationsOn libs collect rs codes = some (codes', missing, ok)) :
    WordsKept rs codes codes' := by
  induction rs generalizing codes codes' missing ok with
  | nil =>
    obtain ⟨rfl, -⟩ := Prod.mk.inj (Option.some.inj h)
    exact WordsKept.refl [] codes
  | cons r rest ih =>
    unfold applyRelocationsOn at h
    cases hlib : r.lib with
    | placeholder idx =>
      rw [hlib] at h
      cases h
    | lib l =>
      simp only [hlib] at h
      obtain ⟨code, hcode, h⟩ := Option.bind_eq_some_iff.mp h
      obtain ⟨ins, -, h⟩ := Option.bind_eq_some_iff.mp h
      cases hreloc : (libs l).relocIns r ins with
      | some ins' =>
        rw [hreloc] at h
        exact (wordsKept_set hcode ins').trans (ih h)
      | none =>
        simp only [hreloc] at h
        cases collect with
        | false =>
          obtain ⟨rfl, -⟩ := Prod.mk.inj (Option.some.inj h)
          exact WordsKept.refl _ codes
        | true =>
          obtain ⟨⟨codes'', missing', ok'⟩, hrest, h⟩ := Option.bind_eq_some_iff.mp h
          obtain ⟨rfl, -⟩ := Prod.mk.inj (Option.some.inj h)
          exact (WordsKept.refl [r] codes).trans (ih hrest)

theorem WordsKept.places {rs rs' : List LoadedReloc} (h : WordsKept rs' codes codes')
    (hplaces : ∀ r' ∈ rs', ∃ r ∈ rs, r'.proc = r.proc ∧ r'.ins = r.ins) :
    WordsKept rs codes codes' := by
  refine ⟨h.lengths, ?_⟩
  intro p i hno
  apply h.words
  rintro r' hr' ⟨rfl, rfl⟩
  obtain ⟨r, hr, hproc, hins⟩ := hplaces r' hr'
  exact hno r hr ⟨hproc.symm, hins.symm⟩

/-- The exports that go are not owned, and so are those that come. -/
theorem updateReExports_ownedKept (lib last : CgLib) :
    OwnedKept lib.exports (lib.updateReExports last).1.exports := by
  intro s e he
  obtain ⟨stayed, hstayed⟩ :
      ∃ stayed, lib.exports.filterNotOwnedAndUnusedSymbol last.exports = stayed := ⟨_, rfl⟩
  have hnone : ∀ s ∈ stayed.filterNewExports last.exports, stayed.get s = none := by
    intro s hs
    obtain ⟨e, he, rfl⟩ := List.mem_map.mp hs
    exact Option.isNone_iff_eq_none.mp (List.mem_filter.mp he).2
  have hnodup : (stayed.filterNewExports last.exports).Nodup :=
    Exports.keys_nodup.sublist (List.filter_sublist.map _)
  have hentries := Exports.exportAdd_all hnodup hnone
  rw [CgLib.updateReExports, hstayed, ← Exports.mem_iff, ← Exports.mem_iff, hentries,
    List.mem_append, ← hstayed]
  constructor
  · rintro (hmem | hmem)
    · exact (List.mem_filter.mp hmem).1
    · obtain ⟨x, -, hx⟩ := List.mem_map.mp hmem
      obtain ⟨-, rfl⟩ := Prod.mk.inj hx
      cases he
  · intro hmem
    exact Or.inl (List.mem_filter.mpr ⟨hmem, by simp [he]⟩)

theorem executeReExportCmdsOn_updates {out : CgLib × List Sym}
    (h : executeReExportCmdsOn libs collect st = some (missing, some out)) :
    ∃ last, out = st.lib.updateReExports last := by
  obtain ⟨e, -, h⟩ := Option.bind_eq_some_iff.mp h
  cases e with
  | none => cases congrArg Prod.snd (Option.some.inj h)
  | some e =>
    simp only at h
    split at h
    · cases congrArg Prod.snd (Option.some.inj h)
    · split at h
      · obtain ⟨last, -, h⟩ := Option.bind_eq_some_iff.mp h
        obtain ⟨-, hout⟩ := Prod.mk.inj (Option.some.inj h)
        exact ⟨last, (Option.some.inj hout).symm⟩
      · cases h

theorem fklPreCompileFixupOn_failed {r : FixupResult}
    (h : fklPreCompileFixupOn libs bind collect st = some r) (hr : r.ok = false) :
    FailureKeeps libs bind collect st r.st := by
  unfold FailureKeeps
  unfold fklPreCompileFixupOn at h
  cases hbind : bindPendings bind st.pendings with
  | error rp =>
    rw [hbind] at h
    obtain rfl := Option.some.inj h
    exact ⟨fun _ _ => rfl, fun _ hok => by cases hok⟩
  | ok libVec =>
    constructor
    · intro rp herr
      cases herr
    intro libVec' hok
    obtain rfl := Except.ok.inj hok
    simp only [hbind] at h
    obtain ⟨st₁, hst₁, h⟩ := Option.bind_eq_some_iff.mp h
    obtain ⟨⟨missing, out⟩, hout, h⟩ := Option.bind_eq_some_iff.mp h
    have hfix := fixupExternalLibs_fixesUp hst₁
    cases out with
    | none =>
      obtain rfl := Option.some.inj h
      refine ⟨hfix.bound, ?_, ?_, fun _ => ⟨hfix.codes, hfix.lib⟩⟩
      · exact hfix.codes ▸ WordsKept.refl _ st₁.codes
      · exact hfix.lib ▸ fun _ _ _ => Iff.rfl
    | some out =>
      obtain ⟨lib, gained⟩ := out
      simp only at h
      obtain ⟨⟨codes, missing', ok⟩, hcodes, h⟩ := Option.bind_eq_some_iff.mp h
      obtain ⟨last, hlast⟩ := executeReExportCmdsOn_updates hout
      have hst : r.st = { st₁ with lib, codes } := by
        split at h
        · obtain rfl := Option.some.inj h
          cases hr
        · obtain rfl := Option.some.inj h
          rfl
      rw [hst]
      refine ⟨hfix.bound, ?_, ?_, ?_⟩
      · exact hfix.codes ▸ (applyRelocationsOn_wordsKept hcodes).places hfix.places
      · obtain rfl : lib = (st₁.lib.updateReExports last).1 := congrArg Prod.fst hlast
        exact hfix.lib ▸ updateReExports_ownedKept st₁.lib last
      · rintro ⟨st₂, missing₂, hst₂, hfail⟩
        obtain rfl := Option.some.inj (hst₁.symm.trans hst₂)
        cases hout.symm.trans hfail

/-- A library with one export. -/
def oneExportLib : BoundLib := ⟨⟨InsertionMap.empty.set symEquiv [97] ⟨0, false⟩, []⟩, [some [97]]⟩

/-- A file that imports two symbols of a library and exports it again. -/
def twoImports : Fixup where
  pendings := [⟨[108], [108], 1, false⟩]
  protoLibs := [[.placeholder 0]]
  cmds := [.importPlaceholder 0 .common]
  relocations := [⟨.placeholder 0, [97], 0, 0, true⟩, ⟨.placeholder 0, [98], 0, 1, true⟩]
  codes := [[(makeInsI .importOp).setUC 1, (makeInsI .importOp).setUC 2]]
  lib := ⟨.empty, []⟩
  names := []

/-- The second symbol is gone; the first one's instruction is patched by then, the placeholder is
replaced and the export is there. -/
theorem fklPreCompileFixupOn_half_done :
    ∃ r, fklPreCompileFixupOn (fun _ => oneExportLib) (fun _ => some 0) true twoImports = some r ∧
      r.ok = false ∧ r.st.codes ≠ twoImports.codes ∧
      r.st.lib.exports ≠ twoImports.lib.exports ∧ r.st.protoLibs ≠ twoImports.protoLibs := by
  refine ⟨_, rfl, rfl, by decide, ?_, by decide⟩
  intro h
  cases congrArg InsertionMap.entries h

theorem fklPreCompileFixupOn_failed_twoImports :
    ∃ r, fklPreCompileFixupOn (fun _ => oneExportLib) (fun _ => some 0) true twoImports = some r ∧
      FailureKeeps (fun _ => oneExportLib) (fun _ => some 0) true twoImports r.st :=
  ⟨_, rfl, fklPreCompileFixupOn_failed rfl rfl⟩

end FakeLisp.PreCompile
