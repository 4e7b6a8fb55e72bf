import FakeLisp.CgImport

/-! What is visible under a name after an import: what was visible there, with the entities that
the import brings under this name put in one after the other. -/

namespace FakeLisp.CgImport

variable {B R M L P : Type}

/-- An entity of a library. A variable has the name under which the library exports it. -/
inductive CgEntity (B R M L : Type) where
  | macros (list : List (FklVMvalueCgMacro B))
  | replacement (rpl : R)
  | readerMacro (rm : M)
  | symbol (old : CgSym) (item : FklCgExportIdx L)

namespace FklVMvalueCgLib

variable (lib : FklVMvalueCgLib B R M L P)

/-- Everything that the library has, with its names. -/
def entities : List (CgSym × CgEntity B R M L) :=
  lib.macros.entries.map (fun e => (e.1, .macros e.2)) ++
    lib.replacements.entries.map (fun e => (e.1, .replacement e.2)) ++
    lib.rmacros.entries.map (fun e => (e.1, .readerMacro e.2)) ++
    lib.exports.entries.map fun e => (e.1, .symbol e.1 e.2)

def entitiesOf (n : CgSym) : List (CgEntity B R M L) :=
  ((lib.macros.get n).map .macros).toList ++ ((lib.replacements.get n).map .replacement).toList ++
    ((lib.rmacros.get n).map .readerMacro).toList ++ ((lib.exports.get n).map (.symbol n)).toList

end FklVMvalueCgLib

/-- What the targets show under a name. A variable shows as the object that it is bound to: the
library and the place there, or the name by which the library is asked for it. The place that it
gets among the exports of the target itself depends on the order of the imports. -/
structure Visible (B R M L : Type) where
  macros : List (Option (List (FklVMvalueCgMacro B)))
  replacements : List (Option (Option R))
  rmacros : List (Option (Option M))
  rmacroVec : Option (List M)
  exported : Option (Option (Bool × Option L × Nat))
  defined : Option Bool
  imported : Option (List CgSym)

def shownExport (exports : SymTable (FklCgExportIdx L)) (n : CgSym) :
    Option (Bool × Option L × Nat) :=
  (exports.get n).map fun i => (i.notOwned, i.fromLib, i.fromIdx)

def visible (args : FklCgImportArgs P) (dst : CgTargets B R M L) (n : CgSym) :
    Visible B R M L where
  macros := dst.macros.map (Option.map fun macros => (macros.get n).getD [])
  replacements := dst.replacements.map (Option.map fun rpls => rpls.get n)
  rmacros := dst.rmacros.map fun t => t.1.map fun rmacros => rmacros.get n
  rmacroVec := dst.rmacroVec.map fun vec => (vec.filter (·.1 = n)).map (·.2)
  exported := dst.exports.map (shownExport · n)
  defined := dst.env.map fun env => (fklGetCgDefByIdInScope n args.scope env).isSome
  imported := dst.importCache.map fun cache => (cache.filter (·.1 = n)).map (·.2)

variable (lib : FklVMvalueCgLib B R M L P) (args : FklCgImportArgs P) {dst : CgTargets B R M L}
  {n k : CgSym}

/-- What a variable shows as, where something is exported under the name already or not. -/
def putExport (item : FklCgExportIdx L) (old : Option (Bool × Option L × Nat)) :
    Bool × Option L × Nat :=
  let notOwned := item.notOwned || (args.isInternalModule.map fun f => !f lib.rp).getD false
  ((old.elim notOwned (·.1)) && notOwned,
    if args.isFromExternalLib then (lib.lib, item.idx) else (item.fromLib, item.fromIdx))

/-- One more entity under a name. -/
def Visible.put (v : Visible B R M L) : CgEntity B R M L → Visible B R M L
  | .macros list =>
    { v with macros := v.macros.map (Option.map (FakeLisp.importMacroList args.noReplace · list)) }
  | .replacement rpl =>
    { v with replacements := v.replacements.map (Option.map fun old =>
        if args.noReplace && old.isSome then old else some rpl) }
  | .readerMacro rm =>
    { v with
      rmacros := v.rmacros.map (Option.map fun old =>
        if args.noReplace && old.isSome then old else some rm)
      rmacroVec := if args.noReplace then v.rmacroVec else v.rmacroVec.map (· ++ [rm]) }
  | .symbol old item =>
    { v with
      exported := v.exported.map fun i => some (putExport lib args item i)
      defined := v.defined.map fun _ => true
      imported := v.imported.map (· ++ [old]) }

/-- The code for one entity. -/
def importEntity (dst : CgTargets B R M L) (newHead : CgSym) :
    CgEntity B R M L → Option (CgTargets B R M L)
  | .macros list => some (importMacroList args dst newHead list)
  | .replacement rpl => some (importReplacement args dst newHead rpl)
  | .readerMacro rm => some (importReaderMacro args dst newHead rm)
  | .symbol old item => importSymbol lib args dst newHead old item

/-! One entity. -/

section

variable {V : Type} {t : SymTable V}

theorem get_set_table (v : V) :
    (t.set keyEquiv_eq k v).get n = if n = k then some v else t.get n := by
  rw [InsertionMap.get_set]
  simp

theorem get_erase_table : InsertionMap.get (t.erase k) n = if n = k then none else t.get n := by
  rw [InsertionMap.get_erase keyEquiv_eq]
  simp

end

theorem visible_addCompilerMacro (m : FklVMvalueCgMacro B) :
    visible args { dst with macros := dst.macros.map (Option.map fun macros =>
        addCompilerMacro args.noReplace macros k m) } n =
      if n = k then (visible args dst n).put lib args (.macros [m]) else visible args dst n := by
  by_cases hn : n = k
  · simp [visible, Visible.put, addCompilerMacro, get_set_table, hn, FakeLisp.importMacroList,
      Function.comp_def]
  · simp [visible, addCompilerMacro, get_set_table, hn, Function.comp_def]

theorem Visible.put_macros_nil (v : Visible B R M L) : v.put lib args (.macros []) = v := by
  have hid : (fun x : Option (List (FklVMvalueCgMacro B)) => x.map (fun l => l)) = id := by
    funext x
    simp
  simp [Visible.put, FakeLisp.importMacroList, hid]

theorem Visible.put_macros_cons (v : Visible B R M L) (m : FklVMvalueCgMacro B)
    (list : List (FklVMvalueCgMacro B)) : v.put lib args (.macros (m :: list)) =
      (v.put lib args (.macros [m])).put lib args (.macros list) := by
  simp [Visible.put, FakeLisp.importMacroList, Function.comp_def]

theorem visible_importMacroList (list : List (FklVMvalueCgMacro B)) :
    visible args (importMacroList args dst k list) n =
      if n = k then (visible args dst n).put lib args (.macros list) else visible args dst n := by
  induction list generalizing dst with
  | nil => simp [importMacroList, Visible.put_macros_nil]
  | cons m list ih =>
    rw [importMacroList, List.foldl_cons, ← importMacroList, ih, visible_addCompilerMacro lib]
    split
    · rw [Visible.put_macros_cons lib args _ m list]
    · rfl

theorem visible_importReplacement (rpl : R) :
    visible args (importReplacement args dst k rpl) n =
      if n = k then (visible args dst n).put lib args (.replacement rpl)
      else visible args dst n := by
  by_cases hn : n = k
  · subst hn
    simp only [visible, importReplacement, Visible.put, if_true, List.map_map, Visible.mk.injEq,
      and_self, and_true, true_and]
    apply List.map_congr_left
    rintro (_ | rpls) _
    · rfl
    · simp only [Function.comp_apply, Option.map_some, Option.some.injEq]
      split <;> simp [get_set_table]
  · simp only [visible, importReplacement, hn, if_false, List.map_map, Visible.mk.injEq,
      and_self, and_true, true_and]
    apply List.map_congr_left
    rintro (_ | rpls) _
    · rfl
    · simp only [Function.comp_apply, Option.map_some, Option.some.injEq]
      split <;> simp [get_set_table, hn]

theorem get_doAddRmacro (noReplace : Bool) (map : SymTable M) (rm : M) :
    ( doAddRmacro noReplace map k rm).1.get n =
      if n = k then (if noReplace && (map.get n).isSome then map.get n else some rm)
      else map.get n := by
  unfold doAddRmacro
  by_cases hn : n = k
  · subst hn
    simp only [if_true]
    split <;> simp [get_set_table]
  · simp only [hn, if_false]
    split <;> simp [get_set_table, get_erase_table, hn]

theorem visible_rmacros (rm : M) (tables : List (Option (SymTable M) × Bool)) :
    ((tables.map (addRmacroTo args.noReplace k rm)).map fun t => t.1.map fun r => r.get n) =
      tables.map fun t => t.1.map fun r =>
        if n = k then (if args.noReplace && (r.get n).isSome then r.get n else some rm)
        else r.get n := by
  rw [List.map_map]
  apply List.map_congr_left
  rintro ⟨_ | rmacros, need⟩ _
  · rfl
  · simp [addRmacroTo, get_doAddRmacro]

theorem visible_importReaderMacro (rm : M) :
    visible args (importReaderMacro args dst k rm) n =
      if n = k then (visible args dst n).put lib args (.readerMacro rm)
      else visible args dst n := by
  have htables := visible_rmacros args rm dst.rmacros (n := n) (k := k)
  cases hr : args.noReplace <;> rw [hr] at htables
  · by_cases hn : n = k
    · simp only [hn, if_true] at htables
      simp [visible, importReaderMacro, Visible.put, hr, hn, htables, Function.comp_def]
    · simp only [hn, if_false] at htables
      simp [visible, importReaderMacro, hr, hn, htables, Function.comp_def, Ne.symm hn]
  · by_cases hn : n = k
    · simp only [hn, if_true] at htables
      simp [visible, importReaderMacro, Visible.put, hr, hn, htables, Function.comp_def]
    · simp only [hn, if_false] at htables
      simp [visible, importReaderMacro, hr, hn, htables]

/-! Variables. -/

theorem getDef_fklAddCgDefBySid (scope : Nat) (env : FklCgEnv CgSym) :
    (fklGetCgDefByIdInScope n scope (fklAddCgDefBySid k scope env).2).isSome =
      (decide (n = k) || (fklGetCgDefByIdInScope n scope env).isSome) := by
  unfold fklAddCgDefBySid fklGetCgDefByIdInScope fklHashMapAt
  dsimp only
  split
  · next el hel =>
    by_cases hn : n = k
    · simp [hn, hel]
    · simp [hn]
  · dsimp only
    rw [Function.update_self, List.find?_append, Option.isSome_or]
    by_cases hn : n = k
    · simp [hn]
    · simp [hn, Ne.symm hn]

/-- `from->lib` is there where it is asked for. -/
def LibKnown : Prop := args.isFromExternalLib = true → lib.lib ≠ none

theorem importExport_eq (hlib : LibKnown lib args) (item : FklCgExportIdx L)
    (exports : SymTable (FklCgExportIdx L)) : ∃ exports',
      importExport lib args k item exports = some exports' ∧ ∀ n, shownExport exports' n =
        if n = k then some (putExport lib args item (shownExport exports n))
        else shownExport exports n := by
  unfold importExport shownExport putExport
  cases hext : args.isFromExternalLib with
  | true =>
    obtain ⟨l, hl⟩ := Option.ne_none_iff_exists'.mp (hlib hext)
    refine ⟨_, by simp [hl]; rfl, fun n => ?_⟩
    by_cases hn : n = k
    · subst hn
      cases hget : exports.get n <;> simp [get_set_table, fklCgExportAdd, hget, hl]
    · simp [get_set_table, hn]
  | false =>
    refine ⟨_, by simp; rfl, fun n => ?_⟩
    by_cases hn : n = k
    · subst hn
      cases hget : exports.get n <;> simp [get_set_table, fklCgExportAdd, hget]
    · simp [get_set_table, hn]

theorem importSymbol_visible (hlib : LibKnown lib args) (old : CgSym) (item : FklCgExportIdx L) :
    ∃ dst', importSymbol lib args dst k old item = some dst' ∧ ∀ n, visible args dst' n =
      if n = k then (visible args dst n).put lib args (.symbol old item)
      else visible args dst n := by
  cases hexports : dst.exports with
  | none =>
    refine ⟨_, by simp [importSymbol, hexports]; rfl, fun n => ?_⟩
    by_cases hn : n = k
    · simp [visible, Visible.put, hexports, hn, Function.comp_def, getDef_fklAddCgDefBySid]
    · simp [visible, hexports, hn, Ne.symm hn, Function.comp_def, getDef_fklAddCgDefBySid]
  | some exports =>
    obtain ⟨exports', hadd, hget⟩ := importExport_eq (k := k) lib args hlib item exports
    refine ⟨_, by simp [importSymbol, hexports, hadd]; rfl, fun n => ?_⟩
    by_cases hn : n = k
    · simp [visible, Visible.put, hexports, hn, Function.comp_def, getDef_fklAddCgDefBySid, hget]
    · simp [visible, hexports, hn, Ne.symm hn, Function.comp_def, getDef_fklAddCgDefBySid, hget]

theorem importEntity_visible (hlib : LibKnown lib args)
    (dst : CgTargets B R M L) (e : CgEntity B R M L) :
    ∃ dst', importEntity lib args dst k e = some dst' ∧ ∀ n, visible args dst' n =
      if n = k then (visible args dst n).put lib args e else visible args dst n := by
  cases e with
  | macros list => exact ⟨_, rfl, fun n => visible_importMacroList lib args list⟩
  | replacement rpl => exact ⟨_, rfl, fun n => visible_importReplacement lib args rpl⟩
  | readerMacro rm => exact ⟨_, rfl, fun n => visible_importReaderMacro lib args rm⟩
  | symbol old item => exact importSymbol_visible lib args hlib old item

/-! Several entities. -/

/-- The entities one after the other, each under its new name. -/
def importEntities (dst : CgTargets B R M L) (l : List (CgSym × CgEntity B R M L)) :
    Option (CgTargets B R M L) :=
  l.foldlM (fun dst e => importEntity lib args dst e.1 e.2) dst

/-- Only the entities that come under a name change what is visible there. -/
theorem importEntities_visible (hlib : LibKnown lib args)
    (dst : CgTargets B R M L) (l : List (CgSym × CgEntity B R M L)) :
    ∃ dst', importEntities lib args dst l = some dst' ∧ ∀ n, visible args dst' n =
      ((l.filter (·.1 = n)).map (·.2)).foldl (Visible.put lib args) (visible args dst n) := by
  induction l generalizing dst with
  | nil => exact ⟨dst, rfl, fun n => rfl⟩
  | cons e l ih =>
    obtain ⟨dst₁, hrun₁, hvisible₁⟩ := importEntity_visible (k := e.1) lib args hlib dst e.2
    obtain ⟨dst₂, hrun₂, hvisible₂⟩ := ih dst₁
    refine ⟨dst₂, ?_, fun n => ?_⟩
    · rw [importEntities, List.foldlM_cons, hrun₁]
      exact hrun₂
    · rw [hvisible₂, hvisible₁]
      by_cases hn : e.1 = n
      · simp [hn]
      · simp [hn, Ne.symm hn]

/-! The loops. -/

theorem importEntities_append (l l' : List (CgSym × CgEntity B R M L)) :
    importEntities lib args dst (l ++ l') =
      (importEntities lib args dst l).bind fun dst => importEntities lib args dst l' :=
  List.foldlM_append

/-- The entities that are not skipped, under their new names. -/
def renamed (skip : CgSym → Bool) (newHead : CgSym → CgSym)
    (l : List (CgSym × CgEntity B R M L)) : List (CgSym × CgEntity B R M L) :=
  (l.filter fun e => !skip e.1).map fun e => (newHead e.1, e.2)

theorem importEntities_table {V : Type} {skip : CgSym → Bool} {newHead : CgSym → CgSym}
    {entity : CgSym × V → CgEntity B R M L}
    {run : CgTargets B R M L → CgSym × V → Option (CgTargets B R M L)}
    (h : ∀ dst e, importEntity lib args dst (newHead e.1) (entity e) = run dst e)
    (entries : List (CgSym × V)) :
    importEntities lib args dst
        (renamed skip newHead (entries.map fun e => (e.1, entity e))) =
      entries.foldlM (fun dst cur => if skip cur.1 then some dst else run dst cur) dst := by
  induction entries generalizing dst with
  | nil => rfl
  | cons e entries ih =>
    rw [List.foldlM_cons]
    cases hskip : skip e.1 with
    | true => simpa [renamed, hskip] using ih
    | false =>
      rw [List.map_cons, renamed, List.filter_cons]
      simp only [hskip, Bool.not_false, if_true, List.map_cons, importEntities, List.foldlM_cons,
        h, Bool.false_eq_true, if_false]
      exact bind_congr fun dst' => ih

theorem importEntities_total {V : Type} {skip : CgSym → Bool} {newHead : CgSym → CgSym}
    {entity : CgSym × V → CgEntity B R M L}
    {f : CgTargets B R M L → CgSym × V → CgTargets B R M L}
    (h : ∀ dst e, importEntity lib args dst (newHead e.1) (entity e) = some (f dst e))
    (entries : List (CgSym × V)) :
    importEntities lib args dst
        (renamed skip newHead (entries.map fun e => (e.1, entity e))) =
      some (entries.foldl (fun dst cur => if skip cur.1 then dst else f dst cur) dst) := by
  rw [importEntities_table lib args h]
  induction entries generalizing dst with
  | nil => rfl
  | cons e entries ih =>
    rw [List.foldlM_cons, List.foldl_cons]
    split <;> exact ih

theorem importTables_eq (skip : CgSym → Bool) (newHead : CgSym → CgSym) :
    importTables lib args dst skip newHead =
      importEntities lib args dst (renamed skip newHead lib.entities) := by
  have hsplit : renamed skip newHead lib.entities =
      renamed skip newHead (lib.macros.entries.map fun e => (e.1, .macros e.2)) ++
        renamed skip newHead (lib.replacements.entries.map fun e => (e.1, .replacement e.2)) ++
        renamed skip newHead (lib.rmacros.entries.map fun e => (e.1, .readerMacro e.2)) ++
        renamed skip newHead (lib.exports.entries.map fun e => (e.1, .symbol e.1 e.2)) := by
    simp [renamed, FklVMvalueCgLib.entities]
  rw [hsplit, importEntities_append, importEntities_append, importEntities_append]
  rw [importEntities_total lib args fun _ _ => rfl, Option.bind_some,
    importEntities_total lib args fun _ _ => rfl, Option.bind_some,
    importEntities_total lib args fun _ _ => rfl, Option.bind_some,
    importEntities_table lib args fun _ _ => rfl]
  rfl

theorem importNamed_eq (sym newHead : CgSym) : importNamed lib args dst sym newHead =
    (importEntities lib args dst ((lib.entitiesOf sym).map fun e => (newHead, e))).map
      (noteMissing sym !(lib.entitiesOf sym).isEmpty) := by
  unfold importNamed FklVMvalueCgLib.entitiesOf
  cases lib.macros.get sym <;> cases lib.replacements.get sym <;>
    cases lib.rmacros.get sym <;> cases lib.exports.get sym <;>
      simp [importEntities, importEntity, Option.map_eq_bind]

theorem noteMissing_visible (sym : CgSym) (hasEntity : Bool) :
    visible args (noteMissing sym hasEntity dst).2 n = visible args dst n := by
  unfold noteMissing
  split
  · split <;> rfl
  · rfl

theorem noteMissing_found (sym : CgSym) : (noteMissing sym true dst).1 = false := by
  unfold noteMissing
  split <;> rfl

theorem importNamed_visible (hlib : LibKnown lib args)
    (dst : CgTargets B R M L) (sym newHead : CgSym) :
    ∃ missing dst', importNamed lib args dst sym newHead = some (missing, dst') ∧
      (lib.entitiesOf sym ≠ [] → missing = false) ∧ ∀ n, visible args dst' n =
        if newHead = n then (lib.entitiesOf sym).foldl (Visible.put lib args) (visible args dst n)
        else visible args dst n := by
  obtain ⟨dst', hrun, hvisible⟩ := importEntities_visible lib args hlib dst
    ((lib.entitiesOf sym).map fun e => (newHead, e))
  let noted := noteMissing sym (!(lib.entitiesOf sym).isEmpty) dst'
  have hnamed : importNamed lib args dst sym newHead = some noted := by
    rw [importNamed_eq, hrun]
    rfl
  refine ⟨noted.1, noted.2, hnamed, fun hne => ?_, fun n => ?_⟩
  · have hsome : (!(lib.entitiesOf sym).isEmpty) = true := by simpa using hne
    simp only [noted, hsome, noteMissing_found]
  · simp only [noted, noteMissing_visible, hvisible, List.filter_map]
    by_cases hn : newHead = n <;> simp [hn, Function.comp_def]

/-- A list of symbols and new names. -/
theorem importList_visible (hlib : LibKnown lib args)
    (dst : CgTargets B R M L) (syms : List (CgSym × CgSym)) :
    ∃ r dst', importList lib args dst syms = some (r, dst') ∧
      ((∀ p ∈ syms, lib.entitiesOf p.1 ≠ []) → r = 0) ∧ ∀ n, visible args dst' n =
        ((syms.filter (·.2 = n)).flatMap fun p => lib.entitiesOf p.1).foldl
          (Visible.put lib args) (visible args dst n) := by
  have hloop : ∀ (start : Bool) (dst : CgTargets B R M L), ∃ missing dst',
      syms.foldlM (fun (s : Bool × CgTargets B R M L) p =>
        (importNamed lib args s.2 p.1 p.2).bind fun q => some (s.1 || q.1, q.2)) (start, dst) =
          some (missing, dst') ∧
      ((∀ p ∈ syms, lib.entitiesOf p.1 ≠ []) → missing = start) ∧ ∀ n, visible args dst' n =
        ((syms.filter (·.2 = n)).flatMap fun p => lib.entitiesOf p.1).foldl
          (Visible.put lib args) (visible args dst n) := by
    induction syms with
    | nil => exact fun start dst => ⟨start, dst, rfl, fun _ => rfl, fun n => rfl⟩
    | cons p syms ih =>
      intro start dst
      obtain ⟨missing₁, dst₁, hrun₁, hfound₁, hvisible₁⟩ :=
        importNamed_visible lib args hlib dst p.1 p.2
      obtain ⟨missing₂, dst₂, hrun₂, hfound₂, hvisible₂⟩ := ih (start || missing₁) dst₁
      refine ⟨missing₂, dst₂, ?_, fun hall => ?_, fun n => ?_⟩
      · rw [List.foldlM_cons]
        simpa [hrun₁] using hrun₂
      · rw [hfound₂ fun q hq => hall q (List.mem_cons_of_mem p hq),
          hfound₁ (hall p List.mem_cons_self), Bool.or_false]
      · rw [hvisible₂, hvisible₁]
        by_cases hn : p.2 = n <;> simp [hn]
  obtain ⟨missing, dst', hrun, hfound, hvisible⟩ := hloop false dst
  refine ⟨if missing then -1 else 0, dst', ?_, fun hall => by simp [hfound hall], hvisible⟩
  have hlist : importList lib args dst syms =
      (syms.foldlM (fun (s : Bool × CgTargets B R M L) p =>
        (importNamed lib args s.2 p.1 p.2).bind fun q => some (s.1 || q.1, q.2)) (false, dst)).bind
          fun q => some (if q.1 then -1 else 0, q.2) := rfl
  rw [hlist, hrun]
  rfl

/-! What a table has under one name. -/

theorem filter_entries {V : Type} (t : SymTable V) :
    t.entries.filter (·.1 = n) = ((t.get n).map fun v => (n, v)).toList := by
  obtain ⟨entries, hunequal⟩ := t
  simp only [InsertionMap.get, InsertionMap.elm]
  induction entries with
  | nil => rfl
  | cons e entries ih =>
    obtain ⟨hne, hunequal⟩ := List.pairwise_cons.mp hunequal
    rw [List.filter_cons, List.find?_cons]
    by_cases hn : e.1 = n
    · have hrest : entries.filter (fun e' => decide (e'.1 = n)) = [] := by
        rw [List.filter_eq_nil_iff]
        intro e' he'
        have hkeys : e.1 ≠ e'.1 := of_decide_eq_false (hne e' he')
        rw [hn] at hkeys
        simpa using Ne.symm hkeys
      subst hn
      simp [hrest]
    · have hkeys : decide (n = e.1) = false := decide_eq_false (Ne.symm hn)
      simp only [decide_eq_true_eq, hn, if_false, hkeys]
      exact ih hunequal

theorem filter_renamed {V : Type} (t : SymTable V) (entity : CgSym × V → CgEntity B R M L) :
    ((t.entries.map fun e => (e.1, entity e)).filter (·.1 = n)).map (·.2) =
      ((t.get n).map fun v => entity (n, v)).toList := by
  rw [List.filter_map, List.map_map]
  have hfilter := filter_entries t (n := n)
  simp only [Function.comp_def] at hfilter ⊢
  rw [hfilter]
  cases t.get n <;> rfl

theorem entities_filter :
    (lib.entities.filter (·.1 = n)).map (·.2) = lib.entitiesOf n := by
  simp only [FklVMvalueCgLib.entities, FklVMvalueCgLib.entitiesOf, List.filter_append,
    List.map_append, filter_renamed]

theorem importTables_visible (hlib : LibKnown lib args)
    (dst : CgTargets B R M L) (skip : CgSym → Bool)
    (newHead : CgSym → CgSym) : ∃ dst', importTables lib args dst skip newHead = some dst' ∧
      ∀ n, visible args dst' n =
        ((lib.entities.filter fun e => !skip e.1 && newHead e.1 = n).map (·.2)).foldl
          (Visible.put lib args) (visible args dst n) := by
  obtain ⟨dst', hrun, hvisible⟩ := importEntities_visible lib args hlib dst
    (renamed skip newHead lib.entities)
  refine ⟨dst', (importTables_eq lib args skip newHead).trans hrun, fun n => ?_⟩
  rw [hvisible, renamed, List.filter_map, List.filter_filter, List.map_map]
  simp only [Function.comp_def, Bool.and_comm]

/-- Where nothing is renamed. -/
theorem importTables_visible_id (hlib : LibKnown lib args)
    (dst : CgTargets B R M L) (skip : CgSym → Bool) :
    ∃ dst', importTables lib args dst skip id = some dst' ∧ ∀ n, visible args dst' n =
      if skip n then visible args dst n
      else (lib.entitiesOf n).foldl (Visible.put lib args) (visible args dst n) := by
  obtain ⟨dst', hrun, hvisible⟩ := importTables_visible lib args hlib dst skip id
  refine ⟨dst', hrun, fun n => ?_⟩
  have hfilter : (lib.entities.filter fun e => !skip e.1 && decide (id e.1 = n)) =
      (lib.entities.filter (·.1 = n)).filter fun _ => !skip n := by
    rw [List.filter_filter]
    apply List.filter_congr
    intro e _
    by_cases hn : e.1 = n <;> simp [hn]
  rw [hvisible, hfilter]
  cases skip n with
  | true => simp
  | false => simp [entities_filter]

/-! The set of an `except`. -/

theorem exceptSet_nodup (syms : List CgSym) : (exceptSet syms).Nodup :=
  nodup_foldl_hashSetPut id syms List.nodup_nil

theorem mem_exceptSet (syms : List CgSym) : n ∈ exceptSet syms ↔ n ∈ syms := by
  simpa [exceptSet] using mem_foldl_hashSetPut (fun s : CgSym => s) syms (l := []) (y := n)

theorem exceptCacheVerify_eq {excepts except : List CgSym} :
    exceptCacheVerify excepts except = true ↔ excepts = except := by
  simp only [exceptCacheVerify, Bool.and_eq_true, decide_eq_true_eq, List.all_eq_true]
  constructor
  · rintro ⟨hlen, hall⟩
    apply List.ext_getElem hlen
    intro i hi hi'
    have hmem : (except[i], excepts[i]) ∈ except.zip excepts :=
      List.mem_iff_getElem.mpr ⟨i, by simp [hlen, hi'], by simp⟩
    exact (hall _ hmem).symm
  · rintro rfl
    refine ⟨rfl, fun p hp => ?_⟩
    obtain ⟨i, hi, rfl⟩ := List.getElem_of_mem hp
    simp

/-- The set is the list again exactly where no symbol is repeated. -/
theorem exceptCacheVerify_iff (syms : List CgSym) :
    exceptCacheVerify (exceptSet syms) syms = true ↔ syms.Nodup := by
  rw [exceptCacheVerify_eq]
  constructor
  · intro heq
    exact heq ▸ exceptSet_nodup syms
  · intro hnodup
    simpa [exceptSet] using foldl_hashSetPut_eq (fun s : CgSym => s) syms (l := [])
      (by simpa using hnodup)

/-! An `only` and an `except` of the same symbols. -/

/-- The arguments of the second import. -/
def exceptArgs (syms : List CgSym) (cached : Bool) :
    FklCgImportArgs P :=
  { args with
    type := .except syms
    excepts := if cached then some (exceptSet syms) else none }

/-- Both imports come back without a missing symbol. -/
def onlyThenExcept (dst : CgTargets B R M L) (syms : List CgSym) (cached : Bool) :
    Option (CgTargets B R M L) := do
  let (r, dst) ← fklCgImport lib { args with type := .only syms } dst
  if r ≠ 0 then none
  else
    let (r, dst) ← fklCgImport lib (exceptArgs args syms cached) dst
    if r ≠ 0 then none else return dst

/-- Then every name shows what it shows after a plain import. -/
def ImportsAgree (dst : CgTargets B R M L) (syms : List CgSym) (cached : Bool) : Prop :=
  ∃ dst₁ dst₂, fklCgImport lib { args with type := .common } dst = some (0, dst₁) ∧
    onlyThenExcept lib args dst syms cached = some dst₂ ∧
    ∀ n, visible args dst₂ n = visible args dst₁ n

/-- The caller of an import that replaces nothing has no use for the new reader macros. -/
def CallOk (dst : CgTargets B R M L) : Prop := args.noReplace = true → dst.rmacroVec = none

variable {lib args}

theorem CallOk.not_stop (h : CallOk args dst) :
    (args.noReplace && dst.rmacroVec.isSome) = false := by
  cases hr : args.noReplace with
  | false => rfl
  | true => simp [h hr]

theorem put_rmacroVec {v : Visible B R M L} (h : v.rmacroVec = none) (e : CgEntity B R M L) :
    (v.put lib args e).rmacroVec = none := by
  cases e <;> simp [Visible.put, h]

theorem foldl_put_rmacroVec {v : Visible B R M L} (h : v.rmacroVec = none)
    (l : List (CgEntity B R M L)) : (l.foldl (Visible.put lib args) v).rmacroVec = none := by
  induction l generalizing v with
  | nil => exact h
  | cons e l ih => exact ih (put_rmacroVec h e)

theorem fklCgImport_eq (hcall : CallOk args dst) : fklCgImport lib args dst =
    match args.type with
    | .common => (doImportMacrosCommon lib args dst).map fun dst => (0, dst)
    | .withPrefix pre => (doImportMacrosPrefix lib args dst pre).map fun dst => (0, dst)
    | .only syms => doImportMacrosOnly lib args dst syms
    | .aliases syms => doImportMacrosAlias lib args dst syms
    | .except syms => (doImportMacrosExcept lib args dst syms).map fun dst => (0, dst) := by
  rw [fklCgImport, hcall.not_stop]
  rfl

theorem common_visible (hlib : LibKnown lib args) (hcall : CallOk args dst) :
    ∃ dst', fklCgImport lib { args with type := .common } dst = some (0, dst') ∧
      ∀ n, visible args dst' n =
        (lib.entitiesOf n).foldl (Visible.put lib args) (visible args dst n) := by
  obtain ⟨dst', hrun, hvisible⟩ := importTables_visible_id lib { args with type := .common } hlib
    dst fun _ => false
  have hcall' : CallOk { args with type := .common } dst := hcall
  refine ⟨dst', ?_, fun n => hvisible n⟩
  rw [fklCgImport_eq hcall']
  simp only [doImportMacrosCommon, hrun, Option.map_some]

theorem only_visible (hlib : LibKnown lib args) (hcall : CallOk args dst) {syms : List CgSym}
    (hsyms : ∀ s ∈ syms, lib.entitiesOf s ≠ []) :
    ∃ dst', fklCgImport lib { args with type := .only syms } dst = some (0, dst') ∧
      CallOk args dst' ∧ ∀ n, visible args dst' n =
        ((syms.filter (· = n)).flatMap lib.entitiesOf).foldl (Visible.put lib args)
          (visible args dst n) := by
  obtain ⟨r, dst', hrun, hfound, hvisible⟩ := importList_visible lib
    { args with type := .only syms } hlib dst (syms.map fun s => (s, s))
  obtain rfl : r = 0 := hfound (by simpa using hsyms)
  have hshown : ∀ n, visible args dst' n =
      ((syms.filter (· = n)).flatMap lib.entitiesOf).foldl (Visible.put lib args)
        (visible args dst n) := by
    intro n
    have hn := hvisible n
    rw [List.filter_map, List.flatMap_map] at hn
    exact hn
  have hcall' : CallOk { args with type := .only syms } dst := hcall
  refine ⟨dst', ?_, fun hr => ?_, hshown⟩
  · rw [fklCgImport_eq hcall']
    exact hrun
  · have hnone : (visible args dst' (.interned [])).rmacroVec = none := by
      rw [hshown]
      exact foldl_put_rmacroVec (by simp [visible, hcall hr]) _
    simpa [visible] using hnone

theorem except_eq (hcall : CallOk args dst) (syms : List CgSym) (cached : Bool) :
    fklCgImport lib (exceptArgs args syms cached) dst =
      if cached = true ∧ ¬syms.Nodup then none
      else (importTables lib args dst (· ∈ exceptSet syms) id).map fun dst => (0, dst) := by
  have hcall' : CallOk (exceptArgs args syms cached) dst := hcall
  rw [fklCgImport_eq hcall']
  cases cached with
  | false => rfl
  | true =>
    have hverify := exceptCacheVerify_iff syms
    simp only [exceptArgs, doImportMacrosExcept, if_true, true_and]
    by_cases hnodup : syms.Nodup
    · rw [if_pos (hverify.mpr hnodup), if_neg (not_not.mpr hnodup)]
      rfl
    · rw [if_neg fun h => hnodup (hverify.mp h), if_pos hnodup]
      rfl

theorem filter_eq_of_nodup {syms : List CgSym} (h : syms.Nodup) (n : CgSym) :
    syms.filter (· = n) = if n ∈ syms then [n] else [] := by
  rw [List.filter_eq]
  split
  · next hn => rw [List.count_eq_one_of_mem h hn, List.replicate_one]
  · next hn => rw [List.count_eq_zero_of_not_mem hn, List.replicate_zero]

theorem importsAgree_iff (hlib : LibKnown lib args) (hcall : CallOk args dst)
    {syms : List CgSym} (hsyms : ∀ s ∈ syms, lib.entitiesOf s ≠ []) :
    (ImportsAgree lib args dst syms true ↔ syms.Nodup) ∧
      (syms.Nodup → ImportsAgree lib args dst syms false) := by
  obtain ⟨dst₁, hcommon, hshown₁⟩ := common_visible hlib hcall
  obtain ⟨dst₂, honly, hcall₂, hshown₂⟩ := only_visible hlib hcall hsyms
  have hagree : syms.Nodup → ∀ cached, ImportsAgree lib args dst syms cached := by
    intro hnodup cached
    obtain ⟨dst₃, hexcept, hshown₃⟩ := importTables_visible_id lib args hlib dst₂
      (· ∈ exceptSet syms)
    refine ⟨dst₁, dst₃, hcommon, ?_, fun n => ?_⟩
    · have hrun : fklCgImport lib (exceptArgs args syms cached) dst₂ = some (0, dst₃) := by
        rw [except_eq hcall₂, if_neg fun h => h.2 hnodup, hexcept]
        rfl
      simp [onlyThenExcept, honly, hrun]
    · rw [hshown₃, hshown₁, hshown₂, filter_eq_of_nodup hnodup]
      by_cases hn : n ∈ syms <;> simp [mem_exceptSet, hn]
  refine ⟨⟨?_, fun hnodup => hagree hnodup true⟩, fun hnodup => hagree hnodup false⟩
  rintro ⟨-, dst₃, -, hrun, -⟩
  by_contra hnodup
  simp [onlyThenExcept, honly, except_eq hcall₂, hnodup] at hrun

theorem prefix_visible (hlib : LibKnown lib args) (hcall : CallOk args dst) (pre : CgSym) :
    ∃ dst', fklCgImport lib { args with type := .withPrefix pre } dst = some (0, dst') ∧
      ∀ n, visible args dst' n =
        ((lib.entities.filter fun e => appendSymbolPrefix pre e.1 = n).map (·.2)).foldl
          (Visible.put lib args) (visible args dst n) := by
  have hcall' : CallOk { args with type := .withPrefix pre } dst := hcall
  obtain ⟨dst', hrun, hvisible⟩ := importTables_visible lib { args with type := .withPrefix pre }
    hlib dst (fun _ => false) (appendSymbolPrefix pre)
  refine ⟨dst', ?_, fun n => ?_⟩
  · rw [fklCgImport_eq hcall']
    simp only [doImportMacrosPrefix, hrun, Option.map_some]
  · have hn := hvisible n
    simp only [Bool.not_false, Bool.true_and] at hn
    exact hn

theorem alias_visible (hlib : LibKnown lib args) (hcall : CallOk args dst)
    (syms : List (CgSym × CgSym)) :
    ∃ r dst', fklCgImport lib { args with type := .aliases syms } dst = some (r, dst') ∧
      ((∀ p ∈ syms, lib.entitiesOf p.1 ≠ []) → r = 0) ∧ ∀ n, visible args dst' n =
        ((syms.filter (·.2 = n)).flatMap fun p => lib.entitiesOf p.1).foldl
          (Visible.put lib args) (visible args dst n) := by
  have hcall' : CallOk { args with type := .aliases syms } dst := hcall
  obtain ⟨r, dst', hrun, hfound, hvisible⟩ := importList_visible lib
    { args with type := .aliases syms } hlib dst syms
  refine ⟨r, dst', ?_, hfound, hvisible⟩
  rw [fklCgImport_eq hcall']
  exact hrun

/-- An `only` and an `except` of symbols that the library has make visible what a plain import
does, exactly where no symbol is repeated, when the caller has the set of the symbols. A prefix
and an alias make the same entities visible under the new names and nothing else. -/
theorem fklCgImport_right_iff (hlib : LibKnown lib args) (hcall : CallOk args dst)
    {syms : List CgSym} (hsyms : ∀ s ∈ syms, lib.entitiesOf s ≠ []) :
    ((ImportsAgree lib args dst syms true ↔ syms.Nodup) ∧
      (syms.Nodup → ImportsAgree lib args dst syms false)) ∧
    (∀ pre, ∃ dst', fklCgImport lib { args with type := .withPrefix pre } dst = some (0, dst') ∧
      ∀ n, visible args dst' n =
        ((lib.entities.filter fun e => appendSymbolPrefix pre e.1 = n).map (·.2)).foldl
          (Visible.put lib args) (visible args dst n)) ∧
    ∀ pairs, ∃ r dst',
      fklCgImport lib { args with type := .aliases pairs } dst = some (r, dst') ∧
      ((∀ p ∈ pairs, lib.entitiesOf p.1 ≠ []) → r = 0) ∧ ∀ n, visible args dst' n =
        ((pairs.filter (·.2 = n)).flatMap fun p => lib.entitiesOf p.1).foldl
          (Visible.put lib args) (visible args dst n) :=
  ⟨importsAgree_iff hlib hcall hsyms, prefix_visible hlib hcall, alias_visible hlib hcall⟩

/-! A library of a variable `a`, a macro `a` and a replacement `b`. -/

def symA : CgSym := .interned [97]

def symB : CgSym := .interned [98]

def smallLib : FklVMvalueCgLib Unit Nat Nat Unit Unit where
  exports := InsertionMap.empty.set keyEquiv_eq symA ⟨0, false, none, 0⟩
  macros := InsertionMap.empty.set keyEquiv_eq symA [⟨.atom .nil, ()⟩]
  replacements := InsertionMap.empty.set keyEquiv_eq symB 7
  rmacros := .empty
  rp := ()
  lib := none

def smallArgs : FklCgImportArgs Unit where
  type := .common
  noReplace := false
  isFromExternalLib := false
  scope := 1
  excepts := none
  isInternalModule := none

/-- Empty tables, and no environment. -/
def smallTargets : CgTargets Unit Nat Nat Unit where
  macros := [some .empty, none]
  replacements := [some .empty, none]
  rmacros := [(some .empty, false), (none, false)]
  rmacroVec := some []
  missingSyms := none
  env := none
  exports := some .empty
  importCache := some []

theorem symA_exported : smallLib.entitiesOf symA ≠ [] := List.cons_ne_nil _ _

theorem onlyA_agrees : ImportsAgree smallLib smallArgs smallTargets [symA] true :=
  ((fklCgImport_right_iff (fun h => by cases h) (fun h => by cases h) fun s hs => by
    rw [List.mem_singleton.mp hs]
    exact symA_exported).1.1).mpr (List.nodup_singleton symA)

/-- The symbol is named twice, and the assertion about the set fails. -/
theorem twiceA_not_agrees : smallLib.entitiesOf symA ≠ [] ∧
    ¬ImportsAgree smallLib smallArgs smallTargets [symA, symA] true := by
  refine ⟨symA_exported, ?_⟩
  rintro ⟨-, dst, -, hrun, -⟩
  have hstop : onlyThenExcept smallLib smallArgs smallTargets [symA, symA] true = none := rfl
  rw [hstop] at hrun
  cases hrun

end FakeLisp.CgImport
