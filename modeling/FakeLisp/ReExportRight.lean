import FakeLisp.ReExportRun

/-! The command stream is right exactly where no chain names a library twice that it has met
first. -/

namespace FakeLisp.PreCompile.CgLibs

variable {g : CgLibs} {meaningless : List LibId} {t : FklLibTable}
  {visited visited' : List LibId} {res before : List FklVMvalueCgReExport} {out : List ChainValue}
  {outs : List (List ChainValue × List LibId)} {libs : LibId → Option CgLib}
  {st : ReExportState} {lib : CgLib}

/-! Chains one after the other. -/

theorem Chains.run (hclosed : g.MeaninglessClosed meaningless) (h : g.Chains visited res outs)
    (hv : g.VisitedOf before visited) (hnamed : g.NamedOnceBehind meaningless before res)
    (ht : TableIn t visited)
    (hagrees : g.Agrees libs meaningless t (fun l => l ∈ visited ∧ l ∉ meaningless) st)
    (hlib : st.objs[st.cur]? = some lib) :
    g.Runs libs meaningless st (stream meaningless t (allValues outs))
      (tableAfter meaningless t (allValues outs)) (fun _ => False)
      (res.foldlM (g.reExportTo libs meaningless) lib) := by
  induction h generalizing before t st lib with
  | nil visited =>
    exact ⟨st, rfl, { hagrees with holds := fun _ h => h.elim }, Frame.refl st, hlib⟩
  | @cons visited visited' re rest out outs h hrest ih =>
    have hnew : ∀ l ∈ vmLibs out, t.ht.get l = none := fun l hl => by
      rw [Option.eq_none_iff_forall_ne_some]
      exact fun id hid => h.nodup.2 l hl (ht l id hid)
    have hrun := (hnamed.tidy hv h).run hclosed hagrees (fun l hl hm => ⟨hl, hm⟩) h.nodup.1 hnew
      hlib
    rw [allValues_cons, stream_append, tableAfter_append]
    have hone : [re].reverse.foldlM (g.reExportTo libs meaningless) lib =
        g.reExportTo libs meaningless lib re := by simp
    rw [hone] at hrun
    refine hrun.append fun st' lib' hagrees' _ hlib' => ?_
    refine ih (hv.chain h) hnamed.tail (ht.after h) ?_ hlib'
    refine { hagrees' with holds := fun l hl => hagrees'.holds l ?_ }
    rcases (h.mem_visited l).mp hl.1 with hmem | hmem
    · exact Or.inl ⟨hmem, hl.2⟩
    · exact Or.inr ⟨hmem, hl.2⟩

/-! Only libraries outside are imported as such. -/

theorem get_addedLib_self {l : LibId} (hm : l ∉ meaningless) :
    ∃ id, (addedLib meaningless t (.vmLib l)).ht.get l = some id := by
  rw [addedLib, if_neg hm, FklValueTable.get_add, if_pos rfl]
  cases t.ht.get l with
  | none => exact ⟨_, rfl⟩
  | some id => exact ⟨id, rfl⟩

theorem get_tableAfter_of_mem {l : LibId} (hm : l ∉ meaningless) (hl : l ∈ vmLibs out) :
    ∃ id, (tableAfter meaningless t out).ht.get l = some id := by
  induction out generalizing t with
  | nil => cases hl
  | cons v out ih =>
    cases v with
    | vmLib l' =>
      rcases List.mem_cons.mp hl with rfl | hl
      · obtain ⟨id, hid⟩ := @get_addedLib_self _ t _ hm
        exact ⟨id, get_tableAfter_of_some hid out⟩
      · exact ih hl
    | _ => exact ih hl

/-- The table has the old libraries that matter. -/
def TableHas (meaningless : List LibId) (t : FklLibTable) (old : LibId → Prop) : Prop :=
  ∀ l, old l → l ∉ meaningless → ∃ id, t.ht.get l = some id

theorem TableHas.after {old : LibId → Prop} (h : TableHas meaningless t old)
    (out : List ChainValue) : TableHas meaningless (tableAfter meaningless t out) old := by
  intro l hl hm
  obtain ⟨id, hid⟩ := h l hl hm
  exact ⟨id, get_tableAfter_of_some hid out⟩

theorem TableOk.import_outside (htable : g.TableOk t) {re : FklVMvalueCgReExport}
    (h : re.lib ∈ g.internal → re.lib ∉ meaningless → ∃ id, t.ht.get re.lib = some id)
    {l : LibId} {type : FklCgImportType}
    (hl : .importLib l type ∈ emitted meaningless t (.cgReExport re)) : l ∉ g.internal := by
  by_cases hm : re.lib ∈ meaningless
  · rw [emitted, if_pos hm] at hl
    cases hl
  · by_cases hint : re.lib ∈ g.internal
    · obtain ⟨id, hid⟩ := h hint hm
      rw [htable.emitted_of_some hm hid] at hl
      simp at hl
    · rw [htable.emitted_of_not_mem hm hint, List.mem_singleton] at hl
      cases hl
      exact hint

theorem Tidy.import_outside {old : LibId → Prop} (h : g.Tidy meaningless old res out)
    (htable : g.TableOk t) (hold : TableHas meaningless t old) {l : LibId}
    {type : FklCgImportType} (hl : .importLib l type ∈ stream meaningless t out) :
    l ∉ g.internal := by
  induction h generalizing t with
  | nil => cases hl
  | @skip re rest out hskip hrest ih =>
    rw [stream_append, stream_cons, stream_nil, List.append_nil] at hl
    rcases List.mem_append.mp hl with hl | hl
    · exact ih htable hold hl
    · refine (htable.after hrest.inFile).import_outside (fun hint hm => ?_) hl
      exact hold.after out _ (hskip hint hm) hm
  | @node re rest out out' hint hlib hrest ih ih' =>
    rw [stream_append, stream_cons, stream_append, stream_cons, stream_cons, stream_nil,
      List.append_nil] at hl
    simp only [List.mem_append] at hl
    have htable' : g.TableOk (tableAfter meaningless t out') := htable.after hrest.inFile
    have hre : g.InFile (.vmLib re.lib) := hint
    have hnode : g.TableOk (addedLib meaningless (tableAfter meaningless t out')
        (.vmLib re.lib)) := htable'.added hre
    rcases hl with hl | hl | hl | hl | hl
    · exact ih' htable hold hl
    · simp only [emitted] at hl
      split_ifs at hl <;> simp at hl
    · exact ih hnode ((hold.after out').after [.vmLib re.lib]) hl
    · simp only [emitted] at hl
      split_ifs at hl <;> simp at hl
    · refine (hnode.after hlib.inFile).import_outside (fun _ hm => ?_) hl
      obtain ⟨id, hid⟩ := @get_addedLib_self _ (tableAfter meaningless t out') _ hm
      exact ⟨id, get_tableAfter_of_some hid out⟩

theorem Chains.import_outside (h : g.Chains visited res outs) (hv : g.VisitedOf before visited)
    (hnamed : g.NamedOnceBehind meaningless before res) (htable : g.TableOk t)
    (hold : TableHas meaningless t (· ∈ visited)) {l : LibId} {type : FklCgImportType}
    (hl : .importLib l type ∈ stream meaningless t (allValues outs)) : l ∉ g.internal := by
  induction h generalizing before t with
  | nil visited => cases hl
  | @cons visited visited' re rest out outs h hrest ih =>
    rw [allValues_cons, stream_append] at hl
    rcases List.mem_append.mp hl with hl | hl
    · exact (hnamed.tidy hv h).import_outside htable hold hl
    · refine ih (hv.chain h) hnamed.tail (htable.after h.inFile) (fun l' hl' hm => ?_) hl
      rcases (h.mem_visited l').mp hl' with hmem | hmem
      · exact hold.after out l' hmem hm
      · exact get_tableAfter_of_mem hm hmem

/-! The table of meaningless libraries. -/

theorem Reaches.mem_internal {re : FklVMvalueCgReExport} {l : LibId} (h : g.Reaches re l) :
    l ∈ g.internal := by
  cases h with
  | here h => exact h
  | step _ _ h => exact h

theorem MeaninglessClosed.values (hm : g.MeaninglessClosed meaningless)
    (hvisited : visited ⊆ g.internal) (out : List ChainValue) :
    ∃ m, out.foldlM (g.collectMeaninglessLibsCb visited) meaningless = some m ∧
      g.MeaninglessClosed m := by
  induction out generalizing meaningless with
  | nil => exact ⟨meaningless, rfl, hm⟩
  | cons v out ih =>
    have hstep : ∃ m, g.collectMeaninglessLibsCb visited meaningless v = some m ∧
        g.MeaninglessClosed m := by
      cases v with
      | cgLib l =>
        simp only [collectMeaninglessLibsCb]
        split_ifs with hl hall
        · refine ⟨l :: meaningless, rfl, fun l' hl' => ?_⟩
          rcases List.mem_cons.mp hl' with rfl | hl'
          · refine ⟨hvisited hl, fun re hre => List.mem_cons_of_mem _ ?_⟩
            simpa using List.all_eq_true.mp hall re hre
          · exact ⟨(hm l' hl').1, fun re hre => List.mem_cons_of_mem _ ((hm l' hl').2 re hre)⟩
        · exact ⟨meaningless, rfl, hm⟩
        · exact ⟨meaningless, rfl, hm⟩
      | _ => exact ⟨meaningless, rfl, hm⟩
    obtain ⟨m, hm', hclosed⟩ := hstep
    obtain ⟨m', hrest, hclosed'⟩ := ih hclosed
    exact ⟨m', by rw [List.foldlM_cons, hm']; exact hrest, hclosed'⟩

theorem Chains.collectMeaningless (h : g.Chains visited res outs) (hv : g.VisitedOf before visited)
    {m : List LibId} (hm : g.MeaninglessClosed m) :
    ∃ m', outs.foldlM (fun a o => o.1.foldlM (g.collectMeaninglessLibsCb o.2) a) m = some m' ∧
      g.MeaninglessClosed m' := by
  induction h generalizing before m with
  | nil visited => exact ⟨m, rfl, hm⟩
  | @cons visited visited' re rest out outs h _ ih =>
    have hfile : visited' ⊆ g.internal := fun l hl => by
      obtain ⟨_, _, hreach⟩ := (hv.chain h l).mp hl
      exact hreach.mem_internal
    obtain ⟨m', hout, hclosed⟩ := hm.values hfile out
    obtain ⟨m'', hrest, hclosed'⟩ := ih (hv.chain h) hclosed
    exact ⟨m'', by rw [List.foldlM_cons, hout]; exact hrest, hclosed'⟩

/-! The theorem. -/

theorem namedOnceBehind_nil :
    g.NamedOnceBehind meaningless [] res ↔ g.NamedOnce meaningless res := by
  simp only [NamedOnceBehind, NamedOnce, List.nil_append]

theorem Agrees.init : g.Agrees libs meaningless fklInitValueTable
    (fun l => l ∈ ([] : List LibId) ∧ l ∉ meaningless) .init where
  table := TableOk.init
  start := rfl
  length := rfl
  bounded o ho := by
    obtain rfl := List.mem_singleton.mp ho
    exact Nat.one_pos
  holds _ h := absurd h.1 List.not_mem_nil

theorem Runs.execute {cmds : List FklReExportCmd} {done : LibId → Prop} {r : Option CgLib}
    (h : g.Runs libs meaningless .init cmds t done r) : executeReExportCmds libs cmds = r := by
  cases r with
  | none =>
    have hnone : cmds.foldlM (ReExportState.exec libs) .init = none := h
    rw [executeReExportCmds, hnone]
    rfl
  | some lib =>
    obtain ⟨st', hexec, -, hframe, hlib⟩ := h
    have hcur : st'.cur = 0 := hframe.cur_eq
    rw [hcur] at hlib
    rw [executeReExportCmds, hexec]
    simp [hcur, hlib]

theorem Chains.streamRight_iff (hclosed : g.MeaninglessClosed meaningless)
    (h : g.Chains [] res outs) :
    g.StreamRight meaningless res (stream meaningless fklInitValueTable (allValues outs)) ↔
      g.NamedOnce meaningless res := by
  have hempty : ∀ l id, fklInitValueTable.ht.get (l : LibId) ≠ some id := fun _ _ h => by cases h
  rw [← namedOnceBehind_nil]
  constructor
  · intro hright
    exact h.namedOnce VisitedOf.nil (fun l id hid => absurd hid (hempty l id)) hright.in_file
  · intro hnamed
    refine ⟨h.stackDepth 0, (pushIds_stream h.nodup.1 fun _ _ => rfl).1, ?_, ?_, fun libs => ?_⟩
    · intro pre id type post heq
      have := @pushed_before_stream _ _ _ [] _ _ _ _ (fun l id hid => absurd hid (hempty l id)) heq
      simpa using this
    · intro l type hl
      exact h.import_outside VisitedOf.nil hnamed TableOk.init
        (fun l hl => absurd hl List.not_mem_nil) hl
    · exact (h.run hclosed VisitedOf.nil hnamed (fun l id hid => absurd hid (hempty l id))
        Agrees.init rfl).execute

/-- The meaningless libraries are collected; then the stream is right if and only if no chain
comes twice to a library that matters and that it has met first. -/
theorem collectReExportChainCmds_right_iff (g : CgLibs) (res : List FklVMvalueCgReExport) :
    ∃ n m, (∀ fuel, n < fuel → g.collectMeaninglessLibs fuel res = some m) ∧
      g.MeaninglessClosed m ∧
      ((∃ cmds, (∀ fuel, n < fuel → g.collectReExportChainCmds fuel m res = some cmds) ∧
        g.StreamRight m res cmds) ↔ g.NamedOnce m res) := by
  obtain ⟨outs, h⟩ := @exists_chains g [] res
  obtain ⟨n, hmeaningless⟩ := h.traverse
  obtain ⟨n', hcmds⟩ := h.collect
  have hnone : g.MeaninglessClosed [] := fun l hl => by cases hl
  obtain ⟨m, hm, hclosed⟩ := h.collectMeaningless VisitedOf.nil hnone
  refine ⟨max n n', m, fun fuel hfuel => ?_, hclosed, ?_⟩
  · rw [collectMeaninglessLibs, hmeaningless fuel (by omega), hm]
  · rw [← h.streamRight_iff hclosed]
    constructor
    · rintro ⟨cmds, hrun, hright⟩
      have hsame := (hrun (max n n' + 1) (by omega)).symm.trans (hcmds _ (by omega) m)
      exact Option.some.inj hsame ▸ hright
    · exact fun hright => ⟨_, fun fuel hfuel => hcmds fuel (by omega) m, hright⟩

/-- Library 1 re-exports 2 and 3, these re-export 4, and that a library of another file. -/
def diamondReExports : LibId → List FklVMvalueCgReExport
  | 1 => [⟨2, .common⟩, ⟨3, .common⟩]
  | 2 => [⟨4, .common⟩]
  | 3 => [⟨4, .common⟩]
  | 4 => [⟨5, .common⟩]
  | _ => []

def diamond : CgLibs where
  reExports := diamondReExports
  internal := [1, 2, 3, 4]
  acyclic := by
    have hlt : ∀ l' ∈ [1, 2, 3, 4], ∀ re ∈ diamondReExports l', 5 - re.lib < 5 - l' := by decide
    refine Subrelation.wf (fun {l l'} h => ?_) (measure fun l : LibId => 5 - l).wf
    obtain ⟨-, hl', hmem⟩ := h
    obtain ⟨re, hre, rfl⟩ := List.mem_map.mp hmem
    exact hlt l' hl' re hre

/-- Library 4 is imported into 2 before it is pushed. -/
theorem diamond_not_right : diamond.collectMeaninglessLibs 20 [⟨1, .common⟩] = some [] ∧
    ∃ cmds, diamond.collectReExportChainCmds 20 [] [⟨1, .common⟩] = some cmds ∧
      ¬diamond.StreamRight [] [⟨1, .common⟩] cmds := by
  refine ⟨by decide, [.pushLib 1, .pushLib 2, .importLib 4 .common, .pop, .importPushed 2 .common,
    .pushLib 3, .pushLib 4, .importLib 5 .common, .pop, .importPushed 4 .common, .pop,
    .importPushed 3 .common, .pop, .importPushed 1 .common], rfl, fun h => ?_⟩
  exact h.in_file 4 .common (by simp) (by decide)

end FakeLisp.PreCompile.CgLibs
