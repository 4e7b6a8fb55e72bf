import FakeLisp.ReExportChain

/-! The command stream of the re-exports is balanced, pushes a library once, and imports of the
file what was pushed before wherever no chain comes twice to a library that matters. -/

namespace FakeLisp.PreCompile

/-! What the stream is for. -/

/-- How many libraries stand on the stack behind the commands. -/
def stackDepth : Nat → List FklReExportCmd → Option Nat
  | d, [] => some d
  | d, .pushLib _ :: cmds => stackDepth (d + 1) cmds
  | 0, .pop :: _ => none
  | d + 1, .pop :: cmds => stackDepth d cmds
  | d, _ :: cmds => stackDepth d cmds

def pushIds (cmds : List FklReExportCmd) : List Nat :=
  cmds.filterMap fun cmd => match cmd with
    | .pushLib id => some id
    | _ => none

namespace CgLibs

variable (g : CgLibs)

instance : DecidableRel g.Edge := fun _ _ => inferInstanceAs (Decidable (_ ∧ _ ∧ _))

theorem edge_wellFounded : WellFounded g.Edge := g.acyclic

/-- What a library of the file re-exports, with the libraries outside as they are now. -/
noncomputable def stub (libs : LibId → Option CgLib) (meaningless : List LibId) :
    LibId → Option CgLib :=
  g.edge_wellFounded.fix fun l stub =>
    (g.reExports l).foldlM (fun lib re =>
      if re.lib ∈ meaningless then some lib
      else do
        let src ← if h : g.Edge re.lib l then stub re.lib h else libs re.lib
        src.fklCgImport lib re.type) ⟨.empty, []⟩

noncomputable def reExportTo (libs : LibId → Option CgLib) (meaningless : List LibId)
    (lib : CgLib) (re : FklVMvalueCgReExport) : Option CgLib :=
  if re.lib ∈ meaningless then some lib
  else do
    let src ← if re.lib ∈ g.internal then g.stub libs meaningless re.lib else libs re.lib
    src.fklCgImport lib re.type

noncomputable def reExported (libs : LibId → Option CgLib) (meaningless : List LibId)
    (reExports : List FklVMvalueCgReExport) : Option CgLib :=
  reExports.foldlM (g.reExportTo libs meaningless) ⟨.empty, []⟩

/-- The stream is balanced, no library is pushed twice, what is imported of the file was pushed
before, and the commands do what was declared of libraries that are not meaningless. The reading of
what was declared starts an internal library empty, as `create_new_cg_lib1` makes the library that
is pushed: what it hands on is only what it re-exports. -/
structure StreamRight (meaningless : List LibId) (reExports : List FklVMvalueCgReExport)
    (cmds : List FklReExportCmd) : Prop where
  balanced : stackDepth 0 cmds = some 0
  pushed_once : (pushIds cmds).Nodup
  pushed_before : ∀ pre id type post, cmds = pre ++ .importPushed id type :: post →
    id ∈ pushIds pre
  in_file : ∀ l type, .importLib l type ∈ cmds → l ∉ g.internal
  executes : ∀ libs, executeReExportCmds libs cmds = g.reExported libs meaningless reExports

/-- A library that is not meaningless and is met on a chain for the first time is named there
only once, by the re-export that the chain begins with or by those of libraries met on it. -/
def NamedOnce (meaningless : List LibId) (reExports : List FklVMvalueCgReExport) : Prop :=
  ∀ before re after, reExports = before ++ re :: after →
    ∀ l, g.FirstMet before re l → l ∉ meaningless →
      ∀ ds : List LibId, ds.Nodup → (∀ d ∈ ds, g.FirstMet before re d) →
        named l (re :: ds.flatMap g.reExports) ≤ 1

/-- A meaningless library is of the file and re-exports meaningless ones. -/
def MeaninglessClosed (meaningless : List LibId) : Prop :=
  ∀ l ∈ meaningless, l ∈ g.internal ∧ ∀ re ∈ g.reExports l, re.lib ∈ meaningless

/-! The stream as a function of the values visited. -/

def addedLib (meaningless : List LibId) (t : FklLibTable) : ChainValue → FklLibTable
  | .vmLib l => if l ∈ meaningless then t else (fklValueTableAdd t l).2
  | _ => t

def emitted (meaningless : List LibId) (t : FklLibTable) : ChainValue → List FklReExportCmd
  | .vmLib l => if l ∈ meaningless then [] else [.pushLib (fklValueTableAdd t l).1]
  | .cgReExport re =>
    if re.lib ∈ meaningless then []
    else if fklValueTableGet t re.lib = 0 then [.importLib re.lib re.type]
    else [.importPushed (fklValueTableGet t re.lib) re.type]
  | .cgLib l => if l ∈ meaningless then [] else [.pop]

def tableAfter (meaningless : List LibId) (t : FklLibTable) (out : List ChainValue) :
    FklLibTable := out.foldl (addedLib meaningless) t

def stream (meaningless : List LibId) : FklLibTable → List ChainValue → List FklReExportCmd
  | _, [] => []
  | t, v :: out => emitted meaningless t v ++ stream meaningless (addedLib meaningless t v) out

variable {g} {meaningless : List LibId} {t : FklLibTable}

@[simp] theorem stream_nil : stream meaningless t [] = [] := rfl

@[simp] theorem tableAfter_nil : tableAfter meaningless t [] = t := rfl

@[simp] theorem tableAfter_cons (v : ChainValue) (out : List ChainValue) :
    tableAfter meaningless t (v :: out) =
      tableAfter meaningless (addedLib meaningless t v) out := rfl

theorem stream_cons (v : ChainValue) (out : List ChainValue) :
    stream meaningless t (v :: out) =
      emitted meaningless t v ++ stream meaningless (addedLib meaningless t v) out := rfl

theorem tableAfter_append (out out' : List ChainValue) :
    tableAfter meaningless t (out ++ out') =
      tableAfter meaningless (tableAfter meaningless t out) out' := List.foldl_append

theorem stream_append (out out' : List ChainValue) :
    stream meaningless t (out ++ out') =
      stream meaningless t out ++ stream meaningless (tableAfter meaningless t out) out' := by
  induction out generalizing t with
  | nil => rfl
  | cons v out ih => simp [stream_cons, ih]

theorem collectReExportChainCmdsCb_eq {v : ChainValue} (hv : g.InFile v)
    (cmds : List FklReExportCmd) :
    g.collectReExportChainCmdsCb meaningless ⟨t, cmds⟩ v =
      some ⟨addedLib meaningless t v, cmds ++ emitted meaningless t v⟩ := by
  cases v with
  | vmLib l =>
    have hl : l ∈ g.internal := hv
    by_cases hm : l ∈ meaningless <;>
      simp [collectReExportChainCmdsCb, addedLib, emitted, hl, hm]
  | cgReExport re =>
    by_cases hm : re.lib ∈ meaningless
    · simp [collectReExportChainCmdsCb, addedLib, emitted, hm]
    · by_cases hid : fklValueTableGet t re.lib = 0 <;>
        simp [collectReExportChainCmdsCb, addedLib, emitted, hm, hid]
  | cgLib l =>
    have hl : l ∈ g.internal := hv
    by_cases hm : l ∈ meaningless <;>
      simp [collectReExportChainCmdsCb, addedLib, emitted, hl, hm]

theorem foldlM_cmdsCb {out : List ChainValue} (hout : ∀ v ∈ out, g.InFile v)
    (cmds : List FklReExportCmd) :
    out.foldlM (g.collectReExportChainCmdsCb meaningless) ⟨t, cmds⟩ =
      some ⟨tableAfter meaningless t out, cmds ++ stream meaningless t out⟩ := by
  induction out generalizing t cmds with
  | nil => simp
  | cons v out ih =>
    rw [List.foldlM_cons, collectReExportChainCmdsCb_eq (hout v List.mem_cons_self)]
    simp only [Option.bind_eq_bind, Option.bind_some]
    rw [ih fun w hw => hout w (List.mem_cons_of_mem _ hw), stream_cons, List.append_assoc]
    rfl

variable {visited visited' : List LibId} {res : List FklVMvalueCgReExport} {out : List ChainValue}
  {outs : List (List ChainValue × List LibId)}

/-- What the visitor is given, over all chains. -/
def allValues (outs : List (List ChainValue × List LibId)) : List ChainValue := outs.flatMap (·.1)

@[simp] theorem allValues_nil : allValues [] = [] := rfl

@[simp] theorem allValues_cons (o : List ChainValue × List LibId)
    (outs : List (List ChainValue × List LibId)) : allValues (o :: outs) = o.1 ++ allValues outs :=
  List.flatMap_cons

theorem Chains.foldlM_cmdsCb (h : g.Chains visited res outs) (cmds : List FklReExportCmd) :
    outs.foldlM (fun st o => o.1.foldlM (g.collectReExportChainCmdsCb meaningless) st) ⟨t, cmds⟩ =
      some ⟨tableAfter meaningless t (allValues outs),
        cmds ++ stream meaningless t (allValues outs)⟩ := by
  induction h generalizing t cmds with
  | nil visited => simp
  | cons h _ ih =>
    rw [List.foldlM_cons, CgLibs.foldlM_cmdsCb h.inFile]
    simp only [Option.bind_eq_bind, Option.bind_some]
    rw [ih, allValues_cons, tableAfter_append, stream_append, List.append_assoc]

theorem Chains.collect (h : g.Chains [] res outs) :
    ∃ n, ∀ fuel, n < fuel → ∀ meaningless, g.collectReExportChainCmds fuel meaningless res =
      some (stream meaningless fklInitValueTable (allValues outs)) := by
  obtain ⟨n, hrun⟩ := h.traverse
  refine ⟨n, fun fuel hfuel meaningless => ?_⟩
  rw [collectReExportChainCmds, hrun fuel hfuel, h.foldlM_cmdsCb]
  rfl

/-! The stream is balanced. -/

theorem stackDepth_append (d : Nat) (cmds cmds' : List FklReExportCmd) :
    stackDepth d (cmds ++ cmds') = (stackDepth d cmds).bind fun d => stackDepth d cmds' := by
  induction cmds generalizing d with
  | nil => rfl
  | cons cmd cmds ih =>
    cases cmd with
    | pop =>
      cases d with
      | zero => rfl
      | succ d => exact ih d
    | _ => exact ih _

theorem stackDepth_emitted_cgReExport (d : Nat) (re : FklVMvalueCgReExport) :
    stackDepth d (emitted meaningless t (.cgReExport re)) = some d := by
  simp only [emitted]
  split_ifs <;> rfl

theorem Visits.stackDepth (h : g.Visits visited res out visited') (d : Nat) :
    stackDepth d (stream meaningless t out) = some d := by
  induction h generalizing t d with
  | nil visited => rfl
  | skip _ _ ih =>
    rw [stream_append, stackDepth_append, ih, Option.bind_some, stream_cons, stream_nil,
      List.append_nil, stackDepth_emitted_cgReExport]
  | @node _ _ _ re _ _ _ _ _ _ _ ih ih' =>
    simp only [stream_append, stream_cons, stream_nil, List.append_nil, stackDepth_append, ih',
      Option.bind_some, stackDepth_emitted_cgReExport]
    by_cases hm : re.lib ∈ meaningless <;>
      simp [emitted, hm, PreCompile.stackDepth, ih]

theorem Chains.stackDepth (h : g.Chains visited res outs) (d : Nat) :
    stackDepth d (stream meaningless t (allValues outs)) = some d := by
  induction h generalizing t d with
  | nil visited => rfl
  | cons h _ ih =>
    rw [allValues_cons, stream_append, stackDepth_append, h.stackDepth, Option.bind_some, ih]

/-! No library is pushed twice. -/

theorem pushIds_append (cmds cmds' : List FklReExportCmd) :
    pushIds (cmds ++ cmds') = pushIds cmds ++ pushIds cmds' := List.filterMap_append

theorem add_of_none {l : LibId} (h : t.ht.get l = none) :
    fklValueTableAdd t l = (t.nextId, ⟨t.ht.add keyEquiv_eq l t.nextId, t.nextId + 1⟩) := by
  simp [fklValueTableAdd, h]

theorem get_addedLib_vmLib {l : LibId} (hl : l ∉ meaningless) (h : t.ht.get l = none)
    (l' : LibId) : (addedLib meaningless t (.vmLib l)).ht.get l' =
      if l' = l then some t.nextId else t.ht.get l' := by
  rw [addedLib, if_neg hl, FklValueTable.get_add, h, Option.none_or]

theorem pushIds_stream (hnodup : (vmLibs out).Nodup)
    (hfresh : ∀ l ∈ vmLibs out, t.ht.get l = none) :
    (pushIds (stream meaningless t out)).Nodup ∧
      ∀ id ∈ pushIds (stream meaningless t out), t.nextId ≤ id := by
  induction out generalizing t with
  | nil => simp [pushIds]
  | cons v out ih =>
    rw [stream_cons, pushIds_append]
    cases v with
    | vmLib l =>
      obtain ⟨hl, hnodup⟩ := List.nodup_cons.mp hnodup
      by_cases hm : l ∈ meaningless
      · simp only [emitted, addedLib, if_pos hm]
        exact ih hnodup fun l' hl' => hfresh l' (List.mem_cons_of_mem _ hl')
      · have hnone := hfresh l List.mem_cons_self
        obtain ⟨hrest, hle⟩ := @ih (addedLib meaningless t (.vmLib l)) hnodup fun l' hl' => by
          rw [get_addedLib_vmLib hm hnone, if_neg (by rintro rfl; exact hl hl')]
          exact hfresh l' (List.mem_cons_of_mem _ hl')
        have hnext : (addedLib meaningless t (.vmLib l)).nextId = t.nextId + 1 := by
          rw [addedLib, if_neg hm, add_of_none hnone]
        have hid : pushIds (emitted meaningless t (.vmLib l)) = [t.nextId] := by
          rw [emitted, if_neg hm, add_of_none hnone]
          rfl
        rw [hid, List.singleton_append]
        refine ⟨List.nodup_cons.mpr ⟨fun h => ?_, hrest⟩, fun id hmem => ?_⟩
        · have := hle _ h
          omega
        · rcases List.mem_cons.mp hmem with rfl | hmem
          · exact le_refl _
          · have := hle id hmem
            omega
    | cgReExport re =>
      have hid : pushIds (emitted meaningless t (.cgReExport re)) = [] := by
        simp only [emitted]
        split_ifs <;> rfl
      rw [hid]
      exact ih hnodup hfresh
    | cgLib l =>
      have hid : pushIds (emitted meaningless t (.cgLib l)) = [] := by
        simp only [emitted]
        split_ifs <;> rfl
      rw [hid]
      exact ih hnodup hfresh

theorem Chains.nodup (h : g.Chains visited res outs) :
    (vmLibs (allValues outs)).Nodup ∧ ∀ l ∈ vmLibs (allValues outs), l ∉ visited := by
  induction h with
  | nil visited => simp
  | @cons visited visited' _ _ out outs h _ ih =>
    obtain ⟨hnodup, hdisj⟩ := h.nodup
    obtain ⟨hnodup', hdisj'⟩ := ih
    rw [allValues_cons, vmLibs_append]
    refine ⟨List.nodup_append.mpr ⟨hnodup, hnodup', ?_⟩, fun l hl => ?_⟩
    · rintro l hl l' hl' rfl
      exact hdisj' l hl' ((h.mem_visited l).mpr (Or.inr hl))
    · rcases List.mem_append.mp hl with hl | hl
      · exact hdisj l hl
      · exact fun hold => hdisj' l hl (h.subset hold)

/-! What is imported by its id has been pushed. -/

theorem get_addedLib_of_some {l : LibId} {id : Nat} (h : t.ht.get l = some id) (v : ChainValue) :
    (addedLib meaningless t v).ht.get l = some id := by
  cases v with
  | vmLib l' =>
    simp only [addedLib]
    split_ifs
    · exact h
    · rw [FklValueTable.get_add]
      split_ifs with heq
      · rw [← heq, h, Option.some_or]
      · exact h
  | _ => exact h

theorem get_tableAfter_of_some {l : LibId} {id : Nat} (h : t.ht.get l = some id)
    (out : List ChainValue) : (tableAfter meaningless t out).ht.get l = some id := by
  induction out generalizing t with
  | nil => exact h
  | cons v out ih => exact ih (get_addedLib_of_some h v)

theorem get_of_fklValueTableGet_ne {l : LibId} (h : fklValueTableGet t l ≠ 0) :
    t.ht.get l = some (fklValueTableGet t l) := by
  unfold fklValueTableGet at h ⊢
  cases hget : t.ht.get l with
  | none => exact absurd (by rw [hget]; rfl) h
  | some id => rfl

/-- Every id of the table has been pushed. -/
def Pushed (t : FklLibTable) (cmds : List FklReExportCmd) : Prop :=
  ∀ l id, t.ht.get l = some id → id ∈ pushIds cmds

theorem Pushed.step {cmds : List FklReExportCmd} (h : Pushed t cmds) (v : ChainValue) :
    Pushed (addedLib meaningless t v) (cmds ++ emitted meaningless t v) := by
  intro l id hget
  rw [pushIds_append]
  cases v with
  | vmLib l' =>
    simp only [addedLib, emitted] at hget ⊢
    split_ifs at hget ⊢ with hm
    · exact List.mem_append_left _ (h l id hget)
    · rw [FklValueTable.get_add] at hget
      split_ifs at hget with heq
      · cases hold : t.ht.get l' with
        | some id' =>
          rw [hold, Option.some_or, Option.some.injEq] at hget
          exact List.mem_append_left _ (hget ▸ h l' id' hold)
        | none =>
          rw [hold, Option.none_or, Option.some.injEq] at hget
          rw [add_of_none hold, ← hget]
          exact List.mem_append_right _ List.mem_cons_self
      · exact List.mem_append_left _ (h l id hget)
  | _ => exact List.mem_append_left _ (h l id hget)

variable (meaningless) in
theorem emitted_cases (t : FklLibTable) (v : ChainValue) :
    emitted meaningless t v = [] ∨ ∃ cmd, emitted meaningless t v = [cmd] ∧
      ∀ id type, cmd = .importPushed id type → ∃ l, t.ht.get l = some id := by
  cases v with
  | vmLib l =>
    simp only [emitted]
    split_ifs
    · exact Or.inl rfl
    · exact Or.inr ⟨_, rfl, fun _ _ h => by cases h⟩
  | cgReExport re =>
    simp only [emitted]
    split_ifs with hm hid
    · exact Or.inl rfl
    · exact Or.inr ⟨_, rfl, fun _ _ h => by cases h⟩
    · refine Or.inr ⟨_, rfl, fun id type h => ?_⟩
      cases h
      exact ⟨re.lib, get_of_fklValueTableGet_ne hid⟩
  | cgLib l =>
    simp only [emitted]
    split_ifs
    · exact Or.inl rfl
    · exact Or.inr ⟨_, rfl, fun _ _ h => by cases h⟩

theorem pushed_before_stream {cmds pre post : List FklReExportCmd} {id : Nat}
    {type : FklCgImportType} (hpushed : Pushed t cmds)
    (h : stream meaningless t out = pre ++ .importPushed id type :: post) :
    id ∈ pushIds (cmds ++ pre) := by
  induction out generalizing t cmds pre with
  | nil => simp at h
  | cons v out ih =>
    have hstep : Pushed (addedLib meaningless t v) (cmds ++ emitted meaningless t v) :=
      hpushed.step v
    rw [stream_cons] at h
    rcases emitted_cases meaningless t v with hnone | ⟨cmd, hone, hcmd⟩
    · rw [hnone] at h hstep
      exact List.append_nil cmds ▸ ih hstep h
    · rw [hone] at h hstep
      cases pre with
      | nil =>
        obtain ⟨l, hget⟩ := hcmd id type (List.cons.inj h).1
        simpa using hpushed l id hget
      | cons cmd' pre =>
        obtain ⟨rfl, hrest⟩ := List.cons.inj h
        simpa using ih hstep hrest

end CgLibs

end FakeLisp.PreCompile
