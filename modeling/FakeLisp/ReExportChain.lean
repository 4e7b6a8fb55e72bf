import FakeLisp.ImportReloc
import FakeLisp.ValueTableIds

/-!
The commands that a pre-compiled file keeps of its re-exports: the libraries of the file are
walked depth first with two stacks, and each library that is met for the first time is pushed.
-/

namespace FakeLisp.PreCompile

structure FklVMvalueCgReExport where
  lib : LibId
  type : FklCgImportType

/-- The libraries of a compilation with what they re-export. Those that belong to the file,
`internal_lib_table`, do not re-export each other in a circle. -/
structure CgLibs where
  reExports : LibId → List FklVMvalueCgReExport
  internal : List LibId
  acyclic : WellFounded fun l l' =>
    l ∈ internal ∧ l' ∈ internal ∧ l ∈ (reExports l').map (·.lib)

/-- The values on the stacks. A library stands there as itself and as `FklVMvalueLib`. -/
inductive ChainValue where
  | cgReExport (re : FklVMvalueCgReExport)
  | vmLib (l : LibId)
  | cgLib (l : LibId)

structure ChainState where
  stack1 : List ChainValue
  stack2 : List ChainValue
  visited : List LibId

abbrev FklLibTable := FklValueTable LibId

structure CmdState where
  libs : FklLibTable
  cmds : List FklReExportCmd

namespace CgLibs

variable (g : CgLibs)

/-- The body of the first loop. -/
def chainStep (st : ChainState) : ChainState :=
  match st.stack1 with
  | [] => st
  | v :: stack1 =>
    let st := { st with stack1, stack2 := v :: st.stack2 }
    match v with
    | .cgReExport re =>
      if re.lib ∉ g.internal then st
      else if re.lib ∈ st.visited then st
      else
        { st with
          visited := re.lib :: st.visited
          stack1 := .cgLib re.lib ::
            ((g.reExports re.lib).reverse.map .cgReExport ++ .vmLib re.lib :: stack1) }
    | _ => st

/-- The second stack from its top, as the visitor gets it, and the libraries visited by then. -/
def traverseReExportChainImpl (fuel : Nat) (re : FklVMvalueCgReExport) (visited : List LibId) :
    Option (List ChainValue × List LibId) :=
  (whileLoop (fun st : ChainState => !st.stack1.isEmpty) (fun st => some (g.chainStep st)) fuel
    ⟨[.cgReExport re], [], visited⟩).map fun st => (st.stack2, st.visited)

/-- The second loop, which visits, and before it the first. -/
def visitChain {α : Type} (fuel : Nat) (visitor : List LibId → α → ChainValue → Option α)
    (s : α × List LibId) (re : FklVMvalueCgReExport) : Option (α × List LibId) := do
  let (values, visited) ← g.traverseReExportChainImpl fuel re s.2
  return (← values.foldlM (visitor visited) s.1, visited)

def traverseReExportChain {α : Type} (fuel : Nat)
    (visitor : List LibId → α → ChainValue → Option α) (reExports : List FklVMvalueCgReExport)
    (a : α) : Option α :=
  (reExports.foldlM (g.visitChain fuel visitor) (a, [])).map Prod.fst

/-- A library of the file is meaningless when it re-exports meaningless ones only. -/
def collectMeaninglessLibsCb (visited meaningless : List LibId) :
    ChainValue → Option (List LibId)
  | .cgLib l =>
    if l ∉ visited then some meaningless
    else if (g.reExports l).all (·.lib ∈ meaningless) then some (l :: meaningless)
    else some meaningless
  | _ => some meaningless

def collectMeaninglessLibs (fuel : Nat) (reExports : List FklVMvalueCgReExport) :
    Option (List LibId) :=
  g.traverseReExportChain fuel g.collectMeaninglessLibsCb reExports []

def collectReExportChainCmdsCb (meaningless : List LibId) (st : CmdState) :
    ChainValue → Option CmdState
  | .vmLib l =>
    if l ∉ g.internal then none
    else if l ∈ meaningless then some st
    else
      let (id, libs) := fklValueTableAdd st.libs l
      some ⟨libs, st.cmds ++ [.pushLib id]⟩
  | .cgReExport re =>
    if re.lib ∈ meaningless then some st
    else
      let id := fklValueTableGet st.libs re.lib
      let cmd := if id = 0 then .importLib re.lib re.type else .importPushed id re.type
      some { st with cmds := st.cmds ++ [cmd] }
  | .cgLib l =>
    if l ∉ g.internal then none
    else if l ∈ meaningless then some st
    else some { st with cmds := st.cmds ++ [.pop] }

def collectReExportChainCmds (fuel : Nat) (meaningless : List LibId)
    (reExports : List FklVMvalueCgReExport) : Option (List FklReExportCmd) :=
  (g.traverseReExportChain fuel (fun _ => g.collectReExportChainCmdsCb meaningless) reExports
    ⟨fklInitValueTable, []⟩).map fun st => st.cmds

/-! The walk as a recursion. -/

/-- What becomes of re-exports that stand on the first stack, the last one on top. -/
inductive Visits : List LibId → List FklVMvalueCgReExport → List ChainValue → List LibId → Prop
  | nil (visited : List LibId) : Visits visited [] [] visited
  | skip {visited visited' : List LibId} {re : FklVMvalueCgReExport}
    {rest : List FklVMvalueCgReExport} {out : List ChainValue}
    (h : re.lib ∈ g.internal → re.lib ∈ visited) (hrest : Visits visited rest out visited') :
    Visits visited (re :: rest) (out ++ [.cgReExport re]) visited'
  | node {visited visited₁ visited₂ : List LibId} {re : FklVMvalueCgReExport}
    {rest : List FklVMvalueCgReExport} {out out' : List ChainValue}
    (h : re.lib ∈ g.internal) (hnew : re.lib ∉ visited)
    (hlib : Visits (re.lib :: visited) (g.reExports re.lib).reverse out visited₁)
    (hrest : Visits visited₁ rest out' visited₂) :
    Visits visited (re :: rest)
      (out' ++ .vmLib re.lib :: (out ++ [.cgLib re.lib, .cgReExport re])) visited₂

variable {g}

theorem Visits.subset {visited visited' : List LibId} {res : List FklVMvalueCgReExport}
    {out : List ChainValue} (h : g.Visits visited res out visited') : visited ⊆ visited' := by
  induction h with
  | nil visited => exact fun _ h => h
  | skip _ _ ih => exact ih
  | node _ _ _ _ ih ih' => exact fun l hl => ih' (ih (List.mem_cons_of_mem _ hl))

/-- The libraries that are still to be visited become fewer. -/
theorem exists_visits (visited : List LibId) (res : List FklVMvalueCgReExport) :
    ∃ out visited', g.Visits visited res out visited' := by
  generalize hn : g.internal.countP (fun l => decide (l ∉ visited)) = n
  induction n using Nat.strongRecOn generalizing visited res with
  | _ n ih =>
    induction res with
    | nil => exact ⟨[], visited, .nil visited⟩
    | cons re rest ihrest =>
      by_cases hskip : re.lib ∈ g.internal → re.lib ∈ visited
      · obtain ⟨out, visited', hrest⟩ := ihrest
        exact ⟨_, visited', .skip hskip hrest⟩
      · obtain ⟨hre, hnew⟩ := Classical.not_imp.mp hskip
        have hfewer (visited' : List LibId) (hsub : re.lib :: visited ⊆ visited') :
            g.internal.countP (fun l => decide (l ∉ visited')) < n := by
          rw [← hn]
          refine countP_lt_countP hre (by simp [hsub (List.mem_cons_self)]) (by simp [hnew]) ?_
          intro l _ hl
          simp only [decide_eq_true_eq] at hl ⊢
          exact fun h => hl (hsub (List.mem_cons_of_mem _ h))
        obtain ⟨out, visited₁, hlib⟩ := ih _ (hfewer _ (List.Subset.refl _)) _
          (g.reExports re.lib).reverse rfl
        obtain ⟨out', visited₂, hrest⟩ := ih _ (hfewer _ hlib.subset) _ rest rfl
        exact ⟨_, visited₂, .node hre hnew hlib hrest⟩

theorem Visits.iterate {visited visited' : List LibId} {res : List FklVMvalueCgReExport}
    {out : List ChainValue} (h : g.Visits visited res out visited') :
    ∃ n, ∀ stack1 stack2, g.chainStep^[n] ⟨res.map .cgReExport ++ stack1, stack2, visited⟩ =
      ⟨stack1, out ++ stack2, visited'⟩ := by
  induction h with
  | nil visited => exact ⟨0, fun _ _ => rfl⟩
  | @skip visited visited' re rest out h _ ih =>
    obtain ⟨n, hrun⟩ := ih
    refine ⟨n + 1, fun stack1 stack2 => ?_⟩
    have hstep : g.chainStep ⟨(re :: rest).map .cgReExport ++ stack1, stack2, visited⟩ =
        ⟨rest.map .cgReExport ++ stack1, .cgReExport re :: stack2, visited⟩ := by
      simp only [chainStep, List.map_cons, List.cons_append]
      split_ifs with hre hvisited
      · rfl
      · exact absurd (h hre) hvisited
      · rfl
    rw [Function.iterate_succ_apply, hstep, hrun, List.append_assoc]
    rfl
  | @node visited visited₁ visited₂ re rest out out' h hnew _ _ ih ih' =>
    obtain ⟨n, hrun⟩ := ih
    obtain ⟨n', hrun'⟩ := ih'
    refine ⟨n' + (1 + (n + 2)), fun stack1 stack2 => ?_⟩
    have hstep : g.chainStep ⟨(re :: rest).map .cgReExport ++ stack1, stack2, visited⟩ =
        ⟨.cgLib re.lib :: ((g.reExports re.lib).reverse.map .cgReExport ++
          .vmLib re.lib :: (rest.map .cgReExport ++ stack1)), .cgReExport re :: stack2,
          re.lib :: visited⟩ := by
      simp [chainStep, h, hnew]
    rw [Function.iterate_add_apply, Function.iterate_add_apply, Function.iterate_add_apply]
    have hstep₂ : g.chainStep^[2] ⟨(re :: rest).map .cgReExport ++ stack1, stack2, visited⟩ =
        ⟨(g.reExports re.lib).reverse.map .cgReExport ++
          .vmLib re.lib :: (rest.map .cgReExport ++ stack1),
          .cgLib re.lib :: .cgReExport re :: stack2, re.lib :: visited⟩ := by
      rw [Function.iterate_succ_apply, hstep]
      rfl
    rw [hstep₂, hrun]
    change g.chainStep^[n'] ⟨rest.map .cgReExport ++ stack1,
      .vmLib re.lib :: (out ++ .cgLib re.lib :: .cgReExport re :: stack2), visited₁⟩ = _
    rw [hrun']
    simp

theorem Visits.traverse {visited visited' : List LibId} {re : FklVMvalueCgReExport}
    {out : List ChainValue} (h : g.Visits visited [re] out visited') :
    ∃ n, ∀ fuel, n < fuel → g.traverseReExportChainImpl fuel re visited = some (out, visited') := by
  obtain ⟨n, hrun⟩ := h.iterate
  have hstart := hrun [] []
  refine ⟨n, fun fuel hfuel => ?_⟩
  have hloop : LoopsTo (fun st : ChainState => !st.stack1.isEmpty)
      (fun st => some (g.chainStep st)) n ⟨[.cgReExport re], [], visited⟩
      ⟨[], out ++ [], visited'⟩ := by
    rw [← hstart]
    refine LoopsTo.iterate (fun _ => rfl) (fun st hst => ?_) ?_
    · obtain ⟨stack1, stack2, visited⟩ := st
      cases stack1 with
      | nil => rfl
      | cons v stack1 => cases hst
    · exact congrArg (fun st : ChainState => !st.stack1.isEmpty) hstart
  rw [traverseReExportChainImpl, hloop fuel hfuel, List.append_nil]
  rfl

variable (g) in
/-- One chain after the other: what the visitor is given of each, and what was visited then. -/
inductive Chains : List LibId → List FklVMvalueCgReExport →
    List (List ChainValue × List LibId) → Prop
  | nil (visited : List LibId) : Chains visited [] []
  | cons {visited visited' : List LibId} {re : FklVMvalueCgReExport}
    {rest : List FklVMvalueCgReExport} {out : List ChainValue}
    {outs : List (List ChainValue × List LibId)} (h : g.Visits visited [re] out visited')
    (hrest : Chains visited' rest outs) : Chains visited (re :: rest) ((out, visited') :: outs)

theorem exists_chains (visited : List LibId) (res : List FklVMvalueCgReExport) :
    ∃ outs, g.Chains visited res outs := by
  induction res generalizing visited with
  | nil => exact ⟨[], .nil visited⟩
  | cons re rest ih =>
    obtain ⟨out, visited', h⟩ := @exists_visits g visited [re]
    obtain ⟨outs, hrest⟩ := ih visited'
    exact ⟨_, .cons h hrest⟩

theorem Chains.foldlM {visited : List LibId} {res : List FklVMvalueCgReExport}
    {outs : List (List ChainValue × List LibId)} (h : g.Chains visited res outs) :
    ∃ n, ∀ fuel, n < fuel → ∀ {α : Type} (visitor : List LibId → α → ChainValue → Option α) (a : α),
      (res.foldlM (g.visitChain fuel visitor) (a, visited)).map Prod.fst =
        outs.foldlM (fun a o => o.1.foldlM (visitor o.2) a) a := by
  induction h with
  | nil visited => exact ⟨0, fun _ _ _ _ _ => rfl⟩
  | @cons visited visited' re rest out outs h _ ih =>
    obtain ⟨n, hrun⟩ := h.traverse
    obtain ⟨n', hrest⟩ := ih
    refine ⟨max n n', fun fuel hfuel α visitor a => ?_⟩
    rw [List.foldlM_cons, List.foldlM_cons, visitChain, hrun fuel (by omega)]
    simp only [Option.bind_eq_bind, Option.bind_some]
    cases out.foldlM (visitor visited') a with
    | none => rfl
    | some a' => exact hrest fuel (by omega) visitor a'

theorem Chains.traverse {res : List FklVMvalueCgReExport}
    {outs : List (List ChainValue × List LibId)} (h : g.Chains [] res outs) :
    ∃ n, ∀ fuel, n < fuel → ∀ {α : Type} (visitor : List LibId → α → ChainValue → Option α) (a : α),
      g.traverseReExportChain fuel visitor res a =
        outs.foldlM (fun a o => o.1.foldlM (visitor o.2) a) a := h.foldlM

/-! Which libraries and which re-exports are on a chain. -/

def vmLibs (out : List ChainValue) : List LibId :=
  out.filterMap fun v => match v with
    | .vmLib l => some l
    | _ => none

def cgReExports (out : List ChainValue) : List FklVMvalueCgReExport :=
  out.filterMap fun v => match v with
    | .cgReExport re => some re
    | _ => none

theorem vmLibs_append (out out' : List ChainValue) :
    vmLibs (out ++ out') = vmLibs out ++ vmLibs out' := List.filterMap_append

theorem cgReExports_append (out out' : List ChainValue) :
    cgReExports (out ++ out') = cgReExports out ++ cgReExports out' := List.filterMap_append

@[simp] theorem vmLibs_nil : vmLibs [] = [] := rfl

@[simp] theorem vmLibs_cgReExport (re : FklVMvalueCgReExport) (out : List ChainValue) :
    vmLibs (.cgReExport re :: out) = vmLibs out := rfl

@[simp] theorem vmLibs_vmLib (l : LibId) (out : List ChainValue) :
    vmLibs (.vmLib l :: out) = l :: vmLibs out := rfl

@[simp] theorem vmLibs_cgLib (l : LibId) (out : List ChainValue) :
    vmLibs (.cgLib l :: out) = vmLibs out := rfl

@[simp] theorem cgReExports_nil : cgReExports [] = [] := rfl

@[simp] theorem cgReExports_cgReExport (re : FklVMvalueCgReExport) (out : List ChainValue) :
    cgReExports (.cgReExport re :: out) = re :: cgReExports out := rfl

@[simp] theorem cgReExports_vmLib (l : LibId) (out : List ChainValue) :
    cgReExports (.vmLib l :: out) = cgReExports out := rfl

@[simp] theorem cgReExports_cgLib (l : LibId) (out : List ChainValue) :
    cgReExports (.cgLib l :: out) = cgReExports out := rfl

variable {visited visited' : List LibId} {res : List FklVMvalueCgReExport} {out : List ChainValue}

theorem Visits.mem_visited (h : g.Visits visited res out visited') (l : LibId) :
    l ∈ visited' ↔ l ∈ visited ∨ l ∈ vmLibs out := by
  induction h with
  | nil visited => simp
  | skip _ _ ih => simp [vmLibs_append, ih]
  | node _ _ _ _ ih ih' =>
    rw [ih', ih]
    simp only [vmLibs_append, vmLibs_vmLib, vmLibs_cgLib, vmLibs_cgReExport, vmLibs_nil,
      List.mem_append, List.mem_cons, List.append_nil]
    tauto

theorem Visits.mem_internal (h : g.Visits visited res out visited') {l : LibId}
    (hl : l ∈ vmLibs out) : l ∈ g.internal := by
  induction h with
  | nil visited => cases hl
  | skip _ _ ih => exact ih (by simpa [vmLibs_append] using hl)
  | node h _ _ _ ih ih' =>
    simp only [vmLibs_append, vmLibs_vmLib, vmLibs_cgLib, vmLibs_cgReExport, vmLibs_nil,
      List.mem_append, List.mem_cons, List.append_nil] at hl
    rcases hl with hl | rfl | hl
    · exact ih' hl
    · exact h
    · exact ih hl

/-- A library is met for the first time once. -/
theorem Visits.nodup (h : g.Visits visited res out visited') :
    (vmLibs out).Nodup ∧ ∀ l ∈ vmLibs out, l ∉ visited := by
  induction h with
  | nil visited => simp
  | skip _ _ ih => simpa [vmLibs_append] using ih
  | @node visited visited₁ visited₂ re rest out out' _ hnew hlib _ ih ih' =>
    obtain ⟨hnodup, hdisj⟩ := ih
    obtain ⟨hnodup', hdisj'⟩ := ih'
    have hmem : vmLibs (out' ++ .vmLib re.lib :: (out ++ [.cgLib re.lib, .cgReExport re])) =
        vmLibs out' ++ re.lib :: vmLibs out := by
      simp [vmLibs_append]
    rw [hmem]
    have hfirst : re.lib ∈ visited₁ := hlib.subset List.mem_cons_self
    refine ⟨List.nodup_append.mpr ⟨hnodup', List.nodup_cons.mpr ⟨?_, hnodup⟩, ?_⟩, ?_⟩
    · exact fun hre => hdisj _ hre List.mem_cons_self
    · rintro l hl l' hl' rfl
      refine hdisj' l hl ?_
      rcases List.mem_cons.mp hl' with rfl | hl'
      · exact hfirst
      · exact (hlib.mem_visited l).mpr (Or.inr hl')
    · intro l hl
      rcases List.mem_append.mp hl with hl | hl
      · exact fun h => hdisj' l hl (hlib.subset (List.mem_cons_of_mem _ h))
      · rcases List.mem_cons.mp hl with rfl | hl
        · exact hnew
        · exact fun h => hdisj l hl (List.mem_cons_of_mem _ h)

/-- The re-exports on a chain are the first ones and those of the libraries met on it. -/
theorem Visits.perm (h : g.Visits visited res out visited') :
    (cgReExports out).Perm (res ++ (vmLibs out).flatMap g.reExports) := by
  induction h with
  | nil visited => simp
  | @skip visited visited' re rest out _ _ ih =>
    simp only [cgReExports_append, vmLibs_append, cgReExports_cgReExport, vmLibs_cgReExport,
      cgReExports_nil, vmLibs_nil, List.append_nil]
    exact (List.perm_append_singleton re _).trans (ih.cons re)
  | @node visited visited₁ visited₂ re rest out out' _ _ _ _ ih ih' =>
    simp only [cgReExports_append, vmLibs_append, cgReExports_cgReExport, vmLibs_cgReExport,
      cgReExports_vmLib, vmLibs_vmLib, cgReExports_cgLib, vmLibs_cgLib,
      cgReExports_nil, vmLibs_nil, List.append_nil, List.flatMap_append, List.flatMap_cons]
    have hinner := (ih.trans ((List.reverse_perm _).append_right _))
    have hsnoc := List.perm_append_singleton re (cgReExports out)
    refine (ih'.append (hsnoc.trans (hinner.cons re))).trans ?_
    rw [List.cons_append, ← List.append_assoc rest]
    exact List.perm_middle

/-- What is re-exported on a chain has been visited at its end. -/
theorem Visits.mem_of_cgReExports (h : g.Visits visited res out visited')
    {re : FklVMvalueCgReExport} (hre : re ∈ cgReExports out) (hint : re.lib ∈ g.internal) :
    re.lib ∈ visited' := by
  induction h with
  | nil visited => cases hre
  | skip h hrest ih =>
    simp only [cgReExports_append, cgReExports_cgReExport, cgReExports_nil, List.mem_append,
      List.mem_singleton] at hre
    rcases hre with hre | rfl
    · exact ih hre
    · exact hrest.subset (h hint)
  | node _ _ hlib hrest ih ih' =>
    simp only [cgReExports_append, cgReExports_vmLib, cgReExports_cgLib, cgReExports_cgReExport,
      cgReExports_nil, List.mem_append, List.mem_singleton] at hre
    rcases hre with hre | hre | rfl
    · exact ih' hre
    · exact hrest.subset (ih hre)
    · exact hrest.subset (hlib.subset List.mem_cons_self)

variable (g) in
/-- The library `l` of the file is re-exported by `re`, at once or through others of the file. -/
inductive Reaches (re : FklVMvalueCgReExport) : LibId → Prop
  | here (h : re.lib ∈ g.internal) : Reaches re re.lib
  | step {l : LibId} {re' : FklVMvalueCgReExport} (hl : Reaches re l) (hre : re' ∈ g.reExports l)
    (h : re'.lib ∈ g.internal) : Reaches re re'.lib

theorem Reaches.trans {re re' : FklVMvalueCgReExport} {l l' : LibId} (h : g.Reaches re l)
    (hre : re' ∈ g.reExports l) (h' : g.Reaches re' l') : g.Reaches re l' := by
  induction h' with
  | here hint => exact h.step hre hint
  | step _ hre' hint ih => exact ih.step hre' hint

theorem Visits.reaches (h : g.Visits visited res out visited') {l : LibId}
    (hl : l ∈ vmLibs out) : ∃ re ∈ res, g.Reaches re l := by
  induction h with
  | nil visited => cases hl
  | skip _ _ ih =>
    obtain ⟨re, hre, hreach⟩ := ih (by simpa [vmLibs_append] using hl)
    exact ⟨re, List.mem_cons_of_mem _ hre, hreach⟩
  | @node _ _ _ re _ _ _ h _ _ _ ih ih' =>
    simp only [vmLibs_append, vmLibs_vmLib, vmLibs_cgLib, vmLibs_cgReExport, vmLibs_nil,
      List.mem_append, List.mem_cons, List.append_nil] at hl
    rcases hl with hl | rfl | hl
    · obtain ⟨re', hre, hreach⟩ := ih' hl
      exact ⟨re', List.mem_cons_of_mem _ hre, hreach⟩
    · exact ⟨re, List.mem_cons_self, .here h⟩
    · obtain ⟨re', hre, hreach⟩ := ih hl
      exact ⟨re, List.mem_cons_self, (Reaches.here h).trans (List.mem_reverse.mp hre) hreach⟩

variable (g) in
/-- What the libraries visited re-export of the file has been visited. -/
def Closed (visited : List LibId) : Prop :=
  ∀ l ∈ visited, ∀ re ∈ g.reExports l, re.lib ∈ g.internal → re.lib ∈ visited

theorem Visits.closed (h : g.Visits visited res out visited') (hclosed : g.Closed visited) :
    g.Closed visited' := by
  intro l hl re hre hint
  rcases (h.mem_visited l).mp hl with hl | hl
  · exact h.subset (hclosed l hl re hre hint)
  · refine h.mem_of_cgReExports (h.perm.mem_iff.mpr (List.mem_append_right _ ?_)) hint
    exact List.mem_flatMap.mpr ⟨l, hl, hre⟩

theorem Reaches.mem {re : FklVMvalueCgReExport} {l : LibId} (h : g.Reaches re l)
    (hclosed : g.Closed visited) (hre : re.lib ∈ g.internal → re.lib ∈ visited) : l ∈ visited := by
  induction h with
  | here hint => exact hre hint
  | step _ hre' hint ih => exact hclosed _ ih _ hre' hint

variable (g) in
/-- The libraries visited are those that `res` reaches. -/
def VisitedOf (res : List FklVMvalueCgReExport) (visited : List LibId) : Prop :=
  ∀ l, l ∈ visited ↔ ∃ re ∈ res, g.Reaches re l

theorem VisitedOf.nil : g.VisitedOf [] [] := by
  intro l
  simp

theorem VisitedOf.closed (h : g.VisitedOf res visited) : g.Closed visited := by
  intro l hl re hre hint
  obtain ⟨re', hre', hreach⟩ := (h l).mp hl
  exact (h re.lib).mpr ⟨re', hre', hreach.step hre hint⟩

theorem VisitedOf.chain {re : FklVMvalueCgReExport} (hv : g.VisitedOf res visited)
    (h : g.Visits visited [re] out visited') : g.VisitedOf (res ++ [re]) visited' := by
  intro l
  constructor
  · intro hl
    rcases (h.mem_visited l).mp hl with hl | hl
    · obtain ⟨re', hre', hreach⟩ := (hv l).mp hl
      exact ⟨re', List.mem_append_left _ hre', hreach⟩
    · obtain ⟨re', hre', hreach⟩ := h.reaches hl
      exact ⟨re', List.mem_append_right _ hre', hreach⟩
  · rintro ⟨re', hre', hreach⟩
    rcases List.mem_append.mp hre' with hre' | hre'
    · exact h.subset ((hv l).mpr ⟨re', hre', hreach⟩)
    · obtain rfl := List.mem_singleton.mp hre'
      refine hreach.mem (h.closed hv.closed) (h.mem_of_cgReExports ?_)
      exact h.perm.mem_iff.mpr (List.mem_append_left _ hre')

variable (g) in
/-- The library `l` is met on the chain of `re` and on none of those before. -/
def FirstMet (before : List FklVMvalueCgReExport) (re : FklVMvalueCgReExport) (l : LibId) : Prop :=
  g.Reaches re l ∧ ∀ re' ∈ before, ¬g.Reaches re' l

theorem VisitedOf.mem_vmLibs_iff {re : FklVMvalueCgReExport} (hv : g.VisitedOf res visited)
    (h : g.Visits visited [re] out visited') (l : LibId) :
    l ∈ vmLibs out ↔ g.FirstMet res re l := by
  constructor
  · intro hl
    obtain ⟨re', hre', hreach⟩ := h.reaches hl
    obtain rfl := List.mem_singleton.mp hre'
    exact ⟨hreach, fun re' hre' hr => h.nodup.2 l hl ((hv l).mpr ⟨re', hre', hr⟩)⟩
  · rintro ⟨hreach, hfirst⟩
    have hl : l ∈ visited' := (hv.chain h l).mpr ⟨re, by simp, hreach⟩
    refine ((h.mem_visited l).mp hl).resolve_left fun hold => ?_
    obtain ⟨re', hre', hr⟩ := (hv l).mp hold
    exact hfirst re' hre' hr

/-! Where a library stands among the re-exports that name it. -/

variable (g) in
/-- `l` is re-exported by `l'`. -/
def Edge (l l' : LibId) : Prop :=
  l ∈ g.internal ∧ l' ∈ g.internal ∧ l ∈ (g.reExports l').map (·.lib)

theorem Edge.irrefl (l : LibId) : ¬Relation.TransGen g.Edge l l := fun h =>
  g.acyclic.transGen.irrefl.irrefl l h

theorem Visits.path_of_cgReExports (h : g.Visits visited res out visited')
    {re : FklVMvalueCgReExport} (hre : re ∈ cgReExports out) (hint : re.lib ∈ g.internal) :
    ∃ re' ∈ res, Relation.ReflTransGen g.Edge re.lib re'.lib := by
  induction h with
  | nil visited => cases hre
  | @skip _ _ re' _ _ _ _ ih =>
    simp only [cgReExports_append, cgReExports_cgReExport, cgReExports_nil, List.mem_append,
      List.mem_singleton] at hre
    rcases hre with hre | rfl
    · obtain ⟨re', hre', hpath⟩ := ih hre
      exact ⟨re', List.mem_cons_of_mem _ hre', hpath⟩
    · exact ⟨re, List.mem_cons_self, .refl⟩
  | @node _ _ _ re₀ _ _ _ hre₀ _ _ _ ih ih' =>
    simp only [cgReExports_append, cgReExports_vmLib, cgReExports_cgLib, cgReExports_cgReExport,
      cgReExports_nil, List.mem_append, List.mem_singleton] at hre
    rcases hre with hre | hre | rfl
    · obtain ⟨re', hre', hpath⟩ := ih' hre
      exact ⟨re', List.mem_cons_of_mem _ hre', hpath⟩
    · obtain ⟨re', hre', hpath⟩ := ih hre
      have hre'' : re'.lib ∈ g.internal := by
        rcases hpath.cases_tail with heq | ⟨_, -, hlast⟩
        · exact heq ▸ hint
        · exact hlast.2.1
      refine ⟨re₀, List.mem_cons_self, hpath.tail ⟨hre'', hre₀, ?_⟩⟩
      exact List.mem_map_of_mem (List.mem_reverse.mp hre')
    · exact ⟨re, List.mem_cons_self, .refl⟩

/-- A library of the file is not named on the chain that starts below it. -/
theorem Visits.not_named (h : g.Visits visited (g.reExports l).reverse out visited')
    (hl : l ∈ g.internal) {re : FklVMvalueCgReExport} (hre : re ∈ cgReExports out) :
    re.lib ≠ l := by
  rintro rfl
  obtain ⟨re', hre', hpath⟩ := h.path_of_cgReExports hre hl
  have hre'' : re'.lib ∈ g.internal := by
    rcases hpath.cases_tail with heq | ⟨_, -, hlast⟩
    · exact heq ▸ hl
    · exact hlast.2.1
  have hedge : g.Edge re'.lib re.lib :=
    ⟨hre'', hl, List.mem_map_of_mem (List.mem_reverse.mp hre')⟩
  exact Edge.irrefl _ (Relation.TransGen.tail' hpath hedge)

/-- How often a library is re-exported among `res`. -/
def named (l : LibId) (res : List FklVMvalueCgReExport) : Nat := res.countP fun re => re.lib = l

theorem named_append (l : LibId) (res res' : List FklVMvalueCgReExport) :
    named l (res ++ res') = named l res + named l res' := List.countP_append

theorem named_eq_zero {l : LibId} {res : List FklVMvalueCgReExport} (h : ∀ re ∈ res, re.lib ≠ l) :
    named l res = 0 := List.countP_eq_zero.mpr (by simpa using h)

theorem named_singleton (l : LibId) (re : FklVMvalueCgReExport) :
    named l [re] = if re.lib = l then 1 else 0 := by
  simp [named, List.countP_cons]

/-- Behind the library only the re-export from which it is met names it. -/
theorem Visits.split (h : g.Visits visited res out visited') {l : LibId} (hl : l ∈ vmLibs out) :
    ∃ pre post, out = pre ++ .vmLib l :: post ∧ named l (cgReExports post) = 1 := by
  induction h with
  | nil visited => cases hl
  | @skip visited visited' re rest out hskip hrest ih =>
    have hl' : l ∈ vmLibs out := by simpa [vmLibs_append] using hl
    obtain ⟨pre, post, rfl, hnamed⟩ := ih hl'
    refine ⟨pre, post ++ [.cgReExport re], by simp, ?_⟩
    have hne : re.lib ≠ l := by
      rintro rfl
      exact hrest.nodup.2 _ hl' (hskip (hrest.mem_internal hl'))
    rw [cgReExports_append, named_append, hnamed, cgReExports_cgReExport, cgReExports_nil,
      named_singleton, if_neg hne]
  | @node visited visited₁ visited₂ re rest out out' hre hnew hlib hrest ih ih' =>
    simp only [vmLibs_append, vmLibs_vmLib, vmLibs_cgLib, vmLibs_cgReExport, vmLibs_nil,
      List.mem_append, List.mem_cons, List.append_nil] at hl
    have hfirst : re.lib ∈ visited₁ := hlib.subset List.mem_cons_self
    rcases hl with hl | rfl | hl
    · obtain ⟨pre, post, rfl, hnamed⟩ := ih' hl
      have hold : l ∉ visited₁ := hrest.nodup.2 l hl
      refine ⟨pre, post ++ .vmLib re.lib :: (out ++ [.cgLib re.lib, .cgReExport re]), by simp, ?_⟩
      have hout : named l (cgReExports out) = 0 := by
        refine named_eq_zero fun re' hre' => ?_
        rintro rfl
        exact hold (hlib.mem_of_cgReExports hre' (hrest.mem_internal hl))
      have hne : re.lib ≠ l := fun h => hold (h ▸ hfirst)
      simp only [cgReExports_append, cgReExports_vmLib, cgReExports_cgLib, cgReExports_cgReExport,
        cgReExports_nil, named_append, named_singleton, if_neg hne, hnamed, hout]
    · refine ⟨out', out ++ [.cgLib re.lib, .cgReExport re], rfl, ?_⟩
      have hout := named_eq_zero fun re' hre' => hlib.not_named hre hre'
      simp only [cgReExports_append, cgReExports_cgLib, cgReExports_cgReExport, cgReExports_nil,
        named_append, named_singleton, if_true, hout]
    · obtain ⟨pre, post, rfl, hnamed⟩ := ih hl
      refine ⟨out' ++ .vmLib re.lib :: pre, post ++ [.cgLib re.lib, .cgReExport re], by simp, ?_⟩
      have hne : re.lib ≠ l := by
        rintro rfl
        exact hlib.nodup.2 _ hl List.mem_cons_self
      simp only [cgReExports_append, cgReExports_cgLib, cgReExports_cgReExport, cgReExports_nil,
        named_append, named_singleton, if_neg hne, hnamed]

/-! Chains that are walked as trees. -/

variable (g) (meaningless : List LibId) in
/-- No library is left out because it has been met on this chain: it is one of the old ones. -/
inductive Tidy (old : LibId → Prop) : List FklVMvalueCgReExport → List ChainValue → Prop
  | nil : Tidy old [] []
  | skip {re : FklVMvalueCgReExport} {rest : List FklVMvalueCgReExport} {out : List ChainValue}
    (h : re.lib ∈ g.internal → re.lib ∉ meaningless → old re.lib) (hrest : Tidy old rest out) :
    Tidy old (re :: rest) (out ++ [.cgReExport re])
  | node {re : FklVMvalueCgReExport} {rest : List FklVMvalueCgReExport}
    {out out' : List ChainValue} (h : re.lib ∈ g.internal)
    (hlib : Tidy old (g.reExports re.lib).reverse out) (hrest : Tidy old rest out') :
    Tidy old (re :: rest) (out' ++ .vmLib re.lib :: (out ++ [.cgLib re.lib, .cgReExport re]))

theorem Visits.tidy {meaningless : List LibId} (h : g.Visits visited res out visited')
    {old : LibId → Prop} (hcount : ∀ l ∈ visited', l ∉ meaningless → ¬old l →
      named l (cgReExports out) + (if l ∈ visited then 1 else 0) ≤ 1) :
    g.Tidy meaningless old res out := by
  induction h with
  | nil visited => exact .nil
  | @skip visited visited' re rest out hskip hrest ih =>
    simp only [cgReExports_append, cgReExports_cgReExport, cgReExports_nil, named_append,
      named_singleton] at hcount
    refine .skip (fun hint hm => ?_) (ih fun l hl hm hold => ?_)
    · by_contra hold
      have := hcount re.lib (hrest.subset (hskip hint)) hm hold
      rw [if_pos rfl, if_pos (hskip hint)] at this
      omega
    · have := hcount l hl hm hold
      omega
  | @node visited visited₁ visited₂ re rest out out' hint hnew hlib hrest ih ih' =>
    simp only [cgReExports_append, cgReExports_vmLib, cgReExports_cgLib, cgReExports_cgReExport,
      cgReExports_nil, named_append, named_singleton] at hcount
    refine .node hint (ih fun l hl hm hold => ?_) (ih' fun l hl hm hold => ?_)
    · have := hcount l (hrest.subset hl) hm hold
      by_cases hre : re.lib = l
      · subst hre
        simp only [if_true, if_neg hnew, List.mem_cons_self] at this ⊢
        omega
      · have hmem : l ∈ re.lib :: visited ↔ l ∈ visited := by simp [Ne.symm hre]
        simp only [if_neg hre] at this
        simp only [hmem]
        omega
    · have := hcount l hl hm hold
      by_cases hl₁ : l ∈ visited₁
      · rw [if_pos hl₁]
        have hone : 1 ≤ named l (cgReExports out) + (if re.lib = l then 1 else 0) +
            (if l ∈ visited then 1 else 0) := by
          rcases (hlib.mem_visited l).mp hl₁ with hl₁ | hl₁
          · rcases List.mem_cons.mp hl₁ with rfl | hl₁
            · rw [if_pos rfl]
              omega
            · rw [if_pos hl₁]
              omega
          · obtain ⟨pre, post, rfl, hnamed⟩ := hlib.split hl₁
            rw [cgReExports_append, cgReExports_vmLib, named_append, hnamed]
            omega
        omega
      · rw [if_neg hl₁]
        omega

variable (g) in
def InFile : ChainValue → Prop
  | .vmLib l => l ∈ g.internal
  | .cgReExport _ => True
  | .cgLib l => l ∈ g.internal

theorem Tidy.inFile {meaningless : List LibId} {old : LibId → Prop}
    (h : g.Tidy meaningless old res out) : ∀ v ∈ out, g.InFile v := by
  induction h with
  | nil => simp
  | skip _ _ ih =>
    intro v hv
    rcases List.mem_append.mp hv with hv | hv
    · exact ih v hv
    · obtain rfl := List.mem_singleton.mp hv
      trivial
  | node h _ _ ih ih' =>
    intro v hv
    simp only [List.mem_append, List.mem_cons, List.not_mem_nil, or_false] at hv
    rcases hv with hv | rfl | hv | rfl | rfl
    · exact ih' v hv
    · exact h
    · exact ih v hv
    · exact h
    · trivial

theorem Visits.inFile (h : g.Visits visited res out visited') : ∀ v ∈ out, g.InFile v :=
  (h.tidy fun _ _ _ hold => absurd trivial hold : g.Tidy [] (fun _ => True) res out).inFile

end CgLibs

end FakeLisp.PreCompile
