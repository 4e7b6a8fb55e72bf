import FakeLisp.ReExportStream

/-! When the chains are walked as trees, and how the executed stream builds what was declared. -/

namespace FakeLisp.PreCompile.CgLibs

variable {g : CgLibs} {meaningless : List LibId} {t : FklLibTable}
  {visited visited' : List LibId} {res before : List FklVMvalueCgReExport} {out : List ChainValue}
  {outs : List (List ChainValue × List LibId)}

/-! Libraries in the table. -/

theorem get_addedLib_of_ne {l l' : LibId} (h : l ≠ l') :
    (addedLib meaningless t (.vmLib l')).ht.get l = t.ht.get l := by
  simp only [addedLib]
  split_ifs
  · rfl
  · rw [FklValueTable.get_add, if_neg h]

theorem get_tableAfter_of_not_mem {l : LibId} (h : l ∉ vmLibs out) :
    (tableAfter meaningless t out).ht.get l = t.ht.get l := by
  induction out generalizing t with
  | nil => rfl
  | cons v out ih =>
    cases v with
    | vmLib l' =>
      obtain ⟨hne, hout⟩ := not_or.mp (fun h' => h (List.mem_cons.mpr h'))
      exact (ih hout).trans (get_addedLib_of_ne hne)
    | _ => exact ih h

/-- The libraries of the table have been visited. -/
def TableIn (t : FklLibTable) (visited : List LibId) : Prop :=
  ∀ l id, t.ht.get l = some id → l ∈ visited

theorem TableIn.after (h : TableIn t visited) (hvisits : g.Visits visited res out visited') :
    TableIn (tableAfter meaningless t out) visited' := by
  intro l id hget
  by_cases hl : l ∈ vmLibs out
  · exact (hvisits.mem_visited l).mpr (Or.inr hl)
  · rw [get_tableAfter_of_not_mem hl] at hget
    exact hvisits.subset (h l id hget)

/-! A library that is imported as if it were outside is named a second time. -/

theorem named_eq_zero_of_stream {l : LibId} (hl : l ∉ meaningless) (hget : t.ht.get l = none)
    (hnot : l ∉ vmLibs out) (h : ∀ type, .importLib l type ∉ stream meaningless t out) :
    named l (cgReExports out) = 0 := by
  induction out generalizing t with
  | nil => rfl
  | cons v out ih =>
    have hrest : ∀ type, .importLib l type ∉
        stream meaningless (addedLib meaningless t v) out := fun type hmem =>
      h type (List.mem_append_right _ hmem)
    cases v with
    | vmLib l' =>
      obtain ⟨hne, hout⟩ := not_or.mp (fun h' => hnot (List.mem_cons.mpr h'))
      exact ih ((get_addedLib_of_ne hne).trans hget) hout hrest
    | cgReExport re =>
      have hne : re.lib ≠ l := by
        rintro rfl
        refine h re.type (List.mem_append_left _ ?_)
        rw [emitted, if_neg hl, if_pos (by rw [fklValueTableGet, hget]; rfl)]
        exact List.mem_cons_self
      rw [cgReExports_cgReExport, named, List.countP_cons_of_neg (by simpa using hne)]
      exact ih hget hnot hrest
    | cgLib l' => exact ih hget hnot hrest

theorem Visits.named_eq_one (h : g.Visits visited res out visited') (ht : TableIn t visited)
    {l : LibId} (hl : l ∈ vmLibs out) (hm : l ∉ meaningless)
    (hin : ∀ type, .importLib l type ∉ stream meaningless t out) :
    named l (cgReExports out) = 1 := by
  obtain ⟨hnodup, hnew⟩ := h.nodup
  obtain ⟨pre, post, rfl, hnamed⟩ := h.split hl
  have hpre : l ∉ vmLibs pre := by
    rw [vmLibs_append, vmLibs_vmLib] at hnodup
    exact fun hmem => (List.nodup_append.mp hnodup).2.2 l hmem l List.mem_cons_self rfl
  have hget : t.ht.get l = none := by
    rw [Option.eq_none_iff_forall_ne_some]
    exact fun id hid => hnew l hl (ht l id hid)
  have hzero := named_eq_zero_of_stream hm hget hpre fun type hmem =>
    hin type (by rw [stream_append]; exact List.mem_append_left _ hmem)
  rw [cgReExports_append, cgReExports_vmLib, named_append, hzero, hnamed]

/-- The re-exports on a chain count those of any of its libraries. -/
theorem Visits.named_le {re : FklVMvalueCgReExport} (h : g.Visits visited [re] out visited')
    (l : LibId) {ds : List LibId} (hds : ds.Nodup) (hsub : ds ⊆ vmLibs out) :
    named l (re :: ds.flatMap g.reExports) ≤ named l (cgReExports out) := by
  obtain ⟨ds', hperm, hsublist⟩ := hds.subperm hsub
  have hcount : named l (cgReExports out) =
      named l (re :: (vmLibs out).flatMap g.reExports) := h.perm.countP_eq _
  rw [hcount]
  have hds' : named l (re :: ds.flatMap g.reExports) = named l (re :: ds'.flatMap g.reExports) :=
    ((hperm.symm.flatMap_right g.reExports).cons re).countP_eq _
  rw [hds']
  exact ((List.Sublist.flatMap hsublist g.reExports).cons_cons re).countP_le

variable (g meaningless) in
/-- As `NamedOnce`, behind the chains of `before`. -/
def NamedOnceBehind (before res : List FklVMvalueCgReExport) : Prop :=
  ∀ pre re post, res = pre ++ re :: post →
    ∀ l, g.FirstMet (before ++ pre) re l → l ∉ meaningless →
      ∀ ds : List LibId, ds.Nodup → (∀ d ∈ ds, g.FirstMet (before ++ pre) re d) →
        named l (re :: ds.flatMap g.reExports) ≤ 1

theorem Chains.namedOnce (h : g.Chains visited res outs) (hv : g.VisitedOf before visited)
    (ht : TableIn t visited)
    (hin : ∀ l type, .importLib l type ∈ stream meaningless t (allValues outs) →
      l ∉ g.internal) : g.NamedOnceBehind meaningless before res := by
  induction h generalizing before t with
  | nil visited =>
    rintro pre re post h
    simp at h
  | @cons visited visited' re₀ rest out outs h hrest ih =>
    rw [allValues_cons, stream_append] at hin
    rintro (_ | ⟨_, pre⟩) re post heq l hl hm ds hds hmet
    · obtain ⟨rfl, rfl⟩ := List.cons.inj heq
      rw [List.append_nil] at hl hmet
      have hmem := (hv.mem_vmLibs_iff h l).mpr hl
      rw [← h.named_eq_one ht hmem hm fun type himport =>
        hin l type (List.mem_append_left _ himport) (h.mem_internal hmem)]
      exact h.named_le l hds fun d hd => (hv.mem_vmLibs_iff h d).mpr (hmet d hd)
    · obtain ⟨rfl, rfl⟩ := List.cons.inj heq
      have hbehind := ih (hv.chain h) (ht.after h) fun l type himport =>
        hin l type (List.mem_append_right _ himport)
      refine hbehind pre re post rfl l ?_ hm ds hds fun d hd => ?_
      · simpa using hl
      · simpa using hmet d hd

/-! Chains are trees where no library is named twice. -/

theorem NamedOnceBehind.tidy {re : FklVMvalueCgReExport} {rest : List FklVMvalueCgReExport}
    (hnamed : g.NamedOnceBehind meaningless before (re :: rest)) (hv : g.VisitedOf before visited)
    (h : g.Visits visited [re] out visited') :
    g.Tidy meaningless (· ∈ visited) [re] out := by
  refine h.tidy fun l hl hm hold => ?_
  rw [if_neg hold, Nat.add_zero]
  have hmet (d : LibId) (hd : d ∈ vmLibs out) : g.FirstMet (before ++ []) re d := by
    rw [List.append_nil]
    exact (hv.mem_vmLibs_iff h d).mp hd
  have hmem := ((h.mem_visited l).mp hl).resolve_left hold
  have hcount : named l (cgReExports out) =
      named l (re :: (vmLibs out).flatMap g.reExports) := h.perm.countP_eq _
  rw [hcount]
  exact hnamed [] re rest rfl l (hmet l hmem) hm (vmLibs out) h.nodup.1 hmet

theorem NamedOnceBehind.tail {re : FklVMvalueCgReExport} {rest : List FklVMvalueCgReExport}
    (h : g.NamedOnceBehind meaningless before (re :: rest)) :
    g.NamedOnceBehind meaningless (before ++ [re]) rest := by
  rintro pre re' post rfl l hl hm ds hds hmet
  have hshift : before ++ [re] ++ pre = before ++ re :: pre := by simp
  rw [hshift] at hl hmet
  exact h (re :: pre) re' post rfl l hl hm ds hds hmet

/-! Nothing is emitted for a meaningless library. -/

theorem Tidy.silent {old : LibId → Prop} (hclosed : g.MeaninglessClosed meaningless)
    (h : g.Tidy meaningless old res out) (hres : ∀ re ∈ res, re.lib ∈ meaningless)
    (t : FklLibTable) :
    stream meaningless t out = [] ∧ tableAfter meaningless t out = t ∧
      ∀ l ∈ vmLibs out, l ∈ meaningless := by
  induction h generalizing t with
  | nil => exact ⟨rfl, rfl, by simp⟩
  | @skip re rest out _ _ ih =>
    obtain ⟨hre, hrest⟩ := List.forall_mem_cons.mp hres
    obtain ⟨hstream, htable, hlibs⟩ := ih hrest t
    refine ⟨?_, ?_, by simpa [vmLibs_append] using hlibs⟩
    · simp [stream_append, stream_cons, hstream, emitted, hre]
    · simp [tableAfter_append, htable, addedLib]
  | @node re rest out out' _ _ _ ih ih' =>
    obtain ⟨hre, hrest⟩ := List.forall_mem_cons.mp hres
    obtain ⟨hstream', htable', hlibs'⟩ := ih' hrest t
    obtain ⟨hstream, htable, hlibs⟩ :=
      ih (fun re' hre' => (hclosed _ hre).2 re' (List.mem_reverse.mp hre')) t
    refine ⟨?_, ?_, fun l hl => ?_⟩
    · simp [stream_append, stream_cons, hstream', htable', emitted, addedLib, hre, hstream, htable]
    · simp [tableAfter_append, htable', addedLib, hre, htable]
    · simp only [vmLibs_append, vmLibs_vmLib, vmLibs_cgLib, vmLibs_cgReExport, vmLibs_nil,
        List.mem_append, List.mem_cons, List.append_nil] at hl
      rcases hl with hl | rfl | hl
      · exact hlibs' l hl
      · exact hre
      · exact hlibs l hl

/-! Tables. -/

variable (g) in
structure TableOk (t : FklLibTable) : Prop where
  sound : t.Sound
  pos : 0 < t.nextId
  file : ∀ l id, t.ht.get l = some id → l ∈ g.internal

theorem TableOk.init : g.TableOk fklInitValueTable where
  sound _ _ h := by cases h
  pos := Nat.one_pos
  file _ _ h := by cases h

theorem TableOk.added (h : g.TableOk t) {v : ChainValue} (hv : g.InFile v) :
    g.TableOk (addedLib meaningless t v) := by
  cases v with
  | vmLib l =>
    simp only [addedLib]
    split_ifs
    · exact h
    · refine ⟨h.sound.add h.pos l, h.pos.trans_le (FklValueTable.nextId_add_le l), ?_⟩
      intro l' id hget
      rw [FklValueTable.get_add] at hget
      split_ifs at hget with heq
      · exact heq ▸ hv
      · exact h.file l' id hget
  | _ => exact h

theorem TableOk.after (h : g.TableOk t) (hout : ∀ v ∈ out, g.InFile v) :
    g.TableOk (tableAfter meaningless t out) := by
  induction out generalizing t with
  | nil => exact h
  | cons v out ih =>
    exact ih (h.added (hout v List.mem_cons_self)) fun w hw => hout w (List.mem_cons_of_mem _ hw)

theorem fklValueTableGet_of_some {l : LibId} {id : Nat} (h : t.ht.get l = some id) :
    fklValueTableGet t l = id := by
  rw [fklValueTableGet, h]
  rfl

theorem TableOk.emitted_of_some (h : g.TableOk t) {re : FklVMvalueCgReExport} {id : Nat}
    (hm : re.lib ∉ meaningless) (hget : t.ht.get re.lib = some id) :
    emitted meaningless t (.cgReExport re) = [.importPushed id re.type] := by
  have hid := (h.sound re.lib id hget).1
  rw [emitted, if_neg hm, fklValueTableGet_of_some hget, if_neg hid.ne']

theorem TableOk.emitted_of_not_mem (h : g.TableOk t) {re : FklVMvalueCgReExport}
    (hm : re.lib ∉ meaningless) (hre : re.lib ∉ g.internal) :
    emitted meaningless t (.cgReExport re) = [.importLib re.lib re.type] := by
  have hget : t.ht.get re.lib = none := by
    rw [Option.eq_none_iff_forall_ne_some]
    exact fun id hid => hre (h.file re.lib id hid)
  rw [emitted, if_neg hm, fklValueTableGet, hget]
  rfl

/-! Execution. -/

variable {libs : LibId → Option CgLib}

theorem foldlM_congr_mem {α β : Type} {f f' : β → α → Option β} {l : List α}
    (h : ∀ b, ∀ a ∈ l, f b a = f' b a) (b : β) : l.foldlM f b = l.foldlM f' b := by
  induction l generalizing b with
  | nil => rfl
  | cons a l ih =>
    rw [List.foldlM_cons, List.foldlM_cons, h b a List.mem_cons_self]
    exact bind_congr fun b => ih (fun b a ha => h b a (List.mem_cons_of_mem _ ha)) b

theorem stub_eq {l : LibId} (hl : l ∈ g.internal) : g.stub libs meaningless l =
    (g.reExports l).foldlM (g.reExportTo libs meaningless) ⟨.empty, []⟩ := by
  rw [stub, WellFounded.fix_eq]
  refine foldlM_congr_mem (fun lib re hre => ?_) _
  have hedge : g.Edge re.lib l ↔ re.lib ∈ g.internal :=
    ⟨fun h => h.1, fun h => ⟨h, hl, List.mem_map_of_mem hre⟩⟩
  rw [reExportTo]
  by_cases hint : re.lib ∈ g.internal
  · rw [dif_pos (hedge.mpr hint), if_pos hint]
    rfl
  · rw [dif_neg (mt hedge.mp hint), if_neg hint]

/-- The libraries that are done stand in the vector and hold what was declared of them. -/
structure Agrees (g : CgLibs) (libs : LibId → Option CgLib) (meaningless : List LibId)
    (t : FklLibTable) (done : LibId → Prop) (st : ReExportState) : Prop where
  table : g.TableOk t
  start : st.startIdx = 0
  length : st.cgLibVec.length + 1 = t.nextId
  bounded : ∀ o ∈ st.cur :: st.stack, o < st.objs.length
  holds : ∀ l, done l → ∃ id o lib, t.ht.get l = some id ∧ st.cgLibVec[id - 1]? = some (some o) ∧
    st.objs[o]? = some lib ∧ g.stub libs meaningless l = some lib ∧ o ∉ st.cur :: st.stack

/-- What the commands of a chain leave alone. -/
structure Frame (st st' : ReExportState) : Prop where
  cur_eq : st'.cur = st.cur
  stack_eq : st'.stack = st.stack
  vec : st.cgLibVec <+: st'.cgLibVec
  length_le : st.objs.length ≤ st'.objs.length
  objs : ∀ o < st.objs.length, o ≠ st.cur → st'.objs[o]? = st.objs[o]?

theorem Frame.refl (st : ReExportState) : Frame st st :=
  ⟨rfl, rfl, List.prefix_refl _, le_refl _, fun _ _ _ => rfl⟩

theorem Frame.trans {st st' st'' : ReExportState} (h : Frame st st') (h' : Frame st' st'') :
    Frame st st'' where
  cur_eq := h'.cur_eq.trans h.cur_eq
  stack_eq := h'.stack_eq.trans h.stack_eq
  vec := h.vec.trans h'.vec
  length_le := h.length_le.trans h'.length_le
  objs o ho hcur := (h'.objs o (ho.trans_le h.length_le) (h.cur_eq ▸ hcur)).trans (h.objs o ho hcur)

/-- The commands take `st` to a state with `lib` as the library in work, or fail. -/
def Runs (g : CgLibs) (libs : LibId → Option CgLib) (meaningless : List LibId)
    (st : ReExportState) (cmds : List FklReExportCmd) (t : FklLibTable) (done : LibId → Prop) :
    Option CgLib → Prop
  | none => cmds.foldlM (ReExportState.exec libs) st = none
  | some lib => ∃ st', cmds.foldlM (ReExportState.exec libs) st = some st' ∧
      g.Agrees libs meaningless t done st' ∧ Frame st st' ∧ st'.objs[st'.cur]? = some lib

variable {st : ReExportState} {cmds cmds' : List FklReExportCmd} {t' : FklLibTable}
  {done done' : LibId → Prop} {lib : CgLib}

theorem Runs.append {r : Option CgLib} {f : CgLib → Option CgLib}
    (h : g.Runs libs meaningless st cmds t done r)
    (h' : ∀ st' lib, g.Agrees libs meaningless t done st' → Frame st st' →
      st'.objs[st'.cur]? = some lib → g.Runs libs meaningless st' cmds' t' done' (f lib)) :
    g.Runs libs meaningless st (cmds ++ cmds') t' done' (r.bind f) := by
  cases r with
  | none =>
    have hnone : cmds.foldlM (ReExportState.exec libs) st = none := h
    change (cmds ++ cmds').foldlM (ReExportState.exec libs) st = none
    rw [List.foldlM_append, hnone]
    rfl
  | some lib =>
    obtain ⟨st', hrun, hagrees, hframe, hlib⟩ := h
    have hrest := h' st' lib hagrees hframe hlib
    rw [Option.bind_some]
    cases hf : f lib with
    | none =>
      rw [hf] at hrest
      change (cmds ++ cmds').foldlM (ReExportState.exec libs) st = none
      rw [List.foldlM_append, hrun]
      exact hrest
    | some lib' =>
      rw [hf] at hrest
      obtain ⟨st'', hrun', hagrees', hframe', hlib'⟩ := hrest
      refine ⟨st'', ?_, hagrees', hframe.trans hframe', hlib'⟩
      rw [List.foldlM_append, hrun]
      exact hrun'

/-! One import. -/

theorem Agrees.import (h : g.Agrees libs meaningless t done st)
    (hlib : st.objs[st.cur]? = some lib) {cmd : FklReExportCmd} {src : CgLib}
    {type : FklCgImportType} (hcmd : ReExportState.exec libs st cmd = st.importTo src type) :
    g.Runs libs meaningless st [cmd] t done (src.fklCgImport lib type) := by
  have hcur : st.cur < st.objs.length := h.bounded st.cur List.mem_cons_self
  cases hsrc : src.fklCgImport lib type with
  | none =>
    change [cmd].foldlM (ReExportState.exec libs) st = none
    simp [hcmd, ReExportState.importTo, hlib, hsrc]
  | some lib' =>
    refine ⟨{ st with objs := st.objs.set st.cur lib' }, ?_, ⟨h.table, h.start, h.length, ?_, ?_⟩,
      ⟨rfl, rfl, List.prefix_refl _, ?_, ?_⟩, ?_⟩
    · simp [hcmd, ReExportState.importTo, hlib, hsrc]
    · simpa using h.bounded
    · intro l hl
      obtain ⟨id, o, lib₀, hget, hvec, hobj, hstub, ho⟩ := h.holds l hl
      refine ⟨id, o, lib₀, hget, hvec, ?_, hstub, ho⟩
      have hne : st.cur ≠ o := by
        rintro rfl
        exact ho List.mem_cons_self
      rw [List.getElem?_set_ne hne]
      exact hobj
    · simp
    · exact fun o _ hne => List.getElem?_set_ne (Ne.symm hne)
    · simp [hcur]

theorem Agrees.importPushed (h : g.Agrees libs meaningless t done st)
    (hlib : st.objs[st.cur]? = some lib) {re : FklVMvalueCgReExport} (hdone : done re.lib)
    (hm : re.lib ∉ meaningless) (hint : re.lib ∈ g.internal) :
    g.Runs libs meaningless st (emitted meaningless t (.cgReExport re)) t done
      (g.reExportTo libs meaningless lib re) := by
  obtain ⟨id, o, src, hget, hvec, hobj, hstub, -⟩ := h.holds re.lib hdone
  have hto : g.reExportTo libs meaningless lib re = src.fklCgImport lib re.type := by
    rw [reExportTo, if_neg hm, if_pos hint, hstub]
    rfl
  rw [h.table.emitted_of_some hm hget, hto]
  refine h.import hlib ?_
  simp [ReExportState.exec, h.start, hvec, hobj]

theorem Agrees.importLib (h : g.Agrees libs meaningless t done st)
    (hlib : st.objs[st.cur]? = some lib) {re : FklVMvalueCgReExport}
    (hm : re.lib ∉ meaningless) (hint : re.lib ∉ g.internal) :
    g.Runs libs meaningless st (emitted meaningless t (.cgReExport re)) t done
      (g.reExportTo libs meaningless lib re) := by
  rw [h.table.emitted_of_not_mem hm hint, reExportTo, if_neg hm, if_neg hint]
  cases hsrc : libs re.lib with
  | none =>
    change [_].foldlM (ReExportState.exec libs) st = none
    simp [ReExportState.exec, hsrc]
  | some src =>
    refine h.import hlib ?_
    simp [ReExportState.exec, hsrc]

theorem Agrees.skip (h : g.Agrees libs meaningless t done st)
    (hlib : st.objs[st.cur]? = some lib) {re : FklVMvalueCgReExport} (hm : re.lib ∈ meaningless) :
    g.Runs libs meaningless st (emitted meaningless t (.cgReExport re)) t done
      (g.reExportTo libs meaningless lib re) := by
  rw [emitted, if_pos hm, reExportTo, if_pos hm]
  exact ⟨st, rfl, h, Frame.refl st, hlib⟩

/-! Entering a library and leaving it. -/

def pushed (st : ReExportState) : ReExportState :=
  { st with
    objs := st.objs ++ [⟨.empty, []⟩]
    stack := st.cur :: st.stack
    cur := st.objs.length
    cgLibVec := st.cgLibVec ++ [some st.objs.length] }

theorem Agrees.push {l : LibId} (h : g.Agrees libs meaningless t done st) (hl : l ∈ g.internal)
    (hm : l ∉ meaningless) (hget : t.ht.get l = none) :
    (emitted meaningless t (.vmLib l)).foldlM (ReExportState.exec libs) st = some (pushed st) ∧
      g.Agrees libs meaningless (addedLib meaningless t (.vmLib l)) done (pushed st) := by
  refine ⟨?_, h.table.added hl, h.start, ?_, ?_, ?_⟩
  · have hlen : st.cgLibVec.length = t.nextId - 1 := by
      have := h.length
      omega
    have hpos := h.table.pos
    have hid : t.nextId - (t.nextId - 1) = 1 := by omega
    have htake : (st.cgLibVec ++ [none]).take t.nextId = st.cgLibVec ++ [none] := by
      refine List.take_of_length_le ?_
      rw [List.length_append, hlen, List.length_singleton]
      omega
    simp only [emitted, if_neg hm, add_of_none hget, List.foldlM_cons, List.foldlM_nil,
      ReExportState.exec, h.start, hpos.ne', if_false, Nat.zero_add, hlen, hid, List.replicate_one,
      htake, bind_pure]
    rw [← hlen]
    simp [pushed, h.start]
  · have hnext : (addedLib meaningless t (.vmLib l)).nextId = t.nextId + 1 := by
      rw [addedLib, if_neg hm, add_of_none hget]
    rw [hnext, ← h.length]
    simp [pushed]
  · intro o ho
    rcases List.mem_cons.mp ho with rfl | ho
    · simp [pushed]
    · exact (h.bounded o ho).trans (by simp [pushed])
  · intro l' hl'
    obtain ⟨id, o, lib, hid, hvec, hobj, hstub, ho⟩ := h.holds l' hl'
    have hlt := (List.getElem?_eq_some_iff.mp hobj).1
    refine ⟨id, o, lib, get_addedLib_of_some hid _, ?_, ?_, hstub, ?_⟩
    · rw [pushed, List.getElem?_append_left (List.getElem?_eq_some_iff.mp hvec).1]
      exact hvec
    · rw [pushed, List.getElem?_append_left hlt]
      exact hobj
    · exact fun h' => (List.mem_cons.mp h').elim (fun heq => hlt.ne heq) ho

def popped (st : ReExportState) (cur : Nat) (stack : List Nat) : ReExportState :=
  { st with cur, stack }

/-- What was pushed is done when it is left. -/
theorem Agrees.pop {st' : ReExportState} {l : LibId} (h : g.Agrees libs meaningless t done st)
    (hget : t'.ht.get l = some t.nextId) (h' : g.Agrees libs meaningless t' done' st')
    (hframe : Frame (pushed st) st') (hlib : st'.objs[st'.cur]? = some lib)
    (hstub : g.stub libs meaningless l = some lib) :
    ReExportState.exec libs st' .pop = some (popped st' st.cur st.stack) ∧
      g.Agrees libs meaningless t' (fun l' => done' l' ∨ l' = l) (popped st' st.cur st.stack) ∧
      Frame st (popped st' st.cur st.stack) ∧ st'.objs[st.cur]? = st.objs[st.cur]? := by
  have hcur : st'.cur = st.objs.length := hframe.cur_eq
  have hstack : st'.stack = st.cur :: st.stack := hframe.stack_eq
  have hobjs (o : Nat) (ho : o < st.objs.length) : st'.objs[o]? = st.objs[o]? := by
    have hold := hframe.objs o (by simp only [pushed, List.length_append]; omega) ho.ne
    rw [pushed, List.getElem?_append_left ho] at hold
    exact hold
  refine ⟨by simp [ReExportState.exec, hstack, popped],
    ⟨h'.table, h'.start, h'.length, ?_, ?_⟩, ?_, hobjs _ (h.bounded _ List.mem_cons_self)⟩
  · exact fun o ho => h'.bounded o (by rw [hstack]; exact List.mem_cons_of_mem _ ho)
  · rintro l' (hl' | rfl)
    · obtain ⟨id, o, lib', hid, hvec, hobj, hstub', ho⟩ := h'.holds l' hl'
      rw [hstack] at ho
      exact ⟨id, o, lib', hid, hvec, hobj, hstub', fun hmem => ho (List.mem_cons_of_mem _ hmem)⟩
    · refine ⟨t.nextId, st'.cur, lib, hget, ?_, hlib, hstub, ?_⟩
      · have hlen : t.nextId - 1 = st.cgLibVec.length := by
          have := h.length
          omega
        obtain ⟨rest, hrest⟩ := hframe.vec
        change st'.cgLibVec[t.nextId - 1]? = some (some st'.cur)
        rw [← hrest, List.getElem?_append_left (by simp [pushed, hlen]), hlen, hcur]
        simp [pushed]
      · rw [hcur]
        exact fun hmem => (h.bounded _ hmem).ne rfl
  · refine ⟨rfl, rfl, (List.prefix_append _ _).trans hframe.vec, ?_, fun o ho _ => hobjs o ho⟩
    exact (by simp [pushed] : st.objs.length ≤ (pushed st).objs.length).trans hframe.length_le

/-! A chain. -/

theorem foldlM_reverse_cons (re : FklVMvalueCgReExport) (rest : List FklVMvalueCgReExport)
    (lib : CgLib) : (re :: rest).reverse.foldlM (g.reExportTo libs meaningless) lib =
      (rest.reverse.foldlM (g.reExportTo libs meaningless) lib).bind fun lib =>
        g.reExportTo libs meaningless lib re := by
  rw [List.reverse_cons, List.foldlM_append]
  refine bind_congr fun lib => ?_
  simp

theorem Runs.mono (h : ∀ l, done' l → done l) {r : Option CgLib}
    (hrun : g.Runs libs meaningless st cmds t done r) :
    g.Runs libs meaningless st cmds t done' r := by
  cases r with
  | none => exact hrun
  | some lib =>
    obtain ⟨st', hexec, hagrees, hframe, hlib⟩ := hrun
    exact ⟨st', hexec, { hagrees with holds := fun l hl => hagrees.holds l (h l hl) }, hframe, hlib⟩

theorem Runs.behind {st' : ReExportState} {r : Option CgLib}
    (hexec : cmds.foldlM (ReExportState.exec libs) st = some st') (hframe : Frame st st')
    (h : g.Runs libs meaningless st' cmds' t done r) :
    g.Runs libs meaningless st (cmds ++ cmds') t done r := by
  cases r with
  | none =>
    change (cmds ++ cmds').foldlM (ReExportState.exec libs) st = none
    rw [List.foldlM_append, hexec]
    exact h
  | some lib =>
    obtain ⟨st'', hrun, hagrees, hframe', hlib⟩ := h
    refine ⟨st'', ?_, hagrees, hframe.trans hframe', hlib⟩
    rw [List.foldlM_append, hexec]
    exact hrun

/-- A library that is met for the first time: it is pushed, filled and imported. -/
theorem Agrees.node {re : FklVMvalueCgReExport} (h : g.Agrees libs meaningless t done st)
    (hlib : st.objs[st.cur]? = some lib) (hint : re.lib ∈ g.internal)
    (hm : re.lib ∉ meaningless) (hget : t.ht.get re.lib = none)
    (hnested : g.Agrees libs meaningless (addedLib meaningless t (.vmLib re.lib)) done (pushed st) →
      g.Runs libs meaningless (pushed st)
        (stream meaningless (addedLib meaningless t (.vmLib re.lib)) out)
        (tableAfter meaningless (addedLib meaningless t (.vmLib re.lib)) out) done'
        (g.stub libs meaningless re.lib)) :
    g.Runs libs meaningless st
      (stream meaningless t (.vmLib re.lib :: (out ++ [.cgLib re.lib, .cgReExport re])))
      (tableAfter meaningless t (.vmLib re.lib :: (out ++ [.cgLib re.lib, .cgReExport re])))
      (fun l => done' l ∨ l = re.lib) (g.reExportTo libs meaningless lib re) := by
  obtain ⟨hpush, hpushed⟩ := h.push hint hm hget
  have hstream : stream meaningless t (.vmLib re.lib :: (out ++ [.cgLib re.lib, .cgReExport re])) =
      emitted meaningless t (.vmLib re.lib) ++
        (stream meaningless (addedLib meaningless t (.vmLib re.lib)) out ++
          (.pop :: emitted meaningless
            (tableAfter meaningless (addedLib meaningless t (.vmLib re.lib)) out)
            (.cgReExport re))) := by
    simp [stream_cons, stream_append, emitted, addedLib, hm]
  have htable : tableAfter meaningless t (.vmLib re.lib ::
      (out ++ [.cgLib re.lib, .cgReExport re])) =
      tableAfter meaningless (addedLib meaningless t (.vmLib re.lib)) out := by
    simp [tableAfter_append, addedLib]
  rw [hstream, htable]
  have hrun := hnested hpushed
  cases hstub : g.stub libs meaningless re.lib with
  | none =>
    rw [hstub] at hrun
    have hnone : (stream meaningless (addedLib meaningless t (.vmLib re.lib)) out).foldlM
        (ReExportState.exec libs) (pushed st) = none := hrun
    have hto : g.reExportTo libs meaningless lib re = none := by
      rw [reExportTo, if_neg hm, if_pos hint, hstub]
      rfl
    rw [hto]
    change List.foldlM _ _ _ = none
    rw [List.foldlM_append, hpush, Option.bind_eq_bind, Option.bind_some, List.foldlM_append,
      hnone]
    rfl
  | some src =>
    rw [hstub] at hrun
    obtain ⟨st', hexec, hagrees, hframe, hsrc⟩ := hrun
    have hid : (tableAfter meaningless (addedLib meaningless t (.vmLib re.lib)) out).ht.get re.lib =
        some t.nextId := by
      refine get_tableAfter_of_some ?_ out
      rw [get_addedLib_vmLib hm hget, if_pos rfl]
    obtain ⟨hpop, hpopped, hframe', hcur⟩ := h.pop hid hagrees hframe hsrc hstub
    have himport := hpopped.importPushed (hcur.trans hlib) (Or.inr rfl) hm hint
    rw [← List.append_assoc, List.append_cons]
    refine himport.behind ?_ hframe'
    simp [List.foldlM_append, hpush, hexec, hpop]

theorem Tidy.run (hclosed : g.MeaninglessClosed meaningless) {old : LibId → Prop}
    (h : g.Tidy meaningless old res out) (hagrees : g.Agrees libs meaningless t done st)
    (hold : ∀ l, old l → l ∉ meaningless → done l) (hnodup : (vmLibs out).Nodup)
    (hnew : ∀ l ∈ vmLibs out, t.ht.get l = none) (hlib : st.objs[st.cur]? = some lib) :
    g.Runs libs meaningless st (stream meaningless t out) (tableAfter meaningless t out)
      (fun l => done l ∨ l ∈ vmLibs out ∧ l ∉ meaningless)
      (res.reverse.foldlM (g.reExportTo libs meaningless) lib) := by
  induction h generalizing t done st lib with
  | nil =>
    refine ⟨st, rfl, ?_, Frame.refl st, hlib⟩
    exact { hagrees with holds := fun l hl => hagrees.holds l (by simpa using hl) }
  | @skip re rest out hskip hrest ih =>
    simp only [vmLibs_append, vmLibs_cgReExport, vmLibs_nil, List.append_nil] at hnodup hnew ⊢
    rw [foldlM_reverse_cons, stream_append, stream_cons, stream_nil, List.append_nil,
      tableAfter_append]
    refine (ih hagrees hold hnodup hnew hlib).append fun st' lib' hagrees' _ hlib' => ?_
    by_cases hm : re.lib ∈ meaningless
    · exact hagrees'.skip hlib' hm
    · by_cases hint : re.lib ∈ g.internal
      · exact hagrees'.importPushed hlib' (Or.inl (hold _ (hskip hint hm) hm)) hm hint
      · exact hagrees'.importLib hlib' hm hint
  | @node re rest out out' hint hlib' hrest ih ih' =>
    have hlibs : vmLibs (out' ++ .vmLib re.lib :: (out ++ [.cgLib re.lib, .cgReExport re])) =
        vmLibs out' ++ re.lib :: vmLibs out := by
      simp [vmLibs_append]
    rw [hlibs] at hnodup hnew ⊢
    obtain ⟨hnodup', htail, hdisj⟩ := List.nodup_append.mp hnodup
    obtain ⟨hre, hnodup⟩ := List.nodup_cons.mp htail
    rw [foldlM_reverse_cons, stream_append, tableAfter_append]
    have hfirst := ih' hagrees hold hnodup' (fun l hl => hnew l (List.mem_append_left _ hl)) hlib
    refine hfirst.append fun st' lib₁ hagrees' _ hlib₁ => ?_
    by_cases hm : re.lib ∈ meaningless
    · obtain ⟨hstream, htable, hsilent⟩ := hlib'.silent hclosed
        (fun re' hre' => (hclosed _ hm).2 re' (List.mem_reverse.mp hre'))
        (tableAfter meaningless t out')
      have hnothing : stream meaningless (tableAfter meaningless t out')
          (.vmLib re.lib :: (out ++ [.cgLib re.lib, .cgReExport re])) = [] := by
        simp [stream_cons, stream_append, emitted, addedLib, hm, hstream]
      have hsame : tableAfter meaningless (tableAfter meaningless t out')
          (.vmLib re.lib :: (out ++ [.cgLib re.lib, .cgReExport re])) =
          tableAfter meaningless t out' := by
        simp [tableAfter_append, addedLib, hm, htable]
      rw [hnothing, hsame, reExportTo, if_pos hm]
      refine Runs.mono (fun l hl => ?_) ⟨st', rfl, hagrees', Frame.refl st', hlib₁⟩
      rcases hl with hl | ⟨hl, hlm⟩
      · exact Or.inl hl
      · rcases List.mem_append.mp hl with hl | hl
        · exact Or.inr ⟨hl, hlm⟩
        · rcases List.mem_cons.mp hl with rfl | hl
          · exact absurd hm hlm
          · exact absurd (hsilent l hl) hlm
    · have hget (l : LibId) (hl : l ∈ re.lib :: vmLibs out) :
          (tableAfter meaningless t out').ht.get l = none := by
        rw [get_tableAfter_of_not_mem fun hl' => hdisj l hl' l hl rfl]
        exact hnew l (List.mem_append_right _ hl)
      have hfresh : ∀ l ∈ vmLibs out, (addedLib meaningless (tableAfter meaningless t out')
          (.vmLib re.lib)).ht.get l = none := by
        intro l hl
        rw [get_addedLib_of_ne (by rintro rfl; exact hre hl)]
        exact hget l (List.mem_cons_of_mem _ hl)
      have hnode := hagrees'.node hlib₁ hint hm (hget _ List.mem_cons_self) fun hpushed => by
        have hrun := @ih _ _ _ ⟨.empty, []⟩ hpushed (fun l hl hlm => Or.inl (hold l hl hlm)) hnodup
          hfresh (by simp [pushed])
        rw [List.reverse_reverse, ← stub_eq hint] at hrun
        exact hrun
      refine hnode.mono fun l hl => ?_
      rcases hl with hl | ⟨hl, hlm⟩
      · exact Or.inl (Or.inl (Or.inl hl))
      · rcases List.mem_append.mp hl with hl | hl
        · exact Or.inl (Or.inl (Or.inr ⟨hl, hlm⟩))
        · rcases List.mem_cons.mp hl with rfl | hl
          · exact Or.inr rfl
          · exact Or.inl (Or.inr ⟨hl, hlm⟩)

end FakeLisp.PreCompile.CgLibs
