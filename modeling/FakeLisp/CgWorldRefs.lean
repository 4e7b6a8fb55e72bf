import FakeLisp.CgProto

/-! Whatever the compiler looks up and resolves, the references that an environment has keep their
indices, and the rest of what is numbered stays as it is. -/

namespace FakeLisp.CgWorld

variable {S V K L : Type} [DecidableEq S] [DecidableEq V] [DecidableEq K]
  {w w' w'' : CgWorld S V K L}

/-! Growth. -/

structure Grows (w w' : CgWorld S V K L) : Prop where
  envCount : w'.envCount = w.envCount
  protoCount : w'.protoCount = w.protoCount
  frame : ∀ e, ∃ base refs, w'.envs e = { w.envs e with base := base, refs := refs }
  refIdx : ∀ e key idx, w.refIdx e key = some idx → w'.refIdx e key = some idx
  placed : ∀ e, (w.envs e).refs.Placed (·.idx) → (w'.envs e).refs.Placed (·.idx)

namespace Grows

theorem refl (w : CgWorld S V K L) : Grows w w :=
  ⟨rfl, rfl, fun _ => ⟨_, _, rfl⟩, fun _ _ _ h => h, fun _ h => h⟩

theorem trans (h : Grows w w') (h' : Grows w' w'') : Grows w w'' where
  envCount := h'.envCount.trans h.envCount
  protoCount := h'.protoCount.trans h.protoCount
  frame e := by
    obtain ⟨base, refs, he⟩ := h.frame e
    obtain ⟨base', refs', he'⟩ := h'.frame e
    exact ⟨base', refs', by rw [he', he]⟩
  refIdx e key idx hidx := h'.refIdx e key idx (h.refIdx e key idx hidx)
  placed e hplaced := h'.placed e (h.placed e hplaced)

variable (h : Grows w w') (e : Nat)

include h

theorem prev : (w'.envs e).prev = (w.envs e).prev := by
  obtain ⟨_, _, he⟩ := h.frame e
  rw [he]

theorem parentScope : (w'.envs e).parentScope = (w.envs e).parentScope := by
  obtain ⟨_, _, he⟩ := h.frame e
  rw [he]

theorem protoId : (w'.envs e).protoId = (w.envs e).protoId := by
  obtain ⟨_, _, he⟩ := h.frame e
  rw [he]

theorem konsts : (w'.envs e).konsts = (w.envs e).konsts := by
  obtain ⟨_, _, he⟩ := h.frame e
  rw [he]

theorem childProcProtos : (w'.envs e).childProcProtos = (w.envs e).childProcProtos := by
  obtain ⟨_, _, he⟩ := h.frame e
  rw [he]

theorem usedLibraries : (w'.envs e).usedLibraries = (w.envs e).usedLibraries := by
  obtain ⟨_, _, he⟩ := h.frame e
  rw [he]

theorem proto : (w'.envs e).proto = (w.envs e).proto := by
  obtain ⟨_, _, he⟩ := h.frame e
  rw [he]

theorem refKey (id : S) : w'.refKey e id = w.refKey e id := by
  unfold CgWorld.refKey
  rw [h.parentScope]

end Grows

/-! What does it. -/

theorem envs_modify (e : Nat) (f : FklVMvalueCgEnv S V K L → FklVMvalueCgEnv S V K L) (e' : Nat) :
    (w.modify e f).envs e' = if e' = e then f (w.envs e) else w.envs e' := by
  exact Function.update_apply ..

theorem grows_modify {e : Nat} {f : FklVMvalueCgEnv S V K L → FklVMvalueCgEnv S V K L}
    (hframe : ∃ base refs, f (w.envs e) = { w.envs e with base := base, refs := refs })
    (hidx : ∀ key el, (w.envs e).refs.get key = some el →
      ∃ el', (f (w.envs e)).refs.get key = some el' ∧ el'.idx = el.idx)
    (hplaced : (w.envs e).refs.Placed (·.idx) → (f (w.envs e)).refs.Placed (·.idx)) :
    Grows w (w.modify e f) where
  envCount := rfl
  protoCount := rfl
  frame e' := by
    rw [envs_modify]
    split
    · rename_i he
      exact he ▸ hframe
    · exact ⟨_, _, rfl⟩
  refIdx e' key idx h := by
    obtain ⟨el, hel, rfl⟩ := Option.map_eq_some_iff.mp h
    rw [CgWorld.refIdx, envs_modify]
    split
    · rename_i he
      obtain ⟨el', hel', hsame⟩ := hidx key el (he ▸ hel)
      rw [hel', Option.map_some, hsame]
    · rw [hel, Option.map_some]
  placed e' h := by
    rw [envs_modify]
    split
    · rename_i he
      exact hplaced (he ▸ h)
    · exact h

theorem grows_insertRef (e : Nat) (key : FklSidScope S) (isConst : Bool) :
    Grows w (w.insertRef e key isConst) := by
  apply grows_modify
  · exact ⟨_, _, rfl⟩
  · exact fun key el hel => ⟨el, InsertionMap.get_add_of_get hel, rfl⟩
  · exact fun h => h.add rfl

theorem grows_setRef (e : Nat) (key : FklSidScope S) (cidx : Nat) (isLocal : Bool) :
    Grows w (w.setRef e key cidx isLocal) := by
  cases hkey : (w.envs e).refs.get key with
  | none =>
    apply grows_modify <;> rw [hkey]
    · exact ⟨_, _, rfl⟩
    · exact fun key el hel => ⟨el, hel, rfl⟩
    · exact id
  | some old =>
    apply grows_modify <;> rw [hkey]
    · exact ⟨_, _, rfl⟩
    · intro key' el hel
      rw [InsertionMap.get_replace keyEquiv_eq]
      split
      · rename_i heq
        rw [decide_eq_true_eq] at heq
        rw [heq, hkey, Option.some_inj] at hel
        rw [heq, hkey, ← hel]
        exact ⟨_, rfl, rfl⟩
      · exact ⟨el, hel, rfl⟩
    · exact fun h => h.replace keyEquiv_eq hkey rfl

theorem grows_modifyBase (e : Nat) (f : FklCgEnv S → FklCgEnv S) :
    Grows w (w.modifyBase e f) := by
  apply grows_modify
  · exact ⟨_, _, rfl⟩
  · exact fun key el hel => ⟨el, hel, rfl⟩
  · exact id

theorem grows_patchRef (pt idx : Nat) (fields : List (Nat × ProtoCell S V L)) :
    Grows w (w.patchRef pt idx fields) :=
  ⟨rfl, rfl, fun _ => ⟨_, _, rfl⟩, fun _ _ _ h => h, fun _ h => h⟩

theorem refIdx_insertRef (e : Nat) (key : FklSidScope S) (isConst : Bool) :
    ∃ idx, (w.insertRef e key isConst).refIdx e key = some idx := by
  rw [refIdx, insertRef, envs_modify, if_pos rfl]
  dsimp only
  rw [InsertionMap.get_add_self, Option.map_some]
  exact ⟨_, rfl⟩

/-! References in a list of unresolved ones keep their places too, until they are resolved. -/

def UrefsKept (base base' : FklCgEnv S) : Prop :=
  ∀ (i : Nat) (u : FklUnbound S), base.uref[i]? = some u →
    ∃ u' : FklUnbound S, base'.uref[i]? = some u' ∧ u'.env = u.env

omit [DecidableEq S] in
theorem UrefsKept.of_eq {base base' : FklCgEnv S} (h : base'.uref = base.uref) :
    UrefsKept base base' := fun _ u hu => ⟨u, by rw [h, hu], rfl⟩

structure AddsRefs (w w' : CgWorld S V K L) : Prop where
  grows : Grows w w'
  urefs : ∀ e, UrefsKept (w.envs e).base (w'.envs e).base

namespace AddsRefs

theorem refl (w : CgWorld S V K L) : AddsRefs w w := ⟨.refl w, fun _ => .of_eq rfl⟩

theorem trans (h : AddsRefs w w') (h' : AddsRefs w' w'') : AddsRefs w w'' where
  grows := h.grows.trans h'.grows
  urefs e i u hu := by
    obtain ⟨u', hu', henv⟩ := h.urefs e i u hu
    obtain ⟨u'', hu'', henv'⟩ := h'.urefs e i u' hu'
    exact ⟨u'', hu'', henv'.trans henv⟩

theorem of_base (hgrows : Grows w w') (hbase : ∀ e, (w'.envs e).base = (w.envs e).base) :
    AddsRefs w w' := ⟨hgrows, fun e => .of_eq (by rw [hbase e])⟩

end AddsRefs

theorem addsRefs_insertRef (e : Nat) (key : FklSidScope S) (isConst : Bool) :
    AddsRefs w (w.insertRef e key isConst) := by
  refine .of_base (grows_insertRef e key isConst) fun e' => ?_
  rw [insertRef, envs_modify]
  split
  · rename_i he
    rw [he]
  · rfl

theorem addsRefs_setRef (e : Nat) (key : FklSidScope S) (cidx : Nat) (isLocal : Bool) :
    AddsRefs w (w.setRef e key cidx isLocal) := by
  refine .of_base (grows_setRef e key cidx isLocal) fun e' => ?_
  rw [setRef, envs_modify]
  split
  · rename_i he
    rw [he]
    split <;> rfl
  · rfl

theorem addsRefs_modifyBase {e : Nat} {f : FklCgEnv S → FklCgEnv S}
    (hf : UrefsKept (w.envs e).base (f (w.envs e).base)) : AddsRefs w (w.modifyBase e f) := by
  refine ⟨grows_modifyBase e f, fun e' => ?_⟩
  rw [modifyBase, envs_modify]
  split
  · rename_i he
    exact he ▸ hf
  · exact .of_eq rfl

theorem addsRefs_patchRef (pt idx : Nat) (fields : List (Nat × ProtoCell S V L)) :
    AddsRefs w (w.patchRef pt idx fields) := .of_base (grows_patchRef pt idx fields) fun _ => rfl

theorem addsRefs_markAssigned (e : Nat) (id : S) (scope : Nat) :
    AddsRefs w (w.markAssigned e id scope) := by
  apply addsRefs_modifyBase
  split
  · intro i u hu
    rw [List.getElem?_modify, hu]
    refine ⟨_, rfl, ?_⟩
    dsimp only
    split <;> rfl
  · exact .of_eq rfl

theorem addsRefs_addUnbound (id : S) (e owner : Nat) (key : FklSidScope S) (assign : Bool) :
    AddsRefs w (w.addUnbound id e owner key assign) := by
  have hset := (@addsRefs_insertRef _ _ _ _ _ _ _ w e key false).trans
    (addsRefs_setRef e key fklVarRefInvalidCidx false)
  unfold addUnbound
  refine hset.trans (addsRefs_modifyBase fun i u hu => ⟨u, ?_, rfl⟩)
  rw [List.getElem?_append_left (List.getElem?_eq_some_iff.mp hu).1, hu]

theorem refIdx_addUnbound (id : S) (e owner : Nat) (key : FklSidScope S) (assign : Bool) :
    ∃ idx, (w.addUnbound id e owner key assign).refIdx e key = some idx := by
  obtain ⟨idx, hidx⟩ := @refIdx_insertRef _ _ _ _ _ _ _ w e key false
  have hset := (grows_setRef e key fklVarRefInvalidCidx false).refIdx _ _ _ hidx
  unfold addUnbound
  exact ⟨idx, (grows_modifyBase owner _).refIdx _ _ _ hset⟩

/-! The environments around one are older. -/

def OuterOlder (w : CgWorld S V K L) : Prop := ∀ e p, (w.envs e).prev = some p → p < e

theorem envsFrom_closed (h : OuterOlder w) {fuel : Nat} {start : Option Nat} {c p : Nat}
    (hlt : ∀ s ∈ start, s < fuel) (hc : c ∈ w.envsFrom fuel start)
    (hp : (w.envs c).prev = some p) : p ∈ w.envsFrom fuel start := by
  induction fuel generalizing start with
  | zero => cases hc
  | succ fuel ih =>
    cases start with
    | none => cases hc
    | some cur =>
      have hcur := hlt cur rfl
      have hnext : ∀ s ∈ (w.envs cur).prev, s < fuel := fun s hs => by
        have := h cur s hs
        omega
      unfold envsFrom at hc ⊢
      cases hc with
      | head =>
        have := hnext p hp
        cases fuel with
        | zero => omega
        | succ fuel =>
          rw [hp, envsFrom]
          exact List.mem_cons_of_mem _ List.mem_cons_self
      | tail _ hc => exact List.mem_cons_of_mem _ (ih hnext hc)

theorem prev_mem_around (h : OuterOlder w) {e c p : Nat} (he : e < w.envCount)
    (hc : c ∈ w.around e) (hp : (w.envs c).prev = some p) : p ∈ w.around e :=
  envsFrom_closed h (fun s hs => (h e s hs).trans he) hc hp

theorem mem_envsFrom {fuel : Nat} {start : Option Nat} {t : Nat} (ht : t ∈ w.envsFrom fuel start) :
    start = some t ∨ ∃ c ∈ w.envsFrom fuel start, (w.envs c).prev = some t := by
  induction fuel generalizing start with
  | zero => cases ht
  | succ fuel ih =>
    cases start with
    | none => cases ht
    | some cur =>
      unfold envsFrom at ht ⊢
      cases ht with
      | head => exact .inl rfl
      | tail _ ht =>
        right
        obtain hcur | ⟨c, hc, hprev⟩ := ih ht
        · exact ⟨cur, List.mem_cons_self, hcur⟩
        · exact ⟨c, List.mem_cons_of_mem _ hc, hprev⟩

theorem getChildEnvPrototypeId_some {e target : Nat} (ht : target ∈ w.around e) :
    ∃ protoId, w.getChildEnvPrototypeId e target = some protoId := by
  have hchild : ∃ c ∈ e :: w.around e, (w.envs c).prev = some target := by
    obtain he | ⟨c, hc, hprev⟩ := mem_envsFrom ht
    · exact ⟨e, List.mem_cons_self, he⟩
    · exact ⟨c, List.mem_cons_of_mem _ hc, hprev⟩
  obtain ⟨c, hc, hprev⟩ := hchild
  have hsome : ((e :: w.around e).find? fun e => (w.envs e).prev = some target).isSome :=
    List.find?_isSome.mpr ⟨c, hc, by simpa using hprev⟩
  obtain ⟨c', hc'⟩ := Option.isSome_iff_exists.mp hsome
  exact ⟨_, by rw [getChildEnvPrototypeId, hc', Option.map_some]⟩

theorem mem_of_useOuterPdefOrDef {id : S} {l : List Nat} {scope : Nat} {r : Nat × OuterDef S}
    (h : w.useOuterPdefOrDef id l scope = some r) : r.1 ∈ l := by
  induction l generalizing scope with
  | nil => cases h
  | cons cur outer ih =>
    unfold useOuterPdefOrDef at h
    split at h
    · cases h
      exact List.mem_cons_self
    · split at h
      · cases h
        exact List.mem_cons_self
      · exact List.mem_cons_of_mem _ (ih h)

theorem mem_of_hasOuterRef {id : S} {l : List Nat} {r : Nat × FklSymDef}
    (h : w.hasOuterRef id l = some r) : r.1 ∈ l := by
  induction l with
  | nil => cases h
  | cons cur outer ih =>
    unfold hasOuterRef at h
    split at h
    · cases h
      exact List.mem_cons_self
    · exact List.mem_cons_of_mem _ (ih h)

/-! A reference is handed through. -/

def HasRef (w : CgWorld S V K L) (e : Nat) (id : S) : Prop :=
  ∃ idx, w.refIdx e (w.refKey e id) = some idx

theorem HasRef.grow {e : Nat} {id : S} (h : w.HasRef e id) (hgrows : Grows w w') :
    w'.HasRef e id := by
  obtain ⟨idx, hidx⟩ := h
  exact ⟨idx, by rw [hgrows.refKey, hgrows.refIdx _ _ _ hidx]⟩

theorem hasRef_insertRef (e : Nat) (id : S) (isConst : Bool) :
    (w.insertRef e (w.refKey e id) isConst).HasRef e id := by
  rw [HasRef, (grows_insertRef e _ isConst).refKey]
  exact refIdx_insertRef e _ isConst

theorem addRefOutwards_some {id : S} {target : Option Nat} {l : List Nat} {cel : Nat}
    (hcel : w.HasRef cel id) (ht : ∀ t ∈ target, t ∈ l) :
    ∃ w' cel', addRefOutwards target id w cel l = some (w', cel') ∧ AddsRefs w w' ∧
      w'.HasRef cel' id := by
  induction l generalizing w cel with
  | nil =>
    have hnone : target = none := Option.eq_none_iff_forall_not_mem.mpr fun t h => by
      cases ht t h
    exact ⟨w, cel, by rw [addRefOutwards, if_pos hnone], .refl w, hcel⟩
  | cons cur outer ih =>
    unfold addRefOutwards
    by_cases hcur : target = some cur
    · exact ⟨w, cel, by rw [if_pos hcur], .refl w, hcel⟩
    · rw [if_neg hcur]
      obtain ⟨idx, hidx⟩ := @hasRef_insertRef _ _ _ _ _ _ _ w cur id false
      have hins := @addsRefs_insertRef _ _ _ _ _ _ _ w cur (w.refKey cur id) false
      have hset := hins.trans (addsRefs_setRef cel
        ((w.insertRef cur (w.refKey cur id) false).refKey cel id) idx false)
      have hnext : ∀ t ∈ target, t ∈ outer := fun t h => by
        obtain rfl | hmem := List.mem_cons.mp (ht t h)
        · exact absurd h hcur
        · exact hmem
      obtain ⟨w', cel', hrun, hadds, hlast⟩ := ih
        (HasRef.grow ⟨idx, hidx⟩ (grows_setRef cel _ idx false)) hnext
      refine ⟨w', cel', ?_, hset.trans hadds, hlast⟩
      simp only [hidx, bind, Option.bind_some]
      exact hrun

theorem addRefToAllPenv_some (id : S) {e : Nat} {target : Option Nat}
    (ht : ∀ t ∈ target, t ∈ w.around e) (isConst : Bool) :
    ∃ w' cel, w.addRefToAllPenv id e target isConst = some (w', cel) ∧ AddsRefs w w' ∧
      w'.HasRef cel id ∧ w'.HasRef e id := by
  have hins := @addsRefs_insertRef _ _ _ _ _ _ _ w e (w.refKey e id) isConst
  have hhas := @hasRef_insertRef _ _ _ _ _ _ _ w e id isConst
  obtain ⟨w', cel, hrun, hadds, hcel⟩ := addRefOutwards_some hhas ht
  exact ⟨w', cel, hrun, hins.trans hadds, hcel, hhas.grow hadds.grows⟩

/-- A reference that the environment has keeps its index in what follows. -/
theorem HasRef.finish {e : Nat} {id : S} (h : w'.HasRef e id) (hadds : AddsRefs w w')
    (hadds' : AddsRefs w' w'') :
    ∃ w₁ idx, (w''.refIdx e (w.refKey e id)).bind (fun idx => some (w'', idx)) = some (w₁, idx) ∧
      AddsRefs w w₁ ∧ ∃ scope, w₁.refIdx e ⟨id, scope⟩ = some idx := by
  obtain ⟨idx, hidx⟩ := h
  rw [hadds.grows.refKey] at hidx
  have hidx' := hadds'.grows.refIdx _ _ _ hidx
  exact ⟨w'', idx, by rw [hidx', Option.bind_some], hadds.trans hadds', _, hidx'⟩

theorem fklAddCgRefBySid_some (h : OuterOlder w) {e : Nat} (he : e < w.envCount) (id : S)
    (assign : Bool) : ∃ w' idx, w.fklAddCgRefBySid id e assign = some (w', idx) ∧ AddsRefs w w' ∧
      ∃ scope, w'.refIdx e ⟨id, scope⟩ = some idx := by
  have hunbound : ∀ owner, ∃ w' idx,
      ((w.addUnbound id e owner (w.refKey e id) assign).refIdx e (w.refKey e id)).bind
        (fun idx => some (w.addUnbound id e owner (w.refKey e id) assign, idx)) = some (w', idx) ∧
      AddsRefs w w' ∧ ∃ scope, w'.refIdx e ⟨id, scope⟩ = some idx := fun owner => by
    obtain ⟨idx, hidx⟩ := @refIdx_addUnbound _ _ _ _ _ _ _ w id e owner (w.refKey e id) assign
    exact ⟨_, idx, by rw [hidx, Option.bind_some], addsRefs_addUnbound .., _, hidx⟩
  unfold fklAddCgRefBySid
  simp only [bind, pure]
  cases hkey : (w.envs e).refs.get (w.refKey e id) with
  | some el =>
    have hidx : w.refIdx e (w.refKey e id) = some el.idx := by rw [refIdx, hkey, Option.map_some]
    have hmark : AddsRefs w (if assign then
        w.markAssigned ((w.envs e).prev.getD e) id (w.envs e).parentScope else w) := by
      split
      · exact addsRefs_markAssigned ..
      · exact .refl w
    exact ⟨_, _, rfl, hmark, (w.envs e).parentScope, hmark.grows.refIdx _ _ _ hidx⟩
  | none =>
    cases hprev : (w.envs e).prev with
    | none =>
      obtain ⟨idx, hidx⟩ := @refIdx_addUnbound _ _ _ _ _ _ _ w id e e ⟨id, 0⟩ assign
      exact ⟨_, idx, by rw [hidx, Option.bind_some], addsRefs_addUnbound .., _, hidx⟩
    | some p =>
      dsimp only
      cases houter : w.useOuterPdefOrDef id (w.around e) (w.envs e).parentScope with
      | some r =>
        obtain ⟨target, d⟩ := r
        have ht : target ∈ w.around e := mem_of_useOuterPdefOrDef houter
        have ht' : ∀ t ∈ some target, t ∈ w.around e := fun t h => by cases h; exact ht
        cases d with
        | pdef isConst =>
          obtain ⟨protoId, hproto⟩ := getChildEnvPrototypeId_some ht
          obtain ⟨w₁, cel, hadd, hadds, hcel, hhas⟩ := addRefToAllPenv_some id ht' isConst
          have hset : AddsRefs w₁ (w₁.setRef cel (w₁.refKey cel id) fklVarRefInvalidCidx true) :=
            addsRefs_setRef ..
          obtain ⟨idx, hidx⟩ := hcel.grow hset.grows
          rw [hset.grows.refKey] at hidx
          simp only [hproto, hadd, Option.bind_some]
          rw [hset.grows.refKey, hidx, Option.bind_some]
          apply HasRef.finish (hhas.grow hset.grows) (hadds.trans hset)
          exact addsRefs_modifyBase (.of_eq rfl)
        | symDef def' =>
          obtain ⟨w₁, cel, hadd, hadds, hcel, hhas⟩ := addRefToAllPenv_some id ht' def'.2.isConst
          have hset : AddsRefs w₁ (w₁.setRef cel (w₁.refKey cel id) def'.2.idx true) :=
            addsRefs_setRef ..
          simp only [hadd, Option.bind_some]
          apply HasRef.finish (hhas.grow hset.grows) (hadds.trans hset)
          exact addsRefs_modifyBase (.of_eq rfl)
      | none =>
        dsimp only
        cases href : w.hasOuterRef id (w.around e) with
        | none => exact hunbound p
        | some r =>
          obtain ⟨target, el⟩ := r
          dsimp only
          split
          · have ht : ∀ t ∈ (w.envs target).prev, t ∈ w.around e := fun t h' =>
              prev_mem_around h he (mem_of_hasOuterRef href) h'
            obtain ⟨w₁, cel, hadd, hadds, hcel, hhas⟩ := addRefToAllPenv_some id ht el.isConst
            simp only [hadd, Option.bind_some]
            exact HasRef.finish hhas hadds (.refl w₁)
          · exact hunbound p

end FakeLisp.CgWorld
