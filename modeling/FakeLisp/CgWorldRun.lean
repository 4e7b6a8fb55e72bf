import FakeLisp.CgProtoResolve

/-! The numbers that environments give out: each stays that of what it was given out for. -/

namespace FakeLisp.CgWorld

variable {S V K L : Type} [DecidableEq S] [DecidableEq V] [DecidableEq K]
  {w w' w'' : CgWorld S V K L} {e : Nat}

/-! The invariant. -/

def konstIdx (id : Nat) : Nat := id - 1

structure KonstsPlaced (t : FklValueTable V) : Prop where
  placed : t.ht.Placed konstIdx
  nextId : t.nextId = t.ht.entries.length + 1

structure Invariant (w : CgWorld S V K L) : Prop where
  older : OuterOlder w
  fresh : ∀ e, w.envCount ≤ e → (w.envs e).prev = none
  refs : ∀ e, (w.envs e).refs.Placed (·.idx)
  konsts : ∀ e, KonstsPlaced (w.envs e).konsts
  libs : ∀ e, (w.envs e).usedLibraries.Placed (·.id)
  child : ∀ c p, (w.envs c).prev = some p →
    (w.envs p).childProcProtos[(w.envs c).protoId]? = some (w.envs c).proto
  siblings : ∀ c c' p, (w.envs c).prev = some p → (w.envs c').prev = some p →
    (w.envs c).protoId = (w.envs c').protoId → c = c'

def Handout.Valid (w : CgWorld S V K L) : Handout S V K L → Prop
  | .ref e id idx => e < w.envCount ∧ ∃ scope, w.refIdx e ⟨id, scope⟩ = some idx
  | .konst e v idx => e < w.envCount ∧
      ∃ id, (w.envs e).konsts.ht.get v = some id ∧ konstIdx id = idx
  | .child e c protoId => (w.envs c).prev = some e ∧ (w.envs c).protoId = protoId
  | .lib e key l id => e < w.envCount ∧ (w.envs e).usedLibraries.get key = some ⟨id, l⟩

/-- What a step keeps. -/
structure Keeps (w w' : CgWorld S V K L) : Prop where
  invariant : Invariant w'
  valid : ∀ h : Handout S V K L, h.Valid w → h.Valid w'

theorem Keeps.trans (h : Keeps w w') (h' : Keeps w' w'') : Keeps w w'' :=
  ⟨h'.invariant, fun o ho => h'.valid o (h.valid o ho)⟩

/-! Steps that only insert into the tables of environments. -/

structure EnvKeeps (env env' : FklVMvalueCgEnv S V K L) : Prop where
  prev : env'.prev = env.prev
  protoId : env'.protoId = env.protoId
  childProcProtos : env'.childProcProtos = env.childProcProtos
  proto : env'.proto = env.proto
  refs : env.refs.Placed (·.idx) → env'.refs.Placed (·.idx)
  konsts : KonstsPlaced env.konsts → KonstsPlaced env'.konsts
  libs : env.usedLibraries.Placed (·.id) → env'.usedLibraries.Placed (·.id)
  refIdx : ∀ key idx, (env.refs.get key).map (·.idx) = some idx →
    (env'.refs.get key).map (·.idx) = some idx
  konst : ∀ v id, env.konsts.ht.get v = some id → env'.konsts.ht.get v = some id
  lib : ∀ key id, env.usedLibraries.get key = some id → env'.usedLibraries.get key = some id

theorem EnvKeeps.refl (env : FklVMvalueCgEnv S V K L) : EnvKeeps env env :=
  ⟨rfl, rfl, rfl, rfl, id, id, id, fun _ _ => id, fun _ _ => id, fun _ _ => id⟩

theorem keeps_of_envKeeps (hsame : ∀ e, EnvKeeps (w.envs e) (w'.envs e))
    (hcount : w'.envCount = w.envCount) (h : Invariant w) : Keeps w w' where
  invariant :=
    { older := fun e p hp => h.older e p (by rwa [(hsame e).prev] at hp)
      fresh := fun e he => by
        rw [(hsame e).prev]
        exact h.fresh e (hcount ▸ he)
      refs := fun e => (hsame e).refs (h.refs e)
      konsts := fun e => (hsame e).konsts (h.konsts e)
      libs := fun e => (hsame e).libs (h.libs e)
      child := fun c p hp => by
        rw [(hsame c).prev] at hp
        rw [(hsame p).childProcProtos, (hsame c).protoId, (hsame c).proto]
        exact h.child c p hp
      siblings := fun c c' p hc hc' hid => by
        rw [(hsame c).prev] at hc
        rw [(hsame c').prev] at hc'
        rw [(hsame c).protoId, (hsame c').protoId] at hid
        exact h.siblings c c' p hc hc' hid }
  valid o ho := by
    cases o with
    | ref e id idx =>
      obtain ⟨he, scope, hidx⟩ := ho
      exact ⟨hcount ▸ he, scope, (hsame e).refIdx _ _ hidx⟩
    | konst e v idx =>
      obtain ⟨he, id, hget, hidx⟩ := ho
      exact ⟨hcount ▸ he, id, (hsame e).konst v id hget, hidx⟩
    | child e c protoId => rwa [Handout.Valid, (hsame c).prev, (hsame c).protoId]
    | lib e key l id => exact ⟨hcount ▸ ho.1, (hsame e).lib _ _ ho.2⟩

theorem Grows.keeps (hgrows : Grows w w') (h : Invariant w) : Keeps w w' := by
  refine keeps_of_envKeeps (fun e => ?_) hgrows.envCount h
  refine ⟨hgrows.prev e, hgrows.protoId e, hgrows.childProcProtos e, hgrows.proto e,
    hgrows.placed e, ?_, ?_, hgrows.refIdx e, ?_, ?_⟩
  · rw [hgrows.konsts]
    exact id
  · rw [hgrows.usedLibraries]
    exact id
  · rw [hgrows.konsts]
    exact fun _ _ => id
  · rw [hgrows.usedLibraries]
    exact fun _ _ => id

theorem keeps_modify {f : FklVMvalueCgEnv S V K L → FklVMvalueCgEnv S V K L}
    (hf : EnvKeeps (w.envs e) (f (w.envs e))) (h : Invariant w) : Keeps w (w.modify e f) := by
  refine keeps_of_envKeeps (fun e' => ?_) rfl h
  rw [envs_modify]
  split
  · rename_i heq
    rw [heq]
    exact hf
  · exact .refl _

/-! Constants and libraries. -/

theorem KonstsPlaced.add {t : FklValueTable V} (h : KonstsPlaced t) (v : V) :
    KonstsPlaced (fklValueTableAdd t v).2 := by
  unfold fklValueTableAdd
  split
  · exact h
  · rename_i hnone
    refine ⟨h.placed.add ?_, ?_⟩
    · rw [konstIdx, h.nextId, Nat.add_sub_cancel]
    · dsimp only
      rw [InsertionMap.entries_add_of_none hnone, h.nextId, List.length_append]
      rfl

theorem get_fklValueTableAdd (t : FklValueTable V) (v : V) :
    (fklValueTableAdd t v).2.ht.get v = some (fklValueTableAdd t v).1 := by
  unfold fklValueTableAdd
  split
  · assumption
  · rename_i hnone
    dsimp only
    rw [InsertionMap.get_add_self, hnone, Option.getD_none]

theorem get_fklValueTableAdd_of_get {t : FklValueTable V} {v' : V} {id : Nat} (v : V)
    (h : t.ht.get v' = some id) : (fklValueTableAdd t v).2.ht.get v' = some id := by
  unfold fklValueTableAdd
  split
  · exact h
  · exact InsertionMap.get_add_of_get h

theorem addKonst_keeps (h : Invariant w) (v : V) (he : e < w.envCount) :
    Keeps w (w.addKonst v e).1 ∧
      (Handout.konst e v (w.addKonst v e).2 : Handout S V K L).Valid (w.addKonst v e).1 := by
  have hstep : (w.addKonst v e).1 = w.modify e fun env =>
      { env with konsts := (fklValueTableAdd (w.envs e).konsts v).2 } := rfl
  constructor
  · rw [hstep]
    refine keeps_modify ?_ h
    exact ⟨rfl, rfl, rfl, rfl, id, fun hk => hk.add v, id, fun _ _ => id,
      fun _ _ => get_fklValueTableAdd_of_get v, fun _ _ => id⟩
  · refine ⟨he, _, ?_, rfl⟩
    rw [hstep, envs_modify, if_pos rfl]
    exact get_fklValueTableAdd (w.envs e).konsts v

theorem addUsedLib_keeps (h : Invariant w) (key : K) (lib : L) (he : e < w.envCount) :
    Keeps w (w.fklVMvalueCgEnvAddUsedLib e key lib).1 ∧
      (Handout.lib e key (w.fklVMvalueCgEnvAddUsedLib e key lib).2.lib
        (w.fklVMvalueCgEnvAddUsedLib e key lib).2.id : Handout S V K L).Valid
        (w.fklVMvalueCgEnvAddUsedLib e key lib).1 := by
  cases hkey : (w.envs e).usedLibraries.get key with
  | some id =>
    have hstep : w.fklVMvalueCgEnvAddUsedLib e key lib = (w, id) := by
      rw [fklVMvalueCgEnvAddUsedLib, hkey]
    rw [hstep]
    exact ⟨⟨h, fun _ ho => ho⟩, he, hkey⟩
  | none =>
    let new : FklLibId L := ⟨(w.envs e).usedLibraries.entries.length, lib⟩
    have hstep : w.fklVMvalueCgEnvAddUsedLib e key lib = (w.modify e fun env =>
        { env with usedLibraries := env.usedLibraries.add keyEquiv_eq key new }, new) := by
      rw [fklVMvalueCgEnvAddUsedLib, hkey]
    rw [hstep]
    refine ⟨?_, he, ?_⟩
    · dsimp only
      refine keeps_modify ?_ h
      exact ⟨rfl, rfl, rfl, rfl, id, id, fun hl => hl.add rfl, fun _ _ => id, fun _ _ => id,
        fun _ _ => InsertionMap.get_add_of_get⟩
    · rw [envs_modify, if_pos rfl]
      dsimp only
      rw [InsertionMap.get_add_self, hkey, Option.getD_none]

/-! New environments. -/

section Create

variable {prev : Option Nat} {parentScope : Nat} {isDebugging : Bool}

theorem createEnv_new : ∃ base debugging,
    (w.fklCreateVMvalueCgEnv prev parentScope isDebugging).envs w.envCount =
      { base, parentScope, prev
        protoId := match prev with
          | some p => (w.envs p).childProcProtos.length
          | none => fklTopEnvProtoId
        refs := .empty
        konsts := fklInitValueTable
        childProcProtos := []
        usedLibraries := .empty
        isDebugging := debugging
        proto := none } := by
  unfold fklCreateVMvalueCgEnv
  exact ⟨_, _, Function.update_self ..⟩

theorem createEnv_old (he : e ≠ w.envCount) : ∃ childProcProtos,
    (w.fklCreateVMvalueCgEnv prev parentScope isDebugging).envs e =
      { w.envs e with childProcProtos } ∧
    (childProcProtos = (w.envs e).childProcProtos ++ [none] ∨
      prev ≠ some e ∧ childProcProtos = (w.envs e).childProcProtos) := by
  unfold fklCreateVMvalueCgEnv
  dsimp only
  rw [Function.update_of_ne he]
  cases prev with
  | none => exact ⟨_, rfl, .inr ⟨nofun, rfl⟩⟩
  | some p =>
    dsimp only
    rw [envs_modify]
    split
    · rename_i heq
      rw [← heq]
      exact ⟨_, rfl, .inl rfl⟩
    · rename_i hne
      exact ⟨_, rfl, .inr ⟨fun h => hne (Option.some_inj.mp h).symm, rfl⟩⟩

theorem createEnv_keeps (h : Invariant w) (hprev : ∀ p ∈ prev, p < w.envCount) :
    Keeps w (w.fklCreateVMvalueCgEnv prev parentScope isDebugging) := by
  obtain ⟨base, debugging, hnew⟩ :=
    @createEnv_new _ _ _ _ _ _ _ w prev parentScope isDebugging
  have hold : ∀ e, e ≠ w.envCount → ∃ childProcProtos,
      (w.fklCreateVMvalueCgEnv prev parentScope isDebugging).envs e =
        { w.envs e with childProcProtos } ∧
      (childProcProtos = (w.envs e).childProcProtos ++ [none] ∨
        prev ≠ some e ∧ childProcProtos = (w.envs e).childProcProtos) :=
    fun e he => createEnv_old he
  generalize hw' : w.fklCreateVMvalueCgEnv prev parentScope isDebugging = w' at hnew hold ⊢
  have hcount : w'.envCount = w.envCount + 1 := by
    rw [← hw']
    rfl
  have hlt : ∀ c p, (w.envs c).prev = some p → c < w.envCount := fun c p hp => by
    by_contra hge
    rw [h.fresh c (by omega)] at hp
    cases hp
  have hprev' : ∀ c p, c ≠ w.envCount → (w'.envs c).prev = some p → (w.envs c).prev = some p := by
    intro c p hc hp
    obtain ⟨_, hc, -⟩ := hold c hc
    rwa [hc] at hp
  refine ⟨⟨?_, ?_, ?_, ?_, ?_, ?_, ?_⟩, ?_⟩
  · intro c p hp
    by_cases hc : c = w.envCount
    · rw [hc, hnew] at hp
      exact hc ▸ hprev p hp
    · exact h.older c p (hprev' c p hc hp)
  · intro c hc
    obtain ⟨_, hc', -⟩ := hold c (by omega)
    rw [hc']
    exact h.fresh c (by omega)
  · intro c
    by_cases hc : c = w.envCount
    · rw [hc, hnew]
      exact InsertionMap.placed_empty
    · obtain ⟨_, hc, -⟩ := hold c hc
      rw [hc]
      exact h.refs c
  · intro c
    by_cases hc : c = w.envCount
    · rw [hc, hnew]
      exact ⟨InsertionMap.placed_empty, rfl⟩
    · obtain ⟨_, hc, -⟩ := hold c hc
      rw [hc]
      exact h.konsts c
  · intro c
    by_cases hc : c = w.envCount
    · rw [hc, hnew]
      exact InsertionMap.placed_empty
    · obtain ⟨_, hc, -⟩ := hold c hc
      rw [hc]
      exact h.libs c
  · intro c p hp
    by_cases hc : c = w.envCount
    · rw [hc, hnew] at hp ⊢
      dsimp only at hp ⊢
      obtain ⟨_, hp', hchild | ⟨hne, -⟩⟩ := hold p (hprev p hp).ne
      · rw [hp', hp, hchild]
        exact List.getElem?_concat_length
      · exact absurd hp hne
    · have hp := hprev' c p hc hp
      have hpc := h.older c p hp
      have hc' := hlt c p hp
      have hget := h.child c p hp
      obtain ⟨_, hcenv, -⟩ := hold c hc
      obtain ⟨_, hpenv, hchild | ⟨-, hchild⟩⟩ := hold p (by omega)
      · rw [hcenv, hpenv, hchild]
        exact (List.getElem?_append_left (List.getElem?_eq_some_iff.mp hget).1).trans hget
      · rw [hcenv, hpenv, hchild]
        exact hget
  · have hdistinct : ∀ c p, c ≠ w.envCount → (w'.envs c).prev = some p → prev = some p →
        (w'.envs c).protoId ≠ (w'.envs w.envCount).protoId := by
      intro c p hc hp hnewp hid
      have hget := h.child c p (hprev' c p hc hp)
      obtain ⟨_, hcenv, -⟩ := hold c hc
      rw [hcenv, hnew, hnewp] at hid
      dsimp only at hid
      rw [hid] at hget
      exact (List.getElem?_eq_some_iff.mp hget).1.ne rfl
    intro c c' p hc hc' hid
    by_cases hcn : c = w.envCount
    · by_cases hcn' : c' = w.envCount
      · exact hcn.trans hcn'.symm
      · rw [hcn] at hc hid
        rw [hnew] at hc
        exact absurd hid.symm (hdistinct c' p hcn' hc' hc)
    · by_cases hcn' : c' = w.envCount
      · rw [hcn'] at hc' hid
        rw [hnew] at hc'
        exact absurd hid (hdistinct c p hcn hc hc')
      · obtain ⟨_, hcenv, -⟩ := hold c hcn
        obtain ⟨_, hcenv', -⟩ := hold c' hcn'
        rw [hcenv, hcenv'] at hid
        exact h.siblings c c' p (hprev' c p hcn hc) (hprev' c' p hcn' hc') hid
  · intro o ho
    cases o with
    | ref e id idx =>
      obtain ⟨he, scope, hidx⟩ := ho
      obtain ⟨_, henv, -⟩ := hold e he.ne
      refine ⟨by omega, scope, ?_⟩
      rw [refIdx, henv]
      exact hidx
    | konst e v idx =>
      obtain ⟨_, henv, -⟩ := hold e ho.1.ne
      refine ⟨by have := ho.1; omega, ?_⟩
      rw [henv]
      exact ho.2
    | child e c protoId =>
      obtain ⟨_, henv, -⟩ := hold c (hlt c e ho.1).ne
      rw [Handout.Valid, henv]
      exact ho
    | lib e key l id =>
      obtain ⟨_, henv, -⟩ := hold e ho.1.ne
      refine ⟨by have := ho.1; omega, ?_⟩
      rw [henv]
      exact ho.2

end Create

/-! Prototypes. -/

/-- The prototype `p` of `e` is put in its place at the parent. -/
structure ProtoMade (w w' : CgWorld S V K L) (e parent p : Nat) : Prop where
  envCount : w'.envCount = w.envCount
  atSelf : w'.envs e = { w.envs e with proto := some p }
  atParent : w'.envs parent = { w.envs parent with
    childProcProtos := (w.envs parent).childProcProtos.set (w.envs e).protoId (some p) }
  others : ∀ e', e' ≠ e → e' ≠ parent → w'.envs e' = w.envs e'

section Proto

variable {parent p : Nat} {args : FklResolveRefArgs}
  {weakRefs weakRefs' : Option (FklVMvalueWeakHashEq S)}

theorem ProtoMade.frame (hmade : ProtoMade w w' e parent p) (c : Nat) : ∃ childProcProtos proto,
    w'.envs c = { w.envs c with childProcProtos, proto } := by
  by_cases hc : c = e
  · rw [hc, hmade.atSelf]
    exact ⟨_, _, rfl⟩
  · by_cases hcp : c = parent
    · rw [hcp, hmade.atParent]
      exact ⟨_, _, rfl⟩
    · rw [hmade.others c hc hcp]
      exact ⟨_, _, rfl⟩

theorem ProtoMade.child (hmade : ProtoMade w w' e parent p) (h : Invariant w)
    (hprev : (w.envs e).prev = some parent) {c q : Nat} (hq : (w.envs c).prev = some q) :
    (w'.envs q).childProcProtos[(w.envs c).protoId]? = some (w'.envs c).proto := by
  have hget := h.child c q hq
  by_cases hc : c = e
  · have hqp : q = parent := by
      rw [hc, hprev, Option.some_inj] at hq
      exact hq.symm
    rw [hqp] at hget
    rw [hc] at hget ⊢
    rw [hqp, hmade.atParent, hmade.atSelf]
    exact List.getElem?_set_self (List.getElem?_eq_some_iff.mp hget).1
  · have hproto : (w'.envs c).proto = (w.envs c).proto := by
      by_cases hcp : c = parent
      · rw [hcp, hmade.atParent]
      · rw [hmade.others c hc hcp]
    rw [hproto]
    by_cases hqp : q = parent
    · have hne : (w.envs e).protoId ≠ (w.envs c).protoId := fun hid =>
        hc (h.siblings c e parent (hqp ▸ hq) hprev hid.symm)
      rw [hqp] at hget ⊢
      rw [hmade.atParent]
      exact (List.getElem?_set_ne hne).trans hget
    · by_cases hqe : q = e
      · rw [hqe] at hget ⊢
        rw [hmade.atSelf]
        exact hget
      · rw [hmade.others q hqe hqp]
        exact hget

theorem ProtoMade.keeps (hmade : ProtoMade w w' e parent p) (h : Invariant w)
    (hprev : (w.envs e).prev = some parent) : Keeps w w' := by
  have hprev' : ∀ c, (w'.envs c).prev = (w.envs c).prev := fun c => by
    obtain ⟨_, _, hc⟩ := hmade.frame c
    rw [hc]
  have hid : ∀ c, (w'.envs c).protoId = (w.envs c).protoId := fun c => by
    obtain ⟨_, _, hc⟩ := hmade.frame c
    rw [hc]
  have hrefs : ∀ c, (w'.envs c).refs = (w.envs c).refs := fun c => by
    obtain ⟨_, _, hc⟩ := hmade.frame c
    rw [hc]
  have hkonsts : ∀ c, (w'.envs c).konsts = (w.envs c).konsts := fun c => by
    obtain ⟨_, _, hc⟩ := hmade.frame c
    rw [hc]
  have hlibs : ∀ c, (w'.envs c).usedLibraries = (w.envs c).usedLibraries := fun c => by
    obtain ⟨_, _, hc⟩ := hmade.frame c
    rw [hc]
  constructor
  · refine ⟨?_, ?_, ?_, ?_, ?_, ?_, ?_⟩
    · intro c q hq
      exact h.older c q (hprev' c ▸ hq)
    · intro c hc
      rw [hprev']
      exact h.fresh c (hmade.envCount ▸ hc)
    · intro c
      rw [hrefs]
      exact h.refs c
    · intro c
      rw [hkonsts]
      exact h.konsts c
    · intro c
      rw [hlibs]
      exact h.libs c
    · intro c q hq
      rw [hid]
      exact hmade.child h hprev (hprev' c ▸ hq)
    · intro c c' q hq hq' hids
      rw [hid, hid] at hids
      exact h.siblings c c' q (hprev' c ▸ hq) (hprev' c' ▸ hq') hids
  · intro o ho
    cases o with
    | ref e id idx =>
      obtain ⟨he, scope, hidx⟩ := ho
      exact ⟨hmade.envCount ▸ he, scope, by rwa [refIdx, hrefs]⟩
    | konst e v idx => rwa [Handout.Valid, hmade.envCount, hkonsts]
    | child e c protoId => rwa [Handout.Valid, hprev', hid]
    | lib e key l id => rwa [Handout.Valid, hmade.envCount, hlibs]

theorem createProto_some (h : Invariant w) (hpdef : (w.envs e).base.pdef = [])
    (hresolve : w.fklResolveRef e 1 args weakRefs = some (w'', weakRefs'))
    (hgrows : Grows w w'') (hprev : (w.envs e).prev = some parent) :
    ∃ w', w.fklCreateVMvalueProto3 e args weakRefs = some (w', w''.protoCount, weakRefs') ∧
      ProtoMade w'' w' e parent w''.protoCount ∧
      w'.protos w''.protoCount = makeProto (w''.envs e) weakRefs' := by
  have hinv := (hgrows.keeps h).invariant
  rw [← hgrows.prev] at hprev
  have hne : parent ≠ e := (hinv.older e parent hprev).ne
  have hlt := (List.getElem?_eq_some_iff.mp (hinv.child e parent hprev)).1
  unfold fklCreateVMvalueProto3 updateParentEnvProto
  simp only [hpdef, List.isEmpty_nil, if_true, hresolve, hprev, hlt, bind, Option.bind_some, pure]
  refine ⟨_, rfl, ⟨rfl, ?_, ?_, ?_⟩, Function.update_self ..⟩
  · rw [envs_modify, if_pos rfl, envs_modify, if_neg hne.symm]
  · rw [envs_modify, if_neg hne, envs_modify, if_pos rfl]
  · intro c hce hcp
    rw [envs_modify, if_neg hce, envs_modify, if_neg hcp]

theorem createProto_keeps (h : Invariant w) (he : e < w.envCount)
    {r : CgWorld S V K L × Nat × Option (FklVMvalueWeakHashEq S)}
    (hr : w.fklCreateVMvalueProto3 e args weakRefs = some r) : Keeps w r.1 := by
  have hparts : (w.envs e).base.pdef = [] ∧ ∃ w₁ weakRefs₁ parent,
      w.fklResolveRef e 1 args weakRefs = some (w₁, weakRefs₁) ∧
      (w₁.envs e).prev = some parent := by
    unfold fklCreateVMvalueProto3 at hr
    split at hr
    · rename_i hpdef
      obtain ⟨⟨w₁, weakRefs₁⟩, hresolve, hr⟩ := Option.bind_eq_some_iff.mp hr
      obtain ⟨w₂, hupdate, -⟩ := Option.bind_eq_some_iff.mp hr
      obtain ⟨parent, hparent, -⟩ := Option.bind_eq_some_iff.mp hupdate
      exact ⟨List.isEmpty_iff.mp hpdef, w₁, weakRefs₁, parent, hresolve, hparent⟩
    · cases hr
  obtain ⟨hpdef, w₁, weakRefs₁, parent, hresolve, hprev⟩ := hparts
  have hgrows : Grows w w₁ := fklResolveRef_grows h.older he hresolve
  obtain ⟨w', hrun, hmade, -⟩ := createProto_some h hpdef hresolve hgrows (hgrows.prev e ▸ hprev)
  rw [hrun, Option.some_inj] at hr
  rw [← hr]
  exact (hgrows.keeps h).trans (hmade.keeps (hgrows.keeps h).invariant hprev)

end Proto

/-! Runs. -/

theorem stepOp_keeps (h : Invariant w) {op : CgOp S V K L} (hop : op.Exists w)
    {hs : List (Handout S V K L)} (hstep : w.stepOp op = some (w', hs)) :
    Keeps w w' ∧ ∀ o ∈ hs, o.Valid w' := by
  cases op with
  | createEnv prev parentScope isDebugging =>
    obtain ⟨rfl, rfl⟩ := Prod.mk.inj (Option.some_inj.mp hstep)
    refine ⟨createEnv_keeps h hop, fun o ho => ?_⟩
    obtain ⟨p, hp, rfl⟩ := List.mem_map.mp ho
    obtain rfl : prev = some p := Option.mem_toList.mp hp
    obtain ⟨base, debugging, hnew⟩ :=
      @createEnv_new _ _ _ _ _ _ _ w (some p) parentScope isDebugging
    rw [Handout.Valid, hnew]
    exact ⟨rfl, rfl⟩
  | addRef id e assign =>
    obtain ⟨w₁, idx, hadd, hadds, scope, hidx⟩ := fklAddCgRefBySid_some h.older hop id assign
    rw [stepOp, hadd, Option.map_some, Option.some_inj] at hstep
    obtain ⟨rfl, rfl⟩ := Prod.mk.inj hstep
    refine ⟨hadds.grows.keeps h, fun o ho => ?_⟩
    rw [List.mem_singleton.mp ho]
    exact ⟨hadds.grows.envCount ▸ hop, scope, hidx⟩
  | addBuiltinRef id e =>
    have hgrows := @grows_insertRef _ _ _ _ _ _ _ w e (w.refKey e id) false
    obtain ⟨idx, hidx, hstep⟩ := Option.map_eq_some_iff.mp hstep
    obtain ⟨rfl, rfl⟩ := Prod.mk.inj hstep
    refine ⟨hgrows.keeps h, fun o ho => ?_⟩
    rw [List.mem_singleton.mp ho]
    exact ⟨hop, _, hidx⟩
  | addKonst v e =>
    obtain ⟨rfl, rfl⟩ := Prod.mk.inj (Option.some_inj.mp hstep)
    refine ⟨(addKonst_keeps h v hop).1, fun o ho => ?_⟩
    rw [List.mem_singleton.mp ho]
    exact (addKonst_keeps h v hop).2
  | addUsedLib e key lib =>
    obtain ⟨rfl, rfl⟩ := Prod.mk.inj (Option.some_inj.mp hstep)
    refine ⟨(addUsedLib_keeps h key lib hop).1, fun o ho => ?_⟩
    rw [List.mem_singleton.mp ho]
    exact (addUsedLib_keeps h key lib hop).2
  | changeBase e f =>
    obtain ⟨rfl, rfl⟩ := Prod.mk.inj (Option.some_inj.mp hstep)
    exact ⟨(grows_modifyBase e f).keeps h, nofun⟩
  | resolveRef e scope args weakRefs =>
    obtain ⟨r, hr, hstep⟩ := Option.map_eq_some_iff.mp hstep
    obtain ⟨rfl, rfl⟩ := Prod.mk.inj hstep
    exact ⟨(fklResolveRef_grows h.older hop hr).keeps h, nofun⟩
  | createProto e args weakRefs =>
    obtain ⟨r, hr, hstep⟩ := Option.map_eq_some_iff.mp hstep
    obtain ⟨rfl, rfl⟩ := Prod.mk.inj hstep
    exact ⟨createProto_keeps h hop hr, nofun⟩

theorem runOps_keeps (h : Invariant w) {ops : List (CgOp S V K L)} {hs : List (Handout S V K L)}
    (hrun : runOps w ops = some (w', hs)) : Keeps w w' ∧ ∀ o ∈ hs, o.Valid w' := by
  induction ops generalizing w hs with
  | nil =>
    obtain ⟨rfl, rfl⟩ := Prod.mk.inj (Option.some_inj.mp hrun)
    exact ⟨⟨h, fun _ ho => ho⟩, nofun⟩
  | cons op ops ih =>
    unfold runOps at hrun
    split at hrun
    · rename_i hop
      obtain ⟨⟨w₁, hs₁⟩, hstep, hrun⟩ := Option.bind_eq_some_iff.mp hrun
      obtain ⟨⟨w₂, later⟩, hlater, hrun⟩ := Option.bind_eq_some_iff.mp hrun
      obtain ⟨rfl, rfl⟩ := Prod.mk.inj (Option.some_inj.mp hrun)
      obtain ⟨hkeeps, hvalid⟩ := stepOp_keeps h hop hstep
      obtain ⟨hkeeps', hvalid'⟩ := ih hkeeps.invariant hlater
      refine ⟨hkeeps.trans hkeeps', fun o ho => ?_⟩
      obtain ho | ho := List.mem_append.mp ho
      · exact hkeeps'.valid o (hvalid o ho)
      · exact hvalid' o ho
    · cases hrun

end FakeLisp.CgWorld
