import FakeLisp.CgWorldRefs

/-! Resolving the references of an environment only adds references, and it goes through when the
closures that wait have their prototypes. -/

namespace FakeLisp.CgWorld

variable {S V K L : Type} [DecidableEq S] [DecidableEq V] [DecidableEq K]
  {w w' : CgWorld S V K L} {e scope : Nat} {args : FklResolveRefArgs}
  {weakRefs : Option (FklVMvalueWeakHashEq S)}

theorem Grows.outerOlder (h : Grows w w') (hold : OuterOlder w) : OuterOlder w' := by
  intro e p hp
  rw [h.prev] at hp
  exact hold e p hp

def HasProto (w : CgWorld S V K L) (u : FklUnbound S) : Prop := (w.envs u.env).proto.isSome

theorem HasProto.grow {u u' : FklUnbound S} (h : w.HasProto u) (hgrows : Grows w w')
    (henv : u'.env = u.env) : w'.HasProto u' := by
  rw [HasProto, henv, hgrows.proto]
  exact h

/-! The first loop. -/

theorem resolveRound_some (hold : OuterOlder w) (he : e < w.envCount)
    {urefs1 : List (FklUnbound S)} {i : Nat} {u : FklUnbound S}
    (hu : (w.envs e).base.uref[i]? = some u) (hpt : scope ≤ u.scope → w.HasProto u) :
    ∃ w' urefs1', resolveRound args weakRefs e scope (w, urefs1) i = some (w', urefs1') ∧
      AddsRefs w w' ∧ ∀ u' ∈ urefs1', u' ∈ urefs1 ∨ u'.env = u.env := by
  have hkeep : ∀ u' ∈ urefs1, u' ∈ urefs1 ∨ u'.env = u.env := fun u' h => .inl h
  have hsnoc : ∀ u₁ : FklUnbound S, u₁.env = u.env →
      ∀ u' ∈ urefs1 ++ [u₁], u' ∈ urefs1 ∨ u'.env = u.env := by
    intro u₁ h₁ u' h
    obtain h | h := List.mem_append.mp h
    · exact .inl h
    · rw [List.mem_singleton.mp h]
      exact .inr h₁
  unfold resolveRound
  simp only [hu, bind, pure, Option.bind_some]
  by_cases hscope : u.scope < scope
  · rw [if_pos hscope]
    exact ⟨w, _, rfl, .refl w, hsnoc u rfl⟩
  · rw [if_neg hscope]
    obtain ⟨pt, hpt⟩ := Option.isSome_iff_exists.mp (hpt (by omega))
    simp only [hpt, Option.bind_some]
    cases hdef : fklFindSymbolDef1 (w.envs e).base u.scope u.sid with
    | some def' =>
      have hslot : AddsRefs w (w.modifyBase e (·.setSlotRef def'.2.idx)) :=
        addsRefs_modifyBase (.of_eq rfl)
      exact ⟨_, _, rfl, hslot.trans (addsRefs_patchRef ..), hkeep⟩
    | none =>
      dsimp only
      split
      · refine ⟨_, _, rfl, addsRefs_modifyBase fun j u' hu' => ?_, hsnoc _ rfl⟩
        dsimp only
        by_cases hij : i = j
        · rw [← hij] at hu' ⊢
          rw [hu, Option.some_inj] at hu'
          rw [List.getElem?_set_self (List.getElem?_eq_some_iff.mp hu).1, ← hu']
          exact ⟨_, rfl, rfl⟩
        · rw [List.getElem?_set_ne hij]
          exact ⟨u', hu', rfl⟩
      · split
        · obtain ⟨w₁, cidx, hadd, hadds, -⟩ := fklAddCgRefBySid_some hold he u.sid u.assign
          rw [hadd, Option.bind_some]
          exact ⟨_, _, rfl, hadds.trans (addsRefs_patchRef ..), hkeep⟩
        · refine ⟨_, _, rfl, ?_, ?_⟩
          · split
            · exact .refl w
            · exact addsRefs_insertRef ..
          · split
            · exact hsnoc u rfl
            · exact hkeep

theorem resolveRound_adds (hold : OuterOlder w) (he : e < w.envCount)
    {urefs1 : List (FklUnbound S)} {i : Nat} {st : CgWorld S V K L × List (FklUnbound S)}
    (h : resolveRound args weakRefs e scope (w, urefs1) i = some st) : AddsRefs w st.1 := by
  have huref : ∃ u, (w.envs e).base.uref[i]? = some u ∧ (scope ≤ u.scope → w.HasProto u) := by
    unfold resolveRound at h
    obtain ⟨u, hu, h⟩ := Option.bind_eq_some_iff.mp h
    refine ⟨u, hu, fun hscope => ?_⟩
    rw [if_neg (by omega)] at h
    obtain ⟨-, -, h⟩ := Option.bind_eq_some_iff.mp h
    obtain ⟨pt, hpt, -⟩ := Option.bind_eq_some_iff.mp h
    exact Option.isSome_iff_exists.mpr ⟨pt, hpt⟩
  obtain ⟨u, hu, hpt⟩ := huref
  obtain ⟨w', urefs1', hrun, hadds, -⟩ := resolveRound_some hold he hu hpt
  rw [hrun, Option.some_inj] at h
  rwa [← h]

theorem resolveLoop_adds (hold : OuterOlder w) (he : e < w.envCount) {is : List Nat}
    {urefs1 : List (FklUnbound S)} {st : CgWorld S V K L × List (FklUnbound S)}
    (h : is.foldlM (resolveRound args weakRefs e scope) (w, urefs1) = some st) :
    AddsRefs w st.1 := by
  induction is generalizing w urefs1 with
  | nil =>
    obtain rfl : (w, urefs1) = st := Option.some_inj.mp h
    exact .refl w
  | cons i is ih =>
    rw [List.foldlM_cons] at h
    obtain ⟨⟨w₁, urefs1₁⟩, hround, h⟩ := Option.bind_eq_some_iff.mp h
    have hadds : AddsRefs w w₁ := resolveRound_adds hold he hround
    exact hadds.trans (ih (hadds.grows.outerOlder hold) (by rwa [hadds.grows.envCount]) h)

theorem resolveLoop_some (hold : OuterOlder w) (he : e < w.envCount) {is : List Nat}
    {urefs1 : List (FklUnbound S)} (hurefs1 : ∀ u ∈ urefs1, w.HasProto u)
    (his : ∀ i ∈ is, ∃ u, (w.envs e).base.uref[i]? = some u ∧ w.HasProto u) :
    ∃ w' urefs1', is.foldlM (resolveRound args weakRefs e scope) (w, urefs1) = some (w', urefs1') ∧
      ∀ u ∈ urefs1', w'.HasProto u := by
  induction is generalizing w urefs1 with
  | nil => exact ⟨w, urefs1, rfl, hurefs1⟩
  | cons i is ih =>
    obtain ⟨u, hu, hpt⟩ := his i List.mem_cons_self
    obtain ⟨w₁, urefs1₁, hround, hadds, hkeep⟩ :=
      @resolveRound_some _ _ _ _ _ _ _ w e scope args weakRefs hold he urefs1 i u hu fun _ => hpt
    rw [List.foldlM_cons, hround]
    apply ih (hadds.grows.outerOlder hold) (by rwa [hadds.grows.envCount])
    · intro u' hu'
      obtain hold | hnew := hkeep u' hu'
      · exact (hurefs1 u' hold).grow hadds.grows rfl
      · exact hpt.grow hadds.grows hnew
    · intro j hj
      obtain ⟨u', hu', hpt'⟩ := his j (List.mem_cons_of_mem _ hj)
      obtain ⟨u'', hu'', henv⟩ := hadds.urefs e j u' hu'
      exact ⟨u'', hu'', hpt'.grow hadds.grows henv⟩

/-! The second loop. -/

theorem grows_varRefCount (n : Nat) : Grows w { w with varRefCount := n } :=
  ⟨rfl, rfl, fun _ => ⟨_, _, rfl⟩, fun _ _ _ h => h, fun _ h => h⟩

theorem putBackRound_some {weak : Option (WeakRefs S)} {u : FklUnbound S}
    (hpt : weak.isSome → w.HasProto u) :
    ∃ st, putBackRound e (w, weak) u = some st ∧ Grows w st.1 := by
  have hback := @grows_modifyBase _ _ _ _ _ _ _ w e fun base =>
    { base with uref := base.uref ++ [u] }
  unfold putBackRound
  cases weak with
  | none => exact ⟨_, rfl, hback⟩
  | some t =>
    obtain ⟨pt, hpt⟩ := Option.isSome_iff_exists.mp ((hpt rfl).grow hback rfl)
    simp only [hpt, bind, pure, Option.bind_some]
    cases t.ht.get u.sid with
    | none =>
      exact ⟨_, rfl, (hback.trans (grows_varRefCount _)).trans (grows_patchRef ..)⟩
    | some ref => exact ⟨_, rfl, hback.trans (grows_patchRef ..)⟩

theorem putBackRound_grows {weak : Option (WeakRefs S)} {u : FklUnbound S}
    {st : CgWorld S V K L × Option (WeakRefs S)} (h : putBackRound e (w, weak) u = some st) :
    Grows w st.1 := by
  have hpt : weak.isSome → w.HasProto u := fun hsome => by
    obtain ⟨t, rfl⟩ := Option.isSome_iff_exists.mp hsome
    unfold putBackRound at h
    obtain ⟨pt, hpt, -⟩ := Option.bind_eq_some_iff.mp h
    refine HasProto.grow (u := u) ?_ (.refl w) rfl
    rw [modifyBase, envs_modify] at hpt
    have hsame : (w.envs u.env).proto = some pt := by
      split at hpt
      · rename_i heq
        rw [heq]
        exact hpt
      · exact hpt
    exact Option.isSome_iff_exists.mpr ⟨pt, hsame⟩
  obtain ⟨st', hrun, hgrows⟩ := @putBackRound_some _ _ _ _ _ _ _ w e weak u hpt
  rw [hrun, Option.some_inj] at h
  rwa [← h]

theorem putBackLoop_grows {us : List (FklUnbound S)} {weak : Option (WeakRefs S)}
    {st : CgWorld S V K L × Option (WeakRefs S)}
    (h : us.foldlM (putBackRound e) (w, weak) = some st) : Grows w st.1 := by
  induction us generalizing w weak with
  | nil =>
    obtain rfl : (w, weak) = st := Option.some_inj.mp h
    exact .refl w
  | cons u us ih =>
    rw [List.foldlM_cons] at h
    obtain ⟨⟨w₁, weak₁⟩, hround, h⟩ := Option.bind_eq_some_iff.mp h
    have hgrows : Grows w w₁ := putBackRound_grows hround
    exact hgrows.trans (ih h)

theorem putBackLoop_some {us : List (FklUnbound S)} {weak : Option (WeakRefs S)}
    (hus : ∀ u ∈ us, w.HasProto u) : ∃ st, us.foldlM (putBackRound e) (w, weak) = some st := by
  induction us generalizing w weak with
  | nil => exact ⟨_, rfl⟩
  | cons u us ih =>
    obtain ⟨⟨w₁, weak₁⟩, hround, hgrows⟩ :=
      @putBackRound_some _ _ _ _ _ _ _ w e weak u fun _ => hus u List.mem_cons_self
    rw [List.foldlM_cons, hround]
    exact ih fun u' hu' => (hus u' (List.mem_cons_of_mem _ hu')).grow hgrows rfl

/-! Both. -/

theorem fklResolveRef_grows (hold : OuterOlder w) (he : e < w.envCount)
    {r : CgWorld S V K L × Option (FklVMvalueWeakHashEq S)}
    (h : w.fklResolveRef e scope args weakRefs = some r) : Grows w r.1 := by
  unfold fklResolveRef at h
  obtain ⟨⟨w₁, urefs1⟩, hloop, h⟩ := Option.bind_eq_some_iff.mp h
  obtain ⟨⟨w₂, weak⟩, hback, h⟩ := Option.bind_eq_some_iff.mp h
  obtain rfl : (w₂, weak.map (·.ht)) = r := Option.some_inj.mp h
  have hfirst : Grows w w₁ := (resolveLoop_adds hold he hloop).grows
  have hsecond : Grows (w₁.modifyBase e _) w₂ := putBackLoop_grows hback
  exact (hfirst.trans (grows_modifyBase e _)).trans hsecond

theorem fklResolveRef_some (hold : OuterOlder w) (he : e < w.envCount)
    (hurefs : ∀ u ∈ (w.envs e).base.uref, w.HasProto u) :
    ∃ r, w.fklResolveRef e scope args weakRefs = some r := by
  have his : ∀ i ∈ List.range (w.envs e).base.uref.length,
      ∃ u, (w.envs e).base.uref[i]? = some u ∧ w.HasProto u := fun i hi => by
    have hlt := List.mem_range.mp hi
    exact ⟨_, List.getElem?_eq_getElem hlt, hurefs _ (List.getElem_mem hlt)⟩
  have hnone : ∀ u ∈ ([] : List (FklUnbound S)), w.HasProto u := fun u h => by cases h
  obtain ⟨w₁, urefs1, hloop, hpts⟩ :=
    @resolveLoop_some _ _ _ _ _ _ _ w e scope args weakRefs hold he _ [] hnone his
  have hclear := @grows_modifyBase _ _ _ _ _ _ _ w₁ e fun base => { base with uref := [] }
  obtain ⟨⟨w₂, weak⟩, hback⟩ := @putBackLoop_some _ _ _ _ _ _ _ _ e urefs1.reverse
    (weakRefs.map fun ht => ⟨ht, makeIdTable ht⟩)
    fun u hu => (hpts u (List.mem_reverse.mp hu)).grow hclear rfl
  refine ⟨(w₂, weak.map (·.ht)), ?_⟩
  simp only [fklResolveRef, hloop, hback, bind, Option.bind_some, pure]

end FakeLisp.CgWorld
