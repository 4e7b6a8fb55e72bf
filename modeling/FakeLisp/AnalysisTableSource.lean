import FakeLisp.AnalysisTableDet

/-! Where the actions and gotos of a state come from, whatever its links are. -/

namespace FakeLisp

namespace FklGrammer

/-- A shift or a goto is along a link, and a reduction is of the production of an item. -/
structure Sourced (set : FklLalrItemSetHashMapNode) (actions : List FklAnalysisStateAction)
    (gotos : List FklAnalysisStateGoto) : Prop where
  action : ∀ a ∈ actions, a = createIgnoreAction ∨
    (∃ ll ∈ set.edges, ll.sym.term = some a.m.t ∧ a.action = .shift ll.dst) ∨
    ∃ il ∈ set.key, a.action = reduceEnum il.prod
  gt : ∀ gt ∈ gotos, ∃ ll ∈ set.edges, ll.sym = .nonterm gt.nt ∧ ll.dst = gt.state

variable {g : FklGrammer} {set : FklLalrItemSetHashMapNode} {s s' : TableState} {priority : Nat}

theorem made_self (s : TableState) : Made s.action s.gt s := ⟨List.Perm.refl _, List.Perm.refl _⟩

theorem mem_linkGotos {ll : FklLalrItemSetLink} {gt : FklAnalysisStateGoto}
    (h : gt ∈ linkGotos priority ll) : ll.sym = .nonterm gt.nt ∧ ll.dst = gt.state := by
  unfold linkGotos at h
  split at h
  · next nt hsym =>
    split_ifs at h
    · obtain rfl := List.mem_singleton.mp h
      exact ⟨hsym, rfl⟩
    · cases h
  · cases h

theorem Sourced.addLink (h : Sourced set s.action s.gt) {ll : FklLalrItemSetLink}
    (hll : ll ∈ set.edges) (hrun : g.addLink priority s ll = .ok s') :
    Sourced set s'.action s'.gt := by
  have hmade := addLink_made (made_self s) hrun
  constructor
  · intro a ha
    rcases List.mem_append.mp (hmade.action.mem_iff.mp ha) with ha | ha
    · exact h.action a ha
    · obtain ⟨ht, -, hshift, -⟩ := mem_linkActions ha
      exact Or.inr (Or.inl ⟨ll, hll, ht, hshift⟩)
  · intro gt hgt
    rcases List.mem_append.mp (hmade.gt.mem_iff.mp hgt) with hgt | hgt
    · exact h.gt gt hgt
    · exact ⟨ll, hll, mem_linkGotos hgt⟩

theorem Sourced.addItem (h : Sourced set s.action s.gt) {il : FklLalrItem} (hil : il ∈ set.key)
    (hrun : g.addItem priority s il = .ok s') : Sourced set s'.action s'.gt := by
  obtain ⟨hmade, -⟩ := addItem_made (made_self s) hrun
  refine ⟨fun a ha => ?_, fun gt hgt => h.gt gt (hmade.gt.mem_iff.mp hgt)⟩
  rcases List.mem_append.mp (hmade.action.mem_iff.mp ha) with ha | ha
  · exact h.action a ha
  · obtain ⟨-, -, rfl⟩ := mem_itemActions.mp ha
    unfold itemAction
    split_ifs
    · exact Or.inl rfl
    · exact Or.inr (Or.inr ⟨il, hil, rfl⟩)

theorem Sourced.edges (h : Sourced set s.action s.gt)
    (hrun : set.edges.foldlM (g.addLink priority) s = .ok s') : Sourced set s'.action s'.gt := by
  refine foldlM_ok_inv (P := fun s => Sourced set s.action s.gt) hrun h ?_
  intro ll hll t t' ht hstep
  exact ht.addLink hll hstep

theorem Sourced.addPriority (h : Sourced set s.action s.gt)
    (hrun : g.addPriority set s priority = .ok s') : Sourced set s'.action s'.gt := by
  obtain ⟨t, ht, hrun⟩ := Except.bind_eq_ok.mp hrun
  have hedges := h.edges ht
  split_ifs at hrun
  · cases hrun
    exact hedges
  · refine foldlM_ok_inv (P := fun s => Sourced set s.action s.gt) hrun hedges ?_
    intro il hil t t' ht hstep
    exact ht.addItem hil hstep

theorem Sourced.addSingleWay (h : Sourced set s.action s.gt)
    (hrun : g.addSingleWay set s = .ok s') : Sourced set s'.action s'.gt := by
  unfold FklGrammer.addSingleWay at hrun
  split_ifs at hrun
  · split at hrun
    · next item items hkey =>
      obtain ⟨actions, hactions, rfl⟩ := Except.map_eq_ok.mp hrun
      unfold addReduceAction at hactions
      split_ifs at hactions
      cases hactions
      refine ⟨fun a ha => ?_, h.gt⟩
      rcases List.mem_cons.mp ((insertActionFrom_perm _ _ _ _).mem_iff.mp ha) with rfl | ha
      · exact Or.inr (Or.inr ⟨item, by simp [hkey], rfl⟩)
      · exact h.action a ha
    · cases hrun
  · cases hrun
    exact h

theorem Sourced.addIgnoreAction {actions : List FklAnalysisStateAction}
    {gotos : List FklAnalysisStateGoto} (h : Sourced set actions gotos) :
    Sourced set (addIgnoreAction actions) gotos := by
  refine ⟨fun a ha => ?_, h.gt⟩
  rcases List.mem_cons.mp ((insertAction_perm _ _ _).mem_iff.mp ha) with rfl | ha
  · exact Or.inl rfl
  · exact h.action a ha

theorem analysisState_sourced {idx : Nat} {st : FklAnalysisState}
    (h : g.analysisState idx set = .ok st) : Sourced set st.action st.gt := by
  unfold analysisState at h
  obtain ⟨t, ht, h⟩ := Except.bind_eq_ok.mp h
  have hpriorities : Sourced set t.action t.gt := by
    refine foldlM_ok_inv (P := fun s => Sourced set s.action s.gt) ht ⟨by simp, by simp⟩ ?_
    exact fun _ _ _ _ ht hstep => ht.addPriority hstep
  obtain ⟨t', ht', h⟩ := Except.bind_eq_ok.mp h
  have hsingle := hpriorities.addSingleWay ht'
  split_ifs at h
  · cases h
    exact hsingle.addIgnoreAction
  · cases h
    exact hsingle

/-- A state with a link over a delimiter is not made. -/
theorem analysisState_no_ignore {idx : Nat} {st : FklAnalysisState}
    (h : g.analysisState idx set = .ok st) {ll : FklLalrItemSetLink} (hll : ll ∈ set.edges) :
    ll.sym ≠ .ignore := by
  intro hsym
  unfold analysisState at h
  obtain ⟨t, ht, -⟩ := Except.bind_eq_ok.mp h
  have hpriority : FklGrammerSym.ignore.type ∈ grammerSymPriority := by simp [grammerSymPriority]
  obtain ⟨u, u', hu⟩ := foldlM_ok_step ht hpriority
  obtain ⟨v, hv, -⟩ := Except.bind_eq_ok.mp hu
  obtain ⟨w, w', hw⟩ := foldlM_ok_step hv hll
  unfold FklGrammer.addLink at hw
  rw [hsym] at hw
  cases hw

/-- Each state of a table is made of one set. -/
theorem fklGenerateLalrAnalyzeTable_sourced {sets : FklLalrItemSetHashMap}
    {table : FklAnalysisTable}
    (h : g.fklGenerateLalrAnalyzeTable sets = some (false, table)) :
    (∀ (i : Nat) st, table[i]? = some st → ∃ set, sets[i]? = some set ∧
      Sourced set st.action st.gt) ∧
    ∀ set ∈ sets, ∀ ll ∈ set.edges, ll.sym ≠ .ignore := by
  unfold fklGenerateLalrAnalyzeTable at h
  split at h
  · next table' hok =>
    cases h
    obtain ⟨hlen, hall⟩ := analysisStates_ok hok
    refine ⟨fun i st hst => ?_, fun set hset ll hll => ?_⟩
    · have hi : i < sets.length := hlen ▸ (List.getElem?_eq_some_iff.mp hst).1
      obtain ⟨st', hst', hmade⟩ := hall i _ (List.getElem?_eq_getElem hi)
      obtain rfl := Option.some.inj (hst.symm.trans hst')
      exact ⟨_, List.getElem?_eq_getElem hi, analysisState_sourced hmade⟩
    · obtain ⟨i, hi⟩ := List.mem_iff_getElem?.mp hset
      obtain ⟨st, -, hmade⟩ := hall i set hi
      exact analysisState_no_ignore hmade hll
  · cases h
  · cases h

end FklGrammer

end FakeLisp
