import FakeLisp.AnalysisTable
import FakeLisp.ExceptFold

/-! What is in a state of the analysis table: the actions that its links and items give, in some
order. -/

namespace FakeLisp

theorem FklGrammerSym.type_term {sym : FklGrammerSym} {t : FklLalrItemLookAhead}
    (h : sym.term = some t) : t.t = sym.type := by
  cases sym <;> cases h <;> rfl

theorem FklGrammerSym.term_inj {sym sym' : FklGrammerSym} {t : FklLalrItemLookAhead}
    (h : sym.term = some t) (h' : sym'.term = some t) : sym = sym' := by
  cases sym <;> cases h <;> cases sym' <;> simp_all [FklGrammerSym.term]

theorem la_ne_of_mem_priority {la : FklLalrItemLookAhead} (h : la.t ∈ grammerSymPriority) :
    la ≠ .eof ∧ la ≠ .none := by
  constructor
  · rintro rfl
    simp [grammerSymPriority, FklGrammerSym.type, FklLalrItemLookAhead.t] at h
  · rintro rfl
    simp [grammerSymPriority, FklGrammerSym.type, FklLalrItemLookAhead.t] at h

abbrev FklLalrItemSetHashMapNode := ExploreNode (List FklLalrItem) FklLalrItemSetLink

/-- The shift that a link gives at a priority. -/
def linkActions (priority : Nat) (ll : FklLalrItemSetLink) : List FklAnalysisStateAction :=
  if ll.sym.type = priority then (createShiftAction ll.sym ll.allowIgnore ll.dst).toList else []

def linkGotos (priority : Nat) (ll : FklLalrItemSetLink) : List FklAnalysisStateGoto :=
  match ll.sym with
  | .nonterm nt =>
    if priority = (.keyword 0 : FklGrammerSym).type ∧ ll.allowIgnore ∨
      priority = (.string 0 : FklGrammerSym).type ∧ !ll.allowIgnore then
        [createStateGoto nt ll.allowIgnore ll.dst]
    else []
  | _ => []

/-- The reduction that an item gives, or the action on ignored text. -/
def itemAction (il : FklLalrItem) : FklAnalysisStateAction :=
  if il.la = .ignore then createIgnoreAction else createReduceAction il.prod il.la

def itemActions (priority : Nat) (il : FklLalrItem) : List FklAnalysisStateAction :=
  if il.getItemNext = none ∧ il.la.t = priority then [itemAction il] else []

open FklGrammer in
def setActions (set : FklLalrItemSetHashMapNode) (priority : Nat) : List FklAnalysisStateAction :=
  set.edges.flatMap (linkActions priority) ++
    if isOnlySingleWayToReduce set then [] else set.key.flatMap (itemActions priority)

def setGotos (set : FklLalrItemSetHashMapNode) (priority : Nat) : List FklAnalysisStateGoto :=
  set.edges.flatMap (linkGotos priority)

/-- Two actions that are not on the same. Those on ignored text are all the same. -/
def Apart (a b : FklAnalysisStateAction) : Prop :=
  a.m.t ≠ b.m.t ∨ a.m.t = .ignore ∨
    a.action.Takes ∧ b.action.Takes ∧ a.m.allowIgnore ≠ b.m.allowIgnore

theorem Apart.symm {a b : FklAnalysisStateAction} (h : Apart a b) : Apart b a := by
  by_cases ht : a.m.t = b.m.t
  · rcases h with h | h | ⟨ha, hb, h⟩
    · exact absurd ht h
    · exact Or.inr (Or.inl (ht ▸ h))
    · exact Or.inr (Or.inr ⟨hb, ha, h.symm⟩)
  · exact Or.inl (Ne.symm ht)

/-! Insertion. -/

theorem insertAction_perm (stop : FklAnalysisStateAction → Bool) (a : FklAnalysisStateAction)
    (actions : List FklAnalysisStateAction) : (insertAction stop a actions).Perm (a :: actions)
    := by
  induction actions with
  | nil => exact List.Perm.refl _
  | cons cur actions ih =>
    rw [insertAction]
    split_ifs
    · exact List.Perm.refl _
    · exact (ih.cons cur).trans (List.Perm.swap a cur actions)

theorem insertActionFrom_perm (curType : Nat) (stop : FklAnalysisStateAction → Bool)
    (a : FklAnalysisStateAction) (actions : List FklAnalysisStateAction) :
    (insertActionFrom curType stop a actions).Perm (a :: actions) := by
  induction actions with
  | nil => exact List.Perm.refl _
  | cons cur actions ih =>
    rw [insertActionFrom]
    split_ifs
    · exact insertAction_perm stop a _
    · exact (ih.cons cur).trans (List.Perm.swap a cur actions)

theorem checkReduceConflict_iff {actions : List FklAnalysisStateAction}
    {la : FklLalrItemLookAhead} : checkReduceConflict actions la = true ↔
      (∃ b ∈ actions, b.m.t = la) ∧ la ≠ .eof ∧ la ≠ .none ∧ la ≠ .ignore := by
  have hequal : ∀ m : FklAnalysisStateActionMatch, lalrLookaheadAndActionMatchEqual m la = true ↔
      m.t = la ∧ la ≠ .eof ∧ la ≠ .none ∧ la ≠ .ignore := by
    intro m
    cases la <;> simp [lalrLookaheadAndActionMatchEqual]
  simp only [checkReduceConflict, List.any_eq_true, hequal]
  exact ⟨fun ⟨b, hb, heq, hla⟩ => ⟨⟨b, hb, heq⟩, hla⟩, fun ⟨⟨b, hb, heq⟩, hla⟩ => ⟨b, hb, heq, hla⟩⟩

/-! Actions and gotos that are there, in some order. -/

structure Made (as : List FklAnalysisStateAction) (gs : List FklAnalysisStateGoto)
    (s : FklGrammer.TableState) : Prop where
  action : s.action.Perm as
  gt : s.gt.Perm gs

namespace FklGrammer

variable {g : FklGrammer} {set : FklLalrItemSetHashMapNode} {s s' : TableState}
  {as : List FklAnalysisStateAction} {gs : List FklAnalysisStateGoto} {priority : Nat}

theorem addShiftAction_ok {actions actions' : List FklAnalysisStateAction} {sym : FklGrammerSym}
    {allowIgnore : Bool} {dst : Nat}
    (h : g.addShiftAction priority actions sym allowIgnore dst = .ok actions') :
    actions'.Perm ((createShiftAction sym allowIgnore dst).toList ++ actions) := by
  unfold addShiftAction at h
  split at h
  · next a ha =>
    cases h
    rw [ha]
    exact insertActionFrom_perm _ _ a actions
  · cases h

theorem linkActions_nonterm {ll : FklLalrItemSetLink} {nt : Nat} (h : ll.sym = .nonterm nt) :
    linkActions priority ll = [] := by
  have hshift : createShiftAction ll.sym ll.allowIgnore ll.dst = none := by
    rw [h]
    rfl
  simp [linkActions, hshift]

theorem linkGotos_term {ll : FklLalrItemSetLink} (h : ∀ nt, ll.sym ≠ .nonterm nt) :
    linkGotos priority ll = [] := by
  unfold linkGotos
  split
  · next nt hsym => exact absurd hsym (h nt)
  · rfl

theorem addLink_made (hs : Made as gs s) {ll : FklLalrItemSetLink}
    (h : g.addLink priority s ll = .ok s') :
    Made (as ++ linkActions priority ll) (gs ++ linkGotos priority ll) s' := by
  unfold addLink at h
  split at h
  · next nt hsym =>
    rw [linkActions_nonterm hsym, List.append_nil]
    simp only [linkGotos, hsym]
    split_ifs at h ⊢
    · cases h
      exact ⟨hs.action, (hs.gt.cons _).trans (List.perm_append_singleton _ gs).symm⟩
    · cases h
      exact ⟨hs.action, by simpa using hs.gt⟩
  · next hne =>
    rw [linkGotos_term hne, List.append_nil]
    unfold linkActions
    split_ifs at h ⊢
    · obtain ⟨actions, hactions, rfl⟩ := Except.map_eq_ok.mp h
      refine ⟨(addShiftAction_ok hactions).trans ?_, hs.gt⟩
      exact (List.perm_append_comm).trans (hs.action.append_right _)
    · cases h
      exact ⟨by simpa using hs.action, hs.gt⟩

/-- The reduction that is added is on nothing that is there already. -/
theorem addItem_made (hs : Made as gs s) {il : FklLalrItem}
    (h : g.addItem priority s il = .ok s') :
    Made (as ++ itemActions priority il) gs s' ∧
      ∀ a ∈ itemActions priority il, a.m.t ≠ .ignore → a.m.t ≠ .eof → a.m.t ≠ .none →
        ∀ b ∈ as, b.m.t ≠ a.m.t := by
  unfold addItem at h
  unfold itemActions
  split_ifs at h ⊢ with hp hign
  · cases h
    refine ⟨⟨?_, hs.gt⟩, ?_⟩
    · simp only [itemAction, hign, if_true]
      exact (insertAction_perm _ _ _).trans
        ((hs.action.cons _).trans (List.perm_append_singleton _ as).symm)
    · simp [itemAction, hign, createIgnoreAction]
  · obtain ⟨actions, hactions, rfl⟩ := Except.map_eq_ok.mp h
    unfold addReduceAction at hactions
    split_ifs at hactions with hcheck
    cases hactions
    simp only [itemAction, hign, if_false]
    refine ⟨⟨(insertActionFrom_perm _ _ _ _).trans
      ((hs.action.cons _).trans (List.perm_append_singleton _ as).symm), hs.gt⟩, ?_⟩
    intro a ha _ heof hnone b hb heq
    obtain rfl := List.mem_singleton.mp ha
    exact hcheck (checkReduceConflict_iff.mpr
      ⟨⟨b, (hs.action.mem_iff).mpr hb, heq⟩, heof, hnone, hign⟩)
  · cases h
    exact ⟨⟨by simpa using hs.action, hs.gt⟩, by simp⟩

/-! What the actions are on. -/

theorem mem_linkActions {ll : FklLalrItemSetLink} {a : FklAnalysisStateAction}
    (h : a ∈ linkActions priority ll) :
    ll.sym.term = some a.m.t ∧ a.m.allowIgnore = ll.allowIgnore ∧ a.action = .shift ll.dst ∧
      a.m.t.t = priority := by
  unfold linkActions at h
  split_ifs at h with hp
  · unfold createShiftAction at h
    split at h
    · next t ht =>
      obtain rfl := Option.mem_toList.mp h |> Option.some.inj
      refine ⟨ht, rfl, rfl, ?_⟩
      rw [← hp]
      exact FklGrammerSym.type_term ht
    · simp at h
  · simp at h

theorem mem_itemActions {il : FklLalrItem} {a : FklAnalysisStateAction} :
    a ∈ itemActions priority il ↔
      il.getItemNext = none ∧ il.la.t = priority ∧ a = itemAction il := by
  unfold itemActions
  split_ifs with h
  · simp [h]
  · simpa using fun h1 h2 => absurd ⟨h1, h2⟩ h

@[simp] theorem itemAction_t (il : FklLalrItem) : (itemAction il).m.t = il.la := by
  unfold itemAction
  split_ifs with h
  · exact h.symm
  · rfl

theorem type_of_mem_setActions {a : FklAnalysisStateAction} (h : a ∈ setActions set priority) :
    a.m.t.t = priority := by
  unfold setActions at h
  rcases List.mem_append.mp h with h | h
  · obtain ⟨ll, _, ha⟩ := List.mem_flatMap.mp h
    exact (mem_linkActions ha).2.2.2
  · split_ifs at h
    · simp at h
    · obtain ⟨il, _, ha⟩ := List.mem_flatMap.mp h
      obtain ⟨_, hla, rfl⟩ := mem_itemActions.mp ha
      simpa using hla

/-! The loops. -/

theorem edges_made (hs : Made as gs s)
    (h : set.edges.foldlM (g.addLink priority) s = .ok s') :
    Made (as ++ set.edges.flatMap (linkActions priority))
      (gs ++ setGotos set priority) s' := by
  refine foldlM_ok (P := fun done s => Made (as ++ done.flatMap (linkActions priority))
    (gs ++ done.flatMap (linkGotos priority)) s) h (by simpa using hs) ?_
  intro done ll rest t t' _ hP ht
  simpa using addLink_made hP ht

/-- The links of a state differ in their symbols or in passing over ignored text. -/
def LinksApart (set : FklLalrItemSetHashMapNode) : Prop :=
  set.edges.Pairwise fun l l' => l.sym = l'.sym → l.allowIgnore ≠ l'.allowIgnore

theorem edges_apart (h : LinksApart set) (priority : Nat) :
    (set.edges.flatMap (linkActions priority)).Pairwise Apart := by
  refine List.pairwise_flatMap.mpr ⟨fun ll _ => ?_, h.imp fun hll a ha b hb => ?_⟩
  · unfold linkActions
    split_ifs
    · cases createShiftAction ll.sym ll.allowIgnore ll.dst <;> simp
    · simp
  · obtain ⟨hta, haa, hsa, _⟩ := mem_linkActions ha
    obtain ⟨htb, hab, hsb, _⟩ := mem_linkActions hb
    by_cases ht : a.m.t = b.m.t
    · refine Or.inr (Or.inr ⟨by rw [hsa]; trivial, by rw [hsb]; trivial, ?_⟩)
      rw [haa, hab]
      exact hll (FklGrammerSym.term_inj (hta.trans (by rw [ht])) htb)
    · exact Or.inl ht

theorem items_made (hp : priority ∈ grammerSymPriority) (hs : Made as gs s)
    (hapart : as.Pairwise Apart) {items : List FklLalrItem}
    (h : items.foldlM (g.addItem priority) s = .ok s') :
    Made (as ++ items.flatMap (itemActions priority)) gs s' ∧
      (as ++ items.flatMap (itemActions priority)).Pairwise Apart := by
  refine foldlM_ok (P := fun done s => Made (as ++ done.flatMap (itemActions priority)) gs s ∧
    (as ++ done.flatMap (itemActions priority)).Pairwise Apart) h (by simpa using ⟨hs, hapart⟩) ?_
  rintro done il rest t t' - ⟨hmade, hpair⟩ ht
  obtain ⟨hmade', hcheck⟩ := addItem_made hmade ht
  refine ⟨by simpa using hmade', ?_⟩
  rw [List.flatMap_append, List.flatMap_singleton, ← List.append_assoc, List.pairwise_append]
  refine ⟨hpair, ?_, fun b hb a ha => ?_⟩
  · unfold itemActions
    split_ifs <;> simp
  · obtain ⟨_, hla, rfl⟩ := mem_itemActions.mp ha
    by_cases hign : il.la = .ignore
    · exact Apart.symm (Or.inr (Or.inl (by simpa using hign)))
    · have hne := la_ne_of_mem_priority (hla ▸ hp)
      exact Or.inl (hcheck _ ha (by simpa using hign) (by simpa using hne.1)
        (by simpa using hne.2) b hb)

theorem addPriority_made (hlinks : LinksApart set) (hp : priority ∈ grammerSymPriority)
    (hs : Made as gs s) (hapart : as.Pairwise Apart) (hnew : ∀ a ∈ as, a.m.t.t ≠ priority)
    (h : g.addPriority set s priority = .ok s') :
    Made (as ++ setActions set priority) (gs ++ setGotos set priority) s' ∧
      (as ++ setActions set priority).Pairwise Apart := by
  unfold addPriority at h
  obtain ⟨t, ht, h⟩ := Except.bind_eq_ok.mp h
  have hmade := edges_made hs ht
  have hpair : (as ++ set.edges.flatMap (linkActions priority)).Pairwise Apart := by
    refine List.pairwise_append.mpr ⟨hapart, edges_apart hlinks priority, fun a ha b hb => ?_⟩
    obtain ⟨ll, _, hb⟩ := List.mem_flatMap.mp hb
    refine Or.inl fun heq => hnew a ha ?_
    rw [heq]
    exact (mem_linkActions hb).2.2.2
  unfold setActions
  split_ifs at h ⊢ with hsingle
  · cases h
    simpa using ⟨hmade, hpair⟩
  · rw [← List.append_assoc]
    exact items_made hp hmade hpair h

theorem priorities_made (hlinks : LinksApart set) {ps : List Nat} (hnodup : ps.Nodup)
    (hsub : ps ⊆ grammerSymPriority) (h : ps.foldlM (g.addPriority set) ⟨[], [], false⟩ = .ok s) :
    Made (ps.flatMap (setActions set)) (ps.flatMap (setGotos set)) s ∧
      (ps.flatMap (setActions set)).Pairwise Apart := by
  refine foldlM_ok (P := fun done s => Made (done.flatMap (setActions set))
    (done.flatMap (setGotos set)) s ∧ (done.flatMap (setActions set)).Pairwise Apart) h ?_ ?_
  · exact ⟨⟨List.Perm.refl _, List.Perm.refl _⟩, List.Pairwise.nil⟩
  · rintro done p rest t t' rfl ⟨hmade, hpair⟩ ht
    have hpnew : p ∉ done := fun hmem => (List.nodup_append.mp hnodup).2.2 p hmem p (by simp) rfl
    have := addPriority_made hlinks (hsub (by simp)) hmade hpair (fun a ha heq => ?_) ht
    · simpa using this
    · obtain ⟨q, hq, ha⟩ := List.mem_flatMap.mp ha
      exact hpnew (heq ▸ type_of_mem_setActions ha ▸ hq)

/-- The default reduction of a state that is only there to reduce. -/
def singleActions (set : FklLalrItemSetHashMapNode) : List FklAnalysisStateAction :=
  if isOnlySingleWayToReduce set then
    (set.key.head?.map fun item => createReduceAction item.prod .eof).toList
  else []

theorem single_made (hs : Made as gs s) (hapart : as.Pairwise Apart)
    (htypes : ∀ a ∈ as, a.m.t.t ∈ grammerSymPriority)
    (h : g.addSingleWay set s = .ok s') :
    Made (as ++ singleActions set) gs s' ∧ (as ++ singleActions set).Pairwise Apart := by
  unfold addSingleWay at h
  unfold singleActions
  split_ifs at h ⊢ with hsingle
  · split at h
    · next item items hkey =>
      obtain ⟨actions, hactions, rfl⟩ := Except.map_eq_ok.mp h
      unfold addReduceAction at hactions
      split_ifs at hactions
      cases hactions
      simp only [hkey, List.head?_cons, Option.map_some, Option.toList_some]
      refine ⟨⟨(insertActionFrom_perm _ _ _ _).trans
        ((hs.action.cons _).trans (List.perm_append_singleton _ as).symm), hs.gt⟩, ?_⟩
      refine List.pairwise_append.mpr ⟨hapart, by simp, fun a ha b hb => Or.inl fun heq => ?_⟩
      obtain rfl := List.mem_singleton.mp hb
      exact (la_ne_of_mem_priority (htypes a ha)).1 heq
    · cases h
  · cases h
    simpa using ⟨hs, hapart⟩

/-- The actions of a state apart from an action on ignored text in the first one. -/
def nodeActions (set : FklLalrItemSetHashMapNode) : List FklAnalysisStateAction :=
  grammerSymPriority.flatMap (setActions set) ++ singleActions set

theorem analysisState_made (hlinks : LinksApart set) {idx : Nat} {st : FklAnalysisState}
    (h : g.analysisState idx set = .ok st) :
    st.gt.Perm (grammerSymPriority.flatMap (setGotos set)) ∧ (nodeActions set).Pairwise Apart ∧
      (st.action.Perm (nodeActions set) ∨
        idx = 0 ∧ st.action.Perm (nodeActions set ++ [createIgnoreAction])) := by
  unfold analysisState at h
  obtain ⟨t, ht, h⟩ := Except.bind_eq_ok.mp h
  obtain ⟨hmade, hpair⟩ := priorities_made hlinks (by decide) (List.Subset.refl _) ht
  have htypes : ∀ a ∈ grammerSymPriority.flatMap (setActions set),
      a.m.t.t ∈ grammerSymPriority := by
    intro a ha
    obtain ⟨p, hp, ha⟩ := List.mem_flatMap.mp ha
    exact type_of_mem_setActions ha ▸ hp
  obtain ⟨t', ht', h⟩ := Except.bind_eq_ok.mp h
  obtain ⟨hmade', hpair'⟩ := single_made hmade hpair htypes ht'
  split_ifs at h with hidx
  · cases h
    refine ⟨hmade'.gt, hpair', Or.inr ⟨hidx.1, (insertAction_perm _ _ _).trans ?_⟩⟩
    exact (hmade'.action.cons _).trans (List.perm_append_singleton _ _).symm
  · cases h
    exact ⟨hmade'.gt, hpair', Or.inl hmade'.action⟩

end FklGrammer

end FakeLisp
