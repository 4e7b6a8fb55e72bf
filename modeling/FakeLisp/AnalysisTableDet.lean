import FakeLisp.AnalysisTableMade
import FakeLisp.Qsort

/-! Conflicts. The table is made unless two actions are on one lookahead, and then each link and
each item that is complete has its action. -/

namespace FakeLisp

namespace FklGrammer

variable {g : FklGrammer} {set : FklLalrItemSetHashMapNode} {s s' : TableState}
  {as : List FklAnalysisStateAction} {gs : List FklAnalysisStateGoto} {priority idx : Nat}

/-- The item can be reduced on its lookahead. The end of the input and ignored text are not looked
for. -/
def ReducesOn (il : FklLalrItem) (t : FklLalrItemLookAhead) : Prop :=
  il.getItemNext = none ∧ il.la = t ∧ t ≠ .eof ∧ t ≠ .none ∧ t ≠ .ignore

/-- Two actions on one lookahead, of which one at least is a reduction. -/
def Conflict (set : FklLalrItemSetHashMapNode) : Prop :=
  isOnlySingleWayToReduce set = false ∧ ∃ il ∈ set.key, ∃ t, ReducesOn il t ∧
    ((∃ ll ∈ set.edges, ll.sym.term = some t) ∨ ∃ il' ∈ set.key, il' ≠ il ∧ ReducesOn il' t)

/-! A conflict that is reported. -/

theorem addLink_ne_conflict (ll : FklLalrItemSetLink) :
    g.addLink priority s ll ≠ .error .conflict := by
  intro h
  unfold addLink at h
  split at h
  · split_ifs at h
  · split_ifs at h
    have := Except.map_eq_error.mp h
    unfold addShiftAction at this
    split at this <;> cases this

theorem addSingleWay_ne_conflict : g.addSingleWay set s ≠ .error .conflict := by
  intro h
  unfold addSingleWay at h
  split_ifs at h
  split at h
  · have := Except.map_eq_error.mp h
    unfold addReduceAction at this
    split_ifs at this with hcheck
    exact (checkReduceConflict_iff.mp hcheck).2.1 rfl
  · cases h

theorem addItem_conflict (hs : Made as gs s) {il : FklLalrItem}
    (h : g.addItem priority s il = .error .conflict) :
    il.la.t = priority ∧ ∃ t, ReducesOn il t ∧ ∃ b ∈ as, b.m.t = t := by
  unfold addItem at h
  split_ifs at h with hp hign
  have := Except.map_eq_error.mp h
  unfold addReduceAction at this
  split_ifs at this with hcheck
  obtain ⟨⟨b, hb, hbt⟩, heof, hnone, _⟩ := checkReduceConflict_iff.mp hcheck
  exact ⟨hp.2, il.la, ⟨hp.1, rfl, heof, hnone, hign⟩, b, hs.action.mem_iff.mp hb, hbt⟩

theorem addPriority_conflict (hlinks : LinksApart set) (hnodup : set.key.Nodup)
    (hp : priority ∈ grammerSymPriority) (hs : Made as gs s) (hapart : as.Pairwise Apart)
    (hnew : ∀ a ∈ as, a.m.t.t ≠ priority)
    (h : g.addPriority set s priority = .error .conflict) : Conflict set := by
  unfold addPriority at h
  rcases Except.bind_eq_error.mp h with h | ⟨t, ht, h⟩
  · obtain ⟨_, ll, _, _, _, _, h⟩ := foldlM_error h
    exact absurd h (addLink_ne_conflict ll)
  · split_ifs at h with hsingle
    · cases h
    have hmade := edges_made hs ht
    have hpair : (as ++ set.edges.flatMap (linkActions priority)).Pairwise Apart := by
      refine List.pairwise_append.mpr ⟨hapart, edges_apart hlinks priority, fun a ha b hb => ?_⟩
      obtain ⟨ll, _, hb⟩ := List.mem_flatMap.mp hb
      exact Or.inl fun heq => hnew a ha (heq ▸ (mem_linkActions hb).2.2.2)
    obtain ⟨done, il, rest, u, hkey, hdone, herr⟩ := foldlM_error h
    obtain ⟨hmade', _⟩ := items_made hp hmade hpair hdone
    obtain ⟨hla, t, hred, b, hb, hbt⟩ := addItem_conflict hmade' herr
    refine ⟨by simpa using hsingle, il, by simp [hkey], t, hred, ?_⟩
    -- what is on the same lookahead was added at this priority
    have hbp : b.m.t.t = priority := by rw [hbt, ← hred.2.1, hla]
    rcases List.mem_append.mp hb with hb | hb
    · rcases List.mem_append.mp hb with hb | hb
      · exact absurd hbp (hnew b hb)
      · obtain ⟨ll, hll, hb⟩ := List.mem_flatMap.mp hb
        exact Or.inl ⟨ll, hll, hbt ▸ (mem_linkActions hb).1⟩
    · obtain ⟨il', hil', hb⟩ := List.mem_flatMap.mp hb
      obtain ⟨hnext, _, rfl⟩ := mem_itemActions.mp hb
      rw [itemAction_t] at hbt
      refine Or.inr ⟨il', by simp [hkey, hil'], ?_, hnext, hbt, hred.2.2⟩
      rintro rfl
      rw [hkey] at hnodup
      exact (List.nodup_append.mp hnodup).2.2 il' hil' il' (by simp) rfl

theorem conflict_of_error (hlinks : LinksApart set) (hnodup : set.key.Nodup)
    (h : g.analysisState idx set = .error .conflict) : Conflict set := by
  unfold analysisState at h
  rcases Except.bind_eq_error.mp h with h | ⟨t, _, h⟩
  · obtain ⟨done, p, rest, u, hsplit, hdone, herr⟩ := foldlM_error h
    have hall : grammerSymPriority.Nodup := by decide
    rw [hsplit, List.nodup_append] at hall
    obtain ⟨hmade, hpair⟩ := priorities_made hlinks hall.1 (by simp [hsplit]) hdone
    refine addPriority_conflict hlinks hnodup (by simp [hsplit]) hmade hpair ?_ herr
    intro a ha heq
    obtain ⟨q, hq, ha⟩ := List.mem_flatMap.mp ha
    exact hall.2.2 q hq p (by simp) ((type_of_mem_setActions ha).symm.trans heq)
  · rcases Except.bind_eq_error.mp h with h | ⟨t', _, h⟩
    · exact absurd h addSingleWay_ne_conflict
    · split_ifs at h <;> cases h

/-! No conflict where the table is made. -/

theorem priority_of_reducesOn {il : FklLalrItem} {t : FklLalrItemLookAhead}
    (h : ReducesOn il t) : t.t ∈ grammerSymPriority := by
  obtain ⟨_, _, heof, hnone, _⟩ := h
  cases t <;> simp_all [grammerSymPriority, FklGrammerSym.type, FklLalrItemLookAhead.t]

theorem itemAction_of_reducesOn {il : FklLalrItem} {t : FklLalrItemLookAhead}
    (h : ReducesOn il t) : itemAction il ∈ itemActions t.t il ∧
      itemAction il = createReduceAction il.prod t := by
  obtain ⟨hnext, rfl, _, _, hign⟩ := h
  exact ⟨mem_itemActions.mpr ⟨hnext, rfl, rfl⟩, by simp [itemAction, hign]⟩

theorem not_takes_reduce (prod : FklGrammerProduction) (la : FklLalrItemLookAhead) :
    ¬(createReduceAction prod la).action.Takes := by
  unfold createReduceAction reduceEnum
  split_ifs <;> exact id

theorem mem_linkActions_of_term {ll : FklLalrItemSetLink} {t : FklLalrItemLookAhead}
    (h : ll.sym.term = some t) : ∃ a ∈ linkActions t.t ll, a.m.t = t ∧
      a.m.allowIgnore = ll.allowIgnore ∧ a.action = .shift ll.dst := by
  have hshift : ∃ a, createShiftAction ll.sym ll.allowIgnore ll.dst = some a := by
    unfold createShiftAction
    split
    · exact ⟨_, rfl⟩
    · next hnone => simp [hnone] at h
  obtain ⟨a, ha⟩ := hshift
  have hmem : a ∈ linkActions t.t ll := by
    simp [linkActions, FklGrammerSym.type_term h, ha]
  obtain ⟨ht, hi, hs, _⟩ := mem_linkActions hmem
  exact ⟨a, hmem, Option.some.inj (ht.symm.trans h), hi, hs⟩

theorem not_conflict_of_apart (hpair : (nodeActions set).Pairwise Apart) : ¬Conflict set := by
  rintro ⟨hsingle, il, hil, t, hred, hother⟩
  have hset : (setActions set t.t).Pairwise Apart :=
    (List.pairwise_flatMap.mp (List.pairwise_append.mp hpair).1).1 _ (priority_of_reducesOn hred)
  unfold setActions at hset
  rw [if_neg (by simp [hsingle]), List.pairwise_append] at hset
  obtain ⟨hmem, heq⟩ := itemAction_of_reducesOn hred
  have hnot : ∀ {a}, a.m.t = t → ¬Apart a (itemAction il) := by
    intro a ha h
    rw [heq] at h
    rcases h with h | h | ⟨_, h, _⟩
    · exact h ha
    · exact hred.2.2.2.2 (ha ▸ h)
    · exact not_takes_reduce _ _ h
  rcases hother with ⟨ll, hll, hterm⟩ | ⟨il', hil', hne, hred'⟩
  · obtain ⟨a, ha, hat, _⟩ := mem_linkActions_of_term hterm
    exact hnot hat (hset.2.2 a (List.mem_flatMap.mpr ⟨ll, hll, ha⟩) _
      (List.mem_flatMap.mpr ⟨il, hil, hmem⟩))
  · obtain ⟨hmem', _⟩ := itemAction_of_reducesOn hred'
    have hitems := (List.pairwise_flatMap.mp hset.2.1).2
    have hsymm : Std.Symm fun i j : FklLalrItem =>
        ∀ x ∈ itemActions t.t i, ∀ y ∈ itemActions t.t j, Apart x y :=
      ⟨fun i j h x hx y hy => (h y hy x hx).symm⟩
    refine hnot ?_ (hitems.forall hil' hil hne _ hmem' _ hmem)
    rw [itemAction_t]
    exact hred'.2.1

/-! The states of a table that is made. -/

theorem mem_nodeActions_link {ll : FklLalrItemSetLink} (hll : ll ∈ set.edges)
    {t : FklLalrItemLookAhead} (h : ll.sym.term = some t) : ∃ a ∈ nodeActions set, a.m.t = t ∧
      a.m.allowIgnore = ll.allowIgnore ∧ a.action = .shift ll.dst := by
  obtain ⟨a, ha, hrest⟩ := mem_linkActions_of_term h
  refine ⟨a, List.mem_append_left _ (List.mem_flatMap.mpr ⟨t.t, ?_, ?_⟩), hrest⟩
  · have hsym := FklGrammerSym.type_term h
    cases hs : ll.sym <;> simp_all [FklGrammerSym.term, grammerSymPriority, FklGrammerSym.type]
  · exact List.mem_append_left _ (List.mem_flatMap.mpr ⟨ll, hll, ha⟩)

theorem mem_nodeActions_item (hsingle : isOnlySingleWayToReduce set = false) {il : FklLalrItem}
    (hil : il ∈ set.key) {p : Nat} (hp : p ∈ grammerSymPriority)
    (h : itemAction il ∈ itemActions p il) :
    itemAction il ∈ nodeActions set := by
  refine List.mem_append_left _ (List.mem_flatMap.mpr ⟨p, hp, List.mem_append_right _ ?_⟩)
  rw [if_neg (by simp [hsingle])]
  exact List.mem_flatMap.mpr ⟨il, hil, h⟩

theorem mem_nodeActions {a : FklAnalysisStateAction} (h : a ∈ nodeActions set) :
    (∃ ll ∈ set.edges, ll.sym.term = some a.m.t ∧ a.m.allowIgnore = ll.allowIgnore ∧
        a.action = .shift ll.dst) ∨
      (∃ il ∈ set.key, il.getItemNext = none ∧ il.la = a.m.t ∧ a = itemAction il) ∨
      isOnlySingleWayToReduce set = true ∧ ∃ il, set.key.head? = some il ∧
        a = createReduceAction il.prod .eof := by
  rcases List.mem_append.mp h with h | h
  · obtain ⟨p, _, h⟩ := List.mem_flatMap.mp h
    rcases List.mem_append.mp h with h | h
    · obtain ⟨ll, hll, ha⟩ := List.mem_flatMap.mp h
      obtain ⟨ht, hi, hs, _⟩ := mem_linkActions ha
      exact Or.inl ⟨ll, hll, ht, hi, hs⟩
    · split_ifs at h
      · simp at h
      · obtain ⟨il, hil, ha⟩ := List.mem_flatMap.mp h
        obtain ⟨hnext, _, rfl⟩ := mem_itemActions.mp ha
        exact Or.inr (Or.inl ⟨il, hil, hnext, by simp, rfl⟩)
  · unfold singleActions at h
    split_ifs at h with hsingle
    · simp only [Option.mem_toList, Option.map_eq_some_iff] at h
      obtain ⟨il, hil, rfl⟩ := h
      exact Or.inr (Or.inr ⟨hsingle, il, hil, rfl⟩)
    · simp at h

/-- The actions of a state. Shifts on one terminal can differ in passing over ignored text, and a
reduction is on a terminal of its own. -/
structure StateActions (idx : Nat) (set : FklLalrItemSetHashMapNode) (st : FklAnalysisState) :
    Prop where
  apart : st.action.Pairwise Apart
  shift : ∀ ll ∈ set.edges, ∀ t, ll.sym.term = some t → ∃ a ∈ st.action, a.m.t = t ∧
    a.m.allowIgnore = ll.allowIgnore ∧ a.action = .shift ll.dst
  reduce : isOnlySingleWayToReduce set = false → ∀ il ∈ set.key, ∀ t, ReducesOn il t →
    createReduceAction il.prod t ∈ st.action
  ignore : isOnlySingleWayToReduce set = false → ∀ il ∈ set.key, il.getItemNext = none →
    il.la = .ignore → createIgnoreAction ∈ st.action
  single : isOnlySingleWayToReduce set = true → ∀ il ∈ set.key,
    createReduceAction il.prod .eof ∈ st.action ∧
      ∀ a ∈ st.action, a = createReduceAction il.prod .eof ∨ idx = 0 ∧ a = createIgnoreAction
  source : ∀ a ∈ st.action, (∃ ll ∈ set.edges, ll.sym.term = some a.m.t ∧
      a.m.allowIgnore = ll.allowIgnore ∧ a.action = .shift ll.dst) ∨
    (∃ il ∈ set.key, il.getItemNext = none ∧ il.la = a.m.t ∧ a = itemAction il) ∨
    (isOnlySingleWayToReduce set = true ∧ ∃ il, set.key.head? = some il ∧
      a = createReduceAction il.prod .eof) ∨ idx = 0 ∧ a = createIgnoreAction

/-- One production only. -/
theorem prod_eq_of_single (h : isOnlySingleWayToReduce set = true) {il il' : FklLalrItem}
    (hil : il ∈ set.key) (hil' : il' ∈ set.key) : il.prod = il'.prod := by
  simp only [isOnlySingleWayToReduce, Bool.and_eq_true, decide_eq_true_eq] at h
  obtain ⟨p, hp⟩ := List.length_eq_one_iff.mp h.1.2
  have hmem : ∀ {x}, x ∈ set.key → x.prod = p := fun {x} hx => by
    have := (mem_foldl_hashSetPut (fun item : FklLalrItem => item.prod) set.key (l := [])).mpr
      (Or.inr ⟨x, hx, rfl⟩)
    rw [hp] at this
    simpa using this
  rw [hmem hil, hmem hil']

theorem no_term_of_single (h : isOnlySingleWayToReduce set = true) {ll : FklLalrItemSetLink}
    (hll : ll ∈ set.edges) : ll.sym.term = none := by
  simp only [isOnlySingleWayToReduce, Bool.and_eq_true, List.all_eq_true] at h
  have := h.1.1 ll hll
  cases hs : ll.sym <;> simp_all [FklGrammerSym.term]

theorem stateActions_of_perm {st : FklAnalysisState} (hpair : (nodeActions set).Pairwise Apart)
    {extra : List FklAnalysisStateAction} (hextra : ∀ a ∈ extra, idx = 0 ∧ a = createIgnoreAction)
    (hone : extra.length ≤ 1) (h : st.action.Perm (nodeActions set ++ extra)) :
    StateActions idx set st := by
  have hmem : ∀ {a}, a ∈ nodeActions set → a ∈ st.action := fun ha =>
    h.mem_iff.mpr (List.mem_append_left _ ha)
  have hback : ∀ {a}, a ∈ st.action → a ∈ nodeActions set ∨ idx = 0 ∧ a = createIgnoreAction :=
    fun ha => (List.mem_append.mp (h.mem_iff.mp ha)).imp_right fun ha => hextra _ ha
  refine ⟨?_, fun ll hll t ht => ?_, fun hs il hil t hred => ?_, fun hs il hil hnext hla => ?_,
    fun hs il hil => ⟨?_, fun a ha => ?_⟩, fun a ha => ?_⟩
  · refine (h.pairwise_iff Apart.symm).mpr (List.pairwise_append.mpr ⟨hpair, ?_, ?_⟩)
    · rcases extra with _ | ⟨a, _ | ⟨b, extra⟩⟩
      · exact List.Pairwise.nil
      · exact List.pairwise_singleton _ a
      · simp at hone
    · rintro a _ b hb
      exact Apart.symm (Or.inr (Or.inl (by rw [(hextra b hb).2]; rfl)))
  · obtain ⟨a, ha, hrest⟩ := mem_nodeActions_link hll ht
    exact ⟨a, hmem ha, hrest⟩
  · obtain ⟨ha, heq⟩ := itemAction_of_reducesOn hred
    rw [← heq]
    exact hmem (mem_nodeActions_item hs hil (priority_of_reducesOn hred) ha)
  · have heq : itemAction il = createIgnoreAction := by simp [itemAction, hla]
    rw [← heq]
    exact hmem (mem_nodeActions_item hs hil (p := FklLalrItemLookAhead.ignore.t) (by decide)
      (mem_itemActions.mpr ⟨hnext, by rw [hla], rfl⟩))
  · obtain ⟨il', rest, hkey⟩ := List.exists_cons_of_ne_nil (List.ne_nil_of_mem hil)
    refine hmem (List.mem_append_right _ ?_)
    simp only [singleActions, hs, if_true, hkey, List.head?_cons, Option.map_some,
      Option.toList_some, List.mem_singleton]
    rw [prod_eq_of_single hs hil (by simp [hkey] : il' ∈ set.key)]
  · refine (hback ha).imp_left fun ha => ?_
    unfold nodeActions setActions at ha
    simp only [hs, if_true, List.append_nil, List.mem_append, List.mem_flatMap] at ha
    rcases ha with ⟨p, _, ll, hll, ha⟩ | ha
    · have := (mem_linkActions ha).1
      rw [no_term_of_single hs hll] at this
      cases this
    · simp only [singleActions, hs, if_true, Option.mem_toList, Option.map_eq_some_iff] at ha
      obtain ⟨il', hil', rfl⟩ := ha
      rw [prod_eq_of_single hs hil (List.mem_of_mem_head? hil')]
  · rcases hback ha with ha | ha
    · rcases mem_nodeActions ha with h | h | h
      · exact Or.inl h
      · exact Or.inr (Or.inl h)
      · exact Or.inr (Or.inr (Or.inl h))
    · exact Or.inr (Or.inr (Or.inr ha))

theorem analysisState_actions (hlinks : LinksApart set) {st : FklAnalysisState}
    (h : g.analysisState idx set = .ok st) : StateActions idx set st ∧ ¬Conflict set := by
  obtain ⟨_, hpair, hperm⟩ := analysisState_made hlinks h
  refine ⟨?_, not_conflict_of_apart hpair⟩
  rcases hperm with hperm | ⟨hidx, hperm⟩
  · exact stateActions_of_perm hpair (by simp) (List.length_nil.trans_le (Nat.zero_le 1))
      (by simpa using hperm)
  · exact stateActions_of_perm hpair (by simp [hidx]) (by simp) hperm

theorem analysisStates_ok {sets : FklLalrItemSetHashMap} {table : FklAnalysisTable}
    (h : g.analysisStates idx sets = .ok table) : table.length = sets.length ∧
      ∀ (i : Nat) set, sets[i]? = some set → ∃ st, table[i]? = some st ∧
        g.analysisState (idx + i) set = .ok st := by
  induction sets generalizing idx table with
  | nil =>
    cases h
    simp
  | cons set sets ih =>
    obtain ⟨st, hst, h⟩ := Except.bind_eq_ok.mp h
    obtain ⟨sts, hsts, h⟩ := Except.bind_eq_ok.mp h
    cases h
    obtain ⟨hlen, hall⟩ := ih hsts
    refine ⟨by simp [hlen], fun i set' hset' => ?_⟩
    cases i with
    | zero =>
      cases hset'
      exact ⟨st, rfl, hst⟩
    | succ i =>
      obtain ⟨st', hst', hok⟩ := hall i set' (by simpa using hset')
      exact ⟨st', by simpa using hst', by rw [← hok, Nat.add_assoc, Nat.add_comm 1 i]⟩

theorem analysisStates_error {sets : FklLalrItemSetHashMap} {e : TableFailure}
    (h : g.analysisStates idx sets = .error e) :
    ∃ i, ∃ set ∈ sets, g.analysisState i set = .error e := by
  induction sets generalizing idx with
  | nil => cases h
  | cons set sets ih =>
    rcases Except.bind_eq_error.mp h with h | ⟨st, _, h⟩
    · exact ⟨idx, set, by simp, h⟩
    · rcases Except.bind_eq_error.mp h with h | ⟨_, _, h⟩
      · obtain ⟨i, set', hset', h⟩ := ih h
        exact ⟨i, set', by simp [hset'], h⟩
      · cases h

theorem fklGenerateLalrAnalyzeTable_deterministic {sets : FklLalrItemSetHashMap}
    (hnodup : ∀ set ∈ sets, set.key.Nodup) (hlinks : ∀ set ∈ sets, LinksApart set)
    {hasConflict : Bool} {table : FklAnalysisTable}
    (h : g.fklGenerateLalrAnalyzeTable sets = some (hasConflict, table)) :
    (hasConflict = true ↔ ∃ set ∈ sets, Conflict set) ∧ (hasConflict = true → table = []) ∧
      (hasConflict = false → table.length = sets.length ∧ ∀ (i : Nat) set, sets[i]? = some set →
        ∃ st, table[i]? = some st ∧ StateActions i set st) := by
  unfold fklGenerateLalrAnalyzeTable at h
  split at h
  · next table' hok =>
    cases h
    obtain ⟨hlen, hall⟩ := analysisStates_ok hok
    refine ⟨⟨by simp, ?_⟩, by simp, fun _ => ⟨hlen, fun i set hset => ?_⟩⟩
    · rintro ⟨set, hset, hconf⟩
      obtain ⟨i, hi⟩ := List.mem_iff_getElem?.mp hset
      obtain ⟨st, _, hst⟩ := hall i set hi
      exact absurd hconf (analysisState_actions (hlinks set hset) hst).2
    · obtain ⟨st, hst, hmade⟩ := hall i set hset
      rw [Nat.zero_add] at hmade
      exact ⟨st, hst, (analysisState_actions (hlinks set (List.mem_of_getElem? hset)) hmade).1⟩
  · next herr =>
    cases h
    refine ⟨⟨fun _ => ?_, fun _ => rfl⟩, fun _ => rfl, by simp⟩
    obtain ⟨i, set, hset, herr⟩ := analysisStates_error herr
    exact ⟨set, hset, conflict_of_error (hlinks set hset) (hnodup set hset) herr⟩
  · cases h

/-- The item sets with all their items, on the lookaheads that these have. -/
def withLookaheads (g : FklGrammer) (la : FklLalrItem → FklLalrItemLookAhead)
    (sets : FklLalrItemSetHashMap) : FklLalrItemSetHashMap :=
  sets.map fun set =>
    ⟨(g.lr0ItemSetClosure set.key).map fun item => { item with la := la item }, set.edges⟩

/-- A string that two nonterminals stand for. -/
def twoWays : FklGrammer where
  prods := ⟨[
    (0, [⟨0, [.ignore, .nonterm 1], laid_start⟩]),
    (1, [⟨1, [.nonterm 2], .sym (by simp) .nil⟩, ⟨1, [.nonterm 3], .sym (by simp) .nil⟩]),
    (2, [⟨2, [.string 0], laid_string0⟩]),
    (3, [⟨3, [.string 0], laid_string0⟩])], by simp⟩
  left_eq := by simp
  str _ := [99]
  totalsize _ := 0
  isRegexMatchEpsilon _ := false
  isBuiltinTerminalMatchEpsilon _ := false

def twoWaysSets : FklLalrItemSetHashMap :=
  twoWays.withLookaheads (fun _ => .eof) ((twoWays.fklGenerateLr0Items msort 20).getD [])

/-- After ignored text a string comes, alone or as a nonterminal. -/
def twoDelims : FklGrammer where
  prods := ⟨[
    (0, [⟨0, [.ignore, .nonterm 1], laid_start⟩]),
    (1, [⟨1, [.string 0, .ignore, .nonterm 2, .string 3],
        .sym (by simp) (.sym (by simp) (.sym (by simp) (.sym (by simp) .nil)))⟩,
      ⟨1, [.string 0, .ignore, .string 1, .string 2],
        .sym (by simp) (.sym (by simp) (.sym (by simp) (.sym (by simp) .nil)))⟩]),
    (2, [⟨2, [.string 1], laid_string1⟩])], by simp⟩
  left_eq := by simp
  str s := [97 + UInt8.ofNat s]
  totalsize _ := 0
  isRegexMatchEpsilon _ := false
  isBuiltinTerminalMatchEpsilon _ := false

def twoDelimsSets : FklLalrItemSetHashMap :=
  twoDelims.withLookaheads (fun item => if item.prod.left = 2 then .string 3 else .eof)
    ((twoDelims.fklGenerateLr0Items msort 20).getD [])

/-- What the actions of a state are on, and what they are. -/
def actionsAt (table : FklAnalysisTable) (i : Nat) :
    Option (List (FklLalrItemLookAhead × Bool × FklAnalysisStateActionEnum)) :=
  table[i]?.map fun st => st.action.map fun a => (a.m.t, a.m.allowIgnore, a.action)

theorem twoWays_twoDelims_silent :
    (twoWaysSets[4]?.map fun set => set.key.map fun il => (il.prod.left, il.getItemNext, il.la)) =
        some [(2, none, .eof), (3, none, .eof)] ∧
      (twoWays.fklGenerateLalrAnalyzeTable twoWaysSets).map (fun r => (r.1, actionsAt r.2 4)) =
        some (false, some []) ∧
      (twoDelims.fklGenerateLalrAnalyzeTable twoDelimsSets).map (fun r => (r.1, actionsAt r.2 2)) =
        some (false, some [(.string 1, true, .shift 5), (.string 1, true, .shift 4)]) := by
  refine ⟨?_, ?_, ?_⟩ <;> decide +kernel

theorem twoWays_deterministic :
    (∃ table, twoWays.fklGenerateLalrAnalyzeTable twoWaysSets = some (false, table) ∧
      table.length = twoWaysSets.length ∧ ∀ (i : Nat) set, twoWaysSets[i]? = some set →
        ∃ st, table[i]? = some st ∧ StateActions i set st) := by
  have hsome :
      ((twoWays.fklGenerateLalrAnalyzeTable twoWaysSets).map fun r => r.1) = some false := by
    decide +kernel
  obtain ⟨⟨hasConflict, table⟩, h, hfalse⟩ := Option.map_eq_some_iff.mp hsome
  obtain rfl : hasConflict = false := hfalse
  have hdet := fklGenerateLalrAnalyzeTable_deterministic (by decide +kernel)
    (by unfold LinksApart; decide +kernel) h
  exact ⟨table, h, hdet.2.2 rfl⟩

end FklGrammer

end FakeLisp
