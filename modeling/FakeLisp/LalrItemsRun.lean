import FakeLisp.LalrSpread

/-! The look-aheads are spread until nothing changes, and then each set has what is brought to it. -/

namespace FakeLisp

namespace FklGrammer

variable {g : FklGrammer} {firstSets : FklFirstSets} {lr0 : FklLalrItemSetHashMap} {fuel : Nat}
  {sets : LalrItemSets} {i : Nat}

theorem mem_addEof {items : List FklLalrItem} {x : FklLalrItem} :
    x ∈ addEof items ↔ x ∈ items ∨ ∃ il ∈ items, il.withLa .eof = x :=
  mem_foldl_hashSetPut _ items

/-- Every spread there is, with the place of its set. -/
def allSpreads (g : FklGrammer) (lr0 : FklLalrItemSetHashMap) :
    Set (Nat × FklLookAheadSpreads) :=
  {p | ∃ i k, p ∈ ownSpreads g lr0 i k}

/-- What the sets hold before the look-aheads are spread. -/
structure LaStarted (g : FklGrammer) (lr0 : FklLalrItemSetHashMap) (sets : LalrItemSets) :
    Prop where
  filled : LaFilled lr0 sets
  spreads : spreadsAt sets = allSpreads g lr0
  own : ∀ i k, ∀ p ∈ ownItems g lr0 i k, p ∈ held sets
  eof : ∀ node, lr0[0]? = some node → ∀ k ∈ node.key, (0, k.withLa .eof) ∈ held sets
  brought : ∀ p ∈ held sets, p.2.la ≠ .none → g.Brought lr0 p.1 p.2

theorem laStarted_init (hg : g.Defined) (hfirst : g.TextbookFirsts firstSets)
    (hlr0 : g.Lr0Sets lr0) (hfuel : closureRounds g < fuel) :
    ∃ sets, g.initLalrLookahead firstSets fuel (lr0Sets lr0) = some sets ∧
      LaStarted g lr0 sets := by
  have hset : ∀ sets, LaFilled lr0 sets → ∀ i ∈ List.range lr0.length, ∃ sets',
      g.checkLookaheadSelfGeneratedAndSpread firstSets fuel sets i = some sets' ∧
        LaPuts sets sets' {p | ∃ k, p ∈ ownItems g lr0 i k} {p | ∃ k, p ∈ ownSpreads g lr0 i k} :=
    fun sets hsets i hi => laPuts_checkSet hg hfirst hlr0 hfuel hsets (List.mem_range.mp hi)
  obtain ⟨sets, hrun, hputs⟩ := laPuts_foldlM hset
    (fun sets sets' i _ hsets hputs => hsets.puts hputs fun p ⟨k, hp⟩ => ownItems_la p hp)
    laFilled_lr0Sets
  have hfilled : LaFilled lr0 sets :=
    laFilled_lr0Sets.puts hputs fun p ⟨i, _, k, hp⟩ => ownItems_la p hp
  have hlt : ∀ {i k cl x}, g.Followed lr0 i k cl x → i ∈ List.range lr0.length := by
    rintro i k cl x ⟨node, hnode, -⟩
    exact List.mem_range.mpr (List.getElem?_eq_some_iff.mp hnode).1
  -- no link leads to the first set
  have hfirstSet : ∀ k, (0, k) ∈ held sets → ∃ node, lr0[0]? = some node ∧ k ∈ node.key := by
    intro k hk
    rw [hputs.held] at hk
    rcases hk with hk | ⟨i, -, k', cl, x, ⟨node, hnode, -, hx, -⟩, -, heq⟩
    · obtain ⟨set, hset, hmem⟩ := mem_held.mp hk
      simp only [lr0Sets, List.getElem?_map, Option.map_eq_some_iff] at hset
      obtain ⟨node, hnode, rfl⟩ := hset
      exact ⟨node, hnode, hmem⟩
    · exact absurd (Prod.mk.inj heq).1.symm (hlr0.dst_ne node (List.mem_of_getElem? hnode) x hx)
  let addEofs : LalrItemSets := sets.modify 0 fun set => { set with items := addEof set.items }
  have hlinks : addEofs.map (·.links) = sets.map (·.links) := links_modify fun _ => rfl
  have hmem : ∀ j y, (j, y) ∈ held addEofs ↔
      (j, y) ∈ held sets ∨ j = 0 ∧ ∃ k, (0, k) ∈ held sets ∧ k.withLa .eof = y := by
    intro j y
    simp only [mem_held, addEofs, List.getElem?_modify]
    by_cases hj : j = 0
    · subst hj
      cases sets[0]? with
      | none => simp
      | some set => simp [mem_addEof]
    · simp [hj, Ne.symm hj]
  have hrunAll : g.initLalrLookahead firstSets fuel (lr0Sets lr0) = some addEofs := by
    unfold initLalrLookahead
    rw [show (lr0Sets lr0).length = lr0.length from List.length_map _, hrun]
    rfl
  refine ⟨addEofs, hrunAll, ⟨hlinks.trans hfilled.links, fun i k => ?_⟩, ?_, ?_, ?_, ?_⟩
  · rw [← hfilled.kernel, hmem]
    constructor
    · rintro ⟨hk | ⟨-, k', -, rfl⟩, hla⟩
      · exact ⟨hk, hla⟩
      · exact absurd hla (by simp)
    · exact fun hk => ⟨Or.inl hk.1, hk.2⟩
  · have hsame : spreadsAt addEofs = spreadsAt sets := by
      ext ⟨j, sp⟩
      simp only [spreadsAt, Set.mem_ofPred_eq, addEofs, List.getElem?_modify]
      split <;> simp
    rw [hsame, hputs.spreads]
    ext ⟨j, sp⟩
    simp only [Set.mem_union, Set.mem_ofPred_eq, allSpreads]
    constructor
    · rintro (⟨set, hset, hsp⟩ | ⟨i, -, k, hp⟩)
      · simp only [lr0Sets, List.getElem?_map, Option.map_eq_some_iff] at hset
        obtain ⟨node, -, rfl⟩ := hset
        exact absurd hsp List.not_mem_nil
      · exact ⟨i, k, hp⟩
    · rintro ⟨i, k, cl, x, h, hla, heq⟩
      exact Or.inr ⟨i, hlt h, k, cl, x, h, hla, heq⟩
  · rintro i k _ ⟨cl, x, h, hla, rfl⟩
    refine (hmem _ _).mpr (Or.inl ?_)
    rw [hputs.held]
    exact Or.inr ⟨i, hlt h, k, cl, x, h, hla, rfl⟩
  · intro node hnode k hk
    refine (hmem 0 _).mpr (Or.inr ⟨rfl, k, ?_, rfl⟩)
    have hla := (hlr0.item node (List.mem_of_getElem? hnode) k hk).2
    exact ((hfilled.kernel 0 k).mpr ⟨node, hnode, hk, hla⟩).1
  · rintro ⟨j, y⟩ hy hla
    rcases (hmem j y).mp hy with hy | ⟨rfl, k, hk, rfl⟩
    · rw [hputs.held] at hy
      rcases hy with hy | ⟨i, -, k, cl, x, h, hne, heq⟩
      · obtain ⟨set, hset, hmem⟩ := mem_held.mp hy
        simp only [lr0Sets, List.getElem?_map, Option.map_eq_some_iff] at hset
        obtain ⟨node, hnode, rfl⟩ := hset
        exact absurd (hlr0.item node (List.mem_of_getElem? hnode) y hmem).2 hla
      · obtain ⟨rfl, rfl⟩ := Prod.mk.inj heq
        exact .own h hne
    · obtain ⟨node, hnode, hkey⟩ := hfirstSet k hk
      exact .eof hnode hkey

/-! The loop. -/

/-- An item goes into a set when it has a look-ahead and stands where the spread begins. -/
def Spreads (sp : FklLookAheadSpreads) (il : FklLalrItem) : Prop :=
  il.la ≠ .none ∧ il.prod = sp.src.prod ∧ il.idx = sp.src.idx

/-- The spreads `S` do not lead out of `P`. -/
def SpreadClosed (S : Set (Nat × FklLookAheadSpreads)) (P : Set (Nat × FklLalrItem)) : Prop :=
  ∀ i sp il, (i, sp) ∈ S → (i, il) ∈ P → Spreads sp il → (sp.dstItems, sp.dst.withLa il.la) ∈ P

/-- A part of a round. It puts items of `P`, and `C` is what the sets are like if it changes
nothing. -/
structure SpreadPart (P : Set (Nat × FklLalrItem)) (C : LalrItemSets → Prop)
    (s s' : LalrItemSets × Bool) : Prop where
  puts : ∃ A ⊆ P, LaPuts s.1 s'.1 A ∅ ∧ (s'.2 = true → s.2 = true ∨ ¬A ⊆ held s.1)
  same : s'.2 = false → s.2 = false ∧ s'.1 = s.1 ∧ C s.1

/-- What a part of a round may rely on. -/
structure SpreadReady (S : Set (Nat × FklLookAheadSpreads)) (P : Set (Nat × FklLalrItem))
    (n : Nat) (sets : LalrItemSets) : Prop where
  length_eq : sets.length = n
  spreads : spreadsAt sets = S
  sub : held sets ⊆ P

variable {S : Set (Nat × FklLookAheadSpreads)} {P : Set (Nat × FklLalrItem)} {n : Nat}
  {C C' : LalrItemSets → Prop} {s s' s'' : LalrItemSets × Bool}

theorem SpreadReady.puts {sets' : LalrItemSets} {A : Set (Nat × FklLalrItem)}
    (h : SpreadReady S P n sets) (hputs : LaPuts sets sets' A ∅) (hA : A ⊆ P) :
    SpreadReady S P n sets' where
  length_eq := hputs.length_eq.trans h.length_eq
  spreads := by rw [hputs.spreads, Set.union_empty, h.spreads]
  sub := by
    rw [hputs.held]
    exact Set.union_subset h.sub hA

theorem SpreadPart.refl (s : LalrItemSets × Bool) : SpreadPart P (fun _ => True) s s where
  puts := ⟨∅, Set.empty_subset P, .refl s.1, Or.inl⟩
  same h := ⟨h, rfl, trivial⟩

theorem SpreadPart.trans (h : SpreadPart P C s s') (h' : SpreadPart P C' s' s'') :
    SpreadPart P (fun sets => C sets ∧ C' sets) s s'' := by
  constructor
  · obtain ⟨A, hA, hputs, hchange⟩ := h.puts
    obtain ⟨A', hA', hputs', hchange'⟩ := h'.puts
    refine ⟨A ∪ A', Set.union_subset hA hA', by simpa using hputs.trans hputs', fun hc => ?_⟩
    rcases hchange' hc with hc | hnew
    · exact (hchange hc).imp_right fun hnew hsub => hnew (Set.subset_union_left.trans hsub)
    · refine Or.inr fun hsub => hnew ?_
      rw [hputs.held]
      exact (Set.subset_union_right.trans hsub).trans Set.subset_union_left
  · intro hc
    obtain ⟨hc, hsets', hC'⟩ := h'.same hc
    obtain ⟨hc, hsets, hC⟩ := h.same hc
    exact ⟨hc, hsets'.trans hsets, hC, hsets ▸ hC'⟩

theorem SpreadPart.foldl {β : Type*} {f : LalrItemSets × Bool → β → LalrItemSets × Bool}
    {C : β → LalrItemSets → Prop} {bs : List β}
    (hf : ∀ s, SpreadReady S P n s.1 → ∀ b ∈ bs, SpreadPart P (C b) s (f s b))
    (hs : SpreadReady S P n s.1) :
    SpreadPart P (fun sets => ∀ b ∈ bs, C b sets) s (bs.foldl f s) := by
  induction bs generalizing s with
  | nil => simpa using SpreadPart.refl s
  | cons b bs ih =>
    have hpart := hf s hs b List.mem_cons_self
    obtain ⟨A, hA, hputs, -⟩ := hpart.puts
    have hrest := ih (fun s hs c hc => hf s hs c (List.mem_cons_of_mem b hc)) (hs.puts hputs hA)
    simpa using hpart.trans hrest

theorem modify_self {α : Type*} {l : List α} {i : Nat} {f : α → α}
    (h : ∀ a, l[i]? = some a → f a = a) : l.modify i f = l := by
  apply List.ext_getElem?
  intro j
  rw [List.getElem?_modify]
  by_cases hij : i = j
  · subst hij
    cases hj : l[i]? with
    | none => simp
    | some a => simp [h a hj]
  · simp [hij]

theorem spreadPart_item {sp : FklLookAheadSpreads} {il : FklLalrItem}
    (hdst : sp.dstItems < s.1.length)
    (hP : Spreads sp il → (sp.dstItems, sp.dst.withLa il.la) ∈ P) :
    SpreadPart P (fun sets => Spreads sp il → (sp.dstItems, sp.dst.withLa il.la) ∈ held sets) s
      (spreadItem sp s il) := by
  by_cases h : Spreads sp il
  · have hrun : spreadItem sp s il = (putItem s.1 sp.dstItems (sp.dst.withLa il.la),
        s.2 || !hasItem s.1 sp.dstItems (sp.dst.withLa il.la)) := if_pos h
    rw [hrun]
    constructor
    · refine ⟨{(sp.dstItems, sp.dst.withLa il.la)}, by simpa using hP h, laPuts_putItem hdst _, ?_⟩
      intro hc
      refine (Bool.or_eq_true_iff.mp hc).imp_right fun hnew hsub => ?_
      have hin : hasItem s.1 sp.dstItems (sp.dst.withLa il.la) = true := hsub rfl
      rw [hin] at hnew
      cases hnew
    · intro hc
      obtain ⟨hc, hhas⟩ := Bool.or_eq_false_iff.mp hc
      have hin : hasItem s.1 sp.dstItems (sp.dst.withLa il.la) = true := by simpa using hhas
      refine ⟨hc, modify_self fun set hset => ?_, fun _ => hin⟩
      obtain ⟨set', hset', hmem⟩ := mem_held.mp hin
      obtain rfl := Option.some.inj (hset.symm.trans hset')
      have hput : hashSetPut set.items (sp.dst.withLa il.la) = set.items := if_pos hmem
      rw [hput]
  · have hrun : spreadItem sp s il = s := if_neg h
    rw [hrun]
    exact ⟨(SpreadPart.refl s).puts, fun hc => ⟨hc, rfl, fun hs => absurd hs h⟩⟩

theorem spreadPart_set (hclosed : SpreadClosed S P) (hdst : ∀ i sp, (i, sp) ∈ S → sp.dstItems < n)
    (hs : SpreadReady S P n s.1) (i : Nat) :
    SpreadPart P (fun sets => ∀ sp il, (i, sp) ∈ spreadsAt sets → (i, il) ∈ held sets →
      Spreads sp il → (sp.dstItems, sp.dst.withLa il.la) ∈ held sets) s (lookaheadSpread s i) := by
  unfold lookaheadSpread
  cases hset : s.1[i]? with
  | none =>
    refine ⟨(SpreadPart.refl s).puts, fun hc => ⟨hc, rfl, ?_⟩⟩
    rintro sp il ⟨set, hset', -⟩
    rw [hset] at hset'
    cases hset'
  | some set =>
    have hsp : ∀ sp ∈ set.spreads, (i, sp) ∈ S := fun sp hsp => hs.spreads ▸ ⟨set, hset, hsp⟩
    have hil : ∀ il ∈ set.items, (i, il) ∈ P := fun il hil =>
      hs.sub (mem_held.mpr ⟨set, hset, hil⟩)
    have hitem : ∀ sp ∈ set.spreads, ∀ t : LalrItemSets × Bool, SpreadReady S P n t.1 →
        ∀ il ∈ set.items, SpreadPart P (fun sets => Spreads sp il →
          (sp.dstItems, sp.dst.withLa il.la) ∈ held sets) t (spreadItem sp t il) :=
      fun sp hin t ht il hmem => spreadPart_item (ht.length_eq ▸ hdst i sp (hsp sp hin))
        (hclosed i sp il (hsp sp hin) (hil il hmem))
    have hspread : ∀ t : LalrItemSets × Bool, SpreadReady S P n t.1 → ∀ sp ∈ set.spreads,
        SpreadPart P (fun sets => ∀ il ∈ set.items, Spreads sp il →
          (sp.dstItems, sp.dst.withLa il.la) ∈ held sets) t
          (set.items.foldl (spreadItem sp) t) :=
      fun t ht sp hin => SpreadPart.foldl (hitem sp hin) ht
    have hfold := SpreadPart.foldl hspread hs
    refine ⟨hfold.puts, fun hc => ?_⟩
    obtain ⟨hc, hsame, hC⟩ := hfold.same hc
    refine ⟨hc, hsame, fun sp il hspread hitem => ?_⟩
    obtain ⟨set', hset', hin⟩ := hspread
    obtain ⟨set'', hset'', hmem⟩ := mem_held.mp hitem
    obtain rfl := Option.some.inj (hset.symm.trans hset')
    obtain rfl := Option.some.inj (hset.symm.trans hset'')
    exact hC sp hin il hmem

theorem spreadPart_round (hclosed : SpreadClosed S P)
    (hdst : ∀ i sp, (i, sp) ∈ S → sp.dstItems < n) (hs : SpreadReady S P n s.1) :
    SpreadPart P (fun sets => SpreadClosed (spreadsAt sets) (held sets)) (s.1, false)
      (spreadRound s) := by
  have hset : ∀ t : LalrItemSets × Bool, SpreadReady S P n t.1 → ∀ i ∈ List.range s.1.length,
      SpreadPart P (fun sets => ∀ sp il, (i, sp) ∈ spreadsAt sets → (i, il) ∈ held sets →
        Spreads sp il → (sp.dstItems, sp.dst.withLa il.la) ∈ held sets) t (lookaheadSpread t i) :=
    fun t ht i _ => spreadPart_set hclosed hdst ht i
  have hfold : SpreadPart P _ (s.1, false) (spreadRound s) := SpreadPart.foldl hset hs
  refine ⟨hfold.puts, fun hc => ?_⟩
  obtain ⟨hc, hsame, hC⟩ := hfold.same hc
  refine ⟨hc, hsame, fun i sp il hsp hil hspreads => ?_⟩
  have hi : i < s.1.length := by
    obtain ⟨set, hset, -⟩ := hsp
    exact (List.getElem?_eq_some_iff.mp hset).1
  exact hC i (List.mem_range.mpr hi) sp il hsp hil hspreads

/-! The whole run. -/

theorem LaItem.advance {item : FklLalrItem} (h : g.LaItem item) {s : FklGrammerSym}
    (hs : item.getItemNext = some s) : g.LaItem item.getItemAdvance := by
  refine ⟨by simpa using h.prod, ?_, h.onWay.advance, by simpa using h.la⟩
  have hcore : item.core ∈ g.lr0Items item.prod := ⟨Or.inl rfl, h.idx_le, rfl⟩
  have hadvance := getItemAdvance_mem_lr0Items hcore (l := ⟨s, false, _⟩) ⟨hs, rfl⟩
  rw [FklLalrItem.getItemAdvance_core] at hadvance
  exact hadvance.2.1

theorem LaItem.withLa {item item' : FklLalrItem} (h : g.LaItem item) (h' : g.LaItem item') :
    g.LaItem (item.withLa item'.la) :=
  ⟨h.prod, h.idx_le, h.onWay, h'.la⟩

theorem Lr0Sets.laItem_advance (hlr0 : g.Lr0Sets lr0) {k cl : FklLalrItem}
    {x : FklLalrItemSetLink} (h : g.Followed lr0 i k cl x) :
    x.dst < lr0.length ∧ g.LaItem cl.getItemAdvance := by
  obtain ⟨node, hnode, hk, hx, hcl, -, hs, -⟩ := h
  have hmem := List.mem_of_getElem? hnode
  refine ⟨hlr0.dst_lt node hmem x hx, LaItem.advance (LaItem.closure ?_ hcl) hs⟩
  rintro _ rfl
  exact (hlr0.item node hmem _ hk).1

theorem LaItem.brought (hlr0 : g.Lr0Sets lr0) {y : FklLalrItem} (h : g.Brought lr0 i y) :
    i < lr0.length ∧ g.LaItem y := by
  induction h with
  | @eof node k hnode hk =>
    have hitem := (hlr0.item node (List.mem_of_getElem? hnode) k hk).1
    refine ⟨(List.getElem?_eq_some_iff.mp hnode).1, hitem.prod, hitem.idx_le, hitem.onWay, ?_⟩
    exact Or.inl (by simp)
  | own h _ => exact hlr0.laItem_advance h
  | @spread i k cl x la h _ _ ih =>
    obtain ⟨hdst, hadvance⟩ := hlr0.laItem_advance h
    exact ⟨hdst, hadvance.withLa ih.2⟩

/-- What the sets may come to hold. -/
def laBound (g : FklGrammer) (lr0 : FklLalrItemSetHashMap) : Set (Nat × FklLalrItem) :=
  {p | p.1 < lr0.length ∧ g.LaItem p.2 ∧ (p.2.la ≠ .none → g.Brought lr0 p.1 p.2)}

theorem finite_laBound : (laBound g lr0).Finite := by
  have hall := (Set.finite_lt_nat lr0.length).prod (finite_laItems (g := g))
  exact hall.subset fun p hp => ⟨hp.1, hp.2.1⟩

theorem spreadClosed_laBound (hlr0 : g.Lr0Sets lr0) :
    SpreadClosed (allSpreads g lr0) (laBound g lr0) := by
  rintro i sp il ⟨i', k, cl, x, h, hnone, heq⟩ ⟨-, hil, hbrought⟩ ⟨hla, hprod, hidx⟩
  obtain ⟨rfl, rfl⟩ := Prod.mk.inj heq
  obtain ⟨hdst, hadvance⟩ := hlr0.laItem_advance h
  have hk : il = k.withLa il.la := by
    obtain ⟨prod, idx, la⟩ := il
    obtain ⟨rfl, rfl⟩ : prod = k.prod ∧ idx = k.idx := ⟨hprod, hidx⟩
    rfl
  exact ⟨hdst, hadvance.withLa hil, fun _ => .spread h hnone (hk ▸ hbrought hla)⟩

structure SpreadInv (g : FklGrammer) (lr0 : FklLalrItemSetHashMap) (m : Nat)
    (s : LalrItemSets × Bool) : Prop where
  links : s.1.map (·.links) = lr0.map (·.edges)
  ready : SpreadReady (allSpreads g lr0) (laBound g lr0) lr0.length s.1
  own : ∀ i k, ∀ p ∈ ownItems g lr0 i k, p ∈ held s.1
  eof : ∀ node, lr0[0]? = some node → ∀ k ∈ node.key, (0, k.withLa .eof) ∈ held s.1
  closed : s.2 = false → SpreadClosed (allSpreads g lr0) (held s.1)
  variant : (laBound g lr0 \ held s.1).ncard + s.2.toNat ≤ m

theorem spreadInv_round (hlr0 : g.Lr0Sets lr0) {m : Nat} (h : SpreadInv g lr0 m s)
    (hc : s.2 = true) : ∃ m' < m, SpreadInv g lr0 m' (spreadRound s) := by
  have hdst : ∀ i sp, (i, sp) ∈ allSpreads g lr0 → sp.dstItems < lr0.length := by
    rintro i sp ⟨i', k, cl, x, h, -, heq⟩
    obtain ⟨rfl, rfl⟩ := Prod.mk.inj heq
    exact (hlr0.laItem_advance h).1
  have hround := spreadPart_round (spreadClosed_laBound hlr0) hdst h.ready
  obtain ⟨A, hA, hputs, hchange⟩ := hround.puts
  have hready := h.ready.puts hputs hA
  have hsub : held s.1 ⊆ held (spreadRound s).1 := by
    rw [hputs.held]
    exact Set.subset_union_left
  have hvariant := h.variant
  rw [hc, Bool.toNat_true] at hvariant
  refine ⟨_, ?_, hputs.links.trans h.links, hready, fun i k p hp => hsub (h.own i k p hp),
    fun node hnode k hk => hsub (h.eof node hnode k hk), fun hc' => ?_, le_rfl⟩
  · have hfinite : (laBound g lr0 \ held s.1).Finite := finite_laBound.subset Set.sdiff_subset
    cases hc' : (spreadRound s).2 with
    | false =>
      have hle : (laBound g lr0 \ held (spreadRound s).1).ncard ≤
          (laBound g lr0 \ held s.1).ncard :=
        Set.ncard_le_ncard (fun p hp => ⟨hp.1, fun hin => hp.2 (hsub hin)⟩) hfinite
      rw [Bool.toNat_false]
      omega
    | true =>
      have hnew := (hchange hc').resolve_left (by simp)
      obtain ⟨p, hp, hout⟩ := Set.not_subset.mp hnew
      have hin : p ∈ held (spreadRound s).1 := by
        rw [hputs.held]
        exact Or.inr hp
      have hlt : (laBound g lr0 \ held (spreadRound s).1).ncard <
          (laBound g lr0 \ held s.1).ncard := by
        refine Set.ncard_lt_ncard ⟨fun p hp => ⟨hp.1, fun hin => hp.2 (hsub hin)⟩, fun hle => ?_⟩
          hfinite
        exact (hle ⟨hA hp, hout⟩).2 hin
      rw [Bool.toNat_true]
      omega
  · obtain ⟨-, hsame, hclosed⟩ := hround.same hc'
    rw [hsame, ← h.ready.spreads]
    exact hclosed

/-- Enough for every loop of the run. -/
noncomputable def lalrRounds (g : FklGrammer) (lr0 : FklLalrItemSetHashMap) : Nat :=
  max (closureRounds g) ((laBound g lr0).ncard + 1)

/-- The spreading comes to its end, with what is brought. -/
theorem spreadLoop_spec (hg : g.Defined) (hfirst : g.TextbookFirsts firstSets)
    (hlr0 : g.Lr0Sets lr0) (hfuel : lalrRounds g lr0 < fuel) : ∃ start s,
      g.initLalrLookahead firstSets fuel (lr0Sets lr0) = some start ∧
      whileLoop Prod.snd (fun s => some (spreadRound s)) fuel (start, true) = some s ∧
      s.1.map (·.links) = lr0.map (·.edges) ∧
      ∀ i y, (i, y) ∈ held s.1 ∧ y.la ≠ .none ↔ g.Brought lr0 i y := by
  obtain ⟨hclosure, hspread⟩ := max_lt_iff.mp hfuel
  obtain ⟨start, hrun, hstart⟩ := laStarted_init hg hfirst hlr0 hclosure
  have hlen := hstart.filled.length_eq
  have hsub : held start ⊆ laBound g lr0 := by
    rintro ⟨i, y⟩ hy
    by_cases hla : y.la = .none
    · obtain ⟨node, hnode, hkey, -⟩ := (hstart.filled.kernel i y).mp ⟨hy, hla⟩
      exact ⟨(List.getElem?_eq_some_iff.mp hnode).1,
        (hlr0.item node (List.mem_of_getElem? hnode) y hkey).1, fun hne => absurd hla hne⟩
    · have hbrought := hstart.brought _ hy hla
      obtain ⟨hi, hitem⟩ := LaItem.brought hlr0 hbrought
      exact ⟨hi, hitem, fun _ => hbrought⟩
  have hinv : SpreadInv g lr0 ((laBound g lr0).ncard + 1) (start, true) := by
    refine ⟨hstart.filled.links, ⟨hlen, hstart.spreads, hsub⟩, hstart.own, hstart.eof, by simp, ?_⟩
    have hle : (laBound g lr0 \ held start).ncard ≤ (laBound g lr0).ncard :=
      Set.ncard_le_ncard Set.sdiff_subset finite_laBound
    exact Nat.add_le_add_right hle 1
  have hround : ∀ m s, SpreadInv g lr0 m s → s.2 = true → ∃ t m', some (spreadRound s) = some t ∧
      m' < m ∧ SpreadInv g lr0 m' t := by
    intro m s hs hc
    obtain ⟨m', hlt, hinv⟩ := spreadInv_round hlr0 hs hc
    exact ⟨_, m', rfl, hlt, hinv⟩
  obtain ⟨s, m, hs, hdone, hloop⟩ := LoopsTo.total (SpreadInv g lr0) hround hinv
  refine ⟨start, s, hrun, hloop fuel hspread, hs.links, fun i y => ⟨fun h => ?_, fun h => ?_⟩⟩
  · exact (hs.ready.sub h.1).2.2 h.2
  · refine ⟨?_, h.la_ne⟩
    induction h with
    | eof hnode hk => exact hs.eof _ hnode _ hk
    | own h hla => exact hs.own _ _ _ ⟨_, _, h, hla, rfl⟩
    | @spread i k cl x la h hnone hk ih =>
      have hspread : (i, (⟨x.dst, k, cl.getItemAdvance⟩ : FklLookAheadSpreads)) ∈
          spreadsAt s.1 := by
        rw [hs.ready.spreads]
        exact ⟨i, k, cl, x, h, hnone, rfl⟩
      rw [hs.ready.spreads] at hspread
      exact hs.closed hdone i _ _ hspread ih ⟨hk.la_ne, rfl, rfl⟩

theorem mapM_spec {α β : Type*} {f : α → Option β} {R : α → β → Prop} {l : List α}
    (hf : ∀ a ∈ l, ∃ b, f a = some b ∧ R a b) :
    ∃ l', l.mapM f = some l' ∧ List.Forall₂ R l l' := by
  induction l with
  | nil => exact ⟨[], rfl, .nil⟩
  | cons a l ih =>
    obtain ⟨b, hb, hR⟩ := hf a List.mem_cons_self
    obtain ⟨l', hl', hrest⟩ := ih fun a ha => hf a (List.mem_cons_of_mem _ ha)
    exact ⟨b :: l', by simp [List.mapM_cons, hb, hl'], .cons hR hrest⟩

/-- Each set has the closure of what is brought to it. -/
theorem fklLr0ToLalrItems_brought {qsort} (hq : QsortSpec qsort) (hg : g.Defined)
    (hfirst : g.TextbookFirsts firstSets) (hlr0 : g.Lr0Sets lr0)
    (hfuel : lalrRounds g lr0 < fuel) :
    ∃ states, g.fklLr0ToLalrItems firstSets qsort fuel lr0 = some states ∧
      states.map (·.edges) = lr0.map (·.edges) ∧
      ∀ i state, states[i]? = some state →
        ∀ x, x ∈ state.key ↔ g.Lr1Closure {y | g.Brought lr0 i y} x := by
  obtain ⟨start, s, hrun, hloop, hlinks, hheld⟩ := spreadLoop_spec hg hfirst hlr0 hfuel
  have hbrought : ∀ i set, s.1[i]? = some set →
      ∀ y, y ∈ set.items.filter (fun il => il.la ≠ .none) ↔ g.Brought lr0 i y := by
    intro i set hset y
    rw [← hheld, mem_held, List.mem_filter, decide_eq_true_eq]
    constructor
    · exact fun hy => ⟨⟨set, hset, hy.1⟩, hy.2⟩
    · rintro ⟨⟨set', hset', hy⟩, hla⟩
      obtain rfl := Option.some.inj (hset.symm.trans hset')
      exact ⟨hy, hla⟩
  have hadd : ∀ set ∈ s.1, ∃ state, g.addLookaheadToSet firstSets qsort fuel set = some state ∧
      state.edges = set.links ∧
      ∀ x, x ∈ state.key ↔ g.Lr1Closure {y | y ∈ set.items.filter fun il => il.la ≠ .none} x := by
    intro set hmem
    obtain ⟨i, hset⟩ := List.mem_iff_getElem?.mp hmem
    have hitems : ∀ y ∈ set.items.filter fun il => il.la ≠ .none, g.LaItem y :=
      fun y hy => (LaItem.brought hlr0 ((hbrought i set hset y).mp hy)).2
    obtain ⟨out, hout, hin⟩ := lr1ItemSetClosure_spec hg hfirst hitems
    refine ⟨⟨qsort g.lalrItemCmp out, set.links⟩, ?_, rfl, fun x => ?_⟩
    · unfold addLookaheadToSet addLookaheadToItems
      rw [hout fuel (max_lt_iff.mp hfuel).1]
      rfl
    · rw [← hin]
      exact (hq.perm _ _).mem_iff
  obtain ⟨states, hstates, hall⟩ := mapM_spec hadd
  refine ⟨states, ?_, ?_, fun i state hstate x => ?_⟩
  · rw [fklLr0ToLalrItems, hrun]
    change (whileLoop Prod.snd (fun s => some (spreadRound s)) fuel (start, true)).bind _ = _
    rw [hloop]
    exact hstates
  · rw [← hlinks]
    have hedges : List.Forall₂ Eq (states.map (·.edges)) (s.1.map (·.links)) := by
      rw [List.forall₂_map_left_iff, List.forall₂_map_right_iff]
      exact hall.flip.imp fun _ _ h => h.1
    rwa [List.forall₂_eq_eq_eq] at hedges
  · have hi : i < s.1.length := by
      rw [hall.length_eq]
      exact (List.getElem?_eq_some_iff.mp hstate).1
    have hset : s.1[i]? = some s.1[i] := List.getElem?_eq_getElem hi
    have hget := hall.get hi (hall.length_eq ▸ hi)
    obtain ⟨hi', rfl⟩ := List.getElem?_eq_some_iff.mp hstate
    have heq : {y | y ∈ s.1[i].items.filter fun il => il.la ≠ .none} = {y | g.Brought lr0 i y} := by
      ext y
      exact hbrought i _ hset y
    rw [← heq]
    exact hget.2 x

end FklGrammer

end FakeLisp
