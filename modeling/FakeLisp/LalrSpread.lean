import FakeLisp.Lr1ClosureRun
import FakeLisp.Qsort

/-! What the run gives to the items of the LR(0) sets: the look-aheads that come along the links
that are followed. -/

namespace FakeLisp

namespace FklGrammer

/-- The look-aheads of `cl`, an item of the closure of `item`, go along the link. -/
def GoesAlong (i : Nat) (item cl : FklLalrItem) (x : FklLalrItemSetLink) : Prop :=
  x.dst ≠ i ∧ cl.getItemNext = some x.sym ∧
    ((!isNonterm x.sym) = true ∨ x.allowIgnore = cl.isAtDelimSym ∨ item.prod ≠ cl.prod)

instance (i : Nat) (item cl : FklLalrItem) (x : FklLalrItemSetLink) :
    Decidable (GoesAlong i item cl x) := by
  unfold GoesAlong
  infer_instance

variable (g : FklGrammer) (lr0 : FklLalrItemSetHashMap)

/-- A link of the set at `i` that is followed for an item in the closure of one of its items. -/
def Followed (i : Nat) (k cl : FklLalrItem) (x : FklLalrItemSetLink) : Prop :=
  ∃ node, lr0[i]? = some node ∧ k ∈ node.key ∧ x ∈ node.edges ∧ g.Lr1Closure {k} cl ∧
    GoesAlong i k cl x

/-- The look-aheads that come to the items of a set along the links that are followed. -/
inductive Brought : Nat → FklLalrItem → Prop
  | eof {node : ExploreNode (List FklLalrItem) FklLalrItemSetLink} {k : FklLalrItem}
    (hnode : lr0[0]? = some node) (hk : k ∈ node.key) : Brought 0 (k.withLa .eof)
  | own {i : Nat} {k cl : FklLalrItem} {x : FklLalrItemSetLink} (h : g.Followed lr0 i k cl x)
    (hla : cl.la ≠ .none) : Brought x.dst cl.getItemAdvance
  | spread {i : Nat} {k cl : FklLalrItem} {x : FklLalrItemSetLink} {la : FklLalrItemLookAhead}
    (h : g.Followed lr0 i k cl x) (hla : cl.la = .none) (hk : Brought i (k.withLa la)) :
    Brought x.dst (cl.getItemAdvance.withLa la)

/-- Item sets as the LR(0) collection has them. -/
structure Lr0Sets : Prop where
  item : ∀ node ∈ lr0, ∀ k ∈ node.key, g.LaItem k ∧ k.la = .none
  dst_lt : ∀ node ∈ lr0, ∀ x ∈ node.edges, x.dst < lr0.length
  dst_ne : ∀ node ∈ lr0, ∀ x ∈ node.edges, x.dst ≠ 0

/-- The items with the places of their sets. -/
def held (sets : LalrItemSets) : Set (Nat × FklLalrItem) := {p | hasItem sets p.1 p.2 = true}

def spreadsAt (sets : LalrItemSets) : Set (Nat × FklLookAheadSpreads) :=
  {p | ∃ set, sets[p.1]? = some set ∧ p.2 ∈ set.spreads}

section

variable {g} {lr0} {sets sets' : LalrItemSets} {i : Nat} {x : FklLalrItem}

theorem mem_held : (i, x) ∈ held sets ↔ ∃ set, sets[i]? = some set ∧ x ∈ set.items := by
  change hasItem sets i x = true ↔ _
  unfold hasItem
  cases sets[i]? <;> simp

theorem Brought.la_ne (h : g.Brought lr0 i x) : x.la ≠ .none := by
  induction h with
  | eof => simp
  | own _ hla => rwa [FklLalrItem.getItemAdvance_la]
  | spread _ _ _ ih => exact ih

/-! Putting items and spreads. -/

/-- The items of `A` and the spreads of `B` are put into the sets. -/
structure LaPuts (sets sets' : LalrItemSets) (A : Set (Nat × FklLalrItem))
    (B : Set (Nat × FklLookAheadSpreads)) : Prop where
  held : held sets' = held sets ∪ A
  spreads : spreadsAt sets' = spreadsAt sets ∪ B
  links : sets'.map (·.links) = sets.map (·.links)

variable {A A' : Set (Nat × FklLalrItem)} {B B' : Set (Nat × FklLookAheadSpreads)}

theorem LaPuts.refl (sets : LalrItemSets) : LaPuts sets sets ∅ ∅ := ⟨by simp, by simp, rfl⟩

theorem LaPuts.trans {sets'' : LalrItemSets} (h : LaPuts sets sets' A B)
    (h' : LaPuts sets' sets'' A' B') : LaPuts sets sets'' (A ∪ A') (B ∪ B') where
  held := by rw [h'.held, h.held, Set.union_assoc]
  spreads := by rw [h'.spreads, h.spreads, Set.union_assoc]
  links := h'.links.trans h.links

theorem LaPuts.length_eq (h : LaPuts sets sets' A B) : sets'.length = sets.length := by
  simpa using congrArg List.length h.links

theorem links_modify {f : LalrItemSet → LalrItemSet} (hf : ∀ set, (f set).links = set.links) :
    (sets.modify i f).map (·.links) = sets.map (·.links) := by
  apply List.ext_getElem?
  intro j
  simp only [List.getElem?_map, List.getElem?_modify]
  split
  · cases sets[j]? <;> simp [hf]
  · simp

theorem laPuts_putItem (hi : i < sets.length) (x : FklLalrItem) :
    LaPuts sets (putItem sets i x) {(i, x)} ∅ := by
  refine ⟨?_, ?_, links_modify fun _ => rfl⟩
  · ext ⟨j, y⟩
    simp only [Set.mem_union, mem_held, putItem, List.getElem?_modify, Set.mem_singleton_iff,
      Prod.mk.injEq]
    by_cases hij : i = j
    · subst hij
      simp [List.getElem?_eq_getElem hi]
    · simp [hij, Ne.symm hij]
  · ext ⟨j, sp⟩
    simp only [Set.union_empty, spreadsAt, Set.mem_ofPred_eq, putItem, List.getElem?_modify]
    split <;> simp

theorem laPuts_addLookaheadSpread (hi : i < sets.length) (sp : FklLookAheadSpreads) :
    LaPuts sets (addLookaheadSpread sets i sp) ∅ {(i, sp)} := by
  refine ⟨?_, ?_, links_modify fun _ => rfl⟩
  · ext ⟨j, y⟩
    simp only [Set.union_empty, mem_held, addLookaheadSpread, List.getElem?_modify]
    split <;> simp
  · ext ⟨j, sp'⟩
    simp only [Set.mem_union, spreadsAt, Set.mem_ofPred_eq, addLookaheadSpread,
      List.getElem?_modify, Set.mem_singleton_iff, Prod.mk.injEq]
    by_cases hij : i = j
    · subst hij
      simp [List.getElem?_eq_getElem hi, or_comm]
    · simp [hij, Ne.symm hij]

/-- What the first element puts, and the others behind it. -/
theorem LaPuts.cons {β : Type*} {A : β → Set (Nat × FklLalrItem)}
    {B : β → Set (Nat × FklLookAheadSpreads)} {b : β} {bs : List β} {sets₁ sets₂ : LalrItemSets}
    (hput : LaPuts sets sets₁ (A b) (B b))
    (hrest : LaPuts sets₁ sets₂ {p | ∃ c ∈ bs, p ∈ A c} {p | ∃ c ∈ bs, p ∈ B c}) :
    LaPuts sets sets₂ {p | ∃ c ∈ b :: bs, p ∈ A c} {p | ∃ c ∈ b :: bs, p ∈ B c} := by
  have hcons : ∀ {γ : Type} (F : β → Set γ),
      {p | ∃ c ∈ b :: bs, p ∈ F c} = F b ∪ {p | ∃ c ∈ bs, p ∈ F c} := by
    intro γ F
    ext p
    simp
  rw [hcons, hcons]
  exact hput.trans hrest

theorem laPuts_foldl {β : Type*} {n : Nat} {f : LalrItemSets → β → LalrItemSets}
    {A : β → Set (Nat × FklLalrItem)} {B : β → Set (Nat × FklLookAheadSpreads)} {bs : List β}
    (hf : ∀ sets, sets.length = n → ∀ b ∈ bs, LaPuts sets (f sets b) (A b) (B b))
    (hlen : sets.length = n) :
    LaPuts sets (bs.foldl f sets) {p | ∃ b ∈ bs, p ∈ A b} {p | ∃ b ∈ bs, p ∈ B b} := by
  induction bs generalizing sets with
  | nil => simpa using LaPuts.refl sets
  | cons b bs ih =>
    have hput := hf sets hlen b List.mem_cons_self
    exact hput.cons (ih (fun sets hlen c hc => hf sets hlen c (List.mem_cons_of_mem b hc))
      (hput.length_eq.trans hlen))

/-- What the links of the sets are does not change, so that it may be relied on. -/
theorem laPuts_foldlM {β : Type*} {inv : LalrItemSets → Prop}
    {f : LalrItemSets → β → Option LalrItemSets} {A : β → Set (Nat × FklLalrItem)}
    {B : β → Set (Nat × FklLookAheadSpreads)} {bs : List β}
    (hf : ∀ sets, inv sets → ∀ b ∈ bs, ∃ sets', f sets b = some sets' ∧
      LaPuts sets sets' (A b) (B b))
    (hinv : ∀ sets sets' b, b ∈ bs → inv sets → LaPuts sets sets' (A b) (B b) → inv sets')
    (hsets : inv sets) : ∃ sets', bs.foldlM f sets = some sets' ∧
      LaPuts sets sets' {p | ∃ b ∈ bs, p ∈ A b} {p | ∃ b ∈ bs, p ∈ B b} := by
  induction bs generalizing sets with
  | nil => exact ⟨sets, rfl, by simpa using LaPuts.refl sets⟩
  | cons b bs ih =>
    obtain ⟨sets₁, hrun₁, hput⟩ := hf sets hsets b List.mem_cons_self
    obtain ⟨sets₂, hrun₂, hrest⟩ := ih
      (fun sets hs c hc => hf sets hs c (List.mem_cons_of_mem b hc))
      (fun sets sets' c hc => hinv sets sets' c (List.mem_cons_of_mem b hc))
      (hinv _ _ b List.mem_cons_self hsets hput)
    exact ⟨sets₂, by rw [List.foldlM_cons, hrun₁]; exact hrun₂, hput.cons hrest⟩

/-! The look-aheads that the sets give by themselves. -/

theorem checkLink_eq (i : Nat) (item cl : FklLalrItem) (sets : LalrItemSets)
    (x : FklLalrItemSetLink) : checkLink i item cl sets x =
      if GoesAlong i item cl x then
        if cl.la = .none then addLookaheadSpread sets i ⟨x.dst, item, cl.getItemAdvance⟩
        else putItem sets x.dst cl.getItemAdvance
      else sets := by
  unfold checkLink
  by_cases halong : GoesAlong i item cl x
  · rw [if_pos halong]
    obtain ⟨hself, hnext, hkind⟩ := halong
    rw [if_neg hself, hnext]
    simp only [ne_eq, not_true_eq_false, if_false]
    rw [if_pos hkind]
  · rw [if_neg halong]
    split
    · rfl
    · next hself =>
      split
      · rfl
      · next s hnext =>
        split
        · rfl
        · next hsym =>
          obtain rfl := not_not.mp hsym
          exact if_neg fun hkind => halong ⟨hself, hnext, hkind⟩

/-- What one link does for an item of a closure. -/
theorem laPuts_checkLink {n : Nat} {k cl : FklLalrItem} {x : FklLalrItemSetLink}
    (hlen : sets.length = n) (hi : i < n) (hdst : x.dst < n) :
    LaPuts sets (checkLink i k cl sets x)
      {p | GoesAlong i k cl x ∧ cl.la ≠ .none ∧ p = (x.dst, cl.getItemAdvance)}
      {p | GoesAlong i k cl x ∧ cl.la = .none ∧ p = (i, ⟨x.dst, k, cl.getItemAdvance⟩)} := by
  rw [checkLink_eq]
  split
  · next halong =>
    split
    · next hla =>
      simpa [halong, hla] using laPuts_addLookaheadSpread (hlen ▸ hi) _
    · next hla =>
      simpa [halong, hla] using laPuts_putItem (hlen ▸ hdst) _
  · next halong => simpa [halong] using LaPuts.refl sets

variable (g lr0) in
/-- The items that the set at `i` gives to others. -/
def ownItems (i : Nat) (il : FklLalrItem) : Set (Nat × FklLalrItem) :=
  {p | ∃ cl x, g.Followed lr0 i il cl x ∧ cl.la ≠ .none ∧ p = (x.dst, cl.getItemAdvance)}

variable (g lr0) in
def ownSpreads (i : Nat) (il : FklLalrItem) : Set (Nat × FklLookAheadSpreads) :=
  {p | ∃ cl x, g.Followed lr0 i il cl x ∧ cl.la = .none ∧
    p = (i, ⟨x.dst, il, cl.getItemAdvance⟩)}

variable (lr0) in
/-- The sets of the collection, some with items that have look-aheads. -/
structure LaFilled (sets : LalrItemSets) : Prop where
  links : sets.map (·.links) = lr0.map (·.edges)
  kernel : ∀ i k, (i, k) ∈ held sets ∧ k.la = .none ↔ ∃ node, lr0[i]? = some node ∧ k ∈ node.key ∧
    k.la = .none

theorem LaFilled.length_eq (h : LaFilled lr0 sets) : sets.length = lr0.length := by
  simpa using congrArg List.length h.links

theorem LaFilled.getElem (h : LaFilled lr0 sets)
    {node : ExploreNode (List FklLalrItem) FklLalrItemSetLink} (hnode : lr0[i]? = some node) :
    ∃ set, sets[i]? = some set ∧ set.links = node.edges ∧
      ∀ k ∈ set.items, k.la = .none → k ∈ node.key := by
  have hlinks := congrArg (·[i]?) h.links
  simp only [List.getElem?_map, hnode, Option.map_some] at hlinks
  obtain ⟨set, hset, heq⟩ := Option.map_eq_some_iff.mp hlinks
  refine ⟨set, hset, heq, fun k hk hla => ?_⟩
  obtain ⟨node', hnode', hkey, -⟩ := (h.kernel i k).mp ⟨mem_held.mpr ⟨set, hset, hk⟩, hla⟩
  rw [hnode] at hnode'
  rwa [Option.some.inj hnode']

theorem LaFilled.puts (h : LaFilled lr0 sets) (hputs : LaPuts sets sets' A B)
    (hA : ∀ p ∈ A, p.2.la ≠ .none) : LaFilled lr0 sets' := by
  refine ⟨hputs.links.trans h.links, fun i k => ?_⟩
  rw [← h.kernel, hputs.held]
  constructor
  · rintro ⟨hk | hk, hla⟩
    · exact ⟨hk, hla⟩
    · exact absurd hla (hA _ hk)
  · exact fun hk => ⟨Or.inl hk.1, hk.2⟩

theorem laFilled_lr0Sets : LaFilled lr0 (lr0Sets lr0) := by
  refine ⟨by simp [lr0Sets], fun i k => ?_⟩
  rw [mem_held]
  simp only [lr0Sets, List.getElem?_map, Option.map_eq_some_iff]
  constructor
  · rintro ⟨⟨_, ⟨node, hnode, rfl⟩, hk⟩, hla⟩
    exact ⟨node, hnode, hk, hla⟩
  · rintro ⟨node, hnode, hk, hla⟩
    exact ⟨⟨_, ⟨node, hnode, rfl⟩, hk⟩, hla⟩

theorem ownItems_la {il : FklLalrItem} : ∀ p ∈ ownItems g lr0 i il, p.2.la ≠ .none := by
  rintro _ ⟨cl, x, -, hla, rfl⟩
  rwa [FklLalrItem.getItemAdvance_la]

variable {firstSets : FklFirstSets} {fuel : Nat}

/-- One item of a set; those with a look-ahead are left out. -/
theorem laPuts_checkItem (hg : g.Defined) (hfirst : g.TextbookFirsts firstSets)
    (hlr0 : g.Lr0Sets lr0) (hfuel : closureRounds g < fuel) (hsets : LaFilled lr0 sets)
    {node : ExploreNode (List FklLalrItem) FklLalrItemSetLink} (hnode : lr0[i]? = some node)
    {il : FklLalrItem} (hil : il.la = .none → il ∈ node.key) :
    ∃ sets', g.checkItem firstSets fuel i sets il = some sets' ∧
      LaPuts sets sets' {p | il.la = .none ∧ p ∈ ownItems g lr0 i il}
        {p | il.la = .none ∧ p ∈ ownSpreads g lr0 i il} := by
  unfold checkItem
  by_cases hla : il.la = .none
  · have hmem : node ∈ lr0 := List.mem_of_getElem? hnode
    have hkey := hil hla
    have hitems : ∀ x ∈ [il], g.LaItem x := by simpa using (hlr0.item node hmem il hkey).1
    obtain ⟨closure, hclosure, hin⟩ := lr1ItemSetClosure_spec hg hfirst hitems
    obtain ⟨set, hset, hlinks, -⟩ := hsets.getElem hnode
    rw [if_pos hla, hclosure fuel hfuel, hset]
    refine ⟨_, rfl, ?_⟩
    have hi : i < lr0.length := (List.getElem?_eq_some_iff.mp hnode).1
    have hlink : ∀ cl sets, sets.length = lr0.length → ∀ x ∈ set.links, LaPuts sets
        (checkLink i il cl sets x)
        {p | GoesAlong i il cl x ∧ cl.la ≠ .none ∧ p = (x.dst, cl.getItemAdvance)}
        {p | GoesAlong i il cl x ∧ cl.la = .none ∧ p = (i, ⟨x.dst, il, cl.getItemAdvance⟩)} :=
      fun cl sets hlen x hx =>
        laPuts_checkLink hlen hi (hlr0.dst_lt node hmem x (hlinks ▸ hx))
    have hall : ∀ sets : LalrItemSets, sets.length = lr0.length → ∀ cl ∈ closure, LaPuts sets
        (set.links.foldl (checkLink i il cl) sets)
        {p | ∃ x ∈ set.links, p ∈ {p | GoesAlong i il cl x ∧ cl.la ≠ .none ∧
          p = (x.dst, cl.getItemAdvance)}}
        {p | ∃ x ∈ set.links, p ∈ {p | GoesAlong i il cl x ∧ cl.la = .none ∧
          p = (i, ⟨x.dst, il, cl.getItemAdvance⟩)}} :=
      fun sets hlen cl _ => laPuts_foldl (hlink cl) hlen
    have hfold := laPuts_foldl hall hsets.length_eq
    have hclosed : ∀ cl, cl ∈ closure ↔ g.Lr1Closure {il} cl := by
      intro cl
      rw [hin]
      simp
    convert hfold using 1
    · ext p
      simp only [Set.mem_ofPred_eq, ownItems, hla, true_and]
      constructor
      · rintro ⟨cl, x, ⟨node', hnode', -, hx, hcl, halong⟩, hne, rfl⟩
        obtain rfl := Option.some.inj (hnode.symm.trans hnode')
        exact ⟨cl, (hclosed cl).mpr hcl, x, hlinks ▸ hx, halong, hne, rfl⟩
      · rintro ⟨cl, hcl, x, hx, halong, hne, rfl⟩
        exact ⟨cl, x, ⟨node, hnode, hkey, hlinks ▸ hx, (hclosed cl).mp hcl, halong⟩, hne, rfl⟩
    · ext p
      simp only [Set.mem_ofPred_eq, ownSpreads, hla, true_and]
      constructor
      · rintro ⟨cl, x, ⟨node', hnode', -, hx, hcl, halong⟩, hnone, rfl⟩
        obtain rfl := Option.some.inj (hnode.symm.trans hnode')
        exact ⟨cl, (hclosed cl).mpr hcl, x, hlinks ▸ hx, halong, hnone, rfl⟩
      · rintro ⟨cl, hcl, x, hx, halong, hnone, rfl⟩
        exact ⟨cl, x, ⟨node, hnode, hkey, hlinks ▸ hx, (hclosed cl).mp hcl, halong⟩, hnone, rfl⟩
  · rw [if_neg hla]
    exact ⟨sets, rfl, by simpa [hla] using LaPuts.refl sets⟩

theorem laPuts_checkSet (hg : g.Defined) (hfirst : g.TextbookFirsts firstSets)
    (hlr0 : g.Lr0Sets lr0) (hfuel : closureRounds g < fuel) (hsets : LaFilled lr0 sets)
    (hi : i < lr0.length) :
    ∃ sets', g.checkLookaheadSelfGeneratedAndSpread firstSets fuel sets i = some sets' ∧
      LaPuts sets sets' {p | ∃ k, p ∈ ownItems g lr0 i k} {p | ∃ k, p ∈ ownSpreads g lr0 i k} := by
  have hnode : lr0[i]? = some lr0[i] := List.getElem?_eq_getElem hi
  generalize lr0[i] = node at hnode
  obtain ⟨set, hset, -, hkernel⟩ := hsets.getElem hnode
  have hitem : ∀ sets, LaFilled lr0 sets → ∀ il ∈ set.items, ∃ sets',
      g.checkItem firstSets fuel i sets il = some sets' ∧
        LaPuts sets sets' {p | il.la = .none ∧ p ∈ ownItems g lr0 i il}
          {p | il.la = .none ∧ p ∈ ownSpreads g lr0 i il} :=
    fun sets hsets il hil => laPuts_checkItem hg hfirst hlr0 hfuel hsets hnode (hkernel il hil)
  obtain ⟨sets', hrun, hputs⟩ := laPuts_foldlM hitem
    (fun sets sets' il _ hsets hputs => hsets.puts hputs fun p hp => ownItems_la p hp.2) hsets
  refine ⟨sets', by simp [checkLookaheadSelfGeneratedAndSpread, hset, hrun], ?_⟩
  -- the items without a look-ahead are those of the collection
  have hkey : ∀ k, k ∈ node.key → k ∈ set.items ∧ k.la = .none := by
    intro k hk
    have hla := (hlr0.item node (List.mem_of_getElem? hnode) k hk).2
    obtain ⟨set', hset', hmem⟩ := mem_held.mp ((hsets.kernel i k).mpr ⟨node, hnode, hk, hla⟩).1
    rw [hset] at hset'
    exact ⟨Option.some.inj hset' ▸ hmem, hla⟩
  have hfollowed : ∀ {k cl x}, g.Followed lr0 i k cl x → k ∈ set.items ∧ k.la = .none := by
    rintro k cl x ⟨node', hnode', hk, -⟩
    rw [hnode] at hnode'
    exact hkey k (Option.some.inj hnode' ▸ hk)
  convert hputs using 1
  · ext p
    constructor
    · rintro ⟨k, cl, x, h, hp⟩
      exact ⟨k, (hfollowed h).1, (hfollowed h).2, cl, x, h, hp⟩
    · rintro ⟨k, -, -, hp⟩
      exact ⟨k, hp⟩
  · ext p
    constructor
    · rintro ⟨k, cl, x, h, hp⟩
      exact ⟨k, (hfollowed h).1, (hfollowed h).2, cl, x, h, hp⟩
    · rintro ⟨k, -, -, hp⟩
      exact ⟨k, hp⟩

end

end FklGrammer

end FakeLisp
