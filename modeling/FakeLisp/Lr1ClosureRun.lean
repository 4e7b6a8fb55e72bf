import FakeLisp.ItemPlace
import FakeLisp.LalrItems
import Mathlib.Data.Set.Finite.Lattice

/-! The closure with look-aheads comes to its end and gives the closure of LR(1) items, where the
FIRST sets are those of the textbook. -/

namespace FakeLisp

namespace FklGrammer

variable (g : FklGrammer)

/-- The nonterminals have sets, which hold what derivations begin with. -/
structure TextbookFirsts (firstSets : FklFirstSets) : Prop where
  isSome_eq : ∀ nt, (firstSets nt).isSome = (g.emptyFirsts nt).isSome
  has_iff : ∀ nt o, ¬isSqNt nt → nt ∈ g.prods.entries.map Prod.fst →
    ((nt, o) ∈ firstSets.has ↔ DerivesFirst g.TermEps g.rhss [.nonterminal nt] o)

def lookAheads : Set FklLalrItemLookAhead :=
  {.none, .eof, .ignore} ∪
    {t | ∃ e ∈ g.prods.entries, ∃ p ∈ e.2, ∃ s ∈ p.syms, s.term = some t}

/-- The items there can be, with look-aheads. -/
structure LaItem (x : FklLalrItem) : Prop where
  prod : ∃ nt, x.prod ∈ g.fklGetProductions nt
  idx_le : x.idx ≤ maxIdx x.prod
  onWay : x.OnWay
  la : x.la ∈ g.lookAheads

section

variable {g} {firstSets : FklFirstSets} {item x : FklLalrItem} {I : Set FklLalrItem}

/-! What the rest of a production begins with. -/

theorem TextbookFirsts.has_eq (h : g.TextbookFirsts firstSets) :
    firstSets.has = (firstOp g.TermEps g.rhss).lfp := by
  ext ⟨nt, o⟩
  by_cases hnt : ¬isSqNt nt ∧ nt ∈ g.prods.entries.map Prod.fst
  · rw [h.has_iff nt o hnt.1 hnt.2]
    exact (mem_lfp_firstOp (nt, o)).symm
  · have hnone : firstSets nt = none := by
      have hsome := h.isSome_eq nt
      rw [Bool.eq_false_iff.mpr fun h => hnt (emptyFirsts_isSome.mp h)] at hsome
      exact Option.isSome_eq_false_iff.mp hsome |> Option.isNone_iff_eq_none.mp
    constructor
    · intro hmem
      have hfalse : firstSets.hasBool (nt, o) = true := hmem
      simp [FklFirstSets.hasBool, hnone] at hfalse
    · intro hmem
      rw [← OrderHom.map_lfp] at hmem
      obtain ⟨α, hα, -⟩ := hmem
      obtain ⟨ps, hps, -⟩ := mem_rhss hα
      have hsq : ¬isSqNt nt := fun hsq => by simp [rhss, hsq] at hα
      exact absurd ⟨hsq, List.mem_map.mpr ⟨_, hps, rfl⟩⟩ hnt

/-- The sets that are computed, where the productions in order find everything. -/
theorem textbookFirsts_of_computeAllFirstSet (hg : g.Defined)
    (h : (firstOp g.TermEps g.rhss).lfp ≤ (inOrderOp g.TermEps g.rhss).lfp) :
    ∃ firsts n, (∀ fuel, n < fuel → g.computeAllFirstSet fuel = some firsts) ∧
      g.TextbookFirsts firsts := by
  obtain ⟨firsts, n, hrun, hhas, hsome⟩ := computeAllFirstSet_has hg
  refine ⟨firsts, n, hrun, hsome, fun nt o _ _ => ?_⟩
  rw [hhas, le_antisymm (lfp_inOrderOp_le _ _) h]
  exact mem_lfp_firstOp (nt, o)

theorem strFirst_lfp_iff {α : List (Symbol FklLalrItemLookAhead Nat)}
    {o : Option FklLalrItemLookAhead} :
    StrFirst g.TermEps (firstOp g.TermEps g.rhss).lfp α o ↔
      DerivesFirst g.TermEps g.rhss α o := by
  refine ⟨fun h => derivesFirst_of_strFirst (h.mono fun x hx => ?_), strFirst_of_derivesFirst⟩
  exact (mem_lfp_firstOp x).mp hx

/-- The loop over a part of a right side. -/
theorem firstSetLoop_spec (hfirst : g.TextbookFirsts firstSets) {suffix : List FklGrammerSym}
    (hlaid : CompLaid suffix) (hne : suffix ≠ [])
    (hsyms : ∀ nt, .nonterm nt ∈ suffix → ¬isSqNt nt ∧ ∃ ps, (nt, ps) ∈ g.prods.entries) :
    ∃ out, g.firstSetLoop firstSets 0 suffix ⟨[], false⟩ = some out ∧
      (∀ t, t ∈ out.first ↔ DerivesFirst g.TermEps g.rhss (g.rhsOf 0 suffix) (some t)) ∧
      (out.hasEpsilon = true ↔ DerivesFirst g.TermEps g.rhss (g.rhsOf 0 suffix) none) := by
  have hleft : .nonterm 0 ∉ suffix := fun h => (hsyms 0 h).1 rfl
  rw [← firstFromSyms_eq hleft]
  let start : FirstRun := ⟨Function.update firstSets 0 (some ⟨[], false⟩), false⟩
  have hfor : FirstsFor start suffix := by
    intro nt hnt
    obtain ⟨hsq, ps, hps⟩ := hsyms nt hnt
    have hother : start.firsts nt = firstSets nt := Function.update_of_ne hsq _ _
    rw [hother, hfirst.isSome_eq, emptyFirsts_isSome]
    exact ⟨hsq, List.mem_map.mpr ⟨_, hps, rfl⟩⟩
  have hown : start.firsts 0 = some ⟨[], false⟩ := by simp [start]
  have hhas : start.firsts.has = (firstOp g.TermEps g.rhss).lfp := by
    rw [← hfirst.has_eq]
    ext ⟨nt, o⟩
    change FklFirstSets.hasBool _ _ = true ↔ FklFirstSets.hasBool _ _ = true
    by_cases hnt : nt = 0
    · subst hnt
      have hnone : firstSets 0 = none := by
        have hsome := hfirst.isSome_eq 0
        rw [Bool.eq_false_iff.mpr fun h => (emptyFirsts_isSome.mp h).1 rfl] at hsome
        exact Option.isSome_eq_false_iff.mp hsome |> Option.isNone_iff_eq_none.mp
      cases o <;> simp [FklFirstSets.hasBool, hown, hnone]
    · have hother : start.firsts nt = firstSets nt := Function.update_of_ne hnt _ _
      simp [FklFirstSets.hasBool, hother]
  have hget : GetsFirst g 0 (g.rhsOf 0 suffix) (suffix ≠ []) start
      (g.getFirstFromSyms 0 0 suffix start) := getFirstFromSyms_spec hlaid (by simp [hown]) hfor
  have hsome : ((g.getFirstFromSyms 0 0 suffix start).1.firsts 0).isSome = true := by
    rw [hget.adds.isSome_eq, hown]
    rfl
  obtain ⟨out, hout⟩ := Option.isSome_iff_exists.mp hsome
  have hmem : ∀ o, (0, o) ∈ (g.getFirstFromSyms 0 0 suffix start).1.firsts.has ↔
      DerivesFirst g.TermEps g.rhss (g.rhsOf 0 suffix) o := by
    intro o
    have hnew : (0, o) ∉ start.firsts.has := by
      change ¬FklFirstSets.hasBool _ _ = true
      cases o <;> simp [FklFirstSets.hasBool, hown]
    rw [hget.adds.has_eq, ← strFirst_lfp_iff, ← hhas]
    simp [hnew, hne]
  refine ⟨out, ?_, fun t => ?_, ?_⟩
  · unfold firstFromSyms
    exact (if_neg hget.ne_error).trans hout
  · rw [← hmem]
    change _ ↔ FklFirstSets.hasBool _ _ = true
    simp [FklFirstSets.hasBool, hout]
  · rw [← hmem]
    change _ ↔ FklFirstSets.hasBool _ _ = true
    simp [FklFirstSets.hasBool, hout]

theorem laBeta_eq {nt : Nat} (h : item.nextNonterm = some nt) :
    laBeta item = item.getItemAdvance.idx := by
  have hnext := FklLalrItem.nextNonterm_eq.mp h
  simp only [laBeta, FklLalrItem.getItemAdvance, hnext, FklGrammerSym.compLen]
  split <;> rfl

theorem LaItem.nonterm (hg : g.Defined) (hitem : g.LaItem item) {nt : Nat}
    (h : .nonterm nt ∈ item.prod.syms) : ¬isSqNt nt ∧ ∃ ps, (nt, ps) ∈ g.prods.entries := by
  obtain ⟨nt', hp⟩ := hitem.prod
  obtain ⟨ps, hps, hmem⟩ := mem_of_productions hp
  exact hg _ hps _ hmem nt h

theorem getLaFirstSet_spec (hg : g.Defined) (hfirst : g.TextbookFirsts firstSets)
    (hitem : g.LaItem item) {nt : Nat} (hnext : item.nextNonterm = some nt) :
    ∃ first hasEpsilon, g.getLaFirstSet firstSets item.prod (laBeta item) =
        some (first, hasEpsilon) ∧
      (∀ t, t ∈ first ↔ DerivesFirst g.TermEps g.rhss (g.restOf item) (some t)) ∧
      (hasEpsilon = true ↔ DerivesFirst g.TermEps g.rhss (g.restOf item) none) := by
  rw [laBeta_eq hnext]
  unfold getLaFirstSet
  by_cases hlen : item.prod.syms.length ≤ item.getItemAdvance.idx
  · rw [if_pos hlen]
    have hrest : g.restOf item = [] := by
      unfold restOf
      rw [List.drop_eq_nil_of_le hlen]
      rfl
    refine ⟨[], true, rfl, fun t => ?_, ?_⟩
    · rw [← strFirst_lfp_iff, hrest]
      simp
    · rw [← strFirst_lfp_iff, hrest]
      simp
  · rw [if_neg hlen]
    have hne : item.prod.syms.drop item.getItemAdvance.idx ≠ [] :=
      fun h => hlen (List.drop_eq_nil_iff.mp h)
    obtain ⟨out, hout, hmem, heps⟩ := firstSetLoop_spec hfirst
      (FklLalrItem.laid_advance hitem.onWay.laid) hne
      fun nt hnt => hitem.nonterm hg (List.mem_of_mem_drop hnt)
    exact ⟨out.first, out.hasEpsilon, by rw [hout]; rfl, hmem, heps⟩

/-! The items that one of them adds. -/

/-- A production of the nonterminal that follows, with what may come behind it. -/
def Lr1Adds (g : FklGrammer) (item x : FklLalrItem) : Prop :=
  ∃ nt, item.nextNonterm = some nt ∧ x.prod ∈ g.fklGetProductions nt ∧ x.idx = 0 ∧
    (DerivesFirst g.TermEps g.rhss (g.restOf item) (some x.la) ∨
      DerivesFirst g.TermEps g.rhss (g.restOf item) none ∧ x.la = item.la)

theorem Lr1Closure.adds (h : g.Lr1Closure I item) (hx : g.Lr1Adds item x) : g.Lr1Closure I x := by
  obtain ⟨prod, idx, la⟩ := x
  obtain ⟨nt, hnext, hp, rfl, ht | ⟨he, rfl⟩⟩ := hx
  · exact .first h hnext hp ht
  · exact .empty h hnext hp he

theorem mem_lookAheads_of_derivesFirst {k : Nat} {syms : List FklGrammerSym}
    (hsyms : ∃ e ∈ g.prods.entries, ∃ p ∈ e.2, syms ⊆ p.syms) {t : FklLalrItemLookAhead}
    (h : DerivesFirst g.TermEps g.rhss (g.rhsOf k syms) (some t)) : t ∈ g.lookAheads := by
  have hterm : ∀ k syms, (∃ e ∈ g.prods.entries, ∃ p ∈ e.2, syms ⊆ p.syms) →
      ∀ t, .terminal t ∈ g.rhsOf k syms → t ∈ g.lookAheads := by
    rintro k syms ⟨e, he, p, hp, hsub⟩ t ht
    rcases mem_rhsOf_terminal ht with rfl | ⟨s, hs, hst⟩
    · exact Or.inl (by simp)
    · exact Or.inr ⟨e, he, p, hp, s, hsub hs, hst⟩
  refine derivesFirst_terminal (P := (· ∈ g.lookAheads)) (fun nt α hα t ht => ?_)
    (hterm k syms hsyms) h
  obtain ⟨ps, hps, p, hp, rfl⟩ := mem_rhss hα
  exact hterm 0 p.syms ⟨_, hps, p, hp, List.Subset.refl _⟩ t ht

theorem LaItem.adds (hitem : g.LaItem item) (hx : g.Lr1Adds item x) : g.LaItem x := by
  obtain ⟨prod, idx, la⟩ := x
  obtain ⟨nt, hnext, hp, rfl, hla⟩ := hx
  refine ⟨⟨nt, hp⟩, Nat.zero_le _, FklLalrItem.onWay_init _ _, ?_⟩
  rcases hla with ht | ⟨-, rfl⟩
  · obtain ⟨nt', hp'⟩ := hitem.prod
    obtain ⟨ps, hps, hmem⟩ := mem_of_productions hp'
    exact mem_lookAheads_of_derivesFirst ⟨_, hps, _, hmem, List.drop_subset _ _⟩ ht
  · exact hitem.la

theorem LaItem.closure (hI : ∀ y ∈ I, g.LaItem y) (h : g.Lr1Closure I x) : g.LaItem x := by
  induction h with
  | base h => exact hI _ h
  | first _ hnext hp ht ih => exact ih.adds ⟨_, hnext, hp, rfl, Or.inl ht⟩
  | empty _ hnext hp he ih => exact ih.adds ⟨_, hnext, hp, rfl, Or.inr ⟨he, rfl⟩⟩

theorem finite_lookAheads : g.lookAheads.Finite := by
  have hfew : ({.none, .eof, .ignore} : Set FklLalrItemLookAhead).Finite := Set.toFinite _
  refine hfew.union ?_
  let syms := g.prods.entries.flatMap fun e => e.2.flatMap (·.syms)
  refine (List.finite_toSet (syms.filterMap FklGrammerSym.term)).subset ?_
  rintro t ⟨e, he, p, hp, s, hs, ht⟩
  refine List.mem_filterMap.mpr ⟨s, List.mem_flatMap.mpr ⟨e, he, ?_⟩, ht⟩
  exact List.mem_flatMap.mpr ⟨p, hp, hs⟩

theorem finite_laItems : {x | g.LaItem x}.Finite := by
  have hprods : {p | ∃ nt, p ∈ g.fklGetProductions nt}.Finite := by
    refine (List.finite_toSet (g.prods.entries.flatMap (·.2))).subset ?_
    rintro p ⟨nt, hp⟩
    obtain ⟨ps, hps, hmem⟩ := mem_of_productions hp
    exact List.mem_flatMap.mpr ⟨_, hps, hmem⟩
  have hplaces : {x : FklGrammerProduction × Nat |
      (∃ nt, x.1 ∈ g.fklGetProductions nt) ∧ x.2 ≤ maxIdx x.1}.Finite := by
    have hunion := Set.Finite.biUnion hprods fun p _ =>
      (Set.finite_le_nat (maxIdx p)).image (Prod.mk p)
    refine hunion.subset ?_
    rintro ⟨p, idx⟩ ⟨hp, hidx⟩
    exact Set.mem_biUnion hp ⟨idx, hidx, rfl⟩
  have hitems := (hplaces.prod (finite_lookAheads (g := g))).image
    fun x => (⟨x.1.1, x.1.2, x.2⟩ : FklLalrItem)
  refine hitems.subset ?_
  intro x hx
  exact ⟨((x.prod, x.idx), x.la), ⟨⟨hx.prod, hx.idx_le⟩, hx.la⟩, rfl⟩

end

end FklGrammer

/-! The loop. -/

/-- The items of `A` are put into the set; those that are new wait. -/
structure Lr1Puts (s s' : Lr1Sets) (A : Set FklLalrItem) : Prop where
  itemSet : {x | x ∈ s'.itemSet} = {x | x ∈ s.itemSet} ∪ A
  nextSet : {x | x ∈ s'.nextSet} = {x | x ∈ s.nextSet} ∪ (A \ {x | x ∈ s.itemSet})

namespace Lr1Puts

variable {s s' s'' : Lr1Sets} {A B : Set FklLalrItem}

theorem refl (s : Lr1Sets) : Lr1Puts s s ∅ := ⟨by simp, by simp⟩

theorem trans (h : Lr1Puts s s' A) (h' : Lr1Puts s' s'' B) : Lr1Puts s s'' (A ∪ B) where
  itemSet := by rw [h'.itemSet, h.itemSet, Set.union_assoc]
  nextSet := by
    rw [h'.nextSet, h.nextSet, h.itemSet]
    ext x
    simp only [Set.mem_union, Set.mem_sdiff]
    tauto

theorem put (s : Lr1Sets) (x : FklLalrItem) : Lr1Puts s (s.put x) {x} := by
  unfold Lr1Sets.put
  split
  · next hx =>
    constructor
    · exact (Set.union_eq_self_of_subset_right (by simpa using hx)).symm
    · rw [Set.sdiff_eq_empty.mpr (by simpa using hx), Set.union_empty]
  · next hx =>
    constructor
    · ext y
      simp [or_comm]
    · rw [sdiff_eq_left.mpr (by simpa using hx)]
      ext y
      simp [or_comm]

theorem foldl {β : Type*} {f : Lr1Sets → β → Lr1Sets} {A : β → Set FklLalrItem}
    (hf : ∀ s b, Lr1Puts s (f s b) (A b)) (bs : List β) (s : Lr1Sets) :
    Lr1Puts s (bs.foldl f s) {x | ∃ b ∈ bs, x ∈ A b} := by
  induction bs generalizing s with
  | nil => simpa using refl s
  | cons b bs ih =>
    have hboth := (hf s b).trans (ih (f s b))
    have heq : {x | ∃ b' ∈ b :: bs, x ∈ A b'} = A b ∪ {x | ∃ b ∈ bs, x ∈ A b} := by
      ext x
      simp
    rw [heq]
    exact hboth

theorem putProds (s : Lr1Sets) (prods : List FklGrammerProduction) (la : FklLalrItemLookAhead) :
    Lr1Puts s (s.putProds prods la) {x | x.prod ∈ prods ∧ x.idx = 0 ∧ x.la = la} := by
  have heq : {x : FklLalrItem | x.prod ∈ prods ∧ x.idx = 0 ∧ x.la = la} =
      {x | ∃ p ∈ prods, x ∈ ({⟨p, 0, la⟩} : Set FklLalrItem)} := by
    ext ⟨prod, idx, la'⟩
    simp
  rw [heq]
  exact foldl (fun s p => put s ⟨p, 0, la⟩) prods s

end Lr1Puts

namespace FklGrammer

variable {g : FklGrammer} {firstSets : FklFirstSets}

theorem lr1ClosureItem_puts (hg : g.Defined) (hfirst : g.TextbookFirsts firstSets) (s : Lr1Sets)
    {item : FklLalrItem} (hitem : g.LaItem item) :
    ∃ s', g.lr1ClosureItem firstSets s item = some s' ∧ Lr1Puts s s' {x | g.Lr1Adds item x} := by
  unfold lr1ClosureItem
  split
  · next nt hnext =>
    rw [← FklLalrItem.nextNonterm_eq] at hnext
    obtain ⟨first, hasEpsilon, hrun, hmem, heps⟩ := getLaFirstSet_spec hg hfirst hitem hnext
    rw [hrun]
    refine ⟨_, rfl, ?_⟩
    have hfold := Lr1Puts.foldl (fun s la => Lr1Puts.putProds s (g.fklGetProductions nt) la) first s
    have hadds : ∀ x, g.Lr1Adds item x ↔ x.prod ∈ g.fklGetProductions nt ∧ x.idx = 0 ∧
        (x.la ∈ first ∨ hasEpsilon = true ∧ x.la = item.la) := by
      intro x
      rw [hmem, heps]
      constructor
      · rintro ⟨nt', hnext', hp, hidx, hla⟩
        rw [hnext] at hnext'
        obtain rfl := Option.some.inj hnext'
        exact ⟨hp, hidx, hla⟩
      · rintro ⟨hp, hidx, hla⟩
        exact ⟨nt, hnext, hp, hidx, hla⟩
    simp only [hadds]
    cases hasEpsilon with
    | false =>
      have heq : {x : FklLalrItem | x.prod ∈ g.fklGetProductions nt ∧ x.idx = 0 ∧
          (x.la ∈ first ∨ false = true ∧ x.la = item.la)} =
          {x | ∃ la ∈ first, x.prod ∈ g.fklGetProductions nt ∧ x.idx = 0 ∧ x.la = la} := by
        ext x
        simp
        tauto
      rw [heq]
      exact hfold
    | true =>
      have heq : {x : FklLalrItem | x.prod ∈ g.fklGetProductions nt ∧ x.idx = 0 ∧
          (x.la ∈ first ∨ true = true ∧ x.la = item.la)} =
          {x | ∃ la ∈ first, x.prod ∈ g.fklGetProductions nt ∧ x.idx = 0 ∧ x.la = la} ∪
            {x | x.prod ∈ g.fklGetProductions nt ∧ x.idx = 0 ∧ x.la = item.la} := by
        ext x
        simp
        tauto
      rw [heq]
      exact hfold.trans (Lr1Puts.putProds _ _ _)
  · next hnext =>
    refine ⟨s, rfl, ?_⟩
    have heq : {x | g.Lr1Adds item x} = ∅ := by
      ext x
      constructor
      · rintro ⟨nt, hnt, -⟩
        exact absurd (FklLalrItem.nextNonterm_eq.mp hnt) (hnext nt)
      · exact fun h => h.elim
    rw [heq]
    exact .refl s

theorem foldlM_lr1ClosureItem_puts (hg : g.Defined) (hfirst : g.TextbookFirsts firstSets)
    {items : List FklLalrItem} (hitems : ∀ x ∈ items, g.LaItem x) (s : Lr1Sets) :
    ∃ s', items.foldlM (g.lr1ClosureItem firstSets) s = some s' ∧
      Lr1Puts s s' {x | ∃ item ∈ items, g.Lr1Adds item x} := by
  induction items generalizing s with
  | nil => exact ⟨s, rfl, by simpa using Lr1Puts.refl s⟩
  | cons item items ih =>
    obtain ⟨s', hrun, hputs⟩ := lr1ClosureItem_puts hg hfirst s (hitems item List.mem_cons_self)
    obtain ⟨s'', hrun', hputs'⟩ := ih (fun x hx => hitems x (List.mem_cons_of_mem item hx)) s'
    refine ⟨s'', by rw [List.foldlM_cons, hrun]; exact hrun', ?_⟩
    have heq : {x | ∃ i ∈ item :: items, g.Lr1Adds i x} =
        {x | g.Lr1Adds item x} ∪ {x | ∃ i ∈ items, g.Lr1Adds i x} := by
      ext x
      simp
    rw [heq]
    exact hputs.trans hputs'

/-- The sets while the closure of `I` is computed. -/
structure Lr1ClosureInv (g : FklGrammer) (I : Set FklLalrItem) (n : Nat) (s : Lr1Sets) :
    Prop where
  base : I ⊆ {x | x ∈ s.itemSet}
  sound : ∀ x ∈ s.itemSet, g.Lr1Closure I x
  waits : ∀ x ∈ s.nextSet, x ∈ s.itemSet
  closed : ∀ item ∈ s.itemSet, item ∉ s.nextSet → ∀ x, g.Lr1Adds item x → x ∈ s.itemSet
  variant : 2 * ({x | g.LaItem x} \ {x | x ∈ s.itemSet}).ncard +
    (if s.nextSet.isEmpty then 0 else 1) ≤ n

theorem lr1ClosureRound_inv (hg : g.Defined) (hfirst : g.TextbookFirsts firstSets)
    {I : Set FklLalrItem} (hI : ∀ x ∈ I, g.LaItem x) {n : Nat} {s : Lr1Sets}
    (h : Lr1ClosureInv g I n s) (hwait : (!s.nextSet.isEmpty) = true) :
    ∃ s' m, g.lr1ClosureRound firstSets s = some s' ∧ m < n ∧ Lr1ClosureInv g I m s' := by
  have hla : ∀ x ∈ s.nextSet, g.LaItem x := fun x hx =>
    LaItem.closure hI (h.sound x (h.waits x hx))
  obtain ⟨s', hrun, hputs⟩ :=
    foldlM_lr1ClosureItem_puts hg hfirst hla (⟨s.itemSet, []⟩ : Lr1Sets)
  obtain ⟨hset, hnext⟩ := hputs
  have hmem : ∀ x, x ∈ s'.itemSet ↔ x ∈ s.itemSet ∨ ∃ item ∈ s.nextSet, g.Lr1Adds item x :=
    fun x => Set.ext_iff.mp hset x
  have hmemNext : ∀ x, x ∈ s'.nextSet ↔ (∃ item ∈ s.nextSet, g.Lr1Adds item x) ∧ x ∉ s.itemSet := by
    intro x
    have hx := Set.ext_iff.mp hnext x
    simpa using hx
  have hsound : ∀ x ∈ s'.itemSet, g.Lr1Closure I x := by
    intro x hx
    rcases (hmem x).mp hx with hx | ⟨item, hitem, hadds⟩
    · exact h.sound x hx
    · exact (h.sound item (h.waits item hitem)).adds hadds
  have hvariant := h.variant
  rw [if_neg (by simpa using hwait)] at hvariant
  refine ⟨s', _, hrun, ?_, ?_, hsound, ?_, ?_, le_rfl⟩
  · split
    · next hempty =>
      have hle : ({x | g.LaItem x} \ {x | x ∈ s'.itemSet}).ncard ≤
          ({x | g.LaItem x} \ {x | x ∈ s.itemSet}).ncard := by
        refine Set.ncard_le_ncard (fun x hx => ⟨hx.1, fun hin => hx.2 ?_⟩)
          (finite_laItems.subset Set.sdiff_subset)
        exact (hmem x).mpr (Or.inl hin)
      omega
    · next hempty =>
      obtain ⟨x, hx⟩ := List.exists_mem_of_ne_nil s'.nextSet (by simpa using hempty)
      obtain ⟨hadds, hnew⟩ := (hmemNext x).mp hx
      have hin : x ∈ s'.itemSet := (hmem x).mpr (Or.inr hadds)
      have hlt : ({x | g.LaItem x} \ {x | x ∈ s'.itemSet}).ncard <
          ({x | g.LaItem x} \ {x | x ∈ s.itemSet}).ncard := by
        refine Set.ncard_lt_ncard ⟨fun y hy => ⟨hy.1, fun hin => hy.2 ?_⟩, fun hsub => ?_⟩
          (finite_laItems.subset Set.sdiff_subset)
        · exact (hmem y).mpr (Or.inl hin)
        · exact (hsub ⟨LaItem.closure hI (hsound x hin), hnew⟩).2 hin
      omega
  · exact fun x hx => (hmem x).mpr (Or.inl (h.base hx))
  · exact fun x hx => (hmem x).mpr (Or.inr ((hmemNext x).mp hx).1)
  · intro item hitem hdone x hx
    refine (hmem x).mpr ?_
    have hold : item ∈ s.itemSet := by
      by_contra hnew
      exact hdone ((hmemNext item).mpr ⟨((hmem item).mp hitem).resolve_left hnew, hnew⟩)
    by_cases hwaits : item ∈ s.nextSet
    · exact Or.inr ⟨item, hwaits, hx⟩
    · exact Or.inl (h.closed item hold hwaits x hx)

/-- More rounds than this are never made. -/
noncomputable def closureRounds (g : FklGrammer) : Nat := 2 * {x | g.LaItem x}.ncard + 1

theorem lr1ItemSetClosure_spec (hg : g.Defined) (hfirst : g.TextbookFirsts firstSets)
    {items : List FklLalrItem} (hitems : ∀ x ∈ items, g.LaItem x) :
    ∃ out, (∀ fuel, closureRounds g < fuel → g.lr1ItemSetClosure firstSets fuel items = some out) ∧
      ∀ x, x ∈ out ↔ g.Lr1Closure {x | x ∈ items} x := by
  have hstart : Lr1ClosureInv g {x | x ∈ items} (closureRounds g) ⟨items, items⟩ := by
    refine ⟨fun _ hx => hx, fun _ hx => .base hx, fun _ hx => hx,
      fun item hitem hwait => absurd hitem hwait, ?_⟩
    have hle : ({x | g.LaItem x} \ {x | x ∈ items}).ncard ≤ {x | g.LaItem x}.ncard :=
      Set.ncard_le_ncard Set.sdiff_subset finite_laItems
    unfold closureRounds
    dsimp only
    split <;> omega
  obtain ⟨s, n, hs, hdone, hloop⟩ := LoopsTo.total (Lr1ClosureInv g {x | x ∈ items})
    (fun n s hs hwait => lr1ClosureRound_inv hg hfirst hitems hs hwait) hstart
  have hnil : s.nextSet = [] := by simpa using hdone
  refine ⟨s.itemSet, fun fuel hfuel => ?_, fun x => ⟨hs.sound x, fun h => ?_⟩⟩
  · unfold lr1ItemSetClosure
    rw [hloop fuel hfuel]
    rfl
  · have hclosed : ∀ item ∈ s.itemSet, ∀ x, g.Lr1Adds item x → x ∈ s.itemSet :=
      fun item hitem => hs.closed item hitem (by simp [hnil])
    induction h with
    | base h => exact hs.base h
    | first _ hnext hp ht ih => exact hclosed _ ih _ ⟨_, hnext, hp, rfl, Or.inl ht⟩
    | empty _ hnext hp he ih => exact hclosed _ ih _ ⟨_, hnext, hp, rfl, Or.inr ⟨he, rfl⟩⟩

end FklGrammer

end FakeLisp
