import FakeLisp.Lr0Items
import FakeLisp.Qsort
import Mathlib.Algebra.Order.BigOperators.Group.List
import Mathlib.Data.Finset.Powerset
import Mathlib.Data.List.Permutation

/-! The canonical collection of LR(0) item sets, and what the source builds of it. Which sequence
stands for a set depends on the sort. -/

namespace FakeLisp

/-- Finitely many sequences without repetition. -/
theorem finite_nodup_lists {α : Type*} {U : Set α} (hU : U.Finite) :
    {l : List α | l.Nodup ∧ ∀ x ∈ l, x ∈ U}.Finite := by
  classical
  refine (List.finite_toSet
    (hU.toFinset.powerset.toList.flatMap fun s => s.toList.permutations)).subset ?_
  rintro l ⟨hl, hsub⟩
  refine List.mem_flatMap.mpr ⟨l.toFinset, ?_, ?_⟩
  · simpa [Finset.subset_iff] using hsub
  · exact List.mem_permutations.mpr (List.toFinset_toList hl).symm

namespace FklGrammer

variable (g : FklGrammer)

/-- The items that the closure takes on over a symbol. -/
def gotoSet (K : Set FklLalrItem) (s : FklGrammerSym) (isAtDelim : Bool) : Set FklLalrItem :=
  {x | ∃ item, g.LrClosure K item ∧ item.getItemNext = some s ∧ item.isAtDelimSym = isAtDelim ∧
    item.getItemAdvance = x}

/-- The kernels of the canonical collection. -/
inductive LrState (extra : FklGrammerProduction) : Set FklLalrItem → Prop
  | start : LrState extra {.init extra 0}
  | goto {K : Set FklLalrItem} {item : FklLalrItem} {s : FklGrammerSym} (h : LrState extra K)
    (hitem : g.LrClosure K item) (hs : item.getItemNext = some s) :
    LrState extra (g.gotoSet K s item.isAtDelimSym)

section

variable {g} {qsort : (FklLalrItem → FklLalrItem → Int) → List FklLalrItem → List FklLalrItem}
  {extra : FklGrammerProduction}

/-- The set that a sequence stands for. -/
abbrev itemsOf (items : List FklLalrItem) : Set FklLalrItem := {x | x ∈ items}

theorem itemsOf_goto (hq : QsortSpec qsort) {items : List FklLalrItem} (h : items.Nodup)
    (l : GraLinkSym) :
    itemsOf (g.lr0ItemSetGoto qsort items l) = g.gotoSet (itemsOf items) l.sym l.isAtDelim := by
  ext x
  simp only [itemsOf, lr0ItemSetGoto, Set.mem_ofPred_eq, mem_newItems, (hq.perm _ _).mem_iff,
    mem_lr0ItemSetClosure h, gotoSet, Follows, and_assoc]

/-- The bound on the places in a production. -/
def maxIdx (p : FklGrammerProduction) : Nat :=
  p.syms.length + 2 + (p.syms.map FklGrammerSym.compLen).sum

/-- The items there can be. -/
def lr0Items (g : FklGrammer) (extra : FklGrammerProduction) : Set FklLalrItem :=
  {x | (x.prod = extra ∨ ∃ nt, x.prod ∈ g.fklGetProductions nt) ∧ x.idx ≤ maxIdx x.prod ∧
    x.la = .none}

theorem finite_lr0Items : (g.lr0Items extra).Finite := by
  let prods := extra :: g.prods.entries.flatMap (·.2)
  refine (List.finite_toSet (prods.flatMap fun p =>
    (List.range (maxIdx p + 1)).map (FklLalrItem.init p))).subset ?_
  rintro ⟨p, idx, la⟩ ⟨hp, hidx, rfl⟩
  refine List.mem_flatMap.mpr ⟨p, ?_, List.mem_map.mpr ⟨idx, ?_, rfl⟩⟩
  · rcases hp with rfl | ⟨nt, hp⟩
    · simp [prods]
    · obtain ⟨ps, hps, hmem⟩ := mem_of_productions hp
      exact List.mem_cons_of_mem _ (List.mem_flatMap.mpr ⟨_, hps, hmem⟩)
  · exact List.mem_range.mpr (Nat.lt_succ_of_le hidx)

theorem LrClosure.mem_lr0Items {K : Set FklLalrItem} (hK : K ⊆ g.lr0Items extra)
    {item : FklLalrItem} (h : g.LrClosure K item) : item ∈ g.lr0Items extra := by
  cases h with
  | base h => exact hK h
  | prod _ _ hp => exact ⟨Or.inr ⟨_, hp⟩, Nat.zero_le _, rfl⟩

theorem getItemAdvance_mem_lr0Items {item : FklLalrItem} (h : item ∈ g.lr0Items extra)
    {l : GraLinkSym} (hl : Follows item l) : item.getItemAdvance ∈ g.lr0Items extra := by
  rw [getItemAdvance_eq hl]
  refine ⟨h.1, ?_, h.2.2⟩
  have hlt : item.idx < item.prod.syms.length ∧ l.sym ∈ item.prod.syms := by
    have hnext := hl.1
    unfold FklLalrItem.getItemNext at hnext
    split_ifs at hnext with h1 h2
    · exact ⟨by omega, List.mem_of_getElem? hnext⟩
    · exact ⟨by omega, List.mem_of_getElem? hnext⟩
  have hcomp : l.sym.compLen ≤ (item.prod.syms.map FklGrammerSym.compLen).sum :=
    List.single_le_sum (by simp) _ (List.mem_map_of_mem hlt.2)
  simp only [maxIdx]
  split_ifs <;> omega

theorem gotoSet_subset {K : Set FklLalrItem} (hK : K ⊆ g.lr0Items extra) (s : FklGrammerSym)
    (d : Bool) : g.gotoSet K s d ⊆ g.lr0Items extra := by
  rintro x ⟨item, hitem, hs, hd, rfl⟩
  exact getItemAdvance_mem_lr0Items (hitem.mem_lr0Items hK) (l := ⟨s, false, d⟩) ⟨hs, hd⟩

/-- What holds of each sequence that is found. -/
structure Lr0Key (g : FklGrammer) (extra : FklGrammerProduction) (items : List FklLalrItem) :
    Prop where
  nodup : items.Nodup
  sub : itemsOf items ⊆ g.lr0Items extra
  state : g.LrState extra (itemsOf items)

theorem lr0Key_start : Lr0Key g extra [.init extra 0] where
  nodup := List.nodup_singleton _
  sub := by
    intro x hx
    obtain rfl : x = .init extra 0 := by simpa using hx
    exact ⟨Or.inl rfl, Nat.zero_le _, rfl⟩
  state := by
    have h : itemsOf [FklLalrItem.init extra 0] = {.init extra 0} := by
      ext x
      simp
    rw [h]
    exact .start

theorem Lr0Key.goto (hq : QsortSpec qsort) {items : List FklLalrItem} (h : Lr0Key g extra items)
    {l : GraLinkSym} (hl : l ∈ g.linkSyms items) :
    Lr0Key g extra (g.lr0ItemSetGoto qsort items l) := by
  obtain ⟨item, hitem, hs, hd⟩ := follows_of_mem_addGraLinkSyms hl
  refine ⟨nodup_newItems _ _, ?_, ?_⟩
  · rw [itemsOf_goto hq h.nodup]
    exact gotoSet_subset h.sub _ _
  · rw [itemsOf_goto hq h.nodup, ← hd]
    exact .goto h.state ((mem_lr0ItemSetClosure h.nodup).mp hitem) hs

theorem lr0Key_of_leads (hq : QsortSpec qsort) {items : List FklLalrItem}
    (h : Relation.ReflTransGen (Explore.Leads g.linkSyms (g.lr0ItemSetGoto qsort))
      [.init extra 0] items) : Lr0Key g extra items := by
  induction h with
  | refl => exact lr0Key_start
  | tail _ hlead ih =>
    obtain ⟨l, hl, rfl⟩ := hlead
    exact ih.goto hq hl

/-! The order of a sequence. -/

theorem lalrItemCmp_advance {a b : FklLalrItem} {l : GraLinkSym} (ha : Follows a l)
    (hb : Follows b l) :
    g.lalrItemCmp a.getItemAdvance b.getItemAdvance = g.lalrItemCmp a b := by
  rw [getItemAdvance_eq ha, getItemAdvance_eq hb]
  simp [lalrItemCmp]

/-- The items that go on with one symbol come out of the sort in one order only. -/
def SortsGroups (g : FklGrammer) (K : Set FklLalrItem) : Prop :=
  CmpOrders g.lalrItemCmp {x | g.LrClosure K x} ∨
    ∀ l a b, g.LrClosure K a → g.LrClosure K b → Follows a l → Follows b l → a = b

/-- The sequence is the only one in order of its items. -/
structure Lr0Ordered (g : FklGrammer) (items : List FklLalrItem) : Prop where
  pairwise : items.Pairwise fun a b => g.lalrItemCmp a b < 0
  asymm : ∀ a ∈ items, ∀ b ∈ items, g.lalrItemCmp a b < 0 → 0 < g.lalrItemCmp b a

theorem lr0Ordered_of_subsingleton {items : List FklLalrItem} (hn : items.Nodup)
    (hla : ∀ a ∈ items, a.la = .none) (h : ∀ a ∈ items, ∀ b ∈ items, a = b) :
    Lr0Ordered g items := by
  refine ⟨hn.imp_of_mem fun ha hb hab => absurd (h _ ha _ hb) hab, fun a ha b hb hab => ?_⟩
  obtain rfl := h a ha b hb
  simp [lalrItemCmp, lalrLookaheadCmp, hla a ha] at hab

theorem Lr0Ordered.goto (hq : QsortSpec qsort) {items : List FklLalrItem}
    (h : Lr0Key g extra items) (hord : SortsGroups g (itemsOf items)) (l : GraLinkSym) :
    Lr0Ordered g (g.lr0ItemSetGoto qsort items l) := by
  have hclosure := nodup_lr0ItemSetClosure (g := g) h.nodup
  have hmem : ∀ {x}, x ∈ g.lr0ItemSetClosure items ↔ g.LrClosure (itemsOf items) x :=
    mem_lr0ItemSetClosure h.nodup
  have hperm := hq.perm g.lalrItemCmp (g.lr0ItemSetClosure items)
  have hback : ∀ {x}, x ∈ g.lr0ItemSetGoto qsort items l →
      ∃ a, g.LrClosure (itemsOf items) a ∧ Follows a l ∧ a.getItemAdvance = x := by
    intro x hx
    obtain ⟨a, ha, hal, rfl⟩ := mem_newItems.mp hx
    exact ⟨a, hmem.mp (hperm.mem_iff.mp ha), hal, rfl⟩
  rcases hord with hord | hone
  · have hsorted := hq.sorted g.lalrItemCmp _ hclosure (hord.mono fun x hx => hmem.mp hx)
    refine ⟨?_, fun x hx y hy => ?_⟩
    · rw [lr0ItemSetGoto, newItems_eq_map (hperm.nodup_iff.mpr hclosure), List.pairwise_map]
      refine (hsorted.filter _).imp_of_mem fun ha hb hab => ?_
      simp only [List.mem_filter, decide_eq_true_eq] at ha hb
      rwa [lalrItemCmp_advance (l := l) ⟨ha.2.1, ha.2.2.symm⟩ ⟨hb.2.1, hb.2.2.symm⟩]
    · obtain ⟨a, ha, hal, rfl⟩ := hback hx
      obtain ⟨b, hb, hbl, rfl⟩ := hback hy
      rw [lalrItemCmp_advance hal hbl, lalrItemCmp_advance hbl hal]
      exact hord.asymm a ha b hb
  · refine lr0Ordered_of_subsingleton (nodup_newItems _ _) (fun x hx => ?_) fun x hx y hy => ?_
    · obtain ⟨a, ha, hal, rfl⟩ := hback hx
      exact (getItemAdvance_mem_lr0Items (ha.mem_lr0Items h.sub) hal).2.2
    · obtain ⟨a, ha, hal, rfl⟩ := hback hx
      obtain ⟨b, hb, hbl, rfl⟩ := hback hy
      rw [hone l a b ha hb hal hbl]

theorem lr0Ordered_of_leads (hq : QsortSpec qsort)
    (hord : ∀ K, g.LrState extra K → SortsGroups g K)
    {items : List FklLalrItem} (h : Relation.ReflTransGen
      (Explore.Leads g.linkSyms (g.lr0ItemSetGoto qsort)) [.init extra 0] items) :
    Lr0Ordered g items := by
  cases h with
  | refl =>
    refine lr0Ordered_of_subsingleton (List.nodup_singleton _) ?_ (by simp)
    simp [FklLalrItem.init]
  | tail hreach hlead =>
    obtain ⟨l, _, rfl⟩ := hlead
    have hkey := lr0Key_of_leads hq hreach
    exact Lr0Ordered.goto hq hkey (hord _ hkey.state) l

theorem Lr0Ordered.eq {items items' : List FklLalrItem} (h : Lr0Ordered g items)
    (h' : Lr0Ordered g items') (hn : items.Nodup) (hn' : items'.Nodup)
    (heq : itemsOf items = itemsOf items') : items = items' := by
  have hmem : ∀ x, x ∈ items ↔ x ∈ items' := fun x => Set.ext_iff.mp heq x
  refine List.Perm.eq_of_pairwise ?_ h.pairwise h'.pairwise
    ((List.perm_ext_iff_of_nodup hn hn').mpr hmem)
  intro a b ha hb hab hba
  have := h.asymm a ha b ((hmem b).mpr hb) hab
  omega

/-! A set of items has one kernel. -/

theorem LrState.idx_pos {K : Set FklLalrItem} (h : g.LrState extra K) :
    K = {.init extra 0} ∨ ∀ x ∈ K, 0 < x.idx := by
  cases h with
  | start => exact Or.inl rfl
  | goto _ _ _ =>
    refine Or.inr ?_
    rintro x ⟨item, _, hs, hd, rfl⟩
    rw [getItemAdvance_eq (l := ⟨_, false, _⟩) ⟨hs, hd⟩]
    split_ifs <;> simp

theorem LrClosure.mem_or_init (hg : g.Defined) {rest : List FklGrammerProduction}
    (hextra : g.fklGetProductions 0 = extra :: rest) {K : Set FklLalrItem}
    (hK : K ⊆ g.lr0Items extra) {x : FklLalrItem} (h : g.LrClosure K x) :
    x ∈ K ∨ x.idx = 0 ∧ x.prod.left ≠ 0 := by
  cases h with
  | base h => exact Or.inl h
  | @prod item nt p h hnext hp =>
    refine Or.inr ⟨rfl, ?_⟩
    obtain ⟨ps, hps, hpmem⟩ := mem_of_productions hp
    obtain ⟨nt', hitem⟩ : ∃ nt', item.prod ∈ g.fklGetProductions nt' := by
      rcases (h.mem_lr0Items hK).1 with heq | hmem
      · exact ⟨0, by simp [hextra, heq]⟩
      · exact hmem
    obtain ⟨ps', hps', hmem'⟩ := mem_of_productions hitem
    have hnt := (hg _ hps' _ hmem' nt (nextNonterm_mem hnext)).1
    rw [show (FklLalrItem.init p 0).prod.left = nt from g.left_eq _ hps p hpmem]
    exact hnt

theorem LrState.eq_of_closure_eq (hg : g.Defined) {rest : List FklGrammerProduction}
    (hextra : g.fklGetProductions 0 = extra :: rest) {K K' : Set FklLalrItem}
    (h : g.LrState extra K) (h' : g.LrState extra K') (hK : K ⊆ g.lr0Items extra)
    (hK' : K' ⊆ g.lr0Items extra)
    (heq : {x | g.LrClosure K x} = {x | g.LrClosure K' x}) : K = K' := by
  have hleft : extra.left = 0 := by
    obtain ⟨ps, hps, hmem⟩ := mem_of_productions
      (show extra ∈ g.fklGetProductions 0 by simp [hextra])
    exact g.left_eq _ hps extra hmem
  have hiff : ∀ x, g.LrClosure K x ↔ g.LrClosure K' x := fun x => Set.ext_iff.mp heq x
  -- the first item has only the first state
  have hstart : ∀ {K}, K ⊆ g.lr0Items extra → g.LrState extra K →
      g.LrClosure K (.init extra 0) → K = {.init extra 0} := by
    intro K hK h hx
    refine h.idx_pos.resolve_right fun hpos => ?_
    rcases hx.mem_or_init hg hextra hK with hx | hx
    · exact absurd (hpos _ hx) (by simp [FklLalrItem.init])
    · exact hx.2 hleft
  rcases h.idx_pos with hs | hpos
  · rw [hs]
    refine (hstart hK' h' ((hiff _).mp (.base ?_))).symm
    rw [hs]
    rfl
  · rcases h'.idx_pos with hs' | hpos'
    · rw [hs']
      refine hstart hK h ((hiff _).mpr (.base ?_))
      rw [hs']
      rfl
    · have hsub : ∀ {K K'}, K' ⊆ g.lr0Items extra → (∀ x ∈ K, 0 < x.idx) →
          (∀ x, g.LrClosure K x → g.LrClosure K' x) → K ⊆ K' := by
        intro K K' hK' hpos hle x hx
        refine ((hle x (.base hx)).mem_or_init hg hextra hK').resolve_right fun hz => ?_
        have := hpos x hx
        omega
      exact Set.Subset.antisymm (hsub hK' hpos fun x => (hiff x).mp)
        (hsub hK hpos' fun x => (hiff x).mpr)

/-! The collection. -/

/-- The item sets are those of the canonical collection, with the links between them. -/
structure Lr0Collection (g : FklGrammer) (extra : FklGrammerProduction)
    (states : List (ExploreNode (List FklLalrItem) FklLalrItemSetLink)) : Prop where
  state_iff : ∀ K, g.LrState extra K ↔ ∃ st ∈ states, itemsOf st.key = K
  goto : ∀ st ∈ states, ∀ item s, g.LrClosure (itemsOf st.key) item → item.getItemNext = some s →
    ∃ link ∈ st.edges, link.sym = s ∧ ∃ dst, states[link.dst]? = some dst ∧
      itemsOf dst.key = g.gotoSet (itemsOf st.key) s item.isAtDelimSym
  link : ∀ st ∈ states, ∀ link ∈ st.edges, ∃ item, g.LrClosure (itemsOf st.key) item ∧
    item.getItemNext = some link.sym ∧ ∃ dst, states[link.dst]? = some dst ∧
      itemsOf dst.key = g.gotoSet (itemsOf st.key) link.sym item.isAtDelimSym

theorem lr0Collection_of_explored (hq : QsortSpec qsort)
    {states : List (ExploreNode (List FklLalrItem) FklLalrItemSetLink)}
    (h : Explore.Explored g.linkSyms (g.lr0ItemSetGoto qsort) itemSetLink [.init extra 0] states) :
    Lr0Collection g extra states := by
  have hkey : ∀ st ∈ states, Lr0Key g extra st.key := fun st hst =>
    lr0Key_of_leads hq ((h.mem_iff _).mp (List.mem_map_of_mem hst))
  -- the item set at the end of a link
  have hdst : ∀ {d : Nat} {k : List FklLalrItem}, (Explore.keys states)[d]? = some k →
      ∃ dst, states[d]? = some dst ∧ dst.key = k := by
    intro d k hd
    simpa [Explore.keys] using hd
  have hgoto : ∀ st ∈ states, ∀ item s, g.LrClosure (itemsOf st.key) item →
      item.getItemNext = some s → ∃ link ∈ st.edges, link.sym = s ∧ ∃ dst,
        states[link.dst]? = some dst ∧
          itemsOf dst.key = g.gotoSet (itemsOf st.key) s item.isAtDelimSym := by
    intro st hst item s hitem hs
    have hk := hkey st hst
    obtain ⟨l, hl, rfl, hdelim⟩ :=
      exists_mem_addGraLinkSyms ((mem_lr0ItemSetClosure hk.nodup).mpr hitem) hs
    obtain ⟨d, he, hd⟩ := h.edges st hst l hl
    obtain ⟨dst, hdst, hdkey⟩ := hdst hd
    refine ⟨_, he, rfl, dst, hdst, ?_⟩
    rw [hdkey, itemsOf_goto hq hk.nodup, hdelim]
  refine ⟨fun K => ⟨fun hK => ?_, ?_⟩, hgoto, ?_⟩
  · induction hK with
    | start =>
      have hstart : [FklLalrItem.init extra 0] ∈ Explore.keys states :=
        (h.mem_iff _).mpr Relation.ReflTransGen.refl
      obtain ⟨st, hst, hk⟩ := List.mem_map.mp hstart
      refine ⟨st, hst, ?_⟩
      ext x
      simp [hk]
    | goto _ hitem hs ih =>
      obtain ⟨st, hst, rfl⟩ := ih
      obtain ⟨link, _, _, dst, hdst, heq⟩ := hgoto st hst _ _ hitem hs
      exact ⟨dst, List.mem_of_getElem? hdst, heq⟩
  · rintro ⟨st, hst, rfl⟩
    exact (hkey st hst).state
  · intro st hst link hlink
    have hk := hkey st hst
    obtain ⟨l, hl, d, rfl, hd⟩ := h.sound st hst link hlink
    obtain ⟨item, hitem, hs, hdelim⟩ := follows_of_mem_addGraLinkSyms hl
    obtain ⟨dst, hdst, hdkey⟩ := hdst hd
    refine ⟨item, (mem_lr0ItemSetClosure hk.nodup).mp hitem, hs, dst, hdst, ?_⟩
    rw [hdkey, itemsOf_goto hq hk.nodup, hdelim]
    rfl

/-- The collection is built. Each set is in it once when the comparison orders the items of each
closure that is sorted, unless the order does not matter. -/
theorem fklGenerateLr0Items_canonical (hq : QsortSpec qsort) (hg : g.Defined)
    {rest : List FklGrammerProduction} (hextra : g.fklGetProductions 0 = extra :: rest) :
    ∃ states n, (∀ fuel, n < fuel → g.fklGenerateLr0Items qsort fuel = some states) ∧
      Lr0Collection g extra states ∧
      ((∀ K, g.LrState extra K → SortsGroups g K) →
        ∀ (i j : Nat) st st', states[i]? = some st → states[j]? = some st' →
          {x | g.LrClosure (itemsOf st.key) x} = {x | g.LrClosure (itemsOf st'.key) x} → i = j) := by
  have hfin : {items | Relation.ReflTransGen (Explore.Leads g.linkSyms (g.lr0ItemSetGoto qsort))
      [.init extra 0] items}.Finite :=
    (finite_nodup_lists finite_lr0Items).subset fun items h =>
      ⟨(lr0Key_of_leads hq h).nodup, fun x hx => (lr0Key_of_leads hq h).sub hx⟩
  obtain ⟨states, n, hrun, hex⟩ : ∃ states n, (∀ fuel, n < fuel →
      Explore.run g.linkSyms (g.lr0ItemSetGoto qsort) itemSetLink [.init extra 0] fuel =
        some ⟨states, []⟩) ∧ Explore.Explored g.linkSyms (g.lr0ItemSetGoto qsort) itemSetLink
      [.init extra 0] states := Explore.run_explored _ hfin
  refine ⟨states, n, fun fuel hfuel => by simp [fklGenerateLr0Items, hextra, hrun fuel hfuel],
    lr0Collection_of_explored hq hex, fun hord i j st st' hst hst' heq => ?_⟩
  have hreach : ∀ {i : Nat} {st}, states[i]? = some st → Relation.ReflTransGen
      (Explore.Leads g.linkSyms (g.lr0ItemSetGoto qsort)) [.init extra 0] st.key :=
    fun hst => (hex.mem_iff _).mp (Explore.mem_keys hst)
  have hk := lr0Key_of_leads hq (hreach hst)
  have hk' := lr0Key_of_leads hq (hreach hst')
  have hsets := hk.state.eq_of_closure_eq hg hextra hk'.state hk.sub hk'.sub heq
  have hkeys := (lr0Ordered_of_leads hq hord (hreach hst)).eq
    (lr0Ordered_of_leads hq hord (hreach hst')) hk.nodup hk'.nodup hsets
  have hi : (Explore.keys states)[i]? = some st.key := by simp [Explore.keys, hst]
  have hj : (Explore.keys states)[j]? = some st.key := by simp [Explore.keys, hst', hkeys]
  exact (List.getElem?_inj (List.getElem?_eq_some_iff.mp hi).1 hex.nodup).mp (hi.trans hj.symm)

theorem LrState.sub {K : Set FklLalrItem} (h : g.LrState extra K) : K ⊆ g.lr0Items extra := by
  induction h with
  | start =>
    rintro x rfl
    exact ⟨Or.inl rfl, Nat.zero_le _, rfl⟩
  | goto _ _ _ ih => exact gotoSet_subset ih _ _

end

def oneStringExtra : FklGrammerProduction :=
  ⟨0, [.ignore, .nonterm 1], laid_start⟩

def oneStringProd : FklGrammerProduction := ⟨1, [.string 0], laid_string0⟩

/-- A start symbol with one production, a string. -/
def oneString : FklGrammer where
  prods := ⟨[(0, [oneStringExtra]), (1, [oneStringProd])], by simp⟩
  left_eq := by simp [oneStringExtra, oneStringProd]
  str _ := [97]
  totalsize _ := 0
  isRegexMatchEpsilon _ := false
  isBuiltinTerminalMatchEpsilon _ := false

theorem oneString_follows {x : FklLalrItem} (hx : x ∈ oneString.lr0Items oneStringExtra)
    {l : GraLinkSym} (h : Follows x l) :
    x = .init oneStringExtra 0 ∧ l.sym = .nonterm 1 ∧ l.isAtDelim = true ∨
      x = .init oneStringExtra 1 ∧ l.sym = .nonterm 1 ∧ l.isAtDelim = false ∨
      x = .init oneStringProd 0 ∧ l.sym = .string 0 := by
  obtain ⟨p, idx, la⟩ := x
  obtain ⟨hp, _, rfl⟩ := hx
  have hprod : p = oneStringExtra ∨ p = oneStringProd := by
    rcases hp with hp | ⟨nt, hp⟩
    · exact Or.inl hp
    · obtain ⟨ps, hps, hmem⟩ := mem_of_productions hp
      simp only [oneString, List.mem_cons, Prod.mk.injEq, List.not_mem_nil, or_false] at hps
      rcases hps with ⟨_, rfl⟩ | ⟨_, rfl⟩
      · exact Or.inl (by simpa using hmem)
      · exact Or.inr (by simpa using hmem)
  obtain ⟨hs, hd⟩ := h
  have hidx : idx < p.syms.length := by
    by_contra hge
    simp [FklLalrItem.getItemNext, not_lt.mp hge] at hs
  rcases hprod with rfl | rfl
  · obtain rfl | rfl : idx = 0 ∨ idx = 1 := by
      simp only [oneStringExtra, List.length_cons, List.length_nil] at hidx
      omega
    · exact Or.inl ⟨rfl, (Option.some.inj hs).symm, hd.symm⟩
    · exact Or.inr (Or.inl ⟨rfl, (Option.some.inj hs).symm, hd.symm⟩)
  · obtain rfl : idx = 0 := by
      simp only [oneStringProd, List.length_cons, List.length_nil] at hidx
      omega
    exact Or.inr (Or.inr ⟨rfl, (Option.some.inj hs).symm⟩)

theorem oneString_sortsGroups {K : Set FklLalrItem} (h : oneString.LrState oneStringExtra K) :
    SortsGroups oneString K := by
  refine Or.inr fun l a b ha hb hal hbl => ?_
  have ha' := oneString_follows (ha.mem_lr0Items h.sub) hal
  have hb' := oneString_follows (hb.mem_lr0Items h.sub) hbl
  rcases ha' with ⟨rfl, hs, hd⟩ | ⟨rfl, hs, hd⟩ | ⟨rfl, hs⟩ <;>
    rcases hb' with ⟨rfl, hs', hd'⟩ | ⟨rfl, hs', hd'⟩ | ⟨rfl, hs'⟩ <;> simp_all

theorem oneString_canonical : QsortSpec (@msort FklLalrItem) ∧ oneString.Defined ∧
    ∃ states n, (∀ fuel, n < fuel → oneString.fklGenerateLr0Items msort fuel = some states) ∧
      Lr0Collection oneString oneStringExtra states ∧
      ∀ (i j : Nat) st st', states[i]? = some st → states[j]? = some st' →
        {x | oneString.LrClosure (itemsOf st.key) x} =
          {x | oneString.LrClosure (itemsOf st'.key) x} → i = j := by
  have hdef : oneString.Defined := by
    simp [Defined, oneString, oneStringExtra, oneStringProd, isSqNt]
  obtain ⟨states, n, hrun, hcol, huniq⟩ :=
    fklGenerateLr0Items_canonical qsortSpec_msort hdef
      (show oneString.fklGetProductions 0 = oneStringExtra :: [] from rfl)
  exact ⟨qsortSpec_msort, hdef, states, n, hrun, hcol, huniq fun _ => oneString_sortsGroups⟩

/-- Two nonterminals whose productions begin with one string, in two orders. -/
def twoOrders : FklGrammer where
  prods := ⟨[
    (0, [⟨0, [.ignore, .nonterm 1], laid_start⟩]),
    (1, [⟨1, [.string 0, .nonterm 3, .string 2],
        .sym (by simp) (.sym (by simp) (.sym (by simp) .nil))⟩,
      ⟨1, [.string 0, .nonterm 2, .string 3],
        .sym (by simp) (.sym (by simp) (.sym (by simp) .nil))⟩,
      ⟨1, [.string 1, .nonterm 2, .string 2],
        .sym (by simp) (.sym (by simp) (.sym (by simp) .nil))⟩,
      ⟨1, [.string 1, .nonterm 3, .string 3],
        .sym (by simp) (.sym (by simp) (.sym (by simp) .nil))⟩]),
    (3, [⟨3, [.string 4], .sym (by simp) .nil⟩]),
    (2, [⟨2, [.string 4, .string 5], .sym (by simp) (.sym (by simp) .nil)⟩])], by simp⟩
  left_eq := by simp
  str s := [97 + UInt8.ofNat s]
  totalsize _ := 0
  isRegexMatchEpsilon _ := false
  isBuiltinTerminalMatchEpsilon _ := false

theorem twoOrders_twice : QsortSpec (@msort FklLalrItem) ∧ twoOrders.Defined ∧
    ∃ a b : FklLalrItem, a ≠ b ∧ ∀ n,
      (twoOrders.fklGenerateLr0Items msort (n + 16)).map
        (fun states => (states[6]?.map (·.key), states[9]?.map (·.key))) =
          some (some [a, b], some [b, a]) := by
  refine ⟨qsortSpec_msort, by simp [Defined, twoOrders, isSqNt], ?_⟩
  refine ⟨.init ⟨3, [.string 4], .sym (by simp) .nil⟩ 1,
    .init ⟨2, [.string 4, .string 5], .sym (by simp) (.sym (by simp) .nil)⟩ 1, ?_, fun _ => rfl⟩
  simp [FklLalrItem.init]

end FklGrammer

end FakeLisp
