import FakeLisp.LalrItemsRun

/-! The look-aheads that the items get, and those of the canonical LR(1) sets. The source leaves out
the links of a set to itself, and looks at what a link is for with nonterminals only. -/

namespace FakeLisp

namespace FklGrammer

variable (g : FklGrammer) (extra : FklGrammerProduction) (lr0 : FklLalrItemSetHashMap)

/-- Every item of every state has exactly the look-aheads that it has in the LR(1) sets. -/
def LookaheadsRight (states : FklLalrItemSetHashMap) : Prop :=
  ∀ (i : Nat) node state, lr0[i]? = some node → states[i]? = some state →
    ∀ x, x ∈ state.key ↔ g.LalrLa extra (itemsOf node.key) x

/-- No look-ahead is lost or goes astray on the links. -/
structure LinksServe : Prop where
  /-- A link that is followed for an item leads to where the item is taken. -/
  lands : ∀ i k cl x node dst la, g.Followed lr0 i k cl x → lr0[i]? = some node →
    lr0[x.dst]? = some dst → g.LalrLa extra (itemsOf node.key) (k.withLa la) →
      cl.getItemAdvance.core ∈ dst.key
  /-- An item that is in no LR(1) set gives others no look-aheads but such as they have. -/
  own : ∀ i k cl x node dst, g.Followed lr0 i k cl x → lr0[i]? = some node →
    lr0[x.dst]? = some dst → cl.la ≠ .none →
      (∀ la, ¬g.LalrLa extra (itemsOf node.key) (k.withLa la)) →
        g.LalrLa extra (itemsOf dst.key) cl.getItemAdvance
  /-- Where no link is followed the look-ahead comes along others. -/
  reached : ∀ i j y cl s node dst, g.Brought lr0 i y → g.Lr1Closure {y} cl →
    cl.getItemNext = some s → lr0[i]? = some node → lr0[j]? = some dst →
      itemsOf dst.key = g.gotoSet (itemsOf node.key) s cl.isAtDelimSym →
        (∀ x ∈ node.edges, x.dst = j → ¬GoesAlong i y cl x) → g.Brought lr0 j cl.getItemAdvance

/-- The collection, which begins with the start. -/
structure Lr0Run : Prop where
  collection : Lr0Collection g extra lr0
  start : ∃ node, lr0[0]? = some node ∧ node.key = [.init extra 0]
  start_once : ∀ i node, lr0[i]? = some node → itemsOf node.key = {.init extra 0} → i = 0

section

variable {g} {extra} {lr0} {qsort : (FklLalrItem → FklLalrItem → Int) → List FklLalrItem →
  List FklLalrItem} {rest : List FklGrammerProduction} {fuel : Nat} {x y : FklLalrItem}
  {I K : Set FklLalrItem} {node : ExploreNode (List FklLalrItem) FklLalrItemSetLink} {i : Nat}

theorem lr0Run_of_run (hq : QsortSpec qsort) (hextra : g.fklGetProductions 0 = extra :: rest)
    (hrun : g.fklGenerateLr0Items qsort fuel = some lr0) : Lr0Run g extra lr0 := by
  have hfin : {items | Relation.ReflTransGen (Explore.Leads g.linkSyms (g.lr0ItemSetGoto qsort))
      [.init extra 0] items}.Finite :=
    (finite_nodup_lists finite_lr0Items).subset fun items h =>
      ⟨(lr0Key_of_leads hq h).nodup, fun x hx => (lr0Key_of_leads hq h).sub hx⟩
  obtain ⟨nodes, n, hloop, hex⟩ : ∃ nodes n, (∀ fuel, n < fuel →
      Explore.run g.linkSyms (g.lr0ItemSetGoto qsort) itemSetLink [.init extra 0] fuel =
        some ⟨nodes, []⟩) ∧ Explore.Explored g.linkSyms (g.lr0ItemSetGoto qsort) itemSetLink
      [.init extra 0] nodes := Explore.run_explored _ hfin
  rw [fklGenerateLr0Items, hextra] at hrun
  obtain ⟨s, hs, rfl⟩ := Option.map_eq_some_iff.mp hrun
  have hend : s = ⟨nodes, []⟩ := LoopsTo.eq_of_run hloop hs
  have hhead := Explore.run_head hs
  subst hend
  have hstart : ∃ node, nodes[0]? = some node ∧ node.key = [.init extra 0] := by
    simpa [Explore.keys, List.head?_eq_getElem?] using hhead
  refine ⟨lr0Collection_of_explored hq hex, hstart, fun i node hnode hkey => ?_⟩
  obtain ⟨node₀, hnode₀, hkey₀⟩ := hstart
  have hnodup := (lr0Key_of_leads hq ((hex.mem_iff _).mp (Explore.mem_keys hnode))).nodup
  have hsame : node.key = [.init extra 0] := by
    refine List.perm_singleton.mp ((List.perm_ext_iff_of_nodup hnodup (by simp)).mpr fun x => ?_)
    rw [List.mem_singleton]
    exact Set.ext_iff.mp hkey x
  have hi : (Explore.keys nodes)[i]? = some [.init extra 0] := by
    simp [Explore.keys, hnode, hsame]
  have hj : (Explore.keys nodes)[0]? = some [.init extra 0] := by
    simp [Explore.keys, hnode₀, hkey₀]
  exact (List.getElem?_inj (List.getElem?_eq_some_iff.mp hi).1 hex.nodup).mp (hi.trans hj.symm)

namespace Lr0Run

variable (h : Lr0Run g extra lr0)

include h

theorem lrState (hnode : lr0[i]? = some node) : g.LrState extra (itemsOf node.key) :=
  (h.collection.state_iff _).mpr ⟨node, List.mem_of_getElem? hnode, rfl⟩

theorem lr0Sets (hextra : g.fklGetProductions 0 = extra :: rest) : g.Lr0Sets lr0 := by
  constructor
  · intro node hnode k hk
    obtain ⟨i, hi⟩ := List.mem_iff_getElem?.mp hnode
    have hstate := h.lrState hi
    obtain ⟨hp, hidx, hla⟩ := hstate.sub hk
    refine ⟨⟨?_, hidx, hstate.onWay k hk, Or.inl (by simp [hla])⟩, hla⟩
    rcases hp with hp | hp
    · exact ⟨0, by simp [hextra, hp]⟩
    · exact hp
  · intro node hnode x hx
    obtain ⟨item, -, -, dst, hdst, -⟩ := h.collection.link node hnode x hx
    exact (List.getElem?_eq_some_iff.mp hdst).1
  · intro node hnode x hx hzero
    obtain ⟨item, hitem, hs, dst, hdst, hgoto⟩ := h.collection.link node hnode x hx
    obtain ⟨node₀, hnode₀, hkey₀⟩ := h.start
    rw [hzero, hnode₀] at hdst
    obtain rfl := Option.some.inj hdst
    have hmem : item.getItemAdvance ∈ itemsOf node₀.key := by
      rw [hgoto]
      exact ⟨item, hitem, hs, rfl, rfl⟩
    have hlt := item.idx_lt_getItemAdvance
    rw [itemsOf, hkey₀] at hmem
    have hinit : item.getItemAdvance = .init extra 0 := by simpa using hmem
    rw [hinit] at hlt
    exact Nat.not_lt_zero _ hlt

/-- A link leads to where the item is taken when its set has the item behind the symbol. -/
theorem goto_of_mem {cl : FklLalrItem} {x : FklLalrItemSetLink}
    {dst : ExploreNode (List FklLalrItem) FklLalrItemSetLink} (hnode : lr0[i]? = some node)
    (hcl : g.LrClosure (itemsOf node.key) cl) (hx : x ∈ node.edges)
    (hs : cl.getItemNext = some x.sym) (hdst : lr0[x.dst]? = some dst)
    (hmem : cl.getItemAdvance ∈ dst.key) :
    itemsOf dst.key = g.gotoSet (itemsOf node.key) x.sym cl.isAtDelimSym := by
  obtain ⟨item, -, -, dst', hdst', hgoto⟩ :=
    h.collection.link node (List.mem_of_getElem? hnode) x hx
  obtain rfl := Option.some.inj (hdst.symm.trans hdst')
  have hin : cl.getItemAdvance ∈ itemsOf dst.key := hmem
  rw [hgoto] at hin
  rw [hgoto, (h.lrState hnode).isAtDelimSym_eq hcl hs hin]

end Lr0Run

/-- What is in a closure was there or is the beginning of a production of another nonterminal than
the start. -/
theorem Lr1Closure.mem_or_init (hg : g.Defined) (hI : ∀ y ∈ I, g.LaItem y)
    (h : g.Lr1Closure I x) : x ∈ I ∨ x.idx = 0 ∧ x.prod.left ≠ 0 := by
  have hleft : ∀ {item nt p}, g.Lr1Closure I item → item.nextNonterm = some nt →
      p ∈ g.fklGetProductions nt → p.left ≠ 0 := by
    intro item nt p hitem hnext hp
    obtain ⟨hsq, -⟩ := (LaItem.closure hI hitem).nonterm hg (nextNonterm_mem hnext)
    obtain ⟨ps, hps, hmem⟩ := mem_of_productions hp
    rw [g.left_eq _ hps p hmem]
    exact hsq
  cases h with
  | base h => exact Or.inl h
  | first h hnext hp _ => exact Or.inr ⟨rfl, hleft h hnext hp⟩
  | empty h hnext hp _ => exact Or.inr ⟨rfl, hleft h hnext hp⟩

/-! One direction. -/

section

variable (h : Lr0Run g extra lr0) (hextra : g.fklGetProductions 0 = extra :: rest)

include h hextra

/-- What a followed link brings is right when it leads to where the item is taken. -/
theorem lalrLa_of_followed {k cl : FklLalrItem} {x : FklLalrItemSetLink}
    {la : FklLalrItemLookAhead} {dst : ExploreNode (List FklLalrItem) FklLalrItemSetLink}
    (hfollowed : g.Followed lr0 i k cl x) (hnode : lr0[i]? = some node)
    (hdst : lr0[x.dst]? = some dst) (hk : g.LalrLa extra (itemsOf node.key) (k.withLa la))
    (hmem : cl.getItemAdvance.core ∈ dst.key) : g.LalrLa extra (itemsOf dst.key)
      (if cl.la = .none then cl.getItemAdvance.withLa la else cl.getItemAdvance) := by
  obtain ⟨node', hnode', hkey, hx, hcl, -, hs, -⟩ := hfollowed
  obtain rfl := Option.some.inj (hnode.symm.trans hnode')
  have hla := ((h.lr0Sets hextra).item node (List.mem_of_getElem? hnode) k hkey).2
  have hcore : g.LrClosure (itemsOf node.key) cl.core := hcl.core (by
    rintro _ rfl
    rwa [← FklLalrItem.withLa_none, ← hla, FklLalrItem.withLa_self])
  have hgoto := h.goto_of_mem hnode hcore hx hs hdst (by simpa using hmem)
  have hclosed : g.LalrLa extra (itemsOf node.key) (if cl.la = .none then cl.withLa la else cl) :=
    hk.closure (hcl.withLa hla)
  have hright := hclosed.goto (s := x.sym) (by split <;> exact hs)
  split at hright
  · next hnone =>
    rw [if_pos hnone]
    rw [FklLalrItem.isAtDelimSym_withLa, FklLalrItem.getItemAdvance_withLa] at hright
    rw [hgoto]
    exact hright
  · next hne =>
    rw [if_neg hne, hgoto]
    exact hright

theorem Brought.lalrLa (hserve : g.LinksServe extra lr0) (hy : g.Brought lr0 i y)
    (hnode : lr0[i]? = some node) : g.LalrLa extra (itemsOf node.key) y := by
  induction hy generalizing node with
  | @eof node' k hnode' hk =>
    obtain rfl := Option.some.inj (hnode.symm.trans hnode')
    obtain ⟨node₀, hnode₀, hkey⟩ := h.start
    obtain rfl := Option.some.inj (hnode.symm.trans hnode₀)
    obtain rfl : k = .init extra 0 := by simpa [hkey] using hk
    have hset : itemsOf node.key = {.init extra 0} := by
      ext x
      simp [hkey]
    rw [hset]
    exact lalrLa_start
  | @own i k cl x hfollowed hne =>
    obtain ⟨node', hnode', -⟩ := id hfollowed
    by_cases hk : ∃ la, g.LalrLa extra (itemsOf node'.key) (k.withLa la)
    · obtain ⟨la, hk⟩ := hk
      have hmem := hserve.lands i k cl x node' node la hfollowed hnode' hnode hk
      have hright := lalrLa_of_followed h hextra hfollowed hnode' hnode hk hmem
      rwa [if_neg hne] at hright
    · exact hserve.own i k cl x node' node hfollowed hnode' hnode hne (not_exists.mp hk)
  | @spread i k cl x la hfollowed hnone _ ih =>
    obtain ⟨node', hnode', -⟩ := id hfollowed
    have hk := ih hnode'
    have hmem := hserve.lands i k cl x node' node la hfollowed hnode' hnode hk
    have hright := lalrLa_of_followed h hextra hfollowed hnode' hnode hk hmem
    rwa [if_pos hnone] at hright

omit hextra in
/-- The items of an LR(1) set are brought to each state that is its LR(0) set. -/
theorem Lr1State.brought (hserve : g.LinksServe extra lr0) (hI : g.Lr1State extra I K)
    (hnode : lr0[i]? = some node) (hkey : itemsOf node.key = K) :
    ∀ y ∈ I, g.Brought lr0 i y := by
  induction hI generalizing i node with
  | start =>
    rintro y rfl
    obtain rfl := h.start_once i node hnode hkey
    have hk : FklLalrItem.init extra 0 ∈ itemsOf node.key := by
      rw [hkey]
      rfl
    exact .eof hnode hk
  | @goto I K item s hI hitem hs ih =>
    rintro _ ⟨cl, hcl, hnext, hdelim, rfl⟩
    obtain ⟨st, hst, rfl⟩ := (h.collection.state_iff K).mp hI.lrState
    obtain ⟨i₀, hi₀⟩ := List.mem_iff_getElem?.mp hst
    obtain ⟨z, hz, hzcl⟩ := hcl.exists_base
    have hbrought := ih hi₀ rfl z hz
    by_cases halong : ∃ x ∈ st.edges, x.dst = i ∧ GoesAlong i₀ z cl x
    · obtain ⟨x, hx, rfl, halong⟩ := halong
      have hz' : z = z.core.withLa z.la := rfl
      rw [hz'] at hzcl
      have hfollowed : ∀ c, c.getItemNext = cl.getItemNext → c.isAtDelimSym = cl.isAtDelimSym →
          c.prod = cl.prod → g.Lr1Closure {z.core} c → g.Followed lr0 i₀ z.core c x := by
        intro c hc hd hp hclosure
        refine ⟨st, hi₀, hI.core_mem z hz, hx, hclosure, ?_⟩
        rw [GoesAlong, hc, hd, hp]
        exact halong
      rcases hzcl.of_withLa with ⟨hown, hne⟩ | ⟨hla, hcore⟩
      · exact .own (hfollowed cl rfl rfl rfl hown) hne
      · have hz'' : g.Brought lr0 i₀ (z.core.withLa z.la) := hbrought
        have hspread := Brought.spread (hfollowed cl.core rfl rfl rfl hcore) rfl hz''
        rwa [FklLalrItem.getItemAdvance_core, FklLalrItem.core_withLa, ← hla,
          ← FklLalrItem.getItemAdvance_la, FklLalrItem.withLa_self] at hspread
    · refine hserve.reached i₀ i z cl s st node hbrought hzcl hnext hi₀ hnode ?_ ?_
      · rw [hkey, hdelim]
      · exact fun x hx hdst halong' => halong ⟨x, hx, hdst, halong'⟩

end

/-! The other direction. -/

section

variable (h : Lr0Run g extra lr0) (hextra : g.fklGetProductions 0 = extra :: rest)

include h hextra

theorem brought_of_lalrLa (hg : g.Defined)
    (hright : g.LalrLa extra (itemsOf node.key) y → g.Lr1Closure {z | g.Brought lr0 i z} y)
    (hnode : lr0[i]? = some node) (hla : g.LalrLa extra (itemsOf node.key) y)
    (hmem : y.core ∈ node.key) : g.Brought lr0 i y := by
  have hall : ∀ z ∈ {z | g.Brought lr0 i z}, g.LaItem z :=
    fun z hz => (LaItem.brought (h.lr0Sets hextra) hz).2
  refine ((hright hla).mem_or_init hg hall).resolve_right ?_
  rintro ⟨hidx, hleft⟩
  rcases (h.lrState hnode).idx_pos with hkey | hpos
  · have hstart : y.core ∈ itemsOf node.key := hmem
    rw [hkey] at hstart
    have hprod : y.prod = extra := congrArg FklLalrItem.prod hstart
    obtain ⟨ps, hps, hin⟩ := mem_of_productions (show extra ∈ g.fklGetProductions 0 by simp [hextra])
    exact hleft (hprod ▸ g.left_eq _ hps extra hin)
  · exact absurd (hpos _ hmem) (by simp [FklLalrItem.core, FklLalrItem.init, hidx])

end

theorem linksServe_of_right (hg : g.Defined) (h : Lr0Run g extra lr0)
    (hextra : g.fklGetProductions 0 = extra :: rest)
    (hright : ∀ i node, lr0[i]? = some node → ∀ x, g.Lr1Closure {y | g.Brought lr0 i y} x ↔
      g.LalrLa extra (itemsOf node.key) x) : g.LinksServe extra lr0 := by
  have hto : ∀ {i y node}, g.Brought lr0 i y → lr0[i]? = some node →
      g.LalrLa extra (itemsOf node.key) y :=
    fun hy hnode => (hright _ _ hnode _).mp (.base hy)
  have hfrom : ∀ {i y node}, lr0[i]? = some node → g.LalrLa extra (itemsOf node.key) y →
      y.core ∈ node.key → g.Brought lr0 i y :=
    fun hnode hla hmem => brought_of_lalrLa h hextra hg (hright _ _ hnode _).mpr hnode hla hmem
  -- an item behind a symbol is one of the kernel
  have hkernel : ∀ {node : ExploreNode (List FklLalrItem) FklLalrItemSetLink} {cl : FklLalrItem},
      g.LrClosure (itemsOf node.key) cl.getItemAdvance.core → cl.getItemAdvance.core ∈ node.key := by
    intro node cl hcl
    generalize hadvance : cl.getItemAdvance.core = z at hcl
    cases hcl with
    | base hmem => exact hmem
    | prod _ _ _ =>
      have hlt := cl.idx_lt_getItemAdvance
      have hidx : cl.getItemAdvance.idx = 0 := congrArg FklLalrItem.idx hadvance
      omega
  constructor
  · intro i k cl x node dst la hfollowed hnode hdst hk
    obtain ⟨node', hnode', hkey, -⟩ := id hfollowed
    obtain rfl := Option.some.inj (hnode.symm.trans hnode')
    have hla := ((h.lr0Sets hextra).item node (List.mem_of_getElem? hnode) k hkey).2
    have hcore : k.core = k := by
      rw [← FklLalrItem.withLa_none, ← hla, FklLalrItem.withLa_self]
    have hbrought := hfrom hnode hk (by rwa [FklLalrItem.withLa_core, hcore])
    by_cases hnone : cl.la = .none
    · exact hkernel (hto (.spread hfollowed hnone hbrought) hdst).core
    · exact hkernel (hto (.own hfollowed hnone) hdst).core
  · intro i k cl x node dst hfollowed _ hdst hne _
    exact hto (.own hfollowed hne) hdst
  · intro i j y cl s node dst hy hcl hs hnode hdst hgoto _
    have hla := ((hto hy hnode).closure hcl).goto hs
    rw [← hgoto] at hla
    exact hfrom hdst hla (hkernel hla.core)

/-- The look-aheads that the source gives to the items are those of the canonical LR(1) sets just
when none is lost or goes astray on the links. -/
theorem fklLr0ToLalrItems_right_iff {firstSets : FklFirstSets} {fuel₀ : Nat}
    (hq : QsortSpec qsort) (hg : g.Defined) (hextra : g.fklGetProductions 0 = extra :: rest)
    (hlr0 : g.fklGenerateLr0Items qsort fuel₀ = some lr0) (hfirst : g.TextbookFirsts firstSets) :
    (∀ fuel, lalrRounds g lr0 < fuel → ∃ states,
      g.fklLr0ToLalrItems firstSets qsort fuel lr0 = some states ∧
      states.map (·.edges) = lr0.map (·.edges) ∧
      (LookaheadsRight g extra lr0 states ↔ LinksServe g extra lr0)) ∧
    (g.Begins → ∀ I K, g.Lr1State extra I K → FklLalrItem.core '' I = K) := by
  have h := lr0Run_of_run hq hextra hlr0
  refine ⟨fun fuel hfuel => ?_, fun hbegins I K hI => hI.core_image hbegins hg hextra⟩
  obtain ⟨states, hrun, hedges, hstates⟩ :=
    fklLr0ToLalrItems_brought hq hg hfirst (h.lr0Sets hextra) hfuel
  refine ⟨states, hrun, hedges, fun hright => ?_, fun hserve => ?_⟩
  · refine linksServe_of_right hg h hextra fun i node hnode x => ?_
    have hi : i < states.length := by
      have hlen := congrArg List.length hedges
      simp only [List.length_map] at hlen
      rw [hlen]
      exact (List.getElem?_eq_some_iff.mp hnode).1
    have hstate : states[i]? = some states[i] := List.getElem?_eq_getElem hi
    rw [← hstates i _ hstate]
    exact hright i node _ hnode hstate x
  · intro i node state hnode hstate x
    rw [hstates i state hstate]
    constructor
    · intro hx
      obtain ⟨y, hy, hyx⟩ := hx.exists_base
      exact (hy.lalrLa h hextra hserve hnode).closure hyx
    · rintro ⟨I, hI, hx⟩
      exact hx.mono (hI.brought h hserve hnode rfl)

theorem LalrLa.follow (h : Lr0Run g extra lr0) (hnode : lr0[i]? = some node)
    (hla : g.LalrLa extra (itemsOf node.key) y) {s : FklGrammerSym}
    (hs : y.getItemNext = some s) : ∃ x ∈ node.edges, x.sym = s ∧ ∃ dst,
      lr0[x.dst]? = some dst ∧ g.LalrLa extra (itemsOf dst.key) y.getItemAdvance := by
  obtain ⟨x, hx, hsym, dst, hdst, hgoto⟩ :=
    h.collection.goto node (List.mem_of_getElem? hnode) _ s hla.core hs
  refine ⟨x, hx, hsym, dst, hdst, ?_⟩
  rw [hgoto]
  exact hla.goto hs

/-- Along the only link over a symbol. -/
theorem LalrLa.followTo (h : Lr0Run g extra lr0) (hnode : lr0[i]? = some node)
    (hla : g.LalrLa extra (itemsOf node.key) y) (x : FklLalrItemSetLink)
    (hs : y.getItemNext = some x.sym) (honly : ∀ x' ∈ node.edges, x'.sym = x.sym → x' = x)
    {dst} (hdst : lr0[x.dst]? = some dst) :
    g.LalrLa extra (itemsOf dst.key) y.getItemAdvance := by
  obtain ⟨x', hx, hsym, dst', hdst', hto⟩ := hla.follow h hnode hs
  obtain rfl := honly x' hx hsym
  obtain rfl := Option.some.inj (hdst'.symm.trans hdst)
  exact hto

end

/-! An empty right side, and one that has itself between two strings. -/

def nestedExtra : FklGrammerProduction := ⟨0, [.ignore, .nonterm 1], laid_start⟩

def nestedEmpty : FklGrammerProduction := ⟨1, [], .nil⟩

def nestedPair : FklGrammerProduction :=
  ⟨1, [.string 0, .nonterm 1, .string 1], .sym (by simp) (.sym (by simp) (.sym (by simp) .nil))⟩

def nested : FklGrammer where
  prods := ⟨[(0, [nestedExtra]), (1, [nestedEmpty, nestedPair])], by simp⟩
  left_eq := by simp [nestedExtra, nestedEmpty, nestedPair]
  str s := [97 + UInt8.ofNat s]
  totalsize _ := 0
  isRegexMatchEpsilon _ := false
  isBuiltinTerminalMatchEpsilon _ := false

def nestedLr0 : FklLalrItemSetHashMap :=
  [⟨[.init nestedExtra 0], [⟨.string 0, true, 2⟩, ⟨.nonterm 1, true, 1⟩]⟩,
    ⟨[.init nestedExtra 2], []⟩,
    ⟨[.init nestedPair 1], [⟨.string 0, false, 2⟩, ⟨.nonterm 1, false, 3⟩]⟩,
    ⟨[.init nestedPair 2], [⟨.string 1, false, 4⟩]⟩,
    ⟨[.init nestedPair 3], []⟩]

theorem nested_defined : nested.Defined := by
  simp [Defined, nested, nestedExtra, nestedEmpty, nestedPair, isSqNt]

theorem nested_generate (n : Nat) :
    nested.fklGenerateLr0Items msort (n + 6) = some nestedLr0 := rfl

theorem nested_firsts : ∃ firsts n, (∀ fuel, n < fuel → nested.computeAllFirstSet fuel =
    some firsts) ∧ nested.TextbookFirsts firsts := by
  refine textbookFirsts_of_computeAllFirstSet nested_defined (OrderHom.lfp_le _ ?_)
  rintro ⟨nt, o⟩ ⟨α, hα, ho⟩
  rw [← OrderHom.map_lfp]
  obtain ⟨ps, hps, p, hp, rfl⟩ := mem_rhss hα
  have hsq : ¬isSqNt nt := fun hsq => by simp [rhss, hsq] at hα
  have hps' : (nt, ps) = (0, [nestedExtra]) ∨ (nt, ps) = (1, [nestedEmpty, nestedPair]) := by
    simpa [nested] using hps
  rcases hps' with heq | heq
  · exact absurd (Prod.mk.inj heq).1 hsq
  · obtain ⟨rfl, rfl⟩ := Prod.mk.inj heq
    have hrhss : nested.rhss 1 =
        [nested.rhsOf 0 nestedEmpty.syms, nested.rhsOf 0 nestedPair.syms] := rfl
    rcases List.mem_pair.mp hp with rfl | rfl
    · exact ⟨[], _, _, hrhss, by simp, ho⟩
    · exact ⟨[_], _, [], hrhss, by simp [nestedEmpty, rhsOf], ho⟩

/-- The last item of the second right side. -/
theorem nested_lastState (firsts : FklFirstSets) (n : Nat) :
    (nested.fklLr0ToLalrItems firsts msort (n + 4) nestedLr0).map
      (fun states => states[4]?.map (·.key)) = some (some [⟨nestedPair, 3, .eof⟩]) := rfl

/-- The second right side may stand within itself, before the second string. -/
theorem nested_lalrLa :
    nested.LalrLa nestedExtra (itemsOf [.init nestedPair 3]) ⟨nestedPair, 3, .string 1⟩ := by
  have h : Lr0Run nested nestedExtra nestedLr0 :=
    lr0Run_of_run qsortSpec_msort (show _ = nestedExtra :: [] from rfl) (nested_generate 0)
  have hprod : nestedPair ∈ nested.fklGetProductions 1 := by simp [fklGetProductions, nested]
  have hstart : nested.LalrLa nestedExtra {.init nestedExtra 0}
      ((FklLalrItem.init nestedExtra 0).withLa .eof) := lalrLa_start
  have hset : itemsOf [FklLalrItem.init nestedExtra 0] = {.init nestedExtra 0} := by
    ext x
    simp
  rw [← hset] at hstart
  -- over the first string, to a set that leads to itself over the next one
  have houter := hstart.closure
    (.empty (p := nestedPair) (.base rfl) rfl hprod Relation.ReflTransGen.refl)
  have houter := houter.followTo h (i := 0) rfl ⟨.string 0, true, 2⟩ rfl (by decide) rfl
  have hinner := houter.closure
    (.first (p := nestedPair) (t := .string 1) (.base rfl) rfl hprod ⟨[], Relation.ReflTransGen.refl⟩)
  have hinner := hinner.followTo h (i := 2) rfl ⟨.string 0, false, 2⟩ rfl (by decide) rfl
  -- to the end of the inner one
  have hinner := hinner.followTo h (i := 2) rfl ⟨.nonterm 1, false, 3⟩ rfl (by decide) rfl
  exact hinner.followTo h (i := 3) rfl ⟨.string 1, false, 4⟩ rfl (by decide) rfl

/-- That look-ahead would have to come along the link of a set to itself. -/
theorem nested_not_right : QsortSpec (@msort FklLalrItem) ∧ nested.Defined ∧
    ∃ firsts n, (∀ fuel, n < fuel → nested.computeAllFirstSet fuel = some firsts) ∧
      nested.TextbookFirsts firsts ∧
      (∀ n, nested.fklGenerateLr0Items msort (n + 6) = some nestedLr0) ∧
      ∀ n, ∃ states, nested.fklLr0ToLalrItems firsts msort (n + 4) nestedLr0 = some states ∧
        ¬LookaheadsRight nested nestedExtra nestedLr0 states := by
  obtain ⟨firsts, n, hrun, hfirsts⟩ := nested_firsts
  refine ⟨qsortSpec_msort, nested_defined, firsts, n, hrun, hfirsts, nested_generate, fun n => ?_⟩
  obtain ⟨states, hstates, hkey⟩ := Option.map_eq_some_iff.mp (nested_lastState firsts n)
  refine ⟨states, hstates, fun hright => ?_⟩
  obtain ⟨state, hstate, hkey⟩ := Option.map_eq_some_iff.mp hkey
  have hmem := (hright 4 _ state rfl hstate ⟨nestedPair, 3, .string 1⟩).mpr nested_lalrLa
  rw [hkey] at hmem
  simp at hmem

theorem nested_linksServe_iff : QsortSpec (@msort FklLalrItem) ∧ nested.Defined ∧
    ∃ firsts, nested.TextbookFirsts firsts ∧
      (∀ fuel, lalrRounds nested nestedLr0 < fuel → ∃ states,
        nested.fklLr0ToLalrItems firsts msort fuel nestedLr0 = some states ∧
        states.map (·.edges) = nestedLr0.map (·.edges) ∧
        (LookaheadsRight nested nestedExtra nestedLr0 states ↔
          LinksServe nested nestedExtra nestedLr0)) ∧
      (nested.Begins → ∀ I K, nested.Lr1State nestedExtra I K → FklLalrItem.core '' I = K) := by
  obtain ⟨firsts, _, _, hfirsts⟩ := nested_firsts
  exact ⟨qsortSpec_msort, nested_defined, firsts, hfirsts,
    fklLr0ToLalrItems_right_iff qsortSpec_msort nested_defined
      (show _ = nestedExtra :: [] from rfl) (nested_generate 0) hfirsts⟩

end FklGrammer

end FakeLisp
