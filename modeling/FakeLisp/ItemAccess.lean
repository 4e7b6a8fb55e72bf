import FakeLisp.AnalysisTableSource
import FakeLisp.ItemPlace
import FakeLisp.LalrItemsKept
import FakeLisp.LalrItemsRight

/-! The symbols of a production that the parser passes, where delimiters are left out and a
composite terminal stands for its parts; and what the items of the sets with look-aheads have in
common with those of the LR(0) collection: an item behind a symbol is only in sets that links over
this symbol lead to. -/

namespace FakeLisp

/-- `skip` counts the parts that are jumped over. -/
def spineFrom : Nat → List FklGrammerSym → List FklGrammerSym
  | _, [] => []
  | skip + 1, _ :: syms => spineFrom skip syms
  | 0, .ignore :: syms => spineFrom 0 syms
  | 0, .comp parts :: syms => .comp parts :: spineFrom parts.length syms
  | 0, s :: syms => s :: spineFrom 0 syms

abbrev spine (syms : List FklGrammerSym) : List FklGrammerSym := spineFrom 0 syms

/-- How many symbols the parser has on its stack for one. -/
def FklGrammerSym.width : FklGrammerSym → Nat
  | .comp parts => parts.length
  | _ => 1

/-- How many symbols the parser has on its stack for several. -/
def widthOf (syms : List FklGrammerSym) : Nat := (syms.map FklGrammerSym.width).sum

@[simp] theorem widthOf_nil : widthOf [] = 0 := rfl

@[simp] theorem widthOf_cons (s : FklGrammerSym) (syms : List FklGrammerSym) :
    widthOf (s :: syms) = s.width + widthOf syms := by
  simp [widthOf]

theorem spineFrom_drop (skip : Nat) (syms : List FklGrammerSym) :
    spineFrom skip syms = spine (syms.drop skip) := by
  induction syms generalizing skip with
  | nil => cases skip <;> rfl
  | cons s syms ih =>
    cases skip with
    | zero => rfl
    | succ skip => exact ih skip

@[simp] theorem spine_nil : spine [] = [] := rfl

@[simp] theorem spine_ignore (syms : List FklGrammerSym) :
    spine (.ignore :: syms) = spine syms := rfl

theorem spine_cons {s : FklGrammerSym} (hs : s ≠ .ignore) (syms : List FklGrammerSym) :
    spine (s :: syms) = s :: spine (syms.drop s.compLen) := by
  cases s with
  | ignore => exact absurd rfl hs
  | comp parts => exact congrArg _ (spineFrom_drop parts.length syms)
  | _ => rfl

/-- A production with a place that the parser can be at. -/
structure FklLalrItem.OnPlace (item : FklLalrItem) : Prop where
  laid : CompLaid (item.prod.syms.drop item.idx)
  suffix : spine (item.prod.syms.drop item.idx) <:+ spine item.prod.syms

/-- How many symbols have been passed. -/
def FklLalrItem.passed (item : FklLalrItem) : Nat :=
  (spine item.prod.syms).length - (spine (item.prod.syms.drop item.idx)).length

namespace FklLalrItem

variable {item : FklLalrItem} {s : FklGrammerSym}

theorem onPlace_of_idx (h : item.idx = 0) : item.OnPlace := by
  constructor
  · rw [h]
    exact item.prod.laid
  · rw [h]
    exact List.suffix_rfl

theorem passed_of_idx (h : item.idx = 0) : item.passed = 0 := by
  simp [passed, h]

/-- The advance of an item passes one symbol more. -/
theorem OnPlace.advance (hplace : item.OnPlace) (h : item.getItemNext = some s)
    (hs : s ≠ .ignore) :
    item.getItemAdvance.OnPlace ∧ item.getItemAdvance.passed = item.passed + 1 ∧
      (spine item.prod.syms)[item.passed]? = some s := by
  obtain ⟨syms, hdrop⟩ := drop_of_getItemNext h
  have hrest := getItemAdvance_drop h hdrop
  have hlaid : CompLaid (s :: syms) := by
    have hlaid := hplace.laid
    rw [hdrop] at hlaid
    split at hlaid
    · exact hlaid.tail
    · exact hlaid
  have hspine : spine (item.prod.syms.drop item.idx) = s :: spine (syms.drop s.compLen) := by
    rw [hdrop]
    split
    · exact spine_cons hs syms
    · exact spine_cons hs syms
  obtain ⟨front, hfront⟩ := hplace.suffix
  rw [hspine] at hfront
  have hlen := congrArg List.length hfront
  simp only [List.length_append, List.length_cons] at hlen
  have hpassed : item.passed = front.length := by
    simp only [passed, hspine, List.length_cons]
    omega
  refine ⟨⟨?_, ?_⟩, ?_, ?_⟩
  · rw [getItemAdvance_prod, hrest]
    exact hlaid.tail
  · rw [getItemAdvance_prod, hrest]
    exact ⟨front ++ [s], by simpa using hfront⟩
  · rw [hpassed]
    simp only [passed, getItemAdvance_prod, hrest]
    omega
  · rw [hpassed, ← hfront, List.getElem?_append_right (le_refl _), Nat.sub_self]
    rfl

end FklLalrItem

theorem countP_parts (parts : List FklCompPart) :
    (parts.map FklCompPart.sym).countP FklGrammerSym.isIgnoreOrComp = 0 := by
  rw [List.countP_eq_zero]
  intro s hs
  obtain ⟨part, -, rfl⟩ := List.mem_map.mp hs
  cases part <;> simp [FklCompPart.sym, FklGrammerSym.isIgnoreOrComp]

/-- The parser takes as many symbols from its stack as the production has put there. -/
theorem widthOf_spine {syms : List FklGrammerSym} (h : CompLaid syms) :
    widthOf (spine syms) = fklComputeProdActualLen syms := by
  induction h with
  | nil => rfl
  | @sym s syms hs _ ih =>
    have hcount : syms.countP FklGrammerSym.isIgnoreOrComp ≤ syms.length := List.countP_le_length
    unfold fklComputeProdActualLen at ih ⊢
    rw [List.countP_cons, List.length_cons]
    cases s with
    | comp parts => exact absurd rfl (hs parts)
    | ignore =>
      rw [spine_ignore, ih]
      simp only [FklGrammerSym.isIgnoreOrComp, if_true]
      omega
    | _ =>
      rw [spine_cons (by simp), widthOf_cons]
      simp only [FklGrammerSym.compLen, FklGrammerSym.width, FklGrammerSym.isIgnoreOrComp,
        List.drop_zero, ih, Bool.false_eq_true, if_false]
      omega
  | @comp parts syms _ ih =>
    have hcount : syms.countP FklGrammerSym.isIgnoreOrComp ≤ syms.length := List.countP_le_length
    have hlen : (FklGrammerSym.comp parts).compLen = (parts.map FklCompPart.sym).length := by
      simp [FklGrammerSym.compLen]
    unfold fklComputeProdActualLen at ih ⊢
    rw [spine_cons (by simp), hlen, List.drop_left, widthOf_cons, ih, List.countP_cons,
      List.countP_append, countP_parts, List.length_cons, List.length_append, List.length_map]
    simp only [FklGrammerSym.width, FklGrammerSym.isIgnoreOrComp, if_true]
    omega

namespace FklGrammer

variable (g : FklGrammer) (extra : FklGrammerProduction)

/-- A production that the items are made of. -/
def IsProd (p : FklGrammerProduction) : Prop :=
  p = extra ∨ ¬isSqNt p.left ∧ p ∈ g.fklGetProductions p.left

/-- An item with the place of its set. -/
structure ItemPlaced (lr0 : FklLalrItemSetHashMap) (i : Nat) (x : FklLalrItem) : Prop where
  onPlace : x.OnPlace
  prod : g.IsProd extra x.prod
  access : ∀ (j : Nat) node, lr0[j]? = some node → ∀ e ∈ node.edges, e.dst = i → x.passed ≠ 0 →
    (spine x.prod.syms)[x.passed - 1]? = some e.sym
  first : i = 0 → x.passed = 0
  start : x.prod = extra → x.passed = 0 → i = 0

variable {g} {extra} {lr0 : FklLalrItemSetHashMap} {rest : List FklGrammerProduction}
  {K : Set FklLalrItem} {x : FklLalrItem} {p : FklGrammerProduction}

theorem left_of_productions {nt : Nat} (h : p ∈ g.fklGetProductions nt) : p.left = nt := by
  obtain ⟨ps, hps, hmem⟩ := mem_of_productions h
  exact g.left_eq _ hps p hmem

section

variable (hg : g.Defined) (hextra : g.fklGetProductions 0 = extra :: rest)

include hextra in
theorem extra_left : extra.left = 0 :=
  left_of_productions (show extra ∈ g.fklGetProductions 0 by simp [hextra])

include hg hextra in
theorem IsProd.closure {nt : Nat} (hx : g.IsProd extra x.prod) (hnext : x.nextNonterm = some nt)
    (hp : p ∈ g.fklGetProductions nt) : ¬isSqNt p.left ∧ p ∈ g.fklGetProductions p.left := by
  have hmem : ∃ nt', x.prod ∈ g.fklGetProductions nt' := by
    rcases hx with hx | ⟨-, hx⟩
    · exact ⟨0, by simp [hextra, hx]⟩
    · exact ⟨_, hx⟩
  obtain ⟨nt', hmem⟩ := hmem
  obtain ⟨ps, hps, hmem⟩ := mem_of_productions hmem
  rw [left_of_productions hp]
  exact ⟨(hg _ hps _ hmem nt (nextNonterm_mem hnext)).1, hp⟩

variable (h : Lr0Run g extra lr0)
  (hno : ∀ node ∈ lr0, ∀ e ∈ node.edges, e.sym ≠ FklGrammerSym.ignore)

include h hno in
theorem Lr0Run.next_ne_ignore {s : FklGrammerSym} (hK : g.LrState extra K)
    (hx : g.LrClosure K x) (hs : x.getItemNext = some s) : s ≠ .ignore := by
  obtain ⟨node, hnode, rfl⟩ := (h.collection.state_iff K).mp hK
  obtain ⟨e, he, rfl, -⟩ := h.collection.goto node hnode x s hx hs
  exact hno node hnode e he

include hg hextra h hno

/-- The items of the LR(0) collection. -/
theorem Lr0Run.items (hK : g.LrState extra K) :
    (∀ x, g.LrClosure K x → x.OnPlace ∧ g.IsProd extra x.prod) ∧
      (K = {.init extra 0} ∨ ∀ x ∈ K, x.passed ≠ 0) := by
  have hclosure : ∀ K : Set FklLalrItem, (∀ x ∈ K, x.OnPlace ∧ g.IsProd extra x.prod) →
      ∀ x, g.LrClosure K x → x.OnPlace ∧ g.IsProd extra x.prod := by
    intro K hall x hx
    induction hx with
    | base hx => exact hall _ hx
    | prod _ hnext hp ih =>
      exact ⟨FklLalrItem.onPlace_of_idx rfl, Or.inr (ih.2.closure hg hextra hnext hp)⟩
  induction hK with
  | start =>
    refine ⟨hclosure _ ?_, Or.inl rfl⟩
    rintro x rfl
    exact ⟨FklLalrItem.onPlace_of_idx rfl, Or.inl rfl⟩
  | @goto K item s hK hitem hs ih =>
    have hadvance : ∀ x ∈ g.gotoSet K s item.isAtDelimSym,
        (x.OnPlace ∧ g.IsProd extra x.prod) ∧ x.passed ≠ 0 := by
      rintro _ ⟨y, hy, hnext, -, rfl⟩
      obtain ⟨hplace, hprod⟩ := ih.1 y hy
      obtain ⟨hplace, hpassed, -⟩ := hplace.advance hnext (h.next_ne_ignore hno hK hy hnext)
      exact ⟨⟨hplace, by rwa [FklLalrItem.getItemAdvance_prod]⟩, by omega⟩
    exact ⟨hclosure _ fun x hx => (hadvance x hx).1, Or.inr fun x hx => (hadvance x hx).2⟩

/-- The kernel items of a set are behind the symbol of each link that leads to it. -/
theorem Lr0Run.access {j : Nat} {node dst : ExploreNode (List FklLalrItem) FklLalrItemSetLink}
    {e : FklLalrItemSetLink} (hnode : lr0[j]? = some node) (he : e ∈ node.edges)
    (hdst : lr0[e.dst]? = some dst) :
    (∃ x, x ∈ dst.key) ∧ ∀ x ∈ dst.key, x.passed ≠ 0 ∧
      (spine x.prod.syms)[x.passed - 1]? = some e.sym := by
  have hK := h.lrState hnode
  obtain ⟨item, hitem, hs, dst', hdst', hgoto⟩ :=
    h.collection.link node (List.mem_of_getElem? hnode) e he
  obtain rfl := Option.some.inj (hdst.symm.trans hdst')
  have hkey : ∀ x, x ∈ dst.key ↔ x ∈ g.gotoSet (itemsOf node.key) e.sym item.isAtDelimSym :=
    fun x => Set.ext_iff.mp hgoto x
  refine ⟨⟨_, (hkey _).mpr ⟨item, hitem, hs, rfl, rfl⟩⟩, fun x hx => ?_⟩
  obtain ⟨y, hy, hnext, -, rfl⟩ := (hkey x).mp hx
  obtain ⟨hplace, -⟩ := (h.items hg hextra hno hK).1 y hy
  obtain ⟨-, hpassed, hsym⟩ := hplace.advance hnext (h.next_ne_ignore hno hK hy hnext)
  rw [hpassed, FklLalrItem.getItemAdvance_prod, Nat.add_sub_cancel]
  exact ⟨Nat.succ_ne_zero _, hsym⟩

theorem Lr0Run.sym_eq {j j' : Nat} {node node' : ExploreNode (List FklLalrItem) FklLalrItemSetLink}
    {e e' : FklLalrItemSetLink} (hnode : lr0[j]? = some node) (he : e ∈ node.edges)
    (hnode' : lr0[j']? = some node') (he' : e' ∈ node'.edges) (hdst : e'.dst = e.dst) :
    e'.sym = e.sym := by
  obtain ⟨-, -, -, dst, hget, -⟩ := h.collection.link node (List.mem_of_getElem? hnode) e he
  obtain ⟨⟨x, hx⟩, hall⟩ := h.access hg hextra hno hnode he hget
  obtain ⟨-, hall'⟩ := h.access hg hextra hno hnode' he' (hdst ▸ hget)
  exact Option.some.inj ((hall' x hx).2.symm.trans (hall x hx).2)

theorem Lr0Run.itemsInv : ItemsInv g lr0 (ItemPlaced g extra lr0) := by
  constructor
  · intro i x la hx
    exact ⟨⟨hx.onPlace.laid, hx.onPlace.suffix⟩, hx.prod, hx.access, hx.first, hx.start⟩
  · intro i x nt p hx hnext hp
    have hprod := hx.prod.closure hg hextra hnext hp
    have hpassed : (FklLalrItem.init p 0).passed = 0 := FklLalrItem.passed_of_idx rfl
    refine ⟨FklLalrItem.onPlace_of_idx rfl, Or.inr hprod, ?_, fun _ => hpassed, ?_⟩
    · exact fun _ _ _ _ _ _ hne => absurd hpassed hne
    · rintro rfl
      exact absurd (extra_left hextra) hprod.1
  · intro i node e x hnode he hx hnext
    obtain ⟨hplace, hpassed, hsym⟩ :=
      hx.onPlace.advance hnext (hno node (List.mem_of_getElem? hnode) e he)
    refine ⟨hplace, by rw [FklLalrItem.getItemAdvance_prod]; exact hx.prod, ?_, ?_, ?_⟩
    · intro j node' hnode' e' he' hdst _
      rw [hpassed, FklLalrItem.getItemAdvance_prod, Nat.add_sub_cancel, hsym,
        h.sym_eq hg hextra hno hnode he hnode' he' hdst]
    · intro hzero
      exact absurd hzero ((h.lr0Sets hextra).dst_ne node (List.mem_of_getElem? hnode) e he)
    · intro _ hzero
      omega

theorem Lr0Run.itemPlaced (i : Nat) (node : ExploreNode (List FklLalrItem) FklLalrItemSetLink)
    (hnode : lr0[i]? = some node) (x : FklLalrItem) (hx : x ∈ node.key) :
    ItemPlaced g extra lr0 i x := by
  obtain ⟨hall, hkey⟩ := h.items hg hextra hno (h.lrState hnode)
  obtain ⟨hplace, hprod⟩ := hall x (.base hx)
  refine ⟨hplace, hprod, ?_, ?_, ?_⟩
  · rintro j node' hnode' e he rfl _
    exact ((h.access hg hextra hno hnode' he hnode).2 x hx).2
  · rintro rfl
    obtain ⟨node', hnode', hstart⟩ := h.start
    obtain rfl := Option.some.inj (hnode.symm.trans hnode')
    obtain rfl : x = .init extra 0 := by simpa [hstart] using hx
    exact FklLalrItem.passed_of_idx rfl
  · intro _ hzero
    rcases hkey with hkey | hkey
    · exact h.start_once i node hnode hkey
    · exact absurd hzero (hkey x hx)

end

/-- The sets that a table is made of. -/
structure SetsPlaced (g : FklGrammer) (extra : FklGrammerProduction)
    (states : FklLalrItemSetHashMap) : Prop where
  prod : ∀ (i : Nat) set, states[i]? = some set → ∀ x ∈ set.key, g.IsProd extra x.prod
  access : ∀ (i : Nat) set, states[i]? = some set → ∀ e ∈ set.edges, ∀ dst,
    states[e.dst]? = some dst → ∀ x ∈ dst.key, x.passed ≠ 0 →
      (spine x.prod.syms)[x.passed - 1]? = some e.sym
  first : ∀ set, states[0]? = some set → ∀ x ∈ set.key, x.passed = 0
  start : ∀ (i : Nat) set, states[i]? = some set → ∀ x ∈ set.key, x.prod = extra →
    x.passed = 0 → i = 0
  dst_ne : ∀ set ∈ states, ∀ e ∈ set.edges, e.dst ≠ 0
  sym_mem : ∀ set ∈ states, ∀ e ∈ set.edges, ∃ p, g.IsProd extra p ∧ e.sym ∈ p.syms

theorem getItemNext_mem {s : FklGrammerSym} (h : x.getItemNext = some s) : s ∈ x.prod.syms := by
  unfold FklLalrItem.getItemNext at h
  split_ifs at h
  · exact List.mem_of_getElem? h
  · exact List.mem_of_getElem? h

/-- The look-aheads add items only where they are behind the right symbol. -/
theorem setsPlaced_of_fklLr0ToLalrItems {qsort} {firstSets : FklFirstSets} {fuel₀ fuel : Nat}
    {states : FklLalrItemSetHashMap} (hq : QsortSpec qsort) (hg : g.Defined)
    (hextra : g.fklGetProductions 0 = extra :: rest)
    (hlr0 : g.fklGenerateLr0Items qsort fuel₀ = some lr0)
    (hrun : g.fklLr0ToLalrItems firstSets qsort fuel lr0 = some states)
    (hno : ∀ set ∈ states, ∀ e ∈ set.edges, e.sym ≠ FklGrammerSym.ignore) :
    SetsPlaced g extra states := by
  have h := lr0Run_of_run hq hextra hlr0
  have hlinks : ItemsInv g lr0 fun _ _ => True := ⟨by simp, by simp, by simp⟩
  obtain ⟨hlen, hedges⟩ := hlinks.fklLr0ToLalrItems hq (by simp) hrun
  have hno' : ∀ node ∈ lr0, ∀ e ∈ node.edges, e.sym ≠ FklGrammerSym.ignore := by
    intro node hnode e he
    obtain ⟨i, hi⟩ := List.mem_iff_getElem?.mp hnode
    have hlt : i < states.length := hlen ▸ (List.getElem?_eq_some_iff.mp hi).1
    obtain ⟨node', hnode', heq, -⟩ := hedges i _ (List.getElem?_eq_getElem hlt)
    obtain rfl := Option.some.inj (hi.symm.trans hnode')
    exact hno _ (List.getElem_mem hlt) e (heq ▸ he)
  obtain ⟨-, hall⟩ := (h.itemsInv hg hextra hno').fklLr0ToLalrItems hq
    (h.itemPlaced hg hextra hno') hrun
  have hmem : ∀ set ∈ states, ∃ node ∈ lr0, set.edges = node.edges := by
    intro set hset
    obtain ⟨i, hi⟩ := List.mem_iff_getElem?.mp hset
    obtain ⟨node, hnode, heq, -⟩ := hall i set hi
    exact ⟨node, List.mem_of_getElem? hnode, heq⟩
  constructor
  · intro i set hset x hx
    obtain ⟨-, -, -, hitems⟩ := hall i set hset
    exact (hitems x hx).prod
  · intro i set hset e he dst hdst x hx
    obtain ⟨node, hnode, heq, -⟩ := hall i set hset
    obtain ⟨-, -, -, hitems⟩ := hall e.dst dst hdst
    exact (hitems x hx).access i node hnode e (heq ▸ he) rfl
  · intro set hset x hx
    obtain ⟨-, -, -, hitems⟩ := hall 0 set hset
    exact (hitems x hx).first rfl
  · intro i set hset x hx
    obtain ⟨-, -, -, hitems⟩ := hall i set hset
    exact (hitems x hx).start
  · intro set hset e he
    obtain ⟨node, hnode, heq⟩ := hmem set hset
    exact (h.lr0Sets hextra).dst_ne node hnode e (heq ▸ he)
  · intro set hset e he
    obtain ⟨node, hnode, heq⟩ := hmem set hset
    obtain ⟨i, hi⟩ := List.mem_iff_getElem?.mp hnode
    obtain ⟨item, hitem, hs, -⟩ := h.collection.link node hnode e (heq ▸ he)
    exact ⟨item.prod, ((h.items hg hextra hno' (h.lrState hi)).1 item hitem).2,
      getItemNext_mem hs⟩

end FklGrammer

end FakeLisp
