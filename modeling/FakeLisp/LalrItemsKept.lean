import FakeLisp.LalrItems
import FakeLisp.Lr1States

/-! What is kept of the items while look-aheads are put in and spread, whatever the FIRST sets are:
a property of an item and the place of its set, on which the look-ahead has no bearing. -/

namespace FakeLisp

/-- A fold keeps what its steps keep. -/
theorem foldlM_inv {σ α : Type*} {f : σ → α → Option σ} (inv : σ → Prop) {l : List α}
    (hstep : ∀ s a t, a ∈ l → inv s → f s a = some t → inv t) {s t : σ} (hs : inv s)
    (h : l.foldlM f s = some t) : inv t := by
  induction l generalizing s with
  | nil =>
    obtain rfl := Option.some.inj h
    exact hs
  | cons a l ih =>
    rw [List.foldlM_cons] at h
    obtain ⟨u, hu, h⟩ := Option.bind_eq_some_iff.mp h
    exact ih (fun s b t hb => hstep s b t (List.mem_cons_of_mem a hb))
      (hstep s a u List.mem_cons_self hs hu) h

theorem foldl_inv {σ α : Type*} {f : σ → α → σ} (inv : σ → Prop) {l : List α}
    (hstep : ∀ s a, a ∈ l → inv s → inv (f s a)) {s : σ} (hs : inv s) : inv (l.foldl f s) := by
  induction l generalizing s with
  | nil => exact hs
  | cons a l ih =>
    exact ih (fun s b hb => hstep s b (List.mem_cons_of_mem a hb))
      (hstep s a List.mem_cons_self hs)

theorem getElem?_of_mapM {α β : Type*} {f : α → Option β} {l : List α} {l' : List β}
    (h : l.mapM f = some l') : l'.length = l.length ∧
      ∀ (i : Nat) b, l'[i]? = some b → ∃ a, l[i]? = some a ∧ f a = some b := by
  induction l generalizing l' with
  | nil =>
    obtain rfl := Option.some.inj h
    simp
  | cons a l ih =>
    rw [List.mapM_cons] at h
    obtain ⟨c, hc, h⟩ := Option.bind_eq_some_iff.mp h
    obtain ⟨cs, hcs, h⟩ := Option.bind_eq_some_iff.mp h
    obtain rfl := Option.some.inj h
    obtain ⟨hlen, hall⟩ := ih hcs
    refine ⟨congrArg Nat.succ hlen, fun i b hb => ?_⟩
    cases i with
    | zero =>
      obtain rfl := Option.some.inj hb
      exact ⟨a, rfl, hc⟩
    | succ i => exact hall i b hb

namespace FklGrammer

/-- A property of items that closures and links keep. -/
structure ItemsInv (g : FklGrammer) (lr0 : FklLalrItemSetHashMap)
    (inv : Nat → FklLalrItem → Prop) : Prop where
  withLa : ∀ i x la, inv i x → inv i (x.withLa la)
  prod : ∀ i x nt p, inv i x → x.nextNonterm = some nt → p ∈ g.fklGetProductions nt →
    inv i (.init p 0)
  link : ∀ i node e x, lr0[i]? = some node → e ∈ node.edges → inv i x →
    x.getItemNext = some e.sym → inv e.dst x.getItemAdvance

variable {g : FklGrammer} {firstSets : FklFirstSets} {fuel i : Nat} {lr0 : FklLalrItemSetHashMap}
  {inv : Nat → FklLalrItem → Prop} {sets : LalrItemSets}
  {node : ExploreNode (List FklLalrItem) FklLalrItemSetLink}

/-! The closure. -/

/-- The items of a closure in progress, and those that wait. -/
structure ClosureKept (inv : FklLalrItem → Prop) (s : Lr1Sets) : Prop where
  itemSet : ∀ x ∈ s.itemSet, inv x
  nextSet : ∀ x ∈ s.nextSet, inv x

theorem ClosureKept.put {inv : FklLalrItem → Prop} {s : Lr1Sets} (h : ClosureKept inv s)
    {x : FklLalrItem} (hx : inv x) : ClosureKept inv (s.put x) := by
  unfold Lr1Sets.put
  split
  · exact h
  · constructor
    · intro y hy
      rcases List.mem_append.mp hy with hy | hy
      · exact h.itemSet y hy
      · obtain rfl := List.mem_singleton.mp hy
        exact hx
    · intro y hy
      rcases mem_hashSetPut.mp hy with hy | rfl
      · exact h.nextSet y hy
      · exact hx

theorem ClosureKept.putProds {inv : FklLalrItem → Prop} {s : Lr1Sets} (h : ClosureKept inv s)
    {prods : List FklGrammerProduction} {la : FklLalrItemLookAhead}
    (hprods : ∀ p ∈ prods, inv ⟨p, 0, la⟩) : ClosureKept inv (s.putProds prods la) :=
  foldl_inv (ClosureKept inv) (fun _ p hp hs => hs.put (hprods p hp)) h

variable (hinv : ItemsInv g lr0 inv)

include hinv

theorem ItemsInv.lr1ClosureItem {s t : Lr1Sets} {l : FklLalrItem} (hs : ClosureKept (inv i) s)
    (hl : inv i l) (h : g.lr1ClosureItem firstSets s l = some t) : ClosureKept (inv i) t := by
  unfold FklGrammer.lr1ClosureItem at h
  split at h
  · next left hnext =>
    obtain ⟨⟨first, hasEpsilon⟩, -, rfl⟩ := Option.map_eq_some_iff.mp h
    have hprods : ∀ la, ∀ p ∈ g.fklGetProductions left, inv i ⟨p, 0, la⟩ := fun la p hp =>
      hinv.withLa i _ la (hinv.prod i l left p hl (FklLalrItem.nextNonterm_eq.mpr hnext) hp)
    have hfirst := foldl_inv (ClosureKept (inv i)) (l := first)
      (fun _ la _ hs => hs.putProds (hprods la)) hs
    dsimp only
    split
    · exact hfirst.putProds (hprods l.la)
    · exact hfirst
  · obtain rfl := Option.some.inj h
    exact hs

theorem ItemsInv.lr1ItemSetClosure {items out : List FklLalrItem} (hitems : ∀ x ∈ items, inv i x)
    (h : g.lr1ItemSetClosure firstSets fuel items = some out) : ∀ x ∈ out, inv i x := by
  obtain ⟨s, hs, rfl⟩ := Option.map_eq_some_iff.mp h
  have hround : ∀ s t, ClosureKept (inv i) s → (!s.nextSet.isEmpty) = true →
      g.lr1ClosureRound firstSets s = some t → ClosureKept (inv i) t := by
    intro s t hs _ ht
    have hstart : ClosureKept (inv i) ⟨s.itemSet, []⟩ :=
      ⟨hs.itemSet, fun x hx => absurd hx List.not_mem_nil⟩
    refine foldlM_inv (ClosureKept (inv i)) (fun s' l t' hl hs' ht' => ?_) hstart ht
    exact hinv.lr1ClosureItem hs' (hs.nextSet l hl) ht'
  exact (whileLoop_inv (ClosureKept (inv i)) hround ⟨hitems, hitems⟩ hs).1.itemSet

/-! The sets. -/

omit hinv in
/-- The sets while look-aheads are spread: their links are those of the collection, and the items
have the property in their sets and in those that they are spread to. -/
structure SetsKept (lr0 : FklLalrItemSetHashMap) (inv : Nat → FklLalrItem → Prop)
    (sets : LalrItemSets) : Prop where
  length : sets.length = lr0.length
  kept : ∀ (i : Nat) set, sets[i]? = some set → ∃ node, lr0[i]? = some node ∧
    set.links = node.edges ∧ (∀ x ∈ set.items, inv i x) ∧
      ∀ sp ∈ set.spreads, inv sp.dstItems sp.dst

omit hinv in
theorem SetsKept.modify (h : SetsKept lr0 inv sets) {f : LalrItemSet → LalrItemSet}
    (hlinks : ∀ set, (f set).links = set.links)
    (hitems : ∀ set, (∀ x ∈ set.items, inv i x) → ∀ x ∈ (f set).items, inv i x)
    (hspreads : ∀ set : LalrItemSet, (∀ sp ∈ set.spreads, inv sp.dstItems sp.dst) →
      ∀ sp ∈ (f set).spreads, inv sp.dstItems sp.dst) : SetsKept lr0 inv (sets.modify i f) := by
  refine ⟨by simp [h.length], fun j set hset => ?_⟩
  rw [List.getElem?_modify] at hset
  obtain ⟨old, hold, rfl⟩ := Option.map_eq_some_iff.mp hset
  obtain ⟨node, hnode, hlinks', hitems', hspreads'⟩ := h.kept j old hold
  refine ⟨node, hnode, ?_⟩
  split
  · next hij =>
    subst hij
    exact ⟨(hlinks old).trans hlinks', hitems old hitems', hspreads old hspreads'⟩
  · exact ⟨hlinks', hitems', hspreads'⟩

omit hinv in
theorem SetsKept.putItem (h : SetsKept lr0 inv sets) {x : FklLalrItem} (hx : inv i x) :
    SetsKept lr0 inv (FklGrammer.putItem sets i x) := by
  refine h.modify (fun _ => rfl) (fun set hitems y hy => ?_) (fun _ hspreads => hspreads)
  rcases mem_hashSetPut.mp hy with hy | rfl
  · exact hitems y hy
  · exact hx

omit hinv in
theorem SetsKept.addLookaheadSpread (h : SetsKept lr0 inv sets) {sp : FklLookAheadSpreads}
    (hsp : inv sp.dstItems sp.dst) :
    SetsKept lr0 inv (FklGrammer.addLookaheadSpread sets i sp) := by
  refine h.modify (fun _ => rfl) (fun _ hitems => hitems) (fun set hspreads sp' hsp' => ?_)
  rcases List.mem_cons.mp hsp' with rfl | hsp'
  · exact hsp
  · exact hspreads sp' hsp'

theorem ItemsInv.checkLink (h : SetsKept lr0 inv sets) (hnode : lr0[i]? = some node)
    {item cl : FklLalrItem} (hcl : inv i cl) {e : FklLalrItemSetLink} (he : e ∈ node.edges) :
    SetsKept lr0 inv (FklGrammer.checkLink i item cl sets e) := by
  unfold FklGrammer.checkLink
  split
  · exact h
  split
  · exact h
  · next sym hnext =>
    split
    · exact h
    · next hsym =>
      have hadvance : inv e.dst cl.getItemAdvance :=
        hinv.link i node e cl hnode he hcl (hnext.trans (congrArg some (not_not.mp hsym)))
      split
      · split
        · exact h.addLookaheadSpread hadvance
        · exact h.putItem hadvance
      · exact h

theorem ItemsInv.checkItem (h : SetsKept lr0 inv sets) {il : FklLalrItem} (hil : inv i il)
    {sets' : LalrItemSets} (hrun : g.checkItem firstSets fuel i sets il = some sets') :
    SetsKept lr0 inv sets' := by
  unfold FklGrammer.checkItem at hrun
  split at hrun
  · obtain ⟨closure, hclosure, hrun⟩ := Option.bind_eq_some_iff.mp hrun
    obtain ⟨set, hset, hrun⟩ := Option.bind_eq_some_iff.mp hrun
    obtain rfl := Option.some.inj hrun
    obtain ⟨node, hnode, hlinks, -⟩ := h.kept i set hset
    have hcls := hinv.lr1ItemSetClosure (by simpa using hil) hclosure
    refine foldl_inv (SetsKept lr0 inv) (fun s cl hcl hs => ?_) h
    refine foldl_inv (SetsKept lr0 inv) (fun s' e he hs' => ?_) hs
    exact hinv.checkLink hs' hnode (hcls cl hcl) (hlinks ▸ he)
  · obtain rfl := Option.some.inj hrun
    exact h

theorem ItemsInv.initLalrLookahead {sets' : LalrItemSets} (h : SetsKept lr0 inv sets)
    (hrun : g.initLalrLookahead firstSets fuel sets = some sets') : SetsKept lr0 inv sets' := by
  obtain ⟨s, hs, hrun⟩ := Option.bind_eq_some_iff.mp hrun
  obtain rfl := Option.some.inj hrun
  have hchecked : SetsKept lr0 inv s := by
    refine foldlM_inv (SetsKept lr0 inv) (fun s i t _ hs ht => ?_) h hs
    obtain ⟨set, hset, ht⟩ := Option.bind_eq_some_iff.mp ht
    obtain ⟨-, -, -, hitems, -⟩ := hs.kept i set hset
    refine foldlM_inv (SetsKept lr0 inv) (fun s' il t' hil hs' ht' => ?_) hs ht
    exact hinv.checkItem hs' (hitems il hil) ht'
  refine hchecked.modify (fun _ => rfl) (fun set hitems => ?_) (fun _ hspreads => hspreads)
  refine foldl_inv (fun items : List FklLalrItem => ∀ x ∈ items, inv 0 x)
    (fun items il hil hkept x hx => ?_) hitems
  rcases mem_hashSetPut.mp hx with hx | rfl
  · exact hkept x hx
  · exact hinv.withLa 0 il .eof (hitems il hil)

theorem ItemsInv.spreadRound {s : LalrItemSets × Bool} (h : SetsKept lr0 inv s.1) :
    SetsKept lr0 inv (FklGrammer.spreadRound s).1 := by
  have hstart : SetsKept lr0 inv (s.1, false).1 := h
  refine foldl_inv (fun s : LalrItemSets × Bool => SetsKept lr0 inv s.1) (fun s i _ hs => ?_) hstart
  unfold lookaheadSpread
  split
  · next set hset =>
    obtain ⟨-, -, -, -, hspreads⟩ := hs.kept i set hset
    refine foldl_inv (fun s : LalrItemSets × Bool => SetsKept lr0 inv s.1)
      (fun s sp hsp hs => ?_) hs
    refine foldl_inv (fun s : LalrItemSets × Bool => SetsKept lr0 inv s.1) (fun s il _ hs => ?_) hs
    unfold spreadItem
    split
    · exact hs.putItem (hinv.withLa _ _ _ (hspreads sp hsp))
    · exact hs
  · exact hs

theorem ItemsInv.addLookaheadToSet {qsort} (hq : QsortSpec qsort) {set : LalrItemSet}
    (hitems : ∀ x ∈ set.items, inv i x)
    {out : ExploreNode (List FklLalrItem) FklLalrItemSetLink}
    (h : g.addLookaheadToSet firstSets qsort fuel set = some out) :
    out.edges = set.links ∧ ∀ x ∈ out.key, inv i x := by
  obtain ⟨items, hrun, rfl⟩ := Option.map_eq_some_iff.mp h
  obtain ⟨closure, hclosure, rfl⟩ := Option.map_eq_some_iff.mp hrun
  refine ⟨rfl, fun x hx => ?_⟩
  refine hinv.lr1ItemSetClosure (fun y hy => ?_) hclosure x ((hq.perm _ _).mem_iff.mp hx)
  exact hitems y (List.mem_filter.mp hy).1

/-- The items with look-aheads have the property when those of the collection have. -/
theorem ItemsInv.fklLr0ToLalrItems {qsort} (hq : QsortSpec qsort)
    (hlr0 : ∀ (i : Nat) node, lr0[i]? = some node → ∀ x ∈ node.key, inv i x)
    {states : FklLalrItemSetHashMap}
    (h : g.fklLr0ToLalrItems firstSets qsort fuel lr0 = some states) :
    states.length = lr0.length ∧ ∀ (i : Nat) state, states[i]? = some state →
      ∃ node, lr0[i]? = some node ∧ state.edges = node.edges ∧ ∀ x ∈ state.key, inv i x := by
  obtain ⟨sets₀, hinit, h⟩ := Option.bind_eq_some_iff.mp h
  obtain ⟨s, hloop, h⟩ := Option.bind_eq_some_iff.mp h
  have hstart : SetsKept lr0 inv (lr0Sets lr0) := by
    refine ⟨by simp [lr0Sets], fun i set hset => ?_⟩
    rw [lr0Sets, List.getElem?_map] at hset
    obtain ⟨node, hnode, rfl⟩ := Option.map_eq_some_iff.mp hset
    exact ⟨node, hnode, rfl, hlr0 i node hnode, by simp⟩
  have hround : ∀ s t : LalrItemSets × Bool, SetsKept lr0 inv s.1 → s.2 = true →
      some (FklGrammer.spreadRound s) = some t → SetsKept lr0 inv t.1 := by
    intro s t hs _ ht
    obtain rfl := Option.some.inj ht
    exact hinv.spreadRound hs
  have hspread : SetsKept lr0 inv s.1 :=
    (whileLoop_inv (fun s : LalrItemSets × Bool => SetsKept lr0 inv s.1) hround
      (hinv.initLalrLookahead hstart hinit) hloop).1
  obtain ⟨hlen, hall⟩ := getElem?_of_mapM h
  refine ⟨hlen.trans hspread.length, fun i state hstate => ?_⟩
  obtain ⟨old, hold, hadd⟩ := hall i state hstate
  obtain ⟨node, hnode, hlinks, hitems, -⟩ := hspread.kept i old hold
  obtain ⟨hedges, hkept⟩ := hinv.addLookaheadToSet hq hitems hadd
  exact ⟨node, hnode, hedges.trans hlinks, hkept⟩

end FklGrammer

end FakeLisp
