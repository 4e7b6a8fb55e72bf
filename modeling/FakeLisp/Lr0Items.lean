import FakeLisp.Explore
import FakeLisp.Lr0Closure

/-! The collection of item sets. A set is kept as a sequence in the order that the sort gives. -/

namespace FakeLisp

structure GraLinkSym where
  sym : FklGrammerSym
  allowIgnore : Bool
  isAtDelim : Bool
  deriving DecidableEq

/-- The item set at the other end is given by its place. -/
structure FklLalrItemSetLink where
  sym : FklGrammerSym
  allowIgnore : Bool
  dst : Nat
  deriving DecidableEq

def itemSetLink (l : GraLinkSym) (dst : Nat) : FklLalrItemSetLink := ⟨l.sym, l.allowIgnore, dst⟩

def isGraLinkSymAllowIgnore (checked : List GraLinkSym) (left : Nat) : Bool :=
  ⟨.nonterm left, true, true⟩ ∈ checked ∨ ⟨.nonterm left, true, false⟩ ∈ checked

/-- The first loop of `add_gra_link_syms`: the nonterminals. -/
def addNontermLink (checked : List GraLinkSym) (l : FklLalrItem) : List GraLinkSym :=
  match l.getItemNext with
  | some (.nonterm nt) =>
    hashSetPut checked ⟨.nonterm nt,
      isGraLinkSymAllowIgnore checked l.prod.left || l.isAtDelimSym, l.isAtDelimSym⟩
  | _ => checked

/-- The second loop. -/
def addTermLink (checked : List GraLinkSym) (l : FklLalrItem) : List GraLinkSym :=
  match l.getItemNext with
  | none | some (.nonterm _) => checked
  | some sym =>
    hashSetPut checked ⟨sym, l.idx = 0 && isGraLinkSymAllowIgnore checked l.prod.left ||
      l.isAtDelimSym, l.isAtDelimSym⟩

def addGraLinkSyms (itemsClosure : List FklLalrItem) : List GraLinkSym :=
  itemsClosure.foldl addTermLink (itemsClosure.foldl addNontermLink [])

/-- The items that `ll` takes on. -/
def newItems (itemsClosure : List FklLalrItem) (ll : GraLinkSym) : List FklLalrItem :=
  (itemsClosure.filter fun l =>
      l.getItemNext = some ll.sym ∧ ll.isAtDelim = l.isAtDelimSym).foldl
    (fun items l => hashSetPut items l.getItemAdvance) []

namespace FklGrammer

variable (g : FklGrammer)
  (qsort : (FklLalrItem → FklLalrItem → Int) → List FklLalrItem → List FklLalrItem)

/-- The symbols that the loop of `lr0_item_set_goto` goes through. -/
def linkSyms (items : List FklLalrItem) : List GraLinkSym :=
  addGraLinkSyms (g.lr0ItemSetClosure items)

/-- The item set that one of them leads to. -/
def lr0ItemSetGoto (items : List FklLalrItem) (ll : GraLinkSym) : List FklLalrItem :=
  newItems (qsort g.lalrItemCmp (g.lr0ItemSetClosure items)) ll

def fklGenerateLr0Items (fuel : Nat) :
    Option (List (ExploreNode (List FklLalrItem) FklLalrItemSetLink)) :=
  match g.fklGetProductions 0 with
  | [] => none
  | prod :: _ =>
    (Explore.run g.linkSyms (g.lr0ItemSetGoto qsort) itemSetLink [.init prod 0] fuel).map (·.nodes)

end FklGrammer

/-! What the symbols and the new items are. -/

/-- The item goes on with the symbol. -/
def Follows (item : FklLalrItem) (l : GraLinkSym) : Prop :=
  item.getItemNext = some l.sym ∧ item.isAtDelimSym = l.isAtDelim

theorem mem_addNontermLink {checked : List GraLinkSym} {item : FklLalrItem} {l : GraLinkSym}
    (h : l ∈ addNontermLink checked item) : l ∈ checked ∨ Follows item l := by
  unfold addNontermLink at h
  split at h
  · next nt hnext =>
    refine (mem_hashSetPut.mp h).imp_right ?_
    rintro rfl
    exact ⟨hnext, rfl⟩
  · exact Or.inl h

theorem mem_addTermLink {checked : List GraLinkSym} {item : FklLalrItem} {l : GraLinkSym}
    (h : l ∈ addTermLink checked item) : l ∈ checked ∨ Follows item l := by
  unfold addTermLink at h
  split at h
  · exact Or.inl h
  · exact Or.inl h
  · next sym _ hnext =>
    refine (mem_hashSetPut.mp h).imp_right ?_
    rintro rfl
    exact ⟨hnext, rfl⟩

theorem subset_addNontermLink (checked : List GraLinkSym) (item : FklLalrItem) :
    checked ⊆ addNontermLink checked item := by
  intro l hl
  unfold addNontermLink
  split <;> simp [hl]

theorem subset_addTermLink (checked : List GraLinkSym) (item : FklLalrItem) :
    checked ⊆ addTermLink checked item := by
  intro l hl
  unfold addTermLink
  split <;> simp [hl]

theorem subset_foldl {f : List GraLinkSym → FklLalrItem → List GraLinkSym}
    (hf : ∀ checked item, checked ⊆ f checked item) (items : List FklLalrItem)
    (checked : List GraLinkSym) : checked ⊆ items.foldl f checked := by
  induction items generalizing checked with
  | nil => exact List.Subset.refl _
  | cons item items ih => exact fun l hl => ih _ (hf checked item hl)

theorem mem_foldl_link {f : List GraLinkSym → FklLalrItem → List GraLinkSym}
    (hf : ∀ checked item l, l ∈ f checked item → l ∈ checked ∨ Follows item l)
    {items : List FklLalrItem} {checked : List GraLinkSym} {l : GraLinkSym}
    (h : l ∈ items.foldl f checked) : l ∈ checked ∨ ∃ item ∈ items, Follows item l := by
  induction items generalizing checked with
  | nil => exact Or.inl h
  | cons item items ih =>
    rcases ih h with h | ⟨i, hi, hl⟩
    · exact (hf checked item l h).imp_right fun hl => ⟨item, by simp, hl⟩
    · exact Or.inr ⟨i, by simp [hi], hl⟩

theorem exists_mem_foldl_link {f : List GraLinkSym → FklLalrItem → List GraLinkSym}
    (hsub : ∀ checked item, checked ⊆ f checked item) {item : FklLalrItem}
    (hf : ∀ checked, ∃ l ∈ f checked item, Follows item l) {items : List FklLalrItem}
    (hitem : item ∈ items) (checked : List GraLinkSym) :
    ∃ l ∈ items.foldl f checked, Follows item l := by
  induction items generalizing checked with
  | nil => simp at hitem
  | cons i items ih =>
    rcases List.mem_cons.mp hitem with rfl | hitem
    · obtain ⟨l, hl, hfol⟩ := hf checked
      exact ⟨l, subset_foldl hsub items _ hl, hfol⟩
    · exact ih hitem _

theorem follows_of_mem_addGraLinkSyms {items : List FklLalrItem} {l : GraLinkSym}
    (h : l ∈ addGraLinkSyms items) : ∃ item ∈ items, Follows item l := by
  rcases mem_foldl_link (fun _ _ _ => mem_addTermLink) h with h | h
  · simpa using mem_foldl_link (fun _ _ _ => mem_addNontermLink) h
  · exact h

theorem exists_mem_addGraLinkSyms {items : List FklLalrItem} {item : FklLalrItem}
    (hitem : item ∈ items) {s : FklGrammerSym} (hs : item.getItemNext = some s) :
    ∃ l ∈ addGraLinkSyms items, l.sym = s ∧ l.isAtDelim = item.isAtDelimSym := by
  have hfol : ∀ {l : GraLinkSym}, Follows item l → l.sym = s ∧ l.isAtDelim = item.isAtDelimSym :=
    fun h => ⟨(Option.some.inj (hs.symm.trans h.1)).symm, h.2.symm⟩
  by_cases hnt : ∃ nt, s = .nonterm nt
  · obtain ⟨nt, rfl⟩ := hnt
    have hadd : ∀ checked, ∃ l ∈ addNontermLink checked item, Follows item l := fun checked => by
      simp only [addNontermLink, hs]
      exact ⟨_, mem_hashSetPut.mpr (Or.inr rfl), hs, rfl⟩
    obtain ⟨l, hl, h⟩ := exists_mem_foldl_link subset_addNontermLink hadd hitem []
    exact ⟨l, subset_foldl subset_addTermLink items _ hl, hfol h⟩
  · have hadd : ∀ checked, ∃ l ∈ addTermLink checked item, Follows item l := fun checked => by
      unfold addTermLink
      split
      · next h => simp [hs] at h
      · next nt h => exact absurd ⟨nt, Option.some.inj (hs.symm.trans h)⟩ hnt
      · next sym _ h => exact ⟨_, mem_hashSetPut.mpr (Or.inr rfl), h, rfl⟩
    obtain ⟨l, hl, h⟩ := exists_mem_foldl_link subset_addTermLink hadd hitem
      (items.foldl addNontermLink [])
    exact ⟨l, hl, hfol h⟩

theorem mem_newItems {items : List FklLalrItem} {l : GraLinkSym} {x : FklLalrItem} :
    x ∈ newItems items l ↔ ∃ item ∈ items, Follows item l ∧ item.getItemAdvance = x := by
  simp only [newItems, mem_foldl_hashSetPut, List.not_mem_nil, false_or, List.mem_filter,
    decide_eq_true_eq, and_assoc, Follows, eq_comm (a := l.isAtDelim)]

theorem nodup_newItems (items : List FklLalrItem) (l : GraLinkSym) : (newItems items l).Nodup :=
  nodup_foldl_hashSetPut _ _ List.nodup_nil

/-- The places go on by the same amount. -/
theorem getItemAdvance_eq {item : FklLalrItem} {l : GraLinkSym} (h : Follows item l) :
    item.getItemAdvance =
      { item with idx := item.idx + ((if l.isAtDelim then 2 else 1) + l.sym.compLen) } := by
  simp [FklLalrItem.getItemAdvance, h.1, h.2]

theorem getItemAdvance_inj {i j : FklLalrItem} {l : GraLinkSym} (hi : Follows i l)
    (hj : Follows j l) (h : i.getItemAdvance = j.getItemAdvance) : i = j := by
  rw [getItemAdvance_eq hi, getItemAdvance_eq hj] at h
  obtain ⟨p, n, la⟩ := i
  obtain ⟨p', n', la'⟩ := j
  simpa using h

theorem newItems_eq_map {items : List FklLalrItem} (h : items.Nodup) (l : GraLinkSym) :
    newItems items l = (items.filter fun item =>
      item.getItemNext = some l.sym ∧ l.isAtDelim = item.isAtDelimSym).map
        FklLalrItem.getItemAdvance := by
  unfold newItems
  rw [foldl_hashSetPut_eq, List.nil_append]
  rw [List.nil_append]
  refine List.Nodup.map_on (fun i hi j hj => ?_) (h.filter _)
  simp only [List.mem_filter, decide_eq_true_eq] at hi hj
  exact getItemAdvance_inj (l := l) ⟨hi.2.1, hi.2.2.symm⟩ ⟨hj.2.1, hj.2.2.symm⟩

end FakeLisp
