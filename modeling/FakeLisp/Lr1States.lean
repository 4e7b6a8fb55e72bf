import FakeLisp.AnalysisTable
import FakeLisp.GrammerFirst
import FakeLisp.Lr0Canonical

/-! The canonical LR(1) item sets, each with the LR(0) item set that the same symbols lead to, and
the look-aheads that an LR(0) item set has from all of them. -/

namespace FakeLisp

namespace FklLalrItem

/-- The item without its look-ahead. -/
def core (item : FklLalrItem) : FklLalrItem := .init item.prod item.idx

def withLa (item : FklLalrItem) (la : FklLalrItemLookAhead) : FklLalrItem := { item with la }

variable (item : FklLalrItem) (la la' : FklLalrItemLookAhead)

@[simp] theorem withLa_la : (item.withLa la).la = la := rfl

@[simp] theorem withLa_prod : (item.withLa la).prod = item.prod := rfl

@[simp] theorem withLa_idx : (item.withLa la).idx = item.idx := rfl

@[simp] theorem withLa_self : item.withLa item.la = item := rfl

@[simp] theorem withLa_withLa : (item.withLa la).withLa la' = item.withLa la' := rfl

@[simp] theorem withLa_core : (item.withLa la).core = item.core := rfl

@[simp] theorem core_la : item.core.la = .none := rfl

@[simp] theorem core_withLa : item.core.withLa la = item.withLa la := rfl

theorem withLa_none : item.withLa .none = item.core := rfl

@[simp] theorem getItemNext_withLa : (item.withLa la).getItemNext = item.getItemNext := rfl

@[simp] theorem isAtDelimSym_withLa : (item.withLa la).isAtDelimSym = item.isAtDelimSym := rfl

@[simp] theorem nextNonterm_withLa : (item.withLa la).nextNonterm = item.nextNonterm := rfl

@[simp] theorem getItemNext_core : item.core.getItemNext = item.getItemNext := rfl

@[simp] theorem isAtDelimSym_core : item.core.isAtDelimSym = item.isAtDelimSym := rfl

@[simp] theorem nextNonterm_core : item.core.nextNonterm = item.nextNonterm := rfl

@[simp] theorem getItemAdvance_withLa :
    (item.withLa la).getItemAdvance = item.getItemAdvance.withLa la := by
  unfold getItemAdvance
  rw [getItemNext_withLa, isAtDelimSym_withLa]
  cases item.getItemNext <;> rfl

@[simp] theorem getItemAdvance_core : item.core.getItemAdvance = item.getItemAdvance.core :=
  item.getItemAdvance_withLa .none

@[simp] theorem getItemAdvance_la : item.getItemAdvance.la = item.la := by
  unfold getItemAdvance
  cases item.getItemNext <;> rfl

@[simp] theorem getItemAdvance_prod : item.getItemAdvance.prod = item.prod := by
  unfold getItemAdvance
  cases item.getItemNext <;> rfl

theorem idx_lt_getItemAdvance : item.idx < item.getItemAdvance.idx := by
  unfold getItemAdvance
  cases item.getItemNext with
  | none => exact Nat.lt_succ_self _
  | some s =>
    have hpos : 0 < (if item.isAtDelimSym then 2 else 1) := by
      split <;> omega
    simp only
    omega

end FklLalrItem

namespace FklGrammer

variable (g : FklGrammer) (extra : FklGrammerProduction)

/-- What stands behind the symbol that follows. -/
def restOf (item : FklLalrItem) : List (Symbol FklLalrItemLookAhead Nat) :=
  g.rhsOf 0 (item.prod.syms.drop item.getItemAdvance.idx)

inductive Lr1Closure (I : Set FklLalrItem) : FklLalrItem → Prop
  | base {item : FklLalrItem} (h : item ∈ I) : Lr1Closure I item
  | first {item : FklLalrItem} {nt : Nat} {p : FklGrammerProduction} {t : FklLalrItemLookAhead}
    (h : Lr1Closure I item) (hnext : item.nextNonterm = some nt)
    (hp : p ∈ g.fklGetProductions nt)
    (ht : DerivesFirst g.TermEps g.rhss (g.restOf item) (some t)) : Lr1Closure I ⟨p, 0, t⟩
  | empty {item : FklLalrItem} {nt : Nat} {p : FklGrammerProduction} (h : Lr1Closure I item)
    (hnext : item.nextNonterm = some nt) (hp : p ∈ g.fklGetProductions nt)
    (he : DerivesFirst g.TermEps g.rhss (g.restOf item) none) : Lr1Closure I ⟨p, 0, item.la⟩

/-- The items that the closure takes on over a symbol. -/
def lr1Goto (I : Set FklLalrItem) (s : FklGrammerSym) (isAtDelim : Bool) : Set FklLalrItem :=
  {x | ∃ item, g.Lr1Closure I item ∧ item.getItemNext = some s ∧ item.isAtDelimSym = isAtDelim ∧
    item.getItemAdvance = x}

/-- The kernels of the canonical LR(1) collection, each with the LR(0) kernel at the end of the same
way. -/
inductive Lr1State : Set FklLalrItem → Set FklLalrItem → Prop
  | start : Lr1State {(FklLalrItem.init extra 0).withLa .eof} {.init extra 0}
  | goto {I K : Set FklLalrItem} {item : FklLalrItem} {s : FklGrammerSym} (h : Lr1State I K)
    (hitem : g.Lr1Closure I item) (hs : item.getItemNext = some s) :
    Lr1State (g.lr1Goto I s item.isAtDelimSym) (g.gotoSet K s item.isAtDelimSym)

/-- The item has its look-ahead in one of the LR(1) sets of an LR(0) set. -/
def LalrLa (K : Set FklLalrItem) (x : FklLalrItem) : Prop :=
  ∃ I, g.Lr1State extra I K ∧ g.Lr1Closure I x

/-- Every nonterminal may begin with something, or be empty. -/
def Begins : Prop :=
  ∀ e ∈ g.prods.entries, ¬isSqNt e.1 → ∃ o, DerivesFirst g.TermEps g.rhss [.nonterminal e.1] o

section

variable {g extra} {I K : Set FklLalrItem} {x y : FklLalrItem}

theorem Lr1Closure.exists_base (h : g.Lr1Closure I x) : ∃ y ∈ I, g.Lr1Closure {y} x := by
  induction h with
  | base h => exact ⟨_, h, .base rfl⟩
  | first _ hnext hp ht ih =>
    obtain ⟨y, hy, hclosure⟩ := ih
    exact ⟨y, hy, .first hclosure hnext hp ht⟩
  | empty _ hnext hp he ih =>
    obtain ⟨y, hy, hclosure⟩ := ih
    exact ⟨y, hy, .empty hclosure hnext hp he⟩

theorem Lr1Closure.trans {J : Set FklLalrItem} (hI : ∀ y ∈ I, g.Lr1Closure J y)
    (h : g.Lr1Closure I x) : g.Lr1Closure J x := by
  induction h with
  | base h => exact hI _ h
  | first _ hnext hp ht ih => exact .first ih hnext hp ht
  | empty _ hnext hp he ih => exact .empty ih hnext hp he

theorem Lr1Closure.mono {J : Set FklLalrItem} (hI : I ⊆ J) (h : g.Lr1Closure I x) :
    g.Lr1Closure J x :=
  h.trans fun _ hy => .base (hI hy)

theorem Lr1Closure.core (hI : ∀ y ∈ I, y.core ∈ K) (h : g.Lr1Closure I x) :
    g.LrClosure K x.core := by
  induction h with
  | base h => exact .base (hI _ h)
  | first _ hnext hp _ ih => exact .prod ih hnext hp
  | empty _ hnext hp _ ih => exact .prod ih hnext hp

theorem Lr1State.core_mem (h : g.Lr1State extra I K) : ∀ y ∈ I, y.core ∈ K := by
  induction h with
  | start =>
    rintro y rfl
    rfl
  | goto h _ _ ih =>
    rintro y ⟨item, hitem, hs, hdelim, rfl⟩
    exact ⟨item.core, hitem.core ih, hs, hdelim, item.getItemAdvance_core⟩

theorem Lr1State.lrState (h : g.Lr1State extra I K) : g.LrState extra K := by
  induction h with
  | start => exact .start
  | @goto I K item s h hitem hs ih =>
    have hgoto : g.LrState extra (g.gotoSet K s item.core.isAtDelimSym) :=
      .goto ih (hitem.core h.core_mem) hs
    exact hgoto

theorem LalrLa.core (h : g.LalrLa extra K x) : g.LrClosure K x.core := by
  obtain ⟨I, hI, hx⟩ := h
  exact hx.core hI.core_mem

theorem LalrLa.closure (h : g.LalrLa extra K x) (hy : g.Lr1Closure {x} y) :
    g.LalrLa extra K y := by
  obtain ⟨I, hI, hx⟩ := h
  refine ⟨I, hI, hy.trans ?_⟩
  rintro z rfl
  exact hx

theorem LalrLa.goto (h : g.LalrLa extra K x) {s : FklGrammerSym} (hs : x.getItemNext = some s) :
    g.LalrLa extra (g.gotoSet K s x.isAtDelimSym) x.getItemAdvance := by
  obtain ⟨I, hI, hx⟩ := h
  exact ⟨_, .goto hI hx hs, .base ⟨x, hx, hs, rfl, rfl⟩⟩

theorem lalrLa_start : g.LalrLa extra {.init extra 0} ((FklLalrItem.init extra 0).withLa .eof) :=
  ⟨_, .start, .base rfl⟩

@[simp] theorem restOf_withLa (la : FklLalrItemLookAhead) :
    g.restOf (x.withLa la) = g.restOf x := by
  simp [restOf]

@[simp] theorem restOf_core : g.restOf x.core = g.restOf x := restOf_withLa .none

/-! The look-aheads that an item gives to its closure are its own or do not depend on it. -/

theorem mem_rhsOf_terminal {k : Nat} {syms : List FklGrammerSym} {t : FklLalrItemLookAhead}
    (h : .terminal t ∈ g.rhsOf k syms) : t = .ignore ∨ ∃ s ∈ syms, s.term = some t := by
  have hcons : ∀ {s : FklGrammerSym} {rest : List FklGrammerSym},
      (t = .ignore ∨ ∃ s ∈ rest, s.term = some t) →
        t = .ignore ∨ ∃ s' ∈ s :: rest, s'.term = some t :=
    fun h => h.imp_right fun ⟨s, hs, ht⟩ => ⟨s, List.mem_cons_of_mem _ hs, ht⟩
  fun_induction g.rhsOf k syms with
  | case1 => cases h
  | case2 _ _ _ ih => exact hcons (ih h)
  | case6 _ _ ih => exact hcons (ih (by simpa using h))
  | case7 _ ih =>
    rcases List.mem_cons.mp h with h | h
    · exact Or.inl (Symbol.terminal.inj h)
    · exact hcons (ih h)
  | case8 _ _ _ ih => exact hcons (ih h)
  | case10 _ _ _ ih => exact hcons (ih h)
  | _ =>
    rename_i ih
    rcases List.mem_cons.mp h with h | h
    · obtain rfl := Symbol.terminal.inj h
      exact Or.inr ⟨_, List.mem_cons_self, rfl⟩
    · exact hcons (ih h)

/-- A look-ahead that something begins with is a terminal. -/
theorem ne_none_of_derivesFirst {k : Nat} {syms : List FklGrammerSym} {t : FklLalrItemLookAhead}
    (h : DerivesFirst g.TermEps g.rhss (g.rhsOf k syms) (some t)) : t ≠ .none := by
  have hne : ∀ k syms t, .terminal t ∈ g.rhsOf k syms → t ≠ .none := by
    intro k syms t ht
    rcases mem_rhsOf_terminal ht with rfl | ⟨s, _, hs⟩
    · simp
    · exact (s.term_ne hs).2.2
  refine derivesFirst_terminal (P := (· ≠ .none)) (fun nt α hα t ht => ?_) (hne k syms) h
  obtain ⟨_, _, p, _, rfl⟩ := mem_rhss hα
  exact hne 0 p.syms t ht

theorem Lr1Closure.withLa {la : FklLalrItemLookAhead} (h : g.Lr1Closure {y} x)
    (hy : y.la = .none) : g.Lr1Closure {y.withLa la} (if x.la = .none then x.withLa la else x) := by
  induction h with
  | base h =>
    obtain rfl := h
    rw [if_pos hy]
    exact .base rfl
  | @first item nt p t h hnext hp ht ih =>
    rw [if_neg (ne_none_of_derivesFirst ht)]
    split at ih
    · exact .first ih hnext hp (by simpa using ht)
    · exact .first ih hnext hp ht
  | @empty item nt p h hnext hp he ih =>
    dsimp only
    split at ih
    · next hla =>
      rw [if_pos hla]
      exact .empty ih hnext hp (by simpa using he)
    · next hla =>
      rw [if_neg hla]
      exact .empty ih hnext hp he

/-- What is in the closure of an item is there without the look-ahead of the item, or has it. -/
theorem Lr1Closure.of_withLa {la : FklLalrItemLookAhead} (h : g.Lr1Closure {y.withLa la} x) :
    g.Lr1Closure {y.core} x ∧ x.la ≠ .none ∨ x.la = la ∧ g.Lr1Closure {y.core} x.core := by
  induction h with
  | base h =>
    obtain rfl := h
    exact Or.inr ⟨rfl, .base rfl⟩
  | @first item nt p t h hnext hp ht ih =>
    refine Or.inl ⟨?_, ne_none_of_derivesFirst ht⟩
    rcases ih with ⟨hitem, _⟩ | ⟨_, hitem⟩
    · exact .first hitem hnext hp ht
    · exact .first hitem hnext hp (by simpa using ht)
  | @empty item nt p h hnext hp he ih =>
    rcases ih with ⟨hitem, hla⟩ | ⟨hla, hitem⟩
    · exact Or.inl ⟨.empty hitem hnext hp he, hla⟩
    · exact Or.inr ⟨hla, .empty hitem hnext hp (by simpa using he)⟩

/-! Where every nonterminal begins with something, an LR(1) set has the items of its LR(0) set. -/

theorem mem_rhsOf_nonterminal {k : Nat} {syms : List FklGrammerSym} {nt : Nat}
    (h : .nonterminal nt ∈ g.rhsOf k syms) : .nonterm nt ∈ syms := by
  fun_induction g.rhsOf k syms with
  | case6 _ _ ih =>
    rcases List.mem_cons.mp h with h | h
    · rw [Symbol.nonterminal.inj h]
      exact List.mem_cons_self
    · exact List.mem_cons_of_mem _ (ih h)
  | _ => simp_all

/-- The productions of an item set are those of the grammar. -/
theorem Begins.restOf (hbegins : g.Begins) (hg : g.Defined)
    {rest : List FklGrammerProduction} (hextra : g.fklGetProductions 0 = extra :: rest)
    (hx : x.core ∈ g.lr0Items extra) :
    ∃ o, DerivesFirst g.TermEps g.rhss (g.restOf x) o := by
  refine exists_derivesFirst fun nt hnt => ?_
  have hmem : FklGrammerSym.nonterm nt ∈ x.prod.syms :=
    List.mem_of_mem_drop (mem_rhsOf_nonterminal hnt)
  obtain ⟨nt', hp⟩ : ∃ nt', x.prod ∈ g.fklGetProductions nt' := by
    rcases hx.1 with heq | hp
    · exact ⟨0, by simp [hextra, ← heq, FklLalrItem.core, FklLalrItem.init]⟩
    · exact hp
  obtain ⟨ps, hps, hmemp⟩ := mem_of_productions hp
  obtain ⟨hsq, qs, hqs⟩ := hg _ hps _ hmemp nt hmem
  exact hbegins _ hqs hsq

theorem Begins.lrClosure (hbegins : g.Begins) (hg : g.Defined)
    {rest : List FklGrammerProduction} (hextra : g.fklGetProductions 0 = extra :: rest)
    (hK : K ⊆ g.lr0Items extra) (hI : ∀ y ∈ K, ∃ la, y.withLa la ∈ I) (h : g.LrClosure K x) :
    ∃ la, g.Lr1Closure I (x.withLa la) := by
  induction h with
  | base h => exact (hI _ h).imp fun _ => .base
  | @prod item nt p h hnext hp ih =>
    obtain ⟨la, hitem⟩ := ih
    have hmem := h.mem_lr0Items hK
    obtain ⟨o, ho⟩ := hbegins.restOf hg hextra (x := item.withLa la)
      (by obtain ⟨hp, hidx, -⟩ := hmem; exact ⟨hp, hidx, rfl⟩)
    cases o with
    | some t => exact ⟨t, .first hitem hnext hp ho⟩
    | none => exact ⟨la, .empty hitem hnext hp ho⟩

theorem Lr1State.core_image (hbegins : g.Begins) (hg : g.Defined)
    {rest : List FklGrammerProduction} (hextra : g.fklGetProductions 0 = extra :: rest)
    (h : g.Lr1State extra I K) : FklLalrItem.core '' I = K := by
  have hsub : FklLalrItem.core '' I ⊆ K := by
    rintro _ ⟨y, hy, rfl⟩
    exact h.core_mem y hy
  refine Set.Subset.antisymm hsub ?_
  suffices hla : ∀ x ∈ K, ∃ la, x.withLa la ∈ I by
    intro x hx
    obtain ⟨la, hmem⟩ := hla x hx
    refine ⟨_, hmem, ?_⟩
    obtain ⟨-, -, hnone⟩ := h.lrState.sub hx
    rw [FklLalrItem.withLa_core, ← FklLalrItem.withLa_none, ← hnone, FklLalrItem.withLa_self]
  clear hsub
  induction h with
  | start =>
    rintro x rfl
    exact ⟨.eof, rfl⟩
  | @goto I K item s h hitem hs ih =>
    rintro _ ⟨x, hx, hnext, hdelim, rfl⟩
    obtain ⟨la, hmem⟩ := hbegins.lrClosure hg hextra h.lrState.sub ih hx
    refine ⟨la, x.withLa la, hmem, hnext, hdelim, ?_⟩
    exact x.getItemAdvance_withLa la

end

end FklGrammer

end FakeLisp
