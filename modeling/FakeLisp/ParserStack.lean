import FakeLisp.ItemAccess
import FakeLisp.ParserReads
import FakeLisp.RightmostDerivation

/-! The stacks of the parser along the links of the item sets, and the derivation that its
reductions are. -/

namespace FakeLisp

/-- The nonterminal of an entry of the symbol stack. -/
def FklGrammerSym.nontermOf : FklGrammerSym → Nat
  | .nonterm nt => nt
  | _ => 0

def FklLalrItemLookAhead.sym : FklLalrItemLookAhead → FklGrammerSym
  | .keyword s => .keyword s
  | .string s => .string s
  | .regex re => .regex re
  | .builtin b => .builtin b
  | .comp parts => .comp parts
  | .none | .ignore | .eof => .ignore

theorem FklGrammerSym.sym_of_term {s : FklGrammerSym} {t : FklLalrItemLookAhead}
    (h : s.term = some t) :
    t.sym = s ∧ s.width = FklGrammerTerms.shiftCount t ∧ s.nontermOf = 0 := by
  cases s <;> cases h <;> exact ⟨rfl, rfl, rfl⟩

/-- The productions without the delimiters. -/
def FklGrammer.cfg (g : FklGrammer) : CfProductions FklGrammerSym FklGrammerProduction where
  has p := ¬isSqNt p.left ∧ p ∈ g.fklGetProductions p.left
  lhs p := .nonterm p.left
  rhs p := spine p.syms
  term s := s.term.isSome

/-- The productions that have been reduced, the last one first. -/
def reductions (evs : List FklParseEvent) : List FklGrammerProduction :=
  (evs.filterMap fun
    | .reduce prod _ => some prod
    | _ => none).reverse

/-- The terminals that have been shifted. -/
def tokens (evs : List FklParseEvent) : List FklGrammerSym :=
  evs.filterMap fun
    | .shift m _ => some m.t.sym
    | _ => none

section

variable {evs : List FklParseEvent} {m : FklAnalysisStateActionMatch}
  {args : FklStateActionMatchArgs} {prod : FklGrammerProduction} {len : Nat}

@[simp] theorem reductions_ignore : reductions (evs ++ [.ignore m args]) = reductions evs := by
  simp [reductions]

@[simp] theorem reductions_shift : reductions (evs ++ [.shift m args]) = reductions evs := by
  simp [reductions]

@[simp] theorem reductions_reduce :
    reductions (evs ++ [.reduce prod len]) = prod :: reductions evs := by
  simp [reductions]

@[simp] theorem tokens_ignore : tokens (evs ++ [.ignore m args]) = tokens evs := by
  simp [tokens]

@[simp] theorem tokens_shift : tokens (evs ++ [.shift m args]) = tokens evs ++ [m.t.sym] := by
  simp [tokens]

@[simp] theorem tokens_reduce : tokens (evs ++ [.reduce prod len]) = tokens evs := by
  simp [tokens]

end

/-! Stacks of symbols with the states above them, the last one first. -/

def stackTop : List (FklGrammerSym × Nat) → Nat
  | [] => 0
  | e :: _ => e.2

/-- The symbols of a stack, the first one first. -/
def stackForm (stack : List (FklGrammerSym × Nat)) : List FklGrammerSym :=
  (stack.map Prod.fst).reverse

/-- An entry for each of the symbols that the parser has. -/
def widened {β : Type} (f : FklGrammerSym × Nat → β) (stack : List (FklGrammerSym × Nat)) :
    List β := stack.flatMap fun e => List.replicate e.1.width (f e)

section

variable {β : Type} {f : FklGrammerSym × Nat → β} {stack : List (FklGrammerSym × Nat)}

@[simp] theorem stackForm_cons (e : FklGrammerSym × Nat) :
    stackForm (e :: stack) = stackForm stack ++ [e.1] := by
  simp [stackForm]

theorem stackForm_append (stack' : List (FklGrammerSym × Nat)) :
    stackForm (stack ++ stack') = stackForm stack' ++ stackForm stack := by
  simp [stackForm]

@[simp] theorem widened_cons (e : FklGrammerSym × Nat) :
    widened f (e :: stack) = List.replicate e.1.width (f e) ++ widened f stack := rfl

theorem widthOf_append (syms syms' : List FklGrammerSym) :
    widthOf (syms ++ syms') = widthOf syms + widthOf syms' := by
  simp [widthOf]

theorem length_widened : (widened f stack).length = widthOf (stackForm stack) := by
  induction stack with
  | nil => rfl
  | cons e stack ih =>
    rw [widened_cons, List.length_append, List.length_replicate, ih, stackForm_cons,
      widthOf_append]
    simp [Nat.add_comm]

theorem drop_widened (l : List β) (n : Nat) :
    (widened f stack ++ l).drop (widthOf (stackForm (stack.take n))) =
      widened f (stack.drop n) ++ l := by
  induction n generalizing stack with
  | zero => rfl
  | succ n ih =>
    cases stack with
    | nil => rfl
    | cons e stack =>
      have hwidth : widthOf (stackForm ((e :: stack).take (n + 1))) =
          (List.replicate e.1.width (f e)).length + widthOf (stackForm (stack.take n)) := by
        rw [List.take_succ_cons, stackForm_cons, widthOf_append, List.length_replicate]
        simp [Nat.add_comm]
      rw [hwidth, widened_cons, List.append_assoc, ← List.drop_drop, List.drop_left, ih]
      rfl

theorem head?_widened (hwidth : ∀ e ∈ stack, e.1.width ≠ 0) :
    (widened Prod.snd stack ++ [0]).head? = some (stackTop stack) := by
  cases stack with
  | nil => rfl
  | cons e stack =>
    obtain ⟨w, hw⟩ := Nat.exists_eq_succ_of_ne_zero (hwidth e List.mem_cons_self)
    rw [widened_cons, hw, List.replicate_succ]
    rfl

end

/-! Links. -/

variable {σ α : Type}

/-- The states of a stack are linked by its symbols. -/
inductive LinkedStack (states : FklLalrItemSetHashMap) : List (FklGrammerSym × Nat) → Prop
  | nil : LinkedStack states []
  | cons {stack : List (FklGrammerSym × Nat)} {e : FklLalrItemSetLink}
    {set : FklLalrItemSetHashMapNode} (h : LinkedStack states stack)
    (hset : states[stackTop stack]? = some set) (he : e ∈ set.edges) :
    LinkedStack states ((e.sym, e.dst) :: stack)

structure StackOf (stack : List (FklGrammerSym × Nat)) (p : FklParser σ α) : Prop where
  states : p.stateStack = widened Prod.snd stack ++ [0]
  symbols : p.symbolStack.map (·.nt) = widened (fun e => e.1.nontermOf) stack

/-- The set has an item of the production with so many symbols passed. -/
def HasItem (states : FklLalrItemSetHashMap) (q : Nat) (prod : FklGrammerProduction) (k : Nat) :
    Prop :=
  ∃ set ∈ states[q]?, ∃ x ∈ set.key, x.prod = prod ∧ x.passed = k

instance (states : FklLalrItemSetHashMap) (q : Nat) (prod : FklGrammerProduction) (k : Nat) :
    Decidable (HasItem states q prod k) := by
  unfold HasItem
  infer_instance

/-- The states that a reduction takes from the stack, and the one that it leaves on the top, have
the item of the production at the place where they stand. -/
def Carried (states : FklLalrItemSetHashMap) (stateStack : List Nat)
    (prod : FklGrammerProduction) : Prop :=
  ∀ k ≤ (spine prod.syms).length, ∀ q ∈ stateStack[widthOf ((spine prod.syms).drop k)]?,
    HasItem states q prod k

instance (states : FklLalrItemSetHashMap) (stateStack : List Nat) (prod : FklGrammerProduction) :
    Decidable (Carried states stateStack prod) := by
  unfold Carried
  infer_instance

/-- No item stands in a set without the one before it in each set with a link there. -/
def NoStray (states : FklLalrItemSetHashMap) : Prop :=
  ∀ set ∈ states, ∀ e ∈ set.edges, ∀ dst ∈ states[e.dst]?, ∀ x ∈ dst.key, x.passed ≠ 0 →
    ∃ y ∈ set.key, y.prod = x.prod ∧ y.passed + 1 = x.passed

instance (states : FklLalrItemSetHashMap) : Decidable (NoStray states) := by
  unfold NoStray
  infer_instance

/-- The production that an action is taken for, where accepting is for the extra one. -/
def FklAnalysisStateActionEnum.reduced (extra : FklGrammerProduction) :
    FklAnalysisStateActionEnum → Option FklGrammerProduction
  | .reduce prod _ => some prod
  | .accept => some extra
  | .shift _ | .ignore => none

/-- What a state reduces has been passed. -/
def EndsPassed (states : FklLalrItemSetHashMap) (table : FklAnalysisTable)
    (extra : FklGrammerProduction) : Prop :=
  ∀ i < table.length, ∀ state ∈ table[i]?, ∀ a ∈ state.action, ∀ prod ∈ a.action.reduced extra,
    HasItem states i prod (spine prod.syms).length

instance (states : FklLalrItemSetHashMap) (table : FklAnalysisTable)
    (extra : FklGrammerProduction) : Decidable (EndsPassed states table extra) := by
  unfold EndsPassed
  infer_instance

/-- A composite terminal is made of parts. -/
def FklGrammer.PartsThere (g : FklGrammer) : Prop :=
  ∀ nt, ∀ p ∈ g.fklGetProductions nt, ∀ parts, .comp parts ∈ p.syms → parts ≠ []

section

open FklGrammer

variable {g : FklGrammer} {extra : FklGrammerProduction} {states : FklLalrItemSetHashMap}
  {rest : List FklGrammerProduction} {stack : List (FklGrammerSym × Nat)}
  {prod : FklGrammerProduction} {j : Nat}

theorem LinkedStack.drop (h : LinkedStack states stack) (n : Nat) :
    LinkedStack states (stack.drop n) := by
  induction h generalizing n with
  | nil =>
    rw [List.drop_nil]
    exact .nil
  | cons h hset he ih =>
    cases n with
    | zero => exact .cons h hset he
    | succ n => exact ih n

theorem LinkedStack.width_ne (hplaced : SetsPlaced g extra states)
    (hextra : g.fklGetProductions 0 = extra :: rest) (hparts : g.PartsThere)
    (h : LinkedStack states stack) : ∀ e ∈ stack, e.1.width ≠ 0 := by
  induction h with
  | nil => simp
  | @cons stack e set h hset he ih =>
    intro e' he'
    rcases List.mem_cons.mp he' with rfl | he'
    · obtain ⟨p, hp, hmem⟩ := hplaced.sym_mem set (List.mem_of_getElem? hset) e he
      have hprod : ∃ nt, p ∈ g.fklGetProductions nt := by
        rcases hp with rfl | ⟨-, hp⟩
        · exact ⟨0, by simp [hextra]⟩
        · exact ⟨_, hp⟩
      obtain ⟨nt, hprod⟩ := hprod
      dsimp only
      cases hs : e.sym with
      | comp parts =>
        rw [hs] at hmem
        simpa [FklGrammerSym.width] using hparts nt p hprod parts hmem
      | _ => exact Nat.one_ne_zero
    · exact ih e' he'

/-- Below an item that has passed a symbol is a link over this symbol. -/
theorem LinkedStack.behind (hplaced : SetsPlaced g extra states) (h : LinkedStack states stack)
    {set : FklLalrItemSetHashMapNode} (hset : states[stackTop stack]? = some set) {x : FklLalrItem}
    (hx : x ∈ set.key) (hne : x.passed ≠ 0) :
    ∃ (e : FklLalrItemSetLink) (below : List (FklGrammerSym × Nat))
      (set' : FklLalrItemSetHashMapNode), stack = (e.sym, e.dst) :: below ∧
        states[stackTop below]? = some set' ∧ e ∈ set'.edges ∧
        (spine x.prod.syms)[x.passed - 1]? = some e.sym := by
  cases h with
  | nil => exact absurd (hplaced.first set hset x hx) hne
  | @cons below e set' _ hset' he =>
    exact ⟨e, below, set', rfl, hset', he, hplaced.access _ set' hset' e he set hset x hx hne⟩

/-- The symbols on the top are the last ones of the production. -/
def Fits (prod : FklGrammerProduction) (stack : List (FklGrammerSym × Nat)) (j : Nat) : Prop :=
  j ≤ stack.length ∧
    stackForm (stack.take j) = (spine prod.syms).drop ((spine prod.syms).length - j)

theorem fits_zero : Fits prod stack 0 := by
  simp [Fits, stackForm]

theorem Fits.state (h : Fits prod stack j) (hwidth : ∀ e ∈ stack, e.1.width ≠ 0) :
    (widened Prod.snd stack ++ [0])[widthOf ((spine prod.syms).drop
      ((spine prod.syms).length - j))]? = some (stackTop (stack.drop j)) := by
  rw [← h.2, ← List.head?_drop, drop_widened]
  exact head?_widened fun e he => hwidth e (List.mem_of_mem_drop he)

/-- One symbol more fits when the state above it has the item. -/
theorem LinkedStack.fits_succ (hplaced : SetsPlaced g extra states) (h : LinkedStack states stack)
    (hj : j < (spine prod.syms).length) (hfits : Fits prod stack j)
    (hitem : HasItem states (stackTop (stack.drop j)) prod ((spine prod.syms).length - j)) :
    Fits prod stack (j + 1) ∧ (NoStray states →
      HasItem states (stackTop (stack.drop (j + 1))) prod
        ((spine prod.syms).length - (j + 1))) := by
  obtain ⟨set, hset, x, hx, hprod, hpassed⟩ := hitem
  have hne : x.passed ≠ 0 := by omega
  obtain ⟨e, below, set', hdrop, hset', he, hsym⟩ := (h.drop j).behind hplaced hset hx hne
  rw [hprod, hpassed] at hsym
  have htake : stack.take (j + 1) = stack.take j ++ [(e.sym, e.dst)] := by
    rw [List.take_add_one, ← List.head?_drop, hdrop]
    rfl
  have hbelow : stack.drop (j + 1) = below := by
    rw [← List.drop_drop, hdrop]
    rfl
  have hlen := congrArg List.length hdrop
  simp only [List.length_drop, List.length_cons] at hlen
  refine ⟨⟨by omega, ?_⟩, fun hno => ?_⟩
  · have hindex : (spine prod.syms).length - (j + 1) < (spine prod.syms).length := by omega
    have hget : (spine prod.syms)[(spine prod.syms).length - (j + 1)] = e.sym := by
      obtain ⟨_, hget⟩ := List.getElem?_eq_some_iff.mp hsym
      simpa [Nat.sub_sub] using hget
    have hnext : (spine prod.syms).length - (j + 1) + 1 = (spine prod.syms).length - j := by omega
    rw [htake, stackForm_append, hfits.2, List.drop_eq_getElem_cons hindex, hget, hnext]
    rfl
  · rw [hdrop] at hset
    obtain ⟨y, hy, hyprod, hypassed⟩ :=
      hno set' (List.mem_of_getElem? hset') e he set hset x hx hne
    rw [hbelow]
    exact ⟨set', hset', y, hy, hyprod.trans hprod, by omega⟩

/-- What a reduction takes is its right side. -/
theorem Carried.form (hplaced : SetsPlaced g extra states) (h : LinkedStack states stack)
    (hwidth : ∀ e ∈ stack, e.1.width ≠ 0)
    (hcarried : Carried states (widened Prod.snd stack ++ [0]) prod) :
    (spine prod.syms).length ≤ stack.length ∧
      stackForm (stack.take (spine prod.syms).length) = spine prod.syms ∧
      HasItem states (stackTop (stack.drop (spine prod.syms).length)) prod 0 := by
  have hstate : ∀ j ≤ (spine prod.syms).length, Fits prod stack j →
      HasItem states (stackTop (stack.drop j)) prod ((spine prod.syms).length - j) :=
    fun j hj hfits => hcarried _ (Nat.sub_le _ _) _ (hfits.state hwidth)
  have hall : ∀ j ≤ (spine prod.syms).length, Fits prod stack j := by
    intro j
    induction j with
    | zero => exact fun _ => fits_zero
    | succ j ih =>
      intro hj
      have hfits := ih (by omega)
      exact (h.fits_succ hplaced hj hfits (hstate j (by omega) hfits)).1
  have hfits := hall _ le_rfl
  have hitem := hstate _ le_rfl hfits
  rw [Nat.sub_self] at hitem
  refine ⟨hfits.1, ?_, hitem⟩
  rw [hfits.2, Nat.sub_self, List.drop_zero]

/-- Where no item strays, a production that is passed has come along the states of the stack. -/
theorem NoStray.carried (hno : NoStray states) (hplaced : SetsPlaced g extra states)
    (h : LinkedStack states stack) (hwidth : ∀ e ∈ stack, e.1.width ≠ 0)
    (hitem : HasItem states (stackTop stack) prod (spine prod.syms).length) :
    Carried states (widened Prod.snd stack ++ [0]) prod := by
  have hall : ∀ j ≤ (spine prod.syms).length, Fits prod stack j ∧
      HasItem states (stackTop (stack.drop j)) prod ((spine prod.syms).length - j) := by
    intro j
    induction j with
    | zero => exact fun _ => ⟨fits_zero, hitem⟩
    | succ j ih =>
      intro hj
      obtain ⟨hfits, hitem⟩ := ih (by omega)
      obtain ⟨hfits, hitem⟩ := h.fits_succ hplaced hj hfits hitem
      exact ⟨hfits, hitem hno⟩
  intro k hk q hq
  obtain ⟨hfits, hitem⟩ := hall ((spine prod.syms).length - k) (Nat.sub_le _ _)
  have hstate := hfits.state hwidth
  rw [Nat.sub_sub_self hk] at hstate hitem
  obtain rfl := Option.some.inj (hstate.symm.trans hq)
  exact hitem

end

end FakeLisp
