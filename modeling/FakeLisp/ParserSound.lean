import FakeLisp.ParserStack

/-! What the parser accepts is derived from the start when each reduction takes from the stack the
states that its production has come along. -/

namespace FakeLisp

namespace FklGrammerTerms

variable {σ α : Type} {terms : FklGrammerTerms} {mem : Memory} {fuel : Nat}
  {table : FklAnalysisTable} {cb : FklParseCallbacks σ α} {from_ : Nat}

/-! The symbols that a shift pushes. -/

theorem triple_emplaceParts_nt (ctxLine start : Nat) (parts : List FklCompPart)
    {cur rest line : Nat} {b : Bool} {symbols : List (FklAnalysisSymbol α)} {outer : σ} :
    Triple (fun _ => True)
      (terms.emplaceParts mem fuel cb ctxLine start parts cur rest b line symbols outer)
      fun o _ => o.1.map (·.nt) = List.replicate parts.length 0 ++ symbols.map (·.nt) := by
  induction parts generalizing cur rest line b symbols outer with
  | nil => exact Triple.ret _ fun _ _ => rfl
  | cons part parts ih =>
    have hpart : Triple (fun _ => True) (terms.partMatch mem fuel start cur rest part)
        fun _ _ => True := fun _ _ _ _ _ => trivial
    refine hpart.bind fun partLen => ih.mapPost fun o _ h => ?_
    rw [h, List.map_cons, List.length_cons, List.replicate_succ', List.append_assoc]
    rfl

theorem triple_emplace_nt {t : FklLalrItemLookAhead} {cur rest line : Nat} {b : Bool}
    {symbols : List (FklAnalysisSymbol α)} {outer : σ} :
    Triple (fun _ => True)
      (terms.fklEmplaceAnalysisSymbol mem fuel cb symbols t from_ cur rest b line outer)
      fun o _ => o.1.map (·.nt) = List.replicate (shiftCount t) 0 ++ symbols.map (·.nt) := by
  unfold fklEmplaceAnalysisSymbol
  split
  · exact triple_emplaceParts_nt _ _ _
  · next hne =>
    refine Triple.ret _ fun _ _ => ?_
    cases t with
    | comp parts => exact absurd rfl (hne parts)
    | _ => rfl

theorem parseRound_accept {p : FklParser σ α} {top : FklAnalysisSymbol α}
    (h : terms.parseRound mem fuel table cb from_ p = .ok (.accept top)) :
    p.symbolStack.head? = some top ∧ ∃ a args r,
      terms.RoundFinds mem fuel table from_ p a args r ∧ a.action = .accept := by
  simp only [parseRound, bind, except_bind_eq_ok, orFailed_eq_ok] at h
  obtain ⟨q, hq, state, hstate, ⟨⟨action, args⟩, r⟩, hfind, h⟩ := h
  cases action with
  | none => cases h
  | some a =>
    cases ha : a.action with
    | accept =>
      simp only [ha, orFailed_eq_ok, Option.map_eq_some_iff] at h
      obtain ⟨top', htop, heq⟩ := h
      cases heq
      exact ⟨htop, a, args, r, ⟨q, state, hq, hstate, hfind⟩, ha⟩
    | ignore =>
      simp only [ha] at h
      cases h
    | shift s =>
      simp only [ha, except_bind_eq_ok] at h
      obtain ⟨_, _, h⟩ := h
      cases h
    | reduce prod len =>
      simp only [ha, orFailed_eq_ok, doReduceAction] at h
      split_ifs at h
      simp only [Option.bind_eq_bind, Option.bind_eq_some_iff] at h
      obtain ⟨_, _, _, _, h⟩ := h
      split at h
      · cases h
      · split at h <;> cases h

/-- The rounds of a parse that accepts. -/
theorem parses_of_accept {n : Nat} {p : FklParser σ α} {evs : List FklParseEvent}
    {top : FklAnalysisSymbol α}
    (h : terms.fklParseWithTableForCharBuf2 mem fuel table cb from_ n p = .ok (evs, .ok top)) :
    ∃ q, terms.Parses mem fuel table cb from_ p evs q ∧
      terms.parseRound mem fuel table cb from_ q = .ok (.accept top) := by
  suffices hrest : ∀ p₀ done, terms.Parses mem fuel table cb from_ p₀ done p →
      ∃ q, terms.Parses mem fuel table cb from_ p₀ (done ++ evs) q ∧
        terms.parseRound mem fuel table cb from_ q = .ok (.accept top) from hrest p [] (.refl p)
  induction n generalizing p evs with
  | zero => cases h
  | succ n ih =>
    intro p₀ done hdone
    obtain ⟨round, hround, h⟩ := except_bind_eq_ok.mp h
    cases round with
    | next ev r =>
      obtain ⟨⟨evs', res⟩, hrest, h⟩ := except_bind_eq_ok.mp h
      cases h
      obtain ⟨q, hparses, haccept⟩ := ih hrest p₀ (done ++ [ev]) (.step hdone hround)
      exact ⟨q, by simpa using hparses, haccept⟩
    | accept top' =>
      cases h
      exact ⟨p, by simpa using hdone, hround⟩
    | error err => cases h

end FklGrammerTerms

open FklGrammer FklGrammerTerms

/-- A run in which each reduction takes the states that its production has come along. -/
inductive CarriedRun {σ α : Type} (terms : FklGrammerTerms) (mem : Memory) (fuel : Nat)
    (states : FklLalrItemSetHashMap) (table : FklAnalysisTable) (cb : FklParseCallbacks σ α)
    (from_ : Nat) (p : FklParser σ α) : List FklParseEvent → FklParser σ α → Prop
  | start : CarriedRun terms mem fuel states table cb from_ p [] p
  | step {evs : List FklParseEvent} {q r : FklParser σ α} {ev : FklParseEvent}
    (h : CarriedRun terms mem fuel states table cb from_ p evs q)
    (hround : terms.parseRound mem fuel table cb from_ q = .ok (.next ev r))
    (hcarried : ∀ prod len, ev = .reduce prod len → Carried states q.stateStack prod) :
    CarriedRun terms mem fuel states table cb from_ p (evs ++ [ev]) r

/-- The rounds that are made lead to one state. -/
theorem CarriedRun.eq_of_parses {σ α : Type} {terms : FklGrammerTerms} {mem : Memory}
    {fuel from_ : Nat} {states : FklLalrItemSetHashMap} {table : FklAnalysisTable}
    {cb : FklParseCallbacks σ α} {p q q' : FklParser σ α} {evs : List FklParseEvent}
    (h : CarriedRun terms mem fuel states table cb from_ p evs q)
    (h' : terms.Parses mem fuel table cb from_ p evs q') : q' = q := by
  induction h generalizing q' with
  | start =>
    generalize hnil : ([] : List FklParseEvent) = evs at h'
    cases h' with
    | refl => rfl
    | step _ _ => simp at hnil
  | @step evs q r ev _ hround _ ih =>
    generalize hsnoc : evs ++ [ev] = evs' at h'
    cases h' with
    | refl => simp at hsnoc
    | step h' hround' =>
      obtain ⟨rfl, heq⟩ := List.append_inj' hsnoc rfl
      cases heq
      obtain rfl := ih h'
      rw [hround] at hround'
      cases hround'
      rfl

/-- The symbols of a form, with those of composite terminals one by one. -/
def Spells {α : Type} (form : List FklGrammerSym) (symbolStack : List (FklAnalysisSymbol α)) :
    Prop :=
  symbolStack.map (·.nt) = form.reverse.flatMap fun s => List.replicate s.width s.nontermOf

/-- What holds wherever the parser comes. -/
structure SoundAt {σ α : Type} (g : FklGrammer) (terms : FklGrammerTerms) (mem : Memory)
    (fuel : Nat) (states : FklLalrItemSetHashMap) (table : FklAnalysisTable) (from_ : Nat)
    (cstr : Nat) (evs : List FklParseEvent) (p : FklParser σ α) : Prop where
  lengths : p.stateStack.length = p.symbolStack.length + 1
  reads : terms.ReadsAs mem fuel cstr evs p.cstr
  terminal : ∀ s ∈ tokens evs, g.cfg.term s
  derives : ∃ form, Spells form p.symbolStack ∧
    g.cfg.RmDerives form (reductions evs) (tokens evs)
  /-- A reduction that comes next finds what it takes. -/
  popped : ∀ a args r prod len, terms.RoundFinds mem fuel table from_ p a args r →
    a.action = .reduce prod len → Carried states p.stateStack prod → len ≤ p.symbolStack.length

/-- What holds when the parser accepts. -/
structure SoundAccept {σ α : Type} (g : FklGrammer) (start : Nat) (evs : List FklParseEvent)
    (p : FklParser σ α) (top : FklAnalysisSymbol α) : Prop where
  symbols : p.symbolStack = [top]
  nt : top.nt = start
  derives : g.cfg.RmDerives [.nonterm start] (reductions evs) (tokens evs)

section

variable {σ α : Type} {g : FklGrammer} {extra : FklGrammerProduction}
  {rest : List FklGrammerProduction} {states : FklLalrItemSetHashMap} {terms : FklGrammerTerms}
  {mem : Memory} {fuel : Nat} {table : FklAnalysisTable} {cb : FklParseCallbacks σ α}
  {from_ cstr : Nat} {stack : List (FklGrammerSym × Nat)} {p q : FklParser σ α}
  {evs : List FklParseEvent} {ev : FklParseEvent}

/-- The stacks of the parser, with what it has done. -/
structure RunsOn (g : FklGrammer) (terms : FklGrammerTerms) (mem : Memory) (fuel : Nat)
    (states : FklLalrItemSetHashMap) (cstr : Nat) (stack : List (FklGrammerSym × Nat))
    (evs : List FklParseEvent) (p : FklParser σ α) : Prop where
  stackOf : StackOf stack p
  linked : LinkedStack states stack
  reads : terms.ReadsAs mem fuel cstr evs p.cstr
  terminal : ∀ s ∈ tokens evs, g.cfg.term s
  derives : g.cfg.RmDerives (stackForm stack) (reductions evs) (tokens evs)

theorem RunsOn.start (hstates : p.stateStack = [0]) (hsymbols : p.symbolStack = []) :
    RunsOn g terms mem fuel states p.cstr [] [] p where
  stackOf := ⟨hstates, by simp [hsymbols, widened]⟩
  linked := .nil
  reads := .nil
  terminal := by simp [tokens]
  derives := .refl _

/-- The tables as they are made. -/
structure TableOf (g : FklGrammer) (extra : FklGrammerProduction)
    (rest : List FklGrammerProduction) (states : FklLalrItemSetHashMap)
    (table : FklAnalysisTable) : Prop where
  starts : g.fklGetProductions 0 = extra :: rest
  parts : g.PartsThere
  placed : SetsPlaced g extra states
  sourced : ∀ (i : Nat) st, table[i]? = some st → ∃ set, states[i]? = some set ∧
    Sourced set st.action st.gt

variable (htable : TableOf g extra rest states table)

include htable

theorem RunsOn.width_ne (h : RunsOn g terms mem fuel states cstr stack evs p) :
    ∀ e ∈ stack, e.1.width ≠ 0 :=
  h.linked.width_ne htable.placed htable.starts htable.parts

/-- The action of a round is one of the set on the top. -/
theorem RunsOn.finds (h : RunsOn g terms mem fuel states cstr stack evs p)
    {a : FklAnalysisStateAction} {args : FklStateActionMatchArgs} {r : MatchRun}
    (hfind : terms.RoundFinds mem fuel table from_ p a args r) :
    ∃ set, states[stackTop stack]? = some set ∧ (a = createIgnoreAction ∨
      (∃ ll ∈ set.edges, ll.sym.term = some a.m.t ∧ a.action = .shift ll.dst) ∨
      ∃ il ∈ set.key, a.action = reduceEnum il.prod) ∧ terms.Matched mem fuel a.m p.cstr args := by
  obtain ⟨top, state, htop, hstate, hrun⟩ := hfind
  have hhead := head?_widened (h.width_ne htable)
  rw [h.stackOf.states, hhead] at htop
  obtain rfl := Option.some.inj htop
  obtain ⟨set, hset, hsourced⟩ := htable.sourced _ state hstate
  have hknown : terms.IgnoreKnown mem fuel p.cstr .init := fun h => absurd h (by decide)
  obtain ⟨hmem, hmatched⟩ :=
    triple_findAction_matched state.action hknown _ _ _ trivial hrun a rfl
  exact ⟨set, hset, hsourced.action a hmem, hmatched⟩

/-- A reduction is of the production of an item, with as many symbols as it has. -/
theorem RunsOn.finds_reduce (h : RunsOn g terms mem fuel states cstr stack evs p)
    {a : FklAnalysisStateAction} {args : FklStateActionMatchArgs} {r : MatchRun}
    (hfind : terms.RoundFinds mem fuel table from_ p a args r) {prod : FklGrammerProduction}
    {len : Nat} (ha : a.action = .reduce prod len) :
    g.cfg.has prod ∧ len = widthOf (spine prod.syms) := by
  obtain ⟨set, hset, hsource, -⟩ := h.finds htable hfind
  rcases hsource with rfl | ⟨ll, -, -, hshift⟩ | ⟨il, hil, hreduce⟩
  · cases ha
  · rw [hshift] at ha
    cases ha
  · rw [hreduce, reduceEnum] at ha
    split_ifs at ha with hsq
    cases ha
    refine ⟨?_, (widthOf_spine il.prod.laid).symm⟩
    rcases htable.placed.prod _ set hset il hil with hextra | hprod
    · exact absurd (hextra ▸ extra_left htable.starts) hsq
    · exact hprod

theorem RunsOn.carried (h : RunsOn g terms mem fuel states cstr stack evs p)
    {prod : FklGrammerProduction} (hcarried : Carried states p.stateStack prod) :
    (spine prod.syms).length ≤ stack.length ∧
      stackForm (stack.take (spine prod.syms).length) = spine prod.syms ∧
      HasItem states (stackTop (stack.drop (spine prod.syms).length)) prod 0 :=
  Carried.form htable.placed h.linked (h.width_ne htable) (h.stackOf.states ▸ hcarried)

theorem RunsOn.step (h : RunsOn g terms mem fuel states cstr stack evs p)
    (hround : terms.parseRound mem fuel table cb from_ p = .ok (.next ev q))
    (hcarried : ∀ prod len, ev = .reduce prod len → Carried states p.stateStack prod) :
    ∃ stack', RunsOn g terms mem fuel states cstr stack' (evs ++ [ev]) q := by
  cases parseRound_effect hround with
  | @ignore a args r q hfind ha hctx hcstr hrest hstates hsymbols =>
    obtain ⟨set, hset, hsource, hmatched⟩ := h.finds htable hfind
    have heq : a = createIgnoreAction := by
      rcases hsource with heq | ⟨ll, -, -, hshift⟩ | ⟨il, -, hreduce⟩
      · exact heq
      · rw [hshift] at ha
        cases ha
      · rw [hreduce, reduceEnum] at ha
        split_ifs at ha
    obtain ⟨hskip, hig⟩ := hmatched.ignored (by rw [heq]; rfl)
    refine ⟨stack, ⟨hstates ▸ h.stackOf.states, hsymbols ▸ h.stackOf.symbols⟩, h.linked, ?_, ?_, ?_⟩
    · rw [hcstr, hskip, Nat.add_zero]
      exact .ignore h.reads (by rw [heq]; rfl) hskip hig
    · rw [tokens_ignore]
      exact h.terminal
    · rw [reductions_ignore, tokens_ignore]
      exact h.derives
  | @shift a args r r' q s hfind ha hemplace hctx hcstr hrest hstates =>
    obtain ⟨set, hset, hsource, hmatched⟩ := h.finds htable hfind
    obtain ⟨ll, hll, hterm, hdst⟩ :
        ∃ ll ∈ set.edges, ll.sym.term = some a.m.t ∧ ll.dst = s := by
      rcases hsource with rfl | ⟨ll, hll, hterm, hshift⟩ | ⟨il, -, hreduce⟩
      · cases ha
      · rw [hshift] at ha
        cases ha
        exact ⟨ll, hll, hterm, rfl⟩
      · rw [hreduce, reduceEnum] at ha
        split_ifs at ha
    obtain ⟨hsym, hwidth, hnt⟩ := FklGrammerSym.sym_of_term hterm
    have hall : ∀ s ∈ [ll.sym], g.cfg.term s := by
      simp [FklGrammer.cfg, hterm]
    refine ⟨(ll.sym, ll.dst) :: stack, ⟨?_, ?_⟩, .cons h.linked hset hll, ?_, ?_, ?_⟩
    · rw [hstates, h.stackOf.states, widened_cons, hwidth, hdst, List.append_assoc]
    · rw [triple_emplace_nt _ _ _ trivial hemplace, h.stackOf.symbols, widened_cons, hwidth, hnt]
    · rw [hcstr, Nat.add_comm args.matchLen, ← Nat.add_assoc]
      exact .shift h.reads hmatched.skipped hmatched.token
    · rw [tokens_shift, hsym]
      exact fun s hs => (List.mem_append.mp hs).elim (h.terminal s) (hall s)
    · have hderives := h.derives.append hall
      rwa [stackForm_cons, reductions_shift, tokens_shift, hsym]
  | @reduce a args r q prod len top state gt ast line hfind ha hstateLen hsymbolLen htop hstate hgt
      hctx hcstr hrest hstates hsymbols =>
    obtain ⟨hprod, rfl⟩ := h.finds_reduce htable hfind ha
    obtain ⟨hle, hform, -⟩ := h.carried htable (hcarried prod _ rfl)
    have hdrop : p.stateStack.drop (widthOf (spine prod.syms)) =
        widened Prod.snd (stack.drop (spine prod.syms).length) ++ [0] := by
      rw [h.stackOf.states, ← hform, drop_widened, hform]
    have hhead := head?_widened fun e he => h.width_ne htable e
      (List.mem_of_mem_drop (i := (spine prod.syms).length) he)
    rw [hdrop, hhead] at htop
    obtain rfl := Option.some.inj htop
    obtain ⟨set, hset, hsourced⟩ := htable.sourced _ state hstate
    have hnt : gt.nt = prod.left := by
      have hfound := List.find?_some hgt
      simpa using (Bool.and_eq_true_iff.mp hfound).2
    obtain ⟨ll, hll, hsym, hdst⟩ := hsourced.gt gt (List.mem_of_find?_eq_some hgt)
    refine ⟨(ll.sym, ll.dst) :: stack.drop (spine prod.syms).length, ⟨?_, ?_⟩,
      .cons (h.linked.drop _) hset hll, ?_, ?_, ?_⟩
    · rw [hstates, hdrop, widened_cons, hsym, hdst]
      rfl
    · have hsymbolDrop := congrArg (List.drop (widthOf (spine prod.syms))) h.stackOf.symbols
      rw [← List.map_drop] at hsymbolDrop
      have hwidened : (widened (fun e => e.1.nontermOf) stack ++ []).drop
          (widthOf (stackForm (stack.take (spine prod.syms).length))) =
            widened (fun e => e.1.nontermOf) (stack.drop (spine prod.syms).length) ++ [] :=
        drop_widened [] _
      rw [hform, List.append_nil, List.append_nil] at hwidened
      rw [hsymbols, List.map_cons, hsymbolDrop, hwidened, widened_cons, hsym, hnt]
      rfl
    · rw [hcstr]
      exact .reduce h.reads
    · rw [tokens_reduce]
      exact h.terminal
    · have hsplit : stackForm stack =
          stackForm (stack.drop (spine prod.syms).length) ++ g.cfg.rhs prod := by
        have happend := congrArg stackForm
          (List.take_append_drop (spine prod.syms).length stack)
        rw [stackForm_append, hform] at happend
        exact happend.symm
      have hderives := h.derives
      rw [hsplit] at hderives
      have hstep := hderives.reduce hprod
      rw [stackForm_cons, hsym, hnt, reductions_reduce, tokens_reduce]
      exact hstep

theorem CarriedRun.runsOn {p₀ : FklParser σ α} (hstates : p₀.stateStack = [0])
    (hsymbols : p₀.symbolStack = [])
    (h : CarriedRun terms mem fuel states table cb from_ p₀ evs p) :
    ∃ stack, RunsOn g terms mem fuel states p₀.cstr stack evs p := by
  induction h with
  | start => exact ⟨[], .start hstates hsymbols⟩
  | step _ hround hcarried ih =>
    obtain ⟨stack, hruns⟩ := ih
    exact hruns.step htable hround hcarried

theorem RunsOn.soundAt (h : RunsOn g terms mem fuel states cstr stack evs p) :
    SoundAt g terms mem fuel states table from_ cstr evs p where
  lengths := by
    have hsymbols := congrArg List.length h.stackOf.symbols
    rw [List.length_map, length_widened] at hsymbols
    rw [h.stackOf.states, List.length_append, length_widened, hsymbols]
    rfl
  reads := h.reads
  terminal := h.terminal
  derives := by
    refine ⟨stackForm stack, ?_, h.derives⟩
    rw [Spells, h.stackOf.symbols, stackForm, List.reverse_reverse, List.flatMap_map]
    rfl
  popped := by
    intro a args r prod len hfind ha hcarried
    obtain ⟨-, rfl⟩ := h.finds_reduce htable hfind ha
    obtain ⟨hle, hform, -⟩ := h.carried htable hcarried
    have hsymbols := congrArg List.length h.stackOf.symbols
    rw [List.length_map, length_widened] at hsymbols
    have happend := congrArg stackForm (List.take_append_drop (spine prod.syms).length stack)
    rw [stackForm_append, hform] at happend
    rw [hsymbols, ← happend, widthOf_append]
    exact Nat.le_add_left _ _

theorem RunsOn.soundAccept {start : Nat} (hstart : extra.syms = [.ignore, .nonterm start])
    (h : RunsOn g terms mem fuel states cstr stack evs p) {top : FklAnalysisSymbol α}
    (haccept : terms.parseRound mem fuel table cb from_ p = .ok (.accept top))
    (hcarried : Carried states p.stateStack extra) : SoundAccept g start evs p top := by
  have hspine : spine extra.syms = [.nonterm start] := by
    rw [hstart]
    rfl
  obtain ⟨hle, hform, hitem⟩ := h.carried htable hcarried
  rw [hspine] at hle hform hitem
  obtain ⟨set, hset, x, hx, hprod, hpassed⟩ := hitem
  have htop := htable.placed.start _ set hset x hx hprod hpassed
  have hlinked := h.linked
  -- no link leads to the first set, so that nothing is below
  have hstack : ∃ q, stack = [(.nonterm start, q)] := by
    cases stack with
    | nil => simp at hle
    | cons e below =>
      have hsym : e.1 = .nonterm start := by simpa [stackForm] using hform
      cases below with
      | nil => exact ⟨e.2, by rw [← hsym]⟩
      | cons e' below =>
        have hbelow : LinkedStack states (e' :: below) := hlinked.drop 1
        cases hbelow with
        | cons _ hset' he =>
          exact absurd htop (htable.placed.dst_ne _ (List.mem_of_getElem? hset') _ he)
  obtain ⟨q, rfl⟩ := hstack
  have hsymbols : p.symbolStack.map (·.nt) = [start] := h.stackOf.symbols
  obtain ⟨top', below, hcons, hnt, hbelow⟩ := List.map_eq_cons_iff.mp hsymbols
  obtain rfl := List.map_eq_nil_iff.mp hbelow
  obtain ⟨hhead, -⟩ := parseRound_accept haccept
  rw [hcons] at hhead
  obtain rfl := Option.some.inj hhead
  exact ⟨hcons, hnt, h.derives⟩

/-- Where no item strays, the production of an action has come along the states of the stack. -/
theorem RunsOn.carried_of_noStray (hno : NoStray states) (hends : EndsPassed states table extra)
    (h : RunsOn g terms mem fuel states cstr stack evs p) {a : FklAnalysisStateAction}
    {args : FklStateActionMatchArgs} {r : MatchRun}
    (hfind : terms.RoundFinds mem fuel table from_ p a args r) {prod : FklGrammerProduction}
    (hprod : prod ∈ a.action.reduced extra) : Carried states p.stateStack prod := by
  obtain ⟨top, state, htop, hstate, hrun⟩ := hfind
  have hhead := head?_widened (h.width_ne htable)
  rw [h.stackOf.states, hhead] at htop
  obtain rfl := Option.some.inj htop
  have hknown : terms.IgnoreKnown mem fuel p.cstr .init := fun h => absurd h (by decide)
  obtain ⟨hmem, -⟩ := triple_findAction_matched state.action hknown _ _ _ trivial hrun a rfl
  rw [h.stackOf.states]
  have hlen := (List.getElem?_eq_some_iff.mp hstate).1
  exact hno.carried htable.placed h.linked (h.width_ne htable)
    (hends _ hlen state hstate a hmem prod hprod)

theorem carriedRun_of_noStray (hno : NoStray states) (hends : EndsPassed states table extra)
    {p₀ : FklParser σ α} (hstates : p₀.stateStack = [0]) (hsymbols : p₀.symbolStack = [])
    (h : terms.Parses mem fuel table cb from_ p₀ evs p) :
    CarriedRun terms mem fuel states table cb from_ p₀ evs p ∧ ∀ top,
      terms.parseRound mem fuel table cb from_ p = .ok (.accept top) →
        Carried states p.stateStack extra := by
  have hrun : CarriedRun terms mem fuel states table cb from_ p₀ evs p := by
    induction h with
    | refl => exact .start
    | step _ hround ih =>
      refine .step ih hround fun prod len heq => ?_
      obtain ⟨stack, hruns⟩ := ih.runsOn htable hstates hsymbols
      cases heq
      cases parseRound_effect hround with
      | reduce hfind ha => exact hruns.carried_of_noStray htable hno hends hfind (by rw [ha]; rfl)
  refine ⟨hrun, fun top haccept => ?_⟩
  obtain ⟨stack, hruns⟩ := hrun.runsOn htable hstates hsymbols
  obtain ⟨-, a, args, r, hfind, ha⟩ := parseRound_accept haccept
  exact hruns.carried_of_noStray htable hno hends hfind (by rw [ha]; rfl)

end

def usesExtra : FklGrammerProduction := ⟨0, [.ignore, .nonterm 1], laid_start⟩

def usesClosed : FklGrammerProduction :=
  ⟨1, [.nonterm 2, .string 3], .sym (by simp) (.sym (by simp) .nil)⟩

def usesOpen (s : Nat) : FklGrammerProduction :=
  ⟨1, [.string s, .nonterm 3], .sym (by simp) (.sym (by simp) .nil)⟩

def usesDirect : FklGrammerProduction :=
  ⟨2, [.string 0, .nonterm 4, .string 2], .sym (by simp) (.sym (by simp) (.sym (by simp) .nil))⟩

def usesBehind : FklGrammerProduction :=
  ⟨3, [.nonterm 4, .ignore, .string 2, .ignore, .string 4], .sym (by simp) (.sym (by simp)
    (.sym (by simp) (.sym (by simp) (.sym (by simp) .nil))))⟩

def usesInner : FklGrammerProduction := ⟨4, [.string 5], .sym (by simp) .nil⟩

def twoUses : FklGrammer where
  prods := ⟨[(0, [usesExtra]), (1, [usesClosed, usesOpen 0, usesOpen 1]), (2, [usesDirect]),
    (3, [usesBehind]), (4, [usesInner])], by simp⟩
  left_eq := by simp [usesExtra, usesClosed, usesOpen, usesDirect, usesBehind, usesInner]
  str s := [97 + UInt8.ofNat s]
  totalsize _ := 0
  isRegexMatchEpsilon _ := false
  isBuiltinTerminalMatchEpsilon _ := false

/-- The grammar without the productions behind the delimiter. -/
def oneUse : FklGrammer where
  prods := ⟨[(0, [usesExtra]), (1, [usesClosed]), (2, [usesDirect]), (4, [usesInner])], by simp⟩
  left_eq := by simp [usesExtra, usesClosed, usesDirect, usesInner]
  str := twoUses.str
  totalsize _ := 0
  isRegexMatchEpsilon _ := false
  isBuiltinTerminalMatchEpsilon _ := false

def usesFirsts (g : FklGrammer) : FklFirstSets := (g.computeAllFirstSet 20).getD fun _ => none

def usesLr0 (g : FklGrammer) : FklLalrItemSetHashMap := (g.fklGenerateLr0Items msort 20).getD []

def usesStates (g : FklGrammer) : FklLalrItemSetHashMap :=
  (g.fklLr0ToLalrItems (usesFirsts g) msort 20 (usesLr0 g)).getD []

def usesTable (g : FklGrammer) : FklAnalysisTable :=
  ((g.fklGenerateLalrAnalyzeTable (usesStates g)).getD (true, [])).2

/-- The same strings, and no ignore rules. -/
def usesTerms : FklGrammerTerms := ⟨twoUses.str, [], [], fun _ => .never, fun _ _ => (0, false)⟩

def unitCallbacks : FklParseCallbacks Unit Unit :=
  ⟨fun _ _ _ => ((), ()), fun _ _ => (), fun _ _ _ _ => (some (), ())⟩

def usesParse (g : FklGrammer) (text : List UInt8) :
    Except MatchStop (List FklParseEvent × Except FklParseError (FklAnalysisSymbol Unit)) :=
  usesTerms.fklParseWithTableForCharBuf2 (bufferAt 1 text) 10 (usesTable g) unitCallbacks 1 10
    (startParser 1 text.length)

theorem twoUses_defined : twoUses.Defined := by
  simp [Defined, twoUses, usesExtra, usesClosed, usesOpen, usesDirect, usesBehind, usesInner,
    isSqNt]

theorem twoUses_productions (nt : Nat) : ∀ p ∈ twoUses.fklGetProductions nt,
    p ∈ [usesExtra, usesClosed, usesOpen 0, usesOpen 1, usesDirect, usesBehind, usesInner] := by
  intro p hp
  obtain ⟨ps, hps, hmem⟩ := mem_of_productions hp
  have hall : ∀ e ∈ twoUses.prods.entries, ∀ p ∈ e.2, p ∈ [usesExtra, usesClosed, usesOpen 0,
      usesOpen 1, usesDirect, usesBehind, usesInner] := by decide
  exact hall _ hps p hmem

theorem twoUses_parts : twoUses.PartsThere := by
  intro nt p hp parts hparts
  have hall : ∀ p ∈ [usesExtra, usesClosed, usesOpen 0, usesOpen 1, usesDirect, usesBehind,
      usesInner], ∀ s ∈ p.syms, ∀ parts, s ≠ .comp parts := by
    simp [usesExtra, usesClosed, usesOpen, usesDirect, usesBehind, usesInner]
  exact absurd rfl (hall p (twoUses_productions nt p hp) _ hparts parts)

/-- What can be derived from the start. -/
def twoUsesForms : List (List FklGrammerSym) :=
  [[.nonterm 1], [.nonterm 2, .string 3], [.string 0, .nonterm 3], [.string 1, .nonterm 3],
    [.string 0, .nonterm 4, .string 2, .string 3], [.string 0, .string 5, .string 2, .string 3],
    [.string 0, .nonterm 4, .string 2, .string 4], [.string 0, .string 5, .string 2, .string 4],
    [.string 1, .nonterm 4, .string 2, .string 4], [.string 1, .string 5, .string 2, .string 4]]

theorem twoUses_derives {ps : List FklGrammerProduction} {w : List FklGrammerSym}
    (h : twoUses.cfg.RmDerives [.nonterm 1] ps w) : w ∈ twoUsesForms := by
  refine h.inv (· ∈ twoUsesForms) (fun p form form' hform hstep => ?_) (by decide)
  obtain ⟨⟨hsq, hp⟩, hmem⟩ := hstep.mem_rewrites
  have hall : ∀ p ∈ [usesExtra, usesClosed, usesOpen 0, usesOpen 1, usesDirect, usesBehind,
      usesInner], ¬isSqNt p.left → ∀ form ∈ twoUsesForms, ∀ form' ∈ twoUses.cfg.rewrites p form,
        form' ∈ twoUsesForms := by decide +kernel
  exact hall p (twoUses_productions _ p hp) hsq form hform form' hmem

/-- The tokens of a text that is accepted. -/
def acceptedTokens : Except MatchStop (List FklParseEvent ×
    Except FklParseError (FklAnalysisSymbol Unit)) → Option (List FklGrammerSym)
  | .ok (evs, .ok _) => some (tokens evs)
  | _ => none

theorem oneUse_defined : oneUse.Defined := by
  simp [Defined, oneUse, usesExtra, usesClosed, usesDirect, usesInner, isSqNt]

theorem oneUse_parts : oneUse.PartsThere := by
  intro nt p hp parts hparts
  obtain ⟨ps, hps, hmem⟩ := mem_of_productions hp
  have hall : ∀ e ∈ oneUse.prods.entries, ∀ p ∈ e.2, ∀ s ∈ p.syms, ∀ parts,
      s ≠ .comp parts := by
    simp [oneUse, usesExtra, usesClosed, usesDirect, usesInner]
  exact absurd rfl (hall _ hps p hmem _ hparts parts)

end FakeLisp
