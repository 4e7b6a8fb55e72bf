import FakeLisp.MacroExpand

/-! An expansion leaves the chain of storages as it was, unless the procedure of a macro failed
while an argument was expanded. -/

namespace FakeLisp

open Nast

variable {B W : Type}

/-! What expansions do, without the chain. -/

structure MacroState (W : Type) where
  stopped : Bool
  world : W

def MacroCtx.state (ctx : MacroCtx W) : MacroState W := ⟨ctx.error.isSome, ctx.world⟩

/-- The ends of an expansion: with a value, with the failure of a macro's procedure, or with such
a failure when an argument was expanded. -/
inductive Expansion where
  | value (r : Nast)
  | failed
  | argFailed

def Expansion.result : Expansion → Option Nast
  | value r => some r
  | _ => none

def argExpansion (call : Bool → FklPmatchRes → MacroState W → Option (Expansion × MacroState W))
    (r : FklPmatchRes) (s : MacroState W) : Option (Expansion × MacroState W) :=
  match r.expand with
  | .none => some (.value r.value, s)
  | .once => call false r s
  | .all => call true r s

/-- The arguments from first to last, until one has no value. -/
def argExpansions (call : Bool → FklPmatchRes → MacroState W → Option (Expansion × MacroState W)) :
    List (List UInt8 × FklPmatchRes) → FklPmatchHashMap → MacroState W →
      Option (Option FklPmatchHashMap × MacroState W)
  | [], ht, s => some (some ht, s)
  | (k, r) :: rest, ht, s => do
    let (o, s) ← argExpansion call r s
    match o.result with
    | none => return (none, s)
    | some value => argExpansions call rest (ht.replace k { r with value }) s

namespace MacroEnv

variable (E : MacroEnv B W)

def expansionOf (rounds : Bool → Nast → Nat → Nast → MacroState W →
    Option (Expansion × MacroState W)) (again : Bool) (exp : FklPmatchRes) (s : MacroState W) :
    Option (Expansion × MacroState W) :=
  match exp.value with
  | .pair .. => rounds again exp.container (E.curline s.world exp.container) exp.value s
  | r => some (.value r, s)

/-- Macros are expanded one after the other, or one only. -/
def expansionRounds (fuel : Nat) (again : Bool) (container : Nast) (line : Nat) (r : Nast)
    (s : MacroState W) : Option (Expansion × MacroState W) :=
  match (if s.stopped then none else findMacro r E.scopes), fuel with
  | none, _ => some (.value r, s)
  | some _, 0 => none
  | some (m, ht), fuel + 1 => do
    let (args, s) ← argExpansions (E.expansionOf (expansionRounds fuel)) ht.entries ht s
    match args with
    | none => return (.argFailed, s)
    | some ht =>
      match E.execute m.proc (ht.set keyEquiv_symEq E.builtinSymOrig ⟨r, container, .none⟩) line
        s.world with
      | (.failed, world) => return (.failed, ⟨true, world⟩)
      | (.value v, world) =>
        if again then expansionRounds fuel again container line v { s with world }
        else return (.value v, { s with world })
      | (.unserializable, world) => return (.value r, ⟨true, world⟩)

def expansion (fuel : Nat) : Bool → FklPmatchRes → MacroState W →
    Option (Expansion × MacroState W) :=
  E.expansionOf (E.expansionRounds fuel)

end MacroEnv

/-! The chain. -/

def MacroCtx.chain (ctx : MacroCtx W) : List Nat := ctx.storages.chain

/-- The chain after an expansion that had `own` as storage, on top of `chain`. -/
def ChainAfter (own : Nat) (chain : List Nat) : Expansion → List Nat → Prop
  | .argFailed, chain' => ∃ left, chain' = left ++ own :: chain
  | _, chain' => chain' = chain

/-- The result, the state and the chain that an expansion should lead to. -/
structure Expanded (own : Nat) (chain : List Nat) (x : Option Nast × MacroCtx W)
    (y : Expansion × MacroState W) : Prop where
  result : x.1 = y.1.result
  state : x.2.state = y.2
  chain : ChainAfter own chain y.1 x.2.chain

structure ArgsExpanded (chain : List Nat) (x : Option FklPmatchHashMap × MacroCtx W)
    (y : Option FklPmatchHashMap × MacroState W) : Prop where
  args : x.1 = y.1
  state : x.2.state = y.2
  chain : ∃ left, x.2.chain = left ++ chain ∧ (x.1 ≠ none → left = [])

theorem rel_bind {α β γ δ : Type} {R : α → β → Prop} {S : γ → δ → Prop} {a : Option α}
    {b : Option β} {f : α → Option γ} {g : β → Option δ} (h : Option.Rel R a b)
    (hfg : ∀ x y, R x y → Option.Rel S (f x) (g y)) : Option.Rel S (a.bind f) (b.bind g) := by
  cases h with
  | none => exact Option.Rel.none
  | some hxy => exact hfg _ _ hxy

theorem pop_top {s : PmatchStorages} {own : Nat} {chain : List Nat} (h : s.chain = own :: chain) :
    ∃ s', s.fklPopCgPmatchStorage own = some s' ∧ s'.chain = chain := by
  refine ⟨_, if_pos (by simp [h]), ?_⟩
  simp [h]

/-- The expander does what `g` says and keeps the chain. -/
def ExpandsAs (f : Expander W)
    (g : FklPmatchRes → MacroState W → Option (Expansion × MacroState W)) : Prop :=
  ∀ exp ctx, Option.Rel (Expanded ctx.storages.made ctx.chain) (f exp ctx) (g exp ctx.state)

variable {once all : Expander W}
  {call : Bool → FklPmatchRes → MacroState W → Option (Expansion × MacroState W)}

theorem ExpandsAs.arg (honce : ExpandsAs once (call false)) (hall : ExpandsAs all (call true)) :
    ExpandsAs (expandMacroArg once all) (argExpansion call) := by
  intro exp ctx
  unfold expandMacroArg argExpansion
  cases exp.expand with
  | none => exact Option.Rel.some ⟨rfl, rfl, rfl⟩
  | once => exact honce exp ctx
  | all => exact hall exp ctx

theorem Expanded.cases {own : Nat} {chain : List Nat} {x : Option Nast × MacroCtx W}
    {y : Expansion × MacroState W} (h : Expanded own chain x y) :
    (∃ v, y.1.result = some v ∧ x.1 = some v ∧ x.2.chain = chain) ∨
      y.1.result = none ∧ x.1 = none ∧ ∃ left, x.2.chain = left ++ chain := by
  obtain ⟨o, s⟩ := y
  have hresult := h.result
  have hchain := h.chain
  cases o with
  | value r => exact .inl ⟨r, rfl, hresult, hchain⟩
  | failed => exact .inr ⟨rfl, hresult, [], hchain⟩
  | argFailed =>
    obtain ⟨left, hleft⟩ := hchain
    exact .inr ⟨rfl, hresult, left ++ [own], by simpa using hleft⟩

theorem argsExpanded (honce : ExpandsAs once (call false)) (hall : ExpandsAs all (call true))
    (es : List (List UInt8 × FklPmatchRes)) (ht : FklPmatchHashMap) (ctx : MacroCtx W) :
    Option.Rel (ArgsExpanded ctx.chain) (expandAllMacroArg once all es ht ctx)
      (argExpansions call es ht ctx.state) := by
  induction es generalizing ht ctx with
  | nil => exact Option.Rel.some ⟨rfl, rfl, [], rfl, fun _ => rfl⟩
  | cons e es ih =>
    obtain ⟨k, r⟩ := e
    refine rel_bind (honce.arg hall r ctx) fun x y hxy => ?_
    obtain ⟨rr, ctx'⟩ := x
    obtain ⟨o, s⟩ := y
    obtain rfl : ctx'.state = s := hxy.state
    rcases hxy.cases with ⟨v, ho, hrr, hchain⟩ | ⟨ho, hrr, left, hchain⟩
    · dsimp only at ho hrr hchain ⊢
      rw [ho, hrr]
      dsimp only
      rw [← hchain]
      exact ih _ ctx'
    · dsimp only at ho hrr hchain ⊢
      rw [ho, hrr]
      exact Option.Rel.some ⟨rfl, rfl, left, hchain, fun h => absurd rfl h⟩

namespace MacroEnv

variable {E : MacroEnv B W} {own : Nat} {chain : List Nat}

theorem leave_value {ctx : MacroCtx W} (hown : ctx.chain = own :: chain) {r : Nast}
    {s : MacroState W} (hs : ctx.state = s) :
    Option.Rel (Expanded own chain) (leave own (some r) ctx) (some (.value r, s)) := by
  obtain ⟨storages, hpop, hchain⟩ := pop_top hown
  rw [leave, hpop]
  exact Option.Rel.some ⟨rfl, hs, hchain⟩

theorem leave_failed {ctx : MacroCtx W} (hown : ctx.chain = own :: chain) {s : MacroState W}
    (hs : ctx.state = s) :
    Option.Rel (Expanded own chain) (leave own none ctx) (some (.failed, s)) := by
  obtain ⟨storages, hpop, hchain⟩ := pop_top hown
  rw [leave, hpop]
  exact Option.Rel.some ⟨rfl, hs, hchain⟩

theorem tryExpand_expandsAs {loop : FklPmatchRes → Nat → Nat → Option Nast → MacroCtx W →
      Option (Option Nast × MacroCtx W)}
    {rounds : Bool → Nast → Nat → Nast → MacroState W → Option (Expansion × MacroState W)}
    {again : Bool}
    (h : ∀ exp own line r ctx chain, ctx.chain = own :: chain →
      Option.Rel (Expanded own chain) (loop exp own line (some r) ctx)
        (rounds again exp.container line r ctx.state)) :
    ExpandsAs (E.tryExpand loop) (E.expansionOf rounds again) := by
  intro exp ctx
  unfold tryExpand expansionOf
  cases hvalue : exp.value with
  | pair a d => exact h exp _ _ _ _ ctx.chain rfl
  | _ => exact Option.Rel.some ⟨rfl, rfl, rfl⟩

theorem nextMacro_eq (r : Nast) (ctx : MacroCtx W) : E.nextMacro (some r) ctx =
    (if ctx.state.stopped then none else findMacro r E.scopes).map fun m => (r, m) := by
  unfold nextMacro MacroCtx.state
  cases ctx.error <;> rfl

theorem expandLoop_stopped {again : Bool} {fuel line : Nat} {exp : FklPmatchRes} {r : Option Nast}
    {ctx : MacroCtx W} (h : E.nextMacro r ctx = none) :
    E.expandLoop again fuel exp own line r ctx = leave own r ctx := by
  unfold expandLoop
  rw [h]

theorem expandLoop_expanded (fuel : Nat) (again : Bool) (exp : FklPmatchRes) (line : Nat)
    (r : Nast) (ctx : MacroCtx W) (hown : ctx.chain = own :: chain) :
    Option.Rel (Expanded own chain) (E.expandLoop again fuel exp own line (some r) ctx)
      (E.expansionRounds fuel again exp.container line r ctx.state) := by
  induction fuel generalizing again exp own line r ctx chain with
  | zero =>
    unfold expandLoop expansionRounds
    rw [nextMacro_eq]
    cases if ctx.state.stopped then none else findMacro r E.scopes with
    | none => exact leave_value hown rfl
    | some m => exact Option.Rel.none
  | succ fuel ih =>
    have hcall : ∀ again, ExpandsAs (E.tryExpand (E.expandLoop again fuel))
        (E.expansionOf (E.expansionRounds fuel) again) := fun again =>
      tryExpand_expandsAs fun exp own line r ctx chain hown => ih again exp line r ctx hown
    unfold expandLoop expansionRounds
    rw [nextMacro_eq]
    cases if ctx.state.stopped then none else findMacro r E.scopes with
    | none => exact leave_value hown rfl
    | some m =>
      obtain ⟨m, ht⟩ := m
      refine rel_bind (argsExpanded (hcall false) (hcall true) ht.entries ht ctx)
        fun x y hxy => ?_
      obtain ⟨args, ctx'⟩ := x
      obtain ⟨args', s⟩ := y
      obtain rfl : args = args' := hxy.args
      obtain rfl : ctx'.state = s := hxy.state
      obtain ⟨left, hchain, hleft⟩ := hxy.chain
      dsimp only at hchain
      cases args with
      | none => exact Option.Rel.some ⟨rfl, rfl, left, by rw [hchain, hown]⟩
      | some ht =>
        obtain rfl : left = [] := hleft nofun
        rw [List.nil_append, hown] at hchain
        have hworld : ctx'.state.world = ctx'.world := rfl
        simp only [executeMacroExpandProcedure, hworld]
        generalize E.execute m.proc _ line ctx'.world = res
        obtain ⟨res, world⟩ := res
        cases res with
        | failed =>
          dsimp only
          rw [expandLoop_stopped rfl, ite_self]
          apply leave_failed
          · exact hchain
          · rfl
        | value v =>
          cases again with
          | false =>
            apply leave_value
            · exact hchain
            · rfl
          | true => exact ih true exp line v { ctx' with world } hchain
        | unserializable =>
          dsimp only
          rw [expandLoop_stopped rfl, ite_self]
          apply leave_value
          · exact hchain
          · rfl

/-! The chain after a call. -/

/-- The chain is what it was, and the storage of the call is not on it. -/
def Restored (ctx ctx' : MacroCtx W) : Prop :=
  ctx'.chain = ctx.chain ∧ ctx.storages.made ∉ ctx'.chain

/-- The procedure of a macro fails while an argument is expanded. -/
def ArgumentFails (E : MacroEnv B W) (fuel : Nat) (again : Bool) (exp : FklPmatchRes)
    (ctx : MacroCtx W) : Prop :=
  ∃ s, E.expansion fuel again exp ctx.state = some (.argFailed, s)

theorem restored_of_chain {ctx ctx' : MacroCtx W} (h : ctx'.chain = ctx.chain) :
    Restored ctx ctx' := by
  refine ⟨h, fun hmem => ?_⟩
  rw [h] at hmem
  exact (ctx.storages.old _ hmem).false

theorem tryExpand_expanded (fuel : Nat) (again : Bool) (exp : FklPmatchRes) (ctx : MacroCtx W) :
    Option.Rel (Expanded ctx.storages.made ctx.chain)
      (E.tryExpand (E.expandLoop again fuel) exp ctx) (E.expansion fuel again exp ctx.state) :=
  tryExpand_expandsAs
    (fun exp _ line r ctx _ hown => expandLoop_expanded fuel again exp line r ctx hown) exp ctx

theorem tryExpand_restores_iff {fuel : Nat} {again : Bool} {exp : FklPmatchRes}
    {ctx ctx' : MacroCtx W} {r : Option Nast}
    (h : E.tryExpand (E.expandLoop again fuel) exp ctx = some (r, ctx')) :
    Restored ctx ctx' ↔ ¬ArgumentFails E fuel again exp ctx := by
  have hrel := @tryExpand_expanded _ _ E fuel again exp ctx
  rw [h] at hrel
  unfold ArgumentFails
  generalize E.expansion fuel again exp ctx.state = y at hrel ⊢
  cases hrel with
  | @some _ y hexpanded =>
    obtain ⟨o, s⟩ := y
    have hchain := hexpanded.chain
    cases o with
    | value v => exact iff_of_true (restored_of_chain hchain) (by simp)
    | failed => exact iff_of_true (restored_of_chain hchain) (by simp)
    | argFailed =>
      obtain ⟨left, hleft⟩ := hchain
      refine iff_of_false (fun hr => hr.2 ?_) (by simp)
      have hown : ctx.storages.made ∈ left ++ ctx.storages.made :: ctx.chain := by simp
      exact hleft ▸ hown

theorem tryExpand_of_argumentFails {fuel : Nat} {again : Bool} {exp : FklPmatchRes}
    {ctx : MacroCtx W} (h : ArgumentFails E fuel again exp ctx) :
    ∃ ctx', E.tryExpand (E.expandLoop again fuel) exp ctx = some (none, ctx') ∧
      ctx.storages.made ∈ ctx'.chain := by
  obtain ⟨s, hs⟩ := h
  have hrel := @tryExpand_expanded _ _ E fuel again exp ctx
  rw [hs] at hrel
  generalize E.tryExpand (E.expandLoop again fuel) exp ctx = x at hrel ⊢
  cases hrel with
  | @some x _ hexpanded =>
    obtain ⟨r, ctx'⟩ := x
    obtain rfl : r = none := hexpanded.result
    obtain ⟨left, hleft⟩ := hexpanded.chain
    dsimp only at hleft
    exact ⟨ctx', rfl, by simp [hleft]⟩

/-- Both functions restore the chain unless the procedure of a macro fails in an argument. -/
theorem fklTryExpand_restores_iff (E : MacroEnv B W) (fuel : Nat) (exp : FklPmatchRes)
    (ctx : MacroCtx W) :
    (∀ r ctx', E.fklTryExpandCgMacroOnce fuel exp ctx = some (r, ctx') →
        (Restored ctx ctx' ↔ ¬ArgumentFails E fuel false exp ctx)) ∧
      ∀ r ctx', E.fklTryExpandCgMacro fuel exp ctx = some (r, ctx') →
        (Restored ctx ctx' ↔ ¬ArgumentFails E fuel true exp ctx) :=
  ⟨fun _ _ h => tryExpand_restores_iff h, fun _ _ h => tryExpand_restores_iff h⟩

/-! A macro `a` that has its argument expanded, and a macro `b` that fails. -/

def macroA : FklVMvalueCgMacro Bool := ⟨.pair (.slot 0 [120] .once) (.atom .nil), false⟩

def macroB : FklVMvalueCgMacro Bool := ⟨.atom .nil, true⟩

def failingEnv : MacroEnv Bool Unit where
  builtinSymOrig := [111]
  scopes := [fun head => if head = [97] then [macroA] else if head = [98] then [macroB] else []]
  curline _ _ := 0
  execute fails _ _ w := (if fails then .failed else .value (.atom .nil), w)

/-- `(b)` -/
def callB : Nast := .pair (.atom (.sym [98])) (.atom .nil)

/-- `(a (b))` -/
def callA : Nast := .pair (.atom (.sym [97])) (.pair callB (.atom .nil))

def startCtx : MacroCtx Unit := ⟨⟨[], 0, by simp⟩, none, 0, ()⟩

theorem findMacro_a : ∃ ht, findMacro callA failingEnv.scopes = some (macroA, ht) ∧
    ht.entries = [([120], ⟨callB, .pair callB (.atom .nil), .once⟩)] := by
  have hend : Nast.fklVMvalueEqual (.atom .nil) (.atom .nil) = true := rfl
  refine ⟨InsertionMap.empty.set keyEquiv_symEq [120] ⟨callB, .pair callB (.atom .nil), .once⟩,
    ?_, InsertionMap.entries_set_of_none _ rfl⟩
  simp [findMacro, callA, failingEnv, macroA, findInMacros, fklPatternMatch1, patternMatchLoop,
    hend]

theorem findMacro_b : findMacro callB failingEnv.scopes = some (macroB, .empty) := by
  have hend : Nast.fklVMvalueEqual (.atom .nil) (.atom .nil) = true := rfl
  simp [findMacro, callB, failingEnv, macroB, findInMacros, fklPatternMatch1, patternMatchLoop,
    hend]

theorem callB_fails (again : Bool) (r : FklPmatchRes) (hvalue : r.value = callB) :
    failingEnv.expansion 1 again r ⟨false, ()⟩ = some (.failed, ⟨true, ()⟩) := by
  have hnext : (if (⟨false, ()⟩ : MacroState Unit).stopped then none
      else findMacro callB failingEnv.scopes) = some (macroB, .empty) := findMacro_b
  unfold expansion expansionOf
  rw [hvalue]
  dsimp only [callB]
  unfold expansionRounds
  rw [← callB, hnext]
  rfl

theorem callA_argument_fails (again : Bool) :
    ArgumentFails failingEnv 2 again ⟨callA, callA, .none⟩ startCtx := by
  obtain ⟨ht, hfind, hentries⟩ := findMacro_a
  have hnext : (if (⟨false, ()⟩ : MacroState Unit).stopped then none
      else findMacro callA failingEnv.scopes) = some (macroA, ht) := hfind
  have hargs : argExpansions (failingEnv.expansion 1) ht.entries ht ⟨false, ()⟩ =
      some (none, ⟨true, ()⟩) := by
    have hcall : argExpansion (failingEnv.expansion 1)
        ⟨callB, .pair callB (.atom .nil), .once⟩ ⟨false, ()⟩ = _ := callB_fails false _ rfl
    rw [hentries, argExpansions, hcall]
    rfl
  refine ⟨⟨true, ()⟩, ?_⟩
  change failingEnv.expansionRounds 2 again callA 0 callA ⟨false, ()⟩ = _
  unfold expansionRounds
  rw [hnext]
  change (argExpansions (failingEnv.expansion 1) ht.entries ht ⟨false, ()⟩).bind _ = _
  rw [hargs]
  rfl

/-- The storage of `(a (b))` is left on the chain, which was empty. -/
theorem callA_not_restored :
    (∃ ctx', failingEnv.fklTryExpandCgMacroOnce 2 ⟨callA, callA, .none⟩ startCtx =
      some (none, ctx') ∧ 0 ∈ ctx'.chain ∧ ¬Restored startCtx ctx') ∧
    ∃ ctx', failingEnv.fklTryExpandCgMacro 2 ⟨callA, callA, .none⟩ startCtx =
      some (none, ctx') ∧ 0 ∈ ctx'.chain ∧ ¬Restored startCtx ctx' := by
  obtain ⟨ctx, hrun, hmem⟩ := tryExpand_of_argumentFails (callA_argument_fails false)
  obtain ⟨ctx', hrun', hmem'⟩ := tryExpand_of_argumentFails (callA_argument_fails true)
  exact ⟨⟨ctx, hrun, hmem, fun h => h.2 hmem⟩, ctx', hrun', hmem', fun h => h.2 hmem'⟩

theorem callB_restores : ∃ r ctx',
    failingEnv.fklTryExpandCgMacro 1 ⟨callB, callB, .none⟩ startCtx = some (r, ctx') ∧
      (Restored startCtx ctx' ↔
        ¬ArgumentFails failingEnv 1 true ⟨callB, callB, .none⟩ startCtx) := by
  have hrel := @tryExpand_expanded _ _ failingEnv 1 true ⟨callB, callB, .none⟩ startCtx
  have hfails : failingEnv.expansion 1 true ⟨callB, callB, .none⟩ startCtx.state = _ :=
    callB_fails true _ rfl
  rw [hfails] at hrel
  cases hrun : failingEnv.tryExpand (failingEnv.expandLoop true 1) ⟨callB, callB, .none⟩
      startCtx with
  | none =>
    rw [hrun] at hrel
    cases hrel
  | some x =>
    exact ⟨x.1, x.2, hrun, (fklTryExpand_restores_iff failingEnv 1 _ startCtx).2 x.1 x.2 hrun⟩

end MacroEnv

end FakeLisp
