import FakeLisp.GrammerFirst

/-! The cached computation of what the rest of a production may begin with, as the closure of
LR(1) items uses it, and that it finds what the computation of the FIRST sets finds. -/

namespace FakeLisp

/-- `fklLookAheadHashSetPut` -/
def putLookAhead (first : List FklLalrItemLookAhead) (la : FklLalrItemLookAhead) :
    List FklLalrItemLookAhead :=
  if la ∈ first then first else first ++ [la]

/-- The items are found under the address of a production and a place in it. -/
abbrev GraLaFirstSetCache := Nat → Nat → Option FklFirstSetItem

/-- What `get_first_set_from_first_sets` returns, and `*pHasEpsilon`. The set is `none` for
`NULL`. -/
structure LaFirst where
  first : Option (List FklLalrItemLookAhead)
  hasEpsilon : Bool
  deriving DecidableEq

namespace FklGrammer

variable (g : FklGrammer) (firstSets : FklFirstSets)

/-- The loop of `get_first_set_from_first_sets`; `skip` counts the parts that are jumped over.
`none` is the dereferenced null pointer of a nonterminal without a set. -/
def firstSetLoop : Nat → List FklGrammerSym → FklFirstSetItem → Option FklFirstSetItem
  | _, [], r => some r
  | skip + 1, _ :: rest, r => firstSetLoop skip rest r
  | 0, sym :: rest, r =>
    match sym with
    | .builtin b =>
      let first := putLookAhead r.first (.builtin b)
      if g.isBuiltinTerminalMatchEpsilon b then firstSetLoop 0 rest ⟨first, rest = []⟩
      else some { r with first }
    | .comp parts =>
      let first := putLookAhead r.first (.comp parts)
      if g.isCompTerminalMatchEpsilon parts then
        firstSetLoop parts.length rest ⟨first, rest.length = parts.length⟩
      else some { r with first }
    | .regex re =>
      let first := putLookAhead r.first (.regex re)
      if g.isRegexMatchEpsilon re then firstSetLoop 0 rest ⟨first, rest = []⟩
      else some { r with first }
    | .nonterm nt => do
      let item ← firstSets nt
      let first := item.first.foldl putLookAhead r.first
      let hasEpsilon := if item.hasEpsilon ∧ rest = [] then true else r.hasEpsilon
      if item.hasEpsilon then firstSetLoop 0 rest ⟨first, hasEpsilon⟩
      else some ⟨first, hasEpsilon⟩
    | .ignore => firstSetLoop 0 rest ⟨putLookAhead r.first .ignore, rest = []⟩
    | .string s =>
      if g.str s = [] then firstSetLoop 0 rest { r with hasEpsilon := rest = [] }
      else some { r with first := putLookAhead r.first (.string s) }
    | .keyword s =>
      if g.str s = [] then firstSetLoop 0 rest { r with hasEpsilon := rest = [] }
      else some { r with first := putLookAhead r.first (.keyword s) }

/-- The productions are given by their addresses. -/
def getFirstSetFromFirstSets (syms : Nat → List FklGrammerSym) (prod idx : Nat)
    (cache : GraLaFirstSetCache) : Option (LaFirst × GraLaFirstSetCache) :=
  if (syms prod).length ≤ idx then some (⟨none, true⟩, cache)
  else
    match cache prod idx with
    | some item => some (⟨some item.first, item.hasEpsilon⟩, cache)
    | none => do
      let item ← g.firstSetLoop firstSets 0 ((syms prod).drop idx) ⟨[], false⟩
      some (⟨some item.first, item.hasEpsilon⟩,
        Function.update cache prod (Function.update (cache prod) idx (some item)))

/-- What `get_first_from_syms` puts into an empty item, which is that of `left` here; `none` is
its error of a nonterminal without a set. -/
def firstFromSyms (left : Nat) (suffix : List FklGrammerSym) : Option FklFirstSetItem :=
  let start := Function.update firstSets left (some ⟨[], false⟩)
  let (r, doneOrError) := g.getFirstFromSyms left 0 suffix ⟨start, false⟩
  if doneOrError = .error then none else r.firsts left

end FklGrammer

/-! The two loops. -/

section

variable {g : FklGrammer} {firsts : FklFirstSets} {left : Nat}

/-- A run whose set of `left` is `item`, and whose other sets are the given ones. -/
structure Filling (firsts : FklFirstSets) (left : Nat) (item : FklFirstSetItem)
    (r : FirstRun) : Prop where
  own : r.firsts left = some item
  other : ∀ nt, nt ≠ left → r.firsts nt = firsts nt

variable {item : FklFirstSetItem} {r : FirstRun}

theorem Filling.put (h : Filling firsts left item r) (la : FklLalrItemLookAhead) :
    Filling firsts left { item with first := putLookAhead item.first la }
      (r.add left (some la)) := by
  unfold FirstRun.add putLookAhead
  rw [h.own]
  dsimp only
  split
  · exact ⟨h.own, h.other⟩
  · refine ⟨Function.update_self .., fun nt hnt => ?_⟩
    exact (Function.update_of_ne hnt _ _).trans (h.other nt hnt)

theorem Filling.puts (h : Filling firsts left item r) (las : List FklLalrItemLookAhead) :
    Filling firsts left { item with first := las.foldl putLookAhead item.first }
      (las.foldl (fun r la => r.add left (some la)) r) := by
  induction las generalizing item r with
  | nil => exact h
  | cons la las ih => exact ih (h.put la)

theorem Filling.flag (h : Filling firsts left item r) (last : Prop) [Decidable last] :
    Filling firsts left { item with hasEpsilon := item.hasEpsilon || decide last }
      (r.addLast left last) := by
  unfold FirstRun.addLast
  split
  next hl =>
    unfold FirstRun.add
    rw [h.own]
    refine ⟨by simp [hl], fun nt hnt => ?_⟩
    exact (Function.update_of_ne hnt _ _).trans (h.other nt hnt)
  next hl => exact ⟨by simp [hl, h.own], h.other⟩

/-- The loop has failed, or the sets hold the item that it returns. -/
def SameOutcome (firsts : FklFirstSets) (left : Nat) :
    Option FklFirstSetItem → FirstRun × FirstDone → Prop
  | none, out => out.2 = .error
  | some item, out => out.2 ≠ .error ∧ Filling firsts left item out.1

/-- After a symbol that may be empty. -/
theorem Filling.putFlag (h : Filling firsts left item r) (heps : item.hasEpsilon = false)
    (la : FklLalrItemLookAhead) (last : Prop) [Decidable last] :
    Filling firsts left ⟨putLookAhead item.first la, decide last⟩
      ((r.add left (some la)).addLast left last) := by
  have hflag := (h.put la).flag last
  rwa [heps, Bool.false_or] at hflag

/-- The flag is set at the last symbol only, so that assigning it and setting it is one. -/
theorem firstSetLoop_same (skip : Nat) (syms : List FklGrammerSym)
    (hleft : .nonterm left ∉ syms) (hf : Filling firsts left item r)
    (heps : item.hasEpsilon = true → syms.length ≤ skip) :
    SameOutcome firsts left (g.firstSetLoop firsts skip syms item)
      (g.getFirstFromSyms left skip syms r) := by
  induction syms generalizing skip item r with
  | nil =>
    unfold FklGrammer.firstSetLoop FklGrammer.getFirstFromSyms
    exact ⟨by simp, hf⟩
  | cons sym rest ih =>
    have hrest : .nonterm left ∉ rest := fun h => hleft (List.mem_cons_of_mem _ h)
    cases skip with
    | succ skip =>
      unfold FklGrammer.firstSetLoop FklGrammer.getFirstFromSyms
      exact ih skip hrest hf fun he => Nat.le_of_succ_le_succ (heps he)
    | zero =>
      have hfalse : item.hasEpsilon = false := by
        rw [Bool.eq_false_iff]
        exact fun he => absurd (heps he) (by simp)
      have hlast : decide (rest = []) = true → rest.length ≤ 0 := by simp
      cases sym with
      | builtin b =>
        unfold FklGrammer.firstSetLoop FklGrammer.getFirstFromSyms
        dsimp only
        split
        · exact ih 0 hrest (hf.putFlag hfalse _ _) hlast
        · exact ⟨by simp, hf.put _⟩
      | comp parts =>
        unfold FklGrammer.firstSetLoop FklGrammer.getFirstFromSyms
        dsimp only
        split
        · exact ih parts.length hrest (hf.putFlag hfalse _ _) (by simp +contextual)
        · exact ⟨by simp, hf.put _⟩
      | regex re =>
        unfold FklGrammer.firstSetLoop FklGrammer.getFirstFromSyms
        dsimp only
        split
        · exact ih 0 hrest (hf.putFlag hfalse _ _) hlast
        · exact ⟨by simp, hf.put _⟩
      | nonterm nt =>
        have hnt : nt ≠ left := fun h => hleft (by rw [h]; exact List.mem_cons_self)
        have hget := hf.other nt hnt
        unfold FklGrammer.firstSetLoop FklGrammer.getFirstFromSyms
        cases hcur : firsts nt with
        | none =>
          simp only [hget, hcur]
          rfl
        | some cur =>
          have hputs := hf.puts cur.first
          simp only [hget, hcur, Option.bind_eq_bind, Option.bind_some]
          by_cases he : cur.hasEpsilon = true
          · rw [if_pos he, if_pos he]
            have hflag := hputs.flag (rest = [])
            rw [hfalse, Bool.false_or] at hflag
            have hsame : (if cur.hasEpsilon = true ∧ rest = [] then true else item.hasEpsilon) =
                decide (rest = []) := by
              by_cases hr : rest = [] <;> simp [he, hr, hfalse]
            rw [hsame]
            exact ih 0 hrest hflag hlast
          · rw [if_neg he, if_neg he, if_neg fun h => he h.1]
            exact ⟨by simp, hputs⟩
      | ignore =>
        unfold FklGrammer.firstSetLoop FklGrammer.getFirstFromSyms
        exact ih 0 hrest (hf.putFlag hfalse _ _) hlast
      | string s =>
        unfold FklGrammer.firstSetLoop FklGrammer.getFirstFromSyms
        dsimp only
        split
        · have hflag := hf.flag (rest = [])
          rw [hfalse, Bool.false_or] at hflag
          exact ih 0 hrest hflag hlast
        · exact ⟨by simp, hf.put _⟩
      | keyword s =>
        unfold FklGrammer.firstSetLoop FklGrammer.getFirstFromSyms
        dsimp only
        split
        · have hflag := hf.flag (rest = [])
          rw [hfalse, Bool.false_or] at hflag
          exact ih 0 hrest hflag hlast
        · exact ⟨by simp, hf.put _⟩

end

/-! The cache. -/

section

variable {g : FklGrammer} {firsts : FklFirstSets} {syms : Nat → List FklGrammerSym}
  {cache cache' : GraLaFirstSetCache} {prod idx : Nat}

/-- What is cached after some queries, in whatever order. -/
inductive Queried (g : FklGrammer) (firsts : FklFirstSets) (syms : Nat → List FklGrammerSym) :
    GraLaFirstSetCache → Prop
  | empty : Queried g firsts syms fun _ _ => none
  | query {cache cache' : GraLaFirstSetCache} (h : Queried g firsts syms cache) (prod idx : Nat)
    {r : LaFirst} (hq : g.getFirstSetFromFirstSets firsts syms prod idx cache = some (r, cache')) :
    Queried g firsts syms cache'

/-- A query on a cache that only holds what the loop finds. -/
theorem getFirstSet_eq
    (hc : ∀ prod idx item, cache prod idx = some item →
      g.firstSetLoop firsts 0 ((syms prod).drop idx) ⟨[], false⟩ = some item)
    (hidx : idx < (syms prod).length) :
    (g.getFirstSetFromFirstSets firsts syms prod idx cache).map Prod.fst =
      (g.firstSetLoop firsts 0 ((syms prod).drop idx) ⟨[], false⟩).map
        fun item => ⟨some item.first, item.hasEpsilon⟩ := by
  unfold FklGrammer.getFirstSetFromFirstSets
  rw [if_neg (by omega)]
  cases hit : cache prod idx with
  | some item => rw [hc prod idx item hit]; rfl
  | none =>
    cases g.firstSetLoop firsts 0 ((syms prod).drop idx) ⟨[], false⟩ <;> rfl

theorem Queried.right (h : Queried g firsts syms cache) (prod idx : Nat)
    (item : FklFirstSetItem) (hit : cache prod idx = some item) :
    g.firstSetLoop firsts 0 ((syms prod).drop idx) ⟨[], false⟩ = some item := by
  induction h generalizing prod idx item with
  | empty => cases hit
  | @query cache cache' _ prod' idx' r hq ih =>
    unfold FklGrammer.getFirstSetFromFirstSets at hq
    split at hq
    · obtain ⟨-, rfl⟩ := Prod.mk.inj (Option.some.inj hq)
      exact ih prod idx item hit
    split at hq
    · obtain ⟨-, rfl⟩ := Prod.mk.inj (Option.some.inj hq)
      exact ih prod idx item hit
    · obtain ⟨new, hnew, hq⟩ := Option.bind_eq_some_iff.mp hq
      obtain ⟨-, rfl⟩ := Prod.mk.inj (Option.some.inj hq)
      by_cases hp : prod = prod'
      · subst hp
        rw [Function.update_self] at hit
        by_cases hi : idx = idx'
        · subst hi
          rw [Function.update_self] at hit
          rwa [← Option.some.inj hit]
        · rw [Function.update_of_ne hi] at hit
          exact ih prod idx item hit
      · rw [Function.update_of_ne hp] at hit
        exact ih prod idx item hit

theorem firstFromSyms_eq {left : Nat} {suffix : List FklGrammerSym}
    (hleft : .nonterm left ∉ suffix) :
    g.firstFromSyms firsts left suffix = g.firstSetLoop firsts 0 suffix ⟨[], false⟩ := by
  have hstart : Filling firsts left ⟨[], false⟩
      ⟨Function.update firsts left (some ⟨[], false⟩), false⟩ :=
    ⟨Function.update_self .., fun nt hnt => Function.update_of_ne hnt _ _⟩
  have hsame := firstSetLoop_same (g := g) 0 suffix hleft hstart (by simp)
  unfold FklGrammer.firstFromSyms
  cases hloop : g.firstSetLoop firsts 0 suffix ⟨[], false⟩ with
  | none =>
    rw [hloop] at hsame
    exact if_pos hsame
  | some item =>
    rw [hloop] at hsame
    exact (if_neg hsame.1).trans hsame.2.own

/-- Whatever has been queried before. The end of a production is answered ahead of the loop. -/
theorem getFirstSet_same (hc : Queried g firsts syms cache) (prod idx left : Nat)
    (hleft : .nonterm left ∉ (syms prod).drop idx) :
    (idx < (syms prod).length →
      (g.getFirstSetFromFirstSets firsts syms prod idx cache).map Prod.fst =
        (g.firstFromSyms firsts left ((syms prod).drop idx)).map
          fun item => ⟨some item.first, item.hasEpsilon⟩) ∧
    ((syms prod).length ≤ idx →
      g.getFirstSetFromFirstSets firsts syms prod idx cache = some (⟨none, true⟩, cache)) := by
  refine ⟨fun hidx => ?_, fun hidx => if_pos hidx⟩
  rw [firstFromSyms_eq hleft]
  exact getFirstSet_eq hc.right hidx

end

namespace FklGrammer

/-- The rest after the first and only symbol of a production is queried twice. -/
theorem twoStrings_getFirstSet : ∃ firsts, twoStrings.computeAllFirstSet 3 = some firsts ∧
    ∃ cache, Queried twoStrings firsts (fun _ => [.string 0]) cache ∧
      (twoStrings.getFirstSetFromFirstSets firsts (fun _ => [.string 0]) 0 0 cache).map Prod.fst =
        (twoStrings.firstFromSyms firsts 0 [.string 0]).map
          fun item => ⟨some item.first, item.hasEpsilon⟩ := by
  refine ⟨_, rfl, _, .query .empty 0 0 rfl, ?_⟩
  exact (getFirstSet_same (.query .empty 0 0 rfl) 0 0 0 (by simp)).1 (by simp)

/-- At the end of a production the flag is set here and is not there. -/
theorem getFirstSet_ne_at_end :
    ¬∀ (g : FklGrammer) (fuel : Nat) (firsts : FklFirstSets) (syms : Nat → List FklGrammerSym)
      (cache : GraLaFirstSetCache) (prod idx left : Nat),
      g.computeAllFirstSet fuel = some firsts → Queried g firsts syms cache →
      idx ≤ (syms prod).length → .nonterm left ∉ (syms prod).drop idx →
        (g.getFirstSetFromFirstSets firsts syms prod idx cache).map
            (fun out => (out.1.first.getD [], out.1.hasEpsilon)) =
          (g.firstFromSyms firsts left ((syms prod).drop idx)).map
            fun item => (item.first, item.hasEpsilon) := by
  intro h
  have hend := h twoStrings 3 _ (fun _ => [.string 0]) (fun _ _ => none) 0 1 0 rfl .empty
    (by simp) (by simp)
  simp [getFirstSetFromFirstSets, firstFromSyms, getFirstFromSyms] at hend

end FklGrammer

end FakeLisp
