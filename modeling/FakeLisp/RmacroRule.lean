import FakeLisp.RmacroParse

/-! Rules of reader macros as they are written: chains of symbols with `..` between them, one chain
behind the other. What the parser accepts is written in this way. -/

namespace FakeLisp.GrammerTables

open ConcatChains

inductive RuleSym where
  | string (s : List UInt8)
  | keyword (s : List UInt8)
  | regex (s : List UInt8)
  | builtin (name : List UInt8) (b : FklLalrBuiltinMatch)
  | builtinVec (name : List UInt8) (b : FklLalrBuiltinMatch) (args : List (List UInt8))
  | nonterm (sym : List UInt8)
  | qualified (a b : List UInt8)

def strAst (s : List UInt8) : Nast := .atom (.str s)

def argsAst (name : List UInt8) (args : List (List UInt8)) : Nast :=
  .block .vec (.atom (.sym name) :: args.map strAst)

/-- A list of expressions in front of another. -/
def appendAst : List Nast → Nast → Nast
  | [], rest => rest
  | x :: xs, rest => .pair x (appendAst xs rest)

namespace RuleSym

def exprs : RuleSym → List Nast
  | string s => [strAst s]
  | keyword s => [keywordAst "keyword", strAst s]
  | regex s => [keywordAst "regex", strAst s]
  | builtin name _ => [.atom (.sym name)]
  | builtinVec name _ args => [argsAst name args]
  | nonterm sym => [.atom (.sym sym)]
  | qualified a b => [.pair (.atom (.sym a)) (.atom (.sym b))]

/-- The symbol of the command. -/
def graSym : RuleSym → FklCgRmacroGraSym
  | string s => ⟨.string, some (strAst s)⟩
  | keyword s => ⟨.keyword, some (strAst s)⟩
  | regex s => ⟨.regex, some (strAst s)⟩
  | builtin name _ => ⟨.builtin, some (.atom (.sym name))⟩
  | builtinVec name _ args => ⟨.builtin, some (argsAst name args)⟩
  | nonterm sym => ⟨.nonterm, some (.atom (.sym sym))⟩
  | qualified a b => ⟨.nonterm, some (.pair (.atom (.sym a)) (.atom (.sym b)))⟩

/-- The builtin terminals exist and have arguments as they need them. -/
def Valid : RuleSym → Prop
  | builtin name b => fklGetBuiltinMatch name = some b ∧ fklBuiltinTermArgsCheck b 0 = .dummy
  | builtinVec name b args => fklGetBuiltinMatch name = some b ∧
      fklBuiltinTermArgsCheck b args.length = .dummy
  | nonterm sym => (isValidNontermSym sym).isSome = true ∧ isBuiltinGraSym sym = false
  | _ => True

end RuleSym

/-- A symbol with whether `IGNORE` comes before it. -/
abbrev RuleItem := Bool × RuleSym

/-- The symbols of the commands before they are folded. -/
def ruleSyms (items : List RuleItem) : List FklCgRmacroGraSym :=
  joinItems ⟨.ignore, none⟩ (items.map fun i => (i.1, i.2.graSym))

/-- `hasIgnore` says that `..` has to be written where no `IGNORE` comes. -/
def itemsExprs : Bool → List RuleItem → List Nast
  | _, [] => []
  | hasIgnore, (b, s) :: items =>
    (if hasIgnore && !b then [symAst ".."] else []) ++ s.exprs ++ itemsExprs true items

variable {E : RmacroEnv}

theorem isRegexStrValid_eq (s : List UInt8) : isRegexStrValid E s = true := by
  unfold isRegexStrValid
  split <;> rfl

theorem isKeyword_iff {s : String} {v : Nast} : isKeyword s v = true ↔ v = keywordAst s := by
  unfold isKeyword keywordAst
  split <;> simp_all

theorem isSym_iff {s : String} {v : Nast} : isSym s v = true ↔ v = symAst s := by
  unfold isSym symAst
  split <;> simp_all

/-- What the loop has read, up to where it ends. -/
structure RuleRead (hasIgnore : Bool) (gsyms : List FklCgRmacroGraSym) (xs : Nast)
    (rest : Nast) (gsyms' : List FklCgRmacroGraSym) (items : List RuleItem) : Prop where
  exprs : xs = appendAst (itemsExprs hasIgnore items) rest
  syms : gsyms' = gsyms ++ ruleSyms items
  valid : ∀ i ∈ items, i.2.Valid
  first : ∀ i ∈ items.head?, i.1 = true → hasIgnore = true
  /-- The loop does not end behind `..`. -/
  nonempty : hasIgnore = false → gsyms ≠ [] → (∃ x y, xs = .pair x y) → items ≠ []

theorem RuleRead.push {hasIgnore : Bool} {gsyms gsyms' : List FklCgRmacroGraSym} {s : RuleSym}
    {xs rest : Nast} {items : List RuleItem} (hs : s.Valid)
    (h : RuleRead true (pushGraSym gsyms hasIgnore s.graSym) xs rest gsyms' items) :
    RuleRead hasIgnore gsyms (appendAst s.exprs xs) rest gsyms' ((hasIgnore, s) :: items) where
  exprs := by
    have happend : ∀ as bs r, appendAst as (appendAst bs r) = appendAst (as ++ bs) r := by
      intro as bs r
      induction as with
      | nil => rfl
      | cons a as ih => rw [appendAst, ih]; rfl
    cases hasIgnore <;> rw [h.exprs, happend] <;> rfl
  syms := by
    rw [h.syms]
    cases hasIgnore <;> simp [pushGraSym, pushSym, ruleSyms, joinItems]
  valid := by
    intro i hi
    rcases List.mem_cons.mp hi with rfl | hi
    · exact hs
    · exact h.valid i hi
  first := by
    intro i hi hb
    cases hi
    exact hb
  nonempty _ _ _ := List.cons_ne_nil _ _

theorem RuleRead.concat {gsyms gsyms' : List FklCgRmacroGraSym} {x y rest : Nast}
    {items : List RuleItem} (hne : gsyms ≠ [])
    (h : RuleRead false gsyms (.pair x y) rest gsyms' items) :
    RuleRead true gsyms (.pair (symAst "..") (.pair x y)) rest gsyms' items where
  exprs := by
    have hitems := h.nonempty rfl hne ⟨x, y, rfl⟩
    cases items with
    | nil => exact absurd rfl hitems
    | cons i items =>
      obtain ⟨b, s⟩ := i
      have hb : b = false := by
        cases b with
        | false => rfl
        | true => exact absurd (h.first _ rfl rfl) Bool.false_ne_true
      subst hb
      rw [h.exprs]
      rfl
  syms := h.syms
  valid := h.valid
  first _ _ _ := rfl
  nonempty htrue := absurd htrue.symm Bool.false_ne_true

theorem pushGraSym_ne_nil {hasIgnore : Bool} {gsyms : List FklCgRmacroGraSym}
    {s : FklCgRmacroGraSym} : pushGraSym gsyms hasIgnore s ≠ [] := by
  unfold pushGraSym pushSym
  exact List.append_ne_nil_of_right_ne_nil _ (List.cons_ne_nil _ _)

theorem asStr_all {args : List Nast} (h : (args.all fun arg => (asStr arg).isSome) = true) :
    ∃ strs : List (List UInt8), args = strs.map strAst := by
  induction args with
  | nil => exact ⟨[], rfl⟩
  | cons a args ih =>
    rw [List.all_cons, Bool.and_eq_true] at h
    obtain ⟨strs, rfl⟩ := ih h.2
    obtain ⟨s, hs⟩ := Option.isSome_iff_exists.mp h.1
    exact ⟨s :: strs, by rw [asStr_eq_some hs]; rfl⟩

theorem btErr_eq_none {sym : Nast} {err : FklBuiltinTerminalInitError} (h : btErr sym err = none) :
    err = .dummy := by
  cases err <;> simp_all [btErr]

theorem vecToBuiltinTerminal_builtin {elems : List Nast}
    (h : vecToBuiltinTerminal elems = .builtin) :
    ∃ name b args, elems = .atom (.sym name) :: args.map strAst ∧
      (RuleSym.builtinVec name b args).Valid := by
  unfold vecToBuiltinTerminal at h
  split at h
  · next first rest =>
    split at h
    · split at h
      · cases h
      · next bs hbs =>
        split at h
        · next hall =>
          split at h
          · next hcheck =>
            obtain ⟨args, rfl⟩ := asStr_all hall
            rw [List.length_map] at hcheck
            exact ⟨first, bs, args, rfl, hbs, btErr_eq_none hcheck⟩
          · cases h
        · cases h
    · cases h
  · cases h

/-- A vector among the symbols is a builtin terminal, or a symbol without a kind. -/
theorem vecSym_ok {elems : List Nast} {pending pending' : Option RmacroErr}
    {s : FklCgRmacroGraSym} (h : vecSym elems pending = .ok (s, pending')) :
    s.type = .none ∨ ∃ name b args, Nast.block .vec elems = argsAst name args ∧
      s = (RuleSym.builtinVec name b args).graSym ∧ (RuleSym.builtinVec name b args).Valid := by
  unfold vecSym at h
  split at h
  · next hvec =>
    obtain ⟨name, b, args, rfl, hvalid⟩ := vecToBuiltinTerminal_builtin hvec
    cases h
    exact Or.inr ⟨name, b, args, rfl, rfl, hvalid⟩
  · cases h
    exact Or.inl rfl
  · split at h
    · cases h
    · cases h
      exact Or.inl rfl

theorem bareBuiltin_ok {sym : List UInt8} {s : FklCgRmacroGraSym} (h : bareBuiltin sym = .ok s) :
    ∃ b, s = (RuleSym.builtin sym b).graSym ∧ (RuleSym.builtin sym b).Valid := by
  unfold bareBuiltin at h
  split at h
  · cases h
  · next bt hbt =>
    split at h
    · next hcheck =>
      cases h
      exact ⟨bt, rfl, hbt, btErr_eq_none hcheck⟩
    · cases h

/-- A round of the loop that goes on: what it has read and what is left. -/
inductive RuleRound (gsyms : List FklCgRmacroGraSym) (pending : Option RmacroErr) :
    Bool → Nast → List FklCgRmacroGraSym → Bool → Option RmacroErr → Nast → Prop where
  | sym (hasIgnore : Bool) (s : RuleSym) (rest : Nast) (hs : s.Valid) :
      RuleRound gsyms pending hasIgnore (appendAst s.exprs rest)
        (pushGraSym gsyms hasIgnore s.graSym) true pending rest
  | vec (hasIgnore : Bool) (elems : List Nast) (s : FklCgRmacroGraSym)
      (pending' : Option RmacroErr) (rest : Nast) (hs : vecSym elems pending = .ok (s, pending')) :
      RuleRound gsyms pending hasIgnore (.pair (.block .vec elems) rest)
        (pushGraSym gsyms hasIgnore s) true pending' rest
  | concat (x y : Nast) :
      RuleRound gsyms pending true (.pair (symAst "..") (.pair x y)) gsyms false pending (.pair x y)

theorem RuleRound.spine_lt {gsyms gsyms' : List FklCgRmacroGraSym} {hasIgnore hasIgnore' : Bool}
    {pending pending' : Option RmacroErr} {xs xs' : Nast}
    (h : RuleRound gsyms pending hasIgnore xs gsyms' hasIgnore' pending' xs') :
    xs'.spine < xs.spine := by
  cases h with
  | sym _ s => cases s <;> simp only [RuleSym.exprs, appendAst, Nast.spine] <;> omega
  | vec | concat => simp only [Nast.spine]; omega

/-- The loop ends before `=>` or at the end of the list, or it goes on. -/
theorem parseRuleLoop_round {gsyms : List FklCgRmacroGraSym} {hasIgnore : Bool}
    {pending : Option RmacroErr} {xs : Nast} {r : RuleEnd}
    (h : parseRuleLoop E gsyms hasIgnore pending xs = some (.ok r)) :
    (r = (xs, gsyms, pending) ∧ ∀ x y, xs = .pair x y →
      x = symAst "=>" ∧ (hasIgnore = false → gsyms = [])) ∨
    ∃ gsyms' hasIgnore' pending' xs',
      RuleRound gsyms pending hasIgnore xs gsyms' hasIgnore' pending' xs' ∧
        parseRuleLoop E gsyms' hasIgnore' pending' xs' = some (.ok r) := by
  unfold parseRuleLoop at h
  split at h
  · next cur rest =>
    split at h
    · next hcur =>
      split at h
      · cases h
      · next hend =>
        cases h
        refine Or.inl ⟨rfl, fun x y hxy => ?_⟩
        cases hxy
        refine ⟨isSym_iff.mp hcur, fun hfalse => ?_⟩
        by_contra hne
        exact hend (by rw [hfalse]; simpa using hne)
    · split at h
      · next hre =>
        split at h
        · next s rest =>
          rw [if_pos (isRegexStrValid_eq s)] at h
          rw [isKeyword_iff.mp hre]
          exact Or.inr ⟨_, _, _, _, .sym hasIgnore (.regex s) rest trivial, h⟩
        · cases h
      · split at h
        · next hkey =>
          split at h
          · next s rest =>
            rw [isKeyword_iff.mp hkey]
            exact Or.inr ⟨_, _, _, _, .sym hasIgnore (.keyword s) rest trivial, h⟩
          · cases h
        · split at h
          · next s _ _ _ => exact Or.inr ⟨_, _, _, _, .sym hasIgnore (.string s) rest trivial, h⟩
          · next elems _ _ _ =>
            split at h
            · cases h
            · next s pending' hs => exact Or.inr ⟨_, _, _, _, .vec hasIgnore elems s pending' rest hs, h⟩
          · next a b _ _ _ => exact Or.inr ⟨_, _, _, _, .sym hasIgnore (.qualified a b) rest trivial, h⟩
          · next sym _ _ _ =>
            split at h
            · next hdots =>
              split at h
              · next hignore =>
                split at h
                · next x y =>
                  rw [hdots, hignore]
                  exact Or.inr ⟨_, _, _, _, .concat x y, h⟩
                · cases h
              · cases h
            · split at h
              · next hvalid =>
                split at h
                · split at h
                  · cases h
                  · next s hs =>
                    obtain ⟨b, rfl, hbuiltin⟩ := bareBuiltin_ok hs
                    exact Or.inr ⟨_, _, _, _, .sym hasIgnore (.builtin sym b) rest hbuiltin, h⟩
                · next hspecial =>
                  exact Or.inr ⟨_, _, _, _,
                    .sym hasIgnore (.nonterm sym) rest ⟨hvalid, eq_false_of_ne_true hspecial⟩, h⟩
              · cases h
          · cases h
  · next hother =>
    cases h
    exact Or.inl ⟨rfl, fun x y hxy => absurd hxy (hother x y)⟩

/-- The loop over the symbols of a rule reads a rule as it is written. -/
theorem parseRuleLoop_read {gsyms gsyms' : List FklCgRmacroGraSym} {hasIgnore : Bool}
    {pending pending' : Option RmacroErr} {xs rest : Nast}
    (h : parseRuleLoop E gsyms hasIgnore pending xs = some (.ok (rest, gsyms', pending')))
    (hok : ∀ s ∈ gsyms', s.type ≠ .none) (hne : hasIgnore = true → gsyms ≠ []) :
    ∃ items, RuleRead hasIgnore gsyms xs rest gsyms' items := by
  induction hsize : xs.spine using Nat.strong_induction_on generalizing gsyms hasIgnore pending xs with
  | _ n ih =>
    rcases parseRuleLoop_round h with ⟨hr, hend⟩ | ⟨gsyms₁, hasIgnore₁, pending₁, xs₁, hround, hrest⟩
    · obtain ⟨rfl, rfl, rfl⟩ := hr
      refine ⟨[], rfl, (List.append_nil _).symm, by simp, by simp, fun hfalse hgsyms hpair => ?_⟩
      obtain ⟨x, y, rfl⟩ := hpair
      exact absurd ((hend x y rfl).2 hfalse) hgsyms
    · have hread := fun hne₁ => ih _ (hsize ▸ hround.spine_lt) hrest hne₁ rfl
      cases hround with
      | sym _ s _ hs =>
        obtain ⟨items, hitems⟩ := hread fun _ => pushGraSym_ne_nil
        exact ⟨_, hitems.push hs⟩
      | vec _ elems s _ _ hs =>
        obtain ⟨items, hitems⟩ := hread fun _ => pushGraSym_ne_nil
        have hmem : s ∈ gsyms' := by
          rw [hitems.syms]
          exact List.mem_append_left _ (List.mem_append_right _ (List.mem_singleton_self s))
        rcases vecSym_ok hs with hnone | ⟨name, b, args, hargs, rfl, hvalid⟩
        · exact absurd hnone (hok s hmem)
        · rw [hargs]
          exact ⟨_, hitems.push (s := .builtinVec name b args) hvalid⟩
      | concat x y =>
        obtain ⟨items, hitems⟩ := hread fun hfalse => absurd hfalse Bool.false_ne_true
        exact ⟨items, hitems.concat (hne rfl)⟩

end FakeLisp.GrammerTables
