import FakeLisp.RmacroRule

/-! The definition of a reader macro: rules, delimiters and ignored text one after the other. -/

namespace FakeLisp.GrammerTables

open ConcatChains

variable {E : RmacroEnv}

theorem RmacroM.bind_ok {α β : Type} {a : RmacroM α} {f : α → RmacroM β} {b : β}
    (h : (a >>= f) = some (.ok b)) : ∃ x, a = some (.ok x) ∧ f x = some (.ok b) := by
  obtain ⟨r, hr, h⟩ := Option.bind_eq_some_iff.mp h
  cases r with
  | error err => cases h
  | ok x => exact ⟨x, hr, h⟩

/-! The parts of a definition end before it does. -/

theorem parseRuleLoop_end {gsyms : List FklCgRmacroGraSym} {hasIgnore : Bool}
    {pending : Option RmacroErr} {xs rest : Nast} {r : List FklCgRmacroGraSym × Option RmacroErr}
    (h : parseRuleLoop E gsyms hasIgnore pending xs = some (.ok (rest, r))) :
    rest.spine ≤ xs.spine ∧ ∀ x y, rest = .pair x y → x = symAst "=>" := by
  induction hsize : xs.spine using Nat.strong_induction_on generalizing gsyms hasIgnore pending xs with
  | _ n ih =>
    rcases parseRuleLoop_round h with ⟨hr, hend⟩ | ⟨gsyms₁, hasIgnore₁, pending₁, xs₁, hround, hrest⟩
    · cases hr
      exact ⟨hsize.le, fun x y hxy => (hend x y hxy).1⟩
    · have hlt := hround.spine_lt
      obtain ⟨hle, hend⟩ := ih _ (hsize ▸ hlt) hrest rfl
      exact ⟨(hle.trans hlt.le).trans hsize.le, hend⟩

/-- What stands behind `->`. -/
structure ProdRest where
  afterArrow : Nast
  gsyms : List FklCgRmacroGraSym
  pending : Option RmacroErr
  typeAst : Nast
  type : ActionType
  ast : Nast
  action : FklRmacroAction

namespace ProdRest

def syms (p : ProdRest) : List FklCgRmacroGraSym := fklGraFoldConcatChains p.gsyms

structure Read (p : ProdRest) (E : RmacroEnv) (left : Nast) (addExtra : Bool) (curPair : Nast)
    (cmd : FklCgRmacroCmd) (rest : Nast) : Prop where
  arrow : curPair = .pair (symAst "->") p.afterArrow
  rule : parseRuleLoop E [] false none p.afterArrow =
    some (.ok (.pair (symAst "=>") (.pair p.typeAst (.pair p.ast rest)), p.gsyms, p.pending))
  hasType : actionTypeOf p.typeAst = some p.type
  kinds : ∀ s ∈ p.syms, s.type ≠ .none ∧ s.type ≠ .eof
  hasAction : parseAction p.type p.ast p.syms = some (.ok p.action)
  command : cmd = .addProd ⟨some left, some p.typeAst, p.action, addExtra, p.syms⟩

variable {left curPair rest : Nast} {addExtra : Bool} {cmd : FklCgRmacroCmd}

theorem of_parse (h : parseRmacroDefProdRest E left addExtra curPair = some (.ok (cmd, rest))) :
    ∃ p : ProdRest, p.Read E left addExtra curPair cmd rest := by
  unfold parseRmacroDefProdRest at h
  split at h
  · next arrow afterArrow =>
    split at h
    · cases h
    · next harrow =>
      obtain ⟨⟨curPair', gsyms, pending⟩, hrule, h⟩ := RmacroM.bind_ok h
      dsimp only at h
      split at h
      · next x typeAst action =>
        split at h
        · cases h
        · next type htype =>
          split at h
          · next ast rest' =>
            split at h
            · cases h
            · next hkinds =>
              obtain ⟨action, haction, h⟩ := RmacroM.bind_ok h
              cases h
              obtain rfl := (parseRuleLoop_end hrule).2 x _ rfl
              refine ⟨⟨afterArrow, gsyms, pending, typeAst, type, ast, action⟩, ?_, hrule, htype,
                ?_, haction, rfl⟩
              · have harrow : isSym "->" arrow = true := by simpa using harrow
                rw [isSym_iff.mp harrow]
              · simpa [syms, not_or] using hkinds
          · cases h
      · cases h
      · cases h
  · cases h

theorem Read.spine_lt {p : ProdRest} (h : p.Read E left addExtra curPair cmd rest) :
    rest.spine < curPair.spine := by
  have hle := (parseRuleLoop_end h.rule).1
  rw [h.arrow]
  simp only [Nast.spine] at hle ⊢
  omega

end ProdRest

/-- What stands before `->` in the first rule of a nonterminal. -/
def headExprs (head : Nast) (addExtra : Bool) : List Nast :=
  if addExtra then [head, keywordAst "s-exp"] else [head]

theorem parseRmacroDefProd_ok {curPair rest : Nast} {cmd : FklCgRmacroCmd}
    (h : parseRmacroDefProd E curPair = some (.ok (cmd, rest))) :
    ∃ head addExtra afterHead, curPair = appendAst (headExprs head addExtra) afterHead ∧
      (∀ s, asSym (leftOf head) = some s → s ∉ E.builtinNonterms ∧ fklGetBuiltinMatch s = none) ∧
      parseRmacroDefProdRest E (leftOf head) addExtra afterHead = some (.ok (cmd, rest)) := by
  unfold parseRmacroDefProd at h
  split at h
  · next head rest' =>
    obtain ⟨u, hleft, hrest⟩ := RmacroM.bind_ok h
    have hnew : ∀ s, asSym (leftOf head) = some s →
        s ∉ E.builtinNonterms ∧ fklGetBuiltinMatch s = none := by
      intro s hs
      unfold checkLeft at hleft
      rw [hs] at hleft
      dsimp only at hleft
      split at hleft
      · cases hleft
      · next hnonterm =>
        split at hleft
        · cases hleft
        · next hbuiltin => exact ⟨hnonterm, by simpa using hbuiltin⟩
    split at hrest
    · cases hrest
    · next cur afterCur =>
      split at hrest
      · next hcur =>
        split at hrest
        · cases hrest
        · next x y =>
          exact ⟨head, true, .pair x y, by rw [isKeyword_iff.mp hcur]; rfl, hnew, hrest⟩
        · cases hrest
      · exact ⟨head, false, .pair cur afterCur, rfl, hnew, hrest⟩
    · cases hrest
  · cases h

theorem parseDelimLoop_spine {xs rest : Nast} {cmds : List FklCgRmacroCmd}
    (h : parseDelimLoop xs = some (.ok (cmds, rest))) : rest.spine ≤ xs.spine ∧
      ∀ cmd ∈ cmds, ∃ s, cmd = .addDelim (strAst s) := by
  fun_induction parseDelimLoop xs generalizing cmds with
  | case1 =>
    cases h
    exact ⟨le_rfl, by simp⟩
  | case2 cur rest' hend =>
    cases h
    exact ⟨by simp only [Nast.spine]; omega, by simp⟩
  | case3 cur rest' hend hstr ih =>
    obtain ⟨⟨cmds', rest''⟩, hloop, h⟩ := RmacroM.bind_ok h
    cases h
    obtain ⟨hle, hcmds⟩ := ih hloop
    refine ⟨hle.trans (by simp only [Nast.spine]; omega), List.forall_mem_cons.mpr ⟨?_, hcmds⟩⟩
    obtain ⟨s, hs⟩ := Option.isSome_iff_exists.mp hstr
    exact ⟨s, by rw [asStr_eq_some hs]; rfl⟩
  | case4 =>
    cases h
    exact ⟨le_rfl, by simp⟩
  | case5 => cases h

theorem parseRmacroDefDelim_ok {curPair rest : Nast} {cmds : List FklCgRmacroCmd}
    (h : parseRmacroDefDelim curPair = some (.ok (cmds, rest))) : rest.spine < curPair.spine ∧
      ∀ cmd ∈ cmds, ∃ s, cmd = .addDelim (strAst s) := by
  unfold parseRmacroDefDelim at h
  split at h
  · cases h
  · split at h
    · obtain ⟨hle, hcmds⟩ := parseDelimLoop_spine h
      exact ⟨by simp only [Nast.spine] at hle ⊢; omega, hcmds⟩
    · cases h
  · cases h

theorem appendAst_append (xs ys : List Nast) (rest : Nast) :
    appendAst xs (appendAst ys rest) = appendAst (xs ++ ys) rest := by
  induction xs with
  | nil => rfl
  | cons x xs ih =>
    rw [appendAst, ih]
    rfl

theorem spine_le_appendAst (xs : List Nast) (rest : Nast) :
    rest.spine ≤ (appendAst xs rest).spine := by
  induction xs with
  | nil => exact le_rfl
  | cons x xs ih =>
    simp only [appendAst, Nast.spine]
    omega

/-- What has been read behind `:ignore`. -/
structure IgnoreRead (gsyms : List FklCgRmacroGraSym) (xs rest : Nast)
    (gsyms' : List FklCgRmacroGraSym) (written : List RuleSym) : Prop where
  exprs : xs = appendAst (written.flatMap RuleSym.exprs) rest ∨
    xs = appendAst (written.flatMap RuleSym.exprs) (.pair (keywordAst "end") rest)
  syms : gsyms' = gsyms ++ written.map RuleSym.graSym
  valid : ∀ s ∈ written, s.Valid

theorem IgnoreRead.push {gsyms gsyms' : List FklCgRmacroGraSym} {s : RuleSym} {xs rest : Nast}
    {written : List RuleSym} (hs : s.Valid)
    (h : IgnoreRead (gsyms ++ [s.graSym]) xs rest gsyms' written) :
    IgnoreRead gsyms (appendAst s.exprs xs) rest gsyms' (s :: written) where
  exprs := by
    rw [List.flatMap_cons, ← appendAst_append, ← appendAst_append]
    exact h.exprs.imp (congrArg _) (congrArg _)
  syms := by rw [h.syms, List.append_assoc, List.singleton_append, List.map_cons]
  valid := List.forall_mem_cons.mpr ⟨hs, h.valid⟩

theorem IgnoreRead.nil (gsyms : List FklCgRmacroGraSym) (xs : Nast) :
    IgnoreRead gsyms xs xs gsyms [] :=
  ⟨.inl rfl, (List.append_nil gsyms).symm, by simp⟩

theorem parseIgnoreLoop_read {gsyms gsyms' : List FklCgRmacroGraSym}
    {pending pending' : Option RmacroErr} {xs rest : Nast}
    (h : parseIgnoreLoop E gsyms pending xs = some (.ok (rest, gsyms', pending')))
    (hok : ∀ s ∈ gsyms', s.type ≠ .none) : ∃ syms, IgnoreRead gsyms xs rest gsyms' syms := by
  fun_induction parseIgnoreLoop E gsyms pending xs with
  | case2 gsyms pending rest' s ih =>
    obtain ⟨syms, hsyms⟩ := ih h
    exact ⟨_, hsyms.push (s := .string s) trivial⟩
  | case4 gsyms pending rest' elems s pending'' hvec ih =>
    obtain ⟨syms, hsyms⟩ := ih h
    have hs : s ∈ gsyms' := by
      rw [hsyms.syms]
      exact List.mem_append_left _ (List.mem_append_right _ (List.mem_singleton_self s))
    rcases vecSym_ok hvec with hnone | ⟨name, b, args, hargs, rfl, hvalid⟩
    · exact absurd hnone (hok s hs)
    · rw [hargs]
      exact ⟨_, hsyms.push (s := .builtinVec name b args) hvalid⟩
  | case5 gsyms pending s rest' hre ih =>
    obtain ⟨syms, hsyms⟩ := ih h
    exact ⟨_, hsyms.push (s := .regex s) trivial⟩
  | case8 =>
    cases h
    exact ⟨[], .inr rfl, by simp, by simp⟩
  | case15 gsyms pending rest' sym hnew s hs ih =>
    obtain ⟨syms, hsyms⟩ := ih h
    obtain ⟨b, rfl, hvalid⟩ := bareBuiltin_ok hs
    exact ⟨_, hsyms.push (s := .builtin sym b) hvalid⟩
  | case1 | case9 | case11 | case16 =>
    cases h
    exact ⟨[], IgnoreRead.nil _ _⟩
  | _ => cases h

theorem parseIgnoreLoop_spine {gsyms gsyms' : List FklCgRmacroGraSym}
    {pending pending' : Option RmacroErr} {xs rest : Nast}
    (h : parseIgnoreLoop E gsyms pending xs = some (.ok (rest, gsyms', pending'))) :
    rest.spine ≤ xs.spine := by
  fun_induction parseIgnoreLoop E gsyms pending xs with
  | case1 | case9 | case11 | case16 =>
    cases h
    exact le_rfl
  | case8 =>
    cases h
    simp only [Nast.spine]
    omega
  | case2 | case4 | case5 | case15 =>
    rename_i ih
    exact (ih h).trans (by simp only [Nast.spine]; omega)
  | _ => cases h

theorem parseRmacroDefIgnore_ok {curPair rest : Nast} {cmd : FklCgRmacroCmd}
    (h : parseRmacroDefIgnore E curPair = some (.ok (cmd, rest))) :
    ∃ head xs gsyms pending, curPair = .pair head xs ∧
      parseIgnoreLoop E [] none xs = some (.ok (rest, gsyms, pending)) ∧
      (∀ s ∈ gsyms, s.type = .string ∨ s.type = .builtin ∨ s.type = .regex) ∧
      cmd = .addIgnore ⟨none, none, .ast (.atom .nil), false, gsyms⟩ := by
  unfold parseRmacroDefIgnore at h
  split at h
  · cases h
  · next head xs _ =>
    obtain ⟨⟨rest', gsyms, pending⟩, hloop, h⟩ := RmacroM.bind_ok h
    dsimp only at h
    split at h
    · next hkinds =>
      cases h
      refine ⟨head, xs, gsyms, pending, rfl, hloop, ?_, rfl⟩
      simpa [or_assoc] using hkinds
    · cases h
  · cases h

variable (E)

/-- The loop over the parts of a definition, with the left side of the rules that are read. -/
def parseReaderMacroDef (left : Option Nast) (rest : Nast) : RmacroM (List FklCgRmacroCmd) :=
  match rest with
  | .pair cur tail =>
    if isKeyword "end" cur then
      match left with
      | none => throw (.expectTop cur)
      | some _ => parseReaderMacroDef none tail
    else if isKeyword "ignore" cur then
      match _ : parseRmacroDefIgnore E (.pair cur tail) with
      | none => undefinedBehaviour
      | some (.error err) => throw err
      | some (.ok (cmd, rest)) => do return cmd :: (← parseReaderMacroDef none rest)
    else if isKeyword "delim" cur then
      match _ : parseRmacroDefDelim (.pair cur tail) with
      | none => undefinedBehaviour
      | some (.error err) => throw err
      | some (.ok (cmds, rest)) => do return cmds ++ (← parseReaderMacroDef none rest)
    else if isSym "->" cur then
      match left with
      | none => throw (.expectTop cur)
      | some l =>
        match _ : parseRmacroDefProdRest E l false (.pair cur tail) with
        | none => undefinedBehaviour
        | some (.error err) => throw err
        | some (.ok (cmd, rest)) => do return cmd :: (← parseReaderMacroDef (some l) rest)
    else if isSym "=>" cur || isSym ".." cur then throw (.expectTop cur)
    else if isKeyword "s-exp" cur || (asSym cur).isSome then
      match _ : parseRmacroDefProd E (.pair cur tail) with
      | none => undefinedBehaviour
      | some (.error err) => throw err
      | some (.ok (cmd, rest)) => do
        return cmd :: (← parseReaderMacroDef (some (leftOf cur)) rest)
    else throw (.expectTop cur)
  | _ => pure []
termination_by rest.spine
decreasing_by
  · simp only [Nast.spine]
    omega
  · obtain ⟨head, xs, gsyms, pending, heq, hloop, -, -⟩ := parseRmacroDefIgnore_ok ‹_›
    have hle := parseIgnoreLoop_spine hloop
    rw [heq]
    simp only [Nast.spine]
    omega
  · exact (parseRmacroDefDelim_ok ‹_›).1
  · obtain ⟨p, hp⟩ := ProdRest.of_parse ‹_›
    exact hp.spine_lt
  · obtain ⟨head, addExtra, afterHead, heq, -, hrest⟩ := parseRmacroDefProd_ok ‹_›
    obtain ⟨p, hp⟩ := ProdRest.of_parse hrest
    rw [heq]
    exact hp.spine_lt.trans_le (spine_le_appendAst _ _)

def fklCgParseReaderMacroDefine (rest : Nast) : RmacroM FklVMvalueCgRmacro :=
  parseReaderMacroDef E none rest

end FakeLisp.GrammerTables
