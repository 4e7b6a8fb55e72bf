import FakeLisp.RmacroConvert

/-! How the definition of a reader macro is written, and the commands that the parser makes of
it. -/

namespace FakeLisp.GrammerTables

variable {E : RmacroEnv}

inductive DefPart where
  | delim (s : List UInt8)
  | ignore (written : List RuleSym)
  | rule (left : Nast) (addExtra : Bool) (items : List RuleItem) (typeAst ast : Nast)

/-- A rule from `->` on. -/
def ruleExprs (items : List RuleItem) (typeAst ast rest : Nast) : Nast :=
  .pair (symAst "->") (appendAst (itemsExprs false items)
    (.pair (symAst "=>") (.pair typeAst (.pair ast rest))))

/-- `:end` may stand before the rest. -/
def AtEnd (xs rest : Nast) : Prop := xs = rest ∨ xs = .pair (keywordAst "end") rest

/-- The parts of a definition, with the left side that is known before them. -/
inductive DefWritten : Option Nast → Nast → List DefPart → Prop
  | done {left : Option Nast} {rest : Nast} (h : ∀ x y, rest ≠ .pair x y) : DefWritten left rest []
  | endMark {left rest : Nast} {parts : List DefPart} (h : DefWritten none rest parts) :
    DefWritten (some left) (.pair (keywordAst "end") rest) parts
  | delims {left : Option Nast} {xs rest : Nast} {strs : List (List UInt8)} {parts : List DefPart}
    (hrest : AtEnd xs rest) (h : DefWritten none rest parts) :
    DefWritten left (.pair (keywordAst "delim") (appendAst (strs.map strAst) xs))
      (strs.map .delim ++ parts)
  | ignore {left : Option Nast} {xs rest : Nast} {written : List RuleSym} {parts : List DefPart}
    (hrest : AtEnd xs rest) (h : DefWritten none rest parts) :
    DefWritten left (.pair (keywordAst "ignore") (appendAst (written.flatMap RuleSym.exprs) xs))
      (.ignore written :: parts)
  | more {left typeAst ast rest : Nast} {items : List RuleItem} {parts : List DefPart}
    (h : DefWritten (some left) rest parts) :
    DefWritten (some left) (ruleExprs items typeAst ast rest)
      (.rule left false items typeAst ast :: parts)
  | rule {left : Option Nast} {head typeAst ast rest : Nast} {addExtra : Bool}
    {items : List RuleItem} {parts : List DefPart}
    (h : DefWritten (some (leftOf head)) rest parts) :
    DefWritten left
      (appendAst (headExprs head addExtra) (ruleExprs items typeAst ast rest))
      (.rule (leftOf head) addExtra items typeAst ast :: parts)

/-- The left sides that rules may have. -/
def IsLeft (left : Nast) : Prop := left = .atom .nil ∨ ∃ s, left = .atom (.sym s)

/-- The command of a part. -/
inductive PartCmd (E : RmacroEnv) : DefPart → FklCgRmacroCmd → Prop
  | delim (s : List UInt8) : PartCmd E (.delim s) (.addDelim (strAst s))
  | ignore {written : List RuleSym} (hvalid : ∀ s ∈ written, s.Valid ∧ s.isTerm = true) :
    PartCmd E (.ignore written)
      (.addIgnore ⟨none, none, .ast (.atom .nil), false, written.map RuleSym.graSym⟩)
  | rule {left : Nast} {addExtra : Bool} {items : List RuleItem} {typeAst ast : Nast}
    {type : ActionType} {action : FklRmacroAction} (hvalid : ∀ i ∈ items, i.2.Valid)
    (hleft : IsLeft left)
    (htype : actionTypeOf typeAst = some type)
    (haction : parseAction type ast ((ruleParts items).map RulePart.graSym) = some (.ok action)) :
    PartCmd E (.rule left addExtra items typeAst ast)
      (.addProd ⟨some left, some typeAst, action, addExtra, (ruleParts items).map RulePart.graSym⟩)

theorem ProdRest.Read.part {p : ProdRest} {left curPair rest : Nast} {addExtra : Bool}
    {cmd : FklCgRmacroCmd} (h : p.Read E left addExtra curPair cmd rest) (hleft : IsLeft left) :
    ∃ items, curPair = ruleExprs items p.typeAst p.ast rest ∧
      PartCmd E (.rule left addExtra items p.typeAst p.ast) cmd := by
  have hkinds : ∀ s ∈ p.gsyms, s.type ≠ .none := fun s hs =>
    (h.kinds s (ConcatChains.mem_foldConcatChains hs)).1
  obtain ⟨items, hread⟩ := parseRuleLoop_read h.rule hkinds nofun
  have hsyms : p.syms = (ruleParts items).map RulePart.graSym := by
    rw [ProdRest.syms, hread.syms, List.nil_append, fold_ruleSyms]
  have haction := h.hasAction
  rw [hsyms] at haction
  refine ⟨items, ?_, ?_⟩
  · rw [h.arrow, hread.exprs]
    rfl
  · rw [h.command, hsyms]
    exact PartCmd.rule hread.valid hleft h.hasType haction

theorem parseDelimLoop_read {xs rest : Nast} {cmds : List FklCgRmacroCmd}
    (h : parseDelimLoop xs = some (.ok (cmds, rest))) : ∃ (strs : List (List UInt8)) (xs' : Nast),
      AtEnd xs' rest ∧ xs = appendAst (strs.map strAst) xs' ∧
        cmds = strs.map fun s => .addDelim (strAst s) := by
  fun_induction parseDelimLoop xs generalizing cmds with
  | case1 =>
    cases h
    exact ⟨[], _, .inl rfl, rfl, rfl⟩
  | case2 cur rest' hend =>
    cases h
    rw [isKeyword_iff.mp hend]
    exact ⟨[], _, .inr rfl, rfl, rfl⟩
  | case3 cur rest' hend hstr ih =>
    obtain ⟨⟨cmds', rest''⟩, hloop, h⟩ := RmacroM.bind_ok h
    cases h
    obtain ⟨strs, xs', hrest, rfl, rfl⟩ := ih hloop
    obtain ⟨s, hs⟩ := Option.isSome_iff_exists.mp hstr
    exact ⟨s :: strs, xs', hrest, by rw [asStr_eq_some hs]; rfl, by rw [asStr_eq_some hs]; rfl⟩
  | case4 =>
    cases h
    exact ⟨[], _, .inl rfl, rfl, rfl⟩
  | case5 => cases h

theorem parseRmacroDefDelim_read {head xs rest : Nast} {cmds : List FklCgRmacroCmd}
    (h : parseRmacroDefDelim (.pair head xs) = some (.ok (cmds, rest))) :
    ∃ (strs : List (List UInt8)) (xs' : Nast),
      AtEnd xs' rest ∧ xs = appendAst (strs.map strAst) xs' ∧
        cmds = strs.map fun s => .addDelim (strAst s) := by
  unfold parseRmacroDefDelim at h
  split at h
  · cases h
  · next hpair =>
    cases hpair
    split at h
    · exact parseDelimLoop_read h
    · cases h
  · cases h

theorem parseRmacroDefIgnore_read {head xs rest : Nast} {cmd : FklCgRmacroCmd}
    (h : parseRmacroDefIgnore E (.pair head xs) = some (.ok (cmd, rest))) :
    ∃ (written : List RuleSym) (xs' : Nast),
      AtEnd xs' rest ∧ xs = appendAst (written.flatMap RuleSym.exprs) xs' ∧
        PartCmd E (.ignore written) cmd := by
  obtain ⟨head', xs', gsyms, pending, hpair, hloop, hkinds, rfl⟩ := parseRmacroDefIgnore_ok h
  cases hpair
  have hok : ∀ s ∈ gsyms, s.type ≠ .none := by
    intro s hs
    rcases hkinds s hs with h | h | h <;> simp [h]
  obtain ⟨written, hread⟩ := parseIgnoreLoop_read hloop hok
  have hvalid : ∀ s ∈ written, s.Valid ∧ s.isTerm = true := by
    intro s hs
    refine ⟨hread.valid s hs, ?_⟩
    have hkind := hkinds s.graSym (by rw [hread.syms]; simpa using ⟨s, hs, rfl⟩)
    cases s <;> simp_all [RuleSym.graSym, RuleSym.isTerm]
  rw [hread.syms, List.nil_append]
  exact hread.exprs.elim (fun h => ⟨written, rest, .inl rfl, h, PartCmd.ignore hvalid⟩)
    fun h => ⟨written, _, .inr rfl, h, PartCmd.ignore hvalid⟩

theorem forall₂_delims (strs : List (List UInt8)) :
    List.Forall₂ (PartCmd E) (strs.map .delim) (strs.map fun s => .addDelim (strAst s)) := by
  induction strs with
  | nil => exact List.Forall₂.nil
  | cons s strs ih => exact List.Forall₂.cons (PartCmd.delim s) ih

theorem isLeft_leftOf {cur : Nast}
    (h : (isKeyword "s-exp" cur || (asSym cur).isSome) = true) : IsLeft (leftOf cur) := by
  unfold leftOf
  split
  · exact .inl rfl
  · next hne =>
    rw [eq_false_of_ne_true hne, Bool.false_or] at h
    obtain ⟨s, hs⟩ := Option.isSome_iff_exists.mp h
    unfold asSym at hs
    split at hs
    · exact .inr ⟨_, rfl⟩
    · cases hs

/-- What the parser accepts is written as a definition is, and has the commands of its parts. -/
theorem parseReaderMacroDef_written {left : Option Nast} {rest : Nast} {cmds : List FklCgRmacroCmd}
    (h : parseReaderMacroDef E left rest = some (.ok cmds)) (hleft : ∀ l ∈ left, IsLeft l) :
    ∃ parts, DefWritten left rest parts ∧ List.Forall₂ (PartCmd E) parts cmds := by
  fun_induction parseReaderMacroDef E left rest generalizing cmds with
  | case2 cur tail hcur l ih =>
    obtain ⟨parts, hparts, hcmds⟩ := ih h nofun
    rw [isKeyword_iff.mp hcur]
    exact ⟨parts, DefWritten.endMark hparts, hcmds⟩
  | case5 left cur tail hend hcur cmd rest hread ih =>
    obtain ⟨cmds', hrec, h⟩ := RmacroM.bind_ok h
    cases h
    obtain ⟨written, xs, hrest, rfl, hcmd⟩ := parseRmacroDefIgnore_read hread
    obtain ⟨parts, hparts, hcmds⟩ := ih hrec nofun
    rw [isKeyword_iff.mp hcur]
    exact ⟨_, DefWritten.ignore hrest hparts, List.Forall₂.cons hcmd hcmds⟩
  | case8 left cur tail hend hignore hcur cmds₁ rest hread ih =>
    obtain ⟨cmds', hrec, h⟩ := RmacroM.bind_ok h
    cases h
    obtain ⟨strs, xs, hrest, rfl, rfl⟩ := parseRmacroDefDelim_read hread
    obtain ⟨parts, hparts, hcmds⟩ := ih hrec nofun
    rw [isKeyword_iff.mp hcur]
    exact ⟨_, DefWritten.delims hrest hparts, List.rel_append (forall₂_delims strs) hcmds⟩
  | case12 cur tail hend hignore hdelim hcur l cmd rest hread ih =>
    obtain ⟨cmds', hrec, h⟩ := RmacroM.bind_ok h
    cases h
    obtain ⟨p, hp⟩ := ProdRest.of_parse hread
    obtain ⟨items, hexprs, hcmd⟩ := hp.part (hleft l rfl)
    obtain ⟨parts, hparts, hcmds⟩ := ih hrec hleft
    rw [hexprs]
    exact ⟨_, DefWritten.more hparts, List.Forall₂.cons hcmd hcmds⟩
  | case16 left cur tail hend hignore hdelim harrow hbad hcur cmd rest hread ih =>
    obtain ⟨cmds', hrec, h⟩ := RmacroM.bind_ok h
    cases h
    obtain ⟨head, addExtra, afterHead, hpair, -, hrest⟩ := parseRmacroDefProd_ok hread
    obtain rfl : cur = head := by cases addExtra <;> exact (Nast.pair.inj hpair).1
    have hnew : IsLeft (leftOf cur) := isLeft_leftOf hcur
    obtain ⟨p, hp⟩ := ProdRest.of_parse hrest
    obtain ⟨items, hexprs, hcmd⟩ := hp.part hnew
    obtain ⟨parts, hparts, hcmds⟩ := ih hrec fun l hl => Option.some.inj hl ▸ hnew
    rw [hpair, hexprs]
    exact ⟨_, DefWritten.rule hparts, List.Forall₂.cons hcmd hcmds⟩
  | case18 =>
    cases h
    exact ⟨[], DefWritten.done (by assumption), List.Forall₂.nil⟩
  | _ => cases h

end FakeLisp.GrammerTables
