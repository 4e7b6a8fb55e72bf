import FakeLisp.RmacroExec
import FakeLisp.RuleInText

/-! A rule of a reader macro keeps its symbols, and is read as the same rule in a grammar text,
when it has no `:keyword`, its regular expressions compile and the arguments of its builtin
terminals are delimiters already. -/

namespace FakeLisp.GrammerTables

open ConcatChains RightPart FakeLisp.GrammerTables.FklGrammer

/-- The production `q` of the grammar `g'` that the rule has made of `g`. -/
structure RuleKept (E : RmacroEnv) (name : List UInt8) (items : List RuleItem)
    (g g' : FklGrammer RmacroAct) (q : FklGrammerProduction RmacroAct) : Prop where
  texts : q.rhs g'.regexes = (ruleParts items).map (RulePart.text E name)
  delims : ∀ d, d ∈ g'.delimiters.keys ↔ d ∈ g.delimiters.keys ∨ d ∈ ruleDelims items
  asText : ∀ (A : Actions RmacroAct) (left : Nat) (buf actionName rest : List UInt8)
    (action : RmacroAct), E.toGrammerEnv.isBuiltin left = false →
      RightPartIn E name items buf actionName rest → resolveAction A actionName = some action →
      ∃ g₂, parseRightPart E A g left buf = .ok (g₂, rest) ∧
        (∃ q₂ ∈ g₂.prodsOf left, q₂.rhs g₂.regexes = q.rhs g'.regexes) ∧
        ∀ d, d ∈ g₂.delimiters.keys ↔ d ∈ g'.delimiters.keys

structure RuleClean (E : RmacroEnv) (items : List RuleItem) (g : FklGrammer RmacroAct) : Prop where
  noKeyword : ∀ i ∈ items, ∀ s, i.2 ≠ .keyword s
  compiles : ∀ i ∈ items, ∀ s, i.2 = .regex s → E.compiles s = true
  short : ∀ len, .comp len ∈ ruleParts items → len < 2 ^ 32
  args : ∀ i ∈ items, ∀ sym b args, i.2 = .builtinVec sym b args → ∀ a ∈ args,
    a ∈ g.delimiters.keys ∨ ∃ j ∈ items, j.2 = .string a

variable {E : RmacroEnv} {name : List UInt8} {items : List RuleItem} {g g' : FklGrammer RmacroAct}

theorem madeText_eq_iff {p : RulePart} : p.madeText E name = p.text E name ↔
    (∀ s, p ≠ .sym (.keyword s)) ∧ (∀ s, p = .sym (.regex s) → E.compiles s = true) ∧
      ∀ len, p = .comp len → len < 2 ^ 32 := by
  cases p with
  | ignore => simp [RulePart.madeText, RulePart.text]
  | comp len =>
    simp only [RulePart.madeText, RulePart.text, SymText.comp.injEq, ne_eq, reduceCtorEq,
      not_false_eq_true, implies_true, false_implies, true_and, RulePart.comp.injEq, forall_eq']
    omega
  | sym s =>
    cases s with
    | regex s =>
      cases hs : E.compiles s <;>
        simp [RulePart.madeText, RulePart.text, RuleSym.madeText, RuleSym.text, regexText, hs]
    | _ => simp [RulePart.madeText, RulePart.text, RuleSym.madeText, RuleSym.text]

theorem texts_iff : (ruleParts items).map (RulePart.madeText E name) =
      (ruleParts items).map (RulePart.text E name) ↔
    (∀ i ∈ items, ∀ s, i.2 ≠ .keyword s) ∧
      (∀ i ∈ items, ∀ s, i.2 = .regex s → E.compiles s = true) ∧
      ∀ len, .comp len ∈ ruleParts items → len < 2 ^ 32 := by
  rw [List.map_inj_left]
  simp only [madeText_eq_iff]
  constructor
  · intro h
    refine ⟨fun i hi s hs => ?_, fun i hi s hs => ?_, fun len hlen => (h _ hlen).2.2 len rfl⟩
    · exact (h _ (sym_mem_ruleParts.mpr ⟨i, hi, hs⟩)).1 s rfl
    · exact (h _ (sym_mem_ruleParts.mpr ⟨i, hi, hs⟩)).2.1 s rfl
  · rintro ⟨hkeyword, hregex, hcomp⟩ p hp
    refine ⟨fun s hs => ?_, fun s hs => ?_, fun len hlen => hcomp len (hlen ▸ hp)⟩
    · obtain ⟨i, hi, heq⟩ := sym_mem_ruleParts.mp (hs ▸ hp)
      exact hkeyword i hi s heq
    · obtain ⟨i, hi, heq⟩ := sym_mem_ruleParts.mp (hs ▸ hp)
      exact hregex i hi s heq

theorem mem_madeDelims {d : List UInt8} :
    d ∈ (ruleParts items).flatMap RulePart.madeDelims ↔ ∃ i ∈ items, i.2 = .string d := by
  rw [List.mem_flatMap, ← sym_mem_ruleParts]
  constructor
  · rintro ⟨p, hp, hd⟩
    cases p with
    | ignore | comp => cases hd
    | sym s =>
      cases s with
      | string s =>
        obtain rfl := List.mem_singleton.mp hd
        exact hp
      | _ => cases hd
  · exact fun h => ⟨_, h, List.mem_singleton_self d⟩

theorem mem_ruleDelims {d : List UInt8} : d ∈ ruleDelims items ↔ (∃ i ∈ items, i.2 = .string d) ∨
    ∃ i ∈ items, ∃ sym b args, i.2 = .builtinVec sym b args ∧ d ∈ args := by
  rw [ruleDelims, List.mem_flatMap, ← exists_or]
  refine exists_congr fun i => ?_
  rw [← and_or_left]
  refine and_congr_right fun _ => ?_
  cases i.2 <;> simp [RuleSym.delims, eq_comm]

theorem delims_iff : (∀ d, (d ∈ g.delimiters.keys ∨
        d ∈ (ruleParts items).flatMap RulePart.madeDelims) ↔
      d ∈ g.delimiters.keys ∨ d ∈ ruleDelims items) ↔
    ∀ i ∈ items, ∀ sym b args, i.2 = .builtinVec sym b args → ∀ a ∈ args,
      a ∈ g.delimiters.keys ∨ ∃ j ∈ items, j.2 = .string a := by
  simp only [mem_madeDelims, mem_ruleDelims]
  constructor
  · intro h i hi sym b args hs a ha
    exact (h a).mpr (.inr (.inr ⟨i, hi, sym, b, args, hs, ha⟩))
  · intro h d
    refine ⟨fun hd => hd.imp id .inl, fun hd => ?_⟩
    rcases hd with hd | hd | ⟨i, hi, sym, b, args, hs, ha⟩
    · exact .inl hd
    · exact .inr hd
    · exact h i hi sym b args hs d ha

theorem RuleClean.pgText (h : RuleClean E items g) :
    (ruleParts items).map (RulePart.pgText E name) =
      (ruleParts items).map (RulePart.text E name) := by
  refine List.map_congr_left fun p hp => ?_
  cases p with
  | ignore => rfl
  | comp len =>
    have hlt := h.short len hp
    simp only [RulePart.pgText, RulePart.text, SymText.comp.injEq]
    omega
  | sym s =>
    cases s with
    | regex s =>
      obtain ⟨i, hi, hs⟩ := sym_mem_ruleParts.mp hp
      simp [RulePart.pgText, RulePart.text, RuleSym.pgText, RuleSym.text, regexText,
        h.compiles i hi s hs]
    | _ => rfl

theorem Made.kept_iff {left : Nast} {t' : SymTables} {out q : FklGrammerProduction RmacroAct}
    (h : Made E name g left items t' out) (hg : g.Good E.toGrammerEnv)
    (hvalid : ∀ i ∈ items, i.2.Valid) (hq : q.syms = out.syms) (ht : g'.toSymTables = t') :
    RuleKept E name items g g' q ↔ RuleClean E items g := by
  have hrhs : q.rhs g'.regexes = (ruleParts items).map (RulePart.madeText E name) := by
    rw [FklGrammerProduction.rhs, hq, ht]
    exact h.syms.text
  have hdelims : ∀ d, d ∈ g'.delimiters.keys ↔
      d ∈ g.delimiters.keys ∨ d ∈ (ruleParts items).flatMap RulePart.madeDelims := by
    rw [ht]
    exact h.syms.extends_.delims
  constructor
  · intro hkept
    obtain ⟨hkeyword, hregex, hcomp⟩ := texts_iff.mp (hrhs.symm.trans hkept.texts)
    refine ⟨hkeyword, hregex, hcomp, delims_iff.mp fun d => ?_⟩
    rw [← hdelims, hkept.delims]
  · intro hclean
    have htexts := hrhs.trans (texts_iff.mpr ⟨hclean.noKeyword, hclean.compiles, hclean.short⟩)
    have hall : ∀ d, d ∈ g'.delimiters.keys ↔ d ∈ g.delimiters.keys ∨ d ∈ ruleDelims items :=
      fun d => (hdelims d).trans (delims_iff.mpr hclean.args d)
    refine ⟨htexts, hall, fun A left buf actionName rest action hleft hin haction => ?_⟩
    obtain ⟨g₂, hparse, ⟨q₂, hq₂, hrhs₂⟩, hdelims₂⟩ :=
      parseRightPart_rule hg hleft hvalid hin haction
    refine ⟨g₂, hparse, ⟨q₂, hq₂, ?_⟩, fun d => (hdelims₂ d).trans (hall d).symm⟩
    rw [hrhs₂, hclean.pgText, htexts]

theorem forall₂_split {α β : Type} {R : α → β → Prop} {as : List α} {pre post : List β} {b : β}
    (h : List.Forall₂ R as (pre ++ b :: post)) :
    ∃ as₁ a as₂, as = as₁ ++ a :: as₂ ∧ List.Forall₂ R as₁ pre ∧ R a b := by
  induction pre generalizing as with
  | nil =>
    obtain ⟨a, as₂, hab, -, rfl⟩ := List.forall₂_cons_right_iff.mp h
    exact ⟨[], a, as₂, rfl, List.Forall₂.nil, hab⟩
  | cons b' pre ih =>
    obtain ⟨a', as', hab', hrest, rfl⟩ := List.forall₂_cons_right_iff.mp h
    obtain ⟨as₁, a, as₂, rfl, hfirst, hab⟩ := ih hrest
    exact ⟨a' :: as₁, a, as₂, rfl, List.Forall₂.cons hab' hfirst, hab⟩

/-- The rule that a command of a definition has been made of, and the production that it adds. -/
theorem ruleKept_iff_clean {definition : Nast} {cmds pre post : FklVMvalueCgRmacro}
    {prod : FklVMvalueCgRmacroProd} {g₀ : FklGrammer RmacroAct}
    (hdef : fklCgParseReaderMacroDefine E definition = some (.ok cmds))
    (hg₀ : g₀.Good E.toGrammerEnv) (hcmds : cmds = pre ++ .addProd prod :: post)
    (hpre : fklExecuteCgRmacro E name g₀ pre = some (false, g))
    (hrun : rmacroCmd E name g (.addProd prod) = some (false, g')) :
    ∃ parts left addExtra items typeAst ast, DefWritten none definition parts ∧
      parts[pre.length]? = some (.rule left addExtra items typeAst ast) ∧
      ∃ nt, ∃ q ∈ g'.prodsOf nt, q.idx = g.prodCount ∧
        (RuleKept E name items g g' q ↔ RuleClean E items g) := by
  obtain ⟨parts, hparts, hforall⟩ := parseReaderMacroDef_written hdef nofun
  obtain ⟨parts₁, part, parts₂, rfl, hfirst, hpart⟩ := forall₂_split (hcmds ▸ hforall)
  have hg := fklExecuteCgRmacro_good hfirst hg₀ hpre
  have hlen := hfirst.length_eq
  cases hpart with
  | @rule left addExtra items typeAst ast type action hvalid hleft htype haction =>
    refine ⟨_, left, addExtra, items, typeAst, ast, hparts, by simp [← hlen], ?_⟩
    obtain ⟨t', out, hmade, ⟨-, hcmd⟩ | ⟨-, -, hcmd⟩ | ⟨-, -, g₁, hcmd, hadded⟩⟩ :=
      doRmacroAddProd_spec name (PartCmd.rule hvalid hleft htype haction) hg
    · cases hcmd.symm.trans hrun
    · cases hcmd.symm.trans hrun
    · cases hcmd.symm.trans hrun
      exact ⟨_, _, hadded.mem, rfl, hmade.kept_iff hg hvalid rfl hadded.tables⟩

/-! Definitions of one rule. -/

def oneRuleDef (s : RuleSym) : Nast :=
  appendAst [symAst "foo"]
    (ruleExprs [(false, s)] (symAst "builtin") (symAst "first") (.atom .nil))

def oneRuleProd (s : RuleSym) : FklVMvalueCgRmacroProd :=
  ⟨some (symAst "foo"), some (symAst "builtin"), .ast (symAst "first"), false, [s.graSym]⟩

theorem fold_single (s : RuleSym) : fklGraFoldConcatChains [s.graSym] = [s.graSym] := by
  have h := fold_ruleSyms [(false, s)]
  exact h

theorem RmacroM.ok_bind {α β : Type} {a : RmacroM α} {x : α} (h : a = some (.ok x))
    (f : α → RmacroM β) : (a >>= f) = f x := by
  rw [h]
  rfl

theorem oneRuleDef_prod {s : RuleSym}
    (hkind : s.graSym.type ≠ .none ∧ s.graSym.type ≠ .eof)
    (hloop : ∀ rest, parseRuleLoop E [] false none
      (appendAst (itemsExprs false [(false, s)]) (.pair (symAst "=>") rest)) =
        some (.ok (.pair (symAst "=>") rest, [s.graSym], none)))
    (hfoo : bytesOf "foo" ∉ E.builtinNonterms) :
    parseRmacroDefProd E (oneRuleDef s) =
      some (.ok (.addProd (oneRuleProd s), .atom .nil)) := by
  have hrest : parseRmacroDefProdRest E (symAst "foo") false
      (ruleExprs [(false, s)] (symAst "builtin") (symAst "first") (.atom .nil)) =
        some (.ok (.addProd (oneRuleProd s), .atom .nil)) := by
    unfold parseRmacroDefProdRest ruleExprs
    dsimp only
    rw [if_neg (by decide), RmacroM.ok_bind (hloop _)]
    have htype : actionTypeOf (symAst "builtin") = some .builtin := by decide
    simp only [htype, fold_single]
    rw [if_neg (by simp [hkind])]
    rfl
  have hleft : checkLeft E (symAst "foo") = some (.ok ()) := by
    unfold checkLeft
    simp only [symAst, asSym]
    rw [if_neg hfoo, if_neg (by decide)]
    rfl
  exact (RmacroM.ok_bind hleft _).trans hrest

theorem oneRuleDef_parsed {s : RuleSym}
    (hprod : parseRmacroDefProd E (oneRuleDef s) =
      some (.ok (.addProd (oneRuleProd s), .atom .nil))) :
    fklCgParseReaderMacroDefine E (oneRuleDef s) = some (.ok [.addProd (oneRuleProd s)]) := by
  rw [oneRuleDef, appendAst, appendAst] at hprod
  rw [fklCgParseReaderMacroDefine, oneRuleDef, appendAst, appendAst, parseReaderMacroDef,
    if_neg (by decide), if_neg (by decide), if_neg (by decide), if_neg (by decide),
    if_neg (by decide), if_pos (by decide)]
  split
  · next h => cases hprod.symm.trans h
  · next h => cases hprod.symm.trans h
  · next cmd rest h =>
    cases hprod.symm.trans h
    rw [parseReaderMacroDef]
    · rfl
    · simp

theorem oneRuleDef_added {s : RuleSym} (name : List UInt8) (hs : s.Valid)
    (hpart : ruleParts [(false, s)] = [.sym s]) :
    ∃ t' out g', Made E name fklInitEmptyGrammer (symAst "foo") [(false, s)] t' out ∧
      rmacroCmd E name fklInitEmptyGrammer (.addProd (oneRuleProd s)) = some (false, g') ∧
      RuleAdded E false t' out fklInitEmptyGrammer g' := by
  have hvalid : ∀ i ∈ [((false, s) : RuleItem)], i.2.Valid := by simpa using hs
  have hcmd : PartCmd E (.rule (symAst "foo") false [(false, s)] (symAst "builtin")
      (symAst "first")) (.addProd (oneRuleProd s)) := by
    have hrule := @PartCmd.rule E (symAst "foo") false _ (symAst "builtin") (symAst "first")
      .builtin (.ast (symAst "first")) hvalid (.inr ⟨_, rfl⟩) (by decide) (by rfl)
    rw [hpart] at hrule
    exact hrule
  obtain ⟨t', out, hmade, ⟨hmem, -⟩ | ⟨-, ⟨hextra, -⟩, -⟩ | ⟨-, -, g', hrun, hadded⟩⟩ :=
    doRmacroAddProd_spec name hcmd good_empty
  · cases hmem
  · cases hextra
  · exact ⟨t', out, g', hmade, hrun, hadded⟩

theorem oneRuleDef_run {s : RuleSym} (name : List UInt8) (hs : s.Valid)
    (hpart : ruleParts [(false, s)] = [.sym s]) :
    ∃ g' q, rmacroCmd E name fklInitEmptyGrammer (.addProd (oneRuleProd s)) = some (false, g') ∧
      q ∈ g'.prodsOf (E.symbol (makeQualifiedSym name (bytesOf "foo"))) ∧ q.idx = 0 ∧
        (RuleKept E name [(false, s)] fklInitEmptyGrammer g' q ↔
          RuleClean E [(false, s)] fklInitEmptyGrammer) := by
  have hvalid : ∀ i ∈ [((false, s) : RuleItem)], i.2.Valid := by simpa using hs
  obtain ⟨t', out, g', hmade, hrun, hadded⟩ := oneRuleDef_added (E := E) name hs hpart
  have hmem := hadded.mem
  rw [hmade.left_eq] at hmem
  exact ⟨g', _, hrun, hmem, rfl, hmade.kept_iff good_empty hvalid rfl hadded.tables⟩

theorem parseRuleLoop_end_one {s : RuleSym} (rest : Nast) :
    parseRuleLoop E [s.graSym] true none (.pair (symAst "=>") rest) =
      some (.ok (.pair (symAst "=>") rest, [s.graSym], none)) := by
  have hend : isSym "=>" (symAst "=>") = true := by decide
  unfold parseRuleLoop
  rw [if_pos hend]
  rfl

theorem keywordRule_loop (str : List UInt8) (rest : Nast) :
    parseRuleLoop E [] false none
      (appendAst (itemsExprs false [(false, .keyword str)]) (.pair (symAst "=>") rest)) =
        some (.ok (.pair (symAst "=>") rest, [(RuleSym.keyword str).graSym], none)) := by
  have hend : ¬isSym "=>" (keywordAst "keyword") = true := by decide
  have hregex : ¬isKeyword "regex" (keywordAst "keyword") = true := by decide
  have hkeyword : isKeyword "keyword" (keywordAst "keyword") = true := by decide
  change parseRuleLoop E [] false none (.pair (keywordAst "keyword") (.pair (strAst str)
    (.pair (symAst "=>") rest))) = _
  unfold parseRuleLoop
  rw [if_neg hend, if_neg hregex, if_pos hkeyword]
  exact parseRuleLoop_end_one (s := .keyword str) rest

theorem stringRule_loop (str : List UInt8) (rest : Nast) :
    parseRuleLoop E [] false none
      (appendAst (itemsExprs false [(false, .string str)]) (.pair (symAst "=>") rest)) =
        some (.ok (.pair (symAst "=>") rest, [(RuleSym.string str).graSym], none)) := by
  change parseRuleLoop E [] false none (.pair (strAst str) (.pair (symAst "=>") rest)) = _
  unfold parseRuleLoop
  rw [if_neg (by simp [isSym, strAst]), if_neg (by simp [isKeyword, strAst]),
    if_neg (by simp [isKeyword, strAst])]
  exact parseRuleLoop_end_one (s := .string str) rest

/-- The keyword `"if"` becomes a string terminal. -/
theorem keyword_not_kept : ∃ prod, fklCgParseReaderMacroDefine (sExpEnv fun _ => true)
      (oneRuleDef (.keyword (bytesOf "if"))) = some (.ok [.addProd prod]) ∧
    ∃ g' q, rmacroCmd (sExpEnv fun _ => true) (bytesOf "lib") fklInitEmptyGrammer (.addProd prod) =
        some (false, g') ∧
      q ∈ g'.prodsOf ((sExpEnv fun _ => true).symbol (bytesOf "lib/foo")) ∧ q.idx = 0 ∧
      ¬RuleKept (sExpEnv fun _ => true) (bytesOf "lib") [(false, .keyword (bytesOf "if"))]
        fklInitEmptyGrammer g' q := by
  have hprod := oneRuleDef_prod (E := sExpEnv fun _ => true) (s := .keyword (bytesOf "if"))
    (by decide) (keywordRule_loop _) (by decide)
  obtain ⟨g', q, hrun, hq, hidx, hkept⟩ := oneRuleDef_run (E := sExpEnv fun _ => true)
    (s := .keyword (bytesOf "if")) (bytesOf "lib") trivial rfl
  exact ⟨_, oneRuleDef_parsed hprod, g', q, hrun, hq, hidx, fun h =>
    (hkept.mp h).noKeyword _ List.mem_cons_self _ rfl⟩

theorem string_kept : ∃ parts items, DefWritten none (oneRuleDef (.string (bytesOf "a"))) parts ∧
    (∃ left addExtra typeAst ast,
      parts[0]? = some (.rule left addExtra items typeAst ast)) ∧
    ∃ g' nt, ∃ q ∈ g'.prodsOf nt, q.idx = 0 ∧
      (RuleKept (sExpEnv fun _ => true) (bytesOf "lib") items fklInitEmptyGrammer g' q ↔
        RuleClean (sExpEnv fun _ => true) items fklInitEmptyGrammer) := by
  have hprod := oneRuleDef_prod (E := sExpEnv fun _ => true) (s := .string (bytesOf "a"))
    (by decide) (stringRule_loop _) (by decide)
  obtain ⟨g', q, hrun, -⟩ := oneRuleDef_run (E := sExpEnv fun _ => true)
    (s := .string (bytesOf "a")) (bytesOf "lib") trivial rfl
  obtain ⟨parts, left, addExtra, items, typeAst, ast, hparts, hpart, nt, q, hq, hidx, hkept⟩ :=
    @ruleKept_iff_clean _ _ _ _ _ _ [] [] _ _ (oneRuleDef_parsed hprod) good_empty rfl rfl hrun
  exact ⟨parts, items, hparts, ⟨left, addExtra, typeAst, ast, hpart⟩, g', nt, q, hq, hidx, hkept⟩

end FakeLisp.GrammerTables
