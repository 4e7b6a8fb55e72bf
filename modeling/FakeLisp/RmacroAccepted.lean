import FakeLisp.RuleKept

/-! What the parser of reader macros lets through is run without an assertion that fails and
without a regular expression that is `NULL`, if the regular expressions of the definition compile
and it does not put the start symbol under itself. -/

namespace FakeLisp.GrammerTables

open FakeLisp.GrammerTables.FklGrammer

variable {E : RmacroEnv} {name : List UInt8} {g g' : FklGrammer RmacroAct}

/-- A left side with one of its right sides. -/
abbrev ProdKey := Nat × List SymText

namespace DefPart

def syms : DefPart → List RuleSym
  | delim _ => []
  | ignore written => written
  | rule _ _ items _ _ => items.map (·.2)

/-- The production of a rule. -/
def key (E : RmacroEnv) (name : List UInt8) : DefPart → Option ProdKey
  | rule left _ items _ _ =>
    some (E.symbol (ruleLeft E name left), (ruleParts items).map (RulePart.madeText E name))
  | _ => none

/-- The productions that a part adds. -/
def keys (E : RmacroEnv) (name : List UInt8) : DefPart → List ProdKey
  | rule left addExtra items _ _ =>
    (E.symbol (ruleLeft E name left), (ruleParts items).map (RulePart.madeText E name)) ::
      if addExtra then [(E.symbol E.start, [.nonterm (E.symbol (ruleLeft E name left))])] else []
  | _ => []

/-- The rule `:s-exp :s-exp -> …` -/
def StartExtra : DefPart → Prop
  | rule left addExtra _ _ _ => addExtra = true ∧ left = .atom .nil
  | _ => False

end DefPart

/-- Before each rule `:s-exp :s-exp -> …` the definition has added one of its productions twice. -/
def StopsBefore (E : RmacroEnv) (name : List UInt8) : List ProdKey → List DefPart → Prop
  | _, [] => True
  | known, part :: parts => (∃ k ∈ part.key E name, k ∈ known) ∨
      ¬part.StartExtra ∧ StopsBefore E name (known ++ part.keys E name) parts

def NoNullRegex (g : FklGrammer RmacroAct) : Prop :=
  (∀ nt, ∀ p ∈ g.prodsOf nt, ∀ s ∈ p.syms, ¬SymTables.NullRegex s) ∧
    ∀ ig ∈ g.ignores, ∀ s ∈ ig, ¬SymTables.NullRegex (.term s)

def ArgsChecked (g : FklGrammer RmacroAct) : Prop :=
  (∀ nt, ∀ p ∈ g.prodsOf nt, ∀ b, .term (.builtin b) ∈ p.syms →
      fklBuiltinTermArgsCheck b.t b.args.length = .dummy) ∧
    ∀ ig ∈ g.ignores, ∀ b, .builtin b ∈ ig → fklBuiltinTermArgsCheck b.t b.args.length = .dummy

/-- What is expected of the commands of an accepted definition. -/
structure RunsSafely (E : RmacroEnv) (name : List UInt8) (parts : List DefPart)
    (cmds : FklVMvalueCgRmacro) : Prop where
  compiles : ∀ part ∈ parts, ∀ s, .regex s ∈ part.syms → E.compiles s = true
  runs : ∀ g, g.Good E.toGrammerEnv →
    ∃ error g', fklExecuteCgRmacro E name g cmds = some (error, g')
  noNull : ∀ g error g', g.Good E.toGrammerEnv → NoNullRegex g →
    fklExecuteCgRmacro E name g cmds = some (error, g') → NoNullRegex g'
  args : ∀ g error g', g.Good E.toGrammerEnv →
    fklExecuteCgRmacro E name g cmds = some (error, g') → ArgsChecked g'

/-! Regular expressions. -/

theorem Converted.noNull {t t' : SymTables} {xs : List SymText} {ds : List (List UInt8)}
    {ss : List FklGrammerSym} (h : Converted E t xs ds t' ss)
    (hxs : ∀ x ∈ xs, x ≠ .term (.regex none)) : ∀ s ∈ ss, ¬SymTables.NullRegex s := by
  intro s hs hnull
  refine hxs (s.text t'.regexes) (h.text ▸ List.mem_map_of_mem hs) ?_
  cases s with
  | term s =>
    cases s with
    | regex re =>
      obtain rfl : re = none := hnull
      rfl
    | _ => cases hnull
  | _ => cases hnull

theorem madeText_noNull {s : RuleSym} (hs : ∀ str, s = .regex str → E.compiles str = true) :
    s.madeText E name ≠ .term (.regex none) := by
  cases s with
  | regex str => simp [RuleSym.madeText, regexText, hs str rfl]
  | _ => simp [RuleSym.madeText, RuleSym.text]

theorem partText_noNull {items : List RuleItem}
    (hitems : ∀ s, .regex s ∈ items.map (·.2) → E.compiles s = true) :
    ∀ x ∈ (ruleParts items).map (RulePart.madeText E name), x ≠ .term (.regex none) := by
  intro x hx
  obtain ⟨p, hp, rfl⟩ := List.mem_map.mp hx
  cases p with
  | ignore | comp => simp [RulePart.madeText]
  | sym s =>
    refine madeText_noNull fun str hs => hitems str ?_
    obtain ⟨i, hi, heq⟩ := sym_mem_ruleParts.mp hp
    exact List.mem_map.mpr ⟨i, hi, heq.trans hs⟩

theorem PlainAdded.noNull {written : List RuleSym} (h : PlainAdded E written g g')
    (hwritten : ∀ s, .regex s ∈ written → E.compiles s = true) (hg : NoNullRegex g) :
    NoNullRegex g' := by
  refine ⟨fun nt p hp => hg.1 nt p (h.prods nt ▸ hp), fun ig hig s hs => ?_⟩
  rcases h.ignores ig hig with hig | ⟨ds, t', hconv⟩
  · exact hg.2 ig hig s hs
  · refine hconv.noNull (fun x hx => ?_) _ (List.mem_map_of_mem hs)
    obtain ⟨r, hr, rfl⟩ := List.mem_map.mp hx
    exact madeText_noNull fun str heq => hwritten str (heq ▸ hr)

theorem RuleAdded.noNull {addExtra : Bool} {left : Nast} {items : List RuleItem} {t' : SymTables}
    {out : FklGrammerProduction RmacroAct} (h : RuleAdded E addExtra t' out g g')
    (hmade : Made E name g left items t' out)
    (hitems : ∀ s, .regex s ∈ items.map (·.2) → E.compiles s = true) (hg : NoNullRegex g) :
    NoNullRegex g' := by
  refine ⟨fun nt p hp => ?_, h.ignores ▸ hg.2⟩
  rcases h.prods nt p hp with hp | hsyms | hsyms
  · exact hg.1 nt p hp
  · rw [hsyms]
    exact hmade.syms.noNull (partText_noNull hitems)
  · rw [hsyms]
    simp [SymTables.NullRegex]

/-! One command. -/

/-- How a command ends. -/
inductive CmdOutcome (E : RmacroEnv) (name : List UInt8) (part : DefPart)
    (g : FklGrammer RmacroAct) : Option (Bool × FklGrammer RmacroAct) → Prop
  | error {t' : SymTables} (hkey : ∃ k ∈ part.key E name, k.2 ∈ g.rhss k.1) :
    CmdOutcome E name part g (some (true, { g with toSymTables := t' }))
  | stuck (hextra : part.StartExtra) (hnew : ∀ k ∈ part.key E name, k.2 ∉ g.rhss k.1) :
    CmdOutcome E name part g none
  | ok {g' : FklGrammer RmacroAct} (hextra : ¬part.StartExtra)
    (hnew : ∀ k ∈ part.key E name, k.2 ∉ g.rhss k.1)
    (hrhss : ∀ nt x, x ∈ g'.rhss nt ↔ x ∈ g.rhss nt ∨ (nt, x) ∈ part.keys E name)
    (hnull : (∀ s, .regex s ∈ part.syms → E.compiles s = true) → NoNullRegex g → NoNullRegex g') :
    CmdOutcome E name part g (some (false, g'))

theorem PlainAdded.outcome {part : DefPart} (h : PlainAdded E part.syms g g')
    (hkey : part.key E name = none) (hkeys : part.keys E name = []) (hextra : ¬part.StartExtra) :
    CmdOutcome E name part g (some (false, g')) :=
  CmdOutcome.ok hextra (by simp [hkey]) (fun nt x => by simp [h.rhss, hkeys]) h.noNull

theorem rmacroCmd_outcome (name : List UInt8) {part : DefPart} {cmd : FklCgRmacroCmd}
    (hpart : PartCmd E part cmd) (hg : g.Good E.toGrammerEnv) : CmdOutcome E name part g (rmacroCmd E name g cmd) := by
  cases hpart with
  | delim s =>
    obtain ⟨g', hcmd, hadded⟩ := addDelim_added name hg s
    rw [hcmd]
    exact PlainAdded.outcome hadded rfl rfl id
  | ignore hwritten =>
    obtain ⟨g', hcmd, hadded⟩ := addIgnore_added name hg hwritten
    rw [hcmd]
    exact PlainAdded.outcome hadded rfl rfl id
  | @rule left addExtra items typeAst ast type action hvalid hleft htype haction =>
    obtain ⟨t', out, hmade,
        ⟨hmem, hcmd⟩ | ⟨hmem, hextra, hcmd⟩ | ⟨hmem, hextra, g', hcmd, hadded⟩⟩ :=
      doRmacroAddProd_spec name (PartCmd.rule hvalid hleft htype haction) hg
    all_goals
      have hrhs : out.rhs t'.regexes = (ruleParts items).map (RulePart.madeText E name) :=
        hmade.syms.text
      rw [hrhs, hmade.left_eq] at hmem
      rw [rmacroCmd, hcmd]
    · exact CmdOutcome.error ⟨_, rfl, hmem⟩
    · exact CmdOutcome.stuck hextra fun k hk => Option.some.inj hk ▸ hmem
    · refine CmdOutcome.ok hextra (fun k hk => Option.some.inj hk ▸ hmem) (fun nt x => ?_)
        (hadded.noNull hmade)
      rw [hadded.rhss, hrhs, hmade.left_eq]
      cases addExtra <;> simp [DefPart.keys, eq_comm]

/-! Runs. -/

variable {parts : List DefPart} {cmds : FklVMvalueCgRmacro} {known : List ProdKey}

/-- A run that stops in time is one of the known productions ahead. -/
theorem run_defined (hparts : List.Forall₂ (PartCmd E) parts cmds) (hg : g.Good E.toGrammerEnv)
    (hknown : ∀ k ∈ known, k.2 ∈ g.rhss k.1) (h : StopsBefore E name known parts) :
    ∃ error g', fklExecuteCgRmacro E name g cmds = some (error, g') := by
  induction hparts generalizing g known with
  | nil => exact ⟨false, g, rfl⟩
  | @cons part cmd parts cmds hpart _ ih =>
    have hout := rmacroCmd_outcome name hpart hg
    unfold fklExecuteCgRmacro
    generalize hcmd : rmacroCmd E name g cmd = r at hout
    cases hout with
    | error hkey => exact ⟨true, _, rfl⟩
    | stuck hextra hnew =>
      rcases h with ⟨k, hk, hmem⟩ | ⟨hnot, -⟩
      · exact absurd (hknown k hmem) (hnew k hk)
      · exact absurd hextra hnot
    | ok hextra hnew hrhss hnull =>
      rcases h with ⟨k, hk, hmem⟩ | ⟨-, h⟩
      · exact absurd (hknown k hmem) (hnew k hk)
      · refine ih (rmacroCmd_good hpart hg hcmd) (fun k hk => ?_) h
        rw [hrhss]
        exact (List.mem_append.mp hk).imp (hknown k) id

/-- On a grammar with no other productions than the known ones. -/
theorem stopsBefore_of_run (hparts : List.Forall₂ (PartCmd E) parts cmds)
    (hg : g.Good E.toGrammerEnv) (hknown : ∀ nt x, x ∈ g.rhss nt ↔ (nt, x) ∈ known)
    (h : ∃ error g', fklExecuteCgRmacro E name g cmds = some (error, g')) :
    StopsBefore E name known parts := by
  induction hparts generalizing g known with
  | nil => trivial
  | @cons part cmd parts cmds hpart _ ih =>
    have hout := rmacroCmd_outcome name hpart hg
    unfold fklExecuteCgRmacro at h
    generalize hcmd : rmacroCmd E name g cmd = r at hout h
    cases hout with
    | error hkey =>
      obtain ⟨k, hk, hmem⟩ := hkey
      exact .inl ⟨k, hk, (hknown _ _).mp hmem⟩
    | stuck hextra hnew =>
      obtain ⟨error, g', h⟩ := h
      cases h
    | ok hextra hnew hrhss hnull =>
      refine .inr ⟨hextra, ih (rmacroCmd_good hpart hg hcmd) (fun nt x => ?_) h⟩
      rw [hrhss, hknown, List.mem_append]

theorem run_noNull {error : Bool} (hparts : List.Forall₂ (PartCmd E) parts cmds)
    (hg : g.Good E.toGrammerEnv) (hnull : NoNullRegex g)
    (hcompiles : ∀ part ∈ parts, ∀ s, .regex s ∈ part.syms → E.compiles s = true)
    (h : fklExecuteCgRmacro E name g cmds = some (error, g')) : NoNullRegex g' := by
  induction hparts generalizing g with
  | nil =>
    cases h
    exact hnull
  | @cons part cmd parts cmds hpart _ ih =>
    have hout := rmacroCmd_outcome name hpart hg
    unfold fklExecuteCgRmacro at h
    generalize hcmd : rmacroCmd E name g cmd = r at hout h
    cases hout with
    | error hkey =>
      cases h
      exact hnull
    | stuck => cases h
    | ok hextra hnew hrhss hkeep =>
      obtain ⟨hpartc, hpartsc⟩ := List.forall_mem_cons.mp hcompiles
      exact ih (rmacroCmd_good hpart hg hcmd) (hkeep hpartc hnull) hpartsc h

theorem argsChecked_of_good (hg : g.Good E.toGrammerEnv) : ArgsChecked g :=
  ⟨fun nt p hp _ hb => (hg.syms nt p hp _ hb).2, fun ig hig _ hb => (hg.igSyms ig hig _ hb).2⟩

theorem rhss_empty (nt : Nat) (x : List SymText) :
    x ∈ (fklInitEmptyGrammer : FklGrammer RmacroAct).rhss nt ↔ (nt, x) ∈ ([] : List ProdKey) := by
  simp [FklGrammer.rhss, prodsOf, fklInitEmptyGrammer]

/-- The definitions that the parser accepts are run safely when their regular expressions compile
and no rule puts the start symbol under itself before the run has stopped. -/
theorem accepted_safe_iff {definition : Nast}
    (hdef : fklCgParseReaderMacroDefine E definition = some (.ok cmds)) :
    ∃ parts, DefWritten none definition parts ∧ (RunsSafely E name parts cmds ↔
      (∀ part ∈ parts, ∀ s, .regex s ∈ part.syms → E.compiles s = true) ∧
        StopsBefore E name [] parts) := by
  obtain ⟨parts, hwritten, hparts⟩ := parseReaderMacroDef_written hdef nofun
  refine ⟨parts, hwritten, ⟨fun h => ⟨h.compiles, ?_⟩, fun h => ⟨h.1, ?_, ?_, ?_⟩⟩⟩
  · exact stopsBefore_of_run hparts good_empty rhss_empty (h.runs _ good_empty)
  · exact fun g hg => run_defined hparts hg (by simp) h.2
  · exact fun g error g' hg hnull hrun => run_noNull hparts hg hnull h.1 hrun
  · exact fun g error g' hg hrun => argsChecked_of_good (fklExecuteCgRmacro_good hparts hg hrun)

theorem string_safe_iff : ∃ parts, DefWritten none (oneRuleDef (.string (bytesOf "a"))) parts ∧
    (RunsSafely (sExpEnv fun _ => true) (bytesOf "lib") parts
        [.addProd (oneRuleProd (.string (bytesOf "a")))] ↔
      (∀ part ∈ parts, ∀ s, .regex s ∈ part.syms → (sExpEnv fun _ => true).compiles s = true) ∧
        StopsBefore (sExpEnv fun _ => true) (bytesOf "lib") [] parts) :=
  accepted_safe_iff (oneRuleDef_parsed (oneRuleDef_prod (by decide) (stringRule_loop _)
    (by decide)))

theorem regexRule_loop (str : List UInt8) (rest : Nast) :
    parseRuleLoop E [] false none
      (appendAst (itemsExprs false [(false, .regex str)]) (.pair (symAst "=>") rest)) =
        some (.ok (.pair (symAst "=>") rest, [(RuleSym.regex str).graSym], none)) := by
  have hend : ¬isSym "=>" (keywordAst "regex") = true := by decide
  have hregex : isKeyword "regex" (keywordAst "regex") = true := by decide
  change parseRuleLoop E [] false none (.pair (keywordAst "regex") (.pair (strAst str)
    (.pair (symAst "=>") rest))) = _
  unfold parseRuleLoop
  rw [if_neg hend, if_pos hregex]
  dsimp only [strAst]
  rw [if_pos (isRegexStrValid_eq str)]
  exact parseRuleLoop_end_one (s := .regex str) rest

theorem null_of_text {t : SymTables} {s : FklGrammerSym} (hs : t.HasSym s)
    (h : s.text t.regexes = .term (.regex none)) : SymTables.NullRegex s := by
  cases s with
  | term s =>
    cases s with
    | regex re =>
      cases re with
      | none => rfl
      | some a =>
        have ha := List.getElem?_eq_getElem (hs a rfl)
        simp [FklGrammerSym.text, FklGrammerIgnoreSym.text, fklGetStringWithRegex, ha] at h
    | _ => simp [FklGrammerSym.text, FklGrammerIgnoreSym.text] at h
  | _ => simp [FklGrammerSym.text] at h

/-- The expression `(` does not compile. -/
def noParenEnv : RmacroEnv := sExpEnv fun s => s != bytesOf "("

theorem badRegex_accepted : ∃ prod,
    fklCgParseReaderMacroDefine noParenEnv (oneRuleDef (.regex (bytesOf "("))) =
        some (.ok [.addProd prod]) ∧
      ∃ g', fklExecuteCgRmacro noParenEnv (bytesOf "lib") fklInitEmptyGrammer [.addProd prod] =
          some (false, g') ∧ ¬NoNullRegex g' := by
  have hprod := oneRuleDef_prod (E := noParenEnv) (s := .regex (bytesOf "(")) (by decide)
    (regexRule_loop _) (by decide)
  obtain ⟨t', out, g', hmade, hrun, hadded⟩ := oneRuleDef_added (E := noParenEnv)
    (s := .regex (bytesOf "(")) (bytesOf "lib") trivial rfl
  have hruns : fklExecuteCgRmacro noParenEnv (bytesOf "lib") fklInitEmptyGrammer
      [.addProd (oneRuleProd (.regex (bytesOf "(")))] = some (false, g') := by
    unfold fklExecuteCgRmacro
    rw [hrun]
    rfl
  refine ⟨_, oneRuleDef_parsed hprod, g', hruns, fun h => ?_⟩
  have htext : out.syms.map (·.text t'.regexes) = [.term (.regex none)] := by
    have hcompiles : noParenEnv.compiles (bytesOf "(") = false := by decide
    have hparts : ruleParts [(false, .regex (bytesOf "("))] = [.sym (.regex (bytesOf "("))] := rfl
    rw [hmade.syms.text, hparts]
    simp [RulePart.madeText, RuleSym.madeText, regexText, hcompiles]
  obtain ⟨sym, hsyms, hsym⟩ := List.map_eq_singleton_iff.mp htext
  have hmem : sym ∈ out.syms := hsyms ▸ List.mem_cons_self
  exact h.1 _ _ hadded.mem sym hmem (null_of_text (hmade.syms.has sym hmem) hsym)

end FakeLisp.GrammerTables
