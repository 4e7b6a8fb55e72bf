import FakeLisp.PgSections

/-! What a grammar holds when a grammar text has been read. -/

namespace FakeLisp.GrammerTables.PgText

open ConcatChains RightPart ParserGrammer

def PgSym.text (E : RmacroEnv) : PgSym → SymText
  | .string s => .term (.string s)
  | .keyword s => .keyword s
  | .regex s => regexText E s
  | .builtin b args _ => .term (.builtin b args)
  | .nonterm name => .nonterm (E.symbol name)

def PgSym.strings : PgSym → List (List UInt8)
  | .string s | .keyword s => [s]
  | .builtin _ args _ => args
  | .regex _ | .nonterm _ => []

def PgSym.delims : PgSym → List (List UInt8)
  | .string s => [s]
  | .builtin _ args _ => args
  | .keyword _ | .regex _ | .nonterm _ => []

def PgSym.regexes : PgSym → List (List UInt8)
  | .regex s => [s]
  | _ => []

/-- A builtin terminal takes so many arguments. -/
def PgSym.Checked : PgSym → Prop
  | .builtin b args _ => fklBuiltinTermArgsCheck b args.length = .dummy
  | _ => True

/-- The strings and the regular expressions that the tables have more, if they compile. -/
structure TablesGrow (E : RmacroEnv) (t : SymTables) (strings delims regexes : List (List UInt8))
    (t' : SymTables) : Prop where
  terminals : ∀ s, s ∈ t'.terminals.keys ↔ s ∈ t.terminals.keys ∨ s ∈ strings
  delimiters : ∀ s, s ∈ t'.delimiters.keys ↔ s ∈ t.delimiters.keys ∨ s ∈ delims
  regexes : ∀ s, s ∈ t'.regexes.keys ↔ s ∈ t.regexes.keys ∨ s ∈ regexes ∧ E.compiles s = true

variable {C : Type} {E : RmacroEnv} {A : Actions C} {t t' t'' : SymTables}
  {strs strs' ds ds' res res' : List (List UInt8)}

theorem TablesGrow.refl (t : SymTables) : TablesGrow E t [] [] [] t :=
  ⟨by simp, by simp, by simp⟩

theorem TablesGrow.trans (h : TablesGrow E t strs ds res t')
    (h' : TablesGrow E t' strs' ds' res' t'') :
    TablesGrow E t (strs ++ strs') (ds ++ ds') (res ++ res') t'' := by
  constructor
  · intro s
    rw [h'.terminals, h.terminals, List.mem_append, or_assoc]
  · intro s
    rw [h'.delimiters, h.delimiters, List.mem_append, or_assoc]
  · intro s
    rw [h'.regexes, h.regexes, List.mem_append, or_assoc, or_and_right]

/-! Symbols. -/

theorem addDelimiter_grow (t : SymTables) (s : List UInt8) :
    TablesGrow E t [s] [s] [] (t.addDelimiter s).1 := by
  refine ⟨fun x => ?_, fun x => ?_, by simp [SymTables.addDelimiter]⟩
  · rw [List.mem_singleton]
    exact InternTable.mem_keys_add
  · rw [List.mem_singleton]
    exact InternTable.mem_keys_add

theorem addTerminal_grow (t : SymTables) (s : List UInt8) :
    TablesGrow E t [s] [] [] (addTerminal t s).1 := by
  refine ⟨fun x => ?_, by simp [addTerminal], by simp [addTerminal]⟩
  rw [List.mem_singleton]
  exact InternTable.mem_keys_add

theorem addArgs_grow (t : SymTables) (args : List (List UInt8)) :
    TablesGrow E t args [] [] (addArgs t args).1 := by
  induction args generalizing t with
  | nil => exact .refl t
  | cons s args ih => exact (addTerminal_grow t s).trans (ih _)

theorem addDelimiters_grow (t : SymTables) (strs : List FklString) :
    TablesGrow E t [] (strs.map (·.key)) [] (addDelimiters t strs) :=
  ⟨by simp [addDelimiters], fun s => InternTable.mem_keys_addAll, by simp [addDelimiters]⟩

theorem addRegex_grow (ht : ∀ k ∈ t.regexes.keys, E.compiles k = true) (s : List UInt8) :
    TablesGrow E t [] [] [s] (addRegex E t s).1 := by
  refine ⟨by simp [addRegex], by simp [addRegex], fun x => ?_⟩
  simp only [addRegex, fklAddRegexStr]
  split_ifs with h
  · rw [InternTable.mem_keys_add, List.mem_singleton]
    refine or_congr_right ⟨?_, And.left⟩
    rintro rfl
    exact ⟨rfl, h.elim (ht x) id⟩
  · rw [List.mem_singleton, or_iff_left]
    rintro ⟨rfl, hc⟩
    exact h (Or.inr hc)

theorem PgSym.add_spec {s : PgSym} (hs : s.Checked)
    (ht : ∀ k ∈ t.regexes.keys, E.compiles k = true) :
    Converted E t [s.text E] s.delims (s.add E t).1 [(s.add E t).2] ∧
      TablesGrow E t s.strings s.delims s.regexes (s.add E t).1 := by
  cases s with
  | string s => exact ⟨addDelimiter_converted t s, addDelimiter_grow t s⟩
  | keyword s => exact ⟨keyword_sym_converted t s, addTerminal_grow t s⟩
  | regex s => exact ⟨addRegexStr_converted ht s, addRegex_grow ht s⟩
  | builtin b args comma =>
    refine ⟨builtinArgs_converted t hs, ?_⟩
    have hgrow := (addArgs_grow (E := E) t args).trans
      (addDelimiters_grow (addArgs t args).1 (addArgs t args).2)
    rwa [(addArgs_spec t args).2.2.1, List.append_nil] at hgrow
  | nonterm name => exact ⟨plain_converted t trivial rfl, .refl t⟩

theorem addItems_spec {items : List (Bool × PgSym)} (hitems : ∀ i ∈ items, i.2.Checked)
    (ht : ∀ k ∈ t.regexes.keys, E.compiles k = true) (syms : List FklGrammerSym) :
    ∃ ss, (addItems E t syms items).2 = syms ++ ss ∧
      Converted E t (joinItems .ignore (items.map fun i => (i.1, i.2.text E)))
        (items.flatMap fun i => i.2.delims) (addItems E t syms items).1 ss ∧
      TablesGrow E t (items.flatMap fun i => i.2.strings) (items.flatMap fun i => i.2.delims)
        (items.flatMap fun i => i.2.regexes) (addItems E t syms items).1 := by
  induction items generalizing t syms with
  | nil => exact ⟨[], (List.append_nil syms).symm, Converted.nil t, .refl t⟩
  | cons i items ih =>
    obtain ⟨hasIgnore, s⟩ := i
    obtain ⟨hs, hitems⟩ := List.forall_mem_cons.mp hitems
    obtain ⟨hconverted, hgrow⟩ := PgSym.add_spec hs ht
    obtain ⟨ss, heq, hmore, hgrow'⟩ := ih hitems (hconverted.compiles ht)
      (RightPart.pushGraSym syms hasIgnore (s.add E t).2)
    cases hasIgnore with
    | false =>
      refine ⟨(s.add E t).2 :: ss, ?_, hconverted.append hmore, hgrow.trans hgrow'⟩
      rw [addItems, heq]
      simp [RightPart.pushGraSym, pushSym]
    | true =>
      refine ⟨.ignore :: (s.add E t).2 :: ss, ?_,
        (plain_converted (s := .ignore) t trivial rfl).append (hconverted.append hmore),
        hgrow.trans hgrow'⟩
      rw [addItems, heq]
      simp [RightPart.pushGraSym, pushSym]

/-! Declarations. -/

def rightText (E : RmacroEnv) (items : List (Bool × PgSym)) : List SymText :=
  markedChains .ignore SymText.isTerm (fun len => .comp (len % 2 ^ 32))
    (items.map fun i => (i.1, i.2.text E))

namespace PgDecl

/-- The right side and the action of a rule of the nonterminal. -/
def ruleOf (E : RmacroEnv) (nt : Nat) : PgDecl C → Option (List SymText × C)
  | .rule left items _ action =>
    if E.symbol left = nt then some (rightText E items, action) else none
  | _ => none

def ignoreText (E : RmacroEnv) : PgDecl C → Option (List SymText)
  | .ignore _ syms => some (syms.map (·.text E))
  | _ => none

def syms : PgDecl C → List PgSym
  | .rule _ items _ _ => items.map Prod.snd
  | .ignore _ syms => syms
  | .terminal _ s => [.string s]

/-- The left side of a rule is no builtin terminal. -/
def LeftFree (E : RmacroEnv) : PgDecl C → Prop
  | .rule left _ _ _ => E.toGrammerEnv.isBuiltin (E.symbol left) = false
  | _ => True

/-- What the parser does not look at: a left side with the special prefix, a longer name than that
of an ignore rule or of a terminal, a dangling right side, arguments that end in a comma, and a
regular expression that does not compile. -/
structure WellFormed (E : RmacroEnv) (d : PgDecl C) : Prop where
  head : match d with
    | .rule left _ dangling _ => isBuiltinGraSym left = false ∧ dangling = false
    | .ignore head _ => head = pgIgnore
    | .terminal head _ => head = pgTerminals
  comma : ∀ b args, .builtin b args true ∉ d.syms
  compiles : ∀ s, .regex s ∈ d.syms → E.compiles s = true

end PgDecl

/-- The rules can be added, and no ignore rule is there twice. -/
structure Addable (E : RmacroEnv) (g : FklGrammer C) (decls : List (PgDecl C)) : Prop where
  left : ∀ d ∈ decls, d.LeftFree E
  ignores : (g.ignoreTexts ++ decls.filterMap (PgDecl.ignoreText E)).Nodup

/-- The right sides of a nonterminal with their actions. -/
def rulesOf (g : FklGrammer C) (nt : Nat) : List (List SymText × C) :=
  (g.prodsOf nt).map fun p => (p.rhs g.regexes, p.action)

/-- A rule takes the place of the one with the same right side, or goes behind the others. -/
def putRule (rules : List (List SymText × C)) (rule : List SymText × C) :
    List (List SymText × C) :=
  if rule.1 ∈ rules.map Prod.fst then rules.map fun r => if r.1 = rule.1 then rule else r
  else rules ++ [rule]

/-- The grammar `g'` is `g` with what is declared, and the production for the start symbol. -/
structure PgContents (E : RmacroEnv) (A : Actions C) (g : FklGrammer C) (decls : List (PgDecl C))
    (g' : FklGrammer C) : Prop where
  rules : ∀ nt, nt ≠ 0 →
    rulesOf g' nt = (decls.filterMap (PgDecl.ruleOf E nt)).foldl putRule (rulesOf g nt)
  start : g'.start = g.start ∧ rulesOf g' 0 = rulesOf g 0 ∨
    g.start = 0 ∧ (∃ left items dangling action, .rule left items dangling action ∈ decls ∧
      E.symbol left = g'.start) ∧
      rulesOf g' 0 = [([.ignore, .nonterm g'.start], A.noAction)]
  ignores : g'.ignoreTexts = g.ignoreTexts ++ decls.filterMap (PgDecl.ignoreText E)
  tables : TablesGrow E g.toSymTables ((decls.flatMap PgDecl.syms).flatMap PgSym.strings)
    ((decls.flatMap PgDecl.syms).flatMap PgSym.delims)
    ((decls.flatMap PgDecl.syms).flatMap PgSym.regexes) g'.toSymTables

variable {g g' g'' : FklGrammer C} {decls decls' : List (PgDecl C)}

theorem PgContents.refl (g : FklGrammer C) : PgContents E A g [] g where
  rules _ _ := rfl
  start := Or.inl ⟨rfl, rfl⟩
  ignores := (List.append_nil _).symm
  tables := .refl _

theorem PgContents.trans (h : PgContents E A g decls g') (h' : PgContents E A g' decls' g'') :
    PgContents E A g (decls ++ decls') g'' where
  rules nt hnt := by rw [h'.rules nt hnt, h.rules nt hnt, List.filterMap_append, List.foldl_append]
  start := by
    rcases h'.start with ⟨hstart', hrules'⟩ |
      ⟨hzero', ⟨left, items, dangling, action, hmem, hleft⟩, hrules'⟩
    · rw [hstart', hrules']
      rcases h.start with hsame | ⟨hzero, ⟨left, items, dangling, action, hmem, hleft⟩, hrules⟩
      · exact Or.inl hsame
      · exact Or.inr ⟨hzero, ⟨left, items, dangling, action, List.mem_append_left _ hmem, hleft⟩,
          hrules⟩
    · have hzero : g.start = 0 := by
        rcases h.start with ⟨hstart, -⟩ | ⟨hzero, -⟩
        · exact hstart.symm.trans hzero'
        · exact hzero
      exact Or.inr ⟨hzero, ⟨left, items, dangling, action, List.mem_append_right _ hmem, hleft⟩,
        hrules'⟩
  ignores := by rw [h'.ignores, h.ignores, List.filterMap_append, List.append_assoc]
  tables := by
    simpa only [List.flatMap_append] using h.tables.trans h'.tables

/-! Rules are added. -/

section

variable {rules : List (List SymText × C)} {rule : List SymText × C} {p : FklGrammerProduction C}
  {noAction : C}

theorem putRule_of_mem {pre post : List (List SymText × C)} {old : List SymText × C}
    (h : rules = pre ++ old :: post) (hold : old.1 = rule.1)
    (honce : (rules.map Prod.fst).Nodup) : putRule rules rule = pre ++ rule :: post := by
  have hmem : rule.1 ∈ rules.map Prod.fst := by simp [h, ← hold]
  rw [h, List.map_append, List.map_cons, List.nodup_append, List.nodup_cons] at honce
  obtain ⟨-, ⟨hpost, -⟩, hpre⟩ := honce
  have hkeep : ∀ rs : List (List SymText × C), old.1 ∉ rs.map Prod.fst →
      rs.map (fun r => if r.1 = rule.1 then rule else r) = rs := by
    intro rs hrs
    refine (List.map_congr_left fun r hr => if_neg fun heq => hrs ?_).trans (List.map_id' rs)
    rw [hold, ← heq]
    exact List.mem_map_of_mem hr
  rw [putRule, if_pos hmem, h, List.map_append, List.map_cons, if_pos hold, hkeep post hpost,
    hkeep pre fun hmem => hpre _ hmem _ List.mem_cons_self rfl]

theorem putRule_of_not_mem (h : rule.1 ∉ rules.map Prod.fst) :
    putRule rules rule = rules ++ [rule] := if_neg h

theorem rulesOf_fst (g : FklGrammer C) (nt : Nat) : (rulesOf g nt).map Prod.fst = g.rhss nt := by
  rw [rulesOf, List.map_map]
  rfl

theorem rulesOf_extends {ds : List (List UInt8)} (hg : g.Good E.toGrammerEnv)
    (h : SymTables.Extends ds g.toSymTables t) (nt : Nat) :
    rulesOf ({ g with toSymTables := t } : FklGrammer C) nt = rulesOf g nt :=
  List.map_congr_left fun p hp => Prod.ext (FklGrammer.rhs_extends h (hg.syms nt p hp)) rfl

/-- What the start symbol and its production are when a rule has been added. -/
def StartPut (noAction : C) (g : FklGrammer C) (left : Nat) (g' : FklGrammer C) : Prop :=
  g'.start = g.start ∧ rulesOf g' 0 = rulesOf g 0 ∨
    g.start = 0 ∧ g'.start = left ∧ rulesOf g' 0 = [([.ignore, .nonterm left], noAction)]

theorem rulesOf_setProds (g : FklGrammer C) (nt : Nat) (ps : List (FklGrammerProduction C))
    (nt' : Nat) : rulesOf (g.setProds nt ps) nt' =
      if nt' = nt then ps.map fun p => (p.rhs g.regexes, p.action) else rulesOf g nt' := by
  rw [rulesOf, FklGrammer.prodsOf_setProds]
  split_ifs <;> rfl

theorem rulesOf_appendProd (g : FklGrammer C) (ps : List (FklGrammerProduction C))
    (p : FklGrammerProduction C) (nt : Nat) : rulesOf (g.appendProd ps p) nt =
      if nt = p.left then
        (ps.map fun p => (p.rhs g.regexes, p.action)) ++ [(p.rhs g.regexes, p.action)]
      else rulesOf g nt := by
  rw [show rulesOf (g.appendProd ps p) nt = rulesOf (g.setProds p.left _) nt from rfl,
    rulesOf_setProds, List.map_append]
  rfl

theorem rulesOf_addExtra (g : FklGrammer C) (left : Nat) (noAction : C) (nt : Nat) :
    rulesOf (g.addExtra left noAction) nt =
      if nt = 0 then [([.ignore, .nonterm left], noAction)] else rulesOf g nt :=
  rulesOf_setProds g 0 _ nt

/-- Before the first rule of a nonterminal. -/
theorem startRule_spec (hg : g.Good E.toGrammerEnv) (left : Nat) (noAction : C)
    (h : g' = if g.start = 0 then g.addExtra left noAction else g) :
    g'.Good E.toGrammerEnv ∧ g'.toSymTables = g.toSymTables ∧ g'.ignores = g.ignores ∧
      StartPut noAction g left g' ∧ ∀ nt, nt ≠ 0 → rulesOf g' nt = rulesOf g nt := by
  subst h
  split_ifs with hstart
  · refine ⟨hg.addExtra _ _, rfl, rfl, Or.inr ⟨hstart, rfl, ?_⟩, fun nt hnt => ?_⟩
    · rw [rulesOf_addExtra, if_pos rfl]
    · rw [rulesOf_addExtra, if_neg hnt]
  · exact ⟨hg, rfl, rfl, Or.inl ⟨rfl, rfl⟩, fun nt hnt => rfl⟩

theorem addProdAndExtra_spec (hg : g.Good E.toGrammerEnv) (hsyms : ∀ s ∈ p.syms, g.HasSym s)
    (hnull : p.left ≠ 0) (hidx : p.idx = 0)
    (h : g.fklAddProdAndExtraToGrammer E.toGrammerEnv noAction p = some g') :
    g'.Good E.toGrammerEnv ∧ g'.toSymTables = g.toSymTables ∧ g'.ignores = g.ignores ∧
      StartPut noAction g p.left g' ∧ ∀ nt, nt ≠ 0 → rulesOf g' nt =
        if nt = p.left then putRule (rulesOf g nt) (p.rhs g.regexes, p.action)
        else rulesOf g nt := by
  obtain ⟨hgood₁, htables₁, hignores₁, hstart₁, hrules₁⟩ := startRule_spec hg p.left noAction rfl
  have hgood : g'.Good E.toGrammerEnv := by
    refine hg.addProd hsyms (fun cur _ _ q hq => ?_) ⟨hgood₁, htables₁⟩ h
    obtain rfl := Option.some.inj hq
    exact ⟨rfl, rfl, hidx.le.trans (Nat.zero_le _)⟩
  have hfresh : (∀ cur ∈ g.prodsOf p.left, prodEqual cur p = false) →
      p.rhs g.regexes ∉ (rulesOf g p.left).map Prod.fst := by
    intro hne hmem
    rw [rulesOf_fst] at hmem
    obtain ⟨cur, hcur, heq⟩ := List.mem_map.mp hmem
    have hequal := (FklGrammer.prodEqual_iff (hg.syms _ cur hcur) hsyms).mpr heq
    rw [hne cur hcur] at hequal
    cases hequal
  refine ⟨hgood, ?_⟩
  obtain ⟨-, ⟨pre, cur, post, q, hps, heq, hq, rfl⟩ | ⟨hne, rfl | ⟨hnil, rfl⟩⟩⟩ :=
    FklGrammer.addProd_cases h
  · -- an equal production is replaced
    obtain rfl := Option.some.inj hq
    have hcur : cur ∈ g.prodsOf p.left := by simp [hps]
    have hold := (FklGrammer.prodEqual_iff (hg.syms _ cur hcur) hsyms).mp heq
    refine ⟨rfl, rfl, Or.inl ⟨rfl, ?_⟩, fun nt hnt => ?_⟩
    · rw [rulesOf_setProds, if_neg hnull.symm]
    · rw [rulesOf_setProds]
      split_ifs with hleft
      · subst hleft
        have hrules : rulesOf g p.left = _ := congrArg (List.map _) hps
        rw [List.map_append, List.map_cons] at hrules ⊢
        refine (putRule_of_mem hrules hold ?_).symm
        rw [rulesOf_fst]
        exact hg.once p.left
      · rfl
  · -- it goes behind the others
    refine ⟨rfl, rfl, Or.inl ⟨rfl, ?_⟩, fun nt hnt => ?_⟩
    · rw [rulesOf_appendProd, if_neg hnull.symm]
    · rw [rulesOf_appendProd]
      split_ifs with hleft
      · subst hleft
        exact (putRule_of_not_mem (hfresh hne)).symm
      · rfl
  · -- it is the first of its nonterminal
    have hrules : rulesOf g p.left = [] := by rw [rulesOf, hnil, List.map_nil]
    refine ⟨htables₁, hignores₁, ?_, fun nt hnt => ?_⟩
    · rw [StartPut, rulesOf_appendProd, if_neg hnull.symm]
      exact hstart₁
    · rw [rulesOf_appendProd]
      by_cases hleft : nt = p.left
      · rw [if_pos hleft, if_pos hleft, hleft, hrules, putRule_of_not_mem (by simp), htables₁]
        rfl
      · rw [if_neg hleft, if_neg hleft, hrules₁ nt hnt]

/-! A declaration is added. -/

/-- The symbols are such as the parser reads. -/
def PgDecl.Read : PgDecl C → Prop
  | .rule _ items _ _ => ∀ i ∈ items, i.2.Checked
  | .ignore _ syms => ∀ s ∈ syms, s.Ignorable
  | .terminal _ _ => True

theorem PgSym.Ignorable.checked {s : PgSym} (h : s.Ignorable) : s.Checked := by
  cases s with
  | builtin b args comma => exact h.elim
  | _ => trivial

theorem rightText_fold {items : List (Bool × PgSym)} {rt : FklRegexTable}
    {ss : List FklGrammerSym} (h : ss.map (FklGrammerSym.text rt) =
      joinItems .ignore (items.map fun i => (i.1, i.2.text E))) :
    (RightPart.fklGraFoldConcatChains ss).map (FklGrammerSym.text rt) = rightText E items := by
  refine fold_joinItems (fun i hi => ?_) h
  obtain ⟨i, -, rfl⟩ := List.mem_map.mp hi
  cases i.2 <;> rfl

variable {left : List UInt8} {items : List (Bool × PgSym)} {dangling : Bool} {action : C}

theorem declare_rule (hg : g.Good E.toGrammerEnv) (hitems : ∀ i ∈ items, i.2.Checked)
    (h : declare E A g (.rule left items dangling action) = some g') :
    E.toGrammerEnv.isBuiltin (E.symbol left) = false ∧ g'.Good E.toGrammerEnv ∧
      PgContents E A g [.rule left items dangling action] g' := by
  obtain ⟨ss, hss, hconverted, hgrow⟩ :=
    addItems_spec (t := g.toSymTables) hitems hg.compiles []
  rw [List.nil_append] at hss
  rw [declare, hss, addRule] at h
  have hg₁ := hg.extends hconverted.extends_ (hconverted.compiles hg.compiles)
  have hsyms : ∀ s ∈ RightPart.fklGraFoldConcatChains ss, SymTables.HasSym _ s :=
    forall_foldConcatChains hconverted.has fun len => trivial
  obtain ⟨hgood, htables, hignores, hstart, hrules⟩ := addProdAndExtra_spec hg₁ hsyms
    (E.symbol_ne_null left) rfl h
  have hsame := rulesOf_extends hg hconverted.extends_
  refine ⟨(FklGrammer.addProd_cases h).1, hgood, fun nt hnt => ?_, ?_, ?_, ?_⟩
  · rw [hrules nt hnt, hsame nt]
    by_cases hleft : E.symbol left = nt
    · refine (if_pos hleft.symm).trans ?_
      simp only [List.filterMap_cons, PgDecl.ruleOf, if_pos hleft]
      exact congrArg (fun rhs => putRule _ (rhs, action)) (rightText_fold hconverted.text)
    · refine (if_neg (Ne.symm hleft)).trans ?_
      simp [PgDecl.ruleOf, hleft]
  · rw [StartPut, hsame 0] at hstart
    refine hstart.imp id ?_
    rintro ⟨hzero, hnew, hrules⟩
    refine ⟨hzero, ⟨left, items, dangling, action, List.mem_singleton_self _, hnew.symm⟩, ?_⟩
    rw [hrules, hnew]
  · rw [FklGrammer.ignoreTexts, hignores, htables]
    exact (FklGrammer.ignoreTexts_extends hg hconverted.extends_).trans (List.append_nil _).symm
  · rw [htables]
    simpa [PgDecl.syms, List.flatMap_map] using hgrow

theorem declare_ignore (hg : g.Good E.toGrammerEnv) {head : List UInt8} {syms : List PgSym}
    (hsyms : ∀ s ∈ syms, s.Ignorable) :
    syms.map (·.text E) ∈ g.ignoreTexts ∧ declare E A g (.ignore head syms) = none ∨
      syms.map (·.text E) ∉ g.ignoreTexts ∧ ∃ g', declare E A g (.ignore head syms) = some g' ∧
        g'.Good E.toGrammerEnv ∧ PgContents E A g [.ignore head syms] g' := by
  have hchecked : ∀ i ∈ syms.map fun s => (false, s), i.2.Checked := by
    intro i hi
    obtain ⟨s, hs, rfl⟩ := List.mem_map.mp hi
    exact (hsyms s hs).checked
  obtain ⟨ss, hss, hconverted, hgrow⟩ :=
    addItems_spec (t := g.toSymTables) hchecked hg.compiles []
  obtain ⟨ig, hig⟩ := addItems_ignore (E := E) g.toSymTables [] hsyms ⟨[], rfl⟩
  rw [List.nil_append] at hss
  obtain rfl := hss.symm.trans hig
  rw [declare, hss]
  generalize (addItems E g.toSymTables [] (syms.map fun s => (false, s))).1 = t' at hconverted hgrow
  have hext := hconverted.extends_
  have hg₁ := hg.extends hext (hconverted.compiles hg.compiles)
  have hhas : ∀ s ∈ ig, t'.HasSym (.term s) := fun s hs =>
    hconverted.has _ (List.mem_map_of_mem hs)
  have htexts : FklGrammerIgnore.texts t'.regexes ig = syms.map (·.text E) := by
    refine hconverted.text.trans ?_
    rw [List.map_map]
    exact joinItems_plain .ignore (·.text E) syms
  have hsame := FklGrammer.ignoreTexts_extends hg hext
  rw [addIgnore, fklGrammerSymbolsToIgnore_map]
  dsimp only
  by_cases hmem : syms.map (·.text E) ∈ g.ignoreTexts
  · refine Or.inl ⟨hmem, ?_⟩
    have hnone := FklGrammer.addIgnore_of_mem hg₁ hhas (by rwa [htexts, hsame])
    rw [show fklAddIgnoreToIgnoreList g.ignores ig = none from hnone]
    rfl
  · refine Or.inr ⟨hmem, ?_⟩
    obtain ⟨hadd, hgood⟩ := FklGrammer.addIgnore_of_not_mem hg₁ hhas (by rwa [htexts, hsame])
    rw [show fklAddIgnoreToIgnoreList g.ignores ig = some (g.ignores ++ [ig]) from hadd]
    refine ⟨_, rfl, hgood, fun nt _ => rulesOf_extends hg hext nt,
      Or.inl ⟨rfl, rulesOf_extends hg hext 0⟩, ?_, ?_⟩
    · have happend : ({ g with toSymTables := t', ignores := g.ignores ++ [ig] } :
          FklGrammer C).ignoreTexts = ({ g with toSymTables := t' } : FklGrammer C).ignoreTexts ++
            [FklGrammerIgnore.texts t'.regexes ig] := List.map_append
      rw [happend, hsame, htexts]
      rfl
    · simpa [PgDecl.syms, List.flatMap_map] using hgrow

theorem declare_terminal (hg : g.Good E.toGrammerEnv) (head s : List UInt8) :
    ∃ g', declare E A g (.terminal head s) = some g' ∧ g'.Good E.toGrammerEnv ∧
      PgContents E A g [.terminal head s] g' := by
  have hext := (addDelimiter_converted (E := E) g.toSymTables s).extends_
  refine ⟨_, rfl, hg.extends hext hg.compiles, fun nt _ => rulesOf_extends hg hext nt,
    Or.inl ⟨rfl, rulesOf_extends hg hext 0⟩, ?_, ?_⟩
  · exact (FklGrammer.ignoreTexts_extends hg hext).trans (List.append_nil _).symm
  · exact addDelimiter_grow g.toSymTables s

theorem addable_singleton {d : PgDecl C} : Addable E g [d] ↔
    d.LeftFree E ∧ (g.ignoreTexts ++ (d.ignoreText E).toList).Nodup := by
  have hd : [d].filterMap (PgDecl.ignoreText E) = (d.ignoreText E).toList := by
    cases h : d.ignoreText E <;> simp [h]
  constructor
  · rintro ⟨hleft, hignores⟩
    exact ⟨hleft d (List.mem_singleton_self d), hd ▸ hignores⟩
  · rintro ⟨hleft, hignores⟩
    exact ⟨by simpa using hleft, hd.symm ▸ hignores⟩

/-- A declaration is added if it can be. -/
theorem declare_spec (hg : g.Good E.toGrammerEnv) {d : PgDecl C} (hd : d.Read) :
    ¬Addable E g [d] ∧ declare E A g d = none ∨ Addable E g [d] ∧
      ∃ g', declare E A g d = some g' ∧ g'.Good E.toGrammerEnv ∧ PgContents E A g [d] g' := by
  rw [addable_singleton]
  cases d with
  | rule left items dangling action =>
    cases h : declare E A g (.rule left items dangling action) with
    | none =>
      refine Or.inl ⟨fun ⟨hleft, _⟩ => ?_, rfl⟩
      have hne : E.toGrammerEnv.isBuiltin (fklCreateProduction (E.symbol left)
          (RightPart.fklGraFoldConcatChains (addItems E g.toSymTables [] items).2) action).left =
          false := hleft
      obtain ⟨g', hadd⟩ := FklGrammer.addProd_some _ _ hne fun cur => ⟨_, rfl⟩
      cases h.symm.trans hadd
    | some g' =>
      obtain ⟨hleft, hgood, hcontents⟩ := declare_rule hg hd h
      have honce : (g.ignoreTexts ++ []).Nodup := (List.append_nil _).symm ▸ hg.igOnce
      exact Or.inr ⟨⟨hleft, honce⟩, g', rfl, hgood, hcontents⟩
  | ignore head syms =>
    rcases declare_ignore hg hd with ⟨hmem, hnone⟩ | ⟨hmem, hadd⟩
    · refine Or.inl ⟨fun ⟨_, hnodup⟩ => ?_, hnone⟩
      exact (List.nodup_append.mp hnodup).2.2 _ hmem _ (List.mem_singleton_self _) rfl
    · refine Or.inr ⟨⟨trivial, ?_⟩, hadd⟩
      exact hg.igOnce.append (List.nodup_singleton _) (List.disjoint_singleton.mpr hmem)
  | terminal head s =>
    have honce : (g.ignoreTexts ++ []).Nodup := (List.append_nil _).symm ▸ hg.igOnce
    exact Or.inr ⟨⟨trivial, honce⟩, declare_terminal hg head s⟩

theorem addable_cons {d : PgDecl C} (h : PgContents E A g [d] g') :
    Addable E g (d :: decls) ↔ Addable E g [d] ∧ Addable E g' decls := by
  have hignores : g.ignoreTexts ++ (d :: decls).filterMap (PgDecl.ignoreText E) =
      g'.ignoreTexts ++ decls.filterMap (PgDecl.ignoreText E) := by
    rw [h.ignores, List.append_assoc, ← List.filterMap_append]
    rfl
  constructor
  · rintro ⟨hleft, hnodup⟩
    obtain ⟨hd, hdecls⟩ := List.forall_mem_cons.mp hleft
    rw [hignores] at hnodup
    refine ⟨⟨by simpa using hd, ?_⟩, hdecls, hnodup⟩
    rw [← h.ignores]
    exact hnodup.sublist (List.sublist_append_left _ _)
  · rintro ⟨⟨hd, -⟩, hdecls, hnodup⟩
    exact ⟨List.forall_mem_cons.mpr ⟨hd d (List.mem_singleton_self d), hdecls⟩,
      hignores.symm ▸ hnodup⟩

/-- The declarations are added one after the other, if they can be. -/
theorem declareAll_spec (hg : g.Good E.toGrammerEnv) (hdecls : ∀ d ∈ decls, d.Read) :
    ¬Addable E g decls ∧ decls.foldlM (declare E A) g = none ∨ Addable E g decls ∧
      ∃ g', decls.foldlM (declare E A) g = some g' ∧ g'.Good E.toGrammerEnv ∧
        PgContents E A g decls g' := by
  induction decls generalizing g with
  | nil => exact Or.inr ⟨⟨by simp, by simpa using hg.igOnce⟩, g, rfl, hg, .refl g⟩
  | cons d decls ih =>
    obtain ⟨hd, hdecls⟩ := List.forall_mem_cons.mp hdecls
    rw [List.foldlM_cons]
    rcases declare_spec (A := A) hg hd with ⟨hnot, hnone⟩ | ⟨hadd, g₁, hsome, hg₁, hcontents⟩
    · refine Or.inl ⟨fun hall => hnot ⟨fun x hx => ?_, ?_⟩, by rw [hnone]; rfl⟩
      · exact hall.left x (List.mem_singleton.mp hx ▸ List.mem_cons_self)
      · refine hall.ignores.sublist ((List.Sublist.refl _).append ?_)
        exact List.Sublist.filterMap _ (List.singleton_sublist.mpr List.mem_cons_self)
    · rw [hsome, addable_cons hcontents]
      rcases ih hg₁ hdecls with ⟨hnot, hnone⟩ | ⟨hall, g', hsome', hg', hcontents'⟩
      · exact Or.inl ⟨fun h => hnot h.2, hnone⟩
      · exact Or.inr ⟨⟨hadd, hall⟩, g', hsome', hg', hcontents.trans hcontents'⟩

/-! What is read. -/

variable {buf rest : List UInt8} {head head' : PgHead}

theorem PgSymIn.checked {s : PgSym} (h : PgSymIn s buf rest) : s.Checked := by
  cases h with
  | builtin h hb hargs hcheck => exact hcheck
  | _ => trivial

theorem PgRightIn.checked {before : PgBefore}
    (h : PgRightIn A before items dangling action buf rest) : ∀ i ∈ items, i.2.Checked := by
  induction h with
  | reduce | atEnd => simp
  | sym h hmore ih => exact List.forall_mem_cons.mpr ⟨h.checked, ih⟩
  | concat h hmore ih => exact ih

theorem PgDeclIn.read {d : PgDecl C} (h : PgDeclIn A head d buf rest) : d.Read := by
  cases h with
  | rule h hright => exact hright.checked
  | ignore h hsyms => exact hsyms.ignorable
  | terminal h hstr => trivial

theorem PgReads.read {ds : List (PgDecl C)} (h : PgReads A head ds head' buf rest) :
    ∀ d ∈ ds, d.Read := by
  induction h with
  | refl => simp
  | semicolon h hmore ih => exact ih
  | begins h hdecl hmore ih => exact List.forall_mem_cons.mpr ⟨hdecl.read, ih⟩
  | arrow hdecl hmore ih => exact List.forall_mem_cons.mpr ⟨hdecl.read, ih⟩

/-! A text is read in one way only. -/

theorem next_unique {type type' : MyTokenType} {token token' : Token} {rest' : List UInt8}
    (h : Next buf type token rest) (h' : Next buf type' token' rest') :
    type = type' ∧ token = token' ∧ rest = rest' := by
  obtain rfl := h.token_eq.symm.trans h'.token_eq
  exact ⟨h.type_eq.symm.trans h'.type_eq, rfl, h.rest_eq.symm.trans h'.rest_eq⟩

theorem AtEnd.next {type : MyTokenType} {token : Token} (h : AtEnd buf)
    (h' : Next buf type token rest) : type = .none :=
  (h'.type_eq.symm.trans (h'.token_eq ▸ rfl)).trans h.2

theorem argListIn_not_trailing {args args' : List (List UInt8)} (h : ArgListIn args buf rest)
    (h' : TrailingArgs args' buf) : False := by
  induction h generalizing args' with
  | last h hrb =>
    cases h' with
    | last h₁ hcomma | more h₁ hcomma =>
      obtain ⟨-, -, rfl⟩ := next_unique h h₁
      cases (next_unique hrb hcomma).1
  | more h hcomma hmore ih =>
    cases h' with
    | last h₁ hcomma₁ hrb =>
      obtain ⟨-, -, rfl⟩ := next_unique h h₁
      obtain ⟨-, -, rfl⟩ := next_unique hcomma hcomma₁
      cases hmore.next.2.symm.trans (hrb.token_eq ▸ hrb.type_eq)
    | more h₁ hcomma₁ hmore₁ =>
      obtain ⟨-, -, rfl⟩ := next_unique h h₁
      obtain ⟨-, -, rfl⟩ := next_unique hcomma hcomma₁
      exact ih hmore₁

theorem argsIn_not_trailing {args args' : List (List UInt8)} {lb : Token} {rest' : List UInt8}
    (h : ArgsIn args buf rest) (hlb : Next buf .lb lb rest') (h' : TrailingArgs args' rest') :
    False := by
  cases h with
  | absent h => exact h (hlb.token_eq ▸ hlb.type_eq)
  | empty h hrb =>
    obtain ⟨-, -, rfl⟩ := next_unique h hlb
    cases h'.next.2.symm.trans (hrb.token_eq ▸ hrb.type_eq)
  | list h hargs =>
    obtain ⟨-, -, rfl⟩ := next_unique h hlb
    exact argListIn_not_trailing hargs h'

theorem PgArgsIn.unique {args args' : List (List UInt8)} {comma comma' : Bool}
    {rest' : List UInt8} (h : PgArgsIn args comma buf rest) (h' : PgArgsIn args' comma' buf rest') :
    args = args' ∧ comma = comma' ∧ rest = rest' := by
  have hargs : args = args' ∧ rest = rest' := by
    have hok := parseOptionalArgs_iff (t := ⟨.empty, .empty, .empty⟩).mpr ⟨args, comma, h, rfl⟩
    have hok' := parseOptionalArgs_iff (t := ⟨.empty, .empty, .empty⟩).mpr ⟨args', comma', h', rfl⟩
    obtain ⟨heq, hrest⟩ := Prod.mk.inj (Except.ok.inj (hok.symm.trans hok'))
    refine ⟨?_, hrest⟩
    rw [← (addArgs_spec ⟨.empty, .empty, .empty⟩ args).2.2.1, heq]
    exact (addArgs_spec _ args').2.2.1
  refine ⟨hargs.1, ?_, hargs.2⟩
  cases h with
  | plain h =>
    cases h' with
    | plain => rfl
    | trailing hlb h' => exact (argsIn_not_trailing h hlb h').elim
  | trailing hlb h =>
    cases h' with
    | plain h' => exact (argsIn_not_trailing h' hlb h).elim
    | trailing => rfl

/-- What a symbol begins with. -/
theorem PgSymIn.next {s : PgSym} (h : PgSymIn s buf rest) : ∃ type token rest',
    Next buf type token rest' ∧ type ≠ .none ∧ type ≠ .reduceTo ∧ type ≠ .concat := by
  cases h with
  | string h | keyword h | regex h | builtin h | nonterm h => exact ⟨_, _, _, h, by simp⟩

theorem PgSymIn.unique {s s' : PgSym} {rest' : List UInt8} (h : PgSymIn s buf rest)
    (h' : PgSymIn s' buf rest') : s = s' ∧ rest = rest' := by
  cases h with
  | string h | keyword h | regex h =>
    cases h' with
    | string h' | keyword h' | regex h' | builtin h' | nonterm h' =>
      obtain ⟨htype, rfl, rfl⟩ := next_unique h h'
      first | exact ⟨rfl, rfl⟩ | cases htype
  | builtin h hb hargs =>
    cases h' with
    | builtin h' hb' hargs' =>
      obtain ⟨-, rfl, rfl⟩ := next_unique h h'
      obtain rfl := Option.some.inj (hb.symm.trans hb')
      obtain ⟨rfl, rfl, rfl⟩ := hargs.unique hargs'
      exact ⟨rfl, rfl⟩
    | nonterm h' hspecial =>
      obtain ⟨-, rfl, -⟩ := next_unique h h'
      cases hspecial.symm.trans (builtinName_head hb).2
    | string h' | keyword h' | regex h' => cases (next_unique h h').1
  | nonterm h hspecial =>
    cases h' with
    | nonterm h' =>
      obtain ⟨-, rfl, rfl⟩ := next_unique h h'
      exact ⟨rfl, rfl⟩
    | builtin h' hb' =>
      obtain ⟨-, rfl, -⟩ := next_unique h h'
      cases hspecial.symm.trans (builtinName_head hb').2
    | string h' | keyword h' | regex h' => cases (next_unique h h').1

theorem PgRightIn.unique {before : PgBefore} {items' : List (Bool × PgSym)} {dangling' : Bool}
    {action' : C} {rest' : List UInt8} (h : PgRightIn A before items dangling action buf rest)
    (h' : PgRightIn A before items' dangling' action' buf rest') :
    items = items' ∧ dangling = dangling' ∧ action = action' ∧ rest = rest' := by
  induction h generalizing items' with
  | reduce h hname haction =>
    cases h' with
    | reduce h' hname' haction' =>
      obtain ⟨-, -, rfl⟩ := next_unique h h'
      obtain ⟨-, rfl, rfl⟩ := next_unique hname hname'
      exact ⟨rfl, rfl, Option.some.inj (haction.symm.trans haction'), rfl⟩
    | atEnd hend => cases hend.next h
    | sym hs hmore =>
      obtain ⟨type, token, rest, hnext, -, hne, -⟩ := hs.next
      exact absurd (next_unique hnext h).1 hne
    | concat h' hmore => cases (next_unique h h').1
  | atEnd hend =>
    cases h' with
    | reduce h' => cases hend.next h'
    | atEnd => exact ⟨rfl, rfl, rfl, rfl⟩
    | sym hs hmore =>
      obtain ⟨type, token, rest, hnext, hne, -⟩ := hs.next
      exact absurd (hend.next hnext) hne
    | concat h' hmore => cases hend.next h'
  | sym hs hmore ih =>
    obtain ⟨type, token, rest, hnext, hnone, hreduce, hconcat⟩ := hs.next
    cases h' with
    | reduce h' => exact absurd (next_unique hnext h').1 hreduce
    | atEnd hend => exact absurd (hend.next hnext) hnone
    | sym hs' hmore' =>
      obtain ⟨rfl, rfl⟩ := hs.unique hs'
      obtain ⟨rfl, rfl, rfl, rfl⟩ := ih hmore'
      exact ⟨rfl, rfl, rfl, rfl⟩
    | concat h' hmore' => exact absurd (next_unique hnext h').1 hconcat
  | concat h hmore ih =>
    cases h' with
    | reduce h' => cases (next_unique h h').1
    | atEnd hend => cases hend.next h
    | sym hs hmore' =>
      obtain ⟨type, token, rest, hnext, -, -, hne⟩ := hs.next
      exact absurd (next_unique hnext h).1 hne
    | concat h' hmore' =>
      obtain ⟨-, -, rfl⟩ := next_unique h h'
      exact ih hmore'

/-- What stops an ignore rule is none of its symbols. -/
theorem stop_ne {type : MyTokenType} {token : Token}
    (hstop : (nextToken buf).token.type = .endToken ∨ (nextToken buf).token.type = .leftArrow)
    (h : Next buf type token rest) : type = .endToken ∨ type = .leftArrow := by
  rw [h.token_eq, h.type_eq] at hstop
  exact hstop

theorem PgIgnoreIn.unique {syms syms' : List PgSym} {rest' : List UInt8}
    (h : PgIgnoreIn syms buf rest) (h' : PgIgnoreIn syms' buf rest') :
    syms = syms' ∧ rest = rest' := by
  induction h generalizing syms' with
  | stop hstop =>
    cases h' with
    | stop => exact ⟨rfl, rfl⟩
    | atEnd hend => rw [hend.2] at hstop; simp at hstop
    | string h' | regex h' => simpa using stop_ne hstop h'
  | atEnd hend =>
    cases h' with
    | stop hstop => rw [hend.2] at hstop; simp at hstop
    | atEnd => exact ⟨rfl, rfl⟩
    | string h' | regex h' => cases hend.next h'
  | string h hmore ih =>
    cases h' with
    | stop hstop => simpa using stop_ne hstop h
    | atEnd hend => cases hend.next h
    | string h' hmore' =>
      obtain ⟨-, rfl, rfl⟩ := next_unique h h'
      obtain ⟨rfl, rfl⟩ := ih hmore'
      exact ⟨rfl, rfl⟩
    | regex h' => cases (next_unique h h').1
  | regex h hmore ih =>
    cases h' with
    | stop hstop => simpa using stop_ne hstop h
    | atEnd hend => cases hend.next h
    | string h' => cases (next_unique h h').1
    | regex h' hmore' =>
      obtain ⟨-, rfl, rfl⟩ := next_unique h h'
      obtain ⟨rfl, rfl⟩ := ih hmore'
      exact ⟨rfl, rfl⟩

theorem PgDeclIn.unique {d d' : PgDecl C} {rest' : List UInt8} (h : PgDeclIn A head d buf rest)
    (h' : PgDeclIn A head d' buf rest') : d = d' ∧ rest = rest' := by
  cases h with
  | rule h hright =>
    cases h' with
    | rule h' hright' =>
      obtain ⟨-, -, rfl⟩ := next_unique h h'
      obtain ⟨rfl, rfl, rfl, rfl⟩ := hright.unique hright'
      exact ⟨rfl, rfl⟩
  | ignore h hsyms =>
    cases h' with
    | ignore h' hsyms' =>
      obtain ⟨-, -, rfl⟩ := next_unique h h'
      obtain ⟨rfl, rfl⟩ := hsyms.unique hsyms'
      exact ⟨rfl, rfl⟩
  | terminal h hstr =>
    cases h' with
    | terminal h' hstr' =>
      obtain ⟨-, -, rfl⟩ := next_unique h h'
      obtain ⟨-, rfl, rfl⟩ := next_unique hstr hstr'
      exact ⟨rfl, rfl⟩

theorem PgReads.unique {head'' : PgHead} {rest' : List UInt8}
    (h : PgReads A head decls head' buf rest) (hend : AtEnd rest)
    (h' : PgReads A head decls' head'' buf rest') (hend' : AtEnd rest') : decls = decls' := by
  induction h generalizing decls' with
  | refl =>
    cases h' with
    | refl => rfl
    | semicolon h' | begins h' => cases hend.next h'
    | arrow hdecl =>
      obtain ⟨-, arrow, rest, h'⟩ := hdecl.arrow
      cases hend.next h'
  | semicolon h hmore ih =>
    cases h' with
    | refl => cases hend'.next h
    | semicolon h' hmore' =>
      obtain ⟨-, -, rfl⟩ := next_unique h h'
      exact ih hend hmore'
    | begins h' => cases (next_unique h h').1
    | arrow hdecl =>
      obtain ⟨-, arrow, rest, h'⟩ := hdecl.arrow
      cases (next_unique h h').1
  | begins h hdecl hmore ih =>
    cases h' with
    | refl => cases hend'.next h
    | semicolon h' => cases (next_unique h h').1
    | begins h' hdecl' hmore' =>
      obtain ⟨-, rfl, rfl⟩ := next_unique h h'
      obtain ⟨rfl, rfl⟩ := hdecl.unique hdecl'
      exact congrArg _ (ih hend hmore')
    | arrow hdecl' =>
      obtain ⟨-, arrow, rest, h'⟩ := hdecl'.arrow
      cases (next_unique h h').1
  | arrow hdecl hmore ih =>
    obtain ⟨-, arrow, rest, h⟩ := hdecl.arrow
    cases h' with
    | refl => cases hend'.next h
    | semicolon h' | begins h' => cases (next_unique h h').1
    | arrow hdecl' hmore' =>
      obtain ⟨rfl, rfl⟩ := hdecl.unique hdecl'
      exact congrArg _ (ih hend hmore')

theorem PgTextIn.unique {text : List UInt8} (h : PgTextIn A decls text)
    (h' : PgTextIn A decls' text) : decls = decls' := by
  obtain ⟨head, rest, hreads, hend⟩ := h
  obtain ⟨head', rest', hreads', hend'⟩ := h'
  exact hreads.unique hend hreads' hend'

/-! Texts. -/

theorem parse_stuck {arg : FklParserGrammerParseArg C} (h : PgStuck head buf)
    (hhead : HeadIs E arg head) :
    fklParseProductionRuleWithCharBuf E A arg buf = .error .unreachable := by
  cases h with
  | @begins _ _ rest rest' token arrow h hignore harrow hstuck =>
    have hname : headOf token.text = .ignore token.text := if_pos hignore
    obtain ⟨-, hhead'⟩ := headIs_beginSection (E := E) arg token.text
    have hparse := (parseDecl_unreachable (A := A) hhead').mpr
      ⟨⟨_, hname⟩, _, _, harrow, hstuck⟩
    rw [parse_section h, hparse]
    rfl
  | arrow harrow hstuck =>
    have hparse := (parseDecl_unreachable (A := A) hhead).mpr ⟨⟨_, rfl⟩, _, _, harrow, hstuck⟩
    rw [parse_arrow harrow hhead (by simp), hparse]
    rfl

/-- The parser comes to an end, and if it says that all went well, then the text is one of well
formed declarations, and the grammar has got what they say. -/
def TextRight (E : RmacroEnv) (A : Actions C) (g : FklGrammer C) (text : List UInt8) : Prop :=
  match fklParseProductionRuleWithCharBuf E A (fklInitParserGrammerParseArg g) text with
  | .ok arg => ∃ ds, PgTextIn A ds text ∧ (∀ d ∈ ds, d.WellFormed E) ∧ PgContents E A g ds arg.g
  | .error stop => stop ≠ .unreachable

/-- If the text is one of declarations that can be added, they are well formed, and behind no part
of it that can be added stands an ignore rule with the name of a builtin terminal. -/
structure TextClean (E : RmacroEnv) (A : Actions C) (g : FklGrammer C) (text : List UInt8) :
    Prop where
  wellFormed : ∀ ds, PgTextIn A ds text → Addable E g ds → ∀ d ∈ ds, d.WellFormed E
  not_stuck : ∀ ds head rest, PgReads A .none ds head text rest → Addable E g ds →
    ¬PgStuck head rest

theorem parse_added (hg : g.Good E.toGrammerEnv) {text : List UInt8}
    (hreads : PgReads A .none decls head text rest) (hadd : Addable E g decls) :
    ∃ arg, HeadIs E arg head ∧
      fklParseProductionRuleWithCharBuf E A (fklInitParserGrammerParseArg g) text =
        fklParseProductionRuleWithCharBuf E A arg rest := by
  have hhead : HeadIs E (fklInitParserGrammerParseArg g) .none := ⟨rfl, rfl⟩
  rcases declareAll_spec (A := A) hg hreads.read with ⟨hnot, -⟩ | ⟨-, g', hsome, -⟩
  · exact absurd hadd hnot
  · obtain ⟨arg, -, hhead', heq⟩ := parse_reads hreads hhead hsome
    exact ⟨arg, hhead', heq⟩

theorem textClean_of_right (hg : g.Good E.toGrammerEnv) {text : List UInt8}
    (h : TextRight E A g text) : TextClean E A g text := by
  refine ⟨fun ds htext hadd => ?_, fun ds head rest hreads hadd hstuck => ?_⟩
  · obtain ⟨head, rest, hreads, hend⟩ := htext
    obtain ⟨arg, -, heq⟩ := parse_added hg hreads hadd
    rw [TextRight, heq, parse_atEnd hend] at h
    obtain ⟨ds', htext', hwf, -⟩ := h
    rwa [PgTextIn.unique ⟨head, rest, hreads, hend⟩ htext']
  · obtain ⟨arg, hhead, heq⟩ := parse_added hg hreads hadd
    rw [TextRight, heq, parse_stuck hstuck hhead] at h
    exact h rfl

theorem textRight_of_clean (hg : g.Good E.toGrammerEnv) {text : List UInt8}
    (h : TextClean E A g text) : TextRight E A g text := by
  have hout := @parse_outcome C E A text (fklInitParserGrammerParseArg g) .none ⟨rfl, rfl⟩
  rw [TextRight]
  cases hres : fklParseProductionRuleWithCharBuf E A (fklInitParserGrammerParseArg g) text with
  | ok arg =>
    rw [hres] at hout
    obtain ⟨ds, head, rest, hreads, hfold, hend⟩ := hout
    have htext : PgTextIn A ds text := ⟨head, rest, hreads, hend⟩
    rcases declareAll_spec (A := A) hg hreads.read with ⟨-, hnone⟩ | ⟨hadd, g', hsome, -, hcontents⟩
    · cases hnone.symm.trans hfold
    · obtain rfl := Option.some.inj (hsome.symm.trans hfold)
      exact ⟨ds, htext, h.wellFormed ds htext hadd, hcontents⟩
  | error stop =>
    rintro rfl
    rw [hres] at hout
    obtain ⟨ds, head, rest, g', hreads, hfold, hstuck⟩ := hout
    rcases declareAll_spec (A := A) hg hreads.read with ⟨-, hnone⟩ | ⟨hadd, -⟩
    · cases hnone.symm.trans hfold
    · exact h.not_stuck ds head rest hreads hadd hstuck

/-- The parser takes a grammar text as it is written exactly when nothing stands in it that the
parser does not look at. -/
theorem fklParseProductionRuleWithCharBuf_right_iff (hg : g.Good E.toGrammerEnv)
    (text : List UInt8) : TextRight E A g text ↔ TextClean E A g text :=
  ⟨textClean_of_right hg, textRight_of_clean hg⟩

end

/-- A rule of a nonterminal whose name begins with the special prefix. -/
def specialLeftText : List UInt8 := bytesOf "?x -> \"a\""

theorem specialLeftText_in : PgTextIn (⟨none, (), ()⟩ : Actions Unit)
    [.rule (bytesOf "?x") [(false, .string (bytesOf "a"))] false ()] specialLeftText := by
  have hname : Next specialLeftText .identifier (nextToken specialLeftText).token
      (nextToken specialLeftText).rest := ⟨by decide, by decide, rfl, by decide, rfl⟩
  have harrow : Next (bytesOf " -> \"a\"") .leftArrow ⟨.leftArrow, bytesOf "-> \"a\"", 2⟩
      (bytesOf " \"a\"") := ⟨by decide, by decide, by decide, rfl, by decide⟩
  have hstr : Next (bytesOf " \"a\"") .termString ⟨.termString, bytesOf "\"a\"", 3⟩ [] :=
    ⟨by decide, by decide, by decide, rfl, by decide⟩
  exact ⟨_, [], .begins hname (.rule harrow (.sym (.string hstr) (.atEnd ⟨rfl, rfl⟩))) .refl,
    rfl, rfl⟩

theorem specialLeft_accepted : (∃ arg, fklParseProductionRuleWithCharBuf (sExpEnv fun _ => true)
      (⟨none, (), ()⟩ : Actions Unit)
      (fklInitParserGrammerParseArg FklGrammer.fklInitEmptyGrammer) specialLeftText = .ok arg) ∧
    ¬TextRight (sExpEnv fun _ => true) (⟨none, (), ()⟩ : Actions Unit)
      FklGrammer.fklInitEmptyGrammer specialLeftText := by
  have hadd : Addable (sExpEnv fun _ => true) (FklGrammer.fklInitEmptyGrammer : FklGrammer Unit)
      [.rule (bytesOf "?x") [(false, .string (bytesOf "a"))] false ()] := by
    refine ⟨fun d hd => ?_, by decide⟩
    obtain rfl := List.mem_singleton.mp hd
    rw [PgDecl.LeftFree]
    decide
  constructor
  · obtain ⟨head, rest, hreads, hend⟩ := specialLeftText_in
    obtain ⟨arg, -, heq⟩ := parse_added FklGrammer.good_empty hreads hadd
    exact ⟨arg, heq.trans (parse_atEnd hend)⟩
  · intro h
    have hclean := (textClean_of_right FklGrammer.good_empty h).wellFormed _ specialLeftText_in
      hadd _ List.mem_cons_self
    cases hclean.head.1

theorem oneRuleText_right_iff : TextRight (sExpEnv fun _ => true) (⟨none, (), ()⟩ : Actions Unit)
    FklGrammer.fklInitEmptyGrammer (bytesOf "S -> \"a\"") ↔
      TextClean (sExpEnv fun _ => true) ⟨none, (), ()⟩ FklGrammer.fklInitEmptyGrammer
        (bytesOf "S -> \"a\"") :=
  fklParseProductionRuleWithCharBuf_right_iff FklGrammer.good_empty _

end FakeLisp.GrammerTables.PgText
