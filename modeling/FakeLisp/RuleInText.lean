import FakeLisp.PgRightPart
import FakeLisp.RmacroConvert

/-! The rule of a reader macro, written in a grammar text and read by the parser of such texts. -/

namespace FakeLisp.GrammerTables

open ConcatChains SymTables RightPart ParserGrammer

/-- The next token of a text, with what is left behind it. -/
structure Next (buf : List UInt8) (type : MyTokenType) (token : Token) (rest : List UInt8) :
    Prop where
  nonempty : buf ≠ []
  noErr : (nextToken buf).err = false
  token_eq : (nextToken buf).token = token
  type_eq : token.type = type
  rest_eq : (nextToken buf).rest = rest

inductive ArgListIn : List (List UInt8) → List UInt8 → List UInt8 → Prop
  | last {buf rest rest' : List UInt8} {str rb : Token} (h : Next buf .termString str rest)
    (hrb : Next rest .rb rb rest') : ArgListIn [str.unescaped] buf rest'
  | more {buf rest rest' rest'' : List UInt8} {str comma : Token} {args : List (List UInt8)}
    (h : Next buf .termString str rest) (hcomma : Next rest .comma comma rest')
    (hmore : ArgListIn args rest' rest'') : ArgListIn (str.unescaped :: args) buf rest''

/-- Arguments of a builtin terminal. -/
inductive ArgsIn : List (List UInt8) → List UInt8 → List UInt8 → Prop
  | absent {buf : List UInt8} (h : (nextToken buf).token.type ≠ .lb) :
    ArgsIn [] buf (nextToken buf).token.str
  | empty {buf rest rest' : List UInt8} {lb rb : Token} (h : Next buf .lb lb rest)
    (hrb : Next rest .rb rb rest') : ArgsIn [] buf rest'
  | list {buf rest rest' : List UInt8} {lb : Token} {args : List (List UInt8)}
    (h : Next buf .lb lb rest) (hargs : ArgListIn args rest rest') : ArgsIn args buf rest'

/-- A symbol of a rule. Nonterminals have the names that they have in the grammar. -/
inductive SymIn (E : RmacroEnv) (name : List UInt8) :
    RuleSym → List UInt8 → List UInt8 → Prop
  | string {buf rest : List UInt8} {token : Token} (h : Next buf .termString token rest) :
    SymIn E name (.string token.unescaped) buf rest
  | keyword {buf rest : List UInt8} {token : Token} (h : Next buf .termKeyword token rest) :
    SymIn E name (.keyword token.unescaped) buf rest
  | regex {buf rest : List UInt8} {token : Token} (h : Next buf .termRegex token rest) :
    SymIn E name (.regex token.content) buf rest
  | builtin {buf rest rest' : List UInt8} {token : Token} {b : FklLalrBuiltinMatch}
    (h : Next buf .identifier token rest) (hargs : ArgsIn [] rest rest') :
    SymIn E name (.builtin token.text b) buf rest'
  | builtinVec {buf rest rest' : List UInt8} {token : Token} {b : FklLalrBuiltinMatch}
    {args : List (List UInt8)} (h : Next buf .identifier token rest)
    (hargs : ArgsIn args rest rest') : SymIn E name (.builtinVec token.text b args) buf rest'
  | nonterm {buf rest sym : List UInt8} {token : Token} (h : Next buf .identifier token rest)
    (hsym : token.text = qualify E name sym) (hspecial : isBuiltinGraSym token.text = false) :
    SymIn E name (.nonterm sym) buf rest
  | qualified {buf rest a b : List UInt8} {token : Token} (h : Next buf .identifier token rest)
    (hsym : token.text = makeQualifiedSym a b) (hspecial : isBuiltinGraSym token.text = false) :
    SymIn E name (.qualified a b) buf rest

/-- The symbols of a rule and the name of its action. -/
inductive RuleIn (E : RmacroEnv) (name : List UInt8) :
    Bool → List RuleItem → List UInt8 → List UInt8 → List UInt8 → Prop
  | done {hasIgnore : Bool} {buf rest rest' : List UInt8} {reduce action : Token}
    (h : Next buf .reduceTo reduce rest) (haction : Next rest .identifier action rest') :
    RuleIn E name hasIgnore [] buf action.text rest'
  | sym {hasIgnore : Bool} {buf rest rest' action : List UInt8} {s : RuleSym}
    {items : List RuleItem} (h : SymIn E name s buf rest)
    (hrule : RuleIn E name true items rest action rest') :
    RuleIn E name hasIgnore ((hasIgnore, s) :: items) buf action rest'
  | concat {buf rest rest' action : List UInt8} {token : Token} {items : List RuleItem}
    (hne : items ≠ []) (h : Next buf .concat token rest)
    (hrule : RuleIn E name false items rest action rest') :
    RuleIn E name true items buf action rest'

variable {C : Type} {E : RmacroEnv} {A : Actions C} {name : List UInt8} {t : SymTables}
  {buf rest : List UInt8}

/-! Arguments. -/

theorem ArgListIn.next {args : List (List UInt8)} (h : ArgListIn args buf rest) :
    (nextToken buf).err = false ∧ (nextToken buf).token.type = .termString := by
  cases h with
  | last h | more h => exact ⟨h.noErr, h.token_eq ▸ h.type_eq⟩

theorem parseArgsLoop_eq {args : List (List UInt8)} (hargs : ArgListIn args buf rest)
    (acc : List FklString) : parseArgsLoop t acc (nextToken buf).token (nextToken buf).rest =
      .ok (((addArgs t args).1, acc ++ (addArgs t args).2), rest) := by
  induction hargs generalizing t acc with
  | last h hrb =>
    rw [h.token_eq, h.rest_eq, parseArgsLoop, dif_pos hrb.nonempty, if_neg (by simp [h.type_eq])]
    simp only [hrb.noErr, hrb.token_eq, hrb.type_eq, hrb.rest_eq]
    rfl
  | more h hcomma hmore ih =>
    rw [h.token_eq, h.rest_eq, parseArgsLoop, dif_pos hcomma.nonempty, if_neg (by simp [h.type_eq])]
    simp only [hcomma.noErr, hcomma.token_eq, hcomma.type_eq, hcomma.rest_eq, hmore.next.1, ih]
    simp [addArgs, addTerminal]

theorem parseOptionalArgs_eq {args : List (List UInt8)} (hargs : ArgsIn args buf rest) :
    parseOptionalArgs t buf = .ok (addArgs t args, rest) := by
  unfold parseOptionalArgs
  cases hargs with
  | absent h =>
    dsimp only
    rw [if_neg h]
    rfl
  | empty h hrb =>
    have hlb : (nextToken buf).token.type = .lb := h.token_eq ▸ h.type_eq
    dsimp only
    rw [if_pos hlb, parseBuiltinArgs, nextToken_str]
    dsimp only
    rw [if_neg (not_not.mpr hlb), h.rest_eq, if_pos (hrb.token_eq ▸ hrb.type_eq), hrb.rest_eq]
    rfl
  | list h hargs =>
    have hlb : (nextToken buf).token.type = .lb := h.token_eq ▸ h.type_eq
    dsimp only
    rw [if_pos hlb, parseBuiltinArgs, nextToken_str]
    dsimp only
    rw [if_neg (not_not.mpr hlb), h.rest_eq, if_neg (by simp [hargs.next.2]),
      parseArgsLoop_eq hargs]
    rfl

/-! Symbols. -/

/-- The text of what a symbol of a grammar text is made into. -/
def RuleSym.pgText (E : RmacroEnv) (name : List UInt8) : RuleSym → SymText
  | regex s => regexText E s
  | s => s.text E name

/-- The strings that become delimiters. -/
def RuleSym.delims : RuleSym → List (List UInt8)
  | string s => [s]
  | builtinVec _ _ args => args
  | _ => []

theorem addDelimiters_extends {strs : List FklString} {args : List (List UInt8)}
    (h : strs.map (·.key) = args) (t : SymTables) : Extends args t (addDelimiters t strs) :=
  ⟨le_rfl, le_rfl, fun d => by simp [addDelimiters, h]⟩

theorem keyword_sym_converted (t : SymTables) (s : List UInt8) :
    Converted E t [.keyword s] [] (addTerminal t s).1 [.keyword (addTerminal t s).2] where
  extends_ := addTerminal_extends t s
  has := by simpa [HasSym, addTerminal, fklAddString] using InternTable.add_mem t.terminals s
  text := by
    simpa [FklGrammerSym.text, addTerminal, fklAddString] using InternTable.add_key t.terminals s
  compiles := id

theorem builtinArgs_converted {b : FklLalrBuiltinMatch} {args : List (List UInt8)} (t : SymTables)
    (h : fklBuiltinTermArgsCheck b args.length = .dummy) :
    Converted E t [.term (.builtin b args)] args
      (addDelimiters (addArgs t args).1 (addArgs t args).2)
      [.term (.builtin ⟨b, (addArgs t args).2⟩)] := by
  obtain ⟨hext, hre, hkeys, hmem⟩ := addArgs_spec t args
  have hdelims := addDelimiters_extends hkeys (addArgs t args).1
  exact builtin_converted (hext.trans hdelims) hre hkeys
    (fun str hstr => InternTable.mem_mono hdelims.terminals (hmem str hstr)) h

theorem builtinName_head {sym : List UInt8} {b : FklLalrBuiltinMatch}
    (h : fklGetBuiltinMatch sym = some b) :
    (isIgnoreHead sym || isTerminalsHead sym) = false ∧ isBuiltinGraSym sym = true := by
  have hall : ∀ p ∈ builtinMatches,
      (isIgnoreHead p.1 || isTerminalsHead p.1) = false ∧ isBuiltinGraSym p.1 = true := by decide
  obtain ⟨l, l', heq, -⟩ := List.lookup_eq_some_iff.mp h
  exact hall (sym, b) (by rw [heq]; simp)

theorem head_of_not_special {sym : List UInt8} (h : isBuiltinGraSym sym = false) :
    (isIgnoreHead sym || isTerminalsHead sym) = false := by
  cases sym with
  | nil => rfl
  | cons c sym =>
    have hc : (ch '?' == c) = false := by
      simpa [isBuiltinGraSym, bytesOf, List.isPrefixOf, ch] using h
    simp [isIgnoreHead, isTerminalsHead, matchDelim, pgIgnore, pgTerminals, List.isPrefixOf, hc]

theorem parseRightLoop_builtin {rest' : List UInt8} {token : Token} {b : FklLalrBuiltinMatch}
    {args : List (List UInt8)} (hb : fklGetBuiltinMatch token.text = some b)
    (hcheck : fklBuiltinTermArgsCheck b args.length = .dummy)
    (h : Next buf .identifier token rest)
    (hargs : parseOptionalArgs t rest = .ok (addArgs t args, rest'))
    (syms : List FklGrammerSym) (hasIgnore : Bool) :
    parseRightLoop E A t syms hasIgnore buf =
      parseRightLoop E A (addDelimiters (addArgs t args).1 (addArgs t args).2)
        (RightPart.pushGraSym syms hasIgnore (.term (.builtin ⟨b, (addArgs t args).2⟩))) true
        rest' := by
  obtain ⟨hhead, hspecial⟩ := builtinName_head hb
  have hlen := congrArg List.length (addArgs_spec t args).2.2.1
  rw [List.length_map] at hlen
  rw [parseRightLoop, dif_neg h.nonempty, dif_neg (by simp [h.noErr])]
  simp only [h.token_eq, h.type_eq, h.rest_eq]
  rw [if_neg (by simp [hhead]), if_pos hspecial]
  simp only [hb]
  split
  · next heq =>
    rw [h.rest_eq, hargs] at heq
    cases heq
  · next heq =>
    rw [h.rest_eq, hargs] at heq
    obtain ⟨hargs', rfl⟩ := Prod.mk.inj (Except.ok.inj heq)
    rw [hargs'] at hlen ⊢
    rw [if_neg (by simp [hlen, hcheck])]

/-- The loop goes on behind a symbol. -/
theorem parseRightLoop_sym {s : RuleSym} (hs : s.Valid) (h : SymIn E name s buf rest)
    (ht : ∀ k ∈ t.regexes.keys, E.compiles k = true) : ∃ t' x,
      Converted E t [s.pgText E name] s.delims t' [x] ∧ ∀ syms hasIgnore,
        parseRightLoop E A t syms hasIgnore buf =
          parseRightLoop E A t' (RightPart.pushGraSym syms hasIgnore x) true rest := by
  cases h with
  | string h =>
    refine ⟨_, _, addDelimiter_converted t _, fun syms hasIgnore => ?_⟩
    rw [parseRightLoop, dif_neg h.nonempty, dif_neg (by simp [h.noErr])]
    simp only [h.token_eq, h.type_eq, h.rest_eq]
  | keyword h =>
    refine ⟨_, _, keyword_sym_converted t _, fun syms hasIgnore => ?_⟩
    rw [parseRightLoop, dif_neg h.nonempty, dif_neg (by simp [h.noErr])]
    simp only [h.token_eq, h.type_eq, h.rest_eq]
  | regex h =>
    refine ⟨_, _, addRegexStr_converted ht _, fun syms hasIgnore => ?_⟩
    rw [parseRightLoop, dif_neg h.nonempty, dif_neg (by simp [h.noErr])]
    simp only [h.token_eq, h.type_eq, h.rest_eq]
    rfl
  | builtin h hargs =>
    exact ⟨_, _, builtinArgs_converted t hs.2,
      parseRightLoop_builtin hs.1 hs.2 h (parseOptionalArgs_eq hargs)⟩
  | builtinVec h hargs =>
    exact ⟨_, _, builtinArgs_converted t hs.2,
      parseRightLoop_builtin hs.1 hs.2 h (parseOptionalArgs_eq hargs)⟩
  | nonterm h hsym hspecial =>
    refine ⟨t, _, plain_converted (s := .nonterm (E.symbol (qualify E name _))) t trivial rfl,
      fun syms hasIgnore => ?_⟩
    rw [parseRightLoop, dif_neg h.nonempty, dif_neg (by simp [h.noErr])]
    simp only [h.token_eq, h.type_eq, h.rest_eq]
    rw [if_neg (by simp [head_of_not_special hspecial]), if_neg (by simp [hspecial]), hsym]
  | qualified h hsym hspecial =>
    refine ⟨t, _, plain_converted (s := .nonterm (E.symbol (makeQualifiedSym _ _))) t trivial rfl,
      fun syms hasIgnore => ?_⟩
    rw [parseRightLoop, dif_neg h.nonempty, dif_neg (by simp [h.noErr])]
    simp only [h.token_eq, h.type_eq, h.rest_eq]
    rw [if_neg (by simp [head_of_not_special hspecial]), if_neg (by simp [hspecial]), hsym]

/-! Rules. -/

def ruleDelims (items : List RuleItem) : List (List UInt8) := items.flatMap fun i => i.2.delims

theorem parseRightLoop_rule {hasIgnore : Bool} {items : List RuleItem} {actionName : List UInt8}
    {action : C} (hrule : RuleIn E name hasIgnore items buf actionName rest)
    (haction : resolveAction A actionName = some action) (hvalid : ∀ i ∈ items, i.2.Valid)
    (ht : ∀ k ∈ t.regexes.keys, E.compiles k = true) (syms : List FklGrammerSym) :
    ∃ t' ss, parseRightLoop E A t syms hasIgnore buf = .ok ((t', syms ++ ss, action), rest) ∧
      Converted E t (joinItems .ignore (items.map fun i => (i.1, i.2.pgText E name)))
        (ruleDelims items) t' ss := by
  induction hrule generalizing t syms with
  | done h ha =>
    refine ⟨t, [], ?_, Converted.nil t⟩
    rw [parseRightLoop, dif_neg h.nonempty, dif_neg (by simp [h.noErr])]
    simp only [h.token_eq, h.type_eq, h.rest_eq, ha.noErr, ha.token_eq, ha.type_eq, ha.rest_eq,
      haction, List.append_nil]
    rfl
  | @sym hasIgnore buf rest rest' actionName s items h hrule ih =>
    obtain ⟨hs, hvalid⟩ := List.forall_mem_cons.mp hvalid
    obtain ⟨t₁, x, hx, hloop⟩ := parseRightLoop_sym (A := A) hs h ht
    obtain ⟨t₂, ss, heq, hss⟩ := ih haction hvalid (hx.compiles ht)
      (RightPart.pushGraSym syms hasIgnore x)
    have hmore := hx.append hss
    rw [hloop, heq]
    cases hasIgnore with
    | false =>
      refine ⟨t₂, x :: ss, ?_, hmore⟩
      simp [RightPart.pushGraSym, pushSym]
    | true =>
      refine ⟨t₂, .ignore :: x :: ss, ?_,
        (plain_converted (s := .ignore) t trivial rfl).append hmore⟩
      simp [RightPart.pushGraSym, pushSym]
  | concat hne h hrule ih =>
    obtain ⟨t', ss, heq, hss⟩ := ih haction hvalid ht syms
    refine ⟨t', ss, ?_, hss⟩
    rw [parseRightLoop, dif_neg h.nonempty, dif_neg (by simp [h.noErr])]
    simp only [h.token_eq, h.type_eq, h.rest_eq]
    rw [if_pos trivial, heq]

def RulePart.pgText (E : RmacroEnv) (name : List UInt8) : RulePart → SymText
  | ignore => .ignore
  | comp len => .comp (len % 2 ^ 32)
  | sym s => s.pgText E name

def SymText.isIgnore : SymText → Bool
  | ignore => true
  | _ => false

def SymText.isTerm : SymText → Bool
  | term _ => true
  | _ => false

/-- Symbols of a right side are folded as their texts are. -/
theorem fold_joinItems {items : List (Bool × SymText)} {rt : FklRegexTable}
    {ss : List FklGrammerSym} (hitems : ∀ i ∈ items, i.2.isIgnore = false)
    (h : ss.map (FklGrammerSym.text rt) = joinItems .ignore items) :
    (RightPart.fklGraFoldConcatChains ss).map (FklGrammerSym.text rt) =
      markedChains .ignore SymText.isTerm (fun len => .comp (len % 2 ^ 32)) items := by
  rw [RightPart.fklGraFoldConcatChains, ← @foldConcatChains_map _ _ RightPart.isIgnore
    RightPart.isTerm _ (FklGrammerSym.text rt) SymText.isIgnore SymText.isTerm
    (fun len => .comp (len % 2 ^ 32)) (fun s => by cases s <;> rfl) (fun s => by cases s <;> rfl)
    (fun _ => rfl), h, foldConcatChains_joinItems rfl hitems]

/-- The parser of grammar texts folds the symbols to the parts of the rule. -/
theorem fold_texts {items : List RuleItem} {rt : FklRegexTable} {ss : List FklGrammerSym}
    (h : ss.map (FklGrammerSym.text rt) =
      joinItems .ignore (items.map fun i => (i.1, i.2.pgText E name))) :
    (RightPart.fklGraFoldConcatChains ss).map (FklGrammerSym.text rt) =
      (ruleParts items).map (RulePart.pgText E name) := by
  have hitems : ∀ i ∈ items.map fun i => (i.1, i.2.pgText E name), i.2.isIgnore = false := by
    intro i hi
    obtain ⟨i, -, rfl⟩ := List.mem_map.mp hi
    cases i.2 <;> rfl
  have hmap : (items.map fun i => (i.1, i.2.pgText E name)) =
      (items.map fun i => (i.1, RulePart.sym i.2)).map fun i => (i.1, i.2.pgText E name) := by
    rw [List.map_map]
    rfl
  rw [fold_joinItems hitems h, hmap, ruleParts]
  refine @markedChains_map _ _ RulePart.isTerm .comp (RulePart.pgText E name) _ _ (fun p => ?_)
    (fun len => rfl) .ignore _
  cases p with
  | ignore | comp => rfl
  | sym s => cases s <;> rfl

/-! Right sides. -/

inductive RightPartIn (E : RmacroEnv) (name : List UInt8) (items : List RuleItem) :
    List UInt8 → List UInt8 → List UInt8 → Prop
  | intro {buf rest rest' action : List UInt8} {arrow : Token} (h : Next buf .leftArrow arrow rest)
    (hrule : RuleIn E name false items rest action rest') :
    RightPartIn E name items buf action rest'

theorem addProdAndExtra_mem {g g' : FklGrammer C} {noAction : C} {p : FklGrammerProduction C}
    (h : g.fklAddProdAndExtraToGrammer E.toGrammerEnv noAction p = some g') :
    g'.toSymTables = g.toSymTables ∧ ∃ q ∈ g'.prodsOf p.left, q.syms = p.syms := by
  obtain ⟨-, ⟨pre, cur, post, q, -, -, hq, rfl⟩ | ⟨-, rfl | ⟨-, rfl⟩⟩⟩ := FklGrammer.addProd_cases h
  · obtain rfl := Option.some.inj hq
    exact ⟨rfl, p, by simp, rfl⟩
  · refine ⟨rfl, { p with idx := g.prodCount }, ?_, rfl⟩
    rw [FklGrammer.prodsOf_appendProd, if_pos rfl]
    exact List.mem_append_right _ List.mem_cons_self
  · refine ⟨by split <;> rfl, ?_⟩
    rw [FklGrammer.prodsOf_appendProd, if_pos rfl]
    exact ⟨_, List.mem_cons_self, rfl⟩

/-- A rule is added with its parts, and its strings and arguments become delimiters. -/
theorem parseRightPart_rule {g : FklGrammer C} {left : Nat} {items : List RuleItem}
    {actionName : List UInt8} {action : C} (hg : g.Good E.toGrammerEnv)
    (hleft : E.toGrammerEnv.isBuiltin left = false) (hvalid : ∀ i ∈ items, i.2.Valid)
    (h : RightPartIn E name items buf actionName rest)
    (haction : resolveAction A actionName = some action) :
    ∃ g', parseRightPart E A g left buf = .ok (g', rest) ∧
      (∃ q ∈ g'.prodsOf left, q.rhs g'.regexes = (ruleParts items).map (RulePart.pgText E name)) ∧
      ∀ d, d ∈ g'.delimiters.keys ↔ d ∈ g.delimiters.keys ∨ d ∈ ruleDelims items := by
  cases h with
  | intro h hrule =>
    obtain ⟨t', ss, hloop, hss⟩ := parseRightLoop_rule (A := A) hrule haction hvalid hg.compiles []
    have hfold := fold_texts hss.text
    obtain ⟨g', hadd⟩ : ∃ g', addRule E A g left t' ss action = some g' :=
      FklGrammer.addProd_some _ _ hleft fun cur => ⟨_, rfl⟩
    refine ⟨g', ?_, ?_, ?_⟩
    · rw [parseRightPart]
      simp only [h.noErr, h.token_eq, h.type_eq, h.rest_eq, hloop, List.nil_append, hadd]
      rfl
    · obtain ⟨htables, q, hq, hsyms⟩ := addProdAndExtra_mem hadd
      refine ⟨q, hq, ?_⟩
      rw [FklGrammerProduction.rhs, hsyms, htables]
      exact hfold
    · rw [(addProdAndExtra_mem hadd).1]
      exact hss.extends_.delims

end FakeLisp.GrammerTables
