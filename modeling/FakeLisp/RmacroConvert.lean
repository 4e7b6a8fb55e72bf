import FakeLisp.GrammerMergeUnion
import FakeLisp.RmacroDef

/-! The texts of the symbols that the rules of a reader macro are turned into. -/

namespace FakeLisp.GrammerTables

open ConcatChains SymTables

variable {E : RmacroEnv} {name : List UInt8} {t t' t'' : SymTables}

/-- Symbols with the texts `xs` have been made, of which the strings `ds` are delimiters. -/
structure Converted (E : RmacroEnv) (t : SymTables) (xs : List SymText) (ds : List (List UInt8))
    (t' : SymTables) (ss : List FklGrammerSym) : Prop where
  extends_ : Extends ds t t'
  has : ∀ s ∈ ss, t'.HasSym s
  text : ss.map (·.text t'.regexes) = xs
  compiles : (∀ k ∈ t.regexes.keys, E.compiles k = true) →
    ∀ k ∈ t'.regexes.keys, E.compiles k = true

theorem Converted.nil (t : SymTables) : Converted E t [] [] t [] :=
  ⟨Extends.refl t, by simp, rfl, id⟩

theorem Converted.append {xs xs' : List SymText} {ds ds' : List (List UInt8)}
    {ss ss' : List FklGrammerSym} (h : Converted E t xs ds t' ss)
    (h' : Converted E t' xs' ds' t'' ss') :
    Converted E t (xs ++ xs') (ds ++ ds') t'' (ss ++ ss') where
  extends_ := h.extends_.trans h'.extends_
  has s hs := (List.mem_append.mp hs).elim (fun hs => h'.extends_.hasSym (h.has s hs)) (h'.has s)
  text := by
    have hold : ss.map (·.text t''.regexes) = ss.map (·.text t'.regexes) :=
      List.map_congr_left fun s hs => h'.extends_.text (h.has s hs)
    rw [List.map_append, hold, h.text, h'.text]
  compiles hc := h'.compiles (h.compiles hc)

/-! One symbol. -/

theorem addDelimiter_converted (t : SymTables) (s : List UInt8) :
    Converted E t [.term (.string s)] [s] (t.addDelimiter s).1
      [.term (.string (t.addDelimiter s).2)] where
  extends_ := t.addDelimiter_extends s
  has := by simpa [HasSym, addDelimiter, fklAddString] using InternTable.add_mem t.terminals s
  text := by
    simpa [FklGrammerSym.text, FklGrammerIgnoreSym.text, addDelimiter, fklAddString] using
      InternTable.add_key t.terminals s
  compiles := id

/-- A string that does not become a delimiter. -/
theorem addTerminal_extends (t : SymTables) (s : List UInt8) :
    Extends [] t { t with terminals := (t.terminals.add s).1 } :=
  ⟨t.terminals.le_add s, le_rfl, by simp⟩

theorem keyword_converted (t : SymTables) (s : List UInt8) :
    Converted E t [.term (.string s)] [] { t with terminals := (fklAddString t.terminals s).1 }
      [.term (.string (fklAddString t.terminals s).2)] where
  extends_ := addTerminal_extends t s
  has := by simpa [HasSym, fklAddString] using InternTable.add_mem t.terminals s
  text := by
    simpa [FklGrammerSym.text, FklGrammerIgnoreSym.text, fklAddString] using
      InternTable.add_key t.terminals s
  compiles := id

/-- What a regular expression is where the tables hold only those that compile. -/
def regexText (E : RmacroEnv) (s : List UInt8) : SymText :=
  .term (.regex (if E.compiles s then some s else none))

theorem addRegexStr_converted (ht : ∀ k ∈ t.regexes.keys, E.compiles k = true) (s : List UInt8) :
    Converted E t [regexText E s] []
      { t with regexes := (fklAddRegexStr E.compiles t.regexes s).1 }
      [.term (.regex (fklAddRegexStr E.compiles t.regexes s).2)] := by
  cases hs : E.compiles s with
  | false =>
    have hnot : ¬(s ∈ t.regexes.keys ∨ E.compiles s = true) := by
      rintro (hmem | hc)
      · rw [ht s hmem] at hs
        cases hs
      · rw [hs] at hc
        cases hc
    rw [fklAddRegexStr, if_neg hnot]
    refine ⟨Extends.refl t, by simp [HasSym], ?_, id⟩
    simp [FklGrammerSym.text, FklGrammerIgnoreSym.text, fklGetStringWithRegex, regexText, hs]
  | true =>
    rw [addRegexStr_eq hs]
    have hmem := InternTable.mem_def.mp (t.regexes.add_mem s)
    rw [InternTable.add_key] at hmem
    refine ⟨⟨le_rfl, t.regexes.le_add s, by simp⟩, fun x hx => ?_, ?_, fun _ k hk => ?_⟩
    · obtain rfl := List.mem_singleton.mp hx
      intro a ha
      obtain rfl := Option.some.inj ha
      exact (List.getElem?_eq_some_iff.mp hmem).1
    · have hget : fklGetStringWithRegex (t.regexes.add s).1 (some (t.regexes.add s).2.addr) =
          some s := hmem
      simp [FklGrammerSym.text, FklGrammerIgnoreSym.text, hget, regexText, hs]
    · rcases InternTable.mem_keys_add.mp hk with hk | rfl
      · exact ht k hk
      · exact hs

theorem addArgs_spec (t : SymTables) (args : List (List UInt8)) :
    Extends [] t (addArgs t args).1 ∧ (addArgs t args).1.regexes = t.regexes ∧
      (addArgs t args).2.map (·.key) = args ∧
      ∀ str ∈ (addArgs t args).2, str ∈ (addArgs t args).1.terminals := by
  induction args generalizing t with
  | nil => exact ⟨Extends.refl t, rfl, rfl, by simp [addArgs]⟩
  | cons s args ih =>
    obtain ⟨hext, hre, hkeys, hmem⟩ := ih { t with terminals := (t.terminals.add s).1 }
    refine ⟨(addTerminal_extends t s).trans hext, hre, ?_, fun str hstr => ?_⟩
    · simp only [addArgs, fklAddString, List.map_cons, hkeys, InternTable.add_key]
    · rcases List.mem_cons.mp hstr with rfl | hstr
      · exact InternTable.mem_mono hext.terminals (InternTable.add_mem _ _)
      · exact hmem str hstr

/-- A builtin terminal whose arguments `strs` are in the tables. -/
theorem builtin_converted {ds : List (List UInt8)} {b : FklLalrBuiltinMatch}
    {strs : List FklString} {args : List (List UInt8)} (hext : Extends ds t t')
    (hre : t'.regexes = t.regexes) (hkeys : strs.map (·.key) = args)
    (hmem : ∀ str ∈ strs, str ∈ t'.terminals)
    (hcheck : fklBuiltinTermArgsCheck b args.length = .dummy) :
    Converted E t [.term (.builtin b args)] ds t' [.term (.builtin ⟨b, strs⟩)] where
  extends_ := hext
  has s hs := by
    obtain rfl := List.mem_singleton.mp hs
    refine ⟨hmem, ?_⟩
    rw [← hkeys, List.length_map] at hcheck
    exact hcheck
  text := by simp [FklGrammerSym.text, FklGrammerIgnoreSym.text, hkeys]
  compiles := by rw [hre]; exact id

/-- A symbol that is made of no string. -/
theorem plain_converted {s : FklGrammerSym} {x : SymText} (t : SymTables) (hs : t.HasSym s)
    (hx : s.text t.regexes = x) : Converted E t [x] [] t [s] :=
  ⟨Extends.refl t, by simpa using hs, by simpa using hx, id⟩

/-! The symbols of a rule as they are written. -/

/-- The name of a nonterminal in the grammar. -/
def qualify (E : RmacroEnv) (name sym : List UInt8) : List UInt8 :=
  if qualifiedSep ∈ sym ∨ sym ∈ E.builtinNonterms then sym else makeQualifiedSym name sym

def RuleSym.text (E : RmacroEnv) (name : List UInt8) : RuleSym → SymText
  | string s => .term (.string s)
  | keyword s => .keyword s
  | regex s => .term (.regex (some s))
  | builtin _ b => .term (.builtin b [])
  | builtinVec _ b args => .term (.builtin b args)
  | nonterm sym => .nonterm (E.symbol (qualify E name sym))
  | qualified a b => .nonterm (E.symbol (makeQualifiedSym a b))

def RuleSym.isTerm : RuleSym → Bool
  | string _ | regex _ | builtin _ _ | builtinVec _ _ _ => true
  | keyword _ | nonterm _ | qualified _ _ => false

/-- What stands in the right side of a production. -/
inductive RulePart where
  | ignore
  | comp (len : Nat)
  | sym (s : RuleSym)

def RulePart.isTerm : RulePart → Bool
  | sym s => s.isTerm
  | _ => false

def RulePart.text (E : RmacroEnv) (name : List UInt8) : RulePart → SymText
  | ignore => .ignore
  | comp len => .comp len
  | sym s => s.text E name

/-- The chains of the rule with `IGNORE` between them, each of two or more terminals behind a
mark. -/
def ruleParts (items : List RuleItem) : List RulePart :=
  markedChains .ignore RulePart.isTerm .comp (items.map fun i => (i.1, .sym i.2))

theorem sym_mem_ruleParts {s : RuleSym} {items : List RuleItem} :
    RulePart.sym s ∈ ruleParts items ↔ ∃ i ∈ items, i.2 = s := by
  rw [ruleParts, mem_markedChains (by simp) (by simp)]
  simp

/-! What becomes of them. -/

/-- The text of what the symbol of the command is turned into. -/
def RuleSym.madeText (E : RmacroEnv) (name : List UInt8) : RuleSym → SymText
  | keyword s => .term (.string s)
  | regex s => regexText E s
  | s => s.text E name

def RuleSym.madeDelims : RuleSym → List (List UInt8)
  | string s => [s]
  | _ => []

def RulePart.graSym : RulePart → FklCgRmacroGraSym
  | ignore => ⟨.ignore, none⟩
  | comp len => ⟨.comp, some (.atom (.fix (len % 2 ^ 32 : Nat)))⟩
  | sym s => s.graSym

def RulePart.madeText (E : RmacroEnv) (name : List UInt8) : RulePart → SymText
  | ignore => .ignore
  | comp len => .comp (len % 2 ^ 32)
  | sym s => s.madeText E name

def RulePart.madeDelims : RulePart → List (List UInt8)
  | sym s => s.madeDelims
  | _ => []

def RulePart.Valid : RulePart → Prop
  | sym s => s.Valid
  | _ => True

theorem isQualifiedSym_eq {sym : List UInt8} (h : (isValidNontermSym sym).isSome = true) :
    isQualifiedSym sym = some (decide (qualifiedSep ∈ sym)) := by
  have hspan : sym.span (fun c => c ≠ qualifiedSep) =
      (sym.takeWhile fun c => c ≠ qualifiedSep, sym.dropWhile fun c => c ≠ qualifiedSep) :=
    List.span_eq_takeWhile_dropWhile _ _
  unfold isQualifiedSym
  unfold isValidNontermSym at h ⊢
  rw [hspan] at h ⊢
  dsimp only at h ⊢
  cases hpos : sym.dropWhile fun c => decide (c ≠ qualifiedSep) with
  | nil =>
    have hnot : qualifiedSep ∉ sym := fun hmem => by
      have := List.dropWhile_eq_nil_iff.mp hpos _ hmem
      simp at this
    have hhead : sym.head? ≠ some qualifiedSep := fun hhead =>
      hnot (List.mem_of_head? hhead)
    simp [hnot, hhead]
  | cons c other =>
    rw [hpos] at h
    dsimp only at h
    have hc : c = qualifiedSep := by
      have hnot := List.head?_dropWhile_not (fun c => decide (c ≠ qualifiedSep)) sym
      rw [hpos] at hnot
      simpa using hnot
    have hmem : qualifiedSep ∈ sym := by
      have hsub := List.dropWhile_suffix (fun c => decide (c ≠ qualifiedSep)) (l := sym)
      rw [hpos, hc] at hsub
      exact hsub.subset List.mem_cons_self
    split_ifs at h with hbad
    · cases h
    · dsimp only
      rw [if_neg hbad]
      simp [hc, hmem]

theorem rmacroNontermOf_sym {sym : List UInt8} (h : (isValidNontermSym sym).isSome = true) :
    rmacroNontermOf E name (.atom (.sym sym)) = some (qualify E name sym) := by
  rw [rmacroNontermOf, isQualifiedSym_eq h, qualify]
  by_cases hsep : qualifiedSep ∈ sym
  · simp [hsep]
  · by_cases hbuiltin : sym ∈ E.builtinNonterms <;> simp [hsep, hbuiltin]

theorem asStr_mapM (args : List (List UInt8)) : (args.map strAst).mapM asStr = some args := by
  induction args with
  | nil => rfl
  | cons s args ih => simp [ih, strAst, asStr]

theorem builtinTerminalInit_sym {sym : List UInt8} {b : FklLalrBuiltinMatch}
    (h : (RuleSym.builtin sym b).Valid) :
    builtinTerminalInit (.atom (.sym sym)) t = some (t, ⟨b, []⟩) := by
  simp [builtinTerminalInit, h.1, h.2]

theorem builtinTerminalInit_vec {sym : List UInt8} {b : FklLalrBuiltinMatch}
    {args : List (List UInt8)} (h : (RuleSym.builtinVec sym b args).Valid) :
    builtinTerminalInit (argsAst sym args) t =
      some ((addArgs t args).1, ⟨b, (addArgs t args).2⟩) := by
  have hlen := congrArg List.length (addArgs_spec t args).2.2.1
  rw [List.length_map] at hlen
  simp [builtinTerminalInit, argsAst, asSym, asStr_mapM, h.1, hlen, h.2, -List.mapM_map]

theorem part_converted {p : RulePart} {s : FklGrammerSym} (hp : p.Valid)
    (ht : ∀ k ∈ t.regexes.keys, E.compiles k = true)
    (h : rmacroProdSymToGraSym E name p.graSym t = some (t', s)) :
    Converted E t [p.madeText E name] p.madeDelims t' [s] := by
  cases p with
  | ignore =>
    cases h
    exact plain_converted t trivial rfl
  | comp len =>
    have hc := rmacroProdSymToGraSym_converts h
    generalize hsym : (RulePart.comp len).graSym = sym at hc
    cases hc with
    | comp hlen =>
      simp only [RulePart.graSym, FklCgRmacroGraSym.mk.injEq, true_and, Option.some.injEq,
        Nast.atom.injEq, NastAtom.fix.injEq, Nat.cast_inj] at hsym
      subst hsym
      exact plain_converted t trivial rfl
    | term hterm => cases hterm <;> cases hsym
    | _ => cases hsym
  | sym r =>
    cases r with
    | string s =>
      cases h
      exact addDelimiter_converted t s
    | keyword s =>
      cases h
      exact keyword_converted t s
    | regex s =>
      cases h
      exact addRegexStr_converted ht s
    | builtin sym b =>
      obtain ⟨⟨t₁, x⟩, hx, h⟩ := Option.bind_eq_some_iff.mp h
      obtain ⟨v, hv, hx⟩ := Option.bind_eq_some_iff.mp hx
      rw [builtinTerminalInit_sym hp] at hv
      cases hv
      cases hx
      cases h
      exact builtin_converted (Extends.refl t) rfl rfl (by simp) hp.2
    | builtinVec sym b args =>
      obtain ⟨⟨t₁, x⟩, hx, h⟩ := Option.bind_eq_some_iff.mp h
      obtain ⟨v, hv, hx⟩ := Option.bind_eq_some_iff.mp hx
      rw [builtinTerminalInit_vec hp] at hv
      cases hv
      cases hx
      cases h
      obtain ⟨hext, hre, hkeys, hmem⟩ := addArgs_spec t args
      exact builtin_converted hext hre hkeys hmem hp.2
    | nonterm sym =>
      obtain ⟨left, hleft, h⟩ := Option.bind_eq_some_iff.mp h
      rw [rmacroNontermOf_sym hp.1] at hleft
      cases h
      cases hleft
      exact plain_converted t trivial rfl
    | qualified a b =>
      cases h
      exact plain_converted t trivial rfl

theorem parts_converted {ps : List RulePart} {ss : List FklGrammerSym}
    (hps : ∀ p ∈ ps, p.Valid) (ht : ∀ k ∈ t.regexes.keys, E.compiles k = true)
    (h : rmacroSyms (rmacroProdSymToGraSym E name) t (ps.map RulePart.graSym) = some (t', ss)) :
    Converted E t (ps.map (RulePart.madeText E name)) (ps.flatMap RulePart.madeDelims) t' ss := by
  induction ps generalizing t ss with
  | nil =>
    cases h
    exact Converted.nil _
  | cons p ps ih =>
    obtain ⟨hp, hps⟩ := List.forall_mem_cons.mp hps
    obtain ⟨⟨t₁, s⟩, hs, h⟩ := Option.bind_eq_some_iff.mp h
    obtain ⟨⟨t₂, ss'⟩, hss, h⟩ := Option.bind_eq_some_iff.mp h
    cases h
    have hone := part_converted hp ht hs
    exact hone.append (ih hps (hone.compiles ht) hss)

/-- The parser folds what it has read to the parts of the rule. -/
theorem fold_ruleSyms (items : List RuleItem) :
    fklGraFoldConcatChains (ruleSyms items) = (ruleParts items).map RulePart.graSym := by
  have hitems : ∀ i ∈ items.map fun i => (i.1, i.2.graSym),
      decide (i.2.type = .ignore) = false := by
    intro i hi
    obtain ⟨i, -, rfl⟩ := List.mem_map.mp hi
    cases i.2 <;> rfl
  have hmap : (items.map fun i => (i.1, i.2.graSym)) =
      (items.map fun i => (i.1, RulePart.sym i.2)).map fun i => (i.1, i.2.graSym) := by
    rw [List.map_map]
    rfl
  rw [fklGraFoldConcatChains, ruleSyms, foldConcatChains_joinItems rfl hitems, hmap, ruleParts]
  refine @markedChains_map _ _ RulePart.isTerm .comp RulePart.graSym _ _ (fun p => ?_)
    (fun len => rfl) .ignore _
  cases p with
  | ignore | comp => rfl
  | sym s => cases s <;> rfl

end FakeLisp.GrammerTables
