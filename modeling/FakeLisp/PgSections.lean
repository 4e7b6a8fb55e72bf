import FakeLisp.PgText

/-! What stands in a grammar text, and that the parser reads it. Some things are read that should
not be there; what is read says so. -/

namespace FakeLisp.GrammerTables.PgText

open RightPart ParserGrammer

/-- A symbol of a right side. The last argument of a builtin terminal may have a comma behind it at
the end of the text. -/
inductive PgSym where
  | string (s : List UInt8)
  | keyword (s : List UInt8)
  | regex (s : List UInt8)
  | builtin (b : FklLalrBuiltinMatch) (args : List (List UInt8)) (comma : Bool)
  | nonterm (name : List UInt8)

/-- What stands before a symbol of a right side. -/
inductive PgBefore where
  | arrow
  | sym
  | concat
  deriving DecidableEq

def PgBefore.hasIgnore (before : PgBefore) : Bool := before = .sym

/-- A right side whose last `..` has nothing behind it is dangling. -/
inductive PgDecl (C : Type) where
  | rule (left : List UInt8) (items : List (Bool × PgSym)) (dangling : Bool) (action : C)
  | ignore (head : List UInt8) (syms : List PgSym)
  | terminal (head : List UInt8) (s : List UInt8)

/-- The section that a text is in. -/
inductive PgHead where
  | none
  | rule (left : List UInt8)
  | ignore (head : List UInt8)
  | terminal (head : List UInt8)

def headOf (name : List UInt8) : PgHead :=
  if isIgnoreHead name then .ignore name
  else if isTerminalsHead name then .terminal name
  else .rule name

/-- Nothing is left but what is skipped. -/
def AtEnd (buf : List UInt8) : Prop :=
  (nextToken buf).err = false ∧ (nextToken buf).token.type = .none

/-- Arguments with a comma behind them, which nothing but a bracket may follow. -/
inductive TrailingArgs : List (List UInt8) → List UInt8 → Prop
  | last {buf rest rest' : List UInt8} {str comma rb : Token}
    (h : Next buf .termString str rest) (hcomma : Next rest .comma comma rest')
    (hrb : Next rest' .rb rb []) : TrailingArgs [str.unescaped] buf
  | more {buf rest rest' : List UInt8} {str comma : Token} {args : List (List UInt8)}
    (h : Next buf .termString str rest) (hcomma : Next rest .comma comma rest')
    (hmore : TrailingArgs args rest') : TrailingArgs (str.unescaped :: args) buf

inductive PgArgsIn : List (List UInt8) → Bool → List UInt8 → List UInt8 → Prop
  | plain {args : List (List UInt8)} {buf rest : List UInt8} (h : ArgsIn args buf rest) :
    PgArgsIn args false buf rest
  | trailing {args : List (List UInt8)} {buf rest : List UInt8} {lb : Token}
    (h : Next buf .lb lb rest) (hargs : TrailingArgs args rest) : PgArgsIn args true buf []

inductive PgSymIn : PgSym → List UInt8 → List UInt8 → Prop
  | string {buf rest : List UInt8} {token : Token} (h : Next buf .termString token rest) :
    PgSymIn (.string token.unescaped) buf rest
  | keyword {buf rest : List UInt8} {token : Token} (h : Next buf .termKeyword token rest) :
    PgSymIn (.keyword token.unescaped) buf rest
  | regex {buf rest : List UInt8} {token : Token} (h : Next buf .termRegex token rest) :
    PgSymIn (.regex token.content) buf rest
  | builtin {buf rest rest' : List UInt8} {token : Token} {b : FklLalrBuiltinMatch}
    {args : List (List UInt8)} {comma : Bool} (h : Next buf .identifier token rest)
    (hb : fklGetBuiltinMatch token.text = some b) (hargs : PgArgsIn args comma rest rest')
    (hcheck : fklBuiltinTermArgsCheck b args.length = .dummy) :
    PgSymIn (.builtin b args comma) buf rest'
  | nonterm {buf rest : List UInt8} {token : Token} (h : Next buf .identifier token rest)
    (hspecial : isBuiltinGraSym token.text = false) : PgSymIn (.nonterm token.text) buf rest

variable {C : Type}

/-- A right side, up to the name of its action or to the end of the text. -/
inductive PgRightIn (A : Actions C) :
    PgBefore → List (Bool × PgSym) → Bool → C → List UInt8 → List UInt8 → Prop
  | reduce {before : PgBefore} {buf rest rest' : List UInt8} {reduce name : Token} {action : C}
    (h : Next buf .reduceTo reduce rest) (hname : Next rest .identifier name rest')
    (haction : resolveAction A name.text = some action) :
    PgRightIn A before [] (decide (before = .concat)) action buf rest'
  | atEnd {before : PgBefore} {buf : List UInt8} (h : AtEnd buf) :
    PgRightIn A before [] (decide (before = .concat)) A.nullAction buf []
  | sym {before : PgBefore} {buf rest rest' : List UInt8} {s : PgSym}
    {items : List (Bool × PgSym)} {dangling : Bool} {action : C} (h : PgSymIn s buf rest)
    (hmore : PgRightIn A .sym items dangling action rest rest') :
    PgRightIn A before ((before.hasIgnore, s) :: items) dangling action buf rest'
  | concat {buf rest rest' : List UInt8} {token : Token} {items : List (Bool × PgSym)}
    {dangling : Bool} {action : C} (h : Next buf .concat token rest)
    (hmore : PgRightIn A .concat items dangling action rest rest') :
    PgRightIn A .sym items dangling action buf rest'

/-- The symbols of an ignore rule. -/
inductive PgIgnoreIn : List PgSym → List UInt8 → List UInt8 → Prop
  | stop {buf : List UInt8} (h : (nextToken buf).token.type = .endToken ∨
      (nextToken buf).token.type = .leftArrow) : PgIgnoreIn [] buf (nextToken buf).token.str
  | atEnd {buf : List UInt8} (h : AtEnd buf) : PgIgnoreIn [] buf []
  | string {buf rest rest' : List UInt8} {token : Token} {syms : List PgSym}
    (h : Next buf .termString token rest) (hmore : PgIgnoreIn syms rest rest') :
    PgIgnoreIn (.string token.unescaped :: syms) buf rest'
  | regex {buf rest rest' : List UInt8} {token : Token} {syms : List PgSym}
    (h : Next buf .termRegex token rest) (hmore : PgIgnoreIn syms rest rest') :
    PgIgnoreIn (.regex token.content :: syms) buf rest'

/-- In an ignore rule stands the name of a builtin terminal. -/
inductive PgIgnoreStuck : List UInt8 → Prop
  | here {buf rest : List UInt8} {token : Token} (h : Next buf .identifier token rest)
    (hhead : (isIgnoreHead token.text || isTerminalsHead token.text) = false)
    (hspecial : isBuiltinGraSym token.text = true) : PgIgnoreStuck buf
  | string {buf rest : List UInt8} {token : Token} (h : Next buf .termString token rest)
    (hmore : PgIgnoreStuck rest) : PgIgnoreStuck buf
  | regex {buf rest : List UInt8} {token : Token} (h : Next buf .termRegex token rest)
    (hmore : PgIgnoreStuck rest) : PgIgnoreStuck buf

/-- What stands behind an arrow. -/
inductive PgDeclIn (A : Actions C) : PgHead → PgDecl C → List UInt8 → List UInt8 → Prop
  | rule {left buf rest rest' : List UInt8} {arrow : Token} {items : List (Bool × PgSym)}
    {dangling : Bool} {action : C} (h : Next buf .leftArrow arrow rest)
    (hright : PgRightIn A .arrow items dangling action rest rest') :
    PgDeclIn A (.rule left) (.rule left items dangling action) buf rest'
  | ignore {head buf rest rest' : List UInt8} {arrow : Token} {syms : List PgSym}
    (h : Next buf .leftArrow arrow rest) (hsyms : PgIgnoreIn syms rest rest') :
    PgDeclIn A (.ignore head) (.ignore head syms) buf rest'
  | terminal {head buf rest rest' : List UInt8} {arrow str : Token}
    (h : Next buf .leftArrow arrow rest) (hstr : Next rest .termString str rest') :
    PgDeclIn A (.terminal head) (.terminal head str.unescaped) buf rest'

/-- The declarations between two places of a text. A section begins with its head, and each arrow
in it with one more declaration. -/
inductive PgReads (A : Actions C) :
    PgHead → List (PgDecl C) → PgHead → List UInt8 → List UInt8 → Prop
  | refl {head : PgHead} {buf : List UInt8} : PgReads A head [] head buf buf
  | semicolon {head head' : PgHead} {ds : List (PgDecl C)} {buf rest rest' : List UInt8}
    {token : Token} (h : Next buf .endToken token rest)
    (hmore : PgReads A .none ds head' rest rest') : PgReads A head ds head' buf rest'
  | begins {head head' : PgHead} {d : PgDecl C} {ds : List (PgDecl C)}
    {buf rest rest' rest'' : List UInt8} {token : Token} (h : Next buf .identifier token rest)
    (hdecl : PgDeclIn A (headOf token.text) d rest rest')
    (hmore : PgReads A (headOf token.text) ds head' rest' rest'') :
    PgReads A head (d :: ds) head' buf rest''
  | arrow {head head' : PgHead} {d : PgDecl C} {ds : List (PgDecl C)}
    {buf rest rest' : List UInt8} (hdecl : PgDeclIn A head d buf rest)
    (hmore : PgReads A head ds head' rest rest') : PgReads A head (d :: ds) head' buf rest'

/-- The text of the declarations. -/
def PgTextIn (A : Actions C) (ds : List (PgDecl C)) (text : List UInt8) : Prop :=
  ∃ head rest, PgReads A .none ds head text rest ∧ AtEnd rest

/-- Next comes an ignore rule with the name of a builtin terminal. -/
inductive PgStuck : PgHead → List UInt8 → Prop
  | begins {head : PgHead} {buf rest rest' : List UInt8} {token arrow : Token}
    (h : Next buf .identifier token rest) (hhead : isIgnoreHead token.text = true)
    (harrow : Next rest .leftArrow arrow rest') (hstuck : PgIgnoreStuck rest') :
    PgStuck head buf
  | arrow {head buf rest : List UInt8} {arrow : Token} (harrow : Next buf .leftArrow arrow rest)
    (hstuck : PgIgnoreStuck rest) : PgStuck (.ignore head) buf

/-! What the parser does with the declarations. -/

section

variable (E : RmacroEnv) (A : Actions C)

/-- The strings and the regular expression of a symbol go to the tables. -/
def PgSym.add (t : SymTables) : PgSym → SymTables × FklGrammerSym
  | .string s =>
    let (t, str) := t.addDelimiter s
    (t, .term (.string str))
  | .keyword s =>
    let (t, str) := addTerminal t s
    (t, .keyword str)
  | .regex s =>
    let (t, re) := addRegex E t s
    (t, .term (.regex re))
  | .builtin b args _ =>
    let (t, strs) := addArgs t args
    (addDelimiters t strs, .term (.builtin ⟨b, strs⟩))
  | .nonterm name => (t, .nonterm (E.symbol name))

/-- Symbols, each with whether an `IGNORE` is put before it. -/
def addItems (t : SymTables) (syms : List FklGrammerSym) :
    List (Bool × PgSym) → SymTables × List FklGrammerSym
  | [] => (t, syms)
  | (hasIgnore, s) :: items =>
    addItems (s.add E t).1 (RightPart.pushGraSym syms hasIgnore (s.add E t).2) items

def declare (g : FklGrammer C) : PgDecl C → Option (FklGrammer C)
  | .rule left items _ action =>
    addRule E A g (E.symbol left) (addItems E g.toSymTables [] items).1
      (addItems E g.toSymTables [] items).2 action
  | .ignore _ syms =>
    (addIgnore g (addItems E g.toSymTables [] (syms.map fun s => (false, s))).1
      (addItems E g.toSymTables [] (syms.map fun s => (false, s))).2).toOption
  | .terminal _ s => some { g with toSymTables := (g.toSymTables.addDelimiter s).1 }

end

/-! Arguments. -/

variable {E : RmacroEnv} {A : Actions C} {t : SymTables} {buf rest : List UInt8}

theorem next_of_type {type : MyTokenType} (h : (nextToken buf).token.type = type)
    (hne : type ≠ .none) : Next buf type (nextToken buf).token (nextToken buf).rest where
  nonempty := by
    rintro rfl
    exact hne h.symm
  noErr := by
    by_contra herr
    exact hne (h.symm.trans ((reaches_nextToken buf).none_of_err (by simpa using herr)))
  token_eq := rfl
  type_eq := h
  rest_eq := rfl

theorem parseArgsLoop_written {out : SymTables × List FklString} {acc : List FklString}
    {token : Token} {buf' : List UInt8} (htoken : token = (nextToken buf').token)
    (hbuf : buf = (nextToken buf').rest) (h : parseArgsLoop t acc token buf = .ok (out, rest)) :
    (∃ args, ArgListIn args buf' rest) ∨ (∃ args, TrailingArgs args buf' ∧ rest = []) ∨
      token.type = .rb ∧ buf = [] ∧ rest = [] := by
  fun_induction parseArgsLoop t acc token buf generalizing buf' with
  | case3 t acc token buf hne hstr =>
    subst htoken hbuf
    cases h
    have hnext := next_of_type (not_not.mp hstr) (by decide)
    exact Or.inl ⟨_, .last hnext (next_of_type ‹_› (by decide))⟩
  | case5 t acc token buf hne hstr =>
    rename_i hcomma next _ ih
    subst htoken hbuf
    have hnext := next_of_type (not_not.mp hstr) (by decide)
    have hcomma := next_of_type hcomma (by decide)
    rcases ih rfl rfl h with ⟨args, hargs⟩ | ⟨args, hargs, hrest⟩ | ⟨hrb, hnil, hrest⟩
    · exact Or.inl ⟨_, .more hnext hcomma hargs⟩
    · exact Or.inr (Or.inl ⟨_, .more hnext hcomma hargs, hrest⟩)
    · have hrb := next_of_type hrb (by decide)
      rw [hnil] at hrb
      exact Or.inr (Or.inl ⟨_, .last hnext hcomma hrb, hrest⟩)
  | case7 t acc token buf hnil hrb =>
    cases h
    have hnil := not_not.mp hnil
    exact Or.inr (Or.inr ⟨hrb, hnil, hnil⟩)
  | _ => cases h

theorem TrailingArgs.next {args : List (List UInt8)} (h : TrailingArgs args buf) :
    (nextToken buf).err = false ∧ (nextToken buf).token.type = .termString := by
  cases h with
  | last h | more h => exact ⟨h.noErr, h.token_eq ▸ h.type_eq⟩

theorem parseArgsLoop_trailing {args : List (List UInt8)} (hargs : TrailingArgs args buf)
    (acc : List FklString) : parseArgsLoop t acc (nextToken buf).token (nextToken buf).rest =
      .ok (((addArgs t args).1, acc ++ (addArgs t args).2), []) := by
  induction hargs generalizing t acc with
  | last h hcomma hrb =>
    rw [h.token_eq, h.rest_eq, parseArgsLoop, dif_pos hcomma.nonempty, if_neg (by simp [h.type_eq])]
    simp only [hcomma.noErr, hcomma.token_eq, hcomma.type_eq, hcomma.rest_eq, hrb.noErr]
    rw [if_neg (by simp), if_neg (by simp), hrb.rest_eq, parseArgsLoop, dif_neg (by simp),
      if_pos (hrb.token_eq ▸ hrb.type_eq)]
    rfl
  | more h hcomma hmore ih =>
    rw [h.token_eq, h.rest_eq, parseArgsLoop, dif_pos hcomma.nonempty, if_neg (by simp [h.type_eq])]
    simp only [hcomma.noErr, hcomma.token_eq, hcomma.type_eq, hcomma.rest_eq, hmore.next.1, ih]
    simp [addArgs, addTerminal]

theorem parseOptionalArgs_trailing {args : List (List UInt8)} {lb : Token}
    (h : Next buf .lb lb rest) (hargs : TrailingArgs args rest) :
    parseOptionalArgs t buf = .ok (addArgs t args, []) := by
  have hlb : (nextToken buf).token.type = .lb := h.token_eq ▸ h.type_eq
  unfold parseOptionalArgs
  dsimp only
  rw [if_pos hlb, parseBuiltinArgs, nextToken_str]
  dsimp only
  rw [if_neg (not_not.mpr hlb), h.rest_eq, if_neg (by simp [hargs.next.2]),
    parseArgsLoop_trailing hargs]
  rfl

theorem parseOptionalArgs_iff {out : SymTables × List FklString} :
    parseOptionalArgs t buf = .ok (out, rest) ↔
      ∃ args comma, PgArgsIn args comma buf rest ∧ out = addArgs t args := by
  have hof : ∀ args comma, PgArgsIn args comma buf rest →
      parseOptionalArgs t buf = .ok (addArgs t args, rest) := by
    intro args comma hargs
    cases hargs with
    | plain h => exact parseOptionalArgs_eq h
    | trailing h hargs => exact parseOptionalArgs_trailing h hargs
  constructor
  · intro h
    suffices hargs : ∃ args comma, PgArgsIn args comma buf rest by
      obtain ⟨args, comma, hargs⟩ := hargs
      have heq := h.symm.trans (hof args comma hargs)
      cases heq
      exact ⟨args, comma, hargs, rfl⟩
    unfold parseOptionalArgs at h
    dsimp only at h
    split_ifs at h with hlb
    · have hlb := next_of_type hlb (by decide)
      unfold parseBuiltinArgs at h
      rw [nextToken_str] at h
      dsimp only at h
      split_ifs at h with _ hrb
      · cases h
        exact ⟨_, _, .plain (.empty hlb (next_of_type hrb (by decide)))⟩
      · rcases parseArgsLoop_written rfl rfl h with ⟨args, hargs⟩ | ⟨args, hargs, rfl⟩ | ⟨h, -⟩
        · exact ⟨_, _, .plain (.list hlb hargs)⟩
        · exact ⟨_, _, .trailing hlb hargs⟩
        · exact absurd h hrb
    · cases h
      exact ⟨_, _, .plain (.absent hlb)⟩
  · rintro ⟨args, comma, hargs, rfl⟩
    exact hof args comma hargs

/-! Symbols. -/

/-- The loop goes on behind a symbol. -/
theorem parseRightLoop_sym {s : PgSym} (h : PgSymIn s buf rest) (syms : List FklGrammerSym)
    (hasIgnore : Bool) : parseRightLoop E A t syms hasIgnore buf =
      parseRightLoop E A (s.add E t).1 (RightPart.pushGraSym syms hasIgnore (s.add E t).2) true
        rest := by
  cases h with
  | string h | keyword h | regex h =>
    rw [parseRightLoop, dif_neg h.nonempty, dif_neg (by simp [h.noErr])]
    simp only [h.token_eq, h.type_eq, h.rest_eq]
    rfl
  | builtin h hb hargs hcheck =>
    exact parseRightLoop_builtin hb hcheck h (parseOptionalArgs_iff.mpr ⟨_, _, hargs, rfl⟩) syms
      hasIgnore
  | nonterm h hspecial =>
    rw [parseRightLoop, dif_neg h.nonempty, dif_neg (by simp [h.noErr])]
    simp only [h.token_eq, h.type_eq, h.rest_eq]
    rw [if_neg (by simp [head_of_not_special hspecial]), if_neg (by simp [hspecial])]
    rfl

theorem parseRightLoop_read {before : PgBefore} {items : List (Bool × PgSym)} {dangling : Bool}
    {action : C} (h : PgRightIn A before items dangling action buf rest)
    (syms : List FklGrammerSym) : parseRightLoop E A t syms before.hasIgnore buf =
      .ok (((addItems E t syms items).1, (addItems E t syms items).2, action), rest) := by
  induction h generalizing t syms with
  | reduce h hname haction =>
    rw [parseRightLoop, dif_neg h.nonempty, dif_neg (by simp [h.noErr])]
    simp only [h.token_eq, h.type_eq, h.rest_eq, hname.noErr, hname.token_eq, hname.type_eq,
      hname.rest_eq, haction]
    rfl
  | @atEnd before buf h =>
    by_cases hnil : buf = []
    · subst hnil
      rw [parseRightLoop, dif_pos rfl]
      rfl
    · rw [parseRightLoop, dif_neg hnil, dif_neg (by simp [h.1])]
      simp only [h.2, rest_of_none h.2 h.1]
      rw [parseRightLoop, dif_pos rfl]
      rfl
  | sym h hmore ih =>
    rw [parseRightLoop_sym h]
    exact ih _
  | concat h hmore ih =>
    rw [parseRightLoop, dif_neg h.nonempty, dif_neg (by simp [h.noErr])]
    simp only [h.token_eq, h.type_eq, h.rest_eq]
    exact ih syms

theorem parseRightLoop_written {before : PgBefore} {syms : List FklGrammerSym} {hasIgnore : Bool}
    {out : SymTables × List FklGrammerSym × C} (hbefore : before.hasIgnore = hasIgnore)
    (h : parseRightLoop E A t syms hasIgnore buf = .ok (out, rest)) :
    ∃ items dangling action, PgRightIn A before items dangling action buf rest := by
  fun_induction parseRightLoop E A t syms hasIgnore buf generalizing before with
  | case1 =>
    cases h
    exact ⟨_, _, _, .atEnd ⟨rfl, rfl⟩⟩
  | case3 t syms hasIgnore buf hne herr token rest' htype =>
    rename_i ih
    have hend : AtEnd buf := ⟨by simpa using herr, htype⟩
    have hnil : rest' = [] := rest_of_none htype hend.1
    rw [hnil, parseRightLoop, dif_pos rfl] at h
    cases h
    exact ⟨_, _, _, .atEnd hend⟩
  | case4 t syms buf hne herr token rest' htype =>
    rename_i ih
    obtain rfl : before = .sym := by simpa [PgBefore.hasIgnore] using hbefore
    obtain ⟨items, dangling, action, hmore⟩ := @ih .concat rfl h
    exact ⟨_, _, _, .concat (next_of_type htype (by decide)) hmore⟩
  | case10 t syms hasIgnore buf hne herr token rest' htype hhead hspecial b hb t' strs rest'' hargs
      err hcheck =>
    rename_i ih
    obtain ⟨items, dangling, action, hmore⟩ := @ih .sym rfl h
    obtain ⟨args, comma, hargs, hout⟩ := parseOptionalArgs_iff.mp hargs
    have hlen := congrArg List.length (addArgs_spec t args).2.2.1
    rw [List.length_map, ← hout] at hlen
    have hcheck : fklBuiltinTermArgsCheck b args.length = .dummy := hlen ▸ not_not.mp hcheck
    exact ⟨_, _, _, .sym (.builtin (next_of_type htype (by decide)) hb hargs hcheck) hmore⟩
  | case11 t syms hasIgnore buf hne herr token rest' htype hhead hspecial =>
    rename_i ih
    obtain ⟨items, dangling, action, hmore⟩ := @ih .sym rfl h
    have hnext := next_of_type htype (by decide)
    exact ⟨_, _, _, .sym (.nonterm hnext (by simpa using hspecial)) hmore⟩
  | case12 t syms hasIgnore buf hne herr token rest' htype t' str heq =>
    rename_i ih
    obtain ⟨items, dangling, action, hmore⟩ := @ih .sym rfl h
    exact ⟨_, _, _, .sym (.string (next_of_type htype (by decide))) hmore⟩
  | case13 t syms hasIgnore buf hne herr token rest' htype t' str heq =>
    rename_i ih
    obtain ⟨items, dangling, action, hmore⟩ := @ih .sym rfl h
    exact ⟨_, _, _, .sym (.keyword (next_of_type htype (by decide))) hmore⟩
  | case14 t syms hasIgnore buf hne herr token rest' htype t' re heq =>
    rename_i ih
    obtain ⟨items, dangling, action, hmore⟩ := @ih .sym rfl h
    exact ⟨_, _, _, .sym (.regex (next_of_type htype (by decide))) hmore⟩
  | case18 t syms hasIgnore buf hne herr token rest' htype name hnameErr hname action =>
    rename_i haction
    cases h
    exact ⟨_, _, _, .reduce (next_of_type htype (by decide))
      (next_of_type (not_not.mp hname) (by decide)) haction⟩
  | _ => cases h

theorem parseRightLoop_iff {out : SymTables × List FklGrammerSym × C} :
    parseRightLoop E A t [] false buf = .ok (out, rest) ↔
      ∃ items dangling action, PgRightIn A .arrow items dangling action buf rest ∧
        out = ((addItems E t [] items).1, (addItems E t [] items).2, action) := by
  constructor
  · intro h
    have hbefore : PgBefore.arrow.hasIgnore = false := rfl
    obtain ⟨items, dangling, action, hin⟩ := parseRightLoop_written hbefore h
    have heq := h.symm.trans (parseRightLoop_read hin [])
    cases heq
    exact ⟨items, dangling, action, hin, rfl⟩
  · rintro ⟨items, dangling, action, hin, rfl⟩
    exact parseRightLoop_read hin []

/-! Ignore rules. -/

theorem addItems_plain (t : SymTables) (s : PgSym) (syms : List FklGrammerSym)
    (ss : List PgSym) : addItems E t syms ((s :: ss).map fun s => (false, s)) =
      addItems E (s.add E t).1 (syms ++ [(s.add E t).2]) (ss.map fun s => (false, s)) := rfl

theorem parseIgnoreLoop_read {ss : List PgSym} (h : PgIgnoreIn ss buf rest)
    (syms : List FklGrammerSym) : parseIgnoreLoop E t syms buf =
      .ok (addItems E t syms (ss.map fun s => (false, s)), rest) := by
  induction h generalizing t syms with
  | @stop buf h =>
    have hnext := h.elim (fun h => (next_of_type h (by decide)).nonempty)
      (fun h => (next_of_type h (by decide)).nonempty)
    have herr := h.elim (fun h => (next_of_type h (by decide)).noErr)
      (fun h => (next_of_type h (by decide)).noErr)
    rw [parseIgnoreLoop, dif_neg hnext, dif_neg (by simp [herr])]
    rcases h with h | h
    · simp only [h]
      rfl
    · simp only [h]
      rfl
  | @atEnd buf h =>
    by_cases hnil : buf = []
    · subst hnil
      rw [parseIgnoreLoop, dif_pos rfl]
      rfl
    · rw [parseIgnoreLoop, dif_neg hnil, dif_neg (by simp [h.1])]
      simp only [h.2, rest_of_none h.2 h.1]
      rw [parseIgnoreLoop, dif_pos rfl]
      rfl
  | string h hmore ih | regex h hmore ih =>
    rw [parseIgnoreLoop, dif_neg h.nonempty, dif_neg (by simp [h.noErr]), addItems_plain, ← ih]
    simp only [h.token_eq, h.type_eq, h.rest_eq]
    rfl

theorem parseIgnoreLoop_written {syms : List FklGrammerSym}
    {out : SymTables × List FklGrammerSym}
    (h : parseIgnoreLoop E t syms buf = .ok (out, rest)) : ∃ ss, PgIgnoreIn ss buf rest := by
  fun_induction parseIgnoreLoop E t syms buf with
  | case1 =>
    cases h
    exact ⟨_, .atEnd ⟨rfl, rfl⟩⟩
  | case3 t syms buf hne herr token rest' htype =>
    have hend : AtEnd buf := ⟨by simpa using herr, htype⟩
    have hnil : rest' = [] := rest_of_none htype hend.1
    rw [hnil, parseIgnoreLoop, dif_pos rfl] at h
    cases h
    exact ⟨_, .atEnd hend⟩
  | case7 t syms buf hne herr token rest' htype =>
    rename_i ih
    obtain ⟨ss, hmore⟩ := ih h
    exact ⟨_, .string (next_of_type htype (by decide)) hmore⟩
  | case8 t syms buf hne herr token rest' htype =>
    rename_i ih
    obtain ⟨ss, hmore⟩ := ih h
    exact ⟨_, .regex (next_of_type htype (by decide)) hmore⟩
  | case9 =>
    rename_i htype
    cases h
    exact ⟨_, .stop (Or.inl htype)⟩
  | case10 =>
    rename_i htype
    cases h
    exact ⟨_, .stop (Or.inr htype)⟩
  | _ => cases h

theorem parseIgnoreLoop_iff {out : SymTables × List FklGrammerSym} :
    parseIgnoreLoop E t [] buf = .ok (out, rest) ↔
      ∃ ss, PgIgnoreIn ss buf rest ∧ out = addItems E t [] (ss.map fun s => (false, s)) := by
  constructor
  · intro h
    obtain ⟨ss, hin⟩ := parseIgnoreLoop_written h
    have heq := h.symm.trans (parseIgnoreLoop_read hin [])
    cases heq
    exact ⟨ss, hin, rfl⟩
  · rintro ⟨ss, hin, rfl⟩
    exact parseIgnoreLoop_read hin []

theorem parseIgnoreLoop_unreachable {syms : List FklGrammerSym} :
    parseIgnoreLoop E t syms buf = .error .unreachable ↔ PgIgnoreStuck buf := by
  constructor
  · intro h
    fun_induction parseIgnoreLoop E t syms buf with
    | case3 t syms buf hne herr token rest' htype =>
      rw [show rest' = [] from rest_of_none htype (by simpa using herr), parseIgnoreLoop,
        dif_pos rfl] at h
      cases h
    | case5 =>
      rename_i htype hhead hspecial
      exact .here (next_of_type htype (by decide)) (by simpa using hhead) hspecial
    | case7 t syms buf hne herr token rest' htype =>
      rename_i ih
      exact .string (next_of_type htype (by decide)) (ih h)
    | case8 t syms buf hne herr token rest' htype =>
      rename_i ih
      exact .regex (next_of_type htype (by decide)) (ih h)
    | _ => cases h
  · intro h
    induction h generalizing t syms with
    | here h hhead hspecial =>
      rw [parseIgnoreLoop, dif_neg h.nonempty, dif_neg (by simp [h.noErr])]
      simp only [h.token_eq, h.type_eq]
      rw [if_neg (by simp [hhead]), if_pos hspecial]
    | string h hmore ih | regex h hmore ih =>
      rw [parseIgnoreLoop, dif_neg h.nonempty, dif_neg (by simp [h.noErr])]
      simp only [h.token_eq, h.type_eq, h.rest_eq]
      exact ih

/-- A string or a regular expression. -/
def PgSym.Ignorable : PgSym → Prop
  | .string _ | .regex _ => True
  | .keyword _ | .builtin .. | .nonterm _ => False

theorem PgIgnoreIn.ignorable {ss : List PgSym} (h : PgIgnoreIn ss buf rest) :
    ∀ s ∈ ss, s.Ignorable := by
  induction h with
  | stop | atEnd => simp
  | string _ _ ih | regex _ _ ih => exact List.forall_mem_cons.mpr ⟨trivial, ih⟩

theorem addItems_ignore (t : SymTables) (syms : List FklGrammerSym) {ss : List PgSym}
    (hss : ∀ s ∈ ss, s.Ignorable) (hsyms : ∃ ig : FklGrammerIgnore, syms = ig.map .term) :
    ∃ ig : FklGrammerIgnore, (addItems E t syms (ss.map fun s => (false, s))).2 = ig.map .term := by
  induction ss generalizing t syms with
  | nil => exact hsyms
  | cons s ss ih =>
    obtain ⟨hs, htail⟩ := List.forall_mem_cons.mp hss
    obtain ⟨ig, rfl⟩ := hsyms
    cases s with
    | string s | regex s => exact ih _ _ htail ⟨ig ++ [_], by rw [List.map_append]; rfl⟩
    | keyword s | builtin b args comma | nonterm name => exact hs.elim

theorem fklGrammerSymbolsToIgnore_map (ig : FklGrammerIgnore) :
    fklGrammerSymbolsToIgnore (ig.map .term) = some ig := by
  unfold fklGrammerSymbolsToIgnore
  induction ig with
  | nil => rfl
  | cons s ig ih =>
    rw [List.map_cons, List.mapM_cons, ih]
    rfl

/-! Declarations. -/

def HeadIs (E : RmacroEnv) (arg : FklParserGrammerParseArg C) : PgHead → Prop
  | .none => arg.state = .addingProduction ∧ arg.currentNonterm = 0
  | .rule left => arg.state = .addingProduction ∧ arg.currentNonterm = E.symbol left
  | .ignore _ => arg.state = .addingIgnore
  | .terminal _ => arg.state = .addingTerminal

variable {arg : FklParserGrammerParseArg C} {head : PgHead} {g g' : FklGrammer C}

theorem headIs_beginSection (arg : FklParserGrammerParseArg C) (name : List UInt8) :
    (beginSection E arg name).g = arg.g ∧ HeadIs E (beginSection E arg name) (headOf name) := by
  unfold beginSection headOf
  split_ifs
  · exact ⟨rfl, rfl⟩
  · exact ⟨rfl, rfl⟩
  · exact ⟨rfl, rfl, rfl⟩

theorem parseRightPart_iff {left : List UInt8} :
    parseRightPart E A g (E.symbol left) buf = .ok (g', rest) ↔
      ∃ d, PgDeclIn A (.rule left) d buf rest ∧ declare E A g d = some g' := by
  unfold parseRightPart
  dsimp only
  constructor
  · intro h
    split_ifs at h with _ htype
    split at h
    · cases h
    · next hloop =>
      split at h
      · cases h
      · next hadd =>
        cases h
        obtain ⟨items, dangling, action, hin, heq⟩ := parseRightLoop_iff.mp hloop
        cases heq
        exact ⟨_, .rule (next_of_type (not_not.mp htype) (by decide)) hin, hadd⟩
  · rintro ⟨d, hdecl, hadd⟩
    cases hdecl with
    | rule h hright =>
      have hloop := parseRightLoop_iff (E := E) (t := g.toSymTables).mpr ⟨_, _, _, hright, rfl⟩
      simp only [declare] at hadd
      simp [h.noErr, h.token_eq, h.type_eq, h.rest_eq, hloop, hadd]

theorem parseIgnore_iff {name : List UInt8} :
    parseIgnore E g buf = .ok (g', rest) ↔
      ∃ d, PgDeclIn A (.ignore name) d buf rest ∧ declare E A g d = some g' := by
  unfold parseIgnore
  dsimp only
  constructor
  · intro h
    split_ifs at h with _ htype
    split at h
    · cases h
    · next hloop =>
      obtain ⟨g₁, hadd, heq⟩ := Except.map_eq_ok.mp h
      cases heq
      obtain ⟨ss, hin, heq⟩ := parseIgnoreLoop_iff.mp hloop
      refine ⟨_, .ignore (next_of_type (not_not.mp htype) (by decide)) hin, ?_⟩
      rw [declare, ← heq, hadd]
      rfl
  · rintro ⟨d, hdecl, hadd⟩
    cases hdecl with
    | @ignore _ _ _ _ _ syms h hsyms =>
      have hloop := parseIgnoreLoop_iff (E := E) (t := g.toSymTables).mpr ⟨_, hsyms, rfl⟩
      have hok : addIgnore g (addItems E g.toSymTables [] (syms.map fun s => (false, s))).1
          (addItems E g.toSymTables [] (syms.map fun s => (false, s))).2 = .ok g' := by
        cases hres : addIgnore g (addItems E g.toSymTables [] (syms.map fun s => (false, s))).1
          (addItems E g.toSymTables [] (syms.map fun s => (false, s))).2 with
        | error stop =>
          rw [declare, hres] at hadd
          cases hadd
        | ok g₁ =>
          rw [declare, hres] at hadd
          exact congrArg _ (Option.some.inj hadd)
      simp [h.noErr, h.token_eq, h.type_eq, h.rest_eq, hloop, hok, Except.map]

theorem parseAddingTerminal_iff (name : List UInt8) {t' : SymTables} :
    parseAddingTerminal t buf = .ok (t', rest) ↔
      ∃ s, PgDeclIn A (.terminal name) (.terminal name s) buf rest ∧ t' = (t.addDelimiter s).1 := by
  unfold parseAddingTerminal
  dsimp only
  constructor
  · intro h
    split_ifs at h with _ htype
    split at h
    · next hstr =>
      cases h
      exact ⟨_, .terminal (next_of_type (not_not.mp htype) (by decide))
        (next_of_type hstr (by decide)), rfl⟩
    · cases h
    · cases h
  · rintro ⟨s, hdecl, rfl⟩
    cases hdecl with
    | terminal h hstr =>
      simp [h.noErr, h.token_eq, h.type_eq, h.rest_eq, hstr.token_eq, hstr.type_eq, hstr.rest_eq]

theorem parseDecl_iff (hhead : HeadIs E arg head) (hne : head ≠ .none) :
    parseDecl E A arg buf = .ok (g', rest) ↔
      ∃ d, PgDeclIn A head d buf rest ∧ declare E A arg.g d = some g' := by
  cases head with
  | none => exact absurd rfl hne
  | rule left => rw [parseDecl, hhead.1, hhead.2, mapError_eq_ok, parseRightPart_iff]
  | ignore name =>
    have hstate : arg.state = .addingIgnore := hhead
    rw [parseDecl, hstate]
    exact parseIgnore_iff
  | terminal name =>
    have hstate : arg.state = .addingTerminal := hhead
    rw [parseDecl, hstate]
    dsimp only
    rw [Except.map_eq_ok]
    constructor
    · rintro ⟨⟨t, buf'⟩, hterm, heq⟩
      cases heq
      obtain ⟨s, hdecl, rfl⟩ := (parseAddingTerminal_iff (A := A) name).mp
        (mapError_eq_ok.mp hterm)
      exact ⟨_, hdecl, rfl⟩
    · rintro ⟨d, hdecl, hadd⟩
      cases hdecl with
      | @terminal _ _ _ _ _ str h hstr =>
        cases hadd
        exact ⟨(_, rest), mapError_eq_ok.mpr ((parseAddingTerminal_iff (A := A) name).mpr
          ⟨str.unescaped, .terminal h hstr, rfl⟩), rfl⟩

theorem mapError_ne_unreachable {α : Type} {x : Except ParseErr α} :
    x.mapError ParseStop.err ≠ .error .unreachable := by
  cases x <;> simp [Except.mapError]

theorem addIgnore_ne_unreachable (t : SymTables) (ig : FklGrammerIgnore) :
    addIgnore g t (ig.map .term) ≠ .error .unreachable := by
  rw [addIgnore, fklGrammerSymbolsToIgnore_map]
  dsimp only
  split <;> simp

theorem parseIgnore_unreachable : parseIgnore E g buf = .error .unreachable ↔
    ∃ arrow rest, Next buf .leftArrow arrow rest ∧ PgIgnoreStuck rest := by
  unfold parseIgnore
  dsimp only
  constructor
  · intro h
    split_ifs at h with _ htype
    · cases h
    · cases h
    · have hnext := next_of_type (not_not.mp htype) (by decide)
      split at h
      · next hloop =>
        cases h
        exact ⟨_, _, hnext, parseIgnoreLoop_unreachable.mp hloop⟩
      · next t syms buf' hloop =>
        obtain ⟨ss, hin, heq⟩ := parseIgnoreLoop_iff.mp hloop
        obtain ⟨ig, hig⟩ := addItems_ignore (E := E) g.toSymTables [] hin.ignorable ⟨[], rfl⟩
        rw [← heq] at hig
        obtain rfl : syms = ig.map .term := hig
        exact absurd (Except.map_eq_error.mp h) (addIgnore_ne_unreachable t ig)
  · rintro ⟨arrow, rest, h, hstuck⟩
    have hloop : parseIgnoreLoop E g.toSymTables [] rest = .error .unreachable :=
      parseIgnoreLoop_unreachable.mpr hstuck
    simp [h.noErr, h.token_eq, h.type_eq, h.rest_eq, hloop]

theorem parseDecl_unreachable (hhead : HeadIs E arg head) :
    parseDecl E A arg buf = .error .unreachable ↔ (∃ name, head = .ignore name) ∧
      ∃ arrow rest, Next buf .leftArrow arrow rest ∧ PgIgnoreStuck rest := by
  have hno : ∀ {state}, arg.state = state → state ≠ .addingIgnore →
      parseDecl E A arg buf ≠ .error .unreachable := by
    rintro state hstate hne h
    rw [parseDecl, hstate] at h
    cases state with
    | addingProduction => exact mapError_ne_unreachable h
    | addingIgnore => exact hne rfl
    | addingTerminal => exact mapError_ne_unreachable (Except.map_eq_error.mp h)
  cases head with
  | none => exact ⟨fun h => absurd h (hno hhead.1 (by decide)), fun ⟨⟨_, h⟩, _⟩ => by cases h⟩
  | rule left => exact ⟨fun h => absurd h (hno hhead.1 (by decide)), fun ⟨⟨_, h⟩, _⟩ => by cases h⟩
  | ignore name =>
    have hstate : arg.state = .addingIgnore := hhead
    rw [parseDecl, hstate]
    exact parseIgnore_unreachable.trans ⟨fun h => ⟨⟨name, rfl⟩, h⟩, And.right⟩
  | terminal name =>
    exact ⟨fun h => absurd h (hno hhead (by decide)), fun ⟨⟨_, h⟩, _⟩ => by cases h⟩

/-! Texts. -/

theorem parseDecl_str (arg : FklParserGrammerParseArg C) (buf : List UInt8) :
    parseDecl E A arg (nextToken buf).token.str = parseDecl E A arg buf := by
  unfold parseDecl parseRightPart parseIgnore parseAddingTerminal
  rw [nextToken_str]

theorem parse_semicolon {token : Token} (h : Next buf .endToken token rest) :
    fklParseProductionRuleWithCharBuf E A arg buf =
      fklParseProductionRuleWithCharBuf E A
        { arg with state := .addingProduction, currentNonterm := 0 } rest := by
  rw [fklParseProductionRuleWithCharBuf, dif_neg h.nonempty, dif_neg (by simp [h.noErr])]
  simp only [h.token_eq, h.type_eq, h.rest_eq]

theorem parse_section {token : Token} (h : Next buf .identifier token rest) :
    fklParseProductionRuleWithCharBuf E A arg buf =
      (parseDecl E A (beginSection E arg token.text) rest).bind fun out =>
        fklParseProductionRuleWithCharBuf E A { beginSection E arg token.text with g := out.1 }
          out.2 := by
  rw [fklParseProductionRuleWithCharBuf, dif_neg h.nonempty, dif_neg (by simp [h.noErr])]
  simp only [h.token_eq, h.type_eq]
  split <;> next heq => rw [h.rest_eq, h.token_eq] at heq; rw [heq]; rfl

theorem parse_arrow {arrow : Token} (h : Next buf .leftArrow arrow rest)
    (hhead : HeadIs E arg head) (hne : head ≠ .none) :
    fklParseProductionRuleWithCharBuf E A arg buf =
      (parseDecl E A arg buf).bind fun out =>
        fklParseProductionRuleWithCharBuf E A { arg with g := out.1 } out.2 := by
  have hnot : ¬(arg.currentNonterm = 0 ∧ arg.state = .addingProduction) := by
    rintro ⟨hnull, hstate⟩
    cases head with
    | none => exact hne rfl
    | rule left => exact E.symbol_ne_null left (hhead.2.symm.trans hnull)
    | ignore name => cases hstate.symm.trans hhead
    | terminal name => cases hstate.symm.trans hhead
  rw [fklParseProductionRuleWithCharBuf, dif_neg h.nonempty, dif_neg (by simp [h.noErr])]
  simp only [h.token_eq, h.type_eq]
  rw [if_neg hnot]
  have hstr : parseDecl E A arg (nextToken buf).token.str = parseDecl E A arg buf :=
    parseDecl_str arg buf
  split <;> next heq => rw [hstr] at heq; rw [heq]; rfl

theorem parse_atEnd (h : AtEnd buf) : fklParseProductionRuleWithCharBuf E A arg buf = .ok arg := by
  by_cases hnil : buf = []
  · subst hnil
    rw [fklParseProductionRuleWithCharBuf, dif_pos rfl]
  · rw [fklParseProductionRuleWithCharBuf, dif_neg hnil, dif_neg (by simp [h.1])]
    simp only [h.2, rest_of_none h.2 h.1]
    rw [fklParseProductionRuleWithCharBuf, dif_pos rfl]

theorem PgDeclIn.arrow {d : PgDecl C} (h : PgDeclIn A head d buf rest) : head ≠ .none ∧
    ∃ arrow rest', Next buf .leftArrow arrow rest' := by
  cases h with
  | rule h | ignore h | terminal h => exact ⟨by simp, _, _, h⟩

/-- The declarations are read, and the parser goes on behind them. -/
theorem parse_reads {head' : PgHead} {ds : List (PgDecl C)}
    (h : PgReads A head ds head' buf rest) (hhead : HeadIs E arg head)
    (hadd : ds.foldlM (declare E A) arg.g = some g') :
    ∃ arg', arg'.g = g' ∧ HeadIs E arg' head' ∧
      fklParseProductionRuleWithCharBuf E A arg buf =
        fklParseProductionRuleWithCharBuf E A arg' rest := by
  induction h generalizing arg with
  | refl =>
    cases hadd
    exact ⟨arg, rfl, hhead, rfl⟩
  | semicolon h hmore ih =>
    obtain ⟨arg', hg, hhead', heq⟩ :=
      @ih { arg with state := .addingProduction, currentNonterm := 0 } ⟨rfl, rfl⟩ hadd
    exact ⟨arg', hg, hhead', (parse_semicolon h).trans heq⟩
  | @begins head head' d ds buf rest rest' rest'' token h hdecl hmore ih =>
    rw [List.foldlM_cons] at hadd
    obtain ⟨g₁, hd, hadd⟩ := Option.bind_eq_some_iff.mp hadd
    obtain ⟨hg, hhead⟩ := headIs_beginSection (E := E) arg token.text
    have hparse := (parseDecl_iff (A := A) hhead hdecl.arrow.1).mpr ⟨d, hdecl, by rwa [hg]⟩
    obtain ⟨arg', hg', hhead', heq⟩ := @ih { beginSection E arg token.text with g := g₁ }
      (by cases hh : headOf token.text <;> rw [hh] at hhead <;> exact hhead) hadd
    refine ⟨arg', hg', hhead', ?_⟩
    rw [parse_section h, hparse]
    exact heq
  | @arrow head head' d ds buf rest rest' hdecl hmore ih =>
    rw [List.foldlM_cons] at hadd
    obtain ⟨g₁, hd, hadd⟩ := Option.bind_eq_some_iff.mp hadd
    obtain ⟨hne, arrow, rest'', h⟩ := hdecl.arrow
    have hparse := (parseDecl_iff (A := A) hhead hne).mpr ⟨d, hdecl, hd⟩
    obtain ⟨arg', hg', hhead', heq⟩ := @ih { arg with g := g₁ }
      (by cases head <;> exact hhead) hadd
    refine ⟨arg', hg', hhead', ?_⟩
    rw [parse_arrow h hhead hne, hparse]
    exact heq

theorem PgReads.trans {head' head'' : PgHead} {ds ds' : List (PgDecl C)} {rest' : List UInt8}
    (h : PgReads A head ds head' buf rest) (h' : PgReads A head' ds' head'' rest rest') :
    PgReads A head (ds ++ ds') head'' buf rest' := by
  induction h with
  | refl => exact h'
  | semicolon h _ ih => exact .semicolon h (ih h')
  | begins h hdecl _ ih => exact .begins h hdecl (ih h')
  | arrow hdecl _ ih => exact .arrow hdecl (ih h')

/-- What the parser has read, unless it has stopped with an error. -/
def PgOutcome (E : RmacroEnv) (A : Actions C) (g : FklGrammer C) (head : PgHead)
    (buf : List UInt8) : Except ParseStop (FklParserGrammerParseArg C) → Prop
  | .ok arg => ∃ ds head' rest, PgReads A head ds head' buf rest ∧
      ds.foldlM (declare E A) g = some arg.g ∧ AtEnd rest
  | .error .unreachable => ∃ ds head' rest g', PgReads A head ds head' buf rest ∧
      ds.foldlM (declare E A) g = some g' ∧ PgStuck head' rest
  | .error _ => True

theorem PgOutcome.behind {head' : PgHead} {ds : List (PgDecl C)}
    {res : Except ParseStop (FklParserGrammerParseArg C)}
    (h : PgOutcome E A g' head' rest res) (hreads : PgReads A head ds head' buf rest)
    (hadd : ds.foldlM (declare E A) g = some g') : PgOutcome E A g head buf res := by
  have happend : ∀ {ds' : List (PgDecl C)} {g''},
      ds'.foldlM (declare E A) g' = some g'' →
        (ds ++ ds').foldlM (declare E A) g = some g'' := by
    intro ds' g'' h
    rw [List.foldlM_append, hadd]
    exact h
  match res, h with
  | .ok _, ⟨ds', head'', rest', hmore, hadd', hend⟩ =>
    exact ⟨_, _, _, hreads.trans hmore, happend hadd', hend⟩
  | .error .unreachable, ⟨ds', head'', rest', g'', hmore, hadd', hstuck⟩ =>
    exact ⟨_, _, _, _, hreads.trans hmore, happend hadd', hstuck⟩
  | .error .addingIgnore, _ => trivial
  | .error (.err _), _ => trivial

/-- A declaration that is added, or not. -/
theorem PgOutcome.decl {head' : PgHead} {stop : ParseStop} (hhead : HeadIs E arg head')
    (h : parseDecl E A arg rest = .error stop)
    (hstuck : ∀ name, head' = .ignore name → (∃ arrow rest', Next rest .leftArrow arrow rest' ∧
      PgIgnoreStuck rest') → PgStuck head buf) : PgOutcome E A g head buf (.error stop) := by
  cases stop with
  | unreachable =>
    obtain ⟨⟨name, hname⟩, harrow⟩ := (parseDecl_unreachable hhead).mp h
    exact ⟨[], _, _, _, .refl, rfl, hstuck name hname harrow⟩
  | _ => trivial

theorem HeadIs.setG (h : HeadIs E arg head) (g : FklGrammer C) : HeadIs E { arg with g } head := by
  cases head <;> exact h

theorem parse_outcome (hhead : HeadIs E arg head) :
    PgOutcome E A arg.g head buf (fklParseProductionRuleWithCharBuf E A arg buf) := by
  fun_induction fklParseProductionRuleWithCharBuf E A arg buf generalizing head with
  | case1 arg => exact ⟨[], _, _, .refl, rfl, rfl, rfl⟩
  | case2 => trivial
  | case3 arg buf =>
    rename_i htype ih
    exact (@ih .none ⟨rfl, rfl⟩).behind
      (.semicolon (next_of_type htype (by decide)) .refl) rfl
  | case4 arg buf hne herr =>
    rename_i token rest htype ih
    have hend : AtEnd buf := ⟨by simpa using herr, htype⟩
    have hnil : rest = [] := rest_of_none htype hend.1
    rw [hnil, fklParseProductionRuleWithCharBuf, dif_pos rfl]
    exact ⟨[], _, _, .refl, rfl, hend⟩
  | case5 arg buf =>
    rename_i token rest htype arg' stop hdecl
    have hnext := next_of_type htype (by decide)
    refine PgOutcome.decl (headIs_beginSection arg token.text).2 hdecl ?_
    rintro name hname ⟨arrow, rest', harrow, hstuck⟩
    refine .begins hnext ?_ harrow hstuck
    by_contra hnot
    rw [headOf, if_neg hnot] at hname
    split_ifs at hname
  | case6 arg buf =>
    rename_i token rest htype arg' g buf' hdecl ih
    obtain ⟨hg, hhead'⟩ := headIs_beginSection (E := E) arg token.text
    have hne : headOf token.text ≠ .none := by
      unfold headOf
      split_ifs <;> simp
    obtain ⟨d, hin, hadd⟩ := (parseDecl_iff hhead' hne).mp hdecl
    refine (ih (hhead'.setG g)).behind
      (.begins (next_of_type htype (by decide)) hin .refl) ?_
    rw [hg] at hadd
    rw [List.foldlM_cons, hadd]
    rfl
  | case7 => trivial
  | case8 arg buf =>
    rename_i token htype hnot stop hdecl
    rw [show parseDecl E A arg token.str = _ from parseDecl_str arg buf] at hdecl
    refine PgOutcome.decl hhead hdecl ?_
    rintro name rfl ⟨arrow, rest', harrow, hstuck⟩
    exact .arrow harrow hstuck
  | case9 arg buf =>
    rename_i token htype hnot g buf' hdecl ih
    rw [show parseDecl E A arg token.str = _ from parseDecl_str arg buf] at hdecl
    have hne : head ≠ .none := by
      rintro rfl
      exact hnot hhead.symm
    obtain ⟨d, hin, hadd⟩ := (parseDecl_iff hhead hne).mp hdecl
    refine (ih (hhead.setG g)).behind (.arrow hin .refl) ?_
    rw [List.foldlM_cons, hadd]
    rfl
  | case10 => exact True.intro

end FakeLisp.GrammerTables.PgText
