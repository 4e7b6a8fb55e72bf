import FakeLisp.Rmacro

/-! What the symbols of a reader macro are turned into when it is run, how many values an action of
it may name, and how many nodes it is given. The first number counts the marker of a composite
terminal, the second does not. -/

namespace FakeLisp.GrammerTables

section

variable {E : RmacroEnv} {name : List UInt8} {t t' : SymTables}

theorem rmacroSyms_forall₂ {α : Type}
    {convert : FklCgRmacroGraSym → SymTables → Option (SymTables × α)}
    {syms : List FklCgRmacroGraSym} {ss : List α} (h : rmacroSyms convert t syms = some (t', ss)) :
    List.Forall₂ (fun sym s => ∃ t t', convert sym t = some (t', s)) syms ss := by
  induction syms generalizing t ss with
  | nil =>
    cases h
    exact List.Forall₂.nil
  | cons sym syms ih =>
    obtain ⟨⟨t₁, s⟩, hs, h⟩ := Option.bind_eq_some_iff.mp h
    obtain ⟨⟨t₂, ss⟩, hss, h⟩ := Option.bind_eq_some_iff.mp h
    cases h
    exact List.Forall₂.cons ⟨t, t₁, hs⟩ (ih hss)

theorem asStr_eq_some {v : Nast} {s : List UInt8} (h : asStr v = some s) :
    v = .atom (.str s) := by
  unfold asStr at h
  split at h
  · rw [Option.some.inj h]
  · cases h

/-- What a symbol that may be in ignored text is turned into. -/
inductive TermConverts (E : RmacroEnv) (t : SymTables) :
    FklCgRmacroGraSym → SymTables → FklGrammerIgnoreSym → Prop
  | builtin {v : Nast} {t' : SymTables} {b : FklLalrBuiltinGrammerSym}
    (h : builtinTerminalInit v t = some (t', b)) :
    TermConverts E t ⟨.builtin, some v⟩ t' (.builtin b)
  | regex (s : List UInt8) :
    TermConverts E t ⟨.regex, some (.atom (.str s))⟩
      { t with regexes := (fklAddRegexStr E.compiles t.regexes s).1 }
      (.regex (fklAddRegexStr E.compiles t.regexes s).2)
  | string (s : List UInt8) :
    TermConverts E t ⟨.string, some (.atom (.str s))⟩ (t.addDelimiter s).1
      (.string (t.addDelimiter s).2)

theorem rmacroTermSym_converts {sym : FklCgRmacroGraSym} {s : FklGrammerIgnoreSym}
    (h : rmacroTermSym E sym t = some (t', s)) : TermConverts E t sym t' s := by
  obtain ⟨type, v⟩ := sym
  cases type with
  | builtin =>
    obtain ⟨v, rfl, h⟩ := Option.bind_eq_some_iff.mp h
    obtain ⟨⟨t₁, b⟩, hb, h⟩ := Option.bind_eq_some_iff.mp h
    cases h
    exact TermConverts.builtin hb
  | regex =>
    obtain ⟨v, rfl, h⟩ := Option.bind_eq_some_iff.mp h
    obtain ⟨str, hstr, h⟩ := Option.bind_eq_some_iff.mp h
    cases h
    rw [asStr_eq_some hstr]
    exact TermConverts.regex str
  | string =>
    obtain ⟨v, rfl, h⟩ := Option.bind_eq_some_iff.mp h
    obtain ⟨str, hstr, h⟩ := Option.bind_eq_some_iff.mp h
    cases h
    rw [asStr_eq_some hstr]
    exact TermConverts.string str
  | none | eof | keyword | ignore | nonterm | comp => cases h

/-- What a symbol of a production is turned into. -/
inductive SymConverts (E : RmacroEnv) (name : List UInt8) (t : SymTables) :
    FklCgRmacroGraSym → SymTables → FklGrammerSym → Prop
  | term {sym : FklCgRmacroGraSym} {t' : SymTables} {s : FklGrammerIgnoreSym}
    (h : TermConverts E t sym t' s) : SymConverts E name t sym t' (.term s)
  | keyword (s : List UInt8) :
    SymConverts E name t ⟨.keyword, some (.atom (.str s))⟩
      { t with terminals := (fklAddString t.terminals s).1 }
      (.term (.string (fklAddString t.terminals s).2))
  | nonterm {v : Nast} {left : List UInt8} (h : rmacroNontermOf E name v = some left) :
    SymConverts E name t ⟨.nonterm, some v⟩ t (.nonterm (E.symbol left))
  | ignore : SymConverts E name t ⟨.ignore, none⟩ t .ignore
  | comp {len : Nat} (h : len < 2 ^ 32) :
    SymConverts E name t ⟨.comp, some (.atom (.fix len))⟩ t (.comp len)

theorem rmacroProdSymToGraSym_converts {sym : FklCgRmacroGraSym} {s : FklGrammerSym}
    (h : rmacroProdSymToGraSym E name sym t = some (t', s)) : SymConverts E name t sym t' s := by
  obtain ⟨type, v⟩ := sym
  cases type with
  | builtin | regex | string =>
    obtain ⟨⟨t₁, s⟩, hs, h⟩ := Option.bind_eq_some_iff.mp h
    cases h
    exact SymConverts.term (rmacroTermSym_converts hs)
  | keyword =>
    obtain ⟨v, rfl, h⟩ := Option.bind_eq_some_iff.mp h
    obtain ⟨str, hstr, h⟩ := Option.bind_eq_some_iff.mp h
    cases h
    rw [asStr_eq_some hstr]
    exact SymConverts.keyword str
  | nonterm =>
    obtain ⟨v, rfl, h⟩ := Option.bind_eq_some_iff.mp h
    obtain ⟨left, hleft, h⟩ := Option.bind_eq_some_iff.mp h
    cases h
    exact SymConverts.nonterm hleft
  | ignore =>
    cases v with
    | none =>
      cases h
      exact SymConverts.ignore
    | some v => cases h
  | comp =>
    rw [rmacroProdSymToGraSym] at h
    dsimp only at h
    obtain ⟨v, rfl, hv⟩ := Option.bind_eq_some_iff.mp h
    split at hv
    · next i =>
      split_ifs at hv with hi
      cases hv
      obtain ⟨len, rfl⟩ := Int.eq_ofNat_of_zero_le hi.1
      exact SymConverts.comp (by omega)
    · cases hv
  | none | eof => cases h

theorem rmacroProdToProd_syms {prod : FklVMvalueCgRmacroProd}
    {out : FklGrammerProduction RmacroAct}
    (h : rmacroProdToProd E name t prod = some (t', out)) :
    List.Forall₂ (fun sym s => ∃ t t', rmacroProdSymToGraSym E name sym t = some (t', s))
      prod.syms out.syms := by
  rw [rmacroProdToProd] at h
  obtain ⟨actionType, -, h⟩ := Option.bind_eq_some_iff.mp h
  obtain ⟨type, -, h⟩ := Option.bind_eq_some_iff.mp h
  obtain ⟨left, -, h⟩ := Option.bind_eq_some_iff.mp h
  obtain ⟨⟨t₁, syms⟩, hsyms, h⟩ := Option.bind_eq_some_iff.mp h
  obtain ⟨out', hout, h⟩ := Option.bind_eq_some_iff.mp h
  cases h
  have hout : out.syms = syms := by
    unfold createActProd at hout
    split at hout
    · split_ifs at hout
      rw [← Option.some.inj hout]
      rfl
    · cases hout
    · rw [← Option.some.inj hout]
      rfl
  rw [hout]
  exact rmacroSyms_forall₂ hsyms

end

def computeProdActualLen (prod : FklVMvalueCgRmacroProd) : Nat :=
  prod.syms.length - prod.syms.countP fun s => s.type = .ignore

def fklComputeProdActualLen (syms : List FklGrammerSym) : Nat :=
  syms.length - syms.countP fun
    | .ignore | .comp _ => true
    | _ => false

def dollar (i : Nat) : List UInt8 := bytesOf s!"${i}"

def fklCreateCgRmacroCustomAction (prod : FklVMvalueCgRmacroProd) :
    FklVMvalueCustomActCtx (List UInt8) Unit :=
  ⟨computeProdActualLen prod, (List.range (computeProdActualLen prod)).map dollar, none⟩

/-- What `custom_action` binds for the nodes of a reduction. Nothing where it reads behind the
names. -/
def customActionBinds {V : Type} : List (List UInt8) → List V → Option (List (List UInt8 × V))
  | _, [] => some []
  | [], _ :: _ => none
  | d :: dollars, node :: nodes => (customActionBinds dollars nodes).map ((d, node) :: ·)

/-- The two numbers are the same, so that the body of the action may use all names that are bound,
and no others. -/
structure DollarsRight (prod : FklVMvalueCgRmacroProd) (syms : List FklGrammerSym) : Prop where
  same : computeProdActualLen prod = fklComputeProdActualLen syms
  binds : ∀ {V : Type} (nodes : List V), nodes.length = fklComputeProdActualLen syms →
    ∃ bound, customActionBinds (fklCreateCgRmacroCustomAction prod).dollars nodes = some bound ∧
      bound.map Prod.fst = (fklCreateCgRmacroCustomAction prod).dollars ∧
      bound.map Prod.snd = nodes

theorem customActionBinds_eq {V : Type} {dollars : List (List UInt8)} {nodes : List V}
    (h : nodes.length = dollars.length) :
    customActionBinds dollars nodes = some (dollars.zip nodes) := by
  induction dollars generalizing nodes with
  | nil =>
    rw [List.length_nil, List.length_eq_zero_iff] at h
    subst h
    rfl
  | cons d dollars ih =>
    cases nodes with
    | nil => cases h
    | cons node nodes =>
      rw [customActionBinds, ih (Nat.succ.inj h)]
      rfl

theorem dollarsRight_iff {prod : FklVMvalueCgRmacroProd} {syms : List FklGrammerSym} :
    DollarsRight prod syms ↔ computeProdActualLen prod = fklComputeProdActualLen syms := by
  refine ⟨DollarsRight.same, fun h => ⟨h, fun nodes hn => ?_⟩⟩
  have hlen : nodes.length = (fklCreateCgRmacroCustomAction prod).dollars.length := by
    rw [hn, ← h, fklCreateCgRmacroCustomAction, List.length_map, List.length_range]
  exact ⟨_, customActionBinds_eq hlen, List.map_fst_zip hlen.ge, List.map_snd_zip hlen.le⟩

/-! The symbols keep their kinds. -/

variable {E : RmacroEnv} {name : List UInt8} {t t' : SymTables}

theorem SymConverts.counted {sym : FklCgRmacroGraSym} {s : FklGrammerSym}
    (h : SymConverts E name t sym t' s) :
    sym.type = .ignore ∧ s = .ignore ∨ sym.type = .comp ∧ (∃ len, s = .comp len) ∨
      sym.type ≠ .ignore ∧ sym.type ≠ .comp ∧ s ≠ .ignore ∧ ∀ len, s ≠ .comp len := by
  cases h with
  | term h => cases h <;> simp
  | keyword | nonterm => simp
  | ignore => simp
  | comp => simp

/-- The symbols that the number of nodes does not count. -/
theorem countP_skipped {syms : List FklCgRmacroGraSym} {ss : List FklGrammerSym}
    (h : List.Forall₂ (fun sym s => ∃ t t', rmacroProdSymToGraSym E name sym t = some (t', s))
      syms ss) :
    (ss.countP fun | .ignore | .comp _ => true | _ => false) =
      syms.countP (fun s => s.type = .ignore) + syms.countP fun s => s.type = .comp := by
  induction h with
  | nil => rfl
  | cons hs _ ih =>
    obtain ⟨t, t', hs⟩ := hs
    rw [List.countP_cons, List.countP_cons, List.countP_cons, ih]
    rcases (rmacroProdSymToGraSym_converts hs).counted with
      ⟨hty, rfl⟩ | ⟨hty, len, rfl⟩ | ⟨hig, hcomp, hs, hs'⟩
    · simp [hty]; omega
    · simp [hty]; omega
    · simp [hig, hcomp]

/-- The numbers agree exactly when there is no composite terminal. -/
theorem dollarsRight_iff_no_comp {prod : FklVMvalueCgRmacroProd}
    {out : FklGrammerProduction RmacroAct}
    (h : rmacroProdToProd E name t prod = some (t', out)) :
    DollarsRight prod out.syms ↔ ∀ s ∈ prod.syms, s.type ≠ .comp := by
  have hsyms := rmacroProdToProd_syms h
  have hskip := countP_skipped hsyms
  have hle : out.syms.countP _ ≤ out.syms.length :=
    List.countP_le_length (p := fun | .ignore | .comp _ => true | _ => false)
  have hzero : (prod.syms.countP fun s => s.type = .comp) = 0 ↔
      ∀ s ∈ prod.syms, s.type ≠ .comp := by simp [List.countP_eq_zero]
  rw [dollarsRight_iff, computeProdActualLen, fklComputeProdActualLen, hskip, hsyms.length_eq,
    ← hzero]
  omega

def compositeProd : FklVMvalueCgRmacroProd where
  left := some (.atom (.sym (bytesOf "foo")))
  actionType := some (.atom (.sym (bytesOf "custom")))
  action := .custom ⟨3, [0, 1, 2].map dollar, some ()⟩
  addExtra := false
  syms := [⟨.comp, some (.atom (.fix 2))⟩, ⟨.string, some (.atom (.str (bytesOf "a")))⟩,
    ⟨.string, some (.atom (.str (bytesOf "b")))⟩]

theorem compositeProd_not_right : ∃ t' out,
    rmacroProdToProd (sExpEnv fun _ => true) (bytesOf "lib") ⟨.empty, .empty, .empty⟩
      compositeProd =
      some (t', out) ∧ ¬DollarsRight compositeProd out.syms :=
  ⟨_, _, rfl, fun h => absurd h.same (by decide)⟩

def separateProd : FklVMvalueCgRmacroProd :=
  { compositeProd with
    action := .custom ⟨2, [0, 1].map dollar, some ()⟩
    syms := [⟨.string, some (.atom (.str (bytesOf "a")))⟩, ⟨.ignore, none⟩,
      ⟨.string, some (.atom (.str (bytesOf "b")))⟩] }

theorem separateProd_right : ∃ t' out,
    rmacroProdToProd (sExpEnv fun _ => true) (bytesOf "lib") ⟨.empty, .empty, .empty⟩ separateProd =
      some (t', out) ∧ DollarsRight separateProd out.syms := by
  obtain ⟨t', out, h⟩ : ∃ t' out, rmacroProdToProd (sExpEnv fun _ => true) (bytesOf "lib")
      ⟨.empty, .empty, .empty⟩ separateProd = some (t', out) := ⟨_, _, rfl⟩
  exact ⟨t', out, h, (dollarsRight_iff_no_comp h).mpr (by decide)⟩

end FakeLisp.GrammerTables
