import FakeLisp.RmacroParts

/-! What the commands of a reader macro do to a grammar. -/

namespace FakeLisp.GrammerTables

open SymTables FakeLisp.GrammerTables.FklGrammer

variable {E : RmacroEnv} {name : List UInt8} {t t' : SymTables} {g g' : FklGrammer RmacroAct}

/-! Every symbol that the parser lets through is turned into a symbol of the grammar. -/

theorem compSym_made {v : Int} (h : 0 ≤ v ∧ v < 2 ^ 32) :
    rmacroProdSymToGraSym E name ⟨.comp, some (.atom (.fix v))⟩ t = some (t, .comp v.toNat) := by
  rw [rmacroProdSymToGraSym]
  dsimp only
  rw [Option.bind_eq_bind, Option.bind_some]
  dsimp only
  rw [if_pos h]
  rfl

theorem part_made (name : List UInt8) {p : RulePart} (hp : p.Valid) (t : SymTables) :
    ∃ t' s, rmacroProdSymToGraSym E name p.graSym t = some (t', s) := by
  cases p with
  | ignore => exact ⟨_, _, rfl⟩
  | comp len =>
    have hlt : (len % 2 ^ 32 : Nat) < 2 ^ 32 := by omega
    exact ⟨_, _, compSym_made ⟨Int.natCast_nonneg _, by exact_mod_cast hlt⟩⟩
  | sym r =>
    cases r with
    | string | keyword | regex | qualified => exact ⟨_, _, rfl⟩
    | builtin sym b =>
      have hinit := builtinTerminalInit_sym (t := t) hp
      exact ⟨t, .term (.builtin ⟨b, []⟩), by
        simp [RulePart.graSym, RuleSym.graSym, rmacroProdSymToGraSym, rmacroTermSym, hinit]⟩
    | builtinVec sym b args =>
      have hinit := builtinTerminalInit_vec (t := t) hp
      exact ⟨(addArgs t args).1, .term (.builtin ⟨b, (addArgs t args).2⟩), by
        simp [RulePart.graSym, RuleSym.graSym, rmacroProdSymToGraSym, rmacroTermSym, hinit]⟩
    | nonterm sym =>
      have hname : rmacroNontermOf E name (.atom (.sym sym)) = _ := rmacroNontermOf_sym hp.1
      exact ⟨t, .nonterm (E.symbol (qualify E name sym)), by
        simp [RulePart.graSym, RuleSym.graSym, rmacroProdSymToGraSym, hname]⟩

theorem rmacroSyms_made {α β : Type}
    {convert : FklCgRmacroGraSym → SymTables → Option (SymTables × β)}
    {f : α → FklCgRmacroGraSym} {as : List α}
    (h : ∀ a ∈ as, ∀ t, ∃ t' s, convert (f a) t = some (t', s)) (t : SymTables) :
    ∃ t' ss, rmacroSyms convert t (as.map f) = some (t', ss) := by
  induction as generalizing t with
  | nil => exact ⟨t, [], rfl⟩
  | cons a as ih =>
    obtain ⟨ha, has⟩ := List.forall_mem_cons.mp h
    obtain ⟨t₁, s, hs⟩ := ha t
    obtain ⟨t₂, ss, hss⟩ := ih has t₁
    exact ⟨t₂, s :: ss, by simp [rmacroSyms, hs, hss]⟩

/-! Ignored text. -/

theorem termSym_prodSym {s : RuleSym} (hs : s.isTerm = true) (t : SymTables) :
    rmacroProdSymToGraSym E name s.graSym t =
      (rmacroProdSymToIgSym E s.graSym t).map fun r => (r.1, .term r.2) := by
  cases s with
  | string | regex => rfl
  | builtin sym b =>
    simp only [RuleSym.graSym, rmacroProdSymToGraSym, rmacroProdSymToIgSym]
    cases rmacroTermSym E ⟨.builtin, some (.atom (.sym sym))⟩ t <;> rfl
  | builtinVec sym b args =>
    simp only [RuleSym.graSym, rmacroProdSymToGraSym, rmacroProdSymToIgSym]
    cases rmacroTermSym E ⟨.builtin, some (argsAst sym args)⟩ t <;> rfl
  | keyword | nonterm | qualified => cases hs

theorem ignore_made {s : RuleSym} (hs : s.Valid ∧ s.isTerm = true) (t : SymTables) :
    ∃ t' x, rmacroProdSymToIgSym E s.graSym t = some (t', x) := by
  obtain ⟨t', x, hx⟩ := part_made (E := E) (p := .sym s) [] hs.1 t
  rw [RulePart.graSym, termSym_prodSym hs.2] at hx
  obtain ⟨r, hr, -⟩ := Option.map_eq_some_iff.mp hx
  exact ⟨r.1, r.2, hr⟩

theorem ignores_converted {written : List RuleSym} {ig : FklGrammerIgnore}
    (hwritten : ∀ s ∈ written, s.Valid ∧ s.isTerm = true)
    (ht : ∀ k ∈ t.regexes.keys, E.compiles k = true)
    (h : rmacroSyms (rmacroProdSymToIgSym E) t (written.map RuleSym.graSym) = some (t', ig)) :
    Converted E t (written.map (RuleSym.madeText E [])) (written.flatMap RuleSym.madeDelims) t'
      (ig.map .term) := by
  induction written generalizing t ig with
  | nil =>
    cases h
    exact Converted.nil _
  | cons s written ih =>
    obtain ⟨hs, hwritten⟩ := List.forall_mem_cons.mp hwritten
    obtain ⟨⟨t₁, x⟩, hx, h⟩ := Option.bind_eq_some_iff.mp h
    obtain ⟨⟨t₂, ig'⟩, hig, h⟩ := Option.bind_eq_some_iff.mp h
    cases h
    have hsym : rmacroProdSymToGraSym E [] (RulePart.sym s).graSym t = some (t₁, .term x) := by
      rw [RulePart.graSym, termSym_prodSym hs.2, hx]
      rfl
    have hone := part_converted (p := .sym s) hs.1 ht hsym
    exact hone.append (ih hwritten (hone.compiles ht) hig)

/-! Grammars that the commands leave good. -/

theorem Converted.good {xs : List SymText} {ds : List (List UInt8)} {ss : List FklGrammerSym}
    (h : Converted E g.toSymTables xs ds t' ss) (hg : g.Good E.toGrammerEnv) :
    Good E.toGrammerEnv ({ g with toSymTables := t' } : FklGrammer RmacroAct) :=
  hg.extends h.extends_ (h.compiles hg.compiles)

/-- What a delimiter or ignored text does. -/
structure PlainAdded (E : RmacroEnv) (written : List RuleSym) (g g' : FklGrammer RmacroAct) :
    Prop where
  good : g'.Good E.toGrammerEnv
  prods : ∀ nt, g'.prodsOf nt = g.prodsOf nt
  rhss : ∀ nt, g'.rhss nt = g.rhss nt
  ignores : ∀ ig ∈ g'.ignores, ig ∈ g.ignores ∨ ∃ ds t',
    Converted E g.toSymTables (written.map (RuleSym.madeText E [])) ds t' (ig.map .term)

theorem addDelim_added (name : List UInt8) (hg : g.Good E.toGrammerEnv) (s : List UInt8) :
    ∃ g', rmacroCmd E name g (.addDelim (strAst s)) = some (false, g') ∧ PlainAdded E [] g g' := by
  have hconv := addDelimiter_converted (E := E) g.toSymTables s
  exact ⟨_, rfl, hconv.good hg, fun nt => rfl, rhss_extends hg hconv.extends_, fun ig => .inl⟩

theorem addIgnore_added (name : List UInt8) (hg : g.Good E.toGrammerEnv) {written : List RuleSym}
    (hwritten : ∀ s ∈ written, s.Valid ∧ s.isTerm = true) :
    ∃ g', rmacroCmd E name g (.addIgnore ⟨none, none, .ast (.atom .nil), false,
        written.map RuleSym.graSym⟩) = some (false, g') ∧ PlainAdded E written g g' := by
  obtain ⟨t', ig, h⟩ := rmacroSyms_made (fun s hs => ignore_made (E := E) (hwritten s hs))
    g.toSymTables
  have hconv := ignores_converted hwritten hg.compiles h
  have hgood := hconv.good hg
  have hhas : ∀ s ∈ ig, t'.HasSym (.term s) := fun s hs => hconv.has _ (List.mem_map_of_mem hs)
  obtain ⟨igs, higs⟩ : ∃ igs, (fklAddIgnoreToIgnoreList g.ignores ig).getD g.ignores = igs :=
    ⟨_, rfl⟩
  refine ⟨{ g with toSymTables := t', ignores := igs },
    by simp [rmacroCmd, doRmacroAddIgnore, h, higs], ?_⟩
  by_cases hmem : FklGrammerIgnore.texts t'.regexes ig ∈
      ({ g with toSymTables := t' } : FklGrammer RmacroAct).ignoreTexts
  · have hnone := addIgnore_of_mem hgood hhas hmem
    obtain rfl : igs = g.ignores := higs.symm.trans (congrArg (Option.getD · g.ignores) hnone)
    exact ⟨hgood, fun nt => rfl, rhss_extends hg hconv.extends_, fun ig => .inl⟩
  · obtain ⟨hsome, hgood'⟩ := addIgnore_of_not_mem hgood hhas hmem
    obtain rfl : igs = g.ignores ++ [ig] :=
      higs.symm.trans (congrArg (Option.getD · g.ignores) hsome)
    refine ⟨hgood', fun nt => rfl, rhss_extends hg hconv.extends_, fun ig' hig' => ?_⟩
    refine (List.mem_append.mp hig').imp id fun hig' => ?_
    obtain rfl := List.mem_singleton.mp hig'
    exact ⟨_, _, hconv⟩

/-! Productions. -/

/-- The left side of a rule as the grammar has it. -/
def ruleLeft (E : RmacroEnv) (name : List UInt8) : Nast → List UInt8
  | .atom (.sym left) => makeQualifiedSym name left
  | _ => E.start

theorem qualifiedSep_mem (a b : List UInt8) : qualifiedSep ∈ makeQualifiedSym a b :=
  List.mem_append_right a List.mem_cons_self

theorem getRmacroProdLeft_eq {prod : FklVMvalueCgRmacroProd} {left : Nast}
    (hprod : prod.left = some left) (hleft : IsLeft left) :
    getRmacroProdLeft E name prod = some (E.symbol (ruleLeft E name left)) := by
  rw [getRmacroProdLeft, hprod]
  rcases hleft with rfl | ⟨s, rfl⟩
  · rfl
  · have hnot : makeQualifiedSym name s ∉ E.builtinNonterms := fun h =>
      E.unqualified _ h (qualifiedSep_mem name s)
    simp [hnot, ruleLeft]

theorem isBuiltin_symbol (s : List UInt8) :
    E.toGrammerEnv.isBuiltin (E.symbol s) = (fklGetBuiltinMatch s).isSome := by
  have hname : ∀ b : List UInt8 × FklLalrBuiltinMatch,
      (E.symbol b.1 == E.symbol s) = (s == b.1) := by
    intro b
    rw [Bool.eq_iff_iff, beq_iff_eq, beq_iff_eq, E.symbol_inj.eq_iff, eq_comm]
  change builtinMatches.any (fun b => E.symbol b.1 == E.symbol s) = (builtinMatches.lookup s).isSome
  simp only [hname]
  generalize builtinMatches = l
  induction l with
  | nil => rfl
  | cons b l ih =>
    rw [List.any_cons, ih, List.lookup_cons]
    cases s == b.1 <;> rfl

theorem builtinName_unqualified {sym : List UInt8} {b : FklLalrBuiltinMatch}
    (h : fklGetBuiltinMatch sym = some b) : qualifiedSep ∉ sym := by
  have hall : ∀ p ∈ builtinMatches, qualifiedSep ∉ p.1 := by decide
  obtain ⟨l, l', heq, -⟩ := List.lookup_eq_some_iff.mp h
  exact hall (sym, b) (by rw [heq]; simp)

theorem makeQualifiedSym_not_builtin (a b : List UInt8) :
    E.toGrammerEnv.isBuiltin (E.symbol (makeQualifiedSym a b)) = false := by
  rw [isBuiltin_symbol, Option.isSome_eq_false_iff, Option.isNone_iff_eq_none]
  cases hmatch : fklGetBuiltinMatch (makeQualifiedSym a b) with
  | none => rfl
  | some t => exact absurd (qualifiedSep_mem a b) (builtinName_unqualified hmatch)

theorem start_not_builtin : E.toGrammerEnv.isBuiltin (E.symbol E.start) = false := by
  rw [isBuiltin_symbol, E.nonterms _ E.start_nonterm]
  rfl

theorem ruleLeft_not_builtin {left : Nast} (hleft : IsLeft left) :
    E.toGrammerEnv.isBuiltin (E.symbol (ruleLeft E name left)) = false := by
  rcases hleft with rfl | ⟨s, rfl⟩
  · exact start_not_builtin
  · exact makeQualifiedSym_not_builtin name s

/-- The production of a rule. -/
structure Made (E : RmacroEnv) (name : List UInt8) (g : FklGrammer RmacroAct) (left : Nast)
    (items : List RuleItem) (t' : SymTables) (out : FklGrammerProduction RmacroAct) : Prop where
  left_eq : out.left = E.symbol (ruleLeft E name left)
  syms : Converted E g.toSymTables ((ruleParts items).map (RulePart.madeText E name))
    ((ruleParts items).flatMap RulePart.madeDelims) t' out.syms

variable {left typeAst ast : Nast} {addExtra : Bool} {items : List RuleItem}
  {prod : FklVMvalueCgRmacroProd}

theorem ruleParts_valid (hvalid : ∀ i ∈ items, i.2.Valid) : ∀ p ∈ ruleParts items, p.Valid := by
  intro p hp
  cases p with
  | ignore | comp => trivial
  | sym s =>
    obtain ⟨i, hi, rfl⟩ := sym_mem_ruleParts.mp hp
    exact hvalid i hi

theorem createActProd_of_parse {type : ActionType} {syms : List FklCgRmacroGraSym}
    {action : FklRmacroAction} (nt : Nat) (ss : List FklGrammerSym)
    (h : parseAction type ast syms = some (.ok action)) :
    createActProd nt type action ss = some (fklCreateProduction nt ss (type, action)) := by
  cases type with
  | builtin =>
    unfold parseAction at h
    dsimp only at h
    split at h
    · next hvalid =>
      cases h
      exact if_pos hvalid
    · cases h
  | simple | custom | replace => cases action <;> rfl

theorem rmacroProdToProd_made (name : List UInt8)
    (h : PartCmd E (.rule left addExtra items typeAst ast) (.addProd prod))
    (hg : g.Good E.toGrammerEnv) : ∃ t' out,
      rmacroProdToProd E name g.toSymTables prod = some (t', out) ∧
        Made E name g left items t' out := by
  cases h with
  | @rule _ _ _ _ _ type action hvalid hleft htype haction =>
    have hparts := ruleParts_valid hvalid
    obtain ⟨t', ss, hss⟩ := rmacroSyms_made
      (fun p hp => part_made (E := E) name (hparts p hp)) g.toSymTables
    have hconv := parts_converted hparts hg.compiles hss
    have hact := createActProd_of_parse (E.symbol (ruleLeft E name left)) ss haction
    refine ⟨t', fklCreateProduction (E.symbol (ruleLeft E name left)) ss (type, action), ?_, rfl,
      hconv⟩
    have hleft' : getRmacroProdLeft E name ⟨some left, some typeAst, action, addExtra,
        (ruleParts items).map RulePart.graSym⟩ = _ := getRmacroProdLeft_eq rfl hleft
    simp [rmacroProdToProd, htype, hleft', hss, hact]

/-- What the addition of the production that leads to `nt` from the start symbol does. -/
structure ExtraAdded (E : RmacroEnv) (nt : Nat) (g g' : FklGrammer RmacroAct) : Prop where
  good : g'.Good E.toGrammerEnv
  tables : g'.toSymTables = g.toSymTables
  kept : ∀ nt', nt' ≠ E.symbol E.start → g'.prodsOf nt' = g.prodsOf nt'
  prods : ∀ nt', ∀ p ∈ g'.prodsOf nt', p ∈ g.prodsOf nt' ∨ p.syms = [.nonterm nt]
  rhss : ∀ nt' x, x ∈ g'.rhss nt' ↔ x ∈ g.rhss nt' ∨ E.symbol E.start = nt' ∧ [.nonterm nt] = x
  ignores : g'.ignores = g.ignores

theorem appendProd_extra (hg : g.Good E.toGrammerEnv) (nt : Nat)
    (hne : ∀ cur ∈ g.prodsOf (E.symbol E.start),
      prodEqual cur (createExtraStartProd E nt) = false) :
    ExtraAdded E nt g
      (g.appendProd (g.prodsOf (E.symbol E.start)) (createExtraStartProd E nt)) where
  good := hg.appendProd start_not_builtin (by simp [createExtraStartProd, HasSym]) (fun _ => id)
    (hg.once _) hne
  tables := rfl
  kept nt' hnt := prodsOf_appendProd.trans (if_neg hnt)
  prods nt' p hp := by
    rw [prodsOf_appendProd] at hp
    split at hp
    · next heq =>
      rw [heq]
      refine (List.mem_append.mp hp).imp id fun hp => ?_
      rw [List.mem_singleton.mp hp]
      rfl
    · exact .inl hp
  rhss nt' x := mem_rhss_appendProd
  ignores := rfl

theorem replaceProd_extra (hg : g.Good E.toGrammerEnv) {nt : Nat}
    {pre post : List (FklGrammerProduction RmacroAct)} {cur : FklGrammerProduction RmacroAct}
    (hps : g.prodsOf (E.symbol E.start) = pre ++ cur :: post)
    (heq : prodEqual cur (createExtraStartProd E nt) = true) :
    ExtraAdded E nt g (g.setProds (E.symbol E.start)
      (pre ++ { createExtraStartProd E nt with idx := cur.idx } :: post)) := by
  have hsyms : ∀ s ∈ (createExtraStartProd E nt).syms, g.HasSym s := by
    simp [createExtraStartProd, HasSym]
  have hcur : cur ∈ g.prodsOf (E.symbol E.start) := by simp [hps]
  have hrhs := (prodEqual_iff (hg.syms _ cur hcur) hsyms).mp heq
  have hrhss : ∀ nt', (g.setProds (E.symbol E.start)
      (pre ++ { createExtraStartProd E nt with idx := cur.idx } :: post)).rhss nt' =
        g.rhss nt' := by
    intro nt'
    by_cases hnt : nt' = E.symbol E.start
    · subst hnt
      rw [FklGrammer.rhss, FklGrammer.rhss, prodsOf_setProds, if_pos rfl, hps, List.map_append,
        List.map_append, List.map_cons, List.map_cons, hrhs]
      rfl
    · rw [FklGrammer.rhss, FklGrammer.rhss, prodsOf_setProds, if_neg hnt]
      rfl
  refine ⟨hg.replaceProd hps rfl hsyms le_rfl hrhs.symm, rfl,
    fun nt' hnt => prodsOf_setProds.trans (if_neg hnt), fun nt' p hp => ?_, fun nt' x => ?_, rfl⟩
  · rw [prodsOf_setProds] at hp
    split at hp
    · next hnt =>
      rw [hnt, hps]
      rcases List.mem_append.mp hp with hp | hp
      · exact .inl (List.mem_append_left _ hp)
      · rcases List.mem_cons.mp hp with rfl | hp
        · exact .inr rfl
        · exact .inl (List.mem_append_right _ (List.mem_cons_of_mem _ hp))
    · exact .inl hp
  · rw [hrhss]
    refine ⟨.inl, fun hx => hx.elim id ?_⟩
    rintro ⟨rfl, rfl⟩
    exact List.mem_map.mpr ⟨cur, hcur, hrhs⟩

theorem addExtraStart_added (hg : g.Good E.toGrammerEnv) (nt : Nat) : ∃ g',
    g.fklAddProdToProdTable E.toGrammerEnv (createExtraStartProd E nt) = some g' ∧
      ExtraAdded E nt g g' := by
  obtain ⟨g', h⟩ : ∃ g', g.fklAddProdToProdTable E.toGrammerEnv (createExtraStartProd E nt) =
      some g' := addProd_some g id start_not_builtin fun cur => ⟨_, rfl⟩
  refine ⟨g', h, ?_⟩
  obtain ⟨-, ⟨pre, cur, post, q, hps, heq, hq, rfl⟩ | ⟨hne, rfl | ⟨hnil, rfl⟩⟩⟩ := addProd_cases h
  · obtain rfl := Option.some.inj hq
    exact replaceProd_extra hg hps heq
  · exact appendProd_extra hg nt hne
  · have hadded := appendProd_extra hg nt hne
    have hstart : g.prodsOf (E.symbol E.start) = [] := hnil
    rw [hstart] at hadded
    exact hadded

/-- What a rule that is not there adds. -/
structure RuleAdded (E : RmacroEnv) (addExtra : Bool) (t' : SymTables)
    (out : FklGrammerProduction RmacroAct) (g g' : FklGrammer RmacroAct) : Prop where
  good : g'.Good E.toGrammerEnv
  tables : g'.toSymTables = t'
  mem : { out with idx := g.prodCount } ∈ g'.prodsOf out.left
  prods : ∀ nt, ∀ p ∈ g'.prodsOf nt,
    p ∈ g.prodsOf nt ∨ p.syms = out.syms ∨ p.syms = [.nonterm out.left]
  rhss : ∀ nt x, x ∈ g'.rhss nt ↔ x ∈ g.rhss nt ∨ (out.left = nt ∧ out.rhs t'.regexes = x) ∨
    addExtra = true ∧ E.symbol E.start = nt ∧ [.nonterm out.left] = x
  ignores : g'.ignores = g.ignores

variable {out : FklGrammerProduction RmacroAct}

theorem appendProd_added (hg : g.Good E.toGrammerEnv) {t : SymTables} {ds : List (List UInt8)}
    (hext : Extends ds g.toSymTables t)
    (hgood : Good E.toGrammerEnv (({ g with toSymTables := t } : FklGrammer RmacroAct).appendProd
      (({ g with toSymTables := t } : FklGrammer RmacroAct).prodsOf out.left) out)) :
    RuleAdded E false t out g (({ g with toSymTables := t } : FklGrammer RmacroAct).appendProd
      (({ g with toSymTables := t } : FklGrammer RmacroAct).prodsOf out.left) out) where
  good := hgood
  tables := rfl
  mem := by
    rw [prodsOf_appendProd, if_pos rfl]
    exact List.mem_append_right _ List.mem_cons_self
  prods nt p hp := by
    rw [prodsOf_appendProd] at hp
    split at hp
    · next heq =>
      rw [heq]
      refine (List.mem_append.mp hp).imp id fun hp => .inl ?_
      rw [List.mem_singleton.mp hp]
    · exact .inl hp
  rhss nt x := by
    rw [mem_rhss_appendProd, rhss_extends hg hext]
    simp
  ignores := rfl

theorem RuleAdded.extra {g₁ : FklGrammer RmacroAct} (h : RuleAdded E false t' out g g₁)
    (h' : ExtraAdded E out.left g₁ g') (hne : out.left ≠ E.symbol E.start) :
    RuleAdded E true t' out g g' where
  good := h'.good
  tables := h'.tables.trans h.tables
  mem := by
    rw [h'.kept _ hne]
    exact h.mem
  prods nt p hp := (h'.prods nt p hp).elim (h.prods nt p) fun hp => .inr (.inr hp)
  rhss nt x := by
    rw [h'.rhss, h.rhss]
    simp [or_assoc]
  ignores := h'.ignores.trans h.ignores

/-- A rule that is there already is in error, and the start symbol has no name where it is put
under itself. -/
theorem doRmacroAddProd_spec (name : List UInt8)
    (h : PartCmd E (.rule left addExtra items typeAst ast) (.addProd prod))
    (hg : g.Good E.toGrammerEnv) : ∃ t' out, Made E name g left items t' out ∧
      (out.rhs t'.regexes ∈ g.rhss out.left ∧
          doRmacroAddProd E name g prod = some (true, { g with toSymTables := t' }) ∨
        out.rhs t'.regexes ∉ g.rhss out.left ∧ (addExtra = true ∧ left = .atom .nil) ∧
          doRmacroAddProd E name g prod = none ∨
        out.rhs t'.regexes ∉ g.rhss out.left ∧ ¬(addExtra = true ∧ left = .atom .nil) ∧ ∃ g',
          doRmacroAddProd E name g prod = some (false, g') ∧ RuleAdded E addExtra t' out g g') := by
  obtain ⟨t', out, hprod, hmade⟩ := rmacroProdToProd_made name h hg
  have hgood := hmade.syms.good hg
  have hrhss := rhss_extends hg hmade.syms.extends_ out.left
  have hfields : prod.left = some left ∧ prod.addExtra = addExtra := by
    cases h
    exact ⟨rfl, rfl⟩
  have hleft : IsLeft left := by
    cases h
    assumption
  refine ⟨t', out, hmade, ?_⟩
  by_cases hmem : out.rhs t'.regexes ∈ g.rhss out.left
  · have hnone := noRepeat_of_mem hgood hmade.syms.has (hrhss ▸ hmem)
    exact .inl ⟨hmem, by simp [doRmacroAddProd, hprod, hnone]⟩
  · have hbuiltin : E.toGrammerEnv.isBuiltin out.left = false := by
      rw [hmade.left_eq]
      exact ruleLeft_not_builtin hleft
    obtain ⟨hsome, hgood'⟩ := noRepeat_of_not_mem hgood hmade.syms.has hbuiltin (hrhss ▸ hmem)
    have hadded := appendProd_added hg hmade.syms.extends_ hgood'
    refine .inr ?_
    cases addExtra with
    | false =>
      refine .inr ⟨hmem, by simp, _, ?_, hadded⟩
      simp [doRmacroAddProd, hprod, hsome, hfields.2]
    | true =>
      rcases hleft with rfl | ⟨s, rfl⟩
      · refine .inl ⟨hmem, ⟨rfl, rfl⟩, ?_⟩
        simp [doRmacroAddProd, hprod, hsome, hfields.1, hfields.2, asSym]
      · obtain ⟨g', hextra, hg'⟩ := addExtraStart_added hgood' (E.symbol (makeQualifiedSym name s))
        have hne : out.left ≠ E.symbol E.start := by
          rw [hmade.left_eq]
          intro heq
          have hstart := E.symbol_inj heq
          exact E.unqualified _ E.start_nonterm (hstart ▸ qualifiedSep_mem name s)
        refine .inr ⟨hmem, by simp, g', ?_, hadded.extra (hmade.left_eq ▸ hg') hne⟩
        simp [doRmacroAddProd, hprod, hsome, hfields.1, hfields.2, asSym, hextra]

/-! Runs. -/

theorem rmacroCmd_good {part : DefPart} {cmd : FklCgRmacroCmd} {error : Bool}
    (hpart : PartCmd E part cmd) (hg : g.Good E.toGrammerEnv)
    (h : rmacroCmd E name g cmd = some (error, g')) : g'.Good E.toGrammerEnv := by
  cases hpart with
  | delim s =>
    obtain ⟨g₁, hcmd, hadded⟩ := addDelim_added name hg s
    cases hcmd.symm.trans h
    exact hadded.good
  | ignore hwritten =>
    obtain ⟨g₁, hcmd, hadded⟩ := addIgnore_added name hg hwritten
    cases hcmd.symm.trans h
    exact hadded.good
  | rule hvalid hleft htype haction =>
    obtain ⟨t', out, hmade, ⟨-, hcmd⟩ | ⟨-, -, hcmd⟩ | ⟨-, -, g₁, hcmd, hadded⟩⟩ :=
      doRmacroAddProd_spec name (PartCmd.rule hvalid hleft htype haction) hg
    · cases hcmd.symm.trans h
      exact hmade.syms.good hg
    · cases hcmd.symm.trans h
    · cases hcmd.symm.trans h
      exact hadded.good

theorem fklExecuteCgRmacro_good {parts : List DefPart} {cmds : FklVMvalueCgRmacro} {error : Bool}
    (hparts : List.Forall₂ (PartCmd E) parts cmds) (hg : g.Good E.toGrammerEnv)
    (h : fklExecuteCgRmacro E name g cmds = some (error, g')) : g'.Good E.toGrammerEnv := by
  induction hparts generalizing g with
  | nil =>
    cases h
    exact hg
  | cons hpart _ ih =>
    obtain ⟨⟨error', g₁⟩, hcmd, h⟩ := Option.bind_eq_some_iff.mp h
    have hgood := rmacroCmd_good hpart hg hcmd
    cases error' with
    | true =>
      cases h
      exact hgood
    | false => exact ih hgood h

end FakeLisp.GrammerTables
