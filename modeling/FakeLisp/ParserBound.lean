import FakeLisp.Parser

/-! What a round of the parser does, and that the parser stays in its buffer: `cstr` and `restLen`
go together to the end, and the word that is remembered ends there or before. -/

namespace FakeLisp

variable {σ α : Type}

namespace FklGrammerTerms

variable {g : FklGrammerTerms} {mem : Memory} {fuel : Nat} {table : FklAnalysisTable}
  {cb : FklParseCallbacks σ α} {start : Nat}

/-- The action that a round takes. -/
def RoundFinds (g : FklGrammerTerms) (mem : Memory) (fuel : Nat) (table : FklAnalysisTable)
    (start : Nat) (p : FklParser σ α) (a : FklAnalysisStateAction) (args : FklStateActionMatchArgs)
    (r : MatchRun) : Prop :=
  ∃ top state, p.stateStack.head? = some top ∧ table[top]? = some state ∧
    g.findAction mem fuel start p.cstr p.restLen state.action .init ⟨p.ctx, false⟩ =
      .ok ((some a, args), r)

/-- A round of the parser that is not the last one. -/
inductive RoundEffect (g : FklGrammerTerms) (mem : Memory) (fuel : Nat) (table : FklAnalysisTable)
    (cb : FklParseCallbacks σ α) (start : Nat) (p : FklParser σ α) :
    FklParseEvent → FklParser σ α → Prop
  | ignore {a : FklAnalysisStateAction} {args : FklStateActionMatchArgs} {r : MatchRun}
    {q : FklParser σ α} (hfind : RoundFinds g mem fuel table start p a args r)
    (ha : a.action = .ignore) (hctx : q.ctx = r.ctx)
    (hcstr : q.cstr = p.cstr + (args.matchLen + args.skipIgnoreLen))
    (hrest : q.restLen = sizeSub p.restLen (args.matchLen + args.skipIgnoreLen))
    (hstates : q.stateStack = p.stateStack) (hsymbols : q.symbolStack = p.symbolStack) :
    RoundEffect g mem fuel table cb start p (.ignore a.m args) q
  | shift {a : FklAnalysisStateAction} {args : FklStateActionMatchArgs} {r r' : MatchRun}
    {q : FklParser σ α} {s : Nat} (hfind : RoundFinds g mem fuel table start p a args r)
    (ha : a.action = .shift s)
    (hemplace : g.fklEmplaceAnalysisSymbol mem fuel cb p.symbolStack a.m.t start
      (p.cstr + args.skipIgnoreLen) args.matchLen (0 < args.skipIgnoreLen) p.line p.outer
      ⟨r.ctx, false⟩ = .ok ((q.symbolStack, q.outer), r')) (hctx : q.ctx = r'.ctx)
    (hcstr : q.cstr = p.cstr + (args.matchLen + args.skipIgnoreLen))
    (hrest : q.restLen = sizeSub p.restLen (args.matchLen + args.skipIgnoreLen))
    (hstates : q.stateStack = List.replicate (shiftCount a.m.t) s ++ p.stateStack) :
    RoundEffect g mem fuel table cb start p (.shift a.m args) q
  | reduce {a : FklAnalysisStateAction} {args : FklStateActionMatchArgs} {r : MatchRun}
    {q : FklParser σ α} {prod : FklGrammerProduction} {len top : Nat} {state : FklAnalysisState}
    {gt : FklAnalysisStateGoto} {ast : α} {line : Nat}
    (hfind : RoundFinds g mem fuel table start p a args r) (ha : a.action = .reduce prod len)
    (hstateLen : len ≤ p.stateStack.length) (hsymbolLen : len ≤ p.symbolStack.length)
    (htop : (p.stateStack.drop len).head? = some top) (hstate : table[top]? = some state)
    (hgt : state.gt.find? (fun gt =>
      (gt.allowIgnore || !baseStartWithIgnore (p.symbolStack.take len).reverse) &&
        gt.nt = prod.left) = some gt)
    (hctx : q.ctx = r.ctx) (hcstr : q.cstr = p.cstr) (hrest : q.restLen = p.restLen)
    (hstates : q.stateStack = gt.state :: p.stateStack.drop len)
    (hsymbols : q.symbolStack = ⟨prod.left, ast, line,
      baseStartWithIgnore (p.symbolStack.take len).reverse⟩ :: p.symbolStack.drop len) :
    RoundEffect g mem fuel table cb start p (.reduce prod len) q

theorem parseRound_effect {p q : FklParser σ α} {ev : FklParseEvent}
    (h : g.parseRound mem fuel table cb start p = .ok (.next ev q)) :
    RoundEffect g mem fuel table cb start p ev q := by
  simp only [parseRound, bind, except_bind_eq_ok, orFailed_eq_ok] at h
  obtain ⟨top, htop, state, hstate, ⟨⟨action, args⟩, r⟩, hfind, h⟩ := h
  cases action with
  | none => cases h
  | some a =>
    have hf : RoundFinds g mem fuel table start p a args r := ⟨top, state, htop, hstate, hfind⟩
    cases ha : a.action with
    | accept =>
      simp only [ha, orFailed_eq_ok, Option.map_eq_some_iff] at h
      obtain ⟨_, _, h⟩ := h
      cases h
    | ignore =>
      simp only [ha] at h
      cases h
      exact .ignore hf ha rfl rfl rfl rfl rfl
    | shift s =>
      simp only [ha, except_bind_eq_ok] at h
      obtain ⟨⟨⟨symbols, outer⟩, r'⟩, hemplace, h⟩ := h
      cases h
      exact .shift hf ha hemplace rfl rfl rfl rfl
    | reduce prod len =>
      simp only [ha, orFailed_eq_ok, doReduceAction] at h
      split_ifs at h with hlen
      simp only [Option.bind_eq_bind, Option.bind_eq_some_iff] at h
      obtain ⟨top', htop', state', hstate', h⟩ := h
      split at h
      · cases h
      · next gt hgt =>
        split at h
        · cases h
        · cases h
          exact .reduce hf ha (by omega) (by omega) htop' hstate' hgt rfl rfl rfl rfl rfl

/-! Parts that measure no words leave the context alone, wherever they end. -/

theorem triple_partMatch_noWords {part : FklCompPart} {c : FklGrammerMatchCtx} {cur rest : Nat}
    (hpart : ∀ b, part = .builtin b → ¬g.MeasuresWords b) :
    Triple (fun r => r.ctx = c) (g.partMatch mem fuel start cur rest part)
      fun len r => r.ctx = c ∧ len ≤ rest := by
  cases part with
  | string s =>
    simp only [partMatch]
    split_ifs with hm
    · exact Triple.ret _ fun r hr => ⟨hr, length_le_of_charBufMatch hm⟩
    · exact triple_matchFailed
  | regex re =>
    simp only [partMatch]
    split_ifs with hlt
    · exact triple_matchFailed
    · exact Triple.ret _ fun r hr => ⟨hr, by omega⟩
  | builtin b =>
    refine (triple_builtin_within (hpart b rfl) _ fuel start cur rest).bind fun o => ?_
    cases o with
    | none => exact triple_matchFailed
    | some len => exact Triple.ret _ fun r hr => ⟨hr.1, hr.2 len rfl⟩

theorem triple_emplaceParts_noWords (ctxLine : Nat) (parts : List FklCompPart)
    (hparts : ¬g.CompWords parts) {c : FklGrammerMatchCtx} (cur rest : Nat)
    (startWithIgnore : Bool) (line : Nat) (symbols : List (FklAnalysisSymbol α)) (outer : σ) :
    Triple (fun r => r.ctx = c)
      (g.emplaceParts mem fuel cb ctxLine start parts cur rest startWithIgnore line symbols outer)
      fun _ r => r.ctx = c := by
  induction parts generalizing cur rest startWithIgnore line symbols outer with
  | nil => exact Triple.ret _ fun r hr => hr
  | cons part parts ih =>
    simp only [emplaceParts]
    have hpart : ∀ b, part = .builtin b → ¬g.MeasuresWords b :=
      fun b heq hb => hparts ⟨b, by simp [heq], hb⟩
    have htail : ¬g.CompWords parts := fun ⟨b, hb, hw⟩ => hparts ⟨b, by simp [hb], hw⟩
    refine (triple_partMatch_noWords hpart).bind fun len => ?_
    exact (ih htail _ _ _ _ _ _).mapPre fun r hr => hr.1

/-! The buffer ends at `fin`. -/

section

variable {fin : Nat} (hok : g.NoWords) (hfin : fin < 2 ^ 64)

include hok hfin

theorem triple_partMatch (part : FklCompPart) {c : FklGrammerMatchCtx} (hc : CacheOk start fin c)
    {cur rest : Nat} (hcur : cur + rest = fin) :
    Triple (fun r => r.ctx = c) (g.partMatch mem fuel start cur rest part)
      fun len r => CacheOk start fin r.ctx ∧ len ≤ rest := by
  by_cases hwords : ∀ b, part = .builtin b → ¬g.MeasuresWords b
  · exact (triple_partMatch_noWords hwords).mapPost fun len r h => ⟨h.1 ▸ hc, h.2⟩
  · push Not at hwords
    obtain ⟨b, rfl, _⟩ := hwords
    refine (triple_builtinMatches hok hfin fuel b hc hcur).bind fun o => ?_
    cases o with
    | none => exact triple_matchFailed
    | some len => exact Triple.ret _ fun r hr => ⟨hr.1, (hr.2 len rfl).1⟩

theorem triple_emplaceParts (ctxLine : Nat) (parts : List FklCompPart) {c : FklGrammerMatchCtx}
    (hc : CacheOk start fin c) {cur rest : Nat} (hcur : cur + rest = fin)
    (startWithIgnore : Bool) (line : Nat) (symbols : List (FklAnalysisSymbol α)) (outer : σ) :
    Triple (fun r => r.ctx = c)
      (g.emplaceParts mem fuel cb ctxLine start parts cur rest startWithIgnore line symbols outer)
      fun _ r => CacheOk start fin r.ctx := by
  induction parts generalizing c cur rest startWithIgnore line symbols outer with
  | nil => exact Triple.ret _ fun r hr => hr ▸ hc
  | cons part parts ih =>
    simp only [emplaceParts]
    refine (triple_partMatch hok hfin part hc hcur).bind fun len => ?_
    refine Triple.ofState fun t ht => ?_
    have hsub : sizeSub rest len = rest - len := sizeSub_eq ht.2 (by omega)
    refine (ih ht.1 ?_ _ _ _ _).mapPre fun r hr => by rw [hr]
    rw [hsub]
    omega

/-- After a shift the word that is remembered ends in the buffer still. -/
theorem emplace_cacheOk {t : FklLalrItemLookAhead} {symbols symbols' : List (FklAnalysisSymbol α)}
    {cur len : Nat} (hle : cur + len ≤ fin) {startWithIgnore : Bool} {line : Nat} {outer outer' : σ}
    {c : FklGrammerMatchCtx} {w : Bool}
    {r' : MatchRun} (hc : CacheOk start fin c)
    (hcomp : ∀ parts, t = .comp parts → CacheOk start (cur + len) c ∨ ¬g.CompWords parts)
    (h : g.fklEmplaceAnalysisSymbol mem fuel cb symbols t start cur len startWithIgnore line outer
      ⟨c, w⟩ = .ok ((symbols', outer'), r')) : CacheOk start fin r'.ctx := by
  by_cases hparts : ∃ parts, t = .comp parts
  · obtain ⟨parts, rfl⟩ := hparts
    rcases hcomp parts rfl with hcache | hwords
    · have := triple_emplaceParts hok (by omega : cur + len < 2 ^ 64) line parts hcache rfl
        startWithIgnore line symbols outer ⟨c, w⟩ _ r' rfl h
      exact this.mono hle
    · have := triple_emplaceParts_noWords line parts hwords cur len startWithIgnore line symbols
        outer ⟨c, w⟩ _ r' rfl h
      rw [this]
      exact hc
  · cases t with
    | comp parts => exact absurd ⟨parts, rfl⟩ hparts
    | _ =>
      cases h
      exact hc

end

section

variable {lo fin : Nat} (hok : IgnoresOk g mem lo fin) (hfin : fin < 2 ^ 64)

/-- What the first match among some actions says. -/
def FindWithin (g : FklGrammerTerms) (start : Nat) (actions : List FklAnalysisStateAction)
    (fin cstr restLen : Nat)
    (o : Option FklAnalysisStateAction × FklStateActionMatchArgs) (r : MatchRun) : Prop :=
  CacheOk start fin r.ctx ∧ ∀ a, o.1 = some a → a ∈ actions ∧
    g.ActionWithin start a.m fin cstr restLen (true, o.2) r

include hok hfin

theorem triple_findAction {cstr restLen : Nat} (hlo : lo ≤ cstr) (hcstr : cstr + restLen = fin)
    (actions : List FklAnalysisStateAction) (args : FklStateActionMatchArgs)
    (hargs : args.ignoreLen ≤ restLen) :
    Triple (fun r => CacheOk start fin r.ctx)
      (g.findAction mem fuel start cstr restLen actions args)
      (g.FindWithin start actions fin cstr restLen) := by
  induction actions generalizing args with
  | nil => exact Triple.ret _ fun r hr => ⟨hr, by simp⟩
  | cons a as ih =>
    refine (triple_isStateActionMatch hok hfin fuel a.m hlo hcstr args hargs).bind fun o => ?_
    obtain ⟨found, args'⟩ := o
    refine Triple.fact (fun r hr => hr.2.1) fun hargs' => ?_
    cases found with
    | true =>
      refine Triple.ret _ fun r hr => ⟨hr.1, fun a' ha => ?_⟩
      cases ha
      exact ⟨by simp, hr⟩
    | false =>
      refine (ih args' hargs').conseq (fun r hr => hr.1) fun o r h => ⟨h.1, fun a' ha => ?_⟩
      exact ⟨List.mem_cons_of_mem _ (h.2 a' ha).1, (h.2 a' ha).2⟩

/-- The parser is in its buffer. -/
structure ParserOk (start lo fin : Nat) (p : FklParser σ α) : Prop where
  lo_le : lo ≤ p.cstr
  rest : p.cstr + p.restLen = fin
  cache : CacheOk start fin p.ctx

theorem RoundFinds.within {p : FklParser σ α} (hp : ParserOk start lo fin p)
    {a : FklAnalysisStateAction}
    {args : FklStateActionMatchArgs} {r : MatchRun}
    (h : RoundFinds g mem fuel table start p a args r) :
    g.ActionWithin start a.m fin p.cstr p.restLen (true, args) r := by
  obtain ⟨top, state, _, _, hfind⟩ := h
  have hinit : FklStateActionMatchArgs.init.ignoreLen ≤ p.restLen := by
    have : FklStateActionMatchArgs.init.ignoreLen = -2 := rfl
    omega
  have hfound := @triple_findAction g mem fuel start lo fin hok hfin p.cstr p.restLen hp.lo_le
    hp.rest state.action .init hinit _ _ _ hp.cache hfind
  exact (hfound.2 a rfl).2

omit hok hfin in
theorem not_eof_of_takes {a : FklAnalysisStateAction} (ha : a.action.Takes) : a.m.t ≠ .eof :=
  fun heof => a.eof_not_taken heof ha

omit hok in
theorem ParserOk.rest_advance {p : FklParser σ α} (hp : ParserOk start lo fin p)
    {args : FklStateActionMatchArgs} (hle : args.skipIgnoreLen + args.matchLen ≤ p.restLen) :
    p.cstr + (args.matchLen + args.skipIgnoreLen) +
      sizeSub p.restLen (args.matchLen + args.skipIgnoreLen) = fin := by
  have := hp.rest
  rw [sizeSub_eq (by omega) (by omega)]
  omega

theorem ParserOk.round {p q : FklParser σ α} {ev : FklParseEvent} (hp : ParserOk start lo fin p)
    (h : g.parseRound mem fuel table cb start p = .ok (.next ev q)) : ParserOk start lo fin q := by
  cases parseRound_effect h with
  | ignore hfind ha hctx hcstr hrest _ _ =>
    obtain ⟨hcache, -, htaken⟩ := hfind.within hok hfin hp
    obtain ⟨hle, -⟩ := htaken rfl (not_eof_of_takes (by rw [ha]; trivial))
    refine ⟨?_, by rw [hcstr, hrest]; exact hp.rest_advance hfin hle, hctx ▸ hcache⟩
    have := hp.lo_le
    omega
  | shift hfind ha hemplace hctx hcstr hrest _ =>
    obtain ⟨hcache, -, htaken⟩ := hfind.within hok hfin hp
    obtain ⟨hle, hcomp⟩ := htaken rfl (not_eof_of_takes (by rw [ha]; trivial))
    have hlo := hp.lo_le
    have hrest' := hp.rest
    refine ⟨by omega, by rw [hcstr, hrest]; exact hp.rest_advance hfin hle, ?_⟩
    rw [hctx]
    refine emplace_cacheOk hok.no_words hfin ?_ hcache hcomp hemplace
    simp only at hle ⊢
    omega
  | reduce hfind _ _ _ _ _ _ hctx hcstr hrest _ _ =>
    refine ⟨hcstr ▸ hp.lo_le, ?_, ?_⟩
    · rw [hcstr, hrest, hp.rest]
    · rw [hctx]
      exact (hfind.within hok hfin hp).1

theorem ParserOk.parses {p q : FklParser σ α} {evs : List FklParseEvent}
    (hp : ParserOk start lo fin p)
    (h : g.Parses mem fuel table cb start p evs q) : ParserOk start lo fin q := by
  induction h with
  | refl => exact hp
  | step _ hround ih => exact ih.round hok hfin hround

end

/-- The parser at the start of a buffer, with a context that remembers no word that goes on beyond
the end of it. -/
structure ParserStarts (start len : Nat) (p : FklParser σ α) : Prop where
  end_lt : start + len < 2 ^ 64
  cstr_eq : p.cstr = start
  restLen_eq : p.restLen = len
  cache : CacheOk start (start + len) p.ctx

/-- The end of the input is one long and not skipped to, however much is left. -/
theorem findAction_eof {cstr restLen : Nat} {actions : List FklAnalysisStateAction}
    {args args' : FklStateActionMatchArgs} {r r' : MatchRun} {a : FklAnalysisStateAction}
    (h : g.findAction mem fuel start cstr restLen actions args r = .ok ((some a, args'), r'))
    (ha : a.m.t = .eof) : args'.matchLen = 1 ∧ args'.skipIgnoreLen = 0 := by
  induction actions generalizing args r with
  | nil => cases h
  | cons b actions ih =>
    rw [findAction] at h
    obtain ⟨⟨⟨found, args₁⟩, r₁⟩, hmatch, h⟩ := stateT_bind_eq_ok.mp h
    cases found with
    | true =>
      cases h
      simp only [fklIsStateActionMatch, ha, terminalMatch, pure_bind] at hmatch
      cases hmatch
      exact ⟨rfl, rfl⟩
    | false => exact ih h

theorem fklIsStateActionMatch_le {len : Nat} (hok : IgnoresOk g mem start (start + len))
    {p q : FklParser σ α}
    {evs : List FklParseEvent} (hp : ParserStarts start len p)
    (hrun : g.Parses mem fuel table cb start p evs q) :
    q.cstr + q.restLen = start + len ∧
      ∀ (actions : List FklAnalysisStateAction) (a : FklAnalysisStateAction)
        (args : FklStateActionMatchArgs) (r : MatchRun),
        g.findAction mem fuel start q.cstr q.restLen actions .init ⟨q.ctx, false⟩ =
          .ok ((some a, args), r) →
        (a.m.t ≠ .eof → args.matchLen + args.skipIgnoreLen ≤ q.restLen ∧
          sizeSub q.restLen (args.matchLen + args.skipIgnoreLen) + args.matchLen +
            args.skipIgnoreLen = q.restLen) ∧
        (a.m.t = .eof → args.matchLen = 1 ∧ args.skipIgnoreLen = 0 ∧ ¬a.action.Takes) := by
  have hq : ParserOk start start (start + len) q := by
    refine ParserOk.parses hok hp.end_lt ⟨hp.cstr_eq.ge, ?_, hp.cache⟩ hrun
    rw [hp.cstr_eq, hp.restLen_eq]
  refine ⟨hq.rest, fun actions a args r hfind => ⟨fun ht => ?_, fun ht => ?_⟩⟩
  · have hinit : FklStateActionMatchArgs.init.ignoreLen ≤ q.restLen := by
      have : FklStateActionMatchArgs.init.ignoreLen = -2 := rfl
      omega
    have hwithin := triple_findAction hok hp.end_lt hq.lo_le hq.rest actions .init hinit _ _ _
      hq.cache hfind
    obtain ⟨hle, -⟩ := (hwithin.2 a rfl).2.2.2 rfl ht
    have hrest := hq.rest
    have hend := hp.end_lt
    have hle' : args.matchLen + args.skipIgnoreLen ≤ q.restLen := by
      simp only at hle
      omega
    rw [sizeSub_eq hle' (by omega)]
    omega
  · obtain ⟨hlen, hskip⟩ := findAction_eof hfind ht
    exact ⟨hlen, hskip, a.eof_not_taken ht⟩

/-! Ignored text: a comment from a semicolon to the end of the line, and two letters with a number
after them. -/

def bufferAt (start : Nat) (bytes : List UInt8) : Memory := fun i => bytes.getD (i - start) 0

def commentTerms : FklGrammerTerms where
  str s := if s = 0 then [59] else [97, 97]
  ignores := [[.string 0, .regex 0], [.string 1, .builtin ⟨0, []⟩]]
  sortedDelimiters := [[59]]
  builtinMatch t := if t = 0 then .decInt else .identifier
  regexLexMatchp _ s := ((s.takeWhile fun c => c ≠ 10).length, false)

def lettersTable : FklAnalysisTable :=
  [⟨[⟨⟨.keyword 1, false, by simp⟩, .shift 1, by simp⟩, ⟨⟨.string 1, false, by simp⟩, .shift 1,
    by simp⟩], []⟩, ⟨[], []⟩]

def noCallbacks : FklParseCallbacks Unit Unit := ⟨fun _ _ _ => ((), ()), fun _ _ => (),
  fun _ _ _ _ => (none, ())⟩

def startParser (start len : Nat) : FklParser Unit Unit :=
  ⟨start, len, ⟨0, 0, 0⟩, 1, false, [0], [], ()⟩

/-- Only the comments. -/
def lineTerms : FklGrammerTerms := { commentTerms with ignores := [[.string 0, .regex 0]] }

theorem IgnoreTakes.of_nil {g : FklGrammerTerms} {mem : Memory} {str restLen n : Nat}
    (h : IgnoreTakes g mem str restLen [] n) : n = 0 := by
  generalize hl : ([] : FklGrammerIgnore) = l at h
  cases h with
  | nil => rfl
  | builtin => simp at hl
  | regex => simp at hl
  | string => simp at hl

theorem IgnoreTakes.of_string {g : FklGrammerTerms} {mem : Memory} {str restLen s n : Nat}
    (h : IgnoreTakes g mem str restLen [.string s] n) :
    n = (g.str s).length ∧ fklCharBufMatch (g.str s) mem str (sizeSub restLen 0) := by
  generalize hl : [FklGrammerIgnoreSym.string s] = l at h
  cases h with
  | nil => cases hl
  | builtin =>
    have := List.append_inj' (show [] ++ [_] = _ ++ [_] from hl) rfl
    simp at this
  | regex =>
    have := List.append_inj' (show [] ++ [_] = _ ++ [_] from hl) rfl
    simp at this
  | string h hs =>
    obtain ⟨rfl, heq⟩ := List.append_inj' (show [] ++ [_] = _ ++ [_] from hl) rfl
    cases heq
    cases h.of_nil
    exact ⟨Nat.zero_add _, hs⟩

theorem lineTerms_ignoresOk : IgnoresOk lineTerms (bufferAt 1 [59, 97, 10]) 1 4 := by
  refine ⟨fun l re r hmem str restLen n hlo hstr htakes _ => ?_, fun ig hig b hb => ?_⟩
  · have hig := List.mem_singleton.mp hmem
    obtain ⟨rfl, rfl, rfl⟩ : l = [.string 0] ∧ re = 0 ∧ r = [] := by
      rcases l with _ | ⟨s, _ | ⟨t, l⟩⟩ <;> simp_all
    obtain ⟨rfl, hs⟩ := htakes.of_string
    obtain ⟨rfl, rfl⟩ | ⟨rfl, rfl⟩ | ⟨rfl, rfl⟩ | ⟨rfl, rfl⟩ : str = 1 ∧ restLen = 3 ∨
        str = 2 ∧ restLen = 2 ∨ str = 3 ∧ restLen = 1 ∨ str = 4 ∧ restLen = 0 := by omega
    · decide +kernel
    all_goals
      revert hs
      decide +kernel
  · rw [List.mem_singleton.mp hig] at hb
    simp at hb

/-- The comment is passed over. -/
def lineAction : FklAnalysisStateAction :=
  ⟨⟨.ignore, false, fun _ => rfl⟩, .ignore, ignore_not_taken_on_eof⟩

theorem lineTerms_le :
    lineTerms.findAction (bufferAt 1 [59, 97, 10]) 10 1 1 3 [lineAction] .init ⟨⟨0, 0, 0⟩, false⟩ =
        .ok ((some lineAction, ⟨2, 0, -2⟩), ⟨⟨0, 0, 0⟩, false⟩) ∧ 2 + 0 ≤ 3 := by
  have hfind : lineTerms.findAction (bufferAt 1 [59, 97, 10]) 10 1 1 3 [lineAction] .init
      ⟨⟨0, 0, 0⟩, false⟩ = .ok ((some lineAction, ⟨2, 0, -2⟩), ⟨⟨0, 0, 0⟩, false⟩) := rfl
  have hrun : lineTerms.Parses (bufferAt 1 [59, 97, 10]) 10 lettersTable noCallbacks 1
      (startParser 1 3) [] (startParser 1 3) := .refl _
  have hstarts : ParserStarts 1 3 (startParser 1 3) :=
    ⟨by decide, rfl, rfl, Or.inl (by decide)⟩
  exact ⟨hfind, (((fklIsStateActionMatch_le lineTerms_ignoresOk hstarts hrun).2 [lineAction]
    lineAction ⟨2, 0, -2⟩ _ hfind).1 (by decide)).1⟩

/-- The length that a match of one action reports. -/
def reported (mem : Memory) (t : FklLalrItemLookAhead) (start : Nat) (p : FklParser Unit Unit) :
    Option (Nat × Bool × Nat) :=
  (commentTerms.fklIsStateActionMatch mem 10 ⟨t, false, fun _ => rfl⟩ start p.cstr p.restLen .init
    ⟨p.ctx, false⟩).toOption.map fun o => (p.restLen, o.1.1, o.1.2.matchLen)

theorem commentTerms_exceeds :
    reported (bufferAt 1 [59, 97, 98]) .eof 1 (startParser 1 0) = some (0, true, 1) ∧
      reported (bufferAt 1 [59, 97, 98]) .ignore 1 (startParser 1 2) = some (2, true, 3) ∧
      ((commentTerms.parseRound (bufferAt 1 [97, 97, 98]) 10 lettersTable noCallbacks 1
        (startParser 1 3)).toOption.bind fun
          | .next _ q => reported (bufferAt 1 [97, 97, 98]) (.builtin ⟨1, []⟩) 1 q
          | _ => none) = some (1, true, 3) := by
  refine ⟨?_, ?_, ?_⟩ <;> decide +kernel

end FklGrammerTerms

end FakeLisp
