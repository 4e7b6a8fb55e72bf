import FakeLisp.AnalysisTableDet
import FakeLisp.Lr0Canonical
import FakeLisp.MatchEnds
import FakeLisp.StackCircle

/-! The loop of the parser and the one of `match_ignore` go round as long as something matches. They
end when what matches takes bytes, no word is measured while it is being measured and the reductions
of the table do not go in a circle. -/

namespace FakeLisp

variable {σ α : Type}

/-- A reduction that a state of the table has, on whatever lookahead. -/
inductive TableReduces (table : FklAnalysisTable) (stack : List Nat) : List Nat → Prop
  | reduce {top under : Nat} {state next : FklAnalysisState} {a : FklAnalysisStateAction}
    {prod : FklGrammerProduction} {len : Nat} {gt : FklAnalysisStateGoto}
    (htop : stack.head? = some top) (hstate : table[top]? = some state) (ha : a ∈ state.action)
    (hreduce : a.action = .reduce prod len) (hunder : (stack.drop len).head? = some under)
    (hnext : table[under]? = some next) (hgt : gt ∈ next.gt) (hnt : gt.nt = prod.left) :
    TableReduces table stack (gt.state :: stack.drop len)

/-- Reductions bring a state back on top without popping what was under it. -/
def ReducesInCircle (table : FklAnalysisTable) : Prop := Circles (TableReduces table)

theorem TableReduces.top_lt {table : FklAnalysisTable} {s t : List Nat}
    (h : TableReduces table s t) : ∃ q under, s = q :: under ∧ q < table.length := by
  obtain ⟨htop, hstate⟩ := h
  obtain ⟨under, rfl⟩ := List.head?_eq_some_iff.mp htop
  exact ⟨_, under, rfl, (List.getElem?_eq_some_iff.mp hstate).1⟩

theorem not_infinitely_many_reductions {table : FklAnalysisTable}
    (htable : ¬ReducesInCircle table) (f : ℕ → List Nat) :
    ¬∀ n, TableReduces table (f n) (f (n + 1)) :=
  fun hrun => htable (circles_of_run (Set.finite_lt_nat table.length) hrun
    fun n => (hrun n).top_lt)

/-- The event passes over a part of the input. -/
def FklParseEvent.takes : FklParseEvent → Bool
  | .ignore _ _ | .shift _ _ => true
  | .reduce _ _ => false

namespace FklGrammerTerms

variable {g : FklGrammerTerms} {mem : Memory} {fuel : Nat} {table : FklAnalysisTable}
  {cb : FklParseCallbacks σ α} {start : Nat}

/-! The loop of the parser. -/

theorem mem_of_findAction {cstr restLen : Nat} {actions : List FklAnalysisStateAction}
    {args args' : FklStateActionMatchArgs} {r r' : MatchRun} {a : FklAnalysisStateAction}
    (h : g.findAction mem fuel start cstr restLen actions args r = .ok ((some a, args'), r')) :
    a ∈ actions := by
  induction actions generalizing args r with
  | nil => cases h
  | cons b actions ih =>
    rw [findAction] at h
    obtain ⟨⟨⟨found, args''⟩, r''⟩, -, h⟩ := stateT_bind_eq_ok.mp h
    cases found with
    | true =>
      cases h
      exact List.mem_cons_self
    | false => exact List.mem_cons_of_mem _ (ih h)

theorem RoundEffect.tableReduces {p q : FklParser σ α} {prod : FklGrammerProduction} {len : Nat}
    (h : RoundEffect g mem fuel table cb start p (.reduce prod len) q) :
    TableReduces table p.stateStack q.stateStack ∧ q.restLen = p.restLen := by
  cases h with
  | reduce hfind ha _ _ hunder hnext hgt _ _ hrest hstates _ =>
    obtain ⟨top, state, htop, hstate, hfind⟩ := hfind
    have hprop := List.find?_some hgt
    simp only [Bool.and_eq_true, decide_eq_true_eq] at hprop
    rw [hstates]
    exact ⟨.reduce htop hstate (mem_of_findAction hfind) ha hunder hnext
      (List.mem_of_find?_eq_some hgt) hprop.2, hrest⟩

/-- What the next round takes is not empty and not more than there is. -/
def TakesBytes (g : FklGrammerTerms) (mem : Memory) (fuel : Nat) (table : FklAnalysisTable)
    (start : Nat) (p : FklParser σ α) : Prop :=
  ∀ a args r, RoundFinds g mem fuel table start p a args r → a.action.Takes →
    0 < args.matchLen + args.skipIgnoreLen ∧ args.matchLen + args.skipIgnoreLen ≤ p.restLen

/-- At no moment of the next round, however long it may go on, is `get_max_non_term_length` called
for a place for which it is at work already, and no match goes on beyond the end of the buffer. -/
def WordsApart (g : FklGrammerTerms) (mem : Memory) (table : FklAnalysisTable)
    (cb : FklParseCallbacks σ α) (start : Nat) (p : FklParser σ α) : Prop :=
  ∀ fuel stop, g.parseRound mem fuel table cb start p = .error stop →
    stop.Apart (p.cstr + p.restLen)

/-- What the next round matches takes bytes, and so does what `match_ignore` matches; no word is
measured while it is measured already. -/
structure Moves (g : FklGrammerTerms) (mem : Memory) (fuel : Nat) (table : FklAnalysisTable)
    (cb : FklParseCallbacks σ α) (start : Nat) (p : FklParser σ α) : Prop where
  round : TakesBytes g mem fuel table start p
  ignores : ∀ r, IgnoresMove g mem fuel p.cstr p.restLen r
  words : WordsApart g mem table cb start p

/-- With more fuel than there are places a round comes to its end or to a failed assertion. -/
theorem Moves.failed {p : FklParser σ α} (h : Moves g mem fuel table cb start p)
    (hfuel : 2 * (p.cstr + p.restLen) + 1 < fuel) {stop : MatchStop}
    (hstop : g.parseRound mem fuel table cb start p = .error stop) : stop = .failed := by
  cases stop with
  | failed => rfl
  | cutOff words place =>
    have hle := (lasts_parseRound h.ignores hstop).le (h.words fuel _ hstop)
    omega

theorem RoundEffect.restLen_takes {p q : FklParser σ α} {ev : FklParseEvent}
    (h : RoundEffect g mem fuel table cb start p ev q) (hlen : p.restLen < 2 ^ 64)
    (hmoves : TakesBytes g mem fuel table start p) :
    q.restLen + (if ev.takes then 1 else 0) ≤ p.restLen ∧
      q.cstr + q.restLen = p.cstr + p.restLen := by
  cases h with
  | ignore hfind ha _ hcstr hrest _ _ =>
    obtain ⟨hpos, hle⟩ := hmoves _ _ _ hfind (by rw [ha]; trivial)
    rw [hcstr, hrest, sizeSub_eq hle hlen]
    simp only [FklParseEvent.takes, if_true]
    omega
  | shift hfind ha _ _ hcstr hrest _ =>
    obtain ⟨hpos, hle⟩ := hmoves _ _ _ hfind (by rw [ha]; trivial)
    rw [hcstr, hrest, sizeSub_eq hle hlen]
    simp only [FklParseEvent.takes, if_true]
    omega
  | reduce _ _ _ _ _ _ _ _ hcstr hrest _ _ =>
    exact ⟨by simp [hrest, FklParseEvent.takes], by rw [hcstr, hrest]⟩

theorem takes_length_le {p q : FklParser σ α} {evs : List FklParseEvent}
    (hlen : p.restLen < 2 ^ 64)
    (hmoves : ∀ evs q, g.Parses mem fuel table cb start p evs q →
      TakesBytes g mem fuel table start q)
    (h : g.Parses mem fuel table cb start p evs q) :
    evs.countP FklParseEvent.takes + q.restLen ≤ p.restLen ∧
      q.cstr + q.restLen = p.cstr + p.restLen := by
  induction h with
  | refl => simp
  | step h hround ih =>
    have hstep := (parseRound_effect hround).restLen_takes (by omega) (hmoves _ _ h)
    rw [List.countP_append, List.countP_singleton]
    omega

theorem Parses.head {p q r : FklParser σ α} {ev : FklParseEvent} {evs : List FklParseEvent}
    (hround : g.parseRound mem fuel table cb start p = .ok (.next ev q))
    (h : g.Parses mem fuel table cb start q evs r) :
    g.Parses mem fuel table cb start p (ev :: evs) r := by
  induction h with
  | refl => exact .step (.refl p) hround
  | step _ hlast ih => exact .step ih hlast

/-- `q` is what a round makes of `p`. -/
def RoundTo (g : FklGrammerTerms) (mem : Memory) (fuel : Nat) (table : FklAnalysisTable)
    (cb : FklParseCallbacks σ α) (start : Nat) (q p : FklParser σ α) : Prop :=
  ∃ ev, g.parseRound mem fuel table cb start p = .ok (.next ev q)

theorem parses_of_rounds {f : ℕ → FklParser σ α}
    (hrun : ∀ n, RoundTo g mem fuel table cb start (f (n + 1)) (f n)) (n : ℕ) :
    ∃ evs, g.Parses mem fuel table cb start (f 0) evs (f n) := by
  induction n with
  | zero => exact ⟨[], .refl _⟩
  | succ n ih =>
    obtain ⟨evs, h⟩ := ih
    obtain ⟨ev, hround⟩ := hrun n
    exact ⟨_, h.step hround⟩

theorem RoundEffect.tableReduces_of_le {p q : FklParser σ α} {ev : FklParseEvent}
    (h : RoundEffect g mem fuel table cb start p ev q)
    (hstep : q.restLen + (if ev.takes then 1 else 0) ≤ p.restLen) (hle : p.restLen ≤ q.restLen) :
    TableReduces table p.stateStack q.stateStack := by
  cases ev with
  | reduce prod len => exact h.tableReduces.1
  | ignore m args => simp only [FklParseEvent.takes, if_true] at hstep; omega
  | shift m args => simp only [FklParseEvent.takes, if_true] at hstep; omega

/-- From the place on where the input is shortest there would be reductions only. -/
theorem acc_roundTo (htable : ¬ReducesInCircle table) {p : FklParser σ α}
    (hlen : p.restLen < 2 ^ 64)
    (hmoves : ∀ evs q, g.Parses mem fuel table cb start p evs q →
      TakesBytes g mem fuel table start q) :
    Acc (RoundTo g mem fuel table cb start) p := by
  by_contra hacc
  obtain ⟨f, rfl, hrun⟩ := not_acc_iff_exists_descending_chain.mp hacc
  have hstep : ∀ n, ∃ ev, RoundEffect g mem fuel table cb start (f n) ev (f (n + 1)) ∧
      (f (n + 1)).restLen + (if ev.takes then 1 else 0) ≤ (f n).restLen := by
    intro n
    obtain ⟨evs, hreach⟩ := parses_of_rounds hrun n
    obtain ⟨ev, hround⟩ := hrun n
    have hrest := takes_length_le hlen hmoves hreach
    exact ⟨ev, parseRound_effect hround,
      ((parseRound_effect hround).restLen_takes (by omega) (hmoves _ _ hreach)).1⟩
  have hanti : Antitone fun n => (f n).restLen := by
    refine antitone_nat_of_succ_le fun n => ?_
    obtain ⟨ev, -, h⟩ := hstep n
    exact le_trans (Nat.le_add_right _ _) h
  obtain ⟨m, -, hlow⟩ := exists_lowest_from (fun n => (f n).restLen) 0
  refine not_infinitely_many_reductions htable (fun n => (f (m + n)).stateStack) fun n => ?_
  obtain ⟨ev, heffect, h⟩ := hstep (m + n)
  exact heffect.tableReduces_of_le h
    ((hanti (Nat.le_add_right m n)).trans (hlow (m + n + 1) (by omega)))

/-- The loop returns, or it comes to an assertion that fails. -/
def ParserEnds (g : FklGrammerTerms) (mem : Memory) (fuel : Nat) (table : FklAnalysisTable)
    (cb : FklParseCallbacks σ α) (start : Nat) (p : FklParser σ α) : Prop :=
  ∃ n, (∃ res, g.fklParseWithTableForCharBuf2 mem fuel table cb start n p = .ok res) ∨
    g.fklParseWithTableForCharBuf2 mem fuel table cb start n p = .error .failed

theorem parserEnds_of_acc {p : FklParser σ α} (hacc : Acc (RoundTo g mem fuel table cb start) p)
    (hstop : ∀ evs q, g.Parses mem fuel table cb start p evs q → ∀ stop,
      g.parseRound mem fuel table cb start q = .error stop → stop = .failed) :
    ParserEnds g mem fuel table cb start p := by
  induction hacc with
  | intro p _ ih =>
    cases hround : g.parseRound mem fuel table cb start p with
    | error stop =>
      obtain rfl := hstop [] p (.refl p) stop hround
      exact ⟨1, Or.inr (by rw [fklParseWithTableForCharBuf2, hround]; rfl)⟩
    | ok round =>
      cases round with
      | accept top => exact ⟨1, Or.inl ⟨_, by rw [fklParseWithTableForCharBuf2, hround]; rfl⟩⟩
      | error err => exact ⟨1, Or.inl ⟨_, by rw [fklParseWithTableForCharBuf2, hround]; rfl⟩⟩
      | next ev q =>
        obtain ⟨n, hn⟩ := ih q ⟨ev, hround⟩ fun evs q' hrun =>
          hstop (ev :: evs) q' (hrun.head hround)
        refine ⟨n + 1, ?_⟩
        rw [fklParseWithTableForCharBuf2]
        rcases hn with ⟨res, hres⟩ | hfailed
        · exact Or.inl ⟨_, except_bind_eq_ok.mpr
            ⟨_, hround, except_bind_eq_ok.mpr ⟨res, hres, rfl⟩⟩⟩
        · exact Or.inr (except_bind_eq_error.mpr
            (Or.inr ⟨_, hround, except_bind_eq_error.mpr (Or.inl hfailed)⟩))

def NeverEmpty (g : FklGrammerTerms) (mem : Memory) (fuel start : Nat)
    (t : FklLalrItemLookAhead) : Prop :=
  ∀ cstr restLen skip, Triple (fun _ => True)
    (g.terminalMatch mem fuel t start cstr restLen skip) fun o _ => ∀ len, o = some len → 0 < len

theorem neverEmpty_ignore : NeverEmpty g mem fuel start .ignore := by
  intro cstr restLen skip
  refine Triple.bind (Q := fun _ _ => True) (fun _ _ _ _ _ => trivial) fun n => ?_
  refine Triple.ret _ fun _ _ len hlen => ?_
  split_ifs at hlen with hpos
  exact Option.some.inj hlen ▸ hpos

theorem neverEmpty_string {s : Nat} (hs : g.str s ≠ []) :
    NeverEmpty g mem fuel start (.string s) := by
  refine fun cstr restLen skip => Triple.ret _ fun _ _ len hlen => ?_
  split_ifs at hlen
  exact Option.some.inj hlen ▸ List.length_pos_iff.mpr hs

/-- A match that is found takes bytes. -/
def FoundPos (o : Bool × FklStateActionMatchArgs) (_ : MatchRun) : Prop :=
  o.1 = true → 0 < o.2.matchLen

theorem triple_isStateActionMatch_pos {m : FklAnalysisStateActionMatch} (cstr restLen : Nat)
    (args : FklStateActionMatchArgs) (hpos : NeverEmpty g mem fuel start m.t) :
    Triple (fun _ => True) (g.fklIsStateActionMatch mem fuel m start cstr restLen args)
      FoundPos := by
  have hfalse : ∀ args : FklStateActionMatchArgs,
      Triple (fun _ => True) (pure (false, args) : MatchM (Bool × FklStateActionMatchArgs))
        FoundPos :=
    fun args => Triple.ret _ fun _ _ h => by cases h
  -- the second attempt, after ignored text
  have hsecond : ∀ (n : Int) (k : Option Nat → MatchM (Bool × FklStateActionMatchArgs)),
      (∀ len, k (some len) = pure (true, ⟨len, n.toNat, n⟩)) →
      k none = pure (false, ⟨args.matchLen, n.toNat, n⟩) →
      Triple (fun _ => True)
        (if n > 0 then g.terminalMatch mem fuel m.t start cstr restLen n.toNat >>= k
        else pure (false, ⟨args.matchLen, 0, n⟩)) FoundPos := by
    intro n k hsome hnone
    split_ifs
    · refine (hpos cstr restLen n.toNat).bind fun o => ?_
      cases o with
      | some len =>
        rw [hsome]
        exact Triple.ret _ fun _ h _ => h len rfl
      | none =>
        rw [hnone]
        exact (hfalse _).mapPre fun _ _ => trivial
    · exact hfalse _
  simp only [fklIsStateActionMatch]
  refine (hpos cstr restLen 0).bind fun o => ?_
  cases o with
  | some len => exact Triple.ret _ fun _ h _ => h len rfl
  | none =>
    refine (Triple.get.mapPre fun _ h => h).bind fun r => ?_
    split_ifs
    · exact (hfalse _).mapPre fun _ _ => trivial
    · refine Triple.bind (Q := fun _ _ => True) (fun _ _ _ _ _ => trivial) fun n => ?_
      exact hsecond n _ (fun _ => rfl) rfl
    · exact (hsecond args.ignoreLen _ (fun _ => rfl) rfl).mapPre fun _ _ => trivial

theorem findAction_pos {cstr restLen : Nat} {actions : List FklAnalysisStateAction}
    (hpos : ∀ a ∈ actions, a.action.Takes → NeverEmpty g mem fuel start a.m.t)
    {args args' : FklStateActionMatchArgs} {r r' : MatchRun} {a : FklAnalysisStateAction}
    (h : g.findAction mem fuel start cstr restLen actions args r = .ok ((some a, args'), r'))
    (ha : a.action.Takes) : 0 < args'.matchLen := by
  induction actions generalizing args r with
  | nil => cases h
  | cons b actions ih =>
    rw [findAction] at h
    obtain ⟨⟨⟨found, args''⟩, r''⟩, hmatch, h⟩ := stateT_bind_eq_ok.mp h
    cases found with
    | true =>
      cases h
      exact triple_isStateActionMatch_pos cstr restLen args (hpos a (by simp) ha) _ _ _ trivial
        hmatch rfl
    | false => exact ih (fun a ha => hpos a (by simp [ha])) h

/-- In a buffer that no match leaves, a table on such terminals takes bytes. -/
theorem takesBytes_of_neverEmpty {lo fin : Nat} (hok : IgnoresOk g mem lo fin)
    (hfin : fin < 2 ^ 64) {p : FklParser σ α} (hp : ParserOk start lo fin p)
    (hpos : ∀ st ∈ table, ∀ a ∈ st.action, a.action.Takes → NeverEmpty g mem fuel start a.m.t) :
    TakesBytes g mem fuel table start p := by
  intro a args r hfind ha
  obtain ⟨hle, -⟩ := (hfind.within hok hfin hp).2.2 rfl (not_eof_of_takes ha)
  obtain ⟨top, state, -, hstate, hfind⟩ := hfind
  have hlen := findAction_pos (hpos state (List.mem_of_getElem? hstate)) hfind ha
  simp only at hle
  omega

/-- There no two words are measured at a time. -/
theorem wordsApart_of_ignoresOk {lo fin : Nat} (hok : IgnoresOk g mem lo fin)
    (hfin : fin < 2 ^ 64) {p : FklParser σ α} (hp : ParserOk start lo fin p) :
    WordsApart g mem table cb start p := by
  intro fuel stop h
  rw [hp.rest]
  exact apart_parseRound hok hfin hp h

end FklGrammerTerms

/-- Where a goto never leads to a state that reduces there is no circle. -/
theorem not_reducesInCircle {table : FklAnalysisTable}
    (h : ∀ st ∈ table, ∀ gt ∈ st.gt, ∀ next, table[gt.state]? = some next →
      ∀ a ∈ next.action, ∀ prod len, a.action ≠ .reduce prod len) : ¬ReducesInCircle table := by
  rintro ⟨q, under, s, hcircle⟩
  obtain ⟨t, -, hlast, -⟩ := Relation.TransGen.tail'_iff.mp hcircle
  obtain ⟨t', ⟨hfirst, -⟩, -⟩ := Relation.TransGen.head'_iff.mp hcircle
  have hgoto : ∃ st ∈ table, ∃ gt ∈ st.gt, gt.state = q := by
    generalize heq : q :: s = u at hlast
    cases hlast with
    | reduce _ _ _ _ _ hnext hgt _ =>
      exact ⟨_, List.mem_of_getElem? hnext, _, hgt, (List.cons.inj heq).1.symm⟩
  obtain ⟨st, hst, gt, hgt, rfl⟩ := hgoto
  cases hfirst with
  | reduce htop hstate ha hreduce =>
    cases htop
    exact h st hst gt hgt _ hstate _ ha _ _ hreduce

namespace FklGrammer

deriving instance DecidableEq for FklAnalysisStateAction, FklAnalysisStateGoto, FklAnalysisState

def oneStringSets : FklLalrItemSetHashMap :=
  oneString.withLookaheads (fun _ => .eof) ((oneString.fklGenerateLr0Items msort 20).getD [])

def oneStringTable : FklAnalysisTable := [
  ⟨[⟨⟨.string 0, true, by simp⟩, .shift 2, by simp⟩, createIgnoreAction], [⟨true, 1, 1⟩]⟩,
  ⟨[createReduceAction oneStringExtra .eof], []⟩,
  ⟨[createReduceAction oneStringProd .eof], []⟩]

theorem oneString_table :
    oneString.fklGenerateLalrAnalyzeTable oneStringSets = some (false, oneStringTable) := by
  decide +kernel

/-! Words, which may be empty, before a string. -/

def wordsStart : FklGrammerProduction :=
  ⟨0, [.ignore, .nonterm 1], laid_start⟩

def wordsMore : FklGrammerProduction :=
  ⟨1, [.regex 0, .nonterm 1], .sym (by simp) (.sym (by simp) .nil)⟩

def wordsLast : FklGrammerProduction := ⟨1, [.string 0], laid_string0⟩

def words : FklGrammer where
  prods := ⟨[(0, [wordsStart]), (1, [wordsMore, wordsLast])], by simp⟩
  left_eq := by simp [wordsStart, wordsMore, wordsLast]
  str _ := [98]
  totalsize _ := 0
  isRegexMatchEpsilon _ := true
  isBuiltinTerminalMatchEpsilon _ := false

def wordsSets : FklLalrItemSetHashMap :=
  words.withLookaheads (fun _ => .eof) ((words.fklGenerateLr0Items msort 20).getD [])

def wordsTable : FklAnalysisTable := [
  ⟨[⟨⟨.string 0, true, by simp⟩, .shift 3, by simp⟩,
    ⟨⟨.regex 0, true, by simp⟩, .shift 2, by simp⟩, createIgnoreAction], [⟨true, 1, 1⟩]⟩,
  ⟨[createReduceAction wordsStart .eof], []⟩,
  ⟨[⟨⟨.string 0, false, by simp⟩, .shift 3, by simp⟩,
    ⟨⟨.regex 0, false, by simp⟩, .shift 2, by simp⟩], [⟨false, 1, 4⟩]⟩,
  ⟨[createReduceAction wordsLast .eof], []⟩,
  ⟨[createReduceAction wordsMore .eof], []⟩]

theorem words_table : words.fklGenerateLalrAnalyzeTable wordsSets = some (false, wordsTable) := by
  decide +kernel

theorem oneStringTable_no_circle : ¬ReducesInCircle oneStringTable := by
  refine not_reducesInCircle ?_
  simp [oneStringTable, createReduceAction, reduceEnum, isSqNt, oneStringExtra]

end FklGrammer

namespace FklGrammerTerms

/-! A space before a letter. -/

def spaceLetter : Memory := bufferAt 8 [32, 97]

/-- Each space is ignored. -/
def spaceTerms : FklGrammerTerms where
  str s := if s = 0 then [97] else [32]
  ignores := [[.string 1]]
  sortedDelimiters := [[97]]
  builtinMatch _ := .never
  regexLexMatchp _ s := (s.length + 1, false)

theorem spaceTerms_ignoresOk (mem : Memory) (lo fin : Nat) : IgnoresOk spaceTerms mem lo fin := by
  refine ⟨fun l re r hmem => ?_, fun ig hig b hb => ?_⟩
  · have h := List.mem_singleton.mp hmem
    have hre : FklGrammerIgnoreSym.regex re ∈ l ++ .regex re :: r := by simp
    rw [h] at hre
    simp at hre
  · rw [List.mem_singleton.mp hig] at hb
    simp at hb

theorem spaceTerms_ignoresMove (mem : Memory) (fuel cstr restLen : Nat) (r : MatchRun) :
    IgnoresMove spaceTerms mem fuel cstr restLen r := by
  have hrule : ∀ retLen, Triple (fun _ => True)
      (spaceTerms.ignoresMatch mem (spaceTerms.builtinMatches mem fuel) cstr (cstr + retLen)
        (restLen - retLen) spaceTerms.ignores) fun o _ => ∀ len, o = some len → 0 < len := by
    intro retLen
    simp only [show spaceTerms.ignores = [[.string 1]] from rfl,
      show spaceTerms.str 1 = [32] from rfl, ignoresMatch, ignoreMatch]
    split_ifs
    · exact Triple.ret (some 1) (by simp)
    · exact Triple.ret none (by simp)
  rintro s t - hround
  obtain ⟨hlt, hmatch⟩ := hround
  exact Nat.lt_add_of_pos_right (hrule _ _ _ _ trivial hmatch _ rfl)

/-- A regular expression that matches any number of spaces is ignored. -/
def anySpacesTerms : FklGrammerTerms :=
  { spaceTerms with
    ignores := [[.regex 0]]
    regexLexMatchp := fun _ s => ((s.takeWhile fun c => c = 32).length, false) }

theorem anySpaces_matchIgnore (fuel n : Nat) (r : MatchRun) : ∃ place,
    anySpacesTerms.matchIgnore spaceLetter fuel 8 2 n 0 r = .error (.cutOff [] place) := by
  have hend : ∀ n, anySpacesTerms.matchIgnore spaceLetter fuel 8 2 n 1 r =
      .error (.cutOff [] 9) := by
    intro n
    induction n with
    | zero => rfl
    | succ n ih => exact ih
  cases n with
  | zero => exact ⟨8, rfl⟩
  | succ n => exact ⟨9, hend n⟩

/-! Matches that are given. -/

section

variable {g : FklGrammerTerms} {mem : Memory} {fuel start cstr restLen : Nat}
  {m : FklAnalysisStateActionMatch} {a : FklAnalysisStateAction}
  {actions : List FklAnalysisStateAction} {args args' : FklStateActionMatchArgs}
  {r r' r'' : MatchRun} {stop : MatchStop}

theorem isStateActionMatch_found {len : Nat}
    (h : g.terminalMatch mem fuel m.t start cstr restLen 0 r = .ok (some len, r')) :
    g.fklIsStateActionMatch mem fuel m start cstr restLen args r =
      .ok ((true, ⟨len, 0, args.ignoreLen⟩), r') :=
  stateT_bind_eq_ok.mpr ⟨_, h, rfl⟩

/-- Nothing is matched, and there is no ignored text. -/
theorem isStateActionMatch_none
    (h : g.terminalMatch mem fuel m.t start cstr restLen 0 r = .ok (none, r'))
    (hwaits : r'.isWaitingForMore = false) (hargs : args.ignoreLen = -2)
    (hign : m.allowIgnore = true → g.matchIgnore mem fuel cstr restLen fuel 0 r' = .ok (0, r')) :
    ∃ n, g.fklIsStateActionMatch mem fuel m start cstr restLen args r =
      .ok ((false, ⟨args.matchLen, 0, n⟩), r') := by
  cases hallow : m.allowIgnore with
  | false =>
    refine ⟨args.ignoreLen, stateT_bind_eq_ok.mpr ⟨_, h, ?_⟩⟩
    refine stateT_bind_eq_ok.mpr ⟨_, rfl, ?_⟩
    rw [hallow, Bool.not_false, Bool.or_true, if_pos rfl]
    rfl
  | true =>
    refine ⟨0, stateT_bind_eq_ok.mpr ⟨_, h, stateT_bind_eq_ok.mpr ⟨(r', r'), rfl, ?_⟩⟩⟩
    rw [hallow, hwaits, Bool.not_true, Bool.or_false, if_neg Bool.false_ne_true, if_pos hargs]
    refine stateT_bind_eq_ok.mpr ⟨(toSSize 0, r'), ?_, ?_⟩
    · rw [map_eq_pure_bind]
      exact stateT_bind_eq_ok.mpr ⟨_, hign hallow, rfl⟩
    · rfl

theorem isStateActionMatch_stop
    (h : g.terminalMatch mem fuel m.t start cstr restLen 0 r = .ok (none, r'))
    (hwaits : r'.isWaitingForMore = false) (hargs : args.ignoreLen = -2)
    (hallow : m.allowIgnore = true)
    (hign : g.matchIgnore mem fuel cstr restLen fuel 0 r' = .error stop) :
    g.fklIsStateActionMatch mem fuel m start cstr restLen args r = .error stop := by
  refine stateT_bind_eq_error.mpr (Or.inr ⟨_, h, ?_⟩)
  refine stateT_bind_eq_error.mpr (Or.inr ⟨(r', r'), rfl, ?_⟩)
  rw [hallow, hwaits, Bool.not_true, Bool.or_false, if_neg Bool.false_ne_true, if_pos hargs]
  refine stateT_bind_eq_error.mpr (Or.inl ?_)
  rw [map_eq_pure_bind]
  exact stateT_bind_eq_error.mpr (Or.inl hign)

theorem findAction_found
    (h : g.fklIsStateActionMatch mem fuel a.m start cstr restLen args r = .ok ((true, args'), r')) :
    g.findAction mem fuel start cstr restLen (a :: actions) args r = .ok ((some a, args'), r') :=
  stateT_bind_eq_ok.mpr ⟨_, h, rfl⟩

theorem findAction_none {found : Option FklAnalysisStateAction × FklStateActionMatchArgs}
    (h : g.fklIsStateActionMatch mem fuel a.m start cstr restLen args r = .ok ((false, args'), r'))
    (hrest : g.findAction mem fuel start cstr restLen actions args' r' = .ok (found, r'')) :
    g.findAction mem fuel start cstr restLen (a :: actions) args r = .ok (found, r'') :=
  stateT_bind_eq_ok.mpr ⟨_, h, hrest⟩

theorem parseRound_cutOff {table : FklAnalysisTable} {cb : FklParseCallbacks σ α}
    {p : FklParser σ α} {top : Nat} {state : FklAnalysisState} (htop : p.stateStack.head? = some top)
    (hstate : table[top]? = some state)
    (h : g.findAction mem fuel start p.cstr p.restLen state.action .init ⟨p.ctx, false⟩ =
      .error stop) : g.parseRound mem fuel table cb start p = .error stop := by
  refine except_bind_eq_error.mpr (Or.inr ⟨top, orFailed_eq_ok.mpr htop, ?_⟩)
  refine except_bind_eq_error.mpr (Or.inr ⟨state, orFailed_eq_ok.mpr hstate, ?_⟩)
  exact except_bind_eq_error.mpr (Or.inl h)

theorem parseRound_shift {table : FklAnalysisTable} (cb : FklParseCallbacks σ α)
    {p : FklParser σ α} {top s : Nat} {state : FklAnalysisState}
    {symbols : List (FklAnalysisSymbol α)} {outer : σ} (htop : p.stateStack.head? = some top)
    (hstate : table[top]? = some state)
    (hfind : g.findAction mem fuel start p.cstr p.restLen state.action .init ⟨p.ctx, false⟩ =
      .ok ((some a, args), r)) (ha : a.action = .shift s)
    (hemplace : g.fklEmplaceAnalysisSymbol mem fuel cb p.symbolStack a.m.t start
      (p.cstr + args.skipIgnoreLen) args.matchLen (0 < args.skipIgnoreLen) p.line p.outer
      ⟨r.ctx, false⟩ = .ok ((symbols, outer), r')) :
    ∃ p', g.parseRound mem fuel table cb start p = .ok (.next (.shift a.m args) p') ∧
      p'.cstr = p.cstr + (args.matchLen + args.skipIgnoreLen) ∧
      p'.restLen = sizeSub p.restLen (args.matchLen + args.skipIgnoreLen) ∧
      p'.stateStack = List.replicate (shiftCount a.m.t) s ++ p.stateStack := by
  refine ⟨{ p with
    ctx := r'.ctx
    waitingForMoreErr := p.waitingForMoreErr || r.isWaitingForMore
    outer := outer
    symbolStack := symbols
    stateStack := List.replicate (shiftCount a.m.t) s ++ p.stateStack
    line := p.line + fklCountCharInBuf mem p.cstr (args.matchLen + args.skipIgnoreLen)
    cstr := p.cstr + (args.matchLen + args.skipIgnoreLen)
    restLen := sizeSub p.restLen (args.matchLen + args.skipIgnoreLen) }, ?_, rfl, rfl, rfl⟩
  simp only [parseRound, bind, orFailed, htop, hstate, hfind, Except.bind, ha, hemplace]
  rfl

end

/-- Where `match_ignore` is cut off a round with the string is. -/
theorem oneString_parseRound {g : FklGrammerTerms} {mem : Memory} {fuel place : Nat}
    {words : List Nat}
    (hstring : g.terminalMatch mem fuel (.string 0) 8 8 2 0 ⟨⟨0, 0, 0⟩, false⟩ =
      .ok (none, ⟨⟨0, 0, 0⟩, false⟩))
    (hign : g.matchIgnore mem fuel 8 2 fuel 0 ⟨⟨0, 0, 0⟩, false⟩ = .error (.cutOff words place)) :
    g.parseRound mem fuel FklGrammer.oneStringTable noCallbacks 8 (startParser 8 2) =
      .error (.cutOff words place) := by
  have hmatch : g.fklIsStateActionMatch mem fuel ⟨.string 0, true, by simp⟩ 8 8 2 .init
      ⟨⟨0, 0, 0⟩, false⟩ = .error (.cutOff words place) :=
    isStateActionMatch_stop hstring rfl rfl rfl hign
  have htop : (startParser 8 2).stateStack.head? = some 0 := rfl
  exact parseRound_cutOff htop rfl (stateT_bind_eq_error.mpr (Or.inl hmatch))

/-- The words are letters. -/
def wordTerms : FklGrammerTerms where
  str _ := [98]
  ignores := []
  sortedDelimiters := [[98]]
  builtinMatch _ := .never
  regexLexMatchp _ s := ((s.takeWhile fun c => c = 97).length, false)

/-- Neither a word nor the string. -/
def otherLetter : Memory := bufferAt 8 [99]

theorem word_string (fuel : Nat) (r : MatchRun) :
    wordTerms.terminalMatch otherLetter fuel (.string 0) 8 8 1 0 r = .ok (none, r) := rfl

theorem word_regex (fuel : Nat) (r : MatchRun) :
    wordTerms.terminalMatch otherLetter fuel (.regex 0) 8 8 1 0 r = .ok (some 0, r) := rfl

theorem word_ignore (fuel n : Nat) (r : MatchRun) :
    wordTerms.matchIgnore otherLetter fuel 8 1 (n + 1) 0 r = .ok (0, r) := rfl

/-- The action on the regular expression is found. -/
theorem word_findAction (fuel : Nat) (allow : Bool) (actions : List FklAnalysisStateAction)
    (r : MatchRun) (hwaits : r.isWaitingForMore = false) : ∃ n,
    wordTerms.findAction otherLetter (fuel + 1) 8 8 1
      (⟨⟨.string 0, allow, by simp⟩, .shift 3, by simp⟩ ::
        ⟨⟨.regex 0, allow, by simp⟩, .shift 2, by simp⟩ :: actions) .init r =
      .ok ((some ⟨⟨.regex 0, allow, by simp⟩, .shift 2, by simp⟩, ⟨0, 0, n⟩), r) := by
  obtain ⟨n, hstring⟩ : ∃ n, wordTerms.fklIsStateActionMatch otherLetter (fuel + 1)
      ⟨.string 0, allow, by simp⟩ 8 8 1 .init r = .ok ((false, ⟨0, 0, n⟩), r) :=
    isStateActionMatch_none (word_string (fuel + 1) r) hwaits rfl fun _ =>
      word_ignore (fuel + 1) fuel r
  exact ⟨n, findAction_none hstring
    (findAction_found (isStateActionMatch_found (word_regex (fuel + 1) r)))⟩

/-- An empty word is shifted. -/
theorem word_parseRound (fuel : Nat) {p : FklParser Unit Unit} (hcstr : p.cstr = 8)
    (hrest : p.restLen = 1) {q : Nat} {s : List Nat} (hstates : p.stateStack = q :: s)
    (hq : q = 0 ∨ q = 2) :
    ∃ ev p', wordTerms.parseRound otherLetter (fuel + 1) FklGrammer.wordsTable noCallbacks 8 p =
      .ok (.next ev p') ∧ ev.takes = true ∧ p'.cstr = 8 ∧ p'.restLen = 1 ∧
        p'.stateStack = 2 :: q :: s := by
  obtain ⟨state, hstate, n, hfind⟩ : ∃ state, FklGrammer.wordsTable[q]? = some state ∧
      ∃ n allow, wordTerms.findAction otherLetter (fuel + 1) 8 8 1 state.action .init ⟨p.ctx, false⟩ =
        .ok ((some ⟨⟨.regex 0, allow, by simp⟩, .shift 2, by simp⟩, ⟨0, 0, n⟩), ⟨p.ctx, false⟩) := by
    rcases hq with rfl | rfl
    · obtain ⟨n, hfind⟩ := word_findAction fuel true [createIgnoreAction] ⟨p.ctx, false⟩ rfl
      exact ⟨_, rfl, n, true, hfind⟩
    · obtain ⟨n, hfind⟩ := word_findAction fuel false [] ⟨p.ctx, false⟩ rfl
      exact ⟨_, rfl, n, false, hfind⟩
  obtain ⟨allow, hfind⟩ := hfind
  have htop : p.stateStack.head? = some q := by rw [hstates, List.head?_cons]
  obtain ⟨p', hround, hcstr', hrest', hstates'⟩ := parseRound_shift noCallbacks htop hstate
    (by rw [hcstr, hrest]; exact hfind) rfl rfl
  refine ⟨_, p', hround, rfl, hcstr'.trans hcstr, ?_, ?_⟩
  · rw [hrest', hrest]
    exact (by decide : sizeSub 1 0 = 1)
  · rw [hstates', hstates]
    rfl

theorem word_parses (fuel n : Nat) : ∃ evs q,
    wordTerms.Parses otherLetter (fuel + 1) FklGrammer.wordsTable noCallbacks 8 (startParser 8 1)
      evs q ∧ evs.length = n ∧ evs.all FklParseEvent.takes = true ∧ q.cstr = 8 ∧ q.restLen = 1 ∧
      ∃ top s, q.stateStack = top :: s ∧ (top = 0 ∨ top = 2) := by
  induction n with
  | zero => exact ⟨[], _, .refl _, rfl, rfl, rfl, rfl, 0, [], rfl, Or.inl rfl⟩
  | succ n ih =>
    obtain ⟨evs, q, hrun, rfl, hall, hcstr, hrest, top, s, hstates, htop⟩ := ih
    obtain ⟨ev, q', hround, hev, hcstr', hrest', hstates'⟩ :=
      word_parseRound fuel hcstr hrest hstates htop
    exact ⟨evs ++ [ev], q', hrun.step hround, by simp, by simp [hall, hev], hcstr', hrest',
      2, _, hstates', Or.inr rfl⟩

/-- Ignored are a `b`, an `a` with a word and a `z` behind it, and a word with a `q` behind it. -/
def nestedTerms : FklGrammerTerms where
  str s := if s = 0 then [120] else if s = 1 then [97] else if s = 2 then [122] else
    if s = 3 then [113] else [98]
  ignores := [[.string 4], [.string 1, .builtin ⟨0, []⟩, .string 2], [.builtin ⟨0, []⟩, .string 3]]
  sortedDelimiters := [[120]]
  builtinMatch _ := .nodelimiter
  regexLexMatchp _ s := (s.length + 1, false)

/-- `ab` -/
def twoLetters : Memory := bufferAt 8 [97, 98]

/-- There is no word behind the `a`, but the context remembers the place where it was looked for. -/
theorem nested_first (fuel : Nat) (c : FklGrammerMatchCtx) (hc : c = ⟨0, 0, 0⟩ ∨ c = ⟨0, 8, 8⟩)
    (flag : Bool) :
    nestedTerms.ignoreMatch twoLetters (nestedTerms.builtinMatches twoLetters (fuel + 2)) 8 2
      [.string 1, .builtin ⟨0, []⟩, .string 2] 8 0 ⟨c, flag⟩ =
        .ok (none, ⟨⟨0, 8, 9⟩, flag⟩) := by
  rcases hc with rfl | rfl <;> rfl

/-- The last rule asks for the word at the first letter. -/
theorem nested_ignores {fuel : Nat} {c : FklGrammerMatchCtx} (hc : c = ⟨0, 0, 0⟩ ∨ c = ⟨0, 8, 8⟩)
    {flag : Bool} {stop : MatchStop}
    (h : nestedTerms.getMaxNonTermLength twoLetters (fuel + 2) 8 8 2 ⟨⟨0, 8, 9⟩, flag⟩ =
      .error stop) :
    nestedTerms.ignoresMatch twoLetters (nestedTerms.builtinMatches twoLetters (fuel + 2)) 8 8 2
      nestedTerms.ignores ⟨c, flag⟩ = .error stop := by
  refine stateT_bind_eq_error.mpr (Or.inr ⟨(none, ⟨c, flag⟩), rfl, ?_⟩)
  refine stateT_bind_eq_error.mpr (Or.inr ⟨_, nested_first fuel c hc flag, ?_⟩)
  refine stateT_bind_eq_error.mpr (Or.inl (stateT_bind_eq_error.mpr (Or.inl ?_)))
  exact stateT_bind_eq_error.mpr (Or.inl h)

/-- The place that the context has forgotten is the one that is worked on. -/
theorem nested_getMax (fuel : Nat) (flag : Bool) : ∃ words place,
    nestedTerms.getMaxNonTermLength twoLetters fuel 8 8 2 ⟨⟨0, 8, 9⟩, flag⟩ =
      .error (.cutOff words place) := by
  induction fuel using Nat.strongRecOn generalizing flag with
  | ind fuel ih =>
    match fuel with
    | 0 => exact ⟨_, _, rfl⟩
    | 1 => exact ⟨_, _, rfl⟩
    | 2 => exact ⟨_, _, rfl⟩
    | fuel + 3 =>
      obtain ⟨words, place, h⟩ := ih (fuel + 2) (by omega) false
      have hign := nested_ignores (Or.inr rfl) h
      have hloop : measuring 8 (nestedTerms.maxLenLoop twoLetters
          (nestedTerms.builtinMatches twoLetters (fuel + 2)) 8 2 0 8) ⟨⟨0, 8, 8⟩, flag⟩ =
            .error (.cutOff (8 :: words) place) := by
        have hown : withOwnFlag (nestedTerms.ignoresMatch twoLetters
            (nestedTerms.builtinMatches twoLetters (fuel + 2)) 8 8 2 nestedTerms.ignores)
              ⟨⟨0, 8, 8⟩, flag⟩ = .error (.cutOff words place) := by
          rw [withOwnFlag, hign]
          rfl
        rw [measuring, maxLenLoop, stateT_bind_eq_error.mpr (Or.inl hown)]
      refine ⟨8 :: words, place, ?_⟩
      rw [getMaxNonTermLength, if_neg (by decide)]
      refine stateT_bind_eq_error.mpr (Or.inr ⟨(⟨⟨0, 8, 9⟩, flag⟩, ⟨⟨0, 8, 9⟩, flag⟩), rfl, ?_⟩)
      rw [if_neg (by simp)]
      refine stateT_bind_eq_error.mpr (Or.inr ⟨((), ⟨⟨0, 8, 8⟩, flag⟩), rfl, ?_⟩)
      exact stateT_bind_eq_error.mpr (Or.inl hloop)

/-- The start of a parse asks for ignored text. -/
theorem nested_matchIgnore (fuel : Nat) : ∃ words place,
    nestedTerms.matchIgnore twoLetters fuel 8 2 fuel 0 ⟨⟨0, 0, 0⟩, false⟩ =
      .error (.cutOff words place) := by
  match fuel with
  | 0 => exact ⟨_, _, rfl⟩
  | 1 => exact ⟨_, _, rfl⟩
  | fuel + 2 =>
    obtain ⟨words, place, h⟩ := nested_getMax (fuel + 2) false
    refine ⟨words, place, ?_⟩
    rw [matchIgnore, if_pos (by decide)]
    exact stateT_bind_eq_error.mpr (Or.inl (nested_ignores (Or.inl rfl) h))

/-- A loop that begins with a round that is cut off. -/
theorem parser_cutOff {g : FklGrammerTerms} {mem : Memory} {fuel start place : Nat}
    {table : FklAnalysisTable} {cb : FklParseCallbacks σ α} {p : FklParser σ α} {words : List Nat}
    (h : g.parseRound mem fuel table cb start p = .error (.cutOff words place)) (n : Nat) :
    ∃ words place, g.fklParseWithTableForCharBuf2 mem fuel table cb start n p =
      .error (.cutOff words place) := by
  cases n with
  | zero => exact ⟨[], p.cstr, rfl⟩
  | succ n => exact ⟨words, place, except_bind_eq_error.mpr (Or.inl h)⟩

end FklGrammerTerms

end FakeLisp
