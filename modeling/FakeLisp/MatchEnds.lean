import FakeLisp.ParserBound

/-! What a match has done when it is cut off. It stands farther on for every round of a loop, and
for every call of `get_max_non_term_length` there is one place more that it is at work for. -/

namespace FakeLisp

variable {σ α : Type}

namespace MatchStop

/-- A match that is cut off after `n` steps. -/
def Lasts (n : Nat) : MatchStop → Prop
  | .failed => True
  | .cutOff words place => n ≤ words.length + place

/-- `get_max_non_term_length` has not been called for a place for which it was at work already, and
nothing is beyond `fin`. -/
def Apart (fin : Nat) : MatchStop → Prop
  | .failed => True
  | .cutOff words place => words.Nodup ∧ ∀ c ∈ place :: words, c ≤ fin

theorem Lasts.le {n fin place : Nat} {words : List Nat} (h : Lasts n (.cutOff words place))
    (hapart : Apart fin (.cutOff words place)) : n ≤ 2 * fin + 1 := by
  obtain ⟨hnodup, hle⟩ := hapart
  have hsub : words ⊆ List.range (fin + 1) := by
    intro c hc
    have := hle c (List.mem_cons_of_mem _ hc)
    rw [List.mem_range]
    omega
  have hwords := (hnodup.subperm hsub).length_le
  rw [List.length_range] at hwords
  have hplace := hle place List.mem_cons_self
  change n ≤ words.length + place at h
  omega

end MatchStop

section

variable {β : Type} {E : MatchStop → Prop} {P : MatchRun → Prop} {m : MatchM β}

theorem stops_matchFailed (hfailed : E .failed) : Stops P (matchFailed : MatchM β) E := by
  intro r e _ h
  cases h
  exact hfailed

theorem stops_matchCutOff {place : Nat} (h : E (.cutOff [] place)) :
    Stops P (matchCutOff place : MatchM β) E := by
  intro r e _ he
  cases he
  exact h

theorem Stops.withOwnFlag (h : Stops (fun _ => True) m E) :
    Stops (fun _ => True) (withOwnFlag m) E := by
  intro r e _ he
  rw [FakeLisp.withOwnFlag] at he
  cases hm : m { r with isWaitingForMore := false } with
  | error e' =>
    rw [hm] at he
    cases he
    exact h _ _ trivial hm
  | ok p =>
    rw [hm] at he
    cases he

theorem Stops.measuring {E' : MatchStop → Prop} (cur : Nat) (h : Stops P m E)
    (hfailed : E .failed → E' .failed)
    (hcut : ∀ words place, E (.cutOff words place) → E' (.cutOff (cur :: words) place)) :
    Stops P (measuring cur m) E' := by
  intro r e hr he
  rw [FakeLisp.measuring] at he
  cases hm : m r with
  | error e' =>
    rw [hm] at he
    have hE := h r e' hr hm
    cases e' with
    | failed =>
      cases he
      exact hfailed hE
    | cutOff words place =>
      cases he
      exact hcut words place hE
  | ok p =>
    rw [hm] at he
    cases he

end

namespace FklGrammerTerms

variable {g : FklGrammerTerms} {mem : Memory} {E : MatchStop → Prop} (hfailed : E .failed)

/-! Where a match stops that calls others. -/

section

include hfailed

theorem stops_rawStringMatch {P : MatchRun → Prop} (args : List (List UInt8)) (cstr restLen : Nat) :
    Stops P (rawStringMatch mem args cstr restLen) E := by
  cases args with
  | nil => exact stops_matchFailed hfailed
  | cons opening args =>
    simp only [rawStringMatch]
    split_ifs
    · exact Stops.pure _
    · exact Stops.pure _
    · exact (Stops.update _).andThen fun _ => Stops.pure _
    · split
      · exact Stops.pure _
      · exact (Stops.update _).andThen fun _ => Stops.pure _

/-- A builtin terminal that measures no words is not cut off. -/
theorem stops_builtin_noWords {P : MatchRun → Prop} {b : FklLalrBuiltinGrammerSym}
    (hb : ¬g.MeasuresWords b) (maxLen : Nat → Nat → Nat → MatchM Nat)
    (fuel start cstr restLen : Nat) :
    Stops P (builtinMatchFunc g mem maxLen fuel b start cstr restLen) E := by
  have hb' : g.builtinMatch b.t = .never ∨ g.builtinMatch b.t = .rawString := by
    unfold MeasuresWords at hb
    tauto
  rcases hb' with hb' | hb' <;> simp only [builtinMatchFunc, hb']
  · exact Stops.pure _
  · exact stops_rawStringMatch hfailed b.args cstr restLen

section

variable {P : MatchRun → Prop} {maxLen : Nat → Nat → Nat → MatchM Nat} {start cstr restLen : Nat}
  (hmax : ∀ k ≤ restLen, Stops P (maxLen start (cstr + k) (restLen - k)) E)

include hmax

omit hfailed in
theorem stops_wordMatch (test : Memory → Nat → Bool) :
    Stops P (wordMatch mem maxLen test start cstr restLen) E := by
  refine Stops.andThen (hmax 0 (Nat.zero_le _)) fun len => ?_
  split_ifs <;> exact Stops.pure _

omit hfailed in
theorem stops_numberMatch (test : Memory → Nat → Bool) :
    Stops P (numberMatch mem maxLen test start cstr restLen) E := by
  unfold numberMatch
  split_ifs
  · exact Stops.pure _
  · exact stops_wordMatch hmax test

theorem stops_sCharMatch (args : List (List UInt8)) :
    Stops P (sCharMatch mem maxLen args start cstr restLen) E := by
  unfold sCharMatch
  split
  · exact stops_matchFailed hfailed
  · split_ifs
    · exact Stops.pure _
    · exact Stops.pure _
    · exact (hmax _ (by omega)).andThen fun len => Stops.pure _

theorem stops_builtinMatchFunc (fuel : Nat) (b : FklLalrBuiltinGrammerSym)
    (hsymbol : ∀ opening ending,
      Stops P (symbolLoop mem maxLen opening ending start cstr restLen fuel 0) E) :
    Stops P (builtinMatchFunc g mem maxLen fuel b start cstr restLen) E := by
  unfold builtinMatchFunc
  split
  case h_6 => exact stops_wordMatch hmax _
  case h_7 => exact stops_wordMatch hmax _
  case h_13 => exact stops_sCharMatch hfailed hmax _
  case h_14 => exact Stops.pure _
  case h_15 =>
    unfold symbolMatch
    split
    · exact stops_wordMatch hmax _
    · exact hsymbol _ _
    · exact hsymbol _ _
  case h_16 => exact stops_rawStringMatch hfailed _ _ _
  all_goals exact stops_numberMatch hmax _

end

end

section

variable {Allowed : FklLalrBuiltinGrammerSym → Prop}
  {builtin : FklLalrBuiltinGrammerSym → Nat → Nat → Nat → MatchM (Option Nat)}
  (hbuiltin : ∀ b start cstr restLen, Allowed b →
    Stops (fun _ => True) (builtin b start cstr restLen) E)

include hbuiltin

theorem stops_ignoreMatch (start restLen : Nat) (ig : FklGrammerIgnore)
    (hig : ∀ b, .builtin b ∈ ig → Allowed b) (str matchLen : Nat) :
    Stops (fun _ => True) (ignoreMatch g mem builtin start restLen ig str matchLen) E := by
  induction ig generalizing str matchLen with
  | nil => exact Stops.pure _
  | cons s ig ih =>
    have htail : ∀ b, .builtin b ∈ ig → Allowed b := fun b hb => hig b (by simp [hb])
    cases s with
    | builtin b =>
      refine (hbuiltin b start str _ (hig b (by simp))).andThen fun o => ?_
      cases o with
      | none => exact Stops.pure _
      | some len => exact ih htail _ _
    | regex re =>
      simp only [ignoreMatch]
      split_ifs
      · exact (Stops.update _).andThen fun _ => Stops.pure _
      · exact ih htail _ _
    | string s =>
      simp only [ignoreMatch]
      split_ifs
      · exact ih htail _ _
      · exact Stops.pure _

theorem stops_ignoresMatch (start str restLen : Nat) (igs : List FklGrammerIgnore)
    (higs : ∀ ig ∈ igs, ∀ b, .builtin b ∈ ig → Allowed b) :
    Stops (fun _ => True) (ignoresMatch g mem builtin start str restLen igs) E := by
  induction igs with
  | nil => exact Stops.pure _
  | cons ig igs ih =>
    refine (stops_ignoreMatch hbuiltin start restLen ig (higs ig (by simp)) str 0).andThen
      fun o => ?_
    cases o with
    | none => exact ih fun ig hig => higs ig (by simp [hig])
    | some len => exact Stops.pure _

theorem stops_maxLenLoop (hall : ∀ ig ∈ g.ignores, ∀ b, .builtin b ∈ ig → Allowed b)
    (start n len cur : Nat) :
    Stops (fun _ => True) (maxLenLoop g mem builtin start n len cur) E := by
  induction n generalizing len cur with
  | zero => exact Stops.pure _
  | succ n ih =>
    refine (stops_ignoresMatch hbuiltin start cur (n + 1) g.ignores hall).withOwnFlag.andThen
      fun o => ?_
    split_ifs
    · exact Stops.pure _
    · exact Stops.pure _
    · exact ih (len + 1) (cur + 1)

end

theorem stops_partMatch {E : MatchStop → Prop} (hfailed : E .failed) {P : MatchRun → Prop}
    {fuel start cur rest : Nat} (part : FklCompPart) (hbuiltin : ∀ b, part = .builtin b →
      Stops P (g.builtinMatches mem fuel b start cur rest) E) :
    Stops P (g.partMatch mem fuel start cur rest part) E := by
  cases part with
  | string s =>
    simp only [partMatch]
    split_ifs
    · exact Stops.pure _
    · exact stops_matchFailed hfailed
  | regex re =>
    simp only [partMatch]
    split_ifs
    · exact stops_matchFailed hfailed
    · exact Stops.pure _
  | builtin b =>
    refine (hbuiltin b rfl).andThen fun o => ?_
    cases o with
    | none => exact stops_matchFailed hfailed
    | some len => exact Stops.pure _

/-- A terminal stops where what it calls does. -/
theorem stops_terminalMatch {E : MatchStop → Prop} (hfailed : E .failed) {P : MatchRun → Prop}
    {fuel start cstr restLen skip : Nat} (t : FklLalrItemLookAhead)
    (hmax : Stops P (g.getMaxNonTermLength mem fuel start (cstr + skip) (sizeSub restLen skip)) E)
    (hbuiltin : ∀ b, Stops P
      (g.builtinMatches mem fuel b start (cstr + skip) (sizeSub restLen skip)) E)
    (hignore : Stops P (g.matchIgnore mem fuel cstr restLen fuel 0) E)
    (hcomp : ∀ parts, Stops P
      (g.matchComp mem fuel start parts (cstr + skip) (sizeSub restLen skip) 0) E) :
    Stops P (g.terminalMatch mem fuel t start cstr restLen skip) E := by
  cases t with
  | none => exact stops_matchFailed hfailed
  | eof => exact Stops.pure _
  | string s => exact Stops.pure _
  | keyword s => exact hmax.andThen fun _ => Stops.pure _
  | builtin b => exact hbuiltin b
  | regex re =>
    simp only [terminalMatch]
    split_ifs
    · exact (Stops.update _).andThen fun _ => Stops.pure _
    · exact Stops.pure _
  | ignore => exact hignore.andThen fun _ => Stops.pure _
  | comp parts => exact hcomp parts

/-! The steps of a match. -/

/-- A match with the fuel `n` is cut off after `n` steps only. -/
abbrev LastsFor {β : Type} (n : Nat) (m : MatchM β) : Prop :=
  Stops (fun _ => True) m (MatchStop.Lasts n)

/-- Each round of `?symbol` goes on by a byte at least. -/
theorem lasts_symbolLoop {maxLen : Nat → Nat → Nat → MatchM Nat} {n start cstr restLen : Nat}
    (hmax : ∀ cur rest, LastsFor n (maxLen start cur rest)) (opening ending : List UInt8)
    (fuel matchLen : Nat) (hn : n ≤ fuel + matchLen) :
    LastsFor n (symbolLoop mem maxLen opening ending start cstr restLen fuel matchLen) := by
  induction fuel generalizing matchLen with
  | zero =>
    refine stops_matchCutOff ?_
    change n ≤ 0 + (cstr + matchLen)
    omega
  | succ fuel ih =>
    simp only [symbolLoop]
    split_ifs with hopen hquoted
    · exact (Stops.update _).andThen fun _ => Stops.pure _
    · exact ih _ (by omega)
    · refine (hmax _ _).andThen fun len => ?_
      split_ifs with hno hend hpos
      · exact Stops.pure _
      · exact Stops.pure _
      · exact Stops.pure _
      · -- the quote that follows is not at the place where none was found
        refine ih _ ?_
        have hlen : len ≠ 0 := by
          rintro rfl
          rw [Nat.add_zero] at hend
          simp [hopen] at hend
        omega

theorem lasts_builtinMatchFunc {maxLen : Nat → Nat → Nat → MatchM Nat} {n : Nat}
    (hmax : ∀ start cur rest, LastsFor n (maxLen start cur rest)) (b : FklLalrBuiltinGrammerSym)
    (start cstr restLen : Nat) :
    LastsFor n (builtinMatchFunc g mem maxLen n b start cstr restLen) :=
  stops_builtinMatchFunc (E := MatchStop.Lasts n) trivial (fun _ _ => hmax _ _ _) n b
    fun opening ending => lasts_symbolLoop (hmax start) opening ending n 0 (Nat.le_add_right _ _)

/-- A call for each step. -/
theorem lasts_getMax (fuel start cur rest : Nat) :
    LastsFor fuel (g.getMaxNonTermLength mem fuel start cur rest) := by
  induction fuel generalizing start cur rest with
  | zero => exact stops_matchCutOff (Nat.zero_le _)
  | succ fuel ih =>
    rw [getMaxNonTermLength]
    split_ifs
    · exact Stops.pure _
    · refine Stops.get.andThen fun r => ?_
      split_ifs
      · exact Stops.pure _
      · refine (Stops.update _).andThen fun _ => Stops.andThen ?_ fun len =>
          (Stops.update _).andThen fun _ => Stops.pure _
        have hloop := @stops_maxLenLoop g mem (MatchStop.Lasts fuel) (fun _ => True)
          (builtinMatchFunc g mem (g.getMaxNonTermLength mem fuel) fuel)
          (fun b start cstr restLen _ => lasts_builtinMatchFunc ih b start cstr restLen)
          (fun _ _ _ _ => trivial) start rest 0 cur
        refine hloop.measuring cur (fun _ => trivial) fun words place h => ?_
        change fuel ≤ words.length + place at h
        change fuel + 1 ≤ (cur :: words).length + place
        rw [List.length_cons]
        omega

theorem lasts_builtinMatches (fuel : Nat) (b : FklLalrBuiltinGrammerSym)
    (start cstr restLen : Nat) : LastsFor fuel (g.builtinMatches mem fuel b start cstr restLen) :=
  lasts_builtinMatchFunc (lasts_getMax fuel) b start cstr restLen

theorem lasts_ignoresMatch (fuel start str restLen : Nat) :
    LastsFor fuel (g.ignoresMatch mem (g.builtinMatches mem fuel) start str restLen g.ignores) :=
  @stops_ignoresMatch g mem (MatchStop.Lasts fuel) (fun _ => True) _
    (fun b start cstr restLen _ => lasts_builtinMatches fuel b start cstr restLen) start str restLen
    g.ignores fun _ _ _ _ => trivial

theorem lasts_matchComp (fuel start : Nat) (parts : List FklCompPart) (cur rest total : Nat) :
    LastsFor fuel (g.matchComp mem fuel start parts cur rest total) := by
  induction parts generalizing cur rest total with
  | nil => exact Stops.pure _
  | cons part parts ih =>
    cases part with
    | string s =>
      simp only [matchComp]
      split_ifs
      · exact ih _ _ _
      · exact Stops.pure _
    | regex re =>
      simp only [matchComp]
      split_ifs
      · exact (Stops.update _).andThen fun _ => Stops.pure _
      · exact ih _ _ _
    | builtin b =>
      refine (lasts_builtinMatches fuel b start cur rest).andThen fun o => ?_
      cases o with
      | none => exact Stops.pure _
      | some len => exact ih _ _ _

/-! The loop of `match_ignore`. -/

/-- A round of the loop, with the length that is matched so far. -/
inductive IgnoreRound (g : FklGrammerTerms) (mem : Memory) (fuel cstr restLen : Nat) :
    Nat × MatchRun → Nat × MatchRun → Prop
  | matched {retLen len : Nat} {r r' : MatchRun} (hlt : retLen < restLen)
    (hmatch : g.ignoresMatch mem (g.builtinMatches mem fuel) cstr (cstr + retLen)
      (restLen - retLen) g.ignores r = .ok (some len, r')) :
    IgnoreRound g mem fuel cstr restLen (retLen, r) (retLen + len, r')

abbrev IgnoreRounds (g : FklGrammerTerms) (mem : Memory) (fuel cstr restLen : Nat) :=
  Relation.ReflTransGen (IgnoreRound g mem fuel cstr restLen)

/-- None of the rounds matches an ignore rule without taking a byte. -/
def IgnoresMove (g : FklGrammerTerms) (mem : Memory) (fuel cstr restLen : Nat) (r : MatchRun) :
    Prop :=
  ∀ s t, IgnoreRounds g mem fuel cstr restLen (0, r) s → IgnoreRound g mem fuel cstr restLen s t →
    s.1 < t.1

theorem lasts_matchIgnore_from {n fuel cstr restLen retLen : Nat} {r r' : MatchRun}
    (hmoves : IgnoresMove g mem fuel cstr restLen r)
    (hreach : IgnoreRounds g mem fuel cstr restLen (0, r) (retLen, r'))
    (hn : fuel ≤ n + retLen) {stop : MatchStop}
    (h : g.matchIgnore mem fuel cstr restLen n retLen r' = .error stop) : stop.Lasts fuel := by
  induction n generalizing retLen r' with
  | zero =>
    rw [matchIgnore] at h
    split_ifs at h
    · cases h
      change fuel ≤ 0 + (cstr + retLen)
      omega
    · cases h
  | succ n ih =>
    rw [matchIgnore] at h
    split_ifs at h with hlt
    · rcases stateT_bind_eq_error.mp h with hstop | ⟨⟨o, r''⟩, hmatch, h⟩
      · exact lasts_ignoresMatch fuel _ _ _ r' stop trivial hstop
      · cases o with
        | none => cases h
        | some len =>
          have hround : IgnoreRound g mem fuel cstr restLen (retLen, r') (retLen + len, r'') :=
            .matched hlt hmatch
          have hmove : retLen < retLen + len := hmoves _ _ hreach hround
          exact ih (hreach.tail hround) (by omega) h
    · cases h

theorem lasts_matchIgnore {fuel cstr restLen : Nat}
    (hmoves : ∀ r, IgnoresMove g mem fuel cstr restLen r) :
    LastsFor fuel (g.matchIgnore mem fuel cstr restLen fuel 0) :=
  fun r _ _ h => lasts_matchIgnore_from (hmoves r) .refl (Nat.le_add_right _ _) h

/-! A round of the parser. -/

section

variable {fuel cstr restLen : Nat} (hmoves : ∀ r, IgnoresMove g mem fuel cstr restLen r)

include hmoves

theorem lasts_terminalMatch (t : FklLalrItemLookAhead) (start skip : Nat) :
    LastsFor fuel (g.terminalMatch mem fuel t start cstr restLen skip) :=
  stops_terminalMatch (E := MatchStop.Lasts fuel) trivial t (lasts_getMax fuel _ _ _)
    (fun b => lasts_builtinMatches fuel b _ _ _) (lasts_matchIgnore hmoves)
    fun parts => lasts_matchComp fuel start parts _ _ 0

theorem lasts_isStateActionMatch (m : FklAnalysisStateActionMatch) (start : Nat)
    (args : FklStateActionMatchArgs) :
    LastsFor fuel (g.fklIsStateActionMatch mem fuel m start cstr restLen args) := by
  simp only [fklIsStateActionMatch]
  refine (lasts_terminalMatch hmoves m.t start 0).andThen fun o => ?_
  cases o with
  | some len => exact Stops.pure _
  | none =>
    refine Stops.get.andThen fun r => ?_
    -- the second attempt, after ignored text
    have hsecond : ∀ (n : Int) (k : Option Nat → MatchM (Bool × FklStateActionMatchArgs))
        (o : Bool × FklStateActionMatchArgs), (∀ o, LastsFor fuel (k o)) →
        LastsFor fuel (if n > 0 then
          g.terminalMatch mem fuel m.t start cstr restLen n.toNat >>= k else pure o) := by
      intro n k o hk
      split_ifs
      · exact (lasts_terminalMatch hmoves m.t start _).andThen hk
      · exact Stops.pure _
    split_ifs
    · exact Stops.pure _
    · rw [map_eq_pure_bind]
      refine Stops.andThen ((lasts_matchIgnore hmoves).andThen fun _ => Stops.pure _) fun n => ?_
      exact hsecond n _ _ fun o => by cases o <;> exact Stops.pure _
    · exact hsecond args.ignoreLen _ _ fun o => by cases o <;> exact Stops.pure _

theorem lasts_findAction (start : Nat) (actions : List FklAnalysisStateAction)
    (args : FklStateActionMatchArgs) :
    LastsFor fuel (g.findAction mem fuel start cstr restLen actions args) := by
  induction actions generalizing args with
  | nil => exact Stops.pure _
  | cons a actions ih =>
    refine (lasts_isStateActionMatch hmoves a.m start args).andThen fun o => ?_
    obtain ⟨found, args'⟩ := o
    cases found with
    | true => exact Stops.pure _
    | false => exact ih args'

end

theorem lasts_emplace (fuel : Nat) (cb : FklParseCallbacks σ α)
    (symbols : List (FklAnalysisSymbol α)) (t : FklLalrItemLookAhead) (start cur rest : Nat)
    (startWithIgnore : Bool) (line : Nat) (outer : σ) :
    LastsFor fuel (g.fklEmplaceAnalysisSymbol mem fuel cb symbols t start cur rest startWithIgnore
      line outer) := by
  have hparts : ∀ (parts : List FklCompPart) cur rest startWithIgnore line' symbols outer,
      LastsFor fuel (g.emplaceParts mem fuel cb line start parts cur rest startWithIgnore line'
        symbols outer) := by
    intro parts
    induction parts with
    | nil =>
      intros
      exact Stops.pure _
    | cons part parts ih =>
      intros
      exact (stops_partMatch (E := MatchStop.Lasts fuel) trivial part
        fun b _ => lasts_builtinMatches fuel b start _ _).andThen fun len => ih _ _ _ _ _ _
  cases t with
  | comp parts => exact hparts parts _ _ _ _ _ _
  | _ => exact Stops.pure _

/-- Why a round stops: for a match of its action, or for the second match of a composite one. -/
theorem parseRound_stop {E : MatchStop → Prop} (hfailed : E .failed) {fuel : Nat}
    {table : FklAnalysisTable} {cb : FklParseCallbacks σ α} {start : Nat} {p : FklParser σ α}
    {stop : MatchStop} (h : g.parseRound mem fuel table cb start p = .error stop)
    (hfind : ∀ actions, Stops (fun r => r.ctx = p.ctx)
      (g.findAction mem fuel start p.cstr p.restLen actions .init) E)
    (hemplace : ∀ a args r, RoundFinds g mem fuel table start p a args r → a.action.Takes →
      Stops (fun s => s.ctx = r.ctx) (g.fklEmplaceAnalysisSymbol mem fuel cb p.symbolStack a.m.t
        start (p.cstr + args.skipIgnoreLen) args.matchLen (0 < args.skipIgnoreLen) p.line p.outer)
        E) : E stop := by
  rw [parseRound] at h
  rcases except_bind_eq_error.mp h with h | ⟨top, htop, h⟩
  · exact orFailed_eq_error h ▸ hfailed
  rcases except_bind_eq_error.mp h with h | ⟨state, hstate, h⟩
  · exact orFailed_eq_error h ▸ hfailed
  rw [orFailed_eq_ok] at htop hstate
  rcases except_bind_eq_error.mp h with h | ⟨⟨⟨action, args⟩, r⟩, hfound, h⟩
  · exact hfind _ _ _ rfl h
  cases action with
  | none => cases h
  | some a =>
    cases ha : a.action with
    | ignore =>
      simp only [ha] at h
      cases h
    | accept =>
      simp only [ha] at h
      exact orFailed_eq_error h ▸ hfailed
    | reduce prod len =>
      simp only [ha] at h
      exact orFailed_eq_error h ▸ hfailed
    | shift s =>
      simp only [ha] at h
      rcases except_bind_eq_error.mp h with h | ⟨_, _, h⟩
      · have htakes : a.action.Takes := by
          rw [ha]
          trivial
        exact hemplace a args r ⟨top, state, htop, hstate, hfound⟩ htakes ⟨r.ctx, false⟩ _ rfl h
      · cases h

theorem lasts_parseRound {fuel : Nat} {table : FklAnalysisTable} {cb : FklParseCallbacks σ α}
    {start : Nat} {p : FklParser σ α} {stop : MatchStop}
    (hmoves : ∀ r, IgnoresMove g mem fuel p.cstr p.restLen r)
    (h : g.parseRound mem fuel table cb start p = .error stop) : stop.Lasts fuel :=
  parseRound_stop trivial h
    (fun actions => (lasts_findAction hmoves start actions .init).mapPre fun _ _ => trivial)
    fun _ _ _ _ _ => (lasts_emplace fuel cb _ _ _ _ _ _ _ _).mapPre fun _ _ => trivial

/-- Parts that measure no words are not cut off. -/
theorem stops_emplaceParts_noWords {E : MatchStop → Prop} (hfailed : E .failed) (fuel : Nat)
    (cb : FklParseCallbacks σ α) (ctxLine : Nat) (parts : List FklCompPart)
    (hparts : ¬g.CompWords parts) (cur rest : Nat) (startWithIgnore : Bool) (line : Nat)
    (symbols : List (FklAnalysisSymbol α)) (outer : σ) {start : Nat} :
    Stops (fun _ => True)
      (g.emplaceParts mem fuel cb ctxLine start parts cur rest startWithIgnore line symbols outer)
      E := by
  induction parts generalizing cur rest startWithIgnore line symbols outer with
  | nil => exact Stops.pure _
  | cons part parts ih =>
    have htail : ¬g.CompWords parts := fun ⟨b, hb, hw⟩ => hparts ⟨b, by simp [hb], hw⟩
    refine (stops_partMatch hfailed part fun b hpart => ?_).andThen
      fun len => ih htail _ _ _ _ _ _
    have hb : ¬g.MeasuresWords b := fun hw => hparts ⟨b, by simp [hpart], hw⟩
    exact stops_builtin_noWords hfailed hb _ fuel start cur rest

/-! In the buffer. Nothing in the ignore rules measures words, so that no two are measured at a
time. -/

theorem apart_cutOff {fin place : Nat} (h : place ≤ fin) : MatchStop.Apart fin (.cutOff [] place) := by
  refine ⟨List.nodup_nil, fun c hc => ?_⟩
  rw [List.mem_singleton.mp hc]
  exact h

theorem apart_mono {fin fin' : Nat} (hle : fin ≤ fin') {stop : MatchStop} (h : stop.Apart fin) :
    stop.Apart fin' := by
  cases stop with
  | failed => trivial
  | cutOff words place => exact ⟨h.1, fun c hc => (h.2 c hc).trans hle⟩

section

variable (hok : g.NoWords)

include hok

theorem failed_ignoresMatch (fuel start str restLen : Nat) :
    Stops (fun _ => True)
      (g.ignoresMatch mem (g.builtinMatches mem fuel) start str restLen g.ignores)
      fun stop => stop = .failed :=
  @stops_ignoresMatch g mem (fun stop => stop = .failed) (fun b => ¬g.MeasuresWords b) _
    (fun _ start cstr restLen hb => stops_builtin_noWords (E := fun stop => stop = .failed) rfl hb
      (g.getMaxNonTermLength mem fuel) fuel start cstr restLen) start str restLen g.ignores hok

theorem apart_matchIgnore {fin cstr restLen : Nat} (hcstr : cstr + restLen = fin)
    (fuel n retLen : Nat) :
    Stops (fun _ => True) (g.matchIgnore mem fuel cstr restLen n retLen) (MatchStop.Apart fin) := by
  induction n generalizing retLen with
  | zero =>
    rw [matchIgnore]
    split_ifs
    · exact stops_matchCutOff (apart_cutOff (by omega))
    · exact Stops.pure _
  | succ n ih =>
    rw [matchIgnore]
    split_ifs
    · refine Stops.andThen (fun r stop hr h => ?_) fun o => ?_
      · rw [failed_ignoresMatch hok fuel cstr (cstr + retLen) (restLen - retLen) r stop hr h]
        trivial
      · cases o with
        | none => exact Stops.pure _
        | some len => exact ih _
    · exact Stops.pure _

theorem apart_getMax {fin : Nat} {P : MatchRun → Prop} (fuel : Nat) {start cur rest : Nat}
    (hcur : cur + rest = fin) :
    Stops P (g.getMaxNonTermLength mem fuel start cur rest) (MatchStop.Apart fin) := by
  cases fuel with
  | zero => exact stops_matchCutOff (apart_cutOff (by omega))
  | succ fuel =>
    rw [getMaxNonTermLength]
    split_ifs
    · exact Stops.pure _
    · refine Stops.get.andThen fun r => ?_
      split_ifs
      · exact Stops.pure _
      · refine (Stops.update _).andThen fun _ => Stops.andThen ?_ fun len =>
          (Stops.update _).andThen fun _ => Stops.pure _
        have hloop := @stops_maxLenLoop g mem (fun stop => stop = .failed)
          (fun b => ¬g.MeasuresWords b)
          (builtinMatchFunc g mem (g.getMaxNonTermLength mem fuel) fuel)
          (fun _ start cstr restLen hb => stops_builtin_noWords (E := fun stop => stop = .failed) rfl
            hb (g.getMaxNonTermLength mem fuel) fuel start cstr restLen) hok start rest 0 cur
        exact hloop.measuring cur (fun _ => trivial) fun words place h => by cases h

variable {fin : Nat} (hfin : fin < 2 ^ 64) {start : Nat}

include hfin

theorem apart_symbolLoop (maxFuel : Nat) (opening ending : List UInt8) {cur rest : Nat}
    (hcur : cur + rest = fin) (fuel matchLen : Nat) (hle : matchLen ≤ rest) :
    Stops (fun r => CacheOk start fin r.ctx)
      (symbolLoop mem (g.getMaxNonTermLength mem maxFuel) opening ending start cur rest fuel
        matchLen) (MatchStop.Apart fin) := by
  induction fuel generalizing matchLen with
  | zero => exact stops_matchCutOff (apart_cutOff (by omega))
  | succ fuel ih =>
    have hsub := sizeSub_eq hle (by omega)
    simp only [symbolLoop]
    split_ifs with hopen hquoted
    · exact (Stops.update _).andThen fun _ => Stops.pure _
    · have hlen := length_le_of_charBufMatch hopen
      rw [hsub] at hlen
      have hq := quotedCharBufMatch_le mem (cur + (matchLen + opening.length))
        (sizeSub rest (matchLen + opening.length)) ending
      rw [sizeSub_eq (by omega : matchLen + opening.length ≤ rest) (by omega)] at hq ⊢
      exact ih _ (by omega)
    · rw [hsub]
      refine (apart_getMax hok maxFuel (by omega)).bind
        (triple_getMax hok maxFuel (by omega : cur + matchLen + (rest - matchLen) = fin))
        fun len => ?_
      refine Stops.fact (fun _ h => h.2.1) fun hlen => ?_
      split_ifs
      · exact Stops.pure _
      · exact Stops.pure _
      · exact Stops.pure _
      · exact (ih _ (by omega)).mapPre fun _ h => h.1

theorem apart_builtinMatches (fuel : Nat) (b : FklLalrBuiltinGrammerSym) {cur rest : Nat}
    (hcur : cur + rest = fin) :
    Stops (fun r => CacheOk start fin r.ctx) (g.builtinMatches mem fuel b start cur rest)
      (MatchStop.Apart fin) := by
  refine stops_builtinMatchFunc trivial (fun k hk => apart_getMax hok fuel (by omega)) fuel b ?_
  exact fun opening ending =>
    apart_symbolLoop hok hfin fuel opening ending hcur fuel 0 (Nat.zero_le _)

theorem apart_matchComp (fuel : Nat) (parts : List FklCompPart) {cur rest : Nat}
    (hcur : cur + rest = fin) (total : Nat) :
    Stops (fun r => CacheOk start fin r.ctx) (g.matchComp mem fuel start parts cur rest total)
      (MatchStop.Apart fin) := by
  induction parts generalizing cur rest total with
  | nil => exact Stops.pure _
  | cons s parts ih =>
    cases s with
    | string s =>
      simp only [matchComp]
      split_ifs with hm
      · have hlen := length_le_of_charBufMatch hm
        rw [sizeSub_eq hlen (by omega)]
        exact ih (by omega) _
      · exact Stops.pure _
    | regex re =>
      simp only [matchComp]
      split_ifs
      · exact (Stops.update _).andThen fun _ => Stops.pure _
      · rw [sizeSub_eq (by omega) (by omega)]
        exact ih (by omega) _
    | builtin b =>
      refine Stops.ofState fun t ht => ?_
      refine ((apart_builtinMatches hok hfin fuel b hcur).mapPre fun r hr => hr ▸ ht).bind
        ((triple_builtinMatches hok hfin fuel b ht hcur).mapPre fun r hr => by rw [hr]) fun o => ?_
      cases o with
      | none => exact Stops.pure _
      | some len =>
        refine Stops.fact (fun r hr => (hr.2 len rfl).1) fun hlen => ?_
        simp only [sizeSub_eq hlen (by omega : rest < 2 ^ 64)]
        exact (ih (by omega) _).mapPre fun r hr => hr.1

theorem apart_emplaceParts (fuel : Nat) (cb : FklParseCallbacks σ α) (ctxLine : Nat)
    (parts : List FklCompPart) {cur rest : Nat} (hcur : cur + rest = fin) (startWithIgnore : Bool)
    (line : Nat) (symbols : List (FklAnalysisSymbol α)) (outer : σ) :
    Stops (fun r => CacheOk start fin r.ctx)
      (g.emplaceParts mem fuel cb ctxLine start parts cur rest startWithIgnore line symbols outer)
      (MatchStop.Apart fin) := by
  induction parts generalizing cur rest startWithIgnore line symbols outer with
  | nil => exact Stops.pure _
  | cons part parts ih =>
    refine Stops.ofState fun t ht => ?_
    have hpart : Stops (fun r => r = t) (g.partMatch mem fuel start cur rest part)
        (MatchStop.Apart fin) :=
      stops_partMatch (E := MatchStop.Apart fin) trivial part
        fun b _ => (apart_builtinMatches hok hfin fuel b hcur).mapPre fun r hr => hr ▸ ht
    refine hpart.bind
      ((triple_partMatch hok hfin part ht hcur).mapPre fun r hr => by rw [hr]) fun len => ?_
    refine Stops.fact (fun r hr => hr.2) fun hlen => ?_
    rw [sizeSub_eq hlen (by omega)]
    exact (ih (by omega) _ _ _ _).mapPre fun r hr => hr.1

end

section

variable {lo fin : Nat} (hok : IgnoresOk g mem lo fin) (hfin : fin < 2 ^ 64) {start : Nat}

include hok hfin

theorem apart_terminalMatch (fuel : Nat) (t : FklLalrItemLookAhead) {cstr restLen skip : Nat}
    (hcstr : cstr + restLen = fin) (hskip : skip ≤ restLen) :
    Stops (fun r => CacheOk start fin r.ctx) (g.terminalMatch mem fuel t start cstr restLen skip)
      (MatchStop.Apart fin) := by
  have hsub : sizeSub restLen skip = restLen - skip := sizeSub_eq hskip (by omega)
  have hcur : cstr + skip + sizeSub restLen skip = fin := by omega
  exact stops_terminalMatch (E := MatchStop.Apart fin) trivial t
    (apart_getMax hok.no_words fuel hcur)
    (fun b => apart_builtinMatches hok.no_words hfin fuel b hcur)
    ((apart_matchIgnore hok.no_words hcstr fuel fuel 0).mapPre fun _ _ => trivial)
    fun parts => apart_matchComp hok.no_words hfin fuel parts hcur 0

theorem apart_isStateActionMatch (fuel : Nat) (m : FklAnalysisStateActionMatch)
    {cstr restLen : Nat} (hlo : lo ≤ cstr) (hcstr : cstr + restLen = fin)
    (args : FklStateActionMatchArgs) (hargs : args.ignoreLen ≤ restLen) :
    Stops (fun r => CacheOk start fin r.ctx)
      (g.fklIsStateActionMatch mem fuel m start cstr restLen args) (MatchStop.Apart fin) := by
  by_cases heof : m.t = .eof
  · simp only [fklIsStateActionMatch, heof, terminalMatch, pure_bind]
    exact Stops.pure _
  -- the second attempt, after ignored text
  have hsecond : ∀ (n : Int) (k : Option Nat → MatchM (Bool × FklStateActionMatchArgs))
      (o : Bool × FklStateActionMatchArgs), n ≤ restLen →
      (∀ o, Stops (fun _ => True) (k o) (MatchStop.Apart fin)) →
      Stops (fun r => CacheOk start fin r.ctx) (if n > 0 then
        g.terminalMatch mem fuel m.t start cstr restLen n.toNat >>= k else pure o)
        (MatchStop.Apart fin) := by
    intro n k o hn hk
    split_ifs
    · exact (apart_terminalMatch hok hfin fuel m.t hcstr (by omega)).andThen hk
    · exact Stops.pure _
  simp only [fklIsStateActionMatch]
  refine (apart_terminalMatch hok hfin fuel m.t hcstr (Nat.zero_le _)).bind
    (triple_terminalMatch hok hfin fuel heof hlo hcstr (Nat.zero_le _) fun _ => rfl) fun o => ?_
  cases o with
  | some len => exact Stops.pure _
  | none =>
    refine Stops.bind Stops.get Triple.get fun r => ?_
    split_ifs
    · exact Stops.pure _
    · rw [map_eq_pure_bind]
      refine Stops.ofState fun t ht => ?_
      have hrest : restLen < 2 ^ 64 := by omega
      refine Stops.bind (Q := fun (n : Int) (r : MatchRun) => r.ctx = t.ctx ∧ n ≤ restLen) ?_ ?_ fun n => ?_
      · exact ((apart_matchIgnore hok.no_words hcstr fuel fuel 0).mapPre
          fun _ _ => trivial).andThen fun _ => Stops.pure _
      · rw [← map_eq_pure_bind]
        exact (triple_mapIgnore hok fuel hlo hcstr hrest).mapPre fun s hs => by rw [hs]
      · refine Stops.fact (fun r hr => hr.2) fun hn => ?_
        refine (hsecond n _ _ hn fun o => ?_).mapPre fun s hs => hs.1 ▸ ht.2.1
        cases o <;> exact Stops.pure _
    · refine (hsecond args.ignoreLen _ _ hargs fun o => ?_).mapPre fun s hs => hs.2.1
      cases o <;> exact Stops.pure _

theorem apart_findAction (fuel : Nat) {cstr restLen : Nat} (hlo : lo ≤ cstr)
    (hcstr : cstr + restLen = fin) (actions : List FklAnalysisStateAction)
    (args : FklStateActionMatchArgs) (hargs : args.ignoreLen ≤ restLen) :
    Stops (fun r => CacheOk start fin r.ctx)
      (g.findAction mem fuel start cstr restLen actions args) (MatchStop.Apart fin) := by
  induction actions generalizing args with
  | nil => exact Stops.pure _
  | cons a actions ih =>
    refine (apart_isStateActionMatch hok hfin fuel a.m hlo hcstr args hargs).bind
      (triple_isStateActionMatch hok hfin fuel a.m hlo hcstr args hargs) fun o => ?_
    obtain ⟨found, args'⟩ := o
    cases found with
    | true => exact Stops.pure _
    | false =>
      refine Stops.fact (fun r hr => hr.2.1) fun hargs' => ?_
      exact (ih args' hargs').mapPre fun r hr => hr.1

/-- In a buffer that no match leaves every round that stops does so with one word at most. -/
theorem apart_parseRound {fuel : Nat} {table : FklAnalysisTable} {cb : FklParseCallbacks σ α}
    {p : FklParser σ α} (hp : ParserOk start lo fin p) {stop : MatchStop}
    (h : g.parseRound mem fuel table cb start p = .error stop) : stop.Apart fin := by
  have hinit : FklStateActionMatchArgs.init.ignoreLen ≤ p.restLen := by
    have : FklStateActionMatchArgs.init.ignoreLen = -2 := rfl
    omega
  refine parseRound_stop trivial h (fun actions => ?_) fun a args r hfind htakes => ?_
  · exact (apart_findAction hok hfin fuel hp.lo_le hp.rest actions .init hinit).mapPre
      fun r hr => hr ▸ hp.cache
  · obtain ⟨hcache, -, htaken⟩ := hfind.within hok hfin hp
    obtain ⟨hle, hcomp⟩ := htaken rfl (not_eof_of_takes htakes)
    have hend : p.cstr + args.skipIgnoreLen + args.matchLen ≤ fin := by
      have hrest := hp.rest
      simp only at hle
      omega
    cases ht : a.m.t with
    | comp parts =>
      rcases hcomp parts ht with hword | hwords
      · intro s stop hs he
        refine apart_mono hend (apart_emplaceParts hok.no_words (by omega) fuel cb p.line parts rfl
          (0 < args.skipIgnoreLen) p.line p.symbolStack p.outer s stop ?_ he)
        simp only [hs]
        exact hword
      · intro s stop _ he
        rw [stops_emplaceParts_noWords (E := fun stop => stop = .failed) rfl fuel cb p.line parts
          hwords _ _ _ _ _ _ s stop trivial he]
        trivial
    | _ => exact Stops.pure _

end

end FklGrammerTerms

end FakeLisp
