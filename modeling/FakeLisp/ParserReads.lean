import FakeLisp.ParserBound

/-! How the text that the parser has read falls into ignored stretches and tokens. -/

namespace FakeLisp

namespace FklGrammerTerms

variable (g : FklGrammerTerms) (mem : Memory) (fuel : Nat)

/-- Text that ignore rules match, one after the other. -/
inductive Ignored (cstr : Nat) : Nat → Prop
  | nil : Ignored cstr 0
  | snoc {n len restLen : Nat} {ig : FklGrammerIgnore} {r r' : MatchRun} (h : Ignored cstr n)
    (hig : ig ∈ g.ignores) (hmatch : g.ignoreMatch mem (g.builtinMatches mem fuel) cstr restLen ig
      (cstr + n) 0 r = .ok (some len, r')) : Ignored cstr (n + len)

/-- What is skipped before a terminal; its length has been a signed one. -/
def Skipped (cstr n : Nat) : Prop := n = 0 ∨ ∃ len, g.Ignored mem fuel cstr len ∧ toSSize len = n

/-- The terminal matches so many bytes at the place. -/
def Token (t : FklLalrItemLookAhead) (place len : Nat) : Prop :=
  ∃ start cstr restLen skip r r', place = cstr + skip ∧
    g.terminalMatch mem fuel t start cstr restLen skip r = .ok (some len, r')

/-- What has been read between two places. -/
inductive ReadsAs (cstr : Nat) : List FklParseEvent → Nat → Prop
  | nil : ReadsAs cstr [] cstr
  | ignore {evs : List FklParseEvent} {c : Nat} {m : FklAnalysisStateActionMatch}
    {args : FklStateActionMatchArgs} (h : ReadsAs cstr evs c) (hm : m.t = .ignore)
    (hskip : args.skipIgnoreLen = 0) (hig : g.Ignored mem fuel c args.matchLen) :
    ReadsAs cstr (evs ++ [.ignore m args]) (c + args.matchLen)
  | shift {evs : List FklParseEvent} {c : Nat} {m : FklAnalysisStateActionMatch}
    {args : FklStateActionMatchArgs} (h : ReadsAs cstr evs c)
    (hskip : g.Skipped mem fuel c args.skipIgnoreLen)
    (htoken : g.Token mem fuel m.t (c + args.skipIgnoreLen) args.matchLen) :
    ReadsAs cstr (evs ++ [.shift m args]) (c + args.skipIgnoreLen + args.matchLen)
  | reduce {evs : List FklParseEvent} {c : Nat} {prod : FklGrammerProduction} {len : Nat}
    (h : ReadsAs cstr evs c) : ReadsAs cstr (evs ++ [.reduce prod len]) c

variable {g} {mem} {fuel}

theorem triple_ignoresMatch_mem {cstr str restLen : Nat} (igs : List FklGrammerIgnore) :
    Triple (fun _ => True)
      (g.ignoresMatch mem (g.builtinMatches mem fuel) cstr str restLen igs) fun o _ =>
        ∀ len, o = some len → ∃ ig ∈ igs, ∃ r r', g.ignoreMatch mem (g.builtinMatches mem fuel)
          cstr restLen ig str 0 r = .ok (some len, r') := by
  induction igs with
  | nil => exact Triple.ret _ (by simp)
  | cons ig igs ih =>
    have hmatch : Triple (fun _ => True)
        (g.ignoreMatch mem (g.builtinMatches mem fuel) cstr restLen ig str 0) fun _ _ => True :=
      fun _ _ _ _ _ => trivial
    refine hmatch.ran.bind fun o => ?_
    cases o with
    | some len =>
      refine Triple.ret _ fun r ⟨_, t, t', ht⟩ n hn => ?_
      obtain rfl := Option.some.inj hn
      exact ⟨ig, List.mem_cons_self, t, t', ht⟩
    | none =>
      refine (ih.mapPre fun _ _ => trivial).mapPost fun o _ h len hlen => ?_
      obtain ⟨ig', hig', h⟩ := h len hlen
      exact ⟨ig', List.mem_cons_of_mem _ hig', h⟩

theorem triple_matchIgnore_ignored {cstr restLen : Nat} (n : Nat) {retLen : Nat}
    (hret : g.Ignored mem fuel cstr retLen) :
    Triple (fun _ => True) (g.matchIgnore mem fuel cstr restLen n retLen)
      fun len _ => g.Ignored mem fuel cstr len := by
  induction n generalizing retLen with
  | zero =>
    rw [matchIgnore]
    split_ifs
    · exact triple_matchCutOff _
    · exact Triple.ret _ fun _ _ => hret
  | succ n ih =>
    rw [matchIgnore]
    split_ifs with hlt
    · refine (triple_ignoresMatch_mem g.ignores).bind fun o => ?_
      cases o with
      | none => exact Triple.ret _ fun _ _ => hret
      | some len =>
        refine Triple.fact (fun _ h => h len rfl) fun hig => ?_
        obtain ⟨ig, hmem, r, r', hmatch⟩ := hig
        exact (ih (.snoc hret hmem hmatch)).mapPre fun _ _ => trivial
    · exact Triple.ret _ fun _ _ => hret

/-- A terminal that is taken, with the text before it. -/
structure Matched (g : FklGrammerTerms) (mem : Memory) (fuel : Nat)
    (m : FklAnalysisStateActionMatch) (cstr : Nat) (args : FklStateActionMatchArgs) : Prop where
  skipped : g.Skipped mem fuel cstr args.skipIgnoreLen
  token : g.Token mem fuel m.t (cstr + args.skipIgnoreLen) args.matchLen
  ignored : m.t = .ignore → args.skipIgnoreLen = 0 ∧ g.Ignored mem fuel cstr args.matchLen

/-- The ignored text that is remembered is there. -/
def IgnoreKnown (g : FklGrammerTerms) (mem : Memory) (fuel cstr : Nat)
    (args : FklStateActionMatchArgs) : Prop :=
  0 < args.ignoreLen → ∃ len, g.Ignored mem fuel cstr len ∧ toSSize len = args.ignoreLen

theorem triple_terminalMatch_ran {t : FklLalrItemLookAhead} {start cstr restLen skip : Nat} :
    Triple (fun _ => True) (g.terminalMatch mem fuel t start cstr restLen skip) fun o _ =>
      ∀ len, o = some len → g.Token mem fuel t (cstr + skip) len ∧
        (t = .ignore → g.Ignored mem fuel cstr len) := by
  have hall : Triple (fun _ => True) (g.terminalMatch mem fuel t start cstr restLen skip)
      fun o _ => ∀ len, o = some len → t = .ignore → g.Ignored mem fuel cstr len := by
    by_cases ht : t = .ignore
    · subst ht
      unfold terminalMatch
      refine (triple_matchIgnore_ignored fuel .nil).bind fun len => ?_
      refine Triple.ret _ fun _ hlen n hn _ => ?_
      split_ifs at hn
      obtain rfl := Option.some.inj hn
      exact hlen
    · exact fun _ _ _ _ _ _ _ h => absurd h ht
  refine hall.ran.mapPost fun o _ ⟨h, r, r', hrun⟩ len hlen => ?_
  subst hlen
  exact ⟨⟨start, cstr, restLen, skip, r, r', rfl, hrun⟩, h len rfl⟩

theorem triple_isStateActionMatch_matched {m : FklAnalysisStateActionMatch}
    {start cstr restLen : Nat} {args : FklStateActionMatchArgs}
    (hargs : IgnoreKnown g mem fuel cstr args) :
    Triple (fun _ => True) (g.fklIsStateActionMatch mem fuel m start cstr restLen args)
      fun o _ => IgnoreKnown g mem fuel cstr o.2 ∧
        (o.1 = true → Matched g mem fuel m cstr o.2) := by
  have hfalse : ∀ args : FklStateActionMatchArgs, IgnoreKnown g mem fuel cstr args →
      Triple (fun _ => True) (pure (false, args) : MatchM (Bool × FklStateActionMatchArgs))
        fun o _ => IgnoreKnown g mem fuel cstr o.2 ∧
          (o.1 = true → Matched g mem fuel m cstr o.2) :=
    fun args hargs => Triple.ret _ fun _ _ => ⟨hargs, by simp⟩
  -- the second attempt, after ignored text
  have hsecond : ∀ n : Int, (0 < n → ∃ len, g.Ignored mem fuel cstr len ∧ toSSize len = n) →
      m.t ≠ .ignore → ∀ k : Option Nat → MatchM (Bool × FklStateActionMatchArgs),
        (∀ len, k (some len) = pure (true, ⟨len, n.toNat, n⟩)) →
        k none = pure (false, ⟨args.matchLen, n.toNat, n⟩) →
        Triple (fun _ => True)
          (if n > 0 then g.terminalMatch mem fuel m.t start cstr restLen n.toNat >>= k
          else pure (false, ⟨args.matchLen, 0, n⟩))
          fun o _ => IgnoreKnown g mem fuel cstr o.2 ∧
            (o.1 = true → Matched g mem fuel m cstr o.2) := by
    intro n hn hignore k hsome hnone
    split_ifs with hpos
    · refine triple_terminalMatch_ran.bind fun o => ?_
      cases o with
      | some len =>
        rw [hsome]
        refine Triple.ret _ fun _ h => ⟨hn, fun _ => ⟨Or.inr ?_, (h len rfl).1, ?_⟩⟩
        · obtain ⟨len', hig, hlen⟩ := hn hpos
          exact ⟨len', hig, by simp only [hlen]; omega⟩
        · exact fun h => absurd h hignore
      | none =>
        rw [hnone]
        exact (hfalse ⟨args.matchLen, n.toNat, n⟩ hn).mapPre fun _ _ => trivial
    · exact hfalse ⟨args.matchLen, 0, n⟩ hn
  simp only [fklIsStateActionMatch]
  refine triple_terminalMatch_ran.bind fun o => ?_
  cases o with
  | some len =>
    refine Triple.ret _ fun _ h => ⟨hargs, fun _ => ⟨Or.inl rfl, (h len rfl).1, fun hm => ?_⟩⟩
    exact ⟨rfl, (h len rfl).2 hm⟩
  | none =>
    refine Triple.get.bind fun r => ?_
    split_ifs with hstop hign
    · exact (hfalse { args with skipIgnoreLen := 0 } hargs).mapPre fun _ _ => trivial
    · have hmap : Triple (fun _ => True) (toSSize <$> g.matchIgnore mem fuel cstr restLen fuel 0)
          fun n _ => 0 < n → ∃ len, g.Ignored mem fuel cstr len ∧ toSSize len = n := by
        rw [map_eq_pure_bind]
        refine (triple_matchIgnore_ignored fuel .nil).bind fun len => ?_
        exact Triple.ret _ fun _ h _ => ⟨len, h, rfl⟩
      refine (hmap.mapPre fun _ _ => trivial).bind fun n => ?_
      refine Triple.fact (fun _ h => h) fun hn => ?_
      refine (hsecond n hn (fun h => ?_) _ (fun _ => rfl) rfl).mapPre fun _ _ => trivial
      simp [m.ignore_eq h] at hstop
    · refine (hsecond args.ignoreLen hargs (fun h => ?_) _ (fun _ => rfl) rfl).mapPre
        fun _ _ => trivial
      simp [m.ignore_eq h] at hstop

/-- The first action that matches is one of them, and it is matched there. -/
theorem triple_findAction_matched {start cstr restLen : Nat}
    (actions : List FklAnalysisStateAction) {args : FklStateActionMatchArgs}
    (hargs : IgnoreKnown g mem fuel cstr args) :
    Triple (fun _ => True) (g.findAction mem fuel start cstr restLen actions args) fun o _ =>
      ∀ a, o.1 = some a → a ∈ actions ∧ Matched g mem fuel a.m cstr o.2 := by
  induction actions generalizing args with
  | nil => exact Triple.ret _ (by simp)
  | cons a as ih =>
    refine (triple_isStateActionMatch_matched hargs).bind fun ⟨found, args'⟩ => ?_
    refine Triple.fact (fun _ h => h) fun ⟨hargs', hmatched⟩ => ?_
    cases found with
    | true =>
      refine Triple.ret _ fun _ _ a' ha => ?_
      cases ha
      exact ⟨List.mem_cons_self, hmatched rfl⟩
    | false =>
      refine ((ih hargs').mapPre fun _ _ => trivial).mapPost fun o _ h a' ha => ?_
      exact ⟨List.mem_cons_of_mem _ (h a' ha).1, (h a' ha).2⟩

end FklGrammerTerms

end FakeLisp
