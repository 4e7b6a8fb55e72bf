import FakeLisp.ActionMatch

/-! How far a match can go. The length of a word that is kept for a place stays within the buffer
as long as nothing that measures words is called while one is measured. -/

namespace FakeLisp

theorem toSSize_le (n : Nat) : toSSize n ≤ n := by
  unfold toSSize
  split_ifs <;> omega

/-- The word that the context remembers, if it is one of the buffer at `start`, ends at `fin` or
before. -/
def CacheOk (start fin : Nat) (ctx : FklGrammerMatchCtx) : Prop :=
  ctx.start ≠ start ∨ ctx.cur + ctx.maxNonterminalLen ≤ fin

theorem CacheOk.mono {start fin fin' : Nat} {ctx : FklGrammerMatchCtx} (h : CacheOk start fin ctx)
    (hle : fin ≤ fin') : CacheOk start fin' ctx :=
  h.imp_right fun h => h.trans hle

theorem triple_waitForMore {c : FklGrammerMatchCtx} (b : Bool) :
    Triple (fun r => r.ctx = c) (waitForMore b) fun _ r => r.ctx = c :=
  (Triple.update fun r : MatchRun => { r with isWaitingForMore := r.isWaitingForMore || b }).conseq
    (fun _ h => h) fun _ _ h => h

theorem triple_waitForMore_cache {start fin : Nat} (b : Bool) :
    Triple (fun r => CacheOk start fin r.ctx) (waitForMore b) fun _ r => CacheOk start fin r.ctx :=
  (Triple.update fun r : MatchRun => { r with isWaitingForMore := r.isWaitingForMore || b }).conseq
    (fun _ h => h) fun _ _ h => h

theorem Triple.withOwnFlag {α : Type} {m : MatchM α} {P : FklGrammerMatchCtx → Prop}
    {Q : α → FklGrammerMatchCtx → Prop}
    (h : Triple (fun r => P r.ctx) m fun a r => Q a r.ctx) :
    Triple (fun r => P r.ctx) (withOwnFlag m) fun a r => Q a r.ctx := by
  intro r a r' hr hm
  rw [FakeLisp.withOwnFlag] at hm
  cases ht : m { r with isWaitingForMore := false } with
  | error e =>
    rw [ht] at hm
    cases hm
  | ok p =>
    rw [ht] at hm
    cases hm
    exact h { r with isWaitingForMore := false } p.1 p.2 hr ht

theorem Triple.measuring {α : Type} {m : MatchM α} {P : MatchRun → Prop}
    {Q : α → MatchRun → Prop} (cur : Nat) (h : Triple P m Q) : Triple P (measuring cur m) Q := by
  intro r a r' hr hm
  rw [FakeLisp.measuring] at hm
  split at hm
  · cases hm
  · exact h r a r' hr hm

theorem triple_matchFailed {α : Type} {P : MatchRun → Prop} {Q : α → MatchRun → Prop} :
    Triple P matchFailed Q :=
  Triple.stop fun _ => ⟨_, rfl⟩

theorem triple_matchCutOff {α : Type} {P : MatchRun → Prop} {Q : α → MatchRun → Prop}
    (place : Nat) : Triple P (matchCutOff place) Q :=
  Triple.stop fun _ => ⟨_, rfl⟩

namespace FklGrammerTerms

variable {g : FklGrammerTerms} {mem : Memory}

/-- The builtin terminal asks for the length of a word. -/
def MeasuresWords (g : FklGrammerTerms) (b : FklLalrBuiltinGrammerSym) : Prop :=
  g.builtinMatch b.t ≠ .never ∧ g.builtinMatch b.t ≠ .rawString

/-- Nothing in the ignore rules measures words. -/
def NoWords (g : FklGrammerTerms) : Prop :=
  ∀ ig ∈ g.ignores, ∀ b, .builtin b ∈ ig → ¬g.MeasuresWords b

/-- The first symbols of an ignore rule take `n` bytes. -/
inductive IgnoreTakes (g : FklGrammerTerms) (mem : Memory) (str restLen : Nat) :
    FklGrammerIgnore → Nat → Prop
  | nil : IgnoreTakes g mem str restLen [] 0
  | builtin {l : FklGrammerIgnore} {n : Nat} (h : IgnoreTakes g mem str restLen l n)
    {b : FklLalrBuiltinGrammerSym} {fuel start len : Nat} {r r' : MatchRun}
    (hb : g.builtinMatches mem fuel b start (str + n) (sizeSub restLen n) r =
      .ok (some len, r')) : IgnoreTakes g mem str restLen (l ++ [.builtin b]) (n + len)
  | regex {l : FklGrammerIgnore} {n : Nat} (h : IgnoreTakes g mem str restLen l n) {re : Nat}
    (hle : (g.regexMatch mem re (str + n) restLen).1 ≤ restLen) :
    IgnoreTakes g mem str restLen (l ++ [.regex re])
      (n + (g.regexMatch mem re (str + n) restLen).1)
  | string {l : FklGrammerIgnore} {n : Nat} (h : IgnoreTakes g mem str restLen l n) {s : Nat}
    (hs : fklCharBufMatch (g.str s) mem (str + n) (sizeSub restLen n)) :
    IgnoreTakes g mem str restLen (l ++ [.string s]) (n + (g.str s).length)

/-- A regular expression of an ignore rule that is given all of `restLen`, where the symbols before
it took `n` bytes, does not go on beyond the end of the buffer. Nothing in the ignore rules
measures words. -/
structure IgnoresOk (g : FklGrammerTerms) (mem : Memory) (lo fin : Nat) : Prop where
  regex_stays : ∀ l re r, l ++ .regex re :: r ∈ g.ignores → ∀ str restLen n, lo ≤ str →
    str + restLen = fin → IgnoreTakes g mem str restLen l n →
      (g.regexMatch mem re (str + n) restLen).1 ≤ restLen →
        n + (g.regexMatch mem re (str + n) restLen).1 ≤ restLen
  no_words : g.NoWords

/-! Raw strings. -/

theorem rawStringEnd_le {ending delim : List UInt8} {cstr restLen len : Nat}
    (h : rawStringEnd mem ending delim cstr restLen = some len) : len ≤ restLen := by
  induction restLen generalizing cstr len with
  | zero =>
    rw [rawStringEnd] at h
    split_ifs at h with h1 h2
    cases h
    omega
  | succ restLen ih =>
    rw [rawStringEnd] at h
    split_ifs at h with h1 h2
    · cases h
      omega
    · obtain ⟨len', hlen', rfl⟩ := Option.map_eq_some_iff.mp h
      have := ih hlen'
      omega

theorem rawStringDelim_le (opening : List UInt8) (cstr restLen : Nat) :
    rawStringDelim mem opening cstr restLen ≤ restLen := by
  induction restLen generalizing cstr with
  | zero => exact Nat.le_refl 0
  | succ restLen ih =>
    unfold rawStringDelim
    split_ifs
    · exact Nat.zero_le _
    · have := ih (cstr + 1)
      omega

theorem rawStringDelim_match {opening : List UInt8} {cstr restLen : Nat}
    (h : rawStringDelim mem opening cstr restLen < restLen) :
    opening.length ≤ restLen - rawStringDelim mem opening cstr restLen := by
  induction restLen generalizing cstr with
  | zero => omega
  | succ restLen ih =>
    unfold rawStringDelim at h ⊢
    split_ifs at h ⊢ with hm
    · have := length_le_of_charBufMatch hm
      omega
    · have := @ih (cstr + 1) (by omega)
      omega

/-- The context stays, and the length is in bounds. -/
def Within (c : FklGrammerMatchCtx) (restLen : Nat) (o : Option Nat) (r : MatchRun) : Prop :=
  r.ctx = c ∧ ∀ len, o = some len → len ≤ restLen

theorem triple_none {c : FklGrammerMatchCtx} {restLen : Nat} :
    Triple (fun r => r.ctx = c) (pure none : MatchM (Option Nat)) (Within c restLen) :=
  Triple.ret none fun _ h => ⟨h, by simp⟩

theorem triple_waiting_none {c : FklGrammerMatchCtx} {restLen : Nat} (b : Bool) :
    Triple (fun r => r.ctx = c) (do waitForMore b; return none) (Within c restLen) :=
  (triple_waitForMore b).bind fun _ => triple_none

theorem triple_rawStringMatch {c : FklGrammerMatchCtx} (args : List (List UInt8))
    (cstr restLen : Nat) :
    Triple (fun r => r.ctx = c) (rawStringMatch mem args cstr restLen) (Within c restLen) := by
  cases args with
  | nil => exact triple_matchFailed
  | cons opening args =>
    simp only [rawStringMatch]
    split_ifs with h1 h2 h3
    · exact triple_none
    · exact triple_none
    · exact triple_waiting_none true
    · split
      · next len hlen =>
        refine Triple.ret _ fun _ h => ⟨h, fun n hn => ?_⟩
        cases hn
        have hopen : opening.length ≤ restLen := length_le_of_charBufMatch (by simpa using h2)
        have hend := rawStringEnd_le hlen
        have hmatch := @rawStringDelim_match mem opening (cstr + opening.length)
          (restLen - opening.length) (by omega)
        have hdelim := @rawStringDelim_le mem opening (cstr + opening.length)
          (restLen - opening.length)
        omega
      · exact triple_waiting_none true

/-! Ignored text. -/

theorem triple_builtin_within {c : FklGrammerMatchCtx} {b : FklLalrBuiltinGrammerSym}
    (hb : ¬g.MeasuresWords b) (maxLen : Nat → Nat → Nat → MatchM Nat)
    (fuel start cstr restLen : Nat) :
    Triple (fun r => r.ctx = c) (builtinMatchFunc g mem maxLen fuel b start cstr restLen)
      (Within c restLen) := by
  have hb' : g.builtinMatch b.t = .never ∨ g.builtinMatch b.t = .rawString := by
    unfold MeasuresWords at hb
    tauto
  rcases hb' with hb' | hb'
  · simp only [builtinMatchFunc, hb']
    exact triple_none
  · simp only [builtinMatchFunc, hb']
    exact triple_rawStringMatch b.args cstr restLen

section

variable {c : FklGrammerMatchCtx}
  {builtin : FklLalrBuiltinGrammerSym → Nat → Nat → Nat → MatchM (Option Nat)}
  (hbuiltin : ∀ b start cstr restLen, ¬g.MeasuresWords b →
    Triple (fun r => r.ctx = c) (builtin b start cstr restLen) (Within c restLen))

include hbuiltin

theorem triple_ignoreMatch_ctx (start restLen : Nat) (ig : FklGrammerIgnore)
    (hig : ∀ b, .builtin b ∈ ig → ¬g.MeasuresWords b) (str matchLen : Nat) :
    Triple (fun r => r.ctx = c) (ignoreMatch g mem builtin start restLen ig str matchLen)
      fun _ r => r.ctx = c := by
  induction ig generalizing str matchLen with
  | nil => exact Triple.ret _ fun _ h => h
  | cons s ig ih =>
    have htail : ∀ b, .builtin b ∈ ig → ¬g.MeasuresWords b := fun b hb => hig b (by simp [hb])
    cases s with
    | builtin b =>
      refine (hbuiltin b start str _ (hig b (by simp))).bind fun o => ?_
      cases o with
      | none => exact Triple.ret _ fun _ h => h.1
      | some len => exact (ih htail _ _).mapPre fun _ h => h.1
    | regex re =>
      simp only [ignoreMatch]
      split_ifs
      · exact (triple_waitForMore _).bind fun _ => Triple.ret _ fun _ h => h
      · exact ih htail _ _
    | string s =>
      simp only [ignoreMatch]
      split_ifs
      · exact ih htail _ _
      · exact Triple.ret _ fun _ h => h

theorem triple_ignoresMatch_ctx (start str restLen : Nat) (igs : List FklGrammerIgnore)
    (higs : ∀ ig ∈ igs, ∀ b, .builtin b ∈ ig → ¬g.MeasuresWords b) :
    Triple (fun r => r.ctx = c) (ignoresMatch g mem builtin start str restLen igs)
      fun _ r => r.ctx = c := by
  induction igs with
  | nil => exact Triple.ret _ fun _ h => h
  | cons ig igs ih =>
    refine (triple_ignoreMatch_ctx hbuiltin start restLen ig (higs ig (by simp)) str 0).bind
      fun o => ?_
    cases o with
    | none => exact ih fun ig hig => higs ig (by simp [hig])
    | some len => exact Triple.ret _ fun _ h => h

theorem triple_maxLenLoop (hok : g.NoWords) (start n len cur : Nat) :
    Triple (fun r => r.ctx = c) (maxLenLoop g mem builtin start n len cur)
      fun ret r => r.ctx = c ∧ ret ≤ len + n := by
  induction n generalizing len cur with
  | zero => exact Triple.ret _ fun _ h => ⟨h, le_rfl⟩
  | succ n ih =>
    have hign := Triple.withOwnFlag (P := fun ctx => ctx = c) (Q := fun _ ctx => ctx = c)
      (@triple_ignoresMatch_ctx _ mem _ _ hbuiltin start cur (n + 1) g.ignores hok)
    refine hign.bind fun o => ?_
    split_ifs
    · exact Triple.ret _ fun _ h => ⟨h, by omega⟩
    · exact Triple.ret _ fun _ h => ⟨h, by omega⟩
    · exact (ih (len + 1) (cur + 1)).mapPost fun _ _ h => ⟨h.1, by omega⟩

end

theorem triple_ignoreMatch {lo fin : Nat} (hok : IgnoresOk g mem lo fin) {c : FklGrammerMatchCtx}
    (fuel start : Nat) {str restLen : Nat} (hlo : lo ≤ str) (hstr : str + restLen = fin)
    (hrest : restLen < 2 ^ 64) (ig l : FklGrammerIgnore) (hig : l ++ ig ∈ g.ignores)
    {matchLen : Nat} (hle : matchLen ≤ restLen) (hl : IgnoreTakes g mem str restLen l matchLen) :
    Triple (fun r => r.ctx = c)
      (ignoreMatch g mem (g.builtinMatches mem fuel) start restLen ig (str + matchLen) matchLen)
      (Within c restLen) := by
  induction ig generalizing l matchLen with
  | nil =>
    refine Triple.ret _ fun _ h => ⟨h, fun len hlen => ?_⟩
    cases hlen
    exact hle
  | cons s ig ih =>
    have hsub := sizeSub_eq hle hrest
    have hnext : (l ++ [s]) ++ ig ∈ g.ignores := by simpa using hig
    cases s with
    | builtin b =>
      have hb := @triple_builtin_within _ mem c b (hok.no_words _ hig b (by simp))
        (g.getMaxNonTermLength mem fuel) fuel start (str + matchLen) (sizeSub restLen matchLen)
      refine hb.ran.bind fun o => ?_
      cases o with
      | none => exact triple_none.mapPre fun _ h => h.1.1
      | some len =>
        refine Triple.fact (fun _ h => h.1.2 len rfl) fun hlen => ?_
        refine Triple.fact (fun _ h => h.2) fun ⟨_, _, hran⟩ => ?_
        rw [hsub] at hlen
        simp only [Nat.add_assoc]
        exact (ih _ hnext (by omega) (hl.builtin hran)).mapPre fun _ h => h.1.1
    | regex re =>
      simp only [ignoreMatch]
      split_ifs with hlt
      · exact triple_waiting_none _
      · have hlen := hok.regex_stays l re ig hig str restLen matchLen hlo hstr hl (by omega)
        rw [Nat.add_assoc]
        exact ih _ hnext hlen (hl.regex (by omega))
    | string s =>
      simp only [ignoreMatch]
      split_ifs with hm
      · have hlen := length_le_of_charBufMatch hm
        rw [hsub] at hlen
        rw [Nat.add_assoc]
        exact ih _ hnext (by omega) (hl.string hm)
      · exact triple_none

theorem triple_ignoresMatch {lo fin : Nat} (hok : IgnoresOk g mem lo fin)
    {c : FklGrammerMatchCtx} (fuel start : Nat) {str restLen : Nat} (hlo : lo ≤ str)
    (hstr : str + restLen = fin) (hrest : restLen < 2 ^ 64) (igs : List FklGrammerIgnore)
    (higs : igs ⊆ g.ignores) :
    Triple (fun r => r.ctx = c)
      (ignoresMatch g mem (g.builtinMatches mem fuel) start str restLen igs)
      (Within c restLen) := by
  induction igs with
  | nil => exact triple_none
  | cons ig igs ih =>
    refine (triple_ignoreMatch hok fuel start hlo hstr hrest ig [] (higs (by simp))
      (Nat.zero_le _) .nil).bind fun o => ?_
    cases o with
    | none => exact (ih fun ig hig => higs (by simp [hig])).mapPre fun _ h => h.1
    | some len => exact Triple.ret _ fun _ h => h

/-! Words. -/

/-- The length found at `cur`, and what the context remembers then. -/
def MaxLenAt (start fin cur rest : Nat) (len : Nat) (r : MatchRun) : Prop :=
  CacheOk start fin r.ctx ∧ len ≤ rest ∧
    (rest ≠ 0 → r.ctx.cur + r.ctx.maxNonterminalLen = cur + len)

theorem triple_getMax (hok : g.NoWords) {fin : Nat} (fuel : Nat) {start cur rest : Nat}
    (hcur : cur + rest = fin) :
    Triple (fun r => CacheOk start fin r.ctx) (g.getMaxNonTermLength mem fuel start cur rest)
      (MaxLenAt start fin cur rest) := by
  cases fuel with
  | zero => exact triple_matchCutOff cur
  | succ fuel =>
    rw [getMaxNonTermLength]
    split_ifs with hrest
    · exact Triple.ret _ fun _ h => ⟨h, Nat.zero_le _, fun hne => absurd hrest hne⟩
    · refine Triple.get.bind fun r => ?_
      split_ifs with hhit
      · -- the place was looked at last
        refine Triple.ret _ fun s hs => ?_
        obtain ⟨rfl, hcache⟩ := hs
        have hle := hcache.resolve_left (by simp [hhit.1])
        exact ⟨hcache, by omega, fun _ => by rw [hhit.2]⟩
      · have hset : Triple (fun s : MatchRun => r = s ∧ CacheOk start fin s.ctx)
            (modify fun r => { r with ctx := { r.ctx with start := start, cur := cur } } :
              MatchM Unit)
            fun _ s => s.ctx = { r.ctx with start := start, cur := cur } :=
          (Triple.update fun r : MatchRun =>
            { r with ctx := { r.ctx with start := start, cur := cur } }).mapPre fun s hs => by
              rw [← hs.1]
        refine hset.bind fun _ => ?_
        have hloop := @triple_maxLenLoop _ mem { r.ctx with start := start, cur := cur }
          (builtinMatchFunc g mem (g.getMaxNonTermLength mem fuel) fuel)
          (fun b start cstr restLen hb => triple_builtin_within hb _ fuel start cstr restLen)
          hok start rest 0 cur
        refine (hloop.measuring cur).bind fun len => ?_
        refine (Triple.update (U := fun _ s => MaxLenAt start fin cur rest len s)
          fun r : MatchRun =>
          { r with ctx := { r.ctx with maxNonterminalLen := len } }).bind (fun _ =>
            Triple.pure len) |>.mapPre fun s hs => ?_
        have hlen : len ≤ rest := by simpa using hs.2
        refine ⟨Or.inr ?_, hlen, fun _ => ?_⟩
        · simp only [hs.1]
          omega
        · simp only [hs.1]

/-- A match of a builtin terminal that measures words: the last word measured ends with it. -/
def WordWithin (start fin cur rest : Nat) (o : Option Nat) (r : MatchRun) : Prop :=
  CacheOk start fin r.ctx ∧ ∀ len, o = some len → len ≤ rest ∧ CacheOk start (cur + len) r.ctx

theorem triple_word_none {fin cur rest : Nat} :
    Triple (fun r => CacheOk start fin r.ctx) (pure none : MatchM (Option Nat))
      (WordWithin start fin cur rest) :=
  Triple.ret none fun _ h => ⟨h, by simp⟩

section

variable {fin : Nat} {maxLen : Nat → Nat → Nat → MatchM Nat} {start : Nat}
  (hmax : ∀ cur rest, cur + rest = fin →
    Triple (fun r => CacheOk start fin r.ctx) (maxLen start cur rest) (MaxLenAt start fin cur rest))

include hmax

theorem triple_wordMatch (test : Memory → Nat → Bool) {cur rest : Nat}
    (hcur : cur + rest = fin) :
    Triple (fun r => CacheOk start fin r.ctx) (wordMatch mem maxLen test start cur rest)
      (WordWithin start fin cur rest) := by
  refine (hmax cur rest hcur).bind fun len => ?_
  split_ifs with h
  · refine Triple.ret _ fun r hr => ⟨hr.1, fun n hn => ?_⟩
    cases hn
    have hrest : rest ≠ 0 := by
      have := hr.2.1
      omega
    exact ⟨hr.2.1, Or.inr (hr.2.2 hrest).le⟩
  · exact (triple_word_none).mapPre fun _ h => h.1

theorem triple_numberMatch (test : Memory → Nat → Bool) {cur rest : Nat}
    (hcur : cur + rest = fin) :
    Triple (fun r => CacheOk start fin r.ctx) (numberMatch mem maxLen test start cur rest)
      (WordWithin start fin cur rest) := by
  unfold numberMatch
  split_ifs
  · exact triple_word_none
  · exact triple_wordMatch hmax test hcur

theorem triple_sCharMatch (args : List (List UInt8)) {cur rest : Nat}
    (hcur : cur + rest = fin) :
    Triple (fun r => CacheOk start fin r.ctx) (sCharMatch mem maxLen args start cur rest)
      (WordWithin start fin cur rest) := by
  unfold sCharMatch
  split
  · exact triple_matchFailed
  · next pre _ =>
    split_ifs with h1 h2
    · exact triple_word_none
    · exact triple_word_none
    · refine (hmax (cur + pre.length) (rest - pre.length) (by omega)).bind fun len => ?_
      refine Triple.ret _ fun r hr => ⟨hr.1, fun n hn => ?_⟩
      cases hn
      have hle := hr.2.1
      have hend := hr.2.2 (by omega)
      refine ⟨?_, Or.inr ?_⟩
      · split_ifs <;> omega
      · split_ifs <;> omega

theorem triple_symbolLoop (hfin : fin < 2 ^ 64) (opening ending : List UInt8) {cur rest : Nat}
    (hcur : cur + rest = fin) (fuel matchLen : Nat) (hle : matchLen ≤ rest) :
    Triple (fun r => CacheOk start fin r.ctx)
      (symbolLoop mem maxLen opening ending start cur rest fuel matchLen)
      (WordWithin start fin cur rest) := by
  induction fuel generalizing matchLen with
  | zero => exact triple_matchCutOff _
  | succ fuel ih =>
    have hsub := sizeSub_eq hle (by omega)
    simp only [symbolLoop]
    split_ifs with hopen hquoted
    · exact (Triple.update (U := fun _ r => CacheOk start fin r.ctx) fun r : MatchRun =>
        { r with isWaitingForMore := r.isWaitingForMore || true }).bind fun _ => triple_word_none
    · have hlen := length_le_of_charBufMatch hopen
      rw [hsub] at hlen
      have hq := quotedCharBufMatch_le mem (cur + (matchLen + opening.length))
        (sizeSub rest (matchLen + opening.length)) ending
      rw [sizeSub_eq (by omega : matchLen + opening.length ≤ rest) (by omega)] at hq ⊢
      exact ih _ (by omega)
    · rw [hsub]
      refine (hmax (cur + matchLen) (rest - matchLen) (by omega)).bind fun len => ?_
      refine Triple.fact (fun _ h => h.2.1) fun hlen => ?_
      split_ifs with h1 h2 h3
      · exact (triple_word_none).mapPre fun _ h => h.1
      · refine Triple.ret _ fun r hr => ⟨hr.1, fun n hn => ?_⟩
        cases hn
        refine ⟨by omega, ?_⟩
        by_cases hrest : rest - matchLen = 0
        · exact hr.1.mono (by omega)
        · have := hr.2.2 hrest
          exact Or.inr (by omega)
      · exact (triple_word_none).mapPre fun _ h => h.1
      · exact (ih _ (by omega)).mapPre fun _ h => h.1

theorem triple_symbolMatch (hfin : fin < 2 ^ 64) (fuel : Nat) (args : List (List UInt8))
    {cur rest : Nat}
    (hcur : cur + rest = fin) :
    Triple (fun r => CacheOk start fin r.ctx) (symbolMatch mem maxLen fuel args start cur rest)
      (WordWithin start fin cur rest) := by
  unfold symbolMatch
  split
  · exact triple_wordMatch hmax _ hcur
  · exact triple_symbolLoop hmax hfin _ _ hcur fuel 0 (Nat.zero_le _)
  · exact triple_symbolLoop hmax hfin _ _ hcur fuel 0 (Nat.zero_le _)

theorem triple_builtin_word (hfin : fin < 2 ^ 64) (fuel : Nat) (b : FklLalrBuiltinGrammerSym)
    (hb : g.MeasuresWords b) {cur rest : Nat}
    (hcur : cur + rest = fin) :
    Triple (fun r => CacheOk start fin r.ctx) (builtinMatchFunc g mem maxLen fuel b start cur rest)
      (WordWithin start fin cur rest) := by
  unfold builtinMatchFunc
  split
  case h_1 => exact triple_numberMatch hmax _ hcur
  case h_2 => exact triple_numberMatch hmax _ hcur
  case h_3 => exact triple_numberMatch hmax _ hcur
  case h_4 => exact triple_numberMatch hmax _ hcur
  case h_5 => exact triple_numberMatch hmax _ hcur
  case h_6 => exact triple_wordMatch hmax _ hcur
  case h_7 => exact triple_wordMatch hmax _ hcur
  case h_8 => exact triple_numberMatch hmax _ hcur
  case h_9 => exact triple_numberMatch hmax _ hcur
  case h_10 => exact triple_numberMatch hmax _ hcur
  case h_11 => exact triple_numberMatch hmax _ hcur
  case h_12 => exact triple_numberMatch hmax _ hcur
  case h_13 => exact triple_sCharMatch hmax _ hcur
  case h_14 => exact triple_word_none
  case h_15 => exact triple_symbolMatch hmax hfin fuel _ hcur
  case h_16 h => exact absurd h hb.2

end

/-! Actions. -/

/-- A match: it is in bounds, and the last word measured, if there is one, ends with it. -/
def PartWithin (start : Nat) (c : FklGrammerMatchCtx) (words : Prop) (fin cur rest : Nat)
    (o : Option Nat)
    (r : MatchRun) : Prop :=
  CacheOk start fin r.ctx ∧ ∀ len, o = some len →
    len ≤ rest ∧ (CacheOk start (cur + len) r.ctx ∨ r.ctx = c ∧ ¬words)

/-- A part of a composite terminal measures words. -/
def CompWords (g : FklGrammerTerms) (parts : List FklCompPart) : Prop :=
  ∃ b, .builtin b ∈ parts ∧ g.MeasuresWords b

/-- A match of some parts, after `total` bytes: it is in bounds, and the last word measured, if
there is one, ends with it. -/
def CompWithin (g : FklGrammerTerms) (start : Nat) (parts : List FklCompPart)
    (c : FklGrammerMatchCtx)
    (fin cur rest total : Nat) (o : Option Nat) (r : MatchRun) : Prop :=
  CacheOk start fin r.ctx ∧ ∀ len, o = some len → ∃ n, len = total + n ∧ n ≤ rest ∧
    (CacheOk start (cur + n) r.ctx ∨ r.ctx = c ∧ ¬g.CompWords parts)

theorem CompWithin.part {s : FklCompPart} {parts : List FklCompPart} {c c' : FklGrammerMatchCtx}
    {fin cur rest total partLen : Nat} {o : Option Nat} {r : MatchRun} (hle : partLen ≤ rest)
    (hc : CacheOk start (cur + partLen) c' ∨
      c' = c ∧ (¬g.CompWords parts → ¬g.CompWords (s :: parts)))
    (h : CompWithin g start parts c' fin (cur + partLen) (rest - partLen) (total + partLen) o r) :
    CompWithin g start (s :: parts) c fin cur rest total o r := by
  refine ⟨h.1, fun len hlen => ?_⟩
  obtain ⟨n, rfl, hn, hcache⟩ := h.2 len hlen
  refine ⟨partLen + n, by omega, by omega, ?_⟩
  rcases hcache with hcache | ⟨hctx, hwords⟩
  · exact Or.inl (hcache.mono (by omega))
  · rcases hc with hc | ⟨hc, hs⟩
    · exact Or.inl (hctx ▸ hc.mono (by omega))
    · exact Or.inr ⟨hctx.trans hc, hs hwords⟩

theorem not_compWords_cons {s : FklCompPart} {parts : List FklCompPart}
    (hs : ∀ b, s = .builtin b → ¬g.MeasuresWords b) (h : ¬g.CompWords parts) :
    ¬g.CompWords (s :: parts) := by
  rintro ⟨b, hb, hw⟩
  rcases List.mem_cons.mp hb with rfl | hb
  · exact hs b rfl hw
  · exact h ⟨b, hb, hw⟩

section

variable {fin : Nat} (hok : g.NoWords) (hfin : fin < 2 ^ 64) {start : Nat}

include hok hfin

theorem triple_builtinMatches (fuel : Nat) (b : FklLalrBuiltinGrammerSym)
    {c : FklGrammerMatchCtx} (hc : CacheOk start fin c) {cur rest : Nat}
    (hcur : cur + rest = fin) :
    Triple (fun r => r.ctx = c) (g.builtinMatches mem fuel b start cur rest)
      (PartWithin start c (g.MeasuresWords b) fin cur rest) := by
  by_cases hb : g.MeasuresWords b
  · have hmax : ∀ cur rest, cur + rest = fin → Triple (fun r => CacheOk start fin r.ctx)
        (g.getMaxNonTermLength mem fuel start cur rest) (MaxLenAt start fin cur rest) :=
      fun cur rest h => triple_getMax hok fuel h
    refine (triple_builtin_word hmax hfin fuel b hb hcur).conseq (fun r hr => hr ▸ hc) ?_
    exact fun o r h => ⟨h.1, fun len hlen => ⟨(h.2 len hlen).1, Or.inl (h.2 len hlen).2⟩⟩
  · refine (triple_builtin_within hb _ fuel start cur rest).mapPost ?_
    exact fun o r h => ⟨h.1 ▸ hc, fun len hlen => ⟨h.2 len hlen, Or.inr ⟨h.1, hb⟩⟩⟩

theorem triple_matchComp (fuel : Nat) (parts : List FklCompPart) {c : FklGrammerMatchCtx}
    (hc : CacheOk start fin c) {cur rest : Nat}
    (hcur : cur + rest = fin) (total : Nat) :
    Triple (fun r => r.ctx = c) (g.matchComp mem fuel start parts cur rest total)
      (CompWithin g start parts c fin cur rest total) := by
  induction parts generalizing c cur rest total with
  | nil =>
    refine Triple.ret _ fun r hr => ⟨hr ▸ hc, fun len hlen => ?_⟩
    cases hlen
    exact ⟨0, rfl, Nat.zero_le _, Or.inr ⟨hr, fun ⟨b, hb, _⟩ => by cases hb⟩⟩
  | cons s parts ih =>
    have hnone : Triple (fun r => CacheOk start fin r.ctx) (pure none : MatchM (Option Nat))
        (CompWithin g start (s :: parts) c fin cur rest total) :=
      Triple.ret _ fun r hr => ⟨hr, by simp⟩
    cases s with
    | string s =>
      simp only [matchComp]
      split_ifs with hm
      · have hlen := length_le_of_charBufMatch hm
        rw [sizeSub_eq hlen (by omega)]
        refine (ih hc (by omega) _).mapPost fun o r h => h.part hlen (Or.inr ⟨rfl, ?_⟩)
        exact not_compWords_cons (by simp)
      · exact hnone.mapPre fun r hr => hr ▸ hc
    | regex re =>
      simp only [matchComp]
      split_ifs with hlt
      · exact (triple_waitForMore _).bind fun _ => hnone.mapPre fun r hr => hr ▸ hc
      · rw [sizeSub_eq (by omega) (by omega)]
        refine (ih hc (by omega) _).mapPost fun o r h => h.part (by omega) (Or.inr ⟨rfl, ?_⟩)
        exact not_compWords_cons (by simp)
    | builtin b =>
      refine (triple_builtinMatches hok hfin fuel b hc hcur).bind fun o => ?_
      cases o with
      | none => exact hnone.mapPre fun r hr => hr.1
      | some len =>
        refine Triple.ofState fun t ht => ?_
        obtain ⟨hlen, hcache⟩ := ht.2 len rfl
        simp only [sizeSub_eq hlen (by omega : rest < 2 ^ 64)]
        refine ((ih ht.1 (by omega) _).conseq (fun r hr => by rw [hr]) fun o r h =>
          h.part hlen (hcache.imp_right fun ⟨hctx, hb⟩ => ⟨hctx, ?_⟩))
        refine not_compWords_cons fun b' heq => ?_
        cases heq
        exact hb

end

section

variable {lo fin : Nat} (hok : IgnoresOk g mem lo fin) (hfin : fin < 2 ^ 64) {start : Nat}

include hok hfin

omit hfin in
theorem triple_matchIgnore (fuel : Nat) {c : FklGrammerMatchCtx} {cstr restLen : Nat}
    (hlo : lo ≤ cstr) (hcstr : cstr + restLen = fin) (hrest : restLen < 2 ^ 64) (n retLen : Nat)
    (hle : retLen ≤ restLen) :
    Triple (fun r => r.ctx = c) (g.matchIgnore mem fuel cstr restLen n retLen)
      fun len r => r.ctx = c ∧ len ≤ restLen := by
  induction n generalizing retLen with
  | zero =>
    rw [matchIgnore]
    split_ifs
    · exact triple_matchCutOff _
    · exact Triple.ret _ fun _ h => ⟨h, hle⟩
  | succ n ih =>
    rw [matchIgnore]
    split_ifs with hlt
    · refine (triple_ignoresMatch hok fuel cstr (by omega : lo ≤ cstr + retLen) (by omega)
        (by omega) g.ignores (List.Subset.refl _)).bind fun o => ?_
      cases o with
      | none => exact Triple.ret _ fun _ h => ⟨h.1, hle⟩
      | some len =>
        refine Triple.fact (fun _ h => h.2 len rfl) fun hlen => ?_
        exact (ih _ (by omega)).mapPre fun _ h => h.1
    · exact Triple.ret _ fun _ h => ⟨h, hle⟩

/-- A match of a terminal at a place. The last word measured in a composite one ends with it. -/
def TermWithin (g : FklGrammerTerms) (start : Nat) (t : FklLalrItemLookAhead) (fin cur rest : Nat)
    (o : Option Nat) (r : MatchRun) : Prop :=
  CacheOk start fin r.ctx ∧ ∀ len, o = some len → len ≤ rest ∧
    ∀ parts, t = .comp parts → CacheOk start (cur + len) r.ctx ∨ ¬g.CompWords parts

theorem triple_terminalMatch (fuel : Nat) {t : FklLalrItemLookAhead} (ht : t ≠ .eof)
    {cstr restLen skip : Nat} (hlo : lo ≤ cstr) (hcstr : cstr + restLen = fin)
    (hskip : skip ≤ restLen)
    (hign : t = .ignore → skip = 0) :
    Triple (fun r => CacheOk start fin r.ctx) (g.terminalMatch mem fuel t start cstr restLen skip)
      (g.TermWithin start t fin (cstr + skip) (restLen - skip)) := by
  have hsub : sizeSub restLen skip = restLen - skip := sizeSub_eq hskip (by omega)
  have hnone : Triple (fun r => CacheOk start fin r.ctx) (pure none : MatchM (Option Nat))
      (g.TermWithin start t fin (cstr + skip) (restLen - skip)) :=
    Triple.ret _ fun r hr => ⟨hr, by simp⟩
  cases t with
  | none => exact triple_matchFailed
  | eof => exact absurd rfl ht
  | string s =>
    simp only [terminalMatch, hsub]
    split_ifs with hm
    · refine Triple.ret _ fun r hr => ⟨hr, fun len hlen => ?_⟩
      cases hlen
      exact ⟨length_le_of_charBufMatch hm, by simp⟩
    · exact hnone
  | keyword s =>
    simp only [terminalMatch, hsub]
    refine (triple_getMax hok.no_words fuel (by omega)).bind fun len => ?_
    split_ifs with hm
    · refine Triple.ret _ fun r hr => ⟨hr.1, fun n hn => ?_⟩
      cases hn
      exact ⟨length_le_of_charBufMatch hm.2, by simp⟩
    · exact hnone.mapPre fun r hr => hr.1
  | builtin b =>
    simp only [terminalMatch, hsub]
    refine Triple.ofState fun t ht => ?_
    refine (triple_builtinMatches hok.no_words hfin fuel b ht (by omega)).conseq
      (fun r hr => by rw [hr]) fun o r h => ⟨h.1, fun len hlen => ⟨(h.2 len hlen).1, by simp⟩⟩
  | regex re =>
    simp only [terminalMatch, hsub]
    split_ifs with hlt
    · exact (triple_waitForMore_cache _).bind fun _ => hnone
    · refine Triple.ret _ fun r hr => ⟨hr, fun len hlen => ?_⟩
      cases hlen
      exact ⟨by omega, by simp⟩
  | ignore =>
    obtain rfl := hign rfl
    simp only [terminalMatch]
    refine Triple.ofState fun t ht => ?_
    refine ((triple_matchIgnore (c := t.ctx) hok fuel hlo hcstr (by omega) fuel 0
      (Nat.zero_le _)).bind fun len => ?_).mapPre fun r hr => by rw [hr]
    split_ifs with hpos
    · refine Triple.ret _ fun r hr => ⟨hr.1 ▸ ht, fun n hn => ?_⟩
      cases hn
      exact ⟨hr.2, by simp⟩
    · exact hnone.mapPre fun r hr => hr.1 ▸ ht
  | comp parts =>
    simp only [terminalMatch, hsub]
    refine Triple.ofState fun t ht => ?_
    refine (triple_matchComp hok.no_words hfin fuel parts ht (by omega) 0).conseq
      (fun r hr => by rw [hr]) fun o r h => ⟨h.1, fun len hlen => ?_⟩
    obtain ⟨n, rfl, hn, hcache⟩ := h.2 len hlen
    rw [Nat.zero_add]
    refine ⟨hn, fun parts' heq => ?_⟩
    cases heq
    exact hcache.imp_right And.right

omit hfin in
theorem triple_mapIgnore (fuel : Nat) {c : FklGrammerMatchCtx} {cstr restLen : Nat}
    (hlo : lo ≤ cstr) (hcstr : cstr + restLen = fin) (hrest : restLen < 2 ^ 64) :
    Triple (fun r => r.ctx = c) (toSSize <$> g.matchIgnore mem fuel cstr restLen fuel 0)
      fun n r => r.ctx = c ∧ n ≤ restLen := by
  rw [map_eq_pure_bind]
  refine (triple_matchIgnore hok fuel hlo hcstr hrest fuel 0 (Nat.zero_le _)).bind fun len => ?_
  refine Triple.ret _ fun r hr => ⟨hr.1, ?_⟩
  have := toSSize_le len
  omega

/-- What the match of an action says. -/
def ActionWithin (g : FklGrammerTerms) (start : Nat) (m : FklAnalysisStateActionMatch)
    (fin cstr restLen : Nat)
    (o : Bool × FklStateActionMatchArgs) (r : MatchRun) : Prop :=
  CacheOk start fin r.ctx ∧ o.2.ignoreLen ≤ restLen ∧
    (o.1 = true → m.t ≠ .eof → o.2.skipIgnoreLen + o.2.matchLen ≤ restLen ∧
      ∀ parts, m.t = .comp parts →
        CacheOk start (cstr + o.2.skipIgnoreLen + o.2.matchLen) r.ctx ∨ ¬g.CompWords parts)

omit hok hfin in
theorem triple_eofMatch (fuel : Nat) (m : FklAnalysisStateActionMatch) (hm : m.t = .eof)
    (cstr restLen : Nat) (args : FklStateActionMatchArgs) (hargs : args.ignoreLen ≤ restLen) :
    Triple (fun r => CacheOk start fin r.ctx)
      (g.fklIsStateActionMatch mem fuel m start cstr restLen args)
      (g.ActionWithin start m fin cstr restLen) := by
  simp only [fklIsStateActionMatch, hm, terminalMatch, pure_bind]
  exact Triple.ret _ fun r hr => ⟨hr, hargs, fun _ h => absurd hm h⟩

theorem triple_isStateActionMatch (fuel : Nat) (m : FklAnalysisStateActionMatch)
    {cstr restLen : Nat} (hlo : lo ≤ cstr) (hcstr : cstr + restLen = fin)
    (args : FklStateActionMatchArgs)
    (hargs : args.ignoreLen ≤ restLen) :
    Triple (fun r => CacheOk start fin r.ctx)
      (g.fklIsStateActionMatch mem fuel m start cstr restLen args)
      (g.ActionWithin start m fin cstr restLen) := by
  by_cases heof : m.t = .eof
  · exact triple_eofMatch fuel m heof cstr restLen args hargs
  have hfalse : ∀ args : FklStateActionMatchArgs, args.ignoreLen ≤ restLen →
      Triple (fun r => CacheOk start fin r.ctx)
        (pure (false, args) : MatchM (Bool × FklStateActionMatchArgs))
        (g.ActionWithin start m fin cstr restLen) :=
    fun args hargs => Triple.ret _ fun r hr => ⟨hr, hargs, by simp⟩
  have hrest : restLen < 2 ^ 64 := by omega
  -- the second attempt, after ignored text
  have hsecond : ∀ n : Int, n ≤ restLen → m.t ≠ .ignore →
      ∀ k : Option Nat → MatchM (Bool × FklStateActionMatchArgs),
        (∀ len, k (some len) = pure (true, ⟨len, n.toNat, n⟩)) →
        k none = pure (false, ⟨args.matchLen, n.toNat, n⟩) →
        Triple (fun r => CacheOk start fin r.ctx)
          (if n > 0 then g.terminalMatch mem fuel m.t start cstr restLen n.toNat >>= k
          else pure (false, ⟨args.matchLen, 0, n⟩))
          (g.ActionWithin start m fin cstr restLen) := by
    intro n hn hignore k hsome hnone
    split_ifs with hpos
    · refine (triple_terminalMatch hok hfin fuel heof hlo hcstr
        (by omega : n.toNat ≤ restLen) fun h => absurd h hignore).bind fun o => ?_
      cases o with
      | some len =>
        rw [hsome]
        refine Triple.ret _ fun r hr => ⟨hr.1, hn, fun _ _ => ?_⟩
        obtain ⟨hlen, hcomp⟩ := hr.2 len rfl
        exact ⟨by simp only; omega, hcomp⟩
      | none =>
        rw [hnone]
        exact (hfalse ⟨args.matchLen, n.toNat, n⟩ hn).mapPre fun r hr => hr.1
    · exact hfalse ⟨args.matchLen, 0, n⟩ hn
  simp only [fklIsStateActionMatch]
  refine (triple_terminalMatch hok hfin fuel heof hlo hcstr (Nat.zero_le _)
    fun _ => rfl).bind fun o => ?_
  cases o with
  | some len =>
    refine Triple.ret _ fun r hr => ⟨hr.1, hargs, fun _ _ => ?_⟩
    obtain ⟨hlen, hcomp⟩ := hr.2 len rfl
    exact ⟨by simpa using hlen, by simpa using hcomp⟩
  | none =>
    refine Triple.get.bind fun r => ?_
    have hpre : ∀ s, r = s ∧ g.TermWithin start m.t fin (cstr + 0) (restLen - 0) none s →
        CacheOk start fin s.ctx := fun s hs => hs.2.1
    split_ifs with hstop hign
    · exact (hfalse { args with skipIgnoreLen := 0 } hargs).mapPre hpre
    · refine Triple.ofState fun t ht => ?_
      refine ((triple_mapIgnore (c := t.ctx) hok fuel hlo hcstr hrest).mapPre
        fun s hs => by rw [hs]).bind
        fun n => ?_
      refine Triple.fact (fun r hr => hr.2) fun hn => ?_
      refine (hsecond n hn (fun h => ?_) _ (fun _ => rfl) rfl).mapPre fun s hs => hs.1 ▸ hpre t ht
      simp [m.ignore_eq h] at hstop
    · refine (hsecond args.ignoreLen hargs (fun h => ?_) _ (fun _ => rfl) rfl).mapPre hpre
      simp [m.ignore_eq h] at hstop

end

end FklGrammerTerms

end FakeLisp
