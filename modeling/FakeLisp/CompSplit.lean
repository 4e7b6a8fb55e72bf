import FakeLisp.ParserBound

/-! A composite terminal is matched against all that is left of the input, and split afterwards in
the bytes that it took. When the parts are found again. -/

namespace FakeLisp

variable {σ α : Type}

/-- The symbols that pieces of these lengths make, pushed one after another. -/
def splitSymbols (mem : Memory) (cb : FklParseCallbacks σ α) (ctxLine : Nat) : List Nat → Nat →
    Bool → Nat → List (FklAnalysisSymbol α) → σ → List (FklAnalysisSymbol α) × σ
  | [], _, _, _, symbols, outer => (symbols, outer)
  | len :: lens, cur, startWithIgnore, line, symbols, outer =>
    let (ast, outer) := cb.create (charBuf mem cur len) ctxLine outer
    splitSymbols mem cb ctxLine lens (cur + len) false (line + fklCountCharInBuf mem cur len)
      (⟨0, ast, line, startWithIgnore⟩ :: symbols) outer

namespace FklGrammerTerms

variable (g : FklGrammerTerms) (mem : Memory) (fuel start : Nat)

/-- A part in `match_comp`. -/
def partFound (cur rest : Nat) : FklCompPart → MatchM (Option Nat)
  | .string s =>
    return if fklCharBufMatch (g.str s) mem cur rest then some (g.str s).length else none
  | .regex re => do
    let (len, lastIsTrue) := g.regexMatch mem re cur rest
    if len > rest then
      waitForMore lastIsTrue
      return none
    else return some len
  | .builtin b => g.builtinMatches mem fuel b start cur rest

/-- The parts are found one behind the other, with these lengths. -/
inductive CompFinds : List FklCompPart → Nat → Nat → MatchRun → List Nat → MatchRun → Prop
  | nil (cur rest : Nat) (r : MatchRun) : CompFinds [] cur rest r [] r
  | cons {part : FklCompPart} {parts : List FklCompPart} {cur rest len : Nat} {lens : List Nat}
    {r r' r'' : MatchRun} (hpart : g.partFound mem fuel start cur rest part r = .ok (some len, r'))
    (h : CompFinds parts (cur + len) (sizeSub rest len) r' lens r'') :
    CompFinds (part :: parts) cur rest r (len :: lens) r''

/-- A part is found once more in the bytes that it and the later parts took. A string always is,
and a raw string unless there are no bytes; a regular expression is asked again, and so is a builtin
terminal that measures words, with the word that the context remembers by then. -/
def PartAgain (cur len later : Nat) (r : MatchRun) : FklCompPart → MatchRun → Prop
  | .string _, r' => r' = r
  | .regex re, r' => r' = r ∧ (g.regexMatch mem re cur (len + later)).1 = len
  | .builtin b, r' =>
    if g.builtinMatch b.t = .rawString then r' = r ∧ len + later ≠ 0
    else g.builtinMatches mem fuel b start cur (len + later) r = .ok (some len, r')

inductive FoundAgain : List FklCompPart → List Nat → Nat → MatchRun → Prop
  | nil (cur : Nat) (r : MatchRun) : FoundAgain [] [] cur r
  | cons {part : FklCompPart} {parts : List FklCompPart} {len cur : Nat} {lens : List Nat}
    {r r' : MatchRun} (hpart : g.PartAgain mem fuel start cur len lens.sum r part r')
    (h : FoundAgain parts lens (cur + len) r') : FoundAgain (part :: parts) (len :: lens) cur r

/-- The symbols that are pushed are those of the pieces, whatever the callbacks make of them. -/
def Splits (parts : List FklCompPart) (lens : List Nat) (cur : Nat) (r : MatchRun) : Prop :=
  ∀ (σ α : Type) (cb : FklParseCallbacks σ α) (symbols : List (FklAnalysisSymbol α))
    (startWithIgnore : Bool) (line : Nat) (outer : σ), ∃ r',
    g.fklEmplaceAnalysisSymbol mem fuel cb symbols (.comp parts) start cur lens.sum startWithIgnore
        line outer r =
      .ok (splitSymbols mem cb line lens cur startWithIgnore line symbols outer, r')

variable {g mem fuel start}

theorem matchComp_cons (part : FklCompPart) (parts : List FklCompPart) (cur rest total : Nat) :
    g.matchComp mem fuel start (part :: parts) cur rest total = do
      match ← g.partFound mem fuel start cur rest part with
      | some len => g.matchComp mem fuel start parts (cur + len) (sizeSub rest len) (total + len)
      | none => return none := by
  cases part with
  | string s =>
    rw [matchComp]
    by_cases hs : fklCharBufMatch (g.str s) mem cur rest = true <;> simp [partFound, hs]
  | regex re =>
    rw [matchComp]
    by_cases hlt : (g.regexMatch mem re cur rest).1 > rest <;> simp [partFound, hlt]
  | builtin b => rw [matchComp]; rfl

theorem matchComp_some {parts : List FklCompPart} {cur rest total n : Nat} {r r' : MatchRun}
    (h : g.matchComp mem fuel start parts cur rest total r = .ok (some n, r')) :
    ∃ lens, CompFinds g mem fuel start parts cur rest r lens r' ∧ n = total + lens.sum := by
  induction parts generalizing cur rest total r with
  | nil =>
    rw [matchComp] at h
    cases h
    exact ⟨[], .nil _ _ _, rfl⟩
  | cons part parts ih =>
    rw [matchComp_cons] at h
    obtain ⟨⟨o, s⟩, hpart, h⟩ := stateT_bind_eq_ok.mp h
    cases o with
    | none => cases h
    | some len =>
      obtain ⟨lens, hlens, rfl⟩ := ih h
      exact ⟨len :: lens, .cons hpart hlens, by rw [List.sum_cons, Nat.add_assoc]⟩

theorem CompFinds.length {parts : List FklCompPart} {cur rest : Nat} {lens : List Nat}
    {r r' : MatchRun} (h : CompFinds g mem fuel start parts cur rest r lens r') :
    lens.length = parts.length := by
  induction h with
  | nil => rfl
  | cons _ _ ih => rw [List.length_cons, List.length_cons, ih]

/-! Raw strings. -/

theorem fklCharBufMatch_eq {a : List UInt8} {b bSize : Nat} (h : a.length ≤ bSize) :
    fklCharBufMatch a mem b bSize = memEq a mem b := if_neg (Nat.not_lt.mpr h)

theorem rawStringDelim_cut {opening : List UInt8} {cstr restLen restLen' : Nat}
    (h : rawStringDelim mem opening cstr restLen < restLen)
    (hle : rawStringDelim mem opening cstr restLen + opening.length ≤ restLen') :
    rawStringDelim mem opening cstr restLen' = rawStringDelim mem opening cstr restLen := by
  induction restLen generalizing cstr restLen' with
  | zero => exact absurd h (Nat.not_lt_zero _)
  | succ restLen ih =>
    have hsize := rawStringDelim_match h
    have hsame : ∀ k, opening.length ≤ k →
        fklCharBufMatch opening mem cstr k = fklCharBufMatch opening mem cstr (restLen + 1) := by
      intro k hk
      rw [fklCharBufMatch_eq hk, fklCharBufMatch_eq (by omega)]
    by_cases hm : fklCharBufMatch opening mem cstr (restLen + 1) = true
    · have hzero : rawStringDelim mem opening cstr (restLen + 1) = 0 := if_pos hm
      rw [hzero] at hle ⊢
      cases restLen' with
      | zero => rfl
      | succ k => exact if_pos ((hsame _ (by omega)).trans hm)
    · have hsucc : rawStringDelim mem opening cstr (restLen + 1) =
          rawStringDelim mem opening (cstr + 1) restLen + 1 := if_neg hm
      rw [hsucc] at h hle ⊢
      cases restLen' with
      | zero => omega
      | succ k =>
        have hm' : ¬fklCharBufMatch opening mem cstr (k + 1) = true := by
          rwa [hsame _ (by omega)]
        rw [rawStringDelim, if_neg hm', ih (by omega) (by omega)]

theorem rawStringDelim_nil (cstr restLen : Nat) : rawStringDelim mem [] cstr restLen = 0 := by
  cases restLen with
  | zero => rfl
  | succ restLen => exact if_pos rfl

theorem rawStringEndsAt_eq {ending delim : List UInt8} {cstr restLen : Nat}
    (h : ending.length + delim.length + ending.length ≤ restLen) :
    rawStringEndsAt mem ending delim cstr restLen = (memEq ending mem cstr &&
      memEq delim mem (cstr + ending.length) &&
      memEq ending mem (cstr + ending.length + delim.length)) := by
  unfold rawStringEndsAt
  rw [fklCharBufMatch_eq (by omega), fklCharBufMatch_eq (by omega), fklCharBufMatch_eq (by omega)]

theorem rawStringEndsAt_cut {ending delim : List UInt8} {cstr restLen restLen' : Nat}
    (h : ending.length + delim.length + ending.length ≤ restLen)
    (h' : ending.length + delim.length + ending.length ≤ restLen') :
    rawStringEndsAt mem ending delim cstr restLen' =
      rawStringEndsAt mem ending delim cstr restLen := by
  rw [rawStringEndsAt_eq h, rawStringEndsAt_eq h']

theorem rawStringEnd_ge {ending delim : List UInt8} {cstr restLen len : Nat}
    (h : rawStringEnd mem ending delim cstr restLen = some len) :
    ending.length + delim.length + ending.length ≤ len := by
  induction restLen generalizing cstr len with
  | zero =>
    rw [rawStringEnd] at h
    split_ifs at h
    exact Nat.le_of_eq (Option.some.inj h)
  | succ restLen ih =>
    rw [rawStringEnd] at h
    split_ifs at h
    · exact Nat.le_of_eq (Option.some.inj h)
    · obtain ⟨len, hlen, rfl⟩ := Option.map_eq_some_iff.mp h
      exact Nat.le_succ_of_le (ih hlen)

theorem rawStringEnd_cut {ending delim : List UInt8} {cstr restLen restLen' len : Nat}
    (h : rawStringEnd mem ending delim cstr restLen = some len) (hle : len ≤ restLen') :
    rawStringEnd mem ending delim cstr restLen' = some len := by
  have hge := rawStringEnd_ge h
  induction restLen generalizing cstr restLen' len with
  | zero =>
    rw [rawStringEnd] at h
    split_ifs at h with hlt hends
    obtain rfl := Option.some.inj h
    rw [rawStringEnd.eq_def, if_neg (by omega), rawStringEndsAt_cut (Nat.not_lt.mp hlt) hle,
      if_pos hends]
  | succ restLen ih =>
    rw [rawStringEnd] at h
    split_ifs at h with hlt hends
    · obtain rfl := Option.some.inj h
      rw [rawStringEnd.eq_def, if_neg (by omega), rawStringEndsAt_cut (Nat.not_lt.mp hlt) hle,
      if_pos hends]
    · obtain ⟨len, hlen, rfl⟩ := Option.map_eq_some_iff.mp h
      have hge' := rawStringEnd_ge hlen
      obtain ⟨k, rfl⟩ : ∃ k, restLen' = k + 1 := ⟨restLen' - 1, by omega⟩
      rw [rawStringEnd, if_neg (by omega), rawStringEndsAt_cut (Nat.not_lt.mp hlt) (by omega),
        if_neg hends, ih hlen (by omega) hge']
      rfl

/-- A raw string that was found is found in every buffer that has its bytes. -/
theorem rawStringMatch_cut {args : List (List UInt8)} {cstr restLen restLen' len : Nat}
    {r r' : MatchRun} (h : rawStringMatch mem args cstr restLen r = .ok (some len, r'))
    (hle : len ≤ restLen') (hpos : restLen' ≠ 0) (s : MatchRun) :
    rawStringMatch mem args cstr restLen' s = .ok (some len, s) := by
  cases args with
  | nil => cases h
  | cons opening args =>
    unfold rawStringMatch at h ⊢
    dsimp only at h ⊢
    split_ifs at h with h0 hopen hend
    · cases h
    · cases h
    · cases h
    · generalize hE : rawStringEnd mem _ _ _ _ = o at h
      cases o with
      | none => cases h
      | some n =>
        cases h
        have hlen : opening.length ≤ restLen := length_le_of_charBufMatch (by simpa using hopen)
        have hdelim : rawStringDelim mem opening (cstr + opening.length)
            (restLen' - opening.length) = rawStringDelim mem opening (cstr + opening.length)
            (restLen - opening.length) := rawStringDelim_cut (by omega) (by omega)
        have hopen' : ¬(!fklCharBufMatch opening mem cstr restLen') = true := by
          rwa [fklCharBufMatch_eq (by omega), ← fklCharBufMatch_eq hlen]
        have hend' : ¬restLen' - opening.length - rawStringDelim mem opening
            (cstr + opening.length) (restLen - opening.length) = 0 := by
          by_cases hempty : opening = []
          · subst hempty
            rw [rawStringDelim_nil]
            exact hpos
          · have := List.length_pos_iff.mpr hempty
            omega
        rw [if_neg hpos, if_neg hopen', hdelim, if_neg hend', rawStringEnd_cut hE (by omega)]
        rfl

theorem rawStringMatch_run {args : List (List UInt8)} {cstr restLen len : Nat} {r r' : MatchRun}
    (h : rawStringMatch mem args cstr restLen r = .ok (some len, r')) :
    r' = r ∧ restLen ≠ 0 := by
  cases args with
  | nil => cases h
  | cons opening args =>
    unfold rawStringMatch at h
    dsimp only at h
    split_ifs at h with h0
    · cases h
    · cases h
    · cases h
    · generalize rawStringEnd mem _ _ _ _ = o at h
      cases o with
      | none => cases h
      | some n =>
        cases h
        exact ⟨rfl, h0⟩

/-! Both runs. -/

variable {fuel' : Nat} {part : FklCompPart} {parts : List FklCompPart} {lens : List Nat}
  {cur rest len later : Nat} {r r' s s' : MatchRun}

theorem partFound_string {t : Nat}
    (h : g.partFound mem fuel start cur rest (.string t) r = .ok (some len, r')) :
    len = (g.str t).length ∧ memEq (g.str t) mem cur = true := by
  dsimp only [partFound] at h
  by_cases ht : fklCharBufMatch (g.str t) mem cur rest = true
  · rw [if_pos ht] at h
    cases h
    exact ⟨rfl, by rwa [← fklCharBufMatch_eq (length_le_of_charBufMatch ht)]⟩
  · rw [if_neg ht] at h
    cases h

theorem partMatch_builtin_iff {b : FklLalrBuiltinGrammerSym} :
    g.partMatch mem fuel start cur rest (.builtin b) s = .ok (len, s') ↔
      g.builtinMatches mem fuel b start cur rest s = .ok (some len, s') := by
  dsimp only [partMatch]
  constructor
  · intro h
    obtain ⟨⟨o, t⟩, ht, h⟩ := stateT_bind_eq_ok.mp h
    cases o with
    | none => cases h
    | some n =>
      cases h
      exact ht
  · intro h
    exact stateT_bind_eq_ok.mpr ⟨_, h, rfl⟩

theorem builtinMatches_rawString {b : FklLalrBuiltinGrammerSym}
    (hb : g.builtinMatch b.t = .rawString) :
    g.builtinMatches mem fuel b start cur rest = rawStringMatch mem b.args cur rest := by
  unfold builtinMatches builtinMatchFunc
  rw [hb]

/-- What the second run does with a part that the first one has found. -/
theorem partMatch_iff (h : g.partFound mem fuel start cur rest part r = .ok (some len, r')) :
    g.partMatch mem fuel' start cur (len + later) part s = .ok (len, s') ↔
      g.PartAgain mem fuel' start cur len later s part s' := by
  cases part with
  | string t =>
    obtain ⟨rfl, ht⟩ := partFound_string h
    dsimp only [partMatch, PartAgain]
    rw [fklCharBufMatch_eq (Nat.le_add_right _ _), if_pos ht]
    constructor
    · intro hs
      cases hs
      rfl
    · rintro rfl
      rfl
  | regex re =>
    dsimp only [partMatch, PartAgain]
    constructor
    · intro hs
      split_ifs at hs with hlt
      · cases hs
      · obtain ⟨hlen, hs⟩ := Prod.mk.inj (Except.ok.inj hs)
        exact ⟨hs.symm, hlen⟩
    · rintro ⟨rfl, hlen⟩
      rw [if_neg (by omega), hlen]
      rfl
  | builtin b =>
    rw [partMatch_builtin_iff]
    dsimp only [PartAgain]
    split
    · rename_i hb
      rw [builtinMatches_rawString hb]
      constructor
      · exact rawStringMatch_run
      · rintro ⟨rfl, hpos⟩
        have hfound : rawStringMatch mem b.args cur rest r = .ok (some len, r') := by
          rw [← builtinMatches_rawString hb]
          exact h
        exact rawStringMatch_cut hfound (Nat.le_add_right _ _) hpos s'
    · rfl

variable {cb : FklParseCallbacks σ α} {ctxLine line : Nat} {startWithIgnore : Bool}
  {symbols : List (FklAnalysisSymbol α)} {outer : σ}

theorem sizeSub_add_left (h : len + later < 2 ^ 64) : sizeSub (len + later) len = later := by
  rw [sizeSub_eq (Nat.le_add_right _ _) h, Nat.add_sub_cancel_left]

theorem emplaceParts_of_foundAgain (h : CompFinds g mem fuel start parts cur rest r lens r')
    (hn : lens.sum < 2 ^ 64) (ha : FoundAgain g mem fuel' start parts lens cur s) :
    ∃ s', g.emplaceParts mem fuel' cb ctxLine start parts cur lens.sum startWithIgnore line symbols
      outer s =
        .ok (splitSymbols mem cb ctxLine lens cur startWithIgnore line symbols outer, s') := by
  induction h generalizing s startWithIgnore line symbols outer with
  | nil => exact ⟨s, rfl⟩
  | cons hpart _ ih =>
    cases ha with
    | cons hagain ha =>
      rw [List.sum_cons] at hn ⊢
      have hfirst := (partMatch_iff hpart).mpr hagain
      obtain ⟨s', hrest⟩ := ih (by omega) ha
      refine ⟨s', stateT_bind_eq_ok.mpr ⟨_, hfirst, ?_⟩⟩
      dsimp only
      rw [sizeSub_add_left hn]
      exact hrest

/-! Symbols are only pushed. -/

theorem splitSymbols_suffix (lens : List Nat) :
    symbols <:+ (splitSymbols mem cb ctxLine lens cur startWithIgnore line symbols outer).1 := by
  induction lens generalizing cur startWithIgnore line symbols outer with
  | nil => exact List.suffix_refl _
  | cons len lens ih => exact (List.suffix_cons _ _).trans ih

theorem emplaceParts_suffix {out : List (FklAnalysisSymbol α) × σ}
    (h : g.emplaceParts mem fuel cb ctxLine start parts cur rest startWithIgnore line symbols outer
      s = .ok (out, s')) : symbols <:+ out.1 := by
  induction parts generalizing cur rest startWithIgnore line symbols outer s with
  | nil =>
    cases h
    exact List.suffix_refl _
  | cons part parts ih =>
    obtain ⟨⟨len, t⟩, _, h⟩ := stateT_bind_eq_ok.mp h
    exact (List.suffix_cons _ _).trans (ih h)

theorem eq_of_suffixes {A : Type} {a b : A} {l m : List A} (ha : a :: l <:+ m)
    (hb : b :: l <:+ m) : a = b := by
  have hab := List.suffix_of_suffix_length_le ha hb (Nat.le_refl _)
  exact (List.cons.inj (hab.eq_of_length rfl)).1

/-- The symbols are the bytes. -/
def bytesOnly : FklParseCallbacks Unit (List UInt8) where
  create bytes _ _ := (bytes, ())
  destroy _ _ := ()
  func _ _ _ _ := (none, ())

theorem foundAgain_of_emplaceParts {symbols : List (FklAnalysisSymbol (List UInt8))}
    (h : CompFinds g mem fuel start parts cur rest r lens r') (hn : lens.sum < 2 ^ 64)
    (he : g.emplaceParts mem fuel' bytesOnly ctxLine start parts cur lens.sum startWithIgnore line
      symbols () s =
        .ok (splitSymbols mem bytesOnly ctxLine lens cur startWithIgnore line symbols (), s')) :
    FoundAgain g mem fuel' start parts lens cur s := by
  induction h generalizing s startWithIgnore line symbols with
  | nil => exact .nil _ _
  | @cons part parts cur rest len lens r t r' hpart _ ih =>
    rw [List.sum_cons] at hn he
    obtain ⟨⟨len', t'⟩, hfirst, he⟩ := stateT_bind_eq_ok.mp he
    have hsymbol := eq_of_suffixes (emplaceParts_suffix he) (splitSymbols_suffix lens)
    have hbytes : charBuf mem cur len' = charBuf mem cur len :=
      congrArg FklAnalysisSymbol.ast hsymbol
    obtain rfl : len' = len := by simpa [charBuf] using congrArg List.length hbytes
    dsimp only at he
    rw [sizeSub_add_left hn] at he
    exact .cons ((partMatch_iff hpart).mp hfirst) (ih (by omega) he)

/-- What `match_comp` has found is split in the same pieces exactly if its parts are found again in
the bytes they took. -/
theorem fklEmplaceAnalysisSymbol_splits_iff {n : Nat} (hn : n < 2 ^ 63)
    (h : g.matchComp mem fuel start parts cur rest 0 r = .ok (some n, r')) :
    ∃ lens, CompFinds g mem fuel start parts cur rest r lens r' ∧ lens.length = parts.length ∧
      lens.sum = n ∧ ∀ fuel', Splits g mem fuel' start parts lens cur ⟨r'.ctx, false⟩ ↔
        FoundAgain g mem fuel' start parts lens cur ⟨r'.ctx, false⟩ := by
  obtain ⟨lens, hlens, hsum⟩ := matchComp_some h
  rw [Nat.zero_add] at hsum
  subst hsum
  refine ⟨lens, hlens, hlens.length, rfl, fun fuel' => ⟨fun hs => ?_, fun ha => ?_⟩⟩
  · obtain ⟨s', he⟩ := hs Unit (List UInt8) bytesOnly [] false 0 ()
    exact foundAgain_of_emplaceParts hlens (by omega) he
  · intro σ α cb symbols startWithIgnore line outer
    exact emplaceParts_of_foundAgain hlens (by omega) ha

theorem CompFinds.matchComp (h : CompFinds g mem fuel start parts cur rest r lens r')
    (total : Nat) :
    g.matchComp mem fuel start parts cur rest total r = .ok (some (total + lens.sum), r') := by
  induction h generalizing total with
  | nil => rfl
  | cons hpart _ ih =>
    rw [matchComp_cons, List.sum_cons, ← Nat.add_assoc]
    exact stateT_bind_eq_ok.mpr ⟨_, hpart, ih _⟩

/-- Words that end at `;ab|` or at `|`, and a semicolon as a regular expression. -/
def crossingTerms : FklGrammerTerms where
  str _ := []
  ignores := []
  sortedDelimiters := [[59, 97, 98, 124], [124]]
  builtinMatch _ := .nodelimiter
  regexLexMatchp _ s := (if s.head? = some 59 then 1 else s.length + 1, false)

/-- A word, a semicolon and a word. -/
def crossingParts : List FklCompPart := [.builtin ⟨0, []⟩, .regex 0, .builtin ⟨0, []⟩]

/-- In `x;ab` there is no delimiter, and the word is all of it. -/
theorem word_split : ∃ lens r', CompFinds crossingTerms (bufferAt 1 [120, 59, 97, 98]) 10 1
    [.builtin ⟨0, []⟩] 1 4 ⟨⟨0, 0, 0⟩, false⟩ lens r' ∧ lens.sum = 4 ∧
      (Splits crossingTerms (bufferAt 1 [120, 59, 97, 98]) 10 1 [.builtin ⟨0, []⟩] lens 1
          ⟨r'.ctx, false⟩ ↔
        FoundAgain crossingTerms (bufferAt 1 [120, 59, 97, 98]) 10 1 [.builtin ⟨0, []⟩] lens 1
          ⟨r'.ctx, false⟩) := by
  obtain ⟨lens, hlens, -, hsum, hiff⟩ := fklEmplaceAnalysisSymbol_splits_iff (by decide)
    (show crossingTerms.matchComp (bufferAt 1 [120, 59, 97, 98]) 10 1 [.builtin ⟨0, []⟩] 1 4 0
      ⟨⟨0, 0, 0⟩, false⟩ = .ok (some 4, ⟨⟨4, 1, 1⟩, false⟩) from rfl)
  exact ⟨lens, _, hlens, hsum, hiff 10⟩

/-- In `x;ab|` the first word ends at a delimiter that reaches beyond the match. -/
theorem crossingParts_not_split :
    ¬∀ (g : FklGrammerTerms) (mem : Memory) (fuel start : Nat) (parts : List FklCompPart)
      (cur rest n : Nat) (r r' : MatchRun), n < 2 ^ 63 →
      g.matchComp mem fuel start parts cur rest 0 r = .ok (some n, r') →
        ∃ lens fuel', CompFinds g mem fuel start parts cur rest r lens r' ∧
          Splits g mem fuel' start parts lens cur ⟨r'.ctx, false⟩ := by
  intro h
  have hmatch : crossingTerms.matchComp (bufferAt 1 [120, 59, 97, 98, 124]) 10 1 crossingParts 1 5 0
      ⟨⟨0, 0, 0⟩, false⟩ = .ok (some 4, ⟨⟨2, 1, 3⟩, false⟩) := rfl
  obtain ⟨lens, fuel', hlens, hs⟩ := h _ _ _ _ _ _ _ _ _ _ (by decide) hmatch
  have hsum : lens.sum = 4 := by
    have htotal := (hlens.matchComp 0).symm.trans hmatch
    simpa using htotal
  obtain ⟨s', hs⟩ := hs Unit Unit noCallbacks [] false 1 ()
  rw [hsum] at hs
  cases fuel' with
  | zero => cases hs
  | succ n =>
    have hfailed : crossingTerms.fklEmplaceAnalysisSymbol (bufferAt 1 [120, 59, 97, 98, 124])
        (n + 1) noCallbacks [] (.comp crossingParts) 1 1 4 false 1 () ⟨⟨2, 1, 3⟩, false⟩ =
          .error .failed := rfl
    rw [hfailed] at hs
    cases hs

end FklGrammerTerms

end FakeLisp
