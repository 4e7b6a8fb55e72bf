import FakeLisp.ByteBuf
import FakeLisp.ClassWords
import FakeLisp.Terminals

/-! The number words against the regular expressions they are to be told by. A sign or an exponent
marker at the very end makes the tests look at the byte behind the word. -/

namespace FakeLisp.CharBuf

open Computability

def isSign (c : UInt8) : Bool := c = ch '-' || c = ch '+'

/-- `[-+]?` in front. -/
def signed (L : Language UInt8) : Language UInt8 := optional (oneOf isSign) * L

def byte (c : Char) : UInt8 → Bool := fun d => d = ch c

/-- A letter in its two cases. -/
def letter (c C : Char) : UInt8 → Bool := fun d => d = ch c || d = ch C

def nonZeroDigit (c : UInt8) : Bool := fklIsDigit c && c ≠ ch '0'

def octDigit (c : UInt8) : Bool := ch '0' ≤ c && c ≤ ch '7'

/-- `[-+]?(0|[1-9]\d*)` -/
def decIntWords : Language UInt8 :=
  signed (oneOf (byte '0') + oneOf nonZeroDigit * (oneOf fklIsDigit)∗)

/-- `[-+]?0[0-7]+` -/
def octIntWords : Language UInt8 := signed (oneOf (byte '0') * oneOrMore (oneOf octDigit))

/-- `[-+]?0[xX][0-9a-fA-F]+` -/
def hexIntWords : Language UInt8 :=
  signed (oneOf (byte '0') * (oneOf (letter 'x' 'X') * oneOrMore (oneOf fklIsXDigit)))

/-- `[eE][-+]?\d+` and `[pP][-+]?[0-9a-fA-F]+` -/
def exponentWords (marker digit : UInt8 → Bool) : Language UInt8 :=
  oneOf marker * signed (oneOrMore (oneOf digit))

/-- `[-+]?(\.\d+([eE][-+]?\d+)?|\d+(\.\d*([eE][-+]?\d+)?|[eE][-+]?\d+))`, whatever its exponents
are. -/
def decFloatOf (exponent : Language UInt8) : Language UInt8 :=
  signed (oneOf (byte '.') * (oneOrMore (oneOf fklIsDigit) * optional exponent) +
    oneOrMore (oneOf fklIsDigit) *
      (oneOf (byte '.') * ((oneOf fklIsDigit)∗ * optional exponent) + exponent))

def decFloatWords : Language UInt8 := decFloatOf (exponentWords (letter 'e' 'E') fklIsDigit)

/-- `0[xX]` behind a sign. -/
def hexSigned (L : Language UInt8) : Language UInt8 :=
  signed (oneOf (byte '0') * (oneOf (letter 'x' 'X') * L))

/-- `[-+]?0[xX](\.[0-9a-fA-F]+[pP][-+]?[0-9a-fA-F]+|[0-9a-fA-F]+(\.[0-9a-fA-F]*[pP][-+]?[0-9a-fA-F]+|[pP][-+]?[0-9a-fA-F]+))` -/
def hexFloatWords : Language UInt8 :=
  let exponent := exponentWords (letter 'p' 'P') fklIsXDigit
  hexSigned (oneOf (byte '.') * (oneOrMore (oneOf fklIsXDigit) * exponent) +
    oneOrMore (oneOf fklIsXDigit) *
      (oneOf (byte '.') * ((oneOf fklIsXDigit)∗ * exponent) + exponent))

/-! The words on which the tests go wrong. -/

/-- A decimal fraction, and an exponent marker as the last byte. -/
def decFloatOpen : Language UInt8 :=
  signed ((oneOf (byte '.') * oneOrMore (oneOf fklIsDigit) + oneOrMore (oneOf fklIsDigit) *
    (oneOf (byte '.') * (oneOf fklIsDigit)∗ + 1)) * oneOf (letter 'e' 'E'))

/-- A hexadecimal fraction of two bytes at least, and an exponent marker as the last byte. -/
def hexFloatOpen : Language UInt8 :=
  hexSigned ((oneOf (byte '.') * (oneOf fklIsXDigit * oneOrMore (oneOf fklIsXDigit)) +
    (oneOf fklIsXDigit * oneOrMore (oneOf fklIsXDigit) + oneOrMore (oneOf fklIsXDigit) *
      (oneOf (byte '.') * (oneOf fklIsXDigit)∗))) * oneOf (letter 'p' 'P'))

/-- An exponent of two bytes at least, without any digit before it. -/
def hexFloatEmpty : Language UInt8 :=
  hexSigned (oneOf (letter 'p' 'P') * (oneOf isSign * oneOrMore (oneOf fklIsXDigit) +
    oneOf fklIsXDigit * oneOrMore (oneOf fklIsXDigit)))

/-- The first bytes of a buffer. -/
def word (s : Memory) (maxLen : Nat) : List UInt8 := (List.range maxLen).map s

variable {s : Memory} {p marker : UInt8 → Bool} {idx n : Nat} {r : List UInt8} {c : UInt8}
  {L : Language UInt8}

theorem cellsAt_word (s : Memory) (n : Nat) : CellsAt s 0 (word s n) := by
  intro i c hc
  obtain ⟨hi, rfl⟩ := List.getElem?_eq_some_iff.mp hc
  simp [word]

theorem length_word (s : Memory) (n : Nat) : (word s n).length = n := by simp [word]

/-! ## The loops on the rest of the word -/

theorem skipWhile_eq (h : CellsAt s idx r) :
    skipWhile p s r.length idx = idx + (r.takeWhile p).length := by
  induction r generalizing idx with
  | nil => rfl
  | cons c r ih =>
    obtain ⟨hc, hr⟩ := cellsAt_cons.mp h
    rw [List.length_cons, skipWhile, hc]
    by_cases hp : p c = true
    · rw [if_pos hp, ih hr, List.takeWhile_cons_of_pos hp, List.length_cons]
      omega
    · rw [if_neg hp, List.takeWhile_cons_of_neg hp]
      rfl

theorem cellsAt_dropWhile (h : CellsAt s idx r) (p : UInt8 → Bool) :
    CellsAt s (idx + (r.takeWhile p).length) (r.dropWhile p) := by
  rw [← List.takeWhile_append_dropWhile (p := p) (l := r), cellsAt_append] at h
  exact h.2

theorem allFrom_eq (h : CellsAt s idx r) (hn : idx + r.length = n) :
    allFrom p s idx n = true ↔ ∀ c ∈ r, p c = true := by
  have hlen : n - idx = r.length := by omega
  have hmap := h.map_range
  rw [allFrom, hlen, List.all_eq_true]
  constructor
  · intro hall c hc
    rw [← hmap] at hc
    obtain ⟨i, hi, rfl⟩ := List.mem_map.mp hc
    exact hall i hi
  · intro hall i hi
    exact hall _ (hmap ▸ List.mem_map_of_mem hi)

theorem mem_signed (hL : NotFirst isSign L) {w : List UInt8} :
    w ∈ signed L ↔ stripHead isSign w ∈ L := mem_optional_oneOf_mul hL

/-- Behind a sign, if there is one in the word. -/
theorem skipSign_eq (h : CellsAt s idx r) (hn : idx + r.length = n) (hr : r ≠ []) :
    CellsAt s (skipSign s idx) (stripHead isSign r) ∧
      skipSign s idx + (stripHead isSign r).length = n := by
  obtain ⟨c, r, rfl⟩ := List.exists_cons_of_ne_nil hr
  obtain ⟨hc, htail⟩ := cellsAt_cons.mp h
  by_cases hsign : isSign c = true
  · have hor : s idx = ch '-' ∨ s idx = ch '+' := by simpa [hc, isSign] using hsign
    rw [skipSign, if_pos hor, stripHead, if_pos hsign]
    refine ⟨htail, ?_⟩
    rw [List.length_cons] at hn
    omega
  · have hor : ¬(s idx = ch '-' ∨ s idx = ch '+') := by simpa [hc, isSign] using hsign
    rw [skipSign, if_neg hor, stripHead, if_neg hsign]
    exact ⟨h, hn⟩

/-- The exponents that the tests take: at the end of the word the byte behind it may be a sign. -/
def exponentRun (marker digit : UInt8 → Bool) (next : UInt8) : Language UInt8 :=
  exponentWords marker digit + if isSign next then oneOf marker else 0

theorem isExponent_iff (hp : ∀ c, p c = true → isSign c = false) (h : CellsAt s idx (c :: r))
    (hn : idx + (c :: r).length = n) (hmax : n < 2 ^ 64) (hc : marker c = true) :
    isExponent p s idx n = true ↔ c :: r ∈ exponentRun marker p (s n) := by
  obtain ⟨-, hr⟩ := cellsAt_cons.mp h
  rw [List.length_cons, ← Nat.add_assoc, Nat.add_right_comm] at hn
  have hnot : NotFirst isSign (oneOrMore (oneOf p)) := notFirst_oneOrMore hp
  have hrun : c :: r ∈ exponentRun marker p (s n) ↔
      stripHead isSign r ∈ oneOrMore (oneOf p) ∨ isSign (s n) = true ∧ r = [] := by
    rw [exponentRun, Language.mem_add, exponentWords, cons_mem_oneOf_mul, mem_signed hnot]
    by_cases hsign : isSign (s n) = true
    · simp [hsign, mem_oneOf, hc]
    · have hzero : c :: r ∉ (0 : Language UInt8) := nofun
      simp [hsign, hc, hzero]
  rw [hrun, isExponent]
  by_cases hnil : r = []
  · subst hnil
    have hn' : idx + 1 = n := hn
    rw [hn']
    by_cases hsign : isSign (s n) = true
    · have hor : s n = ch '-' ∨ s n = ch '+' := by simpa [isSign] using hsign
      have hsub : ¬sizeSub n (n + 1) < 1 := by
        unfold sizeSub
        omega
      simp [skipSign, hor, hsub, hsign, allFrom]
    · have hor : ¬(s n = ch '-' ∨ s n = ch '+') := by simpa [isSign] using hsign
      have hsub : sizeSub n n < 1 := by
        unfold sizeSub
        omega
      simp [skipSign, hor, hsub, hsign, stripHead, mem_oneOrMore_oneOf]
  · obtain ⟨hat, hlen⟩ := skipSign_eq hr hn hnil
    have hsub : sizeSub n (skipSign s (idx + 1)) = (stripHead isSign r).length := by
      unfold sizeSub
      omega
    rw [mem_oneOrMore_oneOf]
    simp only [hsub, hnil, and_false, or_false]
    by_cases hempty : stripHead isSign r = []
    · simp [hempty]
    · have hpos := List.length_pos_iff.mpr hempty
      rw [if_neg (by omega), allFrom_eq hat hlen]
      simp [hempty]

/-! ## The five tests -/

theorem letter_iff {m M : Char} : letter m M c = true ↔ c = ch m ∨ c = ch M := by simp [letter]

theorem not_of_letter {m M : Char} (hm : p (ch m) = false) (hM : p (ch M) = false) (c : UInt8)
    (h : letter m M c = true) : p c = false := by
  rcases letter_iff.mp h with rfl | rfl
  · exact hm
  · exact hM

theorem not_letter_of {m M : Char} (hm : p (ch m) = false) (hM : p (ch M) = false) (c : UInt8)
    (h : p c = true) : letter m M c = false := by
  cases hc : letter m M c with
  | false => rfl
  | true => exact absurd h (by simp [not_of_letter hm hM c hc])

theorem digit_not_sign : ∀ c, fklIsDigit c = true → isSign c = false :=
  not_letter_of (m := '-') (M := '+') rfl rfl

theorem xDigit_not_sign : ∀ c, fklIsXDigit c = true → isSign c = false :=
  not_letter_of (m := '-') (M := '+') rfl rfl

theorem byte_not_sign {b : Char} (hb : isSign (ch b) = false) (c : UInt8) (h : byte b c = true) :
    isSign c = false := of_decide_eq_true h ▸ hb

theorem zero_not_sign (c : UInt8) (h : byte '0' c = true) : isSign c = false :=
  byte_not_sign (by decide) c h

/-- The rest of a word that is not empty, behind its sign. -/
theorem skipSign_word (s : Memory) (hn : n ≠ 0) : ∃ r, stripHead isSign (word s n) = r ∧
    CellsAt s (skipSign s 0) r ∧ skipSign s 0 + r.length = n := by
  have hne : word s n ≠ [] := by
    rw [← List.length_pos_iff, length_word]
    exact Nat.pos_of_ne_zero hn
  have hlen : 0 + (word s n).length = n := by rw [length_word, Nat.zero_add]
  exact ⟨_, rfl, skipSign_eq (cellsAt_word s n) hlen hne⟩

theorem length_stripHead_le (p : UInt8 → Bool) (w : List UInt8) : (stripHead p w).length ≤ w.length := by
  cases w with
  | nil => exact Nat.le_refl 0
  | cons c w =>
    rw [stripHead]
    split_ifs
    · exact Nat.le_succ _
    · exact Nat.le_refl _

/-- The tests whose words have a least length: it is looked at with the sign and without. -/
theorem signedTest_iff (k : Nat) (F : Nat → Bool) (hk : 0 < k) (hnot : NotFirst isSign L)
    (hshort : ∀ r ∈ L, k ≤ r.length)
    (hF : ∀ idx r, CellsAt s idx r → idx + r.length = n → k ≤ r.length → (F idx = true ↔ r ∈ L)) :
    (if n < k then false
      else if n - skipSign s 0 < k then false else F (skipSign s 0)) = true ↔
      word s n ∈ signed L := by
  rw [mem_signed hnot]
  by_cases hn : n < k
  · rw [if_pos hn]
    refine iff_of_false Bool.false_ne_true fun hmem => ?_
    have hle := length_stripHead_le isSign (word s n)
    have hlong := hshort _ hmem
    rw [length_word] at hle
    omega
  · rw [if_neg hn]
    obtain ⟨r, hstrip, hat, hlen⟩ := skipSign_word s (show n ≠ 0 by omega)
    rw [hstrip]
    by_cases hr : n - skipSign s 0 < k
    · rw [if_pos hr]
      refine iff_of_false Bool.false_ne_true fun hmem => ?_
      have hlong := hshort _ hmem
      omega
    · rw [if_neg hr]
      exact hF _ r hat hlen (by omega)

theorem fklIsOctInt_iff (s : Memory) (n : Nat) : fklIsOctInt s n = true ↔ word s n ∈ octIntWords := by
  refine signedTest_iff 2 (fun idx => s idx = ch '0' && allFrom octDigit s (idx + 1) n) (by decide)
    (notFirst_oneOf_mul zero_not_sign) ?_ ?_
  · intro r hr
    obtain ⟨c, t, rfl, -, ht⟩ := mem_oneOf_mul.mp hr
    have hpos := List.length_pos_iff.mpr (mem_oneOrMore_oneOf.mp ht).1
    rw [List.length_cons]
    omega
  · intro idx r hat hlen hk
    match r, hk with
    | c :: d :: r, _ =>
      obtain ⟨hc, hr⟩ := cellsAt_cons.mp hat
      rw [List.length_cons] at hlen
      have hall := allFrom_eq (p := octDigit) hr (show idx + 1 + (d :: r).length = n by omega)
      rw [cons_mem_oneOf_mul, mem_oneOrMore_oneOf, Bool.and_eq_true, hc]
      simp only [ne_eq, List.cons_ne_nil, not_false_eq_true, true_and]
      exact and_congr_right fun _ => hall

theorem fklIsHexInt_iff (s : Memory) (n : Nat) : fklIsHexInt s n = true ↔ word s n ∈ hexIntWords := by
  refine signedTest_iff 3 (fun idx => s idx = ch '0' &&
    (s (idx + 1) = ch 'x' || s (idx + 1) = ch 'X') && allFrom fklIsXDigit s (idx + 2) n) (by decide)
    (notFirst_oneOf_mul zero_not_sign) ?_ ?_
  · intro r hr
    obtain ⟨c, t, rfl, -, ht⟩ := mem_oneOf_mul.mp hr
    obtain ⟨d, t, rfl, -, ht⟩ := mem_oneOf_mul.mp ht
    have hpos := List.length_pos_iff.mpr (mem_oneOrMore_oneOf.mp ht).1
    simp only [List.length_cons]
    omega
  · intro idx r hat hlen hk
    match r, hk with
    | c :: d :: e :: r, _ =>
      obtain ⟨hc, hr⟩ := cellsAt_cons.mp hat
      obtain ⟨hd, hr⟩ := cellsAt_cons.mp hr
      simp only [List.length_cons] at hlen
      have hall := allFrom_eq (p := fklIsXDigit) hr
        (show idx + 1 + 1 + (e :: r).length = n by simp only [List.length_cons]; omega)
      rw [cons_mem_oneOf_mul, cons_mem_oneOf_mul, mem_oneOrMore_oneOf, Bool.and_eq_true,
        Bool.and_eq_true, hc, hd, and_assoc]
      simp only [ne_eq, List.cons_ne_nil, not_false_eq_true, true_and]
      exact and_congr_right fun _ => and_congr_right fun _ => hall

theorem nonZeroDigit_not_sign (c : UInt8) (h : nonZeroDigit c = true) : isSign c = false :=
  digit_not_sign c (Bool.and_eq_true _ _ ▸ h).1

theorem notFirst_sign_decInt :
    NotFirst isSign (oneOf (byte '0') + oneOf nonZeroDigit * (oneOf fklIsDigit)∗) := by
  refine NotFirst.add ?_ (notFirst_oneOf_mul nonZeroDigit_not_sign)
  rintro c r ⟨d, hd, heq⟩
  obtain ⟨rfl, -⟩ := List.cons.inj heq
  exact zero_not_sign c hd

/-- A sign alone is taken for a number when a digit that is not zero stands behind the word. -/
theorem fklIsDecInt_iff (s : Memory) (n : Nat) : fklIsDecInt s n = true ↔
    word s n ∈ decIntWords ∨ word s n ∈ oneOf isSign ∧ nonZeroDigit (s n) = true := by
  have hnil : [] ∉ oneOf (byte '0') + oneOf nonZeroDigit * (oneOf fklIsDigit)∗ := by
    rw [Language.mem_add]
    simp [mem_oneOf]
  rw [decIntWords, mem_signed notFirst_sign_decInt, fklIsDecInt]
  by_cases hn : n = 0
  · subst hn
    rw [if_pos rfl]
    refine iff_of_false Bool.false_ne_true (not_or.mpr ⟨hnil, ?_⟩)
    simp [word, mem_oneOf]
  · rw [if_neg hn]
    obtain ⟨r, hstrip, hat, hlen⟩ := skipSign_word s hn
    have hsign : word s n ∈ oneOf isSign ↔ r = [] := by
      rw [mem_oneOf, ← hstrip]
      have hne : word s n ≠ [] := by
        rw [← List.length_pos_iff, length_word]
        exact Nat.pos_of_ne_zero hn
      obtain ⟨c, t, hw⟩ := List.exists_cons_of_ne_nil hne
      rw [hw, stripHead]
      split_ifs with hc
      · simp [hc]
      · simp [hc]
    rw [hstrip, hsign]
    cases r with
    | nil =>
      have hidx : skipSign s 0 = n := hlen
      have hzero : ∀ m, allFrom fklIsDigit s (m + 1) m = true := by simp [allFrom]
      rw [or_iff_right hnil]
      by_cases hz : s n = ch '0'
      · simp [hidx, hz, nonZeroDigit]
      · simp [hidx, hz, hzero, nonZeroDigit]
    | cons c r =>
      obtain ⟨hc, hr⟩ := cellsAt_cons.mp hat
      rw [List.length_cons] at hlen
      have hall := allFrom_eq (p := fklIsDigit) hr (show skipSign s 0 + 1 + r.length = n by omega)
      have hend : skipSign s 0 + 1 = n ↔ r = [] := by
        rw [← List.length_eq_zero_iff]
        omega
      rw [Language.mem_add, cons_mem_oneOf_mul, mem_kstar_oneOf]
      by_cases hz : c = ch '0'
      · simp [hc, hz, hend, mem_oneOf, byte, nonZeroDigit]
      · simp [hc, hz, hall, mem_oneOf, byte, nonZeroDigit]

/-! ## Fractions and exponents -/

theorem notFirst_exponentRun {next : UInt8} {digit : UInt8 → Bool}
    (hp : ∀ c, marker c = true → p c = false) : NotFirst p (exponentRun marker digit next) := by
  refine NotFirst.add (notFirst_oneOf_mul hp) ?_
  split_ifs
  · rintro c r ⟨d, hd, heq⟩
    obtain ⟨rfl, -⟩ := List.cons.inj heq
    exact hp c hd
  · nofun

theorem nil_not_mem_exponentRun {next : UInt8} {digit : UInt8 → Bool} :
    [] ∉ exponentRun marker digit next := by
  rw [exponentRun, Language.mem_add]
  rintro (h | h)
  · exact nil_not_mem_oneOf_mul h
  · split_ifs at h
    · obtain ⟨c, -, heq⟩ := h
      cases heq
    · exact h

theorem marker_of_mem_exponentRun {next : UInt8} {digit : UInt8 → Bool}
    (h : c :: r ∈ exponentRun marker digit next) : marker c = true := by
  by_contra hc
  have hnot : NotFirst (fun d => d = c) (exponentRun marker digit next) := by
    refine notFirst_exponentRun ?_
    intro d hd
    refine decide_eq_false ?_
    rintro rfl
    exact hc hd
  simpa using hnot c r h

/-- The exponent where a fraction has come to an end before the word. -/
theorem exponentAt_iff {m M : Char} (hp : ∀ c, p c = true → isSign c = false) (h : CellsAt s idx r)
    (hn : idx + r.length = n) (hmax : n < 2 ^ 64) (hne : r ≠ []) :
    (if s idx = ch m ∨ s idx = ch M then isExponent p s idx n else false) = true ↔
      r ∈ exponentRun (letter m M) p (s n) := by
  obtain ⟨c, t, rfl⟩ := List.exists_cons_of_ne_nil hne
  rw [(cellsAt_cons.mp h).1]
  by_cases hm : c = ch m ∨ c = ch M
  · rw [if_pos hm]
    exact isExponent_iff hp h hn hmax (letter_iff.mpr hm)
  · rw [if_neg hm]
    exact iff_of_false Bool.false_ne_true fun hmem =>
      hm (letter_iff.mp (marker_of_mem_exponentRun hmem))

theorem byte_iff {b : Char} : byte b c = true ↔ c = ch b := decide_eq_true_iff

/-- A fraction with its end: behind the point at its head, behind its whole part and a point, or
behind its whole part alone. -/
theorem mem_fraction_iff {E F : Language UInt8} (hp : p (ch '.') = false) (hE : NotFirst p E)
    (hF : NotFirst p F) :
    r ∈ oneOf (byte '.') * (oneOrMore (oneOf p) * F) +
        oneOrMore (oneOf p) * (oneOf (byte '.') * ((oneOf p)∗ * F) + E) ↔
      (∃ t, r = ch '.' :: t ∧ t.takeWhile p ≠ [] ∧ t.dropWhile p ∈ F) ∨
      r.takeWhile p ≠ [] ∧
        ((∃ t, r.dropWhile p = ch '.' :: t ∧ t.dropWhile p ∈ F) ∨ r.dropWhile p ∈ E) := by
  have hdot : ∀ c, byte '.' c = true → p c = false := fun c hc => byte_iff.mp hc ▸ hp
  have hrest : NotFirst p (oneOf (byte '.') * ((oneOf p)∗ * F) + E) :=
    (notFirst_oneOf_mul hdot).add hE
  rw [Language.mem_add, mem_oneOrMore_oneOf_mul hrest, Language.mem_add, mem_oneOf_mul, mem_oneOf_mul]
  simp only [mem_oneOrMore_oneOf_mul hF, mem_kstar_oneOf_mul hF, byte_iff]
  constructor
  · rintro (⟨c, t, rfl, rfl, ht⟩ | ⟨hne, ⟨c, t, hr, rfl, ht⟩ | h⟩)
    · exact .inl ⟨t, rfl, ht⟩
    · exact .inr ⟨hne, .inl ⟨t, hr, ht⟩⟩
    · exact .inr ⟨hne, .inr h⟩
  · rintro (⟨t, rfl, ht⟩ | ⟨hne, ⟨t, hr, ht⟩ | h⟩)
    · exact .inl ⟨_, t, rfl, rfl, ht⟩
    · exact .inr ⟨hne, .inl ⟨_, t, hr, rfl, ht⟩⟩
    · exact .inr ⟨hne, .inr h⟩

theorem length_takeWhile_add (p : UInt8 → Bool) (r : List UInt8) :
    (r.takeWhile p).length + (r.dropWhile p).length = r.length := by
  have hsplit := congrArg List.length (List.takeWhile_append_dropWhile (p := p) (l := r))
  rwa [List.length_append] at hsplit

/-- The loop over digits stops at the end of the word or at its first other byte. -/
theorem skipDigits (h : CellsAt s idx r) (hn : idx + r.length = n) (p : UInt8 → Bool) :
    skipWhile p s (n - idx) idx = idx + (r.takeWhile p).length ∧
      idx + (r.takeWhile p).length + (r.dropWhile p).length = n := by
  have hlen : n - idx = r.length := by omega
  have hsplit := length_takeWhile_add p r
  rw [hlen, skipWhile_eq h]
  exact ⟨rfl, by omega⟩

/-- `after_dot` of the decimal test, and what is behind the sign. -/
def decAfterDot (s : Memory) (n idx : Nat) : Bool :=
  let idx := skipWhile fklIsDigit s (n - idx) idx
  if idx = n then true
  else if s idx = ch 'e' ∨ s idx = ch 'E' then isExponent fklIsDigit s idx n else false

def decBehindSign (s : Memory) (n idx : Nat) : Bool :=
  if s idx = ch '.' then
    if s (idx + 1) = ch 'e' ∨ s (idx + 1) = ch 'E' then false else decAfterDot s n (idx + 1)
  else
    let end_ := skipWhile fklIsDigit s (n - idx) idx
    if end_ = n ∨ end_ = idx then false
    else if s end_ = ch '.' then decAfterDot s n (end_ + 1)
    else if s end_ = ch 'e' ∨ s end_ = ch 'E' then isExponent fklIsDigit s end_ n else false

/-- `after_dot` of the hexadecimal test, and what is behind the `0x`. -/
def hexAfterDot (s : Memory) (n idx : Nat) : Bool :=
  let idx := skipWhile fklIsXDigit s (n - idx) idx
  if idx = n then false
  else if s idx = ch 'p' ∨ s idx = ch 'P' then isExponent fklIsXDigit s idx n else false

def hexBehindX (s : Memory) (n idx : Nat) : Bool :=
  if s idx = ch '.' then
    if n - (idx + 1) < 3 ∨ s (idx + 1) = ch 'p' ∨ s (idx + 1) = ch 'P' then false
    else hexAfterDot s n (idx + 1)
  else
    let end_ := skipWhile fklIsXDigit s (n - idx) idx
    if end_ = n then false
    else if s end_ = ch '.' then hexAfterDot s n (end_ + 1)
    else if s end_ = ch 'p' ∨ s end_ = ch 'P' then isExponent fklIsXDigit s end_ n else false

theorem decAfterDot_iff (h : CellsAt s idx r) (hn : idx + r.length = n) (hmax : n < 2 ^ 64) :
    decAfterDot s n idx = true ↔
      r.dropWhile fklIsDigit ∈ optional (exponentRun (letter 'e' 'E') fklIsDigit (s n)) := by
  obtain ⟨hskip, hend⟩ := skipDigits h hn fklIsDigit
  rw [decAfterDot, hskip, mem_optional]
  by_cases hnil : r.dropWhile fklIsDigit = []
  · simp only [hnil, List.length_nil, Nat.add_zero] at hend
    simp [hnil, hend]
  · have hpos := List.length_pos_iff.mpr hnil
    rw [if_neg (by omega), or_iff_right hnil]
    exact exponentAt_iff digit_not_sign (cellsAt_dropWhile h fklIsDigit) hend hmax hnil

theorem hexAfterDot_iff (h : CellsAt s idx r) (hn : idx + r.length = n) (hmax : n < 2 ^ 64) :
    hexAfterDot s n idx = true ↔
      r.dropWhile fklIsXDigit ∈ exponentRun (letter 'p' 'P') fklIsXDigit (s n) := by
  obtain ⟨hskip, hend⟩ := skipDigits h hn fklIsXDigit
  rw [hexAfterDot, hskip]
  by_cases hnil : r.dropWhile fklIsXDigit = []
  · simp only [hnil, List.length_nil, Nat.add_zero] at hend
    rw [if_pos hend, hnil]
    exact iff_of_false Bool.false_ne_true nil_not_mem_exponentRun
  · have hpos := List.length_pos_iff.mpr hnil
    rw [if_neg (by omega)]
    exact exponentAt_iff xDigit_not_sign (cellsAt_dropWhile h fklIsXDigit) hend hmax hnil

theorem e_not_digit : ∀ c, letter 'e' 'E' c = true → fklIsDigit c = false := not_of_letter rfl rfl

theorem p_not_xDigit : ∀ c, letter 'p' 'P' c = true → fklIsXDigit c = false := not_of_letter rfl rfl

theorem notFirst_sign_dot : NotFirst isSign (oneOf (byte '.') * L) :=
  notFirst_oneOf_mul (byte_not_sign (by decide))

/-- Behind the digits in front: a point, or an exponent. -/
theorem wholePart_iff {m M : Char} {F : Language UInt8} {after : Nat → Bool}
    (hp : ∀ c, p c = true → isSign c = false) (hdot : letter m M (ch '.') = false)
    (h : CellsAt s idx r) (hn : idx + r.length = n) (hmax : n < 2 ^ 64)
    (hafter : ∀ idx t, CellsAt s idx t → idx + t.length = n →
      (after idx = true ↔ t.dropWhile p ∈ F)) :
    (if idx + (r.takeWhile p).length = n then false
      else if s (idx + (r.takeWhile p).length) = ch '.' then
        after (idx + (r.takeWhile p).length + 1)
      else if s (idx + (r.takeWhile p).length) = ch m ∨ s (idx + (r.takeWhile p).length) = ch M then
        isExponent p s (idx + (r.takeWhile p).length) n
      else false) = true ↔
    (∃ t, r.dropWhile p = ch '.' :: t ∧ t.dropWhile p ∈ F) ∨
      r.dropWhile p ∈ exponentRun (letter m M) p (s n) := by
  have hend := (skipDigits h hn p).2
  have hat := cellsAt_dropWhile h p
  generalize r.dropWhile p = rest at hend hat
  cases rest with
  | nil =>
    rw [List.length_nil, Nat.add_zero] at hend
    rw [if_pos hend]
    refine iff_of_false Bool.false_ne_true (not_or.mpr ⟨?_, nil_not_mem_exponentRun⟩)
    rintro ⟨t, ht, -⟩
    cases ht
  | cons c t =>
    obtain ⟨hc, ht⟩ := cellsAt_cons.mp hat
    have hexp := exponentAt_iff (m := m) (M := M) hp hat hend hmax (List.cons_ne_nil c t)
    rw [List.length_cons] at hend
    rw [if_neg (by omega)]
    by_cases hpoint : c = ch '.'
    · subst hpoint
      have hnot : ch '.' :: t ∉ exponentRun (letter m M) p (s n) := fun hmem => by
        rw [marker_of_mem_exponentRun hmem] at hdot
        cases hdot
      rw [if_pos hc, hafter _ t ht (by omega), or_iff_left hnot]
      simp
    · rw [if_neg (hc ▸ hpoint), hexp]
      refine (or_iff_right ?_).symm
      rintro ⟨u, hu, -⟩
      exact hpoint (List.cons.inj hu).1

/-- Digits in front, or a point and a digit. -/
theorem decBehindSign_iff (h : CellsAt s idx r) (hn : idx + r.length = n) (hmax : n < 2 ^ 64)
    (hk : 2 ≤ r.length) :
    decBehindSign s n idx = true ↔
      (∃ t, r = ch '.' :: t ∧ t.takeWhile fklIsDigit ≠ [] ∧
        t.dropWhile fklIsDigit ∈ optional (exponentRun (letter 'e' 'E') fklIsDigit (s n))) ∨
      r.takeWhile fklIsDigit ≠ [] ∧
        ((∃ t, r.dropWhile fklIsDigit = ch '.' :: t ∧
          t.dropWhile fklIsDigit ∈ optional (exponentRun (letter 'e' 'E') fklIsDigit (s n))) ∨
        r.dropWhile fklIsDigit ∈ exponentRun (letter 'e' 'E') fklIsDigit (s n)) := by
  match r, hk with
  | c :: d :: r, _ =>
    obtain ⟨hc, hr⟩ := cellsAt_cons.mp h
    have hd := (cellsAt_cons.mp hr).1
    by_cases hdot : c = ch '.'
    · subst hdot
      have htake : (ch '.' :: d :: r).takeWhile fklIsDigit = [] :=
        List.takeWhile_cons_of_neg (by decide)
      rw [htake, decBehindSign, if_pos hc, hd]
      simp only [List.cons.injEq, true_and, exists_eq_left', ne_eq, not_true_eq_false, false_and,
        or_false]
      by_cases he : d = ch 'e' ∨ d = ch 'E'
      · have hnot : ¬fklIsDigit d = true := by simp [e_not_digit d (letter_iff.mpr he)]
        rw [if_pos he, List.takeWhile_cons_of_neg hnot]
        simp
      · have hlen : idx + 1 + (d :: r).length = n := by
          rw [List.length_cons] at hn
          omega
        rw [if_neg he, decAfterDot_iff hr hlen hmax, iff_and_self]
        intro hmem hempty
        have hnot : ¬fklIsDigit d = true := by
          intro hdigit
          rw [List.takeWhile_cons_of_pos hdigit] at hempty
          cases hempty
        rw [List.dropWhile_cons_of_neg hnot, mem_optional] at hmem
        rcases hmem with hmem | hmem
        · cases hmem
        · exact he (letter_iff.mp (marker_of_mem_exponentRun hmem))
    · have hwhole := wholePart_iff (m := 'e') (M := 'E') digit_not_sign (by decide) h hn hmax
        fun idx t ht hlen => decAfterDot_iff ht hlen hmax
      have hskip := (skipDigits h hn fklIsDigit).1
      have hnot : ∀ t, c :: d :: r ≠ ch '.' :: t := fun t heq => hdot (List.cons.inj heq).1
      simp only [hnot, false_and, exists_false, false_or]
      rw [← hwhole, decBehindSign, if_neg (hc ▸ hdot), hskip]
      by_cases hempty : (c :: d :: r).takeWhile fklIsDigit = []
      · simp [hempty]
      · have hpos := List.length_pos_iff.mpr hempty
        have hne : idx + ((c :: d :: r).takeWhile fklIsDigit).length ≠ idx := by omega
        simp only [hne, or_false, hempty, ne_eq, not_false_eq_true, true_and]

/-- No point or exponent is a fraction alone. -/
theorem fklIsDecFloat_run (s : Memory) (hmax : n < 2 ^ 64) : fklIsDecFloat s n = true ↔
    word s n ∈ decFloatOf (exponentRun (letter 'e' 'E') fklIsDigit (s n)) := by
  have hE : NotFirst fklIsDigit (exponentRun (letter 'e' 'E') fklIsDigit (s n)) :=
    notFirst_exponentRun e_not_digit
  refine signedTest_iff 2 (decBehindSign s n) (by decide)
    (notFirst_sign_dot.add (notFirst_oneOrMore_mul digit_not_sign)) ?_ ?_
  · intro r hr
    rw [mem_fraction_iff (by decide) hE hE.optional] at hr
    rcases hr with ⟨t, rfl, hne, -⟩ | ⟨hne, hrest⟩
    · match t, hne with
      | c :: t, _ => simp
    · have hpos := List.length_pos_iff.mpr hne
      have hrest' : r.dropWhile fklIsDigit ≠ [] := by
        rcases hrest with ⟨t, ht, -⟩ | hmem
        · rw [ht]
          exact List.cons_ne_nil _ _
        · rintro hnil
          exact nil_not_mem_exponentRun (hnil ▸ hmem)
      have hpos' := List.length_pos_iff.mpr hrest'
      have hsplit := length_takeWhile_add fklIsDigit r
      omega
  · intro idx r h hn hk
    rw [mem_fraction_iff (by decide) hE hE.optional]
    exact decBehindSign_iff h hn hmax hk

theorem hexBehindX_iff (h : CellsAt s idx r) (hn : idx + r.length = n) (hmax : n < 2 ^ 64)
    (hk : 3 ≤ r.length) :
    hexBehindX s n idx = true ↔
      (∃ t, r = ch '.' :: t ∧ 3 ≤ t.length ∧ t.takeWhile fklIsXDigit ≠ [] ∧
        t.dropWhile fklIsXDigit ∈ exponentRun (letter 'p' 'P') fklIsXDigit (s n)) ∨
      (r.takeWhile fklIsXDigit ≠ [] ∧ ∃ t, r.dropWhile fklIsXDigit = ch '.' :: t ∧
        t.dropWhile fklIsXDigit ∈ exponentRun (letter 'p' 'P') fklIsXDigit (s n)) ∨
      r.dropWhile fklIsXDigit ∈ exponentRun (letter 'p' 'P') fklIsXDigit (s n) := by
  match r, hk with
  | c :: d :: r, _ =>
    obtain ⟨hc, hr⟩ := cellsAt_cons.mp h
    have hd := (cellsAt_cons.mp hr).1
    by_cases hdot : c = ch '.'
    · subst hdot
      have hnot : ¬fklIsXDigit (ch '.') = true := by decide
      have hrun : ch '.' :: d :: r ∉ exponentRun (letter 'p' 'P') fklIsXDigit (s n) := by
        intro hmem
        cases marker_of_mem_exponentRun hmem
      have hlen : idx + 1 + (d :: r).length = n := by
        rw [List.length_cons] at hn
        omega
      have hsub : n - (idx + 1) = (d :: r).length := by omega
      rw [List.takeWhile_cons_of_neg hnot, List.dropWhile_cons_of_neg hnot, hexBehindX, if_pos hc, hd,
        hsub]
      simp only [List.cons.injEq, true_and, exists_eq_left', ne_eq, not_true_eq_false, false_and,
        hrun, or_false]
      by_cases hshort : (d :: r).length < 3
      · rw [if_pos (Or.inl hshort)]
        refine iff_of_false Bool.false_ne_true ?_
        rintro ⟨hlong, -⟩
        omega
      · by_cases hp : d = ch 'p' ∨ d = ch 'P'
        · have hdigit : ¬fklIsXDigit d = true := by simp [p_not_xDigit d (letter_iff.mpr hp)]
          rw [if_pos (Or.inr hp), List.takeWhile_cons_of_neg hdigit]
          simp
        · rw [if_neg (not_or.mpr ⟨hshort, hp⟩), hexAfterDot_iff hr hlen hmax]
          have hlong : 3 ≤ (d :: r).length := by omega
          simp only [hlong, true_and, iff_and_self]
          intro hmem hempty
          have hdigit : ¬fklIsXDigit d = true := by
            intro hdigit
            rw [List.takeWhile_cons_of_pos hdigit] at hempty
            cases hempty
          rw [List.dropWhile_cons_of_neg hdigit] at hmem
          exact hp (letter_iff.mp (marker_of_mem_exponentRun hmem))
    · have hwhole := wholePart_iff (m := 'p') (M := 'P') xDigit_not_sign (by decide) h hn hmax
        fun idx t ht hlen => hexAfterDot_iff ht hlen hmax
      have hskip := (skipDigits h hn fklIsXDigit).1
      have hnot : ∀ t, c :: d :: r ≠ ch '.' :: t := fun t heq => hdot (List.cons.inj heq).1
      simp only [hnot, false_and, exists_false, false_or]
      rw [hexBehindX, if_neg (hc ▸ hdot), hskip]
      refine hwhole.trans (or_congr_left (iff_and_self.mpr ?_))
      rintro ⟨t, ht, -⟩ hempty
      have hsplit := List.takeWhile_append_dropWhile (p := fklIsXDigit) (l := c :: d :: r)
      rw [hempty, List.nil_append, ht] at hsplit
      exact hnot t hsplit.symm

end FakeLisp.CharBuf
