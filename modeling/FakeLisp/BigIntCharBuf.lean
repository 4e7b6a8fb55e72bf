import FakeLisp.BigIntParse
import FakeLisp.EscapeChars
import FakeLisp.NumberWords

/-! The parsers of big integers on the texts that the classifiers take for integers, with a block
of their own or one that a callback allocates. -/

namespace FakeLisp

open CharBuf (word isSign octDigit digitOf)

/-! The parsers with callbacks. `alloc n` is what stands in the block of `n` words. -/

def bigintNormalize2 (num : Int) (digits : Nat → Nat) : Int :=
  let i : Int := normalizeLen digits (fklAbs num).toNat
  if num < 0 then -i else i

section

variable (alloc : Nat → Nat → Nat)

def fklInitBigIntWithOctCharBuf2 (buf : List Char) : Option FklBigInt := do
  let cs := ((skipSign buf).drop 1).dropWhile (· = '0')
  let actualLen := cs.length
  let highLen := actualLen % digitOctCount
  let totalLen := actualLen / digitOctCount + (if 0 < highLen then 1 else 0)
  let bdigits := alloc totalLen
  if totalLen = 0 then some ⟨bdigits, totalLen, totalLen, true⟩
  else do
    let s ← storeDown bdigits totalLen (octDigits (cs.take highLen))
    let pdigits ← octLoop actualLen (cs.drop highLen) s.2 s.1
    let bnum := bigintNormalize2 totalLen pdigits
    some ⟨pdigits, if isNegText buf then -bnum else bnum, totalLen, true⟩

def fklInitBigIntWithHexCharBuf2 (buf : List Char) : Option FklBigInt := do
  let cs := ((skipSign buf).drop 2).dropWhile (· = '0')
  let digitsCount := (cs.length * hexBitCount + digitShift - 1) / digitShift
  let bdigits := alloc digitsCount
  let s ← hexLoop digitsCount cs ⟨bdigits, 0, 0, 0⟩
  let s ← s.flush digitsCount
  let pdigits := fun i => if s.idx ≤ i ∧ i < digitsCount then 0 else s.pdigits i
  let bnum := bigintNormalize2 digitsCount pdigits
  some ⟨pdigits, if isNegText buf then -bnum else bnum, digitsCount, true⟩

def fklInitBigIntWithDecCharBuf2 (buf : List Char) : Option FklBigInt := do
  let b ← fklInitBigIntWithDecCharBuf buf
  fklSetBigInt ⟨alloc b.size, 0, b.size, true⟩ b

end

/-! What is written. -/

/-- The bytes of a word as the characters that the parsers read. -/
def wordText (w : List UInt8) : List Char := w.map fun c => Char.ofNat c.toNat

/-- A sign, `skip` bytes that tell the radix, and digits. -/
def writtenInt (radix skip : Nat) (w : List UInt8) : Int :=
  signedNat (w.head? = some (ch '-'))
    (numeral radix (((stripHead isSign w).drop skip).map digitOf))

/-- The normalized number of this value is built, and nothing is stored outside of its block. -/
def Builds (r : Option FklBigInt) (v : Int) : Prop := ∃ b, r = some b ∧ b.Normalized ∧ b.value = v

/-- What a classifier takes for an integer is read as it by both parsers of the radix. -/
def ParsersRight (alloc : Nat → Nat → Nat) (s : Memory) (n : Nat) : Prop :=
  let buf := wordText (word s n)
  (CharBuf.fklIsDecInt s n = true →
    Builds (fklInitBigIntWithDecCharBuf buf) (writtenInt 10 0 (word s n)) ∧
      Builds (fklInitBigIntWithDecCharBuf2 alloc buf) (writtenInt 10 0 (word s n))) ∧
  (CharBuf.fklIsOctInt s n = true →
    Builds (fklInitBigIntWithOctCharBuf buf) (writtenInt 8 1 (word s n)) ∧
      Builds (fklInitBigIntWithOctCharBuf2 alloc buf) (writtenInt 8 1 (word s n))) ∧
  (CharBuf.fklIsHexInt s n = true →
    Builds (fklInitBigIntWithHexCharBuf buf) (writtenInt 16 2 (word s n)) ∧
      Builds (fklInitBigIntWithHexCharBuf2 alloc buf) (writtenInt 16 2 (word s n)))

/-- The digits behind the leading zeros. -/
def significant (skip : Nat) (w : List UInt8) : List UInt8 :=
  ((stripHead isSign w).drop skip).dropWhile (· = ch '0')

/-! Bytes and characters. -/

/-- A sign and a zero are the same byte and character, and so are the digits. -/
theorem byte_char : ∀ c : UInt8,
    (Char.ofNat c.toNat = '-' ↔ c = ch '-') ∧ (Char.ofNat c.toNat = '+' ↔ c = ch '+') ∧
      (Char.ofNat c.toNat = '0' ↔ c = ch '0') ∧
      (CharBuf.fklIsDigit c = true → fklIsDigit (Char.ofNat c.toNat) = true) ∧
      (CharBuf.fklIsXDigit c = true →
        digitValue (Char.ofNat c.toNat) = digitOf c ∧ digitOf c < 16) ∧
      (octDigit c = true → CharBuf.fklIsXDigit c = true ∧ digitOf c < 8) := by
  refine forall_byte ?_
  decide +kernel

theorem skipSign_wordText (w : List UInt8) : skipSign (wordText w) = wordText (stripHead isSign w) ∧
    isNegText (wordText w) = decide (w.head? = some (ch '-')) := by
  cases w with
  | nil => exact ⟨rfl, rfl⟩
  | cons c w =>
    obtain ⟨hminus, hplus, _⟩ := byte_char c
    constructor
    · by_cases hm : c = ch '-'
      · subst hm
        rfl
      · by_cases hp : c = ch '+'
        · subst hp
          rfl
        · have hstrip : stripHead isSign (c :: w) = c :: w := by simp [stripHead, isSign, hm, hp]
          rw [hstrip]
          exact skipSign_of_ne (mt hminus.mp hm) (mt hplus.mp hp)
    · simp only [isNegText, wordText, List.map_cons, List.head?_cons, Option.some.injEq]
      exact decide_eq_decide.mpr hminus

theorem dropWhile_wordText (w : List UInt8) :
    (wordText w).dropWhile (· = '0') = wordText (w.dropWhile (· = ch '0')) := by
  rw [wordText, List.dropWhile_map]
  refine congrArg (List.map _) (congrArg (List.dropWhile · w) (funext fun c => ?_))
  exact decide_eq_decide.mpr (byte_char c).2.2.1

theorem octText_wordText (w : List UInt8) : octText (wordText w) = wordText (significant 1 w) := by
  rw [octText, (skipSign_wordText w).1, significant, wordText, ← List.map_drop]
  exact dropWhile_wordText _

theorem hexText_wordText (w : List UInt8) : hexText (wordText w) = wordText (significant 2 w) := by
  rw [hexText, (skipSign_wordText w).1, significant, wordText, ← List.map_drop]
  exact dropWhile_wordText _

theorem map_digitValue_wordText {w : List UInt8} (h : ∀ c ∈ w, CharBuf.fklIsXDigit c = true) :
    (wordText w).map digitValue = w.map digitOf := by
  rw [wordText, List.map_map]
  exact List.map_congr_left fun c hc => ((byte_char c).2.2.2.2.1 (h c hc)).1

theorem numeral_dropWhile_zero (b : Nat) (w : List UInt8) :
    numeral b ((w.dropWhile (· = ch '0')).map digitOf) = numeral b (w.map digitOf) := by
  induction w with
  | nil => rfl
  | cons c w ih =>
    by_cases hc : c = ch '0'
    · subst hc
      rw [List.dropWhile_cons_of_pos (by simp), ih, List.map_cons, numeral_cons,
        show digitOf (ch '0') = 0 from rfl, Nat.zero_mul, Nat.zero_add]
    · rw [List.dropWhile_cons_of_neg (by simpa using hc)]

/-! What the classifiers take for an integer. -/

variable {s : Memory} {n : Nat}

theorem decInt_digits (h : CharBuf.fklIsDecInt s n = true) :
    ∀ c ∈ stripHead isSign (word s n), CharBuf.fklIsDigit c = true := by
  rcases (CharBuf.fklIsDecInt_iff s n).mp h with hword | ⟨⟨c, hc, hword⟩, _⟩
  · rw [CharBuf.decIntWords, CharBuf.mem_signed CharBuf.notFirst_sign_decInt,
      Language.mem_add] at hword
    rcases hword with ⟨c, hc, hword⟩ | hword
    · rw [hword]
      exact fun d hd => List.mem_singleton.mp hd ▸ of_decide_eq_true hc ▸ rfl
    · obtain ⟨c, r, heq, hc, hr⟩ := mem_oneOf_mul.mp hword
      rw [heq]
      exact List.forall_mem_cons.mpr ⟨(Bool.and_eq_true _ _ ▸ hc).1, mem_kstar_oneOf.mp hr⟩
  · rw [hword, stripHead, if_pos hc]
    exact fun d hd => absurd hd List.not_mem_nil

theorem octInt_digits (h : CharBuf.fklIsOctInt s n = true) :
    ∀ c ∈ (stripHead isSign (word s n)).drop 1, octDigit c = true := by
  rw [CharBuf.fklIsOctInt_iff, CharBuf.octIntWords,
    CharBuf.mem_signed (notFirst_oneOf_mul CharBuf.zero_not_sign)] at h
  obtain ⟨c, r, heq, _, hr⟩ := mem_oneOf_mul.mp h
  rw [heq]
  exact (mem_oneOrMore_oneOf.mp hr).2

theorem hexInt_digits (h : CharBuf.fklIsHexInt s n = true) :
    ∀ c ∈ (stripHead isSign (word s n)).drop 2, CharBuf.fklIsXDigit c = true := by
  rw [CharBuf.fklIsHexInt_iff, CharBuf.hexIntWords,
    CharBuf.mem_signed (notFirst_oneOf_mul CharBuf.zero_not_sign)] at h
  obtain ⟨c, r, heq, _, hr⟩ := mem_oneOf_mul.mp h
  obtain ⟨d, t, rfl, _, ht⟩ := mem_oneOf_mul.mp hr
  rw [heq]
  exact (mem_oneOrMore_oneOf.mp ht).2

/-! The parsers. -/

theorem fklInitBigIntWithOctCharBuf2_eq (alloc : Nat → Nat → Nat) (buf : List Char) :
    fklInitBigIntWithOctCharBuf2 alloc buf =
      octBuild (alloc (octTotal (octText buf).length)) true (isNegText buf) (octText buf) := by
  unfold fklInitBigIntWithOctCharBuf2 octText octBuild
  generalize ((skipSign buf).drop 1).dropWhile (· = '0') = cs
  change (if octTotal cs.length = 0 then _ else _) = _
  by_cases hnil : cs = []
  · subst hnil
    rfl
  · rw [if_neg (mt octTotal_eq_zero.mp hnil), if_neg hnil]
    unfold octWords
    change Option.bind _ _ = Option.map _ (Option.bind _ _)
    rw [Option.map_bind]
    refine congrArg (Option.bind _) (funext fun s => ?_)
    cases isNegText buf <;> exact Option.map_eq_bind.symm

theorem fklInitBigIntWithHexCharBuf2_eq (alloc : Nat → Nat → Nat) (buf : List Char) :
    fklInitBigIntWithHexCharBuf2 alloc buf =
      hexBuild (alloc (hexTotal (hexText buf).length)) true (isNegText buf) (hexText buf) := by
  unfold fklInitBigIntWithHexCharBuf2 hexText hexBuild hexWords
  generalize ((skipSign buf).drop 2).dropWhile (· = '0') = cs
  change Option.bind (hexLoop (hexTotal cs.length) cs _) _ = Option.map _ (Option.bind _ _)
  rw [Option.map_bind]
  refine congrArg (Option.bind _) (funext fun s => ?_)
  change Option.bind (s.flush (hexTotal cs.length)) _ = Option.map _ (Option.bind _ _)
  rw [Option.map_bind]
  cases isNegText buf <;> rfl

/-- The number of the digits of a text is the one that is written. -/
theorem writtenInt_significant {radix skip : Nat} {w : List UInt8}
    (h : ∀ c ∈ (stripHead isSign w).drop skip, CharBuf.fklIsXDigit c = true) :
    signedNat (isNegText (wordText w))
      (numeral radix ((wordText (significant skip w)).map digitValue)) = writtenInt radix skip w := by
  have hsig : ∀ c ∈ significant skip w, CharBuf.fklIsXDigit c = true :=
    fun c hc => h c ((List.dropWhile_sublist _).mem hc)
  rw [(skipSign_wordText w).2, map_digitValue_wordText hsig, significant, numeral_dropWhile_zero]
  rfl

theorem decParsers_build (alloc : Nat → Nat → Nat) (h : CharBuf.fklIsDecInt s n = true) :
    Builds (fklInitBigIntWithDecCharBuf (wordText (word s n))) (writtenInt 10 0 (word s n)) ∧
      Builds (fklInitBigIntWithDecCharBuf2 alloc (wordText (word s n)))
        (writtenInt 10 0 (word s n)) := by
  have hdigits := decInt_digits h
  generalize word s n = w at hdigits
  obtain ⟨hskip, hneg⟩ := skipSign_wordText w
  have htext : ∀ c ∈ wordText (stripHead isSign w), fklIsDigit c = true := by
    intro c hc
    obtain ⟨d, hd, rfl⟩ := List.mem_map.mp hc
    exact (byte_char d).2.2.2.1 (hdigits d hd)
  obtain ⟨b, hrun, hb⟩ := decLoop_spec htext growing_zero
  rw [map_digitValue_wordText fun c hc => by simp [CharBuf.fklIsXDigit, hdigits c hc],
    Nat.zero_mul, Nat.zero_add] at hb
  obtain ⟨hnorm, hval⟩ := applySign_spec (isNegText (wordText w)) hb.toIsNat
  have hvalue : (applySign (isNegText (wordText w)) b).value = writtenInt 10 0 w := by
    rw [hval, hneg]
    rfl
  have hparse : fklInitBigIntWithDecCharBuf (wordText w) =
      some (applySign (isNegText (wordText w)) b) := by
    rw [fklInitBigIntWithDecCharBuf, hskip]
    exact bind_eq_of_eq hrun rfl
  refine ⟨⟨_, hparse, hnorm, hvalue⟩, ?_⟩
  generalize applySign (isNegText (wordText w)) b = x at hparse hnorm hvalue
  obtain ⟨r, hset, hr, _⟩ := fklSetBigInt_spec (t := ⟨alloc x.size, 0, x.size, true⟩) hnorm
    (Or.inr hnorm.num_le)
  exact ⟨r, bind_eq_of_eq hparse hset, hr.normalized, hr.value.trans hvalue⟩

theorem hexParsers_build (alloc : Nat → Nat → Nat) (h : CharBuf.fklIsHexInt s n = true) :
    Builds (fklInitBigIntWithHexCharBuf (wordText (word s n))) (writtenInt 16 2 (word s n)) ∧
      Builds (fklInitBigIntWithHexCharBuf2 alloc (wordText (word s n)))
        (writtenInt 16 2 (word s n)) := by
  have hdigits := hexInt_digits h
  generalize word s n = w at hdigits
  have hlt : ∀ c ∈ wordText (significant 2 w), digitValue c < 16 := by
    intro c hc
    obtain ⟨d, hd, rfl⟩ := List.mem_map.mp hc
    obtain ⟨heq, hd16⟩ := (byte_char d).2.2.2.2.1 (hdigits d ((List.dropWhile_sublist _).mem hd))
    rwa [heq]
  rw [fklInitBigIntWithHexCharBuf_eq, fklInitBigIntWithHexCharBuf2_eq, hexText_wordText,
    ← writtenInt_significant hdigits]
  exact ⟨hexBuild_spec _ false _ hlt, hexBuild_spec _ true _ hlt⟩

theorem octParsers_build_iff (alloc : Nat → Nat → Nat) (h : CharBuf.fklIsOctInt s n = true) :
    Builds (fklInitBigIntWithOctCharBuf (wordText (word s n))) (writtenInt 8 1 (word s n)) ∧
      Builds (fklInitBigIntWithOctCharBuf2 alloc (wordText (word s n)))
        (writtenInt 8 1 (word s n)) ↔
      ¬(significant 1 (word s n) ≠ [] ∧ (significant 1 (word s n)).length % 10 = 0) := by
  have hdigits := octInt_digits h
  generalize word s n = w at hdigits
  have hlt : ∀ c ∈ wordText (significant 1 w), digitValue c < 8 := by
    intro c hc
    obtain ⟨d, hd, rfl⟩ := List.mem_map.mp hc
    obtain ⟨hx, hd8⟩ := (byte_char d).2.2.2.2.2 (hdigits d ((List.dropWhile_sublist _).mem hd))
    rwa [((byte_char d).2.2.2.2.1 hx).1]
  have hlen : (wordText (significant 1 w)).length = (significant 1 w).length := List.length_map _
  have hnil : wordText (significant 1 w) = [] ↔ significant 1 w = [] := List.map_eq_nil_iff
  have hbuild := fun d const => octBuild_spec d const (isNegText (wordText w)) hlt
  rw [fklInitBigIntWithOctCharBuf_eq, fklInitBigIntWithOctCharBuf2_eq, octText_wordText,
    ← writtenInt_significant fun c hc => ((byte_char c).2.2.2.2.2 (hdigits c hc)).1]
  rw [hlen, ne_eq, hnil, show digitOctCount = 10 from rfl] at hbuild
  constructor
  · rintro ⟨⟨b, hb, _⟩, _⟩ ⟨hne, hmod⟩
    rw [(hbuild _ _).1 hne hmod] at hb
    cases hb
  · intro hnot
    have hread := fun hne hmod => hnot ⟨hne, hmod⟩
    exact ⟨(hbuild _ false).2 hread, (hbuild _ true).2 hread⟩

/-- The parsers are right unless octal digits, without leading zeros, fill whole groups of ten. -/
theorem parsersRight_iff (alloc : Nat → Nat → Nat) (s : Memory) (n : Nat) :
    ParsersRight alloc s n ↔ ¬(CharBuf.fklIsOctInt s n = true ∧
      significant 1 (word s n) ≠ [] ∧ (significant 1 (word s n)).length % 10 = 0) := by
  constructor
  · rintro ⟨_, hoct, _⟩ ⟨hint, hfull⟩
    exact (octParsers_build_iff alloc hint).mp (hoct hint) hfull
  · intro h
    exact ⟨decParsers_build alloc,
      fun hint => (octParsers_build_iff alloc hint).mpr fun hfull => h ⟨hint, hfull⟩,
      hexParsers_build alloc⟩

/-- `01000000000` -/
def tenDigits : Memory := fun i => if i = 1 then ch '1' else ch '0'

theorem not_parsersRight_tenDigits : CharBuf.fklIsOctInt tenDigits 11 = true ∧
    ∀ alloc, ¬ParsersRight alloc tenDigits 11 := by
  have hint : CharBuf.fklIsOctInt tenDigits 11 = true := by decide
  refine ⟨hint, fun alloc h => ?_⟩
  obtain ⟨b, hb, _⟩ := (h.2.1 hint).1
  have hnone : (fklInitBigIntWithOctCharBuf (wordText (word tenDigits 11))).isNone = true := by
    decide
  rw [hb] at hnone
  cases hnone

end FakeLisp
