import FakeLisp.EscapeChars
import Mathlib.Tactic.Common

/-!
How the two readers of a literal move on: the matcher of the closing delimiter and the reader of
the escapes, one character at a time.
-/

namespace FakeLisp

open CharBuf

theorem memEq_append (a b : List UInt8) (mem : Memory) (p : Nat) :
    memEq (a ++ b) mem p = (memEq a mem p && memEq b mem (p + a.length)) := by
  induction a generalizing p with
  | nil => simp [memEq]
  | cons c a ih =>
    have hlen : p + 1 + a.length = p + (a.length + 1) := by omega
    simp [memEq, ih, Bool.and_assoc, hlen]

@[simp] theorem memEq_nil (mem : Memory) (p : Nat) : memEq [] mem p = true := rfl

@[simp] theorem memEq_cons (c : UInt8) (a : List UInt8) (mem : Memory) (p : Nat) :
    memEq (c :: a) mem p = true ↔ mem p = c ∧ memEq a mem (p + 1) = true := by
  simp [memEq]

/-! ## The first byte of a character -/

theorem byteNum_ascii {c : UInt8} (h : c < 0x80) (str : List UInt8) :
    fklGetByteNumOfUtf8 (c :: str) = 1 := by
  simp [fklGetByteNumOfUtf8, h]

/-- A run of bytes written as they are: its first byte is not ASCII, and neither is its last one
when there are more than two. -/
structure RawRun (str : List UInt8) (l : Nat) : Prop where
  two_le : 2 ≤ l
  le_length : l ≤ str.length
  first : 0x80 ≤ str.getD 0 0
  last : 3 ≤ l → 0x80 ≤ str.getD (l - 1) 0

theorem byteNum_cases (c : UInt8) (str : List UInt8) :
    (fklGetByteNumOfUtf8 (c :: str) = 7 ∧ 0x80 ≤ c) ∨
    (fklGetByteNumOfUtf8 (c :: str) = 1 ∧ c < 0x80) ∨
    (fklGetByteNumOfUtf8 (c :: str) ≠ 7 ∧ fklGetByteNumOfUtf8 (c :: str) ≠ 1 ∧
      RawRun (c :: str) (fklGetByteNumOfUtf8 (c :: str))) := by
  by_cases hascii : c < 0x80
  · exact .inr (.inl ⟨byteNum_ascii hascii str, hascii⟩)
  have hc : 0x80 ≤ c := by grind
  by_cases hcont : c < 0xC0
  · exact .inl ⟨by simp [fklGetByteNumOfUtf8, hascii, hcont], hc⟩
  generalize hi : utf8bits.findIdx (fun row => c ||| row.1 = row.1) = i
  have hle : i ≤ 6 := hi ▸ List.findIdx_le_length
  have hpos : i ≠ 0 := by
    rintro rfl
    have : c ||| 0x7F = 0x7F := by
      by_contra hne
      rw [utf8bits, List.findIdx_cons, decide_eq_false hne] at hi
      exact Nat.succ_ne_zero _ hi
    have hle : c ≤ c ||| 0x7F := UInt8.left_le_or
    grind
  simp only [fklGetByteNumOfUtf8, List.getD_cons_zero, hascii, hcont, if_false, hi]
  split_ifs with hshort hrest hsum
  · exact .inl ⟨rfl, hc⟩
  · exact .inl ⟨rfl, hc⟩
  · exact .inl ⟨rfl, hc⟩
  · refine .inr (.inr ⟨by omega, by omega, by omega, by omega, hc, fun hthree => ?_⟩)
    have hmem : 1 ∈ List.range' 1 (i - 1) := by simp; omega
    have hall := List.any_eq_false.mp (Bool.eq_false_of_not_eq_true hrest) 1 hmem
    have hbits : (c :: str).getD i 0 &&& 0xC0 = 0x80 := by simpa using hall
    rw [Nat.add_sub_cancel, ← hbits]
    exact UInt8.and_le_left

/-! ## One escape -/

theorem le_skipWhile (p : UInt8 → Bool) (s : Memory) (n idx : Nat) :
    idx ≤ skipWhile p s n idx := by
  induction n generalizing idx with
  | zero => exact Nat.le_refl _
  | succ n ih =>
    rw [skipWhile]
    split_ifs
    · exact (Nat.le_succ idx).trans (ih _)
    · exact Nat.le_refl _

theorem skipWhile_forall {p : UInt8 → Bool} {s : Memory} {n idx k : Nat} (hk : idx ≤ k)
    (hlt : k < skipWhile p s n idx) : p (s k) = true := by
  induction n generalizing idx with
  | zero => exact absurd hlt (by simp only [skipWhile]; omega)
  | succ n ih =>
    rw [skipWhile] at hlt
    split_ifs at hlt with hp
    · obtain rfl | hne := Nat.eq_or_lt_of_le hk
      · exact hp
      · exact ih hne hlt
    · omega

/-- The characters a numeric escape is made of. -/
def isNumeral (c : UInt8) : Bool := fklIsXDigit c || fklToUpper c = ch 'X'

/-- The characters a numeric escape begins with. -/
def startsNumeral (c : UInt8) : Bool := fklIsDigit c || fklToUpper c = ch 'X'

theorem isNumeral_of_starts {c : UInt8} (h : startsNumeral c = true) : isNumeral c = true := by
  simp only [startsNumeral, isNumeral, fklIsXDigit, Bool.or_eq_true, decide_eq_true_eq] at h ⊢
  exact h.imp_left fun hd => .inl (.inl hd)

theorem isNumeral_of_isDigit {c : UInt8} (h : fklIsDigit c = true) : isNumeral c = true := by
  simp [isNumeral, fklIsXDigit, h]

theorem isNumeral_lt {c : UInt8} (h : isNumeral c = true) : c < 0x80 := by
  simp [isNumeral, fklIsXDigit, fklIsDigit, fklToUpper, fklIsLower, ch] at h
  grind

theorem two_le_escapeLen (s : Memory) : 2 ≤ escapeLen s := by
  unfold escapeLen
  split_ifs with hdigit hzero hx hx
  · exact le_skipWhile _ _ _ _
  · have : isOctDigit (s 1) = true := by rw [hzero]; decide
    rw [skipWhile, if_pos this]
    exact le_skipWhile _ _ _ _
  · rw [skipWhile, if_pos hdigit]
    exact le_skipWhile _ _ _ _
  · exact le_skipWhile _ _ _ _
  · exact Nat.le_refl _

/-- Behind its second byte an escape takes digits only. -/
theorem escapeLen_numeral {s : Memory} {k : Nat} (hk : 2 ≤ k) (hlt : k < escapeLen s) :
    isNumeral (s k) = true := by
  unfold escapeLen at hlt
  split_ifs at hlt with hdigit hzero hx hx
  · simp [isNumeral, skipWhile_forall hk hlt]
  · have := skipWhile_forall (by omega) hlt
    exact isNumeral_of_isDigit (by simp [isOctDigit] at this; exact this.1)
  · exact isNumeral_of_isDigit (skipWhile_forall (by omega) hlt)
  · simp [isNumeral, skipWhile_forall hk hlt]
  · omega

theorem not_startsNumeral {c : UInt8} (h : startsNumeral c = false) :
    fklIsDigit c = false ∧ fklToUpper c ≠ ch 'X' := by
  simpa [startsNumeral] using h

theorem escapeLen_of_not_starts {s : Memory} (h : startsNumeral (s 1) = false) :
    escapeLen s = 2 := by
  obtain ⟨hdigit, hx⟩ := not_startsNumeral h
  simp [escapeLen, hdigit, hx]

/-- A word of one byte that looks like a number is a digit, or a sign before one. -/
theorem isNumberCharBuf_one {buf : Memory} (h : fklIsNumberCharBuf buf 1 = true) :
    fklIsDigit (buf 0) = true ∨ buf 0 = ch '-' ∨ buf 0 = ch '+' := by
  simp [fklIsNumberCharBuf, fklIsDecInt, fklIsOctInt, fklIsHexInt, fklIsDecFloat,
    fklIsHexFloat, skipSign] at h
  by_cases hsign : buf 0 = ch '-' ∨ buf 0 = ch '+'
  · exact .inr hsign
  · left
    simp only [hsign, if_false] at h
    split_ifs at h with hzero
    · rw [hzero]
      decide
    · exact h.1

/-- The value of an escape with a single character, not a digit. -/
theorem escape_single {s : Memory} (h0 : s 0 = backslash) (h : startsNumeral (s 1) = false) :
    fklCharBufToChar s 2 = (escapeCharTo (s 1)).toNat ∨
      ((s 1 = ch '-' ∨ s 1 = ch '+') ∧ fklCharBufToChar s 2 = 0) := by
  obtain ⟨hdigit, hx⟩ := not_startsNumeral h
  have hhex : fklIsHexInt (fun i => s (i + 1)) 1 = false := by simp [fklIsHexInt]
  have hoct : fklIsOctInt (fun i => s (i + 1)) 1 = false := by simp [fklIsOctInt]
  by_cases hnum : fklIsNumberCharBuf (fun i => s (i + 1)) 1 = true
  · right
    have := isNumberCharBuf_one hnum
    simp only [Nat.zero_add, hdigit, Bool.false_eq_true, false_or] at this
    refine ⟨this, ?_⟩
    simp [fklCharBufToChar, escapedChar, h0, hx, hnum, hhex, hoct, readDigits, hdigit]
  · left
    simp [fklCharBufToChar, escapedChar, h0, hx, hnum]

/-! ## The reader -/

theorem castEscapeFrom_congr (mem : Memory) {str size str' size' n m i j : Nat}
    (hp : str + i = str' + j) (hs : size - i = size' - j) (hn : size - i ≤ n)
    (hm : size' - j ≤ m) :
    castEscapeFrom mem str size n i = castEscapeFrom mem str' size' m j := by
  induction n generalizing i j m with
  | zero =>
    cases m with
    | zero => rfl
    | succ m => simp only [castEscapeFrom, if_neg (show ¬j < size' by omega)]
  | succ n ih =>
    cases m with
    | zero => simp only [castEscapeFrom, if_neg (show ¬i < size by omega)]
    | succ m =>
      have hlt : i < size ↔ j < size' := by omega
      have htwo := two_le_escapeLen fun k => mem (str' + j + k)
      simp only [castEscapeFrom, hlt, hp]
      split_ifs
      · exact congrArg _ (ih (by omega) (by omega) (by omega) (by omega))
      · exact congrArg _ (ih (by omega) (by omega) (by omega) (by omega))
      · rfl

@[simp] theorem fklCastEscapeCharBuf_zero (mem : Memory) (str : Nat) :
    fklCastEscapeCharBuf mem str 0 = [] := rfl

theorem fklCastEscapeCharBuf_raw {mem : Memory} {str : Nat} (h : mem str ≠ backslash)
    (size : Nat) : fklCastEscapeCharBuf mem str (size + 1) =
      mem str :: fklCastEscapeCharBuf mem (str + 1) size := by
  simp only [fklCastEscapeCharBuf, castEscapeFrom, Nat.zero_lt_succ, if_true, Nat.add_zero, h,
    if_false]
  exact congrArg _ (castEscapeFrom_congr mem (by omega) (by omega) (by omega) (by omega))

theorem fklCastEscapeCharBuf_escape {mem : Memory} {str size : Nat} (h : mem str = backslash)
    (hsize : 0 < size) :
    fklCastEscapeCharBuf mem str size =
      UInt8.ofNat (fklCharBufToChar (fun k => mem (str + k)) (escapeLen fun k => mem (str + k))) ::
        fklCastEscapeCharBuf mem (str + escapeLen fun k => mem (str + k))
          (size - escapeLen fun k => mem (str + k)) := by
  obtain ⟨size, rfl⟩ := Nat.exists_eq_succ_of_ne_zero hsize.ne'
  have htwo := two_le_escapeLen fun k => mem (str + k)
  simp only [fklCastEscapeCharBuf, castEscapeFrom, Nat.zero_lt_succ, if_true, Nat.add_zero, h]
  exact congrArg _ (castEscapeFrom_congr mem (by omega) (by omega) (by omega) (by omega))

/-- An escape of a single character which is no digit and no sign. -/
theorem fklCastEscapeCharBuf_single {mem : Memory} {str : Nat} {c : UInt8}
    (h0 : mem str = backslash) (h1 : mem (str + 1) = c) (hnum : startsNumeral c = false)
    (hsign : c ≠ ch '-' ∧ c ≠ ch '+') (size : Nat) :
    fklCastEscapeCharBuf mem str (size + 2) =
      escapeCharTo c :: fklCastEscapeCharBuf mem (str + 2) size := by
  have hs : startsNumeral ((fun k => mem (str + k)) 1) = false := by rw [← hnum, ← h1]
  have hlen := escapeLen_of_not_starts (s := fun k => mem (str + k)) hs
  have hvalue : fklCharBufToChar (fun k => mem (str + k)) 2 = (escapeCharTo c).toNat := by
    rcases escape_single (s := fun k => mem (str + k)) h0 hs with h | ⟨h, -⟩
    · rw [h, h1]
    · rw [h1] at h
      exact absurd h (by simp [hsign])
  rw [fklCastEscapeCharBuf_escape h0 (by omega), hlen, hvalue, Nat.add_sub_cancel,
    UInt8.ofNat_toNat]

/-! ## The matcher -/

theorem quotedMatchFrom_congr (mem : Memory) (cstr : Nat) (end_ : List UInt8) {restLen i n m : Nat}
    (hn : restLen - i ≤ n) (hm : restLen - i ≤ m) :
    quotedMatchFrom mem cstr restLen end_ n i = quotedMatchFrom mem cstr restLen end_ m i := by
  induction n generalizing i m with
  | zero =>
    cases m with
    | zero => rfl
    | succ m => simp only [quotedMatchFrom, if_neg (show ¬i < restLen by omega)]
  | succ n ih =>
    cases m with
    | zero => simp only [quotedMatchFrom, if_neg (show ¬i < restLen by omega)]
    | succ m =>
      simp only [quotedMatchFrom]
      split_ifs
      · exact ih (by omega) (by omega)
      · rfl
      · exact ih (by omega) (by omega)
      · rfl

/-- The search for a delimiter of one byte, from the place `i` on. -/
def delimiterFrom (mem : Memory) (cstr restLen : Nat) (se : UInt8) (i : Nat) : Nat :=
  quotedMatchFrom mem cstr restLen [se] restLen i

section Delimiter

variable {mem : Memory} {cstr restLen i : Nat} {se : UInt8}

theorem delimiterFrom_eq (h : i < restLen) : delimiterFrom mem cstr restLen se i =
    if mem (cstr + i) = backslash then delimiterFrom mem cstr restLen se (i + 2)
    else if mem (cstr + i) = se then i + 1
    else delimiterFrom mem cstr restLen se (i + 1) := by
  obtain ⟨n, rfl⟩ : ∃ n, restLen = n + 1 := ⟨restLen - 1, by omega⟩
  have hone : fklCharBufMatch [se] mem (cstr + i) (n + 1 - i) = decide (mem (cstr + i) = se) := by
    have : ¬n + 1 - i < 1 := by omega
    simp [fklCharBufMatch, memEq, this]
  rw [delimiterFrom, quotedMatchFrom, if_pos h, hone]
  simp only [decide_eq_true_eq, List.length_singleton]
  split_ifs
  · exact quotedMatchFrom_congr _ _ _ (by omega) (by omega)
  · rfl
  · exact quotedMatchFrom_congr _ _ _ (by omega) (by omega)

theorem delimiterFrom_lt (mem : Memory) (cstr restLen i : Nat) (se : UInt8) :
    delimiterFrom mem cstr restLen se i = 0 ∨ i < delimiterFrom mem cstr restLen se i := by
  by_cases h : i < restLen
  · rw [delimiterFrom_eq h]
    split_ifs
    · exact (delimiterFrom_lt mem cstr restLen (i + 2) se).imp_right (by omega)
    · exact .inr (Nat.lt_succ_self i)
    · exact (delimiterFrom_lt mem cstr restLen (i + 1) se).imp_right (by omega)
  · left
    rw [delimiterFrom, quotedMatchFrom_congr (m := 0) mem cstr [se] (by omega) (by omega)]
    rfl
termination_by restLen - i

theorem fklQuotedCharBufMatch_eq (h : 0 < restLen) :
    fklQuotedCharBufMatch mem cstr restLen [se] = delimiterFrom mem cstr restLen se 0 :=
  if_neg (by simp; omega)

end Delimiter

end FakeLisp
