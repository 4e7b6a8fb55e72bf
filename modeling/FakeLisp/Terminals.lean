import Mathlib.Data.UInt
import Mathlib.Tactic.Common

/-! Bytes in memory and the terminals that are told by their bytes. A buffer is an address and a
length. -/

namespace FakeLisp

/-- The bytes by their addresses. -/
abbrev Memory := Nat → UInt8

/-- Subtraction of sizes. -/
def sizeSub (a b : Nat) : Nat := (a + 2 ^ 64 - b) % 2 ^ 64

theorem sizeSub_eq {a b : Nat} (h : b ≤ a) (ha : a < 2 ^ 64) : sizeSub a b = a - b := by
  unfold sizeSub
  omega

def memEq : List UInt8 → Memory → Nat → Bool
  | [], _, _ => true
  | c :: a, mem, b => mem b = c && memEq a mem (b + 1)

/-- `fklCharBufMatch` does not fail. -/
def fklCharBufMatch (a : List UInt8) (mem : Memory) (b bSize : Nat) : Bool :=
  if bSize < a.length then false else memEq a mem b

/-- A property of bytes that holds of each of them. -/
theorem forall_byte {p : UInt8 → Prop} (h : ∀ n : Fin 256, p (UInt8.ofNat n.val)) (c : UInt8) : p c := by
  have hc := h ⟨c.toNat, c.toNat_lt⟩
  rwa [UInt8.ofNat_toNat] at hc

def ch (c : Char) : UInt8 := UInt8.ofNat c.toNat

def backslash : UInt8 := 92

namespace CharBuf

def fklIsDigit (c : UInt8) : Bool := ch '0' ≤ c && c ≤ ch '9'

def fklIsXDigit (c : UInt8) : Bool :=
  fklIsDigit c || ch 'a' ≤ c && c ≤ ch 'f' || ch 'A' ≤ c && c ≤ ch 'F'

/-- The first place from `idx` on where `p` fails, of the next `n` ones. -/
def skipWhile (p : UInt8 → Bool) (s : Memory) : Nat → Nat → Nat
  | 0, idx => idx
  | n + 1, idx => if p (s idx) then skipWhile p s n (idx + 1) else idx

def allFrom (p : UInt8 → Bool) (s : Memory) (idx maxLen : Nat) : Bool :=
  (List.range (maxLen - idx)).all fun i => p (s (idx + i))

/-- A sign at `idx` is left behind. -/
def skipSign (s : Memory) (idx : Nat) : Nat :=
  if s idx = ch '-' ∨ s idx = ch '+' then idx + 1 else idx

/-! The tests take the bytes from the start of the word. -/

def fklIsDecInt (s : Memory) (maxLen : Nat) : Bool :=
  if maxLen = 0 then false
  else
    let idx := skipSign s 0
    if s idx = ch '0' then idx + 1 = maxLen
    else fklIsDigit (s idx) && allFrom fklIsDigit s (idx + 1) maxLen

def fklIsOctInt (s : Memory) (maxLen : Nat) : Bool :=
  if maxLen < 2 then false
  else
    let idx := skipSign s 0
    if maxLen - idx < 2 then false
    else s idx = ch '0' && allFrom (fun c => ch '0' ≤ c && c ≤ ch '7') s (idx + 1) maxLen

def fklIsHexInt (s : Memory) (maxLen : Nat) : Bool :=
  if maxLen < 3 then false
  else
    let idx := skipSign s 0
    if maxLen - idx < 3 then false
    else s idx = ch '0' && (s (idx + 1) = ch 'x' || s (idx + 1) = ch 'X') &&
      allFrom fklIsXDigit s (idx + 2) maxLen

/-- `after_e` and `after_p`: the exponent begins behind `idx`, maybe behind the word. -/
def isExponent (p : UInt8 → Bool) (s : Memory) (idx maxLen : Nat) : Bool :=
  let idx := skipSign s (idx + 1)
  if sizeSub maxLen idx < 1 then false else allFrom p s idx maxLen

def fklIsDecFloat (s : Memory) (maxLen : Nat) : Bool :=
  let isE := fun c => c = ch 'e' ∨ c = ch 'E'
  let afterDot := fun idx =>
    let idx := skipWhile fklIsDigit s (maxLen - idx) idx
    if idx = maxLen then true
    else if isE (s idx) then isExponent fklIsDigit s idx maxLen else false
  if maxLen < 2 then false
  else
    let idx := skipSign s 0
    if maxLen - idx < 2 then false
    else if s idx = ch '.' then if isE (s (idx + 1)) then false else afterDot (idx + 1)
    else
      let end_ := skipWhile fklIsDigit s (maxLen - idx) idx
      if end_ = maxLen ∨ end_ = idx then false
      else if s end_ = ch '.' then afterDot (end_ + 1)
      else if isE (s end_) then isExponent fklIsDigit s end_ maxLen else false

def fklIsHexFloat (s : Memory) (maxLen : Nat) : Bool :=
  let isP := fun c => c = ch 'p' ∨ c = ch 'P'
  let afterDot := fun idx =>
    let idx := skipWhile fklIsXDigit s (maxLen - idx) idx
    if idx = maxLen then false
    else if isP (s idx) then isExponent fklIsXDigit s idx maxLen else false
  if maxLen < 5 then false
  else
    let idx := skipSign s 0
    if maxLen - idx < 5 then false
    else if s idx ≠ ch '0' then false
    else if s (idx + 1) ≠ ch 'x' ∧ s (idx + 1) ≠ ch 'X' then false
    else if s (idx + 2) = ch '.' then
      if maxLen - (idx + 3) < 3 ∨ isP (s (idx + 3)) then false else afterDot (idx + 3)
    else
      let end_ := skipWhile fklIsXDigit s (maxLen - (idx + 2)) (idx + 2)
      if end_ = maxLen then false
      else if s end_ = ch '.' then afterDot (end_ + 1)
      else if isP (s end_) then isExponent fklIsXDigit s end_ maxLen else false

def fklIsAllDigit (s : Memory) (len : Nat) : Bool := allFrom fklIsDigit s 0 len

/-- What a symbol must not look like. -/
def looksNumeric (s : Memory) (maxLen : Nat) : Bool :=
  fklIsDecInt s maxLen || fklIsOctInt s maxLen || fklIsHexInt s maxLen ||
    fklIsDecFloat s maxLen || fklIsHexFloat s maxLen || fklIsAllDigit s maxLen

end CharBuf

/-- The loop of `fklQuotedCharBufMatch` from `len` on; `n` is a bound on what is left of it. -/
def quotedMatchFrom (mem : Memory) (cstr restLen : Nat) (end_ : List UInt8) : Nat → Nat → Nat
  | 0, _ => 0
  | n + 1, len =>
    if len < restLen then
      if mem (cstr + len) = backslash then quotedMatchFrom mem cstr restLen end_ n (len + 2)
      else if fklCharBufMatch end_ mem (cstr + len) (restLen - len) then len + end_.length
      else quotedMatchFrom mem cstr restLen end_ n (len + 1)
    else 0

def fklQuotedCharBufMatch (mem : Memory) (cstr restLen : Nat) (end_ : List UInt8) : Nat :=
  if restLen < end_.length then 0 else quotedMatchFrom mem cstr restLen end_ restLen 0

theorem length_le_of_charBufMatch {a : List UInt8} {mem : Memory} {b bSize : Nat}
    (h : fklCharBufMatch a mem b bSize = true) : a.length ≤ bSize := by
  unfold fklCharBufMatch at h
  split_ifs at h with hlt
  omega

theorem quotedMatchFrom_le (mem : Memory) (cstr restLen : Nat) (end_ : List UInt8)
    (n len : Nat) : quotedMatchFrom mem cstr restLen end_ n len ≤ restLen := by
  induction n generalizing len with
  | zero => exact Nat.zero_le _
  | succ n ih =>
    unfold quotedMatchFrom
    split_ifs with hlt _ hmatch
    · exact ih _
    · have := length_le_of_charBufMatch hmatch
      omega
    · exact ih _
    · exact Nat.zero_le _

theorem quotedCharBufMatch_le (mem : Memory) (cstr restLen : Nat) (end_ : List UInt8) :
    fklQuotedCharBufMatch mem cstr restLen end_ ≤ restLen := by
  unfold fklQuotedCharBufMatch
  split_ifs
  · exact Nat.zero_le _
  · exact quotedMatchFrom_le mem cstr restLen end_ restLen 0

end FakeLisp
