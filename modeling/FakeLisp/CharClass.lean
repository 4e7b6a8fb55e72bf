import FakeLisp.EscapeChars
import FakeLisp.WhileLoop

/-! The classes of characters of a regular expression: what stands between the brackets is
measured, compiled into bytes, and the bytes are matched against a character. -/

namespace FakeLisp.Regex

open CharBuf

/-- Three characters at most make the number of an escape, digits up to `8` among them. -/
def isEscDigit (c : UInt8) : Bool := ch '0' ≤ c && c < ch '9'

/-- How many of the next two bytes are digits of the number. -/
def moreDigits (p : UInt8 → Bool) (pat : List UInt8) : Nat := ((pat.take 2).takeWhile p).length

/-- Behind the last byte of a class stands its bracket, which is no digit. -/
def countNumberEscChar : List UInt8 → Nat
  | [] => 1
  | c :: pat =>
    if fklToUpper c = ch 'X' then 1 + moreDigits fklIsXDigit pat
    else if isEscDigit c then 1 + moreDigits isEscDigit pat
    else 1

def digitsValue (base : Nat) (ds : List UInt8) : Nat :=
  ds.foldl (fun acc c => acc * base + digitOf c) 0

def isDigitOf (base : Nat) (c : UInt8) : Bool := fklIsXDigit c && digitOf c < base

/-- `strtol` of the C library on the bytes before the end of a string. -/
def strtol (base : Nat) (s : List UInt8) : Int :=
  let s := s.dropWhile fun c => c = ch ' ' || (9 ≤ c && c < 14)
  let negative := s.head? = some (ch '-')
  let s := if negative ∨ s.head? = some (ch '+') then s.tail else s
  let s := if base = 16 ∧ s.head? = some (ch '0') ∧ (s[1]?).any (fun c => fklToUpper c = ch 'X')
    then s.drop 2 else s
  let n : Int := digitsValue base (s.takeWhile (isDigitOf base))
  if negative then -n else n

/-- `tmp`: the bytes that the escape does not fill are those that the stack holds. -/
def escTmp (junk : Nat → UInt8) (pat : List UInt8) : List UInt8 :=
  (List.range 3).map fun k => (pat[k]?).getD (junk k)

def escCharToChar (junk : Nat → UInt8) (pat : List UInt8) : Int :=
  let c := pat.headD 0
  if fklToUpper c = ch 'X' ∧ 1 < pat.length then strtol 16 (escTmp junk pat).tail
  else if isEscDigit c then strtol 8 (escTmp junk pat)
  else c.toInt8.toInt

/-! The two scanners. They go through what is left of the class; behind it stands its bracket. -/

def byteAt (pat : List UInt8) (k : Nat) : UInt8 := (pat[k]?).getD (ch ']')

/-- `&pat[2] < end && pat[1] == '-'` -/
def startsRange (pat : List UInt8) : Bool := 2 < pat.length && byteAt pat 1 = ch '-'

/-- `&pat[2] >= end && pat[1] == '-'` -/
def stopsChunk (pat : List UInt8) : Bool := pat.length ≤ 2 && byteAt pat 1 = ch '-'

/-- The length of the character at the start. -/
def charLen (pat : List UInt8) : Nat :=
  if byteAt pat 0 = backslash then countNumberEscChar pat.tail + 1 else 1

/-- `len` and `num` of a chunk, for `room` more characters. -/
def chunkScan : Nat → List UInt8 → Nat × Nat
  | 0, _ => (0, 0)
  | room + 1, pat =>
    if pat = [] ∨ stopsChunk pat then (0, 0)
    else
      let (len, num) := chunkScan room (pat.drop (charLen pat))
      (charLen pat + len, num + 1)

/-- `UINT8_MAX` -/
def uint8Max : Nat := 255

def classLenStep (s : List UInt8 × Nat) : List UInt8 × Nat :=
  let (pat, retval) := s
  if startsRange pat then (pat.drop 3, retval + 3)
  else
    let (len, num) := chunkScan uint8Max pat
    (pat.drop len, retval + (2 + num))

def computeCharClassLen (fuel : Nat) (pat : List UInt8) : Option Nat :=
  (whileLoop (fun s => !s.1.isEmpty) (fun s => some (classLenStep s)) fuel (pat, 1)).map Prod.snd

/-- `FKL_REGEX_CHAR_CLASS_END` -/
def charClassEnd : UInt8 := 0

/-- `FKL_REGEX_CHAR_CLASS_CHAR` -/
def charClassChar : UInt8 := 1

/-- `FKL_REGEX_CHAR_CLASS_RANGE` -/
def charClassRange : UInt8 := 2

/-- The loop that writes the characters of a chunk of length `len`, `skip` of whose bytes are
jumped over; whether the class is given up. -/
def emitChunk (junk : Nat → UInt8) (len : Nat) : Nat → List UInt8 → List UInt8 × Bool
  | _, [] => ([], false)
  | skip + 1, _ :: pat => emitChunk junk len skip pat
  | 0, c :: pat =>
    if c = backslash then
      let ch := escCharToChar junk (pat.take (countNumberEscChar pat))
      if ch > uint8Max then ([], true)
      else
        -- `i += len`, and not the length of the escape
        let (out, rejected) := emitChunk junk len len pat
        (UInt8.ofInt ch :: out, rejected)
    else
      let (out, rejected) := emitChunk junk len 0 pat
      (c :: out, rejected)

/-- What is left of the class, the bytes written, and whether the class is given up. -/
structure ClassOut where
  pat : List UInt8
  patrns : List UInt8
  rejected : Bool

def classOutStep (junk : Nat → UInt8) (s : ClassOut) : ClassOut :=
  if startsRange s.pat then
    let start := byteAt s.pat 0
    let stop := byteAt s.pat 2
    -- the ends are compared as signed characters
    if stop.toInt8 < start.toInt8 then ⟨s.pat, s.patrns ++ [charClassRange], true⟩
    else ⟨s.pat.drop 3, s.patrns ++ [charClassRange, start, stop], false⟩
  else
    let (len, num) := chunkScan uint8Max s.pat
    let (out, rejected) := emitChunk junk len 0 ((s.pat ++ [ch ']']).take len)
    ⟨s.pat.drop len, s.patrns ++ charClassChar :: UInt8.ofNat num :: out, rejected⟩

/-- The bytes written; the class is refused where it was given up. -/
def charBufToCharClass (junk : Nat → UInt8) (fuel : Nat) (pat : List UInt8) : Option ClassOut :=
  (whileLoop (fun s => !s.rejected && !s.pat.isEmpty) (fun s => some (classOutStep junk s)) fuel
    ⟨pat, [], false⟩).map fun s =>
      if s.rejected then s else { s with patrns := s.patrns ++ [charClassEnd] }

/-- The loop of `match_char_class`; without a value where it reads behind the bytes. -/
def matchCharClassFrom (c : UInt8) : Nat → List UInt8 → Option Bool
  | 0, _ | _, [] => none
  | fuel + 1, t :: patrns =>
    if t = charClassEnd then some false
    else if t = charClassRange then
      match patrns with
      | start :: stop :: patrns =>
        if start ≤ c ∧ c ≤ stop then some true else matchCharClassFrom c fuel patrns
      | _ => none
    else if t = charClassChar then
      match patrns with
      | num :: patrns =>
        if c ∈ patrns.take num.toNat then some true
        else if patrns.length < num.toNat then none
        else matchCharClassFrom c fuel (patrns.drop num.toNat)
      | [] => none
    else matchCharClassFrom c fuel patrns

def matchCharClass (c : UInt8) (patrns : List UInt8) : Option Bool :=
  matchCharClassFrom c patrns.length patrns

/-! What is written between the brackets. -/

/-- A character, by its number, or a range. -/
inductive ClassItem where
  | one (c : Nat)
  | range (lo hi : UInt8)
  deriving DecidableEq

namespace ClassItem

def Has (c : UInt8) : ClassItem → Prop
  | one n => c.toNat = n
  | range lo hi => lo ≤ c ∧ c ≤ hi

instance (c : UInt8) : DecidablePred (Has c)
  | one n => inferInstanceAs (Decidable (c.toNat = n))
  | range lo hi => inferInstanceAs (Decidable (lo ≤ c ∧ c ≤ hi))

/-- The number is a character's, and the range goes up. -/
def Proper : ClassItem → Prop
  | one n => n ≤ uint8Max
  | range lo hi => lo ≤ hi

instance : DecidablePred Proper
  | one n => inferInstanceAs (Decidable (n ≤ uint8Max))
  | range lo hi => inferInstanceAs (Decidable (lo ≤ hi))

end ClassItem

def isOctalDigit (c : UInt8) : Bool := ch '0' ≤ c && c ≤ ch '7'

/-- How many characters behind the backslash belong to the escape. -/
def writtenEscLen : List UInt8 → Nat
  | [] => 0
  | c :: pat =>
    if fklToUpper c = ch 'X' then 1 + moreDigits fklIsXDigit pat
    else if isOctalDigit c then 1 + moreDigits isOctalDigit pat
    else 1

def writtenEsc (esc : List UInt8) : Nat :=
  match esc with
  | [] => backslash.toNat
  | c :: ds =>
    if fklToUpper c = ch 'X' ∧ ds ≠ [] then digitsValue 16 ds
    else if isOctalDigit c then digitsValue 8 (c :: ds)
    else c.toNat

/-- The items of the text, from left to right; `skip` characters belong to the item before. The
ends of a range are characters, not escapes. -/
def writtenItems : Nat → List UInt8 → List ClassItem
  | _, [] => []
  | skip + 1, _ :: pat => writtenItems skip pat
  | 0, c :: pat =>
    if c = backslash then
      .one (writtenEsc (pat.take (writtenEscLen pat))) :: writtenItems (writtenEscLen pat) pat
    else if pat.head? = some (ch '-') ∧ pat.tail ≠ [] ∧ pat.tail.head? ≠ some backslash then
      .range c (byteAt pat 1) :: writtenItems 2 pat
    else .one c.toNat :: writtenItems 0 pat

/-- The pieces of a compiled class. -/
inductive ClassBlock where
  | chars (cs : List UInt8)
  | range (lo hi : UInt8)

namespace ClassBlock

/-- The count is the number of characters that follow it. -/
def bytes : ClassBlock → List UInt8
  | chars cs => charClassChar :: UInt8.ofNat cs.length :: cs
  | range lo hi => [charClassRange, lo, hi]

def Counted : ClassBlock → Prop
  | chars cs => cs.length ≤ uint8Max
  | range _ _ => True

end ClassBlock

def classBytes (blocks : List ClassBlock) : List UInt8 :=
  blocks.flatMap ClassBlock.bytes ++ [charClassEnd]

/-- Both loops come to an end, and a class of characters and ranges is compiled into as many bytes
as were counted, with its counts right, which match what is written. -/
def ClassRight (junk : Nat → UInt8) (pat : List UInt8) : Prop :=
  ∃ fuel n out, computeCharClassLen fuel pat = some n ∧
    charBufToCharClass junk fuel pat = some out ∧
    ((∀ item ∈ writtenItems 0 pat, item.Proper) →
      out.rejected = false ∧ out.patrns.length = n ∧
      (∃ blocks : List ClassBlock, (∀ b ∈ blocks, b.Counted) ∧ out.patrns = classBytes blocks) ∧
      ∀ c, matchCharClass c out.patrns = some (decide (∃ item ∈ writtenItems 0 pat, item.Has c)))

end FakeLisp.Regex
