import FakeLisp.Terminals

/-!
Strings and symbols as literals: `fklPrintBufLiteralExt` writes bytes between delimiters, and
`fklCastEscapeCharBuf` reads what stands between them.
-/

namespace FakeLisp

/-- The rows of `utf8bits`: the bits a first byte may have, those it adds, the least value. -/
def utf8bits : List (UInt8 × Nat × Nat) :=
  [(0x7F, 0x7F, 0), (0xDF, 0x1F, 0x80), (0xEF, 0x0F, 0x800), (0xF7, 0x07, 0x10000),
    (0xFB, 0x03, 0x200000), (0xFD, 0x01, 0x4000000)]

/-- The loop over `j` looks at the byte `i` every time, and `&` binds weaker than `<<`. -/
def fklGetByteNumOfUtf8 (byte : List UInt8) : Nat :=
  let b := fun k => byte.getD k 0
  if b 0 < 0x80 then 1
  else if b 0 < 0xC0 then 7
  else
    let i := utf8bits.findIdx fun row => b 0 ||| row.1 = row.1
    if byte.length ≤ i ∨ i = 6 then 7
    else if (List.range' 1 (i - 1)).any fun _ => b i &&& 0xC0 ≠ 0x80 then 7
    else
      let row := utf8bits.getD i (0, 0, 0)
      let sum := ((row.2.1 &&& (b 0).toNat) <<< (i * 6)) +
        ((b 1).toNat &&& (0x3F <<< ((i - 1) * 6)))
      if sum < row.2.2 then 7 else i + 1

namespace CharBuf

def fklIsLower (c : UInt8) : Bool := ch 'a' ≤ c && c ≤ ch 'z'

def fklToUpper (c : UInt8) : UInt8 := if fklIsLower c then c &&& 0x5F else c

def fklIsGraph (c : UInt8) : Bool := 0x21 ≤ c && c < 0x7F

def fklIsNumberCharBuf (buf : Memory) (len : Nat) : Bool :=
  fklIsDecInt buf len || fklIsOctInt buf len || fklIsHexInt buf len ||
    fklIsDecFloat buf len || fklIsHexFloat buf len

/-- The value of a digit of any base. -/
def digitOf (c : UInt8) : Nat :=
  if fklIsDigit c then (c - ch '0').toNat else (fklToUpper c - ch 'A').toNat + 10

/-- The digits from `i` on, of the next `n` bytes, added to `acc`. -/
def readDigits (p : UInt8 → Bool) (base : Nat) (buf : Memory) : Nat → Nat → Nat → Nat
  | 0, _, acc => acc
  | n + 1, i, acc =>
    if p (buf i) then readDigits p base buf n (i + 1) (acc * base + digitOf (buf i)) else acc

end CharBuf

open CharBuf

def isOctDigit (c : UInt8) : Bool := fklIsDigit c && c < ch '8'

/-- `FKL_ESCAPE_CHARS` with `FKL_ESCAPE_CHARS_TO`. -/
def escapeChars : List (UInt8 × UInt8) :=
  [(ch 'A', 7), (ch 'B', 8), (ch 'T', 9), (ch 'N', 10), (ch 'V', 11), (ch 'F', 12), (ch 'R', 13),
    (ch 'S', 32)]

def escapeCharTo (c : UInt8) : UInt8 :=
  match escapeChars.find? fun row => row.1 = fklToUpper c with
  | some row => row.2
  | none => c

/-- The part of `fklCharBufToChar` behind the backslash. -/
def escapedChar (buf : Memory) (len : Nat) : Nat :=
  if fklToUpper (buf 0) = ch 'X' ∧ fklIsXDigit (buf 1) then
    readDigits fklIsXDigit 16 buf (len - 1) 1 0
  else if fklIsNumberCharBuf buf len then
    if fklIsHexInt buf len then readDigits fklIsXDigit 16 buf (len - 2) 2 0
    else if fklIsOctInt buf len then readDigits isOctDigit 8 buf (len - 1) 1 0
    else readDigits fklIsDigit 10 buf len 0 0
  else (escapeCharTo (buf 0)).toNat

def fklCharBufToChar (buf : Memory) (len : Nat) : Nat :=
  if buf 0 ≠ backslash then (buf 0).toNat
  else if len = 1 then backslash.toNat
  else escapedChar (fun i => buf (i + 1)) (len - 1)

/-- How many bytes `fklCastEscapeCharBuf` takes for one escape. -/
def escapeLen (s : Memory) : Nat :=
  if fklIsDigit (s 1) then
    if s 1 = ch '0' then
      if fklToUpper (s 2) = ch 'X' then skipWhile fklIsXDigit s 3 2
      else skipWhile isOctDigit s 4 1
    else skipWhile fklIsDigit s 3 1
  else if fklToUpper (s 1) = ch 'X' then skipWhile fklIsXDigit s 2 2
  else 2

/-- The loop of `fklCastEscapeCharBuf` from `i` on; `n` is a bound on what is left of it. -/
def castEscapeFrom (mem : Memory) (str size : Nat) : Nat → Nat → List UInt8
  | 0, _ => []
  | n + 1, i =>
    if i < size then
      if mem (str + i) = backslash then
        let len := escapeLen fun k => mem (str + i + k)
        UInt8.ofNat (fklCharBufToChar (fun k => mem (str + i + k)) len) ::
          castEscapeFrom mem str size n (i + len)
      else mem (str + i) :: castEscapeFrom mem str size n (i + 1)
    else []

def fklCastEscapeCharBuf (mem : Memory) (str size : Nat) : List UInt8 :=
  castEscapeFrom mem str size size 0

def hexDigit (n : Nat) : UInt8 := if n < 10 then UInt8.ofNat (48 + n) else UInt8.ofNat (55 + n)

/-- The format `\\x%02X`. -/
def hexEscape (c : UInt8) : List UInt8 :=
  [backslash, ch 'x', hexDigit (c.toNat / 16), hexDigit (c.toNat % 16)]

/-- What `fklStrBuilderPutEscSeq` writes for the characters it knows. -/
def escSeq (c : UInt8) : Option (List UInt8) :=
  if c = 10 then some [backslash, ch 'n']
  else if c = 9 then some [backslash, ch 't']
  else if c = 11 then some [backslash, ch 'v']
  else if c = 7 then some [backslash, ch 'a']
  else if c = 8 then some [backslash, ch 'b']
  else if c = 12 then some [backslash, ch 'f']
  else if c = 13 then some [backslash, ch 'r']
  else if c = 32 then some [32]
  else none

/-- A byte on its own, `l` being 1. -/
def asciiLiteral (se c : UInt8) : List UInt8 :=
  if c = se then [backslash, se]
  else if c = backslash then [backslash, backslash]
  else if fklIsGraph c then [c]
  else (escSeq c).getD (hexEscape c)

/-- The loop of `fklPrintBufLiteralExt`; `n` is a bound on the bytes left. -/
def printBufFrom (se : UInt8) : Nat → List UInt8 → List UInt8
  | 0, _ => []
  | _ + 1, [] => []
  | n + 1, c :: str =>
    let l := fklGetByteNumOfUtf8 (c :: str)
    if l = 7 then hexEscape c ++ printBufFrom se n str
    else if l = 1 then asciiLiteral se c ++ printBufFrom se n str
    else (c :: str).take l ++ printBufFrom se n ((c :: str).drop l)

def fklPrintBufLiteralExt (str beginStr endStr : List UInt8) (se : UInt8) : List UInt8 :=
  beginStr ++ printBufFrom se str.length str ++ endStr

/-- The runs of bytes that the printer takes for one character and writes as they are. -/
def rawRunsFrom : Nat → List UInt8 → List (List UInt8)
  | 0, _ => []
  | _ + 1, [] => []
  | n + 1, c :: str =>
    let l := fklGetByteNumOfUtf8 (c :: str)
    if l = 7 ∨ l = 1 then rawRunsFrom n str
    else (c :: str).take l :: rawRunsFrom n ((c :: str).drop l)

def rawRuns (str : List UInt8) : List (List UInt8) := rawRunsFrom str.length str

end FakeLisp
