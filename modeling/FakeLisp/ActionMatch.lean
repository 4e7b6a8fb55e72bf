import FakeLisp.Grammer
import FakeLisp.PartialTriple
import FakeLisp.Terminals

/-! The terminals of the analysis table are matched against the input. The length of a word, up to
the next delimiter or ignored text, is kept for the place that was looked at last. -/

namespace FakeLisp

/-- The functions behind the builtin terminals. -/
inductive FklLalrBuiltinMatch where
  | decInt
  | hexInt
  | octInt
  | decFloat
  | hexFloat
  | identifier
  | nodelimiter
  | sDint
  | sXint
  | sOint
  | sDfloat
  | sXfloat
  | sChar
  | never
  | symbol
  | rawString
  deriving DecidableEq

inductive FklGrammerIgnoreSym where
  | builtin (b : FklLalrBuiltinGrammerSym)
  | regex (re : Nat)
  | string (str : Nat)
  deriving DecidableEq

abbrev FklGrammerIgnore := List FklGrammerIgnoreSym

/-- The part of a grammar that matching reads. -/
structure FklGrammerTerms where
  /-- The bytes of the strings. -/
  str : Nat → List UInt8
  ignores : List FklGrammerIgnore
  sortedDelimiters : List (List UInt8)
  /-- The function of a builtin terminal, by its address. -/
  builtinMatch : Nat → FklLalrBuiltinMatch
  /-- `fklRegexLexMatchp`: a length, more than there are bytes when nothing is matched, and
  `last_is_true` -/
  regexLexMatchp : Nat → List UInt8 → Nat × Bool

structure FklGrammerMatchCtx where
  maxNonterminalLen : Nat
  start : Nat
  cur : Nat

/-- The context and the flag `is_waiting_for_more`. -/
structure MatchRun where
  ctx : FklGrammerMatchCtx
  isWaitingForMore : Bool

/-- Why there is no result. -/
inductive MatchStop where
  /-- An assertion fails, or nothing is there where something is read. -/
  | failed
  /-- The fuel is used up. The matcher has come to `place`, and `get_max_non_term_length` is at work
  for the places `words`, the first call first. -/
  | cutOff (words : List Nat) (place : Nat)
  deriving DecidableEq

abbrev MatchM := StateT MatchRun (Except MatchStop)

section

variable {α : Type}

def matchFailed : MatchM α := fun _ => .error .failed

def matchCutOff (place : Nat) : MatchM α := fun _ => .error (.cutOff [] place)

/-- Meanwhile `get_max_non_term_length` is at work for `cur`. -/
def measuring (cur : Nat) (m : MatchM α) : MatchM α := fun r =>
  match m r with
  | .error (.cutOff words place) => .error (.cutOff (cur :: words) place)
  | res => res

/-- A flag of its own. -/
def withOwnFlag (m : MatchM α) : MatchM α := fun r =>
  (m { r with isWaitingForMore := false }).map fun (a, r') =>
    (a, { r' with isWaitingForMore := r.isWaitingForMore })

end

def waitForMore (b : Bool) : MatchM Unit :=
  modify fun r => { r with isWaitingForMore := r.isWaitingForMore || b }

namespace FklGrammerTerms

variable (g : FklGrammerTerms) (mem : Memory)

def regexMatch (re cstr restLen : Nat) : Nat × Bool :=
  g.regexLexMatchp re ((List.range restLen).map fun i => mem (cstr + i))

/-! The builtin terminals. `maxLen` stands for `get_max_non_term_length`. -/

section

variable (maxLen : Nat → Nat → Nat → MatchM Nat)

/-- A word that passes a test. -/
def wordMatch (test : Memory → Nat → Bool) (start cstr restLen : Nat) : MatchM (Option Nat) := do
  let len ← maxLen start cstr restLen
  if len ≠ 0 ∧ test (fun i => mem (cstr + i)) len then return some len else return none

/-- The functions that stop at once at the end of the input. -/
def numberMatch (test : Memory → Nat → Bool) (start cstr restLen : Nat) : MatchM (Option Nat) :=
  if restLen = 0 then return none else wordMatch mem maxLen test start cstr restLen

/-- A number that the start of a quoted symbol does not follow. -/
def sNumberMatch (test : Memory → Nat → Bool) (args : List (List UInt8))
    (start cstr restLen : Nat) : MatchM (Option Nat) :=
  numberMatch mem maxLen (fun s len => (match args.head? with
    | none => true
    | some opening => !fklCharBufMatch opening mem (cstr + len) (sizeSub restLen len)) &&
      test s len)
    start cstr restLen

def sCharMatch (args : List (List UInt8)) (start cstr restLen : Nat) : MatchM (Option Nat) :=
  match args.head? with
  | none => matchFailed
  | some pre =>
    if restLen < pre.length + 1 then return none
    else if !fklCharBufMatch pre mem cstr restLen then return none
    else do
      let len ← maxLen start (cstr + pre.length) (restLen - pre.length)
      return some (pre.length + if len = 0 then 1 else len)

/-- The loop of `?symbol` with a quote; `cstr` goes on with `matchLen`. -/
def symbolLoop (opening ending : List UInt8) (start cstr restLen : Nat) :
    Nat → Nat → MatchM (Option Nat)
  | 0, matchLen => matchCutOff (cstr + matchLen)
  | fuel + 1, matchLen => do
    if fklCharBufMatch opening mem (cstr + matchLen) (sizeSub restLen matchLen) then
      let matchLen := matchLen + opening.length
      let len := fklQuotedCharBufMatch mem (cstr + matchLen) (sizeSub restLen matchLen) ending
      if len = 0 then
        waitForMore true
        return none
      else symbolLoop opening ending start cstr restLen fuel (matchLen + len)
    else
      let len ← maxLen start (cstr + matchLen) (sizeSub restLen matchLen)
      let quoted := fklCharBufMatch opening mem (cstr + matchLen + len)
        (sizeSub (sizeSub restLen len) matchLen)
      if matchLen = 0 ∧ len = 0 ∨ ¬quoted ∧ len ≠ 0 ∧
          CharBuf.looksNumeric (fun i => mem (cstr + matchLen + i)) len then return none
      else
        let matchLen := matchLen + len
        if !fklCharBufMatch opening mem (cstr + matchLen) (sizeSub restLen matchLen) then
          return if matchLen ≠ 0 then some matchLen else none
        else symbolLoop opening ending start cstr restLen fuel matchLen

def symbolMatch (fuel : Nat) (args : List (List UInt8)) (start cstr restLen : Nat) :
    MatchM (Option Nat) :=
  match args with
  | [] => wordMatch mem maxLen (fun s len => !CharBuf.looksNumeric s len) start cstr restLen
  | [opening] => symbolLoop mem maxLen opening opening start cstr restLen fuel 0
  | opening :: ending :: _ => symbolLoop mem maxLen opening ending start cstr restLen fuel 0

end

/-- The closing delimiter is at `cstr`. -/
def rawStringEndsAt (ending delim : List UInt8) (cstr restLen : Nat) : Bool :=
  fklCharBufMatch ending mem cstr restLen &&
    fklCharBufMatch delim mem (cstr + ending.length) (restLen - ending.length) &&
    fklCharBufMatch ending mem (cstr + ending.length + delim.length)
      (restLen - ending.length - delim.length)

/-- `expect_end`: how far it is to the end of the closing delimiter, if it comes. -/
def rawStringEnd (ending delim : List UInt8) (cstr : Nat) (restLen : Nat) : Option Nat :=
  let total := ending.length + delim.length + ending.length
  if restLen < total then none
  else if rawStringEndsAt mem ending delim cstr restLen then some total
  else
    match restLen with
    | 0 => none
    | restLen + 1 => (rawStringEnd ending delim (cstr + 1) restLen).map (· + 1)

/-- How far it is to the opening delimiter. -/
def rawStringDelim (opening : List UInt8) : Nat → Nat → Nat
  | _, 0 => 0
  | cstr, restLen + 1 =>
    if fklCharBufMatch opening mem cstr (restLen + 1) then 0
    else rawStringDelim opening (cstr + 1) restLen + 1

def rawStringMatch (args : List (List UInt8)) (cstr restLen : Nat) : MatchM (Option Nat) :=
  match args with
  | [] => matchFailed
  | opening :: args =>
    let ending := args.headD opening
    if restLen = 0 then return none
    else if !fklCharBufMatch opening mem cstr restLen then return none
    else
      let matchLen := opening.length
      let delimLen := rawStringDelim mem opening (cstr + matchLen) (restLen - matchLen)
      if restLen - matchLen - delimLen = 0 then do
        waitForMore true
        return none
      else
        let delim := (List.range delimLen).map fun i => mem (cstr + matchLen + i)
        let matchLen := matchLen + delimLen + opening.length
        match rawStringEnd mem ending delim (cstr + matchLen) (restLen - matchLen) with
        | some len => return some (matchLen + len)
        | none => do
          waitForMore true
          return none

def builtinMatchFunc (maxLen : Nat → Nat → Nat → MatchM Nat) (fuel : Nat)
    (b : FklLalrBuiltinGrammerSym) (start cstr restLen : Nat) : MatchM (Option Nat) :=
  match g.builtinMatch b.t with
  | .decInt => numberMatch mem maxLen CharBuf.fklIsDecInt start cstr restLen
  | .hexInt => numberMatch mem maxLen CharBuf.fklIsHexInt start cstr restLen
  | .octInt => numberMatch mem maxLen CharBuf.fklIsOctInt start cstr restLen
  | .decFloat => numberMatch mem maxLen CharBuf.fklIsDecFloat start cstr restLen
  | .hexFloat => numberMatch mem maxLen CharBuf.fklIsHexFloat start cstr restLen
  | .identifier =>
    wordMatch mem maxLen (fun s len => !CharBuf.looksNumeric s len) start cstr restLen
  | .nodelimiter => wordMatch mem maxLen (fun _ _ => true) start cstr restLen
  | .sDint => sNumberMatch mem maxLen CharBuf.fklIsDecInt b.args start cstr restLen
  | .sXint => sNumberMatch mem maxLen CharBuf.fklIsHexInt b.args start cstr restLen
  | .sOint => sNumberMatch mem maxLen CharBuf.fklIsOctInt b.args start cstr restLen
  | .sDfloat => sNumberMatch mem maxLen CharBuf.fklIsDecFloat b.args start cstr restLen
  | .sXfloat => sNumberMatch mem maxLen CharBuf.fklIsHexFloat b.args start cstr restLen
  | .sChar => sCharMatch mem maxLen b.args start cstr restLen
  | .never => return none
  | .symbol => symbolMatch mem maxLen fuel b.args start cstr restLen
  | .rawString => rawStringMatch mem b.args cstr restLen

/-! Ignored text and words. -/

section

variable (builtin : FklLalrBuiltinGrammerSym → Nat → Nat → Nat → MatchM (Option Nat))

/-- The loop of `ignore_match`. A regular expression is given all of `restLen`. -/
def ignoreMatch (start restLen : Nat) : FklGrammerIgnore → Nat → Nat → MatchM (Option Nat)
  | [], _, matchLen => return some matchLen
  | .builtin b :: ig, str, matchLen => do
    match ← builtin b start str (sizeSub restLen matchLen) with
    | some len => ignoreMatch start restLen ig (str + len) (matchLen + len)
    | none => return none
  | .regex re :: ig, str, matchLen => do
    let (len, lastIsTrue) := g.regexMatch mem re str restLen
    if len > restLen then
      waitForMore lastIsTrue
      return none
    else ignoreMatch start restLen ig (str + len) (matchLen + len)
  | .string s :: ig, str, matchLen =>
    if fklCharBufMatch (g.str s) mem str (sizeSub restLen matchLen) then
      ignoreMatch start restLen ig (str + (g.str s).length) (matchLen + (g.str s).length)
    else return none

/-- The first of the ignore rules that matches. -/
def ignoresMatch (start str restLen : Nat) : List FklGrammerIgnore → MatchM (Option Nat)
  | [] => return none
  | ig :: igs => do
    match ← ignoreMatch g mem builtin start restLen ig str 0 with
    | some len => return some len
    | none => ignoresMatch start str restLen igs

/-- The loop of `get_max_non_term_length`; `n` bytes are left. -/
def maxLenLoop (start : Nat) : Nat → Nat → Nat → MatchM Nat
  | 0, len, _ => return len
  | n + 1, len, cur => do
    if (← withOwnFlag (ignoresMatch g mem builtin start cur (n + 1) g.ignores)).isSome then
      return len
    else if g.sortedDelimiters.any fun term => fklCharBufMatch term mem cur (n + 1) then return len
    else maxLenLoop start n (len + 1) (cur + 1)

end

def getMaxNonTermLength : Nat → Nat → Nat → Nat → MatchM Nat
  | 0, _, cur, _ => matchCutOff cur
  | fuel + 1, start, cur, restLen => do
    if restLen = 0 then return 0
    else
      let r ← get
      if start = r.ctx.start ∧ cur = r.ctx.cur then return r.ctx.maxNonterminalLen
      else
        modify fun r => { r with ctx := { r.ctx with start := start, cur := cur } }
        let len ← measuring cur (maxLenLoop g mem
          (builtinMatchFunc g mem (getMaxNonTermLength fuel) fuel) start restLen 0 cur)
        modify fun r => { r with ctx := { r.ctx with maxNonterminalLen := len } }
        return len

variable (fuel : Nat)

/-- A builtin terminal is matched. -/
def builtinMatches : FklLalrBuiltinGrammerSym → Nat → Nat → Nat → MatchM (Option Nat) :=
  builtinMatchFunc g mem (getMaxNonTermLength g mem fuel) fuel

/-- The loop of `match_ignore`. The place where the ignored text starts stands for `start`. -/
def matchIgnore (cstr restLen : Nat) : Nat → Nat → MatchM Nat
  | 0, retLen => if restLen > retLen then matchCutOff (cstr + retLen) else return retLen
  | n + 1, retLen => do
    if restLen > retLen then
      match ← ignoresMatch g mem (g.builtinMatches mem fuel) cstr (cstr + retLen)
          (restLen - retLen) g.ignores with
      | some matchLen => matchIgnore cstr restLen n (retLen + matchLen)
      | none => return retLen
    else return retLen

/-- The loop of `match_comp`. -/
def matchComp (start : Nat) : List FklCompPart → Nat → Nat → Nat → MatchM (Option Nat)
  | [], _, _, total => return some total
  | .string s :: parts, cur, rest, total =>
    if fklCharBufMatch (g.str s) mem cur rest then
      let partLen := (g.str s).length
      matchComp start parts (cur + partLen) (sizeSub rest partLen) (total + partLen)
    else return none
  | .regex re :: parts, cur, rest, total => do
    let (len, lastIsTrue) := g.regexMatch mem re cur rest
    if len > rest then
      waitForMore lastIsTrue
      return none
    else matchComp start parts (cur + len) (sizeSub rest len) (total + len)
  | .builtin b :: parts, cur, rest, total => do
    match ← g.builtinMatches mem fuel b start cur rest with
    | some len => matchComp start parts (cur + len) (sizeSub rest len) (total + len)
    | none => return none

end FklGrammerTerms

/-! Actions. -/

/-- What an action is taken on. The action on ignored text does not skip any. -/
structure FklAnalysisStateActionMatch where
  t : FklLalrItemLookAhead
  allowIgnore : Bool
  ignore_eq : t = .ignore → allowIgnore = false
  deriving DecidableEq

structure FklStateActionMatchArgs where
  matchLen : Nat
  skipIgnoreLen : Nat
  ignoreLen : Int

namespace FklStateActionMatchArgs

/-- `FKL_STATE_ACTION_MATCH_ARGS_INIT` -/
def init : FklStateActionMatchArgs := ⟨0, 0, -2⟩

end FklStateActionMatchArgs

/-- A size as a signed one. -/
def toSSize (n : Nat) : Int := if n < 2 ^ 63 then n else n - 2 ^ 64

namespace FklGrammerTerms

variable (g : FklGrammerTerms) (mem : Memory) (fuel : Nat)

/-- `match_start` up to the test of the flag. -/
def terminalMatch (t : FklLalrItemLookAhead) (start cstr restLen : Nat) (skip : Nat) :
    MatchM (Option Nat) :=
  let at_ := cstr + skip
  let rest := sizeSub restLen skip
  match t with
  | .string s =>
    return if fklCharBufMatch (g.str s) mem at_ rest then some (g.str s).length else none
  | .keyword s => do
    let len ← g.getMaxNonTermLength mem fuel start at_ rest
    return if len = (g.str s).length ∧ fklCharBufMatch (g.str s) mem at_ rest then
      some (g.str s).length else none
  | .eof => return some 1
  | .builtin b => g.builtinMatches mem fuel b start at_ rest
  | .regex re => do
    let (len, lastIsTrue) := g.regexMatch mem re at_ rest
    if len > rest then
      waitForMore lastIsTrue
      return none
    else return some len
  | .ignore => do
    let len ← g.matchIgnore mem fuel cstr restLen fuel 0
    return if len > 0 then some len else none
  | .comp parts => g.matchComp mem fuel start parts at_ rest 0
  | .none => matchFailed

def fklIsStateActionMatch (m : FklAnalysisStateActionMatch) (start cstr restLen : Nat)
    (args : FklStateActionMatchArgs) : MatchM (Bool × FklStateActionMatchArgs) := do
  let args := { args with skipIgnoreLen := 0 }
  match ← g.terminalMatch mem fuel m.t start cstr restLen 0 with
  | some len => return (true, { args with matchLen := len })
  | none =>
    if (← get).isWaitingForMore || !m.allowIgnore then return (false, args)
    else
      let ignoreLen ← if args.ignoreLen = -2 then
          toSSize <$> g.matchIgnore mem fuel cstr restLen fuel 0
        else pure args.ignoreLen
      let args := { args with ignoreLen := ignoreLen }
      if ignoreLen > 0 then
        let args := { args with skipIgnoreLen := ignoreLen.toNat }
        match ← g.terminalMatch mem fuel m.t start cstr restLen args.skipIgnoreLen with
        | some len => return (true, { args with matchLen := len })
        | none => return (false, args)
      else return (false, args)

end FklGrammerTerms

end FakeLisp
