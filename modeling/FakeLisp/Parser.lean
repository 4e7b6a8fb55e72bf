import FakeLisp.ActionMatchBound

/-! The parser reads the analysis table with a stack of states and a stack of symbols, both with
their tops first. The callbacks pass on a state of their own. -/

namespace FakeLisp

inductive FklAnalysisStateActionEnum where
  | shift (state : Nat)
  | accept
  | reduce (prod : FklGrammerProduction) (actualLen : Nat)
  | ignore
  deriving DecidableEq

/-- The action passes over what it is taken on. -/
def FklAnalysisStateActionEnum.Takes : FklAnalysisStateActionEnum → Prop
  | .shift _ | .ignore => True
  | .accept | .reduce _ _ => False

structure FklAnalysisStateAction where
  m : FklAnalysisStateActionMatch
  action : FklAnalysisStateActionEnum
  eof_not_taken : m.t = .eof → ¬action.Takes

theorem ignore_not_taken_on_eof :
    FklLalrItemLookAhead.ignore = .eof → ¬FklAnalysisStateActionEnum.ignore.Takes := by
  simp

structure FklAnalysisStateGoto where
  allowIgnore : Bool
  nt : Nat
  state : Nat

structure FklAnalysisState where
  action : List FklAnalysisStateAction
  gt : List FklAnalysisStateGoto

abbrev FklAnalysisTable := List FklAnalysisState

/-- The nonterminal of a terminal is `NULL`. -/
structure FklAnalysisSymbol (α : Type) where
  nt : Nat
  ast : α
  line : Nat
  startWithIgnore : Bool

structure FklParseCallbacks (σ α : Type) where
  create : List UInt8 → Nat → σ → α × σ
  destroy : α → σ → σ
  func : FklGrammerProduction → List (FklAnalysisSymbol α) → Nat → σ → Option α × σ

inductive FklParseError where
  | terminalMatchFailed
  | reduceFailed
  | waitingForMore
  deriving DecidableEq

def charBuf (mem : Memory) (cstr len : Nat) : List UInt8 :=
  (List.range len).map fun i => mem (cstr + i)

def fklCountCharInBuf (mem : Memory) (cstr len : Nat) : Nat :=
  (charBuf mem cstr len).count 10

/-- The variables of the loop. The line is the one of the context. -/
structure FklParser (σ α : Type) where
  cstr : Nat
  restLen : Nat
  ctx : FklGrammerMatchCtx
  line : Nat
  waitingForMoreErr : Bool
  stateStack : List Nat
  symbolStack : List (FklAnalysisSymbol α)
  outer : σ

/-- What a round of the loop did. -/
inductive FklParseEvent where
  | ignore (m : FklAnalysisStateActionMatch) (args : FklStateActionMatchArgs)
  | shift (m : FklAnalysisStateActionMatch) (args : FklStateActionMatchArgs)
  | reduce (prod : FklGrammerProduction) (actualLen : Nat)

inductive FklParseRound (σ α : Type) where
  | next (ev : FklParseEvent) (p : FklParser σ α)
  | accept (top : FklAnalysisSymbol α)
  | error (err : FklParseError)

variable {σ α : Type}

def fklGetFirstNthLine (symbolStack : List (FklAnalysisSymbol α)) (num line : Nat) : Nat :=
  match (symbolStack.take num).getLast? with
  | some s => s.line
  | none => line

/-- `ctx->destroy` for each of the symbols. -/
def destroyAll (cb : FklParseCallbacks σ α) (base : List (FklAnalysisSymbol α)) (outer : σ) : σ :=
  base.foldl (fun outer s => cb.destroy s.ast outer) outer

/-- `base[0].start_with_ignore` -/
def baseStartWithIgnore (base : List (FklAnalysisSymbol α)) : Bool :=
  match base.head? with
  | some s => s.startWithIgnore
  | none => false

def doReduceAction (table : FklAnalysisTable) (cb : FklParseCallbacks σ α) (p : FklParser σ α)
    (prod : FklGrammerProduction) (len : Nat) : Option (FklParseRound σ α) := do
  if p.stateStack.length < len ∨ p.symbolStack.length < len then failure
  else
    let line := fklGetFirstNthLine p.symbolStack len p.line
    let stateStack := p.stateStack.drop len
    let base := (p.symbolStack.take len).reverse
    let top ← stateStack.head?
    let state ← table[top]?
    match state.gt.find? fun gt =>
        (gt.allowIgnore || !baseStartWithIgnore base) && gt.nt = prod.left with
    | none => return .error .reduceFailed
    | some gt =>
      let (ast, outer) := cb.func prod base line p.outer
      let outer := destroyAll cb base outer
      match ast with
      | none => return .error .reduceFailed
      | some ast =>
        let symbol := ⟨prod.left, ast, line, baseStartWithIgnore base⟩
        return .next (.reduce prod len)
          { p with
            outer := outer
            symbolStack := symbol :: p.symbolStack.drop len
            stateStack := gt.state :: stateStack }

namespace FklGrammerTerms

variable (g : FklGrammerTerms) (mem : Memory) (fuel : Nat)

/-- A part of a composite terminal is matched once more, and this time it has to be there. -/
def partMatch (start cur rest : Nat) : FklCompPart → MatchM Nat
  | .string s =>
    if fklCharBufMatch (g.str s) mem cur rest then return (g.str s).length else matchFailed
  | .regex re => do
    let len := (g.regexMatch mem re cur rest).1
    if len > rest then matchFailed else return len
  | .builtin b => do
    match ← g.builtinMatches mem fuel b start cur rest with
    | some len => return len
    | none => matchFailed

/-- The symbols of the parts from a place on, the last one first. -/
def emplaceParts (cb : FklParseCallbacks σ α) (ctxLine start : Nat) : List FklCompPart → Nat →
    Nat → Bool → Nat → List (FklAnalysisSymbol α) → σ → MatchM (List (FklAnalysisSymbol α) × σ)
  | [], _, _, _, _, symbols, outer => return (symbols, outer)
  | part :: parts, cur, rest, startWithIgnore, line, symbols, outer => do
    let partLen ← g.partMatch mem fuel start cur rest part
    let (ast, outer) := cb.create (charBuf mem cur partLen) ctxLine outer
    emplaceParts cb ctxLine start parts (cur + partLen) (sizeSub rest partLen) false
      (line + fklCountCharInBuf mem cur partLen) (⟨0, ast, line, startWithIgnore⟩ :: symbols) outer

def fklEmplaceAnalysisSymbol (cb : FklParseCallbacks σ α) (symbols : List (FklAnalysisSymbol α))
    (t : FklLalrItemLookAhead) (start cur rest : Nat) (startWithIgnore : Bool) (line : Nat)
    (outer : σ) : MatchM (List (FklAnalysisSymbol α) × σ) :=
  match t with
  | .comp parts =>
    g.emplaceParts mem fuel cb line start parts cur rest startWithIgnore line symbols outer
  | _ =>
    let (ast, outer) := cb.create (charBuf mem cur rest) line outer
    return (⟨0, ast, line, startWithIgnore⟩ :: symbols, outer)

/-- The first of the actions whose match succeeds. -/
def findAction (start cstr restLen : Nat) : List FklAnalysisStateAction →
    FklStateActionMatchArgs → MatchM (Option FklAnalysisStateAction × FklStateActionMatchArgs)
  | [], args => return (none, args)
  | a :: as, args => do
    let (found, args) ← g.fklIsStateActionMatch mem fuel a.m start cstr restLen args
    if found then return (some a, args) else findAction start cstr restLen as args

/-- How many states a shift pushes. -/
def shiftCount : FklLalrItemLookAhead → Nat
  | .comp parts => parts.length
  | _ => 1

/-- What has to be there. -/
def orFailed {β : Type} : Option β → Except MatchStop β
  | some b => .ok b
  | none => .error .failed

@[simp] theorem orFailed_eq_ok {β : Type} {o : Option β} {b : β} :
    orFailed o = .ok b ↔ o = some b := by
  cases o <;> simp [orFailed]

theorem orFailed_eq_error {β : Type} {o : Option β} {e : MatchStop} (h : orFailed o = .error e) :
    e = .failed := by
  cases o <;> cases h
  rfl

/-- A round of the loop of the parser. -/
def parseRound (table : FklAnalysisTable) (cb : FklParseCallbacks σ α) (start : Nat)
    (p : FklParser σ α) : Except MatchStop (FklParseRound σ α) := do
  let top ← orFailed p.stateStack.head?
  let state ← orFailed table[top]?
  let ((action, args), r) ← g.findAction mem fuel start p.cstr p.restLen state.action .init
    ⟨p.ctx, false⟩
  let p := { p with
    ctx := r.ctx
    waitingForMoreErr := p.waitingForMoreErr || r.isWaitingForMore }
  match action with
  | none =>
    return .error (if p.waitingForMoreErr || decide (p.restLen ≠ 0 ∧ p.restLen = args.skipIgnoreLen)
      then .waitingForMore else .terminalMatchFailed)
  | some a =>
    let len := args.matchLen + args.skipIgnoreLen
    let line := p.line + fklCountCharInBuf mem p.cstr len
    match a.action with
    | .ignore =>
      return .next (.ignore a.m args)
        { p with line := line, cstr := p.cstr + len, restLen := sizeSub p.restLen len }
    | .shift state =>
      let ((symbols, outer), r) ← g.fklEmplaceAnalysisSymbol mem fuel cb p.symbolStack a.m.t start
        (p.cstr + args.skipIgnoreLen) args.matchLen (0 < args.skipIgnoreLen) p.line p.outer
        ⟨p.ctx, false⟩
      return .next (.shift a.m args)
        { p with
          ctx := r.ctx
          outer := outer
          symbolStack := symbols
          stateStack := List.replicate (shiftCount a.m.t) state ++ p.stateStack
          line := line
          cstr := p.cstr + len
          restLen := sizeSub p.restLen len }
    | .accept => orFailed (p.symbolStack.head?.map .accept)
    | .reduce prod actualLen => orFailed (doReduceAction table cb p prod actualLen)

/-- The loop of the parser, with what its rounds did. -/
def fklParseWithTableForCharBuf2 (table : FklAnalysisTable) (cb : FklParseCallbacks σ α)
    (start : Nat) : Nat → FklParser σ α →
      Except MatchStop (List FklParseEvent × Except FklParseError (FklAnalysisSymbol α))
  | 0, p => .error (.cutOff [] p.cstr)
  | n + 1, p => do
    match ← g.parseRound mem fuel table cb start p with
    | .next ev p =>
      let (evs, res) ← fklParseWithTableForCharBuf2 table cb start n p
      return (ev :: evs, res)
    | .accept top => return ([], .ok top)
    | .error err => return ([], .error err)

/-- The rounds that lead from one state of the parser to another one. -/
inductive Parses (table : FklAnalysisTable) (cb : FklParseCallbacks σ α) (start : Nat) :
    FklParser σ α → List FklParseEvent → FklParser σ α → Prop
  | refl (p : FklParser σ α) : Parses table cb start p [] p
  | step {p q r : FklParser σ α} {evs : List FklParseEvent} {ev : FklParseEvent}
    (h : Parses table cb start p evs q)
    (hround : g.parseRound mem fuel table cb start q = .ok (.next ev r)) :
    Parses table cb start p (evs ++ [ev]) r

end FklGrammerTerms

end FakeLisp
