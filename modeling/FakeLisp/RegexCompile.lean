import FakeLisp.CharClass
import FakeLisp.Words

/-! Regular expressions are compiled in two passes: the first counts the objects and the bytes of
the classes, the second writes them. -/

namespace FakeLisp.Regex

/-- How a run of the compiler goes. `fault`: a byte behind the pattern is read, something outside
of what was allocated is accessed, or an assertion fails. -/
inductive ReRun (α : Type) where
  | outOfFuel
  | fault
  | rejected
  | done (a : α)

namespace ReRun

variable {α β : Type}

def andThen : ReRun α → (α → ReRun β) → ReRun β
  | outOfFuel, _ => outOfFuel
  | fault, _ => fault
  | rejected, _ => rejected
  | done a, f => f a

instance : Monad ReRun where
  pure := done
  bind := andThen

@[simp] theorem done_bind (a : α) (f : α → ReRun β) : done a >>= f = f a := rfl

@[simp] theorem rejected_bind (f : α → ReRun β) : rejected >>= f = rejected := rfl

@[simp] theorem fault_bind (f : α → ReRun β) : fault >>= f = fault := rfl

@[simp] theorem outOfFuel_bind (f : α → ReRun β) : outOfFuel >>= f = outOfFuel := rfl

/-- An access to a place that may not be there. -/
def access : Option α → ReRun α
  | some a => done a
  | none => fault

end ReRun

open ReRun

structure ReInst where
  p : Nat
  trueoff : Nat
  failoff : Nat

/-- `ReCompileCtx`, whose `ecnt` is the length of `inst`. -/
structure ReCompileCtx where
  inst : List ReInst
  objs : Nat
  strln : Nat
  stcnt : Nat

/-- The rest of the pattern, and the variables of `compile_count`. -/
structure CountState where
  pat : List UInt8
  ctx : ReCompileCtx
  brcnt : Nat
  resel : Nat

/-- How many bytes stand before the bracket that closes a class; `skip` of them belong to an
escape. The loop tests its index before it moves it on. -/
def bracketScan : Nat → List UInt8 → ReRun Nat
  | _, [] => fault
  | skip + 1, _ :: pat => do
    let n ← bracketScan skip pat
    done (n + 1)
  | 0, c :: pat =>
    if c = ch ']' then done 0
    else if c = backslash then
      if pat = [] then rejected
      else do
        let n ← bracketScan (countNumberEscChar pat) pat
        done (n + 1)
    else do
      let n ← bracketScan 0 pat
      done (n + 1)

/-- The text of a class without the `^` that inverts it. -/
def classText (pat : List UInt8) : List UInt8 :=
  if pat.head? = some (ch '^') then pat.tail else pat

def fuelled {α : Type} : Option α → ReRun α
  | some a => done a
  | none => outOfFuel

/-- The body of the loop of `compile_count`, without the step to the next object. -/
def compileCountStep (fuel : Nat) (c : UInt8) (s : CountState) : ReRun CountState :=
  let ctx := s.ctx
  if c = backslash then
    if s.pat = [] then rejected
    else done { s with pat := s.pat.drop (countNumberEscChar s.pat) }
  else if c = ch '*' ∨ c = ch '+' then
    done { s with ctx := { ctx with stcnt := u32 (ctx.stcnt + 1 : Nat) } }
  else if c = ch '(' then
    if s.pat = [] then rejected
    -- the block is made for `ecnt + 1` groups, which is 0 then
    else if 2 ^ 32 ≤ ctx.inst.length + 1 then fault
    else
      let inst := ctx.inst ++ [⟨s.resel, ctx.objs, 0⟩]
      done { s with ctx := { ctx with inst }, brcnt := s.brcnt + 1, resel := ctx.inst.length }
  else if c = ch ')' then
    if s.brcnt = 0 then rejected
    else do
      let cur ← access ctx.inst[s.resel]?
      let inst := ctx.inst.set s.resel { cur with failoff := ctx.objs }
      done { s with ctx := { ctx with inst }, brcnt := s.brcnt - 1, resel := cur.p }
  else if c = ch '[' then
    if s.pat = [] then rejected
    else do
      let pat := classText s.pat
      let n ← bracketScan 0 pat
      let len ← fuelled (computeCharClassLen fuel (pat.take n))
      done { s with pat := pat.drop (n + 1), ctx := { ctx with strln := u32 (ctx.strln + len : Nat) } }
  else done s

def CountState.nextObj (s : CountState) : CountState :=
  { s with ctx := { s.ctx with objs := u32 (s.ctx.objs + 1 : Nat) } }

/-- The loop of `compile_count`, which takes a byte of the pattern at least. -/
def compileCountLoop (fuel : Nat) : Nat → CountState → ReRun CountState
  | 0, _ => outOfFuel
  | n + 1, s =>
    match s.pat with
    | [] => done s
    | c :: pat => do
      let s ← compileCountStep fuel c { s with pat }
      compileCountLoop fuel n s.nextObj

def compileCount (fuel : Nat) (pattern : List UInt8) : ReRun ReCompileCtx := do
  let s ← compileCountLoop fuel (pattern.length + 1) ⟨pattern, ⟨[⟨0, 0, 0⟩], 0, 0, 1⟩, 0, 0⟩
  if s.brcnt ≠ 0 then rejected
  else
    let inst := s.ctx.inst.modify 0 fun i => { i with failoff := s.ctx.objs }
    done { s.ctx with inst, objs := u32 (s.ctx.objs + 1 : Nat) }

/-! The second pass. -/

inductive FklRegexType where
  | unused | atBegin | atEnd | dot | char | charClass | invCharClass | digits | notDigits | alpha
  | notAlpha | whitespace | notWhitespace | star | plus | questionmark | branch | groupstart
  | groupend
  deriving DecidableEq

/-- `arg` is the character, or where the bytes of the class begin. -/
structure FklRegexObj where
  type : FklRegexType
  trueoffset : Nat
  falseoffset : Nat
  arg : Nat

/-- `sizeof(FklRegexObj)` -/
def sizeofFklRegexObj : Nat := 16

/-- `patoff` of the first class -/
def firstPatoff (objs : Nat) : Nat := u32 (objs * sizeofFklRegexObj : Nat)

/-- What is allocated for so many objects and bytes of classes. -/
def totalsize (objs strln : Nat) : Nat := u32 (firstPatoff objs + strln : Nat)

/-- There is a place for object `j`. -/
def HasObj (objs strln j : Nat) : Prop :=
  j < objs ∧ (j + 1) * sizeofFklRegexObj ≤ totalsize objs strln

/-- There is a place for `n` bytes of classes behind the objects: where their offset does not fit
32 bits, it is one among the objects. -/
def HasBytes (objs strln n : Nat) : Prop :=
  objs * sizeofFklRegexObj + n ≤ totalsize objs strln

instance (objs strln j : Nat) : Decidable (HasObj objs strln j) :=
  inferInstanceAs (Decidable (_ ∧ _))

instance (objs strln n : Nat) : Decidable (HasBytes objs strln n) :=
  inferInstanceAs (Decidable (_ ≤ _))

/-- What may not be the first object. -/
def needsOperand (c : UInt8) : Bool := c = ch '*' || c = ch '+' || c = ch '?' || c = ch '|'

/-- The rest of the pattern, and what is written: the objects and the bytes of the classes. -/
structure EmitState where
  pat : List UInt8
  objs : List FklRegexObj
  patrns : List UInt8
  ecnt : Nat
  resel : Nat

/-- The loop of a `|` over the objects before it, down from `i`. -/
def branchLoop (j trueoff failoff : Nat) : Nat → List FklRegexObj → ReRun (List FklRegexObj)
  | 0, objs => done objs
  | i + 1, objs =>
    if trueoff < i + 1 then do
      let o ← access objs[i + 1]?
      if o.type = .branch ∧ o.trueoffset = failoff then done objs
      else
        branchLoop j trueoff failoff i
          (if o.falseoffset = failoff then objs.set (i + 1) { o with falseoffset := j } else objs)
    else done objs

/-- What an escape stands for. -/
def escType (c : UInt8) : FklRegexType :=
  if c = ch 'd' then .digits
  else if c = ch 'D' then .notDigits
  else if c = ch 'w' then .alpha
  else if c = ch 'W' then .notAlpha
  else if c = ch 's' then .whitespace
  else if c = ch 'S' then .notWhitespace
  else .char

/-- The character of an escape, if it is one. -/
def escArg (junk : Nat → UInt8) (esc : List UInt8) : ReRun Nat :=
  let c := esc.headD 0
  if escType c ≠ .char then done 0
  else if c = ch 'n' then done 10
  else
    let ch := escCharToChar junk esc
    if ch > uint8Max then rejected else done (UInt8.ofInt ch).toNat

section

variable (ctx : ReCompileCtx)

/-- The object of a repetition behind `prev`, which is told where it stands. -/
def repeatObj (type : FklRegexType) (s : EmitState) : ReRun (List FklRegexObj) :=
  let j := s.objs.length
  if j = 0 then rejected
  else do
    let prev ← access s.objs[j - 1]?
    let cur ← access ctx.inst[s.resel]?
    let objs := s.objs.set (j - 1) { prev with falseoffset := j }
    if type = .questionmark then done (objs ++ [⟨type, j + 1, cur.failoff, 0⟩])
    else if prev.type = .groupend then do
      let group ← access ctx.inst[s.resel + 1]?
      done (objs ++ [⟨type, group.trueoff, cur.failoff, 0⟩])
    else done (objs ++ [⟨type, j - 1, cur.failoff, 0⟩])

/-- `cur_obj` with the offsets that most objects have. -/
def plainObj (type : FklRegexType) (arg : Nat) (s : EmitState) : ReRun EmitState := do
  let cur ← access ctx.inst[s.resel]?
  done { s with objs := s.objs ++ [⟨type, s.objs.length + 1, cur.failoff, arg⟩] }

/-- The `switch` on a byte of the pattern. -/
def emitStep (fuel : Nat) (junk : Nat → Nat → UInt8) (c : UInt8) (s : EmitState) : ReRun EmitState :=
  let j := s.objs.length
  if c = ch '^' then plainObj ctx .atBegin 0 s
  else if c = ch '$' then done { s with objs := s.objs ++ [⟨.atEnd, j + 1, 0, 0⟩] }
  else if c = ch '.' then done { s with objs := s.objs ++ [⟨.dot, j + 1, 0, 0⟩] }
  else if c = ch '*' then do
    let objs ← repeatObj ctx .star s
    done { s with objs }
  else if c = ch '+' then do
    let objs ← repeatObj ctx .plus s
    done { s with objs }
  else if c = ch '?' then do
    let objs ← repeatObj ctx .questionmark s
    done { s with objs }
  else if c = ch '|' then
    if j = 0 then rejected
    else do
      let cur ← access ctx.inst[s.resel]?
      let objs ← branchLoop j cur.trueoff cur.failoff (j - 1) s.objs
      done { s with objs := objs ++ [⟨.branch, cur.failoff, j + 1, 0⟩] }
  else if c = ch '(' then
    let ecnt := s.ecnt + 1
    if ctx.inst.length ≤ ecnt then fault
    else plainObj ctx .groupstart 0 { s with ecnt, resel := ecnt }
  else if c = ch ')' then do
    let cur ← access ctx.inst[s.resel]?
    plainObj ctx .groupend 0 { s with resel := cur.p }
  else if c = backslash then
    if s.pat = [] then rejected
    else do
      let esc := s.pat.take (countNumberEscChar s.pat)
      let arg ← escArg (junk j) esc
      plainObj ctx (escType (esc.headD 0)) arg { s with pat := s.pat.drop (countNumberEscChar s.pat) }
  else if c = ch '[' then do
    let first ← access s.pat.head?
    let pat := classText s.pat
    let n ← bracketScan 0 pat
    let out ← fuelled (charBufToCharClass (junk j) fuel (pat.take n))
    -- the bytes are written before the class is given up
    if ¬HasBytes ctx.objs ctx.strln (s.patrns.length + out.patrns.length) then fault
    else if out.rejected then rejected
    else
      plainObj ctx (if first = ch '^' then .invCharClass else .charClass)
        (u32 (firstPatoff ctx.objs + s.patrns.length : Nat))
        { s with pat := pat.drop (n + 1), patrns := s.patrns ++ out.patrns }
  else plainObj ctx .char c.toNat s

/-- The loop of `fklRegexCompileCharBuf`, which takes a byte of the pattern at least and writes an
object, but for one that may not be the first. The stack is another for each object. -/
def emitLoop (fuel : Nat) (junk : Nat → Nat → UInt8) : Nat → EmitState → ReRun EmitState
  | 0, _ => outOfFuel
  | n + 1, s =>
    match s.pat with
    | [] => done s
    | c :: pat =>
      if ¬HasObj ctx.objs ctx.strln s.objs.length ∧ ¬(s.objs = [] ∧ needsOperand c) then fault
      else do
        let s ← emitStep ctx fuel junk c { s with pat }
        emitLoop fuel junk n s

end

structure FklRegexCode where
  totalsize : Nat
  pstsize : Nat
  objs : List FklRegexObj
  patrns : List UInt8

/-- The code, with what the first pass counted. -/
def fklRegexCompileCharBuf (fuel : Nat) (junk : Nat → Nat → UInt8) (pattern : List UInt8) :
    ReRun (ReCompileCtx × FklRegexCode) := do
  let ctx ← compileCount fuel pattern
  let s ← emitLoop ctx fuel junk (pattern.length + 1) ⟨pattern, [], [], 0, 0⟩
  if ¬HasObj ctx.objs ctx.strln s.objs.length then fault
  else
    let objs := s.objs ++ [⟨.unused, 0, 0, 0⟩]
    done (ctx, ⟨totalsize ctx.objs ctx.strln, ctx.stcnt, objs, s.patrns⟩)

end FakeLisp.Regex
