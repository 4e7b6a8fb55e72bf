import FakeLisp.JmpTarget
import FakeLisp.PeepholeConst
import FakeLisp.WhileLoop

/-! The rules of the peephole optimizer on jumps, its table of rules, and its passes over a
buffer until one changes nothing. -/

namespace FakeLisp

/-! Rules on jumps. They look at the word at the start of a block, wherever it is. -/

section

variable (buf : List FklInsLn) (blockStart : List Nat)

/-- `buf->base[block_start[id - 1]]` -/
def blockWord (id : Nat) : Option FklInsLn :=
  if id = 0 then none
  else do
    let i ← blockStart[id - 1]?
    buf[i]?

def notJmpIfTrueOrFalsePredicate (peephole : List FklInsLn) : Option Nat :=
  if peephole.length < 3 then some 0
  else do
    let i0 ← peephole[0]?
    if i0.ins.op ≠ some .not then some 0
    else do
      let (l, ins) ← setInslnToIns (peephole.drop 1)
      if 1 + l ≥ peephole.length then some 0
      else if !fklIsCondJmpIns (ins 0) then some 0
      else if !((insOf peephole)[1 + l]?).any isDrop1 then some 0
      else do
        let i1 ← peephole[1]?
        let target ← blockWord buf blockStart i1.jmpTo
        some (if isDrop1 target.ins then 1 + l else 0)

def notJmpIfTrueOrFalseOutput (peephole : List FklInsLn) : Option (List FklInsLn) := do
  let i1 ← peephole[1]?
  let op := if fklIsJmpIfTrueIns i1.ins then FklOpcode.jmpIfFalse else .jmpIfTrue
  some [{ i1 with ins := i1.ins.setOp op }]

def notJmpIfTrueOrFalse : PeepholeOptimizer :=
  ⟨notJmpIfTrueOrFalsePredicate buf blockStart, notJmpIfTrueOrFalseOutput⟩

def jmpToRetPredicate (peephole : List FklInsLn) : Option Nat := do
  let i0 ← peephole[0]?
  if i0.jmpTo = 0 then some 0
  else do
    let target ← blockWord buf blockStart i0.jmpTo
    if target.ins.op ≠ some .ret then some 0
    else some (if fklIsJmpIns i0.ins || fklIsCondJmpIns i0.ins then 1 else 0)

def jmpToRetOutput (peephole : List FklInsLn) : Option (List FklInsLn) := do
  let i0 ← peephole[0]?
  let op := if fklIsJmpIns i0.ins then FklOpcode.ret
    else if fklIsJmpIfTrueIns i0.ins then .retIfTrue else .retIfFalse
  some [{ i0 with ins := i0.ins.setOp op }]

def jmpToRet : PeepholeOptimizer := ⟨jmpToRetPredicate buf blockStart, jmpToRetOutput⟩

/-- The last test asks for a jump that is conditional and is not. -/
def jmpToJmpPredicate (peephole : List FklInsLn) : Option Nat := do
  let i0 ← peephole[0]?
  if i0.jmpTo = 0 then some 0
  else do
    let target ← blockWord buf blockStart i0.jmpTo
    if target.ins.op ≠ some .jmp then some 0
    else some (if fklIsJmpIns i0.ins && fklIsCondJmpIns i0.ins then 1 else 0)

def jmpToJmpOutput (peephole : List FklInsLn) : Option (List FklInsLn) := do
  let i0 ← peephole[0]?
  let target ← blockWord buf blockStart i0.jmpTo
  some [{ i0 with jmpTo := target.jmpTo }]

def jmpToJmp : PeepholeOptimizer :=
  ⟨jmpToJmpPredicate buf blockStart, jmpToJmpOutput buf blockStart⟩

def nilCondRetOrJmpDropPred (peephole : List FklInsLn) : Option Nat :=
  if peephole.length < 4 then some 0
  else do
    let i0 ← peephole[0]?
    let i1 ← peephole[1]?
    if i0.ins.op ≠ some .pushNil then some 0
    else if !(fklIsJmpIfTrueIns i1.ins || i1.ins.op = some .retIfTrue) then some 0
    else do
      let op ← i1.ins.op
      let i := 1 + fklGetOpcodeModeLen op
      if i ≥ peephole.length then some 0
      else do
        let drop ← peephole[i]?
        if !isDrop1 drop.ins then some 0
        else if i + 1 ≥ peephole.length then some 0
        else do
          let last ← peephole[i + 1]?
          let blockCount := [i1, drop, last].countP fun l => l.blockId ≠ 0
          if blockCount ≤ 1 then do
            let op ← last.ins.op
            some (i + 1 + fklGetOpcodeModeLen op)
          else some 0

def nilCondRetOrJmpDropOutput (peephole : List FklInsLn) : Option (List FklInsLn) := do
  let i1 ← peephole[1]?
  let op ← i1.ins.op
  let i := 1 + fklGetOpcodeModeLen op + 1
  let last ← peephole[i]?
  let op ← last.ins.op
  (List.range (fklGetOpcodeModeLen op)).mapM fun j => do
    let l ← peephole[i + j]?
    let first ← peephole[j]?
    some { l with blockId := first.blockId }

def nilCondRetOrJmpDrop : PeepholeOptimizer :=
  ⟨nilCondRetOrJmpDropPred, nilCondRetOrJmpDropOutput⟩

/-- `PeepholeOptimizers`, each with whether it may match over several blocks. -/
def peepholeOptimizers : List (PeepholeOptimizer × Bool) :=
  [(not3, false), (incOrDecLoc, false), (notJmpIfTrueOrFalse buf blockStart, false),
    (putLocDrop, false), (popAndGetLoc, false), (jmpToRet buf blockStart, false),
    (jmpToJmp buf blockStart, false), (oprand1ConstFold.optimizer, false),
    (oprand2ConstFold.optimizer, false), (oprand3ConstFold.optimizer, false),
    (nilCondRetOrJmpDrop, true), (pushConstNot, false), (movLoc, false), (movLocDropGet, false),
    (movVarRef, false), (movVarRefDropGet, false), (movToGet, false)]

end

/-! A pass. -/

def isDummy (l : FklInsLn) : Bool := l.ins.op = some .dummy

/-- `peephole` and `valid_ins_idx` at `i`. -/
def windowAt (buf : List FklInsLn) (i : Nat) : List (FklInsLn × Nat) :=
  (((buf.drop i).zipIdx i).filter fun x => !isDummy x.1).take peepholeSize

/-- What a rule matches, what it writes and the block it is in. -/
structure PeepholeHit where
  offset : Nat
  output : List FklInsLn
  blockId : Nat

/-- The first rule that fires. Without a value where a rule divides by zero, fails an assertion or
reads a word that is not there. -/
def firstHit (peephole : List FklInsLn) :
    List (PeepholeOptimizer × Bool) → Option (Option PeepholeHit)
  | [] => some none
  | (o, canInBlocks) :: rest => do
    let offset ← o.predicate peephole
    if offset = 0 then firstHit peephole rest
    else
      match if canInBlocks then some 0 else isInOneBlock peephole offset with
      | none => firstHit peephole rest
      | some blockId => do
        let output ← o.output peephole
        some (some ⟨offset, output, blockId⟩)

def setDummy (l : FklInsLn) : FklInsLn := { l with ins := l.ins.setOp .dummy }

def setBlockId (blockId : Nat) (l : FklInsLn) : FklInsLn :=
  if blockId = 0 then l else { l with blockId := blockId }

/-- Where the words end that `offset` entries of the window stand for. -/
def hitEnd (buf : List FklInsLn) (i offset : Nat) : Nat :=
  ((windowAt buf i)[offset]?).elim buf.length Prod.snd

/-- The output is written at `i`, and dummies behind it. -/
def writeHit (buf : List FklInsLn) (i : Nat) (hit : PeepholeHit) : List FklInsLn :=
  let stop := hitEnd buf i hit.offset
  let next := i + hit.output.length
  (buf.take i ++ hit.output ++ ((buf.take stop).drop next).map setDummy ++
    buf.drop (max stop next)).modify i (setBlockId hit.blockId)

/-- `i` moved over the words that belong to the instruction before. -/
def skipExtraArgs (buf : List FklInsLn) (i : Nat) : Nat :=
  i + ((buf.drop i).takeWhile fun l => l.ins.op = some .extraArg).length

structure PeepholePass where
  buf : List FklInsLn
  i : Nat
  change : Bool

/-- The body of the loop of `do_peephole_optimize`. -/
def peepholeStep (blockStart : List Nat) (s : PeepholePass) : Option PeepholePass :=
  match windowAt s.buf s.i with
  | [] => some { s with i := s.buf.length }
  | (l, j) :: window => do
    let peephole := ((l, j) :: window).map Prod.fst
    match ← firstHit peephole (peepholeOptimizers s.buf blockStart) with
    | none => some { s with i := skipExtraArgs s.buf (j + 1) }
    | some hit =>
      let buf := writeHit s.buf s.i hit
      let i := if hit.offset < peephole.length then
          skipExtraArgs buf (hitEnd s.buf s.i hit.offset)
        else buf.length
      some ⟨buf, i, true⟩

/-- The loop runs by fuel; a pass that stopped in a rule has no state. -/
def doPeepholeOptimize (blockStart : List Nat) (fuel : Nat) (buf : List FklInsLn) :
    Option (Option PeepholePass) :=
  whileLoop (fun s => s.any fun s => s.i < s.buf.length)
    (fun s => some (s.bind (peepholeStep blockStart))) fuel (some ⟨buf, 0, false⟩)

/-- `do … while (change)` of `fklPeepholeOptimize`. -/
def peepholeLoop (blockStart : List Nat) (passFuel : Nat) :
    Nat → List FklInsLn → Option (Option (List FklInsLn))
  | 0, _ => none
  | fuel + 1, buf => do
    match ← doPeepholeOptimize blockStart passFuel buf with
    | none => some none
    | some s => if s.change then peepholeLoop blockStart passFuel fuel s.buf else some (some s.buf)

end FakeLisp
