import FakeLisp.MakeIns
import FakeLisp.VMExec

/-! The peephole optimizer: its window, its rules on variables, and when a rule may
replace what it matches. -/

namespace FakeLisp

structure FklInsLn where
  ins : FklIns
  line : Nat
  fid : Nat
  scope : Nat
  blockId : Nat
  jmpTo : Nat

/-- `PEEPHOLE_SIZE` -/
def peepholeSize : Nat := 12

/-- The window of `do_peephole_optimize`: the next instructions from `i` on that are not
dummies. -/
def peepholeAt (buf : List FklInsLn) (i : Nat) : List FklInsLn :=
  ((buf.drop i).filter fun l => l.ins.op ≠ some .dummy).take peepholeSize

/-- An entry of `PeepholeOptimizers`: how many instructions of the window it matches, zero for
none, and what replaces them. -/
structure PeepholeOptimizer where
  predicate : List FklInsLn → Option Nat
  output : List FklInsLn → Option (List FklInsLn)

/-- `is_in_one_block`, with the block's id. -/
def isInOneBlock (peephole : List FklInsLn) (offset : Nat) : Option Nat :=
  match peephole with
  | [] => some 0
  | i0 :: _ =>
    let matched := peephole.take offset
    if i0.blockId ≠ 0 then
      if matched.all (fun i => i.blockId = 0 ∨ i.blockId = i0.blockId) then some i0.blockId
      else none
    else if matched.all (fun i => i.blockId = 0) then some 0
    else none

def insOf (ls : List FklInsLn) : List FklIns := ls.map (·.ins)

/-- Where the rule fires, its output does what the instructions that it replaces do. -/
def PeepholeOptimizer.Sound (o : PeepholeOptimizer) (peephole : List FklInsLn) : Prop :=
  ∃ n, o.predicate peephole = some n ∧ (0 < n → isInOneBlock peephole n ≠ none →
    ∃ out, o.output peephole = some out ∧
      ∀ (D : Type) [Binary64 D] (f : VMframe D) (s : VMstate D),
        execAll f (insOf out) s = execAll f (insOf (peephole.take n)) s)

/-- The opcode bytes of well-formed code are opcodes. -/
def WellFormed (ls : List FklInsLn) : Prop := ∀ l ∈ ls, l.ins.op ≠ none

theorem WellFormed.peepholeAt {buf : List FklInsLn} (h : WellFormed buf) (i : Nat) :
    WellFormed (peepholeAt buf i) :=
  fun l hl => h l (List.mem_of_mem_drop (List.mem_of_mem_filter (List.mem_of_mem_take hl)))

/-- A line with nothing but an instruction. -/
def bareLine (ins : FklIns) : FklInsLn := ⟨ins, 0, 0, 0, 0, 0⟩

/-- The instructions that are no dummies, which `remove_dummy_code` keeps. -/
def liveCode (buf : List FklInsLn) : List FklInsLn := buf.filter fun l => l.ins.op ≠ some .dummy

/-- One rule of `os` replaces what it matches in the window from some `i` on; what it does not
need of the old instructions becomes dummies. -/
def Rewrites (os : List PeepholeOptimizer) (buf buf' : List FklInsLn) : Prop :=
  ∃ o ∈ os, ∃ i n out, o.predicate (peepholeAt buf i) = some n ∧ 0 < n ∧
    isInOneBlock (peepholeAt buf i) n ≠ none ∧ o.output (peepholeAt buf i) = some out ∧
    liveCode buf' = liveCode (buf.take i) ++ (out ++ ((peepholeAt buf i).drop n ++
      (liveCode (buf.drop i)).drop peepholeSize))

theorem insOf_append (as bs : List FklInsLn) : insOf (as ++ bs) = insOf as ++ insOf bs :=
  List.map_append

theorem wellFormed_liveCode {buf : List FklInsLn} : WellFormed (liveCode buf) ↔ WellFormed buf := by
  constructor
  · intro h l hl hop
    exact h l (List.mem_filter.mpr ⟨hl, by simp [hop]⟩) hop
  · exact fun h l hl => h l (List.mem_of_mem_filter hl)

/-- The live code around the window, which is split where a rule cuts it. -/
theorem liveCode_split (buf : List FklInsLn) (i n : Nat) : liveCode buf =
    liveCode (buf.take i) ++ ((peepholeAt buf i).take n ++ ((peepholeAt buf i).drop n ++
      (liveCode (buf.drop i)).drop peepholeSize)) := by
  have hwindow : peepholeAt buf i = (liveCode (buf.drop i)).take peepholeSize := rfl
  rw [← List.append_assoc ((peepholeAt buf i).take n), List.take_append_drop, hwindow,
    List.take_append_drop, liveCode, liveCode, liveCode, ← List.filter_append,
    List.take_append_drop]

/-- Rules that write opcodes only keep the code well formed. -/
theorem Rewrites.wellFormed {os : List PeepholeOptimizer} {buf buf' : List FklInsLn}
    (h : Rewrites os buf buf') (hbuf : WellFormed buf)
    (hos : ∀ o ∈ os, ∀ p out, WellFormed p → o.output p = some out → WellFormed out) :
    WellFormed buf' := by
  obtain ⟨o, ho, i, n, out, -, -, -, hout, hlive⟩ := h
  have hwindow : WellFormed (peepholeAt buf i) := hbuf.peepholeAt i
  rw [← wellFormed_liveCode, hlive]
  intro l hl
  rcases List.mem_append.mp hl with hl | hl
  · exact hbuf l (List.mem_of_mem_take (List.mem_of_mem_filter hl))
  rcases List.mem_append.mp hl with hl | hl
  · exact hos o ho _ out hwindow hout l hl
  rcases List.mem_append.mp hl with hl | hl
  · exact hwindow l (List.mem_of_mem_drop hl)
  · exact hbuf l (List.mem_of_mem_drop (List.mem_of_mem_filter (List.mem_of_mem_drop hl)))

/-- Sound rules keep what the code computes. -/
theorem Rewrites.execAll_eq {os : List PeepholeOptimizer} {buf buf' : List FklInsLn}
    (h : Rewrites os buf buf') (hbuf : WellFormed buf)
    (hos : ∀ o ∈ os, ∀ p, WellFormed p → o.Sound p) {D : Type} [Binary64 D] (f : VMframe D)
    (s : VMstate D) :
    execAll f (insOf (liveCode buf')) s = execAll f (insOf (liveCode buf)) s := by
  obtain ⟨o, ho, i, n, out, hn, hpos, hblock, hout, hlive⟩ := h
  obtain ⟨m, hm, hsound⟩ := hos o ho _ (hbuf.peepholeAt i)
  obtain rfl : n = m := Option.some.inj (hn.symm.trans hm)
  obtain ⟨out', hout', heq⟩ := hsound hpos hblock
  obtain rfl : out = out' := Option.some.inj (hout.symm.trans hout')
  rw [hlive, liveCode_split buf i n, insOf_append, insOf_append (liveCode _), execAll_append,
    execAll_append]
  congr 1
  funext t
  rw [insOf_append, insOf_append ((peepholeAt buf i).take n), execAll_append, execAll_append, heq]

/-! Instructions and their lines. -/

/-- `set_insln_to_ins`: the instruction that starts the list, and its length. -/
def setInslnToIns (ls : List FklInsLn) : Option (Nat × Code) := do
  let l ← ls.head?
  let op ← l.ins.op
  let ol := fklGetOpcodeModeLen op
  some (ol, fun k => if k < ol then ((insOf ls)[k]?).getD 0 else 0)

/-- `set_ins_to_insln` -/
def setInsToInsln (ins : Code) (peephole : List FklInsLn) : Option (List FklInsLn) := do
  let op ← (ins 0).op
  (List.range (fklGetOpcodeModeLen op)).mapM fun k =>
    (peephole[k]?).map fun l => { l with ins := ins k }

def isInU16Range (i : Nat) : Bool := i ≤ 65535

def isDrop1 (i : FklIns) : Bool := i.op = some .drop ∧ i.uA = 0

/-- `FKL_MAKE_INS_IsA` -/
def makeInsIsA (op : FklOpcode) (a : Int) : FklIns := (makeInsI op).setSA a

/-- `FKL_MAKE_INS_IuC` -/
def makeInsIuC (op : FklOpcode) (c : Nat) : FklIns := (makeInsI op).setUC c

/-! Rules on local variables. -/

def not3Predicate (peephole : List FklInsLn) : Option Nat :=
  match peephole with
  | i0 :: i1 :: i2 :: _ =>
    some (if i0.ins.op = some .not ∧ i1.ins.op = some .not ∧ i2.ins.op = some .not then 3 else 0)
  | _ => some 0

/-- The output of several rules: the first instruction stays. -/
def keepFirst (peephole : List FklInsLn) : Option (List FklInsLn) := do
  let i0 ← peephole.head?
  some [i0]

def not3 : PeepholeOptimizer := ⟨not3Predicate, keepFirst⟩

def incOrDecLocPredicate (peephole : List FklInsLn) : Option Nat :=
  match peephole with
  | i0 :: i1 :: i2 :: _ =>
    some (if i0.ins.op = some .getLoc ∧ i1.ins.op = some .addk ∧ i2.ins.op = some .putLoc ∧
      i0.ins.uC = i2.ins.uC ∧ isInU16Range i0.ins.uC then 3 else 0)
  | _ => some 0

def incOrDecLocOutput (peephole : List FklInsLn) : Option (List FklInsLn) :=
  match peephole with
  | i0 :: i1 :: _ =>
    let uB := i0.ins.uC
    let sA := i1.ins.sA
    some [{ i0 with ins := (makeInsIsA .addkLoc sA).setUB uB }]
  | _ => none

def incOrDecLoc : PeepholeOptimizer := ⟨incOrDecLocPredicate, incOrDecLocOutput⟩

def putLocDropPredicate (peephole : List FklInsLn) : Option Nat :=
  if peephole.length < 2 then some 0
  else do
    let (i, ins) ← setInslnToIns peephole
    some (if i < peephole.length ∧ (ins 0).op = some .putLoc ∧ isInU16Range (ins 0).uC ∧
      ((insOf peephole)[i]?).any isDrop1 then i + 1 else 0)

/-- Write `op` with the index of the first instruction. -/
def withFirstIndex (op : FklOpcode) (peephole : List FklInsLn) : Option (List FklInsLn) := do
  let (_, ins) ← setInslnToIns peephole
  let (_, arg) ← fklGetInsOpArg ins ⟨0, 0, 0⟩
  let (_, ins) ← fklMakeIns ins op ⟨0, arg.ux, 0⟩
  setInsToInsln ins peephole

def putLocDrop : PeepholeOptimizer := ⟨putLocDropPredicate, withFirstIndex .popLoc⟩

def popAndGetLocPredicate (peephole : List FklInsLn) : Option Nat :=
  if peephole.length < 2 then some 0
  else do
    let (i, ins) ← setInslnToIns peephole
    if i ≥ peephole.length ∨ (ins 0).op ≠ some .popLoc then some 0
    else do
      let (_, arg) ← fklGetInsOpArg ins ⟨0, 0, 0⟩
      let (j, ins) ← setInslnToIns (peephole.drop i)
      if (ins 0).op ≠ some .getLoc then some 0
      else do
        let (_, arg') ← fklGetInsOpArg ins arg
        some (if arg.ux = arg'.ux then i + j else 0)

def popAndGetLoc : PeepholeOptimizer := ⟨popAndGetLocPredicate, withFirstIndex .putLoc⟩

def movLocPred (peephole : List FklInsLn) : Option Nat :=
  match peephole with
  | i0 :: i1 :: _ =>
    some (if i0.ins.op = some .getLoc ∧ i0.ins.uC ≤ 255 ∧ i1.ins.op = some .putLoc ∧
      isInU16Range i1.ins.uC then 2 else 0)
  | _ => some 0

/-- The move that takes the indices of a read and a write. -/
def movOutput (op : FklOpcode) (peephole : List FklInsLn) : Option (List FklInsLn) :=
  match peephole with
  | i0 :: i1 :: _ => some [{ i0 with ins := ((i0.ins.setOp op).setUA i0.ins.uC).setUB i1.ins.uC }]
  | _ => none

def movLoc : PeepholeOptimizer := ⟨movLocPred, movOutput .movLoc⟩

/-- A move, a drop, and a read with the index `index` of the same variable, or the move
again. -/
def movDropGetPred (mov get : FklOpcode) (index : FklIns → Nat) (peephole : List FklInsLn) :
    Option Nat :=
  match peephole with
  | i0 :: i1 :: i2 :: _ =>
    if i0.ins.op ≠ some mov then some 0
    else if ¬isDrop1 i1.ins then some 0
    else if i2.ins.op = some get then some (if index i2.ins = i0.ins.uA then 3 else 0)
    else if i2.ins.op = some mov then
      some (if i2.ins.uA = i0.ins.uA ∧ i2.ins.uB = i0.ins.uB then 3 else 0)
    else some 0
  | _ => some 0

def movLocDropGet : PeepholeOptimizer := ⟨movDropGetPred .movLoc .getLoc FklIns.uC, keepFirst⟩

def movToGetPred (peephole : List FklInsLn) : Option Nat :=
  match peephole with
  | i0 :: _ =>
    some (if (i0.ins.op = some .movLoc ∨ i0.ins.op = some .movVarRef) ∧ i0.ins.uA = i0.ins.uB
      then 1 else 0)
  | [] => some 0

def movToGetOutput (peephole : List FklInsLn) : Option (List FklInsLn) :=
  match peephole with
  | i0 :: _ =>
    let op := if i0.ins.op = some .movLoc then .getLoc else .getVarRef
    some [{ i0 with ins := makeInsIuC op i0.ins.uA }]
  | [] => none

def movToGet : PeepholeOptimizer := ⟨movToGetPred, movToGetOutput⟩

def pushConstNotPred (peephole : List FklInsLn) : Option Nat :=
  match peephole with
  | i0 :: _ :: _ =>
    match i0.ins.op with
    | some .pushNil | some .push0 | some .push1 | some .pushI8 | some .pushI16 | some .pushI24
    | some .pushConst => do
      let op ← i0.ins.op
      let i := fklGetOpcodeModeLen op
      some (if ((insOf peephole)[i]?).any (fun i => i.op = some .not) then i + 1 else 0)
    | _ => some 0
  | _ => some 0

def pushConstNotOutput (peephole : List FklInsLn) : Option (List FklInsLn) :=
  match peephole with
  | i0 :: _ =>
    let op := if i0.ins.op = some .pushNil then .push1 else .pushNil
    some [{ i0 with ins := i0.ins.setOp op }]
  | [] => none

def pushConstNot : PeepholeOptimizer := ⟨pushConstNotPred, pushConstNotOutput⟩

/-! Rules on closure variables. -/

/-- The bound on the index is checked in its upper sixteen bits. -/
def movVarRefPred (peephole : List FklInsLn) : Option Nat :=
  match peephole with
  | i0 :: i1 :: _ =>
    some (if i0.ins.op = some .getVarRef ∧ i0.ins.uB ≤ 255 ∧ i1.ins.op = some .putVarRef ∧
      isInU16Range i1.ins.uC then 2 else 0)
  | _ => some 0

def movVarRef : PeepholeOptimizer := ⟨movVarRefPred, movOutput .movVarRef⟩

/-- The index of the read is taken from the same bits. -/
def movVarRefDropGet : PeepholeOptimizer :=
  ⟨movDropGetPred .movVarRef .getVarRef FklIns.uB, keepFirst⟩

end FakeLisp
