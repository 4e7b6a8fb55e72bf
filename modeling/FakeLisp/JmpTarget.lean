import FakeLisp.PeepholeLocal

/-! After instructions were removed the optimizer looks for the targets of jumps anew. A jump names
the block that it goes to; its operand is set to the way there until nothing changes. -/

namespace FakeLisp

def fklIsJmpIns (i : FklIns) : Bool := i.op = some .jmp

def fklIsJmpIfTrueIns (i : FklIns) : Bool := i.op = some .jmpIfTrue

def fklIsJmpIfFalseIns (i : FklIns) : Bool := i.op = some .jmpIfFalse

def fklIsCondJmpIns (i : FklIns) : Bool := i.op = some .jmpIfTrue ∨ i.op = some .jmpIfFalse

def fklIsMakeProcIns (i : FklIns) : Bool := i.op = some .makeProc

def setJmpBackward (op : FklOpcode) (len : Int) (newIns : Code) : Option (Nat × Code) :=
  if i24Min ≤ -len - 1 ∧ -len - 1 ≤ i24Max then fklMakeIns newIns op ⟨-len - 1, 0, 0⟩ else none

/-- What the loop makes of an instruction: the lines for `b`, how many more words it jumps over,
`new_ins` and `change`. -/
structure InsRound where
  lines : List FklInsLn
  skip : Nat
  newIns : Code
  change : Bool

/-- From the label `no_change` on. -/
def keepIns (cur : FklInsLn) (newIns : Code) : InsRound := ⟨[cur], 0, newIns, false⟩

def replaceIns (cur : FklInsLn) (ol nl : Nat) (newIns : Code) : InsRound :=
  ⟨{ cur with ins := newIns 0 } ::
      (List.range (nl - 1)).map fun k => ⟨newIns (k + 1), cur.line, cur.fid, cur.scope, 0, 0⟩,
    ol - 1, newIns, true⟩

/-- The opcode of a jump without the length of its operand. -/
def jmpOpcode (i : FklIns) : FklOpcode :=
  if fklIsJmpIfTrueIns i then .jmpIfTrue
  else if fklIsJmpIfFalseIns i then .jmpIfFalse
  else .jmp

/-- The search for the block `id`. -/
def findBlock (id : Nat) (lines : List FklInsLn) : Option Nat :=
  lines.findIdx? fun l => l.blockId = id

/-- The body of the loop. The instructions before `cur` are given backwards. -/
def recomputeIns (prev rest : List FklInsLn) (cur : FklInsLn) (newIns : Code) : Option InsRound :=
  if cur.jmpTo = 0 then some (keepIns cur newIns)
  else do
    let (ol, ins) ← setInslnToIns (cur :: rest)
    let (_, arg) ← fklGetInsOpArg ins ⟨0, 0, 0⟩
    if fklIsMakeProcIns (ins 0) then
      if arg.ux = 0 then none
      else
        let jmpOffset ← findBlock cur.jmpTo ((cur :: rest).drop ol)
        let (nl, newIns) ← fklMakeIns newIns .makeProc ⟨0, jmpOffset, 0⟩
        if jmpOffset = arg.ux ∧ ol = nl then some (keepIns cur newIns)
        else some (replaceIns cur ol nl newIns)
    else if !fklIsJmpIns (ins 0) && !fklIsCondJmpIns (ins 0) then some (keepIns cur newIns)
    else if arg.ix = 0 then none
    else if arg.ix > 0 then
      let jmpOffset ← findBlock cur.jmpTo ((cur :: rest).drop ol)
      let (nl, newIns) ← fklMakeIns newIns (jmpOpcode cur.ins) ⟨jmpOffset, 0, 0⟩
      if (jmpOffset : Int) = arg.ix ∧ ol = nl then some (keepIns cur newIns)
      else some (replaceIns cur ol nl newIns)
    else
      let offset ← findBlock cur.jmpTo prev
      let (nl, newIns) ← setJmpBackward (jmpOpcode cur.ins) (offset + 1) newIns
      let (_, newArg) ← fklGetInsOpArg newIns ⟨0, 0, 0⟩
      if newArg.ix = arg.ix ∧ ol = nl then some (keepIns cur newIns)
      else some (replaceIns cur ol nl newIns)

/-- The loop over the instructions; `skip` of them are jumped over. -/
def recomputeRound (prev : List FklInsLn) : Nat → List FklInsLn → Code →
    Option (List FklInsLn × Code × Bool)
  | _, [], newIns => some ([], newIns, false)
  | skip + 1, cur :: rest, newIns => recomputeRound (cur :: prev) skip rest newIns
  | 0, cur :: rest, newIns => do
    let r ← recomputeIns prev rest cur newIns
    let (b, newIns, change) ← recomputeRound (cur :: prev) r.skip rest r.newIns
    some (r.lines ++ b, newIns, r.change || change)

/-- `do … while (change)` -/
def recomputeLoop : Nat → List FklInsLn → Code → Option (List FklInsLn)
  | 0, _, _ => none
  | fuel + 1, a, newIns => do
    let (b, newIns, change) ← recomputeRound [] 0 a newIns
    if change then recomputeLoop fuel b newIns else some b

def recomputeJmpTarget (fuel : Nat) (a : List FklInsLn) : Option (List FklInsLn) :=
  recomputeLoop fuel a fun _ => 0

/-! What it is for. -/

def jumps (l : FklInsLn) : Bool :=
  fklIsJmpIns l.ins || fklIsCondJmpIns l.ins || fklIsMakeProcIns l.ins

/-- Where the instruction at a place goes on when it jumps. -/
def insTarget (code : List FklInsLn) (i : Nat) : Option Int := do
  let (_, ins) ← setInslnToIns (code.drop i)
  let (l, arg) ← fklGetInsOpArg ins ⟨0, 0, 0⟩
  some (if fklIsMakeProcIns (ins 0) then i + l + arg.ux else i + l + arg.ix)

/-- The jump goes back. -/
def jumpsBack (l : FklInsLn) : Bool := !fklIsMakeProcIns l.ins && decide (l.ins.sC < 0)

/-- The block of `cur` begins at `j` and nowhere else. -/
structure LabelAt (a : List FklInsLn) (cur : FklInsLn) (j : Nat) : Prop where
  isLabel : ∃ l, a[j]? = some l ∧ l.blockId = cur.jmpTo
  unique : ∀ k l, a[k]? = some l → l.blockId = cur.jmpTo → k = j

/-- Each jump names a block that begins at one instruction, on the side to which it jumps. -/
structure JmpLabelled (a : List FklInsLn) : Prop where
  wellFormed : WellFormed a
  jmpTo_ne : ∀ cur ∈ a, jumps cur → cur.jmpTo ≠ 0
  label : ∀ i cur, a[i]? = some cur → jumps cur →
    ∃ j, LabelAt a cur j ∧ if jumpsBack cur then j < i else i < j

/-- Nothing but the operands of jumps has changed, and these lead to the blocks. -/
structure JmpsRecomputed (a out : List FklInsLn) : Prop where
  length_eq : out.length = a.length
  kept : ∀ (i : Nat) cur cur', a[i]? = some cur → out[i]? = some cur' →
    cur' = { cur with ins := cur'.ins } ∧ cur'.ins.op = cur.ins.op ∧ (¬jumps cur → cur' = cur)
  target : ∀ i cur, a[i]? = some cur → jumps cur →
    ∃ (j : Nat) (l : FklInsLn), insTarget out i = some (j : Int) ∧ out[j]? = some l ∧
      l.blockId = cur.jmpTo

/-- The operand is not zero, before and after, and is small enough for its field. -/
def JmpFits (cur : FklInsLn) (i j : Nat) : Prop :=
  if fklIsMakeProcIns cur.ins then cur.ins.uC ≠ 0 ∧ i + 1 < j ∧ j < i + 1 + 2 ^ 24
  else if cur.ins.sC < 0 then i + 1 ≤ j + 2 ^ 23
  else cur.ins.sC ≠ 0 ∧ i + 1 < j ∧ j < i + 1 + 2 ^ 23

/-- The words that are taken of an instruction. -/
def firstWord (i : FklIns) : Code := fun k => if k < 1 then i else 0

@[simp] theorem firstWord_zero (i : FklIns) : firstWord i 0 = i := rfl

theorem setInslnToIns_firstWord {cur : FklInsLn} {op : FklOpcode} (h : cur.ins.op = some op)
    (rest : List FklInsLn) :
    setInslnToIns (cur :: rest) = some (1, firstWord cur.ins) := by
  unfold setInslnToIns
  simp only [List.head?_cons, bind, Option.bind_some, h, fklGetOpcodeModeLen_eq]
  congr 2
  funext k
  cases k with
  | zero => rfl
  | succ k => simp [firstWord]

theorem jumps_cases {l : FklInsLn} (h : jumps l = true) :
    (∃ op, l.ins.op = some op ∧ fklGetOpcodeMode op = .isC ∧ fklIsMakeProcIns l.ins = false ∧
      jmpOpcode l.ins = op ∧ (fklIsJmpIns l.ins || fklIsCondJmpIns l.ins) = true) ∨
      l.ins.op = some .makeProc ∧ fklIsMakeProcIns l.ins = true := by
  unfold jumps fklIsJmpIns fklIsCondJmpIns fklIsMakeProcIns at h
  simp only [Bool.or_eq_true, decide_eq_true_eq] at h
  rcases h with (h | h | h) | h
  · exact Or.inl ⟨.jmp, h, by simp [h, fklIsMakeProcIns, jmpOpcode, fklIsJmpIfTrueIns,
      fklIsJmpIfFalseIns, fklIsJmpIns, fklGetOpcodeMode]⟩
  · exact Or.inl ⟨.jmpIfTrue, h, by simp [h, fklIsMakeProcIns, jmpOpcode, fklIsJmpIfTrueIns,
      fklIsCondJmpIns, fklGetOpcodeMode]⟩
  · exact Or.inl ⟨.jmpIfFalse, h, by simp [h, fklIsMakeProcIns, jmpOpcode, fklIsJmpIfTrueIns,
      fklIsJmpIfFalseIns, fklIsCondJmpIns, fklGetOpcodeMode]⟩
  · exact Or.inr ⟨h, by simp [h, fklIsMakeProcIns]⟩

theorem fklGetInsOpArg_isC {i : FklIns} {op : FklOpcode} (hop : i.op = some op)
    (hmode : fklGetOpcodeMode op = .isC) {ins : Code} (hins : ins 0 = i) (a : FklInsArg) :
    fklGetInsOpArg ins a = some (1, { a with ix := i.sC }) := by
  unfold fklGetInsOpArg getInsOpWithOp
  simp only [hins, hop, hmode, bind, Option.bind_some]

theorem fklGetInsOpArg_makeProc {i : FklIns} (hop : i.op = some .makeProc) {ins : Code}
    (hins : ins 0 = i) (a : FklInsArg) :
    fklGetInsOpArg ins a = some (1, { a with ux := i.uC }) := by
  have hmode : fklGetOpcodeMode .makeProc = .iuC := rfl
  unfold fklGetInsOpArg getInsOpWithOp
  simp only [hins, hop, hmode, bind, Option.bind_some]

/-- The operand of an instruction that jumps. -/
def insOffset (i : FklIns) : Int := if fklIsMakeProcIns i then i.uC else i.sC

theorem insOffset_of_jmp {i : FklIns} (h : fklIsMakeProcIns i = false) : insOffset i = i.sC :=
  if_neg (by simp [h])

theorem insOffset_of_makeProc {i : FklIns} (h : fklIsMakeProcIns i = true) :
    insOffset i = i.uC := if_pos h

theorem insTarget_eq {code : List FklInsLn} {i : Nat} {cur : FklInsLn} (hcur : code[i]? = some cur)
    (hjumps : jumps cur = true) : insTarget code i = some (i + 1 + insOffset cur.ins) := by
  have hdrop : code.drop i = cur :: code.drop (i + 1) := by
    obtain ⟨hi, rfl⟩ := List.getElem?_eq_some_iff.mp hcur
    exact List.drop_eq_getElem_cons hi
  unfold insTarget insOffset
  rcases jumps_cases hjumps with ⟨op, hop, hmode, hproc, -, -⟩ | ⟨hop, hproc⟩
  · rw [hdrop, setInslnToIns_firstWord hop]
    simp only [bind, Option.bind_some, fklGetInsOpArg_isC hop hmode (firstWord_zero cur.ins)]
    simp [hproc]
  · rw [hdrop, setInslnToIns_firstWord hop]
    simp only [bind, Option.bind_some,
      fklGetInsOpArg_makeProc hop (firstWord_zero cur.ins)]
    simp [hproc]

/-! An operand that fits is read back. -/

theorem fklMakeIns_reads (newIns : Code) {op : FklOpcode} (hop : op ≠ .dummy) {a : FklInsArg}
    (hread : readArg (fklGetOpcodeMode op) a = some a)
    (hfits : argFits (fklGetOpcodeMode op) a = some true)
    (hin : InRange (fklGetOpcodeMode op) a) (hmode : fklGetOpcodeMode op ≠ .ixAxB) :
    ∃ out, fklMakeIns newIns op a = some (1, out) ∧ (out 0).op = some op ∧ ∀ b,
      getInsOpWithOp op out b = (1, withOperand (fklGetOpcodeMode op) a b) := by
  obtain ⟨out, hemit, hout, hdecode⟩ := decode_emitIns newIns hmode hin
  refine ⟨out, ?_, hout, fun b => by rw [hdecode, fklGetOpcodeModeLen_eq]⟩
  rw [fklMakeIns_of_fits newIns hop hread hfits, hemit]
  rfl

theorem fklMakeIns_isC (newIns : Code) {op : FklOpcode} (hmode : fklGetOpcodeMode op = .isC)
    {x : Int} (hx : InField 23 x) :
    ∃ out, fklMakeIns newIns op ⟨x, 0, 0⟩ = some (1, out) ∧ (out 0).op = some op ∧
      (out 0).sC = x := by
  have hop : op ≠ .dummy := by
    rintro rfl
    cases hmode
  have hfits : argFits .isC ⟨x, 0, 0⟩ = some true := by
    obtain ⟨hlo, hhi⟩ := hx
    refine congrArg some (decide_eq_true ?_)
    change ¬(x > 16777215 ∨ x < -8388608)
    omega
  obtain ⟨out, hmake, hout, hdecode⟩ := @fklMakeIns_reads newIns op hop ⟨x, 0, 0⟩
    (by rw [hmode]; rfl) (by rw [hmode]; exact hfits) (by rw [hmode]; exact hx) (by simp [hmode])
  refine ⟨out, hmake, hout, ?_⟩
  have hread := hdecode ⟨0, 0, 0⟩
  simp only [getInsOpWithOp, hmode, withOperand, Prod.mk.injEq, FklInsArg.mk.injEq] at hread
  exact hread.2.1

theorem fklMakeIns_makeProc (newIns : Code) {k : Nat} (hk : k < 2 ^ 24) :
    ∃ out, fklMakeIns newIns .makeProc ⟨0, k, 0⟩ = some (1, out) ∧
      (out 0).op = some .makeProc ∧ (out 0).uC = k := by
  have hmode : fklGetOpcodeMode .makeProc = .iuC := rfl
  have hfits : argFits .iuC ⟨0, k, 0⟩ = some true := by
    refine congrArg some (decide_eq_true ?_)
    change ¬(k : Int) > 16777215
    omega
  obtain ⟨out, hmake, hout, hdecode⟩ := @fklMakeIns_reads newIns .makeProc (by decide)
    ⟨0, k, 0⟩ rfl hfits hk (by decide)
  refine ⟨out, hmake, hout, ?_⟩
  have hread := hdecode ⟨0, 0, 0⟩
  simp only [getInsOpWithOp, hmode, withOperand, Prod.mk.injEq, FklInsArg.mk.injEq] at hread
  exact hread.2.2.1

/-! The body of the loop on the three kinds of jumps. -/

section

variable {prev rest : List FklInsLn} {cur : FklInsLn} (newIns : Code) (hto : cur.jmpTo ≠ 0)

include hto

theorem recomputeIns_makeProc (hop : cur.ins.op = some .makeProc) (hux : cur.ins.uC ≠ 0) {k : Nat}
    (hfind : findBlock cur.jmpTo rest = some k) (hk : k < 2 ^ 24) :
    ∃ out : Code, (out 0).op = some .makeProc ∧ (out 0).uC = k ∧ recomputeIns prev rest cur newIns =
      some (if k = cur.ins.uC then keepIns cur out else replaceIns cur 1 1 out) := by
  obtain ⟨out, hmake, hout, hread⟩ := fklMakeIns_makeProc newIns hk
  refine ⟨out, hout, hread, ?_⟩
  have hproc : fklIsMakeProcIns (firstWord cur.ins 0) = true := by
    simp [fklIsMakeProcIns, hop]
  unfold recomputeIns
  simp only [if_neg hto, setInslnToIns_firstWord hop, bind, Option.bind_some,
    fklGetInsOpArg_makeProc hop (firstWord_zero _), hproc, if_true, if_neg hux, List.drop_succ_cons,
    List.drop_zero, hfind, hmake, and_true]
  split_ifs <;> rfl

variable {op : FklOpcode} (hop : cur.ins.op = some op) (hmode : fklGetOpcodeMode op = .isC)
  (hproc : fklIsMakeProcIns cur.ins = false) (hjmpOp : jmpOpcode cur.ins = op)
  (hjmp : (fklIsJmpIns cur.ins || fklIsCondJmpIns cur.ins) = true)

include hop hmode hproc hjmpOp hjmp

theorem recomputeIns_forward (hix : 0 < cur.ins.sC) {k : Nat}
    (hfind : findBlock cur.jmpTo rest = some k) (hk : k < 2 ^ 23) :
    ∃ out : Code, (out 0).op = some op ∧ (out 0).sC = k ∧ recomputeIns prev rest cur newIns =
      some (if (k : Int) = cur.ins.sC then keepIns cur out else replaceIns cur 1 1 out) := by
  have hin : InField 23 (k : Int) := ⟨by omega, by exact_mod_cast hk⟩
  obtain ⟨out, hmake, hout, hread⟩ := fklMakeIns_isC newIns hmode hin
  refine ⟨out, hout, hread, ?_⟩
  have hproc' : ¬fklIsMakeProcIns cur.ins = true := by simp [hproc]
  have hjmp' : ¬(!fklIsJmpIns cur.ins && !fklIsCondJmpIns cur.ins) = true := by
    rw [← Bool.not_or, hjmp, Bool.not_true]
    exact Bool.false_ne_true
  have harg := fklGetInsOpArg_isC hop hmode (firstWord_zero cur.ins) ⟨0, 0, 0⟩
  unfold recomputeIns
  generalize cur.ins.sC = x at hix harg ⊢
  simp only [if_neg hto, setInslnToIns_firstWord hop, bind, Option.bind_some, harg, firstWord_zero]
  rw [if_neg hproc', if_neg hjmp', if_neg hix.ne', if_pos hix]
  simp only [List.drop_succ_cons, List.drop_zero, hfind, Option.bind_some, hjmpOp]
  rw [hmake, Option.bind_some]
  simp only [and_true]
  exact (apply_ite some _ _ _).symm

theorem recomputeIns_backward (hix : cur.ins.sC < 0) {k : Nat}
    (hfind : findBlock cur.jmpTo prev = some k) (hk : k + 2 ≤ 2 ^ 23) :
    ∃ out : Code, (out 0).op = some op ∧ (out 0).sC = -k - 2 ∧ recomputeIns prev rest cur newIns =
      some (if (-k - 2 : Int) = cur.ins.sC then keepIns cur out else replaceIns cur 1 1 out) := by
  have hin : InField 23 (-(k + 1 : Int) - 1) := ⟨by omega, by omega⟩
  obtain ⟨out, hmake, hout, hread⟩ := fklMakeIns_isC newIns hmode hin
  have hread' : (out 0).sC = -k - 2 := by omega
  refine ⟨out, hout, hread', ?_⟩
  have hproc' : ¬fklIsMakeProcIns cur.ins = true := by simp [hproc]
  have hjmp' : ¬(!fklIsJmpIns cur.ins && !fklIsCondJmpIns cur.ins) = true := by
    rw [← Bool.not_or, hjmp, Bool.not_true]
    exact Bool.false_ne_true
  have hset : setJmpBackward op (k + 1) newIns = some (1, out) := by
    unfold setJmpBackward
    rw [if_pos ⟨by unfold i24Min; omega, by unfold i24Max; omega⟩]
    exact hmake
  have harg := fklGetInsOpArg_isC hop hmode (firstWord_zero cur.ins) ⟨0, 0, 0⟩
  have hnew := fklGetInsOpArg_isC hout hmode rfl ⟨0, 0, 0⟩
  rw [hread'] at hnew
  unfold recomputeIns
  generalize cur.ins.sC = x at hix harg ⊢
  simp only [if_neg hto, setInslnToIns_firstWord hop, bind, Option.bind_some, harg, firstWord_zero]
  rw [if_neg hproc', if_neg hjmp', if_neg hix.ne, if_neg hix.not_gt]
  rw [hfind, Option.bind_some, hjmpOp, hset, Option.bind_some, hnew, Option.bind_some]
  simp only [and_true]
  exact (apply_ite some _ _ _).symm

end

/-! Blocks are found. -/

theorem findBlock_eq {id k : Nat} {lines : List FklInsLn} {l : FklInsLn} (hk : lines[k]? = some l)
    (hl : l.blockId = id)
    (huniq : ∀ (m : Nat) l, lines[m]? = some l → l.blockId = id → m = k) :
    findBlock id lines = some k := by
  obtain ⟨hlt, rfl⟩ := List.getElem?_eq_some_iff.mp hk
  refine List.findIdx?_eq_some_iff_getElem.mpr ⟨hlt, by simpa using hl, fun m hm => ?_⟩
  simp only [decide_eq_true_eq]
  intro hid
  exact absurd (huniq m _ (List.getElem?_eq_getElem (hm.trans hlt)) hid) hm.ne

variable {p s : List FklInsLn} {cur : FklInsLn} {j : Nat}

theorem getElem?_after (m : Nat) : (p ++ cur :: s)[p.length + 1 + m]? = s[m]? := by
  rw [List.getElem?_append_right (by omega), show p.length + 1 + m - p.length = m + 1 by omega,
    List.getElem?_cons_succ]

theorem getElem?_before {m : Nat} (hm : m < p.length) :
    p.reverse[m]? = (p ++ cur :: s)[p.length - 1 - m]? := by
  rw [List.getElem?_reverse hm, List.getElem?_append_left (by omega)]

theorem LabelAt.find_after (h : LabelAt (p ++ cur :: s) cur j) (hj : p.length < j) :
    findBlock cur.jmpTo s = some (j - (p.length + 1)) := by
  obtain ⟨⟨l, hl, hid⟩, huniq⟩ := h
  refine findBlock_eq ?_ hid fun m l' hl' hid' => ?_
  · rw [← @getElem?_after p s cur,
      show p.length + 1 + (j - (p.length + 1)) = j by omega]
    exact hl
  · rw [← @getElem?_after p s cur] at hl'
    have := huniq _ l' hl' hid'
    omega

theorem LabelAt.find_before (h : LabelAt (p ++ cur :: s) cur j) (hj : j < p.length) :
    findBlock cur.jmpTo p.reverse = some (p.length - 1 - j) := by
  obtain ⟨⟨l, hl, hid⟩, huniq⟩ := h
  refine findBlock_eq ?_ hid fun m l' hl' hid' => ?_
  · rw [@getElem?_before p s cur _ (by omega),
      show p.length - 1 - (p.length - 1 - j) = j by omega]
    exact hl
  · have hm : m < p.length := by
      have := (List.getElem?_eq_some_iff.mp hl').1
      simpa using this
    rw [@getElem?_before p s cur _ hm] at hl'
    have := huniq _ l' hl' hid'
    omega

/-! One round sets every operand. -/

/-- `cur'` is `cur` with the operand that leads to its block. -/
structure OperandSet (a : List FklInsLn) (i : Nat) (cur cur' : FklInsLn) : Prop where
  kept : cur' = { cur with ins := cur'.ins }
  op_eq : cur'.ins.op = cur.ins.op
  other : ¬jumps cur = true → cur' = cur
  operand : jumps cur = true → ∀ j, LabelAt a cur j → insOffset cur'.ins = j - (i + 1 : Int)

theorem recomputeIns_other {prev rest : List FklInsLn} {op : FklOpcode}
    (hop : cur.ins.op = some op) (h : jumps cur = false) (newIns : Code) :
    recomputeIns prev rest cur newIns = some (keepIns cur newIns) := by
  unfold recomputeIns
  by_cases hto : cur.jmpTo = 0
  · rw [if_pos hto]
  unfold jumps at h
  simp only [Bool.or_eq_false_iff] at h
  obtain ⟨⟨hjmp, hcond⟩, hproc⟩ := h
  have harg : ∃ r, fklGetInsOpArg (firstWord cur.ins) ⟨0, 0, 0⟩ = some r := by
    unfold fklGetInsOpArg
    simp only [firstWord_zero, hop, bind, Option.bind_some]
    exact ⟨_, rfl⟩
  obtain ⟨r, harg⟩ := harg
  rw [if_neg hto, setInslnToIns_firstWord hop]
  simp [harg, hjmp, hcond, hproc]

theorem LabelAt.eq {a : List FklInsLn} {j' : Nat} (h : LabelAt a cur j) (h' : LabelAt a cur j') :
    j' = j := by
  obtain ⟨l, hl, hid⟩ := h'.isLabel
  exact h.unique j' l hl hid

/-- What the body of the loop gives for an instruction whose operand becomes that of `out`. -/
theorem keep_or_replace (c : Prop) [Decidable c] (out : Code) :
    (if c then keepIns cur out else replaceIns cur 1 1 out) =
      ⟨[if c then cur else { cur with ins := out 0 }], 0, out, decide ¬c⟩ := by
  by_cases hc : c
  · simp [hc, keepIns]
  · simp [hc, replaceIns]

theorem jumps_congr {l l' : FklInsLn} (h : l'.ins.op = l.ins.op) : jumps l' = jumps l := by
  simp [jumps, fklIsJmpIns, fklIsCondJmpIns, fklIsMakeProcIns, h]

theorem fklIsMakeProcIns_congr {i i' : FklIns} (h : i'.op = i.op) :
    fklIsMakeProcIns i' = fklIsMakeProcIns i := by
  simp [fklIsMakeProcIns, h]

/-- What is found of a jump, whatever its kind. -/
def Recomputes (p s : List FklInsLn) (cur : FklInsLn) (newIns : Code) (x : Int) : Prop :=
  ∃ out : Code, (out 0).op = cur.ins.op ∧ insOffset (out 0) = x ∧
    recomputeIns p.reverse s cur newIns =
      some (if insOffset cur.ins = x then keepIns cur out else replaceIns cur 1 1 out)

theorem recomputes_makeProc (hto : cur.jmpTo ≠ 0) (hop : cur.ins.op = some .makeProc)
    (hux : cur.ins.uC ≠ 0) (hj : LabelAt (p ++ cur :: s) cur j) (hlt : p.length < j)
    (hhi : j < p.length + 1 + 2 ^ 24) (newIns : Code) :
    Recomputes p s cur newIns (j - (p.length + 1)) := by
  have hproc : fklIsMakeProcIns cur.ins = true := by simp [fklIsMakeProcIns, hop]
  obtain ⟨out, hout, hread, heq⟩ := @recomputeIns_makeProc p.reverse s cur newIns hto hop hux _
    (hj.find_after hlt) (by omega)
  have hsame : (out 0).op = cur.ins.op := hout.trans hop.symm
  refine ⟨out, hsame, ?_, ?_⟩
  · rw [insOffset_of_makeProc (fklIsMakeProcIns_congr hsame ▸ hproc), hread]
    omega
  · rw [heq, insOffset_of_makeProc hproc]
    exact congrArg some (if_congr (by omega) rfl rfl)

section

variable (hto : cur.jmpTo ≠ 0) {op : FklOpcode} (hop : cur.ins.op = some op)
  (hmode : fklGetOpcodeMode op = .isC) (hproc : fklIsMakeProcIns cur.ins = false)
  (hjmpOp : jmpOpcode cur.ins = op)
  (hjmp : (fklIsJmpIns cur.ins || fklIsCondJmpIns cur.ins) = true)
  (hj : LabelAt (p ++ cur :: s) cur j) (newIns : Code)

include hto hop hmode hproc hjmpOp hjmp hj

theorem recomputes_forward (hix : 0 < cur.ins.sC) (hlt : p.length < j)
    (hhi : j < p.length + 1 + 2 ^ 23) : Recomputes p s cur newIns (j - (p.length + 1)) := by
  obtain ⟨out, hout, hread, heq⟩ := @recomputeIns_forward p.reverse s cur newIns hto op hop hmode
    hproc hjmpOp hjmp hix _ (hj.find_after hlt) (by omega)
  have hsame : (out 0).op = cur.ins.op := hout.trans hop.symm
  refine ⟨out, hsame, ?_, ?_⟩
  · rw [insOffset_of_jmp (fklIsMakeProcIns_congr hsame ▸ hproc), hread]
    omega
  · rw [heq, insOffset_of_jmp hproc]
    exact congrArg some (if_congr (by omega) rfl rfl)

theorem recomputes_backward (hix : cur.ins.sC < 0) (hlt : j < p.length)
    (hlo : p.length + 1 ≤ j + 2 ^ 23) : Recomputes p s cur newIns (j - (p.length + 1)) := by
  obtain ⟨out, hout, hread, heq⟩ := @recomputeIns_backward p.reverse s cur newIns hto op hop hmode
    hproc hjmpOp hjmp hix _ (hj.find_before hlt) (by omega)
  have hsame : (out 0).op = cur.ins.op := hout.trans hop.symm
  refine ⟨out, hsame, ?_, ?_⟩
  · rw [insOffset_of_jmp (fklIsMakeProcIns_congr hsame ▸ hproc), hread]
    omega
  · rw [heq, insOffset_of_jmp hproc]
    exact congrArg some (if_congr (by omega) rfl rfl)

end

theorem recomputes_jump (hto : cur.jmpTo ≠ 0) (hjumps : jumps cur = true)
    (hj : LabelAt (p ++ cur :: s) cur j)
    (hside : if jumpsBack cur then j < p.length else p.length < j)
    (hfit : JmpFits cur p.length j) (newIns : Code) :
    Recomputes p s cur newIns (j - (p.length + 1)) := by
  unfold JmpFits at hfit
  rcases jumps_cases hjumps with ⟨op, hop, hmode, hproc, hjmpOp, hjmp⟩ | ⟨hop, hproc⟩
  · simp only [hproc, Bool.false_eq_true, if_false] at hfit
    simp only [jumpsBack, hproc, Bool.not_false, Bool.true_and, decide_eq_true_eq] at hside
    split_ifs at hfit hside with hneg
    · exact recomputes_backward hto hop hmode hproc hjmpOp hjmp hj newIns hneg hside hfit
    · have hpos : 0 < cur.ins.sC := lt_of_le_of_ne (not_lt.mp hneg) hfit.1.symm
      exact recomputes_forward hto hop hmode hproc hjmpOp hjmp hj newIns hpos hside hfit.2.2
  · simp only [hproc, if_true] at hfit
    have hlt : p.length < j := by omega
    exact recomputes_makeProc hto hop hfit.1 hj hlt hfit.2.2 newIns

theorem recomputeIns_set (h : JmpLabelled (p ++ cur :: s))
    (hfits : jumps cur = true → ∀ j, LabelAt (p ++ cur :: s) cur j → JmpFits cur p.length j)
    (newIns : Code) :
    ∃ cur' out ch, recomputeIns p.reverse s cur newIns = some ⟨[cur'], 0, out, ch⟩ ∧
      OperandSet (p ++ cur :: s) p.length cur cur' ∧ (ch = false → cur' = cur) ∧
      (OperandSet (p ++ cur :: s) p.length cur cur → ch = false) := by
  have hget : (p ++ cur :: s)[p.length]? = some cur := by simp
  have hmem : cur ∈ p ++ cur :: s := by simp
  cases hjumps : jumps cur with
  | false =>
    obtain ⟨op, hop⟩ := Option.ne_none_iff_exists'.mp (h.wellFormed cur hmem)
    exact ⟨cur, newIns, false, recomputeIns_other hop hjumps newIns,
      ⟨rfl, rfl, fun _ => rfl, fun h => by simp [hjumps] at h⟩, fun _ => rfl, fun _ => rfl⟩
  | true =>
    obtain ⟨j, hj, hside⟩ := h.label _ _ hget hjumps
    obtain ⟨out, hop, hoff, heq⟩ := recomputes_jump (h.jmpTo_ne cur hmem hjumps) hjumps hj hside
      (hfits hjumps j hj) newIns
    rw [keep_or_replace] at heq
    refine ⟨_, out, _, heq, ?_, fun hch => ?_, fun hset => ?_⟩
    · split_ifs with hc
      · exact ⟨rfl, rfl, fun h => absurd hjumps h, fun _ j' hj' => hj.eq hj' ▸ hc⟩
      · exact ⟨rfl, hop, fun h => absurd hjumps h, fun _ j' hj' => hj.eq hj' ▸ hoff⟩
    · rw [if_pos (by simpa using hch)]
    · simpa using hset.operand hjumps j hj

/-! Rounds. -/

/-- Where the body of the loop gives one line for each instruction, so does the loop. -/
theorem recomputeRound_of_ins {R : Nat → FklInsLn → FklInsLn → Prop} (prev rest : List FklInsLn)
    (newIns : Code)
    (h : ∀ q cur s, rest = q ++ cur :: s → ∀ newIns, ∃ cur' out ch,
      recomputeIns (q.reverse ++ prev) s cur newIns = some ⟨[cur'], 0, out, ch⟩ ∧
        R (prev.length + q.length) cur cur' ∧ (ch = false → cur' = cur)) :
    ∃ b out ch, recomputeRound prev 0 rest newIns = some (b, out, ch) ∧
      b.length = rest.length ∧ (ch = false → b = rest) ∧
      ∀ (i : Nat) cur cur', rest[i]? = some cur → b[i]? = some cur' →
        R (prev.length + i) cur cur' := by
  induction rest generalizing prev newIns with
  | nil => exact ⟨[], newIns, false, rfl, rfl, fun _ => rfl, by simp⟩
  | cons cur rest ih =>
    obtain ⟨cur', out, ch, hins, hR, hch⟩ := h [] cur rest rfl newIns
    obtain ⟨b, out', ch', hround, hlen, hsame, hall⟩ := ih (cur :: prev) out fun q c s hq n => by
      obtain ⟨c', o, ch, hc, hR, hch⟩ := h (cur :: q) c s (by rw [hq]; rfl) n
      refine ⟨c', o, ch, by simpa using hc, ?_, hch⟩
      simpa [Nat.add_assoc, Nat.add_comm 1] using hR
    refine ⟨cur' :: b, out', ch || ch', ?_, by simp [hlen], fun hfalse => ?_,
      fun i c c' hc hc' => ?_⟩
    · have hins' : recomputeIns prev rest cur newIns = some ⟨[cur'], 0, out, ch⟩ := by
        simpa using hins
      simp [recomputeRound, hins', hround]
    · obtain ⟨hf, hf'⟩ := Bool.or_eq_false_iff.mp hfalse
      rw [hch hf, hsame hf']
    · cases i with
      | zero =>
        cases hc
        cases hc'
        simpa using hR
      | succ i =>
        have := hall i c c' (by simpa using hc) (by simpa using hc')
        simpa [Nat.add_assoc, Nat.add_comm 1] using this

theorem recomputeRound_keeps (prev rest : List FklInsLn) (newIns : Code)
    (h : ∀ q cur s, rest = q ++ cur :: s → ∀ newIns, ∃ out,
      recomputeIns (q.reverse ++ prev) s cur newIns = some (keepIns cur out)) :
    ∃ out, recomputeRound prev 0 rest newIns = some (rest, out, false) := by
  induction rest generalizing prev newIns with
  | nil => exact ⟨newIns, rfl⟩
  | cons cur rest ih =>
    obtain ⟨out, hins⟩ := h [] cur rest rfl newIns
    obtain ⟨out', hround⟩ := ih (cur :: prev) out fun q c s hq n => by
      obtain ⟨o, hc⟩ := h (cur :: q) c s (by rw [hq]; rfl) n
      exact ⟨o, by simpa using hc⟩
    have hins' : recomputeIns prev rest cur newIns = some (keepIns cur out) := by simpa using hins
    exact ⟨out', by simp [recomputeRound, hins', keepIns, hround]⟩

/-- `b` is `a` with the operands set. -/
structure OperandsSet (a b : List FklInsLn) : Prop where
  length_eq : b.length = a.length
  set : ∀ (i : Nat) cur cur', a[i]? = some cur → b[i]? = some cur' → OperandSet a i cur cur'

section

variable {a b : List FklInsLn}

theorem OperandsSet.get (h : OperandsSet a b) {i : Nat} {cur' : FklInsLn} (hi : b[i]? = some cur') :
    ∃ cur, a[i]? = some cur ∧ OperandSet a i cur cur' := by
  have hlt := (List.getElem?_eq_some_iff.mp hi).1
  rw [h.length_eq] at hlt
  exact ⟨a[i], List.getElem?_eq_getElem hlt, h.set i _ _ (List.getElem?_eq_getElem hlt) hi⟩

theorem OperandsSet.get' (h : OperandsSet a b) {i : Nat} {cur : FklInsLn} (hi : a[i]? = some cur) :
    ∃ cur', b[i]? = some cur' ∧ OperandSet a i cur cur' := by
  have hlt := (List.getElem?_eq_some_iff.mp hi).1
  rw [← h.length_eq] at hlt
  exact ⟨b[i], List.getElem?_eq_getElem hlt, h.set i _ _ hi (List.getElem?_eq_getElem hlt)⟩

theorem OperandSet.blockId_eq {i : Nat} {cur cur' : FklInsLn} (h : OperandSet a i cur cur') :
    cur'.blockId = cur.blockId := by rw [h.kept]

theorem OperandSet.jmpTo_eq {i : Nat} {cur cur' : FklInsLn} (h : OperandSet a i cur cur') :
    cur'.jmpTo = cur.jmpTo := by rw [h.kept]

theorem OperandsSet.labelAt (h : OperandsSet a b) {cur cur' : FklInsLn}
    (hto : cur'.jmpTo = cur.jmpTo) {j : Nat} : LabelAt b cur' j ↔ LabelAt a cur j := by
  constructor
  · rintro ⟨⟨l, hl, hid⟩, huniq⟩
    obtain ⟨l₀, hl₀, hset⟩ := h.get hl
    refine ⟨⟨l₀, hl₀, by rw [← hset.blockId_eq, hid, hto]⟩, fun k l' hl' hid' => ?_⟩
    obtain ⟨l₁, hl₁, hset'⟩ := h.get' hl'
    exact huniq k l₁ hl₁ (by rw [hset'.blockId_eq, hid', hto])
  · rintro ⟨⟨l, hl, hid⟩, huniq⟩
    obtain ⟨l₀, hl₀, hset⟩ := h.get' hl
    refine ⟨⟨l₀, hl₀, by rw [hset.blockId_eq, hid, hto]⟩, fun k l' hl' hid' => ?_⟩
    obtain ⟨l₁, hl₁, hset'⟩ := h.get hl'
    exact huniq k l₁ hl₁ (by rw [← hset'.blockId_eq, hid', hto])

variable (h : OperandsSet a b) (ha : JmpLabelled a)
  (hfits : ∀ i cur j, a[i]? = some cur → jumps cur = true → LabelAt a cur j → JmpFits cur i j)

include h ha hfits

theorem OperandsSet.fits {i j : Nat} {cur' : FklInsLn} (hi : b[i]? = some cur')
    (hjumps : jumps cur' = true) (hj : LabelAt b cur' j) :
    JmpFits cur' i j ∧ if jumpsBack cur' then j < i else i < j := by
  obtain ⟨cur, hcur, hset⟩ := h.get hi
  have hj' := (h.labelAt hset.jmpTo_eq).mp hj
  have hjumps' : jumps cur = true := jumps_congr hset.op_eq ▸ hjumps
  have hfit := hfits i cur j hcur hjumps' hj'
  have hoff := hset.operand hjumps' j hj'
  obtain ⟨j', hlabel, hside⟩ := ha.label i cur hcur hjumps'
  obtain rfl := hlabel.eq hj'
  have hproc := fklIsMakeProcIns_congr hset.op_eq
  unfold JmpFits at hfit ⊢
  unfold jumpsBack at hside ⊢
  rw [hproc]
  cases hp : fklIsMakeProcIns cur.ins with
  | true =>
    rw [insOffset_of_makeProc (hproc.trans hp)] at hoff
    simp only [hp, if_true, Bool.not_true, Bool.false_and, Bool.false_eq_true, if_false] at hfit ⊢
    omega
  | false =>
    rw [insOffset_of_jmp (hproc.trans hp)] at hoff
    simp only [hp, Bool.false_eq_true, if_false, Bool.not_false, Bool.true_and,
      decide_eq_true_eq] at hfit hside ⊢
    split_ifs at hfit hside ⊢ <;> omega

theorem OperandsSet.labelled : JmpLabelled b := by
  refine ⟨fun l hl => ?_, fun l hl hjumps => ?_, fun i cur' hi hjumps => ?_⟩
  · obtain ⟨i, hi⟩ := List.mem_iff_getElem?.mp hl
    obtain ⟨cur, hcur, hset⟩ := h.get hi
    rw [hset.op_eq]
    exact ha.wellFormed cur (List.mem_of_getElem? hcur)
  · obtain ⟨i, hi⟩ := List.mem_iff_getElem?.mp hl
    obtain ⟨cur, hcur, hset⟩ := h.get hi
    rw [hset.jmpTo_eq]
    exact ha.jmpTo_ne cur (List.mem_of_getElem? hcur) (jumps_congr hset.op_eq ▸ hjumps)
  · obtain ⟨cur, hcur, hset⟩ := h.get hi
    obtain ⟨j, hj, -⟩ := ha.label i cur hcur (jumps_congr hset.op_eq ▸ hjumps)
    have hj' := (h.labelAt hset.jmpTo_eq).mpr hj
    exact ⟨j, hj', (h.fits ha hfits hi hjumps hj').2⟩

omit ha hfits in
theorem OperandsSet.again {i : Nat} {cur' : FklInsLn} (hi : b[i]? = some cur') :
    OperandSet b i cur' cur' := by
  obtain ⟨cur, hcur, hset⟩ := h.get hi
  refine ⟨rfl, rfl, fun _ => rfl, fun hjumps j hj => ?_⟩
  exact hset.operand (jumps_congr hset.op_eq ▸ hjumps) j ((h.labelAt hset.jmpTo_eq).mp hj)

/-- A second round changes nothing. -/
theorem OperandsSet.round (newIns : Code) :
    ∃ out, recomputeRound [] 0 b newIns = some (b, out, false) := by
  refine recomputeRound_keeps [] b newIns fun q cur s hq n => ?_
  have hget : b[q.length]? = some cur := by simp [hq]
  obtain ⟨cur', out, ch, hins, -, hsame, hagain⟩ := recomputeIns_set (hq ▸ h.labelled ha hfits)
    (fun hjumps j hj => (h.fits ha hfits hget hjumps (hq ▸ hj)).1) n
  obtain rfl := hagain (hq ▸ h.again hget)
  rw [List.append_nil, hins, hsame rfl]
  exact ⟨out, rfl⟩

end

theorem exists_operandsSet {a : List FklInsLn} (ha : JmpLabelled a)
    (hfits : ∀ i cur j, a[i]? = some cur → jumps cur = true → LabelAt a cur j → JmpFits cur i j)
    (newIns : Code) :
    ∃ b out ch, recomputeRound [] 0 a newIns = some (b, out, ch) ∧ OperandsSet a b := by
  obtain ⟨b, out, ch, hround, hlen, -, hall⟩ := recomputeRound_of_ins [] a newIns
    (R := OperandSet a) fun q cur s hq n => by
      have hget : a[q.length]? = some cur := by simp [hq]
      obtain ⟨cur', out, ch, hins, hset, hsame, -⟩ := recomputeIns_set (hq ▸ ha)
        (fun hjumps j hj => hfits _ _ _ hget hjumps (hq ▸ hj)) n
      refine ⟨cur', out, ch, by simpa using hins, ?_, hsame⟩
      rw [List.length_nil, Nat.zero_add, hq]
      exact hset
  exact ⟨b, out, ch, hround, hlen, fun i cur cur' hi hi' => by simpa using hall i cur cur' hi hi'⟩

theorem OperandsSet.recomputed {a b : List FklInsLn} (h : OperandsSet a b) (ha : JmpLabelled a) :
    JmpsRecomputed a b := by
  refine ⟨h.length_eq, fun i cur cur' hi hi' => ?_, fun i cur hi hjumps => ?_⟩
  · have hset := h.set i cur cur' hi hi'
    exact ⟨hset.kept, hset.op_eq, hset.other⟩
  · obtain ⟨cur', hi', hset⟩ := h.get' hi
    obtain ⟨j, hj, -⟩ := ha.label i cur hi hjumps
    obtain ⟨l, hl, hid⟩ := ((h.labelAt hset.jmpTo_eq).mpr hj).isLabel
    refine ⟨j, l, ?_, hl, hid.trans hset.jmpTo_eq⟩
    rw [insTarget_eq hi' ((jumps_congr hset.op_eq).trans hjumps), hset.operand hjumps j hj]
    congr 1
    omega

/-! What a run says of the code that it is given. -/

theorem setInslnToIns_eq {ls : List FklInsLn} {ol : Nat} {ins : Code}
    (h : setInslnToIns ls = some (ol, ins)) : ol = 1 := by
  simp only [setInslnToIns, bind, Option.bind_eq_some_iff, Option.some.injEq, Prod.mk.injEq] at h
  obtain ⟨_, _, op, _, rfl, -⟩ := h
  exact fklGetOpcodeModeLen_eq op

theorem recomputeIns_shape {prev rest : List FklInsLn} {newIns : Code} {r : InsRound}
    (h : recomputeIns prev rest cur newIns = some r) :
    r.skip = 0 ∧ (r.change = false → r.lines = [cur]) := by
  have hkeep : ∀ out, keepIns cur out = r → r.skip = 0 ∧ (r.change = false → r.lines = [cur]) := by
    rintro out rfl
    exact ⟨rfl, fun _ => rfl⟩
  have hreplace : ∀ nl out, replaceIns cur 1 nl out = r →
      r.skip = 0 ∧ (r.change = false → r.lines = [cur]) := by
    rintro nl out rfl
    exact ⟨rfl, fun h => by cases h⟩
  unfold recomputeIns at h
  split_ifs at h with hto
  · exact hkeep _ (Option.some.inj h)
  simp only [bind, Option.bind_eq_some_iff] at h
  obtain ⟨⟨ol, ins⟩, hins, ⟨_, arg⟩, -, h⟩ := h
  obtain rfl := setInslnToIns_eq hins
  split_ifs at h with hproc hux hjmp hix hpos
  · simp only [Option.bind_eq_some_iff] at h
    obtain ⟨_, -, ⟨nl, out⟩, -, h⟩ := h
    split_ifs at h
    · exact hkeep _ (Option.some.inj h)
    · exact hreplace _ _ (Option.some.inj h)
  · exact hkeep _ (Option.some.inj h)
  · simp only [Option.bind_eq_some_iff] at h
    obtain ⟨_, -, ⟨nl, out⟩, -, h⟩ := h
    split_ifs at h
    · exact hkeep _ (Option.some.inj h)
    · exact hreplace _ _ (Option.some.inj h)
  · simp only [Option.bind_eq_some_iff] at h
    obtain ⟨_, -, ⟨nl, out⟩, -, _, -, h⟩ := h
    split_ifs at h
    · exact hkeep _ (Option.some.inj h)
    · exact hreplace _ _ (Option.some.inj h)

/-- The assertions on the operand. -/
theorem insOffset_ne_zero {prev rest : List FklInsLn} {newIns : Code} {r : InsRound}
    (h : recomputeIns prev rest cur newIns = some r) (hjumps : jumps cur = true)
    (hto : cur.jmpTo ≠ 0) : insOffset cur.ins ≠ 0 := by
  intro hzero
  unfold recomputeIns at h
  rcases jumps_cases hjumps with ⟨op, hop, hmode, hproc, -, hjmp⟩ | ⟨hop, hproc⟩
  · rw [insOffset_of_jmp hproc] at hzero
    have harg := fklGetInsOpArg_isC hop hmode (firstWord_zero cur.ins) ⟨0, 0, 0⟩
    rw [hzero] at harg
    rw [if_neg hto, setInslnToIns_firstWord hop] at h
    have hjmp' : ¬(!fklIsJmpIns cur.ins && !fklIsCondJmpIns cur.ins) = true := by
      rw [← Bool.not_or, hjmp, Bool.not_true]
      exact Bool.false_ne_true
    simp only [bind, Option.bind_some, harg, firstWord_zero] at h
    rw [if_neg (by simp [hproc]), if_neg hjmp', if_pos trivial] at h
    cases h
  · rw [insOffset_of_makeProc hproc] at hzero
    have harg := fklGetInsOpArg_makeProc hop (firstWord_zero cur.ins) ⟨0, 0, 0⟩
    rw [if_neg hto, setInslnToIns_firstWord hop] at h
    simp only [bind, Option.bind_some, harg, firstWord_zero] at h
    rw [if_pos hproc, if_pos (by exact_mod_cast hzero)] at h
    cases h

theorem recomputeRound_ins {prev rest b : List FklInsLn} {newIns out : Code} {ch : Bool}
    (h : recomputeRound prev 0 rest newIns = some (b, out, ch)) :
    (ch = false → b = rest) ∧ ∀ cur ∈ rest, ∃ q s n r, recomputeIns q s cur n = some r := by
  induction rest generalizing prev b newIns out ch with
  | nil =>
    cases h
    exact ⟨fun _ => rfl, by simp⟩
  | cons cur rest ih =>
    simp only [recomputeRound, bind, Option.bind_eq_some_iff, Option.some.injEq,
      Prod.mk.injEq] at h
    obtain ⟨r, hins, ⟨b', out', ch'⟩, hround, rfl, rfl, rfl⟩ := h
    obtain ⟨hskip, hlines⟩ := recomputeIns_shape hins
    rw [hskip] at hround
    obtain ⟨hsame, hall⟩ := ih hround
    refine ⟨fun hfalse => ?_, fun c hc => ?_⟩
    · obtain ⟨hf, hf'⟩ := Bool.or_eq_false_iff.mp hfalse
      rw [hlines hf, hsame hf']
      rfl
    · rcases List.mem_cons.mp hc with rfl | hc
      · exact ⟨_, _, _, r, hins⟩
      · exact hall c hc

/-- The loop ends with a round on its result. -/
theorem recomputeLoop_last {fuel : Nat} {a out : List FklInsLn} {newIns : Code}
    (h : recomputeLoop fuel a newIns = some out) :
    ∃ n n' b ch m m', recomputeRound [] 0 a newIns = some (b, m, ch) ∧
      recomputeRound [] 0 out n = some (m', n', false) := by
  induction fuel generalizing a newIns with
  | zero => cases h
  | succ fuel ih =>
    simp only [recomputeLoop, bind, Option.bind_eq_some_iff] at h
    obtain ⟨⟨b, newIns', ch⟩, hround, h⟩ := h
    cases ch with
    | true =>
      obtain ⟨n, n', _, _, _, m', -, hlast⟩ := ih h
      exact ⟨n, n', b, true, newIns', m', hround, hlast⟩
    | false =>
      cases h
      obtain rfl := (recomputeRound_ins hround).1 rfl
      exact ⟨newIns, newIns', b, false, newIns', b, hround, hround⟩

theorem recomputeRound_offset {a b : List FklInsLn} {newIns out : Code} {ch : Bool}
    (h : recomputeRound [] 0 a newIns = some (b, out, ch)) {i : Nat} (hcur : a[i]? = some cur)
    (hjumps : jumps cur = true) (hto : cur.jmpTo ≠ 0) : insOffset cur.ins ≠ 0 := by
  obtain ⟨_, _, _, _, hins⟩ := (recomputeRound_ins h).2 cur (List.mem_of_getElem? hcur)
  exact insOffset_ne_zero hins hjumps hto

theorem JmpsRecomputed.get {a out : List FklInsLn} (h : JmpsRecomputed a out) {i : Nat}
    (hcur : a[i]? = some cur) :
    ∃ cur', out[i]? = some cur' ∧ cur'.blockId = cur.blockId ∧ cur'.jmpTo = cur.jmpTo ∧
      cur'.ins.op = cur.ins.op := by
  have hlt := (List.getElem?_eq_some_iff.mp hcur).1
  rw [← h.length_eq] at hlt
  obtain ⟨hkept, hop, -⟩ := h.kept i cur _ hcur (List.getElem?_eq_getElem hlt)
  exact ⟨out[i], List.getElem?_eq_getElem hlt, by rw [hkept], by rw [hkept], hop⟩

/-- The jump leads to the block, so its operand is the way there. -/
theorem JmpsRecomputed.operand {a out : List FklInsLn} (h : JmpsRecomputed a out) {i : Nat}
    {cur' : FklInsLn} (hcur : a[i]? = some cur) (hcur' : out[i]? = some cur')
    (hjumps : jumps cur = true) (hj : LabelAt a cur j) :
    insOffset cur'.ins = j - (i + 1 : Int) := by
  have hop := (h.kept i cur cur' hcur hcur').2.1
  obtain ⟨j', l', htarget, hl', hid⟩ := h.target i cur hcur hjumps
  have hat := insTarget_eq hcur' ((jumps_congr hop).trans hjumps)
  have hland := Option.some.inj (hat.symm.trans htarget)
  have hlt := (List.getElem?_eq_some_iff.mp hl').1
  rw [h.length_eq] at hlt
  have hl := List.getElem?_eq_getElem hlt
  have hblock : l'.blockId = a[j'].blockId := by rw [(h.kept j' _ l' hl hl').1]
  obtain rfl := hj.unique j' a[j'] hl (hblock ▸ hid)
  omega

theorem JmpFits.of_operand {i : Nat} {ins : FklIns} (hop : ins.op = cur.ins.op)
    (hzero : insOffset cur.ins ≠ 0) (hne : insOffset ins ≠ 0)
    (hins : insOffset ins = j - (i + 1 : Int)) (hside : if jumpsBack cur then j < i else i < j) :
    JmpFits cur i j := by
  have hproc := fklIsMakeProcIns_congr hop
  unfold JmpFits
  unfold jumpsBack at hside
  cases hp : fklIsMakeProcIns cur.ins with
  | true =>
    rw [insOffset_of_makeProc (hproc.trans hp)] at hins hne
    rw [insOffset_of_makeProc hp] at hzero
    have hlt := uC_lt ins
    simp only [hp, Bool.not_true, Bool.false_and, Bool.false_eq_true, if_false] at hside
    rw [if_pos rfl]
    omega
  | false =>
    rw [insOffset_of_jmp (hproc.trans hp)] at hins hne
    rw [insOffset_of_jmp hp] at hzero
    have hfield := sC_inField ins
    rw [hins] at hfield hne
    generalize cur.ins.sC = x at hzero hside ⊢
    simp only [hp, Bool.not_false, Bool.true_and, decide_eq_true_eq] at hside
    obtain ⟨hlo, hhi⟩ := hfield
    rw [if_neg Bool.false_ne_true]
    split_ifs at hside ⊢ <;> omega

theorem recomputeJmpTarget_right_iff {a : List FklInsLn} (ha : JmpLabelled a) :
    (∃ n out, (∀ fuel, n < fuel → recomputeJmpTarget fuel a = some out) ∧ JmpsRecomputed a out) ↔
      ∀ i cur j, a[i]? = some cur → jumps cur = true → LabelAt a cur j → JmpFits cur i j := by
  constructor
  · rintro ⟨n, out, hrun, hright⟩ i cur j hcur hjumps hj
    obtain ⟨_, _, _, _, _, _, hfirst, hlast⟩ :=
      recomputeLoop_last (hrun (n + 1) (Nat.lt_succ_self n))
    have hto := ha.jmpTo_ne cur (List.mem_of_getElem? hcur) hjumps
    obtain ⟨cur', hcur', -, hto', hop⟩ := hright.get hcur
    obtain ⟨j', hj', hside⟩ := ha.label i cur hcur hjumps
    obtain rfl := hj.eq hj'
    exact JmpFits.of_operand hop (recomputeRound_offset hfirst hcur hjumps hto)
      (recomputeRound_offset hlast hcur' ((jumps_congr hop).trans hjumps) (hto' ▸ hto))
      (hright.operand hcur hcur' hjumps hj') hside
  · intro hfits
    obtain ⟨b, newIns, ch, hround, hset⟩ := exists_operandsSet ha hfits fun _ => 0
    obtain ⟨newIns', hagain⟩ := hset.round ha hfits newIns
    refine ⟨1, b, fun fuel hfuel => ?_, hset.recomputed ha⟩
    obtain ⟨fuel, rfl⟩ := Nat.exists_eq_add_of_le' hfuel
    have hend : recomputeLoop (fuel + 1) b newIns = some b := by
      rw [recomputeLoop, hagain]
      rfl
    rw [recomputeJmpTarget, recomputeLoop, hround]
    cases ch with
    | true => exact hend
    | false => rfl

/-- A jump over `k` instructions, where once three stood. -/
def skipJmp (k : Nat) : List FklInsLn :=
  { bareLine ((makeInsI .jmp).setSC 3) with jmpTo := 2 } ::
    (List.replicate k (bareLine (makeInsI .pushNil)) ++
      [{ bareLine (makeInsI .ret) with blockId := 2 }])

theorem skipJmp_get {k i : Nat} {l : FklInsLn} (h : (skipJmp k)[i]? = some l) :
    i = 0 ∧ l = { bareLine ((makeInsI .jmp).setSC 3) with jmpTo := 2 } ∨
      l = bareLine (makeInsI .pushNil) ∨
      i = k + 1 ∧ l = { bareLine (makeInsI .ret) with blockId := 2 } := by
  cases i with
  | zero => exact Or.inl ⟨rfl, (Option.some.inj h).symm⟩
  | succ i =>
    rw [skipJmp, List.getElem?_cons_succ, List.getElem?_append, List.length_replicate] at h
    split_ifs at h with hi
    · rw [List.getElem?_replicate, if_pos hi] at h
      exact Or.inr (Or.inl (Option.some.inj h).symm)
    · have hlt := (List.getElem?_eq_some_iff.mp h).1
      rw [List.length_singleton] at hlt
      obtain rfl : i = k := by omega
      rw [Nat.sub_self] at h
      exact Or.inr (Or.inr ⟨rfl, (Option.some.inj h).symm⟩)

theorem skipJmp_jumps {k i : Nat} {cur : FklInsLn} (h : (skipJmp k)[i]? = some cur)
    (hjumps : jumps cur = true) : i = 0 ∧ cur.jmpTo = 2 ∧ cur.ins.sC = 3 ∧
      fklIsMakeProcIns cur.ins = false := by
  rcases skipJmp_get h with ⟨rfl, rfl⟩ | rfl | ⟨-, rfl⟩
  · exact ⟨rfl, rfl, by decide, by decide⟩
  · exact absurd hjumps (by decide)
  · exact absurd hjumps (by decide)

theorem skipJmp_label {k i : Nat} {l : FklInsLn} (h : (skipJmp k)[i]? = some l)
    (hid : l.blockId = 2) : i = k + 1 := by
  rcases skipJmp_get h with ⟨-, rfl⟩ | rfl | ⟨hi, -⟩
  · exact absurd hid (by decide)
  · exact absurd hid (by decide)
  · exact hi

theorem skipJmp_labelled (k : Nat) : JmpLabelled (skipJmp k) where
  wellFormed l hl := by
    obtain ⟨i, hi⟩ := List.mem_iff_getElem?.mp hl
    rcases skipJmp_get hi with ⟨-, rfl⟩ | rfl | ⟨-, rfl⟩ <;> decide
  jmpTo_ne cur hcur hjumps := by
    obtain ⟨i, hi⟩ := List.mem_iff_getElem?.mp hcur
    rw [(skipJmp_jumps hi hjumps).2.1]
    decide
  label i cur hcur hjumps := by
    obtain ⟨rfl, hto, hsC, -⟩ := skipJmp_jumps hcur hjumps
    refine ⟨k + 1, ⟨⟨{ bareLine (makeInsI .ret) with blockId := 2 }, ?_, hto.symm⟩,
      fun m l hl hid => skipJmp_label hl (hid.trans hto)⟩, ?_⟩
    · simp [skipJmp]
    · simp [jumpsBack, hsC]

theorem skipJmp_right :
    ∃ n out, (∀ fuel, n < fuel → recomputeJmpTarget fuel (skipJmp 1) = some out) ∧
      JmpsRecomputed (skipJmp 1) out := by
  refine (recomputeJmpTarget_right_iff (skipJmp_labelled 1)).mpr fun i cur j hcur hjumps hj => ?_
  obtain ⟨rfl, hto, hsC, hproc⟩ := skipJmp_jumps hcur hjumps
  obtain ⟨l, hl, hid⟩ := hj.isLabel
  obtain rfl := skipJmp_label hl (hid.trans hto)
  simp [JmpFits, hproc, hsC]

/-- The block stands right behind the jump: its operand becomes zero, on which the next round
fails. -/
theorem skipJmp_asserts :
    JmpLabelled (skipJmp 0) ∧ ∀ fuel, recomputeJmpTarget fuel (skipJmp 0) = none := by
  refine ⟨skipJmp_labelled 0, fun fuel => ?_⟩
  match fuel with
  | 0 => rfl
  | 1 => rfl
  | n + 2 => rfl

end FakeLisp
