import FakeLisp.ByteBuf
import FakeLisp.PathComps
import FakeLisp.StringCmp
import FakeLisp.WhileLoop

/-! Normalization of a path in place, as it is built where `/` is the separator: one cursor reads
the bytes, one behind it writes those that stay. -/

namespace FakeLisp

def isPathSep (c : UInt8) : Bool := c = pathSep

/-- The sizes of the drive, which is always none, and of the root. -/
def skipRoot (path : Nat → UInt8) : Nat × Nat :=
  (0, if !isPathSep (path 0) then 0
    else if !isPathSep (path 1) || isPathSep (path 2) then 1
    else 2)

/-- The buffer, the cursors `p1` and `p2` as positions in it, and `lastC`. -/
structure NormState where
  buf : Nat → UInt8
  p1 : Nat
  p2 : Nat
  lastC : UInt8

namespace NormState

/-- `*p2++ = c` -/
def put (s : NormState) (c : UInt8) : NormState :=
  { s with buf := Function.update s.buf s.p2 c, p2 := s.p2 + 1 }

end NormState

section

variable (buf : Nat → UInt8) (minP2 : Nat)

/-- `while (p3 != minP2 && *--p3 == SEP)` -/
def backSeps : Nat → Nat
  | 0 => 0
  | p3 + 1 =>
    if p3 + 1 = minP2 then p3 + 1 else if buf p3 = pathSep then backSeps p3 else p3

/-- `while (p3 != minP2 && *(p3 - 1) != SEP)` -/
def backComp : Nat → Nat
  | 0 => 0
  | p3 + 1 =>
    if p3 + 1 = minP2 then p3 + 1 else if buf p3 ≠ pathSep then backComp p3 else p3 + 1

end

/-- `while (--p2 != minP2 && *p2 == SEP)`; the loop is entered with `p2` behind `minP2`. -/
def stripSeps (minP2 : Nat) : Nat → (Nat → UInt8) → (Nat → UInt8) × Nat
  | 0, buf => (buf, 0)
  | p2 + 1, buf =>
    if p2 ≠ minP2 ∧ buf p2 = pathSep then stripSeps minP2 p2 (Function.update buf p2 0)
    else (buf, p2)

/-- `while (IS_SEP(p1)) p1++` -/
def skipSeps (buf : Nat → UInt8) : Nat → Nat → Option Nat
  | 0, _ => none
  | fuel + 1, p1 => if isPathSep (buf p1) then skipSeps buf fuel (p1 + 1) else some p1

section

variable (pEnd minP2 : Nat)

/-- `SEP_OR_END` -/
def sepOrEnd (buf : Nat → UInt8) (x : Nat) : Bool := isPathSep (buf x) || x == pEnd

/-- What a component `..` does to the bytes written. -/
def takeBack (s : NormState) : NormState :=
  let p3 := backComp s.buf minP2 (backSeps s.buf minP2 s.p2)
  if s.p2 = minP2 ∨ s.buf p3 = pathDot ∧ s.buf (p3 + 1) = pathDot ∧ isPathSep (s.buf (p3 + 2)) then
    { (s.put pathDot).put pathDot with lastC := pathDot }
  else if s.buf p3 = pathSep then { s with p2 := p3 + 1 }
  else { s with p2 := p3 }

/-- The body of the loop, with its `++p1`. -/
def normStep (s : NormState) : NormState :=
  let c := s.buf s.p1
  let keep := { s.put c with lastC := c, p1 := s.p1 + 1 }
  if s.lastC = pathSep then
    if c = pathDot then
      let sepAt1 := sepOrEnd pEnd s.buf (s.p1 + 1)
      let sepAt2 := !sepAt1 && sepOrEnd pEnd s.buf (s.p1 + 2)
      if sepAt2 && s.buf (s.p1 + 1) = pathDot then { takeBack minP2 s with p1 := s.p1 + 1 + 1 }
      else if sepAt1 then { s with p1 := s.p1 + 1 }
      else keep
    else if c = pathSep then { s with p1 := s.p1 + 1 }
    else keep
  else keep

def normLoop : Nat → NormState → Option NormState :=
  whileLoop (fun s => s.p1 ≠ pEnd) fun s => some (normStep pEnd minP2 s)

/-- The end of `normpath`: the bytes up to the terminating zero. -/
def normFinish (s : NormState) : List UInt8 :=
  let buf := Function.update s.buf s.p2 0
  let (buf, p2) : (Nat → UInt8) × Int :=
    if s.p2 ≠ minP2 then
      let (buf, p2) := stripSeps minP2 s.p2 buf
      (buf, p2)
    else (buf, s.p2 - 1)
  let buf := if p2 < 0 then Function.update (Function.update buf 0 pathDot) 1 0 else buf
  cstr ((List.range (pEnd + 2)).map buf)

end

/-- The state before the loop. -/
def normStart (pEnd : Nat) (buf : Nat → UInt8) (root : Nat) : Option NormState :=
  let (p1, p2, lastC) := if root ≠ 0 then (root, root, buf (root - 1)) else (0, 0, 0)
  if buf p1 = pathDot ∧ sepOrEnd pEnd buf (p1 + 1) then do
    let lastC := buf (p1 + 1)
    some ⟨buf, ← skipSeps buf (pEnd + 1) (p1 + 1), p2, lastC⟩
  else some ⟨buf, p1, p2, lastC⟩

/-- `path` holds the bytes up to the terminating zero, which the buffer keeps behind them. -/
def normpath (path : List UInt8) : Option (List UInt8) :=
  let path := cstr path
  let size := path.length
  let buf := fun i => path.getD i 0
  if size = 0 then some [pathDot]
  else do
    let (drvsize, rootsize) := skipRoot buf
    let minP2 := if drvsize + rootsize ≠ 0 then drvsize + rootsize - 1 else 0
    let s ← normLoop size minP2 (size + 1) (← normStart size buf (drvsize + rootsize))
    some (normFinish size minP2 s)

/-! ## The two cursors -/

/-- `out` is written, `rem` is still to be read. -/
structure Cursors (pEnd : Nat) (s : NormState) (out rem : List UInt8) : Prop where
  written : CellsAt s.buf 0 out
  p2 : s.p2 = out.length
  unread : CellsAt s.buf s.p1 rem
  p1 : s.p1 + rem.length = pEnd
  le : s.p2 ≤ s.p1

/-- A component ends here. -/
def CompEnds (rem : List UInt8) : Prop := ∀ c, rem.head? = some c → c = pathSep

theorem compEnds_nil : CompEnds [] := nofun

theorem compEnds_cons {c : UInt8} {rem : List UInt8} : CompEnds (c :: rem) ↔ c = pathSep := by
  simp [CompEnds]

theorem sepOrEnd_iff {pEnd a : Nat} {buf : Nat → UInt8} {rem : List UInt8} (h : CellsAt buf a rem)
    (hend : a + rem.length = pEnd) : sepOrEnd pEnd buf a = true ↔ CompEnds rem := by
  cases rem with
  | nil =>
    have ha : a = pEnd := hend
    simp [sepOrEnd, ha, compEnds_nil]
  | cons c rem =>
    have hc := (cellsAt_cons.mp h).1
    rw [List.length_cons] at hend
    have ha : a ≠ pEnd := by omega
    simp [sepOrEnd, ha, hc, isPathSep, compEnds_cons]

variable {pEnd minP2 : Nat} {s : NormState} {out rem w : List UInt8} {c : UInt8}

theorem Cursors.read (h : Cursors pEnd s out (c :: rem)) : s.buf s.p1 = c :=
  (cellsAt_cons.mp h.unread).1

/-- The bytes read stay behind the ones written. -/
theorem Cursors.advance (h : Cursors pEnd s out (w ++ rem)) {out' : List UInt8} {t : NormState}
    (hbuf : CellsAt t.buf 0 out') (hp1 : t.p1 = s.p1 + w.length) (hp2 : t.p2 = out'.length)
    (hle : t.p2 ≤ s.p1 + w.length)
    (hsame : ∀ i, s.p1 + w.length ≤ i → t.buf i = s.buf i) : Cursors pEnd t out' rem where
  written := hbuf
  p2 := hp2
  unread := by
    intro i c hc
    rw [hp1, hsame _ (Nat.le_add_right _ _)]
    exact (cellsAt_append.mp h.unread).2 i c hc
  p1 := by
    have hlen := h.p1
    rw [List.length_append] at hlen
    omega
  le := hp1 ▸ hle

/-- A byte goes on. -/
theorem Cursors.keep (h : Cursors pEnd s out (c :: rem)) :
    Cursors pEnd { s.put c with lastC := c, p1 := s.p1 + 1 } (out ++ [c]) rem := by
  have hle := h.le
  have hput := h.written.snoc c
  rw [Nat.zero_add, ← h.p2] at hput
  refine Cursors.advance (w := [c]) h hput rfl (by simp [NormState.put, h.p2]) (Nat.succ_le_succ hle) ?_
  intro i hi
  have hne : i ≠ s.p2 := by
    simp only [List.length_singleton] at hi
    omega
  exact Function.update_of_ne hne _ _

theorem Cursors.skip (h : Cursors pEnd s out (c :: rem)) :
    Cursors pEnd { s with p1 := s.p1 + 1 } out rem :=
  Cursors.advance (w := [c]) h h.written rfl h.p2 (Nat.le_succ_of_le h.le) fun _ _ => rfl

/-! ## One round -/

theorem normStep_inComp (h : Cursors pEnd s out (c :: rem)) (hlast : s.lastC ≠ pathSep) :
    normStep pEnd minP2 s = { s.put c with lastC := c, p1 := s.p1 + 1 } := by
  simp only [normStep, hlast, if_false, h.read]

theorem normStep_sep (h : Cursors pEnd s out (pathSep :: rem)) (hlast : s.lastC = pathSep) :
    normStep pEnd minP2 s = { s with p1 := s.p1 + 1 } := by
  have hne : pathSep ≠ pathDot := by decide
  simp only [normStep, hlast, if_true, h.read, hne, if_false]

theorem normStep_dot (h : Cursors pEnd s out (pathDot :: rem)) (hlast : s.lastC = pathSep)
    (hend : CompEnds rem) : normStep pEnd minP2 s = { s with p1 := s.p1 + 1 } := by
  have hsep : sepOrEnd pEnd s.buf (s.p1 + 1) = true :=
    (sepOrEnd_iff (cellsAt_cons.mp h.unread).2 h.skip.p1).mpr hend
  simp [normStep, hlast, h.read, hsep]

theorem normStep_dotdot (h : Cursors pEnd s out (pathDot :: pathDot :: rem))
    (hlast : s.lastC = pathSep) (hend : CompEnds rem) :
    normStep pEnd minP2 s = { takeBack minP2 s with p1 := s.p1 + 1 + 1 } := by
  have hnext := h.skip
  have hsep1 : sepOrEnd pEnd s.buf (s.p1 + 1) = false := by
    rw [← Bool.not_eq_true, sepOrEnd_iff hnext.unread hnext.p1, compEnds_cons]
    decide
  have hsep2 : sepOrEnd pEnd s.buf (s.p1 + 2) = true :=
    (sepOrEnd_iff (cellsAt_cons.mp hnext.unread).2 hnext.skip.p1).mpr hend
  have hdot : s.buf (s.p1 + 1) = pathDot := hnext.read
  simp [normStep, hlast, h.read, hsep1, hsep2, hdot]

/-- Any other component keeps its first byte. -/
theorem normStep_other (h : Cursors pEnd s out (c :: rem)) (hc : c ≠ pathSep)
    (hdot : ¬(c = pathDot ∧ CompEnds rem))
    (hdotdot : ∀ rest, rem = pathDot :: rest → c = pathDot → ¬CompEnds rest) :
    normStep pEnd minP2 s = { s.put c with lastC := c, p1 := s.p1 + 1 } := by
  by_cases hlast : s.lastC = pathSep
  · by_cases hcd : c = pathDot
    · subst hcd
      have hnext := h.skip
      have hsep1 : sepOrEnd pEnd s.buf (s.p1 + 1) = false := by
        rw [← Bool.not_eq_true, sepOrEnd_iff hnext.unread hnext.p1]
        exact fun hend => hdot ⟨rfl, hend⟩
      have hnot : ¬((sepOrEnd pEnd s.buf (s.p1 + 2)) = true ∧ s.buf (s.p1 + 1) = pathDot) := by
        rintro ⟨hsep2, hd⟩
        cases rem with
        | nil => exact hdot ⟨rfl, compEnds_nil⟩
        | cons d rest =>
          obtain rfl : d = pathDot := hnext.read.symm.trans hd
          exact hdotdot rest rfl rfl
            ((sepOrEnd_iff (cellsAt_cons.mp hnext.unread).2 hnext.skip.p1).mp hsep2)
      simp only [normStep, hlast, if_true, h.read, hsep1, Bool.not_false, Bool.true_and,
        Bool.and_eq_true, decide_eq_true_eq, hnot, if_false, Bool.false_eq_true]
    · simp only [normStep, hlast, if_true, h.read, hcd, hc, if_false]
  · exact normStep_inComp h hlast

end FakeLisp
