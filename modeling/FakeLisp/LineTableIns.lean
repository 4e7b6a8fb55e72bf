import FakeLisp.LineTable
import FakeLisp.WhileLoop

/-! A word is inserted into a byte code with a line table, and removed from it. The loop that
should move the words behind the inserted one runs upwards, away from them. -/

namespace FakeLisp.LineTable

/-- A store into an array, nothing where it is outside of it. -/
def setWord (code : List FklIns) (i : Nat) (w : FklIns) : Option (List FklIns) :=
  if i < code.length then some (code.set i w) else none

/-- The loop of the insertion, in its order: `for (i = len - 1; i > at; i++)`. -/
def insertLoop (at_ fuel : Nat) (code : List FklIns) : Option (Nat × List FklIns) :=
  whileLoop (fun s => at_ < s.1)
    (fun s => do
      let w ← s.2[s.1 - 1]?
      some (s.1 + 1, ← setWord s.2 s.1 w))
    fuel (code.length - 1, code)

/-- The entries behind that of the word are moved. The word that the longer array ends with is
`fresh`. -/
def fklByteCodeLntInsertInsAt (fuel : Nat) (fresh : FklIns) (bcl : FklByteCodelnt) (ins : FklIns)
    (at_ : Nat) : Option FklByteCodelnt := do
  let code := bcl.bc ++ [fresh]
  let i ← (← fklFindLntItem at_ bcl.l)
  let l := bcl.l.take (i + 1) ++ increaseAllScp (bcl.l.drop (i + 1)) 1
  let moved ← insertLoop at_ fuel code
  some ⟨l, ← setWord moved.2 at_ ins⟩

/-- The body of the removal's loop. -/
def removeBody (s : Nat × List FklIns) : Option (Nat × List FklIns) := do
  let w ← s.2[s.1 + 1]?
  some (s.1 + 1, ← setWord s.2 s.1 w)

/-- The loop of the removal: `for (i = at; i < len - 1; i++)`. -/
def removeLoop (at_ : Nat) (code : List FklIns) : Option (Nat × List FklIns) :=
  whileLoop (fun s => s.1 < code.length - 1) removeBody code.length (at_, code)

def decreaseAllScp (t : List FklLntItem) : List FklLntItem :=
  t.map fun x => { x with scp := x.scp - 1 }

def fklByteCodeLntRemoveInsAt (bcl : FklByteCodelnt) (at_ : Nat) :
    Option (FklIns × FklByteCodelnt) := do
  let i ← (← fklFindLntItem at_ bcl.l)
  let l := bcl.l.take (i + 1) ++ decreaseAllScp (bcl.l.drop (i + 1))
  let ins ← bcl.bc[at_]?
  let moved ← removeLoop at_ bcl.bc
  some (ins, ⟨l, moved.2.take (bcl.bc.length - 1)⟩)

/-- The word is inserted, the others keep their lines, and the removal undoes it. -/
def InsertsAndRestores (fresh : FklIns) (bcl : FklByteCodelnt) (ins : FklIns) (at_ : Nat) : Prop :=
  ∃ fuel bcl', fklByteCodeLntInsertInsAt fuel fresh bcl ins at_ = some bcl' ∧
    bcl'.bc = bcl.bc.insertIdx at_ ins ∧
    (∀ cp < at_, SameLine bcl'.l cp bcl.l cp) ∧
    (∀ cp, at_ ≤ cp → SameLine bcl'.l (cp + 1) bcl.l cp) ∧
    fklByteCodeLntRemoveInsAt bcl' at_ = some (ins, bcl)

variable {fresh ins : FklIns} {bcl : FklByteCodelnt} {at_ : Nat}

/-- The loop's second store is behind the end of the array. -/
theorem insertLoop_outside {code : List FklIns} (h : at_ + 1 < code.length) (fuel : Nat) :
    insertLoop at_ fuel code = none := by
  have hread : ∃ w, code[code.length - 1 - 1]? = some w :=
    ⟨_, List.getElem?_eq_getElem (by omega)⟩
  obtain ⟨w, hw⟩ := hread
  have hfirst : at_ < code.length - 1 := by omega
  have hsecond : at_ < code.length - 1 + 1 := by omega
  have hin : code.length - 1 < code.length := by omega
  have hout : ¬ code.length - 1 + 1 < code.length := by omega
  cases fuel with
  | zero => rfl
  | succ fuel =>
    simp only [insertLoop, whileLoop, hfirst, decide_true, if_true, hw, setWord, hin,
      Option.bind_eq_bind, Option.bind_some]
    cases fuel with
    | zero => rfl
    | succ fuel => simp [whileLoop, hsecond, hout]

theorem fklByteCodeLntInsertInsAt_outside (fuel : Nat) (fresh ins : FklIns)
    (h : at_ < bcl.bc.length) :
    fklByteCodeLntInsertInsAt fuel fresh bcl ins at_ = none := by
  have hloop : insertLoop at_ fuel (bcl.bc ++ [fresh]) = none :=
    insertLoop_outside (by simpa using h) fuel
  simp [fklByteCodeLntInsertInsAt, hloop]

theorem not_insertsAndRestores (fresh : FklIns) (bcl : FklByteCodelnt) (ins : FklIns) (at_ : Nat)
    (h : at_ < bcl.bc.length) : ¬ InsertsAndRestores fresh bcl ins at_ := by
  rintro ⟨fuel, bcl', hins, -⟩
  rw [fklByteCodeLntInsertInsAt_outside fuel fresh ins h] at hins
  cases hins

theorem not_insertsAndRestores_one : ¬ InsertsAndRestores 0 ⟨[⟨1, 0, 1, 1⟩], [1]⟩ 2 0 :=
  not_insertsAndRestores 0 ⟨[⟨1, 0, 1, 1⟩], [1]⟩ 2 0 (by decide)

/-- A breakpoint on the second of two words. -/
theorem not_insertsAndRestores_two :
    ValidTable [⟨1, 0, 1, 1⟩, ⟨1, 1, 2, 1⟩] ∧
      ¬ InsertsAndRestores 0 ⟨[⟨1, 0, 1, 1⟩, ⟨1, 1, 2, 1⟩], [1, 2]⟩ 3 1 := by
  refine ⟨by decide, ?_⟩
  rintro ⟨fuel, bcl', hins, -⟩
  rw [fklByteCodeLntInsertInsAt_outside fuel 0 3 (by decide)] at hins
  cases hins

end FakeLisp.LineTable
