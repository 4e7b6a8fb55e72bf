import FakeLisp.FollowChain
import FakeLisp.RegexCompile
import FakeLisp.StackCircle

/-! How a compiled pattern is run over a text: a machine with a program counter, a place in the
text and a stack of places to go back to. -/

namespace FakeLisp.Regex

open CharBuf ReRun

def fklIsAlpha (c : UInt8) : Bool := ch 'a' ≤ (c ||| 32) && (c ||| 32) ≤ ch 'z'

def fklIsAlnum (c : UInt8) : Bool := fklIsAlpha c || CharBuf.fklIsDigit c

def fklIsSpace (c : UInt8) : Bool := c = ch ' ' || (9 ≤ c && c < 14)

/-- The bytes from an offset on, which counts from the objects. What was allocated and not written
is zero. -/
def FklRegexCode.patrnsAt (code : FklRegexCode) (ccl : Nat) : List UInt8 :=
  let start := code.objs.length * sizeofFklRegexObj
  let rest := code.totalsize - start - code.patrns.length
  (code.patrns ++ List.replicate rest 0).drop (ccl - start)

def matchInvCharClass (c : UInt8) (patrns : List UInt8) : Option Bool :=
  if patrns.head? ≠ some charClassEnd then (matchCharClass c patrns).map fun b => !b
  else some false

def truth (b : Bool) : Int := if b then 1 else 0

/-- Without a value where bytes behind those of the classes are read. -/
def matchone (code : FklRegexCode) (cur : FklRegexObj) (c : UInt8) : Option Int :=
  match cur.type with
  | .dot => some 1
  | .charClass => (matchCharClass c (code.patrnsAt cur.arg)).map truth
  | .invCharClass => (matchInvCharClass c (code.patrnsAt cur.arg)).map truth
  | .digits => some (truth (CharBuf.fklIsDigit c))
  | .notDigits => some (truth (!CharBuf.fklIsDigit c))
  | .alpha => some (truth (fklIsAlnum c))
  | .notAlpha => some (truth (!fklIsAlnum c))
  | .whitespace => some (truth (fklIsSpace c))
  | .notWhitespace => some (truth (!fklIsSpace c))
  | .char => some (truth (cur.arg = c.toNat))
  | _ => some (-1)

structure ReMatchState where
  matchcnt : Nat
  offset : Nat
  st : Nat
  st0 : Nat
  deriving DecidableEq

/-- The variables of `matchpattern`. The stack is cut at `sp`: `stp` is `state[sp]`, `under` has
what is below it, the top first, and `over` what earlier pushes have left above. -/
structure MatchVars where
  stp : ReMatchState
  under : List ReMatchState
  above : List ReMatchState
  evalres : Bool
  brtxcoff : Nat
  sawTruncation : Bool
  deriving DecidableEq

namespace MatchVars

def sp (s : MatchVars) : Nat := s.under.length

def goto (s : MatchVars) (offset : Nat) : MatchVars := { s with stp := { s.stp with offset } }

/-- `POP()` -/
def pop (s : MatchVars) : MatchVars :=
  match s.under with
  | [] => s
  | r :: under => { s with stp := r, under, above := s.stp :: s.above }

/-- `PUSH()`, which leaves the counter as it was the last time the stack was as high. -/
def push (s : MatchVars) : MatchVars :=
  let r := s.above.headD ⟨0, 0, 0, 0⟩
  { s with
    stp := { r with offset := s.stp.offset, st := s.stp.st }
    under := s.stp :: s.under, above := s.above.tail }

def start (len : Nat) : MatchVars := ⟨⟨0, 0, 0, len + 1⟩, [], [], false, 0, false⟩

end MatchVars

inductive MatchRound where
  | next (s : MatchVars)
  | returned (len : Nat) (lastIsTrue : Bool)

def isRepeat (type : FklRegexType) : Bool := type = .star || type = .plus

/-- The objects before which a repetition looks for nothing. -/
def endsOperand (type : FklRegexType) : Bool :=
  type = .atEnd || type = .unused || type = .groupend || type = .branch

section

variable (code : FklRegexCode) (text : List UInt8)

/-- `*` and `+`: the operand is tried again while it matches. Where what follows matches as well, a
place to go back to is pushed and the run goes on behind that. -/
def repeatRound (cur : FklRegexObj) (s : MatchVars) : ReRun MatchVars :=
  let matchcnt := if s.evalres then s.stp.matchcnt + 1 else s.stp.matchcnt
  let s := { s with stp := { s.stp with matchcnt } }
  if s.evalres ∧ s.stp.st < text.length then do
    let cur0 ← access code.objs[s.stp.offset + 1]?
    let s := s.goto cur.trueoffset
    if endsOperand cur0.type = false ∧ s.stp.st0 ≠ s.stp.st then do
      let c ← access text[s.stp.st]?
      let tr ← access (matchone code cur0 c)
      if tr = 0 then done s
      else
        let s := { s with stp := { s.stp with st0 := s.stp.st } }.push
        done { s with stp :=
          { s.stp with st0 := text.length + 1, offset := cur0.trueoffset, st := s.stp.st + 1 } }
    else done s
  else
    let evalres := cur.type = .star || 0 < s.stp.matchcnt
    let offset := if evalres then s.stp.offset + 1 else cur.falseoffset
    done { s with evalres, stp := { s.stp with offset, matchcnt := 0 } }

/-- What takes one character. -/
def charRound (cur : FklRegexObj) (s : MatchVars) : ReRun MatchVars :=
  if s.stp.st = text.length then
    let sawTruncation := s.sawTruncation || 0 < text.length
    done { s.goto cur.falseoffset with sawTruncation, evalres := false }
  else do
    let c ← access text[s.stp.st]?
    let res ← access (matchone code cur c)
    if res = 0 then done { s.goto cur.falseoffset with evalres := false }
    else
      let stp := { s.stp with offset := cur.trueoffset, st := s.stp.st + 1 }
      done { s with stp, evalres := true }

/-- The loop's `switch`. -/
def matchRound (s : MatchVars) : ReRun MatchRound := do
  let cur ← access code.objs[s.stp.offset]?
  match cur.type with
  | .atBegin => done (.next (s.goto cur.trueoffset))
  | .unused | .atEnd =>
    if s.evalres = false ∧ 0 < s.sp then done (.next s.pop)
    else
      let est := s.stp.st
      let accepted := s.evalres && (cur.type = .unused || est = text.length)
      let lastIsTrue := s.sawTruncation || (s.evalres && est = text.length)
      done (.returned (if accepted then est else text.length + 1) lastIsTrue)
  | .questionmark =>
    done (.next { s with
      evalres := true, stp := { s.stp with offset := cur.trueoffset, matchcnt := 0 } })
  | .star | .plus => do
    let s ← repeatRound code text cur s
    done (.next s)
  | .groupstart => done (.next { s.goto (s.stp.offset + 1) with brtxcoff := s.stp.st })
  | .groupend | .branch =>
    if s.evalres = false then
      done (.next { s with stp := { s.stp with offset := cur.falseoffset, st := s.brtxcoff } })
    else done (.next { s.goto cur.trueoffset with brtxcoff := 0 })
  | _ => do
    let s ← charRound code text cur s
    done (.next s)

def matchLoop : Nat → MatchVars → ReRun (Nat × Bool)
  | 0, _ => outOfFuel
  | n + 1, s => do
    match ← matchRound code text s with
    | .next s => matchLoop n s
    | .returned len lastIsTrue => done (len, lastIsTrue)

/-- How many bytes of the text match, or more than there are, and what is stored to
`last_is_true`. -/
def matchpattern (fuel : Nat) : ReRun (Nat × Bool) :=
  matchLoop code text fuel (.start text.length)

/-! Runs. -/

def nextVars (s : MatchVars) : Option MatchVars :=
  match matchRound code text s with
  | .done (.next t) => some t
  | _ => none

/-- The variables before round `n`. -/
def varsAt (n : Nat) : Option MatchVars := iterAt (nextVars code text) (.start text.length) n

/-- The matcher returns, and its stack stays within what is allocated for it: `pstsize` records, or
32 if that is more. -/
def MatchEnds : Prop :=
  (∃ fuel res, matchpattern code text fuel = .done res) ∧
    ∀ n s, varsAt code text n = some s → s.sp < code.pstsize

/-- A repetition goes back to its operand; a `.` that is not repeated goes back to the first object
at the end of the text. -/
def GoesBack (s : MatchVars) : Prop :=
  ∃ cur, code.objs[s.stp.offset]? = some cur ∧
    (isRepeat cur.type = true ∧ s.evalres = true ∧ s.stp.st < text.length ∨
      cur.type = .dot ∧ s.stp.st = text.length ∧ cur.falseoffset = 0)

def Pushes (s : MatchVars) : Prop := ∃ t, nextVars code text s = some t ∧ s.sp < t.sp

/-- From round `i` to round `j` the stack has `n` records at least. -/
def StaysAbove (n i j : Nat) : Prop :=
  ∀ k s, i ≤ k → k ≤ j → varsAt code text k = some s → n ≤ s.sp

/-- The bytes of a class that is tested are all there. -/
def ReadsClasses (s : MatchVars) : Prop :=
  ∀ cur o c, code.objs[s.stp.offset]? = some cur →
    (if isRepeat cur.type then code.objs[s.stp.offset + 1]? = some o else o = cur) →
      text[s.stp.st]? = some c → matchone code o c ≠ none

/-- On one level of the stack no object goes back twice at one place of the text; no repetition
pushes a record while it has another on the stack; and the bytes of the classes are there. -/
structure OrderlyRun : Prop where
  rounds : ∀ i j s t, i < j → varsAt code text i = some s → varsAt code text j = some t →
    GoesBack code text s → GoesBack code text t → s.stp.offset = t.stp.offset → s.sp = t.sp →
      StaysAbove code text s.sp i j → s.stp.st ≠ t.stp.st
  records : ∀ i j s t, i < j → varsAt code text i = some s → varsAt code text j = some t →
    Pushes code text s → Pushes code text t → s.stp.offset = t.stp.offset →
      ¬StaysAbove code text (s.sp + 1) (i + 1) j
  classes : ∀ i s, varsAt code text i = some s → ReadsClasses code text s

end

/-! Rounds. -/

/-- What is compiled as object `i` of `n`: the offsets lead on, but for those of a repetition and of
what has no other way to go at the end of the text. -/
structure ObjLinked (n : Nat) (reps : Finset Nat) (i : Nat) (o : FklRegexObj) : Prop where
  trueoffset : o.trueoffset ≤ n
  trueOn : isRepeat o.type = false → i < o.trueoffset
  falseoffset : i < o.falseoffset ∧ o.falseoffset ≤ n ∨
    (o.type = .dot ∨ o.type = .atEnd) ∧ o.falseoffset = 0
  mem : isRepeat o.type = true → i ∈ reps

/-- There are `n` objects and one for the end; the repetitions are among `reps`. -/
structure Linked (code : FklRegexCode) (n : Nat) (reps : Finset Nat) : Prop where
  length : code.objs.length = n + 1
  obj : ∀ i o, code.objs[i]? = some o → o.type = .unused ∨ i < n ∧ ObjLinked n reps i o
  card : reps.card < code.pstsize

/-- The places of the machine are within the code and the text. -/
structure Placed (n len : Nat) (s : MatchVars) : Prop where
  slots : ∀ r ∈ s.stp :: s.under, r.offset ≤ n ∧ r.st ≤ len
  brtxcoff : s.brtxcoff ≤ len

/-- What a round can do to the stack. -/
inductive Moves (code : FklRegexCode) (text : List UInt8) (s t : MatchVars) : Prop
  | on (h : t.under = s.under) (hlt : s.stp.offset < t.stp.offset)
  | back (h : t.under = s.under) (hback : GoesBack code text s)
  | push (r : ReMatchState) (h : t.under = r :: s.under) (hback : GoesBack code text s)
      (hrep : ∃ cur, code.objs[s.stp.offset]? = some cur ∧ isRepeat cur.type = true)
  | pop (h : s.under = t.stp :: t.under)

section

variable {code : FklRegexCode} {text : List UInt8} {n : Nat} {reps : Finset Nat}
  {s t : MatchVars} {cur : FklRegexObj}

theorem Placed.stp {len : Nat} (h : Placed n len s) : s.stp.offset ≤ n ∧ s.stp.st ≤ len :=
  h.slots s.stp List.mem_cons_self

theorem Placed.same {len : Nat} (h : Placed n len s) (hunder : t.under = s.under)
    (hoffset : t.stp.offset ≤ n) (hst : t.stp.st ≤ len) (hbr : t.brtxcoff ≤ len) :
    Placed n len t := by
  refine ⟨fun r hr => ?_, hbr⟩
  rcases List.mem_cons.mp hr with rfl | hr
  · exact ⟨hoffset, hst⟩
  · exact h.slots r (List.mem_cons_of_mem _ (hunder ▸ hr))

theorem Linked.getElem (hl : Linked code n reps) {i : Nat} (hi : i ≤ n) :
    ∃ o, code.objs[i]? = some o := by
  have hlt : i < code.objs.length := hl.length ▸ Nat.lt_succ_of_le hi
  exact ⟨code.objs[i], List.getElem?_eq_getElem hlt⟩

theorem Linked.repeated (hl : Linked code n reps) (hcur : code.objs[s.stp.offset]? = some cur)
    (hrep : isRepeat cur.type = true) :
    s.stp.offset < n ∧ ObjLinked n reps s.stp.offset cur := by
  rcases hl.obj _ _ hcur with hunused | hlinked
  · rw [hunused] at hrep
    cases hrep
  · exact hlinked

/-- Where a repetition does not go back its `falseoffset` leads on. -/
theorem ObjLinked.falseOn {i : Nat} (h : ObjLinked n reps i cur)
    (hdot : cur.type ≠ .dot) (hend : cur.type ≠ .atEnd) :
    i < cur.falseoffset ∧ cur.falseoffset ≤ n := by
  rcases h.falseoffset with hon | ⟨hor, -⟩
  · exact hon
  · rcases hor with heq | heq
    · exact absurd heq hdot
    · exact absurd heq hend

theorem repeat_not {type : FklRegexType} (h : isRepeat type = true) :
    type ≠ .dot ∧ type ≠ .atEnd := by
  constructor <;> rintro rfl <;> cases h

theorem repeatRound_spec (hl : Linked code n reps) (hs : Placed n text.length s)
    (hread : ReadsClasses code text s) (hcur : code.objs[s.stp.offset]? = some cur)
    (hrep : isRepeat cur.type = true) :
    ∃ t, repeatRound code text cur s = done t ∧ Moves code text s t ∧ Placed n text.length t := by
  obtain ⟨hlt, hlinked⟩ := hl.repeated hcur hrep
  obtain ⟨hoffset, hst⟩ := hs.stp
  by_cases hagain : s.evalres = true ∧ s.stp.st < text.length
  · have hback : GoesBack code text s := ⟨cur, hcur, Or.inl ⟨hrep, hagain⟩⟩
    obtain ⟨cur0, hcur0⟩ := hl.getElem (i := s.stp.offset + 1) hlt
    have hchar : text[s.stp.st]? = some text[s.stp.st] := List.getElem?_eq_getElem hagain.2
    obtain ⟨tr, htr⟩ := Option.ne_none_iff_exists'.mp
      (hread cur cur0 _ hcur (by rw [if_pos hrep]; exact hcur0) hchar)
    have hstay : ∀ t : MatchVars, t.under = s.under → t.stp.offset = cur.trueoffset →
        t.stp.st = s.stp.st → t.brtxcoff = s.brtxcoff →
          Moves code text s t ∧ Placed n text.length t := by
      intro t hunder hto hat hbr
      refine ⟨.back hunder hback, hs.same hunder ?_ (hat ▸ hst) (hbr ▸ hs.brtxcoff)⟩
      exact hto ▸ hlinked.trueoffset
    unfold repeatRound
    simp only [hagain, and_self, if_true, hcur0, access, done_bind, MatchVars.goto, hchar, htr]
    split_ifs with htest hzero
    · exact ⟨_, rfl, hstay _ rfl rfl rfl rfl⟩
    · refine ⟨_, rfl, .push _ rfl hback ⟨cur, hcur, hrep⟩, fun r hr => ?_, hs.brtxcoff⟩
      rcases List.mem_cons.mp hr with rfl | hr
      · refine ⟨?_, hagain.2⟩
        rcases hl.obj _ _ hcur0 with hunused | ⟨-, hlinked0⟩
        · rw [hunused] at htest
          exact absurd htest.1 (by decide)
        · exact hlinked0.trueoffset
      · rcases List.mem_cons.mp hr with rfl | hr
        · exact ⟨hlinked.trueoffset, hst⟩
        · exact hs.slots r (List.mem_cons_of_mem _ hr)
    · exact ⟨_, rfl, hstay _ rfl rfl rfl rfl⟩
  · have hfalse := hlinked.falseOn (repeat_not hrep).1 (repeat_not hrep).2
    unfold repeatRound
    rw [if_neg (by exact hagain)]
    refine ⟨_, rfl, .on rfl ?_, hs.same rfl ?_ hst hs.brtxcoff⟩
    · dsimp only
      split_ifs <;> omega
    · dsimp only
      split_ifs <;> omega

theorem charRound_spec (hs : Placed n text.length s) (hread : ReadsClasses code text s)
    (hcur : code.objs[s.stp.offset]? = some cur)
    (hlinked : ObjLinked n reps s.stp.offset cur) (hrep : isRepeat cur.type = false)
    (hend : cur.type ≠ .atEnd) :
    ∃ t, charRound code text cur s = done t ∧ Moves code text s t ∧ Placed n text.length t := by
  obtain ⟨hoffset, hst⟩ := hs.stp
  have hfail : ∀ t : MatchVars, t.under = s.under →
      t.stp = { s.stp with offset := cur.falseoffset } → t.brtxcoff = s.brtxcoff →
        cur.type ≠ .dot ∨ s.stp.st = text.length →
          Moves code text s t ∧ Placed n text.length t := by
    intro t hunder hstp hbr hcase
    have hle : cur.falseoffset ≤ n := by
      rcases hlinked.falseoffset with hon | hzero
      · exact hon.2
      · omega
    refine ⟨?_, hs.same hunder (by rw [hstp]; exact hle) (by rw [hstp]; exact hst)
      (hbr ▸ hs.brtxcoff)⟩
    rcases hlinked.falseoffset with hon | ⟨hor, hzero⟩
    · exact .on hunder (by rw [hstp]; exact hon.1)
    · have hdot := hor.resolve_right hend
      exact .back hunder ⟨cur, hcur, Or.inr ⟨hdot, hcase.resolve_left (not_not.mpr hdot), hzero⟩⟩
  unfold charRound
  by_cases hlast : s.stp.st = text.length
  · rw [if_pos hlast]
    exact ⟨_, rfl, hfail _ rfl rfl rfl (Or.inr hlast)⟩
  · have hlt : s.stp.st < text.length := Nat.lt_of_le_of_ne hst hlast
    have hchar : text[s.stp.st]? = some text[s.stp.st] := List.getElem?_eq_getElem hlt
    obtain ⟨res, hres⟩ := Option.ne_none_iff_exists'.mp
      (hread cur cur _ hcur (by rw [if_neg (by rw [hrep]; decide)]) hchar)
    rw [if_neg hlast]
    simp only [hchar, access, done_bind, hres]
    split_ifs with hzero
    · refine ⟨_, rfl, hfail _ rfl rfl rfl (Or.inl fun hdot => ?_)⟩
      -- a `.` matches every character
      simp only [matchone, hdot] at hres
      rw [← Option.some.inj hres] at hzero
      exact absurd hzero (by decide)
    · exact ⟨_, rfl, .on rfl (hlinked.trueOn hrep),
        hs.same rfl hlinked.trueoffset (show s.stp.st + 1 ≤ text.length by omega) hs.brtxcoff⟩

theorem pop_spec (hs : Placed n text.length s) (hsp : 0 < s.sp) :
    Moves code text s s.pop ∧ Placed n text.length s.pop := by
  obtain ⟨r, under, hunder⟩ := List.exists_cons_of_length_pos hsp
  unfold MatchVars.pop
  rw [hunder]
  exact ⟨.pop hunder, fun r' hr' => hs.slots r' (List.mem_cons_of_mem _ (hunder ▸ hr')),
    hs.brtxcoff⟩

/-- A round is played to its end, and does what it may. -/
def Played (code : FklRegexCode) (text : List UInt8) (n : Nat) (s : MatchVars)
    (run : ReRun MatchRound) : Prop :=
  ∃ r, run = done r ∧ ∀ t, r = .next t → Moves code text s t ∧ Placed n text.length t

theorem played_next (h : Moves code text s t ∧ Placed n text.length t) :
    Played code text n s (done (.next t)) := by
  refine ⟨_, rfl, ?_⟩
  rintro u ⟨⟩
  exact h

/-- A round that leads on. -/
theorem played_on (hs : Placed n text.length s) (hunder : t.under = s.under)
    (hlt : s.stp.offset < t.stp.offset) (hle : t.stp.offset ≤ n) (hst : t.stp.st ≤ text.length)
    (hbr : t.brtxcoff ≤ text.length) : Played code text n s (done (.next t)) :=
  played_next ⟨.on hunder hlt, hs.same hunder hle hst hbr⟩

theorem played_stop (hs : Placed n text.length s) {r : MatchRound} (hr : ∀ t, r ≠ .next t) :
    Played code text n s
      (if s.evalres = false ∧ 0 < s.sp then done (.next s.pop) else done r) := by
  split_ifs with hpop
  · exact played_next (pop_spec hs hpop.2)
  · exact ⟨r, rfl, fun t ht => absurd ht (hr t)⟩

theorem played_branch (hs : Placed n text.length s) (hobj : ObjLinked n reps s.stp.offset cur)
    (htype : cur.type = .groupend ∨ cur.type = .branch) :
    Played code text n s
      (if s.evalres = false then
        done (.next { s with stp := { s.stp with offset := cur.falseoffset, st := s.brtxcoff } })
      else done (.next { s.goto cur.trueoffset with brtxcoff := 0 })) := by
  have hother : cur.type ≠ .dot ∧ cur.type ≠ .atEnd ∧ isRepeat cur.type = false := by
    rcases htype with h | h <;> rw [h] <;> decide
  obtain ⟨hfalse, hle⟩ := hobj.falseOn hother.1 hother.2.1
  split_ifs
  · exact played_on hs rfl hfalse hle hs.brtxcoff hs.brtxcoff
  · exact played_on hs rfl (hobj.trueOn hother.2.2) hobj.trueoffset hs.stp.2 (Nat.zero_le _)

theorem played_repeat (hl : Linked code n reps) (hs : Placed n text.length s)
    (hread : ReadsClasses code text s) (hcur : code.objs[s.stp.offset]? = some cur)
    (hrep : isRepeat cur.type = true) :
    Played code text n s (repeatRound code text cur s >>= fun t => done (.next t)) := by
  obtain ⟨t, hrun, ht⟩ := repeatRound_spec hl hs hread hcur hrep
  rw [hrun]
  exact played_next ht

theorem played_matchRound (hl : Linked code n reps) (hs : Placed n text.length s)
    (hread : ReadsClasses code text s) : Played code text n s (matchRound code text s) := by
  obtain ⟨hoffset, hst⟩ := hs.stp
  obtain ⟨cur, hcur⟩ := hl.getElem hoffset
  have hlinked : cur.type ≠ .unused → s.stp.offset < n ∧ ObjLinked n reps s.stp.offset cur :=
    (hl.obj _ _ hcur).resolve_left
  have hplain : ∀ t : MatchVars, t.under = s.under → t.stp.offset = cur.trueoffset →
      t.stp.st = s.stp.st → t.brtxcoff = s.brtxcoff → isRepeat cur.type = false →
        cur.type ≠ .unused → Played code text n s (done (.next t)) := by
    intro t hunder hto hat hbr hrep hused
    have hobj := (hlinked hused).2
    exact played_on hs hunder (hto ▸ hobj.trueOn hrep) (hto ▸ hobj.trueoffset) (hat ▸ hst)
      (hbr ▸ hs.brtxcoff)
  unfold matchRound
  simp only [hcur, access, done_bind]
  split
  · next htype => exact hplain _ rfl rfl rfl rfl (by rw [htype]; rfl) (by rw [htype]; decide)
  · exact played_stop hs nofun
  · exact played_stop hs nofun
  · next htype => exact hplain _ rfl rfl rfl rfl (by rw [htype]; rfl) (by rw [htype]; decide)
  · next htype => exact played_repeat hl hs hread hcur (by rw [htype]; rfl)
  · next htype => exact played_repeat hl hs hread hcur (by rw [htype]; rfl)
  · next htype =>
    have hlt := (hlinked (by rw [htype]; decide)).1
    exact played_on hs rfl (Nat.lt_succ_self _) hlt hst hst
  · next htype => exact played_branch hs (hlinked (by rw [htype]; decide)).2 (Or.inl htype)
  · next htype => exact played_branch hs (hlinked (by rw [htype]; decide)).2 (Or.inr htype)
  · next hbegin hunused hend hquestion hstar hplus hstart hgroupend hbar =>
    have hno : cur.type ≠ .star ∧ cur.type ≠ .plus := ⟨hstar, hplus⟩
    have hrep : isRepeat cur.type = false := by simp [isRepeat, hno]
    obtain ⟨t, hrun, ht⟩ := charRound_spec hs hread hcur (hlinked hunused).2 hrep hend
    rw [hrun]
    exact played_next ht

/-! Runs. -/

theorem next_of_nextVars (h : nextVars code text s = some t) :
    matchRound code text s = done (.next t) := by
  unfold nextVars at h
  split at h
  · next u hrun => rw [hrun, Option.some.inj h]
  · cases h

variable {i j k : Nat}

theorem varsAt_succ (h : varsAt code text i = some s) :
    varsAt code text (i + 1) = nextVars code text s := by
  rw [varsAt, iterAt, show iterAt _ _ i = some s from h, Option.bind_some]

theorem exists_varsAt_of_le (h : varsAt code text j = some t) (hij : i ≤ j) :
    ∃ s, varsAt code text i = some s :=
  Option.ne_none_iff_exists'.mp fun hnone => by
    have := iterAt_none hnone hij
    rw [show iterAt _ _ j = some t from h] at this
    cases this

theorem placed_varsAt (hl : Linked code n reps) (hrun : OrderlyRun code text)
    (h : varsAt code text i = some s) : Placed n text.length s := by
  induction i generalizing s with
  | zero =>
    obtain rfl : MatchVars.start text.length = s := Option.some.inj h
    refine ⟨fun r hr => ?_, Nat.zero_le _⟩
    obtain rfl := List.mem_singleton.mp hr
    exact ⟨Nat.zero_le _, Nat.zero_le _⟩
  | succ i ih =>
    obtain ⟨u, hu⟩ := exists_varsAt_of_le h (Nat.le_succ i)
    rw [varsAt_succ hu] at h
    obtain ⟨r, hr, hmoves⟩ := played_matchRound hl (ih hu) (hrun.classes i u hu)
    have hround := next_of_nextVars h
    rw [hr] at hround
    exact (hmoves s (ReRun.done.inj hround)).2

theorem moves_varsAt (hl : Linked code n reps) (hrun : OrderlyRun code text)
    (hs : varsAt code text i = some s) (ht : varsAt code text (i + 1) = some t) :
    Moves code text s t := by
  rw [varsAt_succ hs] at ht
  obtain ⟨r, hr, hmoves⟩ :=
    played_matchRound hl (placed_varsAt hl hrun hs) (hrun.classes i s hs)
  have hround := next_of_nextVars ht
  rw [hr] at hround
  exact (hmoves t (ReRun.done.inj hround)).1

/-- How high the stack is before round `i`, if there is one. -/
def spAt (code : FklRegexCode) (text : List UInt8) (i : Nat) : Nat :=
  (varsAt code text i).elim 0 MatchVars.sp

theorem spAt_eq (h : varsAt code text i = some s) : spAt code text i = s.sp := by
  rw [spAt, h]
  rfl

theorem Moves.sp_le (h : Moves code text s t) : t.sp ≤ s.sp + 1 := by
  unfold MatchVars.sp
  cases h with
  | on h => rw [h]; omega
  | back h => rw [h]; omega
  | push r h => rw [h]; exact le_rfl
  | pop h => rw [h, List.length_cons]; omega

/-- Only a repetition makes the stack higher. -/
theorem Moves.rep_of_lt (h : Moves code text s t) (hlt : s.sp < t.sp) :
    ∃ cur, code.objs[s.stp.offset]? = some cur ∧ isRepeat cur.type = true := by
  unfold MatchVars.sp at hlt
  cases h with
  | on h => rw [h] at hlt; omega
  | back h => rw [h] at hlt; omega
  | push r h hback hrep => exact hrep
  | pop h => rw [h, List.length_cons] at hlt; omega

theorem spAt_succ_le (hl : Linked code n reps) (hrun : OrderlyRun code text) (i : Nat) :
    spAt code text (i + 1) ≤ spAt code text i + 1 := by
  cases ht : varsAt code text (i + 1) with
  | none => simp [spAt, ht]
  | some t =>
    obtain ⟨s, hs⟩ := exists_varsAt_of_le ht (Nat.le_succ i)
    rw [spAt_eq ht, spAt_eq hs]
    exact (moves_varsAt hl hrun hs ht).sp_le

/-- The stack has a record for each repetition at most. -/
theorem sp_le_card (hl : Linked code n reps) (hrun : OrderlyRun code text)
    (h : varsAt code text k = some s) : s.sp ≤ reps.card := by
  have hvars : ∀ i ≤ k, ∃ t, varsAt code text i = some t := fun i hi => exists_varsAt_of_le h hi
  have hpush : ∀ i < k, spAt code text i < spAt code text (i + 1) →
      ∀ t, varsAt code text i = some t → t.stp.offset ∈ reps ∧ Pushes code text t := by
    intro i hi hlt t ht
    obtain ⟨u, hu⟩ := hvars (i + 1) hi
    rw [spAt_eq ht, spAt_eq hu] at hlt
    obtain ⟨cur, hcur, hrep⟩ := (moves_varsAt hl hrun ht hu).rep_of_lt hlt
    exact ⟨(hl.repeated hcur hrep).2.mem hrep, u, varsAt_succ ht ▸ hu, hlt⟩
  rw [← spAt_eq h]
  refine height_le_card rfl (spAt_succ_le hl hrun)
    (fun i => (varsAt code text i).elim 0 fun s => s.stp.offset) (fun i hi hlt => ?_)
    fun i j hij hj hlti hltj hlabel => ?_
  · obtain ⟨t, ht⟩ := hvars i hi.le
    simp only [ht, Option.elim_some]
    exact (hpush i hi hlt t ht).1
  · obtain ⟨t, ht⟩ := hvars i (by omega)
    obtain ⟨u, hu⟩ := hvars j hj.le
    simp only [ht, hu, Option.elim_some] at hlabel
    by_contra hnot
    refine hrun.records i j t u hij ht hu (hpush i (by omega) hlti t ht).2 (hpush j hj hltj u hu).2
      hlabel fun m v him hmj hv => ?_
    have hhigh : spAt code text i < spAt code text m :=
      not_le.mp fun hle => hnot ⟨m, him, hmj, hle⟩
    rwa [spAt_eq ht, spAt_eq hv] at hhigh

/-- A run that has not come to its end and never gets below its stack goes back once more. -/
theorem exists_goesBack (hl : Linked code n reps) (hrun : OrderlyRun code text)
    (hall : ∀ i, ∃ s, varsAt code text i = some s) {m : Nat}
    (hlow : ∀ i, m ≤ i → spAt code text m ≤ spAt code text i) :
    ∃ i s, m ≤ i ∧ varsAt code text i = some s ∧ s.sp = spAt code text m ∧
      GoesBack code text s := by
  suffices h : ∀ d i s, m ≤ i → varsAt code text i = some s → s.sp = spAt code text m →
      n - s.stp.offset = d →
        ∃ i s, m ≤ i ∧ varsAt code text i = some s ∧ s.sp = spAt code text m ∧
          GoesBack code text s by
    obtain ⟨s, hs⟩ := hall m
    exact h _ m s le_rfl hs (spAt_eq hs).symm rfl
  intro d
  induction d using Nat.strong_induction_on with
  | _ d ih =>
    intro i s hi hs hsp hd
    obtain ⟨t, ht⟩ := hall (i + 1)
    have hle := (placed_varsAt hl hrun ht).stp.1
    cases moves_varsAt hl hrun hs ht with
    | on h hlt =>
      refine ih (n - t.stp.offset) (by omega) (i + 1) t (by omega) ht ?_ rfl
      rw [← hsp, MatchVars.sp, MatchVars.sp, h]
    | back h hback => exact ⟨i, s, hi, hs, hsp, hback⟩
    | push r h hback => exact ⟨i, s, hi, hs, hsp, hback⟩
    | pop h =>
      have hlower := hlow (i + 1) (by omega)
      rw [spAt_eq ht, ← hsp, MatchVars.sp, MatchVars.sp, h, List.length_cons] at hlower
      omega

/-- A run comes to its end: on its lowest level some object would go back twice at one place. -/
theorem exists_varsAt_none (hl : Linked code n reps) (hrun : OrderlyRun code text) :
    ∃ i, varsAt code text i = none := by
  by_contra hnot
  have hall : ∀ i, ∃ s, varsAt code text i = some s := fun i =>
    Option.ne_none_iff_exists'.mp fun hnone => hnot ⟨i, hnone⟩
  choose vars hvars using hall
  have hsp : ∀ i, spAt code text i = (vars i).sp := fun i => spAt_eq (hvars i)
  -- the places where the run goes back and never gets lower again
  have hinf : {i | GoesBack code text (vars i) ∧
      ∀ k, i ≤ k → spAt code text i ≤ spAt code text k}.Infinite := by
    refine Set.infinite_of_forall_exists_gt fun i => ?_
    obtain ⟨m, hm, hlow⟩ := exists_lowest_from (spAt code text) (i + 1)
    obtain ⟨k, s, hk, hs, hsame, hback⟩ :=
      exists_goesBack hl hrun (fun i => ⟨vars i, hvars i⟩) hlow
    obtain rfl : vars k = s := Option.some.inj ((hvars k).symm.trans hs)
    refine ⟨k, ⟨hback, fun l hl => ?_⟩, by omega⟩
    rw [hsp k, hsame]
    exact hlow l (by omega)
  let seen : Nat → Nat × Nat × Nat := fun i =>
    ((vars i).sp, (vars i).stp.offset, (vars i).stp.st)
  have hfin : (Set.Iic reps.card ×ˢ Set.Iic n ×ˢ Set.Iic text.length).Finite :=
    (Set.finite_Iic _).prod ((Set.finite_Iic _).prod (Set.finite_Iic _))
  have hmem : ∀ i, seen i ∈ Set.Iic reps.card ×ˢ Set.Iic n ×ˢ Set.Iic text.length :=
    fun i => ⟨sp_le_card hl hrun (hvars i), (placed_varsAt hl hrun (hvars i)).stp⟩
  obtain ⟨i, ⟨hbacki, hlowi⟩, j, ⟨hbackj, hlowj⟩, hne, hseen⟩ :=
    hinf.exists_ne_map_eq_of_mapsTo (fun i _ => hmem i) hfin
  have hapart : ∀ i j, i < j → GoesBack code text (vars i) → GoesBack code text (vars j) →
      (∀ k, i ≤ k → spAt code text i ≤ spAt code text k) → seen i ≠ seen j := by
    intro i j hij hi hj hlow heq
    simp only [seen, Prod.mk.injEq] at heq
    refine hrun.rounds i j _ _ hij (hvars i) (hvars j) hi hj heq.2.1 heq.1
      (fun k s hik hkj hs => ?_) heq.2.2
    rw [← hsp i, ← spAt_eq hs]
    exact hlow k hik
  rcases lt_or_gt_of_ne hne with hlt | hlt
  · exact hapart i j hlt hbacki hbackj hlowi hseen
  · exact hapart j i hlt hbackj hbacki hlowj hseen.symm

theorem matchLoop_add (h : iterAt (nextVars code text) s k = some t) (fuel : Nat) :
    matchLoop code text (fuel + k) s = matchLoop code text fuel t := by
  induction k generalizing t fuel with
  | zero => rw [Option.some.inj h]; rfl
  | succ k ih =>
    obtain ⟨u, hu, hnext⟩ := Option.bind_eq_some_iff.mp h
    rw [← Nat.add_assoc, Nat.add_right_comm, ih hu, matchLoop, next_of_nextVars hnext]
    rfl

/-- An orderly run of a compiled pattern ends, and its stack is large enough. -/
theorem matchEnds_of_linked (hl : Linked code n reps) (hrun : OrderlyRun code text) :
    MatchEnds code text := by
  refine ⟨?_, fun k s hs => (sp_le_card hl hrun hs).trans_lt hl.card⟩
  classical
  have hend := exists_varsAt_none hl hrun
  have hfirst : Nat.find hend ≠ 0 := fun hzero => by
    have := Nat.find_spec hend
    rw [hzero] at this
    cases this
  obtain ⟨k, hk⟩ := Nat.exists_eq_add_one_of_ne_zero hfirst
  obtain ⟨s, hs⟩ : ∃ s, varsAt code text k = some s :=
    Option.ne_none_iff_exists'.mp (Nat.find_min hend (by omega))
  have hnone : nextVars code text s = none := by
    rw [← varsAt_succ hs, ← hk]
    exact Nat.find_spec hend
  obtain ⟨r, hr, -⟩ := played_matchRound hl (placed_varsAt hl hrun hs) (hrun.classes k s hs)
  cases r with
  | next t =>
    rw [nextVars, hr] at hnone
    cases hnone
  | returned len last =>
    refine ⟨1 + k, (len, last), ?_⟩
    rw [matchpattern, matchLoop_add hs, matchLoop, hr]
    rfl

end

end FakeLisp.Regex
