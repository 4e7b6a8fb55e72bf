import FakeLisp.FollowChain
import FakeLisp.JmpTarget

/-! Calls in tail position are marked. The scan skips the bodies of nested procedures, and behind a
call it follows the jumps. -/

namespace FakeLisp

/-- The words from index `i` on. -/
def insFrom (bc : List FklIns) (i : Nat) : Code := fun k => (bc[i + k]?).getD 0

/-- The loop of `skipToCall`. -/
def skipLoop (bc : List FklIns) (index : Nat) : Nat → Nat → Option Nat
  | 0, _ => none
  | fuel + 1, r =>
    match bc[index + r]? with
    | none => some r
    | some ins =>
      if ins.op = some .call then some r
      else if fklIsMakeProcIns ins then do
        let (l, arg) ← fklGetInsOpArg (insFrom bc (index + r)) ⟨0, 0, 0⟩
        skipLoop bc index fuel (r + (arg.ux + l))
      else skipLoop bc index fuel (r + 1)

/-- Every round of the loop leaves a word behind. -/
def skipToCall (index : Nat) (bc : List FklIns) : Option Nat :=
  skipLoop bc index (bc.length + 1) 0

def getNext (ins : Code) : Option Int :=
  if fklIsJmpIns (ins 0) then do
    let (l, arg) ← fklGetInsOpArg ins ⟨0, 0, 0⟩
    some (arg.ix + l)
  else some 1

/-- The word at an index; one below 0 is a large unsigned index, and behind the end. -/
def wordAt (bc : List FklIns) (i : Int) : Option FklIns := if 0 ≤ i then bc[i.toNat]? else none

/-- The loop of `is_last_expression`. -/
def isLastLoop (bc : List FklIns) : Nat → Int → Option Bool
  | 0, _ => none
  | fuel + 1, i =>
    match wordAt bc i with
    | none => some true
    | some ins =>
      if ins.op = some .ret then some true
      else if ins.op ≠ some .jmp ∧ ins.op ≠ some .closeRef then some false
      else do
        let next ← getNext (insFrom bc i.toNat)
        isLastLoop bc fuel (i + next)

/-- The loop of `fklScanAndSetTailCall`; `steps` bounds each test for a last expression. -/
def scanLoop (steps : Nat) : Nat → List FklIns → Nat → Option (List FklIns)
  | 0, _, _ => none
  | fuel + 1, bc, i =>
    match bc[i]? with
    | none => some bc
    | some ins => do
      let last ← isLastLoop bc steps ((i + 1 : Nat) : Int)
      let bc := if last then bc.set i (ins.setOp .tailCall) else bc
      let r ← skipToCall (i + 1) bc
      scanLoop steps fuel bc (i + 1 + r)

def fklScanAndSetTailCall (steps fuel : Nat) (bc : List FklIns) : Option (List FklIns) := do
  let i ← skipToCall 0 bc
  scanLoop steps fuel bc i

/-! What is to be marked. -/

/-- The next word of the procedure's own code: behind the body where a procedure is made. -/
def ownNext (bc : List FklIns) (i : Nat) : Option Nat :=
  (bc[i]?).map fun ins => if fklIsMakeProcIns ins then i + 1 + ins.uC else i + 1

def Own (bc : List FklIns) (i : Nat) : Prop := ∃ k, iterAt (ownNext bc) 0 k = some i

def OwnCall (bc : List FklIns) (i : Nat) : Prop :=
  Own bc i ∧ ∃ ins, bc[i]? = some ins ∧ ins.op = some .call

/-- Where a jump or the closing of a reference goes on. -/
def follow (bc : List FklIns) (i : Int) : Option Int := do
  let ins ← wordAt bc i
  if ins.op = some .jmp then some (i + (ins.sC + 1))
  else if ins.op = some .closeRef then some (i + 1)
  else none

/-- The end of the code or a return. -/
def LeavesProc (bc : List FklIns) (i : Int) : Prop :=
  ∀ ins, wordAt bc i = some ins → ins.op = some .ret

instance (bc : List FklIns) (i : Int) : Decidable (LeavesProc bc i) := by
  unfold LeavesProc
  cases wordAt bc i with
  | none => exact isTrue fun _ h => by cases h
  | some ins =>
    exact decidable_of_iff (ins.op = some .ret) ⟨fun h _ hi => Option.some.inj hi ▸ h, fun h => h _ rfl⟩

/-- What is behind the call leads out of the procedure. -/
def TailCallAt (bc : List FklIns) (i : Nat) : Prop :=
  OwnCall bc i ∧ ∃ n e, EndsIn (follow bc) ((i + 1 : Nat) : Int) n e ∧ LeavesProc bc e

/-- Exactly the calls in tail position are marked, and nothing else is changed. -/
structure MarksTailCalls (bc bc' : List FklIns) : Prop where
  length : bc'.length = bc.length
  marked : ∀ i ins, bc[i]? = some ins → TailCallAt bc i → bc'[i]? = some (ins.setOp .tailCall)
  kept : ∀ i, ¬ TailCallAt bc i → bc'[i]? = bc[i]?

/-- No call of the procedure's own code is followed by jumps that go round in a circle. -/
def CircleFree (bc : List FklIns) : Prop :=
  ∀ i, OwnCall bc i → ¬ RunsInCircle (follow bc) ((i + 1 : Nat) : Int)

variable {bc bc' : List FklIns} {i j n fuel steps : Nat} {p e : Int} {ins : FklIns}

theorem getNext_jmp {c : Code} (h : (c 0).op = some .jmp) : getNext c = some ((c 0).sC + 1) := by
  have hjmp : fklIsJmpIns (c 0) = true := decide_eq_true h
  rw [getNext, if_pos hjmp, fklGetInsOpArg_isC h rfl rfl]
  simp

theorem getNext_closeRef {c : Code} (h : (c 0).op = some .closeRef) : getNext c = some 1 := by
  have hjmp : ¬ fklIsJmpIns (c 0) = true := by simp [fklIsJmpIns, h]
  rw [getNext, if_neg hjmp]

theorem insFrom_zero (h : bc[i]? = some ins) : insFrom bc i 0 = ins := by
  simp [insFrom, h]

theorem insFrom_wordAt (h : wordAt bc p = some ins) : insFrom bc p.toNat 0 = ins :=
  insFrom_zero (Option.ite_none_right_eq_some.mp h).2

/-! The test for a last expression follows the jumps to their end. -/

theorem isLastLoop_succ : isLastLoop bc (fuel + 1) p =
    match follow bc p with
    | some q => isLastLoop bc fuel q
    | none => some (decide (LeavesProc bc p)) := by
  rw [isLastLoop, follow]
  cases hw : wordAt bc p with
  | none => simp [LeavesProc, hw]
  | some ins =>
    have hzero := insFrom_wordAt hw
    simp only [Option.bind_eq_bind, Option.bind_some]
    by_cases hret : ins.op = some .ret
    · simp [hret, LeavesProc, hw]
    · rw [if_neg hret]
      by_cases hjmp : ins.op = some .jmp
      · simp [hjmp, getNext_jmp (hzero.symm ▸ hjmp), hzero]
      · by_cases hclose : ins.op = some .closeRef
        · simp [hclose, getNext_closeRef (hzero.symm ▸ hclose)]
        · simp [hjmp, hclose, hret, LeavesProc, hw]

theorem isLastLoop_of_endsIn (h : EndsIn (follow bc) p n e) (hfuel : n < fuel) :
    isLastLoop bc fuel p = some (decide (LeavesProc bc e)) := by
  induction h generalizing fuel with
  | last v hv =>
    obtain ⟨fuel, rfl⟩ := Nat.exists_eq_succ_of_ne_zero (Nat.ne_of_gt hfuel)
    rw [isLastLoop_succ, hv]
  | next v d e n hv _ ih =>
    obtain ⟨fuel, rfl⟩ := Nat.exists_eq_succ_of_ne_zero (Nat.ne_of_gt (Nat.zero_lt_of_lt hfuel))
    rw [isLastLoop_succ, hv]
    exact ih (by omega)

theorem endsIn_of_isLastLoop {b : Bool} (h : isLastLoop bc fuel p = some b) :
    ∃ n e, EndsIn (follow bc) p n e ∧ n < fuel := by
  induction fuel generalizing p with
  | zero => cases h
  | succ fuel ih =>
    cases hp : follow bc p with
    | none => exact ⟨0, p, .last p hp, Nat.succ_pos fuel⟩
    | some q =>
      rw [isLastLoop_succ, hp] at h
      obtain ⟨n, e, hq, hn⟩ := ih h
      exact ⟨n + 1, e, .next p q e n hp hq, Nat.succ_lt_succ hn⟩

theorem finite_follow (bc : List FklIns) : Finite {p // follow bc p ≠ none} := by
  apply Set.Finite.subset (Set.finite_Ico (0 : Int) bc.length)
  intro p hp
  obtain ⟨q, hq⟩ := Option.ne_none_iff_exists'.mp hp
  obtain ⟨ins, hw, _⟩ := Option.bind_eq_some_iff.mp hq
  obtain ⟨hpos, hget⟩ := Option.ite_none_right_eq_some.mp hw
  obtain ⟨hlt, _⟩ := List.getElem?_eq_some_iff.mp hget
  exact ⟨hpos, by omega⟩

/-! The words that are skipped. -/

theorem ownNext_eq (h : bc[i]? = some ins) :
    ownNext bc i = some (if fklIsMakeProcIns ins then i + 1 + ins.uC else i + 1) := by
  rw [ownNext, h]
  rfl

theorem lt_of_ownNext {d : Nat} (h : ownNext bc i = some d) : i < d := by
  obtain ⟨ins, _, rfl⟩ := Option.map_eq_some_iff.mp h
  split <;> omega

theorem Own.next {d : Nat} (h : Own bc i) (hd : ownNext bc i = some d) : Own bc d := by
  obtain ⟨k, hk⟩ := h
  exact ⟨k + 1, by rw [iterAt, hk, Option.bind_some, hd]⟩

/-- No own word lies between an own word and its next one. -/
theorem Own.next_le {d : Nat} (hi : Own bc i) (hj : Own bc j) (hij : i < j)
    (hd : ownNext bc i = some d) : d ≤ j := by
  obtain ⟨a, ha⟩ := hi
  obtain ⟨b, hb⟩ := hj
  have hmono : ∀ v w, ownNext bc v = some w → v < w := fun v w => lt_of_ownNext
  have hab : a < b := by
    by_contra hcon
    rcases Nat.eq_or_lt_of_le (Nat.le_of_not_lt hcon) with rfl | hlt
    · obtain rfl := Option.some.inj (ha.symm.trans hb)
      omega
    · have := iterAt_lt hmono hlt hb ha
      omega
  have hnext : iterAt (ownNext bc) 0 (a + 1) = some d := by rw [iterAt, ha, Option.bind_some, hd]
  rcases Nat.eq_or_lt_of_le (Nat.succ_le_of_lt hab) with rfl | hlt
  · exact (Option.some.inj (hnext.symm.trans hb)).le
  · exact (iterAt_lt hmono hlt hnext hb).le

/-- The first own call from an own word on, or the end of the code. -/
structure NextCall (bc : List FklIns) (i j : Nat) : Prop where
  le : i ≤ j
  own : Own bc j
  call : ∀ ins, bc[j]? = some ins → ins.op = some .call
  first : ∀ k, OwnCall bc k → i ≤ k → j ≤ k

theorem skipLoop_nextCall {index r : Nat} (hown : Own bc (index + r))
    (hfuel : bc.length - (index + r) < fuel) :
    ∃ r', skipLoop bc index fuel r = some r' ∧ NextCall bc (index + r) (index + r') := by
  induction fuel generalizing r with
  | zero => omega
  | succ fuel ih =>
    unfold skipLoop
    cases hw : bc[index + r]? with
    | none =>
      refine ⟨r, rfl, le_refl _, hown, ?_, fun _ _ h => h⟩
      intro ins h
      cases hw.symm.trans h
    | some ins =>
      have hlt : index + r < bc.length := (List.getElem?_eq_some_iff.mp hw).1
      simp only
      by_cases hcall : ins.op = some .call
      · rw [if_pos hcall]
        refine ⟨r, rfl, le_refl _, hown, ?_, fun _ _ h => h⟩
        intro ins' h
        obtain rfl := Option.some.inj (hw.symm.trans h)
        exact hcall
      · -- The loop goes on from the next own word.
        have hrest : ∀ s, ownNext bc (index + r) = some (index + s) →
            ∃ r', skipLoop bc index fuel s = some r' ∧ NextCall bc (index + r) (index + r') := by
          intro s hs
          have hsr := lt_of_ownNext hs
          obtain ⟨r', hr', hnext⟩ := ih (hown.next hs) (by omega)
          refine ⟨r', hr', hsr.le.trans hnext.le, hnext.own, hnext.call, ?_⟩
          intro k hk hle
          rcases Nat.eq_or_lt_of_le hle with rfl | hklt
          · obtain ⟨-, ins', hins', hop⟩ := hk
            obtain rfl := Option.some.inj (hw.symm.trans hins')
            exact absurd hop hcall
          · exact hnext.first k hk (hown.next_le hk.1 hklt hs)
        rw [if_neg hcall]
        by_cases hmake : fklIsMakeProcIns ins = true
        · have harg := fklGetInsOpArg_makeProc (of_decide_eq_true hmake) (insFrom_zero hw) ⟨0, 0, 0⟩
          rw [if_pos hmake, harg]
          apply hrest
          rw [ownNext_eq hw, if_pos hmake]
          have hsum : index + r + 1 + ins.uC = index + (r + (ins.uC + 1)) := by omega
          exact congrArg some hsum
        · rw [if_neg hmake]
          apply hrest
          rw [ownNext_eq hw, if_neg hmake]
          rfl

theorem skipToCall_nextCall (hown : Own bc i) :
    ∃ r, skipToCall i bc = some r ∧ NextCall bc i (i + r) :=
  skipLoop_nextCall hown (by omega)

/-! The scan, up to a position of the code. -/

/-- The calls before `i` are marked. -/
structure MarksUpTo (bc : List FklIns) (i : Nat) (bc' : List FklIns) : Prop where
  length : bc'.length = bc.length
  marked : ∀ j ins, j < i → bc[j]? = some ins → TailCallAt bc j →
    bc'[j]? = some (ins.setOp .tailCall)
  kept : ∀ j, i ≤ j ∨ ¬ TailCallAt bc j → bc'[j]? = bc[j]?

theorem TailCallAt.lt_length (h : TailCallAt bc i) : i < bc.length := by
  obtain ⟨⟨-, ins, hins, -⟩, -⟩ := h
  exact (List.getElem?_eq_some_iff.mp hins).1

theorem MarksUpTo.refl (bc : List FklIns) : MarksUpTo bc 0 bc :=
  ⟨rfl, fun j _ hj => absurd hj (Nat.not_lt_zero j), fun _ _ => rfl⟩

theorem MarksUpTo.all (h : MarksUpTo bc i bc') (hi : bc.length ≤ i) : MarksTailCalls bc bc' := by
  refine ⟨h.length, ?_, fun j hj => h.kept j (Or.inr hj)⟩
  intro j ins hins hj
  exact h.marked j ins (hj.lt_length.trans_le hi) hins hj

/-- Where no own call is skipped nothing is to be marked. -/
theorem MarksUpTo.skip (h : MarksUpTo bc i bc') (hij : i ≤ j)
    (hno : ∀ k, OwnCall bc k → i ≤ k → j ≤ k) : MarksUpTo bc j bc' := by
  refine ⟨h.length, ?_, ?_⟩
  · intro k ins hk hins htail
    by_cases hik : k < i
    · exact h.marked k ins hik hins htail
    · exact absurd (hno k htail.1 (by omega)) (by omega)
  · intro k hk
    rcases hk with hk | hk
    · exact h.kept k (Or.inl (hij.trans hk))
    · exact h.kept k (Or.inr hk)

/-- Words of both codes are the same, but for a call that is marked. -/
theorem MarksUpTo.word (h : MarksUpTo bc i bc') (j : Nat) : bc'[j]? = bc[j]? ∨
    ∃ ins, bc[j]? = some ins ∧ ins.op = some .call ∧ bc'[j]? = some (ins.setOp .tailCall) := by
  by_cases hj : i ≤ j ∨ ¬ TailCallAt bc j
  · exact Or.inl (h.kept j hj)
  · obtain ⟨hlt, htail⟩ := not_or.mp hj
    have htail := not_not.mp htail
    obtain ⟨⟨-, ins, hins, hop⟩, -⟩ := id htail
    exact Or.inr ⟨ins, hins, hop, h.marked j ins (by omega) hins htail⟩

theorem MarksUpTo.wordAt (h : MarksUpTo bc i bc') (p : Int) : wordAt bc' p = wordAt bc p ∨
    ∃ ins, wordAt bc p = some ins ∧ ins.op = some .call ∧
      wordAt bc' p = some (ins.setOp .tailCall) := by
  unfold FakeLisp.wordAt
  by_cases hp : 0 ≤ p
  · simpa only [if_pos hp] using h.word p.toNat
  · exact Or.inl (by rw [if_neg hp, if_neg hp])

theorem MarksUpTo.follow_eq (h : MarksUpTo bc i bc') : follow bc' = follow bc := by
  funext p
  unfold follow
  rcases h.wordAt p with hw | ⟨ins, hw, hop, hw'⟩
  · rw [hw]
  · rw [hw, hw']
    simp [hop]

theorem MarksUpTo.leavesProc_iff (h : MarksUpTo bc i bc') (p : Int) :
    LeavesProc bc' p ↔ LeavesProc bc p := by
  unfold LeavesProc
  rcases h.wordAt p with hw | ⟨ins, hw, hop, hw'⟩
  · rw [hw]
  · simp [hw, hw', hop]

theorem skipLoop_congr {index r : Nat} (h : ∀ j, index ≤ j → bc'[j]? = bc[j]?) :
    skipLoop bc' index fuel r = skipLoop bc index fuel r := by
  have hfrom : ∀ r, insFrom bc' (index + r) = insFrom bc (index + r) := by
    intro r
    funext k
    rw [insFrom, insFrom, h _ (by omega)]
  induction fuel generalizing r with
  | zero => rfl
  | succ fuel ih =>
    unfold skipLoop
    rw [h _ (Nat.le_add_right index r)]
    simp only [hfrom, ih]

theorem MarksUpTo.skipToCall_eq (h : MarksUpTo bc i bc') (hij : i ≤ j) :
    skipToCall j bc' = skipToCall j bc := by
  rw [skipToCall, skipToCall, h.length]
  exact skipLoop_congr fun k hk => h.kept k (Or.inl (hij.trans hk))

theorem MarksUpTo.step (h : MarksUpTo bc i bc') {b : Bool} (hb : b = true ↔ TailCallAt bc i)
    (hins : bc[i]? = some ins) :
    MarksUpTo bc (i + 1) (if b then bc'.set i (ins.setOp .tailCall) else bc') := by
  have hlt : i < bc'.length := h.length ▸ (List.getElem?_eq_some_iff.mp hins).1
  cases b with
  | false =>
    have hno : ¬ TailCallAt bc i := fun htail => absurd (hb.mpr htail) Bool.false_ne_true
    refine ⟨h.length, ?_, ?_⟩
    · intro j ins' hj hins' htail
      rcases Nat.eq_or_lt_of_le (Nat.le_of_lt_succ hj) with rfl | hji
      · exact absurd htail hno
      · exact h.marked j ins' hji hins' htail
    · intro j hj
      rcases hj with hj | hj
      · exact h.kept j (Or.inl (by omega))
      · exact h.kept j (Or.inr hj)
  | true =>
    have hyes := hb.mp rfl
    refine ⟨by simpa using h.length, ?_, ?_⟩
    · intro j ins' hj hins' htail
      rcases Nat.eq_or_lt_of_le (Nat.le_of_lt_succ hj) with rfl | hji
      · obtain rfl := Option.some.inj (hins.symm.trans hins')
        exact List.getElem?_set_self hlt
      · simp only [if_true]
        rw [List.getElem?_set_ne (by omega)]
        exact h.marked j ins' hji hins' htail
    · intro j hj
      have hne : i ≠ j := by
        rintro rfl
        rcases hj with hj | hj
        · omega
        · exact hj hyes
      simp only [if_true]
      rw [List.getElem?_set_ne hne]
      apply h.kept
      rcases hj with hj | hj
      · exact Or.inl (by omega)
      · exact Or.inr hj

/-- The state of the scan where its test is made. -/
structure ScanInv (bc : List FklIns) (i : Nat) (bc' : List FklIns) : Prop where
  marks : MarksUpTo bc i bc'
  own : Own bc i
  call : ∀ ins, bc[i]? = some ins → ins.op = some .call

theorem ScanInv.initial (bc : List FklIns) :
    ∃ i, skipToCall 0 bc = some i ∧ ScanInv bc i bc ∧ ∀ k, OwnCall bc k → i ≤ k := by
  obtain ⟨r, hr, hnext⟩ := skipToCall_nextCall (show Own bc 0 from ⟨0, rfl⟩)
  rw [Nat.zero_add] at hnext
  have hfirst : ∀ k, OwnCall bc k → r ≤ k := fun k hk => hnext.first k hk (Nat.zero_le k)
  exact ⟨r, hr, ⟨(MarksUpTo.refl bc).skip (Nat.zero_le r) fun k hk _ => hfirst k hk,
    hnext.own, hnext.call⟩, hfirst⟩

/-- A round of the scan, for a call that is followed by an end of the jumps. -/
theorem ScanInv.round (h : ScanInv bc i bc') (hins : bc[i]? = some ins)
    (hends : EndsIn (follow bc) ((i + 1 : Nat) : Int) n e) :
    ∃ j bc'', i < j ∧ ScanInv bc j bc'' ∧ (∀ k, OwnCall bc k → i < k → j ≤ k) ∧
      ∀ steps fuel, n < steps →
        scanLoop steps (fuel + 1) bc' i = scanLoop steps fuel bc'' j := by
  have hcall : OwnCall bc i := ⟨h.own, ins, hins, h.call ins hins⟩
  have hins' : bc'[i]? = some ins := (h.marks.kept i (Or.inl (le_refl i))).trans hins
  have hb : decide (LeavesProc bc e) = true ↔ TailCallAt bc i := by
    rw [decide_eq_true_iff]
    constructor
    · intro hleaves
      exact ⟨hcall, n, e, hends, hleaves⟩
    · rintro ⟨-, n', e', hends', hleaves⟩
      obtain ⟨rfl, rfl⟩ := hends.unique hends'
      exact hleaves
  have hstep := h.marks.step hb hins
  have hown : Own bc (i + 1) := by
    apply h.own.next
    have hop := h.call ins hins
    rw [ownNext_eq hins, if_neg (by simp [fklIsMakeProcIns, hop])]
  obtain ⟨r, hr, hnext⟩ := skipToCall_nextCall hown
  refine ⟨i + 1 + r, _, by omega, ⟨hstep.skip hnext.le hnext.first, hnext.own, hnext.call⟩,
    hnext.first, ?_⟩
  intro steps fuel hsteps
  have hlast : isLastLoop bc' steps ((i + 1 : Nat) : Int) = some (decide (LeavesProc bc e)) := by
    rw [isLastLoop_of_endsIn (h.marks.follow_eq ▸ hends) hsteps]
    simp only [h.marks.leavesProc_iff]
  conv_lhs => rw [scanLoop]
  simp only [hins', hlast, Option.bind_eq_bind, Option.bind_some,
    hstep.skipToCall_eq (le_refl _), hr]

theorem ScanInv.marksTailCalls (h : ScanInv bc i bc') (hfuel : bc.length - i < fuel)
    (hends : ∀ j, OwnCall bc j → ∃ n e, EndsIn (follow bc) ((j + 1 : Nat) : Int) n e) :
    ∃ m, ∀ steps, m ≤ steps →
      ∃ out, scanLoop steps fuel bc' i = some out ∧ MarksTailCalls bc out := by
  induction fuel generalizing i bc' with
  | zero => omega
  | succ fuel ih =>
    cases hins : bc[i]? with
    | none =>
      have hins' : bc'[i]? = none := (h.marks.kept i (Or.inl (le_refl i))).trans hins
      refine ⟨0, fun steps _ => ⟨bc', ?_, h.marks.all (List.getElem?_eq_none_iff.mp hins)⟩⟩
      rw [scanLoop, hins']
    | some ins =>
      obtain ⟨n, e, hn⟩ := hends i ⟨h.own, ins, hins, h.call ins hins⟩
      obtain ⟨j, bc'', hij, hinv, -, hround⟩ := h.round hins hn
      have hlt : i < bc.length := (List.getElem?_eq_some_iff.mp hins).1
      obtain ⟨m, hm⟩ := ih hinv (by omega)
      refine ⟨max (n + 1) m, ?_⟩
      intro steps hsteps
      rw [hround steps fuel (by omega)]
      exact hm steps (by omega)

theorem ScanInv.endsIn (h : ScanInv bc i bc') {out : List FklIns}
    (hscan : scanLoop steps fuel bc' i = some out) (hj : OwnCall bc j) (hij : i ≤ j) :
    ∃ n e, EndsIn (follow bc) ((j + 1 : Nat) : Int) n e := by
  induction fuel generalizing i bc' with
  | zero => cases hscan
  | succ fuel ih =>
    have hkept : bc'[i]? = bc[i]? := h.marks.kept i (Or.inl (le_refl i))
    cases hins : bc[i]? with
    | none =>
      obtain ⟨-, ins, hins', -⟩ := hj
      have := List.getElem?_eq_none_iff.mp hins
      have := (List.getElem?_eq_some_iff.mp hins').1
      omega
    | some ins =>
      obtain ⟨b, hb⟩ : ∃ b, isLastLoop bc' steps ((i + 1 : Nat) : Int) = some b := by
        rw [scanLoop, hkept, hins] at hscan
        obtain ⟨b, hb, -⟩ := Option.bind_eq_some_iff.mp hscan
        exact ⟨b, hb⟩
      obtain ⟨n, e, hn, hsteps⟩ := endsIn_of_isLastLoop hb
      rw [h.marks.follow_eq] at hn
      rcases Nat.eq_or_lt_of_le hij with rfl | hlt
      · exact ⟨n, e, hn⟩
      · obtain ⟨j', bc'', -, hinv, hfirst, hround⟩ := h.round hins hn
        exact ih hinv (hround steps fuel hsteps ▸ hscan) (hfirst j hj hlt)

/-- The scan ends, and marks what is to be marked. -/
def ScansRight (bc : List FklIns) : Prop :=
  ∃ steps fuel out, fklScanAndSetTailCall steps fuel bc = some out ∧ MarksTailCalls bc out

theorem CircleFree.scansRight (h : CircleFree bc) : ScansRight bc := by
  obtain ⟨i, hi, hinv, -⟩ := ScanInv.initial bc
  have hends : ∀ j, OwnCall bc j → ∃ n e, EndsIn (follow bc) ((j + 1 : Nat) : Int) n e :=
    fun j hj => (endsIn_iff_not_runsInCircle (finite_follow bc) _).mpr (h j hj)
  obtain ⟨m, hm⟩ := hinv.marksTailCalls (Nat.lt_succ_self _) hends
  obtain ⟨out, hscan, hmarks⟩ := hm m (le_refl m)
  refine ⟨m, (bc.length - i).succ, out, ?_, hmarks⟩
  rw [fklScanAndSetTailCall, hi]
  exact hscan

theorem ScansRight.circleFree (h : ScansRight bc) : CircleFree bc := by
  obtain ⟨steps, fuel, out, hscan, -⟩ := h
  obtain ⟨i, hi, hinv, hfirst⟩ := ScanInv.initial bc
  rw [fklScanAndSetTailCall, hi] at hscan
  intro j hj
  exact (endsIn_iff_not_runsInCircle (finite_follow bc) _).mp
    (hinv.endsIn hscan hj (hfirst j hj))

/-- The jumps and the bodies of nested procedures end inside of the code or behind it. -/
def JumpsInRange (bc : List FklIns) : Prop :=
  ∀ (i : Nat) ins, bc[i]? = some ins →
    (fklIsJmpIns ins ∨ fklIsCondJmpIns ins → 0 ≤ i + (ins.sC + 1) ∧ i + (ins.sC + 1) ≤ bc.length) ∧
    (fklIsMakeProcIns ins → i + 1 + ins.uC ≤ bc.length)

theorem fklScanAndSetTailCall_scansRight_iff (bc : List FklIns) :
    ScansRight bc ↔ CircleFree bc :=
  ⟨ScansRight.circleFree, CircleFree.scansRight⟩

/-- A call before a jump to itself. -/
theorem not_scansRight_jmp_itself :
    JumpsInRange [makeInsI .call, (makeInsI .jmp).setSC (-1)] ∧
      ¬ ScansRight [makeInsI .call, (makeInsI .jmp).setSC (-1)] := by
  constructor
  · intro i ins hins
    match i, hins with
    | 0, hins =>
      obtain rfl := Option.some.inj hins
      decide
    | 1, hins =>
      obtain rfl := Option.some.inj hins
      decide
    | i + 2, hins => cases hins
  · intro h
    apply h.circleFree 0 ⟨⟨0, rfl⟩, _, rfl, by decide⟩
    exact ⟨0, 1, 1, rfl, Nat.one_pos, by decide⟩

end FakeLisp
