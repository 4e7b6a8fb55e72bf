import FakeLisp.RegexPieces

/-! The first pass of the compiler, piece by piece. -/

namespace FakeLisp.Regex

open ReRun

/-! Groups. They are numbered in the order in which they are opened, and know the group around
them; the groups that are open form a stack. -/

def nextStack (parents stack : List Nat) : ReToken → List Nat
  | .opening => parents.length :: stack
  | .closing => stack.tail
  | _ => stack

def nextParents (parents stack : List Nat) : ReToken → List Nat
  | .opening => parents ++ [stack.headD 0]
  | _ => parents

def parentsAfter (parents stack : List Nat) : List ReToken → List Nat
  | [] => parents
  | t :: ts => parentsAfter (nextParents parents stack t) (nextStack parents stack t) ts

/-- The groups on the stack know each other, up to the pattern as a whole. -/
def OpenGroups (parents : List Nat) : List Nat → Prop
  | [] => 0 < parents.length
  | g :: stack => parents[g]? = some (stack.headD 0) ∧ stack.headD 0 < g ∧ OpenGroups parents stack

theorem OpenGroups.head_lt {parents stack : List Nat} (h : OpenGroups parents stack) :
    stack.headD 0 < parents.length := by
  cases stack with
  | nil => exact h
  | cons g stack => exact (List.getElem?_eq_some_iff.mp h.1).1

theorem OpenGroups.append {parents stack : List Nat} (h : OpenGroups parents stack)
    (more : List Nat) : OpenGroups (parents ++ more) stack := by
  induction stack with
  | nil =>
    have hpos : 0 < parents.length := h
    show 0 < (parents ++ more).length
    rw [List.length_append]
    omega
  | cons g stack ih =>
    obtain ⟨hg, hlt, hstack⟩ := h
    refine ⟨?_, hlt, ih hstack⟩
    rw [List.getElem?_append_left (List.getElem?_eq_some_iff.mp hg).1]
    exact hg

theorem OpenGroups.next {parents stack : List Nat} (h : OpenGroups parents stack) (t : ReToken) :
    OpenGroups (nextParents parents stack t) (nextStack parents stack t) := by
  cases t with
  | opening =>
    refine ⟨?_, h.head_lt, h.append _⟩
    show (parents ++ [stack.headD 0])[parents.length]? = some (stack.headD 0)
    rw [List.getElem?_append_right le_rfl, Nat.sub_self]
    rfl
  | closing =>
    cases stack with
    | nil => exact h
    | cons g stack => exact h.2.2
  | repetition => exact h
  | bar => exact h
  | atom => exact h

theorem prefix_nextParents (parents stack : List Nat) (t : ReToken) :
    parents <+: nextParents parents stack t := by
  cases t with
  | opening => exact List.prefix_append _ _
  | closing => exact List.prefix_rfl
  | repetition => exact List.prefix_rfl
  | bar => exact List.prefix_rfl
  | atom => exact List.prefix_rfl

theorem prefix_parentsAfter (parents stack : List Nat) (ts : List ReToken) :
    parents <+: parentsAfter parents stack ts := by
  induction ts generalizing parents stack with
  | nil => exact List.prefix_rfl
  | cons t ts ih => exact (prefix_nextParents parents stack t).trans (ih _ _)

/-! How many bytes a class has. -/

def classCount (text : List UInt8) : Option Nat := computeCharClassLen (text.length + 1) text

/-- The class is measured to its end, whatever the fuel. -/
theorem classCount_of_fuel {fuel n : Nat} {text : List UInt8}
    (h : computeCharClassLen fuel text = some n) : classCount text = some n := by
  obtain ⟨t, ht, rfl⟩ := Option.map_eq_some_iff.mp h
  obtain ⟨s, hrun⟩ := (walkEnds_of_classLen ht).classLen_ends 1
  obtain rfl := hrun.eq_of_run ht
  rw [classCount, computeCharClassLen, hrun _ (Nat.lt_succ_self _)]
  rfl

theorem exists_classCount_iff {text : List UInt8} :
    (∃ n, classCount text = some n) ↔ WalkEnds uint8Max text := by
  constructor
  · rintro ⟨n, h⟩
    obtain ⟨t, ht, -⟩ := Option.map_eq_some_iff.mp h
    exact walkEnds_of_classLen ht
  · intro h
    obtain ⟨s, hrun⟩ := h.classLen_ends 1
    exact ⟨s.2, by rw [classCount, computeCharClassLen, hrun _ (Nat.lt_succ_self _)]; rfl⟩

/-! How far the first pass gets. -/

/-- The pieces before a bracket that closes no group. -/
def reached : Nat → List RePiece → List RePiece
  | _, [] => []
  | depth, p :: ps =>
    if p.token = .closing then if depth = 0 then [] else p :: reached (depth - 1) ps
    else p :: reached (if p.token = .opening then depth + 1 else depth) ps

/-- A bracket closes no group. -/
def overclosed : Nat → List ReToken → Bool
  | _, [] => false
  | depth, .opening :: ts => overclosed (depth + 1) ts
  | 0, .closing :: _ => true
  | depth + 1, .closing :: ts => overclosed depth ts
  | depth, _ :: ts => overclosed depth ts

/-- With `n` groups known, 32 bits are enough to count those that are opened before the pattern
ends. -/
def GroupsFit (e : ReEnd) : Nat → List RePiece → Prop
  | _, [] => True
  | n, p :: ps =>
    if p.token = .opening then ps = [] ∧ e = .complete ∨ n + 1 < 2 ^ 32 ∧ GroupsFit e (n + 1) ps
    else GroupsFit e n ps

def tokensOf (ps : List RePiece) : List ReToken := ps.map RePiece.token

/-- The bytes counted for a piece. -/
def pieceLen : RePiece → Nat
  | .charClass text => (classCount text).getD 0
  | _ => 0

def classLens (ps : List RePiece) : Nat := (ps.map pieceLen).sum

/-- The first pass comes to an end, keeps within the pattern and can count the groups. -/
structure CountSafe (ends : List UInt8 → Prop) (e : ReEnd) (depth n : Nat) (ps : List RePiece) :
    Prop where
  walks : ∀ text, .charClass text ∈ reached depth ps → ends text
  groups : GroupsFit e n (reached depth ps)
  closed : e = .openClass → overclosed depth (tokensOf ps) = true

section

variable {parents stack : List Nat} {p : RePiece} {t : ReToken}

theorem reached_eq_nil {depth : Nat} {ps : List RePiece} (h : depth ≠ 0) :
    reached depth ps = [] ↔ ps = [] := by
  cases ps with
  | nil => exact iff_of_true rfl rfl
  | cons p ps =>
    refine iff_of_false (fun hnil => ?_) (List.cons_ne_nil _ _)
    simp only [reached, if_neg h] at hnil
    split_ifs at hnil

theorem reached_cons (parents : List Nat) (ps : List RePiece)
    (h : ¬(p.token = .closing ∧ stack = [])) : reached stack.length (p :: ps) =
      p :: reached (nextStack parents stack p.token).length ps := by
  cases ht : p.token with
  | closing =>
    cases stack with
    | nil => exact absurd ⟨ht, rfl⟩ h
    | cons g stack => simp [reached, ht, nextStack]
  | opening => simp [reached, ht, nextStack]
  | repetition => simp [reached, ht, nextStack]
  | bar => simp [reached, ht, nextStack]
  | atom => simp [reached, ht, nextStack]

theorem overclosed_cons (parents : List Nat) (ts : List ReToken)
    (h : ¬(t = .closing ∧ stack = [])) :
    overclosed stack.length (t :: ts) = overclosed (nextStack parents stack t).length ts := by
  cases t with
  | closing =>
    cases stack with
    | nil => exact absurd ⟨rfl, rfl⟩ h
    | cons g stack => rfl
  | opening => rfl
  | repetition => cases stack <;> rfl
  | bar => cases stack <;> rfl
  | atom => cases stack <;> rfl

theorem balanced_cons (parents : List Nat) (ts : List ReToken)
    (h : ¬(t = .closing ∧ stack = [])) :
    balanced stack.length (t :: ts) = balanced (nextStack parents stack t).length ts := by
  cases t with
  | closing =>
    cases stack with
    | nil => exact absurd ⟨rfl, rfl⟩ h
    | cons g stack => rfl
  | opening => rfl
  | repetition => cases stack <;> rfl
  | bar => cases stack <;> rfl
  | atom => cases stack <;> rfl

theorem groupsFit_cons (e : ReEnd) (ps : List RePiece) (h : ¬(p.token = .closing ∧ stack = [])) :
    GroupsFit e parents.length (reached stack.length (p :: ps)) ↔
      (p.token = .opening → ps = [] ∧ e = .complete ∨ parents.length + 1 < 2 ^ 32) ∧
        GroupsFit e (nextParents parents stack p.token).length
          (reached (nextStack parents stack p.token).length ps) := by
  rw [reached_cons parents ps h, GroupsFit]
  cases p.token with
  | opening =>
    simp only [if_true, forall_const, nextStack, nextParents, List.length_cons, List.length_append,
      reached_eq_nil (Nat.succ_ne_zero stack.length)]
    constructor
    · rintro (hend | ⟨hlt, hrest⟩)
      · exact ⟨Or.inl hend, by rw [hend.1]; trivial⟩
      · exact ⟨Or.inr hlt, hrest⟩
    · rintro ⟨hend | hlt, hrest⟩
      · exact Or.inl hend
      · exact Or.inr ⟨hlt, hrest⟩
  | closing => simp [nextParents]
  | repetition => simp [nextParents]
  | bar => simp [nextParents]
  | atom => simp [nextParents]

theorem countSafe_cons {ends : List UInt8 → Prop} {e : ReEnd} {ps : List RePiece}
    (h : ¬(p.token = .closing ∧ stack = [])) :
    CountSafe ends e stack.length parents.length (p :: ps) ↔
      (∀ text, p = .charClass text → ends text) ∧
        (p.token = .opening → ps = [] ∧ e = .complete ∨ parents.length + 1 < 2 ^ 32) ∧
          CountSafe ends e (nextStack parents stack p.token).length
            (nextParents parents stack p.token).length ps := by
  have hover := overclosed_cons parents (tokensOf ps) h
  constructor
  · rintro ⟨hends, hgroups, hclosed⟩
    rw [reached_cons parents ps h] at hends
    obtain ⟨hopening, hrest⟩ := (groupsFit_cons e ps h).mp hgroups
    refine ⟨fun text htext => hends text (htext ▸ List.mem_cons_self), hopening, ?_⟩
    exact ⟨fun text hmem => hends text (List.mem_cons_of_mem p hmem), hrest,
      fun he => hover.symm.trans (hclosed he)⟩
  · rintro ⟨hp, hopening, hends, hgroups, hclosed⟩
    refine ⟨fun text hmem => ?_, (groupsFit_cons e ps h).mpr ⟨hopening, hgroups⟩,
      fun he => hover.trans (hclosed he)⟩
    rw [reached_cons parents ps h] at hmem
    rcases List.mem_cons.mp hmem with heq | hmem
    · exact hp text heq.symm
    · exact hends text hmem

end

/-! The first pass. -/

theorem u32_natCast (n : Nat) : u32 (n : Int) = n % 2 ^ 32 := by
  rw [u32, toUnsigned]
  omega

/-- A class is measured with this fuel. -/
def Measured (fuel : Nat) (text : List UInt8) : Prop := ∃ n, computeCharClassLen fuel text = some n

/-- Between the pieces, with the groups of `parents` known and those on the stack open. -/
structure Counting (parents stack : List Nat) (s : CountState) : Prop where
  inst : s.ctx.inst.map ReInst.p = parents
  brcnt : s.brcnt = stack.length
  resel : s.resel = stack.headD 0
  groups : OpenGroups parents stack
  objs : s.ctx.objs < 2 ^ 32
  strln : s.ctx.strln < 2 ^ 32

/-- What the first pass leaves behind the pieces. -/
structure CountDone (ps : List RePiece) (parents stack : List Nat) (s t : CountState) : Prop where
  brcnt : t.brcnt = 0 ↔ balanced stack.length (tokensOf ps) = true
  objs : t.ctx.objs = (s.ctx.objs + ps.length) % 2 ^ 32
  inst : t.ctx.inst.map ReInst.p = parentsAfter parents stack (tokensOf ps)
  strln : t.ctx.strln = (s.ctx.strln + classLens ps) % 2 ^ 32

/-- How the first pass goes over the pieces. -/
inductive CountOutcome (fuel : Nat) (ps : List RePiece) (e : ReEnd) (parents stack : List Nat)
    (s : CountState) : ReRun CountState → Prop
  | stuck {r : ReRun CountState} (hr : r = .outOfFuel ∨ r = .fault)
      (h : ¬CountSafe (Measured fuel) e stack.length parents.length ps) :
      CountOutcome fuel ps e parents stack s r
  | rejected (hsafe : CountSafe (Measured fuel) e stack.length parents.length ps)
      (h : ¬(e = .complete ∧ balanced stack.length (tokensOf ps) = true)) :
      CountOutcome fuel ps e parents stack s .rejected
  | done {t : CountState} (hsafe : CountSafe (Measured fuel) e stack.length parents.length ps)
      (he : e = .complete) (h : CountDone ps parents stack s t) :
      CountOutcome fuel ps e parents stack s (.done t)

/-- A piece that the first pass goes over. -/
theorem CountOutcome.cons {fuel : Nat} {p : RePiece} {ps : List RePiece} {e : ReEnd}
    {parents stack : List Nat} {s s' : CountState} {r : ReRun CountState}
    (hopen : ¬(p.token = .closing ∧ stack = []))
    (hsize : ∀ text, p = .charClass text → Measured fuel text)
    (hgroup : p.token = .opening → parents.length + 1 < 2 ^ 32)
    (hobjs : s'.ctx.objs = (s.ctx.objs + 1) % 2 ^ 32)
    (hstrln : s'.ctx.strln = (s.ctx.strln + pieceLen p) % 2 ^ 32)
    (h : CountOutcome fuel ps e (nextParents parents stack p.token)
      (nextStack parents stack p.token) s' r) :
    CountOutcome fuel (p :: ps) e parents stack s r := by
  have hbalanced := balanced_cons parents (tokensOf ps) hopen
  have hiff : CountSafe (Measured fuel) e stack.length parents.length (p :: ps) ↔ _ :=
    countSafe_cons hopen
  have hsafe := fun hrest => hiff.mpr ⟨hsize, fun ht => Or.inr (hgroup ht), hrest⟩
  cases h with
  | stuck hr h => exact .stuck hr fun hs => h (hiff.mp hs).2.2
  | rejected hs h => exact .rejected (hsafe hs) fun hno => h ⟨hno.1, hbalanced.symm.trans hno.2⟩
  | done hs he h =>
    refine .done (hsafe hs) he ⟨?_, ?_, h.inst, ?_⟩
    · rw [h.brcnt, ← hbalanced]
      rfl
    · rw [h.objs, hobjs, List.length_cons]
      omega
    · rw [h.strln, hstrln]
      simp only [classLens, List.map_cons, List.sum_cons]
      omega

theorem tokenOf_opening {c : UInt8} : tokenOf c = .opening ↔ c = ch '(' := by
  unfold tokenOf
  split_ifs <;> simp_all

theorem tokenOf_closing {c : UInt8} : tokenOf c = .closing ↔ c = ch ')' := by
  unfold tokenOf
  split_ifs <;> simp_all
  decide

theorem next_plain {t : ReToken} (ho : t ≠ .opening) (hc : t ≠ .closing) (parents stack : List Nat) :
    nextParents parents stack t = parents ∧ nextStack parents stack t = stack := by
  cases t with
  | opening => exact absurd rfl ho
  | closing => exact absurd rfl hc
  | repetition => exact ⟨rfl, rfl⟩
  | bar => exact ⟨rfl, rfl⟩
  | atom => exact ⟨rfl, rfl⟩

theorem compileCountLoop_cons {fuel n : Nat} {c : UInt8} {pat : List UInt8} {s : CountState}
    (hpat : s.pat = c :: pat) : compileCountLoop fuel (n + 1) s =
      compileCountStep fuel c { s with pat } >>= fun s => compileCountLoop fuel n s.nextObj := by
  simp only [compileCountLoop, hpat]

/-- The groups as they are behind the next piece. -/
theorem Counting.next {parents stack : List Nat} {s s' : CountState} (hs : Counting parents stack s)
    (t : ReToken) (hinst : s'.ctx.inst.map ReInst.p = nextParents parents stack t)
    (hbrcnt : s'.brcnt = (nextStack parents stack t).length)
    (hresel : s'.resel = (nextStack parents stack t).headD 0) (hstrln : s'.ctx.strln < 2 ^ 32) :
    Counting (nextParents parents stack t) (nextStack parents stack t) s'.nextObj :=
  ⟨hinst, hbrcnt, hresel, hs.groups.next t, toUnsigned_lt 32 (s'.ctx.objs + 1 : Nat), hstrln⟩

theorem nextObj_objs {s s' : CountState} (h : s'.ctx.objs = s.ctx.objs) :
    s'.nextObj.ctx.objs = (s.ctx.objs + 1) % 2 ^ 32 := by
  rw [← h]
  exact u32_natCast _

/-- A piece that opens and closes no group. -/
theorem CountOutcome.plain {fuel : Nat} {p : RePiece} {ps : List RePiece} {e : ReEnd}
    {parents stack : List Nat} {s : CountState} {r : ReRun CountState} (s' : CountState)
    (hs : Counting parents stack s) (ho : p.token ≠ .opening) (hc : p.token ≠ .closing)
    (hsize : ∀ text, p = .charClass text → Measured fuel text)
    (hsame : s'.ctx.inst = s.ctx.inst ∧ s'.brcnt = s.brcnt ∧ s'.resel = s.resel ∧
      s'.ctx.objs = s.ctx.objs ∧ s'.ctx.strln = (s.ctx.strln + pieceLen p) % 2 ^ 32)
    (h : Counting parents stack s'.nextObj → CountOutcome fuel ps e parents stack s'.nextObj r) :
    CountOutcome fuel (p :: ps) e parents stack s r := by
  obtain ⟨hinst, hbrcnt, hresel, hobjs, hstrln⟩ := hsame
  obtain ⟨hparents, hstack⟩ := next_plain ho hc parents stack
  refine .cons (fun hopen => hc hopen.1) hsize (fun hopen => absurd hopen ho)
    (nextObj_objs hobjs) hstrln ?_
  rw [hparents, hstack]
  have hlt : s'.ctx.strln < 2 ^ 32 := hstrln ▸ Nat.mod_lt _ (by decide)
  have hnext : Counting (nextParents parents stack p.token) (nextStack parents stack p.token)
      s'.nextObj :=
    hs.next p.token (by rw [hparents, hinst, hs.inst]) (by rw [hstack, hbrcnt, hs.brcnt])
      (by rw [hstack, hresel, hs.resel]) hlt
  rw [hparents, hstack] at hnext
  exact h hnext

theorem Splits.eq_nil_iff {pat : List UInt8} {ps : List RePiece} {e : ReEnd}
    (h : Splits pat ps e) : pat = [] ↔ ps = [] ∧ e = .complete := by
  cases h <;> simp

section

variable {fuel : Nat} {s : CountState}

theorem countStep_opening : compileCountStep fuel (ch '(') s =
    if s.pat = [] then rejected
    else if 2 ^ 32 ≤ s.ctx.inst.length + 1 then fault
    else done { s with
      ctx := { s.ctx with inst := s.ctx.inst ++ [⟨s.resel, s.ctx.objs, 0⟩] }
      brcnt := s.brcnt + 1, resel := s.ctx.inst.length } := by
  unfold compileCountStep
  rw [if_neg (by decide), if_neg (by decide), if_pos rfl]

theorem countStep_closing : compileCountStep fuel (ch ')') s =
    if s.brcnt = 0 then rejected
    else (do
      let cur ← access s.ctx.inst[s.resel]?
      done { s with
        ctx := { s.ctx with inst := s.ctx.inst.set s.resel { cur with failoff := s.ctx.objs } }
        brcnt := s.brcnt - 1, resel := cur.p }) := by
  unfold compileCountStep
  rw [if_neg (by decide), if_neg (by decide), if_neg (by decide), if_pos rfl]

theorem countStep_esc : compileCountStep fuel backslash s =
    if s.pat = [] then rejected
    else done { s with pat := s.pat.drop (countNumberEscChar s.pat) } := by
  unfold compileCountStep
  rw [if_pos rfl]

theorem countStep_class : compileCountStep fuel (ch '[') s =
    if s.pat = [] then rejected
    else (do
      let pat := classText s.pat
      let n ← bracketScan 0 pat
      let len ← fuelled (computeCharClassLen fuel (pat.take n))
      done { s with
        pat := pat.drop (n + 1)
        ctx := { s.ctx with strln := u32 (s.ctx.strln + len : Nat) } }) := by
  unfold compileCountStep
  rw [if_neg (by decide), if_neg (by decide), if_neg (by decide), if_neg (by decide), if_pos rfl]

variable (fuel s) in
/-- The other characters leave the groups and the sizes alone. -/
theorem countStep_char {c : UInt8} (hc : c ≠ backslash) (hb : c ≠ ch '[') (ho : c ≠ ch '(')
    (hcl : c ≠ ch ')') : ∃ s', compileCountStep fuel c s = done s' ∧ s'.pat = s.pat ∧
      s'.ctx.inst = s.ctx.inst ∧ s'.brcnt = s.brcnt ∧ s'.resel = s.resel ∧
      s'.ctx.objs = s.ctx.objs ∧ s'.ctx.strln = s.ctx.strln := by
  unfold compileCountStep
  rw [if_neg hc]
  split_ifs
  · exact ⟨_, rfl, rfl, rfl, rfl, rfl, rfl, rfl⟩
  · exact ⟨_, rfl, rfl, rfl, rfl, rfl, rfl, rfl⟩

end

/-- The groups around the piece that follows one that opens a group. -/
theorem Counting.opening {parents stack : List Nat} {s : CountState} (hs : Counting parents stack s)
    (pat : List UInt8) :
    Counting (nextParents parents stack .opening) (nextStack parents stack .opening)
      (CountState.nextObj { s with
        pat, ctx := { s.ctx with inst := s.ctx.inst ++ [⟨s.resel, s.ctx.objs, 0⟩] }
        brcnt := s.brcnt + 1, resel := s.ctx.inst.length }) := by
  refine hs.next .opening ?_ ?_ ?_ hs.strln
  · simp only [List.map_append, hs.inst, List.map_cons, List.map_nil, hs.resel]
    rfl
  · simp only [hs.brcnt]
    rfl
  · rw [← List.length_map ReInst.p, hs.inst]
    rfl

theorem set_eq_self {l : List Nat} {i a : Nat} (h : l[i]? = some a) : l.set i a = l := by
  obtain ⟨hi, rfl⟩ := List.getElem?_eq_some_iff.mp h
  exact List.set_getElem_self hi

/-- A group that is open can be closed. -/
theorem Counting.closing {parents stack : List Nat} {g : Nat} {s : CountState}
    (hs : Counting parents (g :: stack) s) (pat : List UInt8) :
    ∃ cur, s.ctx.inst[s.resel]? = some cur ∧
      Counting (nextParents parents (g :: stack) .closing) (nextStack parents (g :: stack) .closing)
        (CountState.nextObj { s with
          pat, ctx := { s.ctx with inst := s.ctx.inst.set s.resel { cur with failoff := s.ctx.objs } }
          brcnt := s.brcnt - 1, resel := cur.p }) := by
  have hresel : s.resel = g := hs.resel
  have hparent : (s.ctx.inst[g]?).map ReInst.p = some (stack.headD 0) := by
    rw [← List.getElem?_map, hs.inst]
    exact hs.groups.1
  obtain ⟨cur, hcur, hp⟩ := Option.map_eq_some_iff.mp hparent
  refine ⟨cur, by rw [hresel]; exact hcur, hs.next .closing ?_ ?_ hp hs.strln⟩
  · rw [List.map_set, hs.inst, hresel]
    exact set_eq_self (hs.groups.1.trans (congrArg some hp.symm))
  · simp only [hs.brcnt, List.length_cons, Nat.add_sub_cancel]
    rfl

theorem countSafe_nil {ends : List UInt8 → Prop} {e : ReEnd} (he : e ≠ .openClass)
    (depth n : Nat) : CountSafe ends e depth n [] :=
  ⟨fun _ hmem => absurd hmem List.not_mem_nil, trivial, fun hopen => absurd hopen he⟩

/-- The first pass over a pattern that splits into pieces. -/
theorem compileCountLoop_spec (fuel : Nat) {pat : List UInt8} {ps : List RePiece} {e : ReEnd}
    (h : Splits pat ps e) {n : Nat} (hn : pat.length < n) {parents stack : List Nat}
    {s : CountState} (hpat : s.pat = pat) (hs : Counting parents stack s) :
    CountOutcome fuel ps e parents stack s (compileCountLoop fuel n s) := by
  induction h generalizing n parents stack s with
  | nil =>
    obtain ⟨n, rfl⟩ := Nat.exists_eq_add_one_of_ne_zero (Nat.ne_zero_of_lt hn)
    have hrun : compileCountLoop fuel (n + 1) s = done s := by simp only [compileCountLoop, hpat]
    rw [hrun]
    refine .done (countSafe_nil (by decide) _ _) rfl ⟨?_, ?_, hs.inst, ?_⟩
    · rw [hs.brcnt]
      exact decide_eq_true_iff.symm
    · exact (Nat.mod_eq_of_lt hs.objs).symm
    · exact (Nat.mod_eq_of_lt hs.strln).symm
  | @char c pat ps e hc hb h ih =>
    obtain ⟨n, rfl⟩ := Nat.exists_eq_add_one_of_ne_zero (Nat.ne_zero_of_lt hn)
    have hlen : pat.length < n := Nat.lt_of_succ_lt_succ hn
    have hstrln : s.ctx.strln = (s.ctx.strln + pieceLen (.char c)) % 2 ^ 32 :=
      (Nat.mod_eq_of_lt hs.strln).symm
    rw [compileCountLoop_cons hpat]
    by_cases hopen : c = ch '('
    · subst hopen
      have htoken : (RePiece.char (ch '(')).token = .opening := rfl
      have hnot : ¬((RePiece.char (ch '(')).token = .closing ∧ stack = []) := fun h => nomatch h.1
      rw [countStep_opening]
      by_cases hend : pat = []
      · obtain ⟨rfl, rfl⟩ := h.eq_nil_iff.mp hend
        rw [if_pos hend, rejected_bind]
        refine .rejected ((countSafe_cons hnot).mpr ⟨nofun, fun _ => Or.inl ⟨rfl, rfl⟩, ?_⟩)
          fun hno => nomatch hno.2
        exact countSafe_nil (by decide) _ _
      · rw [if_neg hend]
        have hlength : s.ctx.inst.length = parents.length := by
          rw [← List.length_map ReInst.p, hs.inst]
        split_ifs with hbig
        · refine .stuck (Or.inr rfl) fun hsafe => ?_
          rcases ((countSafe_cons hnot).mp hsafe).2.1 rfl with hlast | hfits
          · exact hend (h.eq_nil_iff.mpr hlast)
          · simp only [hlength] at hbig
            omega
        · simp only [hlength] at hbig
          have hrest := ih hlen rfl (hs.opening pat)
          refine .cons hnot nofun (fun _ => by omega) ?_ ?_ hrest
          · exact nextObj_objs rfl
          · exact hstrln
    · by_cases hclose : c = ch ')'
      · subst hclose
        rw [countStep_closing]
        cases stack with
        | nil =>
          have hbrcnt : s.brcnt = 0 := hs.brcnt
          rw [if_pos hbrcnt, rejected_bind]
          refine .rejected ⟨fun _ hmem => absurd hmem List.not_mem_nil, trivial, fun _ => rfl⟩ ?_
          exact fun hno => nomatch hno.2
        | cons g stack =>
          obtain ⟨cur, hcur, hnext⟩ := hs.closing pat
          have hbrcnt : s.brcnt ≠ 0 := by
            rw [hs.brcnt]
            exact Nat.succ_ne_zero _
          rw [if_neg hbrcnt]
          simp only [hcur, access, done_bind]
          have hrest := ih hlen rfl hnext
          refine .cons (fun h => nomatch h.2) nofun nofun ?_ ?_ hrest
          · exact nextObj_objs rfl
          · exact hstrln
      · obtain ⟨s', hstep, hpat', hsame⟩ :=
          countStep_char fuel { s with pat } hc hb hopen hclose
        rw [hstep, done_bind]
        refine .plain s' hs (mt tokenOf_opening.mp hopen) (mt tokenOf_closing.mp hclose) nofun
          ⟨hsame.1, hsame.2.1, hsame.2.2.1, hsame.2.2.2.1, hsame.2.2.2.2.trans hstrln⟩ ?_
        exact fun hnext => ih hlen hpat' hnext
  | @esc pat ps e hne h ih =>
    obtain ⟨n, rfl⟩ := Nat.exists_eq_add_one_of_ne_zero (Nat.ne_zero_of_lt hn)
    have hlen : (pat.drop (countNumberEscChar pat)).length < n := by
      have := Nat.lt_of_succ_lt_succ hn
      rw [List.length_drop]
      omega
    rw [compileCountLoop_cons hpat, countStep_esc, if_neg hne, done_bind]
    exact .plain { s with pat := pat.drop (countNumberEscChar pat) } hs nofun nofun nofun
      ⟨rfl, rfl, rfl, rfl, (Nat.mod_eq_of_lt hs.strln).symm⟩ (ih hlen rfl)
  | cutEsc =>
    obtain ⟨n, rfl⟩ := Nat.exists_eq_add_one_of_ne_zero (Nat.ne_zero_of_lt hn)
    rw [compileCountLoop_cons hpat, countStep_esc, if_pos rfl, rejected_bind]
    exact .rejected (countSafe_nil (by decide) _ _) fun hno => nomatch hno.1
  | @charClass pat k ps e hne hscan h ih =>
    obtain ⟨n, rfl⟩ := Nat.exists_eq_add_one_of_ne_zero (Nat.ne_zero_of_lt hn)
    have hlen : ((classText pat).drop (k + 1)).length < n := by
      have := Nat.lt_of_succ_lt_succ hn
      have := classText_length_le pat
      rw [List.length_drop]
      omega
    rw [compileCountLoop_cons hpat, countStep_class, if_neg hne]
    simp only [hscan, done_bind]
    cases hcount : computeCharClassLen fuel ((classText pat).take k) with
    | none =>
      refine .stuck (Or.inl rfl) fun hsafe => ?_
      have hnot : ¬((RePiece.charClass ((classText pat).take k)).token = .closing ∧ stack = []) :=
        fun h => nomatch h.1
      obtain ⟨m, hm⟩ := ((countSafe_cons hnot).mp hsafe).1 _ rfl
      rw [hcount] at hm
      cases hm
    | some m =>
      have hsize : ∀ text, RePiece.charClass ((classText pat).take k) = .charClass text →
          Measured fuel text := by
        rintro text heq
        obtain rfl := RePiece.charClass.inj heq
        exact ⟨m, hcount⟩
      simp only [fuelled, done_bind]
      refine .plain ⟨(classText pat).drop (k + 1),
        { s.ctx with strln := u32 (s.ctx.strln + m : Nat) }, s.brcnt, s.resel⟩ hs nofun nofun hsize
        ⟨rfl, rfl, rfl, rfl, ?_⟩ (ih hlen rfl)
      rw [pieceLen, classCount_of_fuel hcount]
      exact u32_natCast _
  | @cutClass pat hcut =>
    obtain ⟨n, rfl⟩ := Nat.exists_eq_add_one_of_ne_zero (Nat.ne_zero_of_lt hn)
    rw [compileCountLoop_cons hpat, countStep_class]
    have hrun : (if pat = [] then rejected else bracketScan 0 (classText pat) >>= fun k =>
        fuelled (computeCharClassLen fuel ((classText pat).take k)) >>= fun len =>
          (done { s with
            pat := (classText pat).drop (k + 1)
            ctx := { s.ctx with strln := u32 (s.ctx.strln + len : Nat) } } :
              ReRun CountState)) = rejected := by
      rcases hcut with hnil | hscan
      · rw [if_pos hnil]
      · rw [hscan]
        split_ifs <;> rfl
    simp only [hrun, rejected_bind]
    exact .rejected (countSafe_nil (by decide) _ _) fun hno => nomatch hno.1
  | @openClass pat hne hscan =>
    obtain ⟨n, rfl⟩ := Nat.exists_eq_add_one_of_ne_zero (Nat.ne_zero_of_lt hn)
    rw [compileCountLoop_cons hpat, countStep_class, if_neg hne]
    simp only [hscan, fault_bind]
    exact .stuck (Or.inr rfl) fun hsafe => nomatch hsafe.closed rfl

/-- What is counted of a pattern: the objects, with one for the end, and the bytes. -/
structure Counted (ps : List RePiece) (ctx : ReCompileCtx) : Prop where
  objs : ctx.objs = (ps.length + 1) % 2 ^ 32
  strln : ctx.strln = classLens ps % 2 ^ 32
  inst : ctx.inst.map ReInst.p = parentsAfter [0] [] (tokensOf ps)

theorem map_p_modify (inst : List ReInst) (failoff : Nat) :
    (inst.modify 0 fun i => { i with failoff }).map ReInst.p = inst.map ReInst.p := by
  cases inst <;> rfl

/-- How the first pass ends. -/
theorem compileCount_spec (fuel : Nat) {pattern : List UInt8} {ps : List RePiece} {e : ReEnd}
    (h : Splits pattern ps e) :
    (¬CountSafe (Measured fuel) e 0 1 ps ∧
        (compileCount fuel pattern = .outOfFuel ∨ compileCount fuel pattern = .fault)) ∨
      CountSafe (Measured fuel) e 0 1 ps ∧
        if e = .complete ∧ balanced 0 (tokensOf ps) = true then
          ∃ ctx, compileCount fuel pattern = .done ctx ∧ Counted ps ctx
        else compileCount fuel pattern = .rejected := by
  have hstart : Counting [0] [] ⟨pattern, ⟨[⟨0, 0, 0⟩], 0, 0, 1⟩, 0, 0⟩ :=
    ⟨rfl, rfl, rfl, Nat.one_pos, Nat.two_pow_pos 32, Nat.two_pow_pos 32⟩
  have hloop := compileCountLoop_spec fuel h (Nat.lt_succ_self _) rfl hstart
  unfold compileCount
  generalize compileCountLoop fuel (pattern.length + 1) ⟨pattern, ⟨[⟨0, 0, 0⟩], 0, 0, 1⟩, 0, 0⟩ = r
    at hloop
  cases hloop with
  | stuck hr hno =>
    refine Or.inl ⟨hno, ?_⟩
    rcases hr with rfl | rfl
    · exact Or.inl rfl
    · exact Or.inr rfl
  | rejected hsafe hno => exact Or.inr ⟨hsafe, by rw [if_neg (by exact hno)]; rfl⟩
  | @done t hsafe he hdone =>
    refine Or.inr ⟨hsafe, ?_⟩
    have hbrcnt : t.brcnt = 0 ↔ balanced 0 (tokensOf ps) = true := hdone.brcnt
    simp only [done_bind]
    by_cases hbalanced : balanced 0 (tokensOf ps) = true
    · rw [if_pos ⟨he, hbalanced⟩, if_neg (not_not.mpr (hbrcnt.mpr hbalanced))]
      refine ⟨_, rfl, ?_, ?_, ?_⟩
      · rw [u32_natCast, hdone.objs]
        simp only [Nat.zero_add]
        omega
      · rw [hdone.strln, Nat.zero_add]
      · rw [map_p_modify, hdone.inst]
    · rw [if_neg fun hno => hbalanced hno.2, if_pos (mt hbrcnt.mp hbalanced)]

end FakeLisp.Regex
