import FakeLisp.RegexCount

/-! The second pass of the compiler, piece by piece. -/

namespace FakeLisp.Regex

open ReRun

/-! What is written for the pieces. -/

def classWrite (junk : Nat → UInt8) (text : List UInt8) : Option ClassOut :=
  charBufToCharClass junk (text.length + 1) text

/-- A class that is measured is written, whatever the fuel. -/
theorem classWrite_of_measured (junk : Nat → UInt8) {fuel : Nat} {text : List UInt8}
    (h : Measured fuel text) :
    ∃ out, charBufToCharClass junk fuel text = some out ∧ classWrite junk text = some out := by
  obtain ⟨n, hn⟩ := h
  obtain ⟨out, hout, -⟩ := charBufToCharClass_sizes junk hn
  obtain ⟨t, ht, -⟩ := Option.map_eq_some_iff.mp hn
  obtain ⟨s, hrun⟩ := (walkEnds_of_classLen ht).classOut_ends junk
  obtain ⟨u, hu, heq⟩ := Option.map_eq_some_iff.mp hout
  obtain rfl := hrun.eq_of_run hu
  refine ⟨out, hout, ?_⟩
  rw [classWrite, charBufToCharClass, hrun _ (Nat.lt_succ_self _), Option.map_some, heq]

/-- The bytes that a piece adds to those of the classes. -/
def pieceBytes (junk : Nat → UInt8) : RePiece → Nat
  | .charClass text => ((classWrite junk text).map fun out => out.patrns.length).getD 0
  | _ => 0

/-- The number of an escape is no character, or a range goes down. -/
def refuses (junk : Nat → UInt8) : RePiece → Bool
  | .char _ => false
  | .esc esc => escType (esc.headD 0) = .char && esc.headD 0 ≠ ch 'n' &&
      (uint8Max : Int) < escCharToChar junk esc
  | .charClass text => (classWrite junk text).any ClassOut.rejected

def lacksOperand : RePiece → Bool
  | .char c => needsOperand c
  | _ => false

section

variable (junk : Nat → Nat → UInt8)

/-- The pattern is given up at one of the objects from `j` on. -/
def refused : Nat → List RePiece → Bool
  | _, [] => false
  | j, p :: ps => j = 0 && lacksOperand p || refuses (junk j) p || refused (j + 1) ps

def bytesFrom : Nat → List RePiece → Nat
  | _, [] => 0
  | j, p :: ps => pieceBytes (junk j) p + bytesFrom (j + 1) ps

/-- Up to where the pattern is given up there is a place for the objects from `j` on, and for the
bytes of the classes behind the first `n`. -/
def HasRoom (objs strln : Nat) : Nat → Nat → List RePiece → Prop
  | _, _, [] => True
  | j, n, p :: ps =>
    j = 0 ∧ lacksOperand p = true ∨
      HasObj objs strln j ∧
        (∀ text, p = .charClass text → HasBytes objs strln (n + pieceBytes (junk j) p)) ∧
          (refuses (junk j) p = true ∨ HasRoom objs strln (j + 1) (n + pieceBytes (junk j) p) ps)

end

/-! One piece. -/

/-- Between the pieces, with the groups of `parents` met and those on the stack open. -/
structure Emitting (ctx : ReCompileCtx) (parents stack : List Nat) (s : EmitState) : Prop where
  ecnt : s.ecnt + 1 = parents.length
  resel : s.resel = stack.headD 0
  groups : OpenGroups parents stack
  groupend : ∀ o, s.objs.getLast? = some o → o.type = .groupend → s.resel + 1 < ctx.inst.length

/-- One object is written, which ends no group. -/
structure OneObj (objs objs' : List FklRegexObj) : Prop where
  length_eq : objs'.length = objs.length + 1
  last_ne : ∀ o, objs'.getLast? = some o → o.type ≠ .groupend

theorem oneObj_append {objs objs' : List FklRegexObj} {o : FklRegexObj}
    (hlen : objs'.length = objs.length) (ho : o.type ≠ .groupend) : OneObj objs (objs' ++ [o]) := by
  refine ⟨by rw [List.length_append, hlen]; rfl, fun o' ho' => ?_⟩
  rw [List.getLast?_concat] at ho'
  exact Option.some.inj ho' ▸ ho

theorem branchLoop_spec (j trueoff failoff : Nat) {i : Nat} {objs : List FklRegexObj}
    (h : i < objs.length) :
    ∃ objs', branchLoop j trueoff failoff i objs = done objs' ∧ objs'.length = objs.length := by
  induction i generalizing objs with
  | zero => exact ⟨objs, rfl, rfl⟩
  | succ i ih =>
    have hget : objs[i + 1]? = some objs[i + 1] := List.getElem?_eq_getElem h
    unfold branchLoop
    simp only [hget, access, done_bind]
    split_ifs
    · exact ⟨objs, rfl, rfl⟩
    · have hset : i < (objs.set (i + 1) { objs[i + 1] with falseoffset := j }).length := by
        rw [List.length_set]
        omega
      obtain ⟨objs', hrun, hlen⟩ := ih hset
      exact ⟨objs', hrun, hlen.trans List.length_set⟩
    · exact ih (by omega)
    · exact ⟨objs, rfl, rfl⟩

section

variable {ctx : ReCompileCtx} {s : EmitState}

theorem plainObj_spec (type : FklRegexType) (arg : Nat) (h : s.resel < ctx.inst.length) :
    ∃ o, plainObj ctx type arg s = done { s with objs := s.objs ++ [o] } ∧ o.type = type := by
  have hget : ctx.inst[s.resel]? = some ctx.inst[s.resel] := List.getElem?_eq_getElem h
  unfold plainObj
  simp only [hget, access, done_bind]
  exact ⟨_, rfl, rfl⟩

theorem repeatObj_spec {type : FklRegexType} (htype : type ≠ .groupend) (hj : s.objs.length ≠ 0)
    (h : s.resel < ctx.inst.length)
    (hgroup : ∀ o, s.objs.getLast? = some o → o.type = .groupend → s.resel + 1 < ctx.inst.length) :
    ∃ objs, repeatObj ctx type s = done objs ∧ OneObj s.objs objs := by
  have hlast : s.objs.length - 1 < s.objs.length := by omega
  have hprev : s.objs[s.objs.length - 1]? = some s.objs[s.objs.length - 1] :=
    List.getElem?_eq_getElem hlast
  have hget : ctx.inst[s.resel]? = some ctx.inst[s.resel] := List.getElem?_eq_getElem h
  have hset : ∀ o : FklRegexObj, (s.objs.set (s.objs.length - 1) o).length = s.objs.length :=
    fun o => List.length_set
  unfold repeatObj
  rw [if_neg hj]
  simp only [hprev, hget, access, done_bind]
  split_ifs with hq hend
  · exact ⟨_, rfl, oneObj_append (hset _) htype⟩
  · rw [← List.getLast?_eq_getElem?] at hprev
    have hlt := hgroup _ hprev hend
    have hnext : ctx.inst[s.resel + 1]? = some ctx.inst[s.resel + 1] := List.getElem?_eq_getElem hlt
    simp only [hnext, done_bind]
    exact ⟨_, rfl, oneObj_append (hset _) htype⟩
  · exact ⟨_, rfl, oneObj_append (hset _) htype⟩

/-- The characters that stand for themselves or for something of the language, but for brackets. -/
theorem emitStep_char {fuel : Nat} {junk : Nat → Nat → UInt8} {c : UInt8} (hc : c ≠ backslash)
    (hb : c ≠ ch '[') (ho : c ≠ ch '(') (hcl : c ≠ ch ')')
    (hj : s.objs.length = 0 → needsOperand c = false) (h : s.resel < ctx.inst.length)
    (hgroup : ∀ o, s.objs.getLast? = some o → o.type = .groupend → s.resel + 1 < ctx.inst.length) :
    ∃ objs, emitStep ctx fuel junk c s = done { s with objs } ∧ OneObj s.objs objs := by
  have hplain : ∀ type arg, type ≠ FklRegexType.groupend →
      ∃ objs, plainObj ctx type arg s = done { s with objs } ∧ OneObj s.objs objs := by
    intro type arg htype
    obtain ⟨o, hrun, ho⟩ := plainObj_spec type arg h
    exact ⟨_, hrun, oneObj_append rfl (by rwa [ho])⟩
  have hrepeat : ∀ type, type ≠ FklRegexType.groupend → needsOperand c = true →
      ∃ objs, (repeatObj ctx type s >>= fun objs => done { s with objs }) = done { s with objs } ∧
        OneObj s.objs objs := by
    intro type htype hneeds
    have hne : s.objs.length ≠ 0 := fun hzero => by
      rw [hj hzero] at hneeds
      cases hneeds
    obtain ⟨objs, hrun, hone⟩ := repeatObj_spec htype hne h hgroup
    exact ⟨objs, by rw [hrun, done_bind], hone⟩
  unfold emitStep
  dsimp only
  rw [if_neg hc, if_neg hb, if_neg ho, if_neg hcl]
  split_ifs with h1 h2 h3 h4 h5 h6 h7 hzero
  · exact hplain _ _ (by decide)
  · exact ⟨_, rfl, oneObj_append rfl (show FklRegexType.atEnd ≠ .groupend by decide)⟩
  · exact ⟨_, rfl, oneObj_append rfl (show FklRegexType.dot ≠ .groupend by decide)⟩
  · exact hrepeat _ (by decide) (by rw [h4]; rfl)
  · exact hrepeat _ (by decide) (by rw [h5]; rfl)
  · exact hrepeat _ (by decide) (by rw [h6]; rfl)
  · have hneeds := hj hzero
    rw [h7] at hneeds
    cases hneeds
  · have hget : ctx.inst[s.resel]? = some ctx.inst[s.resel] := List.getElem?_eq_getElem h
    obtain ⟨objs, hrun, hlen⟩ := branchLoop_spec s.objs.length ctx.inst[s.resel].trueoff
      ctx.inst[s.resel].failoff (show s.objs.length - 1 < s.objs.length by omega)
    simp only [hget, access, done_bind, hrun]
    exact ⟨_, rfl, oneObj_append hlen (show FklRegexType.branch ≠ .groupend by decide)⟩
  · exact hplain _ _ (by decide)

theorem emitStep_opening {fuel : Nat} {junk : Nat → Nat → UInt8} :
    emitStep ctx fuel junk (ch '(') s =
      if ctx.inst.length ≤ s.ecnt + 1 then fault
      else plainObj ctx .groupstart 0 { s with ecnt := s.ecnt + 1, resel := s.ecnt + 1 } := by
  unfold emitStep
  dsimp only
  rw [if_neg (by decide), if_neg (by decide), if_neg (by decide), if_neg (by decide),
    if_neg (by decide), if_neg (by decide), if_neg (by decide), if_pos rfl]

theorem emitStep_closing {fuel : Nat} {junk : Nat → Nat → UInt8} :
    emitStep ctx fuel junk (ch ')') s = (do
      let cur ← access ctx.inst[s.resel]?
      plainObj ctx .groupend 0 { s with resel := cur.p }) := by
  unfold emitStep
  dsimp only
  rw [if_neg (by decide), if_neg (by decide), if_neg (by decide), if_neg (by decide),
    if_neg (by decide), if_neg (by decide), if_neg (by decide), if_neg (by decide), if_pos rfl]

theorem emitStep_esc {fuel : Nat} {junk : Nat → Nat → UInt8} :
    emitStep ctx fuel junk backslash s =
      if s.pat = [] then rejected
      else (do
        let esc := s.pat.take (countNumberEscChar s.pat)
        let arg ← escArg (junk s.objs.length) esc
        plainObj ctx (escType (esc.headD 0)) arg
          { s with pat := s.pat.drop (countNumberEscChar s.pat) }) := by
  unfold emitStep
  dsimp only
  rw [if_neg (by decide), if_neg (by decide), if_neg (by decide), if_neg (by decide),
    if_neg (by decide), if_neg (by decide), if_neg (by decide), if_neg (by decide),
    if_neg (by decide), if_pos rfl]

theorem emitStep_class {fuel : Nat} {junk : Nat → Nat → UInt8} :
    emitStep ctx fuel junk (ch '[') s = (do
      let first ← access s.pat.head?
      let pat := classText s.pat
      let n ← bracketScan 0 pat
      let out ← fuelled (charBufToCharClass (junk s.objs.length) fuel (pat.take n))
      if ¬HasBytes ctx.objs ctx.strln (s.patrns.length + out.patrns.length) then fault
      else if out.rejected then rejected
      else
        plainObj ctx (if first = ch '^' then .invCharClass else .charClass)
          (u32 (firstPatoff ctx.objs + s.patrns.length : Nat))
          { s with pat := pat.drop (n + 1), patrns := s.patrns ++ out.patrns }) := by
  unfold emitStep
  dsimp only
  rw [if_neg (by decide), if_neg (by decide), if_neg (by decide), if_neg (by decide),
    if_neg (by decide), if_neg (by decide), if_neg (by decide), if_neg (by decide),
    if_neg (by decide), if_neg (by decide), if_pos rfl]

/-- The character of an escape is there unless the escape is refused. -/
theorem escArg_spec (junk : Nat → UInt8) (esc : List UInt8) :
    if refuses junk (.esc esc) = true then escArg junk esc = rejected
    else ∃ arg, escArg junk esc = done arg := by
  unfold escArg refuses
  by_cases htype : escType (esc.headD 0) = .char
  · by_cases hn : esc.headD 0 = ch 'n'
    · have hchar : escType (ch 'n') = .char := by decide
      simp [hn, hchar, -List.headD_eq_head?_getD]
    · by_cases hbig : (uint8Max : Int) < escCharToChar junk esc
      · simp [htype, hn, hbig, -List.headD_eq_head?_getD]
      · simp [htype, hn, hbig, -List.headD_eq_head?_getD]
  · simp [htype, -List.headD_eq_head?_getD]

end

/-! The second pass. -/

/-- How the second pass goes over the pieces. -/
inductive EmitOutcome (ctx : ReCompileCtx) (junk : Nat → Nat → UInt8) (ps : List RePiece)
    (s : EmitState) : ReRun EmitState → Prop
  | fault (h : ¬HasRoom junk ctx.objs ctx.strln s.objs.length s.patrns.length ps) :
      EmitOutcome ctx junk ps s .fault
  | rejected (hroom : HasRoom junk ctx.objs ctx.strln s.objs.length s.patrns.length ps)
      (h : refused junk s.objs.length ps = true) : EmitOutcome ctx junk ps s .rejected
  | done {t : EmitState}
      (hroom : HasRoom junk ctx.objs ctx.strln s.objs.length s.patrns.length ps)
      (h : refused junk s.objs.length ps = false)
      (hobjs : t.objs.length = s.objs.length + ps.length)
      (hpatrns : t.patrns.length = s.patrns.length + bytesFrom junk s.objs.length ps) :
      EmitOutcome ctx junk ps s (.done t)

section

variable {ctx : ReCompileCtx} {junk : Nat → Nat → UInt8} {p : RePiece} {ps : List RePiece}
  {s : EmitState} {r : ReRun EmitState}

/-- A piece whose object is written. -/
theorem EmitOutcome.cons (s' : EmitState) (hfirst : ¬(s.objs.length = 0 ∧ lacksOperand p = true))
    (hobj : HasObj ctx.objs ctx.strln s.objs.length)
    (hbytes : ∀ text, p = .charClass text →
      HasBytes ctx.objs ctx.strln (s.patrns.length + pieceBytes (junk s.objs.length) p))
    (href : refuses (junk s.objs.length) p = false)
    (hobjs : s'.objs.length = s.objs.length + 1)
    (hpatrns : s'.patrns.length = s.patrns.length + pieceBytes (junk s.objs.length) p)
    (h : EmitOutcome ctx junk ps s' r) : EmitOutcome ctx junk (p :: ps) s r := by
  have hroom : HasRoom junk ctx.objs ctx.strln s.objs.length s.patrns.length (p :: ps) ↔
      HasRoom junk ctx.objs ctx.strln s'.objs.length s'.patrns.length ps := by
    rw [HasRoom, hobjs, hpatrns, or_iff_right hfirst, href]
    simp only [Bool.false_eq_true, false_or]
    exact ⟨fun h => h.2.2, fun h => ⟨hobj, hbytes, h⟩⟩
  have hrefused : refused junk s.objs.length (p :: ps) = refused junk s'.objs.length ps := by
    have hno : (decide (s.objs.length = 0) && lacksOperand p) = false := by
      rw [Bool.and_eq_false_imp]
      exact fun hzero => Bool.eq_false_iff.mpr fun hp => hfirst ⟨of_decide_eq_true hzero, hp⟩
    rw [refused, hno, href, hobjs]
    rfl
  cases h with
  | fault hno => exact .fault (mt hroom.mp hno)
  | rejected hyes h => exact .rejected (hroom.mpr hyes) (hrefused.trans h)
  | done hyes h hlen hbytes' =>
    refine .done (hroom.mpr hyes) (hrefused.trans h) ?_ ?_
    · rw [hlen, hobjs, List.length_cons]
      omega
    · rw [hbytes', hpatrns, hobjs, bytesFrom]
      omega

/-- A piece that is refused. -/
theorem EmitOutcome.refuses (hobj : HasObj ctx.objs ctx.strln s.objs.length)
    (hbytes : ∀ text, p = .charClass text →
      HasBytes ctx.objs ctx.strln (s.patrns.length + pieceBytes (junk s.objs.length) p))
    (href : refuses (junk s.objs.length) p = true) :
    EmitOutcome ctx junk (p :: ps) s .rejected := by
  refine .rejected (Or.inr ⟨hobj, hbytes, Or.inl href⟩) ?_
  rw [refused, href, Bool.or_true, Bool.true_or]

end

theorem escType_ne_groupend (c : UInt8) : escType c ≠ .groupend := by
  unfold escType
  split_ifs <;> decide

theorem emitLoop_cons {ctx : ReCompileCtx} {fuel n : Nat} {junk : Nat → Nat → UInt8} {c : UInt8}
    {pat : List UInt8} {s : EmitState} (hpat : s.pat = c :: pat) :
    emitLoop ctx fuel junk (n + 1) s =
      if ¬HasObj ctx.objs ctx.strln s.objs.length ∧ ¬(s.objs = [] ∧ needsOperand c) then fault
      else emitStep ctx fuel junk c { s with pat } >>= emitLoop ctx fuel junk n := by
  simp only [emitLoop, hpat]

section

variable {ctx : ReCompileCtx} {fuel : Nat} {junk : Nat → Nat → UInt8} {s : EmitState}

/-- The pattern is given up where a repetition or a bar is its first piece. -/
theorem emitStep_first {c : UInt8} (hj : s.objs.length = 0) (hc : needsOperand c = true) :
    emitStep ctx fuel junk c s = rejected := by
  have hrepeat : ∀ type, repeatObj ctx type s = rejected := fun type => by
    unfold repeatObj
    exact if_pos hj
  have hcases : ((c = ch '*' ∨ c = ch '+') ∨ c = ch '?') ∨ c = ch '|' := by
    simpa [needsOperand] using hc
  unfold emitStep
  dsimp only
  rcases hcases with ((rfl | rfl) | rfl) | rfl
  · rw [if_neg (by decide), if_neg (by decide), if_neg (by decide), if_pos rfl, hrepeat,
      rejected_bind]
  · rw [if_neg (by decide), if_neg (by decide), if_neg (by decide), if_neg (by decide), if_pos rfl,
      hrepeat, rejected_bind]
  · rw [if_neg (by decide), if_neg (by decide), if_neg (by decide), if_neg (by decide),
      if_neg (by decide), if_pos rfl, hrepeat, rejected_bind]
  · rw [if_neg (by decide), if_neg (by decide), if_neg (by decide), if_neg (by decide),
      if_neg (by decide), if_neg (by decide), if_pos rfl, if_pos hj]

/-- A piece is started if there is a place for its object. -/
theorem EmitOutcome.start {c : UInt8} {p : RePiece} {ps : List RePiece} {r : ReRun EmitState}
    (hc : needsOperand c = lacksOperand p)
    (hfirst : s.objs.length = 0 → lacksOperand p = true → r = .rejected)
    (h : ¬(s.objs.length = 0 ∧ lacksOperand p = true) → HasObj ctx.objs ctx.strln s.objs.length →
      EmitOutcome ctx junk (p :: ps) s r) :
    EmitOutcome ctx junk (p :: ps) s
      (if ¬HasObj ctx.objs ctx.strln s.objs.length ∧ ¬(s.objs = [] ∧ needsOperand c) then .fault
        else r) := by
  have hnil : s.objs = [] ∧ needsOperand c = true ↔
      s.objs.length = 0 ∧ lacksOperand p = true := by rw [hc, List.length_eq_zero_iff]
  simp only [hnil]
  by_cases hlacks : s.objs.length = 0 ∧ lacksOperand p = true
  · rw [if_neg fun h => h.2 hlacks, hfirst hlacks.1 hlacks.2]
    refine .rejected (Or.inl hlacks) ?_
    rw [refused, hlacks.1, hlacks.2]
    rfl
  · split_ifs with hno
    · refine .fault fun hroom => ?_
      rcases hroom with hroom | hroom
      · exact hlacks hroom
      · exact hno.1 hroom.1
    · exact h hlacks (not_not.mp fun hobj => hno ⟨hobj, hlacks⟩)

/-- There is an instruction for the group around a piece. -/
theorem Emitting.resel_lt {parents stack : List Nat} (hs : Emitting ctx parents stack s)
    {ts : List ReToken} (h : parentsAfter parents stack ts = ctx.inst.map ReInst.p) :
    s.resel < ctx.inst.length := by
  have hle := (prefix_parentsAfter parents stack ts).length_le
  rw [h, List.length_map] at hle
  rw [hs.resel]
  exact hs.groups.head_lt.trans_le hle

/-- The object behind a group that is closed finds the first object of the group. -/
theorem Emitting.closing {parents stack : List Nat} {g : Nat} (hs : Emitting ctx parents (g :: stack) s)
    {ts : List ReToken} (h : parentsAfter parents (g :: stack) ts = ctx.inst.map ReInst.p) :
    ∃ cur, ctx.inst[s.resel]? = some cur ∧ cur.p = stack.headD 0 ∧
      cur.p + 1 < ctx.inst.length := by
  obtain ⟨more, hmore⟩ := prefix_parentsAfter parents (g :: stack) ts
  obtain ⟨hparent, hlt, -⟩ := hs.groups
  have hresel : s.resel = g := hs.resel
  have hg := (List.getElem?_eq_some_iff.mp hparent).1
  have hp : (ctx.inst[g]?).map ReInst.p = some (stack.headD 0) := by
    rw [← List.getElem?_map, ← h, ← hmore, List.getElem?_append_left hg]
    exact hparent
  obtain ⟨cur, hcur, hp⟩ := Option.map_eq_some_iff.mp hp
  have hlen := hs.resel_lt h
  exact ⟨cur, by rw [hresel]; exact hcur, hp, by omega⟩

end

theorem atom_ne_opening : ReToken.atom ≠ .opening := by decide

theorem atom_ne_closing : ReToken.atom ≠ .closing := by decide

theorem char_ne_charClass {c : UInt8} {text : List UInt8} : RePiece.char c ≠ .charClass text := by
  intro h
  cases h

theorem esc_ne_charClass {esc text : List UInt8} : RePiece.esc esc ≠ .charClass text := by
  intro h
  cases h

/-- What a piece that opens and closes no group leaves of the groups. -/
theorem tokens_plain {p : RePiece} {ps : List RePiece} {parents stack : List Nat} {l : List Nat}
    (ho : p.token ≠ .opening) (hc : p.token ≠ .closing)
    (h : parentsAfter parents stack (tokensOf (p :: ps)) = l)
    (hbalanced : balanced stack.length (tokensOf (p :: ps)) = true) :
    parentsAfter parents stack (tokensOf ps) = l ∧
      balanced stack.length (tokensOf ps) = true := by
  obtain ⟨hparents, hstack⟩ := next_plain ho hc parents stack
  have hnot : ¬(p.token = .closing ∧ stack = []) := fun h => hc h.1
  have hcons := balanced_cons parents (tokensOf ps) hnot
  have hafter : parentsAfter parents stack (tokensOf (p :: ps)) =
      parentsAfter (nextParents parents stack p.token) (nextStack parents stack p.token)
        (tokensOf ps) := rfl
  rw [hparents, hstack] at hafter
  rw [hstack] at hcons
  exact ⟨hafter.symm.trans h, hcons.symm.trans hbalanced⟩

theorem Emitting.plain {ctx : ReCompileCtx} {parents stack : List Nat} {s s' : EmitState}
    (hs : Emitting ctx parents stack s) (hecnt : s'.ecnt = s.ecnt) (hresel : s'.resel = s.resel)
    (h : OneObj s.objs s'.objs) : Emitting ctx parents stack s' :=
  ⟨by rw [hecnt, hs.ecnt], hresel.trans hs.resel, hs.groups,
    fun o ho hend => absurd hend (h.last_ne o ho)⟩

/-- The second pass over a pattern that the first has counted. -/
theorem emitLoop_spec {ctx : ReCompileCtx} {fuel : Nat} {junk : Nat → Nat → UInt8}
    {pat : List UInt8} {ps : List RePiece} {e : ReEnd} (h : Splits pat ps e) (he : e = .complete)
    {n : Nat} (hn : pat.length < n) {parents stack : List Nat} {s : EmitState} (hpat : s.pat = pat)
    (hparents : parentsAfter parents stack (tokensOf ps) = ctx.inst.map ReInst.p)
    (hbalanced : balanced stack.length (tokensOf ps) = true)
    (hsized : ∀ text, .charClass text ∈ ps → Measured fuel text)
    (hs : Emitting ctx parents stack s) :
    EmitOutcome ctx junk ps s (emitLoop ctx fuel junk n s) := by
  induction h generalizing n parents stack s with
  | nil =>
    obtain ⟨n, rfl⟩ := Nat.exists_eq_add_one_of_ne_zero (Nat.ne_zero_of_lt hn)
    have hrun : emitLoop ctx fuel junk (n + 1) s = done s := by simp only [emitLoop, hpat]
    rw [hrun]
    exact .done trivial rfl rfl rfl
  | @char c pat ps e hc hb h ih =>
    obtain ⟨n, rfl⟩ := Nat.exists_eq_add_one_of_ne_zero (Nat.ne_zero_of_lt hn)
    have hlen : pat.length < n := Nat.lt_of_succ_lt_succ hn
    have hrest : ∀ text, .charClass text ∈ ps → Measured fuel text :=
      fun text hmem => hsized text (List.mem_cons_of_mem _ hmem)
    have hresel := hs.resel_lt hparents
    rw [emitLoop_cons hpat]
    refine .start (p := .char c) rfl (fun hj hneeds => ?_) fun hfirst hobj => ?_
    · rw [emitStep_first (s := { s with pat }) hj hneeds, rejected_bind]
    by_cases hopen : c = ch '('
    · subst hopen
      have hnext : parentsAfter (parents ++ [stack.headD 0]) (parents.length :: stack)
          (tokensOf ps) = ctx.inst.map ReInst.p := hparents
      have hle := (prefix_parentsAfter (parents ++ [stack.headD 0]) (parents.length :: stack)
        (tokensOf ps)).length_le
      rw [hnext, List.length_map, List.length_append, List.length_singleton, ← hs.ecnt] at hle
      obtain ⟨o, hrun, ho⟩ := plainObj_spec
        (s := { s with pat, ecnt := s.ecnt + 1, resel := s.ecnt + 1 }) .groupstart 0 hle
      rw [emitStep_opening, if_neg (Nat.not_le.mpr hle), hrun, done_bind]
      have hone : OneObj s.objs (s.objs ++ [o]) := oneObj_append rfl (by rw [ho]; decide)
      refine .cons ⟨pat, s.objs ++ [o], s.patrns, s.ecnt + 1, s.ecnt + 1⟩ hfirst hobj
        (fun _ htext => absurd htext char_ne_charClass) rfl hone.length_eq rfl
        (ih he hlen rfl hnext hbalanced hrest ⟨?_, hs.ecnt, hs.groups.next .opening, ?_⟩)
      · rw [List.length_append, List.length_singleton, ← hs.ecnt]
      · exact fun o' ho' hend => absurd hend (hone.last_ne o' ho')
    · by_cases hclose : c = ch ')'
      · subst hclose
        cases stack with
        | nil => exact absurd (show false = true from hbalanced) Bool.false_ne_true
        | cons g stack =>
          obtain ⟨cur, hcur, hp, hlt⟩ := hs.closing hparents
          obtain ⟨o, hrun, ho⟩ := plainObj_spec (s := { s with pat, resel := cur.p }) .groupend 0
            (show cur.p < ctx.inst.length by omega)
          rw [emitStep_closing]
          simp only [hcur, access, done_bind, hrun]
          refine .cons ⟨pat, s.objs ++ [o], s.patrns, s.ecnt, cur.p⟩ hfirst hobj
            (fun _ htext => absurd htext char_ne_charClass) rfl List.length_append rfl
            (ih he hlen rfl hparents hbalanced hrest ⟨hs.ecnt, hp, hs.groups.next .closing, ?_⟩)
          exact fun _ _ _ => hlt
      · have hopening : (RePiece.char c).token ≠ .opening := mt tokenOf_opening.mp hopen
        have hclosing : (RePiece.char c).token ≠ .closing := mt tokenOf_closing.mp hclose
        obtain ⟨hnext, hbalanced'⟩ := tokens_plain hopening hclosing hparents hbalanced
        obtain ⟨objs, hrun, hone⟩ := emitStep_char (s := { s with pat }) hc hb hopen hclose
          (fun hzero => Bool.eq_false_iff.mpr fun hneeds => hfirst ⟨hzero, hneeds⟩) hresel
          hs.groupend
        rw [hrun, done_bind]
        exact .cons { s with pat, objs } hfirst hobj
          (fun _ htext => absurd htext char_ne_charClass) rfl hone.length_eq rfl
          (ih he hlen rfl hnext hbalanced' hrest (hs.plain rfl rfl hone))
  | @esc pat ps e hne h ih =>
    obtain ⟨n, rfl⟩ := Nat.exists_eq_add_one_of_ne_zero (Nat.ne_zero_of_lt hn)
    have hlen : (pat.drop (countNumberEscChar pat)).length < n := by
      have := Nat.lt_of_succ_lt_succ hn
      rw [List.length_drop]
      omega
    have hrest : ∀ text, .charClass text ∈ ps → Measured fuel text :=
      fun text hmem => hsized text (List.mem_cons_of_mem _ hmem)
    have hresel := hs.resel_lt hparents
    have harg := escArg_spec (junk s.objs.length) (pat.take (countNumberEscChar pat))
    obtain ⟨hnext, hbalanced'⟩ := tokens_plain (p := .esc (pat.take (countNumberEscChar pat)))
      atom_ne_opening atom_ne_closing hparents hbalanced
    rw [emitLoop_cons hpat]
    refine .start (show needsOperand backslash = false by decide)
      (fun _ hlacks => absurd hlacks Bool.false_ne_true) fun hfirst hobj => ?_
    rw [emitStep_esc, if_neg hne]
    by_cases href : refuses (junk s.objs.length) (.esc (pat.take (countNumberEscChar pat))) = true
    · rw [if_pos href] at harg
      simp only [harg, rejected_bind]
      exact .refuses hobj (fun _ htext => absurd htext esc_ne_charClass) href
    · rw [if_neg href] at harg
      obtain ⟨arg, harg⟩ := harg
      simp only [harg, done_bind]
      obtain ⟨o, hrun, ho⟩ := plainObj_spec
        (s := { s with pat := pat.drop (countNumberEscChar pat) })
        (escType ((pat.take (countNumberEscChar pat)).headD 0)) arg hresel
      have hone : OneObj s.objs (s.objs ++ [o]) :=
        oneObj_append rfl (by rw [ho]; exact escType_ne_groupend _)
      rw [hrun, done_bind]
      exact .cons { s with pat := pat.drop (countNumberEscChar pat), objs := s.objs ++ [o] } hfirst
        hobj (fun _ htext => absurd htext esc_ne_charClass) (Bool.eq_false_iff.mpr href)
        hone.length_eq rfl (ih he hlen rfl hnext hbalanced' hrest (hs.plain rfl rfl hone))
  | cutEsc => cases he
  | @charClass pat k ps e hne hscan h ih =>
    obtain ⟨n, rfl⟩ := Nat.exists_eq_add_one_of_ne_zero (Nat.ne_zero_of_lt hn)
    have hlen : ((classText pat).drop (k + 1)).length < n := by
      have := Nat.lt_of_succ_lt_succ hn
      have := classText_length_le pat
      rw [List.length_drop]
      omega
    have hrest : ∀ text, .charClass text ∈ ps → Measured fuel text :=
      fun text hmem => hsized text (List.mem_cons_of_mem _ hmem)
    have hresel := hs.resel_lt hparents
    obtain ⟨hnext, hbalanced'⟩ := tokens_plain (p := .charClass ((classText pat).take k))
      atom_ne_opening atom_ne_closing hparents hbalanced
    obtain ⟨first, hfirst'⟩ : ∃ first, pat.head? = some first :=
      Option.ne_none_iff_exists'.mp (mt List.head?_eq_none_iff.mp hne)
    obtain ⟨out, hout, hwrite⟩ := classWrite_of_measured (junk s.objs.length)
      (hsized _ List.mem_cons_self)
    have hbytes : pieceBytes (junk s.objs.length) (.charClass ((classText pat).take k)) =
        out.patrns.length := by
      rw [pieceBytes, hwrite]
      rfl
    have href : refuses (junk s.objs.length) (.charClass ((classText pat).take k)) =
        out.rejected := by
      rw [refuses, hwrite]
      rfl
    rw [emitLoop_cons hpat]
    refine .start (show needsOperand (ch '[') = false by decide)
      (fun _ hlacks => absurd hlacks Bool.false_ne_true) fun hfirst hobj => ?_
    rw [emitStep_class]
    simp only [hfirst', access, hscan, hout, fuelled, done_bind]
    by_cases hroom : HasBytes ctx.objs ctx.strln (s.patrns.length + out.patrns.length)
    · rw [if_neg (not_not.mpr hroom)]
      have hroom' : ∀ text, RePiece.charClass ((classText pat).take k) = .charClass text →
          HasBytes ctx.objs ctx.strln (s.patrns.length + pieceBytes (junk s.objs.length)
            (.charClass ((classText pat).take k))) := fun _ _ => by rwa [hbytes]
      cases hrej : out.rejected with
      | true =>
        simp only [if_true, rejected_bind]
        exact .refuses hobj hroom' (href.trans hrej)
      | false =>
        simp only [Bool.false_eq_true, if_false]
        obtain ⟨o, hrun, ho⟩ := plainObj_spec
          (s := { s with pat := (classText pat).drop (k + 1), patrns := s.patrns ++ out.patrns })
          (if first = ch '^' then .invCharClass else .charClass)
          (u32 (firstPatoff ctx.objs + s.patrns.length : Nat)) hresel
        have hone : OneObj s.objs (s.objs ++ [o]) := by
          refine oneObj_append rfl ?_
          rw [ho]
          split_ifs <;> decide
        rw [hrun, done_bind]
        refine .cons ⟨(classText pat).drop (k + 1), s.objs ++ [o], s.patrns ++ out.patrns, s.ecnt,
          s.resel⟩ hfirst hobj hroom' (href.trans hrej) hone.length_eq ?_
          (ih he hlen rfl hnext hbalanced' hrest (hs.plain rfl rfl hone))
        rw [hbytes]
        exact List.length_append
    · rw [if_pos hroom, fault_bind]
      refine .fault fun hyes => ?_
      rcases hyes with hyes | hyes
      · exact hfirst hyes
      · have hno := hyes.2.1 _ rfl
        rw [hbytes] at hno
        exact hroom hno
  | cutClass => cases he
  | openClass => cases he

end FakeLisp.Regex
