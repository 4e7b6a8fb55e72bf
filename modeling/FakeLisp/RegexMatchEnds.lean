import FakeLisp.RegexEmit
import FakeLisp.RegexMatch

/-! What both passes of the compiler make of the offsets of the objects, and when the matcher ends
on what is compiled. -/

namespace FakeLisp.Regex

open ReRun

theorem bind_eq_done {α β : Type} {r : ReRun α} {f : α → ReRun β} {b : β}
    (h : (r >>= f) = done b) : ∃ a, r = done a ∧ f a = done b := by
  cases r with
  | outOfFuel => cases h
  | fault => cases h
  | rejected => cases h
  | done a => exact ⟨a, rfl, h⟩

theorem access_eq_done {α : Type} {o : Option α} {a : α} (h : access o = done a) : o = some a := by
  cases o with
  | none => cases h
  | some b => rw [ReRun.done.inj h]

/-! One object. -/

/-- What both passes leave of a pattern behind the piece that a character begins. -/
def restOf (c : UInt8) (pat : List UInt8) : List UInt8 :=
  if c = backslash then pat.drop (countNumberEscChar pat)
  else if c = ch '[' then
    match bracketScan 0 (classText pat) with
    | .done n => (classText pat).drop (n + 1)
    | _ => []
  else pat

/-- The first pass over one piece: groups are opened and closed. -/
structure CountStep (c : UInt8) (s t : CountState) : Prop where
  objs : t.ctx.objs = s.ctx.objs
  stcnt : t.ctx.stcnt = if c = ch '*' ∨ c = ch '+' then u32 (s.ctx.stcnt + 1 : Nat) else s.ctx.stcnt
  opening : c = ch '(' → t.ctx.inst = s.ctx.inst ++ [⟨s.resel, s.ctx.objs, 0⟩] ∧
    t.brcnt = s.brcnt + 1 ∧ t.resel = s.ctx.inst.length
  closing : c = ch ')' → s.brcnt ≠ 0 ∧ ∃ cur, s.ctx.inst[s.resel]? = some cur ∧
    t.ctx.inst = s.ctx.inst.set s.resel { cur with failoff := s.ctx.objs } ∧
      t.brcnt = s.brcnt - 1 ∧ t.resel = cur.p
  other : c ≠ ch '(' → c ≠ ch ')' →
    t.ctx.inst = s.ctx.inst ∧ t.brcnt = s.brcnt ∧ t.resel = s.resel

theorem countStep_of_done {fuel : Nat} {c : UInt8} {s t : CountState}
    (h : compileCountStep fuel c s = done t) : t.pat = restOf c s.pat ∧ CountStep c s t := by
  by_cases hesc : c = backslash
  · subst hesc
    rw [countStep_esc] at h
    split_ifs at h
    cases h
    exact ⟨rfl, rfl, rfl, (absurd · (by decide)), (absurd · (by decide)),
      fun _ _ => ⟨rfl, rfl, rfl⟩⟩
  by_cases hclass : c = ch '['
  · subst hclass
    rw [countStep_class] at h
    split_ifs at h
    obtain ⟨n, hn, h⟩ := bind_eq_done h
    obtain ⟨len, -, h⟩ := bind_eq_done h
    cases h
    have hrest : restOf (ch '[') s.pat = (classText s.pat).drop (n + 1) := by
      rw [restOf, if_neg (by decide), if_pos rfl, hn]
    exact ⟨hrest.symm, rfl, rfl, (absurd · (by decide)), (absurd · (by decide)),
      fun _ _ => ⟨rfl, rfl, rfl⟩⟩
  have hrest : restOf c s.pat = s.pat := by rw [restOf, if_neg hesc, if_neg hclass]
  by_cases hopen : c = ch '('
  · subst hopen
    rw [countStep_opening] at h
    split_ifs at h
    cases h
    exact ⟨rfl, rfl, rfl, fun _ => ⟨rfl, rfl, rfl⟩, (absurd · (by decide)), (absurd rfl ·)⟩
  by_cases hclose : c = ch ')'
  · subst hclose
    rw [countStep_closing] at h
    split_ifs at h with hzero
    obtain ⟨cur, hcur, h⟩ := bind_eq_done h
    cases h
    exact ⟨rfl, rfl, rfl, (absurd · (by decide)),
      fun _ => ⟨hzero, cur, access_eq_done hcur, rfl, rfl, rfl⟩, fun _ => (absurd rfl ·)⟩
  · unfold compileCountStep at h
    rw [if_neg hesc, if_neg hopen, if_neg hclose, if_neg hclass] at h
    split_ifs at h with hrepeat
    · cases h
      exact ⟨hrest.symm, rfl, (if_pos hrepeat).symm, (absurd · hopen), (absurd · hclose),
        fun _ _ => ⟨rfl, rfl, rfl⟩⟩
    · cases h
      exact ⟨hrest.symm, rfl, (if_neg hrepeat).symm, (absurd · hopen), (absurd · hclose),
        fun _ _ => ⟨rfl, rfl, rfl⟩⟩

def ObjsLinked (n : Nat) (reps : Finset Nat) (objs : List FklRegexObj) : Prop :=
  ∀ i o, objs[i]? = some o → ObjLinked n reps i o

section

variable {n j : Nat} {reps reps' : Finset Nat} {objs objs' : List FklRegexObj} {o : FklRegexObj}

theorem ObjsLinked.append (h : ObjsLinked n reps objs) (ho : ObjLinked n reps objs.length o) :
    ObjsLinked n reps (objs ++ [o]) := by
  intro i o' hi
  rcases Nat.lt_trichotomy i objs.length with hlt | rfl | hgt
  · exact h i o' (by rwa [List.getElem?_append_left hlt] at hi)
  · rw [List.getElem?_concat_length] at hi
    exact Option.some.inj hi ▸ ho
  · rw [List.getElem?_eq_none (by rw [List.length_append, List.length_singleton]; omega)] at hi
    cases hi

theorem ObjsLinked.mono (h : ObjsLinked n reps objs) (hsub : reps ⊆ reps') :
    ObjsLinked n reps' objs :=
  fun i o hi => { h i o hi with mem := fun hrep => hsub ((h i o hi).mem hrep) }

/-- An object is told to go on at a later one. -/
theorem ObjsLinked.redirect (h : ObjsLinked n reps objs) {i : Nat} (hi : objs[i]? = some o)
    (hij : i < j) (hj : j ≤ n) : ObjsLinked n reps (objs.set i { o with falseoffset := j }) := by
  intro k o' hk
  by_cases heq : i = k
  · subst heq
    rw [List.getElem?_set_self (List.getElem?_eq_some_iff.mp hi).1] at hk
    cases hk
    exact { h i o hi with falseoffset := Or.inl ⟨hij, hj⟩ }
  · rw [List.getElem?_set_ne heq] at hk
    exact h k o' hk

theorem ObjsLinked.branchLoop {trueoff failoff i : Nat} (h : ObjsLinked n reps objs) (hij : i < j)
    (hj : j ≤ n) (hrun : branchLoop j trueoff failoff i objs = done objs') :
    ObjsLinked n reps objs' := by
  induction i generalizing objs with
  | zero =>
    cases hrun
    exact h
  | succ i ih =>
    unfold Regex.branchLoop at hrun
    split_ifs at hrun
    · obtain ⟨o, ho, hrun⟩ := bind_eq_done hrun
      split_ifs at hrun
      · cases hrun
        exact h
      · exact ih (h.redirect (access_eq_done ho) hij hj) (by omega) hrun
      · exact ih h (by omega) hrun
    · cases hrun
      exact h

/-- What the second pass needs of the first for an object: the group around it is closed behind it,
and all groups begin within the pattern. -/
structure GroupAt (inst : List ReInst) (n j g : Nat) : Prop where
  lt : j < n
  fails : ∃ cur, inst[g]? = some cur ∧ j < cur.failoff ∧ cur.failoff ≤ n
  trueoff : ∀ cur ∈ inst, cur.trueoff ≤ n

variable {ctx : ReCompileCtx} {s t : EmitState} {type : FklRegexType} {cur : ReInst}

theorem GroupAt.failoff {g : Nat} (h : GroupAt ctx.inst n j g) (hcur : ctx.inst[g]? = some cur) :
    j < cur.failoff ∧ cur.failoff ≤ n := by
  obtain ⟨cur', hcur', hfails⟩ := h.fails
  obtain rfl := Option.some.inj (hcur.symm.trans hcur')
  exact hfails

theorem plainObj_done {arg : Nat} (h : plainObj ctx type arg s = done t) :
    ∃ cur, ctx.inst[s.resel]? = some cur ∧
      t = { s with objs := s.objs ++ [⟨type, s.objs.length + 1, cur.failoff, arg⟩] } := by
  obtain ⟨cur, hcur, h⟩ := bind_eq_done h
  cases h
  exact ⟨cur, access_eq_done hcur, rfl⟩

/-- The objects behind a piece, with its own if it is a repetition. -/
def repsWith (c : UInt8) (reps : Finset Nat) (j : Nat) : Finset Nat :=
  if c = ch '*' ∨ c = ch '+' then insert j reps else reps

theorem subset_repsWith (c : UInt8) (reps : Finset Nat) (j : Nat) : reps ⊆ repsWith c reps j := by
  unfold repsWith
  split_ifs
  · exact Finset.subset_insert _ _
  · exact Finset.Subset.rfl

/-- What the objects of a pattern become by one piece. -/
def StepLinks (ctx : ReCompileCtx) (c : UInt8) (s t : EmitState) : Prop :=
  t.objs.length = s.objs.length + 1 ∧
    ∀ n reps, GroupAt ctx.inst n s.objs.length t.resel → ObjsLinked n reps s.objs →
      ObjsLinked n (repsWith c reps s.objs.length) t.objs

theorem stepLinks_append {c : UInt8} {o : FklRegexObj} (hobjs : t.objs = s.objs ++ [o])
    (ho : ∀ n reps, GroupAt ctx.inst n s.objs.length t.resel →
      ObjLinked n (repsWith c reps s.objs.length) s.objs.length o) : StepLinks ctx c s t := by
  refine ⟨by rw [hobjs, List.length_append]; rfl, fun n reps hgroup h => ?_⟩
  rw [hobjs]
  exact (h.mono (subset_repsWith c reps _)).append (ho n reps hgroup)

/-- Most objects go on at the next one, and fail with their group. -/
theorem stepLinks_plain {c : UInt8} {arg : Nat} {s' : EmitState}
    (hrun : plainObj ctx type arg s' = done t) (hobjs : s'.objs = s.objs)
    (hrep : isRepeat type = false) : StepLinks ctx c s t := by
  obtain ⟨cur, hcur, rfl⟩ := plainObj_done hrun
  refine stepLinks_append (o := ⟨type, s'.objs.length + 1, cur.failoff, arg⟩) (by rw [hobjs])
    fun n reps hgroup => ?_
  rw [hobjs]
  exact ⟨hgroup.lt, fun _ => Nat.lt_succ_self _, Or.inl (hgroup.failoff hcur),
    fun h => by rw [hrep] at h; cases h⟩

/-- A repetition goes back to its operand, which fails to it. -/
theorem stepLinks_repeat {c : UInt8} {objs : List FklRegexObj}
    (hrun : repeatObj ctx type s = done objs)
    (htype : type = .questionmark ∨ isRepeat type = true ∧ (c = ch '*' ∨ c = ch '+')) :
    StepLinks ctx c s { s with objs } := by
  unfold repeatObj at hrun
  by_cases hfirst : s.objs.length = 0
  · rw [if_pos hfirst] at hrun
    cases hrun
  rw [if_neg hfirst] at hrun
  obtain ⟨prev, hprev, hrun⟩ := bind_eq_done hrun
  obtain ⟨cur, hcur, hrun⟩ := bind_eq_done hrun
  -- whatever the object is, the one before it fails to it
  have hlinks : ∀ o : FklRegexObj, o.type = type → o.falseoffset = cur.failoff →
      (∀ n, GroupAt ctx.inst n s.objs.length s.resel →
        o.trueoffset ≤ n ∧ (isRepeat type = false → s.objs.length < o.trueoffset)) →
      StepLinks ctx c s { s with
        objs :=
          s.objs.set (s.objs.length - 1) { prev with falseoffset := s.objs.length } ++ [o] } := by
    intro o ho hfail htrue
    refine ⟨by simp, fun n reps hgroup h => ?_⟩
    refine ((h.mono (subset_repsWith c reps _)).redirect (access_eq_done hprev) (by omega)
      hgroup.lt.le).append ?_
    rw [List.length_set]
    refine ⟨(htrue n hgroup).1, ho ▸ (htrue n hgroup).2,
      Or.inl (hfail ▸ hgroup.failoff (access_eq_done hcur)), fun hrep => ?_⟩
    rcases htype with hq | ⟨-, hc⟩
    · rw [ho, hq] at hrep
      cases hrep
    · rw [repsWith, if_pos hc]
      exact Finset.mem_insert_self _ _
  split_ifs at hrun with hq hend
  · cases hrun
    exact hlinks _ rfl rfl fun n hgroup => ⟨hgroup.lt, fun _ => Nat.lt_succ_self _⟩
  · obtain ⟨group, hmem, hrun⟩ := bind_eq_done hrun
    cases hrun
    refine hlinks _ rfl rfl fun n hgroup =>
      ⟨hgroup.trueoff _ (List.mem_of_getElem? (access_eq_done hmem)), fun h => ?_⟩
    rw [(htype.resolve_left hq).1] at h
    cases h
  · cases hrun
    refine hlinks _ rfl rfl fun n hgroup => ⟨(Nat.sub_le _ _).trans hgroup.lt.le, fun h => ?_⟩
    rw [(htype.resolve_left hq).1] at h
    cases h

end

/-- The second pass over one piece. -/
structure EmitStep (ctx : ReCompileCtx) (c : UInt8) (s t : EmitState) : Prop where
  opening : c = ch '(' → t.ecnt = s.ecnt + 1 ∧ t.resel = s.ecnt + 1
  closing : c = ch ')' → t.ecnt = s.ecnt ∧ ∃ cur, ctx.inst[s.resel]? = some cur ∧ t.resel = cur.p
  other : c ≠ ch '(' → c ≠ ch ')' → t.ecnt = s.ecnt ∧ t.resel = s.resel
  links : StepLinks ctx c s t

theorem emitStep_of_done {ctx : ReCompileCtx} {fuel : Nat} {junk : Nat → Nat → UInt8} {c : UInt8}
    {s t : EmitState} (h : emitStep ctx fuel junk c s = done t) :
    t.pat = restOf c s.pat ∧ EmitStep ctx c s t := by
  by_cases hesc : c = backslash
  · subst hesc
    rw [emitStep_esc] at h
    split_ifs at h
    obtain ⟨arg, -, h⟩ := bind_eq_done h
    have hlinks := stepLinks_plain (c := backslash) (s := s) h rfl
      (by unfold escType; split_ifs <;> rfl)
    obtain ⟨cur, -, rfl⟩ := plainObj_done h
    exact ⟨rfl, (absurd · (by decide)), (absurd · (by decide)), fun _ _ => ⟨rfl, rfl⟩, hlinks⟩
  by_cases hclass : c = ch '['
  · subst hclass
    rw [emitStep_class] at h
    obtain ⟨first, -, h⟩ := bind_eq_done h
    obtain ⟨n, hn, h⟩ := bind_eq_done h
    obtain ⟨out, -, h⟩ := bind_eq_done h
    by_cases hroom : HasBytes ctx.objs ctx.strln (s.patrns.length + out.patrns.length)
    swap
    · rw [if_pos hroom] at h
      cases h
    rw [if_neg (not_not.mpr hroom)] at h
    by_cases hrej : out.rejected = true
    · rw [if_pos hrej] at h
      cases h
    rw [if_neg hrej] at h
    have hlinks := stepLinks_plain (c := ch '[') (s := s) h rfl (by split_ifs <;> rfl)
    have hrest : restOf (ch '[') s.pat = (classText s.pat).drop (n + 1) := by
      rw [restOf, if_neg (by decide), if_pos rfl, hn]
    obtain ⟨cur, -, rfl⟩ := plainObj_done h
    exact ⟨hrest.symm, (absurd · (by decide)), (absurd · (by decide)), fun _ _ => ⟨rfl, rfl⟩,
      hlinks⟩
  have hrest : restOf c s.pat = s.pat := by rw [restOf, if_neg hesc, if_neg hclass]
  by_cases hopen : c = ch '('
  · subst hopen
    rw [emitStep_opening] at h
    split_ifs at h
    have hlinks := stepLinks_plain (c := ch '(') (s := s) h rfl rfl
    obtain ⟨cur, -, rfl⟩ := plainObj_done h
    exact ⟨hrest.symm, fun _ => ⟨rfl, rfl⟩, (absurd · (by decide)), (absurd rfl ·), hlinks⟩
  by_cases hclose : c = ch ')'
  · subst hclose
    rw [emitStep_closing] at h
    obtain ⟨cur, hcur, h⟩ := bind_eq_done h
    have hlinks := stepLinks_plain (c := ch ')') (s := s) h rfl rfl
    obtain ⟨group, -, rfl⟩ := plainObj_done h
    exact ⟨hrest.symm, (absurd · (by decide)), fun _ => ⟨rfl, cur, access_eq_done hcur, rfl⟩,
      fun _ => (absurd rfl ·), hlinks⟩
  have hother : ∀ {objs}, t = { s with objs } → StepLinks ctx c s t →
      t.pat = restOf c s.pat ∧ EmitStep ctx c s t := by
    rintro objs rfl hlinks
    exact ⟨hrest.symm, (absurd · hopen), (absurd · hclose), fun _ _ => ⟨rfl, rfl⟩, hlinks⟩
  have hplain : ∀ {type arg}, plainObj ctx type arg s = done t → isRepeat type = false →
      t.pat = restOf c s.pat ∧ EmitStep ctx c s t := by
    intro type arg h hrep
    obtain ⟨cur, -, heq⟩ := plainObj_done h
    exact hother heq (stepLinks_plain h rfl hrep)
  have hrepeat : ∀ {type}, (repeatObj ctx type s >>= fun objs => done { s with objs }) = done t →
      (type = .questionmark ∨ isRepeat type = true ∧ (c = ch '*' ∨ c = ch '+')) →
        t.pat = restOf c s.pat ∧ EmitStep ctx c s t := by
    intro type h htype
    obtain ⟨objs, hrun, h⟩ := bind_eq_done h
    cases h
    exact hother rfl (stepLinks_repeat hrun htype)
  unfold emitStep at h
  dsimp only at h
  rw [if_neg hopen, if_neg hclose, if_neg hesc, if_neg hclass] at h
  by_cases hbar : c = ch '|'
  · subst hbar
    rw [if_neg (by decide), if_neg (by decide), if_neg (by decide), if_neg (by decide),
      if_neg (by decide), if_neg (by decide), if_pos rfl] at h
    by_cases hfirst : s.objs.length = 0
    · rw [if_pos hfirst] at h
      cases h
    rw [if_neg hfirst] at h
    obtain ⟨cur, hcur, h⟩ := bind_eq_done h
    obtain ⟨objs, hobjs, h⟩ := bind_eq_done h
    cases h
    obtain ⟨objs', hobjs', hlen⟩ := branchLoop_spec s.objs.length cur.trueoff cur.failoff
      (show s.objs.length - 1 < s.objs.length by omega)
    obtain rfl := ReRun.done.inj (hobjs.symm.trans hobjs')
    refine hother rfl ⟨by simp [hlen], fun n reps hgroup hlinked => ?_⟩
    obtain ⟨hfail, hle⟩ := hgroup.failoff (access_eq_done hcur)
    refine (hlinked.branchLoop (by omega) hgroup.lt.le hobjs).append ?_
    rw [hlen]
    exact ⟨hle, fun _ => hfail, Or.inl ⟨Nat.lt_succ_self _, hgroup.lt⟩, nofun⟩
  rw [if_neg hbar] at h
  split_ifs at h with h1 h2 h3 h4 h5 h6
  · exact hplain h rfl
  · cases h
    refine hother rfl (stepLinks_append rfl fun n reps hgroup => ?_)
    exact ⟨hgroup.lt, fun _ => Nat.lt_succ_self _, Or.inr ⟨Or.inr rfl, rfl⟩, nofun⟩
  · cases h
    refine hother rfl (stepLinks_append rfl fun n reps hgroup => ?_)
    exact ⟨hgroup.lt, fun _ => Nat.lt_succ_self _, Or.inr ⟨Or.inl rfl, rfl⟩, nofun⟩
  · exact hrepeat h (Or.inr ⟨rfl, Or.inl h4⟩)
  · exact hrepeat h (Or.inr ⟨rfl, Or.inr h5⟩)
  · exact hrepeat h (Or.inl rfl)
  · exact hplain h rfl

/-! Both passes. -/

/-- Both passes go over the same pieces, the first to `t` and the second to `u`. -/
inductive Passes (ctx : ReCompileCtx) (t : CountState) (u : EmitState) :
    CountState → EmitState → Prop
  | done : Passes ctx t u t u
  | step {c : UInt8} {s s' : CountState} {e e' : EmitState} (hcount : CountStep c s s')
      (hemit : EmitStep ctx c e e') (h : Passes ctx t u s'.nextObj e') : Passes ctx t u s e

theorem passes_of_runs {ctx : ReCompileCtx} {fuel fuel' n m : Nat} {junk : Nat → Nat → UInt8}
    {s t : CountState} {e u : EmitState} (hcount : compileCountLoop fuel n s = done t)
    (hemit : emitLoop ctx fuel' junk m e = done u) (hpat : e.pat = s.pat) : Passes ctx t u s e := by
  induction n generalizing m s e with
  | zero => cases hcount
  | succ n ih =>
    cases m with
    | zero => cases hemit
    | succ m =>
      cases hs : s.pat with
      | nil =>
        have hcount' : compileCountLoop fuel (n + 1) s = done s := by
          simp only [compileCountLoop, hs]
        have hemit' : emitLoop ctx fuel' junk (m + 1) e = done e := by
          simp only [emitLoop, hpat, hs]
        obtain rfl := ReRun.done.inj (hcount'.symm.trans hcount)
        obtain rfl := ReRun.done.inj (hemit'.symm.trans hemit)
        exact .done
      | cons c pat =>
        rw [compileCountLoop_cons hs] at hcount
        rw [emitLoop_cons (hpat.trans hs)] at hemit
        split_ifs at hemit
        obtain ⟨s', hstep, hcount⟩ := bind_eq_done hcount
        obtain ⟨e', hstep', hemit⟩ := bind_eq_done hemit
        obtain ⟨hpat, hc⟩ := countStep_of_done hstep
        obtain ⟨hpat', he⟩ := emitStep_of_done hstep'
        exact .step (s := s) (e := e) ⟨hc.objs, hc.stcnt, hc.opening, hc.closing, hc.other⟩
          ⟨he.opening, he.closing, he.other, he.links⟩
          (ih hcount hemit (hpat'.trans hpat.symm))

/-- The groups that are open, with those around them. -/
structure Nested (stack : List Nat) (s : CountState) : Prop where
  brcnt : s.brcnt = stack.length
  resel : s.resel = stack.headD 0
  groups : OpenGroups (s.ctx.inst.map ReInst.p) stack

def stackAfter (len : Nat) (c : UInt8) (stack : List Nat) : List Nat :=
  if c = ch '(' then len :: stack else if c = ch ')' then stack.tail else stack

theorem OpenGroups.lt_of_mem {parents stack : List Nat} {g k : Nat}
    (h : OpenGroups parents (g :: stack)) (hk : k ∈ stack) : k < g := by
  induction stack generalizing g with
  | nil => cases hk
  | cons g' stack ih =>
    obtain ⟨-, hlt, hrest⟩ := h
    rcases List.mem_cons.mp hk with rfl | hk
    · exact hlt
    · exact (ih hrest hk).trans hlt

theorem OpenGroups.pos_of_mem {parents stack : List Nat} {k : Nat} (h : OpenGroups parents stack)
    (hk : k ∈ stack) : 0 < k := by
  induction stack with
  | nil => cases hk
  | cons g stack ih =>
    rcases List.mem_cons.mp hk with rfl | hk
    · exact Nat.zero_lt_of_lt h.2.1
    · exact ih h.2.2 hk

theorem map_p_set {inst : List ReInst} {g failoff : Nat} {cur : ReInst} (h : inst[g]? = some cur) :
    (inst.set g { cur with failoff }).map ReInst.p = inst.map ReInst.p := by
  rw [List.map_set]
  exact set_eq_self (by rw [List.getElem?_map, h]; rfl)

section

variable {ctx : ReCompileCtx} {t : CountState} {u : EmitState} {stack : List Nat} {c : UInt8}
  {s s' : CountState} {e e' : EmitState}

/-- A bracket closes the group that was opened last. -/
theorem Nested.top (hs : Nested stack s) (hstep : CountStep (ch ')') s s') :
    ∃ g rest cur, stack = g :: rest ∧ s.ctx.inst[g]? = some cur ∧ cur.p = rest.headD 0 ∧
      s'.ctx.inst = s.ctx.inst.set g { cur with failoff := s.ctx.objs } ∧
        s'.brcnt = rest.length ∧ s'.resel = cur.p := by
  obtain ⟨hopen, cur, hcur, hinst, hbrcnt, hresel⟩ := hstep.closing rfl
  cases stack with
  | nil => exact absurd hs.brcnt hopen
  | cons g rest =>
    have hg : s.resel = g := hs.resel
    rw [hg] at hcur hinst
    have hp := hs.groups.1
    rw [List.getElem?_map, hcur] at hp
    exact ⟨g, rest, cur, rfl, hcur, Option.some.inj hp, hinst,
      by rw [hbrcnt, hs.brcnt, List.length_cons, Nat.add_sub_cancel], hresel⟩

theorem Nested.step (hs : Nested stack s) (hstep : CountStep c s s') :
    Nested (stackAfter s.ctx.inst.length c stack) s'.nextObj := by
  unfold stackAfter
  split_ifs with hopen hclose
  · obtain ⟨hinst, hbrcnt, hresel⟩ := hstep.opening hopen
    refine ⟨?_, hresel, ?_⟩
    · rw [CountState.nextObj, hbrcnt, hs.brcnt, List.length_cons]
    · have hmap : s'.nextObj.ctx.inst.map ReInst.p =
          nextParents (s.ctx.inst.map ReInst.p) stack .opening := by
        simp only [CountState.nextObj, hinst, List.map_append, List.map_cons, List.map_nil,
          nextParents, hs.resel]
      rw [hmap, ← List.length_map ReInst.p]
      exact hs.groups.next .opening
  · subst hclose
    obtain ⟨g, rest, cur, rfl, hcur, hp, hinst, hbrcnt, hresel⟩ := hs.top hstep
    refine ⟨hbrcnt, hresel.trans hp, ?_⟩
    rw [show s'.nextObj.ctx.inst = s'.ctx.inst from rfl, hinst, map_p_set hcur]
    exact hs.groups.2.2
  · obtain ⟨hinst, hbrcnt, hresel⟩ := hstep.other hopen hclose
    refine ⟨hbrcnt.trans hs.brcnt, hresel.trans hs.resel, ?_⟩
    rw [show s'.nextObj.ctx.inst = s'.ctx.inst from rfl, hinst]
    exact hs.groups

theorem Passes.length_le (h : Passes ctx t u s e) : e.objs.length ≤ u.objs.length := by
  induction h with
  | done => exact le_rfl
  | step _ hemit _ ih =>
    have := hemit.links.1
    omega

/-- What the first pass makes of the groups from object `j` on, of `n` ones. -/
structure GroupsDone (stack : List Nat) (s t : CountState) (j n : Nat) : Prop where
  objs : t.ctx.objs = n
  keeps : ∀ (g : Nat) cur, s.ctx.inst[g]? = some cur →
    ∃ cur', t.ctx.inst[g]? = some cur' ∧ cur'.p = cur.p
  closed : ∀ g < s.ctx.inst.length, g ∉ stack → t.ctx.inst[g]? = s.ctx.inst[g]?
  opened : ∀ g ∈ stack, ∃ cur, t.ctx.inst[g]? = some cur ∧ j ≤ cur.failoff ∧ cur.failoff ≤ n
  trueoff : ∀ cur ∈ t.ctx.inst, cur.trueoff ≤ n

theorem nextObj_eq (hobjs : s.ctx.objs = e.objs.length) (hstep : CountStep c s s')
    (hfits : e.objs.length + 1 < 2 ^ 32) : s'.nextObj.ctx.objs = e.objs.length + 1 := by
  rw [nextObj_objs hstep.objs, hobjs]
  exact Nat.mod_eq_of_lt hfits

theorem Passes.groupsDone (h : Passes ctx t u s e) (hs : Nested stack s)
    (hobjs : s.ctx.objs = e.objs.length) (hfits : u.objs.length < 2 ^ 32) (hclosed : t.brcnt = 0)
    (htrue : ∀ cur ∈ s.ctx.inst, cur.trueoff ≤ e.objs.length) :
    GroupsDone stack s t e.objs.length u.objs.length := by
  induction h generalizing stack with
  | done =>
    have hnil : stack = [] := List.length_eq_zero_iff.mp (hs.brcnt.symm.trans hclosed)
    exact ⟨hobjs, fun g cur hcur => ⟨cur, hcur, rfl⟩, fun _ _ _ => rfl,
      fun g hg => absurd (hnil ▸ hg) List.not_mem_nil, htrue⟩
  | @step c s s' e e' hcount hemit h ih =>
    have hlen : e'.objs.length = e.objs.length + 1 := hemit.links.1
    have hle := h.length_le
    have hnext : s'.nextObj.ctx.objs = e'.objs.length :=
      (nextObj_eq hobjs hcount (by omega)).trans hlen.symm
    have hnested := hs.step hcount
    by_cases hopen : c = ch '('
    · subst hopen
      have hinst := (hcount.opening rfl).1
      have hold : ∀ g < s.ctx.inst.length, s'.ctx.inst[g]? = s.ctx.inst[g]? :=
        fun g hg => by rw [hinst, List.getElem?_append_left hg]
      obtain ⟨hend, hkeeps, hsame, hopened, hbound⟩ := ih hnested hnext fun cur hcur => by
        rw [show s'.nextObj.ctx.inst = _ from hinst] at hcur
        rcases List.mem_append.mp hcur with hcur | hcur
        · have := htrue cur hcur
          omega
        · rw [List.mem_singleton.mp hcur]
          exact hobjs.le.trans (by omega)
      refine ⟨hend, fun g cur hcur => ?_, fun g hg hmem => ?_, fun g hg => ?_, hbound⟩
      · exact hkeeps g cur ((hold g (List.getElem?_eq_some_iff.mp hcur).1).trans hcur)
      · refine (hsame g ?_ (mt List.mem_cons.mp (not_or.mpr ⟨hg.ne, hmem⟩))).trans (hold g hg)
        rw [show s'.nextObj.ctx.inst = _ from hinst, List.length_append]
        omega
      · obtain ⟨cur, hcur, hfrom, hto⟩ := hopened g (List.mem_cons_of_mem _ hg)
        exact ⟨cur, hcur, by omega, hto⟩
    by_cases hclose : c = ch ')'
    · subst hclose
      obtain ⟨g, rest, cur, rfl, hcur, -, hinst, -, -⟩ := hs.top hcount
      have hg := (List.getElem?_eq_some_iff.mp hcur).1
      have hself : s'.ctx.inst[g]? = some { cur with failoff := s.ctx.objs } := by
        rw [hinst, List.getElem?_set_self hg]
      have hold : ∀ k, k ≠ g → s'.ctx.inst[k]? = s.ctx.inst[k]? :=
        fun k hk => by rw [hinst, List.getElem?_set_ne hk.symm]
      have hout : g ∉ rest := fun hmem => (hs.groups.lt_of_mem hmem).ne rfl
      have hsize : s'.nextObj.ctx.inst.length = s.ctx.inst.length := by
        rw [show s'.nextObj.ctx.inst = _ from hinst, List.length_set]
      obtain ⟨hend, hkeeps, hsame, hopened, hbound⟩ := ih hnested hnext fun cur' hcur' => by
        rw [show s'.nextObj.ctx.inst = _ from hinst] at hcur'
        rcases List.mem_or_eq_of_mem_set hcur' with hcur' | rfl
        · have := htrue cur' hcur'
          omega
        · have := htrue cur (List.mem_of_getElem? hcur)
          show cur.trueoff ≤ _
          omega
      refine ⟨hend, fun k cur' hcur' => ?_, fun k hk hmem => ?_, fun k hk => ?_, hbound⟩
      · by_cases heq : k = g
        · subst heq
          obtain rfl : cur = cur' := Option.some.inj (hcur.symm.trans hcur')
          exact hkeeps k { cur with failoff := s.ctx.objs } hself
        · exact hkeeps k cur' ((hold k heq).trans hcur')
      · obtain ⟨hne, hmem⟩ := not_or.mp (mt List.mem_cons.mpr hmem)
        exact (hsame k (hsize ▸ hk) hmem).trans (hold k hne)
      · rcases List.mem_cons.mp hk with rfl | hk
        · exact ⟨_, (hsame k (hsize ▸ hg) hout).trans hself, hobjs.ge, by
            show s.ctx.objs ≤ _
            omega⟩
        · obtain ⟨cur', hcur', hfrom, hto⟩ := hopened k hk
          exact ⟨cur', hcur', by omega, hto⟩
    · have hinst := (hcount.other hopen hclose).1
      have hstack : stackAfter s.ctx.inst.length c stack = stack := by
        rw [stackAfter, if_neg hopen, if_neg hclose]
      rw [hstack] at hnested
      have hsame : s'.nextObj.ctx.inst = s.ctx.inst := hinst
      obtain ⟨hend, hkeeps, hclosed', hopened, hbound⟩ := ih hnested hnext fun cur hcur => by
        have := htrue cur (hsame ▸ hcur)
        omega
      rw [hsame] at hkeeps hclosed'
      refine ⟨hend, hkeeps, hclosed', fun g hg => ?_, hbound⟩
      obtain ⟨cur, hcur, hfrom, hto⟩ := hopened g hg
      exact ⟨cur, hcur, by omega, hto⟩

/-- What the first pass hands to the second: the pattern as a whole is closed by its end. -/
def HandsOver (t : CountState) (ctx : ReCompileCtx) : Prop :=
  ctx.inst = t.ctx.inst.modify 0 fun cur => { cur with failoff := t.ctx.objs }

theorem HandsOver.getElem? (h : HandsOver t ctx) (g : Nat) : ctx.inst[g]? =
    (t.ctx.inst[g]?).map fun cur => if g = 0 then { cur with failoff := t.ctx.objs } else cur := by
  rw [show ctx.inst = _ from h, List.getElem?_modify]
  rcases Nat.eq_zero_or_pos g with rfl | hg
  · rfl
  · simp [hg.ne, hg.ne']

theorem HandsOver.keeps (h : HandsOver t ctx) {n j : Nat} (hdone : GroupsDone stack s t j n)
    {g : Nat} {cur : ReInst} (hcur : s.ctx.inst[g]? = some cur) :
    ∃ cur', ctx.inst[g]? = some cur' ∧ cur'.p = cur.p := by
  obtain ⟨cur', hcur', hp⟩ := hdone.keeps g cur hcur
  refine ⟨_, by rw [h.getElem?, hcur']; rfl, ?_⟩
  split_ifs
  · exact hp
  · exact hp

/-- What an object needs of its group, behind whose piece the groups of `stack` are open. -/
theorem HandsOver.groupAt (h : HandsOver t ctx) {n j g : Nat} (hs : Nested stack s)
    (hdone : GroupsDone stack s t (j + 1) n) (hj : j < n) (hg : g = s.resel) :
    GroupAt ctx.inst n j g := by
  have hresel : g = stack.headD 0 := hg.trans hs.resel
  refine ⟨hj, ?_, fun cur hmem => ?_⟩
  · cases stack with
    | nil =>
      have hlt : 0 < s.ctx.inst.length := by
        rw [← List.length_map ReInst.p]
        exact hs.groups
      obtain ⟨cur, hcur, -⟩ := hdone.keeps 0 _ (List.getElem?_eq_getElem hlt)
      refine ⟨_, by rw [hresel, List.headD_nil, h.getElem?, hcur]; rfl, ?_⟩
      show j < t.ctx.objs ∧ t.ctx.objs ≤ n
      exact ⟨hdone.objs ▸ hj, hdone.objs.le⟩
    | cons k rest =>
      obtain ⟨cur, hcur, hfrom, hle⟩ := hdone.opened k List.mem_cons_self
      have hpos := hs.groups.pos_of_mem List.mem_cons_self
      refine ⟨_, by rw [hresel, List.headD_cons, h.getElem?, hcur]; rfl, ?_⟩
      simp only [if_neg hpos.ne']
      exact ⟨hfrom, hle⟩
  · obtain ⟨k, hk⟩ := List.getElem?_of_mem hmem
    rw [h.getElem?] at hk
    obtain ⟨cur', hcur', rfl⟩ := Option.map_eq_some_iff.mp hk
    have hbound := hdone.trueoff cur' (List.mem_of_getElem? hcur')
    split_ifs
    · exact hbound
    · exact hbound

/-- Both passes stand at the same place. -/
structure Aligned (s : CountState) (e : EmitState) : Prop where
  objs : s.ctx.objs = e.objs.length
  ecnt : e.ecnt + 1 = s.ctx.inst.length
  resel : e.resel = s.resel
  stcnt : s.ctx.stcnt ≤ e.objs.length + 1
  trueoff : ∀ cur ∈ s.ctx.inst, cur.trueoff ≤ e.objs.length

theorem Aligned.step (ha : Aligned s e) (hs : Nested stack s) (hcount : CountStep c s s')
    (hemit : EmitStep ctx c e e') (hfits : e'.objs.length + 1 < 2 ^ 32)
    (hkeeps : ∀ (g : Nat) (cur : ReInst), s.ctx.inst[g]? = some cur →
      ∃ cur', ctx.inst[g]? = some cur' ∧ cur'.p = cur.p) :
    Aligned s'.nextObj e' := by
  have hlen : e'.objs.length = e.objs.length + 1 := hemit.links.1
  have hgroups : e'.ecnt + 1 = s'.ctx.inst.length ∧ e'.resel = s'.resel ∧
      ∀ cur ∈ s'.ctx.inst, cur.trueoff ≤ e.objs.length := by
    by_cases hopen : c = ch '('
    · obtain ⟨hinst, -, hresel⟩ := hcount.opening hopen
      obtain ⟨hecnt, hresel'⟩ := hemit.opening hopen
      rw [hinst, hresel, hecnt, hresel', List.length_append, ha.ecnt]
      refine ⟨rfl, rfl, fun cur hmem => ?_⟩
      rcases List.mem_append.mp hmem with hmem | hmem
      · exact ha.trueoff cur hmem
      · rw [List.mem_singleton.mp hmem]
        exact ha.objs.le
    by_cases hclose : c = ch ')'
    · subst hclose
      obtain ⟨g, rest, cur, rfl, hcur, -, hinst, -, hresel⟩ := hs.top hcount
      obtain ⟨hecnt, cur', hcur', hresel'⟩ := hemit.closing rfl
      obtain ⟨cur'', hcur'', hp⟩ := hkeeps g cur hcur
      rw [ha.resel, hs.resel, List.headD_cons, hcur''] at hcur'
      obtain rfl := Option.some.inj hcur'
      rw [hinst, hresel, hecnt, hresel', List.length_set, ha.ecnt]
      refine ⟨rfl, hp, fun cur' hmem => ?_⟩
      rcases List.mem_or_eq_of_mem_set hmem with hmem | rfl
      · exact ha.trueoff cur' hmem
      · exact ha.trueoff cur (List.mem_of_getElem? hcur)
    · obtain ⟨hinst, -, hresel⟩ := hcount.other hopen hclose
      obtain ⟨hecnt, hresel'⟩ := hemit.other hopen hclose
      rw [hinst, hresel, hecnt, hresel']
      exact ⟨ha.ecnt, ha.resel, ha.trueoff⟩
  obtain ⟨hecnt, hresel, htrue⟩ := hgroups
  refine ⟨(nextObj_eq ha.objs hcount (by omega)).trans hlen.symm, hecnt, hresel, ?_,
    fun cur hmem => ?_⟩
  · have hle := ha.stcnt
    rw [show s'.nextObj.ctx.stcnt = _ from hcount.stcnt]
    split_ifs
    · rw [u32_of_lt (by omega)]
      omega
    · omega
  · have := htrue cur hmem
    omega

theorem card_repsWith_le (reps : Finset Nat) (j : Nat) (ha : Aligned s e)
    (hcount : CountStep c s s') (hfits : e.objs.length + 2 < 2 ^ 32) :
    (repsWith c reps j).card + s.ctx.stcnt ≤ reps.card + s'.ctx.stcnt := by
  have hle := ha.stcnt
  rw [hcount.stcnt, repsWith]
  split_ifs
  · have hcard := Finset.card_insert_le j reps
    rw [u32_of_lt (by omega)]
    omega
  · exact le_rfl

/-- The offsets of all objects are those of objects, and there is a record for each repetition. -/
theorem Passes.linked (h : Passes ctx t u s e) (hs : Nested stack s) (ha : Aligned s e)
    (hfits : u.objs.length + 1 < 2 ^ 32) (hclosed : t.brcnt = 0) (hctx : HandsOver t ctx)
    {reps : Finset Nat} (hlinked : ObjsLinked u.objs.length reps e.objs) :
    ∃ reps' : Finset Nat, ObjsLinked u.objs.length reps' u.objs ∧
      reps'.card + s.ctx.stcnt ≤ reps.card + t.ctx.stcnt := by
  induction h generalizing stack reps with
  | done => exact ⟨reps, hlinked, le_rfl⟩
  | @step c s s' e e' hcount hemit h ih =>
    have hlen : e'.objs.length = e.objs.length + 1 := hemit.links.1
    have hle := h.length_le
    have hdone := (Passes.step hcount hemit h).groupsDone hs ha.objs (by omega) hclosed ha.trueoff
    have hnext := ha.step hs hcount hemit (by omega) fun g cur hcur => hctx.keeps hdone hcur
    have hnested := hs.step hcount
    have hdone' := h.groupsDone hnested hnext.objs (by omega) hclosed hnext.trueoff
    rw [hlen] at hdone'
    have hgroup := hctx.groupAt hnested hdone' (by omega) hnext.resel
    obtain ⟨reps', hlinked', hcard⟩ := ih hnested hnext (hemit.links.2 _ reps hgroup hlinked)
    have hmore := card_repsWith_le reps e.objs.length ha hcount (by omega)
    have hsame : s'.nextObj.ctx.stcnt = s'.ctx.stcnt := rfl
    exact ⟨reps', hlinked', by omega⟩

end

/-- Whatever is compiled is linked. -/
theorem linked_of_compiled {fuel : Nat} {junk : Nat → Nat → UInt8} {pattern : List UInt8}
    {ctx : ReCompileCtx} {code : FklRegexCode}
    (h : fklRegexCompileCharBuf fuel junk pattern = done (ctx, code)) :
    ∃ n reps, Linked code n reps := by
  obtain ⟨ctx', hcount, h⟩ := bind_eq_done h
  obtain ⟨u, hemit, h⟩ := bind_eq_done h
  obtain ⟨t, hloop, hcount⟩ := bind_eq_done hcount
  by_cases hclosed : t.brcnt = 0
  swap
  · rw [if_pos hclosed] at hcount
    cases hcount
  rw [if_neg (not_not.mpr hclosed)] at hcount
  by_cases hobj : HasObj ctx'.objs ctx'.strln u.objs.length
  swap
  · rw [if_pos hobj] at h
    cases h
  rw [if_neg (not_not.mpr hobj)] at h
  cases h
  cases hcount
  have hfits : u.objs.length + 1 < 2 ^ 32 :=
    Nat.lt_of_le_of_lt hobj.1 (toUnsigned_lt 32 (t.ctx.objs + 1 : Nat))
  have hnested : Nested [] ⟨pattern, ⟨[⟨0, 0, 0⟩], 0, 0, 1⟩, 0, 0⟩ := ⟨rfl, rfl, Nat.one_pos⟩
  have haligned : Aligned ⟨pattern, ⟨[⟨0, 0, 0⟩], 0, 0, 1⟩, 0, 0⟩ ⟨pattern, [], [], 0, 0⟩ :=
    ⟨rfl, rfl, rfl, le_rfl, fun cur hmem => by rw [List.mem_singleton.mp hmem]; exact le_rfl⟩
  have hempty : ObjsLinked u.objs.length ∅ [] := nofun
  obtain ⟨reps, hlinked, hcard⟩ :=
    (passes_of_runs hloop hemit rfl).linked hnested haligned hfits hclosed rfl hempty
  refine ⟨u.objs.length, reps, by rw [List.length_append]; rfl, fun i o hi => ?_, ?_⟩
  · rcases Nat.lt_or_ge i u.objs.length with hlt | hge
    · rw [List.getElem?_append_left hlt] at hi
      exact Or.inr ⟨hlt, hlinked i o hi⟩
    · rw [List.getElem?_append_right hge] at hi
      obtain rfl := List.mem_singleton.mp (List.mem_of_getElem? hi)
      exact Or.inl rfl
  · rw [Finset.card_empty] at hcard
    exact Nat.lt_of_succ_le (hcard.trans (Nat.zero_add _).le)

/-- The matcher ends on a compiled pattern, within its stack, in every run in which no object goes
back twice at one place, no repetition has two records, and no class lacks bytes. -/
theorem matchpattern_ends {fuel : Nat} {junk : Nat → Nat → UInt8} {pattern text : List UInt8}
    {ctx : ReCompileCtx} {code : FklRegexCode}
    (h : fklRegexCompileCharBuf fuel junk pattern = done (ctx, code))
    (hrun : OrderlyRun code text) : MatchEnds code text := by
  obtain ⟨n, reps, hl⟩ := linked_of_compiled h
  exact matchEnds_of_linked hl hrun

/-- The code of `a*b` -/
def starCode : FklRegexCode :=
  ⟨64, 2, [⟨.char, 1, 1, 97⟩, ⟨.star, 0, 3, 0⟩, ⟨.char, 3, 3, 98⟩, ⟨.unused, 0, 0, 0⟩], []⟩

def aab : List UInt8 := [ch 'a', ch 'a', ch 'b']

theorem matchone_ne_none {code : FklRegexCode} {o : FklRegexObj} (c : UInt8)
    (h : o.type ≠ .charClass) (h' : o.type ≠ .invCharClass) : matchone code o c ≠ none := by
  unfold matchone
  split
  case h_2 heq => exact absurd heq h
  case h_3 heq => exact absurd heq h'
  all_goals exact Option.some_ne_none _

theorem starCode_orderly : OrderlyRun starCode aab := by
  have hend : varsAt starCode aab 5 = none := by decide
  have hlt : ∀ i s, varsAt starCode aab i = some s → i < 5 := fun i s hs => by
    by_contra hge
    cases (iterAt_none hend (not_lt.mp hge)).symm.trans hs
  have happart : ∀ i < 5, ∀ j < 5, i < j →
      ((varsAt starCode aab i).map fun s => (s.stp.offset, s.stp.st)) ≠
        (varsAt starCode aab j).map fun s => (s.stp.offset, s.stp.st) := by decide
  have hpush : ∀ i < 5, ((varsAt starCode aab i).map MatchVars.sp).getD 0 <
      ((varsAt starCode aab (i + 1)).map MatchVars.sp).getD 0 → i = 3 := by decide
  have hpushes : ∀ i s, varsAt starCode aab i = some s → Pushes starCode aab s → i = 3 := by
    rintro i s hs ⟨t, ht, hsp⟩
    refine hpush i (hlt i s hs) ?_
    rw [varsAt_succ hs, hs, ht]
    exact hsp
  refine ⟨fun i j s t hij hs ht _ _ hoffset _ _ hst => ?_, fun i j s t hij hs ht hps hpt => ?_,
    fun i s hs cur o c hcur ho _ => ?_⟩
  · refine happart i (hlt i s hs) j (hlt j t ht) hij ?_
    rw [hs, ht, Option.map_some, Option.map_some, hoffset, hst]
  · have hi := hpushes i s hs hps
    have hj := hpushes j t ht hpt
    omega
  · have hclass : ∀ o ∈ starCode.objs, o.type ≠ .charClass ∧ o.type ≠ .invCharClass := by decide
    have hmem : o ∈ starCode.objs := by
      split_ifs at ho
      · exact List.mem_of_getElem? ho
      · exact ho ▸ List.mem_of_getElem? hcur
    exact matchone_ne_none c (hclass o hmem).1 (hclass o hmem).2

theorem matchpattern_ends_star : MatchEnds starCode aab :=
  matchpattern_ends (rfl : fklRegexCompileCharBuf 1 (fun _ _ => 0) [ch 'a', ch '*', ch 'b'] =
    done (_, starCode)) starCode_orderly

theorem iterAt_none_of_matchLoop {code : FklRegexCode} {text : List UInt8} {fuel : Nat}
    {s : MatchVars} {res : Nat × Bool} (h : matchLoop code text fuel s = done res) :
    ∃ n, iterAt (nextVars code text) s n = none := by
  induction fuel generalizing s with
  | zero => cases h
  | succ fuel ih =>
    obtain ⟨r, hr, h⟩ := bind_eq_done h
    cases r with
    | next t =>
      obtain ⟨n, hn⟩ := ih h
      exact ⟨n + 1, (iterAt_succ (by rw [nextVars, hr])).trans hn⟩
    | returned len last => exact ⟨1, by rw [iterAt, iterAt, Option.bind_some, nextVars, hr]⟩

/-- A run that comes back to where it was never ends. -/
theorem not_matchEnds_of_circle {code : FklRegexCode} {text : List UInt8}
    (h : RunsInCircle (nextVars code text) (.start text.length)) : ¬MatchEnds code text := by
  rintro ⟨⟨fuel, res, hres⟩, -⟩
  obtain ⟨n, hn⟩ := iterAt_none_of_matchLoop hres
  exact h.iterAt_ne_none n hn

/-- `.` on the empty text and `(a*)*` on `b` run for ever, and with `(a*b)*` on `ababab` the stack is
too small. -/
theorem not_matchEnds :
    (∃ ctx code, fklRegexCompileCharBuf 1 (fun _ _ => 0) [ch '.'] = done (ctx, code) ∧
      ¬MatchEnds code []) ∧
    (∃ ctx code, fklRegexCompileCharBuf 1 (fun _ _ => 0)
        [ch '(', ch 'a', ch '*', ch ')', ch '*'] = done (ctx, code) ∧ ¬MatchEnds code [ch 'b']) ∧
    ∃ ctx code, fklRegexCompileCharBuf 1 (fun _ _ => 0)
        [ch '(', ch 'a', ch '*', ch 'b', ch ')', ch '*'] = done (ctx, code) ∧
      ¬MatchEnds code [ch 'a', ch 'b', ch 'a', ch 'b', ch 'a', ch 'b'] := by
  refine ⟨⟨_, _, rfl, not_matchEnds_of_circle ⟨0, 1, _, rfl, by decide, rfl⟩⟩,
    ⟨_, _, rfl, not_matchEnds_of_circle ⟨5, 5, _, rfl, by decide, rfl⟩⟩, _, _, rfl, fun h => ?_⟩
  exact absurd (h.2 13 _ rfl) (by decide)

end FakeLisp.Regex
