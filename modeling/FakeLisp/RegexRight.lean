import FakeLisp.RegexEmit

/-! When both passes of the compiler do what they should. -/

namespace FakeLisp.Regex

open ReRun

/-- The objects that `ctx` has when the first pass ends. -/
def countedObjs (ps : List RePiece) : Nat := (ps.length + 1) % 2 ^ 32

/-- The class bytes that `ctx` has when the first pass ends. -/
def countedBytes (ps : List RePiece) : Nat := classLens ps % 2 ^ 32

/-- The second pass does what it should for pieces that the first accepts. Where 32 bits are enough
for the sizes, there is room, and it is asked whether the pieces are given up, or else whether the
repetitions have operands and nothing follows an escape in its chunk of a class. -/
def EmitRight (junk : Nat → Nat → UInt8) (ps : List RePiece) : Prop :=
  if (ps.length + 1) * sizeofFklRegexObj + classLens ps < 2 ^ 32 then
    refused junk 0 ps = false → hasOperands false (tokensOf ps) = true ∧
      ∀ text, .charClass text ∈ ps → EscapesLast uint8Max text
  else
    HasRoom junk (countedObjs ps) (countedBytes ps) 0 0 ps ∧
      (refused junk 0 ps = false → hasOperands false (tokensOf ps) = true ∧
        HasObj (countedObjs ps) (countedBytes ps) ps.length ∧
          bytesFrom junk 0 ps = countedBytes ps)

/-! The run as a whole. -/

theorem reached_of_balanced {depth : Nat} {ps : List RePiece}
    (h : balanced depth (tokensOf ps) = true) : reached depth ps = ps := by
  induction ps generalizing depth with
  | nil => rfl
  | cons p ps ih =>
    have hcons : balanced depth (p.token :: tokensOf ps) = true := h
    unfold reached
    cases ht : p.token with
    | closing =>
      rw [ht] at hcons
      cases depth with
      | zero => exact absurd (show false = true from hcons) Bool.false_ne_true
      | succ depth => simp [ih (show balanced depth (tokensOf ps) = true from hcons)]
    | opening =>
      rw [ht] at hcons
      simp [ih (show balanced (depth + 1) (tokensOf ps) = true from hcons)]
    | repetition =>
      rw [ht] at hcons
      simp [ih (show balanced depth (tokensOf ps) = true by cases depth <;> exact hcons)]
    | bar =>
      rw [ht] at hcons
      simp [ih (show balanced depth (tokensOf ps) = true by cases depth <;> exact hcons)]
    | atom =>
      rw [ht] at hcons
      simp [ih (show balanced depth (tokensOf ps) = true by cases depth <;> exact hcons)]

/-- What the second pass needs and delivers, as it counts. -/
def EmitSafe (junk : Nat → Nat → UInt8) (ps : List RePiece) : Prop :=
  HasRoom junk (countedObjs ps) (countedBytes ps) 0 0 ps ∧
    (refused junk 0 ps = false → HasObj (countedObjs ps) (countedBytes ps) ps.length)

/-- How compiling a pattern ends that the first pass accepts. -/
structure Compiled (junk : Nat → Nat → UInt8) (ps : List RePiece)
    (r : ReRun (ReCompileCtx × FklRegexCode)) : Prop where
  fault : ¬EmitSafe junk ps → r = .fault
  rejected : EmitSafe junk ps → refused junk 0 ps = true → r = .rejected
  done : EmitSafe junk ps → refused junk 0 ps = false → ∃ ctx code, r = .done (ctx, code) ∧
    code.objs.length = ctx.objs ∧ ctx.strln = countedBytes ps ∧
      code.patrns.length = bytesFrom junk 0 ps

/-- With a place for the object at the end, the objects were counted. -/
theorem countedObjs_eq {ps : List RePiece} {strln : Nat}
    (h : HasObj (countedObjs ps) strln ps.length) : countedObjs ps = ps.length + 1 := by
  have hlt : ps.length < countedObjs ps := h.1
  have hle : countedObjs ps ≤ ps.length + 1 := Nat.mod_le _ _
  omega

theorem fklRegexCompileCharBuf_spec (fuel : Nat) (junk : Nat → Nat → UInt8) {pattern : List UInt8}
    {ps : List RePiece} {e : ReEnd} (h : Splits pattern ps e) :
    (¬CountSafe (Measured fuel) e 0 1 ps ∧ (fklRegexCompileCharBuf fuel junk pattern = .outOfFuel ∨
        fklRegexCompileCharBuf fuel junk pattern = .fault)) ∨
      CountSafe (Measured fuel) e 0 1 ps ∧
        if e = .complete ∧ balanced 0 (tokensOf ps) = true then
          Compiled junk ps (fklRegexCompileCharBuf fuel junk pattern)
        else fklRegexCompileCharBuf fuel junk pattern = .rejected := by
  unfold fklRegexCompileCharBuf
  rcases compileCount_spec fuel h with ⟨hno, hrun | hrun⟩ | ⟨hsafe, hrun⟩
  · exact Or.inl ⟨hno, Or.inl (by rw [hrun, outOfFuel_bind])⟩
  · exact Or.inl ⟨hno, Or.inr (by rw [hrun, fault_bind])⟩
  · refine Or.inr ⟨hsafe, ?_⟩
    split_ifs with hgood
    · rw [if_pos hgood] at hrun
      obtain ⟨he, hbalanced⟩ := hgood
      obtain ⟨ctx, hrun, hobjs, hstrln, hinst⟩ := hrun
      have hsized : ∀ text, .charClass text ∈ ps → Measured fuel text := by
        have hwalks := hsafe.walks
        rwa [reached_of_balanced hbalanced] at hwalks
      have hstart : Emitting ctx [0] [] ⟨pattern, [], [], 0, 0⟩ :=
        ⟨rfl, rfl, Nat.one_pos, nofun⟩
      have hloop : EmitOutcome ctx junk ps _ (emitLoop ctx fuel junk (pattern.length + 1) _) :=
        emitLoop_spec h he (Nat.lt_succ_self _) rfl hinst.symm hbalanced hsized hstart
      rw [hrun, done_bind]
      generalize emitLoop ctx fuel junk (pattern.length + 1) ⟨pattern, [], [], 0, 0⟩ = r at hloop
      have hobjs' : ctx.objs = countedObjs ps := hobjs
      have hstrln' : ctx.strln = countedBytes ps := hstrln
      rw [hobjs', hstrln']
      cases hloop with
      | fault hno =>
        rw [hobjs', hstrln'] at hno
        exact ⟨fun _ => rfl, fun hs => absurd hs.1 hno, fun hs => absurd hs.1 hno⟩
      | rejected hroom href =>
        rw [hobjs', hstrln'] at hroom
        have href' : refused junk 0 ps = true := href
        refine ⟨fun hno => absurd ⟨hroom, fun hfalse => ?_⟩ hno, fun _ _ => rfl, fun _ hfalse => ?_⟩
        · rw [href'] at hfalse
          cases hfalse
        · rw [href'] at hfalse
          cases hfalse
      | @done t hroom href hlen hbytes =>
        rw [hobjs', hstrln'] at hroom
        have href' : refused junk 0 ps = false := href
        have hlen' : t.objs.length = ps.length := hlen.trans (Nat.zero_add _)
        rw [done_bind, hlen']
        by_cases hobj : HasObj (countedObjs ps) (countedBytes ps) ps.length
        · rw [if_neg (not_not.mpr hobj)]
          refine ⟨fun hno => absurd ⟨hroom, fun _ => hobj⟩ hno, fun _ htrue => ?_, fun _ _ => ?_⟩
          · rw [href'] at htrue
            cases htrue
          · refine ⟨_, _, rfl, ?_, hstrln', hbytes.trans (Nat.zero_add _)⟩
            rw [hobjs', List.length_append, hlen', List.length_singleton]
            exact (countedObjs_eq hobj).symm
        · rw [if_pos hobj]
          exact ⟨fun _ => rfl, fun hs htrue => absurd htrue (by rw [href']; decide),
            fun hs hfalse => absurd (hs.2 hfalse) hobj⟩
    · rw [if_neg hgood] at hrun
      rw [hrun, rejected_bind]

/-! Classes. -/

theorem walkEnds_of_measured {fuel : Nat} {text : List UInt8} (h : Measured fuel text) :
    WalkEnds uint8Max text := by
  obtain ⟨n, hn⟩ := h
  exact exists_classCount_iff.mp ⟨n, classCount_of_fuel hn⟩

theorem measured_of_lt {fuel : Nat} {text : List UInt8} (h : WalkEnds uint8Max text)
    (hfuel : text.length < fuel) : Measured fuel text := by
  obtain ⟨s, hrun⟩ := h.classLen_ends 1
  exact ⟨s.2, by rw [computeCharClassLen, hrun fuel hfuel]; rfl⟩

/-- Some fuel is enough for all classes. -/
theorem exists_measured {ps : List RePiece}
    (h : ∀ text, .charClass text ∈ ps → WalkEnds uint8Max text) :
    ∃ fuel, ∀ text, .charClass text ∈ ps → Measured fuel text := by
  obtain ⟨fuel, hfuel⟩ : ∃ fuel, ∀ text, RePiece.charClass text ∈ ps → text.length < fuel := by
    clear h
    induction ps with
    | nil => exact ⟨0, fun _ hmem => absurd hmem List.not_mem_nil⟩
    | cons p ps ih =>
      obtain ⟨fuel, hfuel⟩ := ih
      cases p with
      | charClass text =>
        refine ⟨max (text.length + 1) fuel, fun text' hmem => ?_⟩
        rcases List.mem_cons.mp hmem with heq | hmem
        · obtain rfl := RePiece.charClass.inj heq
          omega
        · have := hfuel text' hmem
          omega
      | char c => exact ⟨fuel, fun text hmem => hfuel text (by simpa using hmem)⟩
      | esc esc => exact ⟨fuel, fun text hmem => hfuel text (by simpa using hmem)⟩
  exact ⟨fuel, fun text hmem => measured_of_lt (h text hmem) (hfuel text hmem)⟩

/-- No more bytes are written than counted, and as many just where the escapes allow it. -/
theorem pieceBytes_spec (junk : Nat → UInt8) {p : RePiece}
    (h : ∀ text, p = .charClass text → WalkEnds uint8Max text) :
    pieceBytes junk p ≤ pieceLen p ∧ (refuses junk p = false →
      ((∀ text, p = .charClass text → EscapesLast uint8Max text) ↔
        pieceBytes junk p = pieceLen p)) := by
  cases p with
  | char c => exact ⟨le_rfl, fun _ => ⟨fun _ => rfl, fun _ => nofun⟩⟩
  | esc esc => exact ⟨le_rfl, fun _ => ⟨fun _ => rfl, fun _ => nofun⟩⟩
  | charClass text =>
    obtain ⟨n, hn⟩ := exists_classCount_iff.mpr (h text rfl)
    obtain ⟨out, hout, hle, hiff⟩ := charBufToCharClass_sizes junk hn
    have hwrite : classWrite junk text = some out := hout
    have hlen : pieceLen (.charClass text) = n := by rw [pieceLen, hn]; rfl
    have hbytes : pieceBytes junk (.charClass text) = out.patrns.length := by
      rw [pieceBytes, hwrite]
      rfl
    have href : refuses junk (.charClass text) = out.rejected := by
      rw [refuses, hwrite]
      rfl
    rw [hlen, hbytes, href]
    refine ⟨hle, fun hrej => (Iff.trans ?_ (hiff hrej))⟩
    exact ⟨fun h => h text rfl, fun h text' heq => RePiece.charClass.inj heq ▸ h⟩

/-! Sizes that fit. -/

section

variable {junk : Nat → Nat → UInt8}

/-- Fewer bytes are written than counted just where something follows an escape in its chunk. -/
theorem bytesFrom_spec {ps : List RePiece}
    (h : ∀ text, .charClass text ∈ ps → WalkEnds uint8Max text) (j : Nat) :
    bytesFrom junk j ps ≤ classLens ps ∧ (refused junk j ps = false →
      ((∀ text, .charClass text ∈ ps → EscapesLast uint8Max text) ↔
        bytesFrom junk j ps = classLens ps)) := by
  induction ps generalizing j with
  | nil => exact ⟨le_rfl, fun _ => ⟨fun _ => rfl, fun _ _ hmem => absurd hmem List.not_mem_nil⟩⟩
  | cons p ps ih =>
    obtain ⟨hle, hiff⟩ := pieceBytes_spec (junk j) (p := p)
      fun text heq => h text (heq ▸ List.mem_cons_self)
    obtain ⟨hle', hiff'⟩ := ih (fun text hmem => h text (List.mem_cons_of_mem p hmem)) (j + 1)
    have hbytes : bytesFrom junk j (p :: ps) =
        pieceBytes (junk j) p + bytesFrom junk (j + 1) ps := rfl
    have hlens : classLens (p :: ps) = pieceLen p + classLens ps := by
      simp only [classLens, List.map_cons, List.sum_cons]
    rw [hbytes, hlens]
    refine ⟨Nat.add_le_add hle hle', fun href => ?_⟩
    rw [refused, Bool.or_eq_false_iff, Bool.or_eq_false_iff] at href
    have hclasses : (∀ text, .charClass text ∈ p :: ps → EscapesLast uint8Max text) ↔
        (∀ text, p = .charClass text → EscapesLast uint8Max text) ∧
          ∀ text, .charClass text ∈ ps → EscapesLast uint8Max text := by
      simp only [List.mem_cons, or_imp, forall_and, eq_comm]
    rw [hclasses, hiff href.1.2, hiff' href.2]
    omega

/-- There is room where 32 bits are enough for the sizes. -/
theorem hasRoom_of_le {objs strln : Nat} (htotal : totalsize objs strln = objs * 16 + strln)
    {ps : List RePiece} (h : ∀ text, .charClass text ∈ ps → WalkEnds uint8Max text) {j n : Nat}
    (hj : j + ps.length < objs) (hn : n + classLens ps ≤ strln) :
    HasRoom junk objs strln j n ps := by
  induction ps generalizing j n with
  | nil => trivial
  | cons p ps ih =>
    rw [List.length_cons] at hj
    have hlens : classLens (p :: ps) = pieceLen p + classLens ps := by
      simp only [classLens, List.map_cons, List.sum_cons]
    rw [hlens] at hn
    have hle := (pieceBytes_spec (junk j) (p := p)
      fun text heq => h text (heq ▸ List.mem_cons_self)).1
    refine Or.inr ⟨⟨by omega, ?_⟩, fun _ _ => ?_, Or.inr ?_⟩
    · rw [htotal, sizeofFklRegexObj]
      omega
    · rw [HasBytes, htotal, sizeofFklRegexObj]
      omega
    · exact ih (fun text hmem => h text (List.mem_cons_of_mem p hmem)) (by omega) (by omega)

/-- What the second pass needs and delivers, whether or not 32 bits are enough. -/
theorem emitRight_iff {ps : List RePiece}
    (h : ∀ text, .charClass text ∈ ps → WalkEnds uint8Max text) :
    EmitRight junk ps ↔ EmitSafe junk ps ∧ (refused junk 0 ps = false →
      hasOperands false (tokensOf ps) = true ∧ bytesFrom junk 0 ps = countedBytes ps) := by
  unfold EmitRight EmitSafe
  split_ifs with hfits
  · rw [sizeofFklRegexObj] at hfits
    have hobjs : countedObjs ps = ps.length + 1 := Nat.mod_eq_of_lt (by omega)
    have hstrln : countedBytes ps = classLens ps := Nat.mod_eq_of_lt (by omega)
    have hpatoff : firstPatoff (ps.length + 1) = (ps.length + 1) * 16 := by
      rw [firstPatoff, sizeofFklRegexObj]
      exact u32_of_lt (by omega)
    have htotal : totalsize (ps.length + 1) (classLens ps) =
        (ps.length + 1) * 16 + classLens ps := by
      rw [totalsize, hpatoff]
      exact u32_of_lt hfits
    rw [hobjs, hstrln]
    have hroom : HasRoom junk (ps.length + 1) (classLens ps) 0 0 ps :=
      hasRoom_of_le htotal h (by omega) (by omega)
    have hobj : HasObj (ps.length + 1) (classLens ps) ps.length := by
      refine ⟨Nat.lt_succ_self _, ?_⟩
      rw [htotal, sizeofFklRegexObj]
      omega
    simp only [hroom, hobj, implies_true, and_self, true_and]
    refine forall_congr' fun href => and_congr_right fun _ => ?_
    exact (bytesFrom_spec h 0).2 href
  · constructor
    · exact fun ⟨hroom, hdone⟩ => ⟨⟨hroom, fun href => (hdone href).2.1⟩,
        fun href => ⟨(hdone href).1, (hdone href).2.2⟩⟩
    · exact fun ⟨⟨hroom, hobj⟩, hdone⟩ =>
        ⟨hroom, fun href => ⟨(hdone href).1, hobj href, (hdone href).2⟩⟩

end

theorem CountSafe.imp {ends ends' : List UInt8 → Prop} {e : ReEnd} {depth n : Nat}
    {ps : List RePiece} (h : CountSafe ends e depth n ps)
    (himp : ∀ text, .charClass text ∈ reached depth ps → ends' text) :
    CountSafe ends' e depth n ps :=
  ⟨himp, h.groups, h.closed⟩

/-- A pattern is compiled as it should be just where the first pass is safe, and the second right
for what the first accepts. -/
theorem compileRight_iff (junk : Nat → Nat → UInt8) (pattern : List UInt8) :
    CompileRight junk pattern ↔
      CountSafe (WalkEnds uint8Max) (rePieces pattern).2 0 1 (rePieces pattern).1 ∧
        ((rePieces pattern).2 = .complete →
          balanced 0 (tokensOf (rePieces pattern).1) = true →
            EmitRight junk (rePieces pattern).1) := by
  have hsplits := splits_rePieces pattern
  generalize (rePieces pattern).1 = ps at hsplits
  generalize (rePieces pattern).2 = e at hsplits
  have hmalformed := hsplits.malformed_iff
  have hwalks : CountSafe (WalkEnds uint8Max) e 0 1 ps → balanced 0 (tokensOf ps) = true →
      ∀ text, .charClass text ∈ ps → WalkEnds uint8Max text := by
    intro hsafe hbalanced
    have h := hsafe.walks
    rwa [reached_of_balanced hbalanced] at h
  constructor
  · rintro ⟨fuel, r, rfl, hfuel, hfault, hsizes, hrejected⟩
    rcases fklRegexCompileCharBuf_spec fuel junk hsplits with ⟨-, hbad⟩ | ⟨hsafe, hrun⟩
    · exact absurd hbad (not_or.mpr ⟨hfuel, hfault⟩)
    have hsafe' : CountSafe (WalkEnds uint8Max) e 0 1 ps :=
      hsafe.imp fun text hmem => walkEnds_of_measured (hsafe.walks text hmem)
    refine ⟨hsafe', fun he hbalanced => (emitRight_iff (hwalks hsafe' hbalanced)).mpr ?_⟩
    rw [if_pos ⟨he, hbalanced⟩] at hrun
    have hemit : EmitSafe junk ps := not_not.mp fun hno => hfault (hrun.fault hno)
    refine ⟨hemit, fun href => ?_⟩
    obtain ⟨ctx, code, hdone, hobjs, hstrln, hbytes⟩ := hrun.done hemit href
    refine ⟨Bool.not_eq_false _ ▸ fun hno => ?_, ?_⟩
    · have hnull := hrejected (hmalformed.mpr (Or.inr (Or.inr hno)))
      rw [hdone] at hnull
      cases hnull
    · rw [← hbytes, ← hstrln]
      exact (hsizes ctx code hdone).2
  · rintro ⟨hsafe, hemit⟩
    obtain ⟨fuel, hfuel⟩ : ∃ fuel, ∀ text, .charClass text ∈ reached 0 ps → Measured fuel text :=
      exists_measured hsafe.walks
    rcases fklRegexCompileCharBuf_spec fuel junk hsplits with ⟨hno, -⟩ | ⟨-, hrun⟩
    · exact absurd (hsafe.imp hfuel) hno
    refine ⟨fuel, _, rfl, ?_⟩
    generalize fklRegexCompileCharBuf fuel junk pattern = r at hrun
    have hnull : r = .rejected → r ≠ .outOfFuel ∧ r ≠ .fault ∧ (∀ ctx code, r = .done (ctx, code) →
        code.objs.length = ctx.objs ∧ code.patrns.length = ctx.strln) ∧
          (Malformed pattern → r = .rejected) := by
      rintro rfl
      exact ⟨nofun, nofun, nofun, fun _ => rfl⟩
    split_ifs at hrun with hgood
    · obtain ⟨hsafe', hdone⟩ :=
        (emitRight_iff (hwalks hsafe hgood.2)).mp (hemit hgood.1 hgood.2)
      cases href : refused junk 0 ps with
      | true => exact hnull (hrun.rejected hsafe' href)
      | false =>
        obtain ⟨hoperands, hcount⟩ := hdone href
        obtain ⟨ctx, code, rfl, hobjs, hstrln, hbytes⟩ := hrun.done hsafe' href
        refine ⟨nofun, nofun, ?_, fun hbad => ?_⟩
        · rintro _ _ ⟨⟩
          exact ⟨hobjs, hbytes.trans (hcount.trans hstrln.symm)⟩
        · rcases hmalformed.mp hbad with he | hbalanced | hno
          · exact absurd hgood.1 he
          · exact absurd hgood.2 (Bool.eq_false_iff.mp hbalanced)
          · exact absurd hoperands (Bool.eq_false_iff.mp hno)
    · exact hnull hrun

/-- `[a` -/
theorem not_compileRight_openClass : ¬∀ junk pattern, CompileRight junk pattern := by
  intro h
  obtain ⟨fuel, r, hrun, -, hfault, -⟩ := h (fun _ _ => 0) [ch '[', ch 'a']
  exact hfault (hrun ▸ rfl)

end FakeLisp.Regex
