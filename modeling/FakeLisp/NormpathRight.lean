import FakeLisp.Normpath

/-! Normalization in place gives the normal path: between two components the bytes written are the
root and the components kept, each with a separator behind it. -/

namespace FakeLisp

/-- The root and the components kept so far. -/
def stackBytes (n : Nat) (comps : List PathComp) : List UInt8 :=
  List.replicate n pathSep ++ (comps.map (· ++ [pathSep])).flatten

variable {n pEnd : Nat} {s : NormState} {out rem w rest : List UInt8} {c : UInt8}
  {comps : List PathComp} {comp : PathComp} {buf : Nat → UInt8}

theorem stackBytes_concat (n : Nat) (comps : List PathComp) (comp : PathComp) :
    stackBytes n (comps ++ [comp]) = stackBytes n comps ++ comp ++ [pathSep] := by
  simp [stackBytes]

theorem stackBytes_intercalate (n : Nat) (comps : List PathComp) (comp : PathComp) :
    stackBytes n comps ++ comp =
      List.replicate n pathSep ++ [pathSep].intercalate (comps ++ [comp]) := by
  rw [stackBytes, List.append_assoc]
  congr 1
  induction comps with
  | nil => simp
  | cons c comps ih =>
    rw [List.map_cons, List.flatten_cons, List.append_assoc, ih, List.cons_append,
      List.intercalate_cons_of_ne_nil (by simp)]

theorem length_stackBytes_le (n : Nat) (comps : List PathComp) : n ≤ (stackBytes n comps).length := by
  simp [stackBytes]

/-- What stands in front of a component: nothing, or a separator behind `minP2`. -/
theorem stackBytes_cases (n : Nat) (comps : List PathComp) :
    n = 0 ∧ stackBytes n comps = [] ∨ ∃ front, stackBytes n comps = front ++ [pathSep] := by
  cases comps using List.reverseRecOn with
  | nil =>
    cases n with
    | zero => exact Or.inl ⟨rfl, rfl⟩
    | succ n => exact Or.inr ⟨List.replicate n pathSep, by simp [stackBytes, List.replicate_succ']⟩
  | append_singleton comps c => exact Or.inr ⟨_, stackBytes_concat n comps c⟩

/-! ## Going back over a component -/

theorem backSeps_self (buf : Nat → UInt8) (m : Nat) : backSeps buf m m = m := by
  cases m with
  | zero => rfl
  | succ m => rw [backSeps, if_pos rfl]

theorem backComp_self (buf : Nat → UInt8) (m : Nat) : backComp buf m m = m := by
  cases m with
  | zero => rfl
  | succ m => rw [backComp, if_pos rfl]

/-- One separator behind a component is passed, and the component's last byte. -/
theorem backSeps_eq {front : List UInt8} {x : UInt8} {m : Nat}
    (h : CellsAt buf 0 (front ++ [x, pathSep])) (hx : x ≠ pathSep) (hm : m ≤ front.length) :
    backSeps buf m (front.length + 1 + 1) = front.length := by
  obtain ⟨hlast, hsep, -⟩ := by simpa only [cellsAt_append, cellsAt_cons, Nat.zero_add] using
    (cellsAt_append.mp h).2
  rw [backSeps, if_neg (by omega), if_pos hsep, backSeps, if_neg (by omega), if_neg (hlast ▸ hx)]

theorem backComp_eq {m : Nat} (h : CellsAt buf 0 (stackBytes n comps ++ w)) (hw : pathSep ∉ w)
    (hm : m = n - 1) :
    backComp buf m ((stackBytes n comps).length + w.length) = (stackBytes n comps).length := by
  have hle := length_stackBytes_le n comps
  induction w using List.reverseRecOn with
  | nil =>
    rcases stackBytes_cases n comps with ⟨rfl, hnil⟩ | ⟨front, hfront⟩
    · rw [hnil]
      rfl
    · rw [hfront, List.append_nil, cellsAt_append, cellsAt_cons] at h
      have hsep : buf front.length = pathSep := by simpa using h.2.1
      rw [hfront] at hle ⊢
      simp only [List.length_append, List.length_singleton, List.length_nil] at hle ⊢
      rw [backComp]
      split_ifs <;> simp_all
  | append_singleton w x ih =>
    rw [← List.append_assoc, cellsAt_append, cellsAt_cons] at h
    have hx : buf ((stackBytes n comps).length + w.length) ≠ pathSep := by
      have hread := h.2.1
      rw [Nat.zero_add, List.length_append] at hread
      rw [hread]
      rintro rfl
      exact hw (by simp)
    rw [List.length_append, List.length_singleton, ← Nat.add_assoc, backComp,
      if_neg (by omega), if_pos hx]
    exact ih h.1 fun hmem => hw (List.mem_append_left _ hmem)

/-- The cursors go back to the end of what is kept. -/
theorem Cursors.shrink {tail : List UInt8} (h : Cursors pEnd s (out ++ tail) rem) :
    Cursors pEnd { s with p2 := out.length } out rem where
  written := (cellsAt_append.mp h.written).1
  p2 := rfl
  unread := h.unread
  p1 := h.p1
  le := by
    have hle := h.le
    rw [h.p2, List.length_append] at hle
    exact Nat.le_trans (Nat.le_add_right _ _) hle

/-- Whether the component behind which the cursor stands is `..`. -/
theorem isDotdot_iff {q : Nat} (h : CellsAt buf q (comp ++ [pathSep]))
    (hcomp : comp ≠ [] ∧ comp ≠ dotComp ∧ pathSep ∉ comp) :
    (buf q = pathDot ∧ buf (q + 1) = pathDot ∧ isPathSep (buf (q + 2)) = true) ↔
      comp = dotdotComp := by
  obtain ⟨hne, hdot, hsep⟩ := hcomp
  match comp with
  | [] => exact absurd rfl hne
  | [a] =>
    obtain ⟨ha, -⟩ := cellsAt_cons.mp h
    constructor
    · rintro ⟨hd, -⟩
      rw [← ha, hd] at hdot
      exact absurd rfl hdot
    · intro hd
      cases hd
  | [a, b] =>
    obtain ⟨ha, h⟩ := cellsAt_cons.mp h
    obtain ⟨hb, h⟩ := cellsAt_cons.mp h
    obtain ⟨hs, -⟩ := cellsAt_cons.mp h
    have hs : buf (q + 2) = pathSep := hs
    rw [ha, hb, hs]
    simp [isPathSep]
  | a :: b :: d :: comp =>
    obtain ⟨-, h⟩ := cellsAt_cons.mp h
    obtain ⟨-, h⟩ := cellsAt_cons.mp h
    obtain ⟨hd, -⟩ := cellsAt_cons.mp h
    have hd : buf (q + 2) = d := hd
    have hne : d ≠ pathSep := by
      rintro rfl
      exact hsep (by simp)
    simp [hd, isPathSep, hne]

theorem Cursors.pushDotdot (h : Cursors pEnd s out (pathDot :: pathDot :: rem)) :
    Cursors pEnd { (s.put pathDot).put pathDot with lastC := pathDot, p1 := s.p1 + 1 + 1 }
      (out ++ dotdotComp) rem := by
  have htwo := h.keep.keep
  rwa [List.append_assoc] at htwo

/-- A component `..` is kept, or takes the one before it away. -/
theorem takeBack_eq (h : Cursors pEnd s (stackBytes n comps) (pathDot :: pathDot :: rem))
    (hc : CanonicalComps (n ≠ 0) comps) (hlast : s.lastC = pathSep) :
    let t : NormState := { takeBack (n - 1) s with p1 := s.p1 + 1 + 1 }
    normComp (n ≠ 0) comps dotdotComp = comps ++ [dotdotComp] ∧
        Cursors pEnd t (stackBytes n comps ++ dotdotComp) rem ∧ t.lastC = pathDot ∨
      Cursors pEnd t (stackBytes n (normComp (n ≠ 0) comps dotdotComp)) rem ∧
        t.lastC = pathSep := by
  have hp2 := h.p2
  cases comps using List.reverseRecOn with
  | nil =>
    cases n with
    | zero =>
      left
      have htb : takeBack 0 s = { (s.put pathDot).put pathDot with lastC := pathDot } :=
        if_pos (Or.inl hp2)
      rw [htb]
      exact ⟨rfl, h.pushDotdot, rfl⟩
    | succ n =>
      right
      -- the cursor stands behind the root, which is not taken away
      have hout : stackBytes (n + 1) [] = List.replicate n pathSep ++ [pathSep] := by
        simp [stackBytes, List.replicate_succ']
      have hsep : s.buf n = pathSep := by
        have hread := h.written
        rw [hout, cellsAt_append, cellsAt_cons] at hread
        simpa using hread.2.1
      have hp2 : s.p2 = n + 1 := by simpa [hout] using hp2
      have hback : backComp s.buf n (backSeps s.buf n s.p2) = n := by
        rw [hp2, backSeps, if_neg (by omega), if_pos hsep, backSeps_self, backComp_self]
      have htb : takeBack n s = s := by
        have hdot : s.buf n ≠ pathDot := by
          rw [hsep]
          decide
        simp only [takeBack, hback]
        rw [if_neg (by simp [hdot, hp2]), if_pos hsep, ← hp2]
      rw [Nat.add_sub_cancel, htb]
      exact ⟨h.skip.skip, hlast⟩
  | append_singleton front c =>
    have hcomp := hc.normal c (by simp)
    rw [stackBytes_concat] at h hp2
    obtain ⟨w, x, rfl⟩ : ∃ w x, c = w ++ [x] := by
      cases c using List.reverseRecOn with
      | nil => exact absurd rfl hcomp.1
      | append_singleton w x => exact ⟨w, x, rfl⟩
    have hle := length_stackBytes_le n front
    have hcells := h.written
    have hback : backComp s.buf (n - 1) (backSeps s.buf (n - 1) s.p2) = (stackBytes n front).length := by
      have hseps : backSeps s.buf (n - 1) s.p2 = (stackBytes n front ++ w).length := by
        rw [hp2]
        have hshape : stackBytes n front ++ (w ++ [x]) ++ [pathSep] =
            stackBytes n front ++ w ++ [x, pathSep] := by simp
        rw [hshape] at hcells
        have hx : x ≠ pathSep := by
          rintro rfl
          exact hcomp.2.2 (by simp)
        have hm : n - 1 ≤ (stackBytes n front ++ w).length := by
          rw [List.length_append]
          omega
        simpa [Nat.add_assoc] using backSeps_eq hcells hx hm
      rw [hseps, List.length_append]
      refine backComp_eq ?_ (fun hmem => hcomp.2.2 (List.mem_append_left _ hmem)) rfl
      rw [List.append_assoc, List.append_assoc, ← List.append_assoc, cellsAt_append] at hcells
      exact hcells.1
    have hp2ne : s.p2 ≠ n - 1 := by
      rw [hp2]
      simp only [List.length_append, List.length_singleton]
      omega
    have hat : CellsAt s.buf (stackBytes n front).length (w ++ [x] ++ [pathSep]) := by
      rw [List.append_assoc, cellsAt_append, Nat.zero_add] at hcells
      exact hcells.2
    have hdd := isDotdot_iff hat hcomp
    by_cases hdotdot : w ++ [x] = dotdotComp
    · left
      have htb : takeBack (n - 1) s = { (s.put pathDot).put pathDot with lastC := pathDot } := by
        simp only [takeBack, hback]
        exact if_pos (Or.inr (hdd.mpr hdotdot))
      rw [htb, stackBytes_concat]
      refine ⟨?_, h.pushDotdot, rfl⟩
      rw [normComp, if_neg (by simp), if_pos (Or.inr (Or.inr (by rw [List.getLast?_concat, hdotdot])))]
    · right
      have hne : s.buf (stackBytes n front).length ≠ pathSep := by
        cases hw : w ++ [x] with
        | nil => simp at hw
        | cons a v =>
          rw [hw] at hat
          rw [(cellsAt_cons.mp hat).1]
          rintro rfl
          exact hcomp.2.2 (hw ▸ List.mem_cons_self)
      have htb : takeBack (n - 1) s = { s with p2 := (stackBytes n front).length } := by
        simp only [takeBack, hback]
        rw [if_neg (not_or.mpr ⟨hp2ne, fun h => hdotdot (hdd.mp h)⟩), if_neg hne]
      have hpop : normComp (n ≠ 0) (front ++ [w ++ [x]]) dotdotComp = front := by
        rw [normComp, if_neg (by simp), if_neg ?_, List.dropLast_concat]
        rw [List.getLast?_concat]
        simp [hdotdot]
      rw [htb, hpop]
      rw [List.append_assoc] at h
      exact ⟨h.shrink.skip.skip, hlast⟩

/-! ## The loop -/

abbrev NormRuns (pEnd n k : Nat) (s t : NormState) : Prop :=
  LoopsTo (fun s : NormState => s.p1 ≠ pEnd) (fun s => some (normStep pEnd (n - 1) s)) k s t

theorem NormRuns.round {k : Nat} {t : NormState} (h : Cursors pEnd s out (c :: rem))
    (hrun : NormRuns pEnd n k (normStep pEnd (n - 1) s) t) : NormRuns pEnd n (k + 1) s t := by
  have hp1 := h.p1
  rw [List.length_cons] at hp1
  exact hrun.step (decide_eq_true (by omega)) rfl

/-- The loop is over, behind a component or behind its separator. -/
def NormEnds (pEnd n : Nat) (s : NormState) (comps : List PathComp) : Prop :=
  ∃ out, Cursors pEnd s out [] ∧ (out = stackBytes n comps ∨
    ∃ front comp, comps = front ++ [comp] ∧ out = stackBytes n front ++ comp)

/-- Inside a component every byte goes on. -/
theorem NormRuns.inComp (h : Cursors pEnd s out (w ++ rest)) (hlast : s.lastC ≠ pathSep)
    (hw : pathSep ∉ w) : ∃ t, Cursors pEnd t (out ++ w) rest ∧ t.lastC ≠ pathSep ∧
      ∀ k u, NormRuns pEnd n k t u → NormRuns pEnd n (k + w.length) s u := by
  induction w generalizing s out with
  | nil => exact ⟨s, by simpa using h, hlast, fun k u hrun => hrun⟩
  | cons c w ih =>
    have hc : c ≠ pathSep := fun hc => hw (hc ▸ List.mem_cons_self)
    obtain ⟨t, ht, hlt, hrun⟩ := ih h.keep hc fun hmem => hw (List.mem_cons_of_mem c hmem)
    refine ⟨t, by simpa using ht, hlt, ?_⟩
    intro k u hu
    have hround := NormRuns.round (n := n) (t := u) h
      (by rw [normStep_inComp h hlast]; exact hrun k u hu)
    rwa [List.length_cons, ← Nat.add_assoc]

/-- A component of its own in front. -/
theorem foldl_normComp_splitOn {rooted : Bool} (hw : pathSep ∉ w) (hrest : CompEnds rest) :
    ((w ++ rest).splitOn pathSep).foldl (normComp rooted) comps =
      (rest.splitOn pathSep).foldl (normComp rooted) (normComp rooted comps w) := by
  cases rest with
  | nil =>
    rw [List.append_nil, List.splitOn_eq_singleton hw]
    rfl
  | cons c rest =>
    obtain rfl := compEnds_cons.mp hrest
    rw [List.splitOn_append_cons_self_of_not_mem hw, splitOn_slash]
    rfl

/-- Behind a component the loop ends, or goes on behind its separator. -/
theorem NormRuns.afterComp (h : Cursors pEnd s (stackBytes n comps ++ comp) rest)
    (hlast : s.lastC ≠ pathSep) (hrest : CompEnds rest)
    (hgo : ∀ rem t, rest = pathSep :: rem → Cursors pEnd t (stackBytes n (comps ++ [comp])) rem →
      t.lastC = pathSep → ∃ u, NormRuns pEnd n rem.length t u ∧
        NormEnds pEnd n u ((rem.splitOn pathSep).foldl (normComp (n ≠ 0)) (comps ++ [comp]))) :
    ∃ u, NormRuns pEnd n rest.length s u ∧
      NormEnds pEnd n u ((rest.splitOn pathSep).foldl (normComp (n ≠ 0)) (comps ++ [comp])) := by
  cases rest with
  | nil => exact ⟨s, LoopsTo.done (decide_eq_false (not_not.mpr h.p1)), _, h, .inr ⟨comps, comp, rfl, rfl⟩⟩
  | cons c rem =>
    obtain rfl := compEnds_cons.mp hrest
    have hkeep := h.keep
    rw [← stackBytes_concat] at hkeep
    obtain ⟨u, hrun, hu⟩ := hgo rem _ rfl hkeep rfl
    refine ⟨u, NormRuns.round h ?_, ?_⟩
    · rw [normStep_inComp h hlast]
      exact hrun
    · rw [splitOn_slash]
      exact hu

theorem eq_nil_of_compEnds (hw : pathSep ∉ w) (h : CompEnds (w ++ rest)) : w = [] := by
  cases w with
  | nil => rfl
  | cons c w => exact absurd (compEnds_cons.mp h ▸ List.mem_cons_self) hw

theorem compEnds_dropWhile (rem : List UInt8) : CompEnds (rem.dropWhile (· ≠ pathSep)) := by
  intro c hc
  have hnot := List.head?_dropWhile_not (· ≠ pathSep) rem
  rw [hc] at hnot
  simpa using hnot

/-- Between two components the rest of the path is taken component by component. -/
theorem normLoop_runs (h : Cursors pEnd s (stackBytes n comps) rem) (hlast : s.lastC = pathSep)
    (hc : CanonicalComps (n ≠ 0) comps) : ∃ t, NormRuns pEnd n rem.length s t ∧
      NormEnds pEnd n t ((rem.splitOn pathSep).foldl (normComp (n ≠ 0)) comps) := by
  induction hk : rem.length using Nat.strong_induction_on generalizing rem s comps with
  | _ k ih =>
  subst hk
  match rem with
  | [] => exact ⟨s, LoopsTo.done (decide_eq_false (not_not.mpr h.p1)), _, h, .inl rfl⟩
  | c :: r =>
    by_cases hsep : c = pathSep
    · subst hsep
      obtain ⟨t, hrun, ht⟩ := ih r.length (Nat.lt_succ_self _) h.skip hlast hc rfl
      refine ⟨t, NormRuns.round h ?_, ?_⟩
      · rw [normStep_sep h hlast]
        exact hrun
      · rw [splitOn_slash]
        exact ht
    · -- the component that starts here, and what is behind it
      obtain ⟨w, rest, hr, hw, hrest⟩ : ∃ w rest, r = w ++ rest ∧ pathSep ∉ w ∧ CompEnds rest :=
        ⟨r.takeWhile (· ≠ pathSep), r.dropWhile (· ≠ pathSep),
          (List.takeWhile_append_dropWhile).symm,
          fun hmem => by simpa using List.mem_takeWhile_imp hmem, compEnds_dropWhile r⟩
      subst hr
      have hcw : pathSep ∉ c :: w := List.not_mem_cons_of_ne_of_not_mem (Ne.symm hsep) hw
      have hlen : rest.length < (c :: (w ++ rest)).length := by
        rw [List.length_cons, List.length_append]
        omega
      have hcons : c :: (w ++ rest) = (c :: w) ++ rest := rfl
      rw [hcons, foldl_normComp_splitOn hcw hrest]
      have hafter : ∀ {v : NormState}, Cursors pEnd v (stackBytes n comps ++ (c :: w)) rest →
          v.lastC ≠ pathSep → normComp (n ≠ 0) comps (c :: w) = comps ++ [c :: w] →
          ∃ u, NormRuns pEnd n rest.length v u ∧ NormEnds pEnd n u
            ((rest.splitOn pathSep).foldl (normComp (n ≠ 0)) (normComp (n ≠ 0) comps (c :: w))) := by
        intro v hv hlv hpush
        have hcanon := hc.normComp hcw
        rw [hpush] at hcanon ⊢
        refine NormRuns.afterComp hv hlv hrest ?_
        intro rem t hrem ht hlt
        have hshort : rem.length < rest.length := by rw [hrem]; exact Nat.lt_succ_self _
        exact ih rem.length (Nat.lt_trans hshort hlen) ht hlt hcanon rfl
      by_cases hdot : c :: w = dotComp
      · obtain ⟨rfl, rfl⟩ := List.cons.inj hdot
        obtain ⟨t, hrun, ht⟩ := ih rest.length hlen h.skip hlast hc rfl
        refine ⟨t, NormRuns.round h ?_, ?_⟩
        · rw [normStep_dot h hlast hrest]
          exact hrun
        · rw [normComp, if_pos (Or.inr rfl)]
          exact ht
      · by_cases hdd : c :: w = dotdotComp
        · obtain ⟨rfl, rfl⟩ := List.cons.inj hdd
          have hstep : normStep pEnd (n - 1) s = _ := normStep_dotdot h hlast hrest
          have hround : ∀ u, NormRuns pEnd n rest.length (normStep pEnd (n - 1) s) u →
              NormRuns pEnd n (rest.length + 1 + 1) s u :=
            fun u hu => (NormRuns.round h hu).mono (Nat.le_succ _)
          rw [hstep] at hround
          rcases takeBack_eq h hc hlast with ⟨hpush, hcur, hlt⟩ | ⟨hcur, hlt⟩
          · obtain ⟨u, hrun, hu⟩ := hafter hcur (by rw [hlt]; decide) hpush
            exact ⟨u, hround u hrun, hu⟩
          · obtain ⟨u, hrun, hu⟩ := ih rest.length hlen hcur hlt (hc.normComp hcw) rfl
            exact ⟨u, hround u hrun, hu⟩
        · have hstep : normStep pEnd (n - 1) s = { s.put c with lastC := c, p1 := s.p1 + 1 } := by
            refine normStep_other h hsep ?_ ?_
            · rintro ⟨rfl, hend⟩
              exact hdot (by rw [eq_nil_of_compEnds hw hend])
            · rintro rest' heq rfl hend
              cases w with
              | nil =>
                rw [List.nil_append] at heq
                rw [heq, compEnds_cons] at hrest
                cases hrest
              | cons d w =>
                obtain ⟨rfl, rfl⟩ := List.cons.inj heq
                have hnil := eq_nil_of_compEnds (fun hmem => hw (List.mem_cons_of_mem _ hmem)) hend
                exact hdd (by rw [hnil])
          obtain ⟨v, hv, hlv, hrun⟩ := NormRuns.inComp (n := n) h.keep hsep hw
          have hpush : normComp (n ≠ 0) comps (c :: w) = comps ++ [c :: w] := by
            rw [normComp, if_neg (by simp [hdot]), if_pos (Or.inl hdd)]
          obtain ⟨u, hu, hends⟩ := hafter (by simpa using hv) hlv hpush
          refine ⟨u, ?_, hends⟩
          have hlong := NormRuns.round h (by rw [hstep]; exact hrun _ u hu)
          have hcount : (c :: w ++ rest).length = rest.length + w.length + 1 := by
            simp only [List.length_append, List.length_cons]
            omega
          rwa [hcount]

/-! ## Before the loop -/

theorem initialSlashes_split (path : List UInt8) : ∃ body,
    path = List.replicate (initialSlashes path) pathSep ++ body ∧
      (initialSlashes path ≠ 1 → body.head? ≠ some pathSep) := by
  match path with
  | [] => exact ⟨[], rfl, fun _ => nofun⟩
  | [a] =>
    by_cases ha : a = pathSep
    · exact ⟨[], by simp [initialSlashes, ha], by simp⟩
    · exact ⟨[a], by simp [initialSlashes, ha], by simp [ha]⟩
  | a :: b :: rest =>
    by_cases ha : a = pathSep
    · by_cases hb : b = pathSep ∧ rest.head? ≠ some pathSep
      · have htwo : initialSlashes (a :: b :: rest) = 2 := by simp [initialSlashes, ha, hb]
        rw [htwo, ha, hb.1]
        exact ⟨rest, rfl, fun _ => hb.2⟩
      · have hone : initialSlashes (a :: b :: rest) = 1 := by
          rw [initialSlashes, if_neg (not_not.mpr ha), if_neg hb]
        rw [hone, ha]
        exact ⟨b :: rest, rfl, fun h => absurd rfl h⟩
    · have hzero : initialSlashes (a :: b :: rest) = 0 := if_pos ha
      rw [hzero]
      exact ⟨a :: b :: rest, rfl, fun _ h => ha (Option.some.inj h)⟩

theorem skipRoot_eq (path : List UInt8) :
    skipRoot (fun i => path.getD i 0) = (0, initialSlashes path) := by
  match path with
  | [] => rfl
  | [a] =>
    have hzero : (0 : UInt8) ≠ pathSep := by decide
    by_cases ha : a = pathSep <;> simp [skipRoot, isPathSep, initialSlashes, ha, hzero]
  | [a, b] =>
    have hzero : (0 : UInt8) ≠ pathSep := by decide
    by_cases ha : a = pathSep <;> by_cases hb : b = pathSep <;>
      simp [skipRoot, isPathSep, initialSlashes, ha, hb, hzero]
  | a :: b :: d :: rest =>
    by_cases ha : a = pathSep <;> by_cases hb : b = pathSep <;> by_cases hd : d = pathSep <;>
      simp [skipRoot, isPathSep, initialSlashes, ha, hb, hd]

theorem skipSeps_eq {a fuel : Nat} (h : CellsAt buf a rem) (hend : buf (a + rem.length) = 0)
    (hfuel : rem.length < fuel) : ∃ k rest, rem = List.replicate k pathSep ++ rest ∧
      skipSeps buf fuel a = some (a + k) := by
  induction rem generalizing a fuel with
  | nil =>
    obtain ⟨fuel, rfl⟩ := Nat.exists_eq_succ_of_ne_zero (Nat.ne_of_gt hfuel)
    have hzero : buf a = 0 := hend
    exact ⟨0, [], rfl, by simp [skipSeps, isPathSep, hzero, pathSep]⟩
  | cons c rem ih =>
    obtain ⟨fuel, rfl⟩ := Nat.exists_eq_succ_of_ne_zero (Nat.ne_of_gt (Nat.zero_lt_of_lt hfuel))
    obtain ⟨hc, h⟩ := cellsAt_cons.mp h
    by_cases hsep : c = pathSep
    · rw [List.length_cons, Nat.add_comm rem.length, ← Nat.add_assoc] at hend
      obtain ⟨k, rest, rfl, hskip⟩ := ih h hend (Nat.lt_of_succ_lt_succ hfuel)
      refine ⟨k + 1, rest, by rw [hsep, List.replicate_succ, List.cons_append], ?_⟩
      rw [skipSeps, if_pos (by simp [isPathSep, hc, hsep]), hskip, Nat.add_assoc, Nat.add_comm 1]
    · exact ⟨0, c :: rem, rfl, by simp [skipSeps, isPathSep, hc, hsep]⟩

theorem cellsAt_getD (path : List UInt8) : CellsAt (fun i => path.getD i 0) 0 path := by
  intro i c hc
  simp [List.getD_eq_getElem?_getD, hc]

theorem stackBytes_nil (n : Nat) : stackBytes n [] = List.replicate n pathSep :=
  List.append_nil _

/-- A leading `.` and the separators behind it are passed by. -/
theorem normStart_dot (hcells : CellsAt buf 0 (List.replicate n pathSep ++ pathDot :: rest))
    (hpEnd : n + (rest.length + 1) = pEnd) (hstop : buf pEnd = 0) (hrest : CompEnds rest) :
    ∃ s k t, normStart pEnd buf n = some s ∧ k ≤ pEnd ∧ NormRuns pEnd n k s t ∧
      NormEnds pEnd n t (normComps (n ≠ 0) (rest.splitOn pathSep)) := by
  obtain ⟨hroot, hbody⟩ := cellsAt_append.mp hcells
  rw [List.length_replicate, Nat.zero_add, cellsAt_cons] at hbody
  obtain ⟨hdot, hrestAt⟩ := hbody
  have hend : sepOrEnd pEnd buf (n + 1) = true :=
    (sepOrEnd_iff hrestAt (by omega)).mpr hrest
  obtain ⟨k, rest', hk, hskip⟩ := skipSeps_eq hrestAt
    (by rw [show n + 1 + rest.length = pEnd by omega, hstop])
    (show rest.length < pEnd + 1 by omega)
  have hstart : normStart pEnd buf n = some ⟨buf, n + 1 + k, n, buf (n + 1)⟩ := by
    cases n with
    | zero => simp [normStart, hdot, hend, hskip]
    | succ n => simp [normStart, hdot, hend, hskip]
  have hcur : Cursors pEnd ⟨buf, n + 1 + k, n, buf (n + 1)⟩ (stackBytes n []) rest' := by
    rw [hk, cellsAt_append, List.length_replicate] at hrestAt
    rw [hk, List.length_append, List.length_replicate] at hpEnd
    refine ⟨by rwa [stackBytes_nil], by simp [stackBytes_nil], hrestAt.2, ?_, ?_⟩
    · change n + 1 + k + rest'.length = pEnd
      omega
    · change n ≤ n + 1 + k
      omega
  have hcomps : normComps (n ≠ 0) (rest.splitOn pathSep) =
      normComps (n ≠ 0) (rest'.splitOn pathSep) := by rw [hk, normComps_slashes]
  refine ⟨⟨buf, n + 1 + k, n, buf (n + 1)⟩, rest'.length, ?_⟩
  rw [hcomps]
  have hle : rest'.length ≤ pEnd := by
    have hp1 := hcur.p1
    change n + 1 + k + rest'.length = pEnd at hp1
    omega
  cases rest with
  | nil =>
    obtain rfl : rest' = [] := (List.append_eq_nil_iff.mp hk.symm).2
    exact ⟨_, hstart, hle, LoopsTo.done (decide_eq_false (not_not.mpr hcur.p1)), _, hcur, .inl rfl⟩
  | cons c rest =>
    obtain rfl := compEnds_cons.mp hrest
    have hlast : buf (n + 1) = pathSep := (cellsAt_cons.mp hrestAt).1
    obtain ⟨t, hrun, ht⟩ := normLoop_runs hcur hlast (canonicalComps_nil _)
    exact ⟨t, hstart, hle, hrun, ht⟩

/-- Any other path is read from behind its root on. -/
theorem normStart_other {body : List UInt8} (hcells : CellsAt buf 0 (List.replicate n pathSep ++ body))
    (hpEnd : n + body.length = pEnd) (hstop : buf pEnd = 0)
    (hbody : n ≠ 1 → body.head? ≠ some pathSep) (hne : n = 0 → body ≠ [])
    (hdot : ∀ rest, body = pathDot :: rest → ¬CompEnds rest) :
    ∃ s t, normStart pEnd buf n = some s ∧ NormRuns pEnd n body.length s t ∧
      NormEnds pEnd n t (normComps (n ≠ 0) (body.splitOn pathSep)) := by
  obtain ⟨hroot, hat⟩ := cellsAt_append.mp hcells
  rw [List.length_replicate, Nat.zero_add] at hat
  have hcond : ¬(buf n = pathDot ∧ sepOrEnd pEnd buf (n + 1) = true) := by
    rintro ⟨hd, hend⟩
    cases body with
    | nil =>
      rw [← hpEnd] at hstop
      rw [List.length_nil, Nat.add_zero, hd] at hstop
      cases hstop
    | cons c rest =>
      obtain ⟨hc, hrestAt⟩ := cellsAt_cons.mp hat
      rw [List.length_cons] at hpEnd
      exact hdot rest (by rw [← hd, hc]) ((sepOrEnd_iff hrestAt (by omega)).mp hend)
  have hcur (lastC : UInt8) : Cursors pEnd ⟨buf, n, n, lastC⟩ (stackBytes n []) body :=
    ⟨by rwa [stackBytes_nil], by simp [stackBytes_nil], hat, hpEnd, Nat.le_refl n⟩
  cases n with
  | succ n =>
    have hlast : buf n = pathSep := by
      rw [List.replicate_succ', cellsAt_append, cellsAt_cons] at hroot
      simpa using hroot.2.1
    obtain ⟨t, hrun, ht⟩ := normLoop_runs (hcur (buf n)) hlast (canonicalComps_nil _)
    have hstart : normStart pEnd buf (n + 1) = some ⟨buf, n + 1, n + 1, buf n⟩ := by
      simp only [normStart, ne_eq, Nat.succ_ne_zero, not_false_eq_true, if_true, Nat.add_sub_cancel]
      rw [if_neg hcond]
    exact ⟨_, t, hstart, hrun, ht⟩
  | zero =>
    have hstart : normStart pEnd buf 0 = some ⟨buf, 0, 0, 0⟩ := by
      simp only [normStart, ne_eq, not_true_eq_false, if_false]
      rw [if_neg hcond]
    -- the first component is kept whatever its bytes are
    have hlast : (0 : UInt8) ≠ pathSep := by decide
    have hw : pathSep ∉ body.takeWhile (· ≠ pathSep) :=
      fun hmem => by simpa using List.mem_takeWhile_imp hmem
    have hrest := compEnds_dropWhile body
    have hsplit := List.takeWhile_append_dropWhile (p := (· ≠ pathSep)) (l := body)
    generalize body.takeWhile (· ≠ pathSep) = w at hw hsplit
    generalize body.dropWhile (· ≠ pathSep) = rest at hrest hsplit
    subst hsplit
    have hwne : w ≠ [] := by
      rintro rfl
      rw [List.nil_append] at hne hbody
      cases rest with
      | nil => exact hne rfl rfl
      | cons c rest => exact hbody (by decide) (by rw [compEnds_cons.mp hrest]; rfl)
    have hwdot : w ≠ dotComp := by
      rintro rfl
      exact hdot rest rfl hrest
    have hpush : normComp (0 ≠ 0) [] w = [] ++ [w] := by
      rw [normComp, if_neg (by simp [hwne, hwdot]), if_pos (Or.inr (Or.inl ⟨rfl, rfl⟩))]
    obtain ⟨v, hv, hlv, hrun⟩ := NormRuns.inComp (n := 0) (hcur 0) hlast hw
    obtain ⟨t, hgo, ht⟩ := NormRuns.afterComp hv hlv hrest fun rem t _ ht hlt =>
      normLoop_runs ht hlt (hpush ▸ (canonicalComps_nil _).normComp hw)
    refine ⟨_, t, hstart, ?_, ?_⟩
    · have hlong := hrun _ t hgo
      rwa [List.length_append, Nat.add_comm]
    · rw [normComps, foldl_normComp_splitOn hw hrest, hpush]
      exact ht

/-! ## Behind the loop -/

theorem cstr_of_cells {l : List UInt8} {N : Nat} (h : CellsAt buf 0 (l ++ [0])) (hl : (0 : UInt8) ∉ l)
    (hN : l.length < N) : cstr ((List.range N).map buf) = l := by
  obtain ⟨k, rfl⟩ : ∃ k, N = (l ++ [(0 : UInt8)]).length + k := ⟨N - (l.length + 1), by simp; omega⟩
  have hmap := h.map_range
  simp only [Nat.zero_add] at hmap
  rw [List.range_add, List.map_append, hmap, cstr, List.append_assoc, List.takeWhile_append_of_pos]
  · simp
  · intro c hc
    have hne : c ≠ 0 := fun hz => hl (hz ▸ hc)
    simpa using hne

/-- The bytes of the path, once no separator is left behind them. -/
theorem normFinish_eq {l : List UInt8} {x : UInt8} {t : NormState} {m : Nat}
    (hcells : CellsAt (stripSeps m t.p2 (Function.update t.buf t.p2 0)).1 0 (l ++ [x] ++ [0]))
    (hm : t.p2 ≠ m) (hl : (0 : UInt8) ∉ l ++ [x]) (hlen : (l ++ [x]).length ≤ pEnd) :
    normFinish pEnd m t = l ++ [x] := by
  have hN : (l ++ [x]).length < pEnd + 2 := by omega
  have hnot : ¬((stripSeps m t.p2 (Function.update t.buf t.p2 0)).2 : Int) < 0 :=
    not_lt.mpr (Int.natCast_nonneg _)
  simp only [normFinish, ne_eq, hm, not_false_eq_true, if_true, hnot, if_false]
  exact cstr_of_cells hcells hl hN

theorem stripSeps_stop {m q : Nat} (h : q = m ∨ buf q ≠ pathSep) :
    stripSeps m (q + 1) buf = (buf, q) := by
  rw [stripSeps, if_neg]
  rintro ⟨hm, hsep⟩
  exact h.elim hm fun hne => hne hsep

theorem zero_not_mem_stackBytes (n : Nat) (h : ∀ c ∈ comps, (0 : UInt8) ∉ c) :
    (0 : UInt8) ∉ stackBytes n comps := by
  intro hmem
  rcases List.mem_append.mp hmem with hmem | hmem
  · cases (List.mem_replicate.mp hmem).2
  · obtain ⟨d, hd, hz⟩ := List.mem_flatten.mp hmem
    obtain ⟨c, hc, rfl⟩ := List.mem_map.mp hd
    rcases List.mem_append.mp hz with hz | hz
    · exact h c hc hz
    · cases List.mem_singleton.mp hz

theorem renderPath_concat {n : Nat} {front : List PathComp} (hne : comp ≠ []) :
    renderPath n (front ++ [comp]) = stackBytes n front ++ comp := by
  have hpath := stackBytes_intercalate n front comp
  rw [renderPath, ← hpath]
  exact if_neg fun h => hne (List.append_eq_nil_iff.mp h).2

theorem normFinish_ends {t : NormState} (h : NormEnds pEnd n t comps)
    (hc : CanonicalComps (n ≠ 0) comps) (hzero : ∀ c ∈ comps, (0 : UInt8) ∉ c) :
    normFinish pEnd (n - 1) t = renderPath n comps := by
  obtain ⟨out, hcur, hout⟩ := h
  have hp2 := hcur.p2
  have hle : out.length ≤ pEnd := by
    have hle := hcur.le
    have hp1 := hcur.p1
    rw [List.length_nil] at hp1
    omega
  have hcells : CellsAt (Function.update t.buf t.p2 0) 0 (out ++ [0]) := by
    have hsnoc := hcur.written.snoc 0
    rwa [Nat.zero_add, ← hp2] at hsnoc
  -- behind a component: its last byte is no separator
  have hbehind : ∀ {front comp buf}, comps = front ++ [comp] →
      CellsAt buf 0 (stackBytes n front ++ comp ++ [0]) →
      stripSeps (n - 1) t.p2 (Function.update t.buf t.p2 0) =
        stripSeps (n - 1) (stackBytes n front ++ comp).length buf →
      (stackBytes n front ++ comp).length ≤ t.p2 → (stackBytes n front ++ comp).length ≤ pEnd →
      normFinish pEnd (n - 1) t = renderPath n comps := by
    intro front comp buf hcomps hat hstrip hp2 hlen
    subst hcomps
    have hcomp := hc.normal comp (by simp)
    have hfront := zero_not_mem_stackBytes n fun c hc => hzero c (List.mem_append_left _ hc)
    have hnozero : (0 : UInt8) ∉ stackBytes n front ++ comp := by
      intro hmem
      rcases List.mem_append.mp hmem with hmem | hmem
      · exact hfront hmem
      · exact hzero comp (by simp) hmem
    have hroot := length_stackBytes_le n front
    rw [renderPath_concat hcomp.1]
    obtain ⟨w, x, rfl⟩ : ∃ w x, comp = w ++ [x] := by
      cases comp using List.reverseRecOn with
      | nil => exact absurd rfl hcomp.1
      | append_singleton w x => exact ⟨w, x, rfl⟩
    rw [← List.append_assoc] at hat hnozero hstrip hp2 hlen ⊢
    have hx : buf (stackBytes n front ++ w).length ≠ pathSep := by
      rw [List.append_assoc, cellsAt_append, List.singleton_append, cellsAt_cons, Nat.zero_add] at hat
      rw [hat.2.1]
      rintro rfl
      exact hcomp.2.2 (by simp)
    rw [List.length_append, List.length_singleton, stripSeps_stop (Or.inr hx)] at hstrip
    refine normFinish_eq (by rw [hstrip]; exact hat) ?_ hnozero hlen
    simp only [List.length_append, List.length_singleton] at hp2
    omega
  rcases hout with rfl | ⟨front, comp, hcomps, rfl⟩
  · cases comps using List.reverseRecOn with
    | nil =>
      rw [stackBytes_nil] at hp2 hcells hle
      rw [List.length_replicate] at hp2 hle
      cases n with
      | zero =>
        simp only [normFinish, hp2, ne_eq, not_true_eq_false, if_false]
        refine cstr_of_cells (l := dotComp) ?_ (by decide) (by simp)
        simp [cellsAt_nil]
      | succ n =>
        rw [List.replicate_succ'] at hcells
        have hroot : renderPath (n + 1) [] = List.replicate n pathSep ++ [pathSep] := by
          simp [renderPath, List.replicate_succ']
        rw [hroot]
        rw [hp2] at hcells
        rw [Nat.add_sub_cancel]
        refine normFinish_eq (by rwa [hp2, stripSeps_stop (Or.inl rfl)]) (by omega) ?_ (by simpa)
        intro hmem
        rw [← List.replicate_succ'] at hmem
        cases (List.mem_replicate.mp hmem).2
    | append_singleton front comp =>
      rw [stackBytes_concat] at hp2 hcells hle
      rw [List.length_append, List.length_singleton] at hp2 hle
      rw [List.append_assoc, cellsAt_append, List.singleton_append, cellsAt_cons, Nat.zero_add] at hcells
      refine hbehind rfl (Nat.zero_add (stackBytes n front ++ comp).length ▸ hcells.1.snoc 0) ?_
        (by omega) (by omega)
      have hm : (stackBytes n front ++ comp).length ≠ n - 1 := by
        have hroot := length_stackBytes_le n front
        have hcomp := List.length_pos_iff.mpr (hc.normal comp (by simp)).1
        rw [List.length_append]
        omega
      conv_lhs => rw [hp2, stripSeps, if_pos ⟨hm, hp2 ▸ hcells.2.1⟩, ← hp2]
  · exact hbehind hcomps hcells (by rw [hp2]) (by rw [hp2]) hle

theorem mem_foldl_normComp {rooted : Bool} {cs : List PathComp} {d : PathComp}
    (h : d ∈ cs.foldl (normComp rooted) comps) : d ∈ comps ∨ d ∈ cs := by
  induction cs generalizing comps with
  | nil => exact Or.inl h
  | cons c cs ih =>
    rcases ih h with hd | hd
    · unfold normComp at hd
      split_ifs at hd with hskip hpush
      · exact Or.inl hd
      · rcases List.mem_append.mp hd with hd | hd
        · exact Or.inl hd
        · exact Or.inr (List.mem_cons.mpr (Or.inl (List.mem_singleton.mp hd)))
      · exact Or.inl (List.dropLast_subset comps hd)
    · exact Or.inr (List.mem_cons_of_mem c hd)

theorem mem_of_mem_splitOn {path d : List UInt8} {x : UInt8} (hd : d ∈ path.splitOn pathSep)
    (hx : x ∈ d) : x ∈ path := by
  have hpath : [pathSep].intercalate (path.splitOn pathSep) = path := List.intercalate_splitOn pathSep
  rw [← hpath]
  generalize path.splitOn pathSep = ds at hd
  induction ds with
  | nil => cases hd
  | cons e ds ih =>
    by_cases hds : ds = []
    · subst hds
      rw [List.mem_singleton.mp hd] at hx
      simpa using hx
    · rw [List.intercalate_cons_of_ne_nil hds]
      rcases List.mem_cons.mp hd with rfl | hd
      · simp [hx]
      · simp [ih hd]

theorem zero_not_mem_normComps {rooted : Bool} {path : List UInt8} (h : (0 : UInt8) ∉ path) :
    ∀ c ∈ normComps rooted (path.splitOn pathSep), (0 : UInt8) ∉ c := by
  intro c hc hz
  have hmem := (mem_foldl_normComp hc).resolve_left List.not_mem_nil
  exact h (mem_of_mem_splitOn hmem hz)

theorem zero_not_mem_renderPath (n : Nat) (h : ∀ c ∈ comps, (0 : UInt8) ∉ c) :
    (0 : UInt8) ∉ renderPath n comps := by
  have hpath : (0 : UInt8) ∉ List.replicate n pathSep ++ [pathSep].intercalate comps := by
    cases comps using List.reverseRecOn with
    | nil =>
      intro hmem
      rw [List.intercalate_nil, List.append_nil] at hmem
      cases (List.mem_replicate.mp hmem).2
    | append_singleton front comp =>
      rw [← stackBytes_intercalate]
      intro hmem
      rcases List.mem_append.mp hmem with hmem | hmem
      · exact zero_not_mem_stackBytes n (fun c hc => h c (List.mem_append_left _ hc)) hmem
      · exact h comp (by simp) hmem
  simp only [renderPath]
  split_ifs
  · decide
  · exact hpath

theorem zero_not_mem_cstr (s : List UInt8) : (0 : UInt8) ∉ cstr s := fun hmem => by
  simpa using List.mem_takeWhile_imp hmem

theorem cstr_eq_self {s : List UInt8} (h : (0 : UInt8) ∉ s) : cstr s = s := by
  rw [cstr, List.takeWhile_eq_self_iff]
  intro c hc
  have hne : c ≠ 0 := fun hz => h (hz ▸ hc)
  simpa using hne

theorem normpath_eq (path : List UInt8) : normpath path = some (normalPath (cstr path)) := by
  have hzero := zero_not_mem_cstr path
  unfold normpath
  generalize cstr path = path at hzero
  by_cases hnil : path = []
  · subst hnil
    rfl
  · obtain ⟨body, hpath, hbody⟩ := initialSlashes_split path
    have hcells := cellsAt_getD path
    have hstop : (fun i => path.getD i 0) path.length = 0 := by simp
    have hlen : initialSlashes path + body.length = path.length := by
      conv_rhs => rw [hpath]
      simp
    have hsize : path.length ≠ 0 := fun h => hnil (List.length_eq_zero_iff.mp h)
    have hcomps : CanonicalComps (initialSlashes path ≠ 0) _ := normComps_canonical path
    have hpieces : ∀ c ∈ normComps (initialSlashes path ≠ 0) (path.splitOn pathSep),
        (0 : UInt8) ∉ c := zero_not_mem_normComps hzero
    -- the loop is entered either behind a leading `.` or behind the root
    obtain ⟨s, k, t, hstart, hk, hrun, hends⟩ : ∃ s k t,
        normStart path.length (fun i => path.getD i 0) (initialSlashes path) = some s ∧
        k ≤ path.length ∧ NormRuns path.length (initialSlashes path) k s t ∧
        NormEnds path.length (initialSlashes path) t
          (normComps (initialSlashes path ≠ 0) (path.splitOn pathSep)) := by
      have hslashes : path.splitOn pathSep =
          (List.replicate (initialSlashes path) pathSep ++ body).splitOn pathSep := by rw [← hpath]
      rw [hslashes, normComps_slashes]
      have hcells : CellsAt (fun i => path.getD i 0) 0
          (List.replicate (initialSlashes path) pathSep ++ body) := by rwa [← hpath]
      by_cases hdot : ∃ rest, body = pathDot :: rest ∧ CompEnds rest
      · obtain ⟨rest, rfl, hrest⟩ := hdot
        have hskip : normComps (initialSlashes path ≠ 0) ((pathDot :: rest).splitOn pathSep) =
            normComps (initialSlashes path ≠ 0) (rest.splitOn pathSep) :=
          foldl_normComp_splitOn (w := dotComp) (by decide) hrest
        rw [hskip]
        exact normStart_dot hcells hlen hstop hrest
      · have hne : initialSlashes path = 0 → body ≠ [] := by
          rintro h0 rfl
          rw [h0] at hpath
          exact hnil hpath
        obtain ⟨s, t, hstart, hrun, hends⟩ := normStart_other hcells hlen hstop hbody hne
          fun rest hr hrest => hdot ⟨rest, hr, hrest⟩
        exact ⟨s, body.length, t, hstart, by omega, hrun, hends⟩
    have hmin : (if initialSlashes path ≠ 0 then initialSlashes path - 1 else 0) =
        initialSlashes path - 1 := by split_ifs <;> omega
    have hloop : normLoop path.length (initialSlashes path - 1) (path.length + 1) s = some t :=
      hrun _ (by omega)
    simp only [hsize, if_false, skipRoot_eq, Nat.zero_add, hmin, hstart, Option.bind_eq_bind,
      Option.bind_some, hloop, normFinish_ends hends hcomps hpieces]
    rfl

/-- The result is in canonical form: at most two slashes, or what the path has of them, in front of
the components that are left when `..` takes the one before it away. It is its own normal form. -/
theorem normpath_canonical (path : List UInt8) : ∃ q n comps, normpath path = some q ∧
    q = renderPath n comps ∧ n = initialSlashes (cstr path) ∧ n ≤ 2 ∧
    comps = normComps (n ≠ 0) ((cstr path).splitOn pathSep) ∧ CanonicalComps (n ≠ 0) comps ∧
    normpath q = some q := by
  refine ⟨_, initialSlashes (cstr path), _, normpath_eq path, rfl, rfl, initialSlashes_le _, rfl,
    normComps_canonical _, ?_⟩
  have hzero : (0 : UInt8) ∉ normalPath (cstr path) :=
    zero_not_mem_renderPath _ (zero_not_mem_normComps (zero_not_mem_cstr path))
  rw [normpath_eq, cstr_eq_self hzero, normalPath_normalPath]

end FakeLisp
