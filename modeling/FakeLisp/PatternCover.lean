import FakeLisp.Pattern

/-!
When the comparison of two patterns is right. The parts of two patterns are what stands at the
same place when both are walked along their pairs; the comparison decides by the first part in
which they differ, while the expressions they accept depend on all parts.
-/

namespace FakeLisp

theorem f64Equal_symm {a b : UInt64} (h : f64Equal a b = true) : f64Equal b a = true := by
  simp only [f64Equal, Bool.and_eq_true, Bool.or_eq_true] at h ⊢
  obtain ⟨⟨hna, hnb⟩, hab⟩ := h
  refine ⟨⟨hnb, hna⟩, hab.imp (fun he => ?_) fun hz => ⟨hz.2, hz.1⟩⟩
  simpa using (of_decide_eq_true he).symm

theorem f64Equal_trans {a b c : UInt64} (h : f64Equal a b = true) (h' : f64Equal b c = true) :
    f64Equal a c = true := by
  simp only [f64Equal, Bool.and_eq_true, Bool.or_eq_true] at h h' ⊢
  obtain ⟨⟨hna, -⟩, hab⟩ := h
  obtain ⟨⟨-, hnc⟩, hbc⟩ := h'
  refine ⟨⟨hna, hnc⟩, ?_⟩
  rcases hab with hab | hab
  · obtain rfl := of_decide_eq_true hab
    exact hbc
  · rcases hbc with hbc | hbc
    · obtain rfl := of_decide_eq_true hbc
      exact Or.inr hab
    · exact Or.inr ⟨hab.1, hbc.2⟩

namespace NastAtom

theorem f64s_symm {a b : NastAtom} (h : a.f64s b = true) : b.f64s a = true := by
  cases a <;> cases b <;> simp only [f64s, Bool.false_eq_true] at h ⊢
  exact f64Equal_symm h

theorem f64s_trans {a b c : NastAtom} (h : a.f64s b = true) (h' : b.f64s c = true) :
    a.f64s c = true := by
  cases a <;> cases b <;> simp only [f64s, Bool.false_eq_true] at h
  cases c <;> simp only [f64s, Bool.false_eq_true] at h' ⊢
  exact f64Equal_trans h h'

theorem equal_refl (a : NastAtom) : a.equal a = true := by simp [equal]

theorem equal_symm {a b : NastAtom} (h : a.equal b = true) : b.equal a = true := by
  simp only [equal, Bool.or_eq_true, decide_eq_true_iff] at h ⊢
  exact h.imp Eq.symm f64s_symm

theorem equal_trans {a b c : NastAtom} (h : a.equal b = true) (h' : b.equal c = true) :
    a.equal c = true := by
  simp only [equal, Bool.or_eq_true, decide_eq_true_iff] at h h' ⊢
  rcases h with rfl | h
  · exact h'
  · rcases h' with rfl | h'
    · exact Or.inr h
    · exact Or.inr (f64s_trans h h')

end NastAtom

namespace Nast

mutual

theorem fklVMvalueEqual_refl : ∀ n : Nast, fklVMvalueEqual n n = true
  | .atom a => by simp [fklVMvalueEqual, NastAtom.equal_refl]
  | .slot .. => by simp [fklVMvalueEqual]
  | .header => by simp [fklVMvalueEqual]
  | .pair a d => by simp [fklVMvalueEqual, fklVMvalueEqual_refl a, fklVMvalueEqual_refl d]
  | .block k es => by simp [fklVMvalueEqual, elemsEqual_refl es]

theorem elemsEqual_refl : ∀ es : List Nast, elemsEqual es es = true
  | [] => by simp [elemsEqual]
  | e :: es => by simp [elemsEqual, fklVMvalueEqual_refl e, elemsEqual_refl es]

end

mutual

theorem fklVMvalueEqual_symm : ∀ {n m : Nast}, fklVMvalueEqual n m = true →
    fklVMvalueEqual m n = true
  | .atom _, .atom _, h => by
    simp only [fklVMvalueEqual] at h ⊢
    exact NastAtom.equal_symm h
  | .slot .., .slot .., h => by simpa [fklVMvalueEqual, eq_comm] using h
  | .header, .header, h => h
  | .pair _ _, .pair _ _, h => by
    simp only [fklVMvalueEqual, Bool.and_eq_true] at h ⊢
    exact ⟨fklVMvalueEqual_symm h.1, fklVMvalueEqual_symm h.2⟩
  | .block _ _, .block _ _, h => by
    simp only [fklVMvalueEqual, Bool.and_eq_true, decide_eq_true_iff] at h ⊢
    exact ⟨h.1.symm, elemsEqual_symm h.2⟩

theorem elemsEqual_symm : ∀ {es es' : List Nast}, elemsEqual es es' = true →
    elemsEqual es' es = true
  | [], [], h => h
  | _ :: _, _ :: _, h => by
    simp only [elemsEqual, Bool.and_eq_true] at h ⊢
    exact ⟨fklVMvalueEqual_symm h.1, elemsEqual_symm h.2⟩

end

mutual

theorem fklVMvalueEqual_trans : ∀ {n m k : Nast}, fklVMvalueEqual n m = true →
    fklVMvalueEqual m k = true → fklVMvalueEqual n k = true
  | .atom _, .atom _, .atom _, h, h' => by
    simp only [fklVMvalueEqual] at h h' ⊢
    exact NastAtom.equal_trans h h'
  | .slot .., .slot .., .slot .., h, h' => by
    simp only [fklVMvalueEqual, decide_eq_true_iff] at h h' ⊢
    exact h.trans h'
  | .header, .header, .header, h, _ => h
  | .pair _ _, .pair _ _, .pair _ _, h, h' => by
    simp only [fklVMvalueEqual, Bool.and_eq_true] at h h' ⊢
    exact ⟨fklVMvalueEqual_trans h.1 h'.1, fklVMvalueEqual_trans h.2 h'.2⟩
  | .block _ _, .block _ _, .block _ _, h, h' => by
    simp only [fklVMvalueEqual, Bool.and_eq_true, decide_eq_true_iff] at h h' ⊢
    exact ⟨h.1.trans h'.1, elemsEqual_trans h.2 h'.2⟩

theorem elemsEqual_trans : ∀ {es es' es'' : List Nast}, elemsEqual es es' = true →
    elemsEqual es' es'' = true → elemsEqual es es'' = true
  | [], [], [], h, _ => h
  | _ :: _, _ :: _, _ :: _, h, h' => by
    simp only [elemsEqual, Bool.and_eq_true] at h h' ⊢
    exact ⟨fklVMvalueEqual_trans h.1 h'.1, elemsEqual_trans h.2 h'.2⟩

end

/-! Parts. -/

/-- What stands at the same place, from left to right. -/
def parts : Nast → Nast → List (Nast × Nast)
  | .pair a d, .pair a' d' => parts a a' ++ parts d d'
  | n0, n1 => [(n0, n1)]

/-- Two slots, or equal values. -/
def samePart (q : Nast × Nast) : Bool :=
  (fklIsVMvalueSlot q.1 && fklIsVMvalueSlot q.2) || fklVMvalueEqual q.1 q.2

theorem fklIsVMvalueSlot_iff {n : Nast} :
    fklIsVMvalueSlot n = true ↔ ∃ addr s expand, n = .slot addr s expand := by
  cases n <;> simp [fklIsVMvalueSlot]

theorem fklVMvalueEqual_slot {n0 n1 : Nast} (h : fklIsVMvalueSlot n0 ≠ fklIsVMvalueSlot n1) :
    fklVMvalueEqual n0 n1 = false := by
  cases n0 <;> cases n1 <;> simp_all [fklIsVMvalueSlot, fklVMvalueEqual]

theorem isPatternEqualLoop_eq (s : List (Nast × Nast)) :
    isPatternEqualLoop s = (s.flatMap fun n => parts n.1 n.2).all samePart := by
  induction s using isPatternEqualLoop.induct with
  | case1 => simp [isPatternEqualLoop]
  | case2 => simp_all [isPatternEqualLoop, parts, samePart, fklIsVMvalueSlot]
  | case3 => simp_all [isPatternEqualLoop, parts]
  | case4 n0 n1 s hslots hpairs heq =>
    have hslot : ¬(fklIsVMvalueSlot n0 = true ∧ fklIsVMvalueSlot n1 = true) := by
      rintro ⟨h0, h1⟩
      obtain ⟨addr, t, expand, rfl⟩ := fklIsVMvalueSlot_iff.mp h0
      obtain ⟨addr', t', expand', rfl⟩ := fklIsVMvalueSlot_iff.mp h1
      exact hslots _ _ _ _ _ _ rfl rfl
    simp_all [isPatternEqualLoop, parts, samePart]
  | case5 => simp_all [isPatternEqualLoop, parts, samePart]

/-- The slot test on the first part that differs. -/
def firstDifference (l : List (Nast × Nast)) : Bool :=
  ((l.find? fun q => !samePart q).map fun q => fklIsVMvalueSlot q.1).getD false

theorem firstDifference_cons (q : Nast × Nast) (l : List (Nast × Nast)) :
    firstDifference (q :: l) =
      if samePart q then firstDifference l else fklIsVMvalueSlot q.1 := by
  by_cases h : samePart q = true <;> simp [firstDifference, h]

theorem isPartlyCoveredLoop_eq (s : List (Nast × Nast)) :
    isPartlyCoveredLoop s = firstDifference (s.flatMap fun n => parts n.1 n.2) := by
  induction s using isPartlyCoveredLoop.induct with
  | case1 => simp [isPartlyCoveredLoop, firstDifference]
  | case2 => simp_all [isPartlyCoveredLoop, parts, firstDifference_cons, samePart, fklIsVMvalueSlot]
  | case3 addr t expand n1 s hslot =>
    have hne : fklVMvalueEqual (.slot addr t expand) n1 = false :=
      fklVMvalueEqual_slot (by simp_all [fklIsVMvalueSlot])
    simp_all [isPartlyCoveredLoop, parts, firstDifference_cons, samePart, fklIsVMvalueSlot]
  | case4 => simp_all [isPartlyCoveredLoop, parts]
  | case5 n0 n1 s hslot hpairs heq =>
    have hslot : fklIsVMvalueSlot n0 = false := by
      rw [Bool.eq_false_iff, ne_eq, fklIsVMvalueSlot_iff]
      rintro ⟨addr, t, expand, rfl⟩
      exact hslot addr t expand rfl
    simp_all [isPartlyCoveredLoop, parts, firstDifference_cons, samePart]
  | case6 => simp_all [isPartlyCoveredLoop, parts, firstDifference_cons, samePart]

/-! What a pattern accepts. -/

def accepts (header : List UInt8) : Nast → Nast → Bool
  | .slot .., _ => true
  | .header, e => isSymbol header e
  | .pair a d, .pair a' d' => accepts header a a' && accepts header d d'
  | p, e => fklVMvalueEqual p e

variable {header : List UInt8}

theorem patternMatchLoop_fst (s : List PmatchPair) (ht : Option FklPmatchHashMap) :
    (patternMatchLoop header s ht).1 = s.all fun t => accepts header t.pat t.exp := by
  induction s, ht using patternMatchLoop.induct header with
  | case1 => simp [patternMatchLoop]
  | case2 => simp_all [patternMatchLoop, accepts]
  | case3 => simp_all [patternMatchLoop, accepts]
  | case4 => simp_all [patternMatchLoop, accepts]
  | case5 => simp_all [patternMatchLoop, accepts, Bool.and_assoc]
  | case6 => simp_all [patternMatchLoop, accepts]
  | case7 => simp_all [patternMatchLoop, accepts]

theorem fklPatternMatch1_fst (p e : Nast) (ht : Option FklPmatchHashMap) :
    (fklPatternMatch1 header p e ht).1 = accepts header p e := by
  simp [fklPatternMatch1, patternMatchLoop_fst]

/-- The wildcard replaced by the head symbol. -/
def headed (header : List UInt8) : Nast → Nast
  | .header => .atom (.sym header)
  | n => n

theorem isSymbol_eq (e : Nast) : isSymbol header e = fklVMvalueEqual (.atom (.sym header)) e := by
  cases e with
  | atom a => cases a <;> simp [isSymbol, fklVMvalueEqual, NastAtom.equal, NastAtom.f64s, eq_comm]
  | _ => simp [isSymbol, fklVMvalueEqual]

def IsPair (n : Nast) : Prop := ∃ a d, n = .pair a d

theorem parts_of_not_pairs {n0 n1 : Nast} (h : ¬(IsPair n0 ∧ IsPair n1)) :
    parts n0 n1 = [(n0, n1)] := by
  cases n0 <;> cases n1 <;> simp_all [parts, IsPair]

theorem accepts_eq {p e : Nast} (hs : fklIsVMvalueSlot p = false) (hp : ¬(IsPair p ∧ IsPair e)) :
    accepts header p e = fklVMvalueEqual (headed header p) e := by
  cases p <;> cases e <;>
    simp_all [accepts, headed, IsPair, fklIsVMvalueSlot, isSymbol_eq]

/-- An expression that the pattern accepts. -/
def sample (header : List UInt8) : Nast → Nast
  | .pair a d => .pair (sample header a) (sample header d)
  | n => headed header n

theorem accepts_sample (p : Nast) : accepts header p (sample header p) = true := by
  induction p using sample.induct with
  | case1 a d iha ihd => simp [accepts, sample, iha, ihd]
  | case2 p hp => cases p <;> simp_all [accepts, sample, headed, isSymbol, fklVMvalueEqual_refl]

/-- A part where the first pattern accepts what the second does. -/
def coversPart (header : List UInt8) (q : Nast × Nast) : Bool :=
  fklIsVMvalueSlot q.1 || fklVMvalueEqual (headed header q.1) (headed header q.2)

theorem accepts_nil_or_fix {p : Nast} (hs : fklIsVMvalueSlot p = false)
    (h : ∀ e, accepts header p e = true) : False := by
  have hnil := h (.atom .nil)
  have hfix := h (.atom (.fix 0))
  rw [accepts_eq hs (by simp [IsPair])] at hnil hfix
  have hne := fklVMvalueEqual_trans (fklVMvalueEqual_symm hnil) hfix
  simp [fklVMvalueEqual, NastAtom.equal, NastAtom.f64s] at hne

theorem isPair_headed {n : Nast} : IsPair (headed header n) ↔ IsPair n := by
  cases n <;> simp [headed, IsPair]

theorem isPair_sample {n : Nast} : IsPair (sample header n) ↔ IsPair n := by
  cases n <;> simp [sample, headed, IsPair]

theorem isPair_congr {n m : Nast} (h : fklVMvalueEqual n m = true) : IsPair n ↔ IsPair m := by
  cases n <;> cases m <;> simp_all [fklVMvalueEqual, IsPair]

theorem fklIsVMvalueSlot_headed (n : Nast) :
    fklIsVMvalueSlot (headed header n) = fklIsVMvalueSlot n := by
  cases n <;> rfl

theorem included_of_not_pairs {p0 p1 : Nast} (hp : ¬(IsPair p0 ∧ IsPair p1)) :
    (∀ e, accepts header p1 e = true → accepts header p0 e = true) ↔
      coversPart header (p0, p1) = true := by
  by_cases hs : fklIsVMvalueSlot p0 = true
  · obtain ⟨addr, t, expand, rfl⟩ := fklIsVMvalueSlot_iff.mp hs
    simp [accepts, coversPart, fklIsVMvalueSlot]
  · rw [Bool.not_eq_true] at hs
    simp only [coversPart, hs, Bool.false_or]
    constructor
    · intro h
      by_cases hs' : fklIsVMvalueSlot p1 = true
      · obtain ⟨addr, t, expand, rfl⟩ := fklIsVMvalueSlot_iff.mp hs'
        exact (accepts_nil_or_fix hs fun e => h e (by simp [accepts])).elim
      · have hsample := h _ (accepts_sample p1)
        rw [accepts_eq hs (by rwa [isPair_sample])] at hsample
        have hpair : ¬IsPair p1 := fun hp1 =>
          hp ⟨isPair_headed.mp ((isPair_congr hsample).mpr (isPair_sample.mpr hp1)), hp1⟩
        have hheaded : sample header p1 = headed header p1 := by
          cases p1 <;> simp_all [sample, IsPair]
        rwa [hheaded] at hsample
    · intro h e he
      have hs' : fklIsVMvalueSlot p1 = false := by
        by_contra hs'
        rw [fklVMvalueEqual_slot (by simp_all [fklIsVMvalueSlot_headed])] at h
        cases h
      have hiff := isPair_congr h
      simp only [isPair_headed] at hiff
      have hp0 : ¬IsPair p0 := fun h0 => hp ⟨h0, hiff.mp h0⟩
      have hp1 : ¬IsPair p1 := fun h1 => hp0 (hiff.mpr h1)
      rw [accepts_eq hs' fun h => hp1 h.1] at he
      rw [accepts_eq hs fun h => hp0 h.1]
      exact fklVMvalueEqual_trans h he

/-- Inclusion is decided part by part. -/
theorem included_iff (p0 p1 : Nast) :
    (∀ e, accepts header p1 e = true → accepts header p0 e = true) ↔
      ∀ q ∈ parts p0 p1, coversPart header q = true := by
  induction p0, p1 using parts.induct with
  | case1 a d a' d' iha ihd =>
    simp only [parts, List.mem_append, or_imp, forall_and, ← iha, ← ihd]
    constructor
    · intro h
      constructor
      · intro e he
        have hboth := h (.pair e (sample header d')) (by simp [accepts, he, accepts_sample])
        simp only [accepts, Bool.and_eq_true] at hboth
        exact hboth.1
      · intro e he
        have hboth := h (.pair (sample header a') e) (by simp [accepts, he, accepts_sample])
        simp only [accepts, Bool.and_eq_true] at hboth
        exact hboth.2
    · rintro ⟨ha, hd⟩ e he
      cases e with
      | pair e1 e2 =>
        simp only [accepts, Bool.and_eq_true] at he ⊢
        exact ⟨ha e1 he.1, hd e2 he.2⟩
      | _ => simp [accepts, fklVMvalueEqual] at he
  | case2 p0 p1 hp =>
    have hpairs : ¬(IsPair p0 ∧ IsPair p1) := by
      rintro ⟨⟨a, d, rfl⟩, ⟨a', d', rfl⟩⟩
      exact hp a d a' d' rfl rfl
    rw [parts_of_not_pairs hpairs, included_of_not_pairs hpairs]
    simp

/-! The reported state. -/

theorem coversPart_of_samePart {q : Nast × Nast} (h : samePart q = true) :
    coversPart header q = true := by
  obtain ⟨n0, n1⟩ := q
  cases n0 <;> cases n1 <;>
    simp_all [samePart, coversPart, headed, fklIsVMvalueSlot, fklVMvalueEqual,
      NastAtom.equal_refl]

theorem samePart_swap {q : Nast × Nast} (h : samePart q = true) : samePart q.swap = true := by
  simp only [samePart, Bool.or_eq_true, Bool.and_eq_true, Prod.fst_swap, Prod.snd_swap] at h ⊢
  exact h.imp And.symm fklVMvalueEqual_symm

theorem parts_swap (p0 p1 : Nast) : parts p1 p0 = (parts p0 p1).map Prod.swap := by
  induction p0, p1 using parts.induct with
  | case1 a d a' d' iha ihd => simp [parts, iha, ihd]
  | case2 p0 p1 hp =>
    have hpairs : ¬(IsPair p0 ∧ IsPair p1) := by
      rintro ⟨⟨a, d, rfl⟩, ⟨a', d', rfl⟩⟩
      exact hp a d a' d' rfl rfl
    rw [parts_of_not_pairs hpairs, parts_of_not_pairs fun h => hpairs h.symm]
    rfl

theorem isPatternEqual_iff (p0 p1 : Nast) :
    isPatternEqual p0 p1 = true ↔ ∀ q ∈ parts p0 p1, samePart q = true := by
  simp [isPatternEqual, isPatternEqualLoop_eq]

theorem accepts_of_isPatternEqual {p0 p1 : Nast} (h : isPatternEqual p0 p1 = true) (e : Nast) :
    accepts header p0 e = accepts header p1 e := by
  have hsame := (isPatternEqual_iff p0 p1).mp h
  rw [Bool.eq_iff_iff]
  constructor
  · refine (included_iff p1 p0).mpr (fun q hq => ?_) e
    rw [parts_swap, List.mem_map] at hq
    obtain ⟨q, hq, rfl⟩ := hq
    exact coversPart_of_samePart (samePart_swap (hsame q hq))
  · exact (included_iff p0 p1).mpr (fun q hq => coversPart_of_samePart (hsame q hq)) e

theorem firstDifference_iff (l : List (Nast × Nast)) :
    firstDifference l = true ↔ ∃ pre n0 n1 post, l = pre ++ (n0, n1) :: post ∧
      (∀ q ∈ pre, samePart q = true) ∧ fklIsVMvalueSlot n0 = true ∧
      fklIsVMvalueSlot n1 = false := by
  constructor
  · intro h
    induction l with
    | nil => simp [firstDifference] at h
    | cons q l ih =>
      rw [firstDifference_cons] at h
      by_cases hq : samePart q = true
      · rw [if_pos hq] at h
        obtain ⟨pre, n0, n1, post, rfl, hpre, hn⟩ := ih h
        exact ⟨q :: pre, n0, n1, post, rfl, List.forall_mem_cons.mpr ⟨hq, hpre⟩, hn⟩
      · rw [if_neg hq] at h
        exact ⟨[], q.1, q.2, l, rfl, by simp, h, by simp_all [samePart]⟩
  · rintro ⟨pre, n0, n1, post, rfl, hpre, hn0, hn1⟩
    induction pre with
    | nil =>
      have hne : fklVMvalueEqual n0 n1 = false := fklVMvalueEqual_slot (by simp [hn0, hn1])
      simp [firstDifference_cons, samePart, hn0, hn1, hne]
    | cons q pre ih =>
      rw [List.cons_append, firstDifference_cons, if_pos (hpre q (by simp))]
      exact ih fun q hq => hpre q (by simp [hq])

/-- The report of equality or of a cover is true of every expression. -/
def CoverStateRight (header : List UInt8) (p0 p1 : Nast) : Prop :=
  (fklPatternCoverState p0 p1 = .cover → ∀ e, (fklPatternMatch1 header p1 e none).1 = true →
    (fklPatternMatch1 header p0 e none).1 = true) ∧
  (fklPatternCoverState p0 p1 = .equal → ∀ e,
    (fklPatternMatch1 header p0 e none).1 = (fklPatternMatch1 header p1 e none).1)

/-- Where the first difference is a slot of `p0`, all that follows is covered too. -/
def LaterPartsCovered (header : List UInt8) (p0 p1 : Nast) : Prop :=
  ∀ pre n0 n1 post, parts p0 p1 = pre ++ (n0, n1) :: post → (∀ q ∈ pre, samePart q = true) →
    fklIsVMvalueSlot n0 = true → fklIsVMvalueSlot n1 = false →
      ∀ q ∈ post, coversPart header q = true

/-- The three tests in terms of the parts. -/
def partsCoverState (p0 p1 : Nast) : FklPatternCover :=
  if (parts p0 p1).all samePart then .equal
  else if firstDifference (parts p0 p1) then .cover
  else if firstDifference (parts p1 p0) then .beCover
  else .notEqual

theorem fklPatternCoverState_eq (p0 p1 : Nast) :
    fklPatternCoverState p0 p1 = partsCoverState p0 p1 := by
  have hequal : isPatternEqual p0 p1 = (parts p0 p1).all samePart := by
    simp [isPatternEqual, isPatternEqualLoop_eq]
  rw [fklPatternCoverState, partsCoverState, hequal]
  simp [isPartlyCovered, isPartlyCoveredLoop_eq]

theorem firstDifference_of_all {l : List (Nast × Nast)} (h : l.all samePart = true) :
    firstDifference l = false := by
  have hnone : l.find? (fun q => !samePart q) = none := by simpa using h
  simp [firstDifference, hnone]

theorem fklPatternCoverState_cover_iff (p0 p1 : Nast) :
    fklPatternCoverState p0 p1 = .cover ↔ firstDifference (parts p0 p1) = true := by
  rw [fklPatternCoverState_eq, partsCoverState]
  split
  · next h => simp [firstDifference_of_all h]
  · split
    · next hd => simp [hd]
    · next hd => split <;> simp [hd]

theorem coverStateRight_iff (header : List UInt8) (p0 p1 : Nast) :
    CoverStateRight header p0 p1 ↔ LaterPartsCovered header p0 p1 := by
  unfold CoverStateRight LaterPartsCovered
  simp only [fklPatternMatch1_fst, fklPatternCoverState_cover_iff, firstDifference_iff,
    included_iff]
  constructor
  · rintro ⟨hcover, -⟩ pre n0 n1 post hparts hpre hn0 hn1 q hq
    exact hcover ⟨pre, n0, n1, post, hparts, hpre, hn0, hn1⟩ q (by simp [hparts, hq])
  · intro h
    refine ⟨?_, fun heq => accepts_of_isPatternEqual ?_⟩
    · rintro ⟨pre, n0, n1, post, hparts, hpre, hn0, hn1⟩ q hq
      have hpost := h pre n0 n1 post hparts hpre hn0 hn1
      simp only [hparts, List.mem_append, List.mem_cons] at hq
      rcases hq with hq | rfl | hq
      · exact coversPart_of_samePart (hpre q hq)
      · simp [coversPart, hn0]
      · exact hpost q hq
    · by_contra hne
      rw [fklPatternCoverState, if_neg hne] at heq
      split at heq
      · cases heq
      · split at heq <;> cases heq

/-- `(?x 1)` is taken to cover `(2 3)`. -/
theorem slotThenOne_not_coverStateRight :
    ¬CoverStateRight [0x6d]
      (.pair (.slot 0 [0x78] .none) (.pair (.atom (.fix 1)) (.atom .nil)))
      (.pair (.atom (.fix 2)) (.pair (.atom (.fix 3)) (.atom .nil))) := by
  rintro ⟨hcover, -⟩
  have hstate := hcover (by
    rw [fklPatternCoverState_cover_iff]
    decide)
    (.pair (.atom (.fix 2)) (.pair (.atom (.fix 3)) (.atom .nil)))
  simp [fklPatternMatch1_fst, accepts, fklVMvalueEqual, NastAtom.equal, NastAtom.f64s] at hstate

end Nast

end FakeLisp
