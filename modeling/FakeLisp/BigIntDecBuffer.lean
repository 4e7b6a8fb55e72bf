import FakeLisp.BigIntPrint

/-! The conversion to limbs of base `10⁹` one machine operation after the other: in every state that
it reaches the limbs lie in their block and the carries are digits. -/

namespace FakeLisp

/-- Before the digits below `i`, before limb `j`, and in `while (hi)`. -/
inductive DecPoint where
  | digit (i : Nat)
  | limb (i j hi : Nat)
  | push (i hi : Nat)

namespace DecPoint

def index : DecPoint → Nat
  | digit i | limb i _ _ | push i _ => i

def carry : DecPoint → Nat
  | digit _ => 0
  | limb _ _ hi | push _ hi => hi

end DecPoint

structure DecRun where
  point : DecPoint
  pout : List Nat

/-- With the conversions between 64 and 32 bits. A store is not checked against the block. -/
def decNext (digits : Nat → Nat) : DecRun → Option DecRun
  | ⟨.digit 0, _⟩ => none
  | ⟨.digit (i + 1), pout⟩ => some ⟨.limb i 0 (digits i), pout⟩
  | ⟨.limb i j hi, pout⟩ =>
    if j < pout.length then
      let z := u64 (pout.getD j 0 <<< digitShift : Nat) ||| hi
      let q := u32 (z / decimalBase : Nat)
      some ⟨.limb i (j + 1) q, pout.set j (u32 (u64 ((z : Int) - u64 (q * decimalBase : Nat))))⟩
    else some ⟨.push i hi, pout⟩
  | ⟨.push i hi, pout⟩ =>
    if hi = 0 then some ⟨.digit i, pout⟩
    else some ⟨.push i (hi / decimalBase), pout ++ [hi % decimalBase]⟩

abbrev DecReaches (digits : Nat → Nat) : DecRun → DecRun → Prop :=
  StateTransition.Reaches (decNext digits)

/-- The words of the block that is allocated for the limbs. -/
def decCapacity (a : FklBigInt) : Nat :=
  let sizeA := (fklAbs a.num).toNat
  let d := (33 * decimalShift) / (10 * digitShift - 33 * decimalShift)
  1 + sizeA + sizeA / d

def DecRun.start (a : FklBigInt) : DecRun := ⟨.digit (fklAbs a.num).toNat, []⟩

/-- `if (size == 0) pout[size++] = 0` -/
def topLimb (pout : List Nat) : List Nat := if pout = [] then [0] else pout

/-- The length asked of the allocator for these limbs, and what is written from the end. -/
def decText (neg : Bool) (pout : List Nat) : Option (Nat × List Char) := do
  let len := countTenpow 10 10 (pout.getLastD 0)
    ((if neg then 1 else 0) + 1 + (pout.length - 1) * decimalShift)
  let text ← writeLimbs pout []
  some (len, if neg then '-' :: text else text)

/-- What one step of the conversion needs of the state. -/
structure DecRun.Sound (n : Nat) (s : DecRun) : Prop where
  index_le : s.point.index ≤ n
  limb_lt : ∀ x ∈ s.pout, x < decimalBase
  carry_lt : s.point.carry < digitBase

/-- The limbs lie in a block of `capacity` words, and no conversion cuts off a carry. -/
structure DecRun.InRange (n capacity : Nat) (s : DecRun) : Prop extends s.Sound n where
  length_le : s.pout.length ≤ capacity
  quotient_lt : ∀ x ∈ s.pout, twoDigits x s.point.carry / decimalBase < digitBase

/-- The text fills what was asked of the allocator. -/
def DecBufferRight (a : FklBigInt) : Prop :=
  (∀ s, DecReaches a.digits (DecRun.start a) s →
    s.InRange (fklAbs a.num).toNat (decCapacity a)) ∧
  ∃ pout out, DecReaches a.digits (DecRun.start a) ⟨.digit 0, pout⟩ ∧
    (topLimb pout).length ≤ decCapacity a ∧
    decText (a.num < 0) (topLimb pout) = some out ∧ out.2.length = out.1

theorem bigintToDecStringBuffer_eq (a : FklBigInt) : bigintToDecStringBuffer a = (do
    fklAssert (a.num ≠ 0)
    let pout ← decConvert a.digits (decCapacity a) (fklAbs a.num).toNat []
    decText (a.num < 0) (topLimb pout)) := by
  simp only [bigintToDecStringBuffer, decText, topLimb, decCapacity, decide_eq_true_eq]

/-! The machine operations. -/

theorem carry_lt_of_limb {x hi : Nat} (hx : x < decimalBase) (hhi : hi < digitBase) :
    twoDigits x hi / decimalBase < digitBase := by
  rw [twoDigits_eq hhi]
  exact limb_carry_lt hx hhi

/-- A limb and a digit fill 60 bits, so the conversions change nothing. -/
theorem decNext_limb {digits : Nat → Nat} {i j hi : Nat} {pout : List Nat} (hj : j < pout.length)
    (hx : pout.getD j 0 < decimalBase) (hhi : hi < digitBase) :
    decNext digits ⟨.limb i j hi, pout⟩ =
      some ⟨.limb i (j + 1) (twoDigits (pout.getD j 0) hi / decimalBase),
        pout.set j (twoDigits (pout.getD j 0) hi % decimalBase)⟩ := by
  have hq := carry_lt_of_limb hx hhi
  generalize hget : pout.getD j 0 = x at hx hq
  have hshift : x <<< digitShift < 2 ^ 64 := by
    rw [Nat.shiftLeft_eq]
    calc x * 2 ^ digitShift < decimalBase * 2 ^ digitShift :=
          Nat.mul_lt_mul_of_pos_right hx (by decide)
      _ < 2 ^ 64 := by decide
  have hz : u64 (x <<< digitShift : Nat) ||| hi = twoDigits x hi := by rw [u64_of_lt hshift]; rfl
  have hdm := Nat.div_add_mod (twoDigits x hi) decimalBase
  have hmod : twoDigits x hi % decimalBase < 2 ^ 32 := 
    (Nat.mod_lt _ (by decide)).trans (by decide)
  generalize twoDigits x hi = z at hq hz hdm hmod
  have hbase : z / decimalBase < 2 ^ 32 := hq.trans (by decide)
  have hmul : z / decimalBase * decimalBase < 2 ^ 64 := by
    calc z / decimalBase * decimalBase < digitBase * decimalBase :=
          Nat.mul_lt_mul_of_pos_right hq (by decide)
      _ < 2 ^ 64 := by decide
  have hsub : (z : Int) - (z / decimalBase * decimalBase : Nat) = (z % decimalBase : Nat) := by
    rw [Nat.mul_comm] at hmul ⊢
    omega
  simp only [decNext, if_pos hj, hget, hz, u32_of_lt hbase, u64_of_lt hmul, hsub]
  rw [u64_of_lt (hmod.trans (by decide)), u32_of_lt hmod]

section

variable {digits : Nat → Nat} {n : Nat}

/-- A step keeps the limbs and the carry in range and takes no limb away. -/
theorem DecRun.Sound.next {s t : DecRun} (hd : ∀ i < n, digits i < digitBase) (h : s.Sound n)
    (hs : t ∈ decNext digits s) : t.Sound n ∧ s.pout.length ≤ t.pout.length := by
  obtain ⟨point, pout⟩ := s
  obtain ⟨hi, hlimb, hcarry⟩ := h
  have hD : 0 < decimalBase := by decide
  cases point with
  | digit i =>
    cases i with
    | zero => cases hs
    | succ i =>
      obtain rfl := Option.some.inj hs
      exact ⟨⟨Nat.le_of_succ_le hi, hlimb, hd i hi⟩, le_rfl⟩
  | limb i j c =>
    change c < digitBase at hcarry
    by_cases hj : j < pout.length
    · have hx : pout.getD j 0 < decimalBase := by
        rw [List.getD_eq_getElem _ _ hj]
        exact hlimb _ (List.getElem_mem hj)
      rw [decNext_limb hj hx hcarry] at hs
      obtain rfl := Option.some.inj hs
      refine ⟨⟨hi, fun x hx' => ?_, carry_lt_of_limb hx hcarry⟩, List.length_set.ge⟩
      rcases List.mem_or_eq_of_mem_set hx' with hx' | rfl
      · exact hlimb x hx'
      · exact Nat.mod_lt _ hD
    · simp only [decNext, if_neg hj] at hs
      obtain rfl := Option.some.inj hs
      exact ⟨⟨hi, hlimb, hcarry⟩, le_rfl⟩
  | push i c =>
    by_cases hc : c = 0
    · simp only [decNext, if_pos hc] at hs
      obtain rfl := Option.some.inj hs
      exact ⟨⟨hi, hlimb, digitBase_pos⟩, le_rfl⟩
    · simp only [decNext, if_neg hc] at hs
      obtain rfl := Option.some.inj hs
      refine ⟨⟨hi, fun x hx => ?_, (Nat.div_le_self _ _).trans_lt hcarry⟩, by simp⟩
      rcases List.mem_append.mp hx with hx | hx
      · exact hlimb x hx
      · rw [List.mem_singleton.mp hx]
        exact Nat.mod_lt _ hD

theorem DecRun.Sound.reaches {s t : DecRun} (hd : ∀ i < n, digits i < digitBase) (h : s.Sound n)
    (hs : DecReaches digits s t) : t.Sound n ∧ s.pout.length ≤ t.pout.length := by
  induction hs with
  | refl => exact ⟨h, le_rfl⟩
  | tail _ hstep ih =>
    obtain ⟨hmid, hle⟩ := ih
    obtain ⟨hlast, hle'⟩ := hmid.next hd hstep
    exact ⟨hlast, hle.trans hle'⟩

/-! The loops. -/

variable (digits) in
theorem reaches_decMulAdd (i : Nat) (pre pout : List Nat) (hi : Nat)
    (hp : ∀ x ∈ pout, x < decimalBase) (hhi : hi < digitBase) :
    DecReaches digits ⟨.limb i pre.length hi, pre ++ pout⟩
      ⟨.push i (decMulAdd pout hi).2, pre ++ (decMulAdd pout hi).1⟩ := by
  induction pout generalizing pre hi with
  | nil =>
    refine Relation.ReflTransGen.single (Option.mem_def.mpr ?_)
    simp [decNext, decMulAdd]
  | cons x pout ih =>
    have hx := hp x List.mem_cons_self
    have hget : (pre ++ x :: pout).getD pre.length 0 = x := by simp
    have hstep : decNext digits ⟨.limb i pre.length hi, pre ++ x :: pout⟩ =
        some ⟨.limb i (pre.length + 1) (twoDigits x hi / decimalBase),
          pre ++ twoDigits x hi % decimalBase :: pout⟩ := by
      rw [decNext_limb (by simp) (by rwa [hget]) hhi, hget]
      simp
    have hlow : twoDigits x hi - twoDigits x hi / decimalBase * decimalBase =
        twoDigits x hi % decimalBase := by
      rw [Nat.mul_comm, ← Nat.mod_eq_sub_mul_div]
    have hrest := ih (pre ++ [twoDigits x hi % decimalBase]) (twoDigits x hi / decimalBase)
      (fun y hy => hp y (List.mem_cons_of_mem x hy)) (carry_lt_of_limb hx hhi)
    rw [List.length_append, List.length_singleton, List.append_assoc, List.append_assoc] at hrest
    refine Relation.ReflTransGen.head (Option.mem_def.mpr hstep) ?_
    rw [decMulAdd, hlow]
    exact hrest

variable (digits) in
theorem reaches_decPush (i : Nat) {capacity fuel hi : Nat} {pout pout' : List Nat}
    (h : decPush capacity fuel hi pout = some pout') :
    DecReaches digits ⟨.push i hi, pout⟩ ⟨.digit i, pout'⟩ ∧
      (pout.length ≤ capacity → pout'.length ≤ capacity) := by
  induction fuel generalizing hi pout with
  | zero =>
    obtain ⟨h0, heq⟩ := Option.ite_none_right_eq_some.mp h
    obtain rfl := Option.some.inj heq
    exact ⟨Relation.ReflTransGen.single (by simp [decNext, h0]), id⟩
  | succ fuel ih =>
    unfold decPush at h
    by_cases h0 : hi = 0
    · rw [if_pos h0] at h
      obtain rfl := Option.some.inj h
      exact ⟨Relation.ReflTransGen.single (by simp [decNext, h0]), id⟩
    · rw [if_neg h0] at h
      obtain ⟨hlt, hpush⟩ := Option.ite_none_right_eq_some.mp h
      obtain ⟨hrun, hlen⟩ := ih hpush
      refine ⟨Relation.ReflTransGen.head ?_ hrun, fun _ => hlen ?_⟩
      · simp [decNext, h0]
      · rw [List.length_append, List.length_singleton]
        exact hlt

theorem reaches_decConvert {capacity i : Nat} {pout pout' : List Nat}
    (hd : ∀ i < n, digits i < digitBase) (hi : i ≤ n) (hp : ∀ x ∈ pout, x < decimalBase)
    (h : decConvert digits capacity i pout = some pout') :
    DecReaches digits ⟨.digit i, pout⟩ ⟨.digit 0, pout'⟩ ∧
      (pout.length ≤ capacity → pout'.length ≤ capacity) := by
  induction i generalizing pout with
  | zero =>
    obtain rfl := Option.some.inj h
    exact ⟨Relation.ReflTransGen.refl, id⟩
  | succ i ih =>
    obtain ⟨pout1, hpush, hconv⟩ := Option.bind_eq_some_iff.mp h
    have hmul := reaches_decMulAdd digits i [] pout (digits i) hp (hd i hi)
    obtain ⟨hpushed, hlen1⟩ := reaches_decPush digits i hpush
    have hread : DecReaches digits ⟨.digit (i + 1), pout⟩ ⟨.limb i 0 (digits i), pout⟩ :=
      Relation.ReflTransGen.single (Option.mem_def.mpr rfl)
    have hround : DecReaches digits ⟨.digit (i + 1), pout⟩ ⟨.digit i, pout1⟩ :=
      (hread.trans hmul).trans hpushed
    have hsound : DecRun.Sound n ⟨.digit (i + 1), pout⟩ := ⟨hi, hp, digitBase_pos⟩
    obtain ⟨hrest, hlen⟩ := ih (Nat.le_of_succ_le hi) (hsound.reaches hd hround).1.limb_lt hconv
    refine ⟨hround.trans hrest, fun hle => hlen (hlen1 ?_)⟩
    rwa [(decMulAdd_spec pout (digits i) hp (hd i hi)).2.1]

end

/-- A run that ends is the longest one, and so no state before its end has more limbs. -/
theorem length_le_of_final {digits : Nat → Nat} {n : Nat} {s t : DecRun} {pout : List Nat}
    (hd : ∀ i < n, digits i < digitBase) (h : s.Sound n) (hs : DecReaches digits s t)
    (hfinal : DecReaches digits s ⟨.digit 0, pout⟩) : t.pout.length ≤ pout.length := by
  rcases StateTransition.reaches_total hs hfinal with hrest | hrest
  · exact ((h.reaches hd hs).1.reaches hd hrest).2
  · rcases Relation.ReflTransGen.cases_head hrest with rfl | ⟨u, hu, _⟩
    · exact le_rfl
    · cases hu

/-! The text. -/

/-- A zero has no limbs, and the others are printed as before. -/
theorem exists_decText {a : FklBigInt} (ha : a.Normalized) :
    ∃ pout out, decConvert a.digits (decCapacity a) (fklAbs a.num).toNat [] = some pout ∧
      decText (a.num < 0) (topLimb pout) = some out ∧ out.2.length = out.1 := by
  by_cases h0 : a.num = 0
  · refine ⟨[], (1, ['0']), ?_, ?_, rfl⟩
    · rw [fklAbs_toNat, h0]
      rfl
    · rw [h0]
      decide
  · obtain ⟨out, ds, hprint, hout⟩ := bigintToDecStringBuffer_spec ha h0
    simp only [bigintToDecStringBuffer_eq, fklAssert_eq_some h0, Option.bind_eq_bind,
      Option.bind_some] at hprint
    obtain ⟨pout, hconv, htext⟩ := Option.bind_eq_some_iff.mp hprint
    exact ⟨pout, out, hconv, htext, hout.length_eq.symm⟩

/-- The block holds the limbs, no carry is cut off, and the text fills its buffer. -/
theorem decBufferRight {a : FklBigInt} (ha : a.Normalized) : DecBufferRight a := by
  obtain ⟨pout, out, hconv, htext, hlen⟩ := exists_decText ha
  have hd : ∀ i < (fklAbs a.num).toNat, a.digits i < digitBase := by
    rw [fklAbs_toNat]
    exact ha.digit_lt
  have hstart : (DecRun.start a).Sound (fklAbs a.num).toNat :=
    ⟨le_rfl, fun _ hx => absurd hx List.not_mem_nil, digitBase_pos⟩
  obtain ⟨hfinal, hfit⟩ := reaches_decConvert hd le_rfl hstart.limb_lt hconv
  have hle : pout.length ≤ decCapacity a := hfit (Nat.zero_le _)
  refine ⟨fun s hs => ?_, pout, out, hfinal, ?_, htext, hlen⟩
  · have hsound := (hstart.reaches hd hs).1
    exact ⟨hsound, (length_le_of_final hd hstart hs hfinal).trans hle,
      fun x hx => carry_lt_of_limb (hsound.limb_lt x hx) hsound.carry_lt⟩
  · rw [topLimb]
    split_ifs with hnil
    · exact (Nat.le_add_right 1 _).trans (Nat.le_add_right _ _)
    · exact hle

/-- `-(2³⁰ - 1) * 2³⁰`, whose top digit takes two limbs. -/
def twoLimbDigit : FklBigInt := ⟨fun i => if i = 1 then digitMask else 0, -2, 2, false⟩

theorem twoLimbDigit_right : twoLimbDigit.Normalized ∧ DecBufferRight twoLimbDigit :=
  have h : twoLimbDigit.Normalized := ⟨⟨by decide, by decide⟩, by decide⟩
  ⟨h, decBufferRight h⟩

end FakeLisp
