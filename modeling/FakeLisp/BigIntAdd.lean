import FakeLisp.BigIntSet

/-! Addition and subtraction in place. The operands are named objects of a
memory, so that one object may be both. -/

namespace FakeLisp

abbrev BigIntMem (ρ : Type) := ρ → FklBigInt

variable {ρ : Type} [DecidableEq ρ]

/-- Word `i` of the block of `r` while the block of `dst` holds `d`. -/
def BigIntMem.word (m : BigIntMem ρ) (dst : ρ) (d : Nat → Nat) (r : ρ) (i : Nat) : Nat :=
  if r = dst then d i else (m r).digits i

/-- `m` becomes `m'` by giving the object `a` the value `v`, normalized. -/
structure Leaves (m m' : BigIntMem ρ) (a : ρ) (v : Int) : Prop where
  value : (m' a).value = v
  normalized : (m' a).Normalized
  constSize : (m' a).constSize = (m a).constSize
  frame : ∀ r, r ≠ a → m' r = m r

/-- The first digit loop of `x_add`. -/
def addRound (m : BigIntMem ρ) (a digitsA digitsB : ρ) (i : Nat) (s : (Nat → Nat) × Nat) :
    (Nat → Nat) × Nat :=
  let carry := u32 (s.2 + u32 (m.word a s.1 digitsA i + m.word a s.1 digitsB i : Nat) : Nat)
  (Function.update s.1 i (carry &&& digitMask), carry >>> digitShift)

/-- The second digit loop of `x_add`. -/
def carryRound (m : BigIntMem ρ) (a digitsA : ρ) (i : Nat) (s : (Nat → Nat) × Nat) :
    (Nat → Nat) × Nat :=
  let carry := u32 (s.2 + m.word a s.1 digitsA i : Nat)
  (Function.update s.1 i (carry &&& digitMask), carry >>> digitShift)

def xAddDigits (m : BigIntMem ρ) (a digitsA digitsB : ρ) (numA numB : Nat) (d : Nat → Nat) :
    (Nat → Nat) × Nat :=
  forUpTo (carryRound m a digitsA) numB (numA - numB)
    (forUpTo (addRound m a digitsA digitsB) 0 numB (d, 0))

def xAdd (m : BigIntMem ρ) (a b : ρ) : Option (BigIntMem ρ) := do
  let numA := (fklAbs (m a).num).toNat
  let numB := (fklAbs (m b).num).toNat
  let (numA, numB, digitsA, digitsB) :=
    if numA < numB then (numB, numA, b, a) else (numA, numB, a, b)
  let x ← ensureBigintSize (m a) (numA + 1)
  let (d, carry) := xAddDigits m a digitsA digitsB numA numB x.digits
  some (Function.update m a (bigintNormalize
    { x with num := numA + 1, digits := Function.update d numA (carry &&& digitMask) }))

/-- The digits that `x_sub` and `x_sub2` subtract from which, after the comparison. -/
structure SubPlan (ρ : Type) where
  digitsA : ρ
  digitsB : ρ
  numA : Nat
  numB : Nat
  sign : Int

/-- One above the highest differing word, zero when there is none. -/
def topDiff (d e : Nat → Nat) : Nat → Nat
  | 0 => 0
  | i + 1 => if d i = e i then topDiff d e i else i + 1

/-- The part that `x_sub` and `x_sub2` share; `none` is their early return on equal digits. -/
def subPlan (m : BigIntMem ρ) (a b : ρ) : Option (SubPlan ρ) :=
  let numA := (fklAbs (m a).num).toNat
  let numB := (fklAbs (m b).num).toNat
  if numA < numB then some ⟨b, a, numB, numA, -1⟩
  else if numA = numB then
    match topDiff (m a).digits (m b).digits numA with
    | 0 => none
    | i + 1 =>
      if (m a).digits i < (m b).digits i then some ⟨b, a, i + 1, i + 1, -1⟩
      else some ⟨a, b, i + 1, i + 1, 1⟩
  else some ⟨a, b, numA, numB, 1⟩

/-- The first digit loop of `x_sub` and `x_sub2`; `dst` is the object written. -/
def subRound (m : BigIntMem ρ) (dst digitsA digitsB : ρ) (i : Nat) (s : (Nat → Nat) × Nat) :
    (Nat → Nat) × Nat :=
  let borrow := u32 ((m.word dst s.1 digitsA i : Int) - m.word dst s.1 digitsB i - s.2)
  (Function.update s.1 i (borrow &&& digitMask), (borrow >>> digitShift) &&& 1)

/-- The second digit loop of `x_sub` and `x_sub2`. -/
def borrowRound (m : BigIntMem ρ) (dst digitsA : ρ) (i : Nat) (s : (Nat → Nat) × Nat) :
    (Nat → Nat) × Nat :=
  let borrow := u32 ((m.word dst s.1 digitsA i : Int) - s.2)
  (Function.update s.1 i (borrow &&& digitMask), (borrow >>> digitShift) &&& 1)

def subDigits (m : BigIntMem ρ) (dst : ρ) (p : SubPlan ρ) (d : Nat → Nat) : (Nat → Nat) × Nat :=
  forUpTo (borrowRound m dst p.digitsA) p.numB (p.numA - p.numB)
    (forUpTo (subRound m dst p.digitsA p.digitsB) 0 p.numB (d, 0))

def xSub (m : BigIntMem ρ) (a b : ρ) : Option (BigIntMem ρ) := do
  let x ← ensureBigintSize (m a) (max (fklAbs (m a).num).toNat (fklAbs (m b).num).toNat + 1)
  match subPlan m a b with
  | none => some (Function.update m a { x with num := 0 })
  | some p =>
    let (d, borrow) := subDigits m a p x.digits
    if borrow = 0 then
      -- without a swap `a->num` keeps the length it had before the comparison
      let num := if p.sign < 0 then (if x.num < 0 then (p.numA : Int) else -p.numA) else x.num
      some (Function.update m a (bigintNormalize { x with num := num, digits := d }))
    else none

def xSub2 (m : BigIntMem ρ) (a b : ρ) : Option (BigIntMem ρ) := do
  let y ← ensureBigintSize (m b) (max (fklAbs (m a).num).toNat (fklAbs (m b).num).toNat + 1)
  match subPlan m a b with
  | none => some (Function.update m b { y with num := 0 })
  | some p =>
    let (d, borrow) := subDigits m b p y.digits
    if borrow = 0 then
      some (Function.update m b (bigintNormalize { y with num := p.numA * p.sign, digits := d }))
    else none

/-- `a->num = -a->num` -/
def negNum (m : BigIntMem ρ) (a : ρ) : BigIntMem ρ :=
  Function.update m a { m a with num := -(m a).num }

def fklAddBigInt (m : BigIntMem ρ) (a b : ρ) : Option (BigIntMem ρ) :=
  if fklAbs (m a).num ≤ 1 ∧ fklAbs (m b).num ≤ 1 then do
    let x ← fklSetBigIntI (m a) (mediumValue (m a) + mediumValue (m b))
    some (Function.update m a x)
  else if (m a).num < 0 then
    if (m b).num < 0 then do
      let m ← xAdd m a b
      some (negNum m a)
    else xSub2 m b a
  else if (m b).num < 0 then xSub m a b
  else xAdd m a b

def fklSubBigInt (m : BigIntMem ρ) (a b : ρ) : Option (BigIntMem ρ) :=
  if fklAbs (m a).num ≤ 1 ∧ fklAbs (m b).num ≤ 1 then do
    let x ← fklSetBigIntI (m a) (mediumValue (m a) - mediumValue (m b))
    some (Function.update m a x)
  else if (m a).num < 0 then
    if (m b).num < 0 then xSub m a b
    else do
      let m ← xAdd m a b
      some (negNum m a)
  else if (m b).num < 0 then xAdd m a b
  else xSub m a b

/-! The digit loops. Words from position `i` on are still the old ones, so a
source that is also the destination is read before it is written. -/

theorem BigIntMem.word_eq {m : BigIntMem ρ} {dst r : ρ} {d : Nat → Nat} {i : Nat}
    (h : d i = (m dst).digits i) : m.word dst d r i = (m r).digits i := by
  unfold BigIntMem.word
  split
  · rw [h]; subst r; rfl
  · rfl

theorem digitBase_eq : digitBase = 1073741824 := by decide

/-- One step of an adding loop. -/
theorem add_step {x c : Nat} (hx : x ≤ 2 * (digitBase - 1)) (hc : c ≤ 1) :
    let t := u32 (c + x : Nat)
    (t &&& digitMask) < digitBase ∧ t >>> digitShift ≤ 1 ∧
      (t &&& digitMask) + digitBase * (t >>> digitShift) = c + x := by
  have ht : u32 (c + x : Nat) = c + x := toUnsigned_natCast (by rw [digitBase_eq] at hx; omega)
  simp only [ht, land_digitMask, shiftRight_digitShift, digitBase_eq] at hx ⊢
  omega

/-- One step of a subtracting loop: a borrow fills the two bits above the digit with ones. -/
theorem sub_step {x y c : Nat} (hx : x < digitBase) (hy : y < digitBase) (hc : c ≤ 1) :
    let t := u32 ((x : Int) - y - c)
    (t &&& digitMask) < digitBase ∧ (t >>> digitShift) &&& 1 ≤ 1 ∧
      (t &&& digitMask) + y + c = x + digitBase * ((t >>> digitShift) &&& 1) := by
  have ht := toUnsigned_cast 32 ((x : Int) - y - c)
  simp only [land_digitMask, shiftRight_digitShift, Nat.and_one_is_mod, u32, digitBase_eq]
    at hx hy ⊢
  omega

/-- The words of `m r` below `n` are digits. -/
def DigitsBelow (m : BigIntMem ρ) (r : ρ) (n : Nat) : Prop := ∀ i < n, (m r).digits i < digitBase

/-- What holds before round `i` of an in-place loop that has passed on carry `c` and
whose rounds so far have summed up to `t`. -/
structure AddInv (old d : Nat → Nat) (i c t : Nat) : Prop where
  digit_lt : ∀ j < i, d j < digitBase
  carry_le : c ≤ 1
  untouched : ∀ j, i ≤ j → d j = old j
  sum : positional digitBase d i + c * digitBase ^ i = t

theorem digits_update {d : Nat → Nat} {i x : Nat} (h : ∀ j < i, d j < digitBase)
    (hx : x < digitBase) : ∀ j < i + 1, Function.update d i x j < digitBase := by
  intro j hj
  rcases Nat.lt_succ_iff_lt_or_eq.mp hj with hj | rfl
  · simpa [Function.update_of_ne (Nat.ne_of_lt hj)] using h j hj
  · simpa using hx

theorem untouched_update {old d : Nat → Nat} {i x : Nat} (h : ∀ j, i ≤ j → d j = old j) :
    ∀ j, i + 1 ≤ j → Function.update d i x j = old j := by
  intro j hj
  rw [Function.update_of_ne (by omega)]
  exact h j (by omega)

theorem AddInv.zero (old : Nat → Nat) : AddInv old old 0 0 0 :=
  ⟨by omega, by omega, fun _ _ => rfl, by simp⟩

theorem AddInv.step {old d : Nat → Nat} {i c t x : Nat} (h : AddInv old d i c t)
    (hx : x ≤ 2 * (digitBase - 1)) :
    let carry := u32 (c + x : Nat)
    AddInv old (Function.update d i (carry &&& digitMask)) (i + 1) (carry >>> digitShift)
      (t + x * digitBase ^ i) := by
  obtain ⟨hlt, hc, hstep⟩ := add_step hx h.carry_le
  refine ⟨digits_update h.digit_lt hlt, hc, untouched_update h.untouched, ?_⟩
  rw [positional_update_succ]
  exact ripple_carry h.sum hstep

/-- The same for a loop that has borrowed `c`, subtracting `u` from `t`. -/
structure SubInv (old d : Nat → Nat) (i c t u : Nat) : Prop where
  digit_lt : ∀ j < i, d j < digitBase
  borrow_le : c ≤ 1
  untouched : ∀ j, i ≤ j → d j = old j
  sum : positional digitBase d i + u = t + c * digitBase ^ i

theorem SubInv.zero (old : Nat → Nat) : SubInv old old 0 0 0 0 :=
  ⟨by omega, by omega, fun _ _ => rfl, by simp⟩

theorem SubInv.step {old d : Nat → Nat} {i c t u x y : Nat} (h : SubInv old d i c t u)
    (hx : x < digitBase) (hy : y < digitBase) :
    let borrow := u32 ((x : Int) - y - c)
    SubInv old (Function.update d i (borrow &&& digitMask)) (i + 1)
      ((borrow >>> digitShift) &&& 1) (t + x * digitBase ^ i) (u + y * digitBase ^ i) := by
  obtain ⟨hlt, hc, hstep⟩ := sub_step hx hy h.borrow_le
  refine ⟨digits_update h.digit_lt hlt, hc, untouched_update h.untouched, ?_⟩
  rw [positional_update_succ]
  exact ripple_borrow h.sum hstep

/-- A subtraction of a smaller number ends without a borrow. -/
theorem SubInv.exact {old d : Nat → Nat} {i c t u : Nat} (h : SubInv old d i c t u)
    (hle : u ≤ t) : c = 0 ∧ positional digitBase d i + u = t := by
  have hd := positional_lt h.digit_lt
  have hs := h.sum
  rcases Nat.le_one_iff_eq_zero_or_eq_one.mp h.borrow_le with hc | hc
  · exact ⟨hc, by simpa [hc] using hs⟩
  · rw [hc, one_mul] at hs
    omega

theorem AddInv.addRound {m : BigIntMem ρ} {a pa pb : ρ} {i t : Nat} {s : (Nat → Nat) × Nat}
    (h : AddInv (m a).digits s.1 i s.2 t) (hA : (m pa).digits i < digitBase)
    (hB : (m pb).digits i < digitBase) :
    let s' := addRound m a pa pb i s
    AddInv (m a).digits s'.1 (i + 1) s'.2
      (t + ((m pa).digits i + (m pb).digits i) * digitBase ^ i) := by
  have hold := h.untouched i (le_refl i)
  have hu : u32 ((m pa).digits i + (m pb).digits i : Nat) = (m pa).digits i + (m pb).digits i :=
    toUnsigned_natCast (by rw [digitBase_eq] at hA hB; omega)
  have hnext := h.step (x := (m pa).digits i + (m pb).digits i) (by omega)
  simpa only [FakeLisp.addRound, BigIntMem.word_eq hold, hu] using hnext

theorem AddInv.carryRound {m : BigIntMem ρ} {a pa : ρ} {i t : Nat} {s : (Nat → Nat) × Nat}
    (h : AddInv (m a).digits s.1 i s.2 t) (hA : (m pa).digits i < digitBase) :
    let s' := carryRound m a pa i s
    AddInv (m a).digits s'.1 (i + 1) s'.2 (t + (m pa).digits i * digitBase ^ i) := by
  have hold := h.untouched i (le_refl i)
  have hnext := h.step (x := (m pa).digits i) (by omega)
  simpa only [FakeLisp.carryRound, BigIntMem.word_eq hold] using hnext

theorem xAddDigits_spec {m : BigIntMem ρ} {a pa pb : ρ} {numA numB : Nat} (hle : numB ≤ numA)
    (hA : DigitsBelow m pa numA) (hB : DigitsBelow m pb numB) :
    let s := xAddDigits m a pa pb numA numB (m a).digits
    AddInv (m a).digits s.1 numA s.2
      (positional digitBase (m pa).digits numA + positional digitBase (m pb).digits numB) := by
  let A := positional digitBase (m pa).digits
  let B := positional digitBase (m pb).digits
  have hfirst := forUpTo_inv (f := addRound m a pa pb) (l := 0) (n := numB)
    (s := ((m a).digits, 0)) (fun i s => AddInv (m a).digits s.1 i s.2 (A i + B i))
    (by simpa [A, B] using AddInv.zero (m a).digits)
    (fun i s _ hi h => by
      have hnext := h.addRound (hA i (by omega)) (hB i (by omega))
      have ht : A (i + 1) + B (i + 1) =
          A i + B i + ((m pa).digits i + (m pb).digits i) * digitBase ^ i := by
        simp only [A, B, positional_succ]
        ring
      rwa [ht])
  rw [Nat.zero_add] at hfirst
  have hsecond := forUpTo_inv (f := carryRound m a pa) (n := numA - numB)
    (fun i s => AddInv (m a).digits s.1 i s.2 (A i + B numB)) hfirst
    (fun i s _ hi h => by
      have hnext := h.carryRound (hA i (by omega))
      have ht : A (i + 1) + B numB = A i + B numB + (m pa).digits i * digitBase ^ i := by
        simp only [A, positional_succ]
        ring
      rwa [ht])
  rwa [Nat.add_sub_cancel' hle] at hsecond

theorem SubInv.subRound {m : BigIntMem ρ} {dst pa pb : ρ} {i t u : Nat} {s : (Nat → Nat) × Nat}
    (h : SubInv (m dst).digits s.1 i s.2 t u) (hA : (m pa).digits i < digitBase)
    (hB : (m pb).digits i < digitBase) :
    let s' := subRound m dst pa pb i s
    SubInv (m dst).digits s'.1 (i + 1) s'.2 (t + (m pa).digits i * digitBase ^ i)
      (u + (m pb).digits i * digitBase ^ i) := by
  have hold := h.untouched i (le_refl i)
  simpa only [FakeLisp.subRound, BigIntMem.word_eq hold] using h.step hA hB

theorem SubInv.borrowRound {m : BigIntMem ρ} {dst pa : ρ} {i t u : Nat}
    {s : (Nat → Nat) × Nat} (h : SubInv (m dst).digits s.1 i s.2 t u)
    (hA : (m pa).digits i < digitBase) :
    let s' := borrowRound m dst pa i s
    SubInv (m dst).digits s'.1 (i + 1) s'.2 (t + (m pa).digits i * digitBase ^ i) u := by
  have hold := h.untouched i (le_refl i)
  have hnext := h.step hA digitBase_pos
  simpa only [FakeLisp.borrowRound, BigIntMem.word_eq hold, Nat.cast_zero, sub_zero, zero_mul,
    add_zero] using hnext

theorem subDigits_spec {m : BigIntMem ρ} {p : SubPlan ρ} (dst : ρ) (hle : p.numB ≤ p.numA)
    (hA : DigitsBelow m p.digitsA p.numA) (hB : DigitsBelow m p.digitsB p.numB) :
    let s := subDigits m dst p (m dst).digits
    SubInv (m dst).digits s.1 p.numA s.2 (positional digitBase (m p.digitsA).digits p.numA)
      (positional digitBase (m p.digitsB).digits p.numB) := by
  have hfirst := forUpTo_inv (f := subRound m dst p.digitsA p.digitsB) (l := 0)
    (n := p.numB) (s := ((m dst).digits, 0)) (fun i s => SubInv (m dst).digits s.1 i s.2
      (positional digitBase (m p.digitsA).digits i) (positional digitBase (m p.digitsB).digits i))
    (by simpa using SubInv.zero (m dst).digits)
    (fun i s _ hi h => by
      simpa only [positional_succ] using h.subRound (hA i (by omega)) (hB i (by omega)))
  rw [Nat.zero_add] at hfirst
  have hsecond := forUpTo_inv (f := borrowRound m dst p.digitsA) (n := p.numA - p.numB)
    (fun i s => SubInv (m dst).digits s.1 i s.2 (positional digitBase (m p.digitsA).digits i)
      (positional digitBase (m p.digitsB).digits p.numB)) hfirst
    (fun i s _ hi h => by
      simpa only [positional_succ] using h.borrowRound (hA i (by omega)))
  rwa [Nat.add_sub_cancel' hle] at hsecond

/-! `x_add`. -/

theorem xAdd_spec {m : BigIntMem ρ} {a b : ρ} (ha : (m a).Wf) (hb : (m b).Wf)
    (hc : (m a).CanHold (max (m a).num.natAbs (m b).num.natAbs + 1)) :
    ∃ r, xAdd m a b = some (Function.update m a r) ∧ r.mag = (m a).mag + (m b).mag ∧
      0 ≤ r.num ∧ r.Normalized ∧ r.constSize = (m a).constSize := by
  -- the longer operand, whichever it is, is called `pa`
  have core : ∀ pa pb : ρ, (m pa).Wf → (m pb).Wf → (m pb).num.natAbs ≤ (m pa).num.natAbs →
      (m a).CanHold ((m pa).num.natAbs + 1) → ∃ x s,
        ensureBigintSize (m a) ((m pa).num.natAbs + 1) = some x ∧
        xAddDigits m a pa pb (m pa).num.natAbs (m pb).num.natAbs x.digits = s ∧
        let r := bigintNormalize { x with
          num := ((m pa).num.natAbs : Int) + 1
          digits := Function.update s.1 (m pa).num.natAbs (s.2 &&& digitMask) }
        r.mag = (m pa).mag + (m pb).mag ∧ 0 ≤ r.num ∧ r.Normalized ∧
          r.constSize = (m a).constSize := by
    intro pa pb hpa hpb hle hhold
    obtain ⟨size, he, hsize, _⟩ := ensureBigintSize_spec hhold
    have hinv := xAddDigits_spec (a := a) hle hpa.digit_lt hpb.digit_lt
    refine ⟨_, _, he, rfl, ?_⟩
    dsimp only at hinv ⊢
    set s := xAddDigits m a pa pb (m pa).num.natAbs (m pb).num.natAbs (m a).digits
    set x : FklBigInt := { m a with
      size := size
      num := ((m pa).num.natAbs : Int) + 1
      digits := Function.update s.1 (m pa).num.natAbs (s.2 &&& digitMask) } with hx
    have hcarry : s.2 &&& digitMask = s.2 := by
      rw [land_digitMask, Nat.mod_eq_of_lt]
      exact lt_of_le_of_lt hinv.carry_le (by decide)
    have hnat : x.num.natAbs = (m pa).num.natAbs + 1 := by simp only [hx]; omega
    have hwf : x.Wf := {
      digit_lt := by
        rw [hnat]
        refine digits_update hinv.digit_lt ?_
        rw [hcarry]
        exact lt_of_le_of_lt hinv.carry_le (by decide)
      num_le := by rw [hnat]; exact hsize }
    refine ⟨?_, ?_, bigintNormalize_normalized hwf, rfl⟩
    · rw [bigintNormalize_mag, FklBigInt.mag, hnat]
      show positional digitBase (Function.update s.1 _ _) _ = _
      rw [positional_update_succ, hcarry, hinv.sum]
      rfl
    · exact bigintNormalize_nonneg (by simp only [hx]; omega)
  by_cases hlt : (m a).num.natAbs < (m b).num.natAbs
  · obtain ⟨x, s, he, hs, hmag, h0, hn, hcs⟩ := core b a hb ha (by omega) (hc.mono (by omega))
    refine ⟨_, ?_, by rw [hmag, add_comm], h0, hn, hcs⟩
    simp [xAdd, hlt, he, hs]
  · obtain ⟨x, s, he, hs, hmag, h0, hn, hcs⟩ := core a b ha hb (by omega) (hc.mono (by omega))
    refine ⟨_, ?_, hmag, h0, hn, hcs⟩
    simp [xAdd, hlt, he, hs]

/-! The comparison before a subtraction. -/

theorem topDiff_zero {d e : Nat → Nat} {n : Nat} (h : topDiff d e n = 0) :
    ∀ i < n, d i = e i := by
  induction n with
  | zero => intro i hi; omega
  | succ n ih =>
    unfold topDiff at h
    split at h
    · intro i hi
      rcases Nat.lt_succ_iff_lt_or_eq.mp hi with hi | rfl
      · exact ih h i hi
      · assumption
    · omega

theorem topDiff_succ {d e : Nat → Nat} {n i : Nat} (h : topDiff d e n = i + 1) :
    i < n ∧ d i ≠ e i ∧ ∀ j, i < j → j < n → d j = e j := by
  induction n with
  | zero => simp [topDiff] at h
  | succ n ih =>
    unfold topDiff at h
    split at h
    · obtain ⟨hi, hne, hab⟩ := ih h
      refine ⟨by omega, hne, fun j hij hj => ?_⟩
      rcases Nat.lt_succ_iff_lt_or_eq.mp hj with hj | rfl
      · exact hab j hij hj
      · assumption
    · obtain rfl : n = i := by omega
      exact ⟨by omega, by assumption, fun j hij hj => by omega⟩

/-- Cutting equal digits off the top of both keeps the difference. -/
theorem positional_sub_eq {d e : Nat → Nat} {k n : Nat} (hk : k ≤ n)
    (h : ∀ j, k ≤ j → j < n → d j = e j) :
    (positional digitBase d n : Int) - positional digitBase e n =
      positional digitBase d k - positional digitBase e k := by
  obtain ⟨l, rfl⟩ := Nat.exists_eq_add_of_le hk
  have hhigh : positional digitBase (wordsFrom k d) l = positional digitBase (wordsFrom k e) l :=
    positional_congr (fun j hj => h _ (by omega) (by omega))
  rw [positional_add, positional_add, hhigh]
  push_cast
  ring

/-- A normalized number of fewer digits is smaller. -/
theorem FklBigInt.mag_lt_of_num_lt {x y : FklBigInt} (hx : x.Wf) (hy : y.Normalized)
    (h : x.num.natAbs < y.num.natAbs) : x.mag < y.mag := by
  calc x.mag < digitBase ^ x.num.natAbs := hx.mag_lt
    _ ≤ digitBase ^ (y.num.natAbs - 1) := Nat.pow_le_pow_right digitBase_pos (by omega)
    _ ≤ y.mag := hy.le_mag (by omega)

/-- Numbers of one length and one leading digit, the first with the larger magnitude. -/
structure KeepsTopDigit (x y : FklBigInt) : Prop where
  len : x.num.natAbs = y.num.natAbs
  top : x.digits (x.num.natAbs - 1) = y.digits (x.num.natAbs - 1)
  lt : y.mag < x.mag

omit [DecidableEq ρ] in
theorem subPlan_none {m : BigIntMem ρ} {a b : ρ} (h : subPlan m a b = none) :
    (m a).mag = (m b).mag := by
  simp only [subPlan, fklAbs_toNat] at h
  split at h
  · cases h
  · split at h
    · rename_i hlen
      split at h
      · rename_i h0
        exact FklBigInt.mag_congr hlen (fun i hi => topDiff_zero h0 i (by omega))
      · split at h <;> cases h
    · cases h

/-- What a plan to subtract promises: the larger minuend, cut where the operands
stop to differ. -/
structure PlanSpec (m : BigIntMem ρ) (a b : ρ) (p : SubPlan ρ) : Prop where
  numB_le : p.numB ≤ p.numA
  numA_le : p.numA ≤ (m p.digitsA).num.natAbs
  numB_le_num : p.numB ≤ (m p.digitsB).num.natAbs
  numA_pos : 0 < p.numA
  diff : (positional digitBase (m p.digitsA).digits p.numA : Int) -
    positional digitBase (m p.digitsB).digits p.numB = (m p.digitsA).mag - (m p.digitsB).mag
  lt : (m p.digitsB).mag < (m p.digitsA).mag
  sign : p.sign = 1 ∧ p.digitsA = a ∧ p.digitsB = b ∨ p.sign = -1 ∧ p.digitsA = b ∧ p.digitsB = a
  high : ∀ j, p.numA ≤ j → j < (m p.digitsA).num.natAbs →
    (m p.digitsA).num.natAbs = (m p.digitsB).num.natAbs ∧
      (m p.digitsA).digits j = (m p.digitsB).digits j
  cut : p.numA < (m p.digitsA).num.natAbs ↔ KeepsTopDigit (m p.digitsA) (m p.digitsB)

omit [DecidableEq ρ] in
theorem subPlan_some {m : BigIntMem ρ} {a b : ρ} {p : SubPlan ρ} (ha : (m a).Normalized)
    (hb : (m b).Normalized) (h : subPlan m a b = some p) : PlanSpec m a b p := by
  -- the two ways to fill the fields
  have longer : ∀ pa pb : ρ, ∀ s : Int, (m pa).Normalized → (m pb).Normalized →
      (m pb).num.natAbs < (m pa).num.natAbs →
      (s = 1 ∧ pa = a ∧ pb = b ∨ s = -1 ∧ pa = b ∧ pb = a) →
      PlanSpec m a b ⟨pa, pb, (m pa).num.natAbs, (m pb).num.natAbs, s⟩ := by
    intro pa pb s hpa hpb hlt hs
    exact {
      numB_le := by dsimp only; omega
      numA_le := le_refl _
      numB_le_num := le_refl _
      numA_pos := by dsimp only; omega
      diff := rfl
      lt := FklBigInt.mag_lt_of_num_lt hpb.toWf hpa hlt
      sign := hs
      high := fun j hj hj' => absurd hj' (not_lt.mpr hj)
      cut := ⟨fun h => absurd h (lt_irrefl _), fun h => absurd h.len (by dsimp only; omega)⟩ }
  have equal : ∀ pa pb : ρ, ∀ s : Int, ∀ i, (m pa).Normalized → (m pb).Normalized →
      (m pa).num.natAbs = (m pb).num.natAbs → i < (m pa).num.natAbs →
      (m pb).digits i < (m pa).digits i →
      (∀ j, i < j → j < (m pa).num.natAbs → (m pa).digits j = (m pb).digits j) →
      (s = 1 ∧ pa = a ∧ pb = b ∨ s = -1 ∧ pa = b ∧ pb = a) →
      PlanSpec m a b ⟨pa, pb, i + 1, i + 1, s⟩ := by
    intro pa pb s i hpa hpb hlen hi hlt hab hs
    have hmag : (m pb).mag < (m pa).mag := by
      unfold FklBigInt.mag
      rw [← hlen]
      exact positional_lt_of_first_diff hi (fun j hj => hpb.digit_lt j (by omega)) hlt
        (fun j hij hj => (hab j hij hj).symm)
    exact {
      numB_le := le_refl _
      numA_le := hi
      numB_le_num := by dsimp only; omega
      numA_pos := by dsimp only; omega
      diff := by
        unfold FklBigInt.mag
        rw [← hlen]
        exact (positional_sub_eq hi (fun j hj hj' => hab j hj hj')).symm
      lt := hmag
      sign := hs
      high := fun j hj hj' => ⟨hlen, hab j hj hj'⟩
      cut := by
        constructor
        · intro hcut
          have hcut' : i + 1 < (m pa).num.natAbs := hcut
          exact ⟨hlen, hab ((m pa).num.natAbs - 1) (by omega) (by omega), hmag⟩
        · intro hk
          show i + 1 < (m pa).num.natAbs
          by_contra hnot
          have hlast : i = (m pa).num.natAbs - 1 := by omega
          have htop : (m pa).digits i = (m pb).digits i := by rw [hlast]; exact hk.top
          omega }
  simp only [subPlan, fklAbs_toNat] at h
  split at h
  · obtain rfl := Option.some.inj h
    exact longer b a (-1) hb ha (by assumption) (Or.inr ⟨rfl, rfl, rfl⟩)
  · split at h
    · rename_i hlen
      split at h
      · cases h
      · rename_i i hi
        obtain ⟨hin, hne, hab⟩ := topDiff_succ hi
        split at h
        · obtain rfl := Option.some.inj h
          exact equal b a (-1) i hb ha hlen.symm (by omega) (by assumption)
            (fun j hij hj => (hab j hij (by omega)).symm) (Or.inr ⟨rfl, rfl, rfl⟩)
        · obtain rfl := Option.some.inj h
          exact equal a b 1 i ha hb hlen hin (by omega) hab (Or.inl ⟨rfl, rfl, rfl⟩)
    · obtain rfl := Option.some.inj h
      exact longer a b 1 ha hb (by omega) (Or.inl ⟨rfl, rfl, rfl⟩)

/-! `x_sub` and `x_sub2`. -/

omit [DecidableEq ρ] in
theorem PlanSpec.wf {m : BigIntMem ρ} {a b : ρ} {p : SubPlan ρ} (h : PlanSpec m a b p)
    (ha : (m a).Wf) (hb : (m b).Wf) : (m p.digitsA).Wf ∧ (m p.digitsB).Wf := by
  rcases h.sign with ⟨_, hA, hB⟩ | ⟨_, hA, hB⟩ <;> rw [hA, hB]
  · exact ⟨ha, hb⟩
  · exact ⟨hb, ha⟩

/-- The digit loops of a plan compute its difference and end without a borrow. -/
theorem PlanSpec.run {m : BigIntMem ρ} {a b : ρ} {p : SubPlan ρ} (h : PlanSpec m a b p)
    (ha : (m a).Wf) (hb : (m b).Wf) (dst : ρ) :
    let s := subDigits m dst p (m dst).digits
    s.2 = 0 ∧ (∀ i < p.numA, s.1 i < digitBase) ∧
      (positional digitBase s.1 p.numA : Int) = (m p.digitsA).mag - (m p.digitsB).mag ∧
      ∀ j, p.numA ≤ j → s.1 j = (m dst).digits j := by
  obtain ⟨hA, hB⟩ := h.wf ha hb
  have hnumA := h.numA_le
  have hnumB := h.numB_le_num
  have hinv := subDigits_spec dst h.numB_le
    (fun i hi => hA.digit_lt i (by omega)) (fun i hi => hB.digit_lt i (by omega))
  have hdiff := h.diff
  have hlt := h.lt
  obtain ⟨hc, hsum⟩ := hinv.exact (by omega)
  exact ⟨hc, hinv.digit_lt, by omega, hinv.untouched⟩

/-- Writing a number down with `n` digits and normalizing it. -/
theorem normalize_written {x : FklBigInt} {n : Nat} (hn : x.num.natAbs = n)
    (hlt : ∀ i < n, x.digits i < digitBase) (hsize : n ≤ x.size) :
    (bigintNormalize x).Normalized ∧ (bigintNormalize x).value =
      if x.num < 0 then -(positional digitBase x.digits n : Int)
      else positional digitBase x.digits n := by
  subst hn
  exact ⟨bigintNormalize_normalized ⟨hlt, hsize⟩, bigintNormalize_value x⟩

theorem update_leaves {m : BigIntMem ρ} {a : ρ} {r : FklBigInt} {v : Int} (hv : r.value = v)
    (hn : r.Normalized) (hc : r.constSize = (m a).constSize) :
    Leaves m (Function.update m a r) a v :=
  ⟨by rw [Function.update_self, hv], by rwa [Function.update_self], by rw [Function.update_self, hc],
    fun _ h => Function.update_of_ne h _ _⟩

/-- A zero length is a normalized zero. -/
theorem num_zero_leaves {m : BigIntMem ρ} {a : ρ} {x : FklBigInt}
    (hc : x.constSize = (m a).constSize) :
    Leaves m (Function.update m a { x with num := 0 }) a 0 :=
  update_leaves (by simp [FklBigInt.value, FklBigInt.mag]) {
    digit_lt := fun i hi => by simp at hi
    num_le := by simp
    top_ne := fun h => absurd rfl h } hc

/-- The signed difference of the magnitudes, as `x_sub` means it. -/
def signedDiff (x y : FklBigInt) : Int :=
  if x.num < 0 then -((x.mag : Int) - y.mag) else (x.mag : Int) - y.mag

theorem xSub_exact {m : BigIntMem ρ} {a b : ρ} (ha : (m a).Normalized) (hb : (m b).Normalized)
    (hc : (m a).CanHold (max (m a).num.natAbs (m b).num.natAbs + 1))
    (hk : ¬KeepsTopDigit (m a) (m b)) :
    ∃ m', xSub m a b = some m' ∧ Leaves m m' a (signedDiff (m a) (m b)) := by
  obtain ⟨size, he, hsize, _⟩ := ensureBigintSize_spec hc
  cases hp : subPlan m a b with
  | none =>
    have hmag := subPlan_none hp
    refine ⟨_, by simp [xSub, he, hp]; rfl, ?_⟩
    have hzero := num_zero_leaves (m := m) (a := a) (x := { m a with size := size }) rfl
    simpa [signedDiff, hmag] using hzero
  | some p =>
    have spec := subPlan_some ha hb hp
    obtain ⟨hborrow, hlt, hval, _⟩ := spec.run ha.toWf hb.toWf a
    refine ⟨_, by simp [xSub, he, hp, hborrow]; rfl, ?_⟩
    -- in every case that is left the written length is the one of the difference
    have hlen : (if p.sign < 0 then (if (m a).num < 0 then (p.numA : Int) else -p.numA)
        else (m a).num).natAbs = p.numA := by
      rcases spec.sign with ⟨hs, hA, hB⟩ | ⟨hs, hA, hB⟩
      · have hcut := spec.cut
        rw [hA, hB] at hcut
        have hle := spec.numA_le
        rw [hA] at hle
        have : ¬p.numA < (m a).num.natAbs := fun h => hk (hcut.mp h)
        simp only [hs]
        omega
      · rw [if_pos (by omega)]
        split <;> omega
    have hfit : p.numA ≤ size := by
      have hle := spec.numA_le
      rcases spec.sign with ⟨_, hA, _⟩ | ⟨_, hA, _⟩ <;> rw [hA] at hle <;> omega
    obtain ⟨hnorm, hvalue⟩ := normalize_written (x := { m a with
      num := if p.sign < 0 then (if (m a).num < 0 then (p.numA : Int) else -p.numA) else (m a).num
      size := size
      digits := (subDigits m a p (m a).digits).1 }) hlen hlt hfit
    refine update_leaves ?_ hnorm rfl
    rw [hvalue]
    have hpos := spec.numA_pos
    rcases spec.sign with ⟨hs, hA, hB⟩ | ⟨hs, hA, hB⟩
    · simp only [hs, signedDiff, hval, hA, hB]
      simp
    · simp only [hs, signedDiff, hval, hA, hB]
      by_cases hneg : (m a).num < 0
      · simp [hneg]
      · simp [hneg, hpos]

/-- The digits that the operands share at the top stay in the result. -/
theorem xSub_keeps {m m' : BigIntMem ρ} {a b : ρ} (ha : (m a).Normalized)
    (hb : (m b).Normalized) (hk : KeepsTopDigit (m a) (m b)) (h : xSub m a b = some m') :
    (m' a).mag ≠ (m a).mag - (m b).mag := by
  cases he : ensureBigintSize (m a) (max (m a).num.natAbs (m b).num.natAbs + 1) with
  | none => simp [xSub, he] at h
  | some x =>
    have hx : x.num = (m a).num ∧ x.digits = (m a).digits := by
      unfold ensureBigintSize at he
      split at he
      · split at he
        · cases he
        · obtain rfl := Option.some.inj he
          exact ⟨rfl, rfl⟩
      · obtain rfl := Option.some.inj he
        exact ⟨rfl, rfl⟩
    cases hp : subPlan m a b with
    | none =>
      have := subPlan_none hp
      have := hk.lt
      omega
    | some p =>
      have spec := subPlan_some ha hb hp
      obtain ⟨hborrow, hlt, hval, hhigh⟩ := spec.run ha.toWf hb.toWf a
      -- a swap would contradict the order of the magnitudes
      obtain ⟨hs, hA, hB⟩ : p.sign = 1 ∧ p.digitsA = a ∧ p.digitsB = b := by
        rcases spec.sign with h1 | ⟨_, hA, hB⟩
        · exact h1
        · have h1 := spec.lt
          have h2 := hk.lt
          rw [hA, hB] at h1
          omega
      have hcut := spec.cut
      rw [hA, hB] at hcut hval
      have hlen := hcut.mpr hk
      have hm' : m' = Function.update m a (bigintNormalize
          { x with num := x.num, digits := (subDigits m a p (m a).digits).1 }) := by
        simpa [xSub, he, hp, hx.2, hborrow, hs] using h.symm
      rw [hm', Function.update_self, bigintNormalize_mag]
      set d := (subDigits m a p (m a).digits).1
      show positional digitBase d x.num.natAbs ≠ _
      rw [hx.1]
      have htop : d ((m a).num.natAbs - 1) ≠ 0 := by
        rw [hhigh _ (by omega)]
        exact ha.top_ne (by omega)
      obtain ⟨k, hk'⟩ : ∃ k, (m a).num.natAbs = p.numA + (k + 1) :=
        ⟨(m a).num.natAbs - p.numA - 1, by omega⟩
      rw [hk', show p.numA + (k + 1) - 1 = p.numA + k by omega] at htop
      have hpos := positional_pos_of_ne_zero (b := digitBase) (d := wordsFrom p.numA d)
        digitBase_pos (show k < k + 1 by omega) htop
      rw [hk', positional_add]
      have := Nat.mul_pos (Nat.pow_pos (n := p.numA) digitBase_pos) hpos
      omega

theorem xSub2_spec {m : BigIntMem ρ} {a b : ρ} (ha : (m a).Normalized) (hb : (m b).Normalized)
    (hc : (m b).CanHold (max (m a).num.natAbs (m b).num.natAbs + 1)) :
    ∃ m', xSub2 m a b = some m' ∧ Leaves m m' b ((m a).mag - (m b).mag) := by
  obtain ⟨size, he, hsize, _⟩ := ensureBigintSize_spec hc
  cases hp : subPlan m a b with
  | none =>
    have hmag := subPlan_none hp
    refine ⟨_, by simp [xSub2, he, hp]; rfl, ?_⟩
    have hzero := num_zero_leaves (m := m) (a := b) (x := { m b with size := size }) rfl
    simpa [hmag] using hzero
  | some p =>
    have spec := subPlan_some ha hb hp
    obtain ⟨hborrow, hlt, hval, _⟩ := spec.run ha.toWf hb.toWf b
    refine ⟨_, by simp [xSub2, he, hp, hborrow]; rfl, ?_⟩
    have hlen : ((p.numA : Int) * p.sign).natAbs = p.numA := by
      rcases spec.sign with ⟨hs, _, _⟩ | ⟨hs, _, _⟩ <;> rw [hs] <;> omega
    have hfit : p.numA ≤ size := by
      have hle := spec.numA_le
      rcases spec.sign with ⟨_, hA, _⟩ | ⟨_, hA, _⟩ <;> rw [hA] at hle <;> omega
    obtain ⟨hnorm, hvalue⟩ := normalize_written (x := { m b with
      num := p.numA * p.sign
      size := size
      digits := (subDigits m b p (m b).digits).1 }) hlen hlt hfit
    refine update_leaves ?_ hnorm rfl
    rw [hvalue]
    have hpos := spec.numA_pos
    rcases spec.sign with ⟨hs, hA, hB⟩ | ⟨hs, hA, hB⟩
    · simp only [hs, hval, hA, hB]
      rw [if_neg (by omega)]
    · simp only [hs, hval, hA, hB]
      rw [if_pos (by omega)]
      ring

/-! The two operations. -/

/-- One digit of difference in magnitude needs a second digit. -/
theorem KeepsTopDigit.one_lt {x y : FklBigInt} (h : KeepsTopDigit x y) : 1 < fklAbs x.num := by
  rw [fklAbs_eq]
  by_contra hle
  have hmag : x.mag = y.mag := FklBigInt.mag_congr h.len (fun i hi => by
    have hlen := h.len
    rw [show i = x.num.natAbs - 1 by omega]
    exact h.top)
  have hlt := h.lt
  omega

/-- Both small paths assign a sum of at most two digits. -/
theorem small_leaves {m : BigIntMem ρ} {a b : ρ} {v : Int} (ha : (m a).Wf) (hb : (m b).Wf)
    (hc : (m a).CanHold (max (m a).num.natAbs (m b).num.natAbs + 1))
    (hsmall : fklAbs (m a).num ≤ 1 ∧ fklAbs (m b).num ≤ 1)
    (hv : v.natAbs ≤ (m a).mag + (m b).mag) :
    ∃ x, fklSetBigIntI (m a) v = some x ∧ Leaves m (Function.update m a x) a v := by
  have hA := mediumValue_natAbs_lt ha hsmall.1
  have hB := mediumValue_natAbs_lt hb hsmall.2
  rw [mediumValue_eq hsmall.1, FklBigInt.value_natAbs] at hA
  rw [mediumValue_eq hsmall.2, FklBigInt.value_natAbs] at hB
  have h64 : v.natAbs < 2 ^ 64 := by
    rw [digitBase_eq] at hA hB
    omega
  have hcount : countDigitsSize v.natAbs ≤ max (m a).num.natAbs (m b).num.natAbs + 1 := by
    apply countDigitsSize_le h64
    rcases Nat.eq_zero_or_pos (max (m a).num.natAbs (m b).num.natAbs) with h0 | h0
    · have hA0 := FklBigInt.mag_of_num_eq_zero (x := m a) (by omega)
      have hB0 := FklBigInt.mag_of_num_eq_zero (x := m b) (by omega)
      have hv0 : v.natAbs = 0 := by omega
      rw [hv0]
      exact Nat.pow_pos digitBase_pos
    · calc v.natAbs < digitBase ^ 2 := by rw [digitBase_eq] at *; omega
        _ ≤ _ := Nat.pow_le_pow_right digitBase_pos (by omega)
  obtain ⟨x, he, hx⟩ := fklSetBigIntI_spec h64 (hc.mono hcount)
  exact ⟨x, he, update_leaves hx.value hx.normalized hx.constSize⟩

theorem neg_leaves {m m' : BigIntMem ρ} {a : ρ} {v : Int} (h : Leaves m m' a v) :
    Leaves m (negNum m' a) a (-v) where
  value := by simp [negNum, FklBigInt.value_neg, h.value]
  normalized := by simpa [negNum] using h.normalized.neg
  constSize := by simpa [negNum] using h.constSize
  frame := fun r hr => by simpa [negNum, Function.update_of_ne hr] using h.frame r hr

/-- A sum of magnitudes, as `x_add` leaves it. -/
theorem xAdd_leaves {m : BigIntMem ρ} {a b : ρ} (ha : (m a).Wf) (hb : (m b).Wf)
    (hc : (m a).CanHold (max (m a).num.natAbs (m b).num.natAbs + 1)) :
    ∃ m', xAdd m a b = some m' ∧ Leaves m m' a ((m a).mag + (m b).mag) := by
  obtain ⟨r, he, hmag, h0, hn, hcs⟩ := xAdd_spec ha hb hc
  refine ⟨_, he, update_leaves ?_ hn hcs⟩
  rw [FklBigInt.value_of_nonneg h0, hmag]
  push_cast
  rfl

/-- The right answer has the magnitude that `xSub_keeps` rules out. -/
theorem xSub_not_leaves {m m' : BigIntMem ρ} {a b : ρ} (ha : (m a).Normalized)
    (hb : (m b).Normalized) (hk : KeepsTopDigit (m a) (m b)) (h : xSub m a b = some m') :
    ¬Leaves m m' a (signedDiff (m a) (m b)) := by
  intro hl
  apply xSub_keeps ha hb hk h
  have hv := hl.value
  have hlt := hk.lt
  rw [← FklBigInt.value_natAbs, hv, signedDiff]
  split <;> omega

theorem xSub_leaves_iff {m : BigIntMem ρ} {a b : ρ} {v : Int} (ha : (m a).Normalized)
    (hb : (m b).Normalized)
    (hc : (m a).CanHold (max (m a).num.natAbs (m b).num.natAbs + 1))
    (hv : v = signedDiff (m a) (m b)) :
    (∃ m', xSub m a b = some m' ∧ Leaves m m' a v) ↔ ¬KeepsTopDigit (m a) (m b) := by
  subst hv
  constructor
  · rintro ⟨m', he, hl⟩ hk
    exact xSub_not_leaves ha hb hk he hl
  · exact xSub_exact ha hb hc

/-- The sum is right unless the magnitudes are subtracted with the leading digit kept. -/
theorem fklAddBigInt_leaves_iff {m : BigIntMem ρ} {a b : ρ} (ha : (m a).Normalized)
    (hb : (m b).Normalized)
    (hc : (m a).CanHold (max (m a).num.natAbs (m b).num.natAbs + 1)) :
    (∃ m', fklAddBigInt m a b = some m' ∧ Leaves m m' a ((m a).value + (m b).value)) ↔
      ¬(0 ≤ (m a).num ∧ (m b).num < 0 ∧ KeepsTopDigit (m a) (m b)) := by
  by_cases hsmall : fklAbs (m a).num ≤ 1 ∧ fklAbs (m b).num ≤ 1
  · have hnot : ¬KeepsTopDigit (m a) (m b) := fun hk => by
      have := hk.one_lt
      omega
    obtain ⟨x, he, hl⟩ := small_leaves ha.toWf hb.toWf hc hsmall
      (v := (m a).value + (m b).value) (by
        have := FklBigInt.value_natAbs (m a)
        have := FklBigInt.value_natAbs (m b)
        omega)
    refine iff_of_true ⟨_, ?_, hl⟩ (fun h => hnot h.2.2)
    simp [fklAddBigInt, hsmall, mediumValue_eq, he]
  · unfold fklAddBigInt
    rw [if_neg hsmall]
    by_cases hna : (m a).num < 0 <;> by_cases hnb : (m b).num < 0
    · obtain ⟨m', he, hl⟩ := xAdd_leaves ha.toWf hb.toWf hc
      refine iff_of_true ⟨_, by simp [hna, hnb, he]; rfl, ?_⟩ (fun h => by omega)
      have hneg := neg_leaves hl
      rwa [neg_add, ← FklBigInt.value_of_neg hna, ← FklBigInt.value_of_neg hnb] at hneg
    · obtain ⟨m', he, hl⟩ := xSub2_spec hb ha (hc.mono (by omega))
      refine iff_of_true ⟨m', by simp [hna, hnb, he], ?_⟩ (fun h => by omega)
      rw [FklBigInt.value_of_neg hna, FklBigInt.value_of_nonneg (by omega)]
      rwa [neg_add_eq_sub]
    · rw [if_neg hna, if_pos hnb, xSub_leaves_iff ha hb hc]
      · constructor
        · exact fun h h' => h h'.2.2
        · exact fun h hk => h ⟨by omega, hnb, hk⟩
      · rw [signedDiff, if_neg hna, FklBigInt.value_of_neg hnb,
          FklBigInt.value_of_nonneg (by omega)]
        ring
    · obtain ⟨m', he, hl⟩ := xAdd_leaves ha.toWf hb.toWf hc
      refine iff_of_true ⟨m', by simp [hna, hnb, he], ?_⟩ (fun h => by omega)
      rwa [FklBigInt.value_of_nonneg (by omega), FklBigInt.value_of_nonneg (by omega)]

theorem fklSubBigInt_leaves_iff {m : BigIntMem ρ} {a b : ρ} (ha : (m a).Normalized)
    (hb : (m b).Normalized)
    (hc : (m a).CanHold (max (m a).num.natAbs (m b).num.natAbs + 1)) :
    (∃ m', fklSubBigInt m a b = some m' ∧ Leaves m m' a ((m a).value - (m b).value)) ↔
      ¬(((m a).num < 0 ↔ (m b).num < 0) ∧ KeepsTopDigit (m a) (m b)) := by
  by_cases hsmall : fklAbs (m a).num ≤ 1 ∧ fklAbs (m b).num ≤ 1
  · have hnot : ¬KeepsTopDigit (m a) (m b) := fun hk => by
      have := hk.one_lt
      omega
    obtain ⟨x, he, hl⟩ := small_leaves ha.toWf hb.toWf hc hsmall
      (v := (m a).value - (m b).value) (by
        have := FklBigInt.value_natAbs (m a)
        have := FklBigInt.value_natAbs (m b)
        omega)
    refine iff_of_true ⟨_, ?_, hl⟩ (fun h => hnot h.2)
    simp [fklSubBigInt, hsmall, mediumValue_eq, he]
  · unfold fklSubBigInt
    rw [if_neg hsmall]
    by_cases hna : (m a).num < 0 <;> by_cases hnb : (m b).num < 0
    · rw [if_pos hna, if_pos hnb, xSub_leaves_iff ha hb hc]
      · constructor
        · exact fun h h' => h h'.2
        · exact fun h hk => h ⟨iff_of_true hna hnb, hk⟩
      · rw [signedDiff, if_pos hna, FklBigInt.value_of_neg hna, FklBigInt.value_of_neg hnb]
        ring
    · obtain ⟨m', he, hl⟩ := xAdd_leaves ha.toWf hb.toWf hc
      refine iff_of_true ⟨_, by simp [hna, hnb, he]; rfl, ?_⟩ (fun h => by omega)
      have hneg := neg_leaves hl
      rw [FklBigInt.value_of_neg hna, FklBigInt.value_of_nonneg (by omega)]
      rwa [neg_add'] at hneg
    · obtain ⟨m', he, hl⟩ := xAdd_leaves ha.toWf hb.toWf hc
      refine iff_of_true ⟨m', by simp [hna, hnb, he], ?_⟩ (fun h => by omega)
      rw [FklBigInt.value_of_nonneg (by omega), FklBigInt.value_of_neg hnb]
      rwa [sub_neg_eq_add]
    · rw [if_neg hna, if_neg hnb, xSub_leaves_iff ha hb hc]
      · constructor
        · exact fun h h' => h h'.2
        · exact fun h hk => h ⟨iff_of_false hna hnb, hk⟩
      · rw [signedDiff, if_neg hna, FklBigInt.value_of_nonneg (by omega),
          FklBigInt.value_of_nonneg (by omega)]

/-- Addition and subtraction in place are exact, normalized and leave every other object
alone if and only if no leading digit is kept. -/
theorem fklAddBigInt_fklSubBigInt_exact_iff {m : BigIntMem ρ} {a b : ρ}
    (ha : (m a).Normalized) (hb : (m b).Normalized)
    (hc : (m a).CanHold (max (m a).num.natAbs (m b).num.natAbs + 1)) :
    ((∃ m', fklAddBigInt m a b = some m' ∧ Leaves m m' a ((m a).value + (m b).value)) ↔
        ¬(0 ≤ (m a).num ∧ (m b).num < 0 ∧ KeepsTopDigit (m a) (m b))) ∧
      ((∃ m', fklSubBigInt m a b = some m' ∧ Leaves m m' a ((m a).value - (m b).value)) ↔
        ¬(((m a).num < 0 ↔ (m b).num < 0) ∧ KeepsTopDigit (m a) (m b))) :=
  ⟨fklAddBigInt_leaves_iff ha hb hc, fklSubBigInt_leaves_iff ha hb hc⟩

/-- Two numbers of two digits each, both with the leading digit 7. -/
def sharedTop : BigIntMem Bool := fun r =>
  ⟨fun i => if i = 0 then (if r then 3 else 5) else 7, 2, 2, false⟩

theorem sharedTop_normalized (r : Bool) : (sharedTop r).Normalized where
  digit_lt := by cases r <;> decide
  num_le := by cases r <;> decide
  top_ne := by cases r <;> decide

theorem sharedTop_exact_iff :
    ((∃ m', fklAddBigInt sharedTop false true = some m' ∧
        Leaves sharedTop m' false ((sharedTop false).value + (sharedTop true).value)) ↔
      ¬(0 ≤ (sharedTop false).num ∧ (sharedTop true).num < 0 ∧
        KeepsTopDigit (sharedTop false) (sharedTop true))) ∧
    ((∃ m', fklSubBigInt sharedTop false true = some m' ∧
        Leaves sharedTop m' false ((sharedTop false).value - (sharedTop true).value)) ↔
      ¬(((sharedTop false).num < 0 ↔ (sharedTop true).num < 0) ∧
        KeepsTopDigit (sharedTop false) (sharedTop true))) :=
  fklAddBigInt_fklSubBigInt_exact_iff (sharedTop_normalized false) (sharedTop_normalized true)
    (Or.inl rfl)

/-- `(7·2³⁰ + 5) - (7·2³⁰ + 3)` comes out as `7·2³⁰ + 2`. -/
theorem sharedTop_difference_wrong :
    (sharedTop false).Normalized ∧ (sharedTop true).Normalized ∧
      (sharedTop false).constSize = false ∧
      (sharedTop false).value - (sharedTop true).value = 2 ∧
      (fklSubBigInt sharedTop false true).map (fun m' => (m' false).value) =
        some (7 * 2 ^ 30 + 2) ∧
      ¬∃ m', fklSubBigInt sharedTop false true = some m' ∧
        Leaves sharedTop m' false ((sharedTop false).value - (sharedTop true).value) := by
  have hsub : (fklSubBigInt sharedTop false true).map (fun m' => (m' false).value) =
      some (7 * 2 ^ 30 + 2) := by decide
  refine ⟨sharedTop_normalized false, sharedTop_normalized true, rfl, by decide, hsub, ?_⟩
  rintro ⟨m', he, hl⟩
  rw [he, Option.map_some, hl.value] at hsub
  exact absurd hsub (by decide)

end FakeLisp
