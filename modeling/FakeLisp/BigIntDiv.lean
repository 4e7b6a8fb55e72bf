import FakeLisp.BigIntAdd
import FakeLisp.LongDivision

/-! Division in place with an optional remainder object, which may be one of the
operands. -/

namespace FakeLisp

variable {ρ : Type} [DecidableEq ρ]

/-- The dividend of one digit division, `hi` above `lo`. -/
def twoDigits (hi lo : Nat) : Nat := (hi <<< digitShift) ||| lo

def divrem1Round (d : Nat) (i : Nat) (s : (Nat → Nat) × Nat) : (Nat → Nat) × Nat :=
  let dividend := twoDigits s.2 (s.1 i)
  (Function.update s.1 i (dividend / d), dividend % d)

/-- The quotient digits and the remainder `rem1`. -/
def divrem1 (pin : Nat → Nat) (size d : Nat) : Option ((Nat → Nat) × Nat) := do
  fklAssert (0 < size ∧ d ≤ digitMask)
  some (forDown (divrem1Round d) size (pin, 0))

def bitLengthTable : List Nat :=
  [0, 1, 2, 2, 3, 3, 3, 3, 4, 4, 4, 4, 4, 4, 4, 4,
   5, 5, 5, 5, 5, 5, 5, 5, 5, 5, 5, 5, 5, 5, 5, 5]

/-- Eleven rounds empty a `uint64_t`. -/
def bitLengthLoop : Nat → Nat → Nat → Nat
  | 0, x, msb => msb + bitLengthTable.getD x 0
  | fuel + 1, x, msb =>
    if 32 ≤ x then bitLengthLoop fuel (x >>> 6) (msb + 6) else msb + bitLengthTable.getD x 0

def bitLengthDigit (x : Nat) : Nat := bitLengthLoop 11 x 0

/-- `words` reads the block of `a` while that of `z` holds the given words: the two may
be one block. -/
def vLshift (words : (Nat → Nat) → Nat → Nat) (z : Nat → Nat) (m d : Nat) :
    Option ((Nat → Nat) × Nat) := do
  fklAssert (d < digitShift)
  some (forUpTo (fun i (s : (Nat → Nat) × Nat) =>
    let acc := (words s.1 i <<< d) ||| s.2
    (Function.update s.1 i (acc &&& digitMask), acc >>> digitShift)) 0 m (z, 0))

def vRshift (z a : Nat → Nat) (m d : Nat) : Option ((Nat → Nat) × Nat) := do
  fklAssert (d < digitShift)
  let mask := (1 <<< d) - 1
  some (forDown (fun i (s : (Nat → Nat) × Nat) =>
    let acc := twoDigits s.2 (a i)
    (Function.update s.1 i (acc >>> d), acc &&& mask)) m (z, 0))

/-- The correction loop of `x_divrem`, which no divisor lets run past two rounds. -/
def estimateLoop (wm1 wm2 v2 : Nat) : Nat → Nat → Nat → Option (Nat × Nat)
  | 0, _, _ => none
  | fuel + 1, q, r =>
    if u64 (wm2 * q : Nat) > twoDigits r v2 then
      let q := u32 ((q : Int) - 1)
      let r := u32 (r + wm1 : Nat)
      if digitBase ≤ r then some (q, r) else estimateLoop wm1 wm2 v2 fuel q r
    else some (q, r)

def mulSubRound (w0 : Nat → Nat) (k q i : Nat) (s : (Nat → Nat) × Int) : (Nat → Nat) × Int :=
  let z : Int := i32 (s.1 (k + i)) + s.2 - (q : Int) * w0 i
  (Function.update s.1 (k + i) (u32 z &&& digitMask), z >>> digitShift)

def addBackRound (w0 : Nat → Nat) (k i : Nat) (s : (Nat → Nat) × Nat) : (Nat → Nat) × Nat :=
  let carry := u32 (s.2 + u32 (s.1 (k + i) + w0 i : Nat) : Nat)
  (Function.update s.1 (k + i) (carry &&& digitMask), carry >>> digitShift)

/-- The estimate for the window of `v` at `k`, by the divisor `w0`. -/
def quotientDigit (w0 : Nat → Nat) (sizeW k : Nat) (v : Nat → Nat) : Option Nat := do
  let wm1 := w0 (sizeW - 1)
  let vtop := v (k + sizeW)
  fklAssert (vtop ≤ wm1)
  let vv := twoDigits vtop (v (k + sizeW - 1))
  let (q, _) ← estimateLoop wm1 (w0 (sizeW - 2)) (v (k + sizeW - 2)) 3
    (u32 (vv / wm1 : Nat)) (vv % wm1)
  fklAssert (q ≤ digitBase)
  some q

/-- Subtract `q` times the divisor from the window, and add it back once if that was too much. -/
def subtractDigit (w0 : Nat → Nat) (sizeW k q : Nat) (v : Nat → Nat) :
    Option ((Nat → Nat) × Nat) := do
  let s := forUpTo (mulSubRound w0 k q) 0 sizeW (v, 0)
  let top := i32 (v (k + sizeW)) + s.2
  fklAssert (top = -1 ∨ top = 0)
  if top < 0 then do
    let q := u32 ((q : Int) - 1)
    fklAssert (q < digitBase)
    some ((forUpTo (addBackRound w0 k) 0 sizeW (s.1, 0)).1, q)
  else do
    fklAssert (q < digitBase)
    some (s.1, q)

/-- One turn of the quotient loop. -/
def divStep (w0 : Nat → Nat) (sizeW k : Nat) (v : Nat → Nat) : Option ((Nat → Nat) × Nat) := do
  let q ← quotientDigit w0 sizeW k v
  subtractDigit w0 sizeW k q v

/-- The quotient digits are stored downwards into `a`. -/
def divLoop (w0 : Nat → Nat) (sizeW : Nat) :
    Nat → (Nat → Nat) × (Nat → Nat) → Option ((Nat → Nat) × (Nat → Nat))
  | 0, s => some s
  | k + 1, s => do
    let (v, q) ← divStep w0 sizeW k s.1
    divLoop w0 sizeW k (v, Function.update s.2 k q)

/-- Both operands shifted until the divisor fills its top bit, and the new length of `v`. -/
def shiftOperands (v1 w1 w : Nat → Nat) (sizeV sizeW d : Nat) :
    Option (((Nat → Nat) × Nat) × (Nat → Nat)) := do
  let (w0, carry) ← vLshift (fun _ => w1) w sizeW d
  fklAssert (carry = 0)
  let (v0, carry) ← vLshift id v1 sizeV d
  some (if carry ≠ 0 ∨ w0 (sizeW - 1) ≤ v0 (sizeV - 1) then
    (Function.update v0 sizeV carry, sizeV + 1) else (v0, sizeV), w0)

/-- The words that `x_divrem` leaves in the block of `v1`, the remainder `w` and the
quotient `a`. -/
def divremDigits (v1 w1 : Nat → Nat) (sizeV sizeW : Nat) :
    Option ((Nat → Nat) × FklBigInt × FklBigInt) := do
  let w ← ensureBigintSize bigInt0 sizeW
  let d := digitShift - bitLengthDigit (w1 (sizeW - 1))
  let ((v0, sizeV), w0) ← shiftOperands v1 w1 w.digits sizeV sizeW d
  fklAssert (sizeW ≤ sizeV)
  let a ← ensureBigintSize bigInt0 (sizeV - sizeW)
  let (v0, a0) ← divLoop w0 sizeW (sizeV - sizeW) (v0, a.digits)
  let (w0, carry) ← vRshift w0 v0 sizeW d
  fklAssert (carry = 0)
  some (v0, { w with num := sizeW, digits := w0 }, { a with num := sizeV - sizeW, digits := a0 })

/-- `if (rem) set(rem);` -/
def assignRem (m : BigIntMem ρ) (rem : Option ρ) (set : FklBigInt → Option FklBigInt) :
    Option (BigIntMem ρ) :=
  match rem with
  | none => some m
  | some r => do
    let y ← set (m r)
    some (Function.update m r y)

def xDivrem (m : BigIntMem ρ) (v1 w1 : ρ) (rem : Option ρ) : Option (BigIntMem ρ) := do
  let sizeV := (fklAbs (m v1).num).toNat
  let sizeW := (fklAbs (m w1).num).toNat
  fklAssert (sizeW ≤ sizeV ∧ 2 ≤ sizeW)
  let x ← ensureBigintSize (m v1) (sizeV + 1)
  let (v0, w, a) ← divremDigits x.digits (m w1).digits sizeV sizeW
  let m ← assignRem (Function.update m v1 { x with num := sizeV + 1, digits := v0 }) rem
    (fun y => fklSetBigInt y (bigintNormalize w))
  if rem = some v1 then some m
  else do
    let y ← fklSetBigInt (m v1) (bigintNormalize a)
    some (Function.update m v1 y)

/-- The last lines of `fklDivRemBigInt`: the signs of remainder and quotient. -/
def divRemSigns (m : BigIntMem ρ) (a : ρ) (rem : Option ρ) (negA negB : Bool) : BigIntMem ρ :=
  let m := match rem with
    | none => m
    | some r => if negA ∧ ¬(m r).is0 then negNum m r else m
  if rem = some a then m
  else
    let m := if (negA ≠ negB ∧ 0 < (m a).num) ∨ (negA = negB ∧ (m a).num < 0) then negNum m a else m
    Function.update m a (bigintNormalize (m a))

/-- The new memory and the returned code. -/
def fklDivRemBigInt (m : BigIntMem ρ) (a b : ρ) (rem : Option ρ) :
    Option (BigIntMem ρ × Int) := do
  let negA : Bool := (m a).num < 0
  let negB : Bool := (m b).num < 0
  let numA := (fklAbs (m a).num).toNat
  let numB := (fklAbs (m b).num).toNat
  if numB = 0 then some (m, -1)
  else if numA < numB then
    if rem = some a then some (m, 0)
    else do
      let m ← assignRem m rem (fun y => fklSetBigInt y (m a))
      some (Function.update m a { m a with num := 0 }, 0)
  else if numB = 1 then do
    let (pin, rem1) ← divrem1 (m a).digits numA ((m b).digits 0)
    let m ← assignRem (Function.update m a { m a with digits := pin }) rem
      (fun y => fklSetBigIntI y rem1)
    some (divRemSigns m a rem negA negB, 0)
  else do
    let m ← xDivrem m a b rem
    some (divRemSigns m a rem negA negB, 0)

theorem twoDigits_eq {hi lo : Nat} (h : lo < digitBase) :
    twoDigits hi lo = hi * digitBase + lo := by
  unfold twoDigits
  rw [← Nat.shiftLeft_add_eq_or_of_lt (i := digitShift) (by simpa [digitBase, Nat.shiftLeft_eq] using h),
    Nat.shiftLeft_eq]
  simp [digitBase, Nat.shiftLeft_eq]

/-! Division by a single divisor `e`, from the top word down. -/

/-- The words from `i` to `n` of `a` have been divided into those of `d`, leaving `c`. -/
structure ShortDivInv (a d : Nat → Nat) (n e i c : Nat) : Prop where
  rest_lt : c < e
  digit_lt : ∀ j, i ≤ j → j < n → d j < digitBase
  sum : positional digitBase (wordsFrom i a) (n - i) =
    positional digitBase (wordsFrom i d) (n - i) * e + c

theorem ShortDivInv.start (a d : Nat → Nat) (n : Nat) {e : Nat} (he : 0 < e) :
    ShortDivInv a d n e n 0 :=
  ⟨he, fun j h h' => by omega, by simp⟩

theorem ShortDivInv.step {a d : Nat → Nat} {n e i c : Nat} (h : ShortDivInv a d n e (i + 1) c)
    (hi : i < n) (ha : a i < digitBase) :
    ShortDivInv a (Function.update d i ((c * digitBase + a i) / e)) n e i
      ((c * digitBase + a i) % e) := by
  have he : 0 < e := Nat.zero_lt_of_lt h.rest_lt
  refine ⟨Nat.mod_lt _ he, fun j hij hj => ?_, ?_⟩
  · rcases Nat.eq_or_lt_of_le hij with rfl | hlt
    · rw [Function.update_self, Nat.div_lt_iff_lt_mul he]
      calc c * digitBase + a i < (c + 1) * digitBase := by rw [Nat.add_mul]; omega
        _ ≤ e * digitBase := Nat.mul_le_mul_right _ h.rest_lt
        _ = digitBase * e := Nat.mul_comm _ _
    · rw [Function.update_of_ne (by omega)]
      exact h.digit_lt j hlt hj
  · obtain ⟨l, hl⟩ : ∃ l, n - i = l + 1 := ⟨n - i - 1, by omega⟩
    have hl' : n - (i + 1) = l := by omega
    have hsum := h.sum
    rw [hl'] at hsum
    have hhigh : wordsFrom (i + 1) (Function.update d i ((c * digitBase + a i) / e)) =
        wordsFrom (i + 1) d := by
      funext j
      exact Function.update_of_ne (by omega) _ _
    rw [hl, positional_wordsFrom_succ, positional_wordsFrom_succ, hhigh, hsum,
      Function.update_self]
    have hdm := Nat.div_add_mod (c * digitBase + a i) e
    calc a i + digitBase * (positional digitBase (wordsFrom (i + 1) d) l * e + c)
        = digitBase * positional digitBase (wordsFrom (i + 1) d) l * e +
            (c * digitBase + a i) := by ring
      _ = digitBase * positional digitBase (wordsFrom (i + 1) d) l * e +
            (e * ((c * digitBase + a i) / e) + (c * digitBase + a i) % e) := by rw [hdm]
      _ = _ := by ring

theorem divrem1_spec {pin : Nat → Nat} {n e : Nat} (hn : 0 < n) (he : 0 < e)
    (he' : e < digitBase) (hpin : ∀ i < n, pin i < digitBase) :
    ∃ s, divrem1 pin n e = some s ∧ (∀ i < n, s.1 i < digitBase) ∧
      positional digitBase s.1 n = positional digitBase pin n / e ∧
      s.2 = positional digitBase pin n % e := by
  have hinv := forDown_inv (f := divrem1Round e) (n := n) (s := (pin, 0))
    (fun i s => ShortDivInv pin s.1 n e i s.2 ∧ ∀ j < i, s.1 j = pin j)
    ⟨ShortDivInv.start pin pin n he, fun _ _ => rfl⟩
    (fun i s hi h => by
      obtain ⟨h, hlow⟩ := h
      have hnext := h.step hi (hpin i hi)
      have hread : s.1 i = pin i := hlow i (by omega)
      constructor
      · simpa only [divrem1Round, hread, twoDigits_eq (hpin i hi)] using hnext
      · intro j hj
        simpa [divrem1Round, Function.update_of_ne (Nat.ne_of_lt hj)] using hlow j (by omega))
  obtain ⟨⟨hlt, hdig, hsum⟩, _⟩ := hinv
  refine ⟨_, ?_, fun i hi => hdig i (Nat.zero_le i) hi, ?_, ?_⟩
  · have hmask : e ≤ digitMask := Nat.le_sub_one_of_lt he'
    simp [divrem1, hn, hmask]
  · rw [wordsFrom_zero, wordsFrom_zero, Nat.sub_zero] at hsum
    rw [hsum, Nat.add_comm, Nat.add_mul_div_right _ _ he, Nat.div_eq_of_lt hlt, Nat.zero_add]
  · rw [wordsFrom_zero, wordsFrom_zero, Nat.sub_zero] at hsum
    rw [hsum, Nat.add_comm, Nat.add_mul_mod_self_right, Nat.mod_eq_of_lt hlt]

/-! Shifting by `d` bits. -/

theorem vRshift_spec {z a : Nat → Nat} {n d : Nat} (hd : d < digitShift)
    (ha : ∀ i < n, a i < digitBase) :
    ∃ s, vRshift z a n d = some s ∧ (∀ i < n, s.1 i < digitBase) ∧
      positional digitBase s.1 n = positional digitBase a n / 2 ^ d ∧
      s.2 = positional digitBase a n % 2 ^ d := by
  have hpow : 0 < 2 ^ d := Nat.two_pow_pos d
  have hinv := forDown_inv (f := fun i (s : (Nat → Nat) × Nat) =>
      let acc := twoDigits s.2 (a i)
      (Function.update s.1 i (acc >>> d), acc &&& ((1 <<< d) - 1))) (n := n) (s := (z, 0))
    (fun i s => ShortDivInv a s.1 n (2 ^ d) i s.2) (ShortDivInv.start a z n hpow)
    (fun i s hi h => by
      have hnext := h.step hi (ha i hi)
      simpa only [twoDigits_eq (ha i hi), Nat.shiftRight_eq_div_pow, Nat.one_shiftLeft,
        Nat.and_two_pow_sub_one_eq_mod] using hnext)
  obtain ⟨hlt, hdig, hsum⟩ := hinv
  rw [wordsFrom_zero, wordsFrom_zero, Nat.sub_zero] at hsum
  refine ⟨_, ?_, fun i hi => hdig i (Nat.zero_le i) hi, ?_, ?_⟩
  · simp [vRshift, hd]
  · rw [hsum, Nat.add_comm, Nat.add_mul_div_right _ _ hpow, Nat.div_eq_of_lt hlt, Nat.zero_add]
  · rw [hsum, Nat.add_comm, Nat.add_mul_mod_self_right, Nat.mod_eq_of_lt hlt]

/-- The result of shifting `n` words of `a` left into `z`. -/
structure Shifted (a z : Nat → Nat) (n d : Nat) (s : (Nat → Nat) × Nat) : Prop where
  digit_lt : ∀ j < n, s.1 j < digitBase
  carry_lt : s.2 < 2 ^ d
  untouched : ∀ j, n ≤ j → s.1 j = z j
  sum : positional digitBase s.1 n + s.2 * digitBase ^ n = 2 ^ d * positional digitBase a n

theorem vLshift_spec {z a : Nat → Nat} {n d : Nat} (words : (Nat → Nat) → Nat → Nat)
    (hd : d < digitShift) (ha : ∀ i < n, a i < digitBase)
    (hwords : ∀ s i, (∀ j, i ≤ j → s j = z j) → words s i = a i) :
    ∃ s, vLshift words z n d = some s ∧ Shifted a z n d s := by
  have hinv := forUpTo_inv (f := fun i (s : (Nat → Nat) × Nat) =>
      let acc := (words s.1 i <<< d) ||| s.2
      (Function.update s.1 i (acc &&& digitMask), acc >>> digitShift)) (l := 0) (n := n)
    (s := (z, 0)) (fun i s => Shifted a z i d s)
    ⟨by omega, Nat.two_pow_pos d, fun _ _ => rfl, by simp⟩
    (fun i s _ hi h => by
      have hread := hwords s.1 i h.untouched
      have hai := ha i (by omega)
      have hacc : (a i <<< d) ||| s.2 = a i * 2 ^ d + s.2 := by
        rw [← Nat.shiftLeft_add_eq_or_of_lt h.carry_lt, Nat.shiftLeft_eq]
      simp only [hread, hacc, land_digitMask, shiftRight_digitShift]
      refine ⟨digits_update h.digit_lt (Nat.mod_lt _ digitBase_pos), ?_,
        untouched_update h.untouched, ?_⟩
      · rw [Nat.div_lt_iff_lt_mul digitBase_pos]
        calc a i * 2 ^ d + s.2 < (a i + 1) * 2 ^ d := by rw [Nat.add_mul]; have := h.carry_lt; omega
          _ ≤ digitBase * 2 ^ d := Nat.mul_le_mul_right _ hai
          _ = 2 ^ d * digitBase := Nat.mul_comm _ _
      · dsimp only
        rw [positional_update_succ, positional_succ, Nat.mul_add, ← Nat.mul_assoc]
        apply ripple_carry h.sum
        rw [Nat.mod_add_div]
        ring)
  rw [Nat.zero_add] at hinv
  exact ⟨_, by simp [vLshift, hd], hinv⟩

theorem bitLengthTable_spec :
    ∀ x < 32, x < 2 ^ bitLengthTable.getD x 0 ∧
      (x ≠ 0 → bitLengthTable.getD x 0 ≠ 0 ∧ 2 ^ (bitLengthTable.getD x 0 - 1) ≤ x) := by
  decide

theorem bitLengthLoop_spec (fuel x msb : Nat) (h : x < 32 * 64 ^ fuel) :
    ∃ l, bitLengthLoop fuel x msb = msb + l ∧ x < 2 ^ l ∧ (x ≠ 0 → l ≠ 0 ∧ 2 ^ (l - 1) ≤ x) := by
  induction fuel generalizing x msb with
  | zero => exact ⟨_, rfl, bitLengthTable_spec x (by omega)⟩
  | succ fuel ih =>
    unfold bitLengthLoop
    by_cases hx : 32 ≤ x
    · rw [if_pos hx, show x >>> 6 = x / 64 from Nat.shiftRight_eq_div_pow x 6]
      obtain ⟨l, hl, hub, hlb⟩ := ih (x / 64) (msb + 6) (by rw [pow_succ] at h; omega)
      refine ⟨l + 6, by rw [hl]; omega, by rw [pow_add]; omega, fun _ => ⟨by omega, ?_⟩⟩
      by_cases h0 : x / 64 = 0
      · have hl0 : l = 0 := by
          rw [h0] at hl hub
          have := hl.symm.trans (show bitLengthLoop fuel 0 (msb + 6) = msb + 6 by
            cases fuel <;> rfl)
          omega
        rw [hl0]
        exact hx
      · obtain ⟨hl0, hle⟩ := hlb h0
        rw [show l + 6 - 1 = (l - 1) + 6 by omega, pow_add]
        omega
    · rw [if_neg hx]
      exact ⟨_, rfl, bitLengthTable_spec x (by omega)⟩

theorem bitLengthDigit_bounds {x : Nat} (h0 : x ≠ 0) (hx : x < digitBase) :
    bitLengthDigit x ≠ 0 ∧ 2 ^ (bitLengthDigit x - 1) ≤ x ∧ x < 2 ^ bitLengthDigit x := by
  obtain ⟨l, hl, hub, hlb⟩ := bitLengthLoop_spec 11 x 0 (lt_of_lt_of_le hx (by decide))
  obtain ⟨hl0, hle⟩ := hlb h0
  have hlen : bitLengthDigit x = l := by simpa [bitLengthDigit] using hl
  rw [hlen]
  exact ⟨hl0, hle, hub⟩

/-- Shifted by what its bit length leaves of a digit, a digit fills the top bit. -/
theorem bitLengthDigit_spec {x : Nat} (h0 : x ≠ 0) (hx : x < digitBase) :
    digitShift - bitLengthDigit x < digitShift ∧
      digitBase ≤ 2 * (2 ^ (digitShift - bitLengthDigit x) * x) ∧
      2 ^ (digitShift - bitLengthDigit x) * x < digitBase := by
  obtain ⟨hl0, hle, hub⟩ := bitLengthDigit_bounds h0 hx
  generalize bitLengthDigit x = l at hl0 hle hub
  have hbase : digitBase = 2 ^ 30 := by decide
  have hl30 : l ≤ 30 := by
    by_contra hgt
    have : 2 ^ 30 ≤ 2 ^ (l - 1) := Nat.pow_le_pow_right (by decide) (by omega)
    omega
  rw [hbase]
  refine ⟨by unfold digitShift; omega, ?_, ?_⟩
  · calc 2 ^ 30 = 2 * (2 ^ (30 - l) * 2 ^ (l - 1)) := by
          rw [← pow_add, ← pow_succ']
          congr 1
          omega
      _ ≤ 2 * (2 ^ (30 - l) * x) := Nat.mul_le_mul_left _ (Nat.mul_le_mul_left _ hle)
  · calc 2 ^ (30 - l) * x < 2 ^ (30 - l) * 2 ^ l :=
          Nat.mul_lt_mul_of_pos_left hub (Nat.two_pow_pos _)
      _ = 2 ^ 30 := by rw [← pow_add]; congr 1; omega

/-! One quotient digit. -/

/-- The loop ends with an estimate that is too large by at most one. -/
theorem estimateLoop_spec {P W V y1 y2 vv v2 : Nat}
    (h : LeadingDigits digitBase P W V y1 y2 vv v2) (hy1 : y1 < digitBase) (fuel q r : Nat)
    (hqr : vv = q * y1 + r) (hle : V / W ≤ q) (hq : q ≤ digitBase + 1) (hr : r < digitBase)
    (hfuel : digitBase ≤ r + fuel * y1) :
    ∃ q' r', estimateLoop y1 y2 v2 fuel q r = some (q', r') ∧ V / W ≤ q' ∧ q' ≤ V / W + 1 := by
  induction fuel generalizing q r with
  | zero => omega
  | succ fuel ih =>
    have hmul : u64 (y2 * q : Nat) = y2 * q := by
      apply toUnsigned_natCast
      calc y2 * q ≤ digitBase * (digitBase + 1) := Nat.mul_le_mul h.y2_lt.le hq
        _ < 2 ^ 64 := by decide
    unfold estimateLoop
    rw [hmul, twoDigits_eq h.v2_lt]
    by_cases href : r * digitBase + v2 < y2 * q
    · have h0 := Nat.zero_le (V / W)
      have hlt := h.lt_of_refuted hqr hle href
      have hq1 : u32 ((q : Int) - 1) = q - 1 := by
        rw [show (q : Int) - 1 = (q - 1 : Nat) by omega]
        exact toUnsigned_natCast (by rw [digitBase_eq] at hq; omega)
      have hr1 : u32 (r + y1 : Nat) = r + y1 :=
        toUnsigned_natCast (by rw [digitBase_eq] at hr hy1; omega)
      have hqr' : vv = (q - 1) * y1 + (r + y1) := by
        obtain ⟨p, rfl⟩ : ∃ p, q = p + 1 := ⟨q - 1, by omega⟩
        rw [hqr, Nat.add_sub_cancel]
        ring
      rw [if_pos href, hq1, hr1]
      by_cases hbig : digitBase ≤ r + y1
      · have hge := h.le_of_large_rest hqr' (by omega) hbig
        exact ⟨q - 1, r + y1, if_pos hbig, by omega, by omega⟩
      · dsimp only
        rw [if_neg hbig]
        have hexp : (fuel + 1) * y1 = fuel * y1 + y1 := by ring
        exact ih (q - 1) (r + y1) hqr' (by omega) (by omega) (by omega) (by omega)
    · rw [if_neg href]
      exact ⟨q, r, rfl, hle, h.le_succ_of_accepted hqr hq (by omega)⟩

theorem digit_i32 {x : Nat} (h : x < digitBase) : i32 x = x :=
  toSigned_of_mem (w := 31) (by omega) (by rw [digitBase_eq] at h; omega)

/-- Before round `i` of the loop that subtracts `q` times `w0` from the words of `old`
from `k` on; `zhi` is the borrow. -/
structure MulSubInv (w0 old d : Nat → Nat) (k q i : Nat) (zhi : Int) : Prop where
  digit_lt : ∀ j < i, d (k + j) < digitBase
  borrow_ge : -(digitBase : Int) ≤ zhi
  borrow_le : zhi ≤ 0
  untouched : ∀ j, j < k ∨ k + i ≤ j → d j = old j
  sum : (positional digitBase (wordsFrom k d) i : Int) + zhi * (digitBase : Int) ^ i =
    positional digitBase (wordsFrom k old) i - q * positional digitBase w0 i

theorem MulSubInv.step {w0 old d : Nat → Nat} {k q i : Nat} {zhi : Int}
    (h : MulSubInv w0 old d k q i zhi) (hq : q ≤ digitBase) (hw : w0 i < digitBase)
    (hold : old (k + i) < digitBase) :
    let s := mulSubRound w0 k q i (d, zhi)
    MulSubInv w0 old s.1 k q (i + 1) s.2 := by
  have hread : d (k + i) = old (k + i) := h.untouched _ (Or.inr (le_refl _))
  set z : Int := (old (k + i) : Int) + zhi - (q : Int) * w0 i with hz
  have hs : mulSubRound w0 k q i (d, zhi) =
      (Function.update d (k + i) (u32 z &&& digitMask), z >>> digitShift) := by
    simp only [mulSubRound, hread, digit_i32 hold, hz]
  have hlow : ((u32 z &&& digitMask : Nat) : Int) = z % digitBase := by
    have hu : (u32 z : Int) = z % 2 ^ 32 := toUnsigned_cast 32 z
    rw [land_digitMask]
    push_cast
    rw [digitBase_eq]
    omega
  have hhigh : z >>> digitShift = z / digitBase := by
    rw [Int.shiftRight_eq_div_pow]
    rfl
  have hprod : q * w0 i ≤ digitBase * (digitBase - 1) :=
    Nat.mul_le_mul hq (Nat.le_sub_one_of_lt hw)
  have hcast : (q : Int) * w0 i = (q * w0 i : Nat) := (Nat.cast_mul q (w0 i)).symm
  have hge := h.borrow_ge
  have hle := h.borrow_le
  rw [hs]
  show MulSubInv w0 old (Function.update d (k + i) (u32 z &&& digitMask)) k q (i + 1)
    (z >>> digitShift)
  refine ⟨fun j hj => ?_, ?_, ?_, fun j hj => ?_, ?_⟩
  · rcases Nat.lt_succ_iff_lt_or_eq.mp hj with hj | rfl
    · rw [Function.update_of_ne (by omega)]
      exact h.digit_lt j hj
    · rw [Function.update_self, land_digitMask]
      exact Nat.mod_lt _ digitBase_pos
  · rw [hhigh]
    rw [digitBase_eq] at *
    omega
  · rw [hhigh]
    rw [digitBase_eq] at *
    omega
  · rw [Function.update_of_ne (by omega)]
    exact h.untouched j (by omega)
  · have hup : wordsFrom k (Function.update d (k + i) (u32 z &&& digitMask)) =
        Function.update (wordsFrom k d) i (u32 z &&& digitMask) := wordsFrom_update _ _ _ _
    rw [hup, positional_cast_succ, positional_update_of_le (le_refl i), Function.update_self,
      positional_cast_succ, positional_cast_succ]
    have hstep : ((u32 z &&& digitMask : Nat) : Int) + digitBase * (z >>> digitShift) =
        zhi + ((old (k + i) : Int) - (q : Int) * w0 i) := by
      rw [hlow, hhigh, Int.emod_add_mul_ediv, hz]
      ring
    rw [ripple_carry h.sum hstep]
    simp only [wordsFrom]
    ring

theorem mulSub_spec {w0 old : Nat → Nat} {k q n : Nat} (hq : q ≤ digitBase)
    (hw : ∀ i < n, w0 i < digitBase) (hold : ∀ i < n, old (k + i) < digitBase) :
    let s := forUpTo (mulSubRound w0 k q) 0 n (old, 0)
    MulSubInv w0 old s.1 k q n s.2 := by
  have hinv := forUpTo_inv (f := mulSubRound w0 k q) (l := 0) (n := n) (s := (old, 0))
    (fun i s => MulSubInv w0 old s.1 k q i s.2)
    ⟨by omega, by simp, le_refl _, fun _ _ => rfl, by simp⟩
    (fun i s _ hi h => h.step hq (hw i (by omega)) (hold i (by omega)))
  rwa [Nat.zero_add] at hinv

theorem addBack_spec {w0 old : Nat → Nat} {k n : Nat} (hw : ∀ i < n, w0 i < digitBase)
    (hold : ∀ i < n, old (k + i) < digitBase) :
    let s := forUpTo (addBackRound w0 k) 0 n (old, 0)
    AddInv (wordsFrom k old) (wordsFrom k s.1) n s.2
        (positional digitBase (wordsFrom k old) n + positional digitBase w0 n) ∧
      ∀ j < k, s.1 j = old j := by
  have hinv := forUpTo_inv (f := addBackRound w0 k) (l := 0) (n := n) (s := (old, 0))
    (fun i s => AddInv (wordsFrom k old) (wordsFrom k s.1) i s.2
        (positional digitBase (wordsFrom k old) i + positional digitBase w0 i) ∧
      ∀ j < k, s.1 j = old j)
    ⟨by simpa using AddInv.zero (wordsFrom k old), fun _ _ => rfl⟩
    (fun i s _ hi h => by
      obtain ⟨h, hlow⟩ := h
      have hread : s.1 (k + i) = old (k + i) := h.untouched i (le_refl i)
      have hoi := hold i (by omega)
      have hwi := hw i (by omega)
      have hu : u32 (old (k + i) + w0 i : Nat) = old (k + i) + w0 i :=
        toUnsigned_natCast (by rw [digitBase_eq] at hoi hwi; omega)
      constructor
      · have hnext := h.step (x := old (k + i) + w0 i) (by omega)
        simp only [addBackRound, hread, hu, wordsFrom_update, positional_succ]
        convert hnext using 1
        simp only [wordsFrom]
        ring
      · intro j hj
        simpa [addBackRound, Function.update_of_ne (show j ≠ k + i by omega)] using hlow j hj)
  rwa [Nat.zero_add] at hinv

/-- A divisor of `n` digits whose top bit is set. -/
structure Divisor (w0 : Nat → Nat) (n : Nat) : Prop where
  two_le : 2 ≤ n
  digit_lt : ∀ i < n, w0 i < digitBase
  normalized : digitBase ≤ 2 * w0 (n - 1)

theorem positional_top_two (d : Nat → Nat) (l : Nat) :
    positional digitBase d (l + 2) =
      (d (l + 1) * digitBase + d l) * digitBase ^ l + positional digitBase d l := by
  rw [positional_succ, positional_succ, pow_succ]
  ring

theorem Divisor.leadingDigits {w0 v : Nat → Nat} {n k : Nat} (h : Divisor w0 n)
    (hv : ∀ i, i ≤ n → v (k + i) < digitBase)
    (hlt : positional digitBase (wordsFrom k v) (n + 1) < positional digitBase w0 n * digitBase) :
    LeadingDigits digitBase (digitBase ^ (n - 2)) (positional digitBase w0 n)
      (positional digitBase (wordsFrom k v) (n + 1)) (w0 (n - 1)) (w0 (n - 2))
      (v (k + n) * digitBase + v (k + n - 1)) (v (k + n - 2)) := by
  obtain ⟨l, rfl⟩ : ∃ l, n = l + 2 := ⟨n - 2, by have := h.two_le; omega⟩
  have hW := positional_top_two w0 l
  have hV : positional digitBase (wordsFrom k v) (l + 2 + 1) =
      ((v (k + (l + 2)) * digitBase + v (k + (l + 1))) * digitBase + v (k + l)) * digitBase ^ l +
        positional digitBase (wordsFrom k v) l := by
    rw [positional_succ, positional_top_two]
    simp only [wordsFrom]
    ring
  have hWlow := positional_lt (n := l) (fun i hi => h.digit_lt i (by omega))
  have hVlow := positional_lt (b := digitBase) (d := wordsFrom k v) (n := l)
    (fun i hi => hv i (by omega))
  rw [show l + 2 - 1 = l + 1 by omega, show l + 2 - 2 = l by omega,
    show k + (l + 2) - 1 = k + (l + 1) by omega, show k + (l + 2) - 2 = k + l by omega]
  exact {
    base_pos := digitBase_pos
    weight_pos := Nat.pow_pos digitBase_pos
    divisor_ge := by rw [hW]; exact Nat.le_add_right _ _
    divisor_lt := by rw [hW, Nat.add_mul _ 1, Nat.one_mul]; omega
    window_ge := by rw [hV]; exact Nat.le_add_right _ _
    window_lt := by rw [hV, Nat.add_mul _ 1, Nat.one_mul]; omega
    y2_lt := h.digit_lt l (by omega)
    v2_lt := hv l (by omega)
    normalized := h.normalized
    quotient_lt := hlt }

/-- A window of `n + 1` words at `k` and the number `V` in it. -/
structure Window (w0 v : Nat → Nat) (n k W V : Nat) : Prop where
  digit_lt : ∀ i, i ≤ n → v (k + i) < digitBase
  divisor : positional digitBase w0 n = W
  value : positional digitBase (wordsFrom k v) (n + 1) = V
  lt : V < W * digitBase

theorem Window.leadingDigits {w0 v : Nat → Nat} {n k W V : Nat} (h : Divisor w0 n)
    (hw : Window w0 v n k W V) :
    LeadingDigits digitBase (digitBase ^ (n - 2)) W V (w0 (n - 1)) (w0 (n - 2))
      (v (k + n) * digitBase + v (k + n - 1)) (v (k + n - 2)) := by
  have lead := h.leadingDigits hw.digit_lt (by rw [hw.value, hw.divisor]; exact hw.lt)
  rwa [hw.value, hw.divisor] at lead

theorem quotientDigit_spec {w0 v : Nat → Nat} {n k W V : Nat} (h : Divisor w0 n)
    (hw : Window w0 v n k W V) (hQ : V / W < digitBase) :
    ∃ q, quotientDigit w0 n k v = some q ∧ q ≤ digitBase ∧ V / W ≤ q ∧ q ≤ V / W + 1 := by
  have lead := hw.leadingDigits h
  have hn := h.two_le
  have htop : v (k + n) ≤ w0 (n - 1) := lead.top_le rfl
  have hvv : twoDigits (v (k + n)) (v (k + n - 1)) =
      v (k + n) * digitBase + v (k + n - 1) := by
    apply twoDigits_eq
    rw [show k + n - 1 = k + (n - 1) by omega]
    exact hw.digit_lt (n - 1) (by omega)
  generalize v (k + n) * digitBase + v (k + n - 1) = vv at lead hvv
  have hq32 : u32 (vv / w0 (n - 1) : Nat) = vv / w0 (n - 1) := by
    apply toUnsigned_natCast
    have hle := lead.estimate_le
    rw [digitBase_eq] at hle
    omega
  have hy1 := h.digit_lt (n - 1) (by omega)
  have hrest := Nat.mod_lt vv lead.y1_pos
  have hnorm := h.normalized
  obtain ⟨q, r, hest, hqle, hqge⟩ := estimateLoop_spec lead hy1 3 (vv / w0 (n - 1))
    (vv % w0 (n - 1)) (by rw [Nat.mul_comm]; exact (Nat.div_add_mod vv _).symm)
    lead.div_le_estimate lead.estimate_le (by omega) (by omega)
  have hqB : q ≤ digitBase := hqge.trans hQ
  refine ⟨q, ?_, hqB, hqle, hqge⟩
  simp only [quotientDigit, fklAssert_eq_some htop, hvv, hq32, hest, fklAssert_eq_some hqB,
    Option.bind_eq_bind, Option.bind_some]

/-- After the subtraction the sign digit tells whether the estimate was right. -/
theorem Window.subtract {w0 v : Nat → Nat} {n k W V q : Nat} (h : Divisor w0 n)
    (hw : Window w0 v n k W V) (hqB : q ≤ digitBase) (hle : V / W ≤ q) (hge : q ≤ V / W + 1) :
    let s := forUpTo (mulSubRound w0 k q) 0 n (v, 0)
    let U := positional digitBase (wordsFrom k s.1) n
    MulSubInv w0 v s.1 k q n s.2 ∧
      ((i32 (v (k + n)) + s.2 = 0 ∧ q = V / W ∧ U = V % W) ∨
        (i32 (v (k + n)) + s.2 = -1 ∧ q = V / W + 1 ∧ U + W = digitBase ^ n + V % W)) := by
  have hn := h.two_le
  have lead := hw.leadingDigits h
  have hsub := mulSub_spec hqB h.digit_lt (fun i hi => hw.digit_lt i (by omega))
  dsimp only at hsub ⊢
  generalize forUpTo (mulSubRound w0 k q) 0 n (v, 0) = s at hsub
  have hWlt : W < digitBase ^ n := hw.divisor ▸ positional_lt h.digit_lt
  have hUlt : positional digitBase (wordsFrom k s.1) n < digitBase ^ n :=
    positional_lt (fun i hi => hsub.digit_lt i hi)
  have hsum := hsub.sum
  have hval : (V : Int) = positional digitBase (wordsFrom k v) n +
      (v (k + n) : Int) * (digitBase : Int) ^ n := by
    rw [← hw.value, positional_cast_succ]
    rfl
  rw [hw.divisor] at hsum
  rw [digit_i32 (hw.digit_lt n (le_refl n))]
  have hsign := sign_digit_cases (q := q) (U := positional digitBase (wordsFrom k s.1) n)
    (t := (v (k + n) : Int) + s.2) (M := digitBase ^ n) hWlt (Int.natCast_nonneg _)
    (Int.ofNat_lt.mpr hUlt) hle hge lead.divisor_pos (by rw [hval]; push_cast; linarith)
  refine ⟨hsub, hsign.imp ?_ ?_⟩
  · rintro ⟨ht, hq, hU⟩
    exact ⟨ht, hq, Int.ofNat_inj.mp hU⟩
  · rintro ⟨ht, hq, hU⟩
    exact ⟨ht, hq, by exact_mod_cast hU⟩

theorem subtractDigit_spec {w0 v : Nat → Nat} {n k W V q : Nat} (h : Divisor w0 n)
    (hw : Window w0 v n k W V) (hQ : V / W < digitBase) (hqB : q ≤ digitBase)
    (hle : V / W ≤ q) (hge : q ≤ V / W + 1) :
    ∃ v', subtractDigit w0 n k q v = some (v', V / W) ∧ (∀ i < n, v' (k + i) < digitBase) ∧
      positional digitBase (wordsFrom k v') n = V % W ∧ ∀ j < k, v' j = v j := by
  obtain ⟨hsub, hsign⟩ := hw.subtract h hqB hle hge
  generalize hs : forUpTo (mulSubRound w0 k q) 0 n (v, 0) = s at hsub hsign
  rcases hsign with ⟨ht, hqV, hU⟩ | ⟨ht, hqV, hU⟩
  · refine ⟨s.1, ?_, fun i hi => hsub.digit_lt i hi, hU,
      fun j hj => hsub.untouched j (Or.inl hj)⟩
    have hqlt : q < digitBase := hqV ▸ hQ
    have hneg : ¬i32 (v (k + n)) + s.2 < 0 := by rw [ht]; decide
    simp only [subtractDigit, hs, fklAssert_eq_some (Or.inr ht), if_neg hneg,
      fklAssert_eq_some hqlt, Option.bind_eq_bind, Option.bind_some, ← hqV]
  · have hback := addBack_spec (k := k) h.digit_lt (fun i hi => hsub.digit_lt i hi)
    generalize hb : forUpTo (addBackRound w0 k) 0 n (s.1, 0) = t at hback
    obtain ⟨hadd, hlow⟩ := hback
    have hq1 : u32 ((q : Int) - 1) = V / W := by
      rw [show (q : Int) - 1 = (V / W : Nat) by rw [hqV]; push_cast; ring]
      exact toUnsigned_natCast (hQ.trans (by decide))
    refine ⟨t.1, ?_, fun i hi => hadd.digit_lt i hi, ?_, fun j hj => ?_⟩
    · have hneg : i32 (v (k + n)) + s.2 < 0 := by rw [ht]; decide
      simp only [subtractDigit, hs, fklAssert_eq_some (Or.inl ht), if_pos hneg, hb, hq1,
        fklAssert_eq_some hQ, Option.bind_eq_bind, Option.bind_some]
    · -- the carry out of the top is the one digit that the subtraction was short of
      have hsum := hadd.sum
      have hcarry := hadd.carry_le
      have hmod := Nat.mod_lt V (hw.leadingDigits h).divisor_pos
      have hlt := positional_lt hadd.digit_lt
      have hWlt : W < digitBase ^ n := hw.divisor ▸ positional_lt h.digit_lt
      rw [hw.divisor, hU] at hsum
      rcases Nat.le_one_iff_eq_zero_or_eq_one.mp hcarry with hc | hc
      · rw [hc] at hsum
        omega
      · rw [hc] at hsum
        omega
    · rw [hlow j hj]
      exact hsub.untouched j (Or.inl hj)

/-- One turn of the quotient loop divides the window at `k`. -/
theorem divStep_spec {w0 v : Nat → Nat} {n k W V : Nat} (h : Divisor w0 n)
    (hw : Window w0 v n k W V) :
    ∃ v', divStep w0 n k v = some (v', V / W) ∧ V / W < digitBase ∧
      (∀ i < n, v' (k + i) < digitBase) ∧ positional digitBase (wordsFrom k v') n = V % W ∧
      ∀ j < k, v' j = v j := by
  have hQ : V / W < digitBase := by
    rw [Nat.div_lt_iff_lt_mul (hw.leadingDigits h).divisor_pos, Nat.mul_comm]
    exact hw.lt
  obtain ⟨q, hest, hqB, hqle, hqge⟩ := quotientDigit_spec h hw hQ
  obtain ⟨v', hsub, hrest⟩ := subtractDigit_spec h hw hQ hqB hqle hqge
  exact ⟨v', bind_eq_of_eq hest hsub, hQ, hrest⟩

/-- The whole quotient loop: what is left below `n` is the remainder. -/
theorem divLoop_spec {w0 : Nat → Nat} {n W : Nat} (h : Divisor w0 n)
    (hW : positional digitBase w0 n = W) (k : Nat) (v a : Nat → Nat)
    (hv : ∀ i < k + n, v i < digitBase) (hlt : positional digitBase (wordsFrom k v) n < W) :
    ∃ v' a', divLoop w0 n k (v, a) = some (v', a') ∧ (∀ i < n, v' i < digitBase) ∧
      positional digitBase v' n < W ∧ (∀ i < k, a' i < digitBase) ∧ (∀ i, k ≤ i → a' i = a i) ∧
      positional digitBase v (k + n) =
        positional digitBase v' n + W * positional digitBase a' k := by
  induction k generalizing v a with
  | zero =>
    rw [wordsFrom_zero] at hlt
    exact ⟨v, a, rfl, fun i hi => hv i (by omega), hlt, by omega, fun _ _ => rfl, by simp⟩
  | succ k ih =>
    have hcons := positional_wordsFrom_succ digitBase k n v
    have hw : Window w0 v n k W (positional digitBase (wordsFrom k v) (n + 1)) := {
      digit_lt := fun i hi => hv _ (by omega)
      divisor := hW
      value := rfl
      lt := by
        have hvk := hv k (by omega)
        have hmul : digitBase * positional digitBase (wordsFrom (k + 1) v) n + digitBase ≤
            digitBase * W := by
          rw [← Nat.mul_succ]
          exact Nat.mul_le_mul_left _ hlt
        rw [hcons, Nat.mul_comm W]
        omega }
    obtain ⟨v1, hstep, hQ, hdig, hrest, hlow⟩ := divStep_spec h hw
    generalize hVdef : positional digitBase (wordsFrom k v) (n + 1) = V at hstep hQ hrest
    have hWpos : 0 < W := Nat.zero_lt_of_lt hlt
    obtain ⟨v', a', hloop, hd, hr, ha, hkeep, hsum⟩ := ih v1 (Function.update a k (V / W))
      (fun i hi => by
        by_cases hik : i < k
        · rw [hlow i hik]
          exact hv i (by omega)
        · rw [show i = k + (i - k) by omega]
          exact hdig _ (by omega))
      (by rw [hrest]; exact Nat.mod_lt _ hWpos)
    have hak : a' k = V / W := by rw [hkeep k (le_refl k), Function.update_self]
    refine ⟨v', a', ?_, hd, hr, fun i hi => ?_, fun i hi => ?_, ?_⟩
    · exact bind_eq_of_eq hstep hloop
    · rcases Nat.lt_succ_iff_lt_or_eq.mp hi with hi | rfl
      · exact ha i hi
      · rw [hak]
        exact hQ
    · rw [hkeep i (by omega), Function.update_of_ne (by omega)]
    · have hsplit := positional_add digitBase v k (n + 1)
      have hsplit1 := positional_add digitBase v1 k n
      rw [positional_congr hlow] at hsplit1
      rw [hVdef] at hsplit
      rw [hrest] at hsplit1
      rw [show k + 1 + n = k + (n + 1) by omega, hsplit, positional_succ, hak]
      calc positional digitBase v k + digitBase ^ k * V
          = positional digitBase v k + digitBase ^ k * (V % W + W * (V / W)) := by
            rw [Nat.mod_add_div]
        _ = positional digitBase v1 (k + n) + W * (V / W) * digitBase ^ k := by
            rw [hsplit1]
            ring
        _ = _ := by
            rw [hsum]
            ring

/-! The whole of `x_divrem`. -/

theorem vLshift_exact {w1 w : Nat → Nat} {n d : Nat} (hn : n ≠ 0) (hd : d < digitShift)
    (hw : ∀ i < n, w1 i < digitBase) (htop : 2 ^ d * w1 (n - 1) < digitBase) :
    ∃ w0, vLshift (fun _ => w1) w n d = some (w0, 0) ∧ (∀ i < n, w0 i < digitBase) ∧
      positional digitBase w0 n = 2 ^ d * positional digitBase w1 n := by
  obtain ⟨⟨w0, c⟩, he, hs⟩ := vLshift_spec (z := w) (fun _ => w1) hd hw
    (fun _ _ _ => rfl)
  have hsum := hs.sum
  dsimp only at hsum
  -- the top word has room for all `d` bits
  have hlt : 2 ^ d * positional digitBase w1 n < digitBase ^ n := by
    obtain ⟨l, rfl⟩ : ∃ l, n = l + 1 := ⟨n - 1, by omega⟩
    rw [Nat.add_sub_cancel] at htop
    have hlow := positional_lt (n := l) (fun i hi => hw i (by omega))
    have hle : 2 ^ d * (w1 l + 1) ≤ digitBase := by
      obtain ⟨e, he'⟩ : 2 ^ d ∣ digitBase :=
        ⟨2 ^ (digitShift - d), by rw [← pow_add, Nat.add_sub_cancel' hd.le]; rfl⟩
      rw [he'] at htop ⊢
      exact Nat.mul_le_mul_left _ (Nat.lt_of_mul_lt_mul_left htop)
    calc 2 ^ d * positional digitBase w1 (l + 1)
        < 2 ^ d * ((w1 l + 1) * digitBase ^ l) := by
          apply Nat.mul_lt_mul_of_pos_left _ (Nat.two_pow_pos d)
          rw [positional_succ, Nat.add_mul]
          omega
      _ = 2 ^ d * (w1 l + 1) * digitBase ^ l := by ring
      _ ≤ digitBase * digitBase ^ l := Nat.mul_le_mul_right _ hle
      _ = digitBase ^ (l + 1) := by rw [pow_succ']
  have hc : c = 0 := by
    by_contra hc
    have hone : 1 * digitBase ^ n ≤ c * digitBase ^ n :=
      Nat.mul_le_mul_right _ (Nat.pos_of_ne_zero hc)
    omega
  subst hc
  exact ⟨w0, he, hs.digit_lt, by simpa using hsum⟩

/-- A window whose top word is below that of the divisor is below the divisor. -/
theorem positional_lt_of_top_lt {v w0 : Nat → Nat} {n : Nat} (hn : n ≠ 0)
    (hv : ∀ i < n, v i < digitBase) (htop : v (n - 1) < w0 (n - 1)) :
    positional digitBase v n < positional digitBase w0 n :=
  positional_lt_of_first_diff (i := n - 1) (by omega) (fun j hj => hv j (by omega)) htop
    (fun j hj hj' => by omega)

/-- What the shift by `d` prepares for the quotient loop: `l` words of dividend. -/
structure Prepared (v1 w1 v0 w0 : Nat → Nat) (sizeV n d l : Nat) : Prop where
  divisor : Divisor w0 n
  divisor_value : positional digitBase w0 n = 2 ^ d * positional digitBase w1 n
  le : n ≤ l
  len_le : l ≤ sizeV + 1
  digit_lt : ∀ i < l, v0 i < digitBase
  value : positional digitBase v0 l = 2 ^ d * positional digitBase v1 sizeV
  window_lt : positional digitBase (wordsFrom (l - n) v0) n < positional digitBase w0 n

theorem shiftOperands_spec {v1 w1 w : Nat → Nat} {sizeV n : Nat} (hn : 2 ≤ n)
    (hle : n ≤ sizeV) (hv : ∀ i < sizeV, v1 i < digitBase) (hw : ∀ i < n, w1 i < digitBase)
    (htop : w1 (n - 1) ≠ 0) :
    let d := digitShift - bitLengthDigit (w1 (n - 1))
    d < digitShift ∧ ∃ v0 l w0, shiftOperands v1 w1 w sizeV n d = some ((v0, l), w0) ∧
      Prepared v1 w1 v0 w0 sizeV n d l := by
  obtain ⟨hd, hfull, hfit⟩ := bitLengthDigit_spec htop (hw (n - 1) (by omega))
  dsimp only
  generalize digitShift - bitLengthDigit (w1 (n - 1)) = d at hd hfull hfit
  refine ⟨hd, ?_⟩
  obtain ⟨w0, hwe, hw0, hwsum⟩ := vLshift_exact (w := w) (by omega) hd hw hfit
  obtain ⟨⟨v0, c⟩, hve, hs⟩ := vLshift_spec (z := v1) id hd hv
    (fun s i hs => hs i (le_refl i))
  have hsum := hs.sum
  have hc := hs.carry_lt
  dsimp only at hsum hc
  have hnorm : digitBase ≤ 2 * w0 (n - 1) := by
    obtain ⟨l, rfl⟩ : ∃ l, n = l + 1 := ⟨n - 1, by omega⟩
    rw [Nat.add_sub_cancel] at hfull ⊢
    have hlow := positional_lt (n := l) (fun i hi => hw0 i (by omega))
    rw [positional_succ, positional_succ] at hwsum
    have hlt : 2 ^ d * w1 l * digitBase ^ l < (w0 l + 1) * digitBase ^ l := by
      calc 2 ^ d * w1 l * digitBase ^ l
          ≤ 2 ^ d * (positional digitBase w1 l + w1 l * digitBase ^ l) := by
            rw [Nat.mul_add, Nat.mul_assoc]
            exact Nat.le_add_left _ _
        _ < _ := by
            rw [← hwsum, Nat.add_mul]
            omega
    have := Nat.lt_of_mul_lt_mul_right hlt
    omega
  have hdiv : Divisor w0 n := ⟨hn, hw0, hnorm⟩
  have hd29 : 2 ^ d ≤ 2 ^ 29 := Nat.pow_le_pow_right (by decide) (by unfold digitShift at hd; omega)
  have hctop : c < w0 (n - 1) := by
    rw [digitBase_eq] at hnorm
    omega
  have hshift : shiftOperands v1 w1 w sizeV n d = some (if c ≠ 0 ∨ w0 (n - 1) ≤ v0 (sizeV - 1) then
      (Function.update v0 sizeV c, sizeV + 1) else (v0, sizeV), w0) :=
    bind_eq_of_eq hwe (bind_eq_of_eq (fklAssert_eq_some rfl) (bind_eq_of_eq hve rfl))
  rw [hshift]
  by_cases hcond : c ≠ 0 ∨ w0 (n - 1) ≤ v0 (sizeV - 1)
  · rw [if_pos hcond]
    have hdig : ∀ i < sizeV + 1, Function.update v0 sizeV c i < digitBase :=
      digits_update hs.digit_lt (by rw [digitBase_eq]; omega)
    refine ⟨_, _, _, rfl, hdiv, hwsum, by omega, le_refl _, hdig, ?_, ?_⟩
    · rw [positional_update_succ, hsum]
    · apply positional_lt_of_top_lt (by omega) (fun i hi => hdig _ (by omega))
      rw [show sizeV + 1 - n + (n - 1) = sizeV by omega, Function.update_self]
      exact hctop
  · rw [if_neg hcond]
    obtain ⟨hc0, htop0⟩ := not_or.mp hcond
    refine ⟨_, _, _, rfl, hdiv, hwsum, hle, Nat.le_succ _, hs.digit_lt, ?_, ?_⟩
    · rw [not_not.mp hc0] at hsum
      simpa using hsum
    · apply positional_lt_of_top_lt (by omega) (fun i hi => hs.digit_lt _ (by omega))
      dsimp only
      rw [show sizeV - n + (n - 1) = sizeV - 1 by omega]
      exact not_le.mp htop0

/-- A nonnegative normalized number. -/
structure IsNat (x : FklBigInt) (v : Nat) : Prop where
  nonneg : 0 ≤ x.num
  normalized : x.Normalized
  mag : x.mag = v

theorem normalize_isNat {x : FklBigInt} {n : Nat} (hn : x.num = n)
    (hlt : ∀ i < n, x.digits i < digitBase) (hsize : n ≤ x.size) :
    IsNat (bigintNormalize x) (positional digitBase x.digits n) ∧
      (bigintNormalize x).num.natAbs ≤ n where
  left := by
    have hnat : x.num.natAbs = n := by omega
    refine ⟨bigintNormalize_nonneg (by omega), (normalize_written hnat hlt hsize).1, ?_⟩
    rw [bigintNormalize_mag, FklBigInt.mag, hnat]
  right := by
    rw [bigintNormalize_natAbs, show x.num.natAbs = n by omega]
    exact normalizeLen_le _ _

theorem divremDigits_spec {v1 w1 : Nat → Nat} {sizeV n : Nat} (hn : 2 ≤ n)
    (hle : n ≤ sizeV) (hv : ∀ i < sizeV, v1 i < digitBase) (hw : ∀ i < n, w1 i < digitBase)
    (htop : w1 (n - 1) ≠ 0) :
    let A := positional digitBase v1 sizeV
    let W := positional digitBase w1 n
    ∃ v0 w a, divremDigits v1 w1 sizeV n = some (v0, w, a) ∧
      IsNat (bigintNormalize w) (A % W) ∧ (bigintNormalize w).num.natAbs ≤ n ∧
      IsNat (bigintNormalize a) (A / W) ∧ (bigintNormalize a).num.natAbs ≤ sizeV := by
  intro A W
  obtain ⟨hd, v0, l, w0, hshift, hp⟩ := shiftOperands_spec (w := bigInt0.digits) hn hle hv hw htop
  generalize hdef : digitShift - bitLengthDigit (w1 (n - 1)) = d at hd hshift hp
  have hle := hp.le
  have hsplit : l - n + n = l := Nat.sub_add_cancel hle
  obtain ⟨v', a', hloop, hv', hr, ha', _, hsum⟩ := divLoop_spec hp.divisor rfl (l - n) v0
    bigInt0.digits (fun i hi => hp.digit_lt i (by omega)) hp.window_lt
  obtain ⟨⟨wd, c⟩, hshr, hwd, hrem, hc⟩ := vRshift_spec (z := w0) hd hv'
  dsimp only at hwd hrem hc
  rw [hsplit, hp.value, hp.divisor_value] at hsum
  rw [hp.divisor_value] at hr
  -- both the rest and the divisor carry the factor of the shift
  have hpow : 0 < 2 ^ d := Nat.two_pow_pos d
  obtain ⟨R, hR⟩ : 2 ^ d ∣ positional digitBase v' n := by
    rw [Nat.mul_assoc] at hsum
    exact (Nat.dvd_add_left (Nat.dvd_mul_right _ _)).mp (hsum ▸ Nat.dvd_mul_right _ _)
  rw [hR] at hsum hr hrem hc
  have hRW : R < W := Nat.lt_of_mul_lt_mul_left hr
  have hA : A = R + W * positional digitBase a' (l - n) := by
    apply Nat.eq_of_mul_eq_mul_left hpow
    rw [hsum]
    ring
  have hmod : A % W = R := by
    rw [hA, Nat.add_mul_mod_self_left, Nat.mod_eq_of_lt hRW]
  have hquot : A / W = positional digitBase a' (l - n) := by
    rw [hA, Nat.add_mul_div_left _ _ (Nat.zero_lt_of_lt hRW), Nat.div_eq_of_lt hRW, Nat.zero_add]
  rw [Nat.mul_mod_right] at hc
  rw [Nat.mul_div_cancel_left R hpow] at hrem
  subst hc
  obtain ⟨sw, hsw, hswn, _⟩ := ensureBigintSize_spec (x := bigInt0) (n := n) (Or.inl rfl)
  obtain ⟨sa, hsa, hsan, _⟩ := ensureBigintSize_spec (x := bigInt0) (n := l - n) (Or.inl rfl)
  have hrun : divremDigits v1 w1 sizeV n = some (v',
      { digits := wd, num := n, size := sw, constSize := false },
      { digits := a', num := (l : Int) - n, size := sa, constSize := false }) := by
    refine bind_eq_of_eq hsw ?_
    dsimp only
    rw [hdef]
    exact bind_eq_of_eq hshift (bind_eq_of_eq (fklAssert_eq_some hle) (bind_eq_of_eq hsa
      (bind_eq_of_eq hloop (bind_eq_of_eq hshr (bind_eq_of_eq (fklAssert_eq_some rfl) rfl)))))
  obtain ⟨hw1, hw2⟩ := normalize_isNat (x := { digits := wd, num := n, size := sw, constSize := false })
    rfl hwd hswn
  obtain ⟨ha1, ha2⟩ := normalize_isNat (n := l - n)
    (x := { digits := a', num := (l : Int) - n, size := sa, constSize := false })
    (by dsimp only; omega) ha' hsan
  refine ⟨_, _, _, hrun, ?_, hw2, ?_, ha2.trans ?_⟩
  · rwa [hmod, ← hrem]
  · rwa [hquot]
  · have hlen := hp.len_le
    omega

/-! What the operation leaves in the memory. -/

theorem assignRem_spec {m : BigIntMem ρ} {rem : Option ρ} (P : FklBigInt → Prop)
    (set : FklBigInt → Option FklBigInt)
    (h : ∀ x, rem = some x → ∃ y, set (m x) = some y ∧ P y) :
    ∃ m', assignRem m rem set = some m' ∧ (∀ x, rem = some x → P (m' x)) ∧
      ∀ x, rem ≠ some x → m' x = m x := by
  cases rem with
  | none => exact ⟨m, rfl, by simp, fun _ _ => rfl⟩
  | some r =>
    obtain ⟨y, hy, hP⟩ := h r rfl
    refine ⟨Function.update m r y, bind_eq_of_eq hy rfl, fun x hx => ?_, fun x hx => ?_⟩
    · obtain rfl := Option.some.inj hx
      rwa [Function.update_self]
    · exact Function.update_of_ne (fun h => hx (by rw [h])) _ _

/-- Before the signs are set: the quotient may still carry the sign word of the dividend. -/
structure DivRemMag (m m' : BigIntMem ρ) (a : ρ) (rem : Option ρ) (q r : Nat) : Prop where
  quotient : rem ≠ some a → (m' a).Wf ∧ (m' a).mag = q
  remainder : ∀ x, rem = some x → IsNat (m' x) r
  frame : ∀ x, x ≠ a → rem ≠ some x → m' x = m x

/-- `m` becomes `m'` by leaving `q` in `a`, unless that is the remainder object, and `r`
in the remainder object. -/
structure DivRemLeaves (m m' : BigIntMem ρ) (a : ρ) (rem : Option ρ) (q r : Int) : Prop where
  quotient : rem ≠ some a → (m' a).value = q ∧ (m' a).Normalized
  remainder : ∀ x, rem = some x → (m' x).value = r ∧ (m' x).Normalized
  frame : ∀ x, x ≠ a → rem ≠ some x → m' x = m x

theorem IsNat.value {x : FklBigInt} {v : Nat} (h : IsNat x v) : x.value = v := by
  rw [FklBigInt.value_of_nonneg h.nonneg, h.mag]

theorem IsNat.of_set {dst src r : FklBigInt} {v : Nat} (h : IsNat src v)
    (hr : Assigned dst r src.value) (hnum : r.num = src.num) : IsNat r v where
  nonneg := hnum ▸ h.nonneg
  normalized := hr.normalized
  mag := by rw [← r.value_natAbs, hr.value, h.value, Int.natAbs_natCast]

theorem FklBigInt.Normalized.is0_iff {x : FklBigInt} (h : x.Normalized) :
    x.is0 = true ↔ x.mag = 0 := by
  rw [h.mag_eq_zero]
  simp only [FklBigInt.is0, decide_eq_true_eq, fklAbs_eq]
  constructor
  · rintro (h0 | ⟨h1, h0⟩)
    · exact h0
    · by_contra hne
      have htop := h.top_ne hne
      rw [show x.num.natAbs - 1 = 0 by omega] at htop
      exact htop h0
  · exact Or.inl

theorem xDivrem_spec {m : BigIntMem ρ} {a b : ρ} {rem : Option ρ} (ha : (m a).Normalized)
    (hb : (m b).Normalized) (hle : (m b).num.natAbs ≤ (m a).num.natAbs)
    (hb2 : 2 ≤ (m b).num.natAbs) (hca : (m a).CanHold ((m a).num.natAbs + 1))
    (hcr : ∀ r, rem = some r → r ≠ a → (m r).CanHold (m b).num.natAbs) :
    ∃ m', xDivrem m a b rem = some m' ∧
      DivRemMag m m' a rem ((m a).mag / (m b).mag) ((m a).mag % (m b).mag) := by
  obtain ⟨size, he, hsize, _⟩ := ensureBigintSize_spec hca
  obtain ⟨v0, w, qa, hdig, hw, hwn, hq, hqn⟩ := divremDigits_spec hb2 hle ha.digit_lt hb.digit_lt
    (hb.top_ne (by omega))
  set m1 := Function.update m a
    { m a with num := (m a).num.natAbs + 1, size := size, digits := v0 } with hm1
  have hm1a : (m1 a).size = size := by rw [hm1, Function.update_self]
  obtain ⟨m2, hset, hrem, hframe⟩ := assignRem_spec (m := m1)
    (fun y => IsNat y ((m a).mag % (m b).mag)) (fun y => fklSetBigInt y (bigintNormalize w))
    (fun x (hx : rem = some x) => by
      have hhold : (m1 x).CanHold (bigintNormalize w).num.natAbs := by
        by_cases hxa : x = a
        · exact Or.inr (by rw [hxa, hm1a]; omega)
        · rw [hm1, Function.update_of_ne hxa]
          exact (hcr x hx hxa).mono hwn
      obtain ⟨y, hy, hassign, hnum, _⟩ := fklSetBigInt_spec hw.normalized hhold
      exact ⟨y, hy, hw.of_set hassign hnum⟩)
  by_cases hra : rem = some a
  · refine ⟨m2, ?_, fun h => absurd hra h, hrem, fun x hxa hx => ?_⟩
    · simp only [xDivrem, fklAbs_toNat]
      exact bind_eq_of_eq (fklAssert_eq_some ⟨hle, hb2⟩) (bind_eq_of_eq he
        (bind_eq_of_eq hdig (bind_eq_of_eq hset (if_pos hra))))
    · rw [hframe x hx, hm1, Function.update_of_ne hxa]
  · have hhold : (m2 a).CanHold (bigintNormalize qa).num.natAbs :=
      Or.inr (by rw [hframe a hra, hm1a]; omega)
    obtain ⟨y, hy, hassign, hnum, _⟩ := fklSetBigInt_spec hq.normalized hhold
    have hnat := hq.of_set hassign hnum
    refine ⟨Function.update m2 a y, ?_, fun _ => ?_, fun x hx => ?_, fun x hxa hx => ?_⟩
    · simp only [xDivrem, fklAbs_toNat]
      exact bind_eq_of_eq (fklAssert_eq_some ⟨hle, hb2⟩) (bind_eq_of_eq he
        (bind_eq_of_eq hdig (bind_eq_of_eq hset ((if_neg hra).trans (bind_eq_of_eq hy rfl)))))
    · rw [Function.update_self]
      exact ⟨hnat.normalized.toWf, hnat.mag⟩
    · rw [Function.update_of_ne (fun h => hra (by rw [hx, h]))]
      exact hrem x hx
    · rw [Function.update_of_ne hxa, hframe x hx, hm1, Function.update_of_ne hxa]

theorem divrem1_leaves {m : BigIntMem ρ} {a b : ρ} {rem : Option ρ} (ha : (m a).Normalized)
    (hb : (m b).Normalized) (ha1 : (m a).num ≠ 0) (hb1 : (m b).num.natAbs = 1)
    (hcr : ∀ r, rem = some r → r ≠ a → (m r).CanHold (m b).num.natAbs) :
    ∃ pin rem1 m', divrem1 (m a).digits (m a).num.natAbs ((m b).digits 0) = some (pin, rem1) ∧
      assignRem (Function.update m a { m a with digits := pin }) rem
        (fun y => fklSetBigIntI y rem1) = some m' ∧
      DivRemMag m m' a rem ((m a).mag / (m b).mag) ((m a).mag % (m b).mag) := by
  have hb0 : (m b).digits 0 ≠ 0 := by
    have htop := hb.top_ne (by omega)
    rwa [hb1] at htop
  have hbmag : (m b).mag = (m b).digits 0 := by simp [FklBigInt.mag, hb1]
  have hblt := hb.digit_lt 0 (by omega)
  obtain ⟨⟨pin, rem1⟩, hdiv, hdig, hquot, hrest⟩ := divrem1_spec (by omega)
    (Nat.pos_of_ne_zero hb0) hblt ha.digit_lt
  dsimp only at hdig hquot hrest
  rw [← hbmag] at hquot hrest
  change _ = (m a).mag / _ at hquot
  change _ = (m a).mag % _ at hrest
  have hrlt : rem1 < digitBase := by
    rw [hrest]
    exact (Nat.mod_lt _ (by omega)).trans (hbmag ▸ hblt)
  have hr64 : rem1 < 2 ^ 64 := hrlt.trans (by decide)
  have hcount : countDigitsSize (rem1 : Int).natAbs ≤ 1 := by
    rw [Int.natAbs_natCast]
    exact countDigitsSize_le hr64 (by rwa [pow_one])
  set m1 := Function.update m a { m a with digits := pin } with hm1
  obtain ⟨m', hset, hrem, hframe⟩ := assignRem_spec (m := m1)
    (fun y => IsNat y ((m a).mag % (m b).mag)) (fun y => fklSetBigIntI y rem1)
    (fun x (hx : rem = some x) => by
      have hhold : (m1 x).CanHold 1 := by
        by_cases hxa : x = a
        · have hnum := ha.num_le
          exact Or.inr (by rw [hxa, hm1, Function.update_self]; dsimp only; omega)
        · rw [hm1, Function.update_of_ne hxa, ← hb1]
          exact hcr x hx hxa
      obtain ⟨y, hy, hassign⟩ := fklSetBigIntI_spec (v := rem1)
        (by rwa [Int.natAbs_natCast]) (hhold.mono hcount)
      have hmag : y.mag = rem1 := by rw [← y.value_natAbs, hassign.value, Int.natAbs_natCast]
      refine ⟨y, hy, ?_, hassign.normalized, hmag.trans hrest⟩
      by_contra hneg
      have hval := hassign.value
      rw [FklBigInt.value_of_neg (by omega)] at hval
      have := (hassign.normalized.mag_eq_zero).mp (by omega)
      omega)
  refine ⟨pin, rem1, m', hdiv, hset, fun hra => ?_, hrem, fun x hxa hx => ?_⟩
  · rw [hframe a hra, hm1, Function.update_self]
    exact ⟨⟨hdig, ha.num_le⟩, hquot⟩
  · rw [hframe x hx, hm1, Function.update_of_ne hxa]

/-- The quotient with the sign word its operands ask for. -/
def withSigns (x : FklBigInt) (negA negB : Bool) : FklBigInt :=
  if (negA ≠ negB ∧ 0 < x.num) ∨ (negA = negB ∧ x.num < 0) then { x with num := -x.num } else x

theorem withSigns_spec {x : FklBigInt} {q : Nat} (negA negB : Bool) (hx : x.Wf)
    (hmag : x.mag = q) :
    (withSigns x negA negB).Wf ∧
      (withSigns x negA negB).value = if negA = negB then (q : Int) else -q := by
  have hneg : ({ x with num := -x.num } : FklBigInt).Wf :=
    ⟨by simpa using hx.digit_lt, by simpa using hx.num_le⟩
  unfold withSigns
  constructor
  · split
    · exact hneg
    · exact hx
  · rcases lt_trichotomy x.num 0 with h | h | h
    · have hval := FklBigInt.value_of_neg h
      rw [hmag] at hval
      by_cases hs : negA = negB
      · rw [if_pos (Or.inr ⟨hs, h⟩), FklBigInt.value_neg, hval, if_pos hs, neg_neg]
      · rw [if_neg (fun h' => h'.elim (fun h' => by omega) (fun h' => hs h'.1)), hval, if_neg hs]
    · have hq : q = 0 := hmag ▸ FklBigInt.mag_of_num_eq_zero h
      rw [if_neg (by omega), FklBigInt.value_of_nonneg (by omega), hmag, hq]
      simp
    · have hval := FklBigInt.value_of_nonneg (by omega : 0 ≤ x.num)
      rw [hmag] at hval
      by_cases hs : negA = negB
      · rw [if_neg (fun h' => h'.elim (fun h' => h'.1 hs) (fun h' => by omega)), hval, if_pos hs]
      · rw [if_pos (Or.inl ⟨hs, h⟩), FklBigInt.value_neg, hval, if_neg hs]

/-- The remainder with the sign of the dividend. -/
theorem remSign_spec {m : BigIntMem ρ} {x : ρ} {r : Nat} (negA : Bool) (h : IsNat (m x) r) :
    let m1 := if negA ∧ ¬(m x).is0 then negNum m x else m
    (m1 x).value = (if negA then -(r : Int) else r) ∧ (m1 x).Normalized := by
  cases negA with
  | false => exact ⟨by simpa using h.value, by simpa using h.normalized⟩
  | true =>
    by_cases h0 : (m x).is0 = true
    · have hr0 : r = 0 := h.mag ▸ h.normalized.is0_iff.mp h0
      exact ⟨by simpa [h0, hr0] using h.value, by simpa [h0] using h.normalized⟩
    · exact ⟨by simp [h0, negNum, FklBigInt.value_neg, h.value],
        by simpa [h0, negNum] using h.normalized.neg⟩

/-- Setting the signs. -/
theorem divRemSigns_spec {m m' : BigIntMem ρ} {a : ρ} {rem : Option ρ} {q r : Nat}
    {negA negB : Bool} (h : DivRemMag m m' a rem q r) :
    DivRemLeaves m (divRemSigns m' a rem negA negB) a rem
      (if negA = negB then (q : Int) else -q) (if negA then -(r : Int) else r) := by
  -- first the remainder
  obtain ⟨m1, hm1, hrem, hframe⟩ : ∃ m1, m1 = (match rem with
      | none => m'
      | some r => if negA ∧ ¬(m' r).is0 then negNum m' r else m') ∧
      (∀ x, rem = some x → (m1 x).value = (if negA then -(r : Int) else r) ∧
        (m1 x).Normalized) ∧ ∀ x, rem ≠ some x → m1 x = m' x := by
    refine ⟨_, rfl, fun x hx => ?_, fun x hx => ?_⟩
    · subst hx
      exact remSign_spec negA (h.remainder x rfl)
    · cases rem with
      | none => rfl
      | some y =>
        dsimp only
        split
        · exact Function.update_of_ne (fun h => hx (by rw [h])) _ _
        · rfl
  unfold divRemSigns
  dsimp only
  rw [← hm1]
  by_cases hra : rem = some a
  · rw [if_pos hra]
    exact ⟨fun h => absurd hra h, hrem, fun x hxa hx => by rw [hframe x hx, h.frame x hxa hx]⟩
  · rw [if_neg hra]
    -- then the quotient
    obtain ⟨hwf, hmag⟩ := h.quotient hra
    rw [← hframe a hra] at hwf hmag
    obtain ⟨hzwf, hzval⟩ := withSigns_spec negA negB hwf hmag
    have hm2 : (if (negA ≠ negB ∧ 0 < (m1 a).num) ∨ (negA = negB ∧ (m1 a).num < 0)
        then negNum m1 a else m1) = Function.update m1 a (withSigns (m1 a) negA negB) := by
      unfold withSigns
      split
      · rfl
      · exact (Function.update_eq_self a m1).symm
    rw [hm2, Function.update_self, Function.update_idem]
    refine ⟨fun _ => ?_, fun x hx => ?_, fun x hxa hx => ?_⟩
    · rw [Function.update_self, bigintNormalize_value]
      exact ⟨hzval, bigintNormalize_normalized hzwf⟩
    · rw [Function.update_of_ne (fun h => hra (by rw [hx, h]))]
      exact hrem x hx
    · rw [Function.update_of_ne hxa, hframe x hx, h.frame x hxa hx]

/-- Division with remainder of every pair of normalized numbers, whichever objects share. -/
theorem fklDivRemBigInt_leaves {m : BigIntMem ρ} {a b : ρ} {rem : Option ρ}
    (ha : (m a).Normalized) (hb : (m b).Normalized) (hb0 : (m b).value ≠ 0)
    (hca : (m a).CanHold ((m a).num.natAbs + 1))
    (hcr : ∀ r, rem = some r → r ≠ a → (m r).CanHold (m b).num.natAbs) :
    ∃ m', fklDivRemBigInt m a b rem = some (m', 0) ∧
      DivRemLeaves m m' a rem ((m a).value.tdiv (m b).value) ((m a).value.tmod (m b).value) := by
  have hbn : (m b).num ≠ 0 := fun h => hb0 (hb.value_eq_zero.mpr h)
  have hsign : ∀ x : FklBigInt, x.value = if x.num < 0 then -(x.mag : Int) else x.mag :=
    fun x => rfl
  -- truncated division in terms of the magnitudes
  have hdiv : (m a).value.tdiv (m b).value = if decide ((m a).num < 0) = decide ((m b).num < 0)
      then (((m a).mag / (m b).mag : Nat) : Int) else -((m a).mag / (m b).mag : Nat) := by
    rw [hsign, hsign]
    by_cases h1 : (m a).num < 0 <;> by_cases h2 : (m b).num < 0 <;>
      simp [h1, h2, Int.tdiv_eq_ediv_of_nonneg]
  have hmod : (m a).value.tmod (m b).value = if decide ((m a).num < 0)
      then -(((m a).mag % (m b).mag : Nat) : Int) else ((m a).mag % (m b).mag : Nat) := by
    rw [hsign, hsign]
    by_cases h1 : (m a).num < 0 <;> by_cases h2 : (m b).num < 0 <;>
      simp [h1, h2, Int.tmod_eq_emod_of_nonneg]
  by_cases hlt : (m a).num.natAbs < (m b).num.natAbs
  · have hmag := FklBigInt.mag_lt_of_num_lt ha.toWf hb hlt
    rw [Nat.div_eq_of_lt hmag] at hdiv
    rw [Nat.mod_eq_of_lt hmag] at hmod
    have hq0 : (m a).value.tdiv (m b).value = 0 := by rw [hdiv]; split <;> rfl
    have hr0 : (m a).value.tmod (m b).value = (m a).value := by
      rw [hmod, hsign]
      simp only [decide_eq_true_eq]
    rw [hq0, hr0]
    simp only [fklDivRemBigInt, fklAbs_toNat]
    rw [if_neg (by omega), if_pos hlt]
    by_cases hra : rem = some a
    · refine ⟨m, if_pos hra, fun h => absurd hra h, fun x hx => ?_, fun _ _ _ => rfl⟩
      obtain rfl := Option.some.inj (hra.symm.trans hx)
      exact ⟨rfl, ha⟩
    · obtain ⟨m2, hset, hrem, hframe⟩ := assignRem_spec (m := m)
        (fun y => y.value = (m a).value ∧ y.Normalized) (fun y => fklSetBigInt y (m a))
        (fun x (hx : rem = some x) => by
          have hxa : x ≠ a := fun h => hra (by rw [hx, h])
          obtain ⟨y, hy, hassign, _⟩ := fklSetBigInt_spec ha ((hcr x hx hxa).mono hlt.le)
          exact ⟨y, hy, hassign.value, hassign.normalized⟩)
      rw [if_neg hra]
      have hzero := num_zero_leaves (m := m2) (a := a) (x := m2 a) rfl
      refine ⟨_, bind_eq_of_eq hset rfl, fun _ => ⟨hzero.value, hzero.normalized⟩,
        fun x hx => ?_, fun x hxa hx => ?_⟩
      · rw [hzero.frame x (fun h => hra (by rw [hx, h]))]
        exact hrem x hx
      · rw [hzero.frame x hxa, hframe x hx]
  · rw [hdiv, hmod]
    by_cases hb1 : (m b).num.natAbs = 1
    · obtain ⟨pin, rem1, m', hdiv1, hset, hleft⟩ := divrem1_leaves ha hb (by omega) hb1 hcr
      refine ⟨_, ?_, divRemSigns_spec hleft⟩
      simp only [fklDivRemBigInt, fklAbs_toNat]
      rw [if_neg (by omega), if_neg hlt, if_pos hb1]
      exact bind_eq_of_eq hdiv1 (bind_eq_of_eq hset rfl)
    · obtain ⟨m', hx, hleft⟩ := xDivrem_spec ha hb (by omega) (by omega) hca hcr
      refine ⟨_, ?_, divRemSigns_spec hleft⟩
      simp only [fklDivRemBigInt, fklAbs_toNat]
      rw [if_neg (by omega), if_neg hlt, if_neg hb1]
      exact bind_eq_of_eq hx rfl

/-- What the two truncated operations are to each other. -/
theorem tdiv_tmod_truncated (x : Int) {y : Int} (hy : y ≠ 0) :
    x = x.tdiv y * y + x.tmod y ∧ |x.tmod y| < |y| ∧
      (x.tmod y ≠ 0 → (x.tmod y < 0 ↔ x < 0)) := by
  refine ⟨?_, ?_, fun hr => ?_⟩
  · rw [Int.mul_comm]
    exact (Int.mul_tdiv_add_tmod _ _).symm
  · rw [Int.abs_eq_natAbs, Int.abs_eq_natAbs, Int.natAbs_tmod]
    exact_mod_cast Nat.mod_lt _ (Int.natAbs_pos.mpr hy)
  · constructor
    · intro hneg
      by_contra hnot
      have := Int.tmod_nonneg y (not_lt.mp hnot)
      omega
    · intro hneg
      have hle := Int.tmod_nonneg y (show 0 ≤ -x by omega)
      rw [Int.neg_tmod] at hle
      omega

/-- Every assertion of the division holds, whatever objects are shared: it truncates, and a
zero divisor leaves the memory alone. -/
theorem fklDivRemBigInt_truncates (m : BigIntMem ρ) (a b : ρ) (rem : Option ρ)
    (ha : (m a).Normalized) (hb : (m b).Normalized) :
    ((m b).value ≠ 0 → (m a).CanHold ((m a).num.natAbs + 1) →
      (∀ r, rem = some r → r ≠ a → (m r).CanHold (m b).num.natAbs) →
      ∃ m' q r, fklDivRemBigInt m a b rem = some (m', 0) ∧ DivRemLeaves m m' a rem q r ∧
        (m a).value = q * (m b).value + r ∧ |r| < |(m b).value| ∧
        (r ≠ 0 → (r < 0 ↔ (m a).value < 0))) ∧
    ((m b).value = 0 → fklDivRemBigInt m a b rem = some (m, -1)) := by
  constructor
  · intro hb0 hca hcr
    obtain ⟨m', he, hl⟩ := fklDivRemBigInt_leaves ha hb hb0 hca hcr
    exact ⟨m', _, _, he, hl, tdiv_tmod_truncated _ hb0⟩
  · intro hb0
    have hbn := hb.value_eq_zero.mp hb0
    simp only [fklDivRemBigInt, fklAbs_toNat]
    rw [if_pos (by omega)]

/-- The remainder goes into the dividend's own object. -/
theorem sharedTop_truncates :
    ∃ m' q r, fklDivRemBigInt sharedTop false true (some false) = some (m', 0) ∧
      DivRemLeaves sharedTop m' false (some false) q r ∧
      (sharedTop false).value = q * (sharedTop true).value + r ∧
      |r| < |(sharedTop true).value| ∧ (r ≠ 0 → (r < 0 ↔ (sharedTop false).value < 0)) :=
  (fklDivRemBigInt_truncates sharedTop false true (some false) (sharedTop_normalized false)
    (sharedTop_normalized true)).1 (by decide) (Or.inl rfl) (fun r _ _ => Or.inl rfl)

end FakeLisp
