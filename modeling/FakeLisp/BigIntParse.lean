import FakeLisp.BigIntMul
import FakeLisp.BigIntPrint

/-! Parsing, and that it undoes printing. -/

namespace FakeLisp

/-- `set_bigint_i64_without_ensure` -/
def setBigintI64WithoutEnsure (dst : FklBigInt) (v : Int) : Option FklBigInt :=
  let uv := u64 (fklAbs v)
  let r : Option FklBigInt :=
    if uv ≠ 0 then do
      let c := countDigitsSize uv
      fklAssert (c ≤ dst.size)
      some { dst with num := c, digits := setUint64ToDigits dst.digits c uv }
    else some { dst with num := 0 }
  r.map fun x => if v < 0 then { x with num := -x.num } else x

/-- The local operand of `fklAddBigIntI` and `fklMulBigIntI`, three words on the stack. -/
def smallOperand : FklBigInt := { bigInt0 with size := 3, constSize := true }

/-- Run a binary operation of `b` and a machine integer. -/
def withSmall (op : BigIntMem Bool → Bool → Bool → Option (BigIntMem Bool)) (b : FklBigInt)
    (v : Int) : Option FklBigInt := do
  let bi ← setBigintI64WithoutEnsure smallOperand v
  let m ← op (fun r => if r then bi else b) false true
  some (m false)

def fklAddBigIntI : FklBigInt → Int → Option FklBigInt := withSmall fklAddBigInt

def fklMulBigIntI : FklBigInt → Int → Option FklBigInt := withSmall fklMulBigInt

/-- The table `DigitValue`. -/
def digitValue (c : Char) : Nat :=
  if 48 ≤ c.toNat ∧ c.toNat ≤ 57 then c.toNat - 48
  else if 65 ≤ c.toNat ∧ c.toNat ≤ 90 then c.toNat - 55
  else if 97 ≤ c.toNat ∧ c.toNat ≤ 122 then c.toNat - 87
  else 37

def fklIsDigit (c : Char) : Bool := u32 ((c.toNat : Int) - 48) < 10

def fklIsXDigit (c : Char) : Bool :=
  fklIsDigit c || u32 (((c.toNat ||| 32 : Nat) : Int) - 97) < 6

/-- The text after an optional sign. -/
def skipSign : List Char → List Char
  | '-' :: cs => cs
  | '+' :: cs => cs
  | cs => cs

def isNegText (buf : List Char) : Bool := buf.head? = some '-'

def fklIsHexInt (cstr : List Char) : Bool :=
  if cstr.length < 3 then false
  else if (skipSign cstr).length < 3 then false
  else match skipSign cstr with
    | '0' :: x :: cs => (x = 'x' || x = 'X') && cs.all fklIsXDigit
    | _ => false

def fklIsOctInt (cstr : List Char) : Bool :=
  if cstr.length < 2 then false
  else if (skipSign cstr).length < 2 then false
  else match skipSign cstr with
    | '0' :: cs => cs.all (fun c => '0' ≤ c && c ≤ '7')
    | _ => false

/-- `if (neg) b->num = -b->num;` -/
def applySign (neg : Bool) (b : FklBigInt) : FklBigInt :=
  if neg then { b with num := -b.num } else b

def decLoop : List Char → FklBigInt → Option FklBigInt
  | [], b => some b
  | c :: cs, b =>
    if fklIsDigit c then do
      let b ← fklMulBigIntI b 10
      let b ← fklAddBigIntI b (digitValue c)
      decLoop cs b
    else some b

def fklInitBigIntWithDecCharBuf (buf : List Char) : Option FklBigInt := do
  let b ← decLoop (skipSign buf) bigInt0
  some (applySign (isNegText buf) b)

def digitOctCount : Nat := digitShift / octBitCount

/-- `carry` after the octal digits `cs`. -/
def octDigits (cs : List Char) : Nat :=
  cs.foldl (fun carry c => u32 (carry <<< octBitCount : Nat) ||| digitValue c) 0

/-- `pdigits[--total_len] = carry`; `none` is a write in front of the block. -/
def storeDown (pdigits : Nat → Nat) : Nat → Nat → Option ((Nat → Nat) × Nat)
  | 0, _ => none
  | totalLen + 1, carry => some (Function.update pdigits totalLen carry, totalLen)

/-- The loop over groups of ten octal digits; each round takes at least one. -/
def octLoop : Nat → List Char → Nat → (Nat → Nat) → Option (Nat → Nat)
  | 0, cs, _, pdigits => if cs = [] then some pdigits else none
  | fuel + 1, cs, totalLen, pdigits =>
    if cs = [] then some pdigits
    else do
      let s ← storeDown pdigits totalLen (octDigits (cs.take digitOctCount))
      octLoop fuel (cs.drop digitOctCount) s.2 s.1

def fklInitBigIntWithOctCharBuf (buf : List Char) : Option FklBigInt := do
  let cs := ((skipSign buf).drop 1).dropWhile (· = '0')
  let actualLen := cs.length
  let highLen := actualLen % digitOctCount
  let totalLen := actualLen / digitOctCount + (if 0 < highLen then 1 else 0)
  let b ← ensureBigintSize bigInt0 totalLen
  let b := { b with num := totalLen }
  if totalLen = 0 then some b
  else do
    let s ← storeDown b.digits totalLen (octDigits (cs.take highLen))
    let pdigits ← octLoop actualLen (cs.drop highLen) s.2 s.1
    some (applySign (isNegText buf) (bigintNormalize { b with digits := pdigits }))

/-- The state of the hexadecimal loop: the next word to write, the bits collected and how many. -/
structure HexState where
  pdigits : Nat → Nat
  idx : Nat
  accum : Nat
  bits : Nat

/-- `*pdigits++ = v`; `none` is a write behind the block. -/
def HexState.write (s : HexState) (size v : Nat) : Option HexState :=
  if s.idx < size then
    some { s with pdigits := Function.update s.pdigits s.idx v, idx := s.idx + 1 }
  else none

def hexRound (size : Nat) (c : Char) (s : HexState) : Option HexState :=
  let s := { s with
    accum := s.accum ||| u64 (digitValue c <<< s.bits : Nat), bits := s.bits + hexBitCount }
  if digitShift ≤ s.bits then do
    let s ← s.write size (s.accum &&& digitMask)
    some { s with accum := s.accum >>> digitShift, bits := s.bits - digitShift }
  else some s

/-- From the last character to the first. -/
def hexLoop (size : Nat) : List Char → HexState → Option HexState
  | [], s => some s
  | c :: cs, s => do
    let s ← hexLoop size cs s
    hexRound size c s

/-- `if (bits_in_accum) *pdigits++ = accum;` -/
def HexState.flush (s : HexState) (size : Nat) : Option HexState :=
  if s.bits ≠ 0 then s.write size s.accum else some s

def fklInitBigIntWithHexCharBuf (buf : List Char) : Option FklBigInt := do
  let cs := ((skipSign buf).drop 2).dropWhile (· = '0')
  let digitsCount := (cs.length * hexBitCount + digitShift - 1) / digitShift
  let b ← ensureBigintSize bigInt0 digitsCount
  let s ← hexLoop b.size cs ⟨b.digits, 0, 0, 0⟩
  let s ← s.flush b.size
  let pdigits := fun i => if s.idx ≤ i ∧ i < digitsCount then 0 else s.pdigits i
  some (applySign (isNegText buf) (bigintNormalize { b with num := digitsCount, digits := pdigits }))

def fklInitBigIntWithCharBuf (buf : List Char) : Option FklBigInt :=
  if fklIsHexInt buf then fklInitBigIntWithHexCharBuf buf
  else if fklIsOctInt buf then fklInitBigIntWithOctCharBuf buf
  else fklInitBigIntWithDecCharBuf buf

/-! Operations with a machine integer. -/

theorem setBigintI64WithoutEnsure_eq {dst : FklBigInt} {v : Int}
    (h : countDigitsSize (u64 (fklAbs v)) ≤ dst.size) :
    setBigintI64WithoutEnsure dst v = fklSetBigIntI dst v := by
  unfold setBigintI64WithoutEnsure fklSetBigIntI fklSetBigIntU
  by_cases h0 : u64 (fklAbs v) = 0
  · simp [h0]
  · simp [h0, h, ensureBigintSize, not_lt.mpr h]

theorem smallOperand_spec {v : Int} (hv : v.natAbs < 2 ^ 64) :
    ∃ bi, setBigintI64WithoutEnsure smallOperand v = some bi ∧ bi.value = v ∧ bi.Normalized ∧
      (0 ≤ v → 0 ≤ bi.num) := by
  have hu : u64 (fklAbs v) = v.natAbs := by
    rw [fklAbs_eq]
    exact toUnsigned_natCast (by omega)
  have hcount := countDigitsSize_le_three (v := v.natAbs) (by omega)
  obtain ⟨bi, hset, hbi⟩ := fklSetBigIntI_spec (t := smallOperand) (v := v) (by omega)
    (Or.inr hcount)
  refine ⟨bi, ?_, hbi.value, hbi.normalized, fun h0 => ?_⟩
  · rw [setBigintI64WithoutEnsure_eq (by rw [hu]; exact hcount), hset]
  · by_contra hneg
    have hval := hbi.value
    rw [FklBigInt.value_of_neg (by omega)] at hval
    have := hbi.normalized.mag_eq_zero.mp (by omega)
    omega

/-- The numbers a parser builds up: not negative, and in a block that may grow. -/
structure Growing (x : FklBigInt) (v : Nat) : Prop extends IsNat x v where
  heap : x.constSize = false

theorem growing_zero : Growing bigInt0 0 where
  nonneg := le_refl _
  normalized := ⟨⟨by simp [bigInt0], by simp [bigInt0]⟩, fun h => absurd rfl h⟩
  mag := by simp [bigInt0, FklBigInt.mag]
  heap := rfl

theorem Growing.of_leaves {m m' : BigIntMem Bool} {v : Nat} (h : Leaves m m' false v)
    (hc : (m false).constSize = false) : Growing (m' false) v where
  nonneg := by
    by_contra hneg
    have hval := h.value
    rw [FklBigInt.value_of_neg (by omega)] at hval
    have := h.normalized.mag_eq_zero.mp (by omega)
    omega
  normalized := h.normalized
  mag := by rw [← (m' false).value_natAbs, h.value, Int.natAbs_natCast]
  heap := h.constSize.trans hc

theorem fklMulBigIntI_growing {b : FklBigInt} {v k : Nat} (hb : Growing b v) (hk : k < 2 ^ 63) :
    ∃ b', fklMulBigIntI b k = some b' ∧ Growing b' (v * k) := by
  obtain ⟨bi, hset, hval, hnorm, _⟩ := smallOperand_spec (v := k) (by omega)
  set m : BigIntMem Bool := fun r => if r then bi else b
  obtain ⟨m', hmul, hl⟩ := fklMulBigInt_leaves (m := m) (a := false) (b := true) hb.normalized
    hnorm (Or.inl hb.heap)
  have hv : (m false).value * (m true).value = (v * k : Nat) := by
    rw [show (m false).value = v from hb.value, show (m true).value = k from hval]
    push_cast
    rfl
  rw [hv] at hl
  exact ⟨m' false, bind_eq_of_eq hset (bind_eq_of_eq hmul rfl), Growing.of_leaves hl hb.heap⟩

theorem fklAddBigIntI_growing {b : FklBigInt} {v k : Nat} (hb : Growing b v) (hk : k < 2 ^ 63) :
    ∃ b', fklAddBigIntI b k = some b' ∧ Growing b' (v + k) := by
  obtain ⟨bi, hset, hval, hnorm, hpos⟩ := smallOperand_spec (v := k) (by omega)
  set m : BigIntMem Bool := fun r => if r then bi else b
  have hnum : 0 ≤ (m true).num := hpos (by omega)
  obtain ⟨m', hadd, hl⟩ := (fklAddBigInt_leaves_iff (m := m) (a := false) (b := true)
    hb.normalized hnorm (Or.inl hb.heap)).mpr (fun h => by omega)
  have hv : (m false).value + (m true).value = (v + k : Nat) := by
    rw [show (m false).value = v from hb.value, show (m true).value = k from hval]
    push_cast
    rfl
  rw [hv] at hl
  exact ⟨m' false, bind_eq_of_eq hset (bind_eq_of_eq hadd rfl), Growing.of_leaves hl hb.heap⟩

/-! The characters of digits. -/

theorem digitValue_digitChar (capitals : Bool) : ∀ d < 16, digitValue (digitChar capitals d) = d := by
  cases capitals <;> decide

theorem fklIsXDigit_digitChar (capitals : Bool) : ∀ d < 16, fklIsXDigit (digitChar capitals d) := by
  cases capitals <;> decide

theorem fklIsDigit_digitChar (capitals : Bool) : ∀ d < 10, fklIsDigit (digitChar capitals d) := by
  cases capitals <;> decide

theorem octal_digitChar (capitals : Bool) :
    ∀ d < 8, '0' ≤ digitChar capitals d ∧ digitChar capitals d ≤ '7' := by
  cases capitals <;> decide

theorem digitChar_eq_zero (capitals : Bool) : ∀ d < 16, digitChar capitals d = '0' ↔ d = 0 := by
  cases capitals <;> decide

/-- Digits are neither signs nor a base letter. -/
theorem digitChar_ne (capitals : Bool) :
    ∀ d < 16, digitChar capitals d ≠ '-' ∧ digitChar capitals d ≠ '+' ∧
      digitChar capitals d ≠ 'x' ∧ digitChar capitals d ≠ 'X' := by
  cases capitals <;> decide

theorem map_digitValue {capitals : Bool} {ds : List Nat} (hds : ∀ d ∈ ds, d < 16) :
    (digitText capitals ds).map digitValue = ds := by
  rw [digitText, List.map_map, List.map_congr_left (g := id), List.map_id]
  exact fun d hd => digitValue_digitChar capitals d (hds d hd)

theorem forall_digitText {p : Char → Prop} (capitals : Bool) {ds : List Nat}
    (h : ∀ d ∈ ds, p (digitChar capitals d)) : ∀ c ∈ digitText capitals ds, p c := by
  intro c hc
  obtain ⟨d, hd, rfl⟩ := List.mem_map.mp hc
  exact h d hd

theorem digitValue_lt_of_mem (capitals : Bool) {b : Nat} {ds : List Nat} (hb : b ≤ 16)
    (hds : ∀ d ∈ ds, d < b) : ∀ c ∈ digitText capitals ds, digitValue c < b := by
  refine forall_digitText capitals fun d hd => ?_
  rw [digitValue_digitChar capitals d ((hds d hd).trans_le hb)]
  exact hds d hd

theorem digitValue_le (c : Char) : digitValue c ≤ 37 := by
  unfold digitValue
  split_ifs <;> omega

/-! Decimal texts. -/

theorem decLoop_spec {cs : List Char} (hcs : ∀ c ∈ cs, fklIsDigit c = true) {b : FklBigInt} {v : Nat}
    (hb : Growing b v) : ∃ b', decLoop cs b = some b' ∧
      Growing b' (v * 10 ^ cs.length + numeral 10 (cs.map digitValue)) := by
  induction cs generalizing b v with
  | nil => exact ⟨b, rfl, by simpa using hb⟩
  | cons c cs ih =>
    have hc := digitValue_le c
    obtain ⟨b1, hmul, hb1⟩ := fklMulBigIntI_growing hb (k := 10) (by decide)
    obtain ⟨b2, hadd, hb2⟩ := fklAddBigIntI_growing hb1 (k := digitValue c) (by omega)
    obtain ⟨b3, hrun, hb3⟩ := ih (fun e he => hcs e (List.mem_cons_of_mem c he)) hb2
    refine ⟨b3, ?_, ?_⟩
    · rw [decLoop, if_pos (hcs c List.mem_cons_self)]
      exact bind_eq_of_eq hmul (bind_eq_of_eq hadd hrun)
    · have hval : v * 10 ^ (c :: cs).length + numeral 10 ((c :: cs).map digitValue) =
          (v * 10 + digitValue c) * 10 ^ cs.length + numeral 10 (cs.map digitValue) := by
        rw [List.map_cons, numeral_cons, List.length_cons, List.length_map, pow_succ']
        ring
      rwa [hval]

/-! Octal texts. -/

theorem octDigits_spec {cs : List Char} (hcs : ∀ c ∈ cs, digitValue c < 8)
    (hlen : cs.length ≤ digitOctCount) : octDigits cs = numeral 8 (cs.map digitValue) := by
  have general : ∀ (es : List Char) (v k : Nat), (∀ c ∈ es, digitValue c < 8) → v < 8 ^ k →
      k + es.length ≤ 10 → es.foldl
        (fun carry c => u32 (carry <<< octBitCount : Nat) ||| digitValue c) v =
          (es.map digitValue).foldl (fun v d => v * 8 + d) v := by
    intro es
    induction es with
    | nil => intros; rfl
    | cons c es ih =>
      intro v k hes hv hk
      have hd := hes c List.mem_cons_self
      rw [List.length_cons] at hk
      have hlt : v * 8 + digitValue c < 8 ^ (k + 1) := by
        rw [pow_succ]
        omega
      have hstep : u32 (v <<< octBitCount : Nat) ||| digitValue c = v * 8 + digitValue c := by
        have hu : u32 (v <<< octBitCount : Nat) = v <<< octBitCount := by
          apply toUnsigned_natCast
          calc v <<< octBitCount = v * 8 := Nat.shiftLeft_eq v 3
            _ ≤ v * 8 + digitValue c := Nat.le_add_right _ _
            _ < 8 ^ (k + 1) := hlt
            _ ≤ 8 ^ 10 := Nat.pow_le_pow_right (by decide) (by omega)
            _ < 2 ^ 32 := by decide
        rw [hu, ← Nat.shiftLeft_add_eq_or_of_lt (show digitValue c < 2 ^ octBitCount from hd),
          Nat.shiftLeft_eq]
        rfl
      rw [List.foldl_cons, hstep, List.map_cons, List.foldl_cons]
      exact ih (v * 8 + digitValue c) (k + 1) (fun e he => hes e (List.mem_cons_of_mem c he)) hlt
        (by omega)
  exact general cs 0 0 hcs (by decide) (by rw [Nat.zero_add]; exact hlen)

theorem pow_digitOctCount : 8 ^ digitOctCount = digitBase := by decide

theorem numeral_oct_lt {cs : List Char} (hcs : ∀ c ∈ cs, digitValue c < 8)
    (hlen : cs.length ≤ digitOctCount) : numeral 8 (cs.map digitValue) < digitBase := by
  have h := numeral_lt (b := 8) (l := cs.map digitValue) fun d hd => by
    obtain ⟨c, hc, rfl⟩ := List.mem_map.mp hd
    exact hcs c hc
  rw [List.length_map] at h
  rw [← pow_digitOctCount]
  exact h.trans_le (Nat.pow_le_pow_right (by decide) hlen)

theorem numeral_take_drop (b k : Nat) (cs : List Char) : numeral b (cs.map digitValue) =
    numeral b ((cs.take k).map digitValue) * b ^ (cs.drop k).length +
      numeral b ((cs.drop k).map digitValue) := by
  have h := numeral_append b ((cs.take k).map digitValue) ((cs.drop k).map digitValue)
  rwa [← List.map_append, List.take_append_drop, List.length_map] at h

/-- Whole groups fill as many words, downwards. -/
theorem octLoop_spec (fuel t : Nat) {cs : List Char} (d : Nat → Nat)
    (hcs : ∀ c ∈ cs, digitValue c < 8) (hlen : cs.length = digitOctCount * t) (hfuel : t ≤ fuel) :
    ∃ d', octLoop fuel cs t d = some d' ∧ (∀ i < t, d' i < digitBase) ∧
      (∀ i, t ≤ i → d' i = d i) ∧ positional digitBase d' t = numeral 8 (cs.map digitValue) := by
  induction t generalizing fuel cs d with
  | zero =>
    have hnil : cs = [] := List.length_eq_zero_iff.mp (by omega)
    subst hnil
    refine ⟨d, ?_, by omega, fun _ _ => rfl, by simp⟩
    cases fuel <;> simp [octLoop]
  | succ t ih =>
    obtain ⟨fuel, rfl⟩ : ∃ f, fuel = f + 1 := ⟨fuel - 1, by omega⟩
    have hcount : digitOctCount = 10 := by decide
    have htake : (cs.take digitOctCount).length = digitOctCount := by
      rw [List.length_take, hlen, hcount]
      omega
    have hfirst : ∀ c ∈ cs.take digitOctCount, digitValue c < 8 :=
      fun c hc => hcs c (List.mem_of_mem_take hc)
    have hrest : ∀ c ∈ cs.drop digitOctCount, digitValue c < 8 :=
      fun c hc => hcs c (List.mem_of_mem_drop hc)
    have hdrop : (cs.drop digitOctCount).length = digitOctCount * t := by
      rw [List.length_drop, hlen, hcount]
      omega
    obtain ⟨d', hrun, hdig, hkeep, hval⟩ := ih fuel
      (Function.update d t (numeral 8 ((cs.take digitOctCount).map digitValue)))
      hrest hdrop (by omega)
    have hdt : d' t = numeral 8 ((cs.take digitOctCount).map digitValue) := by
      rw [hkeep t (le_refl t), Function.update_self]
    refine ⟨d', ?_, fun i hi => ?_, fun i hi => ?_, ?_⟩
    · have hne : cs ≠ [] := by
        intro h
        rw [h, List.length_nil, hcount] at hlen
        omega
      rw [octLoop, if_neg hne, octDigits_spec hfirst htake.le]
      exact bind_eq_of_eq (show storeDown d (t + 1) _ = some (_, t) from rfl) hrun
    · rcases Nat.lt_succ_iff_lt_or_eq.mp hi with hi | rfl
      · exact hdig i hi
      · rw [hdt]
        exact numeral_oct_lt hfirst htake.le
    · rw [hkeep i (by omega), Function.update_of_ne (by omega)]
    · rw [positional_succ, hval, hdt, numeral_take_drop 8 digitOctCount cs, List.length_drop, hlen,
        show digitOctCount * (t + 1) - digitOctCount = digitOctCount * t by rw [Nat.mul_succ]; omega,
        pow_mul, pow_digitOctCount]
      ring

/-- One group more than there are words left is written in front of the block. -/
theorem octLoop_none (fuel t : Nat) {cs : List Char} (d : Nat → Nat)
    (hlen : cs.length = digitOctCount * (t + 1)) (hfuel : t < fuel) :
    octLoop fuel cs t d = none := by
  have hcount : digitOctCount = 10 := by decide
  have hne : cs ≠ [] := by
    intro h
    rw [h, List.length_nil, hcount] at hlen
    omega
  induction t generalizing fuel cs d with
  | zero =>
    obtain ⟨fuel, rfl⟩ : ∃ f, fuel = f + 1 := ⟨fuel - 1, by omega⟩
    rw [octLoop, if_neg hne]
    rfl
  | succ t ih =>
    obtain ⟨fuel, rfl⟩ : ∃ f, fuel = f + 1 := ⟨fuel - 1, by omega⟩
    have hrest : (cs.drop digitOctCount).length = digitOctCount * (t + 1) := by
      rw [List.length_drop, hlen, hcount]
      omega
    rw [octLoop, if_neg hne]
    refine bind_eq_of_eq (show storeDown d (t + 1) _ = some (_, t) from rfl)
      (ih fuel _ hrest (by omega) ?_)
    intro h
    rw [h, List.length_nil, hcount] at hrest
    omega

/-- How many words the digits take. -/
def octTotal (n : Nat) : Nat := n / digitOctCount + (if 0 < n % digitOctCount then 1 else 0)

theorem octTotal_eq_zero {cs : List Char} : octTotal cs.length = 0 ↔ cs = [] := by
  have hcount : digitOctCount = 10 := by decide
  rw [← List.length_eq_zero_iff, octTotal, hcount]
  split <;> omega

/-- The digits of the first group and then those of all others, into a block. -/
def octWords (d : Nat → Nat) (cs : List Char) : Option (Nat → Nat) := do
  let s ← storeDown d (octTotal cs.length) (octDigits (cs.take (cs.length % digitOctCount)))
  octLoop cs.length (cs.drop (cs.length % digitOctCount)) s.2 s.1

/-- The words are the number, unless the digits fill whole groups of ten: then the last group is
written in front of the block. -/
theorem octWords_spec {cs : List Char} (d : Nat → Nat) (hcs : ∀ c ∈ cs, digitValue c < 8)
    (hne : cs ≠ []) : (cs.length % digitOctCount = 0 → octWords d cs = none) ∧
      (cs.length % digitOctCount ≠ 0 → ∃ d', octWords d cs = some d' ∧
        (∀ i < octTotal cs.length, d' i < digitBase) ∧
        positional digitBase d' (octTotal cs.length) = numeral 8 (cs.map digitValue)) := by
  have hcount : digitOctCount = 10 := by decide
  have hpos := List.length_pos_iff.mpr hne
  constructor
  · intro hmod
    obtain ⟨t, ht⟩ : ∃ t, cs.length = digitOctCount * (t + 1) :=
      ⟨cs.length / 10 - 1, by rw [hcount] at hmod ⊢; omega⟩
    have htotal : octTotal cs.length = t + 1 := by
      rw [octTotal, hmod, if_neg (lt_irrefl 0), ht, Nat.mul_div_cancel_left _ (by decide)]
    unfold octWords
    rw [htotal, hmod, List.drop_zero]
    exact bind_eq_of_eq (show storeDown _ (t + 1) _ = some (_, t) from rfl)
      (octLoop_none cs.length t _ ht (by rw [ht, hcount]; omega))
  · intro hmod
    have hmodlt : cs.length % digitOctCount < digitOctCount := Nat.mod_lt _ (by decide)
    have hdm := Nat.div_add_mod cs.length digitOctCount
    have htotal : octTotal cs.length = cs.length / digitOctCount + 1 := by
      rw [octTotal, if_pos (Nat.pos_of_ne_zero hmod)]
    unfold octWords
    rw [htotal]
    generalize cs.length / digitOctCount = t at hdm
    generalize hk : cs.length % digitOctCount = k at hdm hmodlt
    have htake : (cs.take k).length = k := by
      rw [List.length_take]
      omega
    have hdrop : (cs.drop k).length = digitOctCount * t := by
      rw [List.length_drop]
      omega
    have hfirst : ∀ c ∈ cs.take k, digitValue c < 8 := fun c hc => hcs c (List.mem_of_mem_take hc)
    have hhigh := octDigits_spec hfirst (by omega)
    have hrest : ∀ c ∈ cs.drop k, digitValue c < 8 := fun c hc => hcs c (List.mem_of_mem_drop hc)
    obtain ⟨d', hrun, hdig, hkeep, hlow⟩ := octLoop_spec cs.length t
      (Function.update d t (octDigits (cs.take k))) hrest hdrop (by rw [hcount] at hdm; omega)
    have hdt : d' t = numeral 8 ((cs.take k).map digitValue) := by
      rw [hkeep t (le_refl t), Function.update_self, hhigh]
    refine ⟨d', bind_eq_of_eq (show storeDown _ (t + 1) _ = some (_, t) from rfl) hrun,
      fun i hi => ?_, ?_⟩
    · rcases Nat.lt_succ_iff_lt_or_eq.mp hi with hi | rfl
      · exact hdig i hi
      · rw [hdt]
        exact numeral_oct_lt hfirst (by omega)
    · rw [positional_succ, hlow, hdt, numeral_take_drop 8 k cs, hdrop, pow_mul, pow_digitOctCount]
      ring

/-! Signs. -/

/-- The sign that printing puts in front. -/
def signText (neg : Bool) : List Char := if neg then ['-'] else []

theorem skipSign_of_ne {c : Char} {l : List Char} (h1 : c ≠ '-') (h2 : c ≠ '+') :
    skipSign (c :: l) = c :: l := by
  unfold skipSign
  split
  · rename_i heq
    exact absurd (List.cons.inj heq).1 h1
  · rename_i heq
    exact absurd (List.cons.inj heq).1 h2
  · rfl

theorem skipSign_signText {n : Bool} {c : Char} {l : List Char} (h1 : c ≠ '-') (h2 : c ≠ '+') :
    skipSign (signText n ++ c :: l) = c :: l ∧ isNegText (signText n ++ c :: l) = n := by
  cases n with
  | false => exact ⟨skipSign_of_ne h1 h2, by simp [signText, isNegText, h1]⟩
  | true => exact ⟨rfl, by simp [signText, isNegText]⟩

def signedNat (neg : Bool) (v : Nat) : Int := if neg then -(v : Int) else v

theorem applySign_spec (neg : Bool) {x : FklBigInt} {v : Nat} (h : IsNat x v) :
    (applySign neg x).Normalized ∧ (applySign neg x).value = signedNat neg v := by
  cases neg with
  | false => exact ⟨h.normalized, h.value⟩
  | true => exact ⟨h.normalized.neg, by rw [applySign, if_pos rfl, FklBigInt.value_neg, h.value]; rfl⟩

theorem signedNat_mag (a : FklBigInt) : signedNat (decide (a.num < 0)) a.mag = a.value := by
  simp [signedNat, FklBigInt.value]

theorem dropWhile_digitText {capitals : Bool} {ds : List Nat} (hlt : ∀ d ∈ ds, d < 16)
    (hhead : ds.head? ≠ some 0) :
    (digitText capitals ds).dropWhile (· = '0') = digitText capitals ds := by
  cases ds with
  | nil => rfl
  | cons d ds =>
    have hd : digitChar capitals d ≠ '0' := fun h =>
      hhead (by rw [List.head?_cons, (digitChar_eq_zero capitals d (hlt d List.mem_cons_self)).mp h])
    exact List.dropWhile_cons_of_neg (by simpa using hd)

theorem ensureBigintSize_zero (n : Nat) :
    ensureBigintSize bigInt0 n = some { bigInt0 with size := n } := by
  unfold ensureBigintSize
  split
  · rfl
  · have h0 : n = 0 := by
      have hle : n ≤ 0 := not_lt.mp (by assumption)
      omega
    rw [h0]
    rfl

/-- A block that is filled with the digits of a number. -/
theorem block_spec {d : Nat → Nat} {n v : Nat} (neg const : Bool) (hd : ∀ i < n, d i < digitBase)
    (hv : positional digitBase d n = v) :
    (applySign neg (bigintNormalize ⟨d, n, n, const⟩)).Normalized ∧
      (applySign neg (bigintNormalize ⟨d, n, n, const⟩)).value = signedNat neg v := by
  obtain ⟨hnat, _⟩ := normalize_isNat (x := ⟨d, n, n, const⟩) rfl hd le_rfl
  rw [hv] at hnat
  exact applySign_spec _ hnat

/-- The octal digits of a text. -/
def octText (buf : List Char) : List Char := ((skipSign buf).drop 1).dropWhile (· = '0')

/-- The number of the octal digits `cs`, in a block with the words `d`. -/
def octBuild (d : Nat → Nat) (const neg : Bool) (cs : List Char) : Option FklBigInt :=
  if cs = [] then some ⟨d, 0, 0, const⟩
  else (octWords d cs).map fun d =>
    applySign neg (bigintNormalize ⟨d, octTotal cs.length, octTotal cs.length, const⟩)

theorem fklInitBigIntWithOctCharBuf_eq (buf : List Char) : fklInitBigIntWithOctCharBuf buf =
    octBuild bigInt0.digits false (isNegText buf) (octText buf) := by
  unfold fklInitBigIntWithOctCharBuf octText octBuild
  generalize ((skipSign buf).drop 1).dropWhile (· = '0') = cs
  simp only [ensureBigintSize_zero]
  change (if octTotal cs.length = 0 then some _ else _) = _
  by_cases hnil : cs = []
  · subst hnil
    rfl
  · rw [if_neg (mt octTotal_eq_zero.mp hnil), if_neg hnil]
    unfold octWords
    change Option.bind _ _ = Option.map _ (Option.bind _ _)
    rw [Option.map_bind]
    exact congrArg (Option.bind _) (funext fun s => Option.map_eq_bind.symm)

/-- Octal digits are read unless they fill whole groups of ten. -/
theorem octBuild_spec (d : Nat → Nat) (const neg : Bool) {cs : List Char}
    (hcs : ∀ c ∈ cs, digitValue c < 8) :
    (cs ≠ [] → cs.length % digitOctCount = 0 → octBuild d const neg cs = none) ∧
      ((cs ≠ [] → cs.length % digitOctCount ≠ 0) → ∃ b, octBuild d const neg cs = some b ∧
        b.Normalized ∧ b.value = signedNat neg (numeral 8 (cs.map digitValue))) := by
  unfold octBuild
  refine ⟨fun hne hmod => ?_, fun hmod => ?_⟩
  · rw [if_neg hne, (octWords_spec _ hcs hne).1 hmod]
    rfl
  · by_cases hne : cs = []
    · subst hne
      refine ⟨_, if_pos rfl, ⟨⟨fun i hi => absurd hi (Nat.not_lt_zero i), le_rfl⟩, fun h => absurd rfl h⟩, ?_⟩
      cases neg <;> simp [FklBigInt.value, FklBigInt.mag, signedNat]
    · obtain ⟨d', hwords, hdig, hval⟩ := (octWords_spec d hcs hne).2 (hmod hne)
      rw [if_neg hne, hwords]
      exact ⟨_, rfl, block_spec neg const hdig hval⟩

/-- The number of octal digits is a multiple of ten when the top word needs ten of them. -/
theorem octal_length {a : FklBigInt} {ds : List Nat} (ha : a.Normalized) (h0 : a.num ≠ 0)
    (hne : ds ≠ []) (hds : ∀ d ∈ ds, d < 8) (hhead : ds.head? ≠ some 0)
    (hval : numeral 8 ds = a.mag) :
    ds.length % digitOctCount = 0 ↔ 2 ^ 27 ≤ a.digits (a.num.natAbs - 1) := by
  have hlen := Written.length_eq (r := []) ⟨(List.append_nil _).symm, hds, hhead, hne, hval⟩
    (p := false)
  have htop := ha.top_ne h0
  have htoplt := ha.digit_lt (a.num.natAbs - 1) (by omega)
  obtain ⟨n, hn⟩ : ∃ n, a.num.natAbs = n + 1 := ⟨a.num.natAbs - 1, by omega⟩
  rw [hn, Nat.add_sub_cancel] at htop htoplt ⊢
  have hlow : positional digitBase a.digits n < digitBase ^ n :=
    positional_lt (fun i hi => ha.digit_lt i (by omega))
  have hmag : a.mag = positional digitBase a.digits n + a.digits n * digitBase ^ n := by
    rw [FklBigInt.mag, hn, positional_succ]
  have hple := Nat.pow_log_le_self 8 htop
  have hplt := Nat.lt_pow_succ_log_self (b := 8) (by decide) (a.digits n)
  generalize hk : Nat.log 8 (a.digits n) = k at hple hplt
  have hbase : 8 ^ (10 * n) = digitBase ^ n := by
    rw [pow_mul]
    rfl
  have hlog : Nat.log 8 a.mag = 10 * n + k := by
    refine Nat.log_eq_of_pow_le_of_lt_pow ?_ ?_
    · calc 8 ^ (10 * n + k) = 8 ^ k * digitBase ^ n := by rw [pow_add, hbase, Nat.mul_comm]
        _ ≤ a.digits n * digitBase ^ n := Nat.mul_le_mul_right _ hple
        _ ≤ a.mag := by omega
    · calc a.mag < (a.digits n + 1) * digitBase ^ n := by rw [hmag, Nat.add_mul]; omega
        _ ≤ 8 ^ (k + 1) * digitBase ^ n := Nat.mul_le_mul_right _ hplt
        _ = 8 ^ (10 * n + k + 1) := by rw [← hbase, ← pow_add]; congr 1; omega
  have hk9 : k ≤ 9 := by
    have : 8 ^ k < 8 ^ 10 := hple.trans_lt (htoplt.trans_eq (by decide))
    have := (Nat.pow_lt_pow_iff_right (by decide : 1 < 8)).mp this
    omega
  rw [hlen, hlog, show digitOctCount = 10 from rfl, show (2 : Nat) ^ 27 = 8 ^ 9 by decide]
  constructor
  · intro hmod
    rwa [show k = 9 by omega] at hple
  · intro hge
    have hlt : 8 ^ 9 < 8 ^ (k + 1) := hge.trans_lt hplt
    have := (Nat.pow_lt_pow_iff_right (by decide : 1 < 8)).mp hlt
    omega

/-! Hexadecimal texts. -/

/-- After the digits `ds`, read from the right. -/
structure HexInv (s : HexState) (ds : List Nat) : Prop where
  digit_lt : ∀ i < s.idx, s.pdigits i < digitBase
  accum_lt : s.accum < 2 ^ s.bits
  bits_lt : s.bits < digitShift
  bits : s.bits + digitShift * s.idx = hexBitCount * ds.length
  value : positional digitBase s.pdigits s.idx + s.accum * digitBase ^ s.idx = numeral 16 ds

theorem hexRound_spec {size : Nat} {c : Char} {ds : List Nat} {s : HexState} (hd : digitValue c < 16)
    (h : HexInv s ds) (hsize : hexBitCount * (ds.length + 1) ≤ digitShift * size) :
    ∃ s', hexRound size c s = some s' ∧ HexInv s' (digitValue c :: ds) := by
  have hbits := h.bits
  have hlt := h.bits_lt
  have h30 : digitShift = 30 := rfl
  have h4 : hexBitCount = 4 := rfl
  obtain ⟨hor, hacc⟩ := accum_or (w := hexBitCount) h.accum_lt (x := digitValue c) hd (by omega)
  have hval : positional digitBase s.pdigits s.idx + (digitValue c * 2 ^ s.bits + s.accum) * digitBase ^
      s.idx = numeral 16 (digitValue c :: ds) := by
    have hpow : 2 ^ s.bits * digitBase ^ s.idx = 16 ^ ds.length := by
      rw [show digitBase = 2 ^ digitShift from rfl, ← pow_mul, ← pow_add, hbits, pow_mul]
      rfl
    rw [numeral_cons, ← h.value, ← hpow]
    ring
  simp only [hexRound, hor]
  generalize digitValue c * 2 ^ s.bits + s.accum = acc at hacc hval
  by_cases hfull : digitShift ≤ s.bits + hexBitCount
  · rw [if_pos hfull]
    have hidx : s.idx < size := by
      rw [Nat.mul_succ] at hsize
      by_contra hge
      have hle : digitShift * size ≤ digitShift * s.idx := Nat.mul_le_mul_left _ (not_lt.mp hge)
      omega
    refine ⟨_, bind_eq_of_eq (if_pos hidx) rfl, ?_, ?_, ?_, ?_, ?_⟩
    · dsimp only
      rw [land_digitMask]
      exact digits_update h.digit_lt (Nat.mod_lt _ digitBase_pos)
    · dsimp only
      rw [shiftRight_digitShift, Nat.div_lt_iff_lt_mul digitBase_pos,
        show digitBase = 2 ^ digitShift from rfl, ← pow_add, Nat.sub_add_cancel hfull]
      exact hacc
    · dsimp only
      omega
    · dsimp only
      rw [List.length_cons, Nat.mul_succ, Nat.mul_succ]
      omega
    · dsimp only
      rw [land_digitMask, shiftRight_digitShift, positional_update_succ]
      have hstep : acc % digitBase + digitBase * (acc / digitBase) = acc + 0 := by
        rw [Nat.mod_add_div, Nat.add_zero]
      rw [ripple_carry hval hstep]
      ring
  · rw [if_neg hfull]
    refine ⟨_, rfl, h.digit_lt, hacc, not_le.mp hfull, ?_, hval⟩
    dsimp only
    rw [List.length_cons, Nat.mul_succ]
    omega

theorem hexLoop_spec {n : Nat} {cs : List Char} (d : Nat → Nat)
    (hcs : ∀ c ∈ cs, digitValue c < 16) (hsize : hexBitCount * cs.length ≤ digitShift * n) :
    ∃ s, hexLoop n cs ⟨d, 0, 0, 0⟩ = some s ∧ HexInv s (cs.map digitValue) := by
  induction cs with
  | nil =>
    refine ⟨_, rfl, by simp, by simp, ?_, ?_, ?_⟩
    · exact Nat.zero_lt_succ _
    · simp
    · simp
  | cons c cs ih =>
    rw [List.length_cons] at hsize
    obtain ⟨s, hrun, hs⟩ := ih (fun f hf => hcs f (List.mem_cons_of_mem c hf))
      (by rw [Nat.mul_succ] at hsize; omega)
    obtain ⟨s', hround, hs'⟩ := hexRound_spec (hcs c List.mem_cons_self) hs
      (by rwa [List.length_map])
    exact ⟨s', bind_eq_of_eq hrun hround, hs'⟩

def hexTotal (n : Nat) : Nat := (n * hexBitCount + digitShift - 1) / digitShift

/-- The digits from the last one on, into a block that has just as many words as they take. -/
def hexWords (d : Nat → Nat) (cs : List Char) : Option (Nat → Nat) := do
  let s ← hexLoop (hexTotal cs.length) cs ⟨d, 0, 0, 0⟩
  let s ← s.flush (hexTotal cs.length)
  some fun i => if s.idx ≤ i ∧ i < hexTotal cs.length then 0 else s.pdigits i

theorem hexWords_spec {cs : List Char} (d : Nat → Nat) (hcs : ∀ c ∈ cs, digitValue c < 16) :
    ∃ d', hexWords d cs = some d' ∧ (∀ i < hexTotal cs.length, d' i < digitBase) ∧
      positional digitBase d' (hexTotal cs.length) = numeral 16 (cs.map digitValue) := by
  have h30 : digitShift = 30 := rfl
  have h4 : hexBitCount = 4 := rfl
  unfold hexWords
  generalize hn : hexTotal cs.length = n
  rw [hexTotal, h30, h4] at hn
  obtain ⟨s, hrun, hs⟩ := hexLoop_spec (n := n) d hcs (by rw [h30, h4]; omega)
  have hbits := hs.bits
  have hlt := hs.bits_lt
  rw [List.length_map] at hbits
  -- the last word, which need not be full
  obtain ⟨t, hlast, hidx, hdig, hval⟩ : ∃ t, s.flush n = some t ∧ t.idx = n ∧
      (∀ i < n, t.pdigits i < digitBase) ∧
        positional digitBase t.pdigits n = numeral 16 (cs.map digitValue) := by
    by_cases h0 : s.bits = 0
    · have hsn : s.idx = n := by
        rw [h30, h4] at hbits
        omega
      have hacc : s.accum = 0 := by
        have h := hs.accum_lt
        rw [h0, pow_zero] at h
        omega
      refine ⟨s, if_neg (not_not.mpr h0), hsn, fun i hi => hs.digit_lt i (by omega), ?_⟩
      have hv := hs.value
      rw [hacc, hsn] at hv
      rw [← hv]
      simp
    · have hsn : s.idx + 1 = n := by
        rw [h30] at hlt
        rw [h30, h4] at hbits
        omega
      have hacc : s.accum < digitBase :=
        hs.accum_lt.trans_le (Nat.pow_le_pow_right (by decide) hlt.le)
      refine ⟨_, (if_pos h0).trans (if_pos (by omega)), hsn, ?_, ?_⟩
      · rw [← hsn]
        exact digits_update hs.digit_lt hacc
      · rw [← hsn, positional_update_succ, hs.value]
  -- no word is left to be filled with zero
  have hfill : (fun i => if t.idx ≤ i ∧ i < n then 0 else t.pdigits i) = t.pdigits := by
    funext i
    rw [if_neg (by omega)]
  refine ⟨t.pdigits, bind_eq_of_eq hrun (bind_eq_of_eq hlast ?_), hdig, hval⟩
  rw [hfill]

/-- The hexadecimal digits of a text. -/
def hexText (buf : List Char) : List Char := ((skipSign buf).drop 2).dropWhile (· = '0')

/-- The number of the hexadecimal digits `cs`, in a block with the words `d`. -/
def hexBuild (d : Nat → Nat) (const neg : Bool) (cs : List Char) : Option FklBigInt :=
  (hexWords d cs).map fun d =>
    applySign neg (bigintNormalize ⟨d, hexTotal cs.length, hexTotal cs.length, const⟩)

theorem fklInitBigIntWithHexCharBuf_eq (buf : List Char) : fklInitBigIntWithHexCharBuf buf =
    hexBuild bigInt0.digits false (isNegText buf) (hexText buf) := by
  unfold fklInitBigIntWithHexCharBuf hexText hexBuild hexWords
  generalize ((skipSign buf).drop 2).dropWhile (· = '0') = cs
  simp only [ensureBigintSize_zero]
  change Option.bind (hexLoop (hexTotal cs.length) cs _) _ = Option.map _ (Option.bind _ _)
  rw [Option.map_bind]
  refine congrArg (Option.bind _) (funext fun s => ?_)
  change Option.bind (s.flush (hexTotal cs.length)) _ = Option.map _ (Option.bind _ _)
  rw [Option.map_bind]
  rfl

theorem hexBuild_spec (d : Nat → Nat) (const neg : Bool) {cs : List Char}
    (hcs : ∀ c ∈ cs, digitValue c < 16) : ∃ b, hexBuild d const neg cs = some b ∧
      b.Normalized ∧ b.value = signedNat neg (numeral 16 (cs.map digitValue)) := by
  obtain ⟨d', hwords, hdig, hval⟩ := hexWords_spec d hcs
  unfold hexBuild
  rw [hwords]
  exact ⟨_, rfl, block_spec neg const hdig hval⟩

/-! The classifiers on printed texts. -/

theorem length_signText (neg : Bool) (cs : List Char) :
    cs.length ≤ (signText neg ++ cs).length := by
  rw [List.length_append]
  omega

theorem fklIsHexInt_hex {neg capitals : Bool} {x : Char} {ds : List Nat} (hne : ds ≠ [])
    (hds : ∀ d ∈ ds, d < 16) (hx : x = 'x' ∨ x = 'X') :
    fklIsHexInt (signText neg ++ '0' :: x :: digitText capitals ds) = true := by
  obtain ⟨hskip, _⟩ := skipSign_signText (n := neg) (c := '0')
    (l := x :: digitText capitals ds) (by decide) (by decide)
  have hlen : 3 ≤ ('0' :: x :: digitText capitals ds).length := by
    have hpos := List.length_pos_iff.mpr hne
    simp only [List.length_cons, digitText, List.length_map]
    omega
  have hlen' := length_signText neg ('0' :: x :: digitText capitals ds)
  have hall : (digitText capitals ds).all fklIsXDigit = true := by
    rw [List.all_eq_true]
    intro c hc
    obtain ⟨d, hd, rfl⟩ := List.mem_map.mp hc
    exact fklIsXDigit_digitChar capitals d (hds d hd)
  unfold fklIsHexInt
  rw [hskip, if_neg (by omega), if_neg (by omega)]
  rcases hx with rfl | rfl <;> simp [hall]

theorem fklIsHexInt_oct {neg capitals : Bool} {ds : List Nat} (hds : ∀ d ∈ ds, d < 8) :
    fklIsHexInt (signText neg ++ '0' :: digitText capitals ds) = false := by
  obtain ⟨hskip, _⟩ := skipSign_signText (n := neg) (c := '0')
    (l := digitText capitals ds) (by decide) (by decide)
  unfold fklIsHexInt
  rw [hskip]
  split
  · rfl
  · split
    · rfl
    · cases ds with
      | nil => rfl
      | cons d ds =>
        obtain ⟨_, _, hx, hX⟩ := digitChar_ne capitals d
          ((hds d List.mem_cons_self).trans (by decide))
        simp [digitText, hx, hX]

theorem fklIsOctInt_oct {neg capitals : Bool} {ds : List Nat} (hne : ds ≠ [])
    (hds : ∀ d ∈ ds, d < 8) :
    fklIsOctInt (signText neg ++ '0' :: digitText capitals ds) = true := by
  obtain ⟨hskip, _⟩ := skipSign_signText (n := neg) (c := '0')
    (l := digitText capitals ds) (by decide) (by decide)
  have hlen : 2 ≤ ('0' :: digitText capitals ds).length := by
    have hpos := List.length_pos_iff.mpr hne
    simp only [List.length_cons, digitText, List.length_map]
    omega
  have hlen' := length_signText neg ('0' :: digitText capitals ds)
  have hall : (digitText capitals ds).all (fun c => '0' ≤ c && c ≤ '7') = true := by
    rw [List.all_eq_true]
    intro c hc
    obtain ⟨d, hd, rfl⟩ := List.mem_map.mp hc
    simpa using octal_digitChar capitals d (hds d hd)
  unfold fklIsOctInt
  rw [hskip, if_neg (by omega), if_neg (by omega)]
  exact hall

/-- A numeral without a leading zero is neither hexadecimal nor octal. -/
theorem classify_dec {n p : Bool} {ds : List Nat} (hne : ds ≠ [])
    (hds : ∀ d ∈ ds, d < 10) (hhead : ds.head? ≠ some 0) :
    fklIsHexInt (signText n ++ digitText p ds) = false ∧
      fklIsOctInt (signText n ++ digitText p ds) = false ∧
      skipSign (signText n ++ digitText p ds) = digitText p ds ∧
      isNegText (signText n ++ digitText p ds) = n := by
  obtain ⟨d, es, rfl⟩ := List.exists_cons_of_ne_nil hne
  have hd16 : d < 16 := (hds d List.mem_cons_self).trans (by decide)
  obtain ⟨hminus, hplus, _, _⟩ := digitChar_ne p d hd16
  have hzero : digitChar p d ≠ '0' := fun h =>
    hhead (by rw [List.head?_cons, (digitChar_eq_zero p d hd16).mp h])
  have htext : digitText p (d :: es) = digitChar p d :: digitText p es := rfl
  obtain ⟨hskip, hneg⟩ := skipSign_signText (n := n) (l := digitText p es) hminus hplus
  rw [htext]
  refine ⟨?_, ?_, hskip, hneg⟩
  · unfold fklIsHexInt
    rw [hskip]
    split
    · rfl
    · split
      · rfl
      · split
        · rename_i heq
          exact absurd (List.cons.inj heq).1 hzero
        · rfl
  · unfold fklIsOctInt
    rw [hskip]
    split
    · rfl
    · split
      · rfl
      · split
        · rename_i heq
          exact absurd (List.cons.inj heq).1 hzero
        · rfl

/-! The round trip. -/

/-- Normalized numbers of one value have the same words. -/
theorem FklBigInt.Normalized.ext {x y : FklBigInt} (hx : x.Normalized) (hy : y.Normalized)
    (h : x.value = y.value) :
    x.num = y.num ∧ ∀ i < y.num.natAbs, x.digits i = y.digits i := by
  have hmag : x.mag = y.mag := by rw [← x.value_natAbs, ← y.value_natAbs, h]
  have hlen : x.num.natAbs = y.num.natAbs := by
    rcases lt_trichotomy x.num.natAbs y.num.natAbs with hlt | heq | hgt
    · exact absurd hmag (FklBigInt.mag_lt_of_num_lt hx.toWf hy hlt).ne
    · exact heq
    · exact absurd hmag (FklBigInt.mag_lt_of_num_lt hy.toWf hx hgt).ne'
  have hsign : x.num < 0 ↔ y.num < 0 := by
    have hpos : ∀ z : FklBigInt, z.Normalized → (z.num < 0 ↔ z.value < 0) := by
      intro z hz
      have hz0 := hz.mag_eq_zero
      unfold FklBigInt.value
      constructor
      · intro hneg
        rw [if_pos hneg]
        omega
      · intro hneg
        by_contra hnot
        rw [if_neg hnot] at hneg
        omega
    rw [hpos x hx, hpos y hy, h]
  refine ⟨by omega, ?_⟩
  have hinj := positional_inj (n := y.num.natAbs) (hlen ▸ hx.digit_lt) hy.digit_lt
    (by unfold FklBigInt.mag at hmag; rwa [hlen] at hmag)
  exact hinj

/-- The printed text of `a` is read back as `a`. -/
def RoundTrips (a : FklBigInt) (radix : Nat) (flags : FklBigIntFmtFlags) : Prop :=
  ∃ len text b, fklBigIntToStr a radix flags = some (len, text) ∧
    fklInitBigIntWithCharBuf text = some b ∧ b.num = a.num ∧
      ∀ i < a.num.natAbs, b.digits i = a.digits i

theorem RoundTrips.intro {a b : FklBigInt} {radix : Nat} {flags : FklBigIntFmtFlags}
    {out : Nat × List Char} (ha : a.Normalized) (hp : fklBigIntToStr a radix flags = some out)
    (hr : fklInitBigIntWithCharBuf out.2 = some b) (hb : b.Normalized) (hv : b.value = a.value) :
    RoundTrips a radix flags :=
  ⟨out.1, out.2, b, hp, hr, hb.ext ha hv⟩

theorem signText_eq (a : FklBigInt) :
    (if a.num < 0 then ['-'] else []) = signText (decide (a.num < 0)) := by
  by_cases h : a.num < 0 <;> simp [signText, h]

theorem zero_roundTrips {a : FklBigInt} (ha : a.Normalized) (h0 : a.num = 0) (radix : Nat)
    (flags : FklBigIntFmtFlags) :
    fklBigIntToStr a radix flags = some (1, ['0']) ∧ RoundTrips a radix flags := by
  have hmag : a.mag = 0 := ha.mag_eq_zero.mpr h0
  have hprint : fklBigIntToStr a radix flags = some (1, ['0']) := if_pos (ha.is0_iff.mpr hmag)
  have hzero : ∀ c ∈ ['0'], fklIsDigit c = true := fun c hc => List.mem_singleton.mp hc ▸ by decide
  obtain ⟨b, hrun, hb⟩ := decLoop_spec hzero growing_zero
  have hval : b.value = a.value := by
    rw [hb.value, ha.value_eq_zero.mpr h0]
    rfl
  exact ⟨hprint, RoundTrips.intro ha hprint (bind_eq_of_eq hrun rfl) hb.normalized hval⟩

theorem dec_roundTrips {a : FklBigInt} (ha : a.Normalized) (h0 : a.num ≠ 0)
    (flags : FklBigIntFmtFlags) :
    (∃ out, fklBigIntToStr a 10 flags = some out ∧ out.2.length = out.1) ∧
      RoundTrips a 10 flags := by
  have hnz : a.is0 ≠ true := fun h => h0 (ha.mag_eq_zero.mp (ha.is0_iff.mp h))
  obtain ⟨out, ds, hprint, hout⟩ := bigintToDecStringBuffer_spec ha h0
  have hprint' : fklBigIntToStr a 10 flags = some out :=
    (if_neg hnz).trans ((if_pos rfl).trans hprint)
  have htext := hout.text_eq
  rw [signText_eq, List.nil_append] at htext
  obtain ⟨hhex, hoct, hskip, hneg⟩ := classify_dec (n := decide (a.num < 0)) (p := false)
    hout.ne_nil hout.digit_lt hout.head_ne
  obtain ⟨b, hrun, hb⟩ := decLoop_spec (forall_digitText false fun d hd =>
    fklIsDigit_digitChar false d (hout.digit_lt d hd)) growing_zero
  rw [map_digitValue fun d hd => (hout.digit_lt d hd).trans (by decide), hout.value, Nat.zero_mul,
    Nat.zero_add] at hb
  obtain ⟨hnorm, hval⟩ := applySign_spec (decide (a.num < 0)) hb.toIsNat
  rw [signedNat_mag] at hval
  refine ⟨⟨out, hprint', hout.length_eq.symm⟩, RoundTrips.intro ha hprint' ?_ hnorm hval⟩
  rw [htext, fklInitBigIntWithCharBuf, if_neg (by rw [hhex]; decide),
    if_neg (by rw [hoct]; decide), fklInitBigIntWithDecCharBuf, hskip, hneg]
  exact bind_eq_of_eq hrun rfl

theorem hex_roundTrips {a : FklBigInt} (ha : a.Normalized) (h0 : a.num ≠ 0) (capitals : Bool) :
    (∃ out, fklBigIntToStr a 16 ⟨true, capitals⟩ = some out ∧ out.2.length = out.1) ∧
      RoundTrips a 16 ⟨true, capitals⟩ := by
  have hnz : a.is0 ≠ true := fun h => h0 (ha.mag_eq_zero.mp (ha.is0_iff.mp h))
  obtain ⟨x, hx, halt⟩ : ∃ x, (x = 'x' ∨ x = 'X') ∧
      (if capitals then ['0', 'X'] else ['0', 'x']) = ['0', x] := by
    cases capitals
    · exact ⟨'x', Or.inl rfl, rfl⟩
    · exact ⟨'X', Or.inr rfl, rfl⟩
  obtain ⟨out, ds, hprint, hout⟩ := bigintToBinStringBuffer_spec (w := hexBitCount) ha h0
    (by decide) (by decide) capitals ['0', x]
  have hprint' : fklBigIntToStr a 16 ⟨true, capitals⟩ = some out := by
    unfold fklBigIntToStr
    rw [if_neg hnz, if_neg (by decide), if_neg (by decide), if_pos rfl, halt]
    exact hprint
  have htext := hout.text_eq
  rw [signText_eq] at htext
  obtain ⟨hskip, hneg⟩ := skipSign_signText (n := decide (a.num < 0)) (c := '0')
    (l := x :: digitText capitals ds) (by decide) (by decide)
  have hdigits : hexText (signText (decide (a.num < 0)) ++ '0' :: x :: digitText capitals ds) =
      digitText capitals ds := by
    rw [hexText, hskip]
    exact dropWhile_digitText hout.digit_lt hout.head_ne
  obtain ⟨b, hparse, hnorm, hval⟩ := hexBuild_spec bigInt0.digits false (decide (a.num < 0))
    (digitValue_lt_of_mem capitals le_rfl hout.digit_lt)
  rw [map_digitValue hout.digit_lt, show numeral 16 ds = a.mag from hout.value,
    signedNat_mag] at hval
  refine ⟨⟨out, hprint', hout.length_eq.symm⟩, RoundTrips.intro ha hprint' ?_ hnorm hval⟩
  rw [htext]
  refine (if_pos (fklIsHexInt_hex hout.ne_nil hout.digit_lt hx)).trans ?_
  rw [fklInitBigIntWithHexCharBuf_eq]
  exact (congrArg₂ _ hneg hdigits).trans hparse

theorem oct_roundTrips_iff {a : FklBigInt} (ha : a.Normalized) (h0 : a.num ≠ 0)
    (capitals : Bool) :
    (∃ out, fklBigIntToStr a 8 ⟨true, capitals⟩ = some out ∧ out.2.length = out.1) ∧
      (RoundTrips a 8 ⟨true, capitals⟩ ↔ ¬2 ^ 27 ≤ a.digits (a.num.natAbs - 1)) := by
  have hnz : a.is0 ≠ true := fun h => h0 (ha.mag_eq_zero.mp (ha.is0_iff.mp h))
  obtain ⟨out, ds, hprint, hout⟩ := bigintToBinStringBuffer_spec (w := octBitCount) ha h0
    (by decide) (by decide) capitals ['0']
  have hprint' : fklBigIntToStr a 8 ⟨true, capitals⟩ = some out := by
    unfold fklBigIntToStr
    rw [if_neg hnz, if_neg (by decide), if_pos rfl]
    exact hprint
  have htext := hout.text_eq
  rw [signText_eq] at htext
  obtain ⟨hskip, hneg⟩ := skipSign_signText (n := decide (a.num < 0)) (c := '0')
    (l := digitText capitals ds) (by decide) (by decide)
  have hlt16 : ∀ d ∈ ds, d < 16 := fun d hd => (hout.digit_lt d hd).trans (by decide)
  have hdigits : octText (signText (decide (a.num < 0)) ++ '0' :: digitText capitals ds) =
      digitText capitals ds := by
    rw [octText, hskip, List.drop_one, List.tail_cons]
    exact dropWhile_digitText hlt16 hout.head_ne
  obtain ⟨hfail, hread⟩ := octBuild_spec bigInt0.digits false (decide (a.num < 0))
    (digitValue_lt_of_mem capitals (by decide) hout.digit_lt)
  rw [map_digitValue hlt16, show numeral 8 ds = a.mag from hout.value, signedNat_mag] at hread
  rw [show (digitText capitals ds).length = ds.length from List.length_map _] at hfail hread
  have hparse : fklInitBigIntWithCharBuf out.2 =
      octBuild bigInt0.digits false (decide (a.num < 0)) (digitText capitals ds) := by
    rw [htext]
    refine (if_neg (ne_true_of_eq_false (fklIsHexInt_oct hout.digit_lt))).trans
      ((if_pos (fklIsOctInt_oct hout.ne_nil hout.digit_lt)).trans ?_)
    rw [fklInitBigIntWithOctCharBuf_eq]
    exact congrArg₂ _ hneg hdigits
  refine ⟨⟨out, hprint', hout.length_eq.symm⟩, ?_⟩
  rw [← octal_length ha h0 hout.ne_nil hout.digit_lt hout.head_ne hout.value]
  constructor
  · rintro ⟨len, text, b, hp, hr, _⟩ hmod
    obtain rfl := Option.some.inj (hprint'.symm.trans hp)
    rw [hparse, hfail (mt List.map_eq_nil_iff.mp hout.ne_nil) hmod] at hr
    cases hr
  · intro hmod
    obtain ⟨b, hrun, hnorm, hval⟩ := hread fun _ => hmod
    exact RoundTrips.intro ha hprint' (hparse.trans hrun) hnorm hval

/-- Every printed text has the length asked for; it is read back, except in octal when the
top word has ten octal digits. -/
theorem fklInitBigIntWithCharBuf_fklBigIntToStr_iff (a : FklBigInt) (radix : Nat)
    (flags : FklBigIntFmtFlags) (ha : a.Normalized)
    (hr : radix = 10 ∨ (radix = 8 ∨ radix = 16) ∧ flags.alternate = true) :
    (∃ out, fklBigIntToStr a radix flags = some out ∧ out.2.length = out.1) ∧
      (RoundTrips a radix flags ↔
        ¬(radix = 8 ∧ a.num ≠ 0 ∧ 2 ^ 27 ≤ a.digits (a.num.natAbs - 1))) := by
  by_cases h0 : a.num = 0
  · obtain ⟨hprint, hrt⟩ := zero_roundTrips ha h0 radix flags
    exact ⟨⟨_, hprint, rfl⟩, iff_of_true hrt (fun h => h.2.1 h0)⟩
  · obtain ⟨alternate, capitals⟩ := flags
    rcases hr with rfl | ⟨rfl | rfl, halt⟩
    · obtain ⟨hlen, hrt⟩ := dec_roundTrips ha h0 ⟨alternate, capitals⟩
      exact ⟨hlen, iff_of_true hrt (fun h => absurd h.1 (by decide))⟩
    · obtain rfl : alternate = true := halt
      obtain ⟨hlen, hiff⟩ := oct_roundTrips_iff ha h0 capitals
      refine ⟨hlen, hiff.trans (not_congr ?_)⟩
      exact ⟨fun h => ⟨rfl, h0, h⟩, fun h => h.2.2⟩
    · obtain rfl : alternate = true := halt
      obtain ⟨hlen, hrt⟩ := hex_roundTrips ha h0 capitals
      exact ⟨hlen, iff_of_true hrt (fun h => absurd h.1 (by decide))⟩

/-- `2²⁷` is the least number of ten octal digits. -/
def tenOctalDigits : FklBigInt := ⟨fun _ => 2 ^ 27, 1, 1, false⟩

theorem tenOctalDigits_normalized : tenOctalDigits.Normalized where
  digit_lt := by decide
  num_le := by decide
  top_ne := by decide

theorem tenOctalDigits_iff :
    (∃ out, fklBigIntToStr tenOctalDigits 8 ⟨true, false⟩ = some out ∧ out.2.length = out.1) ∧
      (RoundTrips tenOctalDigits 8 ⟨true, false⟩ ↔ ¬(8 = 8 ∧ tenOctalDigits.num ≠ 0 ∧
        2 ^ 27 ≤ tenOctalDigits.digits (tenOctalDigits.num.natAbs - 1))) :=
  fklInitBigIntWithCharBuf_fklBigIntToStr_iff tenOctalDigits 8 ⟨true, false⟩
    tenOctalDigits_normalized (Or.inr ⟨Or.inl rfl, rfl⟩)

theorem tenOctalDigits_not_read :
    tenOctalDigits.Normalized ∧
      fklBigIntToStr tenOctalDigits 8 ⟨true, false⟩ = some (11, "01000000000".toList) ∧
      fklInitBigIntWithCharBuf "01000000000".toList = none ∧
      ¬RoundTrips tenOctalDigits 8 ⟨true, false⟩ := by
  have hprint : fklBigIntToStr tenOctalDigits 8 ⟨true, false⟩ =
      some (11, "01000000000".toList) := by decide
  have hread : (fklInitBigIntWithCharBuf "01000000000".toList).isNone = true := by decide
  rw [Option.isNone_iff_eq_none] at hread
  refine ⟨tenOctalDigits_normalized, hprint, hread, ?_⟩
  rintro ⟨len, text, b, hp, hr, _⟩
  obtain ⟨rfl, rfl⟩ := Prod.mk.inj (Option.some.inj (hprint.symm.trans hp))
  rw [hread] at hr
  cases hr

end FakeLisp
