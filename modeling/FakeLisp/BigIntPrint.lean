import FakeLisp.BigIntDiv
import FakeLisp.Positional

/-! Printing. A buffer is filled from its end, so the text written so far is a list
that grows at its head; the buffer is full when it has the requested length. -/

namespace FakeLisp

structure FklBigIntFmtFlags where
  alternate : Bool
  capitals : Bool

def decimalShift : Nat := 9

def decimalBase : Nat := 1000000000

/-- `cdigit + '0'`, or the letter for a digit from ten on. -/
def digitChar (capitals : Bool) (d : Nat) : Char :=
  Char.ofNat (d + (if d < 10 then 48 else (if capitals then 65 else 97) - 10))

/-- The inner loop of the base conversion: `pout * 2³⁰ + hi`, limb by limb. -/
def decMulAdd : List Nat → Nat → List Nat × Nat
  | [], hi => ([], hi)
  | x :: pout, hi =>
    let z := twoDigits x hi
    let q := z / decimalBase
    let (rest, top) := decMulAdd pout q
    ((z - q * decimalBase) :: rest, top)

/-- `while (hi)`: push the limbs of `hi`; `none` when one would not fit the block. -/
def decPush (capacity : Nat) : Nat → Nat → List Nat → Option (List Nat)
  | 0, hi, pout => if hi = 0 then some pout else none
  | fuel + 1, hi, pout =>
    if hi = 0 then some pout
    else if pout.length < capacity then
      decPush capacity fuel (hi / decimalBase) (pout ++ [hi % decimalBase])
    else none

/-- The limbs of base `10⁹` of the words below `i`, appended to those already converted. -/
def decConvert (digits : Nat → Nat) (capacity : Nat) : Nat → List Nat → Option (List Nat)
  | 0, pout => some pout
  | i + 1, pout => do
    let s := decMulAdd pout (digits i)
    let pout ← decPush capacity 4 s.2 s.1
    decConvert digits capacity i pout

/-- `while (rem >= tenpow)`: the digits of `rem` beyond the first. -/
def countTenpow : Nat → Nat → Nat → Nat → Nat
  | 0, _, _, len => len
  | fuel + 1, tenpow, rem, len =>
    if tenpow ≤ rem then countTenpow fuel (u32 (tenpow * 10 : Nat)) rem (len + 1) else len

def writeLimb : Nat → Nat → List Char → List Char
  | 0, _, text => text
  | n + 1, rem, text => writeLimb n (rem / 10) (digitChar false (rem % 10) :: text)

/-- The `do` loop that writes the top limb: a `uint32_t` has at most ten digits. -/
def writeTop : Nat → Nat → List Char → Option (List Char)
  | 0, _, _ => none
  | fuel + 1, rem, text =>
    let text := digitChar false (rem % 10) :: text
    if rem / 10 ≠ 0 then writeTop fuel (rem / 10) text else some text

def writeLimbs : List Nat → List Char → Option (List Char)
  | [], text => some text
  | [rem], text => writeTop 10 rem text
  | rem :: pout, text => writeLimbs pout (writeLimb decimalShift rem text)

/-- The length asked of the allocator and the text written into the buffer. -/
def bigintToDecStringBuffer (a : FklBigInt) : Option (Nat × List Char) := do
  fklAssert (a.num ≠ 0)
  let sizeA := (fklAbs a.num).toNat
  let d := (33 * decimalShift) / (10 * digitShift - 33 * decimalShift)
  let pout ← decConvert a.digits (1 + sizeA + sizeA / d) sizeA []
  let pout := if pout = [] then [0] else pout
  let neg := if a.num < 0 then 1 else 0
  let len := countTenpow 10 10 (pout.getLastD 0) (neg + 1 + (pout.length - 1) * decimalShift)
  let text ← writeLimbs pout []
  some (len, if a.num < 0 then '-' :: text else text)

/-- `i < size_a - 1 ? accumbits >= bits : accum > 0` -/
def emitMore (bits : Nat) (last : Bool) (accum : Nat) (accumbits : Int) : Bool :=
  if last then 0 < accum else (bits : Int) ≤ accumbits

/-- The `do` loop of `bigint_to_bin_string_buffer`; a `uint64_t` is empty after 64 rounds. -/
def emitDigits (bits : Nat) (capitals last : Bool) :
    Nat → Nat → Int → List Char → Option (Nat × Int × List Char)
  | 0, _, _, _ => none
  | fuel + 1, accum, accumbits, text =>
    let text := digitChar capitals (accum &&& (2 ^ bits - 1)) :: text
    let accumbits := accumbits - bits
    let accum := accum >>> bits
    if emitMore bits last accum accumbits then
      emitDigits bits capitals last fuel accum accumbits text
    else some (accum, accumbits, text)

/-- Words `i` to `sizeA` of the loop over the digits. -/
def emitWords (digits : Nat → Nat) (sizeA bits : Nat) (capitals : Bool) :
    Nat → Nat → Nat → Int → List Char → Option (List Char)
  | 0, _, _, _, text => some text
  | n + 1, i, accum, accumbits, text => do
    let accum := accum ||| u64 (digits i <<< accumbits.toNat : Nat)
    let accumbits := accumbits + digitShift
    fklAssert ((bits : Int) ≤ accumbits)
    let (accum, accumbits, text) ←
      emitDigits bits capitals (decide (sizeA ≤ i + 1)) 64 accum accumbits text
    emitWords digits sizeA bits capitals n (i + 1) accum accumbits text

def hexBitCount : Nat := 4

def octBitCount : Nat := 3

/-- `bits` is `HEX_BIT_COUNT` for base 16 and `OCT_BIT_COUNT` for base 8. -/
def bigintToBinStringBuffer (a : FklBigInt) (bits : Nat) (flags : FklBigIntFmtFlags)
    (altStr : List Char) : Option (Nat × List Char) := do
  fklAssert (a.num ≠ 0)
  let sizeA := (fklAbs a.num).toNat
  let neg := if a.num < 0 then 1 else 0
  let sizeAInBits := (sizeA - 1) * digitShift + bitLengthDigit (a.digits (sizeA - 1))
  let sz := neg + (sizeAInBits + (bits - 1)) / bits
  let sz := if flags.alternate then sz + altStr.length else sz
  let text ← emitWords a.digits sizeA bits flags.capitals sizeA 0 0 0 []
  let text := if flags.alternate then altStr ++ text else text
  some (sz, if a.num < 0 then '-' :: text else text)

def fklBigIntToStr (a : FklBigInt) (radix : Nat) (flags : FklBigIntFmtFlags) :
    Option (Nat × List Char) :=
  if a.is0 then some (1, ['0'])
  else if radix = 10 then bigintToDecStringBuffer a
  else if radix = 8 then bigintToBinStringBuffer a octBitCount flags ['0']
  else if radix = 16 then
    bigintToBinStringBuffer a hexBitCount flags (if flags.capitals then ['0', 'X'] else ['0', 'x'])
  else none

/-- The characters of a list of digits. -/
def digitText (capitals : Bool) (ds : List Nat) : List Char := ds.map (digitChar capitals)

/-- `text` is a numeral of `n` without leading zeros, in front of `rest`. -/
structure Written (capitals : Bool) (b n : Nat) (ds : List Nat) (text rest : List Char) : Prop where
  text_eq : text = digitText capitals ds ++ rest
  digit_lt : ∀ d ∈ ds, d < b
  head_ne : ds.head? ≠ some 0
  ne_nil : ds ≠ []
  value : numeral b ds = n

theorem Written.length_eq {p : Bool} {b n : Nat} {ds : List Nat} {text r : List Char}
    (h : Written p b n ds text r) : ds.length = Nat.log b n + 1 := by
  obtain ⟨d, es, rfl⟩ := List.exists_cons_of_ne_nil h.ne_nil
  have hd : d ≠ 0 := fun h0 => h.head_ne (by simp [h0])
  rw [← h.value, ← length_eq_log hd h.digit_lt]
  rfl

/-! Decimal limbs. -/

theorem decimalBase_eq : decimalBase = 10 ^ 9 := by decide

/-- `pout` holds `V`, without a leading zero limb. -/
structure Limbs (pout : List Nat) (V : Nat) : Prop where
  limb_lt : ∀ x ∈ pout, x < decimalBase
  value : Nat.ofDigits decimalBase pout = V
  le : pout ≠ [] → decimalBase ^ (pout.length - 1) ≤ V

/-- The carry out of a limb is a digit when the carry into it is. -/
theorem limb_carry_lt {x hi : Nat} (hx : x < decimalBase) (hhi : hi < digitBase) :
    (x * digitBase + hi) / decimalBase < digitBase := by
  rw [Nat.div_lt_iff_lt_mul (by decide)]
  calc x * digitBase + hi < (x + 1) * digitBase := by rw [Nat.add_mul]; omega
    _ ≤ decimalBase * digitBase := Nat.mul_le_mul_right _ hx
    _ = digitBase * decimalBase := Nat.mul_comm _ _

theorem decMulAdd_spec (pout : List Nat) (hi : Nat) (hp : ∀ x ∈ pout, x < decimalBase)
    (hhi : hi < digitBase) :
    let s := decMulAdd pout hi
    (∀ x ∈ s.1, x < decimalBase) ∧ s.1.length = pout.length ∧ s.2 < digitBase ∧
      Nat.ofDigits decimalBase s.1 + decimalBase ^ pout.length * s.2 =
        digitBase * Nat.ofDigits decimalBase pout + hi := by
  induction pout generalizing hi with
  | nil => exact ⟨by simp [decMulAdd], rfl, hhi, by simp [decMulAdd]⟩
  | cons x pout ih =>
    have hx := hp x List.mem_cons_self
    have hD : 0 < decimalBase := by decide
    have hq := limb_carry_lt hx hhi
    obtain ⟨hlt, hlen, htop, hsum⟩ := ih _ (fun y hy => hp y (List.mem_cons_of_mem x hy)) hq
    have hz := Nat.div_add_mod (x * digitBase + hi) decimalBase
    have hlow : x * digitBase + hi - (x * digitBase + hi) / decimalBase * decimalBase =
        (x * digitBase + hi) % decimalBase := by
      rw [Nat.mul_comm _ decimalBase]
      omega
    simp only [decMulAdd, twoDigits_eq hhi, hlow]
    refine ⟨fun y hy => ?_, by simpa using hlen, htop, ?_⟩
    · rcases List.mem_cons.mp hy with rfl | hy
      · exact Nat.mod_lt _ hD
      · exact hlt y hy
    · generalize decMulAdd pout ((x * digitBase + hi) / decimalBase) = s at hsum
      generalize (x * digitBase + hi) / decimalBase = q at hsum hz
      rw [Nat.ofDigits_cons, Nat.ofDigits_cons, List.length_cons, pow_succ']
      calc (x * digitBase + hi) % decimalBase + decimalBase * Nat.ofDigits decimalBase s.1 +
            decimalBase * decimalBase ^ pout.length * s.2
          = (x * digitBase + hi) % decimalBase + decimalBase *
            (Nat.ofDigits decimalBase s.1 + decimalBase ^ pout.length * s.2) := by ring
        _ = decimalBase * q + (x * digitBase + hi) % decimalBase +
            decimalBase * (digitBase * Nat.ofDigits decimalBase pout) := by
            rw [hsum]
            ring
        _ = _ := by
            rw [hz]
            ring

theorem decPush_spec {capacity V : Nat} (hcap : ∀ l, decimalBase ^ l ≤ V → l < capacity)
    (fuel hi : Nat) (pout : List Nat) (hp : ∀ x ∈ pout, x < decimalBase)
    (hhi : hi < decimalBase ^ fuel)
    (hV : Nat.ofDigits decimalBase pout + decimalBase ^ pout.length * hi = V)
    (hle : pout ≠ [] → decimalBase ^ (pout.length - 1) ≤ V) :
    ∃ pout', decPush capacity fuel hi pout = some pout' ∧ Limbs pout' V := by
  induction fuel generalizing hi pout with
  | zero =>
    have h0 : hi = 0 := by simpa using hhi
    exact ⟨pout, by simp [decPush, h0], hp, by simpa [h0] using hV, hle⟩
  | succ fuel ih =>
    unfold decPush
    by_cases h0 : hi = 0
    · exact ⟨pout, by simp [h0], hp, by simpa [h0] using hV, hle⟩
    · have hD : 0 < decimalBase := by decide
      have hpow : decimalBase ^ pout.length ≤ V := by
        calc decimalBase ^ pout.length = decimalBase ^ pout.length * 1 := (Nat.mul_one _).symm
          _ ≤ decimalBase ^ pout.length * hi := Nat.mul_le_mul_left _ (Nat.pos_of_ne_zero h0)
          _ ≤ V := by omega
      rw [if_neg h0, if_pos (hcap _ hpow)]
      refine ih (hi / decimalBase) (pout ++ [hi % decimalBase]) (fun x hx => ?_) ?_ ?_ ?_
      · rcases List.mem_append.mp hx with hx | hx
        · exact hp x hx
        · rw [List.mem_singleton.mp hx]
          exact Nat.mod_lt _ hD
      · rw [Nat.div_lt_iff_lt_mul hD]
        rwa [pow_succ] at hhi
      · have hdm := Nat.mod_add_div hi decimalBase
        rw [Nat.ofDigits_append, Nat.ofDigits_singleton, List.length_append, List.length_singleton,
          pow_succ, ← hV]
        calc Nat.ofDigits decimalBase pout + decimalBase ^ pout.length * (hi % decimalBase) +
              decimalBase ^ pout.length * decimalBase * (hi / decimalBase)
            = Nat.ofDigits decimalBase pout + decimalBase ^ pout.length *
              (hi % decimalBase + decimalBase * (hi / decimalBase)) := by ring
          _ = _ := by rw [hdm]
      · intro _
        rw [List.length_append, List.length_singleton, Nat.add_sub_cancel]
        exact hpow

theorem decConvert_spec {d : Nat → Nat} {n capacity : Nat} (hd : ∀ i < n, d i < digitBase)
    (hcap : ∀ l, decimalBase ^ l ≤ positional digitBase d n → l < capacity) (i : Nat)
    (hi : i ≤ n) (pout : List Nat) (hp : Limbs pout (positional digitBase (wordsFrom i d) (n - i))) :
    ∃ pout', decConvert d capacity i pout = some pout' ∧
      Limbs pout' (positional digitBase d n) := by
  induction i generalizing pout with
  | zero => exact ⟨pout, rfl, by rwa [wordsFrom_zero, Nat.sub_zero] at hp⟩
  | succ i ih =>
    have hV := positional_wordsFrom_succ digitBase i (n - (i + 1)) d
    rw [show n - (i + 1) + 1 = n - i by omega] at hV
    have hdi := hd i (by omega)
    obtain ⟨hlt, hlen, htop, hsum⟩ := decMulAdd_spec pout (d i) hp.limb_lt hdi
    generalize hs : decMulAdd pout (d i) = s at hlt hlen htop hsum
    have hVle : positional digitBase (wordsFrom i d) (n - i) ≤ positional digitBase d n := by
      have hsplit := positional_add digitBase d i (n - i)
      rw [Nat.add_sub_cancel' (by omega)] at hsplit
      rw [hsplit]
      calc positional digitBase (wordsFrom i d) (n - i)
          = 1 * positional digitBase (wordsFrom i d) (n - i) := (Nat.one_mul _).symm
        _ ≤ digitBase ^ i * positional digitBase (wordsFrom i d) (n - i) :=
            Nat.mul_le_mul_right _ (Nat.pow_pos digitBase_pos)
        _ ≤ _ := Nat.le_add_left _ _
    have hval : Nat.ofDigits decimalBase s.1 + decimalBase ^ s.1.length * s.2 =
        positional digitBase (wordsFrom i d) (n - i) := by
      rw [hlen, hsum, hp.value, hV]
      ring
    obtain ⟨pout1, hpush, hlimbs⟩ := decPush_spec (fun l hl => hcap l (hl.trans hVle)) 4 s.2 s.1 hlt
      (htop.trans (by decide)) hval (fun hne => by
        have hne' : pout ≠ [] := by
          intro h
          rw [h, List.length_nil] at hlen
          exact hne (List.length_eq_zero_iff.mp hlen)
        have hge := hp.le hne'
        rw [hlen, hV]
        have : digitBase * positional digitBase (wordsFrom (i + 1) d) (n - (i + 1)) ≥
            1 * positional digitBase (wordsFrom (i + 1) d) (n - (i + 1)) :=
          Nat.mul_le_mul_right _ digitBase_pos
        omega)
    obtain ⟨pout', hconv, hfinal⟩ := ih (by omega) pout1 hlimbs
    refine ⟨pout', ?_, hfinal⟩
    rw [decConvert]
    exact bind_eq_of_eq (by rw [hs]; exact hpush) hconv

/-- The block is large enough: `10¹⁰ > 2³³`. -/
theorem dec_capacity {l n V : Nat} (hl : decimalBase ^ l ≤ V) (hV : V < digitBase ^ n) :
    l < 1 + n + n / 99 := by
  by_contra hge
  have hk : 300 * n ≤ 297 * (n + n / 99 + 1) := by omega
  have hlt : (decimalBase ^ (n + n / 99 + 1)) ^ 10 < (digitBase ^ n) ^ 10 := by
    apply Nat.pow_lt_pow_left _ (by decide)
    calc decimalBase ^ (n + n / 99 + 1) ≤ decimalBase ^ l :=
          Nat.pow_le_pow_right (by decide) (by omega)
      _ ≤ V := hl
      _ < digitBase ^ n := hV
  have hbase : digitBase = 2 ^ 30 := by decide
  have hge' : (digitBase ^ n) ^ 10 ≤ (decimalBase ^ (n + n / 99 + 1)) ^ 10 := by
    calc (digitBase ^ n) ^ 10 = 2 ^ (300 * n) := by
          rw [hbase, ← pow_mul, ← pow_mul]
          congr 1
          ring
      _ ≤ 2 ^ (297 * (n + n / 99 + 1)) := Nat.pow_le_pow_right (by decide) hk
      _ = (2 ^ 33) ^ (9 * (n + n / 99 + 1)) := by
          rw [← pow_mul]
          congr 1
          ring
      _ ≤ (10 ^ 10) ^ (9 * (n + n / 99 + 1)) := Nat.pow_le_pow_left (by decide) _
      _ = (decimalBase ^ (n + n / 99 + 1)) ^ 10 := by
          rw [decimalBase_eq, ← pow_mul, ← pow_mul, ← pow_mul]
          congr 1
          ring
  omega

theorem digitText_append (capitals : Bool) (ds es : List Nat) :
    digitText capitals (ds ++ es) = digitText capitals ds ++ digitText capitals es :=
  List.map_append

theorem writeLimb_spec (n rem : Nat) (text : List Char) :
    ∃ ds, writeLimb n rem text = digitText false ds ++ text ∧ ds.length = n ∧
      (∀ d ∈ ds, d < 10) ∧ numeral 10 ds = rem % 10 ^ n := by
  induction n generalizing rem text with
  | zero => exact ⟨[], rfl, rfl, by simp, by simp [Nat.mod_one]⟩
  | succ n ih =>
    obtain ⟨ds, htext, hlen, hlt, hval⟩ := ih (rem / 10) (digitChar false (rem % 10) :: text)
    refine ⟨ds ++ [rem % 10], ?_, by simp [hlen], fun d hd => ?_, ?_⟩
    · rw [writeLimb, htext, digitText_append, List.append_assoc]
      rfl
    · rcases List.mem_append.mp hd with hd | hd
      · exact hlt d hd
      · rw [List.mem_singleton.mp hd]
        exact Nat.mod_lt _ (by decide)
    · rw [numeral_append, hval, pow_succ', Nat.mod_mul, List.length_singleton, pow_one,
        numeral_cons]
      simp only [List.length_nil, pow_zero, mul_one, numeral_nil, add_zero]
      ring

theorem writeTop_spec (fuel rem : Nat) (text : List Char) (h0 : rem ≠ 0) (h : rem < 10 ^ fuel) :
    ∃ ds text', writeTop fuel rem text = some text' ∧ Written false 10 rem ds text' text := by
  induction fuel generalizing rem text with
  | zero =>
    rw [pow_zero] at h
    omega
  | succ fuel ih =>
    unfold writeTop
    dsimp only
    by_cases hr : rem / 10 = 0
    · rw [if_neg (not_not.mpr hr)]
      refine ⟨[rem % 10], _, rfl, rfl, ?_, ?_, by simp, ?_⟩
      · intro d hd
        rw [List.mem_singleton.mp hd]
        exact Nat.mod_lt _ (by decide)
      · simp only [List.head?_cons, ne_eq, Option.some.injEq]
        omega
      · rw [numeral_cons, List.length_nil, pow_zero, numeral_nil]
        omega
    · rw [if_pos hr]
      obtain ⟨ds, text', htop, hw⟩ := ih (rem / 10) (digitChar false (rem % 10) :: text) hr
        (by rw [pow_succ] at h; omega)
      refine ⟨ds ++ [rem % 10], text', htop, ?_, fun d hd => ?_, ?_, by simp, ?_⟩
      · rw [hw.text_eq, digitText_append, List.append_assoc]
        rfl
      · rcases List.mem_append.mp hd with hd | hd
        · exact hw.digit_lt d hd
        · rw [List.mem_singleton.mp hd]
          exact Nat.mod_lt _ (by decide)
      · rw [List.head?_append_of_ne_nil _ hw.ne_nil]
        exact hw.head_ne
      · rw [numeral_append, hw.value, numeral_cons, List.length_singleton, List.length_nil,
          pow_zero, pow_one, numeral_nil]
        omega

/-- Digits `es` written below those of `n`. -/
theorem Written.below {capitals : Bool} {b n : Nat} {ds l : List Nat}
    {text mid r : List Char} (h : Written capitals b n ds text mid)
    (hmid : mid = digitText capitals l ++ r) (hes : ∀ d ∈ l, d < b) :
    Written capitals b (n * b ^ l.length + numeral b l) (ds ++ l) text r where
  text_eq := by rw [h.text_eq, hmid, digitText_append, List.append_assoc]
  digit_lt := fun d hd => (List.mem_append.mp hd).elim (h.digit_lt d) (hes d)
  head_ne := by
    rw [List.head?_append_of_ne_nil _ h.ne_nil]
    exact h.head_ne
  ne_nil := by simp [h.ne_nil]
  value := by rw [numeral_append, h.value]

theorem writeLimbs_spec (pout : List Nat) (text : List Char) (hne : pout ≠ [])
    (hlt : ∀ x ∈ pout, x < decimalBase) (htop : pout.getLastD 0 ≠ 0) :
    ∃ ds text', writeLimbs pout text = some text' ∧
      Written false 10 (Nat.ofDigits decimalBase pout) ds text' text ∧
      ds.length = (pout.length - 1) * decimalShift + (Nat.log 10 (pout.getLastD 0) + 1) := by
  induction pout generalizing text with
  | nil => exact absurd rfl hne
  | cons rem pout ih =>
    have hrem := hlt rem List.mem_cons_self
    cases pout with
    | nil =>
      obtain ⟨ds, text', htext, hw⟩ := writeTop_spec 10 rem text htop
        (hrem.trans (by decide))
      refine ⟨ds, text', htext, by rwa [Nat.ofDigits_singleton], ?_⟩
      rw [hw.length_eq]
      simp
    | cons x pout =>
      obtain ⟨es, hes, heslen, heslt, hesval⟩ := writeLimb_spec decimalShift rem text
      obtain ⟨ds, text', htext, hw, hlen⟩ := ih (writeLimb decimalShift rem text) (by simp)
        (fun y hy => hlt y (List.mem_cons_of_mem rem hy)) htop
      refine ⟨ds ++ es, text', htext, ?_, ?_⟩
      · have hbelow := hw.below hes heslt
        rw [heslen, hesval, Nat.mod_eq_of_lt (hrem.trans_eq (by decide))] at hbelow
        rw [Nat.ofDigits_cons]
        convert hbelow using 1
        rw [show (10 : Nat) ^ decimalShift = decimalBase from rfl]
        ring
      · rw [List.length_append, hlen, heslen]
        simp only [List.length_cons, Nat.add_sub_cancel, List.getLastD_cons]
        ring

/-- The loop over powers of ten counts the digits beyond the first. -/
theorem countTenpow_spec (fuel j rem len : Nat) (hrem : rem < decimalBase) (hj : 10 ^ j ≤ rem)
    (hfuel : rem < 10 ^ (j + 1 + fuel)) :
    countTenpow fuel (10 ^ (j + 1)) rem len = len + (Nat.log 10 rem - j) := by
  induction fuel generalizing j len with
  | zero =>
    rw [Nat.add_zero] at hfuel
    rw [Nat.log_eq_of_pow_le_of_lt_pow hj hfuel]
    simp [countTenpow]
  | succ fuel ih =>
    unfold countTenpow
    by_cases hle : 10 ^ (j + 1) ≤ rem
    · have hj8 : j + 1 < 9 := (Nat.pow_lt_pow_iff_right (by decide : 1 < 10)).mp
        (hle.trans_lt (hrem.trans_eq decimalBase_eq))
      have hu : u32 (10 ^ (j + 1) * 10 : Nat) = 10 ^ (j + 1 + 1) := by
        rw [← pow_succ]
        apply toUnsigned_natCast
        calc 10 ^ (j + 1 + 1) ≤ 10 ^ 9 := Nat.pow_le_pow_right (by decide) (by omega)
          _ < 2 ^ 32 := by decide
      have hlog : j + 1 ≤ Nat.log 10 rem := Nat.le_log_of_pow_le (by decide) hle
      rw [if_pos hle, hu, ih (j + 1) (len + 1) hle (by rwa [show j + 1 + 1 + fuel = j + 1 + (fuel + 1) by omega])]
      omega
    · rw [if_neg hle, Nat.log_eq_of_pow_le_of_lt_pow hj (not_le.mp hle)]
      omega

theorem Limbs.top_ne {pout : List Nat} {V : Nat} (h : Limbs pout V) (hne : pout ≠ []) :
    pout.getLastD 0 ≠ 0 := by
  obtain ⟨init, x, rfl⟩ : ∃ init x, pout = init ++ [x] :=
    ⟨pout.dropLast, pout.getLast hne, (List.dropLast_append_getLast hne).symm⟩
  intro h0
  have hx : x = 0 := by simpa using h0
  have hlow : Nat.ofDigits decimalBase init < decimalBase ^ init.length :=
    Nat.ofDigits_lt_base_pow_length (by decide)
      (fun y hy => h.limb_lt y (List.mem_append_left _ hy))
  have hle := h.le hne
  rw [← h.value, Nat.ofDigits_append, Nat.ofDigits_singleton, hx, List.length_append,
    List.length_singleton, Nat.add_sub_cancel] at hle
  omega

/-- What a printer delivers: a sign, then `alt`, then the numeral of the magnitude; and the
length it asked for is the length it wrote. -/
structure Printed (a : FklBigInt) (capitals : Bool) (b : Nat) (alt : List Char)
    (out : Nat × List Char) (ds : List Nat) : Prop where
  length_eq : out.1 = out.2.length
  text_eq : out.2 = (if a.num < 0 then ['-'] else []) ++ (alt ++ digitText capitals ds)
  digit_lt : ∀ d ∈ ds, d < b
  head_ne : ds.head? ≠ some 0
  ne_nil : ds ≠ []
  value : numeral b ds = a.mag

theorem bigintToDecStringBuffer_spec {a : FklBigInt} (ha : a.Normalized) (h0 : a.num ≠ 0) :
    ∃ out ds, bigintToDecStringBuffer a = some out ∧ Printed a false 10 [] out ds := by
  have hmag : a.mag ≠ 0 := fun h => h0 (ha.mag_eq_zero.mp h)
  obtain ⟨pout, hconv, hlimbs⟩ := decConvert_spec (d := a.digits) ha.digit_lt
    (fun l hl => dec_capacity hl (positional_lt ha.digit_lt)) a.num.natAbs (le_refl _) []
    ⟨by simp, by simp, by simp⟩
  have hne : pout ≠ [] := by
    intro h
    have hval := hlimbs.value
    rw [h] at hval
    exact hmag hval.symm
  have htop := hlimbs.top_ne hne
  obtain ⟨ds, text, htext, hw, hlen⟩ := writeLimbs_spec pout [] hne hlimbs.limb_lt htop
  have htoplt : pout.getLastD 0 < decimalBase := by
    rw [List.getLastD_eq_getLast?, List.getLast?_eq_some_getLast hne]
    exact hlimbs.limb_lt _ (List.getLast_mem hne)
  have hcount := countTenpow_spec 10 0 (pout.getLastD 0)
    ((if a.num < 0 then 1 else 0) + 1 + (pout.length - 1) * decimalShift) htoplt
    (Nat.pos_of_ne_zero htop) (htoplt.trans (by decide))
  rw [Nat.sub_zero, zero_add, pow_one] at hcount
  refine ⟨((if a.num < 0 then 1 else 0) + 1 + (pout.length - 1) * decimalShift +
    Nat.log 10 (pout.getLastD 0), if a.num < 0 then '-' :: text else text), ds, ?_, ?_⟩
  · simp only [bigintToDecStringBuffer, fklAbs_toNat]
    refine bind_eq_of_eq (fklAssert_eq_some h0) (bind_eq_of_eq hconv ?_)
    rw [if_neg hne, hcount]
    exact bind_eq_of_eq htext rfl
  · have htext' : text = digitText false ds := by simpa using hw.text_eq
    have hdlen : (digitText false ds).length = ds.length := List.length_map _
    refine ⟨?_, ?_, hw.digit_lt, hw.head_ne, hw.ne_nil, hw.value.trans hlimbs.value⟩
    · dsimp only
      rw [htext']
      split <;> simp only [List.length_cons, hdlen, hlen] <;> omega
    · dsimp only
      rw [htext']
      split <;> rfl

/-! Bits. -/

theorem emitMore_false (w x : Nat) (a : Int) : emitMore w false x a = true ↔ (w : Int) ≤ a := by
  simp [emitMore]

theorem emitMore_true (w x : Nat) (a : Int) : emitMore w true x a = true ↔ 0 < x := by
  simp [emitMore]

/-- Before the last word the loop leaves fewer bits than a digit takes. -/
theorem emitDigits_spec {w : Nat} (hw : 0 < w) (capitals : Bool) (fuel accum a : Nat)
    (text : List Char) (hfuel : a ≤ fuel) (ha : w ≤ a) (hacc : accum < 2 ^ a) :
    ∃ (ds : List Nat) (accum' a' : Nat) (text' : List Char),
      emitDigits w capitals false fuel accum a text = some (accum', (a' : Int), text') ∧
      text' = digitText capitals ds ++ text ∧ (∀ d ∈ ds, d < 2 ^ w) ∧ a' < w ∧ accum' < 2 ^ a' ∧ a' + w * ds.length = a ∧
      accum' * (2 ^ w) ^ ds.length + numeral (2 ^ w) ds = accum := by
  induction fuel generalizing accum a text with
  | zero => omega
  | succ fuel ih =>
    unfold emitDigits
    dsimp only
    rw [Nat.and_two_pow_sub_one_eq_mod, Nat.shiftRight_eq_div_pow,
      show (a : Int) - w = ((a - w : Nat) : Int) by omega]
    have hlt : accum / 2 ^ w < 2 ^ (a - w) := by
      rw [Nat.div_lt_iff_lt_mul (Nat.two_pow_pos w), ← pow_add, Nat.sub_add_cancel ha]
      exact hacc
    have hd : accum % 2 ^ w < 2 ^ w := Nat.mod_lt _ (Nat.two_pow_pos w)
    have hdm := Nat.div_add_mod accum (2 ^ w)
    by_cases hmore : w ≤ a - w
    · obtain ⟨ds, accum', a', text', he, htext, hds, ha', hacc', hbits, hval⟩ :=
        ih (accum / 2 ^ w) (a - w) (digitChar capitals (accum % 2 ^ w) :: text) (by omega) hmore hlt
      refine ⟨ds ++ [accum % 2 ^ w], accum', a', text', ?_, ?_, fun d hd' => ?_, ha', hacc', ?_, ?_⟩
      · rw [if_pos ((emitMore_false _ _ _).mpr (by omega))]
        exact he
      · rw [htext, digitText_append, List.append_assoc]
        rfl
      · rcases List.mem_append.mp hd' with hd' | hd'
        · exact hds d hd'
        · rwa [List.mem_singleton.mp hd']
      · rw [List.length_append, List.length_singleton, Nat.mul_add, Nat.mul_one]
        omega
      · rw [numeral_append, numeral_cons, List.length_append, List.length_singleton,
          List.length_nil, pow_zero, pow_one, numeral_nil, pow_succ]
        calc accum' * ((2 ^ w) ^ ds.length * 2 ^ w) + (numeral (2 ^ w) ds * 2 ^ w +
              ((accum % 2 ^ w) * 1 + 0))
            = 2 ^ w * (accum' * (2 ^ w) ^ ds.length + numeral (2 ^ w) ds) + accum % 2 ^ w := by
              ring
          _ = accum := by rw [hval, hdm]
    · refine ⟨[accum % 2 ^ w], accum / 2 ^ w, a - w, _, ?_, rfl, fun d hd' => ?_, by omega, hlt,
        by rw [List.length_singleton]; omega, ?_⟩
      · rw [if_neg (mt (emitMore_false _ _ _).mp (by omega))]
        rfl
      · rwa [List.mem_singleton.mp hd']
      · rw [numeral_cons, List.length_singleton, List.length_nil, pow_zero, pow_one, numeral_nil,
          Nat.mul_one, Nat.add_zero, Nat.mul_comm]
        exact hdm

/-- In the last word it goes on until no bit is left. -/
theorem emitDigits_last {w : Nat} (hw : 0 < w) (capitals : Bool) (fuel accum : Nat) (a : Int)
    (text : List Char) (hfuel : accum < 2 ^ fuel) (h0 : accum ≠ 0) :
    ∃ ds accum' a' text', emitDigits w capitals true fuel accum a text =
        some (accum', a', text') ∧ Written capitals (2 ^ w) accum ds text' text := by
  induction fuel generalizing accum a text with
  | zero =>
    rw [pow_zero] at hfuel
    omega
  | succ fuel ih =>
    unfold emitDigits
    dsimp only
    rw [Nat.and_two_pow_sub_one_eq_mod, Nat.shiftRight_eq_div_pow]
    have hd : accum % 2 ^ w < 2 ^ w := Nat.mod_lt _ (Nat.two_pow_pos w)
    have hdm := Nat.div_add_mod accum (2 ^ w)
    by_cases hmore : accum / 2 ^ w = 0
    · rw [if_neg (mt (emitMore_true _ _ _).mp (by omega))]
      rw [hmore, Nat.mul_zero, Nat.zero_add] at hdm
      rw [hdm]
      refine ⟨[accum], _, _, _, rfl, rfl, ?_, ?_, by simp, ?_⟩
      · intro d hd'
        rwa [List.mem_singleton.mp hd', ← hdm]
      · simpa using h0
      · simp [numeral_cons]
    · have hlt : accum / 2 ^ w < 2 ^ fuel := by
        rw [Nat.div_lt_iff_lt_mul (Nat.two_pow_pos w)]
        calc accum < 2 ^ (fuel + 1) := hfuel
          _ = 2 ^ fuel * 2 ^ 1 := by rw [← pow_add]
          _ ≤ 2 ^ fuel * 2 ^ w := Nat.mul_le_mul_left _ (Nat.pow_le_pow_right (by decide) hw)
      obtain ⟨ds, accum', a', text', he, hwr⟩ := ih (accum / 2 ^ w) (a - w)
        (digitChar capitals (accum % 2 ^ w) :: text) hlt hmore
      rw [if_pos ((emitMore_true _ _ _).mpr (Nat.pos_of_ne_zero hmore))]
      refine ⟨ds ++ [accum % 2 ^ w], accum', a', text', he, ?_⟩
      have hbelow := hwr.below (l := [accum % 2 ^ w]) (r := text) rfl (fun d hd' => by
        rwa [List.mem_singleton.mp hd'])
      have hval : accum / 2 ^ w * (2 ^ w) ^ [accum % 2 ^ w].length +
          numeral (2 ^ w) [accum % 2 ^ w] = accum := by
        rw [numeral_cons, List.length_singleton, List.length_nil, pow_zero, pow_one, numeral_nil,
          Nat.mul_one, Nat.add_zero, Nat.mul_comm]
        exact hdm
      rwa [hval] at hbelow

/-- Before word `i`: the digits `ds` written and the `a` bits kept are the words below `i`. -/
structure EmitInv (d : Nat → Nat) (w i accum a : Nat) (ds : List Nat) : Prop where
  bits_lt : a < w
  accum_lt : accum < 2 ^ a
  digit_lt : ∀ e ∈ ds, e < 2 ^ w
  bits : a + w * ds.length = digitShift * i
  value : accum * (2 ^ w) ^ ds.length + numeral (2 ^ w) ds = positional digitBase d i

/-- Collecting `w` bits above those that are there. -/
theorem accum_or {accum a w x : Nat} (hacc : accum < 2 ^ a) (hx : x < 2 ^ w) (h64 : a + w ≤ 64) :
    accum ||| u64 (x <<< a : Nat) = x * 2 ^ a + accum ∧ x * 2 ^ a + accum < 2 ^ (a + w) := by
  have hlt : x * 2 ^ a + accum < 2 ^ (a + w) := by
    calc x * 2 ^ a + accum < (x + 1) * 2 ^ a := by rw [Nat.add_mul]; omega
      _ ≤ 2 ^ w * 2 ^ a := Nat.mul_le_mul_right _ hx
      _ = 2 ^ (a + w) := by rw [pow_add, Nat.mul_comm]
  refine ⟨?_, hlt⟩
  have hu : u64 (x <<< a : Nat) = x <<< a := by
    apply toUnsigned_natCast
    rw [Nat.shiftLeft_eq]
    calc x * 2 ^ a ≤ x * 2 ^ a + accum := Nat.le_add_right _ _
      _ < 2 ^ (a + w) := hlt
      _ ≤ 2 ^ 64 := Nat.pow_le_pow_right (by decide) h64
  rw [hu, Nat.lor_comm, ← Nat.shiftLeft_add_eq_or_of_lt hacc, Nat.shiftLeft_eq]

/-- The value once word `i` has been collected. -/
theorem EmitInv.collect {d : Nat → Nat} {w i accum a : Nat} {ds : List Nat}
    (h : EmitInv d w i accum a ds) :
    (d i * 2 ^ a + accum) * (2 ^ w) ^ ds.length + numeral (2 ^ w) ds =
      positional digitBase d (i + 1) := by
  have hpow : 2 ^ a * (2 ^ w) ^ ds.length = digitBase ^ i := by
    rw [← pow_mul, ← pow_add, h.bits, pow_mul]
    rfl
  rw [positional_succ, ← h.value, ← hpow]
  ring

theorem emitWords_spec {d : Nat → Nat} {n w : Nat} (hw : 0 < w) (hw4 : w ≤ 4) (capitals : Bool)
    (hd : ∀ i < n, d i < digitBase) (htop : d (n - 1) ≠ 0) (k i accum a : Nat) (ds : List Nat)
    (hk : i + (k + 1) = n) (h : EmitInv d w i accum a ds) :
    ∃ es text', emitWords d n w capitals (k + 1) i accum a (digitText capitals ds) = some text' ∧
      Written capitals (2 ^ w) (positional digitBase d n) es text' [] := by
  induction k generalizing i accum a ds with
  | zero =>
    have hbits := h.bits_lt
    obtain ⟨hor, hlt⟩ := accum_or (w := digitShift) h.accum_lt
      ((hd i (by omega)).trans_eq (by decide)) (by unfold digitShift; omega)
    have hcollect := h.collect
    have hdi : d i ≠ 0 := by rwa [show i = n - 1 by omega]
    have hpos : 0 < d i * 2 ^ a := Nat.mul_pos (Nat.pos_of_ne_zero hdi) (Nat.two_pow_pos a)
    obtain ⟨es, accum', a', text', he, hwr⟩ := emitDigits_last hw capitals 64
      (d i * 2 ^ a + accum) ((a : Int) + digitShift) (digitText capitals ds)
      (hlt.trans_le (Nat.pow_le_pow_right (by decide) (by unfold digitShift; omega))) (by omega)
    have hbelow := hwr.below (l := ds) (r := []) (by simp) h.digit_lt
    rw [hcollect, show i + 1 = n by omega] at hbelow
    refine ⟨es ++ ds, text', ?_, hbelow⟩
    rw [emitWords, Int.toNat_natCast, hor, show decide (n ≤ i + 1) = true from
      decide_eq_true (by omega)]
    exact bind_eq_of_eq (fklAssert_eq_some (by unfold digitShift; omega)) (bind_eq_of_eq he rfl)
  | succ k ih =>
    have hbits := h.bits_lt
    obtain ⟨hor, hlt⟩ := accum_or (w := digitShift) h.accum_lt
      ((hd i (by omega)).trans_eq (by decide)) (by unfold digitShift; omega)
    have hcollect := h.collect
    obtain ⟨es, accum', a', text', he, htext, hes, ha', hacc', hlen, hval⟩ := emitDigits_spec hw
      capitals 64 (d i * 2 ^ a + accum) (a + digitShift) (digitText capitals ds)
      (by unfold digitShift; omega) (by unfold digitShift; omega) hlt
    have hnext : EmitInv d w (i + 1) accum' a' (es ++ ds) := {
      bits_lt := ha'
      accum_lt := hacc'
      digit_lt := fun e he => (List.mem_append.mp he).elim (hes e) (h.digit_lt e)
      bits := by
        have hold := h.bits
        rw [List.length_append, Nat.mul_add]
        rw [Nat.mul_succ]
        omega
      value := by
        rw [List.length_append, pow_add, numeral_append, ← hcollect, ← hval]
        ring }
    obtain ⟨fs, text'', hrun, hwr⟩ := ih (i + 1) accum' a' (es ++ ds) (by omega) hnext
    refine ⟨fs, text'', ?_, hwr⟩
    rw [emitWords, Int.toNat_natCast, hor, show decide (n ≤ i + 1) = false from
      decide_eq_false (by omega)]
    refine bind_eq_of_eq (fklAssert_eq_some (by unfold digitShift; omega)) (bind_eq_of_eq he ?_)
    rw [htext, ← digitText_append]
    exact hrun

theorem bigintToBinStringBuffer_spec {a : FklBigInt} {w : Nat} (ha : a.Normalized)
    (h0 : a.num ≠ 0) (hw : 0 < w) (hw4 : w ≤ 4) (capitals : Bool) (altStr : List Char) :
    ∃ out ds, bigintToBinStringBuffer a w ⟨true, capitals⟩ altStr = some out ∧
      Printed a capitals (2 ^ w) altStr out ds := by
  obtain ⟨n, hn⟩ : ∃ n, a.num.natAbs = n + 1 := ⟨a.num.natAbs - 1, by omega⟩
  have htop := ha.top_ne h0
  have htoplt := ha.digit_lt (a.num.natAbs - 1) (by omega)
  obtain ⟨ds, text, hrun, hwr⟩ := emitWords_spec hw hw4 capitals ha.digit_lt htop n 0 0 0 []
    (by omega) ⟨hw, by simp, by simp, by simp, by simp⟩
  change Written capitals (2 ^ w) a.mag ds text [] at hwr
  have htext : text = digitText capitals ds := by simpa using hwr.text_eq
  have hdlen : (digitText capitals ds).length = ds.length := List.length_map _
  -- the length formula counts the same digits
  have hcount : ds.length =
      ((a.num.natAbs - 1) * digitShift + bitLengthDigit (a.digits (a.num.natAbs - 1)) + (w - 1)) /
        w := by
    obtain ⟨hb0, hble, hblt⟩ := bitLengthDigit_bounds htop htoplt
    obtain ⟨d, es, rfl⟩ := List.exists_cons_of_ne_nil hwr.ne_nil
    have hd0 : d ≠ 0 := fun h => hwr.head_ne (by simp [h])
    have hlow := pow_le_numeral (b := 2 ^ w) (l := es) hd0
    have hhigh := numeral_lt hwr.digit_lt
    rw [hwr.value, ← pow_mul] at hlow hhigh
    have hmag : a.mag = positional digitBase a.digits n + a.digits n * digitBase ^ n := by
      rw [FklBigInt.mag, hn, positional_succ]
    rw [hn, Nat.add_sub_cancel] at hb0 hble hblt ⊢
    generalize bitLengthDigit (a.digits n) = l at hb0 hble hblt
    have hbase : digitBase ^ n = 2 ^ (n * digitShift) := by
      rw [Nat.mul_comm, pow_mul]
      rfl
    have hrest : positional digitBase a.digits n < digitBase ^ n :=
      positional_lt (fun i hi => ha.digit_lt i (by omega))
    refine digits_of_bits hw ⟨?_, ?_⟩ ⟨hlow, hhigh⟩ (by simp)
    · calc 2 ^ (n * digitShift + l - 1) = 2 ^ (l - 1) * 2 ^ (n * digitShift) := by
            rw [← pow_add]
            congr 1
            omega
        _ ≤ a.digits n * digitBase ^ n := by rw [hbase]; exact Nat.mul_le_mul_right _ hble
        _ ≤ a.mag := by omega
    · calc a.mag < (a.digits n + 1) * digitBase ^ n := by rw [hmag, Nat.add_mul]; omega
        _ ≤ 2 ^ l * 2 ^ (n * digitShift) := by rw [hbase]; exact Nat.mul_le_mul_right _ hblt
        _ = 2 ^ (n * digitShift + l) := by rw [← pow_add, Nat.add_comm]
  refine ⟨((if a.num < 0 then 1 else 0) + ds.length + altStr.length,
    if a.num < 0 then '-' :: (altStr ++ text) else altStr ++ text), ds, ?_, ?_⟩
  · simp only [bigintToBinStringBuffer, fklAbs_toNat]
    refine bind_eq_of_eq (fklAssert_eq_some h0) ?_
    rw [← hcount, hn]
    exact bind_eq_of_eq (hn ▸ hrun) rfl
  · refine ⟨?_, ?_, hwr.digit_lt, hwr.head_ne, hwr.ne_nil, hwr.value⟩
    · dsimp only
      rw [htext]
      split <;> simp only [List.length_cons, List.length_append, hdlen] <;> omega
    · dsimp only
      rw [htext]
      split <;> rfl

end FakeLisp
