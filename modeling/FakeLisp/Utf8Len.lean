import FakeLisp.EscapeChars
import Mathlib.Tactic.IntervalCases

/-! The length of the character a buffer begins with, against the syntax of characters of up to six
bytes. The loop looks at the last byte only, and the bits of the second byte are masked away. -/

namespace FakeLisp

/-! ## Characters -/

/-- How many bytes the first byte announces; none when it is no first byte. -/
def leadLength (c : UInt8) : Nat :=
  if c < 0x80 then 1 else if c < 0xC0 then 0 else if c < 0xE0 then 2 else if c < 0xF0 then 3
  else if c < 0xF8 then 4 else if c < 0xFC then 5 else if c < 0xFE then 6 else 0

/-- The bits the first byte adds. -/
def leadBits (c : UInt8) : Nat := if c < 0x80 then c.toNat else c.toNat % 2 ^ (7 - leadLength c)

def IsCont (c : UInt8) : Prop := 0x80 ≤ c ∧ c < 0xC0

instance (c : UInt8) : Decidable (IsCont c) := inferInstanceAs (Decidable (_ ∧ _))

/-- The least value of a character of `n` bytes. -/
def minValue (n : Nat) : Nat := if n = 1 then 0 else if n = 2 then 0x80 else 2 ^ (5 * n - 4)

/-- The value with the bits of the continuation bytes behind it. -/
def restValue (v : Nat) (rest : List UInt8) : Nat := rest.foldl (fun v c => v * 64 + c.toNat % 64) v

/-- The bytes of one character, and not more of them than its value needs. -/
def Utf8Char : List UInt8 → Prop
  | [] => False
  | c :: rest => leadLength c = rest.length + 1 ∧ (∀ d ∈ rest, IsCont d) ∧
      minValue (rest.length + 1) ≤ restValue (leadBits c) rest

/-- The first `n` bytes are a character. -/
def BeginsWith (byte : List UInt8) (n : Nat) : Prop := n ≤ byte.length ∧ Utf8Char (byte.take n)

theorem restValue_bounds (v : Nat) (rest : List UInt8) :
    v * 64 ^ rest.length ≤ restValue v rest ∧ restValue v rest < (v + 1) * 64 ^ rest.length := by
  induction rest generalizing v with
  | nil => simp [restValue]
  | cons c rest ih =>
    obtain ⟨hlow, hhigh⟩ := ih (v * 64 + c.toNat % 64)
    have hc : c.toNat % 64 < 64 := Nat.mod_lt _ (by decide)
    rw [List.length_cons, Nat.pow_succ, Nat.mul_comm (64 ^ rest.length), ← Nat.mul_assoc,
      ← Nat.mul_assoc]
    refine ⟨(Nat.mul_le_mul_right _ (by omega)).trans hlow, hhigh.trans_le ?_⟩
    exact Nat.mul_le_mul_right _ (by omega)

theorem leadLength_le (c : UInt8) : leadLength c ≤ 6 := by
  unfold leadLength
  split_ifs <;> decide

/-- The first byte alone tells the length. -/
theorem beginsWith_iff {c : UInt8} {str : List UInt8} {n : Nat} : BeginsWith (c :: str) n ↔
    n = leadLength c ∧ 0 < n ∧ n ≤ str.length + 1 ∧ (∀ d ∈ str.take (n - 1), IsCont d) ∧
      minValue n ≤ restValue (leadBits c) (str.take (n - 1)) := by
  cases n with
  | zero => simp [BeginsWith, Utf8Char]
  | succ n =>
    rw [BeginsWith, List.take_succ_cons, Utf8Char, List.length_cons]
    by_cases hn : n ≤ str.length
    · rw [List.length_take_of_le hn, Nat.add_sub_cancel]
      have hle : n + 1 ≤ str.length + 1 := by omega
      simp only [hle, true_and, Nat.zero_lt_succ]
      exact and_congr_left fun _ => eq_comm
    · have hle : ¬n + 1 ≤ str.length + 1 := by omega
      simp [hle]

/-! ## The function with its reads -/

/-- `fklGetByteNumOfUtf8` with each byte read from the buffer; there is none from its length on. -/
def fklGetByteNumOfUtf8Reads (byte : List UInt8) : Option Nat := do
  let b0 ← byte[0]?
  if b0 < 0x80 then return 1
  else if b0 < 0xC0 then return 7
  else
    let i := utf8bits.findIdx fun row => b0 ||| row.1 = row.1
    if byte.length ≤ i ∨ i = 6 then return 7
    else
      let rest ← (List.range' 1 (i - 1)).allM fun _ => do
        let c ← byte[i]?
        return c &&& 0xC0 = 0x80
      if !rest then return 7
      else
        let row := utf8bits.getD i (0, 0, 0)
        let b1 ← byte[1]?
        let sum := ((row.2.1 &&& b0.toNat) <<< (i * 6)) + (b1.toNat &&& (0x3F <<< ((i - 1) * 6)))
        if sum < row.2.2 then return 7 else return i + 1

/-- The rows of the table are those of the first bytes. -/
theorem utf8bits_lead : ∀ c : UInt8, 0xC0 ≤ c →
    (utf8bits.findIdx fun row => c ||| row.1 = row.1) =
      (if leadLength c = 0 then 6 else leadLength c - 1) ∧
    (leadLength c ≠ 0 → 2 ≤ leadLength c ∧
      (utf8bits.getD (leadLength c - 1) (0, 0, 0)).2.1 &&& c.toNat = leadBits c ∧
      (utf8bits.getD (leadLength c - 1) (0, 0, 0)).2.2 = minValue (leadLength c)) := by
  refine forall_byte ?_
  decide +kernel

theorem cont_iff : ∀ c : UInt8, c &&& 0xC0 = 0x80 ↔ IsCont c := by
  refine forall_byte ?_
  decide +kernel

theorem allM_const {α : Type*} (l : List α) (b : Bool) :
    l.allM (fun _ => some b) = some (l.all fun _ => b) := by
  induction l with
  | nil => rfl
  | cons x l ih => cases b <;> simp [List.allM, ih]

/-- With one byte at least, every read is inside of the buffer. -/
theorem reads_eq (c : UInt8) (str : List UInt8) :
    fklGetByteNumOfUtf8Reads (c :: str) = some (fklGetByteNumOfUtf8 (c :: str)) := by
  simp only [fklGetByteNumOfUtf8Reads, fklGetByteNumOfUtf8, List.getElem?_cons_zero,
    List.getD_cons_zero, Option.bind_eq_bind, Option.bind_some, Option.pure_def]
  by_cases hascii : c < 0x80
  · rw [if_pos hascii, if_pos hascii]
  by_cases hcont : c < 0xC0
  · rw [if_neg hascii, if_pos hcont, if_neg hascii, if_pos hcont]
  rw [if_neg hascii, if_neg hcont, if_neg hascii, if_neg hcont]
  have hlead := utf8bits_lead c (by grind)
  generalize utf8bits.findIdx (fun row => c ||| row.1 = row.1) = i at hlead
  by_cases hshort : (c :: str).length ≤ i ∨ i = 6
  · rw [if_pos hshort, if_pos hshort]
  rw [if_neg hshort, if_neg hshort]
  obtain ⟨hlong, hsix⟩ := not_or.mp hshort
  have hne : leadLength c ≠ 0 := by
    intro hzero
    exact hsix (by rw [hlead.1, if_pos hzero])
  have hi : i = leadLength c - 1 := by rw [hlead.1, if_neg hne]
  have htwo := (hlead.2 hne).1
  have hget : ∀ k, k ≤ i → (c :: str)[k]? = some ((c :: str).getD k 0) := by
    intro k hk
    have hlt : k < (c :: str).length := by omega
    rw [List.getD_eq_getElem?_getD, List.getElem?_eq_getElem hlt, Option.getD_some]
  rw [hget i le_rfl, hget 1 (by omega)]
  simp only [Option.bind_some, allM_const]
  have hany : ((List.range' 1 (i - 1)).any fun _ => (c :: str).getD i 0 &&& 0xC0 ≠ 0x80) =
      !(List.range' 1 (i - 1)).all fun _ => (c :: str).getD i 0 &&& 0xC0 = 0x80 := by
    rw [List.not_all_eq_any_not]
    simp only [ne_eq, decide_not]
  rw [hany]
  split_ifs <;> rfl

/-- The least bits of a first byte that the sum is not too small with. -/
def leastBits (n : Nat) : Nat := if n = 1 then 0 else if n = 2 then 2 else 1

/-- The sum that is compared with the least value: above two bytes only the first one counts. -/
theorem sum_lt_iff {n v b : Nat} (hn : 2 ≤ n) (hsix : n ≤ 6) (hb : b < 256) :
    (v <<< ((n - 1) * 6)) + (b &&& (0x3F <<< ((n - 1 - 1) * 6))) < minValue n ↔ v < leastBits n := by
  have hand := Nat.and_le_left (n := b) (m := 0x3F <<< ((n - 1 - 1) * 6))
  have hmask := Nat.and_le_right (n := b) (m := 0x3F <<< ((n - 1 - 1) * 6))
  generalize b &&& (0x3F <<< ((n - 1 - 1) * 6)) = m at hand hmask
  rw [Nat.shiftLeft_eq]
  obtain rfl | hthree := Nat.eq_or_lt_of_le hn
  · simp [minValue, leastBits] at hmask ⊢
    omega
  · clear hmask hn
    interval_cases n <;> simp [minValue, leastBits] <;> omega

/-- What the function answers: of the continuation bytes it has looked at the last one. -/
theorem byteNum_eq (c : UInt8) (str : List UInt8) : fklGetByteNumOfUtf8 (c :: str) =
    if leadLength c ≠ 0 ∧ leadLength c ≤ str.length + 1 ∧
        (3 ≤ leadLength c → IsCont ((c :: str).getD (leadLength c - 1) 0)) ∧
        leastBits (leadLength c) ≤ leadBits c then leadLength c else 7 := by
  simp only [fklGetByteNumOfUtf8, List.getD_cons_zero]
  by_cases hascii : c < 0x80
  · have hone : leadLength c = 1 := if_pos hascii
    rw [if_pos hascii, hone]
    simp [leastBits]
  by_cases hcont : c < 0xC0
  · have hzero : leadLength c = 0 := by simp [leadLength, hascii, hcont]
    rw [if_neg hascii, if_pos hcont, hzero]
    simp
  rw [if_neg hascii, if_neg hcont]
  have hlead := utf8bits_lead c (by grind)
  generalize utf8bits.findIdx (fun row => c ||| row.1 = row.1) = i at hlead
  obtain ⟨hi, hrow⟩ := hlead
  by_cases hzero : leadLength c = 0
  · rw [if_pos hzero] at hi
    simp [hi, hzero]
  rw [if_neg hzero] at hi
  obtain ⟨htwo, hbits, hmin⟩ := hrow hzero
  have hsix := leadLength_le c
  generalize leadLength c = n at *
  subst hi
  rw [hbits, hmin]
  by_cases hshort : (c :: str).length ≤ n - 1 ∨ n - 1 = 6
  · rw [if_pos hshort, if_neg]
    rintro ⟨-, hle, -⟩
    rw [List.length_cons] at hshort
    omega
  rw [if_neg hshort]
  have hany : ((List.range' 1 (n - 1 - 1)).any fun _ => (c :: str).getD (n - 1) 0 &&& 0xC0 ≠ 0x80) =
      true ↔ 3 ≤ n ∧ ¬IsCont ((c :: str).getD (n - 1) 0) := by
    rw [← cont_iff, List.any_eq_true]
    constructor
    · rintro ⟨j, hj, hne⟩
      rw [List.mem_range'_1] at hj
      exact ⟨by omega, of_decide_eq_true hne⟩
    · rintro ⟨hthree, hne⟩
      exact ⟨1, List.mem_range'_1.mpr (by omega), decide_eq_true hne⟩
  have hsum := sum_lt_iff (v := leadBits c) htwo hsix ((c :: str).getD 1 0).toNat_lt
  rw [List.length_cons, not_or] at hshort
  have hle : n ≤ str.length + 1 := by omega
  simp only [hany, hsum, hle, ne_eq, hzero, not_false_eq_true, true_and]
  by_cases hrest : 3 ≤ n ∧ ¬IsCont ((c :: str).getD (n - 1) 0)
  · rw [if_pos hrest, if_neg]
    rintro ⟨hlast, -⟩
    exact hrest.2 (hlast hrest.1)
  · have hlast : 3 ≤ n → IsCont ((c :: str).getD (n - 1) 0) := fun hthree => by
      by_contra hnot
      exact hrest ⟨hthree, hnot⟩
    rw [if_neg hrest]
    by_cases hbits : leadBits c < leastBits n
    · rw [if_pos hbits, if_neg fun h => absurd h.2 (Nat.not_le.mpr hbits)]
    · rw [if_neg hbits, if_pos ⟨hlast, Nat.not_lt.mp hbits⟩]
      omega

/-! ## Where the answer is right -/

/-- What is read lies inside of the buffer, and the answer is the length of the character at the
start of the buffer, or 7 when there is none. -/
def Utf8Right (byte : List UInt8) : Prop :=
  ∃ n, fklGetByteNumOfUtf8Reads byte = some n ∧
    (∀ m ≤ min byte.length 6, n = m ↔ BeginsWith byte m) ∧ ((∀ m, ¬BeginsWith byte m) → n = 7)

/-- A buffer that is not empty; of the bytes announced, when there are as many, either the first one
adds enough bits, and they all are continuation bytes if the last one is (of two, the last one in
any case), or it does not, and there is no character: there is one without bits in its first byte
if the second byte adds enough. -/
def Utf8Agrees : List UInt8 → Prop
  | [] => False
  | c :: str => 2 ≤ leadLength c → leadLength c ≤ str.length + 1 →
    if leastBits (leadLength c) ≤ leadBits c then
      (3 ≤ leadLength c → IsCont ((c :: str).getD (leadLength c - 1) 0)) →
        ∀ d ∈ str.take (leadLength c - 1), IsCont d
    else 3 ≤ leadLength c → (∀ d ∈ str.take (leadLength c - 1), IsCont d) →
      (str.getD 0 0).toNat % 64 < 2 ^ (8 - leadLength c)

/-- With bits enough in the first byte a character is not too long. -/
theorem minValue_le {n v : Nat} {rest : List UInt8} (hn : 2 ≤ n) (hsix : n ≤ 6)
    (hlen : rest.length = n - 1) (hv : leastBits n ≤ v) : minValue n ≤ restValue v rest := by
  have hlow := (restValue_bounds v rest).1
  have hmul := Nat.mul_le_mul_right (64 ^ rest.length) hv
  refine (le_trans ?_ hmul).trans hlow
  rw [hlen]
  interval_cases n <;> decide

theorem restValue_lt_minValue {v : Nat} {rest : List UInt8} (hlen : rest.length = 1) (hv : v < 2) :
    restValue v rest < minValue 2 := by
  have hhigh := (restValue_bounds v rest).2
  rw [hlen] at hhigh
  have hmin : minValue 2 = 128 := rfl
  omega

/-- Without bits in the first byte the second one decides. -/
theorem minValue_le_iff {n : Nat} {d : UInt8} {rest : List UInt8} (hn : 3 ≤ n) (hsix : n ≤ 6)
    (hlen : rest.length = n - 2) :
    minValue n ≤ restValue 0 (d :: rest) ↔ 2 ^ (8 - n) ≤ d.toNat % 64 := by
  have hmin : minValue n = 2 ^ (8 - n) * 64 ^ rest.length := by
    rw [hlen]
    interval_cases n <;> decide
  have hval : restValue 0 (d :: rest) = restValue (d.toNat % 64) rest := by simp [restValue]
  obtain ⟨hlow, hhigh⟩ := restValue_bounds (d.toNat % 64) rest
  rw [hmin, hval]
  constructor
  · intro h
    exact Nat.le_of_lt_succ (Nat.lt_of_mul_lt_mul_right (h.trans_lt hhigh))
  · intro h
    exact (Nat.mul_le_mul_right _ h).trans hlow

theorem utf8Right_cons_iff {c : UInt8} {str : List UInt8} : Utf8Right (c :: str) ↔
    ((leadLength c ≠ 0 ∧ leadLength c ≤ str.length + 1 ∧
        (3 ≤ leadLength c → IsCont ((c :: str).getD (leadLength c - 1) 0)) ∧
        leastBits (leadLength c) ≤ leadBits c) ↔ BeginsWith (c :: str) (leadLength c)) := by
  have hsix := leadLength_le c
  have honly : ∀ {m}, BeginsWith (c :: str) m → m = leadLength c := fun h => (beginsWith_iff.mp h).1
  rw [Utf8Right, reads_eq, byteNum_eq]
  simp only [Option.some.injEq, exists_eq_left', List.length_cons]
  constructor
  · rintro ⟨hlen, hnone⟩
    constructor
    · intro hA
      rw [if_pos hA] at hlen
      exact (hlen _ (le_min hA.2.1 hsix)).mp rfl
    · intro hB
      have hle := (beginsWith_iff.mp hB).2.2.1
      by_contra hA
      rw [if_neg hA] at hlen
      have hseven := (hlen _ (le_min hle hsix)).mpr hB
      omega
  · intro h
    constructor
    · intro m hm
      split_ifs with hA
      · constructor
        · rintro rfl
          exact h.mp hA
        · exact fun hB => (honly hB).symm
      · refine iff_of_false (by omega) fun hB => hA (h.mpr ?_)
        rw [← honly hB]
        exact hB
    · intro hnone
      rw [if_neg fun hA => hnone _ (h.mp hA)]

/-- The bytes announced are there. -/
theorem longAgrees_iff {n v : Nat} {c : UInt8} {str : List UInt8} (hn : 2 ≤ n) (hsix : n ≤ 6)
    (hle : n ≤ str.length + 1) :
    ((3 ≤ n → IsCont ((c :: str).getD (n - 1) 0)) ∧ leastBits n ≤ v ↔
      (∀ d ∈ str.take (n - 1), IsCont d) ∧ minValue n ≤ restValue v (str.take (n - 1))) ↔
    if leastBits n ≤ v then
      (3 ≤ n → IsCont ((c :: str).getD (n - 1) 0)) → ∀ d ∈ str.take (n - 1), IsCont d
    else 3 ≤ n → (∀ d ∈ str.take (n - 1), IsCont d) →
      (str.getD 0 0).toNat % 64 < 2 ^ (8 - n) := by
  have hlen : (str.take (n - 1)).length = n - 1 := List.length_take_of_le (by omega)
  by_cases hv : leastBits n ≤ v
  · have hmin := minValue_le hn hsix hlen hv
    have hlast : (∀ d ∈ str.take (n - 1), IsCont d) → IsCont ((c :: str).getD (n - 1) 0) := by
      intro hall
      obtain ⟨k, rfl⟩ := Nat.exists_eq_add_of_le' hn
      have hcount : (str.take (k + 1)).length = k + 1 := hlen
      have hk : k < (str.take (k + 1)).length := by
        rw [hcount]
        exact Nat.lt_succ_self k
      have hget : (str.take (k + 1))[k] = (c :: str).getD (k + 1) 0 := by
        rw [List.getElem_take, List.getD_cons_succ, List.getD_eq_getElem?_getD,
          List.getElem?_eq_getElem (by omega), Option.getD_some]
      exact hget ▸ hall _ (List.getElem_mem hk)
    simp only [hv, and_true, hmin, if_true]
    constructor
    · exact Iff.mp
    · exact fun h => ⟨h, fun hall _ => hlast hall⟩
  · simp only [hv, and_false, false_iff, if_false, not_and]
    obtain rfl | hthree := Nat.eq_or_lt_of_le hn
    · have hlt := restValue_lt_minValue hlen (Nat.lt_of_not_le hv)
      refine iff_of_true (fun _ => Nat.not_le.mpr hlt) fun h => ?_
      omega
    · have hzero : v = 0 := by
        have hleast : leastBits n = 1 := by
          rw [leastBits, if_neg (by omega), if_neg (by omega)]
        omega
      subst hzero
      cases str with
      | nil =>
        rw [List.length_nil] at hle
        omega
      | cons d str =>
        have hsucc : n - 1 = n - 2 + 1 := by omega
        rw [hsucc, List.take_succ_cons] at hlen ⊢
        rw [List.length_cons, Nat.add_right_cancel_iff] at hlen
        rw [minValue_le_iff hthree hsix hlen, List.getD_cons_zero, Nat.not_le]
        exact ⟨fun h _ => h, fun h => h hthree⟩

theorem utf8Right_iff (byte : List UInt8) : Utf8Right byte ↔ Utf8Agrees byte := by
  cases byte with
  | nil =>
    refine iff_of_false ?_ id
    rintro ⟨n, hn, -⟩
    cases hn
  | cons c str =>
    rw [utf8Right_cons_iff, beginsWith_iff, Utf8Agrees]
    have hsix := leadLength_le c
    generalize leadLength c = n at *
    by_cases hle : n ≤ str.length + 1
    · match n with
      | 0 => simp
      | 1 => simp [leastBits, minValue]
      | n + 2 => simpa [hle] using longAgrees_iff (c := c) (Nat.le_add_left 2 n) hsix hle
    · simp [hle]

/-- The buffer of the bytes C3 and 41. -/
theorem not_utf8Right_open : ¬Utf8Right [0xC3, 0x41] := by
  rintro ⟨n, hn, hright, -⟩
  have htwo : fklGetByteNumOfUtf8Reads [0xC3, 0x41] = some 2 := by decide
  obtain rfl : 2 = n := Option.some.inj (htwo.symm.trans hn)
  have hbegins := (hright 2 (by decide)).mp rfl
  have hcont := (beginsWith_iff.mp hbegins).2.2.2.1 0x41 (by decide)
  revert hcont
  decide

end FakeLisp
