import FakeLisp.NumberWords
import Mathlib.Tactic.Abel

/-! Where the number tests do what their regular expressions say. The words they take by mistake
end in a sign or in an exponent marker, or have no digit before their exponent. -/

namespace FakeLisp.CharBuf

open Computability

variable {s : Memory} {p marker : UInt8 → Bool} {n : Nat} {r : List UInt8} {c : UInt8}
  {E L M : Language UInt8}

theorem signed_add : signed (L + M) = signed L + signed M := mul_add _ L M

theorem hexSigned_add : hexSigned (L + M) = hexSigned L + hexSigned M := by
  rw [hexSigned, mul_add, mul_add, signed_add]
  rfl

/-- A language that stands only before a sign. -/
theorem mem_mul_ite (sign : Bool) {w : List UInt8} :
    (w ∈ L * if sign then M else 0) ↔ sign = true ∧ w ∈ L * M := by
  cases sign <;> simp [Language.notMem_zero]

/-! ## Decimal fractions -/

theorem decFloatOf_add : decFloatOf (L + M) = decFloatOf L +
    signed ((oneOf (byte '.') * oneOrMore (oneOf fklIsDigit) + oneOrMore (oneOf fklIsDigit) *
      (oneOf (byte '.') * (oneOf fklIsDigit)∗ + 1)) * M) := by
  rw [decFloatOf, decFloatOf, ← signed_add]
  congr 1
  simp only [optional, mul_add, add_mul, mul_one, mul_assoc]
  abel

theorem fklIsDecFloat_iff (s : Memory) (hmax : n < 2 ^ 64) : fklIsDecFloat s n = true ↔
    word s n ∈ decFloatWords ∨ isSign (s n) = true ∧ word s n ∈ decFloatOpen := by
  rw [fklIsDecFloat_run s hmax, exponentRun, decFloatOf_add, Language.mem_add, decFloatOpen, signed,
    signed, ← mul_assoc, mem_mul_ite, mul_assoc, decFloatWords]

/-! ## Hexadecimal fractions -/

theorem two_le_of_mem_exponentWords {digit : UInt8 → Bool} (hp : ∀ c, digit c = true → isSign c = false)
    (h : r ∈ exponentWords marker digit) : 2 ≤ r.length := by
  obtain ⟨c, t, rfl, -, ht⟩ := mem_oneOf_mul.mp h
  rw [mem_signed (notFirst_oneOrMore hp)] at ht
  have hpos := List.length_pos_iff.mpr (mem_oneOrMore_oneOf.mp ht).1
  have hle := length_stripHead_le isSign t
  rw [List.length_cons]
  omega

/-- A marker and two bytes at least: a sign and a digit, or two digits. -/
theorem mem_longExponent_iff {digit : UInt8 → Bool} :
    r ∈ oneOf marker * (oneOf isSign * oneOrMore (oneOf digit) +
      oneOf digit * oneOrMore (oneOf digit)) ↔ r ∈ exponentWords marker digit ∧ 3 ≤ r.length := by
  cases r with
  | nil => simp
  | cons c r =>
    rw [exponentWords, cons_mem_oneOf_mul, cons_mem_oneOf_mul, and_assoc, Language.mem_add, signed,
      optional, add_mul, one_mul, Language.mem_add, List.length_cons]
    refine and_congr_right fun _ => ?_
    cases r with
    | nil => simp
    | cons d r =>
      have hdigits : d :: r ∈ oneOrMore (oneOf digit) ↔ digit d = true ∧ r ∈ (oneOf digit)∗ :=
        cons_mem_oneOf_mul
      have hlong : r ∈ oneOrMore (oneOf digit) ↔ r ∈ (oneOf digit)∗ ∧ 0 < r.length := by
        rw [mem_oneOrMore_oneOf, mem_kstar_oneOf, List.length_pos_iff, and_comm]
      rw [cons_mem_oneOf_mul, cons_mem_oneOf_mul, hdigits, hlong, List.length_cons]
      have hthree : 3 ≤ r.length + 1 + 1 ↔ 0 < r.length := by omega
      rw [hthree]
      tauto

/-- What is taken behind `0x`. -/
def hexTail (next : UInt8) : Language UInt8 :=
  let exponent := exponentWords (letter 'p' 'P') fklIsXDigit
  oneOf (byte '.') * (oneOrMore (oneOf fklIsXDigit) * exponent) +
      oneOrMore (oneOf fklIsXDigit) *
        (oneOf (byte '.') * ((oneOf fklIsXDigit)∗ * exponent) + exponent) +
    (oneOf (byte '.') * (oneOf fklIsXDigit * oneOrMore (oneOf fklIsXDigit)) +
      (oneOf fklIsXDigit * oneOrMore (oneOf fklIsXDigit) + oneOrMore (oneOf fklIsXDigit) *
        (oneOf (byte '.') * (oneOf fklIsXDigit)∗))) *
      (if isSign next then oneOf (letter 'p' 'P') else 0) +
    oneOf (letter 'p' 'P') * (oneOf isSign * oneOrMore (oneOf fklIsXDigit) +
      oneOf fklIsXDigit * oneOrMore (oneOf fklIsXDigit))

theorem mem_hexOpen_iff (hdot : p (ch '.') = false) (hE : NotFirst p E) :
    r ∈ (oneOf (byte '.') * (oneOf p * oneOrMore (oneOf p)) +
        (oneOf p * oneOrMore (oneOf p) + oneOrMore (oneOf p) * (oneOf (byte '.') * (oneOf p)∗))) * E ↔
      (∃ t, r = ch '.' :: t ∧ 2 ≤ (t.takeWhile p).length ∧ t.dropWhile p ∈ E) ∨
      2 ≤ (r.takeWhile p).length ∧ r.dropWhile p ∈ E ∨
      r.takeWhile p ≠ [] ∧ ∃ t, r.dropWhile p = ch '.' :: t ∧ t.dropWhile p ∈ E := by
  have hrest : NotFirst p (oneOf (byte '.') * ((oneOf p)∗ * E)) :=
    notFirst_oneOf_mul fun c hc => byte_iff.mp hc ▸ hdot
  simp only [add_mul, mul_assoc]
  rw [Language.mem_add, Language.mem_add, mem_oneOf_mul, mem_oneOf_mul_oneOrMore_mul hE,
    mem_oneOrMore_oneOf_mul hrest, mem_oneOf_mul]
  simp only [mem_oneOf_mul_oneOrMore_mul hE, mem_kstar_oneOf_mul hE, byte_iff]
  constructor
  · rintro (⟨_, t, rfl, rfl, ht⟩ | h | ⟨hne, _, t, hr, rfl, ht⟩)
    · exact .inl ⟨t, rfl, ht⟩
    · exact .inr (.inl h)
    · exact .inr (.inr ⟨hne, t, hr, ht⟩)
  · rintro (⟨t, rfl, ht⟩ | h | ⟨hne, t, hr, ht⟩)
    · exact .inl ⟨_, t, rfl, rfl, ht⟩
    · exact .inr (.inl h)
    · exact .inr (.inr ⟨hne, _, t, hr, rfl, ht⟩)

theorem mem_ite_sign {next : UInt8} :
    r ∈ (if isSign next then oneOf marker else (0 : Language UInt8)) ↔
      isSign next = true ∧ r ∈ oneOf marker := by
  split_ifs with h <;> simp [h, Language.notMem_zero]

/-- The words of three bytes at least. -/
theorem mem_hexTail_iff {next : UInt8} : r ∈ hexTail next ↔ 3 ≤ r.length ∧
    ((∃ t, r = ch '.' :: t ∧ 3 ≤ t.length ∧ t.takeWhile fklIsXDigit ≠ [] ∧
      t.dropWhile fklIsXDigit ∈ exponentRun (letter 'p' 'P') fklIsXDigit next) ∨
    (r.takeWhile fklIsXDigit ≠ [] ∧ ∃ t, r.dropWhile fklIsXDigit = ch '.' :: t ∧
      t.dropWhile fklIsXDigit ∈ exponentRun (letter 'p' 'P') fklIsXDigit next) ∨
    r.dropWhile fklIsXDigit ∈ exponentRun (letter 'p' 'P') fklIsXDigit next) := by
  have hE : NotFirst fklIsXDigit (exponentWords (letter 'p' 'P') fklIsXDigit) :=
    notFirst_oneOf_mul p_not_xDigit
  have hY : NotFirst fklIsXDigit (if isSign next then oneOf (letter 'p' 'P') else 0) := by
    intro c t h
    obtain ⟨d, hd, heq⟩ := (mem_ite_sign.mp h).2
    exact p_not_xDigit c ((List.cons.inj heq).1 ▸ hd)
  have hE2 : ∀ {t}, t ∈ exponentWords (letter 'p' 'P') fklIsXDigit → 2 ≤ t.length :=
    two_le_of_mem_exponentWords xDigit_not_sign
  have hY1 : ∀ {t}, t ∈ (if isSign next then oneOf (letter 'p' 'P') else (0 : Language UInt8)) →
      t.length = 1 := by
    intro t h
    obtain ⟨d, -, rfl⟩ := (mem_ite_sign.mp h).2
    rfl
  have hsplit := length_takeWhile_add fklIsXDigit
  rw [hexTail, Language.mem_add, Language.mem_add, mem_fraction_iff (by decide) hE hE,
    mem_hexOpen_iff (by decide) hY, mem_longExponent_iff]
  simp only [exponentRun, Language.mem_add]
  simp only [← List.length_pos_iff]
  constructor
  · rintro (((⟨t, rfl, hpos, hmem⟩ | ⟨hpos, ⟨t, ht, hmem⟩ | hmem⟩) |
      (⟨t, rfl, hpos, hmem⟩ | ⟨hpos, hmem⟩ | ⟨hpos, t, ht, hmem⟩)) | ⟨hmem, hlong⟩)
    · have ht := hsplit t
      have hend := hE2 hmem
      rw [List.length_cons]
      exact ⟨by omega, .inl ⟨t, rfl, by omega, hpos, .inl hmem⟩⟩
    · have hr := hsplit r
      have hlen := hsplit t
      have hend := hE2 hmem
      rw [ht, List.length_cons] at hr
      exact ⟨by omega, .inr (.inl ⟨hpos, t, ht, .inl hmem⟩)⟩
    · have hr := hsplit r
      have hend := hE2 hmem
      exact ⟨by omega, .inr (.inr (.inl hmem))⟩
    · have ht := hsplit t
      have hend := hY1 hmem
      rw [List.length_cons]
      exact ⟨by omega, .inl ⟨t, rfl, by omega, by omega, .inr hmem⟩⟩
    · have hr := hsplit r
      have hend := hY1 hmem
      exact ⟨by omega, .inr (.inr (.inr hmem))⟩
    · have hr := hsplit r
      have hlen := hsplit t
      have hend := hY1 hmem
      rw [ht, List.length_cons] at hr
      exact ⟨by omega, .inr (.inl ⟨hpos, t, ht, .inr hmem⟩)⟩
    · have hempty : r.dropWhile fklIsXDigit = r := by
        cases r with
        | nil => rfl
        | cons c t => exact List.dropWhile_cons_of_neg (by simp [hE c t hmem])
      exact ⟨hlong, .inr (.inr (.inl (hempty.symm ▸ hmem)))⟩
  · have hr := hsplit r
    rintro ⟨hlong, ⟨t, rfl, hthree, hpos, hmem | hmem⟩ | ⟨hpos, t, ht, hmem | hmem⟩ | hmem | hmem⟩
    · exact .inl (.inl (.inl ⟨t, rfl, hpos, hmem⟩))
    · have ht := hsplit t
      have hend := hY1 hmem
      exact .inl (.inr (.inl ⟨t, rfl, by omega, hmem⟩))
    · exact .inl (.inl (.inr ⟨hpos, .inl ⟨t, ht, hmem⟩⟩))
    · exact .inl (.inr (.inr (.inr ⟨hpos, t, ht, hmem⟩)))
    · rcases Nat.eq_zero_or_pos (r.takeWhile fklIsXDigit).length with hzero | hpos
      · have hsame := List.takeWhile_append_dropWhile (p := fklIsXDigit) (l := r)
        rw [List.length_eq_zero_iff.mp hzero, List.nil_append] at hsame
        exact .inr ⟨hsame ▸ hmem, hlong⟩
      · exact .inl (.inl (.inr ⟨hpos, .inr hmem⟩))
    · have hend := hY1 hmem
      exact .inl (.inr (.inr (.inl ⟨by omega, hmem⟩)))

theorem fklIsHexFloat_run (s : Memory) (hmax : n < 2 ^ 64) :
    fklIsHexFloat s n = true ↔ word s n ∈ hexSigned (hexTail (s n)) := by
  refine signedTest_iff 5 (fun idx => if s idx ≠ ch '0' then false
    else if s (idx + 1) ≠ ch 'x' ∧ s (idx + 1) ≠ ch 'X' then false else hexBehindX s n (idx + 2))
    (by decide) (notFirst_oneOf_mul zero_not_sign) ?_ ?_
  · intro r hr
    obtain ⟨c, t, rfl, -, ht⟩ := mem_oneOf_mul.mp hr
    obtain ⟨d, t, rfl, -, ht⟩ := mem_oneOf_mul.mp ht
    have hlong := (mem_hexTail_iff.mp ht).1
    simp only [List.length_cons]
    omega
  · intro idx r h hn hk
    match r, hk with
    | c :: d :: r, hk =>
      obtain ⟨hc, ht⟩ := cellsAt_cons.mp h
      obtain ⟨hd, hr⟩ := cellsAt_cons.mp ht
      have hlong : 3 ≤ r.length := by
        simp only [List.length_cons] at hk
        omega
      have hlen : idx + 1 + 1 + r.length = n := by
        simp only [List.length_cons] at hn
        omega
      rw [cons_mem_oneOf_mul, cons_mem_oneOf_mul, mem_hexTail_iff, byte_iff, letter_iff,
        ← hexBehindX_iff hr hlen hmax hlong, hc, hd]
      by_cases hzero : c = ch '0'
      · by_cases hx : d = ch 'x' ∨ d = ch 'X'
        · have hnot : ¬(d ≠ ch 'x' ∧ d ≠ ch 'X') := by tauto
          rw [if_neg (not_not.mpr hzero), if_neg hnot]
          simp [hzero, hx, hlong]
        · rw [if_neg (not_not.mpr hzero), if_pos (not_or.mp hx)]
          simp [hx]
      · rw [if_pos hzero]
        simp [hzero]

/-- Without a digit, or with a marker at the end, words are taken by mistake. -/
theorem fklIsHexFloat_iff (s : Memory) (hmax : n < 2 ^ 64) : fklIsHexFloat s n = true ↔
    word s n ∈ hexFloatWords ∨ word s n ∈ hexFloatEmpty ∨
      isSign (s n) = true ∧ word s n ∈ hexFloatOpen := by
  have hopen {w : List UInt8} {N : Language UInt8} :
      w ∈ hexSigned (N * if isSign (s n) then oneOf (letter 'p' 'P') else 0) ↔
        isSign (s n) = true ∧ w ∈ hexSigned (N * oneOf (letter 'p' 'P')) := by
    simp only [hexSigned, signed, ← mul_assoc]
    exact mem_mul_ite _
  rw [fklIsHexFloat_run s hmax, hexTail, hexSigned_add, hexSigned_add, Language.mem_add,
    Language.mem_add, hopen, hexFloatWords, hexFloatOpen, hexFloatEmpty, or_assoc]
  exact or_congr_right or_comm

/-! ## The words taken by mistake -/

theorem not_mem_of_notLast {w : List UInt8} (hL : NotLast p L) (h : w ∈ M * oneOf p) : w ∉ L := by
  obtain ⟨r, c, rfl, hc⟩ := mem_mul_oneOf h
  intro hmem
  rw [hL r c hmem] at hc
  cases hc

theorem nil_not_mem_signedDigits {digit : UInt8 → Bool} : [] ∉ signed (oneOrMore (oneOf digit)) :=
  nil_not_mem_mul nil_not_mem_oneOf_mul

theorem notLast_exponentWords {digit : UInt8 → Bool} (hp : ∀ c, digit c = true → p c = false) :
    NotLast p (exponentWords marker digit) :=
  ((notLast_oneOrMore hp).mul nil_not_mem_oneOf_mul).mul nil_not_mem_signedDigits

theorem digit_not_e : ∀ c, fklIsDigit c = true → letter 'e' 'E' c = false := not_letter_of rfl rfl

theorem xDigit_not_p : ∀ c, fklIsXDigit c = true → letter 'p' 'P' c = false := not_letter_of rfl rfl

theorem notLast_decFloatWords : NotLast (letter 'e' 'E') decFloatWords := by
  have hE : NotLast (letter 'e' 'E') (exponentWords (letter 'e' 'E') fklIsDigit) :=
    notLast_exponentWords digit_not_e
  have hnil : [] ∉ exponentWords (letter 'e' 'E') fklIsDigit := nil_not_mem_oneOf_mul
  have hdigits := (notLast_oneOrMore digit_not_e).mul_optional hE hnil
  have hmaybe := (notLast_kstar digit_not_e).mul_optional hE hnil
  have hdot : ∀ c, byte '.' c = true → letter 'e' 'E' c = false := fun c hc =>
    byte_iff.mp hc ▸ by decide
  refine NotLast.mul (NotLast.add ?_ ?_) ?_
  · exact hdigits.oneOf_mul hdot
  · refine ((hmaybe.oneOf_mul hdot).add hE).mul ?_
    rw [Language.mem_add]
    exact not_or.mpr ⟨nil_not_mem_oneOf_mul, hnil⟩
  · rw [Language.mem_add]
    exact not_or.mpr ⟨nil_not_mem_oneOf_mul, nil_not_mem_oneOrMore_mul⟩

theorem notLast_hexFloatWords : NotLast (letter 'p' 'P') hexFloatWords := by
  have hE : NotLast (letter 'p' 'P') (exponentWords (letter 'p' 'P') fklIsXDigit) :=
    notLast_exponentWords xDigit_not_p
  have hnil : [] ∉ exponentWords (letter 'p' 'P') fklIsXDigit := nil_not_mem_oneOf_mul
  refine NotLast.mul (NotLast.mul (NotLast.mul (NotLast.add ?_ ?_) ?_) nil_not_mem_oneOf_mul)
    nil_not_mem_oneOf_mul
  · exact (hE.mul hnil).mul (nil_not_mem_mul hnil)
  · refine NotLast.mul (NotLast.add ((hE.mul hnil).mul (nil_not_mem_mul hnil)) hE) ?_
    rw [Language.mem_add]
    exact not_or.mpr ⟨nil_not_mem_oneOf_mul, hnil⟩
  · rw [Language.mem_add]
    exact not_or.mpr ⟨nil_not_mem_oneOf_mul, nil_not_mem_oneOrMore_mul⟩

theorem not_mem_decIntWords {w : List UInt8} (h : w ∈ oneOf isSign) : w ∉ decIntWords := by
  obtain ⟨c, hc, rfl⟩ := h
  rw [decIntWords, mem_signed notFirst_sign_decInt, stripHead, if_pos hc, Language.mem_add]
  simp [mem_oneOf]

theorem mem_hexSigned_iff {w : List UInt8} : w ∈ hexSigned L ↔
    ∃ d r, stripHead isSign w = ch '0' :: d :: r ∧ letter 'x' 'X' d = true ∧ r ∈ L := by
  rw [hexSigned, mem_signed (notFirst_oneOf_mul zero_not_sign), mem_oneOf_mul]
  simp only [mem_oneOf_mul, byte_iff]
  constructor
  · rintro ⟨_, _, hw, rfl, d, r, rfl, hd, hr⟩
    exact ⟨d, r, hw, hd, hr⟩
  · rintro ⟨d, r, hw, hd, hr⟩
    exact ⟨_, _, hw, rfl, d, r, rfl, hd, hr⟩

theorem not_mem_hexFloatWords {w : List UInt8} (h : w ∈ hexFloatEmpty) : w ∉ hexFloatWords := by
  obtain ⟨d, r, hw, -, hr⟩ := mem_hexSigned_iff.mp h
  rintro hmem
  obtain ⟨d', r', hw', -, hr'⟩ := mem_hexSigned_iff.mp hmem
  rw [hw] at hw'
  simp only [List.cons.injEq, true_and] at hw'
  obtain ⟨rfl, rfl⟩ := hw'
  obtain ⟨c, t, rfl, hc, -⟩ := mem_oneOf_mul.mp hr
  rcases (Language.mem_add _ _ _).mp hr' with hr' | hr'
  · obtain ⟨hdot, -⟩ := cons_mem_oneOf_mul.mp hr'
    rw [byte_iff.mp hdot] at hc
    revert hc
    decide
  · rw [notFirst_oneOrMore_mul xDigit_not_p c t hr'] at hc
    cases hc

/-- The test tells the words of the language, and what stands behind the word does not matter. -/
def TestRight (f : Memory → Nat → Bool) (L : Language UInt8) (s : Memory) (maxLen : Nat) : Prop :=
  (f s maxLen = true ↔ word s maxLen ∈ L) ∧
    ∀ s' : Memory, (∀ i < maxLen, s' i = s i) → f s' maxLen = f s maxLen

/-- The five tests on a buffer. -/
def NumbersRight (s : Memory) (maxLen : UInt64) : Prop :=
  TestRight fklIsDecInt decIntWords s maxLen.toNat ∧
  TestRight fklIsOctInt octIntWords s maxLen.toNat ∧
  TestRight fklIsHexInt hexIntWords s maxLen.toNat ∧
  TestRight fklIsDecFloat decFloatWords s maxLen.toNat ∧
  TestRight fklIsHexFloat hexFloatWords s maxLen.toNat

theorem word_congr {s' : Memory} (h : ∀ i < n, s' i = s i) : word s' n = word s n := by
  refine List.map_congr_left fun i hi => h i (List.mem_range.mp hi)

/-- A test that takes the words of a language, and others before some bytes. -/
theorem testRight_iff (bad : UInt8 → Bool) {f : Memory → Nat → Bool} {Bad : Language UInt8}
    (hf : ∀ s, f s n = true ↔ word s n ∈ L ∨ bad (s n) = true ∧ word s n ∈ Bad)
    (hbad : ∃ b, bad b = true) (hdisj : word s n ∈ Bad → word s n ∉ L) :
    TestRight f L s n ↔ word s n ∉ Bad := by
  constructor
  · rintro ⟨hright, hsame⟩ hmem
    obtain ⟨b, hb⟩ := hbad
    let s' := Function.update s n b
    have hagree : ∀ i < n, s' i = s i := fun i hi => Function.update_of_ne (Nat.ne_of_lt hi) b s
    have hword := word_congr hagree
    have htrue : f s' n = true := by
      rw [hf, hword]
      have hnext : s' n = b := Function.update_self n b s
      exact .inr ⟨hnext ▸ hb, hmem⟩
    rw [hsame s' hagree] at htrue
    exact hdisj hmem (hright.mp htrue)
  · intro hnot
    refine ⟨(hf s).trans (or_iff_left fun h => hnot h.2), ?_⟩
    intro s' hagree
    have hword := word_congr hagree
    rw [Bool.eq_iff_iff, hf, hf, hword]
    exact or_congr_right (iff_of_false (fun h => hnot h.2) fun h => hnot h.2)

theorem testRight_of_iff {f : Memory → Nat → Bool} (hf : ∀ s, f s n = true ↔ word s n ∈ L) :
    TestRight f L s n := by
  refine ⟨hf s, ?_⟩
  intro s' hagree
  rw [Bool.eq_iff_iff, hf, hf, word_congr hagree]

/-- A test that takes some more words. -/
theorem testRight_add_iff {f : Memory → Nat → Bool} (hf : word s n ∈ M → f s n = true)
    (hdisj : word s n ∈ M → word s n ∉ L) :
    TestRight f L s n ↔ TestRight f (L + M) s n ∧ word s n ∉ M := by
  by_cases hmem : word s n ∈ M
  · refine iff_of_false ?_ fun h => h.2 hmem
    rintro ⟨hright, -⟩
    exact hdisj hmem (hright.mp (hf hmem))
  · have hsame : word s n ∈ L + M ↔ word s n ∈ L := by
      rw [Language.mem_add]
      exact or_iff_left hmem
    simp only [TestRight, hsame, hmem, not_false_eq_true, and_true]

theorem hexFloatRight_iff (s : Memory) (hmax : n < 2 ^ 64) : TestRight fklIsHexFloat hexFloatWords s n ↔
    word s n ∉ hexFloatOpen ∧ word s n ∉ hexFloatEmpty := by
  have hEmpty : NotLast (letter 'p' 'P') hexFloatEmpty := by
    have hdigits := notLast_oneOrMore xDigit_not_p
    have hnil {q : UInt8 → Bool} : [] ∉ oneOf isSign * oneOrMore (oneOf fklIsXDigit) +
        oneOf q * oneOrMore (oneOf fklIsXDigit) := by
      rw [Language.mem_add]
      exact not_or.mpr ⟨nil_not_mem_oneOf_mul, nil_not_mem_oneOf_mul⟩
    have hbody := ((hdigits.mul (L := oneOf isSign) nil_not_mem_oneOf_mul).add
      (hdigits.mul (L := oneOf fklIsXDigit) nil_not_mem_oneOf_mul)).mul
      (L := oneOf (letter 'p' 'P')) hnil
    exact ((hbody.mul nil_not_mem_oneOf_mul).mul nil_not_mem_oneOf_mul).mul nil_not_mem_oneOf_mul
  have hopen : word s n ∈ hexFloatOpen → word s n ∉ hexFloatWords + hexFloatEmpty := by
    rw [hexFloatOpen, hexSigned, signed, ← mul_assoc, ← mul_assoc, ← mul_assoc]
    exact not_mem_of_notLast (notLast_hexFloatWords.add hEmpty)
  rw [testRight_add_iff (M := hexFloatEmpty) (fun h => (fklIsHexFloat_iff s hmax).mpr (.inr (.inl h)))
    not_mem_hexFloatWords]
  refine and_congr_left fun _ => testRight_iff isSign ?_ ⟨ch '+', by decide⟩ hopen
  intro s'
  rw [fklIsHexFloat_iff s' hmax, Language.mem_add, or_assoc]

theorem decFloatRight_iff (s : Memory) (hmax : n < 2 ^ 64) :
    TestRight fklIsDecFloat decFloatWords s n ↔ word s n ∉ decFloatOpen := by
  refine testRight_iff isSign (fun s' => fklIsDecFloat_iff s' hmax) ⟨ch '+', by decide⟩ ?_
  rw [decFloatOpen, signed, ← mul_assoc]
  exact not_mem_of_notLast notLast_decFloatWords

theorem decIntRight_iff (s : Memory) (n : Nat) :
    TestRight fklIsDecInt decIntWords s n ↔ word s n ∉ oneOf isSign := by
  refine testRight_iff nonZeroDigit ?_ ⟨ch '1', by decide⟩ not_mem_decIntWords
  intro s'
  rw [fklIsDecInt_iff, and_comm]

/-- The tests are right unless the word is a sign alone, a fraction with a marker at its end, or a
hexadecimal exponent without a digit before it. -/
theorem numbersRight_iff (s : Memory) (maxLen : UInt64) : NumbersRight s maxLen ↔
    word s maxLen.toNat ∉ oneOf isSign ∧ word s maxLen.toNat ∉ decFloatOpen ∧
      word s maxLen.toNat ∉ hexFloatOpen ∧ word s maxLen.toNat ∉ hexFloatEmpty := by
  have hmax := maxLen.toNat_lt
  rw [NumbersRight, decIntRight_iff, decFloatRight_iff s hmax, hexFloatRight_iff s hmax]
  have hoct := testRight_of_iff (s := s) fun s' => fklIsOctInt_iff s' maxLen.toNat
  have hhex := testRight_of_iff (s := s) fun s' => fklIsHexInt_iff s' maxLen.toNat
  simp only [hoct, hhex, true_and]

/-- The buffer `0xp12`. -/
theorem not_numbersRight_empty :
    ¬NumbersRight (fun i => [ch '0', ch 'x', ch 'p', ch '1', ch '2'].getD i 0) 5 := by
  intro h
  have hmem := h.2.2.2.2.1.mp (by decide)
  revert hmem
  refine not_mem_hexFloatWords (mem_hexSigned_iff.mpr ⟨ch 'x', [ch 'p', ch '1', ch '2'], rfl, rfl, ?_⟩)
  refine cons_mem_oneOf_mul.mpr ⟨rfl, (Language.mem_add _ _ _).mpr (.inr ?_)⟩
  refine cons_mem_oneOf_mul.mpr ⟨rfl, mem_oneOrMore_oneOf.mpr ⟨List.cons_ne_nil _ _, ?_⟩⟩
  exact List.forall_mem_cons.mpr ⟨rfl, fun c hc => absurd hc List.not_mem_nil⟩

end FakeLisp.CharBuf
