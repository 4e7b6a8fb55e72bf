import FakeLisp.BigIntRange
import FakeLisp.LalrItem
import FakeLisp.ObarrayInterns

/-! The comparison of values, and the orders of byte sequences behind it: bytes and lookups by
text go by all the bytes, strings by those before the first zero. -/

namespace FakeLisp

def fklBytesCmp (fir sec : List UInt8) : Int :=
  let r := memcmp (min fir.length sec.length) fir sec
  if r ≠ 0 then r
  else if fir.length < sec.length then -1
  else if fir.length > sec.length then 1
  else r

/-- The values that the comparison tells apart. -/
inductive CmpValue (D U : Type) where
  | num (v : FklVMvalue D)
  | str (s : List UInt8)
  | bytes (s : List UInt8)
  | chr (c : UInt8)
  | ud (u : U)
  | sym (s : List UInt8)
  | other

/-- The comparison of doubles, and the one that the type of a userdata may bring: its result and
whether it sets `*err`. -/
structure VMcmp (D U : Type) where
  isgreater : D → D → Bool
  isless : D → D → Bool
  cmp : U → Option (CmpValue D U → Int × Bool)

section

variable {D U : Type} [Binary64 D] (m : VMcmp D U)

/-- The end of `fklVMvalueCmp`, on what is neither a number, a string, bytes nor a character. -/
def cmpVMud (a b : CmpValue D U) : Int × Bool :=
  let cmpOf : CmpValue D U → Option (CmpValue D U → Int × Bool)
    | .ud u => m.cmp u
    | _ => none
  match cmpOf a, cmpOf b with
  | some cmp, _ => cmp b
  | none, some cmp => (-(cmp a).1, (cmp a).2)
  | none, none => (0, true)

/-- The result and `*err`; `none` is a failed assertion. -/
def fklVMvalueCmp (a b : CmpValue D U) : Option (Int × Bool) :=
  match a, b with
  | .num a', .num b' =>
    if a'.isF64 ∧ b'.isNumber ∨ b'.isF64 ∧ a'.isNumber then
      let af := fklVMgetDouble a'
      let bf := fklVMgetDouble b'
      some (if m.isgreater af bf then 1 else if m.isless af bf then -1 else 0, false)
    else
      match a', b' with
      | .fix a, .fix b =>
        let rr := a.val - b.val
        some (if rr > 0 then 1 else if rr < 0 then -1 else 0, false)
      | .bigint a, .bigint b =>
        some (fklBigIntCmp (fklVMbigIntToBigInt a) (fklVMbigIntToBigInt b), false)
      | .bigint a, .fix b => do some (← fklBigIntCmpI (fklVMbigIntToBigInt a) b.val, false)
      | .fix a, .bigint b => do some (-1 * (← fklBigIntCmpI (fklVMbigIntToBigInt b) a.val), false)
      | _, _ => some (0, true)
  | .str a, .str b => some (fklStringCmp a b, false)
  | .bytes a, .bytes b => some (fklBytesCmp a b, false)
  | .chr a, .chr b => some ((a.toNat : Int) - b.toNat, false)
  | a, b => some (cmpVMud m a b)

end

/-! ## The two orders -/

/-- The bytes before the first zero. -/
def cstr (s : List UInt8) : List UInt8 := s.takeWhile (· ≠ 0)

/-- The sign that a C comparison returns. -/
def cmpSign : Ordering → Int
  | .lt => -1
  | .eq => 0
  | .gt => 1

theorem cmpSign_swap (o : Ordering) : cmpSign o.swap = -cmpSign o := by cases o <;> rfl

theorem cmpSign_eq_zero {o : Ordering} : cmpSign o = 0 ↔ o = .eq := by cases o <;> decide

theorem cmpSign_le_zero {o : Ordering} : cmpSign o ≤ 0 ↔ o.isLE := by cases o <;> decide

theorem cmpSign_cons (a b : UInt8) (o : Ordering) :
    cmpSign ((compare a b).then o) = if a < b then -1 else if b < a then 1 else cmpSign o := by
  by_cases hab : a = b
  · rw [hab, Std.compare_self]
    simp [cmpSign]
  · rcases UInt8.lt_or_lt_of_ne hab with h | h
    · rw [Std.compare_eq_lt.mpr h, if_pos h]
      rfl
    · rw [Std.compare_eq_gt.mpr h, if_neg (UInt8.lt_asymm h), if_pos h]
      rfl

theorem fklStringCharBufCmp_eq (a b : List UInt8) :
    fklStringCharBufCmp a b = cmpSign (compare a b) := by
  induction a generalizing b with
  | nil => cases b <;> rfl
  | cons x a ih =>
    cases b with
    | nil => rfl
    | cons y b =>
      rw [List.compare_cons_cons, cmpSign_cons, ← ih]
      simp only [fklStringCharBufCmp, List.length_cons, Nat.succ_min_succ, memcmp]
      split_ifs <;> simp_all

theorem cstr_cons {x : UInt8} (hx : x ≠ 0) (s : List UInt8) : cstr (x :: s) = x :: cstr s := by
  simp [cstr, hx]

@[simp] theorem cstr_zero (s : List UInt8) : cstr (0 :: s) = [] := by simp [cstr]

@[simp] theorem cstr_nil : cstr [] = [] := rfl

theorem fklStringCmp_cons {x y : UInt8} (hx : x ≠ 0) (a b : List UInt8) :
    fklStringCmp (x :: a) (y :: b) =
      if x < y then -1 else if y < x then 1 else fklStringCmp a b := by
  simp [fklStringCmp, hx]

theorem fklStringCmp_eq (a b : List UInt8) :
    fklStringCmp a b = cmpSign (compare (cstr a) (cstr b)) := by
  induction a generalizing b with
  | nil =>
    cases b with
    | nil => rfl
    | cons y b =>
      by_cases hy : y = 0
      · rw [hy, cstr_zero]
        rfl
      · rw [cstr_cons hy, fklStringCmp, if_neg hy]
        rfl
  | cons x a ih =>
    by_cases hx : x = 0
    · rw [hx, cstr_zero]
      cases b with
      | nil => rfl
      | cons y b =>
        by_cases hy : y = 0
        · rw [hy, cstr_zero]
          rfl
        · rw [cstr_cons hy, fklStringCmp, if_pos (UInt8.pos_iff_ne_zero.mpr hy)]
          rfl
    · rw [cstr_cons hx]
      cases b with
      | nil =>
        rw [fklStringCmp, if_neg hx]
        rfl
      | cons y b =>
        rw [fklStringCmp_cons hx]
        by_cases hy : y = 0
        · have h0 : (0 : UInt8) < x := UInt8.pos_iff_ne_zero.mpr hx
          rw [hy, cstr_zero, if_neg (UInt8.lt_asymm h0), if_pos h0]
          rfl
        · rw [cstr_cons hy, List.compare_cons_cons, cmpSign_cons, ih]

/-- Unless one string is used up where the other has a zero byte, the two orders find the same
first difference. -/
theorem compare_cstr {a b : List UInt8} (h : cstr a ≠ cstr b) :
    compare (cstr a) (cstr b) = compare a b := by
  induction a generalizing b with
  | nil =>
    cases b with
    | nil => exact absurd rfl h
    | cons y b =>
      have hy : y ≠ 0 := fun hy => h (by rw [hy, cstr_zero, cstr_nil])
      rw [cstr_cons hy]
      rfl
  | cons x a ih =>
    cases b with
    | nil =>
      have hx : x ≠ 0 := fun hx => h (by rw [hx, cstr_zero, cstr_nil])
      rw [cstr_cons hx]
      rfl
    | cons y b =>
      rw [List.compare_cons_cons]
      by_cases hx : x = 0
      · have hy : y ≠ 0 := fun hy => h (by rw [hx, hy, cstr_zero, cstr_zero])
        rw [hx, cstr_zero, cstr_cons hy, Std.compare_eq_lt.mpr (UInt8.pos_iff_ne_zero.mpr hy)]
        rfl
      · by_cases hy : y = 0
        · rw [hy, cstr_zero, cstr_cons hx, Std.compare_eq_gt.mpr (UInt8.pos_iff_ne_zero.mpr hx)]
          rfl
        · rw [cstr_cons hx, cstr_cons hy, List.compare_cons_cons]
          by_cases hxy : x = y
          · rw [ih (fun he => h (by rw [cstr_cons hx, cstr_cons hy, hxy, he]))]
          · have hne : compare x y ≠ .eq := fun he => hxy (Std.compare_eq_iff_eq.mp he)
            cases hc : compare x y with
            | eq => exact absurd hc hne
            | lt => rfl
            | gt => rfl

/-- The order by the text before the first zero byte is transitive, whatever the strings. -/
theorem fklStringCmp_trans {a b d : List UInt8} (hab : fklStringCmp a b ≤ 0)
    (hbd : fklStringCmp b d ≤ 0) : fklStringCmp a d ≤ 0 := by
  rw [fklStringCmp_eq, cmpSign_le_zero] at hab hbd ⊢
  exact Std.TransCmp.isLE_trans hab hbd

theorem fklStringCmp_swap (a b : List UInt8) : fklStringCmp b a = -fklStringCmp a b := by
  rw [fklStringCmp_eq, fklStringCmp_eq, ← cmpSign_swap, ← Std.OrientedCmp.eq_swap]

/-- What the comparison of two string values promises at one pair, by signs. -/
structure StringsOrdered {D U : Type} [Binary64 D] (m : VMcmp D U) (a b : List UInt8) : Prop where
  vm : fklVMvalueCmp m (.str a) (.str b) = some (fklStringCmp a b, false)
  eq_zero : fklStringCmp a b = 0 ↔ fklStringEqual a b = true
  antisymm : (fklStringCmp b a).sign = -(fklStringCmp a b).sign
  trans : ∀ d, fklStringCmp a b ≤ 0 → fklStringCmp b d ≤ 0 → fklStringCmp a d ≤ 0
  charBuf : (fklStringCmp a b).sign = (fklStringCharBufCmp a b).sign

theorem stringsOrdered_iff {D U : Type} [Binary64 D] (m : VMcmp D U) (a b : List UInt8) :
    StringsOrdered m a b ↔ a = b ∨ cstr a ≠ cstr b := by
  have hzero : fklStringCmp a b = 0 ↔ cstr a = cstr b := by
    rw [fklStringCmp_eq, cmpSign_eq_zero, Std.compare_eq_iff_eq]
  constructor
  · intro h
    by_cases hc : cstr a = cstr b
    · exact .inl (fklStringEqual_iff.mp (h.eq_zero.mp (hzero.mpr hc)))
    · exact .inr hc
  · intro h
    refine ⟨rfl, ?_, ?_, fun d => fklStringCmp_trans, ?_⟩
    · rw [hzero, fklStringEqual_iff]
      rcases h with rfl | h
      · simp
      · exact ⟨fun hc => absurd hc h, fun hab => absurd (congrArg cstr hab) h⟩
    · rw [fklStringCmp_swap, Int.sign_neg]
    · rw [fklStringCmp_eq, fklStringCharBufCmp_eq]
      rcases h with rfl | h
      · rw [Std.compare_self, Std.compare_self]
      · rw [compare_cstr h]

/-- `"a\x00b"` and `"a\x00c"`, which compare as equal. -/
theorem not_stringsOrdered_zeroByte :
    ¬StringsOrdered (D := Rat) (U := Empty) ⟨fun a b => a > b, fun a b => a < b, nofun⟩
      [97, 0, 98] [97, 0, 99] := by
  intro h
  have hzero := h.eq_zero
  revert hzero
  decide

end FakeLisp
