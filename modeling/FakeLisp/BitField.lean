import Mathlib

/-! Bit fields of a word, read and written with masks. -/

namespace FakeLisp

variable {w : Nat}

/-- `s` one bits from position `p`. -/
def mask1 (w s p : Nat) : BitVec w := ((1#w <<< s) - 1#w) <<< p

/-- `s` zero bits from position `p`. -/
def mask0 (w s p : Nat) : BitVec w := ~~~mask1 w s p

def getField (i : BitVec w) (pos size : Nat) : BitVec w := (i >>> pos) &&& mask1 w size 0

def setField (i v : BitVec w) (pos size : Nat) : BitVec w :=
  (i &&& mask0 w size pos) ||| ((v &&& mask1 w size 0) <<< pos)

theorem toNat_mask1_zero {s : Nat} (hs : s < w) : (mask1 w s 0).toNat = 2 ^ s - 1 := by
  have hlt : 2 ^ s < 2 ^ w := Nat.pow_lt_pow_right (by decide) hs
  have hpos : 0 < 2 ^ s := Nat.two_pow_pos s
  have h1 : 1 < 2 ^ w := by omega
  have hone : (1#w).toNat = 1 := by
    rw [BitVec.toNat_ofNat, Nat.mod_eq_of_lt h1]
  rw [mask1, BitVec.shiftLeft_zero, BitVec.toNat_sub_of_le]
  · rw [BitVec.toNat_shiftLeft, hone, Nat.one_shiftLeft, Nat.mod_eq_of_lt hlt]
  · rw [BitVec.le_def, BitVec.toNat_shiftLeft, hone, Nat.one_shiftLeft, Nat.mod_eq_of_lt hlt]
    exact hpos

@[simp] theorem getLsbD_mask1_zero {s k : Nat} (hs : s < w) :
    (mask1 w s 0).getLsbD k = decide (k < s) := by
  rw [BitVec.getLsbD, toNat_mask1_zero hs, Nat.testBit_two_pow_sub_one]

theorem mask1_eq_shiftLeft (s p : Nat) : mask1 w s p = mask1 w s 0 <<< p := by
  simp [mask1]

variable {i v : BitVec w} {p q s t : Nat}

theorem toNat_getField (hs : s < w) : (getField i p s).toNat = i.toNat / 2 ^ p % 2 ^ s := by
  rw [getField, BitVec.toNat_and, toNat_mask1_zero hs, Nat.and_two_pow_sub_one_eq_mod,
    BitVec.toNat_ushiftRight, Nat.shiftRight_eq_div_pow]

theorem getField_lt (hs : s < w) : (getField i p s).toNat < 2 ^ s := by
  rw [toNat_getField hs]
  exact Nat.mod_lt _ (Nat.two_pow_pos s)

/-- Reading the field just written. -/
theorem getField_setField (hs : s < w) (hp : p + s ≤ w) :
    (getField (setField i v p s) p s).toNat = v.toNat % 2 ^ s := by
  have hbits : getField (setField i v p s) p s = v &&& mask1 w s 0 := by
    apply BitVec.eq_of_getLsbD_eq
    intro k hk
    simp only [getField, setField, mask0, mask1_eq_shiftLeft s p, BitVec.getLsbD_and,
      BitVec.getLsbD_or, BitVec.getLsbD_not, BitVec.getLsbD_ushiftRight,
      BitVec.getLsbD_shiftLeft, getLsbD_mask1_zero hs]
    by_cases hks : k < s
    · simp [hks, show p + k < w by omega]
    · simp [hks]
  rw [hbits, BitVec.toNat_and, toNat_mask1_zero hs, Nat.and_two_pow_sub_one_eq_mod]

/-- Writing one field leaves another alone. -/
theorem getField_setField_of_disjoint (hs : s < w) (ht : t < w) (h : p + s ≤ q ∨ q + t ≤ p) :
    getField (setField i v q t) p s = getField i p s := by
  apply BitVec.eq_of_getLsbD_eq
  intro k hk
  simp only [getField, setField, mask0, mask1_eq_shiftLeft t q, BitVec.getLsbD_and,
    BitVec.getLsbD_or, BitVec.getLsbD_not, BitVec.getLsbD_ushiftRight,
    BitVec.getLsbD_shiftLeft, getLsbD_mask1_zero hs, getLsbD_mask1_zero ht]
  by_cases hks : k < s
  · rcases h with h | h
    · have hlt : p + k < q := by omega
      by_cases hw : p + k < w
      · simp [hks, hlt, hw]
      · simp [hw, i.getLsbD_of_ge (p + k) (by omega)]
    · have hge : ¬p + k < q := by omega
      have hout : ¬p + k - q < t := by omega
      by_cases hw : p + k < w
      · simp [hks, hge, hout, hw]
      · simp [hw, i.getLsbD_of_ge (p + k) (by omega)]
  · simp [hks]

end FakeLisp
