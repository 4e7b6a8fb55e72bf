import FakeLisp.BigInt

/-! Assignments to a big integer. -/

namespace FakeLisp

/-- The block may be grown, or is already large enough. -/
def FklBigInt.CanHold (x : FklBigInt) (n : Nat) : Prop := x.constSize = false ∨ n ≤ x.size

theorem FklBigInt.CanHold.mono {x : FklBigInt} {k n : Nat} (h : x.CanHold n) (hk : k ≤ n) :
    x.CanHold k := h.imp_right hk.trans

theorem ensureBigintSize_spec {x : FklBigInt} {n : Nat} (h : x.CanHold n) :
    ∃ s, ensureBigintSize x n = some { x with size := s } ∧ n ≤ s ∧ x.size ≤ s := by
  unfold ensureBigintSize
  split
  · rcases h with h | h
    · exact ⟨n, by simp [h], le_refl _, by omega⟩
    · omega
  · exact ⟨x.size, rfl, by omega, le_refl _⟩

/-- What every successful assignment leaves behind: a normalized number in the
same object, whose block did not shrink. -/
structure Assigned (dst r : FklBigInt) (v : Int) : Prop where
  value : r.value = v
  normalized : r.Normalized
  constSize : r.constSize = dst.constSize
  size_le : dst.size ≤ r.size

/-! Another big integer. -/

theorem fklSetBigInt_spec {t src : FklBigInt} (hs : src.Normalized)
    (hd : t.CanHold src.num.natAbs) :
    ∃ r, fklSetBigInt t src = some r ∧ Assigned t r src.value ∧ r.num = src.num ∧
      ∀ i < src.num.natAbs, r.digits i = src.digits i := by
  obtain ⟨s, he, hn, hle⟩ := ensureBigintSize_spec hd
  let r : FklBigInt := { t with
    num := src.num
    size := s
    digits := fun i => if i < src.num.natAbs then src.digits i else t.digits i }
  have hdig : ∀ i < src.num.natAbs, r.digits i = src.digits i := fun i hi => if_pos hi
  have hm : r.mag = src.mag := FklBigInt.mag_congr rfl hdig
  have hval : r.value = src.value := by
    simp only [FklBigInt.value, hm]
    rfl
  have hnorm : r.Normalized := {
    digit_lt := fun i hi => by rw [hdig i hi]; exact hs.digit_lt i hi
    num_le := hn
    top_ne := fun h0 => by
      have hlt : src.num.natAbs - 1 < src.num.natAbs := by
        have : src.num ≠ 0 := h0
        omega
      show r.digits (src.num.natAbs - 1) ≠ 0
      rw [hdig _ hlt]
      exact hs.top_ne h0 }
  refine ⟨r, ?_, ⟨hval, hnorm, rfl, hle⟩, rfl, hdig⟩
  simp [fklSetBigInt, he, r]

/-! A machine integer. -/

theorem countDigitsLoop_spec (fuel i count : Nat) (h : i < 2 ^ fuel) :
    ∃ c, countDigitsLoop fuel i count = count + c ∧ i < digitBase ^ c ∧ (i = 0 → c = 0) ∧
      (i ≠ 0 → c ≠ 0 ∧ digitBase ^ (c - 1) ≤ i) := by
  induction fuel generalizing i count with
  | zero =>
    have : i = 0 := by omega
    exact ⟨0, rfl, by simp [this], fun _ => rfl, fun hi => absurd this hi⟩
  | succ fuel ih =>
    unfold countDigitsLoop
    by_cases hi : i = 0
    · exact ⟨0, by simp [hi], by simp [hi], fun _ => rfl, fun h0 => absurd hi h0⟩
    · have hlt : i / digitBase < 2 ^ fuel := by
        rw [Nat.div_lt_iff_lt_mul digitBase_pos]
        calc i < 2 ^ fuel * 2 := by rwa [← pow_succ]
          _ ≤ 2 ^ fuel * digitBase := Nat.mul_le_mul_left _ (by decide)
      obtain ⟨c, hc, hub, hz, hlb⟩ := ih (i / digitBase) (count + 1) hlt
      refine ⟨c + 1, ?_, ?_, fun h0 => absurd h0 hi, fun _ => ⟨by omega, ?_⟩⟩
      · rw [if_neg hi, shiftRight_digitShift, hc]
        omega
      · rw [pow_succ]
        exact (Nat.div_lt_iff_lt_mul digitBase_pos).mp hub
      · rw [Nat.add_sub_cancel]
        by_cases h0 : i / digitBase = 0
        · rw [hz h0]
          simpa using Nat.one_le_iff_ne_zero.mpr hi
        · obtain ⟨hc0, hle⟩ := hlb h0
          obtain ⟨k, rfl⟩ := Nat.exists_eq_succ_of_ne_zero hc0
          rw [pow_succ]
          exact (Nat.le_div_iff_mul_le digitBase_pos).mp hle

theorem countDigitsSize_spec {v : Nat} (h0 : v ≠ 0) (h : v < 2 ^ 64) :
    v < digitBase ^ countDigitsSize v ∧ countDigitsSize v ≠ 0 ∧
      digitBase ^ (countDigitsSize v - 1) ≤ v := by
  obtain ⟨c, hc, hub, _, hlb⟩ := countDigitsLoop_spec 64 v 0 h
  have : countDigitsSize v = c := by simpa [countDigitsSize, h0] using hc
  rw [this]
  exact ⟨hub, hlb h0⟩

/-- The count is the least number of digits. -/
theorem countDigitsSize_le {v n : Nat} (h : v < 2 ^ 64) (hn : v < digitBase ^ n) :
    countDigitsSize v ≤ n := by
  by_cases h0 : v = 0
  · simp [countDigitsSize, h0]
  · obtain ⟨_, _, hlb⟩ := countDigitsSize_spec h0 h
    by_contra hgt
    have hpow : digitBase ^ n ≤ digitBase ^ (countDigitsSize v - 1) :=
      Nat.pow_le_pow_right digitBase_pos (by omega)
    omega

theorem countDigitsSize_le_three {v : Nat} (h : v < 2 ^ 64) : countDigitsSize v ≤ 3 :=
  countDigitsSize_le h (lt_of_lt_of_le h (by decide))

theorem setUint64ToDigits_spec (d : Nat → Nat) (n v : Nat) :
    (∀ i < n, setUint64ToDigits d n v i < digitBase) ∧
      positional digitBase (setUint64ToDigits d n v) n = v % digitBase ^ n := by
  let P := fun (i : Nat) (s : (Nat → Nat) × Nat) =>
    (∀ j < i, s.1 j < digitBase) ∧ positional digitBase s.1 i + s.2 * digitBase ^ i = v
  have hinv : P (0 + n) (forUpTo (fun i (s : (Nat → Nat) × Nat) =>
      (Function.update s.1 i (s.2 &&& digitMask), s.2 >>> digitShift)) 0 n (d, v)) := by
    refine forUpTo_inv P ⟨by intro j hj; omega, by simp⟩ ?_
    rintro i ⟨e, r⟩ _ _ ⟨hlt, hsum⟩
    rw [land_digitMask, shiftRight_digitShift]
    constructor
    · intro j hj
      rcases Nat.lt_succ_iff_lt_or_eq.mp hj with hj | rfl
      · simpa [Function.update_of_ne (Nat.ne_of_lt hj)] using hlt j hj
      · simpa using Nat.mod_lt _ digitBase_pos
    · show positional digitBase (Function.update e i (r % digitBase)) (i + 1) + _ = v
      rw [positional_succ, positional_update_of_le (le_refl i), Function.update_self, ← hsum,
        add_assoc, pow_succ']
      congr 1
      calc r % digitBase * digitBase ^ i + r / digitBase * (digitBase * digitBase ^ i)
          = (r % digitBase + digitBase * (r / digitBase)) * digitBase ^ i := by ring
        _ = r * digitBase ^ i := by rw [Nat.mod_add_div]
  rw [Nat.zero_add] at hinv
  refine ⟨hinv.1, ?_⟩
  have hlt := positional_lt hinv.1
  have hmod := congrArg (· % digitBase ^ n) hinv.2
  simpa [Nat.add_mul_mod_self_right, Nat.mod_eq_of_lt hlt, setUint64ToDigits] using hmod

theorem fklSetBigIntU_spec {dst : FklBigInt} {v : Nat} (hv : v < 2 ^ 64)
    (hd : dst.CanHold (countDigitsSize v)) :
    ∃ r, fklSetBigIntU dst v = some r ∧ Assigned dst r v ∧ 0 ≤ r.num ∧ r.num ≤ 3 := by
  by_cases h0 : v = 0
  · let r : FklBigInt := { dst with num := 0 }
    have hz : r.value = 0 := by simp [r, FklBigInt.value, FklBigInt.mag]
    have hn : r.Normalized := {
      digit_lt := fun i hi => absurd hi (by simp [r])
      num_le := by simp [r]
      top_ne := fun h => absurd rfl h }
    exact ⟨r, by simp [fklSetBigIntU, h0, r], ⟨by simp [hz, h0], hn, rfl, le_refl _⟩,
      by simp [r], by simp [r]⟩
  · obtain ⟨hub, hc0, hlb⟩ := countDigitsSize_spec h0 hv
    have hc3 := countDigitsSize_le_three hv
    set c := countDigitsSize v with hc
    obtain ⟨s, he, hn, hle⟩ := ensureBigintSize_spec hd
    obtain ⟨hdlt, hpos⟩ := setUint64ToDigits_spec dst.digits c v
    rw [Nat.mod_eq_of_lt hub] at hpos
    let r : FklBigInt := { dst with
      num := c, size := s, digits := setUint64ToDigits dst.digits c v }
    have hnat : r.num.natAbs = c := by simp [r]
    have hmag : r.mag = v := by
      unfold FklBigInt.mag
      rw [hnat]
      exact hpos
    have hnorm : r.Normalized := {
      digit_lt := fun i hi => hdlt i (hnat ▸ hi)
      num_le := by rw [hnat]; exact hn
      top_ne := by
        intro _ htop
        rw [hnat] at htop
        obtain ⟨k, hk⟩ := Nat.exists_eq_succ_of_ne_zero hc0
        have hlow := positional_lt (n := k) (fun i hi => hdlt i (by omega))
        rw [hk, positional_succ] at hpos
        rw [hk] at htop hlb
        simp only [Nat.succ_eq_add_one, Nat.add_sub_cancel] at htop hlb
        have htop' : setUint64ToDigits dst.digits (k + 1) v k = 0 := by
          simpa [r, hk] using htop
        rw [htop'] at hpos
        rw [hk] at hlow
        omega }
    refine ⟨r, by simp [fklSetBigIntU, h0, ← hc, he, r], ⟨?_, hnorm, rfl, hle⟩,
      by simp [r], by simp [r]; omega⟩
    rw [FklBigInt.value_of_nonneg (by simp [r]), hmag]

theorem fklSetBigIntI_spec {t : FklBigInt} {v : Int} (hv : v.natAbs < 2 ^ 64)
    (hd : t.CanHold (countDigitsSize v.natAbs)) :
    ∃ r, fklSetBigIntI t v = some r ∧ Assigned t r v := by
  have hu : u64 (fklAbs v) = v.natAbs := by
    rw [fklAbs_eq]
    exact toUnsigned_natCast hv
  obtain ⟨r, he, ⟨hval, hnorm, hcs, hsz⟩, _, _⟩ := fklSetBigIntU_spec hv hd
  by_cases hneg : v < 0
  · refine ⟨{ r with num := -r.num }, by simp [fklSetBigIntI, hu, he, hneg],
      ⟨?_, hnorm.neg, hcs, hsz⟩⟩
    rw [FklBigInt.value_neg, hval]
    omega
  · exact ⟨r, by simp [fklSetBigIntI, hu, he, hneg], ⟨by rw [hval]; omega, hnorm, hcs, hsz⟩⟩

/-- A number of at most one digit is its medium value. -/
theorem mediumValue_eq {x : FklBigInt} (h : fklAbs x.num ≤ 1) : mediumValue x = x.value := by
  rw [fklAbs_eq] at h
  unfold mediumValue
  split
  · rw [FklBigInt.value_of_nonneg (by omega), FklBigInt.mag_of_num_eq_zero (by assumption)]
    rfl
  · have hm : x.mag = x.digits 0 := by
      have : x.num.natAbs = 1 := by omega
      simp [FklBigInt.mag, this]
    split
    · rw [FklBigInt.value_of_neg (by assumption), hm]
    · rw [FklBigInt.value_of_nonneg (by omega), hm]

theorem mediumValue_natAbs_lt {x : FklBigInt} (hx : x.Wf) (h : fklAbs x.num ≤ 1) :
    (mediumValue x).natAbs < digitBase := by
  rw [mediumValue_eq h, FklBigInt.value_natAbs]
  rw [fklAbs_eq] at h
  calc x.mag < digitBase ^ x.num.natAbs := hx.mag_lt
    _ ≤ digitBase ^ 1 := Nat.pow_le_pow_right digitBase_pos (by omega)
    _ = digitBase := pow_one _

end FakeLisp
