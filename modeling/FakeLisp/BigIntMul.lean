import FakeLisp.BigIntAdd

/-! Schoolbook multiplication into a fresh block. -/

namespace FakeLisp

variable {ρ : Type} [DecidableEq ρ]

/-- The body of the inner loop: `na` times word `j` of `b` into the cell `i + j`. -/
def mulRound (na : Nat) (b : Nat → Nat) (i j : Nat) (s : (Nat → Nat) × Nat) :
    (Nat → Nat) × Nat :=
  let carry := u64 (s.2 + (s.1 (i + j) + na * b j) : Nat)
  (Function.update s.1 (i + j) (carry &&& digitMask), carry >>> digitShift)

/-- The inner loop up to `j`. -/
def mulInner (a b : Nat → Nat) (i j : Nat) (result : Nat → Nat) : (Nat → Nat) × Nat :=
  forUpTo (mulRound (a i) b i) 0 j (result, 0)

/-- The body of the outer loop. -/
def mulRow (a b : Nat → Nat) (numB i : Nat) (result : Nat → Nat) : Nat → Nat :=
  let s := mulInner a b i numB result
  Function.update s.1 (i + numB) (u32 (s.1 (i + numB) + u32 s.2 : Nat))

/-- The outer loop up to `i`, from the block that `fklZcalloc` cleared. -/
def mulRows (a b : Nat → Nat) (numB i : Nat) : Nat → Nat :=
  forUpTo (mulRow a b numB) 0 i (fun _ => 0)

/-- `SAME_SIGN` -/
def sameSign (a b : FklBigInt) : Bool := (0 ≤ a.num ∧ 0 ≤ b.num) ∨ (a.num < 0 ∧ b.num < 0)

def fklMulBigInt (m : BigIntMem ρ) (a b : ρ) : Option (BigIntMem ρ) :=
  if (m a).is0 ∨ (m b).is1 then some m
  else if (m b).is0 then some (Function.update m a { m a with num := 0 })
  else if (m b).isN1 then some (negNum m a)
  else if (m a).is1 then do
    let x ← fklSetBigInt (m a) (m b)
    some (Function.update m a x)
  else if (m a).isN1 then do
    let x ← fklSetBigInt (m a) (m b)
    some (negNum (Function.update m a x) a)
  else
    let numA := (fklAbs (m a).num).toNat
    let numB := (fklAbs (m b).num).toNat
    let total := numA + numB
    let result := mulRows (m a).digits (m b).digits numB numA
    some (Function.update m a (bigintNormalize { m a with
      digits := result
      size := total
      num := if sameSign (m a) (m b) then (total : Int) else -total }))

/-! The loops. -/

/-- Two digits and their carries fill at most two digits. -/
theorem mul_step {x y z c : Nat} (hx : x < digitBase) (hy : y < digitBase) (hz : z < digitBase)
    (hc : c < digitBase) : c + (x + y * z) < digitBase * digitBase := by
  have hyz : y * z ≤ (digitBase - 1) * (digitBase - 1) :=
    Nat.mul_le_mul (Nat.le_sub_one_of_lt hy) (Nat.le_sub_one_of_lt hz)
  rw [digitBase_eq] at *
  omega

/-- Before round `j` of row `i`, which began with `old`. -/
structure MulInv (na : Nat) (b old d : Nat → Nat) (i j c : Nat) : Prop where
  digit_lt : ∀ k, d k < digitBase
  carry_lt : c < digitBase
  untouched : ∀ k, k < i ∨ i + j ≤ k → d k = old k
  sum : positional digitBase (wordsFrom i d) j + c * digitBase ^ j =
    positional digitBase (wordsFrom i old) j + na * positional digitBase b j

theorem MulInv.no_overflow {na : Nat} {b old d : Nat → Nat} {i j c : Nat}
    (h : MulInv na b old d i j c) (hna : na < digitBase) (hb : b j < digitBase) :
    c + (d (i + j) + na * b j) < 2 ^ 64 :=
  (mul_step (h.digit_lt _) hna hb h.carry_lt).trans (by decide)

theorem MulInv.step {na : Nat} {b old d : Nat → Nat} {i j c : Nat}
    (h : MulInv na b old d i j c) (hna : na < digitBase) (hb : b j < digitBase) :
    let s := mulRound na b i j (d, c)
    MulInv na b old s.1 i (j + 1) s.2 := by
  have hu : u64 (c + (d (i + j) + na * b j) : Nat) = c + (d (i + j) + na * b j) :=
    toUnsigned_natCast (h.no_overflow hna hb)
  have hread : d (i + j) = old (i + j) := h.untouched _ (Or.inr (le_refl _))
  simp only [mulRound, hu, land_digitMask, shiftRight_digitShift]
  have hlt := mul_step (h.digit_lt (i + j)) hna hb h.carry_lt
  generalize ht : c + (d (i + j) + na * b j) = t at hlt
  refine ⟨fun k => ?_, ?_, fun k hk => ?_, ?_⟩
  · by_cases hk : k = i + j
    · rw [hk, Function.update_self]
      exact Nat.mod_lt _ digitBase_pos
    · rw [Function.update_of_ne hk]
      exact h.digit_lt k
  · exact (Nat.div_lt_iff_lt_mul digitBase_pos).mpr hlt
  · rw [Function.update_of_ne (by omega)]
    exact h.untouched k (by omega)
  · rw [wordsFrom_update, positional_update_succ, positional_succ, positional_succ]
    have hstep : t % digitBase + digitBase * (t / digitBase) = c + (old (i + j) + na * b j) := by
      rw [Nat.mod_add_div, ← ht, hread]
    rw [ripple_carry h.sum hstep]
    simp only [wordsFrom]
    ring

theorem mulInner_inv {a b old : Nat → Nat} {i n : Nat} (hold : ∀ k, old k < digitBase)
    (ha : a i < digitBase) (hb : ∀ j < n, b j < digitBase) {j : Nat} (hj : j ≤ n) :
    MulInv (a i) b old (mulInner a b i j old).1 i j (mulInner a b i j old).2 := by
  have hinv := forUpTo_inv (f := mulRound (a i) b i) (l := 0) (n := j) (s := (old, 0))
    (fun j s => MulInv (a i) b old s.1 i j s.2)
    ⟨hold, digitBase_pos, fun _ _ => rfl, by simp⟩
    (fun j s _ hj' h => h.step ha (hb j (by omega)))
  rwa [Nat.zero_add] at hinv

/-- Before row `i`: the product so far, and zeros above it. -/
structure RowInv (a b d : Nat → Nat) (n i : Nat) : Prop where
  digit_lt : ∀ k, d k < digitBase
  zero : ∀ k, i + n ≤ k → d k = 0
  sum : positional digitBase d (i + n) = positional digitBase a i * positional digitBase b n

/-- The cell that takes the last carry of a row is still zero. -/
theorem RowInv.last_cell {a b d : Nat → Nat} {n i : Nat} (h : RowInv a b d n i)
    (ha : a i < digitBase) (hb : ∀ j < n, b j < digitBase) :
    (mulInner a b i n d).1 (i + n) = 0 ∧ (mulInner a b i n d).2 < digitBase := by
  have hinv := mulInner_inv h.digit_lt ha hb (le_refl n)
  exact ⟨(hinv.untouched _ (Or.inr (le_refl _))).trans (h.zero _ (le_refl _)), hinv.carry_lt⟩

theorem RowInv.step {a b d : Nat → Nat} {n i : Nat} (h : RowInv a b d n i)
    (ha : a i < digitBase) (hb : ∀ j < n, b j < digitBase) :
    RowInv a b (mulRow a b n i d) n (i + 1) := by
  have hinv := mulInner_inv h.digit_lt ha hb (le_refl n)
  obtain ⟨hcell, hc⟩ := h.last_cell ha hb
  generalize hs : mulInner a b i n d = s at hinv hcell hc
  have hrow : mulRow a b n i d = Function.update s.1 (i + n) s.2 := by
    have hu : u32 s.2 = s.2 := toUnsigned_natCast (hc.trans (by decide))
    simp only [mulRow, hs, hcell, hu, Nat.zero_add]
  rw [hrow]
  refine ⟨fun k => ?_, fun k hk => ?_, ?_⟩
  · by_cases hk : k = i + n
    · rwa [hk, Function.update_self]
    · rw [Function.update_of_ne hk]
      exact hinv.digit_lt k
  · rw [Function.update_of_ne (by omega), hinv.untouched k (by omega)]
    exact h.zero k (by omega)
  · have hlow : positional digitBase (Function.update s.1 (i + n) s.2) i =
        positional digitBase d i := by
      rw [positional_update_of_le (by omega)]
      exact positional_congr (fun j hj => hinv.untouched j (Or.inl hj))
    have hhigh := hinv.sum
    have hsplit := positional_add digitBase (Function.update s.1 (i + n) s.2) i (n + 1)
    rw [wordsFrom_update, positional_update_succ, hhigh, hlow] at hsplit
    have hold := positional_add digitBase d i n
    rw [show i + 1 + n = i + (n + 1) by omega, hsplit, positional_succ, Nat.add_mul, ← h.sum, hold]
    ring

theorem mulRows_inv {a b : Nat → Nat} {n m : Nat} (ha : ∀ i < m, a i < digitBase)
    (hb : ∀ j < n, b j < digitBase) {i : Nat} (hi : i ≤ m) :
    RowInv a b (mulRows a b n i) n i := by
  have hinv := forUpTo_inv (f := mulRow a b n) (l := 0) (n := i) (s := fun _ => 0)
    (fun i d => RowInv a b d n i)
    ⟨fun _ => digitBase_pos, fun _ _ => rfl, by
      simp [positional]⟩
    (fun i d _ hi' h => h.step (ha i (by omega)) hb)
  rwa [Nat.zero_add] at hinv

/-! The shortcuts. -/

theorem FklBigInt.value_of_is0 {x : FklBigInt} (h : x.is0 = true) : x.value = 0 := by
  simp only [FklBigInt.is0, decide_eq_true_eq, fklAbs_eq] at h
  have hmag : x.mag = 0 := by
    rcases h with h | ⟨h1, h0⟩
    · exact FklBigInt.mag_of_num_eq_zero h
    · simp [FklBigInt.mag, show x.num.natAbs = 1 by omega, h0]
  have habs := x.value_natAbs
  omega

theorem FklBigInt.value_of_is1 {x : FklBigInt} (h : x.is1 = true) : x.value = 1 := by
  simp only [FklBigInt.is1, decide_eq_true_eq] at h
  rw [FklBigInt.value_of_nonneg (by omega)]
  simp [FklBigInt.mag, h.1, h.2]

theorem FklBigInt.value_of_isN1 {x : FklBigInt} (h : x.isN1 = true) : x.value = -1 := by
  simp only [FklBigInt.isN1, decide_eq_true_eq] at h
  rw [FklBigInt.value_of_neg (by omega)]
  simp [FklBigInt.mag, h.1, h.2]

theorem neg_self_leaves {m : BigIntMem ρ} {a : ρ} (ha : (m a).Normalized) :
    Leaves m (negNum m a) a (-(m a).value) :=
  neg_leaves ⟨rfl, ha, rfl, fun _ _ => rfl⟩

theorem sameSign_iff (x y : FklBigInt) : sameSign x y = true ↔ (x.num < 0 ↔ y.num < 0) := by
  simp only [sameSign, decide_eq_true_eq]
  omega

/-- The general path. -/
theorem mulRows_leaves {m : BigIntMem ρ} {a b : ρ} (ha : (m a).Wf) (hb : (m b).Wf) :
    let total := (m a).num.natAbs + (m b).num.natAbs
    Leaves m (Function.update m a (bigintNormalize { m a with
      digits := mulRows (m a).digits (m b).digits (m b).num.natAbs (m a).num.natAbs
      size := total
      num := if sameSign (m a) (m b) then (total : Int) else -total })) a
      ((m a).value * (m b).value) := by
  intro total
  have hinv := mulRows_inv ha.digit_lt hb.digit_lt (le_refl (m a).num.natAbs)
  generalize mulRows (m a).digits (m b).digits (m b).num.natAbs (m a).num.natAbs = d at hinv
  have hn : (if sameSign (m a) (m b) then (total : Int) else -total).natAbs = total := by
    split <;> omega
  obtain ⟨hnorm, hval⟩ := normalize_written (x := { m a with
    digits := d
    size := total
    num := if sameSign (m a) (m b) then (total : Int) else -total }) hn
    (fun i _ => hinv.digit_lt i) (le_refl total)
  refine update_leaves ?_ hnorm rfl
  rw [hval]
  dsimp only
  rw [hinv.sum]
  change (if _ then -(((m a).mag * (m b).mag : Nat) : Int) else ((m a).mag * (m b).mag : Nat)) = _
  by_cases h0 : total = 0
  · have h1 := FklBigInt.mag_of_num_eq_zero (x := m a) (by omega)
    have h2 := FklBigInt.value_natAbs (m a)
    rw [h1] at h2 ⊢
    rw [Int.natAbs_eq_zero.mp h2]
    simp
  · by_cases hs : sameSign (m a) (m b) = true
    · rw [if_pos hs, if_neg (by omega)]
      have hiff := (sameSign_iff (m a) (m b)).mp hs
      by_cases hneg : (m a).num < 0
      · rw [FklBigInt.value_of_neg hneg, FklBigInt.value_of_neg (hiff.mp hneg)]
        push_cast
        ring
      · have hneg' : ¬(m b).num < 0 := fun h => hneg (hiff.mpr h)
        rw [FklBigInt.value_of_nonneg (not_lt.mp hneg), FklBigInt.value_of_nonneg (not_lt.mp hneg')]
        push_cast
        rfl
    · rw [if_neg hs, if_pos (by omega)]
      have hiff := mt (sameSign_iff (m a) (m b)).mpr hs
      by_cases hneg : (m a).num < 0
      · have hneg' : ¬(m b).num < 0 := fun h => hiff (iff_of_true hneg h)
        rw [FklBigInt.value_of_neg hneg, FklBigInt.value_of_nonneg (not_lt.mp hneg')]
        push_cast
        ring
      · have hneg' : (m b).num < 0 := by
          by_contra h
          exact hiff (iff_of_false hneg h)
        rw [FklBigInt.value_of_nonneg (not_lt.mp hneg), FklBigInt.value_of_neg hneg']
        push_cast
        ring

theorem fklMulBigInt_leaves {m : BigIntMem ρ} {a b : ρ} (ha : (m a).Normalized)
    (hb : (m b).Normalized) (hc : (m a).CanHold (m b).num.natAbs) :
    ∃ m', fklMulBigInt m a b = some m' ∧ Leaves m m' a ((m a).value * (m b).value) := by
  obtain ⟨x, hset, hx, _⟩ := fklSetBigInt_spec hb hc
  have hleaves : Leaves m (Function.update m a x) a (m b).value :=
    update_leaves hx.value hx.normalized hx.constSize
  unfold fklMulBigInt
  by_cases h1 : (m a).is0 = true ∨ (m b).is1 = true
  · refine ⟨m, if_pos h1, ?_, ha, rfl, fun _ _ => rfl⟩
    rcases h1 with h0 | h1
    · rw [FklBigInt.value_of_is0 h0, zero_mul]
    · rw [FklBigInt.value_of_is1 h1, mul_one]
  rw [if_neg h1]
  by_cases h2 : (m b).is0 = true
  · refine ⟨_, if_pos h2, ?_⟩
    rw [FklBigInt.value_of_is0 h2, mul_zero]
    exact num_zero_leaves rfl
  rw [if_neg h2]
  by_cases h3 : (m b).isN1 = true
  · refine ⟨_, if_pos h3, ?_⟩
    rw [FklBigInt.value_of_isN1 h3, mul_neg_one]
    exact neg_self_leaves ha
  rw [if_neg h3]
  by_cases h4 : (m a).is1 = true
  · refine ⟨_, (if_pos h4).trans (bind_eq_of_eq hset rfl), ?_⟩
    rwa [FklBigInt.value_of_is1 h4, one_mul]
  rw [if_neg h4]
  by_cases h5 : (m a).isN1 = true
  · refine ⟨_, (if_pos h5).trans (bind_eq_of_eq hset rfl), ?_⟩
    rw [FklBigInt.value_of_isN1 h5, neg_one_mul]
    exact neg_leaves hleaves
  · rw [if_neg h5]
    simp only [fklAbs_toNat]
    exact ⟨_, rfl, mulRows_leaves ha.toWf hb.toWf⟩

/-- The product is exact and normalized; on the way no 64-bit carry overflows, every stored
word is a digit, and the cell that takes the last carry of a row stays one. -/
theorem fklMulBigInt_exact (m : BigIntMem ρ) (a b : ρ) (ha : (m a).Normalized)
    (hb : (m b).Normalized) (hc : (m a).CanHold (m b).num.natAbs) :
    let row := mulRows (m a).digits (m b).digits (m b).num.natAbs
    let cell := fun i j => mulInner (m a).digits (m b).digits i j (row i)
    (∃ m', fklMulBigInt m a b = some m' ∧ Leaves m m' a ((m a).value * (m b).value)) ∧
    (∀ i < (m a).num.natAbs, ∀ j < (m b).num.natAbs, (∀ k, (cell i j).1 k < digitBase) ∧
      (cell i j).2 + ((cell i j).1 (i + j) + (m a).digits i * (m b).digits j) < 2 ^ 64) ∧
    ∀ i < (m a).num.natAbs, (∀ k, row (i + 1) k < digitBase) ∧
      (cell i (m b).num.natAbs).1 (i + (m b).num.natAbs) +
        (cell i (m b).num.natAbs).2 < digitBase := by
  intro row cell
  have hrow : ∀ i, i ≤ (m a).num.natAbs →
      RowInv (m a).digits (m b).digits (row i) (m b).num.natAbs i :=
    fun i hi => mulRows_inv ha.digit_lt hb.digit_lt hi
  refine ⟨fklMulBigInt_leaves ha hb hc, fun i hi j hj => ?_, fun i hi => ⟨?_, ?_⟩⟩
  · have hinv := mulInner_inv (hrow i hi.le).digit_lt (ha.digit_lt i hi) hb.digit_lt hj.le
    exact ⟨hinv.digit_lt, hinv.no_overflow (ha.digit_lt i hi) (hb.digit_lt j hj)⟩
  · exact (hrow (i + 1) hi).digit_lt
  · obtain ⟨hzero, hlt⟩ := (hrow i hi.le).last_cell (ha.digit_lt i hi) hb.digit_lt
    rw [hzero, Nat.zero_add]
    exact hlt

/-- A square, with the same object on both sides. -/
theorem sharedTop_square :
    ∃ m', fklMulBigInt sharedTop false false = some m' ∧
      Leaves sharedTop m' false ((sharedTop false).value * (sharedTop false).value) :=
  (fklMulBigInt_exact sharedTop false false (sharedTop_normalized false)
    (sharedTop_normalized false) (Or.inl rfl)).1

end FakeLisp
