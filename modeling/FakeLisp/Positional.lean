import Mathlib

/-! Numbers by their digits over an arbitrary base: digit functions with the least significant one
first, the telescoping law shared by every loop that ripples a carry or a borrow, and lists of
digits with the most significant one first. -/

namespace FakeLisp

/-- The value of the first `n` digits of `d` in base `b`. -/
def positional (b : Nat) (d : Nat → Nat) (n : Nat) : Nat :=
  ∑ i ∈ Finset.range n, d i * b ^ i

/-- The digits from position `k` on. -/
def wordsFrom (k : Nat) (d : Nat → Nat) : Nat → Nat := fun j => d (k + j)

@[simp] theorem positional_zero (b : Nat) (d : Nat → Nat) : positional b d 0 = 0 := by
  simp [positional]

theorem positional_succ (b : Nat) (d : Nat → Nat) (n : Nat) :
    positional b d (n + 1) = positional b d n + d n * b ^ n := by
  simp [positional, Finset.sum_range_succ]

@[simp] theorem positional_one (b : Nat) (d : Nat → Nat) : positional b d 1 = d 0 := by
  simp [positional]

theorem positional_cons (b : Nat) (d : Nat → Nat) (n : Nat) :
    positional b d (n + 1) = d 0 + b * positional b (fun i => d (i + 1)) n := by
  simp only [positional, Finset.sum_range_succ', pow_zero, mul_one, Finset.mul_sum]
  rw [add_comm]
  congr 1
  exact Finset.sum_congr rfl (fun i _ => by ring)

theorem positional_congr {b : Nat} {d e : Nat → Nat} {n : Nat}
    (h : ∀ i < n, d i = e i) : positional b d n = positional b e n :=
  Finset.sum_congr rfl (fun i hi => by rw [h i (Finset.mem_range.mp hi)])

theorem positional_add (b : Nat) (d : Nat → Nat) (m n : Nat) :
    positional b d (m + n) = positional b d m + b ^ m * positional b (wordsFrom m d) n := by
  induction n with
  | zero => simp
  | succ n ih =>
    rw [← add_assoc, positional_succ, ih, positional_succ, pow_add, wordsFrom]
    ring

theorem positional_update_of_le {b : Nat} {d : Nat → Nat} {n i v : Nat} (h : n ≤ i) :
    positional b (Function.update d i v) n = positional b d n :=
  positional_congr (fun j hj => Function.update_of_ne (by omega) _ _)

theorem positional_lt {b : Nat} {d : Nat → Nat} {n : Nat} (h : ∀ i < n, d i < b) :
    positional b d n < b ^ n := by
  induction n with
  | zero => simp
  | succ n ih =>
    have hlow := ih (fun i hi => h i (by omega))
    have hd : (d n + 1) * b ^ n ≤ b * b ^ n := Nat.mul_le_mul_right _ (h n (by omega))
    rw [positional_succ, pow_succ']
    linarith [Nat.add_mul (d n) 1 (b ^ n)]

theorem pow_le_positional {b : Nat} {d : Nat → Nat} {n : Nat} (h : d n ≠ 0) :
    b ^ n ≤ positional b d (n + 1) := by
  rw [positional_succ]
  have : 1 * b ^ n ≤ d n * b ^ n := Nat.mul_le_mul_right _ (Nat.pos_of_ne_zero h)
  omega

theorem positional_eq_of_zeros {b : Nat} {d : Nat → Nat} {m n : Nat} (hmn : m ≤ n)
    (h : ∀ i, m ≤ i → i < n → d i = 0) : positional b d n = positional b d m := by
  induction n, hmn using Nat.le_induction with
  | base => rfl
  | succ n hmn ih =>
    rw [positional_succ, h n hmn (by omega), ih (fun i hi hin => h i hi (by omega))]
    simp

theorem positional_pos_of_ne_zero {b : Nat} {d : Nat → Nat} {n i : Nat} (hb : 0 < b)
    (hi : i < n) (h : d i ≠ 0) : 0 < positional b d n := by
  have hle : d i * b ^ i ≤ positional b d n :=
    Finset.single_le_sum (f := fun j => d j * b ^ j) (fun j _ => Nat.zero_le _)
      (Finset.mem_range.mpr hi)
  have : 0 < d i * b ^ i := Nat.mul_pos (Nat.pos_of_ne_zero h) (Nat.pow_pos hb)
  omega

/-- The first difference from the top decides the order of two digit strings. -/
theorem positional_lt_of_first_diff {b : Nat} {d e : Nat → Nat} {n i : Nat}
    (hi : i < n) (hd : ∀ j < i, d j < b) (hlt : d i < e i)
    (heq : ∀ j, i < j → j < n → d j = e j) : positional b d n < positional b e n := by
  obtain ⟨k, rfl⟩ : ∃ k, n = (i + 1) + k := ⟨n - (i + 1), by omega⟩
  rw [positional_add, positional_add b e, positional_succ, positional_succ]
  have hhigh : positional b (wordsFrom (i + 1) d) k = positional b (wordsFrom (i + 1) e) k :=
    positional_congr (fun j hj => heq _ (by omega) (by omega))
  have hlow := positional_lt hd
  have hmul : (d i + 1) * b ^ i ≤ e i * b ^ i := Nat.mul_le_mul_right _ hlt
  rw [hhigh]
  linarith [Nat.add_mul (d i) 1 (b ^ i), Nat.zero_le (positional b e i)]

/-- The digits of a number by division. -/
theorem positional_digits (b n k : Nat) :
    positional b (fun i => n / b ^ i % b) k = n % b ^ k := by
  induction k with
  | zero => simp [positional, Nat.mod_one]
  | succ k ih => rw [positional_succ, ih, Nat.mod_pow_succ, mul_comm]

/-- Digit strings below the base with one value agree digit by digit. -/
theorem positional_inj {b : Nat} {d e : Nat → Nat} {n : Nat} (hd : ∀ i < n, d i < b)
    (he : ∀ i < n, e i < b) (h : positional b d n = positional b e n) :
    ∀ i < n, d i = e i := by
  induction n with
  | zero => intro i hi; omega
  | succ n ih =>
    have hld := positional_lt (fun i hi => hd i (Nat.lt_succ_of_lt hi))
    have hle := positional_lt (fun i hi => he i (Nat.lt_succ_of_lt hi))
    have hb : 0 < b ^ n := by omega
    rw [positional_succ, positional_succ] at h
    have htop : d n = e n := by
      have h1 := congrArg (· / b ^ n) h
      simpa [Nat.add_mul_div_right _ _ hb, Nat.div_eq_of_lt hld, Nat.div_eq_of_lt hle] using h1
    intro i hi
    rcases Nat.lt_succ_iff_lt_or_eq.mp hi with hi | rfl
    · exact ih (fun j hj => hd j (by omega)) (fun j hj => he j (by omega))
        (by rw [htop] at h; omega) i hi
    · exact htop

theorem positional_update_succ (b : Nat) (d : Nat → Nat) (i x : Nat) :
    positional b (Function.update d i x) (i + 1) = positional b d i + x * b ^ i := by
  rw [positional_succ, positional_update_of_le (le_refl i), Function.update_self]

/-- One round of a loop that ripples a carry: digit `x` is written at weight `b ^ i`
and `c'` is passed on. -/
theorem ripple_carry {R : Type} [CommSemiring R] {b s t c c' x y : R} {i : Nat}
    (hs : s + c * b ^ i = t) (hx : x + b * c' = c + y) :
    (s + x * b ^ i) + c' * b ^ (i + 1) = t + y * b ^ i := by
  calc (s + x * b ^ i) + c' * b ^ (i + 1) = s + (x + b * c') * b ^ i := by ring
    _ = (s + c * b ^ i) + y * b ^ i := by rw [hx]; ring
    _ = t + y * b ^ i := by rw [hs]

/-- One round of a loop that ripples a borrow. -/
theorem ripple_borrow {R : Type} [CommSemiring R] {b s t u c c' x y z : R} {i : Nat}
    (hs : s + u = t + c * b ^ i) (hz : z + y + c = x + b * c') :
    (s + z * b ^ i) + (u + y * b ^ i) = (t + x * b ^ i) + c' * b ^ (i + 1) := by
  calc (s + z * b ^ i) + (u + y * b ^ i) = (s + u) + (z + y) * b ^ i := by ring
    _ = t + (z + y + c) * b ^ i := by rw [hs]; ring
    _ = (t + x * b ^ i) + c' * b ^ (i + 1) := by rw [hz]; ring

theorem positional_cast_succ (b : Nat) (d : Nat → Nat) (n : Nat) :
    (positional b d (n + 1) : Int) = positional b d n + (d n : Int) * (b : Int) ^ n := by
  rw [positional_succ]
  push_cast
  ring

theorem wordsFrom_update (k i x : Nat) (d : Nat → Nat) :
    wordsFrom k (Function.update d (k + i) x) = Function.update (wordsFrom k d) i x := by
  funext j
  by_cases h : j = i
  · simp [wordsFrom, h]
  · simp [wordsFrom, h]

theorem wordsFrom_zero (d : Nat → Nat) : wordsFrom 0 d = d := by
  funext j
  simp [wordsFrom]

theorem positional_wordsFrom_succ (b k n : Nat) (d : Nat → Nat) :
    positional b (wordsFrom k d) (n + 1) =
      d k + b * positional b (wordsFrom (k + 1) d) n := by
  rw [positional_cons, positional_congr (e := wordsFrom (k + 1) d)]
  · rfl
  · intro j _
    simp only [wordsFrom]
    congr 1
    omega

/-! Numerals, which are read from the left, and the digit counts of numbers. -/

/-- The number that a list of digits denotes, read from the left. -/
def numeral (b : Nat) (ds : List Nat) : Nat := ds.foldl (fun v d => v * b + d) 0

theorem foldl_numeral (b v : Nat) (ds : List Nat) :
    ds.foldl (fun v d => v * b + d) v = v * b ^ ds.length + numeral b ds := by
  induction ds generalizing v with
  | nil => simp [numeral]
  | cons d ds ih =>
    have h0 := ih (0 * b + d)
    rw [numeral, List.foldl_cons, List.foldl_cons, ih, h0, List.length_cons, pow_succ']
    ring

@[simp] theorem numeral_nil (b : Nat) : numeral b [] = 0 := rfl

theorem numeral_cons (b d : Nat) (ds : List Nat) :
    numeral b (d :: ds) = d * b ^ ds.length + numeral b ds := by
  rw [numeral, List.foldl_cons, foldl_numeral, Nat.zero_mul, Nat.zero_add]

theorem numeral_append (b : Nat) (ds es : List Nat) :
    numeral b (ds ++ es) = numeral b ds * b ^ es.length + numeral b es := by
  rw [numeral, List.foldl_append, ← numeral, foldl_numeral]

theorem numeral_lt {b : Nat} {l : List Nat} (h : ∀ d ∈ l, d < b) :
    numeral b l < b ^ l.length := by
  induction l with
  | nil => simp
  | cons d l ih =>
    have hlow := ih (fun e he => h e (List.mem_cons_of_mem d he))
    have hd : (d + 1) * b ^ l.length ≤ b * b ^ l.length :=
      Nat.mul_le_mul_right _ (h d List.mem_cons_self)
    rw [numeral_cons, List.length_cons, pow_succ']
    linarith [Nat.add_mul d 1 (b ^ l.length)]

theorem pow_le_numeral {b d : Nat} {l : List Nat} (h : d ≠ 0) :
    b ^ l.length ≤ numeral b (d :: l) := by
  rw [numeral_cons]
  have hle : 1 * b ^ l.length ≤ d * b ^ l.length :=
    Nat.mul_le_mul_right _ (Nat.pos_of_ne_zero h)
  omega

/-- A numeral without a leading zero has as many digits as its number. -/
theorem length_eq_log {b d : Nat} {ds : List Nat} (h0 : d ≠ 0)
    (h : ∀ e ∈ d :: ds, e < b) : ds.length = Nat.log b (numeral b (d :: ds)) :=
  (Nat.log_eq_of_pow_le_of_lt_pow (pow_le_numeral h0) (numeral_lt h)).symm

/-- Grouping the bits of a number: `k` digits of `w` bits against its bit length. -/
theorem digits_of_bits {w l k n : Nat} (hw : 0 < w) (hl : 2 ^ (l - 1) ≤ n ∧ n < 2 ^ l)
    (hk : 2 ^ (w * (k - 1)) ≤ n ∧ n < 2 ^ (w * k)) (hk0 : k ≠ 0) :
    k = (l + (w - 1)) / w := by
  have h1 : w * (k - 1) < l := (Nat.pow_lt_pow_iff_right (by decide)).mp (hk.1.trans_lt hl.2)
  have h2 : l - 1 < w * k := (Nat.pow_lt_pow_iff_right (by decide)).mp (hl.1.trans_lt hk.2)
  obtain ⟨j, rfl⟩ : ∃ j, k = j + 1 := ⟨k - 1, by omega⟩
  rw [Nat.add_sub_cancel] at h1
  symm
  rw [Nat.div_eq_iff hw, Nat.add_mul, Nat.mul_comm j w]
  rw [Nat.mul_add] at h2
  omega

end FakeLisp
