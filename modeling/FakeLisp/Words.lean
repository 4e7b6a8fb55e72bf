import Mathlib

/-! Machine words as naturals and integers with explicit truncation, the counting
loops of C as folds with an invariant rule, and assertions. -/

namespace FakeLisp

/-- One proof for the byte strings that are looked up in lists. -/
instance lawfulBEqBytes : LawfulBEq (List UInt8) := inferInstance

/-- Conversion to an unsigned word of `w` bits. -/
def toUnsigned (w : Nat) (x : Int) : Nat := (x % 2 ^ w).toNat

/-- Conversion to a two's complement word of `w` bits. -/
def toSigned (w : Nat) (x : Int) : Int := x.bmod (2 ^ w)

abbrev u32 (x : Int) : Nat := toUnsigned 32 x
abbrev u64 (x : Int) : Nat := toUnsigned 64 x
abbrev i32 (x : Int) : Int := toSigned 32 x
abbrev i64 (x : Int) : Int := toSigned 64 x

theorem toUnsigned_of_lt {w : Nat} {x : Int} (h0 : 0 ≤ x) (h : x < 2 ^ w) :
    (toUnsigned w x : Int) = x := by
  rw [toUnsigned, Int.emod_eq_of_lt h0 h, Int.toNat_of_nonneg h0]

theorem toUnsigned_natCast {w n : Nat} (h : n < 2 ^ w) : toUnsigned w (n : Int) = n := by
  have := toUnsigned_of_lt (w := w) (x := n) (by omega) (by exact_mod_cast h)
  exact_mod_cast this

theorem u32_of_lt {n : Nat} (h : n < 2 ^ 32) : u32 (n : Int) = n := toUnsigned_natCast h

theorem u64_of_lt {n : Nat} (h : n < 2 ^ 64) : u64 (n : Int) = n := toUnsigned_natCast h

theorem toUnsigned_cast (w : Nat) (x : Int) : (toUnsigned w x : Int) = x % 2 ^ w :=
  Int.toNat_of_nonneg (Int.emod_nonneg _ (by positivity))

theorem toUnsigned_lt (w : Nat) (x : Int) : toUnsigned w x < 2 ^ w := by
  have h := Int.emod_lt_of_pos x (show (0 : Int) < 2 ^ w by positivity)
  rw [← toUnsigned_cast] at h
  exact_mod_cast h

theorem toSigned_of_mem {w : Nat} {x : Int} (h0 : -2 ^ w ≤ x) (h : x < 2 ^ w) :
    toSigned (w + 1) x = x := by
  rw [toSigned]
  apply Int.bmod_eq_of_le
  · rw [pow_succ]; push_cast; omega
  · rw [pow_succ]; push_cast; omega

theorem toSigned_le (w : Nat) (x : Int) : -2 ^ w ≤ toSigned (w + 1) x := by
  have h := Int.le_bmod (x := x) (m := 2 ^ (w + 1)) (by positivity)
  rw [toSigned]
  rw [pow_succ] at h ⊢
  push_cast at h
  omega

theorem toSigned_lt (w : Nat) (x : Int) : toSigned (w + 1) x < 2 ^ w := by
  have h := Int.bmod_lt (x := x) (m := 2 ^ (w + 1)) (by positivity)
  rw [toSigned]
  rw [pow_succ] at h ⊢
  push_cast at h
  omega

theorem toSigned_toSigned {v w : Nat} (h : v ≤ w) (x : Int) :
    toSigned v (toSigned w x) = toSigned v x :=
  Int.bmod_bmod_of_dvd (Nat.pow_dvd_pow 2 h)

theorem toSigned_add_toSigned (w : Nat) (x y : Int) :
    toSigned w (toSigned w x + y) = toSigned w (x + y) := Int.bmod_add_bmod

theorem toSigned_sub_toSigned (w : Nat) (x y : Int) :
    toSigned w (x - toSigned w y) = toSigned w (x - y) := Int.sub_bmod_bmod

theorem toSigned_neg_toSigned (w : Nat) (x : Int) :
    toSigned w (-toSigned w x) = toSigned w (-x) := Int.bmod_neg_bmod

theorem toSigned_mul_toSigned (w : Nat) (x y : Int) :
    toSigned w (toSigned w x * y) = toSigned w (x * y) := Int.bmod_mul_bmod

/-- `for (i = lo; i < lo + n; i++) s = body(i, s)`. -/
def forUpTo {σ : Type} (body : Nat → σ → σ) (lo : Nat) : Nat → σ → σ
  | 0, s => s
  | n + 1, s => body (lo + n) (forUpTo body lo n s)

/-- The invariant rule of the counting loop. -/
theorem forUpTo_inv {σ : Type} {f : Nat → σ → σ} {l n : Nat} {s : σ} (P : Nat → σ → Prop)
    (h0 : P l s) (hstep : ∀ i t, l ≤ i → i < l + n → P i t → P (i + 1) (f i t)) :
    P (l + n) (forUpTo f l n s) := by
  induction n with
  | zero => exact h0
  | succ n ih =>
    exact hstep (l + n) _ (by omega) (by omega)
      (ih (fun i t hl hi => hstep i t hl (by omega)))

/-- `for (i = n; i-- > 0;) s = body(i, s)`. -/
def forDown {σ : Type} (body : Nat → σ → σ) : Nat → σ → σ
  | 0, s => s
  | n + 1, s => forDown body n (body n s)

theorem forDown_inv {σ : Type} {f : Nat → σ → σ} {n : Nat} {s : σ} (P : Nat → σ → Prop)
    (h0 : P n s) (hstep : ∀ i t, i < n → P (i + 1) t → P i (f i t)) :
    P 0 (forDown f n s) := by
  induction n generalizing s with
  | zero => exact h0
  | succ n ih =>
    exact ih (hstep n s (by omega) h0) (fun i t hi => hstep i t (by omega))

/-- `FKL_ASSERT`: a failed assertion is `none`. -/
def fklAssert (p : Prop) [Decidable p] : Option Unit := if p then some () else none

@[simp] theorem fklAssert_eq_some {p : Prop} [Decidable p] (h : p) :
    fklAssert p = some () := if_pos h

/-- The sequence rule: run the first command, then the rest. -/
theorem bind_eq_of_eq {α β : Type} {x : Option α} {a : α} {f : α → Option β} {y : Option β}
    (hx : x = some a) (hf : f a = y) : x >>= f = y := by
  rw [hx]
  exact hf

end FakeLisp
