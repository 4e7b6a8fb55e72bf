import Mathlib.Logic.Function.Iterate
import Mathlib.Tactic.Common

/-! While loops run by fuel. The body may fail; enough fuel gives a result that no more fuel
changes. -/

namespace FakeLisp

variable {σ : Type*} {cond : σ → Bool} {body : σ → Option σ}

def whileLoop (cond : σ → Bool) (body : σ → Option σ) : Nat → σ → Option σ
  | 0, _ => none
  | fuel + 1, s => if cond s then (body s).bind (whileLoop cond body fuel) else some s

/-- More than `n` iterations are enough to take `s` to `t`. -/
def LoopsTo (cond : σ → Bool) (body : σ → Option σ) (n : Nat) (s t : σ) : Prop :=
  ∀ fuel, n < fuel → whileLoop cond body fuel s = some t

theorem LoopsTo.done {s : σ} {n : Nat} (h : cond s = false) : LoopsTo cond body n s s := by
  intro fuel hfuel
  cases fuel with
  | zero => omega
  | succ fuel => simp [whileLoop, h]

theorem LoopsTo.step {s t u : σ} {n : Nat} (hrun : LoopsTo cond body n t u)
    (h : cond s = true) (hbody : body s = some t) : LoopsTo cond body (n + 1) s u := by
  intro fuel hfuel
  cases fuel with
  | zero => omega
  | succ fuel =>
    simp only [whileLoop, h, if_true, hbody, Option.bind_some]
    exact hrun fuel (by omega)

theorem LoopsTo.mono {s t : σ} {m n : Nat} (hrun : LoopsTo cond body m s t) (h : m ≤ n) :
    LoopsTo cond body n s t :=
  fun fuel hfuel => hrun fuel (by omega)

theorem whileLoop_mono {fuel fuel' : Nat} {s t : σ} (h : whileLoop cond body fuel s = some t)
    (hle : fuel ≤ fuel') : whileLoop cond body fuel' s = some t := by
  induction fuel generalizing s fuel' with
  | zero => cases h
  | succ fuel ih =>
    obtain ⟨fuel', rfl⟩ := Nat.exists_eq_add_of_le' (Nat.le_trans (Nat.le_add_left 1 fuel) hle)
    cases hc : cond s with
    | false => simpa [whileLoop, hc] using h
    | true =>
      simp only [whileLoop, hc, if_true] at h ⊢
      obtain ⟨u, hu, h⟩ := Option.bind_eq_some_iff.mp h
      rw [hu, Option.bind_some]
      exact ih h (Nat.le_of_succ_le_succ hle)

/-- A run with some fuel ends where the loop does. -/
theorem LoopsTo.eq_of_run {fuel n : Nat} {s t u : σ} (hrun : LoopsTo cond body n s t)
    (h : whileLoop cond body fuel s = some u) : u = t := by
  have hfuel := hrun (max fuel (n + 1)) (by omega)
  rw [whileLoop_mono h (Nat.le_max_left fuel (n + 1))] at hfuel
  exact Option.some.inj hfuel

/-- Whatever fuel a loop has, an invariant of its body holds where it ends. -/
theorem whileLoop_inv (inv : σ → Prop)
    (hstep : ∀ s t, inv s → cond s = true → body s = some t → inv t) {fuel : Nat} {s t : σ}
    (hs : inv s) (h : whileLoop cond body fuel s = some t) : inv t ∧ cond t = false := by
  induction fuel generalizing s with
  | zero => cases h
  | succ fuel ih =>
    unfold whileLoop at h
    split at h
    · rename_i hc
      obtain ⟨u, hu, h⟩ := Option.bind_eq_some_iff.mp h
      exact ih (hstep s u hs hc hu) h
    · rename_i hc
      obtain rfl := Option.some.inj h
      exact ⟨hs, by simpa using hc⟩

/-- A loop whose body does not fail, and leaves the states alone where its test fails. -/
theorem LoopsTo.iterate {f : σ → σ} (hbody : ∀ s, body s = some (f s))
    (hfix : ∀ s, cond s = false → f s = s) {n : Nat} {s : σ} (h : cond (f^[n] s) = false) :
    LoopsTo cond body n s (f^[n] s) := by
  induction n generalizing s with
  | zero => exact LoopsTo.done h
  | succ n ih =>
    rw [Function.iterate_succ_apply] at h ⊢
    cases hc : cond s with
    | true => exact (ih h).step hc (hbody s)
    | false =>
      have hrest : f^[n] (f s) = s := by
        rw [hfix s hc]
        exact Function.iterate_fixed (hfix s hc) n
      rw [hrest]
      exact (LoopsTo.done hc).mono (Nat.zero_le _)

/-- A loop whose body keeps an invariant and takes its variant down ends where its test fails. -/
theorem LoopsTo.total (inv : Nat → σ → Prop)
    (hstep : ∀ n s, inv n s → cond s = true → ∃ t m, body s = some t ∧ m < n ∧ inv m t)
    {n : Nat} {s : σ} (hs : inv n s) :
    ∃ t m, inv m t ∧ cond t = false ∧ LoopsTo cond body n s t := by
  induction n using Nat.strongRecOn generalizing s with
  | _ n ih =>
    cases hc : cond s with
    | false => exact ⟨s, n, hs, hc, LoopsTo.done hc⟩
    | true =>
      obtain ⟨s', m, hbody, hlt, hs'⟩ := hstep n s hs hc
      obtain ⟨t, k, ht, hct, hrun⟩ := ih m hlt hs'
      exact ⟨t, k, ht, hct, (hrun.step hc hbody).mono hlt⟩

/-- A variant: how many of finitely many things are still to be done. -/
theorem countP_lt_countP {α : Type*} {p q : α → Bool} {l : List α} {a : α} (ha : a ∈ l)
    (hp : p a = false) (hq : q a = true) (h : ∀ x ∈ l, p x = true → q x = true) :
    l.countP p < l.countP q := by
  obtain ⟨s, t, rfl⟩ := List.append_of_mem ha
  simp only [List.countP_append, List.countP_cons, hp, hq, if_true, Bool.false_eq_true, if_false]
  have hs : s.countP p ≤ s.countP q := List.countP_mono_left fun x hx => h x (by simp [hx])
  have ht : t.countP p ≤ t.countP q := List.countP_mono_left fun x hx => h x (by simp [hx])
  omega

end FakeLisp
