import Mathlib.Tactic.Common

/-! Loops over a list that may end early with an error. -/

namespace FakeLisp

universe u

theorem Except.bind_eq_ok {ε : Type*} {α β : Type u} {x : Except ε α} {g : α → Except ε β} {b : β} :
    x >>= g = .ok b ↔ ∃ a, x = .ok a ∧ g a = .ok b := by
  cases x with
  | error e => simp [bind, Except.bind]
  | ok a => simp [bind, Except.bind]

theorem Except.bind_eq_error {ε : Type*} {α β : Type u} {x : Except ε α} {g : α → Except ε β}
    {e : ε} :
    x >>= g = .error e ↔ x = .error e ∨ ∃ a, x = .ok a ∧ g a = .error e := by
  cases x with
  | error e => simp [bind, Except.bind]
  | ok a => simp [bind, Except.bind]

theorem Except.map_eq_ok {ε α β : Type*} {x : Except ε α} {g : α → β} {b : β} :
    x.map g = .ok b ↔ ∃ a, x = .ok a ∧ g a = b := by
  cases x <;> simp [Except.map]

theorem Except.map_eq_error {ε α β : Type*} {x : Except ε α} {g : α → β} {e : ε} :
    x.map g = .error e ↔ x = .error e := by
  cases x <;> simp [Except.map]

variable {σ α ε : Type*} {f : σ → α → Except ε σ}

/-- What the steps of a loop keep; `P` is about the elements that are dealt with. -/
theorem foldlM_ok {P : List α → σ → Prop} {xs : List α} {s s' : σ}
    (h : xs.foldlM f s = .ok s') (h0 : P [] s)
    (hstep : ∀ done x rest t t', xs = done ++ x :: rest → P done t → f t x = .ok t' →
      P (done ++ [x]) t') : P xs s' := by
  suffices hrest : ∀ rest done t, xs = done ++ rest → P done t → rest.foldlM f t = .ok s' →
      P xs s' from hrest xs [] s rfl h0 h
  intro rest
  induction rest with
  | nil =>
    intro done t hxs hP hfold
    cases hfold
    rwa [hxs, List.append_nil]
  | cons x rest ih =>
    intro done t hxs hP hfold
    rw [List.foldlM_cons, Except.bind_eq_ok] at hfold
    obtain ⟨t', ht', hfold⟩ := hfold
    exact ih (done ++ [x]) t' (by simp [hxs]) (hstep done x rest t t' hxs hP ht') hfold

/-- An invariant of the steps. -/
theorem foldlM_ok_inv {P : σ → Prop} {xs : List α} {s s' : σ} (h : xs.foldlM f s = .ok s')
    (h0 : P s) (hstep : ∀ x ∈ xs, ∀ t t', P t → f t x = .ok t' → P t') : P s' :=
  foldlM_ok (P := fun _ s => P s) h h0 fun _ x _ t t' hxs ht => hstep x (by simp [hxs]) t t' ht

/-- Every step has been made. -/
theorem foldlM_ok_step {xs : List α} {s s' : σ} (h : xs.foldlM f s = .ok s') {x : α}
    (hx : x ∈ xs) : ∃ t t', f t x = .ok t' := by
  refine foldlM_ok (P := fun done _ => ∀ y ∈ done, ∃ t t', f t y = .ok t') h (by simp) ?_ x hx
  intro done y rest t t' _ hdone hy z hz
  rcases List.mem_append.mp hz with hz | hz
  · exact hdone z hz
  · obtain rfl := List.mem_singleton.mp hz
    exact ⟨t, t', hy⟩

/-- Where the error comes from. -/
theorem foldlM_error {xs : List α} {s : σ} {e : ε} (h : xs.foldlM f s = .error e) :
    ∃ done x rest t, xs = done ++ x :: rest ∧ done.foldlM f s = .ok t ∧ f t x = .error e := by
  induction xs generalizing s with
  | nil => cases h
  | cons x xs ih =>
    rw [List.foldlM_cons, Except.bind_eq_error] at h
    rcases h with h | ⟨t, ht, h⟩
    · exact ⟨[], x, xs, s, rfl, rfl, h⟩
    · obtain ⟨done, y, rest, u, rfl, hdone, hy⟩ := ih h
      refine ⟨x :: done, y, rest, u, rfl, ?_, hy⟩
      rw [List.foldlM_cons, Except.bind_eq_ok]
      exact ⟨t, ht, hdone⟩

end FakeLisp
