import Mathlib.Tactic.Common

/-! Programs with a state that may stop without a result, what holds when they have one, and what
they stop for. -/

namespace FakeLisp

variable {ε σ α β : Type}

theorem except_bind_eq_ok {x : Except ε α} {f : α → Except ε β} {b : β} :
    x.bind f = .ok b ↔ ∃ a, x = .ok a ∧ f a = .ok b := by
  cases x <;> simp [Except.bind]

theorem except_bind_eq_error {x : Except ε α} {f : α → Except ε β} {e : ε} :
    x.bind f = .error e ↔ x = .error e ∨ ∃ a, x = .ok a ∧ f a = .error e := by
  cases x <;> simp [Except.bind]

theorem stateT_pure_apply (a : α) (s : σ) :
    (Pure.pure a : StateT σ (Except ε) α) s = .ok (a, s) := rfl

theorem stateT_bind_eq_ok {m : StateT σ (Except ε) α} {f : α → StateT σ (Except ε) β} {s : σ}
    {p : β × σ} : (m >>= f) s = .ok p ↔ ∃ q, m s = .ok q ∧ f q.1 q.2 = .ok p :=
  except_bind_eq_ok

theorem stateT_bind_eq_error {m : StateT σ (Except ε) α} {f : α → StateT σ (Except ε) β} {s : σ}
    {e : ε} : (m >>= f) s = .error e ↔ m s = .error e ∨ ∃ q, m s = .ok q ∧ f q.1 q.2 = .error e :=
  except_bind_eq_error

/-- Where `P` holds before, `Q` holds of each result. -/
def Triple (P : σ → Prop) (m : StateT σ (Except ε) α) (Q : α → σ → Prop) : Prop :=
  ∀ s a s', P s → m s = .ok (a, s') → Q a s'

/-- Where `P` holds before, a program that stops does so for a reason in `E`. -/
def Stops (P : σ → Prop) (m : StateT σ (Except ε) α) (E : ε → Prop) : Prop :=
  ∀ s e, P s → m s = .error e → E e

namespace Triple

variable {P P' : σ → Prop} {Q : α → σ → Prop} {R : β → σ → Prop}

theorem pure (a : α) : Triple (Q a) (Pure.pure a : StateT σ (Except ε) α) Q := by
  intro s b s' hs h
  obtain ⟨rfl, rfl⟩ := Prod.mk.inj (Except.ok.inj (stateT_pure_apply a s ▸ h))
  exact hs

theorem bind {m : StateT σ (Except ε) α} {f : α → StateT σ (Except ε) β} (hm : Triple P m Q)
    (hf : ∀ a, Triple (Q a) (f a) R) : Triple P (m >>= f) R := by
  intro s b s' hs h
  obtain ⟨⟨a, t⟩, ha, hb⟩ := stateT_bind_eq_ok.mp h
  exact hf a t b s' (hm s a t hs ha) hb

theorem stop {m : StateT σ (Except ε) α} (h : ∀ s, ∃ e, m s = .error e) : Triple P m Q := by
  intro s a s' _ hok
  obtain ⟨e, he⟩ := h s
  rw [he] at hok
  cases hok

theorem get : Triple P (MonadState.get : StateT σ (Except ε) σ) fun a s => a = s ∧ P s := by
  intro s a s' hs h
  simp only [MonadState.get, getThe, MonadStateOf.get, StateT.get, Pure.pure, Except.pure,
    Except.ok.injEq, Prod.mk.injEq] at h
  obtain ⟨rfl, rfl⟩ := h
  exact ⟨rfl, hs⟩

theorem update {U : Unit → σ → Prop} (f : σ → σ) :
    Triple (fun s => U () (f s)) (modify f : StateT σ (Except ε) Unit) U := by
  intro s a s' hs h
  cases h
  exact hs

theorem conseq {Q' : α → σ → Prop} {m : StateT σ (Except ε) α} (h : Triple P m Q)
    (hP : ∀ s, P' s → P s) (hQ : ∀ a s, Q a s → Q' a s) : Triple P' m Q' :=
  fun s a s' hs hm => hQ a s' (h s a s' (hP s hs) hm)

/-- What the condition says apart from the state. -/
theorem fact {φ : Prop} {m : StateT σ (Except ε) α} (hφ : ∀ s, P s → φ)
    (h : φ → Triple P m Q) : Triple P m Q :=
  fun s a s' hs hm => h (hφ s hs) s a s' hs hm

/-- The condition holds of one state. -/
theorem ofState {m : StateT σ (Except ε) α} (h : ∀ s, P s → Triple (fun t => t = s) m Q) :
    Triple P m Q :=
  fun s a s' hs hm => h s hs s a s' rfl hm

theorem mapPost {Q' : α → σ → Prop} {m : StateT σ (Except ε) α} (h : Triple P m Q)
    (hQ : ∀ a s, Q a s → Q' a s) : Triple P m Q' :=
  h.conseq (fun _ hs => hs) hQ

theorem mapPre {m : StateT σ (Except ε) α} (h : Triple P m Q) (hP : ∀ s, P' s → P s) :
    Triple P' m Q :=
  h.conseq hP fun _ _ hs => hs

/-- The result is one of the program. -/
theorem ran {m : StateT σ (Except ε) α} (h : Triple P m Q) :
    Triple P m fun a s => Q a s ∧ ∃ t t', m t = .ok (a, t') :=
  fun s a s' hs hm => ⟨h s a s' hs hm, s, s', hm⟩

/-- A result that the condition allows. -/
theorem ret (a : α) (h : ∀ s, P s → Q a s) :
    Triple P (Pure.pure a : StateT σ (Except ε) α) Q :=
  (pure a).mapPre h

end Triple

namespace Stops

variable {P P' : σ → Prop} {Q : α → σ → Prop} {E : ε → Prop}

theorem pure (a : α) : Stops P (Pure.pure a : StateT σ (Except ε) α) E := by
  intro s e _ h
  cases h

theorem bind {m : StateT σ (Except ε) α} {f : α → StateT σ (Except ε) β} (hm : Stops P m E)
    (hq : Triple P m Q) (hf : ∀ a, Stops (Q a) (f a) E) : Stops P (m >>= f) E := by
  intro s e hs h
  rcases stateT_bind_eq_error.mp h with h | ⟨⟨a, t⟩, ha, h⟩
  · exact hm s e hs h
  · exact hf a t e (hq s a t hs ha) h

/-- What runs behind stops for such a reason from whatever state. -/
theorem andThen {m : StateT σ (Except ε) α} {f : α → StateT σ (Except ε) β} (hm : Stops P m E)
    (hf : ∀ a, Stops (fun _ => True) (f a) E) : Stops P (m >>= f) E :=
  hm.bind (Q := fun _ _ => True) (fun _ _ _ _ _ => trivial) hf

theorem get : Stops P (MonadState.get : StateT σ (Except ε) σ) E := by
  intro s e _ h
  cases h

theorem update (f : σ → σ) : Stops P (modify f : StateT σ (Except ε) Unit) E := by
  intro s e _ h
  cases h

theorem mapPre {m : StateT σ (Except ε) α} (h : Stops P m E) (hP : ∀ s, P' s → P s) :
    Stops P' m E :=
  fun s e hs hm => h s e (hP s hs) hm

theorem fact {φ : Prop} {m : StateT σ (Except ε) α} (hφ : ∀ s, P s → φ)
    (h : φ → Stops P m E) : Stops P m E :=
  fun s e hs hm => h (hφ s hs) s e hs hm

theorem ofState {m : StateT σ (Except ε) α} (h : ∀ s, P s → Stops (fun t => t = s) m E) :
    Stops P m E :=
  fun s e hs hm => h s hs s e rfl hm

end Stops

end FakeLisp
