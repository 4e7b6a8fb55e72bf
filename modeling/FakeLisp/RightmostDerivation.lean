import Mathlib.Data.List.Basic
import Mathlib.Tactic.Common

/-! Rightmost derivations, built from their end: what shifts and reductions do to the symbols of a
stack. -/

namespace FakeLisp

/-- The productions that may be used are those with `has`. -/
structure CfProductions (S P : Type*) where
  has : P → Prop
  lhs : P → S
  rhs : P → List S
  term : S → Prop

namespace CfProductions

variable {S P : Type*} (c : CfProductions S P)

/-- The last symbol that is not a terminal is replaced. -/
inductive RmStep (p : P) : List S → List S → Prop
  | intro (hp : c.has p) (front back : List S) (hback : ∀ s ∈ back, c.term s) :
    RmStep p (front ++ c.lhs p :: back) (front ++ (c.rhs p ++ back))

/-- A rightmost derivation, with the productions in the order of its steps. -/
inductive RmDerives : List S → List P → List S → Prop
  | refl (form : List S) : RmDerives form [] form
  | head {p : P} {ps : List P} {form form' form'' : List S} (h : c.RmStep p form form')
    (h' : RmDerives form' ps form'') : RmDerives form (p :: ps) form''

variable {c} {p : P} {ps : List P} {form form' back : List S}

theorem RmStep.append (h : c.RmStep p form form') (hback : ∀ s ∈ back, c.term s) :
    c.RmStep p (form ++ back) (form' ++ back) := by
  obtain ⟨hp, front, mid, hmid⟩ := h
  have hall : ∀ s ∈ mid ++ back, c.term s := by
    intro s hs
    exact (List.mem_append.mp hs).elim (hmid s) (hback s)
  have hstep := RmStep.intro hp front (mid ++ back) hall
  simpa only [List.append_assoc, List.cons_append] using hstep

/-- What comes behind a form stays behind it when it is made of terminals. -/
theorem RmDerives.append (h : c.RmDerives form ps form') (hback : ∀ s ∈ back, c.term s) :
    c.RmDerives (form ++ back) ps (form' ++ back) := by
  induction h with
  | refl form => exact .refl _
  | head hstep _ ih => exact .head (hstep.append hback) ih

/-- A reduction at the end of a form is the first step. -/
theorem RmDerives.reduce {front w : List S} (hp : c.has p)
    (h : c.RmDerives (front ++ c.rhs p) ps w) :
    c.RmDerives (front ++ [c.lhs p]) (p :: ps) w := by
  apply RmDerives.head (RmStep.intro hp front [] (by simp))
  rwa [List.append_nil]

/-- What every step keeps is kept by a derivation. -/
theorem RmDerives.inv (inv : List S → Prop) (hstep : ∀ p form form', inv form →
    c.RmStep p form form' → inv form') (h : c.RmDerives form ps form') (hinv : inv form) :
    inv form' := by
  induction h with
  | refl form => exact hinv
  | head hs _ ih => exact ih (hstep _ _ _ hinv hs)

/-- What a form becomes when one of its symbols is replaced. -/
def rewrites [DecidableEq S] (c : CfProductions S P) (p : P) (form : List S) : List (List S) :=
  (List.range form.length).filterMap fun i =>
    if form[i]? = some (c.lhs p) then some (form.take i ++ (c.rhs p ++ form.drop (i + 1))) else none

theorem RmStep.mem_rewrites [DecidableEq S] (h : c.RmStep p form form') :
    c.has p ∧ form' ∈ c.rewrites p form := by
  obtain ⟨hp, front, back, -⟩ := h
  refine ⟨hp, List.mem_filterMap.mpr ⟨front.length, by simp, ?_⟩⟩
  simp

end CfProductions

end FakeLisp
