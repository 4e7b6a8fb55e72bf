import FakeLisp.FollowChain
import Mathlib.Data.List.Basic

/-! Code with relative jumps, run by an interpreter of its instructions. A piece of code that runs
from its start to its end does so wherever it stands. -/

namespace FakeLisp

variable {I σ : Type}

section

-- what an instruction does: how far it jumps from the place behind it, and the new state
variable (exec : I → σ → Option (Int × σ))

def stepAt (code : List I) (c : Nat × σ) : Option (Nat × σ) := do
  let i ← code[c.1]?
  let (d, t) ← exec i c.2
  let pc := (c.1 : Int) + 1 + d
  if 0 ≤ pc then some (pc.toNat, t) else none

def Reaches (code : List I) (c c' : Nat × σ) : Prop := ∃ n, iterAt (stepAt exec code) c n = some c'

/-- From its first instruction the code runs to its end. -/
def Evals (code : List I) (s t : σ) : Prop := Reaches exec code (0, s) (code.length, t)

end

variable {exec : I → σ → Option (Int × σ)} {code c d pre post : List I} {s t u : σ} {i : I}

theorem stepAt_eq_some {pc : Nat} {c' : Nat × σ} : stepAt exec code (pc, s) = some c' ↔
    ∃ i d, code[pc]? = some i ∧ exec i s = some (d, c'.2) ∧ (pc : Int) + 1 + d = c'.1 := by
  simp only [stepAt, Option.bind_eq_bind, Option.bind_eq_some_iff]
  constructor
  · rintro ⟨i, hi, ⟨d, t⟩, hexec, h⟩
    split_ifs at h with hpos
    cases h
    exact ⟨i, d, hi, hexec, (Int.toNat_of_nonneg hpos).symm⟩
  · rintro ⟨i, d, hi, hexec, hpc⟩
    refine ⟨i, hi, (d, c'.2), hexec, ?_⟩
    simp only [hpc, Int.natCast_nonneg, if_true, Int.toNat_natCast]

theorem Reaches.refl (code : List I) (a : Nat × σ) : Reaches exec code a a := ⟨0, rfl⟩

theorem Reaches.trans {a b e : Nat × σ} (h : Reaches exec code a b) (h' : Reaches exec code b e) :
    Reaches exec code a e := by
  obtain ⟨n, hn⟩ := h
  obtain ⟨m, hm⟩ := h'
  exact ⟨n + m, (iterAt_add hn).trans hm⟩

theorem Reaches.step {a b : Nat × σ} (h : stepAt exec code a = some b) : Reaches exec code a b :=
  ⟨1, by rw [iterAt, iterAt, Option.bind_some, h]⟩

/-- A step of a piece of code is one of the whole code. -/
theorem stepAt_within {pc : Nat} {b : Nat × σ} (h : stepAt exec c (pc, s) = some b) :
    stepAt exec (pre ++ c ++ post) (pre.length + pc, s) = some (pre.length + b.1, b.2) := by
  obtain ⟨i, d, hi, hexec, hpc⟩ := stepAt_eq_some.mp h
  refine stepAt_eq_some.mpr ⟨i, d, ?_, hexec, ?_⟩
  · have hlt := (List.getElem?_eq_some_iff.mp hi).1
    rw [List.append_assoc, List.getElem?_append_right (Nat.le_add_right _ _), Nat.add_sub_cancel_left,
      List.getElem?_append_left hlt]
    exact hi
  · push_cast
    omega

theorem Reaches.within {a b : Nat × σ} (h : Reaches exec c a b) (pre post : List I) :
    Reaches exec (pre ++ c ++ post) (pre.length + a.1, a.2) (pre.length + b.1, b.2) := by
  obtain ⟨n, hn⟩ := h
  refine ⟨n, ?_⟩
  induction n generalizing b with
  | zero =>
    obtain rfl := Option.some.inj hn
    rfl
  | succ n ih =>
    rw [iterAt, Option.bind_eq_some_iff] at hn
    obtain ⟨e, he, hstep⟩ := hn
    rw [iterAt, ih he, Option.bind_some]
    exact stepAt_within hstep

theorem Evals.nil (s : σ) : Evals exec [] s s := Reaches.refl [] (0, s)

/-- In the code the piece runs from its place to the place behind it. -/
theorem Evals.within (h : Evals exec c s t) (pre post : List I) :
    Reaches exec (pre ++ c ++ post) (pre.length, s) (pre.length + c.length, t) :=
  Reaches.within h pre post

theorem Evals.append (h : Evals exec c s t) (h' : Evals exec d t u) : Evals exec (c ++ d) s u := by
  have hfirst := h.within [] d
  have hsecond := h'.within c []
  rw [List.nil_append, List.length_nil, Nat.zero_add] at hfirst
  rw [List.append_nil, ← List.length_append] at hsecond
  exact hfirst.trans hsecond

/-- An instruction that goes on with the next one. -/
theorem Evals.one (h : exec i s = some (0, t)) : Evals exec [i] s t :=
  Reaches.step (stepAt_eq_some.mpr ⟨i, 0, rfl, h, rfl⟩)

/-- A jump from the start to the end. -/
theorem Evals.jump (h : exec i s = some ((c.length : Int), t)) : Evals exec (i :: c) s t := by
  refine Reaches.step (stepAt_eq_some.mpr ⟨i, c.length, rfl, h, ?_⟩)
  rw [List.length_cons]
  push_cast
  omega

theorem stepAt_end (code : List I) (t : σ) : stepAt exec code (code.length, t) = none := by
  rw [stepAt, List.getElem?_eq_none (Nat.le_refl _)]
  rfl

/-- There is one place only where a run stops. -/
theorem Reaches.unique {a b e : Nat × σ} (h : Reaches exec code a b) (h' : Reaches exec code a e)
    (hb : stepAt exec code b = none) (he : stepAt exec code e = none) : b = e := by
  obtain ⟨n, hn⟩ := h
  obtain ⟨m, hm⟩ := h'
  have hnext : ∀ {k l : Nat} {x y : Nat × σ}, iterAt (stepAt exec code) a k = some x →
      stepAt exec code x = none → iterAt (stepAt exec code) a l = some y → k < l → False := by
    intro k l x y hx hstop hy hlt
    have hnone : iterAt (stepAt exec code) a (k + 1) = none := by
      rw [iterAt, hx, Option.bind_some, hstop]
    cases (iterAt_none hnone hlt).symm.trans hy
  rcases Nat.lt_trichotomy n m with hlt | rfl | hlt
  · exact (hnext hn hb hm hlt).elim
  · exact Option.some.inj (hn.symm.trans hm)
  · exact (hnext hm he hn hlt).elim

theorem Evals.unique (h : Evals exec code s t) (h' : Evals exec code s u) : t = u :=
  (Prod.mk.inj (Reaches.unique h h' (stepAt_end code t) (stepAt_end code u))).2

end FakeLisp
