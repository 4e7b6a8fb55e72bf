import Mathlib.Data.List.Basic
import Mathlib.Logic.Function.Basic
import Mathlib.Tactic.Common

/-! Cells of a buffer that is written in place: what it holds from a position on. -/

namespace FakeLisp

variable {α : Type*} {buf : Nat → α} {a b : Nat} {c : α} {l l' : List α}

/-- From position `a` on stands `l`. -/
def CellsAt (buf : Nat → α) (a : Nat) (l : List α) : Prop := ∀ i c, l[i]? = some c → buf (a + i) = c

theorem cellsAt_nil (buf : Nat → α) (a : Nat) : CellsAt buf a [] := nofun

@[simp] theorem cellsAt_cons : CellsAt buf a (c :: l) ↔ buf a = c ∧ CellsAt buf (a + 1) l := by
  constructor
  · intro h
    refine ⟨h 0 c rfl, ?_⟩
    intro i d hd
    rw [Nat.add_assoc, Nat.add_comm 1 i]
    exact h (i + 1) d hd
  · rintro ⟨hc, h⟩ i d hd
    cases i with
    | zero => exact hc.trans (Option.some.inj hd)
    | succ i =>
      rw [Nat.add_comm i 1, ← Nat.add_assoc]
      exact h i d hd

theorem cellsAt_append :
    CellsAt buf a (l ++ l') ↔ CellsAt buf a l ∧ CellsAt buf (a + l.length) l' := by
  induction l generalizing a with
  | nil => exact ⟨fun h => ⟨cellsAt_nil buf a, h⟩, fun h => h.2⟩
  | cons c l ih =>
    rw [List.cons_append, cellsAt_cons, cellsAt_cons, ih, List.length_cons, and_assoc,
      Nat.add_assoc, Nat.add_comm 1]

theorem CellsAt.map_range (h : CellsAt buf a l) :
    (List.range l.length).map (fun i => buf (a + i)) = l := by
  apply List.ext_getElem
  · simp
  · intro i _ hi
    rw [List.getElem_map, List.getElem_range]
    exact h i l[i] (List.getElem?_eq_getElem hi)

/-- A write next to the cells leaves them. -/
theorem CellsAt.update (h : CellsAt buf a l) (hb : b < a ∨ a + l.length ≤ b) (c : α) :
    CellsAt (Function.update buf b c) a l := by
  intro i d hd
  have hi : i < l.length := (List.getElem?_eq_some_iff.mp hd).1
  have hne : a + i ≠ b := by omega
  rw [Function.update_of_ne hne]
  exact h i d hd

theorem CellsAt.snoc (h : CellsAt buf a l) (c : α) :
    CellsAt (Function.update buf (a + l.length) c) a (l ++ [c]) := by
  rw [cellsAt_append, cellsAt_cons]
  exact ⟨h.update (Or.inr (Nat.le_refl _)) c, Function.update_self _ _ _, cellsAt_nil _ _⟩

end FakeLisp
