import Mathlib.Data.List.Range
import Mathlib.Data.Nat.ModEq
import Mathlib.Logic.Function.Basic

/-!
The values a ring buffer holds, oldest first. The buffer is read round its `size` cells from the
cell `first` on; a value is added at the cell after the last one and taken at `first`.
-/

namespace FakeLisp

variable {α : Type*}

def ringContents (size : Nat) (buf : Nat → α) (first count : Nat) : List α :=
  (List.range count).map fun i => buf ((first + i) % size)

@[simp] theorem length_ringContents (size : Nat) (buf : Nat → α) (first count : Nat) :
    (ringContents size buf first count).length = count := by
  simp [ringContents]

@[simp] theorem ringContents_zero (size : Nat) (buf : Nat → α) (first : Nat) :
    ringContents size buf first 0 = [] := rfl

/-- Cells fewer than `size` steps apart differ. -/
theorem ring_cell_inj {size first i j : Nat} (hi : i < size) (hj : j < size)
    (h : (first + i) % size = (first + j) % size) : i = j := by
  have h' : i ≡ j [MOD size] := Nat.ModEq.add_left_cancel' first h
  rwa [Nat.ModEq, Nat.mod_eq_of_lt hi, Nat.mod_eq_of_lt hj] at h'

theorem ringContents_push {size count : Nat} (buf : Nat → α) (first : Nat) (v : α)
    (h : count < size) :
    ringContents size (Function.update buf ((first + count) % size) v) first (count + 1) =
      ringContents size buf first count ++ [v] := by
  have hold : ∀ i ∈ List.range count,
      Function.update buf ((first + count) % size) v ((first + i) % size) =
        buf ((first + i) % size) := by
    intro i hi
    have hi := List.mem_range.mp hi
    refine Function.update_of_ne (fun heq => ?_) _ _
    have := ring_cell_inj (hi.trans h) h heq
    omega
  simp [ringContents, List.range_succ, List.map_congr_left hold]

theorem ringContents_pop (size : Nat) (buf : Nat → α) (first count : Nat) :
    ringContents size buf first (count + 1) =
      buf (first % size) :: ringContents size buf ((first + 1) % size) count := by
  simp only [ringContents, List.range_succ_eq_map, List.map_cons, List.map_map, Nat.add_zero]
  refine congrArg _ (List.map_congr_left fun i _ => ?_)
  simp [Nat.add_comm, Nat.add_left_comm]

end FakeLisp
