import FakeLisp.InsertionMap
import Mathlib.Data.List.Range

/-! Maps whose values hold their own places: numbers from 0 on, in the order of insertion. And
cells that are filled by a list of writes. -/

namespace FakeLisp

namespace InsertionMap

variable {K V : Type*} {eq : K → K → Bool} {h : KeyEquiv eq} {m : InsertionMap eq V} {k k' : K}
  {v v' : V} {place : V → Nat}

def Placed (place : V → Nat) (m : InsertionMap eq V) : Prop :=
  m.entries.map (fun e => place e.2) = List.range m.entries.length

theorem placed_empty : (empty : InsertionMap eq V).Placed place := rfl

theorem add_of_get (hk : m.get k = some v') : m.add h k v = m := by
  obtain ⟨e, he, -⟩ := Option.map_eq_some_iff.mp hk
  unfold add
  split
  · rename_i hnone
    simp [hnone] at he
  · rfl

theorem entries_add_of_none (hk : m.get k = none) :
    (m.add h k v).entries = m.entries ++ [(k, v)] := by
  unfold add
  split
  · rfl
  · rename_i hsome
    exact absurd (get_eq_none_iff.mp hk) hsome

theorem Placed.add (hm : m.Placed place) (hv : place v = m.entries.length) :
    (m.add h k v).Placed place := by
  unfold Placed at hm ⊢
  cases hk : m.get k with
  | some v' => rwa [add_of_get hk]
  | none =>
    rw [entries_add_of_none hk, List.map_append, hm, List.length_append]
    simp [List.range_succ, hv]

/-- A value may be replaced by one with the same place. -/
theorem Placed.replace (h : KeyEquiv eq) (hm : m.Placed place) (hk : m.get k = some v)
    (hv : place v' = place v) : (m.replace k v').Placed place := by
  unfold Placed at hm ⊢
  rw [entries_replace, List.map_map, List.length_map, ← hm]
  refine List.map_congr_left fun e he => ?_
  dsimp only [Function.comp_apply]
  split
  · rename_i hke
    have hget := get_of_mem h he
    rw [← get_congr h hke, hk, Option.some_inj] at hget
    rw [hv, hget]
  · rfl

/-- A value is found at its place. -/
theorem Placed.getElem? (hm : m.Placed place) (hk : m.get k = some v) :
    ∃ e, m.entries[place v]? = some e ∧ eq k e.1 = true ∧ e.2 = v := by
  obtain ⟨e, he, hke, rfl⟩ := mem_of_get hk
  obtain ⟨i, hi, rfl⟩ := List.mem_iff_getElem.mp he
  have hplace : place (m.entries[i]).2 = i := by
    have := congrArg (fun l => l[i]?) hm
    simpa [hi] using this
  exact ⟨m.entries[i], by rw [hplace, List.getElem?_eq_getElem hi], hke, rfl⟩

theorem Placed.lt (hm : m.Placed place) (hk : m.get k = some v) : place v < m.entries.length := by
  obtain ⟨e, he, -⟩ := hm.getElem? hk
  exact (List.getElem?_eq_some_iff.mp he).1

theorem get_add_of_get (hk : m.get k' = some v') : (m.add h k v).get k' = some v' := by
  rw [get_add, hk]
  simp

theorem get_add_self : (m.add h k v).get k = some ((m.get k).getD v) := by
  rw [get_add, if_pos (h.refl k)]
  cases m.get k <;> rfl

end InsertionMap

/-! Writes. -/

section Cells

variable {C : Type*} {ws : List (Nat × C)} {cells : List (Option C)}

def storeCells (cells : List (Option C)) (ws : List (Nat × C)) : List (Option C) :=
  ws.foldl (fun cells w => cells.set w.1 (some w.2)) cells

theorem length_storeCells : (storeCells cells ws).length = cells.length := by
  induction ws generalizing cells with
  | nil => rfl
  | cons w ws ih => exact ih.trans List.length_set

theorem storeCells_of_notMem {i : Nat} (hi : i ∉ ws.map Prod.fst) :
    (storeCells cells ws)[i]? = cells[i]? := by
  induction ws generalizing cells with
  | nil => rfl
  | cons w ws ih =>
    rw [List.map_cons, List.mem_cons, not_or] at hi
    exact (ih hi.2).trans (List.getElem?_set_ne (Ne.symm hi.1))

theorem storeCells_of_mem {w : Nat × C} (hws : (ws.map Prod.fst).Nodup) (hw : w ∈ ws)
    (hlt : w.1 < cells.length) : (storeCells cells ws)[w.1]? = some (some w.2) := by
  induction ws generalizing cells with
  | nil => cases hw
  | cons x ws ih =>
    obtain ⟨hx, hws⟩ := List.nodup_cons.mp hws
    cases hw with
    | head => exact (storeCells_of_notMem hx).trans (List.getElem?_set_self hlt)
    | tail _ hw => exact ih hws hw (by rwa [List.length_set])

/-- Each cell is written once. -/
def WrittenOnce (n : Nat) (ws : List (Nat × C)) : Prop :=
  (ws.map Prod.fst).Perm (List.range n)

theorem WrittenOnce.getElem? {n : Nat} {w : Nat × C} (h : WrittenOnce n ws) (hw : w ∈ ws) :
    (storeCells (List.replicate n none) ws)[w.1]? = some (some w.2) := by
  have hlt := List.mem_range.mp (h.mem_iff.mp (List.mem_map_of_mem hw))
  exact storeCells_of_mem (h.nodup_iff.mpr List.nodup_range) hw (by simpa using hlt)

end Cells

end FakeLisp
