import Mathlib.Data.List.Nodup

/-! Hash maps as the source walks them: the entries in order of insertion, under distinct
keys. -/

namespace FakeLisp

structure OrdMap (K V : Type*) where
  entries : List (K × V)
  nodup : (entries.map Prod.fst).Nodup

namespace OrdMap

variable {K V : Type*} [DecidableEq K]

def del (m : OrdMap K V) (k : K) : OrdMap K V where
  entries := m.entries.filter fun e => e.1 ≠ k
  nodup := m.nodup.sublist (List.filter_sublist.map Prod.fst)

/-- The loop that deletes the dead entries while it walks the map. -/
def deleteDead (dead : K → V → Bool) (m : OrdMap K V) : OrdMap K V :=
  m.entries.foldl (fun m e => if dead e.1 e.2 then m.del e.1 else m) m

theorem mem_entries_del {m : OrdMap K V} {k : K} {e : K × V} :
    e ∈ (m.del k).entries ↔ e ∈ m.entries ∧ e.1 ≠ k := by
  simp [del]

omit [DecidableEq K] in
theorem eq_of_mem {m : OrdMap K V} {k : K} {v w : V} (hv : (k, v) ∈ m.entries)
    (hw : (k, w) ∈ m.entries) : v = w :=
  congrArg Prod.snd (List.inj_on_of_nodup_map m.nodup hv hw rfl)

theorem mem_deleteDead {dead : K → V → Bool} {m : OrdMap K V} {e : K × V} :
    e ∈ (m.deleteDead dead).entries ↔ e ∈ m.entries ∧ dead e.1 e.2 = false := by
  -- what is left after a prefix of the walk
  have hwalk : ∀ (l : List (K × V)) (n : OrdMap K V),
      e ∈ (l.foldl (fun m e => if dead e.1 e.2 then m.del e.1 else m) n).entries ↔
        e ∈ n.entries ∧ ∀ d ∈ l, dead d.1 d.2 = true → e.1 ≠ d.1 := by
    intro l
    induction l with
    | nil => simp
    | cons d l ih =>
      intro n
      rw [List.foldl_cons, ih]
      by_cases hd : dead d.1 d.2 = true
      · simp [hd, mem_entries_del, and_assoc]
      · simp [hd]
  unfold deleteDead
  rw [hwalk]
  refine and_congr_right fun he => ⟨fun h => ?_, fun h d hd hdead heq => ?_⟩
  · cases hdead : dead e.1 e.2 with
    | false => rfl
    | true => exact absurd rfl (h e he hdead)
  · have hsame : e.2 = d.2 := eq_of_mem (k := e.1) he (heq ▸ hd)
    rw [heq, hsame, hdead] at h
    cases h

end OrdMap

end FakeLisp
