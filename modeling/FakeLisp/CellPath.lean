import FakeLisp.FollowChain
import Mathlib.Data.List.Nodup

/-! The cells that a chain of references goes through, and what stays of them when the reference of
one cell is set. -/

namespace FakeLisp

variable {V : Type} {f g : V → Option V} {v w u d e c : V} {cs ds : List V} {n : Nat}

/-- From `v` through `cs`, each the next one of the one before, on to `w`. -/
inductive CellPath (f : V → Option V) : V → List V → V → Prop where
  | nil (v : V) : CellPath f v [] v
  | cons {v d w : V} {cs : List V} (h : f v = some d) (hd : CellPath f d cs w) :
    CellPath f v (v :: cs) w

namespace CellPath

theorem append (h : CellPath f v cs w) (h' : CellPath f w ds u) : CellPath f v (cs ++ ds) u := by
  induction h with
  | nil v => exact h'
  | cons hv _ ih => exact cons hv (ih h')

/-- A cell on the way is reached, and the rest goes on from it. -/
theorem split (h : CellPath f v cs w) (hc : c ∈ cs) :
    ∃ as bs, cs = as ++ c :: bs ∧ CellPath f v as c ∧ CellPath f c (c :: bs) w := by
  induction h with
  | nil v => cases hc
  | @cons v d w cs hv hd ih =>
    by_cases hcv : c = v
    · subst hcv
      exact ⟨[], cs, rfl, nil c, cons hv hd⟩
    · obtain ⟨as, bs, rfl, has, hbs⟩ := ih ((List.mem_cons.mp hc).resolve_left hcv)
      exact ⟨v :: as, bs, rfl, cons hv has, hbs⟩

theorem iterAt_eq (h : CellPath f v cs w) : iterAt f v cs.length = some w := by
  induction h with
  | nil v => rfl
  | cons hv _ ih => rw [List.length_cons, iterAt_succ hv, ih]

theorem endsIn (h : CellPath f v cs e) (he : f e = none) : EndsIn f v cs.length e := by
  induction h with
  | nil v => exact .last v he
  | cons hv _ ih => exact .next _ _ _ _ hv (ih he)

theorem of_endsIn (h : EndsIn f v n e) : ∃ cs, cs.length = n ∧ CellPath f v cs e ∧ f e = none := by
  induction h with
  | last v hv => exact ⟨[], rfl, nil v, hv⟩
  | next v d e n hv _ ih =>
    obtain ⟨cs, rfl, hcs, he⟩ := ih
    exact ⟨v :: cs, rfl, cons hv hcs, he⟩

theorem congr (h : CellPath f v cs w) (hfg : ∀ c ∈ cs, f c = g c) : CellPath g v cs w := by
  induction h with
  | nil v => exact nil v
  | cons hv _ ih =>
    have hhead := hfg _ List.mem_cons_self
    exact cons (hhead ▸ hv) (ih fun c hc => hfg c (List.mem_cons_of_mem _ hc))

theorem last (h : CellPath f v (cs ++ [c]) w) : f c = some w := by
  induction cs generalizing v with
  | nil =>
    obtain _ | ⟨hv, hd⟩ := h
    cases hd
    exact hv
  | cons x cs ih =>
    obtain _ | ⟨_, hd⟩ := h
    exact ih hd

theorem unique (h : CellPath f v cs e) (h' : CellPath f v ds d) (he : f e = none) (hd : f d = none) :
    cs = ds ∧ e = d := by
  induction h generalizing ds with
  | nil v =>
    cases h' with
    | nil => exact ⟨rfl, rfl⟩
    | cons hv _ => cases he.symm.trans hv
  | cons hv _ ih =>
    cases h' with
    | nil => cases hd.symm.trans hv
    | cons hv' h' =>
      obtain rfl := Option.some.inj (hv.symm.trans hv')
      obtain ⟨rfl, rfl⟩ := ih h' he
      exact ⟨rfl, rfl⟩

/-- No way that comes to an end goes through a cell that leads back to where it starts. -/
theorem disjoint (h : CellPath f v cs w) (h' : CellPath f w ds e) (he : f e = none) :
    ∀ c ∈ ds, c ∉ cs := by
  intro c hds hcs
  obtain ⟨-, bs, -, -, hto⟩ := h.split hcs
  obtain ⟨as, rest, -, hback, hend⟩ := h'.split hds
  exact (hend.endsIn he).not_back (Nat.succ_pos _)
    (by simpa using (hto.append hback).iterAt_eq)

theorem nodup (h : CellPath f v cs e) (he : f e = none) : cs.Nodup := by
  induction h with
  | nil v => exact List.nodup_nil
  | @cons v d w cs hv hd ih =>
    have hnot : v ∉ cs := fun hmem =>
      disjoint (cons hv (nil d)) hd he v hmem List.mem_cons_self
    exact List.nodup_cons.mpr ⟨hnot, ih he⟩

variable [DecidableEq V]

/-- The reference of the last cell is set. -/
theorem setLast (h : CellPath f v (cs ++ [c]) w) (hc : c ∉ cs) (u : V) :
    CellPath (Function.update f c (some u)) v (cs ++ [c]) u := by
  obtain ⟨as, bs, heq, has, -⟩ := h.split (List.mem_append_right cs List.mem_cons_self)
  have hcs : as = cs := by
    cases bs using List.reverseRecOn with
    | nil => exact (List.append_inj_left' heq.symm rfl)
    | append_singleton bs b =>
      have hlast : cs = as ++ c :: bs :=
        List.append_inj_left' (heq.trans (by simp : _ = (as ++ c :: bs) ++ [b])) rfl
      exact absurd (hlast ▸ List.mem_append_right as List.mem_cons_self) hc
  subst hcs
  refine append (has.congr ?_) (cons (Function.update_self c _ f) (nil u))
  intro x hx
  have hne : x ≠ c := fun hxc => hc (hxc ▸ hx)
  rw [Function.update_of_ne hne]

end CellPath

end FakeLisp
