import FakeLisp.VarRef

/-! A captured slot has one open reference, which all closures that capture it share; closing keeps
its value, and a later capture makes another one. -/

namespace FakeLisp

namespace VarRefFrame

variable {R V : Type} {f f' g : VarRefFrame R V} {cs : VarRefCaptures R} {r : R} {i : Nat}

/-- A frame on which nothing has been done: no reference leads to its slots or above. -/
structure New (f : VarRefFrame R V) : Prop where
  lref : f.lref = none
  lrefl : f.lrefl = []
  apart : ∀ r ∈ f.live, ∀ a, f.loc ≤ a → (f.heap r).ref ≠ .slot a

/-- The vector and the list hold the same references, which are the open ones of the slots. -/
structure Linked (f : VarRefFrame R V) : Prop where
  mem_lrefl : ∀ i r, f.lrefAt i = some r ↔ r ∈ f.lrefl ∧ (f.heap r).idx = i
  opened : ∀ r ∈ f.lrefl, r ∈ f.live ∧ (f.heap r).idx < f.lcount ∧
    (f.heap r).ref = .slot (f.loc + (f.heap r).idx)
  only : ∀ r ∈ f.live, ∀ a, f.loc ≤ a → (f.heap r).ref = .slot a → r ∈ f.lrefl

/-- The captures that are not over are those of the open references. -/
structure Captured (f : VarRefFrame R V) (cs : VarRefCaptures R) : Prop where
  opened : ∀ c ∈ cs.opened, f.lrefAt c.1 = some c.2
  closed : ∀ r ∈ cs.closed, r ∈ f.live ∧ (f.heap r).ref = .self

theorem New.linked (h : f.New) : f.Linked where
  mem_lrefl i r := by simp [lrefAt, h.lref, h.lrefl]
  opened r hr := by simp [h.lrefl] at hr
  only r hr a ha hra := absurd hra (h.apart r hr a ha)

theorem Linked.open_iff (h : f.Linked) (hr : r ∈ f.live) (hi : i < f.lcount) :
    (f.heap r).ref = .slot (f.loc + i) ↔ f.lrefAt i = some r := by
  rw [h.mem_lrefl]
  constructor
  · intro hra
    have hl := h.only r hr _ (Nat.le_add_right _ _) hra
    obtain ⟨-, -, hslot⟩ := h.opened r hl
    have heq : f.loc + (f.heap r).idx = f.loc + i := by simpa using hslot.symm.trans hra
    exact ⟨hl, by omega⟩
  · rintro ⟨hl, rfl⟩
    exact (h.opened r hl).2.2

theorem Linked.lt (h : f.Linked) (hi : f.lrefAt i = some r) : i < f.lcount := by
  obtain ⟨hl, rfl⟩ := (h.mem_lrefl i r).mp hi
  exact (h.opened r hl).2.1

theorem Linked.live (h : f.Linked) (hi : f.lrefAt i = some r) : r ∈ f.live :=
  (h.opened r ((h.mem_lrefl i r).mp hi).1).1

/-- A reference is in the vector just when it is in the list and open. -/
theorem Linked.lrefAt_iff (h : f.Linked) : f.lrefAt i = some r ↔
    r ∈ f.lrefl ∧ (f.heap r).idx = i ∧ (f.heap r).ref ≠ .self := by
  rw [h.mem_lrefl]
  refine and_congr_right fun hl => (and_iff_left_of_imp fun _ => ?_).symm
  simp [(h.opened r hl).2.2]

/-- The value of the variable through an open reference and in its slot. -/
theorem Linked.varRefGet (h : f.Linked) (hi : f.lrefAt i = some r) :
    f.varRefGet r = f.getLoc i := by
  obtain ⟨hl, rfl⟩ := (h.mem_lrefl i r).mp hi
  simp [VarRefFrame.varRefGet, getLoc, (h.opened r hl).2.2]

/-- What an operation does to the values of the variables. -/
def StepRight (f f' : VarRefFrame R V) (cs : VarRefCaptures R) : VarRefOp R V → Prop
  | .putLoc i v => f'.getLoc i = some v ∧
    (∀ r, f.lrefAt i = some r → f'.varRefGet r = some v) ∧
    ∀ r ∈ f.live, f.lrefAt i ≠ some r → f'.varRefGet r = f.varRefGet r
  | .putVarRef r v => f'.varRefGet r = some v ∧
    (∀ i, f.lrefAt i = some r → f'.getLoc i = some v) ∧
    (r ∈ cs.closed → f'.base = f.base) ∧
    ∀ r' ∈ cs.closed, r' ≠ r → f'.varRefGet r' = f.varRefGet r'
  | .fetch _ | .closeRef _ | .returnCall _ _ | .ret =>
    ∀ r ∈ f.live, f'.varRefGet r = f.varRefGet r

variable [DecidableEq R]

/-- `g` is `f` with the references in `P` closed, whatever has become of the vector and the list. -/
structure Closes (f g : VarRefFrame R V) (P : R → Prop) : Prop where
  base : g.base = f.base
  loc : g.loc = f.loc
  lcount : g.lcount = f.lcount
  live : g.live = f.live
  get : ∀ r, g.varRefGet r = f.varRefGet r
  idx : ∀ r, (g.heap r).idx = (f.heap r).idx
  closed : ∀ r, P r → (g.heap r).ref = .self
  others : ∀ r, ¬P r → (g.heap r).ref = (f.heap r).ref

omit [DecidableEq R] in
theorem Closes.refl (f : VarRefFrame R V) {P : R → Prop} (hP : ∀ r, ¬P r) : f.Closes f P :=
  ⟨rfl, rfl, rfl, rfl, fun _ => rfl, fun _ => rfl, fun r hr => absurd hr (hP r), fun _ _ => rfl⟩

omit [DecidableEq R] in
theorem Closes.congr {P Q : R → Prop} (h : f.Closes g P) (hPQ : ∀ r, P r ↔ Q r) :
    f.Closes g Q := (funext fun r => propext (hPQ r)) ▸ h

omit [DecidableEq R] in
theorem Closes.trans {P Q : R → Prop} (h : f.Closes g P) (h' : g.Closes f' Q) :
    f.Closes f' fun r => P r ∨ Q r where
  base := h'.base.trans h.base
  loc := h'.loc.trans h.loc
  lcount := h'.lcount.trans h.lcount
  live := h'.live.trans h.live
  get r := (h'.get r).trans (h.get r)
  idx r := (h'.idx r).trans (h.idx r)
  closed r hr := by
    by_cases hq : Q r
    · exact h'.closed r hq
    · exact (h'.others r hq).trans (h.closed r (hr.resolve_right hq))
  others r hr := by
    rw [not_or] at hr
    exact (h'.others r hr.2).trans (h.others r hr.1)

theorem closes_closeVarRef (f : VarRefFrame R V) (r : R) : f.Closes (f.closeVarRef r) (· = r) where
  base := rfl
  loc := rfl
  lcount := rfl
  live := rfl
  get r' := by
    by_cases h : r' = r
    · subst h
      simp [varRefGet, closeVarRef]
    · simp [varRefGet, closeVarRef, h]
  idx r' := by
    by_cases h : r' = r
    · subst h
      simp [closeVarRef]
    · simp [closeVarRef, h]
  closed r' h := by simp [closeVarRef, h]
  others r' h := by simp [closeVarRef, h]

theorem closes_foldl (l : List R) (f : VarRefFrame R V) :
    f.Closes (l.foldl closeVarRef f) (· ∈ l) := by
  induction l generalizing f with
  | nil => exact Closes.refl f (by simp)
  | cons r l ih =>
    have h := (closes_closeVarRef f r).trans (ih (f.closeVarRef r))
    simpa only [List.foldl_cons, List.mem_cons] using h

theorem closes_closeAll (f : VarRefFrame R V) : f.Closes f.closeAllVarRef (· ∈ f.lrefl) := by
  obtain ⟨h₁, h₂, h₃, h₄, h₅, h₆, h₇, h₈⟩ := closes_foldl f.lrefl f
  exact ⟨h₁, h₂, h₃, h₄, h₅, h₆, h₇, h₈⟩

/-- The loop takes the references of the slots from `start` on out of the list and the vector. -/
theorem closeVarRefLoop_spec (start : Nat) (l : List R) (f : VarRefFrame R V) :
    (closeVarRefLoop start l f).1 = l.filter (fun r => (f.heap r).idx < start) ∧
    f.Closes (closeVarRefLoop start l f).2 (fun r => r ∈ l ∧ start ≤ (f.heap r).idx) ∧
    ∀ i, (closeVarRefLoop start l f).2.lrefAt i =
      if ∃ r ∈ l, start ≤ (f.heap r).idx ∧ (f.heap r).idx = i then none else f.lrefAt i := by
  induction l generalizing f with
  | nil => exact ⟨rfl, Closes.refl f (by simp), by simp [closeVarRefLoop]⟩
  | cons r l ih =>
    by_cases hr : start ≤ (f.heap r).idx
    · let f₁ : VarRefFrame R V :=
        { f.closeVarRef r with lref := f.lref.map fun lref => Function.update lref (f.heap r).idx none }
      have hf₁ : f.Closes f₁ (· = r) := by
        obtain ⟨h₁, h₂, h₃, h₄, h₅, h₆, h₇, h₈⟩ := closes_closeVarRef f r
        exact ⟨h₁, h₂, h₃, h₄, h₅, h₆, h₇, h₈⟩
      have heq : closeVarRefLoop start (r :: l) f = closeVarRefLoop start l f₁ := by
        have hidx : ((f.closeVarRef r).heap r).idx = (f.heap r).idx := (closes_closeVarRef f r).idx r
        simp only [closeVarRefLoop, ge_iff_le, hr, if_true, hidx]
        rfl
      obtain ⟨hl, hc, hat⟩ := ih f₁
      simp only [hf₁.idx] at hl hc hat
      rw [heq]
      refine ⟨by simp [hl, hr], ?_, fun i => ?_⟩
      · refine (hf₁.trans hc).congr fun x => ?_
        rw [List.mem_cons, or_and_right]
        refine or_congr_left (iff_self_and.mpr ?_)
        rintro rfl
        exact hr
      · have hat₁ : f₁.lrefAt i = if (f.heap r).idx = i then none else f.lrefAt i := by
          have hlref : f₁.lref = f.lref.map fun lref => Function.update lref (f.heap r).idx none :=
            rfl
          rw [lrefAt, hlref, lrefAt]
          cases f.lref with
          | none => simp
          | some lref =>
            by_cases hi : (f.heap r).idx = i
            · simp [hi]
            · simp [hi, Function.update_of_ne (Ne.symm hi)]
        rw [hat, hat₁]
        by_cases hi : (f.heap r).idx = i
        · rw [if_pos hi, ite_self, if_pos ⟨r, List.mem_cons_self, hr, hi⟩]
        · rw [if_neg hi]
          simp [hi]
    · obtain ⟨hl, hc, hat⟩ := ih f
      have heq : closeVarRefLoop start (r :: l) f =
          (r :: (closeVarRefLoop start l f).1, (closeVarRefLoop start l f).2) := by
        simp [closeVarRefLoop, hr]
      rw [heq]
      refine ⟨by simp [hl, not_le.mp hr], ?_, fun i => ?_⟩
      · refine hc.congr fun x => ?_
        rw [List.mem_cons, or_and_right]
        refine (or_iff_right ?_).symm
        rintro ⟨rfl, hx⟩
        exact hr hx
      · rw [hat]
        simp [hr]

omit [DecidableEq R] in
/-- The open references, when those of the slots from `start` on have been closed. -/
theorem Linked.closed (h : f.Linked) {start : Nat}
    (hc : f.Closes g fun r => r ∈ f.lrefl ∧ start ≤ (f.heap r).idx)
    (hl : g.lrefl = f.lrefl.filter fun r => (f.heap r).idx < start)
    (hat : ∀ i, g.lrefAt i = if start ≤ i then none else f.lrefAt i) : g.Linked where
  mem_lrefl i r := by
    rw [hat, hl, hc.idx, List.mem_filter]
    by_cases hi : start ≤ i
    · simp only [hi, if_true, decide_eq_true_eq]
      constructor
      · nofun
      · rintro ⟨⟨-, hlt⟩, rfl⟩
        omega
    · rw [if_neg hi, h.mem_lrefl]
      simp only [decide_eq_true_eq]
      constructor
      · rintro ⟨hr, rfl⟩
        exact ⟨⟨hr, not_le.mp hi⟩, rfl⟩
      · rintro ⟨⟨hr, -⟩, rfl⟩
        exact ⟨hr, rfl⟩
  opened r hr := by
    rw [hl, List.mem_filter, decide_eq_true_eq] at hr
    rw [hc.live, hc.idx, hc.lcount, hc.loc, hc.others r fun hx => absurd hr.2 (not_lt.mpr hx.2)]
    exact h.opened r hr.1
  only r hr a ha hra := by
    rw [hc.live] at hr
    rw [hc.loc] at ha
    have hnot : ¬(r ∈ f.lrefl ∧ start ≤ (f.heap r).idx) := fun hx => by
      rw [hc.closed r hx] at hra
      cases hra
    rw [hc.others r hnot] at hra
    have hmem := h.only r hr a ha hra
    rw [hl, List.mem_filter, decide_eq_true_eq]
    exact ⟨hmem, not_le.mp fun hx => hnot ⟨hmem, hx⟩⟩

/-- The captures, when those of the slots from `start` on are over. -/
theorem Captured.close (h : f.Linked) (hcap : f.Captured cs) {start : Nat}
    (hc : f.Closes g fun r => r ∈ f.lrefl ∧ start ≤ (f.heap r).idx)
    (hat : ∀ i, g.lrefAt i = if start ≤ i then none else f.lrefAt i) :
    g.Captured (cs.close start) where
  opened c hmem := by
    obtain ⟨hmem, hlt⟩ := List.mem_filter.mp hmem
    rw [decide_eq_true_eq] at hlt
    rw [hat, if_neg (not_le.mpr hlt)]
    exact hcap.opened c hmem
  closed r hr := by
    rw [hc.live]
    rcases List.mem_append.mp hr with hr | hr
    · obtain ⟨c, hmem, rfl⟩ := List.mem_map.mp hr
      obtain ⟨hmem, hle⟩ := List.mem_filter.mp hmem
      rw [decide_eq_true_eq] at hle
      have hopen := hcap.opened c hmem
      obtain ⟨hl, hidx⟩ := (h.mem_lrefl _ _).mp hopen
      exact ⟨h.live hopen, hc.closed _ ⟨hl, hidx ▸ hle⟩⟩
    · obtain ⟨hlive, hself⟩ := hcap.closed r hr
      refine ⟨hlive, ?_⟩
      by_cases hx : r ∈ f.lrefl ∧ start ≤ (f.heap r).idx
      · exact hc.closed r hx
      · rw [hc.others r hx, hself]

theorem closeVarRefFrom_spec (h : f.Linked) (start : Nat) :
    (f.Closes (f.closeVarRefFrom start) fun r => r ∈ f.lrefl ∧ start ≤ (f.heap r).idx) ∧
    ((f.closeVarRefFrom start).lrefl = f.lrefl.filter fun r => (f.heap r).idx < start) ∧
    ∀ i, (f.closeVarRefFrom start).lrefAt i = if start ≤ i then none else f.lrefAt i := by
  cases hlref : f.lref with
  | none =>
    have hnil : f.lrefl = [] := List.eq_nil_iff_forall_not_mem.mpr fun r hr => by
      have hat := (h.mem_lrefl _ r).mpr ⟨hr, rfl⟩
      simp [lrefAt, hlref] at hat
    have heq : f.closeVarRefFrom start = f := by simp [closeVarRefFrom, hlref]
    rw [heq]
    exact ⟨Closes.refl f (by simp [hnil]), by simp [hnil], by simp [lrefAt, hlref]⟩
  | some lref =>
    obtain ⟨hl, hc, hat⟩ := closeVarRefLoop_spec start f.lrefl f
    have heq : f.closeVarRefFrom start = { (closeVarRefLoop start f.lrefl f).2 with
        lrefl := (closeVarRefLoop start f.lrefl f).1 } := by
      simp only [closeVarRefFrom, hlref]
    rw [heq]
    obtain ⟨h₁, h₂, h₃, h₄, h₅, h₆, h₇, h₈⟩ := hc
    refine ⟨⟨h₁, h₂, h₃, h₄, h₅, h₆, h₇, h₈⟩, hl, fun i => (hat i).trans ?_⟩
    by_cases hi : start ≤ i
    · rw [if_pos hi]
      split
      · rfl
      · rename_i hnone
        cases hr : f.lrefAt i with
        | none => rfl
        | some r =>
          obtain ⟨hrl, rfl⟩ := (h.mem_lrefl i r).mp hr
          exact absurd ⟨r, hrl, hi, rfl⟩ hnone
    · rw [if_neg hi, if_neg]
      rintro ⟨r, -, hle, rfl⟩
      exact hi hle

/-- Where all references of the slots have been closed and taken out, the frame is as new. -/
theorem Linked.new_closeAll (h : f.Linked) (hheap : g.heap = f.closeAllVarRef.heap)
    (hlive : g.live = f.live) (hloc : g.loc = f.loc) (hlref : g.lref = none)
    (hlrefl : g.lrefl = []) : g.New where
  lref := hlref
  lrefl := hlrefl
  apart r hr a ha hra := by
    have hc := closes_closeAll f
    rw [hlive] at hr
    rw [hloc] at ha
    rw [hheap] at hra
    by_cases hl : r ∈ f.lrefl
    · rw [hc.closed r hl] at hra
      cases hra
    · rw [hc.others r hl] at hra
      exact hl (h.only r hr a ha hra)

theorem Captured.closeAll (h : f.Linked) (hcap : f.Captured cs)
    (hheap : g.heap = f.closeAllVarRef.heap) (hlive : g.live = f.live) :
    g.Captured (cs.close 0) := by
  have hc := (closes_closeAll f).congr fun r =>
    (and_iff_left (Nat.zero_le (f.heap r).idx)).symm
  have hcap₁ := hcap.close (g := { f.closeAllVarRef with lref := none }) h
    ⟨hc.base, hc.loc, hc.lcount, hc.live, hc.get, hc.idx, hc.closed, hc.others⟩ fun i => by
      simp [lrefAt]
  refine ⟨by simp [VarRefCaptures.close], fun r hr => ?_⟩
  obtain ⟨hr, hself⟩ := hcap₁.closed r hr
  rw [hlive, hheap]
  exact ⟨hc.live ▸ hr, hself⟩

/-- Closing keeps the values, whatever is stored in the slots of the frame afterwards. -/
theorem Linked.get_closeAll (h : f.Linked) (hheap : g.heap = f.closeAllVarRef.heap)
    (hbase : ∀ a < f.loc, g.base a = f.base a) (hr : r ∈ f.live) :
    g.varRefGet r = f.varRefGet r := by
  have hnew : ({ f.closeAllVarRef with lref := none } : VarRefFrame R V).New :=
    h.new_closeAll rfl (closes_closeAll f).live (closes_closeAll f).loc rfl rfl
  rw [← (closes_closeAll f).get r, VarRefFrame.varRefGet, VarRefFrame.varRefGet, hheap]
  cases hra : (f.closeAllVarRef.heap r).ref with
  | self => rfl
  | slot a =>
    have hlt : a < f.loc := not_le.mp fun hle =>
      hnew.apart r ((closes_closeAll f).live.symm ▸ hr) a ((closes_closeAll f).loc.symm ▸ hle) hra
    simp only [hbase a hlt, (closes_closeAll f).base]

/-- `g` is `f` with more references, in the heap and in the vector. -/
structure Grows (f g : VarRefFrame R V) : Prop where
  base : g.base = f.base
  loc : g.loc = f.loc
  live : ∀ r ∈ f.live, r ∈ g.live ∧ g.heap r = f.heap r
  lrefAt : ∀ i r, f.lrefAt i = some r → g.lrefAt i = some r

omit [DecidableEq R]

theorem Grows.refl (f : VarRefFrame R V) : f.Grows f :=
  ⟨rfl, rfl, fun _ hr => ⟨hr, rfl⟩, fun _ _ hi => hi⟩

theorem Grows.trans (h : f.Grows g) (h' : g.Grows f') : f.Grows f' where
  base := h'.base.trans h.base
  loc := h'.loc.trans h.loc
  live r hr := by
    obtain ⟨hg, hheap⟩ := h.live r hr
    obtain ⟨hf', hheap'⟩ := h'.live r hg
    exact ⟨hf', hheap'.trans hheap⟩
  lrefAt i r hi := h'.lrefAt i r (h.lrefAt i r hi)

theorem Grows.get (h : f.Grows g) (hr : r ∈ f.live) : g.varRefGet r = f.varRefGet r := by
  rw [VarRefFrame.varRefGet, VarRefFrame.varRefGet, (h.live r hr).2, h.base]

theorem Captured.grow (h : f.Captured cs) (hg : f.Grows g) : g.Captured cs where
  opened c hc := hg.lrefAt _ _ (h.opened c hc)
  closed r hr := by
    obtain ⟨hlive, hself⟩ := h.closed r hr
    obtain ⟨hlive', hheap⟩ := hg.live r hlive
    exact ⟨hlive', by rw [hheap, hself]⟩

/-- A new vector is empty. -/
theorem initLrefVec_eq (f : VarRefFrame R V) : ∃ lref : Nat → Option R,
    f.initLrefVec = { f with lref := some lref } ∧ ∀ i, lref i = f.lrefAt i := by
  cases hlref : f.lref with
  | none => exact ⟨fun _ => none, by simp [initLrefVec, hlref], by simp [lrefAt, hlref]⟩
  | some lref =>
    have heq : f.initLrefVec = f := by simp [initLrefVec, hlref]
    exact ⟨lref, by rw [heq, ← hlref], by simp [lrefAt, hlref]⟩

variable {mem : VarRefMem R} [DecidableEq R]

/-- The capture of a slot that no open reference leads to makes a reference. -/
theorem insert_spec (mem : VarRefMem R) (h : f.Linked) {lref : Nat → Option R}
    (hlref : f.lref = some lref) (hi : i < f.lcount) (hnone : f.lrefAt i = none)
    (hg : g = (f.fklCreateVMvalueVarRef mem i).2.insertLocalRef (mem.calloc f.live) i) :
    g.Linked ∧ f.Grows g ∧ g.lrefAt i = some (mem.calloc f.live) := by
  have hfresh := mem.calloc_not_mem f.live
  have hne : ∀ x ∈ f.live, x ≠ mem.calloc f.live := fun x hx he => hfresh (he ▸ hx)
  have hat : ∀ j, g.lrefAt j = if j = i then some (mem.calloc f.live) else f.lrefAt j := by
    intro j
    rw [hg]
    by_cases hj : j = i
    · simp [lrefAt, insertLocalRef, fklCreateVMvalueVarRef, hlref, hj]
    · simp [lrefAt, insertLocalRef, fklCreateVMvalueVarRef, hlref, hj]
  have hheap : ∀ x ∈ f.live, g.heap x = f.heap x := fun x hx => by
    simp [hg, insertLocalRef, fklCreateVMvalueVarRef, hne x hx]
  have hnew : g.heap (mem.calloc f.live) = { idx := i, v := none, ref := .slot (f.loc + i) } := by
    simp [hg, insertLocalRef, fklCreateVMvalueVarRef]
  have hlrefl : g.lrefl = mem.calloc f.live :: f.lrefl := by
    rw [hg]
    rfl
  have hlive : g.live = mem.calloc f.live :: f.live := by
    rw [hg]
    rfl
  have hloc : g.loc = f.loc := by
    rw [hg]
    rfl
  refine ⟨⟨fun j x => ?_, fun x hx => ?_, fun x hx a ha hxa => ?_⟩, ⟨?_, hloc, ?_, ?_⟩, ?_⟩
  · rw [hat, hlrefl, List.mem_cons]
    by_cases hx : x = mem.calloc f.live
    · subst hx
      simp only [hnew, true_or, true_and]
      constructor
      · intro hj
        by_contra hji
        rw [if_neg (Ne.symm hji)] at hj
        exact hfresh (h.live hj)
      · rintro rfl
        simp
    · simp only [hx, false_or]
      constructor
      · intro hj
        split at hj
        · exact absurd (Option.some.inj hj).symm hx
        · rw [hheap x (h.live hj)]
          exact (h.mem_lrefl j x).mp hj
      · rintro ⟨hxl, hxj⟩
        rw [hheap x (h.opened x hxl).1] at hxj
        have hjx := (h.mem_lrefl j x).mpr ⟨hxl, hxj⟩
        rw [if_neg, hjx]
        rintro rfl
        rw [hnone] at hjx
        cases hjx
  · have hcount : g.lcount = f.lcount := by
      rw [hg]
      rfl
    rw [hlive, hloc, hcount]
    rw [hlrefl] at hx
    rcases List.mem_cons.mp hx with rfl | hx
    · rw [hnew]
      exact ⟨List.mem_cons_self, hi, rfl⟩
    · obtain ⟨hxlive, hlt, hslot⟩ := h.opened x hx
      rw [hheap x hxlive]
      exact ⟨List.mem_cons_of_mem _ hxlive, hlt, hslot⟩
  · rw [hlrefl, List.mem_cons]
    rw [hlive, List.mem_cons] at hx
    refine hx.imp_right fun hx => ?_
    rw [hheap x hx] at hxa
    exact h.only x hx a (hloc ▸ ha) hxa
  · rw [hg]
    rfl
  · exact fun x hx => ⟨by simp [hlive, hx], hheap x hx⟩
  · intro j x hj
    rw [hat, if_neg, hj]
    rintro rfl
    rw [hnone] at hj
    cases hj
  · rw [hat, if_pos rfl]

theorem closed_spec (mem : VarRefMem R) (h : f.Linked)
    (hg : g = (f.fklCreateClosedVMvalueVarRef mem none).2) :
    g.Linked ∧ f.Grows g := by
  have hfresh := mem.calloc_not_mem f.live
  have hheap : ∀ x ∈ f.live, g.heap x = f.heap x := fun x hx => by
    have hne : x ≠ mem.calloc f.live := fun he => hfresh (he ▸ hx)
    simp [hg, fklCreateClosedVMvalueVarRef, hne]
  have hlive : g.live = mem.calloc f.live :: f.live := by
    rw [hg]
    rfl
  have hlrefl : g.lrefl = f.lrefl := by
    rw [hg]
    rfl
  have hat : ∀ j, g.lrefAt j = f.lrefAt j := fun j => by
    rw [hg]
    rfl
  refine ⟨⟨fun j x => ?_, fun x hx => ?_, fun x hx a ha hxa => ?_⟩, ⟨?_, ?_, ?_, ?_⟩⟩
  · rw [hat, h.mem_lrefl, hlrefl]
    exact and_congr_right fun hx => by rw [hheap x (h.opened x hx).1]
  · rw [hlrefl] at hx
    obtain ⟨hxlive, hlt, hslot⟩ := h.opened x hx
    rw [hheap x hxlive, hlive]
    exact ⟨List.mem_cons_of_mem _ hxlive, by rwa [hg], by rwa [hg]⟩
  · rw [hlive] at hx
    rw [hlrefl]
    rcases List.mem_cons.mp hx with rfl | hx
    · simp [hg, fklCreateClosedVMvalueVarRef] at hxa
    · rw [hheap x hx] at hxa
      rw [hg] at ha
      exact h.only x hx a ha hxa
  · rw [hg]
    rfl
  · rw [hg]
    rfl
  · exact fun x hx => ⟨by simp [hlive, hx], hheap x hx⟩
  · exact fun j x hj => (hat j).trans hj

/-- A captured reference is the open one of its slot, old or new. -/
theorem fetchVarRef_spec (h : f.Linked) {c : FklVarRefDef}
    (hf : f.fetchVarRef mem c = some (r, g)) :
    g.Linked ∧ f.Grows g ∧ (c.isLocal = true → g.lrefAt c.cidx = some r) := by
  unfold fetchVarRef at hf
  by_cases hlocal : c.isLocal = true
  · simp only [hlocal, if_true, Option.bind_eq_bind, Option.bind_eq_some_iff] at hf
    obtain ⟨_, hassert, hf⟩ := hf
    have hlt : c.cidx < f.lcount := by
      by_contra hge
      simp [fklAssert, hge] at hassert
    obtain ⟨lref, heq, hlref⟩ := f.initLrefVec_eq
    have hat : ∀ i, ({ f with lref := some lref } : VarRefFrame R V).lrefAt i = f.lrefAt i :=
      fun i => hlref i
    have h₁ : ({ f with lref := some lref } : VarRefFrame R V).Linked :=
      ⟨fun i r => by rw [hat]; exact h.mem_lrefl i r, h.opened, h.only⟩
    have hg₁ : f.Grows { f with lref := some lref } :=
      ⟨rfl, rfl, fun _ hr => ⟨hr, rfl⟩, fun i r hi => (hat i).trans hi⟩
    rw [heq] at hf
    cases hi : ({ f with lref := some lref } : VarRefFrame R V).lrefAt c.cidx with
    | some r' =>
      simp only [hi] at hf
      obtain ⟨rfl, rfl⟩ := Prod.mk.inj (Option.some.inj hf)
      exact ⟨h₁, hg₁, fun _ => hi⟩
    | none =>
      simp only [hi] at hf
      obtain ⟨rfl, hg⟩ := Prod.mk.inj (Option.some.inj hf)
      obtain ⟨hl, hgr, hc⟩ := insert_spec mem h₁ rfl hlt hi hg.symm
      exact ⟨hl, hg₁.trans hgr, fun _ => hc⟩
  · simp only [hlocal, Bool.false_eq_true, if_false] at hf
    cases hr : f.ref[c.cidx]? with
    | some r' =>
      simp only [hr] at hf
      obtain ⟨rfl, rfl⟩ := Prod.mk.inj (Option.some.inj hf)
      exact ⟨h, Grows.refl f, fun hl => absurd hl hlocal⟩
    | none =>
      simp only [hr] at hf
      obtain ⟨hl, hgr⟩ := closed_spec mem h (congrArg Prod.snd (Option.some.inj hf)).symm
      exact ⟨hl, hgr, fun hl => absurd hl hlocal⟩

/-- A new closure has the open reference of each local slot that it captures. -/
theorem fetchVarRefs_spec (h : f.Linked) {closure : List (Option R × FklVarRefDef)} {rs : List R}
    (hf : f.fklVMfetchVarRef mem closure = some (rs, g)) :
    g.Linked ∧ f.Grows g ∧
      ∀ c ∈ VarRefCaptures.ofClosure closure rs, g.lrefAt c.1 = some c.2 := by
  induction closure generalizing f rs with
  | nil =>
    obtain ⟨rfl, rfl⟩ := Prod.mk.inj (Option.some.inj hf)
    exact ⟨h, Grows.refl f, by simp [VarRefCaptures.ofClosure]⟩
  | cons c closure ih =>
    obtain ⟨old, c⟩ := c
    cases old with
    | some r =>
      simp only [fklVMfetchVarRef, Option.bind_eq_bind, Option.bind_eq_some_iff] at hf
      obtain ⟨⟨rs', g'⟩, hrest, heq⟩ := hf
      obtain ⟨rfl, rfl⟩ := Prod.mk.inj (Option.some.inj heq)
      obtain ⟨hl, hgr, hc⟩ := ih h hrest
      exact ⟨hl, hgr, by simpa only [VarRefCaptures.ofClosure] using hc⟩
    | none =>
      simp only [fklVMfetchVarRef, Option.bind_eq_bind, Option.bind_eq_some_iff] at hf
      obtain ⟨⟨r, f₁⟩, hone, ⟨rs', g'⟩, hrest, heq⟩ := hf
      obtain ⟨rfl, rfl⟩ := Prod.mk.inj (Option.some.inj heq)
      obtain ⟨hl₁, hgr₁, hc₁⟩ := fetchVarRef_spec h hone
      obtain ⟨hl, hgr, hc⟩ := ih hl₁ hrest
      refine ⟨hl, hgr₁.trans hgr, fun x hx => ?_⟩
      simp only [VarRefCaptures.ofClosure] at hx
      split at hx
      · rename_i hlocal
        rcases List.mem_cons.mp hx with rfl | hx
        · exact hgr.lrefAt _ _ (hc₁ hlocal)
        · exact hc x hx
      · exact hc x hx

omit [DecidableEq R] in
/-- A store changes nothing but values. -/
theorem Linked.congr (h : f.Linked) (hlref : g.lref = f.lref) (hlrefl : g.lrefl = f.lrefl)
    (hlive : g.live = f.live) (hloc : g.loc = f.loc) (hlcount : g.lcount = f.lcount)
    (hidx : ∀ r, (g.heap r).idx = (f.heap r).idx) (href : ∀ r, (g.heap r).ref = (f.heap r).ref) :
    g.Linked where
  mem_lrefl i r := by
    rw [hlrefl, hidx, ← h.mem_lrefl, lrefAt, lrefAt, hlref]
  opened r hr := by
    rw [hlive, hloc, hlcount, hidx, href]
    exact h.opened r (hlrefl ▸ hr)
  only r hr a ha hra := by
    rw [hlrefl]
    exact h.only r (hlive ▸ hr) a (hloc ▸ ha) (href r ▸ hra)

omit [DecidableEq R] in
theorem Captured.congr (h : f.Captured cs) (hlref : g.lref = f.lref) (hlive : g.live = f.live)
    (href : ∀ r, (g.heap r).ref = (f.heap r).ref) : g.Captured cs where
  opened c hc := by
    rw [lrefAt, hlref]
    exact h.opened c hc
  closed r hr := by
    rw [hlive, href]
    exact h.closed r hr

theorem varRefSet_fields (f : VarRefFrame R V) (r : R) (v : Option V) :
    (f.varRefSet r v).lref = f.lref ∧ (f.varRefSet r v).lrefl = f.lrefl ∧
    (f.varRefSet r v).live = f.live ∧ (f.varRefSet r v).loc = f.loc ∧
    (f.varRefSet r v).lcount = f.lcount ∧
    (∀ x, ((f.varRefSet r v).heap x).idx = (f.heap x).idx) ∧
    ∀ x, ((f.varRefSet r v).heap x).ref = (f.heap x).ref := by
  unfold varRefSet
  cases (f.heap r).ref with
  | slot a => exact ⟨rfl, rfl, rfl, rfl, rfl, fun _ => rfl, fun _ => rfl⟩
  | self =>
    refine ⟨rfl, rfl, rfl, rfl, rfl, fun x => ?_, fun x => ?_⟩
    · by_cases hx : x = r
      · simp [hx]
      · simp [hx]
    · by_cases hx : x = r
      · simp [hx]
      · simp [hx]

theorem closeAll_finalize (f : VarRefFrame R V) :
    f.doFinalizeCompoundFrame.heap = f.closeAllVarRef.heap ∧
    f.doFinalizeCompoundFrame.live = f.live ∧ f.doFinalizeCompoundFrame.loc = f.loc ∧
    f.doFinalizeCompoundFrame.base = f.base :=
  ⟨rfl, (closes_closeAll f).live, (closes_closeAll f).loc, (closes_closeAll f).base⟩

/-- After a call of the procedure by itself, nothing is left of the references but their values. -/
theorem returnCall_spec (f : VarRefFrame R V) (args : List V) (room : Bool) :
    (f.returnCall args room).heap = f.closeAllVarRef.heap ∧
    (f.returnCall args room).live = f.live ∧ (f.returnCall args room).loc = f.loc ∧
    (f.returnCall args room).lref = none ∧ (f.returnCall args room).lrefl = [] ∧
    ∀ a < f.loc, (f.returnCall args room).base a = f.base a := by
  have hc := closes_closeAll f
  have hbase : ∀ a < f.loc, (if f.closeAllVarRef.loc ≤ a ∧ a < f.closeAllVarRef.loc + args.length
      then args[a - f.closeAllVarRef.loc]? else f.closeAllVarRef.base a) = f.base a := by
    intro a ha
    rw [hc.loc, hc.base, if_neg]
    exact fun h => absurd h.1 (not_le.mpr ha)
  cases room with
  | true =>
    refine ⟨rfl, hc.live, hc.loc, rfl, rfl, fun a ha => ?_⟩
    simp only [returnCall, if_true]
    rw [if_neg, hbase a ha]
    rw [hc.loc]
    exact fun h => absurd (Nat.le_add_right _ _ |>.trans h.1) (not_le.mpr ha)
  | false => exact ⟨rfl, hc.live, hc.loc, rfl, rfl, hbase⟩

theorem step_spec (h : f.Linked) (hcap : f.Captured cs) {op : VarRefOp R V} {rs : List R}
    (hs : f.step mem op = some (rs, f')) :
    f'.Linked ∧ f'.Captured (cs.step rs op) ∧ StepRight f f' cs op := by
  cases op with
  | fetch closure =>
    simp only [step, Option.bind_eq_bind, Option.bind_eq_some_iff] at hs
    obtain ⟨_, -, hs⟩ := hs
    obtain ⟨hl, hg, hc⟩ := fetchVarRefs_spec h hs
    have hcap' := hcap.grow hg
    refine ⟨hl, ⟨fun c hmem => ?_, hcap'.closed⟩, fun r hr => hg.get hr⟩
    rcases List.mem_append.mp hmem with hmem | hmem
    · exact hc c hmem
    · exact hcap'.opened c hmem
  | putLoc i v =>
    simp only [step, Option.bind_eq_bind, Option.bind_eq_some_iff] at hs
    obtain ⟨_, hassert, heq⟩ := hs
    have hlt : i < f.lcount := by
      by_contra hge
      simp [fklAssert, hge] at hassert
    obtain ⟨-, rfl⟩ := Prod.mk.inj (Option.some.inj heq)
    refine ⟨h.congr rfl rfl rfl rfl rfl (fun _ => rfl) fun _ => rfl,
      hcap.congr rfl rfl fun _ => rfl, by simp [getLoc], fun r hi => ?_, fun r hr hi => ?_⟩
    · simp [varRefGet, (h.open_iff (h.live hi) hlt).mpr hi]
    · rw [Ne, ← h.open_iff hr hlt] at hi
      rw [varRefGet, varRefGet]
      cases hra : (f.heap r).ref with
      | self => rfl
      | slot a =>
        have hne : a ≠ f.loc + i := fun hai => hi (hai ▸ hra)
        simp [hne]
  | putVarRef r v =>
    simp only [step, Option.bind_eq_bind, Option.bind_eq_some_iff] at hs
    obtain ⟨_, -, heq⟩ := hs
    obtain ⟨-, rfl⟩ := Prod.mk.inj (Option.some.inj heq)
    obtain ⟨h₁, h₂, h₃, h₄, h₅, h₆, h₇⟩ := varRefSet_fields f r (some v)
    refine ⟨h.congr h₁ h₂ h₃ h₄ h₅ h₆ h₇, hcap.congr h₁ h₃ h₇, ?_, fun i hi => ?_, fun hr => ?_,
      fun r' hr' hne => ?_⟩
    · rw [varRefGet, h₇]
      cases hra : (f.heap r).ref <;> simp [varRefSet, hra]
    · have hra := (h.open_iff (h.live hi) (h.lt hi)).mpr hi
      simp [varRefSet, hra, getLoc]
    · simp [varRefSet, (hcap.closed r hr).2]
    · have hself := (hcap.closed r' hr').2
      rw [varRefGet, varRefGet, h₇, hself]
      cases hra : (f.heap r).ref <;> simp [varRefSet, hra, hne]
  | closeRef start =>
    simp only [step, Option.bind_eq_bind, Option.bind_eq_some_iff] at hs
    obtain ⟨_, -, heq⟩ := hs
    obtain ⟨-, rfl⟩ := Prod.mk.inj (Option.some.inj heq)
    obtain ⟨hc, hl, hat⟩ := closeVarRefFrom_spec h start
    exact ⟨h.closed hc hl hat, hcap.close h hc hat, fun r _ => hc.get r⟩
  | returnCall args room =>
    simp only [step, Option.bind_eq_bind, Option.bind_eq_some_iff] at hs
    obtain ⟨_, -, heq⟩ := hs
    obtain ⟨-, rfl⟩ := Prod.mk.inj (Option.some.inj heq)
    obtain ⟨h₁, h₂, h₃, h₄, h₅, h₆⟩ := returnCall_spec f args room
    exact ⟨(h.new_closeAll h₁ h₂ h₃ h₄ h₅).linked, hcap.closeAll h h₁ h₂,
      fun r hr => h.get_closeAll h₁ h₆ hr⟩
  | ret =>
    simp only [step, Option.bind_eq_bind, Option.bind_eq_some_iff] at hs
    obtain ⟨_, -, heq⟩ := hs
    obtain ⟨-, rfl⟩ := Prod.mk.inj (Option.some.inj heq)
    obtain ⟨h₁, h₂, h₃, h₄⟩ := closeAll_finalize f
    exact ⟨(h.new_closeAll h₁ h₂ h₃ rfl rfl).linked, hcap.closeAll h h₁ h₂,
      fun r hr => h.get_closeAll h₁ (fun a _ => congrFun h₄ a) hr⟩

theorem run_spec (h : f.Linked) (hcap : f.Captured cs) {ops : List (VarRefOp R V)}
    {cs' : VarRefCaptures R} (hrun : f.run mem cs ops = some (cs', f')) :
    f'.Linked ∧ f'.Captured cs' := by
  induction ops generalizing f cs with
  | nil =>
    obtain ⟨rfl, rfl⟩ := Prod.mk.inj (Option.some.inj hrun)
    exact ⟨h, hcap⟩
  | cons op ops ih =>
    simp only [run, Option.bind_eq_bind, Option.bind_eq_some_iff] at hrun
    obtain ⟨⟨rs, f₁⟩, hs, hrest⟩ := hrun
    obtain ⟨h₁, hcap₁, -⟩ := step_spec h hcap hs
    exact ih h₁ hcap₁ hrest

/-- What holds of a frame, and of what its closures have captured, all along. -/
structure Shared (f : VarRefFrame R V) (cs : VarRefCaptures R) : Prop where
  /-- The vector and the list agree on the open references. -/
  lrefAt_iff : ∀ i r, f.lrefAt i = some r ↔
    r ∈ f.lrefl ∧ (f.heap r).idx = i ∧ (f.heap r).ref ≠ .self
  /-- A slot has no other open reference than that of the vector. -/
  open_iff : ∀ i < f.lcount, ∀ r ∈ f.live,
    (f.heap r).ref = .slot (f.loc + i) ↔ f.lrefAt i = some r
  opened : ∀ c ∈ cs.opened, f.lrefAt c.1 = some c.2
  get : ∀ c ∈ cs.opened, f.varRefGet c.2 = f.getLoc c.1
  /-- The closures that have captured a slot since its scope was left last share the reference. -/
  share : ∀ c ∈ cs.opened, ∀ c' ∈ cs.opened, c.1 = c'.1 ↔ c.2 = c'.2
  closed : ∀ r ∈ cs.closed, (f.heap r).ref = .self
  fresh : ∀ c ∈ cs.opened, c.2 ∉ cs.closed

omit [DecidableEq R] in
theorem Linked.shared (h : f.Linked) (hcap : f.Captured cs) : f.Shared cs where
  lrefAt_iff i r := h.lrefAt_iff
  open_iff i hi r hr := h.open_iff hr hi
  opened := hcap.opened
  get c hc := h.varRefGet (hcap.opened c hc)
  share c hc c' hc' := by
    have hopen := hcap.opened c hc
    have hopen' := hcap.opened c' hc'
    constructor
    · intro heq
      rw [heq] at hopen
      exact Option.some.inj (hopen.symm.trans hopen')
    · intro heq
      rw [heq] at hopen
      rw [← ((h.mem_lrefl _ _).mp hopen).2, ← ((h.mem_lrefl _ _).mp hopen').2]
  closed r hr := (hcap.closed r hr).2
  fresh c hc hmem := (h.lrefAt_iff.mp (hcap.opened c hc)).2.2 (hcap.closed _ hmem).2

end VarRefFrame

variable {R V : Type} [DecidableEq R]

open VarRefFrame in
/-- Whatever has been done with a frame, each slot has the one open reference that all closures
share which have captured it since its scope was left last, and no reference from before; and what
is done next changes the values as it should: a store through the slot or through its reference
shows in both and in no closed reference, and closing keeps all values. -/
theorem varRefs_shared (mem : VarRefMem R) {f₀ : VarRefFrame R V} (h₀ : f₀.New)
    {ops : List (VarRefOp R V)} {cs : VarRefCaptures R} {f : VarRefFrame R V}
    (hrun : f₀.run mem ⟨[], []⟩ ops = some (cs, f)) :
    f.Shared cs ∧ ∀ op rs f', f.step mem op = some (rs, f') → StepRight f f' cs op := by
  obtain ⟨h, hcap⟩ := run_spec h₀.linked ⟨by simp, by simp⟩ hrun
  exact ⟨h.shared hcap, fun op rs f' hs => (step_spec h hcap hs).2.2⟩

def natVarRefMem : VarRefMem Nat where
  calloc live := live.sum + 1
  calloc_not_mem live hmem := by
    have hle := List.le_sum_of_mem hmem
    omega

/-- A frame with two slots. -/
def newFrame : VarRefFrame Nat Nat where
  base _ := none
  loc := 7
  lcount := 2
  ref := []
  lref := none
  lrefl := []
  heap _ := ⟨0, none, .self⟩
  live := []
  gone := false

/-- Two closures in a loop whose scope is left, one after a call of the procedure by itself. -/
def loopCaptures : List (VarRefOp Nat Nat) :=
  [.fetch [(none, ⟨true, 1⟩)], .putLoc 1 5, .fetch [(none, ⟨true, 0⟩), (none, ⟨true, 1⟩)],
    .putVarRef 1 6, .closeRef 1, .fetch [(none, ⟨true, 1⟩), (none, ⟨false, 0⟩)],
    .returnCall [8] true, .fetch [(none, ⟨true, 0⟩)], .putLoc 0 9]

theorem loopCaptures_shared : ∃ cs f,
    newFrame.run natVarRefMem ⟨[], []⟩ loopCaptures = some (cs, f) ∧ cs.opened = [(0, 16)] ∧
      f.Shared cs := by
  obtain ⟨⟨cs, f⟩, h⟩ := Option.isSome_iff_exists.mp
    (show (newFrame.run natVarRefMem ⟨[], []⟩ loopCaptures).isSome = true by decide)
  refine ⟨cs, f, h, ?_, (varRefs_shared natVarRefMem ⟨rfl, rfl, by simp [newFrame]⟩ h).1⟩
  have hopened := congrArg (Option.map fun x => x.1.opened) h
  exact (Option.some.inj (hopened.symm.trans (by decide)))

end FakeLisp
