import FakeLisp.VMGc

/-! After marking: the weak tables lose their dead entries, and the heap list its white
objects. -/

namespace FakeLisp

variable {A : Type} [DecidableEq A]

/-! The code. -/

def fklVMgcIsMarked (gc : FklVMgc A) (v : FklVMref A) : Bool :=
  match v with
  | .ptr a => gc.mark a ≠ .w
  | _ => false

def weakHashEqUpdateWeakRef (isMarked : FklVMref A → Bool) (mode : FklWeakMapMode)
    (ht : OrdMap (FklVMref A) (FklVMref A)) : OrdMap (FklVMref A) (FklVMref A) :=
  ht.deleteDead fun k v => mode.k && !isMarked k || mode.v && !isMarked v

def obarrayUpdateWeakRef (isMarked : FklVMref A → Bool) (map : OrdMap String (FklVMref A)) :
    OrdMap String (FklVMref A) :=
  map.deleteDead fun _ v => !isMarked v

def lntUdUpdateWeakRef (isMarked : FklVMref A → Bool) (ht : OrdMap (FklVMref A) Nat) :
    OrdMap (FklVMref A) Nat :=
  ht.deleteDead fun k _ => !isMarked k

/-- `tp_->mt.update_weak_ref`. -/
def updateWeakRef (isMarked : FklVMref A → Bool) : FklVMobj A → FklVMobj A
  | .userdata tp (.weakHashEq mode ht) =>
    .userdata tp (.weakHashEq mode (weakHashEqUpdateWeakRef isMarked mode ht))
  | .userdata tp (.obarray map) => .userdata tp (.obarray (obarrayUpdateWeakRef isMarked map))
  | .userdata tp (.lnt ht) => .userdata tp (.lnt (lntUdUpdateWeakRef isMarked ht))
  | o => o

def updateWeakRefsStep (gc : FklVMgc A) : Option (FklVMgc A) := do
  let v ← gc.weakRefs
  fklAssert ((gc.obj v).isWeakRefValue = true)
  let gc := gc.setObj v (updateWeakRef (fklVMgcIsMarked gc) (gc.obj v))
  some ((gc.setWeakRefs (gc.grayNext v)).setGrayNext v none)

def fklVMgcUpdateWeakRefs (fuel : Nat) (gc : FklVMgc A) : Option (FklVMgc A) :=
  whileLoop (fun gc => gc.weakRefs.isSome) updateWeakRefsStep fuel gc

/-- The variables of the loop; `phead` is `&head`, or `&a->next_`. -/
structure CollectState (A : Type) where
  gc : FklVMgc A
  pw : Option A
  head : Option A
  phead : Option A

namespace CollectState

/-- `*phead` -/
def cur (s : CollectState A) : Option A :=
  match s.phead with
  | none => s.head
  | some a => s.gc.next a

def setCur (s : CollectState A) (p : Option A) : CollectState A :=
  match s.phead with
  | none => { s with head := p }
  | some a => { s with gc := s.gc.setNext a p }

def step (s : CollectState A) : Option (CollectState A) := do
  let cur ← s.cur
  if s.gc.mark cur = .w then
    let s := s.setCur (s.gc.next cur)
    some { s with gc := s.gc.setNext cur s.pw, pw := some cur }
  else some { s with gc := s.gc.setMark cur .w, phead := some cur }

end CollectState

/-- The heap afterwards, and the list of the caller. -/
def fklVMgcCollect (fuel : Nat) (gc : FklVMgc A) (pw : Option A) :
    Option (FklVMgc A × Option A) := do
  let s ← whileLoop (fun s => s.cur.isSome) CollectState.step fuel
    ⟨{ gc with head := none }, pw, gc.head, none⟩
  let s := s.setCur s.gc.head
  some ({ s.gc with head := s.head }, s.pw)

/-! Weak references. -/

theorem mem_strongRefs_updateWeakRef {isMarked : FklVMref A → Bool} {o : FklVMobj A}
    {v : FklVMref A} (h : v ∈ (updateWeakRef isMarked o).strongRefs) : v ∈ o.strongRefs := by
  unfold updateWeakRef at h
  split at h
  · rename_i tp mode ht
    rcases List.mem_cons.mp h with rfl | h
    · exact List.mem_cons_self
    · obtain ⟨e, he, hv⟩ := List.mem_flatMap.mp h
      exact List.mem_cons_of_mem _
        (List.mem_flatMap.mpr ⟨e, (OrdMap.mem_deleteDead.mp he).1, hv⟩)
  all_goals exact h

omit [DecidableEq A] in
theorem weakRefs_eq_nil {o : FklVMobj A} (h : o.isWeakRefValue = false) : o.weakRefs = [] := by
  unfold FklVMobj.weakRefs
  split <;> simp_all [FklVMobj.isWeakRefValue]

theorem mem_weakRefs_updateWeakRef {isMarked : FklVMref A → Bool} {o : FklVMobj A}
    {v : FklVMref A} (h : v ∈ (updateWeakRef isMarked o).weakRefs) : v ∈ o.weakRefs := by
  unfold updateWeakRef at h
  split at h
  · obtain ⟨e, he, hv⟩ := List.mem_flatMap.mp h
    exact List.mem_flatMap.mpr ⟨e, (OrdMap.mem_deleteDead.mp he).1, hv⟩
  · obtain ⟨e, he, rfl⟩ := List.mem_map.mp h
    exact List.mem_map_of_mem (OrdMap.mem_deleteDead.mp he).1
  · obtain ⟨e, he, rfl⟩ := List.mem_map.mp h
    exact List.mem_map_of_mem (OrdMap.mem_deleteDead.mp he).1
  · exact h

/-- The weak references that are left are to marked objects. -/
theorem isMarked_of_mem_weakRefs {isMarked : FklVMref A → Bool} {o : FklVMobj A} {v : FklVMref A}
    (h : v ∈ (updateWeakRef isMarked o).weakRefs) (ho : o.isWeakRefValue = true) :
    isMarked v = true := by
  unfold updateWeakRef at h
  split at h
  · rename_i tp mode ht
    obtain ⟨e, he, hv⟩ := List.mem_flatMap.mp h
    have hdead := (OrdMap.mem_deleteDead.mp he).2
    cases hk : mode.k <;> cases hval : mode.v <;> simp_all
    rcases hv with rfl | rfl <;> tauto
  · rename_i tp map
    obtain ⟨e, he, rfl⟩ := List.mem_map.mp h
    simpa using (OrdMap.mem_deleteDead.mp he).2
  · rename_i tp ht
    obtain ⟨e, he, rfl⟩ := List.mem_map.mp h
    simpa using (OrdMap.mem_deleteDead.mp he).2
  · rename_i hw ho' hl
    unfold FklVMobj.isWeakRefValue at ho
    split at ho <;> simp_all

/-- What the update of the weak references `w` changes. -/
structure WeakUpdated (w : List A) (gc gc' : FklVMgc A) : Prop where
  mark_eq : gc'.mark = gc.mark
  next_eq : gc'.next = gc.next
  head_eq : gc'.head = gc.head
  grayList_eq : gc'.grayList = gc.grayList
  obj_eq : ∀ a, gc'.obj a =
    if a ∈ w then updateWeakRef (fklVMgcIsMarked gc) (gc.obj a) else gc.obj a

theorem updateWeakRefsStep_eq {gc : FklVMgc A} {v : A} (hv : gc.weakRefs = some v)
    (hweak : (gc.obj v).isWeakRefValue = true) :
    updateWeakRefsStep gc = some (((gc.setObj v
      (updateWeakRef (fklVMgcIsMarked gc) (gc.obj v))).setWeakRefs (gc.grayNext v)).setGrayNext
        v none) := by
  refine bind_eq_of_eq hv (bind_eq_of_eq (fklAssert_eq_some hweak) ?_)
  dsimp only
  rw [grayNext_setObj]

theorem fklVMgcUpdateWeakRefs_spec {gc : FklVMgc A} {w : List A}
    (hseg : ListSeg gc.grayNext gc.weakRefs w none) (hnodup : w.Nodup)
    (hweak : ∀ a ∈ w, (gc.obj a).isWeakRefValue = true) :
    ∃ gc', LoopsTo (fun gc => gc.weakRefs.isSome) updateWeakRefsStep w.length gc gc' ∧
      gc'.weakRefs = none ∧ WeakUpdated w gc gc' := by
  induction w generalizing gc with
  | nil =>
    have hnone : gc.weakRefs = none := hseg
    exact ⟨gc, LoopsTo.done (by simp [hnone]), hnone, rfl, rfl, rfl, rfl, by simp⟩
  | cons v w ih =>
    obtain ⟨hv, hseg⟩ := hseg
    obtain ⟨hvw, hnodup⟩ := List.nodup_cons.mp hnodup
    have hstep := updateWeakRefsStep_eq hv (hweak v List.mem_cons_self)
    set gc₁ := ((gc.setObj v (updateWeakRef (fklVMgcIsMarked gc) (gc.obj v))).setWeakRefs
      (gc.grayNext v)).setGrayNext v none with hgc₁
    have hobj : ∀ a, a ≠ v → gc₁.obj a = gc.obj a := fun a ha => by simp [hgc₁, ha]
    have hmark : gc₁.mark = gc.mark := by simp [hgc₁]
    have hmarked : fklVMgcIsMarked gc₁ = fklVMgcIsMarked gc := by
      funext u
      simp [fklVMgcIsMarked, hmark]
    have hseg₁ : ListSeg gc₁.grayNext gc₁.weakRefs w none := by
      change ListSeg gc₁.grayNext (gc.grayNext v) w none
      simpa [hgc₁] using hseg.update hvw none
    obtain ⟨gc', hrun, hnone, hupd⟩ := ih hseg₁ hnodup fun a ha => by
      rw [hobj a fun he => hvw (he ▸ ha)]
      exact hweak a (List.mem_cons_of_mem v ha)
    refine ⟨gc', hrun.step (by simp [hv]) hstep, hnone, hupd.mark_eq.trans hmark, ?_,
      hupd.head_eq, hupd.grayList_eq, fun a => ?_⟩
    · rw [hupd.next_eq]
      simp [hgc₁]
    · rw [hupd.obj_eq, hmarked]
      by_cases ha : a = v
      · subst ha
        simp [hvw, hgc₁]
      · simp [ha, hobj a ha]

/-! The partition of the heap list. -/

/-- The loop after a part of the list: what was kept, what was white, last first, and the rest. -/
structure Collecting (gc : FklVMgc A) (kept white rest : List A) (s : CollectState A) : Prop where
  kept_seg : ListSeg s.gc.next s.head kept s.cur
  phead_eq : s.phead = kept.getLast?
  rest_seg : ListSeg s.gc.next s.cur rest none
  white_seg : ListSeg s.gc.next s.pw white none
  nodup : (kept ++ rest ++ white).Nodup
  mark_eq : ∀ a, s.gc.mark a = if a ∈ kept then .w else gc.mark a
  obj_eq : s.gc.obj = gc.obj
  lists_eq : s.gc.grayList = gc.grayList ∧ s.gc.weakRefs = gc.weakRefs ∧ s.gc.head = none

section

variable {gc : FklVMgc A} {kept white rest : List A} {s : CollectState A} {a : A}

/-- The head of the list or the last kept cell is made to point elsewhere. -/
theorem setCur_spec (h : Collecting gc kept white rest s) (p : Option A) :
    (s.setCur p).phead = s.phead ∧ (s.setCur p).pw = s.pw ∧
      ListSeg (s.setCur p).gc.next (s.setCur p).head kept p ∧
      (∀ b, b ∉ kept → (s.setCur p).gc.next b = s.gc.next b) ∧
      (s.setCur p).gc.mark = s.gc.mark ∧ (s.setCur p).gc.obj = s.gc.obj ∧
      (s.setCur p).gc.grayList = s.gc.grayList ∧ (s.setCur p).gc.weakRefs = s.gc.weakRefs ∧
      (s.setCur p).gc.head = s.gc.head := by
  have hkept := h.kept_seg
  have hphead := h.phead_eq
  rcases List.eq_nil_or_concat kept with rfl | ⟨l, b, rfl⟩
  · have hset : s.setCur p = { s with head := p } := by
      unfold CollectState.setCur
      rw [hphead]
      rfl
    rw [hset]
    exact ⟨rfl, rfl, rfl, fun _ _ => rfl, rfl, rfl, rfl, rfl, rfl⟩
  · rw [List.concat_eq_append] at hkept hphead
    have hset : s.setCur p = { s with gc := s.gc.setNext b p } := by
      unfold CollectState.setCur
      rw [hphead, List.getLast?_concat]
    have hb : b ∉ l := by
      have := h.nodup
      simp only [List.concat_eq_append, List.append_assoc, List.nodup_append, List.mem_append,
        List.mem_singleton] at this
      exact fun hb => this.2.2 b hb b (Or.inl rfl) rfl
    rw [hset, List.concat_eq_append]
    refine ⟨rfl, rfl, ?_, fun c hc => ?_, by simp, by simp, rfl, rfl, rfl⟩
    · simpa using hkept.redirect hb p
    · have hne : c ≠ b := fun he => hc (by simp [he])
      simp [hne]

omit [DecidableEq A] in
theorem cur_eq {p : Option A} (h : ListSeg s.gc.next s.head kept p)
    (hl : s.phead = kept.getLast?) : s.cur = p := by
  unfold CollectState.cur
  rw [hl]
  rcases List.eq_nil_or_concat kept with rfl | ⟨l, b, rfl⟩
  · exact h
  · rw [List.concat_eq_append] at h ⊢
    rw [List.getLast?_concat]
    exact (listSeg_concat.mp h).2

omit [DecidableEq A] in
theorem nodup_mid (h : (kept ++ a :: rest ++ white).Nodup) :
    a ∉ kept ∧ a ∉ rest ∧ a ∉ white ∧ (∀ b ∈ rest, b ∉ kept) ∧ ∀ b ∈ white, b ∉ kept := by
  simp only [List.nodup_append, List.nodup_cons, List.mem_cons, List.mem_append] at h
  obtain ⟨⟨-, ⟨ha, -⟩, hkept⟩, -, hwhite⟩ := h
  exact ⟨fun hk => hkept a hk a (Or.inl rfl) rfl, ha,
    fun hw => hwhite a (Or.inr (Or.inl rfl)) a hw rfl,
    fun b hb hk => hkept b hk b (Or.inr hb) rfl, fun b hb hk => hwhite b (Or.inl hk) b hb rfl⟩

theorem Collecting.step_white (h : Collecting gc kept white (a :: rest) s)
    (hw : gc.mark a = .w) :
    ∃ t, s.step = some t ∧ Collecting gc kept (a :: white) rest t := by
  obtain ⟨hcur, hrest⟩ := h.rest_seg
  obtain ⟨hak, har, haw, hrk, hwk⟩ := nodup_mid h.nodup
  obtain ⟨hphead, hpw, hkept, hnext, hmark, hobj, hgray, hweak, hhead⟩ :=
    setCur_spec h (s.gc.next a)
  set s₁ := s.setCur (s.gc.next a)
  have hstep : s.step = some { s₁ with gc := s₁.gc.setNext a s₁.pw, pw := some a } := by
    refine bind_eq_of_eq hcur ?_
    rw [if_pos]
    rw [h.mark_eq, if_neg hak, hw]
  have hkept' : ListSeg (s₁.gc.setNext a s₁.pw).next s₁.head kept (s.gc.next a) := by
    simpa using hkept.update hak s₁.pw
  have hcong : ∀ l : List A, (∀ b ∈ l, b ∉ kept) → a ∉ l → ∀ b ∈ l,
      (s₁.gc.setNext a s₁.pw).next b = s.gc.next b := by
    intro l hl hal b hb
    have hne : b ≠ a := fun he => hal (he ▸ hb)
    rw [next_setNext, Function.update_of_ne hne, hnext b (hl b hb)]
  refine ⟨_, hstep, ?_⟩
  have hcur' := cur_eq (s := { s₁ with gc := s₁.gc.setNext a s₁.pw, pw := some a }) hkept'
    (hphead.trans h.phead_eq)
  refine ⟨hcur'.symm ▸ hkept', hphead.trans h.phead_eq, ?_, ⟨rfl, ?_⟩, ?_, fun b => ?_, ?_, ?_⟩
  · rw [hcur']
    exact hrest.congr (hcong rest hrk har)
  · rw [next_setNext, Function.update_self, hpw]
    exact h.white_seg.congr (by simpa [hpw] using hcong white hwk haw)
  · have hperm : (kept ++ a :: rest ++ white).Perm (kept ++ rest ++ a :: white) := by
      rw [List.append_assoc, List.append_assoc]
      exact List.Perm.append_left _ (List.perm_middle.symm)
    exact hperm.nodup_iff.mp h.nodup
  · rw [mark_setNext, hmark, h.mark_eq]
  · rw [obj_setNext, hobj, h.obj_eq]
  · obtain ⟨h₁, h₂, h₃⟩ := h.lists_eq
    exact ⟨hgray.trans h₁, hweak.trans h₂, hhead.trans h₃⟩

theorem Collecting.step_kept (h : Collecting gc kept white (a :: rest) s)
    (hw : gc.mark a ≠ .w) :
    ∃ t, s.step = some t ∧ Collecting gc (kept ++ [a]) white rest t := by
  obtain ⟨hcur, hrest⟩ := h.rest_seg
  obtain ⟨hak, har, haw, hrk, hwk⟩ := nodup_mid h.nodup
  have hstep : s.step = some { s with gc := s.gc.setMark a .w, phead := some a } := by
    refine bind_eq_of_eq hcur ?_
    rw [if_neg]
    rwa [h.mark_eq, if_neg hak]
  refine ⟨_, hstep, ?_, by simp, ?_, by simpa using h.white_seg, by simpa using h.nodup,
    fun b => ?_, by simpa using h.obj_eq, h.lists_eq⟩
  · refine listSeg_concat.mpr ⟨?_, rfl⟩
    rw [next_setMark, ← hcur]
    exact h.kept_seg
  · change ListSeg (s.gc.setMark a .w).next ((s.gc.setMark a .w).next a) rest none
    simpa using hrest
  · rw [mark_setMark]
    by_cases hb : b = a
    · simp [hb]
    · simp [hb, h.mark_eq]

theorem Collecting.run (h : Collecting gc kept white rest s) :
    ∃ t, LoopsTo (fun s => s.cur.isSome) CollectState.step rest.length s t ∧
      Collecting gc (kept ++ rest.filter fun a => gc.mark a ≠ .w)
        ((rest.filter fun a => gc.mark a = .w).reverse ++ white) [] t := by
  induction rest generalizing kept white s with
  | nil =>
    have hcur : s.cur = none := h.rest_seg
    exact ⟨s, LoopsTo.done (by simp [hcur]), by simpa using h⟩
  | cons a rest ih =>
    by_cases hw : gc.mark a = .w
    · obtain ⟨t, hstep, ht⟩ := h.step_white hw
      obtain ⟨u, hrun, hu⟩ := ih ht
      exact ⟨u, hrun.step (by simp [h.rest_seg.1]) hstep, by simpa [hw] using hu⟩
    · obtain ⟨t, hstep, ht⟩ := h.step_kept hw
      obtain ⟨u, hrun, hu⟩ := ih ht
      exact ⟨u, hrun.step (by simp [h.rest_seg.1]) hstep, by simpa [hw] using hu⟩

end

/-- What the collection of the heap list `heap` changes. -/
structure Collected (heap old : List A) (gc gc' : FklVMgc A) (pw : Option A) : Prop where
  kept_seg : ListSeg gc'.next gc'.head (heap.filter fun a => gc.mark a ≠ .w) none
  white_seg : ListSeg gc'.next pw ((heap.filter fun a => gc.mark a = .w).reverse ++ old) none
  mark_eq : ∀ a, gc'.mark a = if a ∈ heap then .w else gc.mark a
  obj_eq : gc'.obj = gc.obj
  lists_eq : gc'.grayList = gc.grayList ∧ gc'.weakRefs = gc.weakRefs

theorem fklVMgcCollect_spec {gc : FklVMgc A} {heap old : List A} {pw : Option A}
    (hseg : ListSeg gc.next gc.head heap none) (hold : ListSeg gc.next pw old none)
    (hnodup : (heap ++ old).Nodup) :
    ∃ gc' pw', (∀ fuel, heap.length < fuel → fklVMgcCollect fuel gc pw = some (gc', pw')) ∧
      Collected heap old gc gc' pw' := by
  have hstart : Collecting gc [] old heap ⟨{ gc with head := none }, pw, gc.head, none⟩ :=
    ⟨rfl, rfl, hseg, hold, by simpa using hnodup, fun _ => by simp; rfl, rfl, rfl, rfl, rfl⟩
  obtain ⟨t, hrun, ht⟩ := hstart.run
  obtain ⟨-, hpw, hkept, hnext, hmark, hobj, hgray, hweak, hhead⟩ := setCur_spec ht t.gc.head
  obtain ⟨hgray₀, hweak₀, hhead₀⟩ := ht.lists_eq
  have hwk := ht.nodup
  simp only [List.nil_append, List.append_nil] at hkept hnext hwk ht
  refine ⟨_, _, fun fuel hfuel => bind_eq_of_eq (hrun fuel hfuel) rfl, ?_, ?_, fun a => ?_,
    hobj.trans ht.obj_eq, hgray.trans hgray₀, hweak.trans hweak₀⟩
  · exact hhead₀ ▸ hkept
  · rw [hpw]
    refine ht.white_seg.congr fun b hb => hnext b fun hk => ?_
    exact List.disjoint_of_nodup_append hwk hk hb
  · change (t.setCur t.gc.head).gc.mark a = _
    rw [hmark, ht.mark_eq]
    by_cases ha : a ∈ heap <;> by_cases hw : gc.mark a = .w <;> simp [ha, hw]

/-! A whole collection. -/

/-- After the weak tables are updated a black object refers to marked objects only. -/
theorem Marking.marked_of_mem_refs {gc marked updated : FklVMgc A} {w : List A} {a b : A}
    (hm : Marking gc marked) (hw : WeakOk gc marked w) (hu : WeakUpdated w marked updated)
    (ha : marked.mark a = .b) (ha₀ : gc.mark a ≠ .b) (hb : .ptr b ∈ (updated.obj a).refs) :
    marked.mark b ≠ .w ∧ .ptr b ∈ (gc.obj a).refs := by
  have hclosed := (hm.closed a ha).resolve_left ha₀
  rw [hu.obj_eq, hm.obj_eq] at hb
  by_cases hweak : (gc.obj a).isWeakRefValue = true
  · rw [if_pos ((hw.2.2 a).mpr ⟨ha, ha₀, hweak⟩)] at hb
    rcases List.mem_append.mp hb with hb | hb
    · have hstrong := mem_strongRefs_updateWeakRef hb
      exact ⟨hclosed b hstrong, List.mem_append_left _ hstrong⟩
    · refine ⟨?_, List.mem_append_right _ (mem_weakRefs_updateWeakRef hb)⟩
      simpa [fklVMgcIsMarked] using isMarked_of_mem_weakRefs hb hweak
  · rw [if_neg fun haw => hweak ((hw.2.2 a).mp haw).2.2] at hb
    rcases List.mem_append.mp hb with hstrong | hb
    · exact ⟨hclosed b hstrong, List.mem_append_left _ hstrong⟩
    · rw [weakRefs_eq_nil (Bool.eq_false_iff.mpr hweak)] at hb
      cases hb

/-- Graying a root: the callers seed the gray list so. -/
theorem FklVMgc.Ready.fklVMgcToGray {gc : FklVMgc A} {heap : List A} {static : A → Prop}
    (h : gc.Ready heap static) {v : FklVMref A} (hv : ∀ a, v = .ptr a → a ∈ heap ∨ static a) :
    (FakeLisp.fklVMgcToGray v gc).Ready heap static := by
  have hgrayed := grayed_fklVMgcToGray v gc
  set gc' := FakeLisp.fklVMgcToGray v gc
  obtain ⟨g, hg⟩ := h.grayOk
  refine ⟨?_, h.nodup, fun a ha => ?_, fun a ha => ?_, fun a ha => ?_, hgrayed.grayOk g hg,
    hgrayed.weakRefs_eq.trans h.weakRefs_eq, hgrayed.obj_eq ▸ h.refs_heap,
    hgrayed.obj_eq ▸ h.refs_static⟩
  · rw [hgrayed.next_eq, hgrayed.head_eq]
    exact h.seg
  · rw [hgrayed.mark_eq]
    split
    · nofun
    · exact h.mark_heap a ha
  · rw [hgrayed.mark_eq, h.mark_static a ha]
    simp
  · rw [hgrayed.mark_eq] at ha
    split at ha
    next hw =>
      refine (hv a (List.mem_singleton.mp hw.2).symm).resolve_right fun hst => ?_
      rw [h.mark_static a hst] at hw
      cases hw.1
    next => exact h.gray_heap a ha

/-- Nothing that is kept refers to an object that is not. -/
theorem Collected.ready {gc marked updated collected : FklVMgc A} {heap old w : List A}
    {static : A → Prop} {pw : Option A} (h : gc.Ready heap static) (hm : Marking gc marked)
    (hend : marked.grayList = none) (hgray : ∀ a, marked.mark a ≠ .g)
    (hw : WeakOk gc marked w) (hu : WeakUpdated w marked updated) (hnone : updated.weakRefs = none)
    (hc : Collected heap old updated collected pw) :
    collected.Ready (heap.filter fun a => updated.mark a ≠ .w) static := by
  have hnotHeap : ∀ a, static a → a ∉ heap := fun a hst ha =>
    h.mark_heap a ha (h.mark_static a hst)
  have hnoGray : ∀ a, collected.mark a ≠ .g := fun a => by
    rw [hc.mark_eq, hu.mark_eq]
    split
    · nofun
    · exact hgray a
  refine ⟨hc.kept_seg, h.nodup.filter _, fun a ha => ?_, fun a hst => ?_,
    fun a ha => absurd ha (hnoGray a), ⟨[], ?_, List.nodup_nil, fun a => ?_⟩,
    hc.lists_eq.2.trans hnone, fun a ha b hb => ?_, fun a hst b hb => ?_⟩
  · rw [hc.mark_eq, if_pos (List.mem_filter.mp ha).1]
    nofun
  · rw [hc.mark_eq, if_neg (hnotHeap a hst), hu.mark_eq]
    exact hm.static a (h.mark_static a hst)
  · exact (hc.lists_eq.1.trans hu.grayList_eq).trans hend
  · exact iff_of_false List.not_mem_nil (hnoGray a)
  · obtain ⟨haheap, hamark⟩ := List.mem_filter.mp ha
    have hab : marked.mark a = .b := by
      rw [hu.mark_eq] at hamark
      cases hma : marked.mark a with
      | w => simp [hma] at hamark
      | g => exact absurd hma (hgray a)
      | b => rfl
    rw [hc.obj_eq] at hb
    obtain ⟨hbmark, hbref⟩ := hm.marked_of_mem_refs hw hu hab (h.mark_heap a haheap) hb
    refine (h.refs_heap a haheap b hbref).imp_left fun hbheap => ?_
    exact List.mem_filter.mpr ⟨hbheap, by simpa [hu.mark_eq] using hbmark⟩
  · have haw : a ∉ w := fun haw => ((hw.2.2 a).mp haw).2.1 (h.mark_static a hst)
    rw [hc.obj_eq, hu.obj_eq, if_neg haw, hm.obj_eq] at hb
    exact h.refs_static a hst b hb

/-- The result of a collection: the heap after marking and the weak tables, and the heap and the
list of the caller at the end. -/
structure CollectionOk (gc : FklVMgc A) (heap old : List A) (static : A → Prop)
    (updated collected : FklVMgc A) (pw : Option A) (kept white : List A) : Prop where
  black_iff : ∀ a ∈ heap, updated.mark a = .b ↔ gc.Reaches a
  perm : (kept ++ white).Perm heap
  mark_kept : ∀ a ∈ kept, updated.mark a ≠ .w
  mark_white : ∀ a ∈ white, updated.mark a = .w
  white_seg : ListSeg collected.next pw (white ++ old) none
  reset : ∀ a ∈ kept, collected.mark a = .w
  /-- The heap list is what was kept, and none of its references dangles. -/
  ready : collected.Ready kept static

/-- Marking, the weak tables and the partition: the heap list keeps exactly the reachable objects,
all white again. -/
theorem fklVMgc_collects {gc : FklVMgc A} {heap old : List A} {static : A → Prop} {pw : Option A}
    (h : gc.Ready heap static) (hold : ListSeg gc.next pw old none)
    (hnodup : (heap ++ old).Nodup) :
    ∃ n marked updated collected pw' kept white,
      (∀ fuel, n < fuel → propagateAll fuel gc = some marked ∧
        fklVMgcUpdateWeakRefs fuel marked = some updated ∧
        fklVMgcCollect fuel updated pw = some (collected, pw')) ∧
      CollectionOk gc heap old static updated collected pw' kept white := by
  obtain ⟨marked, hmarked, hm, hend⟩ := propagateAll_spec h
  obtain ⟨hgray, hblack⟩ := hm.black_iff h hend
  obtain ⟨w, hw⟩ := hm.weakOk
  obtain ⟨updated, hupdated, hnone, hu⟩ := fklVMgcUpdateWeakRefs_spec hw.1 hw.2.1 fun a ha => by
    rw [hm.obj_eq]
    exact ((hw.2.2 a).mp ha).2.2
  have hnext : updated.next = gc.next := hu.next_eq.trans hm.next_eq
  have hseg : ListSeg updated.next updated.head heap none := by
    rw [hnext, hu.head_eq, hm.head_eq]
    exact h.seg
  obtain ⟨collected, pw', hcollected, hc⟩ := fklVMgcCollect_spec hseg (hnext.symm ▸ hold) hnodup
  refine ⟨heap.length + 1 + w.length, marked, updated, collected, pw',
    heap.filter fun a => updated.mark a ≠ .w, (heap.filter fun a => updated.mark a = .w).reverse,
    fun fuel hfuel => ⟨hmarked fuel (by omega), hupdated fuel (by omega),
      hcollected fuel (by omega)⟩, ?_⟩
  exact {
    black_iff a ha := by rw [hu.mark_eq]; exact hblack a ha
    perm := (List.Perm.append_left _ (List.reverse_perm _)).trans
      (by simpa using List.filter_append_perm (fun a => decide (updated.mark a ≠ .w)) heap)
    mark_kept a ha := by simpa using (List.mem_filter.mp ha).2
    mark_white a ha := by simpa using (List.mem_filter.mp (List.mem_reverse.mp ha)).2
    white_seg := hc.white_seg
    reset a ha := by rw [hc.mark_eq, if_pos (List.mem_filter.mp ha).1]
    ready := hc.ready h hm hend hgray hw hu hnone }

/-- A pair that refers to itself and to a weak table, whose entry refers to a box that nothing else
holds. -/
def weakHeap : FklVMgc Nat where
  mem
    | 0 => ⟨.g, some 1, none, .pair (.ptr 1) (.ptr 0)⟩
    | 1 => ⟨.w, some 2, none, .userdata (.ptr 3)
        (.weakHashEq ⟨false, true⟩ ⟨[(.imm 0, .ptr 2)], by decide⟩)⟩
    | 2 => ⟨.w, none, none, .box (.ptr 1)⟩
    | _ => ⟨.b, none, none, .str⟩
  grayList := some 0
  weakRefs := none
  head := some 0

theorem weakHeap_collects : ∃ n marked updated collected pw kept white,
    (∀ fuel, n < fuel → propagateAll fuel weakHeap = some marked ∧
      fklVMgcUpdateWeakRefs fuel marked = some updated ∧
      fklVMgcCollect fuel updated none = some (collected, pw)) ∧
    CollectionOk weakHeap [0, 1, 2] [] (3 ≤ ·) updated collected pw kept white := by
  have hstatic : ∀ a, 3 ≤ a → weakHeap.mem a = ⟨.b, none, none, .str⟩ := fun a ha => by
    obtain ⟨k, rfl⟩ := Nat.exists_eq_add_of_le' ha
    rfl
  refine fklVMgc_collects ⟨⟨rfl, rfl, rfl, rfl⟩, by decide, by decide, fun a ha => ?_,
    fun a ha => ?_, ⟨[0], ⟨rfl, rfl⟩, by decide, fun a => ?_⟩, rfl, fun a ha b hb => ?_,
    fun a ha b hb => ?_⟩ rfl (by decide)
  · rw [FklVMgc.mark, hstatic a ha]
  · rcases a with _ | _ | _ | a <;> first | decide | cases ha
  · rcases a with _ | _ | _ | a <;> simp [weakHeap, FklVMgc.mark]
  · simp only [List.mem_cons, List.not_mem_nil, or_false] at ha
    rcases ha with rfl | rfl | rfl <;>
      simp [weakHeap, FklVMgc.obj, FklVMobj.refs, FklVMobj.strongRefs, FklVMud.strongRefs,
        FklVMobj.weakRefs] at hb ⊢ <;> omega
  · rw [FklVMgc.obj, hstatic a ha] at hb
    cases hb

end FakeLisp
