import FakeLisp.VMHeap
import FakeLisp.WhileLoop
import FakeLisp.DoublyLinked
import FakeLisp.Words
import Mathlib.Logic.Relation

/-! Marking: the gray list is emptied while it is being filled. -/

namespace FakeLisp

variable {A : Type} [DecidableEq A]

/-! The code. -/

def fklVMgcToGray (v : FklVMref A) (gc : FklVMgc A) : FklVMgc A :=
  match v with
  | .ptr a =>
    -- only white is below `FKL_MARK_G`
    if gc.mark a = .w then
      ((gc.setMark a .g).setGrayNext a gc.grayList).setGrayList (some a)
    else gc
  | _ => gc

/-- The loop over an array of values. -/
def toGrayAll (vs : List (FklVMref A)) (gc : FklVMgc A) : FklVMgc A :=
  vs.foldl (fun gc v => fklVMgcToGray v gc) gc

def fklAtomicVMhashTable (ht : OrdMap (FklVMref A) (FklVMref A)) (gc : FklVMgc A) : FklVMgc A :=
  ht.entries.foldl (fun gc e => fklVMgcToGray e.2 (fklVMgcToGray e.1 gc)) gc

def fklAtomicVMproc (name bcl proto : FklVMref A) (closure : List (FklVMref A))
    (gc : FklVMgc A) : FklVMgc A :=
  toGrayAll closure (fklVMgcToGray proto (fklVMgcToGray bcl (fklVMgcToGray name gc)))

def weakHashEqAtomic (mode : FklWeakMapMode) (ht : OrdMap (FklVMref A) (FklVMref A))
    (gc : FklVMgc A) : FklVMgc A :=
  if mode.v && mode.k then gc
  else
    ht.entries.foldl (fun gc e =>
      let gc := if !mode.k then fklVMgcToGray e.1 gc else gc
      if !mode.v then fklVMgcToGray e.2 gc else gc) gc

def chanlUserdataAtomic (recvx sendx : Nat) (buf sendq : List (FklVMref A))
    (gc : FklVMgc A) : FklVMgc A :=
  let gc :=
    if recvx < sendx then toGrayAll ((buf.take sendx).drop recvx) gc
    else toGrayAll (buf.take sendx) (toGrayAll (buf.drop recvx) gc)
  toGrayAll sendq gc

/-- `tp_->mt.atomic`. -/
def udAtomic (ud : FklVMud A) (gc : FklVMgc A) : FklVMgc A :=
  match ud with
  | .weakHashEq mode ht => weakHashEqAtomic mode ht gc
  | .obarray _ => gc
  | .lnt _ => gc
  | .error t message => fklVMgcToGray t (fklVMgcToGray message gc)
  | .chanl recvx sendx buf sendq => chanlUserdataAtomic recvx sendx buf sendq gc
  | .codeObj fids => toGrayAll fids gc
  | .lib name proc values => toGrayAll values (fklVMgcToGray proc (fklVMgcToGray name gc))
  | .proto name file vals => toGrayAll vals (fklVMgcToGray file (fklVMgcToGray name gc))
  | .type dll => fklVMgcToGray dll gc
  | .slot s => fklVMgcToGray s gc
  | .other atomic => toGrayAll atomic gc

def propagateMark (o : FklVMobj A) (gc : FklVMgc A) : FklVMgc A :=
  match o with
  | .vec base => toGrayAll base gc
  | .pair car cdr => fklVMgcToGray cdr (fklVMgcToGray car gc)
  | .box v => fklVMgcToGray v gc
  | .userdata tp ud => udAtomic ud (fklVMgcToGray tp gc)
  | .proc name bcl proto closure => fklAtomicVMproc name bcl proto closure gc
  | .cproc dll => fklVMgcToGray dll gc
  | .hashTable ht => fklAtomicVMhashTable ht gc
  | .varRef v => fklVMgcToGray v gc
  | .f64 | .bigint | .str | .sym | .keyword | .bytes => gc

/-- The types whose meta table has an `update_weak_ref`. -/
def FklVMobj.isWeakRefValue : FklVMobj A → Bool
  | .userdata _ (.weakHashEq ..) | .userdata _ (.obarray _) | .userdata _ (.lnt _) => true
  | _ => false

/-- One call; the result says whether the gray list is empty. -/
def fklVMgcPropagate (gc : FklVMgc A) : FklVMgc A × Bool :=
  match gc.grayList with
  | none => (gc, true)
  | some v =>
    let gc := (gc.setGrayList (gc.grayNext v)).setGrayNext v none
    let gc :=
      if gc.mark v = .g then
        let gc := propagateMark (gc.obj v) (gc.setMark v .b)
        if (gc.obj v).isWeakRefValue then
          (gc.setGrayNext v gc.weakRefs).setWeakRefs (some v)
        else gc
      else gc
    (gc, gc.grayList.isNone)

/-- `while (!fklVMgcPropagate(gc));` -/
def propagateAll (fuel : Nat) (gc : FklVMgc A) : Option (FklVMgc A) :=
  (whileLoop (fun s => !s.2) (fun s => some (fklVMgcPropagate s.1)) fuel (gc, false)).map (·.1)

/-! The references of an object. -/

/-- What the references of an object keep alive. -/
def FklVMud.strongRefs : FklVMud A → List (FklVMref A)
  | .weakHashEq mode ht =>
    ht.entries.flatMap fun e =>
      (if mode.k then [] else [e.1]) ++ if mode.v then [] else [e.2]
  | .obarray _ => []
  | .lnt _ => []
  | .error t message => [message, t]
  | .chanl recvx sendx buf sendq =>
    (if recvx < sendx then (buf.take sendx).drop recvx else buf.drop recvx ++ buf.take sendx) ++
      sendq
  | .codeObj fids => fids
  | .lib name proc values => [name, proc] ++ values
  | .proto name file vals => [name, file] ++ vals
  | .type dll => [dll]
  | .slot s => [s]
  | .other atomic => atomic

def FklVMobj.strongRefs : FklVMobj A → List (FklVMref A)
  | .vec base => base
  | .pair car cdr => [car, cdr]
  | .box v => [v]
  | .userdata tp ud => tp :: ud.strongRefs
  | .proc name bcl proto closure => [name, bcl, proto] ++ closure
  | .cproc dll => [dll]
  | .hashTable ht => ht.entries.flatMap fun e => [e.1, e.2]
  | .varRef v => [v]
  | .f64 | .bigint | .str | .sym | .keyword | .bytes => []

/-- The references that do not keep their object alive. -/
def FklVMobj.weakRefs : FklVMobj A → List (FklVMref A)
  | .userdata _ (.weakHashEq mode ht) =>
    ht.entries.flatMap fun e => (if mode.k then [e.1] else []) ++ if mode.v then [e.2] else []
  | .userdata _ (.obarray map) => map.entries.map (·.2)
  | .userdata _ (.lnt ht) => ht.entries.map (·.1)
  | _ => []

def FklVMobj.refs (o : FklVMobj A) : List (FklVMref A) := o.strongRefs ++ o.weakRefs

theorem toGrayAll_append (vs ws : List (FklVMref A)) (gc : FklVMgc A) :
    toGrayAll (vs ++ ws) gc = toGrayAll ws (toGrayAll vs gc) :=
  List.foldl_append

theorem toGrayAll_flatMap {B : Type} (f : B → List (FklVMref A)) (l : List B) (gc : FklVMgc A) :
    toGrayAll (l.flatMap f) gc = l.foldl (fun gc e => toGrayAll (f e) gc) gc := by
  induction l generalizing gc with
  | nil => rfl
  | cons e l ih => rw [List.flatMap_cons, toGrayAll_append, ih, List.foldl_cons]

theorem weakHashEqAtomic_eq (mode : FklWeakMapMode) (ht : OrdMap (FklVMref A) (FklVMref A))
    (gc : FklVMgc A) :
    weakHashEqAtomic mode ht gc = toGrayAll (FklVMud.weakHashEq mode ht).strongRefs gc := by
  obtain ⟨k, v⟩ := mode
  unfold weakHashEqAtomic FklVMud.strongRefs
  rw [toGrayAll_flatMap]
  cases k <;> cases v <;> simp [toGrayAll]

theorem udAtomic_eq (ud : FklVMud A) (gc : FklVMgc A) :
    udAtomic ud gc = toGrayAll ud.strongRefs gc := by
  cases ud with
  | weakHashEq mode ht => exact weakHashEqAtomic_eq mode ht gc
  | chanl recvx sendx buf sendq =>
    change chanlUserdataAtomic recvx sendx buf sendq gc = toGrayAll (_ ++ sendq) gc
    unfold chanlUserdataAtomic
    by_cases h : recvx < sendx <;> simp [h, toGrayAll_append]
  | lib name proc values => exact (toGrayAll_append [name, proc] values gc).symm
  | proto name file vals => exact (toGrayAll_append [name, file] vals gc).symm
  | _ => rfl

theorem propagateMark_eq (o : FklVMobj A) (gc : FklVMgc A) :
    propagateMark o gc = toGrayAll o.strongRefs gc := by
  cases o with
  | userdata tp ud => exact udAtomic_eq ud _
  | proc name bcl proto closure => exact (toGrayAll_append [name, bcl, proto] closure gc).symm
  | hashTable ht => exact (toGrayAll_flatMap (fun e => [e.1, e.2]) ht.entries gc).symm
  | _ => rfl

/-! Graying a list of references. -/

/-- The gray list holds the gray objects. -/
structure GrayOk (gc : FklVMgc A) (g : List A) : Prop where
  seg : ListSeg gc.grayNext gc.grayList g none
  nodup : g.Nodup
  mem_iff : ∀ a, a ∈ g ↔ gc.mark a = .g

/-- What graying the references `vs` changes. -/
structure Grayed (vs : List (FklVMref A)) (gc gc' : FklVMgc A) : Prop where
  mark_eq : ∀ a, gc'.mark a = if gc.mark a = .w ∧ .ptr a ∈ vs then .g else gc.mark a
  grayNext_eq : ∀ a, gc.mark a ≠ .w → gc'.grayNext a = gc.grayNext a
  next_eq : gc'.next = gc.next
  obj_eq : gc'.obj = gc.obj
  weakRefs_eq : gc'.weakRefs = gc.weakRefs
  head_eq : gc'.head = gc.head
  grayOk : ∀ g, GrayOk gc g → ∃ g', GrayOk gc' g'

theorem Grayed.of_unmarked {v : FklVMref A} {gc : FklVMgc A}
    (h : ∀ a, v = .ptr a → gc.mark a ≠ .w) : Grayed [v] gc gc where
  mark_eq a := by
    rw [if_neg]
    rintro ⟨hw, ha⟩
    exact h a (List.mem_singleton.mp ha).symm hw
  grayNext_eq _ _ := rfl
  next_eq := rfl
  obj_eq := rfl
  weakRefs_eq := rfl
  head_eq := rfl
  grayOk g hg := ⟨g, hg⟩

theorem grayed_fklVMgcToGray (v : FklVMref A) (gc : FklVMgc A) :
    Grayed [v] gc (fklVMgcToGray v gc) := by
  cases v with
  | null => exact Grayed.of_unmarked nofun
  | imm bits => exact Grayed.of_unmarked nofun
  | ptr a =>
    by_cases h : gc.mark a = .w
    case neg =>
      have hsame : fklVMgcToGray (.ptr a) gc = gc := if_neg h
      rw [hsame]
      exact Grayed.of_unmarked fun b hb => by cases hb; exact h
    have hto : fklVMgcToGray (.ptr a) gc =
        ((gc.setMark a .g).setGrayNext a gc.grayList).setGrayList (some a) := if_pos h
    rw [hto]
    refine ⟨fun b => ?_, fun b hb => ?_, by simp, by simp, rfl, rfl,
      fun g hg => ⟨a :: g, ?_, ?_, ?_⟩⟩
    · by_cases hb : b = a
      · subst hb; simp [h]
      · simp [hb]
    · have hne : b ≠ a := fun he => hb (he ▸ h)
      simp [hne]
    · have ha : a ∉ g := fun ha => by rw [hg.mem_iff, h] at ha; cases ha
      refine ⟨rfl, ?_⟩
      simpa using hg.seg.update ha _
    · refine List.nodup_cons.mpr ⟨fun ha => ?_, hg.nodup⟩
      rw [hg.mem_iff, h] at ha
      cases ha
    · intro b
      rw [List.mem_cons, hg.mem_iff]
      by_cases hb : b = a <;> simp [hb]

theorem Grayed.trans {vs ws : List (FklVMref A)} {gc gc' gc'' : FklVMgc A}
    (h : Grayed vs gc gc') (h' : Grayed ws gc' gc'') : Grayed (vs ++ ws) gc gc'' where
  mark_eq a := by
    simp only [h'.mark_eq, h.mark_eq, List.mem_append]
    by_cases hw : gc.mark a = .w
    · by_cases hv : FklVMref.ptr a ∈ vs <;> simp [hw, hv]
    · simp [hw]
  grayNext_eq a ha := by
    rw [h'.grayNext_eq, h.grayNext_eq a ha]
    rw [h.mark_eq]
    split
    · nofun
    · exact ha
  next_eq := h'.next_eq.trans h.next_eq
  obj_eq := h'.obj_eq.trans h.obj_eq
  weakRefs_eq := h'.weakRefs_eq.trans h.weakRefs_eq
  head_eq := h'.head_eq.trans h.head_eq
  grayOk g hg := by
    obtain ⟨g', hg'⟩ := h.grayOk g hg
    exact h'.grayOk g' hg'

theorem grayed_toGrayAll (vs : List (FklVMref A)) (gc : FklVMgc A) :
    Grayed vs gc (toGrayAll vs gc) := by
  induction vs generalizing gc with
  | nil => exact ⟨by simp [toGrayAll], fun _ _ => rfl, rfl, rfl, rfl, rfl, fun g hg => ⟨g, hg⟩⟩
  | cons v vs ih => exact (grayed_fklVMgcToGray v gc).trans (ih _)

/-! One call. -/

/-- What one call that finds the gray object `v` changes. -/
structure Propagated (v : A) (gc gc' : FklVMgc A) : Prop where
  mark_eq : ∀ a, gc'.mark a = if a = v then .b
    else if gc.mark a = .w ∧ .ptr a ∈ (gc.obj v).strongRefs then .g else gc.mark a
  next_eq : gc'.next = gc.next
  obj_eq : gc'.obj = gc.obj
  head_eq : gc'.head = gc.head
  grayOk : ∃ g, GrayOk gc' g
  weakSeg : ∀ w, ListSeg gc.grayNext gc.weakRefs w none → (∀ a ∈ w, gc.mark a = .b) →
    ListSeg gc'.grayNext gc'.weakRefs (if (gc.obj v).isWeakRefValue then v :: w else w) none

theorem propagated_fklVMgcPropagate {gc : FklVMgc A} {v : A} {g : List A}
    (hg : GrayOk gc (v :: g)) :
    Propagated v gc (fklVMgcPropagate gc).1 ∧
      (fklVMgcPropagate gc).2 = (fklVMgcPropagate gc).1.grayList.isNone := by
  obtain ⟨⟨hlist, hseg⟩, hnodup, hmem⟩ := hg
  obtain ⟨hv, hnodup⟩ := List.nodup_cons.mp hnodup
  have hgray : gc.mark v = .g := (hmem v).mp List.mem_cons_self
  set gc₁ := ((gc.setGrayList (gc.grayNext v)).setGrayNext v none).setMark v .b with hgc₁
  have hok₁ : GrayOk gc₁ g := by
    refine ⟨?_, hnodup, fun a => ?_⟩
    · change ListSeg gc₁.grayNext (gc.grayNext v) g none
      simpa [hgc₁] using hseg.update hv none
    · by_cases ha : a = v
      · subst ha; simp [hgc₁, hv]
      · simp [hgc₁, ha, ← hmem]
  set gc₂ := toGrayAll (gc.obj v).strongRefs gc₁ with hgc₂
  have h₂ : Grayed (gc.obj v).strongRefs gc₁ gc₂ := grayed_toGrayAll _ _
  obtain ⟨g', hok₂⟩ := h₂.grayOk g hok₁
  have hobj₁ : gc₁.obj = gc.obj := by simp [hgc₁]
  have hobj₂ : gc₂.obj = gc.obj := h₂.obj_eq.trans hobj₁
  have hrun : fklVMgcPropagate gc =
      (if (gc.obj v).isWeakRefValue then (gc₂.setGrayNext v gc₂.weakRefs).setWeakRefs (some v)
        else gc₂, gc₂.grayList.isNone) := by
    have hm : ((gc.setGrayList (gc.grayNext v)).setGrayNext v none).mark v = .g := by
      simp [hgray]
    unfold fklVMgcPropagate
    rw [hlist]
    dsimp only
    rw [if_pos hm, propagateMark_eq, obj_setGrayNext, obj_setGrayList, ← hgc₁, ← hgc₂, hobj₂]
    split <;> rfl
  have hmark₂ : ∀ a, gc₂.mark a = if a = v then .b
      else if gc.mark a = .w ∧ .ptr a ∈ (gc.obj v).strongRefs then .g else gc.mark a := by
    intro a
    rw [h₂.mark_eq]
    by_cases ha : a = v
    · subst ha; simp [hgc₁]
    · simp [hgc₁, ha]
  have hweak : ∀ w, ListSeg gc.grayNext gc.weakRefs w none → (∀ a ∈ w, gc.mark a = .b) →
      v ∉ w ∧ ListSeg gc₂.grayNext gc₂.weakRefs w none := by
    intro w hw hblack
    have hvw : v ∉ w := fun hvw => by rw [hblack v hvw] at hgray; cases hgray
    refine ⟨hvw, ?_⟩
    rw [h₂.weakRefs_eq]
    refine hw.congr fun a ha => ?_
    have hne : a ≠ v := fun he => hvw (he ▸ ha)
    rw [h₂.grayNext_eq a (by simp [hgc₁, hne, hblack a ha])]
    simp [hgc₁, hne]
  rw [hrun]
  by_cases hw : (gc.obj v).isWeakRefValue = true
  · rw [if_pos hw]
    have hv₂ : v ∉ g' := by
      rw [hok₂.mem_iff, hmark₂]
      simp
    refine ⟨⟨by simpa using hmark₂, ?_, ?_, ?_, ⟨g', ?_, hok₂.nodup, ?_⟩,
      fun w hseg hblack => ?_⟩, rfl⟩
    · simpa [hgc₁] using h₂.next_eq
    · simpa using hobj₂
    · exact h₂.head_eq
    · change ListSeg _ gc₂.grayList g' none
      simpa using hok₂.seg.update hv₂ gc₂.weakRefs
    · simpa using hok₂.mem_iff
    · obtain ⟨hvw, hseg₂⟩ := hweak w hseg hblack
      rw [if_pos hw]
      refine ⟨rfl, ?_⟩
      simpa using hseg₂.update hvw gc₂.weakRefs
  · rw [if_neg hw]
    refine ⟨⟨hmark₂, ?_, hobj₂, h₂.head_eq, ⟨g', hok₂⟩, fun w hseg hblack => ?_⟩, rfl⟩
    · simpa [hgc₁] using h₂.next_eq
    · rw [if_neg hw]
      exact (hweak w hseg hblack).2

/-! The whole loop. -/

/-- A heap before marking. Next to the objects of the heap list there are those in static storage,
which are black for ever and refer to each other only; no reference dangles. -/
structure FklVMgc.Ready (gc : FklVMgc A) (heap : List A) (static : A → Prop) : Prop where
  seg : ListSeg gc.next gc.head heap none
  nodup : heap.Nodup
  mark_heap : ∀ a ∈ heap, gc.mark a ≠ .b
  mark_static : ∀ a, static a → gc.mark a = .b
  gray_heap : ∀ a, gc.mark a = .g → a ∈ heap
  grayOk : ∃ g, GrayOk gc g
  weakRefs_eq : gc.weakRefs = none
  refs_heap : ∀ a ∈ heap, ∀ b, .ptr b ∈ (gc.obj a).refs → b ∈ heap ∨ static b
  refs_static : ∀ a, static a → ∀ b, .ptr b ∈ (gc.obj a).refs → static b

/-- The object is reachable from a gray one. -/
def FklVMgc.Reaches (gc : FklVMgc A) (a : A) : Prop :=
  ∃ r, gc.mark r = .g ∧
    Relation.ReflTransGen (fun a b => .ptr b ∈ (gc.obj a).strongRefs) r a

/-- The weak references to be updated: the objects of such a type that were blackened. -/
def WeakOk (gc₀ gc : FklVMgc A) (w : List A) : Prop :=
  ListSeg gc.grayNext gc.weakRefs w none ∧ w.Nodup ∧
    ∀ a, a ∈ w ↔ gc.mark a = .b ∧ gc₀.mark a ≠ .b ∧ (gc₀.obj a).isWeakRefValue = true

/-- The state between two calls, when marking began at `gc₀`. -/
structure Marking (gc₀ gc : FklVMgc A) : Prop where
  next_eq : gc.next = gc₀.next
  obj_eq : gc.obj = gc₀.obj
  head_eq : gc.head = gc₀.head
  grayOk : ∃ g, GrayOk gc g
  weakOk : ∃ w, WeakOk gc₀ gc w
  marked : ∀ a, gc₀.mark a ≠ .w → gc.mark a ≠ .w
  static : ∀ a, gc₀.mark a = .b → gc.mark a = .b
  sound : ∀ a, gc.mark a ≠ .w → gc₀.mark a = .b ∨ gc₀.Reaches a
  closed : ∀ a, gc.mark a = .b → gc₀.mark a = .b ∨
    ∀ b, .ptr b ∈ (gc₀.obj a).strongRefs → gc.mark b ≠ .w

omit [DecidableEq A] in
theorem FklVMgc.Ready.marking {gc : FklVMgc A} {heap : List A} {static : A → Prop}
    (h : gc.Ready heap static) :
    Marking gc gc where
  next_eq := rfl
  obj_eq := rfl
  head_eq := rfl
  grayOk := h.grayOk
  weakOk := ⟨[], h.weakRefs_eq, List.nodup_nil, by simp; tauto⟩
  marked _ := id
  static _ := id
  sound a ha := by
    cases hm : gc.mark a with
    | w => exact absurd hm ha
    | g => exact Or.inr ⟨a, hm, .refl⟩
    | b => exact Or.inl rfl
  closed _ := Or.inl

omit [DecidableEq A] in
theorem FklVMgc.Reaches.step {gc : FklVMgc A} {a b : A} (h : gc.Reaches a)
    (hb : .ptr b ∈ (gc.obj a).strongRefs) : gc.Reaches b := by
  obtain ⟨r, hr, hpath⟩ := h
  exact ⟨r, hr, hpath.tail hb⟩

omit [DecidableEq A] in
theorem FklVMgc.Ready.mem_of_reaches {gc : FklVMgc A} {heap : List A} {static : A → Prop}
    (h : gc.Ready heap static) {a : A} (ha : gc.Reaches a) : a ∈ heap ∨ static a := by
  obtain ⟨r, hr, hpath⟩ := ha
  induction hpath with
  | refl => exact Or.inl (h.gray_heap r hr)
  | @tail a b _ hedge ih =>
    have href : .ptr b ∈ (gc.obj a).refs := List.mem_append_left _ hedge
    exact ih.elim (fun ha => h.refs_heap a ha b href) fun ha => Or.inr (h.refs_static a ha b href)

theorem Marking.step {gc₀ gc : FklVMgc A} {v : A} {g : List A} (h : Marking gc₀ gc)
    (hg : GrayOk gc (v :: g)) : Marking gc₀ (fklVMgcPropagate gc).1 := by
  obtain ⟨hp, -⟩ := propagated_fklVMgcPropagate hg
  set gc' := (fklVMgcPropagate gc).1
  have hgray : gc.mark v = .g := (hg.mem_iff v).mp List.mem_cons_self
  have hnot : gc₀.mark v ≠ .b := fun hb => by
    rw [h.static v hb] at hgray
    cases hgray
  have hreach : gc₀.Reaches v := (h.sound v (by simp [hgray])).resolve_left hnot
  have hmarked : ∀ a, gc.mark a ≠ .w → gc'.mark a ≠ .w := by
    intro a ha
    rw [hp.mark_eq]
    split
    · nofun
    · simp [ha]
  refine ⟨hp.next_eq.trans h.next_eq, hp.obj_eq.trans h.obj_eq, hp.head_eq.trans h.head_eq,
    hp.grayOk, ?_, fun a ha => hmarked a (h.marked a ha), fun a ha => ?_, fun a ha => ?_,
    fun a ha => ?_⟩
  · obtain ⟨w, hseg, hnodup, hmem⟩ := h.weakOk
    have hvw : v ∉ w := fun hvw => by
      rw [((hmem v).mp hvw).1] at hgray
      cases hgray
    refine ⟨_, hp.weakSeg w hseg fun a ha => ((hmem a).mp ha).1, ?_, fun a => ?_⟩
    · split
      · exact List.nodup_cons.mpr ⟨hvw, hnodup⟩
      · exact hnodup
    · have hblack : a ≠ v → (gc'.mark a = .b ↔ gc.mark a = .b) := by
        intro hne
        rw [hp.mark_eq, if_neg hne]
        split
        next hw => simp [hw.1]
        next => rfl
      rw [h.obj_eq]
      by_cases hne : a = v
      · subst hne
        rw [hp.mark_eq, if_pos rfl]
        split <;> simp_all
      · rw [hblack hne, ← hmem]
        split <;> simp [hne]
  · rw [hp.mark_eq, h.static a ha]
    simp
  · rw [hp.mark_eq] at ha
    split at ha
    next he => exact he ▸ Or.inr hreach
    next =>
      split at ha
      next hw => exact Or.inr (hreach.step (h.obj_eq ▸ hw.2))
      next => exact h.sound a ha
  · rw [hp.mark_eq] at ha
    split at ha
    next he =>
      subst he
      refine Or.inr fun b hb => ?_
      rw [hp.mark_eq]
      split
      · nofun
      · rw [h.obj_eq]
        split
        · nofun
        next hnw => exact fun hw => hnw ⟨hw, hb⟩
    next =>
      split at ha
      · cases ha
      · exact (h.closed a ha).imp_right fun hrefs b hb => hmarked b (hrefs b hb)

/-- The number of objects of the heap that are not black yet. -/
def notBlack (gc : FklVMgc A) (heap : List A) : Nat := heap.countP fun a => gc.mark a ≠ .b

theorem Propagated.notBlack_lt {gc gc' : FklVMgc A} {heap : List A} {v : A}
    (h : Propagated v gc gc') (hv : v ∈ heap) (hgray : gc.mark v = .g) :
    notBlack gc' heap < notBlack gc heap := by
  refine countP_lt_countP hv ?_ ?_ fun a _ ha => ?_
  · simp [h.mark_eq]
  · simp [hgray]
  · simp only [h.mark_eq, ne_eq, decide_eq_true_eq] at ha ⊢
    intro hb
    rw [hb] at ha
    simp at ha

/-- One call keeps the invariant, and either it is the last or an object was blackened. -/
theorem Marking.call {gc s : FklVMgc A} {heap : List A} {static : A → Prop}
    (h : gc.Ready heap static) (hs : Marking gc s) :
    Marking gc (fklVMgcPropagate s).1 ∧
      ((fklVMgcPropagate s).2 = true → (fklVMgcPropagate s).1.grayList = none) ∧
      notBlack (fklVMgcPropagate s).1 heap + (if (fklVMgcPropagate s).2 then 0 else 1) <
        notBlack s heap + 1 := by
  obtain ⟨g, hg⟩ := hs.grayOk
  cases g with
  | nil =>
    have hnone : s.grayList = none := hg.seg
    have hrun : fklVMgcPropagate s = (s, true) := by
      unfold fklVMgcPropagate
      rw [hnone]
    rw [hrun]
    exact ⟨hs, fun _ => hnone, by simp⟩
  | cons v g =>
    obtain ⟨hp, hdone⟩ := propagated_fklVMgcPropagate hg
    have hgray : s.mark v = .g := (hg.mem_iff v).mp List.mem_cons_self
    have hv : v ∈ heap := by
      have hnot : gc.mark v ≠ .b := fun hb => by
        rw [hs.static v hb] at hgray
        cases hgray
      have hreach := (hs.sound v (by simp [hgray])).resolve_left hnot
      exact (h.mem_of_reaches hreach).resolve_right fun hst => hnot (h.mark_static v hst)
    refine ⟨hs.step hg, fun ht => ?_, ?_⟩
    · rw [hdone] at ht
      simpa using ht
    · have := hp.notBlack_lt hv hgray
      split <;> omega

/-- Marking ends, and blackens what is reachable. -/
theorem propagateAll_spec {gc : FklVMgc A} {heap : List A} {static : A → Prop}
    (h : gc.Ready heap static) :
    ∃ gc', (∀ fuel, heap.length + 1 < fuel → propagateAll fuel gc = some gc') ∧
      Marking gc gc' ∧ gc'.grayList = none := by
  obtain ⟨⟨gc', done⟩, m, ⟨hmark, -, hdone⟩, hcond, hrun⟩ := @LoopsTo.total _
    (fun s : FklVMgc A × Bool => !s.2) (fun s => some (fklVMgcPropagate s.1))
    (fun n s => Marking gc s.1 ∧ n = notBlack s.1 heap + (if s.2 then 0 else 1) ∧
      (s.2 = true → s.1.grayList = none))
    (by
      rintro n ⟨s, done⟩ ⟨hs, hn, -⟩ hc
      obtain rfl : done = false := by simpa using hc
      obtain ⟨hnext, hdone, hlt⟩ := hs.call h
      exact ⟨_, _, rfl, hn ▸ hlt, hnext, rfl, hdone⟩)
    _ (gc, false) ⟨h.marking, rfl, nofun⟩
  obtain rfl : done = true := by simpa using hcond
  have hle : notBlack gc heap ≤ heap.length := List.countP_le_length
  refine ⟨gc', fun fuel hfuel => ?_, hmark, hdone rfl⟩
  unfold propagateAll
  rw [hrun fuel (by simp; omega)]
  rfl

omit [DecidableEq A] in
/-- At the end of marking an object of the heap is black where it is reachable. -/
theorem Marking.black_iff {gc gc' : FklVMgc A} {heap : List A} {static : A → Prop}
    (h : gc.Ready heap static)
    (hm : Marking gc gc') (hend : gc'.grayList = none) :
    (∀ a, gc'.mark a ≠ .g) ∧ ∀ a ∈ heap, gc'.mark a = .b ↔ gc.Reaches a := by
  have hgray : ∀ a, gc'.mark a ≠ .g := by
    obtain ⟨g, hg⟩ := hm.grayOk
    obtain rfl : g = [] := by
      cases g with
      | nil => rfl
      | cons v g => simpa [hend] using hg.seg.1
    exact fun a ha => by simpa using (hg.mem_iff a).mpr ha
  have hblack : ∀ a, gc'.mark a ≠ .w → gc'.mark a = .b := fun a ha => by
    cases hma : gc'.mark a with
    | w => exact absurd hma ha
    | g => exact absurd hma (hgray a)
    | b => rfl
  refine ⟨hgray, fun a ha => ⟨fun hb => ?_, ?_⟩⟩
  · exact (hm.sound a (by simp [hb])).resolve_left (h.mark_heap a ha)
  · rintro ⟨r, hr, hpath⟩
    clear ha
    induction hpath with
    | refl => exact hblack r (hm.marked r (by simp [hr]))
    | @tail a b hpath hedge ih =>
      rcases hm.closed a ih with hs | hs
      · have hst := (h.mem_of_reaches ⟨r, hr, hpath⟩).resolve_left fun ha => h.mark_heap a ha hs
        have hb := h.refs_static a hst b (List.mem_append_left _ hedge)
        exact hm.static b (h.mark_static b hb)
      · exact hblack b (hs b hedge)

end FakeLisp
