import FakeLisp.CircleRefRight
import FakeLisp.ValueFileWhole

/-! A value that has been read back from a file is compared with the one that was written. -/

namespace FakeLisp

open BreadthFirst FklValueTable SerialMem

variable {A B : Type}

/-- Whether an object is equal to another one with the same contents. A NaN is not, nor are a
symbol that is not interned and a slot, which are equal to themselves alone. -/
def ValueObj.equalsCopy : ValueObj A → Bool
  | .f64 bits => f64Equal bits bits
  | .sym interned _ => interned
  | .slot _ _ => false
  | _ => true

theorem ValueObj.equalsCopy_of_singleton {o : ValueObj A} (ho : o.isSingleton = true) :
    o.equalsCopy = true := by
  cases o with
  | sym interned s => cases interned <;> simp_all [isSingleton, equalsCopy]
  | _ => simp_all [isSingleton, equalsCopy]

namespace ValueFile

def wordEqualsCopy (mem : A → ValueObj A) : ValueWord A → Bool
  | .ptr a => (mem a).equalsCopy
  | _ => true

theorem equalObjs_copy {o : ValueObj A} (ho : o.isSingleton = false) (e φ : A → B) :
    (equalObjs true (o.map e) (o.map φ)).1 = o.equalsCopy ∧ (o.equalsCopy = true →
      (equalObjs true (o.map e) (o.map φ)).2 = o.words.map fun w => (w.map e, w.map φ)) := by
  cases o with
  | vec base => simp [ValueObj.map, equalObjs, ValueObj.equalsCopy, ValueObj.words, List.zip_map']
  | hashTable eqType ht =>
    simp [ValueObj.map, equalObjs, ValueObj.equalsCopy, ValueObj.words, List.zip_map',
      List.flatMap_map, List.map_flatMap]
  | sym interned s =>
    cases interned
    · exact ⟨rfl, fun h => absurd h Bool.false_ne_true⟩
    · cases ho
  | _ => simp_all [ValueObj.map, equalObjs, ValueObj.equalsCopy, ValueObj.words,
      ValueObj.isSingleton]

/-! The loop of the comparison. -/

section

variable [DecidableEq B] {obj : B → Option (ValueObj B)}

/-- Behind `n` rounds the pairs have been compared: what they push is gone, or the loop has ended
with a difference. -/
def ComparesTo (obj : B → Option (ValueObj B)) (n : Nat) (s : List (ValueWord B × ValueWord B))
    (equal : Prop) : Prop :=
  ∀ rest fuel,
    (equal → ∃ fuel', fuel ≤ fuel' ∧
      equalLoop obj (n + fuel) true (s ++ rest) = equalLoop obj fuel' true rest) ∧
    (¬equal → equalLoop obj (n + fuel) true (s ++ rest) = some false)

theorem comparesTo_nil (obj : B → Option (ValueObj B)) : ComparesTo obj 0 [] True :=
  fun _ fuel => ⟨fun _ => ⟨fuel, le_rfl, by simp⟩, fun h => absurd trivial h⟩

theorem ComparesTo.congr {n : Nat} {s : List (ValueWord B × ValueWord B)} {P Q : Prop}
    (h : ComparesTo obj n s P) (hPQ : P ↔ Q) : ComparesTo obj n s Q :=
  propext hPQ ▸ h

theorem ComparesTo.append {n m : Nat} {s t : List (ValueWord B × ValueWord B)} {P Q : Prop}
    (hs : ComparesTo obj n s P) (ht : ComparesTo obj m t Q) :
    ComparesTo obj (n + m) (s ++ t) (P ∧ Q) := by
  intro rest fuel
  rw [List.append_assoc, Nat.add_assoc]
  obtain ⟨hgood, hbad⟩ := hs (t ++ rest) (m + fuel)
  by_cases hP : P
  · obtain ⟨fuel₁, hle, heq⟩ := hgood hP
    obtain ⟨extra, rfl⟩ := Nat.exists_eq_add_of_le hle
    rw [heq, Nat.add_assoc]
    obtain ⟨hgood', hbad'⟩ := ht rest (fuel + extra)
    refine ⟨fun hPQ => ?_, fun hPQ => hbad' fun hQ => hPQ ⟨hP, hQ⟩⟩
    obtain ⟨fuel₂, hle₂, heq₂⟩ := hgood' hPQ.2
    exact ⟨fuel₂, by omega, heq₂⟩
  · exact ⟨fun hPQ => absurd hPQ.1 hP, fun _ => hbad hP⟩

/-- One round, and then what it has pushed. -/
theorem ComparesTo.round {n : Nat} {w w' : ValueWord B} {r : Bool}
    {pushed : List (ValueWord B × ValueWord B)} {P : Prop}
    (hround : equalRound obj true w w' = some (r, pushed))
    (h : r = true → ComparesTo obj n pushed P) :
    ComparesTo obj (n + 1) [(w, w')] (r = true ∧ P) := by
  intro rest fuel
  rw [show n + 1 + fuel = n + fuel + 1 by omega, List.singleton_append, equalLoop, hround]
  cases r with
  | false => simp
  | true =>
    obtain ⟨hgood, hbad⟩ := h rfl rest fuel
    exact ⟨fun hP => hgood hP.2, fun hP => hbad fun hP' => hP ⟨rfl, hP'⟩⟩

theorem comparesTo_map {l : List (ValueWord A)} {f : ValueWord A → ValueWord B × ValueWord B}
    {P : ValueWord A → Prop} (h : ∀ w ∈ l, ∃ n, ComparesTo obj n [f w] (P w)) :
    ∃ n, ComparesTo obj n (l.map f) (∀ w ∈ l, P w) := by
  induction l with
  | nil => exact ⟨0, (comparesTo_nil obj).congr (by simp)⟩
  | cons w l ih =>
    obtain ⟨n, hn⟩ := h w List.mem_cons_self
    obtain ⟨m, hm⟩ := ih fun w' hw' => h w' (List.mem_cons_of_mem w hw')
    exact ⟨n + m, (hn.append hm).congr (by simp)⟩

theorem equalRound_self (w : ValueWord B) : equalRound obj true w w = some (true, []) := by
  cases w <;> simp [equalRound]

/-- The function as its loop alone. -/
theorem fklVMvalueEqual_succ (fuel : Nat) (w w' : ValueWord B) :
    fklVMvalueEqual obj (fuel + 1) w w' = equalLoop obj (fuel + 1) true [(w, w')] := by
  unfold fklVMvalueEqual
  split
  · next heq =>
    subst heq
    simp [equalLoop, equalRound_self]
  · rfl

theorem ComparesTo.fklVMvalueEqual {n : Nat} {w w' : ValueWord B} {P : Prop}
    (h : ComparesTo obj n [(w, w')] P) :
    ∃ r, (r = true ↔ P) ∧ ∀ fuel, n < fuel →
      ValueFile.fklVMvalueEqual obj fuel w w' = some r := by
  by_cases hP : P
  · refine ⟨true, by simp [hP], fun fuel hfuel => ?_⟩
    obtain ⟨extra, rfl⟩ := Nat.exists_eq_add_of_lt hfuel
    obtain ⟨fuel', -, heq⟩ := (h [] (extra + 1)).1 hP
    rw [fklVMvalueEqual_succ]
    rw [List.append_nil, ← Nat.add_assoc] at heq
    rw [heq]
    cases fuel' <;> rfl
  · refine ⟨false, by simp [hP], fun fuel hfuel => ?_⟩
    obtain ⟨extra, rfl⟩ := Nat.exists_eq_add_of_lt hfuel
    rw [fklVMvalueEqual_succ]
    simpa [Nat.add_assoc] using (h [] (extra + 1)).2 hP

end

/-! Two copies in one heap. -/

/-- The objects in `S` are in the heap at the addresses `e` and at the addresses `φ`, and twice but
for the singletons. -/
structure Twice (S : A → Prop) (mem : A → ValueObj A) (e φ : A → B)
    (obj : B → Option (ValueObj B)) : Prop where
  left : ∀ a, S a → obj (e a) = some ((mem a).map e)
  right : ∀ a, S a → obj (φ a) = some ((mem a).map φ)
  closed : ∀ a b, S a → ValueWord.ptr b ∈ (mem a).words → S b
  same : ∀ a, S a → (e a = φ a ↔ (mem a).isSingleton = true)

/-- Everything in `x` is equal to its copy. -/
def AllEqualCopy (mem : A → ValueObj A) (h : SlotsRight mem) (x : ValueWord A) : Prop :=
  ∀ y, SubValue (serialMem mem h) x y → wordEqualsCopy mem y = true

variable {mem : A → ValueObj A}

theorem allEqualCopy_ptr (h : SlotsRight mem) (a : A) : AllEqualCopy mem h (.ptr a) ↔
    (mem a).equalsCopy = true ∧ ∀ w ∈ (mem a).words, AllEqualCopy mem h w := by
  constructor
  · intro hall
    refine ⟨hall _ .refl, fun w hw y hy => hall y (hy.head ?_)⟩
    exact (mem_components_iff h a w).mpr hw
  · rintro ⟨ha, hwords⟩ y hy
    rcases Relation.ReflTransGen.cases_head hy with rfl | ⟨w, hw, hy⟩
    · exact ha
    · exact hwords w ((mem_components_iff h a w).mp hw) y hy

theorem allEqualCopy_imm (h : SlotsRight mem) {w : ValueWord A} (hw : ∀ a, w ≠ .ptr a) :
    AllEqualCopy mem h w := by
  intro y hy
  have hnone : ∀ c, c ∉ (serialMem mem h).components w := by
    intro c hc
    cases w with
    | ptr a => exact hw a rfl
    | _ => cases hc
  rcases Relation.ReflTransGen.cases_head hy with rfl | ⟨c, hc, -⟩
  · cases w with
    | ptr a => exact absurd rfl (hw a)
    | _ => rfl
  · exact absurd hc (hnone c)

variable [DecidableEq B] {S : A → Prop} {e φ : A → B} {obj : B → Option (ValueObj B)}

theorem Twice.equalRound (h : Twice S mem e φ obj) {a : A} (ha : S a) :
    ∃ pushed, equalRound obj true (.ptr (e a)) (.ptr (φ a)) = some ((mem a).equalsCopy, pushed) ∧
      ((mem a).equalsCopy = true → pushed = (mem a).words.map fun w => (w.map e, w.map φ)) := by
  have hsame := h.same a ha
  cases hsing : (mem a).isSingleton with
  | true =>
    refine ⟨[], ?_, fun _ => by rw [ValueObj.words_of_singleton hsing]; rfl⟩
    rw [hsame.mpr hsing, equalRound_self, ValueObj.equalsCopy_of_singleton hsing]
  | false =>
    have hne : e a ≠ φ a := by simp [hsame, hsing]
    obtain ⟨hr, hpushed⟩ := equalObjs_copy hsing e φ
    refine ⟨_, ?_, hpushed⟩
    rw [ValueFile.equalRound, if_neg hne, h.left a ha, h.right a ha, ← hr]
    rfl

/-- By induction on the value: a round leaves the components against their copies. -/
theorem Twice.compares (h : Twice S mem e φ obj) (hslot : SlotsRight mem) {x : ValueWord A}
    (hacyclic : Acyclic (serialMem mem hslot) x) (hx : WordIn S x) :
    ∃ n, ComparesTo obj n [(x.map e, x.map φ)] (AllEqualCopy mem hslot x) := by
  induction hacyclic with
  | intro x _ ih =>
    have himm : (∀ a, x ≠ .ptr a) → x.map e = x.map φ →
        ∃ n, ComparesTo obj n [(x.map e, x.map φ)] (AllEqualCopy mem hslot x) := by
      intro hne hmap
      have hround : ValueFile.equalRound obj true (x.map e) (x.map φ) = some (true, []) := by
        rw [hmap, equalRound_self]
      refine ⟨_, (ComparesTo.round hround fun _ => comparesTo_nil obj).congr ?_⟩
      simp [allEqualCopy_imm hslot hne]
    cases x with
    | ptr a =>
      have ha := hx a rfl
      obtain ⟨pushed, hround, hpushed⟩ := h.equalRound ha
      obtain ⟨n, hn⟩ := comparesTo_map fun w hw =>
        ih w ((mem_components_iff hslot a w).mpr hw) fun b hb => h.closed a b ha (hb ▸ hw)
      refine ⟨n + 1, (ComparesTo.round hround fun hr => ?_).congr (allEqualCopy_ptr hslot a).symm⟩
      rw [hpushed hr]
      exact hn
    | _ => exact himm (by simp) rfl

/-! What is accepted. -/

/-- An object as `fklIsSerializableToByteCodeFile` sees it. -/
def graphData (mem : A → ValueObj A) : ValueWord A → GraphData (ValueWord A)
  | .null => .leaf false
  | .ptr a =>
    match mem a with
    | .pair car cdr => .pair car cdr
    | .vec base => .vec base
    | .box v => .box v
    | .hashTable _ ht => .hashTable ht
    | _ => .leaf true
  | _ => .leaf true

theorem finite_compound [Finite A] (mem : A → ValueObj A) :
    Finite {w // (graphData mem w).compound} := by
  have hsub : {w | (graphData mem w).compound} ⊆ Set.range ValueWord.ptr := by
    intro w hw
    cases w with
    | ptr a => exact ⟨a, rfl⟩
    | _ => cases hw
  exact ((Set.finite_range _).subset hsub).to_subtype

def valueGraph [Finite A] (mem : A → ValueObj A) : ValueGraph (ValueWord A) :=
  ⟨graphData mem, finite_compound mem⟩

end ValueFile

namespace ValueGraph

variable {V : Type} {g : ValueGraph V} {v : V}

theorem dfsLoop_succ {σ : Type} [DecidableEq V] {callback : V → σ → Bool × σ} {fuel : Nat}
    {valueSet stack : List V} {ctx r : σ}
    (h : g.dfsLoop callback fuel valueSet stack ctx = some r) :
    g.dfsLoop callback (fuel + 1) valueSet stack ctx = some r := by
  induction fuel generalizing valueSet stack ctx with
  | zero => cases h
  | succ fuel ih =>
    cases stack with
    | nil => exact h
    | cons x stack =>
      rw [dfsLoop] at h ⊢
      generalize callback x ctx = called at h ⊢
      obtain ⟨stop, ctx'⟩ := called
      simp only at h ⊢
      split_ifs at h ⊢
      · exact h
      · exact ih h
      · exact ih h

theorem reduceDegrees_succ [DecidableEq V] {fuel : Nat} {t r : DegreeTable V}
    (h : g.reduceDegrees fuel t = some r) : g.reduceDegrees (fuel + 1) t = some r := by
  induction fuel generalizing t with
  | zero => cases h
  | succ fuel ih =>
    rw [reduceDegrees] at h ⊢
    split_ifs at h ⊢
    · exact h
    · exact ih h

theorem fklIsSerializableToByteCodeFile_succ [DecidableEq V] {fuel : Nat} {r : Bool}
    (h : g.fklIsSerializableToByteCodeFile fuel v = some r) :
    g.fklIsSerializableToByteCodeFile (fuel + 1) v = some r := by
  unfold fklIsSerializableToByteCodeFile at h ⊢
  split_ifs at h ⊢
  · exact h
  · exact h
  · obtain ⟨ctx, hctx, h⟩ := Option.bind_eq_some_iff.mp h
    rw [traverseValueDfs] at hctx ⊢
    rw [dfsLoop_succ hctx, Option.bind_eq_bind, Option.bind_some]
    split_ifs at h ⊢
    · exact h
    · obtain ⟨t, ht, h⟩ := Option.bind_eq_some_iff.mp h
      rw [reduceDegrees_succ ht, Option.bind_eq_bind, Option.bind_some]
      exact h

/-- What an accepted value is. -/
theorem accepted [DecidableEq V] {fuel : Nat}
    (h : g.fklIsSerializableToByteCodeFile fuel v = some true) :
    (∀ x, g.Reaches v x → g.isSerializableToBytecodeValue x = true) ∧ ¬g.HasCircle v := by
  obtain ⟨n, r, hrun, hr⟩ := fklIsSerializableToByteCodeFile_eq g v
  have hmore : g.fklIsSerializableToByteCodeFile (fuel + (n + 1)) v = some true :=
    Nat.le_induction h (fun _ _ => fklIsSerializableToByteCodeFile_succ) _
      (Nat.le_add_right fuel (n + 1))
  rw [hrun _ (by omega)] at hmore
  exact hr.mp (Option.some.inj hmore)

/-- Where there is no circle, there are finitely many values below that have components, and none
of them is below itself. -/
theorem acc_of_not_hasCircle (h : ¬g.HasCircle v) : Acc (Child g.children) v := by
  let below (c p : {x // g.compound x ∧ g.Reaches v x}) : Prop := Relation.TransGen g.Refers p.1 c.1
  have hfinite : Finite {x // g.compound x ∧ g.Reaches v x} := by
    have hcompound : {x | g.compound x}.Finite := Set.finite_coe_iff.mp g.finite
    exact (hcompound.subset fun x hx => hx.1).to_subtype
  have : IsTrans _ below := ⟨fun _ _ _ hab hbc => hbc.trans hab⟩
  have : Std.Irrefl below := ⟨fun x hx => h ⟨x.1, x.2.2, hx⟩⟩
  have hleaf : ∀ x, g.compound x ≠ true → Acc (Child g.children) x := fun x hx =>
    ⟨x, fun c hc => absurd (compound_of_refers hc) hx⟩
  have hacc : ∀ x : {x // g.compound x ∧ g.Reaches v x}, Acc (Child g.children) x.1 := by
    intro x
    induction x using (Finite.wellFounded_of_trans_of_irrefl below).induction with
    | _ x ih =>
      constructor
      intro c hc
      by_cases hcompound : g.compound c = true
      · exact ih ⟨c, hcompound, x.2.2.tail hc⟩ (.single hc)
      · exact hleaf c hcompound
  by_cases hv : g.compound v = true
  · exact hacc ⟨v, hv, .refl⟩
  · exact hleaf v hv

end ValueGraph

namespace ValueFile

variable {mem : A → ValueObj A}

theorem mem_children_iff [Finite A] (a : A) (w : ValueWord A)
    (ha : ∀ s expand, mem a ≠ .slot s expand) :
    w ∈ (valueGraph mem).children (.ptr a) ↔ w ∈ (mem a).words := by
  unfold ValueGraph.children
  cases ho : mem a with
  | slot s expand => exact absurd ho (ha s expand)
  | _ => simp [valueGraph, graphData, ho, ValueObj.words]

/-- A slot refers to a symbol, which refers to nothing. -/
theorem acyclic_of_acc [Finite A] (h : SlotsRight mem) {x : ValueWord A}
    (hx : Acc (Child (valueGraph mem).children) x) : Acyclic (serialMem mem h) x := by
  induction hx with
  | intro x _ ih =>
    constructor
    intro c hc
    cases x with
    | ptr a =>
      have hword := (mem_components_iff h a c).mp hc
      by_cases hslot : ∃ s expand, mem a = .slot s expand
      · obtain ⟨s, expand, ho⟩ := hslot
        obtain ⟨b, interned, n, rfl, hb⟩ := h a s expand ho
        obtain rfl : c = .ptr b := by simpa [ho, ValueObj.words] using hword
        constructor
        intro c' hc'
        have := (mem_components_iff h b c').mp hc'
        simp [hb, ValueObj.words] at this
      · exact ih c ((mem_children_iff a c fun s expand ho => hslot ⟨s, expand, ho⟩).mpr hword)
    | _ => cases hc

theorem subValue_ne_null [Finite A] (h : SlotsRight mem) {v x : ValueWord A}
    (hv : ∀ x, (valueGraph mem).Reaches v x →
      (valueGraph mem).isSerializableToBytecodeValue x = true)
    (hx : SubValue (serialMem mem h) v x) : x ≠ .null := by
  have hreach : (valueGraph mem).Reaches v x ∨ ∃ b interned n, x = .ptr b ∧
      mem b = .sym interned n := by
    induction hx with
    | refl => exact .inl .refl
    | @tail y z _ hz ih =>
      cases y with
      | ptr a =>
        have hword := (mem_components_iff h a z).mp hz
        by_cases hslot : ∃ s expand, mem a = .slot s expand
        · obtain ⟨s, expand, ho⟩ := hslot
          obtain ⟨b, interned, n, rfl, hb⟩ := h a s expand ho
          exact .inr ⟨b, interned, n, by simpa [ho, ValueObj.words] using hword, hb⟩
        · have hchild : z ∈ (valueGraph mem).children (.ptr a) :=
            (mem_children_iff a z fun s expand ho => hslot ⟨s, expand, ho⟩).mpr hword
          rcases ih with hreach | ⟨b, interned, n, hab, hb⟩
          · exact .inl (hreach.tail hchild)
          · obtain rfl := ValueWord.ptr.inj hab
            simp [hb, ValueObj.words] at hword
      | _ => cases hz
  rintro rfl
  rcases hreach with hreach | ⟨b, -, -, hb, -⟩
  · cases hv _ hreach
  · cases hb

/-! Writing, reading back and comparing. -/

variable [DecidableEq A] {vt : FklValueTable (ValueWord A)} {heap₀ : FklHeap} {e φ : A → Nat}
  {fuel : Nat} {args : FklLoadValueArgs} {v x : ValueWord A}

/-- No component has a greater id than what holds it. -/
def IdsFollow (vt : FklValueTable (ValueWord A)) (mem : A → ValueObj A) : Prop :=
  vt.ht.get .null = none ∧
    ∀ a i, vt.ht.get (.ptr a) = some i → ∀ w ∈ (mem a).words, Before vt i w

theorem write_iff_idsFollow (hnum : vt.Numbered) :
    (∃ bytes, fklWriteValueTable vt mem = some bytes) ↔ IdsFollow vt mem := by
  constructor
  · rintro ⟨bytes, hbytes⟩
    obtain ⟨b, hb, -⟩ := fklWriteValueTable_eq hbytes
    exact ⟨null_of_write hb, fun a i => before_of_write hnum hb⟩
  · rintro ⟨hnull, hclosed⟩
    exact exists_fklWriteValueTable hnum hnull hclosed

/-- The originals are where they were, and each copy is another object, but for the singletons. -/
theorem CopyOf.twice (h : CopyOf vt mem heap₀ φ args)
    (he : Copied (fun _ => True) e (fun a => some (mem a)) fun a => heap₀[a]?)
    (hids : IdsFollow vt mem) :
    Twice (fun a => vt.ht.get (.ptr a) ≠ none) mem e φ fun a => args.heap[a]? := by
  have hleft : ∀ a, e a < heap₀.length ∧ args.heap[e a]? = some ((mem a).map e) := by
    intro a
    obtain ⟨o, ho, hcopy, -⟩ := he.copy a trivial
    obtain rfl := Option.some.inj ho
    obtain ⟨hlt, -⟩ := List.getElem?_eq_some_iff.mp hcopy
    obtain ⟨tail, htail⟩ := h.kept
    exact ⟨hlt, by rw [← htail, List.getElem?_append_left hlt, hcopy]⟩
  refine ⟨fun a _ => (hleft a).2, fun a ha => ?_, fun a b ha hb => ?_, fun a ha => ?_⟩
  · obtain ⟨i, hi⟩ := Option.ne_none_iff_exists'.mp ha
    exact h.obj a i hi
  · obtain ⟨i, hi⟩ := Option.ne_none_iff_exists'.mp ha
    rcases hids.2 a i hi _ hb with hnull | ⟨j, -, hj⟩
    · cases hnull
    · simp [hj]
  · obtain ⟨i, hi⟩ := Option.ne_none_iff_exists'.mp ha
    constructor
    · intro hsame
      by_contra hnot
      have hfresh := h.fresh a i hi (Bool.eq_false_iff.mpr hnot)
      have hlt := (hleft a).1
      omega
    · intro hsing
      have hmap : (mem a).map e = (mem a).map φ := by
        apply ValueObj.map_congr
        rw [ValueObj.words_of_singleton hsing]
        intro w hw
        cases hw
      exact h.singletons _ _ _ (hleft a).2 (hmap ▸ h.obj a i hi) (by simpa using hsing)

theorem get_of_subValue_table (h : SlotsRight mem) (hids : IdsFollow vt mem)
    (hv : vt.ht.get v ≠ none) (hnull : ∀ x, SubValue (serialMem mem h) v x → x ≠ .null)
    (hx : SubValue (serialMem mem h) v x) : vt.ht.get x ≠ none := by
  induction hx with
  | refl => exact hv
  | @tail y z hy hz ih =>
    cases y with
    | ptr a =>
      obtain ⟨i, hi⟩ := Option.ne_none_iff_exists'.mp ih
      rcases hids.2 a i hi z ((mem_components_iff h a z).mp hz) with rfl | ⟨j, -, hj⟩
      · exact absurd rfl (hnull _ (hy.tail hz))
      · simp [hj]
    | _ => cases hz

/-- A table is written exactly where no component has a greater id than what holds it. What is
loaded is a copy, found at the same ids; and whatever is in an accepted value is equal to its copy
exactly where there is no NaN, no symbol that is not interned and no slot in it. -/
theorem fklWriteValueTable_loadValueTable_equal [Finite A] (buckets : Buckets)
    (hs : Singletons heap₀) (hm : Serializable mem fuel)
    (he : Copied (fun _ => True) e (fun a => some (mem a)) fun a => heap₀[a]?)
    (hnum : vt.Numbered) (hle : vt.nextId ≤ 2 ^ 32) (hv : vt.ht.get v ≠ none) {steps : Nat}
    (haccepted : (valueGraph mem).fklIsSerializableToByteCodeFile steps v = some true) :
    ((∃ bytes, fklWriteValueTable vt mem = some bytes) ↔ IdsFollow vt mem) ∧
      ∀ bytes, fklWriteValueTable vt mem = some bytes →
        ∃ φ args, Reads (loadValueTable buckets fuel heap₀) bytes args ∧
          CopyOf vt mem heap₀ φ args ∧
          ∀ x, SubValue (serialMem mem hm.slot) v x →
            ∃ i, vt.ht.get x = some i ∧ args.values[i - 1]? = some (x.map φ) ∧
              (∀ c ∈ (serialMem mem hm.slot).components x, ∃ j < i, vt.ht.get c = some j) ∧
              ∃ r, (r = true ↔ AllEqualCopy mem hm.slot x) ∧ ∃ n, ∀ rounds, n < rounds →
                fklVMvalueEqual (fun a => args.heap[a]?) rounds (x.map e) (x.map φ) = some r := by
  obtain ⟨hserializable, hcircle⟩ := ValueGraph.accepted haccepted
  have hacyclic := acyclic_of_acc hm.slot (ValueGraph.acc_of_not_hasCircle hcircle)
  have hnull := fun x => subValue_ne_null hm.slot (x := x) hserializable
  refine ⟨write_iff_idsFollow hnum, fun bytes hbytes => ?_⟩
  have hids := (write_iff_idsFollow hnum).mp ⟨bytes, hbytes⟩
  obtain ⟨φ, args, hreads, hcopy⟩ :=
    fklWriteValueTable_loadValueTable buckets hs hm hnum hle hbytes
  refine ⟨φ, args, hreads, hcopy, fun x hx => ?_⟩
  have hget := fun y hy => get_of_subValue_table hm.slot hids hv hnull (x := y) hy
  obtain ⟨i, hi⟩ := Option.ne_none_iff_exists'.mp (hget x hx)
  refine ⟨i, hi, hcopy.value x i hi, fun c hc => ?_, ?_⟩
  · cases x with
    | ptr a =>
      rcases hids.2 a i hi c ((mem_components_iff hm.slot a c).mp hc) with rfl | ⟨j, hj, hc'⟩
      · exact absurd rfl (hnull _ (hx.tail hc))
      · refine ⟨j, lt_of_le_of_ne hj ?_, hc'⟩
        rintro rfl
        obtain rfl := hnum.unique hc' hi
        exact not_component_self hacyclic hx hc
    | _ => cases hc
  · have hxacyclic := acyclic_of_subValue hacyclic hx
    obtain ⟨n, hn⟩ := (hcopy.twice he hids).compares hm.slot hxacyclic fun a ha => ha ▸ hget x hx
    obtain ⟨r, hr, hruns⟩ := hn.fklVMvalueEqual
    exact ⟨r, hr, n, hruns⟩

/-! Concrete heaps. -/

variable {size : Nat}

/-- The heap with nothing but these objects. -/
def heapOf (mem : Fin size → ValueObj (Fin size)) : FklHeap :=
  (List.finRange size).map fun a => (mem a).map Fin.val

theorem heapOf_copied (mem : Fin size → ValueObj (Fin size)) :
    Copied (fun _ => True) Fin.val (fun a => some (mem a)) fun a => (heapOf mem)[a]? := by
  refine ⟨fun a _ => ⟨mem a, rfl, ?_, fun _ _ => trivial⟩, fun a b _ _ h => Fin.ext h⟩
  simp [heapOf]

theorem heapOf_singletons {mem : Fin size → ValueObj (Fin size)}
    (h : ∀ a b, (mem a).isSingleton = true → mem a = mem b → a = b) : Singletons (heapOf mem) := by
  have hget : ∀ i o, (heapOf mem)[i]? = some o → ∃ a : Fin size, a.val = i ∧
      (mem a).map Fin.val = o := by
    intro i o hi
    obtain ⟨hlt, rfl⟩ := List.getElem?_eq_some_iff.mp hi
    have hsize : i < size := by simpa [heapOf] using hlt
    exact ⟨⟨i, hsize⟩, rfl, by simp [heapOf]⟩
  intro i j o hi hj hsing
  obtain ⟨a, rfl, rfl⟩ := hget i o hi
  obtain ⟨b, rfl, hb⟩ := hget j _ hj
  rw [ValueObj.isSingleton_map] at hsing
  rw [h a b hsing (ValueObj.eq_of_singleton hsing hb.symm)]

/-- The symbol `a`, `#hashequal((a . ()))` and `#(a 3 #hashequal((a . ())))`. -/
def finiteMem : Fin 3 → ValueObj (Fin 3)
  | 0 => .sym true [97]
  | 1 => .hashTable .equal [(.ptr 0, .nil)]
  | 2 => .vec [.ptr 0, .fix 3, .ptr 1]

theorem finiteMem_serializable : Serializable finiteMem 1 where
  inRange := by intro a; fin_cases a <;> simp [finiteMem, ValueObj.InRange]
  singleton := by decide
  slot := by intro a s expand h; fin_cases a <;> simp [finiteMem] at h
  apart := by
    intro a eqType ht h
    fin_cases a <;> simp [finiteMem] at h
    obtain ⟨-, rfl⟩ := h
    simp
  keys := by
    intro a eqType ht h
    fin_cases a <;> simp [finiteMem] at h
    obtain ⟨-, rfl⟩ := h
    simp

/-- The ids are given out in this order. -/
def finiteTable : FklValueTable (ValueWord (Fin 3)) :=
  fklInitValueTable.addValues [.fix 3, .nil, .ptr 0, .ptr 1, .ptr 2]

theorem finiteMem_equalsCopy (h : SlotsRight finiteMem) : AllEqualCopy finiteMem h (.ptr 2) := by
  simp [allEqualCopy_ptr, finiteMem, ValueObj.equalsCopy, ValueObj.words, allEqualCopy_imm]

theorem finiteMem_loaded : ∃ bytes, fklWriteValueTable finiteTable finiteMem = some bytes ∧
    ∃ (φ : Fin 3 → Nat) (args : FklLoadValueArgs),
      Reads (loadValueTable (fun _ _ _ _ => 0) 1 (heapOf finiteMem)) bytes args ∧
      args.values[4]? = some (.ptr (φ 2)) ∧ ∃ n, ∀ rounds, n < rounds →
        fklVMvalueEqual (fun a => args.heap[a]?) rounds (.ptr 2) (.ptr (φ 2)) = some true := by
  have hnum : finiteTable.Numbered := numbered_init.addValues _
  have haccepted : (valueGraph finiteMem).fklIsSerializableToByteCodeFile 20 (.ptr 2) =
      some true := by decide +kernel
  obtain ⟨-, hloaded⟩ := fklWriteValueTable_loadValueTable_equal (fun _ _ _ _ => 0)
    (heapOf_singletons finiteMem_serializable.singleton) finiteMem_serializable
    (heapOf_copied finiteMem) hnum (by decide) (by decide +kernel) haccepted
  refine ⟨_, rfl, ?_⟩
  obtain ⟨φ, args, hreads, -, hvalues⟩ := hloaded _ rfl
  obtain ⟨i, hi, hvalue, -, r, hr, hruns⟩ := hvalues (.ptr 2) .refl
  obtain rfl : i = 5 := (Option.some.inj (show some 5 = some i from hi)).symm
  rw [hr.mpr (finiteMem_equalsCopy _)] at hruns
  exact ⟨φ, args, hreads, hvalue, hruns⟩

/-- The value is written in a table with these values, and compared with what is loaded for it. -/
def reloadedEqual (mem : Fin size → ValueObj (Fin size)) (l : List (ValueWord (Fin size)))
    (v : ValueWord (Fin size)) : Option Bool := do
  let vt := fklInitValueTable.addValues l
  let bytes ← fklWriteValueTable vt mem
  let (args, _) ← loadValueTable (fun _ _ _ _ => 0) 1 (heapOf mem) bytes
  let w ← args.values[fklValueTableGet vt v - 1]?
  fklVMvalueEqual (fun a => args.heap[a]?) 1 (v.map Fin.val) w

/-- A symbol that is not interned, a NaN, and the slot `?x`. -/
def loneSymbol : Fin 1 → ValueObj (Fin 1) := fun _ => .sym false [103]

def loneNaN : Fin 1 → ValueObj (Fin 1) := fun _ => .f64 0x7FF8000000000000

def loneSlot : Fin 2 → ValueObj (Fin 2)
  | 0 => .sym true [120]
  | 1 => .slot (.ptr 0) .none

theorem not_reloadedEqual :
    ((valueGraph loneSymbol).fklIsSerializableToByteCodeFile 1 (.ptr 0) = some true ∧
      reloadedEqual loneSymbol [.ptr 0] (.ptr 0) = some false) ∧
    ((valueGraph loneNaN).fklIsSerializableToByteCodeFile 1 (.ptr 0) = some true ∧
      reloadedEqual loneNaN [.ptr 0] (.ptr 0) = some false) ∧
    ((valueGraph loneSlot).fklIsSerializableToByteCodeFile 1 (.ptr 1) = some true ∧
      reloadedEqual loneSlot [.ptr 0, .ptr 1] (.ptr 1) = some false) := by
  decide +kernel

end ValueFile

end FakeLisp
