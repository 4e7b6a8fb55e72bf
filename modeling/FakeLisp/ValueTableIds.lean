import FakeLisp.ValueTable

/-!
When the ids of a traversed value follow its structure: the last place of a compound value in
the breadth-first listing decides its id.
-/

namespace FakeLisp

variable {V : Type}

/-! Places in a list. -/

/-- `x` occurs before any `y`. -/
def FirstBefore (l : List V) (x y : V) : Prop :=
  ∃ pre post, l = pre ++ x :: post ∧ x ∉ pre ∧ y ∉ pre ∧ y ∈ post

/-- The last `x` comes before the last `y`. -/
def LastBefore (l : List V) (x y : V) : Prop :=
  ∃ pre post, l = pre ++ x :: post ∧ x ∉ post ∧ y ∈ post

theorem lastBefore_or {l : List V} {x y : V} (hne : x ≠ y) (hx : x ∈ l) (hy : y ∈ l) :
    LastBefore l x y ∨ LastBefore l y x := by
  induction l with
  | nil => cases hx
  | cons a l ih =>
    by_cases hxl : x ∈ l
    · by_cases hyl : y ∈ l
      · rcases ih hxl hyl with ⟨pre, post, rfl, h⟩ | ⟨pre, post, rfl, h⟩
        · exact Or.inl ⟨a :: pre, post, rfl, h⟩
        · exact Or.inr ⟨a :: pre, post, rfl, h⟩
      · obtain rfl := (List.mem_cons.mp hy).resolve_right hyl
        exact Or.inr ⟨[], l, rfl, hyl, hxl⟩
    · obtain rfl := (List.mem_cons.mp hx).resolve_right hxl
      exact Or.inl ⟨[], l, rfl, hxl, (List.mem_cons.mp hy).resolve_left hne.symm⟩

theorem LastBefore.filter {l : List V} {x y : V} (h : LastBefore l x y) {p : V → Bool}
    (hx : p x = true) (hy : p y = true) : LastBefore (l.filter p) x y := by
  obtain ⟨pre, post, rfl, hnot, hmem⟩ := h
  exact ⟨pre.filter p, post.filter p, by simp [hx], fun h => hnot (List.mem_of_mem_filter h),
    List.mem_filter.mpr ⟨hmem, hy⟩⟩

theorem exists_first {l : List V} {x : V} (hx : x ∈ l) :
    ∃ pre post, l = pre ++ x :: post ∧ x ∉ pre := by
  induction l with
  | nil => cases hx
  | cons a l ih =>
    by_cases ha : x = a
    · exact ⟨[], l, by rw [ha]; rfl, List.not_mem_nil⟩
    · obtain ⟨pre, post, rfl, hpre⟩ := ih ((List.mem_cons.mp hx).resolve_left ha)
      exact ⟨a :: pre, post, rfl, by simp [ha, hpre]⟩

theorem LastBefore.reverse {l : List V} {x y : V} (h : LastBefore l x y) :
    FirstBefore l.reverse y x := by
  obtain ⟨pre, post, rfl, hnot, hmem⟩ := h
  obtain ⟨a, b, hab, ha⟩ := exists_first (List.mem_reverse.mpr hmem)
  refine ⟨a, b ++ x :: pre.reverse, by simp [hab], ha, fun hx => hnot ?_, by simp⟩
  rw [← List.mem_reverse, hab]
  simp [hx]

theorem FirstBefore.append_left {l l' : List V} {x y : V} (h : FirstBefore l x y)
    (hx : x ∉ l') (hy : y ∉ l') : FirstBefore (l' ++ l) x y := by
  obtain ⟨pre, post, rfl, hxpre, hypre, hmem⟩ := h
  exact ⟨l' ++ pre, post, by simp, by simp [hx, hxpre], by simp [hy, hypre], hmem⟩

theorem FirstBefore.append_right {l l' : List V} {x y : V} (h : FirstBefore l x y) :
    FirstBefore (l ++ l') x y := by
  obtain ⟨pre, post, rfl, hxpre, hypre, hmem⟩ := h
  exact ⟨pre, post ++ l', by simp, hxpre, hypre, by simp [hmem]⟩

theorem firstBefore_append {l l' : List V} {x y : V} (hx : x ∈ l) (hy : y ∉ l) (hy' : y ∈ l') :
    FirstBefore (l ++ l') x y := by
  obtain ⟨pre, post, rfl, hpre⟩ := exists_first hx
  exact ⟨pre, post ++ l', by simp, hpre, fun h => hy (by simp [h]), by simp [hy']⟩

/-! Sub-values and the order of the additions. -/

namespace SerialMem

open BreadthFirst

variable {mem : SerialMem V} {v : V}

theorem pushed_of_leaf (h : mem.isSerializableLeafNode v = true) : mem.pushed v = [] := by
  unfold isSerializableLeafNode at h
  unfold pushed
  split at h <;> simp_all

/-- `c` is a component of `p`, at some depth. -/
def SubValue (mem : SerialMem V) : V → V → Prop :=
  Relation.ReflTransGen fun p c => c ∈ mem.components p

/-- Acyclic. -/
def Acyclic (mem : SerialMem V) (v : V) : Prop := Acc (Child mem.components) v

theorem pushed_subset_components {x c : V} (h : c ∈ mem.pushed x) : c ∈ mem.components x := by
  unfold components
  split
  · next s hs => simp [pushed, hs] at h
  · exact h

theorem Acyclic.pushed (h : Acyclic mem v) : Acc (Child mem.pushed) v :=
  Subrelation.accessible (fun hc => pushed_subset_components hc) h

theorem components_cases {x c : V} (h : c ∈ mem.components x) :
    (mem.data x = .slot c ∧ mem.isSerializableLeafNode x = true) ∨
      (c ∈ mem.pushed x ∧ mem.isSerializableLeafNode x = false) := by
  cases hx : mem.data x <;> simp_all [components, SerialMem.pushed, isSerializableLeafNode]

theorem subValue_of_below {n : Nat} {x : V} (h : Below mem.pushed n v x) : SubValue mem v x := by
  induction h with
  | refl => exact .refl
  | tail _ hz ih => exact .tail ih (pushed_subset_components hz)

/-- What `addLeaf` adds. -/
def leafValues (mem : SerialMem V) (v : V) : List V :=
  match mem.data v with
  | .slot s => [s, v]
  | _ => [v]

/-- The additions of a traversal that lists `visited`. -/
def additions (mem : SerialMem V) (visited : List V) : List V :=
  (visited.filter mem.isSerializableLeafNode).flatMap mem.leafValues ++
    (visited.filter fun v => !mem.isSerializableLeafNode v).reverse

theorem mem_additions {l : List V} {x : V} : x ∈ mem.additions l ↔
    x ∈ l ∨ ∃ p ∈ l, mem.data p = .slot x := by
  unfold additions
  simp only [List.mem_append, List.mem_flatMap, List.mem_filter, List.mem_reverse]
  constructor
  · rintro (⟨p, ⟨hp, hleaf⟩, hx⟩ | ⟨hx, -⟩)
    · cases hdata : mem.data p <;> simp_all [leafValues]
      rcases hx with rfl | rfl
      · exact Or.inr ⟨p, hp, hdata⟩
      · exact Or.inl hp
    · exact Or.inl hx
  · rintro (hx | ⟨p, hp, hslot⟩)
    · by_cases hleaf : mem.isSerializableLeafNode x = true
      · refine Or.inl ⟨x, ⟨hx, hleaf⟩, ?_⟩
        cases hdata : mem.data x <;> simp [leafValues, hdata]
      · exact Or.inr ⟨hx, by simpa using hleaf⟩
    · exact Or.inl ⟨p, ⟨hp, by simp [isSerializableLeafNode, hslot]⟩, by simp [leafValues, hslot]⟩

section

variable {l : List V} {x c s : V}

theorem mem_leafValues {p : V} (h : x ∈ mem.leafValues p) : x = p ∨ mem.data p = .slot x := by
  cases hdata : mem.data p with
  | slot s =>
    simp only [leafValues, hdata, List.mem_cons, List.not_mem_nil, or_false] at h
    exact h.symm.imp id fun hs => by rw [hs]
  | _ => simp_all [leafValues]

theorem isLeaf_of_mem_flatMap (h : x ∈ (l.filter mem.isSerializableLeafNode).flatMap mem.leafValues) :
    mem.isSerializableLeafNode x = true := by
  obtain ⟨p, hp, hx⟩ := List.mem_flatMap.mp h
  rcases mem_leafValues hx with rfl | hslot
  · exact (List.mem_filter.mp hp).2
  · simp [isSerializableLeafNode, mem.slot_leaf _ _ hslot]

theorem firstBefore_symbol (hx : x ∈ l) (hslot : mem.data x = .slot s) :
    FirstBefore (l.flatMap mem.leafValues) s x := by
  have hsleaf := mem.slot_leaf _ _ hslot
  induction l with
  | nil => cases hx
  | cons a l ih =>
    rw [List.flatMap_cons]
    by_cases ha : a = x
    · subst ha
      have hvalues : mem.leafValues a = [s, a] := by simp [leafValues, hslot]
      exact ⟨[], a :: l.flatMap mem.leafValues, by simp [hvalues], by simp, by simp, by simp⟩
    · have hxl : x ∈ l := (List.mem_cons.mp hx).resolve_left fun h => ha h.symm
      have hxa : x ∉ mem.leafValues a := by
        intro h
        rcases mem_leafValues h with h | h
        · exact ha h.symm
        · have hleaf := mem.slot_leaf _ _ h
          rw [hslot] at hleaf
          cases hleaf
      by_cases hsa : s ∈ mem.leafValues a
      · refine firstBefore_append hsa hxa (List.mem_flatMap.mpr ⟨x, hxl, ?_⟩)
        simp [leafValues, hslot]
      · exact (ih hxl).append_left hsa hxa

theorem firstBefore_additions_symbol (hx : x ∈ l) (hslot : mem.data x = .slot s) :
    FirstBefore (mem.additions l) s x := by
  refine (firstBefore_symbol (List.mem_filter.mpr ⟨hx, ?_⟩) hslot).append_right
  simp [isSerializableLeafNode, hslot]

theorem firstBefore_additions_leaf (hx : x ∈ l) (hxleaf : mem.isSerializableLeafNode x = false)
    (hc : c ∈ l) (hcleaf : mem.isSerializableLeafNode c = true) :
    FirstBefore (mem.additions l) c x := by
  refine firstBefore_append (List.mem_flatMap.mpr ⟨c, List.mem_filter.mpr ⟨hc, hcleaf⟩, ?_⟩)
    (fun h => ?_) (List.mem_reverse.mpr (List.mem_filter.mpr ⟨hx, by simpa using hxleaf⟩))
  · cases hdata : mem.data c <;> simp [leafValues, hdata]
  · rw [isLeaf_of_mem_flatMap h] at hxleaf
    cases hxleaf

theorem firstBefore_additions_compound (h : LastBefore l x c)
    (hx : mem.isSerializableLeafNode x = false) (hc : mem.isSerializableLeafNode c = false) :
    FirstBefore (mem.additions l) c x := by
  refine ((h.filter (p := fun v => !mem.isSerializableLeafNode v) (by simpa using hx)
    (by simpa using hc)).reverse).append_left (fun hmem => ?_) fun hmem => ?_
  · rw [isLeaf_of_mem_flatMap hmem] at hc
    cases hc
  · rw [isLeaf_of_mem_flatMap hmem] at hx
    cases hx

end

end SerialMem

variable [DecidableEq V]

namespace SerialMem

open BreadthFirst

variable {mem : SerialMem V} {v : V}

/-! The traversal is the breadth-first listing. -/

theorem bfsRound_cons (set queue visited : List V) (x : V) :
    mem.bfsRound ⟨set, x :: queue, visited⟩ =
      if mem.isSerializableLeafNode x = true ∨ x ∈ set then ⟨set, queue, visited ++ [x]⟩
      else ⟨x :: set, queue ++ mem.pushed x, visited ++ [x]⟩ := by
  unfold bfsRound isSerializableLeafNode pushed
  cases hdata : mem.data x <;> by_cases hx : x ∈ set <;> simp [hdata, hx]

/-- The set holds the compound values met so far. -/
def SetRight (mem : SerialMem V) (s : BfsState V) : Prop :=
  ∀ x, x ∈ s.valueSet ↔ x ∈ s.visited ∧ mem.isSerializableLeafNode x = false

theorem bfsRound_spec {s : BfsState V} (h : SetRight mem s) :
    SetRight mem (mem.bfsRound s) ∧ ((mem.bfsRound s).visited, (mem.bfsRound s).queue) =
      BreadthFirst.round mem.pushed (s.visited, s.queue) := by
  obtain ⟨set, queue, visited⟩ := s
  cases queue with
  | nil => exact ⟨h, rfl⟩
  | cons x queue =>
    simp only [SetRight] at h
    rw [bfsRound_cons]
    simp only [BreadthFirst.round]
    by_cases hleaf : mem.isSerializableLeafNode x = true
    · refine ⟨fun y => ?_, ?_⟩
      · simp only [hleaf, true_or, if_true, h, List.mem_append, List.mem_singleton]
        grind
      · simp [hleaf, pushed_of_leaf hleaf]
    · have hset : x ∈ set ↔ x ∈ visited := by simp [h, hleaf]
      by_cases hx : x ∈ visited
      · refine ⟨fun y => ?_, ?_⟩
        · simp only [hset, hx, or_true, if_true, h, List.mem_append, List.mem_singleton]
          grind
        · simp [hset, hx]
      · refine ⟨fun y => ?_, ?_⟩
        · simp only [hleaf, hset, hx, or_self, if_false, List.mem_cons, h, List.mem_append,
            Bool.false_eq_true]
          grind
        · simp [hleaf, hset, hx]

theorem bfsRound_iterate (n : Nat) {s : BfsState V} (h : SetRight mem s) :
    ((mem.bfsRound^[n] s).visited, (mem.bfsRound^[n] s).queue) =
      (BreadthFirst.round mem.pushed)^[n] (s.visited, s.queue) := by
  induction n generalizing s with
  | zero => rfl
  | succ n ih =>
    obtain ⟨hright, hround⟩ := bfsRound_spec h
    rw [Function.iterate_succ_apply, Function.iterate_succ_apply, ih hright, hround]

theorem traverseValueBfs_eq {n : Nat} (hn : (levels mem.pushed v n).2 = []) {fuel : Nat}
    (hfuel : (levels mem.pushed v n).1.length < fuel) :
    mem.traverseValueBfs fuel v = some (levels mem.pushed v n).1 := by
  let s : BfsState V := ⟨[], [v], []⟩
  have hstart : SetRight mem s := fun x => by simp [s]
  have hrun := bfsRound_iterate (levels mem.pushed v n).1.length hstart
  rw [show (s.visited, s.queue) = ([], [v]) from rfl, round_levels] at hrun
  have hvisited := congrArg Prod.fst hrun
  have hqueue := (congrArg Prod.snd hrun).trans hn
  dsimp only at hvisited hqueue
  have hloop : LoopsTo (fun s : BfsState V => !s.queue.isEmpty) (fun s => some (mem.bfsRound s))
      (levels mem.pushed v n).1.length s (mem.bfsRound^[(levels mem.pushed v n).1.length] s) := by
    refine LoopsTo.iterate (fun _ => rfl) (fun s hs => ?_) (by simp [hqueue])
    obtain ⟨set, queue, visited⟩ := s
    cases queue with
    | nil => rfl
    | cons x queue => simp at hs
  rw [traverseValueBfs, hloop fuel hfuel, Option.map_some, hvisited]

end SerialMem

/-! Adding values in turn. -/

namespace FklValueTable

variable {t : FklValueTable V} {l : List V} {x y : V}

def addValues (t : FklValueTable V) (l : List V) : FklValueTable V :=
  l.foldl (fun t v => (fklValueTableAdd t v).2) t

@[simp] theorem addValues_cons : t.addValues (x :: l) = (fklValueTableAdd t x).2.addValues l := rfl

theorem addValues_append (l' : List V) :
    t.addValues (l ++ l') = (t.addValues l).addValues l' := List.foldl_append

theorem get_add (x y : V) : (fklValueTableAdd t x).2.ht.get y =
    if y = x then (t.ht.get x).or (some t.nextId) else t.ht.get y := by
  cases h : t.ht.get x with
  | some i => by_cases hy : y = x <;> simp_all [fklValueTableAdd]
  | none =>
    simp only [fklValueTableAdd, h, InsertionMap.get_add, decide_eq_true_eq]
    by_cases hy : y = x <;> simp_all

theorem nextId_add_le (x : V) : t.nextId ≤ (fklValueTableAdd t x).2.nextId := by
  cases h : t.ht.get x <;> simp [fklValueTableAdd, h]

/-- Ids are given out from one on. -/
def Sound (t : FklValueTable V) : Prop := ∀ x i, t.ht.get x = some i → 0 < i ∧ i < t.nextId

theorem Sound.add (h : t.Sound) (hpos : 0 < t.nextId) (x : V) : (fklValueTableAdd t x).2.Sound := by
  intro y i hy
  cases hx : t.ht.get x with
  | some j =>
    have hsame : (fklValueTableAdd t x).2 = t := by simp [fklValueTableAdd, hx]
    rw [hsame] at hy ⊢
    exact h y i hy
  | none =>
    have hnext : (fklValueTableAdd t x).2.nextId = t.nextId + 1 := by simp [fklValueTableAdd, hx]
    rw [get_add] at hy
    rw [hnext]
    by_cases hyx : y = x
    · rw [if_pos hyx, hx, Option.none_or, Option.some.injEq] at hy
      omega
    · rw [if_neg hyx] at hy
      have := h y i hy
      omega

theorem nextId_le_addValues (t : FklValueTable V) (l : List V) :
    t.nextId ≤ (t.addValues l).nextId := by
  induction l generalizing t with
  | nil => exact le_refl _
  | cons x l ih => exact (nextId_add_le x).trans (ih _)

theorem Sound.addValues (h : t.Sound) (hpos : 0 < t.nextId) (l : List V) :
    (t.addValues l).Sound := by
  induction l generalizing t with
  | nil => exact h
  | cons x l ih => exact ih (h.add hpos x) (hpos.trans_le (nextId_add_le x))

theorem get_addValues_of_some {i : Nat} (h : t.ht.get x = some i) (l : List V) :
    (t.addValues l).ht.get x = some i := by
  induction l generalizing t with
  | nil => exact h
  | cons y l ih =>
    refine ih ?_
    rw [get_add]
    split
    · next hxy => rw [← hxy, h, Option.some_or]
    · exact h

theorem get_addValues_of_not_mem (hx : x ∉ l) : (t.addValues l).ht.get x = t.ht.get x := by
  induction l generalizing t with
  | nil => rfl
  | cons y l ih =>
    obtain ⟨hxy, hl⟩ := not_or.mp (List.mem_cons.not.mp hx)
    rw [addValues_cons, ih hl, get_add, if_neg hxy]

/-- A new value gets a new id. -/
theorem get_addValues_of_mem (hx : x ∈ l) (hnone : t.ht.get x = none) :
    ∃ i, (t.addValues l).ht.get x = some i ∧ t.nextId ≤ i := by
  induction l generalizing t with
  | nil => simp at hx
  | cons y l ih =>
    by_cases hxy : x = y
    · refine ⟨t.nextId, get_addValues_of_some ?_ l, le_refl _⟩
      rw [get_add, if_pos hxy, ← hxy, hnone, Option.none_or]
    · have hnone' : (fklValueTableAdd t y).2.ht.get x = none := by rw [get_add, if_neg hxy, hnone]
      obtain ⟨i, hi, hle⟩ := ih ((List.mem_cons.mp hx).resolve_left hxy) hnone'
      exact ⟨i, hi, (nextId_add_le y).trans hle⟩

theorem get_lt_of_firstBefore (h : FirstBefore l x y) (hne : y ≠ x) (hx : t.ht.get x = none)
    (hy : t.ht.get y = none) :
    ∃ i j, (t.addValues l).ht.get x = some i ∧ (t.addValues l).ht.get y = some j ∧ i < j := by
  obtain ⟨pre, post, rfl, hxpre, hypre, hypost⟩ := h
  have hx' : (t.addValues pre).ht.get x = none := by rw [get_addValues_of_not_mem hxpre, hx]
  have hy' : (t.addValues pre).ht.get y = none := by rw [get_addValues_of_not_mem hypre, hy]
  rw [addValues_append, addValues_cons]
  obtain ⟨j, hj, hle⟩ := get_addValues_of_mem hypost (t := (fklValueTableAdd (t.addValues pre) x).2)
    (by rw [get_add, if_neg hne, hy'])
  refine ⟨(t.addValues pre).nextId, j, get_addValues_of_some ?_ post, hj, ?_⟩
  · rw [get_add, if_pos rfl, hx', Option.none_or]
  · have hnext : (fklValueTableAdd (t.addValues pre) x).2.nextId = (t.addValues pre).nextId + 1 := by
      simp [fklValueTableAdd, hx']
    omega

end FklValueTable

open FklValueTable

namespace SerialMem

variable {mem : SerialMem V} {t : FklValueTable V} {v : V}

theorem addLeaf_eq (t : FklValueTable V) (v : V) :
    mem.addLeaf t v = t.addValues (mem.leafValues v) := by
  cases h : mem.data v <;> simp only [addLeaf, leafValues, h] <;> rfl

theorem foldl_addLeaf (t : FklValueTable V) (l : List V) :
    l.foldl mem.addLeaf t = t.addValues (l.flatMap mem.leafValues) := by
  induction l generalizing t with
  | nil => rfl
  | cons v l ih => rw [List.foldl_cons, ih, addLeaf_eq, List.flatMap_cons, addValues_append]

open BreadthFirst

theorem fklTraverseSerializableValue_eq {n : Nat} (hn : (levels mem.pushed v n).2 = [])
    {fuel : Nat} (hfuel : (levels mem.pushed v n).1.length < fuel) (t : FklValueTable V) :
    mem.fklTraverseSerializableValue fuel t v =
      some (t.addValues (mem.additions (levels mem.pushed v n).1)) := by
  unfold fklTraverseSerializableValue
  split
  · next hleaf =>
    have hlist : (levels mem.pushed v n).1 = [v] := by
      have hone : (levels mem.pushed v 1).2 = [] := by
        simp [levels, nextLevel, news, pushed_of_leaf hleaf]
      rw [listing_unique hn hone]
      simp [levels, nextLevel]
    simp [hlist, additions, hleaf, addLeaf_eq]
  · rw [traverseValueBfs_eq hn hfuel, Option.map_some, additions, addValues_append, ← foldl_addLeaf]
    rfl

/-- The sub-values are those listed and the symbols of the slots among them. -/
theorem subValue_listed {n : Nat} (hn : (levels mem.pushed v n).2 = []) {x : V}
    (h : SubValue mem v x) : x ∈ (levels mem.pushed v n).1 ∨
      mem.data x = .leaf ∧ ∃ p ∈ (levels mem.pushed v n).1, mem.data p = .slot x := by
  induction h with
  | refl => exact Or.inl (mem_listing hn (.refl v))
  | tail _ hc ih =>
    rcases ih with hp | ⟨hleaf, -⟩
    · rcases components_cases hc with ⟨hslot, -⟩ | ⟨hpush, -⟩
      · exact Or.inr ⟨mem.slot_leaf _ _ hslot, _, hp, hslot⟩
      · have hlisted := levels_closed hp hpush
        rw [hn] at hlisted
        exact Or.inl (hlisted.resolve_right List.not_mem_nil)
    · simp [components, SerialMem.pushed, hleaf] at hc

/-! The theorem. -/

/-- The ids are given out from one on, and the components of a value of the table are in it. -/
structure TableClosed (mem : SerialMem V) (t : FklValueTable V) : Prop where
  pos : 0 < t.nextId
  sound : t.Sound
  closed : ∀ x i, t.ht.get x = some i → ∀ c ∈ mem.components x, ∃ j, t.ht.get c = some j

/-- Every value of the table comes after its components. -/
structure TableOrdered (mem : SerialMem V) (t : FklValueTable V) : Prop
    extends TableClosed mem t where
  before : ∀ x i, t.ht.get x = some i → ∀ c ∈ mem.components x, ∀ j, t.ht.get c = some j → j < i

/-- Every sub-value has an id, greater than those of its components. -/
def IdsRight (mem : SerialMem V) (t : FklValueTable V) (v : V) : Prop :=
  ∀ x, SubValue mem v x → fklValueTableGet t x ≠ 0 ∧
    ∀ c ∈ mem.components x, fklValueTableGet t c < fklValueTableGet t x

/-- In the listing of `v`, level by level, the last place of a new compound value comes before
the last place of each new compound component. -/
def PlacesInOrder (mem : SerialMem V) (t : FklValueTable V) (v : V) : Prop :=
  ∀ n, (levels mem.pushed v n).2 = [] → ∀ u c, u ∈ (levels mem.pushed v n).1 →
    mem.isSerializableLeafNode u = false → c ∈ mem.pushed u →
    mem.isSerializableLeafNode c = false → t.ht.get u = none → t.ht.get c = none →
    LastBefore (levels mem.pushed v n).1 u c

/-- The sub-values of `v` that the table has already come after their components in it. -/
def OldInOrder (mem : SerialMem V) (t : FklValueTable V) (v : V) : Prop :=
  ∀ x i, SubValue mem v x → t.ht.get x = some i →
    ∀ c ∈ mem.components x, ∀ j, t.ht.get c = some j → j < i

theorem TableOrdered.oldInOrder (ht : TableOrdered mem t) (v : V) : OldInOrder mem t v :=
  fun x i _ => ht.before x i

section

variable {n : Nat}

theorem mem_listing_of_not_leaf (hn : (levels mem.pushed v n).2 = []) {x : V}
    (hx : SubValue mem v x) (hleaf : mem.data x ≠ .leaf) : x ∈ (levels mem.pushed v n).1 :=
  (subValue_listed hn hx).resolve_right fun h => hleaf h.1

/-- A component that is added first has the smaller id. -/
theorem get_lt_of_additions {x c : V} {l : List V} (h : FirstBefore (mem.additions l) c x)
    (hne : x ≠ c) (hx : t.ht.get x = none) (hc : t.ht.get c = none) :
    fklValueTableGet (t.addValues (mem.additions l)) c <
      fklValueTableGet (t.addValues (mem.additions l)) x := by
  obtain ⟨i, j, hi, hj, hlt⟩ := get_lt_of_firstBefore h hne hc hx
  simpa [fklValueTableGet, hi, hj] using hlt

theorem component_firstBefore (hn : (levels mem.pushed v n).2 = []) (h : PlacesInOrder mem t v)
    {x c : V} (hx : SubValue mem v x) (hc : c ∈ mem.components x) (hgx : t.ht.get x = none)
    (hgc : t.ht.get c = none) :
    FirstBefore (mem.additions (levels mem.pushed v n).1) c x ∧ x ≠ c := by
  rcases components_cases hc with ⟨hslot, -⟩ | ⟨hpush, hxleaf⟩
  · have hxl := mem_listing_of_not_leaf hn hx (by simp [hslot])
    refine ⟨firstBefore_additions_symbol hxl hslot, fun he => ?_⟩
    have hleaf := mem.slot_leaf _ _ hslot
    rw [← he, hslot] at hleaf
    cases hleaf
  · have hxl := mem_listing_of_not_leaf hn hx fun he => by simp [isSerializableLeafNode, he] at hxleaf
    have hcl := levels_closed hxl hpush
    rw [hn] at hcl
    have hcl := hcl.resolve_right List.not_mem_nil
    by_cases hcleaf : mem.isSerializableLeafNode c = true
    · refine ⟨firstBefore_additions_leaf hxl hxleaf hcl hcleaf, fun he => ?_⟩
      rw [he, hcleaf] at hxleaf
      cases hxleaf
    · rw [Bool.not_eq_true] at hcleaf
      have hlast := h n hn x c hxl hxleaf hpush hcleaf hgx hgc
      refine ⟨firstBefore_additions_compound hlast hxleaf hcleaf, ?_⟩
      rintro rfl
      obtain ⟨pre, post, -, hnot, hmem⟩ := hlast
      exact hnot hmem

theorem idsRight_of_placesInOrder (hn : (levels mem.pushed v n).2 = [])
    (ht : TableClosed mem t) (hold : OldInOrder mem t v) (h : PlacesInOrder mem t v) :
    IdsRight mem (t.addValues (mem.additions (levels mem.pushed v n).1)) v := by
  intro x hx
  have hmem : x ∈ mem.additions (levels mem.pushed v n).1 := by
    rw [mem_additions]
    exact (subValue_listed hn hx).imp id And.right
  cases hgx : t.ht.get x with
  | some i =>
    have hget := get_addValues_of_some hgx (mem.additions (levels mem.pushed v n).1)
    refine ⟨?_, fun c hc => ?_⟩
    · have hpos := (ht.sound x i hgx).1
      simp only [fklValueTableGet, hget, Option.getD_some]
      omega
    · obtain ⟨j, hj⟩ := ht.closed x i hgx c hc
      have hlt := hold x i hx hgx c hc j hj
      simpa [fklValueTableGet, hget, get_addValues_of_some hj] using hlt
  | none =>
    obtain ⟨i, hi, hle⟩ := get_addValues_of_mem hmem hgx
    refine ⟨?_, fun c hc => ?_⟩
    · have hpos := ht.pos
      simp only [fklValueTableGet, hi, Option.getD_some]
      omega
    · cases hgc : t.ht.get c with
      | some j =>
        have hlt := (ht.sound c j hgc).2
        simp only [fklValueTableGet, hi, get_addValues_of_some hgc, Option.getD_some]
        omega
      | none =>
        obtain ⟨hfirst, hne⟩ := component_firstBefore hn h hx hc hgx hgc
        exact get_lt_of_additions hfirst hne hgx hgc

theorem placesInOrder_of_idsRight (hn : (levels mem.pushed v n).2 = [])
    (h : IdsRight mem (t.addValues (mem.additions (levels mem.pushed v n).1)) v) :
    PlacesInOrder mem t v := by
  intro m hm u c hu huleaf hc hcleaf hgu hgc
  rw [listing_unique hm hn] at hu ⊢
  obtain ⟨k, hbelow⟩ := levels_below (Or.inl hu)
  have hcl := levels_closed hu hc
  rw [hn] at hcl
  have hlt := (h u (subValue_of_below hbelow)).2 c (pushed_subset_components hc)
  have hne : u ≠ c := by
    rintro rfl
    exact lt_irrefl _ hlt
  refine (lastBefore_or hne hu (hcl.resolve_right List.not_mem_nil)).resolve_right fun hlast => ?_
  have hgt := get_lt_of_additions (firstBefore_additions_compound hlast hcleaf huleaf) hne.symm
    hgc hgu
  exact lt_asymm hlt hgt

theorem oldInOrder_of_idsRight {l : List V} (h : IdsRight mem (t.addValues l) v) :
    OldInOrder mem t v := by
  intro x i hx hgx c hc j hgc
  have hlt := (h x hx).2 c hc
  simpa [fklValueTableGet, get_addValues_of_some hgx, get_addValues_of_some hgc] using hlt

end

/-- The ids follow the structure of the value exactly where the table has the old sub-values in
order already and, in the listing by levels, no new compound value has its last place after the
last place of a new compound component. -/
theorem fklTraverseSerializableValue_idsRight_iff (mem : SerialMem V) (t : FklValueTable V) (v : V)
    (hv : Acyclic mem v) (ht : TableClosed mem t) :
    ∃ steps, ∀ fuel, steps < fuel → ∃ t', mem.fklTraverseSerializableValue fuel t v = some t' ∧
      (IdsRight mem t' v ↔ OldInOrder mem t v ∧ PlacesInOrder mem t v) := by
  obtain ⟨n, hn⟩ := exists_level_nil hv.pushed
  refine ⟨(levels mem.pushed v n).1.length, fun fuel hfuel => ?_⟩
  refine ⟨_, fklTraverseSerializableValue_eq hn hfuel t, fun h => ?_, fun ⟨hold, hplaces⟩ => ?_⟩
  · exact ⟨oldInOrder_of_idsRight h, placesInOrder_of_idsRight hn h⟩
  · exact idsRight_of_placesInOrder hn ht hold hplaces

/-- `(s . (a . (b . s)))` with `s` the pair `((a . b) . a)`. -/
def deepShare : SerialMem Nat where
  data
    | 0 => .pair 3 1
    | 1 => .pair 10 2
    | 2 => .pair 11 3
    | 3 => .pair 4 10
    | 4 => .pair 10 11
    | _ => .leaf
  slot_leaf v s h := by
    split at h <;> cases h

theorem deepShare_acyclic (v : Nat) : Acyclic deepShare v := by
  refine Subrelation.accessible (r := fun c p => 20 - c < 20 - p) (fun {c p} h => ?_)
    ((measure fun n : Nat => 20 - n).wf.apply v)
  match p with
  | 0 | 1 | 2 | 3 | 4 => simp_all [Child, components, SerialMem.pushed, deepShare]; omega
  | p + 5 => simp [Child, components, SerialMem.pushed, deepShare] at h

theorem init_tableOrdered (mem : SerialMem V) :
    TableOrdered mem (fklInitValueTable : FklValueTable V) where
  pos := Nat.one_pos
  sound x i h := by simp [fklInitValueTable] at h
  closed x i h := by simp [fklInitValueTable] at h
  before x i h := by simp [fklInitValueTable] at h

theorem deepShare_idsRight_iff :
    ∃ steps, ∀ fuel, steps < fuel → ∃ t',
      deepShare.fklTraverseSerializableValue fuel fklInitValueTable 2 = some t' ∧
        (IdsRight deepShare t' 2 ↔
          OldInOrder deepShare fklInitValueTable 2 ∧ PlacesInOrder deepShare fklInitValueTable 2) :=
  fklTraverseSerializableValue_idsRight_iff deepShare fklInitValueTable 2 (deepShare_acyclic 2)
    (init_tableOrdered deepShare).toTableClosed

/-- `s` is listed again after its component `(a . b)`. -/
theorem deepShare_not_idsRight :
    Acyclic deepShare 0 ∧ TableClosed deepShare fklInitValueTable ∧
      ∃ t', deepShare.fklTraverseSerializableValue 20 fklInitValueTable 0 = some t' ∧
        ¬IdsRight deepShare t' 0 := by
  refine ⟨deepShare_acyclic 0, (init_tableOrdered deepShare).toTableClosed, _, rfl, fun h => ?_⟩
  have hlt := (h 3 (.single (by decide))).2 4 (by decide)
  revert hlt
  decide

end SerialMem

end FakeLisp
