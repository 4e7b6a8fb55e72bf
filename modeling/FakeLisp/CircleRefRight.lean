import FakeLisp.CircleRef
import FakeLisp.FollowChain

/-! Taking away values without references leaves what a circle leads to: nothing if and only if
there is none. -/

namespace FakeLisp.ValueGraph

variable {V : Type} [DecidableEq V] {g : ValueGraph V} {root v : V} {t : DegreeTable V}
  {s : Finset V}

/-- The table has the values of `s` with the number of references from `s` to each. -/
def Degrees (g : ValueGraph V) (s : Finset V) (t : DegreeTable V) : Prop :=
  ∀ x, t.get x = if x ∈ s then some (g.indegree s x) else none

theorem get_decAll (cs : List V) (t : DegreeTable V) (x : V) :
    (cs.foldl DegreeTable.decValueDegree t).get x = (t.get x).map (· - cs.count x) := by
  induction cs generalizing t with
  | nil => simp
  | cons c cs ih =>
    rw [List.foldl_cons, ih, DegreeTable.get_decValueDegree, Option.map_map]
    congr 1
    funext n
    by_cases hx : x = c
    · subst hx
      rw [Function.comp, List.count_cons_self, if_pos rfl]
      omega
    · rw [Function.comp, List.count_cons_of_ne (Ne.symm hx), if_neg hx]

theorem indegree_erase (hv : v ∈ s) (x : V) :
    g.indegree (s.erase v) x = g.indegree s x - (g.children v).count x := by
  have hsum := Finset.add_sum_erase s (fun y => (g.children y).count x) hv
  unfold indegree
  omega

theorem Degrees.removeValue (h : Degrees g s t) (hv : v ∈ s) :
    Degrees g (s.erase v) (g.removeValue t v) := by
  intro x
  rw [ValueGraph.removeValue, get_decAll, DegreeTable.get_erase_eq]
  by_cases hx : x = v
  · simp [hx]
  · rw [if_neg hx, h x]
    by_cases hxs : x ∈ s
    · rw [if_pos hxs, if_pos (Finset.mem_erase.mpr ⟨hx, hxs⟩), indegree_erase hv]
      rfl
    · rw [if_neg hxs, if_neg fun hmem => hxs (Finset.mem_of_mem_erase hmem)]
      rfl

theorem Degrees.removeValues (h : Degrees g s t) {vs : List V} (hvs : ∀ x ∈ vs, x ∈ s)
    (hnodup : vs.Nodup) : Degrees g (s \ vs.toFinset) (vs.foldl g.removeValue t) := by
  induction vs generalizing s t with
  | nil => simpa using h
  | cons v vs ih =>
    obtain ⟨hv, hnodup⟩ := List.nodup_cons.mp hnodup
    have hvs' : ∀ x ∈ vs, x ∈ s.erase v := by
      intro x hx
      refine Finset.mem_erase.mpr ⟨?_, hvs x (List.mem_cons_of_mem v hx)⟩
      rintro rfl
      exact hv hx
    rw [List.foldl_cons, List.toFinset_cons, Finset.sdiff_insert, ← Finset.erase_sdiff_comm]
    exact ih (h.removeValue (hvs v List.mem_cons_self)) hvs' hnodup

/-- The values that are taken away in a round. -/
theorem Degrees.mem_zeroDegrees (h : Degrees g s t) (x : V) :
    x ∈ zeroDegrees t ↔ x ∈ s ∧ g.indegree s x = 0 := by
  have hget : x ∈ zeroDegrees t ↔ t.get x = some 0 := by
    constructor
    · intro hx
      obtain ⟨⟨k, n⟩, he, rfl⟩ := List.mem_map.mp hx
      obtain ⟨hmem, hzero⟩ := List.mem_filter.mp he
      obtain rfl : n = 0 := of_decide_eq_true hzero
      exact InsertionMap.get_of_mem keyEquiv_eq hmem
    · intro hx
      obtain ⟨⟨k, n⟩, hmem, hk, hn⟩ := InsertionMap.mem_of_get hx
      obtain rfl : x = k := of_decide_eq_true hk
      exact List.mem_map.mpr ⟨(x, n), List.mem_filter.mpr ⟨hmem, decide_eq_true hn⟩, rfl⟩
  rw [hget, h x]
  by_cases hx : x ∈ s <;> simp [hx]

theorem zeroDegrees_nodup (t : DegreeTable V) : (zeroDegrees t).Nodup := by
  rw [zeroDegrees, List.Nodup, List.pairwise_map]
  apply (t.unequal.filter _).imp
  intro e e' hne
  exact of_decide_eq_false hne

/-- A set in which every value is referred to from inside of it. -/
def Closed (g : ValueGraph V) (c : Set V) : Prop := ∀ x ∈ c, ∃ y ∈ c, g.Refers y x

theorem indegree_ne_zero {x y : V} (hy : y ∈ s) (hyx : g.Refers y x) : g.indegree s x ≠ 0 := by
  have hsum := Finset.add_sum_erase s (fun z => (g.children z).count x) hy
  have hpos := List.count_pos_iff.mpr hyx
  unfold indegree
  omega

/-- The loop ends, with all values of `s` that are in such a set, and with a reference to each of
them that are left. -/
theorem Degrees.reduce (h : Degrees g s t) :
    ∃ n s' t', (∀ fuel, n < fuel → g.reduceDegrees fuel t = some t') ∧ Degrees g s' t' ∧
      s' ⊆ s ∧ (∀ x ∈ s', g.indegree s' x ≠ 0) ∧
      ∀ c : Set V, Closed g c → (∀ x ∈ c, x ∈ s) → ∀ x ∈ c, x ∈ s' := by
  induction hk : s.card using Nat.strongRecOn generalizing s t with
  | _ k ih =>
    have hmem := h.mem_zeroDegrees
    have hround := h.removeValues (fun x hx => ((hmem x).mp hx).1) (zeroDegrees_nodup t)
    by_cases hzero : zeroDegrees t = []
    · refine ⟨0, s, t, ?_, h, Finset.Subset.refl s, ?_, fun _ _ hc => hc⟩
      · intro fuel hfuel
        obtain ⟨fuel, rfl⟩ := Nat.exists_eq_succ_of_ne_zero (Nat.ne_of_gt hfuel)
        simp [reduceDegrees, hzero]
      · intro x hx hdeg
        have hx' := (hmem x).mpr ⟨hx, hdeg⟩
        rw [hzero] at hx'
        cases hx'
    · obtain ⟨z, hz⟩ := List.exists_mem_of_ne_nil _ hzero
      have hlt : (s \ (zeroDegrees t).toFinset).card < k := by
        have hsub : (zeroDegrees t).toFinset ⊆ s :=
          fun x hx => ((hmem x).mp (List.mem_toFinset.mp hx)).1
        rw [← hk]
        exact Finset.card_lt_card (Finset.sdiff_ssubset hsub ⟨z, List.mem_toFinset.mpr hz⟩)
      obtain ⟨n, s', t', hrun, hs', hsub, hdeg, hclosed⟩ := ih _ hlt hround rfl
      refine ⟨n + 1, s', t', ?_, hs', hsub.trans Finset.sdiff_subset, hdeg, ?_⟩
      · intro fuel hfuel
        obtain ⟨fuel, rfl⟩ :=
          Nat.exists_eq_succ_of_ne_zero (Nat.ne_of_gt (Nat.zero_lt_of_lt hfuel))
        rw [reduceDegrees]
        simp only [if_neg hzero]
        exact hrun fuel (by omega)
      · intro c hc hin
        apply hclosed c hc
        intro x hx
        refine Finset.mem_sdiff.mpr ⟨hin x hx, ?_⟩
        intro hxz
        obtain ⟨y, hy, hyx⟩ := hc x hx
        exact indegree_ne_zero (hin y hy) hyx ((hmem x).mp (List.mem_toFinset.mp hxz)).2

/-! What is left. -/

/-- Where every value of a finite set is referred to from inside of it, one is in a circle. -/
theorem exists_circle (hne : s.Nonempty) (h : ∀ x ∈ s, ∃ y ∈ s, g.Refers y x) :
    ∃ x ∈ s, Relation.TransGen g.Refers x x := by
  choose! f hf using h
  -- The steps go back along the references, inside of the set.
  let back : V → Option V := fun x => if x ∈ s then some (f x) else none
  have hback : ∀ x y, back x = some y → x ∈ s ∧ y ∈ s ∧ g.Refers y x := by
    intro x y hxy
    obtain ⟨hx, hy⟩ := Option.ite_none_right_eq_some.mp hxy
    obtain rfl := Option.some.inj hy
    exact ⟨hx, hf x hx⟩
  have hfin : Finite {x // back x ≠ none} := by
    apply Set.Finite.subset s.finite_toSet
    intro x hx
    by_contra hxs
    exact hx (if_neg hxs)
  obtain ⟨x₀, hx₀⟩ := hne
  have hsome : ∀ x ∈ s, ∀ k, ∃ y ∈ s, iterAt back x k = some y := by
    intro x hx k
    induction k with
    | zero => exact ⟨x, hx, rfl⟩
    | succ k ih =>
      obtain ⟨y, hy, hk⟩ := ih
      refine ⟨f y, (hf y hy).1, ?_⟩
      rw [iterAt, hk, Option.bind_some]
      exact if_pos hy
  have hendless : ∀ k, iterAt back x₀ k ≠ none := by
    intro k hnone
    obtain ⟨y, -, hy⟩ := hsome x₀ hx₀ k
    cases hy.symm.trans hnone
  obtain ⟨i, j, q, hq, hj, hcircle⟩ := runsInCircle_of_iterAt hfin hendless
  have hqs : q ∈ s := by
    obtain ⟨y, hy, hyi⟩ := hsome x₀ hx₀ i
    exact Option.some.inj (hyi.symm.trans hq) ▸ hy
  have hpath : ∀ k y, iterAt back q (k + 1) = some y → Relation.TransGen g.Refers y q := by
    intro k
    induction k with
    | zero =>
      intro y hy
      exact .single (hback q y hy).2.2
    | succ k ih =>
      intro y hy
      obtain ⟨z, hz, hzy⟩ := Option.bind_eq_some_iff.mp hy
      exact .head (hback z y hzy).2.2 (ih z hz)
  obtain ⟨j, rfl⟩ := Nat.exists_eq_succ_of_ne_zero (Nat.ne_of_gt hj)
  exact ⟨q, hqs, hpath j q hcircle⟩

omit [DecidableEq V] in
/-- The values of a circle refer to each other. -/
theorem closed_circle (v : V) : Closed g {x | Relation.TransGen g.Refers v x ∧
    Relation.TransGen g.Refers x v} := by
  rintro x ⟨hvx, hxv⟩
  obtain ⟨y, hvy, hyx⟩ := Relation.TransGen.tail'_iff.mp hvx
  rcases Relation.reflTransGen_iff_eq_or_transGen.mp hvy with rfl | hvy
  · exact ⟨y, ⟨hvx.trans hxv, hvx.trans hxv⟩, hyx⟩
  · exact ⟨y, ⟨hvy, .head hyx hxv⟩, hyx⟩

/-- The deletion leaves nothing of what was counted if and only if there is no circle. -/
theorem Counted.reduce {ok : V → Bool} (h : Counted g root ok t s) :
    ∃ n t', (∀ fuel, n < fuel → g.reduceDegrees fuel (t.decValueDegree root) = some t') ∧
      (t'.entries ≠ [] ↔ g.HasCircle root) := by
  -- The root was counted once more.
  have hdegrees : Degrees g s (t.decValueDegree root) := by
    intro x
    rw [DegreeTable.get_decValueDegree, h.get_eq]
    by_cases hx : x ∈ s
    · rw [if_pos hx, if_pos hx, Option.map_some]
      by_cases hxr : x = root
      · rw [if_pos hxr, if_pos hxr]
        congr 1
        omega
      · rw [if_neg hxr, if_neg hxr, Nat.zero_add]
    · rw [if_neg hx, if_neg hx]
      rfl
  obtain ⟨n, s', t', hrun, hs', hsub, hdeg, hclosed⟩ := hdegrees.reduce
  refine ⟨n, t', hrun, ?_⟩
  have hentries : t'.entries ≠ [] ↔ s'.Nonempty := by
    constructor
    · intro hne
      obtain ⟨e, he⟩ := List.exists_mem_of_ne_nil _ hne
      have hget := InsertionMap.get_of_mem keyEquiv_eq he
      rw [hs'] at hget
      exact ⟨e.1, (Option.ite_none_right_eq_some.mp hget).1⟩
    · rintro ⟨x, hx⟩
      have hget := hs' x
      rw [if_pos hx] at hget
      obtain ⟨e, he, -⟩ := InsertionMap.mem_of_get hget
      exact List.ne_nil_of_mem he
  rw [hentries]
  constructor
  · intro hne
    have href : ∀ x ∈ s', ∃ y ∈ s', g.Refers y x := by
      intro x hx
      obtain ⟨y, hy, hcount⟩ := Finset.exists_ne_zero_of_sum_ne_zero (hdeg x hx)
      exact ⟨y, hy, List.count_pos_iff.mp (Nat.pos_of_ne_zero hcount)⟩
    obtain ⟨x, hx, hcircle⟩ := exists_circle hne href
    exact ⟨x, ((h.mem_iff x).mp (hsub hx)).1, hcircle⟩
  · rintro ⟨x, hreach, hcircle⟩
    have hin : ∀ y ∈ {y | Relation.TransGen g.Refers x y ∧ Relation.TransGen g.Refers y x},
        y ∈ s := by
      rintro y ⟨hxy, hyx⟩
      obtain ⟨z, hyz, -⟩ := Relation.TransGen.head'_iff.mp hyx
      exact (h.mem_iff y).mpr ⟨hreach.trans hxy.to_reflTransGen, compound_of_refers hyz⟩
    exact ⟨x, hclosed _ (closed_circle x) hin x ⟨hcircle, hcircle⟩⟩

omit [DecidableEq V] in
theorem not_hasCircle_leaf (h : g.compound v = false) : ¬ g.HasCircle v := by
  rintro ⟨x, hreach, hcircle⟩
  rcases Relation.ReflTransGen.cases_head hreach with rfl | ⟨y, hvy, -⟩
  · obtain ⟨y, hvy, -⟩ := Relation.TransGen.head'_iff.mp hcircle
    cases h.symm.trans (compound_of_refers hvy)
  · cases h.symm.trans (compound_of_refers hvy)

theorem fklHasCircleRef_eq (g : ValueGraph V) (v : V) :
    ∃ n r, (∀ fuel, n < fuel → g.fklHasCircleRef fuel v = some r) ∧
      (r = true ↔ g.HasCircle v) := by
  cases hv : g.compound v with
  | false =>
    refine ⟨0, false, fun fuel _ => by rw [fklHasCircleRef, hv]; rfl, ?_⟩
    exact ⟨fun h => absurd h Bool.false_ne_true, fun h => absurd h (not_hasCircle_leaf hv)⟩
  | true =>
    obtain ⟨c, ⟨n, hrun⟩, hend⟩ := traverse_runs hv fun _ => true
    cases hend with
    | stopped x _ _ hok => cases hok
    | counted s _ hcounted =>
      obtain ⟨m, t', hreduce, ht'⟩ := hcounted.reduce
      refine ⟨max n m, decide (t'.entries.length > 0), ?_, ?_⟩
      · intro fuel hfuel
        rw [fklHasCircleRef, hv, traverseValueDfs, dfsLoop_hasCircleRefCb, hrun fuel (by omega)]
        simp [hreduce fuel (by omega)]
      · rw [decide_eq_true_iff, ← ht', gt_iff_lt, List.length_pos_iff]

omit [DecidableEq V] in
theorem eq_of_reaches_leaf {x : V} (h : g.compound v = false) (hx : g.Reaches v x) : v = x := by
  rcases Relation.ReflTransGen.cases_head hx with rfl | ⟨y, hvy, -⟩
  · rfl
  · cases h.symm.trans (compound_of_refers hvy)

theorem fklIsSerializableToByteCodeFile_eq (g : ValueGraph V) (v : V) :
    ∃ n r, (∀ fuel, n < fuel → g.fklIsSerializableToByteCodeFile fuel v = some r) ∧
      (r = true ↔ (∀ x, g.Reaches v x → g.isSerializableToBytecodeValue x = true) ∧
        ¬ g.HasCircle v) := by
  have hfalse : ∀ x, g.Reaches v x → g.isSerializableToBytecodeValue x = false →
      (false = true ↔ (∀ x, g.Reaches v x → g.isSerializableToBytecodeValue x = true) ∧
        ¬ g.HasCircle v) := by
    intro x hx hno
    refine ⟨fun h => absurd h Bool.false_ne_true, ?_⟩
    rintro ⟨hall, -⟩
    cases hno.symm.trans (hall x hx)
  cases hok : g.isSerializableToBytecodeValue v with
  | false =>
    refine ⟨0, false, ?_, hfalse v .refl hok⟩
    intro fuel _
    simp [fklIsSerializableToByteCodeFile, hok]
  | true =>
    cases hv : g.compound v with
    | false =>
      refine ⟨0, true, ?_, ?_⟩
      · intro fuel _
        simp [fklIsSerializableToByteCodeFile, hok, hv]
      · refine ⟨fun _ => ⟨?_, not_hasCircle_leaf hv⟩, fun _ => rfl⟩
        intro x hx
        exact eq_of_reaches_leaf hv hx ▸ hok
    | true =>
      obtain ⟨c, ⟨n, hrun⟩, hend⟩ := traverse_runs hv g.isSerializableToBytecodeValue
      cases hend with
      | stopped x hr hx hno =>
        refine ⟨n, false, ?_, hfalse x hx hno⟩
        intro fuel hfuel
        rw [fklIsSerializableToByteCodeFile, traverseValueDfs, serializableToBytecodeFileCb,
          hrun fuel hfuel]
        simp [hok, hv, hr]
      | counted s hr hcounted =>
        obtain ⟨m, t', hreduce, ht'⟩ := hcounted.reduce
        refine ⟨max n m, decide (t'.entries.length = 0), ?_, ?_⟩
        · intro fuel hfuel
          rw [fklIsSerializableToByteCodeFile, traverseValueDfs, serializableToBytecodeFileCb,
            hrun fuel (by omega)]
          simp [hok, hv, hr, hreduce fuel (by omega)]
        · rw [decide_eq_true_iff, List.length_eq_zero_iff, ← ht', not_not]
          exact ⟨fun h => ⟨hcounted.all_ok, h⟩, fun h => h.2⟩

/-- Both tests end, and find exactly the circles and the values that cannot be written. -/
theorem fklHasCircleRef_fklIsSerializableToByteCodeFile_eq (g : ValueGraph V) (v : V) :
    ∃ n r r', (∀ fuel, n < fuel → g.fklHasCircleRef fuel v = some r ∧
        g.fklIsSerializableToByteCodeFile fuel v = some r') ∧
      (r = true ↔ g.HasCircle v) ∧
      (r' = true ↔ (∀ x, g.Reaches v x → g.isSerializableToBytecodeValue x = true) ∧
        ¬ g.HasCircle v) := by
  obtain ⟨n, r, hrun, hr⟩ := fklHasCircleRef_eq g v
  obtain ⟨m, r', hrun', hr'⟩ := fklIsSerializableToByteCodeFile_eq g v
  refine ⟨max n m, r, r', ?_, hr, hr'⟩
  intro fuel hfuel
  exact ⟨hrun fuel (by omega), hrun' fuel (by omega)⟩

end FakeLisp.ValueGraph
