import FakeLisp.HashMapLinks

/-! The hash table refines a map that remembers the order of insertion. -/

namespace FakeLisp

variable {A K V : Type}

open Function (update)

namespace FklHashMap

/-- The elements of the nodes, in the order of the list, are those of the map `M`. -/
def Holds (P : FklHashConf A K V) (m : FklHashMap A K V) (l : List A)
    (M : InsertionMap P.keyEqual V) : Prop := m.WellLinked P l ∧ l.map m.elm = M.entries

variable {P : FklHashConf A K V} {m : FklHashMap A K V} {l : List A} {k : K} {v : V} {a : A}
  {M : InsertionMap P.keyEqual V}

theorem Holds.elm (h : m.Holds P l M) :
    M.elm k = (l.find? fun a => P.keyEqual k (m.k a)).map m.elm := by
  rw [InsertionMap.elm, ← h.2, List.find?_map]
  rfl

theorem Holds.find (h : m.Holds P l M) (hP : P.Lawful) :
    fklHashMapFind P m k = some (l.find? fun a => P.keyEqual k (m.k a)) :=
  h.1.find hP h.1.live.length_eq.ge k

theorem Holds.same (h : m.Holds P l M) {m' : FklHashMap A K V} (hm' : m'.WellLinked P l)
    (hk : m'.k = m.k) (hv : m'.v = m.v) : m'.Holds P l M := by
  refine ⟨hm', ?_⟩
  have helm : m'.elm = m.elm := funext fun a => by rw [FklHashMap.elm, FklHashMap.elm, hk, hv]
  rw [helm, h.2]

theorem erase_of_elm_eq_none (hk : M.elm k = none) : (M.erase k).entries = M.entries := by
  apply List.filter_eq_self.mpr
  intro e he
  simpa using List.find?_eq_none.mp hk e he

/-- What a search for `k` finds, on the side of the table and on that of the map. -/
theorem Holds.find_cases (h : m.Holds P l M) (hP : P.Lawful) (k : K) :
    (l.find? (fun a => P.keyEqual k (m.k a)) = none ∧ fklHashMapFind P m k = some none ∧
      M.elm k = none) ∨
    ∃ a ∈ l, l.find? (fun a => P.keyEqual k (m.k a)) = some a ∧ P.keyEqual k (m.k a) = true ∧
      fklHashMapFind P m k = some (some a) ∧ M.elm k = some (m.elm a) := by
  rw [h.find hP, h.elm]
  cases hf : l.find? fun a => P.keyEqual k (m.k a) with
  | none => exact Or.inl ⟨rfl, rfl, rfl⟩
  | some a =>
    exact Or.inr ⟨a, List.mem_of_find?_eq_some hf, rfl, by simpa using List.find?_some hf, rfl, rfl⟩

theorem Holds.resized (h : m.Holds P l M) {m' : FklHashMap A K V} (hm' : m'.Linked P l)
    (heq : m.Resized m') : m'.Holds P l M := by
  refine h.same ⟨hm', ?_⟩ ?_ ?_
  · rw [heq]
    exact h.1.live
  · rw [heq]
  · rw [heq]

variable [DecidableEq A]

theorem Holds.new (h : m.Holds P l M) (hP : P.Lawful) {m' : FklHashMap A K V} (ha : a ∉ l)
    (hm' : m'.WellLinked P (l ++ [a])) (hk : m'.k = update m.k a k) (hv : m'.v = update m.v a v)
    (hnone : M.elm k = none) : m'.Holds P (l ++ [a]) (M.snoc hP.equiv k v hnone) := by
  refine ⟨hm', ?_⟩
  rw [List.map_append, InsertionMap.entries_snoc, ← h.2]
  congr 1
  · apply List.map_congr_left
    intro b hb
    have hne : b ≠ a := fun hba => ha (hba ▸ hb)
    simp [FklHashMap.elm, hk, hv, hne]
  · simp [FklHashMap.elm, hk, hv]

/-- A store through a pointer to a value. -/
theorem Holds.store (h : m.Holds P l M) (hP : P.Lawful) (ha : a ∈ l)
    (hk : P.keyEqual k (m.k a) = true) :
    { m with v := update m.v a v }.Holds P l (M.replace k v) := by
  have hs := h.1.sized
  refine ⟨⟨⟨⟨hs.capacity, hs.mask, hs.threshold⟩, h.1.order, h.1.chains, h.1.count, h.1.load,
    h.1.hashv, h.1.unequal⟩, h.1.live⟩, ?_⟩
  rw [InsertionMap.entries_replace, ← h.2, List.map_map]
  apply List.map_congr_left
  intro b hb
  by_cases hba : b = a
  · subst hba
    simp [FklHashMap.elm, hk]
  · have hkb : ¬P.keyEqual k (m.k b) = true := fun hkb => hba (h.1.unique hP ha hk hb hkb)
    simp [FklHashMap.elm, hba, hkb]

theorem Holds.erase (h : m.Holds P l M) (hP : P.Lawful) (ha : a ∈ l)
    (hk : P.keyEqual k (m.k a) = true) {m' : FklHashMap A K V} (hm' : m'.WellLinked P (l.erase a))
    (hmk : m'.k = m.k) (hmv : m'.v = m.v) : m'.Holds P (l.erase a) (M.erase k) := by
  refine ⟨hm', ?_⟩
  have helm : m'.elm = m.elm := funext fun a => by rw [FklHashMap.elm, FklHashMap.elm, hmk, hmv]
  rw [helm, InsertionMap.entries_erase, ← h.2, List.filter_map, h.1.order.nodup.erase_eq_filter]
  congr 1
  apply List.filter_congr
  intro b hb
  by_cases hba : b = a
  · subst hba
    simp [FklHashMap.elm, hk]
  · have hkb : ¬P.keyEqual k (m.k b) = true := fun hkb => hba (h.1.unique hP ha hk hb hkb)
    have hne : (b != a) = true := bne_iff_ne.mpr hba
    simp [FklHashMap.elm, hne, hkb]

theorem Holds.unlink (h : m.Holds P l M) (hP : P.Lawful) {i : Nat} {c₁ c₂ : List A}
    (hi : i < m.capacity) (hc : ListSeg m.bktNext (m.buckets i) (c₁ ++ a :: c₂) none)
    (ha : a ∈ l) (hk : P.keyEqual k (m.k a) = true) :
    ∃ m', fklHashMapUnlink m (linkAfter i c₁) a = some m' ∧
      m'.Holds P (l.erase a) (M.erase k) := by
  obtain ⟨m', hu, hm', hmk, hmv⟩ := h.1.unlink hi hc ha
  exact ⟨m', hu, h.erase hP ha hk hm' hmk hmv⟩

/-- The calls that go wrong: a pointer that is not of the table, or a growth beyond `2 ^ 31`
buckets. -/
def Stuck (P : FklHashConf A K V) (m : FklHashMap A K V) : FklHashOp A K V → Prop
  | .put k _ | .add k _ | .insert k _ => m.Full ∧ fklHashMapFind P m k = some none
  | .delNode pp => ¬m.IsLink pp
  | .store pn _ => pn ∉ m.live
  | .grow => m.capacity = 2 ^ 31
  | _ => False

/-- An absent key is inserted. -/
theorem Holds.insert_new (h : m.Holds P l M) (hP : P.Lawful) (v : Option V)
    (hk : M.elm k = none) (hfull : ¬m.Full) :
    ∃ a m', fklHashMapNew P m k v = some (a, m') ∧ m'.elm a = (k, v.getD P.zero) ∧
      m'.Holds P (l ++ [a]) (M.snoc hP.equiv k (v.getD P.zero) hk) := by
  have hkl : ∀ b ∈ l, P.keyEqual k (m.k b) = false := by
    rw [h.elm, Option.map_eq_none_iff, List.find?_eq_none] at hk
    simpa using hk
  obtain ⟨a, m', hn, ha, hm', hmk, hmv⟩ := h.1.new hP v hkl hfull
  refine ⟨a, m', hn, by simp [FklHashMap.elm, hmk, hmv], h.new hP ha hm' hmk hmv hk⟩

theorem put_refines (h : m.Holds P l M) (hP : P.Lawful) (v : Option V)
    (hs : ¬Stuck P m (.put k v)) :
    ∃ m' l', m.call P (.put k v) = some (.elm (M.elm k), m') ∧
      m'.Holds P l' (M.add hP.equiv k (v.getD P.zero)) := by
  rcases h.find_cases hP k with ⟨-, hf, hk⟩ | ⟨a, -, -, -, hf, hk⟩
  · obtain ⟨a, m', hn, -, hm'⟩ := h.insert_new hP v hk fun hfull => hs ⟨hfull, hf⟩
    refine ⟨m', l ++ [a], ?_, by simpa [InsertionMap.add, hk] using hm'⟩
    simp [call, fklHashMapPut, hf, hn, hk]
  · refine ⟨m, l, ?_, by simpa [InsertionMap.add, hk] using h⟩
    simp [call, fklHashMapPut, hf, hk]

theorem insert_refines (h : m.Holds P l M) (hP : P.Lawful) (v : Option V)
    (hs : ¬Stuck P m (.insert k v)) :
    ∃ m' l', m.call P (.insert k v) =
        some (.elm ((M.add hP.equiv k (v.getD P.zero)).elm k), m') ∧
      m'.Holds P l' (M.add hP.equiv k (v.getD P.zero)) := by
  rcases h.find_cases hP k with ⟨-, hf, hk⟩ | ⟨a, -, -, -, hf, hk⟩
  · obtain ⟨a, m', hn, ha, hm'⟩ := h.insert_new hP v hk fun hfull => hs ⟨hfull, hf⟩
    refine ⟨m', l ++ [a], ?_, by simpa [InsertionMap.add, hk] using hm'⟩
    simp [call, fklHashMapInsert, hf, hn, ha, InsertionMap.add, hk, InsertionMap.elm_snoc]
  · refine ⟨m, l, ?_, by simpa [InsertionMap.add, hk] using h⟩
    simp [call, fklHashMapInsert, hf, InsertionMap.add, hk]

theorem add_refines (h : m.Holds P l M) (hP : P.Lawful) (v : V)
    (hs : ¬Stuck P m (.add k (some v))) :
    ∃ m' l', m.call P (.add k (some v)) = some (.elm ((M.set hP.equiv k v).elm k), m') ∧
      m'.Holds P l' (M.set hP.equiv k v) := by
  rcases h.find_cases hP k with ⟨-, hf, hk⟩ | ⟨a, ha, -, hka, hf, hk⟩
  · obtain ⟨a, m', hn, helm, hm'⟩ := h.insert_new hP (some v) hk fun hfull => hs ⟨hfull, hf⟩
    refine ⟨m', l ++ [a], ?_, by simpa [InsertionMap.set, hk] using hm'⟩
    simp [call, fklHashMapAdd, hf, hn, helm, InsertionMap.set, hk, InsertionMap.elm_snoc]
  · refine ⟨{ m with v := update m.v a v }, l, ?_, ?_⟩
    · simp [call, fklHashMapAdd, hf, InsertionMap.set, hk, InsertionMap.elm_replace,
        FklHashMap.elm]
    · simpa [InsertionMap.set, hk] using h.store hP ha hka

theorem add_none (m : FklHashMap A K V) : m.call P (.add k none) = m.call P (.insert k none) := by
  unfold call fklHashMapAdd fklHashMapInsert
  rfl

theorem erase_refines (h : m.Holds P l M) (hP : P.Lawful) (k : K) :
    ∃ m' l', m.call P (.erase k) = some (.elm (M.elm k), m') ∧ m'.Holds P l' (M.erase k) := by
  have hlive := h.1.live.length_eq.ge
  rcases h.find_cases hP k with ⟨hl, hf, hk⟩ | ⟨a, ha, hl, hka, hf, hk⟩
  · refine ⟨m, l, ?_, h.1, by rw [erase_of_elm_eq_none hk, h.2]⟩
    simp [call, fklHashMapErase, h.1.findLink_none hlive hl, hk]
  · obtain ⟨c₁, c₂, hw, hc⟩ := h.1.findLink_some hP hlive hl
    obtain ⟨m', hu, hm'⟩ := h.unlink hP (h.1.sized.idx_lt _) hc ha hka
    refine ⟨m', _, ?_, hm'⟩
    simp [call, fklHashMapErase, hw, load_linkAfter hc, hu, hk, FklHashMap.elm]

/-- The node that a search for `k` finds is taken out. -/
theorem Holds.del (h : m.Holds P l M) (hP : P.Lawful)
    (hl : l.find? (fun a => P.keyEqual k (m.k a)) = some a) :
    ∃ m', fklHashMapDel P m k = some (true, m') ∧ m'.Holds P (l.erase a) (M.erase k) ∧
      m'.elm = m.elm := by
  have ha := List.mem_of_find?_eq_some hl
  have hka : P.keyEqual k (m.k a) = true := by simpa using List.find?_some hl
  obtain ⟨c₁, c₂, hw, hc⟩ := h.1.findLink_some hP h.1.live.length_eq.ge hl
  obtain ⟨m', hu, hm', hmk, hmv⟩ := h.1.unlink (h.1.sized.idx_lt _) hc ha
  refine ⟨m', ?_, h.erase hP ha hka hm' hmk hmv, ?_⟩
  · simp [fklHashMapDel, hw, load_linkAfter hc, hu]
  · exact funext fun b => by rw [FklHashMap.elm, FklHashMap.elm, hmk, hmv]

theorem del_refines (h : m.Holds P l M) (hP : P.Lawful) (k : K) :
    ∃ m' l', m.call P (.del k) = some (.flag (M.elm k).isSome, m') ∧
      m'.Holds P l' (M.erase k) := by
  rcases h.find_cases hP k with ⟨hl, hf, hk⟩ | ⟨a, -, hl, -, hf, hk⟩
  · refine ⟨m, l, ?_, h.1, by rw [erase_of_elm_eq_none hk, h.2]⟩
    simp [call, fklHashMapDel, h.1.findLink_none h.1.live.length_eq.ge hl, hk]
  · obtain ⟨m', hd, hm', -⟩ := h.del hP hl
    exact ⟨m', _, by simp [call, hd, hk], hm'⟩

theorem delNode_refines (h : m.Holds P l M) (hP : P.Lawful) {pp : BktLink A} (hpp : m.IsLink pp) :
    ∃ m' l', m.call P (.delNode pp) =
        some ((M.step hP.equiv (m.mapOp P (.delNode pp))).1, m') ∧
      m'.Holds P l' (M.step hP.equiv (m.mapOp P (.delNode pp))).2 := by
  rcases h.1.link_cases hpp with hnone | ⟨i, c₁, a, c₂, hi, rfl, ha, hload, hc⟩
  · refine ⟨m, l, ?_, by simpa [mapOp, hnone, InsertionMap.step] using h⟩
    simp [call, fklHashMapDelNode, mapOp, InsertionMap.step, hpp, hnone]
  · have hka := hP.equiv.refl (m.k a)
    obtain ⟨m', hu, hm'⟩ := h.unlink hP hi hc ha hka
    have helm : M.elm (m.k a) = some (m.elm a) := by
      rw [h.elm, h.1.find?_eq hP ha hka (fun _ hb => hb) ha]
      rfl
    refine ⟨m', _, ?_, by simpa [mapOp, hload, InsertionMap.step] using hm'⟩
    simp [call, fklHashMapDelNode, mapOp, InsertionMap.step, hpp, hload, hu, helm]

/-- A call does to the table what it is for the map, and returns what it returns there. -/
theorem call_refines (h : m.Holds P l M) (hP : P.Lawful) {op : FklHashOp A K V}
    (hs : ¬Stuck P m op) :
    ∃ m' l', m.call P op = some ((M.step hP.equiv (m.mapOp P op)).1, m') ∧
      m'.Holds P l' (M.step hP.equiv (m.mapOp P op)).2 := by
  have hlive := h.1.live.length_eq.ge
  cases op with
  | put k v => exact put_refines h hP v hs
  | add k v =>
    cases v with
    | none =>
      rw [add_none]
      exact insert_refines h hP none hs
    | some v => exact add_refines h hP v hs
  | insert k v => exact insert_refines h hP v hs
  | get k =>
    refine ⟨m, l, ?_, h⟩
    simp [call, fklHashMapGet, h.find hP, mapOp, InsertionMap.step, h.elm]
  | erase k => exact erase_refines h hP k
  | del k => exact del_refines h hP k
  | delNode pp => exact delNode_refines h hP (not_not.mp hs)
  | store pn v =>
    have hpn := not_not.mp hs
    refine ⟨_, l, ?_, h.store hP (h.1.live.mem_iff.mp hpn) (hP.equiv.refl _)⟩
    simp [call, hpn, mapOp, InsertionMap.step]
  | clear =>
    obtain ⟨m', hc, hm'⟩ := h.1.clear
    exact ⟨m', [], bind_eq_of_eq hc rfl, hm', rfl⟩
  | rehash =>
    obtain ⟨m', hr, hm', heq⟩ := h.1.rehash hlive
    exact ⟨m', l, bind_eq_of_eq hr rfl, h.resized hm' heq⟩
  | grow =>
    obtain ⟨m', hr, hm', heq, -⟩ := h.1.grow hs hlive
    exact ⟨m', l, bind_eq_of_eq hr rfl, h.resized hm' heq⟩
  | shrink =>
    obtain ⟨m', hr, hm', heq⟩ := h.1.shrink hlive
    exact ⟨m', l, bind_eq_of_eq hr rfl, h.resized hm' heq⟩

theorem call_eq_none {op : FklHashOp A K V} (hs : Stuck P m op) : m.call P op = none := by
  cases op with
  | put k v => simp [call, fklHashMapPut, hs.2, new_eq_none v hs.1]
  | add k v => simp [call, fklHashMapAdd, hs.2, new_eq_none v hs.1]
  | insert k v => simp [call, fklHashMapInsert, hs.2, new_eq_none v hs.1]
  | delNode pp => simp [call, fklAssert, if_neg hs]
  | store pn v => simp [call, fklAssert, if_neg hs]
  | grow => simp [call, grow_eq_none hs]
  | _ => exact hs.elim

theorem run_refines (h : m.Holds P l M) (hP : P.Lawful) {ops : List (FklHashOp A K V)}
    {trace : List (MapOp K V × MapRes K V)} {m' : FklHashMap A K V}
    (hr : m.run P ops = some (trace, m')) :
    trace.map Prod.snd = (M.run hP.equiv (trace.map Prod.fst)).1 ∧
      ∃ l', m'.Holds P l' (M.run hP.equiv (trace.map Prod.fst)).2 := by
  induction ops generalizing m l M trace with
  | nil =>
    obtain ⟨rfl, rfl⟩ : trace = [] ∧ m' = m := by simpa [run, eq_comm] using hr
    exact ⟨rfl, l, h⟩
  | cons op ops ih =>
    have hs : ¬Stuck P m op := fun hs => by simp [run, call_eq_none hs] at hr
    obtain ⟨m₁, l₁, hc, hm₁⟩ := call_refines h hP hs
    cases hrest : m₁.run P ops with
    | none => simp [run, hc, hrest] at hr
    | some s =>
      obtain ⟨rs, m₂⟩ := s
      obtain ⟨rfl, rfl⟩ : trace = _ ∧ m' = m₂ := by simpa [run, hc, hrest, eq_comm] using hr
      obtain ⟨hres, hm₂⟩ := ih hm₁ hrest
      exact ⟨congrArg (List.cons _) hres, hm₂⟩

/-- A run that does not end stops at a call that goes wrong. -/
theorem run_eq_none (h : m.Holds P l M) (hP : P.Lawful) {ops : List (FklHashOp A K V)}
    (hr : m.run P ops = none) :
    ∃ pre op post trace m', ops = pre ++ op :: post ∧ m.run P pre = some (trace, m') ∧
      Stuck P m' op := by
  induction ops generalizing m l M with
  | nil => exact nomatch hr
  | cons op ops ih =>
    by_cases hs : Stuck P m op
    · exact ⟨[], op, ops, [], m, rfl, rfl, hs⟩
    · obtain ⟨m₁, l₁, hc, hm₁⟩ := call_refines h hP hs
      have hrest : m₁.run P ops = none := by
        cases hrest : m₁.run P ops with
        | none => rfl
        | some s => simp [run, hc, hrest] at hr
      obtain ⟨pre, op', post, trace, m', rfl, hpre, hst⟩ := ih hm₁ hrest
      exact ⟨op :: pre, op', post, _, m', rfl, by simp [run, hc, hpre]; rfl, hst⟩

end FklHashMap

variable [DecidableEq A]

open FklHashMap in
/-- Whatever calls a table has answered, its answers are those of the insertion-ordered map, its
list holds the elements of that map in order, each node hangs in the chain of its hash value, and a
search yields the value last set. Only a foreign pointer or a table of `2 ^ 31` buckets that would
have to grow stops a program. -/
theorem fklHashMap_refines {P : FklHashConf A K V} (hP : P.Lawful) (self : FklHashMap A K V)
    (ops : List (FklHashOp A K V)) :
    (∀ trace m, (fklHashMapInit self).run P ops = some (trace, m) →
      trace.map Prod.snd = (InsertionMap.empty.run hP.equiv (trace.map Prod.fst)).1 ∧
      (∃ l, m.WellLinked P l ∧
        l.map m.elm = (InsertionMap.empty.run hP.equiv (trace.map Prod.fst)).2.entries) ∧
      ∀ k, ∃ pn, fklHashMapGet P m k = some pn ∧
        pn.map m.v = InsertionMap.lastSet P.keyEqual (trace.map Prod.fst) k) ∧
    ((fklHashMapInit self).run P ops = none →
      ∃ pre op post trace m, ops = pre ++ op :: post ∧
        (fklHashMapInit self).run P pre = some (trace, m) ∧ Stuck P m op) := by
  have hinit : (fklHashMapInit self).Holds P [] InsertionMap.empty := ⟨wellLinked_init P self, rfl⟩
  refine ⟨fun trace m hr => ?_, run_eq_none hinit hP⟩
  obtain ⟨hres, l, hm⟩ := run_refines hinit hP hr
  refine ⟨hres, ⟨l, hm⟩, fun k => ⟨_, hm.find hP, ?_⟩⟩
  rw [← InsertionMap.get_run hP.equiv, InsertionMap.get, hm.elm, Option.map_map]
  rfl

/-- A table from naturals to naturals whose keys all fall into one chain. -/
def oneChainConf : FklHashConf Nat Nat Nat where
  hashv _ := 0
  keyEqual k k' := k == k'
  zero := 0
  calloc live := live.foldr max 0 + 1

theorem oneChainConf_lawful : oneChainConf.Lawful where
  equiv := ⟨fun _ => beq_iff_eq.mpr rfl, fun _ _ h => beq_iff_eq.mpr (beq_iff_eq.mp h).symm,
    fun _ _ _ h h' => beq_iff_eq.mpr ((beq_iff_eq.mp h).trans (beq_iff_eq.mp h'))⟩
  hashv _ _ _ := rfl
  calloc live := by
    have hle : ∀ a ∈ live, a ≤ live.foldr max 0 := by
      induction live with
      | nil => simp
      | cons b live ih =>
        intro a ha
        rcases List.mem_cons.mp ha with rfl | ha
        · exact le_max_left _ _
        · exact (ih a ha).trans (le_max_right _ _)
    intro hmem
    have := hle _ hmem
    simp only [oneChainConf] at this
    omega

def blankHashMap : FklHashMap Nat Nat Nat where
  prev _ := none
  next _ := none
  bktNext _ := none
  hashv _ := 0
  k _ := 0
  v _ := 0
  buckets _ := none
  first := none
  last := none
  count := 0
  capacity := 0
  rehashThreshold := 0
  mask := 0
  live := []

/-- Seven keys outgrow eight buckets; one is set again and one deleted by the link to it. -/
def growingCalls : List (FklHashOp Nat Nat Nat) :=
  (List.range 7).map (fun k => .add k (some (10 * k))) ++
    [.add 3 (some 5), .delNode (.next 4), .shrink, .erase 0, .get 3]

theorem growingCalls_refine : ∃ trace m,
    (fklHashMapInit blankHashMap).run oneChainConf growingCalls = some (trace, m) ∧
      trace.map Prod.snd =
        (InsertionMap.empty.run oneChainConf_lawful.equiv (trace.map Prod.fst)).1 := by
  obtain ⟨⟨trace, m⟩, h⟩ := Option.isSome_iff_exists.mp
    (show ((fklHashMapInit blankHashMap).run oneChainConf growingCalls).isSome = true by decide)
  exact ⟨trace, m, h, ((fklHashMap_refines oneChainConf_lawful blankHashMap growingCalls).1 _ _ h).1⟩

end FakeLisp
