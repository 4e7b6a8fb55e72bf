import FakeLisp.ValueTable
import Mathlib.Algebra.BigOperators.Group.Finset.Basic
import Mathlib.Data.Finset.Card
import Mathlib.Data.Set.Finite.Basic

/-! Values that contain themselves. The references to every compound value are counted along a
traversal; then values without references are taken away until none is left. -/

namespace FakeLisp

/-- Values without components are told apart by whether they can be written to a file. -/
inductive GraphData (V : Type) where
  | leaf (serializable : Bool)
  | pair (car cdr : V)
  | vec (base : List V)
  | box (box : V)
  | hashTable (ht : List (V × V))

def GraphData.compound {V : Type} : GraphData V → Bool
  | .leaf _ => false
  | _ => true

/-- A heap holds finitely many values that have components. -/
structure ValueGraph (V : Type) where
  data : V → GraphData V
  finite : Finite {v // (data v).compound}

variable {V : Type}

namespace ValueGraph

variable (g : ValueGraph V)

def compound (v : V) : Bool := (g.data v).compound

def children (v : V) : List V :=
  match g.data v with
  | .leaf _ => []
  | .pair car cdr => [car, cdr]
  | .vec base => base
  | .box box => [box]
  | .hashTable ht => ht.flatMap fun e => [e.1, e.2]

def isSerializableToBytecodeValue (v : V) : Bool :=
  match g.data v with
  | .leaf serializable => serializable
  | _ => true

/-- `c` is a component of `p`. -/
def Refers (p c : V) : Prop := c ∈ g.children p

def Reaches : V → V → Prop := Relation.ReflTransGen g.Refers

/-- A value that can be reached is reachable from itself by a path that is not empty. -/
def HasCircle (v : V) : Prop := ∃ x, g.Reaches v x ∧ Relation.TransGen g.Refers x x

end ValueGraph

variable [DecidableEq V]

/-- `VmValueDegreeHashMap` -/
abbrev DegreeTable (V : Type) [DecidableEq V] := InsertionMap (fun a b : V => decide (a = b)) Nat

namespace DegreeTable

variable (t : DegreeTable V) (v x : V)

def incValueDegree : DegreeTable V := t.set keyEquiv_eq v ((t.get v).getD 0 + 1)

def decValueDegree : DegreeTable V :=
  match t.get v with
  | some (n + 1) => t.replace v n
  | _ => t

theorem get_incValueDegree : (t.incValueDegree v).get x =
    if x = v then some ((t.get v).getD 0 + 1) else t.get x := by
  rw [incValueDegree, InsertionMap.get_set]
  simp

theorem get_decValueDegree : (t.decValueDegree v).get x =
    (t.get x).map fun n => if x = v then n - 1 else n := by
  unfold decValueDegree
  split
  · rename_i n hn
    rw [InsertionMap.get_replace keyEquiv_eq]
    by_cases hx : x = v
    · subst hx
      simp [hn]
    · simp [hx]
  · rename_i hno
    cases hx : t.get x with
    | none => rfl
    | some n =>
      by_cases hxv : x = v
      · subst hxv
        cases n with
        | zero => simp
        | succ n => exact absurd hx (hno n)
      · simp [hxv]

theorem get_erase_eq : (InsertionMap.erase t v).get x = if x = v then none else t.get x := by
  rw [InsertionMap.get_erase keyEquiv_eq]
  simp

end DegreeTable

namespace ValueGraph

variable (g : ValueGraph V)

/-- The loop of `traverse_value_dfs`, with the set of the values that were followed and the stack.
The callback may break it off. -/
def dfsLoop {σ : Type} (callback : V → σ → Bool × σ) : Nat → List V → List V → σ → Option σ
  | 0, _, _, _ => none
  | _ + 1, _, [], ctx => some ctx
  | fuel + 1, valueSet, v :: stack, ctx =>
    let (stop, ctx) := callback v ctx
    if stop then some ctx
    else if g.compound v ∧ v ∉ valueSet then
      dfsLoop callback fuel (v :: valueSet) (g.children v ++ stack) ctx
    else dfsLoop callback fuel valueSet stack ctx

def traverseValueDfs {σ : Type} (callback : V → σ → Bool × σ) (fuel : Nat) (firstValue : V)
    (ctx : σ) : Option σ :=
  g.dfsLoop callback fuel [] [firstValue] ctx

def hasCircleRefCb (v : V) (degreeTable : DegreeTable V) : Bool × DegreeTable V :=
  (false, if g.compound v then degreeTable.incValueDegree v else degreeTable)

/-- The removal of a value without references. -/
def removeValue (t : DegreeTable V) (v : V) : DegreeTable V :=
  (g.children v).foldl DegreeTable.decValueDegree (InsertionMap.erase t v)

/-- The values without references, in the order of the table. -/
def zeroDegrees (t : DegreeTable V) : List V :=
  (t.entries.filter fun e => e.2 = 0).map Prod.fst

/-- The loop of `reduce_degrees`. -/
def reduceDegrees : Nat → DegreeTable V → Option (DegreeTable V)
  | 0, _ => none
  | fuel + 1, t =>
    let stack := zeroDegrees t
    let t := stack.foldl g.removeValue t
    if stack = [] then some t else reduceDegrees fuel t

def fklHasCircleRef (fuel : Nat) (v : V) : Option Bool :=
  if !g.compound v then some false
  else do
    let degreeTable ← g.traverseValueDfs g.hasCircleRefCb fuel v .empty
    let degreeTable ← g.reduceDegrees fuel (degreeTable.decValueDegree v)
    some (degreeTable.entries.length > 0)

structure SerializableCtx (V : Type) [DecidableEq V] where
  degreeTable : DegreeTable V
  r : Bool

/-- A callback that breaks off at the first value that is not `ok`. -/
def visitCb (ok : V → Bool) (v : V) (c : SerializableCtx V) : Bool × SerializableCtx V :=
  if !ok v then (true, { c with r := true })
  else if g.compound v then (false, { c with degreeTable := c.degreeTable.incValueDegree v })
  else (false, c)

def serializableToBytecodeFileCb : V → SerializableCtx V → Bool × SerializableCtx V :=
  g.visitCb g.isSerializableToBytecodeValue

def fklIsSerializableToByteCodeFile (fuel : Nat) (v : V) : Option Bool :=
  if !g.isSerializableToBytecodeValue v then some false
  else if !g.compound v then some true
  else do
    let ctx ← g.traverseValueDfs g.serializableToBytecodeFileCb fuel v ⟨.empty, false⟩
    if ctx.r then some false
    else do
      let degreeTable ← g.reduceDegrees fuel (ctx.degreeTable.decValueDegree v)
      some (degreeTable.entries.length = 0)

/-! The traversal counts. -/

/-- How often the values of `s` refer to `x`. -/
def indegree (s : Finset V) (x : V) : Nat := ∑ y ∈ s, (g.children y).count x

/-- Every value that was met has been counted, with those that wait on the stack; the values that
were followed are the keys of the table. -/
structure DfsInv (root : V) (ok : V → Bool) (valueSet stack : List V) (c : SerializableCtx V) :
    Prop where
  running : c.r = false
  set_reaches : ∀ x ∈ valueSet, g.Reaches root x ∧ g.compound x ∧ ok x
  stack_reaches : ∀ x ∈ stack, g.Reaches root x
  root_met : root ∈ stack ∨ root ∈ valueSet
  children_met : ∀ y ∈ valueSet, ∀ x ∈ g.children y,
    x ∈ stack ∨ (ok x ∧ (g.compound x → x ∈ valueSet))
  keys : ∀ x, c.degreeTable.get x ≠ none ↔ x ∈ valueSet
  degrees : ∀ x, g.compound x → (c.degreeTable.get x).getD 0 + stack.count x =
    (if x = root then 1 else 0) + g.indegree valueSet.toFinset x

variable {g} {root v : V} {ok : V → Bool} {valueSet stack : List V} {c : SerializableCtx V}

omit [DecidableEq V] in
theorem compound_of_refers {y x : V} (h : g.Refers y x) : g.compound y = true := by
  unfold Refers children at h
  unfold compound
  cases hy : g.data y with
  | leaf serializable =>
    rw [hy] at h
    cases h
  | _ => rfl

theorem indegree_insert {s : Finset V} (hv : v ∉ s) (x : V) :
    g.indegree (insert v s) x = (g.children v).count x + g.indegree s x :=
  Finset.sum_insert hv

theorem DfsInv.initial (root : V) (ok : V → Bool) :
    DfsInv g root ok [] [root] ⟨.empty, false⟩ := by
  refine ⟨rfl, by simp, ?_, by simp, by simp, by simp, ?_⟩
  · intro x hx
    obtain rfl := List.mem_singleton.mp hx
    exact .refl
  · intro x _
    by_cases hx : x = root
    · simp [hx, indegree]
    · simp [hx, indegree, Ne.symm hx]

/-- A value without components is left alone. -/
theorem DfsInv.leaf (h : DfsInv g root ok valueSet (v :: stack) c) (hok : ok v = true)
    (hv : g.compound v = false) (hroot : g.compound root = true) :
    DfsInv g root ok valueSet stack c := by
  refine ⟨h.running, h.set_reaches, fun x hx => h.stack_reaches x (List.mem_cons_of_mem v hx),
    ?_, ?_, h.keys, ?_⟩
  · rcases h.root_met with hmem | hmem
    · rcases List.mem_cons.mp hmem with rfl | hmem
      · cases hv.symm.trans hroot
      · exact Or.inl hmem
    · exact Or.inr hmem
  · intro y hy x hx
    rcases h.children_met y hy x hx with hmem | hmet
    · rcases List.mem_cons.mp hmem with rfl | hmem
      · exact Or.inr ⟨hok, fun hcompound => by cases hv.symm.trans hcompound⟩
      · exact Or.inl hmem
    · exact Or.inr hmet
  · intro x hx
    have hne : v ≠ x := by
      rintro rfl
      cases hv.symm.trans hx
    rw [← h.degrees x hx, List.count_cons_of_ne hne]

/-- A value that was followed is counted again. -/
theorem DfsInv.again (h : DfsInv g root ok valueSet (v :: stack) c) (hv : v ∈ valueSet) :
    DfsInv g root ok valueSet stack
      { c with degreeTable := c.degreeTable.incValueDegree v } := by
  obtain ⟨hreach, hcompound, hok⟩ := h.set_reaches v hv
  refine ⟨h.running, h.set_reaches, fun x hx => h.stack_reaches x (List.mem_cons_of_mem v hx),
    ?_, ?_, ?_, ?_⟩
  · rcases h.root_met with hmem | hmem
    · rcases List.mem_cons.mp hmem with rfl | hmem
      · exact Or.inr hv
      · exact Or.inl hmem
    · exact Or.inr hmem
  · intro y hy x hx
    rcases h.children_met y hy x hx with hmem | hmet
    · rcases List.mem_cons.mp hmem with rfl | hmem
      · exact Or.inr ⟨hok, fun _ => hv⟩
      · exact Or.inl hmem
    · exact Or.inr hmet
  · intro x
    rw [DegreeTable.get_incValueDegree]
    by_cases hx : x = v
    · subst hx
      simp [hv]
    · rw [if_neg hx]
      exact h.keys x
  · intro x hx
    have hdeg := h.degrees x hx
    rw [DegreeTable.get_incValueDegree]
    by_cases hxv : x = v
    · subst hxv
      rw [List.count_cons_self] at hdeg
      rw [if_pos rfl, Option.getD_some]
      omega
    · rw [List.count_cons_of_ne (Ne.symm hxv)] at hdeg
      rw [if_neg hxv, hdeg]

/-- A value that is met for the first time is counted and followed. -/
theorem DfsInv.first (h : DfsInv g root ok valueSet (v :: stack) c) (hok : ok v = true)
    (hcompound : g.compound v = true) (hv : v ∉ valueSet) :
    DfsInv g root ok (v :: valueSet) (g.children v ++ stack)
      { c with degreeTable := c.degreeTable.incValueDegree v } := by
  have hreach := h.stack_reaches v List.mem_cons_self
  refine ⟨h.running, ?_, ?_, ?_, ?_, ?_, ?_⟩
  · intro x hx
    rcases List.mem_cons.mp hx with rfl | hx
    · exact ⟨hreach, hcompound, hok⟩
    · exact h.set_reaches x hx
  · intro x hx
    rcases List.mem_append.mp hx with hx | hx
    · exact hreach.tail hx
    · exact h.stack_reaches x (List.mem_cons_of_mem v hx)
  · rcases h.root_met with hmem | hmem
    · rcases List.mem_cons.mp hmem with rfl | hmem
      · exact Or.inr List.mem_cons_self
      · exact Or.inl (List.mem_append_right _ hmem)
    · exact Or.inr (List.mem_cons_of_mem v hmem)
  · intro y hy x hx
    rcases List.mem_cons.mp hy with rfl | hy
    · exact Or.inl (List.mem_append_left _ hx)
    · rcases h.children_met y hy x hx with hmem | ⟨hxok, hmet⟩
      · rcases List.mem_cons.mp hmem with rfl | hmem
        · exact Or.inr ⟨hok, fun _ => List.mem_cons_self⟩
        · exact Or.inl (List.mem_append_right _ hmem)
      · exact Or.inr ⟨hxok, fun hc => List.mem_cons_of_mem v (hmet hc)⟩
  · intro x
    rw [DegreeTable.get_incValueDegree]
    by_cases hx : x = v
    · simp [hx]
    · rw [if_neg hx, h.keys x, List.mem_cons]
      exact ⟨Or.inr, fun hmem => hmem.resolve_left hx⟩
  · intro x hx
    have hdeg := h.degrees x hx
    have hnot : v ∉ valueSet.toFinset := fun hmem => hv (List.mem_toFinset.mp hmem)
    rw [DegreeTable.get_incValueDegree, List.toFinset_cons, indegree_insert hnot,
      List.count_append]
    by_cases hxv : x = v
    · subst hxv
      rw [List.count_cons_self] at hdeg
      rw [if_pos rfl, Option.getD_some]
      omega
    · rw [List.count_cons_of_ne (Ne.symm hxv)] at hdeg
      rw [if_neg hxv]
      omega

/-- Exactly what can be reached was met, and the table has the number of references to it. -/
structure Counted (g : ValueGraph V) (root : V) (ok : V → Bool) (t : DegreeTable V)
    (s : Finset V) : Prop where
  mem_iff : ∀ x, x ∈ s ↔ g.Reaches root x ∧ g.compound x = true
  all_ok : ∀ x, g.Reaches root x → ok x = true
  get_eq : ∀ x, t.get x = if x ∈ s then some ((if x = root then 1 else 0) + g.indegree s x) else none

theorem DfsInv.counted (h : DfsInv g root ok valueSet [] c) :
    Counted g root ok c.degreeTable valueSet.toFinset := by
  have hall : ∀ x, g.Reaches root x → ok x = true ∧ (g.compound x = true → x ∈ valueSet) := by
    intro x hx
    induction hx with
    | refl =>
      have hroot := h.root_met.resolve_left List.not_mem_nil
      exact ⟨(h.set_reaches root hroot).2.2, fun _ => hroot⟩
    | tail hy hyx ih =>
      have hset := ih.2 (compound_of_refers hyx)
      exact (h.children_met _ hset _ hyx).resolve_left List.not_mem_nil
  refine ⟨?_, fun x hx => (hall x hx).1, ?_⟩
  · intro x
    rw [List.mem_toFinset]
    constructor
    · intro hx
      obtain ⟨hreach, hcompound, -⟩ := h.set_reaches x hx
      exact ⟨hreach, hcompound⟩
    · rintro ⟨hreach, hcompound⟩
      exact (hall x hreach).2 hcompound
  · intro x
    by_cases hx : x ∈ valueSet
    · obtain ⟨n, hn⟩ := Option.ne_none_iff_exists'.mp ((h.keys x).mpr hx)
      have hdeg := h.degrees x (h.set_reaches x hx).2.1
      rw [hn, Option.getD_some, List.count_nil, Nat.add_zero] at hdeg
      rw [if_pos (List.mem_toFinset.mpr hx), hn, hdeg]
    · rw [if_neg fun hmem => hx (List.mem_toFinset.mp hmem)]
      exact not_not.mp fun hne => hx ((h.keys x).mp hne)

/-- How the traversal ends. -/
inductive DfsEnd (g : ValueGraph V) (root : V) (ok : V → Bool) (c : SerializableCtx V) : Prop where
  | stopped (x : V) (hr : c.r = true) (hx : g.Reaches root x) (hok : ok x = false)
  | counted (s : Finset V) (hr : c.r = false) (h : Counted g root ok c.degreeTable s)

/-- With enough fuel the traversal ends with `c'`. -/
def DfsRuns (g : ValueGraph V) (ok : V → Bool) (valueSet stack : List V)
    (c c' : SerializableCtx V) : Prop :=
  ∃ n, ∀ fuel, n < fuel → g.dfsLoop (g.visitCb ok) fuel valueSet stack c = some c'

theorem DfsRuns.of_done {c' : SerializableCtx V}
    (h : ∀ fuel, g.dfsLoop (g.visitCb ok) (fuel + 1) valueSet stack c = some c') :
    DfsRuns g ok valueSet stack c c' := by
  refine ⟨0, ?_⟩
  intro fuel hfuel
  obtain ⟨fuel, rfl⟩ := Nat.exists_eq_succ_of_ne_zero (Nat.ne_of_gt hfuel)
  exact h fuel

theorem DfsRuns.of_step {valueSet' stack' : List V} {d c' : SerializableCtx V}
    (hrun : DfsRuns g ok valueSet' stack' d c')
    (h : ∀ fuel, g.dfsLoop (g.visitCb ok) (fuel + 1) valueSet stack c =
      g.dfsLoop (g.visitCb ok) fuel valueSet' stack' d) : DfsRuns g ok valueSet stack c c' := by
  obtain ⟨n, hrun⟩ := hrun
  refine ⟨n + 1, ?_⟩
  intro fuel hfuel
  obtain ⟨fuel, rfl⟩ := Nat.exists_eq_succ_of_ne_zero (Nat.ne_of_gt (Nat.zero_lt_of_lt hfuel))
  rw [h]
  exact hrun fuel (by omega)

/-- Every round follows a new value or takes one from the stack. -/
theorem DfsInv.runs (hroot : g.compound root = true) {all : Finset V}
    (hall : ∀ x, g.compound x = true → x ∈ all) (k : Nat)
    (hk : (all \ valueSet.toFinset).card = k) (h : DfsInv g root ok valueSet stack c) :
    ∃ c', DfsRuns g ok valueSet stack c c' ∧ DfsEnd g root ok c' := by
  induction k using Nat.strongRecOn generalizing valueSet stack c with
  | _ k ih =>
    induction stack generalizing c with
    | nil => exact ⟨c, .of_done fun _ => rfl, .counted _ h.running h.counted⟩
    | cons v stack ihs =>
      cases hok : ok v with
      | false =>
        refine ⟨{ c with r := true }, .of_done ?_,
          .stopped v rfl (h.stack_reaches v List.mem_cons_self) hok⟩
        simp [dfsLoop, visitCb, hok]
      | true =>
        cases hcompound : g.compound v with
        | false =>
          obtain ⟨c', hrun, hend⟩ := ihs (h.leaf hok hcompound hroot)
          exact ⟨c', hrun.of_step (by simp [dfsLoop, visitCb, hok, hcompound]), hend⟩
        | true =>
          by_cases hv : v ∈ valueSet
          · obtain ⟨c', hrun, hend⟩ := ihs (h.again hv)
            exact ⟨c', hrun.of_step (by simp [dfsLoop, visitCb, hok, hcompound, hv]), hend⟩
          · have hmem : v ∈ all \ valueSet.toFinset :=
              Finset.mem_sdiff.mpr ⟨hall v hcompound, fun hv' => hv (List.mem_toFinset.mp hv')⟩
            have hlt : (all \ (v :: valueSet).toFinset).card < k := by
              rw [List.toFinset_cons, Finset.sdiff_insert, ← hk]
              exact Finset.card_erase_lt_of_mem hmem
            obtain ⟨c', hrun, hend⟩ := ih _ hlt rfl (h.first hok hcompound hv)
            exact ⟨c', hrun.of_step (by simp [dfsLoop, visitCb, hok, hcompound, hv]), hend⟩

theorem traverse_runs (hroot : g.compound root = true) (ok : V → Bool) :
    ∃ c', DfsRuns g ok [] [root] ⟨.empty, false⟩ c' ∧ DfsEnd g root ok c' := by
  have hfin : Set.Finite {x | g.compound x = true} := g.finite
  have hall : ∀ x, g.compound x = true → x ∈ hfin.toFinset :=
    fun x hx => hfin.mem_toFinset.mpr hx
  exact (DfsInv.initial root ok).runs hroot hall _ rfl

/-- The traversal that only counts is the one that takes every value. -/
theorem dfsLoop_hasCircleRefCb (fuel : Nat) (t : DegreeTable V) :
    g.dfsLoop g.hasCircleRefCb fuel valueSet stack t =
      (g.dfsLoop (g.visitCb fun _ => true) fuel valueSet stack ⟨t, false⟩).map
        (·.degreeTable) := by
  induction fuel generalizing valueSet stack t with
  | zero => rfl
  | succ fuel ih =>
    cases stack with
    | nil => rfl
    | cons v stack =>
      cases hcompound : g.compound v with
      | false => simp [dfsLoop, hasCircleRefCb, visitCb, hcompound, ih]
      | true => by_cases hv : v ∈ valueSet <;> simp [dfsLoop, hasCircleRefCb, visitCb, hcompound, hv, ih]

end ValueGraph

end FakeLisp
