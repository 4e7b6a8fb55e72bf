import FakeLisp.LalrItem
import FakeLisp.WhileLoop

/-! The closure of a set of items: the productions of the nonterminals that follow a place. -/

namespace FakeLisp

/-- The nonterminal after the place in the item. -/
def FklLalrItem.nextNonterm (item : FklLalrItem) : Option Nat :=
  match item.getItemNext with
  | some (.nonterm nt) => some nt
  | _ => none

theorem FklLalrItem.nextNonterm_eq {item : FklLalrItem} {nt : Nat} :
    item.nextNonterm = some nt ↔ item.getItemNext = some (.nonterm nt) := by
  unfold nextNonterm
  split <;> simp_all

namespace FklGrammer

variable (g : FklGrammer)

/-- The loop that collects the nonterminals. -/
def closureSids (items : List FklLalrItem) (sidSet : List Nat) : List Nat × List Nat × Bool :=
  items.foldl (fun (sidSet, changeSet, change) item =>
    match item.nextNonterm with
    | some left =>
      if left ∈ sidSet then (sidSet, changeSet, change)
      else (sidSet ++ [left], hashSetPut changeSet left, true)
    | none => (sidSet, changeSet, change)) (sidSet, [], false)

/-- The loop that adds their productions. -/
def closureProds (changeSet : List Nat) (items : List FklLalrItem) : List FklLalrItem :=
  changeSet.foldl (fun items left => (g.fklGetProductions left).foldl
    (fun items prod => hashSetPut items (.init prod 0)) items) items

/-- The items, the nonterminals looked at and the flag `change`. -/
structure Lr0Closure where
  items : List FklLalrItem
  sidSet : List Nat
  change : Bool

def closureRound (s : Lr0Closure) : Lr0Closure :=
  let (sidSet, changeSet, change) := closureSids s.items s.sidSet
  ⟨g.closureProds changeSet s.items, sidSet, change⟩

/-- The nonterminals that can be looked at. -/
def closureNonterms (items : List FklLalrItem) : List Nat :=
  (items.flatMap (·.prod.syms) ++ g.prods.entries.flatMap fun e => e.2.flatMap (·.syms)).map (·.nt)

/-- `do … while (change)`; each round but the last one looks at a new nonterminal. -/
def lr0ItemSetClosure (items : List FklLalrItem) : List FklLalrItem :=
  match whileLoop Lr0Closure.change (fun s => some (g.closureRound s))
    ((g.closureNonterms items).length + 2) ⟨items, [], true⟩ with
  | some s => s.items
  | none => items

/-- The closure as a set. -/
inductive LrClosure (K : Set FklLalrItem) : FklLalrItem → Prop
  | base {item : FklLalrItem} (h : item ∈ K) : LrClosure K item
  | prod {item : FklLalrItem} {nt : Nat} {p : FklGrammerProduction} (h : LrClosure K item)
    (hnext : item.nextNonterm = some nt) (hp : p ∈ g.fklGetProductions nt) :
    LrClosure K (.init p 0)

section

variable {g}

/-- What the first loop collects. -/
structure ClosureSids (items : List FklLalrItem) (sidSet : List Nat)
    (out : List Nat × List Nat × Bool) : Prop where
  mem_sid : ∀ nt, nt ∈ out.1 ↔ nt ∈ sidSet ∨ ∃ item ∈ items, item.nextNonterm = some nt
  mem_change : ∀ nt, nt ∈ out.2.1 ↔ nt ∉ sidSet ∧ ∃ item ∈ items, item.nextNonterm = some nt
  change_iff : out.2.2 = true ↔ ∃ nt, nt ∈ out.2.1

theorem closureSids_spec (items : List FklLalrItem) (sidSet : List Nat) :
    ClosureSids items sidSet (closureSids items sidSet) := by
  induction items using List.reverseRecOn with
  | nil => exact ⟨by simp [closureSids], by simp [closureSids], by simp [closureSids]⟩
  | append_singleton items item ih =>
    rw [closureSids, List.foldl_append, ← closureSids, List.foldl_cons, List.foldl_nil]
    generalize closureSids items sidSet = out at ih
    obtain ⟨sids, changeSet, change⟩ := out
    obtain ⟨hsid, hchange, hflag⟩ := ih
    have hex : ∀ nt, (∃ i ∈ items ++ [item], i.nextNonterm = some nt) ↔
        (∃ i ∈ items, i.nextNonterm = some nt) ∨ item.nextNonterm = some nt := by
      intro nt
      simp [or_and_right, exists_or]
    cases hnext : item.nextNonterm with
    | none => exact ⟨by simpa [hex, hnext] using hsid, by simpa [hex, hnext] using hchange, hflag⟩
    | some left =>
      by_cases hleft : left ∈ sids
      · -- it was looked at before
        have hold := (hsid left).mp hleft
        simp only [hleft, if_true]
        refine ⟨fun nt => ?_, fun nt => ?_, hflag⟩
        · rw [hsid, hex, hnext, Option.some.injEq]
          refine ⟨fun h => h.imp_right Or.inl, ?_⟩
          rintro (h | h | rfl)
          exacts [Or.inl h, Or.inr h, hold]
        · rw [hchange, hex, hnext, Option.some.injEq]
          refine ⟨fun h => ⟨h.1, Or.inl h.2⟩, ?_⟩
          rintro ⟨hnt, h | rfl⟩
          exacts [⟨hnt, h⟩, ⟨hnt, hold.resolve_left hnt⟩]
      · have hnew : left ∉ sidSet := fun h => hleft ((hsid left).mpr (Or.inl h))
        simp only [hleft, if_false]
        refine ⟨fun nt => ?_, fun nt => ?_, by simp⟩
        · rw [List.mem_append, List.mem_singleton, hsid, hex, hnext, Option.some.injEq, or_assoc,
            eq_comm (a := nt)]
        · rw [mem_hashSetPut, hchange, hex, hnext, Option.some.injEq]
          refine ⟨?_, ?_⟩
          · rintro (h | rfl)
            exacts [⟨h.1, Or.inl h.2⟩, ⟨hnew, Or.inr rfl⟩]
          · rintro ⟨hnt, h | rfl⟩
            exacts [Or.inl ⟨hnt, h⟩, Or.inr rfl]

theorem mem_closureProds {changeSet : List Nat} {items : List FklLalrItem} {item : FklLalrItem} :
    item ∈ g.closureProds changeSet items ↔ item ∈ items ∨
      ∃ nt ∈ changeSet, ∃ p ∈ g.fklGetProductions nt, .init p 0 = item := by
  unfold closureProds
  induction changeSet generalizing items with
  | nil => simp
  | cons nt changeSet ih => simp [ih, mem_foldl_hashSetPut, or_assoc]

theorem nodup_closureProds {changeSet : List Nat} {items : List FklLalrItem} (h : items.Nodup) :
    (g.closureProds changeSet items).Nodup := by
  unfold closureProds
  induction changeSet generalizing items with
  | nil => exact h
  | cons nt changeSet ih => exact ih (nodup_foldl_hashSetPut _ _ h)

/-- The nonterminal after a place is a symbol of the production. -/
theorem nextNonterm_mem {item : FklLalrItem} {nt : Nat} (h : item.nextNonterm = some nt) :
    FklGrammerSym.nonterm nt ∈ item.prod.syms := by
  have hnext := FklLalrItem.nextNonterm_eq.mp h
  unfold FklLalrItem.getItemNext at hnext
  split_ifs at hnext with h1 h2
  · exact List.mem_of_getElem? hnext
  · exact List.mem_of_getElem? hnext

/-- The invariant of the rounds. -/
structure ClosureInv (g : FklGrammer) (kernel : List FklLalrItem) (n : Nat) (s : Lr0Closure) :
    Prop where
  nodup : s.items.Nodup
  kernel_sub : kernel ⊆ s.items
  sound : ∀ item ∈ s.items, g.LrClosure {i | i ∈ kernel} item
  sid_mem : ∀ nt ∈ s.sidSet, nt ∈ g.closureNonterms kernel
  prods : ∀ nt ∈ s.sidSet, ∀ p ∈ g.fklGetProductions nt, .init p 0 ∈ s.items
  closed : s.change = false → ∀ item ∈ s.items, ∀ nt, item.nextNonterm = some nt → nt ∈ s.sidSet
  variant : (g.closureNonterms kernel).countP (· ∉ s.sidSet) + s.change.toNat ≤ n

theorem LrClosure.nonterm_mem {kernel : List FklLalrItem} {item : FklLalrItem}
    (h : g.LrClosure {i | i ∈ kernel} item) {nt : Nat} (hnext : item.nextNonterm = some nt) :
    nt ∈ g.closureNonterms kernel := by
  refine List.mem_map.mpr ⟨.nonterm nt, List.mem_append.mpr ?_, rfl⟩
  have hmem := nextNonterm_mem hnext
  cases h with
  | base h => exact Or.inl (List.mem_flatMap.mpr ⟨item, h, hmem⟩)
  | @prod item' nt' p h hnext' hp =>
    obtain ⟨ps, hps, hpmem⟩ := mem_of_productions hp
    exact Or.inr (List.mem_flatMap.mpr ⟨_, hps, List.mem_flatMap.mpr ⟨p, hpmem, hmem⟩⟩)

theorem closureRound_inv {kernel : List FklLalrItem} {n : Nat} {s : Lr0Closure}
    (h : ClosureInv g kernel n s) (hc : s.change = true) :
    ∃ m < n, ClosureInv g kernel m (g.closureRound s) := by
  have hsids := closureSids_spec s.items s.sidSet
  unfold closureRound
  generalize closureSids s.items s.sidSet = out at hsids
  obtain ⟨sids, changeSet, change⟩ := out
  obtain ⟨hsid, hchange, hflag⟩ := hsids
  have hsub : ∀ nt ∈ s.sidSet, nt ∈ sids := fun nt hnt => (hsid nt).mpr (Or.inl hnt)
  have hnew : ∀ nt ∈ sids, nt ∈ s.sidSet ∨ nt ∈ changeSet := by
    intro nt hnt
    rcases (hsid nt).mp hnt with hnt | hnt
    · exact Or.inl hnt
    · by_cases hin : nt ∈ s.sidSet
      · exact Or.inl hin
      · exact Or.inr ((hchange nt).mpr ⟨hin, hnt⟩)
  have hv := h.variant
  simp only [hc, Bool.toNat_true] at hv
  refine ⟨_, ?_, nodup_closureProds h.nodup, ?_, ?_, ?_, ?_, ?_, le_rfl⟩
  · have hle : (g.closureNonterms kernel).countP (· ∉ sids) ≤
        (g.closureNonterms kernel).countP (· ∉ s.sidSet) :=
      List.countP_mono_left fun nt _ hnt => by
        simp only [decide_eq_true_eq] at hnt ⊢
        exact fun hin => hnt (hsub nt hin)
    cases change with
    | false =>
      simp only [Bool.toNat_false]
      omega
    | true =>
      obtain ⟨nt, hnt⟩ := hflag.mp rfl
      obtain ⟨hnotin, item, hitem, hnext⟩ := (hchange nt).mp hnt
      have hmem := (h.sound item hitem).nonterm_mem hnext
      have hin : nt ∈ sids := (hsid nt).mpr (Or.inr ⟨item, hitem, hnext⟩)
      have hlt := countP_lt_countP (p := fun nt => decide (nt ∉ sids))
        (q := fun nt => decide (nt ∉ s.sidSet)) hmem (by simp [hin]) (by simp [hnotin])
        fun nt _ hnt => by
          simp only [decide_eq_true_eq] at hnt ⊢
          exact fun hin => hnt (hsub nt hin)
      simp only [Bool.toNat_true]
      omega
  · exact fun item hitem => mem_closureProds.mpr (Or.inl (h.kernel_sub hitem))
  · intro item hitem
    rcases mem_closureProds.mp hitem with hitem | ⟨nt, hnt, p, hp, rfl⟩
    · exact h.sound item hitem
    · obtain ⟨_, item, hitem, hnext⟩ := (hchange nt).mp hnt
      exact .prod (h.sound item hitem) hnext hp
  · intro nt hnt
    rcases (hsid nt).mp hnt with hnt | ⟨item, hitem, hnext⟩
    · exact h.sid_mem nt hnt
    · exact (h.sound item hitem).nonterm_mem hnext
  · intro nt hnt p hp
    rcases hnew nt hnt with hnt | hnt
    · exact mem_closureProds.mpr (Or.inl (h.prods nt hnt p hp))
    · exact mem_closureProds.mpr (Or.inr ⟨nt, hnt, p, hp, rfl⟩)
  · intro hc' item hitem nt hnext
    have hnone : ∀ nt, nt ∉ changeSet := fun nt hnt => by
      have htrue : change = true := hflag.mpr ⟨nt, hnt⟩
      exact absurd (htrue.symm.trans hc') (by simp)
    rcases mem_closureProds.mp hitem with hitem | ⟨nt', hnt', _⟩
    · exact (hsid nt).mpr (Or.inr ⟨item, hitem, hnext⟩)
    · exact absurd hnt' (hnone nt')

/-- The rounds come to their end, with the closure. -/
theorem lr0ItemSetClosure_spec {items : List FklLalrItem} (hnodup : items.Nodup) :
    ∃ s, LoopsTo Lr0Closure.change (fun s => some (g.closureRound s))
        ((g.closureNonterms items).length + 1) ⟨items, [], true⟩ s ∧
      g.lr0ItemSetClosure items = s.items ∧ s.items.Nodup ∧
      ∀ item, item ∈ s.items ↔ g.LrClosure {i | i ∈ items} item := by
  have hstart : ClosureInv g items ((g.closureNonterms items).length + 1) ⟨items, [], true⟩ := by
    refine ⟨hnodup, List.Subset.refl _, fun item h => .base h, by simp, by simp, by simp, ?_⟩
    simp
  obtain ⟨s, m, hs, hc, hrun⟩ := LoopsTo.total (ClosureInv g items) (fun n s hs hc => by
    obtain ⟨m, hm, hinv⟩ := closureRound_inv hs hc
    exact ⟨_, m, rfl, hm, hinv⟩) hstart
  refine ⟨s, hrun, by simp [lr0ItemSetClosure, hrun _ (Nat.lt_succ_self _)], hs.nodup, fun item =>
    ⟨hs.sound item, fun h => ?_⟩⟩
  induction h with
  | base h => exact hs.kernel_sub h
  | prod _ hnext hp ih => exact hs.prods _ (hs.closed hc _ ih _ hnext) _ hp

theorem mem_lr0ItemSetClosure {items : List FklLalrItem} (h : items.Nodup) {item : FklLalrItem} :
    item ∈ g.lr0ItemSetClosure items ↔ g.LrClosure {i | i ∈ items} item := by
  obtain ⟨s, _, heq, _, hmem⟩ := lr0ItemSetClosure_spec (g := g) h
  rw [heq, hmem]

theorem nodup_lr0ItemSetClosure {items : List FklLalrItem} (h : items.Nodup) :
    (g.lr0ItemSetClosure items).Nodup := by
  obtain ⟨s, _, heq, hs, _⟩ := lr0ItemSetClosure_spec (g := g) h
  rwa [heq]

end

end FklGrammer

end FakeLisp
