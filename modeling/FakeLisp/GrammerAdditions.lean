import FakeLisp.GrammerMergeUnion

/-! Sequences of additions to the production table of a grammar: what the three functions that
add a production do to the indices. -/

namespace FakeLisp.GrammerTables

variable {C : Type} {E : GrammerEnv}

/-- The functions that add a production. -/
inductive AddFunction where
  | prodAndExtra
  | prodToTable
  | prodNoRepeat

/-- A production is added after its strings and regular expressions have gone into the tables of
the grammar. -/
structure Addition (C : Type) where
  function : AddFunction
  tables : SymTables
  prod : FklGrammerProduction C

namespace FklGrammer

variable {g g' : FklGrammer C} {nt : Nat} {ps : List (FklGrammerProduction C)}
  {p : FklGrammerProduction C} {noAction : C} {a : Addition C} {as : List (Addition C)}

def withTables (g : FklGrammer C) (t : SymTables) : FklGrammer C := { g with toSymTables := t }

/-- Nothing for an addition that returns 1. -/
def addResult (E : GrammerEnv) (noAction : C) (g : FklGrammer C) (a : Addition C) :
    Option (FklGrammer C) :=
  match a.function with
  | .prodAndExtra => (g.withTables a.tables).fklAddProdAndExtraToGrammer E noAction a.prod
  | .prodToTable => (g.withTables a.tables).fklAddProdToProdTable E a.prod
  | .prodNoRepeat => (g.withTables a.tables).fklAddProdToProdTableNoRepeat E a.prod

def add (E : GrammerEnv) (noAction : C) (g : FklGrammer C) (a : Addition C) : FklGrammer C :=
  (g.addResult E noAction a).getD (g.withTables a.tables)

/-- Every addition of the sequence, at the grammar that those before it leave. -/
def Along (E : GrammerEnv) (noAction : C) (P : FklGrammer C → Addition C → Prop) :
    FklGrammer C → List (Addition C) → Prop
  | _, [] => True
  | g, a :: as => P g a ∧ Along E noAction P (g.add E noAction a) as

/-- What is promised of a caller: the symbols of the production come from the tables, which only
grow. -/
structure Legal (E : GrammerEnv) (g : FklGrammer C) (a : Addition C) : Prop where
  grown : ∃ ds, SymTables.Extends ds g.toSymTables a.tables
  compiles : ∀ k ∈ a.tables.regexes.keys, E.compiles k = true
  syms : ∀ s ∈ a.prod.syms, a.tables.HasSym s

/-- The invariant of the production table. -/
structure TableInv (g : FklGrammer C) : Prop where
  once : ∀ nt, (g.rhss nt).Nodup
  idx_distinct : g.IdxDistinct
  idx_lt : ∀ p ∈ g.allProds, p.idx < g.prodCount

/-- A production that another one replaces keeps its place and its index. -/
def KeepsReplaced (E : GrammerEnv) (noAction : C) (g : FklGrammer C) (a : Addition C) : Prop :=
  ∀ pre cur post, g.prodsOf a.prod.left = pre ++ cur :: post → prodEqual cur a.prod = true →
    ∃ q, (g.add E noAction a).prodsOf a.prod.left = pre ++ q :: post ∧ q.idx = cur.idx ∧
      q.rhs (g.add E noAction a).regexes = cur.rhs g.regexes

/-- With the function that never looks at the index, the new production has it already. -/
def CarriesIdx (E : GrammerEnv) (g : FklGrammer C) (a : Addition C) : Prop :=
  a.function = .prodAndExtra → E.isBuiltin a.prod.left = false →
    ∀ cur ∈ g.prodsOf a.prod.left, prodEqual cur a.prod = true → a.prod.idx = cur.idx

/-! The indices in the table. -/

theorem IdxDistinct.replace (hd : g.IdxDistinct) {pre post : List (FklGrammerProduction C)}
    {cur q : FklGrammerProduction C} (hps : g.prodsOf nt = pre ++ cur :: post)
    (hidx : q.idx = cur.idx) : (g.setProds nt (pre ++ q :: post)).IdxDistinct := by
  obtain ⟨rest, hold, hnew⟩ := allProds_setProds g nt (pre ++ q :: post)
  rw [IdxDistinct, (hold.map _).nodup_iff, hps] at hd
  rw [IdxDistinct, (hnew.map _).nodup_iff]
  simpa [hidx] using hd

/-- A production with the next index, behind some of those that its left side has. -/
theorem IdxDistinct.fresh (nt : Nat) (hd : g.IdxDistinct) (hg : g.Good E) (hps : ps.Sublist (g.prodsOf nt))
    (hidx : p.idx = g.prodCount) : (g.setProds nt (ps ++ [p])).IdxDistinct := by
  obtain ⟨rest, hold, hnew⟩ := allProds_setProds g nt (ps ++ [p])
  have hsub : ((ps ++ rest).map (·.idx)).Sublist ((g.prodsOf nt ++ rest).map (·.idx)) :=
    (hps.append_right rest).map _
  rw [IdxDistinct, (hold.map _).nodup_iff] at hd
  have hfresh : p.idx ∉ (ps ++ rest).map (·.idx) := by
    intro hmem
    obtain ⟨q, hq, hqidx⟩ := List.mem_map.mp (hsub.subset hmem)
    obtain ⟨nt', hq⟩ := mem_allProds.mp (hold.symm.subset hq)
    exact absurd (hqidx.trans hidx) (hg.idx_lt nt' q hq).ne
  have hperm : (ps ++ [p] ++ rest).Perm (p :: (ps ++ rest)) := by
    rw [List.append_assoc]
    exact List.perm_middle
  rw [IdxDistinct, ((hnew.trans hperm).map _).nodup_iff, List.map_cons, List.nodup_cons]
  exact ⟨hfresh, hsub.nodup hd⟩

theorem IdxDistinct.addExtra (hd : g.IdxDistinct) (hg : g.Good E) (left : Nat) (noAction : C) :
    (g.addExtra left noAction).IdxDistinct :=
  IdxDistinct.fresh 0 hd hg (List.nil_sublist _) rfl

theorem Good.tableInv (hg : g.Good E) (hd : g.IdxDistinct) : TableInv g where
  once := hg.once
  idx_distinct := hd
  idx_lt p hp := by
    obtain ⟨nt, hp⟩ := mem_allProds.mp hp
    exact hg.idx_lt nt p hp

/-! One addition. -/

/-- What every one of the three functions keeps, if a replaced production passes on its index. -/
theorem addProd_keeps {onEqual : FklGrammerProduction C → Option (FklGrammerProduction C)}
    {onFirst : FklGrammer C → FklGrammer C} (hg : g.Good E) (hd : g.IdxDistinct)
    (hsyms : ∀ s ∈ p.syms, g.HasSym s)
    (hequal : ∀ cur ∈ g.prodsOf p.left, prodEqual cur p = true → ∀ q, onEqual cur = some q →
      q.left = p.left ∧ q.syms = p.syms ∧ q.idx = cur.idx)
    (hfirst : Good E (onFirst g) ∧ (onFirst g).toSymTables = g.toSymTables ∧
      (onFirst g).IdxDistinct)
    (h : g.addProd E onEqual onFirst p = some g') : Good E g' ∧ g'.IdxDistinct := by
  refine ⟨hg.addProd hsyms (fun cur hcur heq q hq => ?_) ⟨hfirst.1, hfirst.2.1⟩ h, ?_⟩
  · obtain ⟨hleft, hqsyms, hidx⟩ := hequal cur hcur heq q hq
    exact ⟨hleft, hqsyms, hidx.le⟩
  · obtain ⟨-, ⟨pre, cur, post, q, hps, heq, hq, rfl⟩ | ⟨-, rfl | ⟨-, rfl⟩⟩⟩ := addProd_cases h
    · exact hd.replace hps (hequal cur (by simp [hps]) heq q hq).2.2
    · exact IdxDistinct.fresh p.left hd hg (List.Sublist.refl _) rfl
    · exact IdxDistinct.fresh p.left hfirst.2.2 hfirst.1 (List.nil_sublist _) rfl

/-- What takes the place of an equal production. -/
def onEqual (a : Addition C) (cur : FklGrammerProduction C) : Option (FklGrammerProduction C) :=
  match a.function with
  | .prodAndExtra => some a.prod
  | .prodToTable => some { a.prod with idx := cur.idx }
  | .prodNoRepeat => none

/-- What is done before the first production of a left side. -/
def onFirst (noAction : C) (a : Addition C) (g : FklGrammer C) : FklGrammer C :=
  match a.function with
  | .prodAndExtra => if g.start = 0 then g.addExtra a.prod.left noAction else g
  | _ => g

theorem addResult_eq (E : GrammerEnv) (noAction : C) (g : FklGrammer C) (a : Addition C) :
    g.addResult E noAction a =
      (g.withTables a.tables).addProd E (onEqual a) (onFirst noAction a) a.prod := by
  obtain ⟨function, tables, prod⟩ := a
  cases function with
  | prodAndExtra => rfl
  | prodToTable => rfl
  | prodNoRepeat => rfl

theorem onFirst_keeps (hg : g.Good E) (hd : g.IdxDistinct) (noAction : C) (a : Addition C) :
    Good E (onFirst noAction a g) ∧ (onFirst noAction a g).toSymTables = g.toSymTables ∧
      (onFirst noAction a g).IdxDistinct := by
  unfold onFirst
  split
  · split
    · exact ⟨hg.addExtra _ _, rfl, hd.addExtra hg _ _⟩
    · exact ⟨hg, rfl, hd⟩
  · exact ⟨hg, rfl, hd⟩

theorem onEqual_spec {cur q : FklGrammerProduction C} (h : onEqual a cur = some q)
    (hidx : a.function = .prodAndExtra → a.prod.idx = cur.idx) :
    q.left = a.prod.left ∧ q.syms = a.prod.syms ∧ q.idx = cur.idx := by
  unfold onEqual at h
  split at h
  next hf =>
    obtain rfl := Option.some.inj h
    exact ⟨rfl, rfl, hidx hf⟩
  · obtain rfl := Option.some.inj h
    exact ⟨rfl, rfl, rfl⟩
  · cases h

theorem Legal.good (hl : Legal E g a) (hg : g.Good E) : Good E (g.withTables a.tables) := by
  obtain ⟨ds, hext⟩ := hl.grown
  exact hg.extends hext hl.compiles

theorem add_keeps (noAction : C) (hg : g.Good E) (hd : g.IdxDistinct) (hl : Legal E g a)
    (hc : CarriesIdx E g a) : Good E (g.add E noAction a) ∧ (g.add E noAction a).IdxDistinct := by
  have hg1 := hl.good hg
  have hd1 : (g.withTables a.tables).IdxDistinct := hd
  unfold add
  cases hres : g.addResult E noAction a with
  | none => exact ⟨hg1, hd1⟩
  | some g' =>
    rw [addResult_eq] at hres
    exact addProd_keeps hg1 hd1 hl.syms
      (fun cur hcur heq q hq => onEqual_spec hq fun hf =>
        hc hf (addProd_cases hres).1 cur hcur heq)
      (onFirst_keeps hg1 hd1 noAction a) hres

/-- A right side stands in one place only. -/
theorem place_unique {α β : Type} {f : α → β} {pre post pre' post' : List α} {c c' : α}
    (h : pre ++ c :: post = pre' ++ c' :: post') (hn : ((pre ++ c :: post).map f).Nodup)
    (hf : f c = f c') : pre = pre' ∧ c = c' ∧ post = post' := by
  have hlen : pre.length = pre'.length := by
    have h1 : ((pre ++ c :: post).map f)[pre.length]? = some (f c) := by simp
    have h2 : ((pre ++ c :: post).map f)[pre'.length]? = some (f c) := by simp [h, hf]
    have hlt : pre.length < ((pre ++ c :: post).map f).length := by simp
    exact (List.getElem?_inj hlt hn).mp (h1.trans h2.symm)
  obtain ⟨hpre, htail⟩ := List.append_inj h hlen
  obtain ⟨hc, hpost⟩ := List.cons.inj htail
  exact ⟨hpre, hc, hpost⟩

/-- The one production that an equal one replaces. -/
theorem replaced_unique (hg : g.Good E) (hsyms : ∀ s ∈ p.syms, g.HasSym s)
    {pre post pre' post' : List (FklGrammerProduction C)} {cur cur' : FklGrammerProduction C}
    (hps : g.prodsOf p.left = pre ++ cur :: post) (heq : prodEqual cur p = true)
    (hps' : g.prodsOf p.left = pre' ++ cur' :: post') (heq' : prodEqual cur' p = true) :
    pre = pre' ∧ cur = cur' ∧ post = post' := by
  have honce := hg.once p.left
  rw [rhss, hps] at honce
  have hrhs := (prodEqual_iff (hg.syms p.left cur (by simp [hps])) hsyms).mp heq
  have hrhs' := (prodEqual_iff (hg.syms p.left cur' (by simp [hps'])) hsyms).mp heq'
  exact place_unique (hps.symm.trans hps') honce (hrhs.trans hrhs'.symm)

theorem keepsReplaced_of_carries (hg : g.Good E) (hl : Legal E g a) (hc : CarriesIdx E g a) :
    KeepsReplaced E noAction g a := by
  obtain ⟨ds, hext⟩ := hl.grown
  have hg1 := hl.good hg
  intro pre cur post hps heq
  have hcur : cur ∈ g.prodsOf a.prod.left := by simp [hps]
  have hold : cur.rhs a.tables.regexes = cur.rhs g.regexes :=
    rhs_extends hext (hg.syms _ cur hcur)
  unfold add
  cases hres : g.addResult E noAction a with
  | none => exact ⟨cur, hps, rfl, hold⟩
  | some g' =>
    rw [addResult_eq] at hres
    obtain ⟨hb, ⟨pre', cur', post', q, hps', heq', hq, rfl⟩ | ⟨hne, -⟩⟩ := addProd_cases hres
    · obtain ⟨rfl, rfl, rfl⟩ := replaced_unique hg1 hl.syms hps heq hps' heq'
      obtain ⟨-, hqsyms, hidx⟩ := onEqual_spec hq fun hf => hc hf hb cur hcur heq
      have hrhs := (prodEqual_iff (hg1.syms _ cur hcur) hl.syms).mp heq
      refine ⟨q, prodsOf_setProds.trans (if_pos rfl), hidx, Eq.trans ?_ hold⟩
      change q.rhs a.tables.regexes = _
      rw [FklGrammerProduction.rhs, hqsyms]
      exact hrhs.symm
    · rw [hne cur hcur] at heq
      cases heq

theorem addProd_ne_none {onEqual : FklGrammerProduction C → Option (FklGrammerProduction C)}
    {onFirst : FklGrammer C → FklGrammer C} (hb : E.isBuiltin p.left = false)
    (hequal : ∀ cur, onEqual cur ≠ none) : g.addProd E onEqual onFirst p ≠ none := by
  unfold addProd
  rw [if_neg (by simp [hb])]
  split
  · split
    next cur _ _ =>
      obtain ⟨q, hq⟩ := Option.ne_none_iff_exists'.mp (hequal cur)
      simp [hq]
    · simp
  · simp

theorem carries_of_keepsReplaced (hg : g.Good E) (hl : Legal E g a)
    (hk : KeepsReplaced E noAction g a) : CarriesIdx E g a := by
  have hg1 := hl.good hg
  intro hf hb cur hcur heq
  obtain ⟨pre, post, hps⟩ := List.append_of_mem hcur
  obtain ⟨q, hq, hidx, -⟩ := hk pre cur post hps heq
  have hequal : onEqual a cur = some a.prod := by simp [onEqual, hf]
  cases hres : g.addResult E noAction a with
  | none =>
    rw [addResult_eq] at hres
    exact absurd hres (addProd_ne_none hb fun cur' => by simp [onEqual, hf])
  | some g' =>
    rw [add, hres] at hq
    rw [addResult_eq] at hres
    obtain ⟨-, ⟨pre', cur', post', q', hps', heq', hq', rfl⟩ | ⟨hne, -⟩⟩ := addProd_cases hres
    · obtain ⟨rfl, rfl, rfl⟩ := replaced_unique hg1 hl.syms hps heq hps' heq'
      obtain rfl := Option.some.inj (hequal.symm.trans hq')
      have hplace := (prodsOf_setProds.trans (if_pos rfl)).symm.trans hq
      obtain ⟨rfl, -⟩ := List.cons.inj (List.append_cancel_left hplace)
      exact hidx
    · rw [hne cur hcur] at heq
      cases heq

/-- In a sequence of additions the table keeps its invariant and every replaced production its
place and its index exactly when no addition replaces a production by one with another index
through the function that does not look at it. -/
theorem additions_keep_iff (g : FklGrammer C) (as : List (Addition C)) (hg : g.Good E)
    (hd : g.IdxDistinct) (hl : Along E noAction (Legal E) g as) :
    Along E noAction (fun g a => TableInv (g.add E noAction a) ∧ KeepsReplaced E noAction g a)
      g as ↔ Along E noAction (CarriesIdx E) g as := by
  induction as generalizing g with
  | nil => exact Iff.rfl
  | cons a as ih =>
    obtain ⟨hla, hlas⟩ := hl
    constructor
    · rintro ⟨⟨_, hk⟩, hrest⟩
      have hc := carries_of_keepsReplaced hg hla hk
      obtain ⟨hg', hd'⟩ := add_keeps noAction hg hd hla hc
      exact ⟨hc, (ih _ hg' hd' hlas).mp hrest⟩
    · rintro ⟨hc, hrest⟩
      obtain ⟨hg', hd'⟩ := add_keeps noAction hg hd hla hc
      exact ⟨⟨hg'.tableInv hd', keepsReplaced_of_carries hg hla hc⟩,
        (ih _ hg' hd' hlas).mpr hrest⟩

/-! Two additions of a fresh production to a new grammar. -/

def freshAddition (function : AddFunction) : Addition Unit :=
  ⟨function, (fklInitEmptyGrammer : FklGrammer Unit).toSymTables,
    fklCreateProduction 1 [.nonterm 2] ()⟩

theorem freshAddition_legal {g : FklGrammer Unit} (function : AddFunction)
    (hg : g.toSymTables = (fklInitEmptyGrammer : FklGrammer Unit).toSymTables) :
    Legal plainEnv g (freshAddition function) where
  grown := ⟨[], by rw [hg]; exact SymTables.Extends.refl _⟩
  compiles := by simp [freshAddition, fklInitEmptyGrammer, InternTable.empty]
  syms := by simp [freshAddition, fklCreateProduction, SymTables.HasSym]

theorem additions_keep_fresh :
    Along plainEnv () (fun g a => TableInv (g.add plainEnv () a) ∧ KeepsReplaced plainEnv () g a)
        fklInitEmptyGrammer [freshAddition .prodAndExtra, freshAddition .prodToTable] ↔
      Along plainEnv () (CarriesIdx plainEnv) fklInitEmptyGrammer
        [freshAddition .prodAndExtra, freshAddition .prodToTable] :=
  additions_keep_iff _ _ good_empty (by unfold IdxDistinct; decide)
    ⟨freshAddition_legal _ rfl, freshAddition_legal _ rfl, trivial⟩

/-- The production that replaces an equal one gets the index of the extra production. -/
theorem additions_lose_idx :
    let as := [freshAddition .prodAndExtra, freshAddition .prodAndExtra]
    Along plainEnv () (Legal plainEnv) fklInitEmptyGrammer as ∧
      ¬Along plainEnv ()
        (fun g a => TableInv (g.add plainEnv () a) ∧ KeepsReplaced plainEnv () g a)
        fklInitEmptyGrammer as := by
  refine ⟨⟨freshAddition_legal _ rfl, freshAddition_legal _ rfl, trivial⟩, fun h => ?_⟩
  have hd := h.2.1.1.idx_distinct
  exact absurd hd (by unfold IdxDistinct; decide)

end FklGrammer

end FakeLisp.GrammerTables
