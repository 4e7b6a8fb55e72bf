import FakeLisp.Grammer
import FakeLisp.WhileLoop
import Mathlib.Data.List.ProdSigma

/-! The FIRST sets that the source computes. It leaves the productions of a nonterminal at the first
one that cannot be empty, so that it finds what productions taken in order give. -/

namespace FakeLisp

/-! The code. -/

structure FklFirstSetItem where
  first : List FklLalrItemLookAhead
  hasEpsilon : Bool
  deriving DecidableEq

abbrev FklFirstSets := Nat → Option FklFirstSetItem

/-- The sets and the flag `change`. -/
structure FirstRun where
  firsts : FklFirstSets
  change : Bool

namespace FirstRun

/-- A terminal is put into the set of `left`, or its flag is set. -/
def add (left : Nat) (o : Option FklLalrItemLookAhead) (r : FirstRun) : FirstRun :=
  match r.firsts left with
  | none => r
  | some item =>
    match o with
    | none =>
      ⟨Function.update r.firsts left (some { item with hasEpsilon := true }),
        r.change || !item.hasEpsilon⟩
    | some la =>
      if la ∈ item.first then r
      else ⟨Function.update r.firsts left (some { item with first := item.first ++ [la] }), true⟩

/-- At the last symbol the flag is set. -/
def addLast (left : Nat) (last : Prop) [Decidable last] (r : FirstRun) : FirstRun :=
  if last then r.add left none else r

end FirstRun

/-- `*done_or_error` -/
inductive FirstDone where
  | none
  | done
  | error
  deriving DecidableEq

namespace FklGrammer

variable (g : FklGrammer)

/-- The loop of `get_first_from_syms`; `skip` counts the parts that are jumped over. -/
def getFirstFromSyms (left : Nat) : Nat → List FklGrammerSym → FirstRun → FirstRun × FirstDone
  | _, [], r => (r, .none)
  | skip + 1, _ :: rest, r => getFirstFromSyms left skip rest r
  | 0, sym :: rest, r =>
    match sym with
    | .builtin b =>
      let r := r.add left (some (.builtin b))
      if g.isBuiltinTerminalMatchEpsilon b then
        getFirstFromSyms left 0 rest (r.addLast left (rest = []))
      else (r, .done)
    | .comp parts =>
      let r := r.add left (some (.comp parts))
      if g.isCompTerminalMatchEpsilon parts then
        getFirstFromSyms left parts.length rest (r.addLast left (rest.length = parts.length))
      else (r, .done)
    | .regex re =>
      let r := r.add left (some (.regex re))
      if g.isRegexMatchEpsilon re then
        getFirstFromSyms left 0 rest (r.addLast left (rest = []))
      else (r, .done)
    | .nonterm nt =>
      match r.firsts nt with
      | none => (r, .error)
      | some curFirst =>
        let r := curFirst.first.foldl (fun r la => r.add left (some la)) r
        if curFirst.hasEpsilon then
          getFirstFromSyms left 0 rest (r.addLast left (rest = []))
        else (r, .done)
    | .ignore =>
      let r := r.add left (some .ignore)
      getFirstFromSyms left 0 rest (r.addLast left (rest = []))
    | .string s =>
      if g.str s = [] then getFirstFromSyms left 0 rest (r.addLast left (rest = []))
      else (r.add left (some (.string s)), .done)
    | .keyword s =>
      if g.str s = [] then getFirstFromSyms left 0 rest (r.addLast left (rest = []))
      else (r.add left (some (.keyword s)), .done)

/-- The loop over the productions of `left`. -/
def firstOfProds (left : Nat) : List FklGrammerProduction → FirstRun → Option FirstRun
  | [], r => some r
  | p :: ps, r =>
    if p.syms = [] then firstOfProds left ps (r.add left none)
    else
      match g.getFirstFromSyms left 0 p.syms r with
      | (r, .done) => some r
      | (_, .error) => none
      | (r, .none) => firstOfProds left ps r

/-- The loop over the nonterminals. -/
def firstPass : List (Nat × List FklGrammerProduction) → FirstRun → Option FirstRun
  | [], r => some r
  | (left, prods) :: es, r =>
    if isSqNt left then firstPass es r
    else (g.firstOfProds left prods r).bind (firstPass es)

/-- The empty sets before the first round. -/
def emptyFirsts : FklFirstSets := fun nt =>
  if ¬isSqNt nt ∧ nt ∈ g.prods.entries.map (·.1) then some ⟨[], false⟩ else none

/-- `do … while (change)` -/
def computeAllFirstSet (fuel : Nat) : Option FklFirstSets :=
  (whileLoop FirstRun.change (fun r => g.firstPass g.prods.entries ⟨r.firsts, false⟩) fuel
    ⟨g.emptyFirsts, true⟩).map (·.firsts)

end FklGrammer

/-! What one addition changes. -/

def FklFirstSets.hasBool (firsts : FklFirstSets) (x : Nat × Option FklLalrItemLookAhead) : Bool :=
  match firsts x.1 with
  | none => false
  | some item =>
    match x.2 with
    | none => item.hasEpsilon
    | some la => la ∈ item.first

/-- The pairs that the sets hold: a nonterminal with a terminal, or with nothing for the flag. -/
def FklFirstSets.has (firsts : FklFirstSets) : Set (Nat × Option FklLalrItemLookAhead) :=
  {x | firsts.hasBool x = true}

/-- The pairs `s` are added. -/
structure Adds (s : Set (Nat × Option FklLalrItemLookAhead)) (r r' : FirstRun) : Prop where
  has_eq : r'.firsts.has = r.firsts.has ∪ s
  change_iff : r'.change = true ↔ r.change = true ∨ ¬s ⊆ r.firsts.has
  isSome_eq : ∀ nt, (r'.firsts nt).isSome = (r.firsts nt).isSome

theorem Adds.refl (r : FirstRun) : Adds ∅ r r := ⟨by simp, by simp, fun _ => rfl⟩

theorem Adds.trans {s s' : Set (Nat × Option FklLalrItemLookAhead)} {r r' r'' : FirstRun}
    (h : Adds s r r') (h' : Adds s' r' r'') : Adds (s ∪ s') r r'' where
  has_eq := by rw [h'.has_eq, h.has_eq, Set.union_assoc]
  change_iff := by
    rw [h'.change_iff, h.change_iff, h.has_eq, Set.union_subset_iff]
    constructor
    · rintro ((hc | hs) | hs')
      · exact Or.inl hc
      · exact Or.inr fun hu => hs hu.1
      · exact Or.inr fun hu => hs' (hu.2.trans Set.subset_union_left)
    · rintro (hc | hu)
      · exact Or.inl (Or.inl hc)
      · by_cases hs : s ⊆ r.firsts.has
        · refine Or.inr fun hs' => hu ⟨hs, ?_⟩
          rwa [Set.union_eq_self_of_subset_right hs] at hs'
        · exact Or.inl (Or.inr hs)
  isSome_eq nt := (h'.isSome_eq nt).trans (h.isSome_eq nt)

theorem hasBool_update (firsts : FklFirstSets) (left : Nat) (item : FklFirstSetItem)
    (x : Nat × Option FklLalrItemLookAhead) :
    (show FklFirstSets from Function.update firsts left (some item)).hasBool x =
      if x.1 = left then
        match x.2 with
        | none => item.hasEpsilon
        | some la => la ∈ item.first
      else firsts.hasBool x := by
  unfold FklFirstSets.hasBool
  by_cases h : x.1 = left <;> simp [h]

theorem isSome_update (firsts : FklFirstSets) {left : Nat} (hleft : (firsts left).isSome = true)
    (item : FklFirstSetItem) (nt : Nat) :
    (Function.update firsts left (some item) nt).isSome = (firsts nt).isSome := by
  by_cases h : nt = left
  · subst h; simp [hleft]
  · simp [h]

theorem adds_add {left : Nat} {r : FirstRun} (hleft : (r.firsts left).isSome = true)
    (o : Option FklLalrItemLookAhead) : Adds {(left, o)} r (r.add left o) := by
  obtain ⟨item, hitem⟩ := Option.isSome_iff_exists.mp hleft
  have hmem : ∀ o, (left, o) ∈ r.firsts.has ↔ r.firsts.hasBool (left, o) = true :=
    fun _ => Iff.rfl
  cases o with
  | none =>
    have hadd : r.add left none =
        ⟨Function.update r.firsts left (some { item with hasEpsilon := true }),
          r.change || !item.hasEpsilon⟩ := by
      simp [FirstRun.add, hitem]
    rw [hadd]
    refine ⟨?_, ?_, fun nt => isSome_update _ hleft _ nt⟩
    · ext ⟨nt, o⟩
      change FklFirstSets.hasBool _ _ = true ↔ _
      rw [hasBool_update]
      by_cases h : nt = left
      · subst h
        cases o <;> simp [FklFirstSets.has, FklFirstSets.hasBool, hitem]
      · simp [h, FklFirstSets.has]
    · rw [Set.singleton_subset_iff, hmem]
      simp [FklFirstSets.hasBool, hitem]
  | some la =>
    by_cases hla : la ∈ item.first
    · have hadd : r.add left (some la) = r := by simp [FirstRun.add, hitem, hla]
      have hin : (left, some la) ∈ r.firsts.has := by
        rw [hmem]
        simp [FklFirstSets.hasBool, hitem, hla]
      rw [hadd]
      exact ⟨by simp [hin], by simp [hin], fun _ => rfl⟩
    · have hadd : r.add left (some la) = ⟨Function.update r.firsts left
          (some { item with first := item.first ++ [la] }), true⟩ := by
        simp [FirstRun.add, hitem, hla]
      rw [hadd]
      refine ⟨?_, ?_, fun nt => isSome_update _ hleft _ nt⟩
      · ext ⟨nt, o⟩
        change FklFirstSets.hasBool _ _ = true ↔ _
        rw [hasBool_update]
        by_cases h : nt = left
        · subst h
          cases o <;> simp [FklFirstSets.has, FklFirstSets.hasBool, hitem, or_comm]
        · simp [h, FklFirstSets.has]
      · rw [Set.singleton_subset_iff, hmem]
        simp [FklFirstSets.hasBool, hitem, hla]

theorem adds_foldl {left : Nat} (las : List FklLalrItemLookAhead) {r : FirstRun}
    (hleft : (r.firsts left).isSome = true) :
    Adds {x | ∃ la ∈ las, x = (left, some la)} r
      (las.foldl (fun r la => r.add left (some la)) r) := by
  induction las generalizing r with
  | nil => simpa using Adds.refl r
  | cons la las ih =>
    have h := adds_add hleft (some la)
    have h' := h.trans (ih ((h.isSome_eq left).trans hleft))
    rw [List.foldl_cons]
    convert h' using 1
    ext x
    simp

/-! What one right side adds. -/

/-- `done_or_error` and what is added for `left` by a part of a right side. -/
structure GetsFirst (g : FklGrammer) (left : Nat) (α : List (Symbol FklLalrItemLookAhead Nat))
    (more : Prop) (r : FirstRun) (out : FirstRun × FirstDone) : Prop where
  ne_error : out.2 ≠ .error
  none_iff : out.2 = .none ↔ StrFirst g.TermEps r.firsts.has α none
  adds : Adds {x | x.1 = left ∧ more ∧ StrFirst g.TermEps r.firsts.has α x.2} r out.1

section

variable {g : FklGrammer} {left : Nat} {α : List (Symbol FklLalrItemLookAhead Nat)}
  {r r₁ : FirstRun}

/-- The rest of the right side is read where it is all that is left, or follows what may be
empty. -/
theorem getsFirst_rest (rest : List FklGrammerSym)
    {F : FirstRun → FirstRun × FirstDone} (hα : rest = [] → α = [])
    (hF : ∀ r, (∀ nt, (r.firsts nt).isSome = (r₁.firsts nt).isSome) →
      GetsFirst g left α (rest ≠ []) r (F r))
    (hleft : (r₁.firsts left).isSome = true) :
    GetsFirst g left α True r₁ (F (r₁.addLast left (rest = []))) := by
  by_cases hrest : rest = []
  · have hadd := adds_add hleft none
    have hlast : r₁.addLast left (rest = []) = r₁.add left none := by
      simp [FirstRun.addLast, hrest]
    have h := hF (r₁.add left none) hadd.isSome_eq
    have hαnil := hα hrest
    subst hαnil
    rw [hlast]
    refine ⟨h.ne_error, by simpa using h.none_iff, ?_⟩
    convert hadd.trans h.adds using 1
    ext ⟨nt, o⟩
    simp [hrest]
  · have hlast : r₁.addLast left (rest = []) = r₁ := by simp [FirstRun.addLast, hrest]
    have h := hF r₁ fun _ => rfl
    rw [hlast]
    refine ⟨h.ne_error, h.none_iff, ?_⟩
    convert h.adds using 1
    ext ⟨nt, o⟩
    simp [hrest]

theorem getsFirst_cons {X : Symbol FklLalrItemLookAhead Nat} {e : Bool}
    (hr₁ : Adds {x | x.1 = left ∧ ∃ t, x.2 = some t ∧ SymFirst r.firsts.has X t} r r₁)
    (he : e = true ↔ SymEps g.TermEps r.firsts.has X) {out : FirstRun × FirstDone}
    (hout : GetsFirst g left α True r₁ out) :
    GetsFirst g left (X :: α) True r (if e = true then out else (r₁, .done)) := by
  have hback : ∀ o, StrFirst g.TermEps r₁.firsts.has α o → StrFirst g.TermEps r.firsts.has α o ∨
      ∃ t, o = some t ∧ SymFirst r.firsts.has X t := by
    intro o ho
    rw [hr₁.has_eq] at ho
    refine (ho.of_union (A := left) ?_).imp_right ?_
    · rintro ⟨nt, o⟩ ⟨rfl, t, rfl, _⟩
      exact ⟨t, rfl⟩
    · rintro ⟨t, rfl, _, s, hs, hX⟩
      cases hs
      exact ⟨t, rfl, hX⟩
  have hle : r.firsts.has ⊆ r₁.firsts.has := by
    rw [hr₁.has_eq]
    exact Set.subset_union_left
  by_cases hX : SymEps g.TermEps r.firsts.has X
  · rw [if_pos (he.mpr hX)]
    refine ⟨hout.ne_error, ?_, ?_⟩
    · rw [hout.none_iff, strFirst_cons_none]
      refine ⟨fun h => ⟨hX, ?_⟩, fun h => h.2.mono hle⟩
      refine (hback none h).resolve_right ?_
      rintro ⟨t, ht, _⟩
      cases ht
    · convert hr₁.trans hout.adds using 1
      ext ⟨nt, o⟩
      simp only [Set.mem_ofPred_eq, Set.mem_union, true_and]
      constructor
      · rintro ⟨hnt, ho⟩
        cases o with
        | none => exact Or.inr ⟨hnt, ho.2.mono hle⟩
        | some t =>
          rcases ho with ho | ho
          · exact Or.inl ⟨hnt, t, rfl, ho⟩
          · exact Or.inr ⟨hnt, ho.2.mono hle⟩
      · rintro (⟨hnt, t, rfl, ho⟩ | ⟨hnt, ho⟩)
        · exact ⟨hnt, Or.inl ho⟩
        · refine ⟨hnt, ?_⟩
          rcases hback o ho with ho' | ⟨t, rfl, hfirst⟩
          · cases o with
            | none => exact ⟨hX, ho'⟩
            | some t => exact Or.inr ⟨hX, ho'⟩
          · exact Or.inl hfirst
  · rw [if_neg (fun h => hX (he.mp h))]
    refine ⟨by simp, by simp [hX], ?_⟩
    convert hr₁ using 1
    ext ⟨nt, o⟩
    cases o <;> simp [hX]

end

/-! The symbols one by one. -/

namespace FklGrammer

variable {g : FklGrammer}

@[simp] theorem getFirstFromSyms_skip (left : Nat) (l rest : List FklGrammerSym) (r : FirstRun) :
    g.getFirstFromSyms left l.length (l ++ rest) r = g.getFirstFromSyms left 0 rest r := by
  induction l with
  | nil => rfl
  | cons s l ih => exact ih

@[simp] theorem rhsOf_skip (l rest : List FklGrammerSym) :
    g.rhsOf l.length (l ++ rest) = g.rhsOf 0 rest := by
  induction l with
  | nil => rfl
  | cons s l ih => exact ih

/-- The sets of the nonterminals in a right side are there. -/
def FirstsFor (r : FirstRun) (syms : List FklGrammerSym) : Prop :=
  ∀ nt, .nonterm nt ∈ syms → (r.firsts nt).isSome = true

theorem getsFirst_nil {left : Nat} {r : FirstRun} : GetsFirst g left [] False r (r, .none) where
  ne_error := by simp
  none_iff := by simp
  adds := by simpa using Adds.refl r

/-- A terminal is added, and what follows it is read when it may be empty. -/
theorem getsFirst_terminal {left : Nat} {r : FirstRun} (la : FklLalrItemLookAhead) {e : Bool}
    {α : List (Symbol FklLalrItemLookAhead Nat)} (hleft : (r.firsts left).isSome = true)
    (he : e = true ↔ g.TermEps la) {out : FirstRun × FirstDone}
    (hout : GetsFirst g left α True (r.add left (some la)) out) :
    GetsFirst g left (.terminal la :: α) True r
      (if e = true then out else (r.add left (some la), .done)) := by
  refine getsFirst_cons ?_ he hout
  convert adds_add hleft (some la) using 1
  ext ⟨nt, o⟩
  simp [SymFirst, eq_comm]

theorem FirstsFor.of_eq {r r' : FirstRun} {syms : List FklGrammerSym} (h : FirstsFor r syms)
    (hr : ∀ nt, (r'.firsts nt).isSome = (r.firsts nt).isSome) : FirstsFor r' syms :=
  fun nt hnt => (hr nt).trans (h nt hnt)

/-- A string that is empty is jumped over, another one ends the right side. -/
theorem getsFirst_string {left : Nat} {r : FirstRun} (la : FklLalrItemLookAhead) {z : Prop}
    [Decidable z] {rest : List FklGrammerSym} (hleft : (r.firsts left).isSome = true)
    (hla : ¬g.TermEps la)
    (ih : ∀ r', (∀ nt, (r'.firsts nt).isSome = (r.firsts nt).isSome) →
      GetsFirst g left (g.rhsOf 0 rest) (rest ≠ []) r' (g.getFirstFromSyms left 0 rest r')) :
    GetsFirst g left (if z then g.rhsOf 0 rest else .terminal la :: g.rhsOf 0 rest) True r
      (if z then g.getFirstFromSyms left 0 rest (r.addLast left (rest = []))
        else (r.add left (some la), .done)) := by
  by_cases hz : z
  · rw [if_pos hz, if_pos hz]
    exact getsFirst_rest _ (fun h => by subst h; rfl) ih hleft
  · have hadd := adds_add hleft (some la)
    rw [if_neg hz, if_neg hz]
    refine ⟨by simp, by simp [SymEps, hla], ?_⟩
    convert hadd using 1
    ext ⟨nt, o⟩
    cases o <;> simp [SymEps, SymFirst, hla, eq_comm]

theorem getFirstFromSyms_spec {left : Nat} {syms : List FklGrammerSym} (h : CompLaid syms)
    {r : FirstRun} (hleft : (r.firsts left).isSome = true) (hsyms : FirstsFor r syms) :
    GetsFirst g left (g.rhsOf 0 syms) (syms ≠ []) r (g.getFirstFromSyms left 0 syms r) := by
  induction h generalizing r with
  | nil => simpa [getFirstFromSyms, rhsOf] using getsFirst_nil
  | comp parts h ih =>
    rename_i syms
    have hadd := adds_add hleft (some (.comp parts))
    have hlen : (parts.map FklCompPart.sym ++ syms).length = parts.length ↔ syms = [] := by
      simp [List.length_eq_zero_iff]
    have hskip : g.getFirstFromSyms left parts.length (parts.map FklCompPart.sym ++ syms) =
        g.getFirstFromSyms left 0 syms := by
      funext r
      simpa using getFirstFromSyms_skip left (parts.map FklCompPart.sym) syms r
    have hrhs : g.rhsOf parts.length (parts.map FklCompPart.sym ++ syms) = g.rhsOf 0 syms := by
      simpa using rhsOf_skip (g := g) (parts.map FklCompPart.sym) syms
    have hrest := getsFirst_rest (g := g) (α := g.rhsOf 0 syms) syms
      (fun h => by subst h; rfl) (fun r' hr' => ih
        ((hr' left).trans ((hadd.isSome_eq left).trans hleft))
        (FirstsFor.of_eq (fun nt hnt => hsyms nt (by simp [hnt])) fun nt =>
          (hr' nt).trans (hadd.isSome_eq nt)))
      ((hadd.isSome_eq left).trans hleft)
    have h := getsFirst_terminal (.comp parts) hleft Iff.rfl hrest
    simpa [getFirstFromSyms, rhsOf, hskip, hrhs, hlen] using h
  | @sym s syms hs h ih =>
    have hrest : FirstsFor r syms := fun nt hnt => hsyms nt (by simp [hnt])
    have ihr : ∀ r', (∀ nt, (r'.firsts nt).isSome = (r.firsts nt).isSome) →
        GetsFirst g left (g.rhsOf 0 syms) (syms ≠ []) r' (g.getFirstFromSyms left 0 syms r') :=
      fun r' hr' => ih ((hr' left).trans hleft) (hrest.of_eq hr')
    have hpos : (s :: syms ≠ []) = True := by simp
    have hterm : ∀ la, GetsFirst g left (g.rhsOf 0 syms) True (r.add left (some la))
        (g.getFirstFromSyms left 0 syms
          ((r.add left (some la)).addLast left (syms = []))) := fun la => by
      have hadd := adds_add hleft (some la)
      exact getsFirst_rest _ (fun h => by subst h; rfl)
        (fun r' hr' => ihr r' fun nt => (hr' nt).trans (hadd.isSome_eq nt))
        ((hadd.isSome_eq left).trans hleft)
    rw [hpos]
    cases s with
    | builtin b => exact getsFirst_terminal _ hleft Iff.rfl (hterm _)
    | comp parts => exact absurd rfl (hs parts)
    | regex re => exact getsFirst_terminal _ hleft Iff.rfl (hterm _)
    | ignore =>
      have h := getsFirst_terminal (g := g) (e := true) .ignore hleft (by simp [TermEps])
        (hterm .ignore)
      rw [if_pos rfl] at h
      exact h
    | string str => exact getsFirst_string _ hleft (by simp [TermEps]) ihr
    | keyword str => exact getsFirst_string _ hleft (by simp [TermEps]) ihr
    | nonterm nt =>
      obtain ⟨item, hitem⟩ := Option.isSome_iff_exists.mp (hsyms nt (by simp))
      have hhas : ∀ o, (nt, o) ∈ r.firsts.has ↔ r.firsts.hasBool (nt, o) = true :=
        fun _ => Iff.rfl
      have hadd := adds_foldl item.first hleft
      have hr₁ := getsFirst_rest (g := g) (α := g.rhsOf 0 syms) syms
        (fun h => by subst h; rfl)
        (fun r' hr' => ihr r' fun nt => (hr' nt).trans (hadd.isSome_eq nt))
        ((hadd.isSome_eq left).trans hleft)
      have h := getsFirst_cons (X := .nonterminal nt) (e := item.hasEpsilon) (r := r) ?_ ?_ hr₁
      · simpa [getFirstFromSyms, rhsOf, hitem] using h
      · convert hadd using 1
        ext ⟨nt', o⟩
        simp only [Set.mem_ofPred_eq, SymFirst, hhas, FklFirstSets.hasBool, hitem,
          decide_eq_true_eq, Prod.mk.injEq]
        constructor
        · rintro ⟨hnt', t, ho, ht⟩
          exact ⟨t, ht, hnt', ho⟩
        · rintro ⟨t, ht, hnt', ho⟩
          exact ⟨hnt', t, ho, ht⟩
      · simp [SymEps, hhas, FklFirstSets.hasBool, hitem]

/-! The rounds. -/

/-- What a part of a round adds is within the sets that obey the rules, and where nothing is new
the rules are obeyed. -/
structure Rounds (rules : Set (Nat × Option FklLalrItemLookAhead) → Prop)
    (r r' : FirstRun) (s : Set (Nat × Option FklLalrItemLookAhead)) : Prop where
  adds : Adds s r r'
  sound : ∀ K, r.firsts.has ⊆ K → rules K → s ⊆ K
  complete : s ⊆ r.firsts.has → rules r.firsts.has

theorem Rounds.has_eq {rules : Set (Nat × Option FklLalrItemLookAhead) → Prop}
    {r r' : FirstRun} {s : Set (Nat × Option FklLalrItemLookAhead)} (h : Rounds rules r r' s)
    (hs : s ⊆ r.firsts.has) : r'.firsts.has = r.firsts.has := by
  rw [h.adds.has_eq, Set.union_eq_self_of_subset_right hs]

theorem Rounds.trans {P Q : Set (Nat × Option FklLalrItemLookAhead) → Prop}
    {r r' r'' : FirstRun} {s t : Set (Nat × Option FklLalrItemLookAhead)} (h : Rounds P r r' s)
    (h' : Rounds Q r' r'' t) : Rounds (fun K => P K ∧ Q K) r r'' (s ∪ t) where
  adds := h.adds.trans h'.adds
  sound K hr hK := by
    have hs := h.sound K hr hK.1
    refine Set.union_subset hs (h'.sound K ?_ hK.2)
    rw [h.adds.has_eq]
    exact Set.union_subset hr hs
  complete hst := by
    obtain ⟨hs, ht⟩ := Set.union_subset_iff.mp hst
    have heq := h.has_eq hs
    have hQ := h'.complete (heq ▸ ht)
    exact ⟨h.complete hs, heq ▸ hQ⟩

theorem Rounds.congr {P Q : Set (Nat × Option FklLalrItemLookAhead) → Prop} {r r' : FirstRun}
    {s : Set (Nat × Option FklLalrItemLookAhead)} (h : Rounds P r r' s)
    (hPQ : ∀ K, r.firsts.has ⊆ K → (P K ↔ Q K)) : Rounds Q r r' s where
  adds := h.adds
  sound K hr hK := h.sound K hr ((hPQ K hr).mpr hK)
  complete hs := (hPQ _ le_rfl).mp (h.complete hs)

theorem rounds_of_getsFirst {left : Nat} {α : List (Symbol FklLalrItemLookAhead Nat)}
    {r : FirstRun} {out : FirstRun × FirstDone} (h : GetsFirst g left α True r out) :
    Rounds (fun K => ∀ o, StrFirst g.TermEps K α o → (left, o) ∈ K) r out.1
      {x | x.1 = left ∧ True ∧ StrFirst g.TermEps r.firsts.has α x.2} where
  adds := h.adds
  sound K hr hK := by
    rintro ⟨nt, o⟩ ⟨rfl, _, ho⟩
    exact hK o (ho.mono hr)
  complete hs o ho := hs ⟨rfl, trivial, ho⟩

theorem firstOfProds_spec {left : Nat} {prods : List FklGrammerProduction} {r : FirstRun}
    (hleft : (r.firsts left).isSome = true) (hprods : ∀ p ∈ prods, FirstsFor r p.syms) :
    ∃ r' s, g.firstOfProds left prods r = some r' ∧ Rounds (fun K => InOrderClosed g.TermEps K left
      (prods.map fun p => g.rhsOf 0 p.syms)) r r' s := by
  induction prods generalizing r with
  | nil => exact ⟨r, ∅, rfl, Adds.refl r, by simp, fun _ => trivial⟩
  | cons p ps ih =>
    have hps : ∀ r', (∀ nt, (r'.firsts nt).isSome = (r.firsts nt).isSome) →
        ∃ r'' s, g.firstOfProds left ps r' = some r'' ∧ Rounds (fun K =>
          InOrderClosed g.TermEps K left (ps.map fun p => g.rhsOf 0 p.syms)) r' r'' s :=
      fun r' hr' => ih ((hr' left).trans hleft) fun q hq => (hprods q (by simp [hq])).of_eq hr'
    by_cases hnil : p.syms = []
    · -- an empty production sets the flag
      have hadd := adds_add hleft none
      obtain ⟨r', s, heq, hr⟩ := hps _ hadd.isSome_eq
      have hfirst : Rounds (fun K => (left, none) ∈ K) r (r.add left none) {(left, none)} :=
        ⟨hadd, fun K _ hK => by simpa using hK, fun h => by simpa using h⟩
      refine ⟨r', _, by simp [firstOfProds, hnil, heq], (hfirst.trans hr).congr fun K _ => ?_⟩
      simp [InOrderClosed, hnil, rhsOf]
    · have hget := getFirstFromSyms_spec (g := g) p.laid hleft (hprods p (by simp))
      generalize hout : g.getFirstFromSyms left 0 p.syms r = out at hget
      obtain ⟨r₁, d⟩ := out
      rw [show (p.syms ≠ []) = True from eq_true hnil] at hget
      have hfirst := rounds_of_getsFirst hget
      cases d with
      | error => exact absurd rfl hget.ne_error
      | done =>
        -- the loop is left; the right side is not empty in `r`
        have hne : ¬StrFirst g.TermEps r.firsts.has (g.rhsOf 0 p.syms) none :=
          fun h => by simpa using hget.none_iff.mpr h
        refine ⟨r₁, _, by simp [firstOfProds, hnil, hout], hfirst.adds, ?_, ?_⟩
        · exact fun K hr hK => hfirst.sound K hr hK.1
        · exact fun hs => ⟨hfirst.complete hs, fun h => absurd h hne⟩
      | none =>
        obtain ⟨r', s, heq, hr⟩ := hps r₁ hget.adds.isSome_eq
        have hnull := hget.none_iff.mp rfl
        refine ⟨r', _, by simp [firstOfProds, hnil, hout, heq], (hfirst.trans hr).congr ?_⟩
        intro K hK
        simp [InOrderClosed, hnull.mono hK]

theorem firstPass_spec {es : List (Nat × List FklGrammerProduction)} {r : FirstRun}
    (hes : ∀ e ∈ es, ¬isSqNt e.1 → (r.firsts e.1).isSome = true ∧ ∀ p ∈ e.2, FirstsFor r p.syms) :
    ∃ r' s, g.firstPass es r = some r' ∧ Rounds (fun K => ∀ e ∈ es, ¬isSqNt e.1 →
      InOrderClosed g.TermEps K e.1 (e.2.map fun p => g.rhsOf 0 p.syms)) r r' s := by
  induction es generalizing r with
  | nil => exact ⟨r, ∅, rfl, Adds.refl r, by simp, by simp⟩
  | cons e es ih =>
    by_cases he : isSqNt e.1
    · obtain ⟨r', s, heq, hr⟩ := ih fun e' he' => hes e' (by simp [he'])
      exact ⟨r', s, by simp [firstPass, he, heq], hr.congr fun K _ => by simp [he]⟩
    · obtain ⟨hleft, hprods⟩ := hes e (by simp) he
      obtain ⟨r₁, s, heq, hr⟩ := firstOfProds_spec (g := g) hleft hprods
      obtain ⟨r', s', heq', hr'⟩ := ih fun e' he' hsq =>
        ⟨(hr.adds.isSome_eq _).trans (hes e' (by simp [he']) hsq).1,
          fun p hp => ((hes e' (by simp [he']) hsq).2 p hp).of_eq hr.adds.isSome_eq⟩
      exact ⟨r', _, by simp [firstPass, he, heq, heq'],
        (hr.trans hr').congr fun K _ => by simp [he]⟩

/-! The loop. -/

theorem inOrderOp_rhss_le_iff {K : Set (Nat × Option FklLalrItemLookAhead)} :
    inOrderOp g.TermEps g.rhss K ≤ K ↔ ∀ e ∈ g.prods.entries, ¬isSqNt e.1 →
      InOrderClosed g.TermEps K e.1 (e.2.map fun p => g.rhsOf 0 p.syms) := by
  rw [inOrderOp_le_iff]
  constructor
  · rintro h ⟨nt, ps⟩ he hsq
    simpa [rhss, hsq, productions_of_mem he] using h nt
  · intro h nt
    by_cases hsq : isSqNt nt
    · simp [rhss, hsq, InOrderClosed]
    · cases hps : g.fklGetProductions nt with
      | nil => simp [rhss, hsq, hps, InOrderClosed]
      | cons p ps =>
        obtain ⟨qs, hqs, _⟩ := mem_of_productions (show p ∈ g.fklGetProductions nt by simp [hps])
        have hnt := h _ hqs hsq
        simpa [rhss, hsq, productions_of_mem hqs] using hnt

theorem mem_rhss {nt : Nat} {α : List (Symbol FklLalrItemLookAhead Nat)} (h : α ∈ g.rhss nt) :
    ∃ ps, (nt, ps) ∈ g.prods.entries ∧ ∃ p ∈ ps, g.rhsOf 0 p.syms = α := by
  by_cases hsq : isSqNt nt
  · simp [rhss, hsq] at h
  · simp only [rhss, hsq, if_false, List.mem_map] at h
    obtain ⟨p, hp, hα⟩ := h
    obtain ⟨ps, hps, hmem⟩ := mem_of_productions hp
    exact ⟨ps, hps, p, hmem, hα⟩

/-- The terminals of the grammar. -/
def firstTerminals (g : FklGrammer) : List FklLalrItemLookAhead :=
  g.prods.entries.flatMap fun e => e.2.flatMap fun p => (g.rhsOf 0 p.syms).filterMap fun
    | .terminal t => some t
    | .nonterminal _ => none

/-- What the sets may come to hold. -/
def firstCandidates (g : FklGrammer) : List (Nat × Option FklLalrItemLookAhead) :=
  (g.prods.entries.map Prod.fst).product (none :: g.firstTerminals.map some)

theorem mem_firstTerminals {nt : Nat} {α : List (Symbol FklLalrItemLookAhead Nat)}
    {t : FklLalrItemLookAhead} (h : α ∈ g.rhss nt) (ht : .terminal t ∈ α) :
    t ∈ g.firstTerminals := by
  obtain ⟨ps, hps, p, hp, rfl⟩ := mem_rhss h
  simp only [firstTerminals, List.mem_flatMap, List.mem_filterMap]
  exact ⟨_, hps, p, hp, _, ht, rfl⟩

theorem lfp_subset_firstCandidates :
    (inOrderOp g.TermEps g.rhss).lfp ⊆ {x | x ∈ g.firstCandidates} := by
  refine OrderHom.lfp_le _ ?_
  rintro ⟨nt, o⟩ ⟨l, α, r, hα, _, ho⟩
  have hmem : α ∈ g.rhss nt := by simp [hα]
  obtain ⟨ps, hps, _⟩ := mem_rhss hmem
  have hkey : nt ∈ g.prods.entries.map Prod.fst := List.mem_map.mpr ⟨_, hps, rfl⟩
  refine List.pair_mem_product.mpr ⟨hkey, ?_⟩
  cases o with
  | none => simp
  | some t =>
    have ht : t ∈ g.firstTerminals := by
      rcases ho.mem_or_held with ht | ⟨B, hB⟩
      · exact mem_firstTerminals hmem ht
      · simpa using (List.pair_mem_product.mp hB).2
    simpa using ht

/-- The sets hold nothing that cannot be found in order, and after a round without a change
everything. -/
structure FirstInv (g : FklGrammer) (n : Nat) (r : FirstRun) : Prop where
  isSome_eq : ∀ nt, (r.firsts nt).isSome = (g.emptyFirsts nt).isSome
  sound : r.firsts.has ⊆ (inOrderOp g.TermEps g.rhss).lfp
  closed : r.change = false → inOrderOp g.TermEps g.rhss r.firsts.has ≤ r.firsts.has
  variant : g.firstCandidates.countP (fun x => !r.firsts.hasBool x) + r.change.toNat ≤ n

theorem emptyFirsts_isSome {nt : Nat} :
    (g.emptyFirsts nt).isSome = true ↔ ¬isSqNt nt ∧ nt ∈ g.prods.entries.map Prod.fst := by
  unfold emptyFirsts
  split_ifs with h <;> simpa using h

theorem has_emptyFirsts : g.emptyFirsts.has = ∅ := by
  ext ⟨nt, o⟩
  change FklFirstSets.hasBool _ _ = true ↔ _
  unfold FklFirstSets.hasBool emptyFirsts
  by_cases h : ¬isSqNt nt ∧ nt ∈ g.prods.entries.map (·.1)
  · cases o <;> simp [h]
  · rw [if_neg h]
    simp

theorem firstInv_step (hg : g.Defined) {n : Nat} {r : FirstRun} (hr : FirstInv g n r)
    (hc : r.change = true) : ∃ r' m, g.firstPass g.prods.entries ⟨r.firsts, false⟩ = some r' ∧
      m < n ∧ FirstInv g m r' := by
  have hes : ∀ e ∈ g.prods.entries, ¬isSqNt e.1 → (r.firsts e.1).isSome = true ∧
      ∀ p ∈ e.2, FirstsFor ⟨r.firsts, false⟩ p.syms := by
    intro e he hsq
    refine ⟨?_, fun p hp nt hnt => ?_⟩
    · rw [hr.isSome_eq, emptyFirsts_isSome]
      exact ⟨hsq, List.mem_map_of_mem he⟩
    · obtain ⟨hnsq, ps, hps⟩ := hg e he p hp nt hnt
      refine (hr.isSome_eq nt).trans (emptyFirsts_isSome.mpr ⟨hnsq, ?_⟩)
      exact List.mem_map.mpr ⟨_, hps, rfl⟩
  obtain ⟨r', s, heq, hround⟩ := firstPass_spec (g := g) (r := ⟨r.firsts, false⟩) hes
  have hround := hround.congr fun K _ => inOrderOp_rhss_le_iff.symm
  have hsub : s ⊆ (inOrderOp g.TermEps g.rhss).lfp :=
    hround.sound _ hr.sound (OrderHom.map_lfp _).le
  have hsound : r'.firsts.has ⊆ (inOrderOp g.TermEps g.rhss).lfp := by
    rw [hround.adds.has_eq]
    exact Set.union_subset hr.sound hsub
  have hchange : r'.change = true ↔ ¬s ⊆ r.firsts.has := by simpa using hround.adds.change_iff
  have hisSome : ∀ nt, (r'.firsts nt).isSome = (g.emptyFirsts nt).isSome :=
    fun nt => (hround.adds.isSome_eq nt).trans (hr.isSome_eq nt)
  have hv := hr.variant
  refine ⟨r', _, heq, ?_, hisSome, hsound, fun hc' => ?_, le_rfl⟩
  · have hmono : ∀ x, (!r'.firsts.hasBool x) = true → (!r.firsts.hasBool x) = true := by
      intro x hx
      have hle : x ∈ r.firsts.has → x ∈ r'.firsts.has := fun h => by
        rw [hround.adds.has_eq]
        exact Or.inl h
      simp only [Bool.not_eq_true', ← Bool.not_eq_true] at hx ⊢
      exact fun h => hx (hle h)
    cases hc' : r'.change with
    | false =>
      have hle := List.countP_mono_left (l := g.firstCandidates) fun x _ => hmono x
      simp only [hc, Bool.toNat_true, Bool.toNat_false] at hv ⊢
      omega
    | true =>
      -- something new is held
      obtain ⟨x, hx, hnew⟩ := Set.not_subset.mp (hchange.mp hc')
      have hheld : r'.firsts.hasBool x = true := by
        have : x ∈ r'.firsts.has := by
          rw [hround.adds.has_eq]
          exact Or.inr hx
        exact this
      have hlt := countP_lt_countP (p := fun x => !r'.firsts.hasBool x)
        (q := fun x => !r.firsts.hasBool x) (lfp_subset_firstCandidates (hsub hx))
        (by simp [hheld]) (by simp [Bool.eq_false_iff.mpr hnew]) fun x _ => hmono x
      simp only [hc, Bool.toNat_true] at hv ⊢
      omega
  · have hs : s ⊆ r.firsts.has := by
      by_contra hs
      simp [hchange.mpr hs] at hc'
    have hhas : r'.firsts.has = r.firsts.has := hround.has_eq hs
    rw [hhas]
    exact hround.complete hs

theorem computeAllFirstSet_has (hg : g.Defined) : ∃ firsts n,
    (∀ fuel, n < fuel → g.computeAllFirstSet fuel = some firsts) ∧
      firsts.has = (inOrderOp g.TermEps g.rhss).lfp ∧
      ∀ nt, (firsts nt).isSome = (g.emptyFirsts nt).isSome := by
  obtain ⟨n, hstart⟩ : ∃ n, FirstInv g n ⟨g.emptyFirsts, true⟩ :=
    ⟨_, fun _ => rfl, by simp [has_emptyFirsts], by simp, le_rfl⟩
  obtain ⟨r, m, hr, hc, hrun⟩ := LoopsTo.total (FirstInv g)
    (fun n r hr hc => firstInv_step hg hr hc) hstart
  refine ⟨r.firsts, n, fun fuel hfuel => by simp [computeAllFirstSet, hrun fuel hfuel], ?_,
    hr.isSome_eq⟩
  exact le_antisymm hr.sound (OrderHom.lfp_le _ (hr.closed hc))

/-- The sets are those of the textbook exactly when each terminal, and the empty string, is found
with productions that follow only such as may be empty. -/
theorem computeAllFirstSet_iff (hg : g.Defined) : ∃ firsts n,
    (∀ fuel, n < fuel → g.computeAllFirstSet fuel = some firsts) ∧
      ((∀ nt o, ¬isSqNt nt → nt ∈ g.prods.entries.map Prod.fst →
          ((nt, o) ∈ firsts.has ↔ DerivesFirst g.TermEps g.rhss [.nonterminal nt] o)) ↔
        (firstOp g.TermEps g.rhss).lfp ≤ (inOrderOp g.TermEps g.rhss).lfp) := by
  obtain ⟨firsts, n, hrun, hhas, -⟩ := computeAllFirstSet_has hg
  refine ⟨firsts, n, hrun, ?_⟩
  rw [hhas]
  constructor
  · rintro h ⟨nt, o⟩ hx
    have hx' : (nt, o) ∈ firstOp g.TermEps g.rhss (firstOp g.TermEps g.rhss).lfp := by
      rwa [OrderHom.map_lfp]
    obtain ⟨α, hα, _⟩ := hx'
    obtain ⟨ps, hps, _⟩ := mem_rhss hα
    have hsq : ¬isSqNt nt := fun hsq => by simp [rhss, hsq] at hα
    exact (h nt o hsq (List.mem_map.mpr ⟨_, hps, rfl⟩)).mpr ((mem_lfp_firstOp _).mp hx)
  · intro h nt o _ _
    rw [← mem_lfp_firstOp (nt, o)]
    exact ⟨fun hx => lfp_inOrderOp_le _ _ hx, fun hx => h hx⟩

/-- Two alternatives, a string each. -/
def twoStrings : FklGrammer where
  prods := ⟨[(1, [⟨1, [.string 0], laid_string0⟩, ⟨1, [.string 1], laid_string1⟩])],
    by simp⟩
  left_eq := by simp
  str s := [97 + UInt8.ofNat s]
  totalsize _ := 0
  isRegexMatchEpsilon _ := false
  isBuiltinTerminalMatchEpsilon _ := false

theorem twoStrings_defined : twoStrings.Defined := by
  simp [Defined, twoStrings]

theorem twoStrings_firsts : twoStrings.Defined ∧ ∃ firsts n,
    (∀ fuel, n < fuel → twoStrings.computeAllFirstSet fuel = some firsts) ∧
      ((∀ nt o, ¬isSqNt nt → nt ∈ twoStrings.prods.entries.map Prod.fst →
          ((nt, o) ∈ firsts.has ↔
            DerivesFirst twoStrings.TermEps twoStrings.rhss [.nonterminal nt] o)) ↔
        (firstOp twoStrings.TermEps twoStrings.rhss).lfp ≤
          (inOrderOp twoStrings.TermEps twoStrings.rhss).lfp) :=
  ⟨twoStrings_defined, computeAllFirstSet_iff twoStrings_defined⟩

/-- The second alternative is not looked at. -/
theorem twoStrings_misses :
    (∀ n, (twoStrings.computeAllFirstSet (n + 3)).map (fun firsts => firsts 1) =
      some (some ⟨[.string 0], false⟩)) ∧
    DerivesFirst twoStrings.TermEps twoStrings.rhss [.nonterminal 1] (some (.string 1)) := by
  have h : [.terminal (.string 1)] ∈ twoStrings.rhss 1 := by
    simp [rhss, isSqNt, fklGetProductions, twoStrings, rhsOf]
  exact ⟨fun n => rfl, [], Relation.ReflTransGen.single (CfgStep.prod [] [] h)⟩

end FklGrammer

end FakeLisp
