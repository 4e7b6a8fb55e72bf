import FakeLisp.PatternCover

/-!
The list of macros of one head symbol: more specific patterns are meant to come first, since
the first that matches a call is expanded.
-/

namespace FakeLisp

open Nast

variable {B : Type}

structure FklVMvalueCgMacro (B : Type) where
  pattern : Nast
  proc : B

/-- The loop of `addCompilerMacro`: the state of the last macro it looked at, the macros before
the link that it stopped at and those from there on. -/
def coverWalk (pattern : Nast) : FklPatternCover → List (FklVMvalueCgMacro B) →
    FklPatternCover × List (FklVMvalueCgMacro B) × List (FklVMvalueCgMacro B)
  | state, [] => (state, [], [])
  | _, cur :: rest =>
    let state := fklPatternCoverState cur.pattern pattern
    if state = .equal ∨ state = .cover then (state, [], cur :: rest)
    else
      let (state, pre, post) := coverWalk pattern state rest
      (state, cur :: pre, post)

def addCompilerMacro (noReplace : Bool) (list : List (FklVMvalueCgMacro B))
    (m : FklVMvalueCgMacro B) : List (FklVMvalueCgMacro B) :=
  let (state, pre, post) := coverWalk m.pattern .notEqual list
  match state with
  | .notEqual => m :: list
  | .equal => if noReplace then list else pre ++ m :: post.tail
  | .beCover | .cover => pre ++ m :: post

/-- The list of one library added to that of one map. -/
def importMacroList (noReplace : Bool) (macros list : List (FklVMvalueCgMacro B)) :
    List (FklVMvalueCgMacro B) :=
  list.foldl (addCompilerMacro noReplace) macros

def findInMacros (head : List UInt8) (exp : Nast) (list : List (FklVMvalueCgMacro B)) :
    Option (FklVMvalueCgMacro B × FklPmatchHashMap) :=
  list.findSome? fun cur =>
    match fklPatternMatch1 head cur.pattern exp (some .empty) with
    | (true, some pht) => some (cur, pht)
    | _ => none

/-- The scopes from the innermost to the outermost, each a map from head symbols. -/
def findMacro (exp : Nast) (scopes : List (List UInt8 → List (FklVMvalueCgMacro B))) :
    Option (FklVMvalueCgMacro B × FklPmatchHashMap) :=
  match exp with
  | .pair (.atom (.sym head)) rest =>
    scopes.findSome? fun macros => findInMacros head rest (macros head)
  | _ => none

/-! Histories of one list. -/

inductive MacroOp (B : Type) where
  | define (m : FklVMvalueCgMacro B)
  | importList (noReplace : Bool) (list : List (FklVMvalueCgMacro B))

def MacroOp.run (list : List (FklVMvalueCgMacro B)) : MacroOp B → List (FklVMvalueCgMacro B)
  | .define m => addCompilerMacro false list m
  | .importList noReplace list' => importMacroList noReplace list list'

def macrosAfter (ops : List (MacroOp B)) : List (FklVMvalueCgMacro B) :=
  ops.foldl MacroOp.run []

/-- The macros that an operation adds, one after the other. -/
def MacroOp.adds : MacroOp B → List (Bool × FklVMvalueCgMacro B)
  | .define m => [(false, m)]
  | .importList noReplace list => list.map fun m => (noReplace, m)

/-- The patterns defined by some operations. -/
def definedPatterns (ops : List (MacroOp B)) : List Nast :=
  (ops.flatMap MacroOp.adds).map fun a => a.2.pattern

def addAll (list : List (FklVMvalueCgMacro B)) (adds : List (Bool × FklVMvalueCgMacro B)) :
    List (FklVMvalueCgMacro B) :=
  adds.foldl (fun l a => addCompilerMacro a.1 l a.2) list

theorem addAll_adds (list : List (FklVMvalueCgMacro B)) (op : MacroOp B) :
    addAll list op.adds = op.run list := by
  cases op with
  | define m => rfl
  | importList noReplace list' =>
    simp [addAll, MacroOp.adds, MacroOp.run, importMacroList, List.foldl_map]

theorem macrosAfter_eq (ops : List (MacroOp B)) :
    macrosAfter ops = addAll [] (ops.flatMap MacroOp.adds) := by
  suffices h : ∀ list : List (FklVMvalueCgMacro B),
      ops.foldl MacroOp.run list = addAll list (ops.flatMap MacroOp.adds) from h []
  induction ops with
  | nil => exact fun list => rfl
  | cons op ops ih =>
    intro list
    rw [List.foldl_cons, ih, List.flatMap_cons, ← addAll_adds]
    simp [addAll, List.foldl_append]

/-! The order of the list. -/

variable {head : List UInt8}

/-- Every expression matched by `q` is matched by `p`. -/
def Covers (head : List UInt8) (p q : Nast) : Prop :=
  ∀ e, (fklPatternMatch1 head q e none).1 = true → (fklPatternMatch1 head p e none).1 = true

theorem Covers.refl (p : Nast) : Covers head p p := fun _ h => h

theorem Covers.trans {p q r : Nast} (h : Covers head p q) (h' : Covers head q r) :
    Covers head p r := fun e he => h e (h' e he)

def StrictlyCovers (head : List UInt8) (p q : Nast) : Prop :=
  Covers head p q ∧ ¬Covers head q p

/-- `fklPatternCoverState` is right about two patterns. -/
structure CoverDecided (head : List UInt8) (p q : Nast) : Prop where
  equal : fklPatternCoverState p q = .equal ↔ Covers head p q ∧ Covers head q p
  cover : fklPatternCoverState p q = .cover ↔ StrictlyCovers head p q
  beCover : fklPatternCoverState p q = .beCover ↔ StrictlyCovers head q p

/-- No pattern comes before one that it strictly covers, and no two are equal. -/
structure MacrosOrdered (head : List UInt8) (list : List (FklVMvalueCgMacro B)) : Prop where
  specific : list.Pairwise fun m m' => ¬StrictlyCovers head m.pattern m'.pattern
  distinct : list.Pairwise fun m m' =>
    ¬(Covers head m.pattern m'.pattern ∧ Covers head m'.pattern m.pattern)

theorem macrosOrdered_iff (list : List (FklVMvalueCgMacro B)) :
    MacrosOrdered head list ↔ list.Pairwise fun m m' => ¬Covers head m.pattern m'.pattern := by
  constructor
  · rintro ⟨hs, hd⟩
    exact (hs.and hd).imp fun ⟨h, h'⟩ hc => h ⟨hc, fun hc' => h' ⟨hc, hc'⟩⟩
  · intro h
    exact ⟨h.imp fun hn hs => hn hs.1, h.imp fun hn hb => hn hb.1⟩

/-- A new pattern that nothing in the list covers, and that covers something in it, covers the
last one. -/
def Placeable (head : List UInt8) (list : List (FklVMvalueCgMacro B)) (q : Nast) : Prop :=
  (∃ m ∈ list, Covers head m.pattern q) ∨
    (∃ m ∈ list.getLast?, Covers head q m.pattern) ∨ ∀ m ∈ list, ¬Covers head q m.pattern

/-- What `addCompilerMacro` does. -/
inductive Added (head : List UInt8) (list : List (FklVMvalueCgMacro B))
    (m : FklVMvalueCgMacro B) : List (FklVMvalueCgMacro B) → Prop where
  | kept (cur) (hmem : cur ∈ list) (hc : Covers head cur.pattern m.pattern)
      (hc' : Covers head m.pattern cur.pattern) : Added head list m list
  | replaced (pre cur rest) (hlist : list = pre ++ cur :: rest)
      (hc : Covers head cur.pattern m.pattern) (hc' : Covers head m.pattern cur.pattern) :
      Added head list m (pre ++ m :: rest)
  | before (pre cur rest) (hlist : list = pre ++ cur :: rest)
      (hpre : ∀ m' ∈ pre, ¬Covers head m'.pattern m.pattern)
      (hc : StrictlyCovers head cur.pattern m.pattern) :
      Added head list m (pre ++ m :: cur :: rest)
  | last (hnone : ∀ m' ∈ list, ¬Covers head m'.pattern m.pattern)
      (hlast : ∃ m' ∈ list.getLast?, Covers head m.pattern m'.pattern) :
      Added head list m (list ++ [m])
  | first (hnone : ∀ m' ∈ list, ¬Covers head m'.pattern m.pattern)
      (hlast : ∀ m' ∈ list.getLast?, ¬Covers head m.pattern m'.pattern) :
      Added head list m (m :: list)

theorem CoverDecided.covers_iff {p q : Nast} (h : CoverDecided head p q) :
    Covers head p q ↔ fklPatternCoverState p q = .equal ∨ fklPatternCoverState p q = .cover := by
  rw [h.equal, h.cover]
  constructor
  · intro hc
    by_cases hc' : Covers head q p
    · exact Or.inl ⟨hc, hc'⟩
    · exact Or.inr ⟨hc, hc'⟩
  · rintro (hc | hc) <;> exact hc.1

section

variable {m : FklVMvalueCgMacro B} {list : List (FklVMvalueCgMacro B)}

theorem coverWalk_found {pre rest : List (FklVMvalueCgMacro B)} {cur : FklVMvalueCgMacro B}
    (hd : ∀ m' ∈ pre ++ cur :: rest, CoverDecided head m'.pattern m.pattern)
    (hpre : ∀ m' ∈ pre, ¬Covers head m'.pattern m.pattern)
    (hcur : Covers head cur.pattern m.pattern) (state : FklPatternCover) :
    coverWalk m.pattern state (pre ++ cur :: rest) =
      (fklPatternCoverState cur.pattern m.pattern, pre, cur :: rest) := by
  induction pre generalizing state with
  | nil =>
    have hstop := (hd cur (by simp)).covers_iff.mp hcur
    simp [coverWalk, hstop]
  | cons m' pre ih =>
    have hstop := mt (hd m' (by simp)).covers_iff.mpr (hpre m' (by simp))
    have hrest := ih (fun m'' h => hd m'' (by simp_all)) (fun m'' h => hpre m'' (by simp [h]))
    simp [coverWalk, hstop, hrest]

theorem coverWalk_none (hd : ∀ m' ∈ list, CoverDecided head m'.pattern m.pattern)
    (hnone : ∀ m' ∈ list, ¬Covers head m'.pattern m.pattern) (state : FklPatternCover) :
    coverWalk m.pattern state list =
      ((list.getLast?.map fun m' => fklPatternCoverState m'.pattern m.pattern).getD state,
        list, []) := by
  induction list generalizing state with
  | nil => simp [coverWalk]
  | cons m' list ih =>
    have hstop := mt (hd m' (by simp)).covers_iff.mpr (hnone m' (by simp))
    have hrest := ih (fun m'' h => hd m'' (by simp [h])) fun m'' h => hnone m'' (by simp [h])
    rw [coverWalk, if_neg hstop, hrest]
    cases list with
    | nil => rfl
    | cons m'' list =>
      rw [List.getLast?_cons_cons, List.getLast?_eq_getLast_of_ne_nil (List.cons_ne_nil m'' list)]
      rfl

/-- The first macro that covers the new one, if there is one. -/
theorem exists_first_covering (head : List UInt8) (list : List (FklVMvalueCgMacro B)) (q : Nast) :
    (∃ pre cur rest, list = pre ++ cur :: rest ∧ (∀ m' ∈ pre, ¬Covers head m'.pattern q) ∧
      Covers head cur.pattern q) ∨ ∀ m' ∈ list, ¬Covers head m'.pattern q := by
  induction list with
  | nil => exact Or.inr (by simp)
  | cons m' list ih =>
    by_cases hm : Covers head m'.pattern q
    · exact Or.inl ⟨[], m', list, rfl, by simp, hm⟩
    · rcases ih with ⟨pre, cur, rest, rfl, hpre, hcur⟩ | hnone
      · exact Or.inl ⟨m' :: pre, cur, rest, rfl, by simpa using ⟨hm, hpre⟩, hcur⟩
      · exact Or.inr (by simpa using ⟨hm, hnone⟩)

theorem added_addCompilerMacro (noReplace : Bool)
    (hd : ∀ m' ∈ list, CoverDecided head m'.pattern m.pattern) :
    Added head list m (addCompilerMacro noReplace list m) := by
  rcases exists_first_covering head list m.pattern with ⟨pre, cur, rest, rfl, hpre, hcur⟩ | hnone
  · have hdec := hd cur (by simp)
    have hwalk := coverWalk_found hd hpre hcur .notEqual
    by_cases hback : Covers head m.pattern cur.pattern
    · have hstate := hdec.equal.mpr ⟨hcur, hback⟩
      cases noReplace with
      | true =>
        simp only [addCompilerMacro, hwalk, hstate, if_true]
        exact Added.kept cur (by simp) hcur hback
      | false =>
        simp only [addCompilerMacro, hwalk, hstate, Bool.false_eq_true, if_false, List.tail_cons]
        exact Added.replaced pre cur rest rfl hcur hback
    · have hstate := hdec.cover.mpr ⟨hcur, hback⟩
      simp only [addCompilerMacro, hwalk, hstate]
      exact Added.before pre cur rest rfl hpre ⟨hcur, hback⟩
  · have hwalk := coverWalk_none hd hnone .notEqual
    cases hlast : list.getLast? with
    | none =>
      simp only [addCompilerMacro, hwalk, hlast, Option.map_none, Option.getD_none]
      exact Added.first hnone (by simp [hlast])
    | some m' =>
      have hmem := List.mem_of_getLast? hlast
      have hdec := hd m' hmem
      have hnot := hnone m' hmem
      simp only [addCompilerMacro, hwalk, hlast, Option.map_some, Option.getD_some]
      by_cases hback : Covers head m.pattern m'.pattern
      · rw [hdec.beCover.mpr ⟨hback, hnot⟩]
        exact Added.last hnone ⟨m', hlast, hback⟩
      · have hstate : fklPatternCoverState m'.pattern m.pattern = .notEqual := by
          cases hs : fklPatternCoverState m'.pattern m.pattern with
          | notEqual => rfl
          | cover => exact absurd (hdec.cover.mp hs).1 hnot
          | beCover => exact absurd (hdec.beCover.mp hs).1 hback
          | equal => exact absurd (hdec.equal.mp hs).1 hnot
        rw [hstate]
        exact Added.first hnone (by simpa [hlast] using hback)

/-! One step. -/

theorem Added.ordered {list' : List (FklVMvalueCgMacro B)} (h : Added head list m list')
    (ho : list.Pairwise fun a b => ¬Covers head a.pattern b.pattern)
    (hp : Placeable head list m.pattern) :
    list'.Pairwise fun a b => ¬Covers head a.pattern b.pattern := by
  cases h with
  | kept cur hmem hc hc' => exact ho
  | replaced pre cur rest hlist hc hc' =>
    subst hlist
    rw [List.pairwise_append, List.pairwise_cons] at ho ⊢
    obtain ⟨hpre, ⟨hcur, hrest⟩, hcross⟩ := ho
    refine ⟨hpre, ⟨fun b hb hcov => hcur b hb (hc.trans hcov), hrest⟩, fun a ha b hb => ?_⟩
    rcases List.mem_cons.mp hb with rfl | hb
    · exact fun hcov => hcross a ha cur (by simp) (hcov.trans hc')
    · exact hcross a ha b (by simp [hb])
  | before pre cur rest hlist hnone hc =>
    subst hlist
    rw [List.pairwise_append] at ho ⊢
    obtain ⟨hpre, hrest, hcross⟩ := ho
    refine ⟨hpre, List.pairwise_cons.mpr ⟨fun b hb => ?_, hrest⟩, fun a ha b hb => ?_⟩
    · rcases List.mem_cons.mp hb with rfl | hb
      · exact hc.2
      · exact fun hcov => (List.pairwise_cons.mp hrest).1 b hb (hc.1.trans hcov)
    · rcases List.mem_cons.mp hb with rfl | hb
      · exact hnone a ha
      · exact hcross a ha b hb
  | last hnone hlast =>
    rw [List.pairwise_append]
    exact ⟨ho, by simp, fun a ha b hb => by simpa using List.mem_singleton.mp hb ▸ hnone a ha⟩
  | first hnone hlast =>
    refine List.pairwise_cons.mpr ⟨?_, ho⟩
    rcases hp with ⟨m', hmem, hcov⟩ | ⟨m', hmem, hcov⟩ | hfree
    · exact absurd hcov (hnone m' hmem)
    · exact absurd hcov (hlast m' hmem)
    · exact hfree

theorem Added.mem {list' : List (FklVMvalueCgMacro B)} (h : Added head list m list')
    {a : FklVMvalueCgMacro B} (ha : a ∈ list') : a = m ∨ a ∈ list := by
  cases h with
  | kept cur hmem hc hc' => exact Or.inr ha
  | replaced pre cur rest hlist hc hc' => simp_all; tauto
  | before pre cur rest hlist hnone hc => simp_all; tauto
  | last hnone hlast => simp_all; tauto
  | first hnone hlast => simp_all

/-- Every pattern stays in the list, or an equal one does. -/
def Represented (head : List UInt8) (list : List (FklVMvalueCgMacro B)) (q : Nast) : Prop :=
  ∃ m ∈ list, Covers head m.pattern q ∧ Covers head q m.pattern

theorem Added.represented {list' : List (FklVMvalueCgMacro B)} (h : Added head list m list')
    {q : Nast} (hq : q = m.pattern ∨ Represented head list q) : Represented head list' q := by
  have hself : ∀ l : List (FklVMvalueCgMacro B), m ∈ l → Represented head l m.pattern :=
    fun l hl => ⟨m, hl, Covers.refl _, Covers.refl _⟩
  cases h with
  | kept cur hmem hc hc' =>
    rcases hq with rfl | hq
    · exact ⟨cur, hmem, hc, hc'⟩
    · exact hq
  | replaced pre cur rest hlist hc hc' =>
    subst hlist
    rcases hq with rfl | ⟨a, ha, hac⟩
    · exact hself _ (by simp)
    · simp only [List.mem_append, List.mem_cons] at ha
      rcases ha with ha | rfl | ha
      · exact ⟨a, by simp [ha], hac⟩
      · exact ⟨m, by simp, hc'.trans hac.1, hac.2.trans hc⟩
      · exact ⟨a, by simp [ha], hac⟩
  | before pre cur rest hlist hnone hc =>
    subst hlist
    rcases hq with rfl | ⟨a, ha, hac⟩
    · exact hself _ (by simp)
    · refine ⟨a, ?_, hac⟩
      simp only [List.mem_append, List.mem_cons] at ha ⊢
      tauto
  | last hnone hlast =>
    rcases hq with rfl | ⟨a, ha, hac⟩
    · exact hself _ (by simp)
    · exact ⟨a, by simp [ha], hac⟩
  | first hnone hlast =>
    rcases hq with rfl | ⟨a, ha, hac⟩
    · exact hself _ (by simp)
    · exact ⟨a, by simp [ha], hac⟩

end

/-! Histories. -/

section

variable {adds : List (Bool × FklVMvalueCgMacro B)} {list : List (FklVMvalueCgMacro B)}

/-- Each macro is placeable when it is added. -/
def EachPlaceable (head : List UInt8) :
    List (FklVMvalueCgMacro B) → List (Bool × FklVMvalueCgMacro B) → Prop
  | _, [] => True
  | list, a :: adds => Placeable head list a.2.pattern ∧
      EachPlaceable head (addCompilerMacro a.1 list a.2) adds

theorem addAll_ordered {S : Nast → Prop}
    (hd : ∀ p q, S p → S q → CoverDecided head p q) (hlist : ∀ m ∈ list, S m.pattern)
    (hadds : ∀ a ∈ adds, S a.2.pattern)
    (ho : list.Pairwise fun a b => ¬Covers head a.pattern b.pattern)
    (hp : EachPlaceable head list adds) :
    (addAll list adds).Pairwise (fun a b => ¬Covers head a.pattern b.pattern) ∧
      ∀ q, (q ∈ adds.map (fun a => a.2.pattern) ∨ Represented head list q) →
        Represented head (addAll list adds) q := by
  induction adds generalizing list with
  | nil => exact ⟨ho, by simp [addAll]⟩
  | cons a adds ih =>
    have hadd : Added head list a.2 (addCompilerMacro a.1 list a.2) :=
      added_addCompilerMacro a.1 fun m' hm' => hd _ _ (hlist m' hm') (hadds a (by simp))
    obtain ⟨hpair, hrep⟩ := ih
      (fun m hm => (hadd.mem hm).elim (fun h => h ▸ hadds a (by simp)) (hlist m))
      (fun b hb => hadds b (by simp [hb])) (hadd.ordered ho hp.1) hp.2
    refine ⟨hpair, fun q hq => hrep q ?_⟩
    rw [List.map_cons, List.mem_cons, or_assoc] at hq
    rcases hq with hq | hq | hq
    · exact Or.inr (hadd.represented (Or.inl hq))
    · exact Or.inl hq
    · exact Or.inr (hadd.represented (Or.inr hq))

end

/-! The macro that is found. -/

section

variable {list : List (FklVMvalueCgMacro B)}

theorem isSome_patternMatchLoop (head : List UInt8) (s : List PmatchPair) (ht : Option FklPmatchHashMap) :
    (patternMatchLoop head s ht).2.isSome = ht.isSome := by
  induction s, ht using patternMatchLoop.induct head <;> simp_all [patternMatchLoop]

def Matches (head : List UInt8) (p e : Nast) : Prop := (fklPatternMatch1 head p e none).1 = true

theorem matches_iff {p e : Nast} (ht : Option FklPmatchHashMap) :
    Matches head p e ↔ (fklPatternMatch1 head p e ht).1 = true := by
  rw [Matches, fklPatternMatch1_fst, fklPatternMatch1_fst]

theorem findInMacros_cons (m : FklVMvalueCgMacro B) (e : Nast) :
    (∃ pht, Matches head m.pattern e ∧ findInMacros head e (m :: list) = some (m, pht)) ∨
      (¬Matches head m.pattern e ∧
        findInMacros head e (m :: list) = findInMacros head e list) := by
  have hsome := isSome_patternMatchLoop head [⟨m.pattern, e, e⟩] (some .empty)
  rcases hres : fklPatternMatch1 head m.pattern e (some .empty) with ⟨_ | _, pht⟩
  · exact Or.inr ⟨by simp [matches_iff (some .empty), hres], by simp [findInMacros, hres]⟩
  · rw [fklPatternMatch1] at hres
    rw [hres] at hsome
    obtain ⟨pht, rfl⟩ := Option.isSome_iff_exists.mp hsome
    rw [← fklPatternMatch1] at hres
    exact Or.inl ⟨pht, by simp [matches_iff (some .empty), hres],
      by simp [findInMacros, hres]⟩

/-- The macro found is the first that matches. -/
theorem findInMacros_of_matches {e : Nast} (h : ∃ m ∈ list, Matches head m.pattern e) :
    ∃ pre cur rest pht, list = pre ++ cur :: rest ∧ (∀ m ∈ pre, ¬Matches head m.pattern e) ∧
      Matches head cur.pattern e ∧ findInMacros head e list = some (cur, pht) := by
  induction list with
  | nil => simp at h
  | cons m list ih =>
    rcases findInMacros_cons m e with ⟨pht, hm, hfind⟩ | ⟨hm, hfind⟩
    · exact ⟨[], m, list, pht, rfl, by simp, hm, hfind⟩
    · obtain ⟨pre, cur, rest, pht, rfl, hpre, hcur, hfind'⟩ := ih (by simpa [hm] using h)
      exact ⟨m :: pre, cur, rest, pht, rfl, by simpa using ⟨hm, hpre⟩, hcur, hfind.trans hfind'⟩

theorem findInMacros_minimal {defined : Nast → Prop} {e : Nast}
    (ho : list.Pairwise fun a b => ¬Covers head a.pattern b.pattern)
    (hrep : ∀ q, defined q → Represented head list q)
    (h : ∃ q, defined q ∧ Matches head q e) :
    ∃ m pht, findInMacros head e list = some (m, pht) ∧ Matches head m.pattern e ∧
      ∀ q, defined q → Matches head q e → ¬StrictlyCovers head m.pattern q := by
  have hmatch : ∃ m ∈ list, Matches head m.pattern e := by
    obtain ⟨q, hq, hqe⟩ := h
    obtain ⟨m, hm, hmq, -⟩ := hrep q hq
    exact ⟨m, hm, hmq e hqe⟩
  obtain ⟨pre, cur, rest, pht, rfl, hpre, hcur, hfind⟩ := findInMacros_of_matches hmatch
  refine ⟨cur, pht, hfind, hcur, fun q hq hqe hs => ?_⟩
  obtain ⟨m, hm, hmq, hqm⟩ := hrep q hq
  rw [List.pairwise_append, List.pairwise_cons] at ho
  simp only [List.mem_append, List.mem_cons] at hm
  rcases hm with hm | rfl | hm
  · exact hpre m hm (hmq e hqe)
  · exact hs.2 hqm
  · exact ho.2.1.1 m hm (hs.1.trans hqm)

end

theorem findMacro_scopes {rest : Nast} {macros : List UInt8 → List (FklVMvalueCgMacro B)}
    {inner : List (List UInt8 → List (FklVMvalueCgMacro B))}
    (outer : List (List UInt8 → List (FklVMvalueCgMacro B)))
    (hinner : ∀ scope ∈ inner, findInMacros head rest (scope head) = none)
    {r : FklVMvalueCgMacro B × FklPmatchHashMap}
    (h : findInMacros head rest (macros head) = some r) :
    findMacro (.pair (.atom (.sym head)) rest) (inner ++ macros :: outer) = some r := by
  induction inner with
  | nil => simp [findMacro, h]
  | cons scope inner ih =>
    have hnone := hinner scope (by simp)
    have hrest := ih fun s hs => hinner s (by simp [hs])
    simp only [findMacro] at hrest ⊢
    simp [hnone, hrest]

/-- As long as the comparison of patterns is right and each new macro is placeable, the list is
ordered and a call is expanded with a macro that is minimal among all those defined. -/
theorem macrosAfter_ordered (head : List UInt8) (ops : List (MacroOp B))
    (hd : ∀ p ∈ definedPatterns ops, ∀ q ∈ definedPatterns ops, CoverDecided head p q)
    (hp : EachPlaceable head [] (ops.flatMap MacroOp.adds)) :
    MacrosOrdered head (macrosAfter ops) ∧
      ∀ (macros : List UInt8 → List (FklVMvalueCgMacro B))
        (inner outer : List (List UInt8 → List (FklVMvalueCgMacro B))) (rest : Nast),
        macros head = macrosAfter ops →
        (∀ scope ∈ inner, findInMacros head rest (scope head) = none) →
        (∃ q ∈ definedPatterns ops, Matches head q rest) →
        ∃ m pht,
          findMacro (.pair (.atom (.sym head)) rest) (inner ++ macros :: outer) = some (m, pht) ∧
          Matches head m.pattern rest ∧
          ∀ q ∈ definedPatterns ops, Matches head q rest → ¬StrictlyCovers head m.pattern q := by
  obtain ⟨hpair, hrep⟩ := addAll_ordered (S := (· ∈ definedPatterns ops))
    (fun p q hp' hq' => hd p hp' q hq') (by simp) (fun a ha => List.mem_map_of_mem ha)
    List.Pairwise.nil hp
  rw [← macrosAfter_eq] at hpair hrep
  refine ⟨(macrosOrdered_iff _).mpr hpair, fun macros inner outer rest hmacros hinner hmatch => ?_⟩
  obtain ⟨m, pht, hfind, hm, hmin⟩ := findInMacros_minimal hpair
    (fun q hq => hrep q (Or.inl hq)) hmatch
  exact ⟨m, pht, findMacro_scopes outer hinner (hmacros ▸ hfind), hm, hmin⟩

/-! Two runs. -/

theorem covers_iff (p q : Nast) : Covers head p q ↔ (parts p q).all (coversPart head) = true := by
  simp only [Covers, fklPatternMatch1_fst, included_iff, List.all_eq_true]

theorem coverDecided_of_parts {p q : Nast} (h : partsCoverState p q =
      if (parts p q).all (coversPart head) then
        if (parts q p).all (coversPart head) then .equal else .cover
      else if (parts q p).all (coversPart head) then .beCover else .notEqual) :
    CoverDecided head p q := by
  rw [← fklPatternCoverState_eq] at h
  refine ⟨?_, ?_, ?_⟩ <;> rw [h] <;> simp only [StrictlyCovers, covers_iff] <;>
    by_cases hpq : (parts p q).all (coversPart head) = true <;>
    by_cases hqp : (parts q p).all (coversPart head) = true <;> simp [hpq, hqp]

/-- The arguments of `(m)`, `(m 1)` and `(m ?x)`. -/
def noArgs : Nast := .atom .nil

def argOne : Nast := .pair (.atom (.fix 1)) (.atom .nil)

def argSlot : Nast := .pair (.slot 0 [0x78] .none) (.atom .nil)

def threeMacros : List (MacroOp Nat) :=
  [.define ⟨noArgs, 0⟩, .define ⟨argOne, 1⟩, .define ⟨argSlot, 2⟩]

theorem threeMacros_decided : ∀ p ∈ definedPatterns threeMacros, ∀ q ∈ definedPatterns threeMacros,
    CoverDecided [0x6d] p q := by
  simp only [definedPatterns, threeMacros, MacroOp.adds, List.flatMap_cons, List.flatMap_nil,
    List.append_nil, List.cons_append, List.nil_append, List.map_cons, List.map_nil,
    List.forall_mem_cons, List.not_mem_nil, false_implies, implies_true, and_true]
  refine ⟨⟨?_, ?_, ?_⟩, ⟨?_, ?_, ?_⟩, ⟨?_, ?_, ?_⟩⟩ <;> exact coverDecided_of_parts (by decide)

/-- `(m ?x)` is put before `(m 1)`, since the last macro of the list is `(m)`. -/
theorem threeMacros_not_ordered :
    (∀ p ∈ definedPatterns threeMacros, ∀ q ∈ definedPatterns threeMacros,
      CoverDecided [0x6d] p q) ∧ ¬MacrosOrdered [0x6d] (macrosAfter threeMacros) := by
  refine ⟨threeMacros_decided, fun h => ?_⟩
  have h01 : partsCoverState noArgs argOne = .notEqual := by decide
  have h12 : partsCoverState argOne argSlot = .beCover := by decide
  have h02 : partsCoverState noArgs argSlot = .notEqual := by decide
  have hlist : macrosAfter threeMacros = [⟨argSlot, 2⟩, ⟨argOne, 1⟩, ⟨noArgs, 0⟩] := by
    simp [macrosAfter, threeMacros, MacroOp.run, addCompilerMacro, coverWalk,
      fklPatternCoverState_eq, h01, h12, h02]
  rw [hlist, macrosOrdered_iff] at h
  exact (List.pairwise_cons.mp h).1 ⟨argOne, 1⟩ (by simp) ((covers_iff _ _).mpr (by decide))

/-- `(m 1)` and then `(m ?x)`. -/
theorem twoMacros_ordered :
    MacrosOrdered [0x6d] (macrosAfter [.define (⟨argOne, 1⟩ : FklVMvalueCgMacro Nat),
      .define ⟨argSlot, 2⟩]) := by
  refine (macrosAfter_ordered [0x6d] [.define ⟨argOne, 1⟩, .define ⟨argSlot, 2⟩] ?_ ?_).1
  · simp only [definedPatterns, MacroOp.adds, List.flatMap_cons, List.flatMap_nil, List.append_nil,
      List.cons_append, List.nil_append, List.map_cons, List.map_nil, List.forall_mem_cons,
      List.not_mem_nil, false_implies, implies_true, and_true]
    refine ⟨⟨?_, ?_⟩, ⟨?_, ?_⟩⟩ <;> exact coverDecided_of_parts (by decide)
  · refine ⟨Or.inr (Or.inr (by simp)), Or.inr (Or.inl ⟨⟨argOne, 1⟩, ?_, ?_⟩), trivial⟩
    · simp [addCompilerMacro, coverWalk]
    · exact (covers_iff _ _).mpr (by decide)

end FakeLisp
