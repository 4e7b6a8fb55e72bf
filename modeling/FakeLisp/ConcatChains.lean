import Mathlib.Data.List.Basic

/-! Sequences in which a mark separates the chains. A chain of two or more elements of one kind is
put behind a mark of its own, which says how long it is. -/

namespace FakeLisp.ConcatChains

variable {α β : Type}

/-- An element, behind `ignore` where the chain does not go on. -/
def pushSym (ignore : α) (syms : List α) (hasIgnore : Bool) (s : α) : List α :=
  (if hasIgnore then syms ++ [ignore] else syms) ++ [s]

def markChain (isTerm : α → Bool) (comp : Nat → α) (chain : List α) : List α :=
  (if 2 ≤ chain.length ∧ chain.all isTerm then [comp chain.length] else []) ++ chain

/-- Runs of elements that no `ignore` separates begin with a mark when all of them are terminals. -/
def foldConcatChains (isIgnore isTerm : α → Bool) (comp : Nat → α) : List α → List α
  | [] => []
  | s :: ss =>
    if isIgnore s then s :: foldConcatChains isIgnore isTerm comp ss
    else
      markChain isTerm comp (s :: ss.takeWhile fun s => !isIgnore s) ++
        foldConcatChains isIgnore isTerm comp (ss.dropWhile fun s => !isIgnore s)
termination_by ss => ss.length
decreasing_by
  · simp
  · simpa using Nat.lt_succ_of_le (ss.dropWhile_sublist _).length_le

/-- The elements, each with whether a chain begins with it. -/
def joinItems (ignore : α) (items : List (Bool × α)) : List α :=
  items.flatMap fun i => if i.1 then [ignore, i.2] else [i.2]

/-- How the chain before the elements goes on, and the chains behind it. -/
def splitChains : List (Bool × α) → List α × List (List α)
  | [] => ([], [])
  | (starts, s) :: items =>
    let (cont, more) := splitChains items
    if starts then ([], (s :: cont) :: more) else (s :: cont, more)

/-- The chains with their marks, where the first begins without `ignore`. -/
def markedChains (ignore : α) (isTerm : α → Bool) (comp : Nat → α) (items : List (Bool × α)) :
    List α :=
  markChain isTerm comp (splitChains items).1 ++
    (splitChains items).2.flatMap fun chain => ignore :: markChain isTerm comp chain

variable {ignore : α} {isIgnore isTerm : α → Bool} {comp : Nat → α} {items : List (Bool × α)}

theorem joinItems_eq (ignore : α) (items : List (Bool × α)) : joinItems ignore items =
    (splitChains items).1 ++ (splitChains items).2.flatMap fun chain => ignore :: chain := by
  induction items with
  | nil => rfl
  | cons i items ih =>
    obtain ⟨starts, s⟩ := i
    rw [joinItems, List.flatMap_cons]
    rw [joinItems] at ih
    rw [ih]
    cases starts <;> simp [splitChains]

theorem joinItems_plain (ignore : α) (f : β → α) (xs : List β) :
    joinItems ignore (xs.map fun x => (false, f x)) = xs.map f := by
  rw [joinItems, List.flatMap_map, List.map_eq_flatMap]
  rfl

theorem splitChains_not_ignore (hitems : ∀ i ∈ items, isIgnore i.2 = false) :
    (∀ s ∈ (splitChains items).1, isIgnore s = false) ∧
      ∀ chain ∈ (splitChains items).2, chain ≠ [] ∧ ∀ s ∈ chain, isIgnore s = false := by
  induction items with
  | nil => simp [splitChains]
  | cons i items ih =>
    obtain ⟨starts, s⟩ := i
    obtain ⟨hcont, hmore⟩ := ih fun i hi => hitems i (List.mem_cons_of_mem _ hi)
    have hs : ∀ x ∈ s :: (splitChains items).1, isIgnore x = false :=
      List.forall_mem_cons.mpr ⟨hitems _ List.mem_cons_self, hcont⟩
    cases starts with
    | false => exact ⟨hs, hmore⟩
    | true =>
      exact ⟨by simp [splitChains], List.forall_mem_cons.mpr ⟨⟨List.cons_ne_nil _ _, hs⟩, hmore⟩⟩

/-- A chain in front of what begins with `ignore`. -/
theorem foldConcatChains_chain {chain rest : List α} (hne : chain ≠ [])
    (hchain : ∀ s ∈ chain, isIgnore s = false) (hrest : ∀ s ∈ rest.head?, isIgnore s = true) :
    foldConcatChains isIgnore isTerm comp (chain ++ rest) =
      markChain isTerm comp chain ++ foldConcatChains isIgnore isTerm comp rest := by
  obtain ⟨s, ss, rfl⟩ := List.exists_cons_of_ne_nil hne
  have hss : ∀ x ∈ ss, (!isIgnore x) = true := fun x hx => by
    rw [hchain x (List.mem_cons_of_mem s hx), Bool.not_false]
  have htake : rest.takeWhile (fun s => !isIgnore s) = [] ∧
      rest.dropWhile (fun s => !isIgnore s) = rest := by
    cases rest with
    | nil => exact ⟨rfl, rfl⟩
    | cons r rest => simp [hrest r rfl]
  rw [List.cons_append, foldConcatChains, if_neg (by simp [hchain s List.mem_cons_self]),
    List.takeWhile_append_of_pos hss, List.dropWhile_append_of_pos hss, htake.1, htake.2,
    List.append_nil]

theorem foldConcatChains_more (hignore : isIgnore ignore = true) {more : List (List α)}
    (hmore : ∀ chain ∈ more, chain ≠ [] ∧ ∀ s ∈ chain, isIgnore s = false) :
    foldConcatChains isIgnore isTerm comp (more.flatMap fun chain => ignore :: chain) =
      more.flatMap fun chain => ignore :: markChain isTerm comp chain := by
  induction more with
  | nil => rw [List.flatMap_nil, foldConcatChains, List.flatMap_nil]
  | cons chain more ih =>
    obtain ⟨⟨hne, hchain⟩, hmore⟩ := List.forall_mem_cons.mp hmore
    have hhead : ∀ s ∈ (more.flatMap fun chain => ignore :: chain).head?, isIgnore s = true := by
      cases more with
      | nil => simp
      | cons => simp [hignore]
    rw [List.flatMap_cons, List.cons_append, foldConcatChains, if_pos hignore,
      foldConcatChains_chain hne hchain hhead, ih hmore]
    rfl

/-- What is made of elements between which `ignore` stands. -/
theorem foldConcatChains_joinItems (hignore : isIgnore ignore = true)
    (hitems : ∀ i ∈ items, isIgnore i.2 = false) :
    foldConcatChains isIgnore isTerm comp (joinItems ignore items) =
      markedChains ignore isTerm comp items := by
  obtain ⟨hcont, hmore⟩ := splitChains_not_ignore hitems
  have hfold := @foldConcatChains_more _ _ _ isTerm comp hignore _ hmore
  rw [joinItems_eq, markedChains]
  by_cases hne : (splitChains items).1 = []
  · rw [hne, List.nil_append, hfold, markChain]
    rfl
  · have hhead : ∀ s ∈ ((splitChains items).2.flatMap fun chain => ignore :: chain).head?,
        isIgnore s = true := by
      cases (splitChains items).2 with
      | nil => simp
      | cons => simp [hignore]
    rw [foldConcatChains_chain hne hcont hhead, hfold]

/-- No element is left out. -/
theorem mem_foldConcatChains {syms : List α} {s : α} (h : s ∈ syms) :
    s ∈ foldConcatChains isIgnore isTerm comp syms := by
  fun_induction foldConcatChains isIgnore isTerm comp syms with
  | case1 => cases h
  | case2 x ss hx ih => exact List.mem_cons.mpr ((List.mem_cons.mp h).imp id ih)
  | case3 x ss hx ih =>
    rw [← List.takeWhile_append_dropWhile (p := fun s => !isIgnore s) (l := ss), ← List.cons_append,
      List.mem_append] at h
    rw [List.mem_append, markChain, List.mem_append]
    exact h.imp Or.inr ih

/-- What holds of the elements and of the marks for the lengths holds of all that there is. -/
theorem forall_foldConcatChains {P : α → Prop} {syms : List α} (h : ∀ s ∈ syms, P s)
    (hcomp : ∀ len, P (comp len)) : ∀ s ∈ foldConcatChains isIgnore isTerm comp syms, P s := by
  fun_induction foldConcatChains isIgnore isTerm comp syms with
  | case1 => exact h
  | case2 x ss hx ih =>
    obtain ⟨hhead, htail⟩ := List.forall_mem_cons.mp h
    exact List.forall_mem_cons.mpr ⟨hhead, ih htail⟩
  | case3 x ss hx ih =>
    obtain ⟨hhead, htail⟩ := List.forall_mem_cons.mp h
    have hchain : ∀ s ∈ x :: ss.takeWhile fun s => !isIgnore s, P s :=
      List.forall_mem_cons.mpr
        ⟨hhead, fun s hs => htail s ((List.takeWhile_sublist _).subset hs)⟩
    refine List.forall_mem_append.mpr ⟨List.forall_mem_append.mpr ⟨fun s hs => ?_, hchain⟩,
      ih fun s hs => htail s ((List.dropWhile_sublist _).subset hs)⟩
    split_ifs at hs with hall
    · rw [List.mem_singleton.mp hs]
      exact hcomp _
    · cases hs

theorem mem_splitChains {s : α} :
    (s ∈ (splitChains items).1 ∨ ∃ chain ∈ (splitChains items).2, s ∈ chain) ↔
      ∃ starts, (starts, s) ∈ items := by
  induction items with
  | nil => simp [splitChains]
  | cons i items ih =>
    obtain ⟨starts, x⟩ := i
    simp only [List.mem_cons, Prod.mk.injEq, exists_or, ← ih]
    cases starts with
    | false => simp [splitChains, or_assoc]
    | true => simp [splitChains, or_assoc]

/-- The elements that are no marks. -/
theorem mem_markedChains {s : α} (hignore : s ≠ ignore) (hcomp : ∀ len, s ≠ comp len) :
    s ∈ markedChains ignore isTerm comp items ↔ ∃ starts, (starts, s) ∈ items := by
  have hmark : ∀ chain, s ∈ markChain isTerm comp chain ↔ s ∈ chain := by
    intro chain
    rw [markChain, List.mem_append]
    split_ifs <;> simp [hcomp]
  rw [← mem_splitChains]
  simp [markedChains, hmark, hignore]

/-! Elements of another type. -/

variable {f : α → β}

theorem splitChains_map (f : α → β) (items : List (Bool × α)) :
    splitChains (items.map fun i => (i.1, f i.2)) =
      ((splitChains items).1.map f, (splitChains items).2.map (List.map f)) := by
  induction items with
  | nil => rfl
  | cons i items ih =>
    obtain ⟨starts, s⟩ := i
    cases starts <;> simp [splitChains, ih]

theorem markChain_map {isTerm' : β → Bool} {comp' : Nat → β} (hterm : ∀ a, isTerm' (f a) = isTerm a)
    (hcomp : ∀ len, f (comp len) = comp' len) (chain : List α) :
    markChain isTerm' comp' (chain.map f) = (markChain isTerm comp chain).map f := by
  have hall : (chain.map f).all isTerm' = chain.all isTerm := by
    rw [List.all_map]
    exact congrArg chain.all (funext hterm)
  unfold markChain
  rw [hall, List.length_map, List.map_append]
  split_ifs <;> simp [hcomp]

theorem markedChains_map {isTerm' : β → Bool} {comp' : Nat → β}
    (hterm : ∀ a, isTerm' (f a) = isTerm a) (hcomp : ∀ len, f (comp len) = comp' len)
    (ignore : α) (items : List (Bool × α)) :
    markedChains (f ignore) isTerm' comp' (items.map fun i => (i.1, f i.2)) =
      (markedChains ignore isTerm comp items).map f := by
  rw [markedChains, markedChains, splitChains_map]
  simp [markChain_map hterm hcomp, List.flatMap_map, List.map_flatMap]

theorem foldConcatChains_map {isIgnore' isTerm' : β → Bool} {comp' : Nat → β}
    (hignore : ∀ a, isIgnore' (f a) = isIgnore a) (hterm : ∀ a, isTerm' (f a) = isTerm a)
    (hcomp : ∀ len, f (comp len) = comp' len) (syms : List α) :
    foldConcatChains isIgnore' isTerm' comp' (syms.map f) =
      (foldConcatChains isIgnore isTerm comp syms).map f := by
  have hnot : ((fun b => !isIgnore' b) ∘ f) = fun a => !isIgnore a :=
    funext fun a => by rw [Function.comp_apply, hignore]
  fun_induction foldConcatChains isIgnore isTerm comp syms with
  | case1 => rw [List.map_nil, foldConcatChains]
  | case2 s ss hs ih =>
    rw [List.map_cons, foldConcatChains, if_pos ((hignore s).trans hs), ih, List.map_cons]
  | case3 s ss hs ih =>
    rw [List.map_cons, foldConcatChains, if_neg (hignore s ▸ hs), List.takeWhile_map,
      List.dropWhile_map, hnot, ih, ← List.map_cons, markChain_map hterm hcomp, List.map_append]

end FakeLisp.ConcatChains
