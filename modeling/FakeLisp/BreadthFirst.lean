import FakeLisp.WhileLoop
import Mathlib.Algebra.Order.BigOperators.Group.List
import Mathlib.Logic.Function.Iterate
import Mathlib.Algebra.Order.Ring.Nat

/-!
Breadth-first listings. Every place where a node occurs is listed, but what a node points to is
followed only from its first place; the listing is written out level by level.
-/

namespace FakeLisp

variable {V : Type*}

namespace BreadthFirst

variable {elems : V → List V} {root : V}

/-! Nodes and their depth. -/

/-- `c` is what `p` points to. -/
def Child (elems : V → List V) (c p : V) : Prop := c ∈ elems p

/-- `y` is `n` edges below `x`. -/
inductive Below (elems : V → List V) : Nat → V → V → Prop where
  | refl (x) : Below elems 0 x x
  | tail {n x y z} (h : Below elems n x y) (hz : z ∈ elems y) : Below elems (n + 1) x z

theorem Below.cases_head {n : Nat} {x z : V} (h : Below elems (n + 1) x z) :
    ∃ y ∈ elems x, Below elems n y z := by
  generalize hm : n + 1 = m at h
  induction h generalizing n with
  | refl => omega
  | @tail k x y z h hz ih =>
    obtain rfl : n = k := by omega
    cases n with
    | zero =>
      cases h
      exact ⟨z, hz, .refl z⟩
    | succ n =>
      obtain ⟨w, hw, hwy⟩ := ih rfl
      exact ⟨w, hw, .tail hwy hz⟩

/-- An acyclic node has finite depth. -/
theorem exists_depth (h : Acc (Child elems) root) : ∃ N, ∀ n x, Below elems n root x → n < N := by
  induction h with
  | intro v _ ih =>
    choose f hf using ih
    refine ⟨((elems v).attach.map fun c => f c.1 c.2).sum + 1, fun n x hx => ?_⟩
    cases n with
    | zero => omega
    | succ n =>
      obtain ⟨y, hy, hyx⟩ := hx.cases_head
      have hlt := hf y hy n x hyx
      have hle : f y hy ≤ ((elems v).attach.map fun c => f c.1 c.2).sum :=
        List.single_le_sum (by simp) _ (List.mem_map.mpr ⟨⟨y, hy⟩, by simp, rfl⟩)
      omega

/-! The listing. -/

variable [DecidableEq V]

/-- The nodes of `level` that are met for the first time. -/
def news (seen : List V) : List V → List V
  | [] => []
  | x :: level => if x ∈ seen then news (seen ++ [x]) level else x :: news (seen ++ [x]) level

/-- The places listed so far and the next level. -/
def nextLevel (elems : V → List V) (s : List V × List V) : List V × List V :=
  (s.1 ++ s.2, (news s.1 s.2).flatMap elems)

def levels (elems : V → List V) (root : V) (n : Nat) : List V × List V :=
  (nextLevel elems)^[n] ([], [root])

theorem levels_succ (n : Nat) :
    levels elems root (n + 1) = nextLevel elems (levels elems root n) :=
  Function.iterate_succ_apply' _ _ _

theorem mem_news {seen level : List V} {x : V} : x ∈ news seen level ↔ x ∈ level ∧ x ∉ seen := by
  induction level generalizing seen with
  | nil => simp [news]
  | cons y level ih =>
    unfold news
    split
    · rw [ih]
      grind
    · rw [List.mem_cons, ih]
      grind

theorem below_of_mem_level {n : Nat} {x : V} (h : x ∈ (levels elems root n).2) :
    Below elems n root x := by
  induction n generalizing x with
  | zero =>
    obtain rfl : x = root := by simpa [levels] using h
    exact .refl x
  | succ n ih =>
    rw [levels_succ, nextLevel, List.mem_flatMap] at h
    obtain ⟨y, hy, hx⟩ := h
    exact .tail (ih (mem_news.mp hy).1) hx

/-- The listing of an acyclic node ends. -/
theorem exists_level_nil (h : Acc (Child elems) root) : ∃ N, (levels elems root N).2 = [] := by
  obtain ⟨N, hN⟩ := exists_depth h
  refine ⟨N, List.eq_nil_iff_forall_not_mem.mpr fun x hx => ?_⟩
  exact lt_irrefl N (hN N x (below_of_mem_level hx))

theorem levels_of_nil {N : Nat} (h : (levels elems root N).2 = []) {n : Nat} (hn : N ≤ n) :
    levels elems root n = levels elems root N := by
  induction n, hn using Nat.le_induction with
  | base => rfl
  | succ n _ ih =>
    rw [levels_succ, ih, nextLevel, h]
    exact Prod.ext (by simp) (by simp [news, h])

theorem listing_unique {n m : Nat} (hn : (levels elems root n).2 = [])
    (hm : (levels elems root m).2 = []) :
    (levels elems root n).1 = (levels elems root m).1 := by
  rcases le_total n m with h | h
  · rw [levels_of_nil hn h]
  · rw [levels_of_nil hm h]

theorem levels_below {n : Nat} {x : V}
    (h : x ∈ (levels elems root n).1 ∨ x ∈ (levels elems root n).2) :
    ∃ k, Below elems k root x := by
  induction n with
  | zero =>
    obtain rfl : x = root := by simpa [levels] using h
    exact ⟨0, .refl x⟩
  | succ n ih =>
    rcases h with h | h
    · rw [levels_succ, nextLevel, List.mem_append] at h
      exact ih h
    · exact ⟨n + 1, below_of_mem_level h⟩

theorem levels_closed {n : Nat} {x c : V} (hx : x ∈ (levels elems root n).1) (hc : c ∈ elems x) :
    c ∈ (levels elems root n).1 ∨ c ∈ (levels elems root n).2 := by
  induction n with
  | zero => simp [levels] at hx
  | succ n ih =>
    rw [levels_succ, nextLevel] at hx ⊢
    simp only [List.mem_append, List.mem_flatMap] at hx ⊢
    by_cases hx1 : x ∈ (levels elems root n).1
    · exact Or.inl (ih hx1)
    · exact Or.inr ⟨x, mem_news.mpr ⟨hx.resolve_left hx1, hx1⟩, hc⟩

/-- Everything below the root is listed. -/
theorem mem_listing {n : Nat} (hn : (levels elems root n).2 = []) {x : V} {k : Nat}
    (hx : Below elems k root x) : x ∈ (levels elems root n).1 := by
  induction hx with
  | refl x =>
    have hmem : ∀ m, x ∈ (levels elems x m).1 ∨ x ∈ (levels elems x m).2 := by
      intro m
      induction m with
      | zero => simp [levels]
      | succ m ih =>
        rw [levels_succ, nextLevel, List.mem_append]
        exact Or.inl ih
    simpa [hn] using hmem n
  | tail h hz ih => simpa [hn] using levels_closed (ih hn) hz

/-! The listing made with a queue. -/

/-- The first node of the queue is listed. -/
def round (elems : V → List V) : List V × List V → List V × List V
  | (listed, []) => (listed, [])
  | (listed, x :: queue) =>
    (listed ++ [x], queue ++ if x ∈ listed then [] else elems x)

theorem round_level (elems : V → List V) (level rest listed : List V) :
    (round elems)^[level.length] (listed, level ++ rest) =
      (listed ++ level, rest ++ (news listed level).flatMap elems) := by
  induction level generalizing rest listed with
  | nil => simp [news]
  | cons x level ih =>
    rw [List.length_cons, Function.iterate_succ_apply, List.cons_append, round, List.append_assoc,
      ih, news]
    split <;> simp

theorem round_levels (n : Nat) :
    (round elems)^[(levels elems root n).1.length] ([], [root]) = levels elems root n := by
  induction n with
  | zero => rfl
  | succ n ih =>
    have hlevel := round_level elems (levels elems root n).2 [] (levels elems root n).1
    rw [levels_succ, nextLevel, List.length_append, Nat.add_comm, Function.iterate_add_apply, ih]
    simpa using hlevel

end BreadthFirst

end FakeLisp
