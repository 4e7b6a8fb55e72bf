import Mathlib.Data.List.Induction
import Mathlib.Tactic.Common

/-! Paths as slashes in front and components behind them. A component `..` takes the one before it
away, and what is left is the same when it is taken again. -/

namespace FakeLisp

abbrev PathComp := List UInt8

/-- `FKL_PATH_SEPARATOR` -/
def pathSep : UInt8 := 47

def pathDot : UInt8 := 46

abbrev dotComp : PathComp := [pathDot]

abbrev dotdotComp : PathComp := [pathDot, pathDot]

/-- One more component: `.` and the empty one are dropped, and `..` takes the one before it away
unless that is `..` itself or a relative path has none left. -/
def normComp (rooted : Bool) (comps : List PathComp) (comp : PathComp) : List PathComp :=
  if comp = [] ∨ comp = dotComp then comps
  else if comp ≠ dotdotComp ∨ rooted = false ∧ comps = [] ∨ comps.getLast? = some dotdotComp then
    comps ++ [comp]
  else comps.dropLast

def normComps (rooted : Bool) (comps : List PathComp) : List PathComp :=
  comps.foldl (normComp rooted) []

/-- One slash for any number of them but two. -/
def initialSlashes : List UInt8 → Nat
  | a :: b :: rest =>
    if a ≠ pathSep then 0 else if b = pathSep ∧ rest.head? ≠ some pathSep then 2 else 1
  | [a] => if a = pathSep then 1 else 0
  | [] => 0

def renderPath (slashes : Nat) (comps : List PathComp) : List UInt8 :=
  let path := List.replicate slashes pathSep ++ [pathSep].intercalate comps
  if path = [] then dotComp else path

def normalPath (path : List UInt8) : List UInt8 :=
  let slashes := initialSlashes path
  renderPath slashes (normComps (slashes ≠ 0) (path.splitOn pathSep))

/-- No empty component, no `.`, and `..` only in front, where the path is relative. -/
structure CanonicalComps (rooted : Bool) (comps : List PathComp) : Prop where
  normal : ∀ c ∈ comps, c ≠ [] ∧ c ≠ dotComp ∧ pathSep ∉ c
  dotdot : comps.Pairwise fun a b => b = dotdotComp → a = dotdotComp
  relative : rooted = true → dotdotComp ∉ comps

variable {rooted : Bool} {comps : List PathComp} {comp : PathComp} {path rest : List UInt8}

theorem canonicalComps_nil (rooted : Bool) : CanonicalComps rooted [] :=
  ⟨nofun, .nil, fun _ => nofun⟩

theorem CanonicalComps.dropLast (h : CanonicalComps rooted comps) :
    CanonicalComps rooted comps.dropLast where
  normal c hc := h.normal c ((List.dropLast_subset comps hc))
  dotdot := h.dotdot.sublist (List.dropLast_sublist comps)
  relative hr hmem := h.relative hr ((List.dropLast_subset comps hmem))

/-- `..` is kept behind nothing but `..`. -/
theorem CanonicalComps.all_dotdot (h : CanonicalComps rooted comps)
    (hlast : comps.getLast? = some dotdotComp) : ∀ c ∈ comps, c = dotdotComp := by
  obtain ⟨front, rfl⟩ := List.getLast?_eq_some_iff.mp hlast
  intro c hc
  rcases List.mem_append.mp hc with hc | hc
  · exact (List.pairwise_append.mp h.dotdot).2.2 c hc _ List.mem_cons_self rfl
  · exact List.mem_singleton.mp hc

theorem CanonicalComps.normComp (h : CanonicalComps rooted comps) (hsep : pathSep ∉ comp) :
    CanonicalComps rooted (normComp rooted comps comp) := by
  unfold FakeLisp.normComp
  split_ifs with hskip hpush
  · exact h
  · obtain ⟨hne, hdot⟩ := not_or.mp hskip
    have hbefore : comp = dotdotComp → rooted = false ∧ ∀ c ∈ comps, c = dotdotComp := by
      rintro rfl
      rcases hpush with hpush | ⟨hrel, rfl⟩ | hlast
      · exact absurd rfl hpush
      · exact ⟨hrel, nofun⟩
      · refine ⟨?_, h.all_dotdot hlast⟩
        cases rooted with
        | false => rfl
        | true => exact absurd (List.mem_of_getLast? hlast) (h.relative rfl)
    refine ⟨?_, ?_, ?_⟩
    · intro c hc
      rcases List.mem_append.mp hc with hc | hc
      · exact h.normal c hc
      · rw [List.mem_singleton.mp hc]
        exact ⟨hne, hdot, hsep⟩
    · refine List.pairwise_append.mpr ⟨h.dotdot, List.pairwise_singleton _ _, ?_⟩
      intro a ha b hb hdd
      rw [List.mem_singleton.mp hb] at hdd
      exact (hbefore hdd).2 a ha
    · intro hr hmem
      rcases List.mem_append.mp hmem with hmem | hmem
      · exact h.relative hr hmem
      · have hrel := (hbefore (List.mem_singleton.mp hmem).symm).1
        cases hr.symm.trans hrel
  · exact h.dropLast

theorem foldl_normComp_canonical (cs : List PathComp) (h : CanonicalComps rooted comps)
    (hcs : ∀ c ∈ cs, pathSep ∉ c) : CanonicalComps rooted (cs.foldl (normComp rooted) comps) := by
  induction cs generalizing comps with
  | nil => exact h
  | cons c cs ih =>
    exact ih (h.normComp (hcs c List.mem_cons_self)) fun d hd => hcs d (List.mem_cons_of_mem _ hd)

/-- Canonical components are kept as they are. -/
theorem CanonicalComps.normComps_eq (h : CanonicalComps rooted comps) :
    normComps rooted comps = comps := by
  induction comps using List.reverseRecOn with
  | nil => rfl
  | append_singleton cs c ih =>
    have hcs : CanonicalComps rooted cs := by
      have hdrop := h.dropLast
      rwa [List.dropLast_concat] at hdrop
    obtain ⟨hne, hdot, -⟩ := h.normal c (by simp)
    have hpush : c ≠ dotdotComp ∨ rooted = false ∧ cs = [] ∨ cs.getLast? = some dotdotComp := by
      by_cases hc : c = dotdotComp
      · right
        cases cs using List.reverseRecOn with
        | nil =>
          left
          refine ⟨?_, rfl⟩
          cases rooted with
          | false => rfl
          | true => exact absurd (by simp [hc]) (h.relative rfl)
        | append_singleton front d =>
          right
          rw [List.getLast?_concat]
          exact congrArg some ((List.pairwise_append.mp h.dotdot).2.2 d (by simp) c (by simp) hc)
      · exact Or.inl hc
    rw [normComps, List.foldl_append]
    change FakeLisp.normComp rooted (normComps rooted cs) c = _
    rw [ih hcs, FakeLisp.normComp, if_neg (by simp [hne, hdot]), if_pos hpush]

/-! ## Taking the path apart again -/

theorem pathSep_not_mem_of_splitOn (path : List UInt8) : ∀ c ∈ path.splitOn pathSep, pathSep ∉ c := by
  induction path with
  | nil => simp
  | cons x path ih =>
    rw [List.splitOn_cons_eq_if_modifyHead]
    split_ifs with hx
    · intro c hc
      rcases List.mem_cons.mp hc with rfl | hc
      · exact List.not_mem_nil
      · exact ih c hc
    · cases hs : path.splitOn pathSep with
      | nil => exact absurd hs (List.splitOn_ne_nil pathSep path)
      | cons d ds =>
        rw [hs] at ih
        intro c hc
        rcases List.mem_cons.mp hc with rfl | hc
        · have hx : x ≠ pathSep := fun h => hx (beq_iff_eq.mpr h)
          exact List.not_mem_cons_of_ne_of_not_mem hx.symm (ih d List.mem_cons_self)
        · exact ih c (List.mem_cons_of_mem d hc)

theorem splitOn_slash (path : List UInt8) :
    (pathSep :: path).splitOn pathSep = [] :: path.splitOn pathSep := by
  change ([] ++ pathSep :: path).splitOn pathSep = _
  exact List.splitOn_append_cons_self_of_not_mem List.not_mem_nil path

theorem normComps_slashes (rooted : Bool) (n : Nat) (path : List UInt8) :
    normComps rooted ((List.replicate n pathSep ++ path).splitOn pathSep) =
      normComps rooted (path.splitOn pathSep) := by
  induction n with
  | zero => rfl
  | succ n ih =>
    rw [List.replicate_succ, List.cons_append, splitOn_slash]
    exact ih

theorem initialSlashes_le (path : List UInt8) : initialSlashes path ≤ 2 := by
  unfold initialSlashes
  split
  · split_ifs <;> omega
  · split_ifs <;> omega
  · omega

theorem normComps_canonical (path : List UInt8) :
    CanonicalComps rooted (normComps rooted (path.splitOn pathSep)) :=
  foldl_normComp_canonical _ (canonicalComps_nil rooted) (pathSep_not_mem_of_splitOn path)

/-- Behind the slashes stands no further one. -/
theorem CanonicalComps.head_intercalate (h : CanonicalComps rooted comps) :
    ([pathSep].intercalate comps).head? ≠ some pathSep := by
  cases comps with
  | nil => simp
  | cons c cs =>
    obtain ⟨hne, -, hsep⟩ := h.normal c List.mem_cons_self
    cases c with
    | nil => exact absurd rfl hne
    | cons x c =>
      have hx : x ≠ pathSep := fun hx => hsep (hx ▸ List.mem_cons_self)
      cases cs with
      | nil => simpa using hx
      | cons d cs => simpa using hx

theorem initialSlashes_append {n : Nat} (hn : n ≤ 2) (h : path.head? ≠ some pathSep) :
    initialSlashes (List.replicate n pathSep ++ path) = n := by
  match n, hn with
  | 0, _ =>
    match path with
    | [] => rfl
    | [x] => simpa [initialSlashes] using h
    | x :: y :: rest => simpa [initialSlashes] using fun hx => absurd (congrArg some hx) h
  | 1, _ =>
    cases path with
    | nil => rfl
    | cons x rest =>
      have hx : x ≠ pathSep := fun hx => h (congrArg some hx)
      simp [initialSlashes, hx]
  | 2, _ => simpa [initialSlashes] using h

theorem CanonicalComps.initialSlashes_renderPath {n : Nat} (hn : n ≤ 2)
    (h : CanonicalComps rooted comps) : initialSlashes (renderPath n comps) = n := by
  have hpath := initialSlashes_append hn h.head_intercalate
  unfold renderPath
  by_cases hempty : List.replicate n pathSep ++ [pathSep].intercalate comps = []
  · rw [hempty] at hpath
    simp only [hempty, if_true]
    exact hpath
  · simp only [hempty, if_false]
    exact hpath

theorem CanonicalComps.normComps_renderPath {n : Nat} (h : CanonicalComps rooted comps) :
    normComps rooted ((renderPath n comps).splitOn pathSep) = comps := by
  have hinner : normComps rooted (([pathSep].intercalate comps).splitOn pathSep) = comps := by
    by_cases hc : comps = []
    · rw [hc]
      rfl
    · rw [List.splitOn_intercalate pathSep (fun c hc => (h.normal c hc).2.2) hc]
      exact h.normComps_eq
  unfold renderPath
  by_cases hempty : List.replicate n pathSep ++ [pathSep].intercalate comps = []
  · simp only [hempty, if_true]
    rw [(List.append_eq_nil_iff.mp hempty).2] at hinner
    rw [← hinner]
    rfl
  · simp only [hempty, if_false]
    rw [normComps_slashes, hinner]

/-- A normal path is its own normal form. -/
theorem normalPath_normalPath (path : List UInt8) : normalPath (normalPath path) = normalPath path := by
  have hn := initialSlashes_le path
  have h : CanonicalComps (initialSlashes path ≠ 0 : Bool) _ := normComps_canonical path
  have hslashes : initialSlashes (normalPath path) = initialSlashes path :=
    h.initialSlashes_renderPath hn
  have hcomps := h.normComps_renderPath (n := initialSlashes path)
  rw [normalPath, hslashes]
  exact congrArg (renderPath (initialSlashes path)) hcomps

end FakeLisp
