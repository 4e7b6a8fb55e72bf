import FakeLisp.NormpathRight
import FakeLisp.Words

/-! The relative path from one directory to a path, as it is built where `/` is the separator. -/

namespace FakeLisp

/-- `strtok_r`: the next token, and what is behind the delimiter that ends it. -/
def strtokR (str divstr : List UInt8) : Option (List UInt8 × List UInt8) :=
  let str := str.dropWhile (· ∈ divstr)
  if str = [] then none
  else some (str.takeWhile (· ∉ divstr), (str.dropWhile (· ∉ divstr)).tail)

def splitLoop (divstr : List UInt8) : Nat → List UInt8 → Option (List PathComp)
  | 0, _ => none
  | fuel + 1, str =>
    match strtokR str divstr with
    | none => some []
    | some (slice, rest) => do some (slice :: (← splitLoop divstr fuel rest))

/-- Every token takes bytes away. -/
def fklSplit (str divstr : List UInt8) : Option (List PathComp) :=
  splitLoop divstr (str.length + 1) str

/-- `FKL_PATH_MAX` -/
def fklPathMax : Nat := 4096

/-- `FKL_PATH_UPPER_DIR` -/
def fklPathUpperDir : List UInt8 := [46, 46, 47]

/-- The buffer `rp` has room for so many bytes and the terminating zero. -/
def strcatRp (rp s : List UInt8) : Option (List UInt8) := do
  fklAssert (rp.length + s.length < fklPathMax)
  some (rp ++ s)

/-- `common_prefix_len` -/
def commonPrefixLen : List PathComp → List PathComp → Nat
  | a :: as, b :: bs => if a = b then commonPrefixLen as bs + 1 else 0
  | _, _ => 0

/-- A failed assertion, or a result that `rp` has no room for, is `none`. -/
def fklRelpath (start path : List UInt8) : Option (List UInt8) := do
  let startParts ← fklSplit (cstr start) [pathSep]
  let pathParts ← fklSplit (cstr path) [pathSep]
  fklAssert (startParts ≠ [] ∧ pathParts ≠ [])
  let length := min startParts.length pathParts.length
  let commonPrefix := commonPrefixLen startParts pathParts
  if commonPrefix = length ∧ startParts.length = pathParts.length then some [pathDot]
  else
    let rp ← (startParts.drop commonPrefix).foldlM (fun rp _ => strcatRp rp fklPathUpperDir) []
    let rp ← (pathParts.dropLast.drop commonPrefix).foldlM
      (fun rp part => do strcatRp (← strcatRp rp part) [pathSep]) rp
    strcatRp rp (pathParts.getLast?.getD [])

/-- The components that are not empty. -/
def pathParts (path : List UInt8) : List PathComp := (path.splitOn pathSep).filter (· ≠ [])

variable {w rest total : List UInt8} {n : Nat} {comps ds : List PathComp} {rooted : Bool}

theorem pathParts_slash (path : List UInt8) : pathParts (pathSep :: path) = pathParts path := by
  simp [pathParts, splitOn_slash]

theorem pathParts_dropWhile (path : List UInt8) :
    pathParts (path.dropWhile (· ∈ [pathSep])) = pathParts path := by
  induction path with
  | nil => rfl
  | cons c path ih =>
    by_cases hc : c = pathSep
    · rw [hc, pathParts_slash, ← ih]
      simp
    · simp [hc]

theorem pathParts_append (hw : pathSep ∉ w) (hne : w ≠ []) (hrest : CompEnds rest) :
    pathParts (w ++ rest) = w :: pathParts rest.tail := by
  cases rest with
  | nil => simp [pathParts, List.splitOn_eq_singleton hw, hne]
  | cons c rest =>
    rw [compEnds_cons.mp hrest, pathParts, List.splitOn_append_cons_self_of_not_mem hw]
    simp [pathParts, hne]

theorem splitLoop_eq (fuel : Nat) (str : List UInt8) (h : str.length < fuel) :
    splitLoop [pathSep] fuel str = some (pathParts str) := by
  induction fuel generalizing str with
  | zero => omega
  | succ fuel ih =>
    rw [splitLoop, strtokR, ← pathParts_dropWhile str]
    have hlen : (str.dropWhile (· ∈ [pathSep])).length ≤ str.length :=
      (List.dropWhile_sublist _).length_le
    have hhead := List.head?_dropWhile_not (· ∈ [pathSep]) str
    generalize str.dropWhile (· ∈ [pathSep]) = body at hlen hhead
    by_cases hbody : body = []
    · subst hbody
      rfl
    · have hends := compEnds_dropWhile body
      have hsplit := List.takeWhile_append_dropWhile (p := (· ≠ pathSep)) (l := body)
      have hw : pathSep ∉ body.takeWhile (· ≠ pathSep) := fun hmem => by
        simpa using List.mem_takeWhile_imp hmem
      have hpred : (fun c : UInt8 => decide (c ∉ [pathSep])) = fun c => decide (c ≠ pathSep) := by
        funext c
        simp
      simp only [hpred, hbody, if_false]
      generalize body.takeWhile (· ≠ pathSep) = w at hw hsplit
      generalize body.dropWhile (· ≠ pathSep) = rest at hends hsplit
      subst hsplit
      have hne : w ≠ [] := by
        rintro rfl
        cases rest with
        | nil => exact hbody rfl
        | cons c rest =>
          rw [compEnds_cons.mp hends] at hhead
          simp at hhead
      have hshort : rest.tail.length < fuel := by
        have hpos := List.length_pos_iff.mpr hne
        rw [List.length_append] at hlen
        rw [List.length_tail]
        omega
      rw [ih _ hshort, pathParts_append hw hne hends]
      rfl

theorem fklSplit_eq (str : List UInt8) : fklSplit str [pathSep] = some (pathParts str) :=
  splitLoop_eq _ str (Nat.lt_succ_self _)

/-- A path in normal form with a slash in front. -/
def NormalAbs (path : List UInt8) : Prop := normpath path = some path ∧ path.head? = some pathSep

theorem CanonicalComps.pathParts_renderPath (h : CanonicalComps rooted comps) (hn : n ≠ 0) :
    pathParts (renderPath n comps) = comps := by
  have hslashes : ∀ n path, pathParts (List.replicate n pathSep ++ path) = pathParts path := by
    intro n path
    induction n with
    | zero => rfl
    | succ n ih => rw [List.replicate_succ, List.cons_append, pathParts_slash, ih]
  have hne : List.replicate n pathSep ++ [pathSep].intercalate comps ≠ [] := by
    cases n with
    | zero => exact absurd rfl hn
    | succ n => simp [List.replicate_succ]
  simp only [renderPath, hne, if_false]
  rw [hslashes]
  by_cases hc : comps = []
  · subst hc
    rfl
  · rw [pathParts, List.splitOn_intercalate pathSep (fun c hc => (h.normal c hc).2.2) hc,
      List.filter_eq_self]
    intro c hc
    simpa using (h.normal c hc).1

theorem NormalAbs.eq_renderPath {path : List UInt8} (h : NormalAbs path) :
    (0 : UInt8) ∉ path ∧ ∃ n comps, n ≠ 0 ∧ n ≤ 2 ∧ CanonicalComps true comps ∧
      path = renderPath n comps := by
  have hnorm : normalPath (cstr path) = path := Option.some.inj ((normpath_eq path).symm.trans h.1)
  have hzero : (0 : UInt8) ∉ path := by
    rw [← hnorm]
    exact zero_not_mem_renderPath _ (zero_not_mem_normComps (zero_not_mem_cstr path))
  rw [cstr_eq_self hzero] at hnorm
  have hslashes : initialSlashes path ≠ 0 := by
    match path, h.2 with
    | [a], ha => simp [initialSlashes, Option.some.inj ha]
    | a :: b :: rest, ha =>
      rw [initialSlashes, if_neg (not_not.mpr (Option.some.inj ha))]
      split_ifs <;> decide
  have hcanon : CanonicalComps (initialSlashes path ≠ 0) _ := normComps_canonical path
  simp only [hslashes, ne_eq, not_false_eq_true, decide_true] at hcanon
  refine ⟨hzero, initialSlashes path, _, hslashes, initialSlashes_le path, hcanon, ?_⟩
  conv_lhs => rw [← hnorm]
  simp [normalPath, hslashes]

/-! ## The text of the result -/

theorem foldlM_strcatRp (ts : List (List UInt8)) {rp : List UInt8} (h : rp.length < fklPathMax) :
    ts.foldlM strcatRp rp =
      if (rp ++ ts.flatten).length < fklPathMax then some (rp ++ ts.flatten) else none := by
  induction ts generalizing rp with
  | nil => simp [h]
  | cons t ts ih =>
    rw [List.foldlM_cons, List.flatten_cons, ← List.append_assoc]
    by_cases ht : (rp ++ t).length < fklPathMax
    · have hcat : strcatRp rp t = some (rp ++ t) := by
        rw [List.length_append] at ht
        simp [strcatRp, ht]
      rw [hcat]
      exact ih ht
    · have hcat : strcatRp rp t = none := by
        rw [List.length_append] at ht
        simp [strcatRp, fklAssert, ht]
      have hlong : ¬(rp ++ t ++ ts.flatten).length < fklPathMax := by
        rw [List.length_append]
        omega
      rw [hcat, if_neg hlong]
      rfl

theorem foldlM_strcat_sep (ps : List PathComp) (rp : List UInt8) :
    ps.foldlM (fun rp part => (strcatRp rp part).bind fun rp => strcatRp rp [pathSep]) rp =
      (ps.flatMap fun part => [part, [pathSep]]).foldlM strcatRp rp := by
  induction ps generalizing rp with
  | nil => rfl
  | cons part ps ih =>
    simp [List.foldlM_cons, ih, Option.bind_assoc]

/-- The steps upwards, the components behind them with a separator each, and the last one. -/
def relText (ups : Nat) (mids : List PathComp) (last : PathComp) : List UInt8 :=
  ((List.replicate ups dotdotComp ++ mids).map (· ++ [pathSep])).flatten ++ last

theorem relText_eq (ups : Nat) (mids : List PathComp) (last : PathComp) :
    (List.replicate ups fklPathUpperDir ++ (mids.flatMap fun part => [part, [pathSep]]) ++
      [last]).flatten = relText ups mids last := by
  have hmids : (mids.flatMap fun part => [part, [pathSep]]).flatten =
      (mids.map (· ++ [pathSep])).flatten := by
    induction mids with
    | nil => rfl
    | cons m mids ih => simp [ih]
  have hup : fklPathUpperDir = dotdotComp ++ [pathSep] := rfl
  simp only [relText, List.flatten_append, List.map_append, List.map_replicate, hmids, hup,
    List.flatten_singleton]

theorem fklRelpath_eq {start path : List UInt8} {sp pp : List PathComp}
    (hs : pathParts (cstr start) = sp) (hp : pathParts (cstr path) = pp) :
    fklRelpath start path =
      if sp = [] ∨ pp = [] then none
      else if commonPrefixLen sp pp = min sp.length pp.length ∧ sp.length = pp.length then
        some dotComp
      else
        let text := relText (sp.length - commonPrefixLen sp pp)
          (pp.dropLast.drop (commonPrefixLen sp pp)) (pp.getLast?.getD [])
        if text.length < fklPathMax then some text else none := by
  rw [fklRelpath, fklSplit_eq, fklSplit_eq, hs, hp]
  by_cases hne : sp = [] ∨ pp = []
  · have hno : ¬(sp ≠ [] ∧ pp ≠ []) := by tauto
    simp [hne, fklAssert, hno]
  · have hyes : sp ≠ [] ∧ pp ≠ [] := not_or.mp hne
    simp only [hne, if_false, Option.bind_eq_bind, Option.bind_some, fklAssert_eq_some hyes]
    by_cases heq : commonPrefixLen sp pp = min sp.length pp.length ∧ sp.length = pp.length
    · rw [if_pos heq, if_pos heq]
    · rw [if_neg heq, if_neg heq]
      have hups : ∀ m, (sp.drop m).foldlM (fun rp _ => strcatRp rp fklPathUpperDir) [] =
          (List.replicate (sp.length - m) fklPathUpperDir).foldlM strcatRp [] := by
        intro m
        rw [← List.length_drop, ← List.map_const', List.foldlM_map]
      have hlast : ∀ rp, strcatRp rp (pp.getLast?.getD []) =
          [pp.getLast?.getD []].foldlM strcatRp rp := fun rp => by simp
      simp only [hups, foldlM_strcat_sep, hlast]
      rw [← relText_eq]
      have hall := foldlM_strcatRp (List.replicate (sp.length - commonPrefixLen sp pp)
        fklPathUpperDir ++ ((pp.dropLast.drop (commonPrefixLen sp pp)).flatMap fun part =>
          [part, [pathSep]]) ++ [pp.getLast?.getD []])
        (show ([] : List UInt8).length < fklPathMax by decide)
      rw [List.foldlM_append, List.foldlM_append] at hall
      simpa only [Option.bind_eq_bind, Option.bind_assoc, List.nil_append] using hall

/-! ## The common prefix -/

theorem commonPrefixLen_take (as bs : List PathComp) :
    as.take (commonPrefixLen as bs) = bs.take (commonPrefixLen as bs) := by
  fun_induction commonPrefixLen as bs with
  | case1 a as b ih => simp [ih]
  | case2 a as b bs hab => rfl
  | case3 as bs h => rfl

theorem commonPrefixLen_le (as bs : List PathComp) :
    commonPrefixLen as bs ≤ as.length ∧ commonPrefixLen as bs ≤ bs.length := by
  fun_induction commonPrefixLen as bs with
  | case1 a as b ih => simpa using ih
  | case2 a as b bs hab => simp
  | case3 as bs h => simp

theorem commonPrefixLen_eq_length (as bs : List PathComp) :
    commonPrefixLen as bs = bs.length ↔ bs <+: as := by
  fun_induction commonPrefixLen as bs with
  | case1 a as b ih => simp [ih]
  | case2 a as b bs hab => simp [List.cons_prefix_cons, Ne.symm hab]
  | case3 as bs h =>
    cases bs with
    | nil => simp
    | cons b bs =>
      cases as with
      | nil => simp
      | cons a as => exact absurd rfl (h a as b bs rfl)

theorem commonPrefixLen_eq_iff (as bs : List PathComp) :
    commonPrefixLen as bs = min as.length bs.length ∧ as.length = bs.length ↔ as = bs := by
  constructor
  · rintro ⟨hlen, heq⟩
    have hpre := (commonPrefixLen_eq_length as bs).mp (by omega)
    exact (hpre.eq_of_length heq.symm).symm
  · rintro rfl
    exact ⟨by rw [(commonPrefixLen_eq_length as as).mpr List.prefix_rfl, min_self], rfl⟩

/-! ## Joined again -/

theorem foldl_normComp_relText (ds : List PathComp) (hds : ∀ d ∈ ds, pathSep ∉ d)
    (hw : pathSep ∉ w) :
    (((ds.map (· ++ [pathSep])).flatten ++ w).splitOn pathSep).foldl (normComp rooted) comps =
      (ds ++ [w]).foldl (normComp rooted) comps := by
  induction ds generalizing comps with
  | nil => simp [List.splitOn_eq_singleton hw]
  | cons d ds ih =>
    have hd := hds d List.mem_cons_self
    rw [List.map_cons, List.flatten_cons, List.append_assoc, List.append_assoc,
      List.singleton_append, foldl_normComp_splitOn hd (compEnds_cons.mpr rfl), splitOn_slash]
    exact ih fun e he => hds e (List.mem_cons_of_mem d he)

/-- Steps upwards from a canonical path. -/
theorem foldl_normComp_ups (h : CanonicalComps true comps) (k : Nat) :
    (List.replicate k dotdotComp).foldl (normComp true) comps = comps.take (comps.length - k) := by
  induction k generalizing comps with
  | zero => simp
  | succ k ih =>
    have hup : normComp true comps dotdotComp = comps.dropLast := by
      rw [normComp, if_neg (by decide), if_neg]
      rintro (hne | ⟨hrel, -⟩ | hlast)
      · exact hne rfl
      · cases hrel
      · exact h.relative rfl (List.mem_of_getLast? hlast)
    rw [List.replicate_succ, List.foldl_cons, hup, ih h.dropLast, List.length_dropLast,
      List.dropLast_eq_take, List.take_take]
    congr 1
    omega

theorem foldl_normComp_push (ds : List PathComp)
    (hds : ∀ d ∈ ds, d ≠ [] ∧ d ≠ dotComp ∧ d ≠ dotdotComp) :
    ds.foldl (normComp rooted) comps = comps ++ ds := by
  induction ds generalizing comps with
  | nil => simp
  | cons d ds ih =>
    obtain ⟨hne, hdot, hdd⟩ := hds d List.mem_cons_self
    have hpush : normComp rooted comps d = comps ++ [d] := by
      rw [normComp, if_neg (by simp [hne, hdot]), if_pos (Or.inl hdd)]
    rw [List.foldl_cons, hpush, ih fun e he => hds e (List.mem_cons_of_mem d he)]
    simp

theorem CanonicalComps.renderPath_inj {m : Nat} (h : CanonicalComps true comps)
    (h' : CanonicalComps true ds) (hn : n ≠ 0) (hn2 : n ≤ 2) (hm : m ≠ 0) (hm2 : m ≤ 2) :
    renderPath n comps = renderPath m ds ↔ n = m ∧ comps = ds := by
  constructor
  · intro heq
    refine ⟨?_, ?_⟩
    · rw [← h.initialSlashes_renderPath hn2, heq, h'.initialSlashes_renderPath hm2]
    · rw [← h.pathParts_renderPath hn, heq, h'.pathParts_renderPath hm]
  · rintro ⟨rfl, rfl⟩
    rfl

/-- As `fklAbspath` joins the working directory and a path. -/
def joinPath (dir path : List UInt8) : List UInt8 := dir ++ pathSep :: path

/-- Behind a directory its components are there before those of the other path. -/
theorem normalPath_join (h : CanonicalComps true comps) (hne : comps ≠ []) (hn : n ≠ 0) (hn2 : n ≤ 2)
    (rel : List UInt8) : normalPath (joinPath (renderPath n comps) rel) =
      renderPath n ((rel.splitOn pathSep).foldl (normComp true) comps) := by
  have hbody : [pathSep].intercalate comps ≠ [] := by
    cases comps with
    | nil => exact absurd rfl hne
    | cons c cs =>
      cases cs with
      | nil => simpa using (h.normal c List.mem_cons_self).1
      | cons d ds => simp
  have hrender : renderPath n comps = List.replicate n pathSep ++ [pathSep].intercalate comps :=
    if_neg fun hnil => hbody (List.append_eq_nil_iff.mp hnil).2
  have hslashes : initialSlashes (joinPath (renderPath n comps) rel) = n := by
    rw [joinPath, hrender, List.append_assoc]
    refine initialSlashes_append hn2 ?_
    have hhead := h.head_intercalate
    cases hb : [pathSep].intercalate comps with
    | nil => exact absurd hb hbody
    | cons c b =>
      rw [hb] at hhead
      exact hhead
  have hcomps : normComps true ((joinPath (renderPath n comps) rel).splitOn pathSep) =
      (rel.splitOn pathSep).foldl (normComp true) comps := by
    have hstart : normComps true ((renderPath n comps).splitOn pathSep) = comps := h.normComps_renderPath
    rw [joinPath, List.splitOn_append_cons_self, normComps, List.foldl_append]
    exact congrArg (fun cs => (rel.splitOn pathSep).foldl (normComp true) cs) hstart
  simp only [normalPath, hslashes, hn, ne_eq, not_false_eq_true, decide_true, hcomps]

/-- Joining the result with `start` and normalizing gives `path` again. -/
def RelpathRight (start path : List UInt8) : Prop :=
  ∃ rel, fklRelpath start path = some rel ∧ normpath (joinPath start rel) = some path

/-- The bytes of the steps upwards, and of the components behind the common ones. -/
def relLength (sp pp : List PathComp) : Nat :=
  3 * (sp.length - commonPrefixLen sp pp) +
    ([pathSep].intercalate (pp.drop (commonPrefixLen sp pp))).length

/-- Neither is the root, both begin with as many slashes, `path` is no directory above `start`, and
the result fits into its buffer. -/
structure RelpathHolds (start path : List UInt8) : Prop where
  start_ne : pathParts start ≠ []
  path_ne : pathParts path ≠ []
  slashes : initialSlashes start = initialSlashes path
  above : pathParts path <+: pathParts start → pathParts path = pathParts start
  fits : relLength (pathParts start) (pathParts path) < fklPathMax

theorem length_relText (ups : Nat) (mids : List PathComp) (last : PathComp) :
    (relText ups mids last).length = 3 * ups + ([pathSep].intercalate (mids ++ [last])).length := by
  have hmids := congrArg List.length (stackBytes_intercalate 0 mids last)
  simp only [stackBytes, List.replicate_zero, List.nil_append] at hmids
  rw [← hmids, relText, List.map_append, List.flatten_append, List.append_assoc, List.length_append]
  congr 1
  simp [Nat.mul_comm]

theorem zero_not_mem_relText {ups : Nat} {mids : List PathComp} {last : PathComp}
    (hmids : ∀ d ∈ mids, (0 : UInt8) ∉ d) (hlast : (0 : UInt8) ∉ last) :
    (0 : UInt8) ∉ relText ups mids last := by
  have hstack : (0 : UInt8) ∉ stackBytes 0 (List.replicate ups dotdotComp ++ mids) := by
    refine zero_not_mem_stackBytes 0 ?_
    intro c hc
    rcases List.mem_append.mp hc with hc | hc
    · rw [(List.mem_replicate.mp hc).2]
      decide
    · exact hmids c hc
  intro hmem
  rcases List.mem_append.mp hmem with hmem | hmem
  · exact hstack hmem
  · exact hlast hmem

theorem CanonicalComps.not_special {d : PathComp} (h : CanonicalComps true comps) (hd : d ∈ comps) :
    d ≠ [] ∧ d ≠ dotComp ∧ d ≠ dotdotComp :=
  ⟨(h.normal d hd).1, (h.normal d hd).2.1, fun hdd => h.relative rfl (hdd ▸ hd)⟩

/-- The components that the result leads to: those of `path`, and the last one once more where
`path` is above `start`. -/
theorem foldl_normComp_rel {sp pp : List PathComp} (hs : CanonicalComps true sp)
    (hp : CanonicalComps true pp) (hpp : pp ≠ []) :
    ((relText (sp.length - commonPrefixLen sp pp) (pp.dropLast.drop (commonPrefixLen sp pp))
        (pp.getLast?.getD [])).splitOn pathSep).foldl (normComp true) sp =
      pp.take (commonPrefixLen sp pp) ++ (pp.dropLast.drop (commonPrefixLen sp pp) ++
        [pp.getLast?.getD []]) := by
  obtain ⟨front, last, rfl⟩ : ∃ front last, pp = front ++ [last] := by
    cases pp using List.reverseRecOn with
    | nil => exact absurd rfl hpp
    | append_singleton front last => exact ⟨front, last, rfl⟩
  have hle := (commonPrefixLen_le sp (front ++ [last])).1
  have htake := commonPrefixLen_take sp (front ++ [last])
  generalize commonPrefixLen sp (front ++ [last]) = k at hle htake
  rw [List.dropLast_concat, List.getLast?_concat, Option.getD_some]
  have hlast : last ∈ front ++ [last] := by simp
  have hmids : ∀ d ∈ front.drop k, d ∈ front ++ [last] := fun d hd =>
    List.mem_append_left _ (List.mem_of_mem_drop hd)
  have hseps : ∀ d ∈ List.replicate (sp.length - k) dotdotComp ++ front.drop k, pathSep ∉ d := by
    intro d hd
    rcases List.mem_append.mp hd with hd | hd
    · rw [(List.mem_replicate.mp hd).2]
      decide
    · exact (hp.normal d (hmids d hd)).2.2
  rw [relText, foldl_normComp_relText _ hseps (hp.normal last hlast).2.2, List.append_assoc,
    List.foldl_append, foldl_normComp_ups hs, show sp.length - (sp.length - k) = k by omega, htake]
  refine foldl_normComp_push _ ?_
  intro d hd
  rcases List.mem_append.mp hd with hd | hd
  · exact hp.not_special (hmids d hd)
  · rw [List.mem_singleton.mp hd]
    exact hp.not_special hlast

theorem drop_eq_rel {pp : List PathComp} {k : Nat} (hk : k < pp.length) :
    pp.drop k = pp.dropLast.drop k ++ [pp.getLast?.getD []] := by
  cases pp using List.reverseRecOn with
  | nil => simp at hk
  | append_singleton front last =>
    rw [List.length_append, List.length_singleton] at hk
    rw [List.dropLast_concat, List.getLast?_concat, Option.getD_some,
      List.drop_append_of_le_length (by omega)]

/-- These are the components of `path` exactly when something of it is behind the common ones. -/
theorem take_append_rel {pp : List PathComp} {k : Nat} (hk : k ≤ pp.length) :
    pp.take k ++ (pp.dropLast.drop k ++ [pp.getLast?.getD []]) = pp ↔ k ≠ pp.length := by
  constructor
  · rintro heq rfl
    have hlen := congrArg List.length heq
    simp at hlen
  · intro hne
    rw [← drop_eq_rel (by omega), List.take_append_drop]

theorem relpathRight_iff {start path : List UInt8} (hs : NormalAbs start) (hp : NormalAbs path) :
    RelpathRight start path ↔ RelpathHolds start path := by
  obtain ⟨hs0, n, sp, hn, hn2, hsc, rfl⟩ := hs.eq_renderPath
  obtain ⟨hp0, m, pp, hm, hm2, hpc, rfl⟩ := hp.eq_renderPath
  have hsp : pathParts (renderPath n sp) = sp := hsc.pathParts_renderPath hn
  have hpp : pathParts (renderPath m pp) = pp := hpc.pathParts_renderPath hm
  have hholds : RelpathHolds (renderPath n sp) (renderPath m pp) ↔
      sp ≠ [] ∧ pp ≠ [] ∧ n = m ∧ (pp <+: sp → pp = sp) ∧ relLength sp pp < fklPathMax := by
    constructor
    · rintro ⟨h1, h2, h3, h4, h5⟩
      rw [hsc.initialSlashes_renderPath hn2, hpc.initialSlashes_renderPath hm2] at h3
      rw [hsp] at h1
      rw [hpp] at h2
      rw [hsp, hpp] at h4 h5
      exact ⟨h1, h2, h3, h4, h5⟩
    · rintro ⟨h1, h2, h3, h4, h5⟩
      refine ⟨by rwa [hsp], by rwa [hpp], ?_, by rwa [hsp, hpp], by rwa [hsp, hpp]⟩
      rw [hsc.initialSlashes_renderPath hn2, hpc.initialSlashes_renderPath hm2, h3]
  rw [hholds, RelpathRight, fklRelpath_eq
    (show pathParts (cstr (renderPath n sp)) = sp by rw [cstr_eq_self hs0, hsp])
    (show pathParts (cstr (renderPath m pp)) = pp by rw [cstr_eq_self hp0, hpp])]
  by_cases hroot : sp = [] ∨ pp = []
  · rw [if_pos hroot]
    constructor
    · rintro ⟨rel, hrel, -⟩
      cases hrel
    · rintro ⟨h1, h2, -⟩
      exact absurd hroot (not_or.mpr ⟨h1, h2⟩)
  · obtain ⟨hspne, hppne⟩ := not_or.mp hroot
    -- joined and normalized
    have hjoin : ∀ rel, (0 : UInt8) ∉ rel → normpath (joinPath (renderPath n sp) rel) =
        some (renderPath n ((rel.splitOn pathSep).foldl (normComp true) sp)) := by
      intro rel hrel
      have hzero : (0 : UInt8) ∉ joinPath (renderPath n sp) rel := by
        intro hmem
        rcases List.mem_append.mp hmem with hmem | hmem
        · exact hs0 hmem
        · rcases List.mem_cons.mp hmem with hz | hmem
          · cases hz
          · exact hrel hmem
      rw [normpath_eq, cstr_eq_self hzero, normalPath_join hsc hspne hn hn2]
    rw [if_neg hroot]
    by_cases heq : sp = pp
    · subst heq
      have hdot : (dotComp.splitOn pathSep).foldl (normComp true) sp = sp := by
        rw [List.splitOn_eq_singleton (by decide)]
        rfl
      have hlen : relLength sp sp < fklPathMax := by
        have hk := (commonPrefixLen_eq_length sp sp).mpr List.prefix_rfl
        simp [relLength, hk, fklPathMax]
      rw [if_pos ((commonPrefixLen_eq_iff sp sp).mpr rfl)]
      simp only [Option.some.injEq, exists_eq_left', hjoin dotComp (by decide), hdot,
        hsc.renderPath_inj hsc hn hn2 hm hm2]
      simp [hspne, hlen]
    · have hpre := commonPrefixLen_eq_length sp pp
      have hcomps := foldl_normComp_rel hsc hpc hppne
      have htake := take_append_rel (commonPrefixLen_le sp pp).2
      have hcanon := foldl_normComp_canonical _ hsc (pathSep_not_mem_of_splitOn (relText
        (sp.length - commonPrefixLen sp pp) (pp.dropLast.drop (commonPrefixLen sp pp))
        (pp.getLast?.getD [])))
      have hzero : ∀ d ∈ pp, (0 : UInt8) ∉ d := by
        intro d hd hz
        rw [← hpp] at hd
        exact hp0 (mem_of_mem_splitOn (List.mem_filter.mp hd).1 hz)
      have htext : (0 : UInt8) ∉ relText (sp.length - commonPrefixLen sp pp)
          (pp.dropLast.drop (commonPrefixLen sp pp)) (pp.getLast?.getD []) := by
        refine zero_not_mem_relText ?_ ?_
        · intro d hd
          exact hzero d (List.dropLast_subset pp (List.mem_of_mem_drop hd))
        · obtain ⟨last, hlast⟩ := Option.ne_none_iff_exists'.mp
            (mt List.getLast?_eq_none_iff.mp hppne)
          rw [hlast]
          exact hzero last (List.mem_of_getLast? hlast)
      rw [hcomps] at hcanon
      rw [if_neg (mt (commonPrefixLen_eq_iff sp pp).mp heq)]
      have hlen := length_relText (sp.length - commonPrefixLen sp pp)
        (pp.dropLast.drop (commonPrefixLen sp pp)) (pp.getLast?.getD [])
      generalize relText (sp.length - commonPrefixLen sp pp)
        (pp.dropLast.drop (commonPrefixLen sp pp)) (pp.getLast?.getD []) = text at hcomps htext hlen ⊢
      have hback := hjoin text htext
      rw [hcomps] at hback
      constructor
      · rintro ⟨rel, hrel, hnorm⟩
        obtain ⟨hfits, htrel⟩ := Option.ite_none_right_eq_some.mp hrel
        obtain rfl := Option.some.inj htrel
        obtain ⟨hnm, hR⟩ := (hcanon.renderPath_inj hpc hn hn2 hm hm2).mp
          (Option.some.inj (hback.symm.trans hnorm))
        have hk := htake.mp hR
        have hlt := Nat.lt_of_le_of_ne (commonPrefixLen_le sp pp).2 hk
        refine ⟨hspne, hppne, hnm, fun h => absurd (hpre.mpr h) hk, ?_⟩
        rwa [relLength, drop_eq_rel hlt, ← hlen]
      · rintro ⟨-, -, hnm, habove, hfits⟩
        -- the last component of a directory above `start` would be there twice
        have hk : commonPrefixLen sp pp ≠ pp.length := fun h => heq (habove (hpre.mp h)).symm
        have hlt := Nat.lt_of_le_of_ne (commonPrefixLen_le sp pp).2 hk
        rw [relLength, drop_eq_rel hlt, ← hlen] at hfits
        rw [htake.mpr hk, hnm] at hback
        exact ⟨text, if_pos hfits, hnm ▸ hback⟩

/-- From `/a` to `/b`. -/
theorem relpathRight_iff_sibling : NormalAbs [47, 97] ∧ NormalAbs [47, 98] ∧
    (RelpathRight [47, 97] [47, 98] ↔ RelpathHolds [47, 97] [47, 98]) := by
  have ha : NormalAbs [47, 97] := ⟨by decide, rfl⟩
  have hb : NormalAbs [47, 98] := ⟨by decide, rfl⟩
  exact ⟨ha, hb, relpathRight_iff ha hb⟩

/-- From `/a/b` to `/a` the result is `../a`, which leads to `/a/a`. -/
theorem not_relpathRight_above : NormalAbs [47, 97, 47, 98] ∧ NormalAbs [47, 97] ∧
    ¬RelpathRight [47, 97, 47, 98] [47, 97] := by
  refine ⟨⟨by decide, rfl⟩, ⟨by decide, rfl⟩, ?_⟩
  rintro ⟨rel, hrel, hnorm⟩
  have htext : fklRelpath [47, 97, 47, 98] [47, 97] = some [46, 46, 47, 97] := by decide
  obtain rfl := Option.some.inj (htext.symm.trans hrel)
  have hjoin : normpath (joinPath [47, 97, 47, 98] [46, 46, 47, 97]) = some [47, 97, 47, 97] := by
    decide
  cases hjoin.symm.trans hnorm

end FakeLisp
