import FakeLisp.GrammerTexts

/-! A merge makes the union of two grammars, provided that the indices of the one were distinct,
and that of the other every string is a delimiter and every regular expression compiled. -/

namespace FakeLisp.GrammerTables

variable {C : Type} {E : GrammerEnv}

open SymTables

def FklGrammerProduction.rhs (rt : FklRegexTable) (p : FklGrammerProduction C) : List SymText :=
  p.syms.map (·.text rt)

def FklGrammerIgnore.texts (rt : FklRegexTable) (ig : FklGrammerIgnore) : List SymText :=
  (ig.map .term).map (FklGrammerSym.text rt)

namespace FklGrammer

variable {g g' g'' other : FklGrammer C} {nt nt' : Nat} {ps : List (FklGrammerProduction C)}
  {p : FklGrammerProduction C}

def prodsOf (g : FklGrammer C) (nt : Nat) : List (FklGrammerProduction C) :=
  (g.prods.get nt).getD []

/-- The right sides of a nonterminal. -/
def rhss (g : FklGrammer C) (nt : Nat) : List (List SymText) :=
  (g.prodsOf nt).map (·.rhs g.regexes)

def ignoreTexts (g : FklGrammer C) : List (List SymText) :=
  g.ignores.map (·.texts g.regexes)

@[simp] theorem prodsOf_setProds :
    (g.setProds nt ps).prodsOf nt' = if nt' = nt then ps else g.prodsOf nt' := by
  by_cases h : nt' = nt <;> simp [prodsOf, setProds, InsertionMap.get_set, h]

@[simp] theorem prodsOf_appendProd : (g.appendProd ps p).prodsOf nt =
    if nt = p.left then ps ++ [{ p with idx := g.prodCount }] else g.prodsOf nt :=
  prodsOf_setProds

theorem mem_allProds : p ∈ g.allProds ↔ ∃ nt, p ∈ g.prodsOf nt := by
  rw [allProds, List.mem_flatMap]
  constructor
  · rintro ⟨e, he, hp⟩
    refine ⟨e.1, ?_⟩
    simpa [prodsOf, InsertionMap.get, InsertionMap.elm_of_mem nontermEquiv he] using hp
  · rintro ⟨nt, hp⟩
    cases he : g.prods.elm nt with
    | none => simp [prodsOf, InsertionMap.get, he] at hp
    | some e =>
      exact ⟨e, InsertionMap.mem_of_elm he, by simpa [prodsOf, InsertionMap.get, he] using hp⟩

/-- The productions of one nonterminal and the rest. -/
theorem allProds_setProds (g : FklGrammer C) (nt : Nat) (ps : List (FklGrammerProduction C)) :
    ∃ rest, g.allProds.Perm (g.prodsOf nt ++ rest) ∧
      (g.setProds nt ps).allProds.Perm (ps ++ rest) := by
  cases he : g.prods.elm nt with
  | none =>
    have hnil : g.prodsOf nt = [] := by simp [prodsOf, InsertionMap.get, he]
    refine ⟨g.allProds, by rw [hnil, List.nil_append], ?_⟩
    rw [allProds, setProds, InsertionMap.entries_set_of_none nontermEquiv he]
    simpa [allProds] using List.perm_append_comm
  | some e =>
    obtain ⟨pre, post, hold, hnew⟩ := InsertionMap.entries_set_of_some nontermEquiv he (v := ps)
    have hes : g.prodsOf nt = e.2 := by simp [prodsOf, InsertionMap.get, he]
    refine ⟨pre.flatMap (·.2) ++ post.flatMap (·.2), ?_, ?_⟩
    · rw [allProds, hold, hes]
      simpa using (List.perm_append_comm_assoc _ _ _)
    · rw [allProds, setProds, hnew]
      simpa using (List.perm_append_comm_assoc _ _ _)

/-- A production put behind those of its left side. -/
theorem allProds_append (hp : g'.prods = (g.setProds nt (g.prodsOf nt ++ [p])).prods) :
    g'.allProds.Perm (p :: g.allProds) := by
  obtain ⟨rest, hold, hnew⟩ := allProds_setProds g nt (g.prodsOf nt ++ [p])
  rw [allProds, hp]
  refine hnew.trans (List.Perm.trans ?_ (hold.symm.cons p))
  rw [List.append_assoc]
  exact List.perm_middle

/-! What holds of a grammar that was built. -/

structure Good (E : GrammerEnv) (g : FklGrammer C) : Prop where
  left : ∀ nt, ∀ p ∈ g.prodsOf nt, p.left = nt ∧ E.isBuiltin nt = false
  syms : ∀ nt, ∀ p ∈ g.prodsOf nt, ∀ s ∈ p.syms, g.HasSym s
  once : ∀ nt, (g.rhss nt).Nodup
  idx_lt : ∀ nt, ∀ p ∈ g.prodsOf nt, p.idx < g.prodCount
  igSyms : ∀ ig ∈ g.ignores, ∀ s ∈ ig, g.HasSym (.term s)
  igOnce : g.ignoreTexts.Nodup
  compiles : ∀ k ∈ g.regexes.keys, E.compiles k = true

def IdxDistinct (g : FklGrammer C) : Prop := (g.allProds.map (·.idx)).Nodup

theorem mem_rhss_appendProd {x : List SymText} :
    x ∈ (g.appendProd (g.prodsOf p.left) p).rhss nt ↔
      x ∈ g.rhss nt ∨ p.left = nt ∧ p.rhs g.regexes = x := by
  rw [rhss, prodsOf_appendProd]
  by_cases hnt : nt = p.left
  · subst hnt
    rw [if_pos rfl, List.map_append, List.mem_append, List.map_singleton, List.mem_singleton]
    exact or_congr_right ⟨fun h => ⟨rfl, h.symm⟩, fun h => h.2.symm⟩
  · rw [if_neg hnt]
    exact ⟨.inl, fun h => h.elim id fun h => absurd h.1.symm hnt⟩

/-- The index behind all others is new. -/
theorem idxDistinct_append (hg : g.Good E)
    (hp : g'.allProds.Perm ({ p with idx := g.prodCount } :: g.allProds)) :
    g'.IdxDistinct ↔ g.IdxDistinct := by
  rw [IdxDistinct, (hp.map (·.idx)).nodup_iff, List.map_cons, List.nodup_cons]
  refine ⟨And.right, fun h => ⟨fun hmem => ?_, h⟩⟩
  obtain ⟨q, hq, hidx⟩ := List.mem_map.mp hmem
  obtain ⟨nt, hq⟩ := mem_allProds.mp hq
  exact absurd hidx (hg.idx_lt nt q hq).ne

theorem prodEqual_iff {t : SymTables} {p q : FklGrammerProduction C}
    (hp : ∀ s ∈ p.syms, t.HasSym s) (hq : ∀ s ∈ q.syms, t.HasSym s) :
    prodEqual p q = true ↔ p.rhs t.regexes = q.rhs t.regexes :=
  arrayEqual_iff fun s hs s' hs' => prodSymEqual_iff (hp s hs) (hq s' hs')

theorem ignoreEqual_iff {t : SymTables} {a b : FklGrammerIgnore}
    (ha : ∀ s ∈ a, t.HasSym (.term s)) (hb : ∀ s ∈ b, t.HasSym (.term s)) :
    ignoreEqual a b = true ↔ a.texts t.regexes = b.texts t.regexes := by
  rw [FklGrammerIgnore.texts, FklGrammerIgnore.texts, List.map_map, List.map_map]
  refine arrayEqual_iff fun s hs s' hs' => ?_
  rw [ignoreSymEqual_iff (ha s hs) (hb s' hs')]
  simp [FklGrammerSym.text]

theorem rhs_extends {ds : List (List UInt8)} {t t' : SymTables} (h : Extends ds t t')
    (hp : ∀ s ∈ p.syms, t.HasSym s) : p.rhs t'.regexes = p.rhs t.regexes :=
  List.map_congr_left fun s hs => h.text (hp s hs)

theorem texts_extends {ds : List (List UInt8)} {t t' : SymTables} (h : Extends ds t t')
    {ig : FklGrammerIgnore} (hig : ∀ s ∈ ig, t.HasSym (.term s)) :
    ig.texts t'.regexes = ig.texts t.regexes := by
  refine List.map_congr_left fun s hs => ?_
  obtain ⟨x, hx, rfl⟩ := List.mem_map.mp hs
  exact h.text (hig x hx)

/-- Only the tables change. -/
theorem rhss_extends {ds : List (List UInt8)} {t : SymTables} (hg : g.Good E)
    (h : Extends ds g.toSymTables t) (nt : Nat) :
    ({ g with toSymTables := t } : FklGrammer C).rhss nt = g.rhss nt :=
  List.map_congr_left fun p hp => rhs_extends h (hg.syms nt p hp)

theorem ignoreTexts_extends {ds : List (List UInt8)} {t : SymTables} (hg : g.Good E)
    (h : Extends ds g.toSymTables t) :
    ({ g with toSymTables := t } : FklGrammer C).ignoreTexts = g.ignoreTexts :=
  List.map_congr_left fun ig hig => texts_extends h (hg.igSyms ig hig)

theorem Good.extends {ds : List (List UInt8)} {t : SymTables} (hg : g.Good E)
    (h : Extends ds g.toSymTables t) (hc : ∀ k ∈ t.regexes.keys, E.compiles k = true) :
    Good E ({ g with toSymTables := t } : FklGrammer C) where
  left := hg.left
  syms nt p hp s hs := h.hasSym (hg.syms nt p hp s hs)
  once nt := by
    rw [rhss_extends hg h]
    exact hg.once nt
  idx_lt := hg.idx_lt
  igSyms ig hig s hs := h.hasSym (hg.igSyms ig hig s hs)
  igOnce := by
    rw [ignoreTexts_extends hg h]
    exact hg.igOnce
  compiles := hc

/-- New productions of one nonterminal. -/
theorem Good.setProds (hg : g.Good E) {n start : Nat} (hn : g.prodCount ≤ n)
    (hleft : ∀ p ∈ ps, p.left = nt ∧ E.isBuiltin nt = false)
    (hsyms : ∀ p ∈ ps, ∀ s ∈ p.syms, g.HasSym s) (hidx : ∀ p ∈ ps, p.idx < n)
    (honce : (ps.map (·.rhs g.regexes)).Nodup) :
    Good E { g.setProds nt ps with prodCount := n, start } := by
  have hcases (nt' : Nat) : (g.setProds nt ps).prodsOf nt' = ps ∧ nt' = nt ∨
      (g.setProds nt ps).prodsOf nt' = g.prodsOf nt' := by
    rw [prodsOf_setProds]
    by_cases h : nt' = nt <;> simp [h]
  refine ⟨fun nt' p hp => ?_, fun nt' p hp => ?_, fun nt' => ?_, fun nt' p hp => ?_, hg.igSyms,
    hg.igOnce, hg.compiles⟩
  · change p ∈ (g.setProds nt ps).prodsOf nt' at hp
    rcases hcases nt' with ⟨h, rfl⟩ | h
    · exact hleft p (h ▸ hp)
    · exact hg.left nt' p (h ▸ hp)
  · change p ∈ (g.setProds nt ps).prodsOf nt' at hp
    rcases hcases nt' with ⟨h, rfl⟩ | h
    · exact hsyms p (h ▸ hp)
    · exact hg.syms nt' p (h ▸ hp)
  · change (((g.setProds nt ps).prodsOf nt').map (·.rhs g.regexes)).Nodup
    rcases hcases nt' with ⟨h, rfl⟩ | h
    · rwa [h]
    · rw [h]
      exact hg.once nt'
  · change p ∈ (g.setProds nt ps).prodsOf nt' at hp
    rcases hcases nt' with ⟨h, rfl⟩ | h
    · exact hidx p (h ▸ hp)
    · exact (hg.idx_lt nt' p (h ▸ hp)).trans_le hn

/-! Productions are added. -/

/-- What the functions that add a production do: an equal one is replaced, or it goes behind the
others of its left side. -/
theorem addProd_cases {onEqual : FklGrammerProduction C → Option (FklGrammerProduction C)}
    {onFirst : FklGrammer C → FklGrammer C}
    (h : g.addProd E onEqual onFirst p = some g') : E.isBuiltin p.left = false ∧
      ((∃ pre cur post q, g.prodsOf p.left = pre ++ cur :: post ∧ prodEqual cur p = true ∧
        onEqual cur = some q ∧ g' = g.setProds p.left (pre ++ q :: post)) ∨
      ((∀ cur ∈ g.prodsOf p.left, prodEqual cur p = false) ∧
        (g' = g.appendProd (g.prodsOf p.left) p ∨
          g.prodsOf p.left = [] ∧ g' = (onFirst g).appendProd [] p))) := by
  unfold addProd at h
  split at h
  · cases h
  rename_i hb
  refine ⟨by simpa using hb, ?_⟩
  cases hget : g.prods.get p.left with
  | none =>
    have hnil : g.prodsOf p.left = [] := by simp [prodsOf, hget]
    simp only [hget] at h
    exact .inr ⟨by simp [hnil], .inr ⟨hnil, (Option.some.inj h).symm⟩⟩
  | some ps =>
    have hps : g.prodsOf p.left = ps := by simp [prodsOf, hget]
    rw [hps]
    simp only [hget] at h
    have hsplit := List.takeWhile_append_dropWhile
      (p := fun cur => !prodEqual cur p) (l := ps)
    rw [List.span_eq_takeWhile_dropWhile] at h
    cases hdrop : ps.dropWhile fun cur => !prodEqual cur p with
    | nil =>
      rw [hdrop] at h
      have hall := List.dropWhile_eq_nil_iff.mp hdrop
      exact .inr ⟨fun cur hcur => by simpa using hall cur hcur, .inl (Option.some.inj h).symm⟩
    | cons cur post =>
      rw [hdrop] at h hsplit
      obtain ⟨q, hq, rfl⟩ := Option.map_eq_some_iff.mp h
      have hcur := List.head_dropWhile_not (fun cur => !prodEqual cur p)
        (l := ps) (by simp [hdrop])
      simp only [hdrop, List.head_cons, Bool.not_eq_false'] at hcur
      exact .inl ⟨_, cur, post, q, hsplit.symm, hcur, hq, rfl⟩

theorem addProd_some {onEqual : FklGrammerProduction C → Option (FklGrammerProduction C)}
    (g : FklGrammer C) (onFirst : FklGrammer C → FklGrammer C) (hb : E.isBuiltin p.left = false)
    (hequal : ∀ cur, ∃ q, onEqual cur = some q) :
    ∃ g', g.addProd E onEqual onFirst p = some g' := by
  rw [addProd, if_neg (by simp [hb])]
  split
  · split
    · next cur _ _ =>
      obtain ⟨q, hq⟩ := hequal cur
      exact ⟨_, by rw [hq]; rfl⟩
    · exact ⟨_, rfl⟩
  · exact ⟨_, rfl⟩

theorem Good.appendProd (hg : g.Good E) (hb : E.isBuiltin p.left = false)
    (hsyms : ∀ s ∈ p.syms, g.HasSym s) (hps : ∀ q ∈ ps, q ∈ g.prodsOf p.left)
    (hnodup : (ps.map (·.rhs g.regexes)).Nodup) (hne : ∀ cur ∈ ps, prodEqual cur p = false) :
    Good E (g.appendProd ps p) := by
  refine hg.setProds (Nat.le_succ _) (fun q hq => ?_) (fun q hq => ?_) (fun q hq => ?_) ?_
  · rcases List.mem_append.mp hq with hq | hq
    · exact hg.left _ q (hps q hq)
    · obtain rfl := List.mem_singleton.mp hq
      exact ⟨rfl, hb⟩
  · rcases List.mem_append.mp hq with hq | hq
    · exact hg.syms _ q (hps q hq)
    · obtain rfl := List.mem_singleton.mp hq
      exact hsyms
  · rcases List.mem_append.mp hq with hq | hq
    · exact (hg.idx_lt _ q (hps q hq)).trans (Nat.lt_succ_self _)
    · obtain rfl := List.mem_singleton.mp hq
      exact Nat.lt_succ_self _
  · rw [List.map_append]
    refine hnodup.append (List.nodup_singleton _) ?_
    rw [List.disjoint_left]
    intro x hx hx'
    obtain ⟨cur, hcur, rfl⟩ := List.mem_map.mp hx
    have heq : cur.rhs g.regexes = p.rhs g.regexes := List.mem_singleton.mp hx'
    rw [← prodEqual_iff (hg.syms _ cur (hps cur hcur)) hsyms, hne cur hcur] at heq
    cases heq

/-- One production makes room for another with the same right side. -/
theorem Good.replaceProd (hg : g.Good E) {pre post : List (FklGrammerProduction C)}
    {cur q : FklGrammerProduction C} (hps : g.prodsOf nt = pre ++ cur :: post)
    (hleft : q.left = nt) (hsyms : ∀ s ∈ q.syms, g.HasSym s) (hidx : q.idx ≤ cur.idx)
    (hrhs : q.rhs g.regexes = cur.rhs g.regexes) :
    Good E (g.setProds nt (pre ++ q :: post)) := by
  have hcur : cur ∈ g.prodsOf nt := by simp [hps]
  have hmem : ∀ x ∈ pre ++ q :: post, x = q ∨ x ∈ g.prodsOf nt := by
    intro x hx
    rw [hps]
    rcases List.mem_append.mp hx with hx | hx
    · exact .inr (List.mem_append_left _ hx)
    · rcases List.mem_cons.mp hx with rfl | hx
      · exact .inl rfl
      · exact .inr (List.mem_append_right _ (List.mem_cons_of_mem _ hx))
  refine hg.setProds le_rfl (fun x hx => ?_) (fun x hx => ?_) (fun x hx => ?_) ?_
  · rcases hmem x hx with rfl | hx
    · exact ⟨hleft, (hg.left nt cur hcur).2⟩
    · exact hg.left nt x hx
  · rcases hmem x hx with rfl | hx
    · exact hsyms
    · exact hg.syms nt x hx
  · rcases hmem x hx with rfl | hx
    · exact hidx.trans_lt (hg.idx_lt nt cur hcur)
    · exact hg.idx_lt nt x hx
  · have honce := hg.once nt
    rw [FklGrammer.rhss, hps, List.map_append, List.map_cons] at honce
    rwa [List.map_append, List.map_cons, hrhs]

theorem Good.addProd {onEqual : FklGrammerProduction C → Option (FklGrammerProduction C)}
    {onFirst : FklGrammer C → FklGrammer C} (hg : g.Good E)
    (hsyms : ∀ s ∈ p.syms, g.HasSym s)
    (hequal : ∀ cur ∈ g.prodsOf p.left, prodEqual cur p = true → ∀ q, onEqual cur = some q →
      q.left = p.left ∧ q.syms = p.syms ∧ q.idx ≤ cur.idx)
    (hfirst : Good E (onFirst g) ∧ (onFirst g).toSymTables = g.toSymTables)
    (h : g.addProd E onEqual onFirst p = some g') : Good E g' := by
  obtain ⟨hb, hrep | ⟨hne, rfl | ⟨-, rfl⟩⟩⟩ := addProd_cases h
  · obtain ⟨pre, cur, post, q, hps, heq, hq, rfl⟩ := hrep
    have hcur : cur ∈ g.prodsOf p.left := by simp [hps]
    obtain ⟨hleft, hqsyms, hidx⟩ := hequal cur hcur heq q hq
    have hrhs := (prodEqual_iff (hg.syms _ cur hcur) hsyms).mp heq
    refine hg.replaceProd hps hleft (hqsyms ▸ hsyms) hidx ?_
    rw [hrhs, FklGrammerProduction.rhs, hqsyms, FklGrammerProduction.rhs]
  · exact hg.appendProd hb hsyms (fun _ => id) (hg.once p.left) hne
  · exact hfirst.1.appendProd hb (hfirst.2 ▸ hsyms) (by simp) List.nodup_nil (by simp)

theorem Good.addExtra (hg : g.Good E) (left : Nat) (noAction : C) :
    Good E (g.addExtra left noAction) := by
  refine hg.setProds (Nat.le_succ _) ?_ ?_ ?_ (List.nodup_singleton _)
  · simpa [createExtraProduction] using E.isBuiltin_null
  · simp [createExtraProduction, HasSym]
  · simp

theorem addIgnore_of_mem (hg : g.Good E) {ig : FklGrammerIgnore}
    (hig : ∀ s ∈ ig, g.HasSym (.term s))
    (hmem : FklGrammerIgnore.texts g.regexes ig ∈ g.ignoreTexts) :
    fklAddIgnoreToIgnoreList g.ignores ig = none := by
  obtain ⟨cur, hcur, heq⟩ := List.mem_map.mp hmem
  have hequal := (ignoreEqual_iff (hg.igSyms cur hcur) hig).mpr heq
  exact if_pos (List.any_eq_true.mpr ⟨cur, hcur, hequal⟩)

theorem addIgnore_of_not_mem (hg : g.Good E) {ig : FklGrammerIgnore}
    (hig : ∀ s ∈ ig, g.HasSym (.term s))
    (hmem : FklGrammerIgnore.texts g.regexes ig ∉ g.ignoreTexts) :
    fklAddIgnoreToIgnoreList g.ignores ig = some (g.ignores ++ [ig]) ∧
      Good E { g with ignores := g.ignores ++ [ig] } := by
  have hany : ¬(g.ignores.any fun cur => ignoreEqual cur ig) = true := by
    intro hany
    obtain ⟨cur, hcur, hequal⟩ := List.any_eq_true.mp hany
    have heq := (ignoreEqual_iff (hg.igSyms cur hcur) hig).mp hequal
    exact hmem (List.mem_map.mpr ⟨cur, hcur, heq⟩)
  refine ⟨if_neg hany, hg.left, hg.syms, hg.once, hg.idx_lt, fun ig' hig' => ?_, ?_,
    hg.compiles⟩
  · rcases List.mem_append.mp hig' with hig' | hig'
    · exact hg.igSyms ig' hig'
    · obtain rfl := List.mem_singleton.mp hig'
      exact hig
  · change ((g.ignores ++ [ig]).map (FklGrammerIgnore.texts g.regexes)).Nodup
    rw [List.map_append]
    refine hg.igOnce.append (List.nodup_singleton _) ?_
    rw [List.disjoint_left]
    intro x hx hx'
    obtain rfl := List.mem_singleton.mp hx'
    exact hmem hx

theorem noRepeat_of_mem (hg : g.Good E) (hsyms : ∀ s ∈ p.syms, g.HasSym s)
    (hmem : p.rhs g.regexes ∈ g.rhss p.left) : g.fklAddProdToProdTableNoRepeat E p = none := by
  by_contra h
  obtain ⟨g', h⟩ := Option.ne_none_iff_exists'.mp h
  obtain ⟨cur, hcur, heq⟩ := List.mem_map.mp hmem
  have hequal := (prodEqual_iff (hg.syms _ cur hcur) hsyms).mpr heq
  obtain ⟨-, ⟨pre, cur', post, q, -, -, hq, -⟩ | ⟨hne, -⟩⟩ := addProd_cases h
  · cases hq
  · rw [hne cur hcur] at hequal
    cases hequal

theorem noRepeat_of_not_mem (hg : g.Good E) (hsyms : ∀ s ∈ p.syms, g.HasSym s)
    (hb : E.isBuiltin p.left = false) (hmem : p.rhs g.regexes ∉ g.rhss p.left) :
    g.fklAddProdToProdTableNoRepeat E p = some (g.appendProd (g.prodsOf p.left) p) ∧
      Good E (g.appendProd (g.prodsOf p.left) p) := by
  have hne : ∀ cur ∈ g.prodsOf p.left, prodEqual cur p = false := by
    intro cur hcur
    rw [Bool.eq_false_iff, ne_eq, prodEqual_iff (hg.syms _ cur hcur) hsyms]
    exact fun heq => hmem (List.mem_map.mpr ⟨cur, hcur, heq⟩)
  refine ⟨?_, hg.appendProd hb hsyms (fun _ => id) (hg.once p.left) hne⟩
  rw [fklAddProdToProdTableNoRepeat, FklGrammer.addProd, hb]
  cases hget : g.prods.get p.left with
  | none => simp [prodsOf, hget]
  | some ps =>
    have hps : g.prodsOf p.left = ps := by simp [prodsOf, hget]
    rw [hps] at hne
    have hall : ps.dropWhile (fun cur => !prodEqual cur p) = [] :=
      List.dropWhile_eq_nil_iff.mpr fun cur hcur => by simp [hne cur hcur]
    simp [List.span_eq_takeWhile_dropWhile, hall, hps]

/-! The merge, item by item. -/

/-- An ignore or a production. -/
abbrev Item (C : Type) := FklGrammerIgnore ⊕ FklGrammerProduction C

def itemSyms : Item C → List FklGrammerSym
  | .inl ig => ig.map .term
  | .inr p => p.syms

def mergeItem (E : GrammerEnv) (rt : FklRegexTable) (g : FklGrammer C) :
    Item C → Option (FklGrammer C)
  | .inl ig => g.fklMergeGrammerIgnore E ig rt
  | .inr p => g.fklMergeGrammerProd E p rt

def items (g : FklGrammer C) : List (Item C) :=
  g.ignores.map .inl ++ g.allProds.map .inr

def Present (rt : FklRegexTable) (g : FklGrammer C) : Item C → Prop
  | .inl ig => ig.texts rt ∈ g.ignoreTexts
  | .inr p => p.rhs rt ∈ g.rhss p.left

/-- The grammar `g'` is `g` with the items of another grammar merged into it. -/
structure Merged (E : GrammerEnv) (rt : FklRegexTable) (is : List (Item C))
    (g g' : FklGrammer C) : Prop where
  good : Good E g'
  tables : Extends ((is.flatMap itemSyms).flatMap (·.delims)) g.toSymTables g'.toSymTables
  rhss : ∀ nt x, x ∈ g'.rhss nt ↔
    x ∈ g.rhss nt ∨ ∃ p, .inr p ∈ is ∧ p.left = nt ∧ p.rhs rt = x
  ignores : ∀ x, x ∈ g'.ignoreTexts ↔ x ∈ g.ignoreTexts ∨ ∃ ig, .inl ig ∈ is ∧ ig.texts rt = x
  kept : ∀ nt, g.prodsOf nt <+: g'.prodsOf nt
  taken : ∀ nt, ∀ p ∈ g'.prodsOf nt, p ∈ g.prodsOf nt ∨
    ∃ q, .inr q ∈ is ∧ q.left = nt ∧ q.rhs rt = p.rhs g'.regexes ∧ q.action = p.action
  idx : g'.IdxDistinct ↔ g.IdxDistinct
  covers : ∀ s ∈ is.flatMap itemSyms, g'.Covers (s.text rt)
  same : (∀ i ∈ is, g.Present rt i) → (∀ s ∈ is.flatMap itemSyms, g.Covers (s.text rt)) →
    g' = g

variable {rt : FklRegexTable} {is is' : List (Item C)}

theorem Merged.nil (hg : g.Good E) : Merged E rt [] g g where
  good := hg
  tables := Extends.refl _
  rhss := by simp
  ignores := by simp
  kept nt := List.prefix_refl _
  taken _ _ hp := .inl hp
  idx := Iff.rfl
  covers := by simp
  same _ _ := rfl

theorem Merged.append (h : Merged E rt is g g') (h' : Merged E rt is' g' g'') :
    Merged E rt (is ++ is') g g'' where
  good := h'.good
  tables := by
    rw [List.flatMap_append, List.flatMap_append]
    exact h.tables.trans h'.tables
  rhss nt x := by
    rw [h'.rhss, h.rhss, or_assoc, ← exists_or]
    simp only [List.mem_append, or_and_right]
  ignores x := by
    rw [h'.ignores, h.ignores, or_assoc, ← exists_or]
    simp only [List.mem_append, or_and_right]
  kept nt := (h.kept nt).trans (h'.kept nt)
  taken nt p hp := by
    rcases h'.taken nt p hp with hp' | ⟨q, hq, hnt, hrhs, haction⟩
    · rcases h.taken nt p hp' with hp | ⟨q, hq, hnt, hrhs, haction⟩
      · exact .inl hp
      · rw [← rhs_extends h'.tables (h.good.syms nt p hp')] at hrhs
        exact .inr ⟨q, List.mem_append_left is' hq, hnt, hrhs, haction⟩
    · exact .inr ⟨q, List.mem_append_right is hq, hnt, hrhs, haction⟩
  idx := h'.idx.trans h.idx
  covers s hs := by
    rw [List.flatMap_append, List.mem_append] at hs
    exact hs.elim (fun hs => h'.tables.covers (h.covers s hs)) (h'.covers s)
  same hp hc := by
    rw [List.flatMap_append] at hc
    have hgg : g' = g := h.same (fun i hi => hp i (List.mem_append_left is' hi))
      fun s hs => hc s (List.mem_append_left _ hs)
    subst hgg
    exact h'.same (fun i hi => hp i (List.mem_append_right is hi))
      fun s hs => hc s (List.mem_append_right _ hs)

/-- One item, of which the symbols were copied into the tables `t`. -/
theorem Merged.single {i : Item C} {t : SymTables} {ss : List FklGrammerSym} (hg : g.Good E)
    (hcopy : Copies E rt g.toSymTables (itemSyms i) t ss) (good : Good E g')
    (htab : g'.toSymTables = t)
    (rhss : ∀ nt x, x ∈ g'.rhss nt ↔ x ∈ ({ g with toSymTables := t } : FklGrammer C).rhss nt ∨
      ∃ p, i = .inr p ∧ p.left = nt ∧ p.rhs rt = x)
    (ignores : ∀ x, x ∈ g'.ignoreTexts ↔
      x ∈ ({ g with toSymTables := t } : FklGrammer C).ignoreTexts ∨
        ∃ ig, i = .inl ig ∧ FklGrammerIgnore.texts rt ig = x)
    (kept : ∀ nt, g.prodsOf nt <+: g'.prodsOf nt)
    (taken : ∀ nt, ∀ p ∈ g'.prodsOf nt, p ∈ g.prodsOf nt ∨
      ∃ q, i = .inr q ∧ q.left = nt ∧ q.rhs rt = p.rhs t.regexes ∧ q.action = p.action)
    (idx : g'.IdxDistinct ↔ g.IdxDistinct)
    (same : ({ g with toSymTables := t } : FklGrammer C).Present rt i →
      g' = { g with toSymTables := t }) : Merged E rt [i] g g' where
  good := good
  tables := by simpa [htab] using hcopy.extends_
  rhss nt x := by
    rw [rhss, rhss_extends hg hcopy.extends_]
    simp [eq_comm]
  ignores x := by
    rw [ignores, ignoreTexts_extends hg hcopy.extends_]
    simp [eq_comm]
  kept := kept
  taken nt p hp := by simpa [htab, eq_comm] using taken nt p hp
  idx := idx
  covers := by simpa [htab] using hcopy.covers
  same hp hc := by
    have ht : t = g.toSymTables := hcopy.same (by simpa using hc)
    subst ht
    exact same (hp i List.mem_cons_self)

theorem mergeIgnore_merged (hg : g.Good E) (hrt : ∀ k ∈ rt.keys, E.compiles k = true)
    {ig : FklGrammerIgnore} (h : g.fklMergeGrammerIgnore E ig rt = some g') :
    Merged E rt [.inl ig] g g' := by
  obtain ⟨⟨t, newIg⟩, ht, h⟩ := Option.bind_eq_some_iff.mp h
  have hcopy := mergeAll_copies .term (fun h => mergeIgnoreSym_copies hrt h) ht
  have hgood := hg.extends hcopy.extends_ (hcopy.compiles hg.compiles)
  have hig : ∀ s ∈ newIg, t.HasSym (.term s) := fun s hs =>
    hcopy.has _ (List.mem_map_of_mem hs)
  have htexts : FklGrammerIgnore.texts t.regexes newIg = FklGrammerIgnore.texts rt ig :=
    hcopy.text
  by_cases hmem : FklGrammerIgnore.texts t.regexes newIg ∈
      ({ g with toSymTables := t } : FklGrammer C).ignoreTexts
  · have hadd : fklAddIgnoreToIgnoreList g.ignores newIg = none := addIgnore_of_mem hgood hig hmem
    obtain rfl := Option.some.inj h
    rw [hadd]
    refine Merged.single hg hcopy hgood rfl (by simp) (fun x => ?_)
      (fun _ => List.prefix_refl _) (fun _ _ => .inl) Iff.rfl (fun _ => rfl)
    rw [htexts] at hmem
    simp only [Sum.inl.injEq, exists_eq_left']
    exact ⟨.inl, fun hx => hx.elim id fun hx => hx ▸ hmem⟩
  · obtain ⟨hadd, hgood'⟩ := addIgnore_of_not_mem hgood hig hmem
    have hadd : fklAddIgnoreToIgnoreList g.ignores newIg = some (g.ignores ++ [newIg]) := hadd
    obtain rfl := Option.some.inj h
    rw [hadd]
    refine Merged.single hg hcopy hgood' rfl (by simp [rhss, prodsOf]) (fun x => ?_)
      (fun _ => List.prefix_refl _) (fun _ _ => .inl) Iff.rfl (fun hp => ?_)
    · simp [ignoreTexts, htexts, eq_comm]
    · rw [Present, ← htexts] at hp
      exact absurd hp hmem

theorem mergeProd_merged (hg : g.Good E) (hrt : ∀ k ∈ rt.keys, E.compiles k = true)
    (hb : E.isBuiltin p.left = false) (h : g.fklMergeGrammerProd E p rt = some g') :
    Merged E rt [.inr p] g g' := by
  obtain ⟨⟨t, syms⟩, ht, h⟩ := Option.bind_eq_some_iff.mp h
  have hcopy := mergeAll_copies id (fun h => mergeProdSym_copies hrt h) ht
  rw [List.map_id, List.map_id] at hcopy
  have hgood := hg.extends hcopy.extends_ (hcopy.compiles hg.compiles)
  set newProd := fklCreateProduction p.left syms p.action with hnew
  have hrhs : newProd.rhs t.regexes = p.rhs rt := hcopy.text
  obtain rfl := Option.some.inj h
  by_cases hmem : newProd.rhs t.regexes ∈
      ({ g with toSymTables := t } : FklGrammer C).rhss p.left
  · rw [noRepeat_of_mem hgood hcopy.has hmem]
    refine Merged.single hg hcopy hgood rfl (fun nt x => ?_) (by simp)
      (fun _ => List.prefix_refl _) (fun _ _ => .inl) Iff.rfl (fun _ => rfl)
    rw [hrhs] at hmem
    simp only [Sum.inr.injEq, exists_eq_left']
    exact ⟨.inl, fun hx => hx.elim id fun ⟨hnt, hx⟩ => hnt ▸ hx ▸ hmem⟩
  · obtain ⟨hadd, hgood'⟩ := noRepeat_of_not_mem (p := newProd) hgood hcopy.has hb hmem
    rw [hadd, Option.getD_some]
    refine Merged.single hg hcopy hgood' rfl (fun nt x => ?_) (fun x => ?_) (fun nt => ?_)
      (fun nt q hq => ?_) (idxDistinct_append (p := newProd) hg (allProds_append rfl))
      (fun hp => ?_)
    · simp only [Sum.inr.injEq, exists_eq_left']
      rw [← hrhs]
      exact mem_rhss_appendProd
    · simp [ignoreTexts, FklGrammer.appendProd, FklGrammer.setProds]
    · rw [prodsOf_appendProd]
      split
      · rename_i hnt
        subst hnt
        exact List.prefix_append _ _
      · exact List.prefix_refl _
    · rw [prodsOf_appendProd] at hq
      split at hq
      · rename_i hnt
        subst hnt
        rcases List.mem_append.mp hq with hq | hq
        · exact .inl hq
        · obtain rfl := List.mem_singleton.mp hq
          exact .inr ⟨p, rfl, rfl, hrhs.symm, rfl⟩
      · exact .inl hq
    · rw [Present, ← hrhs] at hp
      exact absurd hp hmem

theorem mergeItems_merged (hg : g.Good E) (hrt : ∀ k ∈ rt.keys, E.compiles k = true)
    (hb : ∀ p, .inr p ∈ is → E.isBuiltin p.left = false)
    (h : is.foldlM (mergeItem E rt) g = some g') : Merged E rt is g g' := by
  induction is generalizing g with
  | nil =>
    obtain rfl := Option.some.inj h
    exact Merged.nil hg
  | cons i is ih =>
    obtain ⟨g₁, hi, h⟩ := Option.bind_eq_some_iff.mp h
    have hfirst : Merged E rt [i] g g₁ := by
      cases i with
      | inl ig => exact mergeIgnore_merged hg hrt hi
      | inr p => exact mergeProd_merged hg hrt (hb p List.mem_cons_self) hi
    exact hfirst.append (ih hfirst.good (fun p hp => hb p (List.mem_cons_of_mem i hp)) h)

theorem mergeItem_eq_none_iff {fr : SymTables} {i : Item C}
    (hi : ∀ s ∈ itemSyms i, fr.HasSym s) :
    mergeItem E fr.regexes g i = none ↔ ∃ s ∈ itemSyms i, NullRegex s := by
  cases i with
  | inl ig =>
    have hall : g.toSymTables.mergeAll (·.mergeIgnoreSym E fr.regexes) ig = none ↔
        ∃ s ∈ ig, NullRegex (.term s) := mergeAll_eq_none_iff fun t s hs =>
      mergeIgnoreSym_eq_none_iff (hi (.term s) (List.mem_map_of_mem hs))
    have hmap : (∃ s ∈ itemSyms (C := C) (.inl ig), NullRegex s) ↔ ∃ s ∈ ig, NullRegex (.term s)
    := by
      simp [itemSyms]
    rw [hmap, ← hall]
    cases hm : g.toSymTables.mergeAll (·.mergeIgnoreSym E fr.regexes) ig <;>
      simp [mergeItem, fklMergeGrammerIgnore, hm]
  | inr p =>
    have hall : g.toSymTables.mergeAll (·.mergeProdSym E fr.regexes) p.syms = none ↔
        ∃ s ∈ p.syms, NullRegex s := mergeAll_eq_none_iff fun t s hs =>
      mergeProdSym_eq_none_iff (hi s hs)
    rw [itemSyms, ← hall]
    cases hm : g.toSymTables.mergeAll (·.mergeProdSym E fr.regexes) p.syms <;>
      simp [mergeItem, fklMergeGrammerProd, hm]

theorem mergeItems_eq_none_iff {fr : SymTables}
    (hi : ∀ s ∈ is.flatMap itemSyms, fr.HasSym s) :
    is.foldlM (mergeItem E fr.regexes) g = none ↔ ∃ s ∈ is.flatMap itemSyms, NullRegex s := by
  induction is generalizing g with
  | nil => simp
  | cons i is ih =>
    rw [List.flatMap_cons] at hi ⊢
    have hfirst : mergeItem E fr.regexes g i = none ↔ ∃ s ∈ itemSyms i, NullRegex s :=
      mergeItem_eq_none_iff fun s hs => hi s (List.mem_append_left _ hs)
    have hrest := fun g => ih (g := g) fun s hs => hi s (List.mem_append_right _ hs)
    simp only [List.mem_append, or_and_right, exists_or, ← hfirst]
    rw [List.foldlM_cons]
    cases hm : mergeItem E fr.regexes g i with
    | none => simp
    | some g₁ =>
      rw [← hrest g₁]
      simp

theorem fklMergeGrammer_eq : g.fklMergeGrammer E other =
    (other.items.foldlM (mergeItem E other.regexes) g).map fun g =>
      { g with delimiters := g.delimiters.addAll other.delimiters.keys } := by
  rw [items, List.foldlM_append, List.foldlM_map]
  simp only [fklMergeGrammer, List.foldlM_map, Option.bind_eq_bind, Option.map_eq_bind,
    Option.bind_assoc]
  rfl

/-- The symbols of the ignores and of the productions. -/
def syms (g : FklGrammer C) : List FklGrammerSym := g.items.flatMap itemSyms

theorem Good.hasSyms (hg : g.Good E) : ∀ s ∈ g.syms, g.HasSym s := by
  intro s hs
  obtain ⟨i, hi, hs⟩ := List.mem_flatMap.mp hs
  rcases List.mem_append.mp hi with hi | hi
  · obtain ⟨ig, hig, rfl⟩ := List.mem_map.mp hi
    obtain ⟨x, hx, rfl⟩ := List.mem_map.mp hs
    exact hg.igSyms ig hig x hx
  · obtain ⟨p, hp, rfl⟩ := List.mem_map.mp hi
    obtain ⟨nt, hp⟩ := mem_allProds.mp hp
    exact hg.syms nt p hp s hs

theorem Good.items_builtin (hg : g.Good E) :
    ∀ p, .inr p ∈ g.items → E.isBuiltin p.left = false := by
  intro p hp
  have hp : p ∈ g.allProds := by simpa [items] using hp
  obtain ⟨nt, hp⟩ := mem_allProds.mp hp
  rw [(hg.left nt p hp).1]
  exact (hg.left nt p hp).2

theorem fklMergeGrammer_eq_none_iff (ho : other.Good E) :
    g.fklMergeGrammer E other = none ↔ ∃ s ∈ other.syms, NullRegex s := by
  rw [fklMergeGrammer_eq, Option.map_eq_none_iff]
  exact mergeItems_eq_none_iff ho.hasSyms

/-- The grammar before its delimiters are completed. -/
theorem fklMergeGrammer_some (hg : g.Good E) (ho : other.Good E)
    (h : g.fklMergeGrammer E other = some g') : ∃ g₁, Merged E other.regexes other.items g g₁ ∧
      g' = { g₁ with delimiters := g₁.delimiters.addAll other.delimiters.keys } := by
  rw [fklMergeGrammer_eq] at h
  obtain ⟨g₁, hfold, rfl⟩ := Option.map_eq_some_iff.mp h
  exact ⟨g₁, mergeItems_merged hg ho.compiles ho.items_builtin hfold, rfl⟩

/-! Grammars that are built, and the merge of two of them. -/

inductive Built (E : GrammerEnv) (noAction : C) : FklGrammer C → Prop
  | empty : Built E noAction fklInitEmptyGrammer
  | clear {g : FklGrammer C} (h : Built E noAction g) : Built E noAction g.fklClearGrammer
  | addString {g : FklGrammer C} (h : Built E noAction g) (s : List UInt8) :
    Built E noAction { g with terminals := (fklAddString g.terminals s).1 }
  | addDelimiter {g : FklGrammer C} (h : Built E noAction g) (s : List UInt8) :
    Built E noAction { g with delimiters := (fklAddString g.delimiters s).1 }
  | addRegex {g : FklGrammer C} (h : Built E noAction g) (s : List UInt8) :
    Built E noAction { g with regexes := (fklAddRegexStr E.compiles g.regexes s).1 }
  | addExtra {g g' : FklGrammer C} (h : Built E noAction g) {start : Nat}
    (hadd : g.fklAddExtraProdToGrammer E noAction start = some g') : Built E noAction g'
  | addProdAndExtra {g g' : FklGrammer C} (h : Built E noAction g) (left : Nat)
    (action : C) {ss : List FklGrammerSym} (hs : ∀ s ∈ ss, g.HasSym s)
    (hadd : g.fklAddProdAndExtraToGrammer E noAction (fklCreateProduction left ss action) =
      some g') : Built E noAction g'
  | addProdToTable {g g' : FklGrammer C} (h : Built E noAction g) (left : Nat)
    (action : C) {ss : List FklGrammerSym} (hs : ∀ s ∈ ss, g.HasSym s)
    (hadd : g.fklAddProdToProdTable E (fklCreateProduction left ss action) = some g') :
    Built E noAction g'
  | addProdNoRepeat {g g' : FklGrammer C} (h : Built E noAction g) (left : Nat)
    (action : C) {ss : List FklGrammerSym} (hs : ∀ s ∈ ss, g.HasSym s)
    (hadd : g.fklAddProdToProdTableNoRepeat E (fklCreateProduction left ss action) = some g') :
    Built E noAction g'
  | addIgnore {g : FklGrammer C} (h : Built E noAction g) {ig : FklGrammerIgnore}
    {igs : List FklGrammerIgnore} (hs : ∀ s ∈ ig, g.HasSym (.term s))
    (hadd : fklAddIgnoreToIgnoreList g.ignores ig = some igs) :
    Built E noAction { g with ignores := igs }
  | merge {g other g' : FklGrammer C} (h : Built E noAction g) (ho : Built E noAction other)
    (hmerge : g.fklMergeGrammer E other = some g') : Built E noAction g'

variable {noAction : C}

theorem good_empty : Good E (fklInitEmptyGrammer : FklGrammer C) := by
  constructor <;> simp [fklInitEmptyGrammer, prodsOf, rhss, ignoreTexts, InternTable.empty]

theorem Good.clear (hg : g.Good E) : Good E g.fklClearGrammer := by
  constructor <;>
    simp [fklClearGrammer, prodsOf, rhss, ignoreTexts]
  exact hg.compiles

/-- The table of the delimiters may be any. -/
theorem Good.delimiters (hg : g.Good E) (delimiters : FklStringTable) :
    Good E { g with delimiters } :=
  ⟨hg.left, hg.syms, hg.once, hg.idx_lt, hg.igSyms, hg.igOnce, hg.compiles⟩

theorem Good.addRegex (hg : g.Good E) (s : List UInt8) :
    Good E { g with regexes := (fklAddRegexStr E.compiles g.regexes s).1 } := by
  by_cases hs : s ∈ g.regexes.keys ∨ E.compiles s = true
  · have heq : (fklAddRegexStr E.compiles g.regexes s).1 = (g.regexes.add s).1 := by
      rw [fklAddRegexStr, if_pos hs]
    rw [heq]
    have hext : Extends [] g.toSymTables { g.toSymTables with regexes := (g.regexes.add s).1 } :=
      ⟨le_rfl, g.regexes.le_add s, by simp⟩
    refine hg.extends hext fun k hk => ?_
    rcases InternTable.mem_keys_add.mp hk with hk | rfl
    · exact hg.compiles k hk
    · exact hs.elim (hg.compiles k) id
  · rw [fklAddRegexStr, if_neg hs]
    exact hg

theorem Built.good (h : Built E noAction g) : g.Good E := by
  induction h with
  | empty => exact good_empty
  | clear _ ih => exact ih.clear
  | @addString g _ s ih =>
    have hext : Extends [] g.toSymTables
        { g.toSymTables with terminals := (g.terminals.add s).1 } :=
      ⟨g.terminals.le_add s, le_rfl, by simp⟩
    exact ih.extends hext ih.compiles
  | addDelimiter _ s ih => exact ih.delimiters _
  | addRegex _ s ih => exact ih.addRegex s
  | addExtra _ hadd ih =>
    unfold fklAddExtraProdToGrammer at hadd
    split at hadd
    · cases hadd
    · obtain rfl := Option.some.inj hadd
      exact ih.addExtra _ _
  | addProdAndExtra _ left action hs hadd ih =>
    refine ih.addProd hs (fun cur _ _ q hq => ?_) ?_ hadd
    · obtain rfl := Option.some.inj hq
      exact ⟨rfl, rfl, Nat.zero_le _⟩
    · split
      · exact ⟨ih.addExtra _ _, rfl⟩
      · exact ⟨ih, rfl⟩
  | addProdToTable _ left action hs hadd ih =>
    refine ih.addProd hs (fun cur _ _ q hq => ?_) ⟨ih, rfl⟩ hadd
    obtain rfl := Option.some.inj hq
    exact ⟨rfl, rfl, le_rfl⟩
  | addProdNoRepeat _ left action hs hadd ih => exact ih.addProd hs (by simp) ⟨ih, rfl⟩ hadd
  | @addIgnore g _ ig igs hs hadd ih =>
    by_cases hmem : FklGrammerIgnore.texts g.regexes ig ∈ g.ignoreTexts
    · rw [addIgnore_of_mem ih hs hmem] at hadd
      cases hadd
    · obtain ⟨heq, hgood⟩ := addIgnore_of_not_mem ih hs hmem
      obtain rfl := Option.some.inj (heq.symm.trans hadd)
      exact hgood
  | merge _ _ hmerge ih iho =>
    obtain ⟨g₁, hm, rfl⟩ := fklMergeGrammer_some ih iho hmerge
    exact hm.good.delimiters _

/-- The grammar `g'` is the union of `g` and `other`; a production that is taken over has the action
that it had. -/
structure Union (E : GrammerEnv) (g other g' : FklGrammer C) : Prop where
  rhss : ∀ nt x, x ∈ g'.rhss nt ↔ x ∈ g.rhss nt ∨ x ∈ other.rhss nt
  once : ∀ nt, (g'.rhss nt).Nodup
  left : ∀ nt, ∀ p ∈ g'.prodsOf nt, p.left = nt
  kept : ∀ nt, g.prodsOf nt <+: g'.prodsOf nt
  taken : ∀ nt, ∀ p ∈ g'.prodsOf nt, p ∈ g.prodsOf nt ∨
    ∃ q ∈ other.prodsOf nt, q.rhs other.regexes = p.rhs g'.regexes ∧ q.action = p.action
  idx_distinct : g'.IdxDistinct
  idx_lt : ∀ p ∈ g'.allProds, p.idx < g'.prodCount
  ignores : ∀ x, x ∈ g'.ignoreTexts ↔ x ∈ g.ignoreTexts ∨ x ∈ other.ignoreTexts
  ignores_once : g'.ignoreTexts.Nodup
  delims : ∀ d, d ∈ g'.delimiters.keys ↔ d ∈ g.delimiters.keys ∨ d ∈ other.delimiters.keys
  delims_once : g'.delimiters.keys.Nodup
  again : g'.fklMergeGrammer E other = some g'

theorem Merged.delims (h : Merged E other.regexes other.items g g') (d : List UInt8) :
    d ∈ (g'.delimiters.addAll other.delimiters.keys).keys ↔
      d ∈ g.delimiters.keys ∨ d ∈ other.delimiters.keys ∨ ∃ s ∈ other.syms, d ∈ s.delims := by
  rw [InternTable.mem_keys_addAll, h.tables.delims, List.mem_flatMap, or_assoc]
  exact or_congr_right or_comm

/-- The items of `other` are present once they are merged. -/
theorem Merged.present (h : Merged E other.regexes other.items g g') :
    ∀ i ∈ other.items, g'.Present other.regexes i := by
  intro i hi
  cases i with
  | inl ig => exact (h.ignores _).mpr (.inr ⟨ig, hi, rfl⟩)
  | inr p => exact (h.rhss _ _).mpr (.inr ⟨p, hi, rfl, rfl⟩)

theorem Merged.again (ho : other.Good E) (h : Merged E other.regexes other.items g g')
    (hnull : ¬∃ s ∈ other.syms, NullRegex s) :
    fklMergeGrammer E { g' with delimiters := g'.delimiters.addAll other.delimiters.keys }
        other =
      some { g' with delimiters := g'.delimiters.addAll other.delimiters.keys } := by
  have hgood := h.good.delimiters (g'.delimiters.addAll other.delimiters.keys)
  have hext : Extends other.delimiters.keys g'.toSymTables
      { g'.toSymTables with delimiters := g'.delimiters.addAll other.delimiters.keys } :=
    ⟨le_rfl, le_rfl, fun d => InternTable.mem_keys_addAll⟩
  rw [← fklMergeGrammer_eq_none_iff ho] at hnull
  obtain ⟨g'', hmerge⟩ := Option.ne_none_iff_exists'.mp hnull
  rw [hmerge]
  obtain ⟨g₁, hm, rfl⟩ := fklMergeGrammer_some hgood ho hmerge
  have hsame := hm.same h.present fun s hs => hext.covers (h.covers s hs)
  subst hsame
  have hall : ∀ k ∈ other.delimiters.keys,
      k ∈ (g'.delimiters.addAll other.delimiters.keys).keys := fun k hk =>
    InternTable.mem_keys_addAll.mpr (.inr hk)
  simp only [InternTable.addAll_of_mem hall]

theorem Merged.union (ho : other.Good E)
    (h : Merged E other.regexes other.items g g') (hidx : g.IdxDistinct)
    (hs : ∀ s ∈ other.syms, ¬NullRegex s ∧
      ∀ d ∈ s.delims, d ∈ g.delimiters.keys ∨ d ∈ other.delimiters.keys) :
    Union E g other { g' with delimiters := g'.delimiters.addAll other.delimiters.keys } where
  rhss nt x := by
    refine (h.rhss nt x).trans (or_congr_right ⟨?_, ?_⟩)
    · rintro ⟨p, hp, rfl, rfl⟩
      have hp : p ∈ other.allProds := by simpa [items] using hp
      obtain ⟨nt, hp⟩ := mem_allProds.mp hp
      rw [(ho.left nt p hp).1]
      exact List.mem_map_of_mem hp
    · intro hx
      obtain ⟨p, hp, rfl⟩ := List.mem_map.mp hx
      have hmem : (.inr p : Item C) ∈ other.items := by
        simpa [items] using mem_allProds.mpr ⟨nt, hp⟩
      exact ⟨p, hmem, (ho.left nt p hp).1, rfl⟩
  once := h.good.once
  left nt p hp := (h.good.left nt p hp).1
  kept := h.kept
  taken nt p hp := by
    refine (h.taken nt p hp).imp_right ?_
    rintro ⟨q, hq, rfl, hrhs, haction⟩
    have hq : q ∈ other.allProds := by simpa [items] using hq
    obtain ⟨nt, hq⟩ := mem_allProds.mp hq
    rw [(ho.left nt q hq).1]
    exact ⟨q, hq, hrhs, haction⟩
  idx_distinct := h.idx.mpr hidx
  idx_lt p hp := by
    obtain ⟨nt, hp⟩ := mem_allProds.mp hp
    exact h.good.idx_lt nt p hp
  ignores x := by
    refine (h.ignores x).trans (or_congr_right ?_)
    simp [items, ignoreTexts]
  ignores_once := h.good.igOnce
  delims d := by
    refine (h.delims d).trans ⟨fun hd => ?_, fun hd => hd.imp_right .inl⟩
    rcases hd with hd | hd | ⟨s, hmem, hd⟩
    · exact .inl hd
    · exact .inr hd
    · exact (hs s hmem).2 d hd
  delims_once := InternTable.nodup _
  again := h.again ho fun ⟨s, hmem, hnull⟩ => (hs s hmem).1 hnull

theorem Good.union_iff (hg : g.Good E) (ho : other.Good E) :
    (∃ g', g.fklMergeGrammer E other = some g' ∧ Union E g other g') ↔
      g.IdxDistinct ∧ ∀ s ∈ other.syms, ¬NullRegex s ∧
        ∀ d ∈ s.delims, d ∈ g.delimiters.keys ∨ d ∈ other.delimiters.keys := by
  constructor
  · rintro ⟨g', hmerge, hunion⟩
    have hsome : g.fklMergeGrammer E other ≠ none := by simp [hmerge]
    rw [ne_eq, fklMergeGrammer_eq_none_iff ho] at hsome
    obtain ⟨g₁, hm, rfl⟩ := fklMergeGrammer_some hg ho hmerge
    refine ⟨hm.idx.mp hunion.idx_distinct, fun s hs => ⟨fun hnull => hsome ⟨s, hs, hnull⟩, ?_⟩⟩
    intro d hd
    exact (hunion.delims d).mp ((hm.delims d).mpr (.inr (.inr ⟨s, hs, hd⟩)))
  · rintro ⟨hidx, hs⟩
    have hsome : g.fklMergeGrammer E other ≠ none := by
      rw [ne_eq, fklMergeGrammer_eq_none_iff ho]
      rintro ⟨s, hmem, hnull⟩
      exact (hs s hmem).1 hnull
    obtain ⟨g', hmerge⟩ := Option.ne_none_iff_exists'.mp hsome
    obtain ⟨g₁, hm, rfl⟩ := fklMergeGrammer_some hg ho hmerge
    exact ⟨_, hmerge, hm.union ho hidx hs⟩

theorem fklMergeGrammer_union_iff (hg : Built E noAction g) (ho : Built E noAction other) :
    (∃ g', g.fklMergeGrammer E other = some g' ∧ Union E g other g') ↔
      g.IdxDistinct ∧ ∀ s ∈ other.syms, ¬NullRegex s ∧
        ∀ d ∈ s.delims, d ∈ g.delimiters.keys ∨ d ∈ other.delimiters.keys :=
  hg.good.union_iff ho.good

/-! A rule added once, and a second time. -/

def plainEnv : GrammerEnv := ⟨fun _ => false, rfl, fun _ => true⟩

def lettersGrammer : FklGrammer Unit :=
  let g := { fklInitEmptyGrammer with terminals := (fklAddString .empty [97]).1 }
  { g with delimiters := (fklAddString g.delimiters [97]).1 }

theorem lettersGrammer_built : Built plainEnv () lettersGrammer :=
  (Built.empty.addString [97]).addDelimiter [97]

def letterRule : FklGrammerProduction Unit :=
  fklCreateProduction 1 [.term (.string ⟨0, [97]⟩)] ()

theorem letterRule_has : ∀ s ∈ [FklGrammerSym.term (.string ⟨0, [97]⟩)],
    lettersGrammer.HasSym s := by
  intro s hs
  obtain rfl := List.mem_singleton.mp hs
  rfl

def ruleOnce : FklGrammer Unit :=
  (lettersGrammer.addExtra 1 ()).appendProd [] letterRule

theorem ruleOnce_built : Built plainEnv () ruleOnce :=
  lettersGrammer_built.addProdAndExtra 1 () letterRule_has rfl

def ruleTwice : FklGrammer Unit := ruleOnce.setProds 1 [letterRule]

theorem ruleTwice_built : Built plainEnv () ruleTwice :=
  ruleOnce_built.addProdAndExtra 1 () letterRule_has rfl

/-- The rule that was added again has lost its index. -/
theorem ruleTwice_not_union : Built plainEnv () ruleTwice ∧
    ¬∃ g', ruleTwice.fklMergeGrammer plainEnv ruleOnce = some g' ∧
      Union plainEnv ruleTwice ruleOnce g' := by
  refine ⟨ruleTwice_built, fun h => ?_⟩
  have hidx := ((ruleTwice_built.good.union_iff ruleOnce_built.good).mp h).1
  exact absurd hidx (by unfold IdxDistinct; decide)

/-- Another rule of the same nonterminal. -/
def otherGrammer : FklGrammer Unit :=
  let g := { fklInitEmptyGrammer with terminals := (fklAddString .empty [98]).1 }
  { g with delimiters := (fklAddString g.delimiters [98]).1 }

def otherLetter : FklGrammerProduction Unit :=
  fklCreateProduction 1 [.term (.string ⟨0, [98]⟩)] ()

def otherRule : FklGrammer Unit :=
  (otherGrammer.addExtra 1 ()).appendProd [] otherLetter

theorem otherLetter_has : ∀ s ∈ [FklGrammerSym.term (.string ⟨0, [98]⟩)],
    otherGrammer.HasSym s := by
  intro s hs
  obtain rfl := List.mem_singleton.mp hs
  rfl

theorem otherRule_built : Built plainEnv () otherRule :=
  ((Built.empty.addString [98]).addDelimiter [98]).addProdAndExtra 1 () otherLetter_has rfl

theorem ruleOnce_union : ∃ g', ruleOnce.fklMergeGrammer plainEnv otherRule = some g' ∧
    Union plainEnv ruleOnce otherRule g' := by
  refine (fklMergeGrammer_union_iff ruleOnce_built otherRule_built).mpr ⟨?_, ?_⟩
  · unfold IdxDistinct
    decide
  · intro s hs
    have hsyms : otherRule.syms = [.ignore, .nonterm 1, .term (.string ⟨0, [98]⟩)] := rfl
    have hdelims : otherRule.delimiters.keys = [[98]] := rfl
    rw [hsyms] at hs
    rw [hdelims]
    simp only [List.mem_cons, List.not_mem_nil, or_false] at hs
    rcases hs with rfl | rfl | rfl <;> simp [NullRegex, FklGrammerSym.delims]

end FklGrammer

end FakeLisp.GrammerTables
