import FakeLisp.CgEnv

/-! The slots of the variables of one environment, in orderly histories. -/

namespace FakeLisp

variable {S : Type} [DecidableEq S]

namespace CgState

variable {st st' : CgState S} {s t : Nat}

/-- What holds of the scopes and the slots between the steps. -/
structure Inv (st : CgState S) : Prop where
  below : ∀ s ∈ st.opened, 0 < s ∧ s ≤ st.env.scopeCount ∧ (st.env.scopes s).p < s
  latest : st.opened.Pairwise (· > ·)
  parent : ∀ s ∈ st.opened, (st.env.scopes s).p ≠ 0 → (st.env.scopes s).p ∈ st.opened
  nested : ∀ s ∈ st.opened, (st.env.scopes s).p ≠ 0 → (st.env.scopes s).start =
    (st.env.scopes (st.env.scopes s).p).start + (st.env.scopes (st.env.scopes s).p).len
  /-- The definitions of a scope, also of one that was left, are in its range. -/
  range : ∀ s, ∀ e ∈ (st.env.scopes s).defs, e.1.scope = s ∧ e.2.cidx = 0 ∧
    (st.env.scopes s).start ≤ e.2.idx ∧
    e.2.idx < (st.env.scopes s).start + (st.env.scopes s).len
  bound : ∀ s, (st.env.scopes s).start + (st.env.scopes s).len ≤ st.env.slots.length
  used : ∀ s, (st.env.scopes s).len ≠ 0 → (st.env.scopes s).defs ≠ []
  keys : ∀ s, ((st.env.scopes s).defs.map Prod.fst).Nodup
  empty : ∀ s ∈ st.opened, (st.env.scopes s).start ≤ (st.env.scopes s).empty ∧
    ∀ e ∈ (st.env.scopes s).defs, e.2.idx ≠ (st.env.scopes s).empty
  inj : ∀ s ∈ st.opened, ∀ e ∈ (st.env.scopes s).defs, ∀ e' ∈ (st.env.scopes s).defs,
    e.2.idx = e'.2.idx → e = e'
  chain : ∀ s ∈ st.opened, ∀ t ∈ st.opened, (st.env.scopes s).defs ≠ [] →
    (st.env.scopes t).defs ≠ [] → Around st.env s t ∨ Around st.env t s
  taken : ∀ s ∈ st.opened, ∀ e ∈ (st.env.scopes s).defs,
    st.env.slots[e.2.idx]? ≠ some .none
  flagged : ∀ k ∈ st.captured, k.scope ∈ st.opened →
    ∃ e ∈ (st.env.scopes k.scope).defs, e.1 = k ∧ st.env.slots[e.2.idx]? = some .ref
  unused : ∀ s, st.env.scopeCount < s → (st.env.scopes s).defs = []
  known : ∀ k ∈ st.captured, k.scope ≤ st.env.scopeCount

theorem mem_of_fklHashMapAt {K V : Type} [DecidableEq K] {m : List (K × V)} {k : K} {e : K × V}
    (h : fklHashMapAt m k = some e) : e ∈ m ∧ e.1 = k :=
  ⟨List.mem_of_find?_eq_some h, by simpa using List.find?_some h⟩

/-- What the search of a symbol finds is a definition of its scope. -/
theorem Inv.mem_of_find (h : Inv st) {id : S} {e : FklSidScope S × FklSymDef}
    (he : fklFindSymbolDef1 st.env s id = some e) : e ∈ (st.env.scopes e.1.scope).defs := by
  have hfrom : ∀ n s, findSymbolDefFrom st.env id n s = some e →
      e ∈ (st.env.scopes e.1.scope).defs := by
    intro n
    induction n with
    | zero => exact fun s he => nomatch he
    | succ n ih =>
      intro s he
      unfold findSymbolDefFrom at he
      split at he
      · cases he
      · split at he
        · rename_i r hr
          obtain rfl := Option.some.inj he
          have hmem := (mem_of_fklHashMapAt hr).1
          rwa [(h.range s _ hmem).1]
        · exact ih _ he
  exact hfrom _ _ he

omit [DecidableEq S] in
/-- What is around an open scope is open, and its slots come before. -/
theorem Inv.around (h : Inv st) (hs : s ∈ st.opened) (hst : Around st.env s t) :
    t ∈ st.opened ∧ t ≤ s ∧ (t = s ∨
      (st.env.scopes t).start + (st.env.scopes t).len ≤ (st.env.scopes s).start) := by
  induction hst with
  | refl => exact ⟨hs, Nat.le_refl s, Or.inl rfl⟩
  | tail _ hstep ih =>
    obtain ⟨hp, hne⟩ := hstep
    obtain ⟨hu, hle, hrange⟩ := ih
    subst hp
    have hlt := (h.below _ hu).2.2
    have hnest := h.nested _ hu hne
    refine ⟨h.parent _ hu hne, by omega, Or.inr ?_⟩
    rcases hrange with rfl | hrange
    · omega
    · omega

theorem Inv.ok (h : Inv st) : SlotsOk st := by
  have hreused : ∀ t ∈ st.opened, ∀ t' ∈ st.opened, ∀ e ∈ (st.env.scopes t).defs,
      ∀ e' ∈ (st.env.scopes t').defs, e.2.idx = e'.2.idx → e = e' := by
    intro t ht t' ht' e he e' he' heq
    by_cases htt : t = t'
    · subst htt
      exact h.inj t ht e he e' he' heq
    · have hr := h.range t e he
      have hr' := h.range t' e' he'
      rcases h.chain t ht t' ht' (List.ne_nil_of_mem he) (List.ne_nil_of_mem he') with ha | ha
      · rcases (h.around ht ha).2.2 with hsame | hle
        · exact absurd hsame.symm htt
        · omega
      · rcases (h.around ht' ha).2.2 with hsame | hle
        · exact absurd hsame htt
        · omega
  exact ⟨fun s hs t t' ht ht' => hreused t (h.around hs ht).1 t' (h.around hs ht').1, hreused,
    h.flagged⟩

omit [DecidableEq S] in
theorem inv_init : Inv (init : CgState S) := by
  constructor <;> simp [init, fklCgEnterNewScope]

/-! Slots that are only ever set to `ref`. -/

def Marks (slots slots' : List FklCgEnvSlot) : Prop :=
  slots'.length = slots.length ∧
    ∀ i : Nat, slots'[i]? = slots[i]? ∨ slots'[i]? = some .ref ∧ i < slots.length

theorem Marks.refl (slots : List FklCgEnvSlot) : Marks slots slots :=
  ⟨rfl, fun _ => Or.inl rfl⟩

theorem Marks.trans {a b c : List FklCgEnvSlot} (h : Marks a b) (h' : Marks b c) : Marks a c := by
  refine ⟨h'.1.trans h.1, fun i => ?_⟩
  rcases h'.2 i with hc | hc
  · rw [hc]
    exact h.2 i
  · exact Or.inr ⟨hc.1, h.1 ▸ hc.2⟩

theorem marks_set (slots : List FklCgEnvSlot) (i : Nat) : Marks slots (slots.set i .ref) := by
  refine ⟨List.length_set, fun j => ?_⟩
  rw [List.getElem?_set]
  grind

theorem Marks.ref {a b : List FklCgEnvSlot} (h : Marks a b) {i : Nat} (hi : a[i]? = some .ref) :
    b[i]? = some .ref := by
  rcases h.2 i with hb | hb
  · rw [hb, hi]
  · exact hb.1

theorem Marks.ne_none {a b : List FklCgEnvSlot} (h : Marks a b) {i : Nat}
    (hi : a[i]? ≠ some .none) : b[i]? ≠ some .none := by
  rcases h.2 i with hb | hb
  · rwa [hb]
  · rw [hb.1]
    simp

omit [DecidableEq S] in
/-- A step that only sets slots to `ref`. -/
theorem Inv.marked (h : Inv st) {slots : List FklCgEnvSlot} (hm : Marks st.env.slots slots)
    (uref : List (FklUnbound S)) (pdef : List (FklSidScope S × Bool))
    (refPdef : List (FklPreDefRef S)) (captured pending : List (FklSidScope S))
    (hcap : ∀ k ∈ captured, k ∈ st.captured ∨
      ∃ e ∈ (st.env.scopes k.scope).defs, e.1 = k ∧ slots[e.2.idx]? = some .ref) :
    Inv { st with
      env := { st.env with slots := slots, uref := uref, pdef := pdef, refPdef := refPdef }
      captured := captured, pending := pending } where
  below := h.below
  latest := h.latest
  parent := h.parent
  nested := h.nested
  range := h.range
  bound s := Nat.le_trans (h.bound s) (Nat.le_of_eq hm.1.symm)
  used := h.used
  keys := h.keys
  empty := h.empty
  inj := h.inj
  chain := h.chain
  taken s hs e he := hm.ne_none (h.taken s hs e he)
  flagged k hk hopen := by
    rcases hcap k hk with hk | hk
    · obtain ⟨e, he, hek, href⟩ := h.flagged k hk hopen
      exact ⟨e, he, hek, hm.ref href⟩
    · exact hk
  unused := h.unused
  known k hk := by
    rcases hcap k hk with hk | ⟨e, he, -⟩
    · exact h.known k hk
    · by_contra hlt
      rw [h.unused k.scope (Nat.lt_of_not_le hlt)] at he
      cases he

omit [DecidableEq S] in
theorem Inv.enter (h : Inv st) {p : Nat} (hp : p ∈ st.opened) :
    Inv { st with
      env := fklCgEnterNewScope st.env p, opened := (st.env.scopeCount + 1) :: st.opened } := by
  have hp0 : p ≠ 0 := Nat.ne_of_gt (h.below p hp).1
  have hpc : p < st.env.scopeCount + 1 := Nat.lt_succ_of_le (h.below p hp).2.1
  have hnew : (fklCgEnterNewScope st.env p).scopes (st.env.scopeCount + 1) =
      ⟨p, (st.env.scopes p).start + (st.env.scopes p).len,
        (st.env.scopes p).start + (st.env.scopes p).len, 0, []⟩ := by
    simp [fklCgEnterNewScope, hp0]
  have hold : ∀ s, s ≠ st.env.scopeCount + 1 →
      (fklCgEnterNewScope st.env p).scopes s = st.env.scopes s := by
    intro s hs
    simp [fklCgEnterNewScope, hs]
  have hne : ∀ s ∈ st.opened, s ≠ st.env.scopeCount + 1 := by
    intro s hs
    have := (h.below s hs).2.1
    omega
  have haround : ∀ s ∈ st.opened, ∀ t, Around st.env s t →
      Around (fklCgEnterNewScope st.env p) s t := by
    intro s hs t hst
    induction hst with
    | refl => exact Relation.ReflTransGen.refl
    | tail hu hstep ih => exact ih.tail (by rw [hold _ (hne _ (h.around hs hu).1)]; exact hstep)
  have hcases : ∀ s, s = st.env.scopeCount + 1 ∨
      (s ≠ st.env.scopeCount + 1 ∧
        (fklCgEnterNewScope st.env p).scopes s = st.env.scopes s) := by
    intro s
    by_cases hs : s = st.env.scopeCount + 1
    · exact Or.inl hs
    · exact Or.inr ⟨hs, hold s hs⟩
  constructor
  · intro s hs
    rcases List.mem_cons.mp hs with rfl | hs
    · rw [hnew]
      exact ⟨Nat.succ_pos _, Nat.le_refl _, hpc⟩
    · rw [hold s (hne s hs)]
      exact ⟨(h.below s hs).1, Nat.le_succ_of_le (h.below s hs).2.1, (h.below s hs).2.2⟩
  · exact List.pairwise_cons.mpr ⟨fun s hs => Nat.lt_succ_of_le (h.below s hs).2.1, h.latest⟩
  · intro s hs hps
    rcases List.mem_cons.mp hs with rfl | hs
    · rw [hnew]
      exact List.mem_cons_of_mem _ hp
    · rw [hold s (hne s hs)] at hps ⊢
      exact List.mem_cons_of_mem _ (h.parent s hs hps)
  · intro s hs hps
    rcases List.mem_cons.mp hs with rfl | hs
    · rw [hnew, hold p (Nat.ne_of_lt hpc)]
    · rw [hold s (hne s hs)] at hps ⊢
      rw [hold _ (hne _ (h.parent s hs hps))]
      exact h.nested s hs hps
  · intro s e he
    rcases hcases s with rfl | ⟨-, hs⟩
    · rw [hnew] at he
      cases he
    · rw [hs] at he ⊢
      exact h.range s e he
  · intro s
    rcases hcases s with rfl | ⟨-, hs⟩
    · rw [hnew]
      exact h.bound p
    · rw [hs]
      exact h.bound s
  · intro s
    rcases hcases s with rfl | ⟨-, hs⟩
    · rw [hnew]
      exact fun hlen => absurd rfl hlen
    · rw [hs]
      exact h.used s
  · intro s
    rcases hcases s with rfl | ⟨-, hs⟩
    · rw [hnew]
      exact List.nodup_nil
    · rw [hs]
      exact h.keys s
  · intro s hs
    rcases List.mem_cons.mp hs with rfl | hs
    · rw [hnew]
      exact ⟨Nat.le_refl _, fun e he => nomatch he⟩
    · rw [hold s (hne s hs)]
      exact h.empty s hs
  · intro s hs
    rcases List.mem_cons.mp hs with rfl | hs
    · rw [hnew]
      exact fun e he => nomatch he
    · rw [hold s (hne s hs)]
      exact h.inj s hs
  · intro s hs t ht hsd htd
    rcases List.mem_cons.mp hs with rfl | hs
    · rw [hnew] at hsd
      exact absurd rfl hsd
    · rcases List.mem_cons.mp ht with rfl | ht
      · rw [hnew] at htd
        exact absurd rfl htd
      · rw [hold s (hne s hs)] at hsd
        rw [hold t (hne t ht)] at htd
        exact (h.chain s hs t ht hsd htd).imp (haround s hs t) (haround t ht s)
  · intro s hs
    rcases List.mem_cons.mp hs with rfl | hs
    · rw [hnew]
      exact fun e he => nomatch he
    · rw [hold s (hne s hs)]
      exact h.taken s hs
  · intro k hk hopen
    rcases List.mem_cons.mp hopen with hks | hopen
    · have := h.known k hk
      omega
    · rw [hold _ (hne _ hopen)]
      exact h.flagged k hk hopen
  · intro s hs
    rw [hold s (by simp only [fklCgEnterNewScope] at hs; omega)]
    exact h.unused s (by simp only [fklCgEnterNewScope] at hs; omega)
  · exact fun k hk => Nat.le_succ_of_le (h.known k hk)

/-! A new definition. -/

theorem le_getNextEmpty (flags : List FklCgEnvSlot) (i : Nat) : i ≤ getNextEmpty flags i :=
  Nat.le_add_right _ _

/-- The search for a free slot passes over the slots that are taken. -/
theorem getNextEmpty_spec (flags : List FklCgEnvSlot) (i : Nat) :
    flags.length ≤ getNextEmpty flags i ∨ flags[getNextEmpty flags i]? = some .none := by
  unfold getNextEmpty
  induction hd : flags.drop i generalizing i with
  | nil =>
    left
    simpa using hd
  | cons f rest ih =>
    have hi : flags[i]? = some f := by
      have := congrArg List.head? hd
      simpa using this
    have hrest : flags.drop (i + 1) = rest := by
      rw [← List.drop_drop, hd]
      rfl
    by_cases hf : f = .none
    · right
      simpa [hf] using hi
    · simpa [hf, Nat.add_assoc, Nat.add_comm 1] using ih (i + 1) hrest

/-- The slots after one has been taken. -/
def takeSlot (slots : List FklCgEnvSlot) (idx : Nat) : List FklCgEnvSlot :=
  (slots ++ List.replicate (idx + 1 - slots.length) FklCgEnvSlot.none).set idx .occ

theorem length_takeSlot (slots : List FklCgEnvSlot) (idx : Nat) :
    (takeSlot slots idx).length = max slots.length (idx + 1) := by
  simp [takeSlot]
  omega

theorem getElem?_takeSlot {slots : List FklCgEnvSlot} {idx i : Nat} (hi : i < slots.length) :
    (takeSlot slots idx)[i]? = if i = idx then some .occ else slots[i]? := by
  unfold takeSlot
  rw [List.getElem?_set, List.getElem?_append_left hi]
  split
  · rename_i hidx
    subst hidx
    rw [if_pos rfl, if_pos (by simp; omega)]
  · rename_i hidx
    rw [if_neg (Ne.symm hidx)]

theorem getElem?_takeSlot_self (slots : List FklCgEnvSlot) (idx : Nat) :
    (takeSlot slots idx)[idx]? = some .occ := by
  unfold takeSlot
  rw [List.getElem?_set_self]
  simp
  omega

/-- A scope with one more variable. -/
def withDef (sc : FklCgEnvScope S) (id : S) (s idx empty : Nat) : FklCgEnvScope S :=
  { sc with
    empty := empty
    len := max sc.len (idx + 1 - sc.start)
    defs := sc.defs ++ [(⟨id, s⟩, ⟨idx, 0, false, false⟩)] }

omit [DecidableEq S] in
/-- A slot that no variable of the scope has goes to a new variable of the scope. -/
theorem Inv.take (h : Inv st) (hs : s ∈ st.opened) {id : S} {idx empty : Nat}
    (hkey : ∀ e ∈ (st.env.scopes s).defs, e.1 ≠ ⟨id, s⟩)
    (hchild : ∀ t ∈ st.opened, (st.env.scopes t).p ≠ s)
    (hothers : ∀ t ∈ st.opened, (st.env.scopes t).defs ≠ [] → Around st.env s t)
    (hstart : (st.env.scopes s).start ≤ idx) (hempty : (st.env.scopes s).start ≤ empty)
    (hidx : ∀ e ∈ (st.env.scopes s).defs, e.2.idx ≠ idx)
    (hne : ∀ e ∈ (st.env.scopes s).defs, e.2.idx ≠ empty) (hie : idx ≠ empty) :
    Inv { st with env := { st.env with
      scopes := Function.update st.env.scopes s (withDef (st.env.scopes s) id s idx empty)
      slots := takeSlot st.env.slots idx } } := by
  generalize hscopes : Function.update st.env.scopes s (withDef (st.env.scopes s) id s idx empty) =
    scopes
  have hself : scopes s = withDef (st.env.scopes s) id s idx empty := by
    rw [← hscopes, Function.update_self]
  have hold : ∀ t, t ≠ s → scopes t = st.env.scopes t := by
    intro t ht
    rw [← hscopes, Function.update_of_ne ht]
  have hp : ∀ t, (scopes t).p = (st.env.scopes t).p := by
    intro t
    by_cases ht : t = s
    · rw [ht, hself, withDef]
    · rw [hold t ht]
  have hstarts : ∀ t, (scopes t).start = (st.env.scopes t).start := by
    intro t
    by_cases ht : t = s
    · rw [ht, hself, withDef]
    · rw [hold t ht]
  have hbound := h.bound s
  have hlen := length_takeSlot st.env.slots idx
  have hmem : ∀ t, ∀ e ∈ (scopes t).defs, e ∈ (st.env.scopes t).defs ∨
      t = s ∧ e = (⟨id, s⟩, ⟨idx, 0, false, false⟩) := by
    intro t e he
    by_cases ht : t = s
    · subst ht
      rw [hself] at he
      simpa [withDef] using he
    · rw [hold t ht] at he
      exact Or.inl he
  -- no variable of an open scope has the slot
  have hother : ∀ t ∈ st.opened, ∀ e ∈ (st.env.scopes t).defs, e.2.idx ≠ idx := by
    intro t ht e he
    by_cases hts : t = s
    · subst hts
      exact hidx e he
    · have hr := h.range t e he
      rcases (h.around hs (hothers t ht (List.ne_nil_of_mem he))).2.2 with hsame | hle
      · exact absurd hsame hts
      · omega
  have hlt : ∀ t, ∀ e ∈ (st.env.scopes t).defs, e.2.idx < st.env.slots.length := by
    intro t e he
    have := (h.range t e he).2.2.2
    have := h.bound t
    omega
  have haround : ∀ t u, Around st.env t u →
      Around { st.env with scopes := scopes, slots := takeSlot st.env.slots idx } t u := by
    intro t u htu
    induction htu with
    | refl => exact Relation.ReflTransGen.refl
    | tail _ hstep ih => exact ih.tail ⟨(hp _).trans hstep.1, hstep.2⟩
  constructor
  all_goals try dsimp only
  · intro t ht
    rw [hp]
    exact h.below t ht
  · exact h.latest
  · intro t ht
    rw [hp]
    exact h.parent t ht
  · intro t ht htp
    rw [hp] at htp ⊢
    rw [hstarts, hstarts, hold _ (hchild t ht)]
    exact h.nested t ht htp
  · intro t e he
    rw [hstarts]
    rcases hmem t e he with he | ⟨rfl, rfl⟩
    · obtain ⟨hk, hc, hlow, hhigh⟩ := h.range t e he
      refine ⟨hk, hc, hlow, ?_⟩
      by_cases ht : t = s
      · subst ht
        rw [hself]
        simp only [withDef]
        omega
      · rwa [hold t ht]
    · refine ⟨rfl, rfl, hstart, ?_⟩
      rw [hself]
      simp only [withDef]
      omega
  · intro t
    rw [hstarts, hlen]
    have := h.bound t
    by_cases ht : t = s
    · subst ht
      rw [hself]
      simp only [withDef]
      omega
    · rw [hold t ht]
      omega
  · intro t ht
    by_cases hts : t = s
    · subst hts
      rw [hself]
      simp [withDef]
    · rw [hold t hts] at ht ⊢
      exact h.used t ht
  · intro t
    by_cases hts : t = s
    · subst hts
      rw [hself]
      simp only [withDef, List.map_append]
      refine List.nodup_append.mpr ⟨h.keys t, by simp, ?_⟩
      intro k hk k' hk' heq
      obtain ⟨e, he, rfl⟩ := List.mem_map.mp hk
      obtain rfl := List.mem_singleton.mp hk'
      exact hkey e he heq
    · rw [hold t hts]
      exact h.keys t
  · intro t ht
    by_cases hts : t = s
    · subst hts
      rw [hself]
      refine ⟨hempty, fun e he => ?_⟩
      rcases hmem t e (by rwa [hself]) with he | ⟨-, rfl⟩
      · exact hne e he
      · exact hie
    · rw [hold t hts]
      exact h.empty t ht
  · intro t ht e he e' he' heq
    rcases hmem t e he with he | ⟨rfl, rfl⟩ <;> rcases hmem t e' he' with he' | ⟨hts, rfl⟩
    · exact h.inj t ht e he e' he' heq
    · exact absurd heq (hother t ht e he)
    · exact absurd heq.symm (hother t ht e' he')
    · rfl
  · intro t ht u hu htd hud
    by_cases hts : t = s
    · by_cases hus : u = s
      · rw [hts, hus]
        exact Or.inl Relation.ReflTransGen.refl
      · rw [hts]
        exact Or.inl (haround _ _ (hothers u hu (by rwa [hold u hus] at hud)))
    · by_cases hus : u = s
      · rw [hus]
        exact Or.inr (haround _ _ (hothers t ht (by rwa [hold t hts] at htd)))
      · rw [hold t hts] at htd
        rw [hold u hus] at hud
        exact (h.chain t ht u hu htd hud).imp (haround t u) (haround u t)
  · intro t ht e he
    rcases hmem t e he with he | ⟨rfl, rfl⟩
    · simp only [getElem?_takeSlot (hlt t e he), if_neg (hother t ht e he)]
      exact h.taken t ht e he
    · simp [getElem?_takeSlot_self]
  · intro k hk hopen
    obtain ⟨e, he, hek, href⟩ := h.flagged k hk hopen
    refine ⟨e, ?_, hek, ?_⟩
    · by_cases hts : k.scope = s
      · rw [hts, hself]
        simp only [withDef]
        exact List.mem_append_left _ (hts ▸ he)
      · rwa [hold _ hts]
    · rw [getElem?_takeSlot (hlt _ e he), if_neg (hother _ hopen e he)]
      exact href
  · intro t ht
    have hts : t ≠ s := fun hts => by
      have := (h.below s hs).2.1
      omega
    rw [hold t hts]
    exact h.unused t ht
  · exact h.known

/-- The slot that a new definition takes has no variable of an open scope. -/
theorem Inv.define (h : Inv st) {id : S} (hs : s ∈ st.opened)
    (hnew : fklHashMapAt (st.env.scopes s).defs ⟨id, s⟩ = none)
    (hchild : ∀ t ∈ st.opened, (st.env.scopes t).p ≠ s)
    (hothers : ∀ t ∈ st.opened, (st.env.scopes t).defs ≠ [] → Around st.env s t) :
    Inv { st with env := (fklAddCgDefBySid id s st.env).2 } := by
  have hkey : ∀ e ∈ (st.env.scopes s).defs, e.1 ≠ ⟨id, s⟩ := by
    intro e he
    simpa using List.find?_eq_none.mp hnew e he
  have hlt : ∀ e ∈ (st.env.scopes s).defs, e.2.idx < st.env.slots.length := by
    intro e he
    have := (h.range s e he).2.2.2
    have := h.bound s
    omega
  obtain ⟨hstart, hfree⟩ := h.empty s hs
  unfold fklAddCgDefBySid
  simp only [hnew]
  by_cases hfresh : (st.env.scopes s).empty < st.env.slots.length ∧
      (hasResolvableRef id s st.env).isSome
  · simp only [if_pos hfresh]
    have hbound := h.bound s
    exact h.take hs hkey hchild hothers (by omega) hstart
      (fun e he => Nat.ne_of_lt (hlt e he)) hfree (Nat.ne_of_gt hfresh.1)
  · simp only [if_neg hfresh]
    have hnext := le_getNextEmpty st.env.slots ((st.env.scopes s).empty + 1)
    refine h.take hs hkey hchild hothers hstart (by omega) hfree (fun e he heq => ?_) (by omega)
    rcases getNextEmpty_spec st.env.slots ((st.env.scopes s).empty + 1) with hlen | hnone
    · have := hlt e he
      omega
    · rw [← heq] at hnone
      exact h.taken s hs e he hnone

/-! The end of a scope. -/

theorem marks_foldl {α : Type} (f : List FklCgEnvSlot → α → List FklCgEnvSlot)
    (hf : ∀ slots a, Marks slots (f slots a)) (l : List α) (slots : List FklCgEnvSlot) :
    Marks slots (l.foldl f slots) := by
  induction l generalizing slots with
  | nil => exact Marks.refl slots
  | cons a l ih => exact (hf slots a).trans (ih (f slots a))

/-- Where a step of a fold sets a slot, it stays set. -/
theorem foldl_ref {α : Type} (f : List FklCgEnvSlot → α → List FklCgEnvSlot)
    (hf : ∀ slots a, Marks slots (f slots a)) {l : List α} {a : α} (ha : a ∈ l) {i : Nat}
    {slots : List FklCgEnvSlot}
    (hset : ∀ slots' : List FklCgEnvSlot, slots'.length = slots.length →
      (f slots' a)[i]? = some .ref) : (l.foldl f slots)[i]? = some .ref := by
  obtain ⟨l₁, l₂, rfl⟩ := List.append_of_mem ha
  rw [List.foldl_append, List.foldl_cons]
  exact (marks_foldl f hf l₂ _).ref (hset _ (marks_foldl f hf l₁ slots).1)

/-- The references that are resolved mark the slots of their definitions. -/
theorem marks_fklResolveRef (env : FklCgEnv S) (scope : Nat) :
    Marks env.slots (fklResolveRef env scope).1.slots := by
  unfold fklResolveRef
  apply marks_foldl
  intro slots o
  split
  · exact marks_set _ _
  · exact Marks.refl _

theorem fklResolveRef_ref {env : FklCgEnv S} {scope : Nat} {u : FklUnbound S}
    {e : FklSidScope S × FklSymDef} (hu : u ∈ env.uref)
    (he : resolveUref env scope u = .toDef e) (hlt : e.2.idx < env.slots.length) :
    (fklResolveRef env scope).1.slots[e.2.idx]? = some .ref := by
  unfold fklResolveRef
  apply foldl_ref _ _ (List.mem_map_of_mem hu)
  · intro slots' hlen
    simp only [he]
    rw [List.getElem?_set_self (by omega)]
  · intro slots o
    split
    · exact marks_set _ _
    · exact Marks.refl _

theorem find_of_resolveUref {env : FklCgEnv S} {scope : Nat} {u : FklUnbound S}
    {e : FklSidScope S × FklSymDef} (he : resolveUref env scope u = .toDef e) :
    fklFindSymbolDef1 env u.scope u.sid = some e := by
  unfold resolveUref at he
  split at he
  · cases he
  · split at he
    · rename_i e' hfind
      cases he
      exact hfind
    · split at he <;> cases he

omit [DecidableEq S] in
theorem Inv.lt_length (h : Inv st) {e : FklSidScope S × FklSymDef}
    (he : e ∈ (st.env.scopes s).defs) : e.2.idx < st.env.slots.length := by
  have := (h.range s e he).2.2.2
  have := h.bound s
  omega

/-- The slots that a scope gives back have no variable of the scopes still open. -/
theorem Inv.leave (h : Inv st) {opened : List Nat} (hopened : st.opened = s :: opened) :
    Inv { st with
      env := (resetFlagAndCheckVarBeRefed st.env s).1
      opened := opened
      captured := st.captured ++ st.env.uref.filterMap fun uref =>
        match resolveUref st.env s uref with
        | .toDef e => some e.1
        | _ => none } := by
  have hsub : ∀ t ∈ opened, t ∈ st.opened := by
    rw [hopened]
    exact fun t ht => List.mem_cons_of_mem s ht
  have hs : s ∈ st.opened := by
    rw [hopened]
    exact List.mem_cons_self
  have hlatest := h.latest
  rw [hopened, List.pairwise_cons] at hlatest
  have hres := h.marked (marks_fklResolveRef st.env s) (fklResolveRef st.env s).1.uref st.env.pdef
    st.env.refPdef (st.captured ++ st.env.uref.filterMap fun uref =>
      match resolveUref st.env s uref with
      | .toDef e => some e.1
      | _ => none) st.pending (by
    intro k hk
    rcases List.mem_append.mp hk with hk | hk
    · exact Or.inl hk
    · obtain ⟨u, hu, hk⟩ := List.mem_filterMap.mp hk
      split at hk
      · rename_i e he
        obtain rfl := Option.some.inj hk
        have hmem := h.mem_of_find (find_of_resolveUref he)
        exact Or.inr ⟨e, hmem, rfl, fklResolveRef_ref hu he (h.lt_length hmem)⟩
      · cases hk)
  -- the slots of the scope are not those of a scope around it
  have hclear : ∀ t ∈ opened, ∀ e ∈ (st.env.scopes t).defs,
      (resetFlagAndCheckVarBeRefed st.env s).1.slots[e.2.idx]? =
        (fklResolveRef st.env s).1.slots[e.2.idx]? := by
    intro t ht e he
    have hout : ¬((st.env.scopes s).start ≤ e.2.idx ∧
        e.2.idx < (st.env.scopes s).start + (st.env.scopes s).len) := by
      intro hin
      have hr := h.range t e he
      have hts := hlatest.1 t ht
      rcases h.chain s hs t (hsub t ht) (h.used s (by omega)) (List.ne_nil_of_mem he) with ha | ha
      · have := (h.around hs ha).2.2
        omega
      · have := (h.around (hsub t ht) ha).2.1
        omega
    unfold resetFlagAndCheckVarBeRefed
    simp [hout]
  have hlength : (resetFlagAndCheckVarBeRefed st.env s).1.slots.length = st.env.slots.length := by
    simp only [resetFlagAndCheckVarBeRefed, List.length_mapIdx]
    exact (marks_fklResolveRef st.env s).1
  exact {
    below := fun t ht => h.below t (hsub t ht)
    latest := hlatest.2
    parent := by
      intro t ht htp
      have hmem := h.parent t (hsub t ht) htp
      rw [hopened] at hmem
      rcases List.mem_cons.mp hmem with heq | hmem
      · have := (h.below t (hsub t ht)).2.2
        have := hlatest.1 t ht
        omega
      · exact hmem
    nested := fun t ht => h.nested t (hsub t ht)
    range := h.range
    bound := fun t => Nat.le_trans (h.bound t) (Nat.le_of_eq hlength.symm)
    used := h.used
    keys := h.keys
    empty := fun t ht => h.empty t (hsub t ht)
    inj := fun t ht => h.inj t (hsub t ht)
    chain := fun t ht u hu => h.chain t (hsub t ht) u (hsub u hu)
    taken := by
      intro t ht e he
      rw [hclear t ht e he]
      exact hres.taken t (hsub t ht) e he
    flagged := by
      intro k hk hopen
      obtain ⟨e, he, hek, href⟩ := hres.flagged k hk (hsub _ hopen)
      exact ⟨e, he, hek, (hclear _ hopen e he).trans href⟩
    unused := h.unused
    known := hres.known }

/-! Captures. -/

theorem Inv.capture (h : Inv st) {id : S} {e : FklSidScope S × FklSymDef}
    (he : fklFindSymbolDef1 st.env s id = some e) :
    Inv { st with env := st.env.setSlotRef e.2.idx, captured := e.1 :: st.captured } := by
  have hmem := h.mem_of_find he
  refine h.marked (marks_set _ _) st.env.uref st.env.pdef st.env.refPdef _ st.pending ?_
  intro k hk
  rcases List.mem_cons.mp hk with rfl | hk
  · exact Or.inr ⟨e, hmem, rfl, by rw [List.getElem?_set_self (h.lt_length hmem)]⟩
  · exact Or.inl hk

omit [DecidableEq S] in
theorem foldl_setSlotRef {α : Type} (l : List α) (env : FklCgEnv S) (i : Nat) :
    l.foldl (fun env _ => env.setSlotRef i) env =
      { env with slots := l.foldl (fun slots _ => slots.set i .ref) env.slots } := by
  induction l generalizing env with
  | nil => rfl
  | cons a l ih =>
    rw [List.foldl_cons, ih]
    rfl

/-- A predefinition that closures wait for becomes the definition in slot 0. -/
theorem Inv.resolvePreDef (h : Inv st) {id : S}
    (hord : Orderly st (.resolvePreDef id s))
    (hst : st.step (.resolvePreDef id s) = some st') : Inv st' := by
  simp only [step] at hst
  split at hst
  · cases hd : fklGetCgDefByIdInScope id s st.env with
    | none => simp [fklResolveCgPreDef, hd] at hst
    | some e =>
      simp only [fklResolveCgPreDef, hd, Option.map_some, Option.some.injEq,
        foldl_setSlotRef] at hst
      subst hst
      obtain ⟨hmem, hkey⟩ := mem_of_fklHashMapAt hd
      have hcidx : e.2.cidx = 0 := (h.range s e hmem).2.1
      refine h.marked (marks_foldl _ (fun _ _ => marks_set _ _) _ _) st.env.uref _ _ _ _ ?_
      intro k hk
      split at hk
      · rename_i hpending
        rcases List.mem_cons.mp hk with rfl | hk
        · -- the slot that is set is slot 0, the slot of the variable
          rcases hord with hno | ⟨⟨r, hr, hsid, hscope⟩, hzero⟩
          · exact absurd hpending hno
          · have hidx := hzero e hd
            have hlt := h.lt_length hmem
            refine Or.inr ⟨e, hmem, hkey, ?_⟩
            have hfound : r ∈ st.env.refPdef.filter fun r => r.sid = id && r.scope = s := by
              simp [hr, hsid, hscope]
            apply foldl_ref _ (fun _ _ => marks_set _ _) hfound
            intro slots' hlen
            rw [hcidx, hidx, List.getElem?_set_self (by omega)]
        · exact Or.inl hk
      · exact Or.inl hk
  · cases hst

theorem Inv.refer (h : Inv st) {id : S} {inner prototypeId idx env : Nat} {assign outer : Bool}
    (hst : st.step (.refer id s inner prototypeId idx env assign outer) = some st') :
    Inv st' := by
  simp only [step] at hst
  split at hst
  · split at hst
    · obtain rfl := Option.some.inj hst
      exact h.marked (Marks.refl _) st.env.uref st.env.pdef _ st.captured _
        (fun k hk => Or.inl hk)
    · split at hst
      · obtain rfl := Option.some.inj hst
        exact h.capture ‹_›
      · split at hst
        · obtain rfl := Option.some.inj hst
          exact h
        · obtain rfl := Option.some.inj hst
          exact h.marked (Marks.refl _) _ st.env.pdef st.env.refPdef st.captured st.pending
            (fun k hk => Or.inl hk)
  · cases hst

theorem Inv.step (h : Inv st) {op : CgOp S} (hord : Orderly st op)
    (hst : st.step op = some st') : Inv st' := by
  cases op with
  | enter p =>
    simp only [CgState.step] at hst
    split at hst
    · obtain rfl := Option.some.inj hst
      exact h.enter ‹_›
    · cases hst
  | define id scope =>
    simp only [CgState.step] at hst
    split at hst
    · obtain rfl := Option.some.inj hst
      cases hd : fklGetCgDefByIdInScope id scope st.env with
      | some e =>
        have hsame : (fklAddCgDefBySid id scope st.env).2 = st.env := by
          rw [fklGetCgDefByIdInScope] at hd
          simp [fklAddCgDefBySid, hd]
        rwa [hsame]
      | none =>
        rcases hord with hsome | ⟨hchild, hothers⟩
        · simp [hd] at hsome
        · exact h.define ‹_› hd hchild hothers
    · cases hst
  | preDefine id scope isConst =>
    simp only [CgState.step] at hst
    split at hst
    · obtain rfl := Option.some.inj hst
      exact h.marked (Marks.refl _) st.env.uref _ st.env.refPdef st.captured st.pending
        (fun k hk => Or.inl hk)
    · cases hst
  | resolvePreDef id scope => exact h.resolvePreDef hord hst
  | refer id scope inner prototypeId idx env assign outer => exact h.refer hst
  | leave scope =>
    simp only [CgState.step] at hst
    split at hst
    · rename_i s t opened hopened
      split at hst
      · rename_i hs
        subst hs
        obtain rfl := Option.some.inj hst
        exact h.leave hopened
      · cases hst
    · cases hst

/-- An orderly step. -/
def OrderlyStep (st st' : CgState S) : Prop := ∃ op, Orderly st op ∧ st.step op = some st'

/-- Whatever an orderly history, the variables in view have slots of their own, no slot is used twice
before a scope is left, and the slot of a captured variable is marked. -/
theorem slotsOk_of_orderly {st : CgState S}
    (h : Relation.ReflTransGen OrderlyStep (CgState.init : CgState S) st) : SlotsOk st := by
  have hinv : Inv st := by
    induction h with
    | refl => exact inv_init
    | tail _ hstep ih =>
      obtain ⟨op, hord, hst⟩ := hstep
      exact ih.step hord hst
  exact hinv.ok

/-- `(let () (define x 1) (lambda () x))`, up to the closure. -/
theorem captured_slotsOk :
    ∃ st : CgState Nat, SlotsOk st ∧ st.captured = [⟨0, 2⟩] ∧ st.env.slots = [.ref] := by
  refine ⟨_, slotsOk_of_orderly (.tail (.tail (.single ⟨.enter 1, trivial, rfl⟩)
    ⟨.define 0 2, Or.inr ⟨by decide, ?_⟩, rfl⟩) ⟨.refer 0 2 2 0 0 1 false false, trivial, rfl⟩),
    rfl, rfl⟩
  intro t ht hdefs
  rcases List.mem_pair.mp ht with rfl | rfl <;> exact absurd rfl hdefs

def run (st : CgState S) (ops : List (CgOp S)) : Option (CgState S) := ops.foldlM step st

/-- `(let () (define x 1) (define f (lambda () f)))`: `f` is in slot 1, but slot 0 is marked. -/
def preDefOps : List (CgOp Nat) :=
  [.enter 1, .define 0 2, .preDefine 1 2 false, .refer 1 2 2 0 0 1 false false, .define 1 2,
    .resolvePreDef 1 2]

/-- `(let ((a (define b 1))) …)`: the slot of `a` goes to `b`, which can be seen from the body. -/
def letInitOps : List (CgOp Nat) := [.enter 1, .define 0 2, .define 1 1]

theorem preDef_not_slotsOk :
    (∃ st, (CgState.init : CgState Nat).run preDefOps = some st ∧ ¬SlotsOk st) ∧
      ∃ st, (CgState.init : CgState Nat).run letInitOps = some st ∧ ¬SlotsOk st := by
  constructor
  · refine ⟨_, rfl, fun h => ?_⟩
    obtain ⟨e, he, hek, href⟩ := h.flagged ⟨1, 2⟩ List.mem_cons_self List.mem_cons_self
    rcases List.mem_pair.mp he with rfl | rfl
    · cases hek
    · cases href
  · refine ⟨_, rfl, fun h => ?_⟩
    have hsame := h.reused 2 (by decide) 1 (by decide) (⟨0, 2⟩, ⟨0, 0, false, false⟩)
      List.mem_cons_self (⟨1, 1⟩, ⟨0, 0, false, false⟩) List.mem_cons_self rfl
    cases hsame

end CgState

end FakeLisp
