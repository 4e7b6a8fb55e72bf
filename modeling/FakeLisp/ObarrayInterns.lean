import FakeLisp.HashMapRefine
import FakeLisp.Obarray

/-! Symbols are interned by their bytes, whatever is added and collected. -/

namespace FakeLisp

theorem memcmp_eq_zero {a b : List UInt8} (h : a.length = b.length) :
    memcmp a.length a b = 0 ↔ a = b := by
  induction a generalizing b with
  | nil => simpa [memcmp] using List.length_eq_zero_iff.mp h.symm
  | cons x a ih =>
    cases b with
    | nil => simp at h
    | cons y b =>
      simp only [List.length_cons, memcmp]
      by_cases hxy : x = y
      · subst hxy
        simp [UInt8.lt_irrefl, ih (by simpa using h)]
      · rcases UInt8.lt_or_lt_of_ne hxy with hlt | hgt
        · simp [hlt, hxy]
        · simp [hgt, UInt8.lt_asymm hgt, hxy]

theorem fklStringEqual_iff {a b : List UInt8} : fklStringEqual a b = true ↔ a = b := by
  unfold fklStringEqual
  by_cases h : a.length = b.length
  · simp [h, ← memcmp_eq_zero h]
  · have hne : a ≠ b := fun hab => h (congrArg List.length hab)
    simp [h, hne]

/-- The comparison of the search of a chain is the equality of keys. -/
theorem fklStringCharBufCmp_eq_zero {a buf : List UInt8} :
    (fklStringCharBufCmp a buf == 0) = fklStringEqual buf a := by
  rw [Bool.eq_iff_iff, fklStringEqual_iff, beq_iff_eq]
  unfold fklStringCharBufCmp
  rcases Nat.lt_trichotomy a.length buf.length with hlt | heq | hgt
  · have hne : buf ≠ a := fun h => by simp [h] at hlt
    simp only [hlt, if_true, hne, iff_false]
    split
    · assumption
    · decide
  · simp only [heq, min_self, lt_irrefl, if_false]
    rw [eq_comm (a := buf), ← memcmp_eq_zero heq, heq]
    by_cases h : memcmp buf.length a buf = 0 <;> simp [h]
  · have hne : buf ≠ a := fun h => by simp [h] at hgt
    simp only [hgt, not_lt.mpr hgt.le, if_true, if_false, hne, iff_false]
    split
    · assumption
    · decide

variable {A S : Type} {mem : ObarrayMem A S}

theorem fklStrValueHashConf_lawful (mem : ObarrayMem A S) : (fklStrValueHashConf mem).Lawful where
  equiv := ⟨fun _ => fklStringEqual_iff.mpr rfl,
    fun _ _ h => fklStringEqual_iff.mpr (fklStringEqual_iff.mp h).symm,
    fun _ _ _ h h' =>
      fklStringEqual_iff.mpr ((fklStringEqual_iff.mp h).trans (fklStringEqual_iff.mp h'))⟩
  hashv _ _ h := by rw [fklStringEqual_iff.mp h]
  calloc := mem.calloc_not_mem

theorem getBtk_eq (mem : ObarrayMem A S) (ht : FklHashMap A (List UInt8) (Option S))
    (buf : List UInt8) : getBtk ht buf = fklHashMapFindLink (fklStrValueHashConf mem) ht buf := by
  unfold getBtk fklHashMapFindLink
  simp only [fklStringCharBufCmp_eq_zero]
  rfl

namespace FklVMobarray

open FklHashMap

/-- The entries `M` of the table are symbols that are not freed, under their bytes. -/
structure Interns (mem : ObarrayMem A S) (m : FklVMobarray A S) (l : List A)
    (M : InsertionMap (fklStrValueHashConf mem).keyEqual (Option S)) : Prop where
  holds : m.map.Holds (fklStrValueHashConf mem) l M
  sym : ∀ e ∈ M.entries, ∃ s ∈ m.live, e = (m.str s, some s) ∧ m.interned s = true

variable {m : FklVMobarray A S} {l : List A}
  {M : InsertionMap (fklStrValueHashConf mem).keyEqual (Option S)} {buf : List UInt8} {s : S}

theorem interns_init (mem : ObarrayMem A S) (m : FklVMobarray A S) :
    m.fklCreateVMvalueObarray.Interns mem [] InsertionMap.empty :=
  ⟨⟨wellLinked_init _ _, rfl⟩, by simp⟩

theorem keyEqual_iff {a b : List UInt8} :
    (fklStrValueHashConf mem).keyEqual a b = true ↔ a = b := fklStringEqual_iff

/-- The bytes of an entry determine it. -/
theorem entry_unique {e e' : List UInt8 × Option S} (he : e ∈ M.entries) (he' : e' ∈ M.entries)
    (h : e.1 = e'.1) : e = e' := by
  by_contra hne
  have hsymm : Std.Symm fun x y : List UInt8 × Option S =>
      (fklStrValueHashConf mem).keyEqual x.1 y.1 = false :=
    ⟨fun x y hxy => by rwa [(fklStrValueHashConf_lawful mem).equiv.comm]⟩
  have hfalse := M.unequal.forall he he' hne
  rw [keyEqual_iff.mpr h] at hfalse
  exact absurd hfalse (by decide)

/-- What the search for `buf` finds. -/
theorem Interns.getBtk_cases (h : m.Interns mem l M) (buf : List UInt8) :
    (getBtk m.map buf = some none ∧ M.elm buf = none) ∨
    ∃ pp a s, getBtk m.map buf = some (some pp) ∧ pp.load m.map.bktNext m.map.buckets = some a ∧
      m.map.v a = some s ∧ (buf, some s) ∈ M.entries := by
  have hP := fklStrValueHashConf_lawful mem
  have hlive := h.holds.1.live.length_eq.ge
  rw [getBtk_eq mem]
  rcases h.holds.find_cases hP buf with ⟨hl, -, hk⟩ | ⟨a, ha, hl, hka, -, hk⟩
  · exact Or.inl ⟨h.holds.1.findLink_none hlive hl, hk⟩
  · obtain ⟨c₁, c₂, hw, hc⟩ := h.holds.1.findLink_some hP hlive hl
    have hmem : m.map.elm a ∈ M.entries := by
      rw [← h.holds.2]
      exact List.mem_map_of_mem ha
    obtain ⟨s, -, he, -⟩ := h.sym _ hmem
    have hbuf : (m.map.elm a).1 = buf := (keyEqual_iff.mp hka).symm
    have hv : m.map.v a = some s := congrArg Prod.snd he
    refine Or.inr ⟨_, a, s, hw, load_linkAfter hc, hv, ?_⟩
    rwa [← hv, ← hbuf]

theorem Interns.getBtk_none (h : m.Interns mem l M) (hk : M.elm buf = none) :
    getBtk m.map buf = some none := by
  rcases h.getBtk_cases buf with ⟨hg, -⟩ | ⟨pp, a, s, -, -, -, hs⟩
  · exact hg
  · exact absurd (keyEqual_iff.mpr rfl) (List.find?_eq_none.mp hk _ hs)

/-- Exactly the bytes of the entries are found. -/
theorem Interns.hasSymbol (h : m.Interns mem l M) (buf : List UInt8) :
    m.fklVMhasSymbol2 buf = some (M.entries.any fun e => e.1 == buf) := by
  rcases h.getBtk_cases buf with ⟨hg, hk⟩ | ⟨pp, a, s, hg, -, -, hs⟩
  · have hnone : (M.entries.any fun e => e.1 == buf) = false := by
      rw [List.any_eq_false]
      intro e he hbuf
      exact List.find?_eq_none.mp hk e he (keyEqual_iff.mpr (eq_of_beq hbuf).symm)
    simp [fklVMhasSymbol2, hg, hnone]
  · have hsome : (M.entries.any fun e => e.1 == buf) = true :=
      List.any_eq_true.mpr ⟨_, hs, by simp⟩
    simp [fklVMhasSymbol2, hg, hsome]

variable [DecidableEq A]

/-- A new entry, for a symbol whose bytes no entry has. -/
theorem Interns.new (m' : FklVMobarray A S) (h : m.Interns mem l M) (hk : M.elm buf = none)
    (hfull : ¬m.map.Full) (hs : s ∈ m'.live)
    (hstr : m'.str s = buf) (hint : m'.interned s = true)
    (hold : ∀ x ∈ m.live, x ∈ m'.live ∧ m'.str x = m.str x ∧
      (m.interned x = true → m'.interned x = true)) :
    ∃ a ht l' M', fklHashMapNew (fklStrValueHashConf mem) m.map buf (some (some s)) =
        some (a, ht) ∧ { m' with map := ht }.Interns mem l' M' ∧
      M'.entries = M.entries ++ [(buf, some s)] := by
  obtain ⟨a, ht, hn, -, hht⟩ :=
    h.holds.insert_new (fklStrValueHashConf_lawful mem) (some (some s)) hk hfull
  refine ⟨a, ht, _, _, hn, ⟨hht, ?_⟩, rfl⟩
  intro e he
  rw [InsertionMap.entries_snoc, List.mem_append, List.mem_singleton] at he
  rcases he with he | rfl
  · obtain ⟨x, hx, he, hxi⟩ := h.sym e he
    obtain ⟨hx', hxs, hxi'⟩ := hold x hx
    exact ⟨x, hx', by rw [he, hxs], hxi' hxi⟩
  · exact ⟨s, hs, by rw [hstr]; rfl, hint⟩

/-- An entry of the table is found by its bytes. -/
theorem Interns.addStr_of_mem (h : m.Interns mem l M) (hs : (buf, some s) ∈ M.entries)
    (creator : FklVMobarray A S → List UInt8 → S × FklVMobarray A S) :
    m.addStrToObarray mem creator buf = some (s, m) := by
  rcases h.getBtk_cases buf with ⟨-, hk⟩ | ⟨pp, a, s', hg, hl, hv, hs'⟩
  · have hne := List.find?_eq_none.mp hk _ hs
    exact absurd (keyEqual_iff.mpr rfl) hne
  · obtain rfl : s = s' := by simpa using entry_unique hs hs' rfl
    simp [addStrToObarray, hg, hl, hv]

/-- Bytes that are not in the table get a node for the symbol of `creator`. -/
theorem addStr_of_none (mem : ObarrayMem A S) (hg : getBtk m.map buf = some none)
    (creator : FklVMobarray A S → List UInt8 → S × FklVMobarray A S) :
    m.addStrToObarray mem creator buf =
      (fklHashMapNew (fklStrValueHashConf mem) m.map buf (some (some (creator m buf).1))).map
        fun n => ((creator m buf).1, { (creator m buf).2 with map := n.2 }) := by
  simp only [addStrToObarray, hg, fklHashMapNew, Option.bind_eq_bind, Option.bind_some,
    Option.map_bind]
  rfl

variable [DecidableEq S]

/-- A symbol that exists is added like a new one, by a creator that yields it. -/
theorem addSymbolValue_eq (hs : s ∈ m.live) :
    m.fklVMaddSymbolValue mem s = m.addStrToObarray mem
      (fun m _ => (s, { m with interned := Function.update m.interned s true })) (m.str s) := by
  simp only [fklVMaddSymbolValue, fklAssert_eq_some hs, Option.bind_eq_bind, Option.bind_some]
  rfl

theorem Interns.addSymbol_new (h : m.Interns mem l M) (hk : M.elm buf = none) :
    (m.fklVMaddSymbolCharBuf mem buf = none ∧ m.map.Full) ∨
    ∃ s m' l' M', m.fklVMaddSymbolCharBuf mem buf = some (s, m') ∧ m'.Interns mem l' M' ∧
      M'.entries = M.entries ++ [(buf, some s)] := by
  have hadd := addStr_of_none mem (h.getBtk_none hk) (createInternedSymbol mem)
  by_cases hfull : m.map.Full
  · exact Or.inl ⟨hadd.trans (by rw [new_eq_none _ hfull]; rfl), hfull⟩
  have hfresh := mem.callocSym_not_mem m.live
  obtain ⟨a, ht, l', M', hn, hht, hM'⟩ := h.new (m.createInternedSymbol mem buf).2
    (s := mem.callocSym m.live) hk hfull List.mem_cons_self
    (by simp [createInternedSymbol, fklCreateVMvalueSym])
    (by simp [createInternedSymbol, fklCreateVMvalueSym])
    (by
      intro x hx
      have hne : x ≠ mem.callocSym m.live := fun he => hfresh (he ▸ hx)
      simp [createInternedSymbol, fklCreateVMvalueSym, hne, hx])
  exact Or.inr ⟨_, _, l', M', hadd.trans (congrArg (Option.map _) hn), hht, hM'⟩

theorem Interns.addSymbolValue_new (h : m.Interns mem l M) (hs : s ∈ m.live)
    (hk : M.elm (m.str s) = none) :
    (m.fklVMaddSymbolValue mem s = none ∧ m.map.Full) ∨
    ∃ m' l' M', m.fklVMaddSymbolValue mem s = some (s, m') ∧ m'.Interns mem l' M' ∧
      M'.entries = M.entries ++ [(m.str s, some s)] := by
  have hadd := (addSymbolValue_eq hs).trans (addStr_of_none mem (h.getBtk_none hk) _)
  by_cases hfull : m.map.Full
  · exact Or.inl ⟨hadd.trans (by rw [new_eq_none _ hfull]; rfl), hfull⟩
  obtain ⟨a, ht, l', M', hn, hht, hM'⟩ := h.new
    { m with interned := Function.update m.interned s true } hk hfull hs rfl (by simp)
    (by
      intro x hx
      refine ⟨hx, rfl, fun hxi => ?_⟩
      by_cases hxs : x = s <;> simp [hxs, hxi])
  exact Or.inr ⟨_, l', M', hadd.trans (congrArg (Option.map _) hn), hht, hM'⟩

/-- Each step of the sweep goes to the next node, and takes out the one behind if its symbol is not
marked. -/
theorem updateWeakRef_loopsTo (marked : S → Bool) (kept : List A) {rest : List A}
    {ht : FklHashMap A (List UInt8) (Option S)}
    {M : InsertionMap (fklStrValueHashConf mem).keyEqual (Option S)}
    (h : ht.Holds (fklStrValueHashConf mem) (kept ++ rest) M)
    (hsym : ∀ e ∈ M.entries, ∃ s ∈ m.live, e.2 = some s) :
    ∃ ht' l' M', LoopsTo (fun s => s.2.isSome) (m.updateWeakRefStep mem marked) rest.length
        (ht, rest.head?) (ht', none) ∧ ht'.Holds (fklStrValueHashConf mem) l' M' ∧
      M'.entries = kept.map ht.elm ++ (rest.map ht.elm).filter fun e => e.2.any marked := by
  induction rest generalizing kept ht M with
  | nil => exact ⟨ht, kept ++ [], M, LoopsTo.done rfl, h, by simp [← h.2]⟩
  | cons a rest ih =>
    have hP := fklStrValueHashConf_lawful mem
    have ha : a ∈ kept ++ a :: rest := by simp
    have hnext : ht.next a = rest.head? := by
      obtain ⟨r, -, hr⟩ := listSeg_append.mp h.1.order.forward
      exact hr.2.start_eq
    obtain ⟨s, hs, hv⟩ := hsym (ht.elm a) (by rw [← h.2]; exact List.mem_map_of_mem ha)
    have hmarked : m.fklVMgcIsMarked marked (ht.v a) = some (marked s) := by
      rw [show ht.v a = some s from hv]
      simp [fklVMgcIsMarked, hs]
    have hlive : a ∈ ht.live := h.1.live.mem_iff.mpr ha
    cases hm : marked s with
    | true =>
      obtain ⟨ht', l', M', hrun, hht, hM'⟩ := ih (kept ++ [a]) (by simpa using h) hsym
      refine ⟨ht', l', M', hrun.step rfl ?_, hht, by simp [hM', hv, hm]⟩
      simp [updateWeakRefStep, hlive, hmarked, hm, hnext]
    | false =>
      have hkept : (kept ++ a :: rest).erase a = kept ++ rest := by
        have hnd := h.1.order.nodup
        rw [List.nodup_middle, List.nodup_cons] at hnd
        rw [List.erase_append_right _ fun hk => hnd.1 (List.mem_append_left _ hk)]
        simp
      obtain ⟨ht₁, hd, hht₁, helm⟩ := h.del hP
        (h.1.find?_eq hP ha (hP.equiv.refl _) (fun _ hb => hb) ha)
      rw [hkept] at hht₁
      obtain ⟨ht', l', M', hrun, hht, hM'⟩ :=
        ih kept hht₁ fun e he => hsym e (List.mem_of_mem_filter he)
      refine ⟨ht', l', M', hrun.step rfl ?_, hht, by simp [hM', helm, hv, hm]⟩
      simp [updateWeakRefStep, hlive, hmarked, hm, hnext, hd]

/-- A collection leaves the entries whose symbols are marked. -/
theorem Interns.collect (h : m.Interns mem l M) (marked : S → Bool) :
    ∃ m' l' M', m.collect mem marked = some m' ∧ m'.Interns mem l' M' ∧
      M'.entries = M.entries.filter fun e => e.2.any marked := by
  obtain ⟨ht, l', M', hrun, hht, hM'⟩ := updateWeakRef_loopsTo marked [] h.holds
    fun e he => by
      obtain ⟨s, hs, he, -⟩ := h.sym e he
      exact ⟨s, hs, by rw [he]⟩
  have hfst : m.map.first = l.head? := h.holds.1.order.forward.start_eq
  have hlen : l.length < m.map.live.length + 1 := by simp [h.holds.1.live.length_eq]
  simp only [List.map_nil, List.nil_append, h.holds.2] at hM'
  refine ⟨{ m with map := ht, live := m.live.filter marked }, l', M', ?_, ⟨hht, ?_⟩, hM'⟩
  · have hloop := hrun _ hlen
    rw [← hfst] at hloop
    simp [FklVMobarray.collect, obarrayUpdateWeakRef, hloop]
  · intro e he
    rw [hM', List.mem_filter] at he
    obtain ⟨s, hs, hes, hsi⟩ := h.sym e he.1
    have hms : marked s = true := by simpa [hes] using he.2
    exact ⟨s, by simp [hs, hms], hes, hsi⟩

/-- Every pair that the program holds is an entry. -/
def Holding (M : InsertionMap (fklStrValueHashConf mem).keyEqual (Option S))
    (hs : List (List UInt8 × S)) : Prop := ∀ x ∈ hs, (x.1, some x.2) ∈ M.entries

variable {hs : List (List UInt8 × S)}

omit [DecidableEq A] [DecidableEq S] in
theorem holding_nil : Holding M ([] : List (List UInt8 × S)) := by simp [Holding]

omit [DecidableEq A] [DecidableEq S] in
theorem Holding.cons {M' : InsertionMap (fklStrValueHashConf mem).keyEqual (Option S)}
    (h : Holding M hs) (hM' : M'.entries = M.entries ++ [(buf, some s)]) :
    Holding M' ((buf, s) :: hs) := by
  intro x hx
  rw [hM', List.mem_append, List.mem_singleton]
  rcases List.mem_cons.mp hx with rfl | hx
  · exact Or.inr rfl
  · exact Or.inl (h x hx)

omit [DecidableEq A] [DecidableEq S] in
theorem Interns.elm_cases (h : m.Interns mem l M) (buf : List UInt8) :
    M.elm buf = none ∨ ∃ s, (buf, some s) ∈ M.entries := by
  rcases h.getBtk_cases buf with ⟨-, hk⟩ | ⟨-, -, s, -, -, -, hs⟩
  · exact Or.inl hk
  · exact Or.inr ⟨s, hs⟩

/-- The operations that go wrong: the table cannot grow, or a symbol has been freed. -/
def Stuck (m : FklVMobarray A S) (op : ObarrayOp S) : Prop :=
  m.map.Full ∨ ∃ v ∉ m.live, op = .addSymbolValue v

/-- An operation keeps the table and what is held in step. -/
theorem Interns.call (h : m.Interns mem l M) (hh : Holding M hs) (op : ObarrayOp S) :
    (m.call mem op = none ∧ m.Stuck op) ∨
    ∃ r m' l' M', m.call mem op = some (r, m') ∧ m'.Interns mem l' M' ∧
      Holding M' (m.held hs op r) := by
  cases op with
  | addSymbol buf =>
    rcases h.elm_cases buf with hk | ⟨s, hsm⟩
    · rcases h.addSymbol_new hk with ⟨hadd, hfull⟩ | ⟨s, m', l', M', hadd, hm', hM'⟩
      · exact Or.inl ⟨by simp [FklVMobarray.call, hadd], Or.inl hfull⟩
      · exact Or.inr ⟨.sym s, m', l', M', by simp [FklVMobarray.call, hadd], hm', hh.cons hM'⟩
    · have hadd : m.fklVMaddSymbolCharBuf mem buf = some (s, m) := h.addStr_of_mem hsm _
      refine Or.inr ⟨.sym s, m, l, M, by simp [FklVMobarray.call, hadd], h, ?_⟩
      exact List.forall_mem_cons.mpr ⟨hsm, hh⟩
  | hasSymbol buf =>
    have hfound : m.call mem (.hasSymbol buf) =
        some (.flag (M.entries.any fun e => e.1 == buf), m) := by
      simp [FklVMobarray.call, h.hasSymbol buf]
    exact Or.inr ⟨_, m, l, M, hfound, h, hh⟩
  | createSym buf =>
    have hfresh := mem.callocSym_not_mem m.live
    refine Or.inr ⟨_, _, l, M, rfl, ⟨h.holds, ?_⟩, hh⟩
    intro e he
    obtain ⟨x, hx, hex, hxi⟩ := h.sym e he
    have hne : x ≠ mem.callocSym m.live := fun he => hfresh (he ▸ hx)
    exact ⟨x, by simp [hne, hx, hex, hxi]⟩
  | addSymbolValue v =>
    by_cases hv : v ∈ m.live
    · rcases h.elm_cases (m.str v) with hk | ⟨s, hsm⟩
      · rcases h.addSymbolValue_new hv hk with ⟨hadd, hfull⟩ | ⟨m', l', M', hadd, hm', hM'⟩
        · exact Or.inl ⟨by simp [FklVMobarray.call, hadd], Or.inl hfull⟩
        · exact Or.inr ⟨.sym v, m', l', M', by simp [FklVMobarray.call, hadd], hm', hh.cons hM'⟩
      · have hadd : m.fklVMaddSymbolValue mem v = some (s, m) :=
          (addSymbolValue_eq hv).trans (h.addStr_of_mem hsm _)
        refine Or.inr ⟨.sym s, m, l, M, by simp [FklVMobarray.call, hadd], h, ?_⟩
        exact List.forall_mem_cons.mpr ⟨hsm, hh⟩
    · refine Or.inl ⟨?_, Or.inr ⟨v, hv, rfl⟩⟩
      simp [FklVMobarray.call, fklVMaddSymbolValue, fklAssert, hv]
  | collect marked =>
    obtain ⟨m', l', M', hc, hm', hM'⟩ := h.collect marked
    refine Or.inr ⟨.done, m', l', M', by simp [FklVMobarray.call, hc], hm', ?_⟩
    intro x hx
    obtain ⟨hx, hxm⟩ := List.mem_filter.mp hx
    rw [hM']
    exact List.mem_filter.mpr ⟨hh x hx, hxm⟩

theorem Interns.run (h : m.Interns mem l M) (hh : Holding M hs) {ops : List (ObarrayOp S)}
    {hs' : List (List UInt8 × S)} {m' : FklVMobarray A S}
    (hrun : m.run mem hs ops = some (hs', m')) :
    ∃ l' M', m'.Interns mem l' M' ∧ Holding M' hs' := by
  induction ops generalizing m l M hs with
  | nil =>
    obtain ⟨rfl, rfl⟩ := Prod.mk.inj (Option.some.inj hrun)
    exact ⟨l, M, h, hh⟩
  | cons op ops ih =>
    simp only [FklVMobarray.run, Option.bind_eq_bind, Option.bind_eq_some_iff] at hrun
    obtain ⟨⟨r, m₁⟩, hc, hrest⟩ := hrun
    rcases h.call hh op with ⟨hnone, -⟩ | ⟨r', m₁', l₁, M₁, hc', h₁, hh₁⟩
    · simp [hnone] at hc
    · obtain ⟨rfl, rfl⟩ := Prod.mk.inj (Option.some.inj (hc'.symm.trans hc))
      exact ih h₁ hh₁ hrest

omit [DecidableEq A] [DecidableEq S] in
theorem Interns.entries (h : m.Interns mem l M) : m.entries = some M.entries := by
  have hwalk : ∀ (t : List A) (es : List (List UInt8 × Option S)),
      t.foldlM (fun es cur => some (es ++ [m.map.elm cur])) es =
        some (es ++ t.map m.map.elm) := by
    intro t
    induction t with
    | nil => simp
    | cons a t ih => simp [List.foldlM_cons, ih]
  unfold FklVMobarray.entries
  rw [h.holds.1.order.forward.walkList _ (by simp [h.holds.1.live.length_eq]), hwalk, h.holds.2]
  rfl

end FklVMobarray

variable [DecidableEq A] [DecidableEq S]

open FklVMobarray in
/-- Whatever has been looked up, added and collected: the symbols held are the same just when their
bytes are, and a lookup of the bytes yields them; an operation fails only when the table cannot grow
or is given a freed symbol; exactly the bytes of the entries are found; and a collection leaves the
entries of the symbols that are marked, each found by its bytes, and finds the others no more. -/
theorem obarray_interns (mem : ObarrayMem A S) (m₀ : FklVMobarray A S) {ops : List (ObarrayOp S)}
    {hs : List (List UInt8 × S)} {m : FklVMobarray A S}
    (hrun : m₀.fklCreateVMvalueObarray.run mem [] ops = some (hs, m)) :
    (∀ buf s buf' s', (buf, s) ∈ hs → (buf', s') ∈ hs → (s = s' ↔ buf = buf')) ∧
    (∀ buf s, (buf, s) ∈ hs → m.call mem (.addSymbol buf) = some (.sym s, m)) ∧
    (∀ op, m.call mem op = none → m.Stuck op) ∧
    ∃ es, m.entries = some es ∧
      (∀ h ∈ hs, (h.1, some h.2) ∈ es) ∧
      (∀ buf, m.call mem (.hasSymbol buf) = some (.flag (es.any fun e => e.1 == buf), m)) ∧
      ∀ marked, ∃ m', m.call mem (.collect marked) = some (.done, m') ∧
        m'.entries = some (es.filter fun e => e.2.any marked) ∧
        ∀ e ∈ es, ∃ s, e.2 = some s ∧
          m'.call mem (.hasSymbol e.1) = some (.flag (marked s), m') ∧
          (marked s = true → m'.call mem (.addSymbol e.1) = some (.sym s, m')) := by
  obtain ⟨l, M, h, hh⟩ := (interns_init mem m₀).run holding_nil hrun
  refine ⟨?_, ?_, ?_, M.entries, h.entries, hh, fun buf => ?_, fun marked => ?_⟩
  · intro buf s buf' s' hs hs'
    constructor
    · rintro rfl
      obtain ⟨x, -, hx, -⟩ := h.sym _ (hh _ hs)
      obtain ⟨y, -, hy, -⟩ := h.sym _ (hh _ hs')
      simp only [Prod.mk.injEq, Option.some.injEq] at hx hy
      rw [hx.1, hy.1, ← hx.2, ← hy.2]
    · intro hbuf
      have heq := entry_unique (hh _ hs) (hh _ hs') hbuf
      simpa using congrArg Prod.snd heq
  · intro buf s hs
    have hadd : m.fklVMaddSymbolCharBuf mem buf = some (s, m) := h.addStr_of_mem (hh _ hs) _
    simp [call, hadd]
  · intro op hnone
    rcases h.call hh op with ⟨-, hstuck⟩ | ⟨r, m', -, -, hc, -⟩
    · exact hstuck
    · simp [hnone] at hc
  · simp [call, h.hasSymbol buf]
  · obtain ⟨m', l', M', hc, hm', hM'⟩ := h.collect marked
    refine ⟨m', by simp [call, hc], by rw [hm'.entries, hM'], ?_⟩
    intro e he
    obtain ⟨s, -, hes, -⟩ := h.sym e he
    have hkept : (e.1, some s) ∈ M'.entries ↔ marked s = true := by
      rw [hM', List.mem_filter]
      rw [hes] at he ⊢
      simp [he]
    refine ⟨s, by rw [hes], ?_, fun hms => ?_⟩
    · have hfound : (M'.entries.any fun e' => e'.1 == e.1) = marked s := by
        rw [Bool.eq_iff_iff, List.any_eq_true, ← hkept]
        constructor
        · rintro ⟨e', he', hbuf⟩
          have hin : e' ∈ M.entries := by
            rw [hM'] at he'
            exact List.mem_of_mem_filter he'
          obtain rfl := entry_unique hin he (eq_of_beq hbuf)
          rw [hes] at he' ⊢
          exact he'
        · exact fun hmem => ⟨_, hmem, by simp⟩
      have hcall := hm'.hasSymbol e.1
      rw [hfound] at hcall
      simp [call, hcall]
    · have hadd : m'.fklVMaddSymbolCharBuf mem e.1 = some (s, m') :=
        hm'.addStr_of_mem (hkept.mpr hms) _
      simp [call, hadd]

/-- Addresses from 0 on. -/
def natObarrayMem : ObarrayMem Nat Nat where
  calloc live := live.foldr max 0 + 1
  calloc_not_mem := oneChainConf_lawful.calloc
  callocSym live := live.foldr max 0 + 1
  callocSym_not_mem := oneChainConf_lawful.calloc

def blankObarray : FklVMobarray Nat Nat where
  map := { blankHashMap with k := fun _ => [], v := fun _ => none }
  str _ := []
  interned _ := false
  live := []

/-- Two symbols, one of them looked up again; the other is collected and comes back as another. -/
def internedTwice : List (ObarrayOp Nat) :=
  [.addSymbol [97], .addSymbol [97, 0], .addSymbol [97], .collect (· == 1), .hasSymbol [97, 0],
    .createSym [98], .addSymbolValue 2, .addSymbol [97, 0]]

theorem internedTwice_interns : ∃ hs m,
    blankObarray.fklCreateVMvalueObarray.run natObarrayMem [] internedTwice = some (hs, m) ∧
      ∀ buf s buf' s', (buf, s) ∈ hs → (buf', s') ∈ hs → (s = s' ↔ buf = buf') := by
  obtain ⟨⟨hs, m⟩, h⟩ := Option.isSome_iff_exists.mp
    (show (blankObarray.fklCreateVMvalueObarray.run natObarrayMem [] internedTwice).isSome = true
      by decide +kernel)
  exact ⟨hs, m, h, (obarray_interns natObarrayMem blankObarray h).1⟩

end FakeLisp
