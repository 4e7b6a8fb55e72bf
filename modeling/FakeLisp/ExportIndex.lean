import FakeLisp.ImportRelocRight

/-! The places of the exports of a library are the places of its vector of names, as long as
exports are only deleted from the end. -/

namespace FakeLisp.PreCompile

namespace Exports

variable {ex last : Exports} {s : Sym} {e : FklCgExportIdx}

/-! Tables that are made at once. -/

/-- A symbol that comes again moves to its last place. -/
def fklInitCgDllLib (exports : List Sym) : Exports :=
  exports.zipIdx.foldl (fun ex p => ex.set symEquiv p.1 ⟨p.2, false⟩) .empty

/-- The exports of `info` one after the other; a file is read in the same way. -/
def fklInitCgScriptLib (info : Exports) : Exports :=
  info.entries.foldl (fun ex p => ex.add symEquiv p.1 p.2) .empty

theorem ext_entries {ex ex' : Exports} (h : ex.entries = ex'.entries) : ex = ex' := by
  cases ex
  cases ex'
  obtain rfl := h
  rfl

theorem elm_none_iff : ex.elm s = none ↔ s ∉ ex.entries.map (·.1) := by
  rw [InsertionMap.elm, List.find?_eq_none, List.mem_map]
  constructor
  · rintro h ⟨e, he, rfl⟩
    exact h e he (by simp)
  · exact fun h e he hs => h ⟨e, he, (by simpa using hs : s = e.1).symm⟩

theorem insertAll_entries {f : Exports → Sym → FklCgExportIdx → Exports}
    (hf : ∀ ex s e, ex.elm s = none → (f ex s e).entries = ex.entries ++ [(s, e)])
    {es : List (Sym × FklCgExportIdx)} (hnodup : (ex.entries.map (·.1) ++ es.map (·.1)).Nodup) :
    (es.foldl (fun ex p => f ex p.1 p.2) ex).entries = ex.entries ++ es := by
  induction es generalizing ex with
  | nil => simp
  | cons e es ih =>
    have hnone : ex.elm e.1 = none := by
      rw [elm_none_iff]
      exact fun hmem => (List.nodup_append.mp hnodup).2.2 e.1 hmem e.1 (by simp) rfl
    have hadd := hf ex e.1 e.2 hnone
    rw [List.foldl_cons, ih (by rw [hadd]; simpa using hnodup), hadd, List.append_assoc]
    rfl

theorem scriptLib_eq (info : Exports) : fklInitCgScriptLib info = info := by
  have hadd : ∀ (ex : Exports) s e, ex.elm s = none →
      (ex.add symEquiv s e).entries = ex.entries ++ [(s, e)] := by
    intro ex s e hnone
    rw [InsertionMap.add, dif_pos hnone]
    rfl
  apply ext_entries
  exact (insertAll_entries hadd (by simpa using info.keys_nodup)).trans (List.nil_append _)

theorem dllLib_entries {exports : List Sym} (hnodup : exports.Nodup) :
    (fklInitCgDllLib exports).entries = exports.zipIdx.map fun p => (p.1, ⟨p.2, false⟩) := by
  have hfold : fklInitCgDllLib exports =
      (exports.zipIdx.map fun p => ((p.1, ⟨p.2, false⟩) : Sym × FklCgExportIdx)).foldl
        (fun ex p => ex.set symEquiv p.1 p.2) .empty := by
    rw [List.foldl_map]
    rfl
  have hset : ∀ (ex : Exports) s e, ex.elm s = none →
      (ex.set symEquiv s e).entries = ex.entries ++ [(s, e)] := fun _ _ _ =>
    InsertionMap.entries_set_of_none symEquiv
  rw [hfold]
  refine (insertAll_entries hset ?_).trans (List.nil_append _)
  simpa [Function.comp_def, List.zipIdx_map_fst] using hnodup

theorem dllLib_snoc (exports : List Sym) (s : Sym) : fklInitCgDllLib (exports ++ [s]) =
    (fklInitCgDllLib exports).set symEquiv s ⟨exports.length, false⟩ := by
  simp [fklInitCgDllLib, List.zipIdx_append]

theorem dllLib_keys (exports : List Sym) :
    ∀ s ∈ (fklInitCgDllLib exports).entries.map (·.1), s ∈ exports := by
  induction exports using List.reverseRecOn with
  | nil => simp [fklInitCgDllLib]
  | append_singleton exports s ih =>
    intro s' hs'
    obtain ⟨p, hp, rfl⟩ := List.mem_map.mp hs'
    have hget : InsertionMap.get _ p.1 = some p.2 := mem_iff.mp hp
    rw [dllLib_snoc, InsertionMap.get_set] at hget
    by_cases hkey : p.1 = s
    · simp [hkey]
    · rw [if_neg (by simpa using hkey)] at hget
      exact List.mem_append_left _ (ih p.1 (List.mem_map_of_mem (mem_iff.mpr hget)))

/-! Numbered tables. -/

/-- The exports have the places from 0 on, and the vector of names is filled with them. -/
structure Numbered (ex : Exports) : Prop where
  perm : (ex.entries.map (·.2.idx)).Perm (List.range ex.entries.length)
  inside : ∀ e ∈ ex.entries, e.2.idx < ex.fklCreateCgNamesVec.length
  once : ∀ i < ex.fklCreateCgNamesVec.length, ∃! e, e ∈ ex.entries ∧ e.2.idx = i
  name : ∀ s e, ex.get s = some e → ex.fklCreateCgNamesVec[e.idx]? = some (some s)

theorem createNames_length : ex.fklCreateCgNamesVec.length = ex.entries.length := by
  rw [createNames_eq, storeNames_length, List.length_replicate]

theorem eq_of_idx {p q : Sym × FklCgExportIdx} (hnodup : (ex.entries.map (·.2.idx)).Nodup)
    (hp : p ∈ ex.entries) (hq : q ∈ ex.entries) (h : p.2.idx = q.2.idx) : p = q :=
  List.inj_on_of_nodup_map hnodup hp hq h

theorem name_of_nodup (hnodup : (ex.entries.map (·.2.idx)).Nodup) (hget : ex.get s = some e)
    (hlt : e.idx < ex.entries.length) : ex.fklCreateCgNamesVec[e.idx]? = some (some s) := by
  obtain ⟨pre, post, hes⟩ := List.append_of_mem (mem_iff.mpr hget)
  have hpost : ∀ e' ∈ post, e'.2.idx ≠ e.idx := by
    intro e' he' heq
    rw [hes, List.map_append, List.map_cons] at hnodup
    have hcons := (List.nodup_append.mp hnodup).2.1
    exact (List.nodup_cons.mp hcons).1 (List.mem_map.mpr ⟨e', he', heq⟩)
  exact storeNames_of_split hes hpost (by simpa using hlt)

theorem numbered_iff_perm :
    Numbered ex ↔ (ex.entries.map (·.2.idx)).Perm (List.range ex.entries.length) := by
  refine ⟨Numbered.perm, fun hperm => ?_⟩
  have hnodup : (ex.entries.map (·.2.idx)).Nodup := hperm.nodup_iff.mpr List.nodup_range
  have hinside : ∀ e ∈ ex.entries, e.2.idx < ex.entries.length := fun e he =>
    List.mem_range.mp (hperm.mem_iff.mp (List.mem_map_of_mem he))
  refine ⟨hperm, fun e he => createNames_length ▸ hinside e he, fun i hi => ?_, fun s e hget => ?_⟩
  · rw [createNames_length] at hi
    obtain ⟨e, he, heq⟩ := List.mem_map.mp (hperm.mem_iff.mpr (List.mem_range.mpr hi))
    exact ⟨e, ⟨he, heq⟩, fun e' he' => eq_of_idx hnodup he'.1 he (he'.2.trans heq.symm)⟩
  · exact name_of_nodup hnodup hget (hinside _ (mem_iff.mpr hget))

/-! One step. -/

/-- The exports have their places in the order in which they were added. -/
def InOrder (ex : Exports) : Prop :=
  ex.entries.map (·.2.idx) = List.range ex.entries.length

theorem InOrder.numbered (h : InOrder ex) : Numbered ex :=
  numbered_iff_perm.mpr (List.Perm.of_eq h)

theorem exportAdd_of_some (hs : ex.get s = some e) (notOwned : Bool) :
    (ex.fklCgExportAdd s notOwned).entries.map (·.2.idx) = ex.entries.map (·.2.idx) := by
  rw [fklCgExportAdd, hs]
  dsimp only
  rw [InsertionMap.entries_replace, List.map_map]
  refine List.map_congr_left fun p hp => ?_
  dsimp only [Function.comp_apply]
  split
  · next hkey =>
    obtain rfl : s = p.1 := by simpa using hkey
    have hget : ex.get p.1 = some p.2 := mem_iff.mp hp
    obtain rfl : e = p.2 := Option.some.inj (hs.symm.trans hget)
    rfl
  · rfl

theorem InOrder.add (h : InOrder ex) (s : Sym) (notOwned : Bool) :
    InOrder (ex.fklCgExportAdd s notOwned) := by
  unfold InOrder at h ⊢
  cases hs : ex.get s with
  | some e =>
    have hidx := exportAdd_of_some hs notOwned
    have hlen := congrArg List.length hidx
    rw [List.length_map, List.length_map] at hlen
    rw [hidx, hlen, h]
  | none =>
    rw [exportAdd_of_none hs, List.map_append, h, List.length_append, List.length_singleton,
      List.range_succ]
    rfl

def Deleted (last : Exports) (e : Sym × FklCgExportIdx) : Prop :=
  last.get e.1 = none ∧ e.2.notOwned = true

/-- Behind a deleted export there are only deleted ones. -/
def DeletesLast (ex last : Exports) : Prop :=
  ex.entries.Pairwise fun e e' => Deleted last e → Deleted last e'

theorem keep_iff {p : Sym × FklCgExportIdx} :
    (!((last.get p.1).isNone && p.2.notOwned)) = true ↔ ¬Deleted last p := by
  cases hget : last.get p.1 <;> simp [Deleted, hget]

theorem mem_filter {p : Sym × FklCgExportIdx} :
    p ∈ (ex.filterNotOwnedAndUnusedSymbol last).entries ↔ p ∈ ex.entries ∧ ¬Deleted last p := by
  rw [filterNotOwnedAndUnusedSymbol, List.mem_filter, keep_iff]

theorem filter_prefix_of_pairwise {α : Type} {p : α → Bool} {l : List α}
    (h : l.Pairwise fun a b => p a = false → p b = false) : l.filter p <+: l := by
  induction l with
  | nil => exact List.prefix_rfl
  | cons a l ih =>
    obtain ⟨ha, hl⟩ := List.pairwise_cons.mp h
    cases hp : p a with
    | true => simpa [hp] using ih hl
    | false =>
      have hnone : l.filter p = [] := List.filter_eq_nil_iff.mpr fun b hb => by simp [ha b hb hp]
      simp [hp, hnone]

theorem InOrder.filter (h : InOrder ex) (hlast : DeletesLast ex last) :
    InOrder (ex.filterNotOwnedAndUnusedSymbol last) := by
  have hprefix : (ex.filterNotOwnedAndUnusedSymbol last).entries <+: ex.entries := by
    refine filter_prefix_of_pairwise (hlast.imp fun {a b} hab ha => ?_)
    rw [Bool.eq_false_iff, Ne, keep_iff, not_not] at ha ⊢
    exact hab ha
  have hidx := hprefix.map (·.2.idx)
  unfold InOrder at h ⊢
  rw [List.prefix_iff_eq_take.mp hidx, h, List.take_range, List.length_map,
    Nat.min_eq_left hprefix.length_le]

/-- A deleted export in front of one that stays leaves a gap. -/
theorem InOrder.deletesLast_of_perm (h : InOrder ex)
    (hperm : ((ex.filterNotOwnedAndUnusedSymbol last).entries.map (·.2.idx)).Perm
      (List.range (ex.filterNotOwnedAndUnusedSymbol last).entries.length)) :
    DeletesLast ex last := by
  have hlt : ex.entries.Pairwise fun e e' => e.2.idx < e'.2.idx := by
    rw [← List.pairwise_map (R := (· < ·)), h]
    exact List.pairwise_lt_range
  have hnodup : (ex.entries.map (·.2.idx)).Nodup := h ▸ List.nodup_range
  refine List.Pairwise.imp_of_mem (fun {e e'} he he' hlt hdel => ?_) hlt
  by_contra hkept
  have hmem' : e'.2.idx ∈ List.range (ex.filterNotOwnedAndUnusedSymbol last).entries.length :=
    hperm.mem_iff.mp (List.mem_map_of_mem (mem_filter.mpr ⟨he', hkept⟩))
  have hmem : e.2.idx ∈ List.range (ex.filterNotOwnedAndUnusedSymbol last).entries.length :=
    List.mem_range.mpr (hlt.trans (List.mem_range.mp hmem'))
  obtain ⟨d, hd, hidx⟩ := List.mem_map.mp (hperm.mem_iff.mpr hmem)
  obtain ⟨hd, hdkept⟩ := mem_filter.mp hd
  exact hdkept (eq_of_idx hnodup hd he hidx ▸ hdel)

theorem InOrder.filter_numbered_iff (h : InOrder ex) :
    Numbered (ex.filterNotOwnedAndUnusedSymbol last) ↔ DeletesLast ex last :=
  ⟨fun hnum => h.deletesLast_of_perm hnum.perm, fun hlast => (h.filter hlast).numbered⟩

theorem inOrder_dllLib {exports : List Sym} (hnodup : exports.Nodup) :
    InOrder (fklInitCgDllLib exports) := by
  rw [InOrder, dllLib_entries hnodup, List.map_map, List.length_map, List.length_zipIdx]
  exact (List.zipIdx_map_snd 0 exports).trans (List.range_eq_range' ..).symm

/-- A symbol that comes twice moves the last place out of the vector. -/
theorem dllLib_numbered_iff {exports : List Sym} :
    Numbered (fklInitCgDllLib exports) ↔ exports.Nodup := by
  refine ⟨fun hnum => ?_, fun hnodup => (inOrder_dllLib hnodup).numbered⟩
  cases exports using List.reverseRecOn with
  | nil => exact List.nodup_nil
  | append_singleton exports s =>
    have hget : (fklInitCgDllLib (exports ++ [s])).get s = some ⟨exports.length, false⟩ := by
      rw [dllLib_snoc, InsertionMap.get_set, if_pos (by simp)]
    have hlt := hnum.inside _ (mem_iff.mpr hget)
    rw [createNames_length] at hlt
    have hsub := keys_nodup.subperm (dllLib_keys (exports ++ [s]))
    have hperm := hsub.perm_of_length_le (by simpa using hlt)
    exact hperm.nodup_iff.mp keys_nodup

/-! Runs. -/

inductive ExportOp where
  | add (s : Sym) (notOwned : Bool)
  | copy
  | filter (last : Exports)

def ExportOp.run (ex : Exports) : ExportOp → Exports
  | .add s notOwned => ex.fklCgExportAdd s notOwned
  | .copy => fklInitCgScriptLib ex
  | .filter last => ex.filterNotOwnedAndUnusedSymbol last

/-- The table of a library that has `exports` from the start, after `ops`. -/
def exportsAfter (exports : List Sym) (ops : List ExportOp) : Exports :=
  ops.foldl ExportOp.run (fklInitCgDllLib exports)

theorem exportsAfter_snoc (exports : List Sym) (ops : List ExportOp) (op : ExportOp) :
    exportsAfter exports (ops ++ [op]) = op.run (exportsAfter exports ops) := by
  simp [exportsAfter]

def OpDeletesLast (ex : Exports) : ExportOp → Prop
  | .filter last => DeletesLast ex last
  | _ => True

theorem InOrder.run (h : InOrder ex) {op : ExportOp} (hop : OpDeletesLast ex op) :
    InOrder (op.run ex) := by
  cases op with
  | add s notOwned => exact h.add s notOwned
  | copy =>
    rw [ExportOp.run, scriptLib_eq]
    exact h
  | filter last => exact h.filter hop

theorem inOrder_exportsAfter {exports : List Sym} {ops : List ExportOp} (hnodup : exports.Nodup)
    (hops : ∀ pre op, pre ++ [op] <+: ops → OpDeletesLast (exportsAfter exports pre) op) :
    InOrder (exportsAfter exports ops) := by
  induction ops using List.reverseRecOn with
  | nil => exact inOrder_dllLib hnodup
  | append_singleton ops op ih =>
    rw [exportsAfter_snoc]
    refine (ih fun pre op' hpre => ?_).run (hops ops op List.prefix_rfl)
    exact hops pre op' (hpre.trans (List.prefix_append ops [op]))

/-- The tables of a library are numbered all the time exactly when it starts without a symbol
that comes twice and each filtering deletes the exports that were added last. -/
theorem exports_numbered_iff {exports : List Sym} {ops : List ExportOp} :
    (∀ pre, pre <+: ops → Numbered (exportsAfter exports pre)) ↔
      exports.Nodup ∧ ∀ pre last, pre ++ [.filter last] <+: ops →
        DeletesLast (exportsAfter exports pre) last := by
  constructor
  · intro hnum
    have hnodup : exports.Nodup := dllLib_numbered_iff.mp (hnum [] List.nil_prefix)
    refine ⟨hnodup, ?_⟩
    induction ops using List.reverseRecOn with
    | nil => simp
    | append_singleton ops op ih =>
      have hbefore := ih fun pre hpre => hnum pre (hpre.trans (List.prefix_append ops [op]))
      have horder : InOrder (exportsAfter exports ops) := by
        refine inOrder_exportsAfter hnodup fun pre op' hpre => ?_
        cases op' with
        | filter last => exact hbefore pre last hpre
        | _ => trivial
      intro pre last hpre
      rcases List.prefix_concat_iff.mp hpre with heq | hpre
      · obtain ⟨rfl, hop⟩ := List.append_inj' heq rfl
        obtain rfl := List.singleton_inj.mp hop
        have hlast := hnum _ List.prefix_rfl
        rw [exportsAfter_snoc] at hlast
        exact horder.filter_numbered_iff.mp hlast
      · exact hbefore pre last hpre
  · intro ⟨hnodup, hfilters⟩ pre hpre
    refine (inOrder_exportsAfter hnodup fun pre' op hpre' => ?_).numbered
    cases op with
    | filter last => exact hfilters pre' last (hpre'.trans hpre)
    | _ => trivial

/-- Two exports of which the first goes. -/
theorem gap_not_numbered : ¬Numbered (exportsAfter []
    [.add [97] true, .add [98] false, .filter .empty]) := by
  intro hnum
  have hinside := hnum.inside ([98], ⟨1, false⟩) (by decide)
  exact absurd hinside (by decide)

end Exports

end FakeLisp.PreCompile
