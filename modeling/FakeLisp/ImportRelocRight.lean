import FakeLisp.ImportReloc

/-! After the relocations an import instruction has the place of its symbol in the library that
is loaded now, as long as the exports of that library kept their places. -/

namespace FakeLisp.PreCompile

/-! Tables of names. -/

section

variable {es : List (Sym × FklCgExportIdx)} {v : List (Option Sym)} {s : Sym}

def storeNames (v : List (Option Sym)) (es : List (Sym × FklCgExportIdx)) : List (Option Sym) :=
  es.foldl (fun v e => v.set e.2.idx (some e.1)) v

theorem storeNames_length : (storeNames v es).length = v.length := by
  induction es generalizing v with
  | nil => rfl
  | cons e es ih => exact ih.trans (List.length_set ..)

theorem storeNames_of_ne {j : Nat} (h : ∀ e ∈ es, e.2.idx ≠ j) :
    (storeNames v es)[j]? = v[j]? := by
  induction es generalizing v with
  | nil => rfl
  | cons e es ih =>
    have hset := ih (v := v.set e.2.idx (some e.1)) fun e' he' => h e' (List.mem_cons_of_mem e he')
    rw [List.getElem?_set_ne (h e List.mem_cons_self)] at hset
    exact hset

/-- The last name that is stored at a place stays there. -/
theorem storeNames_of_split {pre post : List (Sym × FklCgExportIdx)} {e : Sym × FklCgExportIdx}
    (hes : es = pre ++ e :: post) (hpost : ∀ e' ∈ post, e'.2.idx ≠ e.2.idx)
    (hlt : e.2.idx < v.length) : (storeNames v es)[e.2.idx]? = some (some e.1) := by
  have hsplit : storeNames v es =
      storeNames ((storeNames v pre).set e.2.idx (some e.1)) post := by
    rw [hes]
    simp [storeNames]
  rw [hsplit, storeNames_of_ne hpost, List.getElem?_set_self]
  rwa [storeNames_length]

theorem storeNames_some {j : Nat} (h : (storeNames v es)[j]? = some (some s)) :
    v[j]? = some (some s) ∨ ∃ e ∈ es, e.1 = s ∧ e.2.idx = j := by
  induction es generalizing v with
  | nil => exact .inl h
  | cons e es ih =>
    rcases ih h with hv | ⟨e', he', hs⟩
    · by_cases hj : e.2.idx = j
      · subst hj
        rw [List.getElem?_set_self'] at hv
        cases hg : v[e.2.idx]? with
        | none => simp [hg] at hv
        | some x => exact .inr ⟨e, List.mem_cons_self, by simpa [hg] using hv, rfl⟩
      · rw [List.getElem?_set_ne hj] at hv
        exact .inl hv
    · exact .inr ⟨e', List.mem_cons_of_mem e he', hs⟩

end

namespace Exports

variable {ex last : Exports} {s : Sym} {e : FklCgExportIdx}

theorem mem_iff : (s, e) ∈ ex.entries ↔ ex.get s = some e := by
  constructor
  · exact fun h => InsertionMap.get_of_mem symEquiv h
  · intro h
    obtain ⟨⟨s', e'⟩, hmem, hs, rfl⟩ := InsertionMap.mem_of_get h
    obtain rfl : s = s' := by simpa using hs
    exact hmem

theorem keys_nodup : (ex.entries.map (·.1)).Nodup := by
  rw [List.Nodup, List.pairwise_map]
  exact ex.unequal.imp fun h => by simpa using h

theorem createNames_eq : ex.fklCreateCgNamesVec =
    storeNames (List.replicate ex.entries.length none) ex.entries := rfl

theorem exportAdd_of_none (hs : ex.get s = none) (notOwned : Bool) :
    (ex.fklCgExportAdd s notOwned).entries = ex.entries ++ [(s, ⟨ex.entries.length, notOwned⟩)] := by
  rw [fklCgExportAdd, hs]
  exact InsertionMap.entries_set_of_none symEquiv (InsertionMap.get_eq_none_iff.mp hs)

/-- New symbols get the places behind the others. -/
theorem exportAdd_all {ss : List Sym} (hnodup : ss.Nodup) (hnone : ∀ s ∈ ss, ex.get s = none) :
    (ss.foldl (fun ex s => ex.fklCgExportAdd s true) ex).entries =
      ex.entries ++ (ss.zipIdx ex.entries.length).map fun p => (p.1, ⟨p.2, true⟩) := by
  induction ss generalizing ex with
  | nil => simp
  | cons s ss ih =>
    obtain ⟨hs, hnodup⟩ := List.nodup_cons.mp hnodup
    have hadd := exportAdd_of_none (hnone s List.mem_cons_self) true
    have hnone' : ∀ s' ∈ ss, (ex.fklCgExportAdd s true).get s' = none := by
      intro s' hs'
      rw [Option.eq_none_iff_forall_ne_some]
      intro e he
      rw [← mem_iff, hadd, List.mem_append, mem_iff, hnone s' (List.mem_cons_of_mem s hs')] at he
      obtain rfl : s' = s := by simpa using (Prod.mk.inj (List.mem_singleton.mp
        (he.resolve_left (by simp)))).1
      exact hs hs'
    rw [List.foldl_cons, ih hnodup hnone', hadd]
    simp

end Exports

namespace LoadedLib

variable {l : LoadedLib} {s : Sym} {e : FklCgExportIdx}

theorem stayed_sublist : l.stayed.entries.Sublist l.written.exports.entries :=
  List.filter_sublist

theorem written_idx_nodup : (l.written.exports.entries.map (·.2.idx)).Nodup := by
  rw [l.written.idx_eq]
  exact List.nodup_range

theorem stayed_idx_nodup : (l.stayed.entries.map (·.2.idx)).Nodup :=
  (written_idx_nodup (l := l)).sublist (stayed_sublist.map _)

theorem stayed_written (h : l.stayed.get s = some e) : l.written.exports.get s = some e :=
  Exports.mem_iff.mp (stayed_sublist.subset (Exports.mem_iff.mpr h))

theorem gained_none (h : s ∈ l.gained) : l.stayed.get s = none := by
  obtain ⟨e, he, rfl⟩ := List.mem_map.mp h
  exact Option.isNone_iff_eq_none.mp (List.mem_filter.mp he).2

theorem gained_nodup : l.gained.Nodup :=
  Exports.keys_nodup.sublist (List.filter_sublist.map _)

/-- The places of the exports that were gained. -/
def gainedEntries (l : LoadedLib) : List (Sym × FklCgExportIdx) :=
  (l.gained.zipIdx l.stayed.entries.length).map fun p => (p.1, ⟨p.2, true⟩)

theorem exports_entries : l.exports.entries = l.stayed.entries ++ l.gainedEntries :=
  Exports.exportAdd_all gained_nodup fun _ hs => gained_none hs

theorem exports_of_gained_nil (h : l.gained = []) : l.exports = l.stayed := by
  simp [LoadedLib.exports, h]

theorem gainedEntries_idx (e : Sym × FklCgExportIdx) (he : e ∈ l.gainedEntries) :
    e.1 ∈ l.gained ∧ l.stayed.entries.length ≤ e.2.idx := by
  obtain ⟨p, hp, rfl⟩ := List.mem_map.mp he
  have hmem := List.mem_zipIdx hp
  refine ⟨?_, hmem.1⟩
  rw [hmem.2.2]
  exact List.getElem_mem _

theorem gainedEntries_idx_nodup : (l.gainedEntries.map (·.2.idx)).Nodup := by
  have hmap : l.gainedEntries.map (·.2.idx) =
      (l.gained.zipIdx l.stayed.entries.length).map (·.2) := by
    simp [gainedEntries, Function.comp_def]
  rw [hmap, List.zipIdx_map_snd]
  exact List.nodup_range'

theorem names_of_gained_nil (h : l.gained = []) :
    l.names = l.written.exports.fklCreateCgNamesVec := by simp [names, h]

theorem names_of_gained (hmore : l.hasExportMore = true) (h : l.gained ≠ []) :
    l.names = l.exports.fklCreateCgNamesVec := by simp [names, h, hmore]

/-- The names as they were written. -/
theorem writtenNames (h : l.written.exports.get s = some e) :
    l.written.exports.fklCreateCgNamesVec[e.idx]? = some (some s) := by
  obtain ⟨pre, post, hes⟩ := List.append_of_mem (Exports.mem_iff.mpr h)
  have hnodup := written_idx_nodup (l := l)
  rw [hes, List.map_append, List.map_cons] at hnodup
  have hpost : ∀ e' ∈ post, e'.2.idx ≠ e.idx := by
    intro e' he' heq
    have hcons := (List.nodup_append.mp hnodup).2.1
    exact (List.nodup_cons.mp hcons).1 (heq ▸ List.mem_map_of_mem he')
  refine storeNames_of_split (e := (s, e)) hes hpost ?_
  have hidx : e.idx ∈ l.written.exports.entries.map (·.2.idx) :=
    List.mem_map.mpr ⟨(s, e), Exports.mem_iff.mpr h, rfl⟩
  rw [l.written.idx_eq] at hidx
  simpa using hidx

theorem exports_length : l.exports.entries.length = l.stayed.entries.length + l.gained.length := by
  rw [exports_entries]
  simp [gainedEntries]

theorem gainedEntries_at {j : Nat} (h : l.stayed.entries.length ≤ j)
    (hj : j < l.exports.entries.length) : ∃ s', (s', ⟨j, true⟩) ∈ l.gainedEntries := by
  rw [exports_length] at hj
  have hlt : j - l.stayed.entries.length < l.gained.length := by omega
  refine ⟨l.gained[j - l.stayed.entries.length], List.mem_map.mpr ⟨(_, j), ?_, rfl⟩⟩
  rw [List.mem_zipIdx_iff_le_and_getElem?_sub]
  exact ⟨h, List.getElem?_eq_getElem hlt⟩

theorem gained_name (e : Sym × FklCgExportIdx) (he : e ∈ l.gainedEntries)
    (hlt : e.2.idx < l.exports.entries.length) :
    l.exports.fklCreateCgNamesVec[e.2.idx]? = some (some e.1) := by
  obtain ⟨pre, post, hes⟩ := List.append_of_mem he
  have hnodup := gainedEntries_idx_nodup (l := l)
  rw [hes, List.map_append, List.map_cons] at hnodup
  have hpost : ∀ e' ∈ post, e'.2.idx ≠ e.2.idx := by
    intro e' he' heq
    have hcons := (List.nodup_append.mp hnodup).2.1
    exact (List.nodup_cons.mp hcons).1 (heq ▸ List.mem_map_of_mem he')
  have hall : l.exports.entries = (l.stayed.entries ++ pre) ++ e :: post := by
    rw [exports_entries, hes, List.append_assoc]
  exact storeNames_of_split hall hpost (by simpa using hlt)

theorem stayed_name (h : l.stayed.get s = some e) (hlt : e.idx < l.stayed.entries.length) :
    l.exports.fklCreateCgNamesVec[e.idx]? = some (some s) := by
  obtain ⟨pre, post, hes⟩ := List.append_of_mem (Exports.mem_iff.mpr h)
  have hnodup := stayed_idx_nodup (l := l)
  rw [hes, List.map_append, List.map_cons] at hnodup
  have hpost : ∀ e' ∈ post ++ l.gainedEntries, e'.2.idx ≠ e.idx := by
    intro e' he' heq
    rcases List.mem_append.mp he' with he' | he'
    · have hcons := (List.nodup_append.mp hnodup).2.1
      exact (List.nodup_cons.mp hcons).1 (heq ▸ List.mem_map_of_mem he')
    · have hge := (gainedEntries_idx e' he').2
      omega
  have hall : l.exports.entries = pre ++ (s, e) :: (post ++ l.gainedEntries) := by
    rw [exports_entries, hes, List.append_assoc, List.cons_append]
  refine storeNames_of_split (e := (s, e)) hall hpost ?_
  rw [List.length_replicate, exports_length]
  exact hlt.trans_le (Nat.le_add_right _ _)

/-- The place of an export in the names that were made again. -/
theorem gainedNames_iff (h : l.exports.get s = some e) :
    l.exports.fklCreateCgNamesVec[e.idx]? = some (some s) ↔
      s ∈ l.gained ∨ e.idx < l.stayed.entries.length := by
  have hmem := Exports.mem_iff.mpr h
  have hlen : l.exports.fklCreateCgNamesVec.length = l.exports.entries.length := by
    rw [Exports.createNames_eq, storeNames_length, List.length_replicate]
  rw [exports_entries] at hmem
  rcases List.mem_append.mp hmem with hmem | hmem
  · have hstay := Exports.mem_iff.mp hmem
    have hnot : s ∉ l.gained := fun hs => by simp [gained_none hs] at hstay
    refine ⟨fun hname => .inr ?_, fun hlt => stayed_name hstay (hlt.resolve_left hnot)⟩
    by_contra hge
    have hlt := (List.getElem?_eq_some_iff.mp hname).1
    rw [hlen] at hlt
    obtain ⟨s', hs'⟩ := gainedEntries_at (not_lt.mp hge) hlt
    have hname' := gained_name _ hs' hlt
    rw [hname] at hname'
    obtain rfl : s = s' := by simpa using hname'
    exact hnot (gainedEntries_idx _ hs').1
  · obtain ⟨hs, hge⟩ := gainedEntries_idx _ hmem
    have hlt : e.idx < l.exports.entries.length := by
      obtain ⟨p, hp, heq⟩ := List.mem_map.mp hmem
      obtain ⟨-, rfl⟩ := Prod.mk.inj heq
      rw [exports_length]
      exact (List.mem_zipIdx hp).2.1
    exact ⟨fun _ => .inl hs, fun _ => gained_name _ hmem hlt⟩

/-- A name stands where the table of exports has it. -/
theorem createNames_some {ex : Exports} {j : Nat}
    (h : ex.fklCreateCgNamesVec[j]? = some (some s)) : ∃ e, ex.get s = some e ∧ e.idx = j := by
  rcases storeNames_some (Exports.createNames_eq ▸ h) with h | ⟨⟨s', e⟩, hmem, rfl, hj⟩
  · simp [List.getElem?_replicate] at h
  · exact ⟨e, Exports.mem_iff.mp hmem, hj⟩

/-- The operand `i` is the place of the export `s`. -/
def Denotes (l : LoadedLib) (i : Nat) (s : Sym) : Prop :=
  l.names[i]? = some (some s) ∧ (l.exports.get s).isSome

/-- The export `s` has kept its place, or the operand `i` does not name a lost one. -/
def Locates (l : LoadedLib) (i : Nat) (s : Sym) : Prop :=
  match l.exports.get s with
  | some e => e.idx < 2 ^ 24 ∧
      (l.gained ≠ [] → s ∈ l.gained ∨ e.idx < l.stayed.entries.length)
  | none => l.gained = [] → ∀ e, l.written.exports.get s = some e → e.idx ≠ i

theorem names_idx (hmore : l.hasExportMore = true) {i : Nat} (hget : l.exports.get s = some e)
    (h : l.names[i]? = some (some s)) : e.idx = i := by
  by_cases hg : l.gained = []
  · rw [names_of_gained_nil hg] at h
    obtain ⟨e', he', rfl⟩ := createNames_some h
    rw [exports_of_gained_nil hg] at hget
    rw [stayed_written hget] at he'
    rw [Option.some.inj he']
  · rw [names_of_gained hmore hg] at h
    obtain ⟨e', he', rfl⟩ := createNames_some h
    rw [hget] at he'
    rw [Option.some.inj he']

theorem names_at_iff (hmore : l.hasExportMore = true) (hget : l.exports.get s = some e) :
    l.names[e.idx]? = some (some s) ↔
      (l.gained ≠ [] → s ∈ l.gained ∨ e.idx < l.stayed.entries.length) := by
  by_cases hg : l.gained = []
  · have hwritten : l.written.exports.get s = some e :=
      stayed_written (exports_of_gained_nil hg ▸ hget)
    simp [names_of_gained_nil hg, hg, writtenNames hwritten]
  · rw [names_of_gained hmore hg, gainedNames_iff hget]
    simp [hg]

/-- An operand that names the symbol is left as it is. -/
theorem denotes_iff (hmore : l.hasExportMore = true) {i : Nat} (hi : i < 2 ^ 24)
    (h : l.names[i]? = some (some s)) : l.Denotes i s ↔ l.Locates i s := by
  cases hget : l.exports.get s with
  | some e =>
    have hidx := names_idx hmore hget h
    have hat := (names_at_iff hmore hget).mp (hidx ▸ h)
    simp only [Denotes, Locates, hget, h, Option.isSome_some, and_self, true_iff]
    exact ⟨hidx ▸ hi, hat⟩
  | none =>
    simp only [Denotes, Locates, hget, Option.isSome_none, Bool.false_eq_true, and_false, false_iff]
    intro hno
    by_cases hg : l.gained = []
    · rw [names_of_gained_nil hg] at h
      obtain ⟨e, he, hidx⟩ := createNames_some h
      exact hno hg e he hidx
    · rw [names_of_gained hmore hg] at h
      obtain ⟨e, he, -⟩ := createNames_some h
      simp [he] at hget

/-- A new operand has 24 bits. -/
theorem denotes_new_iff (hmore : l.hasExportMore = true) {i : Nat}
    (hget : l.exports.get s = some e) :
    l.Denotes (toUnsigned 24 e.idx) s ↔ l.Locates i s := by
  have hmod : toUnsigned 24 (e.idx : Int) = e.idx % 2 ^ 24 := by
    simp only [toUnsigned]
    omega
  simp only [Denotes, Locates, hget, Option.isSome_some, and_true, hmod]
  constructor
  · intro h
    have hidx := names_idx hmore hget h
    have hlt : e.idx < 2 ^ 24 := by omega
    rw [← hidx] at h
    exact ⟨hlt, (names_at_iff hmore hget).mp h⟩
  · rintro ⟨hlt, h⟩
    rw [Nat.mod_eq_of_lt hlt]
    exact (names_at_iff hmore hget).mpr h

theorem locates_of_none {i : Nat} (hget : l.exports.get s = none)
    (h : l.names[i]? ≠ some (some s)) : l.Locates i s := by
  simp only [Locates, hget]
  rintro hg e he rfl
  exact h (names_of_gained_nil hg ▸ writtenNames he)

end LoadedLib

/-! Application. -/

theorem uC_lt (i : FklIns) : i.uC < 2 ^ 24 := by
  have h := getField_lt (w := 32) (i := i) (p := 8) (s := 24) (by decide)
  have hmod := Nat.mod_le (getField i 8 24).toNat (2 ^ 32)
  exact hmod.trans_lt h

/-- What has become of the import `r`: it has the place of the export, or the export is not used
and it pushes nil. -/
def Relocated (lib : LoadedLib) (r : FklReloc) (ins : FklIns) : Prop :=
  ins.op = some .importOp ∧ lib.Denotes ins.uC r.sym ∨ ins = makeInsI .pushNil ∧ r.used = false

theorem LoadedLib.relocIns_iff {lib : LoadedLib} (hmore : lib.hasExportMore = true) {r : FklReloc}
    {ins ins' : FklIns} (hop : ins.op = some .importOp) (h : lib.relocIns r ins = some ins') :
    Relocated lib r ins' ↔ lib.Locates ins.uC r.sym := by
  have hnil : ∀ i : FklIns, i.op = some .importOp → i ≠ makeInsI .pushNil := by
    rintro i hi rfl
    simp [makeInsI] at hi
  unfold LoadedLib.relocIns at h
  split at h
  · rename_i hname
    obtain rfl := Option.some.inj h
    rw [← LoadedLib.denotes_iff hmore (uC_lt ins) hname]
    simp [Relocated, hop, hnil ins hop]
  · rename_i hname
    split at h
    · rename_i e hget
      obtain rfl := Option.some.inj h
      have hop' : (ins.setUC e.idx).op = some .importOp := by rw [FklIns.op_setUC, hop]
      rw [← LoadedLib.denotes_new_iff hmore hget, ← FklIns.uC_setUC (i := ins)]
      simp [Relocated, hop', hnil _ hop']
    · rename_i hget
      split at h
      · cases h
      · rename_i hused
        obtain rfl := Option.some.inj h
        exact iff_of_true (.inr ⟨rfl, by simpa using hused⟩) (lib.locates_of_none hget hname)

/-- The instruction at a place of a procedure. -/
def insAt (codes : List (List FklIns)) (p : Nat × Nat) : Option FklIns :=
  codes[p.1]?.bind fun code => code[p.2]?

def FklReloc.place (r : FklReloc) : Nat × Nat := (r.proc, r.ins)

section

variable {libs : LibId → Option LoadedLib} {codes codes' : List (List FklIns)}
  {relocs : List FklReloc} {r : FklReloc}

theorem insAt_set {i j : Nat} {code : List FklIns} (hcode : codes[i]? = some code) {ins : FklIns}
    (hj : j < code.length) (p : Nat × Nat) :
    insAt (codes.set i (code.set j ins)) p = if p = (i, j) then some ins else insAt codes p := by
  obtain ⟨i', j'⟩ := p
  have hi := (List.getElem?_eq_some_iff.mp hcode).1
  by_cases hii : i' = i
  · subst hii
    by_cases hjj : j' = j
    · subst hjj
      simp [insAt, List.getElem?_set_self hi, List.getElem?_set_self hj]
    · have hne := List.getElem?_set_ne (l := code) (a := ins) (Ne.symm hjj)
      simp [insAt, List.getElem?_set_self hi, hcode, hjj, hne]
  · have hne := List.getElem?_set_ne (l := codes) (a := code.set j ins) (Ne.symm hii)
    simp [insAt, hne, hii]

theorem applyReloc_some (h : applyReloc libs codes r = some codes') : ∃ lib ins ins',
    libs r.lib = some lib ∧ insAt codes r.place = some ins ∧ lib.relocIns r ins = some ins' ∧
      ∀ p, insAt codes' p = if p = r.place then some ins' else insAt codes p := by
  obtain ⟨lib, hlib, h⟩ := Option.bind_eq_some_iff.mp h
  obtain ⟨code, hcode, h⟩ := Option.bind_eq_some_iff.mp h
  obtain ⟨ins, hins, h⟩ := Option.bind_eq_some_iff.mp h
  obtain ⟨ins', hreloc, h⟩ := Option.bind_eq_some_iff.mp h
  obtain rfl := Option.some.inj h
  have hlt := (List.getElem?_eq_some_iff.mp hins).1
  refine ⟨lib, ins, ins', hlib, ?_, hreloc, insAt_set hcode hlt⟩
  simp [insAt, FklReloc.place, hcode, hins]

/-- Each recorded instruction is replaced by itself alone, and no other changes. -/
theorem applyRelocations_some (hnodup : (relocs.map FklReloc.place).Nodup)
    (h : applyRelocations libs relocs codes = some codes') :
    (∀ r ∈ relocs, ∃ lib ins ins', libs r.lib = some lib ∧ insAt codes r.place = some ins ∧
      lib.relocIns r ins = some ins' ∧ insAt codes' r.place = some ins') ∧
    ∀ p ∉ relocs.map FklReloc.place, insAt codes' p = insAt codes p := by
  induction relocs generalizing codes with
  | nil =>
    obtain rfl := Option.some.inj h
    exact ⟨by simp, fun _ _ => rfl⟩
  | cons r relocs ih =>
    obtain ⟨codes₁, hr, h⟩ := Option.bind_eq_some_iff.mp h
    obtain ⟨lib, ins, ins', hlib, hins, hreloc, hset⟩ := applyReloc_some hr
    obtain ⟨hfirst, hnodup⟩ := List.nodup_cons.mp hnodup
    obtain ⟨hrec, hother⟩ := ih hnodup h
    refine ⟨fun r' hr' => ?_, fun p hp => ?_⟩
    · rcases List.mem_cons.mp hr' with rfl | hr'
      · refine ⟨lib, ins, ins', hlib, hins, hreloc, ?_⟩
        rw [hother _ hfirst, hset, if_pos rfl]
      · obtain ⟨lib', i, i', hlib', hi, hreloc', hi'⟩ := hrec r' hr'
        have hne : r'.place ≠ r.place := fun heq => hfirst (heq ▸ List.mem_map_of_mem hr')
        rw [hset, if_neg hne] at hi
        exact ⟨lib', i, i', hlib', hi, hreloc', hi'⟩
    · rw [List.map_cons, List.mem_cons, not_or] at hp
      rw [hother p hp.2, hset, if_neg hp.1]

end

/-! Collection. -/

/-- Where the code of a procedure of the prototype `root` stands: in the body of a prototype, up
to where the body ends, with the prototype loaded for the next procedure and the library loaded
last. -/
inductive InBody (protos : List FklVMvalueProto) (code : List FklIns) (root : Nat) :
    Nat → Nat → Nat → Option Nat → Option UsedLib → Prop
  | root : InBody protos code root root code.length 0 none none
  | enter {p stop pos q : Nat} {lib : Option UsedLib} {i : FklIns}
    (h : InBody protos code root p stop pos (some q) lib) (hlt : pos < stop)
    (hi : code[pos]? = some i) (hop : i.op = some .makeProc) :
    InBody protos code root q (pos + 1 + i.uC) (pos + 1) none none
  | leave {p stop pos q : Nat} {lib : Option UsedLib} {i : FklIns}
    (h : InBody protos code root p stop pos (some q) lib) (hlt : pos < stop)
    (hi : code[pos]? = some i) (hop : i.op = some .makeProc) :
    InBody protos code root p stop (pos + 1 + i.uC) none lib
  | loadProto {p stop pos q : Nat} {lib : Option UsedLib} {i : FklIns} {proto : FklVMvalueProto}
    (h : InBody protos code root p stop pos none lib) (hlt : pos < stop)
    (hi : code[pos]? = some i) (hop : i.op = some .loadProto) (hp : protos[p]? = some proto)
    (hq : proto.children[i.uC]? = some q) :
    InBody protos code root p stop (pos + 1) (some q) lib
  | loadLib {p stop pos : Nat} {next : Option Nat} {lib : Option UsedLib} {i : FklIns}
    {proto : FklVMvalueProto} {u : UsedLib} (h : InBody protos code root p stop pos next lib)
    (hlt : pos < stop) (hi : code[pos]? = some i) (hop : i.op = some .loadLib)
    (hp : protos[p]? = some proto) (hu : proto.usedLibs[i.uC]? = some u) :
    InBody protos code root p stop (pos + 1) next (some u)
  | plain {p stop pos : Nat} {next : Option Nat} {lib : Option UsedLib} {i : FklIns}
    (h : InBody protos code root p stop pos next lib) (hlt : pos < stop)
    (hi : code[pos]? = some i) (hproc : i.op ≠ some .makeProc) (hproto : i.op ≠ some .loadProto)
    (hlib : i.op ≠ some .loadLib) : InBody protos code root p stop (pos + 1) next lib

/-- The relocation is of an import instruction from the library that was loaded last in the same
body, and has the name that the operand denotes there. -/
def Recorded (protos : List FklVMvalueProto) (code : List FklIns) (root : Nat) (r : FklReloc) :
    Prop :=
  ∃ p stop next u i, InBody protos code root p stop r.ins next (some u) ∧ r.ins < stop ∧
    code[r.ins]? = some i ∧ i.op = some .importOp ∧ u.internal = false ∧ u.lib = r.lib ∧
    u.names[i.uC]? = some r.sym ∧ u.used[i.uC]? = some r.used

/-! Ranges that are still to be scanned, and the places that have been recorded. -/

def RangesDisjoint (a b : Nat × Nat) : Prop := a.2 ≤ b.1 ∨ b.2 ≤ a.1

structure Apart (ranges : List (Nat × Nat)) (offs : List Nat) : Prop where
  disjoint : ranges.Pairwise RangesDisjoint
  outside : ∀ o ∈ offs, ∀ a ∈ ranges, o < a.1 ∨ a.2 ≤ o
  nodup : offs.Nodup

section

variable {ranges : List (Nat × Nat)} {offs : List Nat} {c c' m e : Nat}

theorem Apart.advance (h : Apart ((c, e) :: ranges) offs) (hc : c ≤ c') :
    Apart ((c', e) :: ranges) offs := by
  obtain ⟨hdis, hrest⟩ := List.pairwise_cons.mp h.disjoint
  refine ⟨List.pairwise_cons.mpr ⟨fun a ha => ?_, hrest⟩, fun o ho a ha => ?_, h.nodup⟩
  · exact (hdis a ha).imp_right fun hle => hle.trans hc
  · have hout := h.outside o ho
    rcases List.mem_cons.mp ha with rfl | ha
    · exact (hout _ List.mem_cons_self).imp_left fun hlt => hlt.trans_le hc
    · exact hout a (List.mem_cons_of_mem _ ha)

theorem Apart.record (h : Apart ((c, e) :: ranges) offs) (hlt : c < e) :
    Apart ((c + 1, e) :: ranges) (offs ++ [c]) := by
  have hnext := h.advance (Nat.le_succ c)
  refine ⟨hnext.disjoint, fun o ho a ha => ?_, ?_⟩
  · rcases List.mem_append.mp ho with ho | ho
    · exact hnext.outside o ho a ha
    · obtain rfl := List.mem_singleton.mp ho
      rcases List.mem_cons.mp ha with rfl | ha
      · exact .inl (Nat.lt_succ_self o)
      · have hdis : e ≤ a.1 ∨ a.2 ≤ o := (List.pairwise_cons.mp h.disjoint).1 a ha
        exact hdis.imp_left fun hle => hlt.trans_le hle
  · refine h.nodup.append (List.nodup_singleton c) ?_
    rw [List.disjoint_singleton]
    intro hc
    rcases h.outside c hc _ List.mem_cons_self with hlt' | hle
    · exact absurd hlt' (lt_irrefl c)
    · exact absurd hle (not_le.mpr hlt)

/-- A part of the range is left for later. -/
theorem Apart.split (h : Apart ((c, e) :: ranges) offs) (hc : c ≤ c') (hm : c' ≤ m)
    (he : m ≤ e) : Apart ((m, e) :: (c', m) :: ranges) offs := by
  obtain ⟨hdis, hrest⟩ := List.pairwise_cons.mp h.disjoint
  have hadv := h.advance (hc.trans hm)
  have hpart : ∀ a ∈ ranges, RangesDisjoint (c', m) a := fun a ha =>
    (hdis a ha).imp (fun hle => he.trans hle) fun hle => hle.trans hc
  refine ⟨List.pairwise_cons.mpr ⟨fun a ha => ?_, List.pairwise_cons.mpr ⟨hpart, hrest⟩⟩,
    fun o ho a ha => ?_, h.nodup⟩
  · rcases List.mem_cons.mp ha with rfl | ha
    · exact .inr le_rfl
    · exact (List.pairwise_cons.mp hadv.disjoint).1 a ha
  · rcases List.mem_cons.mp ha with rfl | ha
    · exact hadv.outside o ho _ List.mem_cons_self
    · rcases List.mem_cons.mp ha with rfl | ha
      · exact (h.outside o ho _ List.mem_cons_self).imp (fun hlt => hlt.trans_le hc)
          fun hle => he.trans hle
      · exact h.outside o ho a (List.mem_cons_of_mem _ ha)

theorem Apart.tail {a : Nat × Nat} (h : Apart (a :: ranges) offs) : Apart ranges offs :=
  ⟨(List.pairwise_cons.mp h.disjoint).2,
    fun o ho b hb => h.outside o ho b (List.mem_cons_of_mem a hb), h.nodup⟩

end

theorem WellNested.le {code : List FklIns} {s e : Nat} (h : WellNested code s e) : s ≤ e := by
  induction h with
  | done => exact le_rfl
  | plain _ _ _ ih => omega
  | makeProc _ _ _ _ _ ih => omega

section

variable {protos : List FklVMvalueProto} {code : List FklIns} {root proc : Nat}
  {old : List FklReloc}

/-- What holds between the scans of two ranges. -/
structure Pending (protos : List FklVMvalueProto) (code : List FklIns) (root proc : Nat)
    (old : List FklReloc) (ranges : List (Nat × Nat)) (pendings : List RelocScan)
    (relocs : List FklReloc) : Prop where
  scans : ∀ p ∈ pendings, InBody protos code root p.proto p.stop p.start none none ∧
    WellNested code p.start p.stop
  recorded : ∃ new, relocs = old ++ new ∧ (∀ r ∈ new, r.proc = proc ∧
    Recorded protos code root r) ∧
      Apart (ranges ++ pendings.map fun p => (p.start, p.stop)) (new.map (·.ins))

/-- What holds during the scan of a range. -/
structure Scanning (protos : List FklVMvalueProto) (code : List FklIns) (root proc : Nat)
    (old : List FklReloc) (scan : RelocScan) (st : RangeScan) : Prop where
  body : ∃ lib, InBody protos code root scan.proto scan.stop st.cur st.nextProto lib ∧
    st.curLib = lib.filter (!·.internal)
  nested : WellNested code st.cur scan.stop
  pending : Pending protos code root proc old [(st.cur, scan.stop)] st.pendings st.relocs

theorem Pending.advance {c c' e : Nat} {pendings : List RelocScan} {relocs : List FklReloc}
    (h : Pending protos code root proc old [(c, e)] pendings relocs) (hc : c ≤ c') :
    Pending protos code root proc old [(c', e)] pendings relocs := by
  obtain ⟨new, hnew, hrec, hapart⟩ := h.recorded
  exact ⟨h.scans, new, hnew, hrec, hapart.advance hc⟩

theorem WellNested.cases {s e : Nat} {i : FklIns} (h : WellNested code s e) (hlt : s < e)
    (hi : code[s]? = some i) : i.op ≠ some .makeProc ∧ WellNested code (s + 1) e ∨
      i.op = some .makeProc ∧ WellNested code (s + 1) (s + 1 + i.uC) ∧
        WellNested code (s + 1 + i.uC) e := by
  cases h with
  | done => exact absurd hlt (lt_irrefl s)
  | plain hi' hop h =>
    rw [hi] at hi'
    obtain rfl := Option.some.inj hi'
    exact .inl ⟨hop, h⟩
  | makeProc hi' hop hbody h =>
    rw [hi] at hi'
    obtain rfl := Option.some.inj hi'
    exact .inr ⟨hop, hbody, h⟩

theorem Pending.push {q c m e : Nat} {pendings : List RelocScan} {relocs : List FklReloc}
    (h : Pending protos code root proc old [(c, e)] pendings relocs)
    (hbody : InBody protos code root q m (c + 1) none none)
    (hnested : WellNested code (c + 1) m) (hm : m ≤ e) :
    Pending protos code root proc old [(m, e)] (⟨q, c + 1, m⟩ :: pendings) relocs := by
  obtain ⟨new, hnew, hrec, hapart⟩ := h.recorded
  refine ⟨fun p hp => ?_, new, hnew, hrec, hapart.split (Nat.le_succ c) hnested.le hm⟩
  rcases List.mem_cons.mp hp with rfl | hp
  · exact ⟨hbody, hnested⟩
  · exact h.scans p hp

theorem Pending.record {c e : Nat} {pendings : List RelocScan} {relocs : List FklReloc}
    {r : FklReloc} (h : Pending protos code root proc old [(c, e)] pendings relocs)
    (hlt : c < e) (hproc : r.proc = proc) (hins : r.ins = c)
    (hr : Recorded protos code root r) :
    Pending protos code root proc old [(c + 1, e)] pendings (relocs ++ [r]) := by
  obtain ⟨new, hnew, hrec, hapart⟩ := h.recorded
  refine ⟨h.scans, new ++ [r], by rw [hnew, List.append_assoc], fun r' hr' => ?_, ?_⟩
  · rcases List.mem_append.mp hr' with hr' | hr'
    · exact hrec r' hr'
    · obtain rfl := List.mem_singleton.mp hr'
      exact ⟨hproc, hr⟩
  · rw [List.map_append, List.map_singleton, hins]
    exact hapart.record hlt

theorem Scanning.step {scan : RelocScan} {st st' : RangeScan}
    (h : Scanning protos code root proc old scan st) (hlt : st.cur < scan.stop)
    (hstep : st.step protos code proc scan.proto = some st') :
    Scanning protos code root proc old scan st' := by
  obtain ⟨lib, hbody, hlib⟩ := h.body
  obtain ⟨ins, hins, hstep⟩ := Option.bind_eq_some_iff.mp hstep
  obtain ⟨proto, hproto, hstep⟩ := Option.bind_eq_some_iff.mp hstep
  rcases h.nested.cases hlt hins with ⟨hop, hnested⟩ | ⟨hop, hinner, hnested⟩
  · have hnext := h.pending.advance (Nat.le_succ st.cur)
    simp only at hstep
    split at hstep
    · rename_i hload
      split at hstep
      · cases hstep
      · rename_i hnone
        obtain ⟨q, hq, hstep⟩ := Option.bind_eq_some_iff.mp hstep
        obtain rfl := Option.some.inj hstep
        have hnp : st.nextProto = none := by simpa using hnone
        rw [hnp] at hbody
        exact ⟨⟨lib, hbody.loadProto hlt hins hload hproto hq, hlib⟩, hnested, hnext⟩
    · rename_i hmake
      exact absurd hmake hop
    · rename_i hload
      obtain ⟨u, hu, hstep⟩ := Option.bind_eq_some_iff.mp hstep
      obtain rfl := Option.some.inj hstep
      refine ⟨⟨some u, hbody.loadLib hlt hins hload hproto hu, ?_⟩, hnested, hnext⟩
      cases hi : u.internal <;> simp [hi, Option.filter]
    · rename_i himport
      have hplain : InBody protos code root scan.proto scan.stop (st.cur + 1) st.nextProto lib :=
        hbody.plain hlt hins hop (by simp [himport]) (by simp [himport])
      split at hstep
      · obtain rfl := Option.some.inj hstep
        exact ⟨⟨lib, hplain, hlib⟩, hnested, hnext⟩
      · rename_i u hcur
        obtain ⟨used, hused, hstep⟩ := Option.bind_eq_some_iff.mp hstep
        obtain ⟨sym, hsym, hstep⟩ := Option.bind_eq_some_iff.mp hstep
        obtain rfl := Option.some.inj hstep
        rw [hcur] at hlib
        obtain ⟨rfl, hint⟩ := Option.filter_eq_some_iff.mp hlib.symm
        exact ⟨⟨some u, hplain, hcur.trans hlib⟩, hnested, h.pending.record hlt rfl rfl
          ⟨_, _, _, u, ins, hbody, hlt, hins, himport, by simpa using hint, rfl, hsym, hused⟩⟩
    · rename_i hproto' _ hlib' _
      obtain rfl := Option.some.inj hstep
      exact ⟨⟨lib, hbody.plain hlt hins hop hproto' hlib', hlib⟩, hnested, hnext⟩
  · simp only [hop] at hstep
    obtain ⟨q, hq, hstep⟩ := Option.bind_eq_some_iff.mp hstep
    obtain rfl := Option.some.inj hstep
    rw [hq] at hbody
    exact ⟨⟨lib, hbody.leave hlt hins hop, hlib⟩, hnested,
      h.pending.push (hbody.enter hlt hins hop) hinner hnested.le⟩

/-- The scan of one range. -/
theorem Pending.scan {scan : RelocScan} {rest pendings : List RelocScan}
    {relocs relocs' : List FklReloc} {fuel : Nat}
    (h : Pending protos code root proc old [] (scan :: rest) relocs)
    (hscan : collectImportInRange fuel protos code proc scan (rest, relocs) =
      some (pendings, relocs')) : Pending protos code root proc old [] pendings relocs' := by
  obtain ⟨st, hloop, hst⟩ := Option.bind_eq_some_iff.mp hscan
  obtain ⟨rfl, rfl⟩ := Prod.mk.inj (Option.some.inj hst)
  obtain ⟨hbody, hnested⟩ := h.scans scan List.mem_cons_self
  have hfirst : Scanning protos code root proc old scan ⟨scan.start, none, none, rest, relocs⟩ :=
    ⟨⟨none, hbody, rfl⟩, hnested, fun p hp => h.scans p (List.mem_cons_of_mem _ hp), h.recorded⟩
  obtain ⟨hend, -⟩ := whileLoop_inv (Scanning protos code root proc old scan)
    (fun st st' hst hlt hstep => hst.step (by simpa using hlt) hstep) hfirst hloop
  obtain ⟨new, hnew, hrec, hapart⟩ := hend.pending.recorded
  exact ⟨hend.pending.scans, new, hnew, hrec, hapart.tail⟩

theorem collectRelocationsImpl_some {relocs : List FklReloc} {fuel : Nat}
    (hnested : WellNested code 0 code.length)
    (h : collectRelocationsImpl fuel protos code root proc old = some relocs) :
    ∃ new, relocs = old ++ new ∧ (∀ r ∈ new, r.proc = proc ∧ Recorded protos code root r) ∧
      (new.map (·.ins)).Nodup := by
  obtain ⟨s, hloop, hs⟩ := Option.bind_eq_some_iff.mp h
  obtain rfl := Option.some.inj hs
  have hfirst : Pending protos code root proc old [] [⟨root, 0, code.length⟩] old := by
    refine ⟨fun p hp => ?_, [], by simp, by simp, ⟨List.pairwise_singleton _ _, by simp, by simp⟩⟩
    obtain rfl := List.mem_singleton.mp hp
    exact ⟨.root, hnested⟩
  obtain ⟨hend, -⟩ := whileLoop_inv
    (fun s : List RelocScan × List FklReloc => Pending protos code root proc old [] s.1 s.2)
    (fun s t hs _ hbody => by
      obtain ⟨pendings, relocs⟩ := s
      cases pendings with
      | nil => cases hbody
      | cons scan rest => exact hs.scan hbody) hfirst hloop
  obtain ⟨new, hnew, hrec, hapart⟩ := hend.recorded
  exact ⟨new, hnew, hrec, hapart.nodup⟩

end

/-- The relocations of a library that is written. -/
structure Collected (w : WrittenLib) (relocs : List FklReloc) : Prop where
  nodup : (relocs.map FklReloc.place).Nodup
  recorded : ∀ r ∈ relocs, ∃ p, w.procs[r.proc]? = some p ∧
    Recorded w.protos p.code p.proto r

theorem collectProcs_some {protos : List FklVMvalueProto} {fuel k : Nat}
    {procs : List FklVMvalueProc} {old relocs : List FklReloc}
    (hold : ∀ r ∈ old, r.proc < k) (hnodup : (old.map FklReloc.place).Nodup)
    (h : (procs.zipIdx k).foldlM (fun relocs (p, i) =>
      collectRelocationsImpl fuel protos p.code p.proto i relocs) old = some relocs) :
    (relocs.map FklReloc.place).Nodup ∧ ∀ r ∈ relocs, r ∈ old ∨ k ≤ r.proc ∧
      ∃ p, procs[r.proc - k]? = some p ∧ Recorded protos p.code p.proto r := by
  induction procs generalizing k old with
  | nil =>
    obtain rfl := Option.some.inj h
    exact ⟨hnodup, fun r hr => .inl hr⟩
  | cons p procs ih =>
    obtain ⟨relocs₁, hp, h⟩ := Option.bind_eq_some_iff.mp h
    obtain ⟨new, rfl, hnew, hins⟩ := collectRelocationsImpl_some p.wellNested hp
    have hold' : ∀ r ∈ old ++ new, r.proc < k + 1 := by
      intro r hr
      rcases List.mem_append.mp hr with hr | hr
      · exact (hold r hr).trans (Nat.lt_succ_self k)
      · exact (hnew r hr).1 ▸ Nat.lt_succ_self _
    have hnodup' : ((old ++ new).map FklReloc.place).Nodup := by
      rw [List.map_append]
      have hplaces : (new.map FklReloc.place).Nodup :=
        List.Nodup.of_map Prod.snd (by rw [List.map_map]; exact hins)
      refine hnodup.append hplaces ?_
      rw [List.disjoint_left]
      intro x hx hx'
      obtain ⟨r, hr, rfl⟩ := List.mem_map.mp hx
      obtain ⟨r', hr', heq⟩ := List.mem_map.mp hx'
      have hproc := (hnew r' hr').1
      rw [(Prod.mk.inj heq).1] at hproc
      exact absurd hproc (hold r hr).ne
    obtain ⟨hall, hmem⟩ := ih hold' hnodup' h
    refine ⟨hall, fun r hr => ?_⟩
    rcases hmem r hr with hr | ⟨hle, q, hq, hrec⟩
    · rcases List.mem_append.mp hr with hr | hr
      · exact .inl hr
      · obtain ⟨rfl, hrec⟩ := hnew r hr
        exact .inr ⟨le_rfl, p, by simp, hrec⟩
    · refine .inr ⟨(Nat.le_succ k).trans hle, q, ?_, hrec⟩
      have hsucc : r.proc - k = r.proc - (k + 1) + 1 := by omega
      rw [hsucc, List.getElem?_cons_succ]
      exact hq

theorem collectRelocations_some {w : WrittenLib} {fuel : Nat} {relocs : List FklReloc}
    (h : collectRelocations fuel w = some relocs) : Collected w relocs := by
  have hnil : (([] : List FklReloc).map FklReloc.place).Nodup := List.nodup_nil
  obtain ⟨hnodup, hmem⟩ := collectProcs_some (by simp) hnil h
  refine ⟨hnodup, fun r hr => ?_⟩
  obtain ⟨-, p, hp, hrec⟩ := (hmem r hr).resolve_left (List.not_mem_nil)
  exact ⟨p, hp, hrec⟩

/-! Loading. -/

variable {libs libs' : List LoadedLib} {l : LoadedLib} {fuel : Nat}

theorem findLib_append {lib : LibId} (h : findLib libs lib = some l) (more : List LoadedLib) :
    findLib (libs ++ more) lib = some l := by
  rw [findLib] at h ⊢
  rw [List.find?_append, h]
  rfl

/-- The code of a library as it was written. -/
def LoadedLib.writtenCodes (l : LoadedLib) : List (List FklIns) := l.written.procs.map (·.code)

/-- What the load of a library has done to its code. -/
structure Linked (libs : List LoadedLib) (l : LoadedLib) : Prop where
  collected : Collected l.written l.relocs
  patched : ∀ r ∈ l.relocs, ∃ lib ins ins', findLib libs r.lib = some lib ∧
    insAt l.writtenCodes r.place = some ins ∧ lib.relocIns r ins = some ins' ∧
      insAt l.codes r.place = some ins'
  others : ∀ p ∉ l.relocs.map FklReloc.place, insAt l.codes p = insAt l.writtenCodes p

theorem Linked.append (h : Linked libs l) (more : List LoadedLib) : Linked (libs ++ more) l := by
  refine ⟨h.collected, fun r hr => ?_, h.others⟩
  obtain ⟨lib, ins, ins', hlib, hrest⟩ := h.patched r hr
  exact ⟨lib, ins, ins', findLib_append hlib more, hrest⟩

theorem Collected.import_op {r : FklReloc} {ins : FklIns} (h : Collected l.written l.relocs)
    (hr : r ∈ l.relocs) (hins : insAt l.writtenCodes r.place = some ins) :
    ins.op = some .importOp := by
  obtain ⟨p, hp, _, _, _, _, i, -, -, hi, hop, -⟩ := h.recorded r hr
  simp only [insAt, LoadedLib.writtenCodes, FklReloc.place, List.getElem?_map, hp, Option.map_some,
    Option.bind_some, hi] at hins
  exact Option.some.inj hins ▸ hop

theorem Linked.hasExportMore (h : Linked libs l) : l.hasExportMore = true := by
  obtain ⟨p, hp, i, hi, hop⟩ := l.written.exportMore
  obtain ⟨j, hj⟩ := List.mem_iff_getElem?.mp hi
  have hwritten : insAt l.writtenCodes (0, j) = some i := by
    simp [insAt, LoadedLib.writtenCodes, hp, hj]
  have hnot : (0, j) ∉ l.relocs.map FklReloc.place := by
    intro hmem
    obtain ⟨r, hr, heq⟩ := List.mem_map.mp hmem
    have himport := h.collected.import_op hr (heq ▸ hwritten)
    rw [hop] at himport
    cases himport
  have hcode := h.others _ hnot
  rw [hwritten] at hcode
  obtain ⟨code, hzero, hcode⟩ := Option.bind_eq_some_iff.mp hcode
  rw [LoadedLib.hasExportMore, List.any_eq_true]
  exact ⟨i, by simpa [hzero] using List.mem_of_getElem? hcode, by simpa using hop⟩

theorem loadLib_linked {w : WrittenLib} (hlibs : ∀ l ∈ libs, Linked libs l)
    (h : loadLib fuel libs w = some libs') : ∀ l ∈ libs', Linked libs' l := by
  unfold loadLib at h
  split at h
  · obtain rfl := Option.some.inj h
    exact hlibs
  · obtain ⟨relocs, hrelocs, h⟩ := Option.bind_eq_some_iff.mp h
    obtain ⟨l, hl, h⟩ := Option.bind_eq_some_iff.mp h
    obtain rfl := Option.some.inj h
    obtain ⟨last, -, hl⟩ := Option.bind_eq_some_iff.mp hl
    obtain ⟨codes, hcodes, hl⟩ := Option.bind_eq_some_iff.mp hl
    obtain rfl := Option.some.inj hl
    have hcoll := collectRelocations_some hrelocs
    obtain ⟨hpatched, hothers⟩ := applyRelocations_some hcoll.nodup hcodes
    intro l hl
    rcases List.mem_append.mp hl with hl | hl
    · exact (hlibs l hl).append _
    · obtain rfl := List.mem_singleton.mp hl
      exact Linked.append ⟨hcoll, hpatched, hothers⟩ _

theorem loadAll_linked {ws : List WrittenLib} (h : loadAll fuel ws = some libs) :
    ∀ l ∈ libs, Linked libs l := by
  have hrun : ∀ libs₀ : List LoadedLib, (∀ l ∈ libs₀, Linked libs₀ l) →
      ws.foldlM (loadLib fuel) libs₀ = some libs → ∀ l ∈ libs, Linked libs l := by
    clear h
    induction ws with
    | nil =>
      intro libs₀ h₀ h
      obtain rfl := Option.some.inj h
      exact h₀
    | cons w ws ih =>
      intro libs₀ h₀ h
      obtain ⟨libs₁, hw, h⟩ := Option.bind_eq_some_iff.mp h
      exact ih libs₁ (loadLib_linked h₀ hw) h
  exact hrun [] (by simp) h

/-- Every recorded import has the place that its symbol has in the library that is loaded now, or
pushes nil, and nothing else has changed. -/
structure RightlyLinked (libs : List LoadedLib) (l : LoadedLib) : Prop where
  recorded : ∀ r ∈ l.relocs, ∃ p, l.written.procs[r.proc]? = some p ∧
    Recorded l.written.protos p.code p.proto r
  relocated : ∀ r ∈ l.relocs, ∃ lib ins, findLib libs r.lib = some lib ∧
    insAt l.codes r.place = some ins ∧ Relocated lib r ins
  others : ∀ p ∉ l.relocs.map FklReloc.place, insAt l.codes p = insAt l.writtenCodes p

theorem loadAll_rightlyLinked_iff {ws : List WrittenLib} (h : loadAll fuel ws = some libs) :
    (∀ l ∈ libs, RightlyLinked libs l) ↔
      ∀ l ∈ libs, ∀ r ∈ l.relocs, ∀ lib ins, findLib libs r.lib = some lib →
        insAt l.writtenCodes r.place = some ins → lib.Locates ins.uC r.sym := by
  have hlinked := loadAll_linked h
  have hiff : ∀ l ∈ libs, ∀ r ∈ l.relocs, ∀ lib ins ins', findLib libs r.lib = some lib →
      insAt l.writtenCodes r.place = some ins → lib.relocIns r ins = some ins' →
        (Relocated lib r ins' ↔ lib.Locates ins.uC r.sym) := by
    intro l hl r hr lib ins ins' hlib hins hreloc
    have hmem : lib ∈ libs := List.mem_of_find?_eq_some hlib
    exact LoadedLib.relocIns_iff (hlinked lib hmem).hasExportMore
      ((hlinked l hl).collected.import_op hr hins) hreloc
  constructor
  · intro hright l hl r hr lib ins hlib hins
    obtain ⟨lib₁, ins₁, ins', hlib₁, hins₁, hreloc, hins'⟩ := (hlinked l hl).patched r hr
    obtain ⟨lib₂, ins₂, hlib₂, hins₂, hrel⟩ := (hright l hl).relocated r hr
    obtain rfl := Option.some.inj (hlib.symm.trans hlib₁)
    obtain rfl := Option.some.inj (hlib.symm.trans hlib₂)
    obtain rfl := Option.some.inj (hins.symm.trans hins₁)
    obtain rfl := Option.some.inj (hins'.symm.trans hins₂)
    exact (hiff l hl r hr lib ins ins' hlib hins hreloc).mp hrel
  · intro hloc l hl
    refine ⟨(hlinked l hl).collected.recorded, fun r hr => ?_, (hlinked l hl).others⟩
    obtain ⟨lib, ins, ins', hlib, hins, hreloc, hins'⟩ := (hlinked l hl).patched r hr
    exact ⟨lib, ins', hlib, hins',
      (hiff l hl r hr lib ins ins' hlib hins hreloc).mpr (hloc l hl r hr lib ins hlib hins)⟩

/-! A library that uses another one that re-exports a third. -/

def symA : Sym := [97]

def symC : Sym := [99]

def symY : Sym := [121]

def exportMoreProc : FklVMvalueProc where
  proto := 0
  code := [makeInsI .exportMore]
  wellNested := .plain rfl (by decide) (.done 1)

/-- It exports `s` alone. -/
def oneExport (lib : LibId) (s : Sym) : WrittenLib where
  lib
  exports := Exports.fklCgExportAdd .empty s false
  idx_eq := rfl
  macros := []
  cmds := []
  protos := [⟨[], []⟩]
  procs := [exportMoreProc]
  not_self := by simp
  exportMore := ⟨exportMoreProc, rfl, _, List.mem_singleton_self _, by decide⟩

/-- It re-exports the library 0, which had `a` when this one was written. -/
def reExporting : WrittenLib where
  lib := 1
  exports := (Exports.fklCgExportAdd .empty symA true).fklCgExportAdd symY false
  idx_eq := by decide
  macros := []
  cmds := [.importLib 0 .common]
  protos := [⟨[], []⟩]
  procs := [exportMoreProc]
  not_self := by simp
  exportMore := ⟨exportMoreProc, rfl, _, List.mem_singleton_self _, by decide⟩

def importingProc : FklVMvalueProc where
  proto := 0
  code := [(makeInsI .loadLib).setUC 0, (makeInsI .importOp).setUC 0,
    (makeInsI .importOp).setUC 1, makeInsI .exportMore]
  wellNested := .plain rfl (by decide) (.plain rfl (by decide) (.plain rfl (by decide)
    (.plain rfl (by decide) (.done 4))))

/-- It imports `a` and `y` from `used` but uses `y` alone. -/
def importingBoth (used : LibId) (h : used ≠ 2) : WrittenLib where
  lib := 2
  exports := .empty
  idx_eq := rfl
  macros := []
  cmds := []
  protos := [⟨[], [⟨used, false, [symA, symY], [false, true]⟩]⟩]
  procs := [importingProc]
  not_self := by simpa using h
  exportMore := ⟨importingProc, rfl, makeInsI .exportMore, by simp [importingProc], by decide⟩

def loadedC : LoadedLib where
  written := oneExport 0 symC
  relocs := []
  last := ⟨.empty, []⟩
  codes := [[makeInsI .exportMore]]

/-- It has gained `c`, at the place of `y`. -/
def loadedReExporting : LoadedLib where
  written := reExporting
  relocs := []
  last := ⟨Exports.fklCgExportAdd .empty symC false, []⟩
  codes := [[makeInsI .exportMore]]

def loadedImporting (used : LibId) (h : used ≠ 2) (idx : Nat) : LoadedLib where
  written := importingBoth used h
  relocs := [⟨used, symA, 0, 1, false⟩, ⟨used, symY, 0, 2, true⟩]
  last := ⟨.empty, []⟩
  codes := [[(makeInsI .loadLib).setUC 0, makeInsI .pushNil, (makeInsI .importOp).setUC idx,
    makeInsI .exportMore]]

/-- The import of `y` gets `c`. -/
theorem loadAll_not_rightlyLinked : ∃ libs,
    loadAll 9 [oneExport 0 symC, reExporting, importingBoth 1 (by decide)] = some libs ∧
      ¬∀ l ∈ libs, RightlyLinked libs l := by
  refine ⟨[loadedC, loadedReExporting, loadedImporting 1 (by decide) 1], rfl, fun h => ?_⟩
  have hright := h (loadedImporting 1 (by decide) 1) (by simp)
  obtain ⟨lib, ins, hlib, hins, hrel⟩ := hright.relocated ⟨1, symY, 0, 2, true⟩
    (by simp [loadedImporting])
  obtain rfl : loadedReExporting = lib := Option.some.inj hlib
  obtain rfl : (makeInsI .importOp).setUC 1 = ins := Option.some.inj hins
  rcases hrel with ⟨-, hname, -⟩ | ⟨-, hused⟩
  · exact absurd hname (by decide)
  · cases hused

def loadedY : LoadedLib where
  written := oneExport 0 symY
  relocs := []
  last := ⟨.empty, []⟩
  codes := [[makeInsI .exportMore]]

/-- The import of `y` has the new place, and that of `a` is gone. -/
theorem loadAll_oneExport_rightlyLinked :
    ∃ libs, loadAll 9 [oneExport 0 symY, importingBoth 0 (by decide)] = some libs ∧
      ∀ l ∈ libs, RightlyLinked libs l := by
  have hload : loadAll 9 [oneExport 0 symY, importingBoth 0 (by decide)] =
      some [loadedY, loadedImporting 0 (by decide) 0] := rfl
  refine ⟨_, hload, (loadAll_rightlyLinked_iff hload).mpr ?_⟩
  intro l hl r hr lib ins hlib hins
  rcases List.mem_pair.mp hl with rfl | rfl
  · cases hr
  · rcases List.mem_pair.mp hr with rfl | rfl
    all_goals
      obtain rfl : loadedY = lib := Option.some.inj hlib
      unfold LoadedLib.Locates
    · have hget : loadedY.exports.get symA = none := rfl
      simp only [hget]
      rintro - e he
      have hnone : loadedY.written.exports.get symA = none := rfl
      simp [hnone] at he
    · have hget : loadedY.exports.get symY = some ⟨0, false⟩ := rfl
      have hgained : loadedY.gained = [] := rfl
      simp [hget, hgained]

end FakeLisp.PreCompile
