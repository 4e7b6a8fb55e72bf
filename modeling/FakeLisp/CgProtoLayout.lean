import FakeLisp.CgWorldRun

/-! The regions of a prototype, and where an instruction finds what its index was given out for. -/

namespace FakeLisp.CgWorld

variable {S V K L : Type} [DecidableEq S] [DecidableEq V] [DecidableEq K]
  {w w' : CgWorld S V K L} {env : FklVMvalueCgEnv S V K L}
  {weakRefs : Option (FklVMvalueWeakHashEq S)}

/-! The places of the writes. -/

/-- The tables of an environment are numbered. -/
structure EnvPlaced (env : FklVMvalueCgEnv S V K L) : Prop where
  refs : env.refs.Placed (·.idx)
  konsts : env.konsts.ht.Placed konstIdx
  libs : env.usedLibraries.Placed (·.id)

theorem Invariant.envPlaced (h : Invariant w) (e : Nat) : EnvPlaced (w.envs e) :=
  ⟨h.refs e, (h.konsts e).placed, h.libs e⟩

omit [DecidableEq S] [DecidableEq V] in
theorem varRefDefs_places {A : Type} {l : List A} {place : A → Nat}
    (cells : A → Option S × Nat × ProtoCell S V L) {start : Nat}
    (hl : l.map place = List.range' start l.length) :
    (l.flatMap fun a => varRefDef (place a) (cells a).1 (cells a).2.1 (cells a).2.2).map Prod.fst =
      List.range' (start * 3) (l.length * 3) := by
  induction l generalizing start with
  | nil => rfl
  | cons a l ih =>
    rw [List.map_cons, List.length_cons, List.range'_succ, List.cons.injEq] at hl
    obtain ⟨ha, hl⟩ := hl
    have hthree : (l.length + 1) * 3 = 3 + l.length * 3 := by omega
    have hnext : start * 3 + 3 = (start + 1) * 3 := by omega
    rw [List.flatMap_cons, List.map_append, ih hl, List.length_cons, hthree,
      ← List.range'_append_1, hnext, ← ha]
    rfl

theorem refWrites_places (h : EnvPlaced env) :
    (refWrites env).map Prod.fst = List.range' 0 (env.refs.entries.length * 3) := by
  have hrefs := h.refs
  rw [InsertionMap.Placed, List.range_eq_range'] at hrefs
  exact (varRefDefs_places (fun l => (symDefSid env l, l.2.cidx, .isLocal l.2.isLocal))
    hrefs).trans (by rw [Nat.zero_mul])

theorem weakWrites_places : (weakWrites env weakRefs).map Prod.fst =
    List.range' (env.refs.entries.length * 3) (weakCount weakRefs * 3) := by
  cases weakRefs with
  | none => rfl
  | some ht =>
    have hzip : ht.entries.zipIdx.map (fun cur => env.refs.entries.length + cur.2) =
        List.range' env.refs.entries.length ht.entries.zipIdx.length := by
      rw [List.length_zipIdx, List.range'_eq_map_range, List.range_eq_range',
        ← List.zipIdx_map_snd 0 ht.entries, List.map_map]
      rfl
    have hplaces := varRefDefs_places (fun cur : (S × Option Nat) × Nat =>
      (some cur.1.1, fklVarRefInvalidCidx, (.varRef cur.1.2 : ProtoCell S V L))) hzip
    rw [List.length_zipIdx] at hplaces
    exact hplaces

theorem tableWrites_places {A C : Type} {l : List A} {place : A → Nat} (cell : A → C)
    (offset : Nat) (hl : l.map place = List.range l.length) :
    (l.map fun a => (offset + place a, cell a)).map Prod.fst = List.range' offset l.length := by
  rw [List.range'_eq_map_range, ← hl, List.map_map, List.map_map]
  rfl

theorem konstWrites_places (h : EnvPlaced env) : (konstWrites env weakRefs).map Prod.fst =
    List.range' (konstsOffset env weakRefs) env.konsts.ht.entries.length :=
  tableWrites_places _ _ h.konsts

theorem childWrites_places : (childWrites env weakRefs).map Prod.fst =
    List.range' (childProtoOffset env weakRefs) env.childProcProtos.length := by
  have hzip : env.childProcProtos.zipIdx.map Prod.snd =
      List.range env.childProcProtos.zipIdx.length := by
    rw [List.length_zipIdx, List.range_eq_range']
    exact List.zipIdx_map_snd 0 _
  have hplaces := tableWrites_places (fun p : Option Nat × Nat =>
    (.proto p.1 : ProtoCell S V L)) (childProtoOffset env weakRefs) hzip
  rw [List.length_zipIdx] at hplaces
  exact hplaces

theorem libWrites_places (h : EnvPlaced env) : (libWrites env weakRefs).map Prod.fst =
    List.range' (usedLibrariesOffset env weakRefs) env.usedLibraries.entries.length :=
  tableWrites_places _ _ h.libs

/-! The layout. -/

def protoRegions (pt : FklVMvalueProto S V L) : List (Nat × Nat) :=
  [(pt.refOffset, pt.refCount * 3), (pt.konstsOffset, pt.konstsCount),
    (pt.childProtoOffset, pt.childProtoCount), (pt.usedLibrariesOffset, pt.usedLibrariesCount)]

/-- The regions are one after the other, and together they are all of `vals`; each cell is written
once, and nothing else is written. -/
structure LaidOut (env : FklVMvalueCgEnv S V K L) (weakRefs : Option (FklVMvalueWeakHashEq S))
    (pt : FklVMvalueProto S V L) : Prop where
  regions : (protoRegions pt).flatMap (fun r => List.range' r.1 r.2) =
    List.range pt.vals.length
  once : WrittenOnce pt.vals.length (protoWrites env weakRefs)
  vals : pt.vals = storeCells (List.replicate pt.vals.length none) (protoWrites env weakRefs)

theorem length_vals : (makeProto env weakRefs).vals.length = totalValCount env weakRefs := by
  rw [makeProto, length_storeCells, List.length_replicate]

theorem regions_makeProto : (protoRegions (makeProto env weakRefs)).flatMap
    (fun r => List.range' r.1 r.2) = List.range (totalValCount env weakRefs) := by
  have hrefs : List.range' 0 (protoRefCount env weakRefs * 3) ++
      List.range' (konstsOffset env weakRefs) env.konsts.ht.entries.length =
      List.range' 0 (childProtoOffset env weakRefs) := by
    rw [childProtoOffset, ← List.range'_append_1, Nat.zero_add]
    rfl
  have hchildren : List.range' 0 (childProtoOffset env weakRefs) ++
      List.range' (childProtoOffset env weakRefs) env.childProcProtos.length =
      List.range' 0 (usedLibrariesOffset env weakRefs) := by
    rw [usedLibrariesOffset, ← List.range'_append_1, Nat.zero_add]
  have hlibs : List.range' 0 (usedLibrariesOffset env weakRefs) ++
      List.range' (usedLibrariesOffset env weakRefs) env.usedLibraries.entries.length =
      List.range' 0 (totalValCount env weakRefs) := by
    rw [totalValCount, ← List.range'_append_1, Nat.zero_add]
  rw [List.range_eq_range', ← hlibs, ← hchildren, ← hrefs]
  simp [protoRegions, makeProto]

theorem writtenOnce_protoWrites (h : EnvPlaced env) :
    WrittenOnce (totalValCount env weakRefs) (protoWrites env weakRefs) := by
  have hrefs : List.range' 0 (env.refs.entries.length * 3) ++
      List.range' (env.refs.entries.length * 3) (weakCount weakRefs * 3) =
      List.range' 0 (protoRefCount env weakRefs * 3) := by
    have hcount : protoRefCount env weakRefs * 3 =
        env.refs.entries.length * 3 + weakCount weakRefs * 3 := by
      rw [protoRefCount]
      omega
    rw [hcount, ← List.range'_append_1, Nat.zero_add]
  have hregions := @regions_makeProto _ _ _ _ _ _ _ env weakRefs
  unfold WrittenOnce protoWrites
  simp only [List.map_append, refWrites_places h, konstWrites_places h, childWrites_places,
    libWrites_places h, weakWrites_places]
  rw [← hregions]
  -- the variables that are not defined yet are written last, but stand behind the references
  have hlast := @List.perm_append_comm _
    (List.range' (konstsOffset env weakRefs) env.konsts.ht.entries.length ++
      (List.range' (childProtoOffset env weakRefs) env.childProcProtos.length ++
        List.range' (usedLibrariesOffset env weakRefs) env.usedLibraries.entries.length))
    (List.range' (env.refs.entries.length * 3) (weakCount weakRefs * 3))
  have hperm := hlast.append_left (List.range' 0 (env.refs.entries.length * 3))
  rw [← List.append_assoc _ (List.range' (env.refs.entries.length * 3) _), hrefs] at hperm
  simpa [protoRegions, makeProto, List.append_assoc] using hperm

theorem laidOut_makeProto (h : EnvPlaced env) : LaidOut env weakRefs (makeProto env weakRefs) where
  regions := by
    rw [length_vals]
    exact regions_makeProto
  once := by
    rw [length_vals]
    exact writtenOnce_protoWrites h
  vals := by
    rw [length_vals]
    rfl

/-! What is at an index. -/

def Handout.owner : Handout S V K L → Nat
  | .ref e _ _ | .konst e _ _ | .child e _ _ | .lib e _ _ _ => e

/-- The prototype has at the index what the index was given out for. -/
def Handout.Addresses (w : CgWorld S V K L) (pt : FklVMvalueProto S V L) :
    Handout S V K L → Prop
  | .ref e id idx => idx < pt.refCount ∧ ∃ scope el,
      (w.envs e).refs.get ⟨id, scope⟩ = some el ∧ el.idx = idx ∧
      pt.vals[pt.refOffset + idx * 3]? =
        some (some (.sid (symDefSid (w.envs e) (⟨id, scope⟩, el)))) ∧
      pt.vals[pt.refOffset + idx * 3 + 1]? = some (some (.cidx el.cidx)) ∧
      pt.vals[pt.refOffset + idx * 3 + 2]? = some (some (.isLocal el.isLocal))
  | .konst _ v idx => idx < pt.konstsCount ∧
      pt.vals[pt.konstsOffset + idx]? = some (some (.konst v))
  | .child _ c protoId => protoId < pt.childProtoCount ∧
      pt.vals[pt.childProtoOffset + protoId]? = some (some (.proto (w.envs c).proto))
  | .lib _ _ l id => id < pt.usedLibrariesCount ∧
      pt.vals[pt.usedLibrariesOffset + id]? = some (some (.lib l))

theorem vals_of_mem (h : EnvPlaced env) {c : Nat × ProtoCell S V L}
    (hc : c ∈ protoWrites env weakRefs) : (makeProto env weakRefs).vals[c.1]? = some (some c.2) :=
  (writtenOnce_protoWrites h).getElem? hc

theorem mem_protoWrites {c : Nat × ProtoCell S V L} : c ∈ protoWrites env weakRefs ↔
    c ∈ refWrites env ∨ c ∈ konstWrites env weakRefs ∨ c ∈ childWrites env weakRefs ∨
      c ∈ libWrites env weakRefs ∨ c ∈ weakWrites env weakRefs := by
  simp only [protoWrites, List.mem_append, or_assoc]

theorem ref_addresses (h : EnvPlaced env) {key : FklSidScope S} {el : FklSymDef}
    (hkey : env.refs.get key = some el) {c : Nat × ProtoCell S V L}
    (hc : c ∈ varRefDef el.idx (symDefSid env (key, el)) el.cidx (.isLocal el.isLocal)) :
    (makeProto env weakRefs).vals[c.1]? = some (some c.2) := by
  obtain ⟨e, he, heq, rfl⟩ := InsertionMap.mem_of_get hkey
  rw [decide_eq_true_eq] at heq
  rw [heq] at hc
  exact vals_of_mem h (mem_protoWrites.mpr (.inl (List.mem_flatMap.mpr ⟨e, he, hc⟩)))

theorem addresses_makeProto (h : Invariant w) {o : Handout S V K L} (ho : o.Valid w) :
    o.Addresses w (makeProto (w.envs o.owner) weakRefs) := by
  cases o with
  | ref e id idx =>
    obtain ⟨-, scope, hidx⟩ := ho
    obtain ⟨el, hel, rfl⟩ := Option.map_eq_some_iff.mp hidx
    have hlt := (h.refs e).lt hel
    have hcell := @ref_addresses _ _ _ _ _ _ _ (w.envs e) weakRefs (h.envPlaced e) _ _ hel
    refine ⟨Nat.lt_add_left _ hlt, scope, el, hel, rfl, ?_, ?_, ?_⟩
    · rw [makeProto, Nat.zero_add]
      exact hcell List.mem_cons_self
    · rw [makeProto, Nat.zero_add]
      exact hcell (List.mem_cons_of_mem _ List.mem_cons_self)
    · rw [makeProto, Nat.zero_add]
      exact hcell (List.mem_cons_of_mem _ (List.mem_cons_of_mem _ List.mem_cons_self))
  | konst e v idx =>
    obtain ⟨-, id, hid, rfl⟩ := ho
    obtain ⟨entry, hentry, heq, rfl⟩ := InsertionMap.mem_of_get hid
    rw [decide_eq_true_eq] at heq
    refine ⟨(h.konsts e).placed.lt hid, ?_⟩
    have hmem : (konstsOffset (w.envs e) weakRefs + konstIdx entry.2, .konst v) ∈
        konstWrites (w.envs e) weakRefs := by
      rw [heq]
      exact List.mem_map_of_mem hentry
    exact vals_of_mem (h.envPlaced e) (mem_protoWrites.mpr (.inr (.inl hmem)))
  | child e c protoId =>
    obtain ⟨hprev, rfl⟩ := ho
    have hget := h.child c e hprev
    refine ⟨(List.getElem?_eq_some_iff.mp hget).1, ?_⟩
    have hmem : (childProtoOffset (w.envs e) weakRefs + (w.envs c).protoId,
        .proto (w.envs c).proto) ∈ childWrites (w.envs e) weakRefs :=
      List.mem_map.mpr ⟨((w.envs c).proto, (w.envs c).protoId),
        List.mem_zipIdx_iff_getElem?.mpr hget, rfl⟩
    exact vals_of_mem (h.envPlaced e) (mem_protoWrites.mpr (.inr (.inr (.inl hmem))))
  | lib e key l id =>
    obtain ⟨-, hget⟩ := ho
    refine ⟨(h.libs e).lt hget, ?_⟩
    obtain ⟨entry, hentry, -, heq⟩ := InsertionMap.mem_of_get hget
    have hmem : (usedLibrariesOffset (w.envs e) weakRefs + id, .lib l) ∈
        libWrites (w.envs e) weakRefs := by
      refine List.mem_map.mpr ⟨entry, hentry, ?_⟩
      rw [heq]
    exact vals_of_mem (h.envPlaced e) (mem_protoWrites.mpr (.inr (.inr (.inr (.inl hmem)))))

/-- To hang the prototype up at the parent changes nothing of what its indices stand for. -/
theorem ProtoMade.addresses {e parent p : Nat} (hmade : ProtoMade w w' e parent p)
    (h : Invariant w) {pt : FklVMvalueProto S V L} {o : Handout S V K L} (hvalid : o.Valid w)
    (hoe : o.owner = e) (ho : o.Addresses w pt) : o.Addresses w' pt := by
  cases o with
  | ref e' id idx =>
    obtain rfl : e' = e := hoe
    rw [Handout.Addresses, hmade.atSelf]
    exact ho
  | konst e' v idx => exact ho
  | child e' c protoId =>
    obtain rfl : e' = e := hoe
    have hne : c ≠ e' := (h.older c e' hvalid.1).ne'
    have hproto : (w'.envs c).proto = (w.envs c).proto := by
      by_cases hcp : c = parent
      · rw [hcp, hmade.atParent]
      · rw [hmade.others c hne hcp]
    rw [Handout.Addresses, hproto]
    exact ho
  | lib e' key l id => exact ho

theorem invariant_init : Invariant (init : CgWorld S V K L) where
  older e p hp := by cases hp
  fresh _ _ := rfl
  refs _ := InsertionMap.placed_empty
  konsts _ := ⟨InsertionMap.placed_empty, rfl⟩
  libs _ := InsertionMap.placed_empty
  child c p hp := by cases hp
  siblings c c' p hp := by cases hp

/-- Every run: the prototype of an environment can be made once its predefinitions are defined and
the closures in it have their prototypes; it is laid out without gaps, and every index that was
given out for the environment is the place of what it was given out for. -/
theorem fklCreateVMvalueProto3_layout {ops : List (CgOp S V K L)} {handouts : List (Handout S V K L)}
    (hrun : runOps init ops = some (w, handouts)) {e : Nat} (he : e < w.envCount)
    (hpdef : (w.envs e).base.pdef = []) (hprev : (w.envs e).prev.isSome)
    (hurefs : ∀ u ∈ (w.envs e).base.uref, (w.envs u.env).proto.isSome)
    (args : FklResolveRefArgs) (weakRefs : Option (FklVMvalueWeakHashEq S)) :
    ∃ w' p weakRefs', w.fklCreateVMvalueProto3 e args weakRefs = some (w', p, weakRefs') ∧
      LaidOut (w'.envs e) weakRefs' (w'.protos p) ∧
      ∀ o ∈ handouts, o.owner = e → o.Addresses w' (w'.protos p) := by
  obtain ⟨hkeeps, hvalid⟩ := runOps_keeps invariant_init hrun
  have h := hkeeps.invariant
  obtain ⟨parent, hprev⟩ := Option.isSome_iff_exists.mp hprev
  obtain ⟨⟨w₁, weakRefs₁⟩, hresolve⟩ :=
    @fklResolveRef_some _ _ _ _ _ _ _ w e 1 args weakRefs h.older he hurefs
  have hgrows : Grows w w₁ := fklResolveRef_grows h.older he hresolve
  have hkeeps₁ := hgrows.keeps h
  obtain ⟨w', hcreate, hmade, hproto⟩ := createProto_some h hpdef hresolve hgrows hprev
  refine ⟨w', _, _, hcreate, ?_, ?_⟩
  · rw [hproto, hmade.atSelf]
    have hlaid := @laidOut_makeProto _ _ _ _ _ _ _ _ weakRefs₁ (hkeeps₁.invariant.envPlaced e)
    exact ⟨hlaid.regions, hlaid.once, hlaid.vals⟩
  · intro o ho hoe
    have hvalid₁ := hkeeps₁.valid o (hvalid o ho)
    apply hmade.addresses hkeeps₁.invariant hvalid₁ hoe
    rw [hproto, ← hoe]
    exact addresses_makeProto hkeeps₁.invariant hvalid₁

/-- A procedure in the main environment, which uses a library; the symbols 7 and 8 are not
defined. -/
def mainEnvOps : List (CgOp Nat Nat Nat Nat) :=
  [.createEnv none 0 false, .createEnv (some 0) 1 false, .createEnv (some 1) 1 false,
    .addRef 7 2 false, .addKonst 5 2, .createProto 2 ⟨none, false⟩ none, .addRef 8 1 false,
    .addBuiltinRef 9 1, .addKonst 4 1, .addKonst 6 1, .addKonst 4 1, .addUsedLib 1 3 30]

theorem mainEnv_layout : ∃ w handouts, runOps init mainEnvOps = some (w, handouts) ∧
    ∃ w' p weakRefs', w.fklCreateVMvalueProto3 1 ⟨some 0, true⟩ (some .empty) =
        some (w', p, weakRefs') ∧
      LaidOut (w'.envs 1) weakRefs' (w'.protos p) ∧
      ∀ o ∈ handouts, o.owner = 1 → o.Addresses w' (w'.protos p) := by
  have hsome : (runOps init mainEnvOps).isSome := by decide
  obtain ⟨⟨w, handouts⟩, hrun⟩ := Option.isSome_iff_exists.mp hsome
  have hready : (runOps init mainEnvOps).all fun r =>
      1 < r.1.envCount && (r.1.envs 1).base.pdef.isEmpty && (r.1.envs 1).prev.isSome &&
        (r.1.envs 1).base.uref.all fun u => (r.1.envs u.env).proto.isSome := by decide
  rw [hrun] at hready
  simp only [Option.all_some, Bool.and_eq_true, decide_eq_true_eq, List.isEmpty_iff,
    List.all_eq_true] at hready
  obtain ⟨⟨⟨he, hpdef⟩, hprev⟩, hurefs⟩ := hready
  exact ⟨w, handouts, hrun,
    fklCreateVMvalueProto3_layout hrun he hpdef hprev hurefs ⟨some 0, true⟩ (some .empty)⟩

end FakeLisp.CgWorld
