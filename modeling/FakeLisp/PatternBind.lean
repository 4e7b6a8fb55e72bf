import FakeLisp.CgEnvSlots
import FakeLisp.PatternMake

/-! What a match binds: the slots in the order in which they were registered, so that the locals
of the procedure of a macro, which are numbered in that order, receive the values of its slots. -/

namespace FakeLisp

namespace Nast

/-! Substitution. -/

mutual

/-- Slots are replaced by values and the wildcard by the head symbol. -/
def subst (σ : List UInt8 → Nast) (header : List UInt8) : Nast → Nast
  | .atom a => .atom a
  | .slot _ s _ => σ s
  | .header => .atom (.sym header)
  | .pair a d => .pair (subst σ header a) (subst σ header d)
  | .block k es => .block k (substElems σ header es)

def substElems (σ : List UInt8 → Nast) (header : List UInt8) : List Nast → List Nast
  | [] => []
  | e :: es => subst σ header e :: substElems σ header es

end

variable {σ : List UInt8 → Nast} {header : List UInt8} {p e cont : Nast}

mutual

theorem subst_of_isSyntax : ∀ {n : Nast}, isSyntax n = true → subst σ header n = n
  | .atom _, _ => by rw [subst]
  | .slot .., h => by cases h
  | .header, h => by cases h
  | .pair a d, h => by
    rw [isSyntax, Bool.and_eq_true] at h
    rw [subst, subst_of_isSyntax h.1, subst_of_isSyntax h.2]
  | .block k es, h => by
    rw [isSyntax] at h
    rw [subst, substElems_of_areSyntax h]

theorem substElems_of_areSyntax : ∀ {es : List Nast}, elemsAreSyntax es = true →
    substElems σ header es = es
  | [], _ => by rw [substElems]
  | e :: es, h => by
    rw [elemsAreSyntax, Bool.and_eq_true] at h
    rw [substElems, subst_of_isSyntax h.1, substElems_of_areSyntax h.2]

end

theorem subst_block {k : NastBlock} {es : List Nast} (h : blocksAreSyntax (.block k es) = true) :
    subst σ header (.block k es) = .block k es := by
  rw [blocksAreSyntax] at h
  rw [subst, substElems_of_areSyntax h]

theorem accepts_pair {a d : Nast} (h : accepts header (.pair a d) e = true) :
    ∃ a' d', e = .pair a' d' ∧ accepts header a a' = true ∧ accepts header d d' = true := by
  cases e with
  | pair a' d' =>
    rw [accepts, Bool.and_eq_true] at h
    exact ⟨a', d', rfl, h⟩
  | _ => simp [accepts, fklVMvalueEqual] at h

/-- A pattern that some substitution makes equal to an expression accepts it. -/
theorem accepts_of_subst (hp : blocksAreSyntax p = true)
    (h : fklVMvalueEqual (subst σ header p) e = true) : accepts header p e = true := by
  induction p using blocksAreSyntax.induct generalizing e with
  | case1 a d iha ihd =>
    rw [blocksAreSyntax, Bool.and_eq_true] at hp
    rw [subst] at h
    cases e with
    | pair a' d' =>
      rw [fklVMvalueEqual, Bool.and_eq_true] at h
      rw [accepts, iha hp.1 h.1, ihd hp.2 h.2]
      rfl
    | _ => simp [fklVMvalueEqual] at h
  | case2 k es =>
    rw [subst_block (by rwa [blocksAreSyntax])] at h
    cases e <;> simp_all [accepts, fklVMvalueEqual]
  | case3 p hpair hblock =>
    cases p with
    | atom a => cases e <;> simp_all [accepts, subst, fklVMvalueEqual]
    | slot => cases e <;> simp [accepts]
    | header =>
      rw [subst, ← isSymbol_eq] at h
      cases e <;> simp_all [accepts]
    | pair a d => exact absurd rfl (hpair a d)
    | block k es => exact absurd rfl (hblock k es)

/-! Bindings. -/

/-- What the slots stand against, from left to right. -/
def bindings : Nast → Nast → Nast → List (List UInt8 × FklPmatchRes)
  | .slot _ s expand, e, cont => [(s, ⟨e, cont, expand⟩)]
  | .pair a d, .pair a' d', _ => bindings a a' (.pair a' d') ++ bindings d d' (.pair a' d')
  | _, _, _ => []

theorem bindings_keys (h : accepts header p e = true) :
    (bindings p e cont).map Prod.fst = p.slots := by
  induction p, e, cont using bindings.induct with
  | case1 => rfl
  | case2 a d a' d' cont iha ihd =>
    rw [accepts, Bool.and_eq_true] at h
    rw [bindings, List.map_append, iha h.1, ihd h.2, slots]
  | case3 p e cont hslot hpair =>
    cases p with
    | slot => exact absurd rfl (hslot _ _ _)
    | pair a d =>
      obtain ⟨a', d', rfl, -⟩ := accepts_pair h
      exact absurd rfl (hpair a d a' d' rfl)
    | _ => simp [bindings, slots]

/-- The bindings put back give a value equal to the expression. -/
theorem subst_of_accepts (hp : blocksAreSyntax p = true) (h : accepts header p e = true)
    (hσ : ∀ b ∈ bindings p e cont, σ b.1 = b.2.value) :
    fklVMvalueEqual (subst σ header p) e = true := by
  induction p, e, cont using bindings.induct with
  | case1 addr s expand e cont =>
    rw [subst, hσ (s, ⟨e, cont, expand⟩) (by simp [bindings])]
    exact fklVMvalueEqual_refl e
  | case2 a d a' d' cont iha ihd =>
    rw [blocksAreSyntax, Bool.and_eq_true] at hp
    rw [accepts, Bool.and_eq_true] at h
    simp only [bindings, List.mem_append] at hσ
    rw [subst, fklVMvalueEqual, iha hp.1 h.1 fun b hb => hσ b (Or.inl hb),
      ihd hp.2 h.2 fun b hb => hσ b (Or.inr hb)]
    rfl
  | case3 p e cont hslot hpair =>
    cases p with
    | slot => exact absurd rfl (hslot _ _ _)
    | pair a d =>
      obtain ⟨a', d', rfl, -⟩ := accepts_pair h
      exact absurd rfl (hpair a d a' d' rfl)
    | header =>
      rw [subst, ← isSymbol_eq]
      cases e <;> simp_all [accepts]
    | atom a => cases e <;> simp_all [accepts, subst]
    | block k es =>
      rw [subst_block hp]
      cases e <;> simp_all [accepts]

/-- A slot at a place of the pattern is bound to what the expression has there. -/
theorem mem_bindings_of_at? (cont : Nast) {c : NastPlace} {addr : Nat} {s : List UInt8}
    {expand : FklPmatchExpandType} (h : accepts header p e = true)
    (hc : p.at? c = some (.slot addr s expand)) :
    ∃ r, (s, r) ∈ bindings p e cont ∧ e.at? c = some r.value ∧ r.expand = expand := by
  induction c, p using at?.induct generalizing e cont with
  | case1 p =>
    obtain rfl := Option.some.inj hc
    exact ⟨⟨e, cont, expand⟩, by simp [bindings], rfl, rfl⟩
  | case2 c a d ih =>
    obtain ⟨a', d', rfl, ha, -⟩ := accepts_pair h
    obtain ⟨r, hr, hat, hex⟩ := ih _ ha hc
    exact ⟨r, by rw [bindings]; exact List.mem_append_left _ hr, hat, hex⟩
  | case3 c a d ih =>
    obtain ⟨a', d', rfl, -, hd⟩ := accepts_pair h
    obtain ⟨r, hr, hat, hex⟩ := ih _ hd hc
    exact ⟨r, by rw [bindings]; exact List.mem_append_right _ hr, hat, hex⟩
  | case4 step c p ha hd => cases p <;> cases step <;> simp_all [at?]

/-! The map. -/

/-- Elements added one after another. -/
def addAll (ht : FklPmatchHashMap) (l : List (List UInt8 × FklPmatchRes)) : FklPmatchHashMap :=
  l.foldl (fun m b => InsertionMap.set keyEquiv_symEq m b.1 b.2) ht

theorem entries_addAll {ht : FklPmatchHashMap} {l : List (List UInt8 × FklPmatchRes)}
    (h : ((ht.entries ++ l).map Prod.fst).Nodup) : (addAll ht l).entries = ht.entries ++ l := by
  induction l generalizing ht with
  | nil => exact (List.append_nil _).symm
  | cons b l ih =>
    have hnew : ht.elm b.1 = none := by
      refine List.find?_eq_none.mpr fun e he heq => ?_
      rw [List.map_append, List.nodup_append] at h
      refine h.2.2 e.1 (List.mem_map_of_mem he) b.1 (by simp) ?_
      exact (of_decide_eq_true heq).symm
    have hset := InsertionMap.entries_set_of_none keyEquiv_symEq (v := b.2) hnew
    have happ : ht.entries ++ b :: l = (ht.set keyEquiv_symEq b.1 b.2).entries ++ l := by
      rw [hset, List.append_assoc, List.singleton_append]
    rw [happ] at h ⊢
    exact ih h

theorem patternMatchLoop_snd (s : List PmatchPair) (ht : Option FklPmatchHashMap)
    (h : (patternMatchLoop header s ht).1 = true) :
    (patternMatchLoop header s ht).2 =
      ht.map fun m => addAll m (s.flatMap fun t => bindings t.pat t.exp t.cont) := by
  induction s, ht using patternMatchLoop.induct header with
  | case1 ht => cases ht <;> simp [patternMatchLoop, addAll]
  | case2 addr s expand exp cont rest ht ih =>
    rw [patternMatchLoop] at h ⊢
    rw [ih h, Option.map_map]
    rfl
  | case3 exp cont rest ht hne =>
    rw [patternMatchLoop, if_pos hne] at h
    cases h
  | case4 exp cont rest ht hne ih =>
    rw [patternMatchLoop, if_neg hne] at h ⊢
    rw [ih h]
    simp [bindings]
  | case5 a d a' d' cont rest ht ih =>
    rw [patternMatchLoop] at h ⊢
    rw [ih h]
    simp [bindings]
  | case6 => simp_all [patternMatchLoop]
  | case7 => simp_all [patternMatchLoop, bindings]

end Nast

/-! The environment of the procedure of a macro. -/

section

variable {S : Type} [DecidableEq S]

/-- The environment that `fklMacroCompilePrepare` makes for the symbols of a set. -/
def fklMacroCompilePrepare (symbolSet : List S) : FklCgEnv S :=
  symbolSet.foldl (fun env id => (fklAddCgDefBySid id 1 env).2) CgState.init.env

/-- The symbols are numbered in their order. -/
structure Numbered (l : List S) (env : FklCgEnv S) : Prop where
  slots : env.slots = List.replicate l.length .occ
  empty : (env.scopes 1).empty = l.length
  defs : (env.scopes 1).defs = l.zipIdx.map fun e => (⟨e.1, 1⟩, ⟨e.2, 0, false, false⟩)
  uref : env.uref = []

theorem Numbered.add {l : List S} {env : FklCgEnv S} (h : Numbered l env) {id : S} (hid : id ∉ l) :
    Numbered (l ++ [id]) (fklAddCgDefBySid id 1 env).2 := by
  have hnone : fklHashMapAt (env.scopes 1).defs ⟨id, 1⟩ = none := by
    refine List.find?_eq_none.mpr fun e he heq => hid ?_
    rw [h.defs] at he
    obtain ⟨x, hx, rfl⟩ := List.mem_map.mp he
    obtain rfl : x.1 = id := congrArg FklSidScope.sid (of_decide_eq_true heq)
    exact List.fst_mem_of_mem_zipIdx hx
  have hlen : env.slots.length = l.length := by rw [h.slots, List.length_replicate]
  have hfresh : ¬(l.length < env.slots.length ∧ (hasResolvableRef id 1 env).isSome = true) := by
    rw [hlen]
    exact fun hf => Nat.lt_irrefl _ hf.1
  unfold fklAddCgDefBySid
  dsimp only
  rw [hnone]
  simp only [h.empty, if_neg hfresh]
  refine ⟨?_, ?_, ?_, h.uref⟩
  · have hset : (List.replicate l.length FklCgEnvSlot.occ ++ [FklCgEnvSlot.none]).set l.length .occ =
        List.replicate l.length .occ ++ [.occ] := by simp
    dsimp only
    rw [h.slots, List.length_replicate, Nat.add_sub_cancel_left, List.replicate_one, hset,
      List.length_append, List.length_singleton, List.replicate_succ']
  · simp [getNextEmpty, hlen]
  · simp [h.defs, List.zipIdx_append]

theorem numbered_fklMacroCompilePrepare {l : List S} (h : l.Nodup) :
    Numbered l (fklMacroCompilePrepare l) := by
  induction l using List.reverseRecOn with
  | nil => exact ⟨rfl, rfl, rfl, rfl⟩
  | append_singleton l id ih =>
    rw [List.nodup_append] at h
    rw [fklMacroCompilePrepare, List.foldl_append]
    exact (ih h.1).add fun hid => h.2.2 id hid id (List.mem_singleton_self id) rfl

theorem Numbered.find {l : List S} {env : FklCgEnv S} (h : Numbered l env) (hl : l.Nodup) {i : Nat}
    {id : S} (hi : l[i]? = some id) :
    fklGetCgDefByIdInScope id 1 env = some (⟨id, 1⟩, ⟨i, 0, false, false⟩) := by
  have hmem : ((⟨id, 1⟩, ⟨i, 0, false, false⟩) : FklSidScope S × FklSymDef) ∈
      (env.scopes 1).defs := by
    rw [h.defs]
    exact List.mem_map.mpr ⟨(id, i), List.mem_zipIdx_iff_getElem?.mpr hi, rfl⟩
  unfold fklGetCgDefByIdInScope
  cases hfind : fklHashMapAt (env.scopes 1).defs ⟨id, 1⟩ with
  | none => simpa using List.find?_eq_none.mp hfind _ hmem
  | some e =>
    obtain ⟨he, hkey⟩ := CgState.mem_of_fklHashMapAt hfind
    rw [h.defs] at he
    obtain ⟨⟨id', j⟩, hx, rfl⟩ := List.mem_map.mp he
    obtain rfl : id' = id := congrArg FklSidScope.sid hkey
    have hj : l[j]? = some id' := List.mem_zipIdx_iff_getElem?.mp hx
    obtain rfl : j = i :=
      (List.getElem?_inj (List.getElem?_eq_some_iff.mp hj).1 hl).mp (hj.trans hi.symm)
    rfl

end

/-! The procedure of a macro. -/

namespace Nast

/-- The place of an argument on the stack; the frame itself stands below them. -/
def fklVmGetArg (frameSize bp i : Nat) : Nat := bp + 1 + frameSize + i

/-- `FKL_VM_GET_ARG(exe, f, idx) = v` -/
def initMacroMatchLocals (frameSize bp : Nat) :
    Nat → List (List UInt8 × FklPmatchRes) → (Nat → Nast) → Nat → Nast
  | _, [], base => base
  | idx, e :: es, base => initMacroMatchLocals frameSize bp (idx + 1) es
    (Function.update base (fklVmGetArg frameSize bp idx) e.2.value)

def initMacroMatchLocalVariable (frameSize bp : Nat) (ht : FklPmatchHashMap) (base : Nat → Nast) :
    Nat → Nast :=
  initMacroMatchLocals frameSize bp 0 ht.entries base

theorem initMacroMatchLocals_get (frameSize bp : Nat) {es : List (List UInt8 × FklPmatchRes)}
    (idx : Nat) (base : Nat → Nast) :
    (∀ j < idx, initMacroMatchLocals frameSize bp idx es base (fklVmGetArg frameSize bp j) =
      base (fklVmGetArg frameSize bp j)) ∧
    ∀ i e, es[i]? = some e →
      initMacroMatchLocals frameSize bp idx es base (fklVmGetArg frameSize bp (idx + i)) =
        e.2.value := by
  induction es generalizing idx base with
  | nil => exact ⟨fun _ _ => rfl, by simp⟩
  | cons d es ih =>
    obtain ⟨hbefore, hat⟩ := ih (idx + 1)
      (Function.update base (fklVmGetArg frameSize bp idx) d.2.value)
    refine ⟨fun j hj => ?_, fun i e he => ?_⟩
    · rw [initMacroMatchLocals, hbefore j (by omega),
        Function.update_of_ne (by unfold fklVmGetArg; omega)]
    · rw [initMacroMatchLocals]
      cases i with
      | zero =>
        obtain rfl : d = e := Option.some.inj he
        dsimp only [Nat.add_zero]
        rw [hbefore idx (by omega), Function.update_self]
      | succ i =>
        have hstep : idx + (i + 1) = idx + 1 + i := by omega
        rw [hstep]
        exact hat i e he

/-- The value under a symbol. -/
def valueOf (m : FklPmatchHashMap) (s : List UInt8) : Nast :=
  match m.get s with
  | some r => r.value
  | none => .atom .nil

theorem initMacroMatchLocalVariable_get {ht : FklPmatchHashMap} {i : Nat} {s : List UInt8}
    (h : (ht.entries.map Prod.fst)[i]? = some s) (frameSize bp : Nat) (base : Nat → Nast) :
    initMacroMatchLocalVariable frameSize bp ht base (fklVmGetArg frameSize bp i) =
      valueOf ht s := by
  rw [List.getElem?_map] at h
  obtain ⟨e, he, rfl⟩ := Option.map_eq_some_iff.mp h
  have hat := (initMacroMatchLocals_get frameSize bp 0 base).2 i e he
  rw [Nat.zero_add] at hat
  rw [valueOf, InsertionMap.get_of_mem keyEquiv_symEq (List.mem_of_getElem? he)]
  exact hat

/-- What holds of the map of a successful match, which receives the call itself under `orig`. -/
structure Binds (header : List UInt8) (p e : Nast) (symbolTable : List (List UInt8))
    (m : FklPmatchHashMap) : Prop where
  keys : m.entries.map Prod.fst = symbolTable
  value : ∀ c addr s expand, p.at? c = some (.slot addr s expand) →
    ∃ r, m.get s = some r ∧ e.at? c = some r.value ∧ r.expand = expand
  back : fklVMvalueEqual (subst (valueOf m) header p) e = true
  received : ∀ i s orig r frameSize bp base, symbolTable[i]? = some s → orig ∉ symbolTable →
    initMacroMatchLocalVariable frameSize bp (m.set keyEquiv_symEq orig r) base
      (fklVmGetArg frameSize bp i) = valueOf m s

variable {header : List UInt8} {p e : Nast} {symbolTable : List (List UInt8)}

theorem symEq_iff {s s' : List UInt8} : symEq s s' = true ↔ s = s' := by simp [symEq]

theorem binds_of_entries {m : FklPmatchHashMap} (hp : blocksAreSyntax p = true)
    (h : accepts header p e = true) (hm : m.entries = bindings p e e) :
    Binds header p e p.slots m := by
  have hkeys : m.entries.map Prod.fst = p.slots := by rw [hm, bindings_keys h]
  have hget : ∀ b ∈ bindings p e e, m.get b.1 = some b.2 := fun b hb =>
    InsertionMap.get_of_mem keyEquiv_symEq (by rwa [hm])
  refine ⟨hkeys, fun c addr s expand hc => ?_, ?_, ?_⟩
  · obtain ⟨r, hr, hat, hex⟩ := mem_bindings_of_at? e h hc
    exact ⟨r, hget _ hr, hat, hex⟩
  · have hvalue : ∀ b ∈ bindings p e e, valueOf m b.1 = b.2.value := by
      intro b hb
      rw [valueOf, hget b hb]
    exact subst_of_accepts hp h hvalue
  · intro i s orig r frameSize bp base hi horig
    have hnew : m.elm orig = none := by
      refine List.find?_eq_none.mpr fun b hb heq => horig ?_
      rw [symEq_iff.mp heq, ← hkeys]
      exact List.mem_map_of_mem hb
    have hne : symEq s orig = false := by
      rw [Bool.eq_false_iff]
      exact fun heq => horig (symEq_iff.mp heq ▸ List.mem_of_getElem? hi)
    rw [initMacroMatchLocalVariable_get (s := s)]
    · rw [valueOf, InsertionMap.get_set, hne]
      rfl
    · rw [InsertionMap.entries_set_of_none _ hnew, List.map_append, hkeys]
      exact List.getElem?_append_left (List.getElem?_eq_some_iff.mp hi).1 ▸ hi

theorem exists_binds (hp : blocksAreSyntax p = true) (hnodup : p.slots.Nodup)
    (h : accepts header p e = true) : ∃ m, (fklPatternMatch1 header p e (some .empty)).2 = some m ∧
      Binds header p e p.slots m := by
  have hmatch : (patternMatchLoop header [⟨p, e, e⟩] (some .empty)).1 = true := by
    rw [patternMatchLoop_fst]
    simpa using h
  have hentries : (addAll .empty (bindings p e e)).entries = bindings p e e := by
    refine entries_addAll ?_
    rw [InsertionMap.entries_empty, List.nil_append, bindings_keys h]
    exact hnodup
  refine ⟨_, ?_, binds_of_entries hp h hentries⟩
  rw [fklPatternMatch1, patternMatchLoop_snd _ _ hmatch]
  simp

/-- A match is a substitution, and the locals of the procedure receive what the slots stand
against. -/
theorem fklPatternMatch1_binds {base : Nat} {node : Nast} (hnode : isSyntax node = true)
    (hmade : doAstToPattern base node = some (p, symbolTable)) :
    p.cdr.slots = symbolTable ∧ symbolTable.Nodup ∧
    (∀ i s orig, symbolTable[i]? = some s → orig ∉ symbolTable →
      (fklGetCgDefByIdInScope s 1 (fklMacroCompilePrepare (symbolTable ++ [orig]))).map
        (fun el => el.2.idx) = some i) ∧
    ∀ header e,
      ((fklPatternMatch1 header p.cdr e (some .empty)).1 = true ↔
        ∃ σ, fklVMvalueEqual (subst σ header p.cdr) e = true) ∧
      ((fklPatternMatch1 header p.cdr e (some .empty)).1 = true →
        ∃ m, (fklPatternMatch1 header p.cdr e (some .empty)).2 = some m ∧
          Binds header p.cdr e symbolTable m) := by
  obtain ⟨slotId, name, rest, rest', rfl, rfl, hrest⟩ := doAstToPattern_some hmade
  simp only [isSyntax, Bool.and_eq_true] at hnode
  obtain ⟨htable, hnodup, hblocks⟩ := toPattern_slots hnode.2.1.2 List.nodup_nil hrest
  obtain rfl : symbolTable = rest'.slots := htable
  refine ⟨rfl, hnodup, fun i s orig hi horig => ?_, fun header e => ⟨?_, fun h => ?_⟩⟩
  · have hall : (rest'.slots ++ [orig]).Nodup := by
      rw [List.nodup_append]
      exact ⟨hnodup, List.nodup_singleton _, by rintro x hx y hy rfl; simp_all⟩
    have hi' : (rest'.slots ++ [orig])[i]? = some s :=
      (List.getElem?_append_left (List.getElem?_eq_some_iff.mp hi).1).trans hi
    rw [(numbered_fklMacroCompilePrepare hall).find hall hi']
    rfl
  · rw [fklPatternMatch1_fst]
    constructor
    · intro h
      obtain ⟨m, -, hm⟩ := exists_binds hblocks hnodup h
      exact ⟨valueOf m, hm.back⟩
    · rintro ⟨σ, hσ⟩
      exact accepts_of_subst hblocks hσ
  · rw [fklPatternMatch1_fst] at h
    exact exists_binds hblocks hnodup h

/-- `(~ (f (~ a) _ ~ b))` -/
def slotsNode : Nast :=
  .pair (.atom (.sym [126])) (.pair (.pair (.atom (.sym [102])) (.pair
    (.pair (.atom (.sym [126])) (.pair (.atom (.sym [97])) (.atom .nil)))
    (.pair (.atom underscore)
      (.pair (.atom (.sym [126])) (.pair (.atom (.sym [98])) (.atom .nil)))))) (.atom .nil))

/-- The call is `(f 1 f . 2)`. -/
theorem slotsNode_binds : ∃ p m, doAstToPattern 0 slotsNode = some (p, [[97], [98]]) ∧
    Binds [102] p.cdr (.pair (.atom (.fix 1)) (.pair (.atom (.sym [102])) (.atom (.fix 2))))
      [[97], [98]] m := by
  have hmade : doAstToPattern 0 slotsNode = some (.pair (.atom (.sym [102])) (.pair
      (.slot 0 [97] .none) (.pair .header (.slot 1 [98] .none))), [[97], [98]]) := by
    simp [doAstToPattern, slotsNode, astToPatternLoop, isSymbol, makeSlot, slotSymbol, put,
      underscore]
  obtain ⟨-, -, -, hmatch⟩ := fklPatternMatch1_binds (by decide) hmade
  obtain ⟨m, -, hm⟩ := (hmatch [102] (.pair (.atom (.fix 1))
    (.pair (.atom (.sym [102])) (.atom (.fix 2))))).2 (by
      simp [fklPatternMatch1_fst, cdr, accepts, isSymbol])
  exact ⟨_, m, hmade, hm⟩

end Nast

end FakeLisp
