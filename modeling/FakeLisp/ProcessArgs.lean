import FakeLisp.Bytecode
import FakeLisp.CgEnv

/-! The parameters of a procedure: each gets the next slot of its fresh environment, and their
number goes into the instruction that checks the arguments. -/

namespace FakeLisp

variable {S : Type} [DecidableEq S]

/-- A parameter list as it is read: what stands in the place of a parameter is a symbol or not. -/
inductive ArgsNode (S : Type) where
  | nil
  | sym (id : S)
  | other
  | pair (car : Option S) (cdr : ArgsNode S)

namespace ArgsNode

/-- The symbols in the places of parameters. -/
def params : ArgsNode S → List S
  | pair (some id) cdr => id :: cdr.params
  | pair none cdr => cdr.params
  | _ => []

def restSym : ArgsNode S → Option S
  | pair _ cdr => cdr.restSym
  | sym id => some id
  | _ => none

/-- A list of parameters, maybe with a rest symbol. -/
def ofParams (ids : List S) (rest : Option S) : ArgsNode S :=
  ids.foldr (fun id cdr => pair (some id) cdr) (match rest with | none => nil | some id => sym id)

omit [DecidableEq S] in
theorem params_ofParams (ids : List S) (rest : Option S) : (ofParams ids rest).params = ids := by
  induction ids with
  | nil => cases rest <;> rfl
  | cons id ids ih => exact congrArg (id :: ·) ih

end ArgsNode

def fklIsSymbolDefined (id : S) (scope : Nat) (env : FklCgEnv S) : Bool :=
  (fklGetCgDefByIdInScope id scope env).isSome

/-- `UINT16_MAX` -/
def uint16Max : Nat := 0xFFFF

/-- The loop of `processArgs`: what is left of the list, `arg_count`, and the environment. -/
def processArgsLoop : ArgsNode S → Nat → FklCgEnv S → Option (ArgsNode S × Nat × FklCgEnv S)
  | .pair none _, _, _ => none
  | .pair (some cur) args, argCount, env =>
    if fklIsSymbolDefined cur 1 env then none
    else if uint16Max < argCount then none
    else processArgsLoop args (argCount + 1) (fklAddCgDefBySid cur 1 env).2
  | args, argCount, env => some (args, argCount, env)

def makeCheckArg (restList : Int) (argCount : Nat) : FklIns :=
  ((makeInsI .checkArg).setSA restList).setUB argCount

def processArgs (args : ArgsNode S) (env : FklCgEnv S) : Option (FklIns × FklCgEnv S) := do
  let (args, argCount, env) ← processArgsLoop args 0 env
  match args with
  | .nil => some (makeCheckArg 0 argCount, env)
  | .sym id =>
    if fklIsSymbolDefined id 1 env then none
    else some (makeCheckArg 1 argCount, (fklAddCgDefBySid id 1 env).2)
  | _ => none

/-- The symbols in the order of their slots. -/
structure ParamsAt (env : FklCgEnv S) (ids : List S) : Prop where
  slots : env.slots.length = ids.length
  empty : (env.scopes 1).empty = ids.length
  defs : (env.scopes 1).defs = ids.mapIdx fun i id => (⟨id, 1⟩, ⟨i, 0, false, false⟩)

variable {env : FklCgEnv S} {ids : List S} {id : S}

omit [DecidableEq S] in
theorem paramsAt_init : ParamsAt (CgState.init : CgState S).env [] := ⟨rfl, rfl, rfl⟩

/-- A symbol has the slot of its place among the parameters. -/
theorem ParamsAt.find (h : ParamsAt env ids) (hnodup : ids.Nodup) {i : Nat} (hi : ids[i]? = some id) :
    fklGetCgDefByIdInScope id 1 env = some (⟨id, 1⟩, ⟨i, 0, false, false⟩) := by
  rw [fklGetCgDefByIdInScope, fklHashMapAt, h.defs, List.find?_eq_some_iff_getElem]
  obtain ⟨hlt, hid⟩ := List.getElem?_eq_some_iff.mp hi
  refine ⟨by simp, i, by simpa using hlt, by simp [hid], ?_⟩
  intro j hj
  have hne : ids[j] ≠ id := by
    rw [← hid]
    exact fun heq => Nat.ne_of_lt hj (hnodup.getElem_inj_iff.mp heq)
  simp [hne]

theorem ParamsAt.not_mem (h : ParamsAt env ids) (hid : id ∉ ids) :
    fklGetCgDefByIdInScope id 1 env = none := by
  rw [fklGetCgDefByIdInScope, fklHashMapAt, h.defs, List.find?_eq_none]
  intro e he
  obtain ⟨i, hi, rfl⟩ := List.mem_mapIdx.mp he
  have hne : ids[i] ≠ id := fun heq => hid (heq ▸ List.getElem_mem hi)
  simp [hne]

theorem ParamsAt.isSymbolDefined (h : ParamsAt env ids) (hnodup : ids.Nodup) :
    fklIsSymbolDefined id 1 env = true ↔ id ∈ ids := by
  constructor
  · intro hdef
    by_contra hid
    rw [fklIsSymbolDefined, h.not_mem hid] at hdef
    cases hdef
  · intro hid
    obtain ⟨i, hi⟩ := List.mem_iff_getElem?.mp hid
    rw [fklIsSymbolDefined, h.find hnodup hi]
    rfl

/-- The next symbol takes the slot behind those taken. -/
theorem ParamsAt.add (h : ParamsAt env ids) (hid : id ∉ ids) :
    ParamsAt (fklAddCgDefBySid id 1 env).2 (ids ++ [id]) := by
  have hnone : fklHashMapAt (env.scopes 1).defs ⟨id, 1⟩ = none := h.not_mem hid
  have hfresh : ¬((env.scopes 1).empty < env.slots.length ∧ (hasResolvableRef id 1 env).isSome) := by
    rw [h.slots, h.empty]
    exact fun hlt => Nat.lt_irrefl _ hlt.1
  have hnext : getNextEmpty env.slots (ids.length + 1) = ids.length + 1 := by
    rw [getNextEmpty, List.drop_eq_nil_of_le (by rw [h.slots]; omega)]
    rfl
  refine ⟨?_, ?_, ?_⟩
  all_goals simp only [fklAddCgDefBySid, hnone, hfresh, if_false, Function.update_self]
  · simp [h.slots, h.empty]
  · simp [h.empty, hnext]
  · simp [h.defs, h.empty, List.mapIdx_append]

/-- What an accepted list leaves: its symbols in the first slots, and their number. -/
structure Accepted (args : ArgsNode S) (ins : FklIns) (env : FklCgEnv S) : Prop where
  nodup : (args.params ++ args.restSym.toList).Nodup
  length : args.params.length ≤ uint16Max + 1
  slots : ParamsAt env (args.params ++ args.restSym.toList)
  ins : ins = makeCheckArg (if args.restSym.isSome then 1 else 0) args.params.length

theorem processArgsLoop_spec {args t : ArgsNode S} {env' : FklCgEnv S} {n : Nat}
    (h : ParamsAt env ids) (hnodup : ids.Nodup) (hlen : ids.length ≤ uint16Max + 1)
    (hloop : processArgsLoop args ids.length env = some (t, n, env')) :
    ParamsAt env' (ids ++ args.params) ∧ (ids ++ args.params).Nodup ∧
      n = (ids ++ args.params).length ∧ n ≤ uint16Max + 1 ∧ t.restSym = args.restSym ∧
      ∀ car cdr, t ≠ .pair car cdr := by
  induction args generalizing ids env with
  | nil | sym | other =>
    cases hloop
    simpa [ArgsNode.params] using ⟨h, hnodup, hlen⟩
  | pair car cdr ih =>
    cases car with
    | none => cases hloop
    | some cur =>
      rw [processArgsLoop] at hloop
      split_ifs at hloop with hdef hmax
      have hcur : cur ∉ ids := fun hmem => hdef ((h.isSymbolDefined hnodup).mpr hmem)
      have hlen' : (ids ++ [cur]).length = ids.length + 1 := by simp
      have hnodup' : (ids ++ [cur]).Nodup :=
        hnodup.append (List.nodup_singleton cur) (by simpa using hcur)
      rw [← hlen'] at hloop
      have hspec := ih (h.add hcur) hnodup' (by omega) hloop
      rwa [List.append_assoc, List.singleton_append] at hspec

theorem processArgs_accepted {args : ArgsNode S} {ins : FklIns} {env' : FklCgEnv S}
    (h : processArgs args (CgState.init : CgState S).env = some (ins, env')) :
    Accepted args ins env' := by
  rw [processArgs, Option.bind_eq_bind, Option.bind_eq_some_iff] at h
  obtain ⟨⟨t, n, env⟩, hloop, h⟩ := h
  obtain ⟨hat, hnodup, rfl, hmax, hrest, hpair⟩ :=
    processArgsLoop_spec paramsAt_init List.nodup_nil (Nat.zero_le _) hloop
  rw [List.nil_append] at hat hnodup hmax h
  cases t with
  | nil =>
    obtain ⟨rfl, rfl⟩ := Prod.mk.inj (Option.some.inj h)
    have hnone : args.restSym = none := hrest.symm
    refine ⟨?_, hmax, ?_, ?_⟩ <;> rw [hnone]
    · simpa using hnodup
    · simpa using hat
    · rfl
  | sym id =>
    have hsome : args.restSym = some id := hrest.symm
    dsimp only at h
    split_ifs at h with hdef
    obtain ⟨rfl, rfl⟩ := Prod.mk.inj (Option.some.inj h)
    have hid : id ∉ args.params := fun hmem => hdef ((hat.isSymbolDefined hnodup).mpr hmem)
    refine ⟨?_, hmax, ?_, ?_⟩ <;> rw [hsome]
    · exact hnodup.append (List.nodup_singleton id) (by simpa using hid)
    · exact hat.add hid
    · rfl
  | other => cases h
  | pair car cdr => exact absurd rfl (hpair car cdr)

/-- Distinct symbols are accepted, one more than fit into the instruction included. -/
theorem processArgsLoop_ofParams {more : List S} (h : ParamsAt env ids) (hnodup : (ids ++ more).Nodup)
    (hlen : (ids ++ more).length ≤ uint16Max + 1) :
    (processArgsLoop (ArgsNode.ofParams more none) ids.length env).map Prod.fst = some .nil := by
  induction more generalizing ids env with
  | nil => rfl
  | cons id more ih =>
    have hids : ids.Nodup := (List.nodup_append.mp hnodup).1
    have hid : id ∉ ids := by
      intro hmem
      exact (List.nodup_append.mp hnodup).2.2 id hmem id (by simp) rfl
    have hdef : ¬fklIsSymbolDefined id 1 env = true := fun h' => hid ((h.isSymbolDefined hids).mp h')
    have hassoc : ids ++ id :: more = ids ++ [id] ++ more := by simp
    rw [hassoc] at hnodup hlen
    have hmax : ¬uint16Max < ids.length := by
      simp only [List.length_append, List.length_singleton] at hlen
      omega
    have hrun := ih (h.add hid) hnodup hlen
    rw [List.length_append, List.length_singleton] at hrun
    rw [ArgsNode.ofParams, List.foldr_cons, processArgsLoop, if_neg hdef, if_neg hmax]
    exact hrun

theorem processArgs_ofParams {more : List S} (hnodup : more.Nodup)
    (hlen : more.length ≤ uint16Max + 1) :
    (processArgs (ArgsNode.ofParams more none) (CgState.init : CgState S).env).isSome := by
  have hrun := processArgsLoop_ofParams (S := S) paramsAt_init (List.nil_append more ▸ hnodup)
    (List.nil_append more ▸ hlen)
  obtain ⟨⟨t, n, env⟩, hloop, rfl⟩ := Option.map_eq_some_iff.mp hrun
  rw [List.length_nil] at hloop
  rw [processArgs, hloop]
  rfl

end FakeLisp
