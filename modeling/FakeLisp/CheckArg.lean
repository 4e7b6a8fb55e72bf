import FakeLisp.ProcessArgs
import FakeLisp.VMExec

/-! The instruction that checks the arguments of a call, on the stack as the call has left it. The
arguments behind the parameters become a list in the place of the first of them. -/

namespace FakeLisp

variable {S D : Type} [DecidableEq S]

/-- The value stack, and the pairs by their addresses. -/
structure CallState (D : Type) where
  base : Nat → VMword D
  tp : Nat
  pair : Nat → Option (VMword D × VMword D)
  /-- Where the next object is made. -/
  next : Nat

structure CallFrame where
  bp : Nat
  sp : Nat
  argNum : Nat

inductive ArgError where
  | tooFewArg
  | tooManyArg
  | unreachable

/-- `FKL_VM_GET_ARG`; a frame takes `frameSize` words. -/
def vmGetArg (frameSize : Nat) (f : CallFrame) (i : Nat) : Nat := f.bp + 1 + frameSize + i

/-- `fklVMframeSetSp` on a stack with room enough. -/
def fklVMframeSetSp (frameSize bp lcount : Nat) (st : CallState D) : CallFrame × CallState D :=
  let calleeStart := bp + frameSize
  let f := { bp := bp, sp := calleeStart + 1 + lcount, argNum := st.tp - calleeStart - 1 }
  if st.tp < f.sp then
    (f, { st with
      base := fun a => if st.tp ≤ a ∧ a < f.sp then .null else st.base a
      tp := f.sp })
  else (f, st)

namespace CallState

def set (st : CallState D) (a : Nat) (v : VMword D) : CallState D :=
  { st with base := Function.update st.base a v }

def setCdr (st : CallState D) (a : Nat) (v : VMword D) : CallState D :=
  { st with pair := Function.update st.pair a ((st.pair a).map fun p => (p.1, v)) }

def fklCreateVMvaluePair1 (st : CallState D) (car : VMword D) : VMword D × CallState D :=
  (.obj st.next,
    { st with pair := Function.update st.pair st.next (some (car, .nil)), next := st.next + 1 })

end CallState

/-- A round of the loop: `pValue` points to the cdr of the pair `last`, or to `obj`. -/
def restRound (slot : Nat) (obj : VMword D) (last : Option Nat) (st : CallState D) :
    VMword D × CallState D :=
  let made := st.fklCreateVMvaluePair1 (st.base slot)
  match last with
  | none => (made.1, made.2.set slot .null)
  | some a => (obj, (made.2.setCdr a made.1).set slot .null)

/-- The loop over the arguments from `i` on, `n` of them. -/
def restLoop (frameSize : Nat) (f : CallFrame) :
    Nat → Nat → VMword D → Option Nat → CallState D → VMword D × CallState D
  | 0, _, obj, _, st => (obj, st)
  | n + 1, i, obj, last, st =>
    let r := restRound (vmGetArg frameSize f i) obj last st
    restLoop frameSize f n (i + 1) r.1 (some st.next) r.2

/-- `FKL_OP_CHECK_ARG` -/
def execCheckArg (frameSize : Nat) (ins : FklIns) (f : CallFrame) (st : CallState D) :
    Except ArgError (CallState D) :=
  let expect := ins.uB
  if f.argNum < expect then .error .tooFewArg
  else if ins.sA = 0 then if expect < f.argNum then .error .tooManyArg else .ok st
  else if ins.sA = 1 then
    let r := restLoop frameSize f (f.argNum - expect) expect .nil none st
    .ok { r.2.set (vmGetArg frameSize f expect) r.1 with tp := f.sp }
  else .error .unreachable

/-! ## The list of the remaining arguments -/

/-- From `v` on there are pairs with the values of the list, and then nil. -/
def ListAt (pair : Nat → Option (VMword D × VMword D)) : VMword D → List (VMword D) → Prop
  | v, [] => v = .nil
  | v, x :: xs => ∃ a d, v = .obj a ∧ pair a = some (x, d) ∧ ListAt pair d xs

/-- The pairs made so far, in a row from the address `start` on. -/
structure RestAt (start : Nat) (made : List (VMword D)) (obj : VMword D) (last : Option Nat)
    (st : CallState D) : Prop where
  next : st.next = start + made.length
  obj : obj = if made = [] then .nil else .obj start
  last : last = if made = [] then none else some (start + made.length - 1)
  pair : ∀ j x, made[j]? = some x → st.pair (start + j) =
    some (x, if j + 1 < made.length then .obj (start + j + 1) else .nil)

theorem listAt_row {pair : Nat → Option (VMword D × VMword D)} {start : Nat} {made : List (VMword D)}
    (h : ∀ j x, made[j]? = some x → pair (start + j) =
      some (x, if j + 1 < made.length then .obj (start + j + 1) else .nil)) :
    ListAt pair (if made = [] then .nil else .obj start) made := by
  induction made generalizing start with
  | nil => rfl
  | cons x made ih =>
    rw [if_neg (List.cons_ne_nil x made)]
    refine ⟨start, _, rfl, h 0 x rfl, ?_⟩
    have hrow : ListAt pair (if made = [] then .nil else .obj (start + 1)) made := by
      apply ih
      intro j y hj
      have hstep := h (j + 1) y hj
      have hpos : start + 1 + j = start + (j + 1) := by omega
      simp only [List.length_cons, Nat.add_lt_add_iff_right] at hstep
      rw [hpos]
      exact hstep
    cases made with
    | nil => exact hrow
    | cons y made => simpa using hrow

theorem restAt_init (st : CallState D) : RestAt st.next [] .nil none st where
  next := rfl
  obj := rfl
  last := rfl
  pair := by
    intro j x hj
    simp at hj

variable {start : Nat} {made : List (VMword D)} {obj : VMword D} {last : Option Nat}
  {st : CallState D}

/-- One round makes the pair of the next argument and hangs it on the last one. -/
theorem RestAt.round (h : RestAt start made obj last st) (slot : Nat) :
    RestAt start (made ++ [st.base slot]) (restRound slot obj last st).1 (some st.next)
      (restRound slot obj last st).2 := by
  obtain ⟨hnext, rfl, rfl, hpair⟩ := h
  by_cases hmade : made = []
  · subst hmade
    have hstart : st.next = start := hnext
    rw [if_pos rfl, if_pos rfl]
    refine ⟨?_, ?_, ?_, ?_⟩
    · simp [restRound, CallState.set, CallState.fklCreateVMvaluePair1, hstart]
    · simp [restRound, CallState.fklCreateVMvaluePair1, hstart]
    · simp [hstart]
    · intro j x hj
      obtain ⟨rfl, rfl⟩ : j = 0 ∧ x = st.base slot := by
        cases j with
        | zero => exact ⟨rfl, (Option.some.inj hj).symm⟩
        | succ j => simp at hj
      simp [restRound, CallState.set, CallState.fklCreateVMvaluePair1, hstart]
  · have hpos := List.length_pos_iff.mpr hmade
    rw [if_neg hmade, if_neg hmade]
    have hlast : ∃ x, made[made.length - 1]? = some x :=
      ⟨made[made.length - 1], List.getElem?_eq_getElem (by omega)⟩
    obtain ⟨x, hx⟩ := hlast
    have hcell := hpair _ x hx
    rw [if_neg (by omega)] at hcell
    refine ⟨?_, ?_, ?_, ?_⟩
    · simp [restRound, CallState.set, CallState.setCdr, CallState.fklCreateVMvaluePair1, hnext,
        Nat.add_assoc]
    · simp [restRound]
    · simp [hnext]
    · intro j y hj
      have hend : start + made.length - 1 = start + (made.length - 1) := by omega
      have hne : start + (made.length - 1) ≠ start + made.length := by omega
      have hpairs : ∀ b, (restRound slot (.obj start) (some (start + made.length - 1)) st).2.pair b =
          if b = start + (made.length - 1) then some (x, .obj (start + made.length))
          else if b = start + made.length then some (st.base slot, .nil) else st.pair b := by
        intro b
        simp only [restRound, CallState.set, CallState.setCdr, CallState.fklCreateVMvaluePair1, hnext,
          hend, Function.update_of_ne hne, hcell, Function.update_apply, Option.map_some]
      have hlen : (made ++ [st.base slot]).length = made.length + 1 := by simp
      rw [hpairs, hlen]
      obtain hlt | rfl | rfl : j < made.length - 1 ∨ j = made.length - 1 ∨ j = made.length := by
        have hj' := (List.getElem?_eq_some_iff.mp hj).1
        omega
      · rw [List.getElem?_append_left (by omega)] at hj
        rw [if_neg (by omega), if_neg (by omega), hpair j y hj, if_pos (by omega), if_pos (by omega)]
      · rw [List.getElem?_append_left (by omega), hx] at hj
        have hsucc : start + (made.length - 1) + 1 = start + made.length := by omega
        rw [if_pos rfl, if_pos (by omega), Option.some.inj hj, hsucc]
      · rw [List.getElem?_concat_length] at hj
        rw [if_neg (by omega), if_pos rfl, if_neg (by omega), Option.some.inj hj]

/-- What the loop leaves: the list, and the stack except for the slots it has emptied. -/
theorem restLoop_spec {frameSize : Nat} {f : CallFrame} {n i : Nat} {args : List (VMword D)}
    (h : RestAt start made obj last st) (hlen : args.length = n)
    (hargs : ∀ j x, args[j]? = some x → st.base (vmGetArg frameSize f (i + j)) = x) :
    ListAt (restLoop frameSize f n i obj last st).2.pair (restLoop frameSize f n i obj last st).1
        (made ++ args) ∧
      (∀ a < vmGetArg frameSize f i, (restLoop frameSize f n i obj last st).2.base a = st.base a) := by
  induction n generalizing i obj last st made args with
  | zero =>
    obtain rfl := List.eq_nil_of_length_eq_zero hlen
    rw [List.append_nil, restLoop, h.obj]
    exact ⟨listAt_row h.pair, fun _ _ => rfl⟩
  | succ n ih =>
    obtain ⟨x, args, rfl⟩ := List.exists_cons_of_length_eq_add_one hlen
    have hx : st.base (vmGetArg frameSize f i) = x := hargs 0 x rfl
    have hbase : (restRound (vmGetArg frameSize f i) obj last st).2.base =
        Function.update st.base (vmGetArg frameSize f i) .null := by
      cases last <;> rfl
    have hround := h.round (vmGetArg frameSize f i)
    rw [hx] at hround
    have hrest := ih (i := i + 1) hround (Nat.succ.inj hlen) ?_
    · rw [List.append_assoc, List.singleton_append] at hrest
      refine ⟨hrest.1, ?_⟩
      intro a ha
      have hlt : a < vmGetArg frameSize f (i + 1) := Nat.lt_succ_of_lt ha
      rw [restLoop, hrest.2 a hlt, hbase, Function.update_of_ne (Nat.ne_of_lt ha)]
    · intro j y hj
      have hne : vmGetArg frameSize f (i + 1 + j) ≠ vmGetArg frameSize f i := by
        unfold vmGetArg
        omega
      rw [hbase, Function.update_of_ne hne, Nat.add_assoc, Nat.add_comm 1 j]
      exact hargs (j + 1) y hj

/-! ## The instruction behind the parameter list -/

/-- What the check of the arguments must do, for a procedure with the symbols of `args`, of which
the environment tells the slots. -/
structure ChecksArgs (args : ArgsNode S) (env : FklCgEnv S) (frameSize : Nat) (f : CallFrame)
    (argv : List (VMword D)) (r : Except ArgError (CallState D)) : Prop where
  tooFew : r = .error .tooFewArg ↔ argv.length < args.params.length
  tooMany : r = .error .tooManyArg ↔ args.params.length < argv.length ∧ args.restSym = none
  ok : args.params.length ≤ argv.length → (args.restSym = none → argv.length = args.params.length) →
    ∃ st, r = .ok st ∧
      (∀ i id, args.params[i]? = some id →
        (fklGetCgDefByIdInScope id 1 env).map (fun e => e.2.idx) = some i ∧
          some (st.base (vmGetArg frameSize f i)) = argv[i]?) ∧
      ∀ id, args.restSym = some id →
        (fklGetCgDefByIdInScope id 1 env).map (fun e => e.2.idx) = some args.params.length ∧
          ListAt st.pair (st.base (vmGetArg frameSize f args.params.length))
            (argv.drop args.params.length)

/-- Every call of the procedure with arguments on the stack; its body may have taken more slots. -/
def ArgsRight (D : Type) (args : ArgsNode S) : Prop :=
  ∀ ins env, processArgs args (CgState.init : CgState S).env = some (ins, env) →
    ∀ (frameSize bp extra : Nat) (st : CallState D) (argv : List (VMword D)),
      st.tp = bp + frameSize + 1 + argv.length →
      (∀ i x, argv[i]? = some x → st.base (bp + 1 + frameSize + i) = x) →
      let call := fklVMframeSetSp frameSize bp (env.slots.length + extra) st
      ChecksArgs args env frameSize call.1 argv (execCheckArg frameSize ins call.1 call.2)

theorem uB_makeCheckArg (rest : Int) (n : Nat) : (makeCheckArg rest n).uB = n % 2 ^ 16 := by
  rw [makeCheckArg, FklIns.uB_setUB, toUnsigned]
  omega

theorem sA_makeCheckArg (rest : Int) (n : Nat) (h : rest = 0 ∨ rest = 1) :
    (makeCheckArg rest n).sA = rest := by
  rw [makeCheckArg, FklIns.sA_setUB, FklIns.setSA, FklIns.sA_setUA]
  rcases h with rfl | rfl <;> decide

/-- The frame of a call with the arguments on the stack. -/
theorem fklVMframeSetSp_spec {frameSize bp : Nat} (lcount : Nat) {argv : List (VMword D)}
    (htp : st.tp = bp + frameSize + 1 + argv.length)
    (hargs : ∀ i x, argv[i]? = some x → st.base (bp + 1 + frameSize + i) = x) :
    let call := fklVMframeSetSp frameSize bp lcount st
    call.1.argNum = argv.length ∧
      ∀ i x, argv[i]? = some x → call.2.base (vmGetArg frameSize call.1 i) = x := by
  have hnum : st.tp - (bp + frameSize) - 1 = argv.length := by omega
  simp only [fklVMframeSetSp]
  split_ifs with hsp
  · refine ⟨hnum, ?_⟩
    intro i x hi
    have hlt := (List.getElem?_eq_some_iff.mp hi).1
    have hbelow : ¬(st.tp ≤ bp + 1 + frameSize + i ∧
        bp + 1 + frameSize + i < bp + frameSize + 1 + lcount) := by omega
    exact (if_neg hbelow).trans (hargs i x hi)
  · exact ⟨hnum, hargs⟩

theorem execCheckArg_spec {args : ArgsNode S} {ins : FklIns} {env : FklCgEnv S} {frameSize : Nat}
    {f : CallFrame} {argv : List (VMword D)} (h : Accepted args ins env)
    (hlen : args.params.length < 2 ^ 16) (hnum : f.argNum = argv.length)
    (hargs : ∀ i x, argv[i]? = some x → st.base (vmGetArg frameSize f i) = x) :
    ChecksArgs args env frameSize f argv (execCheckArg frameSize ins f st) := by
  have huB : ins.uB = args.params.length := by rw [h.ins, uB_makeCheckArg, Nat.mod_eq_of_lt hlen]
  have hnodup := (List.nodup_append.mp h.nodup).1
  have hfind : ∀ i id, args.params[i]? = some id →
      (fklGetCgDefByIdInScope id 1 env).map (fun e => e.2.idx) = some i := by
    intro i id hid
    have hat : (args.params ++ args.restSym.toList)[i]? = some id :=
      (List.getElem?_append_left (List.getElem?_eq_some_iff.mp hid).1).trans hid
    rw [h.slots.find h.nodup hat]
    rfl
  rw [execCheckArg, hnum, huB]
  by_cases hfew : argv.length < args.params.length
  · rw [if_pos hfew]
    refine ⟨iff_of_true rfl hfew, iff_of_false nofun ?_, fun hle => absurd hfew (Nat.not_lt.mpr hle)⟩
    rintro ⟨hlt, -⟩
    exact absurd hfew (Nat.lt_asymm hlt)
  rw [if_neg hfew]
  have hvalue : ∀ st' : CallState D,
      (∀ i < args.params.length, st'.base (vmGetArg frameSize f i) = st.base (vmGetArg frameSize f i)) →
      ∀ i id, args.params[i]? = some id →
        (fklGetCgDefByIdInScope id 1 env).map (fun e => e.2.idx) = some i ∧
          some (st'.base (vmGetArg frameSize f i)) = argv[i]? := by
    intro st' hsame i id hid
    have hi := (List.getElem?_eq_some_iff.mp hid).1
    have harg : argv[i]? = some argv[i] := List.getElem?_eq_getElem (by omega)
    exact ⟨hfind i id hid, by rw [hsame i hi, hargs i _ harg, harg]⟩
  cases hrest : args.restSym with
  | none =>
    have hsA : ins.sA = 0 := by
      rw [h.ins, hrest]
      exact sA_makeCheckArg _ _ (.inl rfl)
    rw [if_pos hsA]
    by_cases hmany : args.params.length < argv.length
    · rw [if_pos hmany]
      refine ⟨iff_of_false nofun hfew, iff_of_true rfl ⟨hmany, hrest⟩, ?_⟩
      intro _ hsame
      exact absurd (hsame hrest) (Nat.ne_of_gt hmany)
    · rw [if_neg hmany]
      refine ⟨iff_of_false nofun hfew, iff_of_false nofun fun hlt => hmany hlt.1, ?_⟩
      intro _ _
      refine ⟨st, rfl, hvalue st fun _ _ => rfl, ?_⟩
      intro id hid
      rw [hrest] at hid
      cases hid
  | some id =>
    have hsA : ins.sA = 1 := by
      rw [h.ins, hrest]
      exact sA_makeCheckArg _ _ (.inr rfl)
    have hne : ¬ins.sA = 0 := by
      rw [hsA]
      decide
    rw [if_neg hne, if_pos hsA]
    have hnone : ¬(args.params.length < argv.length ∧ args.restSym = none) := by
      rw [hrest]
      rintro ⟨-, hnone⟩
      cases hnone
    refine ⟨iff_of_false nofun hfew, iff_of_false nofun hnone, ?_⟩
    intro hle _
    have hdrop : (argv.drop args.params.length).length = argv.length - args.params.length :=
      List.length_drop
    obtain ⟨hlist, hsame⟩ := restLoop_spec (f := f)
      (i := args.params.length) (restAt_init st) hdrop fun j x hj =>
        hargs _ x (by rwa [List.getElem?_drop] at hj)
    refine ⟨_, rfl, hvalue _ ?_, ?_⟩
    · intro i hi
      have hlt : vmGetArg frameSize f i < vmGetArg frameSize f args.params.length := by
        unfold vmGetArg
        omega
      exact (Function.update_of_ne (Nat.ne_of_lt hlt) _ _).trans (hsame _ hlt)
    · intro id' hid
      have hat : (args.params ++ args.restSym.toList)[args.params.length]? = some id' := by
        rw [hid]
        exact List.getElem?_concat_length
      refine ⟨?_, ?_⟩
      · rw [h.slots.find h.nodup hat]
        rfl
      · simpa only [CallState.set, Function.update_self, List.nil_append] using hlist

/-- One parameter more than fit into the instruction is stored as none. -/
theorem not_argsRight_full (D : Type) {args : ArgsNode S}
    (h : (processArgs args (CgState.init : CgState S).env).isSome)
    (hlen : args.params.length = 2 ^ 16) : ¬ArgsRight D args := by
  intro hright
  obtain ⟨⟨ins, env⟩, hproc⟩ := Option.isSome_iff_exists.mp h
  have hacc := processArgs_accepted hproc
  have huB : ins.uB = 0 := by rw [hacc.ins, uB_makeCheckArg, hlen, Nat.mod_self]
  let st : CallState D := { base := fun _ => .nil, tp := 1, pair := fun _ => none, next := 0 }
  have hnil : ∀ i x, ([] : List (VMword D))[i]? = some x → st.base (0 + 1 + 0 + i) = x := by
    intro i x hi
    simp at hi
  have hcall := hright ins env hproc 0 0 0 st [] rfl hnil
  have htp : st.tp = 0 + 0 + 1 + ([] : List (VMword D)).length := rfl
  have hnum := (fklVMframeSetSp_spec (env.slots.length + 0) htp hnil).1
  have hfew := hcall.tooFew.mpr (by rw [hlen, List.length_nil]; decide)
  rw [execCheckArg, hnum, huB] at hfew
  simp only [List.length_nil, Nat.lt_irrefl, if_false] at hfew
  rw [hacc.ins, sA_makeCheckArg] at hfew
  · split_ifs at hfew <;> cases hfew
  · split_ifs <;> simp

/-- With fewer parameters than one more than the instruction has room for. -/
theorem argsRight_iff (D : Type) {args : ArgsNode S}
    (h : (processArgs args (CgState.init : CgState S).env).isSome) :
    ArgsRight D args ↔ args.params.length < 2 ^ 16 := by
  constructor
  · intro hright
    obtain ⟨⟨ins, env⟩, hproc⟩ := Option.isSome_iff_exists.mp h
    have hle := (processArgs_accepted hproc).length
    by_contra hlong
    refine not_argsRight_full D h ?_ hright
    unfold uint16Max at hle
    omega
  · intro hlen ins' env' hproc' frameSize bp extra st argv htp hargs
    obtain ⟨hnum, hargs'⟩ := fklVMframeSetSp_spec (env'.slots.length + extra) htp hargs
    exact execCheckArg_spec (processArgs_accepted hproc') hlen hnum hargs'

/-- Two parameters and a rest symbol. -/
theorem argsRight_rest : ArgsRight Unit (ArgsNode.ofParams [0, 1] (some 2)) :=
  (argsRight_iff Unit (by decide)).mpr (by decide)

/-- The list of 65536 parameters. -/
theorem not_argsRight_range : ¬ArgsRight Unit (ArgsNode.ofParams (List.range (2 ^ 16)) none) := by
  refine not_argsRight_full Unit (processArgs_ofParams List.nodup_range ?_) ?_
  · rw [List.length_range]
    decide
  · rw [ArgsNode.params_ofParams, List.length_range]

end FakeLisp
