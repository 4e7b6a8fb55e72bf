import FakeLisp.CellPath
import FakeLisp.IsList
import Mathlib.Data.Set.Finite.Basic

/-! The destructive append. The end of each list is looked for and made to refer to the next
argument before the next argument is looked at. -/

namespace FakeLisp

variable {V : Type}

namespace PairMem

section

variable [DecidableEq V] (m : PairMem V)

/-- `FKL_VM_CDR(c) = v` -/
def setCdr (c v : V) : PairMem V where
  pair := fun q => if q = c then (m.pair c).map fun p => (p.1, v) else m.pair q
  nil := m.nil
  pair_nil := by
    by_cases h : m.nil = c
    · rw [if_pos h, ← h, m.pair_nil, Option.map_none]
    · rw [if_neg h, m.pair_nil]
  finite := by
    have hsame : ∀ q, (if q = c then (m.pair c).map fun p => (p.1, v) else m.pair q) ≠ none ↔
        m.pair q ≠ none := by
      intro q
      split_ifs with h
      · rw [h, ne_eq, Option.map_eq_none_iff]
      · exact Iff.rfl
    have := m.finite
    exact Finite.of_equiv _ (Equiv.subtypeEquivRight fun q => (hsame q).symm)

theorem setCdr_pair (c v q : V) : (m.setCdr c v).pair q =
    if q = c then (m.pair c).map fun p => (p.1, v) else m.pair q := rfl

theorem setCdr_cdr {c : V} (h : m.pair c ≠ none) (v : V) :
    (m.setCdr c v).cdr = Function.update m.cdr c (some v) := by
  funext q
  obtain ⟨p, hp⟩ := Option.ne_none_iff_exists'.mp h
  by_cases hq : q = c
  · subst hq
    simp [cdr, setCdr_pair, hp]
  · simp [cdr, setCdr_pair, hq]

theorem setCdr_car (c v q : V) :
    ((m.setCdr c v).pair q).map Prod.fst = (m.pair q).map Prod.fst := by
  rw [setCdr_pair]
  split_ifs with h
  · rw [h, Option.map_map]
    rfl
  · rfl

/-- `*prev`: the local `retval`, or the tail of a pair. -/
def deref (retval : V) : Option V → V
  | none => retval
  | some c => (m.cdr c).getD m.nil

/-- The inner loop of `pair_append`; `some none` where it returns `NULL`. -/
def appendWalk (retval : V) : Nat → Option V → V → Option (Option (Option V))
  | 0, _, _ => none
  | fuel + 1, prev, head =>
    let p := m.deref retval prev
    match m.cdr p with
    | some _ => if head = p then some none else appendWalk retval fuel (some p) (m.getFastValue head)
    | none => some (some prev)

/-- The outer loop: whether it goes through all arguments, and the pairs then. -/
def pairAppendLoop (fuel : Nat) : PairMem V → V → Option V → List V → Option (Bool × PairMem V)
  | m, _, _, [] => some (true, m)
  | m, retval, prev, cur :: base => do
    let head := m.getInitialFastValue (m.deref retval prev)
    match ← m.appendWalk retval fuel prev head with
    | none => some (false, m)
    | some prev =>
      if m.deref retval prev = m.nil then
        match prev with
        | none => pairAppendLoop fuel m cur prev base
        | some c => pairAppendLoop fuel (m.setCdr c cur) retval prev base
      else some (false, m)

/-- `pair_append`: the value returned, `none` for `NULL`. -/
def pairAppend (fuel : Nat) (obj : V) (base : List V) : Option (Option V × PairMem V) :=
  if base ≠ [] then do
    let (ok, m) ← pairAppendLoop fuel m obj none base
    some (if ok then some obj else none, m)
  else some (some obj, m)

/-- Userdata, and the append that its type may bring. -/
structure UserdataAppend (V : Type) where
  isUserdata : V → Bool
  append : V → Option (PairMem V → List V → Option V × PairMem V)

/-- The tags and types that are neither pairs nor userdata all return `NULL`. -/
def fklAppendVMvalue1 (ud : UserdataAppend V) (fuel : Nat) (v : V) (base : List V) :
    Option (Option V × PairMem V) :=
  if m.pair v ≠ none then m.pairAppend fuel v base
  else if ud.isUserdata v then
    match ud.append v with
    | some append => some (append m base)
    | none => some (none, m)
  else some (none, m)

end

variable {m : PairMem V} {retval p head e d : V} {prev : Option V} {D : List V} {i n : Nat}

section

variable [DecidableEq V]

/-! ## Where the walk ends -/

theorem appendWalk_path {p₀ : V} (h : Pointers m p₀ i p head) (hprev : m.deref retval prev = p)
    (hD : CellPath m.cdr p D e) (he : m.cdr e = none) (fuel : Nat) (hfuel : D.length < fuel) :
    m.appendWalk retval fuel prev head = some (some (D.getLast?.or prev)) ∧
      m.deref retval (D.getLast?.or prev) = e := by
  induction hD generalizing i head prev fuel with
  | nil v =>
    obtain ⟨fuel, rfl⟩ := Nat.exists_eq_succ_of_ne_zero (Nat.ne_of_gt hfuel)
    exact ⟨by simp [appendWalk, hprev, he], hprev⟩
  | @cons v d w D hv hd ih =>
    obtain ⟨fuel, rfl⟩ := Nat.exists_eq_succ_of_ne_zero (Nat.ne_of_gt (Nat.zero_lt_of_lt hfuel))
    have hnext : m.deref retval (some v) = d := by simp [deref, hv]
    have hlast : (v :: D).getLast?.or prev = D.getLast?.or (some v) := by
      cases D using List.reverseRecOn <;> simp [List.getLast?_cons]
    simp only [appendWalk, hprev, hv, if_neg (h.fast_ne hv (hd.endsIn he)), hlast]
    exact ih (h.next hv) hnext he fuel (by simpa using hfuel)

theorem appendWalk_circular {p₀ : V} (h : Pointers m p₀ i p head)
    (hprev : m.deref retval prev = p) (hc : ∀ k, iterAt m.cdr p₀ k ≠ none)
    (hmeet : iterAt m.cdr p₀ (i + n) = iterAt m.cdr p₀ (2 * (i + n) + 1)) (fuel : Nat)
    (hfuel : n < fuel) : m.appendWalk retval fuel prev head = some none := by
  induction fuel generalizing i p head prev n with
  | zero => omega
  | succ fuel ih =>
    obtain ⟨d, hd⟩ := h.next_ne_none hc
    simp only [appendWalk, hprev, hd]
    by_cases hmet : head = p
    · rw [if_pos hmet]
    · rw [if_neg hmet]
      cases n with
      | zero => exact absurd (h.fast_eq hc hmeet) hmet
      | succ n =>
        rw [show i + (n + 1) = i + 1 + n by omega] at hmeet
        have hnext : m.deref retval (some p) = d := by simp [deref, hd]
        exact ih (h.next hd) hnext hmeet (by omega)

end

/-! ## What is linked -/

/-- The cells `cs` lie behind one another from `obj` on to `v`; nothing but their tails is
changed. -/
structure Linked (m m' : PairMem V) (obj : V) (cs : List V) (v : V) : Prop where
  path : CellPath m'.cdr obj cs v
  nil : m'.nil = m.nil
  car : ∀ q, (m'.pair q).map Prod.fst = (m.pair q).map Prod.fst
  other : ∀ q, q ∉ cs → m'.pair q = m.pair q

/-- The cells of the first lists among `args`: proper lists, without a cell in common. -/
structure ListsBefore (m : PairMem V) (args : List V) (Ds : List (List V)) : Prop where
  lists : List.Forall₂ (fun v D => CellPath m.cdr v D m.nil) (args.take Ds.length) Ds
  nodup : Ds.flatten.Nodup

variable {m' : PairMem V} {obj v cur : V} {args base : List V} {Ds : List (List V)} {cs : List V}

theorem Linked.refl (m : PairMem V) (obj : V) : Linked m m obj [] obj :=
  ⟨.nil obj, rfl, fun _ => rfl, fun _ _ => rfl⟩

theorem Linked.cdr_eq (h : Linked m m' obj cs v) {q : V} (hq : q ∉ cs) : m'.cdr q = m.cdr q := by
  rw [cdr, cdr, h.other q hq]

/-- The slot behind the linked cells refers to the argument that is looked at. -/
theorem Linked.deref (h : Linked m m' obj cs v) : m'.deref obj cs.getLast? = v := by
  have hpath := h.path
  cases cs using List.reverseRecOn with
  | nil =>
    cases hpath
    rfl
  | append_singleton xs q =>
    rw [List.getLast?_concat, PairMem.deref, hpath.last, Option.getD_some]

/-- A list that the walk gets through shares no cell with what is linked, so that it is the list
that it was before. -/
theorem Linked.list (h : Linked m m' obj cs v) (hD : CellPath m'.cdr v D m.nil) :
    CellPath m.cdr v D m.nil ∧ ∀ q ∈ D, q ∉ cs := by
  have hnil : m'.cdr m.nil = none := h.nil ▸ cdr_nil
  have hdis := h.path.disjoint hD hnil
  exact ⟨hD.congr fun q hq => h.cdr_eq (hdis q hq), hdis⟩

theorem ListsBefore.snoc (h : m.ListsBefore args Ds) (hv : args[Ds.length]? = some v)
    (hD : CellPath m.cdr v D m.nil) (hdis : ∀ q ∈ D, q ∉ Ds.flatten) :
    m.ListsBefore args (Ds ++ [D]) where
  lists := by
    obtain ⟨hlt, rfl⟩ := List.getElem?_eq_some_iff.mp hv
    rw [List.length_append, List.length_singleton, List.take_succ_eq_append_getElem hlt]
    exact List.rel_append h.lists (.cons hD .nil)
  nodup := by
    have hnil : m.cdr m.nil = none := cdr_nil
    rw [List.flatten_append, List.flatten_singleton]
    exact h.nodup.append (hD.nodup hnil) fun q hq hqD => hdis q hqD hq

section

variable [DecidableEq V]

theorem Linked.link (h : Linked m m' obj cs v) (hD : CellPath m'.cdr v D m.nil)
    {xs : List V} {q : V} (hlast : cs ++ D = xs ++ [q]) (hq : q ∉ xs) (hpair : m'.pair q ≠ none)
    (cur : V) : Linked m (m'.setCdr q cur) obj (cs ++ D) cur where
  path := by
    have hpath := h.path.append hD
    rw [setCdr_cdr m' hpair, hlast]
    rw [hlast] at hpath
    exact hpath.setLast hq cur
  nil := h.nil
  car x := by rw [setCdr_car, h.car]
  other x hx := by
    have hne : x ≠ q := by
      rintro rfl
      exact hx (hlast ▸ List.mem_append_right xs List.mem_cons_self)
    rw [setCdr_pair, if_neg hne]
    exact h.other x fun hcs => hx (List.mem_append_left D hcs)

/-- What the append leaves behind: the first lists linked on to the argument `v` behind them. They
are all but the last argument, or `v` is not a list or shares a cell with them. -/
structure AppendEnds (m m' : PairMem V) (obj : V) (base : List V) (Ds : List (List V)) (v : V)
    (ok : Bool) : Prop where
  lists : m.ListsBefore (obj :: base) Ds
  next : (obj :: base)[Ds.length]? = some v
  linked : m.Linked m' obj Ds.flatten v
  done : ok = true → Ds.length = base.length
  refused : ok = false → Ds.length < base.length ∧
    ¬∃ D, CellPath m.cdr v D m.nil ∧ ∀ q ∈ D, q ∉ Ds.flatten

/-- The walk ends or goes round in a circle, and gets through exactly the lists. -/
theorem appendWalk_eq (h : Linked m m' obj cs v) (hprev : m'.deref retval prev = v) :
    ∃ N, (∃ D, CellPath m'.cdr v D m.nil ∧ m'.deref retval (D.getLast?.or prev) = m.nil ∧
        ∀ fuel, N < fuel → m'.appendWalk retval fuel prev (m'.getInitialFastValue v) =
          some (some (D.getLast?.or prev))) ∨
      (¬∃ D, CellPath m.cdr v D m.nil ∧ ∀ q ∈ D, q ∉ cs) ∧ ∃ r,
        (∀ p, r = some p → m'.deref retval p ≠ m.nil) ∧
        ∀ fuel, N < fuel → m'.appendWalk retval fuel prev (m'.getInitialFastValue v) = some r := by
  have hinit := Pointers.initial m' v
  have hback : ∀ D, CellPath m.cdr v D m.nil → (∀ q ∈ D, q ∉ cs) → CellPath m'.cdr v D m.nil :=
    fun D hD hdis => hD.congr fun q hq => (h.cdr_eq (hdis q hq)).symm
  have hnil : m'.cdr m.nil = none := h.nil ▸ cdr_nil
  by_cases hend : ∃ k, iterAt m'.cdr v k = none
  · obtain ⟨k, hk⟩ := hend
    obtain ⟨n, e, hchain⟩ := endsIn_of_iterAt hk
    obtain ⟨D, rfl, hD, he⟩ := CellPath.of_endsIn hchain
    have hwalk := appendWalk_path hinit hprev hD he
    by_cases hen : e = m.nil
    · subst hen
      exact ⟨D.length, .inl ⟨D, hD, (hwalk _ (Nat.lt_succ_self _)).2, fun fuel hf => (hwalk fuel hf).1⟩⟩
    · refine ⟨D.length, .inr ⟨?_, some (D.getLast?.or prev), ?_, fun fuel hf => (hwalk fuel hf).1⟩⟩
      · rintro ⟨D', hD', hdis⟩
        exact hen (hD.unique (hback D' hD' hdis) he hnil).2
      · rintro p hp
        rw [← Option.some.inj hp, (hwalk _ (Nat.lt_succ_self _)).2]
        exact hen
  · have hendless : ∀ k, iterAt m'.cdr v k ≠ none := fun k hk => hend ⟨k, hk⟩
    obtain ⟨n, hmeet⟩ := (runsInCircle_of_iterAt m'.finite_cdr hendless).meets
    refine ⟨n, .inr ⟨?_, none, nofun, fun fuel hf => ?_⟩⟩
    · rintro ⟨D, hD, hdis⟩
      exact hendless _ ((hback D hD hdis).endsIn hnil).iterAt_eq_none
    · exact appendWalk_circular hinit hprev hendless (by rwa [Nat.zero_add]) fuel hf

/-- Round for round the lists before are linked on to the argument that comes next. -/
theorem pairAppendLoop_eq (hobj : m.pair obj ≠ none) (rest : List V) (m' : PairMem V)
    (Ds : List (List V)) (v : V) (hlists : m.ListsBefore (obj :: base) Ds)
    (hrest : (obj :: base).drop Ds.length = v :: rest) (hlinked : m.Linked m' obj Ds.flatten v) :
    ∃ N Ds' v' m'' ok, m.AppendEnds m'' obj base Ds' v' ok ∧ ∀ fuel, N < fuel →
      pairAppendLoop fuel m' obj Ds.flatten.getLast? rest = some (ok, m'') := by
  induction rest generalizing m' Ds v with
  | nil =>
    have hv : (obj :: base)[Ds.length]? = some v := by rw [← List.head?_drop, hrest, List.head?_cons]
    have hlen : Ds.length = base.length := by
      have hdrop := congrArg List.length hrest
      simp only [List.length_drop, List.length_cons, List.length_nil] at hdrop
      omega
    refine ⟨0, Ds, v, m', true, ⟨hlists, hv, hlinked, fun _ => hlen, nofun⟩, ?_⟩
    intro fuel _
    rfl
  | cons cur rest ih =>
    have hv : (obj :: base)[Ds.length]? = some v := by rw [← List.head?_drop, hrest, List.head?_cons]
    have hlen : Ds.length < base.length := by
      have hdrop := congrArg List.length hrest
      simp only [List.length_drop, List.length_cons] at hdrop
      omega
    obtain ⟨N, hwalk⟩ := appendWalk_eq hlinked hlinked.deref
    rcases hwalk with ⟨D, hD, hend, hrun⟩ | ⟨hno, r, hr, hrun⟩
    · obtain ⟨hDm, hdis⟩ := hlinked.list hD
      have hlists' := hlists.snoc hv hDm hdis
      have hflat : (Ds ++ [D]).flatten = Ds.flatten ++ D := by simp
      obtain ⟨xs, q, hlast⟩ : ∃ xs q, Ds.flatten ++ D = xs ++ [q] := by
        cases hcs : Ds.flatten ++ D using List.reverseRecOn with
        | append_singleton xs q => exact ⟨xs, q, rfl⟩
        | nil =>
          -- the first list has a cell, as `obj` is a pair
          obtain ⟨hC, rfl⟩ := List.append_eq_nil_iff.mp hcs
          have hpath := hlinked.path
          rw [hC] at hpath
          cases hpath
          cases hDm
          exact absurd m.pair_nil hobj
      have hnodup := hlists'.nodup
      rw [hflat, hlast, List.nodup_append] at hnodup
      have hq : q ∉ xs := fun hmem => hnodup.2.2 q hmem q List.mem_cons_self rfl
      have hpair : m'.pair q ≠ none := by
        have hcdr := (hlast ▸ hlinked.path.append hD).last
        intro hnone
        cases hcdr.symm.trans (cdr_eq_none.mpr hnone)
      have hslot : D.getLast?.or Ds.flatten.getLast? = some q := by
        rw [← List.getLast?_append, hlast, List.getLast?_concat]
      have hlinked' := hlinked.link hD hlast hq hpair cur
      obtain ⟨N', Ds', v', m'', ok, hends, hloop⟩ := ih (m'.setCdr q cur) (Ds ++ [D]) cur hlists'
        (by rw [List.length_append, List.length_singleton, ← List.drop_drop, hrest]; rfl)
        (hflat ▸ hlinked')
      refine ⟨max N N', Ds', v', m'', ok, hends, ?_⟩
      intro fuel hf
      have hgo := hloop fuel (by omega)
      rw [hflat, hlast, List.getLast?_concat] at hgo
      rw [pairAppendLoop, hlinked.deref, hrun fuel (by omega), hslot]
      rw [hslot] at hend
      simpa [hend, hlinked.nil] using hgo
    · refine ⟨N, Ds, v, m', false, ⟨hlists, hv, hlinked, nofun, fun _ => ⟨hlen, hno⟩⟩, ?_⟩
      intro fuel hf
      rw [pairAppendLoop, hlinked.deref, hrun fuel hf]
      cases r with
      | none => rfl
      | some p => simp [hlinked.nil, hr p rfl]

/-- The lists before the first argument that is refused are linked, all but the last one where none
is; what is returned tells the two apart. -/
theorem fklAppendVMvalue1_links (ud : UserdataAppend V) (m : PairMem V) (obj : V) (base : List V)
    (hobj : m.pair obj ≠ none) : ∃ N Ds v m' ok, m.AppendEnds m' obj base Ds v ok ∧
      ∀ fuel, N < fuel → m.fklAppendVMvalue1 ud fuel obj base =
        some (if ok then some obj else none, m') := by
  obtain ⟨N, Ds, v, m', ok, hends, hloop⟩ := pairAppendLoop_eq hobj base m [] obj
    ⟨.nil, List.nodup_nil⟩ rfl (Linked.refl m obj)
  refine ⟨N, Ds, v, m', ok, hends, ?_⟩
  intro fuel hf
  rw [fklAppendVMvalue1, if_pos hobj, pairAppend]
  by_cases hbase : base = []
  · subst hbase
    have hrun := hloop fuel hf
    cases hrun
    rfl
  · rw [if_pos hbase]
    have hrun := hloop fuel hf
    rw [List.flatten_nil, List.getLast?_nil] at hrun
    rw [hrun]
    rfl

end

/-- A heap with the one-cell list at 1; 0 is nil, and every other value is an atom. -/
def oneCell : PairMem Nat where
  pair v := if v = 1 then some (9, 0) else none
  nil := 0
  pair_nil := rfl
  finite := Set.Finite.subset (Set.finite_singleton 1) fun v hv => by
    by_contra hne
    exact hv (if_neg hne)

theorem fklAppendVMvalue1_links_atom :
    ∃ N Ds v m' ok, oneCell.AppendEnds m' 1 [9, 0] Ds v ok ∧ ∀ fuel, N < fuel →
      oneCell.fklAppendVMvalue1 ⟨fun _ => false, fun _ => none⟩ fuel 1 [9, 0] =
        some (if ok then some 1 else none, m') :=
  fklAppendVMvalue1_links _ oneCell 1 [9, 0] (by decide)

/-- The atom 9 is refused when the list at 1 already refers to it. -/
theorem fklAppendVMvalue1_changed : ∃ m',
    oneCell.fklAppendVMvalue1 ⟨fun _ => false, fun _ => none⟩ 2 1 [9, 0] = some (none, m') ∧
      oneCell.cdr 1 = some 0 ∧ m'.cdr 1 = some 9 :=
  ⟨oneCell.setCdr 1 9, rfl, rfl, rfl⟩

end PairMem

end FakeLisp
