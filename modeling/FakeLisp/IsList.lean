import FakeLisp.FollowChain

/-! Whether a value is a list. Two pointers walk over its pairs, and where the tails go round in a
circle the faster one meets the slower one. -/

namespace FakeLisp

/-- The pairs of a heap: finitely many. -/
structure PairMem (V : Type) where
  pair : V → Option (V × V)
  nil : V
  pair_nil : pair nil = none
  finite : Finite {v // pair v ≠ none}

variable {V : Type}

namespace PairMem

variable (m : PairMem V)

/-- `FKL_VM_CDR` of a pair. -/
def cdr (v : V) : Option V := (m.pair v).map Prod.snd

def getInitialFastValue (pr : V) : V := (m.cdr pr).getD m.nil

def getFastValue (head : V) : V :=
  ((m.cdr head).bind fun d => (m.cdr d).bind fun dd =>
    if m.pair dd ≠ none then some dd else none).getD m.nil

variable {m} {p q d e : V} {i n : Nat}

theorem cdr_eq_none : m.cdr p = none ↔ m.pair p = none := Option.map_eq_none_iff

theorem cdr_nil : m.cdr m.nil = none := cdr_eq_none.mpr m.pair_nil

theorem finite_cdr (m : PairMem V) : Finite {v // m.cdr v ≠ none} := by
  have hiff : ∀ v, m.pair v ≠ none ↔ m.cdr v ≠ none := fun v => not_congr cdr_eq_none.symm
  have := m.finite
  exact Finite.of_equiv _ (Equiv.subtypeEquivRight hiff)

section

variable [DecidableEq V] (m)

def isListLoop : Nat → V → V → Option Bool
  | 0, _, _ => none
  | fuel + 1, p, fast =>
    match m.cdr p with
    | some d => if fast = p then some false else isListLoop fuel d (m.getFastValue fast)
    | none => some (p = m.nil)

def fklIsList (fuel : Nat) (p : V) : Option Bool := m.isListLoop fuel p (m.getInitialFastValue p)

def isList2Loop : Nat → V → V → Nat → Option (Option Nat)
  | 0, _, _, _ => none
  | fuel + 1, p, fast, len =>
    match m.cdr p with
    | some d => if fast = p then some none else isList2Loop fuel d (m.getFastValue fast) (len + 1)
    | none => some (if p = m.nil then some len else none)

/-- The length that it stores where it returns 1. -/
def fklIsList2 (fuel : Nat) (p : V) : Option (Option Nat) :=
  m.isList2Loop fuel p (m.getInitialFastValue p) 0

end

theorem getFastValue_eq (h : iterAt m.cdr p 2 = some q) (hq : m.cdr q ≠ none) :
    m.getFastValue p = q := by
  obtain ⟨d, hd, hdq⟩ := Option.bind_eq_some_iff.mp h
  rw [iterAt, iterAt, Option.bind_some] at hd
  have hpair : m.pair q ≠ none := fun hnone => hq (cdr_eq_none.mpr hnone)
  simp [getFastValue, hd, hdq, hpair]

theorem getFastValue_eq_nil (h : iterAt m.cdr p 3 = none) : m.getFastValue p = m.nil := by
  unfold getFastValue
  cases hd : m.cdr p with
  | none => rfl
  | some d =>
    cases hdd : m.cdr d with
    | none => simp [hdd]
    | some q =>
      have hq : m.pair q = none := by
        rw [iterAt_succ hd, iterAt_succ hdd, iterAt, iterAt, Option.bind_some] at h
        exact cdr_eq_none.mp h
      simp [hdd, hq]

/-- The slow pointer of the `i`th round is the `i`th tail, the fast one the one behind twice as many
and one, unless the tails end before. -/
structure Pointers (m : PairMem V) (p₀ : V) (i : Nat) (p fast : V) : Prop where
  slow : iterAt m.cdr p₀ i = some p
  fast : iterAt m.cdr p₀ (2 * i + 1) = some fast ∨ m.cdr fast = none ∧ ∃ k, iterAt m.cdr p₀ k = none

theorem Pointers.initial (m : PairMem V) (p : V) : Pointers m p 0 p (m.getInitialFastValue p) := by
  refine ⟨rfl, ?_⟩
  have hone : iterAt m.cdr p 1 = m.cdr p := rfl
  cases h : m.cdr p with
  | none => exact Or.inr ⟨by rw [getInitialFastValue, h]; exact cdr_nil, 1, hone.trans h⟩
  | some d => exact Or.inl (by rw [getInitialFastValue, h, hone, h]; rfl)

theorem Pointers.next {p₀ fast : V} (h : Pointers m p₀ i p fast) (hp : m.cdr p = some d) :
    Pointers m p₀ (i + 1) d (m.getFastValue fast) := by
  have hslow : iterAt m.cdr p₀ (i + 1) = some d := by rw [iterAt, h.slow, Option.bind_some, hp]
  refine ⟨hslow, ?_⟩
  rcases h.fast with hfast | ⟨hfast, hend⟩
  · have hahead : ∀ j, iterAt m.cdr p₀ (2 * i + 1 + j) = iterAt m.cdr fast j := fun j => iterAt_add hfast
    cases hthree : iterAt m.cdr fast 3 with
    | none =>
      rw [getFastValue_eq_nil hthree]
      exact Or.inr ⟨cdr_nil, 2 * i + 1 + 3, (hahead 3).trans hthree⟩
    | some r =>
      obtain ⟨q, htwo, hq⟩ := Option.bind_eq_some_iff.mp hthree
      rw [getFastValue_eq htwo (by rw [hq]; exact Option.some_ne_none r)]
      exact Or.inl ((hahead 2).trans htwo)
  · have hnone : iterAt m.cdr fast 3 = none :=
      iterAt_none (show iterAt m.cdr fast 1 = none from hfast) (by omega)
    rw [getFastValue_eq_nil hnone]
    exact Or.inr ⟨cdr_nil, hend⟩

/-- On a chain that ends the fast pointer stays ahead. -/
theorem Pointers.fast_ne {p₀ fast : V} (h : Pointers m p₀ i p fast) (hp : m.cdr p = some d)
    (hd : EndsIn m.cdr d n e) : fast ≠ p := by
  rintro rfl
  rcases h.fast with hfast | ⟨hfast, -⟩
  · have hcircle : iterAt m.cdr fast (i + 1) = some fast := by
      rw [← iterAt_add h.slow, ← hfast]
      congr 1
      omega
    exact (EndsIn.next fast d e n hp hd).not_back (Nat.succ_pos i) hcircle
  · cases hfast.symm.trans hp

/-- In a circle the pointers are the same in the round where the tails they stand for are. -/
theorem Pointers.fast_eq {p₀ fast : V} (h : Pointers m p₀ i p fast)
    (hc : ∀ k, iterAt m.cdr p₀ k ≠ none) (hmeet : iterAt m.cdr p₀ i = iterAt m.cdr p₀ (2 * i + 1)) :
    fast = p := by
  rcases h.fast with hfast | ⟨-, k, hk⟩
  · rw [h.slow, hfast] at hmeet
    exact (Option.some.inj hmeet).symm
  · exact absurd hk (hc k)

theorem Pointers.next_ne_none {p₀ fast : V} (h : Pointers m p₀ i p fast)
    (hc : ∀ k, iterAt m.cdr p₀ k ≠ none) : ∃ d, m.cdr p = some d := by
  have hnext := hc (i + 1)
  rw [iterAt, h.slow, Option.bind_some] at hnext
  exact Option.ne_none_iff_exists'.mp hnext

section

variable [DecidableEq V]

/-- What the functions return for a chain of `n` pairs that ends with `e`. -/
def listLength (m : PairMem V) (n : Nat) (e : V) : Option Nat := if e = m.nil then some n else none

theorem isList2Loop_chain {p₀ fast : V} (h : Pointers m p₀ i p fast) (hc : EndsIn m.cdr p n e)
    (len fuel : Nat) (hfuel : n < fuel) :
    m.isList2Loop fuel p fast len = some (m.listLength (len + n) e) := by
  induction hc generalizing i fast len fuel with
  | last v hv =>
    obtain ⟨fuel, rfl⟩ := Nat.exists_eq_succ_of_ne_zero (Nat.ne_of_gt hfuel)
    simp only [isList2Loop, hv]
    rfl
  | next v d e n hv hd ih =>
    obtain ⟨fuel, rfl⟩ := Nat.exists_eq_succ_of_ne_zero (Nat.ne_of_gt (Nat.zero_lt_of_lt hfuel))
    simp only [isList2Loop, hv, if_neg (h.fast_ne hv hd)]
    rw [ih (h.next hv) (len + 1) fuel (by omega)]
    congr 2
    omega

/-- From the round on where the fast pointer is the slow one, if not before, the loop is over. -/
theorem isList2Loop_circular {p₀ fast : V} {len : Nat} (h : Pointers m p₀ i p fast)
    (hc : ∀ k, iterAt m.cdr p₀ k ≠ none) (hmeet : iterAt m.cdr p₀ (i + n) = iterAt m.cdr p₀ (2 * (i + n) + 1))
    (fuel : Nat) (hfuel : n < fuel) : m.isList2Loop fuel p fast len = some none := by
  induction fuel generalizing i p fast len n with
  | zero => omega
  | succ fuel ih =>
    obtain ⟨d, hd⟩ := h.next_ne_none hc
    simp only [isList2Loop, hd]
    by_cases hmet : fast = p
    · rw [if_pos hmet]
    · rw [if_neg hmet]
      cases n with
      | zero => exact absurd (h.fast_eq hc hmeet) hmet
      | succ n =>
        rw [show i + (n + 1) = i + 1 + n by omega] at hmeet
        exact ih (h.next hd) hmeet (by omega)

theorem fklIsList2_eq (m : PairMem V) (p : V) :
    ∃ n r, (∀ fuel, n < fuel → m.fklIsList2 fuel p = some r) ∧
      ∀ len, r = some len ↔ EndsIn m.cdr p len m.nil := by
  by_cases hend : ∃ k, iterAt m.cdr p k = none
  · obtain ⟨k, hk⟩ := hend
    obtain ⟨n, e, hchain⟩ := endsIn_of_iterAt hk
    refine ⟨n, m.listLength n e, ?_, ?_⟩
    · intro fuel hfuel
      have hloop := isList2Loop_chain (Pointers.initial m p) hchain 0 fuel hfuel
      rwa [Nat.zero_add] at hloop
    · intro len
      constructor
      · intro hlen
        obtain ⟨he, hn⟩ := Option.ite_none_right_eq_some.mp hlen
        obtain rfl := Option.some.inj hn
        exact he ▸ hchain
      · intro hnil
        obtain ⟨rfl, rfl⟩ := hchain.unique hnil
        exact if_pos rfl
  · have hendless : ∀ k, iterAt m.cdr p k ≠ none := fun k hk => hend ⟨k, hk⟩
    obtain ⟨n, hmeet⟩ := (runsInCircle_of_iterAt m.finite_cdr hendless).meets
    refine ⟨n, none, ?_, ?_⟩
    · intro fuel hfuel
      exact isList2Loop_circular (Pointers.initial m p) hendless
        (by rwa [Nat.zero_add]) fuel hfuel
    · intro len
      constructor
      · intro hlen
        cases hlen
      · intro hchain
        exact absurd hchain.iterAt_eq_none (hendless (len + 1))

theorem isListLoop_eq (fuel : Nat) (p fast : V) (len : Nat) :
    m.isListLoop fuel p fast = (m.isList2Loop fuel p fast len).map Option.isSome := by
  induction fuel generalizing p fast len with
  | zero => rfl
  | succ fuel ih =>
    unfold isListLoop isList2Loop
    cases m.cdr p with
    | none => by_cases hp : p = m.nil <;> simp [hp]
    | some d =>
      by_cases hmet : fast = p
      · simp [hmet]
      · simp [hmet, ih d (m.getFastValue fast) (len + 1)]

/-- Both functions return, and say of exactly the chains of pairs that end with nil that they are
lists; the second one counts the pairs. -/
theorem fklIsList_fklIsList2_eq (m : PairMem V) (p : V) :
    ∃ n r, (∀ fuel, n < fuel →
        m.fklIsList fuel p = some r.isSome ∧ m.fklIsList2 fuel p = some r) ∧
      ∀ len, r = some len ↔ EndsIn m.cdr p len m.nil := by
  obtain ⟨n, r, hrun, hr⟩ := m.fklIsList2_eq p
  refine ⟨n, r, ?_, hr⟩
  intro fuel hfuel
  have hrun2 := hrun fuel hfuel
  refine ⟨?_, hrun2⟩
  rw [fklIsList2] at hrun2
  rw [fklIsList, isListLoop_eq fuel p _ 0, hrun2]
  rfl

end

end PairMem

end FakeLisp
