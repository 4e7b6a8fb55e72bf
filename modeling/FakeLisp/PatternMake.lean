import FakeLisp.PatternCover

/-! Patterns made from their syntax. The walk holds pointers to the places that are still to be
visited and writes slots and wildcards there; it finds what a recursion along the pairs finds. -/

namespace FakeLisp

/-- From a pair to its `car` or its `cdr`. -/
inductive PairStep where
  | car
  | cdr
  deriving DecidableEq

abbrev NastPlace := List PairStep

namespace Nast

/-- `*c`, for a place that is reached along pairs -/
def at? : NastPlace → Nast → Option Nast
  | [], n => some n
  | .car :: c, .pair a _ => at? c a
  | .cdr :: c, .pair _ d => at? c d
  | _ :: _, _ => none

/-- `*c = v` -/
def put (v : Nast) : NastPlace → Nast → Nast
  | [], _ => v
  | .car :: c, .pair a d => .pair (put v c a) d
  | .cdr :: c, .pair a d => .pair a (put v c d)
  | _ :: _, n => n

def cdr : Nast → Nast
  | .pair _ d => d
  | n => n

/-- The symbol of `(s symbol)`. -/
def isPatternSlot (s : List UInt8) : Nast → Option (List UInt8)
  | .pair (.atom (.sym s')) (.pair (.atom (.sym symbol)) (.atom .nil)) =>
    if s' = s then some symbol else none
  | _ => none

/-- The symbol of `(s (s symbol))`. -/
def isPatternSlotExpandAll (s : List UInt8) : Nast → Option (List UInt8)
  | .pair car (.pair rest (.atom .nil)) => if isSymbol s car then isPatternSlot s rest else none
  | _ => none

/-- The branches on what a slot is made of. -/
def slotSymbol (slotId : List UInt8) : Nast → Option (List UInt8 × FklPmatchExpandType)
  | .atom (.sym s) => some (s, .none)
  | sym =>
    match isPatternSlot slotId sym with
    | some s => some (s, .once)
    | none => (isPatternSlotExpandAll slotId sym).map fun s => (s, .all)

/-- `_` -/
def underscore : NastAtom := .sym [95]

/-- The slot for `(slotId . rest)` and the table with its symbol, or an error. A new slot is an
object at an address that was not used before. -/
def makeSlot (base : Nat) (slotId : List UInt8) (symbolTable : List (List UInt8)) :
    Nast → Option (Nast × List (List UInt8))
  | .pair sym (.atom .nil) =>
    match slotSymbol slotId sym with
    | some (s, expand) =>
      if s ∈ symbolTable then none
      else some (.slot (base + symbolTable.length) s expand, symbolTable ++ [s])
    | none => none
  | _ => none

/-- The loop of `do_ast_to_pattern`. The stack has the places with what they hold. -/
def astToPatternLoop (base : Nat) (slotId : List UInt8) :
    List (NastPlace × Nast) → Nast → List (List UInt8) → Option (Nast × List (List UInt8))
  | [], exp, symbolTable => some (exp, symbolTable)
  | (c, .atom cur) :: stack, exp, symbolTable =>
    astToPatternLoop base slotId stack (if cur = underscore then put .header c exp else exp)
      symbolTable
  | (c, .pair car cdr) :: stack, exp, symbolTable =>
    if !isSymbol slotId car then
      astToPatternLoop base slotId ((c ++ [.car], car) :: (c ++ [.cdr], cdr) :: stack) exp
        symbolTable
    else
      match makeSlot base slotId symbolTable cdr with
      | some (made, symbolTable) => astToPatternLoop base slotId stack (put made c exp) symbolTable
      | none => none
  | _ :: stack, exp, symbolTable => astToPatternLoop base slotId stack exp symbolTable
termination_by stack => (stack.map fun c => c.2.spine).sum
decreasing_by all_goals simp [spine]; try omega

/-- The pattern, and the symbols of its slots in the order in which they were registered. -/
def doAstToPattern (base : Nat) : Nast → Option (Nast × List (List UInt8))
  | .pair (.atom (.sym slotId)) (.pair (.pair (.atom (.sym name)) rest) (.atom .nil)) =>
    astToPatternLoop base slotId [([.cdr], rest)] (.pair (.atom (.sym name)) rest) []
  | _ => none

mutual

/-- Syntax has neither slots nor wildcards. -/
def isSyntax : Nast → Bool
  | .atom _ => true
  | .slot .. => false
  | .header => false
  | .pair a d => isSyntax a && isSyntax d
  | .block _ es => elemsAreSyntax es

def elemsAreSyntax : List Nast → Bool
  | [] => true
  | e :: es => isSyntax e && elemsAreSyntax es

end

/-- The symbols of the slots, from left to right. -/
def slots : Nast → List (List UInt8)
  | .slot _ s _ => [s]
  | .pair a d => slots a ++ slots d
  | _ => []

/-- Below a vector, a box or a hash table there is only syntax. -/
def blocksAreSyntax : Nast → Bool
  | .pair a d => blocksAreSyntax a && blocksAreSyntax d
  | .block _ es => elemsAreSyntax es
  | _ => true

theorem blocksAreSyntax_of_isSyntax {n : Nast} (h : isSyntax n = true) :
    blocksAreSyntax n = true := by
  induction n using blocksAreSyntax.induct with
  | case1 a d iha ihd =>
    rw [isSyntax, Bool.and_eq_true] at h
    rw [blocksAreSyntax, iha h.1, ihd h.2]
    rfl
  | case2 k es => rwa [isSyntax] at h
  | case3 n hpair hblock => cases n <;> simp_all [blocksAreSyntax]

/-! Places. -/

variable {n m : Nast} {c c' : NastPlace}

theorem at?_append (h : n.at? c = some m) : n.at? (c ++ c') = m.at? c' := by
  induction c, n using at?.induct with
  | case1 n => obtain rfl := Option.some.inj h; rfl
  | case2 c a d ih => exact ih h
  | case3 c a d ih => exact ih h
  | case4 s c n ha hd => cases n <;> cases s <;> simp_all [at?]

theorem put_append (v : Nast) (h : n.at? c = some m) :
    put v (c ++ c') n = put (put v c' m) c n := by
  induction c, n using at?.induct with
  | case1 n => obtain rfl := Option.some.inj h; rfl
  | case2 c a d ih => exact congrArg (Nast.pair · d) (ih h)
  | case3 c a d ih => exact congrArg (Nast.pair a) (ih h)
  | case4 s c n ha hd => cases n <;> cases s <;> simp_all [at?]

theorem at?_put (v : Nast) (h : n.at? c = some m) : (put v c n).at? c = some v := by
  induction c, n using at?.induct with
  | case1 n => rfl
  | case2 c a d ih => exact ih h
  | case3 c a d ih => exact ih h
  | case4 s c n ha hd => cases n <;> cases s <;> simp_all [at?]

theorem put_put (v w : Nast) (h : n.at? c = some m) : put w c (put v c n) = put w c n := by
  induction c, n using at?.induct with
  | case1 n => rfl
  | case2 c a d ih => exact congrArg (Nast.pair · d) (ih h)
  | case3 c a d ih => exact congrArg (Nast.pair a) (ih h)
  | case4 s c n ha hd => cases n <;> cases s <;> simp_all [at?]

theorem put_self (h : n.at? c = some m) : put m c n = n := by
  induction c, n using at?.induct with
  | case1 n => exact (Option.some.inj h).symm
  | case2 c a d ih => exact congrArg (Nast.pair · d) (ih h)
  | case3 c a d ih => exact congrArg (Nast.pair a) (ih h)
  | case4 s c n ha hd => cases n <;> cases s <;> simp_all [at?]

/-! The walk as a recursion. -/

def toPattern (base : Nat) (slotId : List UInt8) :
    Nast → List (List UInt8) → Option (Nast × List (List UInt8))
  | .atom cur, symbolTable => some (if cur = underscore then .header else .atom cur, symbolTable)
  | .pair car cdr, symbolTable =>
    if !isSymbol slotId car then do
      let (car', symbolTable) ← toPattern base slotId car symbolTable
      let (cdr', symbolTable) ← toPattern base slotId cdr symbolTable
      some (.pair car' cdr', symbolTable)
    else makeSlot base slotId symbolTable cdr
  | n, symbolTable => some (n, symbolTable)

theorem astToPatternLoop_cons (base : Nat) (slotId : List UInt8) (stack : List (NastPlace × Nast))
    (symbolTable : List (List UInt8)) (h : n.at? c = some m) :
    astToPatternLoop base slotId ((c, m) :: stack) n symbolTable =
      (toPattern base slotId m symbolTable).bind fun r =>
        astToPatternLoop base slotId stack (put r.1 c n) r.2 := by
  induction m using spine.induct generalizing n c stack symbolTable with
  | case1 car cdr ihcar ihcdr =>
    rw [astToPatternLoop, toPattern]
    split
    · have hcar : n.at? (c ++ [.car]) = some car := at?_append h
      rw [ihcar _ _ hcar, Option.bind_eq_bind, Option.bind_assoc]
      refine congrArg _ (funext fun ⟨car', symbolTable'⟩ => ?_)
      have hcdr : (put car' (c ++ [.car]) n).at? (c ++ [.cdr]) = some cdr := by
        rw [put_append _ h]
        exact at?_append (at?_put _ h)
      dsimp only
      rw [ihcdr _ _ hcdr, Option.bind_assoc]
      refine congrArg _ (funext fun ⟨cdr', symbolTable''⟩ => ?_)
      dsimp only
      rw [put_append _ h, put_append _ (at?_put _ h), put_put _ _ h]
      rfl
    · cases makeSlot base slotId symbolTable cdr <;> rfl
  | case2 m hm =>
    cases m with
    | pair car cdr => exact absurd rfl (hm car cdr)
    | atom cur =>
      rw [astToPatternLoop, toPattern, Option.bind_some]
      split
      · rfl
      · rw [put_self h]
    | slot => simp [astToPatternLoop, toPattern, put_self h]
    | header => simp [astToPatternLoop, toPattern, put_self h]
    | block => simp [astToPatternLoop, toPattern, put_self h]

theorem doAstToPattern_some {base : Nat} {node p : Nast} {symbolTable : List (List UInt8)}
    (h : doAstToPattern base node = some (p, symbolTable)) :
    ∃ slotId name rest rest', node = .pair (.atom (.sym slotId))
        (.pair (.pair (.atom (.sym name)) rest) (.atom .nil)) ∧
      p = .pair (.atom (.sym name)) rest' ∧
      toPattern base slotId rest [] = some (rest', symbolTable) := by
  unfold doAstToPattern at h
  split at h
  · rename_i slotId name rest
    rw [astToPatternLoop_cons base slotId [] [] rfl] at h
    obtain ⟨r, hr, h⟩ := Option.bind_eq_some_iff.mp h
    rw [astToPatternLoop] at h
    obtain ⟨rfl, rfl⟩ := Prod.mk.inj (Option.some.inj h)
    exact ⟨slotId, name, rest, r.1, rfl, rfl, hr⟩
  · cases h

/-! What the walk makes of syntax. -/

variable {base : Nat} {slotId : List UInt8} {symbolTable symbolTable' : List (List UInt8)}

theorem makeSlot_some (h : makeSlot base slotId symbolTable n = some (m, symbolTable')) :
    ∃ addr s expand, m = .slot addr s expand ∧ s ∉ symbolTable ∧
      symbolTable' = symbolTable ++ [s] := by
  unfold makeSlot at h
  split at h
  · split at h
    · rename_i s expand _
      by_cases hs : s ∈ symbolTable
      · rw [if_pos hs] at h
        cases h
      · rw [if_neg hs] at h
        obtain ⟨rfl, rfl⟩ := Prod.mk.inj (Option.some.inj h)
        exact ⟨_, s, expand, rfl, hs, rfl⟩
    · cases h
  · cases h

/-- Each slot is registered when it is made, and only once. -/
theorem toPattern_slots (hn : isSyntax n = true) (hnodup : symbolTable.Nodup)
    (h : toPattern base slotId n symbolTable = some (m, symbolTable')) :
    symbolTable' = symbolTable ++ m.slots ∧ symbolTable'.Nodup ∧ blocksAreSyntax m = true := by
  induction n using spine.induct generalizing m symbolTable symbolTable' with
  | case1 car cdr ihcar ihcdr =>
    rw [isSyntax, Bool.and_eq_true] at hn
    rw [toPattern] at h
    split at h
    · obtain ⟨⟨car', mid⟩, hcar, h⟩ := Option.bind_eq_some_iff.mp h
      obtain ⟨⟨cdr', last⟩, hcdr, h⟩ := Option.bind_eq_some_iff.mp h
      obtain ⟨rfl, rfl⟩ := Prod.mk.inj (Option.some.inj h)
      obtain ⟨rfl, hmid, hbcar⟩ := ihcar hn.1 hnodup hcar
      obtain ⟨rfl, hlast, hbcdr⟩ := ihcdr hn.2 hmid hcdr
      refine ⟨by rw [slots, List.append_assoc], hlast, ?_⟩
      rw [blocksAreSyntax, hbcar, hbcdr]
      rfl
    · obtain ⟨addr, s, expand, rfl, hs, rfl⟩ := makeSlot_some h
      refine ⟨rfl, ?_, rfl⟩
      rw [List.nodup_append]
      exact ⟨hnodup, List.nodup_singleton s, by rintro x hx y hy rfl; simp_all⟩
  | case2 n hpair =>
    cases n with
    | pair car cdr => exact absurd rfl (hpair car cdr)
    | atom cur =>
      rw [toPattern] at h
      obtain ⟨rfl, rfl⟩ := Prod.mk.inj (Option.some.inj h)
      split <;> exact ⟨(List.append_nil _).symm, hnodup, rfl⟩
    | slot => cases hn
    | header => cases hn
    | block kind elems =>
      rw [toPattern] at h
      · obtain ⟨rfl, rfl⟩ := Prod.mk.inj (Option.some.inj h)
        exact ⟨(List.append_nil _).symm, hnodup, blocksAreSyntax_of_isSyntax hn⟩
      · simp
      · simp

end Nast

end FakeLisp
