import FakeLisp.Grammer

/-! Items of the analysis table: a production with a place in it. They are compared for sorting by
the addresses of what they hold. -/

namespace FakeLisp

structure FklLalrItem where
  prod : FklGrammerProduction
  idx : Nat
  la : FklLalrItemLookAhead
  deriving DecidableEq

/-- The parts that follow a composite terminal. -/
def FklGrammerSym.compLen : FklGrammerSym → Nat
  | .comp parts => parts.length
  | _ => 0

namespace FklLalrItem

/-- `lalr_item_init` without a lookahead -/
def init (prod : FklGrammerProduction) (idx : Nat) : FklLalrItem := ⟨prod, idx, .none⟩

def isAtDelimSym (item : FklLalrItem) : Bool :=
  item.prod.syms[item.idx]? = some .ignore ∧ item.idx < item.prod.syms.length - 1

def getItemNext (item : FklLalrItem) : Option FklGrammerSym :=
  if item.idx ≥ item.prod.syms.length then none
  else if item.isAtDelimSym then item.prod.syms[item.idx + 1]?
  else item.prod.syms[item.idx]?

def getItemAdvance (item : FklLalrItem) : FklLalrItem :=
  match item.getItemNext with
  | none => { item with idx := item.idx + 1 }
  | some s => { item with idx := item.idx + ((if item.isAtDelimSym then 2 else 1) + s.compLen) }

end FklLalrItem

/-! The comparison. -/

def natCmp (a b : Nat) : Int := if a < b then -1 else if a > b then 1 else 0

/-- `strcmp` -/
def fklStringCmp : List UInt8 → List UInt8 → Int
  | [], [] => 0
  | [], b :: _ => if b = 0 then 0 else -1
  | a :: _, [] => if a = 0 then 0 else 1
  | a :: as, b :: bs =>
    if a < b then -1 else if a > b then 1 else if a = 0 then 0 else fklStringCmp as bs

def argsCmp : List (List UInt8) → List (List UInt8) → Int
  | a :: as, b :: bs => if fklStringCmp a b ≠ 0 then fklStringCmp a b else argsCmp as bs
  | _, _ => 0

def builtinGrammerSymCmp (b0 b1 : FklLalrBuiltinGrammerSym) : Int :=
  if b0.args.length > b1.args.length then 1
  else if b0.args.length < b1.args.length then -1
  else argsCmp b0.args b1.args

def nontermGt (nt0 nt1 : Nat) : Bool := nt0 > nt1

def nontermLt (nt0 nt1 : Nat) : Bool := nt0 > nt1

/-- The type of a symbol as a number. -/
def FklGrammerSym.type : FklGrammerSym → Nat
  | .keyword _ => 1
  | .string _ => 2
  | .regex _ => 3
  | .builtin _ => 4
  | .ignore => 5
  | .nonterm _ => 7
  | .comp _ => 8

/-- What the union holds where a nonterminal is looked for. -/
def FklGrammerSym.nt : FklGrammerSym → Nat
  | .keyword str => str
  | .string str => str
  | .nonterm nt => nt
  | _ => 0

def grammerSymCmp (s0 s1 : FklGrammerSym) : Int :=
  if s0.type < s1.type then -1
  else if s0.type > s1.type then 1
  else
    match s0, s1 with
    | .builtin b0, .builtin b1 =>
      if b0.t < b1.t then -1 else if b0.t > b1.t then 1 else builtinGrammerSymCmp b0 b1
    | .regex re0, .regex re1 => natCmp re0 re1
    | .comp parts0, .comp parts1 => natCmp parts0.length parts1.length
    | s0, s1 => if nontermLt s0.nt s1.nt then -1 else if nontermGt s0.nt s1.nt then 1 else 0

/-- The first symbols that differ. -/
def grammerSymsCmp : List FklGrammerSym → List FklGrammerSym → Int
  | s0 :: syms0, s1 :: syms1 =>
    if grammerSymCmp s0 s1 ≠ 0 then grammerSymCmp s0 s1 else grammerSymsCmp syms0 syms1
  | _, _ => 0

def FklLalrItemLookAhead.t : FklLalrItemLookAhead → Nat
  | .none => 0
  | .keyword _ => 1
  | .string _ => 2
  | .regex _ => 3
  | .builtin _ => 4
  | .ignore => 5
  | .eof => 6
  | .comp _ => 8

namespace FklGrammer

variable (g : FklGrammer)

def lalrLookaheadCmp (la0 la1 : FklLalrItemLookAhead) : Int :=
  match la0, la1 with
  | .ignore, .ignore | .none, .none | .eof, .eof => 0
  | .builtin b0, .builtin b1 =>
    if b0.t ≠ b1.t then natCmp b0.t b1.t else builtinGrammerSymCmp b0 b1
  | .comp parts0, .comp parts1 =>
    if parts0.length ≠ parts1.length then natCmp parts0.length parts1.length
    else grammerSymsCmp (parts0.map FklCompPart.sym) (parts1.map FklCompPart.sym)
  | .string s0, .string s1 | .keyword s0, .keyword s1 => fklStringCmp (g.str s0) (g.str s1)
  | .regex re0, .regex re1 => natCmp (g.totalsize re0) (g.totalsize re1)
  | la0, la1 => if la0.t > la1.t then 1 else -1

def lalrItemCmp (i0 i1 : FklLalrItem) : Int :=
  if i0.prod = i1.prod then
    if i0.idx < i1.idx then -1
    else if i0.idx > i1.idx then 1
    else g.lalrLookaheadCmp i0.la i1.la
  else if nontermLt i0.prod.left i1.prod.left then -1
  else if nontermGt i0.prod.left i1.prod.left then 1
  else if i0.prod.syms.length > i1.prod.syms.length then -1
  else if i0.prod.syms.length < i1.prod.syms.length then 1
  else grammerSymsCmp i0.prod.syms i1.prod.syms

end FklGrammer

/-! Hash sets keep the order of insertion. -/

def hashSetPut {α : Type*} [DecidableEq α] (l : List α) (x : α) : List α :=
  if x ∈ l then l else l ++ [x]

section

variable {α : Type*} [DecidableEq α]

@[simp] theorem mem_hashSetPut {l : List α} {x y : α} : y ∈ hashSetPut l x ↔ y ∈ l ∨ y = x := by
  unfold hashSetPut
  split_ifs with h
  · simpa using fun hy : y = x => hy ▸ h
  · simp

theorem nodup_hashSetPut {l : List α} (h : l.Nodup) (x : α) : (hashSetPut l x).Nodup := by
  unfold hashSetPut
  split_ifs with hx
  · exact h
  · simpa [List.nodup_append, h] using fun a ha (heq : a = x) => hx (heq ▸ ha)

theorem mem_foldl_hashSetPut {β : Type*} (f : β → α) (xs : List β) {l : List α} {y : α} :
    y ∈ xs.foldl (fun l x => hashSetPut l (f x)) l ↔ y ∈ l ∨ ∃ x ∈ xs, f x = y := by
  induction xs generalizing l with
  | nil => simp
  | cons x xs ih => simp [ih, or_assoc, eq_comm]

theorem nodup_foldl_hashSetPut {β : Type*} (f : β → α) (xs : List β) {l : List α}
    (h : l.Nodup) : (xs.foldl (fun l x => hashSetPut l (f x)) l).Nodup := by
  induction xs generalizing l with
  | nil => exact h
  | cons x xs ih => exact ih (nodup_hashSetPut h (f x))

/-- Nothing is put twice. -/
theorem foldl_hashSetPut_eq {β : Type*} (f : β → α) (xs : List β) {l : List α}
    (h : (l ++ xs.map f).Nodup) :
    xs.foldl (fun l x => hashSetPut l (f x)) l = l ++ xs.map f := by
  induction xs generalizing l with
  | nil => simp
  | cons x xs ih =>
    have hx : f x ∉ l := fun hx => by
      have := (List.nodup_append.mp h).2.2 (f x) hx (f x) (by simp)
      exact this rfl
    have hput : hashSetPut l (f x) = l ++ [f x] := by simp [hashSetPut, hx]
    rw [List.foldl_cons, hput, ih (by simpa using h)]
    simp

end

end FakeLisp
