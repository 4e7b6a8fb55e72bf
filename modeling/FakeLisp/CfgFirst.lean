import Mathlib.Computability.Language
import Mathlib.Logic.Relation
import Mathlib.Order.FixedPoints
import Mathlib.Order.CompletePartialOrder

/-! What the strings of a context-free grammar may begin with. Some terminals match the empty
string and may be erased. -/

namespace FakeLisp

variable {T N : Type*} (eps : T → Prop)

section

variable (H : Set (N × Option T))

def SymEps : Symbol T N → Prop
  | .terminal t => eps t
  | .nonterminal B => (B, none) ∈ H

def SymFirst : Symbol T N → T → Prop
  | .terminal s, t => s = t
  | .nonterminal B, t => (B, some t) ∈ H

/-- The string may begin with a terminal, or be empty, when the nonterminals begin as `H` says. -/
def StrFirst : List (Symbol T N) → Option T → Prop
  | [], o => o = none
  | X :: α, none => SymEps eps H X ∧ StrFirst α none
  | X :: α, some t => SymFirst H X t ∨ SymEps eps H X ∧ StrFirst α (some t)

@[simp] theorem strFirst_nil (o : Option T) : StrFirst eps H [] o ↔ o = none := by
  cases o <;> rfl

@[simp] theorem strFirst_cons_none (X : Symbol T N) (α : List (Symbol T N)) :
    StrFirst eps H (X :: α) none ↔ SymEps eps H X ∧ StrFirst eps H α none := Iff.rfl

@[simp] theorem strFirst_cons_some (X : Symbol T N) (α : List (Symbol T N)) (t : T) :
    StrFirst eps H (X :: α) (some t) ↔
      SymFirst H X t ∨ SymEps eps H X ∧ StrFirst eps H α (some t) := Iff.rfl

theorem strFirst_append_none (α β : List (Symbol T N)) :
    StrFirst eps H (α ++ β) none ↔ StrFirst eps H α none ∧ StrFirst eps H β none := by
  induction α with
  | nil => simp
  | cons X α ih => simp [ih, and_assoc]

theorem strFirst_append_some (α β : List (Symbol T N)) (t : T) :
    StrFirst eps H (α ++ β) (some t) ↔
      StrFirst eps H α (some t) ∨ StrFirst eps H α none ∧ StrFirst eps H β (some t) := by
  induction α with
  | nil => simp
  | cons X α ih =>
    simp only [List.cons_append, strFirst_cons_some, strFirst_cons_none, ih]
    tauto

end

section

variable {eps} {H K : Set (N × Option T)}

theorem SymEps.mono (h : H ⊆ K) {X : Symbol T N} (hX : SymEps eps H X) : SymEps eps K X := by
  cases X with
  | terminal t => exact hX
  | nonterminal B => exact h hX

theorem SymFirst.mono (h : H ⊆ K) {X : Symbol T N} {t : T} (hX : SymFirst H X t) :
    SymFirst K X t := by
  cases X with
  | terminal s => exact hX
  | nonterminal B => exact h hX

theorem StrFirst.mono (h : H ⊆ K) {α : List (Symbol T N)} {o : Option T}
    (hα : StrFirst eps H α o) : StrFirst eps K α o := by
  induction α with
  | nil => simpa using hα
  | cons X α ih =>
    cases o with
    | none => exact ⟨hα.1.mono h, ih hα.2⟩
    | some t => exact hα.imp (SymFirst.mono h) fun hX => ⟨hX.1.mono h, ih hX.2⟩

theorem StrFirst.mem_or_held {α : List (Symbol T N)} {t : T} (h : StrFirst eps H α (some t)) :
    .terminal t ∈ α ∨ ∃ B, (B, some t) ∈ H := by
  induction α with
  | nil => simp at h
  | cons X α ih =>
    rcases h with h | ⟨_, h⟩
    · cases X with
      | terminal s => obtain rfl : s = t := h; simp
      | nonterminal B => exact Or.inr ⟨B, h⟩
    · exact (ih h).imp_left (List.mem_cons_of_mem X)

/-- More terminals for one nonterminal give the string no others than these. -/
theorem StrFirst.of_union {A : N} (hK : ∀ x ∈ K, ∃ t, x = (A, some t)) {α : List (Symbol T N)}
    {o : Option T} (h : StrFirst eps (H ∪ K) α o) :
    StrFirst eps H α o ∨ ∃ t, o = some t ∧ (A, some t) ∈ K := by
  have heps : ∀ X : Symbol T N, SymEps eps (H ∪ K) X → SymEps eps H X := by
    intro X hX
    cases X with
    | terminal s => exact hX
    | nonterminal B =>
      refine hX.resolve_right fun hB => ?_
      obtain ⟨t, ht⟩ := hK _ hB
      cases ht
  induction α with
  | nil => exact Or.inl (by simpa using h)
  | cons X α ih =>
    cases o with
    | none =>
      rcases ih h.2 with hα | ⟨t, ht, _⟩
      · exact Or.inl ⟨heps X h.1, hα⟩
      · cases ht
    | some t =>
      rcases h with hX | ⟨hX, hα⟩
      · cases X with
        | terminal s => exact Or.inl (Or.inl hX)
        | nonterminal B =>
          rcases hX with hX | hX
          · exact Or.inl (Or.inl hX)
          · obtain ⟨s, hs⟩ := hK _ hX
            cases hs
            exact Or.inr ⟨t, rfl, hX⟩
      · exact (ih hα).imp_left fun hα => Or.inr ⟨heps X hX, hα⟩

end

/-! The least fixed points. -/

variable (prods : N → List (List (Symbol T N)))

/-- One round of the textbook, over all productions. -/
def firstOp : Set (N × Option T) →o Set (N × Option T) where
  toFun H := {x | ∃ p ∈ prods x.1, StrFirst eps H p x.2}
  monotone' _ _ h _ := fun ⟨p, hp, hx⟩ => ⟨p, hp, hx.mono h⟩

/-- One round that uses a production only after those listed before it, all of which may be
empty. -/
def inOrderOp : Set (N × Option T) →o Set (N × Option T) where
  toFun H := {x | ∃ l p r, prods x.1 = l ++ p :: r ∧ (∀ q ∈ l, StrFirst eps H q none) ∧
    StrFirst eps H p x.2}
  monotone' _ _ h _ := fun ⟨l, p, r, hp, hl, hx⟩ =>
    ⟨l, p, r, hp, fun q hq => (hl q hq).mono h, hx.mono h⟩

/-- The rules of `inOrderOp` for one nonterminal hold already. -/
def InOrderClosed (K : Set (N × Option T)) (A : N) : List (List (Symbol T N)) → Prop
  | [] => True
  | p :: ps => (∀ o, StrFirst eps K p o → (A, o) ∈ K) ∧
    (StrFirst eps K p none → InOrderClosed K A ps)

theorem inOrderClosed_iff {K : Set (N × Option T)} {A : N} (ps : List (List (Symbol T N))) :
    InOrderClosed eps K A ps ↔ ∀ l p r, ps = l ++ p :: r →
      (∀ q ∈ l, StrFirst eps K q none) → ∀ o, StrFirst eps K p o → (A, o) ∈ K := by
  induction ps with
  | nil => simp [InOrderClosed]
  | cons q ps ih =>
    rw [InOrderClosed, ih]
    constructor
    · rintro ⟨hq, hps⟩ l p r heq hl
      cases l with
      | nil =>
        cases heq
        exact hq
      | cons q' l =>
        cases heq
        exact hps (hl _ (by simp)) l p r rfl fun x hx => hl x (by simp [hx])
    · intro h
      refine ⟨h [] q ps rfl (by simp), fun hq l p r heq hl => ?_⟩
      refine h (q :: l) p r (by simp [heq]) fun x hx => ?_
      rcases List.mem_cons.mp hx with rfl | hx
      · exact hq
      · exact hl x hx

theorem inOrderOp_le_iff {K : Set (N × Option T)} :
    inOrderOp eps prods K ≤ K ↔ ∀ A, InOrderClosed eps K A (prods A) := by
  simp only [inOrderClosed_iff]
  constructor
  · exact fun h A l p r hp hl o ho => h ⟨l, p, r, hp, hl, ho⟩
  · exact fun h x ⟨l, p, r, hp, hl, hx⟩ => h x.1 l p r hp hl x.2 hx

theorem lfp_inOrderOp_le : (inOrderOp eps prods).lfp ≤ (firstOp eps prods).lfp := by
  refine OrderHom.lfp_le _ fun x ⟨l, p, r, hp, _, hx⟩ => ?_
  rw [← OrderHom.map_lfp]
  exact ⟨p, by rw [hp]; simp, hx⟩

/-! Derivations. -/

inductive CfgStep : List (Symbol T N) → List (Symbol T N) → Prop
  | prod (u v : List (Symbol T N)) {A : N} {p : List (Symbol T N)} (h : p ∈ prods A) :
    CfgStep (u ++ .nonterminal A :: v) (u ++ p ++ v)
  | eps (u v : List (Symbol T N)) {t : T} (h : eps t) : CfgStep (u ++ .terminal t :: v) (u ++ v)

abbrev CfgDerives : List (Symbol T N) → List (Symbol T N) → Prop :=
  Relation.ReflTransGen (CfgStep eps prods)

section

variable {eps prods}

theorem CfgStep.append {α β : List (Symbol T N)} (h : CfgStep eps prods α β)
    (l r : List (Symbol T N)) : CfgStep eps prods (l ++ α ++ r) (l ++ β ++ r) := by
  cases h with
  | prod u v h => simpa using (CfgStep.prod (l ++ u) (v ++ r) h : CfgStep eps prods _ _)
  | eps u v h => simpa using (CfgStep.eps (l ++ u) (v ++ r) h : CfgStep eps prods _ _)

theorem CfgDerives.append {α β : List (Symbol T N)} (h : CfgDerives eps prods α β)
    (l r : List (Symbol T N)) : CfgDerives eps prods (l ++ α ++ r) (l ++ β ++ r) :=
  h.lift (fun α => l ++ α ++ r) fun _ _ hs => hs.append l r

theorem CfgDerives.cons_nil {X : Symbol T N} {α β : List (Symbol T N)}
    (hX : CfgDerives eps prods [X] []) (h : CfgDerives eps prods α β) :
    CfgDerives eps prods (X :: α) β := by
  have hfirst := hX.append [] α
  exact Relation.ReflTransGen.trans (by simpa using hfirst) h

/-- What a derivation from the string shows. -/
def DerivesFirst (eps : T → Prop) (prods : N → List (List (Symbol T N)))
    (α : List (Symbol T N)) : Option T → Prop
  | none => CfgDerives eps prods α []
  | some t => ∃ v, CfgDerives eps prods α (.terminal t :: v)

theorem DerivesFirst.head {α β : List (Symbol T N)} {o : Option T}
    (hs : CfgStep eps prods α β) (h : DerivesFirst eps prods β o) :
    DerivesFirst eps prods α o := by
  cases o with
  | none => exact Relation.ReflTransGen.head hs h
  | some t => exact h.imp fun v hv => Relation.ReflTransGen.head hs hv

theorem derivesFirst_of_strFirst {α : List (Symbol T N)} {o : Option T}
    (h : StrFirst eps {x | DerivesFirst eps prods [.nonterminal x.1] x.2} α o) :
    DerivesFirst eps prods α o := by
  have hnull : ∀ X, SymEps eps {x | DerivesFirst eps prods [.nonterminal x.1] x.2} X →
      CfgDerives eps prods [X] [] := by
    intro X hX
    cases X with
    | terminal t => exact Relation.ReflTransGen.single (CfgStep.eps [] [] hX)
    | nonterminal B => exact hX
  induction α with
  | nil =>
    obtain rfl : o = none := by simpa using h
    exact Relation.ReflTransGen.refl
  | cons X α ih =>
    cases o with
    | none => exact (hnull X h.1).cons_nil (ih h.2)
    | some t =>
      rcases h with hX | ⟨hX, hα⟩
      · cases X with
        | terminal s =>
          cases hX
          exact ⟨α, Relation.ReflTransGen.refl⟩
        | nonterminal B =>
          obtain ⟨v, hv⟩ := hX
          exact ⟨v ++ α, by simpa using CfgDerives.append hv [] α⟩
      · obtain ⟨v, hv⟩ := ih hα
        exact ⟨v, (hnull X hX).cons_nil hv⟩

/-- A step back keeps what the string may begin with. -/
theorem StrFirst.of_step {α β : List (Symbol T N)} {o : Option T} (hs : CfgStep eps prods α β)
    (h : StrFirst eps (firstOp eps prods).lfp β o) :
    StrFirst eps (firstOp eps prods).lfp α o := by
  cases hs with
  | @prod u v A p hp =>
    have hA : ∀ o, StrFirst eps (firstOp eps prods).lfp p o →
        (A, o) ∈ (firstOp eps prods).lfp := fun o ho => by
      rw [← OrderHom.map_lfp]
      exact ⟨p, hp, ho⟩
    cases o with
    | none =>
      simp only [strFirst_append_none] at h
      simp only [strFirst_append_none, strFirst_cons_none]
      exact ⟨h.1.1, hA none h.1.2, h.2⟩
    | some t =>
      simp only [strFirst_append_some, strFirst_append_none] at h
      simp only [strFirst_append_some, strFirst_cons_some]
      rcases h with (h | ⟨hu, h⟩) | ⟨⟨hu, hpn⟩, h⟩
      · exact Or.inl h
      · exact Or.inr ⟨hu, Or.inl (hA _ h)⟩
      · exact Or.inr ⟨hu, Or.inr ⟨hA none hpn, h⟩⟩
  | @eps u v t ht =>
    cases o with
    | none =>
      simp only [strFirst_append_none, strFirst_cons_none] at h ⊢
      exact ⟨h.1, ht, h.2⟩
    | some s =>
      simp only [strFirst_append_some, strFirst_cons_some] at h ⊢
      exact h.imp_right fun ⟨hu, hv⟩ => ⟨hu, Or.inr ⟨ht, hv⟩⟩

theorem strFirst_of_derivesFirst {α : List (Symbol T N)} {o : Option T}
    (h : DerivesFirst eps prods α o) : StrFirst eps (firstOp eps prods).lfp α o := by
  have hback : ∀ {β}, CfgDerives eps prods α β → StrFirst eps (firstOp eps prods).lfp β o →
      StrFirst eps (firstOp eps prods).lfp α o := by
    intro β hαβ
    induction hαβ with
    | refl => exact id
    | tail _ hs ih => exact fun hβ => ih (hβ.of_step hs)
  cases o with
  | none => exact hback h (by simp)
  | some t =>
    obtain ⟨v, hv⟩ := h
    exact hback hv (Or.inl rfl)

/-- The least fixed point is what derivations show. -/
theorem mem_lfp_firstOp (x : N × Option T) :
    x ∈ (firstOp eps prods).lfp ↔ DerivesFirst eps prods [.nonterminal x.1] x.2 := by
  constructor
  · intro h
    have hle : (firstOp eps prods).lfp ≤ {x | DerivesFirst eps prods [.nonterminal x.1] x.2} := by
      refine OrderHom.lfp_le _ fun y ⟨p, hp, hy⟩ => ?_
      refine DerivesFirst.head ?_ (derivesFirst_of_strFirst hy)
      simpa using (CfgStep.prod [] [] hp : CfgStep eps prods _ _)
    exact hle h
  · intro h
    have hx := strFirst_of_derivesFirst h
    obtain ⟨A, o⟩ := x
    cases o with
    | none => exact hx.1
    | some t => simpa [SymFirst] using hx

/-- What a string may begin with is one of its terminals or one of the right sides. -/
theorem derivesFirst_terminal {P : T → Prop}
    (hprods : ∀ A, ∀ α ∈ prods A, ∀ t, .terminal t ∈ α → P t) {α : List (Symbol T N)} {t : T}
    (hα : ∀ t, .terminal t ∈ α → P t) (h : DerivesFirst eps prods α (some t)) : P t := by
  have hlfp : (firstOp eps prods).lfp ≤ {x | ∀ t, x.2 = some t → P t} := by
    refine OrderHom.lfp_le _ ?_
    rintro ⟨A, o⟩ ⟨β, hβ, ho⟩ t rfl
    rcases ho.mem_or_held with ht | ⟨B, hB⟩
    · exact hprods A β hβ t ht
    · exact hB t rfl
  rcases (strFirst_of_derivesFirst h).mem_or_held with ht | ⟨B, hB⟩
  · exact hα t ht
  · exact hlfp hB t rfl

theorem exists_derivesFirst {α : List (Symbol T N)}
    (h : ∀ A, .nonterminal A ∈ α → ∃ o, DerivesFirst eps prods [.nonterminal A] o) :
    ∃ o, DerivesFirst eps prods α o := by
  suffices hstr : ∃ o, StrFirst eps {x | DerivesFirst eps prods [.nonterminal x.1] x.2} α o from
    hstr.imp fun _ => derivesFirst_of_strFirst
  induction α with
  | nil => exact ⟨none, rfl⟩
  | cons X α ih =>
    obtain ⟨o, ho⟩ := ih fun A hA => h A (List.mem_cons_of_mem X hA)
    cases X with
    | terminal t => exact ⟨some t, Or.inl rfl⟩
    | nonterminal A =>
      obtain ⟨o', ho'⟩ := h A List.mem_cons_self
      cases o' with
      | some t => exact ⟨some t, Or.inl ho'⟩
      | none =>
        cases o with
        | none => exact ⟨none, ho', ho⟩
        | some t => exact ⟨some t, Or.inr ⟨ho', ho⟩⟩

end

end FakeLisp
