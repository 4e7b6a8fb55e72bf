import FakeLisp.VMValueEqual
import Mathlib.Tactic.Common

/-!
Equal values have equal hashes, but for the two zeros: `==` takes them for the same number, and
the hash of a double is made of its bits.
-/

namespace FakeLisp

/-- The words an object holds, in the order they are hashed. -/
def partsOf : FklVMvalueData → List UInt64
  | .pair car cdr => [car, cdr]
  | .box v => [v]
  | .vec base => base
  | .hashTable _ ht => ht.flatMap fun e => [e.1, e.2]
  | _ => []

/-- Two objects are of one type and equal but for the words they hold. -/
def SameShape : FklVMvalueData → FklVMvalueData → Prop
  | .f64 a, .f64 b => f64Equal a b = true
  | .str a, .str b => a = b
  | .bytes a, .bytes b => a = b
  | .bigint a, .bigint b => fklVMbigIntEqual a b = true
  | .pair _ _, .pair _ _ => True
  | .box _, .box _ => True
  | .vec base, .vec base' => base.length = base'.length
  | .hashTable t ht, .hashTable t' ht' => t = t' ∧ ht.length = ht'.length
  | _, _ => False

/-- Equality of values, as a relation on the heap. -/
inductive VMEqual (mem : VMwords) : UInt64 → UInt64 → Prop
  | same (a : UInt64) : VMEqual mem a a
  | node {a b : UInt64} (ha : isPtr a = true) (hb : isPtr b = true)
      (hshape : SameShape (mem a) (mem b))
      (hparts : ∀ p ∈ (partsOf (mem a)).zip (partsOf (mem b)), VMEqual mem p.1 p.2) :
      VMEqual mem a b

theorem zip_flatMap_pair {α : Type} (l l' : List (α × α)) (h : l.length = l'.length) :
    (l.zip l').flatMap (fun p => [(p.1.1, p.2.1), (p.1.2, p.2.2)]) =
      (l.flatMap fun e => [e.1, e.2]).zip (l'.flatMap fun e => [e.1, e.2]) := by
  induction l generalizing l' with
  | nil => simp
  | cons e l ih =>
    cases l' with
    | nil => simp at h
    | cons e' l' => simp [ih l' (by simpa using h)]

theorem SameShape.length_eq {d d' : FklVMvalueData} (h : SameShape d d') :
    (partsOf d).length = (partsOf d').length := by
  cases d <;> cases d' <;> try exact False.elim h
  all_goals simp_all [SameShape, partsOf, List.length_flatMap]

/-- A round that goes on compares one pair and leaves its parts. -/
theorem equalRound_spec {mem : VMwords} {x y : UInt64} {pushed : FklPairVector}
    (h : equalRound mem true x y = (true, pushed)) :
    x = y ∧ pushed = [] ∨ isPtr x = true ∧ isPtr y = true ∧ SameShape (mem x) (mem y) ∧
      pushed = (partsOf (mem x)).zip (partsOf (mem y)) := by
  unfold equalRound at h
  split_ifs at h with htag hword hptr hxy
  · cases h
  · cases h
  · cases h
    exact .inl ⟨hxy, rfl⟩
  · right
    refine ⟨hptr.1, hptr.2, ?_⟩
    generalize mem x = d at h ⊢
    generalize mem y = d' at h ⊢
    cases d <;> cases d' <;> simp_all [SameShape, partsOf]
    · split_ifs at h with hlen <;> cases h
      exact ⟨hlen, rfl⟩
    · split_ifs at h with hne <;> cases h
      rw [not_or, not_not, not_not] at hne
      exact ⟨hne, zip_flatMap_pair _ _ hne.2⟩
  · cases h
    have htags : isPtr x = isPtr y := by
      simp only [ne_eq, not_not] at htag
      simp [isPtr, htag]
    left
    by_contra hne
    cases hx : isPtr x
    · exact hword ⟨by simp [hx], by simp [← htags, hx], fun heq => hne ⟨heq, rfl⟩⟩
    · exact hptr ⟨hx, htags ▸ hx⟩

/-- Every pair left to compare is equal when the loop ends well. -/
theorem equalLoop_spec {mem : VMwords} {fuel : Nat} {s : FklPairVector}
    (h : equalLoop mem fuel true s = some true) : ∀ p ∈ s, VMEqual mem p.1 p.2 := by
  induction fuel generalizing s with
  | zero =>
    cases s with
    | nil => simp
    | cons p s => cases h
  | succ fuel ih =>
    cases s with
    | nil => simp
    | cons p s =>
      obtain ⟨x, y⟩ := p
      rcases hround : equalRound mem true x y with ⟨r, pushed⟩
      simp only [equalLoop, hround] at h
      cases r with
      | false => cases h
      | true =>
        have hrest := ih h
        have htop : VMEqual mem x y := by
          rcases equalRound_spec hround with ⟨rfl, -⟩ | ⟨hx, hy, hshape, rfl⟩
          · exact .same x
          · exact .node hx hy hshape fun p hp => hrest p (by simp [hp])
        intro p hp
        rcases List.mem_cons.mp hp with rfl | hp
        · exact htop
        · exact hrest p (by simp [hp])

theorem fklVMvalueEqual_spec {mem : VMwords} {fuel : Nat} {a b : UInt64}
    (h : fklVMvalueEqual mem fuel a b = some true) : VMEqual mem a b := by
  unfold fklVMvalueEqual at h
  split_ifs at h with hab hptr
  · exact hab ▸ .same a
  · by_cases hloop : equalLoop mem fuel true [(a, b)] = some true
    · exact equalLoop_spec hloop (a, b) (by simp)
    · have hleaf : SameShape (mem a) (mem b) ∧ partsOf (mem a) = [] := by
        generalize mem a = d at h ⊢
        generalize mem b = d' at h ⊢
        cases d <;> cases d' <;> simp_all [SameShape, partsOf]
      exact .node hptr.1 hptr.2 hleaf.1 (by simp [hleaf.2])
  · simp [hab] at h

/-! ## The hash of an object from those of its parts -/

/-- The hash before any part is mixed in. -/
def seedOf (v : UInt64) : FklVMvalueData → UInt64
  | .f64 bits => bits
  | .str s => fklStringHash s
  | .bytes s => fklBytesHash s
  | .bigint b => fklVMbigIntHash b
  | .pair _ _ => 2
  | .box _ => 1
  | .vec base => UInt64.ofNat base.length
  | .hashTable t ht => UInt64.ofNat ht.length + eqTypeCode t
  | _ => v >>> 3

def mixHash (hash : UInt64 → Option UInt64) (seed e : UInt64) : Option UInt64 := do
  some (fklHashCombine seed (← hash e))

theorem foldlM_flatMap_pair {β : Type} (f : β → UInt64 → Option β) (l : List (UInt64 × UInt64))
    (seed : β) : l.foldlM (fun s e => do f (← f s e.1) e.2) seed =
      (l.flatMap fun e => [e.1, e.2]).foldlM f seed := by
  induction l generalizing seed with
  | nil => rfl
  | cons e l ih =>
    simp only [List.foldlM_cons, List.flatMap_cons, List.cons_append, List.nil_append, bind_assoc,
      ih]

theorem hashv_ptr {mem : VMwords} {v : UInt64} (hv : isPtr v = true) (depth : Nat) :
    fklVMvalueEqualHashv mem (depth + 1) v = (partsOf (mem v)).foldlM
      (mixHash (fklVMvalueEqualHashv mem depth)) (seedOf v (mem v)) := by
  have hfix : isFixWord v = false := by
    simp only [isPtr, decide_eq_true_eq] at hv
    simp [isFixWord, hv]
  rw [fklVMvalueEqualHashv]
  simp only [hfix, hv, Bool.false_eq_true, if_false, if_true]
  cases mem v with
  | hashTable t ht =>
    rw [partsOf, ← foldlM_flatMap_pair]
    simp [mixHash, seedOf, Option.bind_assoc]
  | pair car cdr => simp [partsOf, seedOf, mixHash, Option.bind_assoc]
  | vec base => rfl
  | _ => simp [partsOf, seedOf, mixHash]

theorem foldlM_congr_zip {f : UInt64 → Option UInt64} {l l' : List UInt64}
    (hlen : l.length = l'.length) (h : ∀ p ∈ l.zip l', f p.1 = f p.2) (seed : UInt64) :
    l.foldlM (mixHash f) seed = l'.foldlM (mixHash f) seed := by
  induction l generalizing l' seed with
  | nil =>
    cases l' with
    | nil => rfl
    | cons e' l' => simp at hlen
  | cons e l ih =>
    cases l' with
    | nil => simp at hlen
    | cons e' l' =>
      have hhead : f e = f e' := h (e, e') (by simp)
      simp only [List.foldlM_cons, mixHash, hhead]
      refine congrArg _ (funext fun s => ?_)
      exact ih (by simpa using hlen) (fun p hp => h p (by simp [hp])) s

/-! ## The two zeros -/

/-- The bits of the double `-0.0`. -/
def negZero : UInt64 := 0x8000000000000000

/-- One of the words is a double `0.0`, the other one a double `-0.0`. -/
def OppositeZeros (mem : VMwords) (a b : UInt64) : Prop :=
  isPtr a = true ∧ isPtr b = true ∧
    (mem a = .f64 0 ∧ mem b = .f64 negZero ∨ mem a = .f64 negZero ∧ mem b = .f64 0)

theorem eq_zero_of_mask {x : UInt64} (h : x &&& 0x7FFFFFFFFFFFFFFF = 0) :
    x = 0 ∨ x = negZero := by
  have hmod : x.toNat % 2 ^ 63 = 0 := by
    have := congrArg UInt64.toNat h
    rwa [UInt64.toNat_and, show (0x7FFFFFFFFFFFFFFF : UInt64).toNat = 2 ^ 63 - 1 from rfl,
      Nat.and_two_pow_sub_one_eq_mod] at this
  have hlt := x.toNat_lt
  rcases (show x.toNat = 0 ∨ x.toNat = 2 ^ 63 by omega) with hx | hx
  · exact .inl (UInt64.toNat_inj.mp hx)
  · exact .inr (UInt64.toNat_inj.mp hx)

theorem f64Equal_cases {x y : UInt64} (h : f64Equal x y = true) :
    x = y ∨ x = 0 ∧ y = negZero ∨ x = negZero ∧ y = 0 := by
  simp only [f64Equal, Bool.and_eq_true, Bool.or_eq_true, decide_eq_true_eq] at h
  rcases h.2 with heq | ⟨hx, hy⟩
  · exact .inl heq
  · rcases eq_zero_of_mask hx with rfl | rfl <;> rcases eq_zero_of_mask hy with rfl | rfl <;> simp

theorem fklVMbigIntHash_eq {a b : FklVMvalueBigInt} (h : fklVMbigIntEqual a b = true) :
    fklVMbigIntHash a = fklVMbigIntHash b := by
  simp only [fklVMbigIntEqual, fklBigIntEqual, fklVMbigIntToBigInt, fklAbs_toNat,
    decide_eq_true_eq] at h
  simp only [fklVMbigIntHash, fklBigIntHash, fklVMbigIntToBigInt, ← h.1]
  refine List.foldl_ext _ _ _ fun r i hi => ?_
  rw [h.2 i (List.mem_range.mp hi)]

theorem seedOf_eq {mem : VMwords} {a b : UInt64} (ha : isPtr a = true) (hb : isPtr b = true)
    (h : SameShape (mem a) (mem b)) (hz : ¬OppositeZeros mem a b) :
    seedOf a (mem a) = seedOf b (mem b) := by
  unfold OppositeZeros at hz
  generalize mem a = d at h hz ⊢
  generalize mem b = d' at h hz ⊢
  cases d <;> cases d' <;> try exact False.elim h
  all_goals simp_all [SameShape, seedOf]
  · rcases f64Equal_cases h with heq | ⟨ha, hb⟩ | ⟨ha, hb⟩
    · exact heq
    · exact absurd hb (hz.1 ha)
    · exact absurd hb (hz.2 ha)
  · exact fklVMbigIntHash_eq h

/-- The words that stand at the same place in two values. -/
inductive Corresponds (mem : VMwords) (a b : UInt64) : UInt64 → UInt64 → Prop
  | root : Corresponds mem a b a b
  | part {x y : UInt64} {p : UInt64 × UInt64} (h : Corresponds mem a b x y)
      (hx : isPtr x = true) (hy : isPtr y = true)
      (hp : p ∈ (partsOf (mem x)).zip (partsOf (mem y))) : Corresponds mem a b p.1 p.2

theorem mem_zip_self {α : Type} {l : List α} {p : α × α} (h : p ∈ l.zip l) : p.1 = p.2 := by
  obtain ⟨i, hi, rfl⟩ := List.getElem_of_mem h
  simp

theorem VMEqual.of_part {mem : VMwords} {a b : UInt64} (h : VMEqual mem a b)
    {p : UInt64 × UInt64} (hp : p ∈ (partsOf (mem a)).zip (partsOf (mem b))) :
    VMEqual mem p.1 p.2 := by
  cases h with
  | same => exact mem_zip_self hp ▸ .same p.1
  | node ha hb hshape hparts => exact hparts p hp

theorem VMEqual.of_corresponds {mem : VMwords} {a b x y : UInt64} (h : VMEqual mem a b)
    (hc : Corresponds mem a b x y) : VMEqual mem x y := by
  induction hc with
  | root => exact h
  | part _ _ _ hp ih => exact ih.of_part hp

theorem Corresponds.trans {mem : VMwords} {a b x y z w : UInt64} (h : Corresponds mem a b x y)
    (h' : Corresponds mem x y z w) : Corresponds mem a b z w := by
  induction h' with
  | root => exact h
  | part _ hx hy hp ih => exact .part ih hx hy hp

/-- Equal values without opposite zeros have one hash, however deep the hash may go. -/
theorem VMEqual.hashv_eq {mem : VMwords} {a b : UInt64} (h : VMEqual mem a b)
    (hz : ∀ x y, Corresponds mem a b x y → ¬OppositeZeros mem x y) (depth : Nat) :
    fklVMvalueEqualHashv mem depth a = fklVMvalueEqualHashv mem depth b := by
  induction h generalizing depth with
  | same => rfl
  | @node a b ha hb hshape hparts ih =>
    cases depth with
    | zero => rfl
    | succ depth =>
      rw [hashv_ptr ha, hashv_ptr hb, seedOf_eq ha hb hshape (hz a b .root)]
      refine foldlM_congr_zip hshape.length_eq (fun p hp => ?_) _
      exact ih p hp (fun x y hxy => hz x y ((Corresponds.part .root ha hb hp).trans hxy)) depth

theorem OppositeZeros.hashv_ne {mem : VMwords} {a b : UInt64} (h : OppositeZeros mem a b) :
    fklVMvalueEqualHashv mem 1 a ≠ fklVMvalueEqualHashv mem 1 b := by
  obtain ⟨ha, hb, ⟨hda, hdb⟩ | ⟨hda, hdb⟩⟩ := h <;>
    simp [hashv_ptr ha, hashv_ptr hb, hda, hdb, partsOf, seedOf, negZero]

/-! ## A key that is equal to a stored one -/

theorem VMEqual.equalRound {mem : VMwords} {x y : UInt64} (h : VMEqual mem x y) :
    (equalRound mem true x y).1 = true ∧
      ∀ p ∈ (equalRound mem true x y).2, VMEqual mem p.1 p.2 := by
  by_cases hxy : x = y
  · subst hxy
    cases hx : isPtr x <;> simp [FakeLisp.equalRound, hx]
  · cases h with
    | same => exact absurd rfl hxy
    | node hx hy hshape hparts =>
      have htag : getTag x = getTag y := by
        simp only [isPtr, decide_eq_true_eq] at hx hy
        rw [hx, hy]
      have hround : FakeLisp.equalRound mem true x y =
          (true, (partsOf (mem x)).zip (partsOf (mem y))) := by
        simp only [FakeLisp.equalRound, htag, hx, hy, hxy, ne_eq, not_true_eq_false, if_false,
          Bool.not_true, Bool.false_eq_true, false_and, and_self, if_true]
        generalize mem x = d at hshape ⊢
        generalize mem y = d' at hshape ⊢
        cases d <;> cases d' <;> try exact False.elim hshape
        all_goals simp_all [SameShape, partsOf, zip_flatMap_pair]
      rw [hround]
      exact ⟨rfl, hparts⟩

theorem equalLoop_ne_false {mem : VMwords} {s : FklPairVector}
    (h : ∀ p ∈ s, VMEqual mem p.1 p.2) (fuel : Nat) :
    equalLoop mem fuel true s ≠ some false := by
  induction fuel generalizing s with
  | zero => cases s <;> simp [equalLoop]
  | succ fuel ih =>
    cases s with
    | nil => simp [equalLoop]
    | cons p s =>
      obtain ⟨hr, hpushed⟩ := (h p (by simp)).equalRound
      simp only [equalLoop, hr, if_true]
      refine ih fun q hq => ?_
      rcases List.mem_append.mp hq with hq | hq
      · exact hpushed q hq
      · exact h q (by simp [hq])

theorem VMEqual.fklVMvalueEqual_ne {mem : VMwords} {x y : UInt64} (h : VMEqual mem x y)
    (fuel : Nat) : fklVMvalueEqual mem fuel x y ≠ some false := by
  have hloop : equalLoop mem fuel true [(x, y)] ≠ some false :=
    equalLoop_ne_false (by simpa using h) fuel
  cases h with
  | same => simp [fklVMvalueEqual]
  | node hx hy hshape hparts =>
    unfold fklVMvalueEqual
    simp only [hx, hy, and_self, if_true]
    split_ifs with hxy
    · simp
    · generalize mem x = d at hshape ⊢
      generalize mem y = d' at hshape ⊢
      cases d <;> cases d' <;> try exact False.elim hshape
      all_goals simp_all [SameShape]

theorem mixHash_foldlM_mono {f g : UInt64 → Option UInt64} {l : List UInt64}
    (h : ∀ e x, f e = some x → g e = some x) {seed x : UInt64}
    (hf : l.foldlM (mixHash f) seed = some x) : l.foldlM (mixHash g) seed = some x := by
  induction l generalizing seed with
  | nil => exact hf
  | cons e l ih =>
    rw [List.foldlM_cons] at hf ⊢
    cases he : f e with
    | none => simp [mixHash, he] at hf
    | some y =>
      simp only [mixHash, he, h e y he, Option.bind_eq_bind, Option.bind_some] at hf ⊢
      exact ih hf

theorem hashv_succ {mem : VMwords} {depth : Nat} {v x : UInt64}
    (h : fklVMvalueEqualHashv mem depth v = some x) :
    fklVMvalueEqualHashv mem (depth + 1) v = some x := by
  induction depth generalizing v x with
  | zero => cases h
  | succ depth ih =>
    cases hv : isPtr v with
    | true =>
      rw [hashv_ptr hv] at h ⊢
      exact mixHash_foldlM_mono (fun e y => ih) h
    | false =>
      rw [fklVMvalueEqualHashv] at h ⊢
      simpa [hv] using h

theorem hashv_mono {mem : VMwords} {depth depth' : Nat} {v x : UInt64} (hle : depth ≤ depth')
    (h : fklVMvalueEqualHashv mem depth v = some x) :
    fklVMvalueEqualHashv mem depth' v = some x := by
  induction hle with
  | refl => exact h
  | step _ ih => exact hashv_succ ih

/-- A value that is hashed is compared with any other one in a bounded number of rounds: the loop
ends with a difference, or comes to what lies below on its stack. -/
def ComparedIn (mem : VMwords) (n : Nat) (s : FklPairVector) : Prop :=
  ∀ rest fuel, equalLoop mem (n + fuel) true (s ++ rest) = some false ∨
    ∃ fuel', fuel ≤ fuel' ∧
      equalLoop mem (n + fuel) true (s ++ rest) = equalLoop mem fuel' true rest

theorem comparedIn_nil (mem : VMwords) : ComparedIn mem 0 [] :=
  fun _ fuel => .inr ⟨fuel, le_rfl, by simp⟩

theorem ComparedIn.append {mem : VMwords} {n m : Nat} {s t : FklPairVector}
    (hs : ComparedIn mem n s) (ht : ComparedIn mem m t) : ComparedIn mem (n + m) (s ++ t) := by
  intro rest fuel
  rw [List.append_assoc, Nat.add_assoc]
  rcases hs (t ++ rest) (m + fuel) with hfalse | ⟨fuel', hle, heq⟩
  · exact .inl hfalse
  · rw [heq]
    obtain ⟨extra, rfl⟩ := Nat.exists_eq_add_of_le hle
    rw [Nat.add_assoc]
    rcases ht rest (fuel + extra) with hfalse | ⟨fuel₂, hle₂, heq₂⟩
    · exact .inl hfalse
    · exact .inr ⟨fuel₂, by omega, heq₂⟩

/-- One round leaves the parts of the first value against those of the second one. -/
theorem comparedIn_round {mem : VMwords} {n : Nat} {x y : UInt64}
    (h : ComparedIn mem n ((partsOf (mem x)).zip (partsOf (mem y)))) :
    ComparedIn mem (n + 1) [(x, y)] := by
  intro rest fuel
  rw [show n + 1 + fuel = n + fuel + 1 by omega, List.singleton_append, equalLoop]
  rcases hround : equalRound mem true x y with ⟨r, pushed⟩
  cases r with
  | false => exact .inl rfl
  | true =>
    simp only [if_true]
    rcases equalRound_spec hround with ⟨-, rfl⟩ | ⟨-, -, -, rfl⟩
    · exact .inr ⟨n + fuel, by omega, rfl⟩
    · exact h rest fuel

theorem comparedIn_zip {mem : VMwords} {l : List UInt64}
    (h : ∀ e ∈ l, ∃ n, ∀ y, ComparedIn mem n [(e, y)]) :
    ∃ n, ∀ l', ComparedIn mem n (l.zip l') := by
  induction l with
  | nil => exact ⟨0, fun l' => comparedIn_nil mem⟩
  | cons e l ih =>
    obtain ⟨n, hn⟩ := h e (by simp)
    obtain ⟨m, hm⟩ := ih fun e' he' => h e' (by simp [he'])
    refine ⟨n + m, fun l' => ?_⟩
    cases l' with
    | nil =>
      intro rest fuel
      exact .inr ⟨n + m + fuel, by omega, by simp⟩
    | cons e' l' => exact (hn e').append (hm l')

theorem exists_of_foldlM_mixHash {f : UInt64 → Option UInt64} {l : List UInt64} {seed x : UInt64}
    (h : l.foldlM (mixHash f) seed = some x) : ∀ e ∈ l, ∃ y, f e = some y := by
  induction l generalizing seed with
  | nil => simp
  | cons e l ih =>
    rw [List.foldlM_cons] at h
    cases he : f e with
    | none => simp [mixHash, he] at h
    | some y =>
      simp only [mixHash, he, Option.bind_eq_bind, Option.bind_some] at h
      simpa [he] using ih h

theorem equalRound_word {mem : VMwords} {x y : UInt64} (hx : isPtr x = false) :
    (equalRound mem true x y).2 = [] := by
  unfold equalRound
  split_ifs <;> simp_all

/-- The recursion of the hash is as deep as the value, so a value with a hash is finite. -/
theorem comparedIn_of_hashv {mem : VMwords} {depth : Nat} {x hashv : UInt64}
    (h : fklVMvalueEqualHashv mem depth x = some hashv) :
    ∃ n, ∀ y, ComparedIn mem n [(x, y)] := by
  induction depth generalizing x hashv with
  | zero => cases h
  | succ depth ih =>
    cases hx : isPtr x with
    | true =>
      rw [hashv_ptr hx] at h
      have hparts := exists_of_foldlM_mixHash h
      obtain ⟨n, hn⟩ := comparedIn_zip fun e he => ih (hparts e he).choose_spec
      exact ⟨n + 1, fun y => comparedIn_round (hn _)⟩
    | false =>
      refine ⟨1, fun y rest fuel => ?_⟩
      rw [Nat.add_comm, List.singleton_append, equalLoop]
      have hnone : (equalRound mem true x y).2 = [] := equalRound_word hx
      rcases hround : equalRound mem true x y with ⟨r, pushed⟩
      rw [hround] at hnone
      obtain rfl : pushed = [] := hnone
      cases r with
      | false => exact .inl rfl
      | true => exact .inr ⟨fuel, le_rfl, rfl⟩

theorem equalLoop_succ {mem : VMwords} {fuel : Nat} {r b : Bool} {s : FklPairVector}
    (h : equalLoop mem fuel r s = some b) : equalLoop mem (fuel + 1) r s = some b := by
  induction fuel generalizing r s with
  | zero =>
    cases s with
    | nil => exact h
    | cons p s => cases h
  | succ fuel ih =>
    cases s with
    | nil => exact h
    | cons p s =>
      rw [equalLoop] at h ⊢
      generalize equalRound mem r p.1 p.2 = round at h ⊢
      obtain ⟨r', pushed⟩ := round
      cases r' with
      | false => exact h
      | true => exact ih h

theorem equalLoop_mono {mem : VMwords} {fuel fuel' : Nat} {r b : Bool} {s : FklPairVector}
    (hle : fuel ≤ fuel') (h : equalLoop mem fuel r s = some b) :
    equalLoop mem fuel' r s = some b := by
  induction hle with
  | refl => exact h
  | step _ ih => exact equalLoop_succ ih

theorem fklVMvalueEqual_mono {mem : VMwords} {fuel fuel' : Nat} {x y : UInt64} {b : Bool}
    (hle : fuel ≤ fuel') (h : fklVMvalueEqual mem fuel x y = some b) :
    fklVMvalueEqual mem fuel' x y = some b := by
  unfold fklVMvalueEqual at h ⊢
  split_ifs at h ⊢
  · exact h
  · split at h <;> first | exact h | exact equalLoop_mono hle h
  · exact h

/-- The comparison of a value that has a hash comes to an end, whatever it is compared with. -/
theorem fklVMvalueEqual_ends {mem : VMwords} {depth : Nat} {x hashv : UInt64}
    (h : fklVMvalueEqualHashv mem depth x = some hashv) :
    ∃ n, ∀ y, ∃ b, ∀ fuel, n ≤ fuel → fklVMvalueEqual mem fuel x y = some b := by
  obtain ⟨n, hn⟩ := comparedIn_of_hashv h
  refine ⟨n, fun y => ?_⟩
  have hloop : ∃ b, equalLoop mem n true [(x, y)] = some b := by
    rcases hn y [] 0 with hfalse | ⟨fuel', -, heq⟩
    · exact ⟨false, hfalse⟩
    · exact ⟨true, by simpa [equalLoop] using heq⟩
  obtain ⟨b, hb⟩ := hloop
  have hends : ∃ b', fklVMvalueEqual mem n x y = some b' := by
    unfold fklVMvalueEqual
    split_ifs
    · exact ⟨_, rfl⟩
    · split <;> first | exact ⟨_, rfl⟩ | exact ⟨b, hb⟩
    · exact ⟨_, rfl⟩
  exact hends.imp fun b' hb' fuel hle => fklVMvalueEqual_mono hle hb'

theorem findInChain_found {mem : VMwords} {n : Nat} {x y v : UInt64}
    {chain : List (UInt64 × UInt64)}
    (hends : ∀ y, ∃ b, ∀ fuel, n ≤ fuel → fklVMvalueEqual mem fuel x y = some b)
    (hxy : ∀ fuel, fklVMvalueEqual mem fuel x y ≠ some false) (hmem : (y, v) ∈ chain) :
    ∃ elm, ∀ fuel, n ≤ fuel → findInChain mem fuel x chain = some (some elm) ∧
      fklVMvalueEqual mem fuel x elm.1 = some true := by
  induction chain with
  | nil => simp at hmem
  | cons elm chain ih =>
    obtain ⟨b, hb⟩ := hends elm.1
    cases b with
    | true => exact ⟨elm, fun fuel hle => ⟨by simp [findInChain, hb fuel hle], hb fuel hle⟩⟩
    | false =>
      have hne : (y, v) ≠ elm := by
        rintro rfl
        exact hxy n (hb n le_rfl)
      obtain ⟨found, hfound⟩ := ih ((List.mem_cons.mp hmem).resolve_left hne)
      refine ⟨found, fun fuel hle => ⟨?_, (hfound fuel hle).2⟩⟩
      simpa [findInChain, hb fuel hle] using (hfound fuel hle).1

/-- `x` has the hash of `y`; and in every table of the equal type in which `y` is a key, in the
bucket of its hash, the look-up of `x` ends and finds an entry whose key is equal to `x`. -/
def FoundFor (mem : VMwords) (x y : UInt64) : Prop :=
  (∀ depth, fklVMvalueEqualHashv mem depth x = fklVMvalueEqualHashv mem depth y) ∧
    ∀ (ht : FklEqualBuckets) (depth : Nat) (hashv v : UInt64),
      fklVMvalueEqualHashv mem depth y = some hashv → (y, v) ∈ fklValueHashMapBucket ht hashv →
        ∃ elm n, ∀ fuel, n ≤ fuel → fklVMhashTableGet mem fuel ht x = some (some elm) ∧
          fklVMvalueEqual mem fuel x elm.1 = some true

theorem VMEqual.foundFor {mem : VMwords} {x y : UInt64} (h : VMEqual mem x y)
    (hz : ∀ z w, Corresponds mem x y z w → ¬OppositeZeros mem z w) : FoundFor mem x y := by
  refine ⟨h.hashv_eq hz, fun ht depth hashv v hhash hmem => ?_⟩
  have hx : fklVMvalueEqualHashv mem depth x = some hashv := (h.hashv_eq hz depth).trans hhash
  obtain ⟨n, hends⟩ := fklVMvalueEqual_ends hx
  obtain ⟨elm, helm⟩ := findInChain_found hends h.fklVMvalueEqual_ne hmem
  refine ⟨elm, max n depth, fun fuel hle => ⟨?_, (helm fuel (le_of_max_le_left hle)).2⟩⟩
  have hfuel := hashv_mono (le_of_max_le_right hle) hx
  simpa [fklVMhashTableGet, vmhashFindNode, hfuel] using (helm fuel (le_of_max_le_left hle)).1

/-- Equal values, and all that stands at the same place in them, have one hash and are found in
tables, exactly when no `0.0` stands against a `-0.0`. -/
theorem fklVMvalueEqual_hashv_iff {mem : VMwords} {fuel : Nat} {a b : UInt64}
    (h : fklVMvalueEqual mem fuel a b = some true) :
    (∀ x y, Corresponds mem a b x y → FoundFor mem x y) ↔
      ∀ x y, Corresponds mem a b x y → ¬OppositeZeros mem x y := by
  have hab := fklVMvalueEqual_spec h
  constructor
  · intro hfound x y hxy hzeros
    exact hzeros.hashv_ne ((hfound x y hxy).1 1)
  · intro hz x y hxy
    exact (hab.of_corresponds hxy).foundFor fun z w hzw => hz z w (hxy.trans hzw)

/-- Two vectors, each with its own copy of a string. -/
def twoVectors : VMwords := fun a =>
  if a = 24 then .vec [8] else if a = 32 then .vec [16] else .str [104, 105]

theorem twoVectors_hashv : FoundFor twoVectors 24 32 := by
  have hequal : fklVMvalueEqual twoVectors 2 24 32 = some true := rfl
  refine (fklVMvalueEqual_hashv_iff hequal).mpr (fun x y _ hzeros => ?_) 24 32 .root
  have hnone : ∀ a bits, twoVectors a ≠ .f64 bits := by
    intro a bits
    unfold twoVectors
    split_ifs <;> simp
  rcases hzeros with ⟨-, -, ⟨hx, -⟩ | ⟨hx, -⟩⟩ <;> exact hnone _ _ hx

/-- Two vectors, of `0.0` and of `-0.0`, each with 31 more elements, the number 0. -/
def twoZeros : VMwords := fun a =>
  if a = 8 then .f64 0 else if a = 16 then .f64 negZero
  else if a = 24 then .vec (8 :: List.replicate 31 2) else .vec (16 :: List.replicate 31 2)

/-- A table with the first one as its key. -/
def zeroTable : FklEqualBuckets where
  mask := 7
  bucket i := if some i = (fklVMvalueEqualHashv twoZeros 2 24).map (· &&& 7) then [(24, 2)] else []

/-- The sign of the zero has come down to the last bits of the hash, and the look-up goes to
another bucket. -/
theorem twoZeros_hashv_ne : fklVMvalueEqual twoZeros 33 32 24 = some true ∧
    fklVMvalueEqualHashv twoZeros 2 32 ≠ fklVMvalueEqualHashv twoZeros 2 24 ∧
    (fklVMvalueEqualHashv twoZeros 2 24).map (fklValueHashMapBucket zeroTable) = some [(24, 2)] ∧
    fklVMhashTableGet twoZeros 33 zeroTable 32 = some none := by
  decide +kernel

end FakeLisp
