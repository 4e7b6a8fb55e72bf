import FakeLisp.ValueFile
import Mathlib.Tactic.Common

/-! Values that have been copied to other addresses are compared as the originals are. -/

namespace FakeLisp

variable {A B : Type}

@[simp] theorem ValueWord.map_null (φ : A → B) : (ValueWord.null).map φ = .null := rfl
@[simp] theorem ValueWord.map_nil (φ : A → B) : (ValueWord.nil).map φ = .nil := rfl
@[simp] theorem ValueWord.map_fix (φ : A → B) (i : BitVec 61) :
    (ValueWord.fix i).map φ = .fix i := rfl
@[simp] theorem ValueWord.map_chr (φ : A → B) (c : UInt8) : (ValueWord.chr c).map φ = .chr c := rfl
@[simp] theorem ValueWord.map_ptr (φ : A → B) (a : A) : (ValueWord.ptr a).map φ = .ptr (φ a) := rfl

theorem ValueWord.map_congr {φ ψ : A → B} {w : ValueWord A} (h : ∀ a, w = .ptr a → φ a = ψ a) :
    w.map φ = w.map ψ := by
  cases w with
  | ptr a => simp [h a rfl]
  | _ => rfl

theorem ValueWord.map_inj {φ : A → B} {w w' : ValueWord A}
    (h : ∀ a b, w = .ptr a → w' = .ptr b → φ a = φ b → a = b) : w.map φ = w'.map φ ↔ w = w' := by
  constructor
  · intro he
    cases w <;> cases w' <;> simp_all
  · intro he
    rw [he]

theorem ValueObj.map_congr {φ ψ : A → B} {o : ValueObj A}
    (h : ∀ w ∈ o.words, w.map φ = w.map ψ) : o.map φ = o.map ψ := by
  cases o with
  | vec base =>
    have hbase : base.map (ValueWord.map φ) = base.map (ValueWord.map ψ) := List.map_congr_left h
    simp [map, hbase]
  | hashTable eqType ht =>
    have hht : ht.map (fun e => (e.1.map φ, e.2.map φ)) =
        ht.map fun e => (e.1.map ψ, e.2.map ψ) := by
      apply List.map_congr_left
      intro e he
      have hmem : ∀ w ∈ [e.1, e.2], w ∈ (ValueObj.hashTable eqType ht).words := fun w hw =>
        List.mem_flatMap.mpr ⟨e, he, hw⟩
      rw [h e.1 (hmem _ (by simp)), h e.2 (hmem _ (by simp))]
    simp [map, hht]
  | _ => simp_all [map, words]

@[simp] theorem ValueObj.isSingleton_map (φ : A → B) (o : ValueObj A) :
    (o.map φ).isSingleton = o.isSingleton := by
  cases o with
  | sym interned s => cases interned <;> rfl
  | _ => simp [map, isSingleton]

theorem ValueObj.eq_of_singleton {φ ψ : A → B} {o o' : ValueObj A} (ho : o.isSingleton = true)
    (h : o.map φ = o'.map ψ) : o = o' := by
  cases o <;> cases o' <;> simp_all [map, isSingleton]

theorem ValueObj.words_of_singleton {o : ValueObj A} (ho : o.isSingleton = true) :
    o.words = [] := by
  cases o <;> simp_all [isSingleton, words]

namespace ValueFile

variable [DecidableEq A] [DecidableEq B]

/-- The copies of the objects in `S`, from which no others can be reached, are in `obj'`. -/
structure Copied (S : A → Prop) (φ : A → B) (obj : A → Option (ValueObj A))
    (obj' : B → Option (ValueObj B)) : Prop where
  copy : ∀ a, S a → ∃ o, obj a = some o ∧ obj' (φ a) = some (o.map φ) ∧
    ∀ b, ValueWord.ptr b ∈ o.words → S b
  inj : ∀ a b, S a → S b → φ a = φ b → a = b

def WordIn (S : A → Prop) (w : ValueWord A) : Prop := ∀ a, w = .ptr a → S a

abbrev mapPair (φ : A → B) (p : ValueWord A × ValueWord A) : ValueWord B × ValueWord B :=
  (p.1.map φ, p.2.map φ)

omit [DecidableEq A] [DecidableEq B] in
theorem equalObjs_map (φ : A → B) (r : Bool) (o o' : ValueObj A) :
    equalObjs r (o.map φ) (o'.map φ) =
      ((equalObjs r o o').1, (equalObjs r o o').2.map (mapPair φ)) := by
  cases o <;> cases o' <;> try rfl
  · simp only [ValueObj.map, equalObjs, List.length_map]
    split
    · rfl
    · rw [List.zip_map]
      rfl
  · simp only [ValueObj.map, equalObjs, List.length_map]
    split
    · rfl
    · rw [List.zip_map, List.flatMap_map, List.map_flatMap]
      rfl

omit [DecidableEq A] [DecidableEq B] in
theorem mem_words_of_equalObjs {r : Bool} {o o' : ValueObj A} {p : ValueWord A × ValueWord A}
    (h : p ∈ (equalObjs r o o').2) : p.1 ∈ o.words ∧ p.2 ∈ o'.words := by
  cases o <;> cases o' <;> try exact absurd h List.not_mem_nil
  · simp [equalObjs] at h
    rcases h with rfl | rfl <;> simp [ValueObj.words]
  · simp only [equalObjs] at h
    split at h
    · cases h
    · exact ⟨(List.of_mem_zip h).1, (List.of_mem_zip h).2⟩
  · simp [equalObjs] at h
    subst h
    simp [ValueObj.words]
  · simp only [equalObjs] at h
    split at h
    · cases h
    · obtain ⟨q, hq, hp⟩ := List.mem_flatMap.mp h
      obtain ⟨hq1, hq2⟩ := List.of_mem_zip hq
      simp only [List.mem_cons, List.not_mem_nil, or_false] at hp
      simp only [ValueObj.words, List.mem_flatMap]
      rcases hp with rfl | rfl
      · exact ⟨⟨q.1, hq1, by simp⟩, ⟨q.2, hq2, by simp⟩⟩
      · exact ⟨⟨q.1, hq1, by simp⟩, ⟨q.2, hq2, by simp⟩⟩

variable {S : A → Prop} {φ : A → B} {obj : A → Option (ValueObj A)}
  {obj' : B → Option (ValueObj B)}

omit [DecidableEq A] [DecidableEq B] in
theorem Copied.map_inj (h : Copied S φ obj obj') {w w' : ValueWord A} (hw : WordIn S w)
    (hw' : WordIn S w') : w.map φ = w'.map φ ↔ w = w' :=
  ValueWord.map_inj fun a b ha hb => h.inj a b (hw a ha) (hw' b hb)

theorem equalRound_map (h : Copied S φ obj obj') (r : Bool) {w w' : ValueWord A}
    (hw : WordIn S w) (hw' : WordIn S w') :
    equalRound obj' r (w.map φ) (w'.map φ) =
      (equalRound obj r w w').map fun x => (x.1, x.2.map (mapPair φ)) := by
  have hinj := h.map_inj hw hw'
  cases w <;> cases w' <;> try rfl
  · simp [equalRound]
  · simp [equalRound]
  · next a b =>
    obtain ⟨o, ho, hcopy, -⟩ := h.copy a (hw a rfl)
    obtain ⟨o', ho', hcopy', -⟩ := h.copy b (hw' b rfl)
    simp only [ValueWord.map, ValueWord.ptr.injEq] at hinj
    simp only [ValueWord.map, equalRound, hinj, ho, ho', hcopy, hcopy']
    split
    · rfl
    · simp [equalObjs_map]

omit [DecidableEq B] in
theorem equalRound_pushed (h : Copied S φ obj obj') {r r' : Bool} {w w' : ValueWord A}
    {pushed : List (ValueWord A × ValueWord A)} (hw : WordIn S w) (hw' : WordIn S w')
    (hround : equalRound obj r w w' = some (r', pushed)) :
    ∀ p ∈ pushed, WordIn S p.1 ∧ WordIn S p.2 := by
  cases w <;> cases w' <;> try simp_all [equalRound]
  next a b =>
    obtain ⟨o, ho, -, hwords⟩ := h.copy a (hw a rfl)
    obtain ⟨o', ho', -, hwords'⟩ := h.copy b (hw' b rfl)
    split at hround
    · obtain ⟨-, rfl⟩ := Prod.mk.inj (Option.some.inj hround)
      simp
    · rw [ho, Option.bind_some, ho', Option.bind_some, Option.some.injEq] at hround
      intro x y hp
      have hp : (x, y) ∈ (equalObjs r o o').2 := by rwa [hround]
      obtain ⟨hx, hy⟩ := mem_words_of_equalObjs hp
      constructor
      · rintro c rfl
        exact hwords c hx
      · rintro c rfl
        exact hwords' c hy

theorem equalLoop_map (h : Copied S φ obj obj') (fuel : Nat) {r : Bool}
    {s : List (ValueWord A × ValueWord A)} (hs : ∀ p ∈ s, WordIn S p.1 ∧ WordIn S p.2) :
    equalLoop obj' fuel r (s.map (mapPair φ)) = equalLoop obj fuel r s := by
  induction fuel generalizing r s with
  | zero => cases s <;> rfl
  | succ fuel ih =>
    cases s with
    | nil => rfl
    | cons p s =>
      obtain ⟨w, w'⟩ := p
      obtain ⟨hw, hw'⟩ := hs (w, w') List.mem_cons_self
      simp only [List.map_cons, mapPair, equalLoop, equalRound_map h r hw hw']
      cases hround : equalRound obj r w w' with
      | none => rfl
      | some x =>
        obtain ⟨r', pushed⟩ := x
        have hpushed := equalRound_pushed h hw hw' hround
        have hrest := ih (r := r') (s := pushed ++ s) fun p hp =>
          (List.mem_append.mp hp).elim (hpushed p) fun hp => hs p (List.mem_cons_of_mem _ hp)
        rw [List.map_append] at hrest
        cases r' with
        | false => rfl
        | true => simpa using hrest

omit [DecidableEq A] [DecidableEq B] in
theorem bigintOf_map (h : Copied S φ obj obj') {w : ValueWord A} (hw : WordIn S w) :
    bigintOf obj' (w.map φ) = bigintOf obj w := by
  cases w with
  | ptr a =>
    obtain ⟨o, ho, hcopy, -⟩ := h.copy a (hw a rfl)
    simp only [ValueWord.map, bigintOf, ho, hcopy, Option.map_some]
    cases o <;> rfl
  | _ => rfl

/-- Keys are equal in the copy exactly where they are equal. -/
theorem hashEqFunc_map (h : Copied S φ obj obj') (fuel : Nat) (eqType : FklHashTableEqType)
    {w w' : ValueWord A} (hw : WordIn S w) (hw' : WordIn S w') :
    hashEqFunc obj' fuel eqType (w.map φ) (w'.map φ) = hashEqFunc obj fuel eqType w w' := by
  have hinj := h.map_inj hw hw'
  cases eqType with
  | eq => simp [hashEqFunc, hinj]
  | eqv =>
    simp only [hashEqFunc, fklVMvalueEqv, bigintOf_map h hw, bigintOf_map h hw', hinj]
  | equal =>
    have hloop := equalLoop_map h fuel (r := true) (s := [(w, w')]) (by simp [hw, hw'])
    simp only [hashEqFunc, fklVMvalueEqual, hinj]
    split
    · rfl
    · exact hloop

/-- A key that is not in the table is put at the end. -/
theorem fklVMhashTableSet_of_apart {fuel : Nat} {bucket : ValueWord A → Nat}
    {eqType : FklHashTableEqType} {key v : ValueWord A} {ht : List (ValueWord A × ValueWord A)}
    (h : ∀ e ∈ ht, hashEqFunc obj fuel eqType key e.1 = some false) :
    fklVMhashTableSet obj fuel bucket eqType key v ht = some (ht ++ [(key, v)]) := by
  induction ht with
  | nil => rfl
  | cons e ht ih =>
    have hrest := ih fun e' he' => h e' (List.mem_cons_of_mem e he')
    simp [fklVMhashTableSet, h e List.mem_cons_self, hrest]

end ValueFile

end FakeLisp
