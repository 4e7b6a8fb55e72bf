import FakeLisp.DoublyLinked

/-! The chains of a hash table: each cell hangs from the bucket that its index gives. -/

namespace FakeLisp

/-- `&buckets[i]` or `&a->bkt_next`. -/
inductive BktLink (A : Type*) where
  | bucket (i : Nat)
  | next (a : A)

variable {A : Type*}

namespace BktLink

def load (bktNext : A → Option A) (buckets : Nat → Option A) : BktLink A → Option A
  | bucket i => buckets i
  | next a => bktNext a

variable [DecidableEq A]

def storeNext (pp : BktLink A) (x : Option A) (bktNext : A → Option A) : A → Option A :=
  match pp with
  | bucket _ => bktNext
  | next a => Function.update bktNext a x

def storeBucket (pp : BktLink A) (x : Option A) (buckets : Nat → Option A) : Nat → Option A :=
  match pp with
  | bucket i => Function.update buckets i x
  | next _ => buckets

end BktLink

/-- `for (; *pp; pp = &(*pp)->bkt_next) if (test(*pp)) return pp; return NULL;`, by fuel. -/
def findLink (bktNext : A → Option A) (buckets : Nat → Option A) (test : A → Bool) :
    Nat → BktLink A → Option (Option (BktLink A))
  | 0, _ => none
  | n + 1, pp =>
    match pp.load bktNext buckets with
    | none => some none
    | some a =>
      if test a then some (some pp) else findLink bktNext buckets test n (.next a)

/-- The link behind the cells `c` of the chain of bucket `i`. -/
def linkAfter (i : Nat) (c : List A) : BktLink A :=
  match c.getLast? with
  | none => .bucket i
  | some z => .next z

@[simp] theorem linkAfter_nil (i : Nat) : linkAfter i ([] : List A) = .bucket i := rfl

@[simp] theorem linkAfter_concat (i : Nat) (c : List A) (a : A) :
    linkAfter i (c ++ [a]) = .next a := by
  simp [linkAfter]

def Chained (bktNext : A → Option A) (buckets : Nat → Option A) (idx : A → Nat) (size : Nat)
    (l : List A) : Prop :=
  ∀ i < size, ∃ c, ListSeg bktNext (buckets i) c none ∧ c.Nodup ∧ ∀ a, a ∈ c ↔ a ∈ l ∧ idx a = i

variable {bktNext : A → Option A} {buckets : Nat → Option A} {test : A → Bool}
  {idx idx' : A → Nat} {i n size : Nat} {l l' c c₁ c₂ : List A} {a : A}

theorem load_linkAfter (h : ListSeg bktNext (buckets i) (c₁ ++ c₂) none) :
    (linkAfter i c₁).load bktNext buckets = c₂.head? := by
  obtain ⟨q, h₁, h₂⟩ := listSeg_append.mp h
  rcases List.eq_nil_or_concat' c₁ with rfl | ⟨c₁, z, rfl⟩
  · exact (listSeg_nil.mp h₁).trans h₂.start_eq
  · rw [linkAfter_concat]
    exact (listSeg_concat.mp h₁).2.trans h₂.start_eq

theorem findLink_none (c₁ : List A) (h : ListSeg bktNext (buckets i) (c₁ ++ c₂) none)
    (htest : ∀ a ∈ c₂, test a = false) (hn : c₂.length < n) :
    findLink bktNext buckets test n (linkAfter i c₁) = some none := by
  induction c₂ generalizing c₁ n with
  | nil =>
    obtain ⟨n, rfl⟩ := Nat.exists_eq_succ_of_ne_zero (Nat.ne_of_gt hn)
    simp [findLink, load_linkAfter h]
  | cons a c₂ ih =>
    obtain ⟨n, rfl⟩ := Nat.exists_eq_succ_of_ne_zero (Nat.ne_of_gt (Nat.zero_lt_of_lt hn))
    have hnext := ih (c₁ ++ [a]) (n := n) (by simpa using h)
      (fun b hb => htest b (List.mem_cons_of_mem a hb)) (by simpa using hn)
    simpa [findLink, load_linkAfter h, htest a List.mem_cons_self] using hnext

theorem findLink_some (c₁ : List A) (h : ListSeg bktNext (buckets i) (c₁ ++ (c ++ a :: c₂)) none)
    (htest : ∀ b ∈ c, test b = false) (ha : test a = true) (hn : c.length < n) :
    findLink bktNext buckets test n (linkAfter i c₁) = some (some (linkAfter i (c₁ ++ c))) := by
  induction c generalizing c₁ n with
  | nil =>
    obtain ⟨n, rfl⟩ := Nat.exists_eq_succ_of_ne_zero (Nat.ne_of_gt hn)
    simp [findLink, load_linkAfter h, ha]
  | cons b c ih =>
    obtain ⟨n, rfl⟩ := Nat.exists_eq_succ_of_ne_zero (Nat.ne_of_gt (Nat.zero_lt_of_lt hn))
    have hnext := ih (c₁ ++ [b]) (n := n) (by simpa using h)
      (fun b hb => htest b (List.mem_cons_of_mem _ hb)) (by simpa using hn)
    simpa [findLink, load_linkAfter h, htest b List.mem_cons_self] using hnext

namespace Chained

theorem nil : Chained bktNext (fun _ => none) idx size [] :=
  fun _ _ => ⟨[], rfl, List.nodup_nil, by simp⟩

variable [DecidableEq A]

/-- A new cell goes to the head of its chain. -/
theorem push (h : Chained bktNext buckets idx size l) (ha : a ∉ l) :
    Chained (Function.update bktNext a (buckets (idx a)))
      (Function.update buckets (idx a) (some a)) idx size (l ++ [a]) := by
  intro i hi
  obtain ⟨c, hc, hnd, hmem⟩ := h i hi
  have hac : a ∉ c := fun hac => ha ((hmem a).mp hac).1
  have hc' := hc.update hac (buckets (idx a))
  by_cases hia : idx a = i
  · subst hia
    refine ⟨a :: c, ⟨by simp, by simpa using hc'⟩, List.nodup_cons.mpr ⟨hac, hnd⟩, fun b => ?_⟩
    by_cases hb : b = a <;> simp [hb, hmem]
  · refine ⟨c, by simpa [Ne.symm hia] using hc', hnd, fun b => ?_⟩
    by_cases hb : b = a
    · simp [hb, hac, hia]
    · simp [hb, hmem]

/-- A cell is cut out of its chain by a store through the link to it. -/
theorem unlink (h : Chained bktNext buckets idx size l) (hi : i < size)
    (hc : ListSeg bktNext (buckets i) (c₁ ++ a :: c₂) none) (hl : l.Nodup) :
    Chained ((linkAfter i c₁).storeNext (bktNext a) bktNext)
      ((linkAfter i c₁).storeBucket (bktNext a) buckets) idx size (l.erase a) := by
  obtain ⟨c, hc', hnd, hmem⟩ := h i hi
  obtain rfl := hc.unique hc'
  have ha : idx a = i := ((hmem a).mp (by simp)).2
  obtain ⟨q, h₁, rfl, h₂⟩ := listSeg_append.mp hc
  have hcut : ListSeg ((linkAfter i c₁).storeNext (bktNext a) bktNext)
      ((linkAfter i c₁).storeBucket (bktNext a) buckets i) (c₁ ++ c₂) none := by
    rcases List.eq_nil_or_concat' c₁ with rfl | ⟨c₁, z, rfl⟩
    · simpa [BktLink.storeNext, BktLink.storeBucket] using h₂
    · have hz : z ∉ c₁ := fun hz => by
        have hsz := (List.nodup_append.mp hnd).1
        exact (List.nodup_append.mp hsz).2.2 z hz z (by simp) rfl
      have hz₂ : z ∉ c₂ := fun hz => by simp [List.nodup_append, hz] at hnd
      rw [linkAfter_concat]
      exact (h₁.redirect hz (bktNext a)).append (h₂.update hz₂ (bktNext a))
  intro j hj
  by_cases hij : j = i
  · subst hij
    refine ⟨c₁ ++ c₂, hcut, hnd.sublist ((List.sublist_cons_self a c₂).append_left c₁),
      fun b => ?_⟩
    have hb := hmem b
    rw [hl.mem_erase_iff]
    by_cases hba : b = a
    · subst hba
      simpa using (List.nodup_cons.mp (List.nodup_middle.mp hnd)).1
    · simpa [hba] using hb
  · obtain ⟨d, hd, hdnd, hdmem⟩ := h j hj
    refine ⟨d, ?_, hdnd, fun b => ?_⟩
    · rcases List.eq_nil_or_concat' c₁ with rfl | ⟨c₁, z, rfl⟩
      · simpa [BktLink.storeNext, BktLink.storeBucket, hij] using hd
      · have hzd : z ∉ d := fun hz =>
          hij (((hdmem z).mp hz).2.symm.trans ((hmem z).mp (by simp)).2)
        rw [linkAfter_concat]
        exact hd.update hzd (bktNext a)
    · rw [hl.mem_erase_iff, hdmem]
      by_cases hba : b = a
      · subst hba
        simp [ha, Ne.symm hij]
      · simp [hba]

end Chained

end FakeLisp
