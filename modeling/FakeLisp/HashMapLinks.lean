import FakeLisp.HashMap

/-! What holds of the nodes of a hash table, and what each operation makes of it. -/

namespace FakeLisp

/-! The capacities are powers of two. -/

/-- Bit `i` of `y` says whether one of the `n` bits of `x` from `i` on is set. -/
def Smears (n x y : Nat) : Prop := ∀ i, y.testBit i = true ↔ ∃ d < n, x.testBit (i + d) = true

theorem smears_one (x : Nat) : Smears 1 x x := by
  intro i
  simp

theorem Smears.double {n x y : Nat} (h : Smears n x y) : Smears (n + n) x (y ||| y >>> n) := by
  intro i
  rw [Nat.testBit_or, Bool.or_eq_true, Nat.testBit_shiftRight, h, h]
  constructor
  · rintro (⟨d, hd, hx⟩ | ⟨d, hd, hx⟩)
    · exact ⟨d, by omega, hx⟩
    · exact ⟨n + d, by omega, by rwa [← Nat.add_assoc, Nat.add_comm i n]⟩
  · rintro ⟨d, hd, hx⟩
    by_cases hdn : d < n
    · exact Or.inl ⟨d, hdn, hx⟩
    · exact Or.inr ⟨d - n, by omega, by rwa [show n + i + (d - n) = i + d by omega]⟩

theorem Smears.eq_of_log2 {n x y : Nat} (h : Smears n x y) (hx : x ≠ 0) (hn : x.log2 < n) :
    y = 2 ^ (x.log2 + 1) - 1 := by
  apply Nat.eq_of_testBit_eq
  intro i
  rw [Nat.testBit_two_pow_sub_one, Bool.eq_iff_iff, h, decide_eq_true_iff]
  constructor
  · rintro ⟨d, -, hd⟩
    have := (Nat.le_log2 hx).mpr (Nat.ge_two_pow_of_testBit hd)
    omega
  · intro hi
    refine ⟨x.log2 - i, by omega, ?_⟩
    rw [show i + (x.log2 - i) = x.log2 by omega]
    exact Nat.testBit_log2 hx

theorem Smears.zero {n y : Nat} (h : Smears n 0 y) : y = 0 := by
  apply Nat.eq_of_testBit_eq
  intro i
  rw [Bool.eq_iff_iff, h]
  simp

theorem u32_sub_one {n : Nat} (h0 : 0 < n) (h : n < 2 ^ 32) : u32 ((n : Int) - 1) = n - 1 := by
  rw [show ((n : Int) - 1) = ((n - 1 : Nat) : Int) by omega]
  exact u32_of_lt (by omega)

theorem u32_add_one {n : Nat} (h : n + 1 < 2 ^ 32) : u32 ((n : Int) + 1) = n + 1 := by
  exact_mod_cast u32_of_lt h

theorem smears_fklHashSmear (x : Nat) : Smears 32 x (fklHashSmear x) :=
  (smears_one x).double.double.double.double.double

theorem fklHashNextPow2_spec {n : Nat} (h0 : 0 < n) (h : n ≤ 2 ^ 31) :
    ∃ j ≤ 31, fklHashNextPow2 n = 2 ^ j ∧ n ≤ 2 ^ j := by
  unfold fklHashNextPow2
  rw [u32_sub_one h0 (by omega)]
  have hs := smears_fklHashSmear (n - 1)
  rcases Nat.eq_zero_or_pos (n - 1) with hz | hpos
  · rw [hz] at hs ⊢
    rw [hs.zero]
    exact ⟨0, by omega, rfl, by omega⟩
  · have hlog : (n - 1).log2 < 31 := (Nat.log2_lt (by omega)).mpr (by omega)
    rw [hs.eq_of_log2 (by omega) (by omega)]
    have hle : 2 ^ ((n - 1).log2 + 1) ≤ 2 ^ 31 := Nat.pow_le_pow_right (by omega) hlog
    have hpow := Nat.two_pow_pos ((n - 1).log2 + 1)
    refine ⟨(n - 1).log2 + 1, hlog, ?_, ?_⟩
    · rw [u32_add_one (by omega)]
      omega
    · have := Nat.lt_log2_self (n := n - 1)
      omega

theorem fklHashThreshold_le (j : Nat) : fklHashThreshold (2 ^ j) ≤ 2 ^ j := by
  apply Nat.le_of_lt
  have hlt {i : Nat} (hi : 0 < i) : 2 ^ j >>> i < 2 ^ j := by
    rw [Nat.shiftRight_eq_div_pow]
    exact Nat.div_lt_self (Nat.two_pow_pos j) (Nat.one_lt_two_pow (by omega))
  exact Nat.or_lt_two_pow (hlt (by omega)) (hlt (by omega))

/-- The fields of a table that say how large it is. -/
structure FklHashMap.Sized {A K V : Type} (m : FklHashMap A K V) : Prop where
  capacity : ∃ j ≤ 31, m.capacity = 2 ^ j
  mask : m.mask = m.capacity - 1
  threshold : m.rehashThreshold = fklHashThreshold m.capacity

namespace FklHashMap.Sized

variable {A K V : Type} {m : FklHashMap A K V}

theorem capacity_pos (h : m.Sized) : 0 < m.capacity := by
  obtain ⟨j, -, hj⟩ := h.capacity
  rw [hj]
  exact Nat.two_pow_pos j

theorem capacity_le (h : m.Sized) : m.capacity ≤ 2 ^ 31 := by
  obtain ⟨j, hj, hcap⟩ := h.capacity
  rw [hcap]
  exact Nat.pow_le_pow_right (by omega) hj

/-- Every hash value has a bucket. -/
theorem idx_lt (h : m.Sized) (hashv : Nat) : hashv &&& m.mask < m.capacity := by
  have := h.capacity_pos
  have : hashv &&& m.mask ≤ m.mask := Nat.and_le_right
  have := h.mask
  omega

theorem twice (h : m.Sized) (hcap : m.capacity ≠ 2 ^ 31) :
    ∃ j ≤ 31, u32 ((m.capacity : Int) * 2) = 2 ^ j ∧ 2 ^ j = 2 * m.capacity := by
  obtain ⟨j, hj, hc⟩ := h.capacity
  have hlt : j < 31 := by
    rcases Nat.lt_or_ge j 31 with hlt | hge
    · exact hlt
    · exact absurd (by rw [hc, Nat.le_antisymm hj hge]) hcap
  have hle : 2 ^ (j + 1) ≤ 2 ^ 31 := Nat.pow_le_pow_right (by omega) hlt
  refine ⟨j + 1, hlt, ?_, by rw [hc]; ring⟩
  rw [hc, ← u32_of_lt (n := 2 ^ (j + 1)) (by omega)]
  congr 1

end FklHashMap.Sized

/-! The nodes. -/

variable {A K V : Type}

open Function (update)

/-- Equality of keys is an equivalence that the hash respects; a new node is not in use. -/
structure FklHashConf.Lawful (P : FklHashConf A K V) : Prop where
  equiv : KeyEquiv P.keyEqual
  hashv : ∀ k k', P.keyEqual k k' = true → P.hashv k = P.hashv k'
  calloc : ∀ live, P.calloc live ∉ live

namespace FklHashMap

/-- The bucket of a node. -/
def idx (m : FklHashMap A K V) (a : A) : Nat := m.hashv a &&& m.mask

/-- The nodes `l` are the list of the table, and each is in the chain of its bucket. -/
structure Linked (P : FklHashConf A K V) (m : FklHashMap A K V) (l : List A) : Prop where
  sized : m.Sized
  order : DoublyLinked m.prev m.next m.first m.last l
  chains : Chained m.bktNext m.buckets m.idx m.capacity l
  count : m.count = l.length
  load : m.count ≤ m.capacity
  hashv : ∀ a ∈ l, m.hashv a = P.hashv (m.k a)
  unequal : l.Pairwise fun a b => P.keyEqual (m.k a) (m.k b) = false

/-- Besides, these are the nodes allocated for the table. -/
structure WellLinked (P : FklHashConf A K V) (m : FklHashMap A K V) (l : List A) : Prop
    extends m.Linked P l where
  live : m.live.Perm l

variable {P : FklHashConf A K V} {m : FklHashMap A K V} {l : List A} {k : K} {a : A}

theorem wellLinked_init (P : FklHashConf A K V) (m : FklHashMap A K V) :
    (fklHashMapInit m).WellLinked P [] where
  sized := ⟨⟨3, by decide, rfl⟩, rfl, rfl⟩
  order := DoublyLinked.nil
  chains := Chained.nil
  count := rfl
  load := Nat.zero_le _
  hashv := by simp
  unequal := List.Pairwise.nil
  live := List.Perm.nil

/-- At most one node of the table has a key equal to `k`. -/
theorem Linked.unique (h : m.Linked P l) (hP : P.Lawful) (ha : a ∈ l)
    (hk : P.keyEqual k (m.k a) = true) {b : A} (hb : b ∈ l)
    (hkb : P.keyEqual k (m.k b) = true) : b = a := by
  by_contra hne
  have hab : P.keyEqual (m.k b) (m.k a) = true :=
    hP.equiv.trans _ _ _ (hP.equiv.symm _ _ hkb) hk
  have : Std.Symm fun x y => P.keyEqual (m.k x) (m.k y) = false :=
    ⟨fun x y hxy => by rwa [hP.equiv.comm]⟩
  have hfalse := h.unequal.forall hb ha hne
  simp [hfalse] at hab

theorem Linked.find?_eq (h : m.Linked P l) (hP : P.Lawful) (ha : a ∈ l)
    (hk : P.keyEqual k (m.k a) = true) {c : List A} (hc : ∀ b ∈ c, b ∈ l) (hac : a ∈ c) :
    c.find? (fun b => P.keyEqual k (m.k b)) = some a := by
  cases hf : c.find? (fun b => P.keyEqual k (m.k b)) with
  | none => exact absurd hk (by simpa using List.find?_eq_none.mp hf a hac)
  | some b =>
    rw [h.unique hP ha hk (hc b (List.mem_of_find?_eq_some hf)) (by simpa using List.find?_some hf)]

theorem Linked.idx_of_equal (h : m.Linked P l) (hP : P.Lawful) (ha : a ∈ l)
    (hk : P.keyEqual k (m.k a) = true) : m.idx a = P.hashv k &&& m.mask := by
  rw [idx, h.hashv a ha, hP.hashv _ _ hk]

/-- The search of the chain of a key finds the node that has the key. -/
theorem Linked.find (h : m.Linked P l) (hP : P.Lawful) (hlive : l.length ≤ m.live.length)
    (k : K) : fklHashMapFind P m k = some (l.find? fun a => P.keyEqual k (m.k a)) := by
  obtain ⟨c, hc, hnd, hmem⟩ := h.chains _ (h.sized.idx_lt (P.hashv k))
  have hsub : ∀ b ∈ c, b ∈ l := fun b hb => ((hmem b).mp hb).1
  have hlen : c.length ≤ l.length := (hnd.subperm hsub).length_le
  unfold fklHashMapFind
  rw [hc.findList _ (by omega)]
  congr 1
  cases hf : l.find? (fun a => P.keyEqual k (m.k a)) with
  | none =>
    rw [List.find?_eq_none] at hf ⊢
    exact fun b hb => hf b (hsub b hb)
  | some a =>
    have hal := List.mem_of_find?_eq_some hf
    have hk : P.keyEqual k (m.k a) = true := by simpa using List.find?_some hf
    exact h.find?_eq hP hal hk hsub ((hmem a).mpr ⟨hal, h.idx_of_equal hP hal hk⟩)

/-- The walk along the links of a chain stops at the link to the node that has the key. -/
theorem Linked.findLink_some (h : m.Linked P l) (hP : P.Lawful)
    (hlive : l.length ≤ m.live.length)
    (hf : l.find? (fun a => P.keyEqual k (m.k a)) = some a) :
    ∃ c₁ c₂, fklHashMapFindLink P m k = some (some (linkAfter (P.hashv k &&& m.mask) c₁)) ∧
      ListSeg m.bktNext (m.buckets (P.hashv k &&& m.mask)) (c₁ ++ a :: c₂) none := by
  obtain ⟨c, hc, hnd, hmem⟩ := h.chains _ (h.sized.idx_lt (P.hashv k))
  have hsub : ∀ b ∈ c, b ∈ l := fun b hb => ((hmem b).mp hb).1
  have hlen : c.length ≤ l.length := (hnd.subperm hsub).length_le
  have hal := List.mem_of_find?_eq_some hf
  have hk : P.keyEqual k (m.k a) = true := by simpa using List.find?_some hf
  have hcf := h.find?_eq hP hal hk hsub ((hmem a).mpr ⟨hal, h.idx_of_equal hP hal hk⟩)
  obtain ⟨-, c₁, c₂, rfl, htest⟩ := List.find?_eq_some_iff_append.mp hcf
  refine ⟨c₁, c₂, ?_, hc⟩
  have hwalk := FakeLisp.findLink_some [] (n := m.live.length + 1) hc
    (fun b hb => by simpa using htest b hb) hk (by
      simp only [List.length_append, List.length_cons] at hlen
      omega)
  exact hwalk

theorem Linked.findLink_none (h : m.Linked P l) (hlive : l.length ≤ m.live.length)
    (hf : l.find? (fun a => P.keyEqual k (m.k a)) = none) :
    fklHashMapFindLink P m k = some none := by
  obtain ⟨c, hc, hnd, hmem⟩ := h.chains _ (h.sized.idx_lt (P.hashv k))
  have hsub : ∀ b ∈ c, b ∈ l := fun b hb => ((hmem b).mp hb).1
  have hlen : c.length ≤ l.length := (hnd.subperm hsub).length_le
  exact FakeLisp.findLink_none [] hc
    (fun b hb => by simpa using List.find?_eq_none.mp hf b (hsub b hb)) (by omega)

/-- A link of the table is the end of a chain or leads to a node of one. -/
theorem WellLinked.link_cases (h : m.WellLinked P l) {pp : BktLink A} (hpp : m.IsLink pp) :
    pp.load m.bktNext m.buckets = none ∨ ∃ i c₁ a c₂, i < m.capacity ∧ pp = linkAfter i c₁ ∧
      a ∈ l ∧ pp.load m.bktNext m.buckets = some a ∧
      ListSeg m.bktNext (m.buckets i) (c₁ ++ a :: c₂) none := by
  have hafter : ∃ i c₁ c₂, i < m.capacity ∧ pp = linkAfter i c₁ ∧ (∀ a ∈ c₂, a ∈ l) ∧
      ListSeg m.bktNext (m.buckets i) (c₁ ++ c₂) none := by
    cases pp with
    | bucket i =>
      obtain ⟨c, hc, -, hmem⟩ := h.chains i hpp
      exact ⟨i, [], c, hpp, rfl, fun a ha => ((hmem a).mp ha).1, hc⟩
    | next z =>
      obtain ⟨c, hc, -, hmem⟩ := h.chains (m.idx z) (h.sized.idx_lt _)
      obtain ⟨c₁, c₂, rfl⟩ :=
        List.append_of_mem ((hmem z).mpr ⟨h.live.mem_iff.mp hpp, rfl⟩)
      refine ⟨m.idx z, c₁ ++ [z], c₂, h.sized.idx_lt _, by simp,
        fun a ha => ((hmem a).mp (by simp [ha])).1, by simpa using hc⟩
  obtain ⟨i, c₁, c₂, hi, rfl, hmem, hc⟩ := hafter
  cases c₂ with
  | nil => exact Or.inl (load_linkAfter hc)
  | cons a c₂ =>
    exact Or.inr ⟨i, c₁, a, c₂, hi, rfl, hmem a List.mem_cons_self, load_linkAfter hc, hc⟩

variable [DecidableEq A]

/-- The table whose chains are those of `l`. -/
theorem chain_foldlM (m : FklHashMap A K V) {s : List A} (hs : (l ++ s).Nodup)
    (h : Chained m.bktNext m.buckets m.idx m.capacity l) :
    ∃ bktNext buckets, s.foldlM (fun (self : FklHashMap A K V) cur => some (self.chain cur)) m =
        some { m with bktNext := bktNext, buckets := buckets } ∧
      Chained bktNext buckets m.idx m.capacity (l ++ s) := by
  induction s generalizing l m with
  | nil => exact ⟨m.bktNext, m.buckets, rfl, by simpa using h⟩
  | cons a s ih =>
    have ha : a ∉ l := fun ha => by
      simpa using (List.nodup_append.mp hs).2.2 a ha a List.mem_cons_self
    obtain ⟨bktNext, buckets, hfold, hch⟩ := ih (m.chain a) (l := l ++ [a]) (by simpa using hs)
      (h.push ha)
    rw [List.append_assoc] at hch
    exact ⟨bktNext, buckets, hfold, hch⟩

/-- Rehashing makes all chains anew. -/
theorem rehash_eq (m : FklHashMap A K V) (horder : DoublyLinked m.prev m.next m.first m.last l)
    (hlive : l.length ≤ m.live.length) :
    ∃ bktNext buckets,
      fklHashMapRehash m = some { m with bktNext := bktNext, buckets := buckets } ∧
        Chained bktNext buckets m.idx m.capacity l := by
  obtain ⟨bktNext, buckets, hfold, hch⟩ :=
    chain_foldlM (l := []) { m with buckets := fun _ => none } (by simpa using horder.nodup)
      Chained.nil
  refine ⟨bktNext, buckets, ?_, hch⟩
  unfold fklHashMapRehash
  rw [horder.forward.walkList _ (by omega), hfold]

/-- The tables differ only in their size and their chains. -/
def Resized (m m' : FklHashMap A K V) : Prop :=
  m' = { m with
    bktNext := m'.bktNext, buckets := m'.buckets, capacity := m'.capacity, mask := m'.mask
    rehashThreshold := m'.rehashThreshold }

/-- A table of another size, rehashed. -/
theorem Linked.resize (h : m.Linked P l) (m' : FklHashMap A K V) (hm' : m'.Sized)
    (heq : m.Resized m') (hload : m.count ≤ m'.capacity) (hlive : l.length ≤ m.live.length) :
    ∃ m'', fklHashMapRehash m' = some m'' ∧ m''.Linked P l ∧ m.Resized m'' ∧
      m''.capacity = m'.capacity := by
  obtain ⟨bktNext, buckets, hr, hch⟩ := rehash_eq m' (by rw [heq]; exact h.order)
    (by rw [heq]; exact hlive)
  refine ⟨_, hr, ?_, by rw [Resized, heq], rfl⟩
  rw [heq] at hch hm' ⊢
  exact ⟨⟨hm'.capacity, hm'.mask, hm'.threshold⟩, h.order, hch, h.count, hload, h.hashv, h.unequal⟩

omit [DecidableEq A] in
theorem sized_of_pow {m' : FklHashMap A K V} {j : Nat} (hj : j ≤ 31) (hc : m'.capacity = 2 ^ j)
    (hm : m'.mask = u32 ((m'.capacity : Int) - 1))
    (ht : m'.rehashThreshold = fklHashThreshold m'.capacity) : m'.Sized := by
  refine ⟨⟨j, hj, hc⟩, ?_, ht⟩
  have hle : 2 ^ j ≤ 2 ^ 31 := Nat.pow_le_pow_right (by omega) hj
  have := Nat.two_pow_pos j
  rw [hm, u32_sub_one (by omega) (by omega)]

theorem Linked.rehash (h : m.Linked P l) (hlive : l.length ≤ m.live.length) :
    ∃ m', fklHashMapRehash m = some m' ∧ m'.Linked P l ∧ m.Resized m' := by
  obtain ⟨m', hr, hm', heq, -⟩ := h.resize m h.sized rfl h.load hlive
  exact ⟨m', hr, hm', heq⟩

theorem Linked.grow (h : m.Linked P l) (hcap : m.capacity ≠ 2 ^ 31)
    (hlive : l.length ≤ m.live.length) :
    ∃ m', fklHashMapGrow m = some m' ∧ m'.Linked P l ∧ m.Resized m' ∧ m.count < m'.capacity := by
  obtain ⟨j, hj, htwice, hpow⟩ := h.sized.twice hcap
  have hpos := h.sized.capacity_pos
  have hload := h.load
  obtain ⟨m', hr, hm', heq, hc⟩ := h.resize { m with
      capacity := 2 ^ j
      mask := u32 (((2 ^ j : Nat) : Int) - 1)
      rehashThreshold := fklHashThreshold (2 ^ j) }
    (sized_of_pow hj rfl rfl rfl) rfl (by simp only; omega) hlive
  refine ⟨m', ?_, hm', heq, by rw [hc]; simp only; omega⟩
  unfold fklHashMapGrow
  rw [htwice]
  exact bind_eq_of_eq (fklAssert_eq_some (Nat.two_pow_pos j).ne') hr

theorem grow_eq_none (hcap : m.capacity = 2 ^ 31) : fklHashMapGrow m = none := by
  unfold fklHashMapGrow
  rw [hcap]
  rfl

theorem Linked.shrink (h : m.Linked P l) (hlive : l.length ≤ m.live.length) :
    ∃ m', fklHashMapShrink m = some m' ∧ m'.Linked P l ∧ m.Resized m' := by
  have hsize : ∃ j ≤ 31,
      (if m.count = 0 then fklHashDefaultCapacity else fklHashNextPow2 m.count) = 2 ^ j ∧
        m.count ≤ 2 ^ j := by
    split
    · exact ⟨3, by omega, rfl, by omega⟩
    · exact fklHashNextPow2_spec (by omega) (h.load.trans h.sized.capacity_le)
  obtain ⟨j, hj, hc, hle⟩ := hsize
  unfold fklHashMapShrink
  rw [hc]
  by_cases hold : m.capacity ≤ 2 ^ j
  · exact ⟨m, by simp [hold], h, rfl⟩
  · obtain ⟨m', hr, hm', heq, -⟩ := h.resize { m with
        capacity := 2 ^ j
        mask := u32 (((2 ^ j : Nat) : Int) - 1)
        rehashThreshold := fklHashThreshold (2 ^ j) }
      (sized_of_pow hj rfl rfl rfl) rfl hle hlive
    refine ⟨m', ?_, hm', heq⟩
    simp only [if_neg hold]
    exact bind_eq_of_eq (fklAssert_eq_some (Nat.two_pow_pos j).ne') hr

theorem append_eq (h : DoublyLinked m.prev m.next m.first m.last l) (ha : a ∉ l)
    (hp : m.prev a = none) (hn : m.next a = none) :
    ∃ prev next first last, m.append a =
        some { m with prev := prev, next := next, first := first, last := last } ∧
      DoublyLinked prev next first last (l ++ [a]) := by
  cases hl : m.last with
  | none =>
    have hnil : l = [] := by simpa [h.last_eq] using hl
    subst hnil
    have hf : m.first = none := h.first_eq
    exact ⟨m.prev, m.next, some a, some a, by simp [append, hf], DoublyLinked.singleton hp hn⟩
  | some b =>
    rw [hl] at h
    cases hf : m.first with
    | none =>
      have hnil : l = [] := by simpa [h.first_eq] using hf
      subst hnil
      exact nomatch h.last_eq
    | some c =>
      refine ⟨update m.prev a (some b), update m.next b (some a), some c, some a,
        by simp [append, hf, hl], ?_⟩
      rw [← hf]
      exact h.push ha hn

/-- A node of a new key joins a table that has room. -/
theorem Linked.join (h : m.Linked P l) (hP : P.Lawful) (ha : a ∉ l) (hp : m.prev a = none)
    (hn : m.next a = none) (hhash : m.hashv a = P.hashv (m.k a))
    (hk : ∀ b ∈ l, P.keyEqual (m.k a) (m.k b) = false) (hroom : m.count < m.capacity) :
    ∃ m', (m.chain a).append a = some m' ∧
      { m' with count := u32 ((m'.count : Int) + 1) }.Linked P (l ++ [a]) ∧
      m'.k = m.k ∧ m'.v = m.v ∧ m'.live = m.live := by
  obtain ⟨prev, next, first, last, happ, horder⟩ :=
    append_eq (m := m.chain a) (l := l) h.order ha hp hn
  have hcap := h.sized.capacity_le
  have hcount : u32 ((m.count : Int) + 1) = m.count + 1 := u32_add_one (by omega)
  refine ⟨_, happ, ⟨⟨h.sized.capacity, h.sized.mask, h.sized.threshold⟩, horder,
    h.chains.push ha, ?_, ?_, ?_, ?_⟩, rfl, rfl, rfl⟩
  · rw [List.length_append, List.length_singleton, ← h.count]
    exact hcount
  · exact hcount.trans_le hroom
  · intro b hb
    rcases List.mem_append.mp hb with hb | hb
    · exact h.hashv b hb
    · rw [List.mem_singleton.mp hb]
      exact hhash
  · refine List.pairwise_append.mpr ⟨h.unequal, List.pairwise_singleton _ a, ?_⟩
    intro b hb c hc
    rw [List.mem_singleton.mp hc, hP.equiv.comm]
    exact hk b hb

/-- No larger table can be had. -/
def Full (m : FklHashMap A K V) : Prop := m.capacity = 2 ^ 31 ∧ m.rehashThreshold ≤ m.count

theorem Linked.insertNode (h : m.Linked P l) (hP : P.Lawful) (ha : a ∉ l) (hp : m.prev a = none)
    (hn : m.next a = none) (hhash : m.hashv a = P.hashv (m.k a))
    (hk : ∀ b ∈ l, P.keyEqual (m.k a) (m.k b) = false) (hfull : ¬m.Full)
    (hlive : l.length ≤ m.live.length) :
    ∃ pp m', fklHashMapInsertNode m a = some (pp, m') ∧ m'.Linked P (l ++ [a]) ∧
      m'.k = m.k ∧ m'.v = m.v ∧ m'.live = m.live := by
  have hgrown : ∃ m', (if m.count ≥ m.rehashThreshold then fklHashMapGrow m else some m) =
      some m' ∧ m'.Linked P l ∧ m.Resized m' ∧ m.count < m'.capacity := by
    split
    · exact h.grow (fun hcap => hfull ⟨hcap, ‹_›⟩) hlive
    · refine ⟨m, rfl, h, rfl, ?_⟩
      obtain ⟨j, -, hj⟩ := h.sized.capacity
      have hle := fklHashThreshold_le j
      rw [← hj, ← h.sized.threshold] at hle
      omega
  obtain ⟨g, hg, hgl, heq, hroom⟩ := hgrown
  obtain ⟨hk', hv', hl', hc'⟩ : g.k = m.k ∧ g.v = m.v ∧ g.live = m.live ∧ g.count = m.count := by
    rw [heq]
    exact ⟨rfl, rfl, rfl, rfl⟩
  obtain ⟨m', happ, hm', hmk, hmv, hml⟩ := hgl.join hP ha (by rw [heq]; exact hp)
    (by rw [heq]; exact hn) (by rw [heq]; exact hhash) (by rw [heq]; exact hk) (by rwa [hc'])
  refine ⟨.bucket (g.idx a), _, ?_, hm', hmk.trans hk', hmv.trans hv', hml.trans hl'⟩
  unfold fklHashMapInsertNode
  rw [hg]
  simp [happ, idx]

theorem insertNode_eq_none (hfull : m.Full) : fklHashMapInsertNode m a = none := by
  unfold fklHashMapInsertNode
  rw [if_pos hfull.2, grow_eq_none hfull.1]
  rfl

/-- What is written at an address that is not of the table does not touch it. -/
theorem Linked.write (h : m.Linked P l) (ha : a ∉ l) (p n b : Option A) (x : Nat) (k : K) (v : V)
    (live : List A) :
    { m with
      prev := update m.prev a p, next := update m.next a n, bktNext := update m.bktNext a b
      hashv := update m.hashv a x, k := update m.k a k, v := update m.v a v
      live := live }.Linked P l := by
  have hof {β : Type} (f : A → β) (y : β) (c : A) (hc : c ∈ l) : update f a y c = f c := by
    have hne : c ≠ a := fun hca => ha (hca ▸ hc)
    exact Function.update_of_ne hne y f
  refine ⟨⟨h.sized.capacity, h.sized.mask, h.sized.threshold⟩,
    ⟨h.order.forward.update ha n, h.order.backward.update (by simpa using ha) p, h.order.nodup⟩,
    ?_, h.count, h.load, fun c hc => ?_, ?_⟩
  · intro i hi
    obtain ⟨c, hc, hnd, hmem⟩ := h.chains i hi
    refine ⟨c, hc.update (fun hac => ha ((hmem a).mp hac).1) b, hnd, fun d => ?_⟩
    rw [hmem]
    refine and_congr_right fun hd => ?_
    simp only [idx, hof _ _ d hd]
  · simp only [hof _ _ c hc]
    exact h.hashv c hc
  · exact h.unequal.imp_of_mem fun {c d} hc hd hcd => by
      simpa only [hof _ _ c hc, hof _ _ d hd] using hcd

theorem WellLinked.new (h : m.WellLinked P l) (hP : P.Lawful) (v : Option V)
    (hk : ∀ b ∈ l, P.keyEqual k (m.k b) = false) (hfull : ¬m.Full) :
    ∃ a m', fklHashMapNew P m k v = some (a, m') ∧ a ∉ l ∧ m'.WellLinked P (l ++ [a]) ∧
      m'.k = update m.k a k ∧ m'.v = update m.v a (v.getD P.zero) := by
  have ha : P.calloc m.live ∉ l := fun ha => hP.calloc m.live (h.live.mem_iff.mpr ha)
  have hw := h.toLinked.write ha none none none (P.hashv k) k (v.getD P.zero)
    (P.calloc m.live :: m.live)
  obtain ⟨pp, m', hins, hm', hmk, hmv, hml⟩ := hw.insertNode hP ha (by simp) (by simp) (by simp)
    (fun b hb => by
      have hne : b ≠ P.calloc m.live := fun hba => ha (hba ▸ hb)
      simpa [hne] using hk b hb) hfull (by simp [h.live.length_eq])
  refine ⟨_, m', ?_, ha, ⟨hm', ?_⟩, hmk, hmv⟩
  · unfold fklHashMapNew fklHashMapCreateNode
    cases v with
    | none => exact bind_eq_of_eq hins rfl
    | some v =>
      simp only [Function.update_idem]
      exact bind_eq_of_eq hins rfl
  · rw [hml]
    exact (h.live.cons _).trans (List.perm_append_singleton _ l).symm

theorem new_eq_none (v : Option V) (hfull : m.Full) : fklHashMapNew P m k v = none := by
  unfold fklHashMapNew fklHashMapCreateNode
  simp only
  rw [insertNode_eq_none (by exact hfull)]
  rfl

/-- The node behind a link of its chain is cut out. -/
theorem WellLinked.unlink (h : m.WellLinked P l) {i : Nat} {c₁ c₂ : List A} (hi : i < m.capacity)
    (hc : ListSeg m.bktNext (m.buckets i) (c₁ ++ a :: c₂) none) (ha : a ∈ l) :
    ∃ m', fklHashMapUnlink m (linkAfter i c₁) a = some m' ∧ m'.WellLinked P (l.erase a) ∧
      m'.k = m.k ∧ m'.v = m.v := by
  obtain ⟨s, t, rfl⟩ := List.append_of_mem ha
  have hnd := h.order.nodup
  have hst : (s ++ a :: t).erase a = s ++ t := by
    have has : a ∉ s := fun has => by
      have := List.nodup_cons.mp (List.nodup_middle.mp hnd)
      exact this.1 (List.mem_append_left t has)
    simp [List.erase_append_right _ has]
  have hlen : (s ++ a :: t).length = (s ++ t).length + 1 := by
    simp only [List.length_append, List.length_cons]
    omega
  have hcount := h.count
  have hload := h.load
  have hcap := h.sized.capacity_le
  have hnext : setAt m.next (m.prev a) (m.next a) a = m.next a := setAt_of_ne h.order.prev_ne _
  have hprev : setAt m.prev (m.next a) (m.prev a) a = m.prev a := setAt_of_ne h.order.next_ne _
  have hfree : fklHashFree m.live a = some (m.live.erase a) :=
    if_pos (h.live.mem_iff.mpr ha)
  have hd : u32 ((m.count : Int) - 1) = (s ++ t).length := by
    rw [u32_sub_one (by omega) (by omega)]
    omega
  refine ⟨_, bind_eq_of_eq hfree rfl, ⟨⟨⟨h.sized.capacity, h.sized.mask, h.sized.threshold⟩, ?_,
    h.chains.unlink hi hc hnd, ?_, ?_, ?_, ?_⟩, h.live.erase a⟩, rfl, rfl⟩
  · rw [hst]
    simpa only [hnext, hprev] using h.order.unlink
  · rw [hst]
    exact hd
  · exact hd.trans_le (show (s ++ t).length ≤ m.capacity by omega)
  · intro b hb
    exact h.hashv b (List.mem_of_mem_erase hb)
  · exact h.unequal.sublist List.erase_sublist

theorem free_foldlM {live : List A} (h : live.Perm l) : l.foldlM fklHashFree live = some [] := by
  induction l generalizing live with
  | nil => rw [List.perm_nil.mp h]; rfl
  | cons a l ih =>
    rw [List.foldlM_cons, fklHashFree, if_pos (h.mem_iff.mpr List.mem_cons_self)]
    exact ih (by simpa using h.erase a)

theorem WellLinked.clear (h : m.WellLinked P l) :
    ∃ m', fklHashMapClear m = some m' ∧ m'.WellLinked P [] := by
  have hwalk := h.order.forward.walkList fklHashFree (n := m.live.length + 1)
    (by rw [h.live.length_eq]; omega) m.live
  rw [free_foldlM h.live] at hwalk
  exact ⟨_, bind_eq_of_eq hwalk rfl, ⟨⟨⟨h.sized.capacity, h.sized.mask, h.sized.threshold⟩,
    DoublyLinked.nil, Chained.nil, rfl, Nat.zero_le _, by simp, List.Pairwise.nil⟩,
    List.Perm.nil⟩⟩

end FklHashMap

end FakeLisp
