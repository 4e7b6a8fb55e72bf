import FakeLisp.ValueFileCopy
import FakeLisp.ValueTableIds

/-! The values made from a file are a copy of those that were written. -/

namespace FakeLisp

namespace FklValueTable

variable {V : Type} [DecidableEq V] {t : FklValueTable V} {x y : V} {i : Nat}

/-- The ids are given out in the order of the list. -/
structure Numbered (t : FklValueTable V) : Prop where
  ids : t.ht.entries.map Prod.snd = List.range' 1 t.ht.entries.length
  nextId : t.nextId = t.ht.entries.length + 1

theorem numbered_init : (fklInitValueTable : FklValueTable V).Numbered := ⟨rfl, rfl⟩

theorem Numbered.add (h : t.Numbered) (x : V) : (fklValueTableAdd t x).2.Numbered := by
  cases hx : t.ht.get x with
  | some n =>
    have hsame : (fklValueTableAdd t x).2 = t := by simp [fklValueTableAdd, hx]
    rwa [hsame]
  | none =>
    have hentries : (fklValueTableAdd t x).2.ht.entries = t.ht.entries ++ [(x, t.nextId)] := by
      have helm := InsertionMap.get_eq_none_iff.mp hx
      simp [fklValueTableAdd, hx, InsertionMap.add, helm]
    have hnext : (fklValueTableAdd t x).2.nextId = t.nextId + 1 := by simp [fklValueTableAdd, hx]
    constructor
    · rw [hentries, List.map_append, h.ids, List.length_append, List.length_singleton,
        List.range'_concat, h.nextId]
      simp [Nat.add_comm]
    · rw [hnext, hentries, h.nextId, List.length_append, List.length_singleton]

theorem Numbered.addValues (h : t.Numbered) (l : List V) : (t.addValues l).Numbered := by
  induction l generalizing t with
  | nil => exact h
  | cons x l ih => exact ih (h.add x)

theorem get_iff_mem : t.ht.get x = some i ↔ (x, i) ∈ t.ht.entries := by
  constructor
  · intro h
    obtain ⟨⟨x', j⟩, he, hx, rfl⟩ := InsertionMap.mem_of_get h
    obtain rfl : x = x' := by simpa using hx
    exact he
  · intro h
    exact InsertionMap.get_of_mem keyEquiv_eq h

theorem Numbered.entry (h : t.Numbered) {k : Nat} {e : V × Nat}
    (he : t.ht.entries[k]? = some e) : e.2 = k + 1 := by
  have hids := congrArg (fun l => l[k]?) h.ids
  obtain ⟨hlt, -⟩ := List.getElem?_eq_some_iff.mp he
  simp only [List.getElem?_map, he, Option.map_some, List.getElem?_range' hlt] at hids
  have := Option.some.inj hids
  omega

theorem Numbered.get_iff (h : t.Numbered) :
    t.ht.get x = some i ↔ 0 < i ∧ t.ht.entries[i - 1]? = some (x, i) := by
  rw [get_iff_mem]
  constructor
  · intro hmem
    obtain ⟨k, hk⟩ := List.mem_iff_getElem?.mp hmem
    have hi := h.entry hk
    simp only at hi
    subst hi
    exact ⟨Nat.succ_pos k, hk⟩
  · rintro ⟨-, he⟩
    exact List.mem_of_getElem? he

theorem Numbered.lt (h : t.Numbered) (hx : t.ht.get x = some i) : 0 < i ∧ i < t.nextId := by
  obtain ⟨hpos, he⟩ := h.get_iff.mp hx
  obtain ⟨hlt, -⟩ := List.getElem?_eq_some_iff.mp he
  have := h.nextId
  omega

theorem Numbered.unique (h : t.Numbered) (hx : t.ht.get x = some i) (hy : t.ht.get y = some i) :
    x = y := by
  have he := (h.get_iff.mp hx).2
  rw [(h.get_iff.mp hy).2] at he
  exact (congrArg Prod.fst (Option.some.inj he)).symm

end FklValueTable

open FklValueTable

variable {A : Type}

/-- The counters are within their types. -/
def ValueObj.InRange : ValueObj A → Prop
  | .bigint num digits => digits.length = num.toInt.natAbs
  | .str s | .keyword s | .sym _ s | .bytes s => s.length < 2 ^ 64
  | .vec base => base.length < 2 ^ 64
  | .hashTable _ ht => ht.length < 2 ^ 32
  | _ => True

namespace ValueFile

variable [DecidableEq A]

/-- Objects that can be read back. That the counters are in range, the singletons single and the
slots over symbols is so in every heap of the program. That the keys of a hash table still differ
from each other, with comparisons that end, and that one compared by what it holds is not the
table itself is a condition: a key can be changed after it was put in. -/
structure Serializable (mem : A → ValueObj A) (fuel : Nat) : Prop where
  inRange : ∀ a, (mem a).InRange
  singleton : ∀ a b, (mem a).isSingleton = true → mem a = mem b → a = b
  slot : ∀ a s expand, mem a = .slot s expand → ∃ b interned n, s = .ptr b ∧ mem b = .sym interned n
  apart : ∀ a eqType ht, mem a = .hashTable eqType ht → ht.Pairwise fun e e' =>
    hashEqFunc (fun a => some (mem a)) fuel eqType e'.1 e.1 = some false
  keys : ∀ a eqType ht, mem a = .hashTable eqType ht → eqType = .eq ∨ ∀ e ∈ ht, e.1 ≠ .ptr a

/-- A component is `NULL` or has an id that is not greater. -/
def Before (vt : FklValueTable (ValueWord A)) (id : Nat) (w : ValueWord A) : Prop :=
  w = .null ∨ ∃ j ≤ id, vt.ht.get w = some j

/-- What the writer finds out about the table. -/
structure Written (vt : FklValueTable (ValueWord A)) (mem : A → ValueObj A) : Prop where
  numbered : vt.Numbered
  nextId_le : vt.nextId ≤ 2 ^ 32
  null : vt.ht.get .null = none
  closed : ∀ a i, vt.ht.get (.ptr a) = some i → ∀ w ∈ (mem a).words, Before vt i w

variable {vt : FklValueTable (ValueWord A)} {mem : A → ValueObj A} {id : Nat}
  {bytes : List UInt8}

/-! What is written. -/

theorem writeValueId_before {w : ValueWord A} (h : writeValueId vt id w = some bytes)
    (hid : id ≠ 0) : Before vt id w := by
  simp only [writeValueId] at h
  split_ifs at h with hassert
  obtain ⟨hu | rfl, hle⟩ := hassert
  · right
    cases hget : vt.ht.get w with
    | none => simp [fklValueTableGet, hget] at hu
    | some j =>
      simp only [fklValueTableGet, hget, Option.getD_some] at hle
      exact ⟨j, hle.resolve_left hid, rfl⟩
  · exact Or.inl rfl

theorem exists_of_mapM {α β : Type} {f : α → Option β} {l : List α} {l' : List β}
    (h : l.mapM f = some l') {a : α} (ha : a ∈ l) : ∃ b, f a = some b := by
  induction l generalizing l' with
  | nil => cases ha
  | cons x l ih =>
    rw [List.mapM_cons] at h
    obtain ⟨b, hb, h⟩ := Option.bind_eq_some_iff.mp h
    obtain ⟨bs, hbs, -⟩ := Option.bind_eq_some_iff.mp h
    rcases List.mem_cons.mp ha with rfl | ha
    · exact ⟨b, hb⟩
    · exact ih hbs ha

theorem writeEntry_eq {e : ValueWord A × ValueWord A} (h : writeEntry vt id e = some bytes) :
    ∃ k v, writeValueId vt id e.1 = some k ∧ writeValueId vt id e.2 = some v ∧ bytes = k ++ v := by
  obtain ⟨k, hk, h⟩ := Option.bind_eq_some_iff.mp h
  obtain ⟨v, hv, h⟩ := Option.bind_eq_some_iff.mp h
  exact ⟨k, v, hk, hv, (Option.some.inj h).symm⟩

theorem writeObj_before {o : ValueObj A} (h : writeObj vt id o = some bytes) (hid : id ≠ 0) :
    ∀ w ∈ o.words, Before vt id w := by
  intro w hw
  cases o with
  | slot s expand =>
    obtain rfl := List.mem_singleton.mp hw
    obtain ⟨b, hb, -⟩ := Option.bind_eq_some_iff.mp h
    exact writeValueId_before hb hid
  | pair car cdr =>
    obtain ⟨b, hb, h⟩ := Option.bind_eq_some_iff.mp h
    obtain ⟨b', hb', -⟩ := Option.bind_eq_some_iff.mp h
    rcases List.mem_pair.mp hw with rfl | rfl
    · exact writeValueId_before hb hid
    · exact writeValueId_before hb' hid
  | vec base =>
    obtain ⟨bs, hbs, -⟩ := Option.bind_eq_some_iff.mp h
    obtain ⟨b, hb⟩ := exists_of_mapM hbs hw
    exact writeValueId_before hb hid
  | box v =>
    obtain rfl := List.mem_singleton.mp hw
    obtain ⟨b, hb, -⟩ := Option.bind_eq_some_iff.mp h
    exact writeValueId_before hb hid
  | hashTable eqType ht =>
    obtain ⟨bs, hbs, -⟩ := Option.bind_eq_some_iff.mp h
    obtain ⟨e, he, hw⟩ := List.mem_flatMap.mp hw
    obtain ⟨b, hb⟩ := exists_of_mapM hbs he
    obtain ⟨k, v, hk, hv, -⟩ := writeEntry_eq hb
    rcases List.mem_pair.mp hw with rfl | rfl
    · exact writeValueId_before hk hid
    · exact writeValueId_before hv hid
  | _ => cases hw

/-- No key of the list is left out. -/
theorem writeEntries_cons {written : List (ValueWord A)} {k : ValueWord A} {v : Nat}
    {cur : List (ValueWord A × Nat)} (hk : k ∉ written)
    (h : writeEntries vt mem written ((k, v) :: cur) = some bytes) :
    ∃ b b', writeValueCreateInstructions vt v mem k = some b ∧
      writeEntries vt mem (k :: written) cur = some b' ∧ bytes = b ++ b' := by
  rw [writeEntries, if_neg hk] at h
  obtain ⟨b, hb, h⟩ := Option.bind_eq_some_iff.mp h
  obtain ⟨b', hb', h⟩ := Option.bind_eq_some_iff.mp h
  exact ⟨b, b', hb, hb', (Option.some.inj h).symm⟩

/-- The keys that are left differ from each other and from those that have been written. -/
def KeysLeft (written : List (ValueWord A)) (cur : List (ValueWord A × Nat)) : Prop :=
  (cur.map Prod.fst).Nodup ∧ ∀ e ∈ cur, e.1 ∉ written

omit [DecidableEq A] in
theorem KeysLeft.tail {written : List (ValueWord A)} {e : ValueWord A × Nat}
    {cur : List (ValueWord A × Nat)} (h : KeysLeft written (e :: cur)) :
    KeysLeft (e.1 :: written) cur := by
  obtain ⟨hnodup, hnot⟩ := h
  rw [List.map_cons, List.nodup_cons] at hnodup
  refine ⟨hnodup.2, fun e' he' hmem => ?_⟩
  rcases List.mem_cons.mp hmem with heq | hmem
  · exact hnodup.1 (heq ▸ List.mem_map_of_mem he')
  · exact hnot e' (List.mem_cons_of_mem e he') hmem

theorem writeEntries_all {written : List (ValueWord A)} {cur : List (ValueWord A × Nat)}
    (hleft : KeysLeft written cur) (h : writeEntries vt mem written cur = some bytes)
    {e : ValueWord A × Nat} (he : e ∈ cur) :
    ∃ b, writeValueCreateInstructions vt e.2 mem e.1 = some b := by
  induction cur generalizing written bytes with
  | nil => cases he
  | cons e' cur ih =>
    obtain ⟨b, b', hb, hb', -⟩ := writeEntries_cons (hleft.2 e' List.mem_cons_self) h
    rcases List.mem_cons.mp he with rfl | he
    · exact ⟨b, hb⟩
    · exact ih hleft.tail hb' he

theorem keysLeft_entries : KeysLeft [] vt.ht.entries := by
  constructor
  · rw [List.nodup_iff_pairwise_ne, List.pairwise_map]
    exact vt.ht.unequal.imp fun h => of_decide_eq_false h
  · intro e _ he
    cases he

theorem null_of_write (h : writeEntries vt mem [] vt.ht.entries = some bytes) :
    vt.ht.get .null = none := by
  apply Option.eq_none_iff_forall_ne_some.mpr
  intro i hi
  obtain ⟨b, hb⟩ := writeEntries_all keysLeft_entries h (get_iff_mem.mp hi)
  cases hb

theorem before_of_write (hnum : vt.Numbered)
    (h : writeEntries vt mem [] vt.ht.entries = some bytes) {a : A} {i : Nat}
    (ha : vt.ht.get (.ptr a) = some i) : ∀ w ∈ (mem a).words, Before vt i w := by
  obtain ⟨b, hb⟩ := writeEntries_all keysLeft_entries h (get_iff_mem.mp ha)
  exact writeObj_before hb (Nat.ne_of_gt (hnum.lt ha).1)

end ValueFile

end FakeLisp
