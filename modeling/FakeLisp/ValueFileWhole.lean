import FakeLisp.ValueFileRound

/-! From a value to the file and back: traversal, numbering, writing and loading. -/

namespace FakeLisp

open BreadthFirst FklValueTable SerialMem

variable {A : Type}

namespace ValueFile

/-! The traversal. -/

variable {mem : A → ValueObj A}

/-- An object as the traversal sees it. -/
def serialData (mem : A → ValueObj A) : ValueWord A → SerialData (ValueWord A)
  | .ptr a =>
    match mem a with
    | .slot s _ => .slot s
    | .pair car cdr => .pair car cdr
    | .vec base => .vec base
    | .box v => .box v
    | .hashTable _ ht => .hashTable ht
    | _ => .leaf
  | _ => .leaf

def SlotsRight (mem : A → ValueObj A) : Prop :=
  ∀ a s expand, mem a = .slot s expand → ∃ b interned n, s = .ptr b ∧ mem b = .sym interned n

theorem serialData_slot (h : SlotsRight mem) (w s : ValueWord A)
    (hw : serialData mem w = .slot s) : serialData mem s = .leaf := by
  cases w with
  | ptr a =>
    cases ho : mem a with
    | slot s' expand =>
      obtain ⟨b, interned, n, rfl, hb⟩ := h a s' expand ho
      simp only [serialData, ho, SerialData.slot.injEq] at hw
      subst hw
      simp [serialData, hb]
    | _ => simp [serialData, ho] at hw
  | _ => cases hw

def serialMem (mem : A → ValueObj A) (h : SlotsRight mem) : SerialMem (ValueWord A) where
  data := serialData mem
  slot_leaf := serialData_slot h

theorem mem_components_iff (h : SlotsRight mem) (a : A) (w : ValueWord A) :
    w ∈ (serialMem mem h).components (.ptr a) ↔ w ∈ (mem a).words := by
  cases ho : mem a with
  | hashTable eqType ht =>
    simp only [SerialMem.components, SerialMem.pushed, serialMem, serialData, ho, ValueObj.words,
      List.mem_flatMap, List.mem_reverse, List.mem_cons, List.not_mem_nil, or_false]
    constructor
    · rintro ⟨e, he, hw⟩
      exact ⟨e, he, hw.symm⟩
    · rintro ⟨e, he, hw⟩
      exact ⟨e, he, hw.symm⟩
  | pair car cdr =>
    simp [SerialMem.components, SerialMem.pushed, serialMem, serialData, ho, ValueObj.words,
      or_comm]
  | _ => simp [SerialMem.components, SerialMem.pushed, serialMem, serialData, ho, ValueObj.words]

/-! When a table can be written. -/

theorem exists_mapM {α β : Type} {f : α → Option β} {l : List α}
    (h : ∀ a ∈ l, ∃ b, f a = some b) : ∃ l', l.mapM f = some l' := by
  induction l with
  | nil => exact ⟨[], rfl⟩
  | cons a l ih =>
    obtain ⟨b, hb⟩ := h a List.mem_cons_self
    obtain ⟨l', hl'⟩ := ih fun a' ha' => h a' (List.mem_cons_of_mem a ha')
    exact ⟨b :: l', by rw [List.mapM_cons, hb, hl']; rfl⟩

variable [DecidableEq A] {vt : FklValueTable (ValueWord A)} {id : Nat}

theorem Before.writeValueId (hnum : vt.Numbered) (hnull : vt.ht.get .null = none)
    {w : ValueWord A} (h : Before vt id w) : ∃ bytes, writeValueId vt id w = some bytes := by
  refine ⟨fwriteWord 4 (fklValueTableGet vt w), if_pos ?_⟩
  rcases h with rfl | ⟨j, hj, hget⟩
  · simp [fklValueTableGet, hnull]
  · have hpos := (hnum.lt hget).1
    simp only [fklValueTableGet, hget, Option.getD_some]
    exact ⟨Or.inl (by omega), Or.inr hj⟩

theorem exists_writeObj (hnum : vt.Numbered) (hnull : vt.ht.get .null = none) {o : ValueObj A}
    (h : ∀ w ∈ o.words, Before vt id w) : ∃ bytes, writeObj vt id o = some bytes := by
  have hid : ∀ w ∈ o.words, ∃ bytes, ValueFile.writeValueId vt id w = some bytes := fun w hw =>
    (h w hw).writeValueId hnum hnull
  cases o with
  | slot s expand =>
    obtain ⟨b, hb⟩ := hid s (by simp [ValueObj.words])
    exact ⟨_, by rw [writeObj, hb]; rfl⟩
  | pair car cdr =>
    obtain ⟨b, hb⟩ := hid car (by simp [ValueObj.words])
    obtain ⟨b', hb'⟩ := hid cdr (by simp [ValueObj.words])
    exact ⟨_, by rw [writeObj, hb, hb']; rfl⟩
  | vec base =>
    obtain ⟨bs, hbs⟩ := exists_mapM hid
    exact ⟨_, by rw [writeObj, show base.mapM _ = _ from hbs]; rfl⟩
  | box v =>
    obtain ⟨b, hb⟩ := hid v (by simp [ValueObj.words])
    exact ⟨_, by rw [writeObj, hb]; rfl⟩
  | hashTable eqType ht =>
    have hentry : ∀ e ∈ ht, ∃ b, writeEntry vt id e = some b := by
      intro e he
      obtain ⟨k, hk⟩ := hid e.1 (List.mem_flatMap.mpr ⟨e, he, by simp⟩)
      obtain ⟨v, hv⟩ := hid e.2 (List.mem_flatMap.mpr ⟨e, he, by simp⟩)
      exact ⟨k ++ v, by rw [writeEntry, hk, hv]; rfl⟩
    obtain ⟨bs, hbs⟩ := exists_mapM hentry
    exact ⟨_, by rw [writeObj, hbs]; rfl⟩
  | _ => exact ⟨_, rfl⟩

theorem exists_writeEntries (written : List (ValueWord A)) {cur : List (ValueWord A × Nat)}
    (h : ∀ e ∈ cur, ∃ bytes, writeValueCreateInstructions vt e.2 mem e.1 = some bytes) :
    ∃ bytes, writeEntries vt mem written cur = some bytes := by
  induction cur generalizing written with
  | nil => exact ⟨[], rfl⟩
  | cons e cur ih =>
    obtain ⟨k, v⟩ := e
    have hcur := fun e he => h e (List.mem_cons_of_mem (k, v) he)
    obtain ⟨b, hb⟩ := h (k, v) List.mem_cons_self
    rw [writeEntries]
    split
    · exact ih written hcur
    · obtain ⟨bs, hbs⟩ := ih (k :: written) hcur
      exact ⟨_, by rw [hb, hbs]; rfl⟩

/-- The assertions of the writer all hold where every component has an id that is not greater. -/
theorem exists_fklWriteValueTable (hnum : vt.Numbered) (hnull : vt.ht.get .null = none)
    (hclosed : ∀ a i, vt.ht.get (.ptr a) = some i → ∀ w ∈ (mem a).words, Before vt i w) :
    ∃ bytes, fklWriteValueTable vt mem = some bytes := by
  have hall : ∀ e ∈ vt.ht.entries, ∃ bytes,
      writeValueCreateInstructions vt e.2 mem e.1 = some bytes := by
    rintro ⟨w, i⟩ he
    have hget := get_iff_mem.mpr he
    cases w with
    | null =>
      rw [hnull] at hget
      cases hget
    | ptr a => exact exists_writeObj hnum hnull (hclosed a i hget)
    | _ => exact ⟨_, rfl⟩
  obtain ⟨bytes, hbytes⟩ := exists_writeEntries [] hall
  exact ⟨_, by rw [fklWriteValueTable, hbytes]; rfl⟩

/-- A table stays ordered where the value's places are in order. -/
theorem tableOrdered_addValues {V : Type} [DecidableEq V] {mem : SerialMem V}
    {t : FklValueTable V} {v : V} {n : Nat} (ht : TableOrdered mem t)
    (hids : IdsRight mem (t.addValues (mem.additions (levels mem.pushed v n).1)) v) :
    TableOrdered mem (t.addValues (mem.additions (levels mem.pushed v n).1)) := by
  have hget : ∀ {x : V}, fklValueTableGet (t.addValues (mem.additions (levels mem.pushed v n).1)) x
      ≠ 0 → (t.addValues (mem.additions (levels mem.pushed v n).1)).ht.get x =
        some (fklValueTableGet (t.addValues (mem.additions (levels mem.pushed v n).1)) x) := by
    intro x hx
    unfold fklValueTableGet at hx ⊢
    cases h : (t.addValues (mem.additions (levels mem.pushed v n).1)).ht.get x <;> simp_all
  have hcomp : ∀ x i, (t.addValues (mem.additions (levels mem.pushed v n).1)).ht.get x = some i →
      ∀ c ∈ mem.components x, ∃ j,
        (t.addValues (mem.additions (levels mem.pushed v n).1)).ht.get c = some j ∧ j < i := by
    intro x i hx c hc
    cases hold : t.ht.get x with
    | some i' =>
      obtain ⟨j, hj⟩ := ht.closed x i' hold c hc
      have hsame := get_addValues_of_some hold (mem.additions (levels mem.pushed v n).1)
      obtain rfl : i' = i := Option.some.inj (hsame.symm.trans hx)
      exact ⟨j, get_addValues_of_some hj _, ht.before x i' hold c hc j hj⟩
    | none =>
      have hadded : x ∈ mem.additions (levels mem.pushed v n).1 := by
        by_contra hnot
        rw [get_addValues_of_not_mem hnot, hold] at hx
        cases hx
      have hsub : SubValue mem v x := by
        rcases mem_additions.mp hadded with hlisted | ⟨p, hp, hslot⟩
        · obtain ⟨k, hbelow⟩ := levels_below (Or.inl hlisted)
          exact subValue_of_below hbelow
        · obtain ⟨k, hbelow⟩ := levels_below (Or.inl hp)
          refine (subValue_of_below hbelow).tail ?_
          simp [SerialMem.components, hslot]
      obtain ⟨-, hlt⟩ := hids x hsub
      have hpos := (hids c (hsub.tail hc)).1
      refine ⟨_, hget hpos, ?_⟩
      have hxid : fklValueTableGet (t.addValues (mem.additions (levels mem.pushed v n).1)) x = i := by
        simp [fklValueTableGet, hx]
      rw [← hxid]
      exact hlt c hc
  constructor
  · constructor
    · exact ht.pos.trans_le (nextId_le_addValues t _)
    · exact ht.sound.addValues ht.pos _
    · intro x i hx c hc
      obtain ⟨j, hj, -⟩ := hcomp x i hx c hc
      exact ⟨j, hj⟩
  · intro x i hx c hc j hj
    obtain ⟨j', hj', hlt⟩ := hcomp x i hx c hc
    obtain rfl : j' = j := Option.some.inj (hj'.symm.trans hj)
    exact hlt

theorem get_of_subValue {V : Type} [DecidableEq V] {mem : SerialMem V} (t : FklValueTable V)
    {v x : V} {n : Nat} (hn : (levels mem.pushed v n).2 = []) (hx : SubValue mem v x) :
    ∃ i, (t.addValues (mem.additions (levels mem.pushed v n).1)).ht.get x = some i := by
  cases hold : t.ht.get x with
  | some i => exact ⟨i, get_addValues_of_some hold _⟩
  | none =>
    obtain ⟨i, hi, -⟩ := get_addValues_of_mem
      (mem_additions.mpr ((subValue_listed hn hx).imp_right And.right)) hold
    exact ⟨i, hi⟩

theorem acyclic_of_subValue {V : Type} {mem : SerialMem V} {v x : V} (hv : Acyclic mem v)
    (hx : SubValue mem v x) : Acyclic mem x := by
  induction hx with
  | refl => exact hv
  | tail _ hc ih => exact ih.inv hc

theorem not_component_self {V : Type} {mem : SerialMem V} {v x : V} (hv : Acyclic mem v)
    (hx : SubValue mem v x) : x ∉ mem.components x := by
  intro hself
  induction acyclic_of_subValue hv hx with
  | intro y _ ih => exact ih y hself hx hself

variable {buckets : Buckets} {fuel n : Nat} {heap₀ : FklHeap} {t : FklValueTable (ValueWord A)}
  {v : ValueWord A}

/-- The writer accepts the table of a traversal exactly where the ids follow the structure. -/
theorem write_iff_idsRight (h : SlotsRight mem) (hn : (levels (serialMem mem h).pushed v n).2 = [])
    (hv : Acyclic (serialMem mem h) v) (hnum : t.Numbered) (ht : TableOrdered (serialMem mem h) t)
    (hnull : t.ht.get .null = none) (hsub : ∀ x, SubValue (serialMem mem h) v x → x ≠ .null) :
    (∃ bytes, fklWriteValueTable
        (t.addValues ((serialMem mem h).additions (levels (serialMem mem h).pushed v n).1)) mem =
      some bytes) ↔
    IdsRight (serialMem mem h)
      (t.addValues ((serialMem mem h).additions (levels (serialMem mem h).pushed v n).1)) v := by
  have hnum' := hnum.addValues ((serialMem mem h).additions (levels (serialMem mem h).pushed v n).1)
  constructor
  · rintro ⟨bytes, hbytes⟩ x hx
    obtain ⟨i, hi⟩ := get_of_subValue t hn hx
    have hpos := (hnum'.lt hi).1
    simp only [fklValueTableGet, hi, Option.getD_some]
    refine ⟨by omega, fun c hc => ?_⟩
    obtain ⟨b, hb, -⟩ := Option.bind_eq_some_iff.mp hbytes
    cases x with
    | ptr a =>
      have hword := (mem_components_iff h a c).mp hc
      obtain ⟨j, hle, hj⟩ := (before_of_write hnum' hb hi c hword).resolve_left
        (hsub c (hx.tail hc))
      have hne : j ≠ i := by
        rintro rfl
        obtain rfl := hnum'.unique hj hi
        exact not_component_self hv hx hc
      simp only [hj, Option.getD_some]
      omega
    | _ => cases hc
  · intro hids
    have hord := tableOrdered_addValues ht hids
    apply exists_fklWriteValueTable hnum'
    · rw [get_addValues_of_not_mem, hnull]
      intro hadded
      rcases mem_additions.mp hadded with hlisted | ⟨p, hp, hslot⟩
      · obtain ⟨k, hbelow⟩ := levels_below (Or.inl hlisted)
        exact hsub _ (subValue_of_below hbelow) rfl
      · obtain ⟨k, hbelow⟩ := levels_below (Or.inl hp)
        refine hsub _ ((subValue_of_below hbelow).tail ?_) rfl
        simp [SerialMem.components, hslot]
    · intro a i hi w hword
      have hc := (mem_components_iff h a w).mpr hword
      obtain ⟨j, hj⟩ := hord.closed _ i hi w hc
      exact Or.inr ⟨j, (hord.before _ i hi w hc j hj).le, hj⟩

/-- A value that is traversed into a table, written with it and loaded: the writer's assertions
hold exactly where no new compound value has its last place after that of a compound component,
and then the copy of every sub-value is found under its id. -/
theorem fklTraverseSerializableValue_write_load (buckets : Buckets) (hs : Singletons heap₀)
    (hm : Serializable mem fuel) (hnum : t.Numbered) (ht : TableOrdered (serialMem mem hm.slot) t)
    (hnull : t.ht.get .null = none) (hv : Acyclic (serialMem mem hm.slot) v)
    (hsub : ∀ x, SubValue (serialMem mem hm.slot) v x → x ≠ .null) :
    ∃ steps, ∀ rounds, steps < rounds → ∃ t',
      (serialMem mem hm.slot).fklTraverseSerializableValue rounds t v = some t' ∧
        ((∃ bytes, fklWriteValueTable t' mem = some bytes) ↔
          PlacesInOrder (serialMem mem hm.slot) t v) ∧
        ∀ bytes, fklWriteValueTable t' mem = some bytes → t'.nextId ≤ 2 ^ 32 →
          ∃ φ args, Reads (loadValueTable buckets fuel heap₀) bytes args ∧
            CopyOf t' mem heap₀ φ args ∧
            ∀ x, SubValue (serialMem mem hm.slot) v x →
              args.values[fklValueTableGet t' x - 1]? = some (x.map φ) := by
  obtain ⟨n, hn⟩ := exists_level_nil hv.pushed
  refine ⟨(levels (serialMem mem hm.slot).pushed v n).1.length, fun rounds hrounds => ?_⟩
  refine ⟨_, fklTraverseSerializableValue_eq hn hrounds t, ?_, fun bytes hbytes hle => ?_⟩
  · rw [write_iff_idsRight hm.slot hn hv hnum ht hnull hsub]
    exact ⟨placesInOrder_of_idsRight hn,
      idsRight_of_placesInOrder hn ht.toTableClosed (ht.oldInOrder v)⟩
  · obtain ⟨b, hentries, rfl⟩ := fklWriteValueTable_eq hbytes
    obtain ⟨φ, args, hread, hcopy⟩ := loadValueTable_reads buckets hs hm
      (written_of_write (hnum.addValues _) hle hentries) hentries
    refine ⟨φ, args, hread, hcopy, fun x hx => ?_⟩
    obtain ⟨i, hi⟩ := get_of_subValue t hn hx
    have hvalue := hcopy.value x i hi
    simpa [fklValueTableGet, hi] using hvalue

/-- `#(a 3 #hashequal((a . ())))` at the address 2. -/
def nestedMem : Nat → ValueObj Nat
  | 0 => .sym true [97]
  | 1 => .hashTable .equal [(.ptr 0, .nil)]
  | 2 => .vec [.ptr 0, .fix 3, .ptr 1]
  | _ => .box .nil

theorem nestedMem_serializable : Serializable nestedMem 1 := by
  constructor
  · rintro (_ | _ | _ | a) <;> simp [nestedMem, ValueObj.InRange]
  · rintro (_ | _ | _ | a) (_ | _ | _ | b) <;> simp [nestedMem, ValueObj.isSingleton]
  · rintro (_ | _ | _ | a) s expand h <;> simp [nestedMem] at h
  · rintro (_ | _ | _ | a) eqType ht h <;> simp [nestedMem] at h
    obtain ⟨-, rfl⟩ := h
    simp
  · rintro (_ | _ | _ | a) eqType ht h <;> simp [nestedMem] at h
    obtain ⟨-, rfl⟩ := h
    simp

theorem nestedMem_acyclic :
    Acyclic (serialMem nestedMem nestedMem_serializable.slot) (.ptr 2) := by
  have hleaf : ∀ w, serialData nestedMem w = .leaf →
      Acyclic (serialMem nestedMem nestedMem_serializable.slot) w := by
    intro w hw
    constructor
    intro c hc
    simp [Child, SerialMem.components, SerialMem.pushed, serialMem, hw] at hc
  have htable : Acyclic (serialMem nestedMem nestedMem_serializable.slot) (.ptr 1) := by
    constructor
    intro c hc
    rcases List.mem_pair.mp ((mem_components_iff _ 1 c).mp hc) with rfl | rfl <;> exact hleaf _ rfl
  constructor
  intro c hc
  have hc := (mem_components_iff _ 2 c).mp hc
  simp only [ValueObj.words, nestedMem, List.mem_cons, List.not_mem_nil, or_false] at hc
  rcases hc with rfl | rfl | rfl
  · exact hleaf _ rfl
  · exact hleaf _ rfl
  · exact htable

theorem nestedMem_no_null (x : ValueWord Nat)
    (hx : SubValue (serialMem nestedMem nestedMem_serializable.slot) (.ptr 2) x) : x ≠ .null := by
  induction hx with
  | refl => simp
  | @tail y z _ hc _ =>
    cases y with
    | ptr a =>
      have hword := (mem_components_iff _ a z).mp hc
      rintro rfl
      revert hword
      rcases a with _ | _ | _ | a <;> simp [nestedMem, ValueObj.words]
    | _ => cases hc

theorem nestedMem_write_load :
    ∃ steps, ∀ rounds, steps < rounds → ∃ t',
      (serialMem nestedMem nestedMem_serializable.slot).fklTraverseSerializableValue rounds
        fklInitValueTable (.ptr 2) = some t' ∧
        ((∃ bytes, fklWriteValueTable t' nestedMem = some bytes) ↔
          PlacesInOrder (serialMem nestedMem nestedMem_serializable.slot) fklInitValueTable
            (.ptr 2)) ∧
        ∀ bytes, fklWriteValueTable t' nestedMem = some bytes → t'.nextId ≤ 2 ^ 32 →
          ∃ φ args, Reads (loadValueTable (fun _ _ _ _ => 0) 1 []) bytes args ∧
            CopyOf t' nestedMem [] φ args ∧
            ∀ x, SubValue (serialMem nestedMem nestedMem_serializable.slot) (.ptr 2) x →
              args.values[fklValueTableGet t' x - 1]? = some (x.map φ) :=
  fklTraverseSerializableValue_write_load _ (fun _ _ _ h => by simp at h) nestedMem_serializable
    numbered_init (init_tableOrdered _) rfl nestedMem_acyclic nestedMem_no_null

end ValueFile

end FakeLisp
