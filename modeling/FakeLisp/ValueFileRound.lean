import FakeLisp.ValueFileLoad

/-! The table of values is read back from the file. -/

namespace FakeLisp

namespace ValueFile

open FklValueTable Function

variable {A : Type} [DecidableEq A] {vt : FklValueTable (ValueWord A)} {mem : A → ValueObj A}
  {fuel n r : Nat} {a : A} {heap₀ heap : FklHeap} {φ : A → Nat} {args : FklLoadValueArgs}
  {bytes rest : List UInt8} {buckets : Buckets}

/-! Reading the parts. -/

theorem reads_freadByte (c : UInt8) : Reads freadByte (fwriteWord 1 c.toNat) c := by
  have hword : Reads (freadWord 1) (fwriteWord 1 c.toNat) c.toNat := reads_freadWord c.toNat_lt
  have h := hword.map UInt8.ofNat
  rwa [UInt8.ofNat_toNat] at h

theorem reads_fklLoadString {s : List UInt8} (h : s.length < 2 ^ 64) :
    Reads fklLoadString (fklWriteString s) s := by
  have hchunks : s.mapM (fun c : UInt8 => some (fwriteWord 1 c.toNat)) =
      some (s.map fun c => [c]) := by
    induction s with
    | nil => rfl
    | cons c s ih =>
      have hc : fwriteWord 1 c.toNat = [c] := by simp [fwriteWord]
      rw [List.mapM_cons, ih (by simp at h; omega), hc]
      rfl
  have hread := reads_freadMany hchunks fun c _ bytes hc => by
    obtain rfl := Option.some.inj hc
    exact reads_freadByte c
  rw [← List.flatMap_def, List.flatMap_singleton'] at hread
  exact (reads_freadWord (by omega)).bind hread

theorem reads_op {op : ValueCreateOpcode} {x : ValueWord Nat × FklLoadValueArgs}
    (h : Reads (loadObj buckets fuel n args op) rest x) :
    Reads (loadAndMakeValues buckets fuel n args) (writeOp op ++ rest) x := by
  have hop : opcodeOfCode op.ctorIdx = some op := by cases op <;> rfl
  have hlt : op.ctorIdx < 256 ^ 1 := by cases op <;> decide
  apply (reads_freadWord hlt).bind
  rw [hop]
  exact h

theorem Loaded.reads_id (hw : Written vt mem) (h : Loaded vt mem heap₀ φ n args)
    {w : ValueWord A} {id : Nat} (hbefore : Before vt n w)
    (hbytes : writeValueId vt id w = some bytes) :
    Reads (loadValueId args.values) bytes (w.map φ) := by
  simp only [writeValueId] at hbytes
  split_ifs at hbytes
  obtain rfl := Option.some.inj hbytes
  rw [← List.append_nil (fwriteWord 4 _)]
  rcases hbefore with rfl | ⟨j, hj, hget⟩
  · rw [fklValueTableGet, hw.null]
    exact (reads_freadWord (by norm_num)).bind (Reads.ret _)
  · have hlt := hw.numbered.lt hget
    have hle := hw.nextId_le
    have hvalue := h.value w j hget hj
    rw [fklValueTableGet, hget, Option.getD_some]
    apply (reads_freadWord (by norm_num; omega)).bind
    rw [if_neg (by omega), hvalue]
    cases w with
    | null => exact absurd hget (by simp [hw.null])
    | _ => exact Reads.ret _

/-! One value. -/

/-- The value `w` of the id `n + 1` is made from the bytes. -/
def Makes (vt : FklValueTable (ValueWord A)) (mem : A → ValueObj A) (heap₀ : FklHeap)
    (buckets : Buckets) (fuel n : Nat) (args : FklLoadValueArgs) (w : ValueWord A)
    (bytes : List UInt8) : Prop :=
  ∃ φ args', Reads (loadAndMakeValues buckets fuel (n + 1) args) bytes (w.map φ, args') ∧
    Loaded vt mem heap₀ φ (n + 1) { args' with values := args'.values.set n (w.map φ) }

theorem createObj_get (o : ValueObj Nat) (hr : createObj heap₀ o = (r, heap)) :
    heap[r]? = some o := by
  by_cases h : o.isSingleton = true ∧ o ∈ heap₀
  · rw [createObj, if_pos h] at hr
    obtain ⟨rfl, rfl⟩ := Prod.mk.inj hr
    have hlt := List.idxOf_lt_length_of_mem h.2
    rw [List.getElem?_eq_getElem hlt, List.getElem_idxOf hlt]
  · rw [createObj_fresh h] at hr
    obtain ⟨rfl, rfl⟩ := Prod.mk.inj hr
    simp

/-- An immediate value takes no place in the heap. -/
theorem Loaded.imm (hw : Written vt mem) (h : Loaded vt mem heap₀ φ n args) {w : ValueWord A}
    (hget : vt.ht.get w = some (n + 1)) (hw' : ∀ a, w ≠ .ptr a) :
    Loaded vt mem heap₀ φ (n + 1) { args with values := args.values.set n (w.map φ) } := by
  have hlt := hw.numbered.lt hget
  have hold : ∀ a i, vt.ht.get (.ptr a) = some i → i ≤ n + 1 → i ≤ n := by
    intro a i ha hi
    by_contra hgt
    obtain rfl : i = n + 1 := by omega
    exact hw' a (hw.numbered.unique hget ha)
  refine ⟨h.kept, h.singletons, by simp [h.length], ?_, fun a i ha hi => ?_, ?_,
    fun a i ha hi => h.fresh a i ha (hold a i ha hi)⟩
  · intro w' i hget' hi
    have hpos := hw.numbered.lt hget'
    rcases Nat.lt_or_ge n i with hgt | hle
    · obtain rfl : i = n + 1 := by omega
      obtain rfl := hw.numbered.unique hget hget'
      rw [Nat.add_sub_cancel, List.getElem?_set_self (by rw [h.length]; omega)]
    · rw [List.getElem?_set_ne (by omega), h.value w' i hget' hle]
  · exact h.obj a i ha (hold a i ha hi)
  · intro a b i j ha hb hi hj
    exact h.inj a b i j ha hb (hold a i ha hi) (hold b j hb hj)

/-- An object that is created with its contents. -/
theorem Loaded.makes_made (hw : Written vt mem) (hm : Serializable mem fuel)
    (h : Loaded vt mem heap₀ φ n args) (ha : vt.ht.get (.ptr a) = some (n + 1))
    {o : ValueObj Nat} (ho : ∀ r, (mem a).map (update φ a r) = o) {op : ValueCreateOpcode}
    (hread : Reads (loadObj buckets fuel (n + 1) args op) rest (made args o)) :
    Makes vt mem heap₀ buckets fuel n args (.ptr a) (writeOp op ++ rest) := by
  rcases hr : createObj args.heap o with ⟨r, heap⟩
  have hmap : (mem a).map φ = o := by
    have hself := ho (φ a)
    rwa [update_eq_self] at hself
  have hcreate := h.create hw hm ha hr (by rw [← hmap]; simp) fun _ => hmap.symm
  rw [ho r, set_of_getElem? (createObj_get o hr)] at hcreate
  refine ⟨update φ a r, ⟨heap, args.values⟩, ?_, ?_⟩
  · have hmade : made args o = (.ptr r, ⟨heap, args.values⟩) := by simp [made, hr]
    rw [hmade] at hread
    rw [ValueWord.map_ptr, update_self]
    exact reads_op hread
  · rwa [ValueWord.map_ptr, update_self]

/-- An object that is created first and filled by what is read after it. -/
theorem Loaded.makes_placed (hw : Written vt mem) (hm : Serializable mem fuel)
    (h : Loaded vt mem heap₀ φ n args) (ha : vt.ht.get (.ptr a) = some (n + 1))
    {o : ValueObj Nat} (hsing : o.isSingleton = (mem a).isSingleton)
    (hsame : o.isSingleton = true → o = (mem a).map φ) {op : ValueCreateOpcode}
    (hread : ∀ r heap, createObj args.heap o = (r, heap) →
      placed args (n + 1) o = (r, ⟨heap, args.values.set n (.ptr r)⟩) →
      Loaded vt mem heap₀ (update φ a r) (n + 1)
        ⟨heap.set r ((mem a).map (update φ a r)), args.values.set n (.ptr r)⟩ →
      Reads (loadObj buckets fuel (n + 1) args op) rest
        (.ptr r, ⟨heap.set r ((mem a).map (update φ a r)), args.values.set n (.ptr r)⟩)) :
    Makes vt mem heap₀ buckets fuel n args (.ptr a) (writeOp op ++ rest) := by
  rcases hr : createObj args.heap o with ⟨r, heap⟩
  have hcreate := h.create hw hm ha hr hsing hsame
  have hplaced : placed args (n + 1) o = (r, ⟨heap, args.values.set n (.ptr r)⟩) := by
    simp [placed, hr]
  refine ⟨update φ a r, ⟨heap.set r ((mem a).map (update φ a r)), args.values.set n (.ptr r)⟩,
    ?_, ?_⟩
  · rw [ValueWord.map_ptr, update_self]
    exact reads_op (hread r heap hr hplaced hcreate)
  · rw [ValueWord.map_ptr, update_self, List.set_set]
    exact hcreate

/-! The entries of a hash table. -/

/-- The table at `r` with these entries. -/
abbrev withEntries (heap : FklHeap) (eqType : FklHashTableEqType)
    (ht : List (ValueWord Nat × ValueWord Nat)) : FklHeap := heap ++ [.hashTable eqType ht]

theorem setInTable_of_apart {eqType : FklHashTableEqType}
    {ht : List (ValueWord Nat × ValueWord Nat)} {key v : ValueWord Nat}
    (h : ∀ e ∈ ht, hashEqFunc (fun a => (withEntries heap eqType ht)[a]?) fuel eqType key e.1 =
      some false) :
    setInTable buckets fuel (withEntries heap eqType ht) heap.length key v =
      some (withEntries heap eqType (ht ++ [(key, v)])) := by
  have hget : (withEntries heap eqType ht)[heap.length]? = some (.hashTable eqType ht) := by simp
  simp only [setInTable, hget, fklVMhashTableSet_of_apart h, Option.map_some, set_fresh]

/-- Keys that differ from each other do so in the copy. -/
theorem Loaded.keys_apart (hw : Written vt mem) (h : Loaded vt mem heap₀ φ n args)
    (ha : vt.ht.get (.ptr a) = some (n + 1)) {args' : FklLoadValueArgs}
    (h' : Loaded vt mem heap₀ (update φ a r) (n + 1) args')
    {eqType : FklHashTableEqType} {heap : FklHeap} (hheap : args.heap <+: heap)
    {w w' : ValueWord A} (hbefore : Before vt (n + 1) w) (hbefore' : Before vt (n + 1) w')
    (hself : eqType = .eq ∨ w ≠ .ptr a ∧ w' ≠ .ptr a)
    (happart : hashEqFunc (fun a => some (mem a)) fuel eqType w w' = some false) :
    hashEqFunc (fun a => heap[a]?) fuel eqType (w.map (update φ a r)) (w'.map (update φ a r)) =
      some false := by
  rcases hself with rfl | ⟨hne, hne'⟩
  · have hinj : w.map (update φ a r) = w'.map (update φ a r) ↔ w = w' := by
      apply ValueWord.map_inj
      rintro b c rfl rfl heq
      obtain ⟨i, hi, hb⟩ := hbefore.resolve_left (by simp)
      obtain ⟨j, hj, hc⟩ := hbefore'.resolve_left (by simp)
      exact h'.inj b c i j hb hc hi hj heq
    simpa [hashEqFunc, hinj] using happart
  · have hcopied : Copied (fun b => ∃ i ≤ n, vt.ht.get (.ptr b) = some i) (update φ a r)
        (fun a => some (mem a)) fun a => heap[a]? := by
      constructor
      · rintro b ⟨i, hi, hb⟩
        refine ⟨mem b, rfl, ?_, fun c hc => ?_⟩
        · have hobj := h.obj b i hb hi
          obtain ⟨hlt, -⟩ := List.getElem?_eq_some_iff.mp hobj
          obtain ⟨tail, rfl⟩ := hheap
          rw [hw.map_update ha hb hi, update_of_ne (ne_of_le ha hb hi),
            List.getElem?_append_left hlt]
          exact hobj
        · obtain ⟨j, hj, hget⟩ := (hw.closed b i hb _ hc).resolve_left (by simp)
          exact ⟨j, hj.trans hi, hget⟩
      · rintro b c ⟨i, hi, hb⟩ ⟨j, hj, hc⟩ heq
        exact h'.inj b c i j hb hc (by omega) (by omega) heq
    have hin : ∀ {u : ValueWord A}, Before vt (n + 1) u → u ≠ .ptr a →
        WordIn (fun b => ∃ i ≤ n, vt.ht.get (.ptr b) = some i) u := by
      rintro u hu hua b rfl
      obtain ⟨i, hi, hb⟩ := hu.resolve_left (by simp)
      refine ⟨i, ?_, hb⟩
      by_contra hgt
      obtain rfl : i = n + 1 := by omega
      exact hua (hw.numbered.unique hb ha)
    rw [hashEqFunc_map hcopied fuel eqType (hin hbefore hne) (hin hbefore' hne')]
    exact happart

/-- The entries are read one by one and set, each at the end. -/
theorem loadEntries_reads (buckets : Buckets) (fuel : Nat) (heap : FklHeap)
    (eqType : FklHashTableEqType) (pre : List (ValueWord A × ValueWord A)) (hw : Written vt mem)
    (h : Loaded vt mem heap₀ φ n args) {id : Nat}
    {post : List (ValueWord A × ValueWord A)} {chunks : List (List UInt8)}
    (hchunks : post.mapM (writeEntry vt id) = some chunks)
    (hbefore : ∀ e ∈ post, Before vt n e.1 ∧ Before vt n e.2)
    (hset : ∀ front e back, pre ++ post = front ++ e :: back →
      setInTable buckets fuel (withEntries heap eqType (front.map (mapPair φ))) heap.length
        (e.1.map φ) (e.2.map φ) =
        some (withEntries heap eqType ((front ++ [e]).map (mapPair φ)))) :
    Reads (loadEntries buckets fuel args.values heap.length post.length
      (withEntries heap eqType (pre.map (mapPair φ)))) chunks.flatten
      (withEntries heap eqType ((pre ++ post).map (mapPair φ))) := by
  induction post generalizing pre chunks with
  | nil =>
    cases hchunks
    rw [List.append_nil]
    exact Reads.ret _
  | cons e post ih =>
    rw [List.mapM_cons] at hchunks
    obtain ⟨b, hb, hchunks⟩ := Option.bind_eq_some_iff.mp hchunks
    obtain ⟨bs, hbs, hchunks⟩ := Option.bind_eq_some_iff.mp hchunks
    obtain rfl := Option.some.inj hchunks
    obtain ⟨k, v, hk, hv, rfl⟩ := writeEntry_eq hb
    obtain ⟨hk', hv'⟩ := hbefore e List.mem_cons_self
    have hrest := ih (pre ++ [e]) hbs (fun e' he' => hbefore e' (List.mem_cons_of_mem e he'))
      (by simpa using hset)
    rw [List.append_assoc, List.singleton_append] at hrest
    rw [List.flatten_cons, List.append_assoc]
    apply (h.reads_id hw hk' hk).bind
    apply (h.reads_id hw hv' hv).bind
    rw [hset pre e post rfl]
    exact hrest

theorem Written.before (hw : Written vt mem) (ha : vt.ht.get (.ptr a) = some (n + 1))
    {w : ValueWord A} (hword : w ∈ (mem a).words) : Before vt (n + 1) w :=
  hw.closed a (n + 1) ha w hword

theorem Loaded.makes_hashTable (hw : Written vt mem) (hm : Serializable mem fuel)
    (h : Loaded vt mem heap₀ φ n args) (ha : vt.ht.get (.ptr a) = some (n + 1))
    {eqType : FklHashTableEqType} {ht : List (ValueWord A × ValueWord A)}
    (ho : mem a = .hashTable eqType ht) {chunks : List (List UInt8)}
    (hchunks : ht.mapM (writeEntry vt (n + 1)) = some chunks) :
    Makes vt mem heap₀ buckets fuel n args (.ptr a)
      (writeOp .createHashtable ++ (fwriteWord 1 eqType.ctorIdx ++ (fwriteWord 4 ht.length ++
        chunks.flatten))) := by
  apply h.makes_placed hw hm ha (o := .hashTable eqType []) (by rw [ho]; rfl) (by intro h; cases h)
  intro r heap hr hplaced h'
  have hentries : ∀ e ∈ ht, e.1 ∈ (mem a).words ∧ e.2 ∈ (mem a).words := by
    intro e he
    rw [ho]
    exact ⟨List.mem_flatMap.mpr ⟨e, he, by simp⟩, List.mem_flatMap.mpr ⟨e, he, by simp⟩⟩
  have hbefore : ∀ e ∈ ht, Before vt (n + 1) e.1 ∧ Before vt (n + 1) e.2 := fun e he =>
    ⟨hw.before ha (hentries e he).1, hw.before ha (hentries e he).2⟩
  rw [createObj_fresh (fun hs => by cases hs.1)] at hr
  obtain ⟨rfl, rfl⟩ := Prod.mk.inj hr
  have hrange := hm.inRange a
  rw [ho] at hrange h' ⊢
  rw [set_fresh] at h' ⊢
  have hcode : eqTypeOfCode eqType.ctorIdx = some eqType := by cases eqType <;> rfl
  have hcodelt : eqType.ctorIdx < 256 ^ 1 := by cases eqType <;> decide
  apply (reads_freadWord hcodelt).bind
  rw [hcode]
  simp only [hplaced]
  apply (reads_freadWord (by norm_num; exact hrange)).bind
  have hread := loadEntries_reads buckets fuel args.heap eqType [] hw h' hchunks hbefore ?_
  · rw [List.nil_append] at hread
    exact Reads.map _ hread
  · intro front e back hsplit
    rw [List.nil_append] at hsplit
    have hpair := hm.apart a eqType ht ho
    rw [hsplit] at hpair
    rw [List.map_append]
    apply setInTable_of_apart
    intro e' he'
    obtain ⟨d, hd, rfl⟩ := List.mem_map.mp he'
    have hdin : d ∈ ht := hsplit ▸ List.mem_append_left _ hd
    have hein : e ∈ ht := hsplit ▸ List.mem_append_right _ List.mem_cons_self
    refine h.keys_apart hw ha h' (List.prefix_append _ _) (hbefore e hein).1 (hbefore d hdin).1 ?_
      ((List.pairwise_append.mp hpair).2.2 d hd e List.mem_cons_self)
    exact (hm.keys a eqType ht ho).imp_right fun hne => ⟨hne e hein, hne d hdin⟩

/-- An object is made from what was written for it. -/
theorem Loaded.makes_obj (hw : Written vt mem) (hm : Serializable mem fuel)
    (h : Loaded vt mem heap₀ φ n args) (ha : vt.ht.get (.ptr a) = some (n + 1))
    (hbytes : writeObj vt (n + 1) (mem a) = some bytes) :
    Makes vt mem heap₀ buckets fuel n args (.ptr a) bytes := by
  have hrange := hm.inRange a
  have hbefore : ∀ w ∈ (mem a).words, Before vt (n + 1) w := fun w => hw.before ha
  cases ho : mem a with
  | f64 bits =>
    rw [ho] at hbytes
    obtain rfl := Option.some.inj hbytes
    apply h.makes_made hw hm ha (o := .f64 bits) (fun r => by rw [ho]; rfl)
    have hword : Reads (freadWord 8) (fwriteWord 8 bits.toNat) bits.toNat :=
      reads_freadWord bits.toNat_lt
    have hread := hword.map fun f => made args (.f64 (UInt64.ofNat f))
    rwa [UInt64.ofNat_toNat] at hread
  | bigint num digits =>
    rw [ho] at hbytes hrange
    obtain rfl := Option.some.inj hbytes
    rw [List.append_assoc]
    apply h.makes_made hw hm ha (o := .bigint num digits) (fun r => by rw [ho]; rfl)
    apply (reads_freadBits (by norm_num) num).bind
    have hchunks : digits.mapM (fun d => some (fwriteWord 4 d.toNat)) =
        some (digits.map fun d => fwriteWord 4 d.toNat) := List.mapM_pure
    have hdigits := reads_freadMany hchunks fun d _ bytes hd => by
      obtain rfl := Option.some.inj hd
      exact reads_freadBits (by norm_num) d
    rw [← List.flatMap_def, show digits.length = num.toInt.natAbs from hrange] at hdigits
    exact Reads.map _ hdigits
  | str s =>
    rw [ho] at hbytes hrange
    obtain rfl := Option.some.inj hbytes
    apply h.makes_made hw hm ha (o := .str s) (fun r => by rw [ho]; rfl)
    exact Reads.map _ (reads_fklLoadString hrange)
  | keyword s =>
    rw [ho] at hbytes hrange
    obtain rfl := Option.some.inj hbytes
    apply h.makes_made hw hm ha (o := .keyword s) (fun r => by rw [ho]; rfl)
    exact Reads.map _ (reads_fklLoadString hrange)
  | sym interned s =>
    rw [ho] at hbytes hrange
    obtain rfl := Option.some.inj hbytes
    rw [List.append_assoc]
    apply h.makes_made hw hm ha (o := .sym interned s) (fun r => by rw [ho]; rfl)
    apply (reads_freadWord (by cases interned <;> decide)).bind
    have hread := (reads_fklLoadString hrange).map fun s => made args (.sym interned s)
    cases interned <;> exact hread
  | bytes s =>
    rw [ho] at hbytes hrange
    obtain rfl := Option.some.inj hbytes
    apply h.makes_made hw hm ha (o := .bytes s) (fun r => by rw [ho]; rfl)
    exact Reads.map _ (reads_fklLoadString hrange)
  | headerWildcard =>
    rw [ho] at hbytes
    obtain rfl := Option.some.inj hbytes
    rw [← List.append_nil (writeOp _)]
    apply h.makes_made hw hm ha (o := .headerWildcard) (fun r => by rw [ho]; rfl)
    exact Reads.ret _
  | slot s expand =>
    rw [ho] at hbytes hbefore
    obtain ⟨b, interned, name, rfl, hsym⟩ := hm.slot a s expand ho
    obtain ⟨bs, hbs, hbytes⟩ := Option.bind_eq_some_iff.mp hbytes
    obtain rfl := Option.some.inj hbytes
    have hne : b ≠ a := by
      rintro rfl
      rw [ho] at hsym
      cases hsym
    obtain ⟨j, hj, hget⟩ := (hbefore (.ptr b) List.mem_cons_self).resolve_left (by simp)
    have hle : j ≤ n := by
      by_contra hgt
      obtain rfl : j = n + 1 := by omega
      exact hne (ValueWord.ptr.inj (hw.numbered.unique hget ha))
    have hobj := h.obj b j hget hle
    rw [hsym] at hobj
    rw [List.append_assoc]
    apply h.makes_made hw hm ha (o := .slot (.ptr (φ b)) expand)
    · intro r
      rw [ho]
      simp [ValueObj.map, update_of_ne hne]
    · apply (h.reads_id hw (Or.inr ⟨j, hle, hget⟩) hbs).bind
      have hcode : expandOfCode (expandCode expand) = some expand := by cases expand <;> rfl
      have hlt : expandCode expand < 256 ^ 1 := by cases expand <;> decide
      rw [← List.append_nil (fwriteWord 1 _)]
      apply (reads_freadWord hlt).bind
      rw [hcode]
      simp only [ValueWord.map_ptr, hobj]
      exact Reads.ret _
  | pair car cdr =>
    rw [ho] at hbytes hbefore
    obtain ⟨b, hb, hbytes⟩ := Option.bind_eq_some_iff.mp hbytes
    obtain ⟨b', hb', hbytes⟩ := Option.bind_eq_some_iff.mp hbytes
    obtain rfl := Option.some.inj hbytes
    rw [List.append_assoc]
    apply h.makes_placed hw hm ha (o := .pair .nil .nil) (by rw [ho]; rfl) (by intro h; cases h)
    intro r heap hr hplaced h'
    rw [ho] at h' ⊢
    simp only [loadObj, hplaced]
    apply (h'.reads_id hw (hbefore car (by simp [ValueObj.words])) hb).bind
    exact Reads.map _ (h'.reads_id hw (hbefore cdr (by simp [ValueObj.words])) hb')
  | vec base =>
    rw [ho] at hbytes hbefore hrange
    obtain ⟨chunks, hchunks, hbytes⟩ := Option.bind_eq_some_iff.mp hbytes
    obtain rfl := Option.some.inj hbytes
    rw [List.append_assoc]
    apply h.makes_placed hw hm ha (o := .vec (List.replicate base.length .null))
    · rw [ho]
      cases base <;> rfl
    · intro hs
      rw [ho]
      cases base with
      | nil => rfl
      | cons w base => cases hs
    intro r heap hr hplaced h'
    rw [ho] at h' ⊢
    apply (reads_freadWord (by norm_num; exact hrange)).bind
    simp only [hplaced]
    have hread : Reads (freadMany (loadValueId (args.values.set n (.ptr r))) base.length)
        chunks.flatten (base.map (ValueWord.map (update φ a r))) :=
      reads_freadMany_map hchunks fun w hword bytes hb => h'.reads_id hw (hbefore w hword) hb
    exact Reads.map _ hread
  | box v =>
    rw [ho] at hbytes hbefore
    obtain ⟨b, hb, hbytes⟩ := Option.bind_eq_some_iff.mp hbytes
    obtain rfl := Option.some.inj hbytes
    apply h.makes_placed hw hm ha (o := .box .nil) (by rw [ho]; rfl) (by intro h; cases h)
    intro r heap hr hplaced h'
    rw [ho] at h' ⊢
    simp only [loadObj, hplaced]
    exact Reads.map _ (h'.reads_id hw (hbefore v (by simp [ValueObj.words])) hb)
  | hashTable eqType ht =>
    rw [ho] at hbytes
    obtain ⟨chunks, hchunks, hbytes⟩ := Option.bind_eq_some_iff.mp hbytes
    obtain rfl := Option.some.inj hbytes
    rw [List.append_assoc, List.append_assoc]
    exact h.makes_hashTable hw hm ha ho hchunks

theorem Loaded.makes (buckets : Buckets) (hw : Written vt mem) (hm : Serializable mem fuel)
    (h : Loaded vt mem heap₀ φ n args) {w : ValueWord A} (hget : vt.ht.get w = some (n + 1))
    (hbytes : writeValueCreateInstructions vt (n + 1) mem w = some bytes) :
    Makes vt mem heap₀ buckets fuel n args w bytes := by
  cases w with
  | null => cases hbytes
  | nil =>
    obtain rfl := Option.some.inj hbytes
    rw [← List.append_nil (writeOp _)]
    exact ⟨φ, args, reads_op (Reads.ret _), h.imm hw hget (by simp)⟩
  | fix i =>
    obtain rfl := Option.some.inj hbytes
    have hbits : Reads (freadBits 8 64) (fwriteWord 8 (i.signExtend 64).toNat) (i.signExtend 64) :=
      reads_freadBits rfl _
    have hread := hbits.map fun x => ((.fix (x.setWidth 61) : ValueWord Nat), args)
    have hi : (i.signExtend 64).setWidth 61 = i := by
      apply BitVec.eq_of_getLsbD_eq
      intro k hk
      rw [BitVec.getLsbD_setWidth, BitVec.getLsbD_signExtend]
      simp [hk, show k < 64 by omega]
    rw [hi] at hread
    exact ⟨φ, args, reads_op hread, h.imm hw hget (by simp)⟩
  | chr c =>
    obtain rfl := Option.some.inj hbytes
    exact ⟨φ, args, reads_op (Reads.map _ (reads_freadByte c)), h.imm hw hget (by simp)⟩
  | ptr a => exact h.makes_obj hw hm hget hbytes

/-! The table. -/

theorem loadValues_reads (buckets : Buckets) (hw : Written vt mem) (hm : Serializable mem fuel)
    (pre : List (ValueWord A × Nat)) {post : List (ValueWord A × Nat)}
    (hentries : vt.ht.entries = pre ++ post)
    (h : Loaded vt mem heap₀ φ pre.length args)
    {written : List (ValueWord A)} (hleft : KeysLeft written post)
    (hbytes : writeEntries vt mem written post = some bytes) :
    ∃ φ args', Reads (loadValues buckets fuel pre.length post.length args) bytes args' ∧
      Loaded vt mem heap₀ φ (pre.length + post.length) args' := by
  induction post generalizing pre φ args written bytes with
  | nil =>
    obtain rfl := Option.some.inj hbytes
    exact ⟨φ, args, Reads.ret _, h⟩
  | cons e post ih =>
    obtain ⟨w, i⟩ := e
    obtain ⟨b, b', hb, hb', rfl⟩ := writeEntries_cons (hleft.2 _ List.mem_cons_self) hbytes
    have hplace : vt.ht.entries[pre.length]? = some (w, i) := by simp [hentries]
    obtain rfl : i = pre.length + 1 := hw.numbered.entry hplace
    have hget := get_iff_mem.mpr (List.mem_of_getElem? hplace)
    obtain ⟨ψ, args₁, hread, hmade⟩ := h.makes buckets hw hm hget hb
    have hentries' : vt.ht.entries = (pre ++ [(w, pre.length + 1)]) ++ post := by simp [hentries]
    have hlen : (pre ++ [(w, pre.length + 1)]).length = pre.length + 1 := by simp
    rw [← hlen] at hmade
    obtain ⟨χ, args₂, hrest, hloaded⟩ := ih _ hentries' hmade hleft.tail hb'
    rw [hlen] at hrest hloaded
    refine ⟨χ, args₂, hread.bind hrest, ?_⟩
    rwa [Nat.add_right_comm, Nat.add_assoc] at hloaded

theorem loaded_none (hs : Singletons heap₀) (hnum : vt.Numbered) (φ : A → Nat) :
    Loaded vt mem heap₀ φ 0 ⟨heap₀, List.replicate (vt.nextId - 1) .null⟩ := by
  have hpos : ∀ w i, vt.ht.get w = some i → ¬i ≤ 0 := fun w i hget hi => by
    have := hnum.lt hget
    omega
  exact ⟨List.prefix_rfl, hs, by simp, fun w i hget hi => absurd hi (hpos w i hget),
    fun a i hget hi => absurd hi (hpos _ i hget), fun a b i j ha _ hi _ => absurd hi (hpos _ i ha),
    fun a i hget hi => absurd hi (hpos _ i hget)⟩

/-- The objects of the table have been made again at the addresses `φ`, each once, and what they
hold has been renamed by `φ` alone. All are new but those whose contents one object only has. -/
structure CopyOf (vt : FklValueTable (ValueWord A)) (mem : A → ValueObj A) (heap₀ : FklHeap)
    (φ : A → Nat) (args : FklLoadValueArgs) : Prop where
  kept : heap₀ <+: args.heap
  singletons : Singletons args.heap
  value : ∀ w i, vt.ht.get w = some i → args.values[i - 1]? = some (w.map φ)
  obj : ∀ a i, vt.ht.get (.ptr a) = some i → args.heap[φ a]? = some ((mem a).map φ)
  inj : ∀ a b i j, vt.ht.get (.ptr a) = some i → vt.ht.get (.ptr b) = some j → φ a = φ b → a = b
  fresh : ∀ a i, vt.ht.get (.ptr a) = some i → (mem a).isSingleton = false → heap₀.length ≤ φ a

theorem loadValueTable_reads (buckets : Buckets) (hs : Singletons heap₀)
    (hm : Serializable mem fuel) (hw : Written vt mem)
    (hentries : writeEntries vt mem [] vt.ht.entries = some bytes) :
    ∃ φ args, Reads (loadValueTable buckets fuel heap₀)
      (fwriteWord 4 (vt.nextId - 1) ++ bytes) args ∧ CopyOf vt mem heap₀ φ args := by
  have hcount : vt.nextId - 1 = vt.ht.entries.length := by
    have := hw.numbered.nextId
    omega
  have hle := hw.nextId_le
  obtain ⟨φ, args, hread, h⟩ := loadValues_reads buckets hw hm [] rfl
    (loaded_none hs hw.numbered fun _ => 0) keysLeft_entries hentries
  have hall : ∀ w i, vt.ht.get w = some i →
      i ≤ ([] : List (ValueWord A × Nat)).length + vt.ht.entries.length := by
    intro w i hget
    have := hw.numbered.lt hget
    rw [List.length_nil, Nat.zero_add, ← hcount]
    omega
  refine ⟨φ, args, ?_, h.kept, h.singletons, fun w i hget => h.value w i hget (hall w i hget),
    fun a i hget => h.obj a i hget (hall _ i hget), ?_,
    fun a i hget => h.fresh a i hget (hall _ i hget)⟩
  · apply (reads_freadWord (by norm_num; omega)).bind
    rw [hcount] at hread ⊢
    exact hread
  · intro a b i j ha hb
    exact h.inj a b i j ha hb (hall _ i ha) (hall _ j hb)

theorem fklWriteValueTable_eq (h : fklWriteValueTable vt mem = some bytes) :
    ∃ b, writeEntries vt mem [] vt.ht.entries = some b ∧
      bytes = fwriteWord 4 (vt.nextId - 1) ++ b := by
  obtain ⟨b, hb, h⟩ := Option.bind_eq_some_iff.mp h
  exact ⟨b, hb, (Option.some.inj h).symm⟩

theorem written_of_write (hnum : vt.Numbered) (hle : vt.nextId ≤ 2 ^ 32)
    (h : writeEntries vt mem [] vt.ht.entries = some bytes) : Written vt mem :=
  ⟨hnum, hle, null_of_write h, fun _ _ => before_of_write hnum h⟩

/-- A table that is written can be loaded into any heap, and its values are a copy of those that
were written, with the same sharing and the same cycles. -/
theorem fklWriteValueTable_loadValueTable (buckets : Buckets) (hs : Singletons heap₀)
    (hm : Serializable mem fuel) (hnum : vt.Numbered) (hle : vt.nextId ≤ 2 ^ 32)
    (hbytes : fklWriteValueTable vt mem = some bytes) :
    ∃ φ args, Reads (loadValueTable buckets fuel heap₀) bytes args ∧
      CopyOf vt mem heap₀ φ args := by
  obtain ⟨b, hentries, rfl⟩ := fklWriteValueTable_eq hbytes
  exact loadValueTable_reads buckets hs hm (written_of_write hnum hle hentries) hentries

/-- A symbol, a hash table with itself for a key and a pair that is its own tail. -/
def selfMem : Nat → ValueObj Nat
  | 0 => .sym true [97]
  | 1 => .hashTable .eq [(.ptr 1, .ptr 0)]
  | 2 => .pair (.fix 5) (.ptr 2)
  | _ => .box .nil

theorem selfMem_serializable : Serializable selfMem 0 := by
  constructor
  · rintro (_ | _ | _ | a) <;> simp [selfMem, ValueObj.InRange]
  · rintro (_ | _ | _ | a) (_ | _ | _ | b) <;> simp [selfMem, ValueObj.isSingleton]
  · rintro (_ | _ | _ | a) s expand h <;> simp [selfMem] at h
  · rintro (_ | _ | _ | a) eqType ht h <;> simp [selfMem] at h
    obtain ⟨-, rfl⟩ := h
    simp
  · rintro (_ | _ | _ | a) eqType ht h <;> simp [selfMem] at h
    exact Or.inl h.1.symm

theorem selfMem_loadValueTable : ∃ bytes,
    fklWriteValueTable (fklInitValueTable.addValues [.fix 5, .ptr 0, .ptr 1, .ptr 2]) selfMem =
      some bytes ∧
    ∃ φ args, Reads (loadValueTable (fun _ _ _ _ => 0) 0 []) bytes args ∧
      CopyOf (fklInitValueTable.addValues [.fix 5, .ptr 0, .ptr 1, .ptr 2]) selfMem [] φ args :=
  ⟨_, rfl, fklWriteValueTable_loadValueTable _ (fun _ _ _ h => by simp at h)
    selfMem_serializable (numbered_init.addValues _) (by decide) rfl⟩

end ValueFile

end FakeLisp
