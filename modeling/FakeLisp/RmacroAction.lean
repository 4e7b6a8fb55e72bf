import FakeLisp.Bytecode
import FakeLisp.FileReader
import FakeLisp.Rmacro
import FakeLisp.ValueTableIds

/-! The actions of the productions of reader macros are written to a file and loaded from it. What
is loaded of a custom action names no dollars, and its line numbers no scopes. -/

namespace FakeLisp

open GrammerTables

variable {V P : Type} [DecidableEq V]

/-- The file is `NULL` or a value. -/
structure FklLntItem (V : Type) where
  fid : Option V
  scp : BitVec 64
  line : BitVec 32
  scope : BitVec 32

structure FklByteCodelnt (V : Type) where
  ls : List (FklLntItem V)
  code : List FklIns

structure FklVMvalueProc (V P : Type) where
  proto : P
  bcl : FklByteCodelnt V

/-- A vector with the method table that was found for it; `view` reads the vector. -/
structure FklVMvalueSimpleActCtx (view : V → Nast) where
  vec : V
  mt : FklSimpleProdAction
  created : fklCreateVMvalueSimpleActCtx1 (view vec) = some mt

inductive FklProdAction (view : V → Nast) (P : Type) where
  | custom (ctx : FklVMvalueCustomActCtx (Option V) (FklVMvalueProc V P))
  | simple (ctx : FklVMvalueSimpleActCtx view)
  | other (v : Option V)

/-! Writing. Nothing where an assertion fails. -/

section

variable (vt : FklValueTable V)

/-- `write_value_id` and `write_proto_id` -/
def writeValueId {V : Type} [DecidableEq V] (t : FklValueTable V) :
    Option V → Option (List UInt8)
  | none => some (fwriteWord 4 0)
  | some v => if fklValueTableGet t v = 0 then none else some (fwriteWord 4 (fklValueTableGet t v))

/-- The scope is not written. -/
def writeLntItem (n : FklLntItem V) : Option (List UInt8) := do
  return (← writeValueId vt n.fid) ++ fwriteWord 8 n.scp.toNat ++ fwriteWord 4 n.line.toNat

def writeLnt (items : List (FklLntItem V)) : Option (List UInt8) := do
  return fwriteWord 4 items.length ++ (← items.mapM (writeLntItem vt)).flatten

def writeIns (ins : FklIns) : Option (List UInt8) := some (fwriteWord 4 ins.toNat)

def writeBc (code : List FklIns) : Option (List UInt8) :=
  if code = [] then none
  else do return fwriteWord 8 code.length ++ (← code.mapM writeIns).flatten

def writeBcLnt (bcl : FklByteCodelnt V) : Option (List UInt8) := do
  return (← writeLnt vt bcl.ls) ++ (← writeBc bcl.code)

/-- The first `actual_len` dollars. -/
def writeDollars (ctx : FklVMvalueCustomActCtx (Option V) (FklVMvalueProc V P)) :
    Option (List UInt8) :=
  if ctx.dollars.length < ctx.actualLen then none
  else ((ctx.dollars.take ctx.actualLen).mapM (writeValueId vt)).map List.flatten

variable [DecidableEq P] (pt : FklValueTable P)

def writeProc (proc : FklVMvalueProc V P) : Option (List UInt8) := do
  return (← writeValueId pt (some proc.proto)) ++ (← writeBcLnt vt proc.bcl)

def writeProdAction {view : V → Nast} : FklProdAction view P → Option (List UInt8)
  | .custom ctx => do
    return fwriteWord 1 2 ++ fwriteWord 8 ctx.actualLen ++ (← writeDollars vt ctx) ++
      (← writeProc vt pt (← ctx.proc))
  | .simple ctx => do return fwriteWord 1 1 ++ (← writeValueId vt (some ctx.vec))
  | .other v => do return fwriteWord 1 0 ++ (← writeValueId vt v)

end

/-! Loading. -/

section

variable (view : V → Nast) (values : List V) (protos : List P)

/-- `load_value_id` and `load_proto_id` -/
def loadValueId {V : Type} (values : List V) : FileM (Option V) := do
  let id ← freadWord 4
  if id = 0 then return none
  else
    match values[id - 1]? with
    | some v => return some v
    | none => failure

def loadLntItem : FileM (FklLntItem V) := do
  let fid ← loadValueId values
  let scp ← freadBits 8 64
  let line ← freadBits 4 32
  return ⟨fid, scp, line, 0⟩

def loadLnt : FileM (List (FklLntItem V)) := do
  let count ← freadWord 4
  freadMany (loadLntItem values) count

def loadIns : FileM FklIns := freadBits 4 32

def loadBc : FileM (List FklIns) := do
  let len ← freadWord 8
  if len = 0 then failure
  else freadMany loadIns len

def loadBcLnt : FileM (FklByteCodelnt V) := do
  let ls ← loadLnt values
  let code ← loadBc
  return ⟨ls, code⟩

def loadProc : FileM (FklVMvalueProc V P) := do
  match ← loadValueId protos with
  | some proto =>
    let bcl ← loadBcLnt values
    return ⟨proto, bcl⟩
  | none => failure

/-- Nothing where the assertion that the context is made fails. -/
def loadSimple (act : V) : FileM (FklVMvalueSimpleActCtx view) :=
  match h : fklCreateVMvalueSimpleActCtx1 (view act) with
  | some mt => return ⟨act, mt, h⟩
  | none => failure

/-- The context is created with zeros, and nothing sets `actual_len`. -/
def loadProdAction : FileM (FklProdAction view P) := do
  let type ← freadWord 1
  match type with
  | 0 =>
    let v ← loadValueId values
    return .other v
  | 1 =>
    match ← loadValueId values with
    | some act =>
      return .simple (← loadSimple view act)
    | none => failure
  | 2 =>
    let len ← freadWord 8
    let dollars ← freadMany (loadValueId values) len
    let proc ← loadProc values protos
    return .custom ⟨0, dollars, some proc⟩
  | 255 => failure
  | _ => return .other none

end

/-! The round trip. -/

/-- The table of a file holds each value at the place of its id. -/
structure LoadedAs {V : Type} [DecidableEq V] (t : FklValueTable V) (values : List V) : Prop where
  place : ∀ v, fklValueTableGet t v ≠ 0 → values[fklValueTableGet t v - 1]? = some v
  count_lt : values.length < 2 ^ 32

/-- The counters are within their types. -/
structure FklByteCodelnt.InRange (bcl : FklByteCodelnt V) : Prop where
  ls_lt : bcl.ls.length < 2 ^ 32
  code_lt : bcl.code.length < 2 ^ 64

def FklProdAction.InRange {view : V → Nast} : FklProdAction view P → Prop
  | .custom ctx => ctx.actualLen < 2 ^ 64 ∧ ∀ proc ∈ ctx.proc, proc.bcl.InRange
  | _ => True

variable {vt : FklValueTable V} {values : List V} {protos : List P}
variable {view : V → Nast} {bytes : List UInt8}

theorem writeValueId_reads {V : Type} [DecidableEq V] {t : FklValueTable V} {values : List V}
    (ht : LoadedAs t values) {v : Option V} (h : writeValueId t v = some bytes) :
    Reads (loadValueId values) bytes v := by
  cases v with
  | none =>
    obtain rfl := Option.some.inj h
    rw [← List.append_nil (fwriteWord 4 _)]
    exact (reads_freadWord (by norm_num)).bind (Reads.ret none)
  | some v =>
    have hz : fklValueTableGet t v ≠ 0 := by
      intro hz
      rw [writeValueId, if_pos hz] at h
      cases h
    rw [writeValueId, if_neg hz] at h
    have hplace := ht.place v hz
    obtain ⟨hlt, -⟩ := List.getElem?_eq_some_iff.mp hplace
    have hid : fklValueTableGet t v < 256 ^ 4 := by
      have := ht.count_lt
      omega
    obtain rfl := Option.some.inj h
    rw [← List.append_nil (fwriteWord 4 _)]
    apply (reads_freadWord hid).bind
    rw [if_neg hz, hplace]
    exact Reads.ret (some v)

/-- What is loaded of a line number. -/
def FklLntItem.loaded (n : FklLntItem V) : FklLntItem V := { n with scope := 0 }

def FklByteCodelnt.loaded (bcl : FklByteCodelnt V) : FklByteCodelnt V :=
  { bcl with ls := bcl.ls.map FklLntItem.loaded }

def FklVMvalueProc.loaded (proc : FklVMvalueProc V P) : FklVMvalueProc V P :=
  { proc with bcl := proc.bcl.loaded }

theorem writeLntItem_reads (hv : LoadedAs vt values) {n : FklLntItem V}
    (h : writeLntItem vt n = some bytes) : Reads (loadLntItem values) bytes n.loaded := by
  obtain ⟨fid, hfid, h⟩ := Option.bind_eq_some_iff.mp h
  cases h
  rw [List.append_assoc]
  apply (writeValueId_reads hv hfid).bind
  apply (reads_freadBits (by norm_num) n.scp).bind
  exact Reads.map (fun line => (⟨n.fid, n.scp, line, 0⟩ : FklLntItem V))
    (reads_freadBits (by norm_num) n.line)

theorem writeLnt_reads (hv : LoadedAs vt values) {items : List (FklLntItem V)}
    (hlt : items.length < 2 ^ 32) (h : writeLnt vt items = some bytes) :
    Reads (loadLnt values) bytes (items.map FklLntItem.loaded) := by
  obtain ⟨chunks, hchunks, h⟩ := Option.bind_eq_some_iff.mp h
  cases h
  apply (reads_freadWord (by omega)).bind
  exact reads_freadMany_map hchunks fun n _ _ hn => writeLntItem_reads hv hn

theorem writeBc_reads {code : List FklIns} (hlt : code.length < 2 ^ 64)
    (h : writeBc code = some bytes) : Reads loadBc bytes code := by
  unfold writeBc at h
  split_ifs at h with hnil
  obtain ⟨chunks, hchunks, h⟩ := Option.bind_eq_some_iff.mp h
  cases h
  apply (reads_freadWord (by omega)).bind
  rw [if_neg (mt List.length_eq_zero_iff.mp hnil)]
  refine reads_freadMany hchunks fun ins _ bytes hins => ?_
  rw [← Option.some.inj hins]
  exact reads_freadBits (by norm_num) ins

theorem writeDollars_reads (hv : LoadedAs vt values)
    {ctx : FklVMvalueCustomActCtx (Option V) (FklVMvalueProc V P)}
    (h : writeDollars vt ctx = some bytes) :
    ctx.actualLen ≤ ctx.dollars.length ∧ Reads (freadMany (loadValueId values) ctx.actualLen) bytes
      (ctx.dollars.take ctx.actualLen) := by
  unfold writeDollars at h
  split_ifs at h with hlt
  have hle := Nat.not_lt.mp hlt
  obtain ⟨chunks, hchunks, rfl⟩ := Option.map_eq_some_iff.mp h
  have hreads := reads_freadMany hchunks fun v _ _ hv' => writeValueId_reads hv hv'
  rw [List.length_take, Nat.min_eq_left hle] at hreads
  exact ⟨hle, hreads⟩

omit [DecidableEq V] in
theorem loadSimple_reads (ctx : FklVMvalueSimpleActCtx view) :
    Reads (loadSimple view ctx.vec) [] ctx := by
  have hload : loadSimple view ctx.vec = pure ctx := by
    unfold loadSimple
    split
    · next mt h =>
      obtain rfl := Option.some.inj (h.symm.trans ctx.created)
      rfl
    · next h => cases h.symm.trans ctx.created
  rw [hload]
  exact Reads.ret ctx

variable [DecidableEq P] {pt : FklValueTable P}

theorem writeProc_reads (hv : LoadedAs vt values) (hp : LoadedAs pt protos)
    {proc : FklVMvalueProc V P} (hr : proc.bcl.InRange) (h : writeProc vt pt proc = some bytes) :
    Reads (loadProc values protos) bytes proc.loaded := by
  obtain ⟨proto, hproto, h⟩ := Option.bind_eq_some_iff.mp h
  obtain ⟨bcl, hbcl, h⟩ := Option.bind_eq_some_iff.mp h
  cases h
  obtain ⟨ls, hls, hbcl⟩ := Option.bind_eq_some_iff.mp hbcl
  obtain ⟨code, hcode, hbcl⟩ := Option.bind_eq_some_iff.mp hbcl
  cases hbcl
  apply (writeValueId_reads hp hproto).bind
  apply Reads.map (fun bcl => (⟨proc.proto, bcl⟩ : FklVMvalueProc V P))
  apply (writeLnt_reads hv hr.ls_lt hls).bind
  exact Reads.map (FklByteCodelnt.mk (proc.bcl.ls.map FklLntItem.loaded))
    (writeBc_reads hr.code_lt hcode)

/-- What is loaded of an action: a custom one without the number of its dollars and without the
scopes of its line numbers. -/
def FklProdAction.loaded : FklProdAction view P → FklProdAction view P
  | .custom ctx =>
    .custom ⟨0, ctx.dollars.take ctx.actualLen, ctx.proc.map FklVMvalueProc.loaded⟩
  | action => action

theorem writeProdAction_reads (hv : LoadedAs vt values) (hp : LoadedAs pt protos)
    {action : FklProdAction view P} (hr : action.InRange)
    (h : writeProdAction vt pt action = some bytes) :
    Reads (loadProdAction view values protos) bytes action.loaded := by
  cases action with
  | custom ctx =>
    obtain ⟨dollars, hdollars, h⟩ := Option.bind_eq_some_iff.mp h
    obtain ⟨proc, hproc, h⟩ := Option.bind_eq_some_iff.mp h
    obtain ⟨code, hcode, h⟩ := Option.bind_eq_some_iff.mp h
    cases h
    rw [List.append_assoc, List.append_assoc]
    apply (reads_freadWord (by norm_num)).bind
    apply (reads_freadWord (lt_of_lt_of_eq hr.1 (by norm_num))).bind
    apply (writeDollars_reads hv hdollars).2.bind
    have hreads := writeProc_reads hv hp (hr.2 proc hproc) hcode
    rw [FklProdAction.loaded, hproc, Option.map_some]
    exact Reads.map (fun proc => FklProdAction.custom
      ⟨0, ctx.dollars.take ctx.actualLen, some proc⟩) hreads
  | simple ctx =>
    obtain ⟨act, hact, h⟩ := Option.bind_eq_some_iff.mp h
    cases h
    apply (reads_freadWord (by norm_num)).bind
    rw [← List.append_nil act]
    apply (writeValueId_reads hv hact).bind
    exact Reads.map FklProdAction.simple (loadSimple_reads ctx)
  | other v =>
    obtain ⟨act, hact, h⟩ := Option.bind_eq_some_iff.mp h
    cases h
    apply (reads_freadWord (by norm_num)).bind
    exact Reads.map FklProdAction.other (writeValueId_reads hv hact)

/-- The loaded action is the same, field by field, and is written as the same bytes. -/
def ActionRoundTrips (vt : FklValueTable V) (pt : FklValueTable P) (values : List V)
    (protos : List P)
    (action : FklProdAction view P) (bytes : List UInt8) : Prop :=
  ∃ loaded, Reads (loadProdAction view values protos) bytes loaded ∧ loaded = action ∧
    writeProdAction vt pt loaded = some bytes

omit [DecidableEq V] in
theorem FklByteCodelnt.loaded_eq_iff {bcl : FklByteCodelnt V} :
    bcl.loaded = bcl ↔ ∀ n ∈ bcl.ls, n.scope = 0 := by
  obtain ⟨ls, code⟩ := bcl
  have hmap : ls.map FklLntItem.loaded = ls ↔ ∀ n ∈ ls, n.loaded = n := by
    rw [← List.map_inj_left, List.map_id']
  rw [loaded, FklByteCodelnt.mk.injEq, eq_self_iff_true, and_true, hmap]
  refine forall₂_congr fun n _ => ⟨fun h => ?_, fun h => ?_⟩
  · rw [← h]
    rfl
  · rw [FklLntItem.loaded, ← h]

omit [DecidableEq V] [DecidableEq P] in
theorem FklVMvalueProc.loaded_eq_iff {proc : FklVMvalueProc V P} :
    proc.loaded = proc ↔ ∀ n ∈ proc.bcl.ls, n.scope = 0 := by
  rw [← FklByteCodelnt.loaded_eq_iff]
  exact ⟨congrArg FklVMvalueProc.bcl, fun h => by rw [loaded, h]⟩

/-- An action makes the round trip exactly when it is no custom action, or one without dollars all
of whose line numbers are of the scope 0. -/
theorem writeProdAction_roundTrips_iff (hv : LoadedAs vt values) (hp : LoadedAs pt protos)
    {action : FklProdAction view P} (hr : action.InRange)
    (hw : writeProdAction vt pt action = some bytes) :
    ActionRoundTrips vt pt values protos action bytes ↔
      ∀ ctx, action = .custom ctx →
        ctx.dollars = [] ∧ ∀ proc ∈ ctx.proc, ∀ n ∈ proc.bcl.ls, n.scope = 0 := by
  have hreads := writeProdAction_reads hv hp hr hw
  constructor
  · rintro ⟨loaded, hloaded, rfl, -⟩ ctx rfl
    have he := hloaded.unique hreads
    rw [FklProdAction.loaded, FklProdAction.custom.injEq] at he
    have hlen : ctx.actualLen = 0 := congrArg FklVMvalueCustomActCtx.actualLen he
    have hdollars : ctx.dollars = ctx.dollars.take ctx.actualLen :=
      congrArg FklVMvalueCustomActCtx.dollars he
    rw [hlen, List.take_zero] at hdollars
    refine ⟨hdollars, fun proc hproc => FklVMvalueProc.loaded_eq_iff.mp ?_⟩
    have hprocs : ctx.proc = ctx.proc.map FklVMvalueProc.loaded :=
      congrArg FklVMvalueCustomActCtx.proc he
    rw [Option.mem_def.mp hproc, Option.map_some] at hprocs
    exact (Option.some.inj hprocs).symm
  · intro h
    have hsame : action.loaded = action := by
      cases action with
      | custom ctx =>
        obtain ⟨dollars, hdollars, hrest⟩ := Option.bind_eq_some_iff.mp hw
        obtain ⟨proc, hproc, -⟩ := Option.bind_eq_some_iff.mp hrest
        have hle := (writeDollars_reads hv hdollars).1
        obtain ⟨hnil, hscopes⟩ := h ctx rfl
        have hloaded := FklVMvalueProc.loaded_eq_iff.mpr (hscopes proc hproc)
        obtain ⟨actualLen, dollars, proc'⟩ := ctx
        obtain rfl : dollars = [] := hnil
        obtain rfl : actualLen = 0 := Nat.le_zero.mp hle
        obtain rfl : proc' = some proc := hproc
        rw [FklProdAction.loaded, Option.map_some, hloaded, List.take_nil]
      | simple | other => rfl
    exact ⟨_, hreads, hsame, by rwa [hsame]⟩

/-- The table of the only value 7. -/
def sevenTable : FklValueTable Nat := (fklValueTableAdd fklInitValueTable 7).2

theorem sevenTable_loadedAs : LoadedAs sevenTable [7] where
  place v hv := by
    by_cases h : v = 7
    · subst h
      rfl
    · exact absurd (by simp [sevenTable, fklValueTableGet, FklValueTable.get_add, h]; rfl) hv
  count_lt := by decide

/-- A custom action with these dollars, of which it names so many; its procedure is one
instruction, with one line number of this scope. -/
def sevenAction (actualLen : Nat) (dollars : List (Option Nat)) (scope : BitVec 32) :
    FklProdAction (fun _ : Nat => Nast.header) Nat :=
  .custom ⟨actualLen, dollars, some ⟨7, ⟨[⟨some 7, 0, 1, scope⟩], [0]⟩⟩⟩

theorem sevenAction_inRange {actualLen : Nat} (h : actualLen < 2 ^ 64)
    (dollars : List (Option Nat)) (scope : BitVec 32) :
    (sevenAction actualLen dollars scope).InRange := by
  refine ⟨h, fun proc hproc => ?_⟩
  cases hproc
  exact ⟨Nat.one_lt_two_pow (by decide), Nat.one_lt_two_pow (by decide)⟩

theorem noDollars_roundTrips : ∃ bytes,
    writeProdAction sevenTable sevenTable (sevenAction 0 [] 0) = some bytes ∧
      ActionRoundTrips sevenTable sevenTable [7] [7] (sevenAction 0 [] 0) bytes := by
  obtain ⟨bytes, hw⟩ : ∃ bytes, writeProdAction sevenTable sevenTable (sevenAction 0 [] 0) =
      some bytes := ⟨_, rfl⟩
  refine ⟨bytes, hw, (writeProdAction_roundTrips_iff sevenTable_loadedAs sevenTable_loadedAs
    (sevenAction_inRange (by norm_num) [] 0) hw).mpr ?_⟩
  intro ctx h
  cases h
  refine ⟨rfl, fun proc hproc => ?_⟩
  cases hproc
  simp

/-- With one dollar, the number of the dollars is lost. -/
theorem oneDollar_not_roundTrips : ∃ bytes,
    writeProdAction sevenTable sevenTable (sevenAction 1 [some 7] 1) = some bytes ∧
      ¬ActionRoundTrips sevenTable sevenTable [7] [7] (sevenAction 1 [some 7] 1) bytes := by
  obtain ⟨bytes, hw⟩ : ∃ bytes, writeProdAction sevenTable sevenTable (sevenAction 1 [some 7] 1) =
      some bytes := ⟨_, rfl⟩
  refine ⟨bytes, hw, ?_⟩
  rintro ⟨loaded, hloaded, rfl, -⟩
  have he := hloaded.unique (writeProdAction_reads sevenTable_loadedAs sevenTable_loadedAs
    (sevenAction_inRange (by norm_num) [some 7] 1) hw)
  cases he

end FakeLisp
