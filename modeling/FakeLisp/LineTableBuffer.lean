import FakeLisp.LineTable
import FakeLisp.Peephole

/-! A byte code is turned into a buffer of words, each with its own line, and a buffer back into a
byte code with a table of its runs. -/

namespace FakeLisp.LineTable

def bufferInfo (w : FklInsLn) : LineInfo := ⟨w.line, w.scope, w.fid⟩

/-- The index moves at most once for a word. -/
def nextLnIdx (l : List FklLntItem) (pc lnIdx : Nat) : Option Nat :=
  if lnIdx < l.length - 1 then do
    let next ← l[lnIdx + 1]?
    some (if next.scp ≤ pc then lnIdx + 1 else lnIdx)
  else some lnIdx

/-- The loop of `fklInitByteCodeBufferWith`. -/
def bufferLoop (l : List FklLntItem) : Nat → Nat → List FklIns → Option (List FklInsLn)
  | _, _, [] => some []
  | pc, lnIdx, ins :: rest => do
    let lnIdx ← nextLnIdx l pc lnIdx
    let item ← l[lnIdx]?
    let buf ← bufferLoop l (pc + 1) lnIdx rest
    some (⟨ins, item.line, item.fid, item.scope, 0, 0⟩ :: buf)

def fklInitByteCodeBufferWith (bcl : FklByteCodelnt) : Option (List FklInsLn) :=
  bufferLoop bcl.l 0 0 bcl.bc

/-- The loop of `fklSetByteCodelntWithBuf` over the words from the `i`th on, with the table's
entries up to it. -/
def runsLoop : Nat → List FklLntItem → List FklInsLn → Option (List FklLntItem)
  | _, ln, [] => some ln
  | i, ln, cur :: rest => do
    let last ← ln.getLast?
    if last.info ≠ bufferInfo cur then
      runsLoop (i + 1) (ln ++ [⟨cur.fid, i, cur.line, cur.scope⟩]) rest
    else runsLoop (i + 1) ln rest

/-- Nothing where the assertion that the buffer has words fails. -/
def fklSetByteCodelntWithBuf (buf : List FklInsLn) : Option FklByteCodelnt := do
  let first ← buf.head?
  let ln ← runsLoop 0 [⟨first.fid, 0, first.line, first.scope⟩] buf
  some ⟨ln, insOf buf⟩

/-- No two neighbours say the same. -/
def Coalesced (t : List FklLntItem) : Prop := t.IsChain fun x y => x.info ≠ y.info

variable {l ln t : List FklLntItem} {ws : List FklIns} {buf : List FklInsLn} {pc i lnIdx : Nat}

/-- The words of the buffer from position `pc` on have the lines of the table. -/
def LinesFrom (t : List FklLntItem) (pc : Nat) (buf : List FklInsLn) : Prop :=
  ∀ k w, buf[k]? = some w → (lineAt t (pc + k)).map FklLntItem.info = some (bufferInfo w)

theorem LinesFrom.cons {w : FklInsLn} (hbuf : LinesFrom t (pc + 1) buf)
    (hw : (lineAt t pc).map FklLntItem.info = some (bufferInfo w)) :
    LinesFrom t pc (w :: buf) := by
  intro k v hv
  cases k with
  | zero => exact Option.some.inj hv ▸ hw
  | succ k =>
    have := hbuf k v hv
    rwa [Nat.add_right_comm, Nat.add_assoc] at this

/-- The entry of the word before is at most one entry off. -/
structure Lagging (l : List FklLntItem) (pc lnIdx : Nat) : Prop where
  starts : ∃ x, l[lnIdx]? = some x ∧ x.scp ≤ pc
  next : ∀ y, l[lnIdx + 1]? = some y → pc ≤ y.scp

theorem nextLnIdx_entryAt (hl : Ascending l) (h : Lagging l pc lnIdx) :
    ∃ i x, nextLnIdx l pc lnIdx = some i ∧ EntryAt l pc i x := by
  obtain ⟨x, hx, hxpc⟩ := h.starts
  unfold nextLnIdx
  by_cases hlt : lnIdx < l.length - 1
  · obtain ⟨y, hy⟩ : ∃ y, l[lnIdx + 1]? = some y := ⟨_, List.getElem?_eq_getElem (by omega)⟩
    have hpc := h.next y hy
    simp only [hlt, if_true, hy, Option.bind_eq_bind, Option.bind_some]
    by_cases hle : y.scp ≤ pc
    · rw [if_pos hle]
      refine ⟨_, y, rfl, hy, hle, ?_⟩
      intro z hz
      exact hpc.trans_lt (hl.getElem_lt (Nat.lt_succ_self _) hy hz)
    · rw [if_neg hle]
      refine ⟨_, x, rfl, hx, hxpc, ?_⟩
      intro z hz
      obtain rfl := Option.some.inj (hy.symm.trans hz)
      omega
  · rw [if_neg hlt]
    refine ⟨_, x, rfl, hx, hxpc, ?_⟩
    intro z hz
    obtain ⟨hzlt, _⟩ := List.getElem?_eq_some_iff.mp hz
    omega

theorem EntryAt.lagging {x : FklLntItem} (h : EntryAt l pc i x) : Lagging l (pc + 1) i :=
  ⟨⟨x, h.entry, h.starts.trans (Nat.le_succ pc)⟩, fun y hy => h.next y hy⟩

theorem bufferLoop_lines (hl : Ascending l) (h : Lagging l pc lnIdx) :
    ∃ buf, bufferLoop l pc lnIdx ws = some buf ∧ insOf buf = ws ∧ LinesFrom l pc buf := by
  induction ws generalizing pc lnIdx with
  | nil => exact ⟨[], rfl, rfl, fun k w hw => absurd hw (by simp)⟩
  | cons ins rest ih =>
    obtain ⟨i, x, hi, hx⟩ := nextLnIdx_entryAt hl h
    obtain ⟨buf, hbuf, hwords, hlines⟩ := ih hx.lagging
    refine ⟨⟨ins, x.line, x.fid, x.scope, 0, 0⟩ :: buf, ?_, ?_, ?_⟩
    · simp [bufferLoop, hi, hx.entry, hbuf]
    · simpa [insOf] using hwords
    · apply hlines.cons
      rw [hx.lineAt_eq hl]
      rfl

theorem fklInitByteCodeBufferWith_lines {bcl : FklByteCodelnt} (ht : ValidTable bcl.l) :
    ∃ buf, fklInitByteCodeBufferWith bcl = some buf ∧ insOf buf = bcl.bc ∧
      LinesFrom bcl.l 0 buf := by
  apply bufferLoop_lines ht.ascending
  obtain ⟨x, rest, hl, hx⟩ := ht.eq_cons
  exact ⟨⟨x, by rw [hl]; rfl, by omega⟩, fun y _ => Nat.zero_le _⟩

/-- The runs of the words before the `i`th one. -/
structure RunsBefore (i : Nat) (ln : List FklLntItem) : Prop where
  valid : ValidTable ln
  coalesced : Coalesced ln
  before : ∀ x ∈ ln, x.scp < i

theorem RunsBefore.succ (h : RunsBefore i ln) : RunsBefore (i + 1) ln :=
  ⟨h.valid, h.coalesced, fun x hx => (h.before x hx).trans (Nat.lt_succ_self i)⟩

theorem RunsBefore.append (h : RunsBefore i ln) {x y : FklLntItem} (hlast : ln.getLast? = some x)
    (hy : y.scp = i) (hinfo : x.info ≠ y.info) : RunsBefore (i + 1) (ln ++ [y]) := by
  obtain ⟨z, rest, rfl, hz⟩ := h.valid.eq_cons
  refine ⟨⟨by simpa using hz, ?_⟩, ?_, ?_⟩
  · apply List.pairwise_append.mpr
    refine ⟨h.valid.ascending, List.pairwise_singleton _ _, ?_⟩
    intro a ha b hb
    obtain rfl := List.mem_singleton.mp hb
    exact hy ▸ h.before a ha
  · apply List.isChain_append.mpr
    refine ⟨h.coalesced, List.isChain_singleton _, ?_⟩
    intro a ha b hb
    obtain rfl := Option.some.inj (hlast.symm.trans ha)
    obtain rfl := Option.some.inj hb
    exact hinfo
  · intro a ha
    rcases List.mem_append.mp ha with ha | ha
    · exact (h.before a ha).trans (Nat.lt_succ_self i)
    · obtain rfl := List.mem_singleton.mp ha
      omega

theorem lineAt_append_behind {y : FklLntItem} {cp : Nat} (h : cp < y.scp) :
    lineAt (ln ++ [y]) cp = lineAt ln cp := by
  have hnone : lineAt [y] cp = none :=
    lineAt_eq_none fun z hz => List.mem_singleton.mp hz ▸ h
  rw [lineAt_append, hnone, Option.none_or]

theorem lineAt_append_self {y : FklLntItem} {cp : Nat} (h : y.scp ≤ cp) :
    lineAt (ln ++ [y]) cp = some y := by
  rw [lineAt_append, lineAt_cons h]
  rfl

theorem runsLoop_lines (buf : List FklInsLn) (h : RunsBefore i ln) :
    ∃ t, runsLoop i ln buf = some t ∧ RunsBefore (i + buf.length) t ∧
      (∀ cp < i, lineAt t cp = lineAt ln cp) ∧ LinesFrom t i buf := by
  induction buf generalizing i ln with
  | nil => exact ⟨ln, rfl, h, fun _ _ => rfl, fun k w hw => absurd hw (by simp)⟩
  | cons cur rest ih =>
    have hlast := List.getLast?_eq_some_getLast h.valid.ne_nil
    obtain ⟨last, hlast⟩ : ∃ last, ln.getLast? = some last := ⟨_, hlast⟩
    have hlen : i + (cur :: rest).length = i + 1 + rest.length := by
      rw [List.length_cons]
      omega
    simp only [runsLoop, hlast, Option.bind_eq_bind, Option.bind_some, hlen]
    by_cases hinfo : last.info = bufferInfo cur
    · -- The word goes on with the last run.
      obtain ⟨t, ht, hruns, hkept, hlines⟩ := ih h.succ
      refine ⟨t, by rw [if_neg (not_not.mpr hinfo), ht], hruns,
        fun cp hcp => hkept cp (by omega), hlines.cons ?_⟩
      rw [hkept i (Nat.lt_succ_self i),
        lineAt_eq_getLast fun x hx => (h.before x hx).le, hlast]
      exact congrArg some hinfo
    · obtain ⟨t, ht, hruns, hkept, hlines⟩ :=
        ih (h.append (y := ⟨cur.fid, i, cur.line, cur.scope⟩) hlast rfl hinfo)
      refine ⟨t, by rw [if_pos hinfo, ht], hruns, ?_, hlines.cons ?_⟩
      · intro cp hcp
        rw [hkept cp (by omega), lineAt_append_behind hcp]
      · rw [hkept i (Nat.lt_succ_self i), lineAt_append_self (le_refl i)]
        rfl

theorem fklSetByteCodelntWithBuf_lines (h : buf ≠ []) :
    ∃ bcl, fklSetByteCodelntWithBuf buf = some bcl ∧ bcl.bc = insOf buf ∧
      RunsBefore buf.length bcl.l ∧ LinesFrom bcl.l 0 buf := by
  cases buf with
  | nil => exact absurd rfl h
  | cons first rest =>
    -- The first word starts the first run.
    have hfirst : RunsBefore 1 [⟨first.fid, 0, first.line, first.scope⟩] := by
      refine ⟨⟨rfl, List.pairwise_singleton _ _⟩, List.isChain_singleton _, ?_⟩
      intro x hx
      obtain rfl := List.mem_singleton.mp hx
      exact Nat.one_pos
    obtain ⟨t, ht, hruns, hkept, hlines⟩ := runsLoop_lines rest hfirst
    have hinfo : FklLntItem.info ⟨first.fid, 0, first.line, first.scope⟩ = bufferInfo first := rfl
    refine ⟨⟨t, insOf (first :: rest)⟩, ?_, rfl, ?_, hlines.cons ?_⟩
    · simp [fklSetByteCodelntWithBuf, runsLoop, hinfo, ht]
    · rwa [List.length_cons, Nat.add_comm]
    · rw [hkept 0 Nat.one_pos, lineAt_cons (Nat.le_refl 0)]
      rfl

/-- The words and the lines survive the way into the buffer and back, and the table that comes
back has no entry too much. -/
theorem fklSetByteCodelntWithBuf_fklInitByteCodeBufferWith (bcl : FklByteCodelnt)
    (hbc : bcl.bc ≠ []) (ht : ValidTable bcl.l) :
    ∃ buf bcl', fklInitByteCodeBufferWith bcl = some buf ∧
      fklSetByteCodelntWithBuf buf = some bcl' ∧ bcl'.bc = bcl.bc ∧
      (∀ cp < bcl.bc.length, SameLine bcl'.l cp bcl.l cp) ∧
      ValidTable bcl'.l ∧ Coalesced bcl'.l := by
  obtain ⟨buf, hbuf, hwords, hlines⟩ := fklInitByteCodeBufferWith_lines ht
  have hne : buf ≠ [] := by
    rintro rfl
    exact hbc hwords.symm
  obtain ⟨bcl', hbcl', hwords', hruns, hlines'⟩ := fklSetByteCodelntWithBuf_lines hne
  refine ⟨buf, bcl', hbuf, hbcl', hwords'.trans hwords, ?_, hruns.valid, hruns.coalesced⟩
  intro cp hcp
  apply hruns.valid.sameLine ht
  have hlen : buf.length = bcl.bc.length := by rw [← hwords, insOf, List.length_map]
  obtain ⟨w, hw⟩ : ∃ w, buf[cp]? = some w := ⟨_, List.getElem?_eq_getElem (by omega)⟩
  have hleft := hlines' cp w hw
  have hright := hlines cp w hw
  rw [Nat.zero_add] at hleft hright
  rw [hleft, hright]

/-- The second entry says what the first does. -/
theorem fklSetByteCodelntWithBuf_adjacent_equal :
    ∃ buf bcl', fklInitByteCodeBufferWith
        ⟨[⟨1, 0, 1, 1⟩, ⟨1, 1, 1, 1⟩, ⟨1, 2, 2, 1⟩], [1, 2, 3]⟩ = some buf ∧
      fklSetByteCodelntWithBuf buf = some bcl' ∧ bcl'.bc = [1, 2, 3] ∧
      (∀ cp < [(1 : FklIns), 2, 3].length,
        SameLine bcl'.l cp [⟨1, 0, 1, 1⟩, ⟨1, 1, 1, 1⟩, ⟨1, 2, 2, 1⟩] cp) ∧
      ValidTable bcl'.l ∧ Coalesced bcl'.l :=
  fklSetByteCodelntWithBuf_fklInitByteCodeBufferWith
    ⟨[⟨1, 0, 1, 1⟩, ⟨1, 1, 1, 1⟩, ⟨1, 2, 2, 1⟩], [1, 2, 3]⟩ (by decide) (by decide)

end FakeLisp.LineTable
