import FakeLisp.CharClassRight

/-! How many bytes of a class are written, against how many were counted: no more, and no fewer
where every escape is the last character of its chunk. -/

namespace FakeLisp.Regex

/-- With room for so many more characters in the chunk, nothing follows an escape in its chunk. -/
inductive EscapesLast : Nat → List UInt8 → Prop
  | nil (room : Nat) : EscapesLast room []
  | full {pat : List UInt8} (h : EscapesLast uint8Max pat) : EscapesLast 0 pat
  | range {pat : List UInt8} (hrange : startsRange pat = true)
      (h : EscapesLast uint8Max (pat.drop 3)) : EscapesLast uint8Max pat
  | char {room : Nat} {c : UInt8} {pat : List UInt8} (hc : c ≠ backslash)
      (hrange : room + 1 = uint8Max → startsRange (c :: pat) = false)
      (h : EscapesLast room pat) : EscapesLast (room + 1) (c :: pat)
  | esc {room : Nat} {pat : List UInt8}
      (hrange : room + 1 = uint8Max → startsRange (backslash :: pat) = false)
      (hlast : pat.drop (countNumberEscChar pat) = [] ∨ room = 0)
      (h : EscapesLast room (pat.drop (countNumberEscChar pat))) :
      EscapesLast (room + 1) (backslash :: pat)

/-- The text of a chunk as the second scanner gets it. -/
def chunkText (room : Nat) (pat : List UInt8) : List UInt8 :=
  (pat ++ [ch ']']).take (chunkScan room pat).1

theorem chunkScan_char (room : Nat) {pat : List UInt8} (hpat : pat ≠ [])
    (hstop : stopsChunk pat = false) :
    chunkScan (room + 1) pat = (charLen pat + (chunkScan room (pat.drop (charLen pat))).1,
      (chunkScan room (pat.drop (charLen pat))).2 + 1) := by
  simp [chunkScan, hpat, hstop]

theorem chunkScan_stop {room : Nat} {pat : List UInt8} (h : pat = [] ∨ stopsChunk pat = true) :
    chunkScan room pat = (0, 0) := by
  cases room with
  | zero => rfl
  | succ room => rw [chunkScan, if_pos h]

theorem charLen_char {c : UInt8} {pat : List UInt8} (hc : c ≠ backslash) :
    charLen (c :: pat) = 1 := by
  rw [charLen, byteAt_zero, if_neg hc]

theorem charLen_esc (pat : List UInt8) :
    charLen (backslash :: pat) = countNumberEscChar pat + 1 := by
  rw [charLen, byteAt_zero, if_pos rfl, List.tail_cons]

theorem chunkText_char {room : Nat} {c : UInt8} {pat : List UInt8} (hc : c ≠ backslash)
    (hstop : stopsChunk (c :: pat) = false) :
    chunkText (room + 1) (c :: pat) = c :: chunkText room pat := by
  rw [chunkText, chunkScan_char room (by simp) hstop, charLen_char hc, Nat.add_comm]
  rfl

theorem chunkText_esc (room : Nat) {pat : List UInt8}
    (hstop : stopsChunk (backslash :: pat) = false) :
    ∃ text, chunkText (room + 1) (backslash :: pat) = backslash :: text ∧
      text.length ≤ (chunkScan (room + 1) (backslash :: pat)).1 := by
  rw [chunkText, chunkScan_char room (by simp) hstop, charLen_esc]
  rw [show ∀ k, countNumberEscChar pat + 1 + k = countNumberEscChar pat + k + 1 from
    fun k => by omega, List.cons_append, List.take_succ_cons]
  refine ⟨_, rfl, (List.length_take_le _ _).trans ?_⟩
  simp only
  omega

/-- An escape is the last character that is written of a chunk. -/
theorem emitChunk_esc (junk : Nat → UInt8) {len : Nat} {text : List UInt8}
    (hlen : text.length ≤ len) :
    (emitChunk junk len 0 (backslash :: text)).1.length ≤ 1 ∧
      ((emitChunk junk len 0 (backslash :: text)).2 = false →
        (emitChunk junk len 0 (backslash :: text)).1.length = 1) := by
  simp only [emitChunk, if_true]
  split
  · exact ⟨Nat.zero_le _, fun h => absurd h (by simp)⟩
  · rw [emitChunk_skip junk len hlen]
    exact ⟨le_rfl, fun _ => rfl⟩

theorem emitChunk_char (junk : Nat → UInt8) {len : Nat} {c : UInt8} {text : List UInt8}
    (hc : c ≠ backslash) : emitChunk junk len 0 (c :: text) =
      (c :: (emitChunk junk len 0 text).1, (emitChunk junk len 0 text).2) := by
  simp only [emitChunk, if_neg hc]

theorem escapesLast_zero {pat : List UInt8} :
    EscapesLast 0 pat ↔ EscapesLast uint8Max pat := by
  constructor
  · intro h
    cases h with
    | nil => exact .nil _
    | full h => exact h
  · exact .full

theorem escapesLast_char {room : Nat} {c : UInt8} {pat : List UInt8} (hc : c ≠ backslash)
    (hrange : room + 1 = uint8Max → startsRange (c :: pat) = false) :
    EscapesLast (room + 1) (c :: pat) ↔ EscapesLast room pat := by
  constructor
  · generalize hroom : room + 1 = r
    intro h
    cases h with
    | full => cases hroom
    | range hstarts =>
      rw [hrange hroom] at hstarts
      cases hstarts
    | char _ _ h =>
      obtain rfl := Nat.succ.inj hroom
      exact h
    | esc => exact absurd rfl hc
  · exact .char hc hrange

theorem escapesLast_esc {room : Nat} {pat : List UInt8}
    (hrange : room + 1 = uint8Max → startsRange (backslash :: pat) = false) :
    EscapesLast (room + 1) (backslash :: pat) ↔
      (pat.drop (countNumberEscChar pat) = [] ∨ room = 0) ∧
        EscapesLast room (pat.drop (countNumberEscChar pat)) := by
  constructor
  · generalize hroom : room + 1 = r
    intro h
    cases h with
    | full => cases hroom
    | range hstarts =>
      rw [hrange hroom] at hstarts
      cases hstarts
    | char hc => exact absurd rfl hc
    | esc _ hlast h =>
      obtain rfl := Nat.succ.inj hroom
      exact ⟨hlast, h⟩
  · exact fun h => .esc hrange h.1 h.2

theorem chunkScan_last {room : Nat} {pat : List UInt8} (h : pat = [] ∨ room = 0) :
    chunkScan room pat = (0, 0) := by
  rcases h with rfl | rfl
  · exact chunkScan_stop (Or.inl rfl)
  · rfl

theorem escapesLast_last {room : Nat} {pat : List UInt8} (h : pat = [] ∨ room = 0) :
    EscapesLast room pat ↔ EscapesLast uint8Max pat := by
  rcases h with rfl | rfl
  · exact ⟨fun _ => .nil _, fun _ => .nil _⟩
  · exact escapesLast_zero

/-- A chunk that the walk goes through is empty only where no room or no text is left. -/
theorem WalkEnds.chunk_eq_zero_iff {room : Nat} {pat : List UInt8} (h : WalkEnds room pat)
    (hroom : room < uint8Max) : (chunkScan room pat).2 = 0 ↔ pat = [] ∨ room = 0 := by
  cases h with
  | nil => simp [chunkScan_stop]
  | full => simp [chunkScan]
  | range => exact absurd rfl (Nat.ne_of_lt hroom)
  | char hpat _ hstop => simp [chunkScan_char _ hpat hstop, hpat]

/-- What is written of a chunk. -/
structure ChunkSizes (room : Nat) (pat : List UInt8) (out : List UInt8 × Bool) : Prop where
  le : out.1.length ≤ (chunkScan room pat).2
  eq_iff : out.2 = false → (EscapesLast room pat ↔ out.1.length = (chunkScan room pat).2 ∧
    EscapesLast uint8Max (pat.drop (chunkScan room pat).1))

/-- No more characters are written than the chunk has, and as many where its escape is the last of
them. -/
theorem WalkEnds.chunkSizes (junk : Nat → UInt8) {room len : Nat} {pat : List UInt8}
    (h : WalkEnds room pat) (hroom : room ≤ uint8Max)
    (hrange : room = uint8Max → startsRange pat = false) (hlen : (chunkScan room pat).1 ≤ len) :
    ChunkSizes room pat (emitChunk junk len 0 (chunkText room pat)) := by
  induction h with
  | nil room =>
    have hscan : chunkScan room [] = (0, 0) := chunkScan_stop (Or.inl rfl)
    have htext : chunkText room [] = [] := by simp [chunkText, hscan]
    rw [htext]
    refine ⟨Nat.zero_le _, fun _ => ?_⟩
    rw [hscan]
    exact ⟨fun _ => ⟨rfl, .nil _⟩, fun _ => .nil _⟩
  | full h =>
    refine ⟨Nat.zero_le _, fun _ => ?_⟩
    rw [escapesLast_zero]
    exact ⟨fun h => ⟨rfl, h⟩, fun h => h.2⟩
  | range hstarts =>
    rw [hrange rfl] at hstarts
    cases hstarts
  | @char room pat hpat _ hstop hwalk ih =>
    obtain ⟨c, pat, rfl⟩ := List.exists_cons_of_ne_nil hpat
    have hscan := chunkScan_char room hpat hstop
    by_cases hc : c = backslash
    · subst hc
      obtain ⟨text, htext, htextlen⟩ := chunkText_esc room hstop
      obtain ⟨hle, heq⟩ := emitChunk_esc junk (htextlen.trans hlen)
      rw [charLen_esc, List.drop_succ_cons] at hscan hwalk
      have hzero := hwalk.chunk_eq_zero_iff (by omega)
      rw [htext]
      refine ⟨hle.trans (by rw [hscan]; omega), fun hnot => ?_⟩
      rw [heq hnot, escapesLast_esc hrange, hscan]
      simp only [Nat.right_eq_add, hzero]
      refine and_congr_right fun hlast => ?_
      rw [chunkScan_last hlast, Nat.add_zero, List.drop_succ_cons]
      exact escapesLast_last hlast
    · rw [charLen_char hc, List.drop_succ_cons, List.drop_zero] at hscan ih
      rw [hscan] at hlen
      obtain ⟨hle, heq⟩ := ih (by omega) (fun hroom' => absurd hroom' (by omega)) (by omega)
      rw [chunkText_char hc hstop, emitChunk_char junk hc]
      refine ⟨by rw [hscan]; exact Nat.succ_le_succ hle, fun hnot => ?_⟩
      rw [escapesLast_char hc hrange, heq hnot, hscan]
      simp only [List.length_cons, Nat.add_right_cancel_iff]
      rw [Nat.add_comm 1, List.drop_succ_cons]

/-! The class as a whole. -/

theorem escapesLast_range {pat : List UInt8} (hrange : startsRange pat = true) :
    EscapesLast uint8Max pat ↔ EscapesLast uint8Max (pat.drop 3) := by
  constructor
  · generalize hroom : uint8Max = room
    intro h
    cases h with
    | nil => cases hrange
    | full => cases hroom
    | range _ h => exact hroom ▸ h
    | char _ hnot =>
      rw [hnot hroom.symm] at hrange
      cases hrange
    | esc hnot =>
      rw [hnot hroom.symm] at hrange
      cases hrange
  · exact .range hrange

/-- What the second scanner writes while the first goes on: `n` bytes are counted in all, and
`retval` of them so far. -/
structure ClassSizes (pat patrns : List UInt8) (retval n : Nat) (out : ClassOut) : Prop where
  le : out.patrns.length + retval ≤ n + patrns.length
  eq_iff : out.rejected = false →
    (EscapesLast uint8Max pat ↔ out.patrns.length + retval = n + patrns.length)

theorem le_classLenStep (s : List UInt8 × Nat) : s.2 ≤ (classLenStep s).2 := by
  obtain ⟨pat, retval⟩ := s
  unfold classLenStep
  simp only
  split
  · exact Nat.le_add_right _ _
  · exact Nat.le_add_right _ _

theorem le_of_classLen {fuel : Nat} {s t : List UInt8 × Nat}
    (h : whileLoop (fun s : List UInt8 × Nat => !s.1.isEmpty) (fun s => some (classLenStep s))
      fuel s = some t) : s.2 ≤ t.2 := by
  refine (whileLoop_inv (fun u : List UInt8 × Nat => s.2 ≤ u.2) (fun u v hu _ hv => ?_) le_rfl h).1
  obtain rfl := Option.some.inj hv
  exact hu.trans (le_classLenStep u)

theorem classLenStep_range {pat : List UInt8} {retval : Nat} (h : startsRange pat = true) :
    classLenStep (pat, retval) = (pat.drop 3, retval + 3) := by
  simp only [classLenStep, h, if_true]

theorem classLenStep_chunk {pat : List UInt8} {retval : Nat} (h : startsRange pat = false) :
    classLenStep (pat, retval) = (pat.drop (chunkScan uint8Max pat).1,
      retval + (2 + (chunkScan uint8Max pat).2)) := by
  simp only [classLenStep, h, Bool.false_eq_true, if_false]

/-- A piece of the class, given up or written with `size` bytes, `counted` of them counted. -/
theorem classSizes_step (size counted : Nat) {junk : Nat → UInt8} {fuel retval n : Nat}
    {pat patrns : List UInt8} {next : ClassOut} (hsize : next.patrns.length = patrns.length + size)
    (hle : size ≤ counted) (hn : retval + counted ≤ n)
    (hlast : next.rejected = false → (EscapesLast uint8Max pat ↔
      size = counted ∧ EscapesLast uint8Max next.pat))
    (ih : next.rejected = false → ∃ out, whileLoop (fun s : ClassOut => !s.rejected && !s.pat.isEmpty)
      (fun s => some (classOutStep junk s)) (fuel + 1) next = some out ∧
        ClassSizes next.pat next.patrns (retval + counted) n out) :
    ∃ out, whileLoop (fun s : ClassOut => !s.rejected && !s.pat.isEmpty)
      (fun s => some (classOutStep junk s)) (fuel + 1) next = some out ∧
        ClassSizes pat patrns retval n out := by
  cases hrej : next.rejected with
  | true =>
    refine ⟨next, by simp [whileLoop, hrej], by omega, fun h => ?_⟩
    rw [hrej] at h
    cases h
  | false =>
    obtain ⟨out, hout, hbound, heq⟩ := ih hrej
    refine ⟨out, hout, by omega, fun h => ?_⟩
    rw [hlast hrej, heq h]
    omega

/-- The second scanner ends when the first does. -/
theorem classSizes_of_classLen (junk : Nat → UInt8) {fuel retval : Nat} {pat : List UInt8}
    (patrns : List UInt8) {t : List UInt8 × Nat}
    (h : whileLoop (fun s : List UInt8 × Nat => !s.1.isEmpty) (fun s => some (classLenStep s))
      fuel (pat, retval) = some t) :
    ∃ out, whileLoop (fun s : ClassOut => !s.rejected && !s.pat.isEmpty)
        (fun s => some (classOutStep junk s)) fuel ⟨pat, patrns, false⟩ = some out ∧
      ClassSizes pat patrns retval t.2 out := by
  induction fuel generalizing pat patrns retval with
  | zero => cases h
  | succ fuel ih =>
    by_cases hpat : pat = []
    · subst hpat
      obtain rfl : ([], retval) = t := Option.some.inj h
      refine ⟨⟨[], patrns, false⟩, rfl, (Nat.add_comm _ _).le, fun _ => ?_⟩
      exact ⟨fun _ => Nat.add_comm _ _, fun _ => .nil _⟩
    · have hwalk : WalkEnds uint8Max pat := walkEnds_of_classLen h
      have hrest : whileLoop (fun s : List UInt8 × Nat => !s.1.isEmpty)
          (fun s => some (classLenStep s)) fuel (classLenStep (pat, retval)) = some t := by
        simpa [whileLoop, hpat] using h
      obtain ⟨fuel, rfl⟩ : ∃ k, fuel = k + 1 := by
        cases fuel with
        | zero => cases hrest
        | succ fuel => exact ⟨fuel, rfl⟩
      have hmono := le_of_classLen hrest
      have hunfold : whileLoop (fun s : ClassOut => !s.rejected && !s.pat.isEmpty)
          (fun s => some (classOutStep junk s)) (fuel + 1 + 1) ⟨pat, patrns, false⟩ =
          whileLoop (fun s : ClassOut => !s.rejected && !s.pat.isEmpty)
            (fun s => some (classOutStep junk s)) (fuel + 1)
            (classOutStep junk ⟨pat, patrns, false⟩) := by
        rw [whileLoop, if_pos (by simpa using hpat), Option.bind_some]
      rw [hunfold]
      cases hs : startsRange pat with
      | true =>
        rw [classLenStep_range hs] at hrest hmono
        simp only [classOutStep, hs, if_true]
        split
        · refine classSizes_step 1 3 (by simp) (by decide) hmono ?_ ?_
          · exact fun h => absurd h (by simp)
          · exact fun h => absurd h (by simp)
        · refine classSizes_step 3 3 (by simp) le_rfl hmono (fun _ => ?_)
            fun _ => ih _ hrest
          rw [escapesLast_range hs]
          exact ⟨fun h => ⟨rfl, h⟩, fun h => h.2⟩
      | false =>
        rw [classLenStep_chunk hs] at hrest hmono
        obtain ⟨hle, heq⟩ := hwalk.chunkSizes junk le_rfl (fun _ => hs) le_rfl
        have hstep : classOutStep junk ⟨pat, patrns, false⟩ =
            ⟨pat.drop (chunkScan uint8Max pat).1, patrns ++ charClassChar ::
              UInt8.ofNat (chunkScan uint8Max pat).2 ::
                (emitChunk junk (chunkScan uint8Max pat).1 0 (chunkText uint8Max pat)).1,
              (emitChunk junk (chunkScan uint8Max pat).1 0 (chunkText uint8Max pat)).2⟩ := by
          simp only [classOutStep, hs, Bool.false_eq_true, if_false]
          rfl
        rw [hstep]
        refine classSizes_step (2 + (emitChunk junk (chunkScan uint8Max pat).1 0
            (chunkText uint8Max pat)).1.length) (2 + (chunkScan uint8Max pat).2) ?_ (by omega) hmono
          (fun hrej => ?_) fun hrej => ?_
        · simp only [List.length_append, List.length_cons]
          omega
        · rw [heq hrej]
          simp only [Nat.add_left_cancel_iff]
        · simp only at hrej ⊢
          rw [hrej]
          exact ih _ hrest

/-- Where the bytes of a class are counted, the class is compiled into no more of them, and into as
many where its escapes are the last characters of their chunks. -/
theorem charBufToCharClass_sizes (junk : Nat → UInt8) {fuel n : Nat} {pat : List UInt8}
    (h : computeCharClassLen fuel pat = some n) :
    ∃ out, charBufToCharClass junk fuel pat = some out ∧ out.patrns.length ≤ n ∧
      (out.rejected = false → (EscapesLast uint8Max pat ↔ out.patrns.length = n)) := by
  obtain ⟨t, ht, rfl⟩ := Option.map_eq_some_iff.mp h
  obtain ⟨out, hout, hle, heq⟩ := classSizes_of_classLen junk [] ht
  rw [List.length_nil] at hle heq
  refine ⟨_, by rw [charBufToCharClass, hout]; rfl, ?_⟩
  cases hrej : out.rejected with
  | true =>
    simp only [hrej, if_true]
    exact ⟨by omega, fun h => absurd h (by simp)⟩
  | false =>
    simp only [hrej, Bool.false_eq_true, if_false, List.length_append, List.length_singleton]
    exact ⟨by omega, fun _ => (heq hrej).trans (by omega)⟩

end FakeLisp.Regex
