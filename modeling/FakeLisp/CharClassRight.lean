import FakeLisp.CharClass

/-! Where the compiler of character classes reads what is written: the text splits into ranges and
chunks, each chunk without a range and with no escape but its last character. -/

namespace FakeLisp.Regex

open CharBuf

/-- The escape fills `tmp`, or is one character that is no digit. -/
def soundEsc : List UInt8 → Bool
  | [c] => !isEscDigit c
  | [c, d, e] =>
    fklToUpper c = ch 'X' && fklIsXDigit d && fklIsXDigit e ||
      isOctalDigit c && isOctalDigit d && isOctalDigit e && digitsValue 8 [c, d, e] ≤ uint8Max
  | _ => false

/-- The chunk at the start of the text, its characters, and what follows it: only its last
character is an escape, and none is followed by `-`. -/
inductive ChunkRead : Nat → List UInt8 → List UInt8 → List UInt8 → Prop
  | nil (room : Nat) : ChunkRead room [] [] []
  | full (pat : List UInt8) : ChunkRead 0 pat [] pat
  | char {room : Nat} {c : UInt8} {pat cs rest : List UInt8} (hc : c ≠ backslash)
      (hdash : pat.head? ≠ some (ch '-')) (h : ChunkRead room pat cs rest) :
      ChunkRead (room + 1) (c :: pat) (c :: cs) rest
  | esc {room : Nat} {esc rest : List UInt8} (hlen : countNumberEscChar (esc ++ rest) = esc.length)
      (hesc : soundEsc esc = true) (hlast : rest = [] ∨ room = 0)
      (hdash : esc = [ch '-'] → rest ≠ [] ∧ room + 1 ≠ uint8Max) :
      ChunkRead (room + 1) (backslash :: (esc ++ rest)) [UInt8.ofNat (writtenEsc esc)] rest

/-- The text is read as these pieces. -/
inductive ClassRead : List UInt8 → List ClassBlock → Prop
  | nil : ClassRead [] []
  | range {lo hi : UInt8} {pat : List UInt8} {blocks : List ClassBlock} (hlo : lo ≠ backslash)
      (hhi : hi ≠ backslash) (hle : lo.toInt8 ≤ hi.toInt8) (h : ClassRead pat blocks) :
      ClassRead (lo :: ch '-' :: hi :: pat) (.range lo hi :: blocks)
  | chunk {pat cs rest : List UInt8} {blocks : List ClassBlock} (hpat : pat ≠ [])
      (hcs : ChunkRead uint8Max pat cs rest) (h : ClassRead rest blocks) :
      ClassRead pat (.chars cs :: blocks)

/-! Escapes. -/

/-- Facts about an octal digit that the scanners and `strtol` ask for. -/
theorem octalDigit_spec (c : UInt8) : isOctalDigit c = true →
    isEscDigit c = true ∧ fklToUpper c ≠ ch 'X' ∧ isDigitOf 8 c = true ∧
      (c = ch ' ' || (9 ≤ c && c < 14)) = false ∧ c ≠ ch '-' ∧ c ≠ ch '+' := by
  revert c
  refine forall_byte ?_
  decide +kernel

/-- Facts about a hexadecimal digit that `strtol` asks for. -/
theorem xDigit_spec (c : UInt8) : fklIsXDigit c = true →
    isDigitOf 16 c = true ∧ (c = ch ' ' || (9 ≤ c && c < 14)) = false ∧ c ≠ ch '-' ∧ c ≠ ch '+' ∧
      fklToUpper c ≠ ch 'X' ∧ digitOf c < 16 := by
  revert c
  refine forall_byte ?_
  decide +kernel

theorem ofInt_toInt8 (c : UInt8) : UInt8.ofInt c.toInt8.toInt = c ∧ c.toInt8.toInt ≤ 127 := by
  revert c
  refine forall_byte ?_
  decide +kernel

theorem emitChunk_skip (junk : Nat → UInt8) (len : Nat) {skip : Nat} {pat : List UInt8}
    (h : pat.length ≤ skip) : emitChunk junk len skip pat = ([], false) := by
  induction pat generalizing skip with
  | nil => cases skip <;> rfl
  | cons c pat ih =>
    obtain ⟨n, rfl⟩ : ∃ n, skip = n + 1 := ⟨skip - 1, by simp at h; omega⟩
    exact ih (by simpa using h)

theorem writtenItems_skip (skip : Nat) (pat : List UInt8) :
    writtenItems skip pat = writtenItems 0 (pat.drop skip) := by
  induction pat generalizing skip with
  | nil => cases skip <;> rfl
  | cons c pat ih =>
    cases skip with
    | zero => rfl
    | succ skip => exact ih skip

theorem takeWhile_two {p : UInt8 → Bool} {d e : UInt8} {rest : List UInt8} (hd : p d = true)
    (he : p e = true) : moreDigits p (d :: e :: rest) = 2 := by
  simp [moreDigits, hd, he]

theorem strtol_hex {d e : UInt8} (hd : fklIsXDigit d = true) (he : fklIsXDigit e = true) :
    strtol 16 [d, e] = digitsValue 16 [d, e] := by
  obtain ⟨hd16, hdspace, hdminus, hdplus, _, _⟩ := xDigit_spec d hd
  obtain ⟨he16, _, _, _, heX, _⟩ := xDigit_spec e he
  unfold strtol
  rw [List.dropWhile_cons_of_neg (by simpa using hdspace)]
  simp [hdminus, hdplus, heX, hd16, he16]

theorem strtol_octal {c d e : UInt8} (hc : isOctalDigit c = true) (hd : isOctalDigit d = true)
    (he : isOctalDigit e = true) : strtol 8 [c, d, e] = digitsValue 8 [c, d, e] := by
  obtain ⟨_, _, hc8, hcspace, hcminus, hcplus⟩ := octalDigit_spec c hc
  obtain ⟨_, _, hd8, _⟩ := octalDigit_spec d hd
  obtain ⟨_, _, he8, _⟩ := octalDigit_spec e he
  unfold strtol
  rw [List.dropWhile_cons_of_neg (by simpa using hcspace)]
  simp [hcminus, hcplus, hc8, hd8, he8]

theorem escTmp_three (junk : Nat → UInt8) (c d e : UInt8) :
    escTmp junk [c, d, e] = [c, d, e] := rfl

theorem ofInt_natCast (n : Nat) : UInt8.ofInt (n : Int) = UInt8.ofNat n := by
  apply UInt8.toNat_inj.mp
  simp only [UInt8.ofInt, UInt8.toNat_ofNat']
  omega

/-- The escape and what follows it. -/
structure EscRead (esc rest : List UInt8) : Prop where
  written : writtenEscLen (esc ++ rest) = esc.length
  alone : countNumberEscChar esc = esc.length
  isByte : writtenEsc esc ≤ uint8Max
  fits : ∀ junk, escCharToChar junk esc ≤ uint8Max
  read : ∀ junk, UInt8.ofInt (escCharToChar junk esc) = UInt8.ofNat (writtenEsc esc)

theorem EscRead.one {c : UInt8} {rest : List UInt8} (hc : isEscDigit c = false)
    (hlen : countNumberEscChar (c :: rest) = 1) : EscRead [c] rest := by
  have hoct : isOctalDigit c = false := by
    cases h : isOctalDigit c with
    | false => rfl
    | true => exact absurd (octalDigit_spec c h).1 (by simp [hc])
  obtain ⟨hbyte, hle⟩ := ofInt_toInt8 c
  have hvalue : writtenEsc [c] = c.toNat := by simp [writtenEsc, hoct]
  have hread : ∀ junk, escCharToChar junk [c] = c.toInt8.toInt := by simp [escCharToChar, hc]
  refine ⟨?_, ?_, ?_, fun junk => ?_, fun junk => ?_⟩
  · simp only [countNumberEscChar, hc] at hlen
    simpa [writtenEscLen, hoct] using hlen
  · simp [countNumberEscChar, moreDigits, hc]
  · have := c.toNat_lt
    rw [hvalue]
    unfold uint8Max
    omega
  · have : (uint8Max : Int) = 255 := rfl
    rw [hread]
    omega
  · rw [hread, hvalue, hbyte, UInt8.ofNat_toNat]

theorem EscRead.hex {c d e : UInt8} (rest : List UInt8) (hc : fklToUpper c = ch 'X')
    (hd : fklIsXDigit d = true) (he : fklIsXDigit e = true) : EscRead [c, d, e] rest := by
  have hvalue : writtenEsc [c, d, e] = digitsValue 16 [d, e] := by simp [writtenEsc, hc]
  have hread : ∀ junk, escCharToChar junk [c, d, e] = digitsValue 16 [d, e] := fun junk => by
    simp [escCharToChar, hc, escTmp_three, strtol_hex hd he]
  have hle : digitsValue 16 [d, e] ≤ uint8Max := by
    have h1 := (xDigit_spec d hd).2.2.2.2.2
    have h2 := (xDigit_spec e he).2.2.2.2.2
    simp only [digitsValue, List.foldl_cons, List.foldl_nil, uint8Max]
    omega
  refine ⟨?_, ?_, hvalue ▸ hle, fun junk => ?_, fun junk => ?_⟩
  · simp [writtenEscLen, hc, takeWhile_two hd he]
  · simp [countNumberEscChar, hc, takeWhile_two hd he]
  · rw [hread]
    exact_mod_cast hle
  · rw [hread, hvalue, ofInt_natCast]

theorem EscRead.octal {c d e : UInt8} (rest : List UInt8) (hc : isOctalDigit c = true)
    (hd : isOctalDigit d = true) (he : isOctalDigit e = true)
    (hle : digitsValue 8 [c, d, e] ≤ uint8Max) : EscRead [c, d, e] rest := by
  obtain ⟨hcesc, hcX, _⟩ := octalDigit_spec c hc
  have hdesc := (octalDigit_spec d hd).1
  have heesc := (octalDigit_spec e he).1
  have hvalue : writtenEsc [c, d, e] = digitsValue 8 [c, d, e] := by simp [writtenEsc, hcX, hc]
  have hread : ∀ junk, escCharToChar junk [c, d, e] = digitsValue 8 [c, d, e] := fun junk => by
    simp [escCharToChar, hcX, hcesc, escTmp_three, strtol_octal hc hd he]
  refine ⟨?_, ?_, hvalue ▸ hle, fun junk => ?_, fun junk => ?_⟩
  · simp [writtenEscLen, hcX, hc, takeWhile_two hd he]
  · simp [countNumberEscChar, hcX, hcesc, takeWhile_two hdesc heesc]
  · rw [hread]
    exact_mod_cast hle
  · rw [hread, hvalue, ofInt_natCast]

theorem escRead_of_sound {esc rest : List UInt8} (h : soundEsc esc = true)
    (hlen : countNumberEscChar (esc ++ rest) = esc.length) : EscRead esc rest := by
  match esc, h with
  | [c], h => exact EscRead.one (by simpa [soundEsc] using h) hlen
  | [c, d, e], h =>
    simp only [soundEsc, Bool.or_eq_true, Bool.and_eq_true, decide_eq_true_eq] at h
    rcases h with ⟨⟨hc, hd⟩, he⟩ | ⟨⟨⟨hc, hd⟩, he⟩, hle⟩
    · exact EscRead.hex rest hc hd he
    · exact EscRead.octal rest hc hd he hle

theorem soundEsc_ne_nil {esc : List UInt8} (h : soundEsc esc = true) :
    ∃ c ds, esc = c :: ds := by
  cases esc with
  | nil => cases h
  | cons c ds => exact ⟨c, ds, rfl⟩

/-- A dash behind a backslash is the whole escape. -/
theorem esc_eq_dash {c : UInt8} {ds rest : List UInt8} (hc : c = ch '-')
    (hlen : countNumberEscChar (c :: ds ++ rest) = (c :: ds).length) : c :: ds = [ch '-'] := by
  subst hc
  have hone : countNumberEscChar (ch '-' :: (ds ++ rest)) = 1 := rfl
  rw [List.cons_append, hone, List.length_cons] at hlen
  rw [List.length_eq_zero_iff.mp (show ds.length = 0 by omega)]

/-! Chunks. -/

/-- What the scanners make of a chunk. -/
structure ChunkScanned (room : Nat) (pat cs rest text : List UInt8) : Prop where
  split : pat = text ++ rest
  scanned : chunkScan room pat = (text.length, cs.length)
  counted : cs.length ≤ room
  emitted : ∀ junk len, text.length ≤ len → emitChunk junk len 0 text = (cs, false)
  written : writtenItems 0 pat = cs.map (fun c => .one c.toNat) ++ writtenItems 0 rest

theorem byteAt_zero (c : UInt8) (pat : List UInt8) : byteAt (c :: pat) 0 = c := rfl

theorem byteAt_one_ne {c : UInt8} {pat : List UInt8} (h : pat.head? ≠ some (ch '-')) :
    byteAt (c :: pat) 1 ≠ ch '-' := by
  cases pat with
  | nil => exact fun hd => absurd hd (show ch ']' ≠ ch '-' by decide)
  | cons d pat => exact fun hd => h (congrArg some hd)

theorem ChunkRead.scanned {room : Nat} {pat cs rest : List UInt8}
    (h : ChunkRead room pat cs rest) : ∃ text, ChunkScanned room pat cs rest text := by
  induction h with
  | nil room =>
    exact ⟨[], rfl, by cases room <;> rfl, Nat.zero_le _, fun _ _ _ => rfl, rfl⟩
  | full pat => exact ⟨[], rfl, rfl, le_rfl, fun _ _ _ => rfl, rfl⟩
  | @char room c pat cs rest hc hdash _ ih =>
    obtain ⟨text, rfl, hscan, hcount, hemit, hwritten⟩ := ih
    have hne := byteAt_one_ne (c := c) hdash
    refine ⟨c :: text, rfl, ?_, by simpa using hcount, fun junk len hlen => ?_, ?_⟩
    · simp only [chunkScan, stopsChunk, hne, charLen, byteAt_zero, hc]
      simp [hscan, Nat.add_comm]
    · simp only [emitChunk, if_neg hc, hemit junk len (by simp at hlen; omega)]
    · simp only [writtenItems, if_neg hc, hdash, false_and, if_false, hwritten, List.map_cons,
        List.cons_append]
  | @esc room esc rest hlen hesc hlast hdash =>
    have hread := escRead_of_sound hesc hlen
    obtain ⟨c, ds, rfl⟩ := soundEsc_ne_nil hesc
    refine ⟨backslash :: (c :: ds), rfl, ?_, Nat.succ_le_succ (Nat.zero_le _),
      fun junk len hlen' => ?_, ?_⟩
    · have hstop : stopsChunk (backslash :: (c :: ds ++ rest)) = false := by
        by_cases hc : c = ch '-'
        · obtain ⟨hne, _⟩ := hdash (esc_eq_dash hc hlen)
          obtain ⟨d, pat, rfl⟩ := List.exists_cons_of_ne_nil hne
          simp [stopsChunk]
        · have hne : byteAt (backslash :: (c :: ds ++ rest)) 1 ≠ ch '-' := hc
          unfold stopsChunk
          rw [decide_eq_false hne, Bool.and_false]
      have hrest : chunkScan room rest = (0, 0) := by
        rcases hlast with rfl | rfl
        · cases room <;> rfl
        · rfl
      simp only [chunkScan, hstop, charLen, byteAt_zero, List.tail_cons, hlen]
      simp [hrest]
    · have hfits := hread.fits junk
      simp only [emitChunk, if_true, hread.alone, List.take_length, hread.read]
      rw [if_neg (by omega), emitChunk_skip junk len (by simp at hlen' ⊢; omega)]
    · have hbyte : (UInt8.ofNat (writtenEsc (c :: ds))).toNat = writtenEsc (c :: ds) := by
        have := hread.isByte
        unfold uint8Max at this
        exact UInt8.toNat_ofNat_of_lt' (lt_of_le_of_lt this (by decide))
      have hwritten := hread.written
      have htake : (c :: ds ++ rest).take (c :: ds).length = c :: ds := List.take_left
      have hdrop : (c :: ds ++ rest).drop (c :: ds).length = rest := List.drop_left
      simp only [writtenItems, if_true, hwritten]
      rw [writtenItems_skip, htake, hdrop]
      simp [hbyte]

/-! The class as a whole. -/

/-- A chunk does not begin like a range. -/
theorem ChunkRead.not_startsRange {pat cs rest : List UInt8} (h : ChunkRead uint8Max pat cs rest)
    (hpat : pat ≠ []) : startsRange pat = false := by
  unfold uint8Max at h
  cases h with
  | nil => exact absurd rfl hpat
  | char hc hdash h =>
    unfold startsRange
    rw [decide_eq_false (byteAt_one_ne hdash), Bool.and_false]
  | @esc _ esc _ hlen hesc hlast hdash =>
    obtain ⟨c, ds, rfl⟩ := soundEsc_ne_nil hesc
    have hne : c ≠ ch '-' := fun hc => (hdash (esc_eq_dash hc hlen)).2 rfl
    have hone : byteAt (backslash :: (c :: ds ++ rest)) 1 ≠ ch '-' := hne
    unfold startsRange
    rw [decide_eq_false hone, Bool.and_false]

theorem ChunkScanned.chunk_text {room : Nat} {pat cs rest text : List UInt8}
    (h : ChunkScanned room pat cs rest text) :
    (pat ++ [ch ']']).take text.length = text ∧ pat.drop text.length = rest := by
  rw [h.split]
  exact ⟨by rw [List.append_assoc, List.take_left], List.drop_left⟩

def blocksBytes (blocks : List ClassBlock) : List UInt8 := blocks.flatMap ClassBlock.bytes

/-- The first scanner counts the bytes of the pieces. -/
theorem ClassRead.classLen {pat : List UInt8} {blocks : List ClassBlock}
    (h : ClassRead pat blocks) (retval : Nat) :
    LoopsTo (fun s : List UInt8 × Nat => !s.1.isEmpty) (fun s => some (classLenStep s))
      blocks.length (pat, retval) ([], retval + (blocksBytes blocks).length) := by
  induction h generalizing retval with
  | nil => exact LoopsTo.done rfl
  | @range lo hi pat blocks hlo hhi hle _ ih =>
    have hstep : classLenStep (lo :: ch '-' :: hi :: pat, retval) = (pat, retval + 3) := by
      simp [classLenStep, startsRange, byteAt]
    have hlen : retval + (blocksBytes (.range lo hi :: blocks)).length =
        retval + 3 + (blocksBytes blocks).length := by
      simp [blocksBytes, ClassBlock.bytes]
      omega
    rw [hlen]
    exact (ih (retval + 3)).step rfl (congrArg some hstep)
  | @chunk pat cs rest blocks hpat hcs _ ih =>
    obtain ⟨text, hscan⟩ := hcs.scanned
    have hstep : classLenStep (pat, retval) = (rest, retval + (2 + cs.length)) := by
      simp [classLenStep, hcs.not_startsRange hpat, hscan.scanned, hscan.chunk_text.2]
    have hlen : retval + (blocksBytes (.chars cs :: blocks)).length =
        retval + (2 + cs.length) + (blocksBytes blocks).length := by
      simp [blocksBytes, ClassBlock.bytes]
      omega
    rw [hlen]
    exact (ih _).step (by simpa using hpat) (congrArg some hstep)

/-- The second scanner writes them. -/
theorem ClassRead.classOut {pat : List UInt8} {blocks : List ClassBlock}
    (h : ClassRead pat blocks) (junk : Nat → UInt8) (patrns : List UInt8) :
    LoopsTo (fun s : ClassOut => !s.rejected && !s.pat.isEmpty)
      (fun s => some (classOutStep junk s)) blocks.length ⟨pat, patrns, false⟩
      ⟨[], patrns ++ blocksBytes blocks, false⟩ := by
  induction h generalizing patrns with
  | nil =>
    rw [show blocksBytes [] = [] from rfl, List.append_nil]
    exact LoopsTo.done rfl
  | @range lo hi pat blocks hlo hhi hle _ ih =>
    have hstep : classOutStep junk ⟨lo :: ch '-' :: hi :: pat, patrns, false⟩ =
        ⟨pat, patrns ++ ClassBlock.bytes (.range lo hi), false⟩ := by
      have hnot : ¬hi.toInt8 < lo.toInt8 := Int8.not_lt.mpr hle
      simp [classOutStep, startsRange, byteAt, hnot, ClassBlock.bytes]
    rw [show blocksBytes (.range lo hi :: blocks) = ClassBlock.bytes (.range lo hi) ++
      blocksBytes blocks from rfl, ← List.append_assoc]
    exact (ih _).step rfl (congrArg some hstep)
  | @chunk pat cs rest blocks hpat hcs _ ih =>
    obtain ⟨text, hscan⟩ := hcs.scanned
    have hstep : classOutStep junk ⟨pat, patrns, false⟩ =
        ⟨rest, patrns ++ ClassBlock.bytes (.chars cs), false⟩ := by
      simp [classOutStep, hcs.not_startsRange hpat, hscan.scanned, hscan.chunk_text,
        hscan.emitted, ClassBlock.bytes]
    rw [show blocksBytes (.chars cs :: blocks) = ClassBlock.bytes (.chars cs) ++
      blocksBytes blocks from rfl, ← List.append_assoc]
    exact (ih _).step (by simpa using hpat) (congrArg some hstep)

theorem ClassRead.counted {pat : List UInt8} {blocks : List ClassBlock}
    (h : ClassRead pat blocks) : ∀ b ∈ blocks, b.Counted := by
  induction h with
  | nil => exact fun b hb => absurd hb List.not_mem_nil
  | range _ _ _ _ ih => exact List.forall_mem_cons.mpr ⟨trivial, ih⟩
  | chunk _ hcs _ ih =>
    obtain ⟨text, hscan⟩ := hcs.scanned
    exact List.forall_mem_cons.mpr ⟨hscan.counted, ih⟩

def ClassBlock.Has (c : UInt8) : ClassBlock → Prop
  | chars cs => c ∈ cs
  | range lo hi => lo ≤ c ∧ c ≤ hi

instance (c : UInt8) : DecidablePred (ClassBlock.Has c)
  | .chars cs => inferInstanceAs (Decidable (c ∈ cs))
  | .range lo hi => inferInstanceAs (Decidable (lo ≤ c ∧ c ≤ hi))

/-- The pieces list what is written. -/
theorem ClassRead.has_iff {pat : List UInt8} {blocks : List ClassBlock}
    (h : ClassRead pat blocks) (c : UInt8) :
    (∃ b ∈ blocks, b.Has c) ↔ ∃ item ∈ writtenItems 0 pat, item.Has c := by
  induction h with
  | nil => simp [writtenItems]
  | @range lo hi pat blocks hlo hhi hle _ ih =>
    have hitems : writtenItems 0 (lo :: ch '-' :: hi :: pat) =
        .range lo hi :: writtenItems 0 pat := by
      rw [writtenItems, if_neg hlo, if_pos ⟨rfl, by simp, by simpa using hhi⟩, writtenItems_skip]
      rfl
    rw [hitems]
    simp only [List.mem_cons, exists_eq_or_imp, ih]
    rfl
  | @chunk pat cs rest blocks hpat hcs _ ih =>
    obtain ⟨text, hscan⟩ := hcs.scanned
    have hone : ClassBlock.Has c (.chars cs) ↔
        ∃ item ∈ cs.map fun a => ClassItem.one a.toNat, item.Has c := by
      constructor
      · exact fun hmem => ⟨_, List.mem_map_of_mem hmem, rfl⟩
      · rintro ⟨item, hitem, hhas⟩
        obtain ⟨a, ha, rfl⟩ := List.mem_map.mp hitem
        exact UInt8.toNat_inj.mp hhas ▸ ha
    rw [hscan.written, List.exists_mem_cons_iff, hone, ih]
    simp only [List.mem_append, or_and_right, exists_or]

theorem matchCharClassFrom_range {c lo hi : UInt8} {fuel : Nat} {patrns : List UInt8} :
    matchCharClassFrom c (fuel + 1) (charClassRange :: lo :: hi :: patrns) =
      if lo ≤ c ∧ c ≤ hi then some true else matchCharClassFrom c fuel patrns := rfl

theorem matchCharClassFrom_chars {c : UInt8} {cs : List UInt8} (hcs : cs.length ≤ uint8Max)
    {fuel : Nat} {patrns : List UInt8} :
    matchCharClassFrom c (fuel + 1) (ClassBlock.bytes (.chars cs) ++ patrns) =
      if c ∈ cs then some true else matchCharClassFrom c fuel patrns := by
  have hnum : (UInt8.ofNat cs.length).toNat = cs.length :=
    UInt8.toNat_ofNat_of_lt' (lt_of_le_of_lt hcs (by decide))
  have hle : ¬(cs ++ patrns).length < cs.length := by
    rw [List.length_append]
    omega
  have hstep : matchCharClassFrom c (fuel + 1) (ClassBlock.bytes (.chars cs) ++ patrns) =
      if c ∈ (cs ++ patrns).take (UInt8.ofNat cs.length).toNat then some true
      else if (cs ++ patrns).length < (UInt8.ofNat cs.length).toNat then none
      else matchCharClassFrom c fuel ((cs ++ patrns).drop (UInt8.ofNat cs.length).toNat) := rfl
  rw [hstep, hnum, List.take_left, List.drop_left, if_neg hle]

/-- What the matcher makes of bytes with the right counts. -/
theorem matchCharClassFrom_classBytes (c : UInt8) {blocks : List ClassBlock}
    (h : ∀ b ∈ blocks, b.Counted) {fuel : Nat} (hfuel : blocks.length < fuel) :
    matchCharClassFrom c fuel (classBytes blocks) = some (decide (∃ b ∈ blocks, b.Has c)) := by
  induction blocks generalizing fuel with
  | nil =>
    obtain ⟨fuel, rfl⟩ := Nat.exists_eq_succ_of_ne_zero (Nat.ne_zero_of_lt hfuel)
    simp [classBytes, matchCharClassFrom]
  | cons b blocks ih =>
    obtain ⟨fuel, rfl⟩ := Nat.exists_eq_succ_of_ne_zero (Nat.ne_zero_of_lt hfuel)
    have hrest := ih (fun b' hb' => h b' (List.mem_cons_of_mem b hb'))
      (Nat.lt_of_succ_lt_succ hfuel)
    have hsplit : classBytes (b :: blocks) = b.bytes ++ classBytes blocks := by
      simp [classBytes]
    have hcond : matchCharClassFrom c (fuel + 1) (classBytes (b :: blocks)) =
        if b.Has c then some true else matchCharClassFrom c fuel (classBytes blocks) := by
      rw [hsplit]
      cases b with
      | chars cs => exact matchCharClassFrom_chars (h _ List.mem_cons_self)
      | range lo hi => exact matchCharClassFrom_range
    rw [hcond, hrest]
    by_cases hb : b.Has c
    · simp [hb]
    · simp [hb]

theorem length_lt_classBytes (blocks : List ClassBlock) :
    blocks.length < (classBytes blocks).length := by
  induction blocks with
  | nil => decide
  | cons b blocks ih =>
    have hb : 1 ≤ b.bytes.length := by cases b <;> simp [ClassBlock.bytes]
    simp only [classBytes, List.flatMap_cons, List.length_append, List.length_cons] at ih ⊢
    omega

/-! When the loops end. -/

/-- The scanners, with room for so many more characters in the chunk, never stand before the last
two characters of the class where the second is `-`. -/
inductive WalkEnds : Nat → List UInt8 → Prop
  | nil (room : Nat) : WalkEnds room []
  | full {pat : List UInt8} (h : WalkEnds uint8Max pat) : WalkEnds 0 pat
  | range {pat : List UInt8} (hrange : startsRange pat = true)
      (h : WalkEnds uint8Max (pat.drop 3)) : WalkEnds uint8Max pat
  | char {room : Nat} {pat : List UInt8} (hpat : pat ≠ [])
      (hrange : room + 1 = uint8Max → startsRange pat = false) (hstop : stopsChunk pat = false)
      (h : WalkEnds room (pat.drop (charLen pat))) : WalkEnds (room + 1) pat

theorem charLen_pos (pat : List UInt8) : 1 ≤ charLen pat := by
  unfold charLen
  split <;> omega

theorem not_startsRange_of_stops {pat : List UInt8} (h : stopsChunk pat = true) :
    startsRange pat = false ∧ pat.length ≤ 2 := by
  simp only [stopsChunk, Bool.and_eq_true, decide_eq_true_eq] at h
  refine ⟨?_, h.1⟩
  unfold startsRange
  rw [decide_eq_false (by omega), Bool.false_and]

theorem not_walkEnds_of_stops {pat : List UInt8} (hpat : pat ≠ []) (h : stopsChunk pat = true) :
    ¬WalkEnds uint8Max pat := by
  intro hwalk
  unfold uint8Max at hwalk
  cases hwalk with
  | nil => exact hpat rfl
  | range hrange =>
    rw [(not_startsRange_of_stops h).1] at hrange
    cases hrange
  | char _ _ hstop =>
    rw [h] at hstop
    cases hstop

/-- The walk goes on behind a chunk, and a chunk at the start of which no range begins is not
empty. -/
theorem WalkEnds.chunk {room : Nat} {pat : List UInt8} (h : WalkEnds room pat)
    (hroom : room ≤ uint8Max) (hrange : room = uint8Max → startsRange pat = false) :
    WalkEnds uint8Max (pat.drop (chunkScan room pat).1) ∧
      (room ≠ 0 → pat ≠ [] → 0 < (chunkScan room pat).1) := by
  induction h with
  | nil room =>
    rw [List.drop_nil]
    exact ⟨.nil _, fun _ hne => absurd rfl hne⟩
  | full h => exact ⟨h, fun hne => absurd rfl hne⟩
  | range hstarts =>
    rw [hrange rfl] at hstarts
    cases hstarts
  | @char room pat hpat _ hstop h ih =>
    have hpos := charLen_pos pat
    have hscan : (chunkScan (room + 1) pat).1 =
        charLen pat + (chunkScan room (pat.drop (charLen pat))).1 := by
      simp [chunkScan, hpat, hstop]
    obtain ⟨hwalk, _⟩ := ih (by omega) (fun heq => absurd heq (by omega))
    rw [hscan, ← List.drop_drop]
    exact ⟨hwalk, fun _ _ => by omega⟩

/-- What a scanner leaves of the class in a step. -/
theorem WalkEnds.step {pat : List UInt8} (h : WalkEnds uint8Max pat) (hpat : pat ≠ []) :
    (startsRange pat = true → WalkEnds uint8Max (pat.drop 3)) ∧
      (startsRange pat = false → WalkEnds uint8Max (pat.drop (chunkScan uint8Max pat).1) ∧
        0 < (chunkScan uint8Max pat).1) := by
  refine ⟨fun hrange => ?_, fun hrange => ?_⟩
  · unfold uint8Max at h
    cases h with
    | nil => exact absurd rfl hpat
    | range _ h => exact h
    | char _ hnot =>
      rw [hnot rfl] at hrange
      cases hrange
  · obtain ⟨hwalk, hpos⟩ := h.chunk le_rfl fun _ => hrange
    exact ⟨hwalk, hpos (by decide) hpat⟩

theorem length_drop_le {n k : Nat} {pat : List UInt8} (hk : 0 < k) (hn : pat.length ≤ n) :
    (pat.drop k).length ≤ n - 1 := by
  rw [List.length_drop]
  omega

/-- The class can be walked to its end, and no more than `n` bytes are left. -/
def WalkEndsIn (n : Nat) (pat : List UInt8) : Prop := pat.length ≤ n ∧ WalkEnds uint8Max pat

theorem WalkEndsIn.step {n : Nat} {pat : List UInt8} (h : WalkEndsIn n pat) (hpat : pat ≠ []) :
    n - 1 < n ∧ (startsRange pat = true → WalkEndsIn (n - 1) (pat.drop 3)) ∧
      (startsRange pat = false → WalkEndsIn (n - 1) (pat.drop (chunkScan uint8Max pat).1)) := by
  obtain ⟨hlen, hwalk⟩ := h
  obtain ⟨hrange, hchunk⟩ := hwalk.step hpat
  have := List.length_pos_of_ne_nil hpat
  refine ⟨by omega, fun hs => ⟨length_drop_le (by decide) hlen, hrange hs⟩, fun hs => ?_⟩
  exact ⟨length_drop_le (hchunk hs).2 hlen, (hchunk hs).1⟩

theorem WalkEnds.classLen_ends {pat : List UInt8} (h : WalkEnds uint8Max pat) (retval : Nat) :
    ∃ s, LoopsTo (fun s : List UInt8 × Nat => !s.1.isEmpty) (fun s => some (classLenStep s))
      pat.length (pat, retval) s := by
  have hstep : ∀ n (s : List UInt8 × Nat), WalkEndsIn n s.1 → (!s.1.isEmpty) = true →
      ∃ t m, some (classLenStep s) = some t ∧ m < n ∧ WalkEndsIn m t.1 := by
    rintro n ⟨pat, retval⟩ hin hgo
    obtain ⟨hlt, hrange, hchunk⟩ := hin.step (by simpa using hgo)
    refine ⟨_, n - 1, rfl, hlt, ?_⟩
    cases hs : startsRange pat with
    | true => simpa only [classLenStep, hs, if_true] using hrange hs
    | false => simpa only [classLenStep, hs, Bool.false_eq_true, if_false] using hchunk hs
  have hstart : WalkEndsIn pat.length (pat, retval).1 := ⟨le_rfl, h⟩
  obtain ⟨s, _, _, _, hrun⟩ := LoopsTo.total (fun n (s : List UInt8 × Nat) => WalkEndsIn n s.1)
    hstep hstart
  exact ⟨s, hrun⟩

theorem WalkEnds.classOut_ends {pat : List UInt8} (h : WalkEnds uint8Max pat)
    (junk : Nat → UInt8) :
    ∃ s, LoopsTo (fun s : ClassOut => !s.rejected && !s.pat.isEmpty)
      (fun s => some (classOutStep junk s)) pat.length ⟨pat, [], false⟩ s := by
  have hstep : ∀ n (s : ClassOut), (s.rejected = false → WalkEndsIn n s.pat) →
      (!s.rejected && !s.pat.isEmpty) = true →
      ∃ t m, some (classOutStep junk s) = some t ∧ m < n ∧
        (t.rejected = false → WalkEndsIn m t.pat) := by
    rintro n ⟨pat, patrns, rejected⟩ hin hgo
    have hgoes : rejected = false ∧ pat ≠ [] := by simpa using hgo
    obtain ⟨hlt, hrange, hchunk⟩ := (hin hgoes.1).step hgoes.2
    refine ⟨_, n - 1, rfl, hlt, ?_⟩
    cases hs : startsRange pat with
    | true =>
      simp only [classOutStep, hs, if_true]
      split
      · exact fun hfalse => absurd hfalse (by simp)
      · exact fun _ => hrange hs
    | false =>
      simp only [classOutStep, hs, Bool.false_eq_true, if_false]
      exact fun _ => hchunk hs
  have hstart : (⟨pat, [], false⟩ : ClassOut).rejected = false → WalkEndsIn pat.length pat :=
    fun _ => ⟨le_rfl, h⟩
  obtain ⟨s, _, _, _, hrun⟩ := LoopsTo.total
    (fun n (s : ClassOut) => s.rejected = false → WalkEndsIn n s.pat) hstep hstart
  exact ⟨s, hrun⟩

/-- Where a chunk was scanned and the walk goes on behind it, the walk gets there. -/
theorem walkEnds_of_chunk {room : Nat} {pat : List UInt8} (hroom : room ≤ uint8Max)
    (hrange : room = uint8Max → startsRange pat = false)
    (h : WalkEnds uint8Max (pat.drop (chunkScan room pat).1)) : WalkEnds room pat := by
  induction room generalizing pat with
  | zero => exact .full h
  | succ room ih =>
    by_cases hpat : pat = []
    · subst hpat
      exact .nil _
    · cases hstop : stopsChunk pat with
      | true =>
        rw [chunkScan, if_pos (Or.inr hstop), List.drop_zero] at h
        exact absurd h (not_walkEnds_of_stops hpat hstop)
      | false =>
        have hscan : (chunkScan (room + 1) pat).1 =
            charLen pat + (chunkScan room (pat.drop (charLen pat))).1 := by
          simp [chunkScan, hpat, hstop]
        rw [hscan, ← List.drop_drop] at h
        exact .char hpat hrange hstop (ih (by omega) (fun heq => absurd heq (by omega)) h)

/-- The first scanner ends nowhere else. -/
theorem walkEnds_of_classLen {fuel : Nat} {s t : List UInt8 × Nat}
    (h : whileLoop (fun s : List UInt8 × Nat => !s.1.isEmpty) (fun s => some (classLenStep s))
      fuel s = some t) : WalkEnds uint8Max s.1 := by
  induction fuel generalizing s with
  | zero => cases h
  | succ fuel ih =>
    obtain ⟨pat, retval⟩ := s
    by_cases hpat : pat = []
    · subst hpat
      exact .nil _
    · have hrest : whileLoop (fun s : List UInt8 × Nat => !s.1.isEmpty)
          (fun s => some (classLenStep s)) fuel (classLenStep (pat, retval)) = some t := by
        simpa [whileLoop, hpat] using h
      have hwalk := ih hrest
      cases hs : startsRange pat with
      | true =>
        refine .range hs ?_
        simpa only [classLenStep, hs, if_true] using hwalk
      | false =>
        refine walkEnds_of_chunk le_rfl (fun _ => hs) ?_
        simpa only [classLenStep, hs, Bool.false_eq_true, if_false] using hwalk

/-! When the compiled class is what is written. -/

/-- The loops end just where the walk does. A class that is read as pieces is compiled into them,
with the counts right and no byte more or less than was counted, and matches what is written. -/
theorem classRight_of_read (junk : Nat → UInt8) (pat : List UInt8) :
    (WalkEnds uint8Max pat →
      ((∀ item ∈ writtenItems 0 pat, item.Proper) → ∃ blocks, ClassRead pat blocks) →
      ClassRight junk pat) ∧
    (ClassRight junk pat → WalkEnds uint8Max pat) := by
  refine ⟨fun hwalk hread => ?_, ?_⟩
  · by_cases hproper : ∀ item ∈ writtenItems 0 pat, item.Proper
    · obtain ⟨blocks, hblocks⟩ := hread hproper
      have hlen := hblocks.classLen 1 (blocks.length + 1) (Nat.lt_succ_self _)
      have hout := hblocks.classOut junk [] (blocks.length + 1) (Nat.lt_succ_self _)
      refine ⟨blocks.length + 1, _, _, by rw [computeCharClassLen, hlen]; rfl,
        by rw [charBufToCharClass, hout]; rfl, fun _ => ⟨rfl, ?_, ⟨blocks, hblocks.counted, ?_⟩, ?_⟩⟩
      · simp [Nat.add_comm]
      · rfl
      · intro c
        have hmatch : matchCharClass c (classBytes blocks) =
            some (decide (∃ b ∈ blocks, b.Has c)) :=
          matchCharClassFrom_classBytes c hblocks.counted (length_lt_classBytes blocks)
        simp only [hblocks.has_iff c] at hmatch
        exact hmatch
    · obtain ⟨s, hs⟩ := hwalk.classLen_ends 1
      obtain ⟨t, ht⟩ := hwalk.classOut_ends junk
      have hlen := hs (pat.length + 1) (Nat.lt_succ_self _)
      have hout := ht (pat.length + 1) (Nat.lt_succ_self _)
      exact ⟨pat.length + 1, _, _, by rw [computeCharClassLen, hlen]; rfl,
        by rw [charBufToCharClass, hout]; rfl, fun h => absurd h hproper⟩
  · rintro ⟨fuel, n, out, hlen, _⟩
    obtain ⟨t, ht, _⟩ := Option.map_eq_some_iff.mp hlen
    exact walkEnds_of_classLen ht

/-- `a-z0-9_` -/
def identifierClass : List UInt8 := [ch 'a', ch '-', ch 'z', ch '0', ch '-', ch '9', ch '_']

theorem classRight_of_read_identifier : ClassRight (fun _ => 0) identifierClass := by
  have hread : ClassRead identifierClass
      [.range (ch 'a') (ch 'z'), .range (ch '0') (ch '9'), .chars [ch '_']] := by
    refine .range (by decide) (by decide) (by decide) ?_
    refine .range (by decide) (by decide) (by decide) ?_
    exact .chunk (by decide) (.char (by decide) (by decide) (.nil 254)) .nil
  have hwalk : WalkEnds uint8Max identifierClass := by
    refine .range rfl (.range rfl ?_)
    exact .char (by decide) (fun _ => rfl) rfl (.nil 254)
  exact (classRight_of_read (fun _ => 0) identifierClass).1 hwalk fun _ => ⟨_, hread⟩

/-- `xa-z`: behind the single character the range is read as three more. -/
def rangeBehindChar : List UInt8 := [ch 'x', ch 'a', ch '-', ch 'z']

theorem not_classRight_rangeBehindChar : ¬∀ junk pat, ClassRight junk pat := by
  intro h
  obtain ⟨fuel, n, out, _, hout, hright⟩ := h (fun _ => 0) rangeBehindChar
  have hrun : LoopsTo (fun s : ClassOut => !s.rejected && !s.pat.isEmpty)
      (fun s => some (classOutStep (fun _ => 0) s)) 1 ⟨rangeBehindChar, [], false⟩
      ⟨[], [charClassChar, 4, ch 'x', ch 'a', ch '-', ch 'z'], false⟩ :=
    (LoopsTo.done rfl).step rfl rfl
  obtain ⟨s, hs, rfl⟩ := Option.map_eq_some_iff.mp hout
  obtain rfl := hrun.eq_of_run hs
  obtain ⟨_, _, _, hmatch⟩ := hright (by decide)
  exact absurd (hmatch (ch 'b')) (by decide)

end FakeLisp.Regex
