import FakeLisp.EscapeReader

/-! What the printer writes for a byte on its own, both readers take for that byte. -/

namespace FakeLisp

open CharBuf

/-- The delimiters of strings and of symbols. -/
def IsDelimiter (se : UInt8) : Prop := se = ch '"' ∨ se = ch '|'

theorem IsDelimiter.facts {se : UInt8} (h : IsDelimiter se) : se ≠ backslash ∧
    startsNumeral se = false ∧ (se ≠ ch '-' ∧ se ≠ ch '+') ∧ escapeCharTo se = se := by
  rcases h with rfl | rfl <;> decide

/-- The ways to write a byte on its own. -/
inductive LiteralKind (se c : UInt8) : Prop
  | plain (h : asciiLiteral se c = [c]) (hbs : c ≠ FakeLisp.backslash) (hse : c ≠ se)
  | delimiter (h : asciiLiteral se c = [FakeLisp.backslash, se]) (hc : c = se)
  | backslash (h : asciiLiteral se c = [FakeLisp.backslash, FakeLisp.backslash])
      (hc : c = FakeLisp.backslash)
  | letter (d : UInt8) (h : asciiLiteral se c = [FakeLisp.backslash, d]) (hd : escapeCharTo d = c)
      (hnum : startsNumeral d = false) (hsign : d ≠ ch '-' ∧ d ≠ ch '+')
      (hne : d ≠ FakeLisp.backslash ∧ d ≠ se ∧ d ≠ c)
  | hex (h : asciiLiteral se c = hexEscape c) (hx : c ≠ ch 'x')

theorem escSeq_cases {c : UInt8} {e : List UInt8} (h : escSeq c = some e) :
    c = 32 ∧ e = [32] ∨ ∃ d, e = [backslash, d] ∧ escapeCharTo d = c ∧ startsNumeral d = false ∧
      (d ≠ ch '-' ∧ d ≠ ch '+') ∧ d ≠ backslash ∧ d ≠ ch '"' ∧ d ≠ ch '|' ∧ d ≠ c := by
  unfold escSeq at h
  split_ifs at h with h10 h9 h11 h7 h8 h12 h13 h32 <;> subst_vars <;> cases h
  all_goals first
    | exact .inl ⟨rfl, rfl⟩
    | exact .inr ⟨_, rfl, by decide⟩

theorem literalKind {se : UInt8} (hse : IsDelimiter se) (c : UInt8) : LiteralKind se c := by
  by_cases hc : c = se
  · exact .delimiter (by simp [asciiLiteral, hc]) hc
  by_cases hbs : c = backslash
  · exact .backslash (by simp [asciiLiteral, hbs, hse.facts.1.symm]) hbs
  by_cases hgraph : fklIsGraph c = true
  · exact .plain (by simp [asciiLiteral, hc, hbs, hgraph]) hbs hc
  have hlit : asciiLiteral se c = (escSeq c).getD (hexEscape c) := by
    simp [asciiLiteral, hc, hbs, hgraph]
  cases hesc : escSeq c with
  | none =>
    refine .hex (by simp [hlit, hesc]) ?_
    rintro rfl
    exact hgraph (by decide)
  | some e =>
    rcases escSeq_cases hesc with ⟨rfl, rfl⟩ | ⟨d, rfl, hd, hnum, hsign, hdb, hdq, hds, hdc⟩
    · exact .plain (by simp [hlit, hesc]) (by decide) hc
    · refine .letter d (by simp [hlit, hesc]) hd hnum hsign ⟨hdb, ?_, hdc⟩
      rcases hse with rfl | rfl
      · exact hdq
      · exact hds

section Sync

variable {mem : Memory} {cstr restLen i size p : Nat} {se c : UInt8} {str : List UInt8}

/-! ## A byte written on its own -/

/-- What the printer writes for a byte that is not in a run. -/
def unitLiteral (se c : UInt8) : List UInt8 :=
  if c < 0x80 then asciiLiteral se c else hexEscape c

theorem digitOf_hexDigit : ∀ n < 16, fklIsXDigit (hexDigit n) = true ∧ digitOf (hexDigit n) = n ∧
    hexDigit n ≠ backslash ∧ hexDigit n ≠ ch '"' ∧ hexDigit n ≠ ch '|' := by
  decide

theorem memEq_hexEscape (h : memEq (hexEscape c) mem p = true) :
    mem p = backslash ∧ mem (p + 1) = ch 'x' ∧ mem (p + 2) = hexDigit (c.toNat / 16) ∧
      mem (p + 3) = hexDigit (c.toNat % 16) := by
  simpa [hexEscape, memEq] using h

theorem cast_hexEscape (h : memEq (hexEscape c) mem p = true) :
    fklCastEscapeCharBuf mem p (size + 4) = c :: fklCastEscapeCharBuf mem (p + 4) size := by
  obtain ⟨h0, h1, h2, h3⟩ := memEq_hexEscape h
  have hc := c.toNat_lt
  obtain ⟨hx2, hd2, -⟩ := digitOf_hexDigit (c.toNat / 16) (by omega)
  obtain ⟨hx3, hd3, -⟩ := digitOf_hexDigit (c.toNat % 16) (by omega)
  have hlen : escapeLen (fun k => mem (p + k)) = 4 := by
    simp [escapeLen, skipWhile, h1, h2, h3, hx2, hx3, show fklIsDigit (ch 'x') = false from rfl,
      show fklToUpper (ch 'x') = ch 'X' from rfl]
  have hvalue : fklCharBufToChar (fun k => mem (p + k)) 4 = c.toNat := by
    have : c.toNat / 16 * 16 + c.toNat % 16 = c.toNat := by omega
    simp [fklCharBufToChar, escapedChar, readDigits, h0, h1, h2, h3, hx2, hx3, hd2, hd3,
      show fklToUpper (ch 'x') = ch 'X' from rfl, this]
  rw [fklCastEscapeCharBuf_escape h0 (by omega), hlen, hvalue, Nat.add_sub_cancel,
    UInt8.ofNat_toNat]

theorem cast_ascii (hse : IsDelimiter se) (h : memEq (asciiLiteral se c) mem p = true) :
    fklCastEscapeCharBuf mem p (size + (asciiLiteral se c).length) =
      c :: fklCastEscapeCharBuf mem (p + (asciiLiteral se c).length) size := by
  obtain ⟨-, hsn, hss, hsc⟩ := hse.facts
  rcases literalKind hse c with
    ⟨heq, hbs, -⟩ | ⟨heq, rfl⟩ | ⟨heq, rfl⟩ | ⟨d, heq, rfl, hnum, hsign, -⟩ | ⟨heq, -⟩ <;>
    rw [heq] at h ⊢
  · have h0 : mem p = c := by simpa [memEq] using h
    exact (fklCastEscapeCharBuf_raw (h0 ▸ hbs) size).trans (by rw [h0]; rfl)
  · obtain ⟨h0, h1⟩ : mem p = backslash ∧ mem (p + 1) = c := by simpa [memEq] using h
    exact (fklCastEscapeCharBuf_single h0 h1 hsn hss size).trans (by rw [hsc]; rfl)
  · obtain ⟨h0, h1⟩ : mem p = backslash ∧ mem (p + 1) = backslash := by simpa [memEq] using h
    exact fklCastEscapeCharBuf_single h0 h1 (by decide) (by decide) size
  · obtain ⟨h0, h1⟩ : mem p = backslash ∧ mem (p + 1) = d := by simpa [memEq] using h
    exact fklCastEscapeCharBuf_single h0 h1 hnum hsign size
  · exact cast_hexEscape h

theorem cast_unit (hse : IsDelimiter se) (h : memEq (unitLiteral se c) mem p = true) :
    fklCastEscapeCharBuf mem p (size + (unitLiteral se c).length) =
      c :: fklCastEscapeCharBuf mem (p + (unitLiteral se c).length) size := by
  unfold unitLiteral at h ⊢
  split_ifs at h ⊢
  · exact cast_ascii hse h
  · exact cast_hexEscape h

/-- The matcher passes over what was written for one byte. -/
theorem delimiterFrom_hexEscape (hse : IsDelimiter se) (hlt : i + 4 < restLen)
    (h : memEq (hexEscape c) mem (cstr + i) = true) :
    delimiterFrom mem cstr restLen se i = delimiterFrom mem cstr restLen se (i + 4) := by
  have h0 : mem (cstr + i) = backslash := (memEq_hexEscape h).1
  have h2 : mem (cstr + (i + 2)) = hexDigit (c.toNat / 16) := (memEq_hexEscape h).2.2.1
  have h3 : mem (cstr + (i + 2 + 1)) = hexDigit (c.toNat % 16) := (memEq_hexEscape h).2.2.2
  have hc := c.toNat_lt
  obtain ⟨-, -, hb2, hq2⟩ := digitOf_hexDigit (c.toNat / 16) (by omega)
  obtain ⟨-, -, hb3, hq3⟩ := digitOf_hexDigit (c.toNat % 16) (by omega)
  have hs2 : hexDigit (c.toNat / 16) ≠ se := by rcases hse with rfl | rfl <;> simp [hq2]
  have hs3 : hexDigit (c.toNat % 16) ≠ se := by rcases hse with rfl | rfl <;> simp [hq3]
  rw [delimiterFrom_eq (by omega), h0, if_pos rfl, delimiterFrom_eq (by omega), h2, if_neg hb2,
    if_neg hs2, delimiterFrom_eq (by omega), h3, if_neg hb3, if_neg hs3]

theorem delimiterFrom_ascii (hse : IsDelimiter se)
    (hlt : i + (asciiLiteral se c).length < restLen)
    (h : memEq (asciiLiteral se c) mem (cstr + i) = true) :
    delimiterFrom mem cstr restLen se i =
      delimiterFrom mem cstr restLen se (i + (asciiLiteral se c).length) := by
  rcases literalKind hse c with
    ⟨heq, hbs, hcs⟩ | ⟨heq, -⟩ | ⟨heq, -⟩ | ⟨d, heq, -⟩ | ⟨heq, -⟩ <;> rw [heq] at hlt h ⊢
  · have h0 : mem (cstr + i) = c := by simpa [memEq] using h
    rw [delimiterFrom_eq (by omega), h0, if_neg hbs, if_neg hcs]
    rfl
  all_goals first
    | exact delimiterFrom_hexEscape hse hlt h
    | have h0 : mem (cstr + i) = backslash := ((memEq_cons _ _ _ _).mp h).1
      rw [delimiterFrom_eq (by omega), h0, if_pos rfl]
      rfl

theorem delimiterFrom_unit (hse : IsDelimiter se) (hlt : i + (unitLiteral se c).length < restLen)
    (h : memEq (unitLiteral se c) mem (cstr + i) = true) :
    delimiterFrom mem cstr restLen se i =
      delimiterFrom mem cstr restLen se (i + (unitLiteral se c).length) := by
  unfold unitLiteral at hlt h ⊢
  split_ifs at hlt h ⊢
  · exact delimiterFrom_ascii hse hlt h
  · exact delimiterFrom_hexEscape hse hlt h

/-! ## The readers in step with the printer -/

/-- The token ends `size` bytes behind the place `i`, and those are read as `str`. -/
def ReadsBack (mem : Memory) (cstr restLen : Nat) (se : UInt8) (i size : Nat)
    (str : List UInt8) : Prop :=
  delimiterFrom mem cstr restLen se i = i + size + 1 ∧
    fklCastEscapeCharBuf mem (cstr + i) size = str

theorem readsBack_unit (hse : IsDelimiter se) (hlt : i + (unitLiteral se c).length < restLen)
    (h : memEq (unitLiteral se c) mem (cstr + i) = true) :
    ReadsBack mem cstr restLen se i (size + (unitLiteral se c).length) (c :: str) ↔
      ReadsBack mem cstr restLen se (i + (unitLiteral se c).length) size str := by
  have hpos : i + (size + (unitLiteral se c).length) + 1 =
      i + (unitLiteral se c).length + size + 1 := by omega
  rw [ReadsBack, ReadsBack, delimiterFrom_unit hse hlt h, cast_unit hse h, List.cons.injEq, hpos,
    Nat.add_assoc cstr]
  simp

theorem readsBack_raw (hlt : i < restLen) (hmem : mem (cstr + i) = c) (hbs : c ≠ backslash)
    (hse : c ≠ se) : ReadsBack mem cstr restLen se i (size + 1) (c :: str) ↔
      ReadsBack mem cstr restLen se (i + 1) size str := by
  have hpos : i + (size + 1) + 1 = i + 1 + size + 1 := by omega
  rw [ReadsBack, ReadsBack, delimiterFrom_eq hlt, hmem, if_neg hbs, if_neg hse,
    fklCastEscapeCharBuf_raw (hmem ▸ hbs), hmem, List.cons.injEq, hpos, Nat.add_assoc cstr]
  simp

end Sync

end FakeLisp
