import FakeLisp.LiteralUnits

/-! The literal of a byte vector. Each byte is written on its own, so that the readers stay in step
with the printer, whatever byte comes next. -/

namespace FakeLisp

def fklPrintBytesLiteral2 (bytes : List UInt8) : List UInt8 :=
  [ch '#', ch '"'] ++ bytes.flatMap (asciiLiteral (ch '"')) ++ [ch '"']

variable {mem : Memory} {cstr restLen i : Nat}

/-- Bytes above ASCII are written in hexadecimal by this printer, too. -/
theorem asciiLiteral_eq_unit : ∀ c, asciiLiteral (ch '"') c = unitLiteral (ch '"') c := by
  refine forall_byte ?_
  decide +kernel

theorem readsBack_bytes {bytes : List UInt8}
    (h : memEq (bytes.flatMap (asciiLiteral (ch '"')) ++ [ch '"']) mem (cstr + i) = true)
    (hlt : i + (bytes.flatMap (asciiLiteral (ch '"'))).length < restLen) :
    ReadsBack mem cstr restLen (ch '"') i (bytes.flatMap (asciiLiteral (ch '"'))).length bytes := by
  have hse : IsDelimiter (ch '"') := .inl rfl
  induction bytes generalizing i with
  | nil =>
    have hend : mem (cstr + i) = ch '"' := ((memEq_cons _ _ _ _).mp h).1
    rw [List.flatMap_nil, List.length_nil, Nat.add_zero] at hlt
    refine ⟨?_, rfl⟩
    rw [delimiterFrom_eq hlt, hend, if_neg hse.facts.1, if_pos rfl]
    rfl
  | cons c bytes ih =>
    rw [List.flatMap_cons, asciiLiteral_eq_unit] at h hlt ⊢
    rw [List.append_assoc, memEq_append, Bool.and_eq_true] at h
    rw [List.length_append] at hlt ⊢
    rw [Nat.add_comm (unitLiteral (ch '"') c).length, readsBack_unit hse (by omega) h.1]
    refine ih ?_ (by omega)
    rw [← Nat.add_assoc]
    exact h.2

/-- The literal stands at `addr`, and `restLen` bytes of the text from its first byte on. -/
theorem fklPrintBytesLiteral2_readsBack (bytes : List UInt8) {mem : Memory} {addr restLen : Nat}
    (h : memEq (fklPrintBytesLiteral2 bytes) mem addr = true)
    (hrest : (fklPrintBytesLiteral2 bytes).length ≤ restLen) :
    fklCharBufMatch [ch '#', ch '"'] mem addr restLen = true ∧
      fklQuotedCharBufMatch mem (addr + 2) (restLen - 2) [ch '"'] =
        (fklPrintBytesLiteral2 bytes).length - 2 ∧
      fklCastEscapeCharBuf mem (addr + 2) ((fklPrintBytesLiteral2 bytes).length - 2 - 1) = bytes := by
  have hlen : (fklPrintBytesLiteral2 bytes).length =
      (bytes.flatMap (asciiLiteral (ch '"'))).length + 3 := by
    simp only [fklPrintBytesLiteral2, List.length_append, List.length_cons, List.length_nil]
    omega
  rw [hlen] at hrest ⊢
  rw [fklPrintBytesLiteral2, List.append_assoc, memEq_append, Bool.and_eq_true] at h
  obtain ⟨hbegin, htext⟩ := h
  have hshort : 0 + (bytes.flatMap (asciiLiteral (ch '"'))).length < restLen - 2 := by omega
  obtain ⟨hdelim, hcast⟩ : ReadsBack mem (addr + 2) (restLen - 2) (ch '"') 0
      (bytes.flatMap (asciiLiteral (ch '"'))).length bytes := readsBack_bytes htext hshort
  refine ⟨?_, ?_, ?_⟩
  · rw [fklCharBufMatch, if_neg (by simp; omega)]
    exact hbegin
  · rw [fklQuotedCharBufMatch_eq (by omega), hdelim]
    omega
  · exact hcast

/-- An escaped byte before a digit, and before a byte that is no character. -/
theorem fklPrintBytesLiteral2_readsBack_hexDigit :
    let text := fklPrintBytesLiteral2 [0x01, ch 'F', 0xC3, ch '"']
    let mem : Memory := fun a => text.getD a 0
    fklCharBufMatch [ch '#', ch '"'] mem 0 14 = true ∧
      fklQuotedCharBufMatch mem 2 12 [ch '"'] = 12 ∧
      fklCastEscapeCharBuf mem 2 11 = [0x01, ch 'F', 0xC3, ch '"'] :=
  fklPrintBytesLiteral2_readsBack [0x01, ch 'F', 0xC3, ch '"'] (by decide) (by decide)

end FakeLisp
