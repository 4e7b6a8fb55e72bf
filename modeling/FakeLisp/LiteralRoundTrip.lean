import FakeLisp.LiteralUnits

/-!
A literal is read back as the bytes it was written for, exactly when no run of bytes that is taken
for one character holds the delimiter or a backslash.
-/

namespace FakeLisp

open CharBuf

theorem memEq_iff (l : List UInt8) (mem : Memory) (p : Nat) :
    memEq l mem p = true ↔ ∀ k (h : k < l.length), mem (p + k) = l[k] := by
  induction l generalizing p with
  | nil => simp [memEq]
  | cons c l ih =>
    rw [memEq_cons, ih]
    constructor
    · rintro ⟨h0, h⟩ (_ | k) hk
      · exact h0
      · have := h k (by simpa using hk)
        rwa [Nat.add_right_comm, Nat.add_assoc] at this
    · intro h
      refine ⟨h 0 (by simp), fun k hk => ?_⟩
      have := h (k + 1) (by simpa using hk)
      rwa [← Nat.add_assoc, Nat.add_right_comm] at this

theorem memEq_drop {l : List UInt8} {mem : Memory} {p : Nat} (h : memEq l mem p = true) {k : Nat}
    (hk : k ≤ l.length) : memEq (l.drop k) mem (p + k) = true := by
  rw [← List.take_append_drop k l, memEq_append, Bool.and_eq_true, List.length_take,
    Nat.min_eq_left hk] at h
  exact h.2

/-! ## The reader ahead of the printer -/

section Lag

variable {mem : Memory} {p size : Nat}

theorem escapeCharTo_high {c : UInt8} (h : 0x80 ≤ c) : escapeCharTo c = c := by
  have hup : fklToUpper c = c := by
    simp [fklToUpper, fklIsLower, ch]
    grind
  have hnone : escapeChars.find? (fun row => row.1 = fklToUpper c) = none := by
    simp [escapeChars, hup, ch]
    grind
  simp [escapeCharTo, hnone]

theorem escapeCharTo_eq_backslash {c : UInt8} (h : escapeCharTo c = backslash) : c = backslash := by
  unfold escapeCharTo at h
  split at h
  · next row hrow =>
    have hmem := List.mem_of_find?_eq_some hrow
    have : ∀ row ∈ escapeChars, row.2 ≠ backslash := by simp [escapeChars, backslash, ch]
    exact absurd h (this row hmem)
  · exact h

theorem high_facts {c : UInt8} (h : 0x80 ≤ c) : startsNumeral c = false ∧
    (c ≠ ch '-' ∧ c ≠ ch '+') ∧ c ≠ backslash := by
  simp [startsNumeral, fklIsDigit, fklToUpper, fklIsLower, ch, backslash]
  grind

theorem IsDelimiter.ne_high {se c : UInt8} (hse : IsDelimiter se) (h : 0x80 ≤ c) : c ≠ se := by
  rcases hse with rfl | rfl <;> simp only [ch] <;> rintro rfl <;> exact absurd h (by decide)

/-- A backslash before a byte that is not ASCII is dropped. -/
theorem cast_backslash_high {c : UInt8} (h0 : mem p = backslash) (h1 : mem (p + 1) = c)
    (hc : 0x80 ≤ c) (size : Nat) : fklCastEscapeCharBuf mem p (size + 2) =
      c :: fklCastEscapeCharBuf mem (p + 2) size := by
  obtain ⟨hnum, hsign, -⟩ := high_facts hc
  rw [fklCastEscapeCharBuf_single h0 h1 hnum hsign, escapeCharTo_high hc]

/-- Behind an ASCII byte the escape takes ASCII bytes. -/
theorem escapeLen_ascii {s : Memory} (h1 : s 1 < 0x80) {k : Nat} (hk : 1 ≤ k)
    (hlt : k < escapeLen s) : s k < 0x80 := by
  obtain rfl | hk := Nat.eq_or_lt_of_le hk
  · exact h1
  · exact isNumeral_lt (escapeLen_numeral hk hlt)

/-- An escape inside a run takes ASCII bytes of it, and leaves what is not ASCII. -/
theorem escape_in_run {R : List UInt8} (h : memEq (backslash :: R) mem p = true)
    (hhigh : ∃ z ∈ R, 0x80 ≤ z) (hascii : ∀ c R', R = c :: R' → c < 0x80) :
    ∃ n, escapeLen (fun k => mem (p + k)) = n + 1 ∧ 1 ≤ n ∧ n ≤ R.length ∧
      (∀ c ∈ R.take n, c < 0x80) ∧ ∃ z ∈ R.drop n, 0x80 ≤ z := by
  obtain ⟨-, hR⟩ := (memEq_cons _ _ _ _).mp h
  rw [memEq_iff] at hR
  have htwo := two_le_escapeLen fun k => mem (p + k)
  obtain ⟨n, hn⟩ : ∃ n, escapeLen (fun k => mem (p + k)) = n + 1 :=
    ⟨escapeLen (fun k => mem (p + k)) - 1, by omega⟩
  obtain ⟨z, hz, hzhigh⟩ := hhigh
  have hne : R ≠ [] := List.ne_nil_of_mem hz
  have hfirst : mem (p + 1) < 0x80 := by
    obtain ⟨c, R', rfl⟩ := List.exists_cons_of_ne_nil hne
    have := hR 0 (by simp)
    rw [Nat.add_zero] at this
    rw [this]
    exact hascii c R' rfl
  have htaken : ∀ j, j < n → (hj : j < R.length) → R[j] < 0x80 := by
    intro j hjn hj
    have hlow : mem (p + (j + 1)) < 0x80 :=
      escapeLen_ascii (s := fun k => mem (p + k)) hfirst (by omega) (by omega)
    have := hR j hj
    rw [Nat.add_right_comm] at this
    rwa [← this]
  obtain ⟨j, hj, rfl⟩ := List.getElem_of_mem hz
  have hnj : n ≤ j := by
    by_contra hlt
    have := htaken j (by omega) hj
    grind
  refine ⟨n, hn, by omega, by omega, fun c hc => ?_, R[j], ?_, hzhigh⟩
  · obtain ⟨k, hk, rfl⟩ := List.getElem_of_mem hc
    rw [List.length_take] at hk
    rw [List.getElem_take]
    exact htaken k (by omega) (by omega)
  · exact List.mem_iff_getElem.mpr ⟨j - n, by rw [List.length_drop]; omega, by
      rw [List.getElem_drop]; congr 1; omega⟩

/-- A reader that is ahead of the printer inside a run stays ahead, and the byte of the run that
is not ASCII comes too early. `B` are the bytes still to be given out. -/
theorem cast_ahead_in_run {R B tail : List UInt8} (h : memEq R mem p = true)
    (hsize : R.length ≤ size) (hhigh : ∃ z ∈ R, 0x80 ≤ z) (hB : B ≠ [])
    (hascii : ∀ b ∈ B, b < 0x80) : fklCastEscapeCharBuf mem p size ≠ B ++ R ++ tail := by
  induction hlen : R.length using Nat.strong_induction_on generalizing R B p size with
  | _ len ih =>
  intro heq
  cases R with
  | nil => simp at hhigh
  | cons c R =>
    obtain ⟨b, B, rfl⟩ := List.exists_cons_of_ne_nil hB
    obtain ⟨h0, hR⟩ := (memEq_cons _ _ _ _).mp h
    obtain ⟨size, rfl⟩ : ∃ k, size = k + 1 := ⟨size - 1, by simp at hsize; omega⟩
    have hsize' : R.length ≤ size := by simpa using hsize
    have hb : b < 0x80 := hascii b (by simp)
    have hB' : ∀ x ∈ B, x < 0x80 := fun x hx => hascii x (by simp [hx])
    by_cases hbs : c = backslash
    · subst hbs
      have hhigh' : ∃ z ∈ R, 0x80 ≤ z := by simpa [show ¬(0x80 ≤ backslash) by decide] using hhigh
      by_cases hfirst : ∃ d R', R = d :: R' ∧ 0x80 ≤ d
      · obtain ⟨d, R', rfl, hd⟩ := hfirst
        obtain ⟨size, rfl⟩ : ∃ k, size = k + 1 := ⟨size - 1, by simp at hsize'; omega⟩
        rw [cast_backslash_high h0 ((memEq_cons _ _ _ _).mp hR).1 hd] at heq
        simp only [List.cons_append, List.cons.injEq] at heq
        grind
      · have hlow : ∀ d R', R = d :: R' → d < 0x80 := fun d R' hdR =>
          UInt8.not_le.mp fun hd => hfirst ⟨d, R', hdR, hd⟩
        obtain ⟨n, hn, hpos, hnR, htake, hdrop⟩ := escape_in_run h hhigh' hlow
        rw [fklCastEscapeCharBuf_escape h0 (by omega), hn] at heq
        simp only [List.cons_append, List.cons.injEq] at heq
        refine ih (R.drop n).length (by simp at hlen ⊢; omega)
          (B := B ++ backslash :: R.take n) ?_ ?_ hdrop (by simp) (fun x hx => ?_) rfl
          (heq.2.trans (by simp))
        · rw [← Nat.add_assoc, Nat.add_right_comm]
          exact memEq_drop hR hnR
        · rw [List.length_drop]
          omega
        · rcases List.mem_append.mp hx with hx | hx
          · exact hB' x hx
          · rcases List.mem_cons.mp hx with rfl | hx
            · decide
            · exact htake x hx
    · rw [fklCastEscapeCharBuf_raw (h0 ▸ hbs), h0] at heq
      simp only [List.cons_append, List.cons.injEq] at heq
      obtain ⟨rfl, heq⟩ := heq
      have hhigh' : ∃ z ∈ R, 0x80 ≤ z := by
        obtain ⟨z, hz, hzh⟩ := hhigh
        rcases List.mem_cons.mp hz with rfl | hz
        · exact absurd hb (UInt8.not_lt.mpr hzh)
        · exact ⟨z, hz, hzh⟩
      refine ih R.length (by simp at hlen; omega) (B := B ++ [c]) hR hsize' hhigh' (by simp)
        (fun x hx => ?_) rfl (heq.trans (by simp))
      rcases List.mem_append.mp hx with hx | hx
      · exact hB' x hx
      · rwa [List.mem_singleton.mp hx]

/-- A backslash in a run, with a byte behind it that is not ASCII, is not read back. -/
theorem cast_backslash_in_run {R tail : List UInt8} (h : memEq (backslash :: R) mem p = true)
    (hsize : R.length < size) (hhigh : ∃ z ∈ R, 0x80 ≤ z) :
    fklCastEscapeCharBuf mem p size ≠ backslash :: R ++ tail := by
  intro heq
  obtain ⟨h0, hR⟩ := (memEq_cons _ _ _ _).mp h
  by_cases hfirst : ∃ d R', R = d :: R' ∧ 0x80 ≤ d
  · obtain ⟨d, R', rfl, hd⟩ := hfirst
    obtain ⟨size, rfl⟩ : ∃ k, size = k + 2 := ⟨size - 2, by simp at hsize; omega⟩
    rw [cast_backslash_high h0 ((memEq_cons _ _ _ _).mp hR).1 hd] at heq
    simp only [List.cons_append, List.cons.injEq] at heq
    exact (high_facts hd).2.2 heq.1
  · have hlow : ∀ d R', R = d :: R' → d < 0x80 := fun d R' hdR =>
      UInt8.not_le.mp fun hd => hfirst ⟨d, R', hdR, hd⟩
    obtain ⟨n, hn, hpos, hnR, htake, hdrop⟩ := escape_in_run h hhigh hlow
    rw [fklCastEscapeCharBuf_escape h0 (by omega), hn] at heq
    simp only [List.cons_append, List.cons.injEq] at heq
    refine cast_ahead_in_run (R := R.drop n) (B := R.take n) ?_ ?_ hdrop ?_ htake
      (heq.2.trans (by rw [List.take_append_drop]))
    · rw [← Nat.add_assoc, Nat.add_right_comm]
      exact memEq_drop hR hnR
    · rw [List.length_drop]
      omega
    · exact List.ne_nil_of_length_pos (by rw [List.length_take]; omega)

end Lag

/-! ## The printer, one character at a time -/

section Print

variable {mem : Memory} {cstr restLen i size p : Nat} {se : UInt8}

@[simp] theorem printBufFrom_nil (se : UInt8) (n : Nat) : printBufFrom se n [] = [] := by
  cases n <;> rfl

@[simp] theorem rawRunsFrom_nil (n : Nat) : rawRunsFrom n [] = [] := by
  cases n <;> rfl

/-- The next character is a byte on its own, or a run of bytes. -/
theorem print_cases (se : UInt8) (n : Nat) (c : UInt8) (str : List UInt8) :
    (printBufFrom se (n + 1) (c :: str) = unitLiteral se c ++ printBufFrom se n str ∧
      rawRunsFrom (n + 1) (c :: str) = rawRunsFrom n str) ∨
    ∃ R rest, c :: str = c :: R ++ rest ∧ 0x80 ≤ c ∧ R ≠ [] ∧
      ((∃ x, R = [x]) ∨ ∃ R' z, R = R' ++ [z] ∧ 0x80 ≤ z) ∧
      printBufFrom se (n + 1) (c :: str) = c :: R ++ printBufFrom se n rest ∧
      rawRunsFrom (n + 1) (c :: str) = (c :: R) :: rawRunsFrom n rest := by
  rcases byteNum_cases c str with ⟨hl, hc⟩ | ⟨hl, hc⟩ | ⟨h7, h1, hrun⟩
  · left
    have : ¬c < 0x80 := UInt8.not_lt.mpr hc
    simp [printBufFrom, rawRunsFrom, hl, unitLiteral, this]
  · left
    simp [printBufFrom, rawRunsFrom, hl, unitLiteral, hc]
  · right
    generalize hl : fklGetByteNumOfUtf8 (c :: str) = l at h7 h1 hrun
    obtain ⟨l, rfl⟩ : ∃ k, l = k + 1 := ⟨l - 1, by have := hrun.two_le; omega⟩
    have htwo := hrun.two_le
    have hlen : l ≤ str.length := by simpa using hrun.le_length
    have hzero : l ≠ 0 := by omega
    refine ⟨str.take l, str.drop l, by simp, hrun.first, ?_, ?_, ?_, ?_⟩
    · exact List.ne_nil_of_length_pos (by rw [List.length_take]; omega)
    · by_cases hthree : 3 ≤ l + 1
      · right
        have hlast : 0x80 ≤ str.getD (l - 1) 0 := by
          have := hrun.last hthree
          obtain ⟨l, rfl⟩ : ∃ k, l = k + 1 := ⟨l - 1, by omega⟩
          simpa using this
        have hidx : l - 1 < str.length := by omega
        refine ⟨str.take (l - 1), str[l - 1], ?_, by simpa [hidx] using hlast⟩
        obtain ⟨l, rfl⟩ : ∃ k, l = k + 1 := ⟨l - 1, by omega⟩
        simp
      · left
        obtain rfl : l = 1 := by omega
        cases str with
        | nil => simp at hlen
        | cons x str => exact ⟨x, rfl⟩
    · simp [printBufFrom, hl, h7, hzero]
    · simp [rawRunsFrom, hl, h7, hzero]

theorem memEq_unit_head {c : UInt8} (hse : IsDelimiter se) {text : List UInt8}
    (h : memEq (unitLiteral se c ++ text) mem p = true) :
    mem p = c ∧ unitLiteral se c = [c] ∧ c < 0x80 ∨ mem p = backslash := by
  unfold unitLiteral at h ⊢
  split_ifs at h ⊢ with hc
  · rcases literalKind hse c with
      ⟨heq, -⟩ | ⟨heq, -⟩ | ⟨heq, -⟩ | ⟨d, heq, -⟩ | ⟨heq, -⟩ <;> rw [heq] at h ⊢
    · exact .inl ⟨((memEq_cons _ _ _ _).mp h).1, rfl, hc⟩
    all_goals exact .inr ((memEq_cons _ _ _ _).mp h).1
  · exact .inr ((memEq_cons _ _ _ _).mp h).1

/-- The reader ahead of the printer between two runs stays ahead to the end of the text. -/
theorem cast_ahead_of_print (hse : IsDelimiter se) {n : Nat} {str D : List UInt8}
    (hn : str.length ≤ n) (h : memEq (printBufFrom se n str) mem p = true) (hD : D ≠ [])
    (hascii : ∀ d ∈ D, d < 0x80) :
    fklCastEscapeCharBuf mem p (printBufFrom se n str).length ≠ D ++ str := by
  induction n generalizing str D p with
  | zero =>
    obtain rfl : str = [] := List.eq_nil_of_length_eq_zero (by omega)
    simpa using hD.symm
  | succ n ih =>
    intro heq
    obtain ⟨d, D, rfl⟩ := List.exists_cons_of_ne_nil hD
    cases str with
    | nil => simp at heq
    | cons c str =>
      have hn' : str.length ≤ n := by simpa using hn
      rcases print_cases se n c str with ⟨hprint, -⟩ | ⟨R, rest, -, hc, -, -, hprint, -⟩ <;>
        rw [hprint] at h heq
      · rw [memEq_append, Bool.and_eq_true] at h
        rw [List.length_append, Nat.add_comm, cast_unit hse h.1] at heq
        simp only [List.cons_append, List.cons.injEq] at heq
        obtain ⟨rfl, heq⟩ := heq
        refine ih hn' h.2 (D := D ++ [c]) (by simp) (fun x hx => ?_) (heq.trans (by simp))
        rcases List.mem_append.mp hx with hx | hx
        · exact hascii x (by simp [hx])
        · exact hascii x (by simp [List.mem_singleton.mp hx])
      · have h0 : mem p = c := ((memEq_cons _ _ _ _).mp h).1
        rw [List.cons_append, List.length_cons,
          fklCastEscapeCharBuf_raw (h0 ▸ (high_facts hc).2.2), h0] at heq
        simp only [List.cons_append, List.cons.injEq] at heq
        have := hascii d (by simp)
        grind

/-- Digits in the text stand for themselves. -/
theorem print_numerals (hse : IsDelimiter se) {k n : Nat} {str : List UInt8}
    (hn : str.length ≤ n) (h : memEq (printBufFrom se n str ++ [se]) mem p = true)
    (hnum : ∀ j < k, isNumeral (mem (p + j)) = true) :
    ∃ D rest m, str = D ++ rest ∧ D.length = k ∧ (∀ d ∈ D, d < 0x80) ∧ rest.length ≤ m ∧
      printBufFrom se n str = D ++ printBufFrom se m rest := by
  induction k generalizing n str p with
  | zero => exact ⟨[], str, n, by simp [hn]⟩
  | succ k ih =>
    have hfirst : isNumeral (mem p) = true := hnum 0 (Nat.succ_pos k)
    have hseNum : isNumeral se = false := by rcases hse with rfl | rfl <;> decide
    have hbsNum : isNumeral backslash = false := by decide
    cases str with
    | nil =>
      have h0 : mem p = se := by simpa [memEq] using h
      simp [h0, hseNum] at hfirst
    | cons c str =>
      obtain ⟨n, rfl⟩ : ∃ m, n = m + 1 := ⟨n - 1, by simp at hn; omega⟩
      have hn' : str.length ≤ n := by simpa using hn
      rcases print_cases se n c str with ⟨hprint, -⟩ | ⟨R, rest, -, hc, -, -, hprint, -⟩ <;>
        rw [hprint] at h
      · rw [List.append_assoc] at h
        rcases memEq_unit_head hse h with ⟨h0, hunit, hc⟩ | h0
        · rw [hunit, List.singleton_append, memEq_cons] at h
          obtain ⟨D, rest, m, rfl, hlen, hD, hm, hrest⟩ := ih hn' h.2 fun j hj => by
            have := hnum (j + 1) (by omega)
            rwa [← Nat.add_assoc, Nat.add_right_comm] at this
          refine ⟨c :: D, rest, m, rfl, by simp [hlen], ?_, hm, ?_⟩
          · rintro d (_ | ⟨_, hd⟩)
            · exact hc
            · exact hD d hd
          · rw [hprint, hunit, hrest]
            rfl
        · simp [h0, hbsNum] at hfirst
      · have h0 : mem p = c := ((memEq_cons _ _ _ _).mp h).1
        rw [h0] at hfirst
        have := isNumeral_lt hfirst
        grind

/-- An escape that stands for a backslash is numeric, or is written with a backslash. -/
theorem escape_eq_backslash {s : Memory} (h0 : s 0 = backslash) (hnum : startsNumeral (s 1) = false)
    (h : UInt8.ofNat (fklCharBufToChar s (escapeLen s)) = backslash) : s 1 = backslash := by
  rw [escapeLen_of_not_starts hnum] at h
  rcases escape_single h0 hnum with hvalue | ⟨-, hvalue⟩
  · rw [hvalue, UInt8.ofNat_toNat] at h
    exact escapeCharTo_eq_backslash h
  · rw [hvalue] at h
    exact absurd h (by decide)

/-- A backslash at the end of a run, before a byte that is written with an escape. -/
theorem cast_backslash_escape {c d : UInt8} {text : List UInt8}
    (h : memEq (backslash :: backslash :: d :: text) mem p = true) (hd : d ≠ backslash)
    (hne : d ≠ c) (size : Nat) (str : List UInt8) :
    fklCastEscapeCharBuf mem p (size + 3) ≠ backslash :: c :: str := by
  intro heq
  simp only [memEq_cons] at h
  obtain ⟨h0, h1, h2, -⟩ := h
  have hraw : mem (p + 2) ≠ backslash := h2 ▸ hd
  rw [fklCastEscapeCharBuf_single h0 h1 (by decide) (by decide) (size + 1),
    fklCastEscapeCharBuf_raw hraw] at heq
  simp only [List.cons.injEq] at heq
  exact hne (h2 ▸ heq.2.1)

/-- A backslash before digits takes them away from the printer's bytes. -/
theorem cast_backslash_numeral (hse : IsDelimiter se) {n : Nat} {str : List UInt8}
    (hn : str.length ≤ n)
    (h : memEq (backslash :: printBufFrom se n str ++ [se]) mem p = true)
    (hnum : startsNumeral (mem (p + 1)) = true) :
    fklCastEscapeCharBuf mem p ((printBufFrom se n str).length + 1) ≠ backslash :: str := by
  intro heq
  have h0 : mem p = backslash := ((memEq_cons _ _ _ _).mp h).1
  have htext : memEq (printBufFrom se n str ++ [se]) mem (p + 1) = true :=
    ((memEq_cons _ _ _ _).mp h).2
  have htwo := two_le_escapeLen fun k => mem (p + k)
  obtain ⟨k, hk⟩ : ∃ k, escapeLen (fun k => mem (p + k)) = k + 1 :=
    ⟨escapeLen (fun k => mem (p + k)) - 1, by omega⟩
  have hdigits : ∀ j < k, isNumeral (mem (p + 1 + j)) = true := by
    intro j hj
    rcases j with _ | j
    · exact isNumeral_of_starts hnum
    · have := escapeLen_numeral (s := fun k => mem (p + k)) (k := j + 2) (by omega) (by omega)
      rwa [show p + 1 + (j + 1) = p + (j + 2) by omega]
  obtain ⟨D, rest, m, hstr, hlen, hD, hm, hprint⟩ := print_numerals hse hn htext hdigits
  rw [fklCastEscapeCharBuf_escape h0 (Nat.succ_pos _), hk] at heq
  simp only [List.cons.injEq] at heq
  have hsize : (printBufFrom se n str).length + 1 - (k + 1) = (printBufFrom se m rest).length := by
    rw [hprint, List.length_append, hlen]
    omega
  rw [hprint, List.append_assoc, memEq_append, Bool.and_eq_true, hlen, memEq_append,
    Bool.and_eq_true] at htext
  have hrest : memEq (printBufFrom se m rest) mem (p + (k + 1)) = true := by
    rw [show p + (k + 1) = p + 1 + k by omega]
    exact htext.2.1
  refine cast_ahead_of_print hse hm hrest (List.ne_nil_of_length_pos (by omega)) hD ?_
  rw [← hsize, heq.2, hstr]

/-- A backslash at the end of the text hides the delimiter. -/
theorem delimiterFrom_hidden (h0 : mem (cstr + i) = backslash) (hlt : i < restLen) :
    delimiterFrom mem cstr restLen se i ≠ i + 2 := by
  rw [delimiterFrom_eq hlt, if_pos h0]
  have := delimiterFrom_lt mem cstr restLen (i + 2) se
  omega

/-- A backslash at the end of a run of two bytes is not read back, whatever follows it. -/
theorem not_readsBack_backslash (hse : IsDelimiter se) {n : Nat} {str : List UInt8}
    (hn : str.length ≤ n)
    (h : memEq (backslash :: printBufFrom se n str ++ [se]) mem (cstr + i) = true)
    (hlt : i + ((printBufFrom se n str).length + 1) < restLen) :
    ¬ReadsBack mem cstr restLen se i ((printBufFrom se n str).length + 1) (backslash :: str) := by
  have h0 : mem (cstr + i) = backslash := ((memEq_cons _ _ _ _).mp h).1
  induction n generalizing str i with
  | zero =>
    obtain rfl : str = [] := List.eq_nil_of_length_eq_zero (by omega)
    exact fun hr => delimiterFrom_hidden h0 (by omega) hr.1
  | succ n ih =>
    rintro ⟨hdelim, hcast⟩
    have htext : memEq (printBufFrom se (n + 1) str ++ [se]) mem (cstr + i + 1) = true :=
      ((memEq_cons _ _ _ _).mp h).2
    have hnum : startsNumeral (mem (cstr + i + 1)) = false :=
      Bool.eq_false_of_not_eq_true fun hnum => cast_backslash_numeral hse hn h hnum hcast
    have hvalue := hcast
    rw [fklCastEscapeCharBuf_escape h0 (Nat.succ_pos _), List.cons.injEq] at hvalue
    have h1 : mem (cstr + i + 1) = backslash :=
      escape_eq_backslash (s := fun k => mem (cstr + i + k)) h0 hnum hvalue.1
    cases str with
    | nil => exact delimiterFrom_hidden h0 (by omega) hdelim
    | cons c str =>
      rw [delimiterFrom_eq (by omega), h0, if_pos rfl] at hdelim
      have hn' : str.length ≤ n := by simpa using hn
      rcases print_cases se n c str with ⟨hprint, -⟩ | ⟨R, rest, -, hc, -, -, hprint, -⟩ <;>
        rw [hprint] at h htext hcast hlt hdelim
      · unfold unitLiteral at h htext hcast hlt hdelim
        split_ifs at h htext hcast hlt hdelim with hc
        · rcases literalKind hse c with
            ⟨heq, hbs, -⟩ | ⟨heq, rfl⟩ | ⟨heq, rfl⟩ | ⟨d, heq, -, -, -, hd⟩ | ⟨heq, hx⟩ <;>
            rw [heq] at h htext hcast hlt hdelim
          · exact hbs (((memEq_cons _ _ _ _).mp htext).1.symm.trans h1)
          · have h2 : mem (cstr + (i + 2)) = c := by
              simp only [List.cons_append, memEq_cons] at htext
              exact htext.2.1
            simp only [List.cons_append, List.length_cons] at hlt hdelim
            rw [delimiterFrom_eq (by omega), h2, if_neg hse.facts.1, if_pos rfl] at hdelim
            omega
          · simp only [List.cons_append, List.nil_append, List.length_cons] at hlt hdelim hcast
            rw [fklCastEscapeCharBuf_single h0 h1 (by decide) (by decide), List.cons.injEq] at hcast
            simp only [List.cons_append, List.nil_append, memEq_cons] at htext
            refine ih hn' (i := i + 2) ?_ (by omega) htext.2.1 ⟨by omega, hcast.2⟩
            exact (memEq_cons _ _ _ _).mpr htext.2
          · exact cast_backslash_escape h hd.1 hd.2.2 _ _ hcast
          · exact cast_backslash_escape h (by decide) (Ne.symm hx) _ _ hcast
        · refine cast_backslash_escape h (by decide) ?_ _ _ hcast
          rintro rfl
          exact hc (by decide)
      · have : mem (cstr + i + 1) = c := ((memEq_cons _ _ _ _).mp htext).1
        exact (high_facts hc).2.2 (this.symm.trans h1)

theorem readsBack_clean {R str : List UInt8} (hclean : backslash ∉ R ∧ se ∉ R)
    (h : memEq R mem (cstr + i) = true) (hlt : i + R.length < restLen) :
    ReadsBack mem cstr restLen se i (size + R.length) (R ++ str) ↔
      ReadsBack mem cstr restLen se (i + R.length) size str := by
  induction R generalizing i with
  | nil => rfl
  | cons c R ih =>
    obtain ⟨h0, hR⟩ := (memEq_cons _ _ _ _).mp h
    simp only [List.mem_cons, not_or] at hclean
    simp only [List.length_cons] at hlt ⊢
    rw [← Nat.add_assoc, List.cons_append,
      readsBack_raw (by omega) h0 (Ne.symm hclean.1.1) (Ne.symm hclean.2.1),
      ih ⟨hclean.1.2, hclean.2.2⟩ hR (by omega), Nat.add_right_comm, Nat.add_assoc]

theorem not_readsBack_delimiter (hse : IsDelimiter se) (h0 : mem (cstr + i) = se)
    (hlt : i < restLen) (hsize : 0 < size) (str : List UInt8) :
    ¬ReadsBack mem cstr restLen se i size str := by
  rintro ⟨hdelim, -⟩
  rw [delimiterFrom_eq hlt, h0, if_neg hse.facts.1, if_pos rfl] at hdelim
  omega

/-- A run of three bytes or more with a backslash or the delimiter is not read back. -/
theorem not_readsBack_run (hse : IsDelimiter se) {R str : List UInt8} {z : UInt8} (hz : 0x80 ≤ z)
    (hbad : ¬(backslash ∉ R ∧ se ∉ R)) (h : memEq (R ++ [z]) mem (cstr + i) = true)
    (hlt : i + R.length < restLen) :
    ¬ReadsBack mem cstr restLen se i (size + (R ++ [z]).length) (R ++ [z] ++ str) := by
  induction R generalizing i with
  | nil => exact absurd ⟨by simp, by simp⟩ hbad
  | cons c R ih =>
    obtain ⟨h0, hR⟩ := (memEq_cons _ _ _ _).mp h
    rw [List.length_cons] at hlt
    rw [List.cons_append, List.length_cons]
    by_cases hbs : c = backslash
    · subst hbs
      rintro ⟨-, hcast⟩
      exact cast_backslash_in_run h (by simp; omega) ⟨z, by simp, hz⟩ hcast
    by_cases hc : c = se
    · exact not_readsBack_delimiter hse (hc ▸ h0) (by omega) (by omega) _
    · have hbad' : ¬(backslash ∉ R ∧ se ∉ R) := by
        simpa [Ne.symm hbs, Ne.symm hc] using hbad
      rw [← Nat.add_assoc, List.cons_append, readsBack_raw (by omega) h0 hbs hc]
      exact ih hbad' hR (by omega)

/-- The printed bytes are read back exactly when no run hides a delimiter or a backslash. -/
theorem readsBack_print_iff (hse : IsDelimiter se) {n : Nat} {str : List UInt8}
    (hn : str.length ≤ n) (h : memEq (printBufFrom se n str ++ [se]) mem (cstr + i) = true)
    (hlt : i + (printBufFrom se n str).length < restLen) :
    ReadsBack mem cstr restLen se i (printBufFrom se n str).length str ↔
      ∀ R ∈ rawRunsFrom n str, backslash ∉ R ∧ se ∉ R := by
  induction n using Nat.strong_induction_on generalizing str i with
  | _ n ih =>
  cases str with
  | nil =>
    have h0 : mem (cstr + i) = se := by simpa using h
    simp only [printBufFrom_nil, List.length_nil, Nat.add_zero] at hlt ⊢
    simp [ReadsBack, delimiterFrom_eq hlt, h0, hse.facts.1]
  | cons c str =>
    obtain ⟨n, rfl⟩ : ∃ m, n = m + 1 := ⟨n - 1, by simp at hn; omega⟩
    have hn' : str.length ≤ n := by simpa using hn
    rcases print_cases se n c str with
      ⟨hprint, hruns⟩ | ⟨R, rest, hstr, hc, hne, hR, hprint, hruns⟩ <;>
      rw [hprint] at h hlt ⊢ <;> rw [hruns]
    · rw [List.append_assoc, memEq_append, Bool.and_eq_true] at h
      rw [List.length_append] at hlt ⊢
      rw [Nat.add_comm (unitLiteral se c).length, readsBack_unit hse (by omega) h.1]
      exact ih n (Nat.lt_succ_self n) hn' (by rw [← Nat.add_assoc]; exact h.2) (by omega)
    · have hrest : rest.length ≤ n := by
        have := congrArg List.length hstr
        simp at this
        omega
      rw [List.append_assoc, memEq_append, Bool.and_eq_true] at h
      rw [List.length_append, List.length_cons] at hlt
      rw [hstr, List.length_append, Nat.add_comm (c :: R).length]
      by_cases hclean : backslash ∉ c :: R ∧ se ∉ c :: R
      · rw [readsBack_clean hclean h.1 (by rw [List.length_cons]; omega), List.forall_mem_cons,
          and_iff_right hclean]
        exact ih n (Nat.lt_succ_self n) hrest (by rw [← Nat.add_assoc]; exact h.2)
          (by rw [List.length_cons]; omega)
      · refine iff_of_false ?_ fun hall => hclean (hall _ (by simp))
        have hcb := (high_facts hc).2.2
        have hcs := hse.ne_high hc
        rcases hR with ⟨x, rfl⟩ | ⟨R, z, rfl, hz⟩
        · simp only [List.length_cons, List.length_nil, Nat.zero_add] at hlt h ⊢
          obtain ⟨h0, h1⟩ := (memEq_cons _ _ _ _).mp h.1
          have h1 : mem (cstr + (i + 1)) = x := ((memEq_cons _ _ _ _).mp h1).1
          rw [← Nat.add_assoc, List.cons_append, readsBack_raw (by omega) h0 hcb hcs]
          by_cases hx : x = se
          · exact not_readsBack_delimiter hse (hx ▸ h1) (by omega) (by omega) _
          · obtain rfl : x = backslash := by
              by_contra hxb
              exact hclean (by simp [Ne.symm hcb, Ne.symm hcs, Ne.symm hxb, Ne.symm hx])
            exact not_readsBack_backslash hse hrest ((memEq_cons _ _ _ _).mpr ⟨h1, h.2⟩) (by omega)
        · have hzb := (high_facts hz).2.2
          have hzs := hse.ne_high hz
          refine not_readsBack_run (R := c :: R) hse hz ?_ h.1 ?_
          · simpa [Ne.symm hzb, Ne.symm hzs] using hclean
          · simp at hlt ⊢
            omega

end Print

/-- The literal stands at `addr`, and `restLen` bytes of the text from its first delimiter on. -/
theorem fklPrintBufLiteralExt_readsBack_iff {se : UInt8} (hse : IsDelimiter se)
    (str beginStr : List UInt8) {mem : Memory} {addr restLen : Nat}
    (h : memEq (fklPrintBufLiteralExt str beginStr [se] se) mem addr = true)
    (hrest : (fklPrintBufLiteralExt str beginStr [se] se).length ≤ beginStr.length + restLen) :
    (fklQuotedCharBufMatch mem (addr + beginStr.length) restLen [se] =
        (fklPrintBufLiteralExt str beginStr [se] se).length - beginStr.length ∧
      fklCastEscapeCharBuf mem (addr + beginStr.length)
        ((fklPrintBufLiteralExt str beginStr [se] se).length - beginStr.length - 1) = str) ↔
      ∀ R ∈ rawRuns str, backslash ∉ R ∧ se ∉ R := by
  have hsize : (fklPrintBufLiteralExt str beginStr [se] se).length - beginStr.length =
      (printBufFrom se str.length str).length + 1 := by
    simp [fklPrintBufLiteralExt]
  have hlt : (printBufFrom se str.length str).length < restLen := by omega
  rw [fklPrintBufLiteralExt, List.append_assoc, memEq_append, Bool.and_eq_true] at h
  rw [hsize, fklQuotedCharBufMatch_eq (by omega), Nat.add_sub_cancel]
  simpa [ReadsBack, rawRuns] using
    readsBack_print_iff (i := 0) hse (Nat.le_refl str.length) h.2 (by omega)

/-- A letter of two bytes before the delimiter. -/
theorem twoByteLetter_readsBack :
    let text := fklPrintBufLiteralExt [0xC3, 0xA9, ch '"'] [ch '"'] [ch '"'] (ch '"')
    let mem : Memory := fun a => text.getD a 0
    fklQuotedCharBufMatch mem 1 5 [ch '"'] = 5 ∧
      fklCastEscapeCharBuf mem 1 4 = [0xC3, 0xA9, ch '"'] :=
  (fklPrintBufLiteralExt_readsBack_iff (.inl rfl) [0xC3, 0xA9, ch '"'] [ch '"'] (by decide)
    (by decide)).mpr (by decide)

/-- The first byte of a letter of two bytes, and the delimiter behind it. -/
theorem truncatedLetter_not_readsBack : ¬∀ (str : List UInt8) (mem : Memory),
    memEq (fklPrintBufLiteralExt str [ch '"'] [ch '"'] (ch '"')) mem 0 = true →
      fklQuotedCharBufMatch mem 1
        ((fklPrintBufLiteralExt str [ch '"'] [ch '"'] (ch '"')).length - 1) [ch '"'] =
          (fklPrintBufLiteralExt str [ch '"'] [ch '"'] (ch '"')).length - 1 ∧
        fklCastEscapeCharBuf mem 1
          ((fklPrintBufLiteralExt str [ch '"'] [ch '"'] (ch '"')).length - 2) = str := by
  intro h
  have hshort := (h [0xC3, ch '"'] (fun a => [ch '"', 0xC3, ch '"', ch '"'].getD a 0)
    (by decide)).1
  revert hshort
  decide

end FakeLisp
