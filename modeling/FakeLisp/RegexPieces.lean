import FakeLisp.CharClassSizes
import FakeLisp.RegexCompile

/-! What a pattern is made of: which patterns are malformed, and the pieces that both passes of
the compiler cut it into. -/

namespace FakeLisp.Regex

open ReRun

/-! Malformed patterns. -/

inductive ReToken where
  | opening | closing | repetition | bar | atom
  deriving DecidableEq

def isRepetition (c : UInt8) : Bool := c = ch '*' || c = ch '+' || c = ch '?'

def tokenOf (c : UInt8) : ReToken :=
  if c = ch '(' then .opening
  else if c = ch ')' then .closing
  else if isRepetition c then .repetition
  else if c = ch '|' then .bar
  else .atom

/-- The tokens of a pattern, or of what follows an opened bracket; none where it ends behind a
backslash or within brackets. -/
def reTokens (inClass : Bool) : List UInt8 → Option (List ReToken)
  | [] => if inClass then none else some []
  | c :: pat =>
    if c = backslash then
      match pat with
      | [] => none
      | _ :: pat => if inClass then reTokens true pat else (reTokens false pat).map (.atom :: ·)
    else if inClass then
      if c = ch ']' then (reTokens false pat).map (.atom :: ·) else reTokens true pat
    else if c = ch '[' then reTokens true pat
    else (reTokens false pat).map (tokenOf c :: ·)

/-- With `depth` groups open, every group is closed and nothing else. -/
def balanced : Nat → List ReToken → Bool
  | depth, [] => depth = 0
  | depth, .opening :: ts => balanced (depth + 1) ts
  | 0, .closing :: _ => false
  | depth + 1, .closing :: ts => balanced depth ts
  | depth, _ :: ts => balanced depth ts

/-- Something stands before every repetition: not the start of the pattern, of a group or of an
alternative. -/
def hasOperands (operand : Bool) : List ReToken → Bool
  | [] => true
  | .opening :: ts | .bar :: ts => hasOperands false ts
  | .repetition :: ts => operand && hasOperands true ts
  | .closing :: ts | .atom :: ts => hasOperands true ts

def Malformed (pattern : List UInt8) : Prop :=
  match reTokens false pattern with
  | none => True
  | some ts => balanced 0 ts = false ∨ hasOperands false ts = false

/-- Compiling the pattern comes to an end, accesses nothing else than the pattern and what was
allocated, writes as many objects and class bytes as were counted, and refuses the pattern if it
is malformed. -/
def CompileRight (junk : Nat → Nat → UInt8) (pattern : List UInt8) : Prop :=
  ∃ fuel r, fklRegexCompileCharBuf fuel junk pattern = r ∧ r ≠ .outOfFuel ∧ r ≠ .fault ∧
    (∀ ctx code, r = .done (ctx, code) →
      code.objs.length = ctx.objs ∧ code.patrns.length = ctx.strln) ∧
    (Malformed pattern → r = .rejected)

/-! The pieces. -/

inductive RePiece where
  | char (c : UInt8)
  | esc (esc : List UInt8)
  | charClass (text : List UInt8)

/-- How a pattern ends: behind its last piece, behind a backslash or a bracket that is its last
character, or within a class. -/
inductive ReEnd where
  | complete | cut | openClass
  deriving DecidableEq

def RePiece.token : RePiece → ReToken
  | char c => tokenOf c
  | _ => .atom

inductive Splits : List UInt8 → List RePiece → ReEnd → Prop
  | nil : Splits [] [] .complete
  | char {c : UInt8} {pat : List UInt8} {ps : List RePiece} {e : ReEnd} (hc : c ≠ backslash)
      (hb : c ≠ ch '[') (h : Splits pat ps e) : Splits (c :: pat) (.char c :: ps) e
  | esc {pat : List UInt8} {ps : List RePiece} {e : ReEnd} (hpat : pat ≠ [])
      (h : Splits (pat.drop (countNumberEscChar pat)) ps e) :
      Splits (backslash :: pat) (.esc (pat.take (countNumberEscChar pat)) :: ps) e
  | cutEsc : Splits [backslash] [] .cut
  | charClass {pat : List UInt8} {n : Nat} {ps : List RePiece} {e : ReEnd} (hpat : pat ≠ [])
      (hscan : bracketScan 0 (classText pat) = done n)
      (h : Splits ((classText pat).drop (n + 1)) ps e) :
      Splits (ch '[' :: pat) (.charClass ((classText pat).take n) :: ps) e
  | cutClass {pat : List UInt8} (h : pat = [] ∨ bracketScan 0 (classText pat) = rejected) :
      Splits (ch '[' :: pat) [] .cut
  | openClass {pat : List UInt8} (hpat : pat ≠ [])
      (h : bracketScan 0 (classText pat) = fault) : Splits (ch '[' :: pat) [] .openClass

/-- The pieces of a pattern of at most so many characters. -/
def rePiecesFrom : Nat → List UInt8 → List RePiece × ReEnd
  | 0, _ | _, [] => ([], .complete)
  | n + 1, c :: pat =>
    if c = backslash then
      if pat = [] then ([], .cut)
      else
        let (ps, e) := rePiecesFrom n (pat.drop (countNumberEscChar pat))
        (.esc (pat.take (countNumberEscChar pat)) :: ps, e)
    else if c = ch '[' then
      if pat = [] then ([], .cut)
      else
        match bracketScan 0 (classText pat) with
        | done k =>
          let (ps, e) := rePiecesFrom n ((classText pat).drop (k + 1))
          (.charClass ((classText pat).take k) :: ps, e)
        | rejected => ([], .cut)
        | _ => ([], .openClass)
    else
      let (ps, e) := rePiecesFrom n pat
      (.char c :: ps, e)

def rePieces (pattern : List UInt8) : List RePiece × ReEnd := rePiecesFrom pattern.length pattern

theorem andThen_ne_outOfFuel {α β : Type} {r : ReRun α} {f : α → β} (h : r ≠ outOfFuel) :
    (r >>= fun a => done (f a)) ≠ outOfFuel := by
  cases r with
  | outOfFuel => exact absurd rfl h
  | fault => exact fun h => nomatch h
  | rejected => exact fun h => nomatch h
  | done a => exact fun h => nomatch h

theorem bracketScan_ne_outOfFuel (skip : Nat) (pat : List UInt8) :
    bracketScan skip pat ≠ outOfFuel := by
  induction pat generalizing skip with
  | nil => cases skip <;> exact fun h => nomatch h
  | cons c pat ih =>
    cases skip with
    | succ skip => exact andThen_ne_outOfFuel (ih skip)
    | zero =>
      unfold bracketScan
      split_ifs
      · exact fun h => nomatch h
      · exact fun h => nomatch h
      · exact andThen_ne_outOfFuel (ih _)
      · exact andThen_ne_outOfFuel (ih _)

theorem classText_length_le (pat : List UInt8) : (classText pat).length ≤ pat.length := by
  unfold classText
  split
  · rw [List.length_tail]
    omega
  · exact le_rfl

theorem splits_rePiecesFrom {n : Nat} {pat : List UInt8} (h : pat.length ≤ n) :
    Splits pat (rePiecesFrom n pat).1 (rePiecesFrom n pat).2 := by
  induction n generalizing pat with
  | zero =>
    obtain rfl := List.length_eq_zero_iff.mp (Nat.le_zero.mp h)
    exact .nil
  | succ n ih =>
    cases pat with
    | nil => exact .nil
    | cons c pat =>
      rw [List.length_cons] at h
      unfold rePiecesFrom
      split_ifs with hc hpat hb hpat
      · subst hc hpat
        exact .cutEsc
      · subst hc
        exact .esc hpat (ih (by rw [List.length_drop]; omega))
      · subst hb
        exact .cutClass (Or.inl hpat)
      · subst hb
        have hle := classText_length_le pat
        cases hscan : bracketScan 0 (classText pat) with
        | done k => exact .charClass hpat hscan (ih (by rw [List.length_drop]; omega))
        | rejected => exact .cutClass (Or.inr hscan)
        | fault => exact .openClass hpat hscan
        | outOfFuel => exact absurd hscan (bracketScan_ne_outOfFuel _ _)
      · exact .char hc hb (ih (by omega))

theorem splits_rePieces (pattern : List UInt8) :
    Splits pattern (rePieces pattern).1 (rePieces pattern).2 :=
  splits_rePiecesFrom le_rfl

/-! The tokens of the pieces. -/

theorem moreDigits_spec (p : UInt8 → Bool) (pat : List UInt8) :
    moreDigits p pat ≤ pat.length ∧ ∀ c ∈ pat.take (moreDigits p pat), p c = true := by
  have hsub : ((pat.take 2).takeWhile p) <+: pat :=
    (List.takeWhile_prefix p).trans (List.take_prefix 2 pat)
  refine ⟨hsub.length_le, fun c hc => ?_⟩
  rw [moreDigits, ← List.prefix_iff_eq_take.mp hsub] at hc
  exact List.all_eq_true.mp List.all_takeWhile c hc

/-- A digit means nothing to the compiler. -/
theorem digit_plain (c : UInt8) : (isEscDigit c = true → CharBuf.fklIsXDigit c = true) ∧
    (CharBuf.fklIsXDigit c = true →
      c ≠ backslash ∧ c ≠ ch ']' ∧ c ≠ ch '[' ∧ tokenOf c = .atom) := by
  revert c
  refine forall_byte ?_
  decide +kernel

/-- An escape is a character and digits. -/
theorem countNumberEscChar_spec (c : UInt8) (pat : List UInt8) :
    ∃ m, countNumberEscChar (c :: pat) = m + 1 ∧ m ≤ pat.length ∧
      ∀ d ∈ pat.take m, CharBuf.fklIsXDigit d = true := by
  rw [countNumberEscChar]
  split_ifs
  · obtain ⟨hle, hall⟩ := moreDigits_spec CharBuf.fklIsXDigit pat
    exact ⟨_, Nat.add_comm _ _, hle, hall⟩
  · obtain ⟨hle, hall⟩ := moreDigits_spec isEscDigit pat
    exact ⟨_, Nat.add_comm _ _, hle, fun d hd => (digit_plain d).1 (hall d hd)⟩
  · exact ⟨0, rfl, Nat.zero_le _, fun d hd => absurd hd List.not_mem_nil⟩

theorem reTokens_class {c : UInt8} (hc : c ≠ backslash) (pat : List UInt8) :
    reTokens true (c :: pat) =
      if c = ch ']' then (reTokens false pat).map (.atom :: ·) else reTokens true pat := by
  cases pat <;> exact if_neg hc

theorem reTokens_char {c : UInt8} (hc : c ≠ backslash) (pat : List UInt8) :
    reTokens false (c :: pat) =
      if c = ch '[' then reTokens true pat else (reTokens false pat).map (tokenOf c :: ·) := by
  cases pat <;> exact if_neg hc

theorem reTokens_esc (c : UInt8) (pat : List UInt8) :
    reTokens false (backslash :: c :: pat) = (reTokens false pat).map (.atom :: ·) ∧
      reTokens true (backslash :: c :: pat) = reTokens true pat :=
  ⟨if_pos rfl, if_pos rfl⟩

theorem reTokens_class_digits {ds : List UInt8} (h : ∀ d ∈ ds, CharBuf.fklIsXDigit d = true)
    (pat : List UInt8) : reTokens true (ds ++ pat) = reTokens true pat := by
  induction ds with
  | nil => rfl
  | cons d ds ih =>
    obtain ⟨hd, hds⟩ := List.forall_mem_cons.mp h
    obtain ⟨hback, hclose, _⟩ := (digit_plain d).2 hd
    rw [List.cons_append, reTokens_class hback, if_neg hclose, ih hds]

theorem reTokens_digits {ds : List UInt8} (h : ∀ d ∈ ds, CharBuf.fklIsXDigit d = true)
    (pat : List UInt8) : reTokens false (ds ++ pat) =
      (reTokens false pat).map (List.replicate ds.length .atom ++ ·) := by
  induction ds with
  | nil => simp
  | cons d ds ih =>
    obtain ⟨hd, hds⟩ := List.forall_mem_cons.mp h
    obtain ⟨hback, _, hopen, htoken⟩ := (digit_plain d).2 hd
    rw [List.cons_append, reTokens_char hback, if_neg hopen, ih hds, htoken, Option.map_map]
    rfl

/-- What a scan of a class says of the tokens behind the bracket. -/
def ScanRight (r : ReRun Nat) (skip : Nat) (pat : List UInt8) : Prop :=
  match r with
  | done n =>
    reTokens true (pat.drop skip) = (reTokens false (pat.drop (n + 1))).map (.atom :: ·)
  | _ => reTokens true (pat.drop skip) = none

theorem ScanRight.cons {r : ReRun Nat} {skip : Nat} {pat : List UInt8} (h : ScanRight r skip pat)
    (c : UInt8) : ScanRight (r >>= fun n => done (n + 1)) (skip + 1) (c :: pat) := by
  cases r <;> exact h

theorem ScanRight.congr {r : ReRun Nat} {skip skip' : Nat} {pat : List UInt8}
    (h : ScanRight r skip pat)
    (heq : reTokens true (pat.drop skip') = reTokens true (pat.drop skip)) :
    ScanRight r skip' pat := by
  cases r with
  | done n => exact heq.trans h
  | outOfFuel => exact heq.trans h
  | fault => exact heq.trans h
  | rejected => exact heq.trans h

/-- The scan of a class ends where the class does. -/
theorem scanRight_bracketScan {skip : Nat} {pat : List UInt8} (hskip : skip ≤ pat.length) :
    ScanRight (bracketScan skip pat) skip pat := by
  induction pat generalizing skip with
  | nil =>
    obtain rfl : skip = 0 := Nat.le_zero.mp hskip
    rfl
  | cons c pat ih =>
    cases skip with
    | succ skip => exact (ih (Nat.le_of_succ_le_succ hskip)).cons c
    | zero =>
      unfold bracketScan
      split_ifs with hclose hback hpat
      · subst hclose
        exact reTokens_class (by decide) pat
      · subst hback hpat
        rfl
      · subst hback
        obtain ⟨d, pat, rfl⟩ := List.exists_cons_of_ne_nil hpat
        obtain ⟨m, hm, hle, hdigits⟩ := countNumberEscChar_spec d pat
        have hcount : countNumberEscChar (d :: pat) ≤ (d :: pat).length := by
          rw [hm]
          exact Nat.succ_le_succ hle
        have hscan := (ih hcount).cons backslash
        refine hscan.congr ?_
        have hskipped := reTokens_class_digits hdigits (pat.drop m)
        rw [List.take_append_drop] at hskipped
        rw [hm]
        exact (reTokens_esc d pat).2.trans hskipped
      · refine ((ih (Nat.zero_le _)).cons c).congr ?_
        rw [List.drop_zero, reTokens_class hback, if_neg hclose]
        rfl

/-- The mark of an inverted class means nothing else. -/
theorem reTokens_classText (pat : List UInt8) :
    reTokens true (classText pat) = reTokens true pat := by
  unfold classText
  split
  · next h =>
    obtain ⟨rest, rfl⟩ : ∃ rest, pat = ch '^' :: rest := by
      cases pat with
      | nil => cases h
      | cons c rest => exact ⟨rest, by rw [Option.some.inj h]⟩
    rw [reTokens_class (by decide), if_neg (by decide), List.tail_cons]
  · rfl

/-- The tokens of a pattern say of groups and operands what its pieces say. -/
def SameTokens (ts ts' : List ReToken) : Prop :=
  (∀ depth, balanced depth ts = balanced depth ts') ∧
    ∀ operand, hasOperands operand ts = hasOperands operand ts'

theorem SameTokens.cons {ts ts' : List ReToken} (h : SameTokens ts ts') (t : ReToken) :
    SameTokens (t :: ts) (t :: ts') := by
  refine ⟨fun depth => ?_, fun operand => ?_⟩
  · cases t with
    | closing =>
      cases depth with
      | zero => rfl
      | succ depth => exact h.1 depth
    | opening => exact h.1 (depth + 1)
    | repetition => cases depth <;> exact h.1 _
    | bar => cases depth <;> exact h.1 _
    | atom => cases depth <;> exact h.1 _
  · cases t with
    | repetition => exact congrArg (operand && ·) (h.2 true)
    | opening => exact h.2 false
    | bar => exact h.2 false
    | closing => exact h.2 true
    | atom => exact h.2 true

theorem balanced_atoms (depth m : Nat) (ts : List ReToken) :
    balanced depth (List.replicate m .atom ++ ts) = balanced depth ts := by
  induction m with
  | zero => rfl
  | succ m ih => cases depth <;> exact ih

theorem hasOperands_atoms (m : Nat) (ts : List ReToken) :
    hasOperands true (List.replicate m .atom ++ ts) = hasOperands true ts := by
  induction m with
  | zero => rfl
  | succ m ih => exact ih

theorem SameTokens.atoms {ts ts' : List ReToken} (h : SameTokens ts ts') (m : Nat) :
    SameTokens (.atom :: (List.replicate m .atom ++ ts)) (.atom :: ts') := by
  refine ⟨fun depth => ?_, fun operand => ?_⟩
  · have hdrop : ∀ us, balanced depth (.atom :: us) = balanced depth us := by
      intro us
      cases depth <;> rfl
    rw [hdrop, hdrop, balanced_atoms, h.1]
  · exact (hasOperands_atoms m ts).trans (h.2 true)

/-- A pattern that goes on has the tokens of what follows, and one more. -/
def TokensRight (pat : List UInt8) (ts' : List ReToken) (e : ReEnd) : Prop :=
  (e = .complete → ∃ ts, reTokens false pat = some ts ∧ SameTokens ts ts') ∧
    (e ≠ .complete → reTokens false pat = none)

theorem TokensRight.cons {pat pat' : List UInt8} {ts' : List ReToken} {e : ReEnd} {t : ReToken}
    (h : TokensRight pat ts' e) (heq : reTokens false pat' = (reTokens false pat).map (t :: ·)) :
    TokensRight pat' (t :: ts') e := by
  refine ⟨fun he => ?_, fun he => ?_⟩
  · obtain ⟨ts, hts, hsame⟩ := h.1 he
    exact ⟨t :: ts, by rw [heq, hts]; rfl, hsame.cons t⟩
  · rw [heq, h.2 he]
    rfl

theorem TokensRight.none {pat : List UInt8} {ts' : List ReToken} {e : ReEnd} (he : e ≠ .complete)
    (h : reTokens false pat = none) : TokensRight pat ts' e :=
  ⟨fun hc => absurd hc he, fun _ => h⟩

theorem Splits.tokensRight {pat : List UInt8} {ps : List RePiece} {e : ReEnd}
    (h : Splits pat ps e) : TokensRight pat (ps.map RePiece.token) e := by
  induction h with
  | nil => exact ⟨fun _ => ⟨[], rfl, fun _ => rfl, fun _ => rfl⟩, fun h => absurd rfl h⟩
  | char hc hb _ ih =>
    refine ih.cons ?_
    rw [reTokens_char hc, if_neg hb]
    rfl
  | @esc pat ps e hpat _ ih =>
    obtain ⟨d, pat, rfl⟩ := List.exists_cons_of_ne_nil hpat
    obtain ⟨m, hm, hle, hdigits⟩ := countNumberEscChar_spec d pat
    have hrest : reTokens false pat =
        (reTokens false (pat.drop m)).map (List.replicate (pat.take m).length .atom ++ ·) := by
      have hdrop := reTokens_digits hdigits (pat.drop m)
      rwa [List.take_append_drop] at hdrop
    rw [hm] at ih
    refine ⟨fun he => ?_, fun he => ?_⟩
    · obtain ⟨ts, hts, hsame⟩ := ih.1 he
      rw [List.drop_succ_cons] at hts
      refine ⟨_, ?_, hsame.atoms (pat.take m).length⟩
      rw [(reTokens_esc d pat).1, hrest, hts]
      rfl
    · have hnone := ih.2 he
      rw [List.drop_succ_cons] at hnone
      rw [(reTokens_esc d pat).1, hrest, hnone]
      rfl
  | cutEsc => exact TokensRight.none (by decide) rfl
  | @charClass pat n ps e hpat hscan _ ih =>
    refine ih.cons ?_
    have hright := scanRight_bracketScan (Nat.zero_le (classText pat).length)
    rw [hscan] at hright
    rw [reTokens_char (by decide), if_pos rfl, ← reTokens_classText]
    exact hright
  | @cutClass pat h =>
    refine TokensRight.none (by decide) ?_
    rw [reTokens_char (by decide), if_pos rfl]
    rcases h with rfl | hscan
    · rfl
    · have hright := scanRight_bracketScan (Nat.zero_le (classText pat).length)
      rw [hscan] at hright
      exact (reTokens_classText pat).symm.trans hright
  | @openClass pat hpat hscan =>
    refine TokensRight.none (by decide) ?_
    have hright := scanRight_bracketScan (Nat.zero_le (classText pat).length)
    rw [hscan] at hright
    rw [reTokens_char (by decide), if_pos rfl]
    exact (reTokens_classText pat).symm.trans hright

/-- Which patterns are malformed, by their pieces. -/
theorem Splits.malformed_iff {pat : List UInt8} {ps : List RePiece} {e : ReEnd}
    (h : Splits pat ps e) : Malformed pat ↔ e ≠ .complete ∨
      balanced 0 (ps.map RePiece.token) = false ∨
        hasOperands false (ps.map RePiece.token) = false := by
  have htokens := h.tokensRight
  unfold Malformed
  by_cases he : e = .complete
  · obtain ⟨ts, hts, hbalanced, hoperands⟩ := htokens.1 he
    simp only [hts, hbalanced, hoperands, he, ne_eq, not_true, false_or]
  · simp only [htokens.2 he, ne_eq, he, not_false_eq_true, true_or]

end FakeLisp.Regex
