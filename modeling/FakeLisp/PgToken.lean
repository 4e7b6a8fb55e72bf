import FakeLisp.EscapeChars

/-!
The tokens of grammar descriptions. What is left of the text stands for a pointer into it, so that
a token goes back to where it starts.
-/

namespace FakeLisp.ParserGrammer

def delimString : UInt8 := ch '"'

def delimRegex : UInt8 := ch '/'

def delimKeyword : UInt8 := ch '|'

def delimComment : UInt8 := ch '#'

def pgIgnore : List UInt8 := [ch '?', ch 'e']

def pgTerminals : List UInt8 := [ch '?', ch '?']

inductive MyTokenType where
  | none | leftArrow | reduceTo | concat | lb | rb | endToken | comma
  | identifier | termRegex | termString | termKeyword
  deriving DecidableEq

def sortedOperators : List (List UInt8 × MyTokenType) :=
  [([ch '-', ch '>'], .leftArrow), ([ch '=', ch '>'], .reduceTo), ([ch '.', ch '.'], .concat),
    ([ch ';'], .endToken), ([ch ','], .comma), ([ch '['], .lb), ([ch ']'], .rb)]

def sortedDelims : List (List UInt8) :=
  [[ch '-', ch '>'], [ch '=', ch '>'], [ch '.', ch '.'], [delimString], [delimRegex],
    [delimKeyword], [ch ';'], [ch ','], [ch '['], [ch ']'], [delimComment]]

/-- The text of the token is the first `len` bytes of `str`. -/
structure Token where
  type : MyTokenType
  str : List UInt8
  len : Nat
  deriving DecidableEq

namespace Token

def text (t : Token) : List UInt8 := t.str.take t.len

/-- The content of a token between two delimiters. -/
def content (t : Token) : List UInt8 := (t.str.drop 1).take (t.len - 2)

def unescaped (t : Token) : List UInt8 :=
  fklCastEscapeCharBuf (fun i => t.str.getD i 0) 1 (t.len - 2)

end Token

/-- `MATCH_DELIM` -/
def matchDelim (delim buf : List UInt8) : Bool := delim.isPrefixOf buf

def fklIsSpace (c : UInt8) : Bool := c = ch ' ' || (9 ≤ c && c < 14)

/-- In a comment, the bytes up to the end of the line are skipped. -/
def skipIgnoreFrom (inComment : Bool) : List UInt8 → List UInt8
  | [] => []
  | c :: buf =>
    if inComment then skipIgnoreFrom (c ≠ 10) buf
    else if fklIsSpace c then skipIgnoreFrom false buf
    else if c = delimComment then skipIgnoreFrom true buf
    else c :: buf

def skipIgnore (buf : List UInt8) : List UInt8 := skipIgnoreFrom false buf

/-- The number of bytes up to the end of a token that ends with `delim`. -/
def delimitedLen (delim : UInt8) : List UInt8 → Option Nat
  | [] => none
  | c :: buf =>
    if c = backslash then
      match buf with
      | [] => none
      | _ :: buf => (delimitedLen delim buf).map (· + 2)
    else if c = delim then some 1
    else (delimitedLen delim buf).map (· + 1)

/-- What the three functions do in common. -/
def getDelimitedToken (delim : UInt8) (type : MyTokenType) (buf : List UInt8) : Option Token :=
  (delimitedLen delim (buf.drop 1)).map fun len => ⟨type, buf, len + 1⟩

def getStringToken : List UInt8 → Option Token := getDelimitedToken delimString .termString

def getKeywordToken : List UInt8 → Option Token := getDelimitedToken delimKeyword .termKeyword

def getRegexToken : List UInt8 → Option Token := getDelimitedToken delimRegex .termRegex

def matchDelims (buf : List UInt8) : Bool := sortedDelims.any fun d => matchDelim d buf

def identifierLen : List UInt8 → Nat
  | [] => 0
  | c :: buf => if fklIsSpace c || matchDelims (c :: buf) then 0 else identifierLen buf + 1

def getIdentifierToken (buf : List UInt8) : Token := ⟨.identifier, buf, identifierLen buf⟩

/-- A token, or `ERR_UNEXPECTED_EOF`, and what is left of the text. -/
structure NextToken where
  err : Bool
  token : Token
  rest : List UInt8

namespace NextToken

def ofToken (t : Token) : NextToken := ⟨false, t, t.str.drop t.len⟩

/-- Where there is no token, the text goes on at `buf`. -/
def ofOption (buf : List UInt8) : Option Token → NextToken
  | some t => ofToken t
  | none => ⟨true, ⟨.none, buf, 0⟩, buf⟩

end NextToken

def nextToken (buf : List UInt8) : NextToken :=
  let buf := skipIgnore buf
  match sortedOperators.find? fun op => matchDelim op.1 buf with
  | some op => .ofToken ⟨op.2, buf, op.1.length⟩
  | none =>
    if matchDelim [delimString] buf then .ofOption buf (getStringToken buf)
    else if matchDelim [delimKeyword] buf then .ofOption buf (getKeywordToken buf)
    else if matchDelim [delimRegex] buf then .ofOption buf (getRegexToken buf)
    else if buf ≠ [] then .ofToken (getIdentifierToken buf)
    else .ofToken ⟨.none, buf, 0⟩

/-! How far a token reaches. -/

theorem length_skipIgnoreFrom_le (inComment : Bool) (buf : List UInt8) :
    (skipIgnoreFrom inComment buf).length ≤ buf.length := by
  induction buf generalizing inComment with
  | nil => rfl
  | cons c buf ih =>
    have hle := Nat.le_succ buf.length
    unfold skipIgnoreFrom
    split
    · exact (ih _).trans hle
    split
    · exact (ih _).trans hle
    split
    · exact (ih _).trans hle
    · rfl

theorem skipIgnoreFrom_cases (inComment : Bool) (buf : List UInt8) :
    skipIgnoreFrom inComment buf = [] ∨ ∃ c cs, skipIgnoreFrom inComment buf = c :: cs ∧
      fklIsSpace c = false ∧ c ≠ delimComment := by
  induction buf generalizing inComment with
  | nil => exact .inl rfl
  | cons c buf ih =>
    rw [skipIgnoreFrom]
    split
    · exact ih _
    split
    · exact ih _
    split
    · exact ih _
    · rename_i hspace hdelim
      exact .inr ⟨c, buf, rfl, by simpa using hspace, hdelim⟩

theorem skipIgnore_skipIgnore (buf : List UInt8) :
    skipIgnore (skipIgnore buf) = skipIgnore buf := by
  rcases skipIgnoreFrom_cases false buf with h | ⟨c, cs, h, hspace, hcomment⟩
  all_goals
    rw [← skipIgnore] at h
    rw [h]
  · rfl
  · simp [skipIgnore, skipIgnoreFrom, hspace, hcomment]

/-- What begins with no operator and no other delimiter begins with a byte of an identifier. -/
theorem identifierLen_pos {buf : List UInt8} (hne : skipIgnore buf ≠ [])
    (hop : sortedOperators.find? (fun op => matchDelim op.1 (skipIgnore buf)) = none)
    (hs : matchDelim [delimString] (skipIgnore buf) = false)
    (hk : matchDelim [delimKeyword] (skipIgnore buf) = false)
    (hr : matchDelim [delimRegex] (skipIgnore buf) = false) :
    0 < identifierLen (skipIgnore buf) := by
  rcases skipIgnoreFrom_cases false buf with h | ⟨c, cs, h, hspace, hcomment⟩
  · exact absurd h hne
  rw [skipIgnore, h] at hop hs hk hr ⊢
  have hdelims : matchDelims (c :: cs) = false := by
    have hc : matchDelim [delimComment] (c :: cs) = false := by
      simp [matchDelim, List.isPrefixOf, Ne.symm hcomment]
    simp only [sortedOperators, List.find?_eq_none, List.mem_cons, List.not_mem_nil, or_false,
      forall_eq_or_imp, forall_eq, Bool.not_eq_true] at hop
    simp [matchDelims, sortedDelims, hop, hs, hk, hr, hc]
  simp [identifierLen, hspace, hdelims]

/-- A token stands where the next bytes are that are not skipped, and has at least one of them. -/
structure Reaches (buf : List UInt8) (r : NextToken) : Prop where
  str : r.token.str = skipIgnore buf
  rest : r.rest = r.token.str.drop r.token.len
  ne_nil : r.token.type ≠ .none ∨ r.err = true → r.token.str ≠ []
  nil : r.token.type = .none → r.err = false → r.token.str = []
  len_pos : r.token.type ≠ .none → 0 < r.token.len
  none_of_err : r.err = true → r.token.type = .none

theorem reaches_token {buf : List UInt8} {type : MyTokenType} (htype : type ≠ .none)
    (hne : skipIgnore buf ≠ []) {len : Nat} (hlen : 0 < len) :
    Reaches buf (.ofToken ⟨type, skipIgnore buf, len⟩) :=
  ⟨rfl, rfl, fun _ => hne, fun h => absurd h htype, fun _ => hlen, fun h => by cases h⟩

theorem reaches_delimited {buf : List UInt8} {type : MyTokenType} (htype : type ≠ .none)
    (hne : skipIgnore buf ≠ []) (delim : UInt8) :
    Reaches buf (.ofOption (skipIgnore buf) (getDelimitedToken delim type (skipIgnore buf))) := by
  unfold getDelimitedToken
  cases delimitedLen delim ((skipIgnore buf).drop 1) with
  | none =>
    exact ⟨rfl, rfl, fun _ => hne, fun _ h => (by cases h), fun h => absurd rfl h, fun _ => rfl⟩
  | some len => exact reaches_token htype hne (Nat.succ_pos len)

theorem reaches_nextToken (buf : List UInt8) : Reaches buf (nextToken buf) := by
  have hmatch : ∀ d, d ≠ [] → matchDelim d (skipIgnore buf) = true → skipIgnore buf ≠ [] := by
    rintro (_ | ⟨c, d⟩) hd h hnil
    · exact hd rfl
    · simp [hnil, matchDelim] at h
  unfold nextToken
  dsimp only
  split
  · rename_i op hop
    have hall : ∀ op ∈ sortedOperators, op.1 ≠ [] ∧ op.2 ≠ .none := by decide
    obtain ⟨hlen, htype⟩ := hall op (List.mem_of_find?_eq_some hop)
    have hop : matchDelim op.1 (skipIgnore buf) = true := by simpa using List.find?_some hop
    exact reaches_token htype (hmatch _ hlen hop) (List.length_pos_of_ne_nil hlen)
  · rename_i hop
    split
    · rename_i h
      exact reaches_delimited (by decide) (hmatch _ (by simp) h) _
    rename_i hs
    split
    · rename_i h
      exact reaches_delimited (by decide) (hmatch _ (by simp) h) _
    rename_i hk
    split
    · rename_i h
      exact reaches_delimited (by decide) (hmatch _ (by simp) h) _
    rename_i hr
    split
    · rename_i hne
      exact reaches_token (by decide) hne
        (identifierLen_pos hne hop (by simpa using hs) (by simpa using hk) (by simpa using hr))
    · rename_i hnil
      have hnil : skipIgnore buf = [] := by simpa using hnil
      exact ⟨rfl, rfl, fun h => by simp [NextToken.ofToken] at h, fun _ _ => hnil,
        fun h => absurd rfl h, fun h => by cases h⟩

theorem nextToken_str (buf : List UInt8) :
    nextToken (nextToken buf).token.str = nextToken buf := by
  rw [(reaches_nextToken buf).str, nextToken, skipIgnore_skipIgnore]
  rfl

section

variable {buf : List UInt8}

theorem length_str_le : (nextToken buf).token.str.length ≤ buf.length := by
  rw [(reaches_nextToken buf).str]
  exact length_skipIgnoreFrom_le false buf

theorem length_rest_le : (nextToken buf).rest.length ≤ buf.length := by
  rw [(reaches_nextToken buf).rest, List.length_drop]
  exact (Nat.sub_le _ _).trans length_str_le

theorem length_rest_lt_str (h : (nextToken buf).token.type ≠ .none) :
    (nextToken buf).rest.length < (nextToken buf).token.str.length := by
  have hlen := (reaches_nextToken buf).len_pos h
  have hpos := List.length_pos_of_ne_nil ((reaches_nextToken buf).ne_nil (.inl h))
  rw [(reaches_nextToken buf).rest, List.length_drop]
  omega

theorem rest_of_none (h : (nextToken buf).token.type = .none) (herr : (nextToken buf).err = false) :
    (nextToken buf).rest = [] := by
  rw [(reaches_nextToken buf).rest, (reaches_nextToken buf).nil h herr, List.drop_nil]

theorem length_rest_lt (hne : buf ≠ []) (herr : (nextToken buf).err = false) :
    (nextToken buf).rest.length < buf.length := by
  by_cases h : (nextToken buf).token.type = .none
  · rw [rest_of_none h herr]
    exact List.length_pos_of_ne_nil hne
  · exact (length_rest_lt_str h).trans_le length_str_le

end

end FakeLisp.ParserGrammer
