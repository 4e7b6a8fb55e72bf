import FakeLisp.ActionMatch

/-! Raw strings. The text of the delimiter is what stands before the first opening behind the first
one, and the body is the shortest that the closing delimiter follows. Input that goes on like a raw
string is waited for. -/

namespace FakeLisp

open FklGrammerTerms

def bytesAt (mem : Memory) (cstr n : Nat) : List UInt8 := (List.range n).map fun i => mem (cstr + i)

/-- The start, the text of the delimiter, the start, the body and the closing delimiter. -/
def rawStringText (opening ending d body : List UInt8) : List UInt8 :=
  opening ++ d ++ opening ++ body ++ (ending ++ d ++ ending)

/-- The raw string that `input` begins with. -/
structure RawString (opening ending input d body : List UInt8) : Prop where
  text : rawStringText opening ending d body <+: input
  delim_first : ∀ d', opening ++ d' ++ opening <+: input → d.length ≤ d'.length
  body_shortest : ∀ body', rawStringText opening ending d body' <+: input →
    body.length ≤ body'.length

/-! Bytes. -/

variable {mem : Memory}

theorem length_bytesAt (cstr n : Nat) : (bytesAt mem cstr n).length = n := by simp [bytesAt]

theorem bytesAt_succ (cstr n : Nat) :
    bytesAt mem cstr (n + 1) = mem cstr :: bytesAt mem (cstr + 1) n := by
  simp only [bytesAt, List.range_succ_eq_map, List.map_cons, List.map_map]
  congr 1
  apply List.map_congr_left
  intro i _
  exact congrArg mem (by simp only [Nat.succ_eq_add_one]; omega)

theorem drop_bytesAt (cstr n k : Nat) :
    (bytesAt mem cstr n).drop k = bytesAt mem (cstr + k) (n - k) := by
  induction k generalizing cstr n with
  | zero => rfl
  | succ k ih =>
    cases n with
    | zero => simp [bytesAt]
    | succ n =>
      rw [bytesAt_succ, List.drop_succ_cons, ih, Nat.add_sub_add_right, Nat.add_assoc,
        Nat.add_comm 1 k]

theorem take_bytesAt {cstr n k : Nat} (h : k ≤ n) :
    (bytesAt mem cstr n).take k = bytesAt mem cstr k := by
  rw [bytesAt, ← List.map_take, List.take_range, Nat.min_eq_left h, bytesAt]

theorem memEq_iff_bytesAt (a : List UInt8) (b : Nat) :
    memEq a mem b = true ↔ bytesAt mem b a.length = a := by
  induction a generalizing b with
  | nil => simp [memEq, bytesAt]
  | cons c a ih =>
    rw [memEq, List.length_cons, bytesAt_succ, Bool.and_eq_true, ih, decide_eq_true_iff,
      List.cons.injEq]

theorem fklCharBufMatch_iff (a : List UInt8) (b bSize : Nat) :
    fklCharBufMatch a mem b bSize = true ↔ a <+: bytesAt mem b bSize := by
  unfold fklCharBufMatch
  rw [List.prefix_iff_eq_take]
  split_ifs with h
  · have hne : a ≠ (bytesAt mem b bSize).take a.length := by
      intro he
      have hlen := congrArg List.length he
      rw [List.length_take, length_bytesAt] at hlen
      omega
    simp [hne]
  · rw [memEq_iff_bytesAt, take_bytesAt (Nat.not_lt.mp h), eq_comm]

theorem append_prefix_iff (a b s : List UInt8) :
    a ++ b <+: s ↔ a <+: s ∧ b <+: s.drop a.length := by
  constructor
  · rintro ⟨t, rfl⟩
    exact ⟨⟨b ++ t, by simp⟩, ⟨t, by simp⟩⟩
  · rintro ⟨⟨t, rfl⟩, h⟩
    rw [List.drop_left] at h
    exact (List.prefix_append_right_inj a).mpr h

/-! The first place of a text. -/

/-- `a` is at `k` and at no place before. -/
def FirstAt (a s : List UInt8) (k : Nat) : Prop := a <+: s.drop k ∧ ∀ j < k, ¬a <+: s.drop j

theorem FirstAt.unique {a s : List UInt8} {j k : Nat} (hj : FirstAt a s j) (hk : FirstAt a s k) :
    j = k := by
  rcases lt_trichotomy j k with h | h | h
  · exact absurd hj.1 (hk.2 j h)
  · exact h
  · exact absurd hk.1 (hj.2 k h)

theorem firstAt_zero {a s : List UInt8} (h : a <+: s) : FirstAt a s 0 :=
  ⟨h, fun j hj => absurd hj (Nat.not_lt_zero j)⟩

theorem firstAt_succ {a s : List UInt8} {c : UInt8} {k : Nat} (h : ¬a <+: c :: s)
    (hk : FirstAt a s k) : FirstAt a (c :: s) (k + 1) := by
  refine ⟨hk.1, fun j hj => ?_⟩
  cases j with
  | zero => exact h
  | succ j => exact hk.2 j (Nat.lt_of_succ_lt_succ hj)

/-- A text that is in `s` has a first place in it. -/
theorem exists_firstAt {a s : List UInt8} {k : Nat} (h : a <+: s.drop k) :
    ∃ j ≤ k, FirstAt a s j := by
  induction k generalizing s with
  | zero => exact ⟨0, Nat.le_refl 0, firstAt_zero h⟩
  | succ k ih =>
    by_cases h0 : a <+: s
    · exact ⟨0, Nat.zero_le _, firstAt_zero h0⟩
    · cases s with
      | nil => exact absurd (by simpa using h) h0
      | cons c s =>
        obtain ⟨j, hj, hfirst⟩ := ih (s := s) h
        exact ⟨j + 1, Nat.succ_le_succ hj, firstAt_succ h0 hfirst⟩

theorem FirstAt.le_length {a s : List UInt8} {k : Nat} (h : FirstAt a s k) : k ≤ s.length := by
  by_contra hlt
  have hlt := Nat.not_le.mp hlt
  have hsame : s.drop k = s.drop s.length := by
    rw [List.drop_length, List.drop_eq_nil_iff]
    exact Nat.le_of_lt hlt
  exact h.2 s.length hlt (hsame ▸ h.1)

theorem prefix_drop_append {a s : List UInt8} {k : Nat} (u : List UInt8)
    (hle : k + a.length ≤ s.length) : a <+: (s ++ u).drop k ↔ a <+: s.drop k := by
  have hdrop : s.drop k <+: (s ++ u).drop k := by
    rw [List.drop_append_of_le_length (by omega)]
    exact List.prefix_append _ _
  constructor
  · intro h
    exact List.prefix_of_prefix_length_le h hdrop (by rw [List.length_drop]; omega)
  · exact fun h => h.trans hdrop

theorem FirstAt.append {a s : List UInt8} {k : Nat} (h : FirstAt a s k) (u : List UInt8) :
    FirstAt a (s ++ u) k := by
  have hle := h.1.length_le
  have hk := h.le_length
  rw [List.length_drop] at hle
  refine ⟨(prefix_drop_append u (by omega)).mpr h.1, fun j hj hp => ?_⟩
  exact h.2 j hj ((prefix_drop_append u (by omega)).mp hp)

/-! What a raw string is, place by place. -/

variable {opening ending input d body : List UInt8}

theorem drop_drop_length (s a b : List UInt8) :
    (s.drop a.length).drop b.length = s.drop (a ++ b).length := by
  rw [List.drop_drop, List.length_append]

theorem rawStringText_prefix_iff : rawStringText opening ending d body <+: input ↔
    opening ++ d ++ opening <+: input ∧ body <+: input.drop (opening ++ d ++ opening).length ∧
      ending ++ d ++ ending <+:
        (input.drop (opening ++ d ++ opening).length).drop body.length := by
  rw [rawStringText, append_prefix_iff, append_prefix_iff _ body, drop_drop_length, and_assoc]

theorem delim_prefix_iff : opening ++ d ++ opening <+: input ↔ opening <+: input ∧
    d <+: input.drop opening.length ∧ opening <+: (input.drop opening.length).drop d.length := by
  rw [append_prefix_iff, append_prefix_iff, drop_drop_length, and_assoc]

/-- The delimiter and the body are found by looking for the first places. -/
structure RawStringAt (opening ending input d body : List UInt8) : Prop where
  opens : opening <+: input
  delim_prefix : d <+: input.drop opening.length
  delim_first : FirstAt opening (input.drop opening.length) d.length
  body_prefix : body <+: input.drop (opening ++ d ++ opening).length
  body_first : FirstAt (ending ++ d ++ ending) (input.drop (opening ++ d ++ opening).length)
    body.length

theorem RawString.places (h : RawString opening ending input d body) :
    RawStringAt opening ending input d body := by
  obtain ⟨hdelim, hbody, hcloses⟩ := rawStringText_prefix_iff.mp h.text
  obtain ⟨hopen, hd, hnext⟩ := delim_prefix_iff.mp hdelim
  refine ⟨hopen, hd, ⟨hnext, fun j hj hp => ?_⟩, hbody, ⟨hcloses, fun j hj hp => ?_⟩⟩
  · have hlen : ((input.drop opening.length).take j).length = j := by
      rw [List.length_take, Nat.min_eq_left (hj.le.trans hd.length_le)]
    have hle := h.delim_first ((input.drop opening.length).take j)
      (delim_prefix_iff.mpr ⟨hopen, List.take_prefix _ _, hlen.symm ▸ hp⟩)
    omega
  · have hlen : ((input.drop (opening ++ d ++ opening).length).take j).length = j := by
      rw [List.length_take, Nat.min_eq_left (hj.le.trans hbody.length_le)]
    have hle := h.body_shortest ((input.drop (opening ++ d ++ opening).length).take j)
      (rawStringText_prefix_iff.mpr ⟨hdelim, List.take_prefix _ _, hlen.symm ▸ hp⟩)
    omega

theorem RawStringAt.rawString (h : RawStringAt opening ending input d body) :
    RawString opening ending input d body := by
  have hdelim := delim_prefix_iff.mpr ⟨h.opens, h.delim_prefix, h.delim_first.1⟩
  refine ⟨rawStringText_prefix_iff.mpr ⟨hdelim, h.body_prefix, h.body_first.1⟩, fun d' hd' => ?_,
    fun body' hbody' => ?_⟩
  · by_contra hlt
    exact h.delim_first.2 _ (Nat.not_le.mp hlt) (delim_prefix_iff.mp hd').2.2
  · by_contra hlt
    exact h.body_first.2 _ (Nat.not_le.mp hlt) (rawStringText_prefix_iff.mp hbody').2.2

theorem RawString.unique {d' body' : List UInt8} (h : RawString opening ending input d body)
    (h' : RawString opening ending input d' body') : d = d' ∧ body = body' := by
  have hd : d = d' := by
    rw [List.prefix_iff_eq_take.mp h.places.delim_prefix,
      List.prefix_iff_eq_take.mp h'.places.delim_prefix,
      h.places.delim_first.unique h'.places.delim_first]
  subst hd
  refine ⟨rfl, ?_⟩
  rw [List.prefix_iff_eq_take.mp h.places.body_prefix,
    List.prefix_iff_eq_take.mp h'.places.body_prefix,
    h.places.body_first.unique h'.places.body_first]

/-- The text of a raw string alone begins with the same raw string. -/
theorem RawString.alone (h : RawString opening ending input d body) :
    RawString opening ending (rawStringText opening ending d body) d body :=
  ⟨List.prefix_refl _, fun d' hd' => h.delim_first d' (hd'.trans h.text),
    fun body' hb => h.body_shortest body' (hb.trans h.text)⟩

/-! The loops. -/

theorem rawStringDelim_first (opening : List UInt8) (cstr restLen : Nat) :
    rawStringDelim mem opening cstr restLen < restLen ∧
        FirstAt opening (bytesAt mem cstr restLen) (rawStringDelim mem opening cstr restLen) ∨
      rawStringDelim mem opening cstr restLen = restLen ∧
        ∀ k < restLen, ¬opening <+: (bytesAt mem cstr restLen).drop k := by
  induction restLen generalizing cstr with
  | zero => exact Or.inr ⟨rfl, fun k hk => absurd hk (Nat.not_lt_zero k)⟩
  | succ restLen ih =>
    by_cases hm : opening <+: bytesAt mem cstr (restLen + 1)
    · have hzero : rawStringDelim mem opening cstr (restLen + 1) = 0 :=
        if_pos ((fklCharBufMatch_iff _ _ _).mpr hm)
      rw [hzero]
      exact Or.inl ⟨Nat.succ_pos restLen, firstAt_zero hm⟩
    · have hsucc : rawStringDelim mem opening cstr (restLen + 1) =
          rawStringDelim mem opening (cstr + 1) restLen + 1 :=
        if_neg (mt (fklCharBufMatch_iff _ _ _).mp hm)
      rw [hsucc]
      rw [bytesAt_succ] at hm ⊢
      rcases ih (cstr + 1) with ⟨hlt, hfirst⟩ | ⟨hend, hnone⟩
      · exact Or.inl ⟨Nat.succ_lt_succ hlt, firstAt_succ hm hfirst⟩
      · refine Or.inr ⟨congrArg Nat.succ hend, fun k hk => ?_⟩
        cases k with
        | zero => exact hm
        | succ k => exact hnone k (Nat.lt_of_succ_lt_succ hk)

theorem rawStringEndsAt_iff (ending delim : List UInt8) (cstr restLen : Nat) :
    rawStringEndsAt mem ending delim cstr restLen = true ↔
      ending ++ delim ++ ending <+: bytesAt mem cstr restLen := by
  unfold rawStringEndsAt
  rw [Bool.and_eq_true, Bool.and_eq_true, fklCharBufMatch_iff, fklCharBufMatch_iff,
    fklCharBufMatch_iff, append_prefix_iff, append_prefix_iff, drop_bytesAt, drop_bytesAt,
    List.length_append, ← Nat.add_assoc, Nat.sub_sub]

theorem not_prefix_of_lt {a s : List UInt8} (h : s.length < a.length) (k : Nat) :
    ¬a <+: s.drop k := by
  intro hp
  have hle := hp.length_le
  rw [List.length_drop] at hle
  omega

theorem rawStringEnd_first (ending delim : List UInt8) (cstr restLen : Nat) :
    match rawStringEnd mem ending delim cstr restLen with
    | some len => ∃ k, len = k + (ending ++ delim ++ ending).length ∧
        FirstAt (ending ++ delim ++ ending) (bytesAt mem cstr restLen) k
    | none => ∀ k, ¬ending ++ delim ++ ending <+: (bytesAt mem cstr restLen).drop k := by
  have htotal : (ending ++ delim ++ ending).length =
      ending.length + delim.length + ending.length := by
    rw [List.length_append, List.length_append]
  induction restLen generalizing cstr with
  | zero =>
    rw [rawStringEnd]
    split_ifs with hlt hends
    · exact not_prefix_of_lt (by rw [length_bytesAt, htotal]; exact hlt)
    · exact ⟨0, by rw [htotal, Nat.zero_add], firstAt_zero ((rawStringEndsAt_iff _ _ _ _).mp hends)⟩
    · intro k hk
      rw [rawStringEndsAt_iff] at hends
      exact hends (by simpa [bytesAt] using hk)
  | succ restLen ih =>
    rw [rawStringEnd]
    split_ifs with hlt hends
    · exact not_prefix_of_lt (by rw [length_bytesAt, htotal]; exact hlt)
    · exact ⟨0, by rw [htotal, Nat.zero_add], firstAt_zero ((rawStringEndsAt_iff _ _ _ _).mp hends)⟩
    · rw [rawStringEndsAt_iff, bytesAt_succ] at hends
      have hrest := ih (cstr + 1)
      cases hE : rawStringEnd mem ending delim (cstr + 1) restLen with
      | none =>
        rw [hE] at hrest
        intro k hk
        rw [bytesAt_succ] at hk
        cases k with
        | zero => exact hends hk
        | succ k => exact hrest k hk
      | some len =>
        rw [hE] at hrest
        obtain ⟨k, rfl, hfirst⟩ := hrest
        rw [bytesAt_succ]
        exact ⟨k + 1, Nat.add_right_comm k _ 1, firstAt_succ hends hfirst⟩

/-! Input that goes on. -/

/-- `input` is a proper prefix of the text of a raw string. -/
def RawStringGoesOn (opening ending input : List UInt8) : Prop :=
  ∃ more d body, more ≠ [] ∧ input ++ more = rawStringText opening ending d body ∧
    RawString opening ending (input ++ more) d body

theorem RawString.goesOn {u : List UInt8} (h : RawString opening ending (input ++ u) d body)
    (hlt : input.length < (rawStringText opening ending d body).length) :
    RawStringGoesOn opening ending input := by
  obtain ⟨more, hmore⟩ := List.prefix_of_prefix_length_le (List.prefix_append input u) h.text hlt.le
  refine ⟨more, d, body, ?_, hmore, hmore ▸ h.alone⟩
  intro hnil
  rw [← hmore, hnil, List.append_nil] at hlt
  exact Nat.lt_irrefl _ hlt

theorem length_rawStringText : (rawStringText opening ending d body).length =
    (opening ++ d ++ opening).length + body.length + (ending ++ d ++ ending).length := by
  rw [rawStringText, List.length_append, List.length_append]

/-- The delimiter has been read, and its closing delimiter comes. -/
theorem rawString_of_closing {k : Nat} (hdelim : opening ++ d ++ opening <+: input)
    (hfirst : FirstAt opening (input.drop opening.length) d.length)
    (hclose : FirstAt (ending ++ d ++ ending) (input.drop (opening ++ d ++ opening).length) k) :
    ∃ body, body.length = k ∧ RawString opening ending input d body := by
  have hlen : ((input.drop (opening ++ d ++ opening).length).take k).length = k := by
    rw [List.length_take, Nat.min_eq_left hclose.le_length]
  have hd := (delim_prefix_iff.mp hdelim).2.1
  exact ⟨_, hlen,
    RawStringAt.rawString ⟨(delim_prefix_iff.mp hdelim).1, hd, hfirst, List.take_prefix _ _,
    hlen.symm ▸ hclose⟩⟩

/-- The delimiter has been read, and its closing delimiter does not come. -/
theorem goesOn_of_delim (hdelim : opening ++ d ++ opening <+: input)
    (hfirst : FirstAt opening (input.drop opening.length) d.length)
    (hnone : ∀ k, ¬ending ++ d ++ ending <+: (input.drop (opening ++ d ++ opening).length).drop k) :
    RawStringGoesOn opening ending input := by
  have hbehind : (input ++ (ending ++ d ++ ending)).drop (opening ++ d ++ opening).length =
      input.drop (opening ++ d ++ opening).length ++ (ending ++ d ++ ending) :=
    List.drop_append_of_le_length hdelim.length_le
  have hat : ending ++ d ++ ending <+: ((input ++ (ending ++ d ++ ending)).drop
      (opening ++ d ++ opening).length).drop
        (input.drop (opening ++ d ++ opening).length).length := by
    rw [hbehind, List.drop_left]
  obtain ⟨k, hk, hclose⟩ := exists_firstAt hat
  have hfirst' : FirstAt opening ((input ++ (ending ++ d ++ ending)).drop opening.length)
      d.length := by
    rw [List.drop_append_of_le_length (delim_prefix_iff.mp hdelim).1.length_le]
    exact hfirst.append _
  obtain ⟨body, rfl, hraw⟩ := rawString_of_closing (hdelim.trans (List.prefix_append _ _))
    hfirst' hclose
  apply hraw.goesOn
  rw [length_rawStringText]
  by_contra hle
  have hlen := hdelim.length_le
  have hrest : (input.drop (opening ++ d ++ opening).length).length =
      input.length - (opening ++ d ++ opening).length := List.length_drop
  rw [hbehind] at hclose
  exact hnone _ ((prefix_drop_append _ (by omega)).mp hclose.1)

theorem RawStringGoesOn.shorter {u : List UInt8} (h : RawStringGoesOn opening ending (input ++ u)) :
    RawStringGoesOn opening ending input := by
  obtain ⟨more, d, body, hne, htext, hraw⟩ := h
  rw [List.append_assoc] at htext hraw
  exact ⟨u ++ more, d, body, by simp [hne], htext, hraw⟩

theorem no_rawString_of_opening (hne : input ≠ [])
    (hnone : ∀ k < input.length - opening.length, ¬opening <+: (input.drop opening.length).drop k) :
    ¬RawString opening ending input d body := by
  intro h
  have hlen := h.places.delim_first.1.length_le
  have hle := h.places.opens.length_le
  rw [List.length_drop, List.length_drop] at hlen
  by_cases hnil : opening = []
  · subst hnil
    exact hnone 0 (List.length_pos_iff.mpr hne) List.nil_prefix
  · have hpos := List.length_pos_iff.mpr hnil
    exact hnone d.length (by omega) h.places.delim_first.1

/-- The delimiter goes on to the end of the input. -/
theorem goesOn_of_opening (hne : input ≠ []) (hopen : opening <+: input)
    (hnone : ∀ k < input.length - opening.length, ¬opening <+: (input.drop opening.length).drop k) :
    RawStringGoesOn opening ending input := by
  obtain ⟨t, rfl⟩ := hopen
  rw [List.drop_left, List.length_append, Nat.add_sub_cancel_left] at hnone
  have hat : opening <+: (t ++ opening).drop t.length := by rw [List.drop_left]
  obtain ⟨n, hn, hfirst⟩ := exists_firstAt hat
  have hlen : (t.take n).length = n := by rw [List.length_take, Nat.min_eq_left hn]
  have hdrop : ((opening ++ t) ++ opening).drop opening.length = t ++ opening := by
    rw [List.append_assoc, List.drop_left]
  have hfirst' : FirstAt opening (((opening ++ t) ++ opening).drop opening.length)
      (t.take n).length := by rwa [hdrop, hlen]
  have hdelim : opening ++ t.take n ++ opening <+: (opening ++ t) ++ opening := by
    rw [delim_prefix_iff]
    refine ⟨⟨t ++ opening, by simp⟩, ?_, hfirst'.1⟩
    rw [hdrop]
    exact (List.take_prefix n t).trans (List.prefix_append t opening)
  -- the second opening ends behind the input
  have hbehind : (opening ++ t).length < (opening ++ t.take n ++ opening).length := by
    rw [List.length_append, List.length_append, List.length_append, hlen]
    rcases Nat.lt_or_ge n t.length with hlt | hge
    · by_contra hle
      exact hnone n hlt ((prefix_drop_append opening (by omega)).mp hfirst.1)
    · have hpos : opening ≠ [] := by
        rintro rfl
        cases t with
        | nil => exact hne rfl
        | cons c t => exact hnone 0 (Nat.succ_pos _) (List.nil_prefix)
      have := List.length_pos_iff.mpr hpos
      omega
  by_cases hclose : ∃ k, ending ++ t.take n ++ ending <+:
      (((opening ++ t) ++ opening).drop (opening ++ t.take n ++ opening).length).drop k
  · obtain ⟨k, hk⟩ := hclose
    obtain ⟨j, -, hj⟩ := exists_firstAt hk
    obtain ⟨body, -, hraw⟩ := rawString_of_closing hdelim hfirst' hj
    apply hraw.goesOn
    rw [length_rawStringText]
    omega
  · exact (goesOn_of_delim hdelim hfirst' (not_exists.mp hclose)).shorter

/-! The terminal. -/

variable (mem)

/-- What the terminal finds, and whether it waits for more. -/
structure RawStringFound (opening ending input : List UInt8) (found : Option Nat) (waits : Bool) :
    Prop where
  accepts : ∀ len, found = some len ↔ input ≠ [] ∧ ∃ d body,
    RawString opening ending input d body ∧ len = (rawStringText opening ending d body).length
  waiting : waits = true → found = none ∧ RawStringGoesOn opening ending input

theorem RawStringFound.matched (hne : input ≠ []) (h : RawString opening ending input d body) :
    RawStringFound opening ending input (some (rawStringText opening ending d body).length)
      false := by
  refine ⟨fun len => ⟨?_, ?_⟩, by simp⟩
  · intro hlen
    exact ⟨hne, d, body, h, (Option.some.inj hlen).symm⟩
  · rintro ⟨-, d', body', h', rfl⟩
    obtain ⟨rfl, rfl⟩ := h.unique h'
    rfl

theorem RawStringFound.nothing {waits : Bool}
    (h : input ≠ [] → ∀ d body, ¬RawString opening ending input d body)
    (hwaits : waits = true → RawStringGoesOn opening ending input) :
    RawStringFound opening ending input none waits := by
  refine ⟨fun len => ⟨nofun, ?_⟩, fun hw => ⟨rfl, hwaits hw⟩⟩
  rintro ⟨hne, d, body, hraw, -⟩
  exact absurd hraw (h hne d body)

/-- What follows the delimiter. -/
theorem rawStringFound_of_delim (ending : List UInt8) {cstr restLen : Nat}
    (hne : bytesAt mem cstr restLen ≠ [])
    (hdelim : opening ++ d ++ opening <+: bytesAt mem cstr restLen)
    (hfirst : FirstAt opening ((bytesAt mem cstr restLen).drop opening.length) d.length) :
    match rawStringEnd mem ending d (cstr + (opening ++ d ++ opening).length)
      (restLen - (opening ++ d ++ opening).length) with
    | some len => RawStringFound opening ending (bytesAt mem cstr restLen)
        (some ((opening ++ d ++ opening).length + len)) false
    | none => RawStringFound opening ending (bytesAt mem cstr restLen) none true := by
  have hend := @rawStringEnd_first mem ending d (cstr + (opening ++ d ++ opening).length)
    (restLen - (opening ++ d ++ opening).length)
  rw [← drop_bytesAt] at hend
  cases hE : rawStringEnd mem ending d (cstr + (opening ++ d ++ opening).length)
      (restLen - (opening ++ d ++ opening).length) with
  | none =>
    rw [hE] at hend
    apply RawStringFound.nothing
    · intro _ d' body h
      have hsame : d = d' := by
        rw [List.prefix_iff_eq_take.mp (delim_prefix_iff.mp hdelim).2.1,
          List.prefix_iff_eq_take.mp h.places.delim_prefix, hfirst.unique h.places.delim_first]
      subst hsame
      exact hend _ h.places.body_first.1
    · exact fun _ => goesOn_of_delim hdelim hfirst hend
  | some len =>
    rw [hE] at hend
    obtain ⟨k, rfl, hclose⟩ := hend
    obtain ⟨body, rfl, hraw⟩ := rawString_of_closing hdelim hfirst hclose
    dsimp only
    rw [← Nat.add_assoc, ← length_rawStringText]
    exact RawStringFound.matched hne hraw

theorem rawStringMatch_right (opening : List UInt8) (args : List (List UInt8)) (cstr restLen : Nat)
    (r : MatchRun) :
    ∃ found waits, rawStringMatch mem (opening :: args) cstr restLen r =
        .ok (found, { r with isWaitingForMore := r.isWaitingForMore || waits }) ∧
      RawStringFound opening (args.headD opening) (bytesAt mem cstr restLen) found waits := by
  have hno : r = { r with isWaitingForMore := r.isWaitingForMore || false } := by
    rw [Bool.or_false]
  unfold rawStringMatch
  dsimp only
  split_ifs with hrest hopen hdelim
  · refine ⟨none, false, congrArg (fun r => Except.ok (none, r)) hno, RawStringFound.nothing ?_ nofun⟩
    subst hrest
    exact fun h => absurd rfl h
  · refine ⟨none, false, congrArg (fun r => Except.ok (none, r)) hno, RawStringFound.nothing ?_ nofun⟩
    rw [Bool.not_eq_true', ← Bool.not_eq_true, fklCharBufMatch_iff] at hopen
    exact fun _ d body h => hopen h.places.opens
  all_goals
    rw [Bool.not_eq_true', Bool.not_eq_false, fklCharBufMatch_iff] at hopen
    have hne : bytesAt mem cstr restLen ≠ [] := by
      rw [← List.length_pos_iff, length_bytesAt]
      exact Nat.pos_of_ne_zero hrest
    have hfirst := @rawStringDelim_first mem opening (cstr + opening.length)
      (restLen - opening.length)
    rw [← drop_bytesAt] at hfirst
  · rcases hfirst with ⟨hlt, -⟩ | ⟨-, hnone⟩
    · omega
    · have hnone : ∀ k < (bytesAt mem cstr restLen).length - opening.length,
          ¬opening <+: ((bytesAt mem cstr restLen).drop opening.length).drop k := by
        rwa [length_bytesAt]
      exact ⟨none, true, rfl, RawStringFound.nothing
        (fun _ _ _ => no_rawString_of_opening hne hnone) fun _ => goesOn_of_opening hne hopen hnone⟩
  · rcases hfirst with ⟨hlt, hfirst⟩ | ⟨hend, -⟩
    · generalize rawStringDelim mem opening (cstr + opening.length) (restLen - opening.length) = n
        at hlt hfirst ⊢
      have hd : (List.range n).map (fun i => mem (cstr + opening.length + i)) =
          ((bytesAt mem cstr restLen).drop opening.length).take n := by
        rw [drop_bytesAt, take_bytesAt hlt.le, bytesAt]
      rw [hd]
      generalize hd' : ((bytesAt mem cstr restLen).drop opening.length).take n = d
      have hlen : d.length = n := by
        rw [← hd', List.length_take, Nat.min_eq_left hfirst.le_length]
      rw [← hlen] at hfirst
      have hdelim : opening ++ d ++ opening <+: bytesAt mem cstr restLen :=
        delim_prefix_iff.mpr ⟨hopen, hd' ▸ List.take_prefix _ _, hfirst.1⟩
      have hmatchLen : opening.length + n + opening.length = (opening ++ d ++ opening).length := by
        rw [List.length_append, List.length_append, hlen]
      have hfound := rawStringFound_of_delim mem (args.headD opening) hne hdelim hfirst
      rw [hmatchLen]
      cases hE : rawStringEnd mem (args.headD opening) d
          (cstr + (opening ++ d ++ opening).length)
          (restLen - (opening ++ d ++ opening).length) with
      | none =>
        rw [hE] at hfound
        exact ⟨none, true, rfl, hfound⟩
      | some len =>
        rw [hE] at hfound
        exact ⟨_, false, congrArg (fun r => Except.ok (some _, r)) hno, hfound⟩
    · omega

/-- The bytes of `(a(b(x)a(b)`. -/
def twoOpenings : Memory := fun i => [40, 97, 40, 98, 40, 120, 41, 97, 40, 98, 41].getD i 0

/-- With `a(b` as the text of the delimiter this is a raw string between `(` and `)`. -/
theorem rawStringMatch_waits_for_inner : ∃ d body,
    bytesAt twoOpenings 0 11 = rawStringText [40] [41] d body ∧
      rawStringMatch twoOpenings [[40], [41]] 0 11 ⟨⟨0, 0, 0⟩, false⟩ =
        .ok (none, ⟨⟨0, 0, 0⟩, true⟩) :=
  ⟨[97, 40, 98], [120], rfl, rfl⟩

end FakeLisp
