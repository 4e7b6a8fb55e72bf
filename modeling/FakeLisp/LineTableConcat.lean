import FakeLisp.LineTable

/-! Two byte codes with line tables are joined: the second table is moved behind the first code,
and its first entry is dropped where it says what the last entry of the first says. `ls` is the
length of the list `l`, and has no bound of `uint32_t` here. -/

namespace FakeLisp.LineTable

/-- The first table with the moved second one behind it. -/
def joinTables (fl sl : List FklLntItem) : Option (List FklLntItem) := do
  let last ← fl.getLast?
  let first ← sl.head?
  if last.info = first.info then some (fl ++ sl.tail) else some (fl ++ sl)

/-- Both codes after the call: the entries of the second one are moved in place. -/
def fklCodeLntConcat (f s : FklByteCodelnt) : Option (FklByteCodelnt × FklByteCodelnt) :=
  if s.bc.length = 0 then some (f, s)
  else if f.l = [] then
    let sl := s.l.take 1 ++ increaseAllScp (s.l.drop 1) f.bc.length
    some (⟨sl, f.bc ++ s.bc⟩, ⟨sl, s.bc⟩)
  else do
    let sl := increaseAllScp s.l f.bc.length
    let l ← joinTables f.l sl
    some (⟨l, f.bc ++ s.bc⟩, ⟨sl, s.bc⟩)

/-- The second code after the call. -/
def fklCodeLntReverseConcat (f s : FklByteCodelnt) : Option FklByteCodelnt :=
  if f.bc.length = 0 then some s
  else if s.l = [] then some ⟨f.l, f.bc ++ s.bc⟩
  else do
    let l ← joinTables f.l (increaseAllScp s.l f.bc.length)
    some ⟨l, f.bc ++ s.bc⟩

/-- The joined code has the words and the lines of both. -/
structure Joins (f s fs : FklByteCodelnt) : Prop where
  words : fs.bc = f.bc ++ s.bc
  valid : ValidTable fs.l
  first : ∀ cp < f.bc.length, SameLine fs.l cp f.l cp
  second : ∀ cp < s.bc.length, SameLine fs.l (f.bc.length + cp) s.l cp

/-- Every entry of the table starts inside of the code. -/
def Inside (c : FklByteCodelnt) : Prop := ∀ x ∈ c.l, x.scp < c.bc.length

variable {f s : FklByteCodelnt} {fl sl l : List FklLntItem} {n cp : Nat}

theorem increaseAllScp_ge {x : FklLntItem} (h : x ∈ increaseAllScp t n) : n ≤ x.scp := by
  obtain ⟨y, _, rfl⟩ := List.mem_map.mp h
  exact Nat.le_add_left n y.scp

/-- What the join keeps: the whole second table, or all but an entry that the first one's last
entry stands for. -/
inductive JoinedTables (fl sl : List FklLntItem) : List FklLntItem → Prop where
  | apart : JoinedTables fl sl (fl ++ sl)
  | merged (last first : FklLntItem) (hlast : fl.getLast? = some last)
      (hfirst : sl.head? = some first) (hinfo : last.info = first.info) :
      JoinedTables fl sl (fl ++ sl.tail)

theorem joinTables_joined (hf : fl ≠ []) (hs : sl ≠ []) :
    ∃ l, joinTables fl sl = some l ∧ JoinedTables fl sl l := by
  have hlast := List.getLast?_eq_some_getLast hf
  have hfirst := List.head?_eq_some_head hs
  simp only [joinTables, hlast, hfirst, Option.bind_eq_bind, Option.bind_some]
  by_cases hinfo : (fl.getLast hf).info = (sl.head hs).info
  · exact ⟨_, if_pos hinfo, .merged _ _ hlast hfirst hinfo⟩
  · exact ⟨_, if_neg hinfo, .apart⟩

/-- The second table's part of the joined one. -/
theorem JoinedTables.eq_append (h : JoinedTables fl sl l) :
    ∃ u, l = fl ++ u ∧ u.Sublist sl := by
  cases h with
  | apart => exact ⟨sl, rfl, List.Sublist.refl sl⟩
  | merged => exact ⟨sl.tail, rfl, List.tail_sublist sl⟩

theorem JoinedTables.valid (h : JoinedTables fl (increaseAllScp sl n) l) (hf : ValidTable fl)
    (hs : Ascending sl) (hin : ∀ x ∈ fl, x.scp < n) : ValidTable l := by
  obtain ⟨u, rfl, hu⟩ := h.eq_append
  obtain ⟨x, rest, rfl, hx⟩ := hf.eq_cons
  refine ⟨by simpa using hx, ?_⟩
  apply List.pairwise_append.mpr
  refine ⟨hf.ascending, (hs.increaseAllScp n).sublist hu, ?_⟩
  intro y hy z hz
  exact (hin y hy).trans_le (increaseAllScp_ge (hu.subset hz))

theorem JoinedTables.lineAt_first (h : JoinedTables fl (increaseAllScp sl n) l) (hcp : cp < n) :
    lineAt l cp = lineAt fl cp := by
  obtain ⟨u, rfl, hu⟩ := h.eq_append
  have hnone : lineAt u cp = none :=
    lineAt_eq_none fun x hx => hcp.trans_le (increaseAllScp_ge (hu.subset hx))
  rw [lineAt_append, hnone, Option.none_or]

theorem JoinedTables.lineAt_second (h : JoinedTables fl (increaseAllScp sl n) l)
    (hs : ValidTable sl) (hin : ∀ x ∈ fl, x.scp < n) :
    (lineAt l (n + cp)).map FklLntItem.info = (lineAt sl cp).map FklLntItem.info := by
  have hmoved := lineAt_increaseAllScp sl n cp
  obtain ⟨x, rest, rfl, hx⟩ := hs.eq_cons
  have hcons : lineAt (x :: rest) cp = (lineAt rest cp).or (some x) := lineAt_cons (by omega)
  cases h with
  | apart =>
    rw [lineAt_append, hmoved, hcons]
    cases lineAt rest cp <;> rfl
  | merged last first hlast hfirst hinfo =>
    have hfirst' : lineAt fl (n + cp) = some last := by
      rw [lineAt_eq_getLast fun z hz => by have := hin z hz; omega, hlast]
    rw [lineAt_append, hfirst', hcons]
    have htail := lineAt_increaseAllScp rest n cp
    rw [show (increaseAllScp (x :: rest) n).tail = increaseAllScp rest n from rfl, htail]
    cases lineAt rest cp with
    | some z => rfl
    | none =>
      obtain rfl := Option.some.inj hfirst
      exact congrArg some hinfo

/-- The one function leaves the joined code in its first argument, the other in its second. -/
def ConcatJoins (f s : FklByteCodelnt) : Prop :=
  ∃ fs s', fklCodeLntConcat f s = some (fs, s') ∧ Joins f s fs ∧
    fklCodeLntReverseConcat f s = some fs

/-- An entry of the first table that starts behind its code comes to stand before entries of the
second table with smaller positions. -/
theorem concatJoins_behind_code :
    ValidTable [⟨1, 0, 1, 1⟩, ⟨1, 3, 2, 1⟩] ∧ ValidTable [⟨1, 0, 3, 1⟩] ∧
      ¬ ConcatJoins ⟨[⟨1, 0, 1, 1⟩, ⟨1, 3, 2, 1⟩], [0]⟩ ⟨[⟨1, 0, 3, 1⟩], [0]⟩ := by
  refine ⟨by decide, by decide, ?_⟩
  rintro ⟨fs, s', hconcat, hjoins, -⟩
  obtain rfl : ⟨[⟨1, 0, 1, 1⟩, ⟨1, 3, 2, 1⟩, ⟨1, 1, 3, 1⟩], [0, 0]⟩ = fs :=
    congrArg Prod.fst (Option.some.inj hconcat)
  exact absurd hjoins.valid (by decide)

theorem JoinedTables.joins (h : JoinedTables f.l (increaseAllScp s.l f.bc.length) l)
    (hf : ValidTable f.l) (hs : ValidTable s.l) (hin : Inside f) :
    Joins f s ⟨l, f.bc ++ s.bc⟩ := by
  have hl := h.valid hf hs.ascending hin
  refine ⟨rfl, hl, ?_, ?_⟩
  · intro cp hcp
    exact hl.sameLine hf (by rw [h.lineAt_first hcp])
  · intro cp _
    exact hl.sameLine hs (h.lineAt_second hs hin)

theorem increaseAllScp_ne_nil (h : sl ≠ []) : increaseAllScp sl n ≠ [] := by
  simpa [increaseAllScp] using h

/-- A code without words is left out of the joined one. -/
theorem Joins.nil (hf : ValidTable f.l) (hs : s.bc.length = 0) : Joins f s f := by
  refine ⟨by simp [List.length_eq_zero_iff.mp hs], hf, ?_, ?_⟩
  · intro cp _
    exact hf.sameLine hf rfl
  · intro cp hcp
    omega

theorem fklCodeLntConcat_joins (f s : FklByteCodelnt) (hf : ValidTable f.l) (hs : ValidTable s.l)
    (hin : Inside f) :
    ∃ fs s', fklCodeLntConcat f s = some (fs, s') ∧ Joins f s fs ∧
      (s.bc ≠ [] → fklCodeLntReverseConcat f s = some fs) := by
  unfold fklCodeLntConcat
  by_cases hslen : s.bc.length = 0
  · refine ⟨f, s, if_pos hslen, Joins.nil hf hslen, ?_⟩
    intro hne
    exact absurd (List.length_eq_zero_iff.mp hslen) hne
  · obtain ⟨l, hl, hjoined⟩ := joinTables_joined hf.ne_nil
      (increaseAllScp_ne_nil (n := f.bc.length) hs.ne_nil)
    have hflen : f.bc.length ≠ 0 := by
      obtain ⟨x, rest, heq, -⟩ := hf.eq_cons
      have := hin x (heq ▸ List.mem_cons_self)
      omega
    rw [if_neg hslen, if_neg hf.ne_nil]
    simp only [hl, Option.bind_eq_bind, Option.bind_some]
    refine ⟨_, _, rfl, hjoined.joins hf hs hin, ?_⟩
    intro _
    rw [fklCodeLntReverseConcat, if_neg hflen, if_neg hs.ne_nil, hl]
    rfl

/-- The entry at the seam is shared. -/
theorem fklCodeLntConcat_joins_seam :
    ∃ fs s', fklCodeLntConcat ⟨[⟨1, 0, 1, 1⟩, ⟨1, 1, 2, 1⟩], [0, 0]⟩ ⟨[⟨1, 0, 2, 1⟩], [1]⟩ =
        some (fs, s') ∧
      Joins ⟨[⟨1, 0, 1, 1⟩, ⟨1, 1, 2, 1⟩], [0, 0]⟩ ⟨[⟨1, 0, 2, 1⟩], [1]⟩ fs ∧
      (([1] : List FklIns) ≠ [] →
        fklCodeLntReverseConcat ⟨[⟨1, 0, 1, 1⟩, ⟨1, 1, 2, 1⟩], [0, 0]⟩ ⟨[⟨1, 0, 2, 1⟩], [1]⟩ =
          some fs) :=
  fklCodeLntConcat_joins ⟨[⟨1, 0, 1, 1⟩, ⟨1, 1, 2, 1⟩], [0, 0]⟩ ⟨[⟨1, 0, 2, 1⟩], [1]⟩
    (by decide) (by decide) (by simp [Inside])

end FakeLisp.LineTable
