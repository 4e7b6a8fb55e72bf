import FakeLisp.Lr1States

/-! The places in a production that the items of a state can have. -/

namespace FakeLisp

theorem CompLaid.tail {s : FklGrammerSym} {syms : List FklGrammerSym} (h : CompLaid (s :: syms)) :
    CompLaid (syms.drop s.compLen) := by
  cases h with
  | sym hs h =>
    cases s with
    | comp parts => exact absurd rfl (hs parts)
    | _ => exact h
  | comp parts h =>
    have hlen : (FklGrammerSym.comp parts).compLen = (parts.map FklCompPart.sym).length := by
      simp [FklGrammerSym.compLen]
    rw [hlen, List.drop_left]
    exact h

namespace FklLalrItem

variable {item : FklLalrItem} {s : FklGrammerSym}

/-- What stands before the place in the array when the next symbol is `s`. -/
theorem drop_of_getItemNext (h : item.getItemNext = some s) :
    ∃ syms, item.prod.syms.drop item.idx =
      (if item.isAtDelimSym then [FklGrammerSym.ignore] else []) ++ s :: syms := by
  unfold getItemNext at h
  split_ifs at h with hlen hdelim
  · obtain ⟨hlt, hget⟩ := List.getElem?_eq_some_iff.mp h
    have hignore : item.prod.syms[item.idx]? = some .ignore := by
      simp only [isAtDelimSym, decide_eq_true_eq] at hdelim
      exact hdelim.1
    obtain ⟨hlt', hget'⟩ := List.getElem?_eq_some_iff.mp hignore
    refine ⟨item.prod.syms.drop (item.idx + 2), ?_⟩
    rw [List.drop_eq_getElem_cons hlt', List.drop_eq_getElem_cons hlt, hget, hget', if_pos hdelim]
    rfl
  · obtain ⟨hlt, hget⟩ := List.getElem?_eq_some_iff.mp h
    refine ⟨item.prod.syms.drop (item.idx + 1), ?_⟩
    rw [List.drop_eq_getElem_cons hlt, hget, if_neg hdelim]
    rfl

theorem getItemAdvance_drop (h : item.getItemNext = some s) {syms : List FklGrammerSym}
    (hdrop : item.prod.syms.drop item.idx =
      (if item.isAtDelimSym then [FklGrammerSym.ignore] else []) ++ s :: syms) :
    item.prod.syms.drop item.getItemAdvance.idx = syms.drop s.compLen := by
  have hidx : item.prod.syms.drop item.getItemAdvance.idx =
      (item.prod.syms.drop item.idx).drop ((if item.isAtDelimSym then 2 else 1) + s.compLen) := by
    simp only [getItemAdvance, h, List.drop_drop]
  rw [hidx, hdrop]
  split
  · simp [← List.drop_drop]
  · simp [← List.drop_drop]

theorem drop_of_complete (h : item.getItemNext = none) : item.prod.syms.drop item.idx = [] := by
  apply List.drop_eq_nil_of_le
  unfold getItemNext at h
  split_ifs at h with hlen hdelim
  · exact hlen
  · simp only [isAtDelimSym, decide_eq_true_eq] at hdelim
    rw [List.getElem?_eq_none_iff] at h
    omega
  · exact List.getElem?_eq_none_iff.mp h

/-- The place after a number of advances. -/
def placeAfter (prod : FklGrammerProduction) : Nat → Nat
  | 0 => 0
  | n + 1 => (init prod (placeAfter prod n)).getItemAdvance.idx

theorem placeAfter_strictMono (prod : FklGrammerProduction) : StrictMono (placeAfter prod) :=
  strictMono_nat_of_lt_succ fun n => (init prod (placeAfter prod n)).idx_lt_getItemAdvance

theorem placeAfter_succ {n : Nat} (h : placeAfter item.prod n = item.idx) :
    placeAfter item.prod (n + 1) = item.getItemAdvance.idx := by
  have hadvance := congrArg idx item.getItemAdvance_core
  rw [placeAfter, h]
  exact hadvance

def OnWay (item : FklLalrItem) : Prop := ∃ n, placeAfter item.prod n = item.idx

theorem onWay_init (prod : FklGrammerProduction) (la : FklLalrItemLookAhead) :
    OnWay ⟨prod, 0, la⟩ := ⟨0, rfl⟩

theorem OnWay.advance (h : item.OnWay) : item.getItemAdvance.OnWay := by
  obtain ⟨n, hn⟩ := h
  refine ⟨n + 1, ?_⟩
  rw [getItemAdvance_prod, placeAfter_succ hn]

/-- Between a place and the next one there is none. -/
theorem OnWay.advance_le {item' : FklLalrItem} (h : item.OnWay) (h' : item'.OnWay)
    (hprod : item.prod = item'.prod) (hlt : item.idx < item'.idx) :
    item.getItemAdvance.idx ≤ item'.idx := by
  obtain ⟨n, hn⟩ := h
  obtain ⟨m, hm⟩ := h'
  rw [← hprod] at hm
  have hmono := placeAfter_strictMono item.prod
  have hnm : n < m := hmono.lt_iff_lt.mp (by omega)
  rw [← placeAfter_succ hn, ← hm]
  exact hmono.monotone hnm

theorem laid_advance (h : CompLaid (item.prod.syms.drop item.idx)) :
    CompLaid (item.prod.syms.drop item.getItemAdvance.idx) := by
  cases hnext : item.getItemNext with
  | none =>
    have hle := List.drop_eq_nil_iff.mp (drop_of_complete hnext)
    rw [List.drop_eq_nil_of_le (hle.trans item.idx_lt_getItemAdvance.le)]
    exact .nil
  | some s =>
    obtain ⟨syms, hdrop⟩ := drop_of_getItemNext hnext
    rw [getItemAdvance_drop hnext hdrop]
    rw [hdrop] at h
    split at h
    · exact h.tail.tail
    · exact h.tail

theorem OnWay.laid (h : item.OnWay) : CompLaid (item.prod.syms.drop item.idx) := by
  obtain ⟨n, hn⟩ := h
  rw [← hn]
  clear hn
  induction n with
  | zero => exact item.prod.laid
  | succ n ih =>
    have hinit : CompLaid ((init item.prod (placeAfter item.prod n)).prod.syms.drop
        (init item.prod (placeAfter item.prod n)).idx) := ih
    exact laid_advance hinit

/-- Items that go on with one symbol to one place do so from the same. -/
theorem OnWay.isAtDelimSym_eq {item' : FklLalrItem} (h : item.OnWay) (h' : item'.OnWay)
    (hprod : item.prod = item'.prod) (hs : item.getItemNext = some s)
    (hs' : item'.getItemNext = some s) (hidx : item.getItemAdvance.idx = item'.getItemAdvance.idx) :
    item.isAtDelimSym = item'.isAtDelimSym := by
  have hadvance : item.getItemAdvance.idx =
      item.idx + ((if item.isAtDelimSym then 2 else 1) + s.compLen) :=
    congrArg idx (getItemAdvance_eq (l := ⟨s, false, _⟩) ⟨hs, rfl⟩)
  have hadvance' : item'.getItemAdvance.idx =
      item'.idx + ((if item'.isAtDelimSym then 2 else 1) + s.compLen) :=
    congrArg idx (getItemAdvance_eq (l := ⟨s, false, _⟩) ⟨hs', rfl⟩)
  have hle := h.advance_le h' hprod
  have hle' := h'.advance_le h hprod.symm
  by_contra hne
  cases hd : item.isAtDelimSym with
  | false =>
    have hd' : item'.isAtDelimSym = true := by simpa [hd] using hne
    rw [hd] at hadvance
    rw [hd'] at hadvance'
    simp only [Bool.false_eq_true, if_false, if_true] at hadvance hadvance'
    omega
  | true =>
    have hd' : item'.isAtDelimSym = false := by simpa [hd] using hne
    rw [hd] at hadvance
    rw [hd'] at hadvance'
    simp only [Bool.false_eq_true, if_false, if_true] at hadvance hadvance'
    omega

end FklLalrItem

namespace FklGrammer

variable {g : FklGrammer} {extra : FklGrammerProduction} {K : Set FklLalrItem}
  {item : FklLalrItem}

theorem LrClosure.onWay (hK : ∀ x ∈ K, x.OnWay) (h : g.LrClosure K item) : item.OnWay := by
  cases h with
  | base h => exact hK _ h
  | prod _ _ _ => exact FklLalrItem.onWay_init _ _

theorem LrState.onWay (h : g.LrState extra K) : ∀ x ∈ K, x.OnWay := by
  induction h with
  | start =>
    rintro x rfl
    exact FklLalrItem.onWay_init _ _
  | goto _ _ _ ih =>
    rintro _ ⟨x, hx, _, _, rfl⟩
    exact (hx.onWay ih).advance

/-- A set that an item of the closure is taken to over its symbol is the one for it. -/
theorem LrState.isAtDelimSym_eq (h : g.LrState extra K) (hitem : g.LrClosure K item)
    {s : FklGrammerSym} (hs : item.getItemNext = some s) {isAtDelim : Bool}
    (hgoto : item.getItemAdvance ∈ g.gotoSet K s isAtDelim) : item.isAtDelimSym = isAtDelim := by
  obtain ⟨x, hx, hs', rfl, hadvance⟩ := hgoto
  refine (hitem.onWay h.onWay).isAtDelimSym_eq (hx.onWay h.onWay) ?_ hs hs'
    (congrArg FklLalrItem.idx hadvance.symm)
  have hprod := congrArg FklLalrItem.prod hadvance
  simpa using hprod.symm

end FklGrammer

end FakeLisp
