import FakeLisp.Bytecode
import Mathlib.Data.List.Chain

/-! Line tables of byte codes: an entry holds from its position up to that of the next one.
`fklFindLntItem` searches them by halving, for the last entry that starts at or before a word. -/

namespace FakeLisp.LineTable

structure FklLntItem where
  fid : Nat
  scp : Nat
  line : Nat
  scope : Nat
  deriving DecidableEq

/-- What an entry says of its words. -/
structure LineInfo where
  line : Nat
  scope : Nat
  fid : Nat
  deriving DecidableEq

def FklLntItem.info (x : FklLntItem) : LineInfo := ⟨x.line, x.scope, x.fid⟩

/-- A table without entries is `NULL`. -/
structure FklByteCodelnt where
  l : List FklLntItem
  bc : List FklIns
  deriving DecidableEq

/-- The positions of a table ascend. -/
def Ascending (t : List FklLntItem) : Prop := t.Pairwise fun x y => x.scp < y.scp

instance (t : List FklLntItem) : Decidable (Ascending t) :=
  inferInstanceAs (Decidable (t.Pairwise _))

/-- A table that has entries, whose positions ascend from 0. -/
structure ValidTable (t : List FklLntItem) : Prop where
  starts : t.head?.map (·.scp) = some 0
  ascending : Ascending t

instance (t : List FklLntItem) : Decidable (ValidTable t) :=
  decidable_of_iff (t.head?.map (·.scp) = some 0 ∧ Ascending t)
    ⟨fun h => ⟨h.1, h.2⟩, fun h => ⟨h.1, h.2⟩⟩

/-- The loop of `fklFindLntItem`: nothing where it reads outside of the table or does not end,
`some none` for `NULL`. -/
def findLoop (cp : Nat) (t : List FklLntItem) : Nat → Int → Int → Option (Option Nat)
  | 0, _, _ => none
  | fuel + 1, l, h =>
    if l ≤ h then do
      let mid := l + (h - l) / 2
      let cur ← t[mid.toNat]?
      if cp < cur.scp then findLoop cp t fuel l (mid - 1)
      else if mid < t.length - 1 then do
        let next ← t[mid.toNat + 1]?
        if next.scp ≤ cp then findLoop cp t fuel (mid + 1) h else some (some mid.toNat)
      else some (some mid.toNat)
    else some none

/-- The index of the entry that it points to. -/
def fklFindLntItem (cp : Nat) (t : List FklLntItem) : Option (Option Nat) :=
  findLoop cp t (t.length + 1) 0 (t.length - 1)

/-- The line, the scope and the file that the search finds for a word. -/
def infoAt (t : List FklLntItem) (cp : Nat) : Option LineInfo := do
  let i ← (← fklFindLntItem cp t)
  let x ← t[i]?
  some x.info

/-- The last entry that starts at or before a word. -/
def lineAt (t : List FklLntItem) (cp : Nat) : Option FklLntItem :=
  (t.filter fun x => x.scp ≤ cp).getLast?

theorem lineAt_append (t u : List FklLntItem) (cp : Nat) :
    lineAt (t ++ u) cp = (lineAt u cp).or (lineAt t cp) := by
  simp [lineAt, List.filter_append, List.getLast?_append]

theorem lineAt_eq_none {t : List FklLntItem} {cp : Nat} (h : ∀ x ∈ t, cp < x.scp) :
    lineAt t cp = none := by
  have hnil : (t.filter fun x => x.scp ≤ cp) = [] :=
    List.filter_eq_nil_iff.mpr fun x hx => by simpa using h x hx
  simp [lineAt, hnil]

theorem lineAt_eq_getLast {t : List FklLntItem} {cp : Nat} (h : ∀ x ∈ t, x.scp ≤ cp) :
    lineAt t cp = t.getLast? := by
  have hall : (t.filter fun x => x.scp ≤ cp) = t :=
    List.filter_eq_self.mpr fun x hx => by simpa using h x hx
  rw [lineAt, hall]

theorem lineAt_cons {x : FklLntItem} {t : List FklLntItem} {cp : Nat} (h : x.scp ≤ cp) :
    lineAt (x :: t) cp = (lineAt t cp).or (some x) := by
  rw [← List.singleton_append, lineAt_append]
  simp [lineAt, h]

theorem Ascending.getElem_lt {t : List FklLntItem} (ht : Ascending t) {i j : Nat} {x y : FklLntItem}
    (hij : i < j) (hx : t[i]? = some x) (hy : t[j]? = some y) : x.scp < y.scp := by
  obtain ⟨hi, rfl⟩ := List.getElem?_eq_some_iff.mp hx
  obtain ⟨hj, rfl⟩ := List.getElem?_eq_some_iff.mp hy
  exact List.pairwise_iff_getElem.mp ht i j hi hj hij

/-- The entry of a word starts at or before it, while the next one does not. -/
structure EntryAt (t : List FklLntItem) (cp i : Nat) (x : FklLntItem) : Prop where
  entry : t[i]? = some x
  starts : x.scp ≤ cp
  next : ∀ y, t[i + 1]? = some y → cp < y.scp

theorem Ascending.lt_of_next {t : List FklLntItem} (ht : Ascending t) {i cp : Nat}
    (hnext : ∀ y, t[i]? = some y → cp < y.scp) {j : Nat} (hij : i ≤ j) {y : FklLntItem}
    (hy : t[j]? = some y) : cp < y.scp := by
  obtain ⟨hj, _⟩ := List.getElem?_eq_some_iff.mp hy
  have hi := List.getElem?_eq_getElem (show i < t.length by omega)
  rcases Nat.eq_or_lt_of_le hij with rfl | hlt
  · exact hnext y hy
  · exact (hnext _ hi).trans (ht.getElem_lt hlt hi hy)

theorem EntryAt.lineAt_eq {t : List FklLntItem} (ht : Ascending t) {cp i : Nat} {x : FklLntItem}
    (h : EntryAt t cp i x) : lineAt t cp = some x := by
  obtain ⟨hi, hx⟩ := List.getElem?_eq_some_iff.mp h.entry
  have hsplit : t = t.take i ++ x :: t.drop (i + 1) := by
    rw [← hx, List.cons_getElem_drop_succ, List.take_append_drop]
  have hrest : lineAt (t.drop (i + 1)) cp = none := by
    apply lineAt_eq_none
    intro y hy
    obtain ⟨k, hk⟩ := List.mem_iff_getElem?.mp hy
    rw [List.getElem?_drop] at hk
    exact ht.lt_of_next h.next (Nat.le_add_right _ k) hk
  rw [hsplit, lineAt_append, lineAt_cons h.starts, hrest]
  rfl

/-- The first entry of the search's interval starts at or before the word, the one after the
interval starts behind it. -/
structure SearchInv (t : List FklLntItem) (cp : Nat) (l h : Int) : Prop where
  l_nonneg : 0 ≤ l
  l_le : l ≤ h
  h_lt : h < t.length
  below : ∃ x, t[l.toNat]? = some x ∧ x.scp ≤ cp
  above : ∀ x, t[(h + 1).toNat]? = some x → cp < x.scp

theorem findLoop_entryAt {t : List FklLntItem} {cp : Nat} (fuel : Nat) {l h : Int}
    (hinv : SearchInv t cp l h) (hfuel : h + 1 - l < fuel) :
    ∃ i x, findLoop cp t fuel l h = some (some i) ∧ EntryAt t cp i x := by
  induction fuel generalizing l h with
  | zero =>
    have := hinv.l_le
    omega
  | succ fuel ih =>
    obtain ⟨hl0, hlh, hht, hbelow, habove⟩ := hinv
    obtain ⟨mid, hmid⟩ : ∃ mid, l + (h - l) / 2 = mid := ⟨_, rfl⟩
    have hm : l ≤ mid ∧ mid ≤ h := by omega
    obtain ⟨cur, hcur⟩ : ∃ cur, t[mid.toNat]? = some cur :=
      ⟨_, List.getElem?_eq_getElem (by omega)⟩
    unfold findLoop
    simp only [hlh, if_true, hmid, hcur, Option.bind_eq_bind, Option.bind_some]
    by_cases hlt : cp < cur.scp
    · rw [if_pos hlt]
      have hml : l ≤ mid - 1 := by
        by_contra hcon
        obtain rfl : l = mid := by omega
        obtain ⟨x, hx, hxcp⟩ := hbelow
        obtain rfl := Option.some.inj (hcur.symm.trans hx)
        omega
      apply ih _ (by omega)
      refine ⟨hl0, hml, by omega, hbelow, ?_⟩
      intro x hx
      rw [sub_add_cancel, hcur] at hx
      exact Option.some.inj hx ▸ hlt
    · rw [if_neg hlt]
      by_cases hend : mid < t.length - 1
      · obtain ⟨next, hnext⟩ : ∃ next, t[mid.toNat + 1]? = some next :=
          ⟨_, List.getElem?_eq_getElem (by omega)⟩
        have hsucc : (mid + 1).toNat = mid.toNat + 1 := by omega
        simp only [hend, if_true, hnext, Option.bind_some]
        by_cases hnle : next.scp ≤ cp
        · rw [if_pos hnle]
          have hmh : mid + 1 ≤ h := by
            by_contra hcon
            obtain rfl : mid = h := by omega
            have := habove next (by rw [hsucc, hnext])
            omega
          have hstart : t[(mid + 1).toNat]? = some next := by rw [hsucc, hnext]
          exact ih ⟨by omega, hmh, hht, ⟨next, hstart, hnle⟩, habove⟩ (by omega)
        · rw [if_neg hnle]
          refine ⟨_, cur, rfl, hcur, by omega, ?_⟩
          intro y hy
          obtain rfl := Option.some.inj (hnext.symm.trans hy)
          omega
      · rw [if_neg hend]
        refine ⟨_, cur, rfl, hcur, by omega, ?_⟩
        intro y hy
        obtain ⟨hylt, _⟩ := List.getElem?_eq_some_iff.mp hy
        omega

theorem ValidTable.eq_cons {t : List FklLntItem} (ht : ValidTable t) :
    ∃ x rest, t = x :: rest ∧ x.scp = 0 := by
  cases t with
  | nil => exact absurd ht.starts (by simp)
  | cons x rest => exact ⟨x, rest, rfl, by simpa using ht.starts⟩

theorem ValidTable.ne_nil {t : List FklLntItem} (ht : ValidTable t) : t ≠ [] := by
  obtain ⟨x, rest, rfl, -⟩ := ht.eq_cons
  exact List.cons_ne_nil x rest

theorem fklFindLntItem_entryAt {t : List FklLntItem} (ht : ValidTable t) (cp : Nat) :
    ∃ i x, fklFindLntItem cp t = some (some i) ∧ EntryAt t cp i x := by
  obtain ⟨x, rest, rfl, hx⟩ := ht.eq_cons
  apply findLoop_entryAt
  · refine ⟨le_refl _, by simp, by omega, ⟨x, rfl, by omega⟩, ?_⟩
    intro y hy
    obtain ⟨hlt, _⟩ := List.getElem?_eq_some_iff.mp hy
    omega
  · omega

theorem infoAt_eq {t : List FklLntItem} (ht : ValidTable t) (cp : Nat) :
    infoAt t cp = (lineAt t cp).map FklLntItem.info := by
  obtain ⟨i, x, hi, hx⟩ := fklFindLntItem_entryAt ht cp
  rw [infoAt, hi, hx.lineAt_eq ht.ascending]
  simp [hx.entry]

/-- Every word has a line. -/
theorem infoAt_isSome {t : List FklLntItem} (ht : ValidTable t) (cp : Nat) :
    ∃ n, infoAt t cp = some n := by
  obtain ⟨i, x, hi, hx⟩ := fklFindLntItem_entryAt ht cp
  exact ⟨x.info, by rw [infoAt, hi]; simp [hx.entry]⟩

/-- Both tables find a line for the word, and it is the same. -/
def SameLine (t : List FklLntItem) (cp : Nat) (u : List FklLntItem) (cp' : Nat) : Prop :=
  ∃ n, infoAt t cp = some n ∧ infoAt u cp' = some n

theorem ValidTable.sameLine {t u : List FklLntItem} {cp cp' : Nat} (ht : ValidTable t)
    (hu : ValidTable u)
    (h : (lineAt t cp).map FklLntItem.info = (lineAt u cp').map FklLntItem.info) :
    SameLine t cp u cp' := by
  obtain ⟨m, hm⟩ := infoAt_isSome hu cp'
  exact ⟨m, by rw [infoAt_eq ht, h, ← infoAt_eq hu, hm], hm⟩

/-- The entries of a table are moved, and the word with them. -/
theorem lineAt_map {g : FklLntItem → FklLntItem} {cp cp' : Nat}
    (hg : ∀ x, (g x).scp ≤ cp' ↔ x.scp ≤ cp) (t : List FklLntItem) :
    lineAt (t.map g) cp' = (lineAt t cp).map g := by
  have hfilter : ((fun x : FklLntItem => decide (x.scp ≤ cp')) ∘ g) =
      fun x => decide (x.scp ≤ cp) := by
    funext x
    simp [hg x]
  rw [lineAt, lineAt, List.filter_map, hfilter, List.getLast?_map]

/-- `FKL_INCREASE_ALL_SCP` -/
def increaseAllScp (t : List FklLntItem) (s : Nat) : List FklLntItem :=
  t.map fun x => { x with scp := x.scp + s }

theorem lineAt_increaseAllScp (t : List FklLntItem) (s cp : Nat) :
    lineAt (increaseAllScp t s) (s + cp) =
      (lineAt t cp).map fun x => { x with scp := x.scp + s } :=
  lineAt_map (fun x => by simp [Nat.add_comm s cp]) t

theorem Ascending.increaseAllScp {t : List FklLntItem} (ht : Ascending t) (s : Nat) :
    Ascending (increaseAllScp t s) :=
  List.pairwise_map.mpr (ht.imp fun h => Nat.add_lt_add_right h s)

end FakeLisp.LineTable
