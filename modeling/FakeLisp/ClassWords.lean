import Mathlib.Computability.Language
import Mathlib.Data.List.TakeWhile

/-! Languages built from classes of letters. Where a repeated class does not go on into what is
behind it, a word is taken apart at the first letter outside of the class. -/

namespace FakeLisp

open Computability

variable {α : Type*} {p q : α → Bool} {L M : Language α} {w r : List α} {c : α}

/-- The words of one letter of a class. -/
def oneOf (p : α → Bool) : Language α := {w | ∃ c, p c = true ∧ w = [c]}

def optional (L : Language α) : Language α := 1 + L

def oneOrMore (L : Language α) : Language α := L * L∗

/-- No word begins with a letter of the class. -/
def NotFirst (p : α → Bool) (L : Language α) : Prop := ∀ c r, c :: r ∈ L → p c = false

/-- The word behind a first letter of the class, if there is one. -/
def stripHead (p : α → Bool) : List α → List α
  | [] => []
  | c :: r => if p c then r else c :: r

theorem mem_oneOf : w ∈ oneOf p ↔ ∃ c, p c = true ∧ w = [c] := Iff.rfl

theorem mem_oneOf_mul : w ∈ oneOf p * L ↔ ∃ c r, w = c :: r ∧ p c = true ∧ r ∈ L := by
  rw [Language.mem_mul]
  constructor
  · rintro ⟨a, ⟨c, hc, rfl⟩, r, hr, rfl⟩
    exact ⟨c, r, rfl, hc, hr⟩
  · rintro ⟨c, r, rfl, hc, hr⟩
    exact ⟨[c], ⟨c, hc, rfl⟩, r, hr, rfl⟩

@[simp] theorem cons_mem_oneOf_mul : c :: r ∈ oneOf p * L ↔ p c = true ∧ r ∈ L := by
  rw [mem_oneOf_mul]
  constructor
  · rintro ⟨d, s, heq, hd, hs⟩
    obtain ⟨rfl, rfl⟩ := List.cons.inj heq
    exact ⟨hd, hs⟩
  · rintro ⟨hc, hr⟩
    exact ⟨c, r, rfl, hc, hr⟩

@[simp] theorem nil_not_mem_oneOf_mul : [] ∉ oneOf p * L := by
  rw [mem_oneOf_mul]
  rintro ⟨c, r, heq, -⟩
  cases heq

theorem nil_not_mem_oneOrMore_mul : [] ∉ oneOrMore (oneOf p) * L := by
  rw [oneOrMore, mul_assoc]
  exact nil_not_mem_oneOf_mul

theorem mem_kstar_oneOf : w ∈ (oneOf p)∗ ↔ ∀ c ∈ w, p c = true := by
  rw [Language.mem_kstar]
  constructor
  · rintro ⟨ws, rfl, hws⟩ c hc
    obtain ⟨a, ha, hca⟩ := List.mem_flatten.mp hc
    obtain ⟨d, hd, rfl⟩ := hws a ha
    rw [List.mem_singleton.mp hca]
    exact hd
  · intro hw
    refine ⟨w.map fun c => [c], by simp [← List.flatMap_def], ?_⟩
    intro a ha
    obtain ⟨c, hc, rfl⟩ := List.mem_map.mp ha
    exact ⟨c, hw c hc, rfl⟩

theorem mem_oneOrMore_oneOf : w ∈ oneOrMore (oneOf p) ↔ w ≠ [] ∧ ∀ c ∈ w, p c = true := by
  rw [oneOrMore, mem_oneOf_mul]
  constructor
  · rintro ⟨c, r, rfl, hc, hr⟩
    exact ⟨List.cons_ne_nil c r, List.forall_mem_cons.mpr ⟨hc, mem_kstar_oneOf.mp hr⟩⟩
  · rintro ⟨hne, hall⟩
    obtain ⟨c, r, rfl⟩ := List.exists_cons_of_ne_nil hne
    obtain ⟨hc, hr⟩ := List.forall_mem_cons.mp hall
    exact ⟨c, r, rfl, hc, mem_kstar_oneOf.mpr hr⟩

theorem notFirst_one : NotFirst p (1 : Language α) := nofun

theorem NotFirst.add (hL : NotFirst p L) (hM : NotFirst p M) : NotFirst p (L + M) := by
  intro c r h
  rcases (Language.mem_add L M _).mp h with h | h
  · exact hL c r h
  · exact hM c r h

theorem NotFirst.optional (h : NotFirst p L) : NotFirst p (optional L) := notFirst_one.add h

theorem notFirst_oneOf_mul (hpq : ∀ c, q c = true → p c = false) : NotFirst p (oneOf q * L) :=
  fun c _ h => hpq c (cons_mem_oneOf_mul.mp h).1

theorem notFirst_oneOrMore_mul (hpq : ∀ c, q c = true → p c = false) :
    NotFirst p (oneOrMore (oneOf q) * L) := by
  rw [oneOrMore, mul_assoc]
  exact notFirst_oneOf_mul hpq

theorem takeWhile_append_of_notFirst {a b : List α} (ha : ∀ c ∈ a, p c = true) (hb : b ∈ L)
    (hL : NotFirst p L) : (a ++ b).takeWhile p = a ∧ (a ++ b).dropWhile p = b := by
  rw [List.takeWhile_append_of_pos ha, List.dropWhile_append_of_pos ha]
  cases b with
  | nil => simp
  | cons c b =>
    have hc := hL c b hb
    simp [hc]

theorem mem_kstar_oneOf_mul (hL : NotFirst p L) : w ∈ (oneOf p)∗ * L ↔ w.dropWhile p ∈ L := by
  rw [Language.mem_mul]
  constructor
  · rintro ⟨a, ha, b, hb, rfl⟩
    rw [(takeWhile_append_of_notFirst (mem_kstar_oneOf.mp ha) hb hL).2]
    exact hb
  · intro h
    refine ⟨w.takeWhile p, mem_kstar_oneOf.mpr fun c hc => List.mem_takeWhile_imp hc,
      w.dropWhile p, h, List.takeWhile_append_dropWhile⟩

theorem mem_oneOrMore_oneOf_mul (hL : NotFirst p L) :
    w ∈ oneOrMore (oneOf p) * L ↔ w.takeWhile p ≠ [] ∧ w.dropWhile p ∈ L := by
  rw [Language.mem_mul]
  constructor
  · rintro ⟨a, ha, b, hb, rfl⟩
    obtain ⟨hne, hall⟩ := mem_oneOrMore_oneOf.mp ha
    obtain ⟨htake, hdrop⟩ := takeWhile_append_of_notFirst hall hb hL
    rw [htake, hdrop]
    exact ⟨hne, hb⟩
  · rintro ⟨hne, h⟩
    exact ⟨w.takeWhile p, mem_oneOrMore_oneOf.mpr ⟨hne, fun c hc => List.mem_takeWhile_imp hc⟩,
      w.dropWhile p, h, List.takeWhile_append_dropWhile⟩

theorem mem_optional : w ∈ optional L ↔ w = [] ∨ w ∈ L := Language.mem_add 1 L w

theorem mem_optional_oneOf_mul (hL : NotFirst p L) :
    w ∈ optional (oneOf p) * L ↔ stripHead p w ∈ L := by
  rw [optional, add_mul, one_mul, Language.mem_add]
  cases w with
  | nil => simp [stripHead]
  | cons c r =>
    rw [cons_mem_oneOf_mul, stripHead]
    split_ifs with hc
    · simp only [hc, true_and, or_iff_right_iff_imp]
      intro h
      cases (hL c r h).symm.trans hc
    · simp [hc]

/-- Two letters of the class at least. -/
theorem mem_oneOf_mul_oneOrMore_mul (hL : NotFirst p L) :
    w ∈ oneOf p * (oneOrMore (oneOf p) * L) ↔ 2 ≤ (w.takeWhile p).length ∧ w.dropWhile p ∈ L := by
  cases w with
  | nil => simp
  | cons c r =>
    rw [cons_mem_oneOf_mul, mem_oneOrMore_oneOf_mul hL, ← List.length_pos_iff]
    by_cases hc : p c = true
    · simp [hc, Nat.succ_le_iff]
    · simp [hc]

theorem notFirst_oneOrMore (hpq : ∀ c, q c = true → p c = false) :
    NotFirst p (oneOrMore (oneOf q)) := by
  have h : NotFirst p (oneOrMore (oneOf q) * 1) := notFirst_oneOrMore_mul hpq
  rwa [mul_one] at h

/-! ## The last letter -/

/-- No word ends with a letter of the class. -/
def NotLast (p : α → Bool) (L : Language α) : Prop := ∀ r c, r ++ [c] ∈ L → p c = false

theorem NotLast.add (hL : NotLast p L) (hM : NotLast p M) : NotLast p (L + M) := by
  intro r c h
  rcases (Language.mem_add L M _).mp h with h | h
  · exact hL r c h
  · exact hM r c h

theorem NotLast.mul (hM : NotLast p M) (hnil : [] ∉ M) : NotLast p (L * M) := by
  intro r c h
  obtain ⟨a, -, b, hb, heq⟩ := Language.mem_mul.mp h
  cases b using List.reverseRecOn with
  | nil => exact absurd hb hnil
  | append_singleton b d =>
    rw [← List.append_assoc] at heq
    obtain rfl : d = c := by simpa using (List.append_inj' heq rfl).2
    exact hM b d hb

theorem NotLast.mul_optional (hL : NotLast p L) (hM : NotLast p M) (hnil : [] ∉ M) :
    NotLast p (L * FakeLisp.optional M) := by
  rw [FakeLisp.optional, mul_add, mul_one]
  exact hL.add (hM.mul hnil)

theorem notLast_kstar (hpq : ∀ c, q c = true → p c = false) : NotLast p (oneOf q)∗ :=
  fun _ c h => hpq c (mem_kstar_oneOf.mp h c (by simp))

theorem notLast_oneOrMore (hpq : ∀ c, q c = true → p c = false) :
    NotLast p (oneOrMore (oneOf q)) :=
  fun _ c h => hpq c ((mem_oneOrMore_oneOf.mp h).2 c (by simp))

theorem NotLast.oneOf_mul (hL : NotLast p L) (hpq : ∀ c, q c = true → p c = false) :
    NotLast p (oneOf q * L) := by
  intro r c h
  cases r with
  | nil => exact hpq c (cons_mem_oneOf_mul.mp h).1
  | cons d r => exact hL r c (cons_mem_oneOf_mul.mp h).2

theorem nil_not_mem_mul (hM : [] ∉ M) : [] ∉ L * M := by
  intro h
  obtain ⟨a, -, b, hb, heq⟩ := Language.mem_mul.mp h
  obtain rfl := (List.append_eq_nil_iff.mp heq).2
  exact hM hb

theorem mem_mul_oneOf (h : w ∈ L * oneOf p) : ∃ r c, w = r ++ [c] ∧ p c = true := by
  obtain ⟨r, -, b, ⟨c, hc, rfl⟩, rfl⟩ := Language.mem_mul.mp h
  exact ⟨r, c, rfl, hc⟩

end FakeLisp
