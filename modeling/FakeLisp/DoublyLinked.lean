import Mathlib.Data.List.Nodup

/-! Linked lists in a memory: the cells from one link to another, walks along them, doubly linked
lists, and the chains that hang from an array of buckets. -/

namespace FakeLisp

section

variable {A : Type*}

/-- The cells from the link `p` to the link `q`, in order. -/
def ListSeg (next : A → Option A) (p : Option A) (l : List A) (q : Option A) : Prop :=
  match l with
  | [] => p = q
  | a :: l => p = some a ∧ ListSeg next (next a) l q

variable {next next' : A → Option A} {p q r : Option A} {a : A} {l l' : List A}

@[simp] theorem listSeg_nil : ListSeg next p [] q ↔ p = q := Iff.rfl

@[simp] theorem listSeg_cons :
    ListSeg next p (a :: l) q ↔ p = some a ∧ ListSeg next (next a) l q := Iff.rfl

theorem ListSeg.append (h : ListSeg next p l q) (h' : ListSeg next q l' r) :
    ListSeg next p (l ++ l') r := by
  induction l generalizing p with
  | nil => simpa [listSeg_nil.mp h] using h'
  | cons a l ih => exact ⟨h.1, ih h.2⟩

theorem ListSeg.congr (h : ListSeg next p l q) (hn : ∀ a ∈ l, next' a = next a) :
    ListSeg next' p l q := by
  induction l generalizing p with
  | nil => exact h
  | cons a l ih =>
    refine ⟨h.1, ?_⟩
    rw [hn a List.mem_cons_self]
    exact ih h.2 fun b hb => hn b (List.mem_cons_of_mem a hb)

theorem ListSeg.update [DecidableEq A] (h : ListSeg next p l q) (ha : a ∉ l) (b : Option A) :
    ListSeg (Function.update next a b) p l q :=
  h.congr fun c hc => by
    have hne : c ≠ a := fun he => ha (he ▸ hc)
    simp [hne]

/-- A list that ends at a cell continues wherever that cell is made to point. -/
theorem ListSeg.snoc [DecidableEq A] (h : ListSeg next p l (some a)) (ha : a ∉ l)
    (b : Option A) : ListSeg (Function.update next a b) p (l ++ [a]) b :=
  (h.update ha b).append ⟨rfl, by simp⟩

theorem listSeg_concat : ListSeg next p (l ++ [a]) q ↔ ListSeg next p l (some a) ∧ next a = q := by
  induction l generalizing p with
  | nil => simp
  | cons b l ih => simp [ih, and_assoc]

/-- Where the last cell points is where the list ends. -/
theorem ListSeg.redirect [DecidableEq A] (h : ListSeg next p (l ++ [a]) q) (ha : a ∉ l)
    (b : Option A) : ListSeg (Function.update next a b) p (l ++ [a]) b :=
  (listSeg_concat.mp h).1.snoc ha b

end

/-! Walks, and links in both directions. -/

variable {A σ : Type*}

/-- `for (; cur; cur = cur->next) s = body(cur, s)`, by fuel. -/
def walkList (next : A → Option A) (body : σ → A → Option σ) : Nat → Option A → σ → Option σ
  | 0, _, _ => none
  | _ + 1, none, s => some s
  | n + 1, some a, s => (body s a).bind (walkList next body n (next a))

/-- `for (; cur; cur = cur->next) if (test(cur)) return cur; return NULL;`, by fuel. -/
def findList (next : A → Option A) (test : A → Bool) : Nat → Option A → Option (Option A)
  | 0, _ => none
  | _ + 1, none => some none
  | n + 1, some a => if test a then some (some a) else findList next test n (next a)

variable {next prev : A → Option A} {p q first last : Option A} {l l' s t : List A} {a b : A}

theorem ListSeg.walkList (h : ListSeg next p l none) (body : σ → A → Option σ) {n : Nat}
    (hn : l.length < n) (x : σ) : walkList next body n p x = l.foldlM body x := by
  induction l generalizing p n x with
  | nil =>
    obtain ⟨n, rfl⟩ := Nat.exists_eq_succ_of_ne_zero (Nat.ne_of_gt hn)
    cases (listSeg_nil.mp h)
    simp [FakeLisp.walkList]
  | cons a l ih =>
    obtain ⟨n, rfl⟩ := Nat.exists_eq_succ_of_ne_zero (Nat.ne_of_gt (Nat.zero_lt_of_lt hn))
    rw [h.1, List.foldlM_cons]
    simp only [FakeLisp.walkList]
    cases body x a with
    | none => rfl
    | some y => exact ih h.2 (by simpa using hn) y

theorem ListSeg.findList (h : ListSeg next p l none) (test : A → Bool) {n : Nat}
    (hn : l.length < n) : findList next test n p = some (l.find? test) := by
  induction l generalizing p n with
  | nil =>
    obtain ⟨n, rfl⟩ := Nat.exists_eq_succ_of_ne_zero (Nat.ne_of_gt hn)
    cases (listSeg_nil.mp h)
    simp [FakeLisp.findList]
  | cons a l ih =>
    obtain ⟨n, rfl⟩ := Nat.exists_eq_succ_of_ne_zero (Nat.ne_of_gt (Nat.zero_lt_of_lt hn))
    rw [h.1]
    simp only [FakeLisp.findList, List.find?_cons]
    cases test a with
    | true => rfl
    | false => simpa using ih h.2 (by simpa using hn)

/-- A list is determined by its links. -/
theorem ListSeg.unique (h : ListSeg next p l none) (h' : ListSeg next p l' none) : l = l' := by
  induction l generalizing p l' with
  | nil =>
    cases l' with
    | nil => rfl
    | cons b l' => exact nomatch (listSeg_nil.mp h).symm.trans h'.1
  | cons a l ih =>
    cases l' with
    | nil => exact nomatch h.1.symm.trans (listSeg_nil.mp h')
    | cons b l' =>
      obtain rfl := Option.some.inj (h.1.symm.trans h'.1)
      rw [ih h.2 h'.2]

theorem listSeg_append :
    ListSeg next p (l ++ l') q ↔ ∃ r, ListSeg next p l r ∧ ListSeg next r l' q := by
  refine ⟨fun h => ?_, fun ⟨r, hl, hl'⟩ => hl.append hl'⟩
  induction l generalizing p with
  | nil => exact ⟨p, rfl, h⟩
  | cons a l ih =>
    obtain ⟨r, hl, hl'⟩ := ih h.2
    exact ⟨r, ⟨h.1, hl⟩, hl'⟩

theorem ListSeg.start_eq (h : ListSeg next p l none) : p = l.head? := by
  cases l with
  | nil => exact h
  | cons a l => exact h.1

structure DoublyLinked (prev next : A → Option A) (first last : Option A) (l : List A) :
    Prop where
  forward : ListSeg next first l none
  backward : ListSeg prev last l.reverse none
  nodup : l.Nodup

namespace DoublyLinked

theorem nil : DoublyLinked prev next none none [] := ⟨rfl, rfl, List.nodup_nil⟩

theorem flip (h : DoublyLinked prev next first last l) :
    DoublyLinked next prev last first l.reverse :=
  ⟨h.backward, by simpa using h.forward, List.nodup_reverse.mpr h.nodup⟩

theorem first_eq (h : DoublyLinked prev next first last l) : first = l.head? :=
  h.forward.start_eq

theorem last_eq (h : DoublyLinked prev next first last l) : last = l.getLast? := by
  simpa using h.flip.first_eq

/-- A cell points on to the cell after it. -/
theorem next_eq (h : DoublyLinked prev next first last (s ++ a :: t)) : next a = t.head? := by
  obtain ⟨q, -, rfl, ht⟩ := listSeg_append.mp h.forward
  exact ht.start_eq

/-- A cell points back to the cell before it. -/
theorem prev_eq (h : DoublyLinked prev next first last (s ++ a :: t)) : prev a = s.getLast? := by
  have hf := h.flip
  rw [List.reverse_append, List.reverse_cons, List.append_assoc] at hf
  simpa using hf.next_eq

theorem next_ne (h : DoublyLinked prev next first last (s ++ a :: t)) : next a ≠ some a := by
  intro ha
  rw [h.next_eq] at ha
  have hat := List.mem_of_head? ha
  exact (List.nodup_cons.mp (List.nodup_append.mp h.nodup).2.1).1 hat

theorem prev_ne (h : DoublyLinked prev next first last (s ++ a :: t)) : prev a ≠ some a := by
  have hf := h.flip
  rw [List.reverse_append, List.reverse_cons, List.append_assoc] at hf
  exact hf.next_ne

/-- The list begins with its first cell alone. -/
theorem singleton (hp : prev a = none) (hn : next a = none) :
    DoublyLinked prev next (some a) (some a) [a] :=
  ⟨⟨rfl, hn⟩, ⟨rfl, hp⟩, List.nodup_singleton a⟩

variable [DecidableEq A]

/-- A new cell goes behind the last one. -/
theorem push (h : DoublyLinked prev next first (some b) l) (ha : a ∉ l) (hn : next a = none) :
    DoublyLinked (Function.update prev a (some b)) (Function.update next b (some a)) first
      (some a) (l ++ [a]) := by
  obtain ⟨l, rfl⟩ := List.getLast?_eq_some_iff.mp h.last_eq.symm
  have hnd := h.nodup
  have hb : b ∉ l := fun hb => (List.nodup_append.mp hnd).2.2 b hb b (by simp) rfl
  have hab : a ≠ b := fun he => ha (by simp [he])
  refine ⟨(h.forward.redirect hb (some a)).append ⟨rfl, by simp [hab, hn]⟩, ?_, ?_⟩
  · rw [List.reverse_append]
    refine ⟨rfl, ?_⟩
    simpa using h.backward.update (by simpa [and_comm] using ha) (some b)
  · exact List.nodup_append.mpr ⟨hnd, List.nodup_singleton a, by
      intro x hx y hy heq
      obtain rfl := List.mem_singleton.mp hy
      exact ha (heq ▸ hx)⟩

end DoublyLinked

variable [DecidableEq A]

/-- `if (p) p->next = x;` -/
def setAt (next : A → Option A) (p x : Option A) : A → Option A :=
  match p with
  | none => next
  | some z => Function.update next z x

theorem setAt_of_ne (h : p ≠ some a) (x : Option A) : setAt next p x a = next a := by
  cases p with
  | none => rfl
  | some z => exact Function.update_of_ne (fun ha => h (congrArg some ha.symm)) x next

/-- The list without a cell: the cell before it is made to point past it. -/
theorem ListSeg.unlink (h : ListSeg next p (s ++ a :: t) none) (hnd : (s ++ a :: t).Nodup) :
    ListSeg (setAt next s.getLast? (next a)) (if p = some a then next a else p) (s ++ t)
      none := by
  obtain ⟨q, hs, rfl, ht⟩ := listSeg_append.mp h
  rcases List.eq_nil_or_concat' s with rfl | ⟨s, z, rfl⟩
  · obtain rfl := listSeg_nil.mp hs
    simpa [setAt] using ht
  · have hz : z ∉ s := fun hz => by
      have hsz := (List.nodup_append.mp hnd).1
      exact (List.nodup_append.mp hsz).2.2 z hz z (by simp) rfl
    have hzt : z ∉ t := fun hz => by simp [List.nodup_append, hz] at hnd
    have hp : p ≠ some a := by
      rw [h.start_eq]
      cases s with
      | nil => simpa using fun heq : z = a => by simp [heq] at hnd
      | cons c s => simpa using fun heq : c = a => by simp [heq] at hnd
    rw [if_neg hp, List.getLast?_concat]
    exact (hs.redirect hz (next a)).append (ht.update hzt (next a))

/-- Both lists without a cell. -/
theorem DoublyLinked.unlink (h : DoublyLinked prev next first last (s ++ a :: t)) :
    DoublyLinked (setAt prev (next a) (prev a)) (setAt next (prev a) (next a))
      (if first = some a then next a else first) (if last = some a then prev a else last)
      (s ++ t) := by
  have hnd := h.nodup
  refine ⟨?_, ?_, ?_⟩
  · rw [h.prev_eq]
    exact h.forward.unlink hnd
  · have hb := h.backward
    rw [List.reverse_append, List.reverse_cons, List.append_assoc] at hb
    have hu := hb.unlink (by simpa [List.nodup_append, and_comm] using h.flip.nodup)
    rw [h.next_eq, List.reverse_append]
    simpa using hu
  · exact hnd.sublist ((List.sublist_cons_self a t).append_left s)

end FakeLisp
