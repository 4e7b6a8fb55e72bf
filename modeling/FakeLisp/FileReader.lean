import Mathlib.Algebra.Order.Ring.Nat
import Mathlib.Tactic.Common

/-! Reading files back. A reader takes bytes from the front of a file, and readers that are run one
after the other read what was written one after the other. -/

namespace FakeLisp

abbrev FileM := StateT (List UInt8) Option

/-- The bytes of a word, the low ones first. -/
def fwriteWord : Nat → Nat → List UInt8
  | 0, _ => []
  | width + 1, n => UInt8.ofNat n :: fwriteWord width (n / 256)

def freadWord : Nat → FileM Nat
  | 0 => pure 0
  | width + 1 => fun
    | [] => none
    | b :: file => (freadWord width file).map fun (n, file) => (n * 256 + b.toNat, file)

def freadMany {α : Type} (read : FileM α) : Nat → FileM (List α)
  | 0 => pure []
  | n + 1 => do return (← read) :: (← freadMany read n)

/-- The reader takes these bytes from every file that begins with them, and finds `a`. -/
def Reads {α : Type} (read : FileM α) (bytes : List UInt8) (a : α) : Prop :=
  ∀ file, read (bytes ++ file) = some (a, file)

variable {α β : Type}

theorem Reads.ret (a : α) : Reads (pure a) [] a := fun _ => rfl

theorem Reads.bind {read : FileM α} {next : α → FileM β} {bytes bytes' : List UInt8} {a : α} {b : β}
    (h : Reads read bytes a) (h' : Reads (next a) bytes' b) :
    Reads (read >>= next) (bytes ++ bytes') b := by
  intro file
  have hrun : (read >>= next) (bytes ++ (bytes' ++ file)) =
      (read (bytes ++ (bytes' ++ file))).bind fun r => next r.1 r.2 := rfl
  rw [List.append_assoc, hrun, h, Option.bind_some, h']

/-- The last reader, where nothing is left to be read behind it. -/
theorem Reads.map {read : FileM α} {bytes : List UInt8} {a : α} (f : α → β)
    (h : Reads read bytes a) : Reads (read >>= fun a => pure (f a)) bytes (f a) := by
  intro file
  have hrun : (read >>= fun a => pure (f a)) (bytes ++ file) =
      (read (bytes ++ file)).bind fun r => some (f r.1, r.2) := rfl
  rw [hrun, h, Option.bind_some]

theorem Reads.unique {read : FileM α} {bytes : List UInt8} {a a' : α} (h : Reads read bytes a)
    (h' : Reads read bytes a') : a = a' := by
  have he := (h []).symm.trans (h' [])
  exact congrArg Prod.fst (Option.some.inj he)

theorem reads_freadWord {width n : Nat} (h : n < 256 ^ width) :
    Reads (freadWord width) (fwriteWord width n) n := by
  induction width generalizing n with
  | zero =>
    rw [pow_zero, Nat.lt_one_iff] at h
    subst h
    exact Reads.ret 0
  | succ width ih =>
    intro file
    have hdiv : n / 256 < 256 ^ width := by
      rw [pow_succ] at h
      exact Nat.div_lt_of_lt_mul (by rwa [Nat.mul_comm])
    rw [fwriteWord, List.cons_append, freadWord]
    simp only
    rw [ih hdiv file, Option.map_some]
    have hlow : (UInt8.ofNat n).toNat = n % 256 := UInt8.toNat_ofNat'
    dsimp only
    rw [hlow, Nat.div_add_mod']

def freadBits (width bits : Nat) : FileM (BitVec bits) := do
  return BitVec.ofNat bits (← freadWord width)

theorem reads_freadBits {width bits : Nat} (hbits : bits = 8 * width) (x : BitVec bits) :
    Reads (freadBits width bits) (fwriteWord width x.toNat) x := by
  have hlt : x.toNat < 256 ^ width := by
    rw [show 256 = 2 ^ 8 from rfl, ← pow_mul, ← hbits]
    exact x.isLt
  have h := Reads.map (BitVec.ofNat bits) (reads_freadWord hlt)
  rwa [BitVec.ofNat_toNat, BitVec.setWidth_eq] at h

/-- Elements written one after the other are read back by as many readings, each as what becomes
of it. -/
theorem reads_freadMany_map {read : FileM β} {write : α → Option (List UInt8)} {f : α → β}
    {as : List α} {chunks : List (List UInt8)} (h : as.mapM write = some chunks)
    (hread : ∀ a ∈ as, ∀ bytes, write a = some bytes → Reads read bytes (f a)) :
    Reads (freadMany read as.length) chunks.flatten (as.map f) := by
  induction as generalizing chunks with
  | nil =>
    cases h
    exact Reads.ret []
  | cons a as ih =>
    rw [List.mapM_cons] at h
    obtain ⟨bytes, ha, h⟩ := Option.bind_eq_some_iff.mp h
    obtain ⟨chunks, has, h⟩ := Option.bind_eq_some_iff.mp h
    cases h
    rw [List.flatten_cons]
    exact (hread a List.mem_cons_self bytes ha).bind
      (Reads.map _ (ih has fun b hb => hread b (List.mem_cons_of_mem a hb)))

theorem reads_freadMany {read : FileM α} {write : α → Option (List UInt8)} {as : List α}
    {chunks : List (List UInt8)} (h : as.mapM write = some chunks)
    (hread : ∀ a ∈ as, ∀ bytes, write a = some bytes → Reads read bytes a) :
    Reads (freadMany read as.length) chunks.flatten as := by
  have hmap := reads_freadMany_map (f := id) h hread
  rwa [List.map_id] at hmap

end FakeLisp
