import FakeLisp.Words

/-! The threads that load one library: the state of the import, the lock of the library, and the
atomic steps of the instruction that loads it. The body of a library runs at most once, whatever
the order of the steps. -/

namespace FakeLisp

inductive FklVMlibImportState where
  | libNone
  | libImporting
  | libImported
  | libError
  deriving DecidableEq

/-- `l->proc`: a procedure, the name of a dll or a dll. -/
inductive LibProc where
  | procedure
  | dllName
  | dll
  deriving DecidableEq

/-- What a thread does next. `state` is what it has read of the state of the import before it
decided about the lock, and `err` tells whether it raises an error. -/
inductive LoadPc where
  | outside
  | lock (state : FklVMlibImportState)
  | reload (state : FklVMlibImportState)
  | storeImporting
  | prepCall
  | callObj
  | runVM
  | createDll
  | getImportInit
  | initFunc
  | checkUnbound
  | store (state : FklVMlibImportState) (err : Bool)
  | unlock (err : Bool)
  | unreachable
  | finished (err : Bool)
  deriving DecidableEq

/-- The library, its threads, and those that have begun to run its body, which the program does not
keep. The lock is recursive: `lock` has the thread that holds it, once for each time it has locked
it. -/
structure LibWorld (T : Type) where
  importState : FklVMlibImportState
  lock : List T
  proc : LibProc
  pc : T → LoadPc
  ran : List T

variable {T : Type}

def LibWorld.init (proc : LibProc) : LibWorld T where
  importState := .libNone
  lock := []
  proc := proc
  pc _ := .outside
  ran := []

section

variable [DecidableEq T]

namespace LibWorld

def goto (w : LibWorld T) (exe : T) (pc : LoadPc) : LibWorld T :=
  { w with pc := Function.update w.pc exe pc }

def setImportState (w : LibWorld T) (state : FklVMlibImportState) : LibWorld T :=
  { w with importState := state }

def setLock (w : LibWorld T) (lock : List T) : LibWorld T := { w with lock := lock }

def begin (w : LibWorld T) (exe : T) : LibWorld T := { w with ran := exe :: w.ran }

@[simp] theorem goto_importState (w : LibWorld T) (exe : T) (pc : LoadPc) :
    (w.goto exe pc).importState = w.importState := rfl

@[simp] theorem goto_lock (w : LibWorld T) (exe : T) (pc : LoadPc) :
    (w.goto exe pc).lock = w.lock := rfl

@[simp] theorem goto_ran (w : LibWorld T) (exe : T) (pc : LoadPc) :
    (w.goto exe pc).ran = w.ran := rfl

@[simp] theorem goto_pc (w : LibWorld T) (exe : T) (pc : LoadPc) :
    (w.goto exe pc).pc = Function.update w.pc exe pc := rfl

end LibWorld

open LibWorld

/-- After the first read of the state: whether to lock. -/
def loadLibLocks (state : FklVMlibImportState) : LoadPc :=
  if state = .libImporting ∨ state = .libNone then .lock state else .reload state

/-- After the second read; `state` is what the first one gave. -/
def loadLibSwitch (state : FklVMlibImportState) : FklVMlibImportState → LoadPc
  | .libNone => .storeImporting
  | .libImported => if state = .libImporting then .unlock false else .finished false
  | .libError => if state = .libImporting then .unlock true else .finished true
  | .libImporting => .unreachable

/-- One atomic step of the thread `exe`; `ok` is whether what it tries goes well. A thread that
waits for another one to unlock has no step. An error that is raised where nothing catches it ends the
instruction. -/
def loadStep (w : LibWorld T) (exe : T) (ok : Bool) : Option (LibWorld T) :=
  match w.pc exe with
  | .outside | .finished _ => some (w.goto exe (loadLibLocks w.importState))
  | .lock state => do
    fklAssert (∀ u ∈ w.lock, u = exe)
    return (w.setLock (exe :: w.lock)).goto exe (.reload state)
  | .reload state => some (w.goto exe (loadLibSwitch state w.importState))
  -- `load_lib` and `load_dll` begin alike
  | .storeImporting =>
    some ((w.setImportState .libImporting).goto exe
      (if w.proc = .procedure then .prepCall else .createDll))
  -- `fklSetBp`, `fklPrepCall` and the push raise when the stack cannot grow
  | .prepCall => some (w.goto exe (if ok then .callObj else .finished true))
  | .callObj =>
    some (if ok then (w.begin exe).goto exe .runVM else w.goto exe (.store .libNone true))
  | .runVM => some (w.goto exe (if ok then .checkUnbound else .store .libError true))
  | .createDll =>
    some (w.goto exe (if w.proc = .dllName ∧ !ok then .store .libError true else .getImportInit))
  | .getImportInit =>
    some (if ok then ({ w with proc := .dll }.begin exe).goto exe .initFunc
      else w.goto exe (.store .libError true))
  | .initFunc => some (w.goto exe (if ok then .checkUnbound else .finished true))
  | .checkUnbound =>
    some (w.goto exe (if ok then .store .libImported false else .store .libError true))
  | .store state err => some ((w.setImportState state).goto exe (.unlock err))
  | .unlock err => do
    fklAssert (exe ∈ w.lock)
    return (w.setLock w.lock.tail).goto exe (.finished err)
  | .unreachable => none

/-- The threads take their steps in any order. -/
def loadRun (w : LibWorld T) (steps : List (T × Bool)) : Option (LibWorld T) :=
  steps.foldlM (fun w s => loadStep w s.1 s.2) w

end

/-! The body runs at most once; and when the lock of the library is left locked. -/

/-- What the state may become: it stays, or an import begins, ends, or is given up. -/
def ImportMoves (pc : LoadPc) (s s' : FklVMlibImportState) : Prop :=
  s' = s ∨ (s = .libNone ∧ s' = .libImporting) ∨
    (s = .libImporting ∧ (s' = .libImported ∨ s' = .libError ∨
      (s' = .libNone ∧ pc = .store .libNone true)))

/-- After a step of `exe`, the body has been begun once at most, and the state has moved as it
may. -/
structure LoadSafe (w : LibWorld T) (exe : T) (w' : LibWorld T) : Prop where
  moves : ImportMoves (w.pc exe) w.importState w'.importState
  once : w'.ran.length ≤ 1

/-- Besides, the case that is said to be unreachable has not been reached, and no thread that is
through with the instruction has the lock. -/
structure LoadRight (w : LibWorld T) (exe : T) (w' : LibWorld T) : Prop
    extends LoadSafe w exe w' where
  reached : ∀ u, w'.pc u ≠ .unreachable
  released : ∀ u err, w'.pc u = .finished err → u ∉ w'.lock

/-- The steps that leave the lock locked: a thread that had read that nobody has imported the
library finds that somebody has; the stack cannot grow before the call of the body; the
initialisation of a dll raises an error. -/
def LeavesLocked (w : LibWorld T) (exe : T) (ok : Bool) : Prop :=
  match w.pc exe with
  | .reload state =>
    state = .libNone ∧ (w.importState = .libImported ∨ w.importState = .libError)
  | .prepCall | .initFunc => ok = false
  | _ => False

/-- What each thread relies on before its next step. -/
def LoadPc.Holds (w : LibWorld T) (u : T) : LoadPc → Prop
  | .outside | .finished _ => True
  | .lock state => state = .libNone ∨ state = .libImporting
  | .reload state =>
    ((state = .libNone ∨ state = .libImporting) ∧ u ∈ w.lock) ∨
    ((state = .libImported ∨ state = .libError) ∧ w.importState = state)
  | .storeImporting => u ∈ w.lock ∧ w.importState = .libNone
  | .prepCall | .callObj | .createDll | .getImportInit =>
    u ∈ w.lock ∧ w.importState = .libImporting ∧ w.ran = []
  | .runVM | .initFunc | .checkUnbound => u ∈ w.lock ∧ w.importState = .libImporting
  | .store state err => u ∈ w.lock ∧ w.importState = .libImporting ∧
    (state = .libNone → w.ran = [] ∧ err = true) ∧ state ≠ .libImporting
  | .unlock _ => u ∈ w.lock ∧ w.importState ≠ .libImporting
  | .unreachable => u ∈ w.lock

/-- The places from which a thread goes on to unlock. -/
def LoadPc.Owns : LoadPc → Prop
  | .outside | .finished _ | .lock _ | .unreachable => False
  | .reload state => state = .libNone ∨ state = .libImporting
  | _ => True

/-- As long as no step has left the lock locked, the thread that has it goes on to unlock it, has
locked it once, and finds no import of somebody else going on. -/
structure LockOwned (w : LibWorld T) : Prop where
  owned : ∀ u ∈ w.lock, (w.pc u).Owns
  single : w.lock.length ≤ 1
  settled : ∀ u state, w.pc u = .reload state → u ∈ w.lock → w.importState ≠ .libImporting
  reached : ∀ u, w.pc u ≠ .unreachable

structure LibInv (w : LibWorld T) : Prop where
  one : ∀ u ∈ w.lock, ∀ v ∈ w.lock, u = v
  importing : w.importState = .libImporting → w.lock ≠ []
  once : w.ran.length ≤ 1
  fresh : w.importState = .libNone → w.ran = []
  threads : ∀ u, (w.pc u).Holds w u

theorem libInv_init (proc : LibProc) : LibInv (LibWorld.init proc : LibWorld T) where
  one := nofun
  importing := nofun
  once := Nat.zero_le 1
  fresh _ := rfl
  threads _ := trivial

theorem lockOwned_init (proc : LibProc) : LockOwned (LibWorld.init proc : LibWorld T) where
  owned := nofun
  single := Nat.zero_le 1
  settled := nofun
  reached := nofun

variable {w w' : LibWorld T} {exe u : T} {pc : LoadPc} {ok : Bool}

theorem LoadPc.Holds.mem_lock (h : pc.Holds w u) (ho : pc.Owns) : u ∈ w.lock := by
  cases pc with
  | outside | finished _ | lock _ | unreachable => exact absurd ho id
  | reload state =>
    rcases h with ⟨-, hl⟩ | ⟨hs, -⟩
    · exact hl
    · rcases hs with rfl | rfl <;> simp [LoadPc.Owns] at ho
  | _ => exact h.1

/-- A thread that does not have the lock relies on nothing but an import that is over. -/
theorem LoadPc.Holds.of_not_owner (h : pc.Holds w u) (hl : u ∉ w.lock)
    (hover : w.importState = .libImported ∨ w.importState = .libError →
      w'.importState = w.importState) : pc.Holds w' u := by
  cases pc with
  | outside | finished _ | lock _ => exact h
  | reload state =>
    rcases h with ⟨-, hl'⟩ | ⟨hs, hst⟩
    · exact absurd hl' hl
    · exact Or.inr ⟨hs, (hover (hst ▸ hs)).trans hst⟩
  | unreachable => exact absurd h hl
  | _ => exact absurd h.1 hl

/-- What a thread relies on is a matter of the state, the lock and the runs. -/
theorem LoadPc.Holds.congr (h : pc.Holds w u) (hs : w'.importState = w.importState)
    (hl : w'.lock = w.lock) (hr : w'.ran = w.ran) : pc.Holds w' u := by
  cases pc with
  | outside | finished _ | lock _ => exact h
  | _ => simpa only [LoadPc.Holds, hs, hl, hr] using h

theorem holds_loadLibLocks : (loadLibLocks w.importState).Holds w exe := by
  cases hst : w.importState with
  | libNone => exact Or.inl rfl
  | libImporting => exact Or.inr rfl
  | libImported => exact Or.inr ⟨Or.inl rfl, hst⟩
  | libError => exact Or.inr ⟨Or.inr rfl, hst⟩

theorem holds_loadLibSwitch {state : FklVMlibImportState}
    (h : (LoadPc.reload state).Holds w exe) :
    (loadLibSwitch state w.importState).Holds w exe := by
  rcases h with ⟨-, hl⟩ | ⟨hs, heq⟩
  · cases hst : w.importState with
    | libNone => exact ⟨hl, hst⟩
    | libImporting => exact hl
    | libImported | libError =>
      simp only [loadLibSwitch]
      split
      · exact ⟨hl, by simp [hst]⟩
      · trivial
  · rw [heq]
    rcases hs with rfl | rfl <;> trivial

/-- A thread that has locked the library goes on to unlock it, unless it had not seen the import
that is over now, or finds one going on. -/
theorem owns_loadLibSwitch {state : FklVMlibImportState} (h : (LoadPc.reload state).Holds w exe)
    (howns : (LoadPc.reload state).Owns) (hne : w.importState ≠ .libImporting)
    (hleaves : ¬(state = .libNone ∧ (w.importState = .libImported ∨ w.importState = .libError))) :
    (loadLibSwitch state w.importState).Owns := by
  rcases h with ⟨hs, -⟩ | ⟨hs, -⟩
  · cases hst : w.importState with
    | libNone => trivial
    | libImporting => exact absurd hst hne
    | libImported | libError =>
      have hstate : state = .libImporting := hs.resolve_left fun hs => hleaves ⟨hs, by simp [hst]⟩
      simp [loadLibSwitch, hstate, LoadPc.Owns]
  · rcases hs with rfl | rfl <;> simp [LoadPc.Owns] at howns

variable [DecidableEq T]

open LibWorld

/-- The thread `exe` goes on to `pc` after it has made `w'` of `w`. -/
theorem LibInv.goto (h : LibInv w) (hpcs : w'.pc = w.pc)
    (hone : ∀ u ∈ w'.lock, ∀ v ∈ w'.lock, u = v)
    (himp : w'.importState = .libImporting → w'.lock ≠ []) (honce : w'.ran.length ≤ 1)
    (hfresh : w'.importState = .libNone → w'.ran = []) (hpc : pc.Holds w' exe)
    (hothers : ∀ u, u ≠ exe → (w.pc u).Holds w u → (w.pc u).Holds w' u) :
    LibInv (w'.goto exe pc) where
  one := hone
  importing := himp
  once := honce
  fresh := hfresh
  threads u := by
    have hcongr : ∀ p p' : LoadPc, p.Holds w' u → p.Holds (w'.goto exe p') u :=
      fun _ _ h => h.congr rfl rfl rfl
    by_cases hu : u = exe
    · subst hu
      simpa using hcongr pc pc hpc
    · have hold := hcongr _ pc (hothers u hu (h.threads u))
      simpa [hu, hpcs] using hold

theorem LibInv.stay (h : LibInv w) (hpc : pc.Holds w exe) : LibInv (w.goto exe pc) :=
  h.goto rfl h.one h.importing h.once h.fresh hpc fun _ _ hu => hu

/-- A step of the thread that has the lock, while the import is not over. -/
theorem LibInv.owner (h : LibInv w) (hl : exe ∈ w.lock) (hpcs : w'.pc = w.pc)
    (hlock : w'.lock ⊆ w.lock)
    (himp : w'.importState = .libImporting → w'.lock ≠ []) (honce : w'.ran.length ≤ 1)
    (hfresh : w'.importState = .libNone → w'.ran = []) (hpc : pc.Holds w' exe)
    (hover : w.importState = .libImported ∨ w.importState = .libError →
      w'.importState = w.importState) : LibInv (w'.goto exe pc) :=
  h.goto hpcs (fun u hu v hv => h.one u (hlock hu) v (hlock hv)) himp honce hfresh hpc
    fun u hu hold => hold.of_not_owner (fun hmem => hu (h.one u hmem exe hl)) hover

theorem libInv_step (h : LibInv w) (hstep : loadStep w exe ok = some w') : LibInv w' := by
  have hold := h.threads exe
  unfold loadStep at hstep
  cases hpc : w.pc exe with
  | outside | finished err =>
    simp only [hpc, Option.some.injEq] at hstep
    exact hstep ▸ h.stay holds_loadLibLocks
  | reload state =>
    simp only [hpc, Option.some.injEq] at hstep
    rw [hpc] at hold
    exact hstep ▸ h.stay (holds_loadLibSwitch hold)
  | lock state =>
    simp only [hpc, Option.bind_eq_bind, Option.bind_eq_some_iff] at hstep
    obtain ⟨_, hassert, heq⟩ := hstep
    have hmine : ∀ u ∈ w.lock, u = exe := by
      by_contra hne
      simp [fklAssert, hne] at hassert
    obtain rfl := Option.some.inj heq
    rw [hpc] at hold
    have hall : ∀ u ∈ (w.setLock (exe :: w.lock)).lock, u = exe := by
      simpa [setLock] using hmine
    refine h.goto rfl (fun u hu v hv => (hall u hu).trans (hall v hv).symm) (fun _ => nofun)
      h.once h.fresh (Or.inl ⟨hold, List.mem_cons_self⟩) ?_
    intro u hue hu
    exact hu.of_not_owner (fun hmem => hue (hmine u hmem)) fun _ => rfl
  | storeImporting =>
    simp only [hpc, Option.some.injEq] at hstep
    rw [hpc] at hold
    obtain ⟨hl, hst⟩ := hold
    have hran := h.fresh hst
    subst hstep
    refine h.owner hl rfl (fun _ => id) (fun _ => List.ne_nil_of_mem hl) h.once nofun ?_
      (by simp [hst])
    split <;> exact ⟨hl, rfl, hran⟩
  | prepCall =>
    simp only [hpc, Option.some.injEq] at hstep
    rw [hpc] at hold
    subst hstep
    cases ok with
    | true => exact h.stay hold
    | false => exact h.stay trivial
  | callObj =>
    simp only [hpc, Option.some.injEq] at hstep
    rw [hpc] at hold
    obtain ⟨hl, hst, hran⟩ := hold
    subst hstep
    cases ok with
    | true =>
      exact h.owner hl rfl (fun _ => id) h.importing (by simp [begin, hran]) (by simp [begin, hst])
        ⟨hl, hst⟩ (by simp [hst])
    | false => exact h.stay ⟨hl, hst, fun _ => ⟨hran, rfl⟩, nofun⟩
  | runVM =>
    simp only [hpc, Option.some.injEq] at hstep
    rw [hpc] at hold
    obtain ⟨hl, hst⟩ := hold
    subst hstep
    cases ok with
    | true => exact h.stay ⟨hl, hst⟩
    | false => exact h.stay ⟨hl, hst, nofun, nofun⟩
  | createDll =>
    simp only [hpc, Option.some.injEq] at hstep
    rw [hpc] at hold
    obtain ⟨hl, hst, hran⟩ := hold
    subst hstep
    split
    · exact h.stay ⟨hl, hst, nofun, nofun⟩
    · exact h.stay ⟨hl, hst, hran⟩
  | getImportInit =>
    simp only [hpc, Option.some.injEq] at hstep
    rw [hpc] at hold
    obtain ⟨hl, hst, hran⟩ := hold
    subst hstep
    cases ok with
    | true =>
      exact h.owner hl rfl (fun _ => id) h.importing (by simp [begin, hran]) (by simp [begin, hst])
        ⟨hl, hst⟩ (by simp [hst])
    | false => exact h.stay ⟨hl, hst, nofun, nofun⟩
  | initFunc =>
    simp only [hpc, Option.some.injEq] at hstep
    rw [hpc] at hold
    subst hstep
    cases ok with
    | true => exact h.stay hold
    | false => exact h.stay trivial
  | checkUnbound =>
    simp only [hpc, Option.some.injEq] at hstep
    rw [hpc] at hold
    obtain ⟨hl, hst⟩ := hold
    subst hstep
    cases ok with
    | true => exact h.stay ⟨hl, hst, nofun, nofun⟩
    | false => exact h.stay ⟨hl, hst, nofun, nofun⟩
  | store state err =>
    simp only [hpc, Option.some.injEq] at hstep
    rw [hpc] at hold
    obtain ⟨hl, hst, hnone, hne⟩ := hold
    subst hstep
    exact h.owner hl rfl (fun _ => id) (fun hi => absurd hi hne) h.once (fun hn => (hnone hn).1)
      ⟨hl, hne⟩ (by simp [hst])
  | unlock err =>
    simp only [hpc, Option.bind_eq_bind, Option.bind_eq_some_iff] at hstep
    obtain ⟨-, -, heq⟩ := hstep
    obtain rfl := Option.some.inj heq
    rw [hpc] at hold
    obtain ⟨hl, hne⟩ := hold
    exact h.owner hl rfl (fun _ => List.mem_of_mem_tail) (fun hi => absurd hi hne) h.once h.fresh
      trivial fun _ => rfl
  | unreachable => simp [hpc] at hstep

/-- Only two steps store the state. -/
theorem importState_loadStep (hstep : loadStep w exe ok = some w') :
    w'.importState = w.importState ∨
      (w.pc exe = .storeImporting ∧ w'.importState = .libImporting) ∨
      ∃ state err, w.pc exe = .store state err ∧ w'.importState = state := by
  unfold loadStep at hstep
  cases hpc : w.pc exe with
  | lock state | unlock err =>
    simp only [hpc, Option.bind_eq_bind, Option.bind_eq_some_iff] at hstep
    obtain ⟨-, -, heq⟩ := hstep
    obtain rfl := Option.some.inj heq
    exact Or.inl rfl
  | storeImporting =>
    simp only [hpc, Option.some.injEq] at hstep
    subst hstep
    exact Or.inr (Or.inl ⟨rfl, rfl⟩)
  | store state err =>
    simp only [hpc, Option.some.injEq] at hstep
    subst hstep
    exact Or.inr (Or.inr ⟨state, err, rfl, rfl⟩)
  | unreachable => simp [hpc] at hstep
  | callObj | getImportInit =>
    simp only [hpc, Option.some.injEq] at hstep
    subst hstep
    left
    split <;> rfl
  | _ =>
    simp only [hpc, Option.some.injEq] at hstep
    subst hstep
    exact Or.inl rfl

theorem loadSafe_of_step (h : LibInv w) (hstep : loadStep w exe ok = some w') :
    LoadSafe w exe w' where
  moves := by
    have hold := h.threads exe
    rcases importState_loadStep hstep with hs | ⟨hpc, hs⟩ | ⟨state, err, hpc, hs⟩
    · exact Or.inl hs
    · rw [hpc] at hold
      exact Or.inr (Or.inl ⟨hold.2, hs⟩)
    · rw [hpc] at hold ⊢
      obtain ⟨-, hst, hnone, hne⟩ := hold
      refine Or.inr (Or.inr ⟨hst, ?_⟩)
      rw [hs]
      cases state with
      | libNone => exact Or.inr (Or.inr ⟨rfl, by rw [(hnone rfl).2]⟩)
      | libImporting => exact absurd rfl hne
      | libImported => exact Or.inl rfl
      | libError => exact Or.inr (Or.inl rfl)
  once := (libInv_step h hstep).once

theorem LockOwned.goto (ho : LockOwned w) (hpcs : w'.pc = w.pc) (hsingle : w'.lock.length ≤ 1)
    (hothers : ∀ u, u ≠ exe → u ∈ w'.lock →
      u ∈ w.lock ∧ (w.importState ≠ .libImporting → w'.importState ≠ .libImporting))
    (hpc : exe ∈ w'.lock → pc.Owns)
    (hsettled : ∀ state, pc = .reload state → exe ∈ w'.lock → w'.importState ≠ .libImporting)
    (hreached : pc ≠ .unreachable) : LockOwned (w'.goto exe pc) where
  owned u hu := by
    by_cases hue : u = exe
    · subst hue
      simpa using hpc hu
    · simpa [hue, hpcs] using ho.owned u (hothers u hue hu).1
  single := hsingle
  settled u state hu hl := by
    by_cases hue : u = exe
    · subst hue
      exact hsettled state (by simpa using hu) hl
    · obtain ⟨hmem, hstays⟩ := hothers u hue hl
      exact hstays (ho.settled u state (by simpa [hue, hpcs] using hu) hmem)
  reached u := by
    by_cases hue : u = exe
    · subst hue
      simpa using hreached
    · simpa [hue, hpcs] using ho.reached u

theorem LockOwned.stay (ho : LockOwned w) (hpc : (w.pc exe).Owns → pc.Owns)
    (hsettled : ∀ state, pc = .reload state → exe ∉ w.lock) (hreached : pc ≠ .unreachable) :
    LockOwned (w.goto exe pc) :=
  ho.goto rfl ho.single (fun _ _ hu => ⟨hu, id⟩) (fun hl => hpc (ho.owned exe hl))
    (fun state hs hl => absurd hl (hsettled state hs)) hreached

/-- A step of the thread that has the lock: there is no other one to be considered. -/
theorem LockOwned.owner (h : LibInv w) (ho : LockOwned w) (hl : exe ∈ w.lock) (hpcs : w'.pc = w.pc)
    (hlock : w'.lock = w.lock) (hpc : pc.Owns) (hsettled : ∀ state, pc ≠ .reload state) :
    LockOwned (w'.goto exe pc) :=
  ho.goto hpcs (hlock ▸ ho.single)
    (fun u hue hu => absurd (h.one u (hlock ▸ hu) exe hl) hue) (fun _ => hpc)
    (fun state hs _ => absurd hs (hsettled state)) fun hu => by simp [hu, LoadPc.Owns] at hpc

theorem loadLibSwitch_ne_reload (state state' s : FklVMlibImportState) :
    loadLibSwitch state s ≠ .reload state' := by
  cases s with
  | libNone | libImporting => nofun
  | libImported | libError =>
    simp only [loadLibSwitch]
    split_ifs <;> nofun

theorem lockOwned_step (h : LibInv w) (ho : LockOwned w) (hstep : loadStep w exe ok = some w')
    (hleaves : ¬LeavesLocked w exe ok) : LockOwned w' := by
  have hold := h.threads exe
  have howned := ho.owned exe
  unfold loadStep at hstep
  unfold LeavesLocked at hleaves
  cases hpc : w.pc exe with
  | outside | finished err =>
    simp only [hpc, Option.some.injEq] at hstep
    rw [hpc] at howned
    subst hstep
    refine ho.stay (by simp [hpc, LoadPc.Owns]) (fun _ _ => howned) ?_
    unfold loadLibLocks
    split_ifs <;> nofun
  | lock state =>
    simp only [hpc, Option.bind_eq_bind, Option.bind_eq_some_iff] at hstep
    obtain ⟨_, hassert, heq⟩ := hstep
    have hmine : ∀ u ∈ w.lock, u = exe := by
      by_contra hne
      simp [fklAssert, hne] at hassert
    obtain rfl := Option.some.inj heq
    rw [hpc] at hold howned
    have hfree : w.lock = [] :=
      List.eq_nil_iff_forall_not_mem.mpr fun u hu => howned (hmine u hu ▸ hu)
    refine ho.goto rfl (by simp [setLock, hfree]) (fun u hue hu => ?_) (fun _ => hold)
      (fun _ _ _ hi => h.importing hi hfree) nofun
    simp [setLock, hfree, hue] at hu
  | reload state =>
    simp only [hpc, Option.some.injEq] at hstep hleaves
    have hsettled := ho.settled exe state hpc
    subst hstep
    rw [hpc] at hold howned
    have howns : (LoadPc.reload state).Owns → (loadLibSwitch state w.importState).Owns :=
      fun howns => owns_loadLibSwitch hold howns (hsettled (hold.mem_lock howns)) hleaves
    refine ho.stay (hpc ▸ howns) (fun state' hs => absurd hs (loadLibSwitch_ne_reload _ _ _)) ?_
    rcases hold with ⟨hs, hl⟩ | ⟨hs, heq⟩
    · intro hun
      simpa [hun, LoadPc.Owns] using howns hs
    · rw [heq]
      rcases hs with rfl | rfl <;> nofun
  | storeImporting =>
    simp only [hpc, Option.some.injEq] at hstep
    rw [hpc] at hold
    subst hstep
    split <;> exact ho.owner h hold.1 rfl rfl trivial nofun
  | callObj | getImportInit =>
    simp only [hpc, Option.some.injEq] at hstep
    rw [hpc] at hold
    subst hstep
    split <;> exact ho.owner h hold.1 rfl rfl trivial nofun
  | prepCall | initFunc =>
    simp only [hpc, Option.some.injEq] at hstep hleaves
    rw [hpc] at hold
    rw [Bool.not_eq_false] at hleaves
    subst hstep hleaves
    exact ho.owner h hold.1 rfl rfl trivial nofun
  | runVM | createDll | checkUnbound =>
    simp only [hpc, Option.some.injEq] at hstep
    rw [hpc] at hold
    subst hstep
    split <;> exact ho.owner h hold.1 rfl rfl trivial nofun
  | store state err =>
    simp only [hpc, Option.some.injEq] at hstep
    rw [hpc] at hold
    subst hstep
    exact ho.owner h hold.1 rfl rfl trivial nofun
  | unlock err =>
    simp only [hpc, Option.bind_eq_bind, Option.bind_eq_some_iff] at hstep
    obtain ⟨-, -, heq⟩ := hstep
    obtain rfl := Option.some.inj heq
    have hempty : w.lock.tail = [] := List.length_eq_zero_iff.mp (by
      rw [List.length_tail]
      exact Nat.sub_eq_zero_of_le ho.single)
    refine ho.goto rfl (by simp [setLock, hempty]) ?_ ?_ nofun nofun <;> simp [setLock, hempty]
  | unreachable => simp [hpc] at hstep

/-- The step leaves the lock to no thread that is through just when it is not one that leaves it
locked. -/
theorem released_iff (h : LibInv w) (ho : LockOwned w) (hstep : loadStep w exe ok = some w') :
    (∀ u err, w'.pc u = .finished err → u ∉ w'.lock) ↔ ¬LeavesLocked w exe ok := by
  refine ⟨fun hr hleaves => ?_, fun hleaves u err hu hl => ?_⟩
  · have hold := h.threads exe
    have hlast : ∃ err, w'.pc exe = .finished err ∧ exe ∈ w'.lock := by
      unfold LeavesLocked at hleaves
      unfold loadStep at hstep
      cases hpc : w.pc exe with
      | reload state =>
        simp only [hpc, Option.some.injEq] at hstep hleaves
        rw [hpc] at hold
        obtain ⟨rfl, hs⟩ := hleaves
        have hl : exe ∈ w.lock := hold.mem_lock (Or.inl rfl)
        subst hstep
        rcases hs with hs | hs <;> simp [hs, hl, loadLibSwitch]
      | prepCall | initFunc =>
        simp only [hpc, Option.some.injEq] at hstep hleaves
        rw [hpc] at hold
        subst hstep
        simp [hleaves, hold.1]
      | _ => simp [hpc] at hleaves
    obtain ⟨err, hpc, hl⟩ := hlast
    exact hr exe err hpc hl
  · have howns := (lockOwned_step h ho hstep hleaves).owned u hl
    rw [hu] at howns
    exact howns

theorem loadRight_iff (h : LibInv w) (ho : LockOwned w) (hstep : loadStep w exe ok = some w') :
    LoadRight w exe w' ↔ ¬LeavesLocked w exe ok :=
  ⟨fun hr => (released_iff h ho hstep).mp hr.released, fun hl =>
    ⟨loadSafe_of_step h hstep, (lockOwned_step h ho hstep hl).reached,
      (released_iff h ho hstep).mpr hl⟩⟩

/-- Each step of a run is as `P` says; a run ends where a step cannot be made. -/
def AlongLoad (P : LibWorld T → T → Bool → LibWorld T → Prop) (w : LibWorld T) :
    List (T × Bool) → Prop
  | [] => True
  | (exe, ok) :: steps => ∀ w', loadStep w exe ok = some w' →
    P w exe ok w' ∧ AlongLoad P w' steps

theorem AlongLoad.at_append {P : LibWorld T → T → Bool → LibWorld T → Prop}
    (pre : List (T × Bool)) {post : List (T × Bool)} {w₁ : LibWorld T}
    (h : AlongLoad P w (pre ++ (exe, ok) :: post)) (hpre : loadRun w pre = some w₁)
    (hstep : loadStep w₁ exe ok = some w') : P w₁ exe ok w' := by
  induction pre generalizing w with
  | nil =>
    obtain rfl : w = w₁ := Option.some.inj hpre
    exact (h w' hstep).1
  | cons s pre ih =>
    obtain ⟨w₂, hw₂, hrest⟩ := Option.bind_eq_some_iff.mp hpre
    exact ih (h w₂ hw₂).2 hrest

theorem alongLoad_safe (h : LibInv w) (steps : List (T × Bool)) :
    AlongLoad (fun w exe _ w' => LoadSafe w exe w') w steps := by
  induction steps generalizing w with
  | nil => trivial
  | cons s steps ih =>
    exact fun w' hstep => ⟨loadSafe_of_step h hstep, ih (libInv_step h hstep)⟩

theorem alongLoad_right_iff (h : LibInv w) (ho : LockOwned w) (steps : List (T × Bool)) :
    AlongLoad (fun w exe _ w' => LoadRight w exe w') w steps ↔
      AlongLoad (fun w exe ok _ => ¬LeavesLocked w exe ok) w steps := by
  induction steps generalizing w with
  | nil => exact Iff.rfl
  | cons s steps ih =>
    refine forall₂_congr fun w' hstep => ?_
    have hright := loadRight_iff h ho hstep
    constructor
    · rintro ⟨hr, hrest⟩
      have hl := hright.mp hr
      exact ⟨hl, (ih (libInv_step h hstep) (lockOwned_step h ho hstep hl)).mp hrest⟩
    · rintro ⟨hl, hrest⟩
      exact ⟨hright.mpr hl, (ih (libInv_step h hstep) (lockOwned_step h ho hstep hl)).mpr hrest⟩

/-- Whatever the order of the steps, the body of the library is begun once at most and the state
moves as it may. Besides, the unreachable case is not reached and every thread that is through has
let go of the lock, just when no thread locks the library, without having seen it imported, after
the import is over, no call of the body finds the stack full, and no dll raises an error as it is
initialised. -/
theorem loadLib_right_iff (proc : LibProc) (steps : List (T × Bool)) :
    AlongLoad (fun w exe _ w' => LoadSafe w exe w') (LibWorld.init proc) steps ∧
    (AlongLoad (fun w exe _ w' => LoadRight w exe w') (LibWorld.init proc) steps ↔
      AlongLoad (fun w exe ok _ => ¬LeavesLocked w exe ok) (LibWorld.init proc) steps) :=
  ⟨alongLoad_safe (libInv_init proc) steps,
    alongLoad_right_iff (libInv_init proc) (lockOwned_init proc) steps⟩

/-- Two threads find that nobody has imported the library; the first one imports it. -/
def lateLock : List (Nat × Bool) :=
  [(0, true), (1, true)] ++ List.replicate 9 (0, true) ++ [(1, true)]

/-- The second one then locks it and leaves it locked. -/
theorem lateLock_not_right :
    ¬AlongLoad (fun w exe _ w' => LoadRight w exe w') (LibWorld.init .procedure)
      (lateLock ++ [(1, true)]) := fun h =>
  (AlongLoad.at_append lateLock h rfl rfl).released 1 false rfl (List.mem_singleton_self 1)

/-- A thread whose stack is full raises an error and keeps the lock; it loads the library again. -/
def loadAgain : List (Nat × Bool) :=
  [(0, true), (0, true), (0, true), (0, true), (0, false), (0, true), (0, true), (0, true)]

/-- The lock lets it in, and it comes to the case that is said to be unreachable. -/
example : ((loadRun (LibWorld.init .procedure) loadAgain).map fun w => w.pc 0) =
    some .unreachable := by decide

end FakeLisp
