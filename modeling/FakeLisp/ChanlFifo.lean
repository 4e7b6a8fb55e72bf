import FakeLisp.Chanl
import Mathlib.Tactic.Common

/-!
A channel is a queue. Every message sent is delivered, or waits in the buffer, or waits with its
blocked sender, in the order of the sends; the receives are served in the order of the calls.
-/

namespace FakeLisp

variable {T V : Type}

@[simp] def sentMsgs : List (ChanlEvent T V) → List V
  | [] => []
  | .sent _ msg :: events => msg :: sentMsgs events
  | .asked _ :: events => sentMsgs events
  | .delivered _ _ :: events => sentMsgs events

@[simp] def askers : List (ChanlEvent T V) → List T
  | [] => []
  | .sent _ _ :: events => askers events
  | .asked exe :: events => exe :: askers events
  | .delivered _ _ :: events => askers events

@[simp] def deliveries : List (ChanlEvent T V) → List (T × V)
  | [] => []
  | .sent _ _ :: events => deliveries events
  | .asked _ :: events => deliveries events
  | .delivered exe msg :: events => (exe, msg) :: deliveries events

/-- The value a thread was given last. -/
def lastDelivered [DecidableEq T] (ds : List (T × V)) (exe : T) : Option V :=
  ((ds.filter (·.1 = exe)).map (·.2)).getLast?

@[simp] theorem lastDelivered_append [DecidableEq T] (ds : List (T × V)) (exe exe' : T) (v : V) :
    lastDelivered (ds ++ [(exe, v)]) exe' =
      if exe = exe' then some v else lastDelivered ds exe' := by
  by_cases h : exe = exe' <;> simp [lastDelivered, h]

@[simp] theorem sentMsgs_append (events events' : List (ChanlEvent T V)) :
    sentMsgs (events ++ events') = sentMsgs events ++ sentMsgs events' := by
  induction events with
  | nil => rfl
  | cons event events ih => cases event <;> simp [ih]

@[simp] theorem askers_append (events events' : List (ChanlEvent T V)) :
    askers (events ++ events') = askers events ++ askers events' := by
  induction events with
  | nil => rfl
  | cons event events ih => cases event <;> simp [ih]

@[simp] theorem deliveries_append (events events' : List (ChanlEvent T V)) :
    deliveries (events ++ events') = deliveries events ++ deliveries events' := by
  induction events with
  | nil => rfl
  | cons event events ih => cases event <;> simp [ih]

/-! ## The buffer -/

namespace FklVMvalueChanl

def ring (ch : FklVMvalueChanl T V) : List V := ringContents ch.qsize ch.buf ch.recvx ch.count

/-- Every message that was sent and not yet delivered, oldest first. -/
def contents (ch : FklVMvalueChanl T V) : List V := ch.ring ++ ch.sendq.map (·.msg)

theorem contents_eq_nil {ch : FklVMvalueChanl T V} :
    ch.contents = [] ↔ ch.count = 0 ∧ ch.sendq = [] := by
  simp [contents, ring, ← List.length_eq_zero_iff]

structure RingOk (ch : FklVMvalueChanl T V) : Prop where
  qsize_lt : ch.qsize < 2 ^ 32
  count_le : ch.count ≤ ch.qsize
  recvx_lt : 0 < ch.qsize → ch.recvx < ch.qsize
  sendx_eq : 0 < ch.qsize → ch.sendx = (ch.recvx + ch.count) % ch.qsize

theorem popSend_nil {ch : FklVMvalueChanl T V} (hq : ch.sendq = []) : ch.popSend = (none, ch) := by
  rw [popSend, hq, List.head?_nil, List.tail_nil, ← hq]

theorem popSend_cons {ch : FklVMvalueChanl T V} {send : FklVMchanlSend T V}
    {sendq : List (FklVMchanlSend T V)} (hq : ch.sendq = send :: sendq) :
    ch.popSend = (some send, { ch with sendq }) := by
  simp [popSend, hq]

theorem popRecv_nil {ch : FklVMvalueChanl T V} (hq : ch.recvq = []) : ch.popRecv = (none, ch) := by
  rw [popRecv, hq, List.head?_nil, List.tail_nil, ← hq]

theorem popRecv_cons {ch : FklVMvalueChanl T V} {recv : FklVMchanlRecv T}
    {recvq : List (FklVMchanlRecv T)} (hq : ch.recvq = recv :: recvq) :
    ch.popRecv = (some recv, { ch with recvq }) := by
  simp [popRecv, hq]

/-- The buffer moves on, and nothing else of the channel changes. -/
structure RingStep (ch ch' : FklVMvalueChanl T V) : Prop where
  ok : ch'.RingOk
  recvq : ch'.recvq = ch.recvq
  sendq : ch'.sendq = ch.sendq
  qsize : ch'.qsize = ch.qsize

theorem pushMsg_spec {ch : FklVMvalueChanl T V} (h : ch.RingOk) (hroom : ch.count < ch.qsize)
    (msg : V) : ∃ ch', ch.pushMsg msg = some ch' ∧ ch.RingStep ch' ∧
      ch'.count = ch.count + 1 ∧ ch'.ring = ch.ring ++ [msg] := by
  have hpos : 0 < ch.qsize := Nat.zero_lt_of_lt hroom
  have hsend := h.sendx_eq hpos
  have hlt : ch.sendx < ch.qsize := hsend ▸ Nat.mod_lt _ hpos
  have hq := h.qsize_lt
  have hcount : u32 ((ch.count + 1 : Nat) : Int) = ch.count + 1 := u32_of_lt (by omega)
  have hnext : u32 ((ch.sendx + 1 : Nat) : Int) = ch.sendx + 1 := u32_of_lt (by omega)
  let ch' := { ch with
    buf := Function.update ch.buf ch.sendx msg
    sendx := (ch.sendx + 1) % ch.qsize
    count := ch.count + 1 }
  have hop : ch.pushMsg msg = some ch' := by
    simp only [pushMsg, fklAssert_eq_some hlt, hcount, hnext]
    rfl
  refine ⟨ch', hop, ⟨⟨hq, hroom, h.recvx_lt, fun _ => ?_⟩, rfl, rfl, rfl⟩, rfl, ?_⟩
  · simp only [ch', hsend, Nat.mod_add_mod, Nat.add_assoc]
  · simp only [ring, ch', hsend]
    exact ringContents_push ch.buf ch.recvx msg hroom

theorem popMsg_spec {ch : FklVMvalueChanl T V} (h : ch.RingOk) (hcount : ch.count ≠ 0) :
    ∃ v ch', ch.popMsg = some (v, ch') ∧ ch.RingStep ch' ∧
      ch'.count + 1 = ch.count ∧ ch.ring = v :: ch'.ring := by
  have hpos : 0 < ch.qsize := by have := h.count_le; omega
  have hlt := h.recvx_lt hpos
  have hq := h.qsize_lt
  have hle := h.count_le
  have hnext : u32 ((ch.recvx + 1 : Nat) : Int) = ch.recvx + 1 := u32_of_lt (by omega)
  obtain ⟨n, hn⟩ := Nat.exists_eq_succ_of_ne_zero hcount
  have hdown : u32 ((ch.count : Int) - 1) = n := by
    rw [hn, Nat.succ_eq_add_one, Nat.cast_add, Nat.cast_one, add_sub_cancel_right]
    exact u32_of_lt (by omega)
  let ch' := { ch with recvx := (ch.recvx + 1) % ch.qsize, count := n }
  have hop : ch.popMsg = some (ch.buf ch.recvx, ch') := by
    simp only [popMsg, fklAssert_eq_some hlt, hdown, hnext]
    rfl
  refine ⟨_, ch', hop, ⟨⟨hq, ?_, fun _ => Nat.mod_lt _ hpos, fun _ => ?_⟩, rfl, rfl, rfl⟩,
    hn.symm, ?_⟩
  · simp only [ch']
    omega
  · simp only [ch', h.sendx_eq hpos, hn, Nat.mod_add_mod]
    congr 1
    omega
  · simp only [ring, ch', hn]
    rw [Nat.succ_eq_add_one, ringContents_pop, Nat.mod_eq_of_lt hlt]

theorem takeFrom_spec {ch : FklVMvalueChanl T V} (h : ch.RingOk) (send : FklVMchanlSend T V) :
    ∃ v ch', ch.takeFrom send = some (v, ch') ∧ ch.RingStep ch' ∧
      ch'.count = ch.count ∧ ch.ring ++ [send.msg] = v :: ch'.ring := by
  by_cases hcount : ch.count = 0
  · refine ⟨send.msg, ch, by simp [takeFrom, hcount], ⟨h, rfl, rfl, rfl⟩, rfl, ?_⟩
    simp [ring, hcount]
  · obtain ⟨v, ch₁, hpop, hs₁, hc₁, hr₁⟩ := popMsg_spec h hcount
    have hroom : ch₁.count < ch₁.qsize := by
      have := h.count_le
      rw [hs₁.qsize]
      omega
    obtain ⟨ch₂, hpush, hs₂, hc₂, hr₂⟩ := pushMsg_spec hs₁.ok hroom send.msg
    refine ⟨v, ch₂, by simp [takeFrom, hcount, hpop, hpush], ⟨hs₂.ok, ?_, ?_, ?_⟩, ?_, ?_⟩
    · rw [hs₂.recvq, hs₁.recvq]
    · rw [hs₂.sendq, hs₁.sendq]
    · rw [hs₂.qsize, hs₁.qsize]
    · omega
    · rw [hr₁, hr₂, List.cons_append]

/-- The oldest message is taken out; the place of a blocked sender's message moves with it. -/
structure Taken (ch : FklVMvalueChanl T V) (v : V) (ch' : FklVMvalueChanl T V) : Prop where
  ok : ch'.RingOk
  recvq : ch'.recvq = ch.recvq
  full : ch'.sendq ≠ [] → ch'.count = ch'.qsize
  contents : ch.contents = v :: ch'.contents

theorem takeFrom_taken {ch : FklVMvalueChanl T V} (h : ch.RingOk)
    (hfull : ch.sendq ≠ [] → ch.count = ch.qsize) {send : FklVMchanlSend T V}
    {sendq : List (FklVMchanlSend T V)} (hq : ch.sendq = send :: sendq) :
    ∃ v ch', { ch with sendq }.takeFrom send = some (v, ch') ∧ ch'.sendq = sendq ∧
      ch.Taken v ch' := by
  have hok : { ch with sendq }.RingOk := { h with }
  obtain ⟨v, ch', hop, hs, hcount, hring⟩ := takeFrom_spec hok send
  refine ⟨v, ch', hop, hs.sendq, hs.ok, hs.recvq, fun _ => ?_, ?_⟩
  · rw [hcount, hs.qsize]
    exact hfull (by simp [hq])
  · have hsame : { ch with sendq }.ring = ch.ring := rfl
    rw [hsame] at hring
    rw [contents, contents, hs.sendq, hq, List.map_cons, ← List.cons_append, ← hring]
    simp

theorem popMsg_taken {ch : FklVMvalueChanl T V} (h : ch.RingOk) (hq : ch.sendq = [])
    (hcount : ch.count ≠ 0) :
    ∃ v ch', ch.popMsg = some (v, ch') ∧ ch'.sendq = [] ∧ ch.Taken v ch' := by
  obtain ⟨v, ch', hop, hs, _, hring⟩ := popMsg_spec h hcount
  have hsendq : ch'.sendq = [] := hs.sendq.trans hq
  refine ⟨v, ch', hop, hsendq, hs.ok, hs.recvq, fun hne => absurd hsendq hne, ?_⟩
  simp [contents, hring, hsendq, hq]

end FklVMvalueChanl

/-! ## The threads -/

theorem FklVMchanlRecv.eq_of_own (r : FklVMchanlRecv T) (h : r.cond = r.exe) :
    (⟨r.exe, r.exe, r.slot⟩ : FklVMchanlRecv T) = r := by
  obtain ⟨cond, exe, slot⟩ := r
  cases h
  rfl

variable [DecidableEq T]

/-- A thread waits exactly while its record stands in a queue, and a thread whose receive is over
finds in its slot the value it was given last. -/
structure ThreadsOk (exe : T → ChanlThread V) (recvq : List (FklVMchanlRecv T))
    (sendq : List (FklVMchanlSend T V)) (ds : List (T × V)) : Prop where
  sending : ∀ t, (exe t).pc = .sending false ↔ t ∈ sendq.map (·.cond)
  receiving : ∀ t slot, (exe t).pc = .receiving slot false ↔ ⟨t, t, slot⟩ ∈ recvq
  own : ∀ r ∈ recvq, r.cond = r.exe
  nodup_send : (sendq.map (·.cond)).Nodup
  nodup_recv : (recvq.map (·.exe)).Nodup
  found : ∀ t slot, (exe t).pc = .receiving slot true →
    lastDelivered ds t = some ((exe t).base slot)

namespace ThreadsOk

variable {exe : T → ChanlThread V} {recvq : List (FklVMchanlRecv T)}
  {sendq : List (FklVMchanlSend T V)} {ds : List (T × V)} {t : T}

/-- A thread that is not about to return may have its stack written and be given a value. -/
theorem store (h : ThreadsOk exe recvq sendq ds) (hpc : ∀ slot, (exe t).pc ≠ .receiving slot true)
    (base : Nat → V) : ThreadsOk (Function.update exe t { exe t with base }) recvq sendq ds := by
  have hsame : ∀ u, (Function.update exe t { exe t with base } u).pc = (exe u).pc := by
    intro u
    by_cases hu : u = t
    · subst hu
      simp
    · simp [hu]
  refine ⟨fun u => ?_, fun u slot => ?_, h.own, h.nodup_send, h.nodup_recv, fun u slot hu => ?_⟩
  · rw [hsame, h.sending]
  · rw [hsame, h.receiving]
  · rw [hsame] at hu
    have hne : u ≠ t := fun heq => hpc slot (heq ▸ hu)
    rw [Function.update_of_ne hne]
    exact h.found u slot hu

theorem deliver (h : ThreadsOk exe recvq sendq ds)
    (hpc : ∀ slot, (exe t).pc ≠ .receiving slot true) (v : V) :
    ThreadsOk exe recvq sendq (ds ++ [(t, v)]) := by
  refine ⟨h.sending, h.receiving, h.own, h.nodup_send, h.nodup_recv, fun u slot hu => ?_⟩
  have hne : t ≠ u := fun heq => hpc slot (heq ▸ hu)
  rw [lastDelivered_append, if_neg hne]
  exact h.found u slot hu

/-- One thread changes its place; the queues change by its record alone. -/
theorem move {recvq' : List (FklVMchanlRecv T)} {sendq' : List (FklVMchanlSend T V)} {pc : ChanlPc}
    (h : ThreadsOk exe recvq sendq ds)
    (hs : pc = .sending false ↔ t ∈ sendq'.map (·.cond))
    (hr : ∀ slot, pc = .receiving slot false ↔ ⟨t, t, slot⟩ ∈ recvq')
    (hsend : ∀ u, u ≠ t → (u ∈ sendq'.map (·.cond) ↔ u ∈ sendq.map (·.cond)))
    (hrecv : ∀ r, r.exe ≠ t → (r ∈ recvq' ↔ r ∈ recvq))
    (hown : ∀ r ∈ recvq', r.cond = r.exe) (hns : (sendq'.map (·.cond)).Nodup)
    (hnr : (recvq'.map (·.exe)).Nodup)
    (hfound : ∀ slot, pc = .receiving slot true →
      lastDelivered ds t = some ((exe t).base slot)) :
    ThreadsOk (Function.update exe t { exe t with pc }) recvq' sendq' ds := by
  refine ⟨fun u => ?_, fun u slot => ?_, hown, hns, hnr, fun u slot => ?_⟩ <;>
    obtain rfl | hu := eq_or_ne u t
  · simpa using hs
  · simpa [hu, hsend u hu] using h.sending u
  · simpa using hr slot
  · simpa [hu, hrecv ⟨u, u, slot⟩ hu] using h.receiving u slot
  · simpa using hfound slot
  · simpa [hu] using h.found u slot

theorem not_mem_sendq (h : ThreadsOk exe recvq sendq ds) (hpc : (exe t).pc ≠ .sending false) :
    t ∉ sendq.map (·.cond) := fun hmem => hpc ((h.sending t).mpr hmem)

theorem exe_ne_of_mem (h : ThreadsOk exe recvq sendq ds)
    (hpc : ∀ slot, (exe t).pc ≠ .receiving slot false) {r : FklVMchanlRecv T} (hr : r ∈ recvq) :
    r.exe ≠ t := by
  rintro rfl
  exact hpc r.slot ((h.receiving r.exe r.slot).mpr (r.eq_of_own (h.own r hr) ▸ hr))

/-- A thread that holds no record enters or ends a call without waiting. -/
theorem leave (h : ThreadsOk exe recvq sendq ds) (hs : (exe t).pc ≠ .sending false)
    (hr : ∀ slot, (exe t).pc ≠ .receiving slot false) {p : ChanlPc} (hs' : p ≠ .sending false)
    (hr' : ∀ slot, p ≠ .receiving slot false)
    (hfound : ∀ slot, p = .receiving slot true →
      lastDelivered ds t = some ((exe t).base slot)) :
    ThreadsOk (Function.update exe t { exe t with pc := p }) recvq sendq ds :=
  h.move (iff_of_false hs' (h.not_mem_sendq hs))
    (fun slot => iff_of_false (hr' slot) fun hmem => h.exe_ne_of_mem hr hmem rfl)
    (fun _ _ => Iff.rfl) (fun _ _ => Iff.rfl) h.own h.nodup_send h.nodup_recv hfound

theorem blockSend (h : ThreadsOk exe recvq sendq ds) (hpc : (exe t).pc = .outside) (msg : V) :
    ThreadsOk (Function.update exe t { exe t with pc := .sending false }) recvq
      (sendq ++ [⟨t, msg⟩]) ds := by
  have hnew := h.not_mem_sendq (t := t) (by simp [hpc])
  refine h.move (by simp) (fun slot => ?_) (fun u hu => by simp [hu]) (fun _ _ => Iff.rfl)
    h.own ?_ h.nodup_recv (by simp)
  · exact iff_of_false (by simp) fun hmem => h.exe_ne_of_mem (by simp [hpc]) hmem rfl
  · simpa [List.nodup_append] using ⟨h.nodup_send, fun a ha heq => hnew (by simpa using ⟨a, ha, heq⟩)⟩

theorem blockRecv (h : ThreadsOk exe recvq sendq ds) (hpc : (exe t).pc = .outside) (slot : Nat) :
    ThreadsOk (Function.update exe t { exe t with pc := .receiving slot false })
      (recvq ++ [⟨t, t, slot⟩]) sendq ds := by
  have hnew : ∀ r ∈ recvq, r.exe ≠ t := fun r hr => h.exe_ne_of_mem (by simp [hpc]) hr
  refine h.move ?_ (fun slot' => ?_) (fun _ _ => Iff.rfl) (fun r hr => ?_) ?_ h.nodup_send ?_
    (by simp)
  · exact iff_of_false (by simp) (h.not_mem_sendq (by simp [hpc]))
  · have : (⟨t, t, slot'⟩ : FklVMchanlRecv T) ∉ recvq := fun hmem => hnew _ hmem rfl
    simp [this, eq_comm]
  · have : r ≠ ⟨t, t, slot⟩ := fun heq => hr (by rw [heq])
    simp [this]
  · intro r hr
    rcases List.mem_append.mp hr with hr | hr
    · exact h.own r hr
    · rw [List.mem_singleton.mp hr]
  · simpa [List.nodup_append] using ⟨h.nodup_recv, fun r hr => hnew r hr⟩

/-- The first blocked sender is signalled as its record leaves the queue. -/
theorem wakeSend {send : FklVMchanlSend T V} (h : ThreadsOk exe recvq (send :: sendq) ds) :
    ThreadsOk (Function.update exe send.cond { exe send.cond with pc := .sending true })
      recvq sendq ds := by
  have hpc : (exe send.cond).pc = .sending false := (h.sending send.cond).mpr (by simp)
  have hnodup := List.nodup_cons.mp h.nodup_send
  refine h.move ?_ (fun slot => ?_) (fun u hu => by simp [hu]) (fun _ _ => Iff.rfl) h.own
    hnodup.2 h.nodup_recv (by simp)
  · exact iff_of_false (by simp) hnodup.1
  · exact iff_of_false (by simp) fun hmem => h.exe_ne_of_mem (by simp [hpc]) hmem rfl

/-- The first blocked receiver is signalled, its value being in its slot. -/
theorem wakeRecv {recv : FklVMchanlRecv T} (h : ThreadsOk exe (recv :: recvq) sendq ds)
    (hlast : lastDelivered ds recv.exe = some ((exe recv.exe).base recv.slot)) :
    ThreadsOk (Function.update exe recv.exe
      { exe recv.exe with pc := .receiving recv.slot true }) recvq sendq ds := by
  have hown : recv.cond = recv.exe := h.own recv (by simp)
  have hrec := recv.eq_of_own hown
  have hpc : (exe recv.exe).pc = .receiving recv.slot false :=
    (h.receiving recv.exe recv.slot).mpr (by simp [hrec])
  have hnodup := List.nodup_cons.mp h.nodup_recv
  refine h.move ?_ (fun slot => ?_) (fun _ _ => Iff.rfl) (fun r hr => ?_)
    (fun r hr => h.own r (by simp [hr])) h.nodup_send hnodup.2 ?_
  · exact iff_of_false (by simp) (h.not_mem_sendq (by simp [hpc]))
  · exact iff_of_false (by simp) fun hmem => hnodup.1 (List.mem_map.mpr ⟨_, hmem, rfl⟩)
  · have : r ≠ recv := fun heq => hr (by rw [heq])
    simp [this]
  · rintro slot hslot
    cases hslot
    exact hlast

end ThreadsOk

/-! ## The invariant -/

structure ChanlInv (w : ChanlWorld T V) : Prop where
  ring : w.ch.RingOk
  full : w.ch.sendq ≠ [] → w.ch.count = w.ch.qsize
  empty : w.ch.recvq ≠ [] → w.ch.count = 0 ∧ w.ch.sendq = []
  threads : ThreadsOk w.exe w.ch.recvq w.ch.sendq (deliveries w.events)
  fifo : sentMsgs w.events = (deliveries w.events).map (·.2) ++ w.ch.contents
  order : askers w.events = (deliveries w.events).map (·.1) ++ w.ch.recvq.map (·.exe)

namespace ChanlWorld

theorem signal_sending {w : ChanlWorld T V} {cond : T} (h : (w.exe cond).pc = .sending false) :
    w.signal cond = w.setPc cond (.sending true) := by
  simp [signal, h]

theorem signal_receiving {w : ChanlWorld T V} {cond : T} {slot : Nat}
    (h : (w.exe cond).pc = .receiving slot false) :
    w.signal cond = w.setPc cond (.receiving slot true) := by
  simp [signal, h]

end ChanlWorld

open ChanlWorld

/-! ## What each call does to the queue -/

/-- The oldest message goes to `exe`, which becomes `self`; if a sender is blocked, its record
leaves the queue and it is signalled. -/
structure Received (w : ChanlWorld T V) (exe : T) (v : V) (self : ChanlThread V)
    (w' : ChanlWorld T V) : Prop where
  contents : w.ch.contents = v :: w'.ch.contents
  events : w'.events = w.events ++ [.asked exe, .delivered exe v]
  recvq : w'.ch.recvq = w.ch.recvq
  sendq : w'.ch.sendq = w.ch.sendq.tail
  self : w'.exe exe = self
  woken : ∀ send ∈ w.ch.sendq.head?,
    w'.exe send.cond = { w.exe send.cond with pc := .sending true }
  others : ∀ u, u ≠ exe → (∀ send ∈ w.ch.sendq.head?, u ≠ send.cond) → w'.exe u = w.exe u

/-- The thread waits at the end of the queue for receivers. -/
structure RecvWaits (w : ChanlWorld T V) (exe : T) (slot : Nat) (w' : ChanlWorld T V) : Prop where
  contents : w'.ch.contents = []
  events : w'.events = w.events ++ [.asked exe]
  recvq : w'.ch.recvq = w.ch.recvq ++ [⟨exe, exe, slot⟩]
  self : w'.exe exe = { w.exe exe with pc := .receiving slot false }
  others : ∀ u, u ≠ exe → w'.exe u = w.exe u

/-- The message goes to the first receiver that waits, which is signalled. -/
structure HandedOver (w : ChanlWorld T V) (exe : T) (msg : V) (recv : FklVMchanlRecv T)
    (w' : ChanlWorld T V) : Prop where
  contents : w'.ch.contents = []
  events : w'.events = w.events ++ [.sent exe msg, .delivered recv.exe msg]
  recvq : w'.ch.recvq = w.ch.recvq.tail
  sendq : w'.ch.sendq = w.ch.sendq
  self : w'.exe exe = { w.exe exe with pc := .sending true }
  receiver : w'.exe recv.exe =
    ⟨Function.update (w.exe recv.exe).base recv.slot msg, .receiving recv.slot true⟩
  others : ∀ u, u ≠ exe → u ≠ recv.exe → w'.exe u = w.exe u

/-- The message is the newest one; its sender goes on when the buffer has room, and waits when it
is full. -/
structure Sent (w : ChanlWorld T V) (exe : T) (msg : V) (w' : ChanlWorld T V) : Prop where
  contents : w'.ch.contents = w.ch.contents ++ [msg]
  events : w'.events = w.events ++ [.sent exe msg]
  recvq : w'.ch.recvq = []
  sendq : w'.ch.sendq =
    if w.ch.count < w.ch.qsize then w.ch.sendq else w.ch.sendq ++ [⟨exe, msg⟩]
  self : w'.exe exe = { w.exe exe with pc := .sending (decide (w.ch.count < w.ch.qsize)) }
  others : ∀ u, u ≠ exe → w'.exe u = w.exe u

/-- Each call of `exe` does to the queue of messages what it is for. -/
structure CallsRight (w : ChanlWorld T V) (exe : T) : Prop where
  recvOk_empty : w.ch.contents = [] → fklChanlRecvOk w exe = some (none, w)
  recvOk_takes : w.ch.contents ≠ [] → ∃ v w', fklChanlRecvOk w exe = some (some v, w') ∧
    Received w exe v (w.exe exe) w'
  recv_waits (slot : Nat) : w.ch.contents = [] →
    ∃ w', fklChanlRecv w slot exe = some w' ∧ RecvWaits w exe slot w'
  recv_takes (slot : Nat) : w.ch.contents ≠ [] → ∃ v w', fklChanlRecv w slot exe = some w' ∧
    Received w exe v ⟨Function.update (w.exe exe).base slot v, .receiving slot true⟩ w'
  send_handsOver (msg : V) : ∀ recv ∈ w.ch.recvq.head?,
    ∃ w', fklChanlSend w msg exe = some w' ∧ HandedOver w exe msg recv w'
  send_queues (msg : V) : w.ch.recvq = [] →
    ∃ w', fklChanlSend w msg exe = some w' ∧ Sent w exe msg w'

namespace ChanlInv

variable {w : ChanlWorld T V} {exe : T}

/-- A message for the first blocked receiver: nothing else is in the channel. -/
theorem handOver (h : ChanlInv w) (hpc : (w.exe exe).pc = .outside) (msg : V)
    {recv : FklVMchanlRecv T} {recvq : List (FklVMchanlRecv T)} (hq : w.ch.recvq = recv :: recvq) :
    ∃ w', fklChanlSend w msg exe = some w' ∧ HandedOver w exe msg recv w' ∧ ChanlInv w' := by
  obtain ⟨hcount, hsendq⟩ := h.empty (by simp [hq])
  have ht := hq ▸ h.threads
  have hown : recv.cond = recv.exe := ht.own recv (by simp)
  have hblocked : (w.exe recv.exe).pc = .receiving recv.slot false :=
    (ht.receiving recv.exe recv.slot).mpr (by simp [recv.eq_of_own hown])
  have hne : exe ≠ recv.exe := by
    rintro rfl
    simp [hpc] at hblocked
  let w₁ := ((w.log (.sent exe msg)).setChanl { w.ch with recvq := recvq }).storeBase
    recv.exe recv.slot msg |>.log (.delivered recv.exe msg)
  have hsig : (w₁.exe recv.exe).pc = .receiving recv.slot false := by simp [w₁, hblocked]
  have hop : fklChanlSend w msg exe =
      some ((w₁.setPc recv.exe (.receiving recv.slot true)).setPc exe (.sending true)) := by
    rw [← signal_receiving hsig]
    simp [fklChanlSend, FklVMvalueChanl.popRecv_cons hq, hown, w₁]
  have hgiven : ThreadsOk w₁.exe (recv :: recvq) w.ch.sendq
      (deliveries w.events ++ [(recv.exe, msg)]) :=
    (ht.store (by simp [hblocked]) _).deliver (by simp [hblocked]) msg
  refine ⟨_, hop, ?_, { h.ring with }, fun hs => absurd hsendq hs, fun _ => ⟨hcount, hsendq⟩,
    ?_, ?_, ?_⟩
  · constructor <;> intros <;>
      simp_all [w₁, FklVMvalueChanl.contents, FklVMvalueChanl.ring, Ne.symm hne]
  · simpa [w₁] using (hgiven.wakeRecv (by simp [w₁])).leave (t := exe)
      (p := .sending true) (by simp [w₁, hne, hpc]) (by simp [w₁, hne, hpc]) (by simp) (by simp)
      (by simp)
  · have hfifo := h.fifo
    simp only [FklVMvalueChanl.contents, FklVMvalueChanl.ring, hcount, hsendq] at hfifo
    simpa [w₁, FklVMvalueChanl.contents, FklVMvalueChanl.ring, hcount, hsendq] using hfifo
  · simpa [w₁, hq] using h.order

/-- A message for the buffer. -/
theorem buffer (h : ChanlInv w) (hpc : (w.exe exe).pc = .outside) (msg : V)
    (hq : w.ch.recvq = []) (hroom : w.ch.count < w.ch.qsize) :
    ∃ w', fklChanlSend w msg exe = some w' ∧ Sent w exe msg w' ∧ ChanlInv w' := by
  have hsendq : w.ch.sendq = [] := by
    by_contra hne
    exact hroom.ne (h.full hne)
  obtain ⟨ch', hpush, hs, hcount, hring⟩ := FklVMvalueChanl.pushMsg_spec h.ring hroom msg
  have hop : fklChanlSend w msg exe =
      some (((w.log (.sent exe msg)).setChanl ch').setPc exe (.sending true)) := by
    simp [fklChanlSend, FklVMvalueChanl.popRecv_nil hq, hroom, hpush]
  have hcontents : ch'.contents = w.ch.contents ++ [msg] := by
    simp [FklVMvalueChanl.contents, hring, hs.sendq, hsendq]
  refine ⟨_, hop, ⟨hcontents, rfl, hs.recvq.trans hq, ?_, ?_, ?_⟩, hs.ok, fun hne => ?_,
    fun hne => ?_, ?_, ?_, ?_⟩
  · simp [hs.sendq, hroom]
  · simp [hroom]
  · intro u hu
    simp [hu]
  · exact absurd (hs.sendq.trans hsendq) hne
  · exact absurd (hs.recvq.trans hq) hne
  · simpa [hs.recvq, hs.sendq] using h.threads.leave (t := exe) (p := .sending true)
      (by simp [hpc]) (by simp [hpc]) (by simp) (by simp) (by simp)
  · simp [hcontents, h.fifo]
  · simpa [hs.recvq] using h.order

/-- A message that stays with its sender, which waits. -/
theorem blockedSend (h : ChanlInv w) (hpc : (w.exe exe).pc = .outside) (msg : V)
    (hq : w.ch.recvq = []) (hroom : ¬w.ch.count < w.ch.qsize) :
    ∃ w', fklChanlSend w msg exe = some w' ∧ Sent w exe msg w' ∧ ChanlInv w' := by
  have hfull : w.ch.count = w.ch.qsize := by
    have := h.ring.count_le
    omega
  have hop : fklChanlSend w msg exe = some (((w.log (.sent exe msg)).setChanl
      (w.ch.pushSend ⟨exe, msg⟩)).setPc exe (.sending false)) := by
    simp [fklChanlSend, FklVMvalueChanl.popRecv_nil hq, hroom]
  have hcontents : (w.ch.pushSend ⟨exe, msg⟩).contents = w.ch.contents ++ [msg] := by
    simp [FklVMvalueChanl.contents, FklVMvalueChanl.ring, FklVMvalueChanl.pushSend]
  refine ⟨_, hop, ⟨hcontents, rfl, hq, ?_, ?_, ?_⟩, { h.ring with }, fun _ => hfull,
    fun hne => absurd hq hne, ?_, ?_, ?_⟩
  · simp [FklVMvalueChanl.pushSend, hroom]
  · simp [hroom]
  · intro u hu
    simp [hu]
  · simpa [FklVMvalueChanl.pushSend] using h.threads.blockSend hpc msg
  · simp [hcontents, h.fifo]
  · simpa [FklVMvalueChanl.pushSend] using h.order

/-- A message that goes to the end of the queue. -/
theorem sendQueues (h : ChanlInv w) (hpc : (w.exe exe).pc = .outside) (msg : V)
    (hq : w.ch.recvq = []) :
    ∃ w', fklChanlSend w msg exe = some w' ∧ Sent w exe msg w' ∧ ChanlInv w' := by
  by_cases hroom : w.ch.count < w.ch.qsize
  · exact h.buffer hpc msg hq hroom
  · exact h.blockedSend hpc msg hq hroom

theorem send (h : ChanlInv w) (hpc : (w.exe exe).pc = .outside) (msg : V) :
    ∃ w', fklChanlSend w msg exe = some w' ∧ ChanlInv w' := by
  cases hq : w.ch.recvq with
  | cons recv recvq =>
    obtain ⟨w', hop, -, hinv⟩ := h.handOver hpc msg hq
    exact ⟨w', hop, hinv⟩
  | nil =>
    obtain ⟨w', hop, -, hinv⟩ := h.sendQueues hpc msg hq
    exact ⟨w', hop, hinv⟩

theorem recvq_nil (h : ChanlInv w) (hne : w.ch.sendq ≠ [] ∨ w.ch.count ≠ 0) :
    w.ch.recvq = [] := by
  by_contra hq
  obtain ⟨hcount, hsendq⟩ := h.empty hq
  exact hne.elim (absurd hsendq) (absurd hcount)

/-- A receive that finds a message ends at once. -/
theorem of_taken (h : ChanlInv w) (hrecvq : w.ch.recvq = []) (exe : T) (v : V)
    {w' : ChanlWorld T V}
    (htaken : w.ch.Taken v w'.ch)
    (hevents : w'.events = w.events ++ [.asked exe, .delivered exe v])
    (hthreads : ThreadsOk w'.exe [] w'.ch.sendq (deliveries w.events ++ [(exe, v)])) :
    ChanlInv w' := by
  have hq : w'.ch.recvq = [] := htaken.recvq.trans hrecvq
  refine ⟨htaken.ok, htaken.full, fun hne => absurd hq hne, ?_, ?_, ?_⟩
  · simpa [hq, hevents] using hthreads
  · simp [hevents, h.fifo, htaken.contents]
  · simp [hevents, h.order, hrecvq, hq]

theorem recvTakes (h : ChanlInv w) (hpc : (w.exe exe).pc = .outside) (slot : Nat)
    (hne : w.ch.contents ≠ []) : ∃ v w', fklChanlRecv w slot exe = some w' ∧
      Received w exe v ⟨Function.update (w.exe exe).base slot v, .receiving slot true⟩ w' ∧
      ChanlInv w' := by
  have ht := h.threads
  cases hq : w.ch.sendq with
  | cons send sendq =>
    have hrecvq := h.recvq_nil (.inl (by simp [hq]))
    rw [hrecvq, hq] at ht
    have hblocked : (w.exe send.cond).pc = .sending false := (ht.sending _).mpr (by simp)
    have hne : exe ≠ send.cond := by
      rintro rfl
      simp [hpc] at hblocked
    obtain ⟨v, ch', htake, hsendq, htaken⟩ := FklVMvalueChanl.takeFrom_taken h.ring h.full hq
    let w₁ := ((w.log (.asked exe)).setChanl ch').storeBase exe slot v |>.log (.delivered exe v)
    have hsig : (w₁.exe send.cond).pc = .sending false := by simp [w₁, hne.symm, hblocked]
    have hop : fklChanlRecv w slot exe =
        some ((w₁.setPc send.cond (.sending true)).setPc exe (.receiving slot true)) := by
      rw [← signal_sending hsig]
      simp [fklChanlRecv, FklVMvalueChanl.popSend_cons hq, htake, w₁]
    have hgiven : ThreadsOk w₁.exe [] (send :: sendq) (deliveries w.events ++ [(exe, v)]) :=
      (ht.store (by simp [hpc]) _).deliver (by simp [hpc]) v
    refine ⟨v, _, hop, ⟨htaken.contents, by simp [w₁], htaken.recvq, ?_, ?_, ?_, ?_⟩,
      h.of_taken hrecvq exe v htaken (by simp [w₁]) ?_⟩
    · simp [w₁, hsendq, hq]
    · simp [w₁, hne]
    · simp [w₁, hq, hne.symm]
    · intro u hu hsend
      have hu' : u ≠ send.cond := hsend send (by simp [hq])
      simp [w₁, hu, hu']
    · simpa [w₁, hsendq] using hgiven.wakeSend.leave (t := exe) (p := .receiving slot true)
        (by simp [w₁, hne, hpc]) (by simp [w₁, hne, hpc]) (by simp) (by simp) (by simp [w₁, hne])
  | nil =>
    have hcount : w.ch.count ≠ 0 := fun hc => hne (FklVMvalueChanl.contents_eq_nil.mpr ⟨hc, hq⟩)
    obtain ⟨v, ch', htake, hsendq, htaken⟩ := FklVMvalueChanl.popMsg_taken h.ring hq hcount
    have hrecvq := h.recvq_nil (.inr hcount)
    rw [hrecvq, hq] at ht
    let w₁ := ((w.log (.asked exe)).setChanl ch').storeBase exe slot v |>.log (.delivered exe v)
    have hop : fklChanlRecv w slot exe = some (w₁.setPc exe (.receiving slot true)) := by
      simp [fklChanlRecv, FklVMvalueChanl.popSend_nil hq, hcount, htake, w₁]
    have hgiven : ThreadsOk w₁.exe [] [] (deliveries w.events ++ [(exe, v)]) :=
      (ht.store (by simp [hpc]) _).deliver (by simp [hpc]) v
    refine ⟨v, _, hop, ⟨htaken.contents, by simp [w₁], htaken.recvq, ?_, ?_, by simp [hq], ?_⟩,
      h.of_taken hrecvq exe v htaken (by simp [w₁]) ?_⟩
    · simp [w₁, hsendq, hq]
    · simp [w₁]
    · intro u hu _
      simp [w₁, hu]
    · simpa [w₁, hsendq] using hgiven.leave (t := exe) (p := .receiving slot true)
        (by simp [w₁, hpc]) (by simp [w₁, hpc]) (by simp) (by simp) (by simp [w₁])

/-- A receive that finds nothing waits behind those that came before it. -/
theorem recvWaits (h : ChanlInv w) (hpc : (w.exe exe).pc = .outside) (slot : Nat)
    (hempty : w.ch.contents = []) :
    ∃ w', fklChanlRecv w slot exe = some w' ∧ RecvWaits w exe slot w' ∧ ChanlInv w' := by
  obtain ⟨hcount, hq⟩ := FklVMvalueChanl.contents_eq_nil.mp hempty
  have hop : fklChanlRecv w slot exe = some (((w.log (.asked exe)).setChanl
      (w.ch.pushRecv ⟨exe, exe, slot⟩)).setPc exe (.receiving slot false)) := by
    simp [fklChanlRecv, FklVMvalueChanl.popSend_nil hq, hcount]
  refine ⟨_, hop, ⟨hempty, rfl, rfl, by simp, fun u hu => by simp [hu]⟩, { h.ring with },
    fun hne => absurd hq hne, fun _ => ⟨hcount, hq⟩, ?_, ?_, ?_⟩
  · simpa [FklVMvalueChanl.pushRecv] using h.threads.blockRecv hpc slot
  · simpa [FklVMvalueChanl.contents, FklVMvalueChanl.ring, FklVMvalueChanl.pushRecv] using h.fifo
  · simp [FklVMvalueChanl.pushRecv, h.order]

theorem recv (h : ChanlInv w) (hpc : (w.exe exe).pc = .outside) (slot : Nat) :
    ∃ w', fklChanlRecv w slot exe = some w' ∧ ChanlInv w' := by
  by_cases hempty : w.ch.contents = []
  · obtain ⟨w', hop, -, hinv⟩ := h.recvWaits hpc slot hempty
    exact ⟨w', hop, hinv⟩
  · obtain ⟨v, w', hop, -, hinv⟩ := h.recvTakes hpc slot hempty
    exact ⟨w', hop, hinv⟩

theorem recvOkTakes (h : ChanlInv w) (hpc : (w.exe exe).pc = .outside)
    (hne : w.ch.contents ≠ []) : ∃ v w', fklChanlRecvOk w exe = some (some v, w') ∧
      Received w exe v (w.exe exe) w' ∧ ChanlInv w' := by
  have ht := h.threads
  cases hq : w.ch.sendq with
  | cons send sendq =>
    have hrecvq := h.recvq_nil (.inl (by simp [hq]))
    rw [hrecvq, hq] at ht
    have hblocked : (w.exe send.cond).pc = .sending false := (ht.sending _).mpr (by simp)
    have hne : exe ≠ send.cond := by
      rintro rfl
      simp [hpc] at hblocked
    obtain ⟨v, ch', htake, hsendq, htaken⟩ := FklVMvalueChanl.takeFrom_taken h.ring h.full hq
    have hsig : ((w.setChanl ch').exe send.cond).pc = .sending false := by simp [hblocked]
    have hop : fklChanlRecvOk w exe = some (some v, (w.setChanl ch').setPc send.cond (.sending true)
        |>.log (.asked exe) |>.log (.delivered exe v)) := by
      rw [← signal_sending hsig]
      simp [fklChanlRecvOk, FklVMvalueChanl.popSend_cons hq, htake]
    have hgiven : ThreadsOk w.exe [] (send :: sendq) (deliveries w.events ++ [(exe, v)]) :=
      ht.deliver (by simp [hpc]) v
    refine ⟨v, _, hop, ⟨htaken.contents, by simp, htaken.recvq, ?_, ?_, ?_, ?_⟩,
      h.of_taken hrecvq exe v htaken (by simp) ?_⟩
    · simp [hsendq, hq]
    · simp [hne]
    · simp [hq]
    · intro u hu hsend
      have hu' : u ≠ send.cond := hsend send (by simp [hq])
      simp [hu']
    · simpa [hsendq] using hgiven.wakeSend
  | nil =>
    have hcount : w.ch.count ≠ 0 := fun hc => hne (FklVMvalueChanl.contents_eq_nil.mpr ⟨hc, hq⟩)
    obtain ⟨v, ch', htake, hsendq, htaken⟩ := FklVMvalueChanl.popMsg_taken h.ring hq hcount
    have hrecvq := h.recvq_nil (.inr hcount)
    rw [hrecvq, hq] at ht
    have hop : fklChanlRecvOk w exe = some (some v, w.setChanl ch'
        |>.log (.asked exe) |>.log (.delivered exe v)) := by
      simp [fklChanlRecvOk, FklVMvalueChanl.popSend_nil hq, hcount, htake]
    refine ⟨v, _, hop, ⟨htaken.contents, by simp, htaken.recvq, by simp [hsendq, hq], rfl,
      by simp [hq], fun _ _ _ => rfl⟩, h.of_taken hrecvq exe v htaken (by simp) ?_⟩
    simpa [hsendq] using ht.deliver (by simp [hpc]) v

theorem recvOkEmpty (hempty : w.ch.contents = []) : fklChanlRecvOk w exe = some (none, w) := by
  obtain ⟨hcount, hq⟩ := FklVMvalueChanl.contents_eq_nil.mp hempty
  simp [fklChanlRecvOk, FklVMvalueChanl.popSend_nil hq, hcount, setChanl]

theorem recvOk (h : ChanlInv w) (hpc : (w.exe exe).pc = .outside) :
    ∃ r w', fklChanlRecvOk w exe = some (r, w') ∧ ChanlInv w' := by
  by_cases hempty : w.ch.contents = []
  · exact ⟨none, w, recvOkEmpty hempty, h⟩
  · obtain ⟨v, w', hop, -, hinv⟩ := h.recvOkTakes hpc hempty
    exact ⟨some v, w', hop, hinv⟩

theorem callsRight (h : ChanlInv w) (hpc : (w.exe exe).pc = .outside) : CallsRight w exe where
  recvOk_empty := recvOkEmpty
  recvOk_takes hne := by
    obtain ⟨v, w', hop, hright, -⟩ := h.recvOkTakes hpc hne
    exact ⟨v, w', hop, hright⟩
  recv_waits slot hempty := by
    obtain ⟨w', hop, hright, -⟩ := h.recvWaits hpc slot hempty
    exact ⟨w', hop, hright⟩
  recv_takes slot hne := by
    obtain ⟨v, w', hop, hright, -⟩ := h.recvTakes hpc slot hne
    exact ⟨v, w', hop, hright⟩
  send_handsOver msg recv hrecv := by
    cases hq : w.ch.recvq with
    | nil => simp [hq] at hrecv
    | cons recv' recvq =>
      obtain rfl : recv' = recv := by simpa [hq] using hrecv
      obtain ⟨w', hop, hright, -⟩ := h.handOver hpc msg hq
      exact ⟨w', hop, hright⟩
  send_queues msg hq := by
    obtain ⟨w', hop, hright, -⟩ := h.sendQueues hpc msg hq
    exact ⟨w', hop, hright⟩

theorem start {qsize : Nat} (hq : qsize < 2 ^ 32) (buf : Nat → V) (base : T → Nat → V) :
    ChanlInv (ChanlWorld.start qsize buf base) := by
  refine ⟨⟨hq, Nat.zero_le _, id, fun _ => by simp [ChanlWorld.start, fklCreateVMvalueChanl]⟩,
    fun hne => absurd rfl hne, fun hne => absurd rfl hne, ⟨?_, ?_, ?_, ?_, ?_, ?_⟩, rfl, rfl⟩ <;>
    simp [ChanlWorld.start, fklCreateVMvalueChanl]

theorem step (h : ChanlInv w) {w' : ChanlWorld T V} (hstep : ChanlStep w w') : ChanlInv w' := by
  cases hstep with
  | recvOk hpc hop =>
    obtain ⟨r, w₂, hop₂, hinv⟩ := h.recvOk hpc
    cases hop.symm.trans hop₂
    exact hinv
  | recv hpc hop =>
    obtain ⟨w₂, hop₂, hinv⟩ := h.recv hpc _
    cases hop.symm.trans hop₂
    exact hinv
  | send hpc hop =>
    obtain ⟨w₂, hop₂, hinv⟩ := h.send hpc _
    cases hop.symm.trans hop₂
    exact hinv
  | ret hover =>
    refine ⟨h.ring, h.full, h.empty, ?_, h.fifo, h.order⟩
    refine h.threads.leave (fun hpc => ?_) (fun slot hpc => ?_) (by simp) (by simp) (by simp) <;>
      simp [hpc, ChanlPc.over] at hover
  | work hpc =>
    exact ⟨h.ring, h.full, h.empty, h.threads.store (by simp [hpc]) _, h.fifo, h.order⟩

theorem reaches (h : ChanlInv w) {w' : ChanlWorld T V} (hrun : ChanlReaches w w') :
    ChanlInv w' := by
  induction hrun with
  | refl => exact h
  | tail _ hstep ih => exact ih.step hstep

end ChanlInv

/-- The whole run of a channel: what was sent, what was received, who waits and why, and what the
next call of a thread does, which comes to an end or waits. -/
theorem fklChanl_fifo {qsize : Nat} (hq : qsize < 2 ^ 32) (buf : Nat → V) (base : T → Nat → V)
    {w : ChanlWorld T V} (hrun : ChanlReaches (ChanlWorld.start qsize buf base) w) :
    sentMsgs w.events = (deliveries w.events).map (·.2) ++ w.ch.contents ∧
    askers w.events = (deliveries w.events).map (·.1) ++ w.ch.recvq.map (·.exe) ∧
    (∀ exe slot, (w.exe exe).pc = .receiving slot true →
      lastDelivered (deliveries w.events) exe = some ((w.exe exe).base slot)) ∧
    (∀ exe, (w.exe exe).pc = .sending false ↔ exe ∈ w.ch.sendq.map (·.cond)) ∧
    (∀ exe slot, (w.exe exe).pc = .receiving slot false ↔ ⟨exe, exe, slot⟩ ∈ w.ch.recvq) ∧
    w.ch.count ≤ w.ch.qsize ∧
    (w.ch.sendq ≠ [] → w.ch.count = w.ch.qsize) ∧
    (w.ch.recvq ≠ [] → w.ch.count = 0) ∧
    (w.ch.recvq = [] ∨ w.ch.sendq = []) ∧
    (0 < w.ch.qsize → w.ch.sendx = (w.ch.recvx + w.ch.count) % w.ch.qsize) ∧
    ∀ exe, (w.exe exe).pc = .outside → CallsRight w exe := by
  have h : ChanlInv w := (ChanlInv.start hq buf base).reaches hrun
  refine ⟨h.fifo, h.order, h.threads.found, h.threads.sending, h.threads.receiving,
    h.ring.count_le, h.full, fun hne => (h.empty hne).1, ?_, h.ring.sendx_eq,
    fun exe hpc => h.callsRight hpc⟩
  by_cases hr : w.ch.recvq = []
  · exact .inl hr
  · exact .inr (h.empty hr).2

/-- A thread waits for a message, and another hands it over. -/
theorem handOver_fifo : ∃ w : ChanlWorld Nat Nat,
    ChanlReaches (ChanlWorld.start 1 (fun _ => 0) fun _ _ => 0) w ∧
      sentMsgs w.events = [7] ∧ (w.exe 0).base 3 = 7 := by
  let w₀ : ChanlWorld Nat Nat := ChanlWorld.start 1 (fun _ => 0) fun _ _ => 0
  obtain ⟨w₁, hw₁⟩ : ∃ w₁, fklChanlRecv w₀ 3 0 = some w₁ := ⟨_, rfl⟩
  obtain ⟨w₂, hw₂⟩ : ∃ w₂, fklChanlSend w₁ 7 1 = some w₂ := by
    cases hw₁
    exact ⟨_, rfl⟩
  have hrun : ChanlReaches w₀ w₂ := (Relation.ReflTransGen.single (.recv rfl hw₁)).tail
    (.send (by cases hw₁; rfl) hw₂)
  cases hw₁
  cases hw₂
  refine ⟨_, hrun, rfl, ?_⟩
  have hfound := (fklChanl_fifo (by decide) (fun _ => 0) (fun _ _ => 0) hrun).2.2.1 0 3 rfl
  exact (Option.some.inj hfound).symm

end FakeLisp
