import FakeLisp.Words
import FakeLisp.RingBuffer
import Mathlib.Logic.Relation

/-!
Channels: the ring buffer with its two queues of blocked threads, and the threads that use it.
Each operation runs under the channel's lock, so it is one step; a thread that has to wait does so
on the condition of its own record, and only the signal of that condition lets it go on.
-/

namespace FakeLisp

structure FklVMchanlSend (T V : Type) where
  cond : T
  msg : V

structure FklVMchanlRecv (T : Type) where
  cond : T
  exe : T
  slot : Nat

/-- A condition is named by the thread that waits on it. -/
structure FklVMvalueChanl (T V : Type) where
  recvq : List (FklVMchanlRecv T)
  sendq : List (FklVMchanlSend T V)
  recvx : Nat
  sendx : Nat
  count : Nat
  qsize : Nat
  buf : Nat → V

/-- Where a thread stands: outside the channel's functions, or inside a send or a receive, which
is over as soon as the thread was signalled. -/
inductive ChanlPc where
  | outside
  | sending (signalled : Bool)
  | receiving (slot : Nat) (signalled : Bool)
deriving DecidableEq

structure ChanlThread (V : Type) where
  base : Nat → V
  pc : ChanlPc

/-- What happens on the channel, in the order of the lock. -/
inductive ChanlEvent (T V : Type) where
  | sent (exe : T) (msg : V)
  | asked (exe : T)
  | delivered (exe : T) (msg : V)

/-- The channel, its threads, and the events so far, which the program does not keep. -/
structure ChanlWorld (T V : Type) where
  ch : FklVMvalueChanl T V
  exe : T → ChanlThread V
  events : List (ChanlEvent T V)

variable {T V : Type}

namespace FklVMvalueChanl

def pushRecv (ch : FklVMvalueChanl T V) (recv : FklVMchanlRecv T) : FklVMvalueChanl T V :=
  { ch with recvq := ch.recvq ++ [recv] }

def popRecv (ch : FklVMvalueChanl T V) : Option (FklVMchanlRecv T) × FklVMvalueChanl T V :=
  (ch.recvq.head?, { ch with recvq := ch.recvq.tail })

def pushSend (ch : FklVMvalueChanl T V) (send : FklVMchanlSend T V) : FklVMvalueChanl T V :=
  { ch with sendq := ch.sendq ++ [send] }

def popSend (ch : FklVMvalueChanl T V) : Option (FklVMchanlSend T V) × FklVMvalueChanl T V :=
  (ch.sendq.head?, { ch with sendq := ch.sendq.tail })

/-- The buffer has `qsize` cells, and the index is taken modulo `qsize`. -/
def pushMsg (c : FklVMvalueChanl T V) (msg : V) : Option (FklVMvalueChanl T V) := do
  fklAssert (c.sendx < c.qsize)
  some { c with
    buf := Function.update c.buf c.sendx msg
    sendx := u32 (c.sendx + 1 : Nat) % c.qsize
    count := u32 (c.count + 1 : Nat) }

def popMsg (c : FklVMvalueChanl T V) : Option (V × FklVMvalueChanl T V) := do
  fklAssert (c.recvx < c.qsize)
  some (c.buf c.recvx, { c with
    recvx := u32 (c.recvx + 1 : Nat) % c.qsize
    count := u32 (c.count - 1 : Int) })

end FklVMvalueChanl

/-- The value of a receive: the oldest message, the waiting sender's own one taking its place. -/
def FklVMvalueChanl.takeFrom (ch : FklVMvalueChanl T V) (send : FklVMchanlSend T V) :
    Option (V × FklVMvalueChanl T V) :=
  if ch.count ≠ 0 then do
    let (r, ch) ← ch.popMsg
    let ch ← ch.pushMsg send.msg
    some (r, ch)
  else
    some (send.msg, ch)

namespace ChanlWorld

def log (w : ChanlWorld T V) (event : ChanlEvent T V) : ChanlWorld T V :=
  { w with events := w.events ++ [event] }

def setChanl (w : ChanlWorld T V) (ch : FklVMvalueChanl T V) : ChanlWorld T V :=
  { w with ch }

@[simp] theorem log_ch (w : ChanlWorld T V) (event : ChanlEvent T V) :
    (w.log event).ch = w.ch := rfl

@[simp] theorem log_events (w : ChanlWorld T V) (event : ChanlEvent T V) :
    (w.log event).events = w.events ++ [event] := rfl

@[simp] theorem log_exe (w : ChanlWorld T V) (event : ChanlEvent T V) :
    (w.log event).exe = w.exe := rfl

@[simp] theorem setChanl_ch (w : ChanlWorld T V) (ch : FklVMvalueChanl T V) :
    (w.setChanl ch).ch = ch := rfl

@[simp] theorem setChanl_events (w : ChanlWorld T V) (ch : FklVMvalueChanl T V) :
    (w.setChanl ch).events = w.events := rfl

@[simp] theorem setChanl_exe (w : ChanlWorld T V) (ch : FklVMvalueChanl T V) :
    (w.setChanl ch).exe = w.exe := rfl

variable [DecidableEq T]

def setThread (w : ChanlWorld T V) (exe : T) (t : ChanlThread V) : ChanlWorld T V :=
  { w with exe := Function.update w.exe exe t }

def setPc (w : ChanlWorld T V) (exe : T) (pc : ChanlPc) : ChanlWorld T V :=
  w.setThread exe { w.exe exe with pc }

def storeBase (w : ChanlWorld T V) (exe : T) (slot : Nat) (v : V) : ChanlWorld T V :=
  w.setThread exe { w.exe exe with base := Function.update (w.exe exe).base slot v }

@[simp] theorem setPc_ch (w : ChanlWorld T V) (exe : T) (pc : ChanlPc) :
    (w.setPc exe pc).ch = w.ch := rfl

@[simp] theorem setPc_events (w : ChanlWorld T V) (exe : T) (pc : ChanlPc) :
    (w.setPc exe pc).events = w.events := rfl

@[simp] theorem setPc_exe (w : ChanlWorld T V) (exe : T) (pc : ChanlPc) :
    (w.setPc exe pc).exe = Function.update w.exe exe { w.exe exe with pc } := rfl

@[simp] theorem storeBase_ch (w : ChanlWorld T V) (exe : T) (slot : Nat) (v : V) :
    (w.storeBase exe slot v).ch = w.ch := rfl

@[simp] theorem storeBase_events (w : ChanlWorld T V) (exe : T) (slot : Nat) (v : V) :
    (w.storeBase exe slot v).events = w.events := rfl

@[simp] theorem storeBase_exe (w : ChanlWorld T V) (exe : T) (slot : Nat) (v : V) :
    (w.storeBase exe slot v).exe = Function.update w.exe exe
      { w.exe exe with base := Function.update (w.exe exe).base slot v } := rfl

/-- `uv_cond_signal`: it reaches the thread only if that thread waits. -/
def signal (w : ChanlWorld T V) (cond : T) : ChanlWorld T V :=
  match (w.exe cond).pc with
  | .sending false => w.setPc cond (.sending true)
  | .receiving slot false => w.setPc cond (.receiving slot true)
  | _ => w

end ChanlWorld

open ChanlWorld

variable [DecidableEq T]

/-- The caller's own variable takes the value, which is returned here. -/
def fklChanlRecvOk (w : ChanlWorld T V) (exe : T) : Option (Option V × ChanlWorld T V) :=
  match w.ch.popSend with
  | (some send, ch) => do
    let (r, ch) ← ch.takeFrom send
    some (some r, ((w.setChanl ch).signal send.cond |>.log (.asked exe) |>.log (.delivered exe r)))
  | (none, ch) =>
    if ch.count ≠ 0 then do
      let (r, ch) ← ch.popMsg
      some (some r, (w.setChanl ch |>.log (.asked exe) |>.log (.delivered exe r)))
    else
      some (none, w.setChanl ch)

def fklChanlRecv (w : ChanlWorld T V) (slot : Nat) (exe : T) : Option (ChanlWorld T V) :=
  let w := w.log (.asked exe)
  match w.ch.popSend with
  | (some send, ch) => do
    let (r, ch) ← ch.takeFrom send
    some ((w.setChanl ch).storeBase exe slot r |>.log (.delivered exe r) |>.signal send.cond
      |>.setPc exe (.receiving slot true))
  | (none, ch) =>
    if ch.count ≠ 0 then do
      let (r, ch) ← ch.popMsg
      some ((w.setChanl ch).storeBase exe slot r |>.log (.delivered exe r)
        |>.setPc exe (.receiving slot true))
    else
      some (w.setChanl (ch.pushRecv ⟨exe, exe, slot⟩) |>.setPc exe (.receiving slot false))

def fklChanlSend (w : ChanlWorld T V) (msg : V) (exe : T) : Option (ChanlWorld T V) :=
  let w := w.log (.sent exe msg)
  match w.ch.popRecv with
  | (some recv, ch) =>
    some ((w.setChanl ch).storeBase recv.exe recv.slot msg |>.log (.delivered recv.exe msg)
      |>.signal recv.cond |>.setPc exe (.sending true))
  | (none, ch) =>
    if ch.count < ch.qsize then do
      let ch ← ch.pushMsg msg
      some (w.setChanl ch |>.setPc exe (.sending true))
    else
      some (w.setChanl (ch.pushSend ⟨exe, msg⟩) |>.setPc exe (.sending false))

/-- A thread is done with its call when nothing is left to wait for. -/
def ChanlPc.over : ChanlPc → Bool
  | .outside => false
  | .sending signalled => signalled
  | .receiving _ signalled => signalled

/-- One atomic step of some thread: an operation, the return from one, or work of its own. -/
inductive ChanlStep : ChanlWorld T V → ChanlWorld T V → Prop
  | recvOk {w exe r w'} (h : (w.exe exe).pc = .outside) (hop : fklChanlRecvOk w exe = some (r, w')) :
      ChanlStep w w'
  | recv {w exe slot w'} (h : (w.exe exe).pc = .outside)
      (hop : fklChanlRecv w slot exe = some w') : ChanlStep w w'
  | send {w exe msg w'} (h : (w.exe exe).pc = .outside)
      (hop : fklChanlSend w msg exe = some w') : ChanlStep w w'
  | ret {w exe} (h : (w.exe exe).pc.over) : ChanlStep w (w.setPc exe .outside)
  | work {w exe slot v} (h : (w.exe exe).pc = .outside) : ChanlStep w (w.storeBase exe slot v)

/-- A fresh channel: the indices, the count and the queues are cleared, the cells hold anything. -/
def fklCreateVMvalueChanl (qsize : Nat) (buf : Nat → V) : FklVMvalueChanl T V where
  recvq := []
  sendq := []
  recvx := 0
  sendx := 0
  count := 0
  qsize := qsize
  buf := buf

def ChanlWorld.start (qsize : Nat) (buf : Nat → V) (base : T → Nat → V) : ChanlWorld T V where
  ch := fklCreateVMvalueChanl qsize buf
  exe exe := ⟨base exe, .outside⟩
  events := []

abbrev ChanlReaches : ChanlWorld T V → ChanlWorld T V → Prop := Relation.ReflTransGen ChanlStep

end FakeLisp
