/-
The kernel state and the functions of `thread.c`.

`Sched` is what the scheduler owns: the control blocks, the thread table, the
active thread, the run queue, the 256 event queues with the IRQ latches, and the
ends of the dead, reaper, fault and debug queues.  `Kernel` adds the thread
images, the FPU, memory and the interrupt controller.

* `schedulePush`, `scheduleRemv`, `scheduleNext` — the run queue;
* `eventWait`, `eventRemv`, `eventSend` — the event queues;
* `deadPush`, `deadPull`, `deadWait` and `faultPush`, `faultPull`, `faultWait` —
  the two rendezvous, one definition each with the queues and the link field as
  parameters (`rdvPush`, `rdvWait`), except `faultPull`, which follows another
  link than its siblings.
-/
import Pinion.Memory

namespace Pinion

/-- The four queues of `dead_*` and `fault_*`. -/
inductive Rdv
  | dead
  | reaper
  | fault
  | debug
  deriving DecidableEq, Repr

/-- The two ends of such a queue: `tail` is the next to leave, `head` the last
that came. -/
structure Ends where
  tail : Option Ptr
  head : Option Ptr
  deriving DecidableEq

/-- `struct evqueue`, less the event list no function uses. -/
structure Evqueue where
  frontThread : Option Ptr
  backThread : Option Ptr
  deriving DecidableEq

/-- The state of the scheduler. -/
structure Sched where
  tcb : Ptr → Tcb
  active : Option Ptr
  table : ℕ → Option Ptr
  schedHead : Option Ptr
  schedTail : Option Ptr
  evqueue : ℕ → Evqueue
  irqstate : ℕ → ℤ
  ends : Rdv → Ends

/-- The 8259 pair: the interrupt mask and in-service registers of master and
slave. -/
structure Pic where
  mask0 : U8
  mask1 : U8
  isr0 : U8
  isr1 : U8
  deriving DecidableEq

structure Kernel extends Sched where
  img : Ptr → Image
  fx : Ptr → FxArea
  fpu : FpuRegs
  /-- `tss.esp0`. -/
  intStack : U32
  mm : Mem
  /-- `_irq_mask`. -/
  irqMask : U16
  pic : Pic
  /-- The static counter of `timer_handler`. -/
  tick : U32
  pitFreq : U32

/-- Write fields of one control block. -/
def Sched.upd (s : Sched) (p : Ptr) (f : Tcb → Tcb) : Sched :=
  { s with tcb := Function.update s.tcb p (f (s.tcb p)) }

/-- Apply a scheduler operation. -/
def Kernel.onSched (s : Kernel) (f : Sched → Sched) : Kernel :=
  { s with toSched := f s.toSched }

/-- Write fields of one thread image. -/
def Kernel.updImg (s : Kernel) (p : Ptr) (f : Image → Image) : Kernel :=
  { s with img := Function.update s.img p (f (s.img p)) }

/-- `thread->state = st`. -/
def Sched.setState (s : Sched) (p : Ptr) (st : TState) : Sched :=
  s.upd p fun t => { t with state := st }

def Kernel.setState (s : Kernel) (p : Ptr) (st : TState) : Kernel :=
  s.onSched (·.setState p st)

/-- `image->eax = v`. -/
def Kernel.setEax (s : Kernel) (p : Ptr) (v : U32) : Kernel :=
  s.updImg p fun i => { i with eax := v }

/-! ### FPU -/

/-- Byte `k` of what `fsave` stores. -/
def fpuByte (r : FpuRegs) (k : ℕ) : U8 := (r (Fin.ofNat 27 (k / 4)) >>> (8 * (k % 4))).setWidth 8

/-- The top of the register stack, in the status word. -/
def fpuTop (r : FpuRegs) : ℕ := ((r 1 >>> 11) &&& 7).toNat

/-- The place of byte `k` of the data registers: `fsave` numbers them from the top of the
stack, which is 0 afterwards. -/
def fpuRotate (top k : ℕ) : ℕ := 28 + (k / 10 + 8 - top) % 8 * 10 + k % 10

/-- What `fsave` leaves in the processor, as the next `fsave` stores it: the environment of
`finit`, and the data registers, which keep their contents. -/
def fpuReset (r : FpuRegs) : FpuRegs := fun i =>
  if i = 0 then 0xFFFF037F
  else if i = 1 then 0xFFFF0000
  else if i = 2 then 0xFFFFFFFF
  else if i.val < 6 then 0
  else if i = 6 then 0xFFFF0000
  else
    let byte := fun k => fpuByte r (fpuRotate (fpuTop r) (4 * (i.val - 7) + k))
    (byte 3 ++ byte 2 ++ byte 1 ++ byte 0).setWidth 32

def fpuSave (s : Kernel) (fxdata : Ptr) : Kernel :=
  { s with
    fx := Function.update s.fx fxdata fun i =>
      if h : i.val < 27 then s.fpu ⟨i.val, h⟩ else s.fx fxdata i
    fpu := fpuReset s.fpu }

def fpuLoad (s : Kernel) (fxdata : Ptr) : Kernel :=
  { s with fpu := fun i => s.fx fxdata (i.castLE (by decide)) }

/-! ### Threads -/

/-- `thread_get`. -/
def threadGet (s : Sched) (thread : ℤ) : Option Ptr :=
  if thread < 0 ∨ (THREAD_COUNT : ℤ) ≤ thread then none else s.table thread.toNat

/-- `thread_alloc`: both blocks come back cleared, and the `memclr` of the
structure drops the pointer to the second one. -/
def threadAlloc (s : Kernel) : Except Stop (Option Ptr × Kernel) := do
  match ← heapAlloc s.mm sizeofThread with
  | (none, _) => .error .kernelFault
  | (some thread, m) =>
    let (fxdata, m) ← heapAlloc m 512
    let fx := match fxdata with
      | some p => Function.update s.fx p fun _ => 0
      | none => s.fx
    let s := { s with
      mm := m
      fx := fx
      tcb := Function.update s.tcb thread Tcb.zero
      img := Function.update s.img thread Image.zero }
    match (List.range THREAD_COUNT).find? fun i => (s.table i).isNone with
    | none => return (none, s)
    | some i =>
      return (some thread, s.onSched fun k =>
        { k with table := Function.update k.table i (some thread) }.upd thread
          fun t => { t with id := i, state := .paused })

/-- `thread_new`. -/
def threadNew (s : Kernel) : Except Stop (ℤ × Kernel) := do
  match ← threadAlloc s with
  | (none, s) => return (-1, s)
  | (some p, s) => return ((s.tcb p).id, s)

/-- `thread_kill`. -/
def threadKill (s : Kernel) (thread : Ptr) : Kernel :=
  let m := match (s.img thread).fxdata with
    | some p => heapFree s.mm p 512
    | none => s.mm
  { s with
    table := Function.update s.table (s.tcb thread).id.toNat none
    img := Function.update s.img thread { s.img thread with fxdata := none }
    mm := heapFree m thread sizeofThread }

/-- `thread_load`.  The interrupt stack ends at `vm86_es` (or `vm86_start`), so
the next entry from user mode pushes the registers over the image. -/
def threadLoad (s : Kernel) (thread : Ptr) : Kernel :=
  let s := { s with intStack := thread + if (s.img thread).vm86Active ≠ 0 then 80 else 64 }
  let s := match (s.img thread).fxdata with
    | some p => fpuLoad s p
    | none => s
  let pctx := (s.img thread).pctx.toInt
  let s := if pctx ≠ 0 ∧ pctx ≠ s.mm.activePctx then { s with mm := (pctxLoad s.mm pctx).2 } else s
  { s with active := some thread }

/-- `thread_save`: whatever the thread, no thread is active afterwards. -/
def threadSave (s : Kernel) (thread : Ptr) : Kernel :=
  let s := match (s.img thread).fxdata with
    | some p => fpuSave s p
    | none => s
  { s with active := none }

/-! ### The run queue -/

def schedulePush (s : Sched) (thread : Ptr) : Sched :=
  let s := match s.schedTail with
    | none => { s with schedHead := some thread }
    | some t => s.upd t fun b => { b with next := some thread }
  { s with schedTail := some thread }.upd thread fun b => { b with next := none }

/-- The loop `for (t = first; t->next; t = t->next) if (t->next == thread)`: the
thread before `thread`, if the walk meets it. -/
def findPrev (next : Ptr → Option Ptr) (thread : Ptr) : ℕ → Ptr → Except Stop (Option Ptr)
  | 0, _ => .error .hang
  | n + 1, t =>
    match next t with
    | none => .ok none
    | some u => if u = thread then .ok (some t) else findPrev next thread n u

def scheduleRemv (s : Sched) (thread : Ptr) : Except Stop (ℤ × Sched) :=
  match s.schedHead with
  | none => .ok (1, s)
  | some head =>
    if thread = head then
      let s := { s with schedHead := (s.tcb head).next }
      .ok (0, if s.schedHead = none then { s with schedTail := none } else s)
    else do
      match ← findPrev (fun t => (s.tcb t).next) thread addressSpace head with
      | some t1 =>
        let s := s.upd t1 fun b => { b with next := (s.tcb thread).next }
        return (0, if s.schedTail = some thread then { s with schedTail := some t1 } else s)
      | none => return (1, s)

/-- `schedule_next`. -/
def scheduleNext (s : Sched) : Option Ptr := s.schedHead

/-- The pair of statements that makes a thread runnable: `schedule_push` and
`state = TS_QUEUED`. -/
def makeReady (s : Sched) (thread : Ptr) : Sched :=
  (schedulePush s thread).setState thread .queued

/-! ### Event queues -/

def Sched.setEvqueue (s : Sched) (e : ℕ) (q : Evqueue) : Sched :=
  { s with evqueue := Function.update s.evqueue e q }

/-- The queueing branch of `event_wait`. -/
def evqueuePush (s : Sched) (event : ℕ) (thread : Ptr) : Sched :=
  let s := match (s.evqueue event).backThread with
    | none => s.setEvqueue event { s.evqueue event with frontThread := some thread }
    | some b => s.upd b fun t => { t with nextEvqueue := some thread }
  (s.setEvqueue event { s.evqueue event with backThread := some thread }).upd thread
    fun t => { t with nextEvqueue := none, event := event }

/-- `irqstate[i]`, beyond the end of the array too. -/
def irqstateAt (env : Env) (s : Sched) (i : ℕ) : Except Stop ℤ :=
  if i < EV_COUNT then .ok (s.irqstate i)
  else match env.beyond i with
    | some v => .ok v
    | none => .error .kernelFault

def eventWait (env : Env) (s : Kernel) (id event : ℤ) : Except Stop (ℤ × Kernel) :=
  match threadGet s.toSched id with
  | none => .ok (1, s)
  | some thread =>
    if event < 0 then do
      return (if (← irqstateAt env s.toSched (-event - 1).toNat) ≠ 0 then 1 else 0, s)
    else if (EV_COUNT : ℤ) ≤ event then .ok (1, s)
    else if s.irqstate event.toNat ≠ 0 then
      .ok (0, (threadSave s thread).onSched (makeReady · thread))
    else
      let s := s.onSched (evqueuePush · event.toNat thread)
      .ok (0, (threadSave s thread).setState thread .waiting)

def eventRemv (s : Sched) (id event : ℤ) : Except Stop (ℤ × Sched) :=
  match threadGet s id with
  | none => .ok (1, s)
  | some thread =>
    if event < 0 ∨ (EV_COUNT : ℤ) ≤ event then .ok (1, s)
    else
      let e := event.toNat
      match (s.evqueue e).frontThread with
      | none => .ok (1, s)
      | some front =>
        if front = thread then
          let back := (s.evqueue e).backThread
          .ok (0, s.setEvqueue e
            ⟨(s.tcb thread).next, if back = some thread then none else back⟩)
        else do
          match ← findPrev (fun t => (s.tcb t).next) thread addressSpace front with
          | some t =>
            let s := s.upd t fun b => { b with next := (s.tcb thread).next }
            return (0, if (s.evqueue e).backThread = some thread then
              s.setEvqueue e { s.evqueue e with backThread := some t } else s)
          | none => return (1, s)

/-! ### The interrupt controller -/

/-- Clear the bit of highest priority, the lowest one set. -/
def clearLowest (b : U8) : U8 := b &&& (b - 1)

/-- `outb` on the four ports of the 8259 pair. -/
def Pic.outb (c : Pic) (port : U16) (value : U8) : Pic :=
  if port = 0x21 then { c with mask0 := value }
  else if port = 0xA1 then { c with mask1 := value }
  else if port = 0x20 ∧ value = 0x20 then { c with isr0 := clearLowest c.isr0 }
  else if port = 0xA0 ∧ value = 0x20 then { c with isr1 := clearLowest c.isr1 }
  else c

def outb (s : Kernel) (port : U16) (value : U8) : Kernel := { s with pic := s.pic.outb port value }

/-- Write the half of `_irq_mask` that holds line `irq` to its port. -/
def writeMask (s : Kernel) (irq : ℕ) : Kernel :=
  if 7 < irq then outb s 0xA1 (s.irqMask.extractLsb' 8 8)
  else outb s 0x21 (s.irqMask.extractLsb' 0 8)

/-- `1 << irq` as the processor computes it: the count is taken modulo 32. -/
def lineBit (irq : ℕ) : U16 := ((1 : U32) <<< (irq % 32)).setWidth 16

def irqMask (s : Kernel) (irq : ℕ) : Kernel :=
  writeMask { s with irqMask := s.irqMask ||| lineBit irq } irq

def irqUnmask (s : Kernel) (irq : ℕ) : Kernel :=
  writeMask { s with irqMask := s.irqMask &&& ~~~ lineBit irq } irq

def irqReset (s : Kernel) (irq : ℕ) : Kernel :=
  if 16 < irq then s
  else
    let s := if 8 < irq then outb s 0xA0 0x20 else s
    outb s 0x20 0x20

/-- The first half of `event_send`: wake the front waiter, if there is one. -/
def eventWake (s : Kernel) (event : ℕ) : Kernel :=
  match (s.evqueue event).frontThread with
  | none => s
  | some thread =>
    let next := (s.tcb thread).nextEvqueue
    let back := (s.evqueue event).backThread
    let s := s.onSched (·.setEvqueue event ⟨next, if next = none then none else back⟩)
    let s := (s.setEax thread (BitVec.ofNat 32 event)).onSched
      (·.upd thread fun t => { t with event := -1 })
    let s := if (s.tcb thread).state = .running then threadSave s thread else s
    s.onSched (makeReady · thread)

def eventSend (s : Kernel) (event : ℕ) : Kernel :=
  if EV_COUNT ≤ event then s
  else
    let s := eventWake s event
    if event < 240 then
      let s := irqReset (irqMask s event) event
      { s with irqstate := Function.update s.irqstate event 1 }
    else s

/-! ### The dead and fault queues -/

/-- The link field of a queue: `next_dead` for the dead and reaper queues,
`next_fault` for the fault and debug queues. -/
def Rdv.link : Rdv → Tcb → Option Ptr
  | .dead, t => t.nextDead
  | .reaper, t => t.nextDead
  | .fault, t => t.nextFault
  | .debug, t => t.nextFault

def Rdv.setLink : Rdv → Option Ptr → Tcb → Tcb
  | .dead, v, t => { t with nextDead := v }
  | .reaper, v, t => { t with nextDead := v }
  | .fault, v, t => { t with nextFault := v }
  | .debug, v, t => { t with nextFault := v }

def Sched.setEnds (s : Sched) (q : Rdv) (e : Ends) : Sched :=
  { s with ends := Function.update s.ends q e }

/-- Append a thread to a queue.  On an empty queue the link of the thread is
left as it is. -/
def rdvInsert (q : Rdv) (s : Sched) (thread : Ptr) : Sched :=
  match (s.ends q).head with
  | some h =>
    ((s.upd h (q.setLink (some thread))).upd thread (q.setLink none)).setEnds q
      { s.ends q with head := some thread }
  | none => s.setEnds q ⟨some thread, some thread⟩

/-- Move the `tail` of a queue to the thread after its first one. -/
def rdvAdvance (q : Rdv) (s : Sched) (next : Option Ptr) : Sched :=
  s.setEnds q ⟨next, if next = none then none else (s.ends q).head⟩

/-- Notify a blocked thread: its `eax` becomes the id of the other one, and it
is queued to run. -/
def notify (s : Kernel) (waiter other : Ptr) : Kernel :=
  (s.setEax waiter (BitVec.ofInt 32 (s.tcb other).id)).onSched (makeReady · waiter)

/-- `dead_push` and `fault_push`: hand the thread to the first waiter, or queue
it. -/
def rdvPush (waiters items : Rdv) (s : Kernel) (thread : Ptr) : Kernel :=
  match (s.ends waiters).tail with
  | some w => notify (s.onSched (rdvAdvance waiters · (waiters.link (s.tcb w)))) w thread
  | none => s.onSched (rdvInsert items · thread)

/-- `dead_wait` and `fault_wait`, given the pull of the items. -/
def rdvWait (waiters items : Rdv) (pull : Sched → Option Ptr × Sched) (s : Kernel)
    (waiter : Ptr) : Kernel :=
  match (s.ends items).tail with
  | some _ =>
    match pull s.toSched with
    | (some item, k) => notify { s with toSched := k } waiter item
    | (none, k) => { s with toSched := k }
  | none => s.onSched (rdvInsert waiters · waiter)

def deadPush (s : Kernel) (thread : Ptr) : Kernel := rdvPush .reaper .dead s thread

def deadPeek (s : Sched) : Option Ptr := (s.ends .dead).tail

def deadPull (s : Sched) : Option Ptr × Sched :=
  match (s.ends .dead).tail with
  | none => (none, s)
  | some dead => (some dead, rdvAdvance .dead s (s.tcb dead).nextDead)

def deadWait (s : Kernel) (reaper : Ptr) : Kernel := rdvWait .reaper .dead deadPull s reaper

def faultPush (s : Kernel) (fault : Ptr) : Kernel := rdvPush .debug .fault s fault

def faultPeek (s : Sched) : Option Ptr := (s.ends .fault).tail

/-- `fault_pull` moves on along `next`, the link of the run queue. -/
def faultPull (s : Sched) : Option Ptr × Sched :=
  match (s.ends .fault).tail with
  | none => (none, s)
  | some fault => (some fault, rdvAdvance .fault s (s.tcb fault).next)

def faultWait (s : Kernel) (debug : Ptr) : Kernel := rdvWait .debug .fault faultPull s debug

end Pinion
