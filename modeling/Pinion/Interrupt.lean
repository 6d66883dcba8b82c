/-
Kernel calls, faults, the timer and the interrupt entry.

The embedding of `kcall.c`, `fault.c` and the handler part of `interrupt.c`,
with the bootstrap of the first thread from `init.c`.

* `kcall` — the system call path and the kernel call switch `kernelCall`, one definition
  per call;
* `faultGeneric`, `faultPage`, `faultDouble`, `timerHandler` — the handlers;
* `handle` — `int_handler` up to the return of the registered handler,
  `schedule` — the rest of it, `intHandler` — both;
* `Input`, `step` — one entry of the kernel, from the trap to the return;
* `bootstrap` — the state `init` hands to the first thread.
-/
import Pinion.Kernel

namespace Pinion

/-! ### Kernel calls -/

/-- The kernel calls, as `kcall` switches on `eax`. -/
inductive Call
  | spawn
  | gettid
  | yield
  | pause
  | resume
  | getstate
  | setstate
  | getfault
  | getdead
  | reap
  | wait
  | reset
  | sysret
  | newpctx
  | freepctx
  | setframe
  | setflags
  | getframe
  | getflags
  | newframe
  | freeframe
  | takeframe
  | unimplemented
  deriving DecidableEq, Repr

def Call.ofEax (eax : U32) : Call :=
  if eax = 0x02 then .spawn
  else if eax = 0x03 then .gettid
  else if eax = 0x04 then .yield
  else if eax = 0x05 then .pause
  else if eax = 0x06 then .resume
  else if eax = 0x07 then .getstate
  else if eax = 0x08 then .setstate
  else if eax = 0x09 then .getfault
  else if eax = 0x0A then .getdead
  else if eax = 0x0B then .reap
  else if eax = 0x0D then .wait
  else if eax = 0x0E then .reset
  else if eax = 0x0F then .sysret
  else if eax = 0x10 then .newpctx
  else if eax = 0x11 then .freepctx
  else if eax = 0x12 then .setframe
  else if eax = 0x13 then .setflags
  else if eax = 0x14 then .getframe
  else if eax = 0x15 then .getflags
  else if eax = 0x1C then .newframe
  else if eax = 0x1D then .freeframe
  else if eax = 0x1E then .takeframe
  else .unimplemented

/-- `save_info`: what the buffer `dest` holds afterwards. -/
def saveInfo (s : Kernel) (dest : TInfo) (src : Ptr) : TInfo :=
  let t := s.tcb src
  let i := s.img src
  { id := BitVec.ofInt 32 t.id
    pctx := i.pctx
    state := t.state.code
    event := BitVec.ofInt 8 t.event
    flags := i.flags
    fault := i.fault
    faultAddr := i.faultAddr
    usrIp := i.usrEip
    usrSp := i.usrEsp
    regs :=
      if t.state = .running then dest.regs
      else
        { edi := i.edi, esi := i.esi, ebp := i.ebp, esp := i.useresp, ebx := i.ebx
          edx := i.edx, ecx := i.ecx, eax := i.eax, eip := i.eip, eflags := i.eflags
          fxdata := match i.fxdata with
            | some p => s.fx p
            | none => dest.regs.fxdata } }

/-- The path of `kcall` for a thread in user mode: a system call. -/
def syscallEnter (i : Image) : Image :=
  { i with
    usrEip := i.eip, usrEsp := i.useresp, ss := 0x21, ds := 0x21, cs := 0x19
    flags := i.flags &&& ~~~TF_USER, eip := i.sysEip, useresp := i.sysEsp }

def sysret (i : Image) : Image :=
  { i with
    sysEip := i.eip, sysEsp := i.useresp, eax := i.ebp, ss := 0x33, ds := 0x33, cs := 0x2B
    flags := i.flags ||| TF_USER, eip := i.usrEip, useresp := i.usrEsp }

/-- The registers a spawned thread starts with. -/
def spawnImage (image : Image) (state : TInfo) (thread : Ptr) (i : Image) : Image :=
  { i with
    useresp := state.regs.esp, esp := thread + 36, ss := 0x21, ds := 0x21
    cs := 0x19, eflags := image.eflags, eip := state.regs.eip, ebp := state.regs.ebp
    esi := state.regs.esi, edi := state.regs.edi, edx := state.regs.edx, ecx := state.regs.ecx
    ebx := state.regs.ebx, eax := state.regs.eax }

def kcallSpawn (env : Env) (s : Kernel) (image : Ptr) : Except Stop Kernel := do
  let (id, s) ← threadNew s
  if id = -1 then return s.setEax image (-1)
  match threadGet s.toSched id with
  | none => .error .kernelFault
  | some thread =>
    let s := s.updImg thread (spawnImage (s.img image) env.info thread)
    let s := (s.setState thread .queued).onSched (schedulePush · thread)
    return s.setEax image (BitVec.ofInt 32 id)

def kcallReap (env : Env) (s : Kernel) (image : Ptr) : Except Stop (Kernel × TInfo) :=
  match threadGet s.toSched (s.img image).ebx.toInt with
  | none => .error .kernelFault
  | some target =>
    if (s.tcb target).state ≠ .paused then .ok (s.setEax image TE_STATE, env.info)
    else
      let info := if (s.img image).ecx ≠ 0 then saveInfo s env.info target else env.info
      .ok (threadKill (s.setEax image 0) target, info)

def kcallYield (s : Kernel) (image : Ptr) : Kernel :=
  (threadSave s image).onSched (makeReady · image)

/-- `thread_get(image->ebx)`, with `-1` standing for the caller. -/
def targetOrSelf (s : Kernel) (image : Ptr) : Option Ptr :=
  if (s.img image).ebx = -1 then some image else threadGet s.toSched (s.img image).ebx.toInt

def kcallPause (s : Kernel) (image : Ptr) : Except Stop Kernel :=
  match targetOrSelf s image with
  | none => .ok (s.setEax image TE_EXIST)
  | some target =>
    match (s.tcb target).state with
    | .running => .ok (((threadSave s target).setState target .paused).setEax image 0)
    | .queued => do
      let (_, k) ← scheduleRemv s.toSched target
      return ({ s with toSched := k }.setState target .paused).setEax image 0
    | .waiting => do
      let (_, k) ← eventRemv s.toSched (s.tcb target).id (s.tcb target).event
      return ({ s with toSched := k }.setState target .pausedw).setEax image 0
    | _ => .ok (s.setEax image TE_STATE)

def kcallResume (env : Env) (s : Kernel) (image : Ptr) : Except Stop Kernel :=
  match threadGet s.toSched (s.img image).ebx.toInt with
  | none => .ok (s.setEax image TE_EXIST)
  | some target =>
    match (s.tcb target).state with
    | .paused => .ok ((s.onSched (makeReady · target)).setEax image 0)
    | .pausedw => do
      let (_, s) ← eventWait env s (s.tcb target).id (s.tcb target).event
      return (s.setState target .waiting).setEax image 0
    | _ => .ok (s.setEax image TE_STATE)

def kcallGetstate (env : Env) (s : Kernel) (image : Ptr) : Kernel × TInfo :=
  match targetOrSelf s image with
  | none => (s.setEax image TE_EXIST, env.info)
  | some target =>
    if (s.tcb target).state ≠ .paused ∧ (s.tcb target).state ≠ .pausedw ∧ target ≠ image then
      (s.setEax image TE_STATE, env.info)
    else (s.setEax image 0, saveInfo s env.info target)

/-- The kill branch of `KCALL_SETSTATE`. -/
def setstateKill (s : Kernel) (target : Ptr) : Kernel :=
  let s := if (s.tcb target).state = .running then
      (threadSave s target).setState target .paused
    else s
  deadPush s target

/-- The fields `KCALL_SETSTATE` writes whatever the state of the target. -/
def setstateAttrs (src : TInfo) (i : Image) : Image :=
  { i with
    pctx := src.pctx, flags := src.flags, fault := src.fault
    usrEip := src.usrIp, usrEsp := src.usrSp }

/-- The registers `KCALL_SETSTATE` writes to a thread that is not running. -/
def setstateRegs (r : TRegs) (i : Image) : Image :=
  { i with
    edi := r.edi, esi := r.esi, ebp := r.ebp, useresp := r.esp, ebx := r.ebx, edx := r.edx
    ecx := r.ecx, eax := r.eax, eip := r.eip, eflags := r.eflags }

/-- The register part of `KCALL_SETSTATE`, with the FPU area allocated on first
use. -/
def setstateCopy (src : TInfo) (s : Kernel) (target : Ptr) : Except Stop Kernel := do
  let s := s.updImg target (setstateRegs src.regs)
  match (s.img target).fxdata with
  | some p => return { s with fx := Function.update s.fx p src.regs.fxdata }
  | none =>
    match ← heapAlloc s.mm 512 with
    | (none, _) => .error .kernelFault
    | (some p, m) =>
      let s := { s with mm := m, fx := Function.update s.fx p src.regs.fxdata }
      return s.updImg target fun i => { i with fxdata := some p }

/-- `pctx_load(src->pctx)`, unless the target has that context. -/
def setstateLoad (src : TInfo) (s : Kernel) (target : Ptr) : Kernel :=
  if (s.img target).pctx ≠ src.pctx then { s with mm := (pctxLoad s.mm src.pctx.toInt).2 } else s

/-- `*src` as it reads after `pctx_load`, from the memory `m` to the memory `m'`: another
page directory in CR3 may show another `t_info` at the pointer, or no page. -/
def Env.reread (env : Env) (m m' : Mem) : Except Stop TInfo :=
  if m'.cr3 = m.cr3 then .ok env.info
  else match env.loaded with
    | some src => .ok src
    | none => .error .kernelFault

def kcallSetstate (env : Env) (s : Kernel) (image : Ptr) : Except Stop Kernel :=
  match targetOrSelf s image with
  | none => .ok (s.setEax image TE_EXIST)
  | some target =>
    if (s.tcb target).state = .paused ∨ (s.tcb target).state = .pausedw ∨
        (s.tcb target).state = .running then do
      let m := s.mm
      let s := if env.info.flags &&& TF_DEAD ≠ 0 then setstateKill s target else s
      let s := setstateLoad env.info s target
      -- what is stored is read through the context that is loaded now
      let src ← env.reread m s.mm
      let s := s.updImg target (setstateAttrs src)
      let s ← if (s.tcb target).state ≠ .running then setstateCopy src s target else pure s
      return s.setEax image 0
    else .ok (s.setEax image TE_STATE)

def kcallGetdead (s : Kernel) (image : Ptr) : Kernel :=
  match deadPeek s.toSched with
  | some dead =>
    { s with toSched := (deadPull s.toSched).2 }.setEax image (BitVec.ofInt 32 (s.tcb dead).id)
  | none => deadWait ((threadSave s image).setState image .paused) image

def kcallGetfault (s : Kernel) (image : Ptr) : Kernel :=
  match faultPeek s.toSched with
  | some fault =>
    { s with toSched := (faultPull s.toSched).2 }.setEax image (BitVec.ofInt 32 (s.tcb fault).id)
  | none => faultWait ((threadSave s image).setState image .paused) image

def kcallWait (env : Env) (s : Kernel) (image : Ptr) : Except Stop Kernel := do
  let (r, s) ← eventWait env s (s.tcb image).id (s.img image).ebx.toInt
  return s.setEax image (BitVec.ofInt 32 r)

def kcallReset (s : Kernel) (image : Ptr) : Kernel :=
  let n := (s.img image).ebx.toNat
  let s := if n < 240 then
      irqUnmask { s with irqstate := Function.update s.irqstate n 0 } n
    else s
  s.setEax image 0

/-- The calls that only touch memory management: the registers `eax` and `ebx`
they return and the memory they leave. -/
def pagingCall (c : Call) (m : Mem) (i : Image) : Except Stop (Image × Mem) :=
  match c with
  | .newpctx => do
    let (r, m) ← pctxNew m
    return ({ i with eax := BitVec.ofInt 32 r }, m)
  | .freepctx => do
    let (r, m) ← pctxFree m i.ebx.toInt
    return ({ i with eax := BitVec.ofInt 32 r }, m)
  | .setframe => do
    let m ← pageSet m i.ebx (pageFmt i.ecx (← pageGet m i.ebx))
    return ({ i with eax := 0 }, m)
  | .setflags => do
    let m ← pageSet m i.ebx (pageFmt (pageUfmt (← pageGet m i.ebx)) i.ecx)
    return ({ i with eax := 0 }, m)
  | .getframe => do
    let e ← pageGet m (i.ebx &&& 0xFFFFF000)
    return ({ i with eax := pageUfmt e ||| (i.ebx &&& 0xFFF) }, m)
  | .getflags => do
    let e ← pageGet m i.ebx
    return ({ i with eax := e &&& PF_MASK }, m)
  | .newframe => do
    let (frame, m) ← frameNew m
    return ({ i with eax := frame, ebx := 0 }, m)
  | .freeframe => do
    let m ← frameFree m i.ebx
    return ({ i with eax := 0 }, m)
  | .takeframe => .ok ({ i with eax := 1 }, m)
  | _ => .ok ({ i with eax := -1 }, m)

/-- The switch of `kcall` on `eax`: the kernel and the caller's `t_info` after the call. -/
def kernelCall (env : Env) (s : Kernel) (image : Ptr) : Except Stop (Kernel × TInfo) :=
  match Call.ofEax (s.img image).eax with
  | .spawn => (·, env.info) <$> kcallSpawn env s image
  | .reap => kcallReap env s image
  | .gettid => .ok (s.setEax image (BitVec.ofInt 32 (s.tcb image).id), env.info)
  | .yield => .ok (kcallYield s image, env.info)
  | .pause => (·, env.info) <$> kcallPause s image
  | .resume => (·, env.info) <$> kcallResume env s image
  | .getstate => .ok (kcallGetstate env s image)
  | .setstate => (·, env.info) <$> kcallSetstate env s image
  | .getdead => .ok (kcallGetdead s image, env.info)
  | .getfault => .ok (kcallGetfault s image, env.info)
  | .wait => (·, env.info) <$> kcallWait env s image
  | .reset => .ok (kcallReset s image, env.info)
  | .sysret => .ok (s.updImg image sysret, env.info)
  | c => do
    let (i, m) ← pagingCall c s.mm (s.img image)
    return ({ s with mm := m }.updImg image fun _ => i, env.info)

/-- `kcall`: a thread in user mode enters its system entry point. -/
def kcall (env : Env) (s : Kernel) (image : Ptr) : Except Stop (Kernel × TInfo) :=
  if (s.img image).flags &&& TF_USER ≠ 0 then .ok (s.updImg image syscallEnter, env.info)
  else kernelCall env s image

/-! ### Faults -/

/-- `fault_generic`: the test under the comment "if in kernelspace, panic" is
true of a fault from any outer ring. -/
def faultGeneric (s : Kernel) (image : Ptr) : Except Stop Kernel :=
  if (s.img image).cs &&& 0x3 ≠ 0 then .error (.panic "unknown exception")
  else
    let s := (threadSave s image).setState image .paused
    .ok (faultPush (s.updImg image fun i => { i with fault := FV_ACCS }) image)

def faultPage (env : Env) (s : Kernel) (image : Ptr) : Except Stop Kernel :=
  if (s.img image).cs &&& 0x3 = 0 then .error (.panic "page fault exception")
  else
    let s := (threadSave s image).updImg image fun i =>
      { i with faultAddr := env.cr2, fault := FV_PAGE }
    .ok (faultPush (s.setState image .paused) image)

def faultDouble : Except Stop Kernel := .error (.panic "double fault exception")

/-! ### The timer -/

/-- The word of `timer_handler` whose bit `15 - i` asks for `EV_VTIMER(i)`. -/
def timerMask (tick pitFreq : U32) : U32 :=
  let ptime := ((tick - 1) <<< 10) / pitFreq
  let ctime := (tick <<< 10) / pitFreq
  let time := ptime ^^^ ctime
  time + (time &&& -time) - 1

/-- The virtual timers that fire on a tick, in the order they are sent. -/
def timersFired (tick pitFreq : U32) : List ℕ :=
  (List.range 16).filter fun i => timerMask tick pitFreq &&& (1 <<< (15 - i)) ≠ 0

def timerHandler (s : Kernel) (image : Ptr) : Kernel :=
  let s := { s with tick := s.tick + 1 }
  let s := (timersFired s.tick s.pitFreq).foldl (fun s i => eventSend s (evVtimer i)) s
  let s := s.updImg image fun i => { i with tick := i.tick + 1 }
  if (s.tcb image).state = .running then (threadSave s image).onSched (makeReady · image) else s

/-! ### The interrupt entry -/

/-- The handlers `init` registers. -/
def dispatch (env : Env) (s : Kernel) (image : Ptr) : Except Stop (Kernel × TInfo) :=
  let num := (s.img image).num.toNat
  if num = 0x81 then kcall env s image
  else if num = 32 then .ok (timerHandler s image, env.info)
  else if num = 8 then (·, env.info) <$> faultDouble
  else if num = 14 then (·, env.info) <$> faultPage env s image
  else if num ≤ 19 ∧ num ≠ 15 then (·, env.info) <$> faultGeneric s image
  else .ok (s, env.info)

/-- `int_handler` up to the return of the registered handler. -/
def handle (env : Env) (s : Kernel) (image : Ptr) : Except Stop (Kernel × TInfo) :=
  let num := (s.img image).num.toNat
  let s := if 32 ≤ num ∧ num < 48 then
      if num - 32 ≠ 0 then eventSend s (num - 32) else irqReset s (num - 32)
    else s
  dispatch env s image

/-- The rest of `int_handler`: the thread to return to, `none` when the processor
idles. -/
def schedule (s : Kernel) : Except Stop (Option Ptr × Kernel) :=
  match s.active with
  | some image => .ok (some image, s)
  | none =>
    match scheduleNext s.toSched with
    | none => .ok (none, s)
    | some image => do
      let (_, k) ← scheduleRemv s.toSched image
      return (some image, (threadLoad { s with toSched := k } image).setState image .running)

def intHandler (env : Env) (s : Kernel) (image : Ptr) :
    Except Stop (Option Ptr × Kernel × TInfo) := do
  let (s, info) ← handle env s image
  let (t, s) ← schedule s
  return (t, s, info)

/-! ### One entry of the kernel -/

/-- The image an interrupt finds while the processor idles: it lies on the idle
stack, below the heap. -/
def idleImage : Ptr := 0xF0000FB8

/-- What `int_common` and the processor push over the image on an entry. -/
def pushFrame (image : Ptr) (num : ℕ) (r : UserRegs) (i : Image) : Image :=
  { i with
    ds := r.ds, edi := r.edi, esi := r.esi, ebp := r.ebp, esp := image + 36
    ebx := r.ebx, edx := r.edx, ecx := r.ecx, eax := r.eax, num := BitVec.ofNat 32 num
    err := 0, eip := r.eip, eflags := r.eflags, useresp := r.esp }

/-- The events that enter the kernel.  Calls and faults come from the active
thread; an IRQ (line 0 is the timer) interrupts it or the idle loop. -/
inductive Input
  | call (r : UserRegs) (env : Env)
  | irq (n : Fin 16) (r : UserRegs) (env : Env)
  | fault (n : Fin 20) (r : UserRegs) (env : Env)

def Input.num : Input → ℕ
  | .call _ _ => 0x81
  | .irq n _ _ => 32 + n
  | .fault n _ _ => n

def Input.regs : Input → UserRegs
  | .call r _ => r
  | .irq _ r _ => r
  | .fault _ r _ => r

def Input.env : Input → Env
  | .call _ e => e
  | .irq _ _ e => e
  | .fault _ _ e => e

/-- Deliver an interrupt request: the in-service bits the 8259 pair sets. -/
def Pic.deliver (c : Pic) (n : ℕ) : Pic :=
  if n < 8 then { c with isr0 := c.isr0 ||| (1 <<< n) }
  else { c with isr0 := c.isr0 ||| 4, isr1 := c.isr1 ||| (1 <<< (n - 8)) }

def Input.pic : Input → Pic → Pic
  | .irq n _ _, c => c.deliver n
  | _, c => c

/-- The kernel as `int_handler` finds it: the registers are on the image. -/
def trap (s : Kernel) (i : Input) : Kernel :=
  let image := s.active.getD idleImage
  { s with pic := i.pic s.pic }.updImg image (pushFrame image i.num i.regs)

/-- Whether an input can arrive: only interrupts reach an idle processor. -/
def Input.Enabled (s : Sched) : Input → Prop
  | .irq _ _ _ => True
  | _ => s.active ≠ none

instance : ∀ (s : Sched) (i : Input), Decidable (i.Enabled s)
  | _, .irq _ _ _ => isTrue trivial
  | s, .call _ _ => inferInstanceAs (Decidable (s.active ≠ none))
  | s, .fault _ _ _ => inferInstanceAs (Decidable (s.active ≠ none))

/-- The kernel after the registered handler, before a thread is picked. -/
def handled (s : Kernel) (i : Input) : Except Stop (Kernel × TInfo) :=
  handle i.env (trap s i) (s.active.getD idleImage)

/-- One entry: the thread returned to, the kernel and the caller's buffer. -/
def step (s : Kernel) (i : Input) : Except Stop (Option Ptr × Kernel × TInfo) :=
  intHandler i.env (trap s i) (s.active.getD idleImage)

/-! ### The state `init` leaves -/

/-- The kernel's zeroed variables, with memory as the first part of `init` set it
up and the timer as the last part does. -/
def Kernel.bss (m : Mem) : Kernel where
  tcb := fun _ => Tcb.zero
  active := none
  table := fun _ => none
  schedHead := none
  schedTail := none
  evqueue := fun _ => ⟨none, none⟩
  irqstate := fun _ => 0
  ends := fun _ => ⟨none, none⟩
  img := fun _ => Image.zero
  fx := fun _ _ => 0
  fpu := fun _ => 0
  intStack := 0
  mm := m
  irqMask := 0
  pic := ⟨0, 0, 0, 0⟩
  tick := 0
  pitFreq := 64

/-- The bootstrap of the first thread in `init`. -/
def bootstrap (m : Mem) (entry stack eflags : U32) : Except Stop Kernel := do
  let (id, s) ← threadNew (Kernel.bss m)
  match threadGet s.toSched id with
  | none => .error .kernelFault
  | some thread =>
    let s := s.updImg thread fun i =>
      { i with
        useresp := stack, esp := thread + 36, ss := 0x21, ds := 0x21
        cs := 0x19, eflags := eflags ||| 0x1200, eip := entry }
    return (threadLoad s thread).setState thread .running

/-- A memory for runs on concrete inputs: frame 0 is the page directory, mapped
into itself, and every other directory entry names the table in frame 1. -/
def flatMem : Mem where
  phys := fun f i => if f = 0 then (if i = 1023 then 3 else 0x1003) else 0
  cr3 := 0
  kend := 0xF0100000
  outOfMemory := true
  oomPool := KERNEL_BOOT_SIZE
  frameStruct := fun _ => ⟨none, none, 0, 0⟩
  frameList := none
  frameHash := fun _ => none
  pctxTable := fun _ => 0
  activePctx := 0
  heapBucket := fun _ => []
  analysis := fun _ => 0
  brk := KERNEL_HEAP

end Pinion
