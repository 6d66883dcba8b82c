/-
Machine words, structures and constants of the kernel.

`struct thread` is split at one pointer into two records: `Tcb` holds what the
scheduler reads and links (id, state, event and the four link fields), `Image`
the stored continuation and everything else.  A pointer to a thread is the
address of its heap block; `NULL` is `none`.

* `TState` — the `TS_*` states;
* `Tcb`, `Image` — the two halves of `struct thread`;
* `TInfo` — the `t_info` record a kernel call reads or fills;
* `Stop` — the ways the kernel stops running: a panic, or a loop with no end.
-/
import Mathlib

namespace Pinion

abbrev U8 := BitVec 8
abbrev U16 := BitVec 16
abbrev U32 := BitVec 32

/-- The address of a kernel structure. -/
abbrev Ptr := BitVec 32

/-- `TS_FREE` … `TS_PAUSEDW`, in the order of their codes. -/
inductive TState
  | free
  | queued
  | running
  | waiting
  | paused
  | pausedw
  deriving DecidableEq, Repr

/-- The numeric code of a state, as `t_info.state` carries it. -/
def TState.code : TState → U8
  | .free => 0
  | .queued => 1
  | .running => 2
  | .waiting => 3
  | .paused => 4
  | .pausedw => 5

/-- Why no further instruction of the kernel runs: `debug_panic` halted the
machine, or a loop over a cyclic list never leaves it. -/
inductive Stop
  | panic (message : String)
  | hang
  deriving DecidableEq, Repr

/-- A kernel access through a bad pointer: `fault_page` finds `cs & 3 = 0` and
panics. -/
def Stop.kernelFault : Stop := .panic "page fault exception"

/-! ### Constants of `pinion.h`, `interrupt.h` and `address.h` -/

def THREAD_COUNT : ℕ := 1024
def EV_COUNT : ℕ := 256
def PCTX_COUNT : ℕ := 1024
def PAGESZ : U32 := 0x1000

def TF_DEAD : U8 := 1
def TF_USER : U8 := 2

def TE_STATE : U32 := 1
def TE_EXIST : U32 := 2

def FV_PAGE : U8 := 1
def FV_ACCS : U8 := 2

def KERNEL_ADDR_BASE : U32 := 0xF0000000
def SYSTEM_ADDR_BASE : U32 := 0xC0000000
def KERNEL_BOOT_SIZE : U32 := 0x800000

/-- `EV_VTIMER(n)`. -/
def evVtimer (n : ℕ) : ℕ := 255 - n

/-! ### The FPU area -/

/-- The 512 bytes at `thread->fxdata`. -/
abbrev FxArea := Fin 128 → U32

/-- The 108 bytes `fsave` stores and `frstor` loads. -/
abbrev FpuRegs := Fin 27 → U32

/-! ### Threads -/

/-- What the scheduler reads and links of a `struct thread`. -/
structure Tcb where
  id : ℤ
  state : TState
  event : ℤ
  next : Option Ptr
  nextEvqueue : Option Ptr
  nextDead : Option Ptr
  nextFault : Option Ptr
  deriving DecidableEq

/-- The rest of a `struct thread`: the stored continuation, the system and user
entry points, the FPU area and the per-thread attributes. -/
structure Image where
  ds : U32
  edi : U32
  esi : U32
  ebp : U32
  esp : U32
  ebx : U32
  edx : U32
  ecx : U32
  eax : U32
  num : U32
  err : U32
  eip : U32
  cs : U32
  eflags : U32
  useresp : U32
  ss : U32
  vm86Active : U32
  sysEip : U32
  sysEsp : U32
  usrEip : U32
  usrEsp : U32
  fxdata : Option Ptr
  flags : U8
  tick : BitVec 64
  fault : U8
  faultAddr : U32
  pctx : U32
  deriving DecidableEq

/-- A control block after `memclr`. -/
def Tcb.zero : Tcb := ⟨0, .free, 0, none, none, none, none⟩

/-- An image after `memclr`. -/
def Image.zero : Image :=
  ⟨0, 0, 0, 0, 0, 0, 0, 0, 0, 0, 0, 0, 0, 0, 0, 0, 0, 0, 0, 0, 0, none, 0, 0, 0, 0, 0⟩

/-- `sizeof(struct thread)` (packed). -/
def sizeofThread : ℕ := 170

/-- `struct t_regs`. -/
structure TRegs where
  edi : U32
  esi : U32
  ebp : U32
  esp : U32
  ebx : U32
  edx : U32
  ecx : U32
  eax : U32
  eip : U32
  eflags : U32
  fxdata : FxArea
  deriving DecidableEq

/-- `struct t_info`, less the reserved and scheduling fields no call touches. -/
structure TInfo where
  id : U32
  pctx : U32
  state : U8
  flags : U8
  event : U8
  fault : U8
  faultAddr : U32
  usrIp : U32
  usrSp : U32
  regs : TRegs
  deriving DecidableEq

/-- The registers a thread runs with when it enters the kernel. -/
structure UserRegs where
  ds : U32
  edi : U32
  esi : U32
  ebp : U32
  ebx : U32
  edx : U32
  ecx : U32
  eax : U32
  eip : U32
  eflags : U32
  esp : U32
  deriving DecidableEq

/-- What a kernel entry finds outside the kernel's own variables: the `t_info`
at the pointer the call passes, what stands at that pointer in the paging context
the call loads (`none` where reading it faults), the words beyond the end of
`irqstate` (`none` where no page is mapped), and CR2. -/
structure Env where
  info : TInfo
  loaded : Option TInfo
  beyond : ℕ → Option ℤ
  cr2 : U32

end Pinion
