/-
Runs from a cold start.

`Init` allows any heap counters and any paging contexts when `init` begins.  Before it
runs they are zero, as every variable in `.bss` is.

* `ColdMem` — the variables before `init` runs;
* `ColdBoot`, `ColdInit` — the memory and the states it hands to the first thread;
* `ColdReach` — the runs from there, which are runs of the kernel.
-/
import Pinion.Handlers

open Runs

namespace Pinion

/-- The heap and the paging contexts before `init` runs. -/
structure ColdMem (m : Mem) : Prop where
  brk : m.brk = KERNEL_HEAP
  bucket : ∀ b, m.heapBucket b = []
  analysis : ∀ b, m.analysis b = 0
  table : ∀ p, m.pctxTable p = 0
  active : m.activePctx = 0

/-- The memories `init` can hand to the first thread. -/
inductive ColdBoot : Mem → Prop
  | start {m : Mem} : ColdMem m → ColdBoot m
  | frame {m m' : Mem} {f : U32} : ColdBoot m → frameAdd m f = .ok m' → ColdBoot m'
  | load {m m' : Mem} {base size flags : U32} : ColdBoot m →
      memAlloc m base size flags = .ok m' → ColdBoot m'

theorem ColdBoot.bootMem {m : Mem} (h : ColdBoot m) : BootMem m := by
  induction h with
  | start hm => exact .empty hm.brk hm.bucket
  | frame _ hadd ih => exact .frame ih hadd
  | load _ hload ih => exact .load ih hload

/-- The states `init` hands to the first thread. -/
def ColdInit (s : Kernel) : Prop :=
  ∃ m entry stack eflags, ColdBoot m ∧ bootstrap m entry stack eflags = .ok s

theorem ColdInit.init {s : Kernel} (h : ColdInit s) : Init s := by
  obtain ⟨m, entry, stack, eflags, hm, h⟩ := h
  exact ⟨m, entry, stack, eflags, hm.bootMem, h⟩

/-- The states reached from a cold start by entries that meet `ok`. -/
def ColdReach (ok : Kernel → Input → Prop) : Kernel → Prop :=
  Reachable Kernel.next (fun s i => i.Enabled s.toSched ∧ ok s i) ColdInit

theorem ColdReach.kernelReach {ok : Kernel → Input → Prop} {s : Kernel} (h : ColdReach ok s) :
    KernelReach ok s := by
  induction h with
  | start hi => exact .start hi.init
  | next _ hok hs ih => exact ih.next hok hs

theorem flatMem_cold : ColdMem flatMem := ⟨rfl, fun _ => rfl, fun _ => rfl, fun _ => rfl, rfl⟩

theorem bootRun_cold {ok : Kernel → Input → Prop} [∀ s i, Decidable (ok s i)] {is : List Input}
    {s : Kernel} (h : bootRun ok is = some s) : ColdReach ok s := by
  obtain ⟨s₀, hs₀, hrun⟩ := Option.bind_eq_some_iff.mp h
  have hinit : ColdInit s₀ := ⟨flatMem, 0, 0, 0, .start flatMem_cold, toOption_eq_some.mp hs₀⟩
  exact Reachable.of_replay (.start hinit) hrun

end Pinion
