/-
The way from a function of the system layer into the kernel and back: `kcall` of `kcall.s`.

To its C callers `kcall` is a function.  It saves `ebx`, loads the registers of a kernel call from
its arguments (the last of them is not loaded) and raises interrupt 0x81; what it returns is in
`eax`. Between the interrupt and the next instruction the kernel may block the thread, and other
threads may run; that the function keeps the registers its callers rely on rests on what the kernel
keeps of a thread that is away.

* `kcallEnter`, `kcallLeave` — the code before and behind the interrupt;
* `kcall_function` — the call of a function, from the stack of its caller to the return.
-/
import Pinion.Preempted
import Pinion.System

open Asm Runs

namespace Pinion

/-! ### The code -/

/-- `kcall`, up to its interrupt. -/
def kcallEnter : List Instr :=
  [.push .ebx, .load .eax .esp 8, .load .ebx .esp 12, .load .ecx .esp 16, .load .edx .esp 20]

def kcallLeave : List Instr := [.pop .ebx, .ret]

section Stub

variable {m : Machine} {ret call a₀ a₁ a₂ b : U32} {ws : List U32}

/-- The arguments are in the registers, and `ebx` is on the stack. -/
theorem kcallEnter_run (h : Held (ret :: call :: a₀ :: a₁ :: a₂ :: ws) m)
    (hroom : 4 ≤ (m.reg .esp).toNat) :
    ∃ m₁, run gdt kcallEnter m = some m₁ ∧
      Held (m.reg .ebx :: ret :: call :: a₀ :: a₁ :: a₂ :: ws) m₁ ∧
      (m₁.reg .eax = call ∧ m₁.reg .ebx = a₀ ∧ m₁.reg .ecx = a₁ ∧ m₁.reg .edx = a₂) ∧
      (∀ r ∈ [Reg.ebp, .esi, .edi], m₁.reg r = m.reg r) ∧ m₁.reg .esp = m.reg .esp - 4 ∧
      m₁.mem = Function.update m.mem (m.reg .esp - 4) (m.reg .ebx) ∧ m₁.seg = m.seg ∧
      m₁.eflags = m.eflags := by
  obtain ⟨m', hpush, hheld, hsame, hesp, hmem⟩ := h.push hroom (m.reg .ebx)
  set m₂ := m'.setReg .eax call
  set m₃ := m₂.setReg .ebx a₀
  set m₄ := m₃.setReg .ecx a₁
  set m₅ := m₄.setReg .edx a₂
  -- the loads leave the stack
  have hheld₂ : Held _ m₂ := hheld.congr (Machine.setReg_ne m' (by decide) call) rfl
  have hheld₃ : Held _ m₃ := hheld₂.congr (Machine.setReg_ne m₂ (by decide) a₀) rfl
  have hheld₄ : Held _ m₄ := hheld₃.congr (Machine.setReg_ne m₃ (by decide) a₁) rfl
  have hheld₅ : Held _ m₅ := hheld₄.congr (Machine.setReg_ne m₄ (by decide) a₂) rfl
  have h₁ : exec gdt (.push .ebx) m = some m' := hpush
  have h₂ : exec gdt (.load .eax .esp 8) m' = some m₂ := hheld.load (k := 2) (by simp)
  have h₃ : exec gdt (.load .ebx .esp 12) m₂ = some m₃ := hheld₂.load (k := 3) (by simp)
  have h₄ : exec gdt (.load .ecx .esp 16) m₃ = some m₄ := hheld₃.load (k := 4) (by simp)
  have h₅ : exec gdt (.load .edx .esp 20) m₄ = some m₅ := hheld₄.load (k := 5) (by simp)
  have hother : ∀ r, r ∉ [Reg.eax, .ebx, .ecx, .edx] → m₅.reg r = m'.reg r := by
    intro r hr
    simp only [List.mem_cons, List.mem_nil_iff, or_false, not_or] at hr
    obtain ⟨ha, hb, hc, hd⟩ := hr
    simp only [m₅, m₄, m₃, m₂, Machine.setReg_ne _ ha, Machine.setReg_ne _ hb,
      Machine.setReg_ne _ hc, Machine.setReg_ne _ hd]
  refine ⟨m₅, ?_, hheld₅, ⟨?_, ?_, ?_, ?_⟩, fun r hr => ?_, ?_, hmem, hsame.seg, hsame.eflags⟩
  · rw [kcallEnter, run_step h₁, run_step h₂, run_step h₃, run_step h₄, run_step h₅]
    rfl
  · simp [m₅, m₄, m₃, m₂]
  · simp [m₅, m₄, m₃]
  · simp [m₅, m₄]
  · simp [m₅]
  · rw [hother r (by rintro hr'; revert hr hr'; cases r <;> decide)]
    exact hsame.reg r (by rintro rfl; revert hr; decide)
  · rw [hother .esp (by decide)]
    exact hesp

/-- `ebx` is back, and the function returns. -/
theorem kcallLeave_run (h : Held (b :: ret :: ws) m) :
    ∃ m₁, run gdt kcallLeave m = some m₁ ∧ m₁.eip = ret ∧ m₁.reg .ebx = b ∧
      (∀ r, r ≠ .ebx → r ≠ .esp → m₁.reg r = m.reg r) ∧ m₁.reg .esp = m.reg .esp + 8 ∧
      m₁.mem = m.mem ∧ m₁.seg = m.seg ∧ m₁.eflags = m.eflags := by
  obtain ⟨m', hpop, hheld, hsame, hmem⟩ := h.pop
  have hesp : m'.reg .esp = m.reg .esp + 4 := by
    obtain ⟨-, rfl⟩ := Prod.mk.inj (Option.some.inj (h.pop_eq.symm.trans hpop))
    exact Machine.setReg_self m .esp _
  set m₁ := m'.setReg .ebx b
  have h₁ : exec gdt (.pop .ebx) m = some m₁ := by
    rw [exec, hpop]
    rfl
  have hheld₁ : Held (ret :: ws) m₁ := hheld.congr (Machine.setReg_ne m' (by decide) b) rfl
  obtain ⟨m₂, h₂, heip, hmem₂, hseg, heflags, hreg⟩ := hheld₁.ret (g := gdt)
  refine ⟨m₂, ?_, heip, ?_, fun r hb hesp => ?_, ?_, hmem₂.trans hmem, hseg.trans hsame.seg,
    heflags.trans hsame.eflags⟩
  · rw [kcallLeave, run_step h₁, run_step h₂]
    rfl
  · rw [hreg, Function.update_of_ne (by decide)]
    exact Machine.setReg_self m' .ebx b
  · rw [hreg, Function.update_of_ne hesp, Machine.setReg_ne m' hb]
    exact hsame.reg r hesp
  · rw [hreg, Function.update_self, Machine.setReg_ne m' (by decide), hesp, BitVec.add_assoc]
    rfl

end Stub

/-! ### The function -/

/-- The entry by interrupt 0x81 of a thread in system mode, but for a `SYSRET` and a `SETSTATE` of
the thread on itself. -/
def IsKcall (s : Kernel) (i : Input) : Prop := IsPlain s i ∧ ∃ r env, i = .call r env

section Function

variable {kstack back : U32} {t : Ptr} {m : Machine} {s : Kernel}
  {ret call a₀ a₁ a₂ : U32} {ws : List U32}

/-- Entries of one kind are entries of a wider kind. -/
theorem Excursion.mono {out out' : Kernel → Input → Prop} (hout : ∀ s i, out s i → out' s i)
    {m₀ : Machine} (h : Excursion kstack back out t m₀ s m) :
    Excursion kstack back out' t m₀ s m := by
  induction h with
  | leave hrun hact ho hok hentry => exact .leave hrun hact (hout _ _ ho) hok hentry
  | compute _ hact hc ih => exact ih.compute hact hc
  | enter _ hact hset hreap hok hentry ih => exact ih.enter hact hset hreap hok hentry

/-- **`kcall` is a function.**  A thread that calls it, with the arguments on its stack, raises the
interrupt with the number and the first three arguments in the registers the kernel reads.  Whenever
it is resumed, after whatever the kernel and other threads did, if the two words that `kcall` has on
the stack are still there, it returns to its caller: with what the kernel left in `eax`, the stack
pointer behind the return address, and `ebx`, `ebp`, `esi`, `edi` and the flags as they were. -/
theorem kcall_function (hrun : MachineRun StepBlockOk kstack back s m) (ht : s.active = some t)
    (hheld : Held (ret :: call :: a₀ :: a₁ :: a₂ :: ws) m) (hroom : 4 ≤ (m.reg .esp).toNat)
    (hapart : ∀ j q, s.table j = some q → (m.reg .esp).toNat ≤ q.toNat ∨
      q.toNat + 68 ≤ (m.reg .esp).toNat) (next : U32) :
    ∃ m₁, run gdt kcallEnter m = some m₁ ∧
      MachineRun StepBlockOk kstack back s { m₁ with eip := next } ∧
      m₁.reg .eax = call ∧ m₁.reg .ebx = a₀ ∧ m₁.reg .ecx = a₁ ∧ m₁.reg .edx = a₂ ∧
      ∀ s' m₂, Excursion kstack back IsKcall t { m₁ with eip := next } s' m₂ → s'.active = some t →
        Cells m₂.mem (m₁.reg .esp).toNat [m.reg .ebx, ret] →
        m₂.eip = next ∧ ∃ m₃, run gdt kcallLeave m₂ = some m₃ ∧ m₃.eip = ret ∧
          m₃.reg .eax = (s'.img t).eax ∧ m₃.reg .esp = m.reg .esp + 4 ∧
          (∀ r ∈ [Reg.ebx, .ebp, .esi, .edi], m₃.reg r = m.reg r) ∧ m₃.eflags = m.eflags ∧
          m₃.mem = m₂.mem := by
  obtain ⟨m₁, henter, hheld₁, ⟨heax, hebx, hecx, hedx⟩, hkeep, hesp, hmem, hseg, heflags⟩ :=
    kcallEnter_run hheld hroom
  have hinv := hrun.trapInv
  obtain ⟨-, -, hds⟩ := hinv.synced.thread t ht
  have haddr : (m.reg .esp - 4).toNat = (m.reg .esp).toNat - 4 := by bv_omega
  have hcomputes : Computes s m { m₁ with eip := next } := by
    refine ⟨by rw [ht]; exact Option.some_ne_none t, fun j q hj => ?_, congrFun hseg .cs,
      congrFun hseg .ss, ?_⟩
    · obtain ⟨e, he⟩ := hinv.synced.holds j q hj
      refine ⟨e, he.congr fun b hb hb' => ?_⟩
      show m₁.mem b = m.mem b
      rw [hmem]
      refine Function.update_of_ne ?_ _ _
      rintro rfl
      have hq := hapart j q hj
      simp only [imageWords, List.length_cons, List.length_nil] at hb'
      omega
    · show gdt.data m.cpl (m₁.seg .ds) = true
      rw [hseg]
      exact hds
  refine ⟨m₁, henter, hrun.compute hcomputes, heax, hebx, hecx, hedx, ?_⟩
  intro s' m₂ hex ht' hcells
  -- what the kernel keeps of a thread that is away
  have hplain : Excursion kstack back IsPlain t { m₁ with eip := next } s' m₂ :=
    hex.mono fun _ _ h => h.1
  obtain ⟨hctx, -⟩ := hplain.savedContext
  have hregs := hplain.regs ht'
  have hsaved : (cpuRegs m₂).saved = (cpuRegs { m₁ with eip := next }).saved := by
    rw [hregs]
    exact congrArg Prod.fst hctx
  simp only [UserRegs.saved, cpuRegs, UserRegs.mk.injEq, true_and] at hsaved
  obtain ⟨-, hedi, hesi, hebp, -, -, heip, heflags₂, hesp₂⟩ := hsaved
  have hheld₂ : Held [m.reg .ebx, ret] m₂ := by
    refine ⟨?_, ?_, ?_⟩
    · rw [hesp₂]
      exact hheld₁.aligned
    · have hend := hheld₁.room
      simp only [List.length_cons, List.length_nil] at hend ⊢
      rw [hesp₂]
      omega
    · rw [hesp₂]
      exact hcells
  obtain ⟨m₃, hleave, hret, hebx₃, hother, hesp₃, hmem₃, -, heflags₃⟩ := kcallLeave_run hheld₂
  refine ⟨heip, m₃, hleave, hret, ?_, ?_, fun r hr => ?_, ?_, hmem₃⟩
  · rw [hother .eax (by decide) (by decide)]
    exact congrArg UserRegs.eax hregs
  · rw [hesp₃, hesp₂, hesp]
    bv_omega
  · simp only [List.mem_cons, List.mem_nil_iff, or_false] at hr
    rcases hr with rfl | rfl | rfl | rfl
    · exact hebx₃
    · rw [hother .ebp (by decide) (by decide), hebp]
      exact hkeep .ebp (by decide)
    · rw [hother .esi (by decide) (by decide), hesi]
      exact hkeep .esi (by decide)
    · rw [hother .edi (by decide) (by decide), hedi]
      exact hkeep .edi (by decide)
  · rw [heflags₃, heflags₂]
    exact heflags

end Function

/-- The kernel answers a `GETTID` at once. -/
theorem next_gettid {s : Kernel} {t : Ptr} (hs : SystemThread t s) {r : UserRegs} (hr : r.eax = 3)
    (env : Env) : ∃ s', s.next (.call r env) = .ok s' ∧ s'.toSched = s.toSched ∧
      s'.img t = { (trap s (.call r env)).img t with eax := BitVec.ofInt 32 (s.tcb t).id } := by
  have hcall : Call.ofEax r.eax = .gettid := by rw [hr]; decide
  obtain ⟨hmode, heax⟩ := kcall_system hs r env hcall
  have himage : s.image = t := by rw [Sched.image, hs.active, Option.getD_some]
  have hhandled : handled s (.call r env) =
      .ok ((trap s (.call r env)).setEax t (BitVec.ofInt 32 (s.tcb t).id), env.info) := by
    rw [handled_call, himage, kcall, if_neg (not_not.mpr hmode), kernelCall, heax]
    rfl
  refine ⟨_, next_of_handled hhandled hs.active, rfl, ?_⟩
  exact Function.update_self _ _ _

/-- The first thread asks for its number, and gets it. -/
theorem kcall_function_gettid : ∃ s m t m₁ s' m₂ m₃, MachineRun StepBlockOk 0xF0100000 0 s m ∧
    s.active = some t ∧ run gdt kcallEnter m = some m₁ ∧
    Excursion 0xF0100000 0 IsKcall t { m₁ with eip := 0x2000 } s' m₂ ∧
    run gdt kcallLeave m₂ = some m₃ ∧ m₃.eip = 0x77 ∧
    m₃.reg .eax = BitVec.ofInt 32 (s.tcb t).id ∧ m₃.reg .ebx = m.reg .ebx := by
  obtain ⟨s, m₀, t, hrun₀, hboot, ht, -, honly⟩ := exists_machineRun
  have hi : Init s := ⟨flatMem, 0, 0, 0, .empty rfl fun _ => rfl, hboot⟩
  obtain ⟨u, stack, entry, eflags, hu, ⟨j, hj⟩, -, -, himg⟩ := hi.first
  obtain rfl : u = t := Option.some.inj (hu.symm.trans ht)
  have hflags : (s.img u).flags = 0 := by rw [himg]; rfl
  have hsys : SystemThread u s := ⟨ht, by rw [hflags]; rfl⟩
  obtain ⟨-, ⟨L, hA⟩, -⟩ := hrun₀.reach.grounds
  have hheap : KERNEL_HEAP = 0xF1000000 := by decide
  obtain ⟨-, hlo, -, -⟩ := hA.blocks hj
  have hbase : ∀ k q, s.table k = some q → 0xF1000000 ≤ q.toNat := by
    intro k q hq
    rw [honly k q hq, ← hheap]
    exact hlo
  -- it calls `kcall` with the number of `GETTID`
  set m : Machine :=
    { reg := fun r => if r = .esp then 0x1000 else 0
      seg := m₀.seg
      eip := 0
      eflags := 0x1202
      mem := fun b => if b.toNat < 0x2000 then wordsAt 0x1000 [0x77, 3, 0, 0, 0] b else m₀.mem b }
    with hm
  have hesp : (m.reg .esp).toNat = 0x1000 := rfl
  have hcompute : Computes s m₀ m := by
    obtain ⟨-, -, hds⟩ := hrun₀.trapInv.synced.thread u ht
    refine ⟨by rw [ht]; exact Option.some_ne_none u, fun k q hq => ?_, rfl, rfl, hds⟩
    obtain ⟨e, he⟩ := hrun₀.trapInv.synced.holds k q hq
    have hq' := hbase k q hq
    exact ⟨e, he.congr fun b hb _ => if_neg (by omega)⟩
  have hrun := hrun₀.compute hcompute
  have hheld : Held [0x77, 3, 0, 0, 0] m := by
    refine ⟨by rw [hesp], by rw [hesp]; decide, ?_⟩
    rw [hesp]
    refine (Cells.wordsAt 0x1000 _).congr fun b hb hb' => if_pos ?_
    simp only [List.length_cons, List.length_nil] at hb'
    omega
  obtain ⟨m₁, henter, hrun₁, heax, -, -, -, hback⟩ := kcall_function hrun ht hheld
    (by rw [hesp]; decide) (fun k q hq => Or.inl (by rw [hesp]; have := hbase k q hq; omega)) 0x2000
  obtain ⟨n₁, hn₁, hheld₁, -, -, hesp₁, -, -, heflags₁⟩ :=
    kcallEnter_run hheld (by rw [hesp]; decide)
  obtain rfl : n₁ = m₁ := Option.some.inj (hn₁.symm.trans henter)
  -- the kernel answers
  set r := cpuRegs { n₁ with eip := 0x2000 } with hr
  obtain ⟨s', hnext, hsched, himg'⟩ := next_gettid hsys (show r.eax = 3 from heax) noEnv
  have himage : s.image = u := by rw [Sched.image, ht, Option.getD_some]
  have htrap := trap_img s (.call r noEnv)
  rw [himage] at htrap
  have ht' : s'.active = some u := by
    show s'.toSched.active = some u
    rw [hsched]
    exact ht
  have honly' : ∀ k q, s'.table k = some q → q = u := by
    intro k q hq
    have hq' : s'.toSched.table k = some q := hq
    rw [hsched] at hq'
    exact honly k q hq'
  have hflat : s'.Flat := by
    intro v hv
    obtain rfl : u = v := Option.some.inj (ht'.symm.trans hv)
    rw [himg', htrap]
    show n₁.eflags.getLsbD 17 = false
    rw [heflags₁]
    show (0x1202 : U32).getLsbD 17 = false
    decide
  have hact : (Input.call r noEnv).act s = .other := by
    rw [Input.act, himage, if_neg (by rw [hflags]; decide), show r.eax = 3 from heax]
    rfl
  have hok : StepBlockOk s (.call r noEnv) := by
    rw [StepBlockOk, hact]
    trivial
  have hcall : IsKcall s (.call r noEnv) := by
    have hthree : Call.ofEax r.eax = .gettid := by rw [show r.eax = 3 from heax]; decide
    refine ⟨⟨fun hsw => ?_, fun v _ hset => ?_⟩, r, noEnv, rfl⟩
    · rcases hsw with hu | hu
      · rw [himage, hflags] at hu
        exact hu rfl
      · rw [hthree] at hu
        cases hu
    · have hset' : Call.ofEax r.eax = .setstate := hset.2.1
      rw [hthree] at hset'
      cases hset'
  have hfrom : (Input.call r noEnv).From s { n₁ with eip := 0x2000 } none := by
    refine ⟨?_, fun _ => rfl, show Agrees 0x81 none by decide⟩
    show s.active ≠ none
    rw [ht]
    exact Option.some_ne_none u
  obtain ⟨hw', ⟨L', hA'⟩, -⟩ := KernelReach.grounds (.next hrun₁.reach ⟨hfrom.1, hok⟩ hnext)
  obtain ⟨n, hn⟩ := exists_served hw' hA' ht'
  have hserved : Served s' { n with
      mem := fun b => if b.toNat < 0x2000 then n₁.mem b else n.mem b } := by
    refine ⟨fun k q hq => ?_, hn.cpl, hn.eax⟩
    obtain ⟨e, he⟩ := hn.holds k q hq
    have hq' : 0xF1000000 ≤ q.toNat := by
      rw [honly' k q hq, ← hheap]
      exact hlo
    exact ⟨e, he.congr fun b hb _ => if_neg (by omega)⟩
  obtain ⟨m₂, hres, -, hentry, -⟩ :=
    hrun₁.leaves kernelStack_low hfrom hok hnext hserved hflat ht'
  have hex : Excursion 0xF0100000 0 IsKcall u { n₁ with eip := 0x2000 } s' m₂ :=
    .leave hrun₁ ht hcall hok hentry
  obtain ⟨-, ⟨L', hA'⟩, hlive'⟩ := hex.run.reach.grounds
  obtain ⟨n₂, hn₂, -, hmem₂, -⟩ :=
    hserved.resume hA' hex.run.trapInv.loadable hflat ht' (hlive' u ht')
  obtain rfl : n₂ = m₂ := Option.some.inj (hn₂.symm.trans hres)
  have hcells : Cells n₂.mem (n₁.reg .esp).toNat [m.reg .ebx, 0x77] := by
    have hlow : (n₁.reg .esp).toNat = 0xFFC := by
      rw [hesp₁]
      bv_omega
    intro k hk b hb
    have hkeep : n₂.mem b = n₁.mem b := by
      rw [hmem₂]
      simp only [List.length_cons, List.length_nil] at hk
      exact if_pos (by omega)
    rw [hkeep, hheld₁.cells k (by simp only [List.length_cons, List.length_nil] at hk ⊢; omega) b hb]
    simp only [List.length_cons, List.length_nil] at hk
    interval_cases k <;> rfl
  obtain ⟨-, m₃, hleave, heip, heax₃, -, hkeep, -⟩ := hback s' n₂ hex ht' hcells
  refine ⟨s, m, u, n₁, s', n₂, m₃, hrun, ht, henter, hex, hleave, heip, ?_, hkeep .ebx (by decide)⟩
  rw [heax₃, himg']

end Pinion
