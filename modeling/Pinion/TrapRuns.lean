/-
Runs of the machine: threads compute, and enter the kernel by `int.s`.

The images of `int_entry` and `int_return` are those the kernel works on, so the code of `int.s`
around a correct `int_handler` runs the kernel of the model: what comes from the processor is in the
image when a handler starts, and what a handler leaves in the image of the next thread comes back to
the processor.  The kernel relies on two facts about the threads that no handler checks: the
selectors of a thread can be loaded, and `tss_esp` is the end of the image of the active thread.

* `Kernel.Loadable` — the selectors of every thread can be loaded, a fact every handler keeps;
* `handled_stack` — only `thread_load` writes the stack of the interrupts;
* `MachineRun` — the runs: threads compute, the kernel is entered and left;
* `TrapInv` — what holds whenever the processor is outside the kernel;
* `machine_refines` — every entry of a run, and every return.
-/
import Pinion.TrapFrames
import Pinion.Fpu
import Pinion.Contexts
import Pinion.Blocked
import Pinion.Boot

open Asm Runs

namespace Pinion

/-! ### The stack of the interrupts -/

/-- Only `thread_load` writes the stack of the interrupts. -/
theorem handled_stack {s s' : Kernel} {i : Input} {info : TInfo}
    (h : handled s i = .ok (s', info)) : s'.intStack = s.intStack := by
  have htrap : (trap s i).intStack = s.intStack := rfl
  rw [← htrap]
  by_cases hcall : ∃ r env, i = .call r env
  · obtain ⟨r, env, rfl⟩ := hcall
    rw [handled_call] at h
    by_cases hu : ((trap s (.call r env)).img s.image).flags &&& TF_USER = 0
    · exact (kcall_writes True hu (.inl trivial) h).intStack
    · unfold kcall at h
      rw [if_pos hu] at h
      cases h
      rfl
  · exact (handled_writes True (fun r env he => hcall ⟨r, env, he⟩)
      (.inl trivial) h).intStack

/-! ### The selectors of the threads -/

/-- What an image needs to be loaded: selectors of an outer ring, and no virtual-8086 mode. -/
def Image.Loadable (i : Image) : Prop := i.Runnable ∧ i.vm86Active = 0

/-- The part of the image that decides it. -/
def Image.selectors (i : Image) : U32 × U32 × U32 × U32 := (i.cs, i.ss, i.ds, i.vm86Active)

theorem selectors_calm : Calm Image.selectors :=
  ⟨fun _ _ => rfl, fun _ _ => rfl, fun _ _ => rfl, fun _ _ => rfl, fun _ _ => rfl, fun _ _ => rfl⟩

theorem Image.Loadable.congr {i i' : Image} (h : i.Loadable) (heq : i'.selectors = i.selectors) :
    i'.Loadable := by
  simp only [Image.selectors, Prod.mk.injEq] at heq
  obtain ⟨hcs, hss, hds, hvm⟩ := heq
  obtain ⟨⟨hring, v, hv, hdata⟩, hvm₀⟩ := h
  exact ⟨⟨by rw [hcs, hss]; exact hring, v, hds.trans hv, by rw [hcs]; exact hdata⟩, hvm.trans hvm₀⟩

theorem loadable_system {i : Image} (hcs : i.cs = 0x19) (hss : i.ss = 0x21) (hds : i.ds = 0x21)
    (hvm : i.vm86Active = 0) : i.Loadable := by
  refine ⟨⟨Or.inl ⟨hcs, hss⟩, 0x21, hds, ?_⟩, hvm⟩
  rw [hcs]
  decide

theorem loadable_user {i : Image} (hcs : i.cs = 0x2B) (hss : i.ss = 0x33) (hds : i.ds = 0x33)
    (hvm : i.vm86Active = 0) : i.Loadable := by
  refine ⟨⟨Or.inr ⟨hcs, hss⟩, 0x33, hds, ?_⟩, hvm⟩
  rw [hcs]
  decide

/-- Every thread of the table can be loaded. -/
def Kernel.Loadable (s : Kernel) : Prop := ∀ j p, s.table j = some p → (s.img p).Loadable

section Selectors

variable {s s' : Kernel} {env : Env} {c : Ptr}

/-- The trap writes the image of the interrupted thread only. -/
theorem trap_img_ne (i : Input) {p : Ptr} (hp : p ≠ s.image) : (trap s i).img p = s.img p :=
  updImg_ne { s with pic := i.pic s.pic } (pushFrame s.image i.num i.regs) hp

/-- A kernel call leaves every thread loadable. -/
theorem kcall_loadable {info : TInfo} (hw : TableWf s) (hsys : (s.img c).flags &&& TF_USER = 0)
    (hm : s.Loadable) (h : kcall env s c = .ok (s', info)) : s'.Loadable := by
  intro j p hj
  have heff := (kcall_effect hw h).1
  rw [if_neg (not_not.mpr hsys)] at heff
  by_cases hspawn : Call.ofEax (s.img c).eax = .spawn
  · -- the new thread starts in ring 1, the others are as before
    unfold kcall at h
    rw [if_neg (not_not.mpr hsys), kernelCall, hspawn] at h
    obtain ⟨s₁, h₁, h⟩ := map_eq_ok.mp h
    cases h
    obtain ⟨q, v, i, hfresh, himg, hnew, htab⟩ := spawn_writes hw h₁
    have hset := (Keep.of_img (π := Image.selectors) (s := s.updImg q fun _ => i) rfl).setEax
      selectors_calm c v p
    rw [himg]
    refine Image.Loadable.congr ?_ hset
    by_cases hpq : p = q
    · subst hpq
      rw [updImg_self]
      rcases hnew with hsame | ⟨i₀, rfl⟩
      · rw [hsame] at hj
        exact absurd hj (hfresh j)
      · exact loadable_system rfl rfl rfl rfl
    · rw [updImg_ne _ _ hpq]
      exact hm j p ((htab j p hj).resolve_left hpq)
  · have hj' : s.table j = some p :=
      heff.table_sub (fun hact => hspawn (callAct_spawn hact)) hj
    have hload := hm j p hj'
    by_cases hret : Call.ofEax (s.img c).eax = .sysret ∧ p = c
    · obtain ⟨hc, rfl⟩ := hret
      unfold kcall at h
      rw [if_neg (not_not.mpr hsys), kernelCall, hc] at h
      cases h
      rw [updImg_self]
      exact loadable_user rfl rfl rfl hload.2
    · by_cases hset : Call.ofEax (s.img c).eax = .setstate ∧
          s.toSched.named c (s.img c).ebx = some p
      · -- `SETSTATE` writes no selectors
        obtain ⟨hc, ht⟩ := hset
        unfold kcall at h
        rw [if_neg (not_not.mpr hsys), kernelCall, hc] at h
        obtain ⟨s₁, h₁, h⟩ := map_eq_ok.mp h
        cases h
        by_cases hst : Settable (s.tcb p).state
        · obtain ⟨_, i, -, hi, hkept⟩ := setstate_target selectors_calm (fun _ _ => rfl) h₁ ht hst
          exact hload.congr (hkept.trans hi)
        · rcases setstate_cases h₁ with ⟨v, -, rfl, -⟩ | ⟨t, src, s₂, ⟨ht', hst', -⟩, -⟩
          · exact hload.congr ((Keep.of_img rfl).setEax selectors_calm c v p)
          · rw [ht] at ht'
            cases ht'
            exact absurd hst' hst
      · refine hload.congr (kcall_keep selectors_calm hw hsys h ⟨?_, ?_, ?_⟩)
        · exact fun hc hp => hret ⟨hc, hp⟩
        · exact fun hc ht => hset ⟨hc, ht⟩
        · exact fun hc => absurd hc hspawn

/-- **A handler leaves every thread loadable**, if the interrupted one came with a data selector of
its ring. -/
theorem handled_loadable {i : Input} {info : TInfo} (hw : TableWf s) (hm : s.Loadable)
    (hds : s.active ≠ none → ∃ v : Selector, i.regs.ds = v.setWidth 32 ∧
      gdt.data (Selector.rpl ((s.img s.image).cs.setWidth 16)) v = true)
    (h : handled s i = .ok (s', info)) : s'.Loadable := by
  have hwt : TableWf (trap s i) := hw.keep ⟨fun _ => rfl, rfl⟩ (Keeps.refl _)
  have htrap : (trap s i).Loadable := by
    intro j p hj
    have hj' : s.table j = some p := hj
    by_cases hp : p = s.image
    · subst hp
      obtain ⟨v, hv, hdata⟩ := hds (hw.image_active hj')
      rw [trap_img]
      exact ⟨⟨(hm j _ hj').1.ring, v, hv, hdata⟩, (hm j _ hj').2⟩
    · rw [trap_img_ne i hp]
      exact hm j p hj'
  have heff := (handled_effect hw h).1
  have hother : (∀ r env, i ≠ .call r env) → s'.Loadable := by
    intro hi j p hj
    have hact : i.act s ≠ .spawn := fun hs => by
      obtain ⟨r, env, hcall, -⟩ := Input.act_spawn hs
      exact hi r env hcall
    exact (htrap j p (heff.table_sub hact hj)).congr (handled_keep selectors_calm hi h p)
  cases i with
  | call r env =>
    rw [handled_call] at h
    by_cases huser : ((trap s (.call r env)).img s.image).flags &&& TF_USER = 0
    · exact kcall_loadable hwt huser htrap h
    · -- a system call: the caller gets the selectors of ring 1
      intro j p hj
      unfold kcall at h
      rw [if_pos huser] at h
      cases h
      by_cases hp : p = s.image
      · subst hp
        rw [updImg_self]
        exact loadable_system rfl rfl rfl (htrap j _ hj).2
      · rw [updImg_ne _ _ hp]
        exact htrap j p hj
  | irq n r env => exact hother fun _ _ => by simp
  | fault n r env => exact hother fun _ _ => by simp

/-- `int_handler` as a whole: threads stay loadable, and the interrupt stack is the active
thread's. -/
theorem next_loadable {i : Input} (hw : TableWf s) (hm : s.Loadable)
    (hlive : ∀ t, s'.active = some t → ∃ j, s'.table j = some t)
    (hstack : ∀ t, s.active = some t → s.intStack = t + 64)
    (hds : s.active ≠ none → ∃ v : Selector, i.regs.ds = v.setWidth 32 ∧
      gdt.data (Selector.rpl ((s.img s.image).cs.setWidth 16)) v = true)
    (h : s.next i = .ok s') :
    s'.Loadable ∧ ∀ t, s'.active = some t → s'.intStack = t + 64 := by
  obtain ⟨⟨o, s₁, info⟩, hstep, rfl⟩ := map_eq_ok.mp h
  obtain ⟨s₂, h₂, h₁⟩ := step_cases hstep
  have heff := handled_effect hw h₂
  have hm₂ := handled_loadable hw hm hds h₂
  have htab : s₁.table = s₂.table := (schedule_picks heff.2 h₁).1.table
  have hm₁ : s₁.Loadable := by
    intro j p hj
    rw [schedule_img h₁]
    exact hm₂ j p (htab ▸ hj)
  refine ⟨hm₁, fun t ht => ?_⟩
  rcases schedule_cases h₁ with ⟨rfl, -⟩ | ⟨u, r, k, -, -, -, -, rfl⟩
  · rw [handled_stack h₂]
    exact hstack t (heff.1.active_sub ht)
  · -- `thread_load` sets it
    obtain rfl : u = t := Option.some.inj ht
    obtain ⟨j, hj⟩ := hlive u ht
    have hvm : (s₂.img u).vm86Active = 0 := by
      have hload := (hm₁ j u hj).2
      rw [schedule_img h₁] at hload
      exact hload
    show (threadLoad { s₂ with toSched := k } u).intStack = _
    unfold threadLoad
    dsimp only
    rw [if_neg (not_not.mpr hvm)]
    split <;> split <;> rfl

end Selectors

/-- The first thread. -/
theorem Init.first {s : Kernel} (h : Init s) : ∃ t stack entry eflags, s.active = some t ∧
    (∃ j, s.table j = some t) ∧ (∀ j q, s.table j = some q → q = t) ∧ s.intStack = t + 64 ∧
    s.img t = { Image.zero with
      useresp := stack, esp := t + 36, ss := 0x21, ds := 0x21
      cs := 0x19, eflags := eflags ||| 0x1200, eip := entry } := by
  obtain ⟨m, entry, stack, eflags, -, h⟩ := h
  obtain ⟨⟨id, s₁⟩, h₁, h⟩ := bind_eq_ok.mp h
  obtain ⟨⟨o, s₂⟩, h₂, h₁⟩ := bind_eq_ok.mp h₁
  obtain ⟨p, -, -, -, -, himg, -, -, -, htab⟩ := threadAlloc_img h₂
  obtain rfl : s₂ = s₁ := by cases o <;> cases h₁ <;> rfl
  have honly : ∀ j t, s₂.table j = some t → t = p :=
    fun j t ht => (htab j t ht).resolve_right fun hnone => (nomatch hnone)
  have hzero : s₂.img = fun _ => Image.zero := by
    rw [himg]
    exact Function.update_eq_self p _
  dsimp only at h
  split at h
  · cases h
  · rename_i t ht
    cases h
    obtain ⟨n, -, -, hn⟩ := threadGet_eq_some ht
    set s₃ := s₂.updImg t fun i =>
      { i with
        useresp := stack, esp := t + 36, ss := 0x21, ds := 0x21
        cs := 0x19, eflags := eflags ||| 0x1200, eip := entry } with hs₃
    have himage : s₃.img t = { Image.zero with
        useresp := stack, esp := t + 36, ss := 0x21, ds := 0x21
        cs := 0x19, eflags := eflags ||| 0x1200, eip := entry } := by
      rw [hs₃, updImg_self, hzero]
    have htable : ((threadLoad s₃ t).setState t .running).table = s₂.table := by
      rw [Kernel.setState, Kernel.onSched, (threadLoad_toSched s₃ t).1]
      rfl
    refine ⟨t, stack, entry, eflags, rfl, ⟨n, htable ▸ hn⟩, fun j q hj => ?_, ?_, ?_⟩
    · rw [htable] at hj
      exact (honly j q hj).trans (honly n t hn).symm
    · have hvm : ¬(s₃.img t).vm86Active ≠ 0 := by
        rw [himage]
        exact not_not.mpr rfl
      show (threadLoad s₃ t).intStack = _
      unfold threadLoad
      dsimp only
      rw [if_neg hvm]
      split <;> split <;> rfl
    · rw [← himage]
      exact congrFun (threadLoad_eq s₃ t).1 t

theorem Init.loadable {s : Kernel} (h : Init s) : s.Loadable := by
  obtain ⟨t, stack, entry, eflags, -, -, honly, -, himg⟩ := h.first
  intro j q hj
  rw [honly j q hj, himg]
  exact loadable_system rfl rfl rfl rfl

/-! ### The machine -/

/-- Memory holds the images of all threads; nothing reads the error code. -/
def Holds (mem : U32 → U32) (s : Kernel) : Prop :=
  ∀ j p, s.table j = some p → ∃ e, Cells mem p.toNat (imageWords { s.img p with err := e })

/-- The processor runs the active thread, or it idles on the stack of `cpu_idle`. -/
structure Synced (s : Kernel) (m : Machine) : Prop where
  holds : Holds m.mem s
  thread : ∀ t, s.active = some t → (m.seg .cs).setWidth 32 = (s.img t).cs ∧
    (m.seg .ss).setWidth 32 = (s.img t).ss ∧ gdt.data m.cpl (m.seg .ds) = true
  idle : s.active = none → m.cpl = 0 ∧ m.reg .esp = idleImage + 56

/-- The active thread computes: it may change its registers, load another data selector of its ring,
and write to memory that is not the kernel's. -/
structure Computes (s : Kernel) (m m' : Machine) : Prop where
  active : s.active ≠ none
  holds : Holds m'.mem s
  cs : m'.seg .cs = m.seg .cs
  ss : m'.seg .ss = m.seg .ss
  ds : gdt.data m.cpl (m'.seg .ds) = true

/-- What `int_handler` leaves: the images of the kernel, and in `eax` the thread to resume. -/
structure Served (s : Kernel) (m : Machine) : Prop where
  holds : Holds m.mem s
  cpl : m.cpl = 0
  eax : ∀ t, s.active = some t → m.reg .eax = t

/-- The thread does not go to virtual-8086 mode. -/
def Kernel.Flat (s : Kernel) : Prop :=
  ∀ t, s.active = some t → (s.img t).eflags.getLsbD 17 = false

/-- The rest of `int_common`, or `cpu_idle`. -/
def Resumes (s : Kernel) (m m' : Machine) : Prop :=
  s.Flat ∧ if s.active = none then m'.cpl = 0 ∧ m'.reg .esp = idleImage + 56 ∧ m'.mem = m.mem
    else run gdt intResume m = some m'

/-- The input is what comes from the processor: the registers of the active thread, and an error
code where the stub expects one. -/
def Input.From (s : Kernel) (m : Machine) (err : Option U32) (i : Input) : Prop :=
  i.Enabled s.toSched ∧ (s.active ≠ none → i.regs = cpuRegs m) ∧ Agrees i.num err

/-- One entry of the kernel, by the code of `int.s` around `int_handler`. -/
structure Entry (kstack back : U32) (s : Kernel) (m : Machine) (i : Input) (s' : Kernel)
    (m' : Machine) : Prop where
  entry : ∃ err m₁ m₂, i.From s m err ∧ enter kstack back s.intStack i.num err m = some m₁ ∧
    Served s' m₂ ∧ Resumes s' m₂ m'
  next : s.next i = .ok s'

/-- Runs of the machine, and of the kernel along with it. -/
inductive MachineRun (ok : Kernel → Input → Prop) (kstack back : U32) : Kernel → Machine → Prop
  | boot {s : Kernel} {m m' : Machine} : Init s → Served s m → Resumes s m m' →
      MachineRun ok kstack back s m'
  | compute {s : Kernel} {m m' : Machine} : MachineRun ok kstack back s m → Computes s m m' →
      MachineRun ok kstack back s m'
  | enter {s s' : Kernel} {m m' : Machine} {i : Input} : MachineRun ok kstack back s m → ok s i →
      Entry kstack back s m i s' m' → MachineRun ok kstack back s' m'

theorem MachineRun.reach {ok : Kernel → Input → Prop} {kstack back : U32} {s : Kernel} {m : Machine}
    (h : MachineRun ok kstack back s m) : KernelReach ok s := by
  induction h with
  | boot hi => exact .start hi
  | compute _ _ ih => exact ih
  | enter _ hok hentry ih =>
    obtain ⟨-, -, -, ⟨hen, -⟩, -⟩ := hentry.entry
    exact .next ih ⟨hen, hok⟩ hentry.next

/-- The structures of two threads do not overlap, and lie in the heap. -/
theorem Areas.blocks {s : Kernel} {L : Blocks} (h : Areas s L) {j : ℕ} {p : Ptr}
    (hp : s.table j = some p) : p.toNat % 256 = 0 ∧ KERNEL_HEAP ≤ p.toNat ∧
      p.toNat + 256 ≤ KERNEL_HEAP_END ∧ ∀ k q, s.table k = some q → q ≠ p →
        q.toNat + 256 ≤ p.toNat ∨ p.toNat + 256 ≤ q.toNat := by
  have hmem : ∀ {k q}, s.table k = some q → q ∈ s.mm.heapBucket 6 ++ L 6 :=
    fun hq => List.mem_append_right _ (h.thread _ _ hq)
  have hsize : blockSize 6 = 256 := by decide
  obtain ⟨hlo, hhi⟩ := h.heap.packed.inside (6, p.toNat) ⟨p, hmem hp, rfl⟩
  have haligned := h.heap.aligned (6, p.toNat) ⟨p, hmem hp, rfl⟩
  have htop := h.heap.top
  rw [hsize] at hhi haligned
  refine ⟨Nat.mod_eq_zero_of_dvd haligned, hlo, hhi.trans htop, fun k q hq hne => ?_⟩
  have happart := h.heap.packed.apart (6, q.toNat) ⟨q, hmem hq, rfl⟩ (6, p.toNat) ⟨p, hmem hp, rfl⟩
    fun he => hne (BitVec.eq_of_toNat_eq (Prod.mk.inj he).2)
  rw [hsize] at happart
  exact happart

/-- What holds whenever the processor is outside the kernel. -/
structure TrapInv (s : Kernel) (m : Machine) : Prop where
  loadable : s.Loadable
  stack : ∀ t, s.active = some t → s.intStack = t + 64
  synced : Synced s m

/-- Where the stack of the kernel lies: below the heap, and apart from the frame of the idle loop.
-/
structure KernelStack (kstack : U32) : Prop where
  aligned : kstack.toNat % 4 = 0
  below : kstack.toNat + 0x2000 ≤ KERNEL_HEAP
  idle : idleImage.toNat + 56 ≤ kstack.toNat + 0x1FE8 ∨ kstack.toNat + 0x1FF0 ≤ idleImage.toNat

section Run

variable {s s' : Kernel} {m m' m₁ m₂ : Machine} {kstack back : U32} {i : Input} {err : Option U32}
  {L : Blocks}

theorem setWidth_selector (v : Selector) : ((v.setWidth 32 : U32).setWidth 16 : Selector) = v := by
  simp

/-- The active thread is in ring 1 or 3. -/
theorem TrapInv.cpl (h : TrapInv s m) {t : Ptr} (ht : s.active = some t)
    (hlive : ∃ j, s.table j = some t) : m.cpl = Selector.rpl ((s.img t).cs.setWidth 16) ∧
      m.cpl ≠ 0 := by
  obtain ⟨j, hj⟩ := hlive
  obtain ⟨hcs, -, -⟩ := h.synced.thread t ht
  have hcpl : m.cpl = Selector.rpl ((s.img t).cs.setWidth 16) := by
    rw [← hcs, setWidth_selector]
    rfl
  refine ⟨hcpl, ?_⟩
  rw [hcpl]
  exact (h.loadable j t hj).1.selectors.2.1.ne'

/-- Only memory apart from the threads' structures changes. -/
theorem Holds.keep {mem mem' : U32 → U32} (hA : Areas s L) (h : Holds mem s) {p : Ptr}
    (hmem : ∀ b : U32, (∀ j q, s.table j = some q → q ≠ p → KERNEL_HEAP ≤ b.toNat →
      q.toNat ≤ b.toNat → b.toNat < q.toNat + 64 → mem' b = mem b)) {j : ℕ} {q : Ptr}
    (hj : s.table j = some q) (hne : q ≠ p) :
    ∃ e, Cells mem' q.toNat (imageWords { s.img q with err := e }) := by
  obtain ⟨e, he⟩ := h j q hj
  obtain ⟨-, hlo, -, -⟩ := hA.blocks hj
  exact ⟨e, he.congr fun b hb hb' => hmem b j q hj hne (hlo.trans hb) hb hb'⟩

/-- **Entry**: `int_handler` gets the image that the kernel works on, and memory holds the images as
they are after the trap. -/
theorem TrapInv.entry (h : TrapInv s m) (hA : Areas s L)
    (hlive : ∀ t, s.active = some t → ∃ j, s.table j = some t) (hk : KernelStack kstack)
    (hfrom : i.From s m err) (back : U32) :
    ∃ m₁, enter kstack back s.intStack i.num err m = some m₁ ∧
      m₁.mem (kstack + 0x1FEC) = s.image ∧ Holds m₁.mem (trap s i) := by
  obtain ⟨hen, hregs, hagree⟩ := hfrom
  have hbase := hk.below
  have hheap : KERNEL_HEAP = 0xF1000000 := by decide
  cases ha : s.active with
  | some t =>
    obtain ⟨j, hj⟩ := hlive t ha
    obtain ⟨haligned, hlo, hhi, happart⟩ := hA.blocks hj
    have himage : s.image = t := by rw [Sched.image, ha, Option.getD_some]
    have hend : KERNEL_HEAP_END = 0xF8000000 := by decide
    obtain ⟨m₁, henter, harg, hat⟩ := int_entry (h.cpl ha ⟨j, hj⟩).2 (p := t) (by omega) (by omega)
      (by omega) (show StackApart kstack (t.toNat + 64) 17 from
        ⟨hk.aligned, by omega, Or.inr (by omega)⟩) back i.num err
    obtain ⟨hcells, -, -, -, -, hother⟩ := hat hagree (s.img t)
    rw [h.stack t ha, himage]
    refine ⟨m₁, henter, harg.mpr hagree, fun k q hq => ?_⟩
    have hq' : s.table k = some q := hq
    by_cases hqt : q = t
    · -- the image that was pushed is that of the trap
      subst hqt
      obtain ⟨hcs, hss, -⟩ := h.synced.thread q ha
      refine ⟨err.getD 0, ?_⟩
      have himg := trap_img s i
      rw [himage, hregs (by rw [ha]; exact Option.some_ne_none q)] at himg
      rw [himg]
      have hwords : imageWords { pushFrame q i.num (cpuRegs m) (s.img q) with err := err.getD 0 } =
          imageWords (trapImage m q i.num (err.getD 0) (s.img q)) := by
        simp only [imageWords, pushFrame, trapImage, cpuRegs, hcs, hss]
      rw [hwords]
      exact hcells
    · rw [trap_img_ne i (by rw [himage]; exact hqt)]
      refine h.synced.holds.keep hA (fun b k q hq hne hb hqb hbq => ?_) hq' hqt
      have hq₂ := happart k q hq hne
      simp only [imageWords, List.length_cons, List.length_nil] at hother
      exact hother b (by omega) (Or.inr (by omega))
  | none =>
    obtain ⟨hcpl, hesp⟩ := h.synced.idle ha
    have himage : s.image = idleImage := by rw [Sched.image, ha, Option.getD_none]
    have hidle : idleImage.toNat = 0xF0000FB8 := by decide
    have hesp' : (m.reg .esp).toNat = idleImage.toNat + 56 := by
      rw [hesp]
      decide
    -- only an interrupt reaches an idle processor
    obtain ⟨n, r, env, rfl⟩ : ∃ n r env, i = .irq n r env := by
      cases i with
      | irq n r env => exact ⟨n, r, env, rfl⟩
      | call r env => exact absurd ha hen
      | fault n r env => exact absurd ha hen
    have hn : (Input.irq n r env).num ∉ INTE := by
      have hall : ∀ n : Fin 16, 32 + n.val ∉ INTE := by decide
      exact hall n
    have hnone : err = none := by
      rw [← Option.not_isSome_iff_eq_none]
      exact fun he => hn (hagree.mpr he)
    obtain ⟨m₁, h₁, hs₁, hr₁, hseg₁⟩ :=
      Stack.interruptInner 0x08 0x10 s.intStack hcpl (by omega) (by omega)
    obtain ⟨m₂, h₂, hs₂, hr₂, hseg₂⟩ := stub_frame (Input.irq n r env).num hs₁
      (by simp only [List.length_cons, List.length_nil]; omega)
    rw [if_neg hn] at hs₂
    have hcpl₂ : m₂.cpl = 0 := by
      show (m₂.seg .cs).rpl = 0
      rw [hseg₂, hseg₁, Function.update_self]
      rfl
    obtain ⟨m₃, image, h₃, htop, hcells, harg, -, -, -, hother⟩ := intCommon_frame hs₂ hcpl₂
      (by simp only [List.length_cons, List.length_nil]; omega) back
      ⟨hk.aligned, by omega, by
        have hapart := hk.idle
        simp only [List.length_cons, List.length_nil]
        omega⟩
    simp only [List.length_cons, List.length_nil] at htop
    refine ⟨m₃, ?_, ?_, fun k q hq => ?_⟩
    · rw [enter, hnone, h₁, Option.bind_some, run_append, h₂, Option.bind_some, h₃]
    · rw [harg, himage]
      exact BitVec.eq_of_toNat_eq (by omega)
    · have hq' : s.table k = some q := hq
      have hne : q ≠ idleImage := by
        rintro rfl
        have hlo := (hA.blocks hq').2.1
        omega
      rw [trap_img_ne _ (by rw [himage]; exact hne)]
      refine h.synced.holds.keep hA (fun b k q hq hne hb hqb hbq => ?_) hq' hne
      simp only [savedWords, List.length_append, List.length_cons, List.length_nil] at hother
      exact hother b (by omega) (Or.inr (by omega))

/-- **Return**: the registers are those of the image. -/
theorem Served.resume (h : Served s m) (hA : Areas s L) (hl : s.Loadable) (hflat : s.Flat) {t : Ptr}
    (ht : s.active = some t) (hlive : ∃ j, s.table j = some t) :
    ∃ m', run gdt intResume m = some m' ∧ cpuRegs m' = (s.img t).regs ∧ m'.mem = m.mem ∧
      Synced s m' := by
  obtain ⟨j, hj⟩ := hlive
  obtain ⟨e, hcells⟩ := h.holds j t hj
  obtain ⟨haligned, -, hhi, -⟩ := hA.blocks hj
  have hend : KERNEL_HEAP_END = 0xF8000000 := by decide
  have hrun := (hl j t hj).1
  have hrun' : Image.Runnable { s.img t with err := e } := ⟨hrun.ring, hrun.data⟩
  obtain ⟨m', h', hmem, hregs, hcs, hss, hsegs⟩ := int_return hcells (by omega) (by omega)
    (h.eax t ht) h.cpl hrun' (hflat t ht)
  obtain ⟨-, -, -, hcs₃₂, hss₃₂⟩ := hrun.selectors
  refine ⟨m', h', hregs, hmem, ⟨?_, fun u hu => ?_, fun hnone => ?_⟩⟩
  · rw [hmem]
    exact h.holds
  · obtain rfl : t = u := Option.some.inj (ht.symm.trans hu)
    obtain ⟨v, hv, hdata⟩ := hrun.data
    refine ⟨?_, ?_, ?_⟩
    · rw [hcs]
      exact hcs₃₂
    · rw [hss]
      exact hss₃₂
    · rw [Machine.cpl, hcs, hsegs .ds (by simp)]
      show gdt.data _ ((s.img t).ds.setWidth 16) = true
      rw [hv, setWidth_selector]
      exact hdata
  · rw [ht] at hnone
    cases hnone

/-- The code of a thread leaves the invariant. -/
theorem TrapInv.compute (h : TrapInv s m) (hc : Computes s m m') : TrapInv s m' := by
  have hcpl : m'.cpl = m.cpl := congrArg Selector.rpl hc.cs
  refine ⟨h.loadable, h.stack, ⟨hc.holds, fun t ht => ?_, fun hnone => absurd hnone hc.active⟩⟩
  obtain ⟨hcs, hss, -⟩ := h.synced.thread t ht
  rw [hc.cs, hc.ss, hcpl]
  exact ⟨hcs, hss, hc.ds⟩

/-- The data selector that comes from the processor is one of the ring of the thread. -/
theorem TrapInv.data (h : TrapInv s m) (hlive : ∀ t, s.active = some t → ∃ j, s.table j = some t)
    (hfrom : i.From s m err) (hact : s.active ≠ none) :
    ∃ v : Selector, i.regs.ds = v.setWidth 32 ∧
      gdt.data (Selector.rpl ((s.img s.image).cs.setWidth 16)) v = true := by
  obtain ⟨t, ht⟩ := Option.ne_none_iff_exists'.mp hact
  have himage : s.image = t := by rw [Sched.image, ht, Option.getD_some]
  rw [himage, hfrom.2.1 hact, ← (h.cpl ht (hlive t ht)).1]
  exact ⟨m.seg .ds, rfl, (h.synced.thread t ht).2.2⟩

/-- Whatever is resumed, the invariant holds again. -/
theorem Served.trapInv (h : Served s m) (hA : Areas s L) (hl : s.Loadable)
    (hstack : ∀ t, s.active = some t → s.intStack = t + 64)
    (hlive : ∀ t, s.active = some t → ∃ j, s.table j = some t) (hres : Resumes s m m') :
    TrapInv s m' := by
  obtain ⟨hflat, hres⟩ := hres
  cases ha : s.active with
  | some t =>
    rw [if_neg (by rw [ha]; exact Option.some_ne_none t)] at hres
    obtain ⟨m₁, h₁, -, -, hsync⟩ := h.resume hA hl hflat ha (hlive t ha)
    obtain rfl : m₁ = m' := Option.some.inj (h₁.symm.trans hres)
    exact ⟨hl, hstack, hsync⟩
  | none =>
    rw [if_pos ha] at hres
    obtain ⟨hcpl, hesp, hmem⟩ := hres
    refine ⟨hl, hstack, ⟨?_, fun t ht => ?_, fun _ => ⟨hcpl, hesp⟩⟩⟩
    · rw [hmem]
      exact h.holds
    · rw [ha] at ht
      cases ht

end Run

/-- What the runs of the kernel give: the table, the heap, and the active thread in the table. -/
theorem KernelReach.grounds {s : Kernel} (h : KernelReach StepBlockOk s) : TableWf s ∧
    (∃ L, Areas s L) ∧ ∀ t, s.active = some t → ∃ j, s.table j = some t := by
  obtain ⟨q, hq⟩ := h.sound
  exact ⟨h.tableWf, h.areas, fun t ht => (hq.placed t).live ((hq.placed t).active ht)⟩

section Refines

variable {s s' : Kernel} {m m₂ : Machine} {kstack back : U32} {i : Input} {err : Option U32}

/-- **The invariant holds along every run of the machine.** -/
theorem MachineRun.trapInv (h : MachineRun StepBlockOk kstack back s m) : TrapInv s m := by
  have hreach := h.reach
  induction h with
  | boot hi hserved hres =>
    obtain ⟨-, ⟨L, hA⟩, hlive⟩ := hreach.grounds
    refine hserved.trapInv hA hi.loadable (fun t ht => ?_) hlive hres
    obtain ⟨u, -, -, -, hu, -, -, hstack, -⟩ := hi.first
    obtain rfl : u = t := Option.some.inj (hu.symm.trans ht)
    exact hstack
  | compute _ hc ih => exact (ih hreach).compute hc
  | enter hrun hok hentry ih =>
    obtain ⟨hw, -, hlive⟩ := hrun.reach.grounds
    obtain ⟨-, ⟨L', hA'⟩, hlive'⟩ := hreach.grounds
    have hinv := ih hrun.reach
    obtain ⟨err, m₁, m₂, hfrom, -, hserved, hres⟩ := hentry.entry
    obtain ⟨hl, hstack⟩ := next_loadable hw hinv.loadable hlive' hinv.stack
      (hinv.data hlive hfrom) hentry.next
    exact hserved.trapInv hA' hl hstack hlive' hres

/-- The way in. -/
theorem MachineRun.enters (h : MachineRun StepBlockOk kstack back s m) (hk : KernelStack kstack)
    (hfrom : i.From s m err) : ∃ m₁, Pinion.enter kstack back s.intStack i.num err m = some m₁ ∧
      m₁.mem (kstack + 0x1FEC) = s.image ∧ Holds m₁.mem (trap s i) := by
  obtain ⟨-, ⟨L, hA⟩, hlive⟩ := h.reach.grounds
  exact h.trapInv.entry hA hlive hk hfrom back

/-- The way out. -/
theorem MachineRun.leaves (h : MachineRun StepBlockOk kstack back s m) (hk : KernelStack kstack)
    (hfrom : i.From s m err) (hok : StepBlockOk s i) (hnext : s.next i = .ok s')
    (hserved : Served s' m₂) (hflat : s'.Flat) {t : Ptr} (ht : s'.active = some t) :
    ∃ m', run gdt intResume m₂ = some m' ∧ cpuRegs m' = (s'.img t).regs ∧
      Entry kstack back s m i s' m' ∧ m'.cpl ≠ 0 := by
  obtain ⟨hw, -, hlive⟩ := h.reach.grounds
  obtain ⟨-, ⟨L, hA⟩, hlive'⟩ := KernelReach.grounds (.next h.reach ⟨hfrom.1, hok⟩ hnext)
  have hinv := h.trapInv
  obtain ⟨m₁, henter, -, -⟩ := h.enters hk hfrom
  obtain ⟨hl, hstack⟩ := next_loadable hw hinv.loadable hlive' hinv.stack
    (hinv.data hlive hfrom) hnext
  obtain ⟨m', hrun, hregs, -, hsync⟩ := hserved.resume hA hl hflat ht (hlive' t ht)
  have hinv' : TrapInv s' m' := ⟨hl, hstack, hsync⟩
  refine ⟨m', hrun, hregs, ⟨⟨err, m₁, m₂, hfrom, henter, hserved, hflat, ?_⟩, hnext⟩,
    (hinv'.cpl ht (hlive' t ht)).2⟩
  rw [if_neg (by rw [ht]; exact Option.some_ne_none t)]
  exact hrun

/-- **The code of `int.s` runs the kernel.**  At every point of a run, whatever interrupt comes with
an error code as its stub expects it, `int_handler` is called with the image the kernel works on,
and memory holds the images as they are after the trap, the registers of the interrupted thread
among them.  When it is done with the step of the kernel, the code leaves it: the thread to resume
gets the registers of its image, outside ring 0, and the run goes on. -/
theorem machine_refines (h : MachineRun StepBlockOk kstack back s m) (hk : KernelStack kstack)
    (hfrom : i.From s m err) :
    (∃ m₁, enter kstack back s.intStack i.num err m = some m₁ ∧
      m₁.mem (kstack + 0x1FEC) = s.image ∧ Holds m₁.mem (trap s i)) ∧
    ∀ s' m₂, StepBlockOk s i → s.next i = .ok s' → Served s' m₂ → s'.Flat →
      ∀ t, s'.active = some t → ∃ m', run gdt intResume m₂ = some m' ∧
        cpuRegs m' = (s'.img t).regs ∧ (m'.seg .cs).setWidth 32 = (s'.img t).cs ∧
        (m'.seg .ss).setWidth 32 = (s'.img t).ss ∧ m'.cpl ≠ 0 ∧
        MachineRun StepBlockOk kstack back s' m' := by
  refine ⟨h.enters hk hfrom, fun s' m₂ hok hnext hserved hflat t ht => ?_⟩
  obtain ⟨m', hrun, hregs, hentry, hcpl⟩ := h.leaves hk hfrom hok hnext hserved hflat ht
  have h' := h.enter hok hentry
  obtain ⟨hcs, hss, -⟩ := h'.trapInv.synced.thread t ht
  exact ⟨m', hrun, hregs, hcs, hss, hcpl, h'⟩

end Refines

/-! ### A run -/

/-- The thread whose image holds the byte at `b`. -/
def imageAt (s : Kernel) (b : U32) : Option Ptr :=
  (List.range THREAD_COUNT).findSome? fun j =>
    (s.table j).filter fun p => decide (p.toNat ≤ b.toNat ∧ b.toNat < p.toNat + 64)

/-- Memory with the images of all threads. -/
def imagesMem (s : Kernel) (b : U32) : U32 :=
  (imageAt s b).elim 0 fun p => wordsAt p.toNat (imageWords (s.img p)) b

section Memory

variable {s : Kernel} {L : Blocks} {t : Ptr}

theorem imageAt_eq (hw : TableWf s) (hA : Areas s L) {j : ℕ} {p : Ptr} (hj : s.table j = some p)
    {b : U32} (hlo : p.toNat ≤ b.toNat) (hhi : b.toNat < p.toNat + 64) : imageAt s b = some p := by
  cases h : imageAt s b with
  | none =>
    have hnone := List.findSome?_eq_none_iff.mp h j (List.mem_range.mpr (hw.bound j p hj))
    rw [hj, Option.filter_some, decide_eq_true ⟨hlo, hhi⟩, if_pos rfl] at hnone
    cases hnone
  | some q =>
    obtain ⟨k, -, hk⟩ := List.exists_of_findSome?_eq_some h
    obtain ⟨hq, hin⟩ := Option.filter_eq_some_iff.mp hk
    rw [decide_eq_true_eq] at hin
    -- the structures do not overlap
    by_cases hne : q = p
    · rw [hne]
    · obtain ⟨-, -, -, happart⟩ := hA.blocks hj
      have hqp := happart k q hq hne
      omega

theorem Holds.imagesMem (hw : TableWf s) (hA : Areas s L) : Holds (imagesMem s) s := by
  intro j p hj
  refine ⟨(s.img p).err, (Cells.wordsAt p.toNat _).congr fun b hb hb' => ?_⟩
  simp only [imageWords, List.length_cons, List.length_nil] at hb'
  rw [Pinion.imagesMem, imageAt_eq hw hA hj hb (by omega)]
  rfl

/-- The machine can be in the kernel with `t` to resume. -/
theorem exists_served (hw : TableWf s) (hA : Areas s L) (ht : s.active = some t) :
    ∃ m, Served s m := by
  obtain ⟨mem, hholds⟩ : ∃ mem, Holds mem s := ⟨_, .imagesMem hw hA⟩
  refine ⟨⟨fun _ => t, fun _ => 0x10, 0, 0, mem⟩, hholds, ?_, fun u hu => ?_⟩
  · show Selector.rpl 0x10 = 0
    decide
  · exact Option.some.inj (ht.symm.trans hu)

end Memory

/-- The kernel boots, and the first thread runs. -/
theorem exists_machineRun : ∃ s m t, MachineRun StepBlockOk 0xF0100000 0 s m ∧
    bootstrap flatMem 0 0 0 = .ok s ∧ s.active = some t ∧ cpuRegs m = (s.img t).regs ∧
    ∀ j q, s.table j = some q → q = t := by
  have hboot : (bootstrap flatMem 0 0 0).toOption.any (fun s =>
      s.active.all fun t => !(s.img t).eflags.getLsbD 17) = true := by decide +kernel
  obtain ⟨s, hs, hf⟩ := (Option.any_eq_true _ _).mp hboot
  have hs' := toOption_eq_some.mp hs
  have hi : Init s := ⟨flatMem, 0, 0, 0, .empty rfl fun _ => rfl, hs'⟩
  obtain ⟨t, -, -, -, ht, ⟨j, hj⟩, honly, -, -⟩ := hi.first
  have hflat : s.Flat := by
    intro u hu
    rw [hu] at hf
    simpa using hf
  have hreach : KernelReach StepBlockOk s := .start hi
  obtain ⟨hw, ⟨L, hA⟩, -⟩ := hreach.grounds
  obtain ⟨m₀, hserved⟩ := exists_served hw hA ht
  obtain ⟨m, hrun, hregs, -⟩ := hserved.resume hA hi.loadable hflat ht ⟨j, hj⟩
  refine ⟨s, m, t, .boot hi hserved ⟨hflat, ?_⟩, hs', ht, hregs, honly⟩
  rw [if_neg (by rw [ht]; exact Option.some_ne_none t)]
  exact hrun

theorem kernelStack_low : KernelStack 0xF0100000 :=
  ⟨by decide, by decide, Or.inl (by decide)⟩

/-- The first interrupt of the timer, from the first thread. -/
theorem machine_refines_tick : ∃ s m i m₁, MachineRun StepBlockOk 0xF0100000 0 s m ∧
    i.From s m none ∧ enter 0xF0100000 0 s.intStack i.num none m = some m₁ ∧
    m₁.mem (0xF0100000 + 0x1FEC) = s.image ∧ Holds m₁.mem (trap s i) := by
  obtain ⟨s, m, t, hrun, -⟩ := exists_machineRun
  have hfrom : (Input.irq 0 (cpuRegs m) noEnv).From s m none :=
    ⟨trivial, fun _ => rfl, show Agrees 32 none by decide⟩
  obtain ⟨m₁, henter, harg, hholds⟩ := (machine_refines hrun kernelStack_low hfrom).1
  exact ⟨s, m, _, m₁, hrun, hfrom, henter, harg, hholds⟩

end Pinion
