/-
Contexts in use.

`pctx_load` refuses a number that is no context, but `SETSTATE` stores the number whatever
`pctx_load` says, and `FREEPCTX` frees a context that is loaded or that threads name.  Where
neither happens the contexts in use are live.

* `ContextsAlive` — the active context is live, CR3 does not hold a frame on the free list, and
  the threads name live contexts;
* `PagedReach` — the runs of the kernel from a memory that `init` has paged;
* `AliveOk` — the entries that give threads only contexts that are live, and free only contexts
  that nobody uses;
* `AliveInv` — the invariant, with the directories that are shared;
* `contexts_alive`, `contexts_alive_fails` — along every run of such entries, and a run of another
  one.
-/
import Pinion.SystemLayer

open Runs

namespace Pinion

/-! ### What is in use -/

/-- The structures on the free list of frames. -/
inductive FreeNode (m : Mem) : Ptr → Prop
  | head {p : Ptr} : m.frameList = some p → FreeNode m p
  | next {p q : Ptr} : FreeNode m p → (m.frameStruct p).next = some q → FreeNode m q

/-- The frame is on the free list. -/
def Mem.Returned (m : Mem) (g : BitVec 20) : Prop :=
  ∃ p, FreeNode m p ∧ frameNo (m.addrOf p * PAGESZ) = g

structure ContextsAlive (s : Kernel) : Prop where
  active : s.mm.activePctx = 0 ∨ s.mm.LiveCtx s.mm.activePctx
  loaded : ¬s.mm.Returned (frameNo s.mm.cr3)
  threads : ∀ j t, s.table j = some t → (s.img t).pctx ≠ 0 →
    s.mm.LiveCtx (s.img t).pctx.toInt

/-- The states `init` hands to the first thread, with the directory of `boot.s` in frame `K`. -/
def PagedInit (K : BitVec 20) (s : Kernel) : Prop :=
  ∃ A m entry stack eflags, PagedBoot K A m ∧ BootMem m ∧ bootstrap m entry stack eflags = .ok s

/-- The states reached from there by entries that meet `ok`. -/
def PagedReach (K : BitVec 20) (ok : Kernel → Input → Prop) : Kernel → Prop :=
  Reachable Kernel.next (fun s i => i.Enabled s.toSched ∧ ok s i) (PagedInit K)

/-- Every entry but the calls on pages and frames. -/
def NoPageCall (s : Kernel) : Input → Prop
  | .call r _ => (s.img s.image).flags &&& TF_USER = 0 →
    Call.ofEax r.eax ∉ [Call.setframe, .setflags, .newframe, .freeframe]
  | _ => True

/-- A context is active, or named by a thread. -/
def Kernel.InUse (s : Kernel) (p : ℤ) : Prop :=
  p = s.mm.activePctx ∨ ∃ j t, s.table j = some t ∧ (s.img t).pctx.toInt = p

/-- `SETSTATE` stores a context that is live, or none, and `FREEPCTX` frees a context that
is not in use. -/
def AliveOk (s : Kernel) : Input → Prop
  | .call r env => (s.img s.image).flags &&& TF_USER = 0 →
    (∀ x ∈ Input.stores s (.call r env), x.2.pctx = 0 ∨ s.mm.LiveCtx x.2.pctx.toInt) ∧
    (Call.ofEax r.eax = .freepctx → s.mm.LiveCtx r.ebx.toInt → ¬s.InUse r.ebx.toInt)
  | _ => True

theorem PagedReach.kernelReach {K : BitVec 20} {ok : Kernel → Input → Prop} {s : Kernel}
    (h : PagedReach K ok s) : KernelReach ok s := by
  induction h with
  | start hi =>
    obtain ⟨A, m, entry, stack, eflags, -, hm, hs⟩ := hi
    exact .start ⟨m, entry, stack, eflags, hm, hs⟩
  | next _ hok hs ih => exact ih.next hok hs

/-! ### The context calls -/

section Calls

variable {m m' : Mem} {K : BitVec 20} {ρ : BitVec 20 → Role}

/-- `pctx_new` leaves the entries of live contexts alone. -/
theorem pctxNew_live {r p : ℤ} (h : pctxNew m = .ok (r, m')) (hp : m.LiveCtx p) :
    m'.pctxTable p.toNat = m.pctxTable p.toNat := by
  have hpos := hp.1
  refine (pctxNew_ctx h).2.2 p.toNat (by omega) fun hfresh => ?_
  have hzero := List.find?_some hfresh
  exact hp.2.2 (of_decide_eq_true hzero).2

/-- **The number `pctx_new` returns** is no context, and not that of the boot context. -/
theorem pctxNew_fresh (h : Dirs m K ρ) (hw : Pres (m.phys K 1020)) {r : ℤ}
    (hnew : pctxNew m = .ok (r, m')) : r ≠ 0 ∧ ¬m.LiveCtx r := by
  obtain ⟨m₁, hfirst, hrest⟩ := pctxNew_cases hnew
  rcases hrest with ⟨rfl, -⟩ | ⟨i, f, m₂, rfl, -, hi, -⟩
  · exact ⟨by decide, fun hl => absurd hl.1 (by decide)⟩
  · have hi₀ : i ≠ 0 := by
      rintro rfl
      rcases hfirst with ⟨hz, rfl⟩ | ⟨-, g, m₃, hclone, rfl⟩
      · exact hz hi
      · -- the directory of the boot context is a frame
        rw [withCtx_self] at hi
        obtain ⟨m₄, hframe⟩ := spaceClone_new hclone
        obtain ⟨-, -, -, hg⟩ := h.supply.new hframe
        exact hg hi
    refine ⟨by exact_mod_cast hi₀, fun hl => hl.2.2 ?_⟩
    rw [Int.toNat_natCast]
    rcases hfirst with ⟨-, rfl⟩ | ⟨-, g, m₃, hclone, rfl⟩
    · exact hi
    · rw [withCtx_of_ne _ g hi₀, (spaceClone_steps hclone).vars.table] at hi
      exact hi

/-- The directory of a context is on no free list. -/
theorem Dirs.not_returned (h : Dirs m K ρ) : ¬m.Returned m.dir := by
  rintro ⟨p, hp, hg⟩
  obtain ⟨c, hc, hd⟩ := h.cur
  obtain ⟨F, hinv, hfree, -⟩ := h.supply
  have hmem : ∀ q, FreeNode m q → q ∈ F.free := by
    intro q hq
    induction hq with
    | head hhead =>
      rw [hinv.path.head] at hhead
      exact List.mem_of_mem_head? hhead
    | next _ hnext ih => exact hinv.path.next_mem ih hnext
  have hrole : ρ m.dir = .avail := hg ▸ hfree p (hmem p hp)
  rw [hd, h.dir c hc] at hrole
  cases hrole

end Calls

/-! ### The invariant -/

structure AliveInv (K : BitVec 20) (s : Kernel) : Prop where
  shares : ∃ ρ, Shares s.mm K ρ ∅
  active : s.mm.activePctx = 0 ∧ s.mm.dir = K ∨
    s.mm.LiveCtx s.mm.activePctx ∧ s.mm.cr3 = s.mm.pctxTable s.mm.activePctx.toNat
  threads : ∀ j t, s.table j = some t → (s.img t).pctx = 0 ∨ s.mm.LiveCtx (s.img t).pctx.toInt

section Invariant

variable {K : BitVec 20} {s s' : Kernel}

theorem AliveInv.alive (h : AliveInv K s) : ContextsAlive s := by
  obtain ⟨ρ, hs⟩ := h.shares
  exact ⟨h.active.imp And.left And.left, hs.dirs.not_returned,
    fun j t ht hp => (h.threads j t ht).resolve_left hp⟩

/-- A step that loads no context: those in use stay, and threads name what they named. -/
theorem AliveInv.carry (h : AliveInv K s) (hs : ∃ ρ, Shares s'.mm K ρ ∅)
    (hcr3 : s'.mm.cr3 = s.mm.cr3) (hact : s'.mm.activePctx = s.mm.activePctx)
    (hkeep : ∀ p, s.mm.LiveCtx p → s.InUse p →
      s'.mm.pctxTable p.toNat = s.mm.pctxTable p.toNat)
    (hthreads : ∀ j t, s'.table j = some t → (s'.img t).pctx = 0 ∨
      s.table j = some t ∧ (s'.img t).pctx = (s.img t).pctx) : AliveInv K s' := by
  have hlive : ∀ p, s.mm.LiveCtx p → s.InUse p → s'.mm.LiveCtx p := by
    intro p hp huse
    exact ⟨hp.1, hp.2.1, by rw [hkeep p hp huse]; exact hp.2.2⟩
  refine ⟨hs, ?_, fun j t ht => ?_⟩
  · rw [hact, Mem.dir, hcr3]
    rcases h.active with hboot | ⟨hl, hload⟩
    · exact Or.inl hboot
    · refine Or.inr ⟨hlive _ hl (Or.inl rfl), ?_⟩
      rw [hkeep _ hl (Or.inl rfl)]
      exact hload
  · rcases hthreads j t ht with hz | ⟨ht₀, hp⟩
    · exact Or.inl hz
    · rw [hp]
      exact (h.threads j t ht₀).imp_right fun hl => hlive _ hl (Or.inr ⟨j, t, ht₀, rfl⟩)

/-- A step that leaves the context table alone. -/
theorem AliveInv.same (h : AliveInv K s) (hs : ∃ ρ, Shares s'.mm K ρ ∅) (hctx : SameCtx s.mm s'.mm)
    (hthreads : ∀ j t, s'.table j = some t → (s'.img t).pctx = 0 ∨
      s.table j = some t ∧ (s'.img t).pctx = (s.img t).pctx) : AliveInv K s' :=
  h.carry hs hctx.cr3 hctx.active (fun p _ _ => by rw [hctx.table]) hthreads

/-- **`pctx_load`**, of whatever number. -/
theorem AliveInv.load (h : AliveInv K s) (p : ℤ) :
    AliveInv K { s with mm := (pctxLoad s.mm p).2 } := by
  obtain ⟨ρ, hs⟩ := h.shares
  by_cases hp : s.mm.LiveCtx p
  · have hload := hs.load p
    rw [pctxLoad_live hp] at hload ⊢
    exact ⟨⟨ρ, hload⟩, Or.inr ⟨hp, rfl⟩, h.threads⟩
  · rw [pctxLoad_dead hp]
    exact h

/-- Registers and the scheduler do not matter. -/
theorem AliveInv.quiet (h : AliveInv K s) (hmm : s'.mm = s.mm)
    (htable : ∀ j t, s'.table j = some t → s.table j = some t)
    (hpctx : ∀ t, (s'.img t).pctx = (s.img t).pctx) : AliveInv K s' := by
  refine h.same (hmm ▸ h.shares) (hmm ▸ .refl _) fun j t ht => Or.inr ⟨htable j t ht, hpctx t⟩

theorem AliveInv.setEax (h : AliveInv K s) (c : Ptr) (v : U32) : AliveInv K (s.setEax c v) :=
  h.quiet rfl (fun _ _ ht => ht) fun t => pctx_of_attrs (setEax_attrs s c t v)

/-- **`SPAWN`**: the new thread has no context. -/
theorem AliveInv.spawn {env : Env} {c : Ptr} (h : AliveInv K s) (hw : TableWf s)
    (hspawn : kcallSpawn env s c = .ok s') : AliveInv K s' := by
  obtain ⟨p, m, q, -, hp, hq, -, -, hzero, hattrs, -, htable⟩ := spawn_img hw hspawn
  obtain ⟨ρ, hs⟩ := h.shares
  obtain ⟨ρ₁, hs₁, -⟩ := hs.alloc hp
  obtain ⟨ρ₂, hs₂, -⟩ := hs₁.alloc hq
  refine h.same ⟨ρ₂, hs₂⟩ ((heapAlloc_ctx hp).trans (heapAlloc_ctx hq)) fun j t ht => ?_
  by_cases htp : t = p
  · exact Or.inl (by rw [htp]; exact congrArg (·.1) hzero)
  · exact Or.inr ⟨(htable j t ht).resolve_left htp, pctx_of_attrs (hattrs t htp)⟩

/-- **`REAP`**. -/
theorem AliveInv.reap {env : Env} {c : Ptr} {info : TInfo} (h : AliveInv K s)
    (hreap : kcallReap env s c = .ok (s', info)) : AliveInv K s' := by
  obtain ⟨t, -, ⟨-, rfl⟩ | ⟨-, rfl⟩⟩ := reap_cases hreap
  · exact h.setEax c _
  · have h₀ := h.setEax c 0
    obtain ⟨ρ, hs⟩ := h₀.shares
    have hmem : (∃ ρ, Shares (threadKill (s.setEax c 0) t).mm K ρ ∅) ∧
        SameCtx (s.setEax c 0).mm (threadKill (s.setEax c 0) t).mm := by
      unfold threadKill
      dsimp only
      split
      · exact ⟨⟨ρ, (hs.free _ _).free _ _⟩, (heapFree_ctx _ _ _).trans (heapFree_ctx _ _ _)⟩
      · exact ⟨⟨ρ, hs.free _ _⟩, heapFree_ctx _ _ _⟩
    refine h₀.same hmem.1 hmem.2 fun j u hu => Or.inr ⟨?_, ?_⟩
    · by_cases hj : j = ((s.setEax c 0).tcb t).id.toNat
      · subst hj
        simp only [threadKill, Function.update_self] at hu
        cases hu
      · simpa only [threadKill, Function.update_of_ne hj] using hu
    · by_cases hut : u = t
      · simp only [hut, threadKill, Function.update_self]
      · simp only [threadKill, Function.update_of_ne hut]

/-- **`SETSTATE`** with a context that is live, or none. -/
theorem AliveInv.setstate {env : Env} {c : Ptr} (h : AliveInv K s)
    (hok : ∀ t src, Stores env s c t src → src.pctx = 0 ∨ s.mm.LiveCtx src.pctx.toInt)
    (hset : kcallSetstate env s c = .ok s') : AliveInv K s' := by
  rcases setstate_cases hset with ⟨v, -, rfl, -⟩ | ⟨u, src, s₁, hstores, rfl, hcopy⟩
  · exact h.setEax c v
  · refine AliveInv.setEax ?_ c 0
    have hbegin : AliveInv K (setstateBegin env.info src s u) := by
      obtain ⟨hmm, htable⟩ := setstateBegin_mm env.info src s u
      obtain ⟨hothers, htarget⟩ := setstateBegin_img env.info src s u
      have hload : AliveInv K { s with mm := (setstateBegin env.info src s u).mm } := by
        rw [hmm]
        split
        · exact h.load _
        · exact h
      -- live contexts are those there were before
      have hsame : ∀ p, (setstateBegin env.info src s u).mm.LiveCtx p ↔ s.mm.LiveCtx p := by
        intro p
        rw [hmm]
        split
        · by_cases hl : s.mm.LiveCtx env.info.pctx.toInt
          · rw [pctxLoad_live hl]
            exact Iff.rfl
          · rw [pctxLoad_dead hl]
        · exact Iff.rfl
      refine ⟨hload.shares, hload.active, fun j t ht => ?_⟩
      rw [hsame]
      by_cases htu : t = u
      · have hp : ((setstateBegin env.info src s u).img u).pctx = src.pctx :=
          congrArg (·.1) htarget
        rw [htu, hp]
        exact hok u src hstores
      · rw [pctx_of_attrs (hothers t htu)]
        rw [htable] at ht
        exact h.threads j t ht
    rcases hcopy with ⟨-, hcopy⟩ | ⟨-, rfl⟩
    · have htable : s₁.table = (setstateBegin env.info src s u).table :=
        congrArg Sched.table (setstateCopy_ok hcopy).1
      obtain ⟨-, q, hq, -, -⟩ := setstateCopy_img hcopy
      have hthreads : ∀ j t, s₁.table j = some t → (s₁.img t).pctx = 0 ∨
          (setstateBegin env.info src s u).table j = some t ∧
            (s₁.img t).pctx = ((setstateBegin env.info src s u).img t).pctx := by
        intro j t ht
        exact Or.inr ⟨htable ▸ ht, (setstateCopy_attrs hcopy t).1⟩
      rcases hq with ⟨-, hm⟩ | ⟨-, hm⟩
      · exact hbegin.same (hm ▸ hbegin.shares) (hm ▸ .refl _) hthreads
      · obtain ⟨ρ, hs⟩ := hbegin.shares
        obtain ⟨ρ', hs', -⟩ := hs.alloc hm
        exact hbegin.same ⟨ρ', hs'⟩ (heapAlloc_ctx hm) hthreads
    · exact hbegin

/-- **The paging calls** but those on pages and frames. -/
theorem AliveInv.paging {call : Call} {c : Ptr} {i : Image} {m : Mem} (h : AliveInv K s)
    (hcall : call ∉ [Call.setframe, .setflags, .newframe, .freeframe])
    (hfree : call = .freepctx → s.mm.LiveCtx (s.img c).ebx.toInt → ¬s.InUse (s.img c).ebx.toInt)
    (hm : pagingCall call s.mm (s.img c) = .ok (i, m)) :
    AliveInv K ({ s with mm := m }.updImg c fun _ => i) := by
  obtain ⟨ρ, hs⟩ := h.shares
  have hpctx : ∀ t, ((({ s with mm := m } : Kernel).updImg c fun _ => i).img t).pctx =
      (s.img t).pctx := by
    intro t
    by_cases htc : t = c
    · subst htc
      simp only [Kernel.updImg, Function.update_self]
      exact congrArg (·.1) (pagingCall_attrs hm)
    · simp only [Kernel.updImg, Function.update_of_ne htc]
  have hthreads : ∀ j t, s.table j = some t →
      ((({ s with mm := m } : Kernel).updImg c fun _ => i).img t).pctx = 0 ∨
      s.table j = some t ∧
        ((({ s with mm := m } : Kernel).updImg c fun _ => i).img t).pctx = (s.img t).pctx :=
    fun j t ht => Or.inr ⟨ht, hpctx t⟩
  have hrest : m = s.mm → AliveInv K ({ s with mm := m }.updImg c fun _ => i) :=
    fun hmm => h.quiet hmm (fun _ _ ht => ht) hpctx
  cases call with
  | newpctx =>
    obtain ⟨⟨r, m₁⟩, hnew, hm⟩ := bind_eq_ok.mp hm
    cases hm
    obtain ⟨hcr3, hact, -⟩ := pctxNew_ctx hnew
    exact h.carry (hs.newCtx hnew) hcr3 hact (fun p hp _ => pctxNew_live hnew hp) hthreads
  | freepctx =>
    obtain ⟨⟨r, m₁⟩, hfr, hm⟩ := bind_eq_ok.mp hm
    cases hm
    obtain ⟨hcr3, hact, -⟩ := pctxFree_ctx hfr
    rcases pctxFree_cases hfr with rfl | ⟨q, m₂, hq, hrange, hlive, hspace, rfl⟩
    · exact hrest rfl
    · have hctx : s.mm.LiveCtx q := ⟨by omega, by omega, hlive⟩
      rw [hq] at hfree
      have hunused := hfree rfl hctx
      -- the directory that is loaded is that of another context
      have hload : s.mm.dir ≠ frameNo (s.mm.pctxTable q) := by
        intro hd
        rcases h.active with ⟨-, hK⟩ | ⟨hl, hcr3'⟩
        · have hnone : none = some q := hs.dirs.ctxDir_inj trivial hlive (hK.symm.trans hd)
          cases hnone
        · rw [Mem.dir, hcr3'] at hd
          have hsome : some s.mm.activePctx.toNat = some q :=
            hs.dirs.ctxDir_inj hl.2.2 hlive hd
          have hpos := hl.1
          refine hunused (Or.inl ?_)
          have := Option.some.inj hsome
          omega
      refine h.carry (hs.freeCtx hlive hload hspace) hcr3 hact (fun p hp huse => ?_) hthreads
      have hpos := hp.1
      have hne : p.toNat ≠ q := by
        rintro rfl
        rw [Int.toNat_of_nonneg (by omega)] at hunused
        exact hunused huse
      show (m₂.withCtx q 0).pctxTable p.toNat = _
      rw [withCtx_of_ne _ 0 hne, (spaceFree_vars hspace).table]
  | setframe | setflags | newframe | freeframe => simp at hcall
  | getframe | getflags =>
    obtain ⟨e, -, hm⟩ := bind_eq_ok.mp hm
    cases hm
    exact hrest rfl
  | _ =>
    cases hm
    exact hrest rfl

theorem AliveInv.trap (h : AliveInv K s) (i : Input) : AliveInv K (trap s i) :=
  h.quiet rfl (fun _ _ ht => ht) fun t => pctx_of_attrs ((trap_quiet s i).attrs t)

/-- **One handler keeps the contexts in use live.** -/
theorem handled_alive {i : Input} {info : TInfo} (hw : TableWf s) (h : AliveInv K s)
    (hcalls : NoPageCall s i) (hok : AliveOk s i) (hs : handled s i = .ok (s', info)) :
    AliveInv K s' := by
  rcases handled_kind hs with ⟨hq, hheap⟩ | ⟨r, env, rfl, hu, hmem⟩
  · have hspawn : i.act s ≠ .spawn := by
      intro hact
      obtain ⟨r, env, rfl, hu, hcall⟩ := Input.act_spawn hact
      exact hheap ⟨hu, Or.inl hcall⟩
    exact h.quiet hq.mm (fun j t ht => (handled_effect hw hs).1.table_sub hspawn ht)
      fun t => pctx_of_attrs (hq.attrs t)
  · have h₀ := h.trap (.call r env)
    have hebx : ((Pinion.trap s (.call r env)).img s.image).ebx = r.ebx := by
      rw [trap_img]
      rfl
    have huse : ∀ p, (Pinion.trap s (.call r env)).InUse p → s.InUse p := by
      rintro p (hact | ⟨j, t, ht, hp⟩)
      · exact Or.inl hact
      · rw [pctx_of_attrs ((trap_quiet s _).attrs t)] at hp
        exact Or.inr ⟨j, t, ht, hp⟩
    obtain ⟨hset, hfree⟩ := hok hu
    have hnot := hcalls hu
    generalize hc : Call.ofEax r.eax = call at hmem hfree hnot
    cases hmem with
    | spawn hs => exact h₀.spawn (trap_tableWf hw _) hs
    | reap hs => exact h₀.reap hs
    | setstate hs =>
      exact h₀.setstate (fun t src hst => hset (t, src) (hst.of_trap hu hc)) hs
    | paging _ hm hs =>
      rw [hs]
      refine h₀.paging hnot (fun hcall hl hin => ?_) hm
      rw [hebx] at hl hin
      exact hfree hcall hl (huse _ hin)

/-- A thread that is loaded brings its context with it, if that is live. -/
theorem schedule_alive {o : Option Ptr} (hw : TableWf s) (h : AliveInv K s)
    (hs : schedule s = .ok (o, s')) : AliveInv K s' := by
  have htable : s'.table = s.table := (schedule_picks hw hs).1.table
  have himg := schedule_img hs
  have hload : AliveInv K { s with mm := s'.mm } := by
    rcases schedule_cases hs with ⟨rfl, -⟩ | ⟨t, r, k, -, -, -, -, rfl⟩
    · exact h
    · obtain ⟨-, -, -, hmm⟩ := threadLoad_eq { s with toSched := k } t
      show AliveInv K { s with mm := (threadLoad { s with toSched := k } t).mm }
      rw [hmm]
      dsimp only
      split
      · exact h.load _
      · exact h
  exact hload.quiet rfl (fun j t ht => htable ▸ ht) fun t => by rw [himg]

end Invariant

/-! ### Runs -/

section Run

variable {K : BitVec 20} {s s' : Kernel}

theorem PagedInit.alive (h : PagedInit K s) : AliveInv K s := by
  obtain ⟨A, m, entry, stack, eflags, hboot, -, hs⟩ := h
  obtain ⟨hattrs, m₁, p, q, hp, hq, -⟩ := bootstrap_img hs
  obtain ⟨⟨ρ, hshares, -⟩, -⟩ := hboot.booted
  obtain ⟨ρ₁, hs₁, -⟩ := hshares.alloc hp
  obtain ⟨ρ₂, hs₂, -⟩ := hs₁.alloc hq
  have hctx := (heapAlloc_ctx hp).trans (heapAlloc_ctx hq)
  obtain ⟨-, hactive, hdir⟩ := hboot.ctx
  refine ⟨⟨ρ₂, hs₂⟩, Or.inl ⟨hctx.active.trans hactive, ?_⟩, fun j t _ => Or.inl ?_⟩
  · rw [Mem.dir, hctx.cr3]
    exact hdir
  · exact congrArg (·.1) (hattrs t)

theorem PagedReach.alive (h : PagedReach K (fun s i => NoPageCall s i ∧ AliveOk s i) s) :
    AliveInv K s := by
  refine Reachable.invariant (AliveInv K) (fun s hs => hs.alive) ?_ h
  rintro s i s' hr hinv ⟨-, hcalls, hok⟩ hs
  obtain ⟨⟨o, k, info⟩, hstep, hk⟩ := map_eq_ok.mp hs
  obtain rfl : k = s' := hk
  obtain ⟨s₁, h₁, h₂⟩ := step_cases hstep
  have hw := (PagedReach.kernelReach hr).tableWf
  exact schedule_alive (handled_effect hw h₁).2 (handled_alive hw hinv hcalls hok h₁) h₂

/-- **The contexts in use are live**, along every run in which `SETSTATE` and `FREEPCTX` respect
them, and `pctx_new` returns the number of none. -/
theorem contexts_alive (h : PagedReach K (fun s i => NoPageCall s i ∧ AliveOk s i) s) :
    ContextsAlive s ∧
      ∀ r m, pctxNew s.mm = .ok (r, m) → r ≠ 0 ∧ ¬s.mm.LiveCtx r := by
  have hinv := h.alive
  obtain ⟨ρ, hs⟩ := hinv.shares
  exact ⟨hinv.alive, fun r m hnew => pctxNew_fresh hs.dirs hs.window hnew⟩

end Run

/-! ### The first thread -/

theorem threadAlloc_first {m m₁ m₂ : Mem} {p : Ptr} {q : Option Ptr}
    (hp : heapAlloc m sizeofThread = .ok (some p, m₁)) (hq : heapAlloc m₁ 512 = .ok (q, m₂)) :
    ∃ s, threadAlloc (Kernel.bss m) = .ok (some p, s) ∧ s.mm = m₂ ∧ (s.tcb p).id = 0 ∧
      s.table 0 = some p ∧ s.img p = Image.zero := by
  have hslot : ((List.range THREAD_COUNT).find? fun i => ((Kernel.bss m).table i).isNone) =
      some 0 := by
    refine List.find?_range_eq_some.mpr ⟨rfl, List.mem_range.mpr (by decide), fun j hj => ?_⟩
    exact absurd hj (Nat.not_lt_zero j)
  set s₂ : Kernel := { Kernel.bss m with
    mm := m₂
    fx := (q.map fun a => Function.update (Kernel.bss m).fx a fun _ => 0).getD (Kernel.bss m).fx
    tcb := Function.update (Kernel.bss m).tcb p Tcb.zero
    img := Function.update (Kernel.bss m).img p Image.zero } with hs₂
  refine ⟨s₂.onSched fun k => { k with table := Function.update k.table 0 (some p) }.upd p
    fun t => { t with id := (0 : ℕ), state := .paused }, ?_, rfl, ?_, ?_, ?_⟩
  · unfold threadAlloc
    refine bind_eq_ok.mpr ⟨_, hp, ?_⟩
    dsimp only
    refine bind_eq_ok.mpr ⟨_, hq, ?_⟩
    dsimp only
    rw [hslot]
    cases q <;> rfl
  · simp only [Kernel.onSched, Sched.upd, Function.update_self]
    rfl
  · simp only [Kernel.onSched, Sched.upd, Function.update_self]
  · simp only [hs₂, Kernel.onSched, Function.update_self]

/-- `init` hands over to a thread in system mode when the heap has two blocks for it. -/
theorem bootstrap_total {m m₁ m₂ : Mem} {p : Ptr} {q : Option Ptr}
    (hp : heapAlloc m sizeofThread = .ok (some p, m₁)) (hq : heapAlloc m₁ 512 = .ok (q, m₂))
    (entry stack eflags : U32) : ∃ s, bootstrap m entry stack eflags = .ok s ∧ s.mm = m₂ ∧
      s.active = some p ∧ s.table 0 = some p ∧ (s.tcb p).state = .running ∧
      (s.img p).flags = 0 := by
  obtain ⟨s₁, halloc, hmm, hid, htable, himg⟩ := threadAlloc_first hp hq
  have hnew : threadNew (Kernel.bss m) = .ok (0, s₁) := by
    unfold threadNew
    refine bind_eq_ok.mpr ⟨_, halloc, ?_⟩
    dsimp only
    rw [hid]
    rfl
  have hget : threadGet s₁.toSched 0 = some p := htable
  set s₂ := s₁.updImg p fun i =>
    { i with
      useresp := stack, esp := p + 36, ss := 0x21, ds := 0x21
      cs := 0x19, eflags := eflags ||| 0x1200, eip := entry } with hs₂
  have hrun : bootstrap m entry stack eflags = .ok ((threadLoad s₂ p).setState p .running) := by
    unfold bootstrap
    refine bind_eq_ok.mpr ⟨_, hnew, ?_⟩
    dsimp only
    rw [hget]
    rfl
  have hfields : (s₂.img p).pctx = 0 ∧ (s₂.img p).flags = 0 := by
    simp only [hs₂, Kernel.updImg, Function.update_self, himg]
    exact ⟨rfl, rfl⟩
  obtain ⟨hload, -, -, hmem⟩ := threadLoad_eq s₂ p
  have hsched := (threadLoad_toSched s₂ p).1
  refine ⟨_, hrun, ?_, ?_, ?_, ?_, ?_⟩
  · show (threadLoad s₂ p).mm = m₂
    rw [hmem, if_neg fun hne => hne.1 (by rw [hfields.1]; rfl)]
    exact hmm
  · show ((threadLoad s₂ p).toSched.setState p .running).active = some p
    rw [hsched]
    rfl
  · show ((threadLoad s₂ p).toSched.setState p .running).table 0 = some p
    rw [hsched]
    exact htable
  · show (((threadLoad s₂ p).toSched.setState p .running).tcb p).state = .running
    simp only [Sched.setState, Sched.upd, Function.update_self]
  · show ((threadLoad s₂ p).img p).flags = 0
    rw [hload]
    exact hfields.2

/-- `SETSTATE` of the caller. -/
theorem setstate_self {env : Env} {s : Kernel} {c : Ptr} {src : TInfo}
    (hself : (s.img c).ebx = -1) (hrun : (s.tcb c).state = .running)
    (hflags : env.info.flags &&& TF_DEAD = 0) (hsrc : env.stored s c = .ok src) :
    kcallSetstate env s c = .ok ((setstateBegin env.info src s c).setEax c 0) ∧
      (setstateBegin env.info src s c).active = s.active := by
  have hbegin := setstateBegin_toSched src s c hflags
  have hnamed : s.toSched.named c (s.img c).ebx = some c := if_pos hself
  have hset : Stores env s c c src := ⟨hnamed, Or.inr (Or.inr hrun), hsrc⟩
  refine ⟨?_, congrArg Sched.active hbegin⟩
  rw [hset.kcallSetstate_eq, if_neg]
  rw [hbegin]
  exact not_not.mpr hrun

/-- `SETSTATE` of the caller, which gives it the context `pctx`. -/
def enterPctx (pctx : U32) : Input :=
  .call ⟨0, 0, 0, 0, -1, 0, 0, 0x08, 0, 0, 0⟩ (sharedEnv { noEnv.info with pctx := pctx })

theorem next_enterPctx {s : Kernel} {c : Ptr} (hc : s.active = some c)
    (hu : (s.img s.image).flags &&& TF_USER = 0) (hrun : (s.tcb c).state = .running) (pctx : U32) :
    ∃ s', s.next (enterPctx pctx) = .ok s' ∧ s'.active = some c ∧ s'.table = s.table ∧
      (s'.img c).pctx = pctx ∧ s'.mm = (if (s.img c).pctx ≠ pctx then
        (pctxLoad s.mm pctx.toInt).2 else s.mm) := by
  have himage : s.image = c := by
    rw [Sched.image, hc]
    rfl
  set s₀ := trap s (enterPctx pctx) with hs₀
  have himg : s₀.img c = pushFrame c 0x81 (enterPctx pctx).regs (s.img c) := by
    have h := trap_img s (enterPctx pctx)
    rw [himage] at h
    exact h
  have hsched : s₀.toSched = s.toSched := rfl
  have hpctx : (s₀.img c).pctx = (s.img c).pctx := by
    rw [himg]
    rfl
  set src : TInfo := { noEnv.info with pctx := pctx } with hsrc
  have hself : (s₀.img c).ebx = -1 := by
    rw [himg]
    rfl
  obtain ⟨hset, hactive⟩ := setstate_self hself (by rw [hsched]; exact hrun)
    (show (0 : U8) &&& TF_DEAD = 0 by decide) (sharedEnv_stored src s₀ c)
  have hcall : kcall (sharedEnv src) s₀ c =
      .ok ((setstateBegin src src s₀ c).setEax c 0, src) := by
    have hu₀ : (s₀.img c).flags &&& TF_USER = 0 := by
      rw [himg]
      exact himage ▸ hu
    have heax : Call.ofEax (s₀.img c).eax = .setstate := by
      rw [himg]
      rfl
    rw [kcall, if_neg (not_not.mpr hu₀), kernelCall, heax]
    dsimp only
    rw [hset]
    rfl
  have hhandled : handled s (enterPctx pctx) =
      .ok ((setstateBegin src src s₀ c).setEax c 0, src) := by
    rw [enterPctx, handled_call, himage]
    exact hcall
  obtain ⟨hmm, htable⟩ := setstateBegin_mm src src s₀ c
  obtain ⟨-, htarget⟩ := setstateBegin_img src src s₀ c
  refine ⟨_, next_of_handled hhandled (hactive.trans hc), hactive.trans hc, htable, ?_, ?_⟩
  · rw [pctx_of_attrs (setEax_attrs _ c c 0)]
    exact congrArg (·.1) htarget
  · show (setstateBegin src src s₀ c).mm = _
    rw [hmm, hpctx]
    rfl

/-- The first thread after `init`, with frames for two directories. -/
theorem earlyMem_init : ∃ s c, PagedInit 0x105 s ∧ s.active = some c ∧ s.table 0 = some c ∧
    (s.tcb c).state = .running ∧ (s.img c).flags = 0 ∧ (∀ p, s.mm.pctxTable p = 0) ∧
    Plenty 2 s.mm := by
  obtain ⟨m₀, hinit, hn₀⟩ := earlyMem_early.initPaging_total (n := 4) (plenty_pool rfl (by decide))
  have hboot : PagedBoot 0x105 ∅ m₀ := .paging earlyMem_early hinit
  obtain ⟨_, hsettling, -⟩ := earlyMem_early.paged hinit
  have hheap := hsettling.vars.heap
  have hmem : BootMem m₀ := .empty hheap.brk fun b => congrFun hheap.bucket b
  have hbrk : m₀.brk = KERNEL_HEAP := hheap.brk
  -- the blocks of the thread
  obtain ⟨⟨ρ₀, hs₀, -⟩, -⟩ := hboot.booted
  obtain ⟨c, m₁, hc, hn₁, hbrk₁⟩ : ∃ c m₁, heapAlloc m₀ sizeofThread = .ok (some c, m₁) ∧
      Plenty 3 m₁ ∧ m₁.brk ≤ m₀.brk + 4096 :=
    hs₀.alloc_total (by decide) (by rw [hbrk]; decide) hn₀
  obtain ⟨ρ₁, hs₁, -⟩ := hs₀.alloc hc
  have hroom : m₁.brk + 4096 < KERNEL_HEAP_END := by
    rw [hbrk, show KERNEL_HEAP = 4096 * 0xF1000 from heap_pages.1] at hbrk₁
    rw [show KERNEL_HEAP_END = 4096 * 0xF8000 from heap_pages.2]
    omega
  obtain ⟨q, m₂, hq, hn₂, -⟩ : ∃ q m₂, heapAlloc m₁ 512 = .ok (some q, m₂) ∧ Plenty 2 m₂ ∧
      m₂.brk ≤ m₁.brk + 4096 := hs₁.alloc_total (by decide) hroom hn₁
  obtain ⟨s, hs, rfl, hactive, htable, hrun, hflags⟩ := bootstrap_total hc hq 0 0 0
  refine ⟨s, c, ⟨∅, m₀, 0, 0, 0, hboot, hmem, hs⟩, hactive, htable, hrun, hflags, fun p => ?_, hn₂⟩
  rw [(heapAlloc_ctx hq).table, (heapAlloc_ctx hc).table]
  exact hboot.ctx.1 p

/-- The first thread makes a context and moves to it. -/
theorem contexts_alive_entered : ∃ s c,
    PagedReach 0x105 (fun s i => NoPageCall s i ∧ AliveOk s i) s ∧ s.table 0 = some c ∧
    (s.img c).pctx = 1 ∧ s.mm.activePctx = 1 ∧ ContextsAlive s := by
  obtain ⟨s₀, c, hinit, hc, htable, hrun, hflags, hnone, hn⟩ := earlyMem_init
  have hreach₀ : PagedReach 0x105 (fun s i => NoPageCall s i ∧ AliveOk s i) s₀ := .start hinit
  obtain ⟨ρ, hshares⟩ := hinit.alive.shares
  obtain ⟨m₁, hnew, hlive, -⟩ := hshares.dirs.newCtx_total hshares.window hnone hn
  have himage : s₀.image = c := by
    rw [Sched.image, hc]
    rfl
  have hu : (s₀.img s₀.image).flags &&& TF_USER = 0 := by
    rw [himage, hflags]
    decide
  have hstep := next_newpctx hc hu hnew
  set s₁ := ({ trap s₀ (callOf 0x10 0) with mm := m₁ } : Kernel).setEax s₀.image
    (BitVec.ofInt 32 1) with hs₁
  have hreach₁ : PagedReach 0x105 (fun s i => NoPageCall s i ∧ AliveOk s i) s₁ := by
    refine hreach₀.next ⟨?_, fun _ => ?_, fun _ => ⟨?_, ?_⟩⟩ hstep
    · show s₀.active ≠ none
      rw [hc]
      simp
    · show Call.newpctx ∉ _
      simp
    · intro x hx
      rw [stores_of_call (show Call.ofEax 0x10 ≠ _ by decide)] at hx
      cases hx
    · intro hcall
      cases hcall
  -- it is still the one that runs, in system mode
  have hc₁ : s₁.active = some c := hc
  have himage₁ : s₁.image = c := by
    rw [Sched.image, hc₁]
    rfl
  have htrap := trap_img s₀ (callOf 0x10 0)
  have himg₁ : (s₁.img c).flags = 0 ∧ (s₁.img c).pctx = 0 := by
    have hboot : (s₀.img c).pctx = 0 := by
      obtain ⟨A, m, entry, stack, eflags, -, -, hs⟩ := hinit
      exact congrArg (·.1) ((bootstrap_img hs).1 c)
    rw [himage] at htrap
    constructor
    · simp only [hs₁, Kernel.setEax, Kernel.updImg, himage, Function.update_self, htrap]
      exact hflags
    · simp only [hs₁, Kernel.setEax, Kernel.updImg, himage, Function.update_self, htrap]
      exact hboot
  have hu₁ : (s₁.img s₁.image).flags &&& TF_USER = 0 := by
    rw [himage₁, himg₁.1]
    decide
  obtain ⟨s₂, hstep₂, -, htable₂, hpctx, hmm⟩ := next_enterPctx hc₁ hu₁ hrun 1
  have hctx : s₁.mm.LiveCtx 1 := ⟨by decide, by decide, hlive⟩
  have hreach₂ : PagedReach 0x105 (fun s i => NoPageCall s i ∧ AliveOk s i) s₂ := by
    refine hreach₁.next ⟨?_, fun _ => ?_, fun _ => ⟨fun x hx => Or.inr ?_, ?_⟩⟩ hstep₂
    · show s₁.active ≠ none
      rw [hc₁]
      simp
    · show Call.setstate ∉ _
      simp
    · rw [sharedEnv_stores hx]
      exact hctx
    · intro hcall
      cases hcall
  refine ⟨s₂, c, hreach₂, htable₂ ▸ htable, hpctx, ?_, (contexts_alive hreach₂).1⟩
  rw [hmm, if_pos (by rw [himg₁.2]; decide)]
  exact congrArg Mem.activePctx (pctxLoad_live hctx)

/-- **`SETSTATE` with a number that is no context** is stored all the same. -/
theorem contexts_alive_fails : ∃ s, PagedReach 0x105 NoPageCall s ∧ ¬ContextsAlive s := by
  obtain ⟨s₀, c, hinit, hc, htable, hrun, hflags, hnone, -⟩ := earlyMem_init
  have himage : s₀.image = c := by
    rw [Sched.image, hc]
    rfl
  have hu : (s₀.img s₀.image).flags &&& TF_USER = 0 := by
    rw [himage, hflags]
    decide
  obtain ⟨s₁, hstep, -, htable₁, hpctx, hmm⟩ := next_enterPctx hc hu hrun 5
  refine ⟨s₁, Reachable.next (.start hinit) ⟨?_, fun _ => ?_⟩ hstep, fun halive => ?_⟩
  · show s₀.active ≠ none
    rw [hc]
    simp
  · show Call.setstate ∉ _
    simp
  · -- no context is live
    have hdead : ¬s₀.mm.LiveCtx 5 := fun hl => hl.2.2 (hnone 5)
    have hload := halive.threads 0 c (htable₁ ▸ htable) (by rw [hpctx]; decide)
    have hsame : s₁.mm = s₀.mm := by
      rw [hmm]
      split
      · exact pctxLoad_dead hdead
      · rfl
    rw [hsame, hpctx] at hload
    exact hdead hload

end Pinion
