/-
Faults of threads.

`fault_page` and `fault_generic` are to panic on a fault of the kernel and to pause and
report the thread otherwise.  The test of `fault_generic` is the wrong way round, so
none of its eighteen vectors does either.

* `faultEntry` — the kernel as `int_handler` finds it on a fault;
* `FaultReported` — the thread is paused and handed to the first debugger, or queued;
* `FaultHandled` — what a fault must do;
* `faultGeneric_wrong` — `fault_generic` never does it;
* `faultPage_reported_iff` — `fault_page` does, unless the thread is queued already;
* `faults_handled_iff` — for every vector, in every run.
-/
import Pinion.Freed
import Pinion.Modes

open LinkedQueue Runs

namespace Pinion

/-- The kernel with the faulting image `i` at `image`. -/
def faultEntry (s : Kernel) (image : Ptr) (i : Image) : Kernel := s.updImg image fun _ => i

/-- The code a fault handler records. -/
def faultCode (n : ℕ) : U8 := if n = 14 then FV_PAGE else FV_ACCS

/-- Thread `c` is paused and no longer active; the first of the debuggers `w` gets its id
and is queued to run, or it is at the end of the fault queue `d`. -/
structure FaultReported (s s' : Kernel) (c : Ptr) (run w d : List Ptr) : Prop where
  paused : (s'.tcb c).state = .paused
  inactive : s'.active ≠ some c
  notified : ∀ debugger rest, w = debugger :: rest →
    (s'.img debugger).eax = BitVec.ofInt 32 (s.tcb c).id ∧ RunQ s'.toSched (run ++ [debugger]) ∧
      (s'.tcb debugger).state = .queued ∧ RdvQ s'.toSched .debug rest ∧ RdvQ s'.toSched .fault d
  queued : w = [] → RdvQ s'.toSched .fault (d ++ [c]) ∧ RdvQ s'.toSched .debug []

/-- What the handler of vector `n` must do with the image `i` of thread `c`: panic
exactly when the fault comes from ring 0, and record and report it otherwise. -/
structure FaultHandled (env : Env) (s : Kernel) (c : Ptr) (i : Image) (n : ℕ)
    (run w d : List Ptr) : Prop where
  panics : (∃ message, handle env (faultEntry s c i) c = .error (.panic message)) ↔
    i.cs &&& 3 = 0
  reported : i.cs &&& 3 ≠ 0 → ∃ s', handle env (faultEntry s c i) c = .ok (s', env.info) ∧
    FaultReported s s' c run w d ∧ (s'.img c).fault = faultCode n ∧
    (n = 14 → (s'.img c).faultAddr = env.cr2)

/-! ### The two handlers -/

section Handlers

variable {env : Env} {s : Kernel} {c : Ptr} {i : Image} {n : ℕ} {run w d : List Ptr}

theorem faultEntry_num (hn : n < 20) (hi : i.num = BitVec.ofNat 32 n) :
    ((faultEntry s c i).img c).num.toNat = n := by
  rw [faultEntry, updImg_self, hi, BitVec.toNat_ofNat]
  exact Nat.mod_eq_of_lt (by omega)

theorem handle_generic (hn : n < 20) (h8 : n ≠ 8) (h14 : n ≠ 14) (h15 : n ≠ 15)
    (hi : i.num = BitVec.ofNat 32 n) : handle env (faultEntry s c i) c =
      (·, env.info) <$> faultGeneric (faultEntry s c i) c := by
  have hnum := faultEntry_num (s := s) (c := c) hn hi
  unfold handle
  dsimp only
  rw [hnum, if_neg (by omega), dispatch]
  rw [hnum, if_neg (by omega), if_neg (by omega), if_neg h8, if_neg h14, if_pos ⟨by omega, h15⟩]

theorem handle_page (env : Env) (s : Kernel) (c : Ptr) (hi : i.num = BitVec.ofNat 32 14) :
    handle env (faultEntry s c i) c = (·, env.info) <$> faultPage env (faultEntry s c i) c := by
  have hnum := faultEntry_num (s := s) (c := c) (by decide) hi
  unfold handle
  dsimp only
  rw [hnum, if_neg (by omega), dispatch]
  rw [hnum, if_neg (by omega), if_neg (by omega), if_neg (by omega), if_pos rfl]

/-- `fault_generic` panics on the faults of threads and queues those of the kernel. -/
theorem faultGeneric_wrong (hn : n < 20) (h8 : n ≠ 8) (h14 : n ≠ 14) (h15 : n ≠ 15)
    (hi : i.num = BitVec.ofNat 32 n) : ¬FaultHandled env s c i n run w d := by
  intro h
  have hpanics := h.panics
  rw [handle_generic hn h8 h14 h15 hi] at hpanics
  have hcs : ((faultEntry s c i).img c).cs = i.cs := by rw [faultEntry, updImg_self]
  unfold faultGeneric at hpanics
  rw [hcs] at hpanics
  by_cases hring : i.cs &&& 3 = 0
  · obtain ⟨message, herr⟩ := hpanics.mpr hring
    rw [if_neg (not_not.mpr hring)] at herr
    cases herr
  · refine hring (hpanics.mp ⟨"unknown exception", ?_⟩)
    rw [if_pos hring]
    rfl

/-- The scheduler after `fault_page` returned, and what it recorded. -/
theorem faultPage_ok {s₀ s' : Kernel} (hw : TableWf s₀) (h : faultPage env s₀ c = .ok s') :
    s'.toSched = (s₀.toSched.release.setState c .paused).report .fault c ∧
      (s'.img c).fault = FV_PAGE ∧ (s'.img c).faultAddr = env.cr2 ∧
      ∀ debugger, (s₀.ends .debug).tail = some debugger →
        (s'.img debugger).eax = BitVec.ofInt 32 (s₀.tcb c).id := by
  have heff := (faultPage_effect hw h).1
  have hsched : s'.toSched = (s₀.toSched.release.setState c .paused).report .fault c := by
    generalize s'.toSched = k at heff
    cases heff with
    | fault => rfl
  unfold faultPage at h
  split at h
  · cases h
  · cases h
    set s₁ := ((threadSave s₀ c).updImg c fun i =>
      { i with faultAddr := env.cr2, fault := FV_PAGE }).setState c .paused with hs₁
    have hrecord : (s₁.img c).fault = FV_PAGE ∧ (s₁.img c).faultAddr = env.cr2 := by
      have himg : s₁.img = ((threadSave s₀ c).updImg c fun i =>
        { i with faultAddr := env.cr2, fault := FV_PAGE }).img := rfl
      rw [himg, updImg_self]
      exact ⟨rfl, rfl⟩
    -- the report writes a register of the debugger
    have hpush : ((faultPush s₁ c).img c).fault = (s₁.img c).fault ∧
        ((faultPush s₁ c).img c).faultAddr = (s₁.img c).faultAddr := by
      rw [faultPush, rdvPush]
      split
      · rename_i debugger _
        show ((s₁.setEax debugger _).img c).fault = _ ∧ ((s₁.setEax debugger _).img c).faultAddr = _
        by_cases hd : c = debugger
        · rw [← hd, Kernel.setEax, updImg_self]
          exact ⟨rfl, rfl⟩
        · rw [Kernel.setEax, updImg_ne _ _ hd]
          exact ⟨rfl, rfl⟩
      · exact ⟨rfl, rfl⟩
    refine ⟨hsched, hpush.1.trans hrecord.1, hpush.2.trans hrecord.2, fun debugger htail => ?_⟩
    have hends : (s₁.ends .debug).tail = some debugger := by
      rw [hs₁, Kernel.setState, Kernel.onSched, Kernel.updImg, threadSave_toSched]
      exact htail
    have hid : (s₁.tcb c).id = (s₀.tcb c).id := by
      rw [hs₁, Kernel.setState, Kernel.onSched, Kernel.updImg, threadSave_toSched]
      simp [Sched.setState, Sched.upd]
    have himg : (faultPush s₁ c).img =
        (s₁.setEax debugger (BitVec.ofInt 32 (s₁.tcb c).id)).img := by
      rw [faultPush, rdvPush, hends]
      rfl
    rw [himg, Kernel.setEax, updImg_self, hid]

/-- With no thread waiting, a report is queued. -/
theorem report_idle {k : Sched} {v : Side} {t : Ptr} (h : RdvQ k v.waiters []) :
    k.report v t = rdvInsert v.items k t := by
  unfold Sched.report
  rw [show (k.ends v.waiters).tail = none from h.first_eq]

/-- The first waiting thread takes a report. -/
theorem report_taken {k : Sched} {v : Side} {t w : Ptr} {ws : List Ptr}
    (h : RdvQ k v.waiters (w :: ws)) :
    k.report v t = makeReady (rdvAdvance v.waiters k (v.waiters.link (k.tcb w))) w := by
  unfold Sched.report
  rw [show (k.ends v.waiters).tail = some w from h.first_eq]

/-- A thread that runs is paused, and its queues are those before. -/
theorem paused_queues {k k' : Sched} {q : Lists} {b : Side → List Ptr} (hsound : Sound k q)
    (hitems : Items k b) (hk : k' = k.release.setState c .paused) :
    (k'.tcb c).state = .paused ∧ k'.active = none ∧ SameRdv k k' ∧
      RdvQ k' .debug (q.waiters .fault) ∧ RdvQ k' .fault (b .fault) := by
  subst hk
  have hrdv : SameRdv k (k.release.setState c .paused) :=
    (release_rdv _).trans (setState_rdv _ c _)
  refine ⟨by rw [setState_state, if_pos rfl], rfl, hrdv, ?_, ?_⟩
  · exact RdvQ.congr (hsound.links.waiters .fault).toLoose (fun p _ => hrdv.link .debug p)
      (congrFun hrdv.ends .debug)
  · exact RdvQ.congr (hitems.rep .fault).toLoose (fun p _ => hrdv.link .fault p)
      (congrFun hrdv.ends .fault)

/-- `fault_page` reports a thread that runs, unless the fault queue holds it already. -/
theorem faultPage_reported_iff {q : Lists} {b : Side → List Ptr} (hw : TableWf s)
    (hsound : Sound s.toSched q) (hitems : Items s.toSched b) (hact : s.active = some c)
    {s' : Kernel} (h : faultPage env (faultEntry s c i) c = .ok s') :
    FaultReported s s' c q.run (q.waiters .fault) (b .fault) ↔
      (q.waiters .fault = [] → c ∉ b .fault) := by
  have hwe : TableWf (faultEntry s c i) := hw.keep ⟨fun _ => rfl, rfl⟩ (Keeps.refl _)
  obtain ⟨hsched, -, -, heax⟩ := faultPage_ok hwe h
  have hrun := (hsound.placed c).active hact
  obtain ⟨k, hk⟩ : ∃ k, k = s.toSched.release.setState c .paused := ⟨_, rfl⟩
  obtain ⟨hpaused, hnone, hrdv, hdebug, hfault⟩ := paused_queues hsound hitems hk
  have hsched' : s'.toSched = k.report .fault c := by
    rw [hk]
    exact hsched
  constructor
  · intro hrep hnil hmem
    -- the queue would hold the thread twice
    have hnodup := (hrep.queued hnil).1.nodup
    exact (List.nodup_append.mp hnodup).2.2 c hmem c (List.mem_singleton_self c) rfl
  · intro hnot
    cases hws : q.waiters .fault with
    | nil =>
      rw [hws] at hdebug
      rw [report_idle (v := .fault) hdebug] at hsched'
      refine ⟨?_, ?_, fun _ _ hcons => (nomatch hcons), fun _ => ?_⟩
      · rw [hsched', rdvInsert_state, hpaused]
      · rw [hsched', rdvInsert_active, hnone]
        exact fun hact => (nomatch hact)
      · rw [hsched']
        exact ⟨hfault.insert (hnot hws), hdebug.insert_ne (by decide)⟩
    | cons debugger rest =>
      rw [hws] at hdebug
      have hmem : debugger ∈ q.waiters .fault := by
        rw [hws]
        exact List.mem_cons_self
      -- a debugger that waits is paused, so it is neither the thread nor on the run queue
      obtain ⟨hst, -⟩ := (hsound.placed debugger).waiters .fault hmem
      have hne : c ≠ debugger := by
        rintro rfl
        rw [hrun] at hst
        cases hst
      have hoff : debugger ∉ q.run := by
        intro hr
        rcases ((hsound.placed debugger).run hr).1 with hq | hq
        · rw [hst] at hq
          cases hq
        · rw [hst] at hq
          cases hq
      rw [report_taken (v := .fault) hdebug] at hsched'
      have hstrict : StrictQ k .debug (debugger :: rest) := by
        have hold : Rep (fun p => Rdv.debug.link (s.tcb p)) (k.ends .debug).tail
            (k.ends .debug).head (q.waiters .fault) := by
          rw [congrFun hrdv.ends .debug]
          exact hsound.links.waiters .fault
        rw [hws] at hold
        exact hold.congr fun p _ => hrdv.link .debug p
      refine ⟨?_, ?_, fun x y hcons => ?_, fun hnil => (nomatch hnil)⟩
      · rw [hsched', makeReady_state, if_neg hne]
        exact hpaused
      · rw [hsched', makeReady_active]
        intro hact
        have hact' : k.active = some c := hact
        rw [hnone] at hact'
        cases hact'
      · cases hcons
        have htail : (k.ends .debug).tail = some debugger := hdebug.first_eq
        rw [congrFun hrdv.ends .debug] at htail
        refine ⟨heax debugger htail, ?_, ?_, ?_, ?_⟩
        · rw [hsched']
          subst hk
          refine RunQ.makeReady (hsound.links.run.congr (fun p _ => ?_) rfl rfl) hoff
          simp only [rdvAdvance, Sched.setEnds, Sched.setState, Sched.upd, Sched.release]
          by_cases hp : p = c
          · subst hp
            simp
          · simp [hp]
        · rw [hsched', makeReady_state, if_pos rfl]
        · rw [hsched', RdvQ.makeReady]
          exact (hdebug.advance_iff).mpr hstrict.next_first
        · rw [hsched', RdvQ.makeReady]
          exact hfault.advance_ne (by decide)

end Handlers

/-! ### Runs -/

/-- **Which faults are handled.**  In every run that keeps the queues sound, a fault of a
registered vector other than the double fault panics exactly on ring 0 and is otherwise
recorded and reported if and only if it is a page fault, and its thread, when no debugger
waits, is not on the fault queue already. -/
theorem faults_handled_iff {s : Kernel} (h : KernelReach StepFreeOk s) :
    ∃ run w d, RunQ s.toSched run ∧ StrictQ s.toSched .debug w ∧ StrictQ s.toSched .fault d ∧
      ∀ n < 20, n ≠ 8 → n ≠ 15 → ∀ env c i, i.num = BitVec.ofNat 32 n →
        (i.cs &&& 3 ≠ 0 → s.active = some c) →
        (FaultHandled env s c i n run w d ↔
          n = 14 ∧ (i.cs &&& 3 ≠ 0 → w = [] → c ∉ d)) := by
  have hw := h.tableWf
  obtain ⟨q, hsound⟩ := KernelReach.sound (Reachable.mono (fun s i hi => ⟨hi.1, hi.2.1⟩) h)
  obtain ⟨b, hitems⟩ := h.items
  refine ⟨q.run, q.waiters .fault, b .fault, hsound.links.run, hsound.links.waiters .fault,
    hitems.rep .fault, fun n hn h8 h15 env c i hnum hact => ?_⟩
  by_cases h14 : n = 14
  · subst h14
    have hcs : ((faultEntry s c i).img c).cs = i.cs := by rw [faultEntry, updImg_self]
    have hhandle := handle_page env s c hnum
    have hpage : faultPage env (faultEntry s c i) c = if i.cs &&& 3 = 0 then
        .error (.panic "page fault exception") else faultPage env (faultEntry s c i) c := by
      split
      · rename_i hring
        rw [faultPage, hcs, if_pos hring]
      · rfl
    by_cases hring : i.cs &&& 3 = 0
    · rw [hpage, if_pos hring] at hhandle
      refine ⟨fun _ => ⟨rfl, fun hne => absurd hring hne⟩,
        fun _ => ⟨?_, fun hne => absurd hring hne⟩⟩
      exact ⟨fun _ => hring, fun _ => ⟨_, hhandle⟩⟩
    · obtain ⟨s', hs'⟩ : ∃ s', faultPage env (faultEntry s c i) c = .ok s' := by
        rw [faultPage, hcs, if_neg hring]
        exact ⟨_, rfl⟩
      have hok : handle env (faultEntry s c i) c = .ok (s', env.info) := by
        rw [hhandle, hs']
        rfl
      have hwe : TableWf (faultEntry s c i) := hw.keep ⟨fun _ => rfl, rfl⟩ (Keeps.refl _)
      obtain ⟨-, hcode, haddr, -⟩ := faultPage_ok hwe hs'
      have hiff := faultPage_reported_iff hw hsound hitems (hact hring) hs'
      constructor
      · intro hh
        obtain ⟨s₂, h₂, hrep, -⟩ := hh.reported hring
        obtain rfl : s' = s₂ := by
          rw [hok] at h₂
          cases h₂
          rfl
        exact ⟨rfl, fun _ => hiff.mp hrep⟩
      · rintro ⟨-, hfree⟩
        refine ⟨⟨?_, fun hring' => absurd hring' hring⟩, fun _ => ?_⟩
        · rintro ⟨message, herr⟩
          rw [hok] at herr
          cases herr
        · exact ⟨s', hok, hiff.mpr (hfree hring), hcode, fun _ => haddr⟩
  · exact ⟨fun hh => absurd hh (faultGeneric_wrong hn h8 h14 h15 hnum),
      fun hh => absurd hh.1 h14⟩

def faultOf (n : Fin 20) : Input := .fault n ⟨0x21, 0, 0, 0, 0, 0, 0, 0, 0, 0, 0⟩ noEnv

/-- The first thread takes a page fault: it is alone on the fault queue. -/
theorem faults_handled_page : ∃ s c i s', KernelReach StepFreeOk s ∧ s.active = some c ∧
    handle noEnv (faultEntry s c i) c = .ok (s', noEnv.info) ∧ (s'.tcb c).state = .paused ∧
    RdvQ s'.toSched .fault [c] := by
  obtain ⟨s, hs, hf⟩ := exists_bootRun StepFreeOk [] (fun s => s.active.any fun c =>
    decide ((s.ends .debug).tail = none) && decide ((s.ends .fault).tail = none))
      (by decide +kernel)
  simp only [Option.any_eq_true, Bool.and_eq_true, decide_eq_true_eq] at hf
  obtain ⟨c, hact, hdebug, hfault⟩ := hf
  obtain ⟨run, w, d, -, hw, hd, hiff⟩ := faults_handled_iff hs
  unfold StrictQ at hw hd
  rw [hdebug] at hw
  rw [hfault] at hd
  obtain rfl := hw.toLoose.eq_nil
  obtain rfl := hd.toLoose.eq_nil
  have hh := (hiff 14 (by decide) (by decide) (by decide) noEnv c
    { Image.zero with num := 14, cs := 0x19 } rfl fun _ => hact).mpr
    ⟨rfl, fun _ _ => List.not_mem_nil⟩
  have hring : ({ Image.zero with num := 14, cs := 0x19 } : Image).cs &&& 3 ≠ 0 := by decide
  obtain ⟨s', hok, hrep, -⟩ := hh.reported hring
  exact ⟨s, c, _, s', hs, hact, hok, hrep.paused, (hrep.queued rfl).1⟩

/-- The first thread, in ring 1, executes an invalid instruction: the kernel panics. -/
theorem faults_handled_fails : ∃ s c, KernelReach (fun _ _ => True) s ∧ s.active = some c ∧
    (s.img c).cs &&& 3 ≠ 0 ∧ handled s (faultOf 6) = .error (.panic "unknown exception") := by
  obtain ⟨s, hs, hf⟩ := exists_bootRun (fun _ _ => True) [] (fun s => s.active.any fun c =>
    decide ((s.img c).cs &&& 3 ≠ 0)) (by decide +kernel)
  simp only [Option.any_eq_true, decide_eq_true_eq] at hf
  obtain ⟨c, hact, hring⟩ := hf
  refine ⟨s, c, hs, hact, hring, ?_⟩
  have himage : s.image = c := by rw [Sched.image, hact, Option.getD_some]
  have himg := trap_img s (faultOf 6)
  rw [himage] at himg
  have hcs : ((trap s (faultOf 6)).img c).cs &&& 3 ≠ 0 := by
    rw [himg]
    exact hring
  rw [faultOf, handled_fault, himage, ← faultOf, if_neg (by decide), if_neg (by decide),
    if_pos (by decide), faultGeneric, if_pos hcs]
  rfl

end Pinion
