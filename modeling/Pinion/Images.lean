/-
What an entry of the kernel does to the thread images.

Between two entries of its own a thread's image is written by a wake-up (`eax`
only), by a `SETSTATE` that names it, and by `REAP`.

* `Image.attrs` — the fields that no entry writes but those two;
* `Touched c W X` — only the registers of the caller `c` and of the woken threads
  `W` differ, but for the threads `X`;
* `Input.SetsState`, `Input.stores` — whose state is set, and to what;
* `handled_touched` — what a handler leaves of the images.
-/
import Pinion.Writes

open Runs

namespace Pinion

/-- The paging context, the FPU area and the `TF_DEAD` flag. -/
def Image.attrs (i : Image) : U32 × Option Ptr × U8 := (i.pctx, i.fxdata, i.flags &&& TF_DEAD)

/-- Outside `X` the attributes are the same, and outside `X`, `W` and the caller the
whole image is. -/
structure Touched (c : Ptr) (W X : Ptr → Prop) (s s' : Kernel) : Prop where
  attrs : ∀ p, ¬X p → (s'.img p).attrs = (s.img p).attrs
  same : ∀ p, p ≠ c → ¬W p → ¬X p → s'.img p = s.img p

/-- No thread. -/
def noThread : Ptr → Prop := fun _ => False

section Touched

variable {c : Ptr} {W X : Ptr → Prop} {s s' s'' : Kernel}

theorem Touched.of_img (h : s'.img = s.img) : Touched c W X s s' :=
  ⟨fun p _ => by rw [h], fun p _ _ _ => by rw [h]⟩

theorem Touched.trans (h : Touched c W X s s') (h' : Touched c W X s' s'') :
    Touched c W X s s'' :=
  ⟨fun p hx => (h'.attrs p hx).trans (h.attrs p hx),
    fun p hc hw hx => (h'.same p hc hw hx).trans (h.same p hc hw hx)⟩

theorem Touched.mono {W' X' : Ptr → Prop} (h : Touched c W X s s') (hW : ∀ p, W p → W' p)
    (hX : ∀ p, X p → X' p) : Touched c W' X' s s' :=
  ⟨fun p hx => h.attrs p fun h => hx (hX p h),
    fun p hc hw hx => h.same p hc (fun h => hw (hW p h)) fun h => hx (hX p h)⟩

/-- Writing fields of one image. -/
theorem Touched.updImg {p : Ptr} {f : Image → Image} (h : Touched c W X s s')
    (hp : p = c ∨ W p ∨ X p) (hf : ¬X p → ∀ i, (f i).attrs = i.attrs) :
    Touched c W X s (s'.updImg p f) := by
  refine ⟨fun q hx => ?_, fun q hc hw hx => ?_⟩
  · by_cases hq : q = p
    · subst hq
      simp only [Kernel.updImg, Function.update_self]
      rw [hf hx]
      exact h.attrs q hx
    · simp only [Kernel.updImg, Function.update_of_ne hq]
      exact h.attrs q hx
  · have hq : q ≠ p := by
      rintro rfl
      rcases hp with hp | hp | hp
      · exact hc hp
      · exact hw hp
      · exact hx hp
    simp only [Kernel.updImg, Function.update_of_ne hq]
    exact h.same q hc hw hx

theorem Touched.setEax (h : Touched c W X s s') (v : U32) : Touched c W X s (s'.setEax c v) :=
  h.updImg (Or.inl rfl) fun _ _ => rfl

/-- A handler touches what its scope lets it. -/
theorem Writes.touched {σ : Scope} (h : Writes σ s s')
    (hattrs : ∀ p, ¬X p → ∀ i i', σ.image p i i' → i'.attrs = i.attrs)
    (hsame : ∀ p, p ≠ c → ¬W p → ¬X p → ∀ i i', σ.image p i i' → i' = i) : Touched c W X s s' :=
  ⟨fun p hx => h.keep (hattrs p hx), fun p hc hw hx => h.keep (π := id) (hsame p hc hw hx)⟩

end Touched

theorem Image.Counted.attrs {i i' : Image} (h : i.Counted i') : i'.attrs = i.attrs :=
  h.keep fun _ _ _ _ _ => rfl

theorem setEax_attrs (s : Kernel) (c p : Ptr) (v : U32) :
    ((s.setEax c v).img p).attrs = (s.img p).attrs :=
  ((Touched.of_img rfl : Touched c noThread noThread s s).setEax v).attrs p id

/-! ### The handlers -/

section Handlers

variable {env : Env} {s s' : Kernel} {c : Ptr}

theorem enter_attrs (i : Image) : (syscallEnter i).attrs = i.attrs := by
  have hflags : ∀ f : U8, (f &&& ~~~TF_USER) &&& TF_DEAD = f &&& TF_DEAD := by decide
  simp only [Image.attrs, syscallEnter, hflags]

theorem sysret_attrs (i : Image) : (sysret i).attrs = i.attrs := by
  have hflags : ∀ f : U8, (f ||| TF_USER) &&& TF_DEAD = f &&& TF_DEAD := by decide
  simp only [Image.attrs, sysret, hflags]

/-- What `thread_alloc` does outside the scheduler: two blocks leave the heap, the
first is cleared, and the pointer to the second is cleared with it. -/
theorem threadAlloc_img {o : Option Ptr} (h : threadAlloc s = .ok (o, s')) :
    ∃ p m q, heapAlloc s.mm sizeofThread = .ok (some p, m) ∧ heapAlloc m 512 = .ok (q, s'.mm) ∧
      s'.img = Function.update s.img p Image.zero ∧ s'.fpu = s.fpu ∧
      s'.fx = (q.map fun a => Function.update s.fx a fun _ => 0).getD s.fx ∧
      (∀ t, o = some t → t = p) ∧ ∀ j t, s'.table j = some t → t = p ∨ s.table j = some t := by
  unfold threadAlloc at h
  obtain ⟨⟨ob, m⟩, hm, h⟩ := bind_eq_ok.mp h
  cases ob with
  | none => cases h
  | some p =>
    obtain ⟨⟨q, m'⟩, hm', h⟩ := bind_eq_ok.mp h
    refine ⟨p, m, q, hm, ?_⟩
    dsimp only at h
    split at h
    · cases h
      cases q <;> exact ⟨hm', rfl, rfl, rfl, fun t ht => (by cases ht), fun j t ht => Or.inr ht⟩
    · rename_i i hi
      cases h
      have htab : ∀ j t, Function.update s.table i (some p) j = some t →
        t = p ∨ s.table j = some t := by
        intro j t ht
        by_cases hj : j = i
        · rw [hj, Function.update_self, Option.some.injEq] at ht
          exact Or.inl ht.symm
        · rw [Function.update_of_ne hj] at ht
          exact Or.inr ht
      cases q <;> exact ⟨hm', rfl, rfl, rfl, fun t ht => (by cases ht; rfl), htab⟩

/-- What `SPAWN` does outside the scheduler. -/
theorem spawn_img (hw : TableWf s) (h : kcallSpawn env s c = .ok s') :
    ∃ p m q, (∀ j, s.table j ≠ some p) ∧ heapAlloc s.mm sizeofThread = .ok (some p, m) ∧
      heapAlloc m 512 = .ok (q, s'.mm) ∧ s'.fpu = s.fpu ∧
      s'.fx = (q.map fun a => Function.update s.fx a fun _ => 0).getD s.fx ∧
      (s'.img p).attrs = Image.zero.attrs ∧
      (∀ a, a ≠ p → (s'.img a).attrs = (s.img a).attrs) ∧
      (∀ a, a ≠ p → a ≠ c → s'.img a = s.img a) ∧
      ∀ j a, s'.table j = some a → a = p ∨ s.table j = some a := by
  obtain ⟨⟨n, s₁⟩, h₁, h⟩ := bind_eq_ok.mp h
  obtain ⟨⟨o, s₂⟩, h₂, h₁⟩ := bind_eq_ok.mp h₁
  obtain ⟨p, m, q, hm, hm', himg, hfpu, hfx, ho, htab⟩ := threadAlloc_img h₂
  have hfresh : ∀ j, s.table j ≠ some p :=
    fun j hj => (heapAlloc_thread hw.heap hm).2.1 (hw.owned j p hj)
  -- the image after `eax` is set, from the image `SPAWN` has filled
  have hset : ∀ (k : Kernel) (v : U32), (∀ a, a ≠ p → k.img a = s.img a) →
      (k.img p).attrs = Image.zero.attrs → ((k.setEax c v).img p).attrs = Image.zero.attrs ∧
      (∀ a, a ≠ p → ((k.setEax c v).img a).attrs = (s.img a).attrs) ∧
      ∀ a, a ≠ p → a ≠ c → (k.setEax c v).img a = s.img a := by
    intro k v hk hp
    have htouch : Touched c noThread noThread k (k.setEax c v) := (Touched.of_img rfl).setEax v
    refine ⟨(htouch.attrs p id).trans hp, fun a ha => ?_, fun a ha hc => ?_⟩
    · rw [htouch.attrs a id, hk a ha]
    · rw [htouch.same a hc id id, hk a ha]
  have hzero : ∀ a, a ≠ p → s₂.img a = s.img a := by
    intro a ha
    rw [himg, Function.update_of_ne ha]
  obtain ⟨p', -, -, -, -, ⟨rfl, -, hs₂⟩ | ⟨i, hi, rfl, -, hs₂⟩⟩ := threadAlloc_cases hw h₂
  · cases h₁
    simp only [if_true] at h
    cases h
    obtain ⟨hzero', hattrs, hsame⟩ := hset s₁ (-1) hzero (by rw [himg, Function.update_self])
    exact ⟨p, m, q, hfresh, hm, hm', hfpu, hfx, hzero', hattrs, hsame, htab⟩
  · cases h₁
    obtain rfl := ho p' rfl
    have hid : (s₁.tcb p').id = i := by rw [hs₂]; simp
    have hget : threadGet s₁.toSched i = some p' := by
      rw [threadGet_natCast hi, hs₂]
      simp
    have hne : ¬(i : ℤ) = -1 := by omega
    simp only [hid, hne, if_false, hget] at h
    cases h
    set s₃ := ((s₁.updImg p' (spawnImage (s₁.img c) env.info p')).setState p' .queued).onSched
      (schedulePush · p') with hs₃
    have hother : ∀ a, a ≠ p' → s₃.img a = s.img a := by
      intro a ha
      simp only [hs₃, Kernel.setState, Kernel.onSched, Kernel.updImg, Function.update_of_ne ha]
      exact hzero a ha
    have hnew : (s₃.img p').attrs = Image.zero.attrs := by
      simp only [hs₃, Kernel.setState, Kernel.onSched, Kernel.updImg, Function.update_self, himg]
      rfl
    obtain ⟨hzero', hattrs, hsame⟩ := hset s₃ (BitVec.ofInt 32 i) hother hnew
    refine ⟨p', m, q, hfresh, hm, hm', hfpu, hfx, hzero', hattrs, hsame, fun j a hj => ?_⟩
    have hpush : s₃.table = s₁.table := by
      rw [hs₃, Kernel.onSched, schedulePush_eq]
      rfl
    exact htab j a (hpush ▸ hj)

theorem setstateCopy_attrs {src : TInfo} {t : Ptr} (h : setstateCopy src s t = .ok s') (p : Ptr) :
    (s'.img p).pctx = (s.img p).pctx ∧ (s'.img p).flags = (s.img p).flags := by
  obtain ⟨-, q, -, -, himg⟩ := setstateCopy_img h
  rw [himg]
  by_cases hp : p = t
  · rw [hp, Function.update_self]
    exact ⟨rfl, rfl⟩
  · rw [Function.update_of_ne hp]
    exact ⟨rfl, rfl⟩

/-- The target keeps its FPU area and gets the attributes, the others keep theirs. -/
theorem setstateBegin_img (src src' : TInfo) (s : Kernel) (t : Ptr) :
    (∀ p, p ≠ t → ((setstateBegin src src' s t).img p).attrs = (s.img p).attrs) ∧
    ((setstateBegin src src' s t).img t).attrs =
      (src'.pctx, (s.img t).fxdata, src'.flags &&& TF_DEAD) := by
  have hopen : Writes .counting s (setstateOpen src s t) :=
    setstateOpen_writes (fun _ _ _ => counting_counts _) (.inl trivial) trivial
  have hattrs : ∀ p, ((setstateOpen src s t).img p).attrs = (s.img p).attrs := fun p =>
    hopen.keep fun i i' (hi : i.Counted i') => hi.attrs
  unfold setstateBegin
  refine ⟨fun p hp => ?_, ?_⟩
  · rw [updImg_ne _ _ hp]
    exact hattrs p
  · have hfx : ((setstateOpen src s t).img t).fxdata = (s.img t).fxdata :=
      congrArg (fun a => a.2.1) (hattrs t)
    rw [updImg_self]
    simp only [Image.attrs, setstateAttrs, hfx]

theorem pagingCall_attrs {call : Call} {m m' : Mem} {i i' : Image}
    (h : pagingCall call m i = .ok (i', m')) : i'.attrs = i.attrs := (pagingCall_counted h).attrs

/-- The threads whose image an entry may rewrite: the target of a `SETSTATE`, the
thread that is reaped, and blocks that are no thread when it spawns one. -/
def rewritten (k : Sched) (c : Ptr) (ebx : U32) (call : Call) (a : Act) (p : Ptr) : Prop :=
  call = .setstate ∧ k.named c ebx = some p ∨ a = .reap p ∨ a = .spawn ∧ ∀ j, k.table j ≠ some p

/-- Another image gets a return value, or it is the caller's and the mode changes. -/
theorem CallChange.of_not_rewritten {call : Call} {f : U8} {p : Ptr} {i i' : Image}
    (hw : TableWf s) (h : CallChange s c call f p i i')
    (hp : ¬rewritten s.toSched c (s.img c).ebx call (callAct s.toSched c (s.img c).ebx f call) p) :
    (p = c ∨ s.toSched.wakes (callAct s.toSched c (s.img c).ebx f call) p) ∧ i.Counted i' ∨
      p = c ∧ i' = Pinion.sysret i := by
  cases h with
  | counted hcw hi => exact Or.inl ⟨hcw, hi⟩
  | sysret _ hpc hi => exact Or.inr ⟨hpc, hi⟩
  | set hc ht => exact absurd (Or.inl ⟨hc, ht⟩) hp
  | freed hc ht hst =>
    refine absurd (Or.inr (Or.inl ?_)) hp
    simp only [hc, callAct, ht, hst, if_true]
  | new m hc hm =>
    refine absurd (Or.inr (Or.inr ⟨?_, fun j hj => ?_⟩)) hp
    · rw [hc]
      rfl
    · exact (heapAlloc_thread hw.heap hm).2.1 (hw.owned j p hj)

theorem kcall_touched {info : TInfo} (hw : TableWf s) (hsys : (s.img c).flags &&& TF_USER = 0)
    {a : Act} (ha : a = callAct s.toSched c (s.img c).ebx env.info.flags (Call.ofEax (s.img c).eax))
    (h : kcall env s c = .ok (s', info)) :
    Touched c (s.toSched.wakes a)
      (rewritten s.toSched c (s.img c).ebx (Call.ofEax (s.img c).eax) a) s s' := by
  subst ha
  refine (kcall_writes True hsys (.inl trivial) h).touched (fun p hp i i' hi => ?_)
    fun p hc hwake hp i i' hi => ?_
  · rcases CallChange.of_not_rewritten hw hi hp with ⟨-, hi⟩ | ⟨-, rfl⟩
    · exact hi.attrs
    · exact sysret_attrs i
  · rcases CallChange.of_not_rewritten hw hi hp with ⟨hpc | hpw, -⟩ | ⟨hpc, -⟩
    · exact absurd hpc hc
    · exact absurd hpw hwake
    · exact absurd hpc hc

end Handlers

/-! ### One entry -/

/-- The call writes the whole state of `p`. -/
def Input.SetsState (s : Kernel) : Input → Ptr → Prop
  | .call r _, p => (s.img s.image).flags &&& TF_USER = 0 ∧ Call.ofEax r.eax = .setstate ∧
      s.toSched.named s.image r.ebx = some p
  | _, _ => False

/-- What an accepted `SETSTATE` stores, with its target. -/
def Input.stores (s : Kernel) : Input → Option (Ptr × TInfo)
  | .call r env =>
    if (s.img s.image).flags &&& TF_USER = 0 ∧ Call.ofEax r.eax = .setstate then
      (s.toSched.named s.image r.ebx).bind fun t =>
        if Settable (s.tcb t).state then (env.stored s t).toOption.map (t, ·) else none
    else none
  | _ => none

/-- The other calls store nothing. -/
theorem stores_of_call {s : Kernel} {r : UserRegs} {env : Env}
    (h : Call.ofEax r.eax ≠ .setstate) : Input.stores s (.call r env) = none :=
  if_neg fun hc => h hc.2

/-- The trap changes nothing that `SETSTATE` looks at. -/
theorem trap_stored (env : Env) (s : Kernel) (i : Input) (t : Ptr) :
    env.stored (trap s i) t = env.stored s t := by
  refine Env.stored_congr rfl ?_
  by_cases ht : t = s.image
  · rw [ht, trap_img]
    rfl
  · exact congrArg Image.pctx (Function.update_of_ne ht _ _)

theorem Stores.of_trap {env : Env} {s : Kernel} {r : UserRegs} {t : Ptr} {src : TInfo}
    (hu : (s.img s.image).flags &&& TF_USER = 0) (hcall : Call.ofEax r.eax = .setstate)
    (h : Stores env (trap s (.call r env)) s.image t src) :
    (t, src) ∈ Input.stores s (.call r env) := by
  have hnamed : s.toSched.named s.image r.ebx = some t := by
    have hnamed := h.named
    rw [trap_img] at hnamed
    exact hnamed
  have hstored := h.stored
  rw [trap_stored] at hstored
  have hset : Settable (s.tcb t).state := h.settable
  simp only [Input.stores, hu, hcall, hnamed, hstored, and_self, if_true, Option.bind_some, hset,
    Except.toOption, Option.map_some, Option.mem_def]

/-- The threads whose image an entry may rewrite. -/
def Input.Rewrites (s : Kernel) (i : Input) (p : Ptr) : Prop :=
  i.SetsState s p ∨ i.act s = .reap p ∨ i.act s = .spawn ∧ ∀ j, s.table j ≠ some p

theorem trap_touched (s : Kernel) (i : Input) {W X : Ptr → Prop} :
    Touched s.image W X s (trap s i) := by
  have hpic : Touched s.image W X s { s with pic := i.pic s.pic } := .of_img rfl
  exact hpic.updImg (Or.inl rfl) fun _ _ => rfl

/-- **What a handler leaves of the images.** -/
theorem handled_touched {s s' : Kernel} {i : Input} {info : TInfo} (hw : TableWf s)
    (h : handled s i = .ok (s', info)) :
    Touched s.image (s.toSched.wakes (i.act s)) (i.Rewrites s) s s' := by
  have hwt : TableWf (trap s i) := hw.keep ⟨fun _ => rfl, rfl⟩ (Keeps.refl _)
  refine (trap_touched s i).trans ?_
  by_cases hcall : ∃ r env, i = .call r env
  · obtain ⟨r, env, rfl⟩ := hcall
    rw [handled_call] at h
    have himg := trap_img s (.call r env)
    by_cases hu : (s.img s.image).flags &&& TF_USER = 0
    · have hact : Input.act s (.call r env) =
          callAct s.toSched s.image r.ebx env.info.flags (Call.ofEax r.eax) := by
        rw [Input.act, if_neg (not_not.mpr hu)]
      have hk := kcall_touched hwt (by rw [himg]; exact hu) (a := Input.act s (.call r env))
        (by rw [hact, himg]; rfl) h
      rw [himg] at hk
      exact hk.mono (fun _ hp => hp) fun p hp => hp.imp_left fun hset => ⟨hu, hset⟩
    · unfold kcall at h
      rw [if_pos (by rw [himg]; exact hu)] at h
      cases h
      exact (Touched.of_img rfl).updImg (Or.inl rfl) fun _ => enter_attrs
  · have hwrites := handled_writes True (fun r env he => hcall ⟨r, env, he⟩)
      (.inl trivial) h
    refine hwrites.touched (fun p _ j j' hj => hj.2.attrs) fun p hc hwake _ j j' hj => ?_
    exact (hj.1.elim hc hwake).elim

/-- `REAP` and `SPAWN` are the acts of their own calls only. -/
theorem callAct_frees {k : Sched} {c p : Ptr} {ebx : U32} {f : U8} {call : Call}
    (h : callAct k c ebx f call = .reap p ∨ callAct k c ebx f call = .spawn) :
    call = .reap ∨ call = .spawn := by
  cases call
  case reap => exact Or.inl rfl
  case spawn => exact Or.inr rfl
  case pause =>
    cases ht : k.named c ebx with
    | none => simp [callAct, ht] at h
    | some t => cases hst : (k.tcb t).state <;> simp [callAct, ht, pauseAct, hst] at h
  case resume =>
    cases ht : threadGet k ebx.toInt with
    | none => simp [callAct, ht] at h
    | some t => cases hst : (k.tcb t).state <;> simp [callAct, ht, resumeAct, hst] at h
  all_goals
    simp only [callAct] at h
    repeat' split at h
    all_goals simp at h

theorem callAct_spawn {k : Sched} {c : Ptr} {ebx : U32} {f : U8} {call : Call}
    (h : callAct k c ebx f call = .spawn) : call = .spawn := by
  rcases callAct_frees (p := c) (Or.inr h) with hc | hc
  · rw [hc] at h
    simp only [callAct] at h
    repeat' split at h
    all_goals cases h
  · exact hc

/-- A `SPAWN` that reaches the switch of `kcall`. -/
theorem Input.act_spawn {s : Kernel} {i : Input} (h : i.act s = .spawn) :
    ∃ r env, i = .call r env ∧ (s.img s.image).flags &&& TF_USER = 0 ∧
      Call.ofEax r.eax = .spawn := by
  cases i with
  | call r env =>
    rw [Input.act] at h
    split at h
    · cases h
    · rename_i hu
      exact ⟨r, env, rfl, not_not.mp hu, callAct_spawn h⟩
  | irq n r env =>
    rw [Input.act] at h
    split at h <;> cases h
  | fault n r env =>
    rw [Input.act] at h
    split at h <;> cases h

/-- A `REAP` that finds its target paused. -/
theorem Input.act_reap {s : Kernel} {i : Input} {t : Ptr} (h : i.act s = .reap t) :
    ∃ r env, i = .call r env ∧ (s.img s.image).flags &&& TF_USER = 0 ∧
      Call.ofEax r.eax = .reap ∧ threadGet s.toSched r.ebx.toInt = some t ∧
      (s.tcb t).state = .paused := by
  cases i with
  | call r env =>
    rw [Input.act] at h
    split at h
    · cases h
    · rename_i hu
      rcases callAct_frees (Or.inl h) with hc | hc
      · rw [hc] at h
        simp only [callAct] at h
        split at h
        · rename_i u hget
          split at h
          · rename_i hst
            cases h
            exact ⟨r, env, rfl, not_not.mp hu, hc, hget, hst⟩
          · cases h
        · cases h
      · rw [hc] at h
        cases h
  | irq n r env =>
    rw [Input.act] at h
    split at h <;> cases h
  | fault n r env =>
    rw [Input.act] at h
    split at h <;> cases h

/-- A thread that a handler enters in the table starts with cleared attributes. -/
theorem handled_new {s s' : Kernel} {i : Input} {info : TInfo} {j : ℕ} {p : Ptr} (hw : TableWf s)
    (h : handled s i = .ok (s', info)) (hp : s'.table j = some p) :
    s.table j = some p ∨ (s'.img p).attrs = Image.zero.attrs := by
  by_cases ha : i.act s = .spawn
  · obtain ⟨r, env, rfl, hu, hc⟩ := Input.act_spawn ha
    have hwt : TableWf (trap s (.call r env)) := hw.keep ⟨fun _ => rfl, rfl⟩ (Keeps.refl _)
    have himg := trap_img s (.call r env)
    rw [handled_call] at h
    unfold kcall at h
    rw [if_neg (by rw [himg]; exact not_not.mpr hu), kernelCall] at h
    rw [show Call.ofEax ((trap s (.call r env)).img s.image).eax = .spawn by
      rw [himg]; exact hc] at h
    obtain ⟨s₁, h₁, h⟩ := map_eq_ok.mp h
    cases h
    obtain ⟨t, -, -, -, -, -, -, -, hzero, -, -, htab⟩ := spawn_img hwt h₁
    rcases htab j p hp with rfl | hold
    · exact Or.inr hzero
    · exact Or.inl hold
  · exact Or.inl ((handled_effect hw h).1.table_sub ha hp)

/-! ### Loading a thread -/

/-- What `thread_load` reads of the image and writes outside the scheduler. -/
theorem threadLoad_eq (s : Kernel) (t : Ptr) :
    (threadLoad s t).img = s.img ∧ (threadLoad s t).fx = s.fx ∧
    (threadLoad s t).fpu =
      ((s.img t).fxdata.map fun a i => s.fx a (i.castLE (by decide))).getD s.fpu ∧
    (threadLoad s t).mm = if (s.img t).pctx.toInt ≠ 0 ∧ (s.img t).pctx.toInt ≠ s.mm.activePctx then
      (pctxLoad s.mm (s.img t).pctx.toInt).2 else s.mm := by
  obtain hf | ⟨p, hf⟩ := Option.eq_none_or_eq_some (s.img t).fxdata <;>
    by_cases hp : (s.img t).pctx.toInt ≠ 0 ∧ (s.img t).pctx.toInt ≠ s.mm.activePctx <;>
    simp only [threadLoad, hf, fpuLoad, hp, ne_eq, not_false_eq_true, and_self, if_true,
      if_false] <;>
    exact ⟨trivial, trivial, rfl, trivial⟩

/-- The images and the memory when `init` returns: the first thread has cleared
attributes, and two blocks have left the heap. -/
theorem bootstrap_img {m : Mem} {entry stack eflags : U32} {s : Kernel}
    (h : bootstrap m entry stack eflags = .ok s) : (∀ p, (s.img p).attrs = Image.zero.attrs) ∧
    ∃ m₁ p q, heapAlloc m sizeofThread = .ok (some p, m₁) ∧
      heapAlloc m₁ 512 = .ok (q, s.mm) ∧ ∀ j t, s.table j = some t → t = p := by
  obtain ⟨⟨id, s₁⟩, h₁, h⟩ := bind_eq_ok.mp h
  obtain ⟨⟨o, s₂⟩, h₂, h₁⟩ := bind_eq_ok.mp h₁
  obtain ⟨p, m₁, q, hp, hq, himg, -, -, -, htab⟩ := threadAlloc_img h₂
  have hs₂ : s₁ = s₂ := by cases o <;> cases h₁ <;> rfl
  have hzero : ∀ a, (s₁.img a).attrs = Image.zero.attrs := by
    intro a
    rw [hs₂, himg]
    by_cases ha : a = p
    · rw [ha, Function.update_self]
    · rw [Function.update_of_ne ha]
      rfl
  dsimp only at h
  cases ht : threadGet s₁.toSched id with
  | none =>
    rw [ht] at h
    cases h
  | some t =>
    rw [ht] at h
    cases h
    set s₃ := s₁.updImg t fun i =>
      { i with
        useresp := stack, esp := t + 36, ss := 0x21, ds := 0x21
        cs := 0x19, eflags := eflags ||| 0x1200, eip := entry } with hs₃
    have hattrs : ∀ a, (s₃.img a).attrs = Image.zero.attrs := by
      intro a
      by_cases ha : a = t
      · simp only [hs₃, Kernel.updImg, ha, Function.update_self]
        exact hzero t
      · simp only [hs₃, Kernel.updImg, Function.update_of_ne ha]
        exact hzero a
    obtain ⟨hload, -, -, hmm⟩ := threadLoad_eq s₃ t
    refine ⟨fun a => ?_, m₁, p, q, hp, ?_, fun j a hj => ?_⟩
    · simp only [Kernel.setState, Kernel.onSched, hload]
      exact hattrs a
    · have hpctx : (s₃.img t).pctx = 0 := congrArg (fun a => a.1) (hattrs t)
      have hmem : ((threadLoad s₃ t).setState t .running).mm = s₂.mm := by
        simp only [Kernel.setState, Kernel.onSched, hmm, hpctx]
        rw [← hs₂]
        rfl
      rw [hmem]
      exact hq
    · have htable : ((threadLoad s₃ t).setState t .running).table = s₂.table := by
        rw [Kernel.setState, Kernel.onSched, (threadLoad_toSched s₃ t).1, ← hs₂]
        rfl
      exact (htab j a (htable ▸ hj)).resolve_right fun hbss => by cases hbss

theorem Init.attrs {s : Kernel} (h : Init s) (p : Ptr) :
    (s.img p).attrs = Image.zero.attrs := by
  obtain ⟨m, entry, stack, eflags, -, h⟩ := h
  exact (bootstrap_img h).1 p

/-- The rest of `int_handler`: nothing, or the head of the run queue is loaded. -/
theorem schedule_cases {s s' : Kernel} {o : Option Ptr} (h : schedule s = .ok (o, s')) :
    s' = s ∧ o = s.active ∨
      ∃ t r k, s.active = none ∧ s.schedHead = some t ∧ scheduleRemv s.toSched t = .ok (r, k) ∧
        o = some t ∧ s' = (threadLoad { s with toSched := k } t).setState t .running := by
  unfold schedule at h
  cases ha : s.active with
  | some c =>
    rw [ha] at h
    cases h
    exact Or.inl ⟨rfl, rfl⟩
  | none =>
    rw [ha] at h
    dsimp only at h
    cases hn : scheduleNext s.toSched with
    | none =>
      rw [hn] at h
      cases h
      exact Or.inl ⟨rfl, rfl⟩
    | some t =>
      rw [hn] at h
      obtain ⟨⟨r, k⟩, hk, h⟩ := bind_eq_ok.mp h
      cases h
      exact Or.inr ⟨t, r, k, rfl, hn, hk, rfl, rfl⟩

theorem schedule_img {s s' : Kernel} {o : Option Ptr} (h : schedule s = .ok (o, s')) :
    s'.img = s.img := by
  rcases schedule_cases h with ⟨rfl, -⟩ | ⟨t, r, k, -, -, -, -, rfl⟩
  · rfl
  · exact (threadLoad_eq { s with toSched := k } t).1

end Pinion
