/-
The paging context of the running thread.

`thread_load` switches to the context of the thread it loads, unless its number is the
active one.  `SETSTATE` switches as well, whatever thread it is given.

* `SameCtx` — the context table, the active context and CR3 are the same;
* `CtxInv` — CR3 holds the active context if that is live, and the active thread runs
  in its own context if that is live;
* `StepCtxOk` — the entries that keep it: `SETSTATE` gives another thread no other
  context than the active one and the caller the context it read before the switch,
  `NEWPCTX` reuses neither the active slot nor the one of the caller;
* `own_context` — along every run of such entries the thread that is resumed runs in
  its own context.
-/
import Pinion.Active
import Pinion.Areas
import Pinion.Boot
import Pinion.Spaces

open Runs

namespace Pinion

/-- A context that can be loaded. -/
def Mem.LiveCtx (m : Mem) (p : ℤ) : Prop :=
  0 < p ∧ p < PCTX_COUNT ∧ m.pctxTable p.toNat ≠ 0

instance (m : Mem) (p : ℤ) : Decidable (m.LiveCtx p) := inferInstanceAs (Decidable (_ ∧ _ ∧ _))

/-! ### What leaves the contexts alone -/

structure SameCtx (m m' : Mem) : Prop where
  cr3 : m'.cr3 = m.cr3
  table : m'.pctxTable = m.pctxTable
  active : m'.activePctx = m.activePctx

theorem SameCtx.refl (m : Mem) : SameCtx m m := ⟨rfl, rfl, rfl⟩

theorem SameCtx.trans {m₁ m₂ m₃ : Mem} (h : SameCtx m₁ m₂) (h' : SameCtx m₂ m₃) :
    SameCtx m₁ m₃ :=
  ⟨h'.cr3.trans h.cr3, h'.table.trans h.table, h'.active.trans h.active⟩

theorem SameVars.ctx {m m' : Mem} (h : SameVars m m') : SameCtx m m' := ⟨h.cr3, h.table, h.active⟩

theorem SameCtx.live {m m' : Mem} (h : SameCtx m m') (p : ℤ) : m'.LiveCtx p ↔ m.LiveCtx p := by
  rw [Mem.LiveCtx, h.table, Mem.LiveCtx]

theorem heapAlloc_ctx {m m' : Mem} {size : ℕ} {o : Option Ptr}
    (h : heapAlloc m size = .ok (o, m')) : SameCtx m m' := by
  by_cases hb : heapFindBucket size < 16
  · obtain ⟨m₁, p, rest, hslab, -, -, rfl⟩ := heapAlloc_cases hb h
    have h₁ : SameCtx m m₁ := by
      rcases hslab with rfl | ⟨-, hs⟩
      · exact .refl m₁
      · obtain ⟨-, m₂, hvars, rfl⟩ := heapNewSlab_ok hb hs
        exact ⟨hvars.cr3, hvars.table, hvars.active⟩
    exact ⟨h₁.cr3, h₁.table, h₁.active⟩
  · simp only [heapAlloc, heapFindBucket_large hb, show (16 : ℕ) < 17 by omega, if_true] at h
    cases h
    exact .refl m

theorem heapFree_ctx (m : Mem) (p : Ptr) (size : ℕ) : SameCtx m (heapFree m p size) := by
  unfold heapFree
  dsimp only
  split <;> exact ⟨rfl, rfl, rfl⟩

theorem frameAdd_ctx {m m' : Mem} {f : U32} (h : frameAdd m f = .ok m') : SameCtx m m' := by
  obtain ⟨⟨o, m₁⟩, h₁, h⟩ := bind_eq_ok.mp h
  cases o with
  | none => cases h
  | some fs =>
    cases h
    have hset := (setPrev_vars (m₁.setFrame fs fun _ => ⟨m₁.frameList, none, 0, f / PAGESZ⟩)
      (m₁.setFrame fs fun _ => ⟨m₁.frameList, none, 0, f / PAGESZ⟩).frameList (some fs)).ctx
    exact (heapAlloc_ctx h₁).trans ⟨hset.cr3, hset.table, hset.active⟩

/-! ### The context calls -/

/-- The slot `pctx_new` finds: the first free one but slot 0, which it fills before. -/
def Mem.freshCtx (m : Mem) : Option ℕ :=
  (List.range PCTX_COUNT).find? fun i => i ≠ 0 ∧ m.pctxTable i = 0

theorem freshCtx_eq {m m₁ : Mem} {n : ℕ} (h : ∀ p, p ≠ 0 → m₁.pctxTable p = m.pctxTable p)
    (hn : ((List.range PCTX_COUNT).find? fun i => m₁.pctxTable i = 0) = some n) (h₀ : n ≠ 0) :
    m.freshCtx = some n := by
  rw [List.find?_range_eq_some] at hn
  obtain ⟨hzero, hmem, hbefore⟩ := hn
  rw [Mem.freshCtx, List.find?_range_eq_some]
  refine ⟨?_, hmem, fun j hj => ?_⟩
  · have hz := of_decide_eq_true hzero
    rw [h n h₀] at hz
    simp [h₀, hz]
  · by_cases hj₀ : j = 0
    · simp [hj₀]
    · have hb := hbefore j hj
      rw [h j hj₀] at hb
      simpa [hj₀] using hb

/-- `pctx_new` makes one context live. -/
theorem pctxNew_ctx {m m' : Mem} {r : ℤ} (h : pctxNew m = .ok (r, m')) :
    m'.cr3 = m.cr3 ∧ m'.activePctx = m.activePctx ∧
      ∀ p, p ≠ 0 → m.freshCtx ≠ some p → m'.pctxTable p = m.pctxTable p := by
  -- the second clone, from the memory `m₁` in which slot 0 is filled
  have hclone : ∀ (m₁ : Mem) {m₂ : Mem} {n : ℕ} {g : U32}, m₁.cr3 = m.cr3 →
    m₁.activePctx = m.activePctx →
      (∀ p, p ≠ 0 → m₁.pctxTable p = m.pctxTable p) →
      ((List.range PCTX_COUNT).find? fun i => m₁.pctxTable i = 0) = some n →
      spaceClone m₁ = .ok (g, m₂) →
      m₂.cr3 = m.cr3 ∧ m₂.activePctx = m.activePctx ∧
        ∀ p, p ≠ 0 → m.freshCtx ≠ some p → Function.update m₂.pctxTable n g p = m.pctxTable p := by
    intro m₁ m₂ n g hcr3 hact htab hn h₂
    have hvars := (spaceClone_steps h₂).vars
    refine ⟨hvars.cr3.trans hcr3, hvars.active.trans hact, fun p hp hfresh => ?_⟩
    have hne : p ≠ n := by
      rintro rfl
      exact hfresh (freshCtx_eq htab hn hp)
    rw [Function.update_of_ne hne, hvars.table, htab p hp]
  unfold pctxNew at h
  dsimp only at h
  split at h
  · obtain ⟨⟨f, m₁⟩, h₁, h⟩ := bind_eq_ok.mp h
    rw [pure_bind] at h
    have hvars := (spaceClone_steps h₁).vars
    have htab : ∀ p, p ≠ 0 → Function.update m₁.pctxTable 0 f p = m.pctxTable p := by
      intro p hp
      rw [Function.update_of_ne hp, hvars.table]
    split at h
    · rename_i n hn
      obtain ⟨⟨g, m₂⟩, h₂, h⟩ := bind_eq_ok.mp h
      cases h
      exact hclone { m₁ with pctxTable := Function.update m₁.pctxTable 0 f } hvars.cr3 hvars.active
        htab hn h₂
    · cases h
      exact ⟨hvars.cr3, hvars.active, fun p hp _ => htab p hp⟩
  · rw [pure_bind] at h
    split at h
    · rename_i n hn
      obtain ⟨⟨g, m₂⟩, h₂, h⟩ := bind_eq_ok.mp h
      cases h
      exact hclone m rfl rfl (fun _ _ => rfl) hn h₂
    · cases h
      exact ⟨rfl, rfl, fun _ _ _ => rfl⟩

theorem pctxFree_ctx {m m' : Mem} {pctx r : ℤ} (h : pctxFree m pctx = .ok (r, m')) :
    m'.cr3 = m.cr3 ∧ m'.activePctx = m.activePctx ∧
      ∀ p, m'.pctxTable p = m.pctxTable p ∨ m'.pctxTable p = 0 := by
  unfold pctxFree at h
  split at h
  · cases h
    exact ⟨rfl, rfl, fun p => Or.inl rfl⟩
  · split at h
    · cases h
      exact ⟨rfl, rfl, fun p => Or.inl rfl⟩
    · obtain ⟨m₁, h₁, h⟩ := bind_eq_ok.mp h
      cases h
      have hvars := spaceFree_vars h₁
      refine ⟨hvars.cr3, hvars.active, fun p => ?_⟩
      by_cases hp : p = pctx.toNat
      · exact Or.inr (by rw [hp]; exact Function.update_self _ _ _)
      · exact Or.inl (by rw [← hvars.table]; exact Function.update_of_ne hp _ _)

theorem pctxLoad_live {m : Mem} {p : ℤ} (h : m.LiveCtx p) :
    (pctxLoad m p).2 = { m with cr3 := m.pctxTable p.toNat, activePctx := p } := by
  unfold pctxLoad
  rw [if_neg (by have := h.1; have := h.2.1; omega), if_neg h.2.2]

theorem pctxLoad_dead {m : Mem} {p : ℤ} (h : ¬m.LiveCtx p) : (pctxLoad m p).2 = m := by
  unfold pctxLoad
  split
  · rfl
  · split
    · rfl
    · rename_i hrange hzero
      exact absurd ⟨by omega, by omega, hzero⟩ h

/-- The paging calls but `NEWPCTX` and `FREEPCTX` leave the contexts alone. -/
theorem pagingCall_ctx {c : Call} {m m' : Mem} {i i' : Image}
    (h : pagingCall c m i = .ok (i', m')) (hnew : c ≠ .newpctx) (hfree : c ≠ .freepctx) :
    SameCtx m m' := by
  cases c
  case newpctx => exact absurd rfl hnew
  case freepctx => exact absurd rfl hfree
  case setframe | setflags =>
    obtain ⟨e, -, h⟩ := bind_eq_ok.mp h
    obtain ⟨m₁, h₁, h⟩ := bind_eq_ok.mp h
    cases h
    exact (pageSet_steps h₁).vars.ctx
  case getframe | getflags =>
    obtain ⟨e, -, h⟩ := bind_eq_ok.mp h
    cases h
    exact .refl m
  case newframe =>
    obtain ⟨⟨r, m₁⟩, h₁, h⟩ := bind_eq_ok.mp h
    cases h
    exact (frameNew_vars h₁).ctx
  case freeframe =>
    obtain ⟨m₁, h₁, h⟩ := bind_eq_ok.mp h
    cases h
    exact (frameFree_vars h₁).ctx
  all_goals
    cases h
    exact .refl m

/-! ### The invariant -/

/-- CR3 holds the active context if that is live, and the active thread runs in its own
context if that is live. -/
structure CtxInv (s : Kernel) : Prop where
  cr3 : s.mm.LiveCtx s.mm.activePctx → s.mm.cr3 = s.mm.pctxTable s.mm.activePctx.toNat
  own : ∀ t, s.active = some t → s.mm.LiveCtx (s.img t).pctx.toInt →
    s.mm.activePctx = (s.img t).pctx.toInt

/-- The entries that keep it: `SETSTATE` loads another context for its caller only, which
then finds the same number in the `t_info` there, and no context is made that is in use. -/
def StepCtxOk (s : Kernel) : Input → Prop
  | .call r env =>
    (s.img s.image).flags &&& TF_USER = 0 →
      (Call.ofEax r.eax = .setstate → ∀ t, s.toSched.named s.image r.ebx = some t → t ≠ s.image →
        (s.img t).pctx ≠ env.info.pctx → s.mm.LiveCtx env.info.pctx.toInt →
        env.info.pctx.toInt = s.mm.activePctx) ∧
      (∀ x ∈ (Input.call r env).stores s, x.1 = s.image → x.2.pctx = env.info.pctx) ∧
      (Call.ofEax r.eax = .newpctx → ∀ p : ℕ, s.mm.freshCtx = some p →
        (p : ℤ) ≠ s.mm.activePctx ∧ (p : ℤ) ≠ (s.img s.image).pctx.toInt)
  | _ => True

/-- A step that leaves the contexts alone, the active thread included. -/
theorem CtxInv.same {s s' : Kernel} (h : CtxInv s) (hm : SameCtx s.mm s'.mm)
    (hact : ∀ t, s'.active = some t → s.active = some t)
    (hp : ∀ t, s.active = some t → (s'.img t).pctx = (s.img t).pctx ∨ (s'.img t).pctx = 0) :
    CtxInv s' := by
  refine ⟨fun hl => ?_, fun t ht hl => ?_⟩
  · rw [hm.live, hm.active] at hl
    rw [hm.cr3, hm.table, hm.active]
    exact h.cr3 hl
  · rcases hp t (hact t ht) with hp | hp
    · rw [hm.live, hp] at hl
      rw [hm.active, hp]
      exact h.own t (hact t ht) hl
    · rw [hp] at hl
      exact absurd hl.1 (by decide)

/-- No action makes another thread active. -/
theorem Effect.active_sub {c t : Ptr} {k k' : Sched} {a : Act} (h : Effect c k a k')
    (ht : k'.active = some t) : k.active = some t := by
  have hreport : ∀ (k₁ : Sched) (v : Side) (u : Ptr), (k₁.report v u).active = k₁.active := by
    intro k₁ v u
    unfold Sched.report
    split
    · rw [makeReady_active]
      rfl
    · exact rdvInsert_active _ _ _
  have hsend : ∀ (k₁ : Sched) (e : ℕ), (k₁.send e).active = some t → k₁.active = some t := by
    intro k₁ e he
    have he' : (k₁.wake e).active = some t := he
    unfold Sched.wake at he'
    split at he'
    · exact he'
    · rw [makeReady_active] at he'
      dsimp only at he'
      split at he'
      · cases he'
      · exact he'
  have hwait : ∀ (u : Ptr) (e : ℕ), (k.waitOn u e).active ≠ some t := by
    intro u e
    unfold Sched.waitOn
    split
    · rw [makeReady_active]
      simp [Sched.release]
    · simp [Sched.release, Sched.setState, Sched.upd]
  cases h with
  | other => exact ht
  | spawn =>
    rw [spawned_eq] at ht
    exact ht
  | spawnFull => exact ht
  | reap => exact ht
  | yield =>
    rw [makeReady_active] at ht
    cases ht
  | pauseRunning => cases ht
  | pauseQueued live state remv =>
    obtain ⟨n, hd, tl, rfl⟩ := scheduleRemv_withRun remv
    exact ht
  | pauseWaiting state remv =>
    obtain ⟨n, q, rfl⟩ := eventRemv_eq remv
    exact ht
  | resume =>
    rw [makeReady_active] at ht
    exact ht
  | rewait => exact absurd ht (hwait _ _)
  | rewaitBad => exact ht
  | kill =>
    unfold Sched.kill at ht
    rw [hreport] at ht
    split at ht
    · cases ht
    · exact ht
  | request =>
    unfold Sched.request at ht
    split at ht
    · exact ht
    · rw [rdvInsert_active] at ht
      cases ht
  | wait => exact absurd ht (hwait _ _)
  | reset => exact ht
  | fault =>
    rw [hreport] at ht
    cases ht
  | irq => exact hsend _ _ ht
  | tick =>
    rename_i fired _ _
    have hfold : ∀ (l : List ℕ) (k₁ : Sched), (l.foldl Sched.send k₁).active = some t →
        k₁.active = some t := by
      intro l
      induction l with
      | nil => exact fun _ he => he
      | cons e l ih => exact fun k₁ he => hsend k₁ e (ih _ he)
    unfold Sched.tick at ht
    dsimp only at ht
    split at ht
    · rw [makeReady_active] at ht
      cases ht
    · exact hfold fired k ht

/-! ### One entry -/

theorem pctx_of_attrs {s s' : Kernel} {p : Ptr} (h : (s'.img p).attrs = (s.img p).attrs) :
    (s'.img p).pctx = (s.img p).pctx := congrArg (·.1) h

section Calls

variable {env : Env} {s s' : Kernel} {c : Ptr}

theorem reap_ctx {info : TInfo} (hinv : CtxInv s) (h : kcallReap env s c = .ok (s', info)) :
    CtxInv s' := by
  obtain ⟨t, -, ⟨-, rfl⟩ | ⟨-, rfl⟩⟩ := reap_cases h
  · exact hinv.same (.refl _) (fun _ ht => ht) fun u _ =>
      Or.inl (pctx_of_attrs (setEax_attrs s c u _))
  · refine hinv.same ?_ (fun _ ht => ht) fun u _ => Or.inl ?_
    · unfold threadKill
      dsimp only
      refine SameCtx.trans ?_ (heapFree_ctx _ _ _)
      split
      · exact heapFree_ctx _ _ _
      · exact .refl _
    · rw [← pctx_of_attrs (setEax_attrs s c u 0)]
      by_cases hu : u = t
      · simp only [hu, threadKill, Function.update_self]
      · simp only [threadKill, Function.update_of_ne hu]

/-- `SETSTATE` loads the context it gives its target, if that is a new one. -/
theorem setstateBegin_ctx (hinv : CtxInv s) (hact : ∀ t, s.active = some t → t = c)
    {src src' : TInfo} {u : Ptr} (hset : u ≠ c → (s.img u).pctx ≠ src.pctx →
      s.mm.LiveCtx src.pctx.toInt → src.pctx.toInt = s.mm.activePctx)
    (hstored : src'.pctx = src.pctx)
    (hsub : ∀ t, (setstateBegin src src' s u).active = some t → s.active = some t) :
    CtxInv (setstateBegin src src' s u) := by
  obtain ⟨hmm, -⟩ := setstateBegin_mm src src' s u
  obtain ⟨hothers, htarget⟩ := setstateBegin_img src src' s u
  have htarget' : ((setstateBegin src src' s u).img u).pctx = src.pctx :=
    (congrArg (·.1) htarget).trans hstored
  by_cases hchange : (s.img u).pctx = src.pctx
  · -- the target keeps its context
    rw [if_neg (not_not.mpr hchange)] at hmm
    refine hinv.same (hmm ▸ .refl _) hsub fun t _ => Or.inl ?_
    by_cases htu : t = u
    · rw [htu, htarget', hchange]
    · exact pctx_of_attrs (hothers t htu)
  · rw [if_pos hchange] at hmm
    by_cases hlive : s.mm.LiveCtx src.pctx.toInt
    · rw [pctxLoad_live hlive] at hmm
      refine ⟨fun _ => by rw [hmm], fun t ht hl => ?_⟩
      have htc := hact t (hsub t ht)
      rw [hmm]
      by_cases htu : t = u
      · rw [htu, htarget']
      · -- the caller keeps its context, which is the one that is loaded
        have hsame := pctx_of_attrs (hothers t htu)
        have hactive := hset (fun huc => htu (htc.trans huc.symm)) hchange hlive
        rw [hmm, hsame] at hl
        rw [hsame]
        exact hactive.trans (hinv.own t (hsub t ht) hl)
    · rw [pctxLoad_dead hlive] at hmm
      refine ⟨fun hl => ?_, fun t ht hl => ?_⟩
      · rw [hmm] at hl ⊢
        exact hinv.cr3 hl
      · rw [hmm] at hl ⊢
        by_cases htu : t = u
        · rw [htu, htarget'] at hl
          exact absurd hl hlive
        · rw [pctx_of_attrs (hothers t htu)] at hl ⊢
          exact hinv.own t (hsub t ht) hl

/-- `SETSTATE` that loads no context but the active one leaves the contexts alone. -/
theorem setstateLoad_ctx (hinv : CtxInv s) {src : TInfo} {u : Ptr}
    (hset : (s.img u).pctx ≠ src.pctx → s.mm.LiveCtx src.pctx.toInt →
      src.pctx.toInt = s.mm.activePctx) : SameCtx s.mm (setstateLoad src s u).mm := by
  rw [setstateLoad]
  split
  · rename_i hchange
    show SameCtx s.mm (pctxLoad s.mm src.pctx.toInt).2
    by_cases hlive : s.mm.LiveCtx src.pctx.toInt
    · have hactive := hset hchange hlive
      rw [pctxLoad_live hlive, hactive]
      rw [hactive] at hlive
      exact ⟨(hinv.cr3 hlive).symm, rfl, rfl⟩
    · rw [pctxLoad_dead hlive]
      exact .refl _
  · exact .refl _

/-- What `SETSTATE` stores has the number of the context it loads. -/
theorem Stores.pctx_eq (hinv : CtxInv s) {u : Ptr} {src : TInfo} (h : Stores env s c u src)
    (hset : u ≠ c → (s.img u).pctx ≠ env.info.pctx → s.mm.LiveCtx env.info.pctx.toInt →
      env.info.pctx.toInt = s.mm.activePctx)
    (hself : u = c → src.pctx = env.info.pctx) : src.pctx = env.info.pctx := by
  by_cases huc : u = c
  · exact hself huc
  · -- no context is loaded for another thread, and both reads are one
    have hsame := setstateLoad_ctx hinv (hset huc)
    have hstored := h.stored
    rw [Env.stored_same hsame.cr3] at hstored
    cases hstored
    rfl

theorem setstate_ctx (hinv : CtxInv s) (hact : ∀ t, s.active = some t → t = c)
    (hsub : ∀ t, s'.active = some t → s.active = some t)
    (hset : ∀ t, s.toSched.named c (s.img c).ebx = some t → t ≠ c →
      (s.img t).pctx ≠ env.info.pctx → s.mm.LiveCtx env.info.pctx.toInt →
      env.info.pctx.toInt = s.mm.activePctx)
    (hself : ∀ t src, Stores env s c t src → t = c → src.pctx = env.info.pctx)
    (h : kcallSetstate env s c = .ok s') : CtxInv s' := by
  have heax : ∀ (k : Kernel) (v : U32), CtxInv k → CtxInv (k.setEax c v) := fun k v hk =>
    hk.same (.refl _) (fun _ ht => ht) fun u _ => Or.inl (pctx_of_attrs (setEax_attrs k c u v))
  rcases setstate_cases h with ⟨v, -, rfl, -⟩ | ⟨u, src, s₁, hstores, rfl, hcopy⟩
  · exact heax s v hinv
  · refine heax s₁ 0 ?_
    have hbegin := setstateBegin_ctx hinv hact (hset u hstores.named)
      (hstores.pctx_eq hinv (hset u hstores.named) (hself u src hstores))
    rcases hcopy with ⟨-, hcopy⟩ | ⟨-, rfl⟩
    · have hsched : s₁.toSched = (setstateBegin env.info src s u).toSched :=
        (setstateCopy_ok hcopy).1
      have hbegin := hbegin fun t ht =>
        hsub t (show s₁.active = some t by rw [hsched]; exact ht)
      obtain ⟨-, q, hq, -, -⟩ := setstateCopy_img hcopy
      refine hbegin.same ?_ (fun t ht => by rw [hsched] at ht; exact ht)
        fun t _ => Or.inl (setstateCopy_attrs hcopy t).1
      rcases hq with ⟨-, hm⟩ | ⟨-, hm⟩
      · exact hm ▸ .refl _
      · exact heapAlloc_ctx hm
    · exact hbegin hsub

/-- `SETSTATE` on another thread than the caller leaves the contexts alone. -/
theorem setstate_other (hinv : CtxInv s)
    (hset : ∀ t, s.toSched.named c (s.img c).ebx = some t → t ≠ c →
      (s.img t).pctx ≠ env.info.pctx → s.mm.LiveCtx env.info.pctx.toInt →
      env.info.pctx.toInt = s.mm.activePctx)
    {u : Ptr} (hu : s.toSched.named c (s.img c).ebx = some u) (hne : u ≠ c)
    (h : kcallSetstate env s c = .ok s') : SameCtx s.mm s'.mm := by
  have hbegin : ∀ src, SameCtx s.mm (setstateBegin env.info src s u).mm := by
    intro src
    rw [show (setstateBegin env.info src s u).mm = (setstateOpen env.info s u).mm from rfl,
      setstateOpen_mm]
    exact setstateLoad_ctx hinv (hset u hu hne)
  rcases setstate_cases h with ⟨v, -, rfl, -⟩ | ⟨u', src, s₁, ⟨hu', -, -⟩, rfl, hcopy⟩
  · exact .refl _
  · obtain rfl := Option.some.inj (hu.symm.trans hu')
    rcases hcopy with ⟨-, hcopy⟩ | ⟨-, rfl⟩
    · obtain ⟨-, q, hq, -, -⟩ := setstateCopy_img hcopy
      refine (hbegin src).trans ?_
      rcases hq with ⟨-, hm⟩ | ⟨-, hm⟩
      · exact hm ▸ .refl _
      · exact heapAlloc_ctx hm
    · exact hbegin src

theorem paging_ctx {call : Call} {i : Image} {m : Mem} (hinv : CtxInv s)
    (hact : ∀ t, s.active = some t → t = c) (hm : pagingCall call s.mm (s.img c) = .ok (i, m))
    (hs : s' = { s with mm := m }.updImg c fun _ => i)
    (hnew : call = .newpctx → ∀ p : ℕ, s.mm.freshCtx = some p →
      (p : ℤ) ≠ s.mm.activePctx ∧ (p : ℤ) ≠ (s.img c).pctx.toInt) : CtxInv s' := by
  have hpctx : ∀ t, (s'.img t).pctx = (s.img t).pctx := by
    intro t
    rw [hs]
    by_cases htc : t = c
    · subst htc
      simp only [Kernel.updImg, Function.update_self]
      exact congrArg (·.1) (pagingCall_attrs hm)
    · simp only [Kernel.updImg, Function.update_of_ne htc]
  have hmm : s'.mm = m := by rw [hs]; rfl
  have hsub : ∀ t, s'.active = some t → s.active = some t := by
    intro t ht
    rw [hs] at ht
    exact ht
  by_cases hn : call = .newpctx
  · obtain ⟨⟨r, m₁⟩, h₁, hm⟩ := bind_eq_ok.mp (hn ▸ hm)
    cases hm
    obtain ⟨hcr3, hactive, htable⟩ := pctxNew_ctx h₁
    -- a context other than the new one is live if it was
    have hold : ∀ p : ℤ, s'.mm.LiveCtx p → (∀ n : ℕ, s.mm.freshCtx = some n → (n : ℤ) ≠ p) →
        s.mm.LiveCtx p ∧ s'.mm.pctxTable p.toNat = s.mm.pctxTable p.toNat := by
      intro p hl hfresh
      have hpos := hl.1
      have hkeep : s'.mm.pctxTable p.toNat = s.mm.pctxTable p.toNat := by
        rw [hmm]
        refine htable p.toNat (by omega) fun hf => hfresh p.toNat hf (by omega)
      exact ⟨⟨hl.1, hl.2.1, hkeep ▸ hl.2.2⟩, hkeep⟩
    refine ⟨fun hl => ?_, fun t ht hl => ?_⟩
    · rw [show s'.mm.activePctx = s.mm.activePctx by rw [hmm, hactive]] at hl ⊢
      obtain ⟨hl', hkeep⟩ := hold _ hl fun n hf => (hnew hn n hf).1
      rw [hkeep, hmm, hcr3]
      exact hinv.cr3 hl'
    · obtain rfl := hact t (hsub t ht)
      rw [hpctx] at hl ⊢
      obtain ⟨hl', -⟩ := hold _ hl fun n hf => (hnew hn n hf).2
      rw [hmm, hactive]
      exact hinv.own t (hsub t ht) hl'
  · by_cases hf : call = .freepctx
    · obtain ⟨⟨r, m₁⟩, h₁, hm⟩ := bind_eq_ok.mp (hf ▸ hm)
      cases hm
      obtain ⟨hcr3, hactive, htable⟩ := pctxFree_ctx h₁
      have hold : ∀ p : ℤ, s'.mm.LiveCtx p →
          s.mm.LiveCtx p ∧ s'.mm.pctxTable p.toNat = s.mm.pctxTable p.toNat := by
        intro p hl
        have hkeep : s'.mm.pctxTable p.toNat = s.mm.pctxTable p.toNat := by
          rw [hmm]
          refine (htable p.toNat).resolve_right fun hzero => hl.2.2 ?_
          rw [hmm, hzero]
        exact ⟨⟨hl.1, hl.2.1, hkeep ▸ hl.2.2⟩, hkeep⟩
      refine ⟨fun hl => ?_, fun t ht hl => ?_⟩
      · rw [show s'.mm.activePctx = s.mm.activePctx by rw [hmm, hactive]] at hl ⊢
        obtain ⟨hl', hkeep⟩ := hold _ hl
        rw [hkeep, hmm, hcr3]
        exact hinv.cr3 hl'
      · rw [hpctx] at hl ⊢
        rw [hmm, hactive]
        exact hinv.own t (hsub t ht) (hold _ hl).1
    · exact hinv.same (hmm ▸ pagingCall_ctx hm hn hf) hsub fun t _ => Or.inl (hpctx t)

end Calls

theorem CtxInv.trap {s : Kernel} (h : CtxInv s) (i : Input) : CtxInv (trap s i) :=
  h.same (.refl _) (fun _ ht => ht) fun t _ => Or.inl (pctx_of_attrs ((trap_quiet s i).attrs t))

/-- **One handler keeps the contexts in order.** -/
theorem handled_ctx {s s' : Kernel} {i : Input} {info : TInfo} (hw : TableWf s) (hinv : CtxInv s)
    (hok : StepCtxOk s i) (h : handled s i = .ok (s', info)) : CtxInv s' := by
  have hsub : ∀ t, s'.active = some t → s.active = some t :=
    fun t ht => (handled_effect hw h).1.active_sub ht
  rcases handled_kind h with ⟨hq, -⟩ | ⟨r, env, rfl, hu, hmem⟩
  · exact hinv.same (hq.mm ▸ .refl _) hsub fun t _ => Or.inl (pctx_of_attrs (hq.attrs t))
  · set s₀ := trap s (.call r env) with hs₀
    have hact : ∀ t, s₀.active = some t → t = s.image := by
      intro t ht
      have ht' : s.active = some t := ht
      rw [Sched.image, ht', Option.getD_some]
    have hinv₀ : CtxInv s₀ := hinv.trap _
    have hpctx : ∀ t, (s₀.img t).pctx = (s.img t).pctx :=
      fun t => pctx_of_attrs ((trap_quiet s _).attrs t)
    have hebx : (s₀.img s.image).ebx = r.ebx := by rw [hs₀, trap_img]; rfl
    obtain ⟨hset, hself, hnew⟩ := hok hu
    generalize hc : Call.ofEax r.eax = call at hmem hset hnew
    cases hmem with
    | spawn h =>
      obtain ⟨p, m, q, -, hp, hq, -, -, hzero, hattrs, -⟩ := spawn_img (trap_tableWf hw _) h
      refine hinv₀.same ((heapAlloc_ctx hp).trans (heapAlloc_ctx hq)) hsub fun t _ => ?_
      by_cases htp : t = p
      · exact Or.inr (by rw [htp]; exact congrArg (·.1) hzero)
      · exact Or.inl (pctx_of_attrs (hattrs t htp))
    | reap h => exact reap_ctx hinv₀ h
    | setstate h =>
      refine setstate_ctx hinv₀ hact hsub (fun t ht htc hne => ?_) (fun t src hst htc => ?_) h
      · rw [hebx] at ht
        rw [hpctx] at hne
        exact hset rfl t ht htc hne
      · exact hself (t, src) (hst.of_trap hu hc) htc
    | paging _ hm hs =>
      refine paging_ctx hinv₀ hact hm hs fun hn p hp => ?_
      rw [hpctx]
      exact hnew hn p hp

/-- A thread that is loaded runs in its own context. -/
theorem schedule_ctx {s s' : Kernel} {o : Option Ptr} (hinv : CtxInv s)
    (h : schedule s = .ok (o, s')) : CtxInv s' ∧ o = s'.active := by
  rcases schedule_cases h with ⟨rfl, ho⟩ | ⟨t, r, k, -, -, -, rfl, rfl⟩
  · exact ⟨hinv, ho⟩
  · obtain ⟨himg, -, -, hmm⟩ := threadLoad_eq { s with toSched := k } t
    set s₁ := threadLoad { s with toSched := k } t with hs₁
    refine ⟨?_, rfl⟩
    have hactive : (s₁.setState t .running).active = some t := by rw [hs₁]; rfl
    have hmem : (s₁.setState t .running).mm = s₁.mm := rfl
    have himage : (s₁.setState t .running).img = s.img := himg
    dsimp only at hmm
    by_cases hload : (s.img t).pctx.toInt ≠ 0 ∧ (s.img t).pctx.toInt ≠ s.mm.activePctx
    · rw [if_pos hload] at hmm
      by_cases hlive : s.mm.LiveCtx (s.img t).pctx.toInt
      · rw [pctxLoad_live hlive] at hmm
        refine ⟨fun _ => by rw [hmem, hmm], fun u hu _ => ?_⟩
        obtain rfl := Option.some.inj (hactive.symm.trans hu)
        rw [hmem, hmm, himage]
      · rw [pctxLoad_dead hlive] at hmm
        refine ⟨fun hl => ?_, fun u hu hl => ?_⟩
        · rw [hmem, hmm] at hl ⊢
          exact hinv.cr3 hl
        · obtain rfl := Option.some.inj (hactive.symm.trans hu)
          rw [hmem, hmm, himage] at hl
          exact absurd hl hlive
    · -- the number is zero, or that of the active context
      rw [if_neg hload] at hmm
      refine ⟨fun hl => ?_, fun u hu hl => ?_⟩
      · rw [hmem, hmm] at hl ⊢
        exact hinv.cr3 hl
      · obtain rfl := Option.some.inj (hactive.symm.trans hu)
        rw [hmem, hmm, himage] at hl ⊢
        have hpos := hl.1
        by_contra hne
        exact hload ⟨by omega, fun heq => hne heq.symm⟩

/-! ### Runs -/

theorem ColdBoot.ctx {m : Mem} (h : ColdBoot m) :
    (∀ p, m.pctxTable p = 0) ∧ m.activePctx = 0 := by
  induction h with
  | start hm => exact ⟨hm.table, hm.active⟩
  | frame _ hadd ih => rw [(frameAdd_ctx hadd).table, (frameAdd_ctx hadd).active]; exact ih
  | load _ hload ih =>
    have hvars := (memAlloc_steps hload).vars
    rw [hvars.table, hvars.active]
    exact ih

theorem ColdInit.ctx {s : Kernel} (h : ColdInit s) : CtxInv s := by
  obtain ⟨m, entry, stack, eflags, hm, hs⟩ := h
  obtain ⟨-, m₁, p, q, hp, hq, -⟩ := bootstrap_img hs
  have hsame := (heapAlloc_ctx hp).trans (heapAlloc_ctx hq)
  have hdead : ∀ p, ¬s.mm.LiveCtx p := by
    intro p hl
    rw [hsame.live] at hl
    exact hl.2.2 (hm.ctx.1 _)
  exact ⟨fun hl => absurd hl (hdead _), fun t _ hl => absurd hl (hdead _)⟩

theorem ColdReach.ctx {s : Kernel} (h : ColdReach StepCtxOk s) : CtxInv s := by
  refine Reachable.invariant CtxInv (fun s hs => hs.ctx) ?_ h
  rintro s i s' hr hinv ⟨-, hok⟩ hs
  obtain ⟨⟨o, k, info⟩, hstep, hk⟩ := map_eq_ok.mp hs
  obtain rfl : k = s' := hk
  obtain ⟨s₁, h₁, h₂⟩ := step_cases hstep
  exact (schedule_ctx (handled_ctx (ColdReach.kernelReach hr).tableWf hinv hok h₁) h₂).1

/-- **The running thread runs in its own context**: along every run of such entries, when
`int_handler` returns a thread whose context is live, that context is active and in CR3,
and a `SETSTATE` on another thread leaves the active context and CR3 as they are. -/
theorem own_context {s : Kernel} (h : ColdReach StepCtxOk s) {i : Input} (hok : StepCtxOk s i) :
    (∀ t s' info, step s i = .ok (some t, s', info) → s'.mm.LiveCtx (s'.img t).pctx.toInt →
      s'.mm.activePctx = (s'.img t).pctx.toInt ∧
        s'.mm.cr3 = s'.mm.pctxTable (s'.img t).pctx.toInt.toNat) ∧
    ∀ t s₁ info, i.SetsState s t → t ≠ s.image → handled s i = .ok (s₁, info) →
      s₁.mm.activePctx = s.mm.activePctx ∧ s₁.mm.cr3 = s.mm.cr3 := by
  have hinv := h.ctx
  have hw := h.kernelReach.tableWf
  constructor
  · intro t s' info hstep hl
    obtain ⟨s₁, h₁, h₂⟩ := step_cases hstep
    obtain ⟨hinv', ho⟩ := schedule_ctx (handled_ctx hw hinv hok h₁) h₂
    have hown := hinv'.own t ho.symm hl
    rw [← hown] at hl ⊢
    exact ⟨rfl, hinv'.cr3 hl⟩
  · intro t s₁ info hset hne h₁
    cases i with
    | call r env =>
      obtain ⟨hu, hcall, hnamed⟩ := hset
      have hheap : Input.Heap s (.call r env) := ⟨hu, Or.inr (Or.inr hcall)⟩
      obtain ⟨r', env', heq, -, hmem⟩ := (handled_kind h₁).resolve_left fun hq => hq.2 hheap
      cases heq
      rw [hcall] at hmem
      cases hmem with
      | setstate h₂ =>
        have himg := trap_img s (.call r env)
        have hpctx : ∀ t, ((trap s (.call r env)).img t).pctx = (s.img t).pctx :=
          fun t => pctx_of_attrs ((trap_quiet s _).attrs t)
        have hsame := setstate_other (hinv.trap (.call r env)) (fun u hu' huc hne' => ?_)
          (by rw [himg]; exact hnamed) hne h₂
        · exact ⟨hsame.active, hsame.cr3⟩
        · rw [himg] at hu'
          rw [hpctx] at hne'
          exact (hok hu).1 hcall u hu' huc hne'
      | paging hnot => exact absurd (Or.inr (Or.inr rfl)) hnot
    | irq n r env => exact hset.elim
    | fault n r env => exact hset.elim

/-! ### A pair of threads and a context -/

/-- A call that neither sets a state nor makes a context. -/
def NoCtxCall (_ : Kernel) : Input → Prop
  | .call r _ => Call.ofEax r.eax ≠ .setstate ∧ Call.ofEax r.eax ≠ .newpctx
  | _ => True

instance : ∀ s i, Decidable (NoCtxCall s i)
  | _, .call _ _ => inferInstanceAs (Decidable (_ ∧ _))
  | _, .irq _ _ _ => isTrue trivial
  | _, .fault _ _ _ => isTrue trivial

theorem NoCtxCall.ok {s : Kernel} {i : Input} (h : NoCtxCall s i) : StepCtxOk s i := by
  cases i with
  | call r env =>
    refine fun _ => ⟨fun hc => absurd hc h.1, fun x hx => ?_, fun hc => absurd hc h.2⟩
    rw [stores_of_call h.1] at hx
    cases hx
  | irq => trivial
  | fault => trivial

/-- What `space_clone` needs of a memory whose frames come from the boot pool. -/
def Mem.Cloneable (m : Mem) : Prop :=
  m.outOfMemory = true ∧ m.kend - KERNEL_ADDR_BASE < m.oomPool - PAGESZ ∧
    Pres (m.phys m.dir 1023) ∧ frameNo (m.phys m.dir 1023) = m.dir ∧ Pres (m.phys m.dir 1020) ∧
    frameNo (m.oomPool - PAGESZ) ≠ m.dir ∧ frameNo (m.oomPool - PAGESZ) ≠ m.tab TMP_SRC ∧
    m.tab TMP_SRC ≠ m.dir

instance (m : Mem) : Decidable m.Cloneable := inferInstanceAs (Decidable (_ ∧ _))

/-- The memory with a clone of the loaded directory in slot `i`. -/
def Mem.withClone (m : Mem) (i : ℕ) : Mem :=
  (({ m with oomPool := m.oomPool - PAGESZ } : Mem).cloned (m.oomPool - PAGESZ)).withCtx i
    (m.oomPool - PAGESZ)

theorem Mem.Cloneable.clone {m : Mem} (h : m.Cloneable) : spaceClone m =
    .ok (m.oomPool - PAGESZ,
      ({ m with oomPool := m.oomPool - PAGESZ } : Mem).cloned (m.oomPool - PAGESZ)) := by
  obtain ⟨hoom, hroom, hself, hname, hsrc, hd, ht, htd⟩ := h
  have hnew : frameNew m =
      .ok (m.oomPool - PAGESZ, { m with oomPool := m.oomPool - PAGESZ }) := by
    rw [frameNew, if_pos hoom, frameNewOom]
    exact if_neg (BitVec.not_le.mpr hroom)
  exact spaceClone_eq ⟨hself, hname⟩ hnew rfl rfl hsrc hd ht htd

/-- The boot thread and a second one, which is paused. -/
@[irreducible] def pausedPair : Kernel :=
  (bootRun NoCtxCall [callOf 0x02 0, callOf 0x05 1]).get (by decide +kernel)

/-- They have made a context. -/
@[irreducible] def pairMem : Mem := (pausedPair.mm.withClone 0).withClone 1

theorem pausedPair_reach : ColdReach NoCtxCall pausedPair := by
  unfold pausedPair
  exact bootRun_cold (Option.some_get _).symm

theorem pausedPair_new : pctxNew pausedPair.mm = .ok (1, pairMem) := by
  have h₁ : pausedPair.mm.Cloneable := by decide +kernel
  have h₂ : (pausedPair.mm.withClone 0).Cloneable := by decide +kernel
  have h₀ : pausedPair.mm.pctxTable 0 = 0 := by decide +kernel
  unfold pairMem
  refine pctxNew_first h₀ h₁.clone ?_ h₂.clone
  decide +kernel

theorem schedule_active {s : Kernel} {c : Ptr} (hc : s.active = some c) :
    schedule s = .ok (some c, s) := by
  rw [schedule, hc]

/-- An entry after which a thread is still active. -/
theorem next_of_handled {s s₁ : Kernel} {i : Input} {c : Ptr} {info : TInfo}
    (h : handled s i = .ok (s₁, info)) (hc : s₁.active = some c) : s.next i = .ok s₁ :=
  map_eq_ok.mpr ⟨(some c, s₁, info),
    bind_eq_ok.mpr ⟨_, h, bind_eq_ok.mpr ⟨_, schedule_active hc, rfl⟩⟩, rfl⟩

theorem named_self (k : Sched) (c : Ptr) : k.named c (-1) = some c := if_pos rfl

theorem kcall_newpctx {env : Env} {s : Kernel} {c : Ptr} {r : ℤ} {m : Mem}
    (hu : (s.img c).flags &&& TF_USER = 0) (hc : Call.ofEax (s.img c).eax = .newpctx)
    (hnew : pctxNew s.mm = .ok (r, m)) :
    kcall env s c = .ok ({ s with mm := m }.setEax c (BitVec.ofInt 32 r), env.info) := by
  have hp : pagingCall .newpctx s.mm (s.img c) =
      .ok ({ s.img c with eax := BitVec.ofInt 32 r }, m) := by
    rw [pagingCall, hnew]
    rfl
  rw [kcall, if_neg (not_not.mpr hu), kernelCall, hc]
  dsimp only
  rw [hp]
  rfl

theorem next_newpctx {s : Kernel} {c : Ptr} {r : ℤ} {m : Mem} (hc : s.active = some c)
    (hu : (s.img s.image).flags &&& TF_USER = 0) (hnew : pctxNew s.mm = .ok (r, m)) :
    s.next (callOf 0x10 0) =
      .ok ({ trap s (callOf 0x10 0) with mm := m }.setEax s.image (BitVec.ofInt 32 r)) := by
  have himg := trap_img s (callOf 0x10 0)
  have hflags : ((trap s (callOf 0x10 0)).img s.image).flags &&& TF_USER = 0 := by
    rw [himg]
    exact hu
  have heax : Call.ofEax ((trap s (callOf 0x10 0)).img s.image).eax = .newpctx := by
    rw [himg]
    rfl
  have hcall := (handled_call s _ noEnv).trans (kcall_newpctx hflags heax hnew)
  exact next_of_handled hcall hc

/-- They, with a context. -/
def pairCtx : Kernel :=
  { trap pausedPair (callOf 0x10 0) with mm := pairMem }.setEax pausedPair.image (BitVec.ofInt 32 1)

theorem pairCtx_next : pausedPair.next (callOf 0x10 0) = .ok pairCtx := by
  have hactive : pausedPair.active ≠ none := by decide +kernel
  have hu : (pausedPair.img pausedPair.image).flags &&& TF_USER = 0 := by decide +kernel
  obtain ⟨c, hc⟩ := Option.ne_none_iff_exists'.mp hactive
  exact next_newpctx hc hu pausedPair_new

theorem pairCtx_reach : ColdReach StepCtxOk pairCtx := by
  refine (pausedPair_reach.mono fun s i h => ⟨h.1, h.2.ok⟩).next ⟨?_, fun _ => ⟨?_, ?_, ?_⟩⟩
    pairCtx_next
  · show pausedPair.active ≠ none
    decide +kernel
  · intro hc
    cases hc
  · intro x hx
    rw [stores_of_call (by decide)] at hx
    cases hx
  · -- context 1 is new, and context 0 is active and that of the caller
    intro _ p hp
    have hfresh : pausedPair.mm.freshCtx = some 1 := by decide +kernel
    have hactive : pausedPair.mm.activePctx = 0 := by decide +kernel
    have hpctx : (pausedPair.img pausedPair.image).pctx = 0 := by decide +kernel
    rw [hfresh, Option.some.injEq] at hp
    subst hp
    rw [hactive, hpctx]
    decide

/-- A `t_info` on a page that every context maps. -/
def sharedEnv (src : TInfo) : Env := { noEnv with info := src, loaded := some src }

theorem sharedEnv_stored (src : TInfo) (s : Kernel) (t : Ptr) :
    (sharedEnv src).stored s t = .ok src := by
  unfold Env.stored Env.reread
  split <;> rfl

/-- Whatever it loads, `SETSTATE` stores such a `t_info` as it is. -/
theorem sharedEnv_stores {r : UserRegs} {src : TInfo} {s : Kernel} {x : Ptr × TInfo}
    (h : x ∈ Input.stores s (.call r (sharedEnv src))) : x.2 = src := by
  obtain ⟨t, i⟩ := x
  simp only [Input.stores, sharedEnv_stored, Except.toOption] at h
  split at h
  · obtain ⟨u, -, hu⟩ := Option.bind_eq_some_iff.mp h
    split at hu
    · cases hu
      rfl
    · cases hu
  · cases h

/-- `SETSTATE` of a thread, with context 1. -/
def setPctx (t : U32) : Input :=
  .call ⟨0, 0, 0, 0, t, 0, 0, 0x08, 0, 0, 0⟩ (sharedEnv { noEnv.info with pctx := 1 })

/-- The caller moves to the new context. -/
theorem own_context_moved : ∃ t s' info, step pairCtx (setPctx (-1)) = .ok (some t, s', info) ∧
    s'.mm.activePctx = 1 ∧ s'.mm.cr3 = s'.mm.pctxTable 1 := by
  have hok : StepCtxOk pairCtx (setPctx (-1)) := by
    refine fun _ => ⟨fun _ t ht hne => ?_, fun x hx _ => ?_, fun hc => by cases hc⟩
    · exact absurd (Option.some.inj ((named_self _ _).symm.trans ht)).symm hne
    · rw [sharedEnv_stores hx]
      rfl
  have hrun : (step pairCtx (setPctx (-1))).toOption.any (fun r => r.1.any fun t =>
      decide ((r.2.1.img t).pctx = 1 ∧ r.2.1.mm.LiveCtx 1)) = true := by
    decide +kernel
  simp only [Option.any_eq_true, decide_eq_true_eq] at hrun
  obtain ⟨⟨o, s', info⟩, hstep, t, rfl, hpctx, hlive⟩ := hrun
  have hstep := toOption_eq_some.mp hstep
  have hown := (own_context pairCtx_reach hok).1 t s' info hstep
  rw [hpctx] at hown
  exact ⟨t, s', info, hstep, hown hlive⟩

/-- A `SETSTATE` on the other, paused thread changes the context the caller runs in. -/
theorem own_context_fails : ∃ s i t s₁ info, ColdReach (fun _ _ => True) s ∧
    i.Enabled s.toSched ∧ i.SetsState s t ∧ t ≠ s.image ∧ (s.tcb t).state = .paused ∧
    handled s i = .ok (s₁, info) ∧ s₁.active = some s.image ∧
    s₁.mm.activePctx ≠ s.mm.activePctx := by
  have hrun : (pairCtx.table 1).any (fun t => (handled pairCtx (setPctx 1)).toOption.any fun r =>
      decide (pairCtx.active ≠ none ∧ (pairCtx.img pairCtx.image).flags &&& TF_USER = 0 ∧
        pairCtx.toSched.named pairCtx.image 1 = some t ∧ t ≠ pairCtx.image ∧
        (pairCtx.tcb t).state = .paused ∧ r.1.active = some pairCtx.image ∧
        r.1.mm.activePctx ≠ pairCtx.mm.activePctx)) = true := by
    decide +kernel
  simp only [Option.any_eq_true, decide_eq_true_eq] at hrun
  obtain ⟨t, -, ⟨s₁, info⟩, hs, hactive, hu, hnamed, hne, hpaused, himage, hctx⟩ := hrun
  exact ⟨pairCtx, setPctx 1, t, s₁, info, pairCtx_reach.mono fun _ _ h => ⟨h.1, trivial⟩, hactive,
    ⟨hu, rfl, hnamed⟩, hne, hpaused, toOption_eq_some.mp hs, himage, hctx⟩

end Pinion
