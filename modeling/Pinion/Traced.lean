/-
Computations that may stop and note events on the way.

The events noted before a stop are kept, so that what a computation did can be stated
whether it returned or not.

* `Traced ε ι α` — the events and the result;
* `Traced.note` — a computation noted as one event;
* `Traced.out_bind`, `Traced.mem_bind_log` — results and events of a composition;
* `Traced.out_foldlM`, `Traced.foldlM_log` — the same for a loop;
* `Traced.Only P` — all events are in `P`.
-/
import Pinion.Runs

namespace Runs

/-- A result or the reason of a stop, with the events up to there. -/
structure Traced (ε ι α : Type) where
  log : List ι
  out : Except ε α

namespace Traced

variable {ε ι α β κ : Type}

instance : Monad (Traced ε ι) where
  pure a := ⟨[], .ok a⟩
  bind x f :=
    match x.out with
    | .error e => ⟨x.log, .error e⟩
    | .ok a => ⟨x.log ++ (f a).log, (f a).out⟩

instance : LawfulMonad (Traced ε ι) := by
  refine LawfulMonad.mk' _ (fun x => ?_) (fun a f => rfl) fun x f g => ?_
  · obtain ⟨log, out⟩ := x
    cases out with
    | error e => rfl
    | ok a => exact congrArg (fun l => Traced.mk l (.ok a)) (List.append_nil log)
  · obtain ⟨log, out⟩ := x
    cases out with
    | error e => rfl
    | ok a =>
      show ((Traced.mk (log ++ (f a).log) (f a).out : Traced ε ι _) >>= g) =
        ⟨log ++ (f a >>= g).log, (f a >>= g).out⟩
      obtain ⟨log', out'⟩ := f a
      cases out' with
      | error e => rfl
      | ok b => exact congrArg (fun l => Traced.mk l (g b).out) (List.append_assoc log log' (g b).log)

/-- A computation that notes nothing. -/
instance : MonadLift (Except ε) (Traced ε ι) where
  monadLift x := ⟨[], x⟩

/-- A computation noted as one event. -/
def note (i : ι) (x : Except ε α) : Traced ε ι α := ⟨[i], x⟩

@[simp] theorem out_pure (a : α) : (pure a : Traced ε ι α).out = .ok a := rfl

@[simp] theorem log_pure (a : α) : (pure a : Traced ε ι α).log = [] := rfl

@[simp] theorem out_lift (x : Except ε α) : (liftM x : Traced ε ι α).out = x := rfl

@[simp] theorem log_lift (x : Except ε α) : (liftM x : Traced ε ι α).log = [] := rfl

@[simp] theorem out_note (i : ι) (x : Except ε α) : (note i x).out = x := rfl

@[simp] theorem log_note (i : ι) (x : Except ε α) : (note i x).log = [i] := rfl

theorem out_bind (x : Traced ε ι α) (f : α → Traced ε ι β) :
    (x >>= f).out = x.out >>= fun a => (f a).out := by
  obtain ⟨log, out⟩ := x
  cases out <;> rfl

theorem mem_bind_log {x : Traced ε ι α} {f : α → Traced ε ι β} {i : ι} :
    i ∈ (x >>= f).log ↔ i ∈ x.log ∨ ∃ a, x.out = .ok a ∧ i ∈ (f a).log := by
  obtain ⟨log, out⟩ := x
  cases out with
  | error e =>
    constructor
    · exact .inl
    · rintro (h | ⟨a, ha, -⟩)
      · exact h
      · cases ha
  | ok a =>
    show i ∈ log ++ (f a).log ↔ _
    rw [List.mem_append]
    constructor
    · rintro (h | h)
      · exact .inl h
      · exact .inr ⟨a, rfl, h⟩
    · rintro (h | ⟨b, hb, h⟩)
      · exact .inl h
      · cases hb
        exact .inr h

theorem ok_bind (a : α) (f : α → Traced ε ι β) : (liftM (.ok a : Except ε α) >>= f) = f a := rfl

theorem out_foldlM (f : α → κ → Traced ε ι α) (l : List κ) :
    ∀ a, (l.foldlM f a).out = l.foldlM (fun a k => (f a k).out) a := by
  induction l with
  | nil =>
    intro a
    rfl
  | cons k l ih =>
    intro a
    rw [List.foldlM_cons, List.foldlM_cons, out_bind]
    exact bind_congr ih

/-- An event of a loop is one of a turn. -/
theorem foldlM_log {f : α → κ → Traced ε ι α} {P : ι → Prop} {l : List κ} :
    (∀ a, ∀ k ∈ l, ∀ i ∈ (f a k).log, P i) → ∀ a, ∀ i ∈ (l.foldlM f a).log, P i := by
  induction l with
  | nil =>
    intro _ a i hi
    cases hi
  | cons k l ih =>
    intro h a i hi
    rw [List.foldlM_cons, mem_bind_log] at hi
    rcases hi with hi | ⟨b, -, hi⟩
    · exact h a k (List.mem_cons_self ..) i hi
    · exact ih (fun a k hk => h a k (List.mem_cons_of_mem _ hk)) b i hi

/-- Every turn of a loop that returned has left its events. -/
theorem log_of_turn {f : α → κ → Traced ε ι α} {k : κ} {i : ι}
    (hi : ∀ a b, (f a k).out = .ok b → i ∈ (f a k).log) {l : List κ} (hk : k ∈ l) :
    ∀ {a b : α}, (l.foldlM f a).out = .ok b → i ∈ (l.foldlM f a).log := by
  induction l with
  | nil => cases hk
  | cons j l ih =>
    intro a b h
    rw [List.foldlM_cons, out_bind] at h
    obtain ⟨a₁, h₁, h⟩ := bind_eq_ok.mp h
    rw [List.foldlM_cons, mem_bind_log]
    rcases List.mem_cons.mp hk with rfl | hk
    · exact .inl (hi a a₁ h₁)
    · exact .inr ⟨a₁, h₁, ih hk h⟩

/-- The events of a composition whose first part returned. -/
theorem log_bind_ok {x : Traced ε ι α} {f : α → Traced ε ι β} {a : α} (h : x.out = .ok a) :
    (x >>= f).log = x.log ++ (f a).log := by
  obtain ⟨log, out⟩ := x
  cases h
  rfl

/-- A counting loop whose turns do not stop, with an invariant on the events so far. -/
theorem foldlM_range_log {P : ℕ → List ι → α → Prop} {f : α → ℕ → Traced ε ι α} {a : α}
    (h₀ : P 0 [] a) : ∀ {n : ℕ},
      (∀ k < n, ∀ L s, P k L s → ∃ s', (f s k).out = .ok s' ∧ P (k + 1) (L ++ (f s k).log) s') →
      ∃ s', ((List.range n).foldlM f a).out = .ok s' ∧ P n ((List.range n).foldlM f a).log s' := by
  intro n
  induction n with
  | zero =>
    intro _
    exact ⟨a, rfl, h₀⟩
  | succ n ih =>
    intro hs
    obtain ⟨s₁, h₁, hP⟩ := ih fun k hk => hs k (by omega)
    obtain ⟨s', h', hP'⟩ := hs n (by omega) _ s₁ hP
    have hlast : ([n].foldlM f s₁).log = (f s₁ n).log ∧ ([n].foldlM f s₁).out = .ok s' := by
      rw [List.foldlM_cons, log_bind_ok h', out_bind, h']
      exact ⟨List.append_nil _, rfl⟩
    refine ⟨s', ?_, ?_⟩
    · rw [List.range_succ, List.foldlM_append, out_bind, h₁]
      exact hlast.2
    · rw [List.range_succ, List.foldlM_append, log_bind_ok h₁, hlast.1]
      exact hP'

/-! ### Events of one kind -/

/-- All events that are noted are in `P`. -/
def Only (P : ι → Prop) (x : Traced ε ι α) : Prop := ∀ i ∈ x.log, P i

section Only

variable {P : ι → Prop}

theorem Only.pure (a : α) : Only P (pure a : Traced ε ι α) := nofun

theorem Only.lift (x : Except ε α) : Only P (liftM x : Traced ε ι α) := nofun

theorem only_note {i : ι} {x : Except ε α} : Only P (note i x) ↔ P i := by
  refine ⟨fun h => h i (List.mem_singleton_self i), fun h j hj => ?_⟩
  rw [List.mem_singleton.mp hj]
  exact h

theorem only_bind {x : Traced ε ι α} {f : α → Traced ε ι β} :
    Only P (x >>= f) ↔ Only P x ∧ ∀ a, x.out = .ok a → Only P (f a) := by
  constructor
  · intro h
    refine ⟨fun i hi => h i (mem_bind_log.mpr (.inl hi)), fun a ha i hi => ?_⟩
    exact h i (mem_bind_log.mpr (.inr ⟨a, ha, hi⟩))
  · rintro ⟨hx, hf⟩ i hi
    rcases mem_bind_log.mp hi with hi | ⟨a, ha, hi⟩
    · exact hx i hi
    · exact hf a ha i hi

theorem Only.ite {c : Prop} [Decidable c] {x y : Traced ε ι α} (hx : c → Only P x)
    (hy : ¬c → Only P y) : Only P (if c then x else y) := by
  split_ifs with hc
  · exact hx hc
  · exact hy hc

/-- A result that was computed without notes. -/
theorem Only.lift_bind {x : Except ε α} {f : α → Traced ε ι β}
    (hf : ∀ a, x = .ok a → Only P (f a)) : Only P (liftM x >>= f) :=
  only_bind.mpr ⟨.lift x, hf⟩

end Only

end Traced

end Runs
