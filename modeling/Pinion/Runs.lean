/-
Runs of a machine whose step may stop.

* `bind_eq_ok`, `map_eq_ok`, `foldlM_invariant` — what a computation in `Except`
  that returns went through;
* `foldlM_range_ok`, `foldlM_range_invariant` — counting loops;
* `Reachable step ok init` — the states reached from an initial one by steps
  that meet the guard `ok`, and its invariant rule;
* `replay` — run a list of inputs, stopping at the first that is refused;
* `Along step spec P` — every step of a run satisfies `P`, an abstract state
  moving along with the machine;
* `EachStep step P` — the same with no abstract state;
* `along_congr`, `eachStep_congr` — two such step conditions that agree on related
  states hold along the same runs.
-/
import Mathlib

namespace Runs

universe u

variable {σ ι ε α : Type*}

/-! ### Results of a computation that may stop -/

theorem bind_eq_ok {β γ : Type u} {x : Except ε β} {f : β → Except ε γ} {c : γ} :
    (x >>= f) = .ok c ↔ ∃ b, x = .ok b ∧ f b = .ok c := by
  cases x <;> simp [bind, Except.bind]

theorem map_eq_ok {β γ : Type u} {x : Except ε β} {f : β → γ} {c : γ} :
    (f <$> x) = .ok c ↔ ∃ b, x = .ok b ∧ f b = c := by
  cases x <;> simp [Functor.map, Except.map]

theorem toOption_eq_some {x : Except ε α} {a : α} : x.toOption = some a ↔ x = .ok a := by
  cases x <;> simp [Except.toOption]

/-- A property that every turn of a loop keeps holds at its end. -/
theorem foldlM_invariant {P : σ → Prop} {f : σ → ι → Except ε σ}
    (hf : ∀ s i s', P s → f s i = .ok s' → P s') {l : List ι} :
    ∀ {s s' : σ}, P s → l.foldlM f s = .ok s' → P s' := by
  induction l with
  | nil =>
    intro s s' hs h
    rw [List.foldlM_nil] at h
    cases h
    exact hs
  | cons i l ih =>
    intro s s' hs h
    rw [List.foldlM_cons, bind_eq_ok] at h
    obtain ⟨t, ht, h⟩ := h
    exact ih (hf s i t hs ht) h

/-- A loop on images, turn by turn. -/
theorem foldlM_image {τ : Type*} {φ : σ → τ} {f : σ → ι → Except ε σ} {g : τ → ι → Except ε τ}
    (hf : ∀ s i s', f s i = .ok s' → g (φ s) i = .ok (φ s')) {l : List ι} :
    ∀ {s s' : σ}, l.foldlM f s = .ok s' → l.foldlM g (φ s) = .ok (φ s') := by
  induction l with
  | nil =>
    intro s s' h
    cases h
    rfl
  | cons i l ih =>
    intro s s' h
    rw [List.foldlM_cons, bind_eq_ok] at h ⊢
    obtain ⟨t, ht, h⟩ := h
    exact ⟨φ t, hf s i t ht, ih h⟩

/-- A counting loop whose turns do not stop, with an invariant indexed by the turn. -/
theorem foldlM_range_ok {P : ℕ → σ → Prop} {f : σ → ℕ → Except ε σ} {s : σ} (h₀ : P 0 s) :
    ∀ {n : ℕ}, (∀ k < n, ∀ s, P k s → ∃ s', f s k = .ok s' ∧ P (k + 1) s') →
      ∃ s', (List.range n).foldlM f s = .ok s' ∧ P n s' := by
  intro n
  induction n with
  | zero =>
    intro _
    exact ⟨s, rfl, h₀⟩
  | succ n ih =>
    intro hs
    obtain ⟨s₁, h₁, hP⟩ := ih fun k hk => hs k (by omega)
    obtain ⟨s', h', hP'⟩ := hs n (by omega) s₁ hP
    refine ⟨s', ?_, hP'⟩
    rw [List.range_succ, List.foldlM_append]
    refine bind_eq_ok.mpr ⟨s₁, h₁, ?_⟩
    rw [List.foldlM_cons]
    exact bind_eq_ok.mpr ⟨s', h', rfl⟩

/-- The same for a loop that ended. -/
theorem foldlM_range_invariant {P : ℕ → σ → Prop} {f : σ → ℕ → Except ε σ} {s : σ} (h₀ : P 0 s) :
    ∀ {n : ℕ} {s' : σ}, (∀ k < n, ∀ s s', P k s → f s k = .ok s' → P (k + 1) s') →
      (List.range n).foldlM f s = .ok s' → P n s' := by
  intro n
  induction n with
  | zero =>
    intro s' _ h
    cases h
    exact h₀
  | succ n ih =>
    intro s' hs h
    rw [List.range_succ, List.foldlM_append] at h
    obtain ⟨s₁, h₁, h⟩ := bind_eq_ok.mp h
    rw [List.foldlM_cons] at h
    obtain ⟨s₂, h₂, h⟩ := bind_eq_ok.mp h
    cases h
    exact hs n (by omega) s₁ _ (ih (fun k hk => hs k (by omega)) h₁) h₂

/-! ### Reachable states -/

inductive Reachable (step : σ → ι → Except ε σ) (ok : σ → ι → Prop) (init : σ → Prop) : σ → Prop
  | start {s : σ} : init s → Reachable step ok init s
  | next {s s' : σ} {i : ι} : Reachable step ok init s → ok s i → step s i = .ok s' →
      Reachable step ok init s'

/-- The invariant rule: what holds initially and is kept by every guarded step
from a reachable state holds in every reachable state. -/
theorem Reachable.invariant {step : σ → ι → Except ε σ} {ok : σ → ι → Prop} {init : σ → Prop}
    (Inv : σ → Prop) (h₀ : ∀ s, init s → Inv s)
    (hs : ∀ s i s', Reachable step ok init s → Inv s → ok s i → step s i = .ok s' → Inv s')
    {s : σ} (h : Reachable step ok init s) : Inv s := by
  induction h with
  | start hi => exact h₀ _ hi
  | next hr hok hstep ih => exact hs _ _ _ hr ih hok hstep

theorem Reachable.mono {step : σ → ι → Except ε σ} {ok ok' : σ → ι → Prop} {init : σ → Prop}
    (h : ∀ s i, ok s i → ok' s i) {s : σ} (hr : Reachable step ok init s) :
    Reachable step ok' init s := by
  induction hr with
  | start hi => exact .start hi
  | next _ hok hstep ih => exact .next ih (h _ _ hok) hstep

/-- Run the inputs in order; `none` when one is refused by the guard or stops
the machine. -/
def replay (step : σ → ι → Except ε σ) (ok : σ → ι → Prop) [∀ s i, Decidable (ok s i)] :
    List ι → σ → Option σ
  | [], s => some s
  | i :: is, s =>
    if ok s i then
      match step s i with
      | .ok s' => replay step ok is s'
      | .error _ => none
    else none

theorem Reachable.of_replay {step : σ → ι → Except ε σ} {ok : σ → ι → Prop}
    [∀ s i, Decidable (ok s i)] {init : σ → Prop} {is : List ι} :
    ∀ {s s' : σ}, Reachable step ok init s → replay step ok is s = some s' →
      Reachable step ok init s' := by
  induction is with
  | nil =>
    intro s s' h hs
    rw [replay, Option.some.injEq] at hs
    rw [← hs]
    exact h
  | cons i is ih =>
    intro s s' h hs
    rw [replay] at hs
    split at hs
    case isTrue hok =>
      split at hs
      case h_1 t ht => exact ih (h.next hok ht) hs
      case h_2 => exact absurd hs (by simp)
    case isFalse => exact absurd hs (by simp)

/-! ### Conditions along a run -/

/-- Every step of the run of a list of inputs satisfies `P`; the abstract state
moves by `spec`. -/
def Along (step : σ → ι → Except ε σ) (spec : σ → α → ι → α) (P : σ → α → ι → Prop) :
    σ → α → List ι → Prop
  | _, _, [] => True
  | s, a, i :: is => P s a i ∧ ∀ s', step s i = .ok s' → Along step spec P s' (spec s a i) is

/-- Two step conditions that agree on related states, the first of which keeps
the relation, hold along the same runs. -/
theorem along_congr {step : σ → ι → Except ε σ} {spec : σ → α → ι → α}
    {L P Q : σ → α → ι → Prop} {R : σ → α → Prop}
    (hiff : ∀ s a i, R s a → L s a i → (P s a i ↔ Q s a i))
    (hkeep : ∀ s a i s', R s a → L s a i → P s a i → step s i = .ok s' → R s' (spec s a i))
    {is : List ι} : ∀ {s : σ} {a : α}, R s a → Along step spec L s a is →
      (Along step spec P s a is ↔ Along step spec Q s a is) := by
  induction is with
  | nil => exact fun _ _ => Iff.rfl
  | cons i is ih =>
    intro s a hR hL
    have hPQ := hiff s a i hR hL.1
    constructor
    · rintro ⟨hP, hrest⟩
      exact ⟨hPQ.mp hP, fun s' hs =>
        (ih (hkeep s a i s' hR hL.1 hP hs) (hL.2 s' hs)).mp (hrest s' hs)⟩
    · rintro ⟨hQ, hrest⟩
      have hP := hPQ.mpr hQ
      exact ⟨hP, fun s' hs =>
        (ih (hkeep s a i s' hR hL.1 hP hs) (hL.2 s' hs)).mpr (hrest s' hs)⟩

/-- Every step of the run of a list of inputs satisfies `P`. -/
def EachStep (step : σ → ι → Except ε σ) (P : σ → ι → Prop) (s : σ) (is : List ι) : Prop :=
  Along step (fun _ _ _ => ()) (fun s _ i => P s i) s () is

/-- Step conditions that agree where an invariant holds, the first of which keeps it,
hold along the same runs. -/
theorem eachStep_congr {step : σ → ι → Except ε σ} {P Q : σ → ι → Prop} {R : σ → Prop}
    (hiff : ∀ s i, R s → (P s i ↔ Q s i))
    (hkeep : ∀ s i s', R s → P s i → step s i = .ok s' → R s') {s : σ} (hs : R s)
    (is : List ι) : EachStep step P s is ↔ EachStep step Q s is := by
  have htrue : ∀ is : List ι, ∀ s, Along step (fun _ _ _ => ()) (fun _ (_ : Unit) _ => True) s ()
      is := by
    intro is
    induction is with
    | nil => exact fun _ => trivial
    | cons i is ih => exact fun s => ⟨trivial, fun s' _ => ih s'⟩
  exact along_congr (R := fun s _ => R s) (fun s _ i hR _ => hiff s i hR)
    (fun s _ i s' hR _ hP hs => hkeep s i s' hR hP hs) hs (htrue is s)

theorem EachStep.last {step : σ → ι → Except ε σ} {P : σ → ι → Prop} {ok : σ → ι → Prop}
    [∀ s i, Decidable (ok s i)] {is : List ι} {i : ι} : ∀ {s s' : σ},
      EachStep step P s (is ++ [i]) → replay step ok is s = some s' → P s' i := by
  induction is with
  | nil =>
    intro s s' h hs
    cases hs
    exact h.1
  | cons j is ih =>
    intro s s' h hs
    rw [replay] at hs
    split at hs
    case isFalse => cases hs
    case isTrue hok =>
      split at hs
      case h_1 t ht => exact ih (h.2 t ht) hs
      case h_2 => cases hs

end Runs
