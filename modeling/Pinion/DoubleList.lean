/-
Doubly linked lists in memory.

A list is a pointer to its first node and two link functions on nodes.  The links of
nodes outside the list are arbitrary.

* `Path next first l` — following `next` from `first` one meets `l` and stops;
* `Linked next prev before first l` — the same, and every `prev` names the node before,
  `before` for the first one;
* `Linked.push` — a new first node;
* `Linked.pull` — a node is unlinked, wherever it stands.
-/
import Mathlib

namespace DoubleList

variable {α : Type*}

/-- Following `next` from `first` one meets `l` and stops. -/
def Path (next : α → Option α) : Option α → List α → Prop
  | first, [] => first = none
  | first, a :: l => first = some a ∧ Path next (next a) l

/-- The list `l`, linked both ways. -/
def Linked (next prev : α → Option α) : Option α → Option α → List α → Prop
  | _, first, [] => first = none
  | before, first, a :: l =>
    first = some a ∧ prev a = before ∧ Linked next prev (some a) (next a) l

variable {next next' prev prev' : α → Option α} {before first : Option α} {l l₁ l₂ : List α} {a : α}

theorem Path.congr (h : Path next first l) (hn : ∀ b ∈ l, next' b = next b) :
    Path next' first l := by
  induction l generalizing first with
  | nil => exact h
  | cons b l ih =>
    refine ⟨h.1, ?_⟩
    rw [hn b List.mem_cons_self]
    exact ih h.2 fun c hc => hn c (List.mem_cons_of_mem b hc)

theorem Path.head (h : Path next first l) : first = l.head? := by
  cases l with
  | nil => exact h
  | cons b l => exact h.1

/-- The links do not lead out of the list. -/
theorem Path.next_mem {b : α} (h : Path next first l) (ha : a ∈ l) (hb : next a = some b) :
    b ∈ l := by
  induction l generalizing first with
  | nil => cases ha
  | cons c l ih =>
    rcases List.mem_cons.mp ha with rfl | ha
    · have hfirst := h.2.head
      rw [hb] at hfirst
      exact List.mem_cons_of_mem _ (List.mem_of_mem_head? hfirst.symm)
    · exact List.mem_cons_of_mem _ (ih h.2 ha)

/-- The links and the first node fix the list. -/
theorem Path.unique (h : Path next first l) (h₁ : Path next first l₁) : l = l₁ := by
  induction l generalizing first l₁ with
  | nil =>
    cases l₁ with
    | nil => rfl
    | cons b l₁ => cases h₁.1.symm.trans h
  | cons a l ih =>
    cases l₁ with
    | nil => cases h.1.symm.trans h₁
    | cons b l₁ =>
      obtain ⟨rfl⟩ := Option.some.inj (h.1.symm.trans h₁.1)
      rw [ih h.2 h₁.2]

theorem Linked.congr (h : Linked next prev before first l) (hn : ∀ b ∈ l, next' b = next b)
    (hp : ∀ b ∈ l, prev' b = prev b) : Linked next' prev' before first l := by
  induction l generalizing before first with
  | nil => exact h
  | cons b l ih =>
    obtain ⟨hfirst, hprev, hrest⟩ := h
    refine ⟨hfirst, (hp b List.mem_cons_self).trans hprev, ?_⟩
    rw [hn b List.mem_cons_self]
    exact ih hrest (fun c hc => hn c (List.mem_cons_of_mem b hc))
      fun c hc => hp c (List.mem_cons_of_mem b hc)

theorem Linked.path (h : Linked next prev before first l) : Path next first l := by
  induction l generalizing before first with
  | nil => exact h
  | cons b l ih => exact ⟨h.1, ih h.2.2⟩

/-- The links of a member name its neighbours. -/
theorem Linked.neighbours (h : Linked next prev before first (l₁ ++ a :: l₂)) :
    next a = l₂.head? ∧ prev a = l₁.getLast?.or before := by
  induction l₁ generalizing before first with
  | nil => exact ⟨h.2.2.path.head, h.2.1⟩
  | cons b l₁ ih =>
    obtain ⟨hnext, hprev⟩ := ih h.2.2
    refine ⟨hnext, hprev.trans ?_⟩
    cases l₁ with
    | nil => rfl
    | cons c l₁ => rw [List.getLast?_cons_cons, List.getLast?_cons, Option.some_or, Option.some_or]

/-- **A new first node.** -/
theorem Linked.push [DecidableEq α] (h : Linked next prev none first l) (ha : a ∉ l)
    (hn : ∀ b, next' b = if b = a then first else next b)
    (hp : ∀ b, prev' b = if b = a then none else if first = some b then some a else prev b)
    (hnodup : l.Nodup) : Linked next' prev' none (some a) (a :: l) := by
  have hne : ∀ b ∈ l, b ≠ a := by
    rintro b hb rfl
    exact ha hb
  refine ⟨rfl, by rw [hp, if_pos rfl], ?_⟩
  rw [hn, if_pos rfl]
  cases l with
  | nil => exact h
  | cons b l =>
    obtain ⟨hfirst, -, hrest⟩ := h
    have hb := hne b List.mem_cons_self
    refine ⟨hfirst, by rw [hp, if_neg hb, if_pos hfirst], ?_⟩
    rw [hn, if_neg hb]
    refine hrest.congr (fun c hc => ?_) fun c hc => ?_
    · rw [hn, if_neg (hne c (List.mem_cons_of_mem b hc))]
    · -- the old first node is not met again
      have hcb : first ≠ some c := by
        rw [hfirst]
        rintro ⟨⟩
        exact (List.nodup_cons.mp hnodup).1 hc
      rw [hp, if_neg (hne c (List.mem_cons_of_mem b hc)), if_neg hcb]

/-- **A node is unlinked**: the node before it, or the first pointer, skips it, and the
node behind it names the node before it. -/
theorem Linked.pull [DecidableEq α] (h : Linked next prev before first (l₁ ++ a :: l₂))
    (hnodup : (l₁ ++ a :: l₂).Nodup) (hbefore : ∀ b, before = some b → b ∉ l₁ ++ a :: l₂)
    (hn : ∀ b ∈ l₁ ++ l₂, next' b = if prev a = some b then next a else next b)
    (hp : ∀ b ∈ l₁ ++ l₂, prev' b = if next a = some b then prev a else prev b) :
    Linked next' prev' before (if l₁ = [] then next a else first) (l₁ ++ l₂) := by
  induction l₁ generalizing before first with
  | nil =>
    obtain ⟨-, hprev, hrest⟩ := h
    have ha : ∀ b ∈ l₂, before ≠ some b :=
      fun b hb he => hbefore b he (List.mem_cons_of_mem a hb)
    rw [if_pos rfl, List.nil_append]
    rw [List.nil_append] at hn hp hnodup
    cases l₂ with
    | nil => exact hrest
    | cons r l₂ =>
      obtain ⟨hfirst, -, hrest⟩ := hrest
      have hr := List.mem_cons_self (a := r) (l := l₂)
      refine ⟨hfirst, by rw [hp r hr, if_pos hfirst, hprev], ?_⟩
      rw [hn r hr, hprev, if_neg (ha r hr)]
      refine hrest.congr (fun c hc => ?_) fun c hc => ?_
      · have hc' := List.mem_cons_of_mem r hc
        rw [hn c hc', hprev, if_neg (ha c hc')]
      · have hrc : next a ≠ some c := by
          rw [hfirst]
          rintro ⟨⟩
          exact (List.nodup_cons.mp (List.nodup_cons.mp hnodup).2).1 hc
        rw [hp c (List.mem_cons_of_mem r hc), if_neg hrc]
  | cons x l₁ ih =>
    obtain ⟨hfirst, hprev, hrest⟩ := h
    obtain ⟨hnext, hlast⟩ := hrest.neighbours
    rw [List.cons_append, List.nodup_cons] at hnodup
    obtain ⟨hx, hnodup⟩ := hnodup
    have hxa : next a ≠ some x := by
      rw [hnext]
      intro he
      exact hx (List.mem_append_right _ (List.mem_cons_of_mem a (List.mem_of_head? he)))
    have hxm : x ∈ x :: l₁ ++ l₂ := by simp
    have htail := ih hrest hnodup (by rintro b ⟨⟩; exact hx)
      (fun b hb => hn b (List.mem_cons_of_mem x hb)) fun b hb => hp b (List.mem_cons_of_mem x hb)
    rw [if_neg (by simp)]
    refine ⟨hfirst, by rw [hp x hxm, if_neg hxa, hprev], ?_⟩
    -- `x` stands before `a` exactly when nothing is left of `l₁`
    rw [hn x hxm]
    cases l₁ with
    | nil =>
      rw [if_pos rfl] at htail
      rw [if_pos (by rw [hlast]; rfl)]
      exact htail
    | cons y l₁ =>
      rw [if_neg (by simp)] at htail
      rw [if_neg]
      · exact htail
      · intro he
        rw [hlast] at he
        have hz : (y :: l₁).getLast? = some x := by
          rw [List.getLast?_cons, Option.some_or] at he
          rw [List.getLast?_cons]
          exact he
        have hmem := List.mem_of_getLast? hz
        exact hx (List.mem_append_left _ hmem)

end DoubleList
