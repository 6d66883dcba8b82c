/-
Singly linked queues in memory.

A queue is a pointer to its first node, a pointer to its last node and a link
function `next` on nodes.  Nodes outside the queue carry arbitrary links.

* `Loose next first last l` — the queue holds the duplicate-free list `l`; the
  link of the last node may be anything;
* `Rep next first last l` — the same, and the last link is null;
* `Reach next p a` — following links from `p` one meets `a`;
* `Rep.push`, `Loose.push`, `Rep.pop`, `Loose.pop`, `Rep.removeAfter` — append,
  drop the first node, unlink a node behind another;
* `Rep.pushAny` — appending a node that is already in the queue cuts the queue
  behind it;
* `Rep.reach_iff`, `Rep.walk_iff`, `Rep.follow_eq` — the nodes met from the front
  are the members, in order;
* `Terminates next a` — following links from `a` one comes to a null link, also after
  `push` and `unlink`.
-/
import Mathlib

namespace LinkedQueue

variable {α : Type*}

/-- The queue from `first` to `last` holds `l`; the link of the last node is
free. -/
structure Loose (next : α → Option α) (first last : Option α) (l : List α) : Prop where
  first_eq : first = l.head?
  last_eq : last = l.getLast?
  links : l.IsChain fun a b => next a = some b
  nodup : l.Nodup

/-- The queue from `first` to `last` holds `l` and ends with a null link. -/
structure Rep (next : α → Option α) (first last : Option α) (l : List α) : Prop extends
    Loose next first last l where
  ends : ∀ a, l.getLast? = some a → next a = none

/-- Following links from `p` one meets `a`. -/
inductive Reach (next : α → Option α) : Option α → α → Prop
  | here (a : α) : Reach next (some a) a
  | there {a b : α} : Reach next (next a) b → Reach next (some a) b

theorem Rep.empty (next : α → Option α) : Rep next none none [] :=
  ⟨⟨rfl, rfl, List.isChain_nil, List.nodup_nil⟩, fun _ h => absurd h (by simp)⟩

theorem Loose.eq_nil {next : α → Option α} {last : Option α} {l : List α}
    (h : Loose next none last l) : l = [] :=
  List.head?_eq_none_iff.mp h.first_eq.symm

theorem Loose.eq_nil_of_last {next : α → Option α} {first : Option α} {l : List α}
    (h : Loose next first none l) : l = [] :=
  List.getLast?_eq_none_iff.mp h.last_eq.symm

theorem Loose.exists_cons {next : α → Option α} {a : α} {last : Option α} {l : List α}
    (h : Loose next (some a) last l) : ∃ l', l = a :: l' := by
  cases l with
  | nil => exact absurd h.first_eq (by simp)
  | cons b l' =>
    have hab : a = b := by simpa using h.first_eq
    exact ⟨l', by rw [hab]⟩

theorem Loose.mem_last {next : α → Option α} {first : Option α} {b : α} {l : List α}
    (h : Loose next first (some b) l) : b ∈ l :=
  List.mem_of_getLast? h.last_eq.symm

theorem Loose.first_mem {next : α → Option α} {a : α} {last : Option α} {l : List α}
    (h : Loose next (some a) last l) : a ∈ l :=
  List.mem_of_head? h.first_eq.symm

/-! ### Frame rules -/

/-- Only the links of the members matter. -/
theorem Loose.congr {next next' : α → Option α} {first last : Option α} {l : List α}
    (h : Loose next first last l) (hn : ∀ a ∈ l, next' a = next a) :
    Loose next' first last l := by
  refine ⟨h.first_eq, h.last_eq, ?_, h.nodup⟩
  refine h.links.imp_of_mem_imp fun a b ha _ hab => ?_
  rw [hn a ha]
  exact hab

theorem Rep.congr {next next' : α → Option α} {first last : Option α} {l : List α}
    (h : Rep next first last l) (hn : ∀ a ∈ l, next' a = next a) :
    Rep next' first last l := by
  refine ⟨h.toLoose.congr hn, fun a ha => ?_⟩
  rw [hn a (List.mem_of_getLast? ha)]
  exact h.ends a ha

/-! ### The first node -/

theorem Rep.next_first {next : α → Option α} {first last : Option α} {a : α} {l : List α}
    (h : Rep next first last (a :: l)) : next a = l.head? := by
  cases l with
  | nil => exact h.ends a (by simp)
  | cons b l => exact (List.isChain_cons_cons.mp h.links).1

theorem Loose.next_first {next : α → Option α} {first last : Option α} {a b : α} {l : List α}
    (h : Loose next first last (a :: b :: l)) : next a = some b :=
  (List.isChain_cons_cons.mp h.links).1

/-- Dropping the first node of a queue of at least two. -/
theorem Loose.pop {next : α → Option α} {first last : Option α} {a : α} {l : List α}
    (h : Loose next first last (a :: l)) (hl : l ≠ []) :
    Loose next l.head? last l := by
  obtain ⟨b, l', rfl⟩ := List.exists_cons_of_ne_nil hl
  refine ⟨rfl, ?_, (List.isChain_cons_cons.mp h.links).2, (List.nodup_cons.mp h.nodup).2⟩
  rw [h.last_eq, List.getLast?_cons_cons]

/-- Dropping the first node; when no node follows, the last pointer is
cleared too. -/
theorem Rep.pop [DecidableEq α] {next : α → Option α} {first last : Option α} {a : α}
    {l : List α} (h : Rep next first last (a :: l)) :
    Rep next (next a) (if next a = none then none else last) l := by
  rw [h.next_first]
  cases l with
  | nil => simpa using Rep.empty next
  | cons b l =>
    rw [if_neg (by simp)]
    refine ⟨h.toLoose.pop (by simp), fun c hc => h.ends c ?_⟩
    rwa [List.getLast?_cons_cons]

/-- Moving the front to a link `n` drops the first node exactly when `n` names
the second one. -/
theorem Loose.advance_iff [DecidableEq α] {next : α → Option α} {first last n : Option α} {a : α}
    {l : List α} (h : Loose next first last (a :: l)) :
    Loose next n (if n = none then none else last) l ↔ n = l.head? := by
  refine ⟨fun hl => hl.first_eq, fun hn => ?_⟩
  subst hn
  cases l with
  | nil => exact (Rep.empty next).toLoose
  | cons b l =>
    rw [if_neg (by simp)]
    exact h.pop (by simp)

/-- The first node is the last one exactly when no node follows. -/
theorem Loose.last_eq_first_iff {next : α → Option α} {first last : Option α} {a : α} {l : List α}
    (h : Loose next first last (a :: l)) : last = some a ↔ l = [] := by
  rw [h.last_eq]
  cases l with
  | nil => simp
  | cons b l =>
    have ha : a ∉ b :: l := (List.nodup_cons.mp h.nodup).1
    rw [List.getLast?_cons_cons]
    exact iff_of_false (fun hl => ha (List.mem_of_getLast? hl)) (by simp)

/-! ### Appending -/

/-- Appending to a nonempty queue. -/
theorem Loose.push {next next' : α → Option α} {first : Option α} {a b : α} {l : List α}
    (h : Loose next first (some b) l) (ha : a ∉ l) (hb : next' b = some a)
    (hn : ∀ c ∈ l, c ≠ b → next' c = next c) :
    Loose next' first (some a) (l ++ [a]) := by
  obtain ⟨l', rfl⟩ := List.getLast?_eq_some_iff.mp h.last_eq.symm
  obtain ⟨hl', -, hdis⟩ := List.nodup_append.mp h.nodup
  obtain ⟨hc, -, hlast⟩ := List.isChain_append.mp h.links
  -- the links inside `l'` are untouched, since `b` occurs only at the end
  have hne : ∀ c ∈ l', c ≠ b := fun c hcl => hdis c hcl b (by simp)
  have hold : ∀ c ∈ l', next' c = next c := fun c hcl =>
    hn c (List.mem_append_left _ hcl) (hne c hcl)
  have hchain : (l' ++ [b]).IsChain fun x y => next' x = some y := by
    refine List.isChain_append.mpr ⟨?_, List.isChain_singleton _, fun x hx y hy => ?_⟩
    · exact hc.imp_of_mem_imp fun x y hx _ hxy => (hold x hx).trans hxy
    · exact (hold x (List.mem_of_getLast? hx)).trans (hlast x hx y hy)
  refine ⟨?_, by simp, ?_, ?_⟩
  · rw [h.first_eq]
    cases l' <;> simp
  · refine List.isChain_append.mpr ⟨hchain, List.isChain_singleton _, fun x hx y hy => ?_⟩
    simp only [List.getLast?_concat, Option.mem_def, Option.some.injEq, List.head?_cons] at hx hy
    rw [← hx, ← hy]
    exact hb
  · exact List.nodup_append.mpr ⟨h.nodup, List.nodup_singleton a, fun x hx y hy =>
      fun hxy => ha (by rw [List.mem_singleton] at hy; rwa [← hy, ← hxy])⟩

/-- A single node is a queue, whatever its link. -/
theorem Loose.single (next : α → Option α) (a : α) : Loose next (some a) (some a) [a] :=
  ⟨rfl, rfl, List.isChain_singleton a, List.nodup_singleton a⟩

theorem Rep.single {next : α → Option α} {a : α} (h : next a = none) :
    Rep next (some a) (some a) [a] :=
  ⟨Loose.single next a, fun b hb => by
    have : a = b := by simpa using hb
    rw [← this]; exact h⟩

/-- Appending a node and clearing its link. -/
theorem Rep.push [DecidableEq α] {next next' : α → Option α} {first last : Option α} {a : α}
    {l : List α} (h : Rep next first last l) (ha : a ∉ l)
    (hn : ∀ c, next' c = if c = a then none else if last = some c then some a else next c) :
    Rep next' (if last = none then some a else first) (some a) (l ++ [a]) := by
  have hna : next' a = none := by rw [hn, if_pos rfl]
  cases hl : last with
  | none =>
    subst hl
    rw [h.toLoose.eq_nil_of_last]
    exact Rep.single hna
  | some b =>
    subst hl
    have hba : b ≠ a := fun hab => ha (hab ▸ h.toLoose.mem_last)
    refine ⟨?_, fun c hc => ?_⟩
    · refine h.toLoose.push ha (by rw [hn, if_neg hba, if_pos rfl]) fun c hc hcb => ?_
      have hca : c ≠ a := fun hca => ha (hca ▸ hc)
      rw [hn, if_neg hca, if_neg (fun h => hcb (Option.some.inj h).symm)]
    · have : a = c := by simpa using hc
      rw [← this]; exact hna

/-- The part of a queue up to one of its nodes. -/
theorem Loose.cut {next : α → Option α} {first last : Option α} {a : α} {l₁ l₂ : List α}
    (h : Loose next first last (l₁ ++ a :: l₂)) : Loose next first (some a) (l₁ ++ [a]) := by
  have hsplit : l₁ ++ a :: l₂ = (l₁ ++ [a]) ++ l₂ := by simp
  refine ⟨?_, by simp, ?_, ?_⟩
  · rw [h.first_eq]
    cases l₁ <;> simp
  · have hlinks := h.links
    rw [hsplit] at hlinks
    exact (List.isChain_append.mp hlinks).1
  · have hnd := h.nodup
    rw [hsplit] at hnd
    exact (List.nodup_append.mp hnd).1

/-- Appending a node that may already be in the queue: what stood behind it is
cut off. -/
theorem Rep.pushAny [DecidableEq α] {next next' : α → Option α} {first last : Option α}
    {a : α} {l : List α} (h : Rep next first last l)
    (hn : ∀ c, next' c = if c = a then none else if last = some c then some a else next c) :
    Rep next' (if last = none then some a else first) (some a)
      (l.takeWhile (· ≠ a) ++ [a]) := by
  by_cases ha : a ∈ l
  · obtain ⟨l₁, l₂, rfl⟩ := List.append_of_mem ha
    obtain ⟨-, -, hdis⟩ := List.nodup_append.mp h.nodup
    have hl₁ : ∀ c ∈ l₁, c ≠ a := fun c hc => hdis c hc a (by simp)
    have htake : (l₁ ++ a :: l₂).takeWhile (· ≠ a) = l₁ := by
      rw [List.takeWhile_append_of_pos fun c hc => by simpa using hl₁ c hc]
      simp
    rw [htake]
    have hlast : last ≠ none := by
      rw [h.last_eq]
      simp
    rw [if_neg hlast]
    -- the last node stands at `a` or behind it, so the links before `a` are kept
    have hb : ∀ c ∈ l₁, last ≠ some c := by
      intro c hc hlc
      have hmem : c ∈ a :: l₂ := by
        have hsome : (a :: l₂).getLast? = some c := by
          rw [← h.last_eq.symm.trans hlc, List.getLast?_append_cons]
        exact List.mem_of_getLast? hsome
      exact hdis c hc c hmem rfl
    have hna : next' a = none := by rw [hn, if_pos rfl]
    refine ⟨⟨h.toLoose.cut.first_eq, by simp, ?_, h.toLoose.cut.nodup⟩, fun c hc => ?_⟩
    · obtain ⟨hc₁, -, hlk⟩ := List.isChain_append.mp h.toLoose.cut.links
      have hold : ∀ c ∈ l₁, next' c = next c := fun c hc => by
        rw [hn, if_neg (hl₁ c hc), if_neg (hb c hc)]
      refine List.isChain_append.mpr ⟨?_, List.isChain_singleton _, fun x hx y hy => ?_⟩
      · exact hc₁.imp_of_mem_imp fun x y hx _ hxy => (hold x hx).trans hxy
      · exact (hold x (List.mem_of_getLast? hx)).trans (hlk x hx y hy)
    · have : a = c := by simpa using hc
      rw [← this]; exact hna
  · have hall : l.takeWhile (· ≠ a) = l := by
      refine List.takeWhile_eq_self_iff.mpr fun c hc => ?_
      have hca : c ≠ a := fun hca => ha (hca ▸ hc)
      simpa using hca
    rw [hall]
    exact h.push ha hn

/-! ### Unlinking -/

/-- Unlinking the node `a` behind `p`. -/
theorem Rep.removeAfter [DecidableEq α] {next next' : α → Option α} {first last : Option α}
    {p a : α} {l₁ l₂ : List α} (h : Rep next first last (l₁ ++ p :: a :: l₂))
    (hn : ∀ c, next' c = if c = p then next a else next c) :
    Rep next' first (if last = some a then some p else last) (l₁ ++ p :: l₂) := by
  have hnd := h.nodup
  have hp₁ : p ∉ l₁ := by grind
  have hp₂ : p ∉ l₂ := by grind
  have ha₂ : a ∉ l₂ := by grind
  obtain ⟨hc₁, hc₂, hlk⟩ := List.isChain_append.mp h.links
  have hc₃ := (List.isChain_cons_cons.mp hc₂).2
  have hold : ∀ c, c ≠ p → next' c = next c := fun c hc => by rw [hn, if_neg hc]
  have hnew : next' p = next a := by rw [hn, if_pos rfl]
  have hkeep₁ : l₁.IsChain fun x y => next' x = some y :=
    hc₁.imp_of_mem_imp fun x y hx _ hxy => (hold x (fun h => hp₁ (h ▸ hx))).trans hxy
  have hkeep₂ : l₂.IsChain fun x y => next' x = some y :=
    (List.isChain_cons.mp hc₃).2.imp_of_mem_imp
      fun x y hx _ hxy => (hold x (fun h => hp₂ (h ▸ hx))).trans hxy
  refine ⟨⟨?_, ?_, ?_, ?_⟩, fun c hc => ?_⟩
  · rw [h.first_eq]
    cases l₁ <;> simp
  · rw [h.last_eq]
    cases l₂ with
    | nil => simp
    | cons b l₂ =>
      have hne : (l₁ ++ p :: a :: b :: l₂).getLast? ≠ some a := by
        intro hlast
        have : (b :: l₂).getLast? = some a := by
          rw [← hlast, List.getLast?_append_cons, List.getLast?_cons_cons, List.getLast?_cons_cons]
        exact ha₂ (List.mem_of_getLast? this)
      rw [if_neg hne]
      simp only [List.getLast?_append_cons, List.getLast?_cons_cons]
  · refine List.isChain_append.mpr ⟨hkeep₁, List.isChain_cons.mpr ⟨fun y hy => ?_, hkeep₂⟩, ?_⟩
    · rw [hnew]
      exact (List.isChain_cons.mp hc₃).1 y hy
    · intro x hx y hy
      rw [hold x (fun h => hp₁ (h ▸ List.mem_of_getLast? hx))]
      exact hlk x hx y (by simpa using hy)
  · grind
  · cases l₂ with
    | nil =>
      have hpc : p = c := by simpa using hc
      rw [← hpc, hnew]
      exact h.ends a (by simp)
    | cons b l₂ =>
      have hlast : (b :: l₂).getLast? = some c := by
        rw [← hc, List.getLast?_append_cons, List.getLast?_cons_cons]
      rw [hold c (fun h => hp₂ (h ▸ List.mem_of_getLast? hlast))]
      refine h.ends c ?_
      simp only [← hlast, List.getLast?_append_cons, List.getLast?_cons_cons]

/-! ### Reachability -/

/-- The nodes reachable in a queue are its members. -/
theorem Rep.reach_iff [DecidableEq α] {next : α → Option α} {first last : Option α}
    {l : List α} {a : α} (h : Rep next first last l) : Reach next first a ↔ a ∈ l := by
  induction l generalizing first last with
  | nil =>
    rw [h.first_eq]
    refine ⟨fun hr => ?_, fun hm => absurd hm List.not_mem_nil⟩
    nomatch hr
  | cons b l ih =>
    have hfirst : first = some b := h.first_eq
    rw [hfirst, List.mem_cons, ← ih h.pop]
    constructor
    · intro hr
      cases hr with
      | here => exact Or.inl rfl
      | there hr => exact Or.inr hr
    · rintro (rfl | hr)
      · exact .here a
      · exact .there hr

/-- Whether a walk of `n` steps from `p` meets `a`. -/
def walk [DecidableEq α] (next : α → Option α) (a : α) : ℕ → Option α → Bool
  | 0, _ => false
  | _ + 1, none => false
  | n + 1, some b => b = a || walk next a n (next b)

theorem Rep.walk_iff [DecidableEq α] {next : α → Option α} {first last : Option α} {l : List α}
    {a : α} {n : ℕ} (h : Rep next first last l) (hn : l.length ≤ n) :
    walk next a n first = true ↔ a ∈ l := by
  induction l generalizing first last n with
  | nil =>
    have hnone : first = none := h.first_eq
    subst hnone
    cases n <;> simp [walk]
  | cons b l ih =>
    have hfirst : first = some b := h.first_eq
    subst hfirst
    obtain ⟨n, rfl⟩ : ∃ m, n = m + 1 := ⟨n - 1, by simp at hn; omega⟩
    rw [walk, Bool.or_eq_true, decide_eq_true_eq, ih h.pop (by simpa using hn), List.mem_cons,
      eq_comm]

/-- The first `n` nodes met from `p`. -/
def follow (next : α → Option α) : ℕ → Option α → List α
  | 0, _ => []
  | _ + 1, none => []
  | n + 1, some a => a :: follow next n (next a)

theorem exists_mem_follow {next : α → Option α} {p : Option α} {a : α} :
    (∃ n, a ∈ follow next n p) ↔ Reach next p a := by
  constructor
  · rintro ⟨n, hn⟩
    induction n generalizing p with
    | zero => exact absurd hn List.not_mem_nil
    | succ n ih =>
      cases p with
      | none => exact absurd hn List.not_mem_nil
      | some b =>
        rcases List.mem_cons.mp hn with rfl | hn
        · exact .here a
        · exact .there (ih hn)
  · intro h
    induction h with
    | here a => exact ⟨1, List.mem_cons_self⟩
    | there _ ih =>
      obtain ⟨n, hn⟩ := ih
      exact ⟨n + 1, List.mem_cons_of_mem _ hn⟩

/-- Following a queue runs through the list it holds. -/
theorem Rep.follow_eq [DecidableEq α] {next : α → Option α} {first last : Option α} {l : List α}
    (h : Rep next first last l) (n : ℕ) : follow next n first = l.take n := by
  induction l generalizing first last n with
  | nil =>
    have hnone : first = none := h.first_eq
    subst hnone
    cases n <;> rfl
  | cons a l ih =>
    have hfirst : first = some a := h.first_eq
    subst hfirst
    cases n with
    | zero => rfl
    | succ n => rw [follow, ih h.pop, List.take_succ_cons]

/-- A queue holds one list only. -/
theorem Rep.unique [DecidableEq α] {next : α → Option α} {first last last' : Option α}
    {l l' : List α} (h : Rep next first last l) (h' : Rep next first last' l') : l = l' := by
  induction l generalizing first last last' l' with
  | nil =>
    have hnone : first = none := h.first_eq
    subst hnone
    exact h'.toLoose.eq_nil.symm
  | cons a l ih =>
    have hfirst : first = some a := h.first_eq
    subst hfirst
    obtain ⟨m, rfl⟩ := h'.toLoose.exists_cons
    rw [ih h.pop h'.pop]

/-! ### Links that come to an end -/

/-- Following links from `a` one comes to a null link. -/
inductive Terminates (next : α → Option α) : α → Prop
  | last {a : α} : next a = none → Terminates next a
  | link {a b : α} : next a = some b → Terminates next b → Terminates next a

section Terminates

variable {next next' : α → Option α} {first last : Option α} {a b t : α} {l : List α}

/-- The link of a member is null or leads behind the first node. -/
theorem Rep.next_mem [DecidableEq α] (h : Rep next first last (b :: l)) (ha : a ∈ b :: l) :
    next a = none ∨ ∃ c ∈ l, next a = some c := by
  induction l generalizing b first last with
  | nil =>
    obtain rfl : a = b := List.mem_singleton.mp ha
    exact .inl h.next_first
  | cons d l ih =>
    rcases List.mem_cons.mp ha with rfl | ha
    · exact .inr ⟨d, List.mem_cons_self, h.next_first⟩
    · rcases ih h.pop ha with hn | ⟨c, hc, hn⟩
      · exact .inl hn
      · exact .inr ⟨c, List.mem_cons_of_mem d hc, hn⟩

/-- The nodes met on the way are the members of a queue. -/
theorem Terminates.exists_rep [DecidableEq α] (h : Terminates next a) :
    ∃ last l, Rep next (some a) last (a :: l) := by
  induction h with
  | @last a hn =>
    refine ⟨some a, [], ⟨⟨rfl, rfl, .singleton a, List.nodup_singleton a⟩, fun c hc => ?_⟩⟩
    cases hc
    exact hn
  | @link a b hn _ ih =>
    obtain ⟨last, l, hl⟩ := ih
    have hb : b ∉ l := (List.nodup_cons.mp hl.nodup).1
    -- a link back to the first node would close a circle
    have ha : a ∉ b :: l := by
      intro ha
      rcases hl.next_mem ha with hnone | ⟨c, hc, hsome⟩
      · rw [hn] at hnone
        cases hnone
      · rw [hn] at hsome
        cases hsome
        exact hb hc
    refine ⟨last, b :: l, ⟨⟨rfl, ?_, ?_, List.nodup_cons.mpr ⟨ha, hl.nodup⟩⟩, fun c hc => ?_⟩⟩
    · rw [List.getLast?_cons_cons]
      exact hl.last_eq
    · exact List.isChain_cons_cons.mpr ⟨hn, hl.links⟩
    · rw [List.getLast?_cons_cons] at hc
      exact hl.ends c hc

/-- Appending behind the last node, wherever that is. -/
theorem Terminates.push [DecidableEq α] (h : Terminates next a)
    (hn : ∀ c, next' c = if c = t then none else if last = some c then some t else next c) :
    Terminates next' a := by
  have ht : Terminates next' t := .last (by rw [hn, if_pos rfl])
  have hstop : ∀ c, c = t ∨ last = some c → Terminates next' c := by
    intro c hc
    by_cases hct : c = t
    · exact hct ▸ ht
    · exact .link (by rw [hn, if_neg hct, if_pos (hc.resolve_left hct)]) ht
  induction h with
  | @last a hlast =>
    by_cases hc : a = t ∨ last = some a
    · exact hstop a hc
    · obtain ⟨hat, hal⟩ := not_or.mp hc
      exact .last (by rw [hn, if_neg hat, if_neg hal, hlast])
  | @link a b hlink _ ih =>
    by_cases hc : a = t ∨ last = some a
    · exact hstop a hc
    · obtain ⟨hat, hal⟩ := not_or.mp hc
      exact .link (by rw [hn, if_neg hat, if_neg hal, hlink]) ih

/-- Unlinking the node behind `b`. -/
theorem Terminates.unlink [DecidableEq α] (h : Terminates next a) (hb : next b = some t)
    (hn : ∀ c, next' c = if c = b then next t else next c) : Terminates next' a := by
  induction h with
  | @last a hlast =>
    have hab : a ≠ b := by
      rintro rfl
      rw [hb] at hlast
      cases hlast
    exact .last (by rw [hn, if_neg hab, hlast])
  | @link a c hlink _ ih =>
    by_cases hab : a = b
    · subst hab
      obtain rfl : t = c := Option.some.inj (hb.symm.trans hlink)
      -- the link of the unlinked node goes where its own link went
      by_cases hta : t = a
      · exact hta ▸ ih
      · have hskip : next' a = next' t := by rw [hn, if_pos rfl, hn t, if_neg hta]
        cases ih with
        | last hnone => exact .last (hskip.trans hnone)
        | link hsome hrest => exact .link (hskip.trans hsome) hrest
    · exact .link (by rw [hn, if_neg hab, hlink]) ih

end Terminates

end LinkedQueue
