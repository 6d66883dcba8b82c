/-
Rendezvous: offers and requests that meet first come, first served.

The state of a rendezvous is its history alone: what was offered and what was
requested, each in order.  The `k`-th offer meets the `k`-th request; the offers
that found no request yet and the requests that found no offer yet are the rest
of the two lists.

* `items_or_waiters` — at most one side is waiting;
* `offer_waiting`, `offer_idle` — an offer meets the first waiting request, or
  waits itself;
* `request_waiting`, `request_idle` — the same for a request.
-/
import Mathlib

namespace Rendezvous

variable {α : Type*}

structure History (α : Type*) where
  offered : List α
  requested : List α

namespace History

/-- The offers that met no request yet. -/
def items (h : History α) : List α := h.offered.drop h.requested.length

/-- The requests that met no offer yet. -/
def waiters (h : History α) : List α := h.requested.drop h.offered.length

/-- The meetings so far, the offer first. -/
def served (h : History α) : List (α × α) := h.offered.zip h.requested

def offer (h : History α) (a : α) : History α := { h with offered := h.offered ++ [a] }

def request (h : History α) (r : α) : History α := { h with requested := h.requested ++ [r] }

/-- Offers and requests exchanged. -/
def swap (h : History α) : History α := ⟨h.requested, h.offered⟩

theorem items_or_waiters (h : History α) : h.items = [] ∨ h.waiters = [] := by
  simp only [items, waiters, List.drop_eq_nil_iff]
  omega

theorem offer_waiting {h : History α} {w : α} {ws : List α} (hw : h.waiters = w :: ws) (a : α) :
    (h.offer a).items = [] ∧ (h.offer a).waiters = ws ∧
      (h.offer a).served = h.served ++ [(a, w)] := by
  have hlt : h.offered.length < h.requested.length := by
    by_contra hle
    rw [waiters, List.drop_eq_nil_of_le (not_lt.mp hle)] at hw
    exact absurd hw (by simp)
  have hsplit : h.requested = h.requested.take h.offered.length ++ w :: ws := by
    rw [← hw, waiters, List.take_append_drop]
  have hlen : (h.requested.take h.offered.length).length = h.offered.length := by
    rw [List.length_take]
    omega
  refine ⟨?_, ?_, ?_⟩
  · simp only [items, offer, List.drop_eq_nil_iff, List.length_append, List.length_singleton]
    omega
  · rw [waiters] at hw
    simp only [waiters, offer, List.length_append, List.length_singleton]
    rw [← List.drop_drop, hw, List.drop_one, List.tail_cons]
  · have hzip : h.served = h.offered.zip (h.requested.take h.offered.length) := by
      rw [served, ← List.append_nil h.offered]
      nth_rewrite 1 [hsplit]
      rw [List.zip_append (by simp [hlen])]
      simp
    rw [hzip, served, offer]
    simp only
    nth_rewrite 1 [hsplit]
    rw [List.zip_append hlen.symm]
    simp

theorem offer_idle {h : History α} (hw : h.waiters = []) (a : α) :
    (h.offer a).items = h.items ++ [a] ∧ (h.offer a).waiters = [] ∧
      (h.offer a).served = h.served := by
  have hle : h.requested.length ≤ h.offered.length := List.drop_eq_nil_iff.mp hw
  refine ⟨?_, ?_, ?_⟩
  · rw [items, offer, List.drop_append_of_le_length hle]
    rfl
  · simp only [waiters, offer, List.drop_eq_nil_iff, List.length_append, List.length_singleton]
    omega
  · have hsplit : h.offered = h.offered.take h.requested.length ++ h.items :=
      (List.take_append_drop _ _).symm
    have hlen : (h.offered.take h.requested.length).length = h.requested.length := by
      rw [List.length_take]
      omega
    have hzip : ∀ l : List α, (h.offered.take h.requested.length ++ l).zip h.requested =
        (h.offered.take h.requested.length).zip h.requested := by
      intro l
      nth_rewrite 2 [← List.append_nil h.requested]
      rw [List.zip_append hlen]
      simp
    rw [served, served, offer, hsplit, List.append_assoc, hzip, hzip]

theorem swap_served (h : History α) : h.swap.served = h.served.map Prod.swap :=
  (List.zip_swap _ _).symm

theorem request_waiting {h : History α} {d : α} {ds : List α} (hd : h.items = d :: ds) (r : α) :
    (h.request r).items = ds ∧ (h.request r).waiters = [] ∧
      (h.request r).served = h.served ++ [(d, r)] := by
  obtain ⟨hi, hw, hs⟩ := offer_waiting (h := h.swap) hd r
  refine ⟨hw, hi, ?_⟩
  rw [show (h.request r).served = ((h.swap).offer r).swap.served from rfl, swap_served, hs,
    List.map_append, swap_served, List.map_map]
  simp

theorem request_idle {h : History α} (hd : h.items = []) (r : α) :
    (h.request r).items = [] ∧ (h.request r).waiters = h.waiters ++ [r] ∧
      (h.request r).served = h.served := by
  obtain ⟨hi, hw, hs⟩ := offer_idle (h := h.swap) hd r
  refine ⟨hw, hi, ?_⟩
  rw [show (h.request r).served = ((h.swap).offer r).swap.served from rfl, swap_served, hs,
    swap_served, List.map_map]
  simp

end History

end Rendezvous
