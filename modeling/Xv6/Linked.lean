import Mathlib.Data.List.Basic
import Mathlib.Logic.Function.Basic

/-!
# Singly linked queues

A queue whose links are kept in its own elements: a pointer to the first element, and in every
element a pointer to the next.

* `Linked next head q`: following the links from `head` visits exactly `q`;
* a *slot* is a place that holds a pointer: `none` is the one that holds the first element, and
  `some a` the link of `a`; `slotValue` reads it and `setHead`, `setNext` write it;
* `Linked.from_slot`: what is behind the slot that follows a part of the queue is the rest of it;
* `Linked.append`: **writing to the last slot appends**, as a walk to the end of the queue does.
-/

namespace Xv6

open Function List

universe u

variable {ι : Type u} {next next' : ι → Option ι} {head : Option ι} {q q1 q2 : List ι} {a : ι}

/-- The links from `head` visit exactly `q`. -/
def Linked (next : ι → Option ι) : Option ι → List ι → Prop
  | head, [] => head = none
  | head, a :: q => head = some a ∧ Linked next (next a) q

/-- The pointer in a slot. -/
def slotValue (next : ι → Option ι) (head : Option ι) : Option ι → Option ι
  | none => head
  | some a => next a

/-- The first element after a pointer is written to a slot. -/
def setHead (head : Option ι) (slot : Option ι) (value : Option ι) : Option ι :=
  if slot.isNone then value else head

/-- The links after a pointer is written to a slot. -/
def setNext [DecidableEq ι] (next : ι → Option ι) (slot : Option ι) (value : Option ι) :
    ι → Option ι :=
  match slot with
  | none => next
  | some a => update next a value

namespace Linked

theorem head_eq (h : Linked next head q) : head = q.head? := by
  cases q with
  | nil => exact h
  | cons a q => exact h.1

/-- Only the links of the queue's own elements matter. -/
theorem congr (h : Linked next head q) (hn : ∀ a ∈ q, next' a = next a) : Linked next' head q := by
  induction q generalizing head with
  | nil => exact h
  | cons a q ih =>
    refine ⟨h.1, ?_⟩
    rw [hn a mem_cons_self]
    exact ih h.2 fun b hb => hn b (mem_cons_of_mem _ hb)

theorem from_slot (h : Linked next head (q1 ++ q2)) :
    Linked next (slotValue next head q1.getLast?) q2 := by
  induction q1 generalizing head with
  | nil => exact h
  | cons a q1 ih =>
    have h2 := ih h.2
    cases q1 with
    | nil => exact h2
    | cons b q1 =>
      rw [getLast?_cons_cons]
      rcases hl : (b :: q1).getLast? with _ | l
      · simp at hl
      · rw [hl] at h2
        exact h2

variable [DecidableEq ι]

theorem append (h : Linked next head q) (hq : (q ++ [a]).Nodup) (ha : next a = none) :
    Linked (setNext next q.getLast? (some a)) (setHead head q.getLast? (some a)) (q ++ [a]) := by
  induction q generalizing head with
  | nil => exact ⟨rfl, ha⟩
  | cons b q ih =>
    obtain ⟨hb, hq'⟩ := nodup_cons.mp hq
    have hsome : ∃ l, (b :: q).getLast? = some l := ⟨_, getLast?_eq_getLast_of_ne_nil (by simp)⟩
    obtain ⟨l, hl⟩ := hsome
    refine ⟨by rw [hl]; exact h.1, ?_⟩
    cases q with
    | nil =>
      obtain rfl : b = l := Option.some.inj hl
      have hab : a ≠ b := fun he => hb (by simp [he])
      refine ⟨update_self .., ?_⟩
      show update next b (some a) a = none
      rw [update_of_ne hab, ha]
    | cons c q =>
      rw [getLast?_cons_cons] at hl ⊢
      have h2 := ih h.2 hq'
      rw [hl] at h2 ⊢
      -- the first element is not the last one, so its link is kept
      have hbl : b ≠ l := fun he => hb (by
        rw [he]
        exact mem_append_left _ (mem_of_mem_getLast? hl))
      show Linked _ (update next l (some a) b) _
      rw [update_of_ne hbl]
      exact h2

end Linked

end Xv6
