import Mathlib.Algebra.BigOperators.Group.Finset.Piecewise
import Mathlib.Data.Finset.Card

/-!
# Counting under a change at one place

Tables of a kernel are counted again and again: how many entries refer to an object, how many are
in use. When one entry changes, the count changes by what that entry contributed before and
contributes now.
-/

namespace Xv6

variable {ι : Type*} {s : Finset ι}

/-- If two functions agree but at `p`, their sums differ by what they say about `p`. -/
theorem sum_change [DecidableEq ι] {f g : ι → ℕ} {p : ι} (hp : p ∈ s)
    (h : ∀ q ∈ s, q ≠ p → g q = f q) : ∑ q ∈ s, g q + f p = ∑ q ∈ s, f q + g p := by
  rw [← Finset.add_sum_erase s g hp, ← Finset.add_sum_erase s f hp]
  have hrest : ∑ q ∈ s.erase p, g q = ∑ q ∈ s.erase p, f q :=
    Finset.sum_congr rfl fun q hq => by
      obtain ⟨hqp, hq⟩ := Finset.mem_erase.mp hq
      exact h q hq hqp
  rw [hrest]
  omega

/-- If two predicates agree but at `p`, their counts differ by what they say about `p`. -/
theorem card_filter_change [DecidableEq ι] {P R : ι → Prop} [DecidablePred P]
    [DecidablePred R] {p : ι} (hp : p ∈ s) (h : ∀ q ∈ s, q ≠ p → (R q ↔ P q)) :
    (s.filter R).card + (if P p then 1 else 0) = (s.filter P).card + (if R p then 1 else 0) := by
  rw [Finset.card_filter, Finset.card_filter]
  exact sum_change hp fun q hq hqp => if_congr (h q hq hqp) rfl rfl

theorem card_filter_pos {P : ι → Prop} [DecidablePred P] {p : ι} (hp : p ∈ s)
    (h : P p) : 0 < (s.filter P).card :=
  Finset.card_pos.mpr ⟨p, Finset.mem_filter.mpr ⟨hp, h⟩⟩

/-! ## Pairs -/

/-- The number of pairs below `n` and `m` that satisfy `P`. -/
def countPairs (n m : ℕ) (P : ℕ → ℕ → Prop) [∀ i j, Decidable (P i j)] : ℕ :=
  ((Finset.range n ×ˢ Finset.range m).filter fun x => P x.1 x.2).card

variable {n m p q : ℕ} {P R : ℕ → ℕ → Prop} [∀ i j, Decidable (P i j)] [∀ i j, Decidable (R i j)]

theorem countPairs_change (hp : p < n) (hq : q < m)
    (h : ∀ i j, ¬(i = p ∧ j = q) → (R i j ↔ P i j)) :
    countPairs n m R + (if P p q then 1 else 0) = countPairs n m P + (if R p q then 1 else 0) :=
  card_filter_change (p := (p, q))
    (Finset.mk_mem_product (Finset.mem_range.mpr hp) (Finset.mem_range.mpr hq))
    fun x _ hx => h x.1 x.2 fun hc => hx (Prod.ext hc.1 hc.2)

theorem countPairs_pos (hp : p < n) (hq : q < m) (h : P p q) : 0 < countPairs n m P :=
  card_filter_pos (p := (p, q))
    (Finset.mk_mem_product (Finset.mem_range.mpr hp) (Finset.mem_range.mpr hq)) h

theorem countPairs_congr (h : ∀ i j, P i j ↔ R i j) : countPairs n m P = countPairs n m R :=
  congrArg Finset.card (Finset.filter_congr fun x _ => h x.1 x.2)

/-- A permutation of a set does not change how many of its members satisfy a condition. -/
theorem card_filter_image {α : Type*} [DecidableEq α] {S : Finset α} {g : α → α} {P Q : α → Prop}
    [DecidablePred P] [DecidablePred Q] (himage : S.image g = S) (h : ∀ x, P x ↔ Q (g x)) :
    (S.filter P).card = (S.filter Q).card := by
  have hinj : Set.InjOn g S := Finset.card_image_iff.mp (by rw [himage])
  have hset : S.filter Q = (S.filter P).image g := by
    conv_lhs => rw [← himage, Finset.filter_image]
    simp only [h]
  rw [hset, Finset.card_image_of_injOn
    (hinj.mono (Finset.coe_subset.mpr (Finset.filter_subset ..)))]

end Xv6
