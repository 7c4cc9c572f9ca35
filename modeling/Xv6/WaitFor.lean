import Mathlib.Logic.Relation
import Mathlib.Order.Defs.PartialOrder

/-!
# Waiting in a circle

Parties hold resources and wait for resources that others hold; a resource may have several
holders. A *deadlock* is a circle of parties of which each waits for a resource that the next one
holds. `not_deadlock` is the classical rule: **if every party waits only for a resource above all
those it holds, there is no deadlock.**
-/

namespace Xv6

universe u v w

variable {ι : Type u} {ρ : Type v} {α : Type w}

/-- Party `a` waits for a resource that party `b` holds. -/
def WaitsFor (wants : ι → Option ρ) (holds : ι → ρ → Prop) (a b : ι) : Prop :=
  ∃ l, wants a = some l ∧ holds b l

/-- Some party waits, through others or directly, for itself. -/
def Deadlock (wants : ι → Option ρ) (holds : ι → ρ → Prop) : Prop :=
  ∃ a, Relation.TransGen (WaitsFor wants holds) a a

variable {wants : ι → Option ρ} {holds : ι → ρ → Prop}

/-- Two parties that wait for each other are in a deadlock. -/
theorem deadlock_of_two {a b : ι} (hab : WaitsFor wants holds a b)
    (hba : WaitsFor wants holds b a) : Deadlock wants holds :=
  ⟨a, .tail (.single hab) hba⟩

/-- Along a chain of waiting parties, what they wait for goes up. -/
theorem rank_lt_of_transGen [Preorder α] {rank : ρ → α}
    (h : ∀ a l m, wants a = some l → holds a m → rank m < rank l) {a b : ι} {m : ρ}
    (hab : Relation.TransGen (WaitsFor wants holds) a b) (hb : wants b = some m) :
    ∃ l, wants a = some l ∧ rank l < rank m := by
  induction hab using Relation.TransGen.head_induction_on with
  | single hab =>
    obtain ⟨l, hl, hbl⟩ := hab
    exact ⟨l, hl, h _ _ _ hb hbl⟩
  | head hac _ ih =>
    obtain ⟨l, hl, hcl⟩ := hac
    obtain ⟨l', hl', hlt⟩ := ih
    exact ⟨l, hl, lt_trans (h _ _ _ hl' hcl) hlt⟩

/-- **The order rule.** -/
theorem not_deadlock [Preorder α] (rank : ρ → α)
    (h : ∀ a l m, wants a = some l → holds a m → rank m < rank l) : ¬ Deadlock wants holds := by
  rintro ⟨a, ha⟩
  obtain ⟨b, ⟨l, hl, -⟩, -⟩ := Relation.TransGen.head'_iff.mp ha
  obtain ⟨l', hl', hlt⟩ := rank_lt_of_transGen h ha hl
  obtain rfl : l = l' := Option.some.inj (hl.symm.trans hl')
  exact lt_irrefl _ hlt

end Xv6
