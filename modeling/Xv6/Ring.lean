import Mathlib.Data.List.Basic
import Mathlib.Logic.Function.Basic
import Mathlib.Data.UInt
import Mathlib.Tactic.Common

/-!
# Ring buffers with free-running counters

A ring buffer of `size` cells that never resets its two 32-bit counters: `nwrite` counts what was
put in and `nread` what was taken out, both modulo `2^32`, and the cell of the `k`-th item is
`k % size`.

* `Ring.count` is the difference of the counters, again modulo `2^32`;
* `Ring.contents` is the queue the buffer stands for;
* `Ring.contents_put` and `Ring.contents_get`: as long as `size` divides `2^32` and the buffer is
  not full (not empty), putting an item in appends it to the queue and taking one out removes the
  first, **whether or not a counter wraps around**;
* `Ring.contents_unput`: the last item can be withdrawn.
-/

namespace Xv6

open List

universe u

/-- The cells and the two counters. -/
structure Ring (α : Type u) : Type u where
  /-- the cells -/
  data : ℕ → α
  /-- number of items taken out, modulo `2^32` -/
  nread : UInt32
  /-- number of items put in, modulo `2^32` -/
  nwrite : UInt32

namespace Ring

variable {α : Type u} {r : Ring α} {size : UInt32}

/-- Put an item in. -/
def put (size : UInt32) (r : Ring α) (x : α) : Ring α :=
  { r with data := Function.update r.data (r.nwrite % size).toNat x, nwrite := r.nwrite + 1 }

/-- The item that is next to be taken out. -/
def front (size : UInt32) (r : Ring α) : α := r.data (r.nread % size).toNat

/-- Take an item out. -/
def get (r : Ring α) : Ring α := { r with nread := r.nread + 1 }

/-- Withdraw the item that was put in last. -/
def unput (r : Ring α) : Ring α := { r with nwrite := r.nwrite - 1 }

/-- The item that was put in last. -/
def last (size : UInt32) (r : Ring α) : α := r.data ((r.nwrite - 1) % size).toNat

/-- How many items are in the buffer. -/
def count (r : Ring α) : ℕ := (r.nwrite - r.nread).toNat

/-- The items in the buffer, the oldest first. -/
def contents (size : UInt32) (r : Ring α) : List α :=
  (List.range r.count).map fun k => r.data ((r.nread.toNat + k) % size.toNat)

@[simp] theorem length_contents : (r.contents size).length = r.count := by
  simp [contents]

/-- The write counter is `count` ahead of the read counter. -/
theorem nwrite_eq : r.nwrite.toNat = (r.nread.toNat + r.count) % 2 ^ 32 := by
  have hw := r.nwrite.toNat_lt
  have hr := r.nread.toNat_lt
  rw [count, UInt32.toNat_sub]
  omega

/-- The buffer is empty iff the counters agree. -/
theorem count_eq_zero : r.count = 0 ↔ r.nread = r.nwrite := by
  have hw := r.nwrite.toNat_lt
  have hr := r.nread.toNat_lt
  rw [← UInt32.toNat_inj, count, UInt32.toNat_sub]
  omega

/-- The buffer is full iff the write counter is `size` ahead, as an addition modulo `2^32`. -/
theorem count_eq_size : r.count = size.toNat ↔ r.nwrite = r.nread + size := by
  have hw := r.nwrite.toNat_lt
  have hr := r.nread.toNat_lt
  have hs := size.toNat_lt
  rw [← UInt32.toNat_inj, UInt32.toNat_add, count, UInt32.toNat_sub]
  omega

theorem count_put {x : α} (h : r.count < size.toNat) : (r.put size x).count = r.count + 1 := by
  have hs := size.toNat_lt
  have hw := r.nwrite.toNat_lt
  have hr := r.nread.toNat_lt
  simp only [count, put, UInt32.toNat_sub, UInt32.toNat_add, UInt32.toNat_one] at h ⊢
  omega

theorem count_get (h : 0 < r.count) : r.get.count + 1 = r.count := by
  have hw := r.nwrite.toNat_lt
  have hr := r.nread.toNat_lt
  simp only [count, get, UInt32.toNat_sub, UInt32.toNat_add, UInt32.toNat_one] at h ⊢
  omega

/-- **Putting in appends.** The cell that is written is none of those in use. -/
theorem contents_put {x : α} (hdvd : size.toNat ∣ 2 ^ 32) (h : r.count < size.toNat) :
    (r.put size x).contents size = r.contents size ++ [x] := by
  -- the cell of the new item, counted from the read counter
  have hcell : (r.nwrite % size).toNat = (r.nread.toNat + r.count) % size.toNat := by
    rw [UInt32.toNat_mod, nwrite_eq, Nat.mod_mod_of_dvd _ hdvd]
  rw [contents, count_put h, range_succ, map_append]
  congr 1
  · refine map_congr_left fun k hk => ?_
    have hk := mem_range.mp hk
    refine Function.update_of_ne ?_ _ _
    rw [hcell]
    intro heq
    -- two items that are less than `size` apart have different cells
    have : k % size.toNat = r.count % size.toNat :=
      Nat.ModEq.add_left_cancel' r.nread.toNat heq
    rw [Nat.mod_eq_of_lt (by omega), Nat.mod_eq_of_lt h] at this
    omega
  · simp only [map_cons, map_nil, List.cons.injEq, and_true]
    exact (congrArg _ hcell.symm).trans (Function.update_self ..)

/-- **Taking out removes the first.** -/
theorem contents_get (hdvd : size.toNat ∣ 2 ^ 32) (h : 0 < r.count) :
    r.contents size = r.front size :: r.get.contents size := by
  rw [contents, ← count_get h, range_succ_eq_map, map_cons, map_map]
  have hfront : r.front size = r.data ((r.nread.toNat + 0) % size.toNat) := by
    simp only [front, UInt32.toNat_mod, Nat.add_zero]
  rw [hfront]
  refine congrArg (_ :: ·) (map_congr_left fun k _ => congrArg r.data ?_)
  have hr : (r.nread + 1).toNat = (r.nread.toNat + 1) % 2 ^ 32 := UInt32.toNat_add ..
  have : (r.nread.toNat + (k + 1)) % size.toNat
      = ((r.nread.toNat + 1) % 2 ^ 32 + k) % size.toNat := by
    rw [Nat.add_mod ((r.nread.toNat + 1) % 2 ^ 32), Nat.mod_mod_of_dvd _ hdvd, ← Nat.add_mod]
    congr 1
    omega
  simpa [get, hr] using this

theorem count_unput (h : 0 < r.count) : r.unput.count + 1 = r.count := by
  have hw := r.nwrite.toNat_lt
  have hr := r.nread.toNat_lt
  simp only [count, unput, UInt32.toNat_sub, UInt32.toNat_one] at h ⊢
  omega

/-- **Withdrawing removes the last.** -/
theorem contents_unput (hdvd : size.toNat ∣ 2 ^ 32) (h : 0 < r.count) :
    r.contents size = r.unput.contents size ++ [r.last size] := by
  rw [contents, ← count_unput h, range_succ, map_append]
  have hwrite : (r.nwrite - 1).toNat = (r.nread.toNat + r.unput.count) % 2 ^ 32 :=
    nwrite_eq (r := r.unput)
  have hlast : r.last size = r.data ((r.nread.toNat + r.unput.count) % size.toNat) := by
    rw [last, UInt32.toNat_mod, hwrite, Nat.mod_mod_of_dvd _ hdvd]
  rw [hlast]
  rfl

end Ring

end Xv6
