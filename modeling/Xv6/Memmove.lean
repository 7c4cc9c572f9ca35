import Mathlib

/-!
# `memmove`

There are two of them. The one of the kernel (`string.c`) copies from the end where the destination
starts inside the source, and moves the bytes whatever the ranges are (`memmove_spec`). The one of
the user library (`ulib.c`) always copies from the start. Where the destination starts inside the
source it repeats the bytes between the two starts (`copyUp_eq`), so the two agree only for a source
that repeats itself (`ulib_memmove_iff`).

Memory is a function on addresses, and a pointer is a number below 2³²: it wraps where it is
advanced past the last byte.
-/

namespace Xv6

open Function

/-- `while(n-- > 0) *d++ = *s++;` -/
def copyUp (m : ℕ → UInt8) (d s : ℕ) : ℕ → ℕ → UInt8
  | 0 => m
  | n + 1 => copyUp (update m d (m s)) ((d + 1) % 2 ^ 32) ((s + 1) % 2 ^ 32) n

/-- `while(n-- > 0) *--d = *--s;` -/
def copyDown (m : ℕ → UInt8) (d s : ℕ) : ℕ → ℕ → UInt8
  | 0 => m
  | n + 1 =>
    let d := (d + 2 ^ 32 - 1) % 2 ^ 32
    let s := (s + 2 ^ 32 - 1) % 2 ^ 32
    copyDown (update m d (m s)) d s n

/-- `memmove` of the kernel -/
def memmove (m : ℕ → UInt8) (dst src n : ℕ) : ℕ → UInt8 :=
  if src < dst ∧ (src + n) % 2 ^ 32 > dst then
    copyDown m ((dst + n) % 2 ^ 32) ((src + n) % 2 ^ 32) n
  else copyUp m dst src n

/-- `memmove` of the user library -/
def Ulib.memmove (m : ℕ → UInt8) (dst src : ℕ) (n : ℤ) : ℕ → UInt8 := copyUp m dst src n.toNat

theorem succ_mod_cases (j p : ℕ) : (j % p + 1 = p ∧ (j + 1) % p = 0) ∨
    (j % p + 1 ≠ p ∧ (j + 1) % p = j % p + 1) := by
  rcases Nat.eq_zero_or_pos p with rfl | hp
  · simp
  have hlt := Nat.mod_lt j hp
  rw [← Nat.mod_add_mod j p 1]
  by_cases h : j % p + 1 = p
  · exact .inl ⟨h, by rw [h, Nat.mod_self]⟩
  · exact .inr ⟨h, Nat.mod_eq_of_lt (by omega)⟩

/-- Where the pointers wrap, they are not used any more. -/
theorem copyUp_succ {m : ℕ → UInt8} {d s n : ℕ} (hd : d + (n + 1) ≤ 2 ^ 32)
    (hs : s + (n + 1) ≤ 2 ^ 32) :
    copyUp m d s (n + 1) = copyUp (update m d (m s)) (d + 1) (s + 1) n := by
  cases n with
  | zero => rfl
  | succ n => rw [copyUp, Nat.mod_eq_of_lt (by omega), Nat.mod_eq_of_lt (by omega)]

/-- **Copying from the start** repeats the first `d - s` bytes. There is nothing to repeat for
`d ≤ s`, when this number is zero. -/
theorem copyUp_eq {n : ℕ} : ∀ {m : ℕ → UInt8} {d s : ℕ}, d + n ≤ 2 ^ 32 → s + n ≤ 2 ^ 32 → ∀ a,
    copyUp m d s n a = if d ≤ a ∧ a < d + n then m (s + (a - d) % (d - s)) else m a := by
  induction n with
  | zero =>
    intro m d s _ _ a
    rw [copyUp, if_neg (by omega)]
  | succ n ih =>
    intro m d s hd hs a
    rw [copyUp_succ hd hs, ih (by omega) (by omega), Nat.add_sub_add_right]
    rcases Nat.lt_trichotomy a d with had | rfl | had
    · rw [if_neg (by omega), if_neg (by omega), update_of_ne (Nat.ne_of_lt had)]
    · rw [if_neg (by omega), if_pos (by omega), update_self, Nat.sub_self, Nat.zero_mod,
        Nat.add_zero]
    by_cases hlt : a < d + 1 + n
    · rw [if_pos (by omega), if_pos (by omega), show a - d = a - (d + 1) + 1 by omega]
      -- the byte is taken from `d` itself, which is a copy of `s` by now, or from an old one
      rcases succ_mod_cases (a - (d + 1)) (d - s) with ⟨h, hmod⟩ | ⟨h, hmod⟩
      · rw [hmod, show s + 1 + (a - (d + 1)) % (d - s) = d by omega, update_self, Nat.add_zero]
      · rw [hmod, update_of_ne (by omega), Nat.add_right_comm, Nat.add_assoc]
    · rw [if_neg (by omega), if_neg (by omega), update_of_ne (Nat.ne_of_gt had)]

/-- **Copying from the end** to a later place moves the bytes. -/
theorem copyDown_eq {d s n : ℕ} : ∀ {m : ℕ → UInt8}, s < d → d + n ≤ 2 ^ 32 → ∀ a,
    copyDown m ((d + n) % 2 ^ 32) ((s + n) % 2 ^ 32) n a =
      if d ≤ a ∧ a < d + n then m (s + (a - d)) else m a := by
  induction n with
  | zero =>
    intro m _ _ a
    rw [copyDown, if_neg (by omega)]
  | succ n ih =>
    intro m hsd hd a
    have hdown : ∀ {p}, p + (n + 1) ≤ 2 ^ 32 →
        ((p + (n + 1)) % 2 ^ 32 + 2 ^ 32 - 1) % 2 ^ 32 = (p + n) % 2 ^ 32 := by omega
    have hdn : (d + n) % 2 ^ 32 = d + n := Nat.mod_eq_of_lt (by omega)
    have hsn : (s + n) % 2 ^ 32 = s + n := Nat.mod_eq_of_lt (by omega)
    rw [copyDown, hdown hd, hdown (by omega), ih hsd (by omega), hdn, hsn]
    rcases Nat.lt_trichotomy a (d + n) with had | rfl | had
    · by_cases hle : d ≤ a
      · rw [if_pos (by omega), if_pos (by omega), update_of_ne (by omega)]
      · rw [if_neg (by omega), if_neg (by omega), update_of_ne (Nat.ne_of_lt had)]
    · rw [if_neg (by omega), if_pos (by omega), update_self, Nat.add_sub_cancel_left]
    · rw [if_neg (by omega), if_neg (by omega), update_of_ne (Nat.ne_of_gt had)]

/-- **`memmove` of the kernel** is right for every overlap of two ranges that do not wrap around. -/
theorem memmove_spec (m : ℕ → UInt8) (dst src n : ℕ) (hdst : dst + n ≤ 2 ^ 32)
    (hsrc : src + n ≤ 2 ^ 32) (a : ℕ) :
    memmove m dst src n a = if dst ≤ a ∧ a < dst + n then m (src + (a - dst)) else m a := by
  rw [memmove]
  split
  · rename_i h
    exact copyDown_eq h.1 hdst a
  rename_i h
  rw [copyUp_eq hdst hsrc]
  split
  · rcases Nat.lt_or_ge src dst with hlt | hle
    · rw [Nat.mod_eq_of_lt (a := src + n) (by omega)] at h
      rw [Nat.mod_eq_of_lt (by omega)]
    · rw [Nat.sub_eq_zero_of_le hle, Nat.mod_zero]
  · rfl

/-- Three bytes are moved up by one. -/
theorem memmove_up : memmove (fun a => a.toUInt8) 1 0 3 3 = 2 :=
  (memmove_spec (fun a => a.toUInt8) 1 0 3 (by decide) (by decide) 3).trans rfl

/-- **The two functions agree** iff the source repeats itself in steps of the distance that the
bytes move up. So they agree where the destination does not start inside the source. -/
theorem ulib_memmove_iff (m : ℕ → UInt8) (dst src n : ℕ) (hdst : dst + n ≤ 2 ^ 32)
    (hsrc : src + n ≤ 2 ^ 32) :
    (Ulib.memmove m dst src n = memmove m dst src n ↔
      ∀ i < n, m (src + i % (dst - src)) = m (src + i)) ∧
    (dst ≤ src ∨ src + n ≤ dst → Ulib.memmove m dst src n = memmove m dst src n) := by
  have hiff : Ulib.memmove m dst src n = memmove m dst src n ↔
      ∀ i < n, m (src + i % (dst - src)) = m (src + i) := by
    rw [funext_iff, Ulib.memmove, Int.toNat_natCast]
    simp only [copyUp_eq hdst hsrc, memmove_spec m dst src n hdst hsrc]
    constructor
    · intro h i hi
      have := h (dst + i)
      rwa [if_pos (by omega), if_pos (by omega), Nat.add_sub_cancel_left] at this
    · intro h a
      split
      · exact h (a - dst) (by omega)
      · rfl
  refine ⟨hiff, fun h => hiff.mpr fun i hi => ?_⟩
  rcases h with hle | hle
  · rw [Nat.sub_eq_zero_of_le hle, Nat.mod_zero]
  · rw [Nat.mod_eq_of_lt (by omega)]

/-- Three bytes are moved down. -/
theorem ulib_memmove_down : Ulib.memmove (fun a => a.toUInt8) 0 1 3 =
    memmove (fun a => a.toUInt8) 0 1 3 :=
  (ulib_memmove_iff (fun a => a.toUInt8) 0 1 3 (by decide) (by decide)).2 (.inl (by decide))

/-- Two bytes are moved up by one: the first of them is copied twice. -/
theorem ulib_memmove_repeats : ∃ (m : ℕ → UInt8) (dst src n : ℕ), dst + n ≤ 2 ^ 32 ∧
    src + n ≤ 2 ^ 32 ∧ Ulib.memmove m dst src n 2 = 0 ∧ memmove m dst src n 2 = 1 :=
  ⟨fun a => a.toUInt8, 1, 0, 2, by decide, by decide, by decide, by decide⟩

end Xv6
