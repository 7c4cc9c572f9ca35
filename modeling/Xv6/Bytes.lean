import Mathlib.Data.List.Basic
import Mathlib.Tactic.Ring

/-!
# Fixed-size byte buffers

`Bytes n` is a buffer of `n` bytes. Programs read and write it through four views, each with
its read-after-write laws:

* single bytes (`get`);
* runs of bytes (`slice`, `splice`) — what `memmove` into or out of a buffer does;
* little-endian 16- and 32-bit words (`u16`, `u32`, `setU32`) — what a C structure laid over the
  buffer reads and writes;
* single bits (`bit`, `setBit`).

Reads past the end give `0` and writes past the end are dropped, so the laws that need the
access to lie inside the buffer say so.
-/

namespace Xv6

/-- A buffer of `n` bytes. -/
abbrev Bytes (n : ℕ) : Type := Fin n → UInt8

namespace Bytes

variable {n : ℕ}

/-- The zeroed buffer. -/
def zero : Bytes n := fun _ => 0

/-- Byte `i`, or `0` past the end. -/
def get (b : Bytes n) (i : ℕ) : UInt8 := if h : i < n then b ⟨i, h⟩ else 0

@[simp] theorem get_zero (i : ℕ) : (zero : Bytes n).get i = 0 := by
  unfold get zero
  split <;> rfl

/-- Overwrite the bytes from offset `o` on with `v`. -/
def splice (b : Bytes n) (o : ℕ) (v : List UInt8) : Bytes n :=
  fun i => if o ≤ i.val then (v[i.val - o]?).getD (b i) else b i

/-- The `len` bytes from offset `o` on. -/
def slice (b : Bytes n) (o len : ℕ) : List UInt8 := (List.range len).map fun i => b.get (o + i)

@[simp] theorem length_slice (b : Bytes n) (o len : ℕ) : (b.slice o len).length = len := by
  simp [slice]

variable {b : Bytes n} {v : List UInt8} {o i : ℕ}

theorem get_splice_of_lt (h : i < o) : (b.splice o v).get i = b.get i := by
  unfold get splice
  split
  · rw [if_neg (by simpa using h)]
  · rfl

theorem get_splice_of_ge (h : o + v.length ≤ i) : (b.splice o v).get i = b.get i := by
  unfold get splice
  split
  · dsimp only
    rw [if_pos (by omega), List.getElem?_eq_none (by omega)]
    rfl
  · rfl

theorem get_splice_of_mem (hi : i < v.length)
    (hn : o + i < n) : (b.splice o v).get (o + i) = v[i] := by
  unfold get splice
  rw [dif_pos hn, if_pos (by simp), Nat.add_sub_cancel_left, List.getElem?_eq_getElem hi]
  rfl

/-! ### Little-endian words -/

/-- The four bytes of a 32-bit word, least significant first. -/
def le32 (v : ℕ) : List UInt8 :=
  [UInt8.ofNat v, UInt8.ofNat (v / 256), UInt8.ofNat (v / 65536), UInt8.ofNat (v / 16777216)]

/-- The 32-bit word at offset `o`. -/
def u32 (b : Bytes n) (o : ℕ) : ℕ :=
  (b.get o).toNat + 256 * (b.get (o + 1)).toNat + 65536 * (b.get (o + 2)).toNat +
    16777216 * (b.get (o + 3)).toNat

/-- Store `v` (its low 32 bits) at offset `o`. -/
def setU32 (b : Bytes n) (o v : ℕ) : Bytes n := b.splice o (le32 v)

theorem u32_lt (b : Bytes n) (o : ℕ) : b.u32 o < 2 ^ 32 := by
  have h0 := (b.get o).toNat_lt
  have h1 := (b.get (o + 1)).toNat_lt
  have h2 := (b.get (o + 2)).toNat_lt
  have h3 := (b.get (o + 3)).toNat_lt
  unfold u32
  omega

@[simp] theorem u32_zero (o : ℕ) : (zero : Bytes n).u32 o = 0 := by
  simp [u32]

theorem u32_setU32_self {o v : ℕ} (h : o + 4 ≤ n) (hv : v < 2 ^ 32) : (b.setU32 o v).u32 o = v := by
  have byte : ∀ i (hi : i < 4), (b.setU32 o v).get (o + i) = (le32 v)[i] := fun i hi =>
    get_splice_of_mem (v := le32 v) hi (by omega)
  have h0 := byte 0 (by omega)
  have h1 := byte 1 (by omega)
  have h2 := byte 2 (by omega)
  have h3 := byte 3 (by omega)
  rw [Nat.add_zero] at h0
  unfold u32
  rw [h0, h1, h2, h3]
  simp [le32]
  omega

theorem u32_setU32_ne {o o' v : ℕ} (h : o' + 4 ≤ o ∨ o + 4 ≤ o') :
    (b.setU32 o v).u32 o' = b.u32 o' := by
  have byte : ∀ i, i < 4 → (b.setU32 o v).get (o' + i) = b.get (o' + i) := by
    intro i hi
    rcases h with h | h
    · exact get_splice_of_lt (by omega)
    · exact get_splice_of_ge (by simp [le32]; omega)
  unfold u32
  rw [byte 1 (by omega), byte 2 (by omega), byte 3 (by omega)]
  have := byte 0 (by omega)
  rw [Nat.add_zero] at this
  rw [this]

/-- Byte `k` of a little-endian word. -/
def byteOf (v k : ℕ) : UInt8 := UInt8.ofNat (v / 256 ^ k)

/-- The 16-bit word at offset `o`. -/
def u16 (b : Bytes n) (o : ℕ) : ℕ := (b.get o).toNat + 256 * (b.get (o + 1)).toNat

/-- A word that has been stored byte by byte. -/
theorem u32_of_bytes {o v : ℕ} (hv : v < 2 ^ 32)
    (h : ∀ k < 4, b.get (o + k) = byteOf v k) : b.u32 o = v := by
  have h0 := h 0 (by omega)
  rw [Nat.add_zero] at h0
  rw [u32, h0, h 1 (by omega), h 2 (by omega), h 3 (by omega)]
  simp [byteOf]
  omega

theorem u16_of_bytes {o v : ℕ} (hv : v < 2 ^ 16)
    (h : ∀ k < 2, b.get (o + k) = byteOf v k) : b.u16 o = v := by
  have h0 := h 0 (by omega)
  rw [Nat.add_zero] at h0
  rw [u16, h0, h 1 (by omega)]
  simp [byteOf]
  omega

theorem u32_congr {a b : Bytes n} {o : ℕ} (h : ∀ k < 4, a.get (o + k) = b.get (o + k)) :
    a.u32 o = b.u32 o := by
  have h0 := h 0 (by omega)
  rw [Nat.add_zero] at h0
  rw [u32, u32, h0, h 1 (by omega), h 2 (by omega), h 3 (by omega)]

theorem u16_congr {a b : Bytes n} {o : ℕ} (h : ∀ k < 2, a.get (o + k) = b.get (o + k)) :
    a.u16 o = b.u16 o := by
  have h0 := h 0 (by omega)
  rw [Nat.add_zero] at h0
  rw [u16, u16, h0, h 1 (by omega)]

/-! ### Bits -/

/-- Bit `i % 8` of byte `i / 8`. -/
def bit (b : Bytes n) (i : ℕ) : Bool := (b.get (i / 8)).toBitVec.getLsbD (i % 8)

/-- `data[i/8] |= 1 << (i % 8)`, or `data[i/8] &= ~(1 << (i % 8))`. -/
def setBit (b : Bytes n) (i : ℕ) (v : Bool) : Bytes n := fun j =>
  if j.val = i / 8 then
    if v then b j ||| (1 <<< UInt8.ofNat (i % 8)) else b j &&& ~~~(1 <<< UInt8.ofNat (i % 8))
  else b j

theorem bit_setBit_self {i : ℕ} {v : Bool} (h : i < 8 * n) : (b.setBit i v).bit i = v := by
  have hi : i / 8 < n := by omega
  have hlt : i % 8 < 8 := by omega
  cases v with
  | false => simp [bit, setBit, get, hi]
  | true => simp [bit, setBit, get, hi, hlt]

theorem bit_setBit_ne {i j : ℕ} {v : Bool} (h : i ≠ j) : (b.setBit i v).bit j = b.bit j := by
  by_cases hj : j / 8 < n
  · by_cases hij : j / 8 = i / 8
    · -- the same byte, another bit
      have hi : i / 8 < n := hij ▸ hj
      have hlt : j % 8 < 8 := by omega
      cases v with
      | false =>
        simp [bit, setBit, get, hij, hi, hlt]
        omega
      | true =>
        simp [bit, setBit, get, hij, hi, hlt]
        omega
    · simp [bit, setBit, get, hj, hij]
  · simp [bit, get, hj]

end Bytes

end Xv6
