import Mathlib
import Xv6.Param

/-!
# The configuration table of the firmware: `mpinit`

`mpinit` goes through the entries of the table. It advances by the size of the entry, which it knows
for five types. At an entry of another type it stays, and does not end (`mpinit_bad`); and it takes
the next of the `NCPU` elements of `cpus` at each processor, however many there are. Nothing in what
`mpconfig` checks keeps the firmware from either. `mpinit_iff` says for which tables `mpinit` is
right.
-/

namespace Xv6

namespace Mp

/-- `cpus[NCPU]` -/
def NCPU : ℕ := 8

/-- What `mpinit` sets up, and the cursor. -/
structure State where
  p : ℕ
  ncpu : ℕ
  bcpu : ℕ
  ioapicid : UInt8
  ismp : Bool
  deriving DecidableEq, Repr

/-- `mpconfig`, where the table is in memory from `b 0` on: its length, if it passes the tests. -/
def mpconfig (b : ℕ → UInt8) : Option ℕ :=
  let length := (b 4).toNat + 256 * (b 5).toNat
  if (List.range 4).map b ≠ "PCMP".toList.map (·.toUInt8) then none
  else if b 6 ≠ 1 ∧ b 6 ≠ 4 then none
  else if ((List.range length).map b).sum ≠ 0 then none
  else some length

/-- One round of the loop. -/
def entry (b : ℕ → UInt8) (s : State) : Except Stop State :=
  if b s.p = 0 then
    if s.ncpu < NCPU then .ok {
      p := s.p + 20
      ncpu := s.ncpu + 1
      bcpu := if b (s.p + 3) &&& 2 ≠ 0 then s.ncpu else s.bcpu
      ioapicid := s.ioapicid
      ismp := s.ismp && s.ncpu == (b (s.p + 1)).toNat }
    else .error .outOfBounds
  else if b s.p = 2 then .ok { s with ioapicid := b (s.p + 1), p := s.p + 8 }
  else if b s.p ≤ 4 then .ok { s with p := s.p + 8 }
  else .ok { s with ismp := false }

/-- The loop up to the end `e` of the table; nothing if it is not through after `n` rounds. -/
def loop (b : ℕ → UInt8) (e : ℕ) : ℕ → State → Option (Except Stop State)
  | 0, _ => none
  | n + 1, s =>
    if s.p < e then
      match entry b s with
      | .ok s => loop b e n s
      | .error e => some (.error e)
    else some (.ok s)

/-- `mpinit`, for `n` rounds. The entries follow the header of 44 bytes. -/
def mpinit (b : ℕ → UInt8) (n : ℕ) : Option (Except Stop State) :=
  match mpconfig b with
  | none => some (.ok ⟨44, 0, 0, 0, false⟩)
  | some e =>
    (loop b e n ⟨44, 0, 0, 0, true⟩).map fun r => r.map fun s =>
      if s.ismp then s else { s with ncpu := 1, ioapicid := 0 }

/-- From `p` on, all entries up to the end are of known types, and `k` of them are processors. -/
inductive Entries (b : ℕ → UInt8) (e : ℕ) : ℕ → ℕ → Prop
  | done {p : ℕ} (h : e ≤ p) : Entries b e p 0
  | proc {p k : ℕ} (h : p < e) (hb : b p = 0) (hs : Entries b e (p + 20) k) : Entries b e p (k + 1)
  | other {p k : ℕ} (h : p < e) (hb : b p ≠ 0) (h4 : b p ≤ 4) (hs : Entries b e (p + 8) k) :
    Entries b e p k

variable {b : ℕ → UInt8} {e p k n : ℕ} {s s' : State}

/-- What one round does. -/
theorem entry_cases (b : ℕ → UInt8) (s : State) :
    (b s.p = 0 ∧ (NCPU ≤ s.ncpu ∧ entry b s = .error .outOfBounds ∨
      s.ncpu < NCPU ∧ ∃ s', entry b s = .ok s' ∧ s'.p = s.p + 20 ∧ s'.ncpu = s.ncpu + 1)) ∨
    (b s.p ≠ 0 ∧ b s.p ≤ 4 ∧ ∃ s', entry b s = .ok s' ∧ s'.p = s.p + 8 ∧ s'.ncpu = s.ncpu) ∨
    (b s.p ≠ 0 ∧ ¬b s.p ≤ 4 ∧ entry b s = .ok { s with ismp := false }) := by
  rw [entry]
  by_cases h0 : b s.p = 0
  · rw [if_pos h0]
    rcases Nat.lt_or_ge s.ncpu NCPU with h | h
    · exact .inl ⟨h0, .inr ⟨h, _, if_pos h, rfl, rfl⟩⟩
    · exact .inl ⟨h0, .inl ⟨h, if_neg (Nat.not_lt.mpr h)⟩⟩
  rw [if_neg h0]
  by_cases h2 : b s.p = 2
  · exact .inr (.inl ⟨h0, by rw [h2]; decide, _, if_pos h2, rfl, rfl⟩)
  rw [if_neg h2]
  by_cases h4 : b s.p ≤ 4
  · exact .inr (.inl ⟨h0, h4, _, if_pos h4, rfl, rfl⟩)
  · exact .inr (.inr ⟨h0, h4, if_neg h4⟩)

/-- With known entries, the loop comes to the end of the table. -/
theorem loop_of_entries (h : Entries b e p k) : ∀ {n : ℕ} {s : State}, s.p = p → s.ncpu + k ≤ NCPU →
    e - p < n → ∃ s', loop b e n s = some (.ok s') := by
  induction h with
  | done h =>
    rintro (_ | n) s rfl - hn
    · cases hn
    · exact ⟨s, if_neg (Nat.not_lt.mpr h)⟩
  | proc h hb hs ih =>
    rintro (_ | n) s rfl hk hn
    · cases hn
    rw [loop, if_pos h]
    rcases entry_cases b s with ⟨-, ⟨hc, -⟩ | ⟨-, s', hs', hp, hc⟩⟩ | ⟨h0, -⟩ | ⟨h0, -⟩
    · omega
    · rw [hs']
      exact ih hp (by omega) (by omega)
    · exact absurd hb h0
    · exact absurd hb h0
  | other h hb h4 hs ih =>
    rintro (_ | n) s rfl hk hn
    · cases hn
    rw [loop, if_pos h]
    rcases entry_cases b s with ⟨h0, -⟩ | ⟨-, -, s', hs', hp, hc⟩ | ⟨-, hc, -⟩
    · exact absurd h0 hb
    · rw [hs']
      exact ih hp (by omega) (by omega)
    · exact absurd h4 hc

/-- If the loop comes to the end, the entries are known. -/
theorem entries_of_loop : ∀ {n : ℕ} {s : State}, loop b e n s = some (.ok s') → s.ncpu ≤ NCPU →
    ∃ k, Entries b e s.p k ∧ s.ncpu + k ≤ NCPU
  | n + 1, s, h, hle => by
    rw [loop] at h
    by_cases hp : s.p < e
    swap
    · exact ⟨0, .done (Nat.not_lt.mp hp), hle⟩
    rw [if_pos hp] at h
    rcases entry_cases b s with ⟨h0, ⟨-, hs⟩ | ⟨hlt, s1, hs, hp1, hc⟩⟩ | ⟨h0, h4, s1, hs, hp1, hc⟩ |
      ⟨h0, h4, hs⟩ <;> rw [hs] at h
    · cases h
    · obtain ⟨k, hk, hle'⟩ := entries_of_loop h (by omega)
      exact ⟨k + 1, .proc hp h0 (hp1 ▸ hk), by omega⟩
    · obtain ⟨k, hk, hle'⟩ := entries_of_loop h (by omega)
      exact ⟨k, .other hp h0 h4 (hp1 ▸ hk), by omega⟩
    · -- the cursor is still at this entry
      obtain ⟨k, hk, -⟩ := entries_of_loop h hle
      cases hk with
      | done h => exact absurd hp (Nat.not_lt.mpr h)
      | proc _ hb => exact absurd hb h0
      | other _ _ hb => exact absurd hb h4

/-- **`mpinit` ends, within the bounds of `cpus`**, iff the entries are of known types and at most
`NCPU` of them are processors. -/
theorem mpinit_iff (b : ℕ → UInt8) (e : ℕ) (h : mpconfig b = some e) :
    ((∃ n s, mpinit b n = some (.ok s)) ↔ ∃ k ≤ NCPU, Entries b e 44 k) ∧
    ∀ k ≤ NCPU, Entries b e 44 k → ∀ n > e, ∃ s, mpinit b n = some (.ok s) := by
  have hend : ∀ k ≤ NCPU, Entries b e 44 k → ∀ n > e, ∃ s, mpinit b n = some (.ok s) := by
    intro k hk hent n hn
    obtain ⟨s, hs⟩ := loop_of_entries hent (s := ⟨44, 0, 0, 0, true⟩) (n := n) rfl
      (by rwa [Nat.zero_add]) (by omega)
    rw [mpinit, h]
    exact ⟨_, congrArg (Option.map _) hs⟩
  refine ⟨⟨?_, ?_⟩, hend⟩
  · rintro ⟨n, s, hs⟩
    rw [mpinit, h] at hs
    obtain ⟨r, hr, hs⟩ := Option.map_eq_some_iff.mp hs
    rcases r with e' | s'
    · cases hs
    obtain ⟨k, hent, hk⟩ := entries_of_loop hr (Nat.zero_le _)
    exact ⟨k, by rwa [Nat.zero_add] at hk, hent⟩
  · rintro ⟨k, hk, hent⟩
    exact ⟨e + 1, hend k hk hent _ (Nat.lt_succ_self _)⟩

/-- A table with a given length, checksum and list of entries. -/
def table (length checksum : UInt8) (entries : List UInt8) (i : ℕ) : UInt8 :=
  ([80, 67, 77, 80, length, 0, 1, checksum] ++ List.replicate 36 0 ++ entries).getD i 0

/-- A table with one processor. -/
theorem mpinit_one : ∃ s, mpinit (table 64 141 [0, 0, 0, 2]) 65 = some (.ok s) :=
  (mpinit_iff (table 64 141 [0, 0, 0, 2]) 64 (by decide +kernel)).2 1 (by decide)
    (.proc (by decide) rfl (.done (by decide))) 65 (by decide)

/-- An entry of type 5, and nine processors. -/
theorem mpinit_bad : (∃ b e, mpconfig b = some e ∧ ∀ n, mpinit b n = none) ∧
    ∃ b e n, mpconfig b = some e ∧ mpinit b n = some (.error .outOfBounds) := by
  have hstay : ∀ n ismp, loop (table 45 157 [5]) 45 n ⟨44, 0, 0, 0, ismp⟩ = none := by
    intro n
    induction n with
    | zero => exact fun _ => rfl
    | succ n ih => exact fun _ => ih false
  refine ⟨⟨table 45 157 [5], 45, by decide, fun n => ?_⟩,
    table 224 239 [], 224, 10, by decide +kernel, by decide +kernel⟩
  have hconf : mpconfig (table 45 157 [5]) = some 45 := by decide
  rw [mpinit, hconf]
  exact congrArg (Option.map _) (hstay n true)

end Mp

end Xv6
