import Xv6.Affine
import Xv6.Count
import Xv6.Scheduler
import Mathlib.Data.Int.CardIntervalMod
import Mathlib.Dynamics.PeriodicPts.Lemmas
import Mathlib.Order.Interval.Finset.Nat

/-!
# The lottery: tickets, `rand` and the draw

* `rand_equidistributed`: `rand` has the full period of `2 ^ 32` states, so that over a period each
  ticket number comes up as often as any other, up to one time.
* `draw_proportional`: the selection loop finds the position whose tickets contain the number drawn,
  so that each position wins with exactly as many numbers as it has tickets.
* `schedule_safe`: the accesses to `run_p` are in range **as long as fewer than NPROC processes are
  RUNNABLE and their pids differ**. A full table makes the printing loop leave the array, and equal
  pids make the duplicate removal dereference null (`schedule_fails`).
-/

namespace Xv6

open Function List

/-! ## `rand` -/

/-- What a call of `rand` makes of `randstate`. -/
def nextState (max s : UInt32) : UInt32 := (rand s max).2

/-- The result of call `n` of `rand(max)`, if `randstate` is `s` at the start. -/
def drawn (max s : UInt32) (n : ℕ) : UInt32 := (rand ((nextState max)^[n] s) max).1

section Rand

variable (max s : UInt32)

theorem toNat_iterate (n : ℕ) : ((nextState max)^[n] s).toNat =
    (affine (4 * 416131 + 1) 1013904223)^[n] s.toNat % 2 ^ 32 := by
  induction n with
  | zero => exact (Nat.mod_eq_of_lt s.toNat_lt).symm
  | succ n ih =>
    have hstep : ∀ x, (nextState max x).toNat =
        affine (4 * 416131 + 1) 1013904223 x.toNat % 2 ^ 32 := by
      intro x
      simp [nextState, rand, affine, Nat.mul_comm]
    rw [iterate_succ_apply', iterate_succ_apply', hstep, ih, affine, affine]
    exact Nat.ModEq.add_right _ (Nat.ModEq.mul_left _ (Nat.mod_modEq ..))

/-- Being back where one was is a congruence. -/
theorem isPeriodicPt_iff (n : ℕ) : IsPeriodicPt (nextState max) n s ↔
    (affine (4 * 416131 + 1) 1013904223)^[n] s.toNat ≡ s.toNat [MOD 2 ^ 32] := by
  rw [IsPeriodicPt, IsFixedPt, ← UInt32.toNat_inj, toNat_iterate, Nat.ModEq,
    Nat.mod_eq_of_lt s.toNat_lt]

/-- **`rand` has full period.** -/
theorem minimalPeriod_nextState : minimalPeriod (nextState max) s = 2 ^ 32 := by
  have : Fact (Nat.Prime 2) := ⟨Nat.prime_two⟩
  refine minimalPeriod_eq_prime_pow (k := 31) ?_ ?_
  · rw [isPeriodicPt_iff]
    exact not_iterate_modEq (by decide)
  · rw [isPeriodicPt_iff]
    exact iterate_modEq

theorem iterate_inj {n m : ℕ} (hn : n < 2 ^ 32) (hm : m < 2 ^ 32)
    (he : (nextState max)^[n] s = (nextState max)^[m] s) : n = m := by
  rw [← minimalPeriod_nextState max s] at hn hm
  exact iterate_injOn_Iio_minimalPeriod hn hm he

/-- The states of `2 ^ 32` consecutive calls are all 32-bit numbers. -/
theorem image_states :
    (Finset.range (2 ^ 32)).image (fun n => ((nextState max)^[n] s).toNat) = Finset.range
    (2 ^ 32) := by
  refine Finset.eq_of_subset_of_card_le (fun x hx => ?_) ?_
  · obtain ⟨n, -, rfl⟩ := Finset.mem_image.mp hx
    exact Finset.mem_range.mpr (UInt32.toNat_lt _)
  · rw [Finset.card_image_of_injOn]
    exact fun n hn m hm he => iterate_inj max s (Finset.mem_range.mp hn) (Finset.mem_range.mp hm)
      (UInt32.toNat_inj.mp he)

variable {max}

theorem toNat_pos (hmax : max ≠ 0) : 0 < max.toNat :=
  Nat.pos_of_ne_zero fun h => hmax (UInt32.toNat_inj.mp h)

/-- The number drawn, from the state after the call. -/
theorem toNat_drawn (hmax : max ≠ 0) (n : ℕ) :
    (drawn max s n).toNat = ((nextState max)^[n] (nextState max s)).toNat % max.toNat + 1 := by
  have hlt := max.toNat_lt
  have hmod := Nat.mod_lt ((nextState max)^[n] (nextState max s)).toNat (toNat_pos hmax)
  have hsum : (drawn max s n).toNat =
      (((nextState max)^[n] (nextState max s)).toNat % max.toNat + 1) % 2 ^ 32 := by
    rw [← iterate_succ_apply, iterate_succ_apply', drawn, rand, UInt32.toNat_add, UInt32.toNat_mod]
    rfl
  rw [hsum, Nat.mod_eq_of_lt (by omega)]

/-- A number is drawn if the state gets into its residue class. -/
theorem drawn_eq_iff (hmax : max ≠ 0) {t : UInt32} (h1 : 1 ≤ t) (h2 : t ≤ max) (n : ℕ) :
    drawn max s n = t ↔
      ((nextState max)^[n] (nextState max s)).toNat ≡ t.toNat - 1 [MOD max.toNat] := by
  have h1 : 1 ≤ t.toNat := UInt32.le_iff_toNat_le.mp h1
  have h2 : t.toNat ≤ max.toNat := UInt32.le_iff_toNat_le.mp h2
  rw [← UInt32.toNat_inj, toNat_drawn s hmax, Nat.ModEq,
    Nat.mod_eq_of_lt (show t.toNat - 1 < max.toNat by omega)]
  omega

/-- How often `t` is returned by `2 ^ 32` consecutive calls of `rand(max)`. -/
def times (max s t : UInt32) : ℕ := ((Finset.range (2 ^ 32)).filter fun n => drawn max s n = t).card

/-- The calls that return `t`, counted by the states they reach. -/
theorem times_eq (hmax : max ≠ 0) {t : UInt32} (h1 : 1 ≤ t) (h2 : t ≤ max) :
    times max s t = Nat.count (· ≡ t.toNat - 1 [MOD max.toNat]) (2 ^ 32) := by
  rw [times, Nat.count_eq_card_filter_range]
  exact card_filter_image (image_states max (nextState max s)) (drawn_eq_iff s hmax h1 h2)

/-- **`rand` is equidistributed.** From every state, `2 ^ 32` calls of `rand` go through all states
and back, and each number from 1 to `max` is returned equally often, up to one time. -/
theorem rand_equidistributed (hmax : max ≠ 0) :
    (∀ x, ∃! n, n < 2 ^ 32 ∧ (nextState max)^[n] s = x) ∧ (nextState max)^[2 ^ 32] s = s ∧
      (∀ n, 1 ≤ drawn max s n ∧ drawn max s n ≤ max) ∧
      ∀ t, 1 ≤ t → t ≤ max →
        times max s t = 2 ^ 32 / max.toNat ∨ times max s t = 2 ^ 32 / max.toNat + 1 := by
  have hpos := toNat_pos hmax
  refine ⟨fun x => ?_, ?_, fun n => ?_, fun t h1 h2 => ?_⟩
  · have hx : x.toNat ∈ Finset.range (2 ^ 32) := Finset.mem_range.mpr x.toNat_lt
    rw [← image_states max s] at hx
    obtain ⟨n, hn, he⟩ := Finset.mem_image.mp hx
    have hn := Finset.mem_range.mp hn
    have he := UInt32.toNat_inj.mp he
    exact ⟨n, ⟨hn, he⟩, fun m hm => iterate_inj max s hm.1 hn (hm.2.trans he.symm)⟩
  · exact (isPeriodicPt_iff max s (2 ^ 32)).mpr iterate_modEq
  · rw [UInt32.le_iff_toNat_le, UInt32.le_iff_toNat_le, toNat_drawn s hmax]
    exact ⟨Nat.succ_pos _, Nat.mod_lt _ hpos⟩
  · rw [times_eq s hmax h1 h2, Nat.count_modEq_card _ hpos]
    split
    · exact .inr rfl
    · exact .inl rfl

/-- With the two tickets of two processes, from the first `randstate`. -/
theorem rand_equidistributed_sixty : (60 : UInt32) ≠ 0 ∧ (nextState 60)^[2 ^ 32] 1 = 1 :=
  ⟨by decide, (rand_equidistributed 1 (by decide)).2.1⟩

end Rand

namespace ProcSys

/-! ## The draw -/

/-- The loop that looks for the winner, on the entries of `run_p` from `i` on: it ends at a null
entry, at the end of the array, or when the range reaches `rd`. -/
def drawLoop (ticket : Slot → UInt32) (rd : UInt32) : List (Option Slot) → UInt32 → UInt32 → UInt32
  | some p :: rp, range, i =>
    if rd > range then drawLoop ticket rd rp (range + ticket p) (i + 1) else i
  | _, _, i => i

/-- The index of the winner: the loop, and `i--`. -/
def drawIndex (ticket : Slot → UInt32) (rp : List (Option Slot)) (rd : UInt32) : UInt32 :=
  drawLoop ticket rd rp 0 0 - 1

section Draw

variable {ticket : Slot → UInt32} {rd : UInt32} {rp : List (Option Slot)}

/-- The number of tickets of the processes in a list. -/
def weight (ticket : Slot → UInt32) (ps : List Slot) : ℕ := (ps.map fun p => (ticket p).toNat).sum

theorem weight_cons (p : Slot) (ps : List Slot) :
    weight ticket (p :: ps) = (ticket p).toNat + weight ticket ps := rfl

theorem weight_take_succ {ps : List Slot} {i : ℕ} (hi : i < ps.length) :
    weight ticket (ps.take (i + 1)) = weight ticket (ps.take i) + (ticket ps[i]).toNat := by
  rw [take_succ_eq_append_getElem hi, weight, map_append, sum_append]
  simp [weight]

theorem weight_take_mono (ticket : Slot → UInt32) (ps : List Slot) {i j : ℕ} (h : i ≤ j) :
    weight ticket (ps.take i) ≤ weight ticket (ps.take j) := by
  obtain ⟨d, rfl⟩ := Nat.exists_eq_add_of_le h
  rw [take_add, weight, weight, map_append, sum_append]
  exact Nat.le_add_right ..

/-- The loop goes on until the tickets seen reach `rd`, and so does the draw of the model. -/
theorem drawLoop_spec (ticket : Slot → UInt32) : ∀ (rp : List (Option Slot)) (range i : UInt32)
    (prev : Option Slot),
    range.toNat < rd.toNat → rd.toNat ≤ range.toNat + weight ticket (pool rp) →
    range.toNat + weight ticket (pool rp) < 2 ^ 32 → i.toNat + rp.length < 2 ^ 32 →
    ∃ k < (pool rp).length, (drawLoop ticket rd rp range i).toNat = i.toNat + k + 1 ∧
      draw ticket rd range prev (pool rp) = (pool rp)[k]? ∧
      range.toNat + weight ticket ((pool rp).take k) < rd.toNat ∧
      rd.toNat ≤ range.toNat + weight ticket ((pool rp).take (k + 1)) := by
  intro rp
  induction rp with
  | nil =>
    intro range i prev hlt hle
    exact absurd hle hlt.not_ge
  | cons x rp ih =>
    intro range i prev hlt hle hmax hi
    rcases x with _ | p
    · exact absurd hle hlt.not_ge
    rw [pool, weight_cons] at hle hmax
    rw [length_cons] at hi
    have hgt : rd > range := UInt32.lt_iff_toNat_lt.mpr hlt
    have hi1 : (i + 1).toNat = i.toNat + 1 := by
      rw [UInt32.toNat_add]
      exact Nat.mod_eq_of_lt (by show i.toNat + 1 < 2 ^ 32; omega)
    have hrange : (range + ticket p).toNat = range.toNat + (ticket p).toNat := by
      rw [UInt32.toNat_add]
      exact Nat.mod_eq_of_lt (by omega)
    rw [drawLoop, if_pos hgt, pool, draw, if_pos hgt]
    rcases Nat.lt_or_ge (range + ticket p).toNat rd.toNat with hmore | hdone
    · obtain ⟨k, hk, hloop, hdraw, h1, h2⟩ := ih (range + ticket p) (i + 1) (some p) hmore
        (by omega) (by omega) (by omega)
      refine ⟨k + 1, by simpa using hk, by omega, by simpa using hdraw, ?_, ?_⟩
      · rw [take_succ_cons, weight_cons]
        omega
      · rw [take_succ_cons, weight_cons]
        omega
    -- `p` is the winner: the next test ends the loop
    have hstop : ¬rd > range + ticket p :=
      fun h => absurd (UInt32.lt_iff_toNat_lt.mp h) hdone.not_gt
    refine ⟨0, Nat.succ_pos _, ?_, ?_, by simpa [weight] using hlt, ?_⟩
    · rw [← hi1]
      rcases rp with _ | ⟨_ | q, rp⟩
      · rfl
      · rfl
      · rw [drawLoop, if_neg hstop]
    · rcases hps : pool rp with _ | ⟨q, ps⟩
      · rfl
      · rw [draw, if_neg hstop]
        rfl
    · rw [take_succ_cons, weight_cons]
      omega

theorem drawIndex_spec (rd : UInt32) (hlen : rp.length = NPROC)
    (hmax : weight ticket (pool rp) < 2 ^ 32) (h1 : 1 ≤ rd.toNat)
    (h2 : rd.toNat ≤ weight ticket (pool rp)) :
    ∃ i < (pool rp).length, (drawIndex ticket rp rd).toNat = i ∧
      draw ticket rd 0 none (pool rp) = (pool rp)[i]? ∧
      weight ticket ((pool rp).take i) < rd.toNat ∧
      rd.toNat ≤ weight ticket ((pool rp).take (i + 1)) := by
  have hzero : (0 : UInt32).toNat = 0 := rfl
  obtain ⟨k, hk, hloop, hdraw, h3, h4⟩ := drawLoop_spec ticket rp 0 0 none h1
    (by rwa [hzero, Nat.zero_add]) (by rwa [hzero, Nat.zero_add]) (by rw [hlen]; decide)
  rw [hzero] at h3 h4
  refine ⟨k, hk, ?_, hdraw, by omega, by omega⟩
  have hone : 1 ≤ drawLoop ticket rd rp 0 0 := by
    rw [UInt32.le_iff_toNat_le, hloop]
    exact Nat.le_add_left ..
  rw [drawIndex, UInt32.toNat_sub_of_le _ _ hone, hloop]
  show 0 + k + 1 - 1 = k
  omega

/-- **The draw is proportional.** For every array whose processes have tickets without overflow,
each number selects the position whose tickets it is among; so each position is selected by as many
numbers as it has tickets. -/
theorem draw_proportional (ticket : Slot → UInt32) (rp : List (Option Slot))
    (hlen : rp.length = NPROC) (hmax : weight ticket (pool rp) < 2 ^ 32) :
    (∀ rd : UInt32, 1 ≤ rd.toNat → rd.toNat ≤ weight ticket (pool rp) →
      ∃ i < (pool rp).length, (drawIndex ticket rp rd).toNat = i ∧
        draw ticket rd 0 none (pool rp) = (pool rp)[i]? ∧
        weight ticket ((pool rp).take i) < rd.toNat ∧
        rd.toNat ≤ weight ticket ((pool rp).take (i + 1))) ∧
      ∀ i (hi : i < (pool rp).length), ((Finset.Icc 1 (weight ticket (pool rp))).filter fun rd =>
        (drawIndex ticket rp (UInt32.ofNat rd)).toNat = i).card = (ticket (pool rp)[i]).toNat := by
  refine ⟨fun rd h1 h2 => drawIndex_spec rd hlen hmax h1 h2, fun i hi => ?_⟩
  have hall : weight ticket ((pool rp).take (i + 1)) ≤ weight ticket (pool rp) := by
    have := weight_take_mono ticket (pool rp) (show i + 1 ≤ (pool rp).length from hi)
    rwa [take_length] at this
  -- the numbers that select `i` are those above the tickets before it, up to its own
  have hset : ((Finset.Icc 1 (weight ticket (pool rp))).filter fun rd =>
      (drawIndex ticket rp (UInt32.ofNat rd)).toNat = i) =
        Finset.Ioc (weight ticket ((pool rp).take i)) (weight ticket ((pool rp).take (i + 1))) := by
    ext rd
    rw [Finset.mem_filter, Finset.mem_Icc, Finset.mem_Ioc]
    have hof : rd ≤ weight ticket (pool rp) → (UInt32.ofNat rd).toNat = rd := fun h =>
      UInt32.toNat_ofNat_of_lt' (h.trans_lt hmax)
    constructor
    · rintro ⟨⟨h1, h2⟩, rfl⟩
      obtain ⟨j, -, hj, -, h3, h4⟩ := drawIndex_spec (UInt32.ofNat rd) hlen hmax
        (by rwa [hof h2]) (by rwa [hof h2])
      rw [hof h2] at h3 h4
      rw [hj]
      exact ⟨h3, h4⟩
    · rintro ⟨h3, h4⟩
      have h2 := h4.trans hall
      refine ⟨⟨by omega, h2⟩, ?_⟩
      obtain ⟨j, -, hj, -, h5, h6⟩ := drawIndex_spec (UInt32.ofNat rd) hlen hmax
        (by rw [hof h2]; omega) (by rwa [hof h2])
      rw [hof h2] at h5 h6
      rw [hj]
      rcases lt_trichotomy j i with hlt | heq | hgt
      · have := weight_take_mono ticket (pool rp) (show j + 1 ≤ i from hlt)
        omega
      · exact heq
      · have := weight_take_mono ticket (pool rp) (show i + 1 ≤ j from hgt)
        omega
  rw [hset, Nat.card_Ioc, weight_take_succ hi]
  omega

/-- Two processes with ten tickets each: ten numbers select the second one. -/
theorem draw_proportional_two : pool ([some 0, some 1] ++ List.replicate 62 none) = [0, 1] ∧
      ((Finset.Icc 1 20).filter fun rd => (drawIndex (fun _ => 10)
        ([some 0, some 1] ++ List.replicate 62 none) (UInt32.ofNat rd)).toNat = 1).card = 10 :=
  ⟨rfl, (draw_proportional (fun _ => 10) ([some 0, some 1] ++ List.replicate 62 none) rfl
    (by decide)).2 1 (by decide)⟩

end Draw

/-! ## Accesses to `run_p` -/

theorem length_pool_le : ∀ rp : List (Option Slot), (pool rp).length ≤ rp.length
  | [] => le_rfl
  | none :: _ => Nat.zero_le _
  | some _ :: rp => Nat.succ_le_succ (length_pool_le rp)

theorem getD_pool : ∀ (rp : List (Option Slot)) {i : ℕ} (hi : i < (pool rp).length),
    rp.getD i none = some (pool rp)[i]
  | some _ :: _, 0, _ => rfl
  | some _ :: rp, _ + 1, hi => getD_pool rp (Nat.lt_of_succ_lt_succ hi)

/-- What a round finds: the table and `randstate`, whatever has become of them. -/
structure Table where
  proc : Slot → Proc
  randstate : UInt32

/-- The state in which a round finds the table `t` and its array `rp`. -/
def Table.sys (t : Table) (rp : List (Option Slot)) : ProcSys :=
  { start with proc := t.proc, randstate := t.randstate, cpu := fun _ => ⟨none, rp⟩ }

/-- One round of `scheduler` up to the switch: what it leaves in `run_p`. -/
def schedule (rp : List (Option Slot)) (t : Table) : Except Stop (List (Option Slot)) :=
  ((t.sys rp).assignTickets.pick 0).map fun x => (x.1.cpu 0).runP

/-- The table is not full of RUNNABLE processes, and these have different pids. -/
def Table.Fits (t : Table) : Prop :=
  (t.sys []).runnables.length < NPROC ∧
    ∀ p q, (t.proc p).state = .runnable → (t.proc q).state = .runnable →
      (t.proc p).pid = (t.proc q).pid → p = q

/-- After the tickets have been given out the sum of a pool is positive. -/
theorem tickets_assign (s : ProcSys) : ∀ (ps : List Slot), ps.length ≤ NPROC →
    (s.assignTickets.tickets ps).toNat = weight (fun p => (s.assignTickets.proc p).ticket) ps ∧
      10 * ps.length ≤ weight (fun p => (s.assignTickets.proc p).ticket) ps ∧
      weight (fun p => (s.assignTickets.proc p).ticket) ps ≤ 50 * ps.length := by
  have hn : NPROC = 64 := rfl
  intro ps
  induction ps with
  | nil => exact fun _ => ⟨rfl, le_rfl, le_rfl⟩
  | cons p ps ih =>
    intro hlen
    rw [length_cons] at hlen
    obtain ⟨h1, h2, h3⟩ := ih (by omega)
    have hp : (s.assignTickets.proc p).ticket.toNat = 10 ∨
      (s.assignTickets.proc p).ticket.toNat = 50 := by
      rw [assignTickets]
      dsimp only
      split
      · exact .inr rfl
      · exact .inl rfl
    have hsum : (s.assignTickets.tickets (p :: ps)).toNat =
        ((s.assignTickets.proc p).ticket.toNat + (s.assignTickets.tickets ps).toNat) % 2 ^ 32 := by
      rw [tickets, map_cons, sum_cons, UInt32.toNat_add]
      rfl
    rw [weight_cons, length_cons, hsum, h1]
    omega

/-- A lottery over a non-empty pool has a winner. -/
theorem lottery_ok (s : ProcSys) (c : ℕ) {rp : List (Option Slot)} (hlen : rp.length = NPROC)
    (hne : pool rp ≠ []) : ∃ x, s.assignTickets.lottery c rp = .ok x := by
  have hn : NPROC = 64 := rfl
  have hpool : (pool rp).length ≤ NPROC := hlen ▸ length_pool_le rp
  obtain ⟨hsum, hmin, hmax⟩ := tickets_assign s (pool rp) hpool
  have hpos := length_pos_of_ne_nil hne
  obtain ⟨m, hm⟩ : ∃ m, m = s.assignTickets.tickets (pool rp) := ⟨_, rfl⟩
  rw [← hm] at hsum
  have hm0 : m ≠ 0 := by
    rintro rfl
    have : (0 : UInt32).toNat = 0 := rfl
    omega
  obtain ⟨h1, h2⟩ : 1 ≤ (rand s.randstate m).1.toNat ∧ (rand s.randstate m).1.toNat ≤ m.toNat := by
    have hval := toNat_drawn s.randstate hm0 0
    rw [drawn, iterate_zero_apply, iterate_zero_apply] at hval
    rw [hval]
    exact ⟨Nat.le_add_left .., Nat.succ_le_of_lt (Nat.mod_lt _ (toNat_pos hm0))⟩
  obtain ⟨i, hi, -, hdraw, -⟩ := drawIndex_spec _ hlen (hsum ▸ m.toNat_lt) h1 (h2.trans_eq hsum)
  rw [getElem?_eq_getElem hi] at hdraw
  rw [lottery, ← hm]
  simp only [if_neg hm0]
  have hstate : s.assignTickets.randstate = s.randstate := rfl
  rw [hstate, hdraw]
  exact ⟨_, rfl⟩

/-- **A round of a table that fits**, if the last entry of `run_p` is null. -/
theorem schedule_ok {t : Table} {rp : List (Option Slot)} (h : t.Fits) (hlen : rp.length = NPROC)
    (hlast : rp.getD (NPROC - 1) none = none) :
    ∃ rp', schedule rp t = .ok rp' ∧ rp'.length = NPROC ∧ rp'.getD (NPROC - 1) none = none := by
  obtain ⟨s, hs⟩ : ∃ s, s = t.sys rp := ⟨_, rfl⟩
  have hcpu : (s.cpu 0).runP = rp := by rw [hs]; rfl
  have hlt : s.runnables.length < NPROC := by rw [hs]; exact h.1
  have hscan : (s.scan 0).length = NPROC := length_scan (by rw [hcpu, hlen])
  have hnull : (s.scan 0).getD (NPROC - 1) none = none := by
    rw [scan_getD_ge (by omega), hcpu, hlast]
  have hpool : (pool (s.scan 0)).length < NPROC := by
    have hle := length_pool_le (s.scan 0)
    rcases Nat.lt_or_ge (pool (s.scan 0)).length NPROC with hlt | hge
    · exact hlt
    · have := getD_pool (s.scan 0) (i := NPROC - 1) (lt_of_lt_of_le (by decide) hge)
      rw [this] at hnull
      cases hnull
  -- the pids differ, so that the duplicate removal does nothing
  have hcand : s.assignTickets.candidates 0 = .ok (s.scan 0) := by
    rw [candidates, assignTickets_scan, if_pos hpool]
    refine removeDups_scan (s := s.assignTickets) 0 fun p hp q hq he => ?_
    have hrun : ∀ p ∈ s.assignTickets.runnables, (t.proc p).state = .runnable := by
      rw [hs]
      exact fun p hp => mem_runnables.mp hp
    refine h.2 p q (hrun p hp) (hrun q hq) ?_
    rw [hs] at he
    exact he
  rw [schedule, ← hs, pick, assignTickets_runnables]
  split
  · refine ⟨rp, congrArg Except.ok hcpu, hlen, hlast⟩
  · refine ⟨s.scan 0, ?_, hscan, hnull⟩
    simp [Except.map]
  rename_i h0 _
  rw [hcand]
  have hne : pool (s.scan 0) ≠ [] := by
    rw [scan, pool_map_append]
    exact fun hc => h0 (append_eq_nil_iff.mp hc).1
  obtain ⟨⟨s', p⟩, hl⟩ := lottery_ok s 0 hscan hne
  have hrp : (s'.cpu 0).runP = s.scan 0 := by rw [(lottery_inv hl).2.2.2.2]; simp
  dsimp only
  rw [hl]
  exact ⟨s.scan 0, congrArg Except.ok hrp, hscan, hnull⟩

/-- **The accesses to `run_p` are in range**, whatever the tables are that the rounds of a CPU find,
as long as they fit: no round leaves the array, dereferences a null entry or divides by zero. -/
theorem schedule_safe (ts : List Table) (h : ∀ t ∈ ts, t.Fits) :
    ∃ rp, run schedule (List.replicate NPROC none) ts = .ok rp := by
  have key : ∀ (ts : List Table) (rp : List (Option Slot)), (∀ t ∈ ts, t.Fits) → rp.length = NPROC →
      rp.getD (NPROC - 1) none = none → ∃ rp', run schedule rp ts = .ok rp' := by
    intro ts
    induction ts with
    | nil => exact fun rp _ _ _ => ⟨rp, rfl⟩
    | cons t ts ih =>
      intro rp h hlen hlast
      obtain ⟨rp1, hs, hlen1, hlast1⟩ := schedule_ok (h t mem_cons_self) hlen hlast
      rw [run_cons_ok hs]
      exact ih rp1 (fun t' ht' => h t' (mem_cons_of_mem _ ht')) hlen1 hlast1
  exact key ts _ h rfl rfl

/-- A table in which the first `n` slots are RUNNABLE, with these pids. -/
def runnableTable (n : ℕ) (pid : Slot → Int32) : Table where
  proc := fun p =>
    { start.proc p with state := if p < n then .runnable else .unused, pid := pid p }
  randstate := 1

/-- Two processes with pids 1 and 2, in two rounds. -/
theorem schedule_safe_two : ∃ t rp, (t.sys []).runnables = [0, 1] ∧
    run schedule (List.replicate NPROC none) [t, t] = .ok rp := by
  have hfits : (runnableTable 2 fun p => if p = 0 then 1 else 2).Fits := by
    refine ⟨by decide, fun p q hp hq he => ?_⟩
    have hlt : ∀ p : Slot, ((runnableTable 2 fun p => if p = 0 then 1 else 2).proc p).state =
        .runnable → (p : ℕ) < 2 := by
      intro p hp
      by_contra hc
      rw [runnableTable] at hp
      simp [hc] at hp
    have hzero : ∀ p : Slot, p = 0 ↔ (p : ℕ) = 0 := fun p => Fin.ext_iff
    have hp := hlt p hp
    have hq := hlt q hq
    by_cases h1 : p = 0 <;> by_cases h2 : q = 0
    · rw [h1, h2]
    · simp [runnableTable, h1, h2] at he
    · simp [runnableTable, h1, h2] at he
    · rw [hzero] at h1 h2
      exact Fin.ext (by omega)
  obtain ⟨rp, hrp⟩ := schedule_safe [_, _] (by
    intro t ht
    rcases mem_pair.mp ht with rfl | rfl
    · exact hfits
    · exact hfits)
  exact ⟨_, rp, by decide, hrp⟩

/-- A table full of RUNNABLE processes makes the loop that prints them go on behind the end of
`run_p`. -/
theorem schedule_full {t : Table} {rp : List (Option Slot)} (h : ∀ p, (t.proc p).state = .runnable)
    (hlen : rp.length = NPROC) : schedule rp t = .error .outOfBounds := by
  have hrun : (t.sys rp).assignTickets.runnables = List.finRange NPROC :=
    filter_eq_self.mpr fun p _ => beq_iff_eq.mpr (h p)
  have hscan : (t.sys rp).assignTickets.scan 0 = (List.finRange NPROC).map some := by
    rw [scan, hrun, length_finRange]
    show _ ++ rp.drop NPROC = _
    rw [drop_eq_nil_of_le hlen.le, append_nil]
  have hpool : ¬(pool ((t.sys rp).assignTickets.scan 0)).length < NPROC := by
    have := pool_map_append (List.finRange NPROC) []
    rw [append_nil] at this
    rw [hscan, this]
    simp [pool]
  rw [schedule, pick]
  split
  · rename_i h0
    rw [hrun] at h0
    cases h0
  · rename_i h1
    rw [hrun] at h1
    cases h1
  · rw [candidates, if_neg hpool]
    rfl

/-- **A full table** ends with an access behind the end of `run_p`. And **equal pids**: of three
processes with one pid the third is compared with a null entry. -/
theorem schedule_fails : ∃ t1 t2 : Table,
    schedule (List.replicate NPROC none) t1 = .error .outOfBounds ∧
      schedule (List.replicate NPROC none) t2 = .error .nullDeref :=
  ⟨runnableTable 64 fun _ => 1, runnableTable 3 fun _ => 1,
    schedule_full (fun p => if_pos p.isLt) rfl, rfl⟩

end ProcSys

end Xv6
