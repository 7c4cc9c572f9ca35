import Xv6.Proc
import Mathlib.Data.List.Nodup

/-!
# The lottery: what a round chooses from

`scheduler` clears `run_p` once, before its first round, and every round overwrites only as many
entries as there are RUNNABLE processes. What is behind them stays from earlier rounds, and the
lottery ranges over all entries up to the first null one.

* `run_stale` says what is left in `run_p`: nothing behind the largest number of RUNNABLE
  processes that any round of this CPU has seen.
* `removeDups_eq` says that the duplicate removal does nothing to processes with different pids.
* `dispatch_safe` puts them together: a round that sees at least as many RUNNABLE processes as
  every earlier round on its CPU draws from exactly these processes.
* `dispatch_sleeping` is a run in which a later, smaller round switches to a SLEEPING process.
-/

namespace Xv6

open List

namespace ProcSys

/-! ## The pool -/

variable {s : ProcSys}

theorem mem_runnables {p : Slot} : p ∈ s.runnables ↔ (s.proc p).state = .runnable := by
  simp [runnables]

theorem runnables_nodup (s : ProcSys) : s.runnables.Nodup :=
  (nodup_finRange NPROC).filter _

theorem length_runnables_le (s : ProcSys) : s.runnables.length ≤ NPROC :=
  (length_filter_le _ _).trans (by simp)

@[simp] theorem assignTickets_runnables (s : ProcSys) :
    s.assignTickets.runnables = s.runnables := rfl

@[simp] theorem assignTickets_scan (s : ProcSys) (c : ℕ) : s.assignTickets.scan c = s.scan c := rfl

/-- The pool of a round starts with the RUNNABLE processes. -/
theorem pool_map_append (ps : List Slot) (rp : List (Option Slot)) :
    pool (ps.map some ++ rp) = ps ++ pool rp := by
  induction ps with
  | nil => rfl
  | cons p ps ih => simp [pool, ih]

theorem pool_eq_nil {rp : List (Option Slot)} (h : rp.getD 0 none = none) : pool rp = [] := by
  cases rp with
  | nil => rfl
  | cons x rp =>
    obtain rfl : x = none := by simpa using h
    rfl

variable {c i : ℕ}

theorem scan_getD_lt (h : i < s.runnables.length) :
    (s.scan c).getD i none = some (s.runnables.get ⟨i, h⟩) := by
  simp [scan, getElem?_append_left, h]

theorem scan_getD_ge (h : s.runnables.length ≤ i) :
    (s.scan c).getD i none = (s.cpu c).runP.getD i none := by
  simp [scan, getElem?_append_right, h, Nat.add_sub_cancel' h]

theorem length_scan {c : ℕ} (h : (s.cpu c).runP.length = NPROC) : (s.scan c).length = NPROC := by
  have := s.length_runnables_le
  simp only [scan, length_append, length_map, length_drop, h]
  omega

/-! ## Removing duplicates -/

variable {proc : Slot → Proc} {rp rp' : List (Option Slot)}

/-- The duplicate removal only ever clears entries. -/
theorem removeDup_clears {i j : ℕ} (h : removeDup proc i rp j = .ok rp') :
    rp'.length = rp.length ∧ ∀ k, rp.getD k none = none → rp'.getD k none = none := by
  unfold removeDup at h
  split at h
  · cases h
    split
    · refine ⟨by simp, fun k hk => ?_⟩
      by_cases hjk : j = k
      · subst hjk
        by_cases hlt : j < rp.length
        · simp [hlt]
        · simp [hlt]
      · simpa [getElem?_set, hjk] using hk
    · exact ⟨rfl, fun _ hk => hk⟩
  · cases h

theorem removeDups_clears {n : ℕ} (h : removeDups proc n rp = .ok rp') :
    rp'.length = rp.length ∧ ∀ k, rp.getD k none = none → rp'.getD k none = none := by
  let P := fun rp' : List (Option Slot) =>
    rp'.length = rp.length ∧ ∀ k, rp.getD k none = none → rp'.getD k none = none
  refine run_invariant (P := P) (fun rp1 rp2 i h1 hs => ?_) ⟨rfl, fun _ hk => hk⟩ _ rp' h
  refine run_invariant (P := P) (fun rp3 rp4 j h3 hs => ?_) h1 _ rp2 hs
  obtain ⟨hlen, hnone⟩ := removeDup_clears hs
  exact ⟨hlen.trans h3.1, fun k hk => hnone k (h3.2 k hk)⟩

/-- Processes with different pids all stay. -/
theorem removeDups_eq {rp : List (Option Slot)} {n : ℕ} (p : ℕ → Slot)
    (hp : ∀ i < n, rp.getD i none = some (p i))
    (hpid : ∀ i j, i < j → j < n → (proc (p i)).pid ≠ (proc (p j)).pid) :
    removeDups proc n rp = .ok rp := by
  refine run_fixed fun i hi => run_fixed fun j hj => ?_
  obtain ⟨k, hk, rfl⟩ := mem_range'.mp hj
  have hi := mem_range.mp hi
  have hij : i + 1 + 1 * k < n := by omega
  rw [removeDup, hp i hi, hp _ hij]
  simp only [if_neg (hpid i _ (by omega) hij)]

/-- If the RUNNABLE processes have different pids, they all stay. -/
theorem removeDups_scan (c : ℕ)
    (hpid : ∀ p ∈ s.runnables, ∀ q ∈ s.runnables, (s.proc p).pid = (s.proc q).pid → p = q) :
    removeDups s.proc s.runnables.length (s.scan c) = .ok (s.scan c) := by
  -- entry `i` is the `i`-th RUNNABLE process
  refine removeDups_eq (fun i => s.runnables.getD i 0) (fun i hi => ?_) fun i j hij hj heq => ?_
  · rw [scan_getD_lt hi]
    simp [hi]
  have hi : i < s.runnables.length := hij.trans hj
  simp only [getD_eq_getElem?_getD, getElem?_eq_getElem hi,
    getElem?_eq_getElem hj, Option.getD_some] at heq
  have := hpid _ (getElem_mem hi) _ (getElem_mem hj) heq
  exact hij.ne ((List.Nodup.getElem_inj_iff s.runnables_nodup).mp this)

/-! ## What stays in `run_p` -/

variable {e : ProcEvent}

/-- Only a round on CPU `c` changes its `run_p`. -/
theorem step_runP {s s' : ProcSys} (h : s.step e = .ok s') (c : ℕ) :
    (s'.cpu c).runP = (s.cpu c).runP ∨
      (e = .round c ∧
        ((s'.cpu c).runP = s.scan c ∨ s.candidates c = .ok (s'.cpu c).runP)) := by
  -- what `pick` leaves there, for any CPU
  have hround : ∀ c1 s1 w, s.assignTickets.pick c1 = .ok (s1, w) →
      (s1.cpu c).runP = (s.cpu c).runP ∨
        (ProcEvent.round c1 = .round c ∧
          ((s1.cpu c).runP = s.scan c ∨ s.candidates c = .ok (s1.cpu c).runP)) := by
    intro c1 s1 w hpick
    obtain ⟨-, -, -, ⟨-, -, hcpu⟩ | ⟨p, rp, -, hcpu, hrp⟩⟩ := pick_inv hpick
    · exact .inl (by rw [hcpu]; rfl)
    by_cases hc : c = c1
    · subst hc
      have hnew : (s1.cpu c).runP = rp := by simp [hcpu]
      rw [hnew]
      rcases hrp with ⟨-, rfl⟩ | ⟨-, hcand, -⟩
      · exact .inr ⟨rfl, .inl rfl⟩
      · exact .inr ⟨rfl, .inr hcand⟩
    · exact .inl (by rw [hcpu, Function.update_of_ne hc]; rfl)
  have hresume : ∀ c1 (s1 : ProcSys) p, ((s1.resume c1 p).cpu c).runP = (s1.cpu c).runP := by
    intro c1 s1 p
    by_cases hc : c = c1
    · simp [resume, hc]
    · simp [resume, hc]
  cases step_trans h with
  | idle c1 _ hpick => exact hround c1 s' none hpick
  | resume c1 p s1 _ hpick _ _ =>
    rw [hresume]
    exact hround c1 s1 _ hpick
  | resumeWait c1 p s1 _ hpick _ _ =>
    rw [wait_runP, hresume]
    exact hround c1 s1 _ hpick
  | yield c1 p hp => exact .inl (by simp [yield])
  | sleep c1 p chan hp hk => exact .inl (by simp [sleep])
  | wakeup chan => exact .inl rfl
  | exit c1 p _ hp hk he =>
    refine .inl ?_
    unfold exit at he
    split at he
    · cases he
    · cases he
      cases (s.proc p).parent <;> simp
  | wait c1 p hp hk => exact .inl (by simp)
  | kill c1 p pid hp hk =>
    refine .inl ?_
    unfold kill
    split <;> rfl
  | fork c1 p hp hk =>
    refine .inl ?_
    unfold fork allocproc
    cases s.findSlot fun x => x.state == .unused <;> rfl
  | forkFail c1 p np hp hk => exact .inl rfl
  | forkCopy c1 p np hp hk => exact .inl rfl
  | forkDone c1 p np hp hk => exact .inl rfl
  | exec c1 p last hp hk => exact .inl rfl
  | fault c1 p hp hk => exact .inl rfl

/-- No round of CPU `c` in `tr` has seen more than `k` RUNNABLE processes. -/
def AtMost (k c : ℕ) (tr : List ProcEvent) : Prop :=
  ∀ u v m, tr = u ++ .round c :: v → run step start u = .ok m → m.runnables.length ≤ k

variable {tr : List ProcEvent}

theorem AtMost.of_concat {k c : ℕ} (h : AtMost k c (tr ++ [e])) : AtMost k c tr := by
  rintro u v m rfl hm
  exact h u (v ++ [e]) m (by simp) hm

/-- **Stale entries.** Behind the largest number of RUNNABLE processes that any round of the CPU
has seen, `run_p` is still clear. -/
theorem run_stale : ∀ (tr : List ProcEvent) (s : ProcSys), run step start tr = .ok s →
    ∀ c, (s.cpu c).runP.length = NPROC ∧
      ∀ k, AtMost k c tr → ∀ i, k ≤ i → (s.cpu c).runP.getD i none = none := by
  refine run_history ?_ ?_
  · intro c
    exact ⟨rfl, fun k _ i _ => by simp [start, getElem?_replicate]; split <;> rfl⟩
  intro tr s s' e hrun ih hs c
  obtain ⟨hlen, hclear⟩ := ih c
  -- the scan writes the first entries, and these are at most `k`
  have hscan : ∀ k, e = .round c → AtMost k c (tr ++ [e]) → ∀ i, k ≤ i →
      (s.scan c).getD i none = none := by
    rintro k rfl hk i hi
    have hn : s.runnables.length ≤ k := hk tr [] s rfl hrun
    rw [scan_getD_ge (hn.trans hi)]
    exact hclear k hk.of_concat i hi
  rcases step_runP hs c with heq | ⟨he, heq | hcand⟩
  · rw [heq]
    exact ⟨hlen, fun k hk => hclear k hk.of_concat⟩
  · rw [heq]
    exact ⟨length_scan hlen, fun k hk => hscan k he hk⟩
  unfold candidates at hcand
  split at hcand
  · obtain ⟨hlen', hnone⟩ := removeDups_clears hcand
    exact ⟨hlen'.trans (length_scan hlen), fun k hk i hi => hnone i (hscan k he hk i hi)⟩
  · cases hcand

/-! ## Dispatch safety -/

/-- A round of CPU `c` in state `s` is as it should be: a lottery gets its pool, draws from each
RUNNABLE process once and from no other, and the process it switches to is RUNNABLE. -/
structure DispatchSafe (s : ProcSys) (c : ℕ) : Prop where
  pool_exact : 2 ≤ s.runnables.length → ∃ rp, s.candidates c = .ok rp ∧
    (pool rp).Nodup ∧ ∀ p, p ∈ pool rp ↔ (s.proc p).state = .runnable
  dispatch : ∀ s' p, s.assignTickets.pick c = .ok (s', some p) → (s.proc p).state = .runnable

/-- The condition on a lottery of CPU `c` after the run `tr`: not all slots are RUNNABLE (the
printing loop would leave `run_p`), no earlier round of this CPU has seen more RUNNABLE processes,
and no two of them have the same pid. -/
def FreshLottery (tr : List ProcEvent) (s : ProcSys) (c : ℕ) : Prop :=
  2 ≤ s.runnables.length → s.runnables.length < NPROC ∧ AtMost s.runnables.length c tr ∧
    ∀ p ∈ s.runnables, ∀ q ∈ s.runnables, (s.proc p).pid = (s.proc q).pid → p = q

/-- A lottery that meets the condition finds exactly the RUNNABLE processes. -/
theorem candidates_eq {c : ℕ} (hrun : run step start tr = .ok s) (hn : 2 ≤ s.runnables.length)
    (hf : FreshLottery tr s c) :
    pool (s.scan c) = s.runnables ∧ s.candidates c = .ok (s.scan c) := by
  obtain ⟨hlt, hmost, hpid⟩ := hf hn
  obtain ⟨hlen, hclear⟩ := run_stale tr s hrun c
  have hpool : pool (s.scan c) = s.runnables := by
    have hrest : ((s.cpu c).runP.drop s.runnables.length).getD 0 none = none := by
      simpa using hclear _ hmost _ le_rfl
    rw [scan, pool_map_append, pool_eq_nil hrest, append_nil]
  refine ⟨hpool, ?_⟩
  rw [candidates, hpool, if_pos hlt]
  exact removeDups_scan c hpid

/-- **Dispatch safety.** In every run in which every lottery meets the condition, every round is
safe. -/
theorem dispatch_safe (tr : List ProcEvent)
    (hfresh : ∀ u c v s, tr = u ++ .round c :: v → run step start u = .ok s → FreshLottery u s c) :
    ∀ u c v s, tr = u ++ .round c :: v → run step start u = .ok s → DispatchSafe s c := by
  intro u c v s htr hrun
  have hf := hfresh u c v s htr hrun
  refine ⟨fun hn => ?_, fun s' p hpick => ?_⟩
  · obtain ⟨hpool, hcand⟩ := candidates_eq hrun hn hf
    refine ⟨_, hcand, ?_⟩
    rw [hpool]
    exact ⟨s.runnables_nodup, fun p => mem_runnables⟩
  obtain ⟨-, -, -, ⟨-, h, -⟩ | ⟨q, rp, hq, -, hrp⟩⟩ := pick_inv hpick
  · cases h
  obtain rfl := Option.some.inj hq
  rw [← mem_runnables]
  rcases hrp with ⟨hone, -⟩ | ⟨hn, hcand', hmem⟩
  · rw [assignTickets_runnables] at hone
    simp [hone]
  obtain ⟨hpool, hcand⟩ := candidates_eq hrun hn hf
  have hrp : s.candidates c = .ok rp := hcand'
  rw [hcand] at hrp
  cases hrp
  rwa [hpool] at hmem

/-- `init` forks and yields; the lottery between the two processes is safe. -/
theorem dispatch_safe_fork :
    ∃ s, run step start [.round 0, .fork 0, .forkCopy 0, .forkDone 0, .yield 0] = .ok s ∧
      DispatchSafe s 0 := by
  refine ⟨_, rfl, dispatch_safe [.round 0, .fork 0, .forkCopy 0, .forkDone 0, .yield 0, .round 0]
    ?_ [.round 0, .fork 0, .forkCopy 0, .forkDone 0, .yield 0] 0 [] _ rfl rfl⟩
  -- the rounds are the first and the last event
  have hsplit : ∀ u c v, [.round 0, .fork 0, .forkCopy 0, .forkDone 0, .yield 0, .round 0] =
      u ++ ProcEvent.round c :: v →
      u = [] ∨ u = [.round 0, .fork 0, .forkCopy 0, .forkDone 0, .yield 0] := by
    intro u c v h
    rcases u with _ | ⟨_, _ | ⟨_, _ | ⟨_, _ | ⟨_, _ | ⟨_, _ | ⟨_, u⟩⟩⟩⟩⟩⟩ <;>
      first
      | exact .inl rfl
      | (cases h; exact .inr rfl)
      | simp at h
  intro u c v s htr hrun hn
  rcases hsplit u c v htr with rfl | rfl
  · cases hrun
    exact absurd hn (by decide)
  cases hrun
  refine ⟨by decide, fun u' v' m h hm => ?_, by decide +kernel⟩
  have h' := congrArg (· ++ [ProcEvent.round 0]) h
  rcases hsplit u' c (v' ++ [.round 0]) (by simpa using h') with rfl | rfl
  · cases hm
    decide
  · cases hm
    exact le_rfl

/-- `init` forks twice and all three processes run in turn; process 2 goes to sleep while it is the
last entry of `run_p`. -/
def staleRun : List ProcEvent :=
  [.round 0, .fork 0, .forkCopy 0, .forkDone 0, .fork 0, .forkCopy 0, .forkDone 0, .yield 0,
    .round 0, .yield 0, .round 0, .sleep 0 (.other 0), .round 0, .yield 0]

/-- The next lottery then draws from three processes, of which two are RUNNABLE, and switches to
the SLEEPING one. -/
theorem dispatch_sleeping : ∃ s s' rp, run step start staleRun = .ok s ∧ s.runnables = [0, 1] ∧
      s.candidates 0 = .ok rp ∧ pool rp = [0, 1, 2] ∧
      s.assignTickets.pick 0 = .ok (s', some 2) ∧ (s.proc 2).state = .sleeping :=
  ⟨_, _, _, rfl, by decide, rfl, by decide, rfl, by decide⟩

end ProcSys

end Xv6
