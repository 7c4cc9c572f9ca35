import Xv6.ExitWait

/-!
# Pids identify processes

`allocproc` numbers processes with `nextpid++`, a 32-bit `int`, and a `fork` that fails has used a
number, too. As long as `nextpid` has not wrapped around, pids are fresh: `Fresh` is the invariant,
and it says more than that processes have different pids. A slot that `fork` has given up keeps its
pid, and `kill` looks at all slots; so no other slot may carry the pid of a process.

* `pids_unique`: **as long as `nextpid` is positive at each `fork`**, pids are positive and unique.
* `pids_repeat`: after 2147483646 failed `fork`s the next child has a negative pid, and after
  4294967295 it has the pid of `init`.
-/

namespace Xv6

namespace ProcSys

/-! ## 32-bit numbers -/

/-- The bits of a pid, as a number. -/
def serial (pid : Int32) : ℕ := pid.toUInt32.toNat

/-- The positive numbers are those below `2 ^ 31`. -/
theorem pos_iff_serial {a : Int32} : 0 < a ↔ 0 < serial a ∧ serial a < 2 ^ 31 := by
  have hbits : serial a = a.toBitVec.toNat := by
    rw [serial, ← UInt32.toNat_toBitVec, Int32.toBitVec_toUInt32]
  have hint : a.toInt = a.toBitVec.toInt := (Int32.toInt_toBitVec a).symm
  have hzero : (0 : Int32).toInt = 0 := by decide
  rw [Int32.lt_iff_toInt_lt, hzero, hint, hbits, BitVec.toInt_eq_toNat_cond]
  split <;> omega

theorem serial_succ {a : Int32} (h : serial a < 2 ^ 31) : serial (a + 1) = serial a + 1 := by
  have hone : (Int32.toUInt32 1).toNat = 1 := by decide
  rw [serial] at h ⊢
  rw [Int32.toUInt32_add, UInt32.toNat_add, hone, serial]
  omega

/-! ## The invariant -/

/-- No pid is ahead of `nextpid`, processes have positive pids, and no other slot carries the pid of
a process. -/
structure Fresh (s : ProcSys) : Prop where
  next : serial s.nextpid ≤ 2 ^ 31
  behind : ∀ p, serial (s.proc p).pid < serial s.nextpid
  pos : ∀ p, (s.proc p).state ≠ .unused → 0 < serial (s.proc p).pid
  uniq : ∀ p q, (s.proc p).state ≠ .unused → (s.proc q).pid = (s.proc p).pid → q = p

variable {s s' : ProcSys} {c : ℕ} {p q : Slot}

section

variable (h : Fresh s)

include h

/-- Steps that number no process and create none. -/
theorem Fresh.keep (hnext : s'.nextpid = s.nextpid) (hpid : ∀ p, (s'.proc p).pid = (s.proc p).pid)
    (hstate : ∀ p, (s'.proc p).state ≠ .unused → (s.proc p).state ≠ .unused) : Fresh s' := by
  refine ⟨by rw [hnext]; exact h.next, fun p => ?_, fun p hp => ?_, fun p q hp he => ?_⟩
  · rw [hpid, hnext]
    exact h.behind p
  · rw [hpid]
    exact h.pos p (hstate p hp)
  · rw [hpid, hpid] at he
    exact h.uniq p q (hstate p hp) he

/-- The same, for a change of one slot. -/
theorem Fresh.update {x : Proc} (hproc : s'.proc = Function.update s.proc q x)
    (hnext : s'.nextpid = s.nextpid) (hpid : x.pid = (s.proc q).pid)
    (hstate : x.state ≠ .unused → (s.proc q).state ≠ .unused) : Fresh s' := by
  refine h.keep hnext (fun p => ?_) fun p => ?_
  · rw [hproc]
    rcases eq_or_ne p q with rfl | hne
    · rw [Function.update_self, hpid]
    · rw [Function.update_of_ne hne]
  rw [hproc]
  rcases eq_or_ne p q with rfl | hne
  · rw [Function.update_self]
    exact hstate
  · rw [Function.update_of_ne hne]
    exact id

/-- Waking processes up creates none. -/
theorem Fresh.woken (hw : Woken s s') (hnext : s'.nextpid = s.nextpid)
    (hpid : ∀ p, (s'.proc p).pid = (s.proc p).pid) : Fresh s' := by
  refine h.keep hnext hpid fun p hp => ?_
  rcases hw.2.2 p with he | ⟨hs, -⟩
  · rwa [← he]
  · rw [hs]
    simp

theorem Fresh.congr (hproc : s'.proc = s.proc) (hnext : s'.nextpid = s.nextpid) : Fresh s' :=
  h.keep hnext (fun p => by rw [hproc]) fun p hp => by rwa [hproc] at hp

/-- A slot is taken, with the next number. -/
theorem Fresh.fork (hpos : 0 < s.nextpid) : Fresh (s.fork p) := by
  obtain ⟨hp1, hp2⟩ := pos_iff_serial.mp hpos
  rw [ProcSys.fork, allocproc]
  rcases hf : s.findSlot fun x => x.state == .unused with _ | np
  · exact h
  have hnew : serial (s.nextpid + 1) = serial s.nextpid + 1 := serial_succ hp2
  -- the slot `np` against the others
  have hself : ∀ r,
      Function.update s.proc np { s.proc np with state := .embryo, pid := s.nextpid } r =
        if r = np then { s.proc np with state := .embryo, pid := s.nextpid } else s.proc r :=
    fun r => Function.update_apply ..
  have hother : ∀ r, (s.proc r).pid ≠ s.nextpid := fun r he => by
    have := h.behind r
    rw [he] at this
    exact Nat.lt_irrefl _ this
  refine ⟨?_, fun r => ?_, fun r hr => ?_, fun r r' hr he => ?_⟩
  · show serial (s.nextpid + 1) ≤ 2 ^ 31
    omega
  · show serial (Function.update s.proc np _ r).pid < serial (s.nextpid + 1)
    have := h.behind r
    rw [hself, hnew]
    split
    · exact Nat.lt_succ_self _
    · omega
  · change (Function.update s.proc np _ r).state ≠ .unused at hr
    show 0 < serial (Function.update s.proc np _ r).pid
    rw [hself] at hr ⊢
    split
    · exact hp1
    · rename_i hne
      rw [if_neg hne] at hr
      exact h.pos r hr
  · change (Function.update s.proc np _ r).state ≠ .unused at hr
    change (Function.update s.proc np _ r').pid = (Function.update s.proc np _ r).pid at he
    rw [hself] at hr he
    rw [hself] at he
    by_cases h1 : r = np
    · by_cases h2 : r' = np
      · rw [h1, h2]
      · rw [if_neg h2, if_pos h1] at he
        exact absurd he (hother r')
    rw [if_neg h1] at hr he
    by_cases h2 : r' = np
    · rw [if_pos h2] at he
      exact absurd he.symm (hother r)
    · rw [if_neg h2] at he
      exact h.uniq r r' hr he

/-- A slot is freed, and its pid cleared. -/
theorem Fresh.reap : Fresh (s.reap q) := by
  have hself : ∀ r, (((s.reap q).proc r).state ≠ .unused → r ≠ q) ∧
      (r ≠ q → (s.reap q).proc r = s.proc r) := by
    intro r
    refine ⟨fun hr he => hr ?_, fun hne => Function.update_of_ne hne ..⟩
    rw [he]
    simp [ProcSys.reap]
  have hq : ((s.reap q).proc q).pid = 0 := by simp [ProcSys.reap]
  have hzero : serial 0 = 0 := by decide
  have hnext : 0 < serial s.nextpid := Nat.lt_of_le_of_lt (Nat.zero_le _) (h.behind q)
  refine ⟨h.next, fun r => ?_, fun r hr => ?_, fun r r' hr he => ?_⟩
  · show _ < serial s.nextpid
    rcases eq_or_ne r q with rfl | hne
    · rw [hq, hzero]
      exact hnext
    · rw [(hself r).2 hne]
      exact h.behind r
  · have hne := (hself r).1 hr
    rw [(hself r).2 hne] at hr ⊢
    exact h.pos r hr
  have hne := (hself r).1 hr
  rw [(hself r).2 hne] at hr he
  rcases eq_or_ne r' q with rfl | hne'
  · rw [hq] at he
    have := h.pos r hr
    rw [← he, hzero] at this
    exact absurd this (Nat.lt_irrefl 0)
  · rw [(hself r').2 hne'] at he
    exact h.uniq r r' hr he

theorem Fresh.wait (hp : (s.proc p).state ≠ .unused) : Fresh (s.wait c p) := by
  rcases wait_cases s c p with ⟨q, pid, -, he⟩ | ⟨-, he | he⟩
  · rw [he]
    exact (h.reap (q := q)).congr rfl rfl
  · rw [he]
    exact h.congr rfl rfl
  · rw [he]
    exact h.update rfl rfl rfl fun _ => hp

end

theorem reparent_nextpid (s : ProcSys) (p : Slot) : (s.reparent p).nextpid = s.nextpid := by
  refine List.foldlRecOn (motive := fun (t : ProcSys) => t.nextpid = s.nextpid) _ _ rfl ?_
  intro t ht q _
  dsimp only
  split
  · split
    · exact ht
    · exact ht
  · exact ht

section

variable (h : Fresh s) (hp : (s.proc p).state ≠ .unused)

include h hp

/-- `exit` after it has woken the parent. -/
theorem Fresh.exited {u : ProcSys} (hu : s.reparent p = u) :
    Fresh (((u.setProc p { u.proc p with state := .zombie }).sched c).setKont p .exited) := by
  have hr : Fresh u := by
    rw [← hu]
    exact h.woken (woken_reparent s p) (reparent_nextpid s p) fun r => (calm_reparent s p r).pid
  refine hr.update (q := p) rfl rfl rfl fun _ hc => hp ?_
  rw [← hu] at hc
  exact (calm_reparent s p p).unused hc

theorem Fresh.exit (he : s.exit c p = .ok s') : Fresh s' := by
  rw [ProcSys.exit] at he
  split at he
  · cases he
  rcases hpar : (s.proc p).parent with _ | q <;> simp only [hpar] at he <;>
    cases he
  · exact h.exited hp rfl
  · refine Fresh.exited ?_ (fun hc => hp ((calm_wakeup1 s _ p).unused hc)) rfl
    exact h.woken (woken_wakeup1 s _) rfl fun r => (calm_wakeup1 s _ r).pid

theorem Fresh.resume : Fresh (s.resume c p) :=
  h.update (q := p) rfl rfl rfl fun _ => hp

end

/-- Each `fork` finds `nextpid` positive. -/
def ForkPos (s : ProcSys) (e : ProcEvent) : Prop := ∀ c, e = .fork c → 0 < s.nextpid

/-- **One step.** -/
theorem Fresh.step {e : ProcEvent} (h : Fresh s) (hv : Valid s) (hC : ForkPos s e)
    (hs : s.step e = .ok s') : Fresh s' := by
  have hrun : ∀ {c p}, (s.cpu c).proc = some p → (s.proc p).state ≠ .unused := fun hp => by
    rw [hv.running _ _ hp]
    simp
  have hpick : ∀ {c t w}, s.assignTickets.pick c = .ok (t, w) → Fresh t := fun hp => by
    obtain ⟨hproc, -⟩ := pick_proc hp
    refine h.keep (pick_inv hp).2.2.1 (fun r => (hproc r).2.2.2) fun r hr => ?_
    rwa [(hproc r).1] at hr
  -- a process that is switched to has a context
  have hlive : ∀ {c t w r}, s.assignTickets.pick c = .ok (t, w) → t.kont r ≠ .none →
      (t.proc r).state ≠ .unused := fun hp hk hu =>
    hk ((hv.pick hp).1.context _ (.inl hu))
  cases step_trans hs with
  | idle c _ hp => exact hpick hp
  | resume c r t _ hp _ hk => exact (hpick hp).resume (hlive hp hk)
  | resumeWait c r t _ hp _ hk =>
    exact ((hpick hp).resume (hlive hp hk)).wait (by simp [ProcSys.resume])
  | yield c r hr => exact h.update (q := r) rfl rfl rfl fun _ => hrun hr
  | sleep c r chan hr _ => exact h.update (q := r) rfl rfl rfl fun _ => hrun hr
  | wakeup chan => exact h.woken (woken_wakeup1 s chan) rfl fun r => (calm_wakeup1 s chan r).pid
  | exit c r _ hr _ he => exact h.exit (hrun hr) he
  | wait c r hr _ => exact h.wait (hrun hr)
  | kill c r pid _ _ =>
    rw [ProcSys.kill]
    split
    · rename_i t ht
      refine h.update (q := t) rfl rfl rfl fun hx hu => hx ?_
      simp [hu]
    · exact h
  | fork c r _ _ => exact h.fork (hC c rfl)
  | forkFail c r np _ _ => exact h.update (q := np) rfl rfl rfl fun hx => absurd rfl hx
  | forkCopy c r np _ _ => exact h.update (q := np) rfl rfl rfl id
  | forkDone c r np _ hk =>
    refine h.update (q := np) rfl rfl rfl fun _ => ?_
    rw [hv.embryo r np (by rw [hk]; rfl)]
    simp
  | exec c r last _ _ => exact h.update (q := r) rfl rfl rfl id
  | fault c r _ _ => exact h.update (q := r) rfl rfl rfl id

theorem fresh_start : Fresh start := by
  refine ⟨by decide, fun p => ?_, fun p hp => ?_, fun p q hp he => ?_⟩
  · by_cases h : p = initproc
    · simp only [start, h, if_true]
      decide
    · simp only [start, h, if_false]
      decide
  · by_cases h : p = initproc
    · simp only [start, h, if_true]
      decide
    · exact absurd (by simp [start, h]) hp
  by_cases h : p = initproc
  · by_cases h' : q = initproc
    · rw [h, h']
    · simp only [start, h, h', if_true, if_false] at he
      exact absurd he (by decide)
  · exact absurd (by simp [start, h]) hp

/-- **Whole runs.** -/
theorem run_fresh {tr : List ProcEvent} (hC : Meets step start ForkPos tr)
    (hrun : run step start tr = .ok s) : Fresh s :=
  (Meets.invariant (P := fun s => Valid s ∧ Fresh s)
    (fun _ _ _ h hc hs => ⟨valid_step h.1 hs, h.2.step h.1 hc hs⟩)
    ⟨valid_start, fresh_start⟩ hC hrun).2

theorem Fresh.pid_pos (h : Fresh s) (hp : (s.proc p).state ≠ .unused) : 0 < (s.proc p).pid := by
  refine pos_iff_serial.mpr ⟨h.pos p hp, ?_⟩
  have h1 := h.behind p
  have h2 := h.next
  omega

/-- The search of `kill` for the pid of a process ends at the process. -/
theorem Fresh.findSlot_pid (h : Fresh s) (hp : (s.proc p).state ≠ .unused) :
    s.findSlot (fun x => x.pid == (s.proc p).pid) = some p := by
  rcases hf : s.findSlot (fun x => x.pid == (s.proc p).pid) with _ | q
  · have := findSlot_none hf p
    simp at this
  · have := findSlot_some hf
    rw [beq_iff_eq] at this
    rw [h.uniq p q hp this]

/-- **Pids identify processes**, in every run in which `nextpid` is positive at each `fork`: they
are positive and distinct, `fork` returns a positive number to the parent, `kill` finds the process
with the pid, and what `wait` returns names the child that it has found and no other process. -/
theorem pids_unique {tr : List ProcEvent} (hC : Meets step start ForkPos tr)
    (hrun : run step start tr = .ok s) :
    (∀ p, (s.proc p).state ≠ .unused → 0 < (s.proc p).pid) ∧
    (∀ p q, (s.proc p).state ≠ .unused → (s.proc q).state ≠ .unused →
      (s.proc p).pid = (s.proc q).pid → p = q) ∧
    (∀ p np, s.kont p = .forkCopied np → 0 < (s.proc np).pid) ∧
    (∀ p, (s.proc p).state ≠ .unused →
      s.findSlot (fun x => x.pid == (s.proc p).pid) = some p) ∧
    ∀ p q pid, s.waitFinds p = some (q, pid) →
      0 < pid ∧ ∀ r, (s.proc r).state ≠ .unused → (s.proc r).pid = pid → r = q := by
  have h := run_fresh hC hrun
  have hv := run_valid hrun
  refine ⟨fun p hp => h.pid_pos hp, fun p q hp _ he => (h.uniq p q hp he.symm).symm,
    fun p np hk => h.pid_pos ?_, fun p hp => h.findSlot_pid hp, fun p q pid hw => ?_⟩
  · rw [hv.embryo p np (by rw [hk]; rfl)]
    simp
  · obtain ⟨-, hz, rfl⟩ := waitFinds_some hw
    have hlive : (s.proc q).state ≠ .unused := by
      rw [hz]
      simp
    exact ⟨h.pid_pos hlive, fun r _ he => h.uniq q r hlive he⟩

/-- `init` forks a child and waits for it. -/
theorem pids_unique_child : ∃ s,
    run step start [.round 0, .fork 0, .forkCopy 0, .forkDone 0] = .ok s ∧
    0 < (s.proc 1).pid ∧ s.findSlot (fun x => x.pid == (s.proc 1).pid) = some 1 := by
  have hC : Meets step start ForkPos [.round 0, .fork 0, .forkCopy 0, .forkDone 0] := by
    refine .cons (by rintro c ⟨⟩) fun _ h0 => .cons ?_ fun _ _ => .cons (by rintro c ⟨⟩) fun _ _ =>
      .cons (by rintro c ⟨⟩) fun _ _ => .nil
    rintro c ⟨⟩
    cases h0
    decide
  refine ⟨_, rfl, ?_⟩
  have h := pids_unique hC rfl
  exact ⟨h.1 1 (by decide), h.2.2.2.1 1 (by decide)⟩

/-! ## Wrap-around -/

/-- `init` runs on CPU 0 and is outside `fork`, and slot 1 is free. -/
structure Spins (s : ProcSys) (k : Int32) : Prop where
  cpu : (s.cpu 0).proc = some 0
  kont : s.kont 0 = .user
  init : (s.proc 0).state = .running ∧ (s.proc 0).pid = 1
  free : (s.proc 1).state = .unused
  next : s.nextpid = k

variable {k : Int32}

theorem Spins.findSlot (h : Spins s k) : s.findSlot (fun x => x.state == .unused) = some 1 := by
  obtain ⟨l, hl⟩ : ∃ l, List.finRange NPROC = 0 :: 1 :: l := ⟨_, rfl⟩
  simp [ProcSys.findSlot, hl, h.init.1, h.free]

/-- `fork` of `init` takes slot 1. -/
theorem Spins.fork (h : Spins s k) : ∃ t, s.step (.fork 0) = .ok t ∧
    (t.cpu 0).proc = some 0 ∧ t.kont 0 = .forkAlloc 1 ∧ t.nextpid = k + 1 ∧
    ((t.proc 0).state = .running ∧ (t.proc 0).pid = 1) ∧ (t.proc 1).pid = k := by
  refine ⟨s.fork 0, ?_, ?_⟩
  · rw [step, atUser, onCpu, h.cpu]
    simp only [h.kont, if_true]
  · rw [ProcSys.fork, allocproc, h.findSlot, h.next]
    exact ⟨h.cpu, rfl, rfl, h.init, rfl⟩

/-- One `fork` that fails. -/
theorem Spins.again (h : Spins s k) :
    ∃ s', run step s [.fork 0, .forkFail 0] = .ok s' ∧ Spins s' (k + 1) := by
  obtain ⟨t, ht, hcpu, hkont, hnext, hinit, -⟩ := h.fork
  refine ⟨t.forkFail 0 1, ?_, hcpu, rfl, hinit, rfl, hnext⟩
  rw [run_cons_ok ht, run_cons_ok, run_nil]
  rw [step, onCpu, hcpu]
  simp only [hkont]

/-- Any number of them, after the first round of the scheduler. -/
theorem spins_run (n : ℕ) : ∃ s, run step start
    (.round 0 :: (List.replicate n [.fork 0, .forkFail 0]).flatten) = .ok s ∧
      Spins s (Int32.ofNat (2 + n)) := by
  induction n with
  | zero =>
    refine ⟨_, rfl, ?_⟩
    constructor <;> decide
  | succ n ih =>
    obtain ⟨s, hs, h⟩ := ih
    obtain ⟨s', hs', h'⟩ := h.again
    refine ⟨s', ?_, ?_⟩
    · rw [List.replicate_succ', List.flatten_concat, ← List.cons_append]
      exact run_append_ok.mpr ⟨s, hs, hs'⟩
    · rwa [show 2 + (n + 1) = (2 + n) + 1 from rfl, Int32.ofNat_add]

/-- A `fork` of `init` after `n` that have failed. -/
def wraps (n : ℕ) : List ProcEvent :=
  .round 0 :: (List.replicate n [.fork 0, .forkFail 0]).flatten ++
    [.fork 0, .forkCopy 0, .forkDone 0]

theorem wraps_run (n : ℕ) : ∃ s, run step start (wraps n) = .ok s ∧
    (s.proc 0).state = .running ∧ (s.proc 0).pid = 1 ∧
    (s.proc 1).state = .runnable ∧ (s.proc 1).pid = Int32.ofNat (2 + n) := by
  obtain ⟨s, hs, h⟩ := spins_run n
  obtain ⟨s', hs', h'⟩ : ∃ s', run step s [.fork 0, .forkCopy 0, .forkDone 0] = .ok s' ∧
      (s'.proc 0).state = .running ∧ (s'.proc 0).pid = 1 ∧
      (s'.proc 1).state = .runnable ∧ (s'.proc 1).pid = Int32.ofNat (2 + n) := by
    obtain ⟨t, ht, hcpu, hkont, -, hinit, hpid⟩ := h.fork
    refine ⟨(t.forkCopy 0 1).forkDone 0 1, ?_, hinit.1, hinit.2, rfl, hpid⟩
    have hcopy : step t (.forkCopy 0) = .ok (t.forkCopy 0 1) := by
      rw [step, onCpu, hcpu]
      simp only [hkont]
    have hdone : step (t.forkCopy 0 1) (.forkDone 0) = .ok ((t.forkCopy 0 1).forkDone 0 1) := by
      rw [step, onCpu, show ((t.forkCopy 0 1).cpu 0).proc = some 0 from hcpu]
      rfl
    rw [run_cons_ok ht, run_cons_ok hcopy, run_cons_ok hdone, run_nil]
  exact ⟨s', run_append_ok.mpr ⟨s, hs, hs'⟩, h'⟩

/-- Without the condition: a child has a negative pid, which makes `fork` look failed to the parent,
and later a child has the pid of `init`, so that `kill` finds `init` in its place. -/
theorem pids_repeat : (∃ s, run step start (wraps 2147483646) = .ok s ∧
      (s.proc 1).state = .runnable ∧ (s.proc 1).pid < 0) ∧
    ∃ s, run step start (wraps 4294967295) = .ok s ∧
      (s.proc 0).state = .running ∧ (s.proc 1).state = .runnable ∧
      (s.proc 1).pid = (s.proc 0).pid ∧
      s.findSlot (fun x => x.pid == (s.proc 1).pid) = some 0 := by
  obtain ⟨s, hs, -, -, hstate, hpid⟩ := wraps_run 2147483646
  obtain ⟨s', hs', hinit, hone, hstate', hpid'⟩ := wraps_run 4294967295
  have hneg : Int32.ofNat (2 + 2147483646) < 0 := by decide
  have hwrap : Int32.ofNat (2 + 4294967295) = 1 := by decide
  obtain ⟨l, hl⟩ : ∃ l, List.finRange NPROC = 0 :: l := ⟨_, rfl⟩
  refine ⟨⟨s, hs, hstate, by rw [hpid]; exact hneg⟩, s', hs', hinit, hstate', ?_, ?_⟩
  · rw [hpid', hwrap, hone]
  · simp [findSlot, hl, hpid', hwrap, hone]

end ProcSys

end Xv6
