import Xv6.LogGroup

/-!
# Waiting for the log

`begin_op` sleeps on `&log` while a commit is in progress or the log is short of space, and
`end_op` wakes the sleepers: at once when other operations are still open, after the commit when
it was the last one. This is the machine of `Log.lean` with the sleepers added; each event that
takes `log.lock` is one step, so between two events the lock is free.

* `LogWaitSys.step` adds the sleepers: `begin_op` puts a process to sleep where the machine of
  `Log.lean` cannot take the event, and a process that sleeps does nothing until it is woken;
* `Waiting` is the reason to sleep; **who sleeps has it** (`WaitInv.step`), because every step that
  could take it away wakes everybody;
* `LogWaitSys.group_commit` is the whole protocol.
-/

namespace Xv6

/-- The log and who sleeps on `&log` in `begin_op`. -/
structure LogWaitSys where
  sys : LogSys
  /-- `proc->state == SLEEPING` with `proc->chan == &log` -/
  asleep : ℕ → Bool

/-- One step: an event of the log, or a `kill`, which wakes its process. -/
inductive LogWaitEvent : Type where
  | log (e : LogEvent)
  | kill (p : ℕ)

namespace LogSys

/-- `begin_op` has to wait: a commit is in progress, or the operation might exhaust the log. -/
def Waiting (s : LogSys) : Prop :=
  s.log.committing = true ∨ s.log.lh.n + (s.log.outstanding + 1) * MAXOPBLOCKS > LOGSIZE

instance (s : LogSys) : Decidable s.Waiting := inferInstanceAs (Decidable (_ ∨ _))

end LogSys

namespace LogWaitSys

def start (r : LogRegion) (d : Disk) : LogWaitSys where
  sys := .start r d
  asleep _ := false

/-- `wakeup(&log)` -/
def wakeup (s : LogWaitSys) : LogWaitSys := { s with asleep := fun _ => false }

/-- `sleep(&log, &log.lock)` -/
def sleep (s : LogWaitSys) (p : ℕ) : LogWaitSys :=
  { s with asleep := Function.update s.asleep p true }

/-- One turn of the loop of `begin_op`, from `acquire(&log.lock)` or from a wakeup on. -/
def beginOp (s : LogWaitSys) (p : ℕ) : Except Stop LogWaitSys :=
  if s.asleep p = true then .error .blocked
  else
    match s.sys.pc p, s.sys.recovering with
    | .idle, none =>
      if s.sys.Waiting then .ok (s.sleep p)
      else
        match s.sys.beginOp p with
        | .ok t => .ok { s with sys := t }
        | .error k => .error k
    | _, _ => .error .blocked

/-- `end_op` up to the call of `commit`: it wakes the sleepers unless it is about to commit. -/
def endOp (s : LogWaitSys) (p : ℕ) : Except Stop LogWaitSys :=
  match s.sys.endOp p with
  | .ok t =>
    .ok (if t.log.committing = true then { s with sys := t } else { s with sys := t }.wakeup)
  | .error k => .error k

/-- The rest of `end_op` after `commit`. -/
def endCommit (s : LogWaitSys) (p : ℕ) : Except Stop LogWaitSys :=
  match s.sys.endCommit p with
  | .ok t => .ok { s with sys := t }.wakeup
  | .error k => .error k

/-- One event. A crash loses the processes with the rest of the memory. -/
def step (r : LogRegion) (s : LogWaitSys) : LogWaitEvent → Except Stop LogWaitSys
  | .log (.beginOp p) => s.beginOp p
  | .log (.endOp p) => s.endOp p
  | .log (.endCommit p) => s.endCommit p
  | .log .crash => .ok { sys := .restart r s.sys.disk, asleep := fun _ => false }
  | .log e =>
    match s.sys.step r e with
    | .ok t => .ok { s with sys := t }
    | .error k => .error k
  | .kill p => .ok { s with asleep := Function.update s.asleep p false }

end LogWaitSys

/-! ## Who sleeps has a reason to -/

/-- The log is at some stage, nobody sleeps during recovery, and who sleeps has to wait. -/
structure WaitInv (s : LogWaitSys) : Prop where
  stage : ∃ g : Stage, g.Holds s.sys
  running : ∀ p, s.asleep p = true → s.sys.recovering = none
  waiting : ∀ p, s.asleep p = true → s.sys.Waiting

namespace WaitInv

open LogWaitSys

variable {r : LogRegion} {s s' : LogWaitSys} {p : ℕ} {t : LogSys}

theorem start (r : LogRegion) (d : Disk) : WaitInv (start r d) :=
  ⟨⟨.running, LogSys.start_holds r d⟩, nofun, nofun⟩

/-- The reason stays when the log becomes fuller. -/
theorem waiting_mono {t u : LogSys} (h : t.Waiting) (hc : u.log.committing = t.log.committing)
    (hn : t.log.lh.n ≤ u.log.lh.n) (ho : t.log.outstanding ≤ u.log.outstanding) : u.Waiting := by
  rcases h with h | h
  · exact .inl (hc.trans h)
  · refine .inr (lt_of_lt_of_le h ?_)
    have := Nat.mul_le_mul_right MAXOPBLOCKS (Nat.add_le_add_right ho 1)
    omega

/-- During a commit there is always a reason. -/
theorem waiting_of_committing {t : LogSys} {q : ℕ} {c : CommitPc}
    (h : (Stage.committing q c).Holds t) : t.Waiting := .inl h.2.1

/-- Entering a block into the log never shrinks it. -/
theorem n_le_insert (lh : LogHeader) (b : ℕ) : lh.n ≤ (lh.insert b).n := by
  rw [LogHeader.insert]
  dsimp only
  split <;> omega

section

variable (h : WaitInv s)

include h

/-- A step of the log that wakes nobody leaves a reason to who sleeps. -/
theorem of_step {e : LogEvent} (hs : s.sys.step r e = .ok t) (hcommit : ∀ p, e ≠ .endCommit p)
    (hend : ∀ p, e = .endOp p → t.log.committing = true) (hcrash : e ≠ .crash) :
    WaitInv { s with sys := t } := by
  obtain ⟨g, hg⟩ := h.stage
  obtain ⟨g', ht, hg'⟩ := LogSys.step_trans hg hs
  refine ⟨⟨g', hg'⟩, fun p hp => ?_, fun p hp => ?_⟩
  · -- only recovery itself changes `recovering`
    have hrec := h.running p hp
    cases ht with
    | crash => exact absurd rfl hcrash
    | recoverRead | recoverInstall | recoverInstallEnd | recoverClear =>
      cases hrec.symm.trans hg.1
    | _ => simpa using hrec
  have hrec := h.running p hp
  have hwait := h.waiting p hp
  cases ht with
  | crash => exact absurd rfl hcrash
  | recoverRead | recoverInstall | recoverInstallEnd | recoverClear =>
    cases hrec.symm.trans hg.1
  | endCommit q => exact absurd rfl (hcommit q)
  | endOp q => exact .inl (hend q rfl)
  | endOpLast | commitEmpty | commit | writeLog | writeLogEnd | writeHead | install | installEnd
  | clearHead => exact waiting_of_committing hg'
  | beginOp => exact waiting_mono hwait rfl le_rfl (Nat.le_succ _)
  | logCheck => exact waiting_mono hwait rfl le_rfl le_rfl
  | logInsert q b => exact waiting_mono hwait rfl (n_le_insert _ b) le_rfl
  | load => exact waiting_mono hwait (by simp) (by simp) (by simp)
  | evict => exact waiting_mono hwait rfl le_rfl le_rfl

/-- Everybody is woken. -/
theorem wakeup {e : LogEvent} (hs : s.sys.step r e = .ok t) :
    WaitInv { s with sys := t }.wakeup := by
  obtain ⟨g, hg⟩ := h.stage
  obtain ⟨g', -, hg'⟩ := LogSys.step_trans hg hs
  exact ⟨⟨g', hg'⟩, nofun, nofun⟩

theorem beginOp (hs : s.beginOp p = .ok s') : WaitInv s' := by
  rw [LogWaitSys.beginOp] at hs
  split at hs
  · cases hs
  split at hs
  case h_2 => cases hs
  case h_1 hrec =>
    split at hs
    case isTrue hwait =>
      cases hs
      exact ⟨h.stage, fun _ _ => hrec, fun _ _ => hwait⟩
    case isFalse =>
      rcases ht : s.sys.beginOp p with k | t <;> rw [ht] at hs
      · cases hs
      · cases hs
        exact h.of_step (r := LogRegion.mkfs) (e := .beginOp p) ht nofun nofun nofun

theorem endOp (hs : s.endOp p = .ok s') : WaitInv s' := by
  rw [LogWaitSys.endOp] at hs
  rcases ht : s.sys.endOp p with k | t <;> simp only [ht] at hs
  · cases hs
  cases hs
  split
  case isTrue hc =>
    exact h.of_step (r := LogRegion.mkfs) (e := .endOp p) ht nofun (fun _ _ => hc) nofun
  case isFalse => exact h.wakeup (r := LogRegion.mkfs) (e := .endOp p) ht

theorem endCommit (hs : s.endCommit p = .ok s') : WaitInv s' := by
  rw [LogWaitSys.endCommit] at hs
  rcases ht : s.sys.endCommit p with k | t <;> simp only [ht] at hs
  · cases hs
  cases hs
  exact h.wakeup (r := LogRegion.mkfs) (e := .endCommit p) ht

/-- **One event leaves a reason to everybody who sleeps after it.** -/
theorem step {e : LogWaitEvent} (hs : step r s e = .ok s') : WaitInv s' := by
  rcases e with e | p
  · -- the events other than those of `begin_op`, `end_op` and a crash are steps of the log alone
    have hlift : ∀ (hcommit : ∀ p, e ≠ .endCommit p) (hend : ∀ p, e ≠ .endOp p)
        (hcrash : e ≠ .crash), (match s.sys.step r e with
          | .ok t => .ok { s with sys := t }
          | .error k => .error k) = (.ok s' : Except Stop LogWaitSys) → WaitInv s' := by
      intro hcommit hend hcrash hs
      rcases ht : s.sys.step r e with k | t <;> rw [ht] at hs
      · cases hs
      · cases hs
        exact h.of_step ht hcommit (fun p hp => absurd hp (hend p)) hcrash
    cases e with
    | beginOp p => exact h.beginOp hs
    | endOp p => exact h.endOp hs
    | endCommit p => exact h.endCommit hs
    | crash =>
      cases hs
      obtain ⟨g, hg⟩ := h.stage
      obtain ⟨g', -, hg'⟩ := LogSys.step_trans (r := r) hg (e := .crash) rfl
      exact ⟨⟨g', hg'⟩, nofun, nofun⟩
    | _ => exact hlift nofun nofun nofun hs
  · cases hs
    refine ⟨h.stage, fun q hq => ?_, fun q hq => ?_⟩ <;>
      simp only [Function.update_apply] at hq <;> split at hq
    · cases hq
    · exact h.running q hq
    · cases hq
    · exact h.waiting q hq

end

end WaitInv

namespace LogWaitSys

/-- While a group commits, nobody else is in an operation and one process is in the commit. -/
theorem committing_unique {g : Stage} {s : LogSys} (hg : g.Holds s) (hc : s.log.committing = true) :
    s.log.outstanding = 0 ∧ ∃! p, ∃ c, s.pc p = .commit c := by
  cases g with
  | recovering k => cases hc.symm.trans hg.2.1
  | running => cases hc.symm.trans hg.2.1
  | committing p c =>
    refine ⟨hg.2.2.1, p, ⟨c, hg.2.2.2.1⟩, fun q hq => ?_⟩
    obtain ⟨c', hq⟩ := hq
    by_contra hne
    cases hq.symm.trans (hg.2.2.2.2 q hne)

/-- **Group commit.** In every state that any interleaving of the operations reaches:
* while `log.committing` is set, no operation is open and exactly one process is in the commit of
  its `end_op`;
* no `log_write` enters a block while `log.committing` is set;
* no `end_op` finds `log.committing` set;
* nobody sleeps in `begin_op` who could go on: while someone does, a commit is in progress or
  there is no space for one more operation. -/
theorem group_commit (r : LogRegion) (d : Disk) (tr : List LogWaitEvent) (s : LogWaitSys)
    (hrun : run (step r) (start r d) tr = .ok s) :
    (s.sys.log.committing = true →
      s.sys.log.outstanding = 0 ∧ ∃! p, ∃ c, s.sys.pc p = .commit c) ∧
    (∀ p b d s', step r s (.log (.logInsert p b d)) = .ok s' → s.sys.log.committing = false) ∧
    (∀ p, step r s (.log (.endOp p)) ≠ .error (.panic "log.committing")) ∧
    (∀ p, s.asleep p = true → ¬ (s.sys.log.committing = false ∧
      s.sys.log.lh.n + (s.sys.log.outstanding + 1) * MAXOPBLOCKS ≤ LOGSIZE)) := by
  have h := run_invariant (fun _ _ _ hs he => WaitInv.step hs he) (WaitInv.start r d) tr s hrun
  obtain ⟨g, hg⟩ := h.stage
  refine ⟨committing_unique hg, fun p b d s' hs => ?_, fun p hs => ?_, fun p hp => ?_⟩
  · simp only [step] at hs
    rcases ht : s.sys.step r (.logInsert p b d) with k | t <;> rw [ht] at hs
    · cases hs
    · obtain rfl := hg.of_inTrans (p := p) (by rw [(LogSys.logInsert_inv ht).1]; rfl)
      exact hg.2.1
  · simp only [step, endOp] at hs
    rcases ht : s.sys.endOp p with k | t <;> simp only [ht] at hs
    · obtain rfl := Except.error.inj hs
      rw [LogSys.endOp] at ht
      split at ht
      case h_2 => cases ht
      case h_1 hpc =>
        obtain rfl := hg.of_inTrans (p := p) (by rw [hpc]; rfl)
        simp only [hg.2.1, Bool.false_eq_true, if_false] at ht
        split at ht <;> cases ht
    · cases hs
  · rintro ⟨hc, hspace⟩
    rcases h.waiting p hp with hw | hw
    · cases hw.symm.trans hc
    · exact absurd hspace (not_le.mpr hw)

/-- Three operations are open and a fourth process sleeps. -/
theorem group_commit_fourth : ∃ s, run (step .mkfs) (start .mkfs fun _ => Bytes.zero)
        [.log (.beginOp 0), .log (.beginOp 1), .log (.beginOp 2), .log (.beginOp 3)] = .ok s ∧
      s.asleep 3 = true ∧ ¬ (s.sys.log.committing = false ∧
        s.sys.log.lh.n + (s.sys.log.outstanding + 1) * MAXOPBLOCKS ≤ LOGSIZE) :=
  ⟨_, rfl, rfl, (group_commit .mkfs (fun _ => Bytes.zero)
    [.log (.beginOp 0), .log (.beginOp 1), .log (.beginOp 2), .log (.beginOp 3)] _ rfl).2.2.2 3 rfl⟩

end LogWaitSys

end Xv6
