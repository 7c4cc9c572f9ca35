import Xv6.Machine
import Xv6.Spinlock
import Xv6.Proc

/-!
# Sleep and wakeup

`sleep(chan, lk)` and `wakeup(chan)`, one memory access or lock operation at a time, for any number
of processes. A *sleeper* takes `lk`, tests its condition, and calls `sleep` as long as it is
false; a *waker* takes `lk`, makes the condition true, and calls `wakeup` before it releases `lk`.
Both also work with `lk == &ptable.lock`, where `sleep` has nothing to hand over and the waker
calls `wakeup1`.

* `Point` is where a process is in this code, and `Point.Holds` the locks it holds there;
* `SleepSys.step` is the machine; `ptable.lock` can also be with a scheduler, which takes it from
  the process that calls `sched` and gives it to the one it switches to;
* `SleepSys.late p` records that a waker has finished since `p` last found its condition false;
* `SleepSys.no_lost_wakeup`: **no process sleeps that is late.**
-/

namespace Xv6

open Function

open SpinLock

/-- Where a process is: the sleeper's points up to `relock`, then the waker's. -/
inductive Point : Type where
  /-- holds `lk`, about to test the condition -/
  | test
  /-- has found it false and called `sleep` -/
  | call
  /-- holds both locks, about to release `lk` -/
  | handOver
  /-- about to set `proc->chan` -/
  | setChan
  /-- about to set `proc->state` -/
  | setState
  /-- about to switch to the scheduler -/
  | sched
  /-- switched away -/
  | switched
  /-- switched back to, about to clear `proc->chan` -/
  | tidy
  /-- about to release `ptable.lock` -/
  | unlock
  /-- about to acquire `lk` again -/
  | relock
  /-- holds `lk`, about to make the condition true -/
  | wake
  /-- has called `wakeup` -/
  | wakeup
  /-- in `wakeup1`, about to look at slot `i` -/
  | scan (i : ℕ)
  /-- has scanned the table -/
  | woken
  /-- back from `wakeup`, about to release `lk` -/
  | leave
  deriving DecidableEq, Repr

/-- The locks a process holds there. -/
def Point.Holds (lk l : SpinLock) : Point → Prop
  | test | call | wake | wakeup | leave => l = lk
  | handOver | scan _ | woken => l = lk ∨ l = ptable
  | setChan | setState | sched | tidy | unlock => l = ptable
  | switched | relock => False

/-- The sleeper has found its condition false and does not sleep yet. -/
def Point.FallingAsleep : Point → Prop
  | call | handOver | setChan | setState | sched => True
  | _ => False

/-- The sleeper has found its condition false and has not tested it again. -/
def Point.Tested : Point → Prop
  | call | handOver | setChan | setState | sched | switched | tidy | unlock | relock => True
  | _ => False

instance : DecidablePred Point.Tested := fun pt => by
  cases pt <;> unfold Point.Tested <;> infer_instance

/-- The slots a waker has already looked at, of `n`. -/
def Point.scanned (n : ℕ) : Point → ℕ
  | scan i => i
  | woken | leave => n
  | _ => 0

/-- A process in the code of a sleeper or a waker. -/
structure Waiter where
  point : Point
  lk : SpinLock
  chan : ℕ
  deriving DecidableEq

/-- Who holds a lock. -/
inductive Owner : Type where
  | proc (p : ℕ)
  | scheduler
  deriving DecidableEq, Repr

/-- The locks, the process table, the conditions, and where every process is. -/
structure SleepSys where
  holder : SpinLock → Option Owner
  state : ℕ → ProcState
  chan : ℕ → Option ℕ
  cond : SpinLock → ℕ → Bool
  waiter : ℕ → Option Waiter
  /-- a waker for the same condition has finished since the process last tested it -/
  late : ℕ → Bool

/-- One step. -/
inductive SleepEvent : Type where
  /-- process `p` acquires `lk` to wait for a condition on `chan` -/
  | wait (p : ℕ) (lk : SpinLock) (chan : ℕ)
  /-- process `p` acquires `lk` to make the condition true -/
  | signal (p : ℕ) (lk : SpinLock) (chan : ℕ)
  /-- process `p`, at its test, makes the condition false -/
  | clear (p : ℕ)
  /-- process `p` goes on -/
  | step (p : ℕ)
  /-- a scheduler releases `ptable.lock` -/
  | schedRelease
  /-- a scheduler acquires `ptable.lock` -/
  | schedAcquire
  /-- the scheduler that holds `ptable.lock` switches to process `p` -/
  | dispatch (p : ℕ)
  /-- `kill` of process `p` -/
  | kill (p : ℕ)
  deriving DecidableEq, Repr

namespace SleepSys

/-- No lock is taken and every process runs outside this code. -/
def start : SleepSys where
  holder _ := none
  state _ := .running
  chan _ := none
  cond _ _ := false
  waiter _ := none
  late _ := false

/-- Process `p` goes to another point. -/
def goto (s : SleepSys) (p : ℕ) (w : Waiter) (pt : Point) : SleepSys :=
  { s with waiter := update s.waiter p (some { w with point := pt }) }

def setHolder (s : SleepSys) (l : SpinLock) (o : Option Owner) : SleepSys :=
  { s with holder := update s.holder l o }

def setCond (s : SleepSys) (lk : SpinLock) (chan : ℕ) (b : Bool) : SleepSys :=
  { s with cond := fun l c => if l = lk ∧ c = chan then b else s.cond l c }

/-- Process `p` acquires `l`, or spins. -/
def acquire (s : SleepSys) (p : ℕ) (l : SpinLock) (k : SleepSys → SleepSys) :
    Except Stop SleepSys :=
  if s.holder l = none then .ok (k (s.setHolder l (some (.proc p)))) else .error .blocked

/-- The body of the loop of `wakeup1`. -/
def wakeSlot (s : SleepSys) (i chan : ℕ) : SleepSys :=
  if s.state i = .sleeping ∧ s.chan i = some chan then
    { s with state := update s.state i .runnable }
  else s

/-- The last step of a waker: every process that still goes by its test of the condition is late. -/
def finish (s : SleepSys) (p : ℕ) (w : Waiter) : SleepSys :=
  { s.setHolder w.lk none with
    waiter := update s.waiter p none
    late := fun q => match s.waiter q with
      | some v => s.late q || (v.lk = w.lk ∧ v.chan = w.chan ∧ v.point.Tested)
      | none => s.late q }

/-- Process `p` goes on from where it is; the table has `n` slots. -/
def advance (n : ℕ) (s : SleepSys) (p : ℕ) (w : Waiter) : Except Stop SleepSys :=
  match w.point with
  | .test =>
    if s.cond w.lk w.chan = true then
      .ok { s.setHolder w.lk none with waiter := update s.waiter p none }
    else .ok ({ s with late := update s.late p false }.goto p w .call)
  | .call =>
    if w.lk = ptable then .ok (s.goto p w .setChan)
    else s.acquire p ptable fun s => s.goto p w .handOver
  | .handOver => .ok ((s.setHolder w.lk none).goto p w .setChan)
  | .setChan =>
    .ok ({ s with chan := update s.chan p (some w.chan) }.goto p w .setState)
  | .setState => .ok ({ s with state := update s.state p .sleeping }.goto p w .sched)
  | .sched =>
    if s.state p = .running then .error (.panic "sched running")
    else .ok ((s.setHolder ptable (some .scheduler)).goto p w .switched)
  | .switched => .error .blocked
  | .tidy =>
    .ok ({ s with chan := update s.chan p none }.goto p w
      (if w.lk = ptable then .test else .unlock))
  | .unlock => .ok ((s.setHolder ptable none).goto p w .relock)
  | .relock => s.acquire p w.lk fun s => s.goto p w .test
  | .wake => .ok ((s.setCond w.lk w.chan true).goto p w .wakeup)
  | .wakeup =>
    if w.lk = ptable then .ok (s.goto p w (.scan 0))
    else s.acquire p ptable fun s => s.goto p w (.scan 0)
  | .scan i =>
    if i < n then .ok ((s.wakeSlot i w.chan).goto p w (.scan (i + 1)))
    else .ok (s.goto p w .woken)
  | .woken =>
    .ok (if w.lk = ptable then s.goto p w .leave
      else (s.setHolder ptable none).goto p w .leave)
  | .leave => .ok (s.finish p w)

/-- One event. A process enters the code when it is in none, and a process that the scheduler
switches to is one that has switched away, **whatever its state says**. -/
def step (n : ℕ) (s : SleepSys) : SleepEvent → Except Stop SleepSys
  | .wait p lk chan =>
    if p < n ∧ s.waiter p = none then s.acquire p lk fun s => s.goto p ⟨.test, lk, chan⟩ .test
    else .error .blocked
  | .signal p lk chan =>
    if p < n ∧ s.waiter p = none then s.acquire p lk fun s => s.goto p ⟨.wake, lk, chan⟩ .wake
    else .error .blocked
  | .clear p =>
    match s.waiter p with
    | some ⟨.test, lk, chan⟩ => .ok (s.setCond lk chan false)
    | _ => .error .blocked
  | .step p =>
    match s.waiter p with
    | some w => s.advance n p w
    | none => .error .blocked
  | .schedRelease =>
    if s.holder ptable = some .scheduler then .ok (s.setHolder ptable none) else .error .blocked
  | .schedAcquire =>
    if s.holder ptable = none then .ok (s.setHolder ptable (some .scheduler)) else .error .blocked
  | .dispatch p =>
    match s.waiter p with
    | some ⟨.switched, lk, chan⟩ =>
      if s.holder ptable = some .scheduler then
        .ok (({ s with state := update s.state p .running }.setHolder ptable
          (some (.proc p))).goto p ⟨.switched, lk, chan⟩ .tidy)
      else .error .blocked
    | _ => .error .blocked
  | .kill p =>
    if s.holder ptable = none then
      .ok (if s.state p = .sleeping then { s with state := update s.state p .runnable }
        else s)
    else .error .blocked

/-! ## The invariant -/

/-- Process `p` has found the condition false, and nothing has woken it since. -/
def Committed (s : SleepSys) (p : ℕ) (lk : SpinLock) (chan : ℕ) : Prop :=
  ∃ pt, s.waiter p = some ⟨pt, lk, chan⟩ ∧
    (pt.FallingAsleep ∨ pt = .switched ∧ s.state p = .sleeping)

/-- What holds of one process. -/
structure Local (n : ℕ) (s : SleepSys) (p : ℕ) : Prop where
  /-- the locks it holds are its own -/
  holds : ∀ w l, s.waiter p = some w → w.point.Holds w.lk l → s.holder l = some (.proc p)
  /-- it sleeps nowhere else than in `sleep` -/
  sleeping : s.state p = .sleeping →
    ∃ w, s.waiter p = some w ∧ (w.point = .sched ∨ w.point = .switched)
  /-- it sleeps on its own channel -/
  chan : ∀ w, s.waiter p = some w →
    w.point = .setState ∨ w.point = .sched ∨ w.point = .switched → s.chan p = some w.chan
  /-- it holds two locks only if they are two -/
  two : ∀ w, s.waiter p = some w → w.point = .handOver → w.lk ≠ ptable
  /-- as a waker it has left nobody asleep in the slots it has looked at -/
  scanned : ∀ w, s.waiter p = some w → ∀ q < w.point.scanned n, ¬ s.Committed q w.lk w.chan
  /-- it does not sleep if it is late -/
  late : s.late p = true → ∀ lk chan, ¬ s.Committed p lk chan
  /-- it is in the table -/
  slot : n ≤ p → s.waiter p = none

variable {n : ℕ} {s s' : SleepSys} {p q : ℕ} {w : Waiter} {l : SpinLock}

/-- A waker that has looked at a slot holds the lock of its condition. -/
theorem holds_of_scanned (h : q < w.point.scanned n) : w.point.Holds w.lk w.lk := by
  obtain ⟨pt, lk, chan⟩ := w
  cases pt with
  | scan i => exact .inl rfl
  | woken => exact .inl rfl
  | leave => exact rfl
  | _ => exact absurd h (Nat.not_lt_zero _)

/-- A step of others leaves a process alone that keeps its locks, if the step makes nobody fall
asleep on a condition whose lock the process holds. -/
theorem Local.frame (h : Local n s q) (hw : s'.waiter q = s.waiter q)
    (hstate : s'.state q = .sleeping → s.state q = .sleeping) (hchan : s'.chan q = s.chan q)
    (hlate : s'.late q = true → s.late q = true ∨ ∀ lk chan, ¬ s.Committed q lk chan)
    (hholder : ∀ l, s.holder l = some (.proc q) → s'.holder l = some (.proc q))
    (hcommit : ∀ r lk chan, s'.Committed r lk chan → s.holder lk = some (.proc q) →
      s.Committed r lk chan) : Local n s' q where
  holds w l hq hl := hholder l (h.holds w l (hw ▸ hq) hl)
  sleeping hs := by
    rw [hw]
    exact h.sleeping (hstate hs)
  chan w hq hp := by
    rw [hchan]
    exact h.chan w (hw ▸ hq) hp
  two w hq := h.two w (hw ▸ hq)
  scanned w hq r hr hc := by
    rw [hw] at hq
    exact h.scanned w hq r hr (hcommit r _ _ hc (h.holds w _ hq (holds_of_scanned hr)))
  late hl lk chan hc := by
    have hc' : s.Committed q lk chan := by
      obtain ⟨pt, hq, hpt⟩ := hc
      exact ⟨pt, hw ▸ hq, hpt.imp_right fun h => ⟨h.1, hstate h.2⟩⟩
    rcases hlate hl with h' | h'
    · exact h.late h' lk chan hc'
    · exact h' lk chan hc'
  slot hn := by
    rw [hw]
    exact h.slot hn

/-- The invariant. -/
def Inv (n : ℕ) (s : SleepSys) : Prop := ∀ p, Local n s p

theorem inv_start : Inv n start := fun _ => ⟨nofun, nofun, nofun, nofun, nofun, nofun, fun _ => rfl⟩

/-- What has to be shown of a process that has come to a new point. -/
theorem Local.of_point {pt : Point} {lk : SpinLock} {chan : ℕ} (hslot : p < n)
    (hw : s.waiter p = some ⟨pt, lk, chan⟩)
    (hholds : ∀ l, pt.Holds lk l → s.holder l = some (.proc p))
    (hsleep : s.state p = .sleeping → pt = .sched ∨ pt = .switched)
    (hchan : pt = .setState ∨ pt = .sched ∨ pt = .switched → s.chan p = some chan)
    (htwo : pt = .handOver → lk ≠ ptable) (hscan : ∀ q < pt.scanned n, ¬ s.Committed q lk chan)
    (hlate : s.late p = true → ¬ s.Committed p lk chan) : Local n s p where
  holds w l hq hl := by
    obtain rfl := Option.some.inj (hw.symm.trans hq)
    exact hholds l hl
  sleeping hs := ⟨_, hw, hsleep hs⟩
  chan w hq := by
    obtain rfl := Option.some.inj (hw.symm.trans hq)
    exact hchan
  two w hq := by
    obtain rfl := Option.some.inj (hw.symm.trans hq)
    exact htwo
  scanned w hq := by
    obtain rfl := Option.some.inj (hw.symm.trans hq)
    exact hscan
  late hl lk' chan' hc := by
    obtain ⟨pt', hq, hpt⟩ := hc
    obtain ⟨rfl, rfl, rfl⟩ := Waiter.mk.inj (Option.some.inj (hw.symm.trans hq))
    exact hlate hl ⟨_, hq, hpt⟩
  slot hn := absurd hslot (not_lt.mpr hn)

/-- A process outside the code. -/
theorem Local.of_none (hw : s.waiter p = none) (hsleep : s.state p ≠ .sleeping) : Local n s p where
  holds w l hq := by cases hw.symm.trans hq
  sleeping hs := absurd hs hsleep
  chan w hq := by cases hw.symm.trans hq
  two w hq := by cases hw.symm.trans hq
  scanned w hq := by cases hw.symm.trans hq
  late _ lk chan := by
    rintro ⟨pt, hq, -⟩
    cases hw.symm.trans hq
  slot _ := hw

/-- **A step of process `p`** keeps the invariant: `p` is right where it comes to, the others keep
their locks and are at most woken, and `p` falls asleep only under the lock of its condition. -/
theorem Inv.move {o : Option Waiter} (h : Inv n s) (hw : s'.waiter = update s.waiter p o)
    (hstate : ∀ q, q ≠ p → s'.state q = .sleeping → s.state q = .sleeping)
    (hchan : ∀ q, q ≠ p → s'.chan q = s.chan q) (hlate : ∀ q, q ≠ p → s'.late q = true →
      s.late q = true ∨ ∀ lk chan, ¬ s.Committed q lk chan)
    (hholder : ∀ q l, q ≠ p → s.holder l = some (.proc q) → s'.holder l = some (.proc q))
    (hcommit : ∀ lk chan, s'.Committed p lk chan →
      s.Committed p lk chan ∨ s.holder lk = some (.proc p)) (hp : Local n s' p) : Inv n s' := by
  intro q
  rcases eq_or_ne q p with rfl | hne
  · exact hp
  refine (h q).frame (by simp [hw, hne]) (hstate q hne) (hchan q hne) (hlate q hne)
    (fun l => hholder q l hne) fun r lk chan hc hq => ?_
  rcases eq_or_ne r p with rfl | hr
  · rcases hcommit lk chan hc with h | h
    · exact h
    · cases hq.symm.trans h
      exact absurd rfl hne
  · obtain ⟨pt, hr', hpt⟩ := hc
    rw [hw, update_of_ne hr] at hr'
    exact ⟨pt, hr', hpt.imp_right fun h => ⟨h.1, hstate r hr h.2⟩⟩

/-- A step of the scheduler, or a `kill`: nobody moves. -/
theorem Inv.still (h : Inv n s) (hw : s'.waiter = s.waiter)
    (hstate : ∀ q, s'.state q = .sleeping → s.state q = .sleeping) (hchan : s'.chan = s.chan)
    (hlate : s'.late = s.late)
    (hholder : ∀ q l, s.holder l = some (.proc q) → s'.holder l = some (.proc q)) : Inv n s' := by
  intro q
  refine (h q).frame (by rw [hw]) (hstate q) (by rw [hchan]) (fun hl => .inl (hlate ▸ hl))
    (hholder q) fun r lk chan hc _ => ?_
  obtain ⟨pt, hr, hpt⟩ := hc
  exact ⟨pt, hw ▸ hr, hpt.imp_right fun h => ⟨h.1, hstate r h.2⟩⟩

variable {o : Option Owner}

/-- A lock that changes hands was not the lock of a process that keeps its locks. -/
theorem holder_set {l' : SpinLock} (hl : s.holder l ≠ some (.proc q))
    (h : s.holder l' = some (.proc q)) : (s.setHolder l o).holder l' = some (.proc q) := by
  have hne : l' ≠ l := by
    rintro rfl
    exact hl h
  simpa [setHolder, hne] using h

theorem acquire_inv {k : SleepSys → SleepSys} (h : s.acquire p l k = .ok s') :
    s.holder l = none ∧ s' = k (s.setHolder l (some (.proc p))) := by
  rw [acquire] at h
  split at h
  · exact ⟨by assumption, (Except.ok.inj h).symm⟩
  · cases h

/-! ## Every step keeps it -/

variable {t : SleepSys} {pt pt' : Point} {lk : SpinLock} {chan : ℕ}

theorem goto_waiter : (t.goto p w pt).waiter p = some { w with point := pt } := by simp [goto]

/-- Process `p` has come from `pt` to `pt'`, and has changed no more than its own state and its own
locks on the way. -/
theorem Inv.goto (h : Inv n s) (hw : s.waiter p = some ⟨pt, lk, chan⟩) (ht : t.waiter = s.waiter)
    (hstate : ∀ q, q ≠ p → t.state q = s.state q) (hchan : ∀ q, q ≠ p → t.chan q = s.chan q)
    (hlate : ∀ q, q ≠ p → t.late q = s.late q)
    (hholder : ∀ q l, q ≠ p → s.holder l = some (.proc q) → t.holder l = some (.proc q))
    (hown : ∀ l, pt'.Holds lk l → t.holder l = some (.proc p))
    (hsleep : t.state p = .sleeping → pt' = .sched ∨ pt' = .switched)
    (hname : pt' = .setState ∨ pt' = .sched ∨ pt' = .switched → t.chan p = some chan)
    (htwo : pt' = .handOver → lk ≠ ptable) (hscan : pt'.scanned n = 0)
    (hfall : pt'.FallingAsleep ∨ pt' = .switched →
      pt.FallingAsleep ∧ t.late p = s.late p ∨ s.holder lk = some (.proc p) ∧ t.late p = false) :
    Inv n (t.goto p ⟨pt, lk, chan⟩ pt') := by
  have hslot : p < n := by
    by_contra hn
    cases hw.symm.trans ((h p).slot (not_lt.mp hn))
  -- if `p` is about to sleep after the step, it was so before it, or it has just tested
  have hback : ∀ lk' chan', (t.goto p ⟨pt, lk, chan⟩ pt').Committed p lk' chan' →
      s.Committed p lk chan ∧ t.late p = s.late p ∨
        s.holder lk = some (.proc p) ∧ t.late p = false := by
    rintro lk' chan' ⟨pt1, hq, hpt⟩
    obtain ⟨rfl, -, -⟩ := Waiter.mk.inj (Option.some.inj (goto_waiter.symm.trans hq))
    exact (hfall (hpt.imp_right And.left)).imp_left fun h => ⟨⟨pt, hw, .inl h.1⟩, h.2⟩
  have hlk : ∀ lk' chan', (t.goto p ⟨pt, lk, chan⟩ pt').Committed p lk' chan' →
      lk' = lk ∧ chan' = chan := by
    rintro lk' chan' ⟨pt1, hq, -⟩
    obtain ⟨-, rfl, rfl⟩ := Waiter.mk.inj (Option.some.inj (goto_waiter.symm.trans hq))
    exact ⟨rfl, rfl⟩
  refine h.move (p := p) (o := some ⟨pt', lk, chan⟩) (by simp [SleepSys.goto, ht])
    (fun q hq hs => (hstate q hq).symm.trans hs) hchan
    (fun q hq hl => .inl ((hlate q hq).symm.trans hl)) hholder ?_ ?_
  · intro lk' chan' hc
    obtain ⟨rfl, rfl⟩ := hlk lk' chan' hc
    exact (hback _ _ hc).imp And.left And.left
  · refine .of_point hslot goto_waiter hown hsleep hname htwo (by simp [hscan]) fun hl hc => ?_
    rcases hback _ _ hc with ⟨hc', heq⟩ | ⟨-, hf⟩
    · exact (h p).late (heq.symm.trans hl) lk chan hc'
    · cases hf.symm.trans hl

/-- Process `p` leaves the code. -/
theorem Inv.leave (h : Inv n s) (hw : s.waiter p = some w) (hl : s.holder l = some (.proc p))
    (hpt : w.point ≠ .sched ∧ w.point ≠ .switched)
    (ht : t.waiter = update s.waiter p none) (hstate : t.state = s.state)
    (hchan : t.chan = s.chan) (hholder : t.holder = (s.setHolder l none).holder)
    (hlate : ∀ q, t.late q = true → s.late q = true ∨ ∀ lk chan, ¬ s.Committed q lk chan) :
    Inv n t := by
  refine h.move ht (fun q _ hs => hstate ▸ hs) (fun q _ => by rw [hchan]) (fun q _ => hlate q)
    (fun q l' hq hq' => ?_) ?_ (.of_none (by simp [ht]) fun hs => ?_)
  · rw [hholder]
    refine holder_set ?_ hq'
    rw [hl]
    simpa using Ne.symm hq
  · rintro lk' chan' ⟨pt, hq, -⟩
    simp [ht] at hq
  · obtain ⟨w', hw', h' | h'⟩ := (h p).sleeping (hstate ▸ hs) <;>
      obtain rfl := Option.some.inj (hw.symm.trans hw')
    · exact hpt.1 h'
    · exact hpt.2 h'

/-- Not asleep, at any point outside `sched`. -/
theorem Local.awake (h : Local n s p) (hw : s.waiter p = some ⟨pt, lk, chan⟩)
    (h1 : pt ≠ .sched) (h2 : pt ≠ .switched) : s.state p ≠ .sleeping := by
  intro hs
  obtain ⟨w, hw', h' | h'⟩ := h.sleeping hs <;> obtain rfl := Option.some.inj (hw.symm.trans hw')
  · exact h1 h'
  · exact h2 h'

theorem holder_self : (s.setHolder l o).holder l = o := update_self ..

/-- Taking a lock that is free. -/
theorem holder_acquire (hfree : s.holder l = none) (q : ℕ) (l' : SpinLock)
    (h : s.holder l' = some (.proc q)) :
    (s.setHolder l (some (.proc p))).holder l' = some (.proc q) :=
  holder_set (by rw [hfree]; nofun) h

/-- Giving up a lock. -/
theorem holder_release (hown : s.holder l = some (.proc p)) (q : ℕ)
    (l' : SpinLock) (hq : q ≠ p) (h : s.holder l' = some (.proc q)) :
    (s.setHolder l o).holder l' = some (.proc q) :=
  holder_set (by rw [hown]; simpa using Ne.symm hq) h

/-- A process in the loop of `wakeup1` leaves nobody asleep in the slot it looks at. -/
theorem Inv.not_committed_wakeSlot {i : ℕ} (h : Inv n s)
    (hw : s.waiter p = some ⟨.scan i, lk, chan⟩) : ¬ (s.wakeSlot i chan).Committed i lk chan := by
  rintro ⟨pt, hi, hpt⟩
  have hi' : s.waiter i = some ⟨pt, lk, chan⟩ := by
    rw [wakeSlot] at hi
    split at hi <;> exact hi
  rcases hpt with hpt | ⟨rfl, hsleep⟩
  · -- the waker holds both locks, so nobody else can be on the way to sleep
    have hown := (h p).holds _ lk hw (.inl rfl)
    have hptable := (h p).holds _ ptable hw (.inr rfl)
    have hne : i ≠ p := by
      rintro rfl
      obtain ⟨rfl, -⟩ := Waiter.mk.inj (Option.some.inj (hw.symm.trans hi'))
      exact hpt
    have hholds : pt.Holds lk lk ∨ pt.Holds lk ptable := by
      cases pt with
      | call => exact .inl rfl
      | handOver => exact .inl (.inl rfl)
      | setChan | setState | sched => exact .inr rfl
      | _ => exact hpt.elim
    rcases hholds with hl | hl
    · cases hown.symm.trans ((h i).holds _ lk hi' hl)
      exact hne rfl
    · cases hptable.symm.trans ((h i).holds _ ptable hi' hl)
      exact hne rfl
  · -- who sleeps on this channel has been made RUNNABLE
    rw [wakeSlot] at hsleep
    split at hsleep
    · simp at hsleep
    case isFalse hno => exact hno ⟨hsleep, (h i).chan _ hi' (.inr (.inr rfl))⟩

theorem wakeSlot_sleeping {i q : ℕ} (h : (s.wakeSlot i chan).state q = .sleeping) :
    s.state q = .sleeping := by
  rw [wakeSlot] at h
  split at h
  · simp only [update_apply] at h
    split at h
    · cases h
    · exact h
  · exact h

/-- A waker comes to `pt'` having looked at the first slots. -/
theorem Inv.scan (h : Inv n s) (hw : s.waiter p = some ⟨pt, lk, chan⟩) (ht : t.waiter = s.waiter)
    (hstate : ∀ q, t.state q = .sleeping → s.state q = .sleeping) (hchan : t.chan = s.chan)
    (hlate : t.late = s.late)
    (hholder : ∀ q l, q ≠ p → s.holder l = some (.proc q) → t.holder l = some (.proc q))
    (hown : ∀ l, pt'.Holds lk l → t.holder l = some (.proc p))
    (hpt : pt ≠ .sched ∧ pt ≠ .switched) (hpt' : ∃ i, pt' = .scan i ∨ pt' = .woken ∨ pt' = .leave)
    (hscan : ∀ q < pt'.scanned n, ¬ t.Committed q lk chan) :
    Inv n (t.goto p ⟨pt, lk, chan⟩ pt') := by
  have hslot : p < n := by
    by_contra hn
    cases hw.symm.trans ((h p).slot (not_lt.mp hn))
  have hnot : ∀ lk' chan', ¬ (t.goto p ⟨pt, lk, chan⟩ pt').Committed p lk' chan' := by
    rintro lk' chan' ⟨pt1, hq, hpt1⟩
    obtain ⟨rfl, -, -⟩ := Waiter.mk.inj (Option.some.inj (goto_waiter.symm.trans hq))
    obtain ⟨i, rfl | rfl | rfl⟩ := hpt' <;> rcases hpt1 with h | ⟨h, -⟩ <;> cases h
  have hawake : t.state p ≠ .sleeping := fun hs => (h p).awake hw hpt.1 hpt.2 (hstate p hs)
  refine h.move (p := p) (o := some ⟨pt', lk, chan⟩) (by simp [SleepSys.goto, ht])
    (fun q _ hs => hstate q hs) (fun q _ => congrFun hchan q)
    (fun q _ hl => .inl ((congrFun hlate q).symm.trans hl)) hholder
    (fun lk' chan' hc => absurd hc (hnot lk' chan')) ?_
  refine .of_point hslot goto_waiter hown (fun hs => absurd hs hawake) ?_ ?_ ?_ (fun _ => hnot _ _)
  · obtain ⟨i, rfl | rfl | rfl⟩ := hpt' <;> rintro (h | h | h) <;> cases h
  · obtain ⟨i, rfl | rfl | rfl⟩ := hpt' <;> intro h <;> cases h
  intro q hq hc
  rcases eq_or_ne q p with rfl | hne
  · exact hnot _ _ hc
  · obtain ⟨pt1, hq', hpt1⟩ := hc
    refine hscan q hq ⟨pt1, ?_, hpt1⟩
    simpa [SleepSys.goto, hne] using hq'

/-- **Process `p` goes on.** -/
theorem Inv.advance (h : Inv n s) (hw : s.waiter p = some w) (hs : s.advance n p w = .ok s') :
    Inv n s' := by
  obtain ⟨pt, lk, chan⟩ := w
  have hp := h p
  have hown : ∀ l, pt.Holds lk l → s.holder l = some (.proc p) := fun l => hp.holds _ l hw
  have hsame : ∀ q l, q ≠ p → s.holder l = some (.proc q) → s.holder l = some (.proc q) :=
    fun _ _ _ h => h
  have hno : ∀ q, q ≠ p → s.late q = s.late q := fun _ _ => rfl
  cases pt with
  | test =>
    simp only [SleepSys.advance] at hs
    split at hs <;> cases hs
    · exact h.leave hw (hown lk rfl) (by simp) rfl rfl rfl rfl fun q hl => .inl hl
    refine h.goto hw rfl (fun _ _ => rfl) (fun _ _ => rfl)
      (fun q hq => update_of_ne hq _ _) hsame (fun l hl => ?_)
      (fun hs => absurd hs (hp.awake hw nofun nofun)) (by simp) nofun rfl
      (fun _ => .inr ⟨hown lk rfl, update_self ..⟩)
    exact hown l hl
  | call =>
    simp only [SleepSys.advance] at hs
    split at hs
    case isTrue heq =>
      cases hs
      refine h.goto hw rfl (fun _ _ => rfl) (fun _ _ => rfl) hno hsame (fun l hl => ?_)
        (fun hs => absurd hs (hp.awake hw nofun nofun)) (by simp) nofun rfl
        (fun _ => .inl ⟨trivial, rfl⟩)
      exact hown l (hl.trans heq.symm)
    case isFalse hne =>
      obtain ⟨hfree, rfl⟩ := acquire_inv hs
      refine h.goto hw rfl (fun _ _ => rfl) (fun _ _ => rfl) hno
        (fun q l _ => holder_acquire hfree q l) (fun l hl => ?_)
        (fun hs => absurd hs (hp.awake hw nofun nofun)) (by simp) (fun _ => hne) rfl
        (fun _ => .inl ⟨trivial, rfl⟩)
      rcases hl with rfl | rfl
      · exact holder_acquire hfree p _ (hown _ rfl)
      · exact holder_self
  | handOver =>
    cases hs
    refine h.goto hw rfl (fun _ _ => rfl) (fun _ _ => rfl) hno
      (holder_release (hown lk (.inl rfl))) (fun l hl => ?_)
      (fun hs => absurd hs (hp.awake hw nofun nofun)) (by simp) nofun rfl
      (fun _ => .inl ⟨trivial, rfl⟩)
    obtain rfl : l = ptable := hl
    have hne := Ne.symm (hp.two _ hw rfl)
    simpa [setHolder, hne] using hown ptable (.inr rfl)
  | setChan =>
    cases hs
    exact h.goto hw rfl (fun _ _ => rfl) (fun q hq => update_of_ne hq _ _) hno hsame
      hown (fun hs => absurd hs (hp.awake hw nofun nofun)) (fun _ => update_self ..) nofun
      rfl (fun _ => .inl ⟨trivial, rfl⟩)
  | setState =>
    cases hs
    exact h.goto hw rfl (fun q hq => update_of_ne hq _ _) (fun _ _ => rfl) hno hsame
      hown (fun _ => .inl rfl) (fun _ => hp.chan _ hw (.inl rfl)) nofun rfl
      (fun _ => .inl ⟨trivial, rfl⟩)
  | sched =>
    simp only [SleepSys.advance] at hs
    split at hs
    · cases hs
    cases hs
    exact h.goto hw rfl (fun _ _ => rfl) (fun _ _ => rfl) hno (holder_release (hown ptable rfl))
      nofun (fun _ => .inr rfl) (fun _ => hp.chan _ hw (.inr (.inl rfl))) nofun rfl
      (fun _ => .inl ⟨trivial, rfl⟩)
  | switched => cases hs
  | tidy =>
    cases hs
    have hawake := hp.awake hw nofun nofun
    split
    case isTrue heq =>
      exact h.goto hw rfl (fun _ _ => rfl) (fun q hq => update_of_ne hq _ _) hno hsame
        (fun l hl => hown l (Eq.trans hl heq)) (fun hs => absurd hs hawake) (by simp) nofun rfl
        (by rintro (h | h) <;> cases h)
    case isFalse =>
      exact h.goto hw rfl (fun _ _ => rfl) (fun q hq => update_of_ne hq _ _) hno hsame
        hown (fun hs => absurd hs hawake) (by simp) nofun rfl (by rintro (h | h) <;> cases h)
  | unlock =>
    cases hs
    exact h.goto hw rfl (fun _ _ => rfl) (fun _ _ => rfl) hno (holder_release (hown ptable rfl))
      nofun (fun hs => absurd hs (hp.awake hw nofun nofun)) (by simp) nofun rfl
      (by rintro (h | h) <;> cases h)
  | relock =>
    simp only [SleepSys.advance] at hs
    obtain ⟨hfree, rfl⟩ := acquire_inv hs
    refine h.goto hw rfl (fun _ _ => rfl) (fun _ _ => rfl) hno
      (fun q l _ => holder_acquire hfree q l) (fun l hl => ?_)
      (fun hs => absurd hs (hp.awake hw nofun nofun)) (by simp) nofun rfl
      (by rintro (h | h) <;> cases h)
    obtain rfl : l = lk := hl
    exact holder_self
  | wake =>
    cases hs
    exact h.goto hw rfl (fun _ _ => rfl) (fun _ _ => rfl) hno hsame hown
      (fun hs => absurd hs (hp.awake hw nofun nofun)) (by simp) nofun rfl
      (by rintro (h | h) <;> cases h)
  | wakeup =>
    simp only [SleepSys.advance] at hs
    split at hs
    case isTrue heq =>
      cases hs
      refine h.scan hw rfl (fun _ h => h) rfl rfl hsame (fun l hl => ?_) (by simp) ⟨0, .inl rfl⟩
        fun q hq => absurd hq (Nat.not_lt_zero q)
      exact hown l (hl.elim id fun h => h.trans heq.symm)
    case isFalse hne =>
      obtain ⟨hfree, rfl⟩ := acquire_inv hs
      refine h.scan hw rfl (fun _ h => h) rfl rfl (fun q l _ => holder_acquire hfree q l)
        (fun l hl => ?_) (by simp) ⟨0, .inl rfl⟩ fun q hq => absurd hq (Nat.not_lt_zero q)
      rcases hl with rfl | rfl
      · exact holder_acquire hfree p _ (hown _ rfl)
      · exact holder_self
  | scan i =>
    simp only [SleepSys.advance] at hs
    split at hs <;> cases hs
    · -- one more slot
      have hsub : ∀ q, (s.wakeSlot i chan).Committed q lk chan → s.Committed q lk chan := by
        rintro q ⟨pt, hq, hpt⟩
        refine ⟨pt, ?_, hpt.imp_right fun h => ⟨h.1, wakeSlot_sleeping h.2⟩⟩
        rw [wakeSlot] at hq
        split at hq <;> exact hq
      refine h.scan hw (by rw [wakeSlot]; split <;> rfl) (fun q => wakeSlot_sleeping)
        (by rw [wakeSlot]; split <;> rfl) (by rw [wakeSlot]; split <;> rfl)
        (fun q l _ h => by rw [wakeSlot]; split <;> exact h)
        (fun l hl => by rw [wakeSlot]; split <;> exact hown l hl) (by simp) ⟨i + 1, .inl rfl⟩ ?_
      intro q hq hc
      rcases Nat.lt_succ_iff_lt_or_eq.mp hq with hlt | rfl
      · exact hp.scanned _ hw q hlt (hsub q hc)
      · exact h.not_committed_wakeSlot hw hc
    · rename_i hn
      -- the whole table
      exact h.scan hw rfl (fun _ h => h) rfl rfl hsame hown (by simp) ⟨0, .inr (.inl rfl)⟩
        fun q hq => hp.scanned _ hw q (lt_of_lt_of_le hq (not_lt.mp hn))
  | woken =>
    cases hs
    split
    · exact h.scan hw rfl (fun _ h => h) rfl rfl hsame (fun l hl => hown l (.inl hl)) (by simp)
        ⟨0, .inr (.inr rfl)⟩ fun q hq => hp.scanned _ hw q hq
    case isFalse hne =>
      refine h.scan hw rfl (fun _ h => h) rfl rfl (holder_release (hown ptable (.inr rfl)))
        (fun l hl => ?_) (by simp) ⟨0, .inr (.inr rfl)⟩ fun q hq => hp.scanned _ hw q hq
      obtain rfl : l = lk := hl
      simpa [setHolder, hne] using hown l (.inl rfl)
  | leave =>
    cases hs
    refine h.leave hw (hown lk rfl) (by simp) rfl rfl rfl rfl fun q hl => ?_
    simp only [finish] at hl
    rcases hq : s.waiter q with _ | v <;> simp only [hq] at hl
    · exact .inl hl
    rcases Bool.or_eq_true_iff.mp hl with hl | hl
    · exact .inl hl
    -- a process that goes by its test of this condition has been looked at
    obtain ⟨rfl, rfl, -⟩ := of_decide_eq_true hl
    refine .inr fun lk' chan' hc => ?_
    obtain ⟨pt, hq', hpt⟩ := hc
    obtain rfl := Option.some.inj (hq.symm.trans hq')
    have hslot : q < n := by
      by_contra hn
      cases hq.symm.trans ((h q).slot (not_lt.mp hn))
    exact hp.scanned _ hw q hslot ⟨pt, hq', hpt⟩

/-- A process outside the code comes into it with the lock of its condition. -/
theorem Inv.enter (h : Inv n s) (hslot : p < n) (hw : s.waiter p = none)
    (hpt : pt = .test ∨ pt = .wake)
    (hs : s.acquire p lk (fun s => s.goto p ⟨pt, lk, chan⟩ pt) = .ok s') : Inv n s' := by
  obtain ⟨hfree, rfl⟩ := acquire_inv hs
  have hawake : s.state p ≠ .sleeping := fun hs => by
    obtain ⟨w, hw', -⟩ := (h p).sleeping hs
    cases hw.symm.trans hw'
  have hnot : ∀ lk' chan', ¬ ((s.setHolder lk (some (.proc p))).goto p ⟨pt, lk, chan⟩ pt).Committed
      p lk' chan' := by
    rintro lk' chan' ⟨pt1, hq, hpt1⟩
    obtain ⟨rfl, -, -⟩ := Waiter.mk.inj (Option.some.inj (goto_waiter.symm.trans hq))
    rcases hpt with rfl | rfl <;> rcases hpt1 with h | ⟨h, -⟩ <;> cases h
  refine h.move (p := p) (o := some ⟨pt, lk, chan⟩) rfl (fun _ _ h => h) (fun _ _ => rfl)
    (fun _ _ => .inl) (fun q l _ => holder_acquire hfree q l)
    (fun lk' chan' hc => absurd hc (hnot lk' chan')) ?_
  refine .of_point hslot goto_waiter (fun l hl => ?_) (fun hs => absurd hs hawake) ?_ ?_ ?_
    (fun _ => hnot _ _)
  · obtain rfl : l = lk := by rcases hpt with rfl | rfl <;> exact hl
    exact holder_self
  · rcases hpt with rfl | rfl <;> rintro (h | h | h) <;> cases h
  · rcases hpt with rfl | rfl <;> intro h <;> cases h
  · rcases hpt with rfl | rfl <;> exact fun q hq => absurd hq (Nat.not_lt_zero q)

/-- The scheduler switches to a process that has switched away. -/
theorem Inv.dispatch (h : Inv n s) (hw : s.waiter p = some ⟨.switched, lk, chan⟩)
    (hsched : s.holder ptable = some .scheduler) :
    Inv n (({ s with state := update s.state p .running }.setHolder ptable
      (some (.proc p))).goto p ⟨.switched, lk, chan⟩ .tidy) := by
  refine h.goto hw rfl (fun q hq => update_of_ne hq _ _) (fun _ _ => rfl)
    (fun _ _ => rfl) (fun q l _ hl => ?_) (fun l hl => ?_) (fun hs => ?_) (by simp) nofun rfl
    (by rintro (h | h) <;> cases h)
  · have hne : l ≠ ptable := by
      rintro rfl
      cases hsched.symm.trans hl
    simpa [setHolder, hne] using hl
  · obtain rfl : l = ptable := hl
    exact holder_self
  · simp [setHolder] at hs

/-- One event keeps the invariant. -/
theorem Inv.step {e : SleepEvent} (h : Inv n s) (hs : step n s e = .ok s') : Inv n s' := by
  cases e with
  | wait p lk chan =>
    simp only [SleepSys.step] at hs
    split at hs
    case isTrue hp => exact h.enter hp.1 hp.2 (.inl rfl) hs
    case isFalse => cases hs
  | signal p lk chan =>
    simp only [SleepSys.step] at hs
    split at hs
    case isTrue hp => exact h.enter hp.1 hp.2 (.inr rfl) hs
    case isFalse => cases hs
  | clear p =>
    simp only [SleepSys.step] at hs
    split at hs
    · cases hs
      exact h.still rfl (fun _ h => h) rfl rfl fun _ _ h => h
    · cases hs
  | step p =>
    simp only [SleepSys.step] at hs
    split at hs
    case h_1 w hw => exact h.advance hw hs
    case h_2 => cases hs
  | schedRelease =>
    simp only [SleepSys.step] at hs
    split at hs
    case isTrue hl =>
      cases hs
      exact h.still rfl (fun _ h => h) rfl rfl fun q l => holder_set (by rw [hl]; nofun)
    case isFalse => cases hs
  | schedAcquire =>
    simp only [SleepSys.step] at hs
    split at hs
    case isTrue hl =>
      cases hs
      exact h.still rfl (fun _ h => h) rfl rfl fun q l => holder_set (by rw [hl]; nofun)
    case isFalse => cases hs
  | dispatch p =>
    simp only [SleepSys.step] at hs
    split at hs
    case h_1 lk chan hw =>
      split at hs
      case isTrue hl =>
        cases hs
        exact h.dispatch hw hl
      case isFalse => cases hs
    case h_2 => cases hs
  | kill p =>
    simp only [SleepSys.step] at hs
    split at hs
    case isTrue =>
      cases hs
      split
      · refine h.still rfl (fun q hq => ?_) rfl rfl fun _ _ h => h
        simp only [update_apply] at hq
        split at hq
        · cases hq
        · exact hq
      · exact h
    case isFalse => cases hs

/-- **No wakeup is lost.** In every state that any interleaving reaches, a process that sleeps in
`sleep(chan, lk)` is not late: no waker for the same condition has finished since the process
found the condition false (in particular not when `lk` and `ptable.lock` are free). -/
theorem no_lost_wakeup (n : ℕ) (tr : List SleepEvent) (s : SleepSys)
    (hrun : run (step n) start tr = .ok s) (p : ℕ) (hsleep : s.state p = .sleeping) :
    (∃ w, s.waiter p = some w ∧ s.chan p = some w.chan ∧ w.point.Tested) ∧ s.late p = false := by
  have h := run_invariant (fun _ _ _ hs he => Inv.step hs he) inv_start tr s hrun p
  obtain ⟨⟨pt, lk, chan⟩, hw, hpt⟩ := h.sleeping hsleep
  refine ⟨⟨_, hw, h.chan _ hw (.inr hpt), ?_⟩, ?_⟩
  · rcases hpt with rfl | rfl <;> trivial
  rw [← Bool.not_eq_true]
  intro hlate
  refine h.late hlate lk chan ⟨pt, hw, ?_⟩
  rcases hpt with rfl | rfl
  · exact .inl trivial
  · exact .inr ⟨rfl, hsleep⟩

/-- Process 0 sleeps under lock 7; the other lock is free, and nobody has woken it. -/
theorem no_lost_wakeup_asleep :
    ∃ s, run (step 2) start [.wait 0 (.other 7) 5, .step 0, .step 0, .step 0, .step 0, .step 0,
        .step 0, .schedRelease] = .ok s ∧
      s.state 0 = .sleeping ∧ s.holder (.other 7) = none ∧ s.holder ptable = none ∧
      s.late 0 = false :=
  ⟨_, rfl, rfl, rfl, rfl, (no_lost_wakeup 2 [.wait 0 (.other 7) 5, .step 0, .step 0, .step 0,
    .step 0, .step 0, .step 0, .schedRelease] _ rfl 0 rfl).2⟩

end SleepSys

end Xv6
