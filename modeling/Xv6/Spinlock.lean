import Xv6.Machine
import Xv6.Param
import Xv6.WaitFor
import Mathlib.Data.Finset.Card

/-!
# Spin locks: the scheduler and the console

Which spin locks the code of `proc.c` and `console.c` takes, in which order, on any number of
CPUs. A routine is reduced to what it does with locks: a list of `LockOp`s (`acquire`, `release`,
and the two context switches, across which `ptable.lock` stays with the CPU). Any process or CPU
can run any routine at any time; a key press can interrupt a CPU whenever it holds no lock.

* `LockSys.step` executes a routine one operation at a time, with the checks of `acquire`,
  `release` and `sched`; a CPU that is in `acquire` spins until the lock is free;
* `LockSys.no_spin_deadlock`: **no circle of CPUs each spinning for a lock that the next one holds**
  in any run in which no scheduler round holds a lottery. A lottery calls `cprintf`, which takes
  `cons.lock`, under `ptable.lock`, and `consoleintr` takes the two locks in the other order
  (`LockSys.lottery_deadlock`).
-/

namespace Xv6

open Function

/-- The spin locks: `ptable.lock`, `cons.lock`, and all others. -/
inductive SpinLock : Type where
  | ptable
  | cons
  | other (n : ℕ)
  deriving DecidableEq, Repr

/-- What a routine does with locks. -/
inductive LockOp : Type where
  | acquire (l : SpinLock)
  | release (l : SpinLock)
  /-- `sched()`: the process leaves the CPU to its scheduler -/
  | sched
  /-- the scheduler switches to process `p` -/
  | swtch (p : ℕ)
  deriving DecidableEq, Repr

open SpinLock

/-! ## The routines -/

namespace Locks

/-- `cprintf`, after `consoleinit` has set `cons.locking` -/
def cprintf : List LockOp := [.acquire cons, .release cons]

/-- `wakeup` -/
def wakeup : List LockOp := [.acquire ptable, .release ptable]

/-- `sleep(chan, lk)` -/
def sleep (lk : SpinLock) : List LockOp :=
  if lk = ptable then [.sched]
  else [.acquire ptable, .release lk, .sched, .release ptable, .acquire lk]

/-- `n` calls, one after the other -/
def times (n : ℕ) (ops : List LockOp) : List LockOp := (List.replicate n ops).flatten

/-- `consoleintr`, when the keys complete `lines` lines; after a `^P`, `procdump` calls `cprintf`
`dumps` times -/
def consoleintr (lines dumps : ℕ) : List LockOp :=
  .acquire cons :: (times lines wakeup ++ .release cons :: times dumps cprintf)

/-- `consoleread`, when it has to sleep `n` times -/
def consoleread (n : ℕ) : List LockOp := .acquire cons :: (times n (sleep cons) ++ [.release cons])

/-- `consolewrite` -/
def consolewrite : List LockOp := [.acquire cons, .release cons]

/-- `yield` -/
def yield : List LockOp := [.acquire ptable, .sched, .release ptable]

/-- A caller of `sleep` that waits for a condition under `lk`, `n` times -/
def waitUnder (lk : SpinLock) (n : ℕ) : List LockOp :=
  .acquire lk :: (times n (sleep lk) ++ [.release lk])

/-- A caller of `wakeup` that makes a condition true under `lk` (of `wakeup1`, if that is
`ptable.lock`) -/
def wakeUnder (lk : SpinLock) : List LockOp :=
  if lk = ptable then [.acquire ptable, .release ptable]
  else .acquire lk :: (wakeup ++ [.release lk])

/-- One round of `scheduler`, when the scan finds `runnable` RUNNABLE processes and chooses `next`.
A lottery prints every entry of `run_p`, `pool` in all, and the winner if it is one of the two
programs it counts wins for. -/
def round (runnable pool : ℕ) (wins : Bool) (next : Option ℕ) : List LockOp :=
  .acquire ptable :: ((if runnable < 2 then [] else times (pool + wins.toNat) cprintf) ++
      match next with
      | some p => [.swtch p]
      | none => [.release ptable])

end Locks

/-! ## The machine -/

/-- The locks and the CPUs. -/
structure LockSys where
  /-- `lk->locked` and `lk->cpu` -/
  holder : SpinLock → Option ℕ
  /-- the lock in whose `acquire` the CPU is -/
  spinning : ℕ → Option SpinLock
  /-- `cpu->ncli` -/
  ncli : ℕ → ℕ
  /-- what the CPU has still to do of what it is in -/
  code : ℕ → List LockOp
  /-- `cpu->proc` -/
  proc : ℕ → Option ℕ
  /-- what a process that is on no CPU has still to do -/
  saved : ℕ → Option (List LockOp)

/-- What a process calls. -/
inductive Routine : Type where
  | cprintf
  | consoleread (n : ℕ)
  | consolewrite
  | yield
  | wakeup
  | waitUnder (lk : SpinLock) (n : ℕ)
  | wakeUnder (lk : SpinLock)
  deriving DecidableEq, Repr

def Routine.ops : Routine → List LockOp
  | .cprintf => Locks.cprintf
  | .consoleread n => Locks.consoleread n
  | .consolewrite => Locks.consolewrite
  | .yield => Locks.yield
  | .wakeup => Locks.wakeup
  | .waitUnder lk n => Locks.waitUnder lk n
  | .wakeUnder lk => Locks.wakeUnder lk

/-- One step of one CPU. -/
inductive LockEvent : Type where
  /-- the scheduler of CPU `c` begins a round -/
  | round (c runnable pool : ℕ) (wins : Bool) (next : Option ℕ)
  /-- the process on CPU `c` calls a routine -/
  | call (c : ℕ) (r : Routine)
  /-- CPU `c` takes a keyboard interrupt -/
  | intr (c lines dumps : ℕ)
  /-- CPU `c` goes on -/
  | step (c : ℕ)
  deriving DecidableEq, Repr

namespace LockSys

/-- No lock is taken, every CPU is in its scheduler, and every process is about to return from
`forkret`. -/
def start : LockSys where
  holder _ := none
  spinning _ := none
  ncli _ := 0
  code _ := []
  proc _ := none
  saved _ := some [.release ptable]

/-- CPU `c` goes on with `ops`. -/
def goto (s : LockSys) (c : ℕ) (ops : List LockOp) : LockSys :=
  { s with code := update s.code c ops }

/-- `acquire(l)` up to the loop: interrupts off, and the check. -/
def enter (s : LockSys) (c : ℕ) (l : SpinLock) : Except Stop LockSys :=
  if s.holder l = some c then .error (.panic "acquire")
  else .ok { s with
    spinning := update s.spinning c (some l)
    ncli := update s.ncli c (s.ncli c + 1) }

/-- The loop of `acquire(l)` ends when the lock is free. -/
def take (s : LockSys) (c : ℕ) (l : SpinLock) : Except Stop LockSys :=
  if s.holder l = none then
    .ok ({ s with
      holder := update s.holder l (some c)
      spinning := update s.spinning c none }.goto c (s.code c).tail)
  else .error .blocked

/-- `release(l)` -/
def letGo (s : LockSys) (c : ℕ) (l : SpinLock) (ops : List LockOp) : Except Stop LockSys :=
  if s.holder l = some c then
    .ok ({ s with
      holder := update s.holder l none
      ncli := update s.ncli c (s.ncli c - 1) }.goto c ops)
  else .error (.panic "release")

/-- `sched()`, up to the scheduler's return from `swtch`, after which it releases `ptable.lock`. Its
tests of the process state and of the interrupt flag are left out. -/
def leave (s : LockSys) (c : ℕ) (ops : List LockOp) : Except Stop LockSys :=
  if s.holder ptable ≠ some c then .error (.panic "sched ptable.lock")
  else if s.ncli c ≠ 1 then .error (.panic "sched locks")
  else
    match s.proc c with
    | none => .error .nullDeref
    | some p =>
      .ok ({ s with
        proc := update s.proc c none
        saved := update s.saved p (some ops) }.goto c [.release ptable])

/-- The scheduler's `swtch` to process `p`. -/
def resume (s : LockSys) (c p : ℕ) : Except Stop LockSys :=
  match s.saved p with
  | none => .error .badContext
  | some ops =>
    .ok ({ s with
      proc := update s.proc c (some p)
      saved := update s.saved p none }.goto c ops)

/-- One step. -/
def step (s : LockSys) : LockEvent → Except Stop LockSys
  | .round c runnable pool wins next =>
    if s.code c = [] ∧ s.proc c = none then .ok (s.goto c (Locks.round runnable pool wins next))
    else .error .blocked
  | .call c r =>
    if s.code c = [] ∧ s.proc c ≠ none then .ok (s.goto c r.ops) else .error .blocked
  | .intr c lines dumps =>
    if s.ncli c = 0 then
      .ok (s.goto c (Locks.consoleintr lines dumps ++ s.code c))
    else .error .blocked
  | .step c =>
    match s.spinning c, s.code c with
    | some l, _ => s.take c l
    | none, [] => .error .blocked
    | none, .acquire l :: _ => s.enter c l
    | none, .release l :: ops => s.letGo c l ops
    | none, .sched :: ops => s.leave c ops
    | none, .swtch p :: _ => s.resume c p

end LockSys

/-! ## The order of the locks -/

/-- `ptable.lock` comes last. -/
def SpinLock.rank : SpinLock → ℕ
  | ptable => 1
  | _ => 0

/-- A CPU that holds `held` can go through `ops` and takes every lock above those it holds. Across
a context switch it holds `ptable.lock` and no other. -/
def Ordered : Finset SpinLock → List LockOp → Prop
  | held, [] => held = ∅
  | held, .acquire l :: ops => (∀ m ∈ held, m.rank < l.rank) ∧ Ordered (insert l held) ops
  | held, .release l :: ops => Ordered (held.erase l) ops
  | held, .sched :: ops => held = {ptable} ∧ Ordered {ptable} ops
  | held, .swtch _ :: ops => held = {ptable} ∧ ops = []

namespace Ordered

variable {held : Finset SpinLock} {ops ops' : List LockOp} {l : SpinLock}

/-- A call inside a routine: it leaves the CPU with the locks it came with. -/
def Keeps (held : Finset SpinLock) (ops : List LockOp) : Prop :=
  ∀ rest, Ordered held rest → Ordered held (ops ++ rest)

theorem Keeps.times {n : ℕ} (h : Keeps held ops) : Keeps held (Locks.times n ops) := by
  intro rest hrest
  induction n with
  | zero => exact hrest
  | succ n ih =>
    have heq : Locks.times (n + 1) ops ++ rest = ops ++ (Locks.times n ops ++ rest) := by
      simp [Locks.times, List.replicate_succ]
    rw [heq]
    exact h _ ih

theorem Keeps.ordered (h : Keeps ∅ ops) : Ordered ∅ ops := by
  have := h [] rfl
  rwa [List.append_nil] at this

theorem rank_lt_ptable (h : l ≠ ptable) : l.rank < ptable.rank := by
  cases l with
  | ptable => exact absurd rfl h
  | cons => decide
  | other n => exact Nat.zero_lt_one

/-- `acquire(l); release(l)` with no lock held. -/
theorem keeps_pair (l : SpinLock) : Keeps ∅ [.acquire l, .release l] := by
  intro rest hrest
  refine ⟨by simp, ?_⟩
  simpa [Ordered] using hrest

/-- `wakeup` under any other lock. -/
theorem keeps_wakeup (h : l ≠ ptable) : Keeps {l} Locks.wakeup := by
  intro rest hrest
  have herase : (insert ptable {l} : Finset SpinLock).erase ptable = {l} :=
    Finset.erase_insert (by simpa using Ne.symm h)
  refine ⟨by simpa using rank_lt_ptable h, ?_⟩
  show Ordered ((insert ptable {l} : Finset SpinLock).erase ptable) rest
  rwa [herase]

/-- `sleep` under any lock. -/
theorem keeps_sleep (l : SpinLock) : Keeps {l} (Locks.sleep l) := by
  intro rest hrest
  rw [Locks.sleep]
  split
  case isTrue h =>
    subst h
    exact ⟨rfl, hrest⟩
  case isFalse h =>
    have herase : (insert ptable {l} : Finset SpinLock).erase l = {ptable} := by
      rw [Finset.pair_comm]
      exact Finset.erase_insert (by simpa using h)
    refine ⟨by simpa using rank_lt_ptable h, herase, ?_⟩
    refine ⟨by simp, ?_⟩
    simpa using hrest

/-- A routine that works under one lock. -/
theorem keeps_under {l : SpinLock} (h : Keeps {l} ops) :
    Keeps ∅ (.acquire l :: (ops ++ [.release l])) := by
  intro rest hrest
  refine ⟨by simp, ?_⟩
  show Ordered {l} ((ops ++ [.release l]) ++ rest)
  rw [List.append_assoc]
  refine h _ ?_
  show Ordered (({l} : Finset SpinLock).erase l) rest
  simpa using hrest

theorem keeps_consoleintr (lines dumps : ℕ) : Keeps ∅ (Locks.consoleintr lines dumps) := by
  intro rest hrest
  have hdump := (keeps_pair cons).times (n := dumps) rest hrest
  have := keeps_under (Keeps.times (n := lines) (keeps_wakeup (l := cons) (by decide))) _ hdump
  simpa [Locks.consoleintr, Locks.cprintf] using this

/-- **Every routine that a process calls keeps to the order.** -/
theorem routine (r : Routine) : Ordered ∅ r.ops := by
  cases r with
  | cprintf => exact (keeps_pair cons).ordered
  | consoleread n => exact (keeps_under (keeps_sleep cons).times).ordered
  | consolewrite => exact (keeps_pair cons).ordered
  | yield => exact ⟨by simp, rfl, by simp [Ordered]⟩
  | wakeup => exact (keeps_pair ptable).ordered
  | waitUnder lk n => exact (keeps_under (keeps_sleep lk).times).ordered
  | wakeUnder lk =>
    simp only [Routine.ops, Locks.wakeUnder]
    split
    · exact (keeps_pair ptable).ordered
    case isFalse h => exact (keeps_under (keeps_wakeup h)).ordered

/-- **So does a scheduler round without a lottery.** -/
theorem round {runnable pool : ℕ} {wins : Bool} {next : Option ℕ} (h : runnable < 2) :
    Ordered ∅ (Locks.round runnable pool wins next) := by
  simp only [Locks.round, if_pos h, List.nil_append]
  refine ⟨by simp, ?_⟩
  cases next with
  | none => simp [Ordered]
  | some p => exact ⟨rfl, rfl⟩

end Ordered

namespace LockSys

variable {s s' : LockSys} {held : ℕ → Finset SpinLock} {c : ℕ} {l : SpinLock} {ops : List LockOp}

/-- `held` says what every CPU holds, and what every CPU and every process has still to do keeps to
the order. -/
structure Inv (s : LockSys) (held : ℕ → Finset SpinLock) : Prop where
  mem : ∀ c l, l ∈ held c ↔ s.holder l = some c
  ncli : ∀ c, s.ncli c = (held c).card + (s.spinning c).isSome.toNat
  code : ∀ c, Ordered (held c) (s.code c)
  saved : ∀ p ops, s.saved p = some ops → Ordered {ptable} ops
  spinning : ∀ c l, s.spinning c = some l → ∃ ops, s.code c = .acquire l :: ops

theorem inv_start : Inv start fun _ => ∅ where
  mem := by simp [start]
  ncli _ := rfl
  code _ := rfl
  saved := by
    rintro p ops h
    obtain rfl := Option.some.inj h
    simp [Ordered]
  spinning := nofun

section

variable (h : Inv s held)

include h

/-- A CPU that is not in `acquire` goes on with other code. -/
theorem Inv.goto (hc : s.spinning c = none) (hops : Ordered (held c) ops) :
    Inv (s.goto c ops) held where
  mem := h.mem
  ncli := h.ncli
  code c' := by
    rcases eq_or_ne c' c with rfl | hne
    · simpa [LockSys.goto] using hops
    · simpa [LockSys.goto, hne] using h.code c'
  saved := h.saved
  spinning c' l hl := by
    have hne : c' ≠ c := by
      rintro rfl
      cases hc.symm.trans hl
    simpa [LockSys.goto, hne] using h.spinning c' l hl

/-- A CPU without code is not in `acquire` and holds nothing. -/
theorem Inv.of_nil (hc : s.code c = []) : s.spinning c = none ∧ held c = ∅ := by
  refine ⟨?_, ?_⟩
  · rcases hl : s.spinning c with _ | l
    · rfl
    · obtain ⟨ops, hops⟩ := h.spinning c l hl
      cases hc.symm.trans hops
  · have := h.code c
    rwa [hc] at this

theorem Inv.enter (hc : s.spinning c = none) (hcode : s.code c = .acquire l :: ops)
    (hs : s.enter c l = .ok s') : Inv s' held := by
  rw [LockSys.enter] at hs
  split at hs
  · cases hs
  cases hs
  refine ⟨h.mem, fun c' => ?_, h.code, h.saved, fun c' l' hl => ?_⟩
  · rcases eq_or_ne c' c with rfl | hne
    · have := h.ncli c'
      simp [hc] at this
      simp [this]
    · simpa [hne] using h.ncli c'
  · rcases eq_or_ne c' c with rfl | hne
    · obtain rfl : l = l' := by simpa using hl
      exact ⟨ops, hcode⟩
    · exact h.spinning c' l' (by simpa [hne] using hl)

theorem Inv.take (hc : s.spinning c = some l) (hs : s.take c l = .ok s') :
    Inv s' (update held c (insert l (held c))) := by
  rw [LockSys.take] at hs
  split at hs
  case isFalse => cases hs
  case isTrue hfree =>
  cases hs
  obtain ⟨ops, hcode⟩ := h.spinning c l hc
  have hnot : ∀ c', l ∉ held c' := fun c' hmem => by
    cases hfree.symm.trans ((h.mem c' l).mp hmem)
  refine ⟨fun c' m => ?_, fun c' => ?_, fun c' => ?_, h.saved, fun c' m hm => ?_⟩
  · rcases eq_or_ne c' c with rfl | hne
    · rcases eq_or_ne m l with rfl | hml
      · simp [LockSys.goto]
      · simpa [LockSys.goto, hml] using h.mem c' m
    · rcases eq_or_ne m l with rfl | hml
      · simpa [LockSys.goto, hne, Ne.symm hne] using hnot c'
      · simpa [LockSys.goto, hml, hne] using h.mem c' m
  · rcases eq_or_ne c' c with rfl | hne
    · simp [LockSys.goto, h.ncli, hc, Finset.card_insert_of_notMem (hnot c')]
    · simpa [LockSys.goto, hne] using h.ncli c'
  · rcases eq_or_ne c' c with rfl | hne
    · have := h.code c'
      rw [hcode] at this
      simpa [LockSys.goto, hcode] using this.2
    · simpa [LockSys.goto, hne] using h.code c'
  · have hne : c' ≠ c := by
      rintro rfl
      simp [LockSys.goto] at hm
    simpa [LockSys.goto, hne] using h.spinning c' m (by simpa [LockSys.goto, hne] using hm)

theorem Inv.letGo (hc : s.spinning c = none)
    (hcode : s.code c = .release l :: ops) (hs : s.letGo c l ops = .ok s') :
    Inv s' (update held c ((held c).erase l)) := by
  rw [LockSys.letGo] at hs
  split at hs
  case isFalse => cases hs
  case isTrue hheld =>
  cases hs
  have hmem := (h.mem c l).mpr hheld
  refine ⟨fun c' m => ?_, fun c' => ?_, fun c' => ?_, h.saved, fun c' m hm => ?_⟩
  · rcases eq_or_ne c' c with rfl | hne
    · rcases eq_or_ne m l with rfl | hml
      · simp [LockSys.goto]
      · simpa [LockSys.goto, hml] using h.mem c' m
    · rcases eq_or_ne m l with rfl | hml
      · simpa [LockSys.goto, hne, h.mem c' m, hheld] using Ne.symm hne
      · simpa [LockSys.goto, hml, hne] using h.mem c' m
  · rcases eq_or_ne c' c with rfl | hne
    · simp [LockSys.goto, h.ncli, hc, Finset.card_erase_of_mem hmem]
    · simpa [LockSys.goto, hne] using h.ncli c'
  · rcases eq_or_ne c' c with rfl | hne
    · have hops := h.code c'
      rw [hcode, Ordered] at hops
      simpa [LockSys.goto] using hops
    · simpa [LockSys.goto, hne] using h.code c'
  · have hne : c' ≠ c := by
      rintro rfl
      cases hc.symm.trans hm
    simpa [LockSys.goto, hne] using h.spinning c' m hm

theorem Inv.leave (hc : s.spinning c = none) (hcode : s.code c = .sched :: ops)
    (hs : s.leave c ops = .ok s') : Inv s' held := by
  obtain ⟨hheld, hops⟩ : held c = {ptable} ∧ Ordered {ptable} ops := by
    have := h.code c
    rwa [hcode] at this
  rw [LockSys.leave] at hs
  split at hs
  · cases hs
  split at hs
  · cases hs
  rcases hp : s.proc c with _ | p <;> rw [hp] at hs
  · cases hs
  cases hs
  refine Inv.goto { h with saved := fun q ops' hq => ?_ } hc ?_
  · rcases eq_or_ne q p with rfl | hne
    · obtain rfl : ops = ops' := by simpa using hq
      exact hops
    · exact h.saved q ops' (by simpa [hne] using hq)
  · rw [hheld]
    simp [Ordered]

theorem Inv.resume {p : ℕ} (hc : s.spinning c = none)
    (hcode : s.code c = .swtch p :: ops) (hs : s.resume c p = .ok s') : Inv s' held := by
  have hheld : held c = {ptable} := by
    have := h.code c
    rw [hcode] at this
    exact this.1
  rw [LockSys.resume] at hs
  rcases hp : s.saved p with _ | ops' <;> rw [hp] at hs
  · cases hs
  cases hs
  refine Inv.goto { h with saved := fun q ops' hq => ?_ } hc ?_
  · have hne : q ≠ p := by
      rintro rfl
      simp at hq
    exact h.saved q ops' (by simpa [hne] using hq)
  · rw [hheld]
    exact h.saved p ops' hp

end

/-- The event is not the start of a round with a lottery. -/
def NoLottery (_ : LockSys) (e : LockEvent) : Prop :=
  ∀ c runnable pool wins next, e = .round c runnable pool wins next → runnable < 2

/-- One step keeps to the order, if it is no lottery. -/
theorem Inv.step {e : LockEvent} (h : Inv s held) (hq : NoLottery s e) (hs : step s e = .ok s') :
    ∃ held', Inv s' held' := by
  cases e with
  | round c runnable pool wins next =>
    simp only [LockSys.step] at hs
    split at hs
    case isTrue hc =>
      cases hs
      obtain ⟨hspin, hheld⟩ := h.of_nil hc.1
      exact ⟨held, h.goto hspin (by rw [hheld]; exact .round (hq _ _ _ _ _ rfl))⟩
    case isFalse => cases hs
  | call c r =>
    simp only [LockSys.step] at hs
    split at hs
    case isTrue hc =>
      cases hs
      obtain ⟨hspin, hheld⟩ := h.of_nil hc.1
      exact ⟨held, h.goto hspin (by rw [hheld]; exact .routine r)⟩
    case isFalse => cases hs
  | intr c lines dumps =>
    simp only [LockSys.step] at hs
    split at hs
    case isTrue hc =>
      cases hs
      -- interrupts are on, so the CPU holds no lock and is in no `acquire`
      have hncli := h.ncli c
      rw [hc] at hncli
      have hheld : held c = ∅ := Finset.card_eq_zero.mp (by omega)
      have hspin : s.spinning c = none := by
        rcases hl : s.spinning c with _ | l
        · rfl
        · simp [hl] at hncli
      refine ⟨held, h.goto hspin ?_⟩
      have hcode := h.code c
      rw [hheld] at hcode ⊢
      exact Ordered.keeps_consoleintr lines dumps _ hcode
    case isFalse => cases hs
  | step c =>
    rcases hspin : s.spinning c with _ | l
    · rcases hcode : s.code c with _ | ⟨l | l | _ | p, ops⟩ <;>
        simp only [LockSys.step, hspin, hcode] at hs
      · cases hs
      · exact ⟨_, h.enter hspin hcode hs⟩
      · exact ⟨_, h.letGo hspin hcode hs⟩
      · exact ⟨_, h.leave hspin hcode hs⟩
      · exact ⟨_, h.resume hspin hcode hs⟩
    · simp only [LockSys.step, hspin] at hs
      exact ⟨_, h.take hspin hs⟩

/-- **No deadlock between spin locks**: in every run in which no scheduler round holds a lottery,
no state reached has a circle of CPUs each of which spins for a lock that the next one holds. -/
theorem no_spin_deadlock (tr : List LockEvent) (s : LockSys) (hrun : run step start tr = .ok s)
    (hquiet : Meets step start NoLottery tr) :
    ¬ Deadlock s.spinning fun c l => s.holder l = some c := by
  obtain ⟨held, h⟩ := Meets.invariant (P := fun s => ∃ held, Inv s held)
    (fun _ _ _ hs hq he => hs.elim fun _ h => h.step hq he) ⟨_, inv_start⟩ hquiet hrun
  refine not_deadlock SpinLock.rank fun c l m hl hm => ?_
  obtain ⟨ops, hcode⟩ := h.spinning c l hl
  have hordered := h.code c
  rw [hcode] at hordered
  exact hordered.1 m ((h.mem c m).mpr hm)

/-- CPU 0 is in a round with one RUNNABLE process, CPU 1 handles a line of input and spins for
`ptable.lock`. -/
theorem no_spin_deadlock_round :
    ∃ s, run step start [.round 0 1 1 false (some 0), .step 0, .step 0, .intr 1 1 0, .step 1,
        .step 1, .step 1] = .ok s ∧
      s.spinning 1 = some ptable ∧ s.holder ptable = some 0 ∧
      ¬ Deadlock s.spinning fun c l => s.holder l = some c := by
  refine ⟨_, rfl, rfl, rfl, no_spin_deadlock [.round 0 1 1 false (some 0), .step 0, .step 0,
    .intr 1 1 0, .step 1, .step 1, .step 1] _ rfl ?_⟩
  intro u e v s htr _ c runnable pool wins next he
  have hmem : e ∈ [LockEvent.round 0 1 1 false (some 0), .step 0, .step 0, .intr 1 1 0, .step 1,
      .step 1, .step 1] := by simp [htr]
  subst he
  obtain ⟨-, rfl, -⟩ : c = 0 ∧ runnable = 1 ∧ _ := by simpa using hmem
  decide

/-- CPU 0 holds a lottery between two processes and is about to print the first; CPU 1 handles a
line of input and is about to wake the reader. CPU 0 holds `ptable.lock` and spins for `cons.lock`,
CPU 1 holds `cons.lock` and spins for `ptable.lock`. -/
theorem lottery_deadlock :
    ∃ s, run step start [.round 0 2 2 false (some 0), .step 0, .step 0, .intr 1 1 0, .step 1,
        .step 1, .step 0, .step 1] = .ok s ∧
      s.holder ptable = some 0 ∧ s.spinning 0 = some cons ∧
      s.holder cons = some 1 ∧ s.spinning 1 = some ptable ∧
      Deadlock s.spinning fun c l => s.holder l = some c :=
  ⟨_, rfl, rfl, rfl, rfl, rfl, deadlock_of_two (a := 0) (b := 1) ⟨cons, rfl, rfl⟩
    ⟨ptable, rfl, rfl⟩⟩

end LockSys

end Xv6
