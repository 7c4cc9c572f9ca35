import Mathlib
import Xv6.Machine
import Xv6.Param

/-!
# The process table: `proc.c` as a machine

The process table with every function of `proc.c` that changes it, on any number of CPUs. One
event is one segment of code that runs under `ptable.lock`, or one unlocked write to the table.

* `fork` is several events, as in the source: `allocproc` takes a slot under the lock, and the
  child becomes RUNNABLE under the lock at the end, but giving the slot up when `kalloc` or
  `copyuvm` fails, and the copying in between, happen without it. Any other CPU may run between
  them, and the timer may preempt `fork` there.
* `wait` sleeps *inside* the lock, so the scan after it has been woken belongs to the round that
  switches back to it.
* A round of `scheduler` is one event: it scans the table, holds the lottery and switches. The
  array `run_p` is a local variable of `scheduler` that lives as long as the CPU; each CPU has
  its own, and a round overwrites only the front of it.
* `Kont` records where in the kernel a process is while it does not run: what it goes on with
  when a round switches to it.

`cprintf`s and the memory, files and trap frame of a process are left out.
-/

namespace Xv6

open Function

/-- `enum procstate` -/
inductive ProcState : Type where
  | unused | embryo | sleeping | runnable | running | zombie
  deriving DecidableEq, Repr

/-- An index into `ptable.proc`. -/
abbrev Slot : Type := Fin NPROC

/-- What a process sleeps on: `wait` sleeps on the address of the process itself. -/
inductive Chan : Type where
  | proc (p : Slot)
  | other (addr : ℕ)
  deriving DecidableEq

/-- `char name[16]` -/
abbrev Name : Type := Bytes 16

/-- `struct proc` -/
structure Proc where
  /-- Process state -/
  state : ProcState
  /-- Process ID -/
  pid : Int32
  /-- Parent process -/
  parent : Option Slot
  /-- If non-zero, sleeping on chan -/
  chan : Option Chan
  /-- If non-zero, have been killed -/
  killed : Bool
  /-- Process name (debugging) -/
  name : Name
  /-- num of tickets hold. -/
  ticket : UInt32

/-- Where in the kernel a process is. -/
inductive Kont : Type where
  /-- there is no process, or it has no stack to run on yet -/
  | none
  /-- in user code, or in a part of the kernel that leaves the table alone -/
  | user
  /-- in `fork`, after `allocproc` took slot `np` -/
  | forkAlloc (np : Slot)
  /-- in `fork`, after the child's fields have been filled in -/
  | forkCopied (np : Slot)
  /-- in the `sleep` of `wait` -/
  | waiting
  /-- in the `sched` of `exit` -/
  | exited
  deriving DecidableEq

/-- What a CPU has of its own: the process it runs and the array `run_p` of its scheduler. -/
structure Cpu where
  proc : Option Slot
  runP : List (Option Slot)

/-- The process table, the globals of `proc.c` and the CPUs. -/
structure ProcSys where
  proc : Slot → Proc
  nextpid : Int32
  randstate : UInt32
  pWin : UInt32
  cWin : UInt32
  cpu : ℕ → Cpu
  kont : Slot → Kont

/-- One step of the system. Events that name a CPU are steps of the process that runs there,
except for `round`, which is a step of the CPU's scheduler. -/
inductive ProcEvent : Type where
  | round (c : ℕ)
  | yield (c : ℕ)
  | sleep (c : ℕ) (chan : Chan)
  | wakeup (chan : Chan)
  | exit (c : ℕ)
  | wait (c : ℕ)
  | kill (c : ℕ) (pid : Int32)
  /-- `fork` up to the end of the locked part of `allocproc` -/
  | fork (c : ℕ)
  /-- `kalloc` or `copyuvm` fails -/
  | forkFail (c : ℕ)
  /-- `fork` fills in the child -/
  | forkCopy (c : ℕ)
  /-- `fork` makes the child RUNNABLE -/
  | forkDone (c : ℕ)
  /-- a successful `exec` of a path with this last component -/
  | exec (c : ℕ) (last : List UInt8)
  /-- a user-mode trap that the kernel does not expect: `proc->killed = 1` -/
  | fault (c : ℕ)
  deriving DecidableEq

/-! ## Names -/

/-- `compare_string`: all 16 bytes are compared, whatever follows a NUL. (Both `sizeof`s are
that of a pointer.) -/
def compareString (first second : Name) : Bool :=
  (List.finRange 16).all fun i => first i == second i

/-- A name written as characters, padded with NULs. -/
def nameOf (s : List Char) : Name := fun i => (s.map fun c => c.toNat.toUInt8).getD i 0

def lotChild : Name := nameOf ['l', 'o', 't', '_', 'c', 'h', 'i', 'l', 'd']

def lotParent : Name := nameOf ['l', 'o', 't', '_', 'p', 'a', 'r', 'e', 'n', 't']

/-- `safestrcpy(s, t, 16)`: copy up to 15 characters; the terminating NUL is followed by another
one if there is room; the rest of `s` stays. -/
def safestrcpy (s : Name) (t : ℕ → UInt8) : Name :=
  let k := ((List.range 15).find? fun i => t i == 0).getD 15
  fun i => if i < k then t i else if i ≤ min (k + 1) 15 then 0 else s i

/-- `rand(max)`: the ticket drawn, and the new `randstate`. -/
def rand (randstate max : UInt32) : UInt32 × UInt32 :=
  let randstate := randstate * 1664525 + 1013904223
  (randstate % max + 1, randstate)

namespace ProcSys

/-- `initproc`: `userinit` runs on an empty table. -/
def initproc : Slot := 0

def setProc (s : ProcSys) (p : Slot) (x : Proc) : ProcSys :=
  { s with proc := update s.proc p x }

def setKont (s : ProcSys) (p : Slot) (k : Kont) : ProcSys :=
  { s with kont := update s.kont p k }

def setCpu (s : ProcSys) (c : ℕ) (x : Cpu) : ProcSys :=
  { s with cpu := update s.cpu c x }

/-- The first slot that satisfies `f`: the search loops over `ptable.proc`. -/
def findSlot (s : ProcSys) (f : Proc → Bool) : Option Slot :=
  (List.finRange NPROC).find? fun p => f (s.proc p)

/-- After `userinit`: one process, every CPU in its scheduler, `run_p` cleared. -/
def start : ProcSys where
  proc := fun p =>
    if p = initproc then
      { state := .runnable, pid := 1, parent := none, chan := none, killed := false
        name := nameOf ['i', 'n', 'i', 't', 'c', 'o', 'd', 'e'], ticket := 0 }
    else
      { state := .unused, pid := 0, parent := none, chan := none, killed := false
        name := Bytes.zero, ticket := 0 }
  nextpid := 2
  randstate := 1
  pWin := 0
  cWin := 0
  cpu := fun _ => { proc := none, runP := List.replicate NPROC none }
  kont := fun p => if p = initproc then .user else .none

/-! ## Sleeping and waking up -/

/-- `sched`: back to the scheduler of the CPU, which sets `proc = 0`. -/
def sched (s : ProcSys) (c : ℕ) : ProcSys := s.setCpu c { s.cpu c with proc := none }

/-- `wakeup1`, `wakeup` -/
def wakeup1 (s : ProcSys) (chan : Chan) : ProcSys :=
  { s with proc := fun p =>
      if (s.proc p).state = .sleeping ∧ (s.proc p).chan = some chan then
        { s.proc p with state := .runnable }
      else s.proc p }

def yield (s : ProcSys) (c : ℕ) (p : Slot) : ProcSys :=
  (s.setProc p { s.proc p with state := .runnable }).sched c

/-- `sleep` up to `sched`. -/
def sleep (s : ProcSys) (c : ℕ) (p : Slot) (chan : Chan) : ProcSys :=
  (s.setProc p { s.proc p with chan := some chan, state := .sleeping }).sched c

/-- `kill(pid)`, with its result. -/
def kill (s : ProcSys) (pid : Int32) : ProcSys × Int :=
  match s.findSlot fun x => x.pid == pid with
  | some p =>
    let x := s.proc p
    (s.setProc p { x with
      killed := true
      state := if x.state = .sleeping then .runnable else x.state }, 0)
  | none => (s, -1)

/-! ## `fork` -/

/-- The locked part of `allocproc`. -/
def allocproc (s : ProcSys) : Option (ProcSys × Slot) :=
  match s.findSlot fun x => x.state == .unused with
  | some p =>
    some ({ s.setProc p { s.proc p with state := .embryo, pid := s.nextpid } with
      nextpid := s.nextpid + 1 }, p)
  | none => none

/-- `fork` of process `p`, up to the end of the locked part of `allocproc`. -/
def fork (s : ProcSys) (p : Slot) : ProcSys :=
  match s.allocproc with
  | some (s', np) => s'.setKont p (.forkAlloc np)
  | none => s

/-- `kalloc` or `copyuvm` fails: the slot is given up as it is. -/
def forkFail (s : ProcSys) (p np : Slot) : ProcSys :=
  (s.setProc np { s.proc np with state := .unused }).setKont p .user

/-- `np->parent = proc; ... safestrcpy(np->name, proc->name, sizeof(proc->name))` -/
def forkCopy (s : ProcSys) (p np : Slot) : ProcSys :=
  (s.setProc np { s.proc np with
    parent := some p
    name := safestrcpy (s.proc np).name (s.proc p).name.get }).setKont p (.forkCopied np)

/-- `np->state = RUNNABLE`; the child will start in `forkret`. -/
def forkDone (s : ProcSys) (p np : Slot) : ProcSys :=
  ((s.setProc np { s.proc np with state := .runnable }).setKont np .user).setKont p .user

/-! ## `exit` and `wait` -/

/-- Pass abandoned children to init. -/
def reparent (s : ProcSys) (p : Slot) : ProcSys :=
  (List.finRange NPROC).foldl (fun s q =>
    if (s.proc q).parent = some p then
      let s := s.setProc q { s.proc q with parent := some initproc }
      if (s.proc q).state = .zombie then s.wakeup1 (.proc initproc) else s
    else s) s

/-- `exit`, from `acquire(&ptable.lock)` to `sched`. -/
def exit (s : ProcSys) (c : ℕ) (p : Slot) : Except Stop ProcSys :=
  if p = initproc then .error (.panic "init exiting")
  else
    -- Parent might be sleeping in wait().
    let s := match (s.proc p).parent with
      | some q => s.wakeup1 (.proc q)
      | none => s
    let s := s.reparent p
    .ok (((s.setProc p { s.proc p with state := .zombie }).sched c).setKont p .exited)

/-- `wait` has found the zombie `q`. -/
def reap (s : ProcSys) (q : Slot) : ProcSys :=
  (s.setProc q { s.proc q with
    state := .unused
    pid := 0
    parent := none
    name := update (s.proc q).name 0 0
    killed := false }).setKont q .none

/-- One pass of `wait`'s loop, by process `p` on CPU `c`. -/
def wait (s : ProcSys) (c : ℕ) (p : Slot) : ProcSys :=
  match s.findSlot fun x => x.parent == some p && x.state == .zombie with
  | some q => (s.reap q).setKont p .user
  | none =>
    -- No point waiting if we don't have any children.
    if (s.findSlot fun x => x.parent == some p).isNone || (s.proc p).killed then s.setKont p .user
    else (s.sleep c p (.proc p)).setKont p .waiting

/-! ## The scheduler -/

/-- The tickets a round gives out. -/
def assignTickets (s : ProcSys) : ProcSys :=
  { s with proc := fun p =>
      { s.proc p with ticket := if compareString (s.proc p).name lotChild then 50 else 10 } }

/-- The RUNNABLE processes, in table order. -/
def runnables (s : ProcSys) : List Slot :=
  (List.finRange NPROC).filter fun p => (s.proc p).state == .runnable

/-- `run_p` after the scan of the table: the front is overwritten, the rest stays. -/
def scan (s : ProcSys) (c : ℕ) : List (Option Slot) :=
  s.runnables.map some ++ (s.cpu c).runP.drop s.runnables.length

/-- The pool of the lottery: the processes before the first null entry of `run_p`. -/
def pool : List (Option Slot) → List Slot
  | some p :: rp => p :: pool rp
  | _ => []

/-- The comparison of entries `i` and `j` in the loop that removes duplicates. -/
def removeDup (proc : Slot → Proc) (i : ℕ) (rp : List (Option Slot)) (j : ℕ) :
    Except Stop (List (Option Slot)) :=
  match rp.getD i none, rp.getD j none with
  | some p, some q => .ok (if (proc p).pid = (proc q).pid then rp.set j none else rp)
  | _, _ => .error .nullDeref

/-- remove duplicate processes. -/
def removeDups (proc : Slot → Proc) (runNum : ℕ) (rp : List (Option Slot)) :
    Except Stop (List (Option Slot)) :=
  run (fun rp i => run (removeDup proc i) rp (List.range' (i + 1) (runNum - (i + 1)))) rp
    (List.range runNum)

/-- `run_p` as the lottery finds it. The loop that prints the pool has no bound but a null entry;
then duplicates are removed. -/
def candidates (s : ProcSys) (c : ℕ) : Except Stop (List (Option Slot)) :=
  if (pool (s.scan c)).length < NPROC then
    removeDups s.proc s.runnables.length (s.scan c)
  else .error .outOfBounds

/-- The draw: add tickets until they reach `rd`; `prev` is entry `i - 1`. -/
def draw (ticket : Slot → UInt32) (rd range : UInt32) (prev : Option Slot) : List Slot → Option Slot
  | [] => prev
  | p :: ps => if rd > range then draw ticket rd (range + ticket p) (some p) ps else prev

/-- The sum of the tickets in the pool. -/
def tickets (s : ProcSys) (ps : List Slot) : UInt32 := (ps.map fun p => (s.proc p).ticket).sum

/-- The winner is counted under its name. -/
def countWin (s : ProcSys) (p : Slot) : ProcSys :=
  if compareString (s.proc p).name lotChild then { s with cWin := s.cWin + 1 }
  else if compareString (s.proc p).name lotParent then { s with pWin := s.pWin + 1 }
  else s

/-- start lottery schedule among run_p processes. -/
def lottery (s : ProcSys) (c : ℕ) (rp : List (Option Slot)) : Except Stop (ProcSys × Slot) :=
  let max := s.tickets (pool rp)
  if max = 0 then .error .divideError
  else
    let (rd, randstate) := rand s.randstate max
    match draw (fun p => (s.proc p).ticket) rd 0 none (pool rp) with
    | some p => .ok ({ (s.setCpu c { s.cpu c with runP := rp }).countWin p with randstate }, p)
    | none => .error .outOfBounds

/-- The process a round chooses, if there is one to choose. -/
def pick (s : ProcSys) (c : ℕ) : Except Stop (ProcSys × Option Slot) :=
  match s.runnables with
  | [] => .ok (s, none)
  | [p] => .ok (s.setCpu c { s.cpu c with runP := s.scan c }, some p)
  | _ =>
    match s.candidates c with
    | .ok rp => (s.lottery c rp).map fun x => (x.1, some x.2)
    | .error k => .error k

/-- Process `p` runs on CPU `c`; a process that slept tidies up its `chan`. -/
def resume (s : ProcSys) (c : ℕ) (p : Slot) : ProcSys :=
  (s.setProc p { s.proc p with state := .running, chan := none }).setCpu c
    { s.cpu c with proc := some p }

/-- Switch to process `p`, and let it run until it releases `ptable.lock`: in `wait` that means
another scan of the table. -/
def switchTo (s : ProcSys) (c : ℕ) (p : Slot) : Except Stop ProcSys :=
  if (s.proc p).state = .running then .error .badContext
  else match s.kont p with
    | .none => .error .badContext
    | .exited => .error (.panic "zombie exit")
    | .waiting => .ok ((s.resume c p).wait c p)
    | _ => .ok (s.resume c p)

/-- One round of `scheduler`. -/
def round (s : ProcSys) (c : ℕ) : Except Stop ProcSys :=
  if (s.cpu c).proc.isSome then .error .blocked
  else match s.assignTickets.pick c with
    | .ok (s', some p) => s'.switchTo c p
    | .ok (s', none) => .ok s'
    | .error k => .error k

/-! ## The step function -/

/-- A step of the process that runs on CPU `c`. -/
def onCpu (s : ProcSys) (c : ℕ) (f : Slot → Except Stop ProcSys) : Except Stop ProcSys :=
  match (s.cpu c).proc with
  | some p => f p
  | none => .error .blocked

/-- A step of the process that runs on CPU `c`, and is not inside `fork`. -/
def atUser (s : ProcSys) (c : ℕ) (f : Slot → Except Stop ProcSys) : Except Stop ProcSys :=
  s.onCpu c fun p => if s.kont p = .user then f p else .error .blocked

/-- One event of the machine. -/
def step (s : ProcSys) : ProcEvent → Except Stop ProcSys
  | .round c => s.round c
  | .yield c => s.onCpu c fun p => .ok (s.yield c p)
  | .sleep c chan => s.atUser c fun p => .ok (s.sleep c p chan)
  | .wakeup chan => .ok (s.wakeup1 chan)
  | .exit c => s.atUser c fun p => s.exit c p
  | .wait c => s.atUser c fun p => .ok (s.wait c p)
  | .kill c pid => s.atUser c fun _ => .ok (s.kill pid).1
  | .fork c => s.atUser c fun p => .ok (s.fork p)
  | .forkFail c => s.onCpu c fun p =>
    match s.kont p with
    | .forkAlloc np => .ok (s.forkFail p np)
    | _ => .error .blocked
  | .forkCopy c => s.onCpu c fun p =>
    match s.kont p with
    | .forkAlloc np => .ok (s.forkCopy p np)
    | _ => .error .blocked
  | .forkDone c => s.onCpu c fun p =>
    match s.kont p with
    | .forkCopied np => .ok (s.forkDone p np)
    | _ => .error .blocked
  | .exec c last => s.atUser c fun p =>
    .ok (s.setProc p { s.proc p with
      name := safestrcpy (s.proc p).name fun i => last.getD i 0 })
  | .fault c => s.atUser c fun p => .ok (s.setProc p { s.proc p with killed := true })

/-! ## What each operation leaves alone -/

section Frame

variable (s : ProcSys) (c : ℕ) (p q : Slot) (x : Proc) (k : Kont) (y : Cpu) (chan : Chan)

@[simp] theorem setProc_proc : (s.setProc p x).proc = update s.proc p x := rfl
@[simp] theorem setProc_kont : (s.setProc p x).kont = s.kont := rfl
@[simp] theorem setProc_cpu : (s.setProc p x).cpu = s.cpu := rfl
@[simp] theorem setKont_proc : (s.setKont p k).proc = s.proc := rfl
@[simp] theorem setKont_kont : (s.setKont p k).kont = update s.kont p k := rfl
@[simp] theorem setKont_cpu : (s.setKont p k).cpu = s.cpu := rfl
@[simp] theorem setCpu_proc : (s.setCpu c y).proc = s.proc := rfl
@[simp] theorem setCpu_kont : (s.setCpu c y).kont = s.kont := rfl
@[simp] theorem setCpu_cpu : (s.setCpu c y).cpu = update s.cpu c y := rfl
@[simp] theorem sched_proc : (s.sched c).proc = s.proc := rfl
@[simp] theorem wakeup1_cpu : (s.wakeup1 chan).cpu = s.cpu := rfl

@[simp] theorem sched_runP (c' : ℕ) : ((s.sched c).cpu c').runP = (s.cpu c').runP := by
  by_cases h : c' = c
  · simp [sched, h]
  · simp [sched, h]

@[simp] theorem reparent_cpu : (s.reparent p).cpu = s.cpu := by
  refine List.foldlRecOn (motive := fun (s' : ProcSys) => s'.cpu = s.cpu) _ _ rfl fun s' hs q _ =>
    ?_
  dsimp only
  split
  · split <;> exact hs
  · exact hs

@[simp] theorem wait_runP (c' : ℕ) : ((s.wait c p).cpu c').runP = (s.cpu c').runP := by
  unfold wait
  split
  · rfl
  · split
    · rfl
    · simp [sleep]

end Frame

/-! ## Inversion

What each event needs and does, once for all. -/

theorem draw_mem {ticket : Slot → UInt32} {rd range : UInt32} {prev : Option Slot}
    {ps : List Slot} {p : Slot} (h : draw ticket rd range prev ps = some p) :
    prev = some p ∨ p ∈ ps := by
  induction ps generalizing range prev with
  | nil => exact .inl h
  | cons q ps ih =>
    rw [draw] at h
    split at h
    · rcases ih h with hq | hq
      · exact .inr (by simp [Option.some.inj hq])
      · exact .inr (List.mem_cons_of_mem _ hq)
    · exact .inl h

theorem lottery_inv {s s' : ProcSys} {c : ℕ} {rp : List (Option Slot)} {p : Slot}
    (h : s.lottery c rp = .ok (s', p)) :
    p ∈ pool rp ∧ s'.proc = s.proc ∧ s'.kont = s.kont ∧ s'.nextpid = s.nextpid ∧
      s'.cpu = update s.cpu c { s.cpu c with runP := rp } := by
  unfold lottery at h
  dsimp only at h
  split at h
  · cases h
  split at h
  · rename_i q hdraw
    obtain ⟨rfl, rfl⟩ := Prod.mk.inj (Except.ok.inj h)
    refine ⟨(draw_mem hdraw).resolve_left (by simp), ?_⟩
    unfold countWin
    split
    · exact ⟨rfl, rfl, rfl, rfl⟩
    · split <;> exact ⟨rfl, rfl, rfl, rfl⟩
  · cases h

/-- What a round chooses, and what it leaves in `run_p`. -/
theorem pick_inv {s s' : ProcSys} {c : ℕ} {w : Option Slot} (h : s.pick c = .ok (s', w)) :
    s'.proc = s.proc ∧ s'.kont = s.kont ∧ s'.nextpid = s.nextpid ∧
      ((s.runnables = [] ∧ w = none ∧ s'.cpu = s.cpu) ∨
        ∃ p rp, w = some p ∧ s'.cpu = update s.cpu c { s.cpu c with runP := rp } ∧
          ((s.runnables = [p] ∧ rp = s.scan c) ∨
            (2 ≤ s.runnables.length ∧ s.candidates c = .ok rp ∧ p ∈ pool rp))) := by
  unfold pick at h
  split at h
  · rename_i hr
    obtain ⟨rfl, rfl⟩ := Prod.mk.inj (Except.ok.inj h)
    exact ⟨rfl, rfl, rfl, .inl ⟨hr, rfl, rfl⟩⟩
  · rename_i p hr
    obtain ⟨rfl, rfl⟩ := Prod.mk.inj (Except.ok.inj h)
    exact ⟨rfl, rfl, rfl, .inr ⟨p, _, rfl, rfl, .inl ⟨hr, rfl⟩⟩⟩
  rename_i h0 h1
  have hlen : 2 ≤ s.runnables.length := by
    rcases hr : s.runnables with _ | ⟨p, _ | ⟨q, ps⟩⟩
    · exact absurd hr h0
    · exact absurd hr (h1 p)
    · simp
  split at h
  · rename_i rp hc
    rcases hl : s.lottery c rp with k | ⟨s1, p⟩ <;> rw [hl] at h
    · cases h
    · obtain ⟨rfl, rfl⟩ := Prod.mk.inj (Except.ok.inj h)
      obtain ⟨hp, hproc, hkont, hnext, hcpu⟩ := lottery_inv hl
      exact ⟨hproc, hkont, hnext, .inr ⟨p, rp, rfl, hcpu, .inr ⟨hlen, hc, hp⟩⟩⟩
  · cases h

/-- Every successful step. -/
inductive Trans (s : ProcSys) : ProcEvent → ProcSys → Prop
  | idle (c : ℕ) (s' : ProcSys) : s.assignTickets.pick c = .ok (s', none) → Trans s (.round c) s'
  | resume (c : ℕ) (p : Slot) (s' : ProcSys) : (s.cpu c).proc = none →
      s.assignTickets.pick c = .ok (s', some p) → (s'.proc p).state ≠ .running →
      s'.kont p ≠ .none → Trans s (.round c) (s'.resume c p)
  | resumeWait (c : ℕ) (p : Slot) (s' : ProcSys) : (s.cpu c).proc = none →
      s.assignTickets.pick c = .ok (s', some p) → (s'.proc p).state ≠ .running →
      s'.kont p ≠ .none → Trans s (.round c) ((s'.resume c p).wait c p)
  | yield (c : ℕ) (p : Slot) : (s.cpu c).proc = some p → Trans s (.yield c) (s.yield c p)
  | sleep (c : ℕ) (p : Slot) (chan : Chan) : (s.cpu c).proc = some p → s.kont p = .user →
      Trans s (.sleep c chan) (s.sleep c p chan)
  | wakeup (chan : Chan) : Trans s (.wakeup chan) (s.wakeup1 chan)
  | exit (c : ℕ) (p : Slot) (s' : ProcSys) : (s.cpu c).proc = some p → s.kont p = .user →
      s.exit c p = .ok s' → Trans s (.exit c) s'
  | wait (c : ℕ) (p : Slot) : (s.cpu c).proc = some p → s.kont p = .user →
      Trans s (.wait c) (s.wait c p)
  | kill (c : ℕ) (p : Slot) (pid : Int32) : (s.cpu c).proc = some p → s.kont p = .user →
      Trans s (.kill c pid) (s.kill pid).1
  | fork (c : ℕ) (p : Slot) : (s.cpu c).proc = some p → s.kont p = .user →
      Trans s (.fork c) (s.fork p)
  | forkFail (c : ℕ) (p np : Slot) : (s.cpu c).proc = some p → s.kont p = .forkAlloc np →
      Trans s (.forkFail c) (s.forkFail p np)
  | forkCopy (c : ℕ) (p np : Slot) : (s.cpu c).proc = some p → s.kont p = .forkAlloc np →
      Trans s (.forkCopy c) (s.forkCopy p np)
  | forkDone (c : ℕ) (p np : Slot) : (s.cpu c).proc = some p → s.kont p = .forkCopied np →
      Trans s (.forkDone c) (s.forkDone p np)
  | exec (c : ℕ) (p : Slot) (last : List UInt8) : (s.cpu c).proc = some p → s.kont p = .user →
      Trans s (.exec c last) (s.setProc p { s.proc p with
        name := safestrcpy (s.proc p).name fun i => last.getD i 0 })
  | fault (c : ℕ) (p : Slot) : (s.cpu c).proc = some p → s.kont p = .user →
      Trans s (.fault c) (s.setProc p { s.proc p with killed := true })

variable {f : Slot → Except Stop ProcSys}

theorem onCpu_inv {s s' : ProcSys} {c : ℕ}
    (h : s.onCpu c f = .ok s') : ∃ p, (s.cpu c).proc = some p ∧ f p = .ok s' := by
  unfold onCpu at h
  split at h
  · exact ⟨_, by assumption, h⟩
  · cases h

theorem atUser_inv {s s' : ProcSys} {c : ℕ} (h : s.atUser c f = .ok s') :
    ∃ p, (s.cpu c).proc = some p ∧ s.kont p = .user ∧ f p = .ok s' := by
  obtain ⟨p, hp, h⟩ := onCpu_inv h
  split at h
  · exact ⟨p, hp, by assumption, h⟩
  · cases h

theorem switchTo_inv {s s' : ProcSys} {c : ℕ} {p : Slot} (h : s.switchTo c p = .ok s') :
    (s.proc p).state ≠ .running ∧ s.kont p ≠ .none ∧
      (s' = s.resume c p ∨ s' = (s.resume c p).wait c p) := by
  unfold switchTo at h
  split at h
  · cases h
  rename_i hs
  refine ⟨hs, ?_⟩
  split at h
  · cases h
  · cases h
  · rename_i hk
    exact ⟨by simp [hk], .inr (Except.ok.inj h).symm⟩
  · rename_i hk _ _
    exact ⟨hk, .inl (Except.ok.inj h).symm⟩

theorem step_trans {s s' : ProcSys} {e : ProcEvent} (h : s.step e = .ok s') : Trans s e s' := by
  cases e with
  | round c =>
    simp only [step, round] at h
    split at h
    · cases h
    rename_i hc
    have hc : (s.cpu c).proc = none := by simpa using hc
    split at h
    · rename_i s1 p hpick
      obtain ⟨hs, hk, rfl | rfl⟩ := switchTo_inv h
      · exact .resume c p s1 hc hpick hs hk
      · exact .resumeWait c p s1 hc hpick hs hk
    · rename_i s1 hpick
      cases h
      exact .idle c _ hpick
    · cases h
  | yield c =>
    obtain ⟨p, hp, h⟩ := onCpu_inv h
    exact Except.ok.inj h ▸ .yield c p hp
  | sleep c chan =>
    obtain ⟨p, hp, hk, h⟩ := atUser_inv h
    exact Except.ok.inj h ▸ .sleep c p chan hp hk
  | wakeup chan => exact Except.ok.inj h ▸ .wakeup chan
  | exit c =>
    obtain ⟨p, hp, hk, h⟩ := atUser_inv h
    exact .exit c p s' hp hk h
  | wait c =>
    obtain ⟨p, hp, hk, h⟩ := atUser_inv h
    exact Except.ok.inj h ▸ .wait c p hp hk
  | kill c pid =>
    obtain ⟨p, hp, hk, h⟩ := atUser_inv h
    exact Except.ok.inj h ▸ .kill c p pid hp hk
  | fork c =>
    obtain ⟨p, hp, hk, h⟩ := atUser_inv h
    exact Except.ok.inj h ▸ .fork c p hp hk
  | forkFail c =>
    obtain ⟨p, hp, h⟩ := onCpu_inv h
    split at h
    · exact Except.ok.inj h ▸ .forkFail c p _ hp (by assumption)
    · cases h
  | forkCopy c =>
    obtain ⟨p, hp, h⟩ := onCpu_inv h
    split at h
    · exact Except.ok.inj h ▸ .forkCopy c p _ hp (by assumption)
    · cases h
  | forkDone c =>
    obtain ⟨p, hp, h⟩ := onCpu_inv h
    split at h
    · exact Except.ok.inj h ▸ .forkDone c p _ hp (by assumption)
    · cases h
  | exec c last =>
    obtain ⟨p, hp, hk, h⟩ := atUser_inv h
    exact Except.ok.inj h ▸ .exec c p last hp hk
  | fault c =>
    obtain ⟨p, hp, hk, h⟩ := atUser_inv h
    exact Except.ok.inj h ▸ .fault c p hp hk

end ProcSys

end Xv6
