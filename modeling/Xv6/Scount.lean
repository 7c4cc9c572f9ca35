import Xv6.Machine
import Xv6.Param
import Mathlib.Logic.Function.Basic

/-!
# The system-call counter

Every process has a counter `scount`, which the functions `sys_...` increment by hand and `count()`
returns. The model follows the counter through the whole life of a slot of the process table: the
dispatch in `syscall()`, the creation of a child in `fork`, `exit`, and the slot's release in
`wait`.

* `Handler.bumps` says which functions increment the counter. All do but `sys_dup`.
* `sys_fork` increments the parent's counter after `fork()` has returned. The branch that is to
  reset the counter of the child is for `fork()` returning 0, which it does in the child's user code
  only: in the kernel it returns a pid, or -1.
* So a new process starts with what the last process left in its slot.

The ghost field `calls` is the number of system calls dispatched since the process was created.
`CountSys.count_eq_calls` is what holds of `count()`, and `CountSys.count_ne_calls` has the two ways
in which it is wrong.
-/

namespace Xv6

/-- The functions in `syscalls[]`. -/
inductive Handler : Type where
  | sysFork | sysExit | sysWait | sysPipe | sysRead | sysKill | sysExec | sysFstat | sysChdir
  | sysDup | sysGetpid | sysSbrk | sysSleep | sysUptime | sysOpen | sysWrite | sysMknod
  | sysUnlink | sysLink | sysMkdir | sysClose | sysCount
  deriving DecidableEq

/-- `syscalls[]`, from index 1 on. -/
def syscalls : List Handler :=
  [.sysFork, .sysExit, .sysWait, .sysPipe, .sysRead, .sysKill, .sysExec, .sysFstat, .sysChdir,
   .sysDup, .sysGetpid, .sysSbrk, .sysSleep, .sysUptime, .sysOpen, .sysWrite, .sysMknod,
   .sysUnlink, .sysLink, .sysMkdir, .sysClose, .sysCount]

/-- The function that `syscall()` calls for the number in `eax`. -/
def dispatch (num : ℤ) : Option Handler := if num > 0 then syscalls[num.toNat - 1]? else none

/-- The function increments `scount` before anything else. -/
def Handler.bumps : Handler → Bool
  | .sysFork | .sysDup => false
  | _ => true

/-- Where a process is. -/
inductive CountPc : Type where
  | user
  /-- in the rest of a system call -/
  | body (h : Handler)
  /-- in `fork`, with slot `np` -/
  | forking (np : ℕ) (pid : BitVec 32)
  /-- in `sys_fork`, after `fork()` has returned -/
  | forked (pidfork : BitVec 32)
  deriving DecidableEq

inductive CountState : Type where
  | unused
  | embryo
  | alive
  | zombie
  deriving DecidableEq

/-- What `struct proc` has to do with the counter. -/
structure CountProc where
  state : CountState
  scount : BitVec 32
  parent : Option ℕ
  /-- the register in which the result of a system call is returned -/
  eax : BitVec 32
  pc : CountPc
  /-- the number of system calls dispatched for the process (ghost) -/
  calls : ℕ

/-- The process after the first lines of a function. -/
def CountProc.bump (x : CountProc) (h : Handler) : CountProc :=
  if h.bumps then { x with scount := x.scount + 1 } else x

structure CountSys where
  proc : ℕ → CountProc
  nextpid : BitVec 32

inductive CountEvent : Type where
  /-- a trap with number `num` -/
  | syscall (p : ℕ) (num : ℤ)
  /-- `allocproc` in `fork` -/
  | allocproc (p : ℕ)
  /-- the rest of `fork`; `ok` if there was memory for the child -/
  | fork (p : ℕ) (ok : Bool)
  /-- the system call returns -/
  | ret (p : ℕ) (v : BitVec 32)
  /-- `exit`, of a killed process or in `sys_exit` -/
  | exit (p : ℕ)
  /-- `wait` finds the zombie `q` -/
  | wait (p q : ℕ)

namespace CountSys

def setProc (s : CountSys) (p : ℕ) (x : CountProc) : CountSys :=
  { s with proc := Function.update s.proc p x }

/-- `syscall()`: the call is dispatched, and the function does its increment. `sys_count` is done
with it. -/
def syscall (s : CountSys) (p : ℕ) (num : ℤ) : CountSys :=
  let x := s.proc p
  match dispatch num with
  | none => s.setProc p { x with eax := -1 }
  | some h =>
    let x := CountProc.bump { x with calls := x.calls + 1 } h
    if h = .sysCount then s.setProc p { x with eax := x.scount }
    else s.setProc p { x with pc := .body h }

/-- The slot that `allocproc` finds. -/
def findSlot (s : CountSys) : Option ℕ :=
  (List.range NPROC).find? fun p => (s.proc p).state = .unused

/-- `allocproc` does not touch `scount`. -/
def allocproc (s : CountSys) (p : ℕ) : CountSys :=
  match s.findSlot with
  | none => s.setProc p { s.proc p with pc := .forked (-1) }
  | some np =>
    let s' := s.setProc np { s.proc np with state := .embryo }
    { s'.setProc p { s'.proc p with pc := .forking np s.nextpid } with nextpid := s.nextpid + 1 }

/-- The rest of `fork`: the child can run, or its slot is free again. -/
def fork (s : CountSys) (p np : ℕ) (pid : BitVec 32) (ok : Bool) : CountSys :=
  if ok then
    let s := s.setProc np
      { s.proc np with state := .alive, parent := some p, eax := 0, pc := .user, calls := 0 }
    s.setProc p { s.proc p with pc := .forked pid }
  else
    let s := s.setProc np { s.proc np with state := .unused }
    s.setProc p { s.proc p with pc := .forked (-1) }

/-- The end of `sys_fork`. -/
def sysFork (x : CountProc) (pidfork : BitVec 32) : CountProc :=
  { x with
    scount := if pidfork = 0 then 0 else x.scount + 1
    eax := pidfork
    pc := .user }

/-- `exit`; the children go to `initproc`, which is slot 0. -/
def exit (s : CountSys) (p : ℕ) : CountSys :=
  { s with proc := fun q =>
    let x := s.proc q
    let x := if x.parent = some p then { x with parent := some 0 } else x
    if q = p then { x with state := .zombie } else x }

/-- `wait` leaves `scount` in the slot. -/
def wait (s : CountSys) (q : ℕ) : CountSys :=
  s.setProc q { s.proc q with state := .unused, parent := none }

def step (s : CountSys) : CountEvent → Except Stop CountSys
  | .syscall p num =>
    if p < NPROC ∧ (s.proc p).state = .alive ∧ (s.proc p).pc = .user then .ok (s.syscall p num)
    else .error .misuse
  | .allocproc p =>
    if p < NPROC ∧ (s.proc p).state = .alive ∧ (s.proc p).pc = .body .sysFork then
      .ok (s.allocproc p)
    else .error .misuse
  | .fork p ok =>
    match (s.proc p).pc with
    | .forking np pid =>
      if p < NPROC ∧ (s.proc p).state = .alive then .ok (s.fork p np pid ok) else .error .misuse
    | _ => .error .misuse
  | .ret p v =>
    if p < NPROC ∧ (s.proc p).state = .alive then
      match (s.proc p).pc with
      | .forked pidfork => .ok (s.setProc p (sysFork (s.proc p) pidfork))
      | .body h =>
        if h = .sysFork ∨ h = .sysExit then .error .misuse
        else .ok (s.setProc p { s.proc p with eax := v, pc := .user })
      | _ => .error .misuse
    else .error .misuse
  | .exit p =>
    if p < NPROC ∧ (s.proc p).state = .alive ∧
        ((s.proc p).pc = .user ∨ (s.proc p).pc = .body .sysExit) then
      if p = 0 then .error (.panic "init exiting") else .ok (s.exit p)
    else .error .misuse
  | .wait p q =>
    if p < NPROC ∧ (s.proc p).state = .alive ∧ (s.proc p).pc = .body .sysWait ∧ q < NPROC ∧
        (s.proc q).state = .zombie ∧ (s.proc q).parent = some p then .ok (s.wait q)
    else .error .misuse

/-- The process table is zero, with the first process in slot 0. -/
def start : CountSys where
  proc := fun p => ⟨if p = 0 then .alive else .unused, 0, none, 0, .user, 0⟩
  nextpid := 2

/-! ## What the counter counts -/

variable {s s' : CountSys} {p q np : ℕ} {x : CountProc}

@[simp] theorem setProc_self : (s.setProc p x).proc p = x := Function.update_self ..

theorem setProc_ne (h : p ≠ q) : (s.setProc q x).proc p = s.proc p := Function.update_of_ne h ..

/-- The system call dispatched and not counted yet: `sys_fork` counts when it returns. -/
def pending : CountPc → BitVec 32
  | .body .sysFork | .forking .. | .forked _ => 1#32
  | _ => 0#32

/-- The slot that `fork` fills. -/
def childSlot : CountPc → Option ℕ
  | .forking np _ => some np
  | _ => none

/-- **The condition on the process in slot `p`**: it does not call `dup`, its slot has a zero
counter when it is created, and `fork` does not return the pid 0 to it (which would take 2³²
forks). -/
def Undisturbed (p : ℕ) (s : CountSys) : CountEvent → Prop
  | .syscall q num => q = p → dispatch num ≠ some .sysDup
  | .fork q ok => childSlot (s.proc q).pc = some p → ok = true → (s.proc p).scount = 0
  | .ret q _ => q = p → (s.proc p).pc ≠ .forked 0
  | _ => True

instance (p : ℕ) (s : CountSys) : ∀ e, Decidable (Undisturbed p s e)
  | .syscall .. | .fork .. | .ret .. => inferInstanceAs (Decidable (_ → _))
  | .allocproc _ | .exit _ | .wait .. => .isTrue trivial

/-- The counter of the process, while it is alive. -/
def Counted (x : CountProc) : Prop := x.scount + pending x.pc = BitVec.ofNat 32 x.calls

/-- **The invariant** of slot `p`. -/
structure Inv (p : ℕ) (s : CountSys) : Prop where
  counted : (s.proc p).state = .alive → Counted (s.proc p)
  child : ∀ np pid, (s.proc p).state = .alive → (s.proc p).pc = .forking np pid → np ≠ p

/-- Nothing happens to slot `p`. -/
theorem Inv.of_same (hi : Inv p s) (h : s'.proc p = s.proc p) : Inv p s' :=
  ⟨by rw [h]; exact hi.counted, by rw [h]; exact hi.child⟩

theorem Inv.of_not_alive (h : (s.proc p).state ≠ .alive) : Inv p s :=
  ⟨fun ha => absurd ha h, fun _ _ ha => absurd ha h⟩

/-- The process is somewhere else now, but not in `fork`. -/
theorem Inv.of_counted (hc : Counted (s.proc p))
    (hpc : ∀ np pid, (s.proc p).pc ≠ .forking np pid) : Inv p s :=
  ⟨fun _ => hc, fun np pid _ h => absurd h (hpc np pid)⟩

theorem Counted.add_one (hx : Counted x) :
    x.scount + pending x.pc + 1#32 = BitVec.ofNat 32 (x.calls + 1) := by
  rw [hx, BitVec.ofNat_add]

theorem bumps_iff {h : Handler} : h.bumps = true ↔ h ≠ .sysFork ∧ h ≠ .sysDup := by
  cases h <;> simp [Handler.bumps]

theorem pending_body (h : Handler) : pending (.body h) = if h = .sysFork then 1#32 else 0#32 := by
  cases h <;> rfl

section

variable (hi : Inv p s)

include hi

/-- **The dispatch** of a system call: one more call, which is counted at once or is pending. -/
theorem Inv.syscall {num : ℤ} (halive : (s.proc q).state = .alive)
    (huser : (s.proc q).pc = .user) (hdup : q = p → dispatch num ≠ some .sysDup) :
    Inv p (s.syscall q num) := by
  rw [CountSys.syscall]
  rcases eq_or_ne p q with rfl | hne
  · have hc := hi.counted halive
    have hnext := hc.add_one
    simp only [huser, pending, BitVec.add_zero] at hnext
    rcases hd : dispatch num with _ | h
    · refine .of_counted ?_ fun np pid => ?_
      · simpa [Counted] using hc
      · simp [huser]
    have hnotdup : h ≠ .sysDup := fun he => hdup rfl (by rw [hd, he])
    rcases eq_or_ne h .sysFork with rfl | hfork
    · refine .of_counted ?_ (by simp)
      simpa [Counted, pending, CountProc.bump, Handler.bumps] using hnext
    have hbumps : h.bumps = true := bumps_iff.mpr ⟨hfork, hnotdup⟩
    simp only [CountProc.bump, hbumps, if_true]
    split
    · refine .of_counted ?_ (by simp [huser])
      simpa [Counted, pending, huser] using hnext
    · refine .of_counted ?_ (by simp)
      simpa [Counted, pending_body, hfork] using hnext
  · refine hi.of_same ?_
    rcases dispatch num with _ | h
    · exact setProc_ne hne
    · dsimp only
      split <;> exact setProc_ne hne

/-- `allocproc`: slot `p` may be the new one, or that of the parent. -/
theorem Inv.allocproc (halive : (s.proc q).state = .alive)
    (hpc : (s.proc q).pc = .body .sysFork) : Inv p (s.allocproc q) := by
  rw [CountSys.allocproc]
  rcases hslot : s.findSlot with _ | np
  · rcases eq_or_ne p q with rfl | hne
    · have hc := hi.counted halive
      refine .of_counted ?_ (by simp)
      simpa [Counted, pending, hpc] using hc
    · exact hi.of_same (setProc_ne hne)
  have hunused : (s.proc np).state = .unused := by simpa using List.find?_some hslot
  have hnpq : q ≠ np := by
    rintro rfl
    rw [halive] at hunused
    cases hunused
  dsimp only
  rcases eq_or_ne p q with rfl | hne
  · have hc := hi.counted halive
    refine ⟨fun _ => ?_, fun np' pid _ h => ?_⟩
    · simpa [Counted, pending, setProc_ne hnpq, hpc] using hc
    · obtain ⟨rfl, -⟩ : np = np' ∧ _ := by simpa using h
      exact hnpq.symm
  rcases eq_or_ne p np with rfl | hnp
  · refine .of_not_alive ?_
    simp [setProc_ne hne]
  · refine hi.of_same ?_
    simp [setProc_ne hne, setProc_ne hnp]

/-- The rest of `fork`: slot `p` may be that of the parent, or that of the child. -/
theorem Inv.fork {pid : BitVec 32} {ok : Bool} (halive : (s.proc q).state = .alive)
    (hpc : (s.proc q).pc = .forking np pid) (hzero : np = p → ok = true → (s.proc p).scount = 0) :
    Inv p (s.fork q np pid ok) := by
  rw [CountSys.fork]
  rcases eq_or_ne p q with rfl | hne
  · have hnp := hi.child np pid halive hpc
    have hc := hi.counted halive
    split
    · refine .of_counted ?_ (by simp)
      simpa [Counted, pending, setProc_ne hnp.symm, hpc] using hc
    · refine .of_counted ?_ (by simp)
      simpa [Counted, pending, setProc_ne hnp.symm, hpc] using hc
  rcases eq_or_ne np p with rfl | hnp
  · split
    · rename_i hok
      refine .of_counted ?_ ?_
      · simp [Counted, pending, setProc_ne hne, hzero rfl hok]
      · simp [setProc_ne hne]
    · refine .of_not_alive ?_
      simp [setProc_ne hne]
  · split <;> exact hi.of_same (by simp [setProc_ne hne, setProc_ne hnp.symm])

/-- `exit` and `wait` end the life of a process, and change nothing but the parent of others. -/
theorem Inv.exit : Inv p (s.exit q) := by
  rcases eq_or_ne p q with rfl | hne
  · refine .of_not_alive ?_
    simp [CountSys.exit]
  refine ⟨fun ha => ?_, fun np pid ha h => ?_⟩ <;> simp only [CountSys.exit, hne, if_false] at ha ⊢
  · split at ha
    · rename_i hpar
      rw [if_pos hpar]
      exact hi.counted ha
    · rename_i hpar
      rw [if_neg hpar]
      exact hi.counted ha
  · simp only [CountSys.exit, hne, if_false] at h
    split at h <;> split at ha <;> exact hi.child np pid ha h

theorem Inv.wait : Inv p (s.wait q) := by
  rcases eq_or_ne p q with rfl | hne
  · refine .of_not_alive ?_
    simp [CountSys.wait]
  · exact hi.of_same (setProc_ne hne)

end

/-- **One event.** -/
theorem Inv.step (p : ℕ) (s s' : CountSys) (e : CountEvent) (hi : Inv p s)
    (hC : Undisturbed p s e) (h : s.step e = .ok s') : Inv p s' := by
  cases e with
  | syscall q num =>
    rw [CountSys.step] at h
    split at h <;> cases h
    rename_i hq
    exact hi.syscall hq.2.1 hq.2.2 hC
  | allocproc q =>
    rw [CountSys.step] at h
    split at h <;> cases h
    rename_i hq
    exact hi.allocproc hq.2.1 hq.2.2
  | fork q ok =>
    rw [CountSys.step] at h
    split at h
    · rename_i np pid hpc
      split at h <;> cases h
      rename_i hq
      refine hi.fork hq.2 hpc ?_
      rintro rfl
      exact hC (by rw [hpc, childSlot])
    · cases h
  | ret q v =>
    rw [CountSys.step] at h
    split at h
    swap
    · cases h
    rename_i hq
    split at h
    · rename_i pidfork hpc
      cases h
      rcases eq_or_ne p q with rfl | hne
      · have hc := hi.counted hq.2
        have hpid : pidfork ≠ 0 := by
          rintro rfl
          exact hC rfl hpc
        refine .of_counted ?_ (by simp [sysFork])
        simp only [Counted, setProc_self, sysFork, pending, if_neg hpid, BitVec.add_zero]
        simpa [Counted, pending, hpc] using hc
      · exact hi.of_same (setProc_ne hne)
    · rename_i h' hpc
      split at h <;> cases h
      rename_i hnot
      rcases eq_or_ne p q with rfl | hne
      · have hc := hi.counted hq.2
        refine .of_counted ?_ (by simp)
        have hfork : h' ≠ .sysFork := fun he => hnot (Or.inl he)
        simpa [Counted, hpc, pending_body, hfork, pending] using hc
      · exact hi.of_same (setProc_ne hne)
    · cases h
  | exit q =>
    rw [CountSys.step] at h
    split at h
    · split at h <;> cases h
      exact hi.exit
    · cases h
  | wait q r =>
    rw [CountSys.step] at h
    split at h <;> cases h
    exact hi.wait

theorem inv_start (p : ℕ) : Inv p start := by
  refine .of_counted ?_ (by simp [start])
  simp [Counted, pending, start]

/-- **The system-call counter counts system calls**: in every run in which the process in slot `p`
is `Undisturbed`, whatever the other processes do, `count()` returns (in 32 bits) the number of
system calls dispatched for the process since it was created, including this one. -/
theorem count_eq_calls {tr : List CountEvent} {num : ℤ} (hrun : run CountSys.step start tr = .ok s)
    (hC : Meets CountSys.step start (Undisturbed p) tr) (hnum : dispatch num = some .sysCount)
    (hcall : s.step (.syscall p num) = .ok s') :
    (s'.proc p).calls = (s.proc p).calls + 1 ∧
      (s'.proc p).eax = BitVec.ofNat 32 (s'.proc p).calls := by
  have hi : Inv p s := hC.invariant (Inv.step p) (inv_start p) hrun
  rw [CountSys.step] at hcall
  split at hcall <;> cases hcall
  rename_i hp
  have hnext := (hi.counted hp.2.1).add_one
  simp only [hp.2.2, pending, BitVec.add_zero] at hnext
  simpa [CountSys.syscall, hnum, CountProc.bump, Handler.bumps] using hnext

/-- `init` has two children; the second gets a slot of its own, as the first is still a zombie. -/
def twoChildren : List CountEvent :=
  [.syscall 0 1, .allocproc 0, .fork 0 true, .ret 0 0, .syscall 1 2, .exit 1,
   .syscall 0 1, .allocproc 0, .fork 0 true, .ret 0 0, .syscall 2 11, .ret 2 3]

theorem count_eq_calls_twoChildren : ∃ s s', run CountSys.step start twoChildren = .ok s ∧
    s.step (.syscall 2 22) = .ok s' ∧ (s'.proc 2).calls = (s.proc 2).calls + 1 ∧
      (s'.proc 2).eax = BitVec.ofNat 32 (s'.proc 2).calls := by
  obtain ⟨s, hrun, hstep⟩ : ∃ s, run CountSys.step start twoChildren = .ok s ∧
      (s.proc 2).state = .alive ∧ (s.proc 2).pc = .user := exists_ok_of_check (by decide)
  have hcall : s.step (.syscall 2 22) = .ok (s.syscall 2 22) := if_pos ⟨by decide, hstep⟩
  exact ⟨s, _, hrun, hcall, count_eq_calls hrun (.of_check (by decide)) rfl hcall⟩

/-- **`count()` is wrong** for a process in a slot that was used before (the first child's `exit` is
counted for the second child), and after a `dup`. -/
theorem count_ne_calls : (∃ s, run CountSys.step start
        [.syscall 0 1, .allocproc 0, .fork 0 true, .ret 0 0, .syscall 1 2, .exit 1,
         .syscall 0 3, .wait 0 1, .ret 0 2, .syscall 0 1, .allocproc 0, .fork 0 true, .ret 0 0,
         .syscall 1 22] = .ok s ∧ (s.proc 1).calls = 1 ∧ (s.proc 1).eax = 2) ∧
      ∃ s, run CountSys.step start [.syscall 0 10, .ret 0 1, .syscall 0 22] = .ok s ∧
        (s.proc 0).calls = 2 ∧ (s.proc 0).eax = 1 := by
  constructor
  · exact exists_ok_of_check (by decide)
  · exact exists_ok_of_check (by decide)

end CountSys

end Xv6
