import Xv6.Machine
import Xv6.Param
import Xv6.Ring

/-!
# Pipes

`pipe.c`: a pipe is a ring buffer of `PIPESIZE` bytes with two open flags, used by any number of
writers and readers. A call holds `p->lock` from its start to its end except while it sleeps, so
one event of the machine is one such segment: from the call (or from a wakeup) to the return or
the next sleep. `kill` takes no part in `p->lock` and can come between any two segments.

* `Pipe.store` and `Pipe.fetch` are the two copying loops; they refine appending to and taking
  from the queue `Pipe.contents`;
* `PipeSys.fifo`: **a pipe is a lossless FIFO**, also after its counters have wrapped around;
* `PipeSys.no_stranded_sleeper`: nobody sleeps on a condition that is true, in every run in which
  no writer that stores bytes gives up in the same segment while a reader sleeps. Such a writer
  returns without waking the reader (`PipeSys.reader_stranded`).
-/

namespace Xv6

open Function List

/-- `PIPESIZE` -/
def PIPESIZE : UInt32 := 512

/-- The reason why the counters may wrap around. -/
theorem pipesize_dvd : PIPESIZE.toNat ∣ 2 ^ 32 := ⟨2 ^ 23, rfl⟩

/-- `struct pipe`: the buffer and its counters are the ring. -/
structure Pipe extends Ring UInt8 where
  /-- read fd is still open -/
  readopen : Bool
  /-- write fd is still open -/
  writeopen : Bool

namespace Pipe

/-- The loop of `pipewrite` up to the end of the bytes or to a full buffer; also the bytes left. -/
def store : Pipe → List UInt8 → Pipe × List UInt8
  | p, [] => (p, [])
  | p, b :: bytes =>
    if p.nwrite = p.nread + PIPESIZE then (p, b :: bytes)
    else store { p with toRing := p.toRing.put PIPESIZE b } bytes

/-- The loop of `piperead` that copies at most `n` bytes; also the bytes copied. -/
def fetch : Pipe → ℕ → Pipe × List UInt8
  | p, 0 => (p, [])
  | p, n + 1 =>
    if p.nread = p.nwrite then (p, [])
    else
      let (p', bytes) := fetch { p with toRing := p.toRing.get } n
      (p', p.toRing.front PIPESIZE :: bytes)

/-- The bytes in the pipe, in the order in which they were stored. -/
abbrev contents (p : Pipe) : List UInt8 := p.toRing.contents PIPESIZE

/-- What the loop of `pipewrite` does: it stores a first part of the bytes, and stops early only at
a full buffer. -/
theorem store_spec : ∀ {bytes : List UInt8} {p p' : Pipe} {rest : List UInt8},
    p.count ≤ PIPESIZE.toNat → p.store bytes = (p', rest) →
    ∃ done, bytes = done ++ rest ∧ p'.contents = p.contents ++ done ∧
      p'.count ≤ PIPESIZE.toNat ∧ p'.count = p.count + done.length ∧ p'.nread = p.nread ∧
      p'.readopen = p.readopen ∧ p'.writeopen = p.writeopen ∧
      (rest ≠ [] → p'.nwrite = p'.nread + PIPESIZE) := by
  intro bytes
  induction bytes with
  | nil =>
    intro p p' rest hp h
    obtain ⟨rfl, rfl⟩ := Prod.mk.inj h
    exact ⟨[], rfl, (append_nil _).symm, hp, rfl, rfl, rfl, rfl, fun h => absurd rfl h⟩
  | cons b bytes ih =>
    intro p p' rest hp h
    rw [store] at h
    split at h
    case isTrue hfull =>
      obtain ⟨rfl, rfl⟩ := Prod.mk.inj h
      exact ⟨[], rfl, (append_nil _).symm, hp, rfl, rfl, rfl, rfl, fun _ => hfull⟩
    case isFalse hroom =>
      have hlt : p.count < PIPESIZE.toNat :=
        lt_of_le_of_ne hp fun h => hroom (Ring.count_eq_size.mp h)
      have hcount := Ring.count_put (x := b) hlt
      have hle : (p.toRing.put PIPESIZE b).count ≤ PIPESIZE.toNat := by omega
      obtain ⟨done, rfl, hc, hle, hn, hnr, hr, hw, hrest⟩ := ih hle h
      refine ⟨b :: done, rfl, ?_, hle, ?_, hnr, hr, hw, hrest⟩
      · rw [hc, contents, Ring.contents_put pipesize_dvd hlt, append_assoc, singleton_append]
      · rw [hn, hcount, length_cons]
        omega

/-- What the loop of `piperead` does: it takes the first bytes out of the pipe, `n` of them or all
there are. -/
theorem fetch_spec : ∀ {n : ℕ} {p p' : Pipe} {bytes : List UInt8}, p.fetch n = (p', bytes) →
    p.contents = bytes ++ p'.contents ∧ bytes.length = min n p.count ∧
      p'.count + bytes.length = p.count ∧ p'.nwrite = p.nwrite ∧
      p'.readopen = p.readopen ∧ p'.writeopen = p.writeopen := by
  intro n
  induction n with
  | zero =>
    intro p p' bytes h
    obtain ⟨rfl, rfl⟩ := Prod.mk.inj h
    exact ⟨rfl, (Nat.zero_min _).symm, rfl, rfl, rfl, rfl⟩
  | succ n ih =>
    intro p p' bytes h
    rw [fetch] at h
    split at h
    case isTrue hempty =>
      obtain ⟨rfl, rfl⟩ := Prod.mk.inj h
      have := Ring.count_eq_zero.mpr hempty
      exact ⟨rfl, by simp [this], rfl, rfl, rfl, rfl⟩
    case isFalse hne =>
      have hpos : 0 < p.count := Nat.pos_of_ne_zero fun h => hne (Ring.count_eq_zero.mp h)
      have hcount := Ring.count_get hpos
      obtain ⟨⟨q, bs⟩, hq⟩ : ∃ x, x = fetch { p with toRing := p.toRing.get } n := ⟨_, rfl⟩
      rw [← hq] at h
      obtain ⟨rfl, rfl⟩ := Prod.mk.inj h
      obtain ⟨hc, hlen, hn, hnw, hr, hw⟩ := ih hq.symm
      refine ⟨?_, ?_, ?_, hnw, hr, hw⟩
      · rw [contents, Ring.contents_get pipesize_dvd hpos, cons_append]
        exact congrArg _ hc
      · rw [length_cons, hlen]
        simp only at hcount ⊢
        omega
      · rw [length_cons]
        simp only at hn
        omega

end Pipe

/-! ## The processes at the pipe -/

/-- What a process sleeps on: `&p->nread` or `&p->nwrite`. -/
inductive PipeChan : Type where
  | nread
  | nwrite
  deriving DecidableEq, Repr

/-- The call a process is in, when it sleeps or has been woken. -/
inductive PipeCall : Type where
  | idle
  /-- inside `pipewrite(p, addr, n)`; the bytes `addr[i..n)` are still to be stored -/
  | write (n : ℕ) (bytes : List UInt8)
  /-- inside `piperead(p, addr, n)` -/
  | read (n : ℕ)
  deriving DecidableEq, Repr

/-- The pipe and the processes that use it. -/
structure PipeSys where
  /-- `*p` -/
  pipe : Pipe
  /-- the call each process is in -/
  call : ℕ → PipeCall
  /-- `proc->state == SLEEPING`, with `proc->chan` -/
  asleep : ℕ → Option PipeChan
  /-- `proc->killed` -/
  killed : ℕ → Bool
  /-- what the last call of each process returned, and the bytes that it copied to the caller;
  `none` while it is in a call -/
  ret : ℕ → Option (Int × List UInt8)
  /-- all bytes stored so far -/
  stored : List UInt8
  /-- all bytes taken so far -/
  taken : List UInt8

/-- One step of one party. -/
inductive PipeEvent : Type where
  /-- process `q` calls `pipewrite(p, addr, n)` with the `n` bytes at `addr` -/
  | write (q : ℕ) (bytes : List UInt8)
  /-- process `q` calls `piperead(p, addr, n)` -/
  | read (q n : ℕ)
  /-- process `q`, which has slept in its call and was woken, goes on -/
  | resume (q : ℕ)
  /-- `pipeclose(p, writable)` -/
  | close (writable : Bool)
  /-- `kill` of process `q` -/
  | kill (q : ℕ)
  deriving DecidableEq, Repr

namespace PipeSys

/-- The pipe that `pipealloc` makes; its page holds whatever it held before. -/
def start (data : ℕ → UInt8) : PipeSys where
  pipe := { data, nread := 0, nwrite := 0, readopen := true, writeopen := true }
  call _ := .idle
  asleep _ := none
  killed _ := false
  ret _ := none
  stored := []
  taken := []

/-- `wakeup(chan)` -/
def wakeup (s : PipeSys) (chan : PipeChan) : PipeSys :=
  { s with asleep := fun q => if s.asleep q = some chan then none else s.asleep q }

/-- `sleep(chan, &p->lock)` in a call that goes on as `c`. -/
def sleep (s : PipeSys) (q : ℕ) (chan : PipeChan) (c : PipeCall) : PipeSys :=
  { s with
    asleep := update s.asleep q (some chan)
    call := update s.call q c
    ret := update s.ret q none }

/-- Return from the call. -/
def finish (s : PipeSys) (q : ℕ) (v : Int) (bytes : List UInt8) : PipeSys :=
  { s with call := update s.call q .idle, ret := update s.ret q (some (v, bytes)) }

/-- A segment of `pipewrite`: the bytes still to be stored are `bytes`. -/
def pipewrite (s : PipeSys) (q n : ℕ) (bytes : List UInt8) : PipeSys :=
  let (p, rest) := s.pipe.store bytes
  let t := { s with pipe := p, stored := s.stored ++ bytes.take (bytes.length - rest.length) }
  if rest = [] then (t.wakeup .nread).finish q n []
  else if p.readopen = false ∨ s.killed q = true then t.finish q (-1) []
  else (t.wakeup .nread).sleep q .nwrite (.write n rest)

/-- A segment of `piperead`. -/
def piperead (s : PipeSys) (q n : ℕ) : PipeSys :=
  if s.pipe.nread = s.pipe.nwrite ∧ s.pipe.writeopen = true then
    if s.killed q = true then s.finish q (-1) []
    else s.sleep q .nread (.read n)
  else
    let (p, bytes) := s.pipe.fetch n
    (({ s with pipe := p, taken := s.taken ++ bytes }).wakeup .nwrite).finish q bytes.length bytes

/-- `pipeclose` -/
def pipeclose (s : PipeSys) (writable : Bool) : PipeSys :=
  if writable then ({ s with pipe.writeopen := false }).wakeup .nread
  else ({ s with pipe.readopen := false }).wakeup .nwrite

/-- `kill`, for the process it finds -/
def kill (s : PipeSys) (q : ℕ) : PipeSys :=
  { s with killed := update s.killed q true, asleep := update s.asleep q none }

/-- Both ends are closed, and `pipeclose` has freed the pipe. -/
def Freed (s : PipeSys) : Prop := s.pipe.readopen = false ∧ s.pipe.writeopen = false

instance (s : PipeSys) : Decidable s.Freed := inferInstanceAs (Decidable (_ ∧ _))

/-- One segment. A process begins a call when it is in none and goes on with one when it is awake;
nobody uses a pipe that has been freed. -/
def step (s : PipeSys) (e : PipeEvent) : Except Stop PipeSys :=
  if s.Freed then .error .blocked
  else
    match e with
    | .write q bytes =>
      if s.call q = .idle then .ok (s.pipewrite q bytes.length bytes) else .error .blocked
    | .read q n => if s.call q = .idle then .ok (s.piperead q n) else .error .blocked
    | .resume q =>
      if s.asleep q = none then
        match s.call q with
        | .idle => .error .blocked
        | .write n bytes => .ok (s.pipewrite q n bytes)
        | .read n => .ok (s.piperead q n)
      else .error .blocked
    | .close writable => .ok (s.pipeclose writable)
    | .kill q => .ok (s.kill q)

/-! ## What a segment does -/

/-- The event is a segment of `pipewrite(p, addr, n)` by `q`, with `bytes` still to be stored. -/
def Writes (s : PipeSys) (e : PipeEvent) (q n : ℕ) (bytes : List UInt8) : Prop :=
  (e = .write q bytes ∧ n = bytes.length ∧ s.call q = .idle) ∨
    (e = .resume q ∧ s.asleep q = none ∧ s.call q = .write n bytes)

/-- The event is a segment of `piperead(p, addr, n)` by `q`. -/
def Reads (s : PipeSys) (e : PipeEvent) (q n : ℕ) : Prop :=
  (e = .read q n ∧ s.call q = .idle) ∨
    (e = .resume q ∧ s.asleep q = none ∧ s.call q = .read n)

variable {s s' : PipeSys} {e : PipeEvent}

/-- What one event can do. -/
theorem step_cases (h : step s e = .ok s') :
    (∃ q n bytes, s.Writes e q n bytes ∧ s' = s.pipewrite q n bytes) ∨
      (∃ q n, s.Reads e q n ∧ s' = s.piperead q n) ∨
      (∃ writable, e = .close writable ∧ s' = s.pipeclose writable) ∨
      ∃ q, e = .kill q ∧ s' = s.kill q := by
  simp only [step] at h
  split at h
  · cases h
  cases e with
  | write q bytes =>
    simp only at h
    split at h
    case isTrue hq => exact .inl ⟨q, _, bytes, .inl ⟨rfl, rfl, hq⟩, (Except.ok.inj h).symm⟩
    case isFalse => cases h
  | read q n =>
    simp only at h
    split at h
    case isTrue hq => exact .inr (.inl ⟨q, n, .inl ⟨rfl, hq⟩, (Except.ok.inj h).symm⟩)
    case isFalse => cases h
  | resume q =>
    simp only at h
    split at h
    case isTrue hq =>
      rcases hc : s.call q with _ | ⟨n, bytes⟩ | n <;> rw [hc] at h
      · cases h
      · exact .inl ⟨q, n, bytes, .inr ⟨rfl, hq, hc⟩, (Except.ok.inj h).symm⟩
      · exact .inr (.inl ⟨q, n, .inr ⟨rfl, hq, hc⟩, (Except.ok.inj h).symm⟩)
    case isFalse => cases h
  | close writable => exact .inr (.inr (.inl ⟨writable, rfl, (Except.ok.inj h).symm⟩))
  | kill q => exact .inr (.inr (.inr ⟨q, rfl, (Except.ok.inj h).symm⟩))

/-- A segment is one by at most one process, with one count. -/
theorem Reads.unique {q n q' n' : ℕ} (h : s.Reads e q n) (h' : s.Reads e q' n') :
    q = q' ∧ n = n' := by
  rcases h with ⟨rfl, -⟩ | ⟨rfl, -, hc⟩ <;> rcases h' with ⟨h, -⟩ | ⟨h, -, hc'⟩ <;> cases h
  · exact ⟨rfl, rfl⟩
  · rw [hc] at hc'
    exact ⟨rfl, PipeCall.read.inj hc'⟩

variable {bytes : List UInt8}

/-- A segment of `pipewrite` is none of `piperead`. -/
theorem Reads.not_writes {q n q' n' : ℕ} (h : s.Reads e q n) : ¬ s.Writes e q' n' bytes := by
  rintro (⟨rfl, -⟩ | ⟨rfl, -, hc⟩) <;> rcases h with ⟨h, -⟩ | ⟨h, -, hc'⟩ <;> cases h
  rw [hc] at hc'
  cases hc'

/-- A segment of `pipewrite`: the loop stores `done`, and then the call returns `n` after waking
the readers, gives up **without waking them**, or wakes them and sleeps. -/
theorem pipewrite_cases (q n : ℕ) (bytes : List UInt8) (hs : s.pipe.count ≤ PIPESIZE.toNat) :
    ∃ p done rest, bytes = done ++ rest ∧ p.contents = s.pipe.contents ++ done ∧
      p.count ≤ PIPESIZE.toNat ∧ p.count = s.pipe.count + done.length ∧
      p.readopen = s.pipe.readopen ∧ p.writeopen = s.pipe.writeopen ∧
      let t := { s with pipe := p, stored := s.stored ++ done }
      ((rest = [] ∧ s.pipewrite q n bytes = (t.wakeup .nread).finish q n []) ∨
        (p.nwrite = p.nread + PIPESIZE ∧ rest ≠ [] ∧ (p.readopen = false ∨ s.killed q = true) ∧
          s.pipewrite q n bytes = t.finish q (-1) []) ∨
        (p.nwrite = p.nread + PIPESIZE ∧ p.readopen = true ∧
          s.pipewrite q n bytes = (t.wakeup .nread).sleep q .nwrite (.write n rest))) := by
  obtain ⟨⟨p, rest⟩, hp⟩ : ∃ x, x = s.pipe.store bytes := ⟨_, rfl⟩
  obtain ⟨done, rfl, hc, hle, hn, -, hr, hw, hfull⟩ := Pipe.store_spec hs hp.symm
  have hdone : (done ++ rest).take ((done ++ rest).length - rest.length) = done := by simp
  refine ⟨p, done, rest, rfl, hc, hle, hn, hr, hw, ?_⟩
  simp only [pipewrite, ← hp, hdone]
  split
  case isTrue h => exact .inl ⟨h, rfl⟩
  case isFalse h =>
    split
    case isTrue hg => exact .inr (.inl ⟨hfull h, h, hg, rfl⟩)
    case isFalse hg => exact .inr (.inr ⟨hfull h, by simpa using fun hf => hg (.inl hf), rfl⟩)

variable {q n : ℕ}

/-- A segment of `piperead`: at an empty pipe with a writer the call gives up or sleeps, otherwise
it takes the first bytes out, wakes the writers and returns. -/
theorem piperead_cases : (s.pipe.nread = s.pipe.nwrite ∧ s.pipe.writeopen = true ∧
      (s.piperead q n = s.finish q (-1) [] ∨ s.piperead q n = s.sleep q .nread (.read n))) ∨
    (¬ (s.pipe.nread = s.pipe.nwrite ∧ s.pipe.writeopen = true) ∧
      ∃ p bytes, s.pipe.contents = bytes ++ p.contents ∧ bytes.length = min n s.pipe.count ∧
        p.count + bytes.length = s.pipe.count ∧ p.readopen = s.pipe.readopen ∧
        s.piperead q n = (({ s with pipe := p, taken := s.taken ++ bytes }).wakeup .nwrite).finish q
          bytes.length bytes) := by
  rw [piperead]
  split
  case isTrue h =>
    refine .inl ⟨h.1, h.2, ?_⟩
    split
    · exact .inl rfl
    · exact .inr rfl
  case isFalse h =>
    obtain ⟨⟨p, bytes⟩, hp⟩ : ∃ x, x = s.pipe.fetch n := ⟨_, rfl⟩
    obtain ⟨hc, hlen, hn, -, hr, -⟩ := Pipe.fetch_spec hp.symm
    rw [← hp]
    exact .inr ⟨h, p, bytes, hc, hlen, hn, hr, rfl⟩

/-! ## First in, first out -/

/-- The bytes in the pipe are those stored and not yet taken. -/
structure Fifo (s : PipeSys) : Prop where
  stored_eq : s.stored = s.taken ++ s.pipe.contents
  count_le : s.pipe.count ≤ PIPESIZE.toNat

theorem Fifo.pipewrite (hs : s.Fifo) : (s.pipewrite q n bytes).Fifo := by
  obtain ⟨p, done, rest, -, hc, hle, -, -, -, ⟨-, h⟩ | ⟨-, -, -, h⟩ | ⟨-, -, h⟩⟩ :=
    pipewrite_cases q n bytes hs.count_le
  all_goals
    rw [h]
    refine ⟨?_, hle⟩
    show s.stored ++ done = s.taken ++ p.contents
    rw [hs.stored_eq, hc, append_assoc]

theorem Fifo.piperead (hs : s.Fifo) : (s.piperead q n).Fifo := by
  obtain ⟨-, -, h | h⟩ | ⟨-, p, bytes, hc, -, hn, -, h⟩ := piperead_cases (s := s) (q := q) (n := n)
  · rw [h]
    exact ⟨hs.stored_eq, hs.count_le⟩
  · rw [h]
    exact ⟨hs.stored_eq, hs.count_le⟩
  · rw [h]
    refine ⟨?_, (Nat.le.intro hn).trans hs.count_le⟩
    show s.stored = (s.taken ++ bytes) ++ p.contents
    rw [hs.stored_eq, hc, append_assoc]

/-- One event keeps the queue. -/
theorem Fifo.step (hs : s.Fifo) (h : step s e = .ok s') : s'.Fifo := by
  obtain ⟨q, n, bytes, -, rfl⟩ | ⟨q, n, -, rfl⟩ | ⟨w, -, rfl⟩ | ⟨q, -, rfl⟩ := step_cases h
  · exact hs.pipewrite
  · exact hs.piperead
  · cases w
    · exact ⟨hs.stored_eq, hs.count_le⟩
    · exact ⟨hs.stored_eq, hs.count_le⟩
  · exact ⟨hs.stored_eq, hs.count_le⟩

theorem fifo_start (data : ℕ → UInt8) : (start data).Fifo := by
  have hcount : (start data).pipe.count = 0 := Ring.count_eq_zero.mpr rfl
  refine ⟨?_, hcount.trans_le (Nat.zero_le _)⟩
  simp [start, Ring.contents, Ring.count]

theorem run_fifo {data : ℕ → UInt8} {tr : List PipeEvent} (h : run step (start data) tr = .ok s) :
    s.Fifo :=
  run_invariant (fun _ _ _ hs he => hs.step he) (fifo_start data) tr s h

/-- A `piperead` that returns 0 although it was asked for bytes has found the pipe empty and its
write end closed. -/
theorem piperead_zero (hn : 0 < n) (h : (s.piperead q n).ret q = some (0, bytes)) :
    s.pipe.nread = s.pipe.nwrite ∧ s.pipe.writeopen = false := by
  obtain ⟨-, -, hr | hr⟩ | ⟨hopen, p, bs, -, hlen, -, -, hr⟩ :=
    piperead_cases (s := s) (q := q) (n := n)
  · rw [hr] at h
    simp [finish] at h
  · rw [hr] at h
    simp [sleep] at h
  · rw [hr] at h
    have hzero : bs.length = 0 := by simpa [finish] using congrArg (Option.map Prod.fst) h
    have hempty : s.pipe.nread = s.pipe.nwrite := Ring.count_eq_zero.mp (by omega)
    exact ⟨hempty, by simpa [hempty] using hopen⟩

/-- The bytes that a `piperead` returns are those that it has taken. -/
theorem piperead_taken {v : Int} (hcall : (s.piperead q n).call q = .idle)
    (h : (s.piperead q n).ret q = some (v, bytes)) : (s.piperead q n).taken = s.taken ++ bytes := by
  obtain ⟨-, -, hr | hr⟩ | ⟨-, p, bs, -, -, -, -, hr⟩ := piperead_cases (s := s) (q := q) (n := n)
  · rw [hr] at h ⊢
    obtain ⟨-, rfl⟩ : -1 = v ∧ [] = bytes := by simpa [finish] using h
    simp [finish]
  · rw [hr] at hcall
    simp [sleep] at hcall
  · rw [hr] at h ⊢
    obtain ⟨-, rfl⟩ : (bs.length : Int) = v ∧ bs = bytes := by simpa [finish] using h
    rfl

/-- **A pipe is a lossless FIFO.** In every state reached, the bytes taken are a first part of the
bytes stored, the difference of the two counters modulo `2^32` is the number of bytes that are
stored and not taken, never more than `PIPESIZE`, a `piperead` of `n > 0` bytes that returns 0
does so at an empty pipe whose write end is closed, and the bytes it returns are the next ones
taken. -/
theorem fifo (data : ℕ → UInt8) (tr : List PipeEvent) (s : PipeSys)
    (hrun : run step (start data) tr = .ok s) :
    s.taken <+: s.stored ∧
      (s.pipe.nwrite - s.pipe.nread).toNat ≤ PIPESIZE.toNat ∧
      s.taken.length + (s.pipe.nwrite - s.pipe.nread).toNat = s.stored.length ∧
      (∀ e s' q n bytes, step s e = .ok s' → s.Reads e q n → 0 < n → s'.ret q = some (0, bytes) →
        s.pipe.nread = s.pipe.nwrite ∧ s.pipe.writeopen = false) ∧
      ∀ e s' q n v bytes, step s e = .ok s' → s.Reads e q n → s'.call q = .idle →
        s'.ret q = some (v, bytes) → s'.taken = s.taken ++ bytes := by
  have hs := run_fifo hrun
  have hread : ∀ {e s' q n}, step s e = .ok s' → s.Reads e q n → s' = s.piperead q n := by
    intro e s' q n he hr
    obtain ⟨q', n', bs, hw, -⟩ | ⟨q', n', hr', rfl⟩ | ⟨w, rfl, -⟩ | ⟨q', rfl, -⟩ := step_cases he
    · exact absurd hw hr.not_writes
    · obtain ⟨rfl, rfl⟩ := hr.unique hr'
      rfl
    · rcases hr with ⟨h, -⟩ | ⟨h, -⟩ <;> cases h
    · rcases hr with ⟨h, -⟩ | ⟨h, -⟩ <;> cases h
  refine ⟨⟨s.pipe.contents, hs.stored_eq.symm⟩, hs.count_le, ?_, ?_, ?_⟩
  · rw [hs.stored_eq, length_append, Ring.length_contents]
    rfl
  · intro e s' q n bytes he hr hn h
    exact piperead_zero hn (hread he hr ▸ h)
  · intro e s' q n v bytes he hr hidle h
    obtain rfl := hread he hr
    exact piperead_taken hidle h

/-- Three bytes are stored, two of them are taken. -/
theorem fifo_two_of_three :
    ∃ s, run step (start fun _ => 0) [.write 0 [1, 2, 3], .read 1 2] = .ok s ∧
      s.taken = [1, 2] ∧ s.taken <+: s.stored :=
  ⟨_, rfl, rfl, (fifo (fun _ => 0) [.write 0 [1, 2, 3], .read 1 2] _ rfl).1⟩

/-! ## Sleepers -/

/-- Nobody sleeps in `piperead` at a pipe that has bytes or no writers, nor in `pipewrite` at a
pipe that has room or no readers. -/
structure NoneStranded (s : PipeSys) : Prop where
  nread : ∀ q, s.asleep q = some .nread →
    s.pipe.nread = s.pipe.nwrite ∧ s.pipe.writeopen = true
  nwrite : ∀ q, s.asleep q = some .nwrite →
    s.pipe.nwrite = s.pipe.nread + PIPESIZE ∧ s.pipe.readopen = true

/-- The segment is not one of a `pipewrite` that has more bytes to store than the buffer holds and
will give up at the full buffer, while a reader sleeps. -/
def WakesReaders (s : PipeSys) (e : PipeEvent) : Prop :=
  ∀ q n bytes, s.Writes e q n bytes → s.pipe.readopen = false ∨ s.killed q = true →
    PIPESIZE.toNat < bytes.length → ∀ r, s.asleep r ≠ some .nread

theorem asleep_wakeup {c : PipeChan} {q : ℕ} : (s.wakeup c).asleep q ≠ some c := by
  simp only [wakeup]
  split <;> simp_all

theorem asleep_of_wakeup {c d : PipeChan} {q : ℕ} (h : (s.wakeup c).asleep q = some d) :
    s.asleep q = some d := by
  simp only [wakeup] at h
  split at h
  · cases h
  · exact h

theorem NoneStranded.pipewrite (hs : s.NoneStranded)
    (hf : s.Fifo) (hcond : s.pipe.readopen = false ∨ s.killed q = true →
      PIPESIZE.toNat < bytes.length → ∀ r, s.asleep r ≠ some .nread) :
    (s.pipewrite q n bytes).NoneStranded := by
  obtain ⟨p, done, rest, rfl, -, hle, hcount, hr, hw, hcase⟩ :=
    pipewrite_cases q n bytes hf.count_le
  -- a full pipe stays as it is, so who sleeps in `pipewrite` still has a reason to
  have hfull : ∀ r, s.asleep r = some .nwrite →
      p.nwrite = p.nread + PIPESIZE ∧ p.readopen = true := by
    intro r hsleep
    obtain ⟨hfull, hopen⟩ := hs.nwrite r hsleep
    have := Ring.count_eq_size.mpr hfull
    exact ⟨Ring.count_eq_size.mp (by omega), hr.trans hopen⟩
  rcases hcase with ⟨-, h⟩ | ⟨hpfull, hrest, hgive, h⟩ | ⟨hpfull, hopen, h⟩
  · rw [h]
    exact ⟨fun r hr => absurd hr asleep_wakeup, fun r hr => hfull r (asleep_of_wakeup hr)⟩
  · rw [h]
    refine ⟨fun r hsleep => ?_, hfull⟩
    -- a sleeping reader means an empty pipe, and then the writer had bytes for more than a pipe
    have hempty := Ring.count_eq_zero.mpr (hs.nread r hsleep).1
    have hsize := Ring.count_eq_size.mpr hpfull
    have hpos := length_pos_iff.mpr hrest
    rw [hr] at hgive
    refine absurd hsleep (hcond hgive ?_ r)
    rw [length_append]
    omega
  · rw [h]
    refine ⟨fun r hsleep => ?_, fun r hsleep => ?_⟩
    · simp only [sleep, update_apply] at hsleep
      split at hsleep
      · cases hsleep
      · exact absurd hsleep asleep_wakeup
    · exact ⟨hpfull, hopen⟩

theorem NoneStranded.piperead (hs : s.NoneStranded) : (s.piperead q n).NoneStranded := by
  obtain ⟨hempty, hopen, h | h⟩ | ⟨hne, p, bytes, -, -, -, -, h⟩ :=
    piperead_cases (s := s) (q := q) (n := n)
  · rw [h]
    exact ⟨hs.nread, hs.nwrite⟩
  · rw [h]
    refine ⟨fun r hsleep => ⟨hempty, hopen⟩, fun r hsleep => ?_⟩
    simp only [sleep, update_apply] at hsleep
    split at hsleep
    · cases hsleep
    · exact hs.nwrite r hsleep
  · rw [h]
    exact ⟨fun r hsleep => absurd (hs.nread r (asleep_of_wakeup hsleep)) hne,
      fun r hsleep => absurd hsleep asleep_wakeup⟩

/-- One event strands nobody, if it meets the condition. -/
theorem NoneStranded.step (hs : s.NoneStranded) (hf : s.Fifo) (hcond : s.WakesReaders e)
    (h : step s e = .ok s') : s'.NoneStranded := by
  obtain ⟨q, n, bytes, hw, rfl⟩ | ⟨q, n, -, rfl⟩ | ⟨w, -, rfl⟩ | ⟨q, -, rfl⟩ := step_cases h
  · exact hs.pipewrite hf (hcond q n bytes hw)
  · exact hs.piperead
  · cases w
    · exact ⟨fun r hr => hs.nread r (asleep_of_wakeup hr), fun r hr => absurd hr asleep_wakeup⟩
    · exact ⟨fun r hr => absurd hr asleep_wakeup, fun r hr => hs.nwrite r (asleep_of_wakeup hr)⟩
  refine ⟨fun r hr => ?_, fun r hr => ?_⟩ <;>
    simp only [kill, update_apply] at hr <;> split at hr
  · cases hr
  · exact hs.nread r hr
  · cases hr
  · exact hs.nwrite r hr

/-- **Nobody is stranded**, in any state that a run reaches in which every segment meets
`WakesReaders`: who sleeps on `&p->nread` does so at an empty pipe with its write end open, who
sleeps on `&p->nwrite` at a full pipe with its read end open. -/
theorem no_stranded_sleeper (data : ℕ → UInt8) (tr : List PipeEvent) (s : PipeSys)
    (hrun : run step (start data) tr = .ok s) (hcond : Meets step (start data) WakesReaders tr) :
    ∀ q, (s.asleep q = some .nread → s.pipe.nread = s.pipe.nwrite ∧ s.pipe.writeopen = true) ∧
      (s.asleep q = some .nwrite →
        s.pipe.nwrite = s.pipe.nread + PIPESIZE ∧ s.pipe.readopen = true) := by
  have hinv := Meets.invariant (P := fun s => s.Fifo ∧ s.NoneStranded)
    (fun _ _ _ hs hc he => ⟨hs.1.step he, hs.2.step hs.1 hc he⟩)
    ⟨fifo_start data, ⟨nofun, nofun⟩⟩ hcond hrun
  exact fun q => ⟨hinv.2.nread q, hinv.2.nwrite q⟩

/-- A reader sleeps, and a writer wakes it. -/
theorem no_stranded_sleeper_woken :
    ∃ s, run step (start fun _ => 0) [.read 1 2, .write 0 [7]] = .ok s ∧
      (s.asleep 1 = some .nread → s.pipe.nread = s.pipe.nwrite ∧ s.pipe.writeopen = true) := by
  refine ⟨_, rfl, (no_stranded_sleeper (fun _ => 0) [.read 1 2, .write 0 [7]] _ rfl ?_ 1).1⟩
  -- no write of the run is longer than the buffer
  intro u e v s htr _ q n bytes hw _ hlong
  have hmem : e ∈ [PipeEvent.read 1 2, .write 0 [7]] := by simp [htr]
  rcases hw with ⟨rfl, -⟩ | ⟨rfl, -⟩
  · obtain ⟨-, rfl⟩ : q = 0 ∧ bytes = [7] := by simpa using hmem
    exact absurd hlong (by decide)
  · simp at hmem

/-- A reader sleeps; a writer with 513 bytes, which has been killed, fills the pipe and gives up
without waking it. The reader goes on sleeping at a full pipe. -/
theorem reader_stranded : ∃ s, run step (start fun _ => 0)
        [.read 1 1, .kill 0, .write 0 (List.replicate 513 7)] = .ok s ∧
      s.asleep 1 = some .nread ∧ s.pipe.nread ≠ s.pipe.nwrite ∧ s.ret 0 = some (-1, []) :=
  exists_ok_of_check (by decide +kernel)

end PipeSys

end Xv6
