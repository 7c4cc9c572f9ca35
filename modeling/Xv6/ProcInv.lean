import Xv6.Proc

/-!
# The process table: who runs, and who is being born

The invariant that ties the table to the CPUs and to what each process is in the middle of
(`Valid`): the process of a CPU is RUNNING and runs nowhere else; the slot that a `fork` has taken
is an EMBRYO and belongs to no other `fork`; a slot that is UNUSED or an EMBRYO has no context to
switch to. It holds in every state reached (`run_valid`), whatever the lottery draws.
-/

namespace Xv6

/-- The slot that a `fork` in progress has taken. -/
def Kont.child : Kont → Option Slot
  | .forkAlloc np | .forkCopied np => some np
  | _ => Option.none

namespace ProcSys

/-- The process table, the CPUs and the processes' control points fit together. -/
structure Valid (s : ProcSys) : Prop where
  /-- the process of a CPU is RUNNING -/
  running : ∀ c p, (s.cpu c).proc = some p → (s.proc p).state = .running
  /-- no process runs on two CPUs -/
  once : ∀ c c' p, (s.cpu c).proc = some p → (s.cpu c').proc = some p → c = c'
  /-- the child of a `fork` is an EMBRYO -/
  embryo : ∀ q np, (s.kont q).child = some np → (s.proc np).state = .embryo
  /-- no two `fork`s have taken one slot -/
  owner : ∀ q q' np, (s.kont q).child = some np → (s.kont q').child = some np → q = q'
  /-- without a process there is no context -/
  context : ∀ p, (s.proc p).state = .unused ∨ (s.proc p).state = .embryo → s.kont p = .none

/-- A step that adds no process to a CPU and no child to a `fork` keeps the table valid. -/
theorem Valid.mono {s s' : ProcSys} (h : Valid s) (hcpu : ∀ c p, (s'.cpu c).proc = some p →
      (s.cpu c).proc = some p ∧ (s'.proc p).state = .running)
    (hchild : ∀ q np, (s'.kont q).child = some np →
      (s.kont q).child = some np ∧ (s'.proc np).state = .embryo)
    (hctx : ∀ p, (s'.proc p).state = .unused ∨ (s'.proc p).state = .embryo → s'.kont p = .none) :
    Valid s' where
  running c p hp := (hcpu c p hp).2
  once c c' p hp hp' := h.once c c' p (hcpu c p hp).1 (hcpu c' p hp').1
  embryo q np hq := (hchild q np hq).2
  owner q q' np hq hq' := h.owner q q' np (hchild q np hq).1 (hchild q' np hq').1
  context := hctx

/-! ## Waking up -/

/-- Some processes have been woken up, and nothing else has changed its state. -/
def Woken (s s' : ProcSys) : Prop :=
  s'.cpu = s.cpu ∧ s'.kont = s.kont ∧ ∀ p, (s'.proc p).state = (s.proc p).state ∨
    ((s.proc p).state = .sleeping ∧ (s'.proc p).state = .runnable)

theorem Woken.refl (s : ProcSys) : Woken s s := ⟨rfl, rfl, fun _ => .inl rfl⟩

theorem Woken.trans {s1 s2 s3 : ProcSys} (h1 : Woken s1 s2) (h2 : Woken s2 s3) : Woken s1 s3 := by
  refine ⟨h2.1.trans h1.1, h2.2.1.trans h1.2.1, fun p => ?_⟩
  rcases h1.2.2 p with e1 | ⟨e1, e1'⟩
  · rcases h2.2.2 p with e2 | ⟨e2, e2'⟩
    · exact .inl (e2.trans e1)
    · exact .inr ⟨e1 ▸ e2, e2'⟩
  · rcases h2.2.2 p with e2 | ⟨e2, e2'⟩
    · exact .inr ⟨e1, e2.trans e1'⟩
    · exact .inr ⟨e1, e2'⟩

variable {x : Proc}

theorem Woken.setProc (s : ProcSys) (q : Slot) (h : x.state = (s.proc q).state) :
    Woken s (s.setProc q x) := by
  refine ⟨rfl, rfl, fun p => .inl ?_⟩
  by_cases hp : p = q
  · subst hp
    simpa using h
  · simp [hp]

theorem woken_wakeup1 (s : ProcSys) (chan : Chan) : Woken s (s.wakeup1 chan) := by
  refine ⟨rfl, rfl, fun p => ?_⟩
  by_cases h : (s.proc p).state = .sleeping ∧ (s.proc p).chan = some chan
  · exact .inr ⟨h.1, by simp [wakeup1, h]⟩
  · exact .inl (by simp [wakeup1, h])

theorem woken_reparent (s : ProcSys) (q : Slot) : Woken s (s.reparent q) := by
  refine List.foldlRecOn (motive := fun (s' : ProcSys) => Woken s s') _ _ (.refl s) ?_
  intro s' hs r _
  dsimp only
  split
  · have h1 : Woken s (s'.setProc r { s'.proc r with parent := some initproc }) :=
      hs.trans (.setProc s' r rfl)
    split
    · exact h1.trans (woken_wakeup1 _ _)
    · exact h1
  · exact hs

theorem woken_kill (s : ProcSys) (pid : Int32) : Woken s (s.kill pid).1 := by
  unfold kill
  split
  · rename_i q _
    refine ⟨rfl, rfl, fun p => ?_⟩
    by_cases hp : p = q
    · subst hp
      by_cases hs : (s.proc p).state = .sleeping <;> simp [hs]
    · exact .inl (by simp [hp])
  · exact .refl s

theorem Valid.woken {s s' : ProcSys} (h : Valid s) (hw : Woken s s') : Valid s' := by
  obtain ⟨hcpu, hkont, hstate⟩ := hw
  have hkeep : ∀ p, (s.proc p).state ≠ .sleeping → (s'.proc p).state = (s.proc p).state :=
    fun p hp => (hstate p).resolve_right fun hs => hp hs.1
  refine h.mono (fun c p hp => ?_) (fun q np hq => ?_) fun p hp => ?_
  · rw [hcpu] at hp
    have hr := h.running c p hp
    exact ⟨hp, (hkeep p (by simp [hr])).trans hr⟩
  · rw [hkont] at hq
    have he := h.embryo q np hq
    exact ⟨hq, (hkeep np (by simp [he])).trans he⟩
  · rw [hkont]
    rcases hstate p with he | ⟨-, he⟩
    · exact h.context p (he ▸ hp)
    · simp [he] at hp

/-! ## Leaving the CPU, and going on -/

variable {s : ProcSys} {p : Slot} {c : ℕ}

section

variable (h : Valid s)

include h

/-- The process of CPU `c` changes its state to `x.state` and goes back to the scheduler. -/
theorem Valid.leave
    (hp : (s.cpu c).proc = some p) (hx : x.state ≠ .unused) (hx' : x.state ≠ .embryo) :
    Valid ((s.setProc p x).sched c) := by
  have hr := h.running c p hp
  refine h.mono (fun c' q hq => ?_) (fun q np hq => ?_) fun q hq => ?_
  · by_cases hc : c' = c
    · subst hc
      simp [sched] at hq
    have hq' : (s.cpu c').proc = some q := by simpa [sched, hc] using hq
    have hqp : q ≠ p := by
      rintro rfl
      exact hc (h.once c' c q hq' hp)
    exact ⟨hq', by simpa [hqp] using h.running c' q hq'⟩
  · have he := h.embryo q np hq
    have hnp : np ≠ p := by
      rintro rfl
      rw [he] at hr
      cases hr
    exact ⟨hq, by simpa [hnp] using he⟩
  · by_cases hqp : q = p
    · subst hqp
      simp [hx, hx'] at hq
    · exact h.context q (by simpa [hqp] using hq)

/-- A process that is in use goes on somewhere else, with no child. -/
theorem Valid.setKont {k : Kont} (hk : k.child = none)
    (hp : (s.proc p).state ≠ .unused) (hp' : (s.proc p).state ≠ .embryo) :
    Valid (s.setKont p k) := by
  refine h.mono (fun c q hq => ⟨hq, h.running c q hq⟩) (fun q np hq => ?_) fun q hq => ?_
  · by_cases hqp : q = p
    · subst hqp
      simp [hk] at hq
    · have hq' : (s.kont q).child = some np := by simpa [hqp] using hq
      exact ⟨hq', h.embryo q np hq'⟩
  · by_cases hqp : q = p
    · subst hqp
      exact absurd hq (by simp [hp, hp'])
    · simpa [hqp] using h.context q hq

/-- Fields other than `state` do not matter. -/
theorem Valid.setProc (hx : x.state = (s.proc p).state) : Valid (s.setProc p x) :=
  h.woken (.setProc s p hx)

theorem Valid.resume
    (hc : (s.cpu c).proc = none) (hs : (s.proc p).state ≠ .running) (hk : s.kont p ≠ .none) :
    Valid (s.resume c p) := by
  have hfree : ∀ c', (s.cpu c').proc ≠ some p := fun c' hp => hs (h.running c' p hp)
  have hcpu : ∀ c' q, ((s.resume c p).cpu c').proc = some q →
      (c' = c ∧ q = p) ∨ ((s.cpu c').proc = some q ∧ q ≠ p) := by
    intro c' q hq
    by_cases hcc : c' = c
    · subst hcc
      exact .inl ⟨rfl, by simpa [ProcSys.resume, eq_comm] using hq⟩
    · have hq' : (s.cpu c').proc = some q := by simpa [ProcSys.resume, hcc] using hq
      exact .inr ⟨hq', by rintro rfl; exact hfree c' hq'⟩
  refine ⟨fun c' q hq => ?_, fun c' c'' q hq hq' => ?_, fun q np hq => ?_, h.owner, fun q hq => ?_⟩
  · rcases hcpu c' q hq with ⟨rfl, rfl⟩ | ⟨hq', hne⟩
    · simp [ProcSys.resume]
    · simpa [ProcSys.resume, hne] using h.running c' q hq'
  · rcases hcpu c' q hq with ⟨rfl, rfl⟩ | ⟨h1, hne⟩
    · rcases hcpu c'' q hq' with ⟨rfl, -⟩ | ⟨-, hne⟩
      · rfl
      · exact absurd rfl hne
    · rcases hcpu c'' q hq' with ⟨-, rfl⟩ | ⟨h2, -⟩
      · exact absurd rfl hne
      · exact h.once c' c'' q h1 h2
  · have he := h.embryo q np hq
    have hnp : np ≠ p := by
      rintro rfl
      exact hk (h.context np (.inr he))
    simpa [ProcSys.resume, hnp] using he
  · by_cases hqp : q = p
    · subst hqp
      simp [ProcSys.resume] at hq
    · exact h.context q (by simpa [ProcSys.resume, hqp] using hq)

/-- `wait` by the process of CPU `c`. -/
theorem Valid.wait (hp : (s.cpu c).proc = some p) : Valid (s.wait c p) := by
  have hr := h.running c p hp
  unfold ProcSys.wait
  split
  · rename_i r hfind
    have hz : (s.proc r).state = .zombie := by
      have := List.find?_some hfind
      simp only [Bool.and_eq_true, beq_iff_eq] at this
      exact this.2
    have hrp : p ≠ r := by
      rintro rfl
      rw [hr] at hz
      cases hz
    have hreap : Valid (s.reap r) := by
      refine h.mono (fun c' q hq => ⟨hq, ?_⟩) (fun q np hq => ?_) fun q hq => ?_
      · have hq' := h.running c' q hq
        have hqr : q ≠ r := by
          rintro rfl
          rw [hq'] at hz
          cases hz
        simpa [reap, hqr] using hq'
      · by_cases hqr : q = r
        · subst hqr
          simp [reap, Kont.child] at hq
        have hq' : (s.kont q).child = some np := by simpa [reap, hqr] using hq
        have he := h.embryo q np hq'
        have hnp : np ≠ r := by
          rintro rfl
          rw [he] at hz
          cases hz
        exact ⟨hq', by simpa [reap, hnp] using he⟩
      · by_cases hqr : q = r
        · simp [reap, hqr]
        · simpa [reap, hqr] using h.context q (by simpa [reap, hqr] using hq)
    have hstate : ((s.reap r).proc p).state = .running := by simpa [reap, hrp] using hr
    exact hreap.setKont rfl (by simp [hstate]) (by simp [hstate])
  · split
    · exact h.setKont rfl (by simp [hr]) (by simp [hr])
    · have hsleep : Valid (s.sleep c p (.proc p)) := h.leave hp (by simp) (by simp)
      exact hsleep.setKont rfl (by simp [sleep]) (by simp [sleep])

/-! ## `fork` -/

theorem Valid.fork (hp : (s.cpu c).proc = some p) : Valid (s.fork p) := by
  unfold ProcSys.fork allocproc
  rcases hf : s.findSlot fun x => x.state == .unused with _ | np
  · exact h
  have hu : (s.proc np).state = .unused := by simpa using List.find?_some hf
  have hr := h.running c p hp
  have hnp : ∀ q, (s.proc q).state ≠ .unused → q ≠ np := by
    rintro q hq rfl
    exact hq hu
  have hpnp : p ≠ np := hnp p (by simp [hr])
  -- the children of other `fork`s are EMBRYOs already
  have hchild : ∀ q r, q ≠ p → (s.kont q).child = some r → r ≠ np := fun q r _ hq =>
    hnp r (by simp [h.embryo q r hq])
  refine ⟨fun c' q hq => ?_, h.once, fun q r hq => ?_, fun q q' r hq hq' => ?_, fun q hq => ?_⟩
  · have hq' := h.running c' q hq
    simpa [hnp q (by simp [hq'])] using hq'
  · by_cases hqp : q = p
    · subst hqp
      obtain rfl : np = r := by simpa [Kont.child] using hq
      simp
    · have hq' : (s.kont q).child = some r := by simpa [hqp] using hq
      simpa [hchild q r hqp hq'] using h.embryo q r hq'
  · by_cases hqp : q = p
    · subst hqp
      obtain rfl : np = r := by simpa [Kont.child] using hq
      by_contra hne
      have hq'' : (s.kont q').child = some np := by simpa [Ne.symm hne] using hq'
      exact hchild q' np (Ne.symm hne) hq'' rfl
    have h1 : (s.kont q).child = some r := by simpa [hqp] using hq
    by_cases hqp' : q' = p
    · subst hqp'
      obtain rfl : np = r := by simpa [Kont.child] using hq'
      exact absurd rfl (hchild q np hqp h1)
    · exact h.owner q q' r h1 (by simpa [hqp'] using hq')
  · by_cases hqp : q = p
    · subst hqp
      simp [hpnp, hr] at hq
    · by_cases hqn : q = np
      · simpa [hqp, hqn, hpnp.symm] using h.context np (.inl hu)
      · simpa [hqp] using h.context q (by simpa [hqn] using hq)

/-- The three ways in which a `fork` goes on with its child `np`. -/
theorem Valid.child {p np : Slot} (hp : (s.cpu c).proc = some p) (hk : (s.kont p).child = some np) :
    Valid (s.forkFail p np) ∧ (s.kont p = .forkAlloc np → Valid (s.forkCopy p np)) ∧
      Valid (s.forkDone p np) := by
  have hr := h.running c p hp
  have he := h.embryo p np hk
  have hne : ∀ q, (s.proc q).state ≠ .embryo → q ≠ np := by
    rintro q hq rfl
    exact hq he
  have hpnp : p ≠ np := hne p (by simp [hr])
  -- no other `fork` has this child
  have hother : ∀ q r, q ≠ p → (s.kont q).child = some r → r ≠ np := by
    rintro q r hq hqr rfl
    exact hq (h.owner q p r hqr hk)
  refine ⟨?_, fun hkp => ?_, ?_⟩
  · refine h.mono (fun c' q hq => ⟨hq, ?_⟩) (fun q r hq => ?_) fun q hq => ?_
    · have hq' := h.running c' q hq
      simpa [forkFail, hne q (by simp [hq'])] using hq'
    · by_cases hqp : q = p
      · subst hqp
        simp [forkFail, Kont.child] at hq
      · have hq' : (s.kont q).child = some r := by simpa [forkFail, hqp] using hq
        exact ⟨hq', by simpa [forkFail, hother q r hqp hq'] using h.embryo q r hq'⟩
    by_cases hqp : q = p
    · subst hqp
      simp [forkFail, hpnp, hr] at hq
    · by_cases hqn : q = np
      · simpa [forkFail, hqp, hqn, hpnp.symm] using h.context np (.inr he)
      · simpa [forkFail, hqp] using h.context q (by simpa [forkFail, hqn] using hq)
  · have hstate : ∀ q, ((s.forkCopy p np).proc q).state = (s.proc q).state := by
      intro q
      by_cases hqn : q = np <;> simp [forkCopy, hqn]
    have hchild : ∀ q, ((s.forkCopy p np).kont q).child = (s.kont q).child := by
      intro q
      by_cases hqp : q = p <;> simp [forkCopy, hqp, hkp, Kont.child]
    refine h.mono (fun c' q hq => ⟨hq, ?_⟩) (fun q r hq => ?_) fun q hq => ?_
    · rw [hstate]
      exact h.running c' q hq
    · rw [hchild] at hq
      exact ⟨hq, by rw [hstate]; exact h.embryo q r hq⟩
    rw [hstate] at hq
    have hqp : q ≠ p := by
      rintro rfl
      simp [hr] at hq
    simpa [forkCopy, hqp] using h.context q hq
  · refine h.mono (fun c' q hq => ⟨hq, ?_⟩) (fun q r hq => ?_) fun q hq => ?_
    · have hq' := h.running c' q hq
      simpa [forkDone, hne q (by simp [hq'])] using hq'
    · by_cases hqp : q = p
      · subst hqp
        simp [forkDone, Kont.child] at hq
      by_cases hqn : q = np
      · subst hqn
        simp [forkDone, hqp, Kont.child] at hq
      · have hq' : (s.kont q).child = some r := by simpa [forkDone, hqp, hqn] using hq
        exact ⟨hq', by simpa [forkDone, hother q r hqp hq'] using h.embryo q r hq'⟩
    by_cases hqn : q = np
    · subst hqn
      simp [forkDone] at hq
    have hq' : (s.proc q).state = .unused ∨ (s.proc q).state = .embryo := by
      simpa [forkDone, hqn] using hq
    have hqp : q ≠ p := by
      rintro rfl
      simp [hr] at hq'
    simpa [forkDone, hqp, hqn] using h.context q hq'

end

/-! ## Every run -/

/-- Giving out tickets and drawing a winner. -/
theorem Valid.pick {s s' : ProcSys} (h : Valid s) {w : Option Slot}
    (hp : s.assignTickets.pick c = .ok (s', w)) :
    Valid s' ∧ ∀ c', (s'.cpu c').proc = (s.cpu c').proc := by
  obtain ⟨hproc, hkont, -, hcpu⟩ := pick_inv hp
  have hcpu' : ∀ c', (s'.cpu c').proc = (s.cpu c').proc := by
    intro c'
    rcases hcpu with ⟨-, -, hcpu⟩ | ⟨p, rp, -, hcpu, -⟩
    · rw [hcpu]
      rfl
    rw [hcpu]
    by_cases hc : c' = c
    · subst hc
      simp [assignTickets]
    · simp [assignTickets, hc]
  have hstate : ∀ p, (s'.proc p).state = (s.proc p).state := fun p => by rw [hproc]; rfl
  have hkont' : s'.kont = s.kont := hkont
  refine ⟨h.mono (fun c' q hq => ?_) (fun q r hq => ?_) (fun q hq => ?_), hcpu'⟩
  · rw [hcpu'] at hq
    exact ⟨hq, by rw [hstate]; exact h.running c' q hq⟩
  · rw [hkont'] at hq
    exact ⟨hq, by rw [hstate]; exact h.embryo q r hq⟩
  · rw [hstate] at hq
    rw [hkont']
    exact h.context q hq

/-- The end of `exit`, after the wakeups. -/
theorem Valid.zombie {s t : ProcSys} (h : Valid s) (hp : (s.cpu c).proc = some p) (hw : Woken s t) :
    Valid (((t.setProc p { t.proc p with state := .zombie }).sched c).setKont p .exited) := by
  have hp1 : (t.cpu c).proc = some p := by rw [hw.1]; exact hp
  have hz : Valid ((t.setProc p { t.proc p with state := .zombie }).sched c) :=
    (h.woken hw).leave hp1 (by simp) (by simp)
  exact hz.setKont rfl (by simp) (by simp)

theorem Valid.exit {s s' : ProcSys} (h : Valid s)
    (hp : (s.cpu c).proc = some p) (he : s.exit c p = .ok s') : Valid s' := by
  unfold ProcSys.exit at he
  split at he
  · cases he
  rcases hpar : (s.proc p).parent with _ | r <;> simp only [hpar] at he <;> cases he
  · exact h.zombie hp (woken_reparent s p)
  · exact h.zombie hp ((woken_wakeup1 s _).trans (woken_reparent _ p))

theorem valid_step {s s' : ProcSys} {e : ProcEvent} (h : Valid s) (hs : s.step e = .ok s') :
    Valid s' := by
  cases step_trans hs with
  | idle c _ hp => exact (h.pick hp).1
  | resume c p s1 hc hp hrun hk =>
    obtain ⟨h1, hcpu⟩ := h.pick hp
    exact h1.resume ((hcpu c).trans hc) hrun hk
  | resumeWait c p s1 hc hp hrun hk =>
    obtain ⟨h1, hcpu⟩ := h.pick hp
    exact (h1.resume ((hcpu c).trans hc) hrun hk).wait (by simp [ProcSys.resume])
  | yield c p hp => exact h.leave hp (by simp) (by simp)
  | sleep c p chan hp _ => exact h.leave hp (by simp) (by simp)
  | wakeup chan => exact h.woken (woken_wakeup1 s chan)
  | exit c p _ hp _ he => exact h.exit hp he
  | wait c p hp _ => exact h.wait hp
  | kill c p pid _ _ => exact h.woken (woken_kill s pid)
  | fork c p hp _ => exact h.fork hp
  | forkFail c p np hp hk => exact (h.child hp (by rw [hk]; rfl)).1
  | forkCopy c p np hp hk => exact (h.child hp (by rw [hk]; rfl)).2.1 hk
  | forkDone c p np hp hk => exact (h.child hp (by rw [hk]; rfl)).2.2
  | exec c p last _ _ => exact h.setProc rfl
  | fault c p _ _ => exact h.setProc rfl

theorem valid_start : Valid start := by
  refine ⟨by rintro _ _ ⟨⟩, by rintro _ _ _ ⟨⟩, fun q np hq => ?_, fun q q' np hq => ?_,
    fun p hp => ?_⟩
  · by_cases h : q = initproc <;> simp [start, h, Kont.child] at hq
  · by_cases h : q = initproc <;> simp [start, h, Kont.child] at hq
  · by_cases h : p = initproc
    · simp [start, h] at hp
    · simp [start, h]

/-- **Validity.** Every state reached is valid. -/
theorem run_valid {tr : List ProcEvent} (h : run step start tr = .ok s) : Valid s :=
  run_invariant (fun _ _ _ => valid_step) valid_start tr s h

end ProcSys

end Xv6
