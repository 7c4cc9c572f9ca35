import Xv6.ProcInv

/-!
# Killing by name

`kill` looks for a pid and nothing else, and `killed` is reset only when `wait` frees a slot. So
an UNUSED slot can be killed, under the pid `0` that `wait` leaves there or under the stale pid
of a `fork` that failed, and then the next process in it is born killed.

* `SlotStep` lists what one event can do to the `killed`, the `pid` and the use of one slot, and
  `step_slot` that there is nothing else.
* `run_unused` is the invariant: no UNUSED slot is killed, as long as no `kill` hits one and no
  killed EMBRYO is given up.
* `killed_by_name` is the conclusion for whole runs, `fork_killed` the run in which it fails.
-/

namespace Xv6

open List

namespace ProcSys

/-! ## What happens to a slot -/

/-- The slot keeps its process, or its process appears. -/
structure Calm (s s' : ProcSys) (p : Slot) : Prop where
  killed : (s'.proc p).killed = (s.proc p).killed
  pid : (s'.proc p).pid = (s.proc p).pid
  unused : (s'.proc p).state = .unused → (s.proc p).state = .unused

variable {s s' : ProcSys} {p : Slot}

theorem Calm.of_proc (h : s'.proc p = s.proc p) : Calm s s' p :=
  ⟨by rw [h], by rw [h], by rw [h]; exact id⟩

theorem Calm.trans {s1 s2 s3 : ProcSys} (h1 : Calm s1 s2 p) (h2 : Calm s2 s3 p) : Calm s1 s3 p :=
  ⟨h2.killed.trans h1.killed, h2.pid.trans h1.pid, h1.unused ∘ h2.unused⟩

/-- A change of slot `q` is calm everywhere if it is calm at `q`. -/
theorem Calm.of_update {q : Slot} {x : Proc} (p : Slot)
    (h : s'.proc = Function.update s.proc q x) (hk : x.killed = (s.proc q).killed)
    (hpid : x.pid = (s.proc q).pid) (hu : x.state = .unused → (s.proc q).state = .unused) :
    Calm s s' p := by
  by_cases hp : p = q
  · subst hp
    exact ⟨by simpa [h] using hk, by simpa [h] using hpid, by simpa [h] using hu⟩
  · exact .of_proc (by simp [h, hp])

theorem calm_wakeup1 (s : ProcSys) (chan : Chan) (p : Slot) : Calm s (s.wakeup1 chan) p := by
  by_cases h : (s.proc p).state = .sleeping ∧ (s.proc p).chan = some chan
  · exact ⟨by simp [wakeup1, h], by simp [wakeup1, h], by simp [wakeup1, h]⟩
  · exact .of_proc (by simp [wakeup1, h])

theorem calm_reparent (s : ProcSys) (q p : Slot) : Calm s (s.reparent q) p := by
  refine List.foldlRecOn (motive := fun (s' : ProcSys) => Calm s s' p) _ _ (.of_proc rfl) ?_
  intro s' hs r _
  dsimp only
  split
  · have h1 : Calm s (s'.setProc r { s'.proc r with parent := some initproc }) p :=
      hs.trans (.of_update p rfl rfl rfl id)
    split
    · exact h1.trans (calm_wakeup1 _ _ p)
    · exact h1
  · exact hs

theorem calm_exit {c : ℕ} {q : Slot} (h : s.exit c q = .ok s') (p : Slot) : Calm s s' p := by
  unfold exit at h
  split at h
  · cases h
  rcases hpar : (s.proc q).parent with _ | r <;> simp only [hpar] at h <;> cases h
  · refine (calm_reparent s q p).trans ?_
    generalize reparent _ q = s1
    exact .of_update p rfl rfl rfl (by simp)
  · refine ((calm_wakeup1 s (.proc r) p).trans (calm_reparent _ q p)).trans ?_
    generalize reparent _ q = s1
    exact .of_update p rfl rfl rfl (by simp)

theorem calm_sleep (s : ProcSys) (c : ℕ) (q : Slot) (chan : Chan) (p : Slot) :
    Calm s (s.sleep c q chan) p :=
  .of_update p rfl rfl rfl (by simp)

theorem calm_resume (s : ProcSys) (c : ℕ) (q p : Slot) : Calm s (s.resume c q) p :=
  .of_update p rfl rfl rfl (by simp)

/-- `wait` frees a slot, and with it clears `killed`, or leaves all slots in use. -/
theorem wait_slot (s : ProcSys) (c : ℕ) (q p : Slot) : Calm s (s.wait c q) p ∨
      (((s.wait c q).proc p).state = .unused ∧ ((s.wait c q).proc p).killed = false) := by
  unfold wait
  split
  · rename_i r hr
    by_cases hp : p = r
    · exact .inr (by simp [reap, hp])
    · exact .inl (.of_proc (by simp [reap, hp]))
  · split
    · exact .inl (.of_proc rfl)
    · exact .inl ((calm_sleep s c q (.proc q) p).trans (.of_proc rfl))

/-- Everything one event can do to slot `p`, as far as `killed`, `pid` and its use go. -/
inductive SlotStep (s : ProcSys) (p : Slot) : ProcEvent → ProcSys → Prop
  | calm (e : ProcEvent) (s' : ProcSys) : Calm s s' p → SlotStep s p e s'
  /-- `wait` has freed it -/
  | freed (e : ProcEvent) (s' : ProcSys) : (s'.proc p).state = .unused →
      (s'.proc p).killed = false → SlotStep s p e s'
  /-- `fork` has given it up -/
  | dropped (c : ℕ) (q : Slot) (s' : ProcSys) : (s.cpu c).proc = some q →
      s.kont q = .forkAlloc p → (s'.proc p).state = .unused →
      (s'.proc p).killed = (s.proc p).killed → SlotStep s p (.forkFail c) s'
  /-- `allocproc` has taken it -/
  | taken (c : ℕ) (s' : ProcSys) : (s.proc p).state = .unused → (s'.proc p).state ≠ .unused →
      (s'.proc p).killed = (s.proc p).killed → SlotStep s p (.fork c) s'
  | killed (c : ℕ) (s' : ProcSys) : (s'.proc p).pid = (s.proc p).pid →
      ((s'.proc p).state = .unused → (s.proc p).state = .unused) →
      SlotStep s p (.kill c (s.proc p).pid) s'
  | faulted (c : ℕ) (s' : ProcSys) : (s.cpu c).proc = some p →
      (s'.proc p).pid = (s.proc p).pid → (s'.proc p).state = (s.proc p).state →
      SlotStep s p (.fault c) s'

variable {f : Proc → Bool}

theorem findSlot_some {s : ProcSys} (h : s.findSlot f = some p) : f (s.proc p) = true := by
  simpa using find?_some h

theorem findSlot_none {s : ProcSys} (h : s.findSlot f = none) (p : Slot) :
    f (s.proc p) = false := by
  simpa using find?_eq_none.mp h p (mem_finRange p)

variable {e : ProcEvent}

theorem step_slot (h : s.step e = .ok s') (p : Slot) : SlotStep s p e s' := by
  -- choosing a process changes nothing but tickets
  have hpick : ∀ {c s1 w}, s.assignTickets.pick c = .ok (s1, w) → Calm s s1 p := by
    intro c s1 w hp
    obtain ⟨hproc, -⟩ := pick_inv hp
    exact ⟨by rw [hproc]; rfl, by rw [hproc]; rfl, by rw [hproc]; exact id⟩
  cases step_trans h with
  | idle c _ hp => exact .calm _ _ (hpick hp)
  | resume c q s1 _ hp _ _ => exact .calm _ _ ((hpick hp).trans (calm_resume s1 c q p))
  | resumeWait c q s1 _ hp _ _ =>
    have h1 := (hpick hp).trans (calm_resume s1 c q p)
    rcases wait_slot (s1.resume c q) c q p with h2 | ⟨hu, hk⟩
    · exact .calm _ _ (h1.trans h2)
    · exact .freed _ _ hu hk
  | yield c q hq => exact .calm _ _ (.of_update p rfl rfl rfl (by simp))
  | sleep c q chan hq hk => exact .calm _ _ (calm_sleep s c q chan p)
  | wakeup chan => exact .calm _ _ (calm_wakeup1 s chan p)
  | exit c q _ hq hk he => exact .calm _ _ (calm_exit he p)
  | wait c q hq hk =>
    rcases wait_slot s c q p with h2 | ⟨hu, hk⟩
    · exact .calm _ _ h2
    · exact .freed _ _ hu hk
  | kill c q pid hq hk =>
    unfold kill
    split
    · rename_i r hr
      by_cases hp : p = r
      · subst hp
        obtain rfl : (s.proc p).pid = pid := by simpa using findSlot_some hr
        refine .killed c _ (by simp) ?_
        by_cases hs : (s.proc p).state = .sleeping <;> simp [hs]
      · exact .calm _ _ (.of_proc (by simp [hp]))
    · exact .calm _ _ (.of_proc rfl)
  | fork c q hq hk =>
    unfold fork allocproc
    rcases hr : s.findSlot fun x => x.state == .unused with _ | r
    · exact .calm _ _ (.of_proc rfl)
    · by_cases hp : p = r
      · subst hp
        exact .taken c _ (by simpa using findSlot_some hr) (by simp) (by simp)
      · exact .calm _ _ (.of_proc (by simp [hp]))
  | forkFail c q np hq hk =>
    by_cases hp : p = np
    · subst hp
      exact .dropped c q _ hq hk (by simp [forkFail]) (by simp [forkFail])
    · exact .calm _ _ (.of_proc (by simp [forkFail, hp]))
  | forkCopy c q np hq hk => exact .calm _ _ (.of_update p rfl rfl rfl id)
  | forkDone c q np hq hk => exact .calm _ _ (.of_update p rfl rfl rfl (by simp))
  | exec c q last hq hk => exact .calm _ _ (.of_update p rfl rfl rfl id)
  | fault c q hq hk =>
    by_cases hp : p = q
    · subst hp
      exact .faulted c _ hq (by simp) (by simp)
    · exact .calm _ _ (.of_proc (by simp [hp]))

/-! ## The condition, and the invariant -/

/-- The two slips are avoided in `tr`: no `kill` names the pid that an UNUSED slot still carries,
and no `fork` fails while its EMBRYO is marked killed. -/
structure NamedOnly (tr : List ProcEvent) : Prop where
  kill : ∀ u c pid v s, tr = u ++ .kill c pid :: v → run step start u = .ok s →
    ∀ p, (s.proc p).state = .unused → (s.proc p).pid ≠ pid
  forkFail : ∀ u c v s p np, tr = u ++ .forkFail c :: v → run step start u = .ok s →
    (s.cpu c).proc = some p → s.kont p = .forkAlloc np → (s.proc np).killed = false

theorem NamedOnly.of_append {tr tr' : List ProcEvent} (h : NamedOnly (tr ++ tr')) :
    NamedOnly tr where
  kill u c pid v s htr hrun := h.kill u c pid (v ++ tr') s (by simp [htr]) hrun
  forkFail u c v s p np htr hrun := h.forkFail u c (v ++ tr') s p np (by simp [htr]) hrun

/-- No UNUSED slot is marked killed. -/
theorem run_unused : ∀ (tr : List ProcEvent) (s : ProcSys), run step start tr = .ok s →
    NamedOnly tr → ∀ p, (s.proc p).state = .unused → (s.proc p).killed = false := by
  refine run_history (fun _ p _ => ?_) ?_
  · simp only [start]
    split <;> rfl
  intro tr s s' e hrun ih hs hn p hp
  have ih := ih hn.of_append p
  cases step_slot hs p with
  | calm _ _ h => exact h.killed.trans (ih (h.unused hp))
  | freed _ _ _ hk => exact hk
  | dropped c q _ hq hk _ hkill =>
    exact hkill.trans (hn.forkFail tr c [] s q p rfl hrun hq hk)
  | taken c _ _ hne _ => exact absurd hp hne
  | killed c _ _ hu => exact absurd rfl (hn.kill tr c _ [] s rfl hrun p (hu hp))
  | faulted c _ hc _ hstate =>
    rw [hstate, (run_valid hrun).running c p hc] at hp
    cases hp

/-! ## Who has killed a process -/

/-- From the state after `u` to the end of `tr`, slot `p` is in use under this pid. -/
def Since (tr u : List ProcEvent) (p : Slot) (pid : Int32) : Prop :=
  ∀ w w' s, tr = u ++ w ++ w' → run step start (u ++ w) = .ok s →
    (s.proc p).state ≠ .unused ∧ (s.proc p).pid = pid

variable {pid : Int32}

theorem Since.concat {tr u : List ProcEvent} {s : ProcSys} (h : Since tr u p pid)
    (hrun : run step start (tr ++ [e]) = .ok s) (hs : (s.proc p).state ≠ .unused ∧
    (s.proc p).pid = pid) : Since (tr ++ [e]) u p pid := by
  intro w w' m htr hm
  rcases eq_nil_or_concat w' with rfl | ⟨w'', e', rfl⟩
  · rw [append_nil] at htr
    rw [← htr, hrun] at hm
    cases hm
    exact hs
  · rw [concat_eq_append, ← append_assoc] at htr
    exact h w w'' m (append_inj' htr rfl).1 hm

/-- The run ends in one state, so that is all there is to show after its last event. -/
theorem Since.last {tr : List ProcEvent} {s : ProcSys} (hrun : run step start tr = .ok s)
    (hs : (s.proc p).state ≠ .unused ∧ (s.proc p).pid = pid) : Since tr tr p pid := by
  intro w w' m htr hm
  obtain ⟨rfl, rfl⟩ : w = [] ∧ w' = [] := by simpa [append_assoc] using htr
  rw [append_nil, hrun] at hm
  cases hm
  exact hs

/-- The process in slot `p` has been the target of a `kill` with its own pid, issued when it was
in the slot already. -/
def KilledByName (tr : List ProcEvent) (p : Slot) (pid : Int32) : Prop :=
  ∃ u c v, tr = u ++ .kill c pid :: v ∧ Since tr u p pid

/-- The process in slot `p` has faulted. -/
def Faulted (tr : List ProcEvent) (p : Slot) (pid : Int32) : Prop :=
  ∃ u c v s, tr = u ++ .fault c :: v ∧ run step start u = .ok s ∧ (s.cpu c).proc = some p ∧
    Since tr u p pid

/-- A process marked killed has been killed by name, or has faulted. -/
theorem run_killed : ∀ (tr : List ProcEvent) (s : ProcSys), run step start tr = .ok s →
    NamedOnly tr → ∀ p, (s.proc p).state ≠ .unused → (s.proc p).killed = true →
      KilledByName tr p (s.proc p).pid ∨ Faulted tr p (s.proc p).pid := by
  refine run_history (fun _ p _ hk => ?_) ?_
  · simp only [start] at hk
    split at hk <;> cases hk
  intro tr s s' e hrun ih hs hn p hp hk
  have hrun' : run step start (tr ++ [e]) = .ok s' := run_concat_ok.mpr ⟨s, hrun, hs⟩
  have hunused := run_unused tr s hrun hn.of_append p
  cases step_slot hs p with
  | calm _ _ h =>
    rw [h.killed] at hk
    have hin : (s.proc p).state ≠ .unused := fun hu => by rw [hunused hu] at hk; cases hk
    have hs' := And.intro hp h.pid
    rw [h.pid]
    rcases ih hn.of_append p hin hk with ⟨u, c, v, htr, hsince⟩ | ⟨u, c, v, m, htr, hm, hc, hsince⟩
    · exact .inl ⟨u, c, v ++ [e], by simp [htr], hsince.concat hrun' hs'⟩
    · exact .inr ⟨u, c, v ++ [e], m, by simp [htr], hm, hc, hsince.concat hrun' hs'⟩
  | freed _ _ hu _ => exact absurd hu hp
  | dropped c q _ _ _ hu _ => exact absurd hu hp
  | taken c _ hu _ hkill =>
    rw [hkill, hunused hu] at hk
    cases hk
  | killed c _ hpid hu =>
    have hin : (s.proc p).state ≠ .unused := fun hu' =>
      hn.kill tr c _ [] s rfl hrun p hu' rfl
    rw [hpid]
    exact .inl ⟨tr, c, [], rfl, (Since.last hrun ⟨hin, rfl⟩).concat hrun' ⟨hp, hpid⟩⟩
  | faulted c _ hc hpid hstate =>
    have hin : (s.proc p).state ≠ .unused := by
      rw [(run_valid hrun).running c p hc]
      simp
    rw [hpid]
    exact .inr ⟨tr, c, [], s, rfl, hrun, hc, (Since.last hrun ⟨hin, rfl⟩).concat hrun' ⟨hp, hpid⟩⟩

/-- `kill` finds a pid wherever it stands. -/
theorem kill_eq_zero_iff (s : ProcSys) (pid : Int32) :
    (s.kill pid).2 = 0 ↔ ∃ p, (s.proc p).pid = pid := by
  unfold kill
  rcases hf : s.findSlot fun x => x.pid == pid with _ | p
  · refine ⟨by simp, ?_⟩
    rintro ⟨p, hp⟩
    have := findSlot_none hf p
    simp [hp] at this
  · exact ⟨fun _ => ⟨p, by simpa using findSlot_some hf⟩, fun _ => rfl⟩

/-- **Killing by name.** In every run in which no `kill` names the pid of an UNUSED slot and no
`fork` gives up a killed EMBRYO: every `kill` returns 0 exactly when a process in use has the pid,
every slot that `fork` takes for a new process is not marked killed, and every process that is
marked killed has been the target of a `kill` with its own pid since it was created, unless it
has faulted. -/
theorem killed_by_name (tr : List ProcEvent) (s : ProcSys) (hrun : run step start tr = .ok s)
    (hn : NamedOnly tr) :
    (∀ u c pid v m, tr = u ++ .kill c pid :: v → run step start u = .ok m →
      ((m.kill pid).2 = 0 ↔ ∃ p, (m.proc p).state ≠ .unused ∧ (m.proc p).pid = pid)) ∧
    (∀ u c v m m' p np, tr = u ++ .fork c :: v → run step start u = .ok m →
      run step start (u ++ [.fork c]) = .ok m' → (m.cpu c).proc = some p →
      m'.kont p = .forkAlloc np → (m'.proc np).killed = false) ∧
    (∀ p, (s.proc p).state ≠ .unused → (s.proc p).killed = true →
      ¬ Faulted tr p (s.proc p).pid → KilledByName tr p (s.proc p).pid) := by
  refine ⟨fun u c pid v m htr hm => ?_, fun u c v m m' p np htr hm hm' hp hk => ?_,
    fun p hp hk hf => (run_killed tr s hrun hn p hp hk).resolve_right hf⟩
  · rw [kill_eq_zero_iff]
    constructor
    · rintro ⟨p, hpid⟩
      exact ⟨p, fun hu => hn.kill u c pid v m htr hm p hu hpid, hpid⟩
    · rintro ⟨p, -, hpid⟩
      exact ⟨p, hpid⟩
  · subst htr
    obtain ⟨m1, hm1, hs⟩ := run_concat_ok.mp hm'
    obtain rfl : m = m1 := Except.ok.inj (hm.symm.trans hm1)
    -- the slot was UNUSED
    have hunused := run_unused u m hm hn.of_append np
    cases step_trans hs with
    | fork _ q hq hkq =>
      obtain rfl : p = q := Option.some.inj (hp.symm.trans hq)
      unfold fork allocproc at hk ⊢
      rcases hf : m.findSlot fun x => x.state == .unused with _ | r
      · rw [hf] at hk
        simp [hkq] at hk
      · rw [hf] at hk
        obtain rfl : r = np := by simpa using hk
        simpa using hunused (by simpa using findSlot_some hf)

/-- `init` forks, and kills the child by its pid. -/
theorem killed_by_name_child :
    KilledByName [.round 0, .fork 0, .forkCopy 0, .forkDone 0, .kill 0 2] 1 2 := by
  have hsplit : ∀ u e v, [.round 0, .fork 0, .forkCopy 0, .forkDone 0, .kill 0 2] =
      u ++ (e : ProcEvent) :: v → (∀ c, e ≠ .forkFail c) ∧
        ∀ c pid, e = .kill c pid → u = [.round 0, .fork 0, .forkCopy 0, .forkDone 0] ∧ pid = 2 := by
    intro u e v h
    rcases u with _ | ⟨_, _ | ⟨_, _ | ⟨_, _ | ⟨_, _ | ⟨_, u⟩⟩⟩⟩⟩ <;>
      first
      | (cases h; exact ⟨by simp, fun c pid hk => ⟨rfl, (ProcEvent.kill.inj hk).2.symm⟩⟩)
      | (cases h; exact ⟨by simp, by simp⟩)
      | simp at h
  have hall := killed_by_name [.round 0, .fork 0, .forkCopy 0, .forkDone 0, .kill 0 2] _ rfl
    ⟨?_, ?_⟩
  · refine hall.2.2 1 (by decide) (by decide) ?_
    rintro ⟨u, c, v, s, htr, -⟩
    rcases u with _ | ⟨_, _ | ⟨_, _ | ⟨_, _ | ⟨_, _ | ⟨_, u⟩⟩⟩⟩⟩ <;> simp at htr
  · intro u c pid v s htr hrun
    obtain ⟨rfl, rfl⟩ := (hsplit u _ v htr).2 c pid rfl
    cases hrun
    decide
  · intro u c v s p np htr
    exact absurd rfl ((hsplit u _ v htr).1 c)

/-- `kill(0)` finds an UNUSED slot and returns 0, though no process has pid 0; the next child is
created in that slot, and is killed from its first moment. -/
theorem fork_killed : ∃ s s', run step start [.round 0] = .ok s ∧ (s.kill 0).2 = 0 ∧
      (∀ p, (s.proc p).state ≠ .unused → (s.proc p).pid ≠ 0) ∧
      run step start [.round 0, .kill 0 0, .fork 0, .forkCopy 0, .forkDone 0] = .ok s' ∧
      (s'.proc 1).state = .runnable ∧ (s'.proc 1).pid = 2 ∧ (s'.proc 1).killed = true :=
  ⟨_, _, rfl, by decide, by decide, rfl, by decide, by decide, by decide⟩

end ProcSys

end Xv6
