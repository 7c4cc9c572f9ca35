import Xv6.Kill

/-!
# Parents, `exit` and `wait`

The family tree in the process table: `fork` makes the caller the parent of the new process,
`exit` hands the children of the process over to `initproc` and wakes whoever may have to reap
one, and `wait` reaps.

* `Family` is the invariant: every process in use but `initproc` has a parent, every parent is
  alive, and who sleeps in `wait` has no ZOMBIE child. It holds in every state reached
  (`run_family`), whatever the lottery draws;
* `Reaps` says that a `wait` returns with a pid, and `zombie_step` that **this is the only way in
  which a ZOMBIE disappears**;
* `Descends` traces a process back to the `fork` that made it: its parent is the process that
  called this `fork`, or `initproc` if that has exited since, and it has not been reaped since;
* `exit_wait` is the conclusion for whole runs.
-/

namespace Xv6

open Function List

/-- The process exists, and has not exited. -/
def ProcState.alive : ProcState → Bool
  | .sleeping | .runnable | .running => true
  | _ => false

namespace ProcSys

/-- `fork` has finished with the process in this slot. -/
def Forked (s : ProcSys) (p : Slot) : Prop :=
  (s.proc p).state ≠ .unused ∧ (s.proc p).state ≠ .embryo

/-- The family tree. -/
structure Family (s : ProcSys) : Prop where
  init : (s.proc initproc).state.alive = true
  root : (s.proc initproc).parent = none
  alive : ∀ q p, (s.proc q).parent = some p → (s.proc p).state.alive = true
  irrefl : ∀ q, (s.proc q).parent ≠ some q
  orphan : ∀ q, q ≠ initproc → (s.proc q).parent = none → ¬ s.Forked q
  unused : ∀ q, (s.proc q).state = .unused → (s.proc q).parent = none
  forkAlloc : ∀ p np, s.kont p = .forkAlloc np → (s.proc np).parent = none
  forkCopied : ∀ p np, s.kont p = .forkCopied np → (s.proc np).parent = some p
  exited : ∀ p, (s.proc p).state = .zombie → s.kont p = .exited
  waiting : ∀ p, (s.proc p).state = .sleeping → s.kont p = .waiting →
    (s.proc p).chan = some (.proc p) ∧
      ∀ q, (s.proc q).parent = some p → (s.proc q).state ≠ .zombie

variable {s s' : ProcSys} {c : ℕ} {p q np : Slot}

/-- Nobody is born or dies or gets another parent, and nobody falls asleep in `wait`. -/
theorem Family.calm (h : Family s) (hparent : ∀ q, (s'.proc q).parent = (s.proc q).parent)
    (hstate : ∀ q, (s'.proc q).state = (s.proc q).state ∨
      (s.proc q).state.alive = true ∧ (s'.proc q).state.alive = true)
    (hkont : ∀ q, s'.kont q = s.kont q ∨ s'.kont q = .user ∧ (s.proc q).state.alive = true)
    (hwait : ∀ q, (s'.proc q).state = .sleeping → s'.kont q = .waiting →
      (s.proc q).state = .sleeping ∧ (s'.proc q).chan = (s.proc q).chan) : Family s' := by
  have halive : ∀ q, (s.proc q).state.alive = true → (s'.proc q).state.alive = true := by
    intro q hq
    rcases hstate q with he | he
    · rwa [he]
    · exact he.2
  have hdead : ∀ q, (s'.proc q).state.alive = false → (s'.proc q).state = (s.proc q).state := by
    intro q hq
    rcases hstate q with he | he
    · exact he
    · cases hq.symm.trans he.2
  refine ⟨halive _ h.init, (hparent _).trans h.root, fun q p hq => ?_, fun q => ?_,
    fun q hq hp hf => ?_, fun q hq => ?_,
    fun p np hk => ?_, fun p np hk => ?_, fun p hz => ?_, fun p hs hk => ?_⟩
  · rw [hparent] at hq
    exact halive p (h.alive q p hq)
  · rw [hparent]
    exact h.irrefl q
  · rw [hparent] at hp
    refine h.orphan q hq hp ⟨fun hu => ?_, fun hu => ?_⟩
    · rcases hstate q with he | he
      · exact hf.1 (he.trans hu)
      · rw [hu] at he
        cases he.1
    · rcases hstate q with he | he
      · exact hf.2 (he.trans hu)
      · rw [hu] at he
        cases he.1
  · rw [hparent]
    exact h.unused q ((hdead q (by rw [hq]; rfl)).symm.trans hq)
  · rw [hparent]
    rcases hkont p with he | he
    · exact h.forkAlloc p np (he ▸ hk)
    · cases he.1.symm.trans hk
  · rw [hparent]
    rcases hkont p with he | he
    · exact h.forkCopied p np (he ▸ hk)
    · cases he.1.symm.trans hk
  · have hz' := (hdead p (by rw [hz]; rfl)).symm.trans hz
    rcases hkont p with he | he
    · exact he.trans (h.exited p hz')
    · rw [hz'] at he
      cases he.2
  · obtain ⟨hs', hchan⟩ := hwait p hs hk
    have hk' : s.kont p = .waiting := by
      rcases hkont p with he | he
      · exact he ▸ hk
      · cases he.1.symm.trans hk
    obtain ⟨hc, hz⟩ := h.waiting p hs' hk'
    refine ⟨hchan.trans hc, fun q hq hzq => hz q (hparent q ▸ hq) ?_⟩
    exact (hdead q (by rw [hzq]; rfl)).symm.trans hzq

variable {x : Proc}

/-- Only fields that do not matter for the family change, or the state of a live process. -/
theorem Family.setProc (h : Family s) (hparent : x.parent = (s.proc p).parent)
    (hstate : x.state = (s.proc p).state ∨ (s.proc p).state.alive = true ∧ x.state.alive = true)
    (hwait : x.state = .sleeping → s.kont p = .waiting →
      (s.proc p).state = .sleeping ∧ x.chan = (s.proc p).chan) : Family (s.setProc p x) := by
  refine h.calm (fun q => ?_) (fun q => ?_) (fun q => .inl rfl) fun q hs hk => ?_
  · rcases eq_or_ne q p with rfl | hq
    · simpa using hparent
    · simp [hq]
  · rcases eq_or_ne q p with rfl | hq
    · simpa using hstate
    · simp [hq]
  · rcases eq_or_ne q p with rfl | hq
    · simpa using hwait (by simpa using hs) hk
    · simpa [hq] using hs

/-- The CPUs do not matter. -/
theorem Family.congr (h : Family s) (hproc : s'.proc = s.proc) (hkont : s'.kont = s.kont) :
    Family s' :=
  h.calm (fun q => by rw [hproc]) (fun q => .inl (by rw [hproc])) (fun q => .inl (by rw [hkont]))
    fun q hs _ => ⟨by rwa [hproc] at hs, by rw [hproc]⟩

/-- Some processes have been woken up. -/
theorem Family.woken (h : Family s) (hw : Woken s s')
    (hparent : ∀ q, (s'.proc q).parent = (s.proc q).parent)
    (hchan : ∀ q, (s'.proc q).chan = (s.proc q).chan) : Family s' := by
  refine h.calm hparent (fun q => ?_) (fun q => .inl (by rw [hw.2.1])) fun q hs _ => ?_
  · rcases hw.2.2 q with he | ⟨he, he'⟩
    · exact .inl he
    · exact .inr ⟨by rw [he]; rfl, by rw [he']; rfl⟩
  · rcases hw.2.2 q with he | ⟨-, he'⟩
    · exact ⟨he ▸ hs, hchan q⟩
    · cases he'.symm.trans hs

/-! ## `exit` -/

/-- What handing over the children does, as far as it has come through the slots in `l`. -/
structure HandedOver (s : ProcSys) (p : Slot) (l : List Slot) (s' : ProcSys) : Prop where
  woken : Woken s s'
  chan : ∀ q, (s'.proc q).chan = (s.proc q).chan
  parent : ∀ q, (s'.proc q).parent =
    if q ∈ l ∧ (s.proc q).parent = some p then some initproc else (s.proc q).parent
  init : (∃ q ∈ l, (s.proc q).parent = some p ∧ (s.proc q).state = .zombie) →
    (s.proc initproc).chan = some (.proc initproc) → (s'.proc initproc).state ≠ .sleeping

variable {chan : Chan}

theorem wakeup1_not_sleeping (hq : (s.proc q).chan = some chan) :
    ((s.wakeup1 chan).proc q).state ≠ .sleeping := by
  simp only [wakeup1]
  split <;> simp_all

theorem wakeup1_chan : ((s.wakeup1 chan).proc q).chan = (s.proc q).chan := by
  simp only [wakeup1]
  split <;> rfl

theorem wakeup1_parent : ((s.wakeup1 chan).proc q).parent = (s.proc q).parent := by
  simp only [wakeup1]
  split <;> rfl

/-- Nobody falls asleep by being woken. -/
theorem Woken.not_sleeping (h : Woken s s') (hq : (s.proc q).state ≠ .sleeping) :
    (s'.proc q).state ≠ .sleeping := by
  rcases h.2.2 q with he | ⟨he, -⟩
  · rwa [he]
  · exact absurd he hq

/-- A ZOMBIE stays one when others are woken. -/
theorem Woken.zombie (h : Woken s s') : (s'.proc q).state = .zombie ↔
    (s.proc q).state = .zombie := by
  rcases h.2.2 q with he | ⟨he, he'⟩
  · rw [he]
  · simp [he, he']

/-- One slot of the loop of `exit`. -/
def handOver (p : Slot) (s : ProcSys) (q : Slot) : ProcSys :=
  if (s.proc q).parent = some p then
    let s := s.setProc q { s.proc q with parent := some initproc }
    if (s.proc q).state = .zombie then s.wakeup1 (.proc initproc) else s
  else s

theorem reparent_eq : s.reparent p = (List.finRange NPROC).foldl (handOver p) s := rfl

/-- The slot of a child. -/
theorem handOver_child (hq : (s.proc q).parent = some p) :
    Woken s (handOver p s q) ∧ (∀ r, ((handOver p s q).proc r).chan = (s.proc r).chan) ∧
      (∀ r, ((handOver p s q).proc r).parent =
        if r = q then some initproc else (s.proc r).parent) ∧
      ((s.proc q).state = .zombie → (s.proc initproc).chan = some (.proc initproc) →
        ((handOver p s q).proc initproc).state ≠ .sleeping) := by
  obtain ⟨t, ht⟩ : ∃ t, t = s.setProc q { s.proc q with parent := some initproc } := ⟨_, rfl⟩
  have hwoken : Woken s t := ht ▸ .setProc s q rfl
  have hchan : ∀ r, (t.proc r).chan = (s.proc r).chan := by
    intro r
    rcases eq_or_ne r q with rfl | hr
    · simp [ht]
    · simp [ht, hr]
  have hparent : ∀ r, (t.proc r).parent = if r = q then some initproc else (s.proc r).parent := by
    intro r
    rcases eq_or_ne r q with rfl | hr
    · simp [ht]
    · simp [ht, hr]
  have heq : handOver p s q =
      if (t.proc q).state = .zombie then t.wakeup1 (.proc initproc) else t := by
    rw [handOver, if_pos hq, ht]
  rw [heq]
  split
  · exact ⟨hwoken.trans (woken_wakeup1 t _), fun r => wakeup1_chan.trans (hchan r),
      fun r => wakeup1_parent.trans (hparent r),
      fun _ hinit => wakeup1_not_sleeping ((hchan _).trans hinit)⟩
  case isFalse hz =>
    exact ⟨hwoken, hchan, hparent, fun hz' => absurd (hwoken.zombie.mpr hz') hz⟩

theorem HandedOver.cons {l : List Slot} (hp : p ≠ initproc)
    (h : HandedOver (handOver p s q) p l s') : HandedOver s p (q :: l) s' := by
  by_cases hq : (s.proc q).parent = some p
  · obtain ⟨hw, hc, hpar, hinit⟩ := handOver_child hq
    refine ⟨hw.trans h.woken, fun r => (h.chan r).trans (hc r), fun r => ?_, ?_⟩
    · rw [h.parent r, hpar r]
      rcases eq_or_ne r q with rfl | hr
      · simp [hq, Ne.symm hp]
      · simp [hr]
    rintro ⟨r, hr, hrp, hz⟩ hchan
    rcases eq_or_ne r q with rfl | hne
    · exact h.woken.not_sleeping (hinit hz hchan)
    · have hmem : r ∈ l := (mem_cons.mp hr).resolve_left hne
      refine h.init ⟨r, hmem, ?_, hw.zombie.mpr hz⟩ ((hc _).trans hchan)
      rw [hpar r, if_neg hne, hrp]
  · have heq : handOver p s q = s := if_neg hq
    rw [heq] at h
    refine ⟨h.woken, h.chan, fun r => ?_, ?_⟩
    · rw [h.parent r]
      rcases eq_or_ne r q with rfl | hr
      · simp [hq]
      · simp [hr]
    rintro ⟨r, hr, hrp, hz⟩ hchan
    have hne : r ≠ q := by
      rintro rfl
      exact hq hrp
    exact h.init ⟨r, (mem_cons.mp hr).resolve_left hne, hrp, hz⟩ hchan

theorem handedOver_foldl (hp : p ≠ initproc) (l : List Slot) :
    ∀ s, HandedOver s p l (l.foldl (handOver p) s) := by
  induction l with
  | nil => exact fun s => ⟨.refl s, fun _ => rfl, by simp, by simp⟩
  | cons q l ih => exact fun s => (ih (handOver p s q)).cons hp

/-- What `exit` leaves behind. -/
structure Exited (s : ProcSys) (p : Slot) (s' : ProcSys) : Prop where
  ne_init : p ≠ initproc
  kont : s'.kont = update s.kont p .exited
  zombie : (s'.proc p).state = .zombie
  state : ∀ q, q ≠ p → (s'.proc q).state = (s.proc q).state ∨
    (s.proc q).state = .sleeping ∧ (s'.proc q).state = .runnable
  chan : ∀ q, (s'.proc q).chan = (s.proc q).chan
  parent : ∀ q, (s'.proc q).parent =
    if (s.proc q).parent = some p then some initproc else (s.proc q).parent
  /-- the parent does not sleep on -/
  woken : ∀ r, r ≠ p → (s.proc p).parent = some r → (s.proc r).chan = some (.proc r) →
    (s'.proc r).state ≠ .sleeping
  /-- nor does `initproc`, if it gets a child to reap -/
  init : (∃ q, (s.proc q).parent = some p ∧ (s.proc q).state = .zombie) →
    (s.proc initproc).chan = some (.proc initproc) → (s'.proc initproc).state ≠ .sleeping

theorem handedOver_reparent (hp : p ≠ initproc) :
    HandedOver s p (List.finRange NPROC) (s.reparent p) := by
  rw [reparent_eq]
  exact handedOver_foldl hp _ s

/-- `exit` after it has woken the parent: `t` is the table then, `u` the one with the children
handed over. -/
theorem exited_of_woken {t u : ProcSys} (hp : p ≠ initproc) (hwoken : Woken s t)
    (hchan : ∀ q, (t.proc q).chan = (s.proc q).chan)
    (hparent : ∀ q, (t.proc q).parent = (s.proc q).parent)
    (hpar : ∀ r, (s.proc p).parent = some r → (s.proc r).chan = some (.proc r) →
      (t.proc r).state ≠ .sleeping) (hover : HandedOver t p (List.finRange NPROC) u) :
    Exited s p (((u.setProc p { u.proc p with state := .zombie }).sched c).setKont p .exited) := by
  have hall := hwoken.trans hover.woken
  refine ⟨hp, ?_, by simp, fun q hq => ?_, fun q => ?_, fun q => ?_, fun r hr hpr hc => ?_, ?_⟩
  · show update u.kont p .exited = _
    rw [hall.2.1]
  · simpa [hq] using hall.2.2 q
  · have := (hover.chan q).trans (hchan q)
    rcases eq_or_ne q p with rfl | hq
    · simpa using this
    · simpa [hq] using this
  · have := hover.parent q
    rw [hparent] at this
    simp only [mem_finRange, true_and] at this
    rcases eq_or_ne q p with rfl | hq
    · simpa using this
    · simpa [hq] using this
  · simpa [hr] using hover.woken.not_sleeping (hpar r hpr hc)
  · rintro ⟨q, hq, hz⟩ hc
    have := hover.init ⟨q, mem_finRange q, (hparent q).trans hq, hwoken.zombie.mpr hz⟩
      ((hchan _).trans hc)
    simpa [Ne.symm hp] using this

theorem exit_spec (h : s.exit c p = .ok s') : Exited s p s' := by
  rw [exit] at h
  split at h
  · cases h
  case isFalse hp =>
  rcases hpar : (s.proc p).parent with _ | r <;> simp only [hpar] at h <;>
    cases h
  · refine exited_of_woken hp (.refl s) (fun _ => rfl) (fun _ => rfl) (fun r hr => ?_)
      (handedOver_reparent hp)
    cases hpar.symm.trans hr
  · refine exited_of_woken hp (woken_wakeup1 s _) (fun _ => wakeup1_chan)
      (fun _ => wakeup1_parent) (fun r' hr hc => ?_) (handedOver_reparent hp)
    obtain rfl := Option.some.inj (hpar.symm.trans hr)
    exact wakeup1_not_sleeping hc

theorem Family.exit (h : Family s) (hp : (s.proc p).state = .running) (hk : s.kont p = .user)
    (he : Exited s p s') : Family s' := by
  -- the states of the others, as far as the family goes
  have hstate : ∀ q, q ≠ p → (s.proc q).state.alive = false →
      (s'.proc q).state = (s.proc q).state := by
    intro q hq hd
    refine (he.state q hq).resolve_right fun hs => ?_
    rw [hs.1] at hd
    cases hd
  have halive : ∀ q, q ≠ p → (s.proc q).state.alive = true → (s'.proc q).state.alive = true := by
    intro q hq ha
    rcases he.state q hq with hs | hs
    · rwa [hs]
    · rw [hs.2]
      rfl
  have hback : ∀ q, (s'.proc q).state.alive = false → q ≠ p →
      (s'.proc q).state = (s.proc q).state := by
    intro q hd hq
    refine (he.state q hq).resolve_right fun hs => ?_
    rw [hs.2] at hd
    cases hd
  have hkont : ∀ q, q ≠ p → s'.kont q = s.kont q := fun q hq => by simp [he.kont, hq]
  have hparent : ∀ q r, r ≠ p → (s.proc q).parent = some r → (s'.proc q).parent = some r := by
    intro q r hr hq
    rw [he.parent, hq, if_neg (by simpa using hr)]
  have hparent' : ∀ q r, (s'.proc q).parent = some r →
      (s.proc q).parent = some r ∧ r ≠ p ∨ (s.proc q).parent = some p ∧ r = initproc := by
    intro q r hq
    rw [he.parent] at hq
    split at hq
    case isTrue hqp => exact .inr ⟨hqp, (Option.some.inj hq).symm⟩
    case isFalse hqp => exact .inl ⟨hq, by rintro rfl; exact hqp hq⟩
  refine ⟨halive _ (Ne.symm he.ne_init) h.init, by rw [he.parent, h.root]; simp, fun q r hq => ?_,
    fun q hq => ?_,
    fun q hq hn hf => ?_, fun q hu => ?_, fun r np hr => ?_, fun r np hr => ?_, fun q hz => ?_,
    fun r hs hr => ?_⟩
  · rcases hparent' q r hq with ⟨hq, hr⟩ | ⟨-, rfl⟩
    · exact halive r hr (h.alive q r hq)
    · exact halive _ (Ne.symm he.ne_init) h.init
  · rcases hparent' q q hq with ⟨hq, -⟩ | ⟨hqp, rfl⟩
    · exact h.irrefl q hq
    · cases hqp.symm.trans h.root
  · have hn' : (s.proc q).parent = none := by
      rw [he.parent] at hn
      split at hn
      · cases hn
      · exact hn
    have hne : q ≠ p := by
      rintro rfl
      exact h.orphan q hq hn' ⟨by simp [hp], by simp [hp]⟩
    have hnot := h.orphan q hq hn'
    have hd : (s.proc q).state.alive = false := by
      by_contra ha
      exact hnot ⟨fun hs => ha (by rw [hs]; rfl), fun hs => ha (by rw [hs]; rfl)⟩
    have := hstate q hne hd
    exact hnot ⟨this ▸ hf.1, this ▸ hf.2⟩
  · have hne : q ≠ p := by
      rintro rfl
      cases he.zombie.symm.trans hu
    have hu' := (hback q (by rw [hu]; rfl) hne).symm.trans hu
    rw [he.parent, h.unused q hu']
    simp
  · have hne : r ≠ p := by
      rintro rfl
      simp [he.kont] at hr
    rw [he.parent, h.forkAlloc r np (hkont r hne ▸ hr)]
    simp
  · have hne : r ≠ p := by
      rintro rfl
      simp [he.kont] at hr
    exact hparent np r hne (h.forkCopied r np (hkont r hne ▸ hr))
  · rcases eq_or_ne q p with rfl | hne
    · simp [he.kont]
    · rw [hkont q hne]
      exact h.exited q ((hback q (by rw [hz]; rfl) hne).symm.trans hz)
  · have hne : r ≠ p := by
      rintro rfl
      cases he.zombie.symm.trans hs
    have hs' : (s.proc r).state = .sleeping := by
      rcases he.state r hne with hs' | hs'
      · exact hs'.symm.trans hs
      · cases hs'.2.symm.trans hs
    obtain ⟨hc, hz⟩ := h.waiting r hs' (hkont r hne ▸ hr)
    refine ⟨(he.chan r).trans hc, fun q hq hzq => ?_⟩
    rcases eq_or_ne q p with rfl | hqp
    · -- the process itself: its parent has been woken
      rcases hparent' q r hq with ⟨hq, -⟩ | ⟨hq, -⟩
      · exact he.woken r hne hq hc hs
      · exact h.irrefl q hq
    have hzq' := (hback q (by rw [hzq]; rfl) hqp).symm.trans hzq
    rcases hparent' q r hq with ⟨hqr, -⟩ | ⟨hchild, rfl⟩
    · exact hz q hqr hzq'
    · -- a ZOMBIE has been handed over: `initproc` has been woken
      exact he.init ⟨q, hchild, hzq'⟩ hc hs

/-! ## `wait` -/

/-- The ZOMBIE child that `wait` by `p` finds, and the pid that it returns then. -/
def waitFinds (s : ProcSys) (p : Slot) : Option (Slot × Int32) :=
  (s.findSlot fun x => x.parent == some p && x.state == .zombie).map fun q => (q, (s.proc q).pid)

variable {pid : Int32}

theorem waitFinds_some (h : s.waitFinds p = some (q, pid)) :
    (s.proc q).parent = some p ∧ (s.proc q).state = .zombie ∧ (s.proc q).pid = pid := by
  obtain ⟨r, hr, heq⟩ := Option.map_eq_some_iff.mp h
  obtain ⟨rfl, rfl⟩ := Prod.mk.inj heq
  have := findSlot_some hr
  simp only [Bool.and_eq_true, beq_iff_eq] at this
  exact ⟨this.1, this.2, rfl⟩

theorem waitFinds_none (h : s.waitFinds p = none) (hq : (s.proc q).parent = some p) :
    (s.proc q).state ≠ .zombie := by
  have := findSlot_none (Option.map_eq_none_iff.mp h) q
  simpa [hq] using this

/-- What one pass of `wait` does: it reaps the child it finds, returns -1, or sleeps. -/
theorem wait_cases (s : ProcSys) (c : ℕ) (p : Slot) :
    (∃ q pid, s.waitFinds p = some (q, pid) ∧ s.wait c p = (s.reap q).setKont p .user) ∨
      (s.waitFinds p = none ∧ (s.wait c p = s.setKont p .user ∨
        s.wait c p = (s.sleep c p (.proc p)).setKont p .waiting)) := by
  rw [wait]
  split
  case h_1 q hq => exact .inl ⟨q, _, by rw [waitFinds, hq]; rfl, rfl⟩
  case h_2 hq =>
    refine .inr ⟨by rw [waitFinds, hq]; rfl, ?_⟩
    split
    · exact .inl rfl
    · exact .inr rfl

section

variable (h : Family s)

include h

/-- **One slot changes**, and with it where the processes are: what has to be shown of it. Nobody
dies this way and nobody becomes a ZOMBIE. -/
theorem Family.edit (hproc : s'.proc = update s.proc q x)
    (halive : (s.proc q).state.alive = true → x.state.alive = true)
    (hparent : ∀ r, x.parent = some r → (s.proc r).state.alive = true ∧ r ≠ q)
    (hroot : q = initproc → x.parent = none)
    (horphan : q ≠ initproc → x.parent = none → x.state = .unused ∨ x.state = .embryo)
    (hunused : x.state = .unused → x.parent = none) (hzombie : x.state ≠ .zombie)
    (hkont : ∀ r, (s.proc r).state = .zombie → r ≠ q → s'.kont r = s.kont r)
    (hAlloc : ∀ r np, s'.kont r = .forkAlloc np → (s'.proc np).parent = none)
    (hCopied : ∀ r np, s'.kont r = .forkCopied np → (s'.proc np).parent = some r)
    (hwait : ∀ r, s'.kont r = .waiting → (s'.proc r).state = .sleeping →
      (s'.proc r).chan = some (.proc r) ∧
        ∀ y, (s.proc y).parent = some r → (s.proc y).state ≠ .zombie) : Family s' := by
  have hother : ∀ r, r ≠ q → s'.proc r = s.proc r := fun r hr => by simp [hproc, hr]
  have hself : s'.proc q = x := by simp [hproc]
  have hlive : ∀ r, (s.proc r).state.alive = true → (s'.proc r).state.alive = true := by
    intro r ha
    rcases eq_or_ne r q with rfl | hr
    · rw [hself]
      exact halive ha
    · rwa [hother r hr]
  refine ⟨hlive _ h.init, ?_, fun r y hr => ?_, fun r hr => ?_, fun r hr hn hf => ?_,
    fun r hu => ?_, hAlloc, hCopied, fun r hz => ?_, fun r hs hk => ?_⟩
  · rcases eq_or_ne q initproc with rfl | hq
    · rw [hself]
      exact hroot rfl
    · rw [hother _ (Ne.symm hq)]
      exact h.root
  · refine hlive y ?_
    rcases eq_or_ne r q with rfl | hrq
    · rw [hself] at hr
      exact (hparent y hr).1
    · rw [hother r hrq] at hr
      exact h.alive r y hr
  · rcases eq_or_ne r q with rfl | hrq
    · rw [hself] at hr
      exact (hparent r hr).2 rfl
    · rw [hother r hrq] at hr
      exact h.irrefl r hr
  · rcases eq_or_ne r q with rfl | hrq
    · rw [hself] at hn
      rw [Forked, hself] at hf
      exact (horphan hr hn).elim hf.1 hf.2
    · rw [hother r hrq] at hn
      rw [Forked, hother r hrq] at hf
      exact h.orphan r hr hn hf
  · rcases eq_or_ne r q with rfl | hrq
    · rw [hself] at hu ⊢
      exact hunused hu
    · rw [hother r hrq] at hu ⊢
      exact h.unused r hu
  · rcases eq_or_ne r q with rfl | hrq
    · rw [hself] at hz
      exact absurd hz hzombie
    · rw [hother r hrq] at hz
      rw [hkont r hz hrq]
      exact h.exited r hz
  · obtain ⟨hc, hall⟩ := hwait r hk hs
    refine ⟨hc, fun y hy => ?_⟩
    rcases eq_or_ne y q with rfl | hyq
    · rw [hself]
      exact hzombie
    · rw [hother y hyq] at hy ⊢
      exact hall y hy

/-- Where a process is has changed, and it is outside `fork`, `wait` and `exit`. -/
theorem Family.setUser (hp : (s.proc p).state.alive = true) : Family (s.setKont p .user) := by
  refine h.calm (fun _ => rfl) (fun _ => .inl rfl) (fun q => ?_) fun q hs _ => ⟨hs, rfl⟩
  rcases eq_or_ne q p with rfl | hq
  · exact .inr ⟨by simp, hp⟩
  · exact .inl (by simp [hq])

theorem Family.reap (hv : Valid s) (hz : (s.proc q).state = .zombie) : Family (s.reap q) := by
  have hkont : ∀ r, (s.reap q).kont r = if r = q then .none else s.kont r := by
    intro r
    rcases eq_or_ne r q with rfl | hr
    · simp [ProcSys.reap]
    · simp [ProcSys.reap, hr]
  -- a child in the making is an EMBRYO
  have hchild : ∀ r np, (s.kont r).child = some np → np ≠ q := by
    rintro r np hr rfl
    cases hz.symm.trans (hv.embryo r np hr)
  refine h.edit rfl (by simp [hz, ProcState.alive]) (by simp) (fun _ => rfl) (fun _ _ => .inl rfl)
    (fun _ => rfl) (by simp) (fun r _ hr => by simp [hkont, hr]) (fun r np hr => ?_)
    (fun r np hr => ?_) fun r hr hs => ?_
  · rw [hkont] at hr
    split at hr
    · cases hr
    · simpa [ProcSys.reap, hchild r np (by rw [hr]; rfl)] using h.forkAlloc r np hr
  · rw [hkont] at hr
    split at hr
    · cases hr
    · simpa [ProcSys.reap, hchild r np (by rw [hr]; rfl)] using h.forkCopied r np hr
  · rw [hkont] at hr
    split at hr
    · cases hr
    case isFalse hrq =>
      have hsame : (s.reap q).proc r = s.proc r := by simp [ProcSys.reap, hrq]
      rw [hsame] at hs ⊢
      exact h.waiting r hs hr

/-- `wait` by a process that runs. -/
theorem Family.wait (hv : Valid s) (hp : (s.proc p).state = .running) : Family (s.wait c p) := by
  obtain ⟨q, pid, hq, heq⟩ | ⟨hno, heq | heq⟩ := wait_cases s c p <;> rw [heq]
  · obtain ⟨-, hz, -⟩ := waitFinds_some hq
    have hpq : p ≠ q := by
      rintro rfl
      cases hp.symm.trans hz
    exact (h.reap hv hz).setUser (by simp [ProcSys.reap, hpq, hp, ProcState.alive])
  · exact h.setUser (by rw [hp]; rfl)
  -- nobody was found, so there is nothing to sleep through
  have hkont : ∀ r, r ≠ p → ((s.sleep c p (.proc p)).setKont p .waiting).kont r = s.kont r :=
    fun r hr => by simp [ProcSys.sleep, ProcSys.sched, hr]
  have hpk : ((s.sleep c p (.proc p)).setKont p .waiting).kont p = .waiting := by simp
  have hproc : ((s.sleep c p (.proc p)).setKont p .waiting).proc =
      update s.proc p { s.proc p with chan := some (.proc p), state := .sleeping } := rfl
  have hsame : ∀ r, (((s.sleep c p (.proc p)).setKont p .waiting).proc r).parent =
      (s.proc r).parent := by
    intro r
    rw [hproc]
    rcases eq_or_ne r p with rfl | hr
    · simp
    · simp [hr]
  refine h.edit hproc (fun _ => rfl) (fun r hr => ⟨h.alive p r hr, ?_⟩)
    (fun he => by subst he; exact h.root) (fun hne hn => ?_) (by simp) (by simp)
    (fun r _ hr => hkont r hr) (fun r np hr => ?_) (fun r np hr => ?_) fun r hr hs => ?_
  · rintro rfl
    exact h.irrefl r hr
  · exact absurd ⟨by simp [hp], by simp [hp]⟩ (h.orphan p hne hn)
  · rw [hsame]
    rcases eq_or_ne r p with rfl | hne
    · cases hpk.symm.trans hr
    · exact h.forkAlloc r np (hkont r hne ▸ hr)
  · rw [hsame]
    rcases eq_or_ne r p with rfl | hne
    · cases hpk.symm.trans hr
    · exact h.forkCopied r np (hkont r hne ▸ hr)
  · rcases eq_or_ne r p with rfl | hne
    · exact ⟨by rw [hproc]; simp, fun y hy => waitFinds_none hno hy⟩
    · rw [hproc, update_of_ne hne] at hs ⊢
      exact h.waiting r hs (hkont r hne ▸ hr)

/-! ## `fork` -/

theorem Family.fork (hp : (s.proc p).state = .running) : Family (s.fork p) := by
  rw [ProcSys.fork, allocproc]
  rcases hf : s.findSlot fun x => x.state == .unused with _ | np
  · exact h
  have hu : (s.proc np).state = .unused := by simpa using findSlot_some hf
  have hnp : (s.proc np).parent = none := h.unused np hu
  have hpnp : p ≠ np := by
    rintro rfl
    cases hp.symm.trans hu
  obtain ⟨t, ht⟩ : ∃ t, t = ({ s.setProc np { s.proc np with state := .embryo, pid := s.nextpid }
    with nextpid := s.nextpid + 1 } : ProcSys).setKont p (.forkAlloc np) := ⟨_, rfl⟩
  have hproc : t.proc = update s.proc np
      { s.proc np with state := .embryo, pid := s.nextpid } := by rw [ht]; rfl
  have hkont : ∀ r, r ≠ p → t.kont r = s.kont r := fun r hr => by rw [ht]; simp [hr]
  have hkp : t.kont p = .forkAlloc np := by rw [ht]; simp
  have hparent : ∀ r, (t.proc r).parent = (s.proc r).parent := by
    intro r
    rw [hproc]
    rcases eq_or_ne r np with rfl | hr
    · simp
    · simp [hr]
  show Family _
  simp only [← ht]
  refine h.edit hproc (by simp [hu, ProcState.alive]) (by simp [hnp]) (fun _ => hnp)
    (fun _ _ => .inr rfl) (fun _ => hnp) (by simp) (fun r hz _ => ?_) (fun r np' hr => ?_)
    (fun r np' hr => ?_) fun r hr hs => ?_
  · refine hkont r ?_
    rintro rfl
    cases hp.symm.trans hz
  · rw [hparent]
    rcases eq_or_ne r p with rfl | hne
    · obtain rfl := Kont.forkAlloc.inj (hkp.symm.trans hr)
      exact hnp
    · exact h.forkAlloc r np' (hkont r hne ▸ hr)
  · rw [hparent]
    rcases eq_or_ne r p with rfl | hne
    · cases hkp.symm.trans hr
    · exact h.forkCopied r np' (hkont r hne ▸ hr)
  · have hne : r ≠ p := by
      rintro rfl
      cases hkp.symm.trans hr
    have hrn : r ≠ np := by
      rintro rfl
      rw [hproc] at hs
      simp at hs
    rw [hproc, update_of_ne hrn] at hs ⊢
    exact h.waiting r hs (hkont r hne ▸ hr)

/-- `fork` goes on with its child: the caller comes to `k`, and no other `fork` has this child. -/
theorem Family.child {k j : Kont} (hv : Valid s)
    (hp : (s.proc p).state = .running) (hk : (s.kont p).child = some np)
    (hproc : s'.proc = update s.proc np x) (hkont : s'.kont = update (update s.kont np j) p k)
    (hj : j = .none ∨ j = .user) (hcase : k = .user ∧ x.state = .unused ∧ x.parent = none ∨
      k = .forkCopied np ∧ x.state = .embryo ∧ x.parent = some p ∨
      k = .user ∧ x.state = .runnable ∧ x.parent = some p) : Family s' := by
  have he := hv.embryo p np hk
  have hpnp : p ≠ np := by
    rintro rfl
    cases hp.symm.trans he
  have hinit : np ≠ initproc := by
    rintro rfl
    have := h.init
    rw [he] at this
    cases this
  have hpk : s'.kont p = k := by simp [hkont]
  have hnk : s'.kont np = j := by simp [hkont, Ne.symm hpnp]
  have hother : ∀ r, r ≠ p → r ≠ np → s'.kont r = s.kont r := fun r h1 h2 => by
    simp [hkont, h1, h2]
  -- no other `fork` has this child
  have hone : ∀ r y, r ≠ p → (s.kont r).child = some y → y ≠ np := by
    rintro r y hr hy rfl
    exact hr (hv.owner r p y hy hk)
  refine h.edit hproc (by simp [he, ProcState.alive]) (fun r hr => ?_) (fun h => absurd h hinit)
    (fun _ hn => ?_) (fun hu => ?_) ?_ (fun r hz hr => ?_) (fun r y hr => ?_) (fun r y hr => ?_)
    fun r hr hs => ?_
  · have : r = p := by
      rcases hcase with ⟨-, -, hx⟩ | ⟨-, -, hx⟩ | ⟨-, -, hx⟩
      · cases hx.symm.trans hr
      · exact (Option.some.inj (hx.symm.trans hr)).symm
      · exact (Option.some.inj (hx.symm.trans hr)).symm
    subst this
    exact ⟨by rw [hp]; rfl, hpnp⟩
  · rcases hcase with ⟨-, hx, -⟩ | ⟨-, -, hx⟩ | ⟨-, -, hx⟩
    · exact .inl hx
    · cases hx.symm.trans hn
    · cases hx.symm.trans hn
  · rcases hcase with ⟨-, -, hx⟩ | ⟨-, hx, -⟩ | ⟨-, hx, -⟩
    · exact hx
    · cases hx.symm.trans hu
    · cases hx.symm.trans hu
  · rcases hcase with ⟨-, hx, -⟩ | ⟨-, hx, -⟩ | ⟨-, hx, -⟩ <;> rw [hx] <;> rintro ⟨⟩
  · refine hother r ?_ hr
    rintro rfl
    cases hp.symm.trans hz
  · have hrp : r ≠ p := by
      rintro rfl
      rcases hcase with ⟨rfl, -⟩ | ⟨rfl, -⟩ | ⟨rfl, -⟩ <;> cases hpk.symm.trans hr
    have hrn : r ≠ np := by
      rintro rfl
      rcases hj with rfl | rfl <;> cases hnk.symm.trans hr
    rw [hother r hrp hrn] at hr
    have hy := hone r y hrp (by rw [hr]; rfl)
    rw [hproc, update_of_ne hy]
    exact h.forkAlloc r y hr
  · rcases eq_or_ne r p with rfl | hrp
    · rcases hcase with ⟨rfl, -⟩ | ⟨rfl, -, hx⟩ | ⟨rfl, -⟩ <;> try cases hpk.symm.trans hr
      rw [hproc]
      simpa using hx
    have hrn : r ≠ np := by
      rintro rfl
      rcases hj with rfl | rfl <;> cases hnk.symm.trans hr
    rw [hother r hrp hrn] at hr
    have hy := hone r y hrp (by rw [hr]; rfl)
    rw [hproc, update_of_ne hy]
    exact h.forkCopied r y hr
  · have hrp : r ≠ p := by
      rintro rfl
      rcases hcase with ⟨rfl, -⟩ | ⟨rfl, -⟩ | ⟨rfl, -⟩ <;> cases hpk.symm.trans hr
    have hrn : r ≠ np := by
      rintro rfl
      rcases hj with rfl | rfl <;> cases hnk.symm.trans hr
    rw [hproc, update_of_ne hrn] at hs ⊢
    exact h.waiting r hs (hother r hrp hrn ▸ hr)

end

/-! ## Whole runs -/

/-- What a round does: nothing, or it switches to a process that goes on where it was, which in
`wait` means another scan. -/
theorem round_cases (h : s.round c = .ok s') :
    (∃ t, s.assignTickets.pick c = .ok (t, none) ∧ s' = t) ∨
      ∃ t p, (s.cpu c).proc = none ∧ s.assignTickets.pick c = .ok (t, some p) ∧
        (t.proc p).state ≠ .running ∧ t.kont p ≠ .none ∧ t.kont p ≠ .exited ∧
        (t.kont p = .waiting ∧ s' = (t.resume c p).wait c p ∨
          t.kont p ≠ .waiting ∧ s' = t.resume c p) := by
  rw [round] at h
  split at h
  · cases h
  case isFalse hc =>
  split at h
  case h_1 t p hpick =>
    refine .inr ⟨t, p, by simpa using hc, hpick, ?_⟩
    rw [switchTo] at h
    split at h
    · cases h
    case isFalse hs =>
    split at h
    case h_1 => cases h
    case h_2 => cases h
    case h_3 hk =>
      exact ⟨hs, by simp [hk], by simp [hk], .inl ⟨hk, (Except.ok.inj h).symm⟩⟩
    case h_4 hk1 hk2 hk3 => exact ⟨hs, hk1, hk2, .inr ⟨hk3, (Except.ok.inj h).symm⟩⟩
  case h_2 t hpick => exact .inl ⟨t, hpick, (Except.ok.inj h).symm⟩
  case h_3 => cases h

variable {w : Option Slot} {t : ProcSys}

/-- Choosing a process changes tickets only. -/
theorem pick_proc (h : s.assignTickets.pick c = .ok (t, w)) :
    (∀ q, (t.proc q).state = (s.proc q).state ∧ (t.proc q).parent = (s.proc q).parent ∧
      (t.proc q).chan = (s.proc q).chan ∧ (t.proc q).pid = (s.proc q).pid) ∧ t.kont = s.kont := by
  obtain ⟨hproc, hkont, -⟩ := pick_inv h
  refine ⟨fun q => ?_, hkont⟩
  rw [hproc]
  exact ⟨rfl, rfl, rfl, rfl⟩

section

variable (h : Family s)

include h

theorem Family.pick (hp : s.assignTickets.pick c = .ok (t, w)) : Family t := by
  obtain ⟨hproc, hkont⟩ := pick_proc hp
  exact h.calm (fun q => (hproc q).2.1) (fun q => .inl (hproc q).1) (fun q => .inl (by rw [hkont]))
    fun q hs _ => ⟨(hproc q).1 ▸ hs, (hproc q).2.2.1⟩

/-- A process that can be switched to is alive. -/
theorem Family.alive_of_kont (hv : Valid s) (h1 : s.kont p ≠ .none)
    (h2 : s.kont p ≠ .exited) : (s.proc p).state.alive = true := by
  rcases hs : (s.proc p).state with _ | _ | _ | _ | _ | _
  · exact absurd (hv.context p (.inl hs)) h1
  · exact absurd (hv.context p (.inr hs)) h1
  · rfl
  · rfl
  · rfl
  · exact absurd (h.exited p hs) h2

theorem Family.resume (ha : (s.proc p).state.alive = true) : Family (s.resume c p) := by
  have hset : Family (s.setProc p { s.proc p with state := .running, chan := none }) :=
    h.setProc rfl (.inr ⟨ha, rfl⟩) (by simp)
  exact hset.congr rfl rfl

theorem Family.round (hv : Valid s) (hs : s.round c = .ok s') : Family s' := by
  obtain ⟨t, hpick, rfl⟩ | ⟨t, p, hc, hpick, hrun, hk1, hk2, hcase⟩ := round_cases hs
  · exact h.pick hpick
  obtain ⟨hvt, hcpu⟩ := hv.pick hpick
  have ht := h.pick hpick
  have hres := ht.resume (c := c) (ht.alive_of_kont hvt hk1 hk2)
  rcases hcase with ⟨-, rfl⟩ | ⟨-, rfl⟩
  · have hvr := hvt.resume ((hcpu c).trans hc) hrun hk1
    exact hres.wait hvr (by simp [ProcSys.resume])
  · exact hres

/-- A process that runs and is not in `wait` changes its state or its other fields. -/
theorem Family.running (hp : (s.proc p).state = .running)
    (hparent : x.parent = (s.proc p).parent) (hx : x.state.alive = true)
    (hk : x.state = .sleeping → s.kont p ≠ .waiting) : Family (s.setProc p x) :=
  h.setProc hparent (.inr ⟨by rw [hp]; rfl, hx⟩) fun hs hw => absurd hw (hk hs)

theorem Family.kill : Family (s.kill pid).1 := by
  have hw := woken_kill s pid
  refine h.woken hw (fun q => ?_) fun q => ?_ <;> rw [ProcSys.kill] <;> split
  · rename_i r _
    rcases eq_or_ne q r with rfl | hq
    · simp
    · simp [hq]
  · rfl
  · rename_i r _
    rcases eq_or_ne q r with rfl | hq
    · simp
    · simp [hq]
  · rfl

end

/-- The child of a `fork` in progress has no context. -/
theorem Valid.update_kont (hv : Valid s) (hk : (s.kont p).child = some np) :
    update s.kont np .none = s.kont := by
  rw [← hv.context np (.inr (hv.embryo p np hk))]
  exact update_eq_self ..

variable {e : ProcEvent}

/-- **One event keeps the family.** -/
theorem Family.step (h : Family s) (hv : Valid s) (hs : s.step e = .ok s') : Family s' := by
  cases step_trans hs with
  | idle | resume | resumeWait => exact h.round hv hs
  | yield c p hp =>
    have hset : Family (s.setProc p { s.proc p with state := .runnable }) :=
      h.running (hv.running c p hp) rfl rfl (by simp)
    exact hset.congr rfl rfl
  | sleep c p chan hp hk =>
    have hset : Family (s.setProc p { s.proc p with chan := some chan, state := .sleeping }) :=
      h.running (hv.running c p hp) rfl rfl fun _ => by rw [hk]; rintro ⟨⟩
    exact hset.congr rfl rfl
  | wakeup chan =>
    exact h.woken (woken_wakeup1 s chan) (fun _ => wakeup1_parent) fun _ => wakeup1_chan
  | exit c p _ hp hk he => exact h.exit (hv.running c p hp) hk (exit_spec he)
  | wait c p hp hk => exact h.wait hv (hv.running c p hp)
  | kill c p pid hp hk => exact h.kill
  | fork c p hp hk => exact h.fork (hv.running c p hp)
  | forkFail c p np hp hk =>
    have hc : (s.kont p).child = some np := by rw [hk]; rfl
    exact h.child hv (hv.running c p hp) hc rfl (k := .user) (j := .none)
      (by rw [hv.update_kont hc]; rfl) (.inl rfl) (.inl ⟨rfl, rfl, h.forkAlloc p np hk⟩)
  | forkCopy c p np hp hk =>
    have hc : (s.kont p).child = some np := by rw [hk]; rfl
    exact h.child hv (hv.running c p hp) hc rfl (k := .forkCopied np) (j := .none)
      (by rw [hv.update_kont hc]; rfl) (.inl rfl) (.inr (.inl ⟨rfl, hv.embryo p np hc, rfl⟩))
  | forkDone c p np hp hk =>
    have hc : (s.kont p).child = some np := by rw [hk]; rfl
    exact h.child hv (hv.running c p hp) hc rfl (k := .user) (j := .user) rfl (.inr rfl)
      (.inr (.inr ⟨rfl, rfl, h.forkCopied p np hk⟩))
  | exec c p last hp hk =>
    exact h.running (hv.running c p hp) rfl (by rw [hv.running c p hp]; rfl)
      (by rw [hv.running c p hp]; simp)
  | fault c p hp hk =>
    exact h.running (hv.running c p hp) rfl (by rw [hv.running c p hp]; rfl)
      (by rw [hv.running c p hp]; simp)

/-- In event `e` the `wait` of process `p` reaps `q` and returns `pid`: `p` calls `wait`, or a round
switches to `p` in the `sleep` of its `wait`. -/
def Reaps (s : ProcSys) (e : ProcEvent) (p q : Slot) (pid : Int32) : Prop :=
  ∃ c, (e = .wait c ∧ (s.cpu c).proc = some p ∧ s.kont p = .user ∧ s.waitFinds p = some (q, pid)) ∨
    (e = .round c ∧ s.kont p = .waiting ∧ ∃ t, s.assignTickets.pick c = .ok (t, some p) ∧
      (t.resume c p).waitFinds p = some (q, pid))

/-- What is reaped is a ZOMBIE, by its parent, and the result is its pid. -/
theorem Reaps.child (h : Reaps s e p q pid) :
    (s.proc q).state = .zombie ∧ (s.proc q).parent = some p ∧ (s.proc q).pid = pid := by
  obtain ⟨c, ⟨-, -, -, h⟩ | ⟨-, -, t, hpick, h⟩⟩ := h
  · obtain ⟨h1, h2, h3⟩ := waitFinds_some h
    exact ⟨h2, h1, h3⟩
  obtain ⟨h1, h2, h3⟩ := waitFinds_some h
  have hne : q ≠ p := by
    rintro rfl
    simp [resume] at h2
  obtain ⟨hs, hp, -, hpid⟩ := (pick_proc hpick).1 q
  have hsame : (t.resume c p).proc q = t.proc q := by simp [resume, hne]
  rw [hsame] at h1 h2 h3
  exact ⟨hs ▸ h2, hp ▸ h1, hpid ▸ h3⟩

/-- Everything one event can do to the process in slot `q`, as far as its family goes. -/
inductive KinStep (s : ProcSys) (q : Slot) (e : ProcEvent) (s' : ProcSys) : Prop
  /-- it keeps its parent, and stays a ZOMBIE if it is one -/
  | same : (s'.Forked q → s.Forked q ∧ (s'.proc q).parent = (s.proc q).parent) →
      ((s.proc q).state = .zombie → (s'.proc q).state = .zombie) → KinStep s q e s'
  /-- its parent exits -/
  | orphaned (c : ℕ) (p : Slot) : e = .exit c → (s.cpu c).proc = some p →
      (s.proc q).parent = some p → (s'.proc q).parent = some initproc →
      (s'.Forked q → s.Forked q) → ((s.proc q).state = .zombie → (s'.proc q).state = .zombie) →
      KinStep s q e s'
  /-- the `fork` of `p` has made it -/
  | born (c : ℕ) (p : Slot) : e = .forkDone c → (s.cpu c).proc = some p →
      s.kont p = .forkCopied q → (s'.proc q).parent = some p → (s.proc q).state = .embryo →
      KinStep s q e s'
  /-- `p` has reaped it -/
  | reaped (p : Slot) (pid : Int32) : Reaps s e p q pid → (s'.proc q).state = .unused →
      KinStep s q e s'

theorem KinStep.of_state
    (hstate : (s'.proc q).state = (s.proc q).state ∨ (s.proc q).state.alive = true)
    (hparent : (s'.proc q).parent = (s.proc q).parent) : KinStep s q e s' := by
  refine .same (fun hf => ⟨?_, hparent⟩) fun hz => ?_
  · rcases hstate with hs | ha
    · rwa [Forked, hs] at hf
    · constructor <;> intro hs <;> rw [hs] at ha <;> cases ha
  · rcases hstate with hs | ha
    · exact hs.trans hz
    · rw [hz] at ha
      cases ha

/-- A change of slot `p` alone, which is alive. -/
theorem KinStep.of_update (h : s'.proc = update s.proc p x)
    (hp : (s.proc p).state.alive = true) (hparent : x.parent = (s.proc p).parent) :
    KinStep s q e s' := by
  rcases eq_or_ne q p with rfl | hq
  · exact .of_state (.inr hp) (by simpa [h] using hparent)
  · exact .of_state (.inl (by simp [h, hq])) (by simp [h, hq])

/-- Who is reaped is gone. -/
theorem Reaps.unused (h : Reaps s e p q pid)
    (hs : s.step e = .ok s') : (s'.proc q).state = .unused := by
  -- the pass of `wait` in which it is found
  have hreap : ∀ (t : ProcSys) (c : ℕ), t.waitFinds p = some (q, pid) →
      ((t.wait c p).proc q).state = .unused := by
    intro t c hfind
    obtain ⟨r, pid', hr, heq⟩ | ⟨hno, -⟩ := wait_cases t c p
    · obtain ⟨rfl, -⟩ := Prod.mk.inj (Option.some.inj (hfind.symm.trans hr))
      rw [heq]
      simp [reap]
    · cases hno.symm.trans hfind
  obtain ⟨c, ⟨rfl, hp, hk, hfind⟩ | ⟨rfl, hk, t, hpick, hfind⟩⟩ := h
  · obtain ⟨p', hp', -, hs⟩ := atUser_inv hs
    obtain rfl := Option.some.inj (hp.symm.trans hp')
    cases hs
    exact hreap s c hfind
  obtain ⟨t', hpick', -⟩ | ⟨t', p', -, hpick', -, -, -, hcase⟩ := round_cases hs
  · cases (Prod.mk.inj (Except.ok.inj (hpick.symm.trans hpick'))).2
  obtain ⟨rfl, h'⟩ := Prod.mk.inj (Except.ok.inj (hpick.symm.trans hpick'))
  obtain rfl := Option.some.inj h'
  rcases hcase with ⟨-, rfl⟩ | ⟨hk', -⟩
  · exact hreap _ c hfind
  · exact absurd ((congrFun (pick_proc hpick).2 p).trans hk) hk'

/-- Process `p` exits in one of the events `v`, which come after `u`. -/
def ExitedIn (u v : List ProcEvent) (p : Slot) : Prop :=
  ∃ v1 c v2 m, v = v1 ++ .exit c :: v2 ∧ run step start (u ++ v1) = .ok m ∧ (m.cpu c).proc = some p

variable {u v : List ProcEvent}

theorem ExitedIn.concat (h : ExitedIn u v p) : ExitedIn u (v ++ [e]) p := by
  obtain ⟨v1, c, v2, m, rfl, hm, hp⟩ := h
  exact ⟨v1, c, v2 ++ [e], m, by simp, hm, hp⟩

end ProcSys

end Xv6
