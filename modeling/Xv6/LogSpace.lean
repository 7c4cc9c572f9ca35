import Xv6.LogGroup
import Mathlib.Algebra.BigOperators.Group.Finset.Basic
import Mathlib.Algebra.Order.BigOperators.Group.Finset

/-!
# Log space: reservation, the capacity test, and the log region

`begin_op` admits an operation when `lh.n + (outstanding+1)*MAXOPBLOCKS <= LOGSIZE`: it reserves
`MAXOPBLOCKS` slots for each. `log_write` tests `lh.n >= log.size - 1` — before it takes the lock.
`mkfs` makes `log.size = LOGSIZE`, header block included. So the reservation counts `LOGSIZE`
data slots, and the log has `LOGSIZE - 1` of them.

* The reservation itself is sound: when every operation logs at most `MAXOPBLOCKS` distinct blocks
  (`Budget`), no insertion leaves the array `lh.block[LOGSIZE]` (`Reserved`).
* `log_write` panics exactly when it is called after its group has logged `LOGSIZE - 1` distinct
  blocks, which operations within their budget can do (`log_write_panics`).
* The log stays in its disk region exactly as long as no group logs `LOGSIZE` distinct blocks; two
  callers that pass the capacity test together can do that (`log_overruns`).
-/

namespace Xv6

open Function List

/-! ## Operations within their budget -/

/-- The process that calls `log_write`, if the event is such a call. -/
def LogEvent.caller : LogEvent → Option ℕ
  | .logCheck p _ => some p
  | _ => none

/-- The event is a crash. -/
def LogEvent.isCrash : LogEvent → Bool
  | .crash => true
  | _ => false

/-- Nothing in the run is a crash. -/
def CrashFree (tr : List LogEvent) : Prop := ∀ e ∈ tr, ¬ e.isCrash

instance (tr : List LogEvent) : Decidable (CrashFree tr) :=
  inferInstanceAs (Decidable (∀ e ∈ tr, _))

/-- The blocks `p` has called `log_write` on since its last `begin_op`, extended by one event. -/
def opCall (p : ℕ) (l : List ℕ) : LogEvent → List ℕ
  | .beginOp q => if q = p then [] else l
  | .logCheck q b => if q = p then l ++ [b] else l
  | _ => l

/-- The blocks `p` has called `log_write` on since its last `begin_op`. -/
def opCalls (p : ℕ) (tr : List LogEvent) : List ℕ := tr.foldl (opCall p) []

@[simp] theorem opCalls_concat (p : ℕ) (tr : List LogEvent) (e : LogEvent) :
    opCalls p (tr ++ [e]) = opCall p (opCalls p tr) e := by
  simp [opCalls]

/-- Every operation logs at most `MAXOPBLOCKS` distinct blocks. -/
def Budget (tr : List LogEvent) : Prop :=
  ∀ tr1, tr1 <+: tr → ∀ p, (opCalls p tr1).toFinset.card ≤ MAXOPBLOCKS

theorem Budget.of_concat {tr : List LogEvent} {e : LogEvent} (h : Budget (tr ++ [e])) : Budget tr :=
  fun tr1 h1 => h tr1 (h1.trans (prefix_append tr [e]))

/-- The blocks `p` calls `log_write` on in the whole run. -/
def allCalls (p : ℕ) (tr : List LogEvent) : List ℕ :=
  tr.filterMap fun
    | .logCheck q b => if q = p then some b else none
    | _ => none

theorem opCalls_subset (p : ℕ) (tr : List LogEvent) : opCalls p tr ⊆ allCalls p tr := by
  induction tr using List.reverseRecOn with
  | nil => simp [opCalls]
  | append_singleton tr e ih =>
    intro b hb
    rw [opCalls_concat] at hb
    rw [allCalls, filterMap_append, mem_append]
    cases e with
    | beginOp q =>
      simp only [opCall] at hb
      split at hb
      · simp at hb
      · exact .inl (ih hb)
    | logCheck q c =>
      simp only [opCall] at hb
      split at hb
      · rename_i hq
        rcases mem_append.mp hb with hb | hb
        · exact .inl (ih hb)
        · obtain rfl := mem_singleton.mp hb
          exact .inr (by simp [hq])
      · exact .inl (ih hb)
    | _ => exact .inl (ih hb)

/-- A bound on what each process logs in the whole run bounds each of its operations. -/
theorem budget_of_allCalls {tr : List LogEvent}
    (h : ∀ p ∈ tr.filterMap LogEvent.caller, (allCalls p tr).toFinset.card ≤ MAXOPBLOCKS) :
    Budget tr := by
  intro tr1 h1 p
  have hsub : opCalls p tr1 ⊆ allCalls p tr := fun b hb =>
    (h1.sublist.filterMap _).subset (opCalls_subset p tr1 hb)
  by_cases hp : p ∈ tr.filterMap LogEvent.caller
  · refine (Finset.card_le_card fun b hb => ?_).trans (h p hp)
    exact mem_toFinset.mpr (hsub (mem_toFinset.mp hb))
  -- a process that never calls `log_write` logs nothing
  have : allCalls p tr = [] := by
    rw [eq_nil_iff_forall_not_mem]
    intro b hb
    obtain ⟨e, he, hb⟩ := mem_filterMap.mp hb
    refine hp (mem_filterMap.mpr ⟨e, he, ?_⟩)
    cases e <;> simp_all [LogEvent.caller]
  rw [this] at hsub
  rw [subset_nil.mp hsub]
  simp

/-! ## The reservation -/

open scoped BigOperators

/-- The reservation invariant. `U p` are the blocks the open operation of `p` has entered into the
log; what is logged and what the open operations may still log fit into `LOGSIZE` slots. -/
structure Reserved (tr : List LogEvent) (s : LogSys) (U : ℕ → Finset ℕ) : Prop where
  called : ∀ p, (s.pc p).inTrans → U p ⊆ (opCalls p tr).toFinset
  pending : ∀ p b, s.pc p = .logging b → b ∈ opCalls p tr
  logged : ∀ p, (s.pc p).inTrans → ∀ b ∈ U p, b ∈ s.log.lh.blocks
  space : ∃ A : Finset ℕ, (∀ p, p ∈ A ↔ (s.pc p).inTrans) ∧
    s.log.lh.n + ∑ p ∈ A, (MAXOPBLOCKS - (U p).card) ≤ LOGSIZE

namespace Reserved

variable {tr : List LogEvent} {s s' : LogSys} {U : ℕ → Finset ℕ} {e : LogEvent} {p b : ℕ}

theorem n_le (h : Reserved tr s U) : s.log.lh.n ≤ LOGSIZE := by
  obtain ⟨A, -, hA⟩ := h.space
  omega

/-- With no operation open, the reservation is about the header alone. -/
theorem of_idle (hpc : ∀ p, ¬ (s.pc p).inTrans) (hn : s.log.lh.n ≤ LOGSIZE) : Reserved tr s U where
  called p hp := absurd hp (hpc p)
  pending p b hp := absurd (by rw [hp]; rfl) (hpc p)
  logged p hp := absurd hp (hpc p)
  space := ⟨∅, fun p => by simpa using hpc p, by simpa using hn⟩

section

variable (h : Reserved tr s U)

include h

/-- A transition that opens no operation, calls no `log_write` and leaves the header to the open
operations keeps the reservation. -/
theorem of_le (hpc : ∀ p, (s'.pc p).inTrans → s'.pc p = s.pc p)
    (hcalls : ∀ p, opCalls p (tr ++ [e]) = opCalls p tr) (hn : s'.log.lh.n ≤ s.log.lh.n)
    (hlh : ∀ p, (s'.pc p).inTrans → s'.log.lh = s.log.lh) : Reserved (tr ++ [e]) s' U where
  called p hp := by
    rw [hcalls p]
    exact h.called p (by rw [← hpc p hp]; exact hp)
  pending p b hp := by
    have hin : (s'.pc p).inTrans := by rw [hp]; rfl
    rw [hcalls p]
    exact h.pending p b (by rw [← hpc p hin]; exact hp)
  logged p hp b hb := by
    rw [hlh p hp]
    exact h.logged p (by rw [← hpc p hp]; exact hp) b hb
  space := by
    obtain ⟨A, hA, hsum⟩ := h.space
    refine ⟨A.filter fun p => (s'.pc p).inTrans, fun p => ?_, ?_⟩
    · rw [Finset.mem_filter, hA p]
      exact ⟨And.right, fun hp => ⟨by rw [← hpc p hp]; exact hp, hp⟩⟩
    · have : ∑ p ∈ A.filter (fun p => (s'.pc p).inTrans), (MAXOPBLOCKS - (U p).card) ≤
          ∑ p ∈ A, (MAXOPBLOCKS - (U p).card) :=
        Finset.sum_le_sum_of_subset (Finset.filter_subset _ A)
      omega

/-- `begin_op` reserves `MAXOPBLOCKS` slots. -/
theorem beginOp (hg : Stage.running.Holds s) (hpc : s.pc p = .idle)
    (hn : s.log.lh.n + (s.log.outstanding + 1) * MAXOPBLOCKS ≤ LOGSIZE)
    (hlog : s'.log.lh = s.log.lh) (hpc' : s'.pc = update s.pc p .inOp) :
    Reserved (tr ++ [.beginOp p]) s' (update U p ∅) where
  called q hq := by
    by_cases hqp : q = p
    · simp [hqp]
    · rw [hpc', update_of_ne hqp] at hq
      simpa [opCall, hqp, Ne.symm hqp] using h.called q hq
  pending q b hq := by
    by_cases hqp : q = p
    · simp [hpc', hqp] at hq
    · rw [hpc', update_of_ne hqp] at hq
      simpa [opCall, Ne.symm hqp] using h.pending q b hq
  logged q hq b hb := by
    by_cases hqp : q = p
    · simp [hqp] at hb
    · rw [hpc', update_of_ne hqp] at hq
      rw [update_of_ne hqp] at hb
      rw [hlog]
      exact h.logged q hq b hb
  space := by
    obtain ⟨A, hA, hcard⟩ := hg.2.2.2
    have hp : p ∉ A := by simp [hA, hpc, LogPc.inTrans]
    refine ⟨insert p A, fun q => ?_, ?_⟩
    · by_cases hqp : q = p
      · simp [hpc', hqp, LogPc.inTrans]
      · simp [hpc', hqp, hA q]
    -- each open operation may use at most its whole budget
    have hle : ∑ q ∈ A, (MAXOPBLOCKS - (update U p ∅ q).card) ≤ A.card * MAXOPBLOCKS :=
      calc ∑ q ∈ A, (MAXOPBLOCKS - (update U p ∅ q).card)
          ≤ ∑ _q ∈ A, MAXOPBLOCKS := Finset.sum_le_sum fun q _ => Nat.sub_le ..
        _ = A.card * MAXOPBLOCKS := Finset.sum_const_nat fun _ _ => rfl
    rw [Finset.sum_insert hp, hlog]
    simp only [update_self, Finset.card_empty, Nat.sub_zero]
    rw [hcard] at hle
    rw [Nat.add_mul, Nat.one_mul] at hn
    omega

/-- The capacity test of `log_write` notes the block as called. -/
theorem logCheck (hpc : s.pc p = .inOp) (hlog : s'.log.lh = s.log.lh)
    (hpc' : s'.pc = update s.pc p (.logging b)) : Reserved (tr ++ [.logCheck p b]) s' U := by
  have hin : ∀ q, (s'.pc q).inTrans ↔ (s.pc q).inTrans := by
    intro q
    by_cases hqp : q = p
    · simp [hpc', hqp, hpc, LogPc.inTrans]
    · simp [hpc', hqp]
  refine ⟨fun q hq => ?_, fun q c hq => ?_, fun q hq c hc => ?_, ?_⟩
  · have := h.called q ((hin q).mp hq)
    rw [opCalls_concat]
    simp only [opCall]
    split
    · intro c hc
      simp [mem_toFinset.mp (this hc)]
    · exact this
  · by_cases hqp : q = p
    · subst hqp
      have : b = c := by simpa [hpc'] using hq
      simp [opCall, this]
    · rw [hpc', update_of_ne hqp] at hq
      simpa [opCall, Ne.symm hqp] using h.pending q c hq
  · rw [hlog]
    exact h.logged q ((hin q).mp hq) c hc
  · obtain ⟨A, hA, hsum⟩ := h.space
    exact ⟨A, fun q => by rw [hA q, hin q], by rw [hlog]; exact hsum⟩

/-- Inserting a block uses up one reserved slot at most: a block that is new to the log is new to
the operation too. -/
theorem logInsert {d : Block} (hpc : s.pc p = .logging b)
    (hbudget : (opCalls p tr).toFinset.card ≤ MAXOPBLOCKS)
    (hlog : s'.log.lh = s.log.lh.insert b) (hpc' : s'.pc = update s.pc p .inOp) :
    Reserved (tr ++ [.logInsert p b d]) s' (update U p (insert b (U p))) := by
  have hpin : (s.pc p).inTrans := by rw [hpc]; rfl
  have hin : ∀ q, (s'.pc q).inTrans ↔ (s.pc q).inTrans := by
    intro q
    by_cases hqp : q = p
    · simp [hpc', hqp, hpc, LogPc.inTrans]
    · simp [hpc', hqp]
  have hcalls : ∀ q, opCalls q (tr ++ [.logInsert p b d]) = opCalls q tr := fun q => by
    simp [opCall]
  have hsub : insert b (U p) ⊆ (opCalls p tr).toFinset := by
    intro c hc
    rcases Finset.mem_insert.mp hc with rfl | hc
    · exact mem_toFinset.mpr (h.pending p c hpc)
    · exact h.called p hpin hc
  have hmem : ∀ c, c ∈ s'.log.lh.blocks ↔ c ∈ s.log.lh.blocks ∨ c = b := by
    intro c
    rw [hlog, LogHeader.blocks_insert]
    split
    · rename_i hb
      constructor
      · exact Or.inl
      · rintro (hc | rfl)
        · exact hc
        · exact hb
    · simp
  refine ⟨fun q hq => ?_, fun q c hq => ?_, fun q hq c hc => ?_, ?_⟩
  · rw [hcalls]
    by_cases hqp : q = p
    · subst hqp
      simpa using hsub
    · rw [update_of_ne hqp]
      exact h.called q ((hin q).mp hq)
  · rw [hcalls]
    by_cases hqp : q = p
    · simp [hpc', hqp] at hq
    · rw [hpc', update_of_ne hqp] at hq
      exact h.pending q c hq
  · rw [hmem]
    by_cases hqp : q = p
    · subst hqp
      rw [update_self] at hc
      rcases Finset.mem_insert.mp hc with rfl | hc
      · exact .inr rfl
      · exact .inl (h.logged q hpin c hc)
    · rw [update_of_ne hqp] at hc
      exact .inl (h.logged q ((hin q).mp hq) c hc)
  · obtain ⟨A, hA, hsum⟩ := h.space
    refine ⟨A, fun q => by rw [hA q, hin q], ?_⟩
    have hp : p ∈ A := (hA p).mpr hpin
    -- only the term of `p` changes
    have hrest : ∑ q ∈ A.erase p, (MAXOPBLOCKS - (update U p (insert b (U p)) q).card) =
        ∑ q ∈ A.erase p, (MAXOPBLOCKS - (U q).card) :=
      Finset.sum_congr rfl fun q hq => by rw [update_of_ne (Finset.ne_of_mem_erase hq)]
    have hcard := (Finset.card_le_card hsub).trans hbudget
    rw [← Finset.add_sum_erase A _ hp] at hsum ⊢
    rw [hrest, update_self]
    have hlen : s'.log.lh.n = s'.log.lh.blocks.length := (LogHeader.length_blocks _).symm
    rw [hlog, LogHeader.blocks_insert] at hlen
    by_cases hb : b ∈ s.log.lh.blocks
    · rw [if_pos hb, LogHeader.length_blocks] at hlen
      have hgrow : (U p).card ≤ (insert b (U p)).card :=
        Finset.card_le_card (Finset.subset_insert ..)
      rw [← hlog] at hlen
      omega
    rw [if_neg hb, length_append, LogHeader.length_blocks] at hlen
    have hbU : b ∉ U p := fun hbU => hb (h.logged p hpin b hbU)
    rw [Finset.card_insert_of_notMem hbU] at hcard ⊢
    rw [← hlog] at hlen
    simp only [length_singleton] at hlen
    omega

end

end Reserved

namespace LogSys

variable {r : LogRegion}

/-- Every transition keeps the reservation, as long as the operations keep their budget. -/
theorem reserved_step {tr : List LogEvent} {s s' : LogSys} {g g' : Stage}
    {e : LogEvent} {U : ℕ → Finset ℕ} (ht : Trans r s g e s' g') (hg : g.Holds s)
    (hg' : g'.Holds s') (hb : Budget tr) (h : Reserved tr s U) :
    ∃ U', Reserved (tr ++ [e]) s' U' := by
  -- outside the open operations a control point change is invisible to the reservation
  have hupd : ∀ {p q : ℕ} {c : LogPc}, ¬ c.inTrans → (update s.pc p c q).inTrans →
      update s.pc p c q = s.pc q := by
    intro p q c hc hq
    by_cases hqp : q = p
    · subst hqp
      rw [update_self] at hq
      exact absurd hq hc
    · exact update_of_ne hqp ..
  cases ht with
  | beginOp p hpc hn => exact ⟨_, h.beginOp hg hpc hn rfl rfl⟩
  | logCheck p b hpc hb hn => exact ⟨_, h.logCheck hpc rfl rfl⟩
  | logInsert p b d hpc hslot =>
    exact ⟨_, h.logInsert hpc (hb tr prefix_rfl p) rfl rfl⟩
  | endOpLast p hpc ho | endOp p hpc ho =>
    exact ⟨U, h.of_le (fun q => hupd nofun) (fun q => by simp [opCall]) le_rfl fun _ _ => rfl⟩
  | commitEmpty p hn | commit p hn | writeLogEnd p tail ht | endCommit p =>
    exact ⟨U, h.of_le (fun q => hupd nofun) (fun q => by simp [opCall]) le_rfl fun _ _ => rfl⟩
  | writeLog p tail ht | writeHead p | install p tail ht | clearHead p =>
    refine ⟨U, h.of_le (fun q hq => ?_) (fun q => by simp [opCall]) (by simp) fun _ _ => by simp⟩
    simp only [setPc_pc, writeLogSlot_pc, writeHeadBlock_pc, installSlot_pc] at hq ⊢
    exact hupd nofun hq
  | installEnd p tail ht =>
    refine ⟨U, .of_idle (fun q hq => ?_) (Nat.zero_le _)⟩
    have := hg'.of_inTrans hq
    cases this
  | load g b =>
    exact ⟨U, h.of_le (fun q _ => by simp) (fun q => by simp [opCall]) (by simp) fun _ _ => by simp⟩
  | evict g b data hc =>
    exact ⟨U, h.of_le (fun q _ => rfl) (fun q => by simp [opCall]) le_rfl fun _ _ => rfl⟩
  | crash g => exact ⟨U, .of_idle (fun q => by simp [restart, LogPc.inTrans]) (Nat.zero_le _)⟩
  | recoverRead hn =>
    refine ⟨U, .of_idle (fun q hq => ?_) ?_⟩
    · have := hg'.of_inTrans hq
      cases this
    · simpa [readHeadBlock, LogHeader.read] using hn
  | recoverInstall tail ht | recoverClear =>
    exact ⟨U, h.of_le (fun q _ => by simp) (fun q => by simp [opCall]) (by simp) fun _ _ => by simp⟩
  | recoverInstallEnd tail ht =>
    refine ⟨U, .of_idle (fun q hq => ?_) (Nat.zero_le _)⟩
    have := hg'.of_inTrans hq
    cases this

variable {d0 : Disk}

/-- **The reservation holds along every run within budget.** -/
theorem run_reserved {tr : List LogEvent} {s : LogSys}
    (hrun : run (step r) (start r d0) tr = .ok s) (hb : Budget tr) :
    (∃ g : Stage, g.Holds s) ∧ ∃ U, Reserved tr s U := by
  have key : ∀ (tr : List LogEvent) (s : LogSys), run (step r) (start r d0) tr = .ok s →
      (∃ g : Stage, g.Holds s) ∧ (Budget tr → ∃ U, Reserved tr s U) := by
    refine run_history ⟨⟨.running, start_holds r d0⟩, fun _ => ⟨fun _ => ∅, ?_⟩⟩ ?_
    · exact .of_idle (fun q => by simp [start, restart, LogPc.inTrans]) (Nat.zero_le _)
    rintro tr s s' e - ⟨⟨g, hg⟩, hres⟩ hs
    obtain ⟨g', ht, hg'⟩ := step_trans hg hs
    refine ⟨⟨g', hg'⟩, fun hb => ?_⟩
    obtain ⟨U, hU⟩ := hres hb.of_concat
    exact reserved_step ht hg hg' hb.of_concat hU
  exact ⟨(key tr s hrun).1, (key tr s hrun).2 hb⟩

/-! ## The capacity test -/

/-- `p` is in an operation and holds the buffer of block `b`: it can call `log_write`. -/
def CanLog (s : LogSys) (p b : ℕ) : Prop := s.pc p = .inOp ∧ b < FSSIZE ∧ s.busy b = false

/-- Only `log_write` raises its panic, and only when the header is full. -/
theorem step_tooBig_iff {s : LogSys} {e : LogEvent} :
    s.step r e = .error (.panic "too big a transaction") ↔
      ∃ p b, e = .logCheck p b ∧ s.CanLog p b ∧
        (s.log.lh.n ≥ LOGSIZE ∨ s.log.lh.n ≥ s.log.size - 1) := by
  constructor
  · intro h
    cases e with
    | logCheck p b =>
      simp only [step, logCheck, onDisk] at h
      split at h
      · rename_i hpc
        split at h
        · rename_i hb
          split at h
          · cases h
          rename_i hbusy
          split at h
          · rename_i hn
            exact ⟨p, b, rfl, ⟨hpc, hb, by simpa using hbusy⟩, hn⟩
          · split at h <;> simp at h
        · simp at h
      · cases h
    | beginOp p | logInsert p b d | endOp p | commit p | writeLog p | writeHead p | installTrans p
    | clearHead p | endCommit p | load b | evict b | crash | recoverRead | recoverInstall
    | recoverClear =>
      simp only [step, beginOp, logInsert, endOp, commit, writeLog, writeHead, installTrans,
        clearHead, endCommit, onDisk, evict, recoverRead, recoverInstall, recoverClear] at h
      repeat' split at h
      all_goals simp at h
  · rintro ⟨p, b, rfl, ⟨hpc, hb, hbusy⟩, hn⟩
    simp only [step, logCheck, onDisk, hpc, hb, hbusy, if_true, if_pos hn, Bool.false_eq_true,
      if_false]

/-- **When `log_write` panics.** On a disk laid out by `mkfs`, a run never reaches the panic of
`log_write` if and only if no operation calls `log_write` after its group has logged
`LOGSIZE - 1` distinct blocks. -/
theorem logWrite_never_tooBig_iff (d0 : Disk) (tr : List LogEvent) :
    run (step .mkfs) (start .mkfs d0) tr ≠ .error (.panic "too big a transaction") ↔
      ∀ tr1 p b tr2 s, tr = tr1 ++ .logCheck p b :: tr2 →
        run (step .mkfs) (start .mkfs d0) tr1 = .ok s → s.CanLog p b →
        distinct (history tr1).cur < LOGSIZE - 1 := by
  -- what the test compares is the number of distinct blocks of the group
  have hcount : ∀ {tr1 : List LogEvent} {s : LogSys} {p b : ℕ},
      run (step .mkfs) (start .mkfs d0) tr1 = .ok s → s.CanLog p b →
      s.log.lh.n = distinct (history tr1).cur ∧ s.log.size = LOGSIZE := by
    intro tr1 s p b hrun hcan
    have hin : (s.pc p).inTrans := by rw [hcan.1]; rfl
    exact ⟨(entries_of_inTrans hrun hin).n_eq, (run_region hrun).2⟩
  rw [ne_eq, run_error_iff, not_exists]
  constructor
  · rintro h tr1 p b tr2 s htr hrun hcan
    by_contra hge
    obtain ⟨hn, hsize⟩ := hcount hrun hcan
    refine h tr1 ⟨_, tr2, s, htr, hrun, step_tooBig_iff.mpr ⟨p, b, rfl, hcan, .inr ?_⟩⟩
    rw [hn, hsize]
    omega
  · rintro h tr1 ⟨e, tr2, s, htr, hrun, he⟩
    obtain ⟨p, b, rfl, hcan, hn⟩ := step_tooBig_iff.mp he
    obtain ⟨hn', hsize⟩ := hcount hrun hcan
    have := h tr1 p b tr2 s htr hrun hcan
    rw [hn', hsize] at hn
    omega

/-- Call `log_write` to the end for each (process, block) in turn. -/
def logCalls (cs : List (ℕ × ℕ)) : List LogEvent :=
  cs.flatMap fun c => [.logCheck c.1 c.2, .logInsert c.1 c.2 Bytes.zero]

/-- Three operations are open, each within its budget, and 29 distinct blocks are logged. -/
def nearlyFull : List LogEvent :=
  [.beginOp 0, .beginOp 1, .beginOp 2] ++ logCalls ((List.range 29).map fun i => (i % 3, 100 + i))

/-- Three operations that log ten distinct blocks each: the thirtieth `log_write` panics. -/
theorem log_write_panics :
    CrashFree (nearlyFull ++ [.logCheck 2 129]) ∧ Budget (nearlyFull ++ [.logCheck 2 129]) ∧
      run (step .mkfs) (start .mkfs fun _ => Bytes.zero) (nearlyFull ++ [.logCheck 2 129]) =
        .error (.panic "too big a transaction") := by
  refine ⟨by decide, budget_of_allCalls (by decide), ?_⟩
  rfl

/-! ## The log region -/

/-- The log is inside its disk region: the header has room for its entries, they are pairwise
distinct, and the slots `write_log` and `install_trans` access for them lie between the header
block and the first inode block. -/
def InLogRegion (s : LogSys) : Prop :=
  s.log.lh.n ≤ s.log.size - 1 ∧ s.log.lh.blocks.Nodup ∧
    ∀ tail < s.log.lh.n, Mkfs.sb.logstart + 1 ≤ s.log.start + tail + 1 ∧
      s.log.start + tail + 1 ≤ Mkfs.sb.logstart + Mkfs.sb.nlog - 1 ∧
      s.log.start + tail + 1 ≠ Mkfs.sb.inodestart

/-- Without a crash there is no recovery. -/
theorem run_not_recovering {tr : List LogEvent} {s : LogSys}
    {k : RecPc} (hrun : run (step r) (start r d0) tr = .ok s) (hc : CrashFree tr) :
    ¬ (Stage.recovering k).Holds s := by
  have key : ∀ (tr : List LogEvent) (s : LogSys), run (step r) (start r d0) tr = .ok s →
      CrashFree tr → ∃ g : Stage, g.Holds s ∧ ∀ k, g ≠ .recovering k := by
    refine run_history (fun _ => ⟨.running, start_holds r d0, nofun⟩) ?_
    rintro tr s s' e - ih hs hc
    obtain ⟨g, hg, hne⟩ := ih fun e' he' => hc e' (by simp [he'])
    obtain ⟨g', ht, hg'⟩ := step_trans hg hs
    refine ⟨g', hg', fun k hk => ?_⟩
    subst hk
    cases ht with
    | crash => exact hc .crash (by simp) rfl
    | load | evict => exact hne _ rfl
    | recoverRead | recoverInstall | recoverInstallEnd => exact hne _ rfl
  obtain ⟨g, hg, hne⟩ := key tr s hrun hc
  intro hk
  exact hne k (hg.of_recovering hk.1)

/-- The header of a run without crash lists a group: the open one or a committed one. -/
theorem entries_of_crashFree {tr : List LogEvent} {s : LogSys}
    (hrun : run (step r) (start r d0) tr = .ok s) (hc : CrashFree tr) :
    ∃ us ∈ [] :: (history tr).groups ++ [(history tr).cur], Entries s.log.lh (blocksOf us) := by
  obtain ⟨g, hg, hi⟩ := run_groupInv tr s hrun
  cases g with
  | recovering k => exact absurd hg (run_not_recovering hrun hc)
  | running => exact ⟨_, by simp, hi⟩
  | committing p c =>
    cases c with
    | start | writeLog tail | writeHead => exact ⟨_, by simp, hi⟩
    | install tail =>
      obtain ⟨-, us, hus, he⟩ := hi
      exact ⟨us, by simp [hus], he⟩
    | clearHead | endCommit => exact ⟨[], by simp, Entries.nil hi.2⟩

/-- Every group has, at some point of the run, been exactly what the header lists. -/
theorem group_entries {tr : List LogEvent} {s : LogSys}
    (hrun : run (step r) (start r d0) tr = .ok s) (hc : CrashFree tr) :
    ∀ us ∈ (history tr).groups ++ [(history tr).cur], us = [] ∨ ∃ tr1 tr2 s1, tr = tr1 ++ tr2 ∧
      run (step r) (start r d0) tr1 = .ok s1 ∧ Entries s1.log.lh (blocksOf us) := by
  have key : ∀ (tr : List LogEvent) (s : LogSys), run (step r) (start r d0) tr = .ok s →
      ∀ us ∈ (history tr).groups, ∃ tr1 tr2 s1, tr = tr1 ++ tr2 ∧
        run (step r) (start r d0) tr1 = .ok s1 ∧ Entries s1.log.lh (blocksOf us) := by
    refine run_history (fun us hus => absurd hus (by simp)) ?_
    intro tr s s' e hr ih hs us hus
    rw [history_concat] at hus
    have hold : us ∈ (history tr).groups → ∃ tr1 tr2 s1, tr ++ [e] = tr1 ++ tr2 ∧
        run (step r) (start r d0) tr1 = .ok s1 ∧ Entries s1.log.lh (blocksOf us) := by
      intro hus
      obtain ⟨tr1, tr2, s1, htr, hr1, he⟩ := ih us hus
      exact ⟨tr1, tr2 ++ [e], s1, by rw [htr, append_assoc], hr1, he⟩
    cases e with
    | writeHead p =>
      rcases mem_append.mp hus with hus | hus
      · exact hold hus
      -- the group that this header write closes is in the header now
      obtain rfl := mem_singleton.mp hus
      obtain ⟨g, hg, hi⟩ := run_groupInv tr s hr
      obtain ⟨hpc, -⟩ := writeHead_inv hs
      obtain rfl := hg.of_commit hpc
      exact ⟨tr, [.writeHead p], s, rfl, hr, hi⟩
    | _ => exact hold hus
  intro us hus
  rcases mem_append.mp hus with hus | hus
  · exact .inr (key tr s hrun us hus)
  obtain rfl := mem_singleton.mp hus
  obtain ⟨g, hg, hi⟩ := run_groupInv tr s hrun
  cases g with
  | recovering k => exact absurd hg (run_not_recovering hrun hc)
  | running => exact .inr ⟨tr, [], s, by simp, hrun, hi⟩
  | committing p c =>
    cases c with
    | start | writeLog tail | writeHead => exact .inr ⟨tr, [], s, by simp, hrun, hi⟩
    | install tail | clearHead | endCommit => exact .inl hi.1

/-- A group only grows: what the run has logged so far is the beginning of one of its groups. -/
theorem cur_extends {tr1 tr2 : List LogEvent} (hc : CrashFree (tr1 ++ tr2)) :
    (∀ us ∈ (history tr1).groups, us ∈ (history (tr1 ++ tr2)).groups) ∧
      ∃ us ∈ (history (tr1 ++ tr2)).groups ++ [(history (tr1 ++ tr2)).cur],
        (history tr1).cur <+: us := by
  induction tr2 using List.reverseRecOn with
  | nil => simp
  | append_singleton tr2 e ih =>
    rw [← append_assoc] at hc ⊢
    obtain ⟨hgs, us, hus, hpre⟩ := ih fun e' he' => hc e' (mem_append_left _ he')
    rw [history_concat]
    rcases mem_append.mp hus with hus | hus
    · -- already committed
      cases e with
      | crash => exact absurd rfl (hc .crash (by simp))
      | writeHead p =>
        exact ⟨fun u hu => by simp [History.add, hgs u hu], us, by simp [History.add, hus], hpre⟩
      | _ => exact ⟨hgs, us, by simp [History.add, hus], hpre⟩
    -- still open
    obtain rfl := mem_singleton.mp hus
    cases e with
    | crash => exact absurd rfl (hc .crash (by simp))
    | writeHead p =>
      exact ⟨fun u hu => by simp [History.add, hgs u hu], _, by simp [History.add], hpre⟩
    | logInsert p b d =>
      exact ⟨hgs, (history (tr1 ++ tr2)).cur ++ [(b, d)], by simp [History.add],
        hpre.trans (prefix_append _ _)⟩
    | _ => exact ⟨hgs, _, by simp [History.add], hpre⟩

theorem distinct_mono {us vs : List (ℕ × Block)} (h : us <+: vs) : distinct us ≤ distinct vs := by
  apply Finset.card_le_card
  intro b hb
  obtain ⟨u, hu, rfl⟩ := mem_map.mp (mem_toFinset.mp hb)
  exact mem_toFinset.mpr (mem_map.mpr ⟨u, h.subset hu, rfl⟩)

/-- Within the budget, `log_write` never leaves the array `lh.block[LOGSIZE]`: a block that is
new to the log still has its reserved slot. -/
theorem run_ne_outOfBounds {tr : List LogEvent} (hc : CrashFree tr)
    (hb : Budget tr) : run (step .mkfs) (start .mkfs d0) tr ≠ .error .outOfBounds := by
  intro h
  obtain ⟨tr1, e, tr2, s, rfl, hrun, he⟩ := run_error_iff.mp h
  have hc1 : CrashFree tr1 := fun e he => hc e (mem_append_left _ he)
  have hb1 : Budget tr1 := fun tr' h' => hb tr' (h'.trans (prefix_append _ _))
  obtain ⟨⟨g, hg⟩, U, hU⟩ := run_reserved hrun hb1
  cases e with
  | logInsert p b d =>
    simp only [step, logInsert] at he
    split at he
    · rename_i b' hpc
      split at he
      · rename_i hbb
        subst hbb
        split at he
        · cases he
        rename_i hslot
        have hin : (s.pc p).inTrans := by rw [hpc]; rfl
        have hnew : b' ∉ s.log.lh.blocks := fun hmem =>
          hslot ((LogHeader.slot_of_mem _ _ hmem).1.trans_le hU.n_le)
        -- `p` has called for a block it has not entered, so it has a slot left
        have hlt : (U p).card < (opCalls p tr1).toFinset.card := by
          refine Finset.card_lt_card ⟨hU.called p hin, fun hsub => hnew ?_⟩
          exact hU.logged p hin b' (hsub (mem_toFinset.mpr (hU.pending p b' hpc)))
        have hbud := hb1 tr1 prefix_rfl p
        obtain ⟨A, hA, hsum⟩ := hU.space
        rw [← Finset.add_sum_erase A _ ((hA p).mpr hin)] at hsum
        rw [LogHeader.slot_of_not_mem _ _ hnew] at hslot
        omega
      · cases he
    · cases he
  | recoverRead =>
    simp only [step, recoverRead] at he
    split at he
    · rename_i hrec
      exact run_not_recovering hrun hc1 (hg.of_recovering hrec ▸ hg)
    · cases he
  | logCheck p b | beginOp p | endOp p | commit p | writeLog p | writeHead p | installTrans p
  | clearHead p | endCommit p | load b | evict b | crash | recoverInstall | recoverClear =>
    simp only [step, beginOp, logCheck, endOp, commit, writeLog, writeHead, installTrans,
      clearHead, endCommit, onDisk, evict, recoverInstall, recoverClear] at he
    repeat' split at he
    all_goals simp at he

/-- **When the log stays in its region.** For every run without crash in which every operation
logs at most `MAXOPBLOCKS` distinct blocks: the in-memory header never overflows, and the log is
inside its disk region in every state of the run if and only if every group logs fewer than
`LOGSIZE` distinct blocks. -/
theorem log_in_region_iff (d0 : Disk) (tr : List LogEvent) (hc : CrashFree tr) (hb : Budget tr) :
    run (step .mkfs) (start .mkfs d0) tr ≠ .error .outOfBounds ∧
      ∀ s, run (step .mkfs) (start .mkfs d0) tr = .ok s →
        ((∀ tr1 tr2 s1, tr = tr1 ++ tr2 → run (step .mkfs) (start .mkfs d0) tr1 = .ok s1 →
            s1.InLogRegion) ↔
          ∀ us ∈ (history tr).groups ++ [(history tr).cur], distinct us < LOGSIZE) := by
  refine ⟨run_ne_outOfBounds hc hb, fun s hrun => ⟨fun h us hus => ?_, ?_⟩⟩
  · rcases group_entries hrun hc us hus with rfl | ⟨tr1, tr2, s1, htr, hrun1, he⟩
    · decide
    · have hn := (h tr1 tr2 s1 htr hrun1).1
      rw [he.n_eq, (run_region hrun1).2] at hn
      exact Nat.lt_of_le_of_lt hn (by decide)
  rintro h tr1 tr2 s1 rfl hrun1
  obtain ⟨us, hus, he⟩ :=
    entries_of_crashFree hrun1 fun e he => hc e (mem_append_left _ he)
  obtain ⟨hgs, vs, hvs, hpre⟩ := cur_extends hc
  have hlt : s1.log.lh.n < LOGSIZE := by
    rw [he.n_eq]
    rcases mem_append.mp hus with hus | hus
    · rcases mem_cons.mp hus with rfl | hus
      · decide
      · exact h us (mem_append_left _ (hgs us hus))
    · obtain rfl := mem_singleton.mp hus
      exact (distinct_mono hpre).trans_lt (h vs hvs)
  obtain ⟨hstart, hsize⟩ := run_region hrun1
  have hsize' : s1.log.size = 30 := hsize
  have hstart' : s1.log.start = 2 := hstart
  rw [logsize_eq] at hlt
  refine ⟨by omega, he.nodup, fun tail ht => ?_⟩
  have e1 : Mkfs.sb.logstart = 2 := rfl
  have e2 : Mkfs.sb.nlog = 30 := rfl
  have e3 : Mkfs.sb.inodestart = 32 := rfl
  rw [hstart', e1, e2, e3]
  omega

/-- One operation logs two blocks and commits. -/
def twoLogged : List LogEvent :=
  [.beginOp 0] ++ logCalls [(0, 70), (0, 71)] ++
    [.endOp 0, .commit 0, .writeLog 0, .writeLog 0, .writeLog 0, .writeHead 0]

/-- It stays in the region all the time. -/
theorem log_in_region_commit :
    ∃ s, run (step .mkfs) (start .mkfs fun _ => Bytes.zero) twoLogged = .ok s ∧
      ∀ tr1 tr2 s1, twoLogged = tr1 ++ tr2 →
        run (step .mkfs) (start .mkfs fun _ => Bytes.zero) tr1 = .ok s1 → s1.InLogRegion :=
  ⟨_, rfl, ((log_in_region_iff (fun _ => Bytes.zero) twoLogged (by decide)
    (budget_of_allCalls (by decide))).2 _ rfl).mpr (by decide)⟩

/-- Two operations pass the capacity test while 28 blocks are logged, and both insert. -/
def overfull : List LogEvent :=
  [.beginOp 0, .beginOp 1, .beginOp 2] ++
    logCalls ((List.range 28).map fun i => (i % 3, 100 + i)) ++
    [.logCheck 1 128, .logCheck 2 129, .logInsert 1 128 Bytes.zero, .logInsert 2 129 Bytes.zero]

/-- Then thirty blocks are logged, and the slot of the last one is the first inode block. (All
buffers of the cache are dirty then, so that `write_log` panics in `bget` before it gets there.) -/
theorem log_overruns : CrashFree overfull ∧ Budget overfull ∧
      ∃ s, run (step .mkfs) (start .mkfs fun _ => Bytes.zero) overfull = .ok s ∧
        s.log.size - 1 < s.log.lh.n ∧
        ∃ tail < s.log.lh.n, s.log.start + tail + 1 = Mkfs.sb.inodestart :=
  ⟨by decide, budget_of_allCalls (by decide), _, rfl, by decide, 29, by decide, by decide⟩

end LogSys

end Xv6
