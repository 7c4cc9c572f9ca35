import Xv6.Log
import Mathlib.Data.Finset.Card
import Mathlib.Data.Finset.Dedup

/-!
# Groups: who is in the log, and what is in it

The history of a run is cut into **groups**: the `log_write`s of all operations that commit
together. `history` reads them off the events; a group is closed by the header write that commits
it, and a crash drops the group that was open.

The control state of the machine is one of three `Stage`s — recovering, running, or one process
in `commit` with all others outside — and `Trans` lists every transition once, with its guards
and its effect on the state and on the stage. All invariants of the log are proved by cases on
`Trans`. The first of them (`GroupInv`) says that `lh.block[0..n)` holds exactly the blocks of the
open group, each once.
-/

namespace Xv6

open Function List

/-! ## The header as a list of blocks -/

namespace LogHeader

variable (lh : LogHeader) (b : ℕ)

@[simp] theorem length_blocks : lh.blocks.length = lh.n := by simp [blocks]

theorem mem_blocks : b ∈ lh.blocks ↔ ∃ i < lh.n, lh.block i = b := by
  simp [blocks]

theorem slot_of_not_mem (h : b ∉ lh.blocks) : lh.slot b = lh.n := by
  have : (List.range lh.n).find? (fun i => lh.block i == b) = none := by
    rw [find?_eq_none]
    intro i hi hb
    exact h ((mem_blocks lh b).mpr ⟨i, mem_range.mp hi, by simpa using hb⟩)
  rw [slot, this]
  rfl

theorem slot_of_mem (h : b ∈ lh.blocks) : lh.slot b < lh.n ∧ lh.block (lh.slot b) = b := by
  rcases hf : (List.range lh.n).find? (fun i => lh.block i == b) with _ | i
  · obtain ⟨i, hi, hb⟩ := (mem_blocks lh b).mp h
    rw [find?_eq_none] at hf
    exact absurd hb (by simpa using hf i (mem_range.mpr hi))
  · rw [slot, hf]
    have hb := find?_some hf
    exact ⟨mem_range.mp (mem_of_find?_eq_some hf), by simpa using hb⟩

/-- **Log absorption**: inserting a block that is logged already changes nothing, inserting a new
one appends it. -/
theorem blocks_insert :
    (lh.insert b).blocks = if b ∈ lh.blocks then lh.blocks else lh.blocks ++ [b] := by
  split
  · rename_i h
    obtain ⟨hlt, hb⟩ := slot_of_mem lh b h
    have hblock : update lh.block (lh.slot b) b = lh.block :=
      update_eq_self_iff.mpr hb.symm
    simp only [blocks, insert]
    rw [if_neg hlt.ne, hblock]
  rename_i h
  have hs := slot_of_not_mem lh b h
  simp only [blocks, insert, hs, if_true, range_succ, map_append, map_cons, map_nil, update_self]
  congr 1
  apply map_congr_left
  intro i hi
  exact update_of_ne (mem_range.mp hi).ne ..

end LogHeader

/-- The header lists the blocks of `l`, each exactly once. -/
structure Entries (lh : LogHeader) (l : List ℕ) : Prop where
  nodup : lh.blocks.Nodup
  mem : ∀ b, b ∈ lh.blocks ↔ b ∈ l

namespace Entries

variable {lh : LogHeader} {l : List ℕ}

theorem nil (h : lh.n = 0) : Entries lh [] := by
  have : lh.blocks = [] := by simp [LogHeader.blocks, h]
  exact ⟨by rw [this]; exact nodup_nil, by simp [this]⟩

/-- The count in the header is the number of distinct blocks. -/
theorem n_eq (h : Entries lh l) : lh.n = l.toFinset.card := by
  have hset : lh.blocks.toFinset = l.toFinset := by
    ext b
    simp [h.mem b]
  rw [← hset, toFinset_card_of_nodup h.nodup, LogHeader.length_blocks]

theorem insert (h : Entries lh l) (b : ℕ) : Entries (lh.insert b) (l ++ [b]) := by
  constructor
  · rw [LogHeader.blocks_insert]
    split
    · exact h.nodup
    · rename_i hb
      exact List.Nodup.append h.nodup (nodup_singleton b) (by simpa using hb)
  · intro c
    rw [LogHeader.blocks_insert, mem_append, mem_singleton, ← h.mem c]
    split
    · rename_i hb
      constructor
      · exact Or.inl
      · rintro (hc | rfl)
        · exact hc
        · exact hb
    · simp

theorem eq_nil (h : Entries lh l) (hn : lh.n = 0) : l = [] := by
  have := h.n_eq
  rw [hn] at this
  simpa using this.symm

end Entries

/-! ## The history of a run -/

/-- The updates of a run by group: `groups` committed, in order, and `cur` logged since. -/
structure History where
  groups : List (List (ℕ × Block))
  cur : List (ℕ × Block)

/-- How an event extends the history. The header write closes the group; a crash loses what was
not committed. -/
def History.add (h : History) : LogEvent → History
  | .logInsert _ b d => { h with cur := h.cur ++ [(b, d)] }
  | .writeHead _ => { groups := h.groups ++ [h.cur], cur := [] }
  | .crash => { h with cur := [] }
  | _ => h

/-- The history of a list of events. -/
def history (tr : List LogEvent) : History := tr.foldl History.add ⟨[], []⟩

@[simp] theorem history_nil : history [] = ⟨[], []⟩ := rfl

@[simp] theorem history_concat (tr : List LogEvent) (e : LogEvent) :
    history (tr ++ [e]) = (history tr).add e := by
  simp [history]

/-- The blocks a list of updates stores to. -/
def blocksOf (us : List (ℕ × Block)) : List ℕ := us.map Prod.fst

/-- The number of distinct blocks a group logs. -/
def distinct (us : List (ℕ × Block)) : ℕ := (blocksOf us).toFinset.card

@[simp] theorem blocksOf_nil : blocksOf [] = [] := rfl

@[simp] theorem blocksOf_concat (us : List (ℕ × Block)) (b : ℕ) (d : Block) :
    blocksOf (us ++ [(b, d)]) = blocksOf us ++ [b] := by
  simp [blocksOf]

/-! ## Stages -/

/-- The process is between its `begin_op` and its `end_op`. -/
def LogPc.inTrans : LogPc → Bool
  | .inOp | .logging _ => true
  | _ => false

/-- The control state of the whole machine. -/
inductive Stage : Type where
  | recovering (k : RecPc)
  | running
  /-- process `p` is in `commit`, all others are outside any operation -/
  | committing (p : ℕ) (c : CommitPc)

/-- What a stage says about the control points and counters of the state. -/
def Stage.Holds (s : LogSys) : Stage → Prop
  | .recovering k =>
    s.recovering = some k ∧ s.log.committing = false ∧ s.log.outstanding = 0 ∧
      ∀ p, s.pc p = .idle
  | .running =>
    s.recovering = none ∧ s.log.committing = false ∧ (∀ p c, s.pc p ≠ .commit c) ∧
      ∃ A : Finset ℕ, (∀ p, p ∈ A ↔ (s.pc p).inTrans) ∧ A.card = s.log.outstanding
  | .committing p c =>
    s.recovering = none ∧ s.log.committing = true ∧ s.log.outstanding = 0 ∧
      s.pc p = .commit c ∧ ∀ q, q ≠ p → s.pc q = .idle

namespace Stage.Holds

variable {s s' : LogSys} {g : Stage} {p q : ℕ} {c c' : CommitPc} {k : RecPc}

section

variable (h : g.Holds s)

include h

theorem of_inTrans (hp : (s.pc p).inTrans) : g = .running := by
  cases g with
  | recovering k =>
    rw [h.2.2.2 p] at hp
    cases hp
  | running => rfl
  | committing q c =>
    by_cases hq : p = q
    · rw [hq, h.2.2.2.1] at hp
      cases hp
    · rw [h.2.2.2.2 p hq] at hp
      cases hp

theorem of_commit (hp : s.pc p = .commit c) : g = .committing p c := by
  cases g with
  | recovering k =>
    rw [h.2.2.2 p] at hp
    cases hp
  | running => exact absurd hp (h.2.2.1 p c)
  | committing q c' =>
    by_cases hq : p = q
    · subst hq
      rw [h.2.2.2.1] at hp
      injection hp with hc
      rw [hc]
    · rw [h.2.2.2.2 p hq] at hp
      cases hp

theorem of_recovering (hk : s.recovering = some k) : g = .recovering k := by
  cases g with
  | recovering k' =>
    rw [h.1] at hk
    injection hk with hk
    rw [hk]
  | running =>
    rw [h.1] at hk
    cases hk
  | committing q c =>
    rw [h.1] at hk
    cases hk

theorem of_idle (hr : s.recovering = none) (hc : s.log.committing = false) : g = .running := by
  cases g with
  | recovering k =>
    rw [h.1] at hr
    cases hr
  | running => rfl
  | committing q c =>
    rw [h.2.1] at hc
    cases hc

/-- The stage looks at the control points and counters only. -/
theorem congr (hr : s'.recovering = s.recovering) (hpc : s'.pc = s.pc)
    (hc : s'.log.committing = s.log.committing)
    (ho : s'.log.outstanding = s.log.outstanding) : g.Holds s' := by
  cases g <;> simpa only [Stage.Holds, hr, hpc, hc, ho] using h

end

/-- The process in `commit` moves on. -/
theorem advance (h : (committing p c).Holds s) (hr : s'.recovering = s.recovering)
    (hc : s'.log.committing = s.log.committing) (ho : s'.log.outstanding = s.log.outstanding)
    (hpc : s'.pc = update s.pc p (.commit c')) : (committing p c').Holds s' := by
  obtain ⟨h1, h2, h3, -, h5⟩ := h
  refine ⟨by rw [hr, h1], by rw [hc, h2], by rw [ho, h3], by rw [hpc]; simp, fun q hq => ?_⟩
  rw [hpc, update_of_ne hq]
  exact h5 q hq

end Stage.Holds

/-! ## Transitions

Every successful event, with what it needs, its effect, and how the stage changes. -/

/-- `Trans r s g e s' g'`: in state `s` at stage `g`, event `e` leads to `s'` at stage `g'`. -/
inductive Trans (r : LogRegion) (s : LogSys) : Stage → LogEvent → LogSys → Stage → Prop where
  | beginOp (p : ℕ) (hpc : s.pc p = .idle)
      (hn : s.log.lh.n + (s.log.outstanding + 1) * MAXOPBLOCKS ≤ LOGSIZE) :
      Trans r s .running (.beginOp p)
        ({ s with log := { s.log with outstanding := s.log.outstanding + 1 } }.setPc p .inOp)
        .running
  | logCheck (p b : ℕ) (hpc : s.pc p = .inOp) (hb : b < FSSIZE) (hn : s.log.lh.n < s.log.size - 1) :
      Trans r s .running (.logCheck p b)
        ({ s with busy := update s.busy b true }.setPc p (.logging b)) .running
  | logInsert (p b : ℕ) (d : Block) (hpc : s.pc p = .logging b)
      (hslot : s.log.lh.slot b < LOGSIZE) :
      Trans r s .running (.logInsert p b d) ({ s.setLh (s.log.lh.insert b) with
          cache := update s.cache b (some ⟨d, true⟩)
          busy := update s.busy b false }.setPc p .inOp) .running
  | endOpLast (p : ℕ) (hpc : s.pc p = .inOp) (ho : s.log.outstanding - 1 = 0) :
      Trans r s .running (.endOp p)
        ({ s with log := { s.log with outstanding := 0, committing := true } }.setPc p
          (.commit .start)) (.committing p .start)
  | endOp (p : ℕ) (hpc : s.pc p = .inOp) (ho : s.log.outstanding - 1 ≠ 0) :
      Trans r s .running (.endOp p)
        ({ s with log := { s.log with outstanding := s.log.outstanding - 1 } }.setPc p .idle)
        .running
  | commitEmpty (p : ℕ) (hn : s.log.lh.n = 0) :
      Trans r s (.committing p .start) (.commit p) (s.setPc p (.commit .endCommit))
        (.committing p .endCommit)
  | commit (p : ℕ) (hn : 0 < s.log.lh.n) :
      Trans r s (.committing p .start) (.commit p) (s.setPc p (.commit (.writeLog 0)))
        (.committing p (.writeLog 0))
  | writeLog (p tail : ℕ) (ht : tail < s.log.lh.n) :
      Trans r s (.committing p (.writeLog tail)) (.writeLog p)
        ((s.writeLogSlot tail).setPc p (.commit (.writeLog (tail + 1))))
        (.committing p (.writeLog (tail + 1)))
  | writeLogEnd (p tail : ℕ) (ht : s.log.lh.n ≤ tail) :
      Trans r s (.committing p (.writeLog tail)) (.writeLog p)
        (s.setPc p (.commit .writeHead)) (.committing p .writeHead)
  | writeHead (p : ℕ) : Trans r s (.committing p .writeHead) (.writeHead p)
        (s.writeHeadBlock.setPc p (.commit (.install 0))) (.committing p (.install 0))
  | install (p tail : ℕ) (ht : tail < s.log.lh.n) :
      Trans r s (.committing p (.install tail)) (.installTrans p)
        ((s.installSlot tail).setPc p (.commit (.install (tail + 1))))
        (.committing p (.install (tail + 1)))
  | installEnd (p tail : ℕ) (ht : s.log.lh.n ≤ tail) :
      Trans r s (.committing p (.install tail)) (.installTrans p)
        ((s.setLh { s.log.lh with n := 0 }).setPc p (.commit .clearHead))
        (.committing p .clearHead)
  | clearHead (p : ℕ) : Trans r s (.committing p .clearHead) (.clearHead p)
        (s.writeHeadBlock.setPc p (.commit .endCommit)) (.committing p .endCommit)
  | endCommit (p : ℕ) : Trans r s (.committing p .endCommit) (.endCommit p)
        ({ s with log := { s.log with committing := false } }.setPc p .idle) .running
  | load (g : Stage) (b : ℕ) : Trans r s g (.load b) (s.bread b) g
  | evict (g : Stage) (b : ℕ) (data : Block) (hc : s.cache b = some ⟨data, false⟩) :
      Trans r s g (.evict b) { s with cache := update s.cache b none } g
  | crash (g : Stage) : Trans r s g .crash (LogSys.restart r s.disk) (.recovering .readHead)
  | recoverRead (hn : LogHeader.diskN (s.view s.log.start) ≤ LOGSIZE) :
      Trans r s (.recovering .readHead) .recoverRead
        { s.readHeadBlock with recovering := some (.install 0) } (.recovering (.install 0))
  | recoverInstall (tail : ℕ) (ht : tail < s.log.lh.n) :
      Trans r s (.recovering (.install tail)) .recoverInstall
        { s.installSlot tail with recovering := some (.install (tail + 1)) }
        (.recovering (.install (tail + 1)))
  | recoverInstallEnd (tail : ℕ) (ht : s.log.lh.n ≤ tail) :
      Trans r s (.recovering (.install tail)) .recoverInstall
        { s.setLh { s.log.lh with n := 0 } with recovering := some .clearHead }
        (.recovering .clearHead)
  | recoverClear : Trans r s (.recovering .clearHead) .recoverClear
        { s.writeHeadBlock with recovering := none } .running

/-- A process enters or leaves the set of operations in progress. -/
private theorem card_active {pc : ℕ → LogPc} {A : Finset ℕ}
    (hA : ∀ q, q ∈ A ↔ (pc q).inTrans) (p : ℕ) (c : LogPc) :
    (c.inTrans → ∀ q, q ∈ insert p A ↔ (update pc p c q).inTrans) ∧
      (¬ c.inTrans → ∀ q, q ∈ A.erase p ↔ (update pc p c q).inTrans) := by
  constructor <;> intro hc q <;> by_cases hq : q = p
  · subst hq
    simp [hc]
  · simp [hq, hA q]
  · subst hq
    simp [hc]
  · simp [hq, hA q]

namespace LogSys

variable {r : LogRegion}

/-- **Every event is one of the transitions**, and the stage is right after it again. -/
theorem step_trans {s s' : LogSys} {g : Stage} {e : LogEvent}
    (hg : g.Holds s) (h : s.step r e = .ok s') : ∃ g', Trans r s g e s' g' ∧ g'.Holds s' := by
  cases e with
  | beginOp p =>
    obtain ⟨hpc, hrec, hc, hn, rfl⟩ := beginOp_inv h
    obtain rfl := hg.of_idle hrec hc
    refine ⟨_, .beginOp p hpc hn, hrec, hc, fun q c => ?_, ?_⟩
    · by_cases hq : q = p
      · simp [hq]
      · simpa [hq] using hg.2.2.1 q c
    · obtain ⟨A, hA, hcard⟩ := hg.2.2.2
      have hp : p ∉ A := by simp [hA, hpc, LogPc.inTrans]
      exact ⟨insert p A, (card_active hA p .inOp).1 rfl, by simp [hp, hcard]⟩
  | logCheck p b =>
    obtain ⟨hpc, hb, hn, rfl⟩ := logCheck_inv h
    obtain rfl := hg.of_inTrans (p := p) (by rw [hpc]; rfl)
    refine ⟨_, .logCheck p b hpc hb hn, hg.1, hg.2.1, fun q c => ?_, ?_⟩
    · by_cases hq : q = p
      · simp [hq]
      · simpa [hq] using hg.2.2.1 q c
    · obtain ⟨A, hA, hcard⟩ := hg.2.2.2
      have hp : p ∈ A := by simp [hA, hpc, LogPc.inTrans]
      exact ⟨insert p A, (card_active hA p (.logging b)).1 rfl, by simp [hp, hcard]⟩
  | logInsert p b d =>
    obtain ⟨hpc, hslot, rfl⟩ := logInsert_inv h
    obtain rfl := hg.of_inTrans (p := p) (by rw [hpc]; rfl)
    refine ⟨_, .logInsert p b d hpc hslot, hg.1, hg.2.1, fun q c => ?_, ?_⟩
    · by_cases hq : q = p
      · simp [hq]
      · simpa [hq] using hg.2.2.1 q c
    · obtain ⟨A, hA, hcard⟩ := hg.2.2.2
      have hp : p ∈ A := by simp [hA, hpc, LogPc.inTrans]
      exact ⟨insert p A, (card_active hA p .inOp).1 rfl, by simp [hp, hcard]⟩
  | endOp p =>
    obtain ⟨hpc, hc, ⟨ho, rfl⟩ | ⟨ho, rfl⟩⟩ := endOp_inv h
    all_goals obtain rfl := hg.of_inTrans (p := p) (by rw [hpc]; rfl)
    all_goals obtain ⟨A, hA, hcard⟩ := hg.2.2.2
    all_goals have hp : p ∈ A := by simp [hA, hpc, LogPc.inTrans]
    · -- the last one out: nobody else is in an operation
      refine ⟨_, .endOpLast p hpc ho, hg.1, rfl, rfl, by simp, fun q hq => ?_⟩
      have hq' : q ∉ A := by
        intro hqA
        have : ({p, q} : Finset ℕ).card ≤ A.card := Finset.card_le_card (by
          intro x hx
          rcases Finset.mem_insert.mp hx with rfl | hx
          · exact hp
          · rwa [Finset.mem_singleton.mp hx])
        rw [Finset.card_pair (Ne.symm hq)] at this
        omega
      have hnot := hg.2.2.1 q
      rw [hA] at hq'
      simp only [setPc_pc, update_of_ne hq]
      rcases hpq : s.pc q with _ | _ | _ | c
      · rfl
      · simp [hpq, LogPc.inTrans] at hq'
      · simp [hpq, LogPc.inTrans] at hq'
      · exact absurd hpq (hnot c)
    · refine ⟨_, .endOp p hpc ho, hg.1, hg.2.1, fun q c => ?_, ?_⟩
      · by_cases hq : q = p
        · simp [hq]
        · simpa [hq] using hg.2.2.1 q c
      · exact ⟨A.erase p, (card_active hA p .idle).2 (by simp [LogPc.inTrans]), by simp [hp, hcard]⟩
  | commit p =>
    obtain ⟨hpc, rfl⟩ := commit_inv h
    obtain rfl := hg.of_commit hpc
    by_cases hn : 0 < s.log.lh.n
    · rw [if_pos hn]
      exact ⟨_, .commit p hn, hg.advance rfl rfl rfl rfl⟩
    · rw [if_neg hn]
      exact ⟨_, .commitEmpty p (by omega), hg.advance rfl rfl rfl rfl⟩
  | writeLog p =>
    obtain ⟨tail, hpc, ⟨ht, rfl⟩ | ⟨ht, rfl⟩⟩ := writeLog_inv h
    all_goals obtain rfl := hg.of_commit hpc
    · exact ⟨_, .writeLog p tail ht, hg.advance (by simp) (by simp) (by simp) (by simp)⟩
    · exact ⟨_, .writeLogEnd p tail ht, hg.advance rfl rfl rfl rfl⟩
  | writeHead p =>
    obtain ⟨hpc, rfl⟩ := writeHead_inv h
    obtain rfl := hg.of_commit hpc
    exact ⟨_, .writeHead p, hg.advance (by simp) (by simp) (by simp) (by simp)⟩
  | installTrans p =>
    obtain ⟨tail, hpc, ⟨ht, rfl⟩ | ⟨ht, rfl⟩⟩ := installTrans_inv h
    all_goals obtain rfl := hg.of_commit hpc
    · exact ⟨_, .install p tail ht, hg.advance (by simp) (by simp) (by simp) (by simp)⟩
    · exact ⟨_, .installEnd p tail ht, hg.advance rfl rfl rfl rfl⟩
  | clearHead p =>
    obtain ⟨hpc, rfl⟩ := clearHead_inv h
    obtain rfl := hg.of_commit hpc
    exact ⟨_, .clearHead p, hg.advance (by simp) (by simp) (by simp) (by simp)⟩
  | endCommit p =>
    obtain ⟨hpc, rfl⟩ := endCommit_inv h
    obtain rfl := hg.of_commit hpc
    have hidle : ∀ q, update s.pc p .idle q = .idle := by
      intro q
      by_cases hq : q = p
      · simp [hq]
      · simpa [hq] using hg.2.2.2.2 q hq
    refine ⟨_, .endCommit p, hg.1, rfl, fun q c => ?_, ∅, fun q => ?_, ?_⟩
    · simp [hidle q]
    · simp [hidle q, LogPc.inTrans]
    · simp [hg.2.2.1]
  | load b =>
    obtain ⟨-, h⟩ := onDisk_ok h
    cases h
    exact ⟨g, .load g b, hg.congr (by simp) (by simp) (by simp) (by simp)⟩
  | evict b =>
    obtain ⟨⟨data, hc⟩, rfl⟩ := evict_inv h
    exact ⟨g, .evict g b data hc, hg.congr rfl rfl rfl rfl⟩
  | crash =>
    cases h
    exact ⟨_, .crash g, rfl, rfl, rfl, fun _ => rfl⟩
  | recoverRead =>
    obtain ⟨hrec, hn, rfl⟩ := recoverRead_inv h
    obtain rfl := hg.of_recovering hrec
    exact ⟨_, .recoverRead hn, rfl, by simpa [readHeadBlock] using hg.2.1,
      by simpa [readHeadBlock] using hg.2.2.1, by simpa using hg.2.2.2⟩
  | recoverInstall =>
    obtain ⟨tail, hrec, ⟨ht, rfl⟩ | ⟨ht, rfl⟩⟩ := recoverInstall_inv h
    all_goals obtain rfl := hg.of_recovering hrec
    · exact ⟨_, .recoverInstall tail ht, rfl, by simpa using hg.2.1, by simpa using hg.2.2.1,
        by simpa using hg.2.2.2⟩
    · exact ⟨_, .recoverInstallEnd tail ht, rfl, hg.2.1, hg.2.2.1, hg.2.2.2⟩
  | recoverClear =>
    obtain ⟨hrec, rfl⟩ := recoverClear_inv h
    obtain rfl := hg.of_recovering hrec
    refine ⟨_, .recoverClear, rfl, by simpa using hg.2.1, fun q c => ?_, ∅, fun q => ?_, ?_⟩
    · simp [hg.2.2.2 q]
    · simp [hg.2.2.2 q, LogPc.inTrans]
    · simp [hg.2.2.1]

theorem start_holds (r : LogRegion) (d : Disk) : Stage.running.Holds (start r d) :=
  ⟨rfl, rfl, nofun, ∅, fun _ => by simp [start, restart, LogPc.inTrans], rfl⟩

/-! ## The header lists the group -/

/-- What the in-memory header holds at each stage. -/
def GroupInv (h : History) (lh : LogHeader) : Stage → Prop
  | .recovering (.install _) => h.cur = []
  | .recovering _ => h.cur = [] ∧ lh.n = 0
  | .running => Entries lh (blocksOf h.cur)
  | .committing _ c =>
    match c with
    | .start | .writeLog _ | .writeHead => Entries lh (blocksOf h.cur)
    | .install _ => h.cur = [] ∧ ∃ us ∈ h.groups, Entries lh (blocksOf us)
    | .clearHead | .endCommit => h.cur = [] ∧ lh.n = 0

/-- The header invariant is kept by every transition. -/
theorem groupInv_step {s s' : LogSys} {g g' : Stage} {e : LogEvent} {h : History}
    (ht : Trans r s g e s' g') (hi : GroupInv h s.log.lh g) : GroupInv (h.add e) s'.log.lh g' := by
  cases ht with
  | beginOp | logCheck | endOpLast | endOp | commit | writeLog | writeLogEnd | install
  | clearHead | recoverInstall => simpa [GroupInv, History.add] using hi
  | logInsert p b d hpc hslot =>
    simpa [GroupInv, History.add] using Entries.insert hi b
  | commitEmpty p hn =>
    have hcur : blocksOf h.cur = [] := Entries.eq_nil hi hn
    exact ⟨by simpa [blocksOf, History.add] using hcur, hn⟩
  | writeHead p =>
    refine ⟨rfl, h.cur, by simp [History.add], ?_⟩
    simpa [GroupInv] using hi
  | installEnd p tail ht => exact ⟨hi.1, rfl⟩
  | endCommit p =>
    have hcur : h.cur = [] := hi.1
    simpa [GroupInv, History.add, hcur] using Entries.nil hi.2
  | load g b => simpa [GroupInv, History.add] using hi
  | evict g b data hc => simpa [GroupInv, History.add] using hi
  | crash g => exact ⟨rfl, rfl⟩
  | recoverRead hn => exact hi.1
  | recoverInstallEnd tail ht => exact ⟨hi, rfl⟩
  | recoverClear =>
    have hcur : h.cur = [] := hi.1
    simpa [GroupInv, History.add, hcur] using Entries.nil (by simpa using hi.2)

variable {d0 : Disk}

/-- **Every run is at some stage, and the header lists the blocks of the group.** -/
theorem run_groupInv : ∀ (tr : List LogEvent) (s : LogSys), run (step r) (start r d0) tr = .ok s →
      ∃ g : Stage, g.Holds s ∧ GroupInv (history tr) s.log.lh g := by
  refine run_history ⟨.running, start_holds r d0, Entries.nil rfl⟩ ?_
  rintro tr s s' e - ⟨g, hg, hi⟩ hs
  obtain ⟨g', ht, hg'⟩ := step_trans hg hs
  exact ⟨g', hg', by rw [history_concat]; exact groupInv_step ht hi⟩

variable {tr : List LogEvent}

/-- Where the log lies never changes. -/
theorem run_region {s : LogSys} (hrun : run (step r) (start r d0) tr = .ok s) :
    s.log.start = r.start ∧ s.log.size = r.size := by
  have key : ∀ (tr : List LogEvent) (s : LogSys), run (step r) (start r d0) tr = .ok s →
      (∃ g : Stage, g.Holds s) ∧ s.log.start = r.start ∧ s.log.size = r.size := by
    refine run_history ⟨⟨.running, start_holds r d0⟩, rfl, rfl⟩ ?_
    rintro tr s s' e - ⟨⟨g, hg⟩, h1, h2⟩ hs
    obtain ⟨g', ht, hg'⟩ := step_trans hg hs
    refine ⟨⟨g', hg'⟩, ?_⟩
    cases ht with
    | crash => exact ⟨rfl, rfl⟩
    | recoverRead => simpa [readHeadBlock] using ⟨h1, h2⟩
    | _ => simpa using ⟨h1, h2⟩
  exact (key tr s hrun).2

/-- While an operation is open, the header lists exactly the blocks its group has logged. -/
theorem entries_of_inTrans {s : LogSys} {p : ℕ}
    (hrun : run (step r) (start r d0) tr = .ok s) (hp : (s.pc p).inTrans) :
    Entries s.log.lh (blocksOf (history tr).cur) := by
  obtain ⟨g, hg, hi⟩ := run_groupInv tr s hrun
  obtain rfl := hg.of_inTrans hp
  exact hi

end LogSys

end Xv6
