import Xv6.BcacheLog
import Mathlib.Algebra.Order.BigOperators.Group.Finset

/-!
# Are `NBUF` buffers enough?

`bget` panics when every buffer is busy or dirty. The dirty ones are the logged blocks, at most
`lh.n`; the busy ones are held by open transactions, up to three each, or by `commit`. So the cache
is large enough as long as a transaction that reads a block into the cache finds

    lh.n + 3 * outstanding ≤ NBUF,

and `commit` as long as the header lists fewer than `NBUF` blocks. `begin_op` reserves
`MAXOPBLOCKS` blocks for each transaction, in a log as large as the cache, and nothing for the
buffers that are only read: three transactions can run the cache out of buffers
(`out_of_buffers`).
-/

namespace Xv6

open Function List

namespace Bcache

variable {c c' : Bcache} {p q i b : ℕ} {L : List ℕ}

/-- The buffers that process `p` holds. -/
def heldBy (c : Bcache) (p : ℕ) : Finset ℕ := (Finset.range NBUF).filter fun i => c.owner i = some p

theorem Cached.mem_heldBy (h : c.Cached) : i ∈ c.heldBy p ↔ c.owner i = some p := by
  simp only [heldBy, Finset.mem_filter, Finset.mem_range, and_iff_right_iff_imp]
  exact h.inside i p

/-- The driver keeps the owners, and its panics are its own. -/
theorem iderw_owner (h : c.iderw i = .ok c') : c'.owner = c.owner := by
  simp only [iderw] at h
  split_ifs at h <;> cases h <;> rfl

theorem iderw_ne_no_buffers : c.iderw i ≠ .error (.panic "bget: no buffers") := by
  simp only [iderw]
  split_ifs <;> simp

theorem bwrite_owner (h : c.bwrite i = .ok c') : c'.owner = c.owner := by
  rw [bwrite] at h
  split_ifs at h
  have ho := iderw_owner h
  simpa [setBuf] using ho

theorem bwrite_ne_no_buffers : c.bwrite i ≠ .error (.panic "bget: no buffers") := by
  rw [bwrite]
  split_ifs
  · simp
  · exact iderw_ne_no_buffers

theorem brelse_owner (h : c.brelse i = .ok c') : c'.owner = update c.owner i none := by
  rw [brelse] at h
  split_ifs at h
  cases h
  rfl

theorem brelse_ne_no_buffers : c.brelse i ≠ .error (.panic "bget: no buffers") := by
  rw [brelse]
  split_ifs <;> simp

/-- `bread` panics for want of a buffer only if the block is not cached and every buffer is busy or
dirty. -/
theorem bread_no_buffers {dev : UInt32} (h : c.bread p dev b = .error (.panic "bget: no buffers")) :
    c.lookup dev b = none ∧ c.victim = none := by
  rw [bread] at h
  rcases hg : c.bget p dev b with e | ⟨c1, i⟩
  · obtain rfl : e = .panic "bget: no buffers" := by simpa [hg] using h
    rw [bget] at hg
    rcases hl : c.lookup dev b with _ | k <;> rw [hl] at hg
    · rcases hv : c.victim with _ | k <;> rw [hv] at hg
      · exact ⟨rfl, rfl⟩
      · cases hg
    · simp only at hg
      split_ifs at hg
      cases hg
  simp only [hg] at h
  split_ifs at h
  rcases hi : c1.iderw i with e | c2 <;> rw [hi] at h
  · obtain rfl : e = .panic "bget: no buffers" := by simpa using h
    exact absurd hi iderw_ne_no_buffers
  · cases h

/-- Pinned blocks are at most as many as the log lists. -/
theorem Pins.card_dirty_le (h : c.Pins L) (hc : c.Cached) :
    ((Finset.range NBUF).filter fun i => (c.buf i).dirty = true).card ≤ L.length := by
  have hle := Finset.card_le_card_of_injOn (s := (Finset.range NBUF).filter fun i =>
    (c.buf i).dirty = true) (t := L.toFinset) (fun i => (c.buf i).blockno) ?_ ?_
  · exact hle.trans L.toFinset_card_le
  · intro i hi
    obtain ⟨hi, hd⟩ := Finset.mem_filter.mp hi
    exact mem_toFinset.mpr ((h.dirty i (Finset.mem_range.mp hi)).mp hd).2
  · intro i hi j hj hb
    obtain ⟨hi, hdi⟩ := Finset.mem_filter.mp hi
    obtain ⟨hj, hdj⟩ := Finset.mem_filter.mp hj
    exact hc.unique i j ((h.dirty i (Finset.mem_range.mp hi)).mp hdi).1
      ((h.dirty j (Finset.mem_range.mp hj)).mp hdj).1 hb

/-- **When `bget` finds no buffer**, the busy ones and the pinned ones fill the cache. -/
theorem Cached.full_of_no_victim (hc : c.Cached) (h : c.Pins L) (hv : c.victim = none) :
    NBUF ≤ ((Finset.range NBUF).filter fun i => (c.owner i).isSome).card + L.length := by
  have hsub : Finset.range NBUF ⊆ ((Finset.range NBUF).filter fun i => (c.owner i).isSome) ∪
      ((Finset.range NBUF).filter fun i => (c.buf i).dirty = true) := by
    intro i hi
    have hmem : i ∈ c.lru.reverse :=
      mem_reverse.mpr (hc.mem_lru.mpr (Finset.mem_range.mp hi))
    have hnot := find?_eq_none.mp hv i hmem
    rw [Finset.mem_union, Finset.mem_filter, Finset.mem_filter,
      ← hc.owned i (Finset.mem_range.mp hi)]
    rcases hb : (c.buf i).busy with _ | _
    · rcases hd : (c.buf i).dirty with _ | _
      · simp [hb, hd] at hnot
      · exact Or.inr ⟨hi, rfl⟩
    · exact Or.inl ⟨hi, rfl⟩
  have hcard := (Finset.card_le_card hsub).trans (Finset.card_union_le _ _)
  rw [Finset.card_range] at hcard
  exact hcard.trans (Nat.add_le_add_left (h.card_dirty_le hc) _)

/-- A pinned block is found in the cache. -/
theorem Pins.lookup_ne_none (h : c.Pins L) (hc : c.Cached) (hb : b ∈ L) : c.lookup 1 b ≠ none := by
  obtain ⟨i, hu, rfl⟩ := h.cached b hb
  intro hnone
  have := find?_eq_none.mp hnone i (hc.mem_lru.mpr hu.1)
  exact this (by simpa using (hc.ready i hu).1)

end Bcache

/-- The buffers that `commit` holds at a control point. -/
def CommitAt.buffers : CommitAt → List ℕ
  | .logFrom _ tbuf | .logRelTo _ tbuf => [tbuf]
  | .logCopy _ tbuf fbuf | .logRelFrom _ tbuf fbuf => [tbuf, fbuf]
  | .headPut _ i | .headRel _ i => [i]
  | .instHome _ lbuf => [lbuf]
  | .instCopy _ lbuf dbuf | .instRelLog _ lbuf dbuf => [lbuf, dbuf]
  | .instRelHome _ dbuf => [dbuf]
  | _ => []

namespace BufSys

variable {s s' : BufSys} {p q i : ℕ} {k : CommitAt}

/-! ## Conditions -/

/-- Only transactions and `commit` use the cache: a transaction holds at most three buffers at a
time, has released them all when it ends, and writes through the log only. -/
def Transactional (s : BufSys) : BufEvent → Prop
  | .bread p _ _ => s.pc p = .inOp ∧ (s.bc.heldBy p).card < 3
  | .modify p i _ => s.pc p = .inOp ∧ ¬ LogRegion.mkfs.Has (s.bc.buf i).blockno
  | .logCheck _ i => ¬ LogRegion.mkfs.Has (s.bc.buf i).blockno
  | .bwrite _ _ => False
  | .endOp p => (s.bc.heldBy p).card = 0
  | _ => True

/-- The cache has room: a transaction that reads a block into the cache leaves every open
transaction its three buffers, and the capacity test of `log_write` still holds when the block is
entered. -/
def Roomy (s : BufSys) : BufEvent → Prop
  | .bread _ dev b => s.bc.lookup dev b = none → s.log.lh.n + 3 * s.log.outstanding ≤ NBUF
  | .logInsert p => match s.pc p with
    | .logging i => (s.bc.buf i).blockno ∈ s.log.lh.blocks ∨ s.log.lh.n < s.log.size - 1
    | _ => True
  | _ => True

variable {e : BufEvent}

theorem Transactional.disciplined (h : s.Transactional e) : s.Disciplined e := by
  cases e <;> simp only [Transactional, Disciplined] at h ⊢
  case modify => exact ⟨h.2, Or.inl h.1⟩
  case logCheck => exact h

/-! ## The invariant -/

/-- Who holds how many buffers, and how full the log is. -/
structure Sized (s : BufSys) : Prop where
  inv : s.Inv
  three : ∀ q, (s.bc.heldBy q).card ≤ 3
  inside : ∀ i q, s.bc.owner i = some q → s.pc q ≠ .idle
  commit : ∀ q k i, s.pc q = .commit k → s.bc.owner i = some q → i ∈ k.buffers
  room : s.log.lh.n < NBUF

/-- The owners change only by letting go. -/
theorem Sized.of_owner_le (h : s.Sized) (hi : s'.Inv) (hpc : ∀ q, s.pc q ≠ .idle → s'.pc q ≠ .idle)
    (hown : ∀ i q, s'.bc.owner i = some q → s.bc.owner i = some q)
    (hcommit : ∀ q k i, s'.pc q = .commit k → s'.bc.owner i = some q → i ∈ k.buffers)
    (hroom : s'.log.lh.n < NBUF) : s'.Sized := by
  refine ⟨hi, fun q => ?_, fun i q ho => hpc q (h.inside i q (hown i q ho)), hcommit, hroom⟩
  refine (Finset.card_le_card fun i hm => ?_).trans (h.three q)
  rw [hi.cached.mem_heldBy] at hm
  rw [h.inv.cached.mem_heldBy]
  exact hown i q hm

/-- Busy buffers, counted by transaction. -/
theorem Sized.busy_lt (h : s.Sized) (hrun : s.Running) (hp : s.pc p = .inOp)
    (hheld : (s.bc.heldBy p).card < 3) :
    ((Finset.range NBUF).filter fun i => (s.bc.owner i).isSome).card < 3 * s.log.outstanding := by
  obtain ⟨A, hA, hcard⟩ := hrun.count
  have hsub : ((Finset.range NBUF).filter fun i => (s.bc.owner i).isSome) ⊆
      A.biUnion s.bc.heldBy := by
    intro i hi
    obtain ⟨q, hq⟩ := Option.isSome_iff_exists.mp (Finset.mem_filter.mp hi).2
    exact Finset.mem_biUnion.mpr ⟨q, (hA q).mpr (h.inside i q hq), h.inv.cached.mem_heldBy.mpr hq⟩
  calc ((Finset.range NBUF).filter fun i => (s.bc.owner i).isSome).card
      ≤ (A.biUnion s.bc.heldBy).card := Finset.card_le_card hsub
    _ ≤ ∑ q ∈ A, (s.bc.heldBy q).card := Finset.card_biUnion_le
    _ < ∑ _q ∈ A, 3 := by
        refine Finset.sum_lt_sum (fun q _ => h.three q) ⟨p, (hA p).mpr ?_, hheld⟩
        rw [hp]
        simp
    _ = 3 * s.log.outstanding := by rw [Finset.sum_const_nat fun _ _ => rfl, hcard, Nat.mul_comm]

variable {f : ℕ → CommitAt}

/-- `commit` takes a buffer with each `bread`. -/
theorem owner_fetch (hc : s.bc.Cached) {b : ℕ} (hs : s.fetch p b f = .ok s') :
    ∃ i, s'.bc.owner = update s.bc.owner i (some p) ∧
      s'.pc = update s.pc p (.commit (f i)) := by
  obtain ⟨c, i, hr, rfl⟩ := fetch_ok hs
  exact ⟨i, (hc.bread_reads hr).2.owner, rfl⟩

/-- After a step of `p` the others hold no more than before, and `p` what its control point says. -/
def Tracked (s : BufSys) (p : ℕ) (s' : BufSys) : Prop :=
  (∀ i q, q ≠ p → s'.bc.owner i = some q → s.bc.owner i = some q) ∧
    ∀ k i, s'.pc p = .commit k → s'.bc.owner i = some p → i ∈ k.buffers

/-- A `bread` of `commit`: one more buffer. -/
theorem Tracked.fetch (hc : s.bc.Cached) (hk : ∀ i, s.bc.owner i = some p → i ∈ k.buffers) {b : ℕ}
    (hold : ∀ i, ∀ j ∈ k.buffers, j ∈ (f i).buffers) (hnew : ∀ i, i ∈ (f i).buffers)
    (hf : s.fetch p b f = .ok s') : s.Tracked p s' := by
  obtain ⟨i, ho, hpc⟩ := owner_fetch hc hf
  rw [Tracked, ho, hpc]
  constructor
  · intro j q hqp hj
    rcases eq_or_ne j i with rfl | hji
    · rw [update_self] at hj
      exact absurd (Option.some.inj hj).symm hqp
    · rwa [update_of_ne hji] at hj
  · intro k' j hk' hj
    obtain rfl : f i = k' := by simpa using hk'
    rcases eq_or_ne j i with rfl | hji
    · exact hnew j
    · rw [update_of_ne hji] at hj
      exact hold i j (hk j hj)

variable {k1 : CommitAt}

/-- A `bwrite` of `commit`: the same buffers. -/
theorem Tracked.bwrite (hk : ∀ i, s.bc.owner i = some p → i ∈ k.buffers) {c : Bcache}
    (hg : s.goto p k1 (c.bwrite i) = .ok s') (hc : c.owner = s.bc.owner)
    (hold : ∀ j ∈ k.buffers, j ∈ k1.buffers) : s.Tracked p s' := by
  obtain ⟨c', hw, rfl⟩ := goto_ok hg
  have ho : c'.owner = s.bc.owner := (Bcache.bwrite_owner hw).trans hc
  refine ⟨fun j q _ hj => by simpa only [setPc, ho] using hj, fun k' j hk' hj => ?_⟩
  obtain rfl : k1 = k' := by simpa [setPc] using hk'
  exact hold j (hk j (by simpa only [setPc, ho] using hj))

/-- A `brelse` of `commit`: one buffer less. -/
theorem Tracked.brelse (hk : ∀ i, s.bc.owner i = some p → i ∈ k.buffers)
    (hold : ∀ j ∈ k.buffers, j ≠ i → j ∈ k1.buffers)
    (hg : s.goto p k1 (s.bc.brelse i) = .ok s') : s.Tracked p s' := by
  obtain ⟨c, hr, rfl⟩ := goto_ok hg
  have ho := Bcache.brelse_owner hr
  have hlet : ∀ j q, c.owner j = some q → j ≠ i ∧ s.bc.owner j = some q := by
    intro j q hj
    rw [ho] at hj
    rcases eq_or_ne j i with rfl | hji
    · simp at hj
    · exact ⟨hji, by rwa [update_of_ne hji] at hj⟩
  refine ⟨fun j q _ hj => (hlet j q hj).2, fun k' j hk' hj => ?_⟩
  obtain rfl : k1 = k' := by simpa [setPc] using hk'
  obtain ⟨hji, hjo⟩ := hlet j p hj
  exact hold j (hk j hjo) hji

/-- The buffers `commit` holds, one `bread`, `bwrite` or `brelse` later. -/
theorem commit_tracked (hc : s.bc.Cached) (hs : s.commitStep p k = .ok s')
    (hk : ∀ i, s.bc.owner i = some p → i ∈ k.buffers) : s.Tracked p s' := by
  have hstay : ∀ (l : Log) (x : BufPc), (∀ k', x = .commit k' → ∀ j ∈ k.buffers, j ∈ k'.buffers) →
      s.Tracked p ({ s with log := l }.setPc p x) := by
    intro l x hx
    refine ⟨fun i q _ hi => hi, fun k' i hk' hi => ?_⟩
    exact hx k' (by simpa [setPc] using hk') i (hk i hi)
  cases k with
  | start =>
    simp only [commitStep] at hs
    cases hs
    exact hstay s.log _ fun _ _ => by rintro _ ⟨⟩
  | logTo tail =>
    simp only [commitStep] at hs
    split at hs
    · exact .fetch hc hk (fun _ => by rintro _ ⟨⟩) (by simp [CommitAt.buffers]) hs
    · cases hs
      exact hstay s.log _ fun _ _ => by rintro _ ⟨⟩
  | logFrom tail tbuf =>
    exact .fetch hc hk (by simp [CommitAt.buffers]) (by simp [CommitAt.buffers]) hs
  | logCopy tail tbuf fbuf => exact .bwrite hk hs rfl fun _ hj => hj
  | logRelFrom tail tbuf fbuf => exact .brelse hk (by simp [CommitAt.buffers]) hs
  | logRelTo tail tbuf => exact .brelse hk (by simp [CommitAt.buffers]) hs
  | headGet again => exact .fetch hc hk (fun _ => by rintro _ ⟨⟩) (by simp [CommitAt.buffers]) hs
  | headPut again i => exact .bwrite hk hs rfl fun _ hj => hj
  | headRel again i => exact .brelse hk (by simp [CommitAt.buffers]) hs
  | instLog tail =>
    simp only [commitStep] at hs
    split at hs
    · exact .fetch hc hk (fun _ => by rintro _ ⟨⟩) (by simp [CommitAt.buffers]) hs
    · cases hs
      exact hstay { s.log with lh := { s.log.lh with n := 0 } } _ fun _ _ => by rintro _ ⟨⟩
  | instHome tail lbuf =>
    exact .fetch hc hk (by simp [CommitAt.buffers]) (by simp [CommitAt.buffers]) hs
  | instCopy tail lbuf dbuf => exact .bwrite hk hs rfl fun _ hj => hj
  | instRelLog tail lbuf dbuf => exact .brelse hk (by simp +contextual [CommitAt.buffers]) hs
  | instRelHome tail dbuf => exact .brelse hk (by simp [CommitAt.buffers]) hs
  | endCommit =>
    simp only [commitStep] at hs
    cases hs
    exact hstay { s.log with committing := false } _ fun _ => by simp

/-- `commit` logs nothing, and moves on or ends. -/
theorem commit_frame (hs : s.commitStep p k = .ok s') :
    s'.log.lh.n ≤ s.log.lh.n ∧ ((∃ k', s'.pc = update s.pc p (.commit k')) ∨
      (k = .endCommit ∧ s'.pc = update s.pc p .idle ∧ s'.bc = s.bc)) := by
  have hfetch : ∀ b f, s.fetch p b f = .ok s' → s'.log.lh.n ≤ s.log.lh.n ∧
      ∃ k', s'.pc = update s.pc p (.commit k') := by
    intro b f h
    obtain ⟨c, i, -, rfl⟩ := fetch_ok h
    exact ⟨le_rfl, _, rfl⟩
  have hgoto : ∀ k x, s.goto p k x = .ok s' → s'.log.lh.n ≤ s.log.lh.n ∧
      ∃ k', s'.pc = update s.pc p (.commit k') := by
    intro k x h
    obtain ⟨c, -, rfl⟩ := goto_ok h
    exact ⟨le_rfl, _, rfl⟩
  cases k with
  | start =>
    simp only [commitStep] at hs
    cases hs
    exact ⟨le_rfl, Or.inl ⟨_, rfl⟩⟩
  | endCommit =>
    simp only [commitStep] at hs
    cases hs
    exact ⟨le_rfl, Or.inr ⟨rfl, rfl, rfl⟩⟩
  | logTo tail | instLog tail =>
    simp only [commitStep] at hs
    split at hs
    · exact (hfetch _ _ hs).imp_right Or.inl
    · cases hs
      exact ⟨by simp [setPc, setLh], Or.inl ⟨_, rfl⟩⟩
  | logFrom | headGet | instHome => exact (hfetch _ _ hs).imp_right Or.inl
  | logCopy | logRelFrom | logRelTo | headPut | headRel | instCopy | instRelLog | instRelHome =>
    exact (hgoto _ _ hs).imp_right Or.inl

theorem Sized.commit_step (h : s.Sized) (hinv : s'.Inv) (hpc : s.pc p = .commit k)
    (hs : s.commitStep p k = .ok s') : s'.Sized := by
  have hk : ∀ i, s.bc.owner i = some p → i ∈ k.buffers := fun i => h.commit p k i hpc
  obtain ⟨hothers, hmine⟩ := commit_tracked h.inv.cached hs hk
  obtain ⟨hn, hnext⟩ := commit_frame hs
  have hroom : s'.log.lh.n < NBUF := hn.trans_lt h.room
  have hother_pc : ∀ q, q ≠ p → s'.pc q = s.pc q := by
    intro q hqp
    rcases hnext with ⟨k', hk'⟩ | ⟨-, hk', -⟩ <;> rw [hk', update_of_ne hqp]
  -- what `p` itself holds at its new control point
  have hself : (∀ i, s'.bc.owner i = some p → s'.pc p ≠ .idle) ∧ (s'.bc.heldBy p).card ≤ 3 := by
    rcases hnext with ⟨k', hk'⟩ | ⟨rfl, -, hbc⟩
    · have hat : s'.pc p = .commit k' := by rw [hk', update_self]
      refine ⟨fun i _ => by rw [hat]; exact (by simp), ?_⟩
      have hsub : s'.bc.heldBy p ⊆ k'.buffers.toFinset := by
        intro i hi
        exact mem_toFinset.mpr (hmine k' i hat (hinv.cached.mem_heldBy.mp hi))
      have hlen : k'.buffers.length ≤ 2 := by cases k' <;> simp [CommitAt.buffers]
      have := (Finset.card_le_card hsub).trans k'.buffers.toFinset_card_le
      omega
    · rw [hbc]
      exact ⟨fun i hi => absurd (hk i hi) (by rintro ⟨⟩), h.three p⟩
  refine ⟨hinv, fun q => ?_, fun i q hi => ?_, fun q k' i hq hi => ?_, hroom⟩
  · rcases eq_or_ne q p with rfl | hqp
    · exact hself.2
    · refine (Finset.card_le_card fun i hi => ?_).trans (h.three q)
      rw [hinv.cached.mem_heldBy] at hi
      exact h.inv.cached.mem_heldBy.mpr (hothers i q hqp hi)
  · rcases eq_or_ne q p with rfl | hqp
    · exact hself.1 i hi
    · rw [hother_pc q hqp]
      exact h.inside i q (hothers i q hqp hi)
  · rcases eq_or_ne q p with rfl | hqp
    · exact hmine k' i hq hi
    · exact h.commit q k' i ((hother_pc q hqp).symm.trans hq) (hothers i q hqp hi)

/-- A process goes elsewhere; if out of its transaction, then with nothing in its hands. -/
theorem Sized.repc (h : s.Sized) (hinv : s'.Inv) {x : BufPc}
    (hpc : s'.pc = update s.pc p x) (hown : s'.bc.owner = s.bc.owner)
    (hx : (x = .idle ∨ ∃ k, x = .commit k) → ∀ i, s.bc.owner i ≠ some p)
    (hroom : s'.log.lh.n < NBUF) : s'.Sized := by
  refine ⟨hinv, fun q => ?_, fun i q hi => ?_, fun q k i hq hi => ?_, hroom⟩
  · have hsame : s'.bc.heldBy q = s.bc.heldBy q := by rw [Bcache.heldBy, hown]; rfl
    rw [hsame]
    exact h.three q
  · rw [hown] at hi
    rw [hpc]
    rcases eq_or_ne q p with rfl | hqp
    · rw [update_self]
      exact fun hidle => hx (Or.inl hidle) i hi
    · rw [update_of_ne hqp]
      exact h.inside i q hi
  rw [hown] at hi
  rw [hpc] at hq
  rcases eq_or_ne q p with rfl | hqp
  · rw [update_self] at hq
    exact absurd hi (hx (Or.inr ⟨k, hq⟩) i)
  · rw [update_of_ne hqp] at hq
    exact h.commit q k i hq hi

/-- **Every step that keeps to transactions and leaves room keeps the sizes.** -/
theorem Sized.step (h : s.Sized) (ht : s.Transactional e) (hr : s.Roomy e)
    (hs : s.step e = .ok s') : s'.Sized := by
  have hinv := h.inv.step ht.disciplined hs
  have hnone : ∀ p, (s.bc.heldBy p).card = 0 → ∀ i, s.bc.owner i ≠ some p := by
    intro p hp i hi
    rw [← h.inv.cached.mem_heldBy, Finset.card_eq_zero.mp hp] at hi
    exact absurd hi (Finset.notMem_empty i)
  cases trans_of_step hs with
  | beginOp p hpc hc hroom => exact h.repc hinv rfl rfl (by simp) h.room
  | bread p dev b c i hp hbr =>
    obtain ⟨hin, hheld⟩ := ht
    obtain ⟨-, r⟩ := h.inv.cached.bread_reads hbr
    have hown : ∀ j q, c.owner j = some q → (j = i ∧ q = p) ∨ s.bc.owner j = some q := by
      intro j q hj
      rw [r.owner] at hj
      rcases eq_or_ne j i with rfl | hji
      · rw [update_self] at hj
        exact Or.inl ⟨rfl, (Option.some.inj hj).symm⟩
      · rw [update_of_ne hji] at hj
        exact Or.inr hj
    refine ⟨hinv, fun q => ?_, fun j q hj => ?_, fun q k j hq hj => ?_, h.room⟩
    · rcases eq_or_ne q p with rfl | hqp
      · have hsub : c.heldBy q ⊆ insert i (s.bc.heldBy q) := by
          intro j hj
          rw [hinv.cached.mem_heldBy] at hj
          rw [Finset.mem_insert, h.inv.cached.mem_heldBy]
          exact (hown j q hj).imp And.left id
        have hle := (Finset.card_le_card hsub).trans (Finset.card_insert_le _ _)
        exact hle.trans (by omega)
      · refine (Finset.card_le_card fun j hj => ?_).trans (h.three q)
        rw [hinv.cached.mem_heldBy] at hj
        rw [h.inv.cached.mem_heldBy]
        exact (hown j q hj).resolve_left fun hjq => hqp hjq.2
    · rcases hown j q hj with ⟨-, rfl⟩ | ho
      · simp [hin]
      · exact h.inside j q ho
    · rcases hown j q hj with ⟨-, rfl⟩ | ho
      · rw [hin] at hq
        cases hq
      · exact h.commit q k j hq ho
  | modify p i d hp ho =>
    exact h.of_owner_le hinv (fun _ hq => hq) (fun _ _ ho => ho) h.commit h.room
  | logCheck p i hpc ho hn => exact h.repc hinv rfl rfl (by simp) h.room
  | logInsert p i hpc =>
    refine h.repc hinv rfl rfl (by simp) ?_
    simp only [Roomy, hpc] at hr
    have hlen := congrArg List.length (s.log.lh.blocks_insert (s.bc.buf i).blockno)
    rw [LogHeader.length_blocks] at hlen
    have hroom := h.room
    have hsize : s.log.size = 30 := h.inv.log.size
    have hnbuf : NBUF = 30 := rfl
    simp only [setPc, setLh]
    rw [hlen]
    split
    · rw [LogHeader.length_blocks]
      exact hroom
    · rename_i hnot
      have := hr.resolve_left hnot
      rw [length_append, LogHeader.length_blocks, length_singleton]
      omega
  | bwrite p i c hp ho hw => exact ht.elim
  | brelse p i c hp ho hc hbr =>
    have hown := Bcache.brelse_owner hbr
    have hlet : ∀ j q, c.owner j = some q → s.bc.owner j = some q := by
      intro j q hj
      rw [hown] at hj
      rcases eq_or_ne j i with rfl | hji
      · simp at hj
      · rwa [update_of_ne hji] at hj
    exact h.of_owner_le hinv (fun _ hq => hq) hlet
      (fun q k j hq hj => h.commit q k j hq (hlet j q hj)) h.room
  | endOp p hpc hn h0 => exact h.repc hinv rfl rfl (fun _ => hnone p ht) h.room
  | lastOp p hpc hn => exact h.repc hinv rfl rfl (fun _ => hnone p ht) h.room
  | commit p k _ hpc hs => exact h.commit_step hinv hpc hs

theorem Sized.init (d : Disk) : (start d).Sized := by
  refine ⟨.init d, fun q => ?_, fun i q hi => ?_, fun q k i hq => ?_, (by decide : 0 < NBUF)⟩
  · simp [start, Bcache.init, Bcache.heldBy]
  · simp [start, Bcache.init] at hi
  · simp [start] at hq

/-! ## The main result -/

/-- In `commit` nobody but `commit` holds a buffer. -/
theorem Sized.commit_alone (h : s.Sized) (hcom : s.Committing p k) (hk : k.buffers = []) :
    ((Finset.range NBUF).filter fun i => (s.bc.owner i).isSome).card = 0 := by
  rw [Finset.card_eq_zero, Finset.filter_eq_empty_iff]
  intro i _ hi
  obtain ⟨q, hq⟩ := Option.isSome_iff_exists.mp hi
  rcases eq_or_ne q p with rfl | hqp
  · have := h.commit q k i hcom.here hq
    rw [hk] at this
    exact absurd this (not_mem_nil)
  · exact h.inside i q hq (hcom.others q hqp)

/-- A step of `commit` finds a buffer. -/
theorem Sized.commit_finds (h : s.Sized) (hpc : s.pc p = .commit k) :
    s.commitStep p k ≠ .error (.panic "bget: no buffers") := by
  intro hs
  obtain ⟨p', k', hcom⟩ : ∃ p k, s.Committing p k := by
    rcases h.inv.stage with hrun | hcom
    · exact absurd hpc (hrun.outside p k)
    · exact hcom
  obtain rfl : p = p' := by
    by_contra hpp
    rw [hcom.others p hpp] at hpc
    cases hpc
  obtain rfl : k = k' := by simpa using hpc.symm.trans hcom.here
  have hc := h.inv.cached
  have hpins := hcom.point.pins
  have hlen : (s.log.lh.blocks.drop k.installed).length < NBUF := by
    have := h.room
    rw [length_drop, LogHeader.length_blocks]
    omega
  have hfetch : ∀ b f, (k.buffers = [] ∨ b ∈ s.log.lh.blocks.drop k.installed) →
      s.fetch p b f ≠ .error (.panic "bget: no buffers") := by
    intro b f hb hf
    have hr : s.bc.bread p 1 b = .error (.panic "bget: no buffers") := by
      rw [fetch] at hf
      rcases hr : s.bc.bread p 1 b with e | ⟨c, i⟩ <;> rw [hr] at hf
      · rw [Except.error.inj hf]
      · cases hf
    obtain ⟨hlook, hv⟩ := Bcache.bread_no_buffers hr
    rcases hb with hempty | hin
    · have hfull := hc.full_of_no_victim hpins hv
      rw [h.commit_alone hcom hempty] at hfull
      omega
    · exact hpins.lookup_ne_none hc hin hlook
  have hgoto : ∀ k x, x ≠ .error (.panic "bget: no buffers") →
      s.goto p k x ≠ .error (.panic "bget: no buffers") := by
    intro k x hx hg
    rcases x with e | c
    · exact hx (by rw [Except.error.inj hg])
    · cases hg
  cases k with
  | start | endCommit =>
    simp only [commitStep] at hs
    cases hs
  | logTo tail | instLog tail =>
    simp only [commitStep] at hs
    split at hs
    · exact hfetch _ _ (Or.inl rfl) hs
    · cases hs
  | headGet again => exact hfetch _ _ (Or.inl rfl) hs
  | logFrom tail tbuf | instHome tail lbuf =>
    refine hfetch _ _ (Or.inr ?_) hs
    exact (LogOk.mem_drop ..).mpr ⟨tail, by simp [CommitAt.installed], hcom.point.grips.1, rfl⟩
  | logCopy | headPut | instCopy => exact hgoto _ _ Bcache.bwrite_ne_no_buffers hs
  | logRelFrom | logRelTo | headRel | instRelLog | instRelHome =>
    exact hgoto _ _ Bcache.brelse_ne_no_buffers hs

/-- **`NBUF` buffers are enough** for transactions that hold at most three at a time, and for the
commits after them, in every run in which a transaction that reads a block into the cache finds
`lh.n + 3 * outstanding ≤ NBUF` and the capacity test of `log_write` still holds at the insertion:
no `bread` ends in `panic("bget: no buffers")`. -/
theorem bget_finds_buffer {d : Disk} {tr : List BufEvent} {e : BufEvent}
    (hC : Meets step (start d) (fun s e => s.Transactional e ∧ s.Roomy e) (tr ++ [e]))
    (hrun : run step (start d) tr = .ok s) : s.step e ≠ .error (.panic "bget: no buffers") := by
  have h : s.Sized :=
    Meets.invariant (P := Sized) (fun _ _ _ h hC hs => h.step hC.1 hC.2 hs) (.init d)
      hC.of_append hrun
  obtain ⟨ht, hr⟩ := hC tr e [] s rfl hrun
  intro hs
  cases e with
  | bread p dev b =>
    obtain ⟨hin, hheld⟩ := ht
    have hrun := h.inv.running (Or.inl hin)
    simp only [step, atLarge, hin, or_true, if_true] at hs
    have hbr : s.bc.bread p dev b = .error (.panic "bget: no buffers") := by
      rcases hbr : s.bc.bread p dev b with e | ⟨c, i⟩ <;> rw [hbr] at hs
      · rw [Except.error.inj hs]
      · cases hs
    obtain ⟨hlook, hv⟩ := Bcache.bread_no_buffers hbr
    have hfull := h.inv.cached.full_of_no_victim hrun.pins hv
    have hbusy := h.busy_lt hrun hin hheld
    have hroom := hr hlook
    rw [LogHeader.length_blocks] at hfull
    omega
  | commit p =>
    simp only [step] at hs
    split at hs
    · rename_i k hpc
      exact h.commit_finds hpc hs
    · cases hs
  | bwrite p i => exact ht
  | brelse p i =>
    simp only [step] at hs
    split at hs
    · rcases hbr : s.bc.brelse i with e | c <;> rw [hbr] at hs
      · exact Bcache.brelse_ne_no_buffers (by rw [hbr, Except.error.inj hs])
      · cases hs
    · cases hs
  | beginOp | modify | logCheck | logInsert | endOp =>
    simp only [step] at hs
    repeat' split at hs
    all_goals simp at hs

instance (s : BufSys) (e : BufEvent) : Decidable (s.Transactional e) := by
  apply BufEvent.casesOn (motive := fun e => Decidable (s.Transactional e)) e <;> intros <;>
    dsimp only [Transactional] <;> infer_instance

instance (s : BufSys) (e : BufEvent) : Decidable (s.Roomy e) := by
  apply BufEvent.casesOn (motive := fun e => Decidable (s.Roomy e)) e <;> intros <;>
    dsimp only [Roomy] <;> try infer_instance
  split <;> infer_instance

/-- Process `p` reads block `b` into buffer `i`, logs it and releases it. -/
def logBlock (p i b : ℕ) : List BufEvent :=
  [.bread p 1 b, .logCheck p i, .logInsert p, .brelse p i]

/-- A transaction of two blocks with its commit, and the first read of another one. -/
def twoBlocks : List BufEvent :=
  [.beginOp 0] ++ logBlock 0 0 100 ++ logBlock 0 1 101 ++ [.endOp 0] ++
    List.replicate 30 (.commit 0) ++ [.beginOp 1]

theorem bget_finds_buffer_twoBlocks :
    ∃ s, run step (start fun _ _ => 0) twoBlocks = .ok s ∧ (s.pc 1 = .inOp ∧ s.log.lh.n = 0) ∧
      s.step (.bread 1 1 200) ≠ .error (.panic "bget: no buffers") := by
  obtain ⟨s, hrun, hs⟩ := exists_ok_of_check (x := run step (start fun _ _ => 0) twoBlocks)
    (P := fun s => s.pc 1 = .inOp ∧ s.log.lh.n = 0) (by decide)
  exact ⟨s, hrun, hs, bget_finds_buffer (.of_check (by decide)) hrun⟩

/-- `e` is a log entry of process `p`. -/
def logsOf (p : ℕ) : BufEvent → Bool
  | .logInsert q => p = q
  | _ => false

/-- Three transactions log nine blocks each, and the first of them then holds three more. -/
def threeOps : List BufEvent :=
  [.beginOp 0, .beginOp 1, .beginOp 2] ++
    (List.range 27).flatMap (fun i => logBlock (i / 9) i (100 + i)) ++
    [.bread 0 1 200, .bread 0 1 201, .bread 0 1 202]

/-- **Three admitted transactions run the cache out of buffers.** They keep to the rules for
transactions, and each logs nine blocks of the `MAXOPBLOCKS` that `begin_op` reserved for it. -/
theorem out_of_buffers :
    Meets step (start fun _ _ => 0) Transactional (threeOps ++ [.bread 1 1 203]) ∧
      (∀ p < 3, threeOps.countP (logsOf p) ≤ MAXOPBLOCKS) ∧
      ∃ s, run step (start fun _ _ => 0) threeOps = .ok s ∧
        s.step (.bread 1 1 203) = .error (.panic "bget: no buffers") := by
  refine ⟨.of_check (by decide), by decide, ?_⟩
  obtain ⟨s, hrun, hs⟩ := exists_ok_of_check (x := run step (start fun _ _ => 0) threeOps)
    (P := fun s => stopsWith (.panic "bget: no buffers") (s.step (.bread 1 1 203)) = true)
    (by decide)
  exact ⟨s, hrun, eq_error_of_stopsWith hs⟩

end BufSys

end Xv6
