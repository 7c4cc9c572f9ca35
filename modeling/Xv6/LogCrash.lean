import Xv6.LogSpace

/-!
# Crash atomicity of the redo log

For a run of the log machine, let the *target* be the initial disk with all committed groups
applied — a group counts as committed from its header write on. The disk of every state reached
can be brought to the target by recovery (`Recoverable`): either the header is empty and the disk
has the target's contents outside the log, or the header lists blocks whose new contents are in the
log slots, and everything else outside the log is as in the target.

`Recoverable` speaks about the disk alone, so it survives a crash; each write of
`recover_from_log` keeps it with the same target, so it survives a crash of the recovery too. The
last write of a recovery empties the header, and then the disk *is* the target.
-/

namespace Xv6

open Function List

/-- Store a list of updates, in order. -/
def applyAll (us : List (ℕ × Block)) (d : Disk) : Disk :=
  us.foldl (fun d u => update d u.1 u.2) d

@[simp] theorem applyAll_nil (d : Disk) : applyAll [] d = d := rfl

theorem applyAll_append (us vs : List (ℕ × Block)) (d : Disk) :
    applyAll (us ++ vs) d = applyAll vs (applyAll us d) := by
  simp [applyAll]

theorem applyAll_concat (us : List (ℕ × Block)) (b : ℕ) (c : Block) (d : Disk) :
    applyAll (us ++ [(b, c)]) d = update (applyAll us d) b c := by
  simp [applyAll]

/-! ## The header block -/

namespace LogHeader

/-- The header block after the first `k` iterations of `write_head`'s loop. -/
private def writeUpTo (lh : LogHeader) (hb : Block) (k : ℕ) : Block :=
  (List.range k).foldl (fun hb i => hb.setU32 (4 + 4 * i) (lh.block i)) (hb.setU32 0 lh.n)

private theorem writeUpTo_succ (lh : LogHeader) (hb : Block) (k : ℕ) :
    lh.writeUpTo hb (k + 1) = (lh.writeUpTo hb k).setU32 (4 + 4 * k) (lh.block k) := by
  simp [writeUpTo, range_succ]

private theorem writeUpTo_n (lh : LogHeader) (hb : Block) (k : ℕ) (hn : lh.n < 2 ^ 32) :
    (lh.writeUpTo hb k).u32 0 = lh.n := by
  induction k with
  | zero => exact Bytes.u32_setU32_self (by decide) hn
  | succ k ih =>
    rw [writeUpTo_succ, Bytes.u32_setU32_ne (by omega)]
    exact ih

private theorem writeUpTo_block (lh : LogHeader) (hb : Block) (k : ℕ) (hk : k ≤ LOGSIZE)
    (hlt : ∀ i < k, lh.block i < 2 ^ 32) :
    ∀ i < k, (lh.writeUpTo hb k).u32 (4 + 4 * i) = lh.block i := by
  induction k with
  | zero => intro i hi; omega
  | succ k ih =>
    intro i hi
    have hsize : 4 + 4 * k + 4 ≤ BSIZE := by
      have := logsize_eq
      have : BSIZE = 512 := rfl
      omega
    rw [writeUpTo_succ]
    rcases Nat.lt_succ_iff_lt_or_eq.mp hi with hi | rfl
    · rw [Bytes.u32_setU32_ne (by omega)]
      exact ih (by omega) (fun j hj => hlt j (by omega)) i hi
    · exact Bytes.u32_setU32_self hsize (hlt i (by omega))

/-- What `write_head` writes reads back as the header. -/
theorem read_write (lh : LogHeader) (hb : Block) (hn : lh.n ≤ LOGSIZE)
    (hlt : ∀ i < lh.n, lh.block i < 2 ^ 32) :
    diskN (lh.write hb) = lh.n ∧ ∀ i < lh.n, diskBlock (lh.write hb) i = lh.block i :=
  ⟨writeUpTo_n lh hb lh.n (by rw [logsize_eq] at hn; omega), writeUpTo_block lh hb lh.n hn hlt⟩

end LogHeader

/-! ## Recoverable disks -/

/-- Recovery brings disk `d` to `target` outside the log region. -/
structure Recoverable (r : LogRegion) (target d : Disk) : Prop where
  fits : LogHeader.diskN (d r.start) ≤ r.size - 1 ∧ LogHeader.diskN (d r.start) ≤ LOGSIZE
  entry : ∀ i < LogHeader.diskN (d r.start), ¬ r.Has (LogHeader.diskBlock (d r.start) i) ∧
    LogHeader.diskBlock (d r.start) i < FSSIZE
  slot : ∀ i < LogHeader.diskN (d r.start),
    d (r.start + i + 1) = target (LogHeader.diskBlock (d r.start) i)
  home : ∀ b, ¬ r.Has b →
    (∀ i < LogHeader.diskN (d r.start), LogHeader.diskBlock (d r.start) i ≠ b) → d b = target b

theorem Recoverable.of_empty {r : LogRegion} {target d : Disk}
    (h0 : LogHeader.diskN (d r.start) = 0) (h : ∀ b, ¬ r.Has b → d b = target b) :
    Recoverable r target d where
  fits := by omega
  entry i hi := by omega
  slot i hi := by omega
  home b hb _ := h b hb

/-! ## Buffers

A clean buffer agrees with the disk; which buffers may be dirty depends on the stage. -/

/-- Clean buffers agree with the disk, and only blocks in `D` are dirty. -/
structure Buffers (cache : ℕ → Option Buf) (disk : Disk) (D : ℕ → Prop) : Prop where
  clean : ∀ b data, cache b = some ⟨data, false⟩ → data = disk b
  dirty : ∀ b data, cache b = some ⟨data, true⟩ → D b

namespace Buffers

variable {s : LogSys} {D D' : ℕ → Prop} {b : ℕ}

theorem mono (h : Buffers s.cache s.disk D) (hD : ∀ b, D b → D' b) : Buffers s.cache s.disk D' :=
  ⟨h.clean, fun b data hc => hD b (h.dirty b data hc)⟩

/-- What is not dirty reads as it is on disk. -/
theorem view_eq (h : Buffers s.cache s.disk D) (hb : ¬ D b) : s.view b = s.disk b := by
  unfold LogSys.view
  rcases hc : s.cache b with _ | ⟨data, _ | _⟩
  · rfl
  · exact h.clean b data hc
  · exact absurd (h.dirty b data hc) hb

/-- Reading a block in keeps what the buffers say. -/
theorem bread_cache (b c : ℕ) : (s.bread b).cache c = s.cache c ∨ (s.cache c = none ∧
      (s.bread b).cache c = some ⟨s.disk c, false⟩) := by
  unfold LogSys.bread
  split
  · exact .inl rfl
  rename_i hc
  by_cases hcb : c = b
  · subst hcb
    exact .inr ⟨hc, by simp⟩
  · exact .inl (by simp [hcb])

theorem bread (h : Buffers s.cache s.disk D) (b : ℕ) :
    Buffers (s.bread b).cache (s.bread b).disk D := by
  rw [LogSys.bread_disk]
  refine ⟨fun c data hc => ?_, fun c data hc => ?_⟩
  · rcases bread_cache (s := s) b c with heq | ⟨-, heq⟩
    · exact h.clean c data (by rw [← heq]; exact hc)
    · rw [heq] at hc
      injection hc with hc
      injection hc with hc
      exact hc.symm
  · rcases bread_cache (s := s) b c with heq | ⟨-, heq⟩
    · exact h.dirty c data (by rw [← heq]; exact hc)
    · simp [heq] at hc

/-- A written block is clean. -/
theorem bwrite (h : Buffers s.cache s.disk D) (b : ℕ) (d : Block) :
    Buffers (s.bwrite b d).cache (s.bwrite b d).disk fun c => D c ∧ c ≠ b := by
  refine ⟨fun c data hc => ?_, fun c data hc => ?_⟩ <;> by_cases hcb : c = b
  · subst hcb
    have : d = data := by simpa [LogSys.bwrite] using hc
    simp [this]
  · simp only [LogSys.bwrite, update_of_ne hcb] at hc ⊢
    exact h.clean c data hc
  · subst hcb
    simp [LogSys.bwrite] at hc
  · simp only [LogSys.bwrite, update_of_ne hcb] at hc
    exact ⟨h.dirty c data hc, hcb⟩

theorem evict (h : Buffers s.cache s.disk D) (b : ℕ) :
    Buffers (update s.cache b none) s.disk D := by
  refine ⟨fun c data hc => ?_, fun c data hc => ?_⟩ <;> by_cases hcb : c = b
  · simp [hcb] at hc
  · exact h.clean c data (by rwa [update_of_ne hcb] at hc)
  · simp [hcb] at hc
  · exact h.dirty c data (by rwa [update_of_ne hcb] at hc)

end Buffers

/-! ## The stages of a group -/

/-- Before the header write: the disk has the old contents and an empty header, the logged blocks
are in the cache, dirty, and the first `t` log slots are written. -/
structure Collecting (r : LogRegion) (old new : Disk) (L : List ℕ) (t : ℕ)
    (cache : ℕ → Option Buf) (disk : Disk) (lh : LogHeader) : Prop where
  empty : LogHeader.diskN (disk r.start) = 0
  home : ∀ b, ¬ r.Has b → disk b = old b
  held : ∀ b ∈ L, cache b = some ⟨new b, true⟩
  same : ∀ b, b ∉ L → new b = old b
  bufs : Buffers cache disk (· ∈ L)
  slot : ∀ i < t, i < lh.n → disk (r.start + i + 1) = new (lh.block i)

/-- From the header write on: the header and the log slots are on disk, and all blocks but those
of slots `t` and up are installed. -/
structure Installing (r : LogRegion) (new : Disk) (t : ℕ) (cache : ℕ → Option Buf)
    (disk : Disk) (lh : LogHeader) : Prop where
  fits : lh.n ≤ r.size - 1 ∧ lh.n ≤ LOGSIZE
  count : LogHeader.diskN (disk r.start) = lh.n
  block : ∀ i < lh.n, LogHeader.diskBlock (disk r.start) i = lh.block i
  entry : ∀ i < lh.n, ¬ r.Has (lh.block i) ∧ lh.block i < FSSIZE
  slot : ∀ i < lh.n, disk (r.start + i + 1) = new (lh.block i)
  home : ∀ b, ¬ r.Has b → (∀ i, t ≤ i → i < lh.n → lh.block i ≠ b) → disk b = new b
  bufs : Buffers cache disk fun b => ∃ i, t ≤ i ∧ i < lh.n ∧ lh.block i = b

/-- Everything is installed and only the header is left to be erased. -/
structure Installed (r : LogRegion) (new : Disk) (cache : ℕ → Option Buf) (disk : Disk)
    (lh : LogHeader) : Prop where
  recoverable : Recoverable r new disk
  home : ∀ b, ¬ r.Has b → disk b = new b
  bufs : Buffers cache disk fun _ => False
  zero : lh.n = 0

theorem LogRegion.has_slot {r : LogRegion} {i : ℕ} (h : i < r.size - 1) : r.Has (r.start + i + 1) :=
  ⟨by omega, by omega⟩

theorem LogRegion.has_start (r : LogRegion) : r.Has r.start :=
  ⟨le_rfl, by have := r.pos; omega⟩

variable {cache : ℕ → Option Buf} {lh : LogHeader} {disk : Disk}

theorem Collecting.recoverable {r : LogRegion} {old new : Disk} {L : List ℕ} {t : ℕ}
    (h : Collecting r old new L t cache disk lh) : Recoverable r old disk :=
  .of_empty h.empty h.home

theorem Installing.recoverable {r : LogRegion} {new : Disk} {t : ℕ}
    (h : Installing r new t cache disk lh) : Recoverable r new disk where
  fits := by rw [h.count]; exact h.fits
  entry i hi := by
    rw [h.count] at hi
    rw [h.block i hi]
    exact h.entry i hi
  slot i hi := by
    rw [h.count] at hi
    rw [h.block i hi]
    exact h.slot i hi
  home b hb hne := by
    refine h.home b hb fun i _ hi => ?_
    rw [← h.block i hi]
    exact hne i (by rw [h.count]; exact hi)

section Writes

variable {r : LogRegion} {old new : Disk} {L : List ℕ} {t : ℕ} {s : LogSys}

/-- `write_log` copies one logged block to its slot. -/
theorem Collecting.writeLogSlot (h : Collecting r old new L t s.cache s.disk s.log.lh)
    (hstart : s.log.start = r.start) (hL : ∀ b ∈ L, ¬ r.Has b)
    (he : Entries s.log.lh L) (ht : t < s.log.lh.n) (hfit : s.log.lh.n ≤ r.size - 1) :
    Collecting r old new L (t + 1) (s.writeLogSlot t).cache (s.writeLogSlot t).disk
      (s.writeLogSlot t).log.lh := by
  have hmem : s.log.lh.block t ∈ L := (he.mem _).mp ((LogHeader.mem_blocks _ _).mpr ⟨t, ht, rfl⟩)
  have hslot : r.Has (r.start + t + 1) := LogRegion.has_slot (by omega)
  have hnot : r.start + t + 1 ∉ L := fun hin => hL _ hin hslot
  have hview : s.view (s.log.lh.block t) = new (s.log.lh.block t) := by
    rw [LogSys.view, h.held _ hmem]
  have hdisk : (s.writeLogSlot t).disk =
      update s.disk (r.start + t + 1) (new (s.log.lh.block t)) := by
    simp [LogSys.writeLogSlot, hview, hstart]
  have hbufs : Buffers (s.writeLogSlot t).cache (s.writeLogSlot t).disk (· ∈ L) :=
    ((h.bufs.bread _).bread _).bwrite _ _ |>.mono fun c hc => hc.1
  refine ⟨?_, fun b hb => ?_, fun b hb => ?_, h.same, hbufs, fun i hi hin => ?_⟩
  · rw [hdisk, update_of_ne (by omega)]
    exact h.empty
  · rw [hdisk, update_of_ne (by rintro rfl; exact hb hslot)]
    exact h.home b hb
  · -- a logged block is not a log slot, and it was cached before
    have hne : b ≠ r.start + t + 1 := by rintro rfl; exact hnot hb
    have hkeep : ∀ (s : LogSys) (c : ℕ), s.cache b = some ⟨new b, true⟩ →
        (s.bread c).cache b = some ⟨new b, true⟩ := by
      intro s c hc
      rcases Buffers.bread_cache (s := s) c b with heq | ⟨hnone, -⟩
      · rw [heq, hc]
      · rw [hc] at hnone
        cases hnone
    simp only [LogSys.writeLogSlot, LogSys.bwrite]
    rw [hstart, update_of_ne hne]
    exact hkeep _ _ (hkeep _ _ (h.held b hb))
  · rw [LogSys.writeLogSlot_log] at hin ⊢
    rw [hdisk]
    rcases Nat.lt_succ_iff_lt_or_eq.mp hi with hi | rfl
    · rw [update_of_ne (by omega)]
      exact h.slot i hi hin
    · rw [update_self]

/-- The header write turns the new contents into the target: the commit point. -/
theorem Collecting.writeHead (h : Collecting r old new L s.log.lh.n s.cache s.disk s.log.lh)
    (hstart : s.log.start = r.start) (hL : ∀ b ∈ L, ¬ r.Has b ∧ b < FSSIZE)
    (he : Entries s.log.lh L) (hfit : s.log.lh.n ≤ r.size - 1 ∧ s.log.lh.n ≤ LOGSIZE) :
    Installing r new 0 s.writeHeadBlock.cache s.writeHeadBlock.disk s.writeHeadBlock.log.lh := by
  have hmem : ∀ i < s.log.lh.n, s.log.lh.block i ∈ L := fun i hi =>
    (he.mem _).mp ((LogHeader.mem_blocks _ _).mpr ⟨i, hi, rfl⟩)
  have hdisk : s.writeHeadBlock.disk = update s.disk r.start (s.log.lh.write (s.view r.start)) := by
    simp [LogSys.writeHeadBlock, hstart]
  obtain ⟨hn, hblock⟩ := s.log.lh.read_write (s.view r.start) hfit.2 fun i hi => by
    have := (hL _ (hmem i hi)).2
    have hfs : FSSIZE = 1000 := rfl
    omega
  rw [LogSys.writeHeadBlock_log]
  refine ⟨hfit, ?_, fun i hi => ?_, fun i hi => hL _ (hmem i hi), fun i hi => ?_,
    fun b hb hne => ?_, ?_⟩
  · rw [hdisk, update_self]
    exact hn
  · rw [hdisk, update_self]
    exact hblock i hi
  · rw [hdisk, update_of_ne (by omega)]
    exact h.slot i hi hi
  · rw [hdisk, update_of_ne (by rintro rfl; exact hb r.has_start), h.home b hb, h.same b]
    intro hbL
    obtain ⟨i, hi, rfl⟩ := (LogHeader.mem_blocks _ _).mp ((he.mem b).mpr hbL)
    exact hne i (Nat.zero_le i) hi rfl
  · refine ((h.bufs.bread _).bwrite _ _).mono fun c hc => ?_
    obtain ⟨i, hi, hib⟩ := (LogHeader.mem_blocks _ _).mp ((he.mem c).mpr hc.1)
    exact ⟨i, Nat.zero_le i, hi, hib⟩

/-- `install_trans` copies one log slot home. -/
theorem Installing.installSlot (h : Installing r new t s.cache s.disk s.log.lh)
    (hstart : s.log.start = r.start) (ht : t < s.log.lh.n) :
    Installing r new (t + 1) (s.installSlot t).cache (s.installSlot t).disk
      (s.installSlot t).log.lh := by
  have hslot : ∀ i < s.log.lh.n, r.Has (r.start + i + 1) := fun i hi =>
    LogRegion.has_slot (by have := h.fits.1; omega)
  have hhome := (h.entry t ht).1
  have hview : s.view (r.start + t + 1) = new (s.log.lh.block t) := by
    rw [h.bufs.view_eq, h.slot t ht]
    rintro ⟨i, -, hi, hib⟩
    exact (h.entry i hi).1 (hib ▸ hslot t ht)
  have hdisk : (s.installSlot t).disk =
      update s.disk (s.log.lh.block t) (new (s.log.lh.block t)) := by
    simp [LogSys.installSlot, hview, hstart]
  -- the header and the slots are not overwritten
  have hlog : ∀ b, r.Has b → (s.installSlot t).disk b = s.disk b := by
    intro b hb
    rw [hdisk, update_of_ne (by rintro rfl; exact hhome hb)]
  rw [LogSys.installSlot_log]
  refine ⟨h.fits, ?_, fun i hi => ?_, h.entry, fun i hi => ?_, fun b hb hne => ?_, ?_⟩
  · rw [hlog _ r.has_start]
    exact h.count
  · rw [hlog _ r.has_start]
    exact h.block i hi
  · rw [hlog _ (hslot i hi)]
    exact h.slot i hi
  · rw [hdisk]
    by_cases hbt : b = s.log.lh.block t
    · rw [hbt, update_self]
    rw [update_of_ne hbt]
    refine h.home b hb fun i hi hin => ?_
    rcases Nat.eq_or_lt_of_le hi with rfl | hi
    · exact Ne.symm hbt
    · exact hne i hi hin
  · refine (((h.bufs.bread _).bread _).bwrite _ _).mono ?_
    rintro c ⟨⟨i, hi, hin, hib⟩, hne⟩
    refine ⟨i, ?_, hin, hib⟩
    rcases Nat.eq_or_lt_of_le hi with rfl | hi
    · exact absurd hib.symm (by simpa using hne)
    · exact hi

theorem Installing.installed (h : Installing r new t s.cache s.disk s.log.lh)
    (ht : s.log.lh.n ≤ t) :
    Installed r new s.cache s.disk { s.log.lh with n := 0 } where
  recoverable := h.recoverable
  home b hb := h.home b hb fun i hi hin => by omega
  bufs := h.bufs.mono fun b ⟨i, hi, hin, _⟩ => by omega
  zero := rfl

/-- The second header write empties the header. -/
theorem Installed.clear (h : Installed r new s.cache s.disk s.log.lh)
    (hstart : s.log.start = r.start) :
    Collecting r new new [] 0 s.writeHeadBlock.cache s.writeHeadBlock.disk
      s.writeHeadBlock.log.lh := by
  have hdisk : s.writeHeadBlock.disk = update s.disk r.start (s.log.lh.write (s.view r.start)) := by
    simp [LogSys.writeHeadBlock, hstart]
  obtain ⟨hn, -⟩ := s.log.lh.read_write (s.view r.start) (by rw [h.zero]; exact Nat.zero_le _)
    fun i hi => by rw [h.zero] at hi; omega
  refine ⟨?_, fun b hb => ?_, fun b hb => absurd hb (not_mem_nil), fun _ _ => rfl, ?_,
    fun i hi => absurd hi (Nat.not_lt_zero i)⟩
  · rw [hdisk, update_self, hn, h.zero]
  · rw [hdisk, update_of_ne (by rintro rfl; exact hb r.has_start)]
    exact h.home b hb
  · exact ((h.bufs.bread _).bwrite _ _).mono fun c hc => absurd hc.1 not_false

/-- `read_head` of the recovery sets out to install what the header lists. -/
theorem Recoverable.readHead (h : Recoverable r new s.disk)
    (hb : Buffers s.cache s.disk fun _ => False) (hstart : s.log.start = r.start) :
    Installing r new 0 s.readHeadBlock.cache s.readHeadBlock.disk s.readHeadBlock.log.lh := by
  have hview : s.view r.start = s.disk r.start := hb.view_eq not_false
  have hdisk : s.readHeadBlock.disk = s.disk := by simp [LogSys.readHeadBlock]
  have hlh : s.readHeadBlock.log.lh = LogHeader.read (s.disk r.start) s.log.lh := by
    simp [LogSys.readHeadBlock, hstart, hview]
  have hn : s.readHeadBlock.log.lh.n = LogHeader.diskN (s.disk r.start) := by rw [hlh]; rfl
  have hblock : ∀ i < LogHeader.diskN (s.disk r.start),
      s.readHeadBlock.log.lh.block i = LogHeader.diskBlock (s.disk r.start) i := by
    intro i hi
    rw [hlh]
    exact if_pos hi
  refine ⟨by rw [hn]; exact h.fits, by rw [hdisk, hn], fun i hi => ?_, fun i hi => ?_,
    fun i hi => ?_, fun b hb' hne => ?_, ?_⟩
  · rw [hn] at hi
    rw [hdisk, hblock i hi]
  · rw [hn] at hi
    rw [hblock i hi]
    exact h.entry i hi
  · rw [hn] at hi
    rw [hdisk, hblock i hi]
    exact h.slot i hi
  · rw [hdisk]
    refine h.home b hb' fun i hi => ?_
    rw [← hblock i hi]
    exact hne i (Nat.zero_le i) (by rw [hn]; exact hi)
  · have : Buffers s.readHeadBlock.cache s.readHeadBlock.disk fun _ => False := hb.bread _
    exact this.mono fun _ hc => absurd hc not_false

end Writes

/-! ## The crash invariant -/

/-- The disk that recovery restores: the initial one with the committed groups applied. -/
def History.target (h : History) (d0 : Disk) : Disk := applyAll h.groups.flatten d0

/-- The contents the processes see: the target with the open group applied. -/
def History.newest (h : History) (d0 : Disk) : Disk := applyAll h.cur (h.target d0)

/-- What the cache, the disk and the header look like at each stage. -/
def CrashInv (r : LogRegion) (d0 : Disk) (h : History) (cache : ℕ → Option Buf) (disk : Disk)
    (lh : LogHeader) : Stage → Prop
  | .recovering .readHead =>
    Recoverable r (h.target d0) disk ∧ Buffers cache disk fun _ => False
  | .recovering (.install t) => Installing r (h.target d0) t cache disk lh
  | .recovering .clearHead => Installed r (h.target d0) cache disk lh
  | .running | .committing _ .start =>
    Collecting r (h.target d0) (h.newest d0) (blocksOf h.cur) 0 cache disk lh
  | .committing _ (.writeLog t) =>
    Collecting r (h.target d0) (h.newest d0) (blocksOf h.cur) t cache disk lh
  | .committing _ .writeHead =>
    Collecting r (h.target d0) (h.newest d0) (blocksOf h.cur) lh.n cache disk lh
  | .committing _ (.install t) => Installing r (h.target d0) t cache disk lh
  | .committing _ .clearHead => Installed r (h.target d0) cache disk lh
  | .committing _ .endCommit =>
    Collecting r (h.target d0) (h.newest d0) [] 0 cache disk lh

variable {d0 : Disk} {h : History}

/-- At every stage the disk is recoverable. -/
theorem CrashInv.recoverable {r : LogRegion} {g : Stage}
    (hi : CrashInv r d0 h cache disk lh g) : Recoverable r (h.target d0) disk := by
  cases g with
  | recovering k =>
    cases k with
    | readHead => exact hi.1
    | install t => exact Installing.recoverable hi
    | clearHead => exact Installed.recoverable hi
  | running => exact Collecting.recoverable hi
  | committing p c =>
    cases c with
    | start | writeLog t | writeHead | endCommit => exact Collecting.recoverable hi
    | install t => exact Installing.recoverable hi
    | clearHead => exact Installed.recoverable hi

/-- What the callers of `log_write` are asked for: only blocks outside the log, and no group with
more distinct blocks than the log has slots. -/
structure Loggable (r : LogRegion) (tr : List LogEvent) : Prop where
  outside : ∀ p b d, .logInsert p b d ∈ tr → ¬ r.Has b
  fits : ∀ tr1, tr1 <+: tr → distinct (history tr1).cur ≤ r.size - 1

variable {e : LogEvent}

theorem Loggable.of_concat {r : LogRegion} {tr : List LogEvent}
    (h : Loggable r (tr ++ [e])) : Loggable r tr where
  outside p b d hmem := h.outside p b d (mem_append_left _ hmem)
  fits tr1 h1 := h.fits tr1 (h1.trans (prefix_append tr [e]))

/-- The header is within its array, the logged blocks are on disk and outside the log, and so are
those about to be logged. -/
structure Logged (r : LogRegion) (h : History) (s : LogSys) : Prop where
  pending : ∀ p b, s.pc p = .logging b → b < FSSIZE
  cur : ∀ b ∈ blocksOf h.cur, ¬ r.Has b ∧ b < FSSIZE
  room : s.log.lh.n ≤ LOGSIZE

theorem logged_step {r : LogRegion} {s s' : LogSys} {g g' : Stage}
    (ht : Trans r s g e s' g') (hl : Logged r h s)
    (hout : ∀ p b d, e = .logInsert p b d → ¬ r.Has b) : Logged r (h.add e) s' := by
  -- a control point that is not inside `log_write` adds nothing pending
  have hupd : ∀ {p q c : ℕ} {pc : LogPc}, update s.pc p pc q = .logging c →
      (∀ b, pc ≠ .logging b) → c < FSSIZE := by
    intro p q c pc hq hpc
    by_cases hqp : q = p
    · subst hqp
      rw [update_self] at hq
      exact absurd hq (hpc c)
    · rw [update_of_ne hqp] at hq
      exact hl.pending q c hq
  cases ht with
  | logCheck p b hpc hb hn =>
    refine ⟨fun q c hq => ?_, hl.cur, hl.room⟩
    by_cases hqp : q = p
    · subst hqp
      have : b = c := by simpa using hq
      rw [← this]
      exact hb
    · exact hl.pending q c (by simpa [hqp] using hq)
  | logInsert p b d hpc hslot =>
    refine ⟨fun q c hq => hupd hq (by simp), fun c hc => ?_, ?_⟩
    · simp only [History.add, blocksOf_concat, mem_append, mem_singleton] at hc
      rcases hc with hc | rfl
      · exact hl.cur c hc
      · exact ⟨hout p c d rfl, hl.pending p c hpc⟩
    · have := hl.room
      simp only [LogSys.setPc_log, LogSys.setLh_log, LogHeader.insert]
      split <;> omega
  | beginOp p hpc hn | endOpLast p hpc ho | endOp p hpc ho | commitEmpty p hn | commit p hn
  | writeLogEnd p tail ht | endCommit p => exact ⟨fun q c hq => hupd hq (by simp), hl.cur, hl.room⟩
  | installEnd p tail ht => exact ⟨fun q c hq => hupd hq (by simp), hl.cur, Nat.zero_le _⟩
  | writeLog p tail ht | install p tail ht | clearHead p =>
    refine ⟨fun q c hq => ?_, hl.cur, by simpa using hl.room⟩
    simp only [LogSys.setPc_pc, LogSys.writeLogSlot_pc, LogSys.installSlot_pc,
      LogSys.writeHeadBlock_pc] at hq
    exact hupd hq (by simp)
  | writeHead p =>
    refine ⟨fun q c hq => ?_, by simp [History.add], by simpa using hl.room⟩
    simp only [LogSys.setPc_pc, LogSys.writeHeadBlock_pc] at hq
    exact hupd hq (by simp)
  | load g b =>
    exact ⟨fun q c hq => hl.pending q c (by simpa using hq), hl.cur, by simpa using hl.room⟩
  | evict g b data hc => exact ⟨hl.pending, hl.cur, hl.room⟩
  | crash g => exact ⟨by rintro _ _ ⟨⟩, by simp [History.add], Nat.zero_le _⟩
  | recoverRead hn =>
    exact ⟨fun q c hq => hl.pending q c (by simpa using hq), hl.cur,
      by simpa [LogSys.readHeadBlock, LogHeader.read] using hn⟩
  | recoverInstall tail ht | recoverClear =>
    exact ⟨fun q c hq => hl.pending q c (by simpa using hq), hl.cur, by simpa using hl.room⟩
  | recoverInstallEnd tail ht => exact { hl with room := Nat.zero_le _ }

/-- Before the header write, storing a block only changes the newest contents. -/
theorem Collecting.logInsert {r : LogRegion} {s : LogSys} {b : ℕ}
    {c : Block} (hc : Collecting r (h.target d0) (h.newest d0) (blocksOf h.cur) 0 s.cache s.disk
      s.log.lh) :
    Collecting r (h.target d0) (applyAll (h.cur ++ [(b, c)]) (h.target d0))
      (blocksOf h.cur ++ [b]) 0 (update s.cache b (some ⟨c, true⟩)) s.disk
      (s.log.lh.insert b) := by
  rw [applyAll_concat]
  refine ⟨hc.empty, hc.home, fun x hx => ?_, fun x hx => ?_,
    ⟨fun x data hx => ?_, fun x data hx => ?_⟩, fun i hi => absurd hi (Nat.not_lt_zero i)⟩
  · by_cases hxb : x = b
    · simp [hxb]
    · have : x ∈ blocksOf h.cur := by simpa [hxb] using hx
      simpa [hxb, History.newest] using hc.held x this
  · obtain ⟨hx1, hx2⟩ : x ∉ blocksOf h.cur ∧ x ≠ b := by simpa using hx
    rw [update_of_ne hx2]
    exact hc.same x hx1
  · by_cases hxb : x = b
    · simp [hxb] at hx
    · exact hc.bufs.clean x data (by simpa [hxb] using hx)
  · by_cases hxb : x = b
    · simp [hxb]
    · exact mem_append_left _ (hc.bufs.dirty x data (by simpa [hxb] using hx))

/-- The event is a step of `recover_from_log`. -/
def LogEvent.isRecovery : LogEvent → Bool
  | .recoverRead | .recoverInstall | .recoverClear => true
  | _ => false

namespace LogSys

/-- Reading a block in or dropping a clean one changes nothing that the invariant says. -/
theorem crashInv_cache {r : LogRegion} {s : LogSys} {g : Stage}
    {cache' : ℕ → Option Buf} (hi : CrashInv r d0 h s.cache s.disk s.log.lh g)
    (hbufs : ∀ D, Buffers s.cache s.disk D → Buffers cache' s.disk D)
    (hdirty : ∀ b data, s.cache b = some ⟨data, true⟩ → cache' b = some ⟨data, true⟩) :
    CrashInv r d0 h cache' s.disk s.log.lh g := by
  have hcoll : ∀ {old new : Disk} {L : List ℕ} {t : ℕ},
      Collecting r old new L t s.cache s.disk s.log.lh →
        Collecting r old new L t cache' s.disk s.log.lh := fun hc =>
    { hc with held := fun b hb => hdirty b _ (hc.held b hb), bufs := hbufs _ hc.bufs }
  have hinst : ∀ {new : Disk} {t : ℕ}, Installing r new t s.cache s.disk s.log.lh →
      Installing r new t cache' s.disk s.log.lh := fun hc =>
    { hc with bufs := hbufs _ hc.bufs }
  have hdone : ∀ {new : Disk}, Installed r new s.cache s.disk s.log.lh →
      Installed r new cache' s.disk s.log.lh := fun hc =>
    { hc with bufs := hbufs _ hc.bufs }
  cases g with
  | recovering k =>
    cases k with
    | readHead => exact ⟨hi.1, hbufs _ hi.2⟩
    | install t => exact hinst hi
    | clearHead => exact hdone hi
  | running => exact hcoll hi
  | committing p c =>
    cases c with
    | start | writeLog t | writeHead | endCommit => exact hcoll hi
    | install t => exact hinst hi
    | clearHead => exact hdone hi

/-- Every transition keeps the crash invariant. -/
theorem crashInv_step {r : LogRegion} {s s' : LogSys} {g g' : Stage} (ht : Trans r s g e s' g')
    (hi : CrashInv r d0 h s.cache s.disk s.log.lh g) (hgi : GroupInv h s.log.lh g)
    (hl : Logged r h s) (hstart : s.log.start = r.start)
    (hfit : distinct h.cur ≤ r.size - 1) :
    CrashInv r d0 (h.add e) s'.cache s'.disk s'.log.lh g' := by
  -- the number of slots in use is the number of distinct blocks
  have hn : Entries s.log.lh (blocksOf h.cur) → s.log.lh.n ≤ r.size - 1 := fun he => by
    rw [he.n_eq]
    exact hfit
  cases ht with
  | beginOp | logCheck | endOpLast | endOp | commit => exact hi
  | logInsert p b d hpc hslot =>
    simpa [CrashInv, History.add, History.target, History.newest] using Collecting.logInsert hi
  | commitEmpty p h0 =>
    have hcur : blocksOf h.cur = [] := Entries.eq_nil hgi h0
    rw [CrashInv, hcur] at hi
    exact hi
  | writeLog p tail ht =>
    exact Collecting.writeLogSlot hi hstart (fun b hb => (hl.cur b hb).1) hgi ht (hn hgi)
  | writeLogEnd p tail ht =>
    exact { hi with slot := fun i h1 h2 => hi.slot i (h1.trans_le ht) h2 }
  | writeHead p =>
    have := Collecting.writeHead hi hstart hl.cur hgi ⟨hn hgi, hl.room⟩
    simpa [CrashInv, History.add, History.target, History.newest, applyAll_append] using this
  | install p tail ht => exact Installing.installSlot hi hstart ht
  | installEnd p tail ht => exact Installing.installed (s := s) hi ht
  | clearHead p =>
    have hcur : h.cur = [] := hgi.1
    simpa [CrashInv, History.add, History.newest, hcur] using Installed.clear hi hstart
  | endCommit p =>
    have hcur : blocksOf h.cur = [] := congrArg blocksOf hgi.1
    rw [CrashInv, ← hcur] at hi
    exact hi
  | load g b =>
    rw [bread_disk, bread_log]
    refine crashInv_cache hi (fun D hD => ?_) fun c data hc => ?_
    · simpa using hD.bread b
    · rcases Buffers.bread_cache (s := s) b c with heq | ⟨hnone, -⟩
      · rw [heq, hc]
      · rw [hc] at hnone
        cases hnone
  | evict g b data hc =>
    refine crashInv_cache (s := s) hi (fun D hD => hD.evict b) fun c data' hc' => ?_
    by_cases hcb : c = b
    · subst hcb
      rw [hc] at hc'
      injection hc' with hc'
      injection hc' with _ hd
      cases hd
    · simpa [hcb] using hc'
  | crash g => exact ⟨hi.recoverable, by rintro _ _ ⟨⟩, by rintro _ _ ⟨⟩⟩
  | recoverRead hn => exact Recoverable.readHead hi.1 hi.2 hstart
  | recoverInstall tail ht => exact Installing.installSlot hi hstart ht
  | recoverInstallEnd tail ht => exact Installing.installed (s := s) hi ht
  | recoverClear =>
    have hcur : h.cur = [] := hgi.1
    simpa [CrashInv, History.add, History.newest, hcur] using Installed.clear hi hstart

/-- All that is known of a state reached by a run. -/
structure LogInv (r : LogRegion) (d0 : Disk) (tr : List LogEvent) (s : LogSys) (g : Stage) :
    Prop where
  stage : g.Holds s
  group : GroupInv (history tr) s.log.lh g
  logged : Logged r (history tr) s
  crash : CrashInv r d0 (history tr) s.cache s.disk s.log.lh g

/-- **The crash invariant holds along every run**, crashes and recoveries included. -/
theorem run_logInv {r : LogRegion} (h0 : LogHeader.diskN (d0 r.start) = 0) :
    ∀ (tr : List LogEvent) (s : LogSys), run (step r) (start r d0) tr = .ok s →
      Loggable r tr → ∃ g, LogInv r d0 tr s g := by
  refine run_history (fun _ => ⟨.running, start_holds r d0, Entries.nil rfl, ?_, ?_⟩) ?_
  · exact ⟨by rintro _ _ ⟨⟩, fun b hb => absurd hb (by simp), Nat.zero_le _⟩
  · exact ⟨h0, fun b _ => rfl, fun b hb => absurd hb (by simp), fun _ _ => rfl,
      ⟨by rintro _ _ ⟨⟩, by rintro _ _ ⟨⟩⟩, fun i hi => absurd hi (Nat.not_lt_zero i)⟩
  intro tr s s' e hrun ih hs hok
  obtain ⟨g, hg, hgi, hl, hi⟩ := ih hok.of_concat
  obtain ⟨g', ht, hg'⟩ := step_trans hg hs
  refine ⟨g', hg', ?_, ?_, ?_⟩ <;> rw [history_concat]
  · exact groupInv_step ht hgi
  · exact logged_step ht hl fun p b d he => hok.outside p b d (by simp [he])
  · exact crashInv_step ht hi hgi hl (run_region hrun).1 (hok.of_concat.fits tr prefix_rfl)

/-! ## Operations that have not ended -/

/-- A process that has stored a block and not called `end_op` since is still in its operation. -/
theorem inTrans_of_not_ended {r : LogRegion} :
    ∀ (tr : List LogEvent) (s : LogSys), run (step r) (start r d0) tr = .ok s → CrashFree tr →
      ∀ p u v b d, tr = u ++ .logInsert p b d :: v → .endOp p ∉ v → (s.pc p).inTrans := by
  refine run_history (fun _ p u v b d h => absurd h (by simp)) ?_
  intro tr s s' e hrun ih hs hc p u v b d htr hend
  obtain ⟨g, hg, -⟩ := run_groupInv tr s hrun
  obtain ⟨g', ht, -⟩ := step_trans hg hs
  rcases eq_nil_or_concat v with rfl | ⟨v, e', rfl⟩
  · -- the last event is the insertion itself
    obtain ⟨-, he⟩ := append_inj' htr rfl
    obtain rfl : e = .logInsert p b d := by simpa using he
    obtain ⟨-, -, rfl⟩ := logInsert_inv hs
    simp [LogPc.inTrans]
  rw [concat_eq_append] at htr hend
  rw [← cons_append, ← append_assoc] at htr
  obtain ⟨hpre, he⟩ := append_inj' htr rfl
  obtain rfl : e = e' := by simpa using he
  have hp := ih (fun x hx => hc x (mem_append_left _ hx)) p u v b d hpre
    fun hmem => hend (by simp [hmem])
  obtain rfl := hg.of_inTrans hp
  have hne : e ≠ .endOp p := fun he => hend (by simp [he])
  -- only the events of the running stage are left, and only `end_op` leaves an operation
  cases ht with
  | beginOp q hpc hn | logCheck q c hpc hb hn | logInsert q c x hpc hslot =>
    by_cases hq : p = q
    · simp [hq, LogPc.inTrans]
    · simpa [hq] using hp
  | endOpLast q hpc ho | endOp q hpc ho =>
    have hq : p ≠ q := by rintro rfl; exact hne rfl
    simpa [hq] using hp
  | load g c => simpa using hp
  | evict g c data hcache => exact hp
  | crash g => exact absurd rfl (hc .crash (by simp))

/-- At a header write every operation of the group has ended. -/
theorem ended_before_writeHead {r : LogRegion} {s : LogSys} {u v w : List LogEvent}
    {p q b : ℕ} {d : Block}
    (hrun : run (step r) (start r d0) (u ++ .logInsert p b d :: (v ++ .writeHead q :: w)) = .ok s)
    (hc : CrashFree (u ++ .logInsert p b d :: (v ++ .writeHead q :: w))) : .endOp p ∈ v := by
  by_contra hend
  have hsplit : u ++ .logInsert p b d :: (v ++ .writeHead q :: w) =
      (u ++ .logInsert p b d :: v) ++ (.writeHead q :: w) := by simp
  rw [hsplit] at hrun hc
  obtain ⟨m, hm, hw⟩ := run_append_ok.mp hrun
  obtain ⟨m', hm', -⟩ := run_cons_inv hw
  have hp := inTrans_of_not_ended _ m hm (fun e he => hc e (mem_append_left _ he)) p u v b d
    rfl hend
  obtain ⟨g, hg, -⟩ := run_groupInv _ m hm
  have := (hg.of_commit (writeHead_inv hm').1).symm.trans (hg.of_inTrans hp)
  cases this

/-! ## Recovery -/

/-- Left alone, `recover_from_log` finishes: `k` log slots remain to be installed. -/
theorem recovery_finishes {r : LogRegion} {new : Disk} :
    ∀ (k t : ℕ) (s : LogSys), s.log.lh.n - t = k → s.recovering = some (.install t) →
      s.log.start = r.start → Installing r new t s.cache s.disk s.log.lh →
      ∃ rs s', (∀ e ∈ rs, LogEvent.isRecovery e) ∧
        run (step r) s (rs ++ [.recoverClear]) = .ok s' := by
  intro k
  induction k with
  | zero =>
    intro t s hk hrec _ _
    have ht : ¬ t < s.log.lh.n := by omega
    have h1 : step r s .recoverInstall =
        .ok { s.setLh { s.log.lh with n := 0 } with recovering := some .clearHead } := by
      simp only [step, recoverInstall, hrec, ht, if_false]
    exact ⟨[.recoverInstall], _, by simp [LogEvent.isRecovery],
      (run_cons_ok h1).trans (run_cons_ok rfl)⟩
  | succ k ih =>
    intro t s hk hrec hstart hi
    have ht : t < s.log.lh.n := by omega
    have hslot : s.log.start + t + 1 < FSSIZE := by
      have h1 := hi.fits.1
      have h2 := r.fits
      omega
    obtain ⟨rs, s', hrs, hrun⟩ := ih (t + 1)
      { s.installSlot t with recovering := some (.install (t + 1)) }
      (by simp; omega) rfl (by simpa using hstart) (Installing.installSlot hi hstart ht)
    refine ⟨.recoverInstall :: rs, s', by simpa [LogEvent.isRecovery] using hrs, ?_⟩
    rw [cons_append, run_cons_ok _]
    · exact hrun
    · simp [step, recoverInstall, hrec, ht, onDisk, hslot, (hi.entry t ht).2]

/-- Crashes and recoveries add nothing to the history but the loss of the open group. -/
theorem history_recovery (tr rs : List LogEvent)
    (hrs : ∀ e ∈ rs, LogEvent.isRecovery e ∨ LogEvent.isCrash e) :
    history (tr ++ .crash :: rs) = ⟨(history tr).groups, []⟩ := by
  induction rs using List.reverseRecOn with
  | nil => rw [history_concat]; rfl
  | append_singleton rs e ih =>
    rw [← cons_append, ← append_assoc, history_concat, ih fun x hx => hrs x (mem_append_left _ hx)]
    have := hrs e (by simp)
    cases e <;> simp_all [LogEvent.isRecovery, LogEvent.isCrash, History.add]

/-- Crashing and recovering logs nothing. -/
theorem loggable_recovery {r : LogRegion} {tr rs : List LogEvent} (h : Loggable r tr)
    (hrs : ∀ e ∈ rs, LogEvent.isRecovery e ∨ LogEvent.isCrash e) :
    Loggable r (tr ++ .crash :: rs) where
  outside p b d hmem := by
    rcases mem_append.mp hmem with hmem | hmem
    · exact h.outside p b d hmem
    · rcases mem_cons.mp hmem with hmem | hmem
      · cases hmem
      · have := hrs _ hmem
        simp [LogEvent.isRecovery, LogEvent.isCrash] at this
  fits tr1 h1 := by
    rcases prefix_or_prefix_of_prefix h1 (prefix_append tr _) with h2 | ⟨x, rfl⟩
    · exact h.fits tr1 h2
    have hx : x <+: .crash :: rs := (prefix_append_right_inj tr).mp h1
    cases x with
    | nil => simpa using h.fits tr prefix_rfl
    | cons e x =>
      obtain ⟨rfl, hxs⟩ := cons_prefix_cons.mp hx
      rw [history_recovery tr x fun e he => hrs e (hxs.subset he)]
      exact Nat.zero_le _

/-- **Crash atomicity.** Start from a disk with an empty log header; run any interleaving of
operations whose groups fit the log and stay outside it, and crash anywhere in it. Then

* `recover_from_log`, if left alone, runs to its end;
* however often it is itself interrupted by crashes and started again, when it has run to its end
  the header is empty and the disk outside the log is the initial one with exactly those groups
  applied whose header write came before the first crash, each of them whole;
* every update of these groups belongs to an operation that had called `end_op`. -/
theorem crash_atomicity (r : LogRegion) (d0 : Disk) (h0 : LogHeader.diskN (d0 r.start) = 0)
    (tr : List LogEvent) (s : LogSys) (hrun : run (step r) (start r d0) tr = .ok s)
    (hc : CrashFree tr) (hout : ∀ p b d, .logInsert p b d ∈ tr → ¬ r.Has b)
    (hfit : ∀ us ∈ (history tr).groups ++ [(history tr).cur], distinct us ≤ r.size - 1) :
    (∃ rs s', (∀ e ∈ rs, LogEvent.isRecovery e) ∧
      run (step r) s (.crash :: rs ++ [.recoverClear]) = .ok s') ∧
    (∀ rs s', (∀ e ∈ rs, LogEvent.isRecovery e ∨ LogEvent.isCrash e) →
      run (step r) s (.crash :: rs ++ [.recoverClear]) = .ok s' →
      LogHeader.diskN (s'.disk r.start) = 0 ∧
        ∀ b, ¬ r.Has b → s'.disk b = applyAll (history tr).groups.flatten d0 b) ∧
    (∀ u v w p b d q, tr = u ++ .logInsert p b d :: (v ++ .writeHead q :: w) → .endOp p ∈ v) := by
  have hok : Loggable r tr := by
    refine ⟨hout, ?_⟩
    rintro tr1 ⟨tr2, rfl⟩
    obtain ⟨-, us, hus, hpre⟩ := cur_extends hc
    exact (distinct_mono hpre).trans (hfit us hus)
  obtain ⟨g, hinv⟩ := run_logInv h0 tr s hrun hok
  refine ⟨?_, fun rs s' hrs hrec => ?_, fun u v w p b d q htr => ?_⟩
  · have hrecov := hinv.crash.recoverable
    have hn : LogHeader.diskN ((restart r s.disk).view (restart r s.disk).log.start) ≤ LOGSIZE :=
      hrecov.fits.2
    have hi := Recoverable.readHead (s := restart r s.disk) hrecov
      ⟨by rintro _ _ ⟨⟩, by rintro _ _ ⟨⟩⟩ rfl
    obtain ⟨rs, s', hrs, hr⟩ := recovery_finishes (r := r) _ 0
      { (restart r s.disk).readHeadBlock with recovering := some (.install 0) } rfl rfl
      (by simp [readHeadBlock, restart]) hi
    refine ⟨.recoverRead :: rs, s', by simpa [LogEvent.isRecovery] using hrs, ?_⟩
    rw [cons_append, run_cons_ok rfl, cons_append, run_cons_ok _]
    · exact hr
    · simp only [step, recoverRead]
      exact if_pos hn
  · obtain ⟨m, hm, hlast⟩ := run_concat_ok.mp hrec
    have htotal : run (step r) (start r d0) (tr ++ .crash :: rs) = .ok m :=
      run_append_ok.mpr ⟨s, hrun, hm⟩
    obtain ⟨g', hinv'⟩ := run_logInv h0 _ m htotal (loggable_recovery hok hrs)
    obtain ⟨hrc, rfl⟩ := recoverClear_inv hlast
    obtain rfl := hinv'.stage.of_recovering hrc
    have hcl := Installed.clear hinv'.crash (run_region htotal).1
    rw [history_recovery tr rs hrs] at hcl
    exact ⟨hcl.empty, hcl.home⟩
  · subst htr
    exact ended_before_writeHead hrun hc

/-- One operation logs block 100; the machine loses power right after the header write. The block
is recovered. -/
theorem crash_atomicity_after_writeHead : ∃ s, run (step .mkfs) (start .mkfs fun _ => Bytes.zero)
        [.beginOp 0, .logCheck 0 100, .logInsert 0 100 fun _ => 7, .endOp 0, .commit 0,
          .writeLog 0, .writeLog 0, .writeHead 0] = .ok s ∧
      ∃ rs s', run (step .mkfs) s (.crash :: rs ++ [.recoverClear]) = .ok s' ∧
        s'.disk 100 = fun _ => 7 := by
  have h := crash_atomicity .mkfs (fun _ => Bytes.zero) (by decide)
    [.beginOp 0, .logCheck 0 100, .logInsert 0 100 fun _ => 7, .endOp 0, .commit 0,
      .writeLog 0, .writeLog 0, .writeHead 0] _ rfl (by decide)
    (by rintro p b d hmem; simp only [mem_cons, reduceCtorEq, LogEvent.logInsert.injEq,
          not_mem_nil, or_false, false_or] at hmem; rw [hmem.2.1]; decide)
    (by decide)
  obtain ⟨⟨rs, s', hrs, hrun⟩, hall, -⟩ := h
  have hdisk := (hall rs s' (fun e he => .inl (hrs e he)) hrun).2 100 (by decide)
  exact ⟨_, rfl, rs, s', hrun, hdisk.trans rfl⟩

/-- **Committed groups outlive all crashes.** In every run, with any number of crashes and
recoveries at any points of it: whenever neither a recovery nor a commit is in progress, the disk
outside the log is the initial one with the groups applied that were committed in all lives of the
system, whole and in order; and what processes read is this with the updates of the open group. -/
theorem groups_outlive_crashes (r : LogRegion) (d0 : Disk) (h0 : LogHeader.diskN (d0 r.start) = 0)
    (tr : List LogEvent) (s : LogSys) (hrun : run (step r) (start r d0) tr = .ok s)
    (hok : Loggable r tr) (hrec : s.recovering = none) (hcommit : s.log.committing = false) (b : ℕ)
    (hb : ¬ r.Has b) :
    s.disk b = applyAll (history tr).groups.flatten d0 b ∧
      s.view b = applyAll ((history tr).groups.flatten ++ (history tr).cur) d0 b := by
  obtain ⟨g, hinv⟩ := run_logInv h0 tr s hrun hok
  obtain rfl := hinv.stage.of_idle hrec hcommit
  have hcol : Collecting r _ _ _ 0 s.cache s.disk s.log.lh := hinv.crash
  refine ⟨hcol.home b hb, ?_⟩
  rw [applyAll_append]
  by_cases hcur : b ∈ blocksOf (history tr).cur
  · rw [view, hcol.held b hcur]
    rfl
  · rw [hcol.bufs.view_eq hcur, hcol.home b hb]
    exact (hcol.same b hcur).symm

/-- A crash between the header write and the installation, and the next operation after recovery. -/
theorem groups_outlive_crashes_twice : ∃ s, run (step .mkfs) (start .mkfs fun _ => Bytes.zero)
        [.beginOp 0, .logCheck 0 100, .logInsert 0 100 fun _ => 7, .endOp 0, .commit 0, .writeLog 0,
          .writeLog 0, .writeHead 0, .crash, .recoverRead, .recoverInstall, .recoverInstall,
          .recoverClear, .beginOp 0, .logCheck 0 101, .logInsert 0 101 fun _ => 9] = .ok s ∧
      s.disk 100 = (fun _ => 7) ∧ s.view 101 = fun _ => 9 := by
  have h := fun b => groups_outlive_crashes .mkfs (fun _ => Bytes.zero) (by decide)
    [.beginOp 0, .logCheck 0 100, .logInsert 0 100 fun _ => 7, .endOp 0, .commit 0, .writeLog 0,
      .writeLog 0, .writeHead 0, .crash, .recoverRead, .recoverInstall, .recoverInstall,
      .recoverClear, .beginOp 0, .logCheck 0 101, .logInsert 0 101 fun _ => 9] _ rfl
    ⟨fun p b d hmem => by
      simp only [mem_cons, reduceCtorEq, LogEvent.logInsert.injEq, not_mem_nil, or_false,
        false_or] at hmem
      rcases hmem with ⟨-, rfl, -⟩ | ⟨-, rfl, -⟩ <;> decide,
    by simp only [← mem_inits]; decide⟩ rfl rfl b
  exact ⟨_, rfl, (h 100 (by decide)).1, (h 101 (by decide)).2⟩

end LogSys

end Xv6
