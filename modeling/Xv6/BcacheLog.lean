import Xv6.BcacheInv
import Mathlib.Data.List.Nodup

/-!
# The cache under the log

The invariant of the whole machine: the cache is in order (`Cached`), the dirty buffers are those of
the logged blocks, and inside `commit` each control point (`AtPoint`) says which log slots already
equal their blocks, from which slot on the blocks are still pinned, and which buffers `commit`
holds. `Disciplined` is what the processes have to keep to; the main result is that every run of
disciplined steps looks like a run over a plain block map.
-/

namespace Xv6

open Function List

/-! ## Held buffers -/

/-- Process `p` holds buffer `i` for block `b`, with no change pending. -/
def Bcache.Holds (c : Bcache) (p i b : ℕ) : Prop :=
  c.owner i = some p ∧ (c.buf i).blockno = b ∧ c.changed i = false

namespace Bcache.Holds

variable {c c' : Bcache} {p q i j b b' : ℕ}

theorem of_reads (h : c.Cached) (r : c.Reads p b c' i) : c'.Holds p i b :=
  ⟨by rw [r.owner, update_self], r.blockno, by rw [r.changed]; exact h.changed_of_free r.lt r.free⟩

/-- What nobody touches stays held. -/
theorem frame (g : c.Holds p j b) (hb : c'.buf j = c.buf j) (ho : c'.owner j = c.owner j)
    (hc : c'.changed j = c.changed j) : c'.Holds p j b := by
  rw [Holds, hb, ho, hc]
  exact g

theorem ne_of_free (h : c.Cached) (g : c.Holds p j b) (hi : (c.buf i).busy = false) : j ≠ i := by
  rintro rfl
  rw [(h.used_of_owner g.1).2] at hi
  cases hi

theorem reads (h : c.Cached) (g : c.Holds p j b) (r : c.Reads q b' c' i) : c'.Holds p j b := by
  have hji := ne_of_free h g r.free
  exact g.frame (r.buf j hji) (by rw [r.owner, update_of_ne hji]) (by rw [r.changed])

theorem put (g : c.Holds p j b) (d : Block) : (c.put i d).Holds p j b := by
  rcases eq_or_ne j i with rfl | hji
  · exact ⟨g.1, by simpa [Bcache.put] using g.2.1, by simp [Bcache.put]⟩
  · exact g.frame (by simp [Bcache.put, hji]) rfl (by simp [Bcache.put, hji])

theorem ne (g : c.Holds p i b) (g' : c.Holds q j b') (hb : b ≠ b') : i ≠ j := by
  rintro rfl
  exact hb (g.2.1.symm.trans g'.2.1)

end Bcache.Holds

/-- What a `brelse` does. -/
structure Bcache.Releases (c : Bcache) (i : ℕ) (c' : Bcache) : Prop where
  cached : c'.Cached
  buf : ∀ j, j ≠ i → c'.buf j = c.buf j
  same : (c'.buf i).dev = (c.buf i).dev ∧ (c'.buf i).blockno = (c.buf i).blockno ∧
    (c'.buf i).dirty = (c.buf i).dirty
  owner : c'.owner = update c.owner i none
  changed : c'.changed = c.changed
  stored : c'.stored = c.stored

namespace Bcache

variable {c c' : Bcache} {p i j b : ℕ} {L : List ℕ}

theorem Cached.releases (h : c.Cached) (ho : c.owner i = some p) (hc : c.changed i = false)
    (hr : c.brelse i = .ok c') : c.Releases i c' := by
  obtain ⟨h', rfl⟩ := h.brelse ho hc hr
  exact ⟨h', fun j hj => by simp [setBuf, hj], by simp [setBuf], rfl, rfl, rfl⟩

theorem Pins.releases (h : c.Pins L) (r : c.Releases i c') : c'.Pins L := by
  refine h.congr ?_ ?_ ?_ <;> intro j <;> rcases eq_or_ne j i with rfl | hji
  · exact r.same.1
  · rw [r.buf j hji]
  · exact r.same.2.1
  · rw [r.buf j hji]
  · exact r.same.2.2
  · rw [r.buf j hji]

theorem Pins.store (h : c.Pins L) (d : Block) : (c.store i d).Pins L := by
  refine h.congr ?_ ?_ ?_ <;> intro j <;> rcases eq_or_ne j i with rfl | hji <;>
    simp [Bcache.store, setData, setBuf, *]

theorem Holds.releases (g : c.Holds p j b) (r : c.Releases i c') (hji : j ≠ i) : c'.Holds p j b :=
  g.frame (r.buf j hji) (by rw [r.owner, update_of_ne hji]) (by rw [r.changed])

/-- Writing a block that is not pinned changes no pin. -/
theorem Pins.put_other (h : c.Pins L) (hc : c.Cached) (hu : c.Used i) (hi : (c.buf i).blockno ∉ L)
    (d : Block) : (c.put i d).Pins L := by
  refine h.put hc hu d fun b => ⟨fun hb => ⟨hb, ?_⟩, fun hb => hb.1⟩
  rintro rfl
  exact hi hb

end Bcache

/-! ## The control points of `commit` -/

namespace CommitAt

/-- How many log slots `write_log` has copied. -/
def copied (n : ℕ) : CommitAt → ℕ
  | .start => 0
  | .logTo tail | .logFrom tail _ | .logCopy tail _ _ => tail
  | .logRelFrom tail _ _ | .logRelTo tail _ => tail + 1
  | _ => n

/-- How many blocks `install_trans` has installed. -/
def installed : CommitAt → ℕ
  | .instLog tail | .instHome tail _ | .instCopy tail _ _ => tail
  | .instRelLog tail _ _ | .instRelHome tail _ => tail + 1
  | _ => 0

/-- `commit` has read a block, or found nothing to commit. -/
def begun : CommitAt → Prop
  | .start => False
  | .logTo tail => tail ≠ 0
  | _ => True

/-- The buffers that `commit` holds. -/
def Grips (l : Log) (c : Bcache) (p : ℕ) : CommitAt → Prop
  | .logFrom tail tbuf | .logRelTo tail tbuf =>
    tail < l.lh.n ∧ c.Holds p tbuf (l.start + tail + 1)
  | .logCopy tail tbuf fbuf | .logRelFrom tail tbuf fbuf =>
    tail < l.lh.n ∧ c.Holds p tbuf (l.start + tail + 1) ∧ c.Holds p fbuf (l.lh.block tail)
  | .headPut _ i | .headRel _ i => c.Holds p i l.start
  | .instHome tail lbuf => tail < l.lh.n ∧ c.Holds p lbuf (l.start + tail + 1)
  | .instCopy tail lbuf dbuf | .instRelLog tail lbuf dbuf =>
    tail < l.lh.n ∧ c.Holds p lbuf (l.start + tail + 1) ∧ c.Holds p dbuf (l.lh.block tail)
  | .instRelHome tail dbuf => tail < l.lh.n ∧ c.Holds p dbuf (l.lh.block tail)
  | _ => True

theorem Grips.mono {l : Log} {c c' : Bcache} {p : ℕ} {k : CommitAt} (h : k.Grips l c p)
    (hh : ∀ i b, c.Holds p i b → c'.Holds p i b) : k.Grips l c' p := by
  cases k <;> simp only [Grips] at h ⊢
  case logFrom => exact ⟨h.1, hh _ _ h.2⟩
  case logCopy => exact ⟨h.1, hh _ _ h.2.1, hh _ _ h.2.2⟩
  case logRelFrom => exact ⟨h.1, hh _ _ h.2.1, hh _ _ h.2.2⟩
  case logRelTo => exact ⟨h.1, hh _ _ h.2⟩
  case headPut => exact hh _ _ h
  case headRel => exact hh _ _ h
  case instHome => exact ⟨h.1, hh _ _ h.2⟩
  case instCopy => exact ⟨h.1, hh _ _ h.2.1, hh _ _ h.2.2⟩
  case instRelLog => exact ⟨h.1, hh _ _ h.2.1, hh _ _ h.2.2⟩
  case instRelHome => exact ⟨h.1, hh _ _ h.2⟩

end CommitAt

/-- The log lies where `mkfs` puts it, and lists blocks outside the log, each once. -/
structure LogOk (l : Log) : Prop where
  start : l.start = LogRegion.mkfs.start
  size : l.size = LogRegion.mkfs.size
  nodup : l.lh.blocks.Nodup
  outside : ∀ b ∈ l.lh.blocks, ¬ LogRegion.mkfs.Has b

namespace LogOk

variable {l : Log}

theorem block_mem (j : ℕ) (hj : j < l.lh.n) : l.lh.block j ∈ l.lh.blocks :=
  (LogHeader.mem_blocks ..).mpr ⟨j, hj, rfl⟩

/-- The slots of a log that fits are log blocks. -/
theorem has_slot (h : LogOk l) {j : ℕ} (hj : j + 1 < NBUF) :
    LogRegion.mkfs.Has (l.start + j + 1) := by
  have hsize : LogRegion.mkfs.size = 30 := rfl
  have hn : NBUF = 30 := rfl
  rw [LogRegion.Has, h.start, hsize]
  omega

theorem has_start (h : LogOk l) : LogRegion.mkfs.Has l.start := by
  have hsize : LogRegion.mkfs.size = 30 := rfl
  rw [LogRegion.Has, h.start, hsize]
  omega

theorem block_ne (h : LogOk l) {j b : ℕ} (hj : j < l.lh.n) (hb : LogRegion.mkfs.Has b) :
    l.lh.block j ≠ b := by
  rintro rfl
  exact h.outside _ (block_mem j hj) hb

theorem mem_drop (k b : ℕ) :
    b ∈ l.lh.blocks.drop k ↔ ∃ j, k ≤ j ∧ j < l.lh.n ∧ l.lh.block j = b := by
  simp only [LogHeader.blocks, mem_iff_getElem, length_drop, length_map,
    length_range, getElem_drop, getElem_map, getElem_range]
  constructor
  · rintro ⟨j, hj, hb⟩
    exact ⟨k + j, by omega, by omega, hb⟩
  · rintro ⟨j, hkj, hj, hb⟩
    exact ⟨j - k, by omega, by rw [← hb]; congr 1; omega⟩

theorem block_inj (h : LogOk l) {j k : ℕ} (hj : j < l.lh.n) (hk : k < l.lh.n)
    (he : l.lh.block j = l.lh.block k) : j = k := by
  have hinj := inj_on_of_nodup_map h.nodup
  exact hinj (mem_range.mpr hj) (mem_range.mpr hk) he

end LogOk

/-- What holds at a control point of `commit`. -/
structure AtPoint (l : Log) (c : Bcache) (p : ℕ) (k : CommitAt) : Prop where
  pins : c.Pins (l.lh.blocks.drop k.installed)
  copied : ∀ j < l.lh.n, j < k.copied l.lh.n → c.stored (l.start + j + 1) = c.stored (l.lh.block j)
  room : k.begun → l.lh.n < NBUF
  grips : k.Grips l c p

/-- A step of `commit` that stores nothing and pins nothing. -/
theorem AtPoint.move {l : Log} {c c' : Bcache} {p : ℕ} {k k' : CommitAt} (ha : AtPoint l c p k)
    (hpins : c'.Pins (l.lh.blocks.drop k.installed)) (hst : c'.stored = c.stored)
    (hi : k'.installed = k.installed) (hc : k'.copied l.lh.n = k.copied l.lh.n)
    (hr : k'.begun → l.lh.n < NBUF) (hg : k'.Grips l c' p) : AtPoint l c' p k' := by
  refine ⟨by rw [hi]; exact hpins, ?_, hr, hg⟩
  rw [hc, hst]
  exact ha.copied

/-! ## `commit` -/

namespace BufSys

variable {s s' : BufSys} {p : ℕ} {k : CommitAt}

/-- `commit` goes on to its next control point. -/
def Next (s : BufSys) (p : ℕ) (s' : BufSys) : Prop :=
  ∃ k', s'.pc = update s.pc p (.commit k') ∧ s'.bc.Cached ∧ LogOk s'.log ∧
    AtPoint s'.log s'.bc p k' ∧ s'.log.outstanding = s.log.outstanding ∧
    s'.log.committing = s.log.committing

variable {x : Except Stop Bcache}

theorem goto_ok (h : s.goto p k x = .ok s') :
    ∃ c, x = .ok c ∧ s' = { s with bc := c }.setPc p (.commit k) := by
  rcases x with e | c
  · cases h
  · exact ⟨c, rfl, (Except.ok.inj h).symm⟩

variable {f : ℕ → CommitAt}

theorem fetch_ok {b : ℕ} (h : s.fetch p b f = .ok s') :
    ∃ c i, s.bc.bread p 1 b = .ok (c, i) ∧ s' = { s with bc := c }.setPc p (.commit (f i)) := by
  rw [fetch] at h
  rcases hr : s.bc.bread p 1 b with e | ⟨c, i⟩ <;> rw [hr] at h
  · cases h
  · exact ⟨c, i, rfl, (Except.ok.inj h).symm⟩

section

variable (hc : s.bc.Cached) (hl : LogOk s.log)

include hc hl

/-- A `bread` of `commit`. -/
theorem Next.fetch (ha : AtPoint s.log s.bc p k) {b : ℕ} (hs : s.fetch p b f = .ok s')
    (hi : ∀ i, (f i).installed = k.installed)
    (hcp : ∀ i, (f i).copied s.log.lh.n = k.copied s.log.lh.n)
    (hroom : ∀ c i, s.bc.Reads p b c i → c.Pins (s.log.lh.blocks.drop k.installed) →
      (f i).begun → s.log.lh.n < NBUF)
    (hg : ∀ c i, s.bc.Reads p b c i → c.Holds p i b → (f i).Grips s.log c p) : s.Next p s' := by
  obtain ⟨c, i, hr, rfl⟩ := fetch_ok hs
  obtain ⟨-, r⟩ := hc.bread_reads hr
  have hpins := ha.pins.reads r
  exact ⟨f i, rfl, hc.bread hr, hl, ha.move hpins r.stored (hi i) (hcp i) (hroom c i r hpins)
    (hg c i r (.of_reads hc r)), rfl, rfl⟩

/-- A `brelse` of `commit`. -/
theorem Next.brelse (ha : AtPoint s.log s.bc p k) {i b : ℕ}
    {k' : CommitAt} (hh : s.bc.Holds p i b) (hs : s.goto p k' (s.bc.brelse i) = .ok s')
    (hi : k'.installed = k.installed) (hcp : k'.copied s.log.lh.n = k.copied s.log.lh.n)
    (hb : k.begun) (hg : ∀ c, s.bc.Releases i c → k'.Grips s.log c p) : s.Next p s' := by
  obtain ⟨c, hr, rfl⟩ := goto_ok hs
  have r := hc.releases hh.1 hh.2.2 hr
  exact ⟨k', rfl, r.cached, hl, ha.move (ha.pins.releases r) r.stored hi hcp (fun _ => ha.room hb)
    (hg c r), rfl, rfl⟩

/-- `commit` writes a block of the log. -/
theorem bwrite_storeLog {i b : ℕ} (hh : s.bc.Holds p i b) (hb : LogRegion.mkfs.Has b) (d : Block) :
    (s.storeLog i d).bwrite i = .ok (s.bc.put i d) := by
  refine hc.bwrite_setData hh.1 d _ ?_
  rw [if_pos]
  rw [hl.start, hl.size, hh.2.1]
  exact hb

end

/-- A write of `commit` into the log keeps what is known about the other slots. -/
theorem stored_put_log (hl : LogOk s.log) {i b : ℕ} (hh : s.bc.Holds p i b)
    (hb : LogRegion.mkfs.Has b) (d : Block) {j : ℕ} (hj : j < s.log.lh.n)
    (hne : s.log.start + j + 1 ≠ b)
    (he : s.bc.stored (s.log.start + j + 1) = s.bc.stored (s.log.lh.block j)) :
    (s.bc.put i d).stored (s.log.start + j + 1) = (s.bc.put i d).stored (s.log.lh.block j) := by
  simp only [Bcache.put, hh.2.1]
  rw [update_of_ne hne, update_of_ne (hl.block_ne hj hb), he]

/-- A block of the log is not pinned. -/
theorem pins_put_log (hc : s.bc.Cached) (hl : LogOk s.log) {m i b : ℕ}
    (hpins : s.bc.Pins (s.log.lh.blocks.drop m)) (hh : s.bc.Holds p i b)
    (hb : LogRegion.mkfs.Has b) (d : Block) : (s.bc.put i d).Pins (s.log.lh.blocks.drop m) := by
  refine hpins.put_other hc (hc.used_of_owner hh.1).1 ?_ d
  rw [hh.2.1]
  exact fun hm => hl.outside b (mem_of_mem_drop hm) hb

/-- **Every step of `commit`** leads to the next control point, or ends it. -/
theorem commit_next (hc : s.bc.Cached) (hl : LogOk s.log) (ha : AtPoint s.log s.bc p k)
    (hk : k ≠ .endCommit) (hs : s.commitStep p k = .ok s') : s.Next p s' := by
  have hslot : k.begun → ∀ j < s.log.lh.n, LogRegion.mkfs.Has (s.log.start + j + 1) := by
    intro hb j hj
    have := ha.room hb
    exact hl.has_slot (by omega)
  cases k with
  | start =>
    simp only [commitStep] at hs
    cases hs
    refine ⟨_, rfl, hc, hl, ?_, rfl, rfl⟩
    split
    · exact ha.move ha.pins rfl rfl rfl (fun hb => absurd rfl hb) trivial
    rename_i hn
    have hn0 : s.log.lh.n = 0 := by omega
    refine ha.move ha.pins rfl rfl ?_ (fun _ => ?_) trivial
    · exact hn0
    · rw [hn0]
      decide
  | logTo tail =>
    simp only [commitStep] at hs
    split at hs
    · rename_i htail
      refine .fetch hc hl ha hs (fun _ => rfl) (fun _ => rfl) ?_ fun c i _ hh => ⟨htail, hh⟩
      intro c i r hpins _
      rcases eq_or_ne tail 0 with rfl | h0
      · -- the buffer of the first log block is not pinned
        refine lt_of_eq_of_lt s.log.lh.length_blocks.symm (hpins.length_lt hl.nodup r.lt ?_)
        have hnot : ¬ (c.buf i).dirty = true := by
          rw [hpins.dirty i r.lt, r.blockno]
          have hin : LogRegion.mkfs.Has (s.slotBlock 0) := hl.has_slot (by decide : 0 + 1 < NBUF)
          exact fun hm => hl.outside _ hm.2 hin
        simpa using hnot
      · exact ha.room h0
    · rename_i htail
      cases hs
      refine ⟨_, rfl, hc, hl, ⟨ha.pins, ?_, ?_, trivial⟩, rfl, rfl⟩
      · intro j hj _
        have hjn : j < s.log.lh.n := hj
        exact ha.copied j hj (by simp only [CommitAt.copied]; omega)
      intro _
      rcases eq_or_ne tail 0 with rfl | h0
      · have hn : NBUF = 30 := rfl
        simp only [setPc]
        omega
      · exact ha.room h0
  | logFrom tail tbuf =>
    obtain ⟨htail, hto⟩ := ha.grips
    refine .fetch hc hl ha hs (fun _ => rfl) (fun _ => rfl) (fun _ _ _ _ _ => ha.room trivial) ?_
    exact fun c i r hh => ⟨htail, hto.reads hc r, hh⟩
  | logCopy tail tbuf fbuf =>
    obtain ⟨htail, hto, hfrom⟩ := ha.grips
    have hin := hslot trivial tail htail
    have hd : (s.bc.buf fbuf).data = s.bc.stored (s.log.lh.block tail) := by
      rw [hc.data fbuf (hc.used_of_owner hfrom.1).1, hfrom.2.1]
    simp only [commitStep] at hs
    obtain ⟨c, hw, rfl⟩ := goto_ok hs
    rw [bwrite_storeLog hc hl hto hin] at hw
    cases hw
    refine ⟨_, rfl, hc.put hto.1 _, hl, ⟨pins_put_log hc hl ha.pins hto hin _, ?_, ?_, ?_⟩,
      rfl, rfl⟩
    · intro j hj hjc
      rcases eq_or_ne j tail with rfl | hjt
      · simp only [setPc, Bcache.put, hto.2.1]
        rw [update_self, update_of_ne (hl.block_ne hj hin), hd]
      · simp only [CommitAt.copied] at hjc
        exact stored_put_log hl hto hin _ hj (by omega)
          (ha.copied j hj (by simp only [CommitAt.copied]; omega))
    · exact fun _ => ha.room trivial
    · exact ⟨htail, hto.put _, hfrom.put _⟩
  | logRelFrom tail tbuf fbuf =>
    obtain ⟨htail, hto, hfrom⟩ := ha.grips
    refine .brelse hc hl ha hfrom hs rfl rfl trivial fun c r => ⟨htail, hto.releases r ?_⟩
    exact hto.ne hfrom (hl.block_ne htail (hslot trivial tail htail)).symm
  | logRelTo tail tbuf =>
    exact .brelse hc hl ha ha.grips.2 hs rfl rfl trivial fun _ _ => trivial
  | headGet again =>
    exact .fetch hc hl ha hs (fun _ => rfl) (fun _ => rfl) (fun _ _ _ _ _ => ha.room trivial)
      fun c i _ hh => hh
  | headPut again i =>
    have hh := ha.grips
    have hin := hl.has_start
    simp only [commitStep] at hs
    obtain ⟨c, hw, rfl⟩ := goto_ok hs
    rw [bwrite_storeLog hc hl hh hin] at hw
    cases hw
    refine ⟨_, rfl, hc.put hh.1 _, hl, ⟨pins_put_log hc hl ha.pins hh hin _, ?_, ?_, ?_⟩, rfl, rfl⟩
    · intro j hj hjc
      exact stored_put_log hl hh hin _ hj (by omega) (ha.copied j hj hjc)
    · exact fun _ => ha.room trivial
    · exact hh.put _
  | headRel again i =>
    simp only [commitStep] at hs
    cases again
    · exact .brelse hc hl ha ha.grips hs rfl rfl trivial fun _ _ => trivial
    · exact .brelse hc hl ha ha.grips hs rfl rfl trivial fun _ _ => trivial
  | instLog tail =>
    simp only [commitStep] at hs
    split at hs
    · rename_i htail
      exact .fetch hc hl ha hs (fun _ => rfl) (fun _ => rfl) (fun _ _ _ _ _ => ha.room trivial)
        fun c i _ hh => ⟨htail, hh⟩
    rename_i htail
    cases hs
    have hnil : s.log.lh.blocks.drop tail = [] := by
      rw [drop_eq_nil_iff, LogHeader.length_blocks]
      omega
    have hpins := ha.pins
    simp only [CommitAt.installed] at hpins
    rw [hnil] at hpins
    refine ⟨_, rfl, hc, ⟨hl.start, hl.size, by simp [setPc, setLh, LogHeader.blocks],
      by simp [setPc, setLh, LogHeader.blocks]⟩, ⟨?_, ?_, ?_, trivial⟩, rfl, rfl⟩
    · simpa [setPc, setLh, LogHeader.blocks] using hpins
    · intro j hj _
      exact absurd hj (Nat.not_lt_zero j)
    · exact fun _ => by simp only [setPc, setLh]; decide
  | instHome tail lbuf =>
    obtain ⟨htail, hlog⟩ := ha.grips
    refine .fetch hc hl ha hs (fun _ => rfl) (fun _ => rfl) (fun _ _ _ _ _ => ha.room trivial) ?_
    exact fun c i r hh => ⟨htail, hlog.reads hc r, hh⟩
  | instCopy tail lbuf dbuf =>
    obtain ⟨htail, hlog, hhome⟩ := ha.grips
    -- the log slot holds what was last stored in the block, so that nothing is stored here
    have hd : (s.bc.buf lbuf).data = s.bc.stored (s.bc.buf dbuf).blockno := by
      rw [hc.data lbuf (hc.used_of_owner hlog.1).1, hlog.2.1, hhome.2.1]
      exact ha.copied tail htail htail
    have hst : s.bc.stored = update s.bc.stored (s.bc.buf dbuf).blockno (s.bc.buf lbuf).data := by
      rw [hd, update_eq_self]
    simp only [commitStep] at hs
    obtain ⟨c, hw, rfl⟩ := goto_ok hs
    have hw' := hc.bwrite_setData hhome.1 (s.bc.buf lbuf).data s.bc.stored hst
    have hsame : ({ s.bc.setData dbuf (s.bc.buf lbuf).data with stored := s.bc.stored } : Bcache) =
        s.bc.setData dbuf (s.bc.buf lbuf).data := rfl
    rw [hsame, hw] at hw'
    cases hw'
    refine ⟨_, rfl, hc.put hhome.1 _, hl, ⟨?_, ?_, ?_, ?_⟩, rfl, rfl⟩
    · refine ha.pins.put hc (hc.used_of_owner hhome.1).1 _ fun b => ?_
      simp only [setPc, CommitAt.installed]
      rw [LogOk.mem_drop, LogOk.mem_drop, hhome.2.1]
      constructor
      · rintro ⟨j, hj, hjn, rfl⟩
        refine ⟨⟨j, by omega, hjn, rfl⟩, fun he => ?_⟩
        have := hl.block_inj hjn htail he
        omega
      · rintro ⟨⟨j, hj, hjn, rfl⟩, hne⟩
        have hjt : j ≠ tail := fun he => hne (by rw [he])
        exact ⟨j, by omega, hjn, rfl⟩
    · intro j hj _
      have hstored : (s.bc.put dbuf (s.bc.buf lbuf).data).stored = s.bc.stored := hst.symm
      simp only [setPc, hstored]
      exact ha.copied j hj hj
    · exact fun _ => ha.room trivial
    · exact ⟨htail, hlog.put _, hhome.put _⟩
  | instRelLog tail lbuf dbuf =>
    obtain ⟨htail, hlog, hhome⟩ := ha.grips
    refine .brelse hc hl ha hlog hs rfl rfl trivial fun c r => ⟨htail, hhome.releases r ?_⟩
    exact hhome.ne hlog (hl.block_ne htail (hslot trivial tail htail))
  | instRelHome tail dbuf =>
    exact .brelse hc hl ha ha.grips.2 hs rfl rfl trivial fun _ _ => trivial
  | endCommit => exact absurd rfl hk

/-! ## Transitions -/

/-- Every transition of the machine, with its guards. -/
inductive Trans (s : BufSys) : BufEvent → BufSys → Prop where
  | beginOp (p : ℕ) (hpc : s.pc p = .idle) (hc : s.log.committing = false)
      (hroom : s.log.lh.n + (s.log.outstanding + 1) * MAXOPBLOCKS ≤ LOGSIZE) :
      Trans s (.beginOp p)
        ({ s with log := { s.log with outstanding := s.log.outstanding + 1 } }.setPc p .inOp)
  | bread (p : ℕ) (dev : UInt32) (b : ℕ) (c : Bcache) (i : ℕ) (hp : s.atLarge p)
      (hr : s.bc.bread p dev b = .ok (c, i)) : Trans s (.bread p dev b) { s with bc := c }
  | modify (p i : ℕ) (d : Block) (hp : s.atLarge p) (ho : s.bc.owner i = some p) :
      Trans s (.modify p i d) { s with bc := s.bc.store i d }
  | logCheck (p i : ℕ) (hpc : s.pc p = .inOp) (ho : s.bc.owner i = some p)
      (hn : s.log.lh.n < s.log.size - 1) : Trans s (.logCheck p i) (s.setPc p (.logging i))
  | logInsert (p i : ℕ) (hpc : s.pc p = .logging i) : Trans s (.logInsert p)
        ({ s.setLh (s.log.lh.insert (s.bc.buf i).blockno) with bc := s.bc.pin i }.setPc p .inOp)
  | bwrite (p i : ℕ) (c : Bcache) (hp : s.atLarge p) (ho : s.bc.owner i = some p)
      (hw : s.bc.bwrite i = .ok c) : Trans s (.bwrite p i) { s with bc := c }
  | brelse (p i : ℕ) (c : Bcache) (hp : s.atLarge p) (ho : s.bc.owner i = some p)
      (hc : s.bc.changed i = false) (hr : s.bc.brelse i = .ok c) :
      Trans s (.brelse p i) { s with bc := c }
  | endOp (p : ℕ) (hpc : s.pc p = .inOp) (hn : s.log.outstanding ≠ 1) (h0 : s.log.outstanding ≠ 0) :
      Trans s (.endOp p)
        ({ s with log := { s.log with outstanding := s.log.outstanding - 1 } }.setPc p .idle)
  | lastOp (p : ℕ) (hpc : s.pc p = .inOp) (hn : s.log.outstanding ≤ 1) : Trans s (.endOp p)
        ({ s with log := { s.log with outstanding := 0, committing := true } }
          |>.setPc p (.commit .start))
  | commit (p : ℕ) (k : CommitAt) (s' : BufSys) (hpc : s.pc p = .commit k)
      (hs : s.commitStep p k = .ok s') : Trans s (.commit p) s'

variable {e : BufEvent}

/-- **Inversion**: a step that succeeds is one of the transitions. -/
theorem trans_of_step (h : s.step e = .ok s') : s.Trans e s' := by
  cases e with
  | beginOp p =>
    simp only [step] at h
    split at h <;> try cases h
    split at h <;> try cases h
    split at h <;> try cases h
    exact .beginOp p (by simpa using ‹¬ s.pc p ≠ _›) (by simpa using ‹¬ s.log.committing = true›)
      (by omega)
  | bread p dev b =>
    simp only [step] at h
    split at h <;> try cases h
    rename_i hp
    rcases hr : s.bc.bread p dev b with e | ⟨c, i⟩ <;> rw [hr] at h <;> cases h
    exact .bread p dev b c i hp hr
  | modify p i d =>
    simp only [step] at h
    split at h <;> try cases h
    rename_i hp
    exact .modify p i d hp.1 hp.2
  | logCheck p i =>
    simp only [step] at h
    split at h <;> try cases h
    rename_i hp
    split at h <;> try cases h
    rename_i hn
    split at h <;> try cases h
    exact .logCheck p i hp.1 hp.2 (by omega)
  | logInsert p =>
    simp only [step] at h
    split at h <;> try cases h
    rename_i i hpc
    split at h <;> try cases h
    exact .logInsert p i hpc
  | bwrite p i =>
    simp only [step] at h
    split at h <;> try cases h
    rename_i hp
    rcases hw : s.bc.bwrite i with e | c <;> rw [hw] at h <;> cases h
    exact .bwrite p i c hp.1 hp.2 hw
  | brelse p i =>
    simp only [step] at h
    split at h <;> try cases h
    rename_i hp
    rcases hr : s.bc.brelse i with e | c <;> rw [hr] at h <;> cases h
    exact .brelse p i c hp.1 hp.2.1 hp.2.2 hr
  | endOp p =>
    simp only [step] at h
    split at h <;> try cases h
    rename_i hpc
    split at h <;> try cases h
    split at h
    · rename_i hn
      cases h
      rw [hn]
      exact .lastOp p (by simpa using hpc) (by omega)
    · cases h
      exact .endOp p (by simpa using hpc) (by omega) (by omega)
  | commit p =>
    simp only [step] at h
    split at h <;> try cases h
    rename_i k hpc
    exact .commit p k s' hpc h

/-! ## The invariant -/

/-- The transactions are open, and `outstanding` counts them. -/
structure Running (s : BufSys) : Prop where
  committing : s.log.committing = false
  outside : ∀ q k, s.pc q ≠ .commit k
  pins : s.bc.Pins s.log.lh.blocks
  count : ∃ A : Finset ℕ, (∀ q, q ∈ A ↔ s.pc q ≠ .idle) ∧ A.card = s.log.outstanding

/-- Process `p` is in `commit`, and nobody else is in a transaction. -/
structure Committing (s : BufSys) (p : ℕ) (k : CommitAt) : Prop where
  committing : s.log.committing = true
  here : s.pc p = .commit k
  others : ∀ q, q ≠ p → s.pc q = .idle
  none : s.log.outstanding = 0
  point : AtPoint s.log s.bc p k

/-- **The invariant** of the cache and the log. -/
structure Inv (s : BufSys) : Prop where
  cached : s.bc.Cached
  log : LogOk s.log
  logging : ∀ q i, s.pc q = .logging i →
    s.bc.owner i = some q ∧ ¬ LogRegion.mkfs.Has (s.bc.buf i).blockno
  stage : s.Running ∨ ∃ p k, s.Committing p k

/-- What the processes outside `commit` keep to: the log is none of their business, they change a
logged block only in a transaction, and they `bwrite` no logged block. -/
def Disciplined (s : BufSys) : BufEvent → Prop
  | .modify p i _ => ¬ LogRegion.mkfs.Has (s.bc.buf i).blockno ∧
      (s.pc p = .inOp ∨ (s.bc.buf i).blockno ∉ s.log.lh.blocks)
  | .logCheck _ i => ¬ LogRegion.mkfs.Has (s.bc.buf i).blockno
  | .bwrite _ i => ¬ LogRegion.mkfs.Has (s.bc.buf i).blockno ∧
      (s.bc.buf i).blockno ∉ s.log.lh.blocks
  | _ => True

/-- What a process may do to the cache. -/
structure Acts (s : BufSys) (q : ℕ) (c : Bcache) : Prop where
  cached : c.Cached
  /-- buffers held by others stay as they are -/
  others : ∀ i p, p ≠ q → s.bc.owner i = some p →
    c.buf i = s.bc.buf i ∧ c.owner i = s.bc.owner i ∧ c.changed i = s.bc.changed i
  stored : ∀ b, LogRegion.mkfs.Has b ∨ (s.pc q ≠ .inOp ∧ b ∈ s.log.lh.blocks) →
    c.stored b = s.bc.stored b
  pins : ∀ L, (∀ b ∈ L, b ∈ s.log.lh.blocks) → s.bc.Pins L → c.Pins L

variable {q i : ℕ} {c : Bcache}

section

variable (h : s.Inv)

include h

theorem acts_bread {dev : UInt32} {b : ℕ} (hr : s.bc.bread q dev b = .ok (c, i)) : s.Acts q c := by
  obtain ⟨-, r⟩ := h.cached.bread_reads hr
  refine ⟨h.cached.bread hr, ?_, fun b _ => by rw [r.stored], fun L _ hL => hL.reads r⟩
  intro j p _ hj
  have hji : j ≠ i := by
    rintro rfl
    have := (h.cached.used_of_owner hj).2
    rw [r.free] at this
    cases this
  exact ⟨r.buf j hji, by rw [r.owner, update_of_ne hji], by rw [r.changed]⟩

theorem acts_modify {d : Block} (ho : s.bc.owner i = some q)
    (hd : s.Disciplined (.modify q i d)) : s.Acts q (s.bc.store i d) := by
  refine ⟨h.cached.store ho d, ?_, ?_, fun L _ hL => hL.store d⟩
  · intro j p hpq hj
    have hji : j ≠ i := by
      rintro rfl
      exact hpq (Option.some.inj (hj.symm.trans ho))
    simp [Bcache.store, Bcache.setData, Bcache.setBuf, hji]
  intro b hb
  have hne : b ≠ (s.bc.buf i).blockno := by
    rintro rfl
    rcases hb with hb | ⟨hin, hb⟩
    · exact hd.1 hb
    · rcases hd.2 with hop | hnot
      · exact hin hop
      · exact hnot hb
  simp [Bcache.store, hne]

theorem acts_bwrite (ho : s.bc.owner i = some q) (hd : s.Disciplined (.bwrite q i))
    (hw : s.bc.bwrite i = .ok c) : s.Acts q c := by
  rw [h.cached.bwrite ho] at hw
  cases hw
  refine ⟨h.cached.put ho _, ?_, ?_, ?_⟩
  · intro j p hpq hj
    have hji : j ≠ i := by
      rintro rfl
      exact hpq (Option.some.inj (hj.symm.trans ho))
    simp [Bcache.put, hji]
  · intro b _
    simp only [Bcache.put, update_eq_self]
  · intro L hL hpins
    exact hpins.put_other h.cached (h.cached.used_of_owner ho).1 (fun hb => hd.2 (hL _ hb)) _

theorem acts_brelse (ho : s.bc.owner i = some q) (hc : s.bc.changed i = false)
    (hr : s.bc.brelse i = .ok c) : s.Acts q c := by
  have r := h.cached.releases ho hc hr
  refine ⟨r.cached, ?_, fun b _ => by rw [r.stored], fun L _ hL => hL.releases r⟩
  intro j p hpq hj
  have hji : j ≠ i := by
    rintro rfl
    exact hpq (Option.some.inj (hj.symm.trans ho))
  exact ⟨r.buf j hji, by rw [r.owner, update_of_ne hji], by rw [r.changed]⟩

/-- **A process that acts on the cache keeps the invariant.** -/
theorem Inv.acts (hq : s.atLarge q) (a : s.Acts q c) : ({ s with bc := c }).Inv := by
  refine ⟨a.cached, h.log, ?_, ?_⟩
  · intro p j hp
    obtain ⟨ho, hout⟩ := h.logging p j hp
    have hpq : p ≠ q := by
      rintro rfl
      rcases hq with hq | hq <;> rw [hq] at hp <;> cases hp
    obtain ⟨hb, ho', -⟩ := a.others j p hpq ho
    exact ⟨ho'.trans ho, by simpa [hb] using hout⟩
  rcases h.stage with hrun | ⟨p, k, hcom⟩
  · exact Or.inl { hrun with pins := a.pins _ (fun _ hb => hb) hrun.pins }
  -- a commit is going on: the process is outside, and `commit`'s buffers are not its own
  have hpq : q ≠ p := by
    rintro rfl
    have hhere := hcom.here
    rcases hq with hq | hq <;> rw [hq] at hhere <;> cases hhere
  have hidle := hcom.others q hpq
  have hst : ∀ b, LogRegion.mkfs.Has b ∨ b ∈ s.log.lh.blocks → c.stored b = s.bc.stored b := by
    rintro b (hb | hb)
    · exact a.stored b (Or.inl hb)
    · exact a.stored b (Or.inr ⟨by rw [hidle]; exact (by simp), hb⟩)
  refine Or.inr ⟨p, k, hcom.committing, hcom.here, hcom.others, hcom.none, ?_⟩
  have pt := hcom.point
  refine ⟨a.pins _ (fun b hb => mem_of_mem_drop hb) pt.pins, ?_, pt.room, ?_⟩
  · intro j hj hjc
    have hroom : s.log.lh.n < NBUF := by
      apply pt.room
      cases k <;> simp only [CommitAt.begun, CommitAt.copied] at hjc ⊢ <;> omega
    have hj' : j < s.log.lh.n := hj
    have hin : LogRegion.mkfs.Has (s.log.start + j + 1) := h.log.has_slot (by omega)
    simp only [hst _ (Or.inl hin), hst _ (Or.inr (LogOk.block_mem j hj'))]
    exact pt.copied j hj hjc
  · refine pt.grips.mono fun j b hh => ?_
    obtain ⟨hb, ho, hch⟩ := a.others j p hpq.symm hh.1
    exact hh.frame hb ho hch

/-- Somebody in a transaction means that nobody is in `commit`. -/
theorem Inv.running (hin : s.pc q = .inOp ∨ ∃ i, s.pc q = .logging i) : s.Running := by
  rcases h.stage with hrun | ⟨p, k, hcom⟩
  · exact hrun
  rcases eq_or_ne q p with rfl | hqp
  · rw [hcom.here] at hin
    simp at hin
  · rw [hcom.others q hqp] at hin
    simp at hin

end

/-- A process moves within its transaction. -/
theorem Running.count_move (h : s.Running) {x : BufPc} (hq : s.pc q ≠ .idle) (hx : x ≠ .idle) :
    ∃ A : Finset ℕ, (∀ p, p ∈ A ↔ update s.pc q x p ≠ .idle) ∧
      A.card = s.log.outstanding := by
  obtain ⟨A, hA, hcard⟩ := h.count
  refine ⟨A, fun p => ?_, hcard⟩
  rcases eq_or_ne p q with rfl | hpq
  · simp [hA, hq, hx]
  · simp [hA, hpq]

theorem Running.outside_update (h : s.Running) {x : BufPc} (hx : ∀ k, x ≠ .commit k) (p : ℕ)
    (k : CommitAt) : update s.pc q x p ≠ .commit k := by
  rcases eq_or_ne p q with rfl | hpq
  · simpa using hx k
  · simpa [hpq] using h.outside p k

section

variable (h : s.Inv)

include h

/-- Who is in `log_write` after one process has moved elsewhere. -/
theorem Inv.logging_update {x : BufPc} (hx : ∀ i, x ≠ .logging i) (p j : ℕ)
    (hp : update s.pc q x p = .logging j) :
    p ≠ q ∧ s.bc.owner j = some p ∧ ¬ LogRegion.mkfs.Has (s.bc.buf j).blockno := by
  rcases eq_or_ne p q with rfl | hpq
  · rw [update_self] at hp
    exact absurd hp (hx j)
  · rw [update_of_ne hpq] at hp
    exact ⟨hpq, h.logging p j hp⟩

theorem Inv.beginOp (hpc : s.pc q = .idle) (hc : s.log.committing = false) :
    ({ s with log := { s.log with outstanding := s.log.outstanding + 1 } }.setPc q .inOp).Inv := by
  have hrun : s.Running := by
    rcases h.stage with hrun | ⟨p, k, hcom⟩
    · exact hrun
    · rw [hcom.committing] at hc
      cases hc
  refine ⟨h.cached, ⟨h.log.start, h.log.size, h.log.nodup, h.log.outside⟩, ?_, Or.inl ?_⟩
  · intro p j hp
    exact (h.logging_update (x := .inOp) (fun i => by simp) p j hp).2
  refine ⟨hc, hrun.outside_update fun k => by simp, hrun.pins, ?_⟩
  obtain ⟨A, hA, hcard⟩ := hrun.count
  refine ⟨insert q A, fun p => ?_, ?_⟩
  · rcases eq_or_ne p q with rfl | hpq
    · simp [setPc]
    · simp [setPc, hA, hpq]
  · rw [Finset.card_insert_of_notMem (by simp [hA, hpc]), hcard]
    rfl

theorem Inv.logCheck (hpc : s.pc q = .inOp) (ho : s.bc.owner i = some q)
    (hout : ¬ LogRegion.mkfs.Has (s.bc.buf i).blockno) : (s.setPc q (.logging i)).Inv := by
  have hrun := h.running (Or.inl hpc)
  refine ⟨h.cached, h.log, ?_, Or.inl ⟨hrun.committing, hrun.outside_update fun k => by simp,
    hrun.pins, hrun.count_move (by rw [hpc]; simp) (by simp)⟩⟩
  intro p j hp
  rcases eq_or_ne p q with rfl | hpq
  · obtain rfl : i = j := by simpa [setPc] using hp
    exact ⟨ho, hout⟩
  · exact h.logging p j (by simpa [setPc, hpq] using hp)

theorem Inv.logInsert (hpc : s.pc q = .logging i) :
    ({ s.setLh (s.log.lh.insert (s.bc.buf i).blockno) with bc := s.bc.pin i }.setPc q
      .inOp).Inv := by
  have hrun := h.running (Or.inr ⟨i, hpc⟩)
  obtain ⟨ho, hout⟩ := h.logging q i hpc
  have hmem : ∀ b, b ∈ (s.log.lh.insert (s.bc.buf i).blockno).blocks ↔
      b ∈ s.log.lh.blocks ∨ b = (s.bc.buf i).blockno := by
    intro b
    rw [LogHeader.blocks_insert]
    split
    · rename_i hb
      exact ⟨Or.inl, fun hb' => hb'.elim id fun he => he ▸ hb⟩
    · simp
  have hblk : ∀ j, ((s.bc.pin i).buf j).blockno = (s.bc.buf j).blockno := by
    intro j
    rcases eq_or_ne j i with rfl | hji <;> simp [Bcache.pin, Bcache.setBuf, *]
  refine ⟨h.cached.pin ho, ⟨h.log.start, h.log.size, ?_, ?_⟩, ?_, Or.inl ⟨hrun.committing,
    hrun.outside_update fun k => by simp, ?_, hrun.count_move (by rw [hpc]; simp) (by simp)⟩⟩
  · exact (Entries.insert (l := s.log.lh.blocks) ⟨h.log.nodup, fun _ => Iff.rfl⟩ _).nodup
  · intro b hb
    rcases (hmem b).mp hb with hb | rfl
    · exact h.log.outside b hb
    · exact hout
  · intro p j hp
    obtain ⟨-, ho', hout'⟩ := h.logging_update (x := .inOp) (fun i => by simp) p j hp
    exact ⟨ho', by simpa only [setPc, hblk] using hout'⟩
  · exact hrun.pins.pin h.cached (h.cached.used_of_owner ho).1 hmem

theorem Inv.endOp (hpc : s.pc q = .inOp) :
    ({ s with log := { s.log with outstanding := s.log.outstanding - 1 } }.setPc q .idle).Inv := by
  have hrun := h.running (Or.inl hpc)
  refine ⟨h.cached, ⟨h.log.start, h.log.size, h.log.nodup, h.log.outside⟩, ?_, Or.inl ?_⟩
  · intro p j hp
    exact (h.logging_update (x := .idle) (fun i => by simp) p j hp).2
  refine ⟨hrun.committing, hrun.outside_update fun k => by simp, hrun.pins, ?_⟩
  obtain ⟨A, hA, hcard⟩ := hrun.count
  refine ⟨A.erase q, fun p => ?_, ?_⟩
  · rcases eq_or_ne p q with rfl | hpq
    · simp [setPc]
    · simp [setPc, hA, hpq]
  · rw [Finset.card_erase_of_mem (by simp [hA, hpc]), hcard]
    rfl

/-- The last `end_op` finds everybody else outside. -/
theorem Inv.lastOp (hpc : s.pc q = .inOp) (hn : s.log.outstanding ≤ 1) :
    ({ s with log := { s.log with outstanding := 0, committing := true } }
      |>.setPc q (.commit .start)).Inv := by
  have hrun := h.running (Or.inl hpc)
  refine ⟨h.cached, ⟨h.log.start, h.log.size, h.log.nodup, h.log.outside⟩, ?_,
    Or.inr ⟨q, .start, ?_⟩⟩
  · intro p j hp
    exact (h.logging_update (x := .commit .start) (fun i => by simp) p j hp).2
  refine ⟨rfl, by simp [setPc], ?_, rfl, ⟨hrun.pins, ?_, by rintro ⟨⟩, trivial⟩⟩
  · obtain ⟨A, hA, hcard⟩ := hrun.count
    intro p hpq
    have hqA : q ∈ A := by simp [hA, hpc]
    have hpA : p ∉ A := fun hpA =>
      hpq (Finset.card_le_one.mp (hcard.trans_le hn) p hpA q hqA)
    simpa [setPc, hpq, hA] using hpA
  · intro j _ hj
    exact absurd hj (Nat.not_lt_zero j)

theorem Inv.commit {k : CommitAt} (hpc : s.pc q = .commit k)
    (hs : s.commitStep q k = .ok s') : s'.Inv := by
  obtain ⟨p, k', hcom⟩ : ∃ p k, s.Committing p k := by
    rcases h.stage with hrun | hcom
    · exact absurd hpc (hrun.outside q k)
    · exact hcom
  obtain rfl : q = p := by
    by_contra hqp
    rw [hcom.others q hqp] at hpc
    cases hpc
  obtain rfl : k = k' := by simpa using hpc.symm.trans hcom.here
  rcases eq_or_ne k .endCommit with rfl | hk
  · simp only [commitStep] at hs
    cases hs
    refine ⟨h.cached, ⟨h.log.start, h.log.size, h.log.nodup, h.log.outside⟩, ?_, Or.inl ?_⟩
    · intro p j hp
      exact (h.logging_update (x := .idle) (fun i => by simp) p j hp).2
    have hidle : ∀ p, update s.pc q .idle p = .idle := by
      intro p
      rcases eq_or_ne p q with rfl | hpq
      · simp
      · simpa [hpq] using hcom.others p hpq
    refine ⟨rfl, fun p k => ?_, hcom.point.pins, ∅, fun p => ?_, hcom.none.symm⟩
    · simp [setPc, hidle p]
    · simp [setPc, hidle p]
  · obtain ⟨k', hpc', hc, hl, ha, hout, hcm⟩ := commit_next h.cached h.log hcom.point hk hs
    refine ⟨hc, hl, ?_, Or.inr ⟨q, k', by rw [hcm, hcom.committing], by simp [hpc'], ?_,
      by rw [hout, hcom.none], ha⟩⟩
    · intro p j hp
      rw [hpc'] at hp
      obtain ⟨hpq, -⟩ := h.logging_update (x := .commit k') (fun i => by simp) p j hp
      rw [update_of_ne hpq, hcom.others p hpq] at hp
      cases hp
    · intro p hpq
      rw [hpc', update_of_ne hpq]
      exact hcom.others p hpq

/-- **The invariant is kept by every disciplined step.** -/
theorem Inv.step (hd : s.Disciplined e) (hs : s.step e = .ok s') : s'.Inv := by
  cases trans_of_step hs with
  | beginOp p hpc hc _ => exact h.beginOp hpc hc
  | bread p dev b c i hp hr => exact h.acts hp (acts_bread h hr)
  | modify p i d hp ho => exact h.acts hp (acts_modify h ho hd)
  | logCheck p i hpc ho _ => exact h.logCheck hpc ho hd
  | logInsert p i hpc => exact h.logInsert hpc
  | bwrite p i c hp ho hw => exact h.acts hp (acts_bwrite h ho hd hw)
  | brelse p i c hp ho hc hr => exact h.acts hp (acts_brelse h ho hc hr)
  | endOp p hpc _ _ => exact h.endOp hpc
  | lastOp p hpc hn => exact h.lastOp hpc hn
  | commit p k _ hpc hs => exact h.commit hpc hs

end

theorem Inv.init (d : Disk) : (start d).Inv := by
  have hunused : ∀ i, ¬ (start d).bc.Used i := fun i hi => hi.2 rfl
  refine ⟨?_, ⟨rfl, rfl, by simp [start, LogHeader.blocks], by simp [start, LogHeader.blocks]⟩,
    fun q i hq => by simp [start] at hq,
      Or.inl ⟨rfl, fun q k => by rintro ⟨⟩, ?_, ∅, by simp [start], rfl⟩⟩
  · constructor
    case perm => exact reverse_perm _
    case unique => exact fun i j hi => absurd hi (hunused i)
    case ready => exact fun i hi => absurd hi (hunused i)
    case unused => exact fun i _ _ => ⟨rfl, rfl, rfl⟩
    case owned => exact fun i _ => rfl
    case inside => exact fun i p hp => by cases hp
    case held => exact fun i _ hc => by cases hc
    case data => exact fun i hi => absurd hi (hunused i)
    case clean => exact fun i hi => absurd hi (hunused i)
    case away => exact fun b _ => rfl
  · constructor
    · intro i _
      simp [start, Bcache.init, LogHeader.blocks]
    · intro b hb
      simp [start, LogHeader.blocks] at hb

/-- The invariant holds in every state that a run of disciplined steps reaches. -/
theorem inv_of_run {d : Disk} {tr : List BufEvent} (hC : Meets step (start d) Disciplined tr)
    (hrun : run step (start d) tr = .ok s) : s.Inv :=
  Meets.invariant (P := Inv) (fun _ _ _ h hd hs => h.step hd hs) (.init d) hC hrun

/-! ## Recycling -/

/-- Every dirty buffer stays the buffer of its block. -/
def Keeps (c c' : Bcache) : Prop :=
  ∀ i < NBUF, (c.buf i).dirty = true →
    (c'.buf i).dev = (c.buf i).dev ∧ (c'.buf i).blockno = (c.buf i).blockno

/-- No buffer changes its block. -/
def SameBlocks (c c' : Bcache) : Prop :=
  ∀ i, (c'.buf i).dev = (c.buf i).dev ∧ (c'.buf i).blockno = (c.buf i).blockno

theorem SameBlocks.keeps {c c' : Bcache} (h : SameBlocks c c') : Keeps c c' := fun i _ _ => h i

theorem SameBlocks.trans {c c' c'' : Bcache} (h : SameBlocks c c') (h' : SameBlocks c' c'') :
    SameBlocks c c'' := fun i =>
  ⟨(h' i).1.trans (h i).1, (h' i).2.trans (h i).2⟩

/-- Writing over a buffer without touching its device and block number. -/
theorem sameBlocks_update {c c' : Bcache} {b : DiskBuf} (hbuf : c'.buf = update c.buf i b)
    (hdev : b.dev = (c.buf i).dev) (hblk : b.blockno = (c.buf i).blockno) : SameBlocks c c' := by
  intro j
  rcases eq_or_ne j i with rfl | hji
  · simp [hbuf, hdev, hblk]
  · simp [hbuf, hji]

theorem sameBlocks_bwrite {c c' : Bcache} (h : c.bwrite i = .ok c') : SameBlocks c c' := by
  simp only [Bcache.bwrite, Bcache.iderw, Bcache.setBuf, update_self] at h
  repeat' split at h
  all_goals first
    | cases h; done
    | cases h
      exact sameBlocks_update (i := i) (update_idem ..) rfl rfl

theorem sameBlocks_brelse {c c' : Bcache} (h : c.brelse i = .ok c') : SameBlocks c c' := by
  simp only [Bcache.brelse] at h
  split at h
  · cases h
  · cases h
    exact sameBlocks_update (i := i) rfl rfl rfl

theorem keeps_bread {c c' : Bcache} (hc : c.Cached) {dev : UInt32} {b : ℕ}
    (hr : c.bread p dev b = .ok (c', i)) : Keeps c c' := by
  obtain ⟨-, r⟩ := hc.bread_reads hr
  intro j hj hd
  rcases eq_or_ne j i with rfl | hji
  · rcases r.origin with ⟨hu, hb⟩ | ⟨hclean, -⟩
    · exact ⟨by rw [(hc.ready j hu).1, ((hc.bread hr).ready j r.used).1], by rw [r.blockno, hb]⟩
    · rw [hclean] at hd
      cases hd
  · rw [r.buf j hji]
    exact ⟨rfl, rfl⟩

theorem keeps_fetch (hc : s.bc.Cached) {b : ℕ} (h : s.fetch p b f = .ok s') : Keeps s.bc s'.bc := by
  obtain ⟨c, i, hr, rfl⟩ := fetch_ok h
  exact keeps_bread hc hr

theorem keeps_goto (h : s.goto p k x = .ok s')
    (hx : ∀ c, x = .ok c → SameBlocks s.bc c) : Keeps s.bc s'.bc := by
  obtain ⟨c, hc, rfl⟩ := goto_ok h
  exact (hx c hc).keeps

theorem keeps_commitStep (hc : s.bc.Cached) (h : s.commitStep p k = .ok s') : Keeps s.bc s'.bc := by
  cases k with
  | start | endCommit =>
    simp only [commitStep] at h
    cases h
    exact fun i _ _ => ⟨rfl, rfl⟩
  | logTo tail | instLog tail =>
    simp only [commitStep] at h
    split at h
    · exact keeps_fetch hc h
    · cases h
      exact fun i _ _ => ⟨rfl, rfl⟩
  | logFrom | headGet | instHome => exact keeps_fetch hc h
  | logCopy tail tbuf fbuf | headPut again tbuf | instCopy tail fbuf tbuf =>
    refine keeps_goto h fun c hw => SameBlocks.trans ?_ (sameBlocks_bwrite hw)
    exact sameBlocks_update (i := tbuf) (b := { s.bc.buf tbuf with data := _ }) rfl rfl rfl
  | logRelFrom | logRelTo | headRel | instRelLog | instRelHome =>
    exact keeps_goto h fun c hr => sameBlocks_brelse hr

/-- **No dirty buffer is recycled.** -/
theorem keeps_step (hc : s.bc.Cached) (h : s.step e = .ok s') : Keeps s.bc s'.bc := by
  cases trans_of_step h with
  | bread p dev b c i _ hr => exact keeps_bread hc hr
  | modify p i d _ _ =>
    exact (sameBlocks_update (i := i) (b := { s.bc.buf i with data := d }) rfl rfl rfl).keeps
  | logInsert p i _ =>
    exact (sameBlocks_update (i := i) (b := { s.bc.buf i with dirty := true }) rfl rfl rfl).keeps
  | bwrite p i c _ _ hw => exact (sameBlocks_bwrite hw).keeps
  | brelse p i c _ _ _ hr => exact (sameBlocks_brelse hr).keeps
  | commit p k _ _ hs => exact keeps_commitStep hc hs
  | beginOp | logCheck | endOp | lastOp => exact fun i _ _ => ⟨rfl, rfl⟩

/-! ## The main result -/

/-- **The cache looks like a plain block map.** In every run in which the processes outside `commit`
leave the log alone, change logged blocks only in transactions and `bwrite` no logged block: no two
buffers hold one block; outside `commit` a buffer that nobody holds is dirty iff its block is in the
log header; no step gives a dirty buffer to another block; and every `bread` that returns, a
process's or `commit`'s own, returns what was last stored in the block. -/
theorem plain_block_map {d : Disk} {tr : List BufEvent} (hC : Meets step (start d) Disciplined tr)
    (hrun : run step (start d) tr = .ok s) :
    (∀ i < NBUF, ∀ j < NBUF, (s.bc.buf i).dev ≠ NODEV → (s.bc.buf i).dev = (s.bc.buf j).dev →
      (s.bc.buf i).blockno = (s.bc.buf j).blockno → i = j) ∧
    (s.log.committing = false → ∀ i < NBUF, (s.bc.buf i).dev ≠ NODEV → (s.bc.buf i).busy = false →
      ((s.bc.buf i).dirty = true ↔ (s.bc.buf i).blockno ∈ s.log.lh.blocks)) ∧
    (∀ e s', s.step e = .ok s' → ∀ i < NBUF, (s.bc.buf i).dirty = true →
      (s'.bc.buf i).dev = (s.bc.buf i).dev ∧ (s'.bc.buf i).blockno = (s.bc.buf i).blockno) ∧
    (∀ p dev b c i, s.bc.bread p dev b = .ok (c, i) → (c.buf i).dev = dev ∧
      (c.buf i).blockno = b ∧ (c.buf i).busy = true ∧ (c.buf i).data = s.bc.stored b) := by
  have h := inv_of_run hC hrun
  refine ⟨?_, ?_, fun e s' hs => keeps_step h.cached hs, ?_⟩
  · intro i hi j hj hd hdev hblk
    exact h.cached.unique i j ⟨hi, hd⟩ ⟨hj, hdev ▸ hd⟩ hblk
  · intro hcm i hi hd _
    have hrun : s.Running := by
      rcases h.stage with hrun | ⟨p, k, hcom⟩
      · exact hrun
      · rw [hcom.committing] at hcm
        cases hcm
    rw [hrun.pins.dirty i hi]
    exact and_iff_right ⟨hi, hd⟩
  intro p dev b c i hr
  obtain ⟨rfl, r⟩ := h.cached.bread_reads hr
  have hc := h.cached.bread hr
  refine ⟨(hc.ready i r.used).1, r.blockno, r.busy, ?_⟩
  rw [hc.data i r.used, r.stored, r.blockno]

instance (s : BufSys) (e : BufEvent) : Decidable (s.Disciplined e) := by
  cases e <;> simp only [Disciplined] <;> infer_instance

/-- A transaction stores block 100, and its `end_op` runs the whole commit. -/
def oneCommit : List BufEvent :=
  [.beginOp 0, .bread 0 1 100, .modify 0 0 fun _ => 7, .logCheck 0 0, .logInsert 0, .brelse 0 0,
    .endOp 0] ++ List.replicate 20 (.commit 0)

theorem plain_block_map_oneCommit :
    ∃ s, run step (start fun _ _ => 0) oneCommit = .ok s ∧ (s.pc 0 = .idle ∧ s.log.lh.n = 0) ∧
      ∀ p dev b c i, s.bc.bread p dev b = .ok (c, i) → (c.buf i).data = s.bc.stored b := by
  obtain ⟨s, hrun, hs⟩ := exists_ok_of_check (x := run step (start fun _ _ => 0) oneCommit)
    (P := fun s => s.pc 0 = .idle ∧ s.log.lh.n = 0) (by decide)
  have hC : Meets step (start fun _ _ => 0) Disciplined oneCommit :=
    .of_check (by decide)
  exact ⟨s, hrun, hs, fun p dev b c i hr => ((plain_block_map hC hrun).2.2.2 p dev b c i hr).2.2.2⟩

/-- A process logs block 100, reads it again and writes it with `bwrite`. -/
def bwriteLogged : List BufEvent :=
  [.beginOp 0, .bread 0 1 100, .modify 0 0 fun _ => 7, .logCheck 0 0, .logInsert 0, .brelse 0 0,
    .bread 0 1 100, .bwrite 0 0, .brelse 0 0]

/-- **A `bwrite` of a logged block unpins it**: the buffer that nobody holds is clean, and its block
is in the log header. -/
theorem bwrite_unpins : ∃ s, run step (start fun _ _ => 0) bwriteLogged = .ok s ∧
      s.log.committing = false ∧ (s.bc.buf 0).dev ≠ NODEV ∧ (s.bc.buf 0).busy = false ∧
      ¬ ((s.bc.buf 0).dirty = true ↔ (s.bc.buf 0).blockno ∈ s.log.lh.blocks) :=
  exists_ok_of_check (by decide)

end BufSys

end Xv6
