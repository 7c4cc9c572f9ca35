import Xv6.Bcache
import Xv6.LogGroup

/-!
# The cache looks like a plain block map

`Cached` is the invariant of the buffer cache alone: the list holds every buffer once, no block is
cached twice, a buffer in use holds what was last stored in its block, and a block that is not
cached, or cached in a buffer that is neither dirty nor being changed, has it on disk. `Pins` ties
the dirty buffers to a list of blocks: these are exactly the blocks of the list, and all of them are
cached. Each operation of `bio.c` has one lemma for each of the two.

`BufInv` adds the log: outside `commit` the pinned blocks are those of `lh.block[0..n)`, and
`install_trans` unpins them one by one, with the log slot of each still equal to the block.
-/

namespace Xv6

open Function List

namespace Bcache

/-- Buffer `i` holds some block. -/
def Used (c : Bcache) (i : ℕ) : Prop := i < NBUF ∧ (c.buf i).dev ≠ NODEV

/-- The invariant of `bio.c`. -/
structure Cached (c : Bcache) : Prop where
  perm : c.lru.Perm (List.range NBUF)
  unique : ∀ i j, c.Used i → c.Used j → (c.buf i).blockno = (c.buf j).blockno → i = j
  ready : ∀ i, c.Used i → (c.buf i).dev = 1 ∧ (c.buf i).valid = true ∧ (c.buf i).blockno < FSSIZE
  unused : ∀ i < NBUF, (c.buf i).dev = NODEV →
    (c.buf i).busy = false ∧ (c.buf i).valid = false ∧ (c.buf i).dirty = false
  owned : ∀ i < NBUF, (c.buf i).busy = (c.owner i).isSome
  inside : ∀ i p, c.owner i = some p → i < NBUF
  held : ∀ i < NBUF, c.changed i = true → (c.buf i).busy = true
  data : ∀ i, c.Used i → (c.buf i).data = c.stored (c.buf i).blockno
  clean : ∀ i, c.Used i → (c.buf i).dirty = false → c.changed i = false →
    c.disk (c.buf i).blockno = c.stored (c.buf i).blockno
  away : ∀ b, (∀ i, c.Used i → (c.buf i).blockno ≠ b) → c.disk b = c.stored b

/-- What a `bread` of process `p` for block `b` does: it locks buffer `i`, which was free and is
now for `b`, and nothing else changes. Either the block was in `i` already, or it was not cached
and `i` was clean. -/
structure Reads (c : Bcache) (p b : ℕ) (c' : Bcache) (i : ℕ) : Prop where
  lt : i < NBUF
  free : (c.buf i).busy = false
  buf : ∀ j, j ≠ i → c'.buf j = c.buf j
  busy : (c'.buf i).busy = true
  used : c'.Used i
  blockno : (c'.buf i).blockno = b
  dirty : (c'.buf i).dirty = (c.buf i).dirty
  owner : c'.owner = update c.owner i (some p)
  changed : c'.changed = c.changed
  stored : c'.stored = c.stored
  disk : c'.disk = c.disk
  lru : c'.lru = c.lru
  origin : (c.Used i ∧ (c.buf i).blockno = b) ∨
    ((c.buf i).dirty = false ∧ ∀ j, c.Used j → (c.buf j).blockno ≠ b)

variable {dev : UInt32}

namespace Cached

variable {c c' : Bcache} {p b i : ℕ}

section

variable (h : c.Cached)

include h

theorem mem_lru : i ∈ c.lru ↔ i < NBUF := by
  rw [h.perm.mem_iff, mem_range]

/-- A buffer that somebody holds is busy and in use. -/
theorem used_of_owner (ho : c.owner i = some p) : c.Used i ∧ (c.buf i).busy = true := by
  have hi := h.inside i p ho
  have hb : (c.buf i).busy = true := by rw [h.owned i hi, ho]; rfl
  refine ⟨⟨hi, fun hd => ?_⟩, hb⟩
  rw [(h.unused i hi hd).1] at hb
  cases hb

theorem changed_of_free (hi : i < NBUF) (hb : (c.buf i).busy = false) : c.changed i = false := by
  rcases hc : c.changed i with _ | _
  · rfl
  · rw [h.held i hi hc] at hb
    cases hb

/-- What `bget` and the read after it do to a buffer. -/
theorem bread_cases (hr : c.bread p dev b = .ok (c', i)) :
    dev = 1 ∧ i < NBUF ∧ (c.buf i).busy = false ∧
      ((c.Used i ∧ (c.buf i).blockno = b ∧
        c' = { c.setBuf i { c.buf i with busy := true } with
          owner := update c.owner i (some p) }) ∨
      ((c.buf i).dirty = false ∧ b < FSSIZE ∧ (∀ j, c.Used j → (c.buf j).blockno ≠ b) ∧
        c' = { c.setBuf i ⟨true, true, false, 1, b, c.disk b⟩ with
          owner := update c.owner i (some p) })) := by
  rw [bread, bget] at hr
  rcases hl : c.lookup dev b with _ | k
  · -- not cached: a clean buffer is recycled and read in
    rw [hl] at hr
    rcases hv : c.victim with _ | k
    · rw [hv] at hr
      cases hr
    rw [hv] at hr
    have hk := find?_some hv
    have hkm : k < NBUF := h.mem_lru.mp (mem_reverse.mp (mem_of_find?_eq_some hv))
    simp only [decide_eq_true_eq] at hk
    simp only [setBuf, iderw, update_self, Bool.false_eq_true, if_false, Bool.true_eq_false,
      false_and] at hr
    split at hr
    · rename_i c1 hc1
      obtain ⟨rfl, rfl⟩ : c1 = c' ∧ k = i := by simpa using hr
      split at hc1
      · cases hc1
      rename_i hdev
      obtain rfl : dev = 1 := not_not.mp hdev
      split at hc1
      · cases hc1
      rename_i hb
      refine ⟨rfl, hkm, hk.1, Or.inr ⟨hk.2, not_le.mp hb, ?_, ?_⟩⟩
      · intro j hj hjb
        have hnone := find?_eq_none.mp hl j (h.mem_lru.mpr hj.1)
        exact hnone (by simpa using ⟨(h.ready j hj).1, hjb⟩)
      · simpa [setBuf] using (Except.ok.inj hc1).symm
    · cases hr
  · rw [hl] at hr
    have hk := find?_some hl
    have hkm : k < NBUF := h.mem_lru.mp (mem_of_find?_eq_some hl)
    simp only [decide_eq_true_eq] at hk
    obtain ⟨rfl, rfl⟩ := hk
    rcases hb : (c.buf k).busy with _ | _
    · rcases eq_or_ne (c.buf k).dev NODEV with hd | hd
      · -- a buffer that was never used is not valid, and the driver refuses its device
        obtain ⟨-, hv, hdirty⟩ := h.unused k hkm hd
        have hne : NODEV ≠ 1 := by decide
        simp [hb, setBuf, hv, iderw, hd, hne] at hr
      have hu : c.Used k := ⟨hkm, hd⟩
      obtain ⟨hdev, hv, -⟩ := h.ready k hu
      simp only [hb, setBuf, hv, update_self, Bool.false_eq_true, if_false, if_true] at hr
      obtain ⟨rfl, rfl⟩ : _ = c' ∧ k = i := by simpa using hr
      exact ⟨hdev, hkm, hb, Or.inl ⟨hu, rfl, by simp [setBuf, hv]⟩⟩
    · simp [hb] at hr

/-- **`bread`** locks one free buffer for the block. -/
theorem bread_reads (hr : c.bread p dev b = .ok (c', i)) : dev = 1 ∧ c.Reads p b c' i := by
  obtain ⟨hdev, hi, hfree, ⟨hu, hb, rfl⟩ | ⟨hdirty, hb, haway, rfl⟩⟩ := h.bread_cases hr
  · refine ⟨hdev, hi, hfree, ?_, ?_, ?_, ?_, ?_, rfl, rfl, rfl, rfl, rfl, Or.inl ⟨hu, hb⟩⟩
    · intro j hj
      simp [setBuf, hj]
    · simp [setBuf]
    · exact ⟨hi, by simpa [setBuf] using hu.2⟩
    · simpa [setBuf] using hb
    · simp [setBuf]
  refine ⟨hdev, hi, hfree, ?_, ?_, ?_, ?_, ?_, rfl, rfl, rfl, rfl, rfl, Or.inr ⟨hdirty, haway⟩⟩
  · intro j hj
    simp [setBuf, hj]
  · simp [setBuf]
  · exact ⟨hi, by simpa [setBuf] using (by decide : (1 : UInt32) ≠ NODEV)⟩
  · simp [setBuf]
  · simp [setBuf, hdirty]

end

end Cached

/-! ## One buffer at a time -/

/-- `c'` is `c` with a change to buffer `i`, its list entry and its block, after which the buffer is
in order. -/
structure Edits (c : Bcache) (i : ℕ) (c' : Bcache) : Prop where
  lt : i < NBUF
  perm : c'.lru.Perm c.lru
  buf : ∀ j, j ≠ i → c'.buf j = c.buf j
  owner : ∀ j, j ≠ i → c'.owner j = c.owner j
  changed : ∀ j, j ≠ i → c'.changed j = c.changed j
  stored : ∀ b, b ≠ (c'.buf i).blockno → c'.stored b = c.stored b
  disk : ∀ b, b ≠ (c'.buf i).blockno → c'.disk b = c.disk b
  ready : (c'.buf i).dev = 1 ∧ (c'.buf i).valid = true ∧ (c'.buf i).blockno < FSSIZE
  owned : (c'.buf i).busy = (c'.owner i).isSome
  held : c'.changed i = true → (c'.buf i).busy = true
  data : (c'.buf i).data = c'.stored (c'.buf i).blockno
  clean : (c'.buf i).dirty = false → c'.changed i = false →
    c'.disk (c'.buf i).blockno = c'.stored (c'.buf i).blockno
  /-- no other buffer has the block -/
  fresh : ∀ j, j ≠ i → c.Used j → (c.buf j).blockno ≠ (c'.buf i).blockno
  /-- a block that leaves the cache is on disk -/
  left : c.Used i → (c.buf i).blockno ≠ (c'.buf i).blockno →
    c.disk (c.buf i).blockno = c.stored (c.buf i).blockno

namespace Edits

variable {c c' : Bcache} {i j : ℕ}

theorem used_self (e : c.Edits i c') : c'.Used i :=
  ⟨e.lt, by rw [e.ready.1]; decide⟩

theorem used_iff (e : c.Edits i c') (hj : j ≠ i) : c'.Used j ↔ c.Used j := by
  rw [Used, Used, e.buf j hj]

/-- **An edit of one buffer keeps the cache in order.** -/
theorem cached (e : c.Edits i c') (h : c.Cached) : c'.Cached := by
  constructor
  case perm => exact e.perm.trans h.perm
  case unique =>
    intro j k hj hk hb
    rcases eq_or_ne j i with rfl | hji
    · rcases eq_or_ne k j with rfl | hkj
      · rfl
      · rw [e.buf k hkj] at hb
        exact absurd hb.symm (e.fresh k hkj ((e.used_iff hkj).mp hk))
    rcases eq_or_ne k i with rfl | hki
    · rw [e.buf j hji] at hb
      exact absurd hb (e.fresh j hji ((e.used_iff hji).mp hj))
    · rw [e.buf j hji, e.buf k hki] at hb
      exact h.unique j k ((e.used_iff hji).mp hj) ((e.used_iff hki).mp hk) hb
  case ready =>
    intro j hj
    rcases eq_or_ne j i with rfl | hji
    · exact e.ready
    · rw [e.buf j hji]
      exact h.ready j ((e.used_iff hji).mp hj)
  case unused =>
    intro j hj hd
    rcases eq_or_ne j i with rfl | hji
    · exact absurd hd e.used_self.2
    · rw [e.buf j hji] at hd ⊢
      exact h.unused j hj hd
  case owned =>
    intro j hj
    rcases eq_or_ne j i with rfl | hji
    · exact e.owned
    · rw [e.buf j hji, e.owner j hji]
      exact h.owned j hj
  case inside =>
    intro j q hq
    rcases eq_or_ne j i with rfl | hji
    · exact e.lt
    · rw [e.owner j hji] at hq
      exact h.inside j q hq
  case held =>
    intro j hj hc
    rcases eq_or_ne j i with rfl | hji
    · exact e.held hc
    · rw [e.changed j hji] at hc
      rw [e.buf j hji]
      exact h.held j hj hc
  case data =>
    intro j hj
    rcases eq_or_ne j i with rfl | hji
    · exact e.data
    · have hju := (e.used_iff hji).mp hj
      rw [e.buf j hji, e.stored _ (e.fresh j hji hju)]
      exact h.data j hju
  case clean =>
    intro j hj hd hc
    rcases eq_or_ne j i with rfl | hji
    · exact e.clean hd hc
    have hju := (e.used_iff hji).mp hj
    rw [e.buf j hji] at hd ⊢
    rw [e.changed j hji] at hc
    rw [e.stored _ (e.fresh j hji hju), e.disk _ (e.fresh j hji hju)]
    exact h.clean j hju hd hc
  case away =>
    intro b hb
    have hbi : b ≠ (c'.buf i).blockno := (hb i e.used_self).symm
    rw [e.disk b hbi, e.stored b hbi]
    -- the block was not cached before, or it was the one that left the cache
    by_cases hi : c.Used i ∧ (c.buf i).blockno = b
    · obtain ⟨hu, rfl⟩ := hi
      exact e.left hu hbi
    · refine h.away b fun j hj hjb => ?_
      rcases eq_or_ne j i with rfl | hji
      · exact hi ⟨hj, hjb⟩
      · exact hb j ((e.used_iff hji).mpr hj) (by rw [e.buf j hji]; exact hjb)

end Edits

namespace Cached

variable {c c' : Bcache} {p b i : ℕ}

section

variable (h : c.Cached)

include h

/-- No other buffer has the block of a buffer in use. -/
theorem ne_block (hi : c.Used i) (j : ℕ) (hj : j ≠ i) (hu : c.Used j) :
    (c.buf j).blockno ≠ (c.buf i).blockno :=
  fun hb => hj (h.unique j i hu hi hb)

/-- A clean buffer that nobody holds can leave the cache. -/
theorem left_of_free (hu : c.Used i) (hb : (c.buf i).busy = false)
    (hd : (c.buf i).dirty = false) : c.disk (c.buf i).blockno = c.stored (c.buf i).blockno :=
  h.clean i hu hd (h.changed_of_free hu.1 hb)

theorem bread (hr : c.bread p dev b = .ok (c', i)) : c'.Cached := by
  obtain ⟨-, hi, hfree, ⟨hu, rfl, rfl⟩ | ⟨hdirty, hb, haway, rfl⟩⟩ := h.bread_cases hr
  · refine Edits.cached (i := i) ?_ h
    constructor
    case lt => exact hi
    all_goals simp +contextual [setBuf]
    case ready => exact h.ready i hu
    case data => exact h.data i hu
    case clean => exact h.clean i hu
    case fresh => exact h.ne_block hu
  refine Edits.cached (i := i) ?_ h
  constructor
  case lt => exact hi
  all_goals simp +contextual [setBuf]
  case ready => exact hb
  case data => exact h.away b haway
  case clean => exact fun _ => h.away b haway
  case fresh => exact fun j _ hj => haway j hj
  case left => exact fun hu _ => h.left_of_free hu hfree hdirty

/-- Changing the data of a held buffer is a store in its block. -/
theorem store (ho : c.owner i = some p) (d : Block) : (c.store i d).Cached := by
  obtain ⟨hu, hb⟩ := h.used_of_owner ho
  refine Edits.cached (i := i) ?_ h
  constructor
  case lt => exact hu.1
  all_goals simp +contextual [Bcache.store, setData, setBuf]
  case ready => exact h.ready i hu
  case owned => rw [hb, ho]; rfl
  case held => exact hb
  case fresh => exact h.ne_block hu

/-- `log_write` marks a held buffer dirty, so that it stays in the cache. -/
theorem pin (ho : c.owner i = some p) : (c.pin i).Cached := by
  obtain ⟨hu, hb⟩ := h.used_of_owner ho
  refine Edits.cached (i := i) ?_ h
  constructor
  case lt => exact hu.1
  all_goals simp +contextual [Bcache.pin, setBuf]
  case ready => exact h.ready i hu
  case owned => rw [hb, ho]; rfl
  case data => exact h.data i hu
  case fresh => exact h.ne_block hu

/-- `brelse` of a buffer whose changes are logged or written. -/
theorem brelse (ho : c.owner i = some p) (hc : c.changed i = false) (hr : c.brelse i = .ok c') :
    c'.Cached ∧ c' = { c.setBuf i { c.buf i with busy := false } with
      lru := i :: c.lru.erase i, owner := update c.owner i none } := by
  obtain ⟨hu, hb⟩ := h.used_of_owner ho
  simp only [Bcache.brelse, hb, Bool.true_eq_false, if_false] at hr
  cases hr
  refine ⟨Edits.cached (i := i) ?_ h, rfl⟩
  constructor
  case lt => exact hu.1
  all_goals simp +contextual [setBuf]
  case perm => exact (perm_cons_erase (h.mem_lru.mpr hu.1)).symm
  case ready => exact h.ready i hu
  case held => exact hc
  case data => exact h.data i hu
  case clean => exact h.clean i hu
  case fresh => exact h.ne_block hu

end

end Cached

/-! ## Writing a buffer -/

/-- Buffer `i` and its block on disk have the contents `d`, the last stored in the block. -/
def put (c : Bcache) (i : ℕ) (d : Block) : Bcache where
  buf := update c.buf i { c.buf i with data := d, dirty := false, valid := true }
  lru := c.lru
  disk := update c.disk (c.buf i).blockno d
  owner := c.owner
  changed := update c.changed i false
  stored := update c.stored (c.buf i).blockno d

namespace Cached

variable {c c' : Bcache} {p b i : ℕ}

section

variable (h : c.Cached) (ho : c.owner i = some p)

include h ho

theorem put (d : Block) : (c.put i d).Cached := by
  obtain ⟨hu, hb⟩ := h.used_of_owner ho
  obtain ⟨hdev, hv, hblk⟩ := h.ready i hu
  refine Edits.cached (i := i) ?_ h
  constructor
  case lt => exact hu.1
  all_goals simp +contextual [Bcache.put]
  case ready => exact ⟨hdev, hblk⟩
  case owned => rw [hb, ho]; rfl
  case fresh => exact h.ne_block hu

/-- **`bwrite`** after the data of a held buffer was overwritten, where the block map says so. -/
theorem bwrite_setData (d : Block) (st : ℕ → Block)
    (hst : st = update c.stored (c.buf i).blockno d) :
    ({ c.setData i d with stored := st } : Bcache).bwrite i = .ok (c.put i d) := by
  obtain ⟨hu, hb⟩ := h.used_of_owner ho
  obtain ⟨hdev, hv, hblk⟩ := h.ready i hu
  simp [Bcache.bwrite, iderw, setData, setBuf, Bcache.put, hb, hdev, hblk, hst]

/-- `bwrite` writes what was last stored. -/
theorem bwrite : c.bwrite i = .ok (c.put i (c.stored (c.buf i).blockno)) := by
  have hd := h.data i (h.used_of_owner ho).1
  have hw := h.bwrite_setData ho (c.buf i).data c.stored (by rw [hd, update_eq_self])
  have hsame : c.setData i (c.buf i).data = c := by simp [setData, setBuf]
  rw [hsame] at hw
  rw [hw, hd]

end

end Cached

/-! ## Pinned blocks -/

/-- The dirty buffers are those of the blocks in `L`, and all these blocks are cached. -/
structure Pins (c : Bcache) (L : List ℕ) : Prop where
  dirty : ∀ i < NBUF, (c.buf i).dirty = true ↔ c.Used i ∧ (c.buf i).blockno ∈ L
  cached : ∀ b ∈ L, ∃ i, c.Used i ∧ (c.buf i).blockno = b

namespace Pins

variable {c c' : Bcache} {p b i : ℕ} {L L' : List ℕ}

section

variable (h : c.Pins L)

include h

/-- Pinning does not see who holds a buffer and what is in it. -/
theorem congr (hdev : ∀ j, (c'.buf j).dev = (c.buf j).dev)
    (hblk : ∀ j, (c'.buf j).blockno = (c.buf j).blockno)
    (hdirty : ∀ j, (c'.buf j).dirty = (c.buf j).dirty) : c'.Pins L := by
  constructor
  · intro j hj
    rw [Used, hdev, hblk, hdirty]
    exact h.dirty j hj
  · intro b hb
    obtain ⟨j, hj, hjb⟩ := h.cached b hb
    exact ⟨j, by rw [Used, hdev]; exact hj, by rw [hblk]; exact hjb⟩

/-- `bread` recycles no pinned buffer. -/
theorem reads (r : c.Reads p b c' i) : c'.Pins L := by
  have hother : ∀ j, j ≠ i → (c'.Used j ↔ c.Used j) := by
    intro j hj
    rw [Used, Used, r.buf j hj]
  rcases r.origin with ⟨hu, hb⟩ | ⟨hd, haway⟩
  · have hblk : (c'.buf i).blockno = (c.buf i).blockno := by rw [r.blockno, hb]
    constructor
    · intro j hj
      rcases eq_or_ne j i with rfl | hji
      · rw [r.dirty, h.dirty j hj, hblk]
        simp [r.used, hu]
      · rw [hother j hji, r.buf j hji]
        exact h.dirty j hj
    · intro b' hb'
      obtain ⟨j, hj, hjb⟩ := h.cached b' hb'
      rcases eq_or_ne j i with rfl | hji
      · exact ⟨j, r.used, by rw [hblk, hjb]⟩
      · exact ⟨j, (hother j hji).mpr hj, by rw [r.buf j hji, hjb]⟩
  · have hbL : b ∉ L := by
      intro hb
      obtain ⟨j, hj, hjb⟩ := h.cached b hb
      exact haway j hj hjb
    constructor
    · intro j hj
      rcases eq_or_ne j i with rfl | hji
      · rw [r.dirty, hd, r.blockno]
        simp [hbL]
      · rw [hother j hji, r.buf j hji]
        exact h.dirty j hj
    · intro b' hb'
      obtain ⟨j, hj, hjb⟩ := h.cached b' hb'
      have hji : j ≠ i := by
        rintro rfl
        have := (h.dirty j hj.1).mpr ⟨hj, by rw [hjb]; exact hb'⟩
        rw [hd] at this
        cases this
      exact ⟨j, (hother j hji).mpr hj, by rw [r.buf j hji, hjb]⟩

/-- Marking a buffer dirty pins its block. -/
theorem pin (hc : c.Cached) (hu : c.Used i)
    (hL : ∀ b, b ∈ L' ↔ b ∈ L ∨ b = (c.buf i).blockno) : (c.pin i).Pins L' := by
  have hused : ∀ j, (c.pin i).Used j ↔ c.Used j := by
    intro j
    rcases eq_or_ne j i with rfl | hji <;> simp [Used, Bcache.pin, setBuf, *]
  have hblk : ∀ j, ((c.pin i).buf j).blockno = (c.buf j).blockno := by
    intro j
    rcases eq_or_ne j i with rfl | hji <;> simp [Bcache.pin, setBuf, *]
  constructor
  · intro j hj
    rw [hused, hblk, hL]
    rcases eq_or_ne j i with rfl | hji
    · simp [Bcache.pin, setBuf, hu]
    have hdirty : ((c.pin i).buf j).dirty = (c.buf j).dirty := by simp [Bcache.pin, setBuf, hji]
    rw [hdirty, h.dirty j hj]
    constructor
    · exact fun hd => ⟨hd.1, Or.inl hd.2⟩
    · rintro ⟨hju, hb | hb⟩
      · exact ⟨hju, hb⟩
      · exact absurd hb (hc.ne_block hu j hji hju)
  · intro b hb
    rcases (hL b).mp hb with hb | rfl
    · obtain ⟨j, hj, hjb⟩ := h.cached b hb
      exact ⟨j, (hused j).mpr hj, by rw [hblk, hjb]⟩
    · exact ⟨i, (hused i).mpr hu, hblk i⟩

/-- Writing a buffer unpins its block. -/
theorem put (hc : c.Cached) (hu : c.Used i) (d : Block)
    (hL : ∀ b, b ∈ L' ↔ b ∈ L ∧ b ≠ (c.buf i).blockno) : (c.put i d).Pins L' := by
  have hused : ∀ j, (c.put i d).Used j ↔ c.Used j := by
    intro j
    rcases eq_or_ne j i with rfl | hji <;> simp [Used, Bcache.put, *]
  have hblk : ∀ j, ((c.put i d).buf j).blockno = (c.buf j).blockno := by
    intro j
    rcases eq_or_ne j i with rfl | hji <;> simp [Bcache.put, *]
  constructor
  · intro j hj
    rw [hused, hblk, hL]
    rcases eq_or_ne j i with rfl | hji
    · simp [Bcache.put]
    have hdirty : ((c.put i d).buf j).dirty = (c.buf j).dirty := by simp [Bcache.put, hji]
    rw [hdirty, h.dirty j hj]
    constructor
    · exact fun hd => ⟨hd.1, hd.2, hc.ne_block hu j hji hd.1⟩
    · exact fun hd => ⟨hd.1, hd.2.1⟩
  · intro b hb
    obtain ⟨j, hj, hjb⟩ := h.cached b ((hL b).mp hb).1
    exact ⟨j, (hused j).mpr hj, by rw [hblk, hjb]⟩

/-- **A buffer that is not pinned leaves room for fewer than `NBUF` pinned blocks.** -/
theorem length_lt (hn : L.Nodup) (hi : i < NBUF) (hd : (c.buf i).dirty = false) :
    L.length < NBUF := by
  have hsub : L.toFinset ⊆ ((Finset.range NBUF).erase i).image fun j => (c.buf j).blockno := by
    intro b hb
    obtain ⟨j, hj, hjb⟩ := h.cached b (mem_toFinset.mp hb)
    refine Finset.mem_image.mpr ⟨j, Finset.mem_erase.mpr ⟨?_, Finset.mem_range.mpr hj.1⟩, hjb⟩
    rintro rfl
    have := (h.dirty j hj.1).mpr ⟨hj, by rw [hjb]; exact mem_toFinset.mp hb⟩
    rw [hd] at this
    cases this
  have hcard := (Finset.card_le_card hsub).trans Finset.card_image_le
  rw [toFinset_card_of_nodup hn, Finset.card_erase_of_mem (Finset.mem_range.mpr hi),
    Finset.card_range] at hcard
  have : 0 < NBUF := by decide
  omega

end

end Pins

end Bcache

end Xv6
