import Xv6.FileIo

/-!
# Freeing a file: `itrunc` and the last `iput`

`itrunc` walks over the direct addresses and over the entries of the indirect block and clears the
bit of each block it finds. Both loops clear the bits of a list of blocks (`clearAll`); what is
needed of the list is that it has no block twice and only blocks that are marked (`Freeable`), and
that is what ownership gives. So no run of `itrunc` reaches the panic of `bfree`, and at the end
nothing belongs to the inode any more.
-/

namespace Xv6

open Function List

/-! ## Clearing many bits -/

/-- The disk with the bits of the blocks `bs` cleared. -/
def clearAll (sb : Superblock) (disk : Disk) (bs : List ℕ) : Disk :=
  bs.foldl (fun disk b => mark sb disk b false) disk

/-- The blocks can be freed one after the other. -/
def Freeable (sb : Superblock) (disk : Disk) (bs : List ℕ) : Prop :=
  bs.Nodup ∧ ∀ b ∈ bs, b < sb.size ∧ bitOf sb disk b = true

variable {bs : List ℕ} {b : ℕ}

section ClearAll

variable {sb : Superblock} {disk : Disk} {xs ys : List ℕ}

theorem clearAll_append :
    clearAll sb disk (xs ++ ys) = clearAll sb (clearAll sb disk xs) ys := foldl_append ..

theorem bitOf_clearAll :
    bitOf sb (clearAll sb disk bs) b = if b ∈ bs then false else bitOf sb disk b := by
  induction bs generalizing disk with
  | nil => rfl
  | cons c bs ih =>
    show bitOf sb (clearAll sb (mark sb disk c false) bs) b = _
    rw [ih, bitOf_mark]
    by_cases hc : b = c
    · simp [hc]
    · simp [hc]

theorem clearAll_plain {c : ℕ} (hc : Plain sb c) (hbs : ∀ b ∈ bs, b < sb.size) :
    clearAll sb disk bs c = disk c := by
  induction bs generalizing disk with
  | nil => rfl
  | cons b bs ih =>
    show clearAll sb (mark sb disk b false) bs c = _
    rw [ih fun b' hb' => hbs b' (mem_cons_of_mem b hb'), mark_plain hc (hbs b mem_cons_self)]

theorem Freeable.cons (h : Freeable sb disk (b :: bs)) : Freeable sb (mark sb disk b false) bs := by
  obtain ⟨hnd, hbits⟩ := h
  obtain ⟨hb, hnd⟩ := nodup_cons.mp hnd
  refine ⟨hnd, fun c hc => ?_⟩
  have hne : c ≠ b := fun he => hb (he ▸ hc)
  rw [bitOf_mark, if_neg hne]
  exact hbits c (mem_cons_of_mem b hc)

theorem Freeable.left (h : Freeable sb disk (xs ++ ys)) : Freeable sb disk xs :=
  ⟨h.1.of_append_left, fun b hb => h.2 b (mem_append_left ys hb)⟩

theorem Freeable.right (h : Freeable sb disk (xs ++ ys)) :
    Freeable sb (clearAll sb disk xs) ys := by
  refine ⟨h.1.of_append_right, fun b hb => ?_⟩
  have hnot : b ∉ xs := fun hx => (nodup_append.mp h.1).2.2 b hx b hb rfl
  rw [bitOf_clearAll, if_neg hnot]
  exact h.2 b (mem_append_right xs hb)

end ClearAll

namespace Fs

open Exec

variable {sb : Superblock} {s : FsState} {T : ℕ → Dinode} {m : ℕ → ℕ} {i k : ℕ}
  {own : ℕ → Option (ℕ × ℕ)}

/-! ## The loops of `itrunc` -/

/-- The state after the blocks `bs` have been freed. -/
def freed (sb : Superblock) (s : FsState) (bs : List ℕ) : FsState :=
  { s with disk := clearAll sb s.disk bs, logged := s.logged ++ bs.map (BBLOCK sb) }

theorem bfree_ok (L : Layout sb) (h : Freeable sb s.disk (b :: bs)) :
    bfree sb b s = .ok ((), freed sb s [b]) := by
  obtain ⟨hb, hbit⟩ := h.2 b mem_cons_self
  have hread : bread (BBLOCK sb b) s = .ok (_, s) := if_pos (BBLOCK_fssize L hb)
  have hbit : (s.disk (BBLOCK sb b)).bit (b % BPB) = true := hbit
  rw [bfree, bind_ok hread, if_pos hbit]
  rfl

/-- The addresses in a list of direct slots that are in use. -/
def inUse (a : ℕ → ℕ) (ks : List ℕ) : List ℕ := (ks.filter fun k => decide (a k ≠ 0)).map a

variable {ks : List ℕ} {a : ℕ → ℕ}

theorem inUse_cons {k : ℕ} :
    inUse a (k :: ks) = if a k = 0 then inUse a ks else a k :: inUse a ks := by
  by_cases h : a k = 0
  · simp [inUse, h]
  · simp [inUse, h]

theorem mem_inUse : b ∈ inUse a ks ↔ ∃ k ∈ ks, a k = b ∧ b ≠ 0 := by
  simp only [inUse, mem_map, mem_filter, decide_eq_true_eq]
  constructor
  · rintro ⟨k, ⟨hk, hne⟩, rfl⟩
    exact ⟨k, hk, rfl, hne⟩
  · rintro ⟨k, hk, rfl, hne⟩
    exact ⟨k, ⟨hk, hne⟩, rfl⟩

theorem inUse_congr {a a' : ℕ → ℕ} (h : ∀ k ∈ ks, a k = a' k) : inUse a ks = inUse a' ks := by
  induction ks with
  | nil => rfl
  | cons k ks ih =>
    rw [inUse_cons, inUse_cons, h k mem_cons_self, ih fun k' hk' => h k' (mem_cons_of_mem k hk')]

theorem freed_freed {bs bs' : List ℕ} : freed sb (freed sb s bs) bs' = freed sb s (bs ++ bs') := by
  simp only [freed, clearAll_append, map_append, append_assoc]

theorem inUse_update {k : ℕ} (hk : k ∉ ks) : inUse (update a k 0) ks = inUse a ks := by
  refine inUse_congr fun k' hk' => update_of_ne ?_ _ _
  rintro rfl
  exact hk hk'

/-- The state after the direct slots `ks` have been emptied and their blocks freed. -/
def emptied (sb : Superblock) (i : ℕ) (s : FsState) (ks : List ℕ) : FsState :=
  { freed sb s (inUse (s.icache i).d.addrs ks) with
    icache := withAddrs s.icache i fun k => if k ∈ ks then 0 else (s.icache i).d.addrs k }

theorem emptied_nil : emptied sb i s [] = s := by
  have h : (fun k => if k ∈ ([] : List ℕ) then 0 else (s.icache i).d.addrs k) =
      (s.icache i).d.addrs := funext fun k => by simp
  have hc : withAddrs s.icache i (s.icache i).d.addrs = s.icache := update_eq_self ..
  rw [emptied, h, hc]
  simp [freed, inUse, clearAll]

theorem emptied_cons_zero {k : ℕ} (h0 : (s.icache i).d.addrs k = 0) :
    emptied sb i s (k :: ks) = emptied sb i s ks := by
  have h : (fun k' => if k' ∈ k :: ks then 0 else (s.icache i).d.addrs k') =
      fun k' => if k' ∈ ks then 0 else (s.icache i).d.addrs k' := by
    funext k'
    rcases eq_or_ne k' k with rfl | hne
    · simp [h0]
    · simp [hne]
  rw [emptied, emptied, h, inUse_cons, if_pos h0]

theorem emptied_cons {k : ℕ} (hk : k ∉ ks) (h0 : (s.icache i).d.addrs k ≠ 0) :
    emptied sb i { freed sb s [(s.icache i).d.addrs k] with
      icache := withAddrs s.icache i (update (s.icache i).d.addrs k 0) } ks =
    emptied sb i s (k :: ks) := by
  have h : (fun k' => if k' ∈ ks then 0 else update (s.icache i).d.addrs k 0 k') =
      fun k' => if k' ∈ k :: ks then 0 else (s.icache i).d.addrs k' := by
    funext k'
    rcases eq_or_ne k' k with rfl | hne
    · simp
    · simp [hne]
  simp only [emptied, withAddrs_self, withAddrs_withAddrs, inUse_update hk, h]
  rw [inUse_cons, if_neg h0]
  simp only [freed, map_cons, map_nil, append_assoc, cons_append, nil_append]
  rfl

/-- The first loop: the direct blocks are freed and their slots emptied. -/
theorem truncDirect_ok (L : Layout sb) : ∀ (ks : List ℕ) (s : FsState), ks.Nodup →
    Freeable sb s.disk (inUse (s.icache i).d.addrs ks) →
    truncDirect sb i ks s = .ok ((), emptied sb i s ks) := by
  intro ks
  induction ks with
  | nil =>
    intro s _ _
    rw [emptied_nil]
    rfl
  | cons k ks ih =>
    intro s hnd hf
    obtain ⟨hk, hnd⟩ := nodup_cons.mp hnd
    rw [truncDirect, bind_inode]
    rw [inUse_cons] at hf
    by_cases h0 : (s.icache i).d.addrs k = 0
    · rw [if_pos h0] at hf ⊢
      rw [ih s hnd hf, emptied_cons_zero h0]
    rw [if_neg h0] at hf ⊢
    rw [bind_ok (bfree_ok L hf), ← emptied_cons hk h0]
    refine ih _ hnd ?_
    simp only [update_self, inUse_update hk]
    exact hf.cons

/-- The second loop: the blocks in the entries of the indirect block are freed. -/
theorem truncIndirect_ok (L : Layout sb) (bp : Block) : ∀ (js : List ℕ) (s : FsState),
    Freeable sb s.disk (inUse (fun j => bp.u32 (4 * j)) js) →
    truncIndirect sb bp js s = .ok ((), freed sb s (inUse (fun j => bp.u32 (4 * j)) js)) := by
  intro js
  induction js with
  | nil =>
    intro s _
    simp [freed, inUse, clearAll, truncIndirect]
    rfl
  | cons j js ih =>
    intro s hf
    rw [truncIndirect]
    rw [inUse_cons] at hf ⊢
    by_cases h0 : bp.u32 (4 * j) = 0
    · rw [if_pos h0] at hf ⊢
      rw [if_pos h0, ih s hf]
    · rw [if_neg h0] at hf ⊢
      rw [if_neg h0, bind_ok (bfree_ok L hf), ih (freed sb s [bp.u32 (4 * j)]) hf.cons, freed_freed]
      rfl

/-! ## `itrunc` -/

/-- All blocks of an inode. -/
def allBlocks (disk : Disk) (d : Dinode) : List ℕ := inUse (ptr disk d) (List.range 141)

theorem mem_allBlocks {disk : Disk} {d : Dinode} :
    b ∈ allBlocks disk d ↔ ∃ x ≤ 140, ptr disk d x = b ∧ b ≠ 0 := by
  simp only [allBlocks, mem_inUse, mem_range, Nat.lt_succ_iff]

theorem inUse_append {ks ks' : List ℕ} : inUse a (ks ++ ks') = inUse a ks ++ inUse a ks' := by
  simp [inUse]

theorem inUse_map {a f : ℕ → ℕ} : inUse a (ks.map f) = inUse (a ∘ f) ks := by
  simp only [inUse, filter_map, map_map]
  rfl

/-- The order in which `itrunc` finds the blocks. -/
theorem allBlocks_eq {disk : Disk} {d : Dinode} :
    allBlocks disk d = inUse d.addrs (List.range 12) ++
      if d.addrs 12 = 0 then []
      else inUse (fun j => (disk (d.addrs 12)).u32 (4 * j)) (List.range 128) ++ [d.addrs 12] := by
  have hrange : List.range 141 = List.range 12 ++ (List.range 128).map (12 + ·) ++ [140] := by
    decide
  have h1 : inUse (ptr disk d) (List.range 12) = inUse d.addrs (List.range 12) :=
    inUse_congr fun x hx => ptr_direct (mem_range.mp hx)
  have h2 : inUse (ptr disk d) ((List.range 128).map (12 + ·)) =
      inUse (fun j => if d.addrs 12 = 0 then 0 else (disk (d.addrs 12)).u32 (4 * j))
        (List.range 128) := by
    rw [inUse_map]
    refine inUse_congr fun j hj => ?_
    have hj := mem_range.mp hj
    rw [comp, ptr_indirect (by omega) (by omega), Nat.add_sub_cancel_left]
  rw [allBlocks, hrange, inUse_append, inUse_append, h1, h2, inUse_cons, ptr_block le_rfl,
    append_assoc]
  split
  · simp [inUse]
  · rfl

/-- The blocks of a file can be freed one after the other. -/
theorem freeable_allBlocks (h : Mid sb T m i k s own) (hi : i < sb.ninodes)
    (ht : (s.icache i).d.type ≠ 0) : Freeable sb s.disk (allBlocks s.disk (s.icache i).d) := by
  have hfilled : ∀ x ≤ 140, ptr s.disk (s.icache i).d x ≠ 0 → Filled k x := by
    intro x hx hne
    by_contra hn
    exact hne (h.ptr_zero hi ht hx hn)
  constructor
  · refine List.Nodup.map_on ?_ (nodup_range.filter _)
    intro x hx y hy he
    simp only [mem_filter, mem_range, decide_eq_true_eq] at hx hy
    have h1 := h.ptr_own hi (hfilled x (by omega) hx.2)
    have h2 := h.ptr_own hi (hfilled y (by omega) hy.2)
    rw [he, h2] at h1
    cases h1
    rfl
  · intro b hb
    obtain ⟨x, hx, rfl, hne⟩ := mem_allBlocks.mp hb
    have hown := h.ptr_own hi (hfilled x hx hne)
    have hrange := h.owned_range hown
    refine ⟨hrange.2, (Own.bits h _ hrange.2).mpr (.inr ?_)⟩
    rw [hown]
    simp

/-- An inode without contents. -/
def truncated (d : Dinode) : Dinode := { d with size := 0, addrs := fun _ => 0 }

/-- The blocks that `itrunc` finds through the indirect block. -/
def indirectBlocks (disk : Disk) (d : Dinode) : List ℕ :=
  if d.addrs 12 = 0 then []
  else inUse (fun j => (disk (d.addrs 12)).u32 (4 * j)) (List.range 128) ++ [d.addrs 12]

theorem truncBlock_ok (L : Layout sb) (hf : Freeable sb s.disk
    (indirectBlocks s.disk (s.icache i).d)) :
    truncBlock sb i s = .ok ((), { freed sb s (indirectBlocks s.disk (s.icache i).d) with
      icache := withAddrs s.icache i (update (s.icache i).d.addrs 12 0) }) := by
  rw [truncBlock, bind_inode]
  by_cases h0 : (s.icache i).d.addrs 12 = 0
  · have hself : update (s.icache i).d.addrs 12 0 = (s.icache i).d.addrs := by
      conv_lhs => rw [← h0, update_eq_self]
    have hc : withAddrs s.icache i (s.icache i).d.addrs = s.icache := update_eq_self ..
    rw [if_pos h0, indirectBlocks, if_pos h0, hself, hc]
    simp [freed, clearAll]
    rfl
  rw [indirectBlocks, if_neg h0] at hf ⊢
  have hlt : (s.icache i).d.addrs 12 < 1000 := by
    have h1 := (hf.2 _ (mem_append_right _ mem_cons_self)).1
    have h2 : sb.size ≤ 1000 := L.disk
    omega
  have hread : bread ((s.icache i).d.addrs 12) s =
      .ok (s.disk ((s.icache i).d.addrs 12), s) := if_pos hlt
  have hloop := truncIndirect_ok L (s.disk ((s.icache i).d.addrs 12)) (List.range 128) s hf.left
  have hlast := bfree_ok (s := freed sb s (inUse (fun j =>
    (s.disk ((s.icache i).d.addrs 12)).u32 (4 * j)) (List.range 128))) L hf.right
  rw [freed_freed] at hlast
  rw [if_neg h0, bind_ok hread, bind_ok hloop, bind_ok hlast]
  rfl

/-- **`itrunc`** frees the blocks of the file, without reaching the panic of `bfree`. -/
theorem itrunc_ok (L : Layout sb) (h : Mid sb T m i k s own) (hi : i < sb.ninodes)
    (ht : (s.icache i).d.type ≠ 0) (hfits : (s.icache i).d.Fits) :
    itrunc sb i s = .ok ((), { s with
      disk := storeInode sb (clearAll sb s.disk (allBlocks s.disk (s.icache i).d)) i
        (truncated (s.icache i).d)
      icache := update s.icache i { s.icache i with d := truncated (s.icache i).d }
      logged := s.logged ++ (allBlocks s.disk (s.icache i).d).map
        (BBLOCK sb) ++ [IBLOCK sb i] }) := by
  have hf := freeable_allBlocks h hi ht
  have hsplit : allBlocks s.disk (s.icache i).d =
      inUse (s.icache i).d.addrs (List.range 12) ++ indirectBlocks s.disk (s.icache i).d :=
    allBlocks_eq
  rw [hsplit] at hf ⊢
  have h1 := truncDirect_ok (i := i) L (List.range 12) s nodup_range hf.left
  -- the indirect block is not changed by the first loop
  have h12 : ((emptied sb i s (List.range 12)).icache i).d.addrs 12 = (s.icache i).d.addrs 12 := by
    simp [emptied, withAddrs_self]
  have hsame : indirectBlocks (emptied sb i s (List.range 12)).disk
      ((emptied sb i s (List.range 12)).icache i).d = indirectBlocks s.disk (s.icache i).d := by
    rw [indirectBlocks, h12, indirectBlocks]
    split
    · rfl
    rename_i h0
    have hfull : Filled k 140 := by
      by_contra hn
      have := h.ptr_zero hi ht le_rfl hn
      rw [ptr_block le_rfl] at this
      exact h0 this
    have hown := h.ptr_own hi hfull
    rw [ptr_block le_rfl] at hown
    have hdata := (h.owned_range hown).1
    have hblk : (emptied sb i s (List.range 12)).disk ((s.icache i).d.addrs 12) =
        s.disk ((s.icache i).d.addrs 12) :=
      clearAll_plain (.inr hdata) fun b hb => (hf.left.2 b hb).1
    rw [hblk]
  have h2 := truncBlock_ok (i := i) (s := emptied sb i s (List.range 12)) L (by
    rw [hsame]
    exact hf.right)
  rw [hsame] at h2
  -- all addresses of the copy in memory are zero now
  have hzero : (update ((emptied sb i s (List.range 12)).icache i).d.addrs 12 0) = fun _ => 0 := by
    funext x
    rcases eq_or_ne x 12 with rfl | hne
    · rw [update_self]
    rw [update_of_ne hne]
    simp only [emptied, withAddrs_self, mem_range]
    split
    · rfl
    · exact hfits.none x (show 12 < x by omega)
  rw [hzero] at h2
  rw [itrunc, bind_ok h1, bind_ok h2]
  refine (iupdate_ok L hi).trans ?_
  simp only [withAddrs_self, update_self]
  simp only [emptied, freed, withAddrs, update_idem, update_self,
    clearAll_append, map_append, append_assoc, truncated]

end Fs

end Xv6
