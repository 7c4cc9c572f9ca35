import Xv6.Mkfs
import Xv6.SimContents

/-!
# `iappend` and `writei`

`mkfs` allocates blocks by counting and writes the bitmap at the end; the kernel looks for the first
clear bit of the bitmap. Seen on the disk `view m`, on which the bitmap is up to date, the two do
the same: as long as the blocks from `freeblock` on are zero, counting is what `balloc` does, and
the loop of `iappend` is the loop of `writei`.

* `Tracks`: a state of the kernel that holds the inode `mkfs` is working on.
* `appendLoop_sim`: the two loops end in states that belong together, or both fail. What is known
  about `writei` is so known about `iappend`.
-/

namespace Xv6

open Function

namespace Mkfs

open Exec

/-! ## The bitmap -/

theorem bitmap_succ (n : ℕ) : bitmap (n + 1) = (bitmap n).setBit n true := by
  rw [bitmap, bitmap, List.range_succ, List.foldl_append]
  rfl

theorem bit_bitmap : ∀ {n b : ℕ}, n ≤ 4096 → b < 4096 → (bitmap n).bit b = decide (b < n) := by
  intro n
  induction n with
  | zero =>
    intro b _ _
    simp [bitmap, Bytes.bit]
  | succ n ih =>
    intro b hn hb
    rw [bitmap_succ]
    rcases eq_or_ne n b with rfl | hne
    · rw [Bytes.bit_setBit_self (show n < 8 * 512 by omega)]
      simp
    · rw [Bytes.bit_setBit_ne hne, ih (by omega) hb, decide_eq_decide]
      omega

/-- The image, with the bitmap that `mkfs` would write now. -/
def view (m : State) : Disk := update m.img sb.bmapstart (bitmap m.freeblock)

theorem bmapstart_eq : sb.bmapstart = 58 := rfl

theorem dataStart_eq : dataStart sb = 59 := rfl

theorem view_ne {m : State} {c : ℕ} (hc : c ≠ 58) : view m c = m.img c := update_of_ne hc ..

theorem view_bitmap {m : State} : view m 58 = bitmap m.freeblock := update_self ..

variable {b : ℕ}

theorem bitOf_view {m : State} (hm : m.freeblock ≤ 1000) (hb : b < 1000) :
    bitOf sb (view m) b = decide (b < m.freeblock) := by
  have hmod : b % BPB = b := Nat.mod_eq_of_lt (show b < 4096 by omega)
  rw [bitOf, Fs.BBLOCK_eq layout_mkfs hb, bmapstart_eq, view_bitmap, hmod,
    bit_bitmap (by omega) (by omega)]

/-! ## Counting is what `balloc` does -/

/-- The image is as long as the disk, and what has not been allocated is zero. -/
structure Room (m : State) : Prop where
  len : m.len = 1000
  lo : 59 ≤ m.freeblock
  hi : m.freeblock ≤ 1000
  zero : ∀ b, m.freeblock ≤ b → m.img b = Bytes.zero

/-- The kernel state `s` has the disk of `m`, and its copy of inode `i` is `din`. -/
structure Tracks (s : FsState) (i : ℕ) (m : State) (din : Dinode) : Prop extends Room m where
  disk : s.disk = view m
  copy : (s.icache i).d = din

/-- Block `freeblock` is counted as in use. -/
def taken (m : State) : State := { m with freeblock := m.freeblock + 1 }

theorem Room.taken {m : State} (h : Room m) (hlt : m.freeblock < 1000) : Room (taken m) :=
  ⟨h.len, Nat.le_succ_of_le h.lo, hlt, fun b hb => h.zero b (Nat.le_of_succ_le hb)⟩

theorem view_taken {m : State} (h : Room m) (hlt : m.freeblock < 1000) :
    view (taken m) = allocDisk sb (view m) m.freeblock := by
  have hlo := h.lo
  have hmod : m.freeblock % BPB = m.freeblock :=
    Nat.mod_eq_of_lt (show m.freeblock < 4096 by omega)
  have hblk := Fs.BBLOCK_eq layout_mkfs hlt
  funext c
  rcases eq_or_ne c m.freeblock with rfl | hne
  · rw [allocDisk_self, view_ne (by omega)]
    exact h.zero _ le_rfl
  rw [allocDisk, update_of_ne hne, mark, hblk, hmod, bmapstart_eq]
  rcases eq_or_ne c 58 with rfl | hc
  · rw [update_self, view_bitmap, view_bitmap]
    exact bitmap_succ _
  · rw [update_of_ne hc, view_ne hc, view_ne hc]
    rfl

/-- The first clear bit is found. -/
theorem clearBit_first {bp : Block} {r : ℕ} (hr : r < 1000) (hset : ∀ q < r, bp.bit q = true)
    (hclear : bp.bit r = false) : ∀ {n bi : ℕ}, bi ≤ r → r < bi + n →
    Fs.clearBit sb bp 0 n bi = some r := by
  intro n
  induction n with
  | zero =>
    intro bi h1 h2
    omega
  | succ n ih =>
    intro bi h1 h2
    have hin : 0 + bi < sb.size := show 0 + bi < 1000 by omega
    rw [Fs.clearBit, if_pos hin]
    rcases Nat.eq_or_lt_of_le h1 with rfl | hlt
    · rw [hclear]
      rfl
    · rw [hset bi hlt, if_pos rfl]
      exact ih hlt (by omega)

variable {s : FsState} {i : ℕ} {m : State} {din : Dinode}

/-- `balloc` takes block `freeblock`. -/
theorem balloc_ok (h : Tracks s i m din) (hlt : m.freeblock < 1000) :
    Fs.balloc sb s = .ok (m.freeblock, Fs.allocated sb s m.freeblock) := by
  have hbit : ∀ b < 1000, (s.disk 58).bit b = decide (b < m.freeblock) := fun b hb => by
    rw [h.disk, view_bitmap, bit_bitmap (by omega) (by omega)]
  have hread : Fs.bread (BBLOCK sb (BPB * 0)) s = .ok (s.disk 58, s) := if_pos (by decide)
  have hfind : Fs.clearBit sb (s.disk 58) 0 BPB 0 = some m.freeblock := by
    refine clearBit_first hlt (fun q hq => ?_) ?_ (Nat.zero_le _)
      (show m.freeblock < 0 + 4096 by omega)
    · rw [hbit q (by omega)]
      exact decide_eq_true hq
    · rw [hbit _ hlt]
      exact decide_eq_false (Nat.lt_irrefl _)
  have hmod : m.freeblock % BPB = m.freeblock :=
    Nat.mod_eq_of_lt (show m.freeblock < 4096 by omega)
  have hz : ∀ t, Fs.bzero m.freeblock t = .ok ((), { t with
      disk := update t.disk m.freeblock Bytes.zero
      logged := t.logged ++ [m.freeblock] }) := fun t => by
    have h1 : Fs.bread m.freeblock t = .ok (t.disk m.freeblock, t) := if_pos hlt
    rw [Fs.bzero, bind_ok h1]
    rfl
  have hw : ∀ b, Fs.logWrite (BBLOCK sb (BPB * 0)) b s = .ok ((), { s with
      disk := update s.disk 58 b, logged := s.logged ++ [58] }) := fun _ => rfl
  rw [Fs.balloc, Fs.ballocFrom, if_pos (by decide), bind_ok hread]
  simp only [Nat.mul_zero] at hfind ⊢
  rw [hfind]
  show (Fs.logWrite (BBLOCK sb (BPB * 0)) _ >>= fun _ => _) s = _
  rw [bind_ok (hw _), Nat.zero_add, bind_ok (hz _)]
  simp only [Fs.allocated, allocDisk, mark, Fs.BBLOCK_eq layout_mkfs hlt, hmod, bmapstart_eq,
    List.append_assoc]
  rfl

/-- When all blocks are counted as in use, `balloc` finds none. -/
theorem balloc_full (h : Tracks s i m din) (hfull : ¬ m.freeblock < 1000) :
    ∃ e, Fs.balloc sb s = .error e := by
  have hspec := Fs.balloc_spec (s := s) layout_mkfs
  rcases hb : Fs.balloc sb s with e | ⟨b, s'⟩
  · exact ⟨e, rfl⟩
  · obtain ⟨hlt, hclear, -⟩ := hspec.ok hb
    have hlt : b < 1000 := hlt
    rw [h.disk, bitOf_view h.hi hlt, decide_eq_false_iff_not] at hclear
    omega

/-! ## Finding a block -/

/-- One address of the inode is filled in, by both. -/
theorem fillAddr_sim (h : Tracks s i m din) (x : ℕ) :
    (∃ s' m', Fs.bmapDirect sb i x s = .ok ((s'.icache i).d.addrs x, s') ∧
      fillAddr din x m = .ok ((s'.icache i).d, m') ∧ Tracks s' i m' (s'.icache i).d ∧
      m'.freeinode = m.freeinode ∧ (din.addrs x ≠ 0 ∧ s' = s ∧ m' = m ∨
        (s'.icache i).d.addrs x = m.freeblock ∧ m'.freeblock = m.freeblock + 1)) ∨
    ((∃ e, Fs.bmapDirect sb i x s = .error e) ∧ ∃ m', m'.len = 1000 ∧
      fillAddr din x m = .ok ({ din with addrs := update din.addrs x 1000 }, m')) := by
  by_cases h0 : din.addrs x = 0
  swap
  · left
    refine ⟨s, m, Fs.bmapDirect_hit (by rwa [h.copy]), ?_, by rw [h.copy]; exact h, rfl,
      .inl ⟨h0, rfl, rfl⟩⟩
    rw [fillAddr, if_neg h0, h.copy]
    rfl
  have hnext : nextBlock m = .ok (m.freeblock, taken m) := rfl
  rw [fillAddr, if_pos h0, bind_ok hnext, Fs.bmapDirect, Fs.bind_inode, h.copy, if_pos h0]
  by_cases hlt : m.freeblock < 1000
  · left
    rw [bind_ok (balloc_ok h hlt)]
    have hcopy : (update s.icache i { s.icache i with
        d := { din with addrs := update din.addrs x m.freeblock } } i).d =
        { din with addrs := update din.addrs x m.freeblock } := by
      rw [update_self]
    refine ⟨{ s with
        disk := allocDisk sb s.disk m.freeblock
        icache := update s.icache i { s.icache i with
          d := { din with addrs := update din.addrs x m.freeblock } }
        logged := s.logged ++ [BBLOCK sb m.freeblock, m.freeblock] }, taken m, ?_, ?_,
      ⟨h.toRoom.taken hlt, ?_, rfl⟩, rfl, .inr ⟨?_, rfl⟩⟩
    · simp only [update_self]
      rfl
    · simp only [hcopy]
      rfl
    · rw [view_taken h.toRoom hlt, h.disk]
    · simp only [update_self]
  · right
    obtain ⟨e, he⟩ := balloc_full h hlt
    have hfb : m.freeblock = 1000 := by
      have := h.hi
      omega
    rw [bind_error he, hfb]
    exact ⟨⟨e, rfl⟩, taken m, h.len, rfl⟩

/-- Writing a block of the data region. -/
theorem Room.write {m : State} (h : Room m) (h1 : 59 ≤ b) (h2 : b < m.freeblock)
    (v : Block) : Room { m with img := update m.img b v, len := max m.len (b + 1) } := by
  have hhi := h.hi
  refine ⟨?_, h.lo, hhi, fun c hc => ?_⟩
  · have := h.len
    show max m.len (b + 1) = 1000
    omega
  · have hc : m.freeblock ≤ c := hc
    exact (update_of_ne (by omega) ..).trans (h.zero c hc)

theorem view_write {m : State} {b n : ℕ} (hb : 59 ≤ b) (v : Block) :
    view { m with img := update m.img b v, len := n } =
      update (view m) b v := by
  have hne : b ≠ 58 := by omega
  exact update_comm hne ..

theorem rsect_ok {m : State} (h : Room m) (hb : b < 1000) :
    rsect b m = .ok (m.img b, m) := if_pos (by rw [h.len]; exact hb)

theorem rsect_past {m : State} (h : m.len = 1000) : rsect 1000 m = .error .exit :=
  if_neg (by rw [h]; exact Nat.lt_irrefl _)

/-- One entry of the indirect block is filled in, by both. -/
theorem entry_sim (h : Tracks s i m din) {ind j : ℕ} (h1 : 59 ≤ ind) (h2 : ind < m.freeblock) :
    (∃ a s' m', Fs.bmapEntry sb ind j s = .ok (a, s') ∧
      fillEntry din ind j m = .ok ((din, a), m') ∧
      Tracks s' i m' din ∧ m'.freeinode = m.freeinode) ∨
    ((∃ e, Fs.bmapEntry sb ind j s = .error e) ∧ ∃ m', m'.len = 1000 ∧
      fillEntry din ind j m = .ok ((din, 1000), m')) := by
  have hhi := h.hi
  have hread : Fs.bread ind s = .ok (s.disk ind, s) := if_pos (show ind < 1000 by omega)
  have himg : s.disk ind = m.img ind := by rw [h.disk, view_ne (by omega)]
  have hnext : nextBlock m = .ok (m.freeblock, taken m) := rfl
  rw [fillEntry, bind_ok (rsect_ok h.toRoom (by omega)), Fs.bmapEntry, bind_ok hread, himg]
  by_cases h0 : (m.img ind).u32 (4 * j) = 0
  swap
  · rw [if_neg h0, if_neg h0]
    exact .inl ⟨_, s, m, rfl, rfl, h, rfl⟩
  rw [if_pos h0, if_pos h0, bind_ok hnext]
  have hlen : max m.len (ind + 1) = 1000 := by
    have := h.len
    omega
  by_cases hlt : m.freeblock < 1000
  · left
    have hw := (h.toRoom.taken hlt).write h1 (show ind < m.freeblock + 1 by omega)
      ((m.img ind).setU32 (4 * j) m.freeblock)
    refine ⟨m.freeblock, { s with
        disk := update (allocDisk sb s.disk m.freeblock) ind
          ((m.img ind).setU32 (4 * j) m.freeblock)
        logged := s.logged ++ [BBLOCK sb m.freeblock, m.freeblock] ++ [ind] }, _, ?_, rfl,
      ⟨hw, ?_, h.copy⟩, rfl⟩
    · rw [bind_ok (balloc_ok h hlt)]
      rfl
    · rw [view_write h1, view_taken h.toRoom hlt, h.disk]
  · right
    obtain ⟨e, he⟩ := balloc_full h hlt
    have hfb : m.freeblock = 1000 := by omega
    rw [bind_error he, hfb]
    exact ⟨⟨e, rfl⟩, _, hlen, rfl⟩

/-- **`iappend` finds its blocks as `bmap` does**, and fails where `bmap` fails, at the latest when
it reads the block. -/
theorem blockOf_sim (h : Tracks s i m din) {bn : ℕ} (hbn : bn < 140)
    (hind : din.addrs 12 ≠ 0 → 59 ≤ din.addrs 12 ∧ din.addrs 12 < m.freeblock) :
    (∃ a s' m' din', Fs.bmap sb i bn s = .ok (a, s') ∧ blockOf din bn m = .ok ((din', a), m') ∧
      Tracks s' i m' din' ∧ m'.freeinode = m.freeinode) ∨
    ((∃ e, Fs.bmap sb i bn s = .error e) ∧ ∀ {α : Type} (f : Dinode × ℕ → Block → Mk α),
      (blockOf din bn >>= fun r => rsect r.2 >>= f r) m = .error .exit) := by
  by_cases h12 : bn < 12
  · rw [Fs.bmap_direct h12, blockOf, if_pos h12]
    rcases fillAddr_sim h bn with ⟨s', m', hk, hf, ht, hfi, -⟩ | ⟨he, m', hlen, hf⟩
    · refine .inl ⟨_, s', m', _, hk, ?_, ht, hfi⟩
      rw [bind_ok hf]
      rfl
    refine .inr ⟨he, fun f => ?_⟩
    have hb : (fillAddr din bn >>= fun din => (return (din, din.addrs bn) : Mk _)) m =
        .ok (({ din with addrs := update din.addrs bn 1000 }, 1000), m') := by
      rw [bind_ok hf]
      show Except.ok _ = _
      simp only [update_self]
    rw [bind_ok hb, bind_error (rsect_past hlen)]
  rw [Fs.bmap_indirect (Nat.not_lt.mp h12) hbn, blockOf, if_neg h12]
  rcases fillAddr_sim h 12 with ⟨s', m', hk, hf, ht, hfi, hrange⟩ | ⟨⟨e, he⟩, m', hlen, hf⟩
  · have hin : 59 ≤ (s'.icache i).d.addrs 12 ∧ (s'.icache i).d.addrs 12 < m'.freeblock := by
      rcases hrange with ⟨h0, rfl, rfl⟩ | ⟨ha, hfb⟩
      · rw [h.copy]
        exact hind h0
      · have := h.lo
        omega
    rw [bind_ok hk, bind_ok hf]
    rcases entry_sim ht (j := bn - 12) hin.1 hin.2 with
      ⟨a, s'', m'', hk', hf', ht', hfi'⟩ | ⟨⟨e, he⟩, m'', hlen, hf'⟩
    · exact .inl ⟨a, s'', m'', _, hk', hf', ht', hfi'.trans hfi⟩
    · refine .inr ⟨⟨e, he⟩, fun f => ?_⟩
      have hb := (bind_ok (f := fun din => fillEntry din (din.addrs NDIRECT) (bn - NDIRECT))
        hf).trans hf'
      exact (bind_ok hb).trans (bind_error (rsect_past hlen))
  · refine .inr ⟨⟨e, bind_error he⟩, fun f => ?_⟩
    have hb : (fillAddr din 12 >>= fun din => fillEntry din (din.addrs NDIRECT) (bn - NDIRECT)) m =
        .error .exit := by
      rw [bind_ok hf]
      simp only [update_self]
      exact bind_error (rsect_past hlen)
    exact bind_error hb

/-! ## The loop -/

/-- An owned block has been counted. -/
theorem Tracks.owned_lt {T : ℕ → Dinode} {k : ℕ} {n : ℕ → ℕ} {own : ℕ → Option (ℕ × ℕ)}
    (h : Tracks s i m din) (hmid : Fs.Mid sb T n i k s own) {o : ℕ × ℕ}
    (hb : own b = some o) : 59 ≤ b ∧ b < m.freeblock := by
  obtain ⟨h1, h2⟩ := hmid.owned_range hb
  have hlt : b < 1000 := h2
  have hbit := (Own.bits hmid b h2).mpr (.inr (by rw [hb]; exact Option.some_ne_none o))
  rw [h.disk, bitOf_view h.hi hlt, decide_eq_true_eq] at hbit
  exact ⟨h1, hbit⟩

variable {T : ℕ → Dinode} {n : ℕ → ℕ}

/-- **The loop of `iappend` is the loop of `writei`.** -/
theorem appendLoop_sim (hi : i < 200) (hn : ∀ j < 200, n j ≤ 140) :
    ∀ (fuel k off : ℕ) (src : List UInt8) (s : FsState) (own : ℕ → Option (ℕ × ℕ)) (m : State)
      (din : Dinode), Fs.Mid sb T n i k s own → din.type ≠ 0 → Tracks s i m din →
    src.length ≤ fuel → off ≤ 512 * k → k ≤ 140 →
    (∃ s' m' din', Fs.writeLoop sb i fuel off src s = .ok ((), s') ∧
      appendLoop fuel din off src m = .ok ((din', off + src.length), m') ∧
      off + src.length ≤ 512 * 140 ∧ Tracks s' i m' din' ∧ m'.freeinode = m.freeinode) ∨
    ((∃ e, appendLoop fuel din off src m = .error e) ∧
      (512 * 140 < off + src.length ∨ ∃ e, Fs.writeLoop sb i fuel off src s = .error e)) := by
  intro fuel
  induction fuel with
  | zero =>
    intro k off src s own m din hmid hty h hfuel hoff hk
    obtain rfl : src = [] := List.length_eq_zero_iff.mp (by omega)
    exact .inl ⟨s, m, din, rfl, rfl, show off + 0 ≤ _ by omega, h, rfl⟩
  | succ fuel ih =>
    intro k off src s own m din hmid hty h hfuel hoff hk
    rw [appendLoop, Fs.writeLoop]
    by_cases h0 : src.length = 0
    · rw [if_pos h0, if_pos h0, h0]
      exact .inl ⟨s, m, din, rfl, rfl, show off + 0 ≤ _ by omega, h, rfl⟩
    rw [if_neg h0, if_neg h0]
    by_cases hbn : off / 512 < 140
    swap
    · rw [if_neg hbn]
      exact .inr ⟨⟨_, rfl⟩, .inl (by omega)⟩
    rw [if_pos hbn]
    have hind : din.addrs 12 ≠ 0 → 59 ≤ din.addrs 12 ∧ din.addrs 12 < m.freeblock := by
      intro hne
      have hp : ptr s.disk (s.icache i).d 140 = din.addrs 12 := by rw [ptr_block le_rfl, h.copy]
      have hfill : Filled k 140 := by
        by_contra hc
        exact hne (hp ▸ hmid.ptr_zero hi (by rwa [h.copy]) le_rfl hc)
      exact h.owned_lt hmid (hp ▸ hmid.ptr_own hi hfill)
    have hspec := Fs.bmap_spec layout_mkfs hmid hi (by rwa [h.copy]) (show off / 512 ≤ k by omega)
      hbn hk hn
    rcases blockOf_sim h hbn hind with ⟨a, s0, m0, din0, hk0, hf0, ht0, hfi0⟩ | ⟨⟨e, he⟩, hf⟩
    swap
    · exact .inr ⟨⟨_, hf _⟩, .inr ⟨e, bind_error he⟩⟩
    have hmap := hspec.ok hk0
    obtain ⟨own0, hmid0, hext⟩ := hmap.mid
    have haddr : own0 a = some (i, off / 512) := by
      rw [hmap.found]
      exact hmid0.ptr_own hi (.inl (by omega))
    obtain ⟨ha1, ha2⟩ := ht0.owned_lt hmid0 haddr
    have hhi := ht0.hi
    have hread : Fs.bread a s0 = .ok (s0.disk a, s0) := if_pos (show a < 1000 by omega)
    have himg : s0.disk a = m0.img a := by rw [ht0.disk, view_ne (by omega)]
    obtain ⟨c, hc⟩ : ∃ c, c = min src.length (512 - off % 512) := ⟨_, rfl⟩
    have hdrop : off + c + (src.drop c).length = off + src.length := by
      rw [List.length_drop]
      omega
    -- the block is written, by both
    have hmid1 : Fs.Mid sb T n i (max k (off / 512 + 1)) { s0 with
        disk := update s0.disk a ((s0.disk a).splice (off % 512) (src.take c))
        logged := s0.logged ++ [a] } own0 := Own.write hmid0 haddr hbn _
    have ht1 : Tracks { s0 with
        disk := update s0.disk a ((s0.disk a).splice (off % 512) (src.take c))
        logged := s0.logged ++ [a] } i { m0 with
        img := update m0.img a ((m0.img a).splice (off % 512) (src.take c))
        len := max m0.len (a + 1) } din0 := by
      refine ⟨ht0.toRoom.write ha1 ha2 _, ?_, ht0.copy⟩
      rw [view_write ha1, himg, ht0.disk]
    have hty0 : din0.type ≠ 0 := by
      obtain ⟨addrs, hcache⟩ := hmap.cache
      rw [← ht0.copy, hcache, Fs.withAddrs_self, h.copy]
      exact hty
    have hrest := ih (max k (off / 512 + 1)) (off + c) (src.drop c) _ own0 _ din0 hmid1 hty0 ht1
      (by omega) (by omega) (by omega)
    rw [bind_ok hk0, bind_ok hread, bind_ok hf0]
    simp only
    rw [bind_ok (rsect_ok ht0.toRoom (show a < 1000 by omega)),
      show min src.length (BSIZE - off % BSIZE) = c from hc.symm]
    have hw : Fs.logWrite a ((s0.disk a).splice (off % BSIZE) (src.take c)) s0 = .ok ((), _) := rfl
    have hw' : wsect a ((m0.img a).splice (off % BSIZE) (src.take c)) m0 = .ok ((), _) := rfl
    rw [bind_ok hw, bind_ok hw', ← hdrop]
    rcases hrest with ⟨s', m', din', h1, h2, hle, h3, h4⟩ | ⟨he, hwhy⟩
    · exact .inl ⟨s', m', din', h1, h2, hle, h3, h4.trans hfi0⟩
    · exact .inr ⟨he, hwhy⟩

end Mkfs

end Xv6
