import Xv6.Bmap
import Xv6.Machine

/-!
# The block allocator

`balloc` takes the first block whose bit is clear, and `bfree` gives a block back: no block is taken
twice without having been freed (`balloc_bfree`).

`balloc` also zeroes the block it takes. If a block of the bitmap is free according to the bitmap,
it wipes the bitmap (`balloc_wipes`); and `bfree` reads the super block again, from block 1. So
these blocks have to be marked as in use.
-/

namespace Xv6

open Function List

namespace Fs

open Exec

/-- `readsb`: the super block on the disk. -/
def readsb (disk : Disk) : Superblock where
  size := (disk 1).u32 0
  nblocks := (disk 1).u32 4
  ninodes := (disk 1).u32 8
  nlog := (disk 1).u32 12
  logstart := (disk 1).u32 16
  inodestart := (disk 1).u32 20
  bmapstart := (disk 1).u32 24

/-- The block is the super block or one of the bitmap. -/
def Reserved (sb : Superblock) (c : ℕ) : Prop := c = 1 ∨ ∃ b < sb.size, BBLOCK sb b = c

/-- The super block and the bitmap are on the disk, and their blocks are in use. -/
structure BitmapOk (sb : Superblock) (disk : Disk) : Prop where
  onDisk : ∀ b < sb.size, BBLOCK sb b < FSSIZE
  super : readsb disk = sb
  apart : ∀ b < sb.size, BBLOCK sb b ≠ 1
  used : ∀ c < sb.size, Reserved sb c → bitOf sb disk c = true

/-- Block `b` is the first whose bit is clear. -/
def FirstClear (sb : Superblock) (disk : Disk) (b : ℕ) : Prop :=
  b < sb.size ∧ bitOf sb disk b = false ∧ ∀ b' < b, bitOf sb disk b' = true

/-- The bit of `b` has been set to `v`, and no other bit of the bitmap changed. -/
structure Marked (sb : Superblock) (b : ℕ) (v : Bool) (disk disk' : Disk) : Prop where
  block : disk' (BBLOCK sb b) = (disk (BBLOCK sb b)).setBit (b % BPB) v
  bits : ∀ b' < sb.size, bitOf sb disk' b' = if b' = b then v else bitOf sb disk b'

/-- A call with what it returned. -/
inductive AllocEvent : Type where
  | balloc (b : ℕ)
  | bfree (b : ℕ)
  deriving DecidableEq

/-- A call, with the super block in memory: `bfree` overwrites it with the one on the disk. -/
def allocStep (s : Superblock × FsState) : AllocEvent → Except Stop (Superblock × FsState)
  | .balloc b =>
    match balloc s.1 s.2 with
    | .ok (b', s') => if b' = b then .ok (s.1, s') else .error .misuse
    | .error e => .error e
  | .bfree b =>
    match bfree (readsb s.2.disk) b s.2 with
    | .ok (_, s') => .ok (readsb s.2.disk, s')
    | .error e => .error e

variable {sb : Superblock} {s s' : FsState} {b : ℕ}

theorem balloc_wp (h : BitmapOk sb s.disk) : Wp (balloc sb) s
    (fun b s' => FirstClear sb s.disk b ∧ Marked sb b true s.disk s'.disk ∧
      s'.disk b = Bytes.zero ∧ ∀ c, c ≠ b → c ≠ BBLOCK sb b → s'.disk c = s.disk c)
    (fun e => e = .panic "balloc: out of blocks" ∧ (∀ b < sb.size, bitOf sb s.disk b = true) ∨
      e = .panic "incorrect blockno" ∧ ∃ b, FSSIZE ≤ b ∧ FirstClear sb s.disk b) := by
  refine (ballocFrom_spec h.onDisk (sb.size / 4096 + 1) 0 (by omega) fun b' hb' => by omega).mono
    ?_ fun e he => he.imp_right fun ⟨h1, b, hb, h2, h3⟩ => ⟨h1, b, h2, hb, h3⟩
  rintro b s' ⟨hb, hclear, rfl, hfirst⟩
  have hne : ∀ b' < sb.size, BBLOCK sb b' ≠ b := by
    rintro b' hb' rfl
    rw [h.used _ hb (.inr ⟨b', hb', rfl⟩)] at hclear
    cases hclear
  refine ⟨⟨hb, hclear, hfirst⟩, ⟨?_, fun b' hb' => ?_⟩, allocDisk_self, fun c h1 h2 => ?_⟩
  · exact (update_of_ne (hne b hb) ..).trans (update_self ..)
  · rw [← bitOf_mark, bitOf, bitOf]
    exact congrArg (Bytes.bit · (b' % BPB)) (update_of_ne (hne b' hb') ..)
  · exact (update_of_ne h1 ..).trans (update_of_ne h2 ..)

theorem bfree_wp (h : BitmapOk sb s.disk) (hb : b < sb.size) : Wp (bfree sb b) s
    (fun _ s' => bitOf sb s.disk b = true ∧ Marked sb b false s.disk s'.disk ∧
      ∀ c, c ≠ BBLOCK sb b → s'.disk c = s.disk c)
    (fun e => e = .panic "freeing free block" ∧ bitOf sb s.disk b = false) := by
  rw [bfree]
  refine wp_bind.mpr ((wp_bread (h.onDisk b hb)).mpr ?_)
  split
  · rename_i hbit
    exact ⟨hbit, ⟨update_self .., fun b' _ => bitOf_mark⟩, fun c hc => update_of_ne hc ..⟩
  · rename_i hbit
    exact ⟨rfl, Bool.eq_false_iff.mpr hbit⟩

theorem balloc_of_step {t : Superblock × FsState} (hs : allocStep (sb, s) (.balloc b) = .ok t) :
    t.1 = sb ∧ balloc sb s = .ok (b, t.2) := by
  rw [allocStep] at hs
  rcases ha : balloc sb s with e | ⟨b', s1⟩ <;> rw [ha] at hs
  · cases hs
  dsimp only at hs
  split at hs
  · rename_i hb
    rw [hb, ← Except.ok.inj hs]
    exact ⟨rfl, rfl⟩
  · cases hs

theorem bfree_of_step {t : Superblock × FsState} (h : BitmapOk sb s.disk)
    (hs : allocStep (sb, s) (.bfree b) = .ok t) : t.1 = sb ∧ bfree sb b s = .ok ((), t.2) := by
  rw [allocStep, h.super] at hs
  rcases ha : bfree sb b s with e | ⟨⟨⟩, s1⟩ <;> rw [ha] at hs
  · cases hs
  · rw [← Except.ok.inj hs]
    exact ⟨rfl, rfl⟩

/-- No call clears a bit but `bfree` that of its block, and none writes to the super block. -/
theorem bit_step {e : AllocEvent} {t : Superblock × FsState} (h : BitmapOk sb s.disk)
    (hs : allocStep (sb, s) e = .ok t) (hfree : ∀ c, e = .bfree c → c < sb.size) :
    t.1 = sb ∧ t.2.disk 1 = s.disk 1 ∧ ∀ b < sb.size, e ≠ .bfree b → bitOf sb s.disk b = true →
      bitOf sb t.2.disk b = true := by
  cases e with
  | balloc b0 =>
    obtain ⟨hsb, ha⟩ := balloc_of_step hs
    obtain ⟨⟨hb0, hclear, -⟩, hm, -, hother⟩ := (balloc_wp h).ok ha
    refine ⟨hsb, hother 1 ?_ (h.apart b0 hb0).symm, fun b hb _ hbit => ?_⟩
    · rintro rfl
      rw [h.used 1 hb0 (.inl rfl)] at hclear
      cases hclear
    · rw [hm.bits b hb, hbit, ite_self]
  | bfree c =>
    obtain ⟨hsb, ha⟩ := bfree_of_step h hs
    obtain ⟨-, hm, hother⟩ := (bfree_wp h (hfree c rfl)).ok ha
    refine ⟨hsb, hother 1 (h.apart c (hfree c rfl)).symm, fun b hb hne hbit => ?_⟩
    rw [hm.bits b hb, if_neg (by rintro rfl; exact hne rfl)]
    exact hbit

/-- A bit that is set stays so until its block is freed. -/
theorem run_bits {t : Superblock × FsState} : ∀ {tr : List AllocEvent} {s : FsState},
    BitmapOk sb s.disk → (∀ c, .bfree c ∈ tr → c < sb.size ∧ ¬Reserved sb c) →
      run allocStep (sb, s) tr = .ok t →
      t.1 = sb ∧ BitmapOk sb t.2.disk ∧ ∀ b < sb.size, bitOf sb s.disk b = true → .bfree b ∉ tr →
        bitOf sb t.2.disk b = true
  | [], s, h, _, hr => by
    cases hr
    exact ⟨rfl, h, fun b _ hbit _ => hbit⟩
  | e :: tr, s, h, hfree, hr => by
    obtain ⟨⟨sb1, s1⟩, hs, hr⟩ := run_cons_inv hr
    obtain ⟨hsb, hone, hbits⟩ := bit_step h hs fun c hc => (hfree c (hc ▸ mem_cons_self)).1
    obtain rfl : sb = sb1 := hsb.symm
    have h1 : BitmapOk sb s1.disk := by
      refine ⟨h.onDisk, ?_, h.apart, fun c hc hin => hbits c hc ?_ (h.used c hc hin)⟩
      · have hsame : readsb s1.disk = readsb s.disk := by
          rw [readsb, readsb, hone]
        exact hsame.trans h.super
      · rintro rfl
        exact (hfree c mem_cons_self).2 hin
    obtain ⟨hsb, h', hkeep⟩ := run_bits h1 (fun c hc => hfree c (mem_cons_of_mem e hc)) hr
    refine ⟨hsb, h', fun b hb hbit hno => hkeep b hb ?_ fun hc => hno (mem_cons_of_mem e hc)⟩
    exact hbits b hb (fun hc => hno (hc ▸ mem_cons_self)) hbit

/-- **The block allocator**, while the blocks of the super block and of the bitmap are in use and
not freed: `balloc` takes the first free block, and `bfree` frees a block that is in use. In a
sequence of calls, each with the super block that it finds in memory or reads, no block is taken
again before it has been freed. -/
theorem balloc_bfree (sb : Superblock) (s : FsState) (h : BitmapOk sb s.disk) :
    (∀ b s', balloc sb s = .ok (b, s') → FirstClear sb s.disk b ∧
      Marked sb b true s.disk s'.disk ∧ s'.disk b = Bytes.zero ∧
      ∀ c, c ≠ b → c ≠ BBLOCK sb b → s'.disk c = s.disk c) ∧
    (balloc sb s = .error (.panic "balloc: out of blocks") ↔
      ∀ b < sb.size, bitOf sb s.disk b = true) ∧
    (∀ e, balloc sb s = .error e → e = .panic "balloc: out of blocks" ∨
      ∃ b, FSSIZE ≤ b ∧ FirstClear sb s.disk b) ∧
    (∀ b < sb.size, (bitOf sb s.disk b = true → ∃ s', bfree (readsb s.disk) b s = .ok ((), s') ∧
        Marked sb b false s.disk s'.disk ∧ ∀ c, c ≠ BBLOCK sb b → s'.disk c = s.disk c) ∧
      (bfree (readsb s.disk) b s = .error (.panic "freeing free block") ↔
        bitOf sb s.disk b = false)) ∧
    ∀ tr tr' b t, (∀ c, .bfree c ∈ tr ++ .balloc b :: tr' → c < sb.size ∧ ¬Reserved sb c) →
      run allocStep (sb, s) (tr ++ .balloc b :: (tr' ++ [.balloc b])) = .ok t → .bfree b ∈ tr' := by
  rw [h.super]
  have ha := balloc_wp h
  refine ⟨fun b s' hok => ha.ok hok, ⟨fun he => ?_, fun hall => ?_⟩, fun e he => ?_, fun b hb => ?_,
    fun tr tr' b s' hfree hr => ?_⟩
  · exact (ha.error he).elim (·.2) fun hc => absurd hc.1 (by decide)
  · rcases hr : balloc sb s with e | ⟨b, s'⟩
    · rcases ha.error hr with ⟨rfl, -⟩ | ⟨-, b, -, hb, hclear, -⟩
      · rfl
      · rw [hall b hb] at hclear
        cases hclear
    · obtain ⟨⟨hb, hclear, -⟩, -⟩ := ha.ok hr
      rw [hall b hb] at hclear
      cases hclear
  · exact (ha.error he).imp (·.1) (·.2)
  · have hf := bfree_wp h hb
    rcases hr : bfree sb b s with e | ⟨⟨⟩, s'⟩
    · obtain ⟨rfl, hclear⟩ := hf.error hr
      simp [hclear]
    · obtain ⟨hset, hq⟩ := hf.ok hr
      exact ⟨fun _ => ⟨s', rfl, hq⟩, by simp [hset]⟩
  · by_contra hno
    obtain ⟨⟨sb1, s1⟩, h1, hr⟩ := run_append_ok.mp hr
    obtain ⟨⟨sb2, s2⟩, h2, hr⟩ := run_cons_inv hr
    obtain ⟨⟨sb3, s3⟩, h3, hr⟩ := run_append_ok.mp hr
    obtain ⟨s4, h4, -⟩ := run_cons_inv hr
    obtain ⟨hsb1, hok1, -⟩ := run_bits h (fun c hc => hfree c (mem_append_left _ hc)) h1
    dsimp only at hsb1
    subst hsb1
    -- the bit is set when `b` is taken, and still when it is taken again
    have hin : ∀ c, .bfree c ∈ .balloc b :: tr' → c < sb1.size ∧ ¬Reserved sb1 c := fun c hc =>
      hfree c (mem_append_right _ hc)
    have hone : run allocStep _ [.balloc b] = .ok _ := (run_cons_ok h2).trans (run_nil ..)
    obtain ⟨hsb2, hok2, -⟩ := run_bits hok1 (fun c hc => by simp at hc) hone
    obtain ⟨⟨hb, -⟩, hm, -⟩ := (balloc_wp hok1).ok (balloc_of_step h2).2
    dsimp only at hsb2
    subst hsb2
    have hset := hm.bits b hb
    rw [if_pos rfl] at hset
    obtain ⟨hsb3, hok3, hkeep⟩ := run_bits hok2 (fun c hc => hin c (mem_cons_of_mem _ hc)) h3
    dsimp only at hsb3
    subst hsb3
    have hclear := ((balloc_wp hok3).ok (balloc_of_step h4).2).1.2.1
    rw [hkeep b hb hset hno] at hclear
    cases hclear

/-- A disk with the super block of `mkfs` and the first `n` bits of the bitmap set. -/
def bitsFs (n : ℕ) : FsState where
  disk c :=
    if c = 1 then (((((((Bytes.zero.setU32 0 1000).setU32 4 941).setU32 8 200).setU32 12 30).setU32
      16 2).setU32 20 32).setU32 24 58)
    else if c = 58 then fun i => if i.val < n / 8 then 255 else if i.val = n / 8 then 2 ^
      (n % 8) - 1 else 0
    else Bytes.zero
  icache _ := ⟨0, false, false, ⟨0, 0, 0, 0, 0, fun _ => 0⟩⟩
  nused := 0
  logged := []

theorem bitmapOk_bitsFs : BitmapOk Mkfs.sb (bitsFs 59).disk := by
  have hblock : ∀ b < Mkfs.sb.size, BBLOCK Mkfs.sb b = 58 := by
    intro b hb
    have hb : b < 1000 := hb
    show b / 4096 + 58 = 58
    omega
  refine ⟨fun b hb => ?_, by decide, fun b hb => ?_, ?_⟩
  · rw [hblock b hb]
    decide
  · rw [hblock b hb]
    decide
  · rintro c hc (rfl | ⟨b, hb, rfl⟩)
    · decide
    · rw [hblock b hb]
      decide

/-- On the image of an empty file system, the first block after the bitmap is taken and freed. -/
theorem balloc_bfree_first : ∃ s s', balloc Mkfs.sb (bitsFs 59) = .ok (59, s) ∧
    bitOf Mkfs.sb s.disk 59 = true ∧ run allocStep (Mkfs.sb, bitsFs 59) [.balloc 59, .bfree 59] =
      .ok (Mkfs.sb, s') := by
  refine ⟨_, _, rfl, ?_, rfl⟩
  exact (((balloc_bfree Mkfs.sb (bitsFs 59) bitmapOk_bitsFs).1 59 _ rfl).2.1.bits 59
    (by decide)).trans (if_pos rfl)

/-- **What goes wrong without the conditions.** On the image that `mkfs` makes, the bitmap block 58
is free according to the bitmap: `balloc` takes it and wipes it, and the next call takes block 0. A
bitmap beyond the end of the disk cannot be read. -/
theorem balloc_wipes :
    (∃ s1 s2, balloc Mkfs.sb (bitsFs 58) = .ok (58, s1) ∧ bitOf Mkfs.sb s1.disk 58 = false ∧
      bitOf Mkfs.sb (bitsFs 58).disk 0 = true ∧ balloc Mkfs.sb s1 = .ok (0, s2)) ∧
    ∃ (sb : Superblock) (s : FsState), bitOf sb s.disk 0 = false ∧
      balloc sb s = .error (.panic "incorrect blockno") :=
  ⟨⟨_, _, rfl, rfl, rfl, rfl⟩, { Mkfs.sb with bmapstart := 1000 }, bitsFs 0, rfl, rfl⟩

end Fs

end Xv6
