import Xv6.MkfsBlocks
import Xv6.Edit

/-!
# The image that `mkfs` makes

`Built m N` is the invariant of `mkfs`: on the disk `view m` the blocks are owned as the kernel
wants them, the files are `N`, and what a file does not use of its last block is zero. Each step of
`main` keeps it and says what becomes of the files, or fails because they do not fit (`Fits`), until
at the end the files are `filesOf`: the root directory and one file for each argument.
-/

namespace Xv6

open Function List

namespace Mkfs

open Exec

/-! ## The invariant -/

/-- A file system in the making, with the files `N`. -/
structure Built (m : State) (N : ℕ → Node) : Prop extends Room m where
  own : ∃ own, Own sb (view m) (dinode sb (view m)) (slots sb (sizes sb (view m))) own
  size : ∀ i < 200, (dinode sb (view m) i).type ≠ 0 → (dinode sb (view m) i).size ≤ 512 * 140
  node : ∀ i < 200, N i = nodeOf sb (view m) i
  /-- the rest of a last block is zero -/
  clean : ∀ i < 200, (dinode sb (view m) i).type ≠ 0 → ∀ p, (dinode sb (view m) i).size ≤ p →
    p < 512 * sizes sb (view m) i → fileByte (view m) (dinode sb (view m) i) p = 0
  /-- the inode blocks have room for a few inodes more than there are -/
  rest : ∀ i, 200 ≤ i → i < 208 → (dinode sb (view m) i).type = 0

/-- The files can be stored: none is too large, and there are enough blocks for all. -/
def Fits (N : ℕ → Node) : Prop :=
  (∀ i < 200, (N i).data.length ≤ 512 * 140) ∧ used sb (fun i => (N i).nblocks) ≤ 941

theorem Fits.mono {N N' : ℕ → Node} (hle : ∀ i < 200, (N i).data.length ≤ (N' i).data.length)
    (h : Fits N') : Fits N := by
  refine ⟨fun i hi => (hle i hi).trans (h.1 i hi), le_trans ?_ h.2⟩
  refine Finset.sum_le_sum fun i hi => blocks_mono ?_
  have := hle i (Finset.mem_range.mp hi)
  show ((N i).data.length + 511) / 512 ≤ ((N' i).data.length + 511) / 512
  omega

/-! ## Inodes -/

/-- The state after an inode has been written. -/
def put (m : State) (i : ℕ) (d : Dinode) : State :=
  { m with img := Fs.storeInode sb m.img i d, len := max m.len (IBLOCK sb i + 1) }

theorem IBLOCK_lt_bitmap {i : ℕ} (hi : i < 208) : IBLOCK sb i < 58 :=
  show i / 8 + 32 < 58 by omega

theorem dinode_view {m : State} {i : ℕ} (hi : i < 208) :
    dinode sb (view m) i = Dinode.read (m.img (IBLOCK sb i)) (i % IPB) := by
  have := IBLOCK_lt_bitmap hi
  rw [dinode, view_ne (by omega)]

theorem rinode_ok {m : State} (h : Room m) {i : ℕ} (hi : i < 208) :
    rinode i m = .ok (dinode sb (view m) i, m) := by
  have := IBLOCK_lt_bitmap hi
  rw [rinode, bind_ok (rsect_ok h (by omega)), dinode_view hi]
  rfl

theorem winode_ok {m : State} (h : Room m) {i : ℕ} (hi : i < 208) (d : Dinode) :
    winode i d m = .ok ((), put m i d) := by
  have := IBLOCK_lt_bitmap hi
  rw [winode, bind_ok (rsect_ok h (by omega))]
  rfl

theorem Room.put {m : State} (h : Room m) {i : ℕ} (hi : i < 208) (d : Dinode) :
    Room (put m i d) := by
  have hlt := IBLOCK_lt_bitmap hi
  have hlo := h.lo
  refine ⟨?_, hlo, h.hi, fun b hb => ?_⟩
  · have := h.len
    show max m.len (IBLOCK sb i + 1) = 1000
    omega
  · have hb : m.freeblock ≤ b := hb
    exact (update_of_ne (by omega) ..).trans (h.zero b hb)

theorem view_put {m : State} {i : ℕ} (hi : i < 208) (d : Dinode) :
    view (put m i d) = Fs.storeInode sb (view m) i d := by
  have hlt := IBLOCK_lt_bitmap hi
  have hne : IBLOCK sb i ≠ sb.bmapstart := by
    rw [bmapstart_eq]
    omega
  rw [Fs.storeInode, view_ne (by omega)]
  exact update_comm hne ..

/-! ## Appending -/

/-- The files after `src` has been appended to file `i`. -/
def grown (N : ℕ → Node) (i : ℕ) (src : List UInt8) : ℕ → Node :=
  update N i { N i with data := (N i).data ++ src }

/-- A kernel state with this disk that holds inode `i`, locked. -/
def holder (disk : Disk) (i : ℕ) : FsState where
  disk := disk
  icache j := ⟨if j = i then 1 else 0, true, true, dinode sb disk j⟩
  nused := 1
  logged := []

/-- The store that it represents. -/
def holderStore (N : ℕ → Node) (i : ℕ) : Store where
  node := N
  ref j := if j = i then 1 else 0
  busy j := decide (j = i)
  cost := ⟨∅, 0⟩

namespace Built

variable {m : State} {N : ℕ → Node} {i : ℕ}

section

variable (h : Built m N)

include h

theorem type_eq (hi : i < 200) : (dinode sb (view m) i).type = (N i).type := by
  rw [h.node i hi, nodeOf_type]

theorem length_eq (hi : i < 200) (ht : (N i).type ≠ 0) :
    (dinode sb (view m) i).size = (N i).data.length := by
  rw [h.node i hi, nodeOf_length (by rwa [h.type_eq hi])]

theorem sizes_eq (hi : i < 200) : sizes sb (view m) i = (N i).nblocks := by
  rw [h.node i hi, sizes]

theorem rel (hi : i < 200) (ht : (N i).type ≠ 0) :
    Rel sb (holder (view m) i) (holderStore N i) := by
  have hone : ∀ j, 0 < (if j = i then 1 else 0) ↔ j = i := fun j => by
    split <;> simp_all
  have hself : ∀ j, 0 < ((holder (view m) i).icache j).ref → j = i := fun j => (hone j).mp
  refine ⟨⟨h.own, h.size, fun j hj hr _ => ⟨rfl, ?_⟩, fun _ _ _ _ => rfl, fun _ _ _ hv => ?_, ?_⟩,
    h.node, fun _ _ => rfl, fun j hj => ?_, ∅, le_rfl, fun b hb => absurd hb not_mem_nil⟩
  · rw [hself j hr]
    show (dinode sb (view m) i).type ≠ 0
    rwa [h.type_eq hi]
  · cases hv
  · show 1 = ((Finset.range 200).filter fun j => 0 < if j = i then 1 else 0).card
    simp only [hone, Finset.filter_eq', Finset.mem_range, hi, if_true, Finset.card_singleton]
  · show decide (j = i) = true ↔ 0 < (if j = i then 1 else 0) ∧ true = true
    rw [decide_eq_true_eq, hone]
    simp

theorem sizes_le : ∀ j < 200, sizes sb (view m) j ≤ 140 := by
  intro j hj
  by_cases ht : (dinode sb (view m) j).type = 0
  · rw [sizes, nodeOf_free ht]
    decide
  · have := h.size j hj ht
    rw [sizes, nblocks_nodeOf ht]
    omega

end

end Built

/-- A byte of another file is the same after `writei`. -/
theorem fileByte_other {disk disk' : Disk} {i j k p : ℕ} {s' : FsState} {n : ℕ → ℕ}
    {own own' : ℕ → Option (ℕ × ℕ)} (hj : j < 200) (hji : j ≠ i)
    (hown : Own sb disk (dinode sb disk) (slots sb n) own)
    (hmid : Fs.Mid sb (dinode sb disk) n i k s' own')
    (hle : ∀ b o, own b = some o → own' b = some o)
    (hdata : ∀ b x, own b = some (j, x) → x < 140 → s'.disk b = disk b)
    (hframe : ∀ c, 58 ≤ c → disk' c = s'.disk c) (hn : n j ≤ 140) (hp : p / 512 < n j) :
    fileByte disk' (dinode sb disk j) p = fileByte disk (dinode sb disk j) p := by
  have hslot : slots sb n j (p / 512) := ⟨hj, filled_iff.mpr (.inl hp)⟩
  have hf := fileByte_frame (i := j) (p := p) hmid hframe hj (by
    rwa [update_of_ne hji])
  rw [update_of_ne hji] at hf
  have hptr := Own.ptr_eq hown hmid hle hslot
  rw [update_of_ne hji] at hptr
  rw [hf, fileByte, fileByte, hptr, hdata _ _ (hown.ptr_own j _ hslot) (by omega)]

theorem overwrite_end (data src : List UInt8) :
    Store.overwrite data data.length src = data ++ src := by
  rw [Store.overwrite, take_length, drop_eq_nil_of_le (by omega), append_nil]

/-- **`iappend` appends** to a file, or the files do not fit any more. -/
theorem iappend_spec {m : State} {N : ℕ → Node} {i : ℕ} (h : Built m N) (hi : i < 200)
    (ht : (N i).type ≠ 0) (src : List UInt8) :
    Wp (iappend i src) m (fun _ m' => Built m' (grown N i src) ∧ m'.freeinode = m.freeinode)
      (fun _ => ¬ Fits (grown N i src)) := by
  obtain ⟨own, hown⟩ := h.own
  have htd : (dinode sb (view m) i).type ≠ 0 := by rwa [h.type_eq hi]
  have hrel := h.rel hi ht
  have hlen := h.length_eq hi ht
  have hsz := h.size i hi htd
  have hk : sizes sb (view m) i = ((dinode sb (view m) i).size + 511) / 512 := by
    rw [sizes, nblocks_nodeOf htd]
  have htr : Tracks (holder (view m) i) i m (dinode sb (view m) i) := ⟨h.toRoom, rfl, rfl⟩
  have hmid : Fs.Mid sb (dinode sb (view m)) (sizes sb (view m)) i (sizes sb (view m) i)
      (holder (view m) i) own := Inv.mid (s := holder (view m) i) rfl rfl hown
  have hspec := Fs.writeLoop_spec layout_mkfs hi h.sizes_le src.length (sizes sb (view m) i)
    (dinode sb (view m) i).size src _ own hmid htd le_rfl (by omega)
  have hself : (grown N i src i).data.length = (dinode sb (view m) i).size + src.length := by
    rw [grown, update_self, length_append, hlen]
  rw [iappend]
  refine wp_bind.mpr (Wp.of_ok (rinode_ok h.toRoom (by omega)) ?_)
  rcases appendLoop_sim hi h.sizes_le src.length _ _ src _ own m _ hmid htd htr le_rfl
    (show (dinode sb (view m) i).size ≤ _ by omega) (by omega) with
    ⟨s', m', din', hw, ha, hend, htr', hfi⟩ | ⟨⟨e, he⟩, hwhy⟩
  swap
  · refine Wp.of_error (bind_error he) fun hfit => ?_
    have hle := hfit.1 i hi
    rw [hself] at hle
    rcases hwhy with hbig | ⟨e', he'⟩
    · omega
    obtain ⟨-, hfull⟩ := (hspec hle (by omega)).error he'
    have hused := hrel.usedWith_eq (i := i) (x := { N i with data := (N i).data ++ src })
      (k := grow (sizes sb (view m) i) ((dinode sb (view m) i).size + src.length)) (by
        rw [Node.nblocks, length_append, ← hlen, grow, hk]
        omega)
    have hfit2 : used sb (fun j => (grown N i src j).nblocks) ≤ 941 := hfit.2
    have hcap : (941 : ℕ) < used sb (fun j => (grown N i src j).nblocks) := by
      refine lt_of_lt_of_eq hfull hused.symm
    omega
  have hW := (hspec hend (by omega)).ok hw
  obtain ⟨own', hmid', hle'⟩ := hW.mid
  obtain ⟨d, hd⟩ : ∃ d : Dinode, d = { din' with
    size := (dinode sb (view m) i).size + src.length } := ⟨_, rfl⟩
  have hmax : max (dinode sb (view m) i).size ((dinode sb (view m) i).size + src.length) =
      (dinode sb (view m) i).size + src.length := Nat.max_eq_right (Nat.le_add_right ..)
  have hd' : d = { (s'.icache i).d with
      size := max (dinode sb (view m) i).size ((dinode sb (view m) i).size + src.length) } := by
    rw [hmax, htr'.copy, hd]
  have hds : d.size = (dinode sb (view m) i).size + src.length := by rw [hd]
  have hda : d.addrs = (s'.icache i).d.addrs := by rw [hd']
  have hfits : d.Fits := by
    have hf := hW.fits (Dinode.read_fits _ _)
    rw [htr'.copy] at hf
    rw [hd]
    exact ⟨by show _ + _ < 2 ^ 32; omega, hf.addrs, hf.none⟩
  have hinode : ∀ j < 208, dinode sb s'.disk j = dinode sb (view m) j := fun j hj => by
    rw [dinode, hW.inodes _ (IBLOCK_lt_bitmap hj)]
    rfl
  have hT : ∀ j < 208, dinode sb (Fs.storeInode sb s'.disk i d) j =
      update (dinode sb (view m)) i d j := by
    intro j hj
    rw [Fs.dinode_storeInode hfits]
    rcases eq_or_ne j i with rfl | hne
    · rw [update_self, update_self]
    · rw [update_of_ne hne, update_of_ne hne, hinode j hj]
  have hframe : ∀ c, sb.bmapstart ≤ c → Fs.storeInode sb s'.disk i d c = s'.disk c :=
    fun c hc => Fs.storeInode_ge layout_mkfs hi hc
  have hrel' := hrel.wrote ⟨hi, decide_eq_true rfl⟩ hown le_rfl hend hW hd'
    (fun j hj => hT j (show j < 208 by have : j < 200 := hj; omega)) hframe
    (show Within sb [] ⟨∅, 0⟩ from hrel.cost)
  have hview : view (put m' i d) = Fs.storeInode sb s'.disk i d := by
    rw [view_put (by omega), htr'.disk]
  have hnode : ∀ j < 200, grown N i src j = nodeOf sb (Fs.storeInode sb s'.disk i d) j := by
    intro j hj
    rw [← hrel'.node j hj]
    have hdl : (dinode sb (holder (view m) i).disk i).size = (N i).data.length := hlen
    show _ = update N i _ j
    rw [hdl, grown, ← overwrite_end]
    rfl
  refine wp_bind.mpr (Wp.of_ok ha (Wp.of_ok (winode_ok htr'.toRoom (by omega) _) ?_))
  rw [← hd]
  refine ⟨⟨htr'.toRoom.put (by omega) d, ?_, ?_, ?_, ?_, ?_⟩, hfi⟩
  · rw [hview]
    exact hrel'.inv.own
  · rw [hview]
    exact hrel'.inv.size
  · rw [hview]
    exact hnode
  · rw [hview]
    intro j hj hjt p hp hlt
    rw [sizes, ← hnode j hj] at hlt
    rw [hT j (by omega)] at hjt hp ⊢
    rcases eq_or_ne j i with rfl | hne
    · -- the file itself: bytes of its old last block, or of a new one
      have hnb : (grown N j src j).nblocks = (d.size + 511) / 512 := by
        rw [Node.nblocks, hself, hds]
      have hg : grow (sizes sb (view m) j) ((dinode sb (view m) j).size + src.length) =
          (d.size + 511) / 512 := by
        rw [grow, hk, hds]
        omega
      rw [update_self] at hp hjt ⊢
      rw [hnb] at hlt
      have hf := fileByte_frame (i := j) (p := p) hmid' hframe hj (by
        rw [update_self, hg]
        omega)
      rw [update_self] at hf
      rw [fileByte_addrs hda, hf]
      rcases Nat.lt_or_ge p (512 * sizes sb (view m) j) with hin | hout
      · rw [hW.old p hin (.inr (by omega))]
        exact h.clean j hj htd p (by omega) hin
      · exact hW.fresh p hout (by omega) (by rw [hg]; exact hlt)
    · rw [update_of_ne hne] at hp hjt ⊢
      have hnb : (grown N i src j).nblocks = sizes sb (view m) j := by
        rw [grown, update_of_ne hne, h.sizes_eq hj]
      rw [hnb] at hlt
      rw [fileByte_other hj hne hown hmid' hle' (fun b x hb hx => hW.others b j x hb hne hx) hframe
        (h.sizes_le j hj) (by omega)]
      exact h.clean j hj hjt p hp hlt
  · rw [hview]
    intro j h1 h2
    rw [hT j h2, update_of_ne (by omega)]
    exact h.rest j h1 h2

/-! ## New inodes -/

/-- **`ialloc` makes an empty file**, in an inode that was free. -/
theorem ialloc_spec {m : State} {N : ℕ → Node} (h : Built m N) (hi : m.freeinode < 200)
    (hfree : N m.freeinode = .free) (type : UInt16) (ht : type ≠ 0) :
    ∃ m', ialloc type m = .ok (m.freeinode, m') ∧
      Built m' (update N m.freeinode ⟨type, 0, 0, 1, []⟩) ∧
      m'.freeinode = m.freeinode + 1 := by
  obtain ⟨i, hii⟩ : ∃ i, i = m.freeinode := ⟨_, rfl⟩
  rw [← hii] at hi hfree ⊢
  obtain ⟨own, hown⟩ := h.own
  obtain ⟨d, hd⟩ : ∃ d : Dinode, d = ⟨type, 0, 0, 1, 0, fun _ => 0⟩ := ⟨_, rfl⟩
  have hfits : d.Fits := by
    rw [hd]
    exact ⟨Nat.two_pow_pos 32, fun _ => Nat.two_pow_pos 32, fun _ _ => rfl⟩
  have hroom : Room { m with freeinode := m.freeinode + 1 } := ⟨h.len, h.lo, h.hi, h.zero⟩
  have hnext : nextInode m = .ok (i, { m with freeinode := m.freeinode + 1 }) := by
    rw [hii]
    rfl
  have hT : dinode sb (Fs.storeInode sb (view m) i d) =
      update (dinode sb (view m)) i d := Fs.dinode_storeInode hfits
  have hge : ∀ c, sb.bmapstart ≤ c → Fs.storeInode sb (view m) i d c = view m c :=
    fun c hc => Fs.storeInode_ge layout_mkfs hi hc
  have hview : view (put { m with freeinode := m.freeinode + 1 } i d) =
      Fs.storeInode sb (view m) i d := view_put (by omega) d
  have hnode : ∀ j < 200, update N i ⟨type, 0, 0, 1, []⟩ j =
      nodeOf sb (Fs.storeInode sb (view m) i d) j := by
    intro j hj
    rcases eq_or_ne j i with rfl | hne
    · rw [update_self, nodeOf_used (by rw [hT, update_self, hd]; exact ht), hT, update_self, hd]
      rfl
    · rw [update_of_ne hne, h.node j hj]
      refine (nodeOf_frame hown hge hj ?_).symm
      rw [hT, update_of_ne hne]
  have hsizes : ∀ j < 200, sizes sb (Fs.storeInode sb (view m) i d) j = sizes sb (view m) j := by
    intro j hj
    rw [sizes, ← hnode j hj, h.sizes_eq hj]
    rcases eq_or_ne j i with rfl | hne
    · rw [update_self, hfree]
      rfl
    · rw [update_of_ne hne]
  have hnone : ∀ x, ¬ slots sb (sizes sb (view m)) i x := by
    rintro x ⟨-, hx⟩
    rw [h.sizes_eq hi, hfree, filled_iff] at hx
    have h0 : Node.free.nblocks = 0 := rfl
    omega
  refine ⟨put { m with freeinode := m.freeinode + 1 } i d, ?_, ⟨hroom.put (by omega) d, ⟨own, ?_⟩,
    ?_, ?_, ?_, ?_⟩, ?_⟩
  · rw [ialloc, bind_ok hnext, bind_ok (winode_ok hroom (by omega) _), ← hd]
    rfl
  · rw [hview, hT]
    refine ((hown.frame hge).fresh hnone (by rw [hd])).congr fun j x => ?_
    exact and_congr_right fun hj => by rw [hsizes j hj]
  · rw [hview, hT]
    intro j hj
    rcases eq_or_ne j i with rfl | hne
    · rw [update_self, hd]
      exact fun _ => Nat.zero_le _
    · rw [update_of_ne hne]
      exact h.size j hj
  · rw [hview]
    exact hnode
  · rw [hview]
    intro j hj hjt p hp hlt
    rw [hsizes j hj] at hlt
    rw [hT] at hjt hp ⊢
    rcases eq_or_ne j i with rfl | hne
    · rw [h.sizes_eq hi, hfree] at hlt
      exact absurd hlt (Nat.not_lt_zero p)
    · rw [update_of_ne hne] at hjt hp ⊢
      rw [fileByte_frame hown hge hj (by omega)]
      exact h.clean j hj hjt p hp hlt
  · rw [hview, hT]
    intro j h1 h2
    rw [update_of_ne (by omega)]
    exact h.rest j h1 h2
  · show m.freeinode + 1 = i + 1
    rw [hii]

/-! ## The empty file system -/

theorem clearSects_ok : ∀ (n i : ℕ) (m : State), (∀ b, m.img b = Bytes.zero) →
    clearSects n i m = .ok ((), { m with len := if n = 0 then m.len else max m.len (i + n) }) := by
  intro n
  induction n with
  | zero =>
    intro i m _
    rfl
  | succ n ih =>
    intro i m hz
    have hsame : update m.img i Bytes.zero = m.img := by
      rw [← hz i, update_eq_self]
    have hw : wsect i Bytes.zero m = .ok ((), { m with len := max m.len (i + 1) }) := by
      show Except.ok ((), { m with img := update m.img i Bytes.zero, len := _ }) = _
      rw [hsame]
    rw [clearSects, bind_ok hw]
    refine (ih (i + 1) { m with len := max m.len (i + 1) } hz).trans ?_
    refine congrArg (fun l => Except.ok ((), { m with len := l })) ?_
    show (if n = 0 then max m.len (i + 1) else max (max m.len (i + 1)) (i + 1 + n)) = _
    rw [if_neg (Nat.succ_ne_zero n)]
    split <;> omega

/-- The image before the root directory is made: the super block, and zeros. -/
def blank : State where
  img := update (fun _ => Bytes.zero) 1 (Bytes.zero.splice 0 (sbBytes sb))
  len := 1000
  freeinode := 1
  freeblock := 59

theorem img_blank {c : ℕ} (hc : c ≠ 1) : blank.img c = Bytes.zero := by
  show update (fun _ => Bytes.zero) 1 _ c = _
  rw [update_of_ne hc]

theorem type_blank {i : ℕ} (hi : i < 208) : (dinode sb (view blank) i).type = 0 := by
  have h1 : IBLOCK sb i ≠ 1 := show i / 8 + 32 ≠ 1 by omega
  rw [dinode_view hi, img_blank h1]
  simp [Dinode.read, Bytes.u16]

theorem built_blank : Built blank fun _ => .free := by
  have hfree : ∀ i < 200, nodeOf sb (view blank) i = .free := fun i hi =>
    nodeOf_free (type_blank (by omega))
  have hsizes : ∀ i < 200, sizes sb (view blank) i = 0 := fun i hi => by
    rw [sizes, hfree i hi]
    rfl
  have hnone : ∀ i x, ¬ slots sb (sizes sb (view blank)) i x := by
    rintro i x ⟨hi, hx⟩
    rw [hsizes i hi, filled_iff] at hx
    omega
  refine ⟨⟨rfl, le_rfl, by decide, fun b hb => ?_⟩, ⟨fun _ => none, ?_⟩, ?_, ?_, ?_, ?_⟩
  · have hb : 59 ≤ b := hb
    exact img_blank (by omega)
  · refine ⟨fun i x h => absurd h (hnone i x), fun i x h => absurd h (hnone i x),
      fun i x hi ht => absurd (type_blank (show i < 208 by have : i < 200 := hi; omega)) ht,
      fun b i x hb => absurd hb.symm (Option.some_ne_none _), fun b hb => ?_⟩
    rw [bitOf_view (by decide) hb, decide_eq_true_eq, dataStart_eq]
    simp [blank]
  · exact fun i hi ht => absurd (type_blank (by omega)) ht
  · exact fun i hi => (hfree i hi).symm
  · exact fun i hi ht => absurd (type_blank (by omega)) ht
  · exact fun i _ hi => type_blank hi

/-- `main` comes to the root directory with a blank image. -/
theorem main_eq (files : List HostFile) : main files start = makeRoot files blank := by
  have hclear : clearSects FSSIZE 0 start = .ok ((), { start with len := 1000 }) :=
    clearSects_ok 1000 0 start fun _ => rfl
  have hblank : wsect 1 (Bytes.zero.splice 0 (sbBytes sb)) { start with len := 1000 } =
      .ok ((), blank) := rfl
  rw [main, bind_ok hclear, bind_ok hblank]

/-- The inode of the root directory. -/
theorem made_root : Wp (ialloc T_DIR) blank (fun rootino m => rootino = ROOTINO ∧
      Built m (update (fun _ => .free) 1 ⟨T_DIR, 0, 0, 1, []⟩) ∧ m.freeinode = 2)
    (fun _ => False) := by
  have hlt : blank.freeinode < 200 := show 1 < 200 by decide
  have hmade := ialloc_spec built_blank hlt rfl T_DIR (by decide)
  obtain ⟨m, hm, h, hfi⟩ := hmade
  exact Wp.of_ok hm ⟨rfl, h, hfi⟩

/-! ## The files of the image -/

/-- The entries of the root directory before its size is fixed. -/
def entries (files : List HostFile) : List Dirent :=
  ⟨ROOTINO, strncpy dot DIRSIZ⟩ :: ⟨ROOTINO, strncpy dotdot DIRSIZ⟩ ::
    (files.zipIdx 2).map fun p => ⟨p.2, strncpy p.1.name DIRSIZ⟩

/-- The files that `mkfs` makes: inode 1 is the root directory, the arguments follow. -/
def filesOf (files : List HostFile) (i : ℕ) : Node :=
  if i = 1 then ⟨T_DIR, 0, 0, 1, (entries files).flatMap Dirent.bytes⟩
  else if i = 0 then .free
  else ((files[i - 2]?).map fun f => ⟨T_FILE, 0, 0, 1, f.data⟩).getD .free

theorem entries_append (fs gs : List HostFile) : entries (fs ++ gs) = entries fs ++
      (gs.zipIdx (2 + fs.length)).map fun p => ⟨p.2, strncpy p.1.name DIRSIZ⟩ := by
  simp [entries, zipIdx_append]

theorem length_entries (files : List HostFile) : (entries files).length = files.length + 2 := by
  simp [entries]

theorem length_entry {files : List HostFile} {de : Dirent} (h : de ∈ entries files) :
    de.name.length = 14 := by
  rw [entries, mem_cons, mem_cons, mem_map] at h
  rcases h with rfl | rfl | ⟨p, -, rfl⟩
  · rfl
  · rfl
  · exact length_strncpy _ _

/-- Entries of 16 bytes each. -/
theorem length_flatMap_bytes {l : List Dirent} (h : ∀ de ∈ l, de.name.length = 14) :
    (l.flatMap Dirent.bytes).length = 16 * l.length := by
  induction l with
  | nil => rfl
  | cons de l ih =>
    rw [flatMap_cons, length_append, ih fun x hx => h x (mem_cons_of_mem _ hx), length_cons]
    have : de.bytes.length = de.name.length + 2 := rfl
    rw [this, h de mem_cons_self]
    omega

theorem length_root (files : List HostFile) :
    (filesOf files 1).data.length = 16 * (files.length + 2) := by
  show ((entries files).flatMap Dirent.bytes).length = _
  rw [length_flatMap_bytes fun de hde => length_entry hde, length_entries]

/-- More arguments make more files, and larger ones. -/
theorem filesOf_mono (fs gs : List HostFile) (i : ℕ) :
    (filesOf fs i).data.length ≤ (filesOf (fs ++ gs) i).data.length := by
  rcases eq_or_ne i 1 with rfl | h1
  · rw [length_root, length_root, length_append]
    omega
  rw [filesOf, filesOf, if_neg h1, if_neg h1]
  split
  · exact le_rfl
  · rcases Nat.lt_or_ge (i - 2) fs.length with hlt | hge
    · rw [getElem?_append_left hlt]
    · rw [getElem?_eq_none hge]
      exact Nat.zero_le _

/-- What one turn of the loop over the arguments adds. -/
theorem filesOf_snoc (fs : List HostFile) (f : HostFile) :
    grown (grown (update (filesOf fs) (2 + fs.length) ⟨T_FILE, 0, 0, 1, []⟩) 1
      (Dirent.bytes ⟨2 + fs.length, strncpy f.name DIRSIZ⟩)) (2 + fs.length) f.data =
      filesOf (fs ++ [f]) := by
  have hne : 1 ≠ 2 + fs.length := by omega
  funext i
  rcases eq_or_ne i (2 + fs.length) with rfl | hi
  · have h₁ : ¬ 2 + fs.length = 1 := by omega
    have h0 : ¬ 2 + fs.length = 0 := by omega
    have h2 : 2 + fs.length - 2 = fs.length := by omega
    rw [grown, update_self, grown, update_of_ne hne.symm, update_self,
      filesOf, if_neg h₁, if_neg h0, h2, getElem?_concat_length]
    rfl
  rw [grown, update_of_ne hi]
  rcases eq_or_ne i 1 with rfl | h1
  · rw [grown, update_self, update_of_ne hne, filesOf, filesOf, if_pos rfl,
      if_pos rfl, entries_append, flatMap_append]
    simp
  rw [grown, update_of_ne h1, update_of_ne hi, filesOf, filesOf, if_neg h1, if_neg h1]
  split
  · rfl
  · rcases Nat.lt_or_ge (i - 2) fs.length with hlt | hge
    · rw [getElem?_append_left hlt]
    · rw [getElem?_eq_none hge, getElem?_eq_none (by simp; omega)]

/-- The first two entries. -/
theorem filesOf_nil : grown (update (fun _ => .free) 1 ⟨T_DIR, 0, 0, 1, []⟩) 1
      (Dirent.bytes ⟨ROOTINO, strncpy dot DIRSIZ⟩ ++
        Dirent.bytes ⟨ROOTINO, strncpy dotdot DIRSIZ⟩) = filesOf [] := by
  funext i
  rcases eq_or_ne i 1 with rfl | h1
  · rw [grown, update_self, update_self, filesOf, if_pos rfl]
    rfl
  · rw [grown, update_of_ne h1, update_of_ne h1, filesOf, if_neg h1]
    split
    · rfl
    · rfl

/-! ## The program -/

theorem grown_grown (N : ℕ → Node) (i : ℕ) (a b : List UInt8) :
    grown (grown N i a) i b = grown N i (a ++ b) := by
  rw [grown, grown, update_self, update_idem, grown, append_assoc]

theorem grown_nil (N : ℕ → Node) (i : ℕ) : grown N i [] = N := by
  rw [grown, append_nil]
  exact update_eq_self ..

theorem length_grown_le (N : ℕ → Node) (i : ℕ) (a b : List UInt8) (j : ℕ) :
    (grown N i a j).data.length ≤ (grown N i (a ++ b) j).data.length := by
  rcases eq_or_ne j i with rfl | hne
  · rw [grown, update_self, grown, update_self]
    simp
  · rw [grown, update_of_ne hne, grown, update_of_ne hne]

/-- **The contents of a file** are appended block by block. -/
theorem copyFile_spec {i : ℕ} (hi : i < 200) : ∀ (fuel : ℕ) (src : List UInt8) (m : State)
    (N : ℕ → Node), Built m N → (N i).type ≠ 0 → src.length ≤ fuel →
    Wp (copyFile i fuel src) m (fun _ m' => Built m' (grown N i src) ∧ m'.freeinode = m.freeinode)
      (fun _ => ¬ Fits (grown N i src)) := by
  intro fuel
  induction fuel with
  | zero =>
    intro src m N h _ hfuel
    obtain rfl : src = [] := length_eq_zero_iff.mp (by omega)
    exact ⟨by rwa [grown_nil], rfl⟩
  | succ fuel ih =>
    intro src m N h ht hfuel
    rw [copyFile]
    by_cases h0 : src = []
    · subst h0
      rw [if_pos rfl]
      exact ⟨by rwa [grown_nil], rfl⟩
    rw [if_neg h0]
    have hpos := length_pos_iff.mpr h0
    refine (iappend_spec h hi ht (src.take BSIZE)).bind (fun e he hfit => he (hfit.mono ?_)) ?_
    · intro j _
      have := length_grown_le N i (src.take BSIZE) (src.drop BSIZE) j
      rwa [take_append_drop] at this
    rintro _ m' ⟨h', hfi⟩
    have htype : (grown N i (src.take BSIZE) i).type ≠ 0 := by
      rwa [grown, update_self]
    have hrest := ih (src.drop BSIZE) m' _ h' htype (by
      rw [length_drop]
      show src.length - 512 ≤ fuel
      omega)
    rw [grown_grown, take_append_drop] at hrest
    exact hrest.mono (fun _ m'' hq => ⟨hq.1, hq.2.trans hfi⟩) fun _ he => he

/-- **The loop over the arguments**, when `fs` are done: it adds the others, or one of them cannot
be added. -/
theorem addFiles_spec : ∀ (gs fs : List HostFile) (m : State), Built m (filesOf fs) →
    m.freeinode = 2 + fs.length → (fs ++ gs).length ≤ 198 →
    Wp (addFiles ROOTINO gs) m (fun _ m' => Built m' (filesOf (fs ++ gs)))
      (fun _ => ¬ Fits (filesOf (fs ++ gs)) ∨ ∃ f ∈ gs, Code.slash ∈ f.arg) := by
  intro gs
  induction gs with
  | nil =>
    intro fs m h _ _
    rw [append_nil]
    exact h
  | cons f gs ih =>
    intro fs m h hfi hlen
    have hlen' : fs.length + (gs.length + 1) ≤ 198 := by simpa using hlen
    have happ : fs ++ f :: gs = fs ++ [f] ++ gs := by simp
    rw [addFiles]
    by_cases hs : Code.slash ∈ f.arg
    · rw [if_pos hs]
      exact .inr ⟨f, mem_cons_self, hs⟩
    rw [if_neg hs]
    -- an inode
    have hfree : filesOf fs m.freeinode = .free := by
      rw [hfi, filesOf, if_neg (by omega), if_neg (by omega), getElem?_eq_none (by omega)]
      rfl
    obtain ⟨m1, hm1, h1, hfi1⟩ := ialloc_spec h (by omega) hfree T_FILE (by decide)
    refine wp_bind.mpr (Wp.of_ok hm1 ?_)
    rw [hfi] at h1 hfi1 ⊢
    -- what fits at the end fits now
    have hmono : ∀ {N : ℕ → Node}, (∀ j < 200, (N j).data.length ≤
        (filesOf (fs ++ [f]) j).data.length) → ¬ Fits N → ¬ Fits (filesOf (fs ++ f :: gs)) := by
      intro N hN hn hfit
      refine hn (hfit.mono fun j hj => (hN j hj).trans ?_)
      rw [happ]
      exact filesOf_mono ..
    have hsnoc := filesOf_snoc fs f
    -- its entry in the root directory
    have hroot : (update (filesOf fs) (2 + fs.length)
        (⟨T_FILE, 0, 0, 1, []⟩ : Node) 1).type ≠ 0 := by
      rw [update_of_ne (by omega), filesOf, if_pos rfl]
      exact Nat.noConfusion ∘ congrArg UInt16.toNat
    refine (iappend_spec h1 (by decide) hroot _).bind (fun e he => .inl (hmono ?_ he)) ?_
    · intro j _
      rw [← hsnoc]
      have := length_grown_le (grown (update (filesOf fs) (2 + fs.length)
        (⟨T_FILE, 0, 0, 1, []⟩ : Node)) 1 (Dirent.bytes ⟨2 + fs.length, strncpy f.name DIRSIZ⟩))
        (2 + fs.length) [] f.data j
      rwa [grown_nil, nil_append] at this
    rintro _ m2 ⟨h2, hfi2⟩
    -- its contents
    have htype : (grown (update (filesOf fs) (2 + fs.length) (⟨T_FILE, 0, 0, 1, []⟩ : Node)) 1
        (Dirent.bytes ⟨2 + fs.length, strncpy f.name DIRSIZ⟩) (2 + fs.length)).type ≠ 0 := by
      rw [grown, update_of_ne (by omega), update_self]
      decide
    refine (copyFile_spec (by omega) _ f.data m2 _ h2 htype le_rfl).bind
      (fun e he => .inl (hmono ?_ he)) ?_
    · intro j _
      rw [hsnoc]
    rintro _ m3 ⟨h3, hfi3⟩
    rw [hsnoc] at h3
    refine (ih (fs ++ [f]) m3 h3 ?_ (by rw [← happ]; exact hlen)).mono (fun _ _ hq => ?_) ?_
    · rw [hfi3, hfi2, hfi1, length_append, length_singleton]
      omega
    · rwa [happ]
    · rintro e (he | ⟨g, hg, hslash⟩)
      · rw [happ]
        exact .inl he
      · exact .inr ⟨g, mem_cons_of_mem _ hg, hslash⟩

/-- The root inode with its size fixed. -/
def fixed (d : Dinode) : Dinode := { d with size := (d.size / 512 + 1) * 512 }

/-- The image of all files is made, on which only the size of the root directory has been changed
afterwards, or they cannot be stored. -/
theorem makeRoot_spec (files : List HostFile) (hn : files.length ≤ 198) : Wp (makeRoot files) blank
      (fun _ m => ∃ m1, Built m1 (filesOf files) ∧ m.freeblock = m1.freeblock ∧
        m.img = Fs.storeInode sb (view m1) 1 (fixed (dinode sb (view m1) 1)))
      (fun _ => ¬ Fits (filesOf files) ∨ ∃ f ∈ files, Code.slash ∈ f.arg) := by
  refine made_root.bind (fun _ he => he.elim) ?_
  rintro rootino m0 ⟨rfl, h0, hroot⟩
  rw [if_neg (fun hc => hc rfl)]
  -- the first two entries
  have hnil := filesOf_nil
  have hfit : ∀ {N : ℕ → Node}, (∀ j < 200, (N j).data.length ≤ (filesOf [] j).data.length) →
      ¬ Fits N → ¬ Fits (filesOf files) := fun hN hc hfit =>
    hc (hfit.mono fun j hj => (hN j hj).trans (filesOf_mono [] files j))
  refine (iappend_spec h0 (by decide) (by rw [update_self]; decide) _).bind
    (fun e he => .inl (hfit (fun j _ => ?_) he)) ?_
  · rw [← hnil]
    exact length_grown_le ..
  rintro _ m1 ⟨h1, hfi1⟩
  refine (iappend_spec h1 (by decide) (by
    rw [grown, update_self, update_self]
    decide) _).bind (fun e he => .inl (hfit (fun j _ => ?_) he)) ?_
  · rw [grown_grown, hnil]
  rintro _ m2 ⟨h2, hfi2⟩
  rw [grown_grown, hnil] at h2
  -- the files
  refine (addFiles_spec files [] m2 h2 (by rw [hfi2, hfi1, hroot]; rfl) hn).bind (fun e he => he) ?_
  intro _ m3 h3
  -- the size of the root directory, and the bitmap
  have hfix : fixRoot ROOTINO m3 = .ok ((), put m3 1 (fixed (dinode sb (view m3) 1))) := by
    rw [fixRoot, bind_ok (rinode_ok h3.toRoom (by decide))]
    exact winode_ok h3.toRoom (by decide) _
  refine wp_bind.mpr (Wp.of_ok hfix (wp_bind.mpr (wp_gets.mpr ?_)))
  have hused : (put m3 1 (fixed (dinode sb (view m3) 1))).freeblock < BSIZE * 8 := by
    have := h3.hi
    show m3.freeblock < 4096
    omega
  rw [balloc, if_pos hused]
  refine ⟨m3, h3, rfl, ?_⟩
  rw [← view_put (by decide)]
  rfl

end Mkfs

end Xv6
