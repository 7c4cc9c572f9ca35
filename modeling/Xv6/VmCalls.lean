import Xv6.Sbrk

/-!
# Every page has at most one owner

Each system call keeps `PageInv` for the pages in use, with one exception: `exec` can be made to
write to pages that are not in the image it builds, and so over a page table.

* `VmSys.Sane` is the condition on `exec` under which this cannot happen, and `VmSys.Careful` the
  one under which a call leaves no holes in an address space.
* `VmSys.pages_one_owner` is the result about every run whose calls of `exec` meet `Sane`. One that
  does not is `VmSys.exec_frees_kstack` (see `Xv6.ExecFile`).
-/

namespace Xv6

open Function List

open Exec Roots

namespace Kmem

variable {k : Kmem} {R : Roots} {d p oldsz newsz n : ℕ} {h : Root} {args : List (List UInt8)}
  {phs : List Segment} {elf : Bool}

/-! ## `exec` -/

/-- What `exec` leaves to the others does not depend on the directory that it builds. -/
theorem sameUsers_of_acc {np : ℕ} {k' : Kmem} {x : Option ℕ} (hr : R.root .fresh = none)
    (h : Acc True np k R k' (R.setRoot .fresh x)) : SameUsers R NoPage k k' := by
  intro h' i j _
  rcases eq_or_ne h' .fresh with rfl | hne
  · simp [page, hr]
  · have hroot : (R.setRoot .fresh x).root h' = R.root h' := by simp [setRoot, hne]
    rw [← h.others (.user h' i j) hne]
    simp only [page, hroot]

/-- **`exec`** up to its commit. -/
theorem exec_pages {cur : ℕ} (hi : PageInv k R NPAGES) (hr : R.root .fresh = none)
    (hs : R.HandsFree) (hok : ExecOk k elf phs args) :
    Ends (exec cur elf phs args) k fun r k' => SameUsers R NoPage k k' ∧
      (r = none → PageInv k' R NPAGES) ∧
      ∀ d sz, r = some (d, sz) → PageInv k' (R.setRoot .fresh (some d)) NPAGES ∧ sz < KERNBASE ∧
        Upto (R.setRoot .fresh (some d)) k' .fresh (npages sz) := by
  have hsame : R.setRoot .fresh none = R := by rw [setRoot, ← hr, update_eq_self]
  refine ((exec_img hi hr hs hok NPROC).allow fun _ _ => trivial).mono ?_
  rintro (_ | ⟨d, sz⟩) k' ⟨hnone, hsome⟩
  · refine ⟨?_, fun _ => ?_, by simp⟩
    · rcases hnone rfl with h | ⟨d, h⟩
      · exact sameUsers_of_acc (x := none) hr (by rwa [hsame])
      · exact sameUsers_of_acc hr h
    · rcases hnone rfl with h | ⟨d, h⟩
      · exact h.inv
      · have := h.inv.drop_root .fresh
        rwa [setRoot_back hr] at this
  · obtain ⟨-, hlt, -, -, himg⟩ := hsome d sz rfl
    refine ⟨sameUsers_of_acc hr himg.acc, by simp, fun d' sz' he => ?_⟩
    obtain ⟨rfl, rfl⟩ := Prod.mk.inj (Option.some.inj he)
    exact ⟨himg.acc.inv, hlt, himg.upto⟩

/-! ## `allocuvm` -/

theorem upto_of_mapping (hd : R.root h = some d)
    (hmap : ∀ va < KERNBASE, k.mapping d va ≠ none ↔ va / PGSIZE < n) : Upto R k h n := by
  intro i hi j hj
  have hp := PGSIZE_eq
  have hn : NPTENTRIES = 1024 := rfl
  have hk : KERNBASE = 0x80000000 := rfl
  have hva : (i * 1024 + j) * PGSIZE < KERNBASE := by
    rw [hp]
    omega
  have hpdx : PDX ((i * 1024 + j) * PGSIZE) = i := by
    rw [PDX, hn, hp]
    omega
  have hptx : PTX ((i * 1024 + j) * PGSIZE) = j := by
    rw [PTX, hn, hp]
    omega
  have hdiv : (i * 1024 + j) * PGSIZE / PGSIZE = i * 1024 + j := Nat.mul_div_cancel _ (by decide)
  have hpage := page_eq_mapping (k := k) hd hva
  rw [hpdx, hptx] at hpage
  have hiff := hmap _ hva
  rw [hdiv] at hiff
  rw [← hiff, hpage]
  exact not_congr Option.map_eq_none_iff

/-- **`allocuvm` leaves no holes** in the address space of a process, unless a page table is
missed. -/
theorem allocuvm_upto (hi : PageInv k R NPAGES) (hd : R.root (.proc p) = some d) (hs : R.HandsFree)
    (hu : Upto R k (.proc p) (npages oldsz))
    (hfit : oldsz ≤ newsz → newsz < KERNBASE → TablesFit k d (npages oldsz) (npages newsz)) :
    Ends (allocuvm d oldsz newsz) k fun r k' =>
      Upto R k' (.proc p) (npages (if r = 0 then oldsz else r)) := by
  have hmap := VmSys.mapping_of_upto hd hu
  rcases Nat.lt_or_ge newsz KERNBASE with hlt | hge
  swap
  · rw [allocuvm, if_pos hge]
    exact ends_pure (by rwa [if_pos rfl])
  rcases Nat.lt_or_ge newsz oldsz with hless | hle
  · rw [allocuvm, if_neg hlt.not_ge, if_pos hless]
    exact ends_pure (by rwa [ite_self])
  have hall : ∀ va < KERNBASE, va / PGSIZE < npages oldsz → k.mapping d va ≠ none :=
    fun va hva h1 => (hmap va hva).mpr (lt_PGROUNDUP.mpr h1)
  have hnone : ∀ va < KERNBASE, npages oldsz ≤ va / PGSIZE → k.mapping d va = none :=
    fun va hva h1 => not_not.mp fun hc => h1.not_gt (lt_PGROUNDUP.mp ((hmap va hva).mp hc))
  have hfresh : ((R.setRoot (.proc p) none).setRoot .fresh (some d)).root .fresh = some d := by
    simp [setRoot]
  refine ((allocuvm_grown (VmSys.pageInv_fresh hi hd) hfresh hs hle hall hnone (hfit hle hlt)
    NPROC).allow fun _ _ => trivial).mono ?_
  rintro r k' (⟨rfl, hback⟩ | ⟨⟨rfl, -⟩, j, hj, hg⟩)
  · rw [if_pos rfl]
    refine upto_of_mapping hd fun va hva => ?_
    rw [(hback va hva).1, hmap va hva, lt_PGROUNDUP]
  · have hsize : npages (if r = 0 then oldsz else r) = npages oldsz + j := by
      rw [hj]
      split
      · rename_i hz
        have h0 : oldsz = 0 := by omega
        rw [h0, hz]
      · rfl
    rw [hsize]
    refine upto_of_mapping hd fun va hva => ?_
    rcases Nat.lt_or_ge (va / PGSIZE) (npages oldsz) with h1 | h1
    · rw [hg.old va hva h1]
      exact iff_of_true (hall va hva h1) (by omega)
    rcases Nat.lt_or_ge (va / PGSIZE) (npages oldsz + j) with h2 | h2
    · obtain ⟨w, hw, -⟩ := hg.new va hva h1 h2
      exact iff_of_true (by rw [hw]; simp) h2
    · exact iff_of_false (fun hc => hc (hg.above va hva h2)) h2.not_gt

end Kmem

namespace VmSys

variable {s s' : VmSys} {km : Kmem} {p : ℕ} {oom : List Bool} {args : List (List UInt8)}
  {phs : List Kmem.Segment} {elf : Bool}

/-- The pages of `exec`: the new image takes the place of the old one. -/
theorem execMem_spec {cur : ℕ}
    {k : Kmem} {R : Roots} {h : Root} (hi : PageInv k R NPAGES) (hd : R.root h = some cur)
    (hr : R.root .fresh = none) (hs : R.HandsFree) (hok : Kmem.ExecOk k elf phs args) :
    Ends (execMem cur elf phs args) k fun r k' =>
      (r = none → PageInv k' R NPAGES ∧ SameUsers R NoPage k k') ∧
      ∀ d sz, r = some (d, sz) → PageInv k' (R.setRoot h (some d)) NPAGES ∧ sz < KERNBASE ∧
        SameUsers R (PagesOf h) k k' ∧
        Kmem.Upto (R.setRoot h (some d)) k' h (Kmem.npages sz) := by
  have hh : h ≠ .fresh := by
    rintro rfl
    rw [hr] at hd
    cases hd
  rw [execMem]
  refine (Kmem.exec_pages hi hr hs hok).bind ?_
  rintro (_ | ⟨d, sz⟩) k1 ⟨hu1, hfail, hgot⟩
  · exact ends_pure ⟨fun _ => ⟨hfail rfl, hu1⟩, by simp⟩
  · obtain ⟨hi1, hsz, hupto⟩ := hgot d sz rfl
    have hd1 : (R.setRoot .fresh (some d)).root h = some cur := by simpa [setRoot, hh] using hd
    refine (Kmem.freevm_spec hi1 hd1 hs).bind ?_
    rintro _ k2 ⟨hi2, -, hu2⟩
    refine ends_pure ⟨by simp, fun d' sz' he => ?_⟩
    obtain ⟨rfl, rfl⟩ : d = d' ∧ sz = sz' := by simpa using he
    have hcomm : (R.setRoot .fresh (some d)).setRoot h none =
        (R.setRoot h none).setRoot .fresh (some d) := by
      simp only [setRoot]
      rw [update_comm hh]
    have hnone : (R.setRoot h none).root .fresh = none := by simpa [setRoot, hh.symm] using hr
    rw [hcomm] at hi2
    have hi3 := hi2.fresh_to hnone h
    have hback : (R.setRoot h none).setRoot h (some d) = R.setRoot h (some d) := by
      simp only [setRoot, update_idem]
    rw [hback] at hi3
    refine ⟨hi3, hsz, hu1.none.trans (hu2.of_fresh hr fun _ _ _ => .inr), ?_⟩
    refine hupto.congr ?_ fun i j => hu2 .fresh i j hh.symm
    simp [setRoot]

theorem Inv.exec (hi : s.Inv) (hp : p < NPROC) (hs : (s.proc p).state = .alive)
    (hok : Kmem.ExecOk (s.start oom) elf phs args) (h : s.exec p elf phs args oom = .ok s') :
    s'.Inv ∧ (s.Full → s'.Full) := by
  have halive : (s.proc p).state ≠ .unused := by simp [hs]
  obtain ⟨r, km, hm, h⟩ := withMem_ok h
  have hpost := (execMem_spec (Kmem.pageInv_oom hi.pages oom) (roots_proc hp halive) rfl
    (fun _ => rfl) hok).ok hm
  rcases r with _ | ⟨d, sz⟩ <;> cases h
  · obtain ⟨hpages, hu⟩ := hpost.1 rfl
    exact ⟨⟨hpages, hi.sz⟩, fun hf => hf.setMem hp hu.none fun hn => (hf p hp hn).same hu fun _ _ =>
      id⟩
  obtain ⟨hpages, hsz, hu, hupto⟩ := hpost.2 d sz rfl
  refine ⟨⟨?_, sz_setProc (s := { s with km := km }) hi.sz hsz⟩, fun hf => ?_⟩
  · rw [roots_setProc hp]
    have hsame : (s.roots.setSingle (.kstack p) (some (s.proc p).kstack)) = s.roots := by
      rw [setSingle, ← roots_kstack hp halive, update_eq_self]
    rw [← hsame] at hpages
    simp only [ne_eq, halive, not_false_eq_true, if_true]
    exact hpages
  · exact hf.setProc hp hu fun _ => hupto

/-- The process has another size. -/
theorem Inv.resize {r : ℕ} (hi : s.Inv) (hpages : PageInv km s.roots NPAGES) (hr : r < KERNBASE) :
    Inv (VmSys.setProc { s with km := km } p { s.proc p with sz := r }) := by
  refine ⟨?_, sz_setProc (s := { s with km := km }) hi.sz hr⟩
  have hroots : (VmSys.setProc { s with km := km } p { s.proc p with sz := r }).roots =
    s.roots := by
    refine roots_congr (fun q => ?_) (fun q => ?_) (fun q => ?_) rfl rfl <;>
    · rcases eq_or_ne q p with rfl | hq
      · simp [setProc]
      · simp [setProc, hq]
  rw [hroots]
  exact hpages

/-- No page table is missed when the process grows to `newsz`. -/
def TablesOk (s : VmSys) (p newsz : ℕ) (oom : List Bool) : Prop :=
  (s.proc p).sz ≤ newsz → newsz < KERNBASE → Kmem.TablesFit (s.start oom) (s.proc p).pgdir
    (Kmem.npages (s.proc p).sz) (Kmem.npages newsz)

/-- **`growproc`** leaves no holes, unless it misses a page table, or gives up all pages: then it
takes the size 0 for a failure, and keeps the size it had. -/
theorem Inv.growproc (hi : s.Inv) {n : ℤ} (hp : p < NPROC)
    (hs : (s.proc p).state = .alive) (h : s.growproc p n oom = .ok s') :
    s'.Inv ∧ ((0 < n → s.TablesOk p (((s.proc p).sz + n) % 2 ^ 32).toNat oom) →
      ¬(n < 0 ∧ ((s.proc p).sz + n) % 2 ^ 32 = 0) → s.Full → s'.Full) := by
  have hused : (s.proc p).state ≠ .unused := by simp [hs]
  have hd := roots_proc hp hused
  have hi0 := Kmem.pageInv_oom hi.pages oom
  have hsame : s.roots.setRoot (.proc p) (some (s.proc p).pgdir) = s.roots := by
    rw [setRoot, ← hd, update_eq_self]
  rw [VmSys.growproc] at h
  split at h
  · rename_i hgrow
    obtain ⟨r, km, hm, h⟩ := withMem_ok h
    obtain ⟨hpages, hu, hr⟩ :=
      (Kmem.allocuvm_spec (fun _ => hi.sz p) hd (fun _ => rfl) hi0).ok hm
    cases h
    split
    · rename_i h0
      refine ⟨⟨hpages, hi.sz⟩, fun hok _ hf => hf.setMem hp hu fun hn => ?_⟩
      have := (Kmem.allocuvm_upto hi0 hd (fun _ => rfl) (hf p hp hn) (hok hgrow)).ok hm
      rwa [if_pos h0] at this
    · rename_i h0
      refine ⟨hi.resize hpages (hr.resolve_left h0).2,
        fun hok _ hf => hf.setProc hp hu fun hn => ?_⟩
      have := (Kmem.allocuvm_upto hi0 hd (fun _ => rfl) (hf p hp hn) (hok hgrow)).ok hm
      rwa [if_neg h0, ← hsame] at this
  split at h
  · rename_i hneg
    obtain ⟨r, km, hm, h⟩ := withMem_ok h
    obtain ⟨hpages, -, hu, hr, hupto⟩ := (Kmem.deallocuvm_spec (hi.sz p).le hd hi0).ok hm
    have hmin : ∀ a b, min (Kmem.npages a) (Kmem.npages b) = Kmem.npages (min a b) := by
      intro a b
      have hpg := PGSIZE_eq
      rw [Kmem.npages, Kmem.npages, Kmem.npages, hpg]
      omega
    cases h
    split
    · rename_i h0
      refine ⟨⟨hpages, hi.sz⟩, fun _ hnot hf => hf.setMem hp hu fun hn => ?_⟩
      have := hupto _ le_rfl (hf p hp hn)
      rw [hmin, ← hr, h0] at this
      -- the size was 0
      have hz : (s.proc p).sz = 0 := by omega
      rwa [hz]
    · refine ⟨hi.resize hpages (hr ▸ (min_le_left _ _).trans_lt (hi.sz p)),
        fun _ _ hf => hf.setProc hp hu fun hn => ?_⟩
      have := hupto _ le_rfl (hf p hp hn)
      rwa [hmin, ← hr, ← hsame] at this
  · cases h
    exact ⟨hi, fun _ _ => id⟩

/-! ## The calls -/

/-- **The condition on `exec`**: see `Kmem.Sound` and `Kmem.ArgsOk`. -/
def Sane (s : VmSys) : VmEvent → Prop
  | .exec _ elf phs args oom => Kmem.ExecOk (s.start oom) elf phs args
  | _ => True

/-- What the invariant needs of a call, and what `Full` needs besides. -/
def Careful (s : VmSys) : VmEvent → Prop
  | .growproc p n oom => (0 < n → s.TablesOk p (((s.proc p).sz + n) % 2 ^ 32).toNat oom) ∧
      ¬(n < 0 ∧ ((s.proc p).sz + n) % 2 ^ 32 = 0)
  | e => s.Sane e

/-- **One system call.** -/
theorem Inv.call (s s' : VmSys) (e : VmEvent) (hi : s.Inv) (hsane : s.Sane e)
    (h : s.step e = .ok s') : s'.Inv ∧ (s.Careful e → s.Full → s'.Full) := by
  cases e with
  | fork p oom =>
    rw [VmSys.step] at h
    split at h
    · exact (hi.fork h).imp_right fun hf _ => hf
    · cases h
  | exec p elf phs args oom =>
    rw [VmSys.step] at h
    split at h
    · rename_i hp
      exact (hi.exec hp.1 hp.2 hsane h).imp_right fun hf _ => hf
    · cases h
  | growproc p n oom =>
    rw [VmSys.step] at h
    split at h
    · rename_i hp
      refine (hi.growproc hp.1 hp.2 h).imp_right ?_
      rintro hf ⟨hfit, hsome⟩
      exact hf hfit hsome
    · cases h
  | exit p =>
    rw [VmSys.step] at h
    split at h
    · rename_i hp
      exact (hi.exit hp.2 h).imp_right fun hf _ => hf
    · cases h
  | wait p q =>
    rw [VmSys.step] at h
    split at h
    · rename_i hq
      exact (hi.wait hq.1 hq.2.1 h).imp_right fun hf _ => hf
    · cases h
  | pipealloc oom => exact (hi.pipealloc h).imp_right fun hf _ => hf
  | pipeclose i writable => exact (hi.pipeclose h).imp_right fun hf _ => hf

theorem Inv.step (s s' : VmSys) (e : VmEvent) (hi : s.Inv) (hsane : s.Sane e)
    (h : s.step e = .ok s') : s'.Inv :=
  (hi.call s s' e hsane h).1

/-- **Physical pages have at most one owner**: in every state that the kernel reaches by calls whose
`exec`s meet `Sane`, whatever calls of `kalloc` fail, no page is on the free list twice, free and in
use, or in use twice; and `kfree` has not been applied to a free page. -/
theorem pages_one_owner {ncpu kend : ℕ} {mem : ℕ → Bytes PGSIZE} {init : List UInt8} {s0 : VmSys}
    {tr : List VmEvent} (hboot : boot ncpu kend mem init = .ok s0)
    (hsane : Meets VmSys.step s0 Sane tr) (hrun : run VmSys.step s0 tr = .ok s) :
    s.km.free.Nodup ∧ (∀ o x, s.roots.page s.km.mem o = some x → x ∉ s.km.free) ∧
      (∀ o o' x, s.roots.page s.km.mem o = some x → s.roots.page s.km.mem o' = some x → o = o') ∧
      s.km.twice = false := by
  have hi : s.Inv := hsane.invariant Inv.step (inv_boot hboot).1 hrun
  exact ⟨hi.pages.nodup, hi.pages.free, hi.pages.inj, hi.pages.twice⟩

/-- The first process runs a program, and the directory of its new image is not free. -/
theorem pages_one_owner_exec : ∃ s0 s : VmSys, boot 0 256 (fun _ => Bytes.zero) [0] = .ok s0 ∧
    run VmSys.step s0 [.exec 0 (header onePage).isSome (segments onePage) [[104, 105]] hundred] =
      .ok s ∧ (s.proc 0).pgdir = 57275 ∧ 57275 ∉ s.km.free := by
  obtain ⟨k, hk⟩ := onePage_execs
  have hstep := hk.step (p := 0) (by decide)
  have hsane : Meets VmSys.step started Sane
      [.exec 0 (header onePage).isSome (segments onePage) [[104, 105]] hundred] :=
    .cons execOk_onePage fun _ _ => .nil
  have hrun : run VmSys.step started [_] = .ok _ := run_cons_ok hstep
  refine ⟨started, _, boot_eq, hrun, by simp [setProc], ?_⟩
  refine (pages_one_owner boot_eq hsane hrun).2.1 (.dir (.proc 0)) 57275 ?_
  exact (roots_proc (by decide) (by simp [setProc]; decide)).trans (by simp [setProc])

end VmSys

end Xv6
