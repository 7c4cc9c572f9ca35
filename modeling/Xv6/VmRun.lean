import Xv6.Machine
import Xv6.VmExec

/-!
# Who uses the pages

The pages in use are those of `VmSys.roots`: the kernel stacks and address spaces of the processes
that are not `UNUSED`, the address space `kpgdir`, and the live pipes. The start of the kernel,
`fork`, `exit`, `wait` and the pipes keep `PageInv` for them; for `exec` and `growproc` see
`Xv6.VmCalls`.

* `VmSys.inv_boot`: a kernel that has just started has the invariant.
* `VmSys.boot_eq` is its closed form, found from those of `freerange` and `setupkvm`: calls can be
  evaluated from there.
-/

namespace Xv6

open Function List

open Roots

/-- Entering a value at `b` is entering it at `a`, where there was none, and renaming. -/
theorem update_rename {X : Type} [DecidableEq X] {F : X → Option ℕ} {a : X}
    (ha : F a = none) (b : X) (x : ℕ) :
    (∀ c y, update F b (some x) c = some y →
      update F a (some x) (if c = b then a else c) = some y) ∧
    ∀ c c' y, update F b (some x) c = some y → update F b (some x) c' = some y →
      (if c = b then a else c) = (if c' = b then a else c') → c = c' := by
  have hne : ∀ c y, c ≠ b → update F b (some x) c = some y → c ≠ a ∧ F c = some y := by
    intro c y hcb hy
    rw [update_of_ne hcb] at hy
    refine ⟨?_, hy⟩
    rintro rfl
    rw [ha] at hy
    cases hy
  refine ⟨fun c y hy => ?_, fun c c' y hy hy' he => ?_⟩
  · split
    · rename_i hcb
      rwa [hcb, update_self, ← update_self a (some x) F] at hy
    · rename_i hcb
      obtain ⟨hca, hy⟩ := hne c y hcb hy
      rwa [update_of_ne hca]
  split at he <;> split at he
  · rename_i h1 h2
    rw [h1, h2]
  · rename_i h1 h2
    exact absurd he.symm (hne c' y h2 hy').1
  · rename_i h1 h2
    exact absurd he (hne c y h1 hy).1
  · exact he

namespace PageInv

variable {k : Kmem} {R : Roots} {top top' n x d : ℕ}

theorem raise (hi : PageInv k R top) (hle : top ≤ top') (htop : top' ≤ NPAGES) : PageInv k R top' :=
  ⟨htop, hi.nodup, fun x hx => (hi.free_range x hx).trans_le hle,
    fun o x ho => (hi.range o x ho).trans_le hle, hi.free, hi.inj, hi.twice, hi.low,
    hi.kern⟩

/-- A page in hand goes to its holder. -/
theorem hand_to (hi : PageInv k (R.setSingle (.hand n) (some x)) top)
    (hs : R.single (.hand n) = none) (s : Single) : PageInv k (R.setSingle s (some x)) top :=
  hi.rename _ id (update_rename hs s x).1 (fun _ _ h => h) (update_rename hs s x).2
    fun _ _ _ _ _ he => he

/-- A fresh directory goes to its holder. -/
theorem fresh_to (hi : PageInv k (R.setRoot .fresh (some d)) top) (hr : R.root .fresh = none)
    (h : Root) : PageInv k (R.setRoot h (some d)) top :=
  hi.rename id _ (fun _ _ h => h) (update_rename hr h d).1 (fun _ _ _ _ _ he => he)
    (update_rename hr h d).2

end PageInv

namespace VmSys

/-- **Who uses pages**: the processes that are not `UNUSED`, `kpgdir` and the live pipes. -/
def roots (s : VmSys) : Roots where
  single := fun
    | .kstack p => if p < NPROC ∧ (s.proc p).state ≠ .unused then some (s.proc p).kstack else none
    | .pipe i => (s.pipe i).map (·.page)
    | .hand _ => none
  root := fun
    | .kern => some s.kpgdir
    | .proc p => if p < NPROC ∧ (s.proc p).state ≠ .unused then some (s.proc p).pgdir else none
    | .fresh => none

/-- The invariant of the kernel. -/
structure Inv (s : VmSys) : Prop where
  pages : PageInv s.km s.roots NPAGES
  sz : ∀ p, (s.proc p).sz < KERNBASE

/-- **No holes**: a process has the pages below its size, and no others. -/
def Full (s : VmSys) : Prop :=
  ∀ p < NPROC, (s.proc p).state ≠ .unused →
    Kmem.Upto s.roots s.km (.proc p) (Kmem.npages (s.proc p).sz)

variable {s s' : VmSys} {p q : ℕ}

theorem roots_kstack (hp : p < NPROC) (hs : (s.proc p).state ≠ .unused) :
    s.roots.single (.kstack p) = some (s.proc p).kstack := if_pos ⟨hp, hs⟩

theorem roots_proc (hp : p < NPROC) (hs : (s.proc p).state ≠ .unused) :
    s.roots.root (.proc p) = some (s.proc p).pgdir := if_pos ⟨hp, hs⟩

/-- Only the state, the kernel stack and the directory of a process matter. -/
theorem roots_congr (hkstack : ∀ q, (s'.proc q).kstack = (s.proc q).kstack)
    (hpgdir : ∀ q, (s'.proc q).pgdir = (s.proc q).pgdir)
    (hstate : ∀ q, (s'.proc q).state = .unused ↔ (s.proc q).state = .unused)
    (hkern : s'.kpgdir = s.kpgdir) (hpipe : s'.pipe = s.pipe) : s'.roots = s.roots := by
  simp only [roots, hkstack, hpgdir, hkern, hpipe, ne_eq, hstate]

theorem roots_setProc (hp : p < NPROC) (x : VmProc) : (s.setProc p x).roots =
    (s.roots.setSingle (.kstack p) (if x.state ≠ .unused then some x.kstack else none)).setRoot
      (.proc p) (if x.state ≠ .unused then some x.pgdir else none) := by
  have hself : (s.setProc p x).proc p = x := by simp [setProc]
  have hne : ∀ q, q ≠ p → (s.setProc p x).proc q = s.proc q := by
    intro q hq
    simp [setProc, hq]
  have hsingle : (s.setProc p x).roots.single = update s.roots.single (.kstack p)
      (if x.state ≠ .unused then some x.kstack else none) := by
    funext k
    cases k with
    | kstack q =>
      rcases eq_or_ne q p with rfl | hq
      · simp [roots, hself, hp]
      · simp [roots, hne q hq, hq]
    | pipe | hand => simp [roots, setProc]
  have hroot : (s.setProc p x).roots.root = update s.roots.root (.proc p)
      (if x.state ≠ .unused then some x.pgdir else none) := by
    funext h
    cases h with
    | proc q =>
      rcases eq_or_ne q p with rfl | hq
      · simp [roots, hself, hp]
      · simp [roots, hne q hq, hq]
    | kern | fresh => simp [roots, setProc]
  rw [setRoot, setSingle, ← hsingle, ← hroot]

variable {oom : List Bool}

/-- A call that computes on memory. -/
theorem withMem_ok {α : Type} {m : Exec Stop Kmem α}
    {f : VmSys → α → Except Stop VmSys} (h : s.withMem oom m f = .ok s') :
    ∃ a km, m { s.km with oom := oom } = .ok (a, km) ∧
      f { s with km := km } a = .ok s' := by
  rw [withMem] at h
  split at h
  · rename_i a km hm
    exact ⟨a, km, hm, h⟩
  · cases h

theorem sz_setProc (hsz : ∀ q, (s.proc q).sz < KERNBASE) {x : VmProc} (hx : x.sz < KERNBASE)
    (q : ℕ) : ((s.setProc p x).proc q).sz < KERNBASE := by
  rcases eq_or_ne q p with rfl | hq
  · simpa [setProc] using hx
  · simpa [setProc, hq] using hsz q

variable {km : Kmem}

/-- One process changes, and the pages of the others stay. -/
theorem Full.setProc {x : VmProc} (hf : s.Full) (hp : p < NPROC)
    (hu : SameUsers s.roots (PagesOf (.proc p)) s.km km) (hx : x.state ≠ .unused →
      Kmem.Upto (s.roots.setRoot (.proc p) (some x.pgdir)) km (.proc p) (Kmem.npages x.sz)) :
    Full (VmSys.setProc { s with km := km } p x) := by
  intro q hq hstate
  rcases eq_or_ne q p with rfl | hne
  · have hself : (VmSys.setProc { s with km := km } q x).proc q = x := update_self ..
    have hroot := roots_proc hq hstate
    rw [hself] at hstate hroot ⊢
    refine (hx hstate).congr ?_ fun _ _ => rfl
    rw [hroot]
    simp [setRoot]
  have hself : (VmSys.setProc { s with km := km } p x).proc q = s.proc q :=
    update_of_ne hne ..
  have hroot := roots_proc hq hstate
  rw [hself] at hstate hroot ⊢
  refine (hf q hq hstate).congr ?_ fun i j => hu (.proc q) i j fun hc => hne (Root.proc.inj hc)
  rw [hroot, roots_proc hq hstate]

/-- The pages of one process change. -/
theorem Full.setMem (hf : s.Full) (hp : p < NPROC)
    (hu : SameUsers s.roots (PagesOf (.proc p)) s.km km) (hx : (s.proc p).state ≠ .unused →
      Kmem.Upto s.roots km (.proc p) (Kmem.npages (s.proc p).sz)) : Full { s with km := km } := by
  have hset : VmSys.setProc { s with km := km } p (s.proc p) = { s with km := km } := by
    rw [VmSys.setProc, update_eq_self]
  rw [← hset]
  refine hf.setProc hp hu fun hs => (hx hs).congr ?_ fun _ _ => rfl
  rw [roots_proc hp hs]
  simp [setRoot]

/-- The processes and their pages stay as they are. -/
theorem Full.same (hf : s.Full) (hproc : s'.proc = s.proc)
    (hu : SameUsers s.roots NoPage s.km s'.km) : s'.Full := by
  intro q hq hstate
  have hroot := roots_proc hq hstate
  rw [hproc] at hstate hroot ⊢
  refine (hf q hq hstate).congr ?_ fun i j => hu (.proc q) i j id
  rw [hroot, roots_proc hq hstate]

/-! ## `fork` -/

/-- The pages of `fork`: those of the child, or none. -/
theorem forkMem_spec {cur sz np : ℕ} {k : Kmem} {R : Roots} (hsz : sz ≤ KERNBASE)
    (hi : PageInv k R NPAGES) (hr : R.root .fresh = none) (hs : R.HandsFree)
    (hnp : R.single (.kstack np) = none) :
    Ends (forkMem cur sz) k fun r k' => SameUsers R NoPage k k' ∧
      (r = .noStack ∨ r = .noMem → PageInv k' R NPAGES) ∧
      ∀ ks d, r = .child ks d →
        PageInv k' ((R.setSingle (.kstack np) (some ks)).setRoot .fresh (some d)) NPAGES ∧
        Kmem.Upto (R.setRoot .fresh (some d)) k' .fresh (Kmem.npages sz) := by
  rw [forkMem]
  refine (Kmem.kalloc_spec hi 0).bind ?_
  rintro (_ | ks) k1 ⟨hm1, hfail, hgot⟩
  · exact ends_pure ⟨.of_page (by rw [hm1]), fun _ => hfail rfl, by simp⟩
  have hi1 := (hgot ks rfl).hand_to (hs 0) (.kstack np)
  have hs1 : ∀ n, (R.setSingle (.kstack np) (some ks)).single (.hand n) = none := by
    intro n
    simpa [setSingle] using hs n
  refine (Kmem.copyuvm_spec hsz hi1 hr hs1).bind ?_
  rintro r k2 ⟨hu2, hfail2, hgot2⟩
  have hu : SameUsers R NoPage k k2 :=
    .trans (.of_page (by rw [hm1])) (hu2.congr fun _ _ _ _ => rfl)
  cases r with
  | none =>
    have hks : (R.setSingle (.kstack np) (some ks)).single (.kstack np) = some ks := by
      simp [setSingle]
    have hi2 := hfail2 rfl
    have hi3 := hi2.free_hand hks
    have hpage := PageInv.page_freed (hi2.not_isTable (o := .single (.kstack np)) hks
      (fun _ => by simp) fun _ _ => by simp)
    rw [setSingle_back hnp] at hi3
    refine Kmem.kfree_spec.bind ?_
    rintro _ _ rfl
    exact ends_pure ⟨hu.trans (SameUsers.congr (.of_page hpage) fun _ _ _ _ => rfl),
      fun _ => hi3, by simp⟩
  | some d =>
    refine ends_pure ⟨hu, by simp, fun ks' d' he => ?_⟩
    obtain ⟨rfl, rfl⟩ : ks = ks' ∧ d = d' := by simpa using he
    exact (hgot2 d rfl).imp_right fun h => h.congr rfl fun _ _ => rfl

theorem Inv.fork (hi : s.Inv) (h : s.fork p oom = .ok s') : s'.Inv ∧ (s.Full → s'.Full) := by
  rw [VmSys.fork] at h
  split at h
  · cases h
    exact ⟨hi, id⟩
  rename_i np hnp
  obtain ⟨hlt, hunused⟩ : np < NPROC ∧ (s.proc np).state = .unused :=
    ⟨mem_range.mp (mem_of_find?_eq_some hnp), by simpa using find?_some hnp⟩
  have hks : s.roots.single (.kstack np) = none := if_neg fun hn => hn.2 hunused
  obtain ⟨r, km, hm, h⟩ := withMem_ok h
  obtain ⟨hu, hfail, hgot⟩ := (forkMem_spec (hi.sz p).le (Kmem.pageInv_oom hi.pages oom) rfl
    (fun _ => rfl) hks).ok hm
  -- a slot that stays free
  have hfree : ∀ x : VmProc, x.state = .unused → x.sz = (s.proc np).sz → PageInv km s.roots NPAGES →
      Inv (VmSys.setProc { s with km := km } np x) ∧
        (s.Full → Full (VmSys.setProc { s with km := km } np x)) := by
    intro x hx hsz hk
    refine ⟨⟨?_, sz_setProc (s := { s with km := km }) hi.sz (hsz ▸ hi.sz np)⟩, fun hf => ?_⟩
    · rw [roots_setProc hlt, if_neg (not_not.mpr hx), if_neg (not_not.mpr hx)]
      exact (hk.drop_single _).drop_root _
    · exact hf.setProc hlt hu.none fun hn => absurd hx hn
  rcases r with _ | _ | ⟨ks, d⟩ <;> cases h
  · exact hfree _ rfl rfl (hfail (.inl rfl))
  · exact hfree _ rfl rfl (hfail (.inr rfl))
  obtain ⟨hpages, hupto⟩ := hgot ks d rfl
  refine ⟨⟨?_, sz_setProc (s := { s with km := km }) hi.sz (hi.sz p)⟩, fun hf => ?_⟩
  · rw [roots_setProc hlt]
    exact hpages.fresh_to rfl _
  · refine hf.setProc hlt hu.none fun _ => hupto.congr ?_ fun _ _ => rfl
    simp [setRoot]

/-! ## `exit` and `wait` -/

/-- `exit` only changes the state of a process that stays in use. -/
theorem Inv.exit (hi : s.Inv) (hs : (s.proc p).state = .alive) (h : s.exit p = .ok s') :
    s'.Inv ∧ (s.Full → s'.Full) := by
  rw [VmSys.exit] at h
  split at h
  · cases h
  have hkm : s'.km = s.km := by cases h; rfl
  have hsz : ∀ q, (s'.proc q).sz = (s.proc q).sz := by
    cases h
    intro q
    dsimp only
    split <;> split <;> rfl
  have hstate : ∀ q, (s'.proc q).state = .unused ↔ (s.proc q).state = .unused := by
    cases h
    intro q
    dsimp only
    rcases eq_or_ne q p with rfl | hq
    · simp [hs]
    · simp only [hq, if_false]
      split <;> rfl
  have hroots : s'.roots = s.roots := by
    cases h
    refine roots_congr (fun q => ?_) (fun q => ?_) hstate rfl rfl
    all_goals
      dsimp only
      split <;> split <;> rfl
  refine ⟨⟨?_, fun q => ?_⟩, fun hf q hq hused => ?_⟩
  · rw [hkm, hroots]
    exact hi.pages
  · rw [hsz]
    exact hi.sz q
  · rw [hkm, hroots, hsz]
    exact hf q hq (mt (hstate q).mpr hused)

/-- The pages of a zombie. -/
theorem waitMem_spec {x : VmProc} {k : Kmem} {R : Roots} (hi : PageInv k R NPAGES)
    (hk : R.single (.kstack q) = some x.kstack) (hd : R.root (.proc q) = some x.pgdir)
    (hs : R.HandsFree) : Ends (waitMem x) k fun _ k' =>
      PageInv k' ((R.setSingle (.kstack q) none).setRoot (.proc q) none) NPAGES ∧
      SameUsers R (PagesOf (.proc q)) k k' := by
  rw [waitMem]
  refine Kmem.kfree_spec.bind ?_
  rintro _ _ rfl
  have hs1 : ∀ n, (R.setSingle (.kstack q) none).single (.hand n) = none := by
    intro n
    simpa [setSingle] using hs n
  have hpage := PageInv.page_freed (hi.not_isTable (o := .single (.kstack q)) hk (fun _ => by simp)
    fun _ _ => by simp)
  refine (Kmem.freevm_spec (hi.free_hand hk) hd hs1).mono ?_
  rintro _ k' ⟨hi', -, hu'⟩
  exact ⟨hi', .trans (.of_page hpage) (hu'.congr fun _ _ _ _ => rfl)⟩

theorem Inv.wait (hi : s.Inv) (hq : q < NPROC) (hs : (s.proc q).state = .zombie)
    (h : s.wait q = .ok s') : s'.Inv ∧ (s.Full → s'.Full) := by
  have hzombie : (s.proc q).state ≠ .unused := by simp [hs]
  obtain ⟨_, km, hm, h⟩ := withMem_ok h
  obtain ⟨hpages, hu⟩ := (waitMem_spec (Kmem.pageInv_oom hi.pages [])
    (roots_kstack hq hzombie) (roots_proc hq hzombie) fun _ => rfl).ok hm
  cases h
  refine ⟨⟨?_, sz_setProc (s := { s with km := km }) hi.sz (hi.sz q)⟩, fun hf => ?_⟩
  · rw [roots_setProc hq]
    exact hpages
  · exact hf.setProc hq hu fun hn => absurd rfl hn

/-! ## Pipes -/

theorem Inv.pipealloc (hi : s.Inv) (h : s.pipealloc oom = .ok s') :
    s'.Inv ∧ (s.Full → s'.Full) := by
  obtain ⟨r, km, hm, h⟩ := withMem_ok h
  obtain ⟨hmem, hfail, hgot⟩ := (Kmem.kalloc_spec (Kmem.pageInv_oom hi.pages oom) 0).ok hm
  have hu : SameUsers s.roots NoPage s.km km := .of_page (by rw [hmem])
  rcases r with _ | x <;> cases h
  · exact ⟨⟨hfail rfl, hi.sz⟩, fun hf => hf.same rfl hu⟩
  refine ⟨⟨((hgot x rfl).hand_to rfl (.pipe s.npipe)).forget ?_ fun _ _ hd => hd, hi.sz⟩,
    fun hf => hf.same rfl hu⟩
  intro k y hy
  cases k with
  | pipe i =>
    rcases eq_or_ne i s.npipe with rfl | hne
    · simpa [roots, setSingle] using hy
    · simpa [roots, setSingle, hne] using hy
  | kstack => simpa [roots, setSingle] using hy
  | hand => cases hy

theorem Inv.pipeclose (hi : s.Inv) {i : ℕ} {writable : Bool}
    (h : s.pipeclose i writable = .ok s') : s'.Inv ∧ (s.Full → s'.Full) := by
  rw [VmSys.pipeclose] at h
  split at h
  · cases h
  rename_i x hx
  have hpage : (if writable then { x with writeopen := false } else
      { x with readopen := false }).page = x.page := by
    split <;> rfl
  obtain ⟨y, hy⟩ : ∃ y, y = if writable then { x with writeopen := false } else
    { x with readopen := false } := ⟨_, rfl⟩
  rw [← hy] at hpage
  simp only [← hy] at h
  have hsingle : s.roots.single (.pipe i) = some x.page := by simp [roots, hx]
  split at h
  · obtain ⟨_, km, hm, h⟩ := withMem_ok h
    cases h
    have hkm := Kmem.kfree_spec.ok hm
    have hpages := (Kmem.pageInv_oom hi.pages []).free_hand hsingle
    have hsame := PageInv.page_freed ((Kmem.pageInv_oom hi.pages []).not_isTable
      (o := .single (.pipe i)) hsingle (fun _ => by simp) fun _ _ => by simp)
    rw [← hpage, hkm] at hpages hsame
    refine ⟨⟨hpages.forget (fun k z hz => ?_) fun _ _ hd => hd, hi.sz⟩,
      fun hf => hf.same rfl (.of_page hsame)⟩
    cases k with
    | pipe j =>
      rcases eq_or_ne j i with rfl | hne
      · simp [roots] at hz
      · simpa [roots, setSingle, hne] using hz
    | kstack => simpa [roots, setSingle] using hz
    | hand => cases hz
  · cases h
    refine ⟨⟨hi.pages.forget (fun k z hz => ?_) fun _ _ hd => hd, hi.sz⟩,
      fun hf => hf.same rfl .refl⟩
    cases k with
    | pipe j =>
      rcases eq_or_ne j i with rfl | hne
      · simpa [roots, hx, hpage] using hz
      · simpa [roots, hne] using hz
    | kstack => exact hz
    | hand => cases hz

/-! ## The start of the kernel -/

/-- `freerange` of pages above all others. -/
theorem freerange_spec {R : Roots} {hi : ℕ} (htop : hi ≤ NPAGES) : ∀ (n lo : ℕ) {k : Kmem},
    PageInv k R lo → lo ≤ hi → hi ≤ lo + n →
    Ends (Kmem.freerange lo hi n) k fun _ k' => PageInv k' R hi ∧ k'.oom = k.oom ∧
      k'.free.length = k.free.length + (hi - lo) := by
  intro n
  induction n with
  | zero =>
    intro lo k hk _ hle
    exact ends_pure ⟨hk.raise (by omega) htop, rfl, by omega⟩
  | succ n ih =>
    intro lo k hk hlo hle
    rw [Kmem.freerange]
    split
    · rename_i hlt
      refine (Kmem.kfree_spec.and Kmem.kfree_low).bind ?_
      rintro _ _ ⟨rfl, hlow⟩
      refine (ih (lo + 1) ?_ hlt (by omega)).mono ?_
      · refine (hk.raise (Nat.le_succ lo) (by omega)).give (Nat.lt_succ_self lo) hlow ?_ ?_
        · exact fun hm => lt_irrefl lo (hk.free_range lo hm)
        · exact fun o ho => lt_irrefl lo (hk.range o lo ho)
      · rintro _ k' ⟨hk', hoom, hlen⟩
        refine ⟨hk', hoom, ?_⟩
        rw [hlen, Kmem.freed, length_cons]
        omega
    · exact ends_pure ⟨hk.raise (by omega) htop, rfl, by omega⟩

theorem startothers_spec {R : Roots} {top : ℕ} (hs : R.single (.hand 0) = none) :
    ∀ (n : ℕ) {k : Kmem}, PageInv k R top → k.oom = [] →
      Ends (startothers n) k fun _ k' => PageInv k' R top ∧ k'.oom = [] := by
  intro n
  induction n with
  | zero =>
    intro k hk hoom
    exact ends_pure ⟨hk, hoom⟩
  | succ n ih =>
    intro k hk hoom
    rw [startothers]
    refine ((Kmem.kalloc_spec hk 0).and (Kmem.spends_kalloc k)).bind ?_
    rintro (_ | x) k1 ⟨⟨-, hfail, hgot⟩, hspend⟩
    · exact ih (hfail rfl) (hspend hoom).1
    · have := (hgot x rfl).drop_single (.hand 0)
      rw [setSingle_back hs] at this
      exact ih this (hspend hoom).1

/-- Nobody has anything. -/
def nobody : Roots := ⟨fun _ => none, fun _ => none⟩

variable {mem : ℕ → Bytes PGSIZE} {ncpu kend : ℕ}

theorem bootMem_spec : Ends (bootMem ncpu kend) ⟨mem, [], kend, [], false⟩ fun d k' =>
      PageInv k' (nobody.setRoot .kern (some d)) NPAGES ∧ k'.oom = [] ∧
      NPAGES - 1024 ≤ k'.free.length := by
  have hnone : ∀ o x, nobody.page mem o ≠ some x := by
    intro o x
    cases o <;> simp [nobody, page]
  have hk : ∀ top ≤ NPAGES, PageInv ⟨mem, [], kend, [], false⟩ nobody top := by
    intro top htop
    exact ⟨htop, nodup_nil, by simp, fun o x ho => absurd ho (hnone o x),
      fun o x ho => absurd ho (hnone o x), fun o _ x ho => absurd ho (hnone o x), rfl,
      fun x hx => hx.elim (by simp) fun h => h.elim fun o ho => absurd ho (hnone o x),
      fun h i t ht => absurd ht (hnone (.tab h i) t)⟩
  have hfirst : Ends (Kmem.freerange kend 1024 1024) ⟨mem, [], kend, [], false⟩ fun _ k' =>
      PageInv k' nobody 1024 ∧ k'.oom = [] := by
    rcases le_or_gt kend 1024 with hle | hgt
    · refine (freerange_spec (by decide) _ _ (hk kend (hle.trans (by decide))) hle (by omega)).mono
        ?_
      exact fun _ _ h => ⟨h.1, h.2.1⟩
    · rw [Kmem.freerange, if_neg (by omega)]
      exact ends_pure ⟨hk 1024 (by decide), rfl⟩
  rw [bootMem]
  refine hfirst.bind ?_
  rintro _ k1 ⟨hk1, hoom1⟩
  refine ((Kmem.setupkvm_spec hk1 rfl fun _ => rfl).and (Kmem.spends_setupkvm k1)).bind ?_
  rintro (_ | d) k2 ⟨⟨-, -, hgot⟩, hspend⟩
  · exact ends_stop
  have hk2 := (hgot d rfl).1.fresh_to rfl .kern
  refine (startothers_spec rfl ncpu hk2 (hspend hoom1).1).bind ?_
  rintro _ k3 ⟨hk3, hoom3⟩
  refine (freerange_spec le_rfl NPAGES 1024 hk3 (by decide) (by omega)).bind ?_
  rintro _ k4 ⟨hk4, hoom4, hlen⟩
  exact ends_pure ⟨hk4, hoom4.trans hoom3, hlen ▸ Nat.le_add_left ..⟩

variable {init : List UInt8}

theorem userinit_spec {k : Kmem} {R : Roots} (hi : PageInv k R NPAGES)
    (hr : R.root .fresh = none) (hs : R.HandsFree) (hoom : k.oom = [])
    (hlen : NPAGES - 1024 ≤ k.free.length) : Ends (userinit init) k fun r k' =>
      PageInv k' ((R.setSingle (.kstack 0) (some r.1)).setRoot (.proc 0) (some r.2)) NPAGES ∧
      Kmem.Upto (R.setRoot (.proc 0) (some r.2)) k' (.proc 0) 1 := by
  rw [userinit]
  refine ((Kmem.kalloc_spec hi 0).and (Kmem.spends_kalloc k)).bind ?_
  rintro (_ | ks) k1 ⟨⟨-, -, hgot⟩, hspend1⟩
  · exact ends_stop
  have hi1 := (hgot ks rfl).hand_to (hs 0) (.kstack 0)
  have hs1 : ∀ n, (R.setSingle (.kstack 0) (some ks)).single (.hand n) = none := by
    intro n
    simpa [setSingle] using hs n
  refine ((Kmem.setupkvm_spec hi1 hr hs1).and (Kmem.spends_setupkvm k1)).bind ?_
  rintro (_ | d) k2 ⟨⟨-, -, hgot⟩, hspend2⟩
  · exact ends_stop
  obtain ⟨hi2, hm2, -⟩ := hgot d rfl
  have hd : ((R.setSingle (.kstack 0) (some ks)).setRoot .fresh (some d)).root .fresh = some d := by
    simp [setRoot]
  have hlen2 : 2 ≤ k2.free.length := by
    have hn : NPAGES = 57344 := rfl
    have h1 := (hspend1 hoom).2
    have h2 := (hspend2 (hspend1 hoom).1).2
    omega
  refine (Kmem.inituvm_spec hi2 hd hs1).bind ?_
  rintro _ k3 ⟨hk3, hm3⟩
  refine ends_pure ⟨hk3.fresh_to hr (.proc 0), ?_⟩
  refine (hm3 (hspend2 (hspend1 hoom).1).1 hlen2 hm2).congr ?_ fun _ _ => rfl
  simp [setRoot]

/-- **The kernel after `main`.** -/
theorem inv_boot (h : boot ncpu kend mem init = .ok s) : s.Inv ∧ s.Full := by
  rw [boot] at h
  split at h
  · rename_i kpgdir km hm
    split at h
    · rename_i ks d km' hm'
      cases h
      obtain ⟨hk, hoom, hlen⟩ := bootMem_spec.ok hm
      obtain ⟨hk', hupto⟩ := (userinit_spec hk rfl (fun _ => rfl) hoom hlen).ok hm'
      refine ⟨⟨hk'.forget (fun k x hx => ?_) (fun h x hx => ?_), fun p => ?_⟩, fun p hp hs => ?_⟩
      · cases k with
        | kstack p =>
          rcases eq_or_ne p 0 with rfl | hp
          · simpa [roots, setRoot, setSingle] using hx
          · simp [roots, hp] at hx
        | pipe | hand => cases hx
      · cases h with
        | kern => simpa [roots, setRoot, setSingle] using hx
        | proc p =>
          rcases eq_or_ne p 0 with rfl | hp
          · simpa [roots, setRoot, setSingle] using hx
          · simp [roots, hp] at hx
        | fresh => cases hx
      · dsimp only
        split
        · exact (by decide : PGSIZE < KERNBASE)
        · exact (by decide : 0 < KERNBASE)
      · rcases eq_or_ne p 0 with rfl | hne
        · have hone : Kmem.npages PGSIZE = 1 := by decide
          rw [← hone] at hupto
          refine Kmem.Upto.congr hupto ?_ fun _ _ => rfl
          simp [roots, setRoot, hp]
        · simp [hne] at hs
    · cases h
  · cases h

/-! ## Evaluation

The start of the kernel and `setupkvm` in closed form, so that a run can be evaluated. -/

/-- The pages from `lo + n - 1` down to `lo`. -/
def pagesDown (lo : ℕ) : ℕ → List ℕ
  | 0 => []
  | n + 1 => (lo + n) :: pagesDown lo n

theorem pagesDown_succ (lo n : ℕ) : pagesDown lo (n + 1) = pagesDown (lo + 1) n ++ [lo] := by
  induction n with
  | zero => rfl
  | succ n ih =>
    rw [pagesDown, ih, pagesDown, cons_append]
    congr 1
    omega

/-- The memory after `freerange` of `n` pages from `lo` on. -/
def freedRange (k : Kmem) (lo n : ℕ) : Kmem :=
  { k with
    mem := fun x => if lo ≤ x ∧ x < lo + n then fun _ => 1 else k.mem x
    free := pagesDown lo n ++ k.free }

theorem freerange_eq : ∀ (n m lo : ℕ) (k : Kmem), k.kend ≤ lo → lo + n ≤ NPAGES →
    (∀ x ∈ k.free, x < lo) → n ≤ m →
    Kmem.freerange lo (lo + n) m k = .ok ((), freedRange k lo n) := by
  intro n
  induction n with
  | zero =>
    intro m lo k _ _ _ _
    have hstop : Kmem.freerange lo (lo + 0) m k = .ok ((), k) := by
      cases m with
      | zero => rfl
      | succ m =>
        rw [Kmem.freerange, if_neg (by omega)]
        rfl
    have hempty : ∀ x, ¬(lo ≤ x ∧ x < lo) := fun x => by omega
    rw [hstop]
    simp [freedRange, pagesDown, hempty]
  | succ n ih =>
    intro m lo k hk hn hfree hm
    obtain ⟨m, rfl⟩ : ∃ m', m = m' + 1 := ⟨m - 1, by omega⟩
    have hkfree : Kmem.kfree lo k = .ok ((), k.freed lo) := by
      rw [Kmem.kfree, if_neg (by omega)]
    have hlo : lo ∉ k.free := fun hm => lt_irrefl lo (hfree lo hm)
    have hlt : ∀ x ∈ (k.freed lo).free, x < lo + 1 := by
      intro x hx
      rcases mem_cons.mp hx with rfl | hx
      · exact Nat.lt_succ_self x
      · exact (hfree x hx).trans (Nat.lt_succ_self lo)
    rw [Kmem.freerange, if_pos (by omega), Exec.bind_ok hkfree, show lo + (n + 1) =
      lo + 1 + n by omega,
      ih m (lo + 1) (k.freed lo) (hk.trans (Nat.le_succ lo)) (by omega) hlt (by omega)]
    congr 2
    simp only [freedRange, Kmem.freed, Kmem.mk.injEq, and_true, true_and]
    refine ⟨?_, ?_, ?_⟩
    · funext x
      rcases eq_or_ne x lo with rfl | hne
      · simp
      · rw [update_of_ne hne]
        congr 1
        rw [eq_iff_iff]
        omega
    · rw [pagesDown_succ, append_assoc]
      rfl
    · simp [hlo]

/-- Byte `b` of a page after a store to word `i`. -/
theorem setU32_apply (m : Bytes PGSIZE) (i w : ℕ) (b : Fin PGSIZE) : m.setU32 (4 * i) w b =
    if b.val / 4 = i then UInt8.ofNat (w / 256 ^ (b.val % 4)) else m b := by
  rw [Bytes.setU32, Bytes.splice]
  split
  · rename_i hle
    split
    · rename_i hi
      obtain ⟨r, hr, hb⟩ : ∃ r < 4, b.val = 4 * i + r := ⟨b.val % 4, by omega, by omega⟩
      rw [hb, Nat.add_sub_cancel_left, Nat.mul_add_mod, Nat.mod_eq_of_lt hr]
      match r, hr with
      | 0, _ | 1, _ | 2, _ | 3, _ => simp [Bytes.le32]
    · rename_i hi
      rw [getElem?_eq_none (by simp only [Bytes.le32, length_cons, length_nil]; omega)]
      rfl
  · rename_i hle
    rw [if_neg (by omega)]

/-- The memory after the page tables for the entries from `a` on have been made in the pages from
`lo + n - 1` down to `lo`. -/
def tablesMapped (k : Kmem) (d a lo n : ℕ) : Kmem :=
  { k with
    mem := fun x =>
      if x = d then fun b =>
        if a ≤ b.val / 4 ∧ b.val / 4 < a + n then
          UInt8.ofNat (mkPte (lo + n - 1 - (b.val / 4 - a)) 6 / 256 ^ (b.val % 4))
        else k.mem d b
      else if lo ≤ x ∧ x < lo + n then Kmem.kernelTable (a + (lo + n - 1 - x))
      else k.mem x
    free := k.free.drop n }

theorem mapKernel_range {d : ℕ} {is : List ℕ} (lo : ℕ) : ∀ (n a : ℕ) (k : Kmem), k.oom = [] →
    k.free.take n = pagesDown lo n → ¬(lo ≤ d ∧ d < lo + n) →
    Kmem.mapKernel d (List.range' a n ++ is) k = Kmem.mapKernel d is (tablesMapped k d a lo n) := by
  intro n
  induction n with
  | zero =>
    intro a k _ _ _
    have h1 : ∀ x, ¬(a ≤ x ∧ x < a + 0) := fun x => by omega
    have h2 : ∀ x, ¬(lo ≤ x ∧ x < lo + 0) := fun x => by omega
    have hsame : tablesMapped k d a lo 0 = k := by
      simp only [tablesMapped, h1, h2, if_false, drop_zero]
      congr 1
      funext x
      split
      · rename_i hx
        rw [hx]
      · rfl
    rw [hsame]
    rfl
  | succ n ih =>
    intro a k hoom hfree hd
    rcases hf : k.free with _ | ⟨t, free⟩ <;> rw [hf] at hfree
    · cases hfree
    obtain ⟨rfl, htake⟩ : t = lo + n ∧ free.take n = pagesDown lo n := by
      simpa [pagesDown] using hfree
    have hkalloc : Kmem.kalloc k = .ok (some (lo + n), { k with free := free, oom := [] }) := by
      rw [Kmem.kalloc, hoom, hf]
      rfl
    rw [range'_succ, cons_append, Kmem.mapKernel, Exec.bind_ok hkalloc]
    refine (ih (a + 1) _ rfl htake (by omega)).trans (congrArg _ ?_)
    have hne : d ≠ lo + n := by omega
    simp only [tablesMapped, hf, drop_succ_cons, Kmem.mk.injEq, and_true, true_and]
    refine ⟨?_, hoom.symm⟩
    funext x
    rcases eq_or_ne x d with rfl | hx
    · rw [if_pos rfl, if_pos rfl]
      funext b
      rw [update_self, update_of_ne hne, setU32_apply]
      rcases Nat.lt_trichotomy (b.val / 4) a with hlt | heq | hgt
      · rw [if_neg (by omega), if_neg (by omega), if_neg (by omega)]
      · rw [if_neg (by omega), if_pos heq, if_pos (by omega), heq]
        congr 3
        omega
      rcases Nat.lt_or_ge (b.val / 4) (a + (n + 1)) with hin | hout
      · rw [if_pos (by omega), if_pos (by omega)]
        congr 3
        omega
      · rw [if_neg (by omega), if_neg (by omega), if_neg (by omega)]
    · rw [if_neg hx, if_neg hx, update_of_ne hx]
      rcases Nat.lt_trichotomy x (lo + n) with hlt | rfl | hgt
      · rw [update_of_ne (Nat.ne_of_lt hlt)]
        rcases Nat.lt_or_ge x lo with hout | hin
        · rw [if_neg (by omega), if_neg (by omega)]
        · rw [if_pos (by omega), if_pos (by omega)]
          congr 1
          omega
      · rw [if_neg (by omega), if_pos (by omega), update_self]
        congr 1
        omega
      · rw [if_neg (by omega), if_neg (by omega), update_of_ne (Nat.ne_of_gt hgt)]

/-- The memory after `setupkvm` has taken the pages from `lo + 64` down to `lo`. -/
def kernelMapped (k : Kmem) (lo : ℕ) : Kmem :=
  tablesMapped (tablesMapped { k with
    mem := update k.mem (lo + 64) Bytes.zero
    free := k.free.tail } (lo + 64) 512 (lo + 8) 56) (lo + 64) 1016 lo 8

theorem pagesDown_add (lo m : ℕ) : ∀ n, pagesDown lo (n + m) = pagesDown
    (lo + m) n ++ pagesDown lo m
  | 0 => by rw [Nat.zero_add]; rfl
  | n + 1 => by
    rw [Nat.succ_add, pagesDown, pagesDown_add lo m n, pagesDown, cons_append]
    congr 1
    omega

theorem length_pagesDown (lo : ℕ) : ∀ n, (pagesDown lo n).length = n
  | 0 => rfl
  | n + 1 => by rw [pagesDown, length_cons, length_pagesDown lo n]

theorem setupkvm_eq {k : Kmem} {lo : ℕ} (hoom : k.oom = [])
    (hfree : k.free.take 65 = pagesDown lo 65) :
    Kmem.setupkvm k = .ok (some (lo + 64), kernelMapped k lo) := by
  rcases hf : k.free with _ | ⟨d, free⟩ <;> rw [hf] at hfree
  · cases hfree
  obtain ⟨rfl, htake⟩ : d = lo + 64 ∧ free.take (56 + 8) = pagesDown
    (lo + 8) 56 ++ pagesDown lo 8 := by
    rw [← pagesDown_add]
    simpa [pagesDown] using hfree
  rw [take_add] at htake
  have hlen : (free.take 56).length = (pagesDown (lo + 8) 56).length := by
    have hl := congrArg List.length htake
    simp only [length_append, length_take, length_drop, length_pagesDown] at hl ⊢
    omega
  obtain ⟨h1, h2⟩ := append_inj htake hlen
  have hkalloc : Kmem.kalloc k = .ok (some (lo + 64), { k with free := free, oom := [] }) := by
    rw [Kmem.kalloc, hoom, hf]
    rfl
  have hmap : Kmem.mapKernel (lo + 64) Kmem.kmap
      { k with mem := update k.mem (lo + 64) Bytes.zero, free := free, oom := [] } =
      .ok (true, kernelMapped k lo) := by
    rw [Kmem.kmap, mapKernel_range (lo + 8) 56 512 _ rfl h1 (by omega),
      ← append_nil (List.range' 1016 8), mapKernel_range lo 8 1016 _ rfl h2 (by omega)]
    rw [kernelMapped, hf, ← hoom]
    rfl
  rw [Kmem.setupkvm, Exec.bind_ok hkalloc]
  refine (Exec.bind_ok (m := Kmem.clear (lo + 64)) rfl).trans ?_
  rw [Exec.bind_ok hmap]
  rfl

/-- Pages 256 to 1023 after `kinit1`. -/
def lowFreed : Kmem := freedRange ⟨fun _ => Bytes.zero, [], 256, [], false⟩ 256 768

/-- All of memory after `kinit2`. -/
def allFreed : Kmem := freedRange (kernelMapped lowFreed 959) 1024 56320

theorem bootMem_eq : bootMem 0 256 ⟨fun _ => Bytes.zero, [], 256, [], false⟩ =
    .ok (1023, allFreed) := by
  have hlow : Kmem.freerange 256 1024 1024 ⟨fun _ => Bytes.zero, [], 256, [], false⟩ =
      .ok ((), lowFreed) := freerange_eq 768 1024 256 _ le_rfl (by decide) (by simp) (by decide)
  have hkvm : Kmem.setupkvm lowFreed = .ok (some 1023, kernelMapped lowFreed 959) :=
    setupkvm_eq rfl (by decide)
  have hall : Kmem.freerange 1024 NPAGES NPAGES (kernelMapped lowFreed 959) = .ok ((), allFreed) :=
    freerange_eq 56320 NPAGES 1024 _ (by decide) (by decide) (by decide +kernel) (by decide)
  rw [bootMem, Exec.bind_ok hlow, Exec.bind_ok hkvm]
  refine (Exec.bind_ok (m := startothers 0) rfl).trans ?_
  rw [Exec.bind_ok hall]
  rfl


/-- `userinit` has taken page 57343 for the kernel stack. -/
def stackTaken : Kmem := { allFreed with free := allFreed.free.tail, oom := [] }

/-- The directory of the first process is in page 57342. -/
def initMapped : Kmem :=
  match Kmem.inituvm 57342 [0] (kernelMapped stackTaken 57278) with
  | .ok (_, k) => k
  | .error _ => stackTaken

def started : VmSys where
  km := initMapped
  proc p := if p = 0 then ⟨.alive, 57343, 57342, PGSIZE, none⟩ else ⟨.unused, 0, 0, 0, none⟩
  kpgdir := 1023
  pipe _ := none
  npipe := 0

/-- The kernel starts with any program that `inituvm` can load. -/
theorem boot_of_init {k : Kmem}
    (h : Kmem.inituvm 57342 init (kernelMapped stackTaken 57278) = .ok ((), k)) :
    boot 0 256 (fun _ => Bytes.zero) init = .ok { started with km := k } := by
  have hkalloc : Kmem.kalloc allFreed = .ok (some 57343, stackTaken) := rfl
  have hkvm : Kmem.setupkvm stackTaken = .ok (some 57342, kernelMapped stackTaken 57278) :=
    setupkvm_eq rfl (by decide)
  have huser : userinit init allFreed = .ok ((57343, 57342), k) :=
    (Exec.bind_ok hkalloc).trans ((Exec.bind_ok hkvm).trans ((Exec.bind_ok h).trans rfl))
  rw [boot, bootMem_eq]
  dsimp only
  rw [huser]
  rfl

theorem boot_eq : boot 0 256 (fun _ => Bytes.zero) [0] = .ok started := by
  have hinit : Kmem.inituvm 57342 [0] (kernelMapped stackTaken 57278) = .ok ((), initMapped) := by
    obtain ⟨⟨_, k⟩, hk, -⟩ := exists_ok_of_check (P := fun _ => True)
      (x := Kmem.inituvm 57342 [0] (kernelMapped stackTaken 57278)) (by decide)
    rw [initMapped, hk]
  exact boot_of_init hinit

/-- The end of `exec`: a new image, or `goto bad`. -/
def execEnd (d : ℕ) : Option ℕ → Exec Stop Kmem (Option (ℕ × ℕ))
  | some sz => pure (some (d, sz))
  | none => do
    Kmem.freevm d
    pure none

theorem exec_eq {cur d : ℕ} {k k' : Kmem}
    (h : Kmem.setupkvm k = .ok (some d, k')) : Kmem.exec cur true phs args k =
      (Kmem.execImage cur d phs args >>= execEnd d) k' := by
  rw [Kmem.exec, if_neg (by decide), Exec.bind_ok h]
  rfl

/-- The memory at the start of a call of `exec`. -/
def execStart : Kmem := { started.km with oom := [] }

end VmSys

end Xv6
