import Xv6.VmAccount

/-!
# A `fork` that fails

`fork` takes pages for the kernel stack, the page directory, the page tables and the memory of the
child, one by one. When it fails, `freevm` gives back what is linked into the new directory. Two
things are not linked: the directory of a `setupkvm` that fails half way, and the page `mem` of
`copyuvm` when `mappages` gets no page table for it.

* `ForkSys.fork_no_trace`: a failed `fork` gives back all it has taken **iff the `kalloc` that fails
  is not one for a page table**; otherwise a page is lost (`Lost`).
-/

namespace Xv6

open Function

open Exec Roots

namespace Kmem

variable {np : ℕ} {k0 k : Kmem} {R0 R : Roots} {d x va n : ℕ}

/-! ## `copyuvm` and `fork` -/

/-- **A page is lost**: it was free, and now it is in use, but not as the kernel stack of `np`. -/
def Lost (np : ℕ) (k0 : Kmem) (R : Roots) (k : Kmem) : Prop :=
  ∃ x R' o, x ∈ k0.free ∧ PageInv k R' NPAGES ∧ R'.page k.mem o = some x ∧
    o ≠ .single (.kstack np) ∧ R'.single (.kstack np) = R.single (.kstack np)

/-- The loop of `copyuvm`, where `N` calls of `kalloc` succeed after `setupkvm`: each page is one
call, and each 1024th page another one for its table. If that is the one that fails, `mem` is in
hand and stays there. -/
theorem copyLoop_acc {pgdir sz : ℕ} (hsz : sz ≤ KERNBASE) (hd : R.root .fresh = some d)
    (hs : R.HandsFree) (hnone : ∀ o, Mine np o → R0.page k0.mem o = none) (N : ℕ) :
    ∀ (n a : ℕ) {k : Kmem}, Acc True np k0 R0 k R →
      Upto R k .fresh (a / PGSIZE) → Tabs R k (a / PGSIZE) →
      N = avail k + a / PGSIZE + (a / PGSIZE + 1023) / 1024 →
      Ends (copyLoop pgdir d sz n a) k fun ok k' => ok = false →
        (N % 1025 = 1 ∧ ∃ x ∈ k0.free, PageInv k' (R.setSingle (.hand 0) (some x)) NPAGES) ∨
        (N % 1025 ≠ 1 ∧ Acc True np k0 R0 k' R ∧ ∃ m ≤ npages KERNBASE, Upto R k' .fresh m) := by
  intro n
  induction n with
  | zero => exact fun _ _ _ _ _ _ => ends_pure (by simp)
  | succ n ih =>
    intro a k h hu ht hN
    rw [copyLoop]
    split
    · rename_i hlt
      have hmax : a / PGSIZE ≤ npages KERNBASE :=
        (Nat.div_le_div_right (hlt.le.trans hsz)).trans (by decide)
      refine walkpgdir_false.bind ?_
      rintro _ _ ⟨rfl, ⟨t, rfl, -⟩ | ⟨rfl, -⟩⟩
      · refine ends_bind_gets ?_
        obtain ⟨w, hw⟩ : ∃ w, w = k.word t (PTX a) := ⟨_, rfl⟩
        rw [← hw]
        split
        · refine (Acc.stable.kalloc h (hs 0)).bind ?_
          rintro (_ | x) k1 ⟨hm1, hfail, hgot⟩
          · obtain ⟨h1, havail⟩ := hfail rfl
            refine ends_pure fun _ => .inr ⟨by omega, h1, _, hmax, hu.congr rfl fun i j => ?_⟩
            rw [hm1]
          obtain ⟨h1, havail1⟩ := hgot x rfl
          have hx : (R.setSingle (.hand 0) (some x)).single (.hand 0) = some x := by
            simp [setSingle]
          have hx1 : (R.setSingle (.hand 0) (some x)).single (.hand 1) = none := by
            simpa [setSingle] using hs 1
          have hpage2 := (write_hand h1.inv hx (k1.mem (ptePage w))).2
          have h2 := Acc.write_hand h1 hx (k1.mem (ptePage w))
          have ht2 : Tabs (R.setSingle (.hand 0) (some x))
              { k1 with mem := update k1.mem x (k1.mem (ptePage w)) } (a / PGSIZE) := by
            intro i hi
            rw [← ht i hi, hpage2, hm1]
            rfl
          refine ends_bind_modify (((mappages_acc h2 hd (hlt.trans_le hsz) hx hx1 ht2 _).and
            (mappages_new hd (hlt.trans_le hsz) hs hm1 h1.inv _ _)).bind ?_)
          rintro ok k3 ⟨⟨htrue, hfalse⟩, -, husers, hmap, hhand⟩
          have hstep : (a + PGSIZE) / PGSIZE = a / PGSIZE + 1 := Nat.add_div_right a (by decide)
          cases ok
          · obtain ⟨hmod, havail2⟩ := hfalse rfl
            have havail2 : avail k1 = 0 := havail2
            refine ends_pure fun _ => .inl ⟨by omega, x, ?_, hhand rfl⟩
            exact h1.was_free (o := .single (.hand 0)) hnone trivial hx
          obtain ⟨h3, ht3, havail2⟩ := htrue rfl
          have havail2 : avail k1 = _ := havail2
          rw [setSingle_back (hs 0)] at h3
          refine ih _ h3 ?_ ?_ ?_
          · rw [hstep]
            exact hu.add husers (hmap rfl)
          · rw [hstep]
            exact ht3
          · rw [hstep, hN, havail1, havail2]
            split <;> omega
        · exact ends_stop
      · exact ends_stop
    · exact ends_pure (by simp)

/-- **`copyuvm`** that fails gives everything back iff the `kalloc` that fails is not one for a page
table. Otherwise a page is lost: the directory, or the page in hand. The slot `q` is not in use. -/
theorem copyuvm_acc {pgdir sz q : ℕ} (hsz : sz ≤ KERNBASE) (h : Acc True np k0 R0 k R)
    (hr : R.root .fresh = none) (hs : R.HandsFree)
    (hnone : ∀ o, Mine np o → R0.page k0.mem o = none) (hq : q ≠ np) :
    Ends (copyuvm pgdir sz) k fun r k' => r = none →
      if ¬(1 ≤ avail k ∧ avail k < 65) ∧ ¬(65 ≤ avail k ∧ (avail k - 65) % 1025 = 1) then
        Acc True np k0 R0 k' R
      else Lost np k0 R k' := by
  rw [copyuvm]
  refine ((setupkvm_acc h hr hs).and (setupkvm_spec h.inv hr hs)).bind ?_
  rintro (_ | d) k1 ⟨⟨hfail, hgot⟩, -, -, hspec⟩
  · refine ends_pure fun _ => ?_
    rcases hfail rfl with ⟨hav, h1⟩ | ⟨hav, d, h1⟩
    · rwa [if_pos (by omega)]
    · -- the directory stays behind
      rw [if_neg (by omega)]
      have hd : (R.setRoot .fresh (some d)).page k1.mem (.dir .fresh) = some d := by
        simp [page, setRoot]
      exact ⟨d, _, .dir .fresh, h1.was_free (o := .dir .fresh) hnone rfl hd, h1.inv,
        hd, by simp, rfl⟩
  obtain ⟨h1, ht1, havail⟩ := hgot d rfl
  have hroot := root_setRoot R .fresh (some d)
  refine (copyLoop_acc hsz hroot hs hnone (avail k1) _ 0 h1 (hspec d rfl).2.1 ht1 rfl).bind ?_
  rintro (_ | _) k2 hok
  · rcases hok rfl with ⟨hmod, x, hx, hi2⟩ | ⟨hmod, h2, m, hm, hu⟩
    · -- the page in hand is put aside while `freevm` runs
      have hi3 := hi2.hand_to (hs 0) (.kstack q)
      have hroot' : ((R.setRoot .fresh (some d)).setSingle (.kstack q) (some x)).root .fresh =
        some d :=
        hroot
      have hs' : ((R.setRoot .fresh (some d)).setSingle (.kstack q) (some x)).HandsFree := by
        intro n
        simpa [setSingle, setRoot] using hs n
      refine (freevm_spec hi3 hroot' hs').bind ?_
      rintro _ k3 ⟨hi4, -, -⟩
      refine ends_pure fun _ => ?_
      rw [if_neg (by omega)]
      refine ⟨x, _, .single (.kstack q), hx, hi4, ?_, by simpa using hq, ?_⟩
      · simp [page, setRoot, setSingle]
      · simp [setRoot, setSingle, hq.symm]
    · refine (freevm_acc h2 hroot hs fun _ => ⟨m, hm, hu⟩).allow.bind ?_
      intro _ k3 h3
      rw [setRoot_back hr] at h3
      refine ends_pure fun _ => ?_
      rwa [if_pos (by omega)]
  · exact ends_pure (by simp)

end Kmem

/-- What a `fork` works on: the pages, and the references to open files and inodes. -/
structure ForkSys where
  vm : VmSys
  nextpid : Int32
  pid : ℕ → Int32
  /-- `ofile[fd]` of each slot -/
  ofile : ℕ → ℕ → Option ℕ
  /-- `cwd` of each slot -/
  cwd : ℕ → ℕ
  /-- `f->ref` -/
  fref : ℕ → ℕ
  /-- `ip->ref` -/
  iref : ℕ → ℕ

namespace ForkSys

/-- `filedup` -/
def filedup (s : ForkSys) (f : ℕ) : Except Stop ForkSys :=
  if s.fref f < 1 then .error (.panic "filedup")
  else .ok { s with fref := update s.fref f (s.fref f + 1) }

/-- `idup` -/
def idup (s : ForkSys) (ip : ℕ) : ForkSys :=
  { s with iref := update s.iref ip (s.iref ip + 1) }

/-- One pass of the loop over the descriptors: `np->ofile[i] = filedup(proc->ofile[i])`. -/
def dupFile (s : ForkSys) (p np fd : ℕ) : Except Stop ForkSys :=
  match s.ofile p fd with
  | none => .ok s
  | some f =>
    match s.filedup f with
    | .ok s => .ok { s with
        ofile := update s.ofile np (update (s.ofile np) fd (some f)) }
    | .error e => .error e

/-- The rest of `fork` after `copyuvm`. -/
def forkFiles (s : ForkSys) (p np : ℕ) : Except Stop (ForkSys × Option Int32) :=
  match run (fun s => dupFile s p np) s (List.range NOFILE) with
  | .ok s =>
    let s := s.idup (s.cwd p)
    .ok ({ s with cwd := update s.cwd np (s.cwd p) }, some (s.pid np))
  | .error e => .error e

/-- `fork` of process `p`: the pid of the child, or nothing where it returns `-1`. -/
def fork (s : ForkSys) (p : ℕ) (oom : List Bool) : Except Stop (ForkSys × Option Int32) :=
  match s.vm.findSlot with
  | none => .ok (s, none)
  | some np =>
    let s := { s with pid := update s.pid np s.nextpid, nextpid := s.nextpid + 1 }
    match VmSys.forkMem (s.vm.proc p).pgdir (s.vm.proc p).sz
        { s.vm.km with oom := oom } with
    | .error e => .error e
    | .ok (r, km) =>
      let vm := { s.vm with km := km }
      match r with
      | .noStack => .ok ({ s with
          vm := vm.setProc np { vm.proc np with state := .unused, kstack := 0 } }, none)
      | .noMem => .ok ({ s with
          vm := vm.setProc np { vm.proc np with state := .unused, kstack := 0, pgdir := 0 } }, none)
      | .child kstack d => forkFiles { s with
          vm := vm.setProc np ⟨.alive, kstack, d, (vm.proc p).sz, some p⟩ } p np

/-- **The condition**: the first `kalloc` of the call that fails is not one for a page table. The
first two are for the kernel stack and the directory, then come 64 for the tables of the kernel
part; after that there is one for each page, and the second of each 1025 is for a table. -/
def NotForTable (s : ForkSys) (oom : List Bool) : Prop :=
  let n := Kmem.avail { s.vm.km with oom := oom }
  ¬(2 ≤ n ∧ n < 66) ∧ ¬(66 ≤ n ∧ (n - 66) % 1025 = 1)

instance (s : ForkSys) (oom : List Bool) : Decidable (s.NotForTable oom) :=
  inferInstanceAs (Decidable (_ ∧ _))

/-- The pages of a `fork` that fails. -/
theorem forkMem_acc {np cur sz q : ℕ} {k : Kmem} {R : Roots} (hsz : sz ≤ KERNBASE)
    (hi : PageInv k R NPAGES) (hs : R.HandsFree) (hnone : ∀ m o, Mine np o → R.page m o = none)
    (hq : q ≠ np) :
    Ends (VmSys.forkMem cur sz) k fun r k' => r = .noStack ∨ r = .noMem →
      if ¬(2 ≤ k.avail ∧ k.avail < 66) ∧ ¬(66 ≤ k.avail ∧ (k.avail - 66) % 1025 = 1) then
        Acc True np k R k' R
      else ∃ x ∈ k.free, x ∉ k'.free := by
  have hnp : R.single (.kstack np) = none := hnone k.mem (.single (.kstack np)) rfl
  have hr : R.root .fresh = none := hnone k.mem (.dir .fresh) rfl
  rw [VmSys.forkMem]
  refine ((Kmem.Acc.stable (A := True)).kalloc (.start np hi) (hs 0)).bind ?_
  rintro (_ | ks) k1 ⟨hm1, hfail, hgot⟩
  · obtain ⟨h1, hav⟩ := hfail rfl
    refine ends_pure fun _ => ?_
    rwa [if_pos (by omega)]
  obtain ⟨h1, havail⟩ := hgot ks rfl
  -- the page becomes the kernel stack of the slot
  have hks : (R.setSingle (.kstack np) (some ks)).single (.kstack np) = some ks := by
    simp [setSingle]
  have h2 : Acc True np k R k1 (R.setSingle (.kstack np) (some ks)) := by
    refine h1.swap (u := .single (.kstack np)) (v := .single (.hand 0))
      (h1.inv.hand_to (hs 0) (.kstack np)) rfl (.of_mem rfl rfl) rfl trivial hks
      (PageInv.page_setSingle_self ..) ?_ ?_ fun o ho1 ho2 => ?_
    · rw [PageInv.page_setSingle_of_ne _ _ (by simp)]
      exact hnp
    · rw [PageInv.page_setSingle_of_ne _ _ (by simp)]
      exact hs 0
    · rw [PageInv.page_setSingle_of_ne _ _ ho1, PageInv.page_setSingle_of_ne _ _ ho2]
  have hs1 : ∀ n, (R.setSingle (.kstack np) (some ks)).single (.hand n) = none := by
    intro n
    simpa [setSingle] using hs n
  refine (Kmem.copyuvm_acc hsz h2 hr hs1 (hnone k.mem) hq).bind ?_
  rintro (_ | d) k2 hfailed
  · have hcase := hfailed rfl
    refine Kmem.kfree_spec.bind ?_
    rintro _ _ rfl
    refine ends_pure fun _ => ?_
    split at hcase
    · rename_i h3
      rw [if_pos (by omega)]
      have hi3 := hcase.inv.free_hand hks
      have hpage := PageInv.page_freed (hcase.inv.not_isTable (o := .single (.kstack np)) hks
        (fun _ => by simp) fun _ _ => by simp)
      rw [setSingle_back hnp] at hi3
      refine hcase.release (v := .single (.kstack np)) hi3 rfl
        (.write (o := .single (.kstack np)) rfl hks rfl rfl) rfl hks hnp fun o ho => ?_
      rw [← PageInv.page_setSingle_of_ne (.kstack np) (some ks) ho, hpage]
    · -- the lost page is neither free nor the kernel stack
      rw [if_neg (by omega)]
      obtain ⟨x, R', o, hx, hi', ho, hne, hstack⟩ := hcase
      rw [hks] at hstack
      refine ⟨x, hx, ?_⟩
      show x ∉ ks :: k2.free
      intro hmem
      rcases List.mem_cons.mp hmem with rfl | hmem
      · exact hne (hi'.inj o (.single (.kstack np)) x ho hstack)
      · exact hi'.free o x ho hmem
  · exact ends_pure (by simp)

variable {s s' : ForkSys} {p : ℕ} {oom : List Bool}

theorem dupFile_vm {np fd : ℕ} (h : s.dupFile p np fd = .ok s') : s'.vm = s.vm := by
  unfold dupFile at h
  split at h
  · rw [Except.ok.inj h]
  rename_i f hf
  unfold filedup at h
  by_cases href : s.fref f < 1
  · rw [if_pos href] at h
    cases h
  · rw [if_neg href] at h
    rw [← Except.ok.inj h]

variable {r : Option Int32}

/-- The files leave the pages alone. -/
theorem forkFiles_vm {np : ℕ} (h : s.forkFiles p np = .ok (s', r)) : s'.vm = s.vm ∧ r ≠ none := by
  rw [forkFiles] at h
  split at h
  · rename_i t ht
    have hvm : t.vm = s.vm := run_invariant (P := fun (u : ForkSys) => u.vm = s.vm)
      (fun _ _ _ hu hs => (dupFile_vm hs).trans hu) rfl _ t ht
    obtain ⟨rfl, rfl⟩ := Prod.mk.inj (Except.ok.inj h)
    exact ⟨hvm, by simp⟩
  · cases h

/-- The pages are those of `VmSys.fork`. -/
theorem fork_vm (h : s.fork p oom = .ok (s', r)) : s.vm.fork p oom = .ok s'.vm := by
  rcases hslot : s.vm.findSlot with _ | np
  · rw [fork, hslot] at h
    rw [VmSys.fork, hslot]
    obtain ⟨rfl, rfl⟩ := Prod.mk.inj (Except.ok.inj h)
    rfl
  rw [fork, hslot] at h
  rw [VmSys.fork, hslot]
  dsimp only at h ⊢
  rw [VmSys.withMem]
  rcases hm : VmSys.forkMem (s.vm.proc p).pgdir (s.vm.proc p).sz
      { s.vm.km with oom := oom } with e | ⟨r, km⟩
  · rw [hm] at h
    cases h
  · rw [hm] at h
    dsimp only at h ⊢
    split at h
    · obtain ⟨rfl, rfl⟩ := Prod.mk.inj (Except.ok.inj h)
      rfl
    · obtain ⟨rfl, rfl⟩ := Prod.mk.inj (Except.ok.inj h)
      rfl
    · rw [(forkFiles_vm h).1]

/-- **A failed `fork` leaves no trace** iff there was no free slot, or the `kalloc` that failed is
not one for a page table: the same pages are free, every slot has the same state and parent, every
process its directory, and all reference counts are as before. Otherwise a page is lost. Every page
has one owner before the call. -/
theorem fork_no_trace (hi : s.vm.Inv) (hfork : s.fork p oom = .ok (s', none)) :
    ((∀ x, x ∈ s'.vm.km.free ↔ x ∈ s.vm.km.free) ∧
      (∀ q, (s'.vm.proc q).state = (s.vm.proc q).state ∧
        (s'.vm.proc q).parent = (s.vm.proc q).parent ∧
        ((s.vm.proc q).state ≠ .unused → (s'.vm.proc q).pgdir = (s.vm.proc q).pgdir)) ∧
      (∀ f, s'.fref f = s.fref f) ∧ ∀ ip, s'.iref ip = s.iref ip) ↔
    s.vm.findSlot = none ∨ s.NotForTable oom := by
  rw [fork] at hfork
  split at hfork
  · rename_i hslot
    obtain ⟨rfl, -⟩ := Prod.mk.inj (Except.ok.inj hfork)
    exact iff_of_true ⟨fun _ => Iff.rfl, fun _ => ⟨rfl, rfl, fun _ => rfl⟩, fun _ => rfl,
      fun _ => rfl⟩ (.inl hslot)
  rename_i np hnp
  have hunused : (s.vm.proc np).state = .unused := by simpa using List.find?_some hnp
  have hlt : np < NPROC := List.mem_range.mp (List.mem_of_find?_eq_some hnp)
  have hks : s.vm.roots.single (.kstack np) = none := if_neg fun hn => hn.2 hunused
  -- nothing is in use by the running code, before and after
  have hnone : ∀ m o, Mine np o → s.vm.roots.page m o = none := by
    intro m o ho
    cases o with
    | single k =>
      cases k with
      | hand n => rfl
      | kstack q =>
        obtain rfl : q = np := ho
        exact hks
      | pipe q => exact absurd ho id
    | dir h | tab h i | user h i j =>
      obtain rfl : h = .fresh := ho
      simp [page, VmSys.roots]
  have hpages := Kmem.pageInv_oom hi.pages oom
  -- a slot that stays free
  have hslot : ∀ (x : VmProc) (km : Kmem), x.state = .unused → x.parent = (s.vm.proc np).parent →
      ∀ q, ((VmSys.setProc { s.vm with km := km } np x).proc q).state = (s.vm.proc q).state ∧
        ((VmSys.setProc { s.vm with km := km } np x).proc q).parent = (s.vm.proc q).parent ∧
        ((s.vm.proc q).state ≠ .unused →
          ((VmSys.setProc { s.vm with km := km } np x).proc q).pgdir = (s.vm.proc q).pgdir) := by
    intro x km hx hpar q
    rcases eq_or_ne q np with rfl | hne
    · simp [VmSys.setProc, hx, hpar, hunused]
    · simp [VmSys.setProc, hne]
  dsimp only at hfork
  split at hfork
  · cases hfork
  rename_i r km hm
  have hacc := (forkMem_acc (hi.sz p).le hpages (fun _ => rfl) hnone hlt.ne').ok hm
  have hfree : r = .noStack ∨ r = .noMem →
      ((∀ x, x ∈ km.free ↔ x ∈ s.vm.km.free) ↔ s.vm.findSlot = none ∨ s.NotForTable oom) := by
    intro hr
    have hcase := hacc hr
    split at hcase
    · rename_i hcall
      exact iff_of_true (hcase.free_iff hpages hnone) (.inr hcall)
    · rename_i hcall
      obtain ⟨x, hx, hlost⟩ := hcase
      refine iff_of_false (fun hall => hlost ((hall x).mpr hx)) ?_
      rw [hnp]
      rintro (h | h)
      · cases h
      · exact hcall h
  split at hfork
  · obtain ⟨rfl, -⟩ := Prod.mk.inj (Except.ok.inj hfork)
    exact (and_iff_left ⟨hslot _ km rfl rfl, fun _ => rfl, fun _ => rfl⟩).trans (hfree (.inl rfl))
  · obtain ⟨rfl, -⟩ := Prod.mk.inj (Except.ok.inj hfork)
    exact (and_iff_left ⟨hslot _ km rfl rfl, fun _ => rfl, fun _ => rfl⟩).trans (hfree (.inr rfl))
  · exact absurd rfl (forkFiles_vm hfork).2

/-- A kernel that has just started. -/
def started : ForkSys where
  vm := VmSys.started
  nextpid := 2
  pid p := if p = 0 then 1 else 0
  ofile _ _ := none
  cwd _ := 1
  fref _ := 0
  iref _ := 1

/-- There is a page for the kernel stack, and none for the directory. -/
theorem fork_no_trace_dir : ∃ s', started.fork 0 [false, true] = .ok (s', none) ∧
    ∀ x, x ∈ s'.vm.km.free ↔ x ∈ started.vm.km.free := by
  obtain ⟨⟨s', r⟩, hs', hr⟩ := exists_ok_of_check
    (P := fun x : ForkSys × Option Int32 => x.2 = none)
    (x := started.fork 0 [false, true]) (by decide)
  obtain rfl : r = none := hr
  have hi : started.vm.Inv := (VmSys.inv_boot VmSys.boot_eq).1
  have hn : Kmem.avail { started.vm.km with oom := [false, true] } ≤ 1 := by
    rw [Kmem.avail, if_pos (by decide)]
    exact Nat.min_le_left ..
  exact ⟨s', hs', ((fork_no_trace hi hs').mpr (.inr ⟨by omega, by omega⟩)).1⟩

/-- With the third `kalloc` failing, the second page is lost. -/
theorem forkMem_third (cur sz : ℕ) {k : Kmem} {a b : ℕ} {rest : List ℕ}
    (hfree : k.free = a :: b :: rest) (hoom : k.oom = [false, false, true])
    (ha : ¬(a < k.kend ∨ NPAGES ≤ a)) :
    ∃ k', VmSys.forkMem cur sz k = .ok (.noMem, k') ∧ k'.free = a :: rest := by
  have h1 : Kmem.kalloc k = .ok (some a, { k with free := b :: rest, oom := [false, true] }) := by
    simp [Kmem.kalloc, hoom, hfree]
  have hkvm : ∃ k2, Kmem.setupkvm { k with free := b :: rest, oom := [false, true] } =
      .ok (none, k2) ∧ k2.free = rest ∧ k2.kend = k.kend := by
    refine ⟨{ k with free := rest, oom := [], mem := update k.mem b Bytes.zero }, ?_, rfl, rfl⟩
    obtain ⟨i, is, his⟩ : ∃ i is, Kmem.kmap = i :: is := ⟨512, _, rfl⟩
    rw [Kmem.setupkvm, his]
    rfl
  obtain ⟨k2, hk2, hfree2, hkend⟩ := hkvm
  have hcopy : Kmem.copyuvm cur sz { k with free := b :: rest, oom := [false, true] } =
      .ok (none, k2) := by
    rw [Kmem.copyuvm, Exec.bind_ok hk2]
    rfl
  have hkfree : Kmem.kfree a k2 = .ok ((), k2.freed a) := by
    rw [Kmem.kfree, hkend, if_neg ha]
  refine ⟨k2.freed a, ?_, by rw [Kmem.freed, hfree2]⟩
  rw [VmSys.forkMem, Exec.bind_ok h1]
  dsimp only
  rw [Exec.bind_ok hcopy]
  dsimp only
  rw [Exec.bind_ok hkfree]
  rfl

/-- **A page is lost**: there is a page for the kernel stack and one for the directory, but none for
the first page table. -/
theorem fork_leaks : ∃ s', started.fork 0 [false, false, true] = .ok (s', none) ∧
    ∃ x ∈ started.vm.km.free, x ∉ s'.vm.km.free := by
  obtain ⟨rest, hfree⟩ : ∃ rest, started.vm.km.free = 57275 :: 57274 :: rest := by
    have htake : started.vm.km.free.take 2 = [57275, 57274] := by decide
    exact ⟨started.vm.km.free.drop
      2, by rw [← List.take_append_drop 2 started.vm.km.free, htake]; rfl⟩
  have hnodup : started.vm.km.free.Nodup := (VmSys.inv_boot VmSys.boot_eq).1.pages.nodup
  have hslot : started.vm.findSlot = some 1 := by decide
  obtain ⟨k', hk', hfree'⟩ := forkMem_third (started.vm.proc 0).pgdir (started.vm.proc 0).sz
    (k := { started.vm.km with oom := [false, false, true] }) hfree rfl
    (by decide)
  have hfork : ∃ s', started.fork 0 [false, false, true] = .ok (s', none) ∧ s'.vm.km = k' := by
    rw [fork, hslot]
    dsimp only
    rw [hk']
    exact ⟨_, rfl, rfl⟩
  obtain ⟨s', hs', hkm⟩ := hfork
  refine ⟨s', hs', 57274, ?_, ?_⟩
  · rw [hfree]
    simp
  · rw [hfree] at hnodup
    rw [hkm, hfree']
    simp only [List.nodup_cons, List.mem_cons, not_or] at hnodup ⊢
    exact ⟨by decide, hnodup.2.1⟩

end ForkSys

end Xv6
