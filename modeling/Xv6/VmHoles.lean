import Xv6.VmCalls

/-!
# User address spaces have no holes

A process has the pages below its size and no others (`VmSys.Full`). `fork` relies on it: `copyuvm`
panics where a page is missing. Two calls can break it:

* `growproc` to the size 0: `deallocuvm` returns the new size 0, which `growproc` takes for a
  failure. The pages are gone, and the process keeps the size it had.
* `allocuvm`, called by `growproc` and `exec`: it ignores a failure of `mappages`.

`VmSys.Careful` excludes both, and what `exec` does not check (see `Xv6.VmCalls`).

* `VmSys.fork_calm`: `fork` does not panic in `copyuvm`, where there are no holes.
* `VmSys.no_holes` is the result about every run.
* `VmSys.growproc_leaves_hole` is a run into a hole.
-/

namespace Xv6

open Exec Roots

/-- The computation does not panic as `copyuvm` does. -/
def Calm {α : Type} (m : Exec Stop Kmem α) (k : Kmem) : Prop := ∀ e, m k = .error e → ¬CopyPanic e

section Calm

variable {α β : Type} {k : Kmem} {m : Exec Stop Kmem α} {f : α → Exec Stop Kmem β} {Q : α →
  Kmem → Prop}

theorem Never.calm (hm : Never (fun e => ¬CopyPanic e) m) : Calm m k := fun _ he => (hm k).error he

theorem Calm.bind (hm : Calm m k) (hQ : Ends m k Q) (hf : ∀ a k', Q a k' → Calm (f a) k') :
    Calm (m >>= f) k := by
  intro e he
  rcases hk : m k with e' | ⟨a, k1⟩
  · rw [bind_error hk] at he
    exact Except.error.inj he ▸ hm e' hk
  · rw [bind_ok hk] at he
    exact hf a k1 (hQ.ok hk) e he

theorem Calm.of_gets {g : Kmem → α} (h : Calm (f (g k)) k) : Calm (Exec.gets g >>= f) k := h

theorem Calm.of_modify {g : Kmem → Kmem} {f : Unit → Exec Stop Kmem β} (h : Calm (f ()) (g k)) :
    Calm (Exec.modify g >>= f) k := h

end Calm

namespace Kmem

variable {k : Kmem} {R : Roots} {top d pgdir sz : ℕ} {h hp : Root}

section

variable {E : Stop → Prop}

theorem never_kalloc : Never E kalloc := by
  intro k
  rcases kalloc_cases k with ⟨hk, -⟩ | ⟨x, free, -, hk, -⟩
  · exact .of_ok hk trivial
  · exact .of_ok hk trivial

theorem never_mapKernel : ∀ is, Never E (mapKernel d is) := by
  intro is
  induction is with
  | nil => exact never_pure
  | cons i is ih =>
    refine never_kalloc.bind fun r => ?_
    cases r with
    | none => exact never_pure
    | some t => exact never_modify.bind fun _ => never_modify.bind fun _ => ih

theorem never_setupkvm : Never E setupkvm := by
  refine never_kalloc.bind fun r => ?_
  cases r with
  | none => exact never_pure
  | some d =>
    exact never_modify.bind fun _ => (never_mapKernel kmap).bind fun _ => never_pure.ite never_pure

end

theorem never_mappages (va x perm : ℕ) : Never (fun e => ¬CopyPanic e) (mappages d va x perm) := by
  refine Never.bind (never_gets.bind fun w => never_pure.ite (never_kalloc.bind fun r => ?_))
    fun r => ?_
  · cases r with
    | none => exact never_pure
    | some t => exact never_modify.bind fun _ => never_modify.bind fun _ => never_pure
  · rcases r with _ | ⟨t, j⟩
    · exact never_pure
    · exact never_gets.bind fun w =>
        (never_stop (by simp [CopyPanic])).ite (never_modify.bind fun _ => never_pure)

/-- The loop of `copyuvm` finds every page of the parent. -/
theorem copyLoop_calm (hsz : sz ≤ KERNBASE) (hpd : R.root hp = some pgdir) (hd : R.root h = some d)
    (hne : hp ≠ h) (hs : R.HandsFree) : ∀ (n a : ℕ) {k : Kmem},
      PageInv k R top → Upto R k hp (npages sz) → Calm (copyLoop pgdir d sz n a) k := by
  intro n
  induction n with
  | zero => exact fun _ _ _ _ => never_pure.calm
  | succ n ih =>
    intro a k hi hm
    rw [copyLoop]
    split
    · rename_i hlt
      refine (never_walkpgdir a).calm.bind (walkpgdir_mapped (hm.mapped hsz) hpd hlt) ?_
      rintro _ _ ⟨rfl, t, rfl, hpte, -⟩
      refine Calm.of_gets ?_
      obtain ⟨w, hw⟩ : ∃ w, w = k.word t (PTX a) := ⟨_, rfl⟩
      rw [← hw] at hpte ⊢
      rw [if_pos hpte]
      refine never_kalloc.calm.bind (kalloc_spec hi 0) ?_
      rintro (_ | x) k1 ⟨hm1, -, hgot⟩
      · exact never_pure.calm
      refine Calm.of_modify ((never_mappages _ _ _).calm.bind
        (mappages_new hd (hlt.trans_le hsz) hs hm1 (hgot x rfl) _ (w % PGSIZE)) ?_)
      rintro ok k3 ⟨hi3, hu3, -⟩
      cases ok
      · exact never_pure.calm
      · exact ih _ hi3 (hm.congr rfl fun i j => hu3 hp i j fun hc => hne hc.1)
    · exact never_pure.calm

/-- **`copyuvm`** does not panic where there are no holes. -/
theorem copyuvm_calm (hsz : sz ≤ KERNBASE) (hi : PageInv k R top) (hpd : R.root hp = some pgdir)
    (hr : R.root .fresh = none) (hs : R.HandsFree)
    (hm : Upto R k hp (npages sz)) : Calm (copyuvm pgdir sz) k := by
  have hne : hp ≠ .fresh := by
    rintro rfl
    rw [hr] at hpd
    cases hpd
  rw [copyuvm]
  refine never_setupkvm.calm.bind (setupkvm_spec hi hr hs) ?_
  rintro (_ | d) k1 ⟨hu1, -, hgot⟩
  · exact never_pure.calm
  have hroot := root_setRoot R .fresh (some d)
  have hpd1 : (R.setRoot .fresh (some d)).root hp = some pgdir := by simpa [setRoot, hne] using hpd
  obtain ⟨hi1, -⟩ := hgot d rfl
  have hm1 : Upto (R.setRoot .fresh (some d)) k1 hp (npages sz) :=
    hm.congr (hpd1.trans hpd.symm) fun i j => hu1 hp i j id
  refine (copyLoop_calm hsz hpd1 hroot hne hs _ _ hi1 hm1).bind
    (copyLoop_spec hsz hroot hs _ _ hi1) fun ok k2 _ => ?_
  cases ok
  · exact ((never_freevm.allow fun _ h => h.2).bind fun _ => never_pure).calm
  · exact never_pure.calm

end Kmem

namespace VmSys

variable {s : VmSys} {p : ℕ}

/-- **`fork`** does not panic in `copyuvm`. -/
theorem fork_calm (hi : s.Inv) (hf : s.Full) {oom : List Bool} {e : Stop}
    (h : s.step (.fork p oom) = .error e) : ¬CopyPanic e := by
  rw [VmSys.step] at h
  split at h
  · rename_i hp
    have hused : (s.proc p).state ≠ .unused := by simp [hp.2]
    rw [VmSys.fork] at h
    split at h
    · cases h
    rename_i np hnp
    have hunused : (s.proc np).state = .unused := by simpa using List.find?_some hnp
    rw [withMem] at h
    split at h
    · split at h <;> cases h
    rename_i e' he'
    cases h
    refine Calm.bind (m := Kmem.kalloc) Kmem.never_kalloc.calm
      (Kmem.kalloc_spec (Kmem.pageInv_oom hi.pages oom) 0) ?_ e he'
    rintro (_ | ks) k1 ⟨hm1, -, hgot⟩
    · exact never_pure.calm
    have hi1 := (hgot ks rfl).hand_to rfl (.kstack np)
    have hs1 : ∀ n, (s.roots.setSingle (.kstack np) (some ks)).single (.hand n) = none := by
      intro n
      simp [setSingle, roots]
    have hupto : Kmem.Upto (s.roots.setSingle (.kstack np) (some ks)) k1 (.proc p)
        (Kmem.npages (s.proc p).sz) :=
      (hf p hp.1 hused).congr rfl fun i j => by rw [hm1]
    have hroot : (s.roots.setSingle (.kstack np) (some ks)).root (.proc p) =
        some (s.proc p).pgdir := roots_proc hp.1 hused
    refine (Kmem.copyuvm_calm (hi.sz p).le hi1 hroot rfl hs1 hupto).bind
      (Kmem.copyuvm_spec (hi.sz p).le hi1 rfl hs1) fun r k2 _ => ?_
    cases r with
    | none => exact (((Kmem.never_kfree ks).allow fun _ h => h.2).bind fun _ => never_pure).calm
    | some d => exact never_pure.calm
  · rw [← Except.error.inj h]
    simp [CopyPanic]

theorem Careful.sane {e : VmEvent} (h : s.Careful e) : s.Sane e := by
  cases e with
  | growproc => trivial
  | fork | exec | exit | wait | pipealloc | pipeclose => exact h

/-- Page `va` of process `p` is present in its page table. -/
def present (s : VmSys) (p va : ℕ) : Prop :=
  s.roots.page s.km.mem (.user (.proc p) (PDX va) (PTX va)) ≠ none

instance (s : VmSys) (p va : ℕ) : Decidable (s.present p va) := inferInstanceAs (Decidable (_ ≠ _))

/-- **No holes**: in every state that the kernel reaches by calls that meet `Careful`, whatever
calls of `kalloc` fail, a live process has all pages below `PGROUNDUP(sz)` and no user page above;
`allocuvm`, unless it misses a page table, returns a new size only with all pages below it mapped;
and `fork` does not reach the panics of `copyuvm`. -/
theorem no_holes {ncpu kend : ℕ} {mem : ℕ → Bytes PGSIZE} {init : List UInt8} {s0 : VmSys}
    {tr : List VmEvent} (hboot : boot ncpu kend mem init = .ok s0)
    (hcare : Meets VmSys.step s0 Careful tr) (hrun : run VmSys.step s0 tr = .ok s) :
    (∀ p < NPROC, (s.proc p).state = .alive → ∀ va < KERNBASE,
      s.present p va ↔ va < PGROUNDUP (s.proc p).sz) ∧
    (∀ p < NPROC, (s.proc p).state = .alive → ∀ newsz oom r km, s.TablesOk p newsz oom →
      Kmem.allocuvm (s.proc p).pgdir (s.proc p).sz newsz (s.start oom) = .ok (r, km) →
      r ≠ 0 → ∀ va < r, present { s with km := km } p va) ∧
    ∀ p oom e, s.step (.fork p oom) = .error e → ¬CopyPanic e := by
  obtain ⟨hi, hf⟩ : s.Inv ∧ s.Full := hcare.invariant (P := fun s => s.Inv ∧ s.Full)
    (fun s s' e hs hc he => (hs.1.call s s' e hc.sane he).imp_right fun h => h hc hs.2)
    (inv_boot hboot) hrun
  have hpg := PGSIZE_eq
  refine ⟨fun p hp hs va hva => ?_, fun p hp hs newsz oom r km hfit hm hr va hva => ?_,
    fun p oom e => fork_calm hi hf⟩
  · have hused : (s.proc p).state ≠ .unused := by simp [hs]
    refine (hf p hp hused (PDX va) (Kmem.PDX_user hva) (PTX va) Kmem.PTX_lt).trans ?_
    rw [Kmem.page_number, Kmem.npages, PGROUNDUP, hpg]
    omega
  · have hused : (s.proc p).state ≠ .unused := by simp [hs]
    have hpages := Kmem.pageInv_oom hi.pages oom
    obtain ⟨-, -, hsz⟩ := (Kmem.allocuvm_spec (fun _ => hi.sz p) (roots_proc hp hused)
      (fun _ => rfl) hpages).ok hm
    have hall := (Kmem.allocuvm_upto hpages (roots_proc hp hused) (fun _ => rfl) (hf p hp hused)
      hfit).ok hm
    rw [if_neg hr] at hall
    obtain ⟨x, hx⟩ := hall.mapped (hsz.resolve_left hr).2.le va hva
    exact fun hn => by cases hx.symm.trans hn

/-- **`growproc` leaves a hole**: the first process, which has one page, gives it up by
`sbrk(-4096)`. It keeps its size, and its next `fork` panics. -/
theorem growproc_leaves_hole : ∃ s0 s : VmSys, boot 0 256 (fun _ => Bytes.zero) [0] = .ok s0 ∧
    run VmSys.step s0 [.growproc 0 (-4096) []] = .ok s ∧ (s.proc 0).state = .alive ∧
    0 < PGROUNDUP (s.proc 0).sz ∧ ¬s.present 0 0 ∧
    s.step (.fork 0 []) = .error (.panic "copyuvm: page not present") := by
  obtain ⟨s, hs, hstate, hsz, hpage, hfork⟩ := exists_ok_of_check
    (P := fun s : VmSys => (s.proc 0).state = .alive ∧ 0 < PGROUNDUP (s.proc 0).sz ∧
      ¬s.present 0 0 ∧ stopsWith (.panic "copyuvm: page not present") (s.step (.fork 0 [])) = true)
    (x := run VmSys.step started [.growproc 0 (-4096) []]) (by decide +kernel)
  exact ⟨started, s, boot_eq, hs, hstate, hsz, hpage, eq_error_of_stopsWith hfork⟩

/-- The first process grows by a page, and forks. -/
theorem no_holes_sbrk : ∃ s0 s : VmSys, boot 0 256 (fun _ => Bytes.zero) [0] = .ok s0 ∧
    run VmSys.step s0 [.growproc 0 4096 [], .fork 0 []] = .ok s ∧ (s.proc 1).state = .alive ∧
    (s.proc 1).sz = 8192 ∧ s.present 1 4096 ∧ ¬s.present 1 8192 := by
  obtain ⟨s, hs, hstate, hsz⟩ := exists_ok_of_check
    (P := fun s : VmSys => (s.proc 1).state = .alive ∧ (s.proc 1).sz = 8192)
    (x := run VmSys.step started [.growproc 0 4096 [], .fork 0 []]) (by decide +kernel)
  have hcare : Meets VmSys.step started Careful [.growproc 0 4096 [], .fork 0 []] := by
    refine .cons ⟨fun _ _ _ j hj hmod => ?_, by decide⟩ fun _ _ => .cons trivial fun _ _ => .nil
    have h1 : Kmem.npages (started.proc 0).sz = 1 := rfl
    have h2 : Kmem.npages (((started.proc 0).sz + (4096 : ℤ)) % 2 ^ 32).toNat = 2 := rfl
    omega
  have hpages := (no_holes boot_eq hcare hs).1 1 (by decide) hstate
  rw [hsz] at hpages
  exact ⟨started, s, boot_eq, hs, hstate, hsz, (hpages 4096 (by decide)).mpr (by decide),
    fun h => absurd ((hpages 8192 (by decide)).mp h) (by decide)⟩

end VmSys

end Xv6
