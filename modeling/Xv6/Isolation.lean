import Xv6.VmCalls
import Xv6.VmCopy

/-!
# Processes in user mode

Between two system calls a process runs in user mode: it stores to its memory, through the page
table that the kernel has set up. The calls and the stores of all processes interleave in any order.

* A store is checked by the hardware only (`Kmem.store`): where the page is not present, not open to
  the user or not writable, there is a page fault, and nothing is stored.
* `stores_isolated`: **no process can change what is not its own**.
-/

namespace Xv6

open Function Roots

namespace VmSys

variable {s s' : VmSys} {p va x : ℕ} {v : UInt8}

/-- A store of process `p`, which may try any address. -/
def store (s : VmSys) (p : ℕ) (va : UInt32) (v : UInt8) : Except Stop VmSys :=
  if p < NPROC ∧ (s.proc p).state = .alive then
    .ok { s with km := s.km.store (s.proc p).pgdir va v }
  else .error .blocked

/-- A call of the kernel, or a store of a process. -/
inductive UserEvent : Type where
  | call (e : VmEvent)
  | store (p : ℕ) (va : UInt32) (v : UInt8)

def userStep (s : VmSys) : UserEvent → Except Stop VmSys
  | .call e => s.step e
  | .store p va v => s.store p va v

/-- The condition on the calls. -/
def UserSane (s : VmSys) : UserEvent → Prop
  | .call e => s.Sane e
  | .store _ _ _ => True

/-- A store to a page that may be written changes a byte of it, and any other store nothing. -/
theorem store_ok {va : UInt32} (h : s.store p va v = .ok s') :
    (p < NPROC ∧ (s.proc p).state = .alive) ∧
      ((s' = s ∧ ∀ w, s.km.pte (s.proc p).pgdir va.toNat = some w →
          ¬((PTE_P w ∧ PTE_U w) ∧ Kmem.PTE_W w)) ∨
        ∃ x, s.km.userPage (s.proc p).pgdir va.toNat = some x ∧ s' = { s with km := { s.km with
          mem := update s.km.mem x ((s.km.mem x).splice (va.toNat % PGSIZE) [v]) } }) := by
  rw [store] at h
  split_ifs at h with hp
  cases h
  refine ⟨hp, ?_⟩
  rw [Kmem.store]
  rcases hw : s.km.pte (s.proc p).pgdir va.toNat with _ | w
  · exact .inl ⟨rfl, by simp⟩
  by_cases hopen : (PTE_P w ∧ PTE_U w) ∧ Kmem.PTE_W w
  · exact .inr ⟨ptePage w, Kmem.userPage_eq_some.mpr
      ⟨w, hw, hopen.1, rfl⟩, by simp only [if_pos hopen]⟩
  · refine .inl ⟨by simp only [if_neg hopen], fun w' hw' => ?_⟩
    obtain rfl := Option.some.inj hw'
    exact hopen

/-- Calls and stores keep every page with its owner. -/
theorem Inv.userStep (s s' : VmSys) (e : UserEvent) (hi : s.Inv) (hs : s.UserSane e)
    (h : s.userStep e = .ok s') : s'.Inv := by
  cases e with
  | call e => exact hi.step s s' e hs h
  | store p va v =>
    obtain ⟨⟨hp, hstate⟩, ⟨rfl, -⟩ | ⟨x, hx, rfl⟩⟩ := store_ok h
    · exact hi
    · have hown := Kmem.page_of_userPage hi.pages (roots_proc hp (by simp [hstate])) va.toNat_lt hx
      exact ⟨(Kmem.wrote_user hi.pages hown _).inv, hi.sz⟩

/-- **Processes are isolated.** Let the processes store to any addresses at any time between the
calls of the kernel, whose `exec`s meet `Sane`. Then a store changes no page but those that the
process has in its own part of the address space, and no page changes its use. Where the process may
write, the byte at the address gets the value; no other process reads anything else than before. -/
theorem stores_isolated {ncpu kend : ℕ} {mem : ℕ → Bytes PGSIZE} {init : List UInt8} {s0 : VmSys}
    {tr : List UserEvent} {va : UInt32} (hboot : boot ncpu kend mem init = .ok s0)
    (hsane : Meets userStep s0 UserSane tr) (hrun : run userStep s0 tr = .ok s)
    (hstore : s.store p va v = .ok s') :
    (∀ x, (∀ i j, s.roots.page s.km.mem (.user (.proc p) i j) ≠ some x) →
      s'.km.mem x = s.km.mem x) ∧
    s'.roots.page s'.km.mem = s.roots.page s.km.mem ∧
    (∀ w, s.km.pte (s.proc p).pgdir va.toNat = some w → (PTE_P w ∧ PTE_U w) ∧ Kmem.PTE_W w →
      s'.km.userByte (s.proc p).pgdir va.toNat = some v) ∧
    ∀ q < NPROC, q ≠ p → (s.proc q).state ≠ .unused → ∀ w < 2 ^ 32,
      s'.km.userByte (s.proc q).pgdir w = s.km.userByte (s.proc q).pgdir w := by
  have hi : s.Inv := hsane.invariant Inv.userStep (inv_boot hboot).1 hrun
  obtain ⟨⟨hp, hstate⟩, ⟨rfl, hclosed⟩ | ⟨x, hx, rfl⟩⟩ := store_ok hstore
  · exact ⟨fun _ _ => rfl, rfl, fun w hw h => absurd h (hclosed w hw), fun _ _ _ _ _ _ => rfl⟩
  have hva := va.toNat_lt
  have hlive : (s.proc p).state ≠ .unused := by simp [hstate]
  have hown := Kmem.page_of_userPage hi.pages (roots_proc hp hlive) hva hx
  have hnot : ¬s.roots.IsTable s.km.mem x :=
    hi.pages.not_isTable hown (fun _ => by simp) fun _ _ => by simp
  refine ⟨fun y hy => update_of_ne (fun h => hy _ _ (h ▸ hown)) _ _,
    (Kmem.wrote_user hi.pages hown _).page, fun w hw _ => ?_, fun q hq hne hs w hw => ?_⟩
  · rw [Kmem.userByte_eq_map, Kmem.userPage_congr (pte_update (roots_proc hp hlive) hnot hva _), hx]
    simp only [Option.map_some, update_self]
    exact congrArg some (Bytes.get_splice_of_mem (i := 0) (by simp) (Nat.mod_lt _ (by decide)))
  · rw [Kmem.userByte_eq_map, Kmem.userByte_eq_map,
      Kmem.userPage_congr (pte_update (roots_proc hq hs) hnot hw _)]
    refine Option.map_congr fun y hy => ?_
    have hyx : y ≠ x := by
      rintro rfl
      have hpage := hi.pages.inj _ _ _ hown
        (Kmem.page_of_userPage hi.pages (roots_proc hq hs) hw hy)
      injection hpage with hroot
      injection hroot with hpq
      exact hne hpq.symm
    simp [hyx]

/-- A process and its child, which cannot start a program for lack of memory, store to the same
address. -/
theorem stores_isolated_fork : ∃ s s', boot 0 256 (fun _ => Bytes.zero) [0] = .ok started ∧
    run userStep started [.call (.fork 0 []),
      .call (.exec 1 true (segments onePage) [[104, 105]] [true]), .store 1 5 1] = .ok s ∧
    s.store 0 5 2 = .ok s' ∧ s'.km.userByte (s.proc 1).pgdir 5 = some 1 := by
  obtain ⟨s, hs, hstate, hstate1, hbyte⟩ := exists_ok_of_check
    (P := fun s : VmSys => (s.proc 0).state = .alive ∧ (s.proc 1).state = .alive ∧
      s.km.userByte (s.proc 1).pgdir 5 = some 1)
    (x := run userStep started [.call (.fork 0 []),
      .call (.exec 1 true (segments onePage) [[104, 105]] [true]), .store 1 5 1])
        (by decide +kernel)
  have hsane : Meets userStep started UserSane [.call (.fork 0 []),
      .call (.exec 1 true (segments onePage) [[104, 105]] [true]), .store 1 5 1] := by
    refine .cons trivial fun s1 _ => .cons ?_ fun _ _ => .cons trivial fun _ _ => .nil
    intro _ h65
    have havail : Kmem.avail (s1.start [true]) ≤ 0 := by simp [Kmem.avail, start]
    omega
  have hstore : s.store 0 5 2 = .ok { s with km := s.km.store (s.proc 0).pgdir 5 2 } :=
    if_pos ⟨by decide, hstate⟩
  have hothers := (stores_isolated boot_eq hsane hs hstore).2.2.2 1 (by decide) (by decide)
    (by simp [hstate1])
  exact ⟨s, _, boot_eq, hs, hstore, (hothers 5 (by decide)).trans hbyte⟩

end VmSys

end Xv6
