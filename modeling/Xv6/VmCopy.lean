import Xv6.Sbrk

/-!
# `copyout` and `copyuvm`

The two functions that copy bytes into pages they find through a page table.

* `copyout` writes a buffer to user addresses, page by page. It is exact: it fails exactly when a
  page of the range is not open to the user, and writes the bytes of the range and no others, as
  long as it never comes to a page without a page table (`NoMissing`), which `uva2ka` does not test
  for.
* `copyuvm` makes a copy of an address space: the same bytes with the same flags in pages that were
  free, so that what one process writes the other does not see.
-/

namespace Xv6

open Function List

open Exec Roots

namespace Kmem

variable {k k' : Kmem} {R : Roots} {d va : ℕ}

/-! ## Pages of the user -/

/-- The page at `va`, if the user may use it. -/
def userPage (k : Kmem) (d va : ℕ) : Option ℕ :=
  (k.pte d va).bind fun w => if PTE_P w ∧ PTE_U w then some (ptePage w) else none

theorem userPage_eq_some {x : ℕ} : k.userPage d va = some x ↔
    ∃ w, k.pte d va = some w ∧ (PTE_P w ∧ PTE_U w) ∧ ptePage w = x := by
  rw [userPage]
  rcases k.pte d va with _ | w
  · simp
  · simp

theorem userByte_eq_map :
    k.userByte d va = (k.userPage d va).map fun x => (k.mem x).get (va % PGSIZE) := by
  rw [userByte, userPage]
  rcases k.pte d va with _ | w
  · rfl
  · by_cases hw : PTE_P w ∧ PTE_U w <;> simp [hw]

variable {v : ℕ}

theorem userPage_congr (hp : k'.pte d v = k.pte d va) : k'.userPage d v = k.userPage d va := by
  rw [userPage, userPage, hp]

/-- The page that the user may use at an address is a page of the address space: the kernel part is
closed to the user. -/
theorem page_of_userPage {h : Root} {x : ℕ} (hi : PageInv k R NPAGES) (hd : R.root h = some d)
    (hva : va < 2 ^ 32) (hx : k.userPage d va = some x) :
    R.page k.mem (.user h (PDX va) (PTX va)) = some x := by
  obtain ⟨w, hw, hopen, rfl⟩ := userPage_eq_some.mp hx
  rcases Nat.lt_or_ge (PDX va) 512 with h5 | h5
  · have hlow : va < KERNBASE := by
      have hk : KERNBASE = 0x80000000 := rfl
      have hp := PGSIZE_eq
      rw [PDX, show NPTENTRIES = 1024 from rfl, hp] at h5
      omega
    obtain ⟨-, -, -, hpage⟩ := page_of_pte hd hlow hw
    exact hpage hopen.1
  · obtain ⟨t, ht, rfl⟩ := Option.map_eq_some_iff.mp hw
    have hkern := hi.kern h _ t (tab_eq_some.mpr ⟨PDX_lt hva, d, hd, ht⟩) h5
    rw [word, hkern] at hopen
    exact absurd hopen.2 (not_PTE_U_kernelTable PTX_lt)

theorem pte_page (hv : v / PGSIZE = va / PGSIZE) : k.pte d v = k.pte d va := by
  obtain ⟨h1, h2⟩ := same_page hv
  rw [pte, pte, h1, h2]

/-- **The pages of the user are apart**: no page is at two places, and none is a directory or a page
table of this address space. -/
structure Apart (k : Kmem) (d : ℕ) : Prop where
  inj : ∀ v < 2 ^ 32, ∀ v' < 2 ^ 32, ∀ x, k.userPage d v = some x → k.userPage d v' = some x →
    v / PGSIZE = v' / PGSIZE
  dir : ∀ v < 2 ^ 32, k.userPage d v ≠ some d
  tab : ∀ v < 2 ^ 32, ∀ v' < 2 ^ 32, ∀ x, k.userPage d v = some x → ent k.mem d (PDX v') ≠ some x

/-- Writing to a page of the user changes no entry. -/
theorem Apart.pte_write {v x : ℕ} (ha : Apart k d) (hv : v < 2 ^ 32) (hx : k.userPage d v = some x)
    (hva : va < 2 ^ 32) (b : Bytes PGSIZE) :
    Kmem.pte { k with mem := update k.mem x b } d va = k.pte d va := by
  have hdx : d ≠ x := by
    rintro rfl
    exact ha.dir v hv hx
  refine pte_congr (ent_update_ne hdx _) fun t ht => ?_
  have htx : t ≠ x := by
    rintro rfl
    exact ha.tab v hv va hva t hx ht
  exact congrArg (Bytes.u32 · _) (update_of_ne htx ..)

theorem Apart.of_pte (ha : Apart k d) (hpte : ∀ v < 2 ^ 32, k'.pte d v = k.pte d v)
    (hent : ∀ v < 2 ^ 32, ent k'.mem d (PDX v) = ent k.mem d (PDX v)) : Apart k' d := by
  have huser : ∀ v < 2 ^ 32, k'.userPage d v = k.userPage d v :=
    fun v hv => userPage_congr (hpte v hv)
  refine ⟨fun v hv v' hv' x hx hx' => ?_, fun v hv hx => ?_, fun v hv v' hv' x hx hx' => ?_⟩
  · rw [huser v hv] at hx
    rw [huser v' hv'] at hx'
    exact ha.inj v hv v' hv' x hx hx'
  · rw [huser v hv] at hx
    exact ha.dir v hv hx
  · rw [huser v hv] at hx
    rw [hent v' hv'] at hx'
    exact ha.tab v hv v' hv' x hx hx'

/-! ## `copyout` -/

/-- `uva2ka` where there is a page table. -/
theorem uva2ka_eq (cur : ℕ) (h : k.pte d va ≠ none) :
    uva2ka cur d va k = .ok (k.userPage d va, k) := by
  obtain ⟨w, hw⟩ := Option.ne_none_iff_exists'.mp h
  obtain ⟨t, ht, rfl⟩ := Option.map_eq_some_iff.mp hw
  have hwalk : walkpgdir d va false k = .ok (some (t, PTX va), k) := by rw [walkpgdir_eq, ht]; rfl
  have hpte : uvaPte cur d va k = .ok (k.word t (PTX va), k) := by
    rw [uvaPte, Exec.bind_ok hwalk]
    rfl
  rw [uva2ka, Exec.bind_ok hpte, userPage, hw, Option.bind_some]
  split <;> rfl

/-- **No page table is missing** where `copyout` looks: at the first page of the range, and at each
one after pages that are open to the user. -/
def NoMissing (k : Kmem) (d va len : ℕ) : Prop :=
  ∀ v, va ≤ v → v < va + len → (∀ u, va ≤ u → u < v → k.userPage d u ≠ none) → k.pte d v ≠ none

/-- What `copyout` of `bytes` to `va` has done when it returns. -/
structure CopiedOut (d va : ℕ) (bytes : List UInt8) (k : Kmem) (ok : Bool) (k' : Kmem) : Prop where
  ok_iff : ok = true ↔ ∀ v, va ≤ v → v < va + bytes.length → k.userPage d v ≠ none
  pte : ∀ v < 2 ^ 32, k'.pte d v = k.pte d v
  byte : ok = true → ∀ i (hi : i < bytes.length), k'.userByte d (va + i) = some bytes[i]
  other : ∀ y b, (∀ v, va ≤ v → v < va + bytes.length → k.userPage d v = some y → v % PGSIZE ≠ b) →
    (k'.mem y).get b = (k.mem y).get b

/-- The page at `va` with the first bytes in it. -/
def copiedPage (k : Kmem) (x va : ℕ) (bytes : List UInt8) : Kmem :=
  { k with
    mem := update k.mem x ((k.mem x).splice (va % PGSIZE) (bytes.take (PGSIZE - va % PGSIZE))) }

/-- The first page and the rest. -/
theorem CopiedOut.page {x : ℕ} {bytes : List UInt8} {ok : Bool} (ha : Apart k d)
    (hx : k.userPage d va = some x) (hlen : 0 < bytes.length) (hend : va + bytes.length ≤ 2 ^ 32)
    (hc : CopiedOut d (va + (PGSIZE - va % PGSIZE)) (bytes.drop (PGSIZE - va % PGSIZE))
      (k.copiedPage x va bytes) ok k') : CopiedOut d va bytes k ok k' := by
  have hp := PGSIZE_eq
  obtain ⟨room, hroom⟩ : ∃ room, room = PGSIZE - va % PGSIZE := ⟨_, rfl⟩
  have hr : room = 4096 - va % 4096 := hroom
  rw [← hroom] at hc
  have hva : va < 2 ^ 32 := by omega
  have hpte : ∀ v < 2 ^ 32, (k.copiedPage x va bytes).pte d v = k.pte d v :=
    fun v hv => ha.pte_write hva hx hv _
  have huser : ∀ v < 2 ^ 32, (k.copiedPage x va bytes).userPage d v = k.userPage d v :=
    fun v hv => userPage_congr (hpte v hv)
  -- the addresses of the first page
  have hfirst : ∀ v, va ≤ v → v < va + room → k.userPage d v = some x := by
    intro v h1 h2
    rw [← hx]
    refine userPage_congr (pte_page ?_)
    rw [hp]
    omega
  have hlater : ∀ v, va + room ≤ v → v < va + bytes.length → k.userPage d v ≠ some x := by
    intro v h1 h2 hv
    have := ha.inj v (by omega) va hva x hv hx
    rw [hp] at this
    omega
  have hself : (k.copiedPage x va bytes).mem x =
      (k.mem x).splice (va % PGSIZE) (bytes.take room) := by
    rw [hroom]
    exact update_self ..
  have hdrop : (bytes.drop room).length = bytes.length - room := length_drop
  have htake : (bytes.take room).length = min room bytes.length := length_take
  refine ⟨hc.ok_iff.trans ⟨fun hall v h1 h2 => ?_, fun hall v h1 h2 => ?_⟩,
    fun v hv => (hc.pte v hv).trans (hpte v hv), fun hok i hi => ?_, fun y b hout => ?_⟩
  · rcases lt_or_ge v (va + room) with hlt | hge
    · rw [hfirst v h1 hlt]
      simp
    · rw [← huser v (by omega)]
      exact hall v hge (by omega)
  · rw [huser v (by omega)]
    exact hall v (by omega) (by omega)
  · rcases lt_or_ge i room with hlt | hge
    · have hpage : k'.userPage d (va + i) = some x :=
        (userPage_congr ((hc.pte _ (by omega)).trans (hpte _ (by omega)))).trans
          (hfirst _ (by omega) (by omega))
      have hmod : (va + i) % PGSIZE = va % PGSIZE + i := by
        rw [hp]
        omega
      rw [userByte_eq_map, hpage, Option.map_some,
        hc.other x _ fun v h1 h2 hv => absurd ((huser v (by omega)).symm.trans hv)
          (hlater v h1 (by omega)), hmod, hself]
      have hbound : va % PGSIZE + i < PGSIZE := by
        rw [hp]
        omega
      rw [Bytes.get_splice_of_mem (by omega) hbound, getElem_take]
    · have hbyte := hc.byte hok (i - room) (by omega)
      rw [getElem_drop] at hbyte
      rw [show va + i = va + room + (i - room) by omega, hbyte]
      simp only [Nat.add_sub_cancel' hge]
  · rw [hc.other y b fun v h1 h2 hv => hout v (by omega) (by omega) ((huser v (by omega)) ▸ hv)]
    by_cases hyx : y = x
    · subst hyx
      have hbout : b < va % PGSIZE ∨ va % PGSIZE + (bytes.take room).length ≤ b := by
        by_contra hc
        have h1 : va ≤ va + (b - va % PGSIZE) := Nat.le_add_right ..
        refine hout (va + (b - va % PGSIZE)) h1 (by omega) (hfirst _ h1 (by omega)) ?_
        rw [hp] at hc ⊢
        omega
      rw [hself]
      rcases hbout with hb | hb
      · exact Bytes.get_splice_of_lt hb
      · exact Bytes.get_splice_of_ge hb
    · exact congrArg (Bytes.get · _) (update_of_ne hyx ..)

/-- **The loop of `copyout`.** -/
theorem copyoutLoop_exact : ∀ (n va : ℕ) (bytes : List UInt8) {k : Kmem}, Apart k d →
    va + bytes.length ≤ 2 ^ 32 → bytes.length ≤ n → NoMissing k d va bytes.length →
    ∃ ok k', (∀ cur, copyoutLoop cur d n va bytes k = .ok (ok, k')) ∧
      CopiedOut d va bytes k ok k' := by
  have hp := PGSIZE_eq
  -- nothing is left
  have hnil : ∀ (va : ℕ) (k : Kmem), CopiedOut d va [] k true k := fun va k =>
    ⟨iff_of_true rfl fun v h1 h2 => absurd h2 h1.not_gt, fun _ _ => rfl, fun _ => by simp,
      fun _ _ _ => rfl⟩
  intro n
  induction n with
  | zero =>
    intro va bytes k _ _ hn _
    obtain rfl := length_eq_zero_iff.mp (Nat.le_zero.mp hn)
    exact ⟨true, k, fun _ => rfl, hnil va k⟩
  | succ n ih =>
    intro va bytes k ha hend hn hmiss
    rcases hb : bytes with _ | ⟨c, cs⟩
    · exact ⟨true, k, fun _ => rfl, hnil va k⟩
    rw [← hb]
    have hlen : 0 < bytes.length := by simp [hb]
    have hva : va < 2 ^ 32 := by omega
    have hpage : va / PGSIZE * PGSIZE / PGSIZE = va / PGSIZE := Nat.mul_div_cancel _ (by decide)
    have hpte : k.pte d (va / PGSIZE * PGSIZE) = k.pte d va := pte_page hpage
    have hpres : k.pte d va ≠ none := hmiss va le_rfl (by omega) fun u h1 h2 => absurd h2 h1.not_gt
    have hstep := fun cur => copyoutLoop_succ (ne_nil_of_length_pos hlen) cur d n va
    have huva : ∀ cur, uva2ka cur d (va / PGSIZE * PGSIZE) k = .ok (k.userPage d va, k) := by
      intro cur
      rw [uva2ka_eq cur (by rwa [hpte]), userPage_congr hpte]
    rcases hx : k.userPage d va with _ | x
    · refine ⟨false, k, fun cur => ?_, ?_⟩
      · rw [hstep, Exec.bind_ok (huva cur), hx]
        rfl
      · exact ⟨iff_of_false (by simp) fun hall => hall va le_rfl (by omega) hx,
          fun _ _ => rfl, by simp, fun _ _ _ => rfl⟩
    have hroom : 0 < PGSIZE - va % PGSIZE := Nat.sub_pos_of_lt (Nat.mod_lt _ (by decide))
    have hdrop : (bytes.drop (PGSIZE - va % PGSIZE)).length =
      bytes.length - (PGSIZE - va % PGSIZE) := length_drop
    have hpte1 : ∀ v < 2 ^ 32, (k.copiedPage x va bytes).pte d v = k.pte d v :=
      fun v hv => ha.pte_write hva hx hv _
    have ha1 : Apart (k.copiedPage x va bytes) d := by
      refine ha.of_pte hpte1 fun v hv => ent_update_ne ?_ _
      rintro rfl
      exact ha.dir va hva hx
    -- the rest of the bytes
    obtain ⟨ok, k', hrest, hc⟩ : ∃ ok k', (∀ cur, copyoutLoop cur d n
        ((va / PGSIZE * PGSIZE + PGSIZE) % 2 ^ 32) (bytes.drop (PGSIZE - va % PGSIZE))
        (k.copiedPage x va bytes) = .ok (ok, k')) ∧
        CopiedOut d (va + (PGSIZE - va % PGSIZE)) (bytes.drop (PGSIZE - va % PGSIZE))
          (k.copiedPage x va bytes) ok k' := by
      by_cases hdone : bytes.drop (PGSIZE - va % PGSIZE) = []
      · rw [hdone]
        refine ⟨true, _, fun cur => ?_, hnil ..⟩
        cases n <;> rfl
      have hpos := length_pos_of_ne_nil hdone
      have hnext : (va / PGSIZE * PGSIZE + PGSIZE) % 2 ^ 32 = va + (PGSIZE - va % PGSIZE) := by
        rw [hp] at hdrop hpos ⊢
        omega
      rw [hnext]
      refine ih _ _ ha1 (by omega) (by omega) fun v h1 h2 hall => ?_
      rw [hpte1 v (by omega)]
      refine hmiss v (by omega) (by omega) fun u h3 h4 => ?_
      rcases lt_or_ge u (va + (PGSIZE - va % PGSIZE)) with hlt | hge
      · rw [userPage_congr (pte_page (?_ : u / PGSIZE = va / PGSIZE)), hx]
        · simp
        · rw [hp] at hlt ⊢
          omega
      · rw [← userPage_congr (hpte1 u (by omega))]
        exact hall u hge h4
    refine ⟨ok, k', fun cur => ?_, hc.page ha hx hlen hend⟩
    rw [hstep, Exec.bind_ok (huva cur), hx]
    exact hrest cur

/-- `uva2ka` faults without a page table, if the process that runs has none for address 0. -/
theorem uva2ka_null {c : ℕ} (hnull : ent k.mem c 0 = none) (h : k.pte d va = none) :
    uva2ka c d va k = .error .nullDeref := by
  have hnone : ent k.mem d (PDX va) = none := Option.map_eq_none_iff.mp h
  have hwalk : walkpgdir d va false k = .ok (none, k) := by rw [walkpgdir_eq, hnone]; rfl
  have hwalk0 : walkpgdir c 0 false k = .ok (none, k) := by
    rw [walkpgdir_eq, show PDX 0 = 0 from rfl, hnull]
    rfl
  refine Exec.bind_error ?_
  rw [uvaPte, Exec.bind_ok hwalk]
  exact Exec.bind_ok hwalk0

/-- **A missing page table is dereferenced**, at the latest where `NoMissing` fails. -/
theorem copyoutLoop_null {c : ℕ} : ∀ (n va : ℕ) (bytes : List UInt8) {k : Kmem}, Apart k d →
    va + bytes.length ≤ 2 ^ 32 → bytes.length ≤ n → ent k.mem c 0 = none →
    (∀ v < 2 ^ 32, k.userPage d v ≠ some c) → ¬NoMissing k d va bytes.length →
    copyoutLoop c d n va bytes k = .error .nullDeref := by
  have hp := PGSIZE_eq
  intro n
  induction n with
  | zero =>
    intro va bytes k _ _ hn _ _ hmiss
    exact absurd (fun v h1 h2 => by omega) hmiss
  | succ n ih =>
    intro va bytes k ha hend hn hnull hc hmiss
    have hlen : 0 < bytes.length := by
      by_contra h0
      exact hmiss fun v h1 h2 => by omega
    have hva : va < 2 ^ 32 := by omega
    have hpte : k.pte d (va / PGSIZE * PGSIZE) = k.pte d va :=
      pte_page (Nat.mul_div_cancel _ (by decide))
    rw [copyoutLoop_succ (ne_nil_of_length_pos hlen)]
    by_cases hpres : k.pte d va = none
    · exact Exec.bind_error (uva2ka_null hnull (hpte.trans hpres))
    have huva : uva2ka c d (va / PGSIZE * PGSIZE) k = .ok (k.userPage d va, k) := by
      rw [uva2ka_eq c (by rwa [hpte]), userPage_congr hpte]
    rw [Exec.bind_ok huva]
    rcases hx : k.userPage d va with _ | x
    · -- the loop would end here, before the missing table
      refine absurd (fun v h1 h2 hall => ?_) hmiss
      rcases h1.eq_or_lt with rfl | h1
      · exact hpres
      · exact absurd hx (hall va le_rfl h1)
    have hdrop : (bytes.drop (PGSIZE - va % PGSIZE)).length =
      bytes.length - (PGSIZE - va % PGSIZE) := length_drop
    have hpte1 : ∀ v < 2 ^ 32, (k.copiedPage x va bytes).pte d v = k.pte d v :=
      fun v hv => ha.pte_write hva hx hv _
    have hent1 : ∀ y i, (∀ v < 2 ^ 32, k.userPage d v ≠ some y) →
        ent (k.copiedPage x va bytes).mem y i = ent k.mem y i := by
      intro y i hy
      refine ent_update_ne ?_ i
      rintro rfl
      exact hy va hva hx
    -- the pages of the rest are looked up as before
    have hrest : ¬NoMissing (k.copiedPage x va bytes) d (va + (PGSIZE - va % PGSIZE))
        (bytes.drop (PGSIZE - va % PGSIZE)).length := by
      refine fun hno => hmiss fun v h1 h2 hall => ?_
      rcases lt_or_ge v (va + (PGSIZE - va % PGSIZE)) with hlt | hge
      · rw [pte_page (show v / PGSIZE = va / PGSIZE by rw [hp] at hlt ⊢; omega)]
        exact hpres
      · rw [← hpte1 v (by omega)]
        refine hno v hge (by omega) fun u h3 h4 => ?_
        rw [userPage_congr (hpte1 u (by omega))]
        exact hall u (by omega) h4
    have hpos : 0 < (bytes.drop (PGSIZE - va % PGSIZE)).length := by
      by_contra h0
      exact hrest fun v h1 h2 => by omega
    have hnext : (va / PGSIZE * PGSIZE + PGSIZE) % 2 ^ 32 = va + (PGSIZE - va % PGSIZE) := by
      rw [hp] at hdrop hpos ⊢
      omega
    have hroom : 0 < PGSIZE - va % PGSIZE := Nat.sub_pos_of_lt (Nat.mod_lt _ (by decide))
    have hc1 : ∀ v < 2 ^ 32, (k.copiedPage x va bytes).userPage d v ≠ some c := by
      intro v hv
      rw [userPage_congr (hpte1 v hv)]
      exact hc v hv
    have hloop := ih _ _ (ha.of_pte hpte1 fun v hv => hent1 d _ ha.dir) (by omega) (by omega)
      ((hent1 c 0 hc).trans hnull) hc1 hrest
    rw [← hnext] at hloop
    exact hloop

/-- **`copyout` is total and exact** iff it does not come to a page without a page table: it returns
0 exactly if all pages of the range are open to the user; then the range holds the buffer, and no
other byte has changed. The process that runs does not matter, not even one that has nothing at
address 0 (its directory `c` is no page of the user, as in every kernel). The pages of `d` are its
own. -/
theorem copyout_exact {bytes : List UInt8} {c : ℕ} (ha : Apart k d)
    (hend : va + bytes.length ≤ 2 ^ 32) (hnull : ent k.mem c 0 = none)
    (hc : ∀ v < 2 ^ 32, k.userPage d v ≠ some c) :
    (∃ ok k', (∀ cur, copyout cur d va bytes k = .ok (ok, k')) ∧ CopiedOut d va bytes k ok k') ↔
      NoMissing k d va bytes.length := by
  refine ⟨?_, copyoutLoop_exact _ va bytes ha hend le_rfl⟩
  rintro ⟨ok, k', hok, -⟩
  by_contra hmiss
  have herr := copyoutLoop_null _ va bytes ha hend le_rfl hnull hc hmiss
  exact absurd ((hok c).symm.trans herr) (by simp)

/-- The pages of a directory have one owner each. -/
theorem apart_of_pageInv {h : Root} (hi : PageInv k R NPAGES) (hd : R.root h = some d) :
    Apart k d := by
  have huse : ∀ v < 2 ^ 32, ∀ x, k.userPage d v = some x →
      R.page k.mem (.user h (PDX v) (PTX v)) = some x := fun _ hv _ => page_of_userPage hi hd hv
  refine ⟨fun v hv v' hv' x hx hx' => ?_, fun v hv hx => ?_, fun v hv v' hv' x hx hx' => ?_⟩
  · obtain ⟨h1, h2⟩ : PDX v = PDX v' ∧ PTX v = PTX v' := by
      simpa using hi.inj _ _ x (huse v hv x hx) (huse v' hv' x hx')
    rw [← page_number v, ← page_number v', h1, h2]
  · cases hi.inj _ (.dir h) d (huse v hv d hx) hd
  · have htab : R.page k.mem (.tab h (PDX v')) = some x := tab_eq_some.mpr ⟨PDX_lt hv', d, hd, hx'⟩
    cases hi.inj _ _ x (huse v hv x hx) htab

/-! ### A small memory -/

/-- A directory in page 500 with one page table, in page 501, and one user page, 502, which begins
with the word 7. -/
def tiny : Kmem where
  mem := fun x =>
    if x = 500 then Bytes.zero.setU32 (4 * 0) (mkPte 501 6)
    else if x = 501 then Bytes.zero.setU32 (4 * 0) (mkPte 502 6)
    else if x = 502 then Bytes.zero.setU32 (4 * 0) 7
    else Bytes.zero
  free := VmSys.pagesDown 600 70
  kend := 1
  oom := []
  twice := false

/-- Process 0 has the directory. -/
def tinyRoots : Roots where
  single := fun _ => none
  root := fun h => if h = .proc 0 then some 500 else none

theorem ent_first {m : ℕ → Bytes PGSIZE} {x w : ℕ} (hm : m x = Bytes.zero.setU32 (4 * 0) w)
    (hw : w < 2 ^ 32) (hp : PTE_P w) (i : ℕ) :
    ent m x i = if i = 0 then some (ptePage w) else none := by
  rw [ent, hm]
  by_cases hi : i = 0
  · rw [hi, Bytes.u32_setU32_self (by decide) hw, if_pos hp, if_pos rfl]
  · rw [Bytes.u32_setU32_ne (by omega), Bytes.u32_zero, if_neg (by decide), if_neg hi]

theorem ent_tiny_dir (i : ℕ) : ent tiny.mem 500 i = if i = 0 then some 501 else none :=
  ent_first rfl (by decide) (by decide) i

theorem ent_tiny_tab (i : ℕ) : ent tiny.mem 501 i = if i = 0 then some 502 else none :=
  ent_first rfl (by decide) (by decide) i

theorem tiny_page {o : PageUse} {x : ℕ} (h : tinyRoots.page tiny.mem o = some x) :
    o = .dir (.proc 0) ∧ x = 500 ∨ o = .tab (.proc 0) 0 ∧ x = 501 ∨
      o = .user (.proc 0) 0 0 ∧ x = 502 := by
  have hroot : ∀ h' d, tinyRoots.root h' = some d → h' = .proc 0 ∧ d = 500 := by
    intro h' d hd
    rw [tinyRoots] at hd
    dsimp only at hd
    split at hd
    · rename_i he
      exact ⟨he, (Option.some.inj hd).symm⟩
    · cases hd
  have htab : ∀ h' i t, tinyRoots.page tiny.mem (.tab h' i) = some t →
      h' = .proc 0 ∧ i = 0 ∧ t = 501 := by
    intro h' i t ht
    obtain ⟨-, d, hd, he⟩ := tab_eq_some.mp ht
    obtain ⟨rfl, rfl⟩ := hroot h' d hd
    rw [ent_tiny_dir] at he
    split at he
    · rename_i hi
      exact ⟨rfl, hi, (Option.some.inj he).symm⟩
    · cases he
  cases o with
  | single s => cases h
  | dir h' =>
    obtain ⟨rfl, rfl⟩ := hroot h' x h
    exact .inl ⟨rfl, rfl⟩
  | tab h' i =>
    obtain ⟨rfl, rfl, rfl⟩ := htab h' i x h
    exact .inr (.inl ⟨rfl, rfl⟩)
  | user h' i j =>
    obtain ⟨-, t, ht, he⟩ := user_eq_some.mp h
    obtain ⟨rfl, rfl, rfl⟩ := htab h' i t ht
    rw [ent_tiny_tab] at he
    split at he
    · rename_i hj
      exact .inr (.inr ⟨by rw [hj], (Option.some.inj he).symm⟩)
    · cases he

theorem tiny_inv : PageInv tiny tinyRoots NPAGES := by
  have hrange : ∀ x, x = 500 ∨ x = 501 ∨ x = 502 → x < NPAGES ∧ x ∉ tiny.free ∧ 1 ≤ x := by
    rintro x (rfl | rfl | rfl) <;> decide
  have hval : ∀ o x, tinyRoots.page tiny.mem o = some x → x = 500 ∨ x = 501 ∨ x = 502 := by
    intro o x h
    rcases tiny_page h with ⟨-, hx⟩ | ⟨-, hx⟩ | ⟨-, hx⟩ <;> simp [hx]
  refine ⟨le_rfl, by decide, by decide, fun o x h => (hrange x (hval o x h)).1,
    fun o x h => (hrange x (hval o x h)).2.1, fun o o' x h h' => ?_, rfl, ?_,
      fun h' i t ht h5 => ?_⟩
  · rcases tiny_page h with ⟨rfl, rfl⟩ | ⟨rfl, rfl⟩ | ⟨rfl, rfl⟩ <;>
      rcases tiny_page h' with ⟨rfl, hx⟩ | ⟨rfl, hx⟩ | ⟨rfl, hx⟩ <;> first | rfl | cases hx
  · rintro x (hx | ⟨o, h⟩)
    · have hall : ∀ x ∈ tiny.free, tiny.kend ≤ x := by decide
      exact hall x hx
    · exact (hrange x (hval o x h)).2.2
  · rcases tiny_page ht with ⟨ho, -⟩ | ⟨ho, -⟩ | ⟨ho, -⟩ <;> cases ho
    exact absurd h5 (by decide)

theorem tiny_apart : Apart tiny 500 := apart_of_pageInv tiny_inv (h := .proc 0) rfl

/-- A byte is copied to address 5. -/
theorem copyout_exact_tiny : ∃ k', (∀ cur, copyout cur 500 5 [42] tiny = .ok (true, k')) ∧
    k'.userByte 500 5 = some 42 := by
  have huser : ∀ v, 5 ≤ v → v < 5 + [(42 : UInt8)].length → tiny.userPage 500 v ≠ none := by
    intro v h1 h2
    obtain rfl : v = 5 := Nat.le_antisymm (Nat.le_of_lt_succ h2) h1
    decide
  have hmapped : ∀ v < 2 ^ 32, tiny.userPage 500 v ≠ some 600 := by
    intro v hv hx
    rcases tiny_page (page_of_userPage tiny_inv (h := .proc 0) rfl hv hx) with
      ⟨-, h⟩ | ⟨-, h⟩ | ⟨-, h⟩ <;> cases h
  obtain ⟨ok, k', hk', hc⟩ := (copyout_exact (c := 600) tiny_apart
    (show 5 + [(42 : UInt8)].length ≤ 2 ^ 32 by decide) (by decide) hmapped).mpr
    fun v h1 h2 _ hnone => huser v h1 h2 (by rw [userPage, hnone]; rfl)
  obtain rfl := hc.ok_iff.mpr huser
  exact ⟨k', hk', hc.byte rfl 0 (by decide)⟩

/-- **`copyout` succeeds where there is no page**: address 0x400000 has no page table, so that
`uva2ka` reads the word at address 0 of the process that runs. The word is 7, which looks like an
entry for physical page 0, and the byte is written there. -/
theorem copyout_without_page : ∃ k k', Apart k 500 ∧ k.userPage 500 0x400000 = none ∧
    copyout 500 500 0x400000 [42] k = .ok (true, k') ∧ (k'.mem 0).get 0 = 42 := by
  obtain ⟨⟨ok, k'⟩, hk', rfl, hbyte⟩ := exists_ok_of_check
    (P := fun x : Bool × Kmem => x.1 = true ∧ (x.2.mem 0).get 0 = 42)
    (x := copyout 500 500 0x400000 [42] tiny) (by decide)
  exact ⟨tiny, k', tiny_apart, by decide, hk', hbyte⟩

/-! ## `copyuvm` -/

section Copying

variable {np pgdir n a x w : ℕ} {k0 k1 k2 : Kmem} {R0 : Roots} {h : Root}

/-- The child has copies of the first `n` pages of the parent. In `k0` the copying has started, and
in `k1` the kernel is mapped. -/
structure Copying (np : ℕ) (k0 : Kmem) (R0 : Roots) (pgdir d : ℕ) (k1 : Kmem) (n : ℕ) (k : Kmem) :
    Prop where
  acc : Acc True np k0 R0 k (R0.setRoot .fresh (some d))
  copied : ∀ va < KERNBASE, va / PGSIZE < n → ∃ w w', k0.mapping pgdir va = some w ∧
    k.mapping d va = some w' ∧ w' % PGSIZE = w % PGSIZE ∧ k.mem (ptePage w') = k0.mem (ptePage w)
  above : ∀ va < KERNBASE, n ≤ va / PGSIZE → k.mapping d va = none
  kernel : ∀ va, KERNBASE ≤ va → va < 2 ^ 32 → k.pte d va = k1.pte d va

/-- Mapping a page does not change the other page tables. -/
theorem Added.pte_other {b : Bytes PGSIZE} {perm : ℕ} (hadd : Added np k0 R0 R d a x b perm k k')
    (hd : R.root .fresh = some d) (hva : va < 2 ^ 32) (hne : PDX va ≠ PDX a) :
    k'.pte d va = k.pte d va := by
  have htab : ∀ m : ℕ → Bytes PGSIZE, R.page m (.tab .fresh (PDX va)) = ent m d (PDX va) := by
    intro m
    rw [Roots.page, if_pos (PDX_lt hva), hd, Option.bind_some]
  refine pte_congr ?_ fun t ht => ?_
  · rw [← htab, hadd.tabs _ hne, htab]
  · exact (hadd.words _ _ t ((htab _).trans ht) fun hc => hne hc.1).2

theorem mkPte_flags (x : ℕ) {w : ℕ} (hp : PTE_P w) : mkPte x (w % PGSIZE) % PGSIZE =
    w % PGSIZE := by
  have hpg := PGSIZE_eq
  rw [PTE_P] at hp
  rw [mkPte, hpg]
  omega

/-- **One page more** is copied. -/
theorem Copying.add (hc : Copying np k0 R0 pgdir d k1 (a / PGSIZE) k) (ha : a < KERNBASE)
    (hm : k2.mem = k.mem) (hw : k0.mapping pgdir a = some w)
    (hkept : k.mem (ptePage w) = k0.mem (ptePage w))
    (hadd : Added np k0 R0 (R0.setRoot .fresh (some d)) d a x (k2.mem (ptePage w)) (w % PGSIZE)
      k2 k') : Copying np k0 R0 pgdir d k1 (a / PGSIZE + 1) k' := by
  have hroot := root_setRoot R0 .fresh (some d)
  have hpte2 : ∀ va, k2.pte d va = k.pte d va := fun va =>
    pte_congr (by rw [hm]) fun t _ => by rw [word, word, hm]
  have hother : ∀ va < KERNBASE, va / PGSIZE ≠ a / PGSIZE → k'.mapping d va = k.mapping d va :=
    fun va hva hne => (hadd.mapping_other hroot hva hne).trans (mapping_congr (hpte2 va))
  have hxlt : x < NPAGES := hadd.acc.inv.range _ _ hadd.page
  obtain ⟨-, hpres, hxpage⟩ := mkPte_spec (w % PGSIZE) hxlt
  refine ⟨hadd.acc, fun va hva hlt => ?_, fun va hva hge => ?_, fun va hva h32 => ?_⟩
  · by_cases hv : va / PGSIZE = a / PGSIZE
    · obtain ⟨h1, h2⟩ := same_page hv
      obtain ⟨t, ht, hword⟩ := hadd.entry
      rw [← h1] at ht
      refine ⟨w, mkPte x (w % PGSIZE), (mapping_page hv).trans hw,
        mapping_eq_some.mpr ⟨by rw [pte_of_ent ht, h2, hword], hpres⟩,
        mkPte_flags x (mapping_eq_some.mp hw).2, ?_⟩
      rw [hxpage, hadd.content, hm, hkept]
    obtain ⟨w1, w', hw1, hw', hflags, hmem⟩ := hc.copied va hva (by omega)
    refine ⟨w1, w', hw1, (hother va hva hv).trans hw', hflags, ?_⟩
    have hpage := page_eq_mapping (k := k) hroot hva
    rw [hw', ← hm] at hpage
    rw [hadd.mem _ _ _ hpage, hm, hmem]
  · rw [hother va hva (by omega), hc.above va hva (by omega)]
  · have hne : PDX va ≠ PDX a := by
      have hk : KERNBASE = 0x80000000 := rfl
      have h5 := PDX_user ha
      have hn : NPTENTRIES = 1024 := rfl
      have hp := PGSIZE_eq
      have h6 : 512 ≤ PDX va := by
        rw [PDX, hn, hp]
        omega
      omega
    rw [hadd.pte_other hroot h32 hne, hpte2, hc.kernel va hva h32]

/-- **The loop of `copyuvm`.** -/
theorem copyLoop_copies {sz : ℕ} (hsz : sz ≤ KERNBASE) (hh : h ≠ .fresh)
    (hd : R0.root h = some pgdir) (hs : ∀ n, R0.single (.hand n) = none) :
    ∀ (n a : ℕ) {k : Kmem}, Copying np k0 R0 pgdir d k1 (a / PGSIZE) k → a % PGSIZE = 0 →
      a / PGSIZE ≤ npages sz → sz ≤ a + n * PGSIZE →
      Ends (copyLoop pgdir d sz n a) k fun ok k' =>
        ok = true → Copying np k0 R0 pgdir d k1 (npages sz) k' := by
  have hp := PGSIZE_eq
  have hroot := root_setRoot R0 .fresh (some d)
  have hend : ∀ {k : Kmem} {a : ℕ}, Copying np k0 R0 pgdir d k1 (a / PGSIZE) k → a % PGSIZE = 0 →
      a / PGSIZE ≤ npages sz → sz ≤ a → Copying np k0 R0 pgdir d k1 (npages sz) k := by
    intro k a hc hmod hle hge
    have hn : a / PGSIZE = npages sz := by
      refine le_antisymm hle ?_
      rw [hp] at hmod
      rw [npages, hp]
      omega
    exact hn ▸ hc
  intro n
  induction n with
  | zero =>
    intro a k hc hmod hle hfuel
    exact ends_pure fun _ => hend hc hmod hle (by omega)
  | succ n ih =>
    intro a k hc hmod hle hfuel
    rw [copyLoop]
    split
    · rename_i hlt
      have ha : a < KERNBASE := hlt.trans_le hsz
      refine walkpgdir_false.bind ?_
      rintro _ _ ⟨rfl, ⟨t, rfl, ht⟩ | ⟨rfl, -⟩⟩
      · refine ends_bind_gets ?_
        obtain ⟨w, hw⟩ : ∃ w, w = k.word t (PTX a) := ⟨_, rfl⟩
        rw [← hw]
        split
        · rename_i hpres
          have hmap : k0.mapping pgdir a = some w := mapping_eq_some.mpr
            ⟨by rw [← pte_acc hc.acc hd hh (ha.trans (by decide)), pte_of_ent ht, hw], hpres⟩
          have hkept : k.mem (ptePage w) = k0.mem (ptePage w) := by
            have hpage := page_eq_mapping (k := k0) hd ha
            rw [hmap] at hpage
            exact hc.acc.kept (.user h (PDX a) (PTX a)) _ hh hpage
          refine (Acc.stable.kalloc hc.acc (hs 0)).bind ?_
          rintro (_ | x) k2 ⟨hm2, -, hgot⟩
          · exact ends_pure (by simp)
          obtain ⟨h2, -⟩ := hgot x rfl
          have hfree : (R0.setRoot .fresh (some d)).page k2.mem
              (.user .fresh (PDX a) (PTX a)) = none := by
            rw [hm2, page_eq_mapping hroot ha, hc.above a ha le_rfl]
            rfl
          refine ends_bind_modify ((mappages_filled h2 ha hroot hs hfree _ _).bind ?_)
          rintro (_ | _) k3 ⟨htrue, -⟩
          · exact ends_pure (by simp)
          · have h3 := hc.add ha hm2 hmap hkept (htrue rfl)
            have hstep : (a + PGSIZE) / PGSIZE = a / PGSIZE + 1 := Nat.add_div_right a (by decide)
            refine ih (a + PGSIZE) (hstep ▸ h3) ?_ ?_ ?_
            · rw [Nat.add_mod_right, hmod]
            · rw [hstep, npages, hp]
              rw [hp] at hmod
              omega
            · rw [hp] at hfuel ⊢
              omega
        · exact ends_stop
      · exact ends_stop
    · rename_i hge
      exact ends_pure fun _ => hend hc hmod hle (not_lt.mp hge)

end Copying

/-! ## What processes write -/

/-- `PTE_W` -/
def PTE_W (w : ℕ) : Prop := w / 2 % 2 = 1

instance (w : ℕ) : Decidable (PTE_W w) := inferInstanceAs (Decidable (_ = _))

/-- The process with the directory `d` stores a byte. Where it may not write, nothing is stored. -/
def store (d : ℕ) (k : Kmem) (va : UInt32) (b : UInt8) : Kmem :=
  match k.pte d va.toNat with
  | some w =>
    if (PTE_P w ∧ PTE_U w) ∧ PTE_W w then
      { k with
        mem := update k.mem (ptePage w) ((k.mem (ptePage w)).splice (va.toNat % PGSIZE) [b]) }
    else k
  | none => k

/-- A process stores byte after byte. -/
def stores (d : ℕ) (k : Kmem) (l : List (UInt32 × UInt8)) : Kmem :=
  l.foldl (fun k x => k.store d x.1 x.2) k

/-- Two processes store bytes, in any order: the one with the directory `d` where `true` stands. -/
def interleaved (d d' : ℕ) (k : Kmem) (l : List (Bool × UInt32 × UInt8)) : Kmem :=
  l.foldl (fun k x => k.store (if x.1 then d else d') x.2.1 x.2.2) k

/-- Two processes with their own pages. -/
structure Pair (R : Roots) (h h' : Root) (d d' : ℕ) (k : Kmem) : Prop where
  ne : h ≠ h'
  inv : PageInv k R NPAGES
  root : R.root h = some d
  root' : R.root h' = some d'

section Pair

variable {h h' : Root} {d' : ℕ}

theorem Pair.symm (hp : Pair R h h' d d' k) : Pair R h' h d' d k :=
  ⟨hp.ne.symm, hp.inv, hp.root', hp.root⟩

/-- **One byte**: the other process sees the same bytes as before. -/
theorem Pair.store (hp : Pair R h h' d d' k) (a : UInt32) (b : UInt8) :
    Pair R h h' d d' (k.store d a b) ∧
      ∀ va < KERNBASE, (k.store d a b).byteAt d' va = k.byteAt d' va := by
  have hsame : Pair R h h' d d' k ∧ ∀ va < KERNBASE, k.byteAt d' va = k.byteAt d' va :=
    ⟨hp, fun _ _ => rfl⟩
  rw [Kmem.store]
  split
  · rename_i w hw
    split
    · rename_i hopen
      have hpage := page_of_userPage hp.inv hp.root a.toNat_lt
        (userPage_eq_some.mpr ⟨w, hw, hopen.1, rfl⟩)
      have hnot : ¬R.IsTable k.mem (ptePage w) :=
        hp.inv.not_isTable hpage (fun _ => by simp) fun _ _ => by simp
      refine ⟨⟨hp.ne, hp.inv.write hnot _, hp.root, hp.root'⟩, fun va hva => ?_⟩
      refine byteAt_congr
        (mapping_congr (VmSys.pte_update hp.root' hnot (hva.trans (by decide)) _)) ?_
      intro w' hw'
      refine update_of_ne (fun he => ?_) ..
      have hpage' := page_eq_mapping (k := k) hp.root' hva
      rw [hw', Option.map_some, he] at hpage'
      have := hp.inv.inj _ _ _ hpage hpage'
      exact hp.ne (by simpa using And.left (by simpa using this))
    · exact hsame
  · exact hsame

/-- **Any number of bytes.** -/
theorem Pair.stores : ∀ (l : List (UInt32 × UInt8)) {k : Kmem}, Pair R h h' d d' k →
    ∀ va < KERNBASE, (k.stores d l).byteAt d' va = k.byteAt d' va
  | [], _, _, _, _ => rfl
  | (a, b) :: l, _, hp, va, hva =>
    (Pair.stores l (hp.store a b).1 va hva).trans ((hp.store a b).2 va hva)

/-- The two processes keep their own pages, whatever both of them write. -/
theorem Pair.interleaved : ∀ (l : List (Bool × UInt32 × UInt8)) {k : Kmem}, Pair R h h' d d' k →
    Pair R h h' d d' (k.interleaved d d' l)
  | [], _, hp => hp
  | (true, a, b) :: l, _, hp => Pair.interleaved l (hp.store a b).1
  | (false, a, b) :: l, _, hp => Pair.interleaved l (hp.symm.store a b).1.symm

end Pair

/-- **The copy of an address space** that `copyuvm` has made. -/
structure Copied (R : Roots) (pgdir sz d : ℕ) (k k' : Kmem) : Prop where
  /-- every page holds the same bytes and has the same flags -/
  pages : ∀ va < PGROUNDUP sz, ∃ w w', k.mapping pgdir va = some w ∧ k'.mapping d va = some w' ∧
    w' % PGSIZE = w % PGSIZE ∧ k'.mem (ptePage w') = k.mem (ptePage w)
  /-- no page of the child, directory and page tables included, is anything else's -/
  inv : PageInv k' (R.setRoot .fresh (some d)) NPAGES
  distinct : ∀ va < KERNBASE, ∀ va' < KERNBASE, ∀ w w', k'.mapping d va = some w →
    k'.mapping d va' = some w' → ptePage w = ptePage w' → va / PGSIZE = va' / PGSIZE
  /-- the pages of the child were not in use -/
  unused : ∀ o x, Mine NPROC o → (R.setRoot .fresh (some d)).page k'.mem o = some x →
    x ∈ k.free ∧ ∀ o', R.page k.mem o' ≠ some x
  parent : ∀ va < 2 ^ 32, k'.pte pgdir va = k.pte pgdir va
  bytes : ∀ va < KERNBASE, k'.byteAt pgdir va = k.byteAt pgdir va
  /-- the kernel part is that of `setupkvm` -/
  kernel : ∃ k1, setupkvm k = .ok (some d, k1) ∧ ∀ va, KERNBASE ≤ va → va < 2 ^ 32 →
    k'.pte d va = k1.pte d va
  /-- whatever both have written, one does not see what the other writes -/
  isolated : ∀ l l' va, va < KERNBASE →
    (((k'.interleaved d pgdir l).stores d l').byteAt pgdir va =
      (k'.interleaved d pgdir l).byteAt pgdir va ∧
    ((k'.interleaved d pgdir l).stores pgdir l').byteAt d va =
      (k'.interleaved d pgdir l).byteAt d va)

/-- **`fork` copies the memory and keeps it apart**, for a directory `pgdir` whose pages are its
own, when nothing else is in the hands of the kernel. -/
theorem copyuvm_copies {h : Root} {pgdir sz : ℕ} (hi : PageInv k R NPAGES)
    (hmine : ∀ o, Mine NPROC o → R.page k.mem o = none) (hd : R.root h = some pgdir)
    (hsz : sz ≤ KERNBASE) (hcopy : copyuvm pgdir sz k = .ok (some d, k')) :
      Copied R pgdir sz d k k' := by
  have hr : R.root .fresh = none := hmine (.dir .fresh) rfl
  have hs : ∀ n, R.single (.hand n) = none := fun n => hmine (.single (.hand n)) trivial
  have hh : h ≠ .fresh := by
    rintro rfl
    rw [hr] at hd
    cases hd
  -- the two parts of the call
  obtain ⟨r, k1, hkvm, hrest⟩ := Exec.ok_of_bind hcopy
  rcases r with _ | d1
  · cases hrest
  obtain ⟨ok, k2, hloop, hrest⟩ := Exec.ok_of_bind hrest
  cases ok
  · rw [if_neg (by decide)] at hrest
    obtain ⟨_, _, _, hlast⟩ := Exec.ok_of_bind hrest
    cases hlast
  obtain ⟨rfl, rfl⟩ : d1 = d ∧ k2 = k' := by simpa using Except.ok.inj hrest
  have hroot := root_setRoot R .fresh (some d1)
  have hacc : Acc True NPROC k R k1 (R.setRoot .fresh (some d1)) :=
    (((setupkvm_acc (E := fun _ => True) (Acc.start NPROC hi) hr hs).ok hkvm).2 d1 rfl).1
  have hupto := (((setupkvm_spec hi hr hs).ok hkvm).2.2 d1 rfl).2.1
  have hempty := VmSys.mapping_of_upto hroot (show Upto _ k1 .fresh (npages 0) from hupto)
  have hstart : Copying NPROC k R pgdir d1 k1 (0 / PGSIZE) k1 :=
    ⟨hacc, fun va _ hlt => absurd hlt (Nat.not_lt_zero _), fun va hva _ =>
      not_not.mp fun hc => absurd ((hempty va hva).mp hc) (Nat.not_lt_zero _), fun _ _ _ => rfl⟩
  have hfuel : sz ≤ 0 + (sz / PGSIZE + 1) * PGSIZE := by
    have hp := PGSIZE_eq
    rw [hp]
    omega
  have hc := (copyLoop_copies hsz hh hd hs _ 0 hstart rfl (Nat.zero_le _) hfuel).ok hloop rfl
  have hpte : ∀ va < 2 ^ 32, k2.pte pgdir va = k.pte pgdir va := fun va => pte_acc hc.acc hd hh
  refine ⟨fun va hva => ?_, hc.acc.inv, fun va hva va' hva' w w' hw hw' he => ?_,
    fun o x ho hx => ?_, hpte, fun va hva => ?_, ⟨k1, hkvm, hc.kernel⟩, fun l l' va hva => ?_⟩
  · exact hc.copied va (hva.trans_le (PGROUNDUP_le hsz)) (lt_PGROUNDUP.mp hva)
  · have h1 := page_eq_mapping (k := k2) hroot hva
    have h2 := page_eq_mapping (k := k2) hroot hva'
    rw [hw, Option.map_some] at h1
    rw [hw', Option.map_some, ← he] at h2
    obtain ⟨h3, h4⟩ : PDX va = PDX va' ∧ PTX va = PTX va' := by
      simpa using hc.acc.inv.inj _ _ _ h1 h2
    rw [← page_number va, ← page_number va', h3, h4]
  · have hfree := hc.acc.was_free hmine ho hx
    exact ⟨hfree, fun o' ho' => hi.free o' x ho' hfree⟩
  · have hmap := mapping_congr (hpte va (hva.trans (by decide)))
    refine byteAt_congr hmap fun w hw => ?_
    have hpage := page_eq_mapping (k := k) hd hva
    rw [hw] at hpage
    exact hc.acc.kept (.user h (PDX va) (PTX va)) _ hh hpage
  · have hpair : Pair (R.setRoot .fresh (some d1)) .fresh h d1 pgdir k2 :=
      ⟨hh.symm, hc.acc.inv, hroot, (update_of_ne hh ..).trans hd⟩
    have hlater := hpair.interleaved l
    exact ⟨hlater.stores l' va hva, hlater.symm.stores l' va hva⟩

/-- A process with one page is copied. -/
theorem copyuvm_copies_tiny : ∃ d k', copyuvm 500 PGSIZE tiny = .ok (some d, k') ∧
    ∃ w, k'.mapping d 0 = some w ∧ k'.mem (ptePage w) = tiny.mem 502 := by
  have hkvm : setupkvm tiny = .ok (some (605 + 64), VmSys.kernelMapped tiny 605) :=
    VmSys.setupkvm_eq rfl (by decide)
  obtain ⟨⟨ok, k'⟩, hloop, rfl⟩ := exists_ok_of_check (P := fun x : Bool × Kmem => x.1 = true)
    (x := copyLoop 500 669 PGSIZE 2 0 (VmSys.kernelMapped tiny 605)) (by decide)
  have hcopy : copyuvm 500 PGSIZE tiny = .ok (some 669, k') := by
    rw [copyuvm, Exec.bind_ok hkvm]
    exact Exec.bind_ok hloop
  have hmine : ∀ o, Mine NPROC o → tinyRoots.page tiny.mem o = none := by
    intro o ho
    rw [Option.eq_none_iff_forall_ne_some]
    intro x hx
    rcases tiny_page hx with ⟨rfl, -⟩ | ⟨rfl, -⟩ | ⟨rfl, -⟩ <;> cases ho
  have hc := copyuvm_copies (h := .proc 0) tiny_inv hmine rfl (by decide) hcopy
  obtain ⟨w, w', hw, hw', -, hmem⟩ := hc.pages 0 (by decide)
  have hpage : tiny.mapping 500 0 = some (mkPte 502 6) := by decide
  obtain rfl := Option.some.inj (hpage.symm.trans hw)
  exact ⟨669, k', hcopy, w', hw', hmem⟩

end Kmem

end Xv6
