import Xv6.VmAccount

/-!
# What is in a new address space

`exec` builds an address space with `allocuvm`, `loaduvm`, `clearpteu` and `copyout`. Here each of
them is said in terms of what the program will see: `Img` relates the memory of the machine to a
function from addresses to bytes, the pages that are there, and those that are there but not
accessible to the user. `allocuvm` adds pages of zeros, `loaduvm` and `copyout` overwrite a range of
bytes, and `clearpteu` takes a page from the user.

None of them stops: `kalloc` may fail, but not where a page table is needed, for `allocuvm` would
not notice that.
-/

namespace Xv6

open Function List

open Exec Roots

/-! ## Bytes at addresses -/

/-- The bytes `l` from address `a` on, and those of `f` elsewhere. -/
def overlay (f : ℕ → UInt8) (a : ℕ) (l : List UInt8) : ℕ → UInt8 :=
  fun v => if a ≤ v then (l[v - a]?).getD (f v) else f v

section Over

variable {f : ℕ → UInt8} {a v : ℕ} {l : List UInt8}

theorem overlay_of_lt (h : v < a) : overlay f a l v = f v := if_neg (by omega)

theorem overlay_of_ge (h : a + l.length ≤ v) : overlay f a l v = f v := by
  rw [overlay, if_pos (by omega), getElem?_eq_none (by omega)]
  rfl

theorem overlay_of_mem {i : ℕ} (h : i < l.length) : overlay f a l (a + i) = l[i] := by
  rw [overlay, if_pos (by omega), Nat.add_sub_cancel_left, getElem?_eq_getElem h]
  rfl

@[simp] theorem overlay_nil : overlay f a [] = f := by
  funext v
  simp [overlay]

/-- Two ranges, one after the other. -/
theorem overlay_append (l' : List UInt8) : overlay (overlay f a l) (a + l.length) l' = overlay f a
    (l ++ l') := by
  funext v
  rcases Nat.lt_or_ge v (a + l.length) with hlt | hge
  · rw [overlay_of_lt hlt, overlay, overlay]
    split
    · rw [getElem?_append_left (by omega)]
    · rfl
  · rw [overlay, if_pos hge, overlay_of_ge hge, overlay, if_pos (by omega),
      getElem?_append_right (by omega), Nat.sub_add_eq]

end Over

namespace Kmem

variable {d : ℕ} {np : ℕ} {k0 k : Kmem} {R0 R : Roots} {x va n : ℕ} {E : Stop → Prop}

/-! ## One page more -/

/-- `mappages` does not find the page mapped already. -/
theorem mappages_total (h : Acc True np k0 R0 k R) (hd : R.root .fresh = some d)
    (hva : va < KERNBASE) (hn : R.single (.hand 1) = none)
    (hfree : R.page k.mem (.user .fresh (PDX va) (PTX va)) = none) (perm : ℕ) :
    Ends (mappages d va x perm) k (fun _ _ => True) E := by
  -- the entry is not present
  have hnot : ∀ {k1 : Kmem} {t : ℕ}, R.page k1.mem (.tab .fresh (PDX va)) = some t →
      R.page k1.mem (.user .fresh (PDX va) (PTX va)) = none → ¬PTE_P (k1.word t (PTX va)) := by
    intro k1 t ht hnone hp
    have huser : R.page k1.mem (.user .fresh (PDX va) (PTX va)) = some _ :=
      user_eq_some.mpr ⟨⟨PDX_user hva, PTX_lt⟩, t, ht, if_pos hp⟩
    rw [hnone] at huser
    cases huser
  rw [mappages]
  refine (Acc.stable.walkpgdir h hd hva hn).bind ?_
  rintro _ k1 (⟨t, rfl, rfl, htab⟩ | ⟨-, rfl, -⟩ | ⟨-, t, rfl, -, -, htab, hrest⟩)
  · refine ends_bind_gets ?_
    rw [if_neg (hnot htab hfree)]
    exact ends_bind_modify (ends_pure trivial)
  · exact ends_pure trivial
  · refine ends_bind_gets ?_
    rw [if_neg (hnot htab ((hrest (.user .fresh (PDX va) (PTX va)) (by simp)).trans hfree))]
    exact ends_bind_modify (ends_pure trivial)

/-- The page is in use, and is no table. -/
def IsData (R : Roots) (k : Kmem) (y : ℕ) : Prop :=
  ∃ o, R.page k.mem o = some y ∧ (∀ h, o ≠ .dir h) ∧ ∀ h i, o ≠ .tab h i

variable {m : ℕ → Bytes PGSIZE}

theorem word_setWord_self {t j w : ℕ} (hj : j < NPTENTRIES)
    (hw : w < 2 ^ 32) : (update m t ((m t).setU32 (4 * j) w) t).u32 (4 * j) = w := by
  have hn : NPTENTRIES = 1024 := rfl
  have hp := PGSIZE_eq
  rw [update_self, Bytes.u32_setU32_self (by omega) hw]

theorem word_setWord_ne {t j t' j' w : ℕ} (h : ¬(t' = t ∧ j' = j)) :
    (update m t ((m t).setU32 (4 * j) w) t').u32 (4 * j') = (m t').u32 (4 * j') := by
  rcases eq_or_ne t' t with rfl | hne
  · have hj : j' ≠ j := fun hj => h ⟨rfl, hj⟩
    rw [update_self, Bytes.u32_setU32_ne (by omega)]
  · rw [update_of_ne hne]

/-- The table for `va` that `walkpgdir` finds or makes, and what it leaves alone: the pages of data
and the entries of the other tables. -/
theorem walkpgdir_frame (hi : PageInv k R NPAGES) (hd : R.root .fresh = some d)
    (hva : va < KERNBASE) : Ends (walkpgdir d va true) k (fun r k1 => ∀ t j, r = some (t, j) →
      j = PTX va ∧ ent k1.mem d (PDX va) = some t ∧ t ≠ d ∧
      (∀ y, IsData R k y → k1.mem y = k.mem y ∧ y ≠ t) ∧
      ∀ i t', R.page k.mem (.tab .fresh i) = some t' →
        ent k1.mem d i = some t' ∧ k1.mem t' = k.mem t' ∧ (t' = t → i = PDX va)) E := by
  have hlt : PDX va < NPTENTRIES := PDX_lt (hva.trans (by decide))
  rw [walkpgdir]
  refine ends_bind_gets ?_
  split
  · rename_i hp
    refine ends_pure fun t j he => ?_
    obtain ⟨rfl, rfl⟩ := Prod.mk.inj (Option.some.inj he)
    have ht : R.page k.mem (.tab .fresh (PDX va)) = some (ptePage (k.word d (PDX va))) :=
      tab_eq_some.mpr ⟨hlt, d, hd, if_pos hp⟩
    refine ⟨rfl, if_pos hp, ?_, fun y hy => ⟨rfl, ?_⟩, fun i t' ht' =>
      ⟨?_, rfl, fun he => ?_⟩⟩
    · intro he
      rw [he] at ht
      cases hi.inj _ (.dir .fresh) d ht hd
    · obtain ⟨o, ho, -, hot⟩ := hy
      rintro rfl
      exact hot _ _ (hi.inj o _ _ ho ht)
    · obtain ⟨-, d', hd', ht'⟩ := tab_eq_some.mp ht'
      rwa [Option.some.inj (hd.symm.trans hd')]
    · rw [he] at ht'
      simpa using hi.inj _ _ _ ht' ht
  · rename_i hp
    rcases kalloc_cases k with ⟨hk, -⟩ | ⟨t, free, hf, hk, -⟩
    · refine (Ends.of_ok (Q := fun r _ => r = none) hk rfl).bind ?_
      rintro _ _ rfl
      exact ends_pure (by simp)
    have htfree : t ∈ k.free := by
      rw [hf]
      exact mem_cons_self
    have htd : d ≠ t := by
      rintro rfl
      exact hi.free (.dir .fresh) d hd htfree
    refine (Ends.of_ok (Q := fun r k1 => r = some t ∧ k1 = { k with
      free := free, oom := k.oom.tail }) hk ⟨rfl, rfl⟩).bind ?_
    rintro _ _ ⟨rfl, rfl⟩
    refine ends_bind_modify (ends_bind_modify (ends_pure fun t' j he => ?_))
    obtain ⟨rfl, rfl⟩ := Prod.mk.inj (Option.some.inj he)
    obtain ⟨hw, hp', hpage⟩ := mkPte_spec 6 (hi.free_range t htfree)
    have hsame : ∀ y, y ≠ t → y ≠ d → update (update k.mem t Bytes.zero) d
        ((update k.mem t Bytes.zero d).setU32 (4 * PDX va) (mkPte t 6)) y = k.mem y :=
      fun y hyt hyd => (update_of_ne hyd ..).trans (update_of_ne hyt ..)
    refine ⟨rfl, ?_, htd.symm, ?_, fun i t' ht' => ?_⟩
    · exact (ent_setWord_self (m := update k.mem t Bytes.zero) hlt hw).trans
        (by rw [if_pos hp', hpage])
    · rintro y ⟨o, ho, hod, -⟩
      have hyt : y ≠ t := by
        rintro rfl
        exact hi.free o y ho htfree
      refine ⟨hsame y hyt ?_, hyt⟩
      rintro rfl
      exact hod _ (hi.inj o (.dir .fresh) y ho hd)
    have htt : t' ≠ t := by
      rintro rfl
      exact hi.free _ t' ht' htfree
    have htd' : t' ≠ d := by
      rintro rfl
      cases hi.inj _ (.dir .fresh) t' ht' hd
    obtain ⟨-, d', hd', hent⟩ := tab_eq_some.mp ht'
    obtain rfl := Option.some.inj (hd.symm.trans hd')
    have hne : i ≠ PDX va := by
      rintro rfl
      rw [show ent k.mem d (PDX va) = none from if_neg hp] at hent
      cases hent
    refine ⟨?_, hsame t' htt htd', fun he => absurd he htt⟩
    exact (ent_setWord_ne hne).trans ((ent_update_ne htd _).trans hent)

/-- What `mappages` writes: the entry, and perhaps a new page table. -/
theorem mappages_frame (hi : PageInv k R NPAGES) (hd : R.root .fresh = some d) (hva : va < KERNBASE)
    (hx : R.single (.hand 0) = some x) (perm : ℕ) : Ends (mappages d va x perm) k fun ok k' =>
      ok = true → (∃ t, ent k'.mem d (PDX va) = some t ∧ k'.word t (PTX va) = mkPte x perm) ∧
        (∀ y, IsData R k y → k'.mem y = k.mem y) ∧
        ∀ i j t, R.page k.mem (.tab .fresh i) = some t → ¬(i = PDX va ∧ j = PTX va) →
          ent k'.mem d i = some t ∧ k'.word t j = k.word t j := by
  have hxlt : x < NPAGES := hi.range (.single (.hand 0)) x hx
  rw [mappages]
  refine (walkpgdir_frame hi hd hva).bind ?_
  rintro (_ | ⟨t, j⟩) k1 hwalk
  · exact ends_pure (by simp)
  obtain ⟨rfl, ht, htd, hdata, htabs⟩ := hwalk t j rfl
  refine ends_bind_gets ?_
  split
  · exact ends_stop
  refine ends_bind_modify (ends_pure fun _ =>
    ⟨⟨t, ?_, ?_⟩, fun y hy => ?_, fun i j t' ht' hij => ⟨?_, ?_⟩⟩)
  · exact (ent_update_ne htd.symm _).trans ht
  · exact word_setWord_self PTX_lt (mkPte_spec perm hxlt).1
  · exact (update_of_ne (hdata y hy).2 ..).trans (hdata y hy).1
  · exact (ent_update_ne htd.symm _).trans (htabs i t' ht').1
  · obtain ⟨-, hmem, htab⟩ := htabs i t' ht'
    refine (word_setWord_ne fun hc => hij ⟨htab hc.1, hc.2⟩).trans ?_
    rw [hmem]
    rfl

/-! ## The new address space -/

/-- The pages of an image of `n` pages, with those of its tables. -/
def cost (n : ℕ) : ℕ := n + (n + 1023) / 1024

/-- When the first `m` pages are mapped, `kalloc` fails for none of their tables, unless it has
failed before. -/
def NoDrop (N m : ℕ) : Prop := ∀ n < m, n % 1024 = 0 → N ≠ cost n + 1

/-- **The image** that is built in the new directory, when `N` calls of `kalloc` succeed after
`setupkvm`: its first `n` pages are there, they hold the bytes of `f`, and the user may use them
except for those in `g`. -/
structure Img (np : ℕ) (k0 : Kmem) (R0 R : Roots) (N : ℕ) (g : ℕ → Prop) (k : Kmem) (n : ℕ)
    (f : ℕ → UInt8) : Prop where
  acc : Acc True np k0 R0 k R
  upto : Upto R k .fresh n
  tabs : Tabs R k n
  count : N = avail k + cost n
  bytes : ∀ v y, R.page k.mem (.user .fresh (PDX v) (PTX v)) = some y →
    (k.mem y).get (v % PGSIZE) = f v
  user : ∀ v y t, R.page k.mem (.user .fresh (PDX v) (PTX v)) = some y →
    R.page k.mem (.tab .fresh (PDX v)) = some t → (PTE_U (k.word t (PTX v)) ↔ ¬g (v / PGSIZE))
  guard : ∀ i, g i → i < n
  zero : ∀ v, n ≤ v / PGSIZE → f v = 0
  kmaps : ∀ i ∈ kmap, R.page k.mem (.tab .fresh i) ≠ none

theorem kmap_range : ∀ i ∈ kmap, 512 ≤ i ∧ i < NPTENTRIES := by decide

variable {N a : ℕ} {g : ℕ → Prop} {f : ℕ → UInt8}

theorem PTE_U_mkPte (x : ℕ) : PTE_U (mkPte x 6) := by
  have hp := PGSIZE_eq
  rw [PTE_U, mkPte, hp]
  omega

theorem same_page {v v' : ℕ} (h : v / PGSIZE = v' / PGSIZE) : PDX v = PDX v' ∧ PTX v = PTX v' :=
  (pageAt_iff PTX_lt).mp ((page_number v).trans h)

/-- The page `x`, which holds `b`, has been mapped at `a`. -/
structure Added (np : ℕ) (k0 : Kmem) (R0 R : Roots) (d a x : ℕ) (b : Bytes PGSIZE) (perm : ℕ)
    (k k' : Kmem) : Prop where
  acc : Acc True np k0 R0 k' R
  avail : avail k = avail k' + if R.page k.mem (.tab .fresh (PDX a)) = none then 1 else 0
  page : R.page k'.mem (.user .fresh (PDX a) (PTX a)) = some x
  content : k'.mem x = b
  entry : ∃ t, ent k'.mem d (PDX a) = some t ∧ k'.word t (PTX a) = mkPte x perm
  tabs : ∀ i, i ≠ PDX a → R.page k'.mem (.tab .fresh i) = R.page k.mem (.tab .fresh i)
  users : SameUsers R (PageAt .fresh a) k k'
  mem : ∀ i j y, R.page k.mem (.user .fresh i j) = some y → k'.mem y = k.mem y
  words : ∀ i j t, R.page k.mem (.tab .fresh i) = some t → ¬(i = PDX a ∧ j = PTX a) →
    ent k'.mem d i = some t ∧ k'.word t j = k.word t j

/-- **`mappages` of a page** that is in hand, after it has been filled. -/
theorem mappages_filled (h : Acc True np k0 R0 k (R.setSingle (.hand 0) (some x)))
    (ha : a < KERNBASE) (hd : R.root .fresh = some d) (hs : R.HandsFree)
    (hfree : R.page k.mem (.user .fresh (PDX a) (PTX a)) = none) (b : Bytes PGSIZE) (perm : ℕ) :
    Ends (mappages d a x perm) { k with mem := update k.mem x b }
      (fun ok k' => (ok = true → Added np k0 R0 R d a x b perm k k') ∧
        (ok = false → R.page k.mem (.tab .fresh (PDX a)) = none ∧ avail k = 0)) E := by
  obtain ⟨R', hR'⟩ : ∃ R', R' = R.setSingle (.hand 0) (some x) := ⟨_, rfl⟩
  obtain ⟨k2, hk2⟩ : ∃ k2 : Kmem, k2 = { k with mem := update k.mem x b } := ⟨_, rfl⟩
  have hx : R'.single (.hand 0) = some x := by simp [hR', setSingle]
  have hx1 : R'.single (.hand 1) = none := by simpa [hR', setSingle] using hs 1
  have hd' : R'.root .fresh = some d := by rw [hR']; exact hd
  have h2 : Acc True np k0 R0 k2 R' := by
    rw [hk2, hR']
    exact Acc.write_hand h (hR' ▸ hx) b
  -- the uses are as before, but for the page in hand
  have hsingle : ∀ m o, o ≠ .single (.hand 0) → R'.page m o = R.page m o := fun m o ho => by
    rw [hR']
    exact PageInv.page_setSingle_of_ne _ _ ho
  have hpage : ∀ o, o ≠ .single (.hand 0) → R'.page k2.mem o = R.page k.mem o := by
    intro o ho
    rw [hk2, hR', (write_hand h.inv (hR' ▸ hx) b).2, ← hR']
    exact hsingle _ o ho
  have huser : ∀ h i j, R'.page k2.mem (.user h i j) = R.page k.mem (.user h i j) :=
    fun h i j => hpage (.user h i j) (by simp)
  have htab : ∀ i, R'.page k2.mem (.tab .fresh i) = R.page k.mem (.tab .fresh i) :=
    fun i => hpage (.tab .fresh i) (by simp)
  have hne : ∀ o y, o ≠ .single (.hand 0) → R.page k.mem o = some y → y ≠ x := by
    rintro o y ho hy rfl
    exact ho (h2.inv.inj o (.single (.hand 0)) y ((hpage o ho).trans hy) hx)
  have hmem : ∀ y, y ≠ x → k2.mem y = k.mem y := fun y hy => by
    rw [hk2]
    exact update_of_ne hy ..
  have hav : avail k2 = avail k := by rw [hk2]; rfl
  have hfree2 : R'.page k2.mem (.user .fresh (PDX a) (PTX a)) = none := by
    rw [huser, hfree]
  rw [← hk2]
  refine (((mappages_total h2 hd' ha hx1 hfree2 perm).and
    (Acc.stable.mappages h2 hd' ha hx hx1 perm)).and (mappages_frame h2.inv hd' ha hx perm)).mono ?_
  rintro ok k3 ⟨⟨-, hu3, htrue, hfalse⟩, hframe⟩
  rw [htab, hav] at hfalse
  refine ⟨fun hok => ?_, fun hok => (hfalse hok).2⟩
  obtain ⟨h3, hmap, -, htabs, hav3⟩ := htrue hok
  obtain ⟨hentry, hdata, hent⟩ := hframe hok
  rw [hR', setSingle_back (hs 0)] at h3
  rw [htab, hav] at hav3
  refine ⟨h3, hav3, (hsingle _ (.user ..) (by simp)).symm.trans hmap, ?_, hentry, fun i hi => ?_,
    fun h' i j hT => ?_, fun i j y hy => ?_, fun i j t ht hij => ?_⟩
  · rw [hdata x ⟨.single (.hand 0), hx, fun _ => by simp, fun _ _ => by simp⟩, hk2]
    exact update_self ..
  · rw [← hsingle _ (.tab .fresh i) (by simp), htabs i hi, htab]
  · rw [← hsingle _ (.user h' i j) (by simp), hu3 h' i j hT, huser]
  · rw [hdata y ⟨.user .fresh i j, (huser ..).trans hy, fun _ => by simp, fun _ _ => by simp⟩]
    exact hmem y (hne (.user .fresh i j) y (by simp) hy)
  · obtain ⟨he, hw⟩ := hent i j t ((htab i).trans ht) hij
    exact ⟨he, by rw [hw, word, word, hmem t (hne (.tab .fresh i) t (by simp) ht)]⟩

variable {k1 : Kmem}

/-- **A page of zeros** is entered. -/
theorem Img.add (h : Img np k0 R0 R N g k (a / PGSIZE) f) (ha : a < KERNBASE)
    (hd : R.root .fresh = some d) (hs : R.HandsFree)
    (hN : a / PGSIZE % 1024 = 0 → N ≠ cost (a / PGSIZE) + 1)
    (h1 : Acc True np k0 R0 k1 (R.setSingle (.hand 0) (some x))) (hm1 : k1.mem = k.mem)
    (havail : avail k = avail k1 + 1) :
    Ends (mappages d a x 6) { k1 with mem := update k1.mem x Bytes.zero }
      (fun ok k' => ok = true ∧ Img np k0 R0 R N g k' (a / PGSIZE + 1) f) E := by
  have hnum := page_number a
  have hptx : PTX a < 1024 := PTX_lt
  have hnew : ∀ v, v / PGSIZE ≠ a / PGSIZE → ¬(PDX v = PDX a ∧ PTX v = PTX a) := fun v hv hc =>
    hv (by rw [← page_number v, ← page_number a, hc.1, hc.2])
  have hmod : R.page k1.mem (.tab .fresh (PDX a)) = none ↔ a / PGSIZE % 1024 = 0 := by
    rw [hm1, ← not_iff_not, ← ne_eq, h.tabs _ (PDX_user ha)]
    omega
  have hfree : R.page k1.mem (.user .fresh (PDX a) (PTX a)) = none := by
    rw [hm1]
    by_contra hc
    have := (h.upto (PDX a) (PDX_user ha) (PTX a) PTX_lt).mp hc
    rw [page_number] at this
    exact lt_irrefl _ this
  refine (mappages_filled h1 ha hd hs hfree Bytes.zero 6).mono ?_
  rintro ok k3 ⟨htrue, hfalse⟩
  cases ok
  · obtain ⟨hnone, hav⟩ := hfalse rfl
    refine absurd ?_ (hN (hmod.mp hnone))
    rw [h.count, havail, hav, Nat.zero_add, Nat.add_comm]
  obtain ⟨h3, hav3, hpage, hzero, ⟨t0, ht0, hw0⟩, htabs, hu3, hmem, hwords⟩ := htrue rfl
  have hold : ∀ v, v / PGSIZE ≠ a / PGSIZE → R.page k3.mem (.user .fresh (PDX v) (PTX v)) =
      R.page k.mem (.user .fresh (PDX v) (PTX v)) := by
    intro v hv
    rw [hu3 .fresh _ _ fun hc => hnew v hv hc.2, hm1]
  refine ⟨rfl, h3, ?_, fun i hi => ?_, ?_, fun v y hy => ?_, fun v y t hy ht => ?_, fun i hi => ?_,
    fun v hv => h.zero v (by omega), fun i hi => ?_⟩
  · refine h.upto.add (fun h' i j hT => ?_) hpage
    rw [hu3 h' i j hT, hm1]
  · by_cases hi' : i = PDX a
    · have htab : R.page k3.mem (.tab .fresh i) = some t0 :=
        tab_eq_some.mpr ⟨hi.trans (by decide), d, hd, hi' ▸ ht0⟩
      rw [htab]
      exact iff_of_true (by simp) (by omega)
    · rw [htabs i hi', hm1, h.tabs i hi]
      omega
  · simp only [hmod] at hav3
    rw [h.count, havail, hav3, cost, cost]
    split <;> omega
  · by_cases hv : v / PGSIZE = a / PGSIZE
    · obtain ⟨hpdx, hptx⟩ := same_page hv
      rw [hpdx, hptx, hpage] at hy
      obtain rfl := Option.some.inj hy
      rw [hzero, Bytes.get_zero, h.zero v hv.ge]
    · rw [hold v hv] at hy
      rw [hmem _ _ y (by rw [hm1]; exact hy), hm1, ← h.bytes v y hy]
  · obtain ⟨-, d', hd2, ht⟩ := tab_eq_some.mp ht
    obtain rfl := Option.some.inj (hd.symm.trans hd2)
    by_cases hv : v / PGSIZE = a / PGSIZE
    · obtain ⟨hpdx, hptx⟩ := same_page hv
      rw [hpdx, ht0] at ht
      obtain rfl := Option.some.inj ht
      rw [hptx, hw0, hv]
      exact iff_of_true (PTE_U_mkPte x) fun hc => absurd (h.guard _ hc) (lt_irrefl _)
    rw [hold v hv] at hy
    obtain ⟨-, t', ht', -⟩ := user_eq_some.mp hy
    obtain ⟨he, hw⟩ := hwords (PDX v) (PTX v) t' (by rw [hm1]; exact ht') (hnew v hv)
    obtain rfl := Option.some.inj (he.symm.trans ht)
    rw [hw, ← h.user v y t' hy ht', word, hm1, word]
  · exact (h.guard i hi).trans (Nat.lt_succ_self _)
  · have hne : i ≠ PDX a := ((PDX_user ha).trans_le (kmap_range i hi).1).ne'
    rw [htabs i hne, hm1]
    exact h.kmaps i hi

/-- The image is given up: whatever is mapped, `freevm` gives it back. -/
def Gone (np : ℕ) (k0 : Kmem) (R0 R : Roots) (k : Kmem) : Prop :=
  Acc True np k0 R0 k R ∧ ∃ m ≤ npages KERNBASE, Upto R k .fresh m

variable {sz : ℕ}

theorem npages_le (h : sz ≤ KERNBASE) : npages sz ≤ npages KERNBASE :=
  Nat.div_le_div_right (by omega)

theorem Img.gone (h : Img np k0 R0 R N g k (npages sz) f) (hsz : sz ≤ KERNBASE) :
    Gone np k0 R0 R k := ⟨h.acc, _, npages_le hsz, h.upto⟩

variable {oldsz newsz : ℕ}

/-- One round of the loop of `allocuvm`, after `kalloc` has found a page. -/
theorem Img.round {Q : ℕ → Kmem → Prop}
    (h : Img np k0 R0 R N g k (a / PGSIZE) f) (ha : a < KERNBASE) (hd : R.root .fresh = some d)
    (hs : R.HandsFree) (hN : a / PGSIZE % 1024 = 0 → N ≠ cost (a / PGSIZE) + 1)
    (h1 : Acc True np k0 R0 k1 (R.setSingle (.hand 0) (some x))) (hm1 : k1.mem = k.mem)
    (havail : avail k = avail k1 + 1)
    (hrest : ∀ k', Img np k0 R0 R N g k' ((a + PGSIZE) / PGSIZE) f →
      Ends (allocLoop d oldsz newsz n (a + PGSIZE)) k' Q E) :
    Ends (do
      clear x
      let _ ← mappages d a x 6
      allocLoop d oldsz newsz n (a + PGSIZE)) k1 Q E := by
  refine ends_bind_modify ((h.add ha hd hs hN h1 hm1 havail).bind ?_)
  rintro _ k2 ⟨rfl, h2⟩
  have hstep : (a + PGSIZE) / PGSIZE = a / PGSIZE + 1 := Nat.add_div_right a (by decide)
  exact hrest k2 (hstep ▸ h2)

/-- The loop of `allocuvm`: pages of zeros, up to the new size. -/
theorem allocLoop_img (hd : R.root .fresh = some d)
    (hs : R.HandsFree) (hN : NoDrop N (npages newsz)) (hnew : newsz < KERNBASE) :
    ∀ (n a : ℕ) {k : Kmem}, Img np k0 R0 R N g k (a / PGSIZE) f → a % PGSIZE = 0 →
      a / PGSIZE ≤ npages newsz → newsz ≤ a + n * PGSIZE →
      Ends (allocLoop d oldsz newsz n a) k (fun r k' => (r = 0 → Gone np k0 R0 R k' ∧
          (newsz = 0 ∨ N < cost (npages newsz))) ∧
        (r ≠ 0 → r = newsz ∧ Img np k0 R0 R N g k' (npages newsz) f)) fun _ => ¬0 < k0.kend := by
  have hp := PGSIZE_eq
  -- at the end all pages are there
  have hend : ∀ {k : Kmem} {a : ℕ}, Img np k0 R0 R N g k (a / PGSIZE) f → a % PGSIZE = 0 →
      a / PGSIZE ≤ npages newsz → newsz ≤ a →
      (newsz = 0 → Gone np k0 R0 R k ∧ (newsz = 0 ∨ N < cost (npages newsz))) ∧
        (newsz ≠ 0 → newsz = newsz ∧ Img np k0 R0 R N g k (npages newsz) f) := by
    intro k a h hmod hle hge
    have hn : a / PGSIZE = npages newsz := by
      refine le_antisymm hle ?_
      rw [hp] at hmod
      rw [npages, hp]
      omega
    rw [hn] at h
    exact ⟨fun hz => ⟨h.gone hnew.le, .inl hz⟩, fun _ => ⟨rfl, h⟩⟩
  intro n
  induction n with
  | zero =>
    intro a k h hmod hle hfuel
    exact ends_pure (hend h hmod hle (by omega))
  | succ n ih =>
    intro a k h hmod hle hfuel
    rw [allocLoop]
    split
    · rename_i hlt
      have ha : a < KERNBASE := hlt.trans hnew
      have hin : a / PGSIZE < npages newsz := by
        rw [hp] at hmod
        rw [npages, hp]
        omega
      refine (Acc.stable.kalloc h.acc (hs 0)).bind ?_
      rintro (_ | x) k1 ⟨hm1, hfail, hgot⟩
      · obtain ⟨h1, hav⟩ := hfail rfl
        have hu1 : Upto R k1 .fresh (a / PGSIZE) := h.upto.congr rfl fun i j => by rw [hm1]
        refine (((deallocuvm_acc hnew.le hd h1).and (deallocuvm_spec hnew.le hd h1.inv))).bind ?_
        rintro _ k2 ⟨h2, -, -, -, -, hupto⟩
        refine ends_pure ⟨fun _ => ⟨⟨h2, _, ?_, hupto _ hle hu1⟩, .inr ?_⟩, fun hc => absurd rfl hc⟩
        · exact (Nat.min_le_left ..).trans (hle.trans (npages_le hnew.le))
        · rw [h.count, hav, cost, cost]
          omega
      · obtain ⟨h1, havail⟩ := hgot x rfl
        refine h.round ha hd hs (hN _ hin) h1 hm1 havail fun k2 h2 => ih (a + PGSIZE) h2 ?_ ?_ ?_
        · rw [Nat.add_mod_right, hmod]
        · rw [Nat.add_div_right a (by decide)]
          exact hin
        · rw [hp] at hfuel ⊢
          omega
    · rename_i hge
      exact ends_pure (hend h hmod hle (by omega))

/-- **`allocuvm`**: pages of zeros are added, unless there is no memory or the size is too large. -/
theorem allocuvm_img {sz newsz : ℕ} (hd : R.root .fresh = some d)
    (hs : R.HandsFree) (hN : newsz < KERNBASE → NoDrop N (npages newsz)) (hsz : sz < KERNBASE)
    (h : Img np k0 R0 R N g k (npages sz) f) :
    Ends (allocuvm d sz newsz) k (fun r k' => (r = 0 → Gone np k0 R0 R k' ∧
        (KERNBASE ≤ newsz ∨ max sz newsz = 0 ∨ N < cost (npages newsz))) ∧
      (r ≠ 0 → r = max sz newsz ∧ r < KERNBASE ∧ Img np k0 R0 R N g k' (npages r) f))
      fun _ => ¬0 < k0.kend := by
  have hp := PGSIZE_eq
  rw [allocuvm]
  split
  · rename_i hge
    exact ends_pure ⟨fun _ => ⟨h.gone hsz.le, .inl hge⟩, fun hc => absurd rfl hc⟩
  rename_i hnew
  split
  · rename_i hlt
    refine ends_pure ⟨fun hz => ⟨h.gone hsz.le, .inr (.inl ?_)⟩,
      fun _ => ⟨(max_eq_left hlt.le).symm, hsz, h⟩⟩
    rw [max_eq_left hlt.le, hz]
  rename_i hge
  have hdiv : PGROUNDUP sz / PGSIZE = npages sz := Nat.mul_div_cancel _ (by decide)
  refine (allocLoop_img hd hs (hN (not_le.mp hnew)) (not_le.mp hnew) _ (PGROUNDUP sz) (hdiv ▸ h)
    (Nat.mul_mod_left ..) ?_ ?_).mono ?_
  · rw [hdiv, npages, npages]
    exact Nat.div_le_div_right (by omega)
  · rw [hp]
    omega
  · rintro r k' ⟨hzero, himg⟩
    refine ⟨fun hr => ⟨(hzero hr).1, .inr ((hzero hr).2.imp_left ?_)⟩, fun hr => ?_⟩
    · intro hz
      rw [max_eq_right (not_lt.mp hge), hz]
    obtain ⟨rfl, himg⟩ := himg hr
    exact ⟨(max_eq_right (not_lt.mp hge)).symm, not_le.mp hnew, himg⟩

/-! ## Writing to it -/

/-- **Bytes are written** into one of its pages. -/
theorem Img.write {l : List UInt8} (h : Img np k0 R0 R N g k n f)
    (hx : R.page k.mem (.user .fresh (PDX va) (PTX va)) = some x)
    (hlen : va % PGSIZE + l.length ≤ PGSIZE) :
    Img np k0 R0 R N g { k with mem := update k.mem x ((k.mem x).splice (va % PGSIZE) l) } n
      (overlay f va l) := by
  have hp := PGSIZE_eq
  have hw := wrote_user h.acc.inv hx ((k.mem x).splice (va % PGSIZE) l)
  have hin : va / PGSIZE < n := by
    rw [← page_number]
    obtain ⟨⟨h5, hj⟩, -⟩ := user_eq_some.mp hx
    exact (h.upto _ h5 _ hj).mp (by rw [hx]; simp)
  refine ⟨h.acc.same hw.inv rfl (.write (o := .user .fresh (PDX va) (PTX va)) rfl hx rfl rfl)
    hw.page,
    hw.upto h.upto, ?_, h.count, fun v y hy => ?_, fun v y t hy ht => ?_, h.guard, fun v hv => ?_,
    fun i hi => ?_⟩
  · intro i hi
    rw [← h.tabs i hi]
    exact not_congr (by rw [congrFun hw.page])
  · replace hy := (congrFun hw.page _).symm.trans hy
    rcases eq_or_ne y x with rfl | hyx
    · obtain ⟨hpdx, hptx⟩ : PDX v = PDX va ∧ PTX v = PTX va := by
        simpa using h.acc.inv.inj _ _ y hy hx
      have hv : v / PGSIZE = va / PGSIZE := by rw [← page_number, hpdx, hptx, page_number]
      show (update k.mem y _ y).get _ = _
      rw [update_self]
      rcases Nat.lt_or_ge v va with hlt | hge
      · rw [overlay_of_lt hlt, Bytes.get_splice_of_lt (by rw [hp] at hv ⊢; omega)]
        exact h.bytes v y hy
      rcases Nat.lt_or_ge (v - va) l.length with hin | hout
      · obtain ⟨i, rfl⟩ := Nat.exists_eq_add_of_le hge
        rw [Nat.add_sub_cancel_left] at hin
        rw [overlay_of_mem hin, show (va + i) % PGSIZE = va % PGSIZE + i by
          rw [hp] at hv ⊢
          omega]
        exact Bytes.get_splice_of_mem hin (by omega)
      · rw [overlay_of_ge (by omega), Bytes.get_splice_of_ge (by rw [hp] at hv ⊢; omega)]
        exact h.bytes v y hy
    · have hv : v / PGSIZE ≠ va / PGSIZE := by
        intro hv
        obtain ⟨hpdx, hptx⟩ := same_page hv
        rw [hpdx, hptx, hx] at hy
        exact hyx (Option.some.inj hy).symm
      show (update k.mem x _ y).get _ = _
      rw [update_of_ne hyx, h.bytes v y hy]
      rcases Nat.lt_or_ge v va with hlt | hge
      · rw [overlay_of_lt hlt]
      · rw [overlay_of_ge (by rw [hp] at hv hlen; omega)]
  · replace hy := (congrFun hw.page _).symm.trans hy
    replace ht := (congrFun hw.page _).symm.trans ht
    have htx : t ≠ x := by
      rintro rfl
      cases h.acc.inv.inj _ _ t ht hx
    rw [← h.user v y t hy ht]
    exact iff_of_eq (congrArg PTE_U (congrArg (Bytes.u32 · _) (update_of_ne htx ..)))
  · rw [overlay_of_ge (by rw [hp] at hv hlen hin; omega)]
    exact h.zero v hv
  · rw [congrFun hw.page]
    exact h.kmaps i hi

theorem Img.mapped (h : Img np k0 R0 R N g k n f) (hsz : sz ≤ KERNBASE)
    (hn : npages sz ≤ n) : Mapped R k .fresh sz := by
  have hp := PGSIZE_eq
  intro v hv
  refine Option.ne_none_iff_exists'.mp ((h.upto _ (PDX_user (hv.trans_le hsz)) _ PTX_lt).mpr ?_)
  rw [npages, hp] at hn
  rw [page_number, hp]
  omega

/-- What the file holds for the segment, from page `i` on. -/
def Segment.rest (ph : Segment) (i : ℕ) : List UInt8 :=
  (List.range (ph.filesz.toNat - i * PGSIZE)).map fun b => ph.data (i * PGSIZE + b)

theorem Segment.rest_split (ph : Segment) (i : ℕ) : ph.rest i =
    (List.range (min PGSIZE (ph.filesz.toNat - i * PGSIZE))).map
      (fun b => ph.data (i * PGSIZE + b)) ++ ph.rest (i + 1) := by
  have hp := PGSIZE_eq
  apply ext_getElem
  · simp only [Segment.rest, length_append, length_map, length_range]
    rw [hp]
    omega
  · intro b h1 h2
    simp only [Segment.rest, length_map, length_range] at h1
    rcases Nat.lt_or_ge b PGSIZE with hlt | hge
    · rw [getElem_append_left (by simp; omega)]
      simp [Segment.rest]
    rw [getElem_append_right (by simp; omega)]
    simp only [Segment.rest, getElem_map, getElem_range, length_map, length_range]
    have hb : i * PGSIZE + b = (i + 1) * PGSIZE +
        (b - min PGSIZE (ph.filesz.toNat - i * PGSIZE)) := by
      rw [hp] at h1 hge ⊢
      omega
    rw [hb]

variable {ph : Segment}

/-- The loop of `loaduvm`. -/
theorem loadLoop_img (hd : R.root .fresh = some d) (hsz : sz ≤ KERNBASE)
    (hn : npages sz ≤ n) (hend : 0 < ph.filesz.toNat → ph.vaddr.toNat + ph.filesz.toNat ≤ sz)
    (halign : ph.vaddr.toNat % PGSIZE = 0) : ∀ (m i : ℕ) {k : Kmem} {f : ℕ → UInt8},
      Img np k0 R0 R N g k n f → ph.filesz.toNat ≤ (i + m) * PGSIZE →
      Ends (loadLoop d ph m i) k (fun ok k' => ∃ f', Img np k0 R0 R N g k' n f' ∧
        (ok = true → f' = overlay f (ph.vaddr.toNat + i * PGSIZE) (ph.rest i) ∧
          (ph.filesz.toNat ≤ i * PGSIZE ∨ ph.filesz.toNat ≤ ph.avail))) E := by
  have hp := PGSIZE_eq
  -- nothing is left
  have hdone : ∀ i (f : ℕ → UInt8), ph.filesz.toNat ≤ i * PGSIZE →
      f = overlay f (ph.vaddr.toNat + i * PGSIZE) (ph.rest i) ∧
        (ph.filesz.toNat ≤ i * PGSIZE ∨ ph.filesz.toNat ≤ ph.avail) := by
    intro i f hle
    rw [Segment.rest, Nat.sub_eq_zero_of_le hle]
    exact ⟨overlay_nil.symm, .inl hle⟩
  intro m
  induction m with
  | zero =>
    intro i k f h hfuel
    exact ends_pure ⟨f, h, fun _ => hdone i f (by simpa using hfuel)⟩
  | succ m ih =>
    intro i k f h hfuel
    rw [loadLoop]
    split
    · rename_i hlt
      have hva : ph.vaddr.toNat + i * PGSIZE < sz := by
        have := hend (by omega)
        omega
      rw [Nat.mod_eq_of_lt (hva.trans_le (hsz.trans (by decide)))]
      refine (walkpgdir_mapped (h.mapped hsz hn) hd hva).bind ?_
      rintro _ _ ⟨rfl, t, rfl, -, hx⟩
      refine ends_bind_gets (ends_bind_modify ?_)
      have hmod : (ph.vaddr.toNat + i * PGSIZE) % PGSIZE = 0 := by
        rw [Nat.add_mul_mod_self_right, halign]
      have hw := h.write (l := (List.range (min (min PGSIZE (ph.filesz.toNat - i * PGSIZE))
        (ph.avail - i * PGSIZE))).map fun b => ph.data (i * PGSIZE + b)) hx (by
          rw [hmod, length_map, length_range]
          omega)
      rw [hmod] at hw
      split
      · rename_i hgot
        rw [hgot] at hw ⊢
        refine (ih (i + 1) hw ?_).mono ?_
        · rwa [Nat.add_right_comm, Nat.add_assoc]
        rintro ok k' ⟨f', h', hok⟩
        refine ⟨f', h', fun htrue => ⟨(hok htrue).1.trans ?_, .inr ?_⟩⟩
        swap
        · rcases (hok htrue).2 with hlast | hfile
          · rw [Nat.succ_mul] at hlast
            omega
          · exact hfile
        rcases Nat.lt_or_ge (ph.filesz.toNat - i * PGSIZE) PGSIZE with hlast | hmore
        · -- the last page: nothing comes after it
          have hnil : ph.rest (i + 1) = [] := by
            have hle : ph.filesz.toNat ≤ (i + 1) * PGSIZE := by
              rw [Nat.succ_mul]
              omega
            rw [Segment.rest, Nat.sub_eq_zero_of_le hle]
            rfl
          rw [ph.rest_split i, hnil, append_nil, overlay_nil]
        · rw [ph.rest_split i, ← overlay_append]
          simp only [length_map, length_range]
          rw [min_eq_left hmore, Nat.add_assoc, Nat.succ_mul]
      · exact ends_pure ⟨_, hw, by simp⟩
    · rename_i hge
      exact ends_pure ⟨f, h, fun _ => hdone i f (not_lt.mp hge)⟩

/-- **`loaduvm`** puts the bytes of the file where the header says. -/
theorem loaduvm_img (hd : R.root .fresh = some d) (hsz : sz ≤ KERNBASE)
    (hn : npages sz ≤ n) (hend : 0 < ph.filesz.toNat → ph.vaddr.toNat + ph.filesz.toNat ≤ sz)
    (halign : ph.vaddr.toNat % PGSIZE = 0) (h : Img np k0 R0 R N g k n f) :
    Ends (loaduvm d ph) k (fun ok k' => ∃ f', Img np k0 R0 R N g k' n f' ∧
      (ok = true → f' = overlay f ph.vaddr.toNat (ph.rest 0) ∧ ph.filesz.toNat ≤ ph.avail)) E := by
  have hp := PGSIZE_eq
  rw [loaduvm, if_neg (by simpa using halign)]
  refine (loadLoop_img hd hsz hn hend halign _ 0 h ?_).mono ?_
  · rw [hp]
    omega
  · rintro ok k' ⟨f', h', hok⟩
    rw [Nat.zero_mul, Nat.add_zero] at hok
    exact ⟨f', h', fun htrue => (hok htrue).imp_right fun h => h.elim (by omega) id⟩

/-- What a program header asks for: the end of its segment, as `exec` computes it. -/
def Segment.endAddr (ph : Segment) : ℕ := (ph.vaddr + ph.memsz).toNat

/-- **What `exec` does not check**, as far as it gets when `N` calls of `kalloc` succeed after
`setupkvm` and the image has `sz` bytes already. It gives up at a header that it cannot read, one
with `memsz < filesz`, a size of 0 or of `KERNBASE` and more, when there is no memory for a page,
and when the file is too short. Until then no page table may be missed; a segment has to be aligned,
and what the file holds for it must lie in the pages of the image. `Q` is about the size of the
whole image. -/
def Sound (N : ℕ) (Q : ℕ → Prop) : ℕ → List Segment → Prop
  | sz, [] => PGROUNDUP sz + 2 * PGSIZE < KERNBASE →
    NoDrop N (npages (PGROUNDUP sz + 2 * PGSIZE)) ∧
      (cost (npages (PGROUNDUP sz + 2 * PGSIZE)) ≤ N → Q (PGROUNDUP sz + 2 * PGSIZE))
  | sz, ph :: phs => ph.read = true → (ph.load = false → Sound N Q sz phs) ∧
    (ph.load = true → ph.filesz ≤ ph.memsz → ph.endAddr < KERNBASE → NoDrop N (npages ph.endAddr) ∧
      (max sz ph.endAddr ≠ 0 → cost (npages ph.endAddr) ≤ N → ph.vaddr.toNat % PGSIZE = 0 ∧
        (0 < ph.filesz.toNat → ph.vaddr.toNat + ph.filesz.toNat ≤ PGROUNDUP (max sz ph.endAddr)) ∧
        (ph.filesz.toNat ≤ ph.avail → Sound N Q (max sz ph.endAddr) phs)))

theorem cost_mono {m n : ℕ} (h : m ≤ n) : cost m ≤ cost n := by
  rw [cost, cost]
  omega

theorem Img.cost_le (h : Img np k0 R0 R N g k n f) {m : ℕ} (hm : m ≤ n) : cost m ≤ N :=
  (cost_mono hm).trans (h.count ▸ Nat.le_add_left ..)

theorem npages_mono {a b : ℕ} (h : a ≤ b) : npages a ≤ npages b := Nat.div_le_div_right (by omega)

theorem PGROUNDUP_le_KERNBASE (h : sz < KERNBASE) : PGROUNDUP sz ≤ KERNBASE := by
  have hk : KERNBASE = 0x80000000 := rfl
  rw [PGROUNDUP, PGSIZE_eq]
  omega

instance (N m : ℕ) : Decidable (NoDrop N m) := inferInstanceAs (Decidable (∀ n < m, _))

instance decidableSound (N : ℕ) (Q : ℕ → Prop) [DecidablePred Q] :
    ∀ sz phs, Decidable (Sound N Q sz phs)
  | _, [] => inferInstanceAs (Decidable (_ → _))
  | sz, ph :: phs =>
    have := decidableSound N Q sz phs
    have := decidableSound N Q (max sz ph.endAddr) phs
    inferInstanceAs (Decidable (_ → _ ∧ _))

/-- The bytes of the segments, one after the other. -/
def image : (ℕ → UInt8) → List Segment → ℕ → UInt8
  | f, [] => f
  | f, ph :: phs =>
    if ph.load then image (overlay f ph.vaddr.toNat (ph.rest 0)) phs else image f phs

/-- **The loop over the program headers.** -/
theorem loadSegments_img {Q : ℕ → Prop} (hd : R.root .fresh = some d) (hs : R.HandsFree) :
    ∀ (phs : List Segment) (sz : ℕ) {k : Kmem} {f : ℕ → UInt8},
      Sound N Q sz phs → sz < KERNBASE → Img np k0 R0 R N g k (npages sz) f →
      Ends (loadSegments d sz phs) k (fun r k' => (r = none → Gone np k0 R0 R k') ∧
        ∀ sz', r = some sz' → sz' = imageSize sz phs ∧ sz' < KERNBASE ∧ Sound N Q sz' [] ∧
          Img np k0 R0 R N g k' (npages sz') (image f phs)) fun _ => ¬0 < k0.kend := by
  intro phs
  induction phs with
  | nil =>
    intro sz k f hsound hsz h
    refine ends_pure ⟨by simp, fun sz' he => ?_⟩
    obtain rfl := Option.some.inj he
    exact ⟨rfl, hsz, hsound, h⟩
  | cons ph phs ih =>
    intro sz k f hsound hsz h
    rw [loadSegments]
    split
    · exact ends_pure ⟨fun _ => h.gone hsz.le, by simp⟩
    rename_i hread
    obtain ⟨hskip, hseg⟩ := hsound (by simpa using hread)
    split
    · rename_i hload
      rw [imageSize, if_neg (by simp [hload]), image, if_neg (by simp [hload])]
      exact ih sz (hskip hload) hsz h
    rename_i hload
    have hload : ph.load = true := by simpa using hload
    rw [imageSize, if_pos hload, image, if_pos hload]
    split
    · exact ends_pure ⟨fun _ => h.gone hsz.le, by simp⟩
    rename_i hmemsz
    replace hseg := hseg hload (UInt32.not_lt.mp hmemsz)
    refine (allocuvm_img hd hs (fun hlt => (hseg hlt).1) hsz h).bind ?_
    rintro r k1 ⟨hzero, himg⟩
    split
    · rename_i hr
      exact ends_pure ⟨fun _ => (hzero hr).1, by simp⟩
    rename_i hr
    obtain ⟨rfl, hlt, h1⟩ := himg hr
    have hnew : npages ph.endAddr ≤ npages (max sz ph.endAddr) := npages_mono (le_max_right ..)
    obtain ⟨halign, hend, hrest⟩ :=
      (hseg ((le_max_right ..).trans_lt hlt)).2 hr (h1.cost_le hnew)
    refine (loaduvm_img hd (PGROUNDUP_le_KERNBASE hlt) (npages_PGROUNDUP _).le hend halign h1).bind
      ?_
    rintro ok k2 ⟨f', h2, hok⟩
    cases ok
    · exact ends_pure ⟨fun _ => h2.gone hlt.le, by simp⟩
    · obtain ⟨rfl, hfile⟩ := hok rfl
      exact ih _ (hrest hfile) hlt h2

end Kmem

end Xv6
