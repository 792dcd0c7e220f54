import Xv6.AddressSpace

/-!
# Pages by number

`entry` is the page-table entry of page `n`; the user part of an address space is the
numbers below `2 ^ 35`. The kernel reaches an entry through `walkpgdir`, and a store to it
changes that page's entry and the references of the tree, and nothing else.
-/
namespace Xv6.PageNumber

open Words Mmu Memory Kalloc Vm RadixTree PageTable AddressSpace

def pagePath (n : Nat) : List Nat := [n / 2 ^ 27 % 512, n / 2 ^ 18 % 512, n / 2 ^ 9 % 512]

def entry (mem : Mem) (r n : Nat) : Word := pte mem r (pagePath n) (n % 512)

variable {m : Machine} {s s' s₁ : State} {mem mem' : Mem} {kpdpt r t f g i j n n' lo hi k : Nat}
  {p q : List Nat} {a va e perm : Word} {held rest : List Nat} {page : Page}

@[simp] theorem pagePath_length (n : Nat) : (pagePath n).length = 3 := rfl

theorem path_page (a : Word) : path a = pagePath (a.toNat / 4096) := by
  simp only [path, pagePath, pmx_eq, pdpx_eq, pdx_eq, Nat.div_div_eq_div_mul]
  norm_num

theorem ptx_page (a : Word) : ptx a = a.toNat / 4096 % 512 := ptx_eq a

theorem path_of_page (ha : a.toNat = n * 4096) : path a = pagePath n := by
  rw [path_page, ha, Nat.mul_div_cancel n (by omega)]

theorem ptx_of_page (ha : a.toNat = n * 4096) : ptx a = n % 512 := by
  rw [ptx_page, ha, Nat.mul_div_cancel n (by omega)]

theorem pmx_of_page (ha : a.toNat = n * 4096) (hn : n < 2 ^ 35) : pmx a < 256 := by
  rw [pmx_eq, ha]
  omega

theorem pagePath_inj (hn : n < 2 ^ 36) (hn' : n' < 2 ^ 36) (h : pagePath n = pagePath n')
    (hi : n % 512 = n' % 512) :
    n = n' := by
  simp only [pagePath, List.cons.injEq, and_true] at h
  omega

theorem inside_pagePath (hn : n < 2 ^ 35) : Inside width 4 (pagePath n ++ [n % 512]) := by
  simp only [pagePath, List.cons_append, List.nil_append, Inside, width, ↓reduceIte, and_true]
  rw [if_neg (by omega), if_neg (by omega), if_neg (by omega)]
  omega

/-- Every slot that the tree may use belongs to a page. -/
theorem exists_page (hp : p.length = 3) (hin : Inside width 4 (p ++ [i])) :
    ∃ n, n < 2 ^ 35 ∧ p = pagePath n ∧ i = n % 512 := by
  obtain ⟨x, y, z, rfl⟩ : ∃ x y z, p = [x, y, z] := List.length_eq_three.mp hp
  simp only [List.cons_append, List.nil_append, Inside, width] at hin
  obtain ⟨-, hx, -, hy, -, hz, -, hi, -⟩ := hin
  simp only [↓reduceIte] at hx
  rw [if_neg (by omega)] at hy hz hi
  refine ⟨((x * 512 + y) * 512 + z) * 512 + i, by omega, ?_, by omega⟩
  simp only [pagePath, List.cons.injEq, and_true]
  omega

theorem entry_page (ha : a.toNat = n * 4096) : pte mem r (path a) (ptx a) = entry mem r n := by
  rw [path_of_page ha, ptx_of_page ha]
  rfl

theorem next_page (ha : a.toNat = n * 4096) (hn : n + 1 < 2 ^ 52) : (a + 0x1000).toNat = (n + 1) * 4096 := by
  rw [BitVec.toNat_add, ha, show (0x1000 : Word).toNat = 4096 from rfl]
  omega

/-- `mem'` is `mem` after the store of `e` to the entry of page `n`. -/
structure Stored (mem mem' : Mem) (r n : Nat) (e : Word) : Prop where
  pte_eq : ∀ p i, p.length = 3 → pte mem' r p i = if p = pagePath n ∧ i = n % 512 then e else pte mem r p i
  walk_eq : ∀ p, p.length < 4 → walk mem' r p = walk mem r p
  refs : (treeRefs mem' r ++ (child (entry mem r n)).toList).Perm (treeRefs mem r ++ (child e).toList)
  frame : ∀ g, ¬ IsTable mem r g → mem' g = mem g

theorem stored_setWord (h : Shape mem kpdpt r) (hn : n < 2 ^ 35) (hw : walk mem r (pagePath n) = some t) :
    Stored mem (setWord mem t (n % 512) e) r n e := by
  refine ⟨fun p i hp => pte_setPte h rfl hw p hp i, fun p hp => walk_setPte_table h rfl hw p hp,
    treeRefs_setPte h rfl hw (inside_pagePath hn), ?_⟩
  intro g hg
  refine setWord_other ?_ _ _
  rintro rfl
  exact hg ⟨_, by simp, hw⟩

theorem Stored.entry_eq (h : Stored mem mem' r n e) (hn : n < 2 ^ 36) (hn' : n' < 2 ^ 36) :
    entry mem' r n' = if n' = n then e else entry mem r n' := by
  rw [entry, h.pte_eq _ _ rfl]
  by_cases he : n' = n
  · subst he
    simp
  · rw [if_neg he, if_neg]
    · rfl
    · rintro ⟨h₁, h₂⟩
      exact he (pagePath_inj hn' hn h₁ h₂)

/-- The references of the tree, when the page mapped `f`. -/
theorem Stored.exchange {R : List Nat} (h : Stored mem mem' r n e) (hc : child (entry mem r n) = some f)
    (hR : (treeRefs mem r).Perm (f :: R)) : (treeRefs mem' r).Perm ((child e).toList ++ R) := by
  have hrefs := h.refs
  rw [hc, Option.toList_some] at hrefs
  have hback := hrefs.trans (hR.append_right _)
  exact ((List.perm_append_singleton f _).symm.trans
    (hback.trans (List.perm_append_comm.cons f))).cons_inv

theorem page_of_leaf (h : Tree mem kpdpt r) (hp : p.length = 3) (hc : child (pte mem r p i) = some f) :
    ∃ n, n < 2 ^ 35 ∧ p = pagePath n ∧ i = n % 512 :=
  exists_page hp (h.low _ f (by simp [hp]) (by rw [h.shape.walk_leaf hp, hc]))

theorem tree_setEntry (h : Tree mem kpdpt r) (hn : n < 2 ^ 35) (hw : walk mem r (pagePath n) = some t)
    (hnull : ∀ f, child e = some f → 0 < n) (hleaf : LeafOk e) (hsep : ∀ f, child e = some f → ¬ IsTable mem r f)
    (hshared : ∀ f n', child e = some f → n' < 2 ^ 35 → n' ≠ n → child (entry mem r n') = some f →
      Frozen e ∧ Frozen (entry mem r n')) : Tree (setWord mem t (n % 512) e) kpdpt r := by
  refine h.setPte rfl hw (inside_pagePath hn) ?_ hleaf hsep ?_
  · intro f hf
    by_contra hc
    simp only [not_or, not_not] at hc
    have h0 := pagePath_inj (by omega : n < 2 ^ 36) (by omega : 0 < 2 ^ 36)
      (hc.1.trans (by simp [pagePath])) (by omega)
    have := hnull f hf
    omega
  · intro f q j hf hq hne hc
    obtain ⟨n', hn', rfl, rfl⟩ := page_of_leaf h hq hc
    refine hshared f n' hf hn' ?_ hc
    rintro rfl
    simp at hne

theorem leaf_mem_treeRefs (h : Shape mem kpdpt r) (hn : n < 2 ^ 35) (hc : child (entry mem r n) = some f) :
    f ∈ treeRefs mem r :=
  mem_refs.mpr ⟨pagePath n ++ [n % 512], by simp, inside_pagePath hn, (h.walk_leaf rfl).trans hc⟩

/-- Different pages have different slots. -/
theorem slot_ne (h : Shape mem kpdpt r) (hn : n < 2 ^ 36) (hn' : n' < 2 ^ 36) (hne : n ≠ n') {t' : Nat}
    (hw : walk mem r (pagePath n) = some t) (hw' : walk mem r (pagePath n') = some t') :
    t ≠ t' ∨ n % 512 ≠ n' % 512 := by
  by_contra hcon
  simp only [not_or, not_not] at hcon
  obtain ⟨rfl, hi⟩ := hcon
  exact hne (pagePath_inj hn hn' (h.uniq _ _ t (by simp) (by simp) hw hw') hi)

/-- Two pages that map one frame are both marked for copying. -/
theorem frozen_of_shared (h : Tree mem kpdpt r) (hn : n < 2 ^ 36) (hn' : n' < 2 ^ 36) (hne : n ≠ n')
    (hc : child (entry mem r n) = some f) (hc' : child (entry mem r n') = some f) : Frozen (entry mem r n) := by
  refine h.shared _ _ _ _ f rfl rfl hc hc' ?_
  by_contra hcon
  simp only [not_or, not_not] at hcon
  exact hne (pagePath_inj hn hn' hcon.1 hcon.2)

/-- `walkpgdir(pgdir, a, 0)` at a page address. -/
theorem walkpgdir_page (hfull : m.Full) (h : Tree s.mem kpdpt r) (ha : a.toNat = n * 4096) (hn : n < 2 ^ 35) :
    walkpgdir m s (kva r) a false =
      .ok (s, (walk s.mem r (pagePath n)).map (fun t => entryPtr (kva t) (n % 512))) := by
  have hpm := pmx_of_page ha hn
  rw [walkpgdir_false (h.shape.reaches hfull) h.shape (by omega), path_of_page ha, ptx_of_page ha]

theorem table_managed (h : Tree s.mem kpdpt r) (hw : walk s.mem r (pagePath n) = some t) : Managed t :=
  h.shape.managed _ t (by simp) hw

theorem read_entry (hfull : m.Full) (h : Tree s.mem kpdpt r) (hw : walk s.mem r (pagePath n) = some t) :
    Xv6.Memory.read m s (entryPtr (kva t) (n % 512)) = .ok (entry s.mem r n) := by
  have hman := table_managed h hw
  rw [read_entryPtr hman.small (hman.ram hfull) (by omega), entry, pte_of_walk hw]

theorem write_entry (hfull : m.Full) (hman : Managed t) (e : Word) :
    write m s (entryPtr (kva t) (n % 512)) e = .ok { s with mem := setWord s.mem t (n % 512) e } :=
  write_entryPtr hman.small (hman.ram hfull) (Nat.mod_lt n (by omega)) e

/-- The address that the kernel computes from an entry. -/
theorem p2v_entry (hc : child e = some f) : p2v (pteAddr e) = kva f := by
  rw [p2v_pteAddr, (child_eq_some.mp hc).2]

end Xv6.PageNumber
