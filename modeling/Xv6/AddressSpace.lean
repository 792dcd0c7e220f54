import Xv6.TableGrowth

/-!
# The address space of a process

`Tree` is the invariant of a user page table: a mapped frame is no table, a frame mapped twice and a
user page without `PTE_W` are marked for copying, and the first page is not mapped. `Space` adds the
allocator's books: a reference to a frame comes from the tree at `r` or is one of `rest`.
-/
namespace Xv6.AddressSpace

open Words Mmu Memory Kalloc Vm Outcome RadixTree PageTable TableGrowth

/-- A user page that cannot be written is marked for copying. -/
def LeafOk (e : Word) : Prop :=
  has e pteP = true → has e pteU = true → has e pteW = false → has e pteCOW = true

def Frozen (e : Word) : Prop := has e pteCOW = true ∧ has e pteW = false

structure Tree (mem : Mem) (kpdpt r : Nat) : Prop where
  shape : Shape mem kpdpt r
  low : ∀ p u, p.length ≤ 4 → walk mem r p = some u → Inside width 4 p
  sep : ∀ p q t, p.length < 4 → q.length = 4 → walk mem r p = some t → walk mem r q ≠ some t
  leaf : ∀ p i, p.length = 3 → LeafOk (pte mem r p i)
  shared : ∀ p i q j f, p.length = 3 → q.length = 3 → child (pte mem r p i) = some f →
    child (pte mem r q j) = some f → (p ≠ q ∨ i ≠ j) → Frozen (pte mem r p i)
  null : child (pte mem r [0, 0, 0] 0) = none

structure Space (s : State) (kpdpt r : Nat) (rest : List Nat) : Prop where
  tree : Tree s.mem kpdpt r
  owned : Owned Managed s (treeRefs s.mem r ++ r :: rest)
  apart : ∀ f ∈ r :: treeRefs s.mem r, f ∉ rest

variable {m : Machine} {s s' : State} {mem mem' : Mem} {kpdpt r t f g i j : Nat}
  {p q : List Nat} {a va e perm : Word} {held rest : List Nat}

def IsTable (mem : Mem) (r t : Nat) : Prop := ∃ p, p.length < 4 ∧ walk mem r p = some t

theorem isTable_root : IsTable mem r r := ⟨[], by simp, rfl⟩

theorem isTable_congr (hwalk : ∀ p, p.length < 4 → walk mem' r p = walk mem r p) :
    IsTable mem' r t ↔ IsTable mem r t := by
  constructor
  · rintro ⟨p, hp, hw⟩
    exact ⟨p, hp, by rw [← hwalk p hp, hw]⟩
  · rintro ⟨p, hp, hw⟩
    exact ⟨p, hp, by rw [hwalk p hp, hw]⟩

section

variable (h : Tree mem kpdpt r)
include h

theorem Tree.mem_treeRefs :
    f ∈ treeRefs mem r ↔ ∃ p, p ≠ [] ∧ p.length ≤ 4 ∧ walk mem r p = some f := by
  constructor
  · intro hf
    obtain ⟨p, hne, hin, hw⟩ := mem_refs.mp hf
    exact ⟨p, hne, hin.length_le, hw⟩
  · rintro ⟨p, hne, hlen, hw⟩
    exact mem_refs.mpr ⟨p, hne, h.low p f hlen hw, hw⟩

theorem Tree.table_mem (ht : IsTable mem r t) : t ∈ r :: treeRefs mem r := by
  obtain ⟨p, hlen, hw⟩ := ht
  by_cases hp : p = []
  · subst hp
    obtain rfl := Option.some.inj hw
    simp
  · exact List.mem_cons_of_mem r (h.mem_treeRefs.mpr ⟨p, hp, by omega, hw⟩)

theorem Tree.leaf_mem (hp : p.length = 3) (hc : child (pte mem r p i) = some f) :
    f ∈ treeRefs mem r :=
  h.mem_treeRefs.mpr ⟨p ++ [i], by simp, by simp [hp], by rw [h.shape.walk_leaf hp, hc]⟩

theorem Tree.leaf_not_table (hp : p.length = 3) (hc : child (pte mem r p i) = some f) :
    ¬ IsTable mem r f := by
  rintro ⟨q, hlen, hw⟩
  exact h.sep q (p ++ [i]) f hlen (by simp [hp]) hw (by rw [h.shape.walk_leaf hp, hc])

end

theorem walk_of_pte (hc : child (pte mem r p i) = some f) : ∃ t, walk mem r p = some t := by
  cases hw : walk mem r p with
  | none =>
    rw [pte_of_none hw] at hc
    simp at hc
  | some t => exact ⟨t, rfl⟩

/-- What others hold is neither free nor a table of this tree. -/
theorem Space.other (h : Space s kpdpt r rest) (hg : g ∈ rest) : g ∉ s.freelist ∧ ¬ IsTable s.mem r g := by
  refine ⟨h.owned.counted.not_mem_free (by simp [hg]), fun ht => ?_⟩
  exact h.apart g (h.tree.table_mem ht) hg

theorem Space.outside (h : Space s kpdpt r rest) (hg : ¬ Managed g) :
    g ∉ s.freelist ∧ ¬ IsTable s.mem r g := by
  constructor
  · exact fun hfree => hg (h.owned.managed g ((h.owned.counted.mem_free g).mp hfree).1)
  · rintro ⟨p, hp, hw⟩
    exact hg (h.tree.shape.managed p g hp hw)

section

variable (hsame : ∀ t, IsTable mem r t → mem' t = mem t)
include hsame

/-- A tree depends on its table pages only. -/
theorem walk_tables (hlen : p.length ≤ 4) :
    walk mem' r p = walk mem r p :=
  walk_congr p (fun q t hq hw => hsame t ⟨q, by omega, hw⟩)

theorem pte_tables (hp : p.length = 3) :
    pte mem' r p i = pte mem r p i := by
  simp only [pte, walk_tables hsame (show p.length ≤ 4 by omega)]
  cases hw : walk mem r p with
  | none => rfl
  | some t => simp only [hsame t ⟨p, by omega, hw⟩]

theorem treeRefs_tables : treeRefs mem' r = treeRefs mem r := by
  have huser : ∀ t, IsTable mem r t → ∀ i, userMem mem' r t i = userMem mem r t i := by
    intro t ht i
    by_cases he : t = r
    · subst he
      simp only [userMem, setWord, hsame t ht, setPage_same]
    · rw [userMem_frame he, userMem_frame he, hsame t ht]
  simp only [treeRefs, refs]
  rw [nodes_congr (fun i _ => huser r isTable_root i) (fun p u _ hlen _ hw i => huser u ⟨p, hlen, hw⟩ i)]

end

theorem Tree.congr (h : Tree mem kpdpt r) (hsame : ∀ t, IsTable mem r t → mem' t = mem t) : Tree mem' kpdpt r := by
  have hwalk : ∀ p, p.length ≤ 4 → walk mem' r p = walk mem r p := fun p hp => walk_tables hsame hp
  have hpte : ∀ p i, p.length = 3 → pte mem' r p i = pte mem r p i := fun p i hp => pte_tables hsame hp
  refine ⟨h.shape.congr (fun p t hp hw => hsame t ⟨p, hp, hw⟩), ?_, ?_, ?_, ?_, ?_⟩
  · intro p u hp hw
    rw [hwalk p hp] at hw
    exact h.low p u hp hw
  · intro p q t hp hq hw
    rw [hwalk p (by omega)] at hw
    rw [hwalk q (by omega)]
    exact h.sep p q t hp hq hw
  · intro p i hp
    rw [hpte p i hp]
    exact h.leaf p i hp
  · intro p i q j f hp hq hc hc'
    rw [hpte p i hp] at hc ⊢
    rw [hpte q j hq] at hc'
    exact h.shared p i q j f hp hq hc hc'
  · rw [hpte _ _ rfl]
    exact h.null

/-- An address space survives whatever happens outside its table pages and the books. -/
theorem Space.congr (h : Space s kpdpt r rest) (hsame : ∀ t, IsTable s.mem r t → s'.mem t = s.mem t)
    (hfree : s'.freelist = s.freelist) (hrefs : s'.refs = s.refs) : Space s' kpdpt r rest := by
  have htr := treeRefs_tables hsame
  refine ⟨h.tree.congr hsame, ?_, ?_⟩
  · rw [htr]
    exact h.owned.congr hfree hrefs
  · rw [htr]
    exact h.apart

theorem Tree.extends {new : List Nat} (h : Tree s.mem kpdpt r) (hs : Shape s'.mem kpdpt r)
    (he : Extends True s s' r new) (hnew : ∀ f ∈ new, f ∉ treeRefs s.mem r) : Tree s'.mem kpdpt r := by
  have hleaf : ∀ q, q.length = 4 → walk s'.mem r q = walk s.mem r q := by
    intro q hq
    have hne : q ≠ [] := by
      rintro rfl
      simp at hq
    obtain ⟨p, i, rfl⟩ : ∃ p i, q = p ++ [i] :=
      ⟨q.dropLast, q.getLast hne, (List.dropLast_append_getLast hne).symm⟩
    have hp : p.length = 3 := by simpa using hq
    rw [hs.walk_leaf hp, h.shape.walk_leaf hp, he.map p i hp]
  refine ⟨hs, ?_, ?_, ?_, ?_, ?_⟩
  · intro p u hp hw
    by_cases h4 : p.length = 4
    · rw [hleaf p h4] at hw
      exact h.low p u hp hw
    · rcases he.tables p u (by omega) hw with hw | ⟨-, -, hin⟩
      · exact h.low p u hp hw
      · exact hin trivial
  · intro p q t hp hq hw
    rw [hleaf q hq]
    rcases he.tables p t hp hw with hw | ⟨hn, -⟩
    · exact h.sep p q t hp hq hw
    · intro hw'
      exact hnew t hn (h.mem_treeRefs.mpr ⟨q, by rintro rfl; simp at hq, by omega, hw'⟩)
  · intro p i hp
    rw [he.map p i hp]
    exact h.leaf p i hp
  · intro p i q j f hp hq hc hc'
    rw [he.map p i hp] at hc ⊢
    rw [he.map q j hq] at hc'
    exact h.shared p i q j f hp hq hc hc'
  · rw [he.map _ _ rfl]
    exact h.null

/-- A store to a last-level entry keeps the invariant if the new entry fits in with the others. -/
theorem Tree.setPte (h : Tree mem kpdpt r) (hp : p.length = 3) (hw : walk mem r p = some t)
    (hin : Inside width 4 (p ++ [i])) (hnull : ∀ f, child e = some f → p ≠ [0, 0, 0] ∨ i ≠ 0) (hleaf : LeafOk e)
    (hsep : ∀ f, child e = some f → ¬ IsTable mem r f)
    (hshared : ∀ f q j, child e = some f → q.length = 3 → (q ≠ p ∨ j ≠ i) → child (pte mem r q j) = some f →
      Frozen e ∧ Frozen (pte mem r q j)) : Tree (setWord mem t i e) kpdpt r := by
  have hwalk := fun q hq => walk_setPte (i := i) (e := e) h.shape hp hw q hq
  have htab := fun q hq => walk_setPte_table (i := i) (e := e) h.shape hp hw q hq
  have hpte := fun q hq j => pte_setPte (i := i) (e := e) h.shape hp hw q hq j
  refine ⟨shape_setPte h.shape hp hw, ?_, ?_, ?_, ?_, ?_⟩
  · intro q u hq hu
    rw [hwalk q hq] at hu
    split at hu
    · rename_i he
      rw [he]
      exact hin
    · exact h.low q u hq hu
  · intro q q' u hq hq' hu hu'
    rw [htab q hq] at hu
    rw [hwalk q' (by omega)] at hu'
    split at hu'
    · exact hsep u hu' ⟨q, hq, hu⟩
    · exact h.sep q q' u hq hq' hu hu'
  · intro q j hq
    rw [hpte q hq j]
    split
    · exact hleaf
    · exact h.leaf q j hq
  · intro q j q' j' f hq hq' hc hc' hne
    rw [hpte q hq j] at hc ⊢
    rw [hpte q' hq' j'] at hc'
    by_cases h₁ : q = p ∧ j = i
    · rw [if_pos h₁] at hc ⊢
      have h₂ : ¬ (q' = p ∧ j' = i) := by
        rintro ⟨rfl, rfl⟩
        obtain ⟨rfl, rfl⟩ := h₁
        simp at hne
      rw [if_neg h₂] at hc'
      have hor : q' ≠ p ∨ j' ≠ i := by
        by_cases hq'p : q' = p
        · exact .inr (fun hj => h₂ ⟨hq'p, hj⟩)
        · exact .inl hq'p
      exact (hshared f q' j' hc hq' hor hc').1
    · rw [if_neg h₁] at hc ⊢
      by_cases h₂ : q' = p ∧ j' = i
      · rw [if_pos h₂] at hc'
        have hor : q ≠ p ∨ j ≠ i := by
          by_cases hqp : q = p
          · exact .inr (fun hj => h₁ ⟨hqp, hj⟩)
          · exact .inl hqp
        exact (hshared f q j hc' hq hor hc).2
      · rw [if_neg h₂] at hc'
        exact h.shared q j q' j' f hq hq' hc hc' hne
  · rw [hpte _ rfl]
    split
    · rename_i he
      cases hc : child e with
      | none => rfl
      | some f =>
        rcases hnull f hc with hn | hn
        · exact absurd he.1.symm hn
        · exact absurd he.2.symm hn
    · exact h.null

theorem inside_leaf (ha : pmx a < 256) : Inside width 4 (path a ++ [ptx a]) := by
  have h₂ := pdpx_lt a
  have h₃ := pdx_lt a
  have h₄ := ptx_lt a
  simp [path, Inside, width, ha, h₂, h₃, h₄]

/-- The page of `a` was not mapped and now has the entry `e`; at most three frames of the
free list became tables, none if the tables of `a` were there. -/
structure Filled (s s' : State) (r : Nat) (a e : Word) : Prop where
  old : has (pte s.mem r (path a) (ptx a)) pteP = false
  map : ∀ p i, p.length = 3 → pte s'.mem r p i = if p = path a ∧ i = ptx a then e else pte s.mem r p i
  mono : ∀ p t, p.length < 4 → walk s.mem r p = some t → walk s'.mem r p = some t
  tables : ∀ t, IsTable s'.mem r t → IsTable s.mem r t ∨ t ∈ s.freelist
  found : walk s'.mem r (path a) ≠ none
  contents : ∀ g, g ∉ s.freelist → ¬ IsTable s.mem r g → s'.mem g = s.mem g
  free : ∃ new, s.freelist = new ++ s'.freelist ∧ new.length ≤ 3 ∧ (walk s.mem r (path a) ≠ none → new = [])
  checksum : s'.checksum = s.checksum

theorem child_fresh (hf : Managed f) (hperm : IsFlags perm) : child (frameAddr f ||| perm ||| pteP) = some f := by
  rw [BitVec.or_assoc]
  refine child_mkEntry (by have := hf.small; omega) (hperm.or isFlags_pteP) ?_
  rw [has_or]
  simp [show has pteP pteP = true by decide]

/-- The references of the tree are those of `mem` in `R` and the frames `N`. -/
theorem Space.exchange {R N : List Nat} (hapart : ∀ f ∈ r :: treeRefs mem r, f ∉ rest)
    (htree : Tree s.mem kpdpt r) (hrefs : (treeRefs s.mem r).Perm (N ++ R))
    (hR : ∀ g ∈ R, g ∈ treeRefs mem r) (hnew : ∀ g ∈ N, g ∉ rest)
    (hown : Owned Managed s (N ++ R ++ r :: rest)) : Space s kpdpt r rest := by
  refine ⟨htree, hown.perm (hrefs.symm.append_right _), fun g hg => ?_⟩
  rw [List.mem_cons, hrefs.mem_iff, List.mem_append] at hg
  rcases hg with rfl | hg | hg
  · exact hapart g (by simp)
  · exact hnew g hg
  · exact hapart g (List.mem_cons_of_mem r (hR g hg))

section Fresh

variable {s₁ : State} {new : List Nat} (h : Tree s.mem kpdpt r)
  (hown : Owned Managed s (f :: (treeRefs s.mem r ++ r :: rest)))
  (hf : f ∉ treeRefs s.mem r ++ r :: rest) (hext : Extends True s s₁ r new)

include hown hext in
theorem not_new : ∀ g ∈ new, g ∉ f :: (treeRefs s.mem r ++ r :: rest) := by
  intro g hg
  apply hown.counted.not_mem_held
  rw [hext.free]
  simp [hg]

include h in
theorem Tree.table_held (ht : IsTable s.mem r t) : t ∈ treeRefs s.mem r ++ r :: rest := by
  have := h.table_mem ht
  simp only [List.mem_cons, List.mem_append] at this ⊢
  tauto

include hext in
theorem isTable_extends (ht : IsTable s₁.mem r t) : IsTable s.mem r t ∨ t ∈ new := by
  obtain ⟨p, hp, hw⟩ := ht
  exact (hext.tables p t hp hw).imp (⟨p, hp, ·⟩) (·.1)

variable (hs₁ : Shape s₁.mem kpdpt r) (hw : walk s₁.mem r (path a) = some t)

include h hown hf hext hs₁ hw in
theorem tree_fresh (ha : pmx a < 256) (hnull : path a ≠ [0, 0, 0] ∨ ptx a ≠ 0)
    (hchild : child e = some f) (hleaf : LeafOk e) : Tree (setWord s₁.mem t (ptx a) e) kpdpt r := by
  have hnew := not_new hown hext
  have h₁ := h.extends hs₁ hext fun g hg hmem => hnew g hg (by simp [hmem])
  refine h₁.setPte rfl hw (inside_leaf ha) (fun _ _ => hnull) hleaf ?_ ?_
  · intro g hg ht
    obtain rfl := Option.some.inj (hchild.symm.trans hg)
    rcases isTable_extends hext ht with ht | hn
    · exact hf (h.table_held ht)
    · exact hnew f hn (by simp)
  · intro g q j hg hq _ hc
    obtain rfl := Option.some.inj (hchild.symm.trans hg)
    rw [hext.map q j hq] at hc
    exact absurd (h.leaf_mem hq hc) (fun hmem => hf (by simp [hmem]))

include hext hs₁ hw in
theorem refs_fresh (ha : pmx a < 256) (hold : has (pte s.mem r (path a) (ptx a)) pteP = false)
    (hchild : child e = some f) :
    (treeRefs (setWord s₁.mem t (ptx a) e) r).Perm (f :: new ++ treeRefs s.mem r) := by
  have hempty : child (pte s₁.mem r (path a) (ptx a)) = none := by
    rw [hext.map _ _ rfl]
    exact child_eq_none.mpr hold
  have hfill := treeRefs_fill (e := e) hs₁ rfl hw (inside_leaf ha) hempty
  rw [hchild] at hfill
  exact hfill.trans ((hext.refs trivial).cons f)

include hext hs₁ hw in
theorem filled_fresh (hold : has (pte s.mem r (path a) (ptx a)) pteP = false) (hlen : new.length ≤ 3)
    (hsame : walk s.mem r (path a) ≠ none → s₁ = s) :
    Filled s { s₁ with mem := setWord s₁.mem t (ptx a) e } r a e := by
  have hfree (g : Nat) (hg : g ∈ new) : g ∈ s.freelist := by
    rw [hext.free]
    simp [hg]
  refine ⟨hold, ?_, ?_, ?_, ?_, ?_, ⟨new.reverse, hext.free, by simpa using hlen, ?_⟩, hext.checksum⟩
  · intro p i hp
    rw [pte_setPte hs₁ rfl hw p hp i, hext.map p i hp]
  · intro p u hp hu
    rw [walk_setPte_table hs₁ rfl hw p hp]
    exact hext.mono p u hp hu
  · rintro u ⟨p, hp, hu⟩
    rw [walk_setPte_table hs₁ rfl hw p hp] at hu
    exact (isTable_extends hext ⟨p, hp, hu⟩).imp_right (hfree u)
  · rw [walk_setPte_table hs₁ rfl hw (path a) (by simp [path]), hw]
    simp
  · intro g hg hgt
    have hgt' : g ≠ t := by
      rintro rfl
      exact (isTable_extends hext ⟨_, by simp [path], hw⟩).elim hgt (fun hn => hg (hfree g hn))
    simp only [setWord_other hgt']
    exact hext.frame g (fun hn => hg (hfree g hn)) (fun p hp hwp => hgt ⟨p, by omega, hwp⟩)
  · intro hne
    simpa [hsame hne] using hext.free

end Fresh

theorem mapPage_fresh (hm : m.oom ≠ .null) (hfull : m.Full) (h : Tree s.mem kpdpt r)
    (hown : Owned Managed s (f :: (treeRefs s.mem r ++ r :: rest)))
    (hapart : ∀ g ∈ r :: treeRefs s.mem r, g ∉ rest) (hf : f ∉ treeRefs s.mem r ++ r :: rest)
    (ha : pmx a < 256) (hnull : path a ≠ [0, 0, 0] ∨ ptx a ≠ 0) (hperm : IsFlags perm)
    (hleaf : LeafOk (frameAddr f ||| perm ||| pteP)) :
    Ends (mapPage m s (kva r) perm a (frameAddr f))
      (fun e => (Exhausted m e ∧ s.freelist.length < 3) ∨
        (e = .panic "remap" ∧ has (pte s.mem r (path a) (ptx a)) pteP = true))
      (fun x => x.2 = 0 ∧ Space x.1 kpdpt r rest ∧
        Filled s x.1 r a (frameAddr f ||| perm ||| pteP)) := by
  have htab : TablesIn s.mem r (f :: (treeRefs s.mem r ++ r :: rest)) :=
    fun p t hp hw => List.mem_cons_of_mem f (h.table_held ⟨p, hp, hw⟩)
  refine (mapPage_ends True perm (frameAddr f) hm hfull h.shape hown htab (by omega)
    (fun _ => ha)).imp ?_
  rintro x ⟨s₁, t, new, rfl, hold, hw, hs₁, ho₁, hlen, hext, hsame⟩
  have hchild := child_fresh (hown.of_held List.mem_cons_self) hperm
  have hnew := not_new hown hext
  refine ⟨rfl, ?_, filled_fresh hext hs₁ hw hold hlen hsame⟩
  refine Space.exchange hapart (tree_fresh h hown hf hext hs₁ hw ha hnull hchild hleaf)
    (refs_fresh hext hs₁ hw ha hold hchild) (fun _ hg => hg) ?_ ?_
  · intro g hg hgr
    rcases List.mem_cons.mp hg with rfl | hg
    · exact hf (by simp [hgr])
    · exact hnew g hg (by simp [hgr])
  · refine (ho₁.perm (List.perm_middle.trans (List.Perm.of_eq ?_))).congr rfl rfl
    simp

end Xv6.AddressSpace
