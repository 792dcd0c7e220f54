import Xv6.PageNumber

/-!
# Making and freeing an address space

`setupkvm` returns a tree without user pages. `freevm` releases every frame the tree refers to once
for each reference, tables after their entries. It reads a table after releasing frames below it;
the frames still to be visited are held, hence unchanged.
-/
namespace Xv6.FreeVm

open Words Mmu Memory Kalloc Vm Outcome RadixTree PageTable TableGrowth AddressSpace PageNumber

variable {P : Nat → Prop} {m : Machine} {s s' : State} {mem : Mem} {kpdpt r t : Nat} {held rest : List Nat}

/-- The references that entry `i` of the table `t` stands for, `d` levels up from the pages. -/
def entryRefs (mem : Mem) (d t i : Nat) : List Nat :=
  match child (mem t i) with
  | none => []
  | some u => refs child width mem d u ++ [u]

theorem entryRefs_congr {mem' : Mem} {d i : Nat} (ht : mem' t = mem t)
    (hsame : ∀ g ∈ entryRefs mem d t i, mem' g = mem g) : entryRefs mem' d t i = entryRefs mem d t i := by
  rw [entryRefs, ht, entryRefs]
  cases hc : child (mem t i) with
  | none => rfl
  | some u =>
    simp only
    rw [refs_congr]
    intro g hg
    refine hsame g ?_
    simp only [entryRefs, hc, List.mem_append, List.mem_singleton]
    simp only [List.mem_cons] at hg
    tauto

def freeEntry (m : Machine) (d : Nat) (t : Word) (s : State) (i : Nat) : Except Trap State := do
  let e ← read m s (entryPtr t i)
  if has e pteP then
    let s ← freeTable m d npdEntries s (p2v (pteAddr e))
    krelease m s (p2v (pteAddr e))
  else return s

theorem freeTable_succ (d n : Nat) (s : State) (t : Word) :
    freeTable m (d + 1) n s t = (List.range n).foldlM (freeEntry m d t) s := rfl

/-- `freeTable` gives back what the table stands for and leaves the rest alone. -/
def Frees (m : Machine) (d : Nat) : Prop :=
  ∀ s t Y, Owned Managed s (refs child width s.mem d t ++ Y) → t ∈ Y →
    ∃ s', freeTable m d (width d) s (kva t) = .ok s' ∧ Owned Managed s' Y ∧ ∀ g ∈ Y, s'.mem g = s.mem g

theorem freeEntry_held (hfull : m.Full) {d i : Nat} (hd : d ≤ 3) (hfrees : Frees m d) (hi : i < 512)
    (hown : Owned Managed s (entryRefs s.mem d t i ++ held)) (ht : t ∈ held) :
    ∃ s', freeEntry m d (kva t) s i = .ok s' ∧ Owned Managed s' held ∧ ∀ g ∈ held, s'.mem g = s.mem g := by
  have htm : Managed t := hown.of_held (List.mem_append_right _ ht)
  rw [freeEntry, read_entryPtr htm.small (htm.ram hfull) hi, ok_bind]
  cases hc : child (s.mem t i) with
  | none =>
    rw [if_neg (by rw [child_eq_none.mp hc]; simp)]
    simp only [entryRefs, hc, List.nil_append] at hown
    exact ⟨s, rfl, hown, fun _ _ => rfl⟩
  | some u =>
    simp only [entryRefs, hc, List.append_assoc, List.singleton_append] at hown
    have hwidth : npdEntries = width d := by
      rw [width, if_neg (by omega), npdEntries]
    obtain ⟨s₁, hrun₁, hown₁, hmem₁⟩ := hfrees s u (u :: held) hown (by simp)
    obtain ⟨s₂, hrun₂, hown₂, hmem₂, -, -⟩ := krelease_kva hfull hown₁
    rw [if_pos (child_eq_some.mp hc).1, p2v_entry hc, hwidth, hrun₁, ok_bind]
    refine ⟨s₂, hrun₂, hown₂, ?_⟩
    intro g hg
    rw [hmem₂ g, hmem₁ g (List.mem_cons_of_mem u hg)]
    by_cases he : g = u
    · exact .inr (he ▸ hg)
    · exact .inl he

theorem freeEntries_held (hfull : m.Full) {d : Nat} (hd : d ≤ 3) (hfrees : Frees m d) (L : List Nat)
    (hL : ∀ i ∈ L, i < 512) (hown : Owned Managed s (L.flatMap (entryRefs s.mem d t) ++ held)) (ht : t ∈ held) :
    ∃ s', L.foldlM (freeEntry m d (kva t)) s = .ok s' ∧ Owned Managed s' held ∧
      ∀ g ∈ held, s'.mem g = s.mem g := by
  induction L generalizing s with
  | nil => exact ⟨s, rfl, hown, fun _ _ => rfl⟩
  | cons i L ih =>
    rw [List.flatMap_cons, List.append_assoc] at hown
    obtain ⟨s₁, hrun₁, hown₁, hmem₁⟩ := freeEntry_held hfull hd hfrees (hL i (by simp)) hown (by simp [ht])
    have hlater : L.flatMap (entryRefs s₁.mem d t) = L.flatMap (entryRefs s.mem d t) := by
      refine List.flatMap_congr (fun j hj => ?_)
      refine entryRefs_congr (hmem₁ t (by simp [ht])) (fun g hg => hmem₁ g ?_)
      exact List.mem_append_left held (List.mem_flatMap.mpr ⟨j, hj, hg⟩)
    rw [← hlater] at hown₁
    obtain ⟨s₂, hrun₂, hown₂, hmem₂⟩ := ih (fun j hj => hL j (by simp [hj])) hown₁
    refine ⟨s₂, ?_, hown₂, ?_⟩
    · rw [List.foldlM_cons, hrun₁, ok_bind, hrun₂]
    · intro g hg
      rw [hmem₂ g hg, hmem₁ g (by simp [hg])]

theorem frees (hfull : m.Full) (d : Nat) (hd : d ≤ 4) : Frees m d := by
  induction d with
  | zero =>
    intro s t Y hown _
    exact ⟨s, rfl, by simpa [refs_zero] using hown, fun _ _ => rfl⟩
  | succ d ih =>
    intro s t Y hown ht
    have hlt : ∀ i ∈ List.range (width (d + 1)), i < 512 := by
      intro i hi
      rw [List.mem_range, width] at hi
      split at hi <;> omega
    rw [refs_succ] at hown
    rw [freeTable_succ]
    exact freeEntries_held hfull (by omega) (ih (by omega)) _ hlt hown ht

/-- The kernel's slot is not among the entries that `freevm` visits. -/
theorem treeRefs_eq (h : Shape mem kpdpt r) : treeRefs mem r = refs child width mem 4 r := by
  symm
  rw [treeRefs, refs, refs, nodes_congr]
  · intro i hi
    rw [width, if_pos rfl] at hi
    exact (userMem_of_ne (.inr (by omega))).symm
  · intro p u hne hlen _ hf i
    exact (h.slot hlen hf (fun he => absurd he hne)).symm

/-- `freevm` gives back what the table stands for, whatever its entries say of the pages. -/
theorem freevm_books (hfull : m.Full) (h : Shape s.mem kpdpt r)
    (hown : Owned Managed s (treeRefs s.mem r ++ r :: rest))
    (hnot : r ∉ rest) :
    ∃ s', freevm m s (kva r) = .ok s' ∧ Owned Managed s' rest ∧ ∀ g ∈ rest, s'.mem g = s.mem g := by
  have hroot : Managed r := h.root
  rw [treeRefs_eq h] at hown
  obtain ⟨s₁, hrun₁, hown₁, hmem₁⟩ := frees hfull 4 (by omega) s r (r :: rest) hown (by simp)
  obtain ⟨s₂, hrun₂, hown₂, hmem₂, -, -⟩ := krelease_kva hfull hown₁
  have hwidth : npdEntries / 2 = width 4 := rfl
  rw [freevm, if_neg (kva_ne_zero hroot.small), hwidth, hrun₁, ok_bind]
  refine ⟨s₂, hrun₂, hown₂, ?_⟩
  intro g hg
  have hne : g ≠ r := by
    rintro rfl
    exact hnot hg
  rw [hmem₂ g (.inl hne), hmem₁ g (by simp [hg])]

/-- `freevm` always returns and leaves what others hold. -/
theorem freevm_space (hfull : m.Full) (h : Space s kpdpt r rest) :
    ∃ s', freevm m s (kva r) = .ok s' ∧ Owned Managed s' rest ∧ ∀ g ∈ rest, s'.mem g = s.mem g :=
  freevm_books hfull h.tree.shape h.owned (h.apart r (by simp))

theorem tree_emptyMap (hr : mem r = emptyMap kpdpt) (hman : Managed r) : Tree mem kpdpt r := by
  have hpte : ∀ p i, p.length = 3 → pte mem r p i = 0#64 := by
    intro p i hp
    exact pte_of_none (walk_emptyMap hr (by rintro rfl; simp at hp))
  refine ⟨shape_emptyMap hr hman, ?_, ?_, ?_, ?_, ?_⟩
  · intro p u _ hw
    by_cases hp : p = []
    · subst hp
      exact inside_nil 4
    · rw [walk_emptyMap hr hp] at hw
      cases hw
  · intro p q t _ hq _ hw
    rw [walk_emptyMap hr (by rintro rfl; simp at hq)] at hw
    cases hw
  · intro p i hp hpres
    rw [hpte p i hp] at hpres
    simp at hpres
  · intro p i q j f hp _ hc
    rw [hpte p i hp] at hc
    simp at hc
  · rw [hpte _ _ rfl]
    exact child_zero

theorem treeRefs_emptyMap (hr : mem r = emptyMap kpdpt) : treeRefs mem r = [] := by
  refine List.eq_nil_iff_forall_not_mem.mpr (fun g hg => ?_)
  obtain ⟨p, hne, -, hw⟩ := mem_refs.mp hg
  have : walk mem r p = some g := hw
  rw [walk_emptyMap hr hne] at this
  cases this

/-- A new page map: no page is mapped, and one frame of the free list is gone. -/
structure Made (s s' : State) (r : Nat) : Prop where
  walk_eq : ∀ p, p ≠ [] → walk s'.mem r p = none
  entry_eq : ∀ n, entry s'.mem r n = 0
  contents : ∀ g, g ≠ r → s'.mem g = s.mem g
  free : s.freelist = r :: s'.freelist
  checksum : s'.checksum = s.checksum

theorem setupkvm_space (hm : m.oom ≠ .null) (hfull : m.Full) (hown : Owned Managed s held) :
    Ends (setupkvm m (kva kpdpt) s) (fun e => Exhausted m e ∧ s.freelist = []) (fun x => ∃ r,
      x.2 = kva r ∧ Managed r ∧ Space x.1 kpdpt r held ∧ Made s x.1 r) := by
  refine (setupkvm_ends kpdpt hm hfull hown).imp ?_
  rintro ⟨s', v⟩ ⟨r, free, hfree, hnot, hv, hmap, hman, hmem, hfree', hsum, hown'⟩
  dsimp only at hmap hmem hfree' hsum hown' hv
  have hrefs := treeRefs_emptyMap hmap
  refine ⟨r, hv, hman, ⟨tree_emptyMap hmap hman, by rw [hrefs]; exact hown', ?_⟩, ?_, ?_, hmem, ?_, hsum⟩
  · intro g hg
    rw [hrefs, List.mem_singleton] at hg
    rw [hg]
    exact hnot
  · intro p hp
    exact walk_emptyMap hmap hp
  · intro n
    exact pte_of_none (walk_emptyMap hmap (by simp [pagePath]))
  · rw [hfree, hfree']

end Xv6.FreeVm
