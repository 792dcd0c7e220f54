import Mathlib.Data.Set.Card
import Xv6.Boot

/-!
# Frame conservation and write isolation

Two invariants of every run in which a store faults at a page without `PTE_W` only. Every frame is
free or has as many references as its counter says: from user pages, from places of page-table pages
and from the kernel's own uses. And a frame that a page can be written through belongs to that page
alone.
-/
namespace Xv6.FrameBooks

open Words Mmu Memory Kalloc Vm RadixTree PageTable AddressSpace PageNumber PageWalk Dedup Kernel
open KernelInv KernelStep Boot Interleaving

variable {s : Sys} {mem : Mem} {kpdpt r f n n' : Nat} {d d' : Pgdir} {v : Word} {a : Act}

/-- A fault is at a page without `PTE_W`. -/
def Plain (s : Sys) : Act → Prop
  | .copyonwrite d v => ∀ pg, hwWalk s.vm.mem d.root v = some pg → pg.writable = false
  | _ => True

theorem exists_first_plain : ∃ s d, Reach (system pc) Plain s ∧ KernelInv.Inv s ∧ First s d :=
  exists_first Plain pc_oom pc_full (fun _ _ => trivial) (fun _ _ _ => trivial)

/-- The large pages are writable. -/
theorem mild_of_plain (h : KernelInv.Inv s) (ha : Allowed s a) (hp : Plain s a) : Mild s a := by
  cases a with
  | copyonwrite d v =>
    obtain ⟨hd, -, hcan, -⟩ := ha
    have htree := (h.sound hd).tree
    have hk := h.owned.of_held (mem_held.mpr (.inr h.kpdpt_own))
    intro pg hpg
    by_cases hv : pmx v = 256
    · by_cases h₀ : pdpx v = 0 ∨ pdpx v = 3
      · obtain ⟨pg', hpg', -, hw⟩ := hwWalk_slot htree hk h.world.shared hcan hv h₀
        exact absurd (hp pg' hpg') (by simp [hw])
      · have hzero : kernelPdpt (pdpx v) = 0 := by
          rw [not_or] at h₀
          simp [kernelPdpt, h₀]
        obtain ⟨hpres, hfr⟩ := child_eq_some.mp (child_kernelEntry (by have := hk.small; omega : s.kpdpt < 2 ^ 52))
        simp [hwWalk, hv, htree.shape.kernel, hfr, h.world.shared, hzero] at hpg
    · cases hw : walk s.vm.mem d.root (path v) with
      | none =>
        rw [hwWalk_missing htree.shape hv hw] at hpg
        cases hpg
      | some t =>
        rw [hwWalk_of_walk htree.shape hv hcan hw] at hpg
        split at hpg
        · cases hpg
          rfl
        · cases hpg
  | _ => trivial

theorem inv_plain (h : Reach (system pc) Plain s) : KernelInv.Inv s :=
  inv_reach pc_oom pc_full (fun _ _ hinv ha hp => mild_of_plain hinv ha hp) h

/-- How often a tree refers to an object is the number of paths that lead to it. -/
theorem count_refs {E : Type} {child : E → Option Nat} {width : Nat → Nat} {mem : Nat → Nat → E} (h t u : Nat) :
    (refs child width mem h t).count u =
      {p | p ≠ [] ∧ Inside width h p ∧ follow child mem t p = some u}.ncard := by
  let paths := ((nodes child width mem h t).filter (fun n => n.2 = u)).map Prod.fst
  have hnodup : paths.Nodup := (paths_nodup h t).sublist ((List.filter_sublist).map Prod.fst)
  have hset : {p | p ≠ [] ∧ Inside width h p ∧ follow child mem t p = some u} =
    (paths.toFinset : Set (List Nat)) := by
    ext p
    simp [paths, mem_nodes]
  rw [hset, Set.ncard_coe_finset, List.toFinset_card_of_nodup hnodup, List.length_map, refs, List.count,
    List.countP_map, List.countP_eq_length_filter]
  congr 1

theorem finite_paths {E : Type} {child : E → Option Nat} {width : Nat → Nat} {mem : Nat → Nat → E} (h t u : Nat) :
    {p | p ≠ [] ∧ Inside width h p ∧ follow child mem t p = some u}.Finite := by
  refine (((nodes child width mem h t).map Prod.fst).toFinset.finite_toSet).subset ?_
  intro p hp
  simp only [List.coe_toFinset, List.mem_map, Set.mem_ofPred_eq]
  exact ⟨(p, u), mem_nodes.mpr hp, rfl⟩

def leaves (mem : Mem) (r f : Nat) : Set Nat := {n | n < 2 ^ 35 ∧ child (entry mem r n) = some f}

def tables (mem : Mem) (r f : Nat) : Set (List Nat) := {p | p.length < 4 ∧ walk mem r p = some f}

theorem leaves_image (h : Tree mem kpdpt r) :
    (fun n => pagePath n ++ [n % 512]) '' leaves mem r f = {p | p.length = 4 ∧ walk mem r p = some f} := by
  ext p
  constructor
  · rintro ⟨n, ⟨-, hc⟩, rfl⟩
    exact ⟨by simp, by rw [h.shape.walk_leaf rfl]; exact hc⟩
  · rintro ⟨hlen, hw⟩
    have hne : p ≠ [] := by
      rintro rfl
      simp at hlen
    obtain ⟨q, i, rfl⟩ : ∃ q i, p = q ++ [i] := ⟨p.dropLast, p.getLast hne,
      (List.dropLast_append_getLast hne).symm⟩
    have hq : q.length = 3 := by simpa using hlen
    rw [h.shape.walk_leaf hq] at hw
    obtain ⟨n, hn, rfl, rfl⟩ := page_of_leaf h hq hw
    exact ⟨n, ⟨hn, hw⟩, rfl⟩

theorem leaves_ncard (h : Tree mem kpdpt r) :
    (leaves mem r f).ncard = {p | p.length = 4 ∧ walk mem r p = some f}.ncard := by
  rw [← leaves_image h]
  refine (Set.InjOn.ncard_image ?_).symm
  intro n hn n' hn' he
  have he := List.append_inj' he rfl
  exact pagePath_inj (by have := hn.1; omega) (by have := hn'.1; omega) he.1 (by simpa using he.2)

/-- The references that come from one table. -/
theorem piece_count (h : Tree mem kpdpt d.root) :
    (piece mem d).count f = (leaves mem d.root f).ncard + (tables mem d.root f).ncard := by
  have hpaths : {p | p ≠ [] ∧ Inside width 4 p ∧ follow child (userMem mem d.root) d.root p = some f} =
      {p | p.length = 4 ∧ walk mem d.root p = some f} ∪
        {p | p ≠ [] ∧ p.length < 4 ∧ walk mem d.root p = some f} := by
    ext p
    simp only [Set.mem_ofPred_eq, Set.mem_union]
    constructor
    · rintro ⟨hne, hin, hw⟩
      have := hin.length_le
      by_cases h4 : p.length = 4
      · exact .inl ⟨h4, hw⟩
      · exact .inr ⟨hne, by omega, hw⟩
    · rintro (⟨h4, hw⟩ | ⟨hne, hlt, hw⟩)
      · exact ⟨by rintro rfl; simp at h4, h.low p f (by omega) hw, hw⟩
      · exact ⟨hne, h.low p f (by omega) hw, hw⟩
  have hfinite : {p | p ≠ [] ∧ Inside width 4 p ∧ follow child (userMem mem d.root) d.root p = some f}.Finite :=
    finite_paths 4 d.root f
  rw [hpaths] at hfinite
  have hdisj : Disjoint {p | p.length = 4 ∧ walk mem d.root p = some f}
      {p | p ≠ [] ∧ p.length < 4 ∧ walk mem d.root p = some f} := by
    rw [Set.disjoint_left]
    rintro p ⟨h4, -⟩ ⟨-, hlt, -⟩
    omega
  have hcount : (treeRefs mem d.root).count f =
      (leaves mem d.root f).ncard + {p | p ≠ [] ∧ p.length < 4 ∧ walk mem d.root p = some f}.ncard := by
    rw [treeRefs, count_refs, hpaths, leaves_ncard h]
    exact Set.ncard_union_eq hdisj (hfinite.subset Set.subset_union_left) (hfinite.subset Set.subset_union_right)
  have hsub : {p | p ≠ [] ∧ p.length < 4 ∧ walk mem d.root p = some f}.Finite :=
    hfinite.subset Set.subset_union_right
  rw [piece, List.count_cons, hcount]
  by_cases hf : d.root = f
  · have htables : tables mem d.root f = insert [] {p | p ≠ [] ∧ p.length < 4 ∧ walk mem d.root p = some f} := by
      ext p
      by_cases hp : p = []
      · simp [tables, hp, hf]
      · simp [tables, hp]
    rw [htables, Set.ncard_insert_of_notMem (by simp) hsub]
    simp [hf]
    omega
  · have htables : tables mem d.root f = {p | p ≠ [] ∧ p.length < 4 ∧ walk mem d.root p = some f} := by
      ext p
      by_cases hp : p = []
      · simp [tables, hp, hf]
      · simp [tables, hp]
    rw [htables]
    simp [hf]

noncomputable def mappings (s : Sys) (f : Nat) : Nat :=
  (s.pgdirs.map (fun d => (leaves s.vm.mem d.root f).ncard)).sum

/-- The kernel's uses of the frame: as a page-table page, and otherwise. -/
noncomputable def ownersOf (s : Sys) (f : Nat) : Nat :=
  (s.pgdirs.map (fun d => (tables s.vm.mem d.root f).ncard)).sum + (s.kernel ++ s.owners).count f

theorem held_count (h : KernelInv.Inv s) (f : Nat) :
    (heldBy s).count f = mappings s f + ownersOf s f := by
  have hpieces : ∀ ds : List Pgdir, (∀ d ∈ ds, Tree s.vm.mem s.kpdpt d.root) →
    (ds.flatMap (piece s.vm.mem)).count f =
      (ds.map (fun d => (leaves s.vm.mem d.root f).ncard)).sum +
        (ds.map (fun d => (tables s.vm.mem d.root f).ncard)).sum := by
    intro ds hds
    induction ds with
    | nil => rfl
    | cons d ds ih =>
      rw [List.flatMap_cons, List.count_append, piece_count (hds d (by simp)), ih (fun d' hd' =>
        hds d' (by simp [hd'])),
        List.map_cons, List.map_cons, List.sum_cons, List.sum_cons]
      omega
  rw [heldBy, held, List.count_append, hpieces s.pgdirs (fun d hd => (h.sound hd).tree), mappings, ownersOf]
  omega

/-- Each managed frame is on the free list once and has no references, or is not on it and its
counter is the number of its references. -/
theorem frame_conservation (h : Reach (system pc) Plain s) (f : Nat) (hf : Managed f) :
    Xor (s.vm.freelist.count f = 1 ∧ mappings s f = 0 ∧ ownersOf s f = 0)
      (f ∉ s.vm.freelist ∧ 1 ≤ s.vm.refs f ∧ s.vm.refs f = mappings s f + ownersOf s f) := by
  have hinv := inv_plain h
  have hcount := held_count hinv f
  have hbooks := hinv.owned.counted
  by_cases hfree : f ∈ s.vm.freelist
  · have hzero : (heldBy s).count f = 0 :=
      List.count_eq_zero.mpr (hbooks.not_mem_held hfree)
    exact .inl ⟨⟨List.count_eq_one_of_mem hbooks.nodup hfree, by omega, by omega⟩, fun hx => hx.1 hfree⟩
  · have hheld : f ∈ heldBy s := by
      by_contra hnot
      exact hfree ((hbooks.mem_free f).mpr ⟨hf, hnot⟩)
    refine .inr ⟨⟨hfree, hbooks.one_le hheld, ?_⟩, fun hx => hfree (List.count_pos_iff.mp (by omega))⟩
    rw [hbooks.count f hheld, hcount]
    push_cast
    rfl

theorem frame_conservation_first : ∃ s d, First s d ∧ ∀ f, Managed f →
    Xor (s.vm.freelist.count f = 1 ∧ mappings s f = 0 ∧ ownersOf s f = 0)
      (f ∉ s.vm.freelist ∧ 1 ≤ s.vm.refs f ∧ s.vm.refs f = mappings s f + ownersOf s f) := by
  obtain ⟨s, d, hreach, -, hfirst⟩ := exists_first_plain
  exact ⟨s, d, hfirst, fun f hf => frame_conservation hreach f hf⟩

def Maps (s : Sys) (d : Pgdir) (n f : Nat) : Prop :=
  d ∈ s.pgdirs ∧ n < 2 ^ 35 ∧ child (entry s.vm.mem d.root n) = some f

section

variable (h : KernelInv.Inv s) (hmap : Maps s d n f)
include h hmap

theorem Maps.mem_piece : f ∈ piece s.vm.mem d :=
  List.mem_cons_of_mem _ ((h.sound hmap.1).tree.leaf_mem rfl hmap.2.2)

theorem Maps.same_pgdir (hmap' : Maps s d' n' f) : d' = d := by
  by_contra hne
  refine (h.world_cons hmap.1).apart_rest (hmap.mem_piece h) (mem_held.mpr (.inl ⟨d', ?_, hmap'.mem_piece h⟩))
  exact (List.mem_erase_of_ne hne).mpr hmap'.1

theorem Maps.frozen (hmap' : Maps s d n' f) (hne : n ≠ n') :
    Frozen (entry s.vm.mem d.root n) := by
  refine (h.sound hmap.1).tree.shared _ _ _ _ f rfl rfl hmap.2.2 hmap'.2.2 ?_
  rw [or_iff_not_imp_left, not_not]
  intro hp hi
  exact hne (pagePath_inj (by have := hmap.2.1; omega) (by have := hmap'.2.1; omega) hp hi)

theorem Maps.only (hw : has (entry s.vm.mem d.root n) pteW = true)
    (hmap' : Maps s d' n' f) : d' = d ∧ n' = n := by
  obtain rfl := hmap.same_pgdir h hmap'
  refine ⟨rfl, ?_⟩
  by_contra hne
  exact absurd (hmap.frozen h hmap' (Ne.symm hne)).2 (by simp [hw])

/-- A mapped frame is neither a page-table page nor the kernel's. -/
theorem Maps.no_owner : ownersOf s f = 0 := by
  have hpiece := hmap.mem_piece h
  have hkernel : (s.kernel ++ s.owners).count f = 0 :=
    List.count_eq_zero.mpr (fun hf => h.world.kernel d hmap.1 hpiece hf)
  have htables : ∀ d' ∈ s.pgdirs, tables s.vm.mem d'.root f = ∅ := by
    intro d' hd'
    rw [Set.eq_empty_iff_forall_notMem]
    rintro p ⟨hlen, hw⟩
    by_cases hd : d' = d
    · subst hd
      exact (h.sound hd').tree.leaf_not_table rfl hmap.2.2 ⟨p, hlen, hw⟩
    · refine (h.world_cons hmap.1).apart_rest hpiece (mem_held.mpr (.inl ⟨d', ?_, ?_⟩))
      · exact (List.mem_erase_of_ne hd).mpr hd'
      · exact (h.sound hd').tree.table_mem ⟨p, hlen, hw⟩
  have hsum : (s.pgdirs.map (fun d => (tables s.vm.mem d.root f).ncard)).sum = 0 := by
    refine List.sum_eq_zero ?_
    intro k hk
    obtain ⟨d', hd', rfl⟩ := List.mem_map.mp hk
    rw [htables d' hd', Set.ncard_empty]
  rw [ownersOf, hsum, hkernel]

end

theorem sum_one {α : Type} {L : List α} {x : α} {c : α → Nat} (hL : L.Nodup) (hx : x ∈ L) (h₁ : c x = 1)
    (h₀ : ∀ y ∈ L, y ≠ x → c y = 0) : (L.map c).sum = 1 := by
  induction L with
  | nil => cases hx
  | cons y L ih =>
    obtain ⟨hy, hL⟩ := List.nodup_cons.mp hL
    rw [List.map_cons, List.sum_cons]
    by_cases he : y = x
    · subst he
      have hzero : (L.map c).sum = 0 := by
        refine List.sum_eq_zero ?_
        intro k hk
        obtain ⟨z, hz, rfl⟩ := List.mem_map.mp hk
        exact h₀ z (List.mem_cons_of_mem y hz) (fun he => hy (he ▸ hz))
      omega
    · have hx := (List.mem_cons.mp hx).resolve_left (Ne.symm he)
      rw [h₀ y (by simp) he, ih hL hx (fun z hz => h₀ z (List.mem_cons_of_mem y hz))]

theorem pgdirs_nodup (h : KernelInv.Inv s) : s.pgdirs.Nodup := by
  refine h.world.apart.imp ?_
  rintro d d' hdisj rfl
  exact hdisj (List.mem_cons_self : d.root ∈ piece s.vm.mem d) List.mem_cons_self

/-- The page that a frame can be written through is its one reference. -/
theorem Maps.refs_one (h : KernelInv.Inv s) (hmap : Maps s d n f)
    (hw : has (entry s.vm.mem d.root n) pteW = true) :
    s.vm.refs f = 1 := by
  have hsum : mappings s f = 1 := by
    refine sum_one (pgdirs_nodup h) hmap.1 ?_ ?_
    · have hset : leaves s.vm.mem d.root f = {n} := by
        ext n'
        constructor
        · rintro ⟨hn', hc⟩
          exact (hmap.only h hw ⟨hmap.1, hn', hc⟩).2
        · rintro rfl
          exact hmap.2
      rw [hset, Set.ncard_singleton]
    · intro d' hd' hne
      have hset : leaves s.vm.mem d'.root f = ∅ := by
        rw [Set.eq_empty_iff_forall_notMem]
        rintro n' ⟨hn', hc⟩
        exact hne (hmap.only h hw ⟨hd', hn', hc⟩).1
      rw [hset, Set.ncard_empty]
  have hheld : f ∈ heldBy s := mem_held.mpr (.inl ⟨d, hmap.1, hmap.mem_piece h⟩)
  rw [h.owned.counted.count f hheld, held_count h f, hsum, hmap.no_owner h]
  rfl

/-- A store into a frame of one table is not seen through another. -/
theorem Maps.store_other {i : Nat} {w : Word} (h : KernelInv.Inv s) (hmap : Maps s d n f) (hd' : d' ∈ s.pgdirs)
    (hne : d' ≠ d) (hn' : n' < 2 ^ 35) :
    entry (setWord s.vm.mem f i w) d'.root n' = entry s.vm.mem d'.root n' ∧
      ∀ g, child (entry s.vm.mem d'.root n') = some g → setWord s.vm.mem f i w g = s.vm.mem g := by
  have hout : ∀ g ∈ piece s.vm.mem d', setWord s.vm.mem f i w g = s.vm.mem g := by
    intro g hg
    refine setPage_other ?_ _
    rintro rfl
    refine (h.world_cons hmap.1).apart_rest (hmap.mem_piece h) (mem_held.mpr (.inl ⟨d', ?_, hg⟩))
    exact (List.mem_erase_of_ne hne).mpr hd'
  refine ⟨pte_tables (fun t ht => hout t ((h.sound hd').tree.table_mem ht)) rfl, ?_⟩
  intro g hg
  exact hout g (Maps.mem_piece h ⟨hd', hn', hg⟩)

/-- A frame that a page can be written through has that page as its one mapping and its one
reference. A frame with two mappings has them in one table, all to be copied before a store. A
user page that cannot be written is marked so. A store through one table changes no page, and
no contents of a page, of another. -/
theorem write_isolation (h : Reach (system pc) Plain s) :
    (∀ d n f, Maps s d n f → has (entry s.vm.mem d.root n) pteW = true →
      s.vm.refs f = 1 ∧ ∀ d' n', Maps s d' n' f → d' = d ∧ n' = n) ∧
    (∀ d n d' n' f, Maps s d n f → Maps s d' n' f → d' = d ∧
      (n' ≠ n → has (entry s.vm.mem d.root n) pteCOW = true ∧ has (entry s.vm.mem d.root n) pteW = false)) ∧
    (∀ d ∈ s.pgdirs, ∀ n < 2 ^ 35, has (entry s.vm.mem d.root n) pteP = true →
      has (entry s.vm.mem d.root n) pteU = true → has (entry s.vm.mem d.root n) pteW = false →
      has (entry s.vm.mem d.root n) pteCOW = true) ∧
    (∀ d n f i w, Maps s d n f → has (entry s.vm.mem d.root n) pteW = true → ∀ d' ∈ s.pgdirs, d' ≠ d →
      ∀ n' < 2 ^ 35, entry (setWord s.vm.mem f i w) d'.root n' = entry s.vm.mem d'.root n' ∧
        ∀ g, child (entry s.vm.mem d'.root n') = some g → setWord s.vm.mem f i w g = s.vm.mem g) := by
  have hinv := inv_plain h
  refine ⟨?_, ?_, ?_, ?_⟩
  · intro d n f hmap hw
    exact ⟨hmap.refs_one hinv hw, fun d' n' hmap' => hmap.only hinv hw hmap'⟩
  · intro d n d' n' f hmap hmap'
    obtain rfl := hmap.same_pgdir hinv hmap'
    exact ⟨rfl, fun hne => hmap.frozen hinv hmap' (Ne.symm hne)⟩
  · intro d hd n _
    exact (hinv.sound hd).tree.leaf _ _ rfl
  · intro d n f i w hmap _ d' hd' hne n' hn'
    exact hmap.store_other hinv hd' hne hn'

theorem write_isolation_first : ∃ s d f, First s d ∧ Maps s d 1 f ∧ has (entry s.vm.mem d.root 1) pteW = true ∧
    s.vm.refs f = 1 := by
  obtain ⟨s, d, hreach, -, hfirst⟩ := exists_first_plain
  obtain ⟨f, he, hc, -⟩ := hfirst.page
  have hmap : Maps s d 1 f := ⟨hfirst.mem, by omega, by rw [he, hc]⟩
  have hw : has (entry s.vm.mem d.root 1) pteW = true := by
    rw [he, UserPages.has_freshEntry isFlags_pteW]
    decide
  exact ⟨s, d, f, hfirst, hmap, hw, ((write_isolation hreach).1 d 1 f hmap hw).1⟩

end Xv6.FrameBooks
