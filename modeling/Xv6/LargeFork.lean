import Mathlib.Order.Interval.Finset.Nat
import Xv6.Transparency

/-!
# A process larger than memory

A process grows by 512 zero pages and calls `sys_dedup`, which leaves one frame for all its pages;
so the memory holds a process of more than 4 GB. `fork` passes the size to `copyuvm` as a 32-bit
number, and when the child calls `sys_dedup`, the kernel meets a page below the size that has no
page table.
-/
namespace Xv6.LargeFork

open Words Mmu Memory Kalloc Vm Outcome PageTable AddressSpace PageNumber UserPages CopyUvm PageWalk
open Dedup SizeBound Kernel KernelInv KernelStep Boot Interleaving FaultPaths FrameBooks Transparency

/-- No page fault so far. -/
def Unfaulted (_ : Sys) : Act → Prop
  | .copyonwrite _ _ => False
  | _ => True

/-- The process `d` has `n` pages, the first of them missing and the others zero. -/
structure Zeros (s : Sys) (d : Pgdir) (n : Nat) : Prop where
  reach : Reach (system pc) Unfaulted s
  pgdirs : s.pgdirs = [d]
  live : d.live = true
  sz : d.sz.toNat = n * 4096
  zero : ∀ k, 0 < k → k < n → UserPage s.vm.mem d.root k ∧
    ∀ i < 512, s.vm.mem (frameOf (entry s.vm.mem d.root k)) i = 0

variable {s s' : Sys} {d d' : Pgdir} {n n' lo k f : Nat}

section

variable (h : Zeros s d n)
include h

theorem Zeros.plain : Reach (system pc) Plain s :=
  h.reach.mono fun _ a ha => by cases a <;> trivial

theorem Zeros.inv : KernelInv.Inv s := inv_plain h.plain

theorem Zeros.mem : d ∈ s.pgdirs := by simp [h.pgdirs]

theorem Zeros.pages : pages d.sz = n := by
  rw [UserPages.pages, h.sz]
  omega

theorem Zeros.alive (hn : 2 ≤ n) : Alive s.vm.mem d := ⟨1, by omega, (h.zero 1 (by omega) (by omega)).1⟩

end

def used (s : Sys) : Finset Nat := (heldBy s).toFinset

theorem free_add_used (h : KernelInv.Inv s) : s.vm.freelist.length + (used s).card = 56837 := by
  have hbooks := h.owned.counted
  have hdisj : Disjoint s.vm.freelist.toFinset (used s) := by
    rw [Finset.disjoint_left]
    intro f hf
    rw [used, List.mem_toFinset]
    exact hbooks.not_mem_held (List.mem_toFinset.mp hf)
  have hall : s.vm.freelist.toFinset ∪ used s = Finset.Ico 0x1fb nframes := by
    ext f
    rw [Finset.mem_union, used, List.mem_toFinset, List.mem_toFinset, Finset.mem_Ico]
    constructor
    · rintro (hf | hf)
      · exact ((hbooks.mem_free f).mp hf).1
      · exact hbooks.managed_held f hf
    · intro hf
      by_cases hheld : f ∈ heldBy s
      · exact .inr hheld
      · exact .inl ((hbooks.mem_free f).mpr ⟨hf, hheld⟩)
  have hcard := congrArg Finset.card hall
  rw [Finset.card_union_of_disjoint hdisj, List.toFinset_card_of_nodup hbooks.nodup, Nat.card_Ico] at hcard
  rw [hcard]
  rfl

theorem mem_used (h : Zeros s d n) : f ∈ used s ↔ f ∈ piece s.vm.mem d ∨ f ∈ s.kernel ++ s.owners := by
  rw [used, List.mem_toFinset, mem_held, h.pgdirs]
  simp

def sizeFor (n : Nat) : Word := BitVec.ofNat 64 (n * 4096)

theorem sizeFor_toNat (hn : n ≤ 2 ^ 21) : (sizeFor n).toNat = n * 4096 := by
  rw [sizeFor, BitVec.toNat_ofNat]
  omega

/-- `sbrk` to `n'` pages. -/
theorem Zeros.grow (h : Zeros s d n) (hn : 2 ≤ n) (hle : n ≤ n') (hbig : n' ≤ 2 ^ 21)
    (hfree : 4 * (n' - n) ≤ s.vm.freelist.length) :
    ∃ vm', allocuvm pc s.vm (kva d.root) d.sz (sizeFor n') = .ok (vm', sizeFor n') ∧
      Zeros { s with vm := vm', pgdirs := [{ d with sz := sizeFor n' }] } { d with sz := sizeFor n' } n' ∧
      Grown Zeroed s.vm vm' d.root n n' := by
  have hinv := h.inv
  have hlen := freelist_length hinv
  have hframes := nframes_eq
  have hsound := hinv.sound h.mem
  have hnew := sizeFor_toNat hbig
  generalize sizeFor n' = newsz at hnew ⊢
  have hpages : UserPages.pages newsz = n' := by
    rw [UserPages.pages, hnew]
    omega
  have hends : Ends (allocuvm pc s.vm (kva d.root) d.sz newsz) _ _ :=
    allocuvm_ends pc_oom pc_full (hinv.space h.mem) hsound.pos (by rw [h.pages]; omega)
  rw [h.pages, hpages] at hends
  obtain ⟨⟨vm', sz⟩, hrun, hres⟩ := hends.returns (by
    rintro e (⟨-, hlt⟩ | ⟨-, k, hge, hlt, -, hpres⟩)
    · omega
    · have hmapped : Mapped s.vm.mem d.root k := by
        rw [Mapped, child_eq_some.mpr ⟨hpres, rfl⟩]
        simp
      have := hsound.sized.above k (by omega) hmapped
      rw [h.pages] at this
      omega)
  rcases hres with ⟨-, hk⟩ | ⟨-, hlt⟩ | ⟨hsz, -, -, hgrown⟩
  · rw [hnew, show kernBase.toNat = 0xFFFF800000000000 from rfl] at hk
    omega
  · rw [hnew, h.sz] at hlt
    omega
  · dsimp only at hsz hgrown
    have hne : newsz ≠ 0 := by
      intro he
      rw [he] at hnew
      simp at hnew
      omega
    have hstep : run pc s (.allocuvm d newsz) = .ok { s with vm := vm', pgdirs := [{ d with sz := newsz }] } := by
      simp only [run, hrun, ok_bind, hsz, if_neg hne, Sys.update, h.pgdirs, List.erase_cons_head]
      rfl
    refine ⟨vm', by rw [hrun, hsz], ⟨h.reach.step (a := .allocuvm d newsz) trivial
      ⟨⟨h.mem, fun _ => h.alive hn⟩, hstep⟩, rfl, h.live, hnew, ?_⟩, hgrown⟩
    intro k h₀ hk
    show UserPage vm'.mem d.root k ∧ ∀ i < 512, vm'.mem (frameOf (entry vm'.mem d.root k)) i = 0
    by_cases hold : k < n
    · obtain ⟨hu, hz⟩ := h.zero k h₀ hold
      have hentry := hgrown.old k (by omega) (.inl hold)
      have hheld : frameOf (entry s.vm.mem d.root k) ∉ s.vm.freelist := by
        refine hinv.owned.counted.not_mem_free (mem_held.mpr (.inl ⟨d, h.mem, ?_⟩))
        exact List.mem_cons_of_mem _ (hsound.tree.leaf_mem rfl hu.child)
      rw [UserPage, hentry, hgrown.contents _ hheld (hsound.tree.leaf_not_table rfl hu.child)]
      exact ⟨hu, hz⟩
    · obtain ⟨f, -, hc, he, hpage⟩ := hgrown.new k (by omega) hk
      refine ⟨⟨(child_eq_some.mp hc).1, ?_⟩, ?_⟩
      · rw [he, has_freshEntry isFlags_pteU]
        decide
      · intro i _
        rw [(child_eq_some.mp hc).2, hpage]

theorem Zeros.tables (h : Zeros s d n) (hn : 2 ≤ n) (k : Nat) (hk : k < UserPages.pages d.sz) :
    walk s.vm.mem d.root (pagePath k) ≠ none := by
  rw [h.pages] at hk
  have hfound (j : Nat) (hj : 0 < j) (hjn : j < n) : walk s.vm.mem d.root (pagePath j) ≠ none := by
    obtain ⟨t, hw⟩ := walk_of_pte (h.zero j hj hjn).1.child
    simp [hw]
  by_cases h₀ : k = 0
  · rw [h₀, show pagePath 0 = pagePath 1 from rfl]
    exact hfound 1 (by omega) (by omega)
  · exact hfound k (by omega) hk

/-- `sys_dedup` leaves all pages with the frame of the first. -/
theorem Zeros.merge (h : Zeros s d n) (hn : 2 ≤ n) :
    ∃ vm', dedup pc s.vm (kva d.root) 0 d.sz = .ok vm' ∧ Zeros { s with vm := vm' } d n ∧
      Deduped s.vm vm' d.root n (others s d) ∧
      ∀ k, 0 < k → k < n → child (entry vm'.mem d.root k) = child (entry vm'.mem d.root 1) := by
  have hinv := h.inv
  have hbound := pages_small hinv h.mem
  have htab := h.tables hn
  have hends : Ends (dedup pc s.vm (kva d.root) 0 d.sz) _ _ := dedup_ends pc_full (hinv.space h.mem) hbound
  rw [h.pages] at htab hends hbound
  obtain ⟨vm', hrun, -, hdedup, -⟩ := hends.returns (by
    rintro e ⟨-, k, hk, hmissing⟩
    exact htab k hk hmissing)
  have hstep : run pc s (.dedup d) = .ok { s with vm := vm' } := by
    simp only [run, hrun, ok_bind]
    rfl
  have hshared : ∀ k, 0 < k → k < n → child (entry vm'.mem d.root k) = child (entry vm'.mem d.root 1) := by
    intro k h₀ hk
    induction k with
    | zero => omega
    | succ k ih =>
      by_cases hk₀ : k = 0
      · rw [hk₀]
      · obtain ⟨hu, hz⟩ := h.zero k (by omega) (by omega)
        obtain ⟨hu', hz'⟩ := h.zero (k + 1) (by omega) hk
        have hsame : SameContents s.vm.mem d.root k (k + 1) := fun i hi => (hz i hi).trans (hz' i hi).symm
        rw [hdedup.merged k (by omega) hk hu hu' hsame]
        exact ih (by omega) (by omega)
  refine ⟨vm', hrun, ⟨h.reach.step (a := .dedup d) trivial ⟨⟨h.mem, h.live, h.alive hn⟩, hstep⟩, h.pgdirs, h.live,
    h.sz, ?_⟩, hdedup, hshared⟩
  intro k h₀ hk
  obtain ⟨hu, hz⟩ := h.zero k h₀ hk
  have hu' := hu.view hdedup.view (by omega)
  refine ⟨hu', ?_⟩
  intro i hi
  exact (hdedup.view.contents k _ _ (by omega) hu.child hu'.child i hi).trans (hz i hi)

/-- Sharing gives the frames of the writable pages back. -/
theorem Zeros.merge_free {vm' : State} (h : Zeros s d n) (h' : Zeros { s with vm := vm' } d n) (hn : n ≤ 2 ^ 21)
    (hlo : 2 ≤ lo) (hdedup : Deduped s.vm vm' d.root n (others s d))
    (hshared : ∀ k, 0 < k → k < n → child (entry vm'.mem d.root k) = child (entry vm'.mem d.root 1))
    (hw : ∀ k, lo ≤ k → k < n → has (entry s.vm.mem d.root k) pteW = true) :
    s.vm.freelist.length + (n - lo) ≤ vm'.freelist.length := by
  have hinv := h.inv
  have htree := (hinv.sound h.mem).tree
  have htree' := (h'.inv.sound h'.mem).tree
  let frame := fun k => frameOf (entry s.vm.mem d.root k)
  have hmaps : ∀ k, 0 < k → k < n → Maps s d k (frame k) :=
    fun k h₀ hk => ⟨h.mem, by omega, (h.zero k h₀ hk).1.child⟩
  have hfresh : (((Finset.Ico lo n).image frame)).card = n - lo := by
    rw [Finset.card_image_of_injOn, Nat.card_Ico]
    intro j hj k hk hjk
    have hj := Finset.mem_Ico.mp (Finset.mem_coe.mp hj)
    have hk := Finset.mem_Ico.mp (Finset.mem_coe.mp hk)
    have hmap : Maps s d k (frame j) := by
      rw [show frame j = frame k from hjk]
      exact hmaps k (by omega) hk.2
    exact ((hmaps j (by omega) hj.2).only hinv (hw j hj.1 hj.2) hmap).2.symm
  have hin : (Finset.Ico lo n).image frame ⊆ used s := by
    intro g hg
    obtain ⟨k, hk, rfl⟩ := Finset.mem_image.mp hg
    have hk := Finset.mem_Ico.mp hk
    exact (mem_used h).mpr (.inl ((hmaps k (by omega) hk.2).mem_piece hinv))
  have hout : used { s with vm := vm' } ⊆ used s \ (Finset.Ico lo n).image frame := by
    intro g hg
    rw [Finset.mem_sdiff, mem_used h, Finset.mem_image]
    have hkind : IsTable s.vm.mem d.root g ∨ Maps s d 1 g ∨ g ∈ s.kernel ++ s.owners := by
      rcases (mem_used h').mp hg with hg | hg
      · rcases List.mem_cons.mp hg with rfl | hg
        · exact .inl isTable_root
        · obtain ⟨p, hne, hlen, hwalk⟩ := htree'.mem_treeRefs.mp hg
          by_cases h4 : p.length < 4
          · rw [hdedup.view.walk_eq p h4] at hwalk
            exact .inl ⟨p, h4, hwalk⟩
          · obtain ⟨q, i, rfl⟩ : ∃ q i, p = q ++ [i] :=
              ⟨p.dropLast, p.getLast hne, (List.dropLast_append_getLast hne).symm⟩
            rw [List.length_append, List.length_singleton] at h4 hlen
            have hq : q.length = 3 := by omega
            rw [htree'.shape.walk_leaf hq] at hwalk
            obtain ⟨k, hk, rfl, rfl⟩ := page_of_leaf htree' hq hwalk
            have hk₀ : k ≠ 0 := by
              rintro rfl
              exact absurd (hwalk.symm.trans htree'.null) (by simp)
            have hkn : k < n := by
              have hmapped : Mapped vm'.mem d.root k := by
                rw [Mapped, entry, hwalk]
                simp
              have := (h'.inv.sound h'.mem).sized.above k hk hmapped
              rwa [h'.pages] at this
            have hone : child (entry vm'.mem d.root 1) = some g := (hshared k (by omega) hkn).symm.trans hwalk
            obtain ⟨k', hk', hc⟩ := hdedup.origin 1 g (by omega) hone
            have hk'₀ : k' ≠ 0 := by
              rintro rfl
              exact absurd (hc.symm.trans htree.null) (by simp)
            obtain rfl : k' = 1 := by omega
            exact .inr (.inl ⟨h.mem, by omega, hc⟩)
      · exact .inr (.inr hg)
    rcases hkind with ht | hmap | hown
    · refine ⟨.inl (htree.table_mem ht), ?_⟩
      rintro ⟨k, hk, rfl⟩
      have hk := Finset.mem_Ico.mp hk
      exact htree.leaf_not_table rfl (hmaps k (by omega) hk.2).2.2 ht
    · refine ⟨.inl (hmap.mem_piece hinv), ?_⟩
      rintro ⟨k, hk, rfl⟩
      have hk := Finset.mem_Ico.mp hk
      have := ((hmaps k (by omega) hk.2).only hinv (hw k hk.1 hk.2) hmap).2
      omega
    · refine ⟨.inr hown, ?_⟩
      rintro ⟨k, hk, rfl⟩
      have hk := Finset.mem_Ico.mp hk
      exact hinv.world.kernel d h.mem ((hmaps k (by omega) hk.2).mem_piece hinv) hown
  have hcard := Finset.card_le_card hout
  have hcard' := Finset.card_le_card hin
  rw [Finset.card_sdiff_of_subset hin, hfresh] at hcard
  rw [hfresh] at hcard'
  have hfree := free_add_used hinv
  have hfree' : vm'.freelist.length + _ = _ := free_add_used h'.inv
  omega

theorem Grown.writable {New : Nat → Nat → Word → Page → Prop} {vm vm' : State} {r : Nat}
    (h : Grown New vm vm' r n n') (hnew : ∀ k f e page, New k f e page → e = freshEntry f)
    (h₁ : n ≤ k) (h₂ : k < n') :
    has (entry vm'.mem r k) pteW = true := by
  obtain ⟨f, -, -, hk⟩ := h.new k h₁ h₂
  rw [hnew _ _ _ _ hk, has_freshEntry isFlags_pteW]
  decide

/-- A block of 512 pages costs the frames of its tables. -/
theorem Zeros.block (h : Zeros s d n) (hn : n % 512 = 0) (hpos : 512 ≤ n) (hbig : n + 512 ≤ 2 ^ 21)
    (hfree : 2048 ≤ s.vm.freelist.length) :
    ∃ s' d', Zeros s' d' (n + 512) ∧ s.vm.freelist.length ≤ s'.vm.freelist.length + 3 := by
  obtain ⟨vm₁, -, h₁, hg₁⟩ := h.grow (by omega) (Nat.le_add_right n 1) (by omega) (by omega)
  obtain ⟨u₁, hu₁, -, hlen₁, -⟩ := hg₁.free
  have hfree₁ : s.vm.freelist.length = u₁.length + vm₁.freelist.length := by rw [hu₁, List.length_append]
  obtain ⟨vm₂, -, h₂, hg₂⟩ := h₁.grow (by omega) (show n + 1 ≤ n + 512 by omega) hbig
    (by show _ ≤ vm₁.freelist.length; omega)
  have htables : ∀ k, n + 1 ≤ k → k < n + 512 → walk vm₁.mem d.root (pagePath k) ≠ none := by
    intro k hk hk'
    obtain ⟨t, hw⟩ := walk_of_pte (h₁.zero n (by omega) (by omega)).1.child
    have hpath : pagePath k = pagePath n := by
      simp only [pagePath, List.cons.injEq, and_true]
      omega
    rw [hpath, hw]
    simp
  obtain ⟨u₂, hu₂, -, -, hlen₂⟩ := hg₂.free
  have hfree₂ : vm₁.freelist.length = u₂.length + vm₂.freelist.length := by rw [hu₂, List.length_append]
  have hlen₂ := hlen₂ htables
  have hw : ∀ k, n ≤ k → k < n + 512 → has (entry vm₂.mem d.root k) pteW = true := by
    intro k hk hk'
    by_cases he : k = n
    · rw [hg₂.old k (by omega) (.inl (by omega))]
      exact Grown.writable hg₁ (fun _ _ _ _ hz => hz.1) hk (by omega)
    · exact Grown.writable hg₂ (fun _ _ _ _ hz => hz.1) (by omega) hk'
  obtain ⟨vm₃, -, h₃, hdedup, hshared⟩ := h₂.merge (by omega)
  have hfree₃ : vm₂.freelist.length + _ ≤ _ := h₂.merge_free h₃ hbig (by omega) hdedup hshared hw
  refine ⟨_, _, h₃, ?_⟩
  show s.vm.freelist.length ≤ vm₃.freelist.length + 3
  omega

theorem zeros_first (h : First s d) (hreach : Reach (system pc) Unfaulted s) : Zeros s d 2 := by
  refine ⟨hreach, h.pgdirs, h.live, by rw [h.sz]; rfl, ?_⟩
  intro k h₀ hk
  obtain rfl : k = 1 := by omega
  obtain ⟨f, he, hc, hzero⟩ := h.page
  refine ⟨h.user, ?_⟩
  intro i _
  rw [he, (child_eq_some.mp hc).2, hzero]

theorem exists_first_unfaulted : ∃ s d, Reach (system pc) Unfaulted s ∧ KernelInv.Inv s ∧ First s d :=
  exists_first Unfaulted pc_oom pc_full (fun _ _ => trivial) (fun _ _ _ => trivial)

/-- The first process grows by two pages. -/
theorem exists_zeros_four : ∃ s d, Zeros s d 4 := by
  obtain ⟨s, d, hreach, -, hfirst⟩ := exists_first_unfaulted
  have hfree := hfirst.free
  obtain ⟨vm', -, h, -⟩ :=
    (zeros_first hfirst hreach).grow (Nat.le_refl 2) (show 2 ≤ 4 by omega) (by omega) (by omega)
  exact ⟨_, _, h⟩

/-- Pages 2 and 3 are equal, so that `sys_dedup` has something to merge. -/
theorem dedup_invisible_twins : ∃ s d, Zeros s d 4 ∧ Twins s.vm.mem d.root 2 ∧ Invisible s d := by
  obtain ⟨s, d, h⟩ := exists_zeros_four
  obtain ⟨hu, hz⟩ := h.zero 2 (by omega) (by omega)
  obtain ⟨hu', hz'⟩ := h.zero 3 (by omega) (by omega)
  exact ⟨s, d, h, ⟨by omega, hu, hu', fun i hi => (hz i hi).trans (hz' i hi).symm⟩,
    (dedup_invisible_iff h.plain h.mem).mpr (h.tables (by omega))⟩

/-- After `sys_dedup` page 3 is to be copied before it is written. -/
theorem fault_handled_merged : ∃ s d, Zeros s d 4 ∧ CowPage s.vm.mem d.root 0x3000 ∧
    FaultHandled s d 0x3000 := by
  obtain ⟨s, d, h₁⟩ := exists_zeros_four
  obtain ⟨vm', -, h, -, hshared⟩ := h₁.merge (by omega)
  have hu := (h.zero 3 (by omega) (by omega)).1
  have hone := (hshared 3 (by omega) (by omega)).symm.trans hu.child
  have hfrozen := frozen_of_shared (h.inv.sound h.mem).tree (by omega) (by omega) (by omega) hu.child hone
  have hcow : CowPage vm'.mem d.root 0x3000 := ⟨by decide, hu, hfrozen.1⟩
  refine ⟨_, d, h, hcow, (fault_handled_iff (h.reach.mono fun _ a ha => ?_) h.mem _).mpr hcow⟩
  cases a <;> trivial

theorem exists_zeros (j : Nat) (hj : j ≤ 2047) :
    ∃ s d, Zeros s d (512 * (j + 1)) ∧ 54790 ≤ s.vm.freelist.length + 3 * j := by
  induction j with
  | zero =>
    obtain ⟨s, d, hreach, -, hfirst⟩ := exists_first_unfaulted
    have hfree := hfirst.free
    obtain ⟨vm', -, h', hg⟩ :=
      (zeros_first hfirst hreach).grow (Nat.le_refl 2) (show 2 ≤ 512 by omega) (by omega) (by omega)
    obtain ⟨u, hu, -, hlen, -⟩ := hg.free
    have hsplit : s.vm.freelist.length = u.length + vm'.freelist.length := by rw [hu, List.length_append]
    refine ⟨_, _, h', ?_⟩
    show 54790 ≤ vm'.freelist.length + 3 * 0
    omega
  | succ j ih =>
    obtain ⟨s, d, h, hfree⟩ := ih (by omega)
    obtain ⟨s', d', h', hfree'⟩ := h.block (by omega) (by omega) (by omega) (by omega)
    exact ⟨s', d', h', by omega⟩

/-- A process of 4 GB and two pages. -/
theorem exists_large : ∃ s d, Zeros s d (2 ^ 20 + 2) ∧ 10 ≤ s.vm.freelist.length := by
  obtain ⟨s, d, h, hfree⟩ := exists_zeros 2047 (Nat.le_refl 2047)
  obtain ⟨vm', -, h', hg⟩ := h.grow (by omega) (show 512 * (2047 + 1) ≤ 2 ^ 20 + 2 by omega) (by omega) (by omega)
  obtain ⟨u, hu, -, hlen, -⟩ := hg.free
  have hsplit : s.vm.freelist.length = u.length + vm'.freelist.length := by rw [hu, List.length_append]
  refine ⟨_, _, h', ?_⟩
  show 10 ≤ vm'.freelist.length
  omega

/-- Ten blocks of 512 pages have ten tables. -/
theorem missing_table {vm : State} {kpdpt r : Nat} {own : List Nat} (h : Shape vm.mem kpdpt r)
    (hlen : own.length ≤ 9)
    (htables : ∀ p t, p ≠ [] → p.length < 4 → walk vm.mem r p = some t → t ∈ own) :
    ∃ k < 5120, walk vm.mem r (pagePath k) = none := by
  by_contra hall
  push Not at hall
  have hwalk : ∀ j < 10, ∃ t, walk vm.mem r (pagePath (512 * j)) = some t :=
    fun j hj => Option.ne_none_iff_exists'.mp (hall (512 * j) (by omega))
  choose! table htable using hwalk
  have hcard : (Finset.range 10).card ≤ own.toFinset.card := by
    refine Finset.card_le_card_of_injOn table ?_ ?_
    · intro j hj
      have hj := Finset.mem_range.mp (Finset.mem_coe.mp hj)
      exact Finset.mem_coe.mpr (List.mem_toFinset.mpr (htables _ _ (by simp [pagePath]) (by simp) (htable j hj)))
    · intro j hj k hk hjk
      have hj := Finset.mem_range.mp (Finset.mem_coe.mp hj)
      have hk := Finset.mem_range.mp (Finset.mem_coe.mp hk)
      have hpath := h.uniq _ _ _ (by simp) (by simp) (htable j hj) (hjk ▸ htable k hk)
      have := pagePath_inj (by omega) (by omega) hpath (by omega)
      omega
  have hle := List.toFinset_card_le own
  rw [Finset.card_range] at hcard
  omega

theorem run_copyuvm {m : Machine} {vm' : State} {v : Word}
    (hrun : copyuvm m (kva s.kpdpt) s.vm (kva d.root) (d.sz.setWidth 32) = .ok (vm', v)) (hv : v ≠ 0) :
    run m s (.copyuvm d) = .ok { s with vm := vm', pgdirs := ⟨ptrFrame v, d.sz, true⟩ :: s.pgdirs } := by
  rw [run, hrun, ok_bind]
  exact if_neg hv

/-- `fork` of the large process copies one page. -/
theorem Zeros.fork (h : Zeros s d n) (hn : 2 ≤ n) (hfree : 9 ≤ s.vm.freelist.length)
    (hwidth : UserPages.pages ((d.sz.setWidth 32).setWidth 64) = 2) :
    ∃ s' c, Reach (system pc) Plain s' ∧ c ∈ s'.pgdirs ∧ c.live = true ∧ c.sz = d.sz ∧
      UserPage s'.vm.mem c.root 1 ∧
      ∃ k < 5120, walk s'.vm.mem c.root (pagePath k) = none := by
  have hinv := h.inv
  have hsound := hinv.sound h.mem
  have hends : Ends (copyuvm pc (kva s.kpdpt) s.vm (kva d.root) (d.sz.setWidth 32)) _ _ :=
    copyuvm_ends pc_oom pc_full hinv.owned hsound.tree (fun g hg => mem_held.mpr (.inl ⟨d, h.mem, hg⟩))
  rw [hwidth] at hends
  have hpage := (h.zero 1 (by omega) (by omega)).1
  obtain ⟨⟨vm', v⟩, hrun, c, hv, hman, hspace, -, hcopy, -⟩ := hends.returns (by
    rintro e (⟨-, hlt⟩ | ⟨-, n, -, h₀, hn, hnone⟩)
    · omega
    · obtain rfl : n = 1 := by omega
      rw [hpage.child] at hnone
      cases hnone)
  dsimp only at hv hspace hcopy
  have hstep := run_copyuvm hrun (by rw [hv]; exact kva_ne_zero hman.small)
  rw [hv, ptrFrame_kva hman.small] at hstep
  obtain ⟨u, hu, -, hlen⟩ := hcopy.free
  have htables : ∀ p t, p ≠ [] → p.length < 4 → walk vm'.mem c p = some t → t ∈ u := by
    intro p t hne hp hw
    have hpiece := hspace.tree.table_mem ⟨p, hp, hw⟩
    have hheld : t ∈ treeRefs vm'.mem c ++ c :: heldBy s := by
      rcases List.mem_cons.mp hpiece with rfl | hmem
      · simp
      · simp [hmem]
    have hold : t ∈ s.vm.freelist :=
      (hinv.owned.counted.mem_free t).mpr ⟨hspace.owned.of_held hheld, hspace.apart t hpiece⟩
    rw [hu] at hold
    exact (List.mem_append.mp hold).resolve_right (hspace.owned.counted.not_mem_free hheld)
  refine ⟨{ s with vm := vm', pgdirs := ⟨c, d.sz, true⟩ :: s.pgdirs }, ⟨c, d.sz, true⟩,
    h.plain.step (a := .copyuvm d) trivial ⟨⟨h.mem, h.live, h.alive hn⟩, hstep⟩, by simp, rfl, rfl, ?_,
    missing_table hspace.tree.shape hlen htables⟩
  obtain ⟨f, -, hc, g, -, he, -⟩ := hcopy.page 1 (by omega) (by omega)
  refine ⟨(child_eq_some.mp hc).1, ?_⟩
  show has (entry vm'.mem c 1) pteU = true
  rw [he, has_copyEntry isFlags_pteU, hpage.2, Bool.true_or]

theorem Zeros.width (h : Zeros s d (2 ^ 20 + 2)) :
    UserPages.pages ((d.sz.setWidth 32).setWidth 64) = 2 := by
  rw [UserPages.pages, BitVec.toNat_setWidth, BitVec.toNat_setWidth, h.sz]
  omega

/-- The child of the large process has a page below its size without a page table. -/
theorem exists_large_child : ∃ s c, Reach (system pc) Plain s ∧ c ∈ s.pgdirs ∧ c.live = true ∧
    Alive s.vm.mem c ∧ ∃ k < UserPages.pages c.sz, walk s.vm.mem c.root (pagePath k) = none := by
  obtain ⟨s, d, h, hfree⟩ := exists_large
  obtain ⟨s', c, hreach, hc, hlive, hsz, hpage, k, hk, hmissing⟩ :=
    h.fork (by omega) (by omega) h.width
  refine ⟨s', c, hreach, hc, hlive, ⟨1, by omega, hpage⟩, k, ?_, hmissing⟩
  rw [hsz, h.pages]
  omega

/-- The child of the large process runs, and its `sys_dedup` reads through the null pointer. -/
theorem large_child_dedup : ∃ s d, Reach (system pc) Plain s ∧ d ∈ s.pgdirs ∧ d.live = true ∧ Alive s.vm.mem d ∧
    userOps 1 d s.vm [.dedup] = .error (.trap .nullDeref) ∧ ¬ Invisible s d := by
  obtain ⟨s, c, hreach, hc, hlive, halive, k, hk, hmissing⟩ := exists_large_child
  have hcrash := dedup_missing (inv_plain hreach) hc hk hmissing 1
  exact ⟨s, c, hreach, hc, hlive, halive, hcrash, not_invisible hcrash⟩

end Xv6.LargeFork
