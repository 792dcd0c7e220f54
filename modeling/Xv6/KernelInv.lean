import Xv6.Kernel

/-!
# The invariant of the running kernel

`World` says of all page tables at once what `Space` says of one: each is a tree with a bounded
size, and no frame is referred to from two of them or from one of them and by the kernel. So it is
enough to look at the table that an operation works on.
-/
namespace Xv6.KernelInv

open Words Memory Kalloc PageTable AddressSpace UserPages PageWalk SizeBound Kernel

/-- The frames that a page table stands for, its own page map first. -/
def piece (mem : Mem) (d : Pgdir) : List Nat := d.root :: treeRefs mem d.root

/-- Every reference to a frame: from the page tables `ds` and from the kernel. -/
def held (mem : Mem) (ds : List Pgdir) (own : List Nat) : List Nat := ds.flatMap (piece mem) ++ own

structure Sound (mem : Mem) (kpdpt : Nat) (d : Pgdir) : Prop where
  tree : Tree mem kpdpt d.root
  sized : Sized mem d.root (pages d.sz)
  pos : 0 < d.sz.toNat
  built : d.live = false → Tabled mem d.root (pages d.sz)

structure World (mem : Mem) (kpdpt : Nat) (ds : List Pgdir) (own : List Nat) : Prop where
  sound : ∀ d ∈ ds, Sound mem kpdpt d
  apart : ds.Pairwise (fun d d' => (piece mem d).Disjoint (piece mem d'))
  kernel : ∀ d ∈ ds, (piece mem d).Disjoint own
  shared : mem kpdpt = kernelPdpt

/-- The references that the kernel holds. -/
abbrev heldBy (s : Sys) : List Nat := held s.vm.mem s.pgdirs (s.kernel ++ s.owners)

structure Inv (s : Sys) : Prop where
  world : World s.vm.mem s.kpdpt s.pgdirs (s.kernel ++ s.owners)
  owned : Owned Managed s.vm (heldBy s)
  nodup : (s.kernel ++ s.owners).Nodup
  kpdpt : s.kpdpt ∈ s.kernel

variable {m : Machine} {s s' : Sys} {vm vm' : State} {mem mem' : Mem} {kpdpt f g n : Nat}
  {d d' : Pgdir} {ds ds' : List Pgdir} {own own' : List Nat}

theorem mem_held : g ∈ held mem ds own ↔ (∃ d ∈ ds, g ∈ piece mem d) ∨ g ∈ own := by
  simp [held]

theorem piece_congr (hsame : ∀ t, IsTable mem d.root t → mem' t = mem t) : piece mem' d = piece mem d := by
  rw [piece, piece, treeRefs_tables hsame]

theorem Sound.congr (h : Sound mem kpdpt d) (hsame : ∀ t, IsTable mem d.root t → mem' t = mem t) :
    Sound mem' kpdpt d := by
  refine ⟨h.tree.congr hsame, h.sized.congr hsame, h.pos, ?_⟩
  intro hlive k h₁ h₂
  rw [walk_tables hsame (by simp)]
  exact h.built hlive k h₁ h₂

theorem flatMap_piece_congr (hsame : ∀ d ∈ ds, ∀ t, IsTable mem d.root t → mem' t = mem t) :
    ds.flatMap (piece mem') = ds.flatMap (piece mem) :=
  List.flatMap_congr (fun d hd => piece_congr (hsame d hd))

/-- The tables depend on their table pages only. -/
theorem World.congr (h : World mem kpdpt ds own) (hsame : ∀ d ∈ ds, ∀ t, IsTable mem d.root t → mem' t = mem t)
    (hshared : mem' kpdpt = mem kpdpt) : World mem' kpdpt ds own := by
  refine ⟨fun d hd => (h.sound d hd).congr (hsame d hd), ?_, ?_, by rw [hshared, h.shared]⟩
  · refine h.apart.imp_of_mem ?_
    intro d d' hd hd'
    rw [piece_congr (hsame d hd), piece_congr (hsame d' hd')]
    exact id
  · intro d hd
    rw [piece_congr (hsame d hd)]
    exact h.kernel d hd

theorem World.perm (h : World mem kpdpt ds own) (hp : ds.Perm ds') : World mem kpdpt ds' own := by
  refine ⟨fun d hd => h.sound d (hp.mem_iff.mpr hd), ?_, fun d hd => h.kernel d (hp.mem_iff.mpr hd), h.shared⟩
  exact (hp.pairwise_iff (fun hd => List.Disjoint.symm hd)).mp h.apart

theorem held_perm (hp : ds.Perm ds') : (held mem ds own).Perm (held mem ds' own) :=
  (hp.flatMap_right (piece mem)).append_right own

theorem World.tail (h : World mem kpdpt (d :: ds) own) : World mem kpdpt ds own :=
  ⟨fun d' hd => h.sound d' (List.mem_cons_of_mem d hd), h.apart.of_cons,
    fun d' hd => h.kernel d' (List.mem_cons_of_mem d hd), h.shared⟩

/-- The first table against the rest of the references. -/
theorem World.apart_rest (h : World mem kpdpt (d :: ds) own) (hg : g ∈ piece mem d) : g ∉ held mem ds own := by
  rw [mem_held]
  rintro (⟨d', hd', hg'⟩ | hown)
  · exact List.rel_of_pairwise_cons h.apart hd' hg hg'
  · exact h.kernel d (by simp) hg hown

theorem space_of_world (h : World vm.mem kpdpt (d :: ds) own)
    (hown : Owned Managed vm (held vm.mem (d :: ds) own)) :
    Space vm kpdpt d.root (held vm.mem ds own) := by
  refine ⟨(h.sound d (by simp)).tree, hown.perm ?_, fun f hf => h.apart_rest hf⟩
  have hheld : held vm.mem (d :: ds) own = d.root :: (treeRefs vm.mem d.root ++ held vm.mem ds own) := by
    simp [held, piece]
  rw [hheld]
  exact List.perm_middle.symm

/-- An operation on one table, with the references of the others as the rest. -/
theorem world_of_space (h : World mem kpdpt ds own) (hsame : ∀ g ∈ held mem ds own, vm'.mem g = mem g)
    (hspace : Space vm' kpdpt d.root (held mem ds own)) (hsound : Sound vm'.mem kpdpt d) (hk : kpdpt ∈ own) :
    World vm'.mem kpdpt (d :: ds) own ∧ Owned Managed vm' (held vm'.mem (d :: ds) own) := by
  have htables : ∀ d' ∈ ds, ∀ t, IsTable mem d'.root t → vm'.mem t = mem t := by
    intro d' hd' t ht
    exact hsame t (mem_held.mpr (.inl ⟨d', hd', (h.sound d' hd').tree.table_mem ht⟩))
  have h' := h.congr htables (hsame kpdpt (mem_held.mpr (.inr hk)))
  have hheld : held vm'.mem ds own = held mem ds own := by
    rw [held, held, flatMap_piece_congr htables]
  have hrest : ∀ f ∈ piece vm'.mem d, f ∉ held vm'.mem ds own := by
    rw [hheld]
    exact hspace.apart
  refine ⟨⟨?_, ?_, ?_, h'.shared⟩, ?_⟩
  · intro d' hd'
    rcases List.mem_cons.mp hd' with rfl | hd'
    · exact hsound
    · exact h'.sound d' hd'
  · refine List.pairwise_cons.mpr ⟨?_, h'.apart⟩
    intro d' hd' f hf hf'
    exact hrest f hf (mem_held.mpr (.inl ⟨d', hd', hf'⟩))
  · intro d' hd'
    rcases List.mem_cons.mp hd' with rfl | hd'
    · intro f hf hown
      exact hrest f hf (mem_held.mpr (.inr hown))
    · exact h'.kernel d' hd'
  · refine hspace.owned.perm ?_
    have hcons : held vm'.mem (d :: ds) own = d.root :: (treeRefs vm'.mem d.root ++ held vm'.mem ds own) := by
      simp [held, piece]
    rw [hcons, hheld]
    exact List.perm_middle

def others (s : Sys) (d : Pgdir) : List Nat := held s.vm.mem (s.pgdirs.erase d) (s.kernel ++ s.owners)

theorem Inv.world_cons (h : Inv s) (hd : d ∈ s.pgdirs) :
    World s.vm.mem s.kpdpt (d :: s.pgdirs.erase d) (s.kernel ++ s.owners) :=
  h.world.perm (List.perm_cons_erase hd)

theorem Inv.space (h : Inv s) (hd : d ∈ s.pgdirs) : Space s.vm s.kpdpt d.root (others s d) :=
  space_of_world (h.world_cons hd) (h.owned.perm (held_perm (List.perm_cons_erase hd)))

theorem Inv.sound (h : Inv s) (hd : d ∈ s.pgdirs) : Sound s.vm.mem s.kpdpt d := h.world.sound d hd

theorem Inv.kpdpt_own (h : Inv s) : s.kpdpt ∈ s.kernel ++ s.owners := List.mem_append_left _ h.kpdpt

/-- The invariant after an operation on the table `d`. -/
theorem Inv.update (h : Inv s) (hd : d ∈ s.pgdirs) (hspace : Space vm' s.kpdpt d'.root (others s d))
    (hsame : ∀ g ∈ others s d, vm'.mem g = s.vm.mem g) (hsound : Sound vm'.mem s.kpdpt d') :
    Inv (s.update vm' d d') := by
  obtain ⟨hworld, hown⟩ := world_of_space (h.world_cons hd).tail hsame hspace hsound h.kpdpt_own
  exact ⟨hworld, hown, h.nodup, h.kpdpt⟩

/-- The order of the tables does not matter. -/
theorem Inv.same_pgdirs (h : Inv (s.update vm' d d)) (hd : d ∈ s.pgdirs) : Inv { s with vm := vm' } := by
  have hp : (d :: s.pgdirs.erase d).Perm s.pgdirs := (List.perm_cons_erase hd).symm
  exact ⟨h.world.perm hp, h.owned.perm (held_perm hp), h.nodup, h.kpdpt⟩

end Xv6.KernelInv
