import Xv6.ExecStack
import Xv6.KernelInv

/-!
# What one call of the kernel does

Each call of `Kernel.run`, made when it is allowed, keeps the invariant and the entries of the
tables it does not work on; or it stops, because the free list was too short, because the code
panics, or because it dereferences the null pointer. Left out is a fault in one of the large pages
of the kernel, which `copyonwrite` takes for page tables.
-/
namespace Xv6.KernelStep

open Words Mmu Memory Kalloc Vm Outcome RadixTree PageTable AddressSpace PageNumber UserPages FreeVm
open CopyUvm CopyOnWrite Dedup PageWalk SizeBound Kernel ExecStack KernelInv

def subject : Act → Option Pgdir
  | .inituvm d _ | .allocuvm d _ | .stack d | .deallocuvm d _ | .dedup d | .copyonwrite d _ | .freevm d => some d
  | _ => none

/-- A number of free frames with which the call does not run out of memory. -/
def need : Act → Nat
  | .kalloc | .setupkvm | .copyonwrite _ _ => 1
  | .inituvm _ _ => 4
  | .allocuvm d newsz => 4 * (pages newsz - pages d.sz)
  | .stack _ => 8
  | .copyuvm d => 4 * pages ((d.sz.setWidth 32).setWidth 64) + 1
  | _ => 0

def Stops (m : Machine) (s : Sys) (a : Act) (e : Trap) : Prop :=
  (Exhausted m e ∧ s.vm.freelist.length < need a) ∨ (∃ msg, e = .panic msg) ∨ e = .nullDeref

def Mild (s : Sys) : Act → Prop
  | .copyonwrite d v => ∀ pg, hwWalk s.vm.mem d.root v = some pg → pg.span = 1
  | _ => True

def Steady (s s' : Sys) (d : Option Pgdir) : Prop :=
  ∀ d' ∈ s.pgdirs, some d' ≠ d → ∀ n, entry s'.vm.mem d'.root n = entry s.vm.mem d'.root n

variable {m : Machine} {s s' : Sys} {vm vm' : State} {kpdpt f n : Nat} {d d' : Pgdir} {v newsz : Word} {a : Act}

theorem steady_tables (hsame : ∀ d' ∈ s.pgdirs, some d' ≠ some d → ∀ t, IsTable s.vm.mem d'.root t →
    s'.vm.mem t = s.vm.mem t) : Steady s s' (some d) :=
  fun d' hd' hne _ => pte_tables (hsame d' hd' hne) rfl

theorem steady_others (h : Inv s) (hsame : ∀ g ∈ others s d, s'.vm.mem g = s.vm.mem g) : Steady s s' (some d) := by
  refine steady_tables ?_
  intro d' hd' hne t ht
  have hmem : d' ∈ s.pgdirs.erase d := (List.mem_erase_of_ne (fun he => hne (by rw [he]))).mpr hd'
  exact hsame t (mem_held.mpr (.inl ⟨d', hmem, (h.sound hd').tree.table_mem ht⟩))

theorem steady_all (h : Inv s) (hsame : ∀ g ∈ heldBy s,
    s'.vm.mem g = s.vm.mem g) : Steady s s' none := by
  intro d' hd' _ n
  refine pte_tables ?_ rfl
  intro t ht
  exact hsame t (mem_held.mpr (.inl ⟨d', hd', (h.sound hd').tree.table_mem ht⟩))

theorem owned_length {held : List Nat} (h : Owned Managed vm held) : vm.freelist.length ≤ nframes := by
  have hsub : vm.freelist.toFinset ⊆ Finset.range nframes := by
    intro f hf
    rw [List.mem_toFinset] at hf
    exact Finset.mem_range.mpr (h.managed f ((h.counted.mem_free f).mp hf).1).lt
  have hcard := Finset.card_le_card hsub
  rwa [List.toFinset_card_of_nodup h.counted.nodup, Finset.card_range] at hcard

theorem freelist_length (h : Inv s) : s.vm.freelist.length ≤ nframes := owned_length h.owned

theorem pages_bound (h : Inv s) (hd : d ∈ s.pgdirs) : pages d.sz ≤ maxTabled + nframes :=
  (h.sound hd).sized.bound (h.space hd)

theorem alive_not_bare (h : Alive s.vm.mem d) : ¬ Bare s.vm.mem d.root := by
  obtain ⟨n, hn, hu⟩ := h
  intro hbare
  exact hbare n hn (by rw [Mapped, hu.child]; simp)

/-- A frame of the kernel is no page table. -/
theorem own_not_table (h : Inv s) (hf : f ∈ s.kernel ++ s.owners) (hd : d ∈ s.pgdirs) :
    ¬ IsTable s.vm.mem d.root f :=
  fun ht => h.world.kernel d hd ((h.sound hd).tree.table_mem ht) hf

theorem kalloc_step (hm : m.oom ≠ .null) (h : Inv s) :
    Ends (run m s .kalloc) (Stops m s .kalloc) (fun s' => Inv s' ∧ Steady s s' none) := by
  refine (kalloc_ends hm h.owned).seq ?_ ?_
  · rintro e ⟨hex, hnil⟩
    exact .inl ⟨hex, by simp [hnil, need]⟩
  · rintro x ⟨f, rest, hfree, hman, hnew, rfl, hown⟩
    simp only [ends_pure, if_neg (kva_ne_zero hman.small), ptrFrame_kva hman.small]
    have hnotown : f ∉ s.kernel ++ s.owners := fun hmem => hnew (mem_held.mpr (.inr hmem))
    have hperm : (s.kernel ++ f :: s.owners).Perm (f :: (s.kernel ++ s.owners)) := List.perm_middle
    refine ⟨⟨⟨h.world.sound, h.world.apart, ?_, h.world.shared⟩, ?_, ?_, h.kpdpt⟩, fun _ _ _ _ => rfl⟩
    · intro d hd g hg hgo
      rcases List.mem_cons.mp (hperm.mem_iff.mp hgo) with rfl | hgo
      · exact hnew (mem_held.mpr (.inl ⟨d, hd, hg⟩))
      · exact h.world.kernel d hd hg hgo
    · refine hown.perm ?_
      simp only [held]
      exact List.perm_middle.symm.trans (hperm.symm.append_left _)
    · exact hperm.nodup_iff.mpr (List.nodup_cons.mpr ⟨hnotown, h.nodup⟩)

theorem krelease_step (hfull : m.Full) (h : Inv s) (hf : f ∈ s.owners) :
    Ends (run m s (.krelease f)) (Stops m s (.krelease f)) (fun s' => Inv s' ∧ Steady s s' none) := by
  have hperm : (s.kernel ++ s.owners).Perm (f :: (s.kernel ++ s.owners.erase f)) :=
    ((List.perm_cons_erase hf).append_left s.kernel).trans List.perm_middle
  have hnodup := hperm.nodup_iff.mp h.nodup
  have hown : Owned Managed s.vm (f :: held s.vm.mem s.pgdirs (s.kernel ++ s.owners.erase f)) :=
    h.owned.perm ((hperm.append_left _).trans List.perm_middle)
  obtain ⟨vm', hrun, hown', hmem, -, -⟩ := krelease_kva hfull hown
  have hsub : ∀ g, g ∈ s.kernel ++ s.owners.erase f → g ∈ s.kernel ++ s.owners :=
    fun g hg => hperm.mem_iff.mpr (List.mem_cons_of_mem f hg)
  have htables : ∀ d ∈ s.pgdirs, ∀ t, IsTable s.vm.mem d.root t → vm'.mem t = s.vm.mem t := by
    intro d hd t ht
    refine hmem t (.inl ?_)
    rintro rfl
    exact own_not_table h (List.mem_append_right _ hf) hd ht
  have hk : s.kpdpt ≠ f := by
    rintro rfl
    exact (List.nodup_cons.mp hnodup).1 (List.mem_append_left _ h.kpdpt)
  have hworld := h.world.congr htables (hmem s.kpdpt (.inl hk))
  simp only [run]
  rw [hrun, ok_bind]
  refine ⟨⟨⟨hworld.sound, hworld.apart, ?_, hworld.shared⟩, ?_, (List.nodup_cons.mp hnodup).2, h.kpdpt⟩, ?_⟩
  · intro d hd g hg hgo
    exact hworld.kernel d hd hg (hsub g hgo)
  · rw [heldBy, held, flatMap_piece_congr htables]
    exact hown'
  · intro d' hd' _ n
    exact pte_tables (htables d' hd') rfl

/-- A store to a page that is no page table. -/
theorem setPage_step (page : Page) (h : Inv s) (hf : ∀ d ∈ s.pgdirs, ¬ IsTable s.vm.mem d.root f)
    (hk : f ≠ s.kpdpt) : Inv { s with vm := { s.vm with mem := setPage s.vm.mem f page } } ∧
      Steady s { s with vm := { s.vm with mem := setPage s.vm.mem f page } } none := by
  have htables : ∀ d ∈ s.pgdirs, ∀ t, IsTable s.vm.mem d.root t → setPage s.vm.mem f page t = s.vm.mem t := by
    intro d hd t ht
    refine setPage_other ?_ page
    rintro rfl
    exact hf d hd ht
  refine ⟨⟨h.world.congr htables (setPage_other (Ne.symm hk) page), ?_, h.nodup, h.kpdpt⟩, ?_⟩
  · rw [heldBy, held, flatMap_piece_congr htables]
    exact h.owned.congr rfl rfl
  · intro d' hd' _ n
    exact pte_tables (htables d' hd') rfl

theorem scratch_step {page : Page} (h : Inv s) (ha : Allowed s (.scratch f page)) :
    Ends (run m s (.scratch f page)) (Stops m s (.scratch f page)) (fun s' => Inv s' ∧ Steady s s' none) := by
  have hkman := h.owned.of_held (mem_held.mpr (.inr h.kpdpt_own))
  refine setPage_step page h ?_ ?_
  · intro d hd ht
    rcases ha with ⟨hown, -⟩ | hout
    · exact own_not_table h hown hd ht
    · obtain ⟨p, hp, hw⟩ := ht
      exact hout ((h.sound hd).tree.shape.managed p f hp hw)
  · rintro rfl
    rcases ha with ⟨-, hne⟩ | hout
    · exact hne rfl
    · exact hout hkman

/-- A mapped frame is a page of one table and nothing else. -/
theorem store_step {page : Page} (h : Inv s) (ha : Allowed s (.store d n page)) :
    Ends (run m s (.store d n page)) (Stops m s (.store d n page)) (fun s' => Inv s' ∧ Steady s s' none) := by
  obtain ⟨hd, hn, hp⟩ := ha
  have hc : child (entry s.vm.mem d.root n) = some (frameOf (entry s.vm.mem d.root n)) :=
    child_eq_some.mpr ⟨hp, rfl⟩
  have htree := (h.sound hd).tree
  have hpiece : frameOf (entry s.vm.mem d.root n) ∈ piece s.vm.mem d :=
    List.mem_cons_of_mem _ (leaf_mem_treeRefs htree.shape hn hc)
  have hrest := (h.world_cons hd).apart_rest hpiece
  refine setPage_step page h ?_ ?_
  · intro d' hd' ht
    by_cases he : d' = d
    · rw [he] at ht
      exact htree.leaf_not_table rfl hc ht
    · exact hrest (mem_held.mpr (.inl ⟨d', (List.mem_erase_of_ne he).mpr hd', (h.sound hd').tree.table_mem ht⟩))
  · intro he
    exact hrest (mem_held.mpr (.inr (he ▸ h.kpdpt_own)))

theorem setupkvm_step (hm : m.oom ≠ .null) (hfull : m.Full) (h : Inv s) :
    Ends (run m s .setupkvm) (Stops m s .setupkvm) (fun s' => Inv s' ∧ Steady s s' none) := by
  have hsetup : Ends (setupkvm m (kva s.kpdpt) s.vm) _ _ := setupkvm_space hm hfull h.owned
  refine hsetup.seq ?_ ?_
  · rintro e ⟨hex, hnil⟩
    exact .inl ⟨hex, by simp [hnil, need]⟩
  · rintro ⟨vm', v⟩ ⟨r, rfl, hman, hspace, hmade⟩
    simp only [ends_pure, ptrFrame_kva hman.small]
    have hsame : ∀ g ∈ heldBy s, vm'.mem g = s.vm.mem g := by
      intro g hg
      refine hmade.contents g ?_
      rintro rfl
      exact hspace.apart g (by simp) hg
    have hsized : Sized vm'.mem r (pages 0x1000) := sized_made hmade
    have hbuilt : Tabled vm'.mem r (pages 0x1000) := fun k h₁ (h₂ : k < 1) => absurd h₁ (by omega)
    have hsound : Sound vm'.mem s.kpdpt ⟨r, 0x1000, false⟩ :=
      ⟨hspace.tree, hsized, Nat.succ_pos 4095, fun _ => hbuilt⟩
    obtain ⟨hworld, hown⟩ := world_of_space h.world hsame hspace hsound h.kpdpt_own
    exact ⟨⟨hworld, hown, h.nodup, h.kpdpt⟩, steady_all h hsame⟩

/-- New pages at the end of a table. -/
theorem grown_others {New : Nat → Nat → Word → Page → Prop} {n n' : Nat} (h : Inv s) (hd : d ∈ s.pgdirs)
    (hg : Grown New s.vm vm' d.root n n') :
    ∀ g ∈ others s d, vm'.mem g = s.vm.mem g := by
  intro g hgo
  obtain ⟨hfree, htab⟩ := (h.space hd).other hgo
  exact hg.contents g hfree htab

theorem inituvm_step {init : List Byte} (hm : m.oom ≠ .null) (hfull : m.Full) (h : Inv s)
    (ha : Allowed s (.inituvm d init)) :
    Ends (run m s (.inituvm d init)) (Stops m s (.inituvm d init)) (fun s' => Inv s' ∧ Steady s s' (some d)) := by
  obtain ⟨hd, hlive, hsz⟩ := ha
  have hspace₀ := h.space hd
  by_cases hlen : init.length < 4096
  · refine (inituvm_ends hm hfull init hlen hspace₀).seq ?_ ?_
    · rintro e (⟨hex, hlt⟩ | ⟨he, -⟩)
      · exact .inl ⟨hex, hlt⟩
      · exact .inr (.inl ⟨_, he⟩)
    · rintro vm' ⟨hspace, f, hadd⟩
      have hpages : pages d.sz = 1 := by rw [hsz]; rfl
      have hg : Grown (fun _ _ _ _ => True) s.vm vm' d.root 1 2 :=
        hadd.grown trivial (by omega) hspace hspace₀.owned.counted.nodup
          (Grown.nil vm' d.root 2 2 (by omega)) (by omega)
      have hsame := grown_others h hd hg
      have hsized := (h.sound hd).sized
      have htab := (h.sound hd).built hlive
      rw [hpages] at hsized htab
      have hsized' : Sized vm'.mem d.root (pages 0x2000) :=
        ⟨above_grown hg (Nat.le_succ 1) hsized.above, .inl (tabled_grown hg htab)⟩
      have hsound : Sound vm'.mem s.kpdpt { d with sz := 0x2000, live := true } :=
        ⟨hspace.tree, hsized', Nat.succ_pos 8191, by simp⟩
      exact ⟨h.update hd hspace hsame hsound, steady_others h hsame⟩
  · have hpanic : run m s (.inituvm d init) = .error (.panic "inituvm: more than a page") := by
      simp only [run, inituvm]
      rw [if_pos (by rw [pgSize]; omega)]
      rfl
    rw [hpanic]
    exact .inr (.inl ⟨_, rfl⟩)

/-- A table that has grown, and its size with it. -/
theorem sound_grown (h : Inv s) (hd : d ∈ s.pgdirs) (hrun : d.live = true → Alive s.vm.mem d)
    (hspace : Space vm' s.kpdpt d.root (others s d)) (hle : d.sz.toNat ≤ newsz.toNat)
    (hg : Grown Zeroed s.vm vm' d.root (pages d.sz) (pages newsz)) : Sound vm'.mem s.kpdpt
    { d with sz := newsz } := by
  have hsound := h.sound hd
  have hbound := pages_bound h hd
  have hmax := maxTabled_lt
  have hpos := hsound.pos
  refine ⟨hspace.tree, ?_, ?_, fun hlive => tabled_grown hg (hsound.built hlive)⟩
  · refine hsound.sized.grown hg (pages_mono hle) (by omega) ?_
    cases hl : d.live with
    | false => exact .inl (hsound.built hl)
    | true => exact .inr (alive_not_bare (hrun hl))
  · show 0 < newsz.toNat
    omega

section

variable (hm : m.oom ≠ .null) (hfull : m.Full) (h : Inv s)
include hm hfull h

theorem allocuvm_step (ha : Allowed s (.allocuvm d newsz)) :
    Ends (run m s (.allocuvm d newsz)) (Stops m s (.allocuvm d newsz))
      (fun s' => Inv s' ∧ Steady s s' (some d)) := by
  obtain ⟨hd, hrun⟩ := ha
  have hspace₀ := h.space hd
  have hsound := h.sound hd
  have hbound := pages_bound h hd
  have hmax := maxTabled_lt
  have hlen := freelist_length h
  have halloc : Ends (allocuvm m s.vm (kva d.root) d.sz newsz) _ _ :=
    allocuvm_ends hm hfull hspace₀ hsound.pos (by omega)
  refine halloc.seq ?_ ?_
  · rintro e (hex | ⟨he, -⟩)
    · exact .inl hex
    · exact .inr (.inl ⟨_, he⟩)
  · rintro ⟨vm', sz⟩ (⟨heq, -⟩ | ⟨heq, -⟩ | ⟨rfl, hle, hspace, hg⟩)
    · cases heq
      simp only [ends_pure, ↓reduceIte]
      exact ⟨h.update hd hspace₀ (fun _ _ => rfl) hsound, fun _ _ _ _ => rfl⟩
    · cases heq
      simp only [ends_pure, ite_self]
      exact ⟨h.update hd hspace₀ (fun _ _ => rfl) hsound, fun _ _ _ _ => rfl⟩
    · have hsame := grown_others h hd hg
      have hne : sz ≠ 0 := by
        rintro rfl
        have := hsound.pos
        simp at hle
        omega
      simp only [ends_pure, if_neg hne]
      exact ⟨h.update hd hspace hsame (sound_grown h hd hrun hspace hle hg), steady_others h hsame⟩

/-- Two pages after the program, the first of them not for the user. -/
theorem execStack_ends (hd : d ∈ s.pgdirs) (hlive : d.live = false) :
    Ends (execStack m s.vm d) (Stops m s (.stack d)) (fun x => x.2 ≠ 0 ∧ pages x.2 = pages d.sz + 2 ∧
      Space x.1 s.kpdpt d.root (others s d) ∧ Sized x.1.mem d.root (pages x.2) ∧
      Tabled x.1.mem d.root (pages x.2) ∧
      (∀ g ∈ others s d, x.1.mem g = s.vm.mem g) ∧ Stacked s.vm x.1 d.root (pages d.sz)) := by
  have hspace₀ := h.space hd
  have hsound := h.sound hd
  have hbound := pages_bound h hd
  have hmax := maxTabled_lt
  have hlen := freelist_length h
  refine (execStack_space hm hfull hspace₀ hsound.pos (by omega)).mono ?_ ?_
  · rintro e (⟨hex, hlt⟩ | ⟨he, -⟩)
    · exact .inl ⟨hex, by simp only [need]; omega⟩
    · exact .inr (.inl ⟨_, he⟩)
  · rintro ⟨vm', sz⟩ ⟨hsz, hspace, hst⟩
    have hpages : pages sz = pages d.sz + 2 := by
      rw [pages, hsz]
      omega
    have htab : Tabled vm'.mem d.root (pages sz) := by
      intro k h₁ h₂
      by_cases hk : k < pages d.sz
      · obtain ⟨t, ht⟩ := Option.ne_none_iff_exists'.mp (hsound.built hlive k h₁ hk)
        rw [hst.mono _ t (by simp) ht]
        simp
      · obtain ⟨f, hf⟩ := (hst.mapped (Nat.le_of_not_lt hk) (by omega)).exists
        obtain ⟨t, ht⟩ := walk_of_pte hf
        rw [ht]
        simp
    refine ⟨?_, hpages, hspace, ⟨?_, .inl htab⟩, htab, ?_, hst⟩
    · intro h0
      rw [show sz = 0 from h0] at hsz
      simp at hsz
    · intro k hk hmap
      show k < pages sz
      by_contra hge
      rw [Mapped, hst.old k (by omega) (by omega) (by omega)] at hmap
      have := hsound.sized.above k hk hmap
      omega
    · intro g hg
      exact hst.contents g (hspace₀.other hg).1 (hspace₀.other hg).2

theorem stack_step (ha : Allowed s (.stack d)) :
    Ends (run m s (.stack d)) (Stops m s (.stack d)) (fun s' => Inv s' ∧ Steady s s' (some d)) := by
  refine (execStack_ends hm hfull h ha.1 ha.2).bind ?_
  rintro ⟨vm', sz⟩ ⟨hne, -, hspace, hsized, htab, hsame, -⟩
  have hne : sz ≠ 0 := hne
  have hpos : 0 < sz.toNat := Nat.pos_of_ne_zero (fun hz => hne (BitVec.eq_of_toNat_eq hz))
  simp only [ends_pure, if_neg hne]
  exact ⟨h.update ha.1 hspace hsame ⟨hspace.tree, hsized, hpos, fun _ => htab⟩, steady_others h hsame⟩

end

theorem commit_step (h : Inv s) (hd : d ∈ s.pgdirs) :
    Ends (run m s (.commit d)) (Stops m s (.commit d)) (fun s' => Inv s' ∧ Steady s s' none) := by
  have hsound := h.sound hd
  refine ⟨h.update hd (h.space hd) (fun _ _ => rfl) ⟨hsound.tree, hsound.sized, hsound.pos, by simp⟩, ?_⟩
  exact fun _ _ _ _ => rfl

theorem deallocuvm_step (hfull : m.Full) (h : Inv s) (ha : Allowed s (.deallocuvm d newsz)) :
    Ends (run m s (.deallocuvm d newsz)) (Stops m s (.deallocuvm d newsz))
      (fun s' => Inv s' ∧ Steady s s' (some d)) := by
  obtain ⟨hd, hlive, halive⟩ := ha
  have hspace₀ := h.space hd
  have hsound := h.sound hd
  have hbound := pages_bound h hd
  have hmax := maxTabled_lt
  have hbare := alive_not_bare halive
  obtain ⟨⟨vm', sz⟩, hrun, hspace, hcase⟩ : ∃ x, deallocuvm m s.vm (kva d.root) d.sz newsz = .ok x ∧ _ :=
    deallocuvm_space hfull hspace₀ (by omega)
  simp only [run]
  rw [hrun, ok_bind]
  simp only [ends_pure]
  rcases hcase with ⟨heq, -⟩ | ⟨hsz, hlt, hsh⟩
  · cases heq
    simp only [ite_self]
    exact ⟨h.update hd hspace₀ (fun _ _ => rfl) hsound, fun _ _ _ _ => rfl⟩
  · have hsz : sz = newsz := hsz
    have hsame : ∀ g ∈ others s d, vm'.mem g = s.vm.mem g := by
      intro g hg
      exact hsh.contents g (by simp [hg]) (hspace₀.other hg).2
    subst hsz
    by_cases h0 : sz = 0
    · subst h0
      simp only [↓reduceIte]
      exact ⟨h.update hd hspace hsame ⟨hspace.tree, hsound.sized.emptied hsh hbound, hsound.pos, by simp [hlive]⟩,
        steady_others h hsame⟩
    · have hpos : 0 < sz.toNat := by
        rw [Nat.pos_iff_ne_zero]
        exact fun hz => h0 (BitVec.eq_of_toNat_eq hz)
      simp only [if_neg h0]
      exact ⟨h.update hd hspace hsame ⟨hspace.tree, hsound.sized.shrunk hsh (pages_mono hlt.le) (by omega) hbare,
        hpos, by simp [hlive]⟩, steady_others h hsame⟩

theorem copyuvm_step (hm : m.oom ≠ .null) (hfull : m.Full) (h : Inv s) (ha : Allowed s (.copyuvm d)) :
    Ends (run m s (.copyuvm d)) (Stops m s (.copyuvm d)) (fun s' => Inv s' ∧ Steady s s' none) := by
  obtain ⟨hd, -, halive⟩ := ha
  have hsound := h.sound hd
  have hheld : ∀ g ∈ d.root :: treeRefs s.vm.mem d.root, g ∈ heldBy s :=
    fun g hg => mem_held.mpr (.inl ⟨d, hd, hg⟩)
  have hcopy : Ends (copyuvm m (kva s.kpdpt) s.vm (kva d.root) (d.sz.setWidth 32)) _ _ :=
    copyuvm_ends hm hfull h.owned hsound.tree hheld
  refine hcopy.seq ?_ ?_
  · rintro e (⟨hex, hle⟩ | ⟨msg, -, he, -⟩)
    · exact .inl ⟨hex, by simp only [need]; omega⟩
    · exact .inr (.inl ⟨msg, he⟩)
  · intro x hx
    refine Ends.of_returns ?_
    obtain ⟨vm', v⟩ := x
    obtain ⟨r, rfl, hman, hspace, hsame, hcopied, -⟩ := hx
    simp only [if_neg (kva_ne_zero hman.small), ptrFrame_kva hman.small]
    have hsized : Sized vm'.mem r (pages d.sz) :=
      hsound.sized.copied (h.space hd) (alive_not_bare halive) (freelist_length h) hcopied
    have hnew : Sound vm'.mem s.kpdpt ⟨r, d.sz, true⟩ := ⟨hspace.tree, hsized, hsound.pos, by simp⟩
    obtain ⟨hworld, hown⟩ := world_of_space h.world hsame hspace hnew h.kpdpt_own
    exact ⟨_, rfl, ⟨hworld, hown, h.nodup, h.kpdpt⟩, steady_all h hsame⟩

theorem dedup_step (hfull : m.Full) (h : Inv s) (ha : Allowed s (.dedup d)) :
    Ends (run m s (.dedup d)) (Stops m s (.dedup d)) (fun s' => Inv s' ∧ Steady s s' (some d)) := by
  obtain ⟨hd, hlive, -⟩ := ha
  have hsound := h.sound hd
  have hbound := pages_bound h hd
  have hmax := maxTabled_lt
  have hdedup : Ends (dedup m s.vm (kva d.root) 0 d.sz) _ _ := dedup_ends hfull (h.space hd) (by omega)
  refine hdedup.seq ?_ ?_
  · rintro e ⟨he, -⟩
    exact .inr (.inr he)
  · rintro vm' ⟨hspace, hdedup, htab⟩
    have hsized : Sized vm'.mem d.root (pages d.sz) :=
      hsound.sized.view hdedup.view (fun k _ hk => htab k hk)
    have hnew : Sound vm'.mem s.kpdpt d := ⟨hspace.tree, hsized, hsound.pos, by simp [hlive]⟩
    exact ⟨(h.update hd hspace hdedup.contents hnew).same_pgdirs hd, steady_others h hdedup.contents⟩

theorem freevm_step (hfull : m.Full) (h : Inv s) (hd : d ∈ s.pgdirs) :
    Ends (run m s (.freevm d)) (Stops m s (.freevm d)) (fun s' => Inv s' ∧ Steady s s' (some d)) := by
  refine Ends.of_returns ?_
  obtain ⟨vm', hrun, hown, hsame⟩ := freevm_space hfull (h.space hd)
  have hworld := (h.world_cons hd).tail
  have htables : ∀ d' ∈ s.pgdirs.erase d, ∀ t, IsTable s.vm.mem d'.root t → vm'.mem t = s.vm.mem t := by
    intro d' hd' t ht
    exact hsame t (mem_held.mpr (.inl ⟨d', hd', (hworld.sound d' hd').tree.table_mem ht⟩))
  simp only [run]
  rw [hrun, ok_bind]
  refine ⟨_, rfl, ⟨hworld.congr htables (hsame _ (mem_held.mpr (.inr h.kpdpt_own))), ?_, h.nodup, h.kpdpt⟩,
    steady_others h hsame⟩
  show Owned Managed vm' (held vm'.mem (s.pgdirs.erase d) (s.kernel ++ s.owners))
  rw [held, flatMap_piece_congr htables]
  exact hown

theorem copyonwrite_null {pgdir : Word} (hw : walkpgdir m vm pgdir (pgRoundDown v) false = .ok (vm, none)) :
    copyonwrite m vm pgdir v = .error .nullDeref := by
  have huva : uva2ka m vm pgdir (pgRoundDown v) = .error .nullDeref := by
    rw [uva2ka, hw]
    rfl
  simp only [copyonwrite, huva]
  rfl

section Fault

variable {r : Nat} (hfull : m.Full) (htree : Tree vm.mem kpdpt r)
include hfull htree

/-- Above the kernel's slot a table is empty. -/
theorem walkpgdir_above (hv : 256 < pmx v) : walkpgdir m vm (kva r) v false = .ok (vm, none) := by
  rw [walkpgdir_false (htree.shape.reaches hfull) htree.shape (by omega)]
  cases hw : walk vm.mem r (path v) with
  | none => rfl
  | some t =>
    have hin := htree.low (path v) t (by simp [path]) hw
    simp only [path, Inside, width] at hin
    have := hin.2.1
    simp at this
    omega

/-- In the kernel's slot only the first and the fourth gigabyte are mapped, by large pages. -/
theorem walkpgdir_slot (hk : Managed kpdpt) (hshared : vm.mem kpdpt = kernelPdpt) (hv : pmx v = 256)
    (h₀ : pdpx v ≠ 0) (h₃ : pdpx v ≠ 3) : walkpgdir m vm (kva r) v false = .ok (vm, none) := by
  have hroot := htree.shape.root
  obtain ⟨hpres, hfr⟩ := child_eq_some.mp (child_kernelEntry (by have := hk.small; omega : kpdpt < 2 ^ 52))
  have n₁ : nextTable m vm (entryPtr (kva r) (pmx v)) false = .ok (vm, some (kva kpdpt)) := by
    rw [nextTable, hv, read_entryPtr hroot.small (hroot.ram hfull) (by omega), ok_bind, htree.shape.kernel,
      if_pos hpres, p2v_pteAddr, hfr]
    rfl
  have n₂ : nextTable m vm (entryPtr (kva kpdpt) (pdpx v)) false = .ok (vm, none) := by
    have hzero : kernelPdpt (pdpx v) = 0 := by simp [kernelPdpt, h₀, h₃]
    rw [nextTable, read_entryPtr hk.small (hk.ram hfull) (pdpx_lt v), hshared, hzero]
    rfl
  rw [walkpgdir, n₁, ok_bind]
  simp only
  rw [n₂]
  rfl

omit hfull in
/-- The processor finds a large page in the two gigabytes. -/
theorem hwWalk_slot (hk : Managed kpdpt) (hshared : vm.mem kpdpt = kernelPdpt) (hcan : canonical v = true)
    (hv : pmx v = 256) (h₀ : pdpx v = 0 ∨ pdpx v = 3) :
    ∃ pg, hwWalk vm.mem r v = some pg ∧ pg.span ≠ 1 ∧ pg.writable = true := by
  obtain ⟨hpres, hfr⟩ := child_eq_some.mp (child_kernelEntry (by have := hk.small; omega : kpdpt < 2 ^ 52))
  have hlarge : has (kernelPdpt (pdpx v)) pteP = true ∧ has (kernelPdpt (pdpx v)) ptePS = true ∧
      has (kernelPdpt (pdpx v)) pteW = true := by
    rcases h₀ with he | he <;> rw [he] <;> decide
  have hwritable : has (kernelEntry kpdpt) pteW = true := by
    rw [kernelEntry, BitVec.or_assoc, has_frameAddr_or kpdpt _ isFlags_pteW]
    decide
  refine ⟨hwPage (512 * 512) (kernelPdpt (pdpx v)) [kernelEntry kpdpt, kernelPdpt (pdpx v)], ?_, by simp [hwPage],
    by simp [hwPage, hlarge.2.2, hwritable]⟩
  simp only [hwWalk, hv, htree.shape.kernel, hfr, hshared, hcan, hpres, hlarge.1, hlarge.2.1, Bool.true_eq_false,
    ↓reduceIte]

/-- A fault in the kernel's half, outside of the large pages, ends in a null pointer. -/
theorem copyonwrite_kernel (hk : Managed kpdpt) (hshared : vm.mem kpdpt = kernelPdpt) (hcan : canonical v = true)
    (hv : 2 ^ 47 ≤ v.toNat) (hmild : ∀ pg, hwWalk vm.mem r v = some pg → pg.span = 1) :
    copyonwrite m vm (kva r) v = .error .nullDeref := by
  have hround := pgRoundDown_page v
  have hlt := v.isLt
  have hpm : pmx (pgRoundDown v) = pmx v := by
    rw [pmx_eq, pmx_eq, hround]
    omega
  have hpdp : pdpx (pgRoundDown v) = pdpx v := by
    rw [pdpx_eq, pdpx_eq, hround]
    omega
  have hhigh : 256 ≤ pmx v := by
    simp only [canonical, Bool.or_eq_true, decide_eq_true_eq] at hcan
    rw [pmx_eq]
    omega
  refine copyonwrite_null ?_
  by_cases h256 : pmx v = 256
  · have hout : ¬ (pdpx v = 0 ∨ pdpx v = 3) := by
      intro h₀
      obtain ⟨pg, hpg, hspan, -⟩ := hwWalk_slot htree hk hshared hcan h256 h₀
      exact hspan (hmild pg hpg)
    exact walkpgdir_slot hfull htree hk hshared (by rw [hpm, h256]) (by rw [hpdp]; tauto) (by rw [hpdp]; tauto)
  · exact walkpgdir_above hfull htree (by omega)

end Fault

/-- A user page at which a store faults is marked for copying. -/
theorem cow_of_fault {r : Nat} {mem : Mem} (htree : Tree mem kpdpt r) (hf : WriteFault mem r v)
    (hv : v.toNat < 2 ^ 47) (hu : UserPage mem r (v.toNat / 4096)) :
    has (entry mem r (v.toNat / 4096)) pteCOW = true := by
  obtain ⟨t, hw⟩ := walk_of_pte hu.child
  have hpm : pmx v ≠ 256 := by
    rw [pmx_eq]
    omega
  have he : mem t (ptx v) = entry mem r (v.toNat / 4096) := by
    rw [entry, pte_of_walk hw, ptx_page]
  have hhw := hwWalk_of_walk htree.shape hpm hf.1 (by rw [path_page]; exact hw)
  rw [he, if_pos hu.1] at hhw
  have hdenied := hf.2 _ hhw
  have hreadonly : has (entry mem r (v.toNat / 4096)) pteW = false := by simpa [hu.2] using hdenied
  exact htree.leaf _ _ rfl hu.1 hu.2 hreadonly

theorem copyonwrite_step (hm : m.oom ≠ .null) (hfull : m.Full) (h : Inv s) (ha : Allowed s (.copyonwrite d v))
    (hmild : Mild s (.copyonwrite d v)) :
    Ends (run m s (.copyonwrite d v)) (Stops m s (.copyonwrite d v)) (fun s' => Inv s' ∧ Steady s s' (some d) ∧
      (∀ n, n < 2 ^ 35 → n ≠ v.toNat / 4096 → entry s'.vm.mem d.root n = entry s.vm.mem d.root n) ∧
      s'.pgdirs = s.pgdirs ∧ ∀ n, n < 2 ^ 35 → Mapped s.vm.mem d.root n → Mapped s'.vm.mem d.root n) := by
  obtain ⟨hd, hlive, hf⟩ := ha
  have hspace := h.space hd
  have hsound := h.sound hd
  have hkman := h.owned.of_held (mem_held.mpr (.inr h.kpdpt_own))
  by_cases hv : v.toNat < 2 ^ 47
  · have hn : v.toNat / 4096 < 2 ^ 35 := by omega
    by_cases hu : UserPage s.vm.mem d.root (v.toNat / 4096)
    · have hcow := copyonwrite_cow hm hfull hspace hn hu.child hu.2 (cow_of_fault hsound.tree hf hv hu)
      refine hcow.seq ?_ ?_
      · rintro e ⟨hex, hnil⟩
        exact .inl ⟨hex, by simp [hnil, need]⟩
      · rintro ⟨vm', x⟩ ⟨-, hspace', f', hrenew⟩
        have hbound := pages_bound h hd
        have hmax := maxTabled_lt
        have hfman : Managed f' := h.owned.managed f' ((h.owned.counted.mem_free f').mp hrenew.fresh).1
        have hsame : ∀ g ∈ others s d, vm'.mem g = s.vm.mem g := by
          intro g hg
          have hother := hspace.other hg
          refine hrenew.contents g (by simp [hg]) hother.2 ?_
          rintro rfl
          exact hother.1 hrenew.fresh
        have hnew : Sound vm'.mem s.kpdpt d :=
          ⟨hspace'.tree, hsound.sized.renewed hrenew hfman (by omega) hu.child, hsound.pos, by simp [hlive]⟩
        refine ⟨(h.update hd hspace' hsame hnew).same_pgdirs hd, steady_others h hsame, ?_, rfl, ?_⟩
        · intro n hn hne
          show entry vm'.mem d.root n = _
          rw [hrenew.map n (by omega), if_neg hne]
        · intro n hn hmap
          show child (entry vm'.mem d.root n) ≠ none
          rw [hrenew.map n (by omega)]
          split
          · rw [child_ownEntry hfman]
            simp
          · exact hmap
    · cases hw : walk s.vm.mem d.root (pagePath (v.toNat / 4096)) with
      | none =>
        simp only [run]
        rw [copyonwrite_missing hfull hsound.tree hn hw]
        exact .inr (.inr rfl)
      | some t =>
        simp only [run]
        rw [copyonwrite_denied hfull hsound.tree hn hw hu]
        exact ⟨h, fun _ _ _ _ => rfl, fun _ _ _ => rfl, rfl, fun _ _ hmap => hmap⟩
  · simp only [run]
    rw [copyonwrite_kernel hfull hsound.tree hkman h.world.shared hf.1 (by omega) hmild]
    exact .inr (.inr rfl)

/-- Every call keeps the invariant. -/
theorem step_ends (hm : m.oom ≠ .null) (hfull : m.Full) (h : Inv s) (ha : Allowed s a) (hmild : Mild s a) :
    Ends (run m s a) (Stops m s a) (fun s' => Inv s' ∧ Steady s s' (subject a)) := by
  cases a with
  | kalloc => exact kalloc_step hm h
  | krelease f => exact krelease_step hfull h ha
  | scratch f page => exact scratch_step h ha
  | setupkvm => exact setupkvm_step hm hfull h
  | inituvm d init => exact inituvm_step hm hfull h ha
  | allocuvm d newsz => exact allocuvm_step hm hfull h ha
  | stack d => exact stack_step hm hfull h ha
  | store d n page => exact store_step h ha
  | commit d => exact commit_step h ha.1
  | deallocuvm d newsz => exact deallocuvm_step hfull h ha
  | copyuvm d => exact copyuvm_step hm hfull h ha
  | dedup d => exact dedup_step hfull h ha
  | copyonwrite d v => exact (copyonwrite_step hm hfull h ha hmild).imp (fun _ hx => ⟨hx.1, hx.2.1⟩)
  | freevm d => exact freevm_step hfull h ha

end Xv6.KernelStep
