import Xv6.Boot

/-!
# Faults at other pages, and the empty free list

`copyonwrite` is meant to return 0 for a fault at any page but a copy-on-write page, and `kalloc` to
return 0 when there is no frame left. The one returns 1 wherever it returns, and the other first
stores into `frameinfo` at the index of the null pointer.
-/
namespace Xv6.FaultPaths

open Words Mmu Memory Kalloc Vm Outcome PageTable AddressSpace PageNumber UserPages CopyOnWrite
open PageWalk Dedup Kernel KernelInv KernelStep Boot Interleaving

variable {s : Sys} {d : Pgdir} {v : Word} {a : Act}

/-- The page of `v` is a present user page marked for copying. -/
def CowPage (mem : Mem) (r : Nat) (v : Word) : Prop :=
  v.toNat < 2 ^ 47 ∧ UserPage mem r (v.toNat / 4096) ∧ has (entry mem r (v.toNat / 4096)) pteCOW = true

def Storable (mem : Mem) (r : Nat) (v : Word) : Prop :=
  ∃ pg, hwWalk mem r v = some pg ∧ pg.user = true ∧ pg.writable = true

def FaultHandled (s : Sys) (d : Pgdir) (v : Word) : Prop :=
  (¬ CowPage s.vm.mem d.root v → copyonwrite pc s.vm (kva d.root) v = .ok (s.vm, 0)) ∧
    ∀ vm', copyonwrite pc s.vm (kva d.root) v = .ok (vm', 1) → Storable vm'.mem d.root v

def CowFaults (s : Sys) : Act → Prop
  | .copyonwrite d v => CowPage s.vm.mem d.root v
  | _ => True

theorem canonical_of_lt (hv : v.toNat < 2 ^ 47) : canonical v = true := by
  simp only [canonical, Bool.or_eq_true, decide_eq_true_eq]
  exact .inl hv

/-- What the processor finds at a page that has a table. -/
theorem hwWalk_page {mem : Mem} {kpdpt r t : Nat} (h : Shape mem kpdpt r) (hv : v.toNat < 2 ^ 47)
    (hw : walk mem r (pagePath (v.toNat / 4096)) = some t) :
    hwWalk mem r v = if has (entry mem r (v.toNat / 4096)) pteP = true then
      some ⟨frameOf (entry mem r (v.toNat / 4096)), 1, has (entry mem r (v.toNat / 4096)) pteU,
        has (entry mem r (v.toNat / 4096)) pteW⟩ else none := by
  have hpm : pmx v ≠ 256 := by
    rw [pmx_eq]
    omega
  have he : mem t (ptx v) = entry mem r (v.toNat / 4096) := by
    rw [entry, pte_of_walk hw, ptx_page]
  rw [hwWalk_of_walk h hpm (canonical_of_lt hv) (by rw [path_page]; exact hw), he]

theorem mild_of_cow (h : KernelInv.Inv s) (ha : Allowed s a) (hc : CowFaults s a) : Mild s a := by
  cases a with
  | copyonwrite d v =>
    obtain ⟨hv, hu, -⟩ := hc
    obtain ⟨t, hw⟩ := walk_of_pte hu.child
    intro pg hpg
    rw [hwWalk_page (h.sound ha.1).tree.shape hv hw, if_pos hu.1] at hpg
    cases hpg
    rfl
  | _ => trivial

/-- A copied page can be written. -/
theorem storable_renewed (h : KernelInv.Inv s) (hd : d ∈ s.pgdirs) (hc : CowPage s.vm.mem d.root v) {vm' : State}
    (hrun : copyonwrite pc s.vm (kva d.root) v = .ok (vm', 1)) : Storable vm'.mem d.root v := by
  obtain ⟨hv, hu, hcow⟩ := hc
  have hn : v.toNat / 4096 < 2 ^ 35 := by omega
  obtain ⟨-, hspace, f', hrenew⟩ := (copyonwrite_cow pc_oom pc_full (h.space hd) hn hu.child hu.2 hcow).of_ok hrun
  have hman : Managed f' := h.owned.managed f' ((h.owned.counted.mem_free f').mp hrenew.fresh).1
  have he : entry vm'.mem d.root (v.toNat / 4096) = ownEntry f' := by rw [hrenew.map _ (by omega), if_pos rfl]
  have hchild : child (entry vm'.mem d.root (v.toNat / 4096)) = some f' := by rw [he, child_ownEntry hman]
  obtain ⟨t, hw⟩ := walk_of_pte hchild
  refine ⟨_, (hwWalk_page hspace.tree.shape hv hw).trans (if_pos (child_eq_some.mp hchild).1), ?_, ?_⟩
  · show has (entry vm'.mem d.root (v.toNat / 4096)) pteU = true
    rw [he, has_ownEntry isFlags_pteU]
    decide
  · show has (entry vm'.mem d.root (v.toNat / 4096)) pteW = true
    rw [he, has_ownEntry isFlags_pteW]
    decide

/-- A fault is handled as `trap` needs it exactly at the copy-on-write pages. -/
theorem fault_handled_iff (h : Reach (system pc) CowFaults s) (hd : d ∈ s.pgdirs) (v : Word) :
    FaultHandled s d v ↔ CowPage s.vm.mem d.root v := by
  constructor
  · rintro ⟨hzero, -⟩
    by_contra hc
    have hone := copyonwrite_returns (hzero hc)
    exact absurd hone (by simp)
  · intro hc
    have hinv := inv_reach pc_oom pc_full (fun _ _ hi ha hok => mild_of_cow hi ha hok) h
    exact ⟨fun hno => absurd hc hno, fun vm' hrun => storable_renewed hinv hd hc hrun⟩

/-- A store through the null pointer faults, and `copyonwrite` reports a copy without making one:
the store faults again for ever. -/
theorem null_store_repeats : ∃ s d, Reachable (system pc) s ∧ d ∈ s.pgdirs ∧ d.live = true ∧
    WriteFault s.vm.mem d.root 0 ∧ ¬ CowPage s.vm.mem d.root 0 ∧
    copyonwrite pc s.vm (kva d.root) 0 = .ok (s.vm, 1) ∧ ¬ Storable s.vm.mem d.root 0 := by
  obtain ⟨s, d, hreach, hinv, hfirst⟩ := exists_first_any
  have hd := hfirst.mem
  have htree := (hinv.sound hd).tree
  obtain ⟨t, hw⟩ := walk_of_pte hfirst.user.child
  have hzero : entry s.vm.mem d.root ((0 : Word).toNat / 4096) = 0 := hfirst.other 0 (by omega) (by omega)
  have hlt : (0 : Word).toNat < 2 ^ 47 := by decide
  have hnone : hwWalk s.vm.mem d.root 0 = none := by
    rw [hwWalk_page htree.shape hlt hw, hzero]
    rfl
  have hfault : ∀ pg, hwWalk s.vm.mem d.root 0 ≠ some pg := by
    intro pg hpg
    rw [hnone] at hpg
    cases hpg
  have hno : ¬ UserPage s.vm.mem d.root ((0 : Word).toNat / 4096) := by
    rw [UserPage, hzero]
    decide
  refine ⟨s, d, hreach, hd, hfirst.live, ⟨by decide, fun pg hpg => absurd hpg (hfault pg)⟩,
    fun hcow => hno hcow.2.1,
    copyonwrite_denied pc_full htree (by decide) hw hno, ?_⟩
  rintro ⟨pg, hpg, -⟩
  exact hfault pg hpg

/-- There are frames enough for the call, and a fault is not in a large page. -/
def Roomy (s : Sys) (a : Act) : Prop := need a ≤ s.vm.freelist.length ∧ Mild s a

/-- Every access to `frameinfo` is in bounds, and `kalloc` on an empty free list returns 0 and
changes nothing. -/
def BooksInBounds (s : Sys) (a : Act) : Prop :=
  (∀ i, run pc s a ≠ .error (.frameinfoIndex i)) ∧
    (a = .kalloc → s.vm.freelist = [] → kalloc pc s.vm = .ok (s.vm, 0))

/-- While there are frames enough, all indices are in bounds; on an empty free list, the index
that `kalloc` uses is not. -/
theorem books_in_bounds (h : Reach (system pc) Roomy s) :
    (∀ a, Allowed s a → Roomy s a → BooksInBounds s a) ∧ (BooksInBounds s .kalloc ↔ s.vm.freelist ≠ []) := by
  have hinv := inv_reach pc_oom pc_full (fun _ _ _ _ hok => hok.2) h
  have hroomy : ∀ a, Allowed s a → Roomy s a → BooksInBounds s a := by
    intro a ha hroom
    refine ⟨?_, ?_⟩
    · intro i hrun
      rcases (step_ends pc_oom pc_full hinv ha hroom.2).of_error hrun with ⟨-, hlt⟩ | ⟨msg, he⟩ | he
      · exact absurd hlt (by have := hroom.1; omega)
      · cases he
      · cases he
    · rintro rfl hnil
      have hle : 1 ≤ s.vm.freelist.length := hroom.1
      simp [hnil] at hle
  refine ⟨hroomy, ?_, ?_⟩
  · intro hbooks hnil
    have hstore := hbooks.2 rfl hnil
    rw [kalloc_nil hnil] at hstore
    cases hstore
  · intro hne
    exact hroomy .kalloc trivial ⟨List.length_pos_iff.mpr hne, trivial⟩

theorem books_in_bounds_first : ∃ s d, First s d ∧ BooksInBounds s (.dedup d) := by
  obtain ⟨s, d, hreach, -, hfirst⟩ := exists_first Roomy pc_oom pc_full (fun _ h => ⟨h, trivial⟩)
    (fun _ _ h => ⟨h, trivial⟩)
  exact ⟨s, d, hfirst, (books_in_bounds hreach).1 (.dedup d) ⟨hfirst.mem, hfirst.live,
    hfirst.alive⟩ ⟨Nat.zero_le _, trivial⟩⟩

/-- A process that asks for more memory than there is makes `kalloc` store to `frameinfo` at the
index 2 ^ 35. -/
theorem sbrk_out_of_bounds : ∃ s d, Reachable (system pc) s ∧ Allowed s (.allocuvm d 0x10000000) ∧
    run pc s (.allocuvm d 0x10000000) = .error (.frameinfoIndex (2 ^ 35)) := by
  obtain ⟨s, d, hreach, hinv, hfirst⟩ := exists_first_any
  have hd := hfirst.mem
  refine ⟨s, d, hreach, ⟨hd, fun _ => hfirst.alive⟩, ?_⟩
  have hlen := freelist_length hinv
  have hframes : nframes = 57344 := rfl
  have hlo : pages d.sz = 2 := by rw [hfirst.sz]; rfl
  have hhi : pages 0x10000000 = 65536 := rfl
  have hends : Ends (allocuvm pc s.vm (kva d.root) d.sz 0x10000000) _ _ :=
    allocuvm_ends pc_oom pc_full (hinv.space hd) (hinv.sound hd).pos (by omega)
  simp only [run]
  cases hrun : allocuvm pc s.vm (kva d.root) d.sz 0x10000000 with
  | error e =>
    rcases hends.of_error hrun with ⟨hex, -⟩ | ⟨-, n, hge, hlt, -, hpres⟩
    · rcases hex with ⟨-, rfl⟩ | ⟨hstop, -⟩
      · rfl
      · cases hstop
    · rw [hfirst.other n (by omega) (by omega)] at hpres
      exact absurd hpres (by decide)
  | ok x =>
    have hsz : d.sz.toNat = 8192 := by rw [hfirst.sz]; rfl
    rcases hends.of_ok hrun with ⟨-, hk⟩ | ⟨-, hlt⟩ | ⟨-, -, -, hgrown⟩
    · exact absurd hk (by decide)
    · have hnew : (0x10000000 : Word).toNat = 268435456 := rfl
      omega
    · obtain ⟨used, hfree, hle, -⟩ := hgrown.free
      have hused : used.length ≤ s.vm.freelist.length := by
        rw [hfree, List.length_append]
        omega
      omega

end Xv6.FaultPaths
