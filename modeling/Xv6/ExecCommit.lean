import Xv6.CopyOut
import Xv6.Exhaustion

/-!
# A program that starts

What a call of `exec` that returns 0 has done, step by step, and the page table that it commits to:
the pages of the program, the guard page and the stack, each with a frame of its own. The old table
goes only then, and takes nothing of the new one with it.
-/
namespace Xv6.ExecCommit

open Words Mmu Memory Kalloc Vm PageTable AddressSpace PageNumber UserPages FreeVm Dedup Kernel
open KernelInv ExecStack Transparency CopyOut Exec ExecLoad

variable {m : Machine} {s₀ s s' : State} {mem mem' : Mem} {kpdpt r n : Nat} {held : List Nat} {k k' : Task}
  {path : List Byte} {file : Option (List Byte)} {argv : List (List Byte)} {pgdir sz start : Word}
    {sys : Sys} {d : Pgdir}

theorem bad_ok {y : Task × Int} {ip : Bool} (h : bad m k pgdir ip = .ok y) : y.2 = -1 := by
  rw [bad] at h
  split at h
  all_goals
    obtain ⟨vm, -, h⟩ := bind_eq_ok.mp h
    cases h
    rfl

structure Entered (m : Machine) (k : Task) (argv : List (List Byte)) (pgdir sz start : Word) (vm₁ vm₂ vm₃ : State)
    (sp : Word) (ptrs : List Word) (k' : Task) : Prop where
  stack : execStack m k.vm ⟨ptrFrame pgdir, sz, false⟩ = .ok (vm₁, k'.proc.sz)
  push : pushArgs m pgdir argv vm₁ k'.proc.sz [] = .ok (vm₂, some (sp, ptrs))
  copy : ∃ z, copyout m vm₂ pgdir (ustackPtr sp ptrs) ((ustack sp ptrs).flatMap wordBytes) = .ok (vm₃, z) ∧ ¬ z < 0
  free : freevm m vm₃ k.proc.pgdir = .ok k'.vm
  pgdir : k'.proc.pgdir = pgdir
  rdi : k'.proc.tf .rdi = BitVec.ofNat 64 ptrs.length
  rsi : k'.proc.tf .rsi = argvPtr sp ptrs
  rsp : k'.proc.tf .rsp = ustackPtr sp ptrs
  rip : k'.proc.tf .rip = start
  rcx : k'.proc.tf .rcx = start

theorem enterProgram_ok (h : enterProgram m k path argv pgdir sz start = .ok (k', 0)) :
    ∃ vm₁ vm₂ vm₃ sp ptrs, Entered m k argv pgdir sz start vm₁ vm₂ vm₃ sp ptrs k' := by
  rw [enterProgram] at h
  obtain ⟨⟨vm₁, size⟩, hstack, h⟩ := bind_eq_ok.mp h
  dsimp only at h
  split at h
  · cases bad_ok h
  obtain ⟨⟨vm₂, _ | ⟨sp, ptrs⟩⟩, hpush, h⟩ := bind_eq_ok.mp h
  · cases bad_ok h
  obtain ⟨⟨vm₃, z⟩, hcopy, h⟩ := bind_eq_ok.mp h
  dsimp only at h
  split at h
  · cases bad_ok h
  rename_i hz
  obtain ⟨vm, hfree, h⟩ := bind_eq_ok.mp h
  cases h
  exact ⟨vm₁, vm₂, vm₃, sp, ptrs, hstack, hpush, ⟨z, hcopy, hz⟩, hfree, rfl, rfl, rfl, rfl, rfl, rfl⟩

/-- `exec` returns 0 only for a program that the loader accepts. -/
theorem exec_ok (h : exec m k path file argv = .ok (k', 0)) : ∃ c l size start, file = some c ∧
    loadProgram m k.kpdpt k.vm c = .ok l ∧ l.program = some (size, start) ∧
    enterProgram m { k.beginOp.namei.ilock with vm := l.image.vm }.iunlockput.endOp path argv l.pgdir size start =
      .ok (k', 0) := by
  unfold exec at h
  cases file with
  | none => cases h
  | some c =>
    obtain ⟨l, hload, h⟩ := bind_eq_ok.mp h
    cases hp : l.program with
    | none =>
      dsimp only at h
      rw [hp] at h
      cases bad_ok h
    | some p =>
      dsimp only at h
      rw [hp] at h
      exact ⟨c, l, p.1, p.2, rfl, hload, hp, h⟩

/-- `exec` returns 0 where each of its steps succeeds. -/
theorem enterProgram_zero {vm₁ vm₂ vm₃ vm₄ : State} {size sp : Word} {ptrs : List Word}
    (hstack : execStack m k.vm ⟨ptrFrame pgdir, sz, false⟩ = .ok (vm₁, size)) (hne : size ≠ 0)
    (hpush : pushArgs m pgdir argv vm₁ size [] = .ok (vm₂, some (sp, ptrs)))
    (hcopy : copyout m vm₂ pgdir (ustackPtr sp ptrs) ((ustack sp ptrs).flatMap wordBytes) = .ok (vm₃, 0))
    (hfree : freevm m vm₃ k.proc.pgdir = .ok vm₄) : ∃ k',
    enterProgram m k path argv pgdir sz start = .ok (k', 0) := by
  rw [enterProgram, hstack, ok_bind]
  dsimp only
  rw [if_neg hne, hpush, ok_bind]
  dsimp only [Task.setReg]
  rw [hcopy, ok_bind]
  dsimp only
  rw [if_neg (by decide), hfree, ok_bind]
  exact ⟨_, rfl⟩

theorem exec_zero {c : List Byte} {l : Loaded} (hload : loadProgram m k.kpdpt k.vm c = .ok l)
    (hprog : l.program = some (sz, start))
    (henter : ∃ k', enterProgram m { k.beginOp.namei.ilock with
      vm := l.image.vm }.iunlockput.endOp path argv l.pgdir sz start =
      .ok (k', 0)) : ∃ k', exec m k path (some c) argv = .ok (k', 0) := by
  obtain ⟨k', henter⟩ := henter
  refine ⟨k', ?_⟩
  unfold exec
  dsimp only
  rw [show loadProgram m k.beginOp.namei.ilock.kpdpt k.beginOp.namei.ilock.vm c = .ok l from hload, ok_bind]
  simp only [hprog]
  exact henter

/-- The table of a program with the pages 1 to `n - 1`, a guard page and a stack. -/
structure Programmed (s₀ s : State) (kpdpt r n : Nat) (held : List Nat) : Prop where
  space : Space s kpdpt r held
  low : n + 2 ≤ 2 ^ 35
  pos : 0 < n
  present : ∀ j, j < 2 ^ 35 → (has (entry s.mem r j) pteP = true ↔ 0 < j ∧ j < n + 2)
  user : ∀ j, 0 < j → j < n + 2 → (has (entry s.mem r j) pteU = true ↔ j ≠ n)
  unshared : Unshared s.mem r
  kept : ∀ g ∈ held, s.mem g = s₀.mem g

section

variable (h : Programmed s₀ s kpdpt r n held)
include h

theorem Programmed.userPage {j : Nat} (hj : j < 2 ^ 35) :
    UserPage s.mem r j ↔ 0 < j ∧ j < n + 2 ∧ j ≠ n := by
  rw [UserPage, h.present j hj]
  constructor
  · rintro ⟨⟨h₁, h₂⟩, hu⟩
    exact ⟨h₁, h₂, (h.user j h₁ h₂).mp hu⟩
  · rintro ⟨h₁, h₂, hne⟩
    exact ⟨⟨h₁, h₂⟩, (h.user j h₁ h₂).mpr hne⟩

theorem Programmed.copied {a : Nat} {bs : List Byte}
    (hc : Copied s s' kpdpt r held a bs) : Programmed s₀ s' kpdpt r n held := by
  refine ⟨hc.space, h.low, h.pos, fun j hj => ?_, fun j h₁ h₂ => ?_, h.unshared.congr hc.entries,
    fun g hg => (hc.kept g hg).trans (h.kept g hg)⟩
  · rw [hc.entries, h.present j hj]
  · rw [hc.entries, h.user j h₁ h₂]

/-- A copy that ends in the stack page or just below it, and succeeds, is all in the stack page. -/
theorem Programmed.in_stack {a len : Nat} (hlen : 0 < len)
    (hend : (n + 1) * 4096 < a + len + 8) (htop : a + len ≤ (n + 2) * 4096) (hu : Usable s.mem r a len) :
    (n + 1) * 4096 ≤ a := by
  have hlow := h.low
  by_contra hlt
  have hguard := hu (min (a + len) ((n + 1) * 4096) - 1) (by omega) (by omega)
  rw [show (min (a + len) ((n + 1) * 4096) - 1) / 4096 = n by omega, h.userPage (by omega)] at hguard
  exact hguard.2.2 rfl

end

/-- A table whose pages can all be written has no frame twice. -/
theorem unshared_of_writable (h : Tree mem kpdpt r)
    (hw : ∀ j, j < 2 ^ 35 → has (entry mem r j) pteP = true → has (entry mem r j) pteW = true) :
    Unshared mem r := by
  intro j j' f hj hj' hc hc'
  by_contra hne
  have hslot : pagePath j ≠ pagePath j' ∨ j % 512 ≠ j' % 512 := by
    by_contra hno
    rw [not_or, not_not, not_not] at hno
    exact hne (pagePath_inj (by omega) (by omega) hno.1 hno.2)
  have hfrozen := h.shared _ _ _ _ f rfl rfl hc hc' hslot
  have hwritable := hw j hj (child_eq_some.mp hc).1
  rw [show has (entry mem r j) pteW = false from hfrozen.2] at hwritable
  cases hwritable

theorem fresh_user (f : Nat) : has (freshEntry f) pteP = true ∧ has (freshEntry f) pteW = true ∧
    has (freshEntry f) pteU = true := by
  rw [has_freshEntry (isFlags_of_lt (by decide)), has_freshEntry (isFlags_of_lt (by decide)),
    has_freshEntry (isFlags_of_lt (by decide))]
  decide

theorem programmed_of_stacked (h : Building s₀ s kpdpt r n held) (hspace : Space s' kpdpt r held)
    (hst : Stacked s s' r n) : Programmed s₀ s' kpdpt r n held := by
  have hfew := h.few
  have hlow : n + 2 ≤ 2 ^ 35 := by
    rw [nframes_eq] at hfew
    omega
  have hentry (j : Nat) (hj : j < 2 ^ 35) : (0 < j ∧ j < n + 2 ∧ j ≠ n ∧ ∃ f, entry s'.mem r j = freshEntry f) ∨
      (j = n ∧ ∃ f, entry s'.mem r j = freshEntry f &&& ~~~pteU) ∨
      ((j = 0 ∨ n + 2 ≤ j) ∧ entry s'.mem r j = 0) := by
    have hpos := h.pos
    by_cases hg : j = n
    · obtain ⟨f, -, -, hf, -⟩ := hst.guard
      exact .inr (.inl ⟨hg, f, by rw [hg, hf]⟩)
    by_cases ht : j = n + 1
    · obtain ⟨f, -, -, hf, -⟩ := hst.stack
      exact .inl ⟨by omega, by omega, hg, f, by rw [ht, hf]⟩
    have hold := hst.old j (by omega) hg ht
    by_cases hin : 0 < j ∧ j < n
    · obtain ⟨f, -, -, hf⟩ := h.page j hin.1 hin.2
      exact .inl ⟨hin.1, by omega, hg, f, hold.trans hf⟩
    · exact .inr (.inr ⟨by omega, hold.trans (h.other j (by omega) (by omega))⟩)
  have hguard (f : Nat) (bit : Word) (hbit : bit &&& pteU = 0#64) :
    has (freshEntry f &&& ~~~pteU) bit = has (freshEntry f) bit :=
    has_andNot hbit
  have hpos := h.pos
  refine ⟨hspace, hlow, h.pos, fun j hj => ?_, fun j h₁ h₂ => ?_,
    unshared_of_writable hspace.tree fun j hj hp => ?_, fun g hg => ?_⟩
  · rcases hentry j hj with ⟨h₁, h₂, -, f, hf⟩ | ⟨rfl, f, hf⟩ | ⟨hout, hz⟩
    · simp [hf, (fresh_user f).1, h₁, h₂]
    · rw [hf, hguard f pteP (by decide)]
      simp [(fresh_user f).1, hpos]
    · rw [hz]
      refine iff_of_false (by decide) (by omega)
  · rcases hentry j (by omega) with ⟨-, -, hne, f, hf⟩ | ⟨rfl, f, hf⟩ | ⟨hout, -⟩
    · simp [hf, (fresh_user f).2.2, hne]
    · simp [hf]
    · omega
  · rcases hentry j hj with ⟨-, -, -, f, hf⟩ | ⟨rfl, f, hf⟩ | ⟨-, hz⟩
    · rw [hf, (fresh_user f).2.1]
    · rw [hf, hguard f pteW (by decide), (fresh_user f).2.1]
    · rw [hz] at hp
      exact absurd hp (by decide)
  · obtain ⟨hfree, htable⟩ := h.space.other hg
    exact (hst.contents g hfree htable).trans (h.kept g hg)

/-- What a table and its pages look like depends on their frames. -/
theorem userByte_kept (h : Tree mem kpdpt r) (hsame : ∀ g ∈ r :: treeRefs mem r, mem' g = mem g) :
    (∀ j, entry mem' r j = entry mem r j) ∧ userByte mem' r = userByte mem r := by
  have hentry (j : Nat) : entry mem' r j = entry mem r j :=
    pte_tables (fun t ht => hsame t (h.table_mem ht)) rfl
  refine ⟨hentry, ?_⟩
  funext v
  by_cases hv : v.toNat < 2 ^ 47 ∧ UserPage mem r (v.toNat / 4096)
  · rw [userByte_of_page hv.1 hv.2, userByte_of_page hv.1 (by rw [UserPage, hentry]; exact hv.2), hentry,
      hsame _ (List.mem_cons_of_mem r (h.leaf_mem rfl hv.2.child))]
  · rw [userByte_none hv, userByte_none (by rw [UserPage, hentry]; exact hv)]

/-- `freevm` of a table of the kernel leaves the new one alone. -/
theorem freevm_other (hfull : m.Full) (h : Inv sys) (hd : d ∈ sys.pgdirs) (hs : Space s sys.kpdpt r (heldBy sys))
    (hkept : ∀ g ∈ heldBy sys, s.mem g = sys.vm.mem g) :
    ∃ s', freevm m s (kva d.root) = .ok s' ∧ ∀ g ∈ r :: treeRefs s.mem r, s'.mem g = s.mem g := by
  have hold := h.space hd
  have hperm : (heldBy sys).Perm (piece sys.vm.mem d ++ others sys d) := by
    refine (held_perm (List.perm_cons_erase hd)).trans ?_
    rw [others, held, held, List.flatMap_cons, List.append_assoc]
  have hpiece : ∀ g ∈ piece sys.vm.mem d, g ∈ heldBy sys :=
    fun g hg => hperm.mem_iff.mpr (List.mem_append_left _ hg)
  have htables : ∀ t, IsTable sys.vm.mem d.root t → s.mem t = sys.vm.mem t :=
    fun t ht => hkept t (hpiece t (hold.tree.table_mem ht))
  have hrefs : treeRefs s.mem d.root = treeRefs sys.vm.mem d.root := treeRefs_tables htables
  have hown : Owned Managed s (treeRefs s.mem d.root ++ d.root ::
    (others sys d ++ (treeRefs s.mem r ++ [r]))) := by
    refine hs.owned.perm ?_
    rw [hrefs]
    have hnew : (treeRefs s.mem r ++ r :: heldBy sys).Perm (heldBy sys ++ (treeRefs s.mem r ++ [r])) := by
      rw [show r :: heldBy sys = [r] ++ heldBy sys from rfl, ← List.append_assoc]
      exact List.perm_append_comm
    have hhead : (piece sys.vm.mem d).Perm (treeRefs sys.vm.mem d.root ++ [d.root]) :=
      (List.perm_append_singleton _ _).symm
    refine hnew.trans ((hperm.append_right _).trans ?_)
    rw [List.append_assoc]
    refine (hhead.append_right _).trans ?_
    rw [List.append_assoc]
    rfl
  have hnot : d.root ∉ others sys d ++ (treeRefs s.mem r ++ [r]) := by
    intro hmem
    have hroot : d.root ∈ piece sys.vm.mem d := List.mem_cons_self
    rcases List.mem_append.mp hmem with hother | hnew
    · exact hold.apart d.root hroot hother
    · exact hs.apart d.root (by simpa [or_comm] using hnew) (hpiece _ hroot)
  obtain ⟨s', hfree, -, hsame⟩ := freevm_books hfull (hold.tree.congr htables).shape hown hnot
  refine ⟨s', hfree, fun g hg => hsame g (List.mem_append_right _ ?_)⟩
  simpa [or_comm] using hg

end Xv6.ExecCommit
