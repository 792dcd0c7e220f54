import Xv6.FaultPaths
import Xv6.FrameBooks
import Xv6.Syscall

/-!
# User addresses that the kernel accepts

The argument fetchers compare an address with the size of the process only. Which pages below the
size are present depends on the history of the table: page 0 never is, and every other one is as
long as no process of 4 GB or more forks and no process shrinks to size 0. `argptr` looks at the low
half of its argument only.
-/
namespace Xv6.UserAddresses

open Words Mmu Memory Vm PageTable AddressSpace PageNumber UserPages CopyUvm PageWalk Dedup
open SizeBound Kernel KernelInv KernelStep Boot Interleaving FrameBooks FaultPaths Syscall

variable {len : Nat} {newsz sz : Word} {e : Trap}

variable {s s' : Sys} {vm' : State} {d d' : Pgdir} {a : Act} {p : Syscall.Proc} {v addr : Word} {k n : Nat}

/-- The pages below the size are present, page 0 excepted. -/
def Filled (mem : Mem) (d : Pgdir) : Prop := ∀ k, 0 < k → k < pages d.sz → Mapped mem d.root k

/-- The calls that leave no hole: a process that forks is smaller than 4 GB, no `sbrk` is to
size 0, and a fault is at a page without `PTE_W`. -/
def Filling (s : Sys) (a : Act) : Prop :=
  Plain s a ∧ (∀ d, a = .copyuvm d → d.sz.toNat < 2 ^ 32) ∧ ∀ d newsz, a = .deallocuvm d newsz → newsz ≠ 0

theorem filled_one (hsz : d.sz = 0x1000) (mem : Mem) : Filled mem d := by
  intro k h₁ h₂
  have hone : pages d.sz = 1 := by
    rw [hsz]
    rfl
  omega

theorem Filled.steady {o : Option Pgdir} (h : Filled s.vm.mem d) (hs : Steady s s' o) (hd : d ∈ s.pgdirs)
    (hne : some d ≠ o) : Filled s'.vm.mem d := by
  intro k h₁ h₂
  rw [Mapped, hs d hd hne]
  exact h k h₁ h₂

/-- A call that works on the table `d` and on no other one. -/
theorem filled_update (hinv : KernelInv.Inv s) (h : ∀ d ∈ s.pgdirs, Filled s.vm.mem d)
    (hs : Steady s (s.update vm' d d') (some d)) (hnew : Filled vm'.mem d') :
    ∀ x ∈ (s.update vm' d d').pgdirs, Filled vm'.mem x := by
  intro x hx
  rcases List.mem_cons.mp hx with rfl | hx
  · exact hnew
  · obtain ⟨hne, hx⟩ := (pgdirs_nodup hinv).mem_erase_iff.mp hx
    have hkept : Filled (s.update vm' d d').vm.mem x := (h x hx).steady hs hx (by simpa using hne)
    exact hkept

theorem filled_grown {New : Nat → Nat → Word → Page → Prop} {lo hi : Nat} (h : Filled s.vm.mem d)
    (hg : Grown New s.vm vm' d.root lo hi) (hlo : lo = pages d.sz) (hhi : pages d'.sz = hi) (hbig : hi ≤ 2 ^ 36)
    (hroot : d'.root = d.root) : Filled vm'.mem d' := by
  intro k h₁ h₂
  rw [hroot, Mapped]
  by_cases hk : k < lo
  · rw [hg.old k (by omega) (.inl hk)]
    exact h k h₁ (by omega)
  · obtain ⟨f, -, hf, -⟩ := hg.new k (by omega) (by omega)
    rw [hf]
    simp

section

variable (hinv : KernelInv.Inv s) (h : ∀ d ∈ s.pgdirs, Filled s.vm.mem d)
include hinv h

theorem filled_allocuvm
    (ha : Allowed s (.allocuvm d newsz)) (hs : Steady s s' (some d))
    (hrun : run pc s (.allocuvm d newsz) = .ok s') :
    ∀ x ∈ s'.pgdirs, Filled s'.vm.mem x := by
  have hpos := (hinv.sound ha.1).pos
  have hbound := pages_bound hinv ha.1
  have hmax := maxTabled_lt
  have hlen := freelist_length hinv
  simp only [run] at hrun
  obtain ⟨⟨vm', sz⟩, halloc, hrun⟩ := bind_eq_ok.mp hrun
  obtain rfl := Except.ok.inj hrun
  refine filled_update hinv h hs ?_
  rcases (allocuvm_ends pc_oom pc_full (hinv.space ha.1) hpos (by omega)).of_ok halloc with
    ⟨heq, -⟩ | ⟨heq, -⟩ | ⟨hsz, hle, hspace, hg⟩
  · cases heq
    exact h d ha.1
  · cases heq
    rw [ite_self]
    exact h d ha.1
  · have hne : sz ≠ 0 := by
      rintro rfl
      rw [← show (0 : Word) = newsz from hsz] at hle
      simp at hle
      omega
    have hnew : pages newsz ≤ 2 ^ 36 := by
      obtain ⟨used, hused, hcount, -⟩ := hg.free
      have := congrArg List.length hused
      simp only [List.length_append] at this
      omega
    dsimp only at hsz hg ⊢
    rw [if_neg hne, hsz]
    exact filled_grown (h d ha.1) hg rfl rfl hnew rfl

theorem filled_stack (ha : Allowed s (.stack d))
    (hs : Steady s s' (some d)) (hrun : run pc s (.stack d) = .ok s') : ∀ x ∈ s'.pgdirs, Filled s'.vm.mem x := by
  have hbound := pages_bound hinv ha.1
  have hmax := maxTabled_lt
  simp only [run] at hrun
  obtain ⟨⟨vm', sz⟩, hstack, hrun⟩ := bind_eq_ok.mp hrun
  obtain rfl := Except.ok.inj hrun
  refine filled_update hinv h hs ?_
  obtain ⟨hne, hpages, -, -, -, -, hst⟩ := (execStack_ends pc_oom pc_full hinv ha.1 ha.2).of_ok hstack
  dsimp only at hne hpages hst ⊢
  rw [if_neg hne]
  intro k h₁ (h₂ : k < pages sz)
  by_cases hk : k < pages d.sz
  · rw [Mapped]
    show child (entry vm'.mem d.root k) ≠ none
    rw [hst.old k (by omega) (by omega) (by omega)]
    exact h d ha.1 k h₁ hk
  · exact hst.mapped (by omega) (by omega)

theorem filled_deallocuvm
    (ha : Allowed s (.deallocuvm d newsz)) (hne : newsz ≠ 0) (hs : Steady s s' (some d))
    (hrun : run pc s (.deallocuvm d newsz) = .ok s') : ∀ x ∈ s'.pgdirs, Filled s'.vm.mem x := by
  have hbound := pages_bound hinv ha.1
  have hmax := maxTabled_lt
  obtain ⟨x, hx, -, hcase⟩ : ∃ x, deallocuvm pc s.vm (kva d.root) d.sz newsz = .ok x ∧ _ :=
    deallocuvm_space pc_full (hinv.space ha.1) (by omega)
  simp only [run, hx, ok_bind] at hrun
  obtain rfl := Except.ok.inj hrun
  refine filled_update hinv h hs ?_
  rcases hcase with ⟨rfl, -⟩ | ⟨hsz, hlt, hsh⟩
  · simp only [ite_self]
    exact h d ha.1
  · rw [if_neg (by rw [hsz]; exact hne), hsz]
    have hmono := pages_mono hlt.le
    intro k h₁ (h₂ : k < pages newsz)
    show child (entry x.1.mem d.root k) ≠ none
    rw [hsh.old k (by omega) (.inl h₂)]
    exact h d ha.1 k h₁ (by omega)

theorem filled_copyuvm
    (ha : Allowed s (.copyuvm d)) (hsz : d.sz.toNat < 2 ^ 32) (hs : Steady s s' none)
    (hrun : run pc s (.copyuvm d) = .ok s') : ∀ x ∈ s'.pgdirs, Filled s'.vm.mem x := by
  have hheld : ∀ g ∈ d.root :: treeRefs s.vm.mem d.root, g ∈ heldBy s :=
    fun g hg => mem_held.mpr (.inl ⟨d, ha.1, hg⟩)
  simp only [run] at hrun
  obtain ⟨⟨vm', v⟩, hcopy, hrun⟩ := bind_eq_ok.mp hrun
  obtain ⟨r, hv, hman, -, -, hcopied, -⟩ :=
    (copyuvm_ends pc_oom pc_full hinv.owned (hinv.sound ha.1).tree hheld).of_ok hcopy
  have hv : v = kva r := hv
  rw [hv, if_neg (kva_ne_zero hman.small), ptrFrame_kva hman.small] at hrun
  obtain rfl := Except.ok.inj hrun
  have hlow : (d.sz.setWidth 32).setWidth 64 = d.sz := by
    apply BitVec.eq_of_toNat_eq
    simp only [BitVec.toNat_setWidth]
    omega
  rw [hlow] at hcopied
  intro x hx
  rcases List.mem_cons.mp hx with rfl | hx
  · intro k h₁ h₂
    obtain ⟨f, -, hf, -⟩ := hcopied.page k h₁ h₂
    show child (entry vm'.mem r k) ≠ none
    rw [hf]
    simp
  · exact (h x hx).steady hs hx (by simp)

/-- Every call that leaves no hole keeps the pages below the sizes present. -/
theorem filled_step (ha : Allowed s a)
    (hok : Filling s a) (hrun : run pc s a = .ok s') : ∀ d ∈ s'.pgdirs, Filled s'.vm.mem d := by
  obtain ⟨-, hs⟩ := (step_ends pc_oom pc_full hinv ha (mild_of_plain hinv ha hok.1)).of_ok hrun
  have hall : subject a = none → ∀ d ∈ s.pgdirs, Filled s'.vm.mem d :=
    fun hsub d hd => (h d hd).steady hs hd (by simp [hsub])
  cases a with
  | kalloc | krelease f =>
    simp only [run] at hrun
    obtain ⟨x, -, hrun⟩ := bind_eq_ok.mp hrun
    obtain rfl := Except.ok.inj hrun
    exact hall rfl
  | scratch f page | store d n page =>
    obtain rfl := Except.ok.inj hrun
    exact hall rfl
  | setupkvm =>
    simp only [run] at hrun
    obtain ⟨x, -, hrun⟩ := bind_eq_ok.mp hrun
    obtain rfl := Except.ok.inj hrun
    intro d hd
    rcases List.mem_cons.mp hd with rfl | hd
    · exact filled_one rfl _
    · exact hall rfl d hd
  | inituvm d init =>
    have hlen : init.length < 4096 := by
      by_contra hlen
      simp only [run, inituvm] at hrun
      rw [if_pos (by rw [pgSize]; omega)] at hrun
      cases hrun
    simp only [run] at hrun
    obtain ⟨vm', hinit, hrun⟩ := bind_eq_ok.mp hrun
    obtain rfl := Except.ok.inj hrun
    obtain ⟨-, f, hadd⟩ := (inituvm_ends pc_oom pc_full init hlen (hinv.space ha.1)).of_ok hinit
    refine filled_update hinv h hs ?_
    intro k h₁ h₂
    have htwo : pages (0x2000 : Word) = 2 := rfl
    obtain rfl : k = 1 := by
      dsimp only at h₂
      omega
    show child (entry vm'.mem d.root 1) ≠ none
    rw [hadd.map 1 (by omega), if_pos rfl, hadd.frame]
    simp
  | allocuvm d newsz => exact filled_allocuvm hinv h ha hs hrun
  | stack d => exact filled_stack hinv h ha hs hrun
  | commit d =>
    obtain rfl := Except.ok.inj hrun
    exact filled_update hinv h (fun d' hd' _ => hs d' hd' (by simp [subject])) (h d ha.1)
  | deallocuvm d newsz => exact filled_deallocuvm hinv h ha (hok.2.2 d newsz rfl) hs hrun
  | copyuvm d => exact filled_copyuvm hinv h ha (hok.2.1 d rfl) hs hrun
  | dedup d =>
    have hbound := pages_bound hinv ha.1
    have hmax := maxTabled_lt
    simp only [run] at hrun
    obtain ⟨vm', hdedup, hrun⟩ := bind_eq_ok.mp hrun
    obtain rfl := Except.ok.inj hrun
    obtain ⟨-, hview, -⟩ := (dedup_ends pc_full (hinv.space ha.1) (by omega)).of_ok hdedup
    intro d' hd'
    by_cases he : d' = d
    · subst he
      intro k h₁ h₂
      show child (entry vm'.mem d'.root k) ≠ none
      obtain ⟨f, hf⟩ := (h d' hd' k h₁ h₂).exists
      simp [child, hview.view.present k (by omega), (child_eq_some.mp hf).1]
    · exact (h d' hd').steady hs hd' (by simpa [subject] using he)
  | copyonwrite d v =>
    have hbound := pages_bound hinv ha.1
    have hmax := maxTabled_lt
    obtain ⟨-, -, -, hpgdirs, hmap⟩ :=
      (copyonwrite_step pc_oom pc_full hinv ha (mild_of_plain hinv ha hok.1)).of_ok hrun
    intro d' hd'
    rw [hpgdirs] at hd'
    by_cases he : d' = d
    · subst he
      intro k h₁ h₂
      exact hmap k (by omega) (h d' hd' k h₁ h₂)
    · exact (h d' hd').steady hs hd' (by simpa [subject] using he)
  | freevm d =>
    simp only [run] at hrun
    obtain ⟨vm', -, hrun⟩ := bind_eq_ok.mp hrun
    obtain rfl := Except.ok.inj hrun
    intro d' hd'
    obtain ⟨hne, hd'⟩ := (pgdirs_nodup hinv).mem_erase_iff.mp hd'
    exact (h d' hd').steady hs hd' (by simpa [subject] using hne)

end

theorem filled_reach (h : Reach (system pc) Filling s) : KernelInv.Inv s ∧ ∀ d ∈ s.pgdirs, Filled s.vm.mem d := by
  refine h.invariant (I := fun s => KernelInv.Inv s ∧ ∀ d ∈ s.pgdirs, Filled s.vm.mem d) ?_ ?_
  · intro s hs
    exact ⟨inv_booted pc_oom pc_full hs, by simp [hs.pgdirs]⟩
  · rintro s a s' ⟨hinv, hfilled⟩ hok ⟨ha, hrun⟩
    exact ⟨((step_ends pc_oom pc_full hinv ha (mild_of_plain hinv ha hok.1)).of_ok hrun).1,
      filled_step hinv hfilled ha hok hrun⟩

/-- The addresses behind which there are pages: the process from page 1 on, and the kernel's first
and fourth gigabyte. -/
def areas (sz : Word) : List (Nat × Nat) :=
  [(4096, pages sz * 4096), (kernBase.toNat, kernBase.toNat + 2 ^ 30),
    (kernBase.toNat + 3 * 2 ^ 30, kernBase.toNat + 4 * 2 ^ 30)]

theorem kernBase_toNat : kernBase.toNat = 2 ^ 64 - 2 ^ 47 := rfl

theorem mem_areas {x : Nat × Nat} : x ∈ areas sz ↔ x = (4096, pages sz * 4096) ∨
    x = (2 ^ 64 - 2 ^ 47, 2 ^ 64 - 2 ^ 47 + 2 ^ 30) ∨ x =
    (2 ^ 64 - 2 ^ 47 + 3 * 2 ^ 30, 2 ^ 64 - 2 ^ 47 + 4 * 2 ^ 30) := by
  simp only [areas, kernBase_toNat, List.mem_cons, List.not_mem_nil, or_false]

section

variable (hinv : KernelInv.Inv s) (hd : d ∈ s.pgdirs)
include hinv hd

theorem hwWalk_low (hv : v.toNat < 2 ^ 47) :
    hwWalk s.vm.mem d.root v ≠ none ↔ Mapped s.vm.mem d.root (v.toNat / 4096) := by
  have hshape := (hinv.sound hd).tree.shape
  cases hw : walk s.vm.mem d.root (pagePath (v.toNat / 4096)) with
  | none =>
    have hpm : pmx v ≠ 256 := by
      rw [pmx_eq]
      omega
    rw [hwWalk_missing hshape hpm (by rw [path_page]; exact hw), Mapped, entry, pte_of_none hw]
    simp
  | some t =>
    rw [hwWalk_page hshape hv hw, Mapped, child]
    split <;> simp

theorem hwWalk_high (hv : 2 ^ 64 - 2 ^ 47 ≤ v.toNat) :
    hwWalk s.vm.mem d.root v ≠ none ↔ pmx v = 256 ∧ (pdpx v = 0 ∨ pdpx v = 3) := by
  have htree := (hinv.sound hd).tree
  have hk := hinv.owned.of_held (mem_held.mpr (.inr hinv.kpdpt_own))
  have hcan : canonical v = true := by
    simp only [canonical, Bool.or_eq_true, decide_eq_true_eq]
    exact .inr hv
  by_cases hpm : pmx v = 256
  · by_cases hpd : pdpx v = 0 ∨ pdpx v = 3
    · obtain ⟨pg, hpg, -⟩ := hwWalk_slot htree hk hinv.world.shared hcan hpm hpd
      simp [hpg, hpm, hpd]
    · have hzero : kernelPdpt (pdpx v) = 0 := by
        rw [not_or] at hpd
        simp [kernelPdpt, hpd]
      obtain ⟨hpres, hfr⟩ := child_eq_some.mp (child_kernelEntry (by have := hk.small; omega : s.kpdpt < 2 ^ 52))
      simp [hwWalk, hpm, htree.shape.kernel, hfr, hinv.world.shared, hzero, hpd]
  · have hmissing : walk s.vm.mem d.root (path v) = none := by
      cases hw : walk s.vm.mem d.root (path v) with
      | none => rfl
      | some t =>
        have hin := (htree.low (path v) t (by simp [path]) hw).2.1
        simp [width] at hin
        rw [pmx_eq] at hin
        have := v.isLt
        omega
    rw [hwWalk_missing htree.shape hpm hmissing]
    simp [hpm]

/-- The processor finds a page exactly in the areas. -/
theorem present_iff (hfilled : Filled s.vm.mem d) (v : Word) :
    hwWalk s.vm.mem d.root v ≠ none ↔ ∃ x ∈ areas d.sz, x.1 ≤ v.toNat ∧ v.toNat < x.2 := by
  have hbound := pages_bound hinv hd
  have hmax := maxTabled_lt
  have hlt := v.isLt
  simp only [mem_areas, exists_eq_or_imp, exists_eq_left]
  by_cases hlow : v.toNat < 2 ^ 47
  · rw [hwWalk_low hinv hd hlow]
    constructor
    · intro hmap
      have hn := (hinv.sound hd).sized.above _ (by omega) hmap
      have hpos : v.toNat / 4096 ≠ 0 := by
        intro h0
        rw [Mapped, h0] at hmap
        exact hmap (entry_zero (hinv.sound hd).tree)
      exact .inl ⟨by omega, by omega⟩
    · rintro (⟨h₁, h₂⟩ | ⟨h₁, h₂⟩ | ⟨h₁, h₂⟩)
      · exact hfilled _ (by omega) (by omega)
      · omega
      · omega
  · by_cases hhigh : 2 ^ 64 - 2 ^ 47 ≤ v.toNat
    · rw [hwWalk_high hinv hd hhigh, pmx_eq, pdpx_eq]
      omega
    · have hnone : hwWalk s.vm.mem d.root v = none := by
        have hcan : canonical v = false := by
          rw [canonical, decide_eq_false hlow, decide_eq_false hhigh]
          rfl
        simp [hwWalk, hcan]
      simp only [hnone, ne_eq, not_true_eq_false, false_iff]
      omega

end

/-- A range lies in pages exactly when it lies in one area. -/
theorem range_iff (hsz : pages sz ≤ 2 ^ 26) (a : Word) (hpos : 0 < len) :
    (∀ k < len, ∃ x ∈ areas sz, x.1 ≤ (a + BitVec.ofNat 64 k).toNat ∧ (a + BitVec.ofNat 64 k).toNat < x.2) ↔
      ∃ x ∈ areas sz, x.1 ≤ a.toNat ∧ a.toNat + len ≤ x.2 := by
  have hlt := a.isLt
  have hadd : ∀ k : Nat, (a + BitVec.ofNat 64 k).toNat = (a.toNat + k) % 2 ^ 64 := by
    intro k
    simp only [BitVec.toNat_add, BitVec.toNat_ofNat]
    omega
  simp only [hadd, mem_areas, exists_eq_or_imp, exists_eq_left]
  constructor
  · intro h
    have h₀ := h 0 hpos
    have h₁ := h (pages sz * 4096 - a.toNat)
    have h₂ := h (2 ^ 64 - 2 ^ 47 + 2 ^ 30 - a.toNat)
    have h₃ := h (2 ^ 64 - 2 ^ 47 + 4 * 2 ^ 30 - a.toNat)
    omega
  · intro h k hk
    omega

/-- The byte at `v` as the kernel reads it, through any present page. -/
def kernelByte (mem : Mem) (r : Nat) (v : Word) : Option Byte :=
  (hwWalk mem r v).map (fun pg => pageByte (mem (pg.frame + v.toNat / 4096 % pg.span)) (v.toNat % 4096))

def process (s : Sys) (d : Pgdir) (tf : Trapframe) : Syscall.Proc := ⟨d.sz, tf, kernelByte s.vm.mem d.root⟩

inductive Fetch where
  | fetchint (addr : Word)
  | fetchaddr (addr : Word)
  | fetchstr (addr : Word)
  | argptr (n : Nat) (size : BitVec 32)
  | argstr (n : Nat)

def call (p : Syscall.Proc) : Fetch → Except Trap Unit
  | .fetchint addr => (fetchint p addr).map (fun _ => ())
  | .fetchaddr addr => (fetchaddr p addr).map (fun _ => ())
  | .fetchstr addr => (fetchstr p addr).map (fun _ => ())
  | .argptr n size => (argptr p n size).map (fun _ => ())
  | .argstr n => (argstr p n).map (fun _ => ())

def Scanned (p : Syscall.Proc) (addr : Word) (k : Nat) : Prop :=
  addr.toNat + k < p.sz.toNat ∧ ∀ j < k, ∃ b, p.load (addr + BitVec.ofNat 64 j) = some b ∧ b ≠ 0

/-- The kernel reads `v`, or is allowed to use it, once the fetcher has accepted its argument. -/
def Touches (p : Syscall.Proc) (v : Word) : Fetch → Prop
  | .fetchint addr => fetchint p addr ≠ .ok none ∧ ∃ k < 4, v = addr + BitVec.ofNat 64 k
  | .fetchaddr addr => fetchaddr p addr ≠ .ok none ∧ ∃ k < 8, v = addr + BitVec.ofNat 64 k
  | .fetchstr addr => ∃ k, Scanned p addr k ∧ v = addr + BitVec.ofNat 64 k
  | .argptr n size => ∃ pp, argptr p n size = .ok (some pp) ∧ ∃ k : Nat, (k : Int) < size.toInt ∧
      v = pp + BitVec.ofNat 64 k
  | .argstr n => ∃ i, argint p n = .ok i ∧ ∃ k, Scanned p (i.signExtend 64) k ∧ v =
      i.signExtend 64 + BitVec.ofNat 64 k

/-- Everything the kernel touches is in a present page, and the fetcher itself does not fault. -/
structure Backed (p : Syscall.Proc) (f : Fetch) : Prop where
  bytes : ∀ v, Touches p v f → p.load v ≠ none
  quiet : ∀ v, call p f ≠ .error (.pageFault v)

/-- The comparison turns the argument down, or the range lies in one of the areas. -/
def Clear (p : Syscall.Proc) : Fetch → Prop
  | .fetchint addr => p.sz.toNat < addr.toNat + 4 ∨ 4096 ≤ addr.toNat
  | .fetchaddr addr => p.sz.toNat < addr.toNat + 8 ∨ 4096 ≤ addr.toNat
  | .fetchstr addr => p.sz.toNat ≤ addr.toNat ∨ 4096 ≤ addr.toNat
  | .argptr n size => ∀ a, argaddr p n = .ok a → size.toInt ≤ 0 ∨ p.sz.toNat ≤ a.toNat % 2 ^ 32 ∨
      p.sz.toNat < (a.toNat + size.toNat) % 2 ^ 32 ∨ ∃ x ∈ areas p.sz, x.1 ≤ a.toNat ∧ a.toNat + size.toNat ≤ x.2
  | .argstr n => ∀ i, argint p n = .ok i → p.sz.toNat ≤ (i.signExtend 64).toNat ∨ 4096 ≤ (i.signExtend 64).toNat

section

variable (h : ∀ k, Scanned p addr k → p.load (addr + BitVec.ofNat 64 k) ≠ none)
include h

theorem findNul_quiet
    (hlen : addr.toNat + len ≤ p.sz.toNat) (e : Trap) : findNul p.load len addr ≠ .error e := by
  intro he
  obtain ⟨k, hk, hnone, hbefore⟩ := findNul_eq_error p.load len addr he
  exact h k ⟨by omega, hbefore⟩ hnone

theorem fetchstr_quiet (e : Trap) :
    fetchstr p addr ≠ .error e := by
  unfold fetchstr
  split
  · simp
  · rename_i hsz
    have hlt : ¬ p.sz.toNat ≤ addr.toNat := hsz
    have hroom := toNat_room p addr hsz
    intro he
    obtain he | ⟨x, -, he⟩ := bind_eq_error.mp he
    · exact findNul_quiet h (by omega) e he
    · cases x <;> cases he

end

theorem loadLE_quiet (h : ∀ k < len, p.load (addr + BitVec.ofNat 64 k) ≠ none) (e : Trap) :
    loadLE p.load len addr ≠ .error e := by
  intro he
  obtain ⟨k, hk, hnone⟩ := loadLE_eq_error p.load len addr he
  exact h k hk hnone

theorem fetcharg_eq_error (h : fetcharg p n = .error e) : e = .panic "failed fetch" := by
  simp only [fetcharg] at h
  split at h <;> cases h
  rfl

theorem map_eq_error {α β : Type} {x : Except Trap α} {g : α → β} : x.map g = .error e ↔ x = .error e := by
  cases x <;> simp [Except.map]

/-- What `fetchint` and `fetchaddr` have in common: an object of `len` bytes. -/
theorem fetch_accepts {α : Type} {g : Nat → α} {x : Except Trap (Option α)} (hsz : p.sz.toNat < 2 ^ 63)
    (hlen : len ≤ 8) (hpos : 0 < len)
    (hx : x = if p.sz ≤ addr ∨ p.sz < addr + BitVec.ofNat 64 len then .ok none else do
      let i ← loadLE p.load len addr
      return some (g i)) : x ≠ .ok none ↔ addr.toNat + len ≤ p.sz.toNat := by
  have hlt := addr.isLt
  have hcheck : (p.sz ≤ addr ∨ p.sz < addr + BitVec.ofNat 64 len) ↔ p.sz.toNat < addr.toNat + len := by
    rw [BitVec.le_def, BitVec.lt_def, BitVec.toNat_add, BitVec.toNat_ofNat]
    omega
  rw [hx, ← Nat.not_lt, ← hcheck]
  split
  · rename_i hno
    simp [hno]
  · rename_i hyes
    cases hl : loadLE p.load len addr <;> simp [hyes, pure, Except.pure]

/-- A fetcher whose bytes are there does not fault. -/
theorem quiet_of_bytes {f : Fetch} (h : ∀ v, Touches p v f → p.load v ≠ none) (v : Word) :
    call p f ≠ .error (.pageFault v) := by
  cases f with
  | fetchint addr =>
    rw [call, ne_eq, map_eq_error]
    intro he
    have hacc : fetchint p addr ≠ .ok none := by simp [he]
    simp only [fetchint] at he
    split at he
    · cases he
    · obtain he | ⟨x, -, he⟩ := bind_eq_error.mp he
      · exact loadLE_quiet (fun k hk => h _ ⟨hacc, k, hk, rfl⟩) _ he
      · cases he
  | fetchaddr addr =>
    rw [call, ne_eq, map_eq_error]
    intro he
    have hacc : fetchaddr p addr ≠ .ok none := by simp [he]
    simp only [fetchaddr] at he
    split at he
    · cases he
    · obtain he | ⟨x, -, he⟩ := bind_eq_error.mp he
      · exact loadLE_quiet (fun k hk => h _ ⟨hacc, k, hk, rfl⟩) _ he
      · cases he
  | fetchstr addr =>
    rw [call, ne_eq, map_eq_error]
    exact fetchstr_quiet (fun k hk => h _ ⟨k, hk, rfl⟩) _
  | argptr n size =>
    rw [call, ne_eq, map_eq_error]
    intro he
    obtain he | ⟨a, -, he⟩ := bind_eq_error.mp he
    · exact absurd (fetcharg_eq_error he) (by simp)
    · split at he <;> cases he
  | argstr n =>
    rw [call, ne_eq, map_eq_error]
    intro he
    obtain he | ⟨i, hi, he⟩ := bind_eq_error.mp he
    · obtain he | ⟨a, -, he⟩ := bind_eq_error.mp he
      · exact absurd (fetcharg_eq_error he) (by simp)
      · cases he
    · exact fetchstr_quiet (fun k hk => h _ ⟨i, hi, k, hk, rfl⟩) _ he

section Present

variable {tf : Trapframe} (hinv : KernelInv.Inv s) (hd : d ∈ s.pgdirs) (hfilled : Filled s.vm.mem d)
include hinv hd hfilled

theorem load_iff (v : Word) : (process s d tf).load v ≠ none ↔ ∃ x ∈ areas d.sz, x.1 ≤ v.toNat ∧
    v.toNat < x.2 := by
  rw [← present_iff hinv hd hfilled v]
  simp [process, kernelByte]

/-- Below the size of the process every byte from page 1 on is there, and none before. -/
theorem load_below {v : Word} (hv : v.toNat < d.sz.toNat) : (process s d tf).load v ≠ none ↔ 4096 ≤ v.toNat := by
  have hbound := pages_bound hinv hd
  have hmax := maxTabled_lt
  rw [load_iff hinv hd hfilled]
  simp only [mem_areas, exists_eq_or_imp, exists_eq_left]
  rw [pages] at hbound ⊢
  omega

/-- The bytes of an object below the size. -/
theorem object_backed (hpos : 0 < len) (hlen : addr.toNat + len ≤ d.sz.toNat) :
    (∀ k < len, (process s d tf).load (addr + BitVec.ofNat 64 k) ≠ none) ↔ 4096 ≤ addr.toNat := by
  have hlt := d.sz.isLt
  have hadd : ∀ k < len, (addr + BitVec.ofNat 64 k).toNat = addr.toNat + k := by
    intro k hk
    simp only [BitVec.toNat_add, BitVec.toNat_ofNat]
    omega
  constructor
  · intro h
    have h₀ := (load_below hinv hd hfilled (by rw [hadd 0 hpos]; omega)).mp (h 0 hpos)
    rwa [hadd 0 hpos] at h₀
  · intro h k hk
    refine (load_below hinv hd hfilled ?_).mpr ?_ <;> rw [hadd k hk] <;> omega

theorem string_backed (addr : Word) (tf : Trapframe) : (∀ k, Scanned (process s d tf) addr k →
    (process s d tf).load (addr + BitVec.ofNat 64 k) ≠ none) ↔
    (d.sz.toNat ≤ addr.toNat ∨ 4096 ≤ addr.toNat) := by
  have hlt := d.sz.isLt
  constructor
  · intro h
    by_contra hno
    have h₀ := h 0 ⟨show addr.toNat + 0 < d.sz.toNat by omega, by intro j hj; omega⟩
    rw [BitVec.add_zero, load_below hinv hd hfilled (by omega)] at h₀
    omega
  · rintro hok k ⟨hk, -⟩
    have hk : addr.toNat + k < d.sz.toNat := hk
    exact (object_backed hinv hd hfilled (Nat.succ_pos k) (by omega)).mpr (by omega) k (by omega)

theorem touches_backed (f : Fetch) : (∀ v, Touches (process s d tf) v f → (process s d tf).load v ≠ none) ↔
    Clear (process s d tf) f := by
  have hbound := pages_bound hinv hd
  have hmax := maxTabled_lt
  have hsz : (process s d tf).sz.toNat < 2 ^ 63 := by
    show d.sz.toNat < 2 ^ 63
    rw [pages] at hbound
    omega
  have hobject : ∀ (addr : Word) (len : Nat) (A : Prop), 0 < len → (A ↔ addr.toNat + len ≤ d.sz.toNat) →
      ((∀ v, (A ∧ ∃ k < len, v = addr + BitVec.ofNat 64 k) → (process s d tf).load v ≠ none) ↔
        (d.sz.toNat < addr.toNat + len ∨ 4096 ≤ addr.toNat)) := by
    intro addr len A hpos hA
    by_cases hacc : addr.toNat + len ≤ d.sz.toNat
    · rw [or_iff_right (by omega), ← object_backed hinv hd hfilled hpos hacc]
      exact ⟨fun h k hk => h _ ⟨hA.mpr hacc, k, hk, rfl⟩, by rintro h v ⟨-, k, hk, rfl⟩; exact h k hk⟩
    · exact iff_of_true (fun v hv => absurd (hA.mp hv.1) hacc) (.inl (by omega))
  cases f with
  | fetchint addr => exact hobject addr 4 _ (by omega) (fetch_accepts hsz (by omega) (by omega) rfl)
  | fetchaddr addr => exact hobject addr 8 _ (by omega) (fetch_accepts hsz (by omega) (by omega) rfl)
  | fetchstr addr =>
    refine Iff.trans ?_ (string_backed hinv hd hfilled addr tf)
    exact ⟨fun h k hk => h _ ⟨k, hk, rfl⟩, by rintro h v ⟨k, hk, rfl⟩; exact h k hk⟩
  | argptr n size =>
    cases ha : argaddr (process s d tf) n with
    | error e => simp [Touches, Clear, argptr, ha]
    | ok a =>
      simp only [Clear, ha, Except.ok.injEq, forall_eq']
      have hacc := argptr_accepts (process s d tf) n size a
      have hint : 0 < size.toInt → size.toInt = size.toNat := by
        intro hpos
        rw [BitVec.toInt_eq_toNat_cond] at hpos ⊢
        split at hpos <;> omega
      by_cases hok : 0 < size.toInt ∧ a.toNat % 2 ^ 32 < d.sz.toNat ∧ (a.toNat + size.toNat) % 2 ^ 32 ≤ d.sz.toNat
      · have hsize := hint hok.1
        rw [or_iff_right (by omega), or_iff_right (by show ¬ d.sz.toNat ≤ _; omega),
          or_iff_right (by show ¬ d.sz.toNat < _; omega)]
        refine Iff.trans ?_ (range_iff (show pages d.sz ≤ 2 ^ 26 by omega) a (by omega))
        constructor
        · intro h k hk
          refine (load_iff hinv hd hfilled _).mp (h _ ⟨a, ?_, k, by omega, rfl⟩)
          exact (hacc a ha).mpr ⟨rfl, by omega, hok.2.1, hok.2.2⟩
        · rintro h v ⟨pp, hpp, k, hk, rfl⟩
          obtain ⟨rfl, -⟩ := (hacc pp ha).mp hpp
          exact (load_iff hinv hd hfilled _).mpr (h k (by omega))
      · refine iff_of_true ?_ ?_
        · rintro v ⟨pp, hpp, k, hk, rfl⟩
          obtain ⟨rfl, -, h₁, h₂⟩ := (hacc pp ha).mp hpp
          exact absurd ⟨by omega, h₁, h₂⟩ hok
        · show size.toInt ≤ 0 ∨ d.sz.toNat ≤ _ ∨ d.sz.toNat < _ ∨ _
          omega
  | argstr n =>
    cases hi : argint (process s d tf) n with
    | error e => simp [Touches, Clear, hi]
    | ok i =>
      simp only [Touches, Clear, hi, Except.ok.injEq, forall_eq', exists_eq_left']
      refine Iff.trans ?_ (string_backed hinv hd hfilled _ tf)
      exact ⟨fun h k hk => h _ ⟨k, hk, rfl⟩, by rintro h v ⟨k, hk, rfl⟩; exact h k hk⟩

end Present

/-- In a run without holes, what the kernel touches through an argument that a fetcher accepts is
mapped exactly when the argument is clear of page 0 and of everything that is not mapped. -/
theorem accepted_backed_iff (h : Reach (system pc) Filling s) (hd : d ∈ s.pgdirs) (tf : Trapframe) (f : Fetch) :
    Backed (process s d tf) f ↔ Clear (process s d tf) f := by
  obtain ⟨hinv, hfilled⟩ := filled_reach h
  have hbytes : _ ↔ Clear (process s d tf) f := touches_backed hinv hd (hfilled d hd) f
  exact ⟨fun hb => hbytes.mp hb.bytes, fun hc => ⟨hbytes.mpr hc, quiet_of_bytes (hbytes.mpr hc)⟩⟩

def noArgs : Trapframe := ⟨0, 0, 0, 0, 0, 0⟩

theorem accepted_backed_first : ∃ s d, First s d ∧ Clear (process s d noArgs) (.fetchint 0x1000) ∧
    Backed (process s d noArgs) (.fetchint 0x1000) := by
  obtain ⟨s, d, hreach, -, hfirst⟩ := exists_first Filling pc_oom pc_full (fun _ _ => ⟨trivial, by simp, by simp⟩)
    (fun _ _ _ => ⟨trivial, by simp, by simp⟩)
  have hclear : Clear (process s d noArgs) (.fetchint 0x1000) := .inr (Nat.le_refl 4096)
  exact ⟨s, d, hfirst, hclear, (accepted_backed_iff hreach hfirst.mem noArgs _).mpr hclear⟩

/-- `fetchint` accepts address 0 of the first process, and the kernel faults on it. -/
theorem null_accepted : ∃ s d, Reachable (system pc) s ∧ d ∈ s.pgdirs ∧ d.live = true ∧
    fetchint (process s d noArgs) 0 = .error (.pageFault 0) ∧ ¬ Backed (process s d noArgs) (.fetchint 0) := by
  obtain ⟨s, d, hreach, hinv, hfirst⟩ := exists_first_any
  have hnone : (process s d noArgs).load 0 = none := by
    have hmap : ¬ Mapped s.vm.mem d.root ((0 : Word).toNat / 4096) := by
      rw [Mapped, not_not]
      exact entry_zero (hinv.sound hfirst.mem).tree
    have hwalk := mt (hwWalk_low hinv hfirst.mem (by decide)).mp hmap
    rw [ne_eq, not_not] at hwalk
    show kernelByte s.vm.mem d.root 0 = none
    rw [kernelByte, hwalk]
    rfl
  have hfault : fetchint (process s d noArgs) 0 = .error (.pageFault 0) := by
    have hsz : (process s d noArgs).sz = 0x2000 := hfirst.sz
    rw [fetchint, hsz, if_neg (by decide), loadLE, hnone]
    rfl
  refine ⟨s, d, hreach, hfirst.mem, hfirst.live, hfault, ?_⟩
  intro hb
  refine hb.quiet 0 ?_
  rw [call, hfault]
  rfl

end Xv6.UserAddresses
