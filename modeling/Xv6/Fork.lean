import Xv6.LargeFork

/-!
# What `fork` copies

The memory side of `fork`: `allocproc` takes a frame for the kernel stack and fills it, `copyuvm`
copies the pages, and the child gets the size of its parent. `copyuvm` takes the size as a 32-bit
number, so a process of 4 GB or more has a child of its own size with the pages of the remainder
only.
-/
namespace Xv6.Fork

open Words Mmu Memory Kalloc Vm Outcome RadixTree PageTable AddressSpace PageNumber UserPages
open CopyUvm Kernel KernelInv Boot Interleaving PageWalk FrameBooks LargeFork Function

/-- `fork` by the process with the table `d`, when there is a free slot in `ptable`; `stack` is what
`allocproc` leaves in the kernel stack. -/
def fork (m : Machine) (s : Sys) (d : Pgdir) (stack : Page) : Except Trap (Sys × Option Pgdir) := do
  let (vm, kstack) ← kalloc m s.vm
  if kstack = 0 then return ({ s with vm := vm }, none)
  else
    let s := { s with
      vm := { vm with mem := setPage vm.mem (ptrFrame kstack) stack }
      owners := ptrFrame kstack :: s.owners }
    let (vm, v) ← copyuvm m (kva s.kpdpt) s.vm (kva d.root) (d.sz.setWidth 32)
    if v = 0 then
      let vm ← krelease m vm kstack
      return ({ s with vm := vm, owners := s.owners.erase (ptrFrame kstack) }, none)
    else return ({ s with vm := vm, pgdirs := ⟨ptrFrame v, d.sz, true⟩ :: s.pgdirs },
      some ⟨ptrFrame v, d.sz, true⟩)

def PageCopied (s s' : Sys) (d c : Pgdir) (n : Nat) : Prop :=
  ∃ g f, Maps s d n g ∧ Maps s' c n f ∧ pteFlags (entry s'.vm.mem c.root n) = pteFlags (entry s.vm.mem d.root n) ∧
    s'.vm.mem f = s.vm.mem g ∧ f ∈ s.vm.freelist ∧ ∀ d' n', Maps s' d' n' f → d' = c ∧ n' = n

/-- The table `d`, the contents of its pages and the counters of its frames are what they were. -/
structure ParentKept (s s' : Sys) (d : Pgdir) : Prop where
  entry : ∀ n, entry s'.vm.mem d.root n = entry s.vm.mem d.root n
  contents : ∀ g ∈ piece s.vm.mem d, s'.vm.mem g = s.vm.mem g
  refs : ∀ g ∈ piece s.vm.mem d, s'.vm.refs g = s.vm.refs g

structure Faithful (s s' : Sys) (d c : Pgdir) : Prop where
  sz : c.sz = d.sz
  page : ∀ n, 0 < n → n * 4096 < d.sz.toNat → PageCopied s s' d c n
  parent : ParentKept s s' d

variable {m : Machine} {s s' : Sys} {d c : Pgdir} {stack : Page} {n : Nat}

structure Forked (s s' : Sys) (d c : Pgdir) (hi : Nat) : Prop where
  sz : c.sz = d.sz
  page : ∀ n, 0 < n → n < hi → n < 2 ^ 35 → PageCopied s s' d c n
  others : ∀ n, n < 2 ^ 36 → (n = 0 ∨ hi ≤ n) → entry s'.vm.mem c.root n = 0
  parent : ParentKept s s' d

theorem getLsbD_of_present {e : Word} (h : has e pteP = true) : e.getLsbD 0 = true := by
  by_contra hbit
  have hzero : e &&& pteP = 0#64 := by
    apply BitVec.eq_of_getLsbD_eq
    intro k _
    rw [BitVec.getLsbD_and, show pteP = 1#64 from rfl, BitVec.getLsbD_one]
    by_cases hk : k = 0
    · rw [hk, Bool.eq_false_iff.mpr hbit, Bool.false_and, BitVec.getLsbD_zero]
    · simp [hk]
  simp [has, hzero] at h

/-- The copy has the flags of the page. -/
theorem pteFlags_copyEntry {e : Word} (f : Nat) (h : has e pteP = true) : pteFlags (copyEntry e f) =
    pteFlags e := by
  apply BitVec.eq_of_getLsbD_eq
  intro k _
  simp only [copyEntry, getLsbD_pteFlags, BitVec.getLsbD_or, getLsbD_frameAddr]
  by_cases h12 : k < 12
  · have hge : ¬12 ≤ k := by omega
    rw [show pteP = 1#64 from rfl, BitVec.getLsbD_one]
    by_cases hk : k = 0
    · simp [hk, getLsbD_of_present h]
    · simp [h12, hge, hk]
  · simp [h12]

section Child

variable {vm₁ vm' : State} {k r hi : Nat} {rest own : List Nat}

/-- The state when `copyuvm` is called: the frame `k` of the kernel stack is taken and filled. -/
structure Started (s : Sys) (vm₁ : State) (k : Nat) : Prop where
  free : ∃ rest, s.vm.freelist = k :: rest ∧ vm₁.freelist = rest
  unused : k ∉ heldBy s
  mem : ∀ g, g ≠ k → vm₁.mem g = s.vm.mem g
  owned : Owned Managed vm₁ (k :: heldBy s)

theorem Started.same (h : Started s vm₁ k) {g : Nat} (hg : g ∈ heldBy s) :
    vm₁.mem g = s.vm.mem g :=
  h.mem g (fun he => h.unused (he ▸ hg))

theorem mem_held_of_piece {g : Nat} (hd : d ∈ s.pgdirs) (hg : g ∈ piece s.vm.mem d) :
    g ∈ heldBy s :=
  mem_held.mpr (.inl ⟨d, hd, hg⟩)

theorem Started.table (h : Started s vm₁ k) (hinv : KernelInv.Inv s) (hd : d ∈ s.pgdirs) :
    ∀ t, IsTable s.vm.mem d.root t → vm₁.mem t = s.vm.mem t :=
  fun _ ht => h.same (mem_held_of_piece hd ((hinv.sound hd).tree.table_mem ht))

structure Made (s : Sys) (vm₁ vm' : State) (d : Pgdir) (k r hi : Nat) : Prop where
  started : Started s vm₁ k
  space : Space vm' s.kpdpt r (k :: heldBy s)
  same : ∀ g ∈ k :: heldBy s, vm'.mem g = vm₁.mem g
  copied : Copied vm₁ vm' d.root r hi
  distinct : Distinct vm'.mem r 1 hi

section

variable (h : Made s vm₁ vm' d k r hi)
include h

theorem Made.kept {g : Nat} (hg : g ∈ heldBy s) :
    vm'.mem g = s.vm.mem g :=
  (h.same g (List.mem_cons_of_mem _ hg)).trans (h.started.same hg)

section

variable (hinv : KernelInv.Inv s)
include hinv

theorem Made.refs {g : Nat}
    (hg : g ∈ heldBy s) : vm'.refs g = s.vm.refs g := by
  have hg' : g ∈ k :: heldBy s := List.mem_cons_of_mem _ hg
  have hnew : g ∉ r :: treeRefs vm'.mem r := fun hmem => h.space.apart g hmem hg'
  have hk : g ≠ k := fun he => h.started.unused (he ▸ hg)
  rw [List.mem_cons, not_or] at hnew
  rw [h.space.owned.counted.count g (by simp [hg]), hinv.owned.counted.count g hg, List.count_append,
    List.count_eq_zero_of_not_mem hnew.2, List.count_cons_of_ne (Ne.symm hnew.1),
      List.count_cons_of_ne (Ne.symm hk)]
  simp

theorem Made.parentKept (hd : d ∈ s.pgdirs) (hs' : s'.vm = vm') :
    ParentKept s s' d := by
  subst hs'
  refine ⟨fun n => ?_, fun g hg => h.kept (mem_held_of_piece hd hg), fun g hg =>
    h.refs hinv (mem_held_of_piece hd hg)⟩
  exact pte_tables (fun t ht => h.kept (mem_held_of_piece hd ((hinv.sound hd).tree.table_mem ht))) rfl

/-- A frame of the child is mapped by the child only. -/
theorem Made.only (hvm : s'.vm = vm')
    (hpgdirs : s'.pgdirs = c :: s.pgdirs) (hc : c.root = r) {f : Nat} (hn : 0 < n) (hlt : n < hi)
    (hf : child (entry vm'.mem r n) = some f) {d' : Pgdir} {n' : Nat} (hmaps : Maps s' d' n' f) :
    d' = c ∧ n' = n := by
  subst hvm
  obtain ⟨hd', hn', hf'⟩ := hmaps
  rw [hpgdirs, List.mem_cons] at hd'
  have hnew : f ∈ r :: treeRefs s'.vm.mem r := List.mem_cons_of_mem _ (h.space.tree.leaf_mem rfl hf)
  rcases hd' with rfl | hd'
  · refine ⟨rfl, ?_⟩
    rw [hc] at hf'
    have hin : 0 < n' ∧ n' < hi := by
      by_contra hout
      rw [h.copied.others n' (by omega) (by omega)] at hf'
      simp [child_zero] at hf'
    rcases Nat.lt_trichotomy n n' with hlt' | heq | hgt
    · exact absurd (hf.trans hf'.symm) (h.distinct n n' (by omega) hlt' hin.2)
    · exact heq.symm
    · exact absurd (hf'.trans hf.symm) (h.distinct n' n (by omega) hgt hlt)
  · have hsame : ∀ t, IsTable s.vm.mem d'.root t → s'.vm.mem t = s.vm.mem t :=
      fun t ht => h.kept (mem_held_of_piece hd' ((hinv.sound hd').tree.table_mem ht))
    have hentry : entry s'.vm.mem d'.root n' = entry s.vm.mem d'.root n' := pte_tables hsame rfl
    rw [hentry] at hf'
    have hpiece : f ∈ piece s.vm.mem d' := List.mem_cons_of_mem _ ((hinv.sound hd').tree.leaf_mem rfl hf')
    exact absurd (List.mem_cons_of_mem _ (mem_held_of_piece hd' hpiece)) (h.space.apart f hnew)

theorem Made.forked (hd : d ∈ s.pgdirs) (hvm : s'.vm = vm')
    (hpgdirs : s'.pgdirs = c :: s.pgdirs) (hc : c.root = r) (hsz : c.sz = d.sz) : Forked s s' d c hi where
  sz := hsz
  page n hn hlt hbound := by
    obtain ⟨f, hfree, hf, g, hg, he, hpage⟩ := h.copied.page n hn hlt
    have hentry : entry vm₁.mem d.root n = entry s.vm.mem d.root n := pte_tables (h.started.table hinv hd) rfl
    rw [hentry] at hg he
    have hgpiece : g ∈ piece s.vm.mem d := List.mem_cons_of_mem _ ((hinv.sound hd).tree.leaf_mem rfl hg)
    have hold : f ∈ s.vm.freelist := by
      obtain ⟨rest, hrest, hrest'⟩ := h.started.free
      rw [hrest, ← hrest']
      exact List.mem_cons_of_mem _ hfree
    refine ⟨g, f, ⟨hd, hbound, hg⟩, ⟨by simp [hpgdirs], hbound, by rw [hvm, hc, hf]⟩, ?_, ?_, hold,
      fun d' n' hmaps => h.only hinv hvm hpgdirs hc hn hlt hf hmaps⟩
    · rw [hvm, hc, he, pteFlags_copyEntry f (child_eq_some.mp hg).1]
    · rw [hvm, hpage, h.started.same (mem_held_of_piece hd hgpiece)]
  others n hn hout := by
    rw [hvm, hc]
    exact h.copied.others n hn hout
  parent := h.parentKept hinv hd hvm

end

end

end Child

def withStack (s : Sys) (k : Nat) (rest : List Nat) (stack : Page) : State :=
  { mem := setPage s.vm.mem k stack, refs := update s.vm.refs k 1, checksum := s.vm.checksum, freelist := rest }

theorem started_withStack {k : Nat} {rest : List Nat} (stack : Page) (hinv : KernelInv.Inv s)
    (hfree : s.vm.freelist = k :: rest) :
    Started s (withStack s k rest stack) k := by
  have hcounted := hinv.owned.counted
  rw [hfree] at hcounted
  exact ⟨⟨rest, hfree, rfl⟩, hcounted.not_mem_held (by simp), fun g hg => update_of_ne hg _ _,
    ⟨hcounted.alloc, hinv.owned.managed⟩⟩

theorem copyuvm_made {k : Nat} {vm₁ : State} (hm : m.oom ≠ .null) (hfull : m.Full) (hinv : KernelInv.Inv s)
    (hd : d ∈ s.pgdirs) (h : Started s vm₁ k) :
    Ends (copyuvm m (kva s.kpdpt) vm₁ (kva d.root) (d.sz.setWidth 32))
      (fun e => (Exhausted m e ∧ vm₁.freelist.length ≤ 4 * pages ((d.sz.setWidth 32).setWidth 64)) ∨
        ∃ msg n, e = .panic msg ∧ 0 < n ∧ n < pages ((d.sz.setWidth 32).setWidth 64) ∧
          child (entry s.vm.mem d.root n) = none)
      (fun x => ∃ r, x.2 = kva r ∧ Managed r ∧ Made s vm₁ x.1 d k r (pages ((d.sz.setWidth 32).setWidth 64))) := by
  have hpiece : piece vm₁.mem d = piece s.vm.mem d := piece_congr (h.table hinv hd)
  have hheld : ∀ g ∈ piece vm₁.mem d, g ∈ k :: heldBy s := by
    intro g hg
    rw [hpiece] at hg
    exact List.mem_cons_of_mem _ (mem_held_of_piece hd hg)
  refine (copyuvm_ends hm hfull h.owned ((hinv.sound hd).tree.congr (h.table hinv hd)) hheld).mono ?_ ?_
  · rintro e (hex | ⟨msg, n, he, hpos, hlt, hnone⟩)
    · exact .inl hex
    · have hentry : entry vm₁.mem d.root n = entry s.vm.mem d.root n := pte_tables (h.table hinv hd) rfl
      exact .inr ⟨msg, n, he, hpos, hlt, hentry ▸ hnone⟩
  · rintro x ⟨r, hv, hman, hspace, hsame, hcopied, hdistinct⟩
    exact ⟨r, hv, hman, h, hspace, hsame, hcopied, hdistinct⟩

theorem fork_eq {k : Nat} {rest : List Nat} (hfree : s.vm.freelist = k :: rest) (hman : Managed k) :
    fork m s d stack = (do
      let (vm, v) ← copyuvm m (kva s.kpdpt) (withStack s k rest stack) (kva d.root) (d.sz.setWidth 32)
      if v = 0 then
        let vm ← krelease m vm (kva k)
        return ({ s with vm := vm }, none)
      else return ({ s with vm := vm, owners := k :: s.owners, pgdirs := ⟨ptrFrame v, d.sz, true⟩ :: s.pgdirs },
        some ⟨ptrFrame v, d.sz, true⟩)) := by
  rw [fork, kalloc_cons hfree hman, ok_bind]
  simp only [if_neg (kva_ne_zero hman.small), ptrFrame_kva hman.small, List.erase_cons_head]
  rfl

theorem made_result {k r hi : Nat} {rest : List Nat} {vm' : State} (hinv : KernelInv.Inv s) (hd : d ∈ s.pgdirs)
    (hfree : s.vm.freelist = k :: rest) (hman : Managed k) (hroot : Managed r)
    (hcopy : copyuvm m (kva s.kpdpt) (withStack s k rest stack) (kva d.root) (d.sz.setWidth 32) = .ok (vm', kva r))
    (h : Made s (withStack s k rest stack) vm' d k r hi) :
    ∃ s' c, fork m s d stack = .ok (s', some c) ∧ Forked s s' d c hi := by
  rw [fork_eq hfree hman, hcopy, ok_bind]
  simp only [if_neg (kva_ne_zero hroot.small), ptrFrame_kva hroot.small]
  exact ⟨_, _, rfl, h.forked hinv hd rfl rfl rfl rfl⟩

section

variable (hm : m.oom ≠ .null) (hfull : m.Full) (hinv : KernelInv.Inv s) (hd : d ∈ s.pgdirs)
include hm hfull hinv hd

/-- A successful `fork`, for a parent of any size. -/
theorem fork_forked
    (h : fork m s d stack = .ok (s', some c)) : Forked s s' d c (pages ((d.sz.setWidth 32).setWidth 64)) := by
  have hk := h
  rw [fork] at hk
  obtain ⟨x, hk, -⟩ := bind_eq_ok.mp hk
  obtain ⟨k, rest, hfree, hman, -⟩ := (kalloc_ends hm hinv.owned).of_ok hk
  have hcopy := h
  rw [fork_eq hfree hman] at hcopy
  obtain ⟨⟨vm', v⟩, hcopy, -⟩ := bind_eq_ok.mp hcopy
  obtain ⟨r, hv, hroot, hmade⟩ := (copyuvm_made hm hfull hinv hd (started_withStack stack hinv hfree)).of_ok hcopy
  dsimp only at hv
  subst hv
  obtain ⟨s₁, c₁, hfork, hforked⟩ := made_result hinv hd hfree hman hroot hcopy hmade
  obtain ⟨rfl, hc⟩ := Prod.mk.inj (Except.ok.inj (h.symm.trans hfork))
  obtain rfl := Option.some.inj hc
  exact hforked

/-- With enough free frames and no page missing there is a child. -/
theorem fork_returns
    (hfree : 4 * pages ((d.sz.setWidth 32).setWidth 64) + 1 < s.vm.freelist.length)
    (hpages : ∀ n, 0 < n → n < pages ((d.sz.setWidth 32).setWidth 64) → child (entry s.vm.mem d.root n) ≠ none)
    (stack : Page) :
    ∃ s' c, fork m s d stack = .ok (s', some c) ∧ Forked s s' d c (pages ((d.sz.setWidth 32).setWidth 64)) := by
  obtain ⟨k, rest, hrest⟩ := List.exists_cons_of_length_pos (by omega : 0 < s.vm.freelist.length)
  have hman : Managed k := hinv.owned.managed k ((hinv.owned.counted.mem_free k).mp (by simp [hrest])).1
  rw [hrest, List.length_cons] at hfree
  obtain ⟨⟨vm', v⟩, hcopy, r, hv, hroot, hmade⟩ := (copyuvm_made hm hfull hinv hd
    (started_withStack stack hinv hrest)).returns (by
    rintro e (⟨-, hlen⟩ | ⟨msg, n, -, hpos, hlt, hnone⟩)
    · simp only [withStack] at hlen
      omega
    · exact hpages n hpos hlt hnone)
  dsimp only at hv
  subst hv
  exact made_result hinv hd hrest hman hroot hcopy hmade

end

/-- The child is a faithful copy exactly when the size of the parent fits into 32 bits. -/
theorem fork_faithful_iff (h : Reach (system pc) Plain s) (hd : d ∈ s.pgdirs)
    (hfork : fork pc s d stack = .ok (s', some c)) : Faithful s s' d c ↔ d.sz.toNat < 2 ^ 32 := by
  have hinv := inv_plain h
  have hforked := fork_forked pc_oom pc_full hinv hd hfork
  have hwidth : ((d.sz.setWidth 32).setWidth 64 : Word).toNat = d.sz.toNat % 2 ^ 32 := by
    rw [BitVec.toNat_setWidth, BitVec.toNat_setWidth]
    omega
  constructor
  · intro hfaith
    by_contra hbig
    obtain ⟨n, hpos, hout, hlt, hsmall⟩ : ∃ n, 0 < n ∧ pages ((d.sz.setWidth 32).setWidth 64) ≤ n ∧
        n * 4096 < d.sz.toNat ∧ n < 2 ^ 36 := by
      refine ⟨pages ((d.sz.setWidth 32).setWidth 64) + 1, ?_⟩
      rw [pages, hwidth]
      omega
    obtain ⟨-, f, -, ⟨-, -, hf⟩, -⟩ := hfaith.page n hpos hlt
    rw [hforked.others n hsmall (.inr hout)] at hf
    cases child_zero.symm.trans hf
  · intro hsmall
    refine ⟨hforked.sz, fun n hpos hlt => ?_, hforked.parent⟩
    apply hforked.page n hpos
    · rw [pages, hwidth]
      omega
    · omega

theorem fork_faithful_first : ∃ s d s' c, First s d ∧ fork pc s d (fun _ => 0) = .ok (s', some c) ∧
    Faithful s s' d c := by
  obtain ⟨s, d, hreach, hinv, hfirst⟩ := exists_first_plain
  have hpages : pages ((d.sz.setWidth 32).setWidth 64) = 2 := by
    rw [hfirst.sz]
    rfl
  have hfree := hfirst.free
  obtain ⟨s', c, hfork, -⟩ := fork_returns pc_oom pc_full hinv hfirst.mem (by omega) (by
    intro n hpos hlt
    obtain rfl : n = 1 := by omega
    rw [hfirst.user.child]
    simp) (fun _ => 0)
  exact ⟨s, d, s', c, hfirst, hfork, (fork_faithful_iff hreach hfirst.mem hfork).mpr (by rw [hfirst.sz]; decide)⟩

/-- The child of a process of 4 GB and two pages has one page, at 4096. -/
theorem large_fork_unfaithful : ∃ s d s' c, Reach (system pc) Plain s ∧ d ∈ s.pgdirs ∧
    d.live = true ∧ Alive s.vm.mem d ∧
    fork pc s d (fun _ => 0) = .ok (s', some c) ∧ c.sz = d.sz ∧ 2 * 4096 < d.sz.toNat ∧
    child (entry s.vm.mem d.root 2) ≠ none ∧ entry s'.vm.mem c.root 2 = 0 ∧ ¬ Faithful s s' d c := by
  obtain ⟨s, d, h, hfree⟩ := exists_large
  have hsz := h.sz
  have hwidth := h.width
  have hpresent (n : Nat) (hpos : 0 < n) (hlt : n < 2 ^ 20 + 2) : child (entry s.vm.mem d.root n) ≠ none := by
    rw [(h.zero n hpos hlt).1.child]
    simp
  obtain ⟨s', c, hfork, hforked⟩ := fork_returns pc_oom pc_full h.inv h.mem (by omega)
    (fun n hpos hlt => hpresent n hpos (by omega)) (fun _ => 0)
  have hmissing : entry s'.vm.mem c.root 2 = 0 := hforked.others 2 (by omega) (.inr (by omega))
  refine ⟨s, d, s', c, h.plain, h.mem, h.live, h.alive (by omega), hfork, hforked.sz, by omega,
    hpresent 2 (by omega) (by omega),
    hmissing, fun hfaith => ?_⟩
  obtain ⟨-, f, -, ⟨-, -, hf⟩, -⟩ := hfaith.page 2 (by omega) (by omega)
  rw [hmissing] at hf
  cases child_zero.symm.trans hf

end Xv6.Fork
