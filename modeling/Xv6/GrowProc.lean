import Xv6.Tlb
import Xv6.UserAddresses

/-!
# `growproc`

The size that `sbrk` asks for is computed modulo `2 ^ 64`, and 0, the error of the functions that
change the table, is also a size. So a process that gives back all of its memory is told that
nothing happened, and one that gives back more than it has is told that it was done.
-/
namespace Xv6.GrowProc

open Words Mmu Memory Vm Outcome PageTable AddressSpace PageNumber UserPages CopyUvm PageWalk
open SizeBound Kernel KernelInv KernelStep Boot Interleaving UserAddresses

variable {s : Sys} {vm' : State} {d : Pgdir} {n sz' : Word} {k : Nat}

def Spans (mem : Mem) (r : Nat) (sz : Word) : Prop :=
  ∀ k < 2 ^ 35, Mapped mem r k ↔ 1 ≤ k ∧ k < pages sz

structure Exact (s : Sys) (d : Pgdir) (n : Word) : Prop where
  result : ∀ r, growproc pc s.vm (kva d.root) d.sz n = .ok r → r.2.2 = 0 ∨ r.2.2 = -1
  done : ∀ vm' sz', growproc pc s.vm (kva d.root) d.sz n = .ok (vm', sz', 0) →
    (sz'.toNat : Int) = d.sz.toNat + n.toInt ∧ Spans vm'.mem d.root sz'
  failed : ∀ vm' sz', growproc pc s.vm (kva d.root) d.sz n = .ok (vm', sz', -1) →
    sz' = d.sz ∧ ∀ k < 2 ^ 35, entry vm'.mem d.root k = entry s.vm.mem d.root k

theorem growproc_result {m : Machine} {vm : State} {pgdir sz : Word} {r : State × Word × Int}
    (h : growproc m vm pgdir sz n = .ok r) : r.2.2 = 0 ∨ r.2.2 = -1 := by
  rw [growproc] at h
  split at h
  · obtain ⟨⟨vm, new⟩, -, h⟩ := bind_eq_ok.mp h
    dsimp only at h
    split at h <;> cases h <;> simp
  · split at h
    · obtain ⟨⟨vm, new⟩, -, h⟩ := bind_eq_ok.mp h
      dsimp only at h
      split at h <;> cases h <;> simp
    · cases h
      exact .inl rfl

section Process

variable (hinv : KernelInv.Inv s) (hd : d ∈ s.pgdirs)
include hinv hd

theorem size_small : d.sz.toNat < 2 ^ 38 := by
  have hbound := pages_bound hinv hd
  have hmax := maxTabled_lt
  simp only [pages] at hbound
  omega

section

variable (hfilled : Filled s.vm.mem d)
include hfilled

/-- A process without holes has exactly the pages of its size. -/
theorem spans_of_filled : Spans s.vm.mem d.root d.sz := by
  intro k hk
  constructor
  · intro hmap
    have hlt := (hinv.sound hd).sized.above k hk hmap
    refine ⟨?_, hlt⟩
    by_contra hzero
    obtain rfl : k = 0 := by omega
    exact hmap (entry_zero (hinv.sound hd).tree)
  · rintro ⟨h₁, h₂⟩
    exact hfilled k h₁ h₂

theorem spans_grown {newsz : Word} (hle : d.sz.toNat ≤ newsz.toNat)
    (hg : Grown Zeroed s.vm vm' d.root (pages d.sz) (pages newsz)) : Spans vm'.mem d.root newsz := by
  have hmono := pages_mono hle
  have hbound := pages_bound hinv hd
  have hmax := maxTabled_lt
  intro k hk
  by_cases hnew : pages d.sz ≤ k ∧ k < pages newsz
  · obtain ⟨f, -, hf, -⟩ := hg.new k hnew.1 hnew.2
    have hpos := (hinv.sound hd).pos
    refine iff_of_true (by rw [Mapped, hf]; simp) ⟨?_, hnew.2⟩
    have hpage : 1 ≤ pages d.sz := by
      simp only [pages]
      omega
    omega
  · have hold := spans_of_filled hinv hd hfilled k hk
    rw [Mapped, hg.old k (by omega) (by omega)]
    rw [Mapped] at hold
    exact hold.trans (by omega)

theorem spans_shrunk {newsz : Word} (hle : newsz.toNat ≤ d.sz.toNat)
    {rest : List Nat} (hs : Shrunk s.vm vm' d.root (pages newsz) (pages d.sz) rest) :
    Spans vm'.mem d.root newsz := by
  have hmono := pages_mono hle
  intro k hk
  by_cases hgone : pages newsz ≤ k ∧ k < pages d.sz
  · refine iff_of_false ?_ (by omega)
    rw [Mapped, not_not]
    exact hs.gone k hgone.1 hgone.2
  · have hold := spans_of_filled hinv hd hfilled k hk
    rw [Mapped, hs.old k (by omega) (by omega)]
    rw [Mapped] at hold
    exact hold.trans (by omega)

/-- A positive `n` never fails: the size stays below `KERNBASE`, and a table that cannot be had
stops the kernel. -/
theorem exact_grow (hn : 0 < n.toInt) : Exact s d n := by
  have hsmall := size_small hinv hd
  have hpos := (hinv.sound hd).pos
  have hbound := pages_bound hinv hd
  have hmax := maxTabled_lt
  have hlen := freelist_length hinv
  have hnat : n.toInt = n.toNat := by
    have := BitVec.toInt_eq_toNat_cond n
    split at this <;> omega
  have hlt : n.toNat < 2 ^ 63 := by
    have := BitVec.toInt_eq_toNat_cond n
    split at this <;> omega
  have hsum : (d.sz + n).toNat = d.sz.toNat + n.toNat := by
    rw [BitVec.toNat_add, Nat.mod_eq_of_lt (by omega)]
  have hcase (r : State × Word × Int) (hr : growproc pc s.vm (kva d.root) d.sz n = .ok r) :
      r.2.1 = d.sz + n ∧ r.2.2 = 0 ∧ Spans r.1.mem d.root r.2.1 := by
    rw [growproc, if_pos hn] at hr
    obtain ⟨⟨vm₁, new⟩, halloc, hr⟩ := bind_eq_ok.mp hr
    have hends : Ends (allocuvm pc s.vm (kva d.root) d.sz (d.sz + n)) _ _ :=
      allocuvm_ends pc_oom pc_full (hinv.space hd) hpos (by omega)
    rcases hends.of_ok halloc with ⟨-, hbig⟩ | ⟨-, hless⟩ | ⟨hnew, hle, -, hg⟩
    · rw [hsum, kernBase_toNat] at hbig
      omega
    · omega
    · dsimp only at hr hnew hg
      subst hnew
      rw [if_neg (fun hzero => by rw [hzero] at hsum; simp at hsum; omega)] at hr
      obtain rfl := Except.ok.inj hr
      exact ⟨rfl, rfl, spans_grown hinv hd hfilled hle hg⟩
  refine ⟨fun r hr => growproc_result hr, fun vm' sz' hr => ?_, fun vm' sz' hr => ?_⟩
  · obtain ⟨hsz, -, hspans⟩ := hcase _ hr
    dsimp only at hsz hspans
    refine ⟨?_, hspans⟩
    rw [hsz, hsum, hnat]
    omega
  · have hret := (hcase _ hr).2.1
    simp at hret

end

/-- A negative `n` as `deallocuvm` gets it. -/
theorem growproc_neg (hn : n.toInt < 0) : ∃ vm' new, deallocuvm pc s.vm (kva d.root) d.sz
    (d.sz + n) = .ok (vm', new) ∧
    growproc pc s.vm (kva d.root) d.sz n = .ok (if new = 0 then (vm', d.sz, -1) else (vm', new, 0)) ∧
    ((vm' = s.vm ∧ new = d.sz ∧ d.sz.toNat ≤ (d.sz + n).toNat) ∨
      (new = d.sz + n ∧ (d.sz + n).toNat < d.sz.toNat ∧
        Shrunk s.vm vm' d.root (pages (d.sz + n)) (pages d.sz) (others s d))) := by
  have hbound := pages_bound hinv hd
  have hmax := maxTabled_lt
  obtain ⟨⟨vm', new⟩, hx, -, hcase⟩ : ∃ x, deallocuvm pc s.vm (kva d.root) d.sz (d.sz + n) = .ok x ∧ _ :=
    deallocuvm_space pc_full (hinv.space hd) (by omega)
  refine ⟨vm', new, hx, ?_, ?_⟩
  · rw [growproc, if_neg (by omega), if_pos hn, hx, ok_bind]
    dsimp only
    split <;> rfl
  · rcases hcase with ⟨heq, hle⟩ | hcase
    · cases heq
      exact .inl ⟨rfl, rfl, hle⟩
    · exact .inr hcase

theorem sum_toNat (hn : n.toInt < 0) : (d.sz + n).toNat =
    if n.toInt < -(d.sz.toNat : Int) then 2 ^ 64 - (-n.toInt).toNat + d.sz.toNat else
    d.sz.toNat - (-n.toInt).toNat := by
  have hsmall := size_small hinv hd
  have hnat := BitVec.toInt_eq_toNat_cond n
  have hlt := n.isLt
  rw [BitVec.toNat_add]
  split at hnat <;> split <;> omega

theorem exact_shrink (hfilled : Filled s.vm.mem d) (hn : n.toInt < 0)
    (hlt : -(d.sz.toNat : Int) < n.toInt) : Exact s d n := by
  have hsum := sum_toNat hinv hd hn
  rw [if_neg (by omega)] at hsum
  obtain ⟨vm', new, -, hrun, hcase⟩ := growproc_neg hinv hd hn
  obtain ⟨rfl, hless, hs⟩ := hcase.resolve_left (by omega)
  rw [if_neg (fun hzero => by rw [hzero] at hsum; simp at hsum; omega)] at hrun
  refine ⟨fun r hr => growproc_result hr, fun vm₁ sz₁ hr => ?_, fun vm₁ sz₁ hr => ?_⟩
  · rw [hrun] at hr
    cases hr
    refine ⟨?_, spans_shrunk hinv hd hfilled hless.le hs⟩
    rw [hsum]
    omega
  · rw [hrun] at hr
    cases hr

/-- A process that asks for size 0 loses its pages, and is told that the call failed. -/
theorem not_exact_zero (halive : Alive s.vm.mem d) (hn : n.toInt = -(d.sz.toNat : Int)) : ¬ Exact s d n := by
  have hpos := (hinv.sound hd).pos
  have hneg : n.toInt < 0 := by omega
  have hsum := sum_toNat hinv hd hneg
  rw [if_neg (by omega)] at hsum
  have hzero : d.sz + n = 0 := BitVec.eq_of_toNat_eq (by rw [hsum]; simp; omega)
  obtain ⟨vm', new, -, hrun, hcase⟩ := growproc_neg hinv hd hneg
  obtain ⟨rfl, -, hs⟩ := hcase.resolve_left (by omega)
  rw [if_pos hzero] at hrun
  rw [hzero] at hs
  intro hexact
  obtain ⟨k, hk, huser⟩ := halive
  have hmapped : Mapped s.vm.mem d.root k := by
    rw [Mapped, ne_eq, child_eq_none, huser.1]
    simp
  have hsame := (hexact.failed vm' d.sz hrun).2 k hk
  have hgone := hs.gone k (Nat.zero_le _) ((hinv.sound hd).sized.above k hk hmapped)
  rw [hsame] at hgone
  exact hmapped hgone

/-- A process that gives back more than it has keeps what it has, and is told that the call
succeeded. -/
theorem not_exact_below (hn : n.toInt < -(d.sz.toNat : Int)) : ¬ Exact s d n := by
  have hneg : n.toInt < 0 := by omega
  have hsmall := size_small hinv hd
  have hpos := (hinv.sound hd).pos
  have hsum := sum_toNat hinv hd hneg
  rw [if_pos hn] at hsum
  have hnat := BitVec.toInt_eq_toNat_cond n
  obtain ⟨vm', new, -, hrun, hcase⟩ := growproc_neg hinv hd hneg
  obtain ⟨rfl, rfl, -⟩ := hcase.resolve_right (by split at hnat <;> omega)
  rw [if_neg (fun hzero => by rw [hzero] at hpos; simp at hpos)] at hrun
  intro hexact
  have hsame := (hexact.done _ _ hrun).1
  omega

end Process

/-- In a run without holes, `growproc` is exact for the processes and sizes it is asked for with
something left over. -/
theorem growproc_exact_iff (h : Reach (system pc) Filling s) (hd : d ∈ s.pgdirs)
    (halive : Alive s.vm.mem d) (n : Word) :
    Exact s d n ↔ -(d.sz.toNat : Int) < n.toInt := by
  obtain ⟨hinv, hfilled⟩ := filled_reach h
  constructor
  · intro hexact
    by_contra hle
    rcases Int.lt_or_eq_of_le (not_lt.mp hle) with hlt | heq
    · exact not_exact_below hinv hd hlt hexact
    · exact not_exact_zero hinv hd halive heq hexact
  · intro hlt
    rcases lt_trichotomy n.toInt 0 with hneg | hzero | hpos
    · exact exact_shrink hinv hd (hfilled d hd) hneg hlt
    · have hrun : growproc pc s.vm (kva d.root) d.sz n = .ok (s.vm, d.sz, 0) := by
        rw [growproc, if_neg (by omega), if_neg (by omega)]
        rfl
      refine ⟨fun r hr => growproc_result hr, fun vm' sz' hr => ?_, fun vm' sz' hr => ?_⟩
      · rw [hrun] at hr
        cases hr
        exact ⟨by omega, spans_of_filled hinv hd (hfilled d hd)⟩
      · rw [hrun] at hr
        cases hr
    · exact exact_grow hinv hd (hfilled d hd) hpos

theorem exists_first_filling : ∃ s d, Reach (system pc) Filling s ∧ First s d := by
  obtain ⟨s, d, hreach, -, hfirst⟩ := exists_first Filling pc_oom pc_full (fun _ _ => ⟨trivial, by simp, by simp⟩)
    (fun _ _ _ => ⟨trivial, by simp, by simp⟩)
  exact ⟨s, d, hreach, hfirst⟩

/-- The first process can give back one of its two pages, but not both. -/
theorem growproc_exact_first : ∃ s d, First s d ∧ Exact s d (-0x1000) ∧ ¬ Exact s d (-0x2000) := by
  obtain ⟨s, d, hreach, hfirst⟩ := exists_first_filling
  refine ⟨s, d, hfirst, ?_, ?_⟩
  all_goals rw [growproc_exact_iff hreach hfirst.mem hfirst.alive, hfirst.sz]
  all_goals decide

/-- The first process, of two pages, calls `sbrk(-8192)`: its page is gone and the result is -1. -/
theorem sbrk_to_zero : ∃ s d vm', Reachable (system pc) s ∧ d ∈ s.pgdirs ∧ d.live = true ∧ Alive s.vm.mem d ∧
    growproc pc s.vm (kva d.root) d.sz (-0x2000) = .ok (vm', d.sz, -1) ∧
    Mapped s.vm.mem d.root 1 ∧ ¬ Mapped vm'.mem d.root 1 := by
  obtain ⟨s, d, hreach, hfirst⟩ := exists_first_filling
  obtain ⟨hinv, hfilled⟩ := filled_reach hreach
  have hsz : d.sz = 0x2000 := hfirst.sz
  have hzero : d.sz + (-0x2000) = 0 := by
    rw [hsz]
    decide
  obtain ⟨vm', new, -, hrun, hcase⟩ := growproc_neg (n := -0x2000) hinv hfirst.mem (by decide)
  rw [hzero] at hcase
  obtain ⟨rfl, -, hs⟩ := hcase.resolve_left (by
    rintro ⟨-, -, hle⟩
    rw [hsz] at hle
    exact absurd hle (by decide))
  rw [if_pos rfl] at hrun
  have htwo : pages d.sz = 2 := by
    rw [hsz]
    rfl
  refine ⟨s, d, vm', hreach.mono (fun _ _ _ => trivial), hfirst.mem, hfirst.live, hfirst.alive, hrun, ?_, ?_⟩
  · exact hfilled d hfirst.mem 1 (by omega) (by omega)
  · rw [Mapped, not_not]
    exact hs.gone 1 (Nat.zero_le _) (by omega)

end Xv6.GrowProc
