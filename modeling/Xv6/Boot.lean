import Xv6.KernelStep

/-!
# The state after boot

`kinit1` gives the allocator the frames below 4 MB, `kvmalloc` and the other parts of `main` take
a few of them, and `kinit2` adds the frames up to `PHYSTOP`. What they leave behind satisfies
the invariant, so every run does.
-/
namespace Xv6.Boot

open Words Mmu Memory Kalloc Vm Outcome PageTable PageWalk PageNumber UserPages FreeVm CopyUvm
open Kernel KernelInv KernelStep Interleaving

variable {P : Nat → Prop} {m : Machine} {s s' s₁ : State} {f g n : Nat} {held own own' base : List Nat} {p : Word}

theorem Owned.congr_managed {Q : Nat → Prop} (h : Owned P s held) (hPQ : ∀ f, P f ↔ Q f) : Owned Q s held := by
  have : P = Q := funext (fun f => propext (hPQ f))
  rwa [← this]

/-- The loop of `freerange` hands over the frames from `f` on. -/
theorem freePages_owned (hfull : m.Full) (n : Nat) (h : Owned P s held) (hp : p = kva f)
    (hnew : ∀ g, f ≤ g → g < f + n → Managed g ∧ ¬ P g) :
    ∃ s', freePages m p s n = .ok s' ∧ Owned (fun g => P g ∨ (f ≤ g ∧ g < f + n)) s' held ∧
      (∀ g, P g → s'.mem g = s.mem g) ∧ s'.freelist.length = s.freelist.length + n := by
  induction n generalizing P s f p with
  | zero =>
    refine ⟨s, rfl, Owned.congr_managed h (fun g => ?_), fun _ _ => rfl, rfl⟩
    constructor
    · exact .inl
    · rintro (hP | ⟨h₁, h₂⟩)
      · exact hP
      · omega
  | succ n ih =>
    obtain ⟨hman, hnot⟩ := hnew f (by omega) (by omega)
    obtain ⟨page, hrun⟩ := kfree_kva (s := s) hfull hman
    have hnext : p + 0x1000 = kva (f + 1) := by
      apply BitVec.eq_of_toNat_eq
      have hsmall := hman.small'
      rw [hp, BitVec.toNat_add, kva_toNat (by omega), kva_toNat (by omega),
        show (0x1000 : Word).toNat = 4096 from rfl]
      omega
    have hown : Owned (fun g => P g ∨ g = f)
        { s with mem := setPage s.mem f page, freelist := f :: s.freelist } held := by
      refine ⟨h.counted.extend hnot, ?_⟩
      rintro g (hP | rfl)
      · exact h.managed g hP
      · exact hman
    obtain ⟨s', hrun', hown', hmem, hlen⟩ := ih hown hnext (by
      intro g h₁ h₂
      obtain ⟨hg, hgP⟩ := hnew g (by omega) (by omega)
      exact ⟨hg, not_or.mpr ⟨hgP, by omega⟩⟩)
    refine ⟨s', ?_, Owned.congr_managed hown' ?_, ?_, ?_⟩
    · rw [freePages, hp, hrun, ok_bind, ← hp, hrun']
    · intro g
      constructor
      · rintro ((hP | rfl) | ⟨h₁, h₂⟩)
        · exact .inl hP
        · exact .inr ⟨by omega, by omega⟩
        · exact .inr ⟨by omega, by omega⟩
      · rintro (hP | ⟨h₁, h₂⟩)
        · exact .inl (.inl hP)
        · by_cases he : g = f
          · exact .inl (.inr he)
          · exact .inr ⟨by omega, by omega⟩
    · intro g hP
      rw [hmem g (.inl hP)]
      refine setPage_other ?_ page
      rintro rfl
      exact hnot hP
    · rw [hlen]
      simp only [List.length_cons]
      omega

/-- The frames below 4 MB that the kernel does not occupy. -/
def Low (f : Nat) : Prop := 0x1fb ≤ f ∧ f < 0x400

theorem kinit1_owned (hfull : m.Full) (s : State) :
    ∃ s', kinit1 m s kernelEnd firstEnd = .ok s' ∧ Owned Low s' [] ∧ s'.freelist.length = 517 := by
  have hempty : Owned (fun _ => False) { s with refs := fun _ => 0, checksum := fun _ => 0, freelist := [] } [] :=
    ⟨⟨by simp, by simp, by simp, by simp⟩, fun _ hf => hf.elim⟩
  obtain ⟨s', hrun, hown, -, hlen⟩ := freePages_owned (f := 0x1fb) hfull 517 hempty rfl (by
    intro g h₁ h₂
    refine ⟨⟨h₁, ?_⟩, not_false⟩
    rw [nframes_eq]
    omega)
  refine ⟨s', ?_, Owned.congr_managed hown ?_, by simpa using hlen⟩
  · have hstart : pgRoundUp kernelEnd = kva 0x1fb := by decide
    have hcount : (firstEnd.toNat - (pgRoundUp kernelEnd).toNat) / pgSize = 517 := by decide
    simp only [kinit1, freerange]
    rw [hcount, hstart, hrun]
  · intro g
    simp only [Low, false_or]

theorem kinit2_owned (hfull : m.Full) (h : Owned Low s held) :
    ∃ s', kinit2 m s firstEnd (p2v (BitVec.ofNat 64 physTop)) = .ok s' ∧ Owned Managed s' held ∧
      (∀ g ∈ held, s'.mem g = s.mem g) ∧ s'.freelist.length = s.freelist.length + 56320 := by
  obtain ⟨s', hrun, hown, hmem, hlen⟩ := freePages_owned (f := 0x400) hfull 56320 h rfl (by
    intro g h₁ h₂
    refine ⟨⟨by omega, ?_⟩, fun hlow => by have := hlow.2; omega⟩
    rw [nframes_eq]
    omega)
  refine ⟨s', ?_, Owned.congr_managed hown ?_, fun g hg => hmem g (h.counted.managed_held g hg), hlen⟩
  · have hstart : pgRoundUp firstEnd = kva 0x400 := by decide
    have hcount : ((p2v (BitVec.ofNat 64 physTop)).toNat - (pgRoundUp firstEnd).toNat) / pgSize =
      56320 := by decide
    simp only [kinit2, freerange]
    rw [hcount, hstart, hrun]
  · intro g
    simp only [Low, Managed, nframes_eq]
    omega

section

variable (hm : m.oom ≠ .null)
include hm

/-- `kvmalloc` takes two frames and fills the second, the table that all processes share. -/
theorem kvmalloc_ends (hfull : m.Full) (h : Owned P s []) :
    Ends (kvmalloc m s) (fun _ => s.freelist.length < 2) (fun x => ∃ f g, x.2.1 = kva f ∧ x.2.2 = kva g ∧ f ≠ g ∧
      Managed f ∧ Managed g ∧ Owned P x.1 [f, g] ∧ x.1.mem g = kernelPdpt ∧
      s.freelist.length = x.1.freelist.length + 2) := by
  rw [kvmalloc]
  refine (kalloc_ends hm h).seq ?_ ?_
  · rintro e ⟨-, hnil⟩
    simp [hnil]
  · rintro x ⟨f, rest, hfree, hf, -, rfl, hown⟩
    simp only
    rw [memset_kva hf.small (hf.ram hfull), ok_bind]
    have hown₀ : Owned P ⟨setPage s.mem f (fun _ => 0), Function.update s.refs f 1, s.checksum, rest⟩ [f] :=
      hown.congr rfl rfl
    refine (kalloc_ends hm hown₀).seq ?_ ?_
    · rintro e ⟨-, hnil⟩
      have hnil : rest = [] := hnil
      simp [hfree, hnil]
    · rintro x ⟨g, rest', hfree', hg, hnew, rfl, hown'⟩
      have hfree' : rest = g :: rest' := hfree'
      have hne : f ≠ g := by
        rintro rfl
        exact hnew (by simp)
      have hpmx : pmx kernBase < 512 := by decide
      simp only
      rw [memset_kva hg.small (hg.ram hfull), ok_bind, write_entryPtr hf.small (hf.ram hfull) hpmx, ok_bind,
        write_entryPtr hg.small (hg.ram hfull) (by omega), ok_bind, write_entryPtr hg.small
          (hg.ram hfull) (by omega),
        ok_bind]
      refine ⟨f, g, rfl, rfl, hne, hf, hg, ?_, ?_, ?_⟩
      · exact (hown'.perm (List.Perm.swap f g [])).congr rfl rfl
      · simp only [setWord, setPage_same, setPage_other (Ne.symm hne)]
        rfl
      · rw [hfree, hfree']
        rfl

/-- What the early allocations keep. -/
theorem early_owned (h : Early m s own s' own') (hown : Owned P s (own ++ base))
    (hnodup : (own ++ base).Nodup) : Owned P s' (own' ++ base) ∧ (own' ++ base).Nodup ∧
      ∀ g ∈ base, s'.mem g = s.mem g := by
  induction h with
  | done => exact ⟨hown, hnodup, fun _ _ => rfl⟩
  | take hrun _ ih =>
    obtain ⟨f, rest, -, hman, hnew, hx, hown₁⟩ := (kalloc_ends hm hown).of_ok hrun
    obtain ⟨rfl, rfl⟩ := Prod.mk.inj hx
    rw [ptrFrame_kva hman.small] at ih
    obtain ⟨h₁, h₂, h₃⟩ := ih hown₁ (List.nodup_cons.mpr ⟨hnew, hnodup⟩)
    exact ⟨h₁, h₂, h₃⟩
  | @fill s s' own own' f page hf _ ih =>
    obtain ⟨h₁, h₂, h₃⟩ := ih (hown.congr rfl rfl) hnodup
    refine ⟨h₁, h₂, fun g hg => ?_⟩
    rw [h₃ g hg]
    refine setPage_other ?_ page
    rintro rfl
    exact (List.nodup_append.mp hnodup).2.2 g hf g hg rfl

theorem inv_booted {s : Sys} (hfull : m.Full) (h : Booted m s) : Inv s := by
  obtain ⟨s₀, s₁, s₂, s₃, v, w, own, hinit, hkvm, hearly, hinit₂, hkernel, hkpdpt⟩ := h.boot
  obtain ⟨s₁', hrun₁, hown₁, -⟩ := kinit1_owned hfull s₀
  obtain rfl : s₁' = s₁ := Except.ok.inj (hrun₁.symm.trans hinit)
  obtain ⟨f, g, rfl, rfl, hne, hf, hg, hown₂, hshared, -⟩ := (kvmalloc_ends hm hfull hown₁).of_ok hkvm
  have hnodup : [f, g].Nodup := by simp [hne]
  obtain ⟨hown₃, hnodup₃, hsame₃⟩ : Owned Low s₃ (own ++ [f, g]) ∧ _ := early_owned hm hearly hown₂ hnodup
  obtain ⟨s₄, hrun₄, hown₄, hsame₄, -⟩ := kinit2_owned hfull hown₃
  obtain rfl : s₄ = s.vm := Except.ok.inj (hrun₄.symm.trans hinit₂)
  rw [ptrFrame_kva hf.small, ptrFrame_kva hg.small] at hkernel
  rw [ptrFrame_kva hg.small] at hkpdpt
  have hown : s.kernel ++ s.owners = own ++ [f, g] := by rw [hkernel, h.owners, List.append_nil]
  refine ⟨⟨?_, ?_, ?_, ?_⟩, ?_, ?_, ?_⟩
  · simp [h.pgdirs]
  · simp [h.pgdirs]
  · simp [h.pgdirs]
  · rw [hkpdpt, hsame₄ g (by simp), hsame₃ g (by simp)]
    exact hshared
  · rw [heldBy, h.pgdirs, hown]
    exact hown₄
  · rw [hown]
    exact hnodup₃
  · rw [hkernel, hkpdpt]
    simp

/-- The machine boots. -/
theorem exists_booted (hfull : m.Full) : ∃ s, Booted m s ∧ s.vm.freelist.length = 56835 := by
  obtain ⟨s₁, hrun₁, hown₁, hlen₁⟩ := kinit1_owned hfull ⟨fun _ _ => 0, fun _ => 0, fun _ => 0, []⟩
  obtain ⟨⟨s₂, v, w⟩, hrun₂, f, g, rfl, rfl, -, -, -, hown₂, -, hlen₂⟩ :=
    (kvmalloc_ends hm hfull hown₁).returns (by intro e; omega)
  obtain ⟨s₃, hrun₃, -, -, hlen₃⟩ := kinit2_owned hfull hown₂
  refine ⟨⟨s₃, ptrFrame (kva g), [ptrFrame (kva f), ptrFrame (kva g)], [], []⟩,
    ⟨⟨_, s₁, s₂, s₂, kva f, kva g, [], hrun₁, hrun₂, .done, hrun₃, rfl, rfl⟩, rfl, rfl⟩, ?_⟩
  have hlen₂ : s₁.freelist.length = s₂.freelist.length + 2 := hlen₂
  have hlen₃ : s₃.freelist.length = s₂.freelist.length + 56320 := hlen₃
  show s₃.freelist.length = 56835
  omega

/-- The invariant holds in every run whose faults stay out of the kernel's large pages. -/
theorem inv_reach {s : Sys} {ok : Sys → Act → Prop} (hfull : m.Full)
    (hok : ∀ s a, KernelInv.Inv s → Allowed s a → ok s a → Mild s a) (h : Reach (system m) ok s) :
    KernelInv.Inv s := by
  refine h.invariant (fun s hs => inv_booted hm hfull hs) ?_
  rintro s a s' hinv hs ⟨ha, hrun⟩
  exact ((step_ends hm hfull hinv ha (hok s a hinv ha hs)).of_ok hrun).1

end

/-- A process whose one page, at 4096, is zero. -/
structure First (s : Sys) (d : Pgdir) : Prop where
  pgdirs : s.pgdirs = [d]
  live : d.live = true
  sz : d.sz = 0x2000
  page : ∃ f, entry s.vm.mem d.root 1 = freshEntry f ∧ child (freshEntry f) = some f ∧ s.vm.mem f = fun _ => 0
  other : ∀ n < 2 ^ 35, n ≠ 1 → entry s.vm.mem d.root n = 0
  free : 56830 ≤ s.vm.freelist.length

theorem First.mem {s : Sys} {d : Pgdir} (h : First s d) : d ∈ s.pgdirs := by simp [h.pgdirs]

theorem First.user {s : Sys} {d : Pgdir} (h : First s d) : Dedup.UserPage s.vm.mem d.root 1 := by
  obtain ⟨f, he, -⟩ := h.page
  rw [Dedup.UserPage, he, has_freshEntry isFlags_pteP, has_freshEntry isFlags_pteU]
  decide

theorem First.alive {s : Sys} {d : Pgdir} (h : First s d) : Alive s.vm.mem d := ⟨1, by omega, h.user⟩

/-- The first process starts. -/
theorem exists_first (ok : Sys → Act → Prop) (hm : m.oom ≠ .null) (hfull : m.Full)
    (hset : ∀ s, 1 ≤ s.vm.freelist.length → ok s .setupkvm)
    (hinit : ∀ s d, 4 ≤ s.vm.freelist.length → ok s (.inituvm d [])) :
    ∃ s d, Reach (system m) ok s ∧ KernelInv.Inv s ∧ First s d := by
  obtain ⟨s₀, hboot, hlen₀⟩ := exists_booted hm hfull
  have hinv₀ := inv_booted hm hfull hboot
  have hends : Ends (setupkvm m (kva s₀.kpdpt) s₀.vm) _ _ := setupkvm_space hm hfull hinv₀.owned
  obtain ⟨⟨vm₁, v⟩, hset₁, r, hv, hman, -, hmade⟩ := hends.returns (by
    rintro e ⟨-, hnil⟩
    simp [hnil] at hlen₀)
  dsimp only at hv hmade
  let d₀ : Pgdir := ⟨r, 0x1000, false⟩
  have hrun₁ : run m s₀ .setupkvm = .ok { s₀ with vm := vm₁, pgdirs := [d₀] } := by
    simp only [run, hset₁, hv, ok_bind, ptrFrame_kva hman.small, hboot.pgdirs]
    rfl
  have hallow₀ : Allowed s₀ .setupkvm := trivial
  have hinv₁ := ((step_ends hm hfull hinv₀ hallow₀ trivial).of_ok hrun₁).1
  have hlen₁ : vm₁.freelist.length = 56834 := by
    have hfree := congrArg List.length hmade.free
    rw [List.length_cons] at hfree
    omega
  have hd₀ : d₀ ∈ ({ s₀ with vm := vm₁, pgdirs := [d₀] } : Sys).pgdirs := List.mem_singleton.mpr rfl
  have hpresent : has (entry vm₁.mem d₀.root 1) pteP = false := by
    rw [show entry vm₁.mem d₀.root 1 = 0 from hmade.entry_eq 1]
    decide
  obtain ⟨vm₂, hrun, -, f, hadd⟩ := (inituvm_ends hm hfull [] (by simp) (hinv₁.space hd₀)).returns (by
    rintro e (⟨-, hlt⟩ | ⟨-, hp⟩)
    · have hlt : vm₁.freelist.length < 4 := hlt
      omega
    · exact absurd hp (by simp [hpresent]))
  let d : Pgdir := { d₀ with sz := 0x2000, live := true }
  have hrun₂ : run m { s₀ with vm := vm₁, pgdirs := [d₀] } (.inituvm d₀ []) =
    .ok { s₀ with vm := vm₂, pgdirs := [d] } := by
    simp only [run, hrun, ok_bind, Sys.update]
    rw [List.erase_cons_head]
    rfl
  have hallow : Allowed { s₀ with vm := vm₁, pgdirs := [d₀] } (.inituvm d₀ []) := ⟨hd₀, rfl, rfl⟩
  have hreach : Reach (system m) ok { s₀ with vm := vm₁, pgdirs := [d₀] } :=
    (Reach.init hboot).step (hset s₀ (by omega)) ⟨hallow₀, hrun₁⟩
  refine ⟨_, d, hreach.step (hinit _ d₀ ?_) ⟨hallow, hrun₂⟩,
    ((step_ends hm hfull hinv₁ hallow trivial).of_ok hrun₂).1, rfl, rfl, rfl,
      ⟨f, ?_, hadd.frame, hadd.page⟩, ?_, ?_⟩
  · show 4 ≤ vm₁.freelist.length
    omega
  · exact (hadd.map 1 (by omega)).trans (if_pos rfl)
  · intro n hn hne
    refine ((hadd.map n (by omega)).trans (if_neg hne)).trans ?_
    exact hmade.entry_eq n
  · obtain ⟨new, hfree, hnew, -⟩ := hadd.free
    have hlen : vm₁.freelist.length = new.length + 1 + vm₂.freelist.length := by
      have hfree := congrArg List.length hfree
      simp only [List.length_append, List.length_cons] at hfree
      omega
    show 56830 ≤ vm₂.freelist.length
    omega

theorem exists_first_any : ∃ s d, Reachable (system pc) s ∧ KernelInv.Inv s ∧ First s d :=
  exists_first _ pc_oom pc_full (fun _ _ => trivial) (fun _ _ _ => trivial)

end Xv6.Boot
