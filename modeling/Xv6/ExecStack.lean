import Xv6.Kernel

/-!
# The stack of a new program

At the end of its work on a new page table `exec` adds two pages after the program, the guard
page, which the user cannot use, and the stack.
-/
namespace Xv6.ExecStack

open Words Mmu Memory Kalloc Vm Outcome PageTable AddressSpace PageNumber UserPages CopyUvm
open SizeBound Kernel

/-- Pages `n` and `n + 1` are new, the first of them not for the user; both are zero. -/
structure Stacked (s s' : State) (r n : Nat) : Prop where
  guard : ∃ f ∈ s.freelist, child (entry s'.mem r n) = some f ∧ entry s'.mem r n = freshEntry f &&& ~~~pteU ∧
    s'.mem f = fun _ => 0
  stack : ∃ f ∈ s.freelist, child (entry s'.mem r (n + 1)) = some f ∧ entry s'.mem r (n + 1) = freshEntry f ∧
    s'.mem f = fun _ => 0
  old : ∀ k, k < 2 ^ 36 → k ≠ n → k ≠ n + 1 → entry s'.mem r k = entry s.mem r k
  mono : ∀ p t, p.length < 4 → walk s.mem r p = some t → walk s'.mem r p = some t
  contents : ∀ g, g ∉ s.freelist → ¬ IsTable s.mem r g → s'.mem g = s.mem g
  free : ∃ used, s.freelist = used ++ s'.freelist

variable {m : Machine} {s s' s₁ : State} {kpdpt r n k : Nat} {d : Pgdir} {rest : List Nat}

theorem pages_pgRoundUp {sz : Word} (h : sz.toNat + 4095 < 2 ^ 64) : pages (pgRoundUp sz) = pages sz := by
  rw [pages, pgRoundUp_page h]
  omega

theorem Stacked.mapped (h : Stacked s s' r n) (hk : n ≤ k) (hlt : k < n + 2) : Mapped s'.mem r k := by
  obtain rfl | rfl : k = n ∨ k = n + 1 := by omega
  · obtain ⟨f, -, hf, -⟩ := h.guard
    rw [Mapped, hf]
    simp
  · obtain ⟨f, -, hf, -⟩ := h.stack
    rw [Mapped, hf]
    simp

/-- The two pages that `allocuvm` adds, with the user bit of the first one cleared. -/
theorem stacked_of_grown (h₁ : Space s₁ kpdpt r rest) (hg : Grown Zeroed s s₁ r n (n + 2)) (hn : n + 2 ≤ 2 ^ 35)
    (hstored : Stored s₁.mem s'.mem r n (entry s₁.mem r n &&& ~~~pteU)) (hfree : s'.freelist = s₁.freelist) :
    Stacked s s' r n := by
  have hentry : ∀ k, k < 2 ^ 36 → entry s'.mem r k = if k = n then entry s₁.mem r
    n &&& ~~~pteU else entry s₁.mem r k :=
    fun k hk => hstored.entry_eq (by omega) hk
  have hleaf : ∀ k f, child (entry s₁.mem r k) = some f → s'.mem f = s₁.mem f := by
    intro k f hf
    exact hstored.frame f (h₁.tree.leaf_not_table rfl hf)
  refine ⟨?_, ?_, ?_, ?_, ?_, ?_⟩
  · obtain ⟨f, hf, hc, he, hz⟩ := hg.new n (by omega) (by omega)
    rw [hentry n (by omega), if_pos rfl]
    exact ⟨f, hf, child_clearU.trans hc, by rw [he], (hleaf n f hc).trans hz⟩
  · obtain ⟨f, hf, hc, he, hz⟩ := hg.new (n + 1) (by omega) (by omega)
    rw [hentry (n + 1) (by omega), if_neg (by omega)]
    exact ⟨f, hf, hc, he, (hleaf _ f hc).trans hz⟩
  · intro k hk hne hne'
    rw [hentry k hk, if_neg hne, hg.old k hk (by omega)]
  · intro p t hp hw
    rw [hstored.walk_eq p hp]
    exact hg.mono p t hp hw
  · intro g hfree hg'
    have hnot : ¬ IsTable s₁.mem r g := by
      intro ht
      rcases hg.tables g ht with h | h
      · exact hg' h
      · exact hfree h
    rw [hstored.frame g hnot, hg.contents g hfree hg']
  · obtain ⟨used, hused, -⟩ := hg.free
    exact ⟨used, by rw [hused, hfree]⟩

theorem execStack_space (hm : m.oom ≠ .null) (hfull : m.Full) (h : Space s kpdpt d.root rest)
    (hpos : 0 < d.sz.toNat)
    (hroom : pages d.sz + s.freelist.length + 2 ≤ 2 ^ 35) :
    Ends (execStack m s d)
      (fun e => (Exhausted m e ∧ s.freelist.length < 8) ∨ (e = .panic "remap" ∧
        ∃ k, pages d.sz ≤ k ∧ k < pages d.sz + 2 ∧ has (entry s.mem d.root k) pteP = true))
      (fun x => x.2.toNat = (pages d.sz + 2) * 4096 ∧ Space x.1 kpdpt d.root rest ∧
        Stacked s x.1 d.root (pages d.sz)) := by
  have hsmall : d.sz.toNat + 4095 < 2 ^ 64 := by
    rw [pages] at hroom
    omega
  have hup := pgRoundUp_page hsmall
  have hpages := pages_pgRoundUp hsmall
  have hnew : (pgRoundUp d.sz + 0x2000).toNat = (pages d.sz + 2) * 4096 := by
    rw [BitVec.toNat_add, hup, show (0x2000 : Word).toNat = 8192 from rfl]
    omega
  have hpage : (pgRoundUp d.sz + 0x2000 - 0x2000).toNat = pages d.sz * 4096 := by
    rw [BitVec.add_sub_cancel, hup]
  have hpos' : 0 < pages d.sz := by
    rw [pages]
    omega
  unfold execStack
  generalize pgRoundUp d.sz = lo at hup hpages hnew hpage ⊢
  generalize lo + 0x2000 = hi at hnew hpage ⊢
  have hhi : pages hi = pages d.sz + 2 := by
    rw [pages, hnew]
    omega
  have halloc : Ends (allocuvm m s (kva d.root) lo hi) _ _ := allocuvm_ends hm hfull h (by omega) (by omega)
  rw [hpages, hhi] at halloc
  refine halloc.seq ?_ ?_
  · rintro e (⟨hex, hlt⟩ | ⟨he, k, h₁, h₂, -, hp⟩)
    · exact .inl ⟨hex, by omega⟩
    · exact .inr ⟨he, k, h₁, h₂, hp⟩
  · rintro ⟨s₁, sz⟩ (⟨-, hbig⟩ | ⟨-, hlt⟩ | ⟨rfl, -, hspace₁, hg⟩)
    · exact absurd hbig (by rw [hnew, show kernBase.toNat = 0xFFFF800000000000 from rfl]; omega)
    · omega
    · have hne : sz ≠ 0 := by
        rintro rfl
        simp at hnew
      simp only [if_neg hne]
      obtain ⟨f, -, hf, -⟩ := hg.new (pages d.sz) (by omega) (by omega)
      obtain ⟨t, ht⟩ := walk_of_pte hf
      refine (clearpteu_ends hfull hspace₁ hpage (by omega)).seq ?_ ?_
      · rintro e ⟨-, hnone⟩
        exact absurd (ht.symm.trans hnone) (by simp)
      · rintro s₂ ⟨hspace₂, hfree, -, hstored⟩
        exact ⟨hnew, hspace₂, stacked_of_grown hspace₁ hg (by omega) hstored hfree⟩

end Xv6.ExecStack
