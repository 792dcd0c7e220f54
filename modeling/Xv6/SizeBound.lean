import Mathlib.Data.Finset.Card
import Mathlib.Data.Fintype.Card
import Xv6.CopyUvm
import Xv6.Dedup

/-!
# How large a process can get

`allocuvm` refuses sizes from `KERNBASE` on only, so what keeps the pages of a process out of the
kernel's part of its table is the number of frames: below its size a process has a table for every
page (`Tabled`), and tables are never shared. The exception is the child of a process of 4 GB or
more, which starts with a hole (`Holed`). It cannot call `dedup`, so its pages have a frame each and
it cannot grow by another 4 GB. A process that gave back all of its pages has none to run on
(`Bare`).
-/
namespace Xv6.SizeBound

open Words Mmu Memory Kalloc PageTable AddressSpace PageNumber UserPages FreeVm CopyUvm CopyOnWrite

/-- More than the pages that the tables of all frames can map. -/
def maxTabled : Nat := 512 * (nframes + 1)

def Mapped (mem : Mem) (r n : Nat) : Prop := child (entry mem r n) ≠ none

def Tabled (mem : Mem) (r n : Nat) : Prop := ∀ k, 0 < k → k < n → walk mem r (pagePath k) ≠ none

/-- Page `c` is missing and the pages from `b` on, which is `c` up to a multiple of 4 GB, are
there and have frames of their own. -/
structure Holed (mem : Mem) (r n b c : Nat) : Prop where
  low : Tabled mem r c
  hole : ¬ Mapped mem r c
  pos : 0 < c
  lt : c < n
  few : c ≤ nframes + 1
  base : b ≤ maxTabled
  wrap : b % 2 ^ 20 = c
  high : ∀ k, b ≤ k → k < n → Mapped mem r k ∧ has (entry mem r k) pteW = true

def Bare (mem : Mem) (r : Nat) : Prop := ∀ k, k < 2 ^ 35 → ¬ Mapped mem r k

structure Sized (mem : Mem) (r n : Nat) : Prop where
  above : ∀ k, k < 2 ^ 35 → Mapped mem r k → k < n
  kind : Tabled mem r n ∨ (∃ b c, Holed mem r n b c) ∨ (Bare mem r ∧ n ≤ maxTabled + nframes)

variable {m : Machine} {s s' : State} {mem mem' : Mem} {kpdpt r d b c f n n' k : Nat} {rest : List Nat}

theorem Mapped.exists (h : Mapped mem r k) : ∃ f, child (entry mem r k) = some f := Option.ne_none_iff_exists'.mp h

theorem maxTabled_eq : maxTabled = 29360640 := rfl

theorem maxTabled_lt : maxTabled + nframes < 2 ^ 25 := by norm_num [maxTabled_eq, nframes_eq]

/-- A set of frames has at most `nframes` members. -/
theorem frames_pigeonhole (frame : Nat → Nat) (hlt : ∀ k ≤ nframes, frame k < nframes)
    (hinj : ∀ j k, j ≤ nframes → k ≤ nframes → frame j = frame k → j = k) : False := by
  have hcard : (Finset.range (nframes + 1)).card ≤ (Finset.range nframes).card := by
    refine Finset.card_le_card_of_injOn frame ?_ ?_
    · intro k hk
      have hk := Finset.mem_range.mp (Finset.mem_coe.mp hk)
      exact Finset.mem_coe.mpr (Finset.mem_range.mpr (hlt k (by omega)))
    · intro j hj k hk hjk
      have hj := Finset.mem_range.mp (Finset.mem_coe.mp hj)
      have hk := Finset.mem_range.mp (Finset.mem_coe.mp hk)
      exact hinj j k (by omega) (by omega) hjk
  rw [Finset.card_range, Finset.card_range] at hcard
  omega

/-- Each block of 512 pages has a table of its own. -/
theorem tabled_bound (hs : Shape mem kpdpt r) (h : Tabled mem r n) : n ≤ maxTabled := by
  by_contra hlt
  have hM := maxTabled_eq
  have hN := nframes_eq
  have hwalk : ∀ k ≤ nframes, ∃ t, walk mem r (pagePath (512 * (k + 1))) = some t :=
    fun k hk => Option.ne_none_iff_exists'.mp (h (512 * (k + 1)) (by omega) (by omega))
  choose! block hblock using hwalk
  refine frames_pigeonhole block ?_ ?_
  · intro k hk
    exact (hs.managed _ _ (by simp) (hblock k hk)).lt
  · intro j k hj hk hjk
    have hpath := hs.uniq _ _ _ (by simp) (by simp) (hblock j hj) (hjk ▸ hblock k hk)
    have := pagePath_inj (by omega) (by omega) hpath (by omega)
    omega

/-- Writable pages have different frames. -/
theorem writable_bound (h : Space s kpdpt r rest) (hb : b ≤ maxTabled)
    (hw : ∀ k, b ≤ k → k < n → Mapped s.mem r k ∧ has (entry s.mem r k) pteW = true) : n ≤ b + nframes := by
  by_contra hlt
  have hN := maxTabled_lt
  have hchild : ∀ k ≤ nframes, ∃ f, child (entry s.mem r (b + k)) = some f :=
    fun k hk => (hw (b + k) (by omega) (by omega)).1.exists
  choose! frame hframe using hchild
  refine frames_pigeonhole frame ?_ ?_
  · intro k hk
    exact (h.owned.of_held (List.mem_append_left _ (leaf_mem_treeRefs h.tree.shape (by omega) (hframe k hk)))).lt
  · intro j k hj hk hjk
    by_contra hne
    have hfrozen := frozen_of_shared h.tree (by omega) (by omega) (show b + j ≠ b + k by omega) (hframe j hj)
      (hjk ▸ hframe k hk)
    have hwritable := (hw (b + j) (by omega) (by omega)).2
    rw [hfrozen.2] at hwritable
    exact absurd hwritable (by simp)

/-- No process is near the end of the user part of its table. -/
theorem Sized.bound (hz : Sized s.mem r n) (h : Space s kpdpt r rest) : n ≤ maxTabled + nframes := by
  rcases hz.kind with ht | ⟨b, c, hh⟩ | ⟨-, hb⟩
  · have := tabled_bound h.tree.shape ht
    omega
  · have := writable_bound h hh.base hh.high
    have := hh.base
    omega
  · exact hb

theorem mapped_congr (h : child (entry mem' r k) = child (entry mem r k)) : Mapped mem' r k ↔ Mapped mem r k := by
  rw [Mapped, Mapped, h]

theorem Tabled.mono (h : Tabled mem r n) (hle : n' ≤ n) : Tabled mem r n' :=
  fun k h₁ h₂ => h k h₁ (by omega)

/-- The size is a matter of the table pages. -/
theorem Sized.congr (h : Sized mem r n) (hsame : ∀ t, IsTable mem r t → mem' t = mem t) : Sized mem' r n := by
  have hentry : ∀ k, entry mem' r k = entry mem r k := fun k => pte_tables hsame rfl
  have hwalk : ∀ k, walk mem' r (pagePath k) = walk mem r (pagePath k) := fun k => walk_tables hsame (by simp)
  have hmapped : ∀ k, Mapped mem' r k ↔ Mapped mem r k := fun k => mapped_congr (by rw [hentry])
  have htabled : ∀ n, Tabled mem r n → Tabled mem' r n := by
    intro n ht k h₁ h₂
    rw [hwalk]
    exact ht k h₁ h₂
  refine ⟨fun k hk hm => h.above k hk ((hmapped k).mp hm), ?_⟩
  rcases h.kind with ht | ⟨b, c, hh⟩ | ⟨hbare, hb⟩
  · exact .inl (htabled n ht)
  · refine .inr (.inl ⟨b, c, htabled c hh.low, fun hm => hh.hole ((hmapped c).mp hm), hh.pos, hh.lt,
      hh.few, hh.base,
      hh.wrap, ?_⟩)
    intro k h₁ h₂
    rw [hmapped, hentry]
    exact hh.high k h₁ h₂
  · exact .inr (.inr ⟨fun k hk hm => hbare k hk ((hmapped k).mp hm), hb⟩)

theorem sized_made (h : Made s s' r) : Sized s'.mem r 1 := by
  refine ⟨?_, .inl (fun k h₁ h₂ => by omega)⟩
  intro k _ hm
  rw [Mapped, h.entry_eq, show child 0 = none from child_zero] at hm
  exact absurd rfl hm

theorem tabled_grown {New : Nat → Nat → Word → Page → Prop} (hg : Grown New s s' r n n') (ht : Tabled s.mem r n) :
    Tabled s'.mem r n' := by
  intro k h₁ h₂
  by_cases hk : k < n
  · obtain ⟨t, hw⟩ := Option.ne_none_iff_exists'.mp (ht k h₁ hk)
    rw [hg.mono _ t (by simp) hw]
    simp
  · obtain ⟨f, -, hc, -⟩ := hg.new k (by omega) h₂
    obtain ⟨t, hw⟩ := walk_of_pte hc
    rw [hw]
    simp

theorem above_grown {New : Nat → Nat → Word → Page → Prop} (hg : Grown New s s' r n n') (hle : n ≤ n')
    (h : ∀ k, k < 2 ^ 35 → Mapped s.mem r k → k < n) (k : Nat) (hk : k < 2 ^ 35)
    (hm : Mapped s'.mem r k) : k < n' := by
  by_contra hge
  rw [Mapped, hg.old k (by omega) (.inr (by omega))] at hm
  have := h k hk hm
  omega

section

variable (hz : Sized s.mem r n)
include hz

theorem Sized.grown (hg : Grown Zeroed s s' r n n') (hle : n ≤ n') (hn : n ≤ 2 ^ 35)
    (hrun : Tabled s.mem r n ∨ ¬ Bare s.mem r) : Sized s'.mem r n' := by
  refine ⟨above_grown hg hle hz.above, ?_⟩
  rcases hz.kind with ht | ⟨b, c, hh⟩ | ⟨hbare, -⟩
  · exact .inl (tabled_grown hg ht)
  · have hlt := hh.lt
    refine .inr (.inl ⟨b, c, ?_, ?_, hh.pos, by omega, hh.few, hh.base, hh.wrap, ?_⟩)
    · intro k h₁ h₂
      obtain ⟨t, hw⟩ := Option.ne_none_iff_exists'.mp (hh.low k h₁ h₂)
      rw [hg.mono _ t (by simp) hw]
      simp
    · rw [Mapped, hg.old c (by omega) (.inl hlt)]
      exact hh.hole
    · intro k h₁ h₂
      by_cases hk : k < n
      · rw [Mapped, hg.old k (by omega) (.inl hk)]
        exact hh.high k h₁ hk
      · obtain ⟨f, -, hc, he, -⟩ := hg.new k (by omega) h₂
        refine ⟨by rw [Mapped, hc]; simp, ?_⟩
        rw [he, has_freshEntry isFlags_pteW]
        decide
  · exact .inl (tabled_grown hg (hrun.resolve_right (not_not_intro hbare)))

theorem Sized.above_shrunk (h : Shrunk s s' r n' n rest) (hk : k < 2 ^ 35)
    (hge : n' ≤ k) : ¬ Mapped s'.mem r k := by
  intro hm
  by_cases hkn : k < n
  · exact hm (h.gone k hge hkn)
  · rw [Mapped, h.old k (by omega) (.inr (by omega))] at hm
    exact hkn (hz.above k hk hm)

theorem Sized.shrunk (h : Shrunk s s' r n' n rest) (hle : n' ≤ n) (hn : n ≤ 2 ^ 35)
    (hrun : ¬ Bare s.mem r) : Sized s'.mem r n' := by
  have hwalk : ∀ k, walk s'.mem r (pagePath k) = walk s.mem r (pagePath k) := fun k => h.walk_eq _ (by simp)
  have hlow : ∀ j, Tabled s.mem r j → Tabled s'.mem r j := by
    intro j ht k h₁ h₂
    rw [hwalk]
    exact ht k h₁ h₂
  refine ⟨?_, ?_⟩
  · intro k hk hm
    by_contra hge
    exact hz.above_shrunk h hk (by omega) hm
  · rcases hz.kind with ht | ⟨b, c, hh⟩ | ⟨hbare, -⟩
    · exact .inl (hlow n' (ht.mono hle))
    · have hlt := hh.lt
      by_cases hc : n' ≤ c
      · exact .inl (hlow n' (hh.low.mono hc))
      · refine .inr (.inl ⟨b, c, hlow c hh.low, ?_, hh.pos, by omega, hh.few, hh.base, hh.wrap, ?_⟩)
        · rw [Mapped, h.old c (by omega) (.inl (by omega))]
          exact hh.hole
        · intro k h₁ h₂
          rw [Mapped, h.old k (by omega) (.inl h₂)]
          exact hh.high k h₁ (by omega)
    · exact absurd hbare hrun

/-- After `sbrk` to size 0, which keeps the old size, no page is left. -/
theorem Sized.emptied (h : Shrunk s s' r 0 n rest) (hn : n ≤ maxTabled + nframes) :
    Sized s'.mem r n := by
  have hbare : Bare s'.mem r := fun k hk => hz.above_shrunk h hk (Nat.zero_le k)
  exact ⟨fun k hk hm => absurd hm (hbare k hk), .inr (.inr ⟨hbare, hn⟩)⟩

/-- The same tables and pages. -/
theorem Sized.view (hv : SameView s.mem s'.mem r) (ht : Tabled s.mem r n) : Sized s'.mem r n := by
  refine ⟨?_, .inl ?_⟩
  · intro k hk hm
    refine hz.above k hk ?_
    intro hnone
    refine hm (child_eq_none.mpr ?_)
    rw [hv.present k hk]
    exact child_eq_none.mp hnone
  · intro k h₁ h₂
    rw [hv.walk_eq _ (by simp)]
    exact ht k h₁ h₂

/-- A page moves to a frame of its own. -/
theorem Sized.renewed {f' : Nat} (hr : Renewed s s' r k f f' rest) (hf : Managed f')
    (hn : n ≤ 2 ^ 35) (hc : child (entry s.mem r k) = some f) : Sized s'.mem r n := by
  have hmapped : ∀ j, j < 2 ^ 36 → (Mapped s'.mem r j ↔ Mapped s.mem r j) := by
    intro j hj
    rw [Mapped, Mapped, hr.map j hj]
    by_cases he : j = k
    · subst he
      rw [if_pos rfl, child_ownEntry hf, hc]
      simp
    · rw [if_neg he]
  have hwritable : ∀ j, j < 2 ^ 36 → has (entry s.mem r j) pteW = true → has (entry s'.mem r j) pteW = true := by
    intro j hj hw
    rw [hr.map j hj]
    by_cases he : j = k
    · rw [if_pos he, has_ownEntry isFlags_pteW]
      decide
    · rw [if_neg he, hw]
  have hlow : ∀ j, Tabled s.mem r j → Tabled s'.mem r j := by
    intro j ht i h₁ h₂
    rw [hr.walk_eq _ (by simp)]
    exact ht i h₁ h₂
  refine ⟨fun j hj hm => hz.above j hj ((hmapped j (by omega)).mp hm), ?_⟩
  rcases hz.kind with ht | ⟨b, c, hh⟩ | ⟨hbare, hb⟩
  · exact .inl (hlow n ht)
  · have hlt := hh.lt
    refine .inr (.inl ⟨b, c, hlow c hh.low, ?_, hh.pos, hlt, hh.few, hh.base, hh.wrap, ?_⟩)
    · rw [hmapped c (by omega)]
      exact hh.hole
    · intro j h₁ h₂
      have hj := hh.high j h₁ h₂
      exact ⟨(hmapped j (by omega)).mpr hj.1, hwritable j (by omega) hj.2⟩
  · exact .inr (.inr ⟨fun j hj hm => hbare j hj ((hmapped j (by omega)).mp hm), hb⟩)

end

/-- The pages that `copyuvm` copies: the size as a `uint`. -/
theorem pages_setWidth (sz : Word) : ∃ q, pages sz = q * 2 ^ 20 + pages ((sz.setWidth 32).setWidth 64) := by
  have hlow : ((sz.setWidth 32).setWidth 64).toNat = sz.toNat % 2 ^ 32 := by
    simp [BitVec.toNat_setWidth]
    omega
  refine ⟨sz.toNat / 2 ^ 32, ?_⟩
  rw [pages, pages, hlow]
  omega

/-- A child is no larger than its parent could get by itself. -/
theorem Sized.copied {sz : Word} (hz : Sized s.mem r (pages sz)) (h : Space s kpdpt r rest)
    (hrun : ¬ Bare s.mem r) (hlen : s.freelist.length ≤ nframes)
    (hcopy : Copied s s' r d (pages ((sz.setWidth 32).setWidth 64))) : Sized s'.mem d (pages sz) := by
  obtain ⟨q, hq⟩ := pages_setWidth sz
  generalize pages ((sz.setWidth 32).setWidth 64) = x at hcopy hq
  generalize pages sz = n at hz hq ⊢
  have hN := maxTabled_lt
  have hfew : x ≤ nframes + 1 := by
    obtain ⟨used, hused, hlo, -⟩ := hcopy.free
    have := congrArg List.length hused
    simp only [List.length_append] at this
    omega
  have hunmapped : ∀ k, k < 2 ^ 36 → (k = 0 ∨ x ≤ k) → ¬ Mapped s'.mem d k := by
    intro k hk hout hm
    rw [Mapped, hcopy.others k hk hout, show child 0 = none from child_zero] at hm
    exact hm rfl
  have htabled : Tabled s'.mem d x := by
    intro k h₁ h₂
    obtain ⟨f, -, hc, -⟩ := hcopy.page k h₁ h₂
    obtain ⟨t, hw⟩ := walk_of_pte hc
    rw [hw]
    simp
  have habove : ∀ k, k < 2 ^ 35 → Mapped s'.mem d k → k < n := by
    intro k hk hm
    by_contra hge
    exact hunmapped k (by omega) (.inr (by omega)) hm
  have hbound : n ≤ maxTabled := by
    rcases hz.kind with ht | ⟨b, c, hh⟩ | ⟨hbare, -⟩
    · exact tabled_bound h.tree.shape ht
    · have hhigh := writable_bound h hh.base hh.high
      have hle : x ≤ c := by
        by_contra hlt
        obtain ⟨f, -, -, g, hg, -⟩ := hcopy.page c hh.pos (by omega)
        exact hh.hole (by rw [Mapped, hg]; simp)
      have hbase := hh.base
      have hwrap := hh.wrap
      have hcfew := hh.few
      have hN₁ := nframes_eq
      omega
    · exact absurd hbare hrun
  refine ⟨habove, ?_⟩
  by_cases hx : x = 0 ∨ x = 1
  · refine .inr (.inr ⟨?_, by omega⟩)
    intro k hk
    exact hunmapped k (by omega) (by omega)
  · by_cases hxn : n = x
    · rw [hxn]
      exact .inl htabled
    · refine .inr (.inl ⟨n, x, htabled, hunmapped x (by omega) (.inr (by omega)), by omega,
        by omega, hfew, hbound, ?_,
        fun k h₁ h₂ => by omega⟩)
      have hN₁ := nframes_eq
      omega

end Xv6.SizeBound
