import Xv6.TableGrowth

/-!
# The software walk against the hardware walk

What `uva2ka` should find is what the processor finds: `hwWalk` checks that the address is
canonical, follows four levels of present entries, stops at an entry with `PTE_PS` and collects the
permissions of every level. To see what the software walk dereferences, it is run on a machine that
has no memory but the page-table pages, `confined`.
-/
namespace Xv6.PageWalk

open Words Mmu Memory Kalloc Vm RadixTree PageTable TableGrowth Function

variable {t f : Nat} {x : Int} {mem : Mem}

def canonical (va : Word) : Bool := va.toNat < 2 ^ 47 || 2 ^ 64 - 2 ^ 47 ≤ va.toNat

/-- A page as the processor finds it: its first frame, its number of frames and its permissions. -/
structure HwPage where
  frame : Nat
  span : Nat
  user : Bool
  writable : Bool
  deriving DecidableEq, Repr

def hwPage (span : Nat) (leaf : Word) (es : List Word) : HwPage :=
  ⟨frameOf leaf, span, es.all (fun e => has e pteU), es.all (fun e => has e pteW)⟩

def hwWalk (mem : Mem) (r : Nat) (va : Word) : Option HwPage :=
  let e4 := mem r (pmx va)
  let e3 := mem (frameOf e4) (pdpx va)
  let e2 := mem (frameOf e3) (pdx va)
  let e1 := mem (frameOf e2) (ptx va)
  if canonical va = false then none
  else if has e4 pteP = false then none
  else if has e3 pteP = false then none
  else if has e3 ptePS then some (hwPage (512 * 512) e3 [e4, e3])
  else if has e2 pteP = false then none
  else if has e2 ptePS then some (hwPage 512 e2 [e4, e3, e2])
  else if has e1 pteP = false then none
  else some (hwPage 1 e1 [e4, e3, e2, e1])

/-- The kernel address of the user-accessible 4 KB page that the processor finds at `va`, or 0. -/
def hwUser (mem : Mem) (r : Nat) (va : Word) : Word :=
  match hwWalk mem r va with
  | none => 0
  | some pg => if pg.span = 1 ∧ pg.user = true then kva pg.frame else 0

def pageTablePages (mem : Mem) (kpdpt r : Nat) : List Nat :=
  kpdpt :: r :: refs child (fun _ => npdEntries) (userMem mem r) 3 r

/-- The machine with no memory but the given frames. -/
def confined (m : Machine) (frames : List Nat) : Machine :=
  { m with ram := fun f => m.ram f && decide (f ∈ frames) }

/-- The shared table as `kvmalloc` fills it: the first and the fourth gigabyte, as large pages. -/
def kernelPdpt : Nat → Word :=
  update (update (fun _ => 0) 0 (0 ||| ptePS ||| pteP ||| pteW)) 3
    (0xC0000000 ||| ptePS ||| pteP ||| pteW ||| ptePWT ||| ptePCD)

/-- The allocator's books are right and hold the shared table. -/
def Ready (kpdpt : Nat) (s : State) : Prop :=
  s.mem kpdpt = kernelPdpt ∧ ∃ held, Owned Managed s held ∧ kpdpt ∈ held

/-- The tables that `setupkvm` makes and `mappages` extends, at pages outside the slot of the
kernel, while the rest of the kernel leaves their pages alone. -/
inductive Built (kpdpt : Nat) : State → Nat → Prop
  | setup {s s' : State} {r : Nat} (hready : Ready kpdpt s)
      (hrun : setupkvm pc (kva kpdpt) s = .ok (s', kva r)) (hr : r < nframes) : Built kpdpt s' r
  | map {s s' : State} {r : Nat} {va size pa perm : Word} {ret : Int} (hbuilt : Built kpdpt s r)
      (hrange : ∀ k ≤ (pgRoundDown (va + size - 1) - pgRoundDown va).toNat / pgSize,
        pmx (pgRoundDown va + BitVec.ofNat 64 (k * pgSize)) ≠ 256)
      (hpa : pa.toNat + (pgRoundDown (va + size - 1) - pgRoundDown va).toNat + pgSize ≤ 2 ^ 47)
      (hperm : IsFlags perm) (hrun : mappages pc s (kva r) va size pa perm = .ok (s', ret)) : Built kpdpt s' r
  | other {s s' : State} {r : Nat} (hbuilt : Built kpdpt s r)
      (hsame : ∀ f ∈ pageTablePages s.mem kpdpt r, s'.mem f = s.mem f)
      (hbooks : ∃ held, Owned Managed s' held ∧ ∀ f ∈ pageTablePages s.mem kpdpt r, f ∈ held) : Built kpdpt s' r

structure Table (kpdpt : Nat) (s : State) (r : Nat) : Prop where
  shape : Shape s.mem kpdpt r
  shared : s.mem kpdpt = kernelPdpt
  apart : ∀ p, p.length < 4 → walk s.mem r p ≠ some kpdpt
  indices : ∀ p t, p.length < 4 → walk s.mem r p = some t → ∀ i ∈ p, i < 512
  books : ∃ held, Owned Managed s held ∧ TablesIn s.mem r held ∧ kpdpt ∈ held
  leaf : ∀ p i, p.length = 3 → has (pte s.mem r p i) pteP = true → frameOf (pte s.mem r p i) < 2 ^ 35

variable {kpdpt r : Nat} {s s' : State} {va a pa perm : Word}

theorem pc_oom : pc.oom ≠ .null := by decide

theorem Table.mem_pages (h : Table kpdpt s r) {p : List Nat} (hp : p.length < 4)
    (hw : walk s.mem r p = some t) : t ∈ pageTablePages s.mem kpdpt r := by
  by_cases hne : p = []
  · subst hne
    obtain rfl := Option.some.inj hw
    simp [pageTablePages]
  · have hin : ∀ (n : Nat) (q : List Nat), q.length ≤ n → (∀ i ∈ q, i < 512) →
      Inside (fun _ => npdEntries) n q := by
      intro n q
      induction q generalizing n with
      | nil => simp
      | cons i q ih =>
        intro hlen hlt
        simp only [List.length_cons] at hlen
        exact ⟨by omega, hlt i (by simp), ih (n - 1) (by omega) (fun j hj => hlt j (by simp [hj]))⟩
    have hmem := mem_refs.mpr ⟨p, hne, hin 3 p (by omega) (h.indices p t hp hw), hw⟩
    simp [pageTablePages, hmem]

theorem table_setup (hready : Ready kpdpt s) (hrun : setupkvm pc (kva kpdpt) s = .ok (s', kva r))
    (hr : r < nframes) : Table kpdpt s' r := by
  obtain ⟨hshared, held, hown, hin⟩ := hready
  obtain ⟨r', rest, -, hnot, hptr, hmap, hman, hframe, -, -, hown'⟩ :=
    (setupkvm_ends kpdpt pc_oom pc_full hown).of_ok hrun
  have hsmall : r < 2 ^ 35 := by
    rw [nframes_eq] at hr
    omega
  obtain rfl := kva_injective hsmall hman.small hptr
  have hne : kpdpt ≠ r := by
    rintro rfl
    exact hnot hin
  have hnil : ∀ p t, walk s'.mem r p = some t → p = [] ∧ t = r := by
    intro p t hw
    by_cases hp : p = []
    · subst hp
      exact ⟨rfl, (Option.some.inj hw).symm⟩
    · rw [walk_emptyMap hmap hp] at hw
      cases hw
  refine ⟨shape_emptyMap hmap hman, by rw [hframe kpdpt hne, hshared], ?_, ?_,
    ⟨r :: held, hown', ?_, by simp [hin]⟩, ?_⟩
  · intro p _ hw
    exact hne (hnil p kpdpt hw).2
  · intro p t _ hw i hi
    rw [(hnil p t hw).1] at hi
    cases hi
  · intro p t _ hw
    rw [(hnil p t hw).2]
    simp
  · intro p i hp hpres
    rw [pte_of_none (walk_emptyMap hmap (by rintro rfl; simp at hp))] at hpres
    simp at hpres

theorem table_mapPage (h : Table kpdpt s r) (ha : pmx a ≠ 256) (hpa : pa.toNat < 2 ^ 47)
    (hperm : IsFlags perm) (hrun : mapPage pc s (kva r) perm a pa = .ok (s', x)) : Table kpdpt s' r := by
  obtain ⟨held, hown, htab, hin⟩ := h.books
  obtain ⟨s₁, t, new, heq, -, hw, hshape, hown₁, -, hext, -⟩ :=
    (mapPage_ends False perm pa pc_oom pc_full h.shape hown htab ha (fun hf => hf.elim)).of_ok hrun
  obtain ⟨rfl, rfl⟩ := Prod.mk.inj heq
  have hnew : kpdpt ∉ new := by
    intro hn
    have hfree : kpdpt ∈ s.freelist := by
      rw [hext.free]
      simp [hn]
    exact hown.counted.not_mem_held hfree hin
  have hapart : ∀ p, p.length < 4 → walk s₁.mem r p ≠ some kpdpt := by
    intro p hp hw'
    rcases hext.tables p kpdpt hp hw' with hw' | ⟨hn, -⟩
    · exact h.apart p hp hw'
    · exact hnew hn
  have htables := fun q hq => walk_setPte_table (i := ptx a) (e := pa ||| perm ||| pteP) hshape rfl hw q hq
  refine ⟨shape_setPte hshape rfl hw, ?_, ?_, ?_, ⟨new ++ held, hown₁.congr rfl rfl, ?_, by simp [hin]⟩, ?_⟩
  · have hkt : kpdpt ≠ t := by
      rintro rfl
      exact hapart _ (by simp [path]) hw
    simp only [setWord_other hkt]
    rw [hext.frame kpdpt hnew (fun p hp => h.apart p (by omega)), h.shared]
  · intro p hp
    simp only [htables p hp]
    exact hapart p hp
  · intro p u hp hu
    simp only [htables p hp] at hu
    rcases hext.tables p u hp hu with hu | ⟨-, hidx, -⟩
    · exact h.indices p u hp hu
    · exact hidx
  · intro p u hp hu
    simp only [htables p hp] at hu
    exact htab.extends hext p u hp hu
  · intro p i hp hpres
    simp only [pte_setPte hshape rfl hw p hp i] at hpres ⊢
    split at hpres
    · rename_i he
      rw [if_pos he, frameOf_or isFlags_pteP, frameOf_or hperm, frameOf_eq]
      omega
    · rename_i he
      rw [if_neg he]
      rw [hext.map p i hp] at hpres ⊢
      exact h.leaf p i hp hpres

theorem table_mapLoop (n : Nat) (h : Table kpdpt s r) (hperm : IsFlags perm)
    (hrange : ∀ k < n, pmx (a + BitVec.ofNat 64 (k * pgSize)) ≠ 256) (hpa : pa.toNat + n * pgSize ≤ 2 ^ 47)
    (hrun : mapLoop pc (kva r) perm n s a pa = .ok (s', x)) : Table kpdpt s' r := by
  induction n generalizing s a pa with
  | zero =>
    obtain ⟨rfl, rfl⟩ := Prod.mk.inj (Except.ok.inj hrun)
    exact h
  | succ n ih =>
    rw [mapLoop, bind_eq_ok] at hrun
    obtain ⟨⟨s₁, y⟩, hpage, hrest⟩ := hrun
    simp only [pgSize] at hpa hrange
    have h₁ := table_mapPage h (by simpa using hrange 0 (by omega)) (by omega) hperm hpage
    simp only at hrest
    split at hrest
    · obtain ⟨rfl, rfl⟩ := Prod.mk.inj (Except.ok.inj hrest)
      exact h₁
    · refine ih h₁ ?_ ?_ hrest
      · intro k hk
        have := hrange (k + 1) (by omega)
        rw [show (k + 1) * 4096 = 4096 + k * 4096 by omega, BitVec.ofNat_add] at this
        rw [BitVec.add_assoc]
        exact this
      · have hadd : (pa + 0x1000).toNat = pa.toNat + 4096 := by
          rw [BitVec.toNat_add, show (0x1000 : Word).toNat = 4096 from rfl, Nat.mod_eq_of_lt (by omega)]
        rw [hadd, pgSize]
        omega

theorem table_other (h : Table kpdpt s r) (hsame : ∀ f ∈ pageTablePages s.mem kpdpt r, s'.mem f = s.mem f)
    (hbooks : ∃ held, Owned Managed s' held ∧ ∀ f ∈ pageTablePages s.mem kpdpt r, f ∈ held) :
    Table kpdpt s' r := by
  have htab : ∀ p t, p.length < 4 → walk s.mem r p = some t → s'.mem t = s.mem t :=
    fun p t hp hw => hsame t (h.mem_pages hp hw)
  have hwalk : ∀ p, p.length < 4 → walk s'.mem r p = walk s.mem r p :=
    fun p hp => walk_congr p (fun q t hq hw => htab q t (by omega) hw)
  obtain ⟨held, hown, hin⟩ := hbooks
  refine ⟨h.shape.congr htab, ?_, ?_, ?_, ⟨held, hown, ?_, hin kpdpt (by simp [pageTablePages])⟩, ?_⟩
  · rw [hsame kpdpt (by simp [pageTablePages]), h.shared]
  · intro p hp
    rw [hwalk p hp]
    exact h.apart p hp
  · intro p t hp hw
    rw [hwalk p hp] at hw
    exact h.indices p t hp hw
  · intro p t hp hw
    rw [hwalk p hp] at hw
    exact hin t (h.mem_pages hp hw)
  · intro p i hp hpres
    have hpte : pte s'.mem r p i = pte s.mem r p i := by
      simp only [pte, hwalk p (by omega)]
      cases hw : walk s.mem r p with
      | none => rfl
      | some t => simp only [htab p t (by omega) hw]
    rw [hpte] at hpres ⊢
    exact h.leaf p i hp hpres

theorem Built.table (h : Built kpdpt s r) : Table kpdpt s r := by
  induction h with
  | setup hready hrun hr => exact table_setup hready hrun hr
  | map _ hrange hpa hperm hrun ih =>
    rw [mappages] at hrun
    refine table_mapLoop _ ih hperm (fun k hk => hrange k (by omega)) ?_ hrun
    simp only [pgSize] at hpa ⊢
    omega
  | other _ hsame hbooks ih => exact table_other ih hsame hbooks

theorem Table.reaches (h : Table kpdpt s r) : Reaches (confined pc (pageTablePages s.mem kpdpt r)) s.mem r := by
  intro p t hp hw
  have hram := (h.shape.managed p t hp hw).ram pc_full
  simp [confined, hram, h.mem_pages hp hw]

theorem Table.managed_pages (h : Table kpdpt s r) (hf : f ∈ pageTablePages s.mem kpdpt r) : Managed f := by
  simp only [pageTablePages, List.mem_cons] at hf
  rcases hf with rfl | rfl | hf
  · obtain ⟨held, hown, -, hin⟩ := h.books
    exact hown.of_held hin
  · exact h.shape.root
  · obtain ⟨p, -, hin, hw⟩ := mem_refs.mp hf
    have := hin.length_le
    exact h.shape.managed p f (by omega) hw

theorem child_kernelPdpt_zero : child (kernelPdpt 0) = some 0 := by decide

theorem child_kernelPdpt_three : child (kernelPdpt 3) = some 0xC0000 := by decide

/-- The walk leaves the page-table pages for the memory that a large page maps. -/
theorem read_outside (h : Table kpdpt s r) {i : Nat} (hf : f < 2 ^ 35) (hi : i < 512) (hout : ¬ Managed f) :
    read (confined pc (pageTablePages s.mem kpdpt r)) s (entryPtr (kva f) i) =
      .error (.pageFault (entryPtr (kva f) i)) := by
  have hnot : f ∉ pageTablePages s.mem kpdpt r := fun hm => hout (h.managed_pages hm)
  rw [Xv6.Memory.read, access, if_neg (entryPtr_ne_zero hf hi), ptrFrame_entryPtr hf hi,
    if_neg (by simp [confined, hnot])]
  rfl

/-- No address of the kernel's slot comes out of `uva2ka` by way of page-table pages. -/
theorem uva2ka_kernel (h : Table kpdpt s r) (hva : pmx va = 256) (w : Word) :
    uva2ka (confined pc (pageTablePages s.mem kpdpt r)) s (kva r) va ≠ .ok w := by
  have hrman := h.shape.root
  have hrram := h.reaches [] r (by simp) rfl
  have hkmem : kpdpt ∈ pageTablePages s.mem kpdpt r := by simp [pageTablePages]
  have hkman := h.managed_pages hkmem
  have hkram : (confined pc (pageTablePages s.mem kpdpt r)).ram kpdpt = true := by
    simp [confined, hkmem, hkman.ram pc_full]
  obtain ⟨hpres, hfr⟩ := child_eq_some.mp (child_kernelEntry (by have := hkman.small; omega : kpdpt < 2 ^ 52))
  have n₁ : nextTable (confined pc (pageTablePages s.mem kpdpt r)) s (entryPtr (kva r) (pmx va)) false =
      .ok (s, some (kva kpdpt)) := by
    rw [nextTable, hva, read_entryPtr hrman.small hrram (by omega), ok_bind, h.shape.kernel,
      if_pos hpres, p2v_pteAddr,
      hfr]
    rfl
  have hread : read (confined pc (pageTablePages s.mem kpdpt r)) s (entryPtr (kva kpdpt) (pdpx va)) =
      .ok (kernelPdpt (pdpx va)) := by
    rw [read_entryPtr hkman.small hkram (pdpx_lt va), h.shared]
  have hlarge : ∀ f, f < 2 ^ 35 → ¬ Managed f → child (kernelPdpt (pdpx va)) = some f →
      uva2ka (confined pc (pageTablePages s.mem kpdpt r)) s (kva r) va ≠ .ok w := by
    intro f hf hout hc
    obtain ⟨hp, hfr'⟩ := child_eq_some.mp hc
    have n₂ : nextTable (confined pc (pageTablePages s.mem kpdpt r)) s (entryPtr (kva kpdpt) (pdpx va)) false =
        .ok (s, some (kva f)) := by
      rw [nextTable, hread, ok_bind, if_pos hp, p2v_pteAddr, hfr']
      rfl
    have n₃ : nextTable (confined pc (pageTablePages s.mem kpdpt r)) s (entryPtr (kva f) (pdx va)) false =
        .error (.pageFault (entryPtr (kva f) (pdx va))) := by
      rw [nextTable, read_outside h hf (pdx_lt va) hout, error_bind]
    rw [uva2ka, walkpgdir, n₁, ok_bind]
    simp only
    rw [n₂, ok_bind]
    simp only
    rw [n₃, error_bind, error_bind]
    exact fun hc => by cases hc
  by_cases h₀ : pdpx va = 0
  · exact hlarge 0 (by omega) (fun hm => by have := hm.1; omega) (by rw [h₀]; exact child_kernelPdpt_zero)
  · by_cases h₃ : pdpx va = 3
    · exact hlarge 0xC0000 (by omega) (fun hm => by have := hm.2; rw [nframes_eq] at this; omega)
        (by rw [h₃]; exact child_kernelPdpt_three)
    · have hzero : has (kernelPdpt (pdpx va)) pteP = false := by
        rw [kernelPdpt, update_of_ne h₃, update_of_ne h₀]
        exact has_zero pteP
      have n₂ : nextTable (confined pc (pageTablePages s.mem kpdpt r)) s (entryPtr (kva kpdpt) (pdpx va)) false =
          .ok (s, none) := by
        rw [nextTable, hread, ok_bind, if_neg (by simp [hzero]), if_pos rfl]
        rfl
      rw [uva2ka, walkpgdir, n₁, ok_bind]
      simp only
      rw [n₂, ok_bind]
      exact fun hc => by cases hc

theorem has_tableEntry_ps (f : Nat) : has (tableEntry f) ptePS = false := by
  rw [tableEntry_eq, has_frameAddr_or f _ (isFlags_of_lt (by decide))]
  decide

theorem has_tableEntry_u (f : Nat) : has (tableEntry f) pteU = true := by
  rw [tableEntry_eq, has_frameAddr_or f _ isFlags_pteU]
  decide

theorem has_tableEntry_w (f : Nat) : has (tableEntry f) pteW = true := by
  rw [tableEntry_eq, has_frameAddr_or f _ isFlags_pteW]
  decide

/-- Where the tables are there, the processor goes through them too. -/
theorem hwWalk_of_walk (h : Shape mem kpdpt r) (hva : pmx va ≠ 256)
    (hcan : canonical va = true) (hw : walk mem r (path va) = some t) :
    hwWalk mem r va = if has (mem t (ptx va)) pteP = true then
      some ⟨frameOf (mem t (ptx va)), 1, has (mem t (ptx va)) pteU, has (mem t (ptx va)) pteW⟩ else none := by
  have hstep : ∀ p t' u i, p.length < 3 → walk mem r p = some t' → (p = [] → i ≠ 256) →
      child (userMem mem r t' i) = some u → mem t' i = tableEntry u := by
    intro p t' u i hp hw' hk hc
    obtain ⟨hpres, hfr⟩ := child_eq_some.mp hc
    have := h.entry p t' i hp hw' hpres
    rwa [hfr, h.slot (by omega) hw' hk] at this
  rw [path, walk_three] at hw
  obtain ⟨t₂, hw₂, hc₃⟩ := Option.bind_eq_some_iff.mp hw
  have hw₂' := hw₂
  rw [walk_two] at hw₂
  obtain ⟨t₁, hw₁, hc₂⟩ := Option.bind_eq_some_iff.mp hw₂
  have hc₁ : child (userMem mem r r (pmx va)) = some t₁ := by
    simpa [walk, follow] using hw₁
  have e₁ := hstep [] r t₁ (pmx va) (by simp) rfl (fun _ => hva) hc₁
  have e₂ := hstep [pmx va] t₁ t₂ (pdpx va) (by simp) hw₁ (by simp) hc₂
  have e₃ := hstep [pmx va, pdpx va] t₂ t (pdx va) (by simp) hw₂' (by simp) hc₃
  have hdec : ∀ p u, p.length < 4 → walk mem r p = some u →
      has (tableEntry u) pteP = true ∧ frameOf (tableEntry u) = u := by
    intro p u hp hw'
    exact child_eq_some.mp (child_tableEntry (by have := (h.managed p u hp hw').small; omega))
  obtain ⟨p₁, f₁⟩ := hdec _ t₁ (by simp) hw₁
  obtain ⟨p₂, f₂⟩ := hdec _ t₂ (by simp) hw₂'
  obtain ⟨p₃, f₃⟩ := hdec [pmx va, pdpx va, pdx va] t (by simp) (by rw [walk_three]; exact hw)
  simp only [hwWalk, e₁, f₁, e₂, f₂, e₃, f₃, p₁, p₂, p₃, hcan, has_tableEntry_ps, Bool.true_eq_false,
    Bool.false_eq_true, ↓reduceIte]
  by_cases hp : has (mem t (ptx va)) pteP = true
  · simp [hp, hwPage, has_tableEntry_u, has_tableEntry_w]
  · simp [hp]

/-- Where a table is missing, the processor finds no page. -/
theorem hwWalk_missing (h : Shape mem kpdpt r) (hva : pmx va ≠ 256)
    (hw : walk mem r (path va) = none) : hwWalk mem r va = none := by
  have hread : ∀ p t i, p.length < 3 → walk mem r p = some t → (p = [] → i ≠ 256) →
      has (mem t i) pteP = true → walk mem r (p ++ [i]) = some (frameOf (mem t i)) ∧
        has (mem t i) ptePS = false := by
    intro p t i hp hw' hk hpres
    have hslot := h.slot (by omega) hw' hk
    have hentry := h.entry p t i hp hw' (by rw [hslot]; exact hpres)
    rw [hslot] at hentry
    refine ⟨by rw [walk_snoc, hw', Option.bind_some, hslot, child, if_pos hpres], ?_⟩
    rw [hentry]
    exact has_tableEntry_ps _
  simp only [hwWalk]
  by_cases h₄ : has (mem r (pmx va)) pteP = true
  · obtain ⟨hw₁, -⟩ := hread [] r (pmx va) (by simp) rfl (fun _ => hva) h₄
    by_cases h₃ : has (mem (frameOf (mem r (pmx va))) (pdpx va)) pteP = true
    · obtain ⟨hw₂, hps₂⟩ := hread [pmx va] _ (pdpx va) (by simp) hw₁ (by simp) h₃
      by_cases h₂ : has (mem (frameOf (mem (frameOf (mem r (pmx va))) (pdpx va))) (pdx va)) pteP = true
      · obtain ⟨hw₃, -⟩ := hread [pmx va, pdpx va] _ (pdx va) (by simp) hw₂ (by simp) h₂
        exact absurd (hw.symm.trans hw₃) (by simp)
      · simp [h₄, h₃, hps₂, h₂]
    · simp [h₄, h₃]
  · simp [h₄]

theorem hwUser_of_walk (h : Shape s.mem kpdpt r) (hva : pmx va ≠ 256) (hcan : canonical va = true)
    (hw : walk s.mem r (path va) = some t) :
    hwUser s.mem r va = if has (s.mem t (ptx va)) pteP = true ∧ has (s.mem t (ptx va)) pteU = true
      then kva (frameOf (s.mem t (ptx va))) else 0 := by
  rw [hwUser, hwWalk_of_walk h hva hcan hw]
  by_cases hp : has (s.mem t (ptx va)) pteP = true
  · simp [hp]
  · simp [hp]

/-- `uva2ka` stays on page-table pages and finds what the processor finds exactly when the
tables of the address are there, it is not in the kernel's slot, and it is canonical or not
that of a user page. -/
theorem uva2ka_agrees_iff (h : Built kpdpt s r) (va : Word) :
    uva2ka (confined pc (pageTablePages s.mem kpdpt r)) s (kva r) va = .ok (hwUser s.mem r va) ↔
      pmx va ≠ 256 ∧ walk s.mem r (path va) ≠ none ∧
        (canonical va = true ∨ ¬ (has (pte s.mem r (path va) (ptx va)) pteP = true ∧
          has (pte s.mem r (path va) (ptx va)) pteU = true)) := by
  have ht := h.table
  by_cases hva : pmx va = 256
  · exact iff_of_false (uva2ka_kernel ht hva _) (fun hc => hc.1 hva)
  · cases hw : walk s.mem r (path va) with
    | none =>
      rw [uva2ka_none ht.reaches ht.shape hva hw]
      simp
    | some t =>
      have hpte := pte_of_walk (i := ptx va) hw
      rw [uva2ka_some ht.reaches ht.shape hva hw, hpte]
      simp only [ne_eq, hva, not_false_eq_true, reduceCtorEq, true_and]
      by_cases hcan : canonical va = true
      · rw [hwUser_of_walk ht.shape hva hcan hw]
        simp [hcan]
      · have hzero : hwUser s.mem r va = 0 := by simp [hwUser, hwWalk, hcan]
        rw [hzero]
        by_cases hpu : has (s.mem t (ptx va)) pteP = true ∧ has (s.mem t (ptx va)) pteU = true
        · have hsmall := ht.leaf (path va) (ptx va) rfl (by rw [hpte]; exact hpu.1)
          rw [hpte] at hsmall
          have hne : ¬ (Except.ok (kva (frameOf (s.mem t (ptx va)))) : Except Trap Word) = .ok 0 :=
            fun hc => kva_ne_zero hsmall (Except.ok.inj hc)
          rw [if_pos hpu]
          exact iff_of_false hne (by simp [hcan, hpu])
        · simp [hpu]

def bare : State where
  mem := fun f => if f = 0x1fb then kernelPdpt else fun _ => 0
  refs := fun f => if f = 0x1fb then 1 else 0
  checksum := fun _ => 0
  freelist := List.range' 0x1fc 56836

theorem bare_owned : Owned Managed bare [0x1fb] := by
  refine ⟨⟨List.nodup_range', ?_, ?_, ?_⟩, fun _ h => h⟩
  · intro a
    simp only [bare, List.mem_range'_1, Managed, nframes_eq, List.mem_singleton]
    omega
  · intro a ha
    obtain rfl : a = 0x1fb := by simpa using ha
    simp only [Managed, nframes_eq]
    omega
  · intro a ha
    obtain rfl : a = 0x1fb := by simpa using ha
    simp [bare]

/-- `setupkvm` makes a table without user pages. -/
theorem bare_setup : ∃ s r, Built 0x1fb s r ∧ (∀ p, p ≠ [] → walk s.mem r p = none) ∧ 3 ≤ s.freelist.length := by
  have hready : Ready 0x1fb bare := ⟨by simp [bare], _, bare_owned, by simp⟩
  obtain ⟨⟨s, p⟩, hrun, r, rest, hfree, -, rfl, hmap, hman, -, hrest, -, -⟩ :=
    (setupkvm_ends 0x1fb pc_oom pc_full bare_owned).returns (by
      rintro e ⟨-, hnil⟩
      have := congrArg List.length hnil
      simp [bare] at this)
  refine ⟨s, r, .setup hready hrun hman.2, fun p hp => walk_emptyMap hmap hp, ?_⟩
  have hlen := congrArg List.length hfree
  simp only [bare, List.length_range', List.length_cons] at hlen
  simp only at hrest
  rw [hrest]
  omega

/-- At an address without tables `uva2ka` dereferences the null pointer. -/
theorem uva2ka_missing_table : ∃ s r, Built 0x1fb s r ∧ uva2ka pc s (kva r) 0 = .error .nullDeref ∧
    uva2ka (confined pc (pageTablePages s.mem 0x1fb r)) s (kva r) 0 ≠ .ok (hwUser s.mem r 0) := by
  obtain ⟨s, r, hb, hnone, -⟩ := bare_setup
  have hva : pmx 0 ≠ 256 := by decide
  have hw := hnone (path 0) (by simp [path])
  have ht := hb.table
  refine ⟨s, r, hb, uva2ka_none (ht.shape.reaches pc_full) ht.shape hva hw, ?_⟩
  rw [uva2ka_none ht.reaches ht.shape hva hw]
  exact fun hc => by cases hc

/-- Mapping a page of an empty table gives it its tables. -/
theorem Built.mapFirst {pa : Word} (h : Built kpdpt s r) (hnone : ∀ p, p ≠ [] → walk s.mem r p = none)
    (hlen : 3 ≤ s.freelist.length) (ha : pmx a ≠ 256) (hround : pgRoundDown a = a)
    (hlast : pgRoundDown (a + 0x1000 - 1) = a) (hpa : pa.toNat + pgSize ≤ 2 ^ 47) :
    ∃ s', Built kpdpt s' r ∧ walk s'.mem r (path a) ≠ none := by
  have ht := h.table
  obtain ⟨held, hown, htab, -⟩ := ht.books
  have hends := mapPage_ends False (pteW ||| pteU) pa pc_oom pc_full ht.shape hown htab ha (fun hf => hf.elim)
  obtain ⟨x, hrun, s₁, t, new, rfl, -, hw, hs₁, -⟩ := hends.returns (by
    rintro e (⟨-, hshort⟩ | ⟨-, hpres⟩)
    · omega
    · rw [pte_of_none (hnone (path a) (by simp [path]))] at hpres
      simp at hpres)
  have hzero : (pgRoundDown (a + 0x1000 - 1) - pgRoundDown a).toNat = 0 := by
    rw [hround, hlast, BitVec.sub_self]
    rfl
  have hmap : mappages pc s (kva r) a 0x1000 pa (pteW ||| pteU) =
      .ok ({ s₁ with mem := setWord s₁.mem t (ptx a) (pa ||| (pteW ||| pteU) ||| pteP) }, 0) := by
    simp only [mappages, hzero, Nat.zero_div]
    rw [mapLoop, hround, hrun]
    rfl
  refine ⟨_, Built.map h ?_ (by rw [hzero]; omega) (isFlags_of_lt (by decide)) hmap, ?_⟩
  · intro k hk
    rw [hzero, Nat.zero_div] at hk
    obtain rfl : k = 0 := by omega
    rw [hround, Nat.zero_mul, BitVec.add_zero]
    exact ha
  · rw [walk_setPte_table hs₁ rfl hw (path a) (by simp [path]), hw]
    simp

/-- At a page that `mappages` has mapped the walks agree. -/
theorem uva2ka_agrees_mapped : ∃ s r, Built 0x1fb s r ∧
    uva2ka (confined pc (pageTablePages s.mem 0x1fb r)) s (kva r) 0x1000 = .ok (hwUser s.mem r 0x1000) := by
  obtain ⟨s, r, hb, hnone, hlen⟩ := bare_setup
  obtain ⟨s', hb', hw⟩ := hb.mapFirst hnone hlen (show pmx 0x1000 ≠ 256 by decide) (by decide) (by decide)
    (show (0 : Word).toNat + pgSize ≤ 2 ^ 47 by decide)
  exact ⟨s', r, hb', (uva2ka_agrees_iff hb' 0x1000).mpr ⟨by decide, hw, .inl (by decide)⟩⟩

end Xv6.PageWalk
