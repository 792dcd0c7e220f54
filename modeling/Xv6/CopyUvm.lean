import Xv6.FreeVm
import Xv6.UserPages

/-!
# Filling a new address space

`copyuvm` gives a new tree a fresh frame for every page of the parent's tree, with the same
contents and flags; it walks the parent's tables while it takes frames, and leaves them
alone because the parent holds them. `inituvm` and `clearpteu` are the other two ways in
which a new tree gets its pages.
-/
namespace Xv6.CopyUvm

open Words Mmu Memory Kalloc Vm Outcome RadixTree PageTable AddressSpace PageNumber UserPages FreeVm
open Function

variable {m : Machine} {s s' : State} {mem mem₀ : Mem} {kpdpt r pr d f g n lo hi : Nat}
  {a e : Word} {held rest : List Nat}

def copyEntry (e : Word) (f : Nat) : Word := frameAddr f ||| pteFlags e ||| pteP

def CopyOf (mem : Mem) (pr n f : Nat) (e : Word) (page : Page) : Prop :=
  ∃ g, child (entry mem pr n) = some g ∧ e = copyEntry (entry mem pr n) f ∧ page = mem g

theorem has_copyEntry {bit : Word} (hbit : IsFlags bit) :
    has (copyEntry e f) bit = (has e bit || has pteP bit) := by
  rw [copyEntry, BitVec.or_assoc, has_frameAddr_or f _ hbit, has_or, has_pteFlags e hbit]

theorem leafOk_copyEntry (h : LeafOk e) (hp : has e pteP = true) : LeafOk (copyEntry e f) := by
  intro _ hu hw
  rw [has_copyEntry isFlags_pteU] at hu
  rw [has_copyEntry isFlags_pteW] at hw
  rw [has_copyEntry isFlags_pteCOW]
  have hu' : has e pteU = true := by simpa [show has pteP pteU = false by decide] using hu
  have hw' : has e pteW = false := by simpa [show has pteP pteW = false by decide] using hw
  rw [h hp hu' hw']
  rfl

/-- What the tree of another holder keeps while `d` is being built. -/
structure Kept (mem₀ : Mem) (s : State) (kpdpt pr : Nat) (rest : List Nat) : Prop where
  tree : Tree mem₀ kpdpt pr
  mem : ∀ g ∈ pr :: treeRefs mem₀ pr, g ∈ rest
  same : ∀ g ∈ pr :: treeRefs mem₀ pr, s.mem g = mem₀ g

theorem Kept.table (h : Kept mem₀ s kpdpt pr rest) {t : Nat} (ht : IsTable mem₀ pr t) : s.mem t = mem₀ t :=
  h.same t (h.tree.table_mem ht)

theorem Kept.now (h : Kept mem₀ s kpdpt pr rest) : Tree s.mem kpdpt pr := h.tree.congr (fun _ ht => h.table ht)

theorem Kept.entry_eq (h : Kept mem₀ s kpdpt pr rest) (n : Nat) : entry s.mem pr n = entry mem₀ pr n :=
  pte_tables (fun _ ht => h.table ht) rfl

def Distinct (mem : Mem) (d lo hi : Nat) : Prop :=
  ∀ n n', lo ≤ n → n < n' → n' < hi → child (entry mem d n) ≠ child (entry mem d n')

/-- A page whose frame is taken is different from the pages that come after it. -/
theorem distinct_grown {New : Nat → Nat → Word → Page → Prop} (h : Space s kpdpt d rest)
    (hf : child (entry s.mem d lo) = some f) (hlo : lo < 2 ^ 35) (hgrown : Grown New s s' d (lo + 1) hi)
    (hrest : Distinct s'.mem d (lo + 1) hi) : Distinct s'.mem d lo hi := by
  intro n n' h₁ h₂ h₃
  by_cases hn : n = lo
  · subst hn
    have hheld : f ∈ treeRefs s.mem d ++ d :: rest := List.mem_append_left _ (h.tree.leaf_mem rfl hf)
    obtain ⟨f', hfree, hf', -⟩ := hgrown.new n' (by omega) h₃
    rw [hgrown.old n (by omega) (by omega), hf, hf']
    intro he
    exact h.owned.counted.not_mem_free hheld (Option.some.inj he ▸ hfree)
  · exact hrest n n' (by omega) h₂ h₃

theorem copyLoop_ends (hm : m.oom ≠ .null) (hfull : m.Full) (k : Nat) (h : Space s kpdpt d rest)
    (hkept : Kept mem₀ s kpdpt pr rest) (ha : a.toNat = lo * 4096) (hlo : 0 < lo) (hhi : lo + k ≤ 2 ^ 35) :
    Ends (copyLoop m (kva pr) (kva d) k s a)
      (fun e => (Exhausted m e ∧ s.freelist.length < 4 * k) ∨ ∃ msg n, e = .panic msg ∧ lo ≤ n ∧ n < lo + k ∧
        (child (entry mem₀ pr n) = none ∨ has (entry s.mem d n) pteP = true))
      (fun x => x.2 = kva d ∧ Space x.1 kpdpt d rest ∧ Grown (CopyOf mem₀ pr) s x.1 d lo (lo + k) ∧
        Distinct x.1.mem d lo (lo + k)) := by
  induction k generalizing s a lo with
  | zero => exact ⟨rfl, h, Grown.nil s d lo (lo + 0) (by omega), fun n n' h₁ h₂ h₃ => by omega⟩
  | succ k ih =>
    rw [copyLoop, walkpgdir_page hfull hkept.now ha (by omega), ok_bind]
    cases hw : walk s.mem pr (pagePath lo) with
    | none =>
      refine .inr ⟨_, lo, rfl, by omega, by omega, .inl ?_⟩
      rw [← hkept.entry_eq, entry, pte_of_none hw]
      exact child_zero
    | some t =>
      simp only [Option.map_some]
      rw [read_entry hfull hkept.now hw, ok_bind, hkept.entry_eq]
      cases hc : child (entry mem₀ pr lo) with
      | none =>
        rw [if_pos (child_eq_none.mp hc)]
        exact .inr ⟨_, lo, rfl, by omega, by omega, .inl hc⟩
      | some g =>
        have hpres := (child_eq_some.mp hc).1
        have hgtree : g ∈ treeRefs mem₀ pr := hkept.tree.leaf_mem rfl hc
        have hgrest : g ∈ rest := hkept.mem g (List.mem_cons_of_mem pr hgtree)
        have hgman : Managed g := h.owned.of_held (by simp [hgrest])
        rw [if_neg (by simp [hpres])]
        refine (kalloc_ends hm h.owned).seq ?_ ?_
        · rintro e ⟨hex, hnil⟩
          exact .inl ⟨hex, by rw [hnil]; simp⟩
        · rintro x ⟨f, rest', hfree, hman, -, rfl, hown⟩
          simp only
          rw [if_neg (kva_ne_zero hman.small), p2v_entry hc,
            memmovePage_kva hman.small (hman.ram hfull) hgman.small (hgman.ram hfull), ok_bind, v2p_kva]
          have hadd := mappages_added lo (s.mem g) (update s.refs f 1) hm hfull h hfree
            (hown.congr rfl rfl) ha hlo (by omega) (isFlags_pteFlags (entry mem₀ pr lo))
            (leafOk_copyEntry (f := f) (hkept.tree.leaf _ _ rfl) hpres)
          refine hadd.seq ?_ ?_
          · rintro e (⟨hex, hlen⟩ | ⟨rfl, hp⟩)
            · exact .inl ⟨hex, by omega⟩
            · exact .inr ⟨_, lo, rfl, by omega, by omega, .inr hp⟩
          · rintro ⟨s₁, x⟩ ⟨rfl, h₁, hadded⟩
            dsimp only at h₁ hadded ⊢
            rw [if_neg (by simp)]
            obtain ⟨new, hnew, hlen, -⟩ := hadded.free
            have hcount : s.freelist.length ≤ s₁.freelist.length + 4 := by
              rw [hnew]
              simp only [List.cons_append, List.length_cons, List.length_append]
              omega
            have hkept₁ : Kept mem₀ s₁ kpdpt pr rest := by
              refine ⟨hkept.tree, hkept.mem, fun u hu => ?_⟩
              obtain ⟨hu₁, hu₂⟩ := h.other (hkept.mem u hu)
              rw [hadded.contents u hu₁ hu₂, hkept.same u hu]
            refine (ih h₁ hkept₁ (next_page ha (by omega)) (by omega) (by omega)).mono ?_ ?_
            · rintro e (⟨hex, hlen'⟩ | ⟨msg, n, he, h₂, h₃, hbad⟩)
              · exact .inl ⟨hex, by omega⟩
              · refine .inr ⟨msg, n, he, by omega, by omega, ?_⟩
                rwa [hadded.map n (by omega), if_neg (by omega)] at hbad
            · rintro x ⟨hx, hspace, hgrown, hdist⟩
              rw [show lo + 1 + k = lo + (k + 1) by omega] at hgrown hdist
              have hframe : child (entry s₁.mem d lo) = some f := by
                rw [hadded.map lo (by omega), if_pos rfl, hadded.frame]
              refine ⟨hx, hspace, ?_, distinct_grown h₁ hframe (by omega) hgrown hdist⟩
              refine hadded.grown ⟨g, hc, rfl, ?_⟩ (by omega) h₁ h.owned.counted.nodup hgrown (by omega)
              exact hkept.same g (List.mem_cons_of_mem pr hgtree)

/-- The tree at `d` is a copy of the pages from 1 to `hi` of the tree at `pr` and has no others. -/
structure Copied (s s' : State) (pr d hi : Nat) : Prop where
  page : ∀ n, 0 < n → n < hi → ∃ f ∈ s.freelist, child (entry s'.mem d n) = some f ∧
    CopyOf s.mem pr n f (entry s'.mem d n) (s'.mem f)
  others : ∀ n, n < 2 ^ 36 → (n = 0 ∨ hi ≤ n) → entry s'.mem d n = 0
  free : ∃ used, s.freelist = used ++ s'.freelist ∧ hi ≤ used.length + 1 ∧ used.length ≤ 4 * hi + 1

theorem copyuvm_ends (hm : m.oom ≠ .null) (hfull : m.Full) {sz : BitVec 32} (hown : Owned Managed s held)
    (htree : Tree s.mem kpdpt pr) (hheld : ∀ g ∈ pr :: treeRefs s.mem pr, g ∈ held) :
    Ends (copyuvm m (kva kpdpt) s (kva pr) sz)
      (fun e => (Exhausted m e ∧ s.freelist.length ≤ 4 * pages (sz.setWidth 64)) ∨
        ∃ msg n, e = .panic msg ∧ 0 < n ∧
        n < pages (sz.setWidth 64) ∧ child (entry s.mem pr n) = none)
      (fun x => ∃ d, x.2 = kva d ∧ Managed d ∧ Space x.1 kpdpt d held ∧ (∀ g ∈ held, x.1.mem g = s.mem g) ∧
        Copied s x.1 pr d (pages (sz.setWidth 64)) ∧ Distinct x.1.mem d 1 (pages (sz.setWidth 64))) := by
  have hsz : (sz.setWidth 64).toNat < 2 ^ 32 := by
    rw [BitVec.toNat_setWidth]
    have := sz.isLt
    omega
  have hone : (0x1000 : Word).toNat = 1 * 4096 := rfl
  have hcount : pageCount 0x1000 (sz.setWidth 64) = pages (sz.setWidth 64) - 1 := by
    rw [pageCount, hone, pages, pgSize]
    omega
  have hpages : pages (sz.setWidth 64) ≤ 2 ^ 20 := by
    rw [pages]
    omega
  rw [copyuvm, hcount]
  generalize pages (sz.setWidth 64) = hi at hpages ⊢
  refine (setupkvm_space hm hfull hown).seq ?_ ?_
  · rintro e ⟨hex, hnil⟩
    exact .inl ⟨hex, by rw [hnil]; simp⟩
  · rintro ⟨s₁, v⟩ ⟨d, hv, hman, h₁, hmade⟩
    dsimp only at hv h₁ hmade ⊢
    subst hv
    have hd : ∀ g ∈ held, g ≠ d := by
      rintro g hg rfl
      exact h₁.apart g (by simp) hg
    have hlen : s.freelist.length = s₁.freelist.length + 1 := by
      rw [hmade.free]
      rfl
    have hkept : Kept s.mem s₁ kpdpt pr held :=
      ⟨htree, hheld, fun g hg => hmade.contents g (hd g (hheld g hg))⟩
    rw [if_neg (kva_ne_zero hman.small)]
    refine (copyLoop_ends hm hfull (hi - 1) h₁ hkept hone (by omega) (by omega)).mono ?_ ?_
    · rintro e (⟨hex, hlt⟩ | ⟨msg, n, he, h₂, h₃, hbad⟩)
      · exact .inl ⟨hex, by omega⟩
      · refine .inr ⟨msg, n, he, by omega, by omega, hbad.resolve_right ?_⟩
        rw [hmade.entry_eq]
        simp
    · rintro x ⟨hx, hspace, hgrown, hdist⟩
      refine ⟨d, hx, hman, hspace, ?_, ⟨?_, ?_, ?_⟩, fun n n' h₂ h₃ h₄ => hdist n n' h₂ h₃ (by omega)⟩
      · intro g hg
        obtain ⟨hg₁, hg₂⟩ := h₁.other hg
        rw [hgrown.contents g hg₁ hg₂, hmade.contents g (hd g hg)]
      · intro n h₂ h₃
        obtain ⟨f, hf, hnew⟩ := hgrown.new n (by omega) (by omega)
        exact ⟨f, by rw [hmade.free]; simp [hf], hnew⟩
      · intro n hn hout
        rw [hgrown.old n hn (by omega), hmade.entry_eq]
      · obtain ⟨used, hused, h₂, h₃, -⟩ := hgrown.free
        refine ⟨d :: used, by rw [hmade.free, hused]; rfl, ?_, ?_⟩
        · simp only [List.length_cons]
          omega
        · simp only [List.length_cons]
          omega

/-- The last writer of a new page decides its contents. -/
theorem added_setPage {page : Page} (page' : Page) (h : Added s s' r n f e page) (hn : n < 2 ^ 36)
    (h' : Space s' kpdpt r rest) (hf : f ∈ s.freelist) :
    Space { s' with mem := setPage s'.mem f page' } kpdpt r rest ∧
      Added s { s' with mem := setPage s'.mem f page' } r n f e page' := by
  have hc : child (entry s'.mem r n) = some f := by
    rw [h.map n hn, if_pos rfl]
    exact h.frame
  have hsame : ∀ t, IsTable s'.mem r t → setPage s'.mem f page' t = s'.mem t := by
    rintro t ht
    refine setPage_other ?_ page'
    rintro rfl
    exact h'.tree.leaf_not_table rfl hc ht
  refine ⟨h'.congr hsame rfl rfl, h.old, ?_, h.frame, ?_, ?_, ?_, setPage_same s'.mem f page', h.free, h.checksum⟩
  · intro n' hn'
    rw [← h.map n' hn']
    exact pte_tables hsame rfl
  · intro p t hp hw
    exact (walk_tables hsame (by omega)).trans (h.mono p t hp hw)
  · intro t ht
    exact h.tables t ((isTable_congr (fun p hp => walk_tables hsame (by omega))).mp ht)
  · intro g hg hgt
    refine (setPage_other ?_ page').trans (h.contents g hg hgt)
    rintro rfl
    exact hg hf

/-- `inituvm` maps the first page of the process, with the program at its start. -/
theorem inituvm_ends (hm : m.oom ≠ .null) (hfull : m.Full) (init : List Byte) (hinit : init.length < 4096)
    (h : Space s kpdpt r rest) :
    Ends (inituvm m s (kva r) init)
      (fun e => (Exhausted m e ∧ s.freelist.length < 4) ∨ (e = .panic "remap" ∧ has (entry s.mem r 1) pteP = true))
      (fun s' => Space s' kpdpt r rest ∧ ∃ f, Added s s' r 1 f (freshEntry f) (putBytes (fun _ => 0) 0 init)) := by
  rw [inituvm, if_neg (by rw [pgSize]; omega)]
  refine (kalloc_ends hm h.owned).seq ?_ ?_
  · rintro e ⟨hex, hnil⟩
    exact .inl ⟨hex, by rw [hnil]; simp⟩
  · rintro x ⟨f, rest', hfree, hman, -, rfl, hown⟩
    simp only
    rw [memset_kva hman.small (hman.ram hfull), ok_bind, v2p_kva]
    have hone : (0x1000 : Word).toNat = 1 * 4096 := rfl
    have hadd := mappages_added 1 (fun _ => 0) (update s.refs f 1) hm hfull h hfree
      (hown.congr rfl rfl) hone (by omega) (by omega) isFlags_fresh (leafOk_fresh (f := f))
    refine hadd.bind ?_
    rintro ⟨s₁, x⟩ ⟨rfl, h₁, hadded⟩
    dsimp only at h₁ hadded ⊢
    rw [memmove_frame (o := 0) hman.small' (hman.ram hfull) init (by rw [kva_toNat hman.small]; omega) (by omega),
      ends_ok, hadded.page]
    obtain ⟨h₂, hadded₂⟩ := added_setPage (putBytes (fun _ => 0) 0 init) hadded (by omega) h₁ (by simp [hfree])
    exact ⟨h₂, f, hadded₂⟩

theorem entry_zero (h : Tree mem kpdpt r) : child (entry mem r 0) = none := h.null

theorem pos_of_child (h : Tree mem kpdpt r) (hc : child (entry mem r n) = some f) : 0 < n := by
  refine Nat.pos_of_ne_zero ?_
  rintro rfl
  cases (entry_zero h).symm.trans hc

theorem child_clearU : child (e &&& ~~~pteU) = child e := by
  rw [child, child, has_andNot (by decide), frameOf_andNot isFlags_pteU]

/-- `clearpteu` takes one page away from the user and changes nothing else. -/
theorem clearpteu_ends (hfull : m.Full) (h : Space s kpdpt r rest) (ha : a.toNat = n * 4096) (hn : n < 2 ^ 35) :
    Ends (clearpteu m s (kva r) a)
      (fun e => e = .panic "clearpteu" ∧ walk s.mem r (pagePath n) = none)
      (fun s' => Space s' kpdpt r rest ∧ s'.freelist = s.freelist ∧ s'.checksum = s.checksum ∧
        Stored s.mem s'.mem r n (entry s.mem r n &&& ~~~pteU)) := by
  rw [clearpteu, walkpgdir_page hfull h.tree ha hn, ok_bind]
  cases hw : walk s.mem r (pagePath n) with
  | none => exact ⟨rfl, rfl⟩
  | some t =>
    simp only [Option.map_some]
    rw [read_entry hfull h.tree hw, ok_bind, write_entry hfull (table_managed h.tree hw), ends_ok]
    have hst : Stored s.mem (setWord s.mem t (n % 512) (entry s.mem r n &&& ~~~pteU)) r n
        (entry s.mem r n &&& ~~~pteU) := stored_setWord h.tree.shape hn hw
    have hchild : child (entry s.mem r n &&& ~~~pteU) = child (entry s.mem r n) := child_clearU
    have hrefs := hst.refs
    rw [hchild, List.perm_append_right_iff] at hrefs
    have hfroz : Frozen (entry s.mem r n) → Frozen (entry s.mem r n &&& ~~~pteU) := by
      rintro ⟨h₁, h₂⟩
      exact ⟨by rw [has_andNot (by decide), h₁], by rw [has_andNot (by decide), h₂]⟩
    refine ⟨Space.exchange (N := []) h.apart ?_ hrefs (fun _ hg => hg) (by simp)
      (h.owned.congr rfl rfl), rfl, rfl, hst⟩
    refine tree_setEntry h.tree hn hw (fun f hf => pos_of_child h.tree (hchild ▸ hf)) ?_ ?_ ?_
    · intro _ hu
      simp at hu
    · intro f hf
      rw [hchild] at hf
      exact h.tree.leaf_not_table rfl hf
    · intro f n' hf hn' hne hc
      rw [hchild] at hf
      exact ⟨hfroz (frozen_of_shared h.tree (by omega) (by omega) hne.symm hf hc),
        frozen_of_shared h.tree (by omega) (by omega) hne hc hf⟩

end Xv6.CopyUvm
