import Xv6.CopyUvm

/-!
# The write fault

`copyonwrite` gives a page that is marked for copying a frame of its own: the contents stay
(`SameView`), the entry becomes writable and the old frame loses one reference. At a page
without the mark the code releases a frame that the page still maps; such a page is writable
and does not fault.
-/
namespace Xv6.CopyOnWrite

open Words Mmu Memory Kalloc Vm Outcome RadixTree PageTable AddressSpace PageNumber CopyUvm

variable {m : Machine} {s s' s₁ : State} {mem mem' mem₁ : Mem} {kpdpt r t f g n : Nat}
  {a v e : Word} {rest : List Nat}

structure SameView (mem mem' : Mem) (r : Nat) : Prop where
  walk_eq : ∀ p, p.length < 4 → walk mem' r p = walk mem r p
  present : ∀ n, n < 2 ^ 35 → has (entry mem' r n) pteP = has (entry mem r n) pteP
  user : ∀ n, n < 2 ^ 35 → has (entry mem r n) pteP = true → has (entry mem' r n) pteU = has (entry mem r n) pteU
  contents : ∀ n f f', n < 2 ^ 35 → child (entry mem r n) = some f → child (entry mem' r n) = some f' →
    ∀ i < 512, mem' f' i = mem f i

theorem SameView.refl (mem : Mem) (r : Nat) : SameView mem mem r := by
  refine ⟨fun _ _ => rfl, fun _ _ => rfl, fun _ _ _ => rfl, ?_⟩
  intro n f f' _ hc hc' i _
  rw [hc] at hc'
  obtain rfl := Option.some.inj hc'
  rfl

/-- A page is mapped after the step if it was before. -/
theorem SameView.mapped (h : SameView mem mem' r) (hn : n < 2 ^ 35) (hc : child (entry mem r n) = some f) :
    ∃ f', child (entry mem' r n) = some f' :=
  ⟨_, child_eq_some.mpr ⟨(h.present n hn).trans (child_eq_some.mp hc).1, rfl⟩⟩

theorem SameView.trans (h : SameView mem mem₁ r) (h' : SameView mem₁ mem' r) : SameView mem mem' r := by
  refine ⟨?_, ?_, ?_, ?_⟩
  · intro p hp
    rw [h'.walk_eq p hp, h.walk_eq p hp]
  · intro n hn
    rw [h'.present n hn, h.present n hn]
  · intro n hn hp
    rw [h'.user n hn (by rw [h.present n hn, hp]), h.user n hn hp]
  · intro n f f' hn hc hc' i hi
    obtain ⟨g, hg⟩ := h.mapped hn hc
    rw [h'.contents n g f' hn hg hc' i hi, h.contents n f g hn hc hg i hi]

section Uva2ka

variable (hfull : m.Full) (h : Tree s.mem kpdpt r) (ha : a.toNat = n * 4096) (hn : n < 2 ^ 35)
include hfull h ha hn

theorem uva2ka_missing (hw : walk s.mem r (pagePath n) = none) : uva2ka m s (kva r) a = .error .nullDeref := by
  have hpm := pmx_of_page ha hn
  exact uva2ka_none (h.shape.reaches hfull) h.shape (by omega) (by rw [path_of_page ha, hw])

theorem uva2ka_entry (hw : walk s.mem r (pagePath n) = some t) :
    uva2ka m s (kva r) a = .ok (if has (entry s.mem r n) pteP = true ∧ has (entry s.mem r n) pteU = true
      then kva (frameOf (entry s.mem r n)) else 0) := by
  have hpm := pmx_of_page ha hn
  rw [uva2ka_some (h.shape.reaches hfull) h.shape (by omega) (by rw [path_of_page ha, hw]), ptx_of_page ha, entry,
    pte_of_walk hw]

theorem uva2ka_user (hc : child (entry s.mem r n) = some f) (hu : has (entry s.mem r n) pteU = true) :
    uva2ka m s (kva r) a = .ok (kva f) := by
  obtain ⟨t, hw⟩ := walk_of_pte hc
  rw [uva2ka_entry hfull h ha hn hw, if_pos ⟨(child_eq_some.mp hc).1, hu⟩, (child_eq_some.mp hc).2]

theorem uva2ka_denied (hw : walk s.mem r (pagePath n) = some t)
    (hno : ¬ (has (entry s.mem r n) pteP = true ∧ has (entry s.mem r n) pteU = true)) :
    uva2ka m s (kva r) a = .ok 0 := by
  rw [uva2ka_entry hfull h ha hn hw, if_neg hno]

end Uva2ka

def ownEntry (f : Nat) : Word := frameAddr f ||| pteP ||| pteU ||| pteW

theorem ownEntry_eq (f : Nat) : ownEntry f = frameAddr f ||| (pteP ||| (pteU ||| pteW)) := by
  rw [ownEntry, BitVec.or_assoc, BitVec.or_assoc]

theorem isFlags_own : IsFlags (pteP ||| (pteU ||| pteW)) := isFlags_of_lt (by decide)

theorem has_ownEntry {bit : Word} (hbit : IsFlags bit) : has (ownEntry f) bit =
    has (pteP ||| (pteU ||| pteW)) bit := by
  rw [ownEntry_eq, has_frameAddr_or f _ hbit]

theorem child_ownEntry (hf : Managed f) : child (ownEntry f) = some f := by
  rw [ownEntry_eq]
  exact child_mkEntry (by have := hf.small; omega) isFlags_own (by decide)

/-- Page `n`, which mapped `f`, now maps the frame `f'` alone, with the same contents. -/
structure Renewed (s s' : State) (r n f f' : Nat) (rest : List Nat) : Prop where
  map : ∀ k, k < 2 ^ 36 → entry s'.mem r k = if k = n then ownEntry f' else entry s.mem r k
  walk_eq : ∀ p, p.length < 4 → walk s'.mem r p = walk s.mem r p
  page : s'.mem f' = s.mem f
  fresh : f' ∈ s.freelist
  contents : ∀ g ∈ treeRefs s'.mem r ++ r :: rest, ¬ IsTable s.mem r g → g ≠ f' → s'.mem g = s.mem g
  free : s.freelist.length ≤ s'.freelist.length + 1
  checksum : s'.checksum = s.checksum

theorem Renewed.sameView {f' : Nat} (h : Renewed s s' r n f f' rest) (hn : n < 2 ^ 35) (h₀ : Space s kpdpt r rest)
    (h' : Space s' kpdpt r rest) (hc : child (entry s.mem r n) = some f) (hu : has (entry s.mem r n) pteU = true) :
    SameView s.mem s'.mem r := by
  have hpres := (child_eq_some.mp hc).1
  refine ⟨h.walk_eq, ?_, ?_, ?_⟩
  · intro k hk
    rw [h.map k (by omega)]
    split
    · rename_i he
      rw [he, hpres, has_ownEntry isFlags_pteP]
      decide
    · rfl
  · intro k hk _
    rw [h.map k (by omega)]
    split
    · rename_i he
      rw [he, hu, has_ownEntry isFlags_pteU]
      decide
    · rfl
  · intro k g g' hk hg hg' i hi
    by_cases he : k = n
    · subst he
      rw [hc] at hg
      obtain rfl := Option.some.inj hg
      have hf' : Managed f' := h₀.owned.managed f' ((h₀.owned.counted.mem_free f').mp h.fresh).1
      rw [h.map k (by omega), if_pos rfl, child_ownEntry hf'] at hg'
      obtain rfl := Option.some.inj hg'
      rw [h.page]
    · have hmem' : g' ∈ treeRefs s'.mem r := h'.tree.leaf_mem rfl hg'
      rw [h.map k (by omega), if_neg he, hg] at hg'
      obtain rfl := Option.some.inj hg'
      have hne : g ≠ f' := by
        rintro rfl
        exact h₀.owned.counted.not_mem_held h.fresh (by simp [h₀.tree.leaf_mem rfl hg])
      rw [h.contents g (by simp [hmem']) (h₀.tree.leaf_not_table rfl hg) hne]

theorem pgRoundDown_page (v : Word) : (pgRoundDown v).toNat = v.toNat / 4096 * 4096 := by
  rw [pgRoundDown_toNat]

section Renew

variable {f' : Nat} (h : Space s kpdpt r rest) (hn : n < 2 ^ 35)
  (hw : walk s.mem r (pagePath n) = some t) (hc : child (entry s.mem r n) = some f)
  (hf' : f' ∉ treeRefs s.mem r ++ r :: rest) (hman : Managed f')

/-- Memory with the page copied and its entry stored. -/
def renewed (mem : Mem) (t n f f' : Nat) : Mem :=
  setWord (setPage mem f' (mem f)) t (n % 512) (ownEntry f')

include h hf' in
theorem copied_table (g : Nat) {u : Nat} (hu : IsTable s.mem r u) :
    setPage s.mem f' (s.mem g) u = s.mem u := by
  refine setPage_other ?_ _
  rintro rfl
  exact hf' (h.tree.table_held hu)

include h hn hw hf' in
theorem stored_renewed : Stored (setPage s.mem f' (s.mem f)) (renewed s.mem t n f f') r n
    (ownEntry f') := by
  have hsame := fun u => copied_table h hf' f (u := u)
  exact stored_setWord (h.tree.congr hsame).shape hn (by rw [walk_tables hsame (by simp), hw])

include h hn hw hf' in
theorem walk_renewed (p : List Nat) (hp : p.length < 4) :
    walk (renewed s.mem t n f f') r p = walk s.mem r p := by
  rw [(stored_renewed h hn hw hf').walk_eq p hp,
    walk_tables (fun u => copied_table h hf' f (u := u)) (by omega)]

include h hn hw hc hf' hman in
theorem tree_renewed : Tree (renewed s.mem t n f f') kpdpt r := by
  have hsame := fun u => copied_table h hf' f (u := u)
  have hwalk : ∀ p, p.length < 4 → walk (setPage s.mem f' (s.mem f)) r p = walk s.mem r p :=
    fun p hp => walk_tables hsame (by omega)
  refine tree_setEntry (h.tree.congr hsame) hn ((hwalk _ (by simp)).trans hw)
    (fun _ _ => pos_of_child h.tree hc) ?_ ?_ ?_
  · intro _ _ hno
    rw [has_ownEntry isFlags_pteW] at hno
    exact absurd hno (by decide)
  · intro u hu ht
    obtain rfl := Option.some.inj ((child_ownEntry hman).symm.trans hu)
    exact hf' (h.tree.table_held ((isTable_congr hwalk).mp ht))
  · intro u k hu _ _ hk
    obtain rfl := Option.some.inj ((child_ownEntry hman).symm.trans hu)
    rw [entry, pte_tables hsame rfl] at hk
    exact absurd (h.tree.leaf_mem rfl hk) (fun hmem => hf' (by simp [hmem]))

include h hn hw hc hf' hman in
theorem refs_renewed {R : List Nat} (hR : (treeRefs s.mem r).Perm (f :: R)) :
    (treeRefs (renewed s.mem t n f f') r).Perm ([f'] ++ R) := by
  have hsame := fun u => copied_table h hf' f (u := u)
  have hrefs := (stored_renewed (f := f) h hn hw hf').exchange (R := R)
    (by rw [entry, pte_tables hsame rfl]; exact hc) (by rw [treeRefs_tables hsame]; exact hR)
  rwa [child_ownEntry hman] at hrefs

include h hn hw hf' in
theorem renewed_other {g : Nat} (hg : ¬ IsTable s.mem r g) :
    renewed s.mem t n f f' g = setPage s.mem f' (s.mem f) g :=
  (stored_renewed h hn hw hf').frame g fun ht => hg
    ((isTable_congr fun p hp => walk_tables (fun u => copied_table h hf' f (u := u)) (by omega)).mp ht)

end Renew

/-- The books and the tree after a page has moved to a frame of its own. -/
theorem renew_space (refs : Nat → Int) {f' : Nat} {free : List Nat} (hfull : m.Full)
    (h : Space s kpdpt r rest) (hn : n < 2 ^ 35) (hw : walk s.mem r (pagePath n) = some t)
    (hc : child (entry s.mem r n) = some f) (hfree : s.freelist = f' :: free)
    (hown : Owned Managed ⟨s.mem, refs, s.checksum, free⟩ (f' :: (treeRefs s.mem r ++ r :: rest))) :
    ∃ s', krelease m ⟨renewed s.mem t n f f', refs, s.checksum, free⟩ (kva f) = .ok s' ∧
      Space s' kpdpt r rest ∧ Renewed s s' r n f f' rest := by
  have hmem : f' ∈ s.freelist := by simp [hfree]
  have hf' : f' ∉ treeRefs s.mem r ++ r :: rest := h.owned.counted.not_mem_held hmem
  have hman : Managed f' := hown.of_held List.mem_cons_self
  obtain ⟨R, hR⟩ : ∃ R, (treeRefs s.mem r).Perm (f :: R) :=
    ⟨_, List.perm_cons_erase (h.tree.leaf_mem rfl hc)⟩
  have hown₂ : Owned Managed ⟨renewed s.mem t n f f', refs, s.checksum, free⟩
      (f :: ([f'] ++ R ++ r :: rest)) :=
    (hown.perm (((hR.append_right (r :: rest)).cons f').trans (List.Perm.swap f f' _))).congr rfl rfl
  obtain ⟨s', hrun, hown₃, hmem₃, hsum, hfree₃⟩ := krelease_kva hfull hown₂
  have hwalk := walk_renewed (f := f) h hn hw hf'
  have hsame : ∀ u, IsTable (renewed s.mem t n f f') r u → s'.mem u = renewed s.mem t n f f' u := by
    intro u hu
    refine hmem₃ u (.inl ?_)
    rintro rfl
    exact h.tree.leaf_not_table rfl hc ((isTable_congr hwalk).mp hu)
  have hrefs := refs_renewed h hn hw hc hf' hman hR
  rw [← treeRefs_tables hsame] at hrefs
  refine ⟨s', hrun, Space.exchange h.apart ((tree_renewed h hn hw hc hf' hman).congr hsame) hrefs
    (fun g hg => hR.mem_iff.mpr (List.mem_cons_of_mem f hg)) ?_ hown₃, ?_, ?_, ?_, hmem, ?_, ?_, hsum⟩
  · intro g hg hr
    rw [List.mem_singleton.mp hg] at hr
    exact hf' (by simp [hr])
  · intro k hk
    rw [entry, pte_tables hsame rfl, ← entry, (stored_renewed h hn hw hf').entry_eq (by omega) hk, entry,
      pte_tables (fun u => copied_table h hf' f (u := u)) rfl]
    rfl
  · intro p hp
    rw [walk_tables hsame (by omega), hwalk p hp]
  · rw [hmem₃ f' (.inl ?_)]
    · refine (renewed_other h hn hw hf' fun ht => hf' (h.tree.table_held ht)).trans ?_
      exact setPage_same s.mem f' (s.mem f)
    · rintro rfl
      exact hf' (by simp [h.tree.leaf_mem rfl hc])
  · intro g hg hgt hne
    rw [List.mem_append, hrefs.mem_iff, ← List.mem_append] at hg
    rw [kept_of_held hmem₃ hg]
    exact (renewed_other h hn hw hf' hgt).trans (setPage_other hne _)
  · rw [hfree₃, hfree]
    split <;> simp

theorem copyonwrite_cow (hm : m.oom ≠ .null) (hfull : m.Full) (h : Space s kpdpt r rest)
    (hn : v.toNat / 4096 < 2 ^ 35)
    (hc : child (entry s.mem r (v.toNat / 4096)) = some f) (hu : has (entry s.mem r (v.toNat / 4096)) pteU = true)
    (hcow : has (entry s.mem r (v.toNat / 4096)) pteCOW = true) :
    Ends (copyonwrite m s (kva r) v) (fun e => Exhausted m e ∧ s.freelist = []) (fun x => x.2 = 1 ∧
      Space x.1 kpdpt r rest ∧ ∃ f', Renewed s x.1 r (v.toNat / 4096) f f' rest) := by
  have ha := pgRoundDown_page v
  generalize v.toNat / 4096 = n at hn hc hu hcow ha ⊢
  obtain ⟨t, hw⟩ := walk_of_pte hc
  have hfman : Managed f := h.owned.of_held (by simp [h.tree.leaf_mem rfl hc])
  rw [copyonwrite, uva2ka_user hfull h.tree ha hn hc hu, ok_bind, if_neg (kva_ne_zero hfman.small),
    walkpgdir_page hfull h.tree ha hn, ok_bind, hw]
  simp only [Option.map_some]
  rw [read_entry hfull h.tree hw, ok_bind, if_pos hcow]
  refine (kalloc_ends hm h.owned).bind ?_
  rintro x ⟨f', free, hfree, hman, -, rfl, hown⟩
  simp only
  have htman := table_managed h.tree hw
  obtain ⟨s', hrun, hspace, hren⟩ := renew_space (Function.update s.refs f' 1) hfull h hn hw hc hfree hown
  rw [memmovePage_kva hman.small (hman.ram hfull) hfman.small (hfman.ram hfull), ok_bind, v2p_kva,
    write_entry hfull htman, ok_bind]
  rw [renewed, ownEntry] at hrun
  rw [hrun, ok_bind]
  exact ⟨rfl, hspace, f', hren⟩

theorem copyonwrite_missing (hfull : m.Full) (h : Tree s.mem kpdpt r) (hn : v.toNat / 4096 < 2 ^ 35)
    (hw : walk s.mem r (pagePath (v.toNat / 4096)) = none) : copyonwrite m s (kva r) v = .error .nullDeref := by
  rw [copyonwrite, uva2ka_missing hfull h (pgRoundDown_page v) hn hw]
  rfl

theorem copyonwrite_denied (hfull : m.Full) (h : Tree s.mem kpdpt r) (hn : v.toNat / 4096 < 2 ^ 35)
    (hw : walk s.mem r (pagePath (v.toNat / 4096)) = some t)
    (hno : ¬ (has (entry s.mem r (v.toNat / 4096)) pteP = true ∧
      has (entry s.mem r (v.toNat / 4096)) pteU = true)) :
    copyonwrite m s (kva r) v = .ok (s, 1) := by
  rw [copyonwrite, uva2ka_denied hfull h (pgRoundDown_page v) hn hw hno, ok_bind, if_pos rfl]
  rfl

/-- Whatever the address, the only value that `copyonwrite` returns is 1. -/
theorem copyonwrite_returns {pgdir : Word} {x : State × Int} (h : copyonwrite m s pgdir v = .ok x) : x.2 = 1 := by
  rw [copyonwrite] at h
  obtain ⟨ka, -, h⟩ := bind_eq_ok.mp h
  split at h
  · obtain rfl := Except.ok.inj h
    rfl
  · obtain ⟨⟨s₁, pte⟩, -, h⟩ := bind_eq_ok.mp h
    cases pte with
    | none => cases h
    | some pte =>
      obtain ⟨e, -, h⟩ := bind_eq_ok.mp h
      have hlast : ∀ {s : State}, (do let s ← krelease m s ka; pure (s, (1 : Int))) = Except.ok x → x.2 = 1 := by
        intro s h
        obtain ⟨s₂, -, h⟩ := bind_eq_ok.mp h
        obtain rfl := Except.ok.inj h
        rfl
      split at h
      · obtain ⟨x₁, -, h⟩ := bind_eq_ok.mp h
        obtain ⟨s₂, -, h⟩ := bind_eq_ok.mp h
        obtain ⟨s₃, -, h⟩ := bind_eq_ok.mp h
        exact hlast h
      · exact hlast h

end Xv6.CopyOnWrite
