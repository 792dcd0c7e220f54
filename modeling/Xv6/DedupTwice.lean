import Xv6.LargeFork

/-!
# What `sys_dedup` leaves behind

After `dedup` two equal neighbours have one and the same entry, and the free list has grown by the
frames that no page maps any more. A second call stores the entries that are there, and takes one
reference away from a frame that has two to put it back again.
-/
namespace Xv6.DedupTwice

open Words Mmu Memory Kalloc Vm RadixTree PageTable AddressSpace PageNumber UserPages CopyOnWrite
open Dedup Kernel KernelInv Boot FrameBooks Transparency LargeFork Interleaving Function

variable {m : Machine} {s s' : State} {mem mem' : Mem} {kpdpt r t f g n k hi : Nat} {a v e : Word}
  {rest : List Nat}

theorem or_twoPow_self {e : Word} {i : Nat} (h : has e (BitVec.twoPow 64 i) = true) :
    e ||| BitVec.twoPow 64 i = e := by
  have hbit : e.getLsbD i = true := by
    by_contra hno
    rw [has, BitVec.and_twoPow, if_neg hno] at h
    simp at h
  apply BitVec.eq_of_getLsbD_eq
  intro j hj
  rw [BitVec.getLsbD_or, BitVec.getLsbD_twoPow]
  by_cases hij : i = j
  · subst hij
    simp [hbit]
  · simp [hij]

/-- The two entries of a merged pair are the same. -/
theorem mergedEntry_eq (hp : has e pteP = true) (hu : has e pteU = true) : mergedEntry e = cowEntry e := by
  have hkeep (bit : Word) (i : Nat) (hbit : bit = BitVec.twoPow 64 i) (h : has e bit = true) :
    e ||| pteCOW ||| bit = e ||| pteCOW := by
    rw [BitVec.or_assoc, BitVec.or_comm pteCOW bit, ← BitVec.or_assoc, hbit, or_twoPow_self (hbit ▸ h)]
  rw [mergedEntry, hkeep pteP 0 (by decide) hp, hkeep pteU 2 (by decide) hu, BitVec.or_assoc,
    BitVec.or_self, cowEntry]

theorem or_cow_of_frozen (h : Frozen e) : e ||| pteCOW = e := by
  rw [show pteCOW = BitVec.twoPow 64 9 by decide]
  exact or_twoPow_self h.1

theorem cowEntry_of_frozen (h : Frozen e) : cowEntry e = e := by
  rw [cowEntry, or_cow_of_frozen h, andNot_eq_self h.2]

/-- Equal neighbours below `hi` have one entry, to be copied before a store. -/
def Settled (mem : Mem) (r hi : Nat) : Prop :=
  ∀ k, k + 1 < hi → Twins mem r k → entry mem r (k + 1) = entry mem r k ∧ Frozen (entry mem r k)

theorem Merged.settled (h : Merged s s' r k rest) (hview : SameView s.mem s'.mem r) (hk : k + 1 < 2 ^ 35)
    (ht : Twins s.mem r k) (hsettled : Settled s.mem r (k + 1)) : Settled s'.mem r (k + 2) := by
  intro j hj htj
  have hold : Twins s.mem r j := htj.of_view hview (by omega)
  by_cases hjk : j = k
  · subst hjk
    rw [h.map (j + 1) (by omega), if_pos rfl, h.map j (by omega), if_neg (by omega : ¬j = j + 1), if_pos rfl,
      mergedEntry_eq ht.2.1.1 ht.2.1.2]
    exact ⟨rfl, frozen_cowEntry⟩
  · obtain ⟨heq, hfrozen⟩ := hsettled j (by omega) hold
    have hfirst : entry s'.mem r j = entry s.mem r j := by
      rw [h.map j (by omega), if_neg (by omega : ¬j = k + 1), if_neg hjk]
    have hsecond : entry s'.mem r (j + 1) = entry s.mem r (j + 1) := by
      rw [h.map (j + 1) (by omega), if_neg (by omega : ¬j + 1 = k + 1)]
      by_cases hnext : j + 1 = k
      · -- the entry of the second page of the pair `j` is stored again, and is what it was
        subst hnext
        rw [if_pos rfl, cowEntry_of_frozen (heq ▸ hfrozen)]
      · rw [if_neg hnext]
    rw [hfirst, hsecond]
    exact ⟨heq, hfrozen⟩

theorem dedupLoop_settles (hfull : m.Full) (hv : v.toNat = 4096) (j : Nat) (h : Space s kpdpt r rest)
    (ha : a.toNat = n * 4096) (hn : n + j ≤ 2 ^ 35) (hsum : Summed s r n) (hsettled : Settled s.mem r n)
    (hwalk : ∀ k < n + j, walk s.mem r (pagePath k) ≠ none) :
    ∃ s', dedupLoop m (kva r) v j s a = .ok s' ∧ Settled s'.mem r (n + j) := by
  induction j generalizing s a n with
  | zero => exact ⟨s, rfl, hsettled⟩
  | succ j ih =>
    obtain ⟨s₁, hrun, hspace, hsum₁, hcase⟩ := dedupPage_cases hfull h ha (by omega) hv hsum (hwalk n (by omega))
      (fun k hk => hwalk k (by omega))
    rw [dedupLoop, hrun, ok_bind, show n + (j + 1) = n + 1 + j by omega]
    rcases hcase with ⟨c, rfl, hno⟩ | ⟨k, c, rfl, ht, hmerged⟩
    · refine ih hspace (next_page ha (by omega)) (by omega) hsum₁ ?_ (fun k hk => hwalk k (by omega))
      intro k hk htk
      by_cases hlast : k + 1 = n
      · exact absurd htk (hno k hlast.symm)
      · exact hsettled k (by omega) htk
    · have hview := (hmerged.turn (h.congr (fun _ _ => rfl) rfl rfl) hspace ht.1
        (by omega) ht.2.1 ht.2.2.1 ht.2.2.2).view
      refine ih hspace (next_page ha (by omega)) (by omega) hsum₁ ?_ ?_
      · exact Merged.settled hmerged hview (by omega) ht hsettled
      · intro i hi
        rw [hview.walk_eq _ (by simp)]
        exact hwalk i (by omega)

theorem setWord_self (mem : Mem) (t i : Nat) (w : Word) (h : mem t i = w) : setWord mem t i w = mem := by
  rw [setWord, setPage, ← h, update_eq_self, update_eq_self]

theorem write_same (hfull : m.Full) (hman : Managed t) {w : Word} (h : s.mem t (n % 512) = w) :
    write m s (entryPtr (kva t) (n % 512)) w = .ok s := by
  rw [write_entry hfull hman, setWord_self s.mem t (n % 512) w h]

/-- A frame with two references loses one and gets it back. -/
theorem release_retain {held : List Nat} (h : Owned Managed s (g :: held)) (hg : g ∈ held) :
    krelease m s (kva g) = .ok { s with refs := update s.refs g (s.refs g - 1) } ∧
      kretain { s with refs := update s.refs g (s.refs g - 1) } (kva g) = .ok s := by
  have hman : Managed g := h.of_held (by simp)
  have hidx : pgIndex (v2p (kva g)) = g := ptrFrame_kva hman.small
  constructor
  · simp only [krelease, hidx, getRefs, if_pos hman.lt, ok_bind, setRefs]
    rw [if_neg (by rw [h.counted.release_zero_iff]; simpa using hg)]
    rfl
  · simp only [kretain, hidx, getRefs, if_pos hman.lt, ok_bind, setRefs, update_self, update_idem]
    rw [Int.sub_add_cancel, update_eq_self]

/-- Merging two pages that are merged already. -/
theorem mergePages_again (hfull : m.Full) (h : Space s kpdpt r rest) (ha : a.toNat = (k + 1) * 4096)
    (hk : k + 1 < 2 ^ 35)
    (hu : UserPage s.mem r k) (heq : entry s.mem r (k + 1) = entry s.mem r k)
    (hfrozen : Frozen (entry s.mem r k)) :
    mergePages m s (kva r) a (kva (frameOf (entry s.mem r k)))
    (kva (frameOf (entry s.mem r (k + 1)))) = .ok s := by
  have hg := hu.child
  have hf : child (entry s.mem r (k + 1)) = some (frameOf (entry s.mem r k)) := by rw [heq, hg]
  rw [heq]
  generalize frameOf (entry s.mem r k) = g at hg hf ⊢
  obtain ⟨t₁, hw₁⟩ := walk_of_pte hg
  obtain ⟨t₂, hw₂⟩ := walk_of_pte hf
  have hm₁ := table_managed h.tree hw₁
  have hm₂ := table_managed h.tree hw₂
  have hent₁ : entry s.mem r k = s.mem t₁ (k % 512) := pte_of_walk hw₁
  have hent₂ : entry s.mem r (k + 1) = s.mem t₂ ((k + 1) % 512) := pte_of_walk hw₂
  have hwalk₁ := walkpgdir_page hfull h.tree (prev_page ha) (by omega)
  have hwalk₂ := walkpgdir_page hfull h.tree ha hk
  rw [hw₁, Option.map_some] at hwalk₁
  rw [hw₂, Option.map_some] at hwalk₂
  rw [heq] at hent₂
  obtain ⟨R, hR⟩ : ∃ R, (treeRefs s.mem r).Perm (g :: R) := ⟨_, List.perm_cons_erase (h.tree.leaf_mem rfl hf)⟩
  have hgR := first_held h hk hw₂ hg rfl hf hR
  obtain ⟨hrelease, hretain⟩ := @release_retain m s g (R ++ r :: rest) (h.owned.perm (hR.append_right (r :: rest)))
    (by simp [hgR])
  obtain ⟨hp, huser⟩ := hu
  generalize entry s.mem r k = e at hent₁ hent₂ hfrozen hp huser
  have hcow : e ||| pteCOW = e := or_cow_of_frozen hfrozen
  have hmerged : e ||| pteP ||| pteU ||| pteCOW = e := by
    rw [show pteP = BitVec.twoPow 64 0 by decide, or_twoPow_self hp, show pteU = BitVec.twoPow 64 2 by decide,
      or_twoPow_self huser, hcow]
  have hread₁ (st : State) (hst : st.mem = s.mem) :
    Xv6.Memory.read m st (entryPtr (kva t₁) (k % 512)) = .ok e := by
    rw [read_entryPtr hm₁.small (hm₁.ram hfull) (by omega), hst, hent₁]
  have hread₂ : Xv6.Memory.read m s (entryPtr (kva t₂) ((k + 1) % 512)) = .ok e := by
    rw [read_entryPtr hm₂.small (hm₂.ram hfull) (by omega), hent₂]
  rw [mergePages_run hwalk₁ hwalk₂ (hread₁ s rfl)
    (by rw [hcow]; exact write_same hfull hm₁ hent₁.symm) (hread₁ s rfl)
    (by rw [hmerged]; exact write_same hfull hm₂ hent₂.symm) hread₂
    (by rw [andNot_eq_self hfrozen.2]; exact write_same hfull hm₂ hent₂.symm) hrelease (hread₁ _ rfl)
    (by rw [if_neg (by simp [hfrozen.2])])]
  exact hretain

theorem dedupLoop_again (hfull : m.Full) (hv : v.toNat = 4096) (j : Nat) (h : Space s kpdpt r rest)
    (ha : a.toNat = n * 4096) (hn : n + j ≤ 2 ^ 35) (hsum : Summed s r n) (hsettled : Settled s.mem r (n + j))
    (hwalk : ∀ k < n + j, walk s.mem r (pagePath k) ≠ none) :
    ∃ c, dedupLoop m (kva r) v j s a = .ok { s with checksum := c } := by
  induction j generalizing s a n with
  | zero => exact ⟨s.checksum, rfl⟩
  | succ j ih =>
    have hturn : ∃ c, dedupPage m (kva r) v s a = .ok { s with checksum := c } ∧
      Summed { s with checksum := c } r (n + 1) := by
      by_cases htwins : ∃ k, n = k + 1 ∧ Twins s.mem r k
      · obtain ⟨k, rfl, ht⟩ := htwins
        obtain ⟨c, hrun, hsumk⟩ := dedupPage_twins hfull h ha (by omega) hv hsum ht
        obtain ⟨heq, hfrozen⟩ := hsettled k (by omega) ht
        have hspace : Space { s with checksum := c } kpdpt r rest := h.congr (fun _ _ => rfl) rfl rfl
        refine ⟨c, hrun.trans (mergePages_again hfull hspace ha (by omega) ht.2.1 heq hfrozen), ?_⟩
        rintro i hi -
        obtain rfl : i = k + 1 := by omega
        simp only [heq]
        exact hsumk
      · exact dedupPage_idle hfull h ha (by omega) hv hsum (hwalk n (by omega)) (fun k hk => hwalk k (by omega))
          (fun k hk ht => htwins ⟨k, hk, ht⟩)
    obtain ⟨c, hrun, hsum₁⟩ := hturn
    rw [dedupLoop, hrun, ok_bind]
    exact ih (s := { s with checksum := c }) (h.congr (fun _ _ => rfl) rfl rfl)
      (next_page ha (by omega)) (by omega) hsum₁
      (by rwa [show n + 1 + j = n + (j + 1) by omega]) (fun k hk => hwalk k (by omega))

def mapped (mem : Mem) (r : Nat) : Set Nat := {f | ∃ n < 2 ^ 35, child (entry mem r n) = some f}

theorem mem_piece_iff (h : Tree mem kpdpt r) : f ∈ r :: treeRefs mem r ↔ IsTable mem r f ∨ f ∈ mapped mem r := by
  constructor
  · intro hf
    have hcount := piece_count (d := ⟨r, 0, true⟩) (f := f) h
    have hpos : 0 < (piece mem ⟨r, 0, true⟩).count f := List.count_pos_iff.mpr hf
    by_cases hleaves : (leaves mem r f).ncard = 0
    · have htables : (tables mem r f).ncard ≠ 0 := by
        intro hzero
        simp only [hleaves, hzero] at hcount
        omega
      obtain ⟨p, hp⟩ := Set.nonempty_of_ncard_ne_zero htables
      exact .inl ⟨p, hp⟩
    · obtain ⟨n, hn⟩ := Set.nonempty_of_ncard_ne_zero hleaves
      exact .inr ⟨n, hn⟩
  · rintro (ht | ⟨n, -, hn⟩)
    · exact h.table_mem ht
    · exact List.mem_cons_of_mem _ (h.leaf_mem rfl hn)

theorem mapped_subset_piece (h : Tree mem kpdpt r) : mapped mem r ⊆ {f | f ∈ r :: treeRefs mem r} :=
  fun _ hf => (mem_piece_iff h).mpr (.inr hf)

theorem mapped_finite (h : Tree mem kpdpt r) : (mapped mem r).Finite :=
  (List.finite_toSet (r :: treeRefs mem r)).subset (mapped_subset_piece h)

section

variable (h : Space s kpdpt r rest) (h' : Space s' kpdpt r rest) (hd : Deduped s s' r hi rest)
include h h' hd

/-- What becomes free is what lost its last mapping. -/
theorem mem_freelist_after (f : Nat) :
    f ∈ s'.freelist ↔ f ∈ s.freelist ∨ f ∈ mapped s.mem r \ mapped s'.mem r := by
  have hheld {st : State} (hst : Space st kpdpt r rest) :
      f ∈ st.freelist ↔ Managed f ∧ f ∉ rest ∧ ¬IsTable st.mem r f ∧ f ∉ mapped st.mem r := by
    rw [hst.owned.counted.mem_free, List.perm_middle.mem_iff, ← List.cons_append, List.mem_append,
      mem_piece_iff hst.tree]
    tauto
  have htables : IsTable s'.mem r f ↔ IsTable s.mem r f := isTable_congr hd.view.walk_eq
  have hsub : f ∈ mapped s'.mem r → f ∈ mapped s.mem r := by
    rintro ⟨n, hn, hc⟩
    obtain ⟨n', hn', hc'⟩ := hd.origin n f hn hc
    exact ⟨n', by omega, hc'⟩
  have hmapped (hf : f ∈ mapped s.mem r) : Managed f ∧ f ∉ rest ∧ ¬IsTable s.mem r f := by
    have hmem := mapped_subset_piece h.tree hf
    obtain ⟨n, -, hc⟩ := hf
    refine ⟨h.owned.of_held ?_, h.apart f hmem, h.tree.leaf_not_table rfl hc⟩
    exact List.mem_append_left _ (h.tree.leaf_mem rfl hc)
  rw [hheld h', hheld h, htables, Set.mem_sdiff]
  tauto

theorem freelist_length_after :
    s'.freelist.length = s.freelist.length + (mapped s.mem r \ mapped s'.mem r).ncard := by
  have hset : {f | f ∈ s'.freelist} = {f | f ∈ s.freelist} ∪ (mapped s.mem r \ mapped s'.mem r) :=
    Set.ext (mem_freelist_after h h' hd)
  have hcard {l : List Nat} (hl : l.Nodup) : {f | f ∈ l}.ncard = l.length := by
    rw [← List.toFinset_card_of_nodup hl, ← Set.ncard_coe_finset]
    congr 1
    ext f
    simp
  have hdisjoint : Disjoint {f | f ∈ s.freelist} (mapped s.mem r \ mapped s'.mem r) := by
    rw [Set.disjoint_left]
    intro f hfree hf
    have hpiece := mapped_subset_piece h.tree hf.1
    refine h.owned.counted.not_mem_free ?_ hfree
    rw [List.perm_middle.mem_iff]
    exact List.mem_append_left _ hpiece
  rw [← hcard h'.owned.counted.nodup, hset, Set.ncard_union_eq hdisjoint (List.finite_toSet s.freelist)
    ((mapped_finite h.tree).subset Set.sdiff_subset), hcard h.owned.counted.nodup]

end

structure MergesAll (s s' : State) (r hi : Nat) (rest : List Nat) : Prop where
  merged : ∀ k, 0 < k → k + 1 < hi → UserPage s.mem r k → UserPage s.mem r (k + 1) →
    SameContents s.mem r k (k + 1) →
    (∃ f, child (entry s'.mem r k) = some f ∧ child (entry s'.mem r (k + 1)) = some f) ∧
      Frozen (entry s'.mem r k) ∧ Frozen (entry s'.mem r (k + 1))
  kept : ∀ k, k < 2 ^ 35 → (∀ j, j + 1 < hi → Twins s.mem r j → k ≠ j ∧ k ≠ j + 1) →
    entry s'.mem r k = entry s.mem r k
  view : SameView s.mem s'.mem r
  contents : ∀ g ∈ rest, s'.mem g = s.mem g
  free : ∀ f ∈ s.freelist, f ∈ s'.freelist
  grows : s'.freelist.length = s.freelist.length + (mapped s.mem r \ mapped s'.mem r).ncard

/-- A call that merges all, and a second one that changes neither memory nor the books. -/
def MergesOnce (s : State) (r : Nat) (sz : Word) (rest : List Nat) : Prop :=
  ∃ s', dedup pc s (kva r) 0 sz = .ok s' ∧ MergesAll s s' r (pages sz) rest ∧
    ∃ s'', dedup pc s' (kva r) 0 sz = .ok s'' ∧ s''.mem = s'.mem ∧ s''.refs = s'.refs ∧ s''.freelist = s'.freelist

theorem mergesOnce_of_tables {sz : Word} (h : Space s kpdpt r rest) (hsz : pages sz ≤ 2 ^ 35)
    (hwalk : ∀ k < pages sz, walk s.mem r (pagePath k) ≠ none) : MergesOnce s r sz rest := by
  obtain ⟨v, a, hv, ha, hloop⟩ := @dedup_loop pc r sz hsz
  obtain ⟨s', hrun, hspace, hd, -⟩ := (dedup_ends pc_full h hsz).returns (by
    rintro e ⟨-, k, hk, hnone⟩
    exact hwalk k hk hnone)
  obtain ⟨t, hrun', hsettled⟩ := dedupLoop_settles pc_full hv (pages sz) h ha (by omega) (fun k hk => by omega)
    (fun k hk => by omega) (by rwa [Nat.zero_add])
  rw [hloop] at hrun
  obtain rfl := Except.ok.inj (hrun.symm.trans hrun')
  rw [Nat.zero_add] at hsettled
  obtain ⟨c, hagain⟩ := dedupLoop_again pc_full hv (pages sz) hspace ha (by omega) (fun k hk => by omega)
    (by rwa [Nat.zero_add]) (by
      intro k hk
      rw [hd.view.walk_eq _ (by simp)]
      exact hwalk k (by omega))
  refine ⟨s', by rw [hloop, hrun], ⟨?_, hd.kept, hd.view, hd.contents, ?_, freelist_length_after h hspace hd⟩,
    { s' with checksum := c }, by rw [hloop, hagain], rfl, rfl, rfl⟩
  · intro k hpos hk hu hu' heq
    have hub := hu.view hd.view (by omega)
    obtain ⟨hsame, hfrozen⟩ := hsettled k hk
      ⟨hpos, hub, hu'.view hd.view (by omega), heq.view hd.view (by omega) (by omega) hu hu'⟩
    rw [hsame]
    exact ⟨⟨_, hub.child, hub.child⟩, hfrozen, hfrozen⟩
  · exact fun f hf => (mem_freelist_after h hspace hd f).mpr (.inl hf)

/-- `sys_dedup` merges all equal neighbours, once, exactly when every page below the size has a page
table. -/
theorem dedup_merges_iff {sz : Word} (h : Space s kpdpt r rest) (hsz : pages sz ≤ 2 ^ 35) :
    MergesOnce s r sz rest ↔ ∀ k < pages sz, walk s.mem r (pagePath k) ≠ none := by
  constructor
  · rintro ⟨s', hrun, -⟩
    exact ((dedup_ends pc_full h hsz).of_ok hrun).2.2
  · exact mergesOnce_of_tables h hsz

/-- A process of 512 pages, all of zeros but the unmapped first one, keeps one frame. -/
theorem dedup_merges_zeros : ∃ s d, Reach (system pc) Plain s ∧ d ∈ s.pgdirs ∧ pages d.sz = 512 ∧
    (∀ k, 0 < k → k + 1 < 512 → Twins s.vm.mem d.root k) ∧ MergesOnce s.vm d.root d.sz (others s d) := by
  obtain ⟨s, d, h, -⟩ := exists_zeros 0 (by omega)
  have htwins (k : Nat) (hpos : 0 < k) (hk : k + 1 < 512) : Twins s.vm.mem d.root k := by
    obtain ⟨hu, hzero⟩ := h.zero k hpos (by omega)
    obtain ⟨hu', hzero'⟩ := h.zero (k + 1) (by omega) hk
    exact ⟨hpos, hu, hu', fun i hi => (hzero i hi).trans (hzero' i hi).symm⟩
  exact ⟨s, d, h.plain, h.mem, h.pages, htwins,
    (dedup_merges_iff (h.inv.space h.mem) (by rw [h.pages]; omega)).mpr (h.tables (by omega))⟩

/-- The child of a process of 4 GB has pages below its size without a page table. -/
theorem large_child_merges_nothing : ∃ s d, Reach (system pc) Plain s ∧ d ∈ s.pgdirs ∧
    d.live = true ∧ Alive s.vm.mem d ∧
    dedup pc s.vm (kva d.root) 0 d.sz = .error .nullDeref ∧ ¬ MergesOnce s.vm d.root d.sz (others s d) := by
  obtain ⟨s, c, hreach, hc, hlive, halive, k, hk, hmissing⟩ := exists_large_child
  have hinv := inv_plain hreach
  have hcrash : dedup pc s.vm (kva c.root) 0 c.sz = .error .nullDeref := by
    have hends := dedup_ends pc_full (hinv.space hc) (pages_small hinv hc)
    cases hrun : dedup pc s.vm (kva c.root) 0 c.sz with
    | ok vm => exact absurd hmissing ((hends.of_ok hrun).2.2 k hk)
    | error e => rw [(hends.of_error hrun).1]
  refine ⟨s, c, hreach, hc, hlive, halive, hcrash, ?_⟩
  rintro ⟨vm, hrun, -⟩
  cases hcrash.symm.trans hrun

end Xv6.DedupTwice
