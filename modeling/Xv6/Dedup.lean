import Xv6.CopyOnWrite

/-!
# Merging equal pages

When two neighbouring pages are equal, `dedup` makes the second map the frame of the first, both
marked for copying, and moves one reference from the one frame to the other. In between, the frame
is mapped twice while the first page can be written; the invariant holds again when the turn ends.
-/
namespace Xv6.Dedup

open Words Mmu Memory Kalloc Vm Outcome RadixTree PageTable AddressSpace PageNumber UserPages
open CopyUvm CopyOnWrite Function

variable {m : Machine} {s s' s₁ : State} {mem mem' mem₁ : Mem} {kpdpt r t f g n k : Nat}
  {a v e : Word} {rest : List Nat}

/-- The entry of the first of two equal pages after the turn. -/
def cowEntry (e : Word) : Word := (e ||| pteCOW) &&& ~~~pteW

/-- The entry of the second, made from the entry `e` of the first. -/
def mergedEntry (e : Word) : Word := (e ||| pteCOW ||| pteP ||| pteU ||| pteCOW) &&& ~~~pteW

theorem has_cowEntry {bit : Word} (hbit : bit &&& pteW = 0#64) : has (cowEntry e) bit =
    (has e bit || has pteCOW bit) := by
  rw [cowEntry, has_andNot hbit, has_or]

theorem has_mergedEntry {bit : Word} (hbit : bit &&& pteW = 0#64) :
    has (mergedEntry e) bit = (has e bit || has pteCOW bit || has pteP bit || has pteU bit || has pteCOW bit) := by
  rw [mergedEntry, has_andNot hbit, has_or, has_or, has_or, has_or]

theorem child_cowEntry : child (cowEntry e) = child e := by
  rw [child, child, has_cowEntry (by decide), show has pteCOW pteP = false by decide, Bool.or_false, cowEntry,
    frameOf_andNot isFlags_pteW, frameOf_or isFlags_pteCOW]

theorem child_mergedEntry (hc : child e = some g) : child (mergedEntry e) = some g := by
  obtain ⟨hp, hf⟩ := child_eq_some.mp hc
  rw [child_eq_some, has_mergedEntry (by decide), hp, mergedEntry, frameOf_andNot isFlags_pteW,
    frameOf_or isFlags_pteCOW, frameOf_or isFlags_pteU, frameOf_or isFlags_pteP, frameOf_or isFlags_pteCOW, hf]
  exact ⟨rfl, rfl⟩

theorem frozen_cowEntry : Frozen (cowEntry e) := by
  refine ⟨?_, has_andNot_self _ _⟩
  rw [has_cowEntry (by decide), show has pteCOW pteCOW = true by decide, Bool.or_true]

theorem frozen_mergedEntry : Frozen (mergedEntry e) := by
  refine ⟨?_, has_andNot_self _ _⟩
  rw [has_mergedEntry (by decide), show has pteCOW pteCOW = true by decide, Bool.or_true]

theorem Frozen.leafOk (h : Frozen e) : LeafOk e := fun _ _ _ => h.1

/-- Page `k + 1`, which mapped `f`, maps the frame `g` of page `k`; no frame in use changed. -/
structure Merged (s s' : State) (r k : Nat) (rest : List Nat) : Prop where
  map : ∀ n, n < 2 ^ 36 → entry s'.mem r n =
    if n = k + 1 then mergedEntry (entry s.mem r k) else if n = k then cowEntry
      (entry s.mem r k) else entry s.mem r n
  walk_eq : ∀ p, p.length < 4 → walk s'.mem r p = walk s.mem r p
  contents : ∀ u ∈ treeRefs s'.mem r ++ r :: rest, ¬ IsTable s.mem r u → s'.mem u = s.mem u
  checksum : s'.checksum = s.checksum

def mergedMem (mem : Mem) (t₁ t₂ k : Nat) (e : Word) : Mem :=
  setWord (setWord mem t₁ (k % 512) (cowEntry e)) t₂ ((k + 1) % 512) (mergedEntry e)

section Merge

variable (h : Space s kpdpt r rest) (hk : k + 1 < 2 ^ 35) {t₁ t₂ : Nat}
  (hw₁ : walk s.mem r (pagePath k) = some t₁) (hw₂ : walk s.mem r (pagePath (k + 1)) = some t₂)
  (hg : child e = some g) (he : entry s.mem r k = e) (hf : child (entry s.mem r (k + 1)) = some f)

include h hk hw₁ in
theorem stored_first : Stored s.mem (setWord s.mem t₁ (k % 512) (cowEntry e)) r k (cowEntry e) :=
  stored_setWord h.tree.shape (by omega) hw₁

include h hk hw₁ hw₂ in
theorem stored_second : Stored (setWord s.mem t₁ (k % 512) (cowEntry e)) (mergedMem s.mem t₁ t₂ k e) r
    (k + 1) (mergedEntry e) :=
  stored_setWord (shape_setPte h.tree.shape rfl hw₁) hk
    (((stored_first h hk hw₁).walk_eq _ (by simp)).trans hw₂)

include h hk hw₁ hw₂ in
theorem walk_merged (p : List Nat) (hp : p.length < 4) :
    walk (mergedMem s.mem t₁ t₂ k e) r p = walk s.mem r p := by
  rw [(stored_second h hk hw₁ hw₂).walk_eq p hp, (stored_first h hk hw₁).walk_eq p hp]

include h hk hw₁ hw₂ hg he in
theorem tree_merged : Tree (mergedMem s.mem t₁ t₂ k e) kpdpt r := by
  have hst := stored_first (e := e) h hk hw₁
  have hgk : child (entry s.mem r k) = some g := he ▸ hg
  have htree : Tree (setWord s.mem t₁ (k % 512) (cowEntry e)) kpdpt r := by
    refine tree_setEntry h.tree (by omega) hw₁ (fun _ _ => pos_of_child h.tree hgk)
      (Frozen.leafOk frozen_cowEntry) ?_ ?_
    · intro u hu
      rw [child_cowEntry, ← he] at hu
      exact h.tree.leaf_not_table rfl hu
    · intro u n hu hn hne hc
      rw [child_cowEntry, ← he] at hu
      exact ⟨frozen_cowEntry, frozen_of_shared h.tree (by omega) (by omega) hne hc hu⟩
  refine tree_setEntry htree hk ((hst.walk_eq _ (by simp)).trans hw₂) (fun _ _ => by omega)
    (Frozen.leafOk frozen_mergedEntry) ?_ ?_
  · intro u hu ht
    obtain rfl := Option.some.inj ((child_mergedEntry hg).symm.trans hu)
    exact h.tree.leaf_not_table rfl hgk ((isTable_congr hst.walk_eq).mp ht)
  · intro u n hu hn hne hc
    obtain rfl := Option.some.inj ((child_mergedEntry hg).symm.trans hu)
    refine ⟨frozen_mergedEntry, ?_⟩
    rw [hst.entry_eq (by omega) (by omega)] at hc ⊢
    split
    · exact frozen_cowEntry
    · rename_i hnk
      rw [if_neg hnk] at hc
      exact frozen_of_shared h.tree (by omega) (by omega) hnk hc hgk

include h hk hw₁ hw₂ hg he hf in
theorem refs_merged {R : List Nat} (hR : (treeRefs s.mem r).Perm (f :: R)) :
    (treeRefs (mergedMem s.mem t₁ t₂ k e) r).Perm ([g] ++ R) := by
  have hst := stored_first (e := e) h hk hw₁
  have hfirst := hst.refs
  rw [child_cowEntry, he, List.perm_append_right_iff] at hfirst
  have hsecond := (stored_second (e := e) h hk hw₁ hw₂).exchange (f := f)
    (by rw [hst.entry_eq (by omega) (by omega), if_neg (by omega), hf]) (hfirst.trans hR)
  rwa [child_mergedEntry hg] at hsecond

include h hk hw₂ hg he hf in
/-- The first page keeps a reference to its frame when the second gives up its own. -/
theorem first_held {R : List Nat} (hR : (treeRefs s.mem r).Perm (f :: R)) : g ∈ R := by
  have hst : Stored s.mem (setWord s.mem t₂ ((k + 1) % 512) 0) r (k + 1) 0 :=
    stored_setWord h.tree.shape hk hw₂
  have hmem := leaf_mem_treeRefs (f := g) (shape_setPte (i := (k + 1) % 512) (e := 0) h.tree.shape rfl hw₂)
    (by omega : k < 2 ^ 35) (by rw [hst.entry_eq (by omega) (by omega), if_neg (by omega), he, hg])
  simpa using (hst.exchange hf hR).mem_iff.mp hmem

end Merge

theorem prev_page (ha : a.toNat = (k + 1) * 4096) : (a - 0x1000).toNat = k * 4096 := by
  have := a.isLt
  rw [BitVec.toNat_sub, show (0x1000 : Word).toNat = 4096 from rfl]
  omega

/-- The turn, one access after the other. -/
theorem mergePages_run {pgdir off va p₁ p₂ e₁ e₂ e₄ : Word} {s₂ s₃ s₄ s₅ : State}
    (h₁ : walkpgdir m s pgdir (a - 0x1000) false = .ok (s, some p₁))
    (h₂ : walkpgdir m s pgdir a false = .ok (s, some p₂))
    (hread : Xv6.Memory.read m s p₁ = .ok e) (hwrite : write m s p₁ (e ||| pteCOW) = .ok s₁)
    (hread₁ : Xv6.Memory.read m s₁ p₁ = .ok e₁)
    (hwrite₁ : write m s₁ p₂ (e₁ ||| pteP ||| pteU ||| pteCOW) = .ok s₂)
    (hread₂ : Xv6.Memory.read m s₂ p₂ = .ok e₂) (hwrite₂ : write m s₂ p₂ (e₂ &&& ~~~pteW) = .ok s₃)
    (hrelease : krelease m s₃ va = .ok s₄) (hread₄ : Xv6.Memory.read m s₄ p₁ = .ok e₄)
    (hlast : (if has e₄ pteW = true then write m s₄ p₁ (e₄ &&& ~~~pteW) else .ok s₄) = .ok s₅) :
    mergePages m s pgdir a off va = kretain s₅ off := by
  rw [mergePages, h₁, ok_bind]
  simp only
  rw [h₂, ok_bind]
  simp only
  rw [hread, ok_bind, hwrite, ok_bind]
  rw [hread₁, ok_bind, hwrite₁, ok_bind, hread₂, ok_bind, hwrite₂, ok_bind, hrelease, ok_bind, hread₄, ok_bind]
  by_cases hw : has e₄ pteW = true
  · rw [if_pos hw] at hlast
    rw [if_pos hw, hlast, ok_bind]
  · rw [if_neg hw] at hlast
    obtain rfl := Except.ok.inj hlast
    rw [if_neg hw]
    rfl

/-- Memory in the middle of the turn, when the first page can still be written. -/
def lentMem (mem : Mem) (t₁ t₂ k : Nat) (e : Word) : Mem :=
  setWord (setWord mem t₁ (k % 512) (e ||| pteCOW)) t₂ ((k + 1) % 512) (mergedEntry e)

section MergeRun

variable (hfull : m.Full) (h : Space s kpdpt r rest) (hk : k + 1 < 2 ^ 35) {t₁ t₂ : Nat}
  (hw₁ : walk s.mem r (pagePath k) = some t₁) (hw₂ : walk s.mem r (pagePath (k + 1)) = some t₂)
  (he : entry s.mem r k = e) (hf : child (entry s.mem r (k + 1)) = some f)
  (hmem : ∀ u, u ≠ f → s₁.mem u = lentMem s.mem t₁ t₂ k e u)

include h hk hw₁ hw₂ hf hmem in
/-- The first entry, which can still be written, after the release. -/
theorem first_entry : s₁.mem t₁ (k % 512) = e ||| pteCOW := by
  have hne : t₁ ≠ f := by
    rintro rfl
    exact h.tree.leaf_not_table rfl hf ⟨_, by simp, hw₁⟩
  refine (congrFun (hmem t₁ hne) _).trans ?_
  exact (setWord_of_ne (slot_ne h.tree.shape (by omega) (by omega) (by omega) hw₁ hw₂) _).trans
    (setWord_same s.mem t₁ (k % 512) (e ||| pteCOW))

include hfull h hk hw₁ hw₂ he hf hmem in
theorem mergePages_eq {st : State} (ha : a.toNat = (k + 1) * 4096)
    (hrelease : krelease m { s with mem := lentMem s.mem t₁ t₂ k e } (kva f) = .ok s₁)
    (hst : (if has (e ||| pteCOW) pteW = true then
      write m s₁ (entryPtr (kva t₁) (k % 512)) ((e ||| pteCOW) &&& ~~~pteW) else .ok s₁) = .ok st) :
    mergePages m s (kva r) a (kva g) (kva f) = kretain st (kva g) := by
  have hm₁ := table_managed h.tree hw₁
  have hm₂ := table_managed h.tree hw₂
  have hwalk₁ := walkpgdir_page hfull h.tree (prev_page ha) (by omega)
  have hwalk₂ := walkpgdir_page hfull h.tree ha hk
  rw [hw₁, Option.map_some] at hwalk₁
  rw [hw₂, Option.map_some] at hwalk₂
  have hread {t i : Nat} (hm : Managed t) (hi : i < 512) (st : State) {w : Word} (hw : st.mem t i = w) :
      Xv6.Memory.read m st (entryPtr (kva t) i) = .ok w :=
    hw ▸ read_entryPtr hm.small (hm.ram hfull) hi
  refine mergePages_run hwalk₁ hwalk₂ (hread hm₁ (by omega) s ((pte_of_walk hw₁).symm.trans he))
    (write_entry hfull hm₁ _) (hread hm₁ (by omega) _ (setWord_same _ _ _ _)) (write_entry hfull hm₂ _)
    (hread hm₂ (by omega) _ (setWord_same _ _ _ _)) (write_entry hfull hm₂ _) ?_
    (hread hm₁ (by omega) s₁ (first_entry h hk hw₁ hw₂ hf hmem)) hst
  simp only [setWord_idem]
  exact hrelease

include hfull h hk hw₁ hw₂ hf hmem in
/-- Then it cannot be written any more. -/
theorem merge_last : ∃ mem, (if has (e ||| pteCOW) pteW = true then
      write m s₁ (entryPtr (kva t₁) (k % 512)) ((e ||| pteCOW) &&& ~~~pteW) else .ok s₁) =
        .ok { s₁ with mem } ∧ (∀ u, u ≠ t₁ → mem u = s₁.mem u) ∧
      ∀ u, IsTable s.mem r u → mem u = mergedMem s.mem t₁ t₂ k e u := by
  have hslot := slot_ne h.tree.shape (by omega) (by omega) (by omega) hw₁ hw₂
  have htab (u : Nat) (hu : IsTable s.mem r u) : u ≠ f := by
    rintro rfl
    exact h.tree.leaf_not_table rfl hf hu
  by_cases hwr : has (e ||| pteCOW) pteW = true
  · rw [if_pos hwr, write_entry hfull (table_managed h.tree hw₁)]
    refine ⟨_, rfl, fun u hu => setWord_other hu _ _, fun u hu => ?_⟩
    refine (setWord_congr (hmem u (htab u hu)) _ _).trans ?_
    rw [lentMem, setWord_comm hslot, setWord_idem, ← setWord_comm hslot]
    rfl
  · rw [if_neg hwr]
    refine ⟨s₁.mem, rfl, fun _ _ => rfl, fun u hu => ?_⟩
    rw [hmem u (htab u hu), lentMem, mergedMem, cowEntry, andNot_eq_self (by simpa using hwr)]

end MergeRun

theorem mergePages_space (hfull : m.Full) (h : Space s kpdpt r rest) (ha : a.toNat = (k + 1) * 4096)
    (hk : k + 1 < 2 ^ 35) (hg : child (entry s.mem r k) = some g)
    (hf : child (entry s.mem r (k + 1)) = some f) :
    ∃ s', mergePages m s (kva r) a (kva g) (kva f) = .ok s' ∧ Space s' kpdpt r rest ∧
      Merged s s' r k rest := by
  obtain ⟨t₁, hw₁⟩ := walk_of_pte hg
  obtain ⟨t₂, hw₂⟩ := walk_of_pte hf
  obtain ⟨R, hR⟩ : ∃ R, (treeRefs s.mem r).Perm (f :: R) :=
    ⟨_, List.perm_cons_erase (h.tree.leaf_mem rfl hf)⟩
  generalize he : entry s.mem r k = e at hg
  have hgR := first_held h hk hw₂ hg he hf hR
  obtain ⟨s₁, hrelease, hown₁, hmem₁, hsum, -⟩ := krelease_kva
    (s := { s with mem := lentMem s.mem t₁ t₂ k e }) hfull
      ((h.owned.perm (hR.append_right (r :: rest))).congr rfl rfl)
  have hmem := fun u hu => hmem₁ u (.inl hu)
  obtain ⟨mem, hlast, hother, htable⟩ := merge_last hfull h hk hw₁ hw₂ hf hmem
  obtain ⟨hret, hown⟩ := kretain_kva (s := { s₁ with mem }) (hown₁.congr rfl rfl)
    (List.mem_append_left (r :: rest) hgR)
  have hwalk := walk_merged (e := e) h hk hw₁ hw₂
  have hsame : ∀ u, IsTable (mergedMem s.mem t₁ t₂ k e) r u → mem u = mergedMem s.mem t₁ t₂ k e u :=
    fun u hu => htable u ((isTable_congr hwalk).mp hu)
  have hrefs := refs_merged h hk hw₁ hw₂ hg he hf hR
  rw [← treeRefs_tables hsame] at hrefs
  have hsub : ∀ u ∈ R, u ∈ treeRefs s.mem r :=
    fun u hu => hR.mem_iff.mpr (List.mem_cons_of_mem f hu)
  refine ⟨_, (mergePages_eq hfull h hk hw₁ hw₂ he hf hmem ha hrelease hlast).trans hret,
    Space.exchange h.apart ((tree_merged h hk hw₁ hw₂ hg he).congr hsame) hrefs hsub ?_ hown,
    ?_, ?_, ?_, hsum⟩
  · intro u hu
    rw [List.mem_singleton.mp hu]
    exact h.apart g (List.mem_cons_of_mem r (hsub g hgR))
  · intro n hn
    rw [entry, pte_tables hsame rfl, ← entry, (stored_second h hk hw₁ hw₂).entry_eq (by omega) hn,
      (stored_first h hk hw₁).entry_eq (by omega) hn, he]
  · intro p hp
    exact (walk_tables hsame (by omega)).trans (hwalk p hp)
  · intro u hu hut
    have hne : ∀ t, IsTable s.mem r t → u ≠ t := by
      rintro t ht rfl
      exact hut ht
    rw [List.mem_append, hrefs.mem_iff, List.mem_append, List.mem_singleton] at hu
    have hin : u ∈ R ++ r :: rest := List.mem_append.mpr (hu.imp_left (Or.rec (· ▸ hgR) id))
    refine (hother u (hne t₁ ⟨_, by simp, hw₁⟩)).trans ((kept_of_held hmem₁ hin).trans ?_)
    exact (setWord_other (hne t₂ ⟨_, by simp, hw₂⟩) _ _).trans
      (setWord_other (hne t₁ ⟨_, by simp, hw₁⟩) _ _)

def UserPage (mem : Mem) (r n : Nat) : Prop :=
  has (entry mem r n) pteP = true ∧ has (entry mem r n) pteU = true

def SameContents (mem : Mem) (r n n' : Nat) : Prop :=
  ∀ i < 512, mem (frameOf (entry mem r n)) i = mem (frameOf (entry mem r n')) i

theorem UserPage.child (h : UserPage mem r n) : child (entry mem r n) = some (frameOf (entry mem r n)) :=
  child_eq_some.mpr ⟨h.1, rfl⟩

def Twins (mem : Mem) (r k : Nat) : Prop :=
  0 < k ∧ UserPage mem r k ∧ UserPage mem r (k + 1) ∧ SameContents mem r k (k + 1)

def Summed (s : State) (r n : Nat) : Prop :=
  ∀ k, n = k + 1 → UserPage s.mem r k →
    s.checksum (frameOf (entry s.mem r k)) = pageSum (s.mem (frameOf (entry s.mem r k)))

structure Turn (s s' : State) (r n : Nat) (rest : List Nat) : Prop where
  view : SameView s.mem s'.mem r
  others : ∀ k, k < 2 ^ 35 → k ≠ n → child (entry s'.mem r k) = child (entry s.mem r k)
  here : child (entry s'.mem r n) = child (entry s.mem r n) ∨
    ∃ k, n = k + 1 ∧ child (entry s'.mem r n) = child (entry s.mem r k)
  merged : ∀ k, n = k + 1 → 0 < k → UserPage s.mem r k → UserPage s.mem r n → SameContents s.mem r k n →
    child (entry s'.mem r n) = child (entry s'.mem r k)
  contents : ∀ g ∈ rest, s'.mem g = s.mem g
  kept : ∀ k, k < 2 ^ 35 → (∀ j, n = j + 1 → Twins s.mem r j → k ≠ j ∧ k ≠ j + 1) →
    entry s'.mem r k = entry s.mem r k

theorem Merged.turn (h : Merged s s' r k rest) (h₀ : Space s kpdpt r rest) (h' : Space s' kpdpt r rest)
    (hpos : 0 < k) (hk : k + 1 < 2 ^ 35) (hg : UserPage s.mem r k) (hf : UserPage s.mem r (k + 1))
    (heq : SameContents s.mem r k (k + 1)) : Turn s s' r (k + 1) rest := by
  have hcg := hg.child
  have hmap : ∀ n, n < 2 ^ 35 → n ≠ k + 1 → child (entry s'.mem r n) = child (entry s.mem r n) := by
    intro n hn hne
    rw [h.map n (by omega), if_neg hne]
    split
    · rename_i he
      rw [he, child_cowEntry]
    · rfl
  have hhere : child (entry s'.mem r (k + 1)) = child (entry s.mem r k) := by
    rw [h.map (k + 1) (by omega), if_pos rfl, hcg]
    exact child_mergedEntry hcg
  have hused : ∀ n u, n < 2 ^ 35 → child (entry s'.mem r n) = some u → child (entry s.mem r n) = some u ∨
      child (entry s.mem r k) = some u → s'.mem u = s.mem u := by
    intro n u hn hc hold
    refine h.contents u (by simp [h'.tree.leaf_mem rfl hc]) ?_
    rcases hold with hold | hold
    · exact h₀.tree.leaf_not_table rfl hold
    · exact h₀.tree.leaf_not_table rfl hold
  refine ⟨⟨h.walk_eq, ?_, ?_, ?_⟩, hmap, .inr ⟨k, rfl, hhere⟩, ?_, ?_, ?_⟩
  · intro n hn
    rw [h.map n (by omega)]
    split
    · rename_i he
      rw [he, hf.1, has_mergedEntry (by decide), hg.1]
      rfl
    · split
      · rename_i he
        rw [he, has_cowEntry (by decide), hg.1]
        rfl
      · rfl
  · intro n hn _
    rw [h.map n (by omega)]
    split
    · rename_i he
      rw [he, hf.2, has_mergedEntry (by decide), hg.2]
      rfl
    · split
      · rename_i he
        rw [he, has_cowEntry (by decide), hg.2]
        rfl
      · rfl
  · intro n u u' hn hu hu' i hi
    by_cases he : n = k + 1
    · subst he
      have hu'' := hu'
      rw [hhere] at hu''
      rw [hused _ u' hn hu' (.inr hu''), ← (child_eq_some.mp hu).2, ← (child_eq_some.mp hu'').2]
      exact heq i hi
    · have hu'' := hu'
      rw [hmap n hn he, hu] at hu''
      obtain rfl := Option.some.inj hu''
      rw [hused n u hn hu' (.inl hu)]
  · intro j hj _ _ _ _
    obtain rfl : j = k := by omega
    rw [hhere, hmap j (by omega) (by omega)]
  · intro u hu
    exact h.contents u (by simp [hu]) (h₀.other hu).2
  · intro n hn hno
    obtain ⟨h₁, h₂⟩ := hno k rfl ⟨hpos, hg, hf, heq⟩
    rw [h.map n (by omega), if_neg h₂, if_neg h₁]

theorem pageSum_congr {p q : Page} (h : ∀ i < 512, p i = q i) : pageSum p = pageSum q := by
  have hfold : ∀ (L : List Nat) (w : Word), (∀ i ∈ L, p i = q i) →
      L.foldl (fun sum i => sum + p i) w = L.foldl (fun sum i => sum + q i) w := by
    intro L
    induction L with
    | nil => intro w _; rfl
    | cons i L ih =>
      intro w hL
      rw [List.foldl_cons, List.foldl_cons, hL i (by simp)]
      exact ih _ (fun j hj => hL j (by simp [hj]))
  exact hfold _ _ (fun i hi => h i (by simpa [npdEntries] using hi))

/-- A turn that finds nothing to merge changes no memory. -/
theorem turn_idle (hmem : s'.mem = s.mem)
    (hno : ∀ k, n = k + 1 → 0 < k → UserPage s.mem r k → UserPage s.mem r n → ¬ SameContents s.mem r k n) :
    Turn s s' r n rest := by
  refine ⟨by rw [hmem]; exact SameView.refl s.mem r, fun _ _ _ => by rw [hmem], .inl (by rw [hmem]), ?_,
    fun _ _ => by rw [hmem], fun _ _ _ => by rw [hmem]⟩
  intro k hk hpos h₁ h₂ heq
  exact absurd heq (hno k hk hpos h₁ h₂)

section

variable (hfull : m.Full) (h : Space s kpdpt r rest)
include hfull h

/-- The turn at a page that is not equal to the one before it only refreshes a checksum. -/
theorem dedupPage_idle (ha : a.toNat = n * 4096) (hn : n < 2 ^ 35)
    (hv : v.toNat = 4096) (hsum : Summed s r n) (hw : walk s.mem r (pagePath n) ≠ none)
    (hprev : ∀ k, n = k + 1 → walk s.mem r (pagePath k) ≠ none) (hno : ∀ k, n = k + 1 → ¬ Twins s.mem r k) :
    ∃ c, dedupPage m (kva r) v s a = .ok { s with checksum := c } ∧ Summed { s with checksum := c } r (n + 1) := by
  obtain ⟨t, hw⟩ := Option.ne_none_iff_exists'.mp hw
  by_cases hu : UserPage s.mem r n
  swap
  · rw [dedupPage, uva2ka_denied hfull h.tree ha hn hw hu, ok_bind, if_pos rfl]
    refine ⟨s.checksum, rfl, ?_⟩
    rintro k hk hk'
    obtain rfl : n = k := by omega
    exact absurd hk' hu
  have hc := hu.child
  generalize hf : frameOf (entry s.mem r n) = f at hc
  have hman : Managed f := h.owned.of_held (by simp [h.tree.leaf_mem rfl hc])
  have hspace : Space { s with checksum := update s.checksum f (pageSum (s.mem f)) } kpdpt r rest :=
    h.congr (fun _ _ => rfl) rfl rfl
  have hsumf : update s.checksum f (pageSum (s.mem f)) f = pageSum (s.mem f) := update_self ..
  have hsummed : Summed { s with checksum := update s.checksum f (pageSum (s.mem f)) } r (n + 1) := by
    rintro k hk -
    obtain rfl : n = k := by omega
    simp only [hf, hsumf]
  rw [dedupPage, uva2ka_user hfull h.tree ha hn hc hu.2, ok_bind, if_neg (kva_ne_zero hman.small), v2p_kva,
    updateChecksum_frame hfull hman, ok_bind]
  by_cases hone : n ≤ 1
  · rw [if_neg (by omega)]
    exact ⟨_, rfl, hsummed⟩
  obtain ⟨k, rfl⟩ : ∃ k, n = k + 1 := ⟨n - 1, by omega⟩
  rw [if_pos (by omega)]
  obtain ⟨t', hw'⟩ := Option.ne_none_iff_exists'.mp (hprev k rfl)
  by_cases hu' : UserPage s.mem r k
  swap
  · rw [uva2ka_denied hfull hspace.tree (prev_page ha) (by omega) hw' hu', ok_bind, if_pos rfl]
    exact ⟨_, rfl, hsummed⟩
  have hc' := hu'.child
  generalize hg : frameOf (entry s.mem r k) = g at hc'
  have hgman : Managed g := h.owned.of_held (by simp [h.tree.leaf_mem rfl hc'])
  rw [uva2ka_user hfull hspace.tree (prev_page ha) (by omega) hc' hu'.2, ok_bind, if_neg (kva_ne_zero hgman.small),
    v2p_kva, framesAreIdentical_frames hfull hgman hman, ok_bind]
  have hsame : samePage (s.mem g) (s.mem f) ≠ true := by
    intro he
    refine hno k rfl ⟨by omega, hu', hu, ?_⟩
    rwa [SameContents, hg, hf, ← samePage_iff]
  rw [if_neg (by simp [hsame])]
  exact ⟨_, rfl, hsummed⟩

/-- The turn at the second of two equal pages merges them, with their checksums up to date. -/
theorem dedupPage_twins (ha : a.toNat = (k + 1) * 4096) (hn : k + 1 < 2 ^ 35)
    (hv : v.toNat = 4096) (hsum : Summed s r (k + 1)) (ht : Twins s.mem r k) :
    ∃ c, dedupPage m (kva r) v s a = mergePages m { s with checksum := c } (kva r) a
        (kva (frameOf (entry s.mem r k))) (kva (frameOf (entry s.mem r (k + 1)))) ∧
      c (frameOf (entry s.mem r k)) = pageSum (s.mem (frameOf (entry s.mem r k))) := by
  obtain ⟨hpos, hu', hu, heq⟩ := ht
  have hc := hu.child
  have hc' := hu'.child
  have hsumg := hsum k rfl hu'
  rw [SameContents] at heq
  generalize frameOf (entry s.mem r (k + 1)) = f at hc heq ⊢
  generalize frameOf (entry s.mem r k) = g at hc' heq hsumg ⊢
  have hman : Managed f := h.owned.of_held (by simp [h.tree.leaf_mem rfl hc])
  have hgman : Managed g := h.owned.of_held (by simp [h.tree.leaf_mem rfl hc'])
  have hspace : Space { s with checksum := update s.checksum f (pageSum (s.mem f)) } kpdpt r rest :=
    h.congr (fun _ _ => rfl) rfl rfl
  have hsumf : update s.checksum f (pageSum (s.mem f)) f = pageSum (s.mem f) := update_self ..
  have hsumg' : update s.checksum f (pageSum (s.mem f)) g = pageSum (s.mem g) := by
    by_cases he : g = f
    · rw [he, hsumf]
    · rw [update_of_ne he, hsumg]
  refine ⟨update s.checksum f (pageSum (s.mem f)), ?_, hsumg'⟩
  rw [dedupPage, uva2ka_user hfull h.tree ha hn hc hu.2, ok_bind, if_neg (kva_ne_zero hman.small), v2p_kva,
    updateChecksum_frame hfull hman, ok_bind, if_pos (by omega),
    uva2ka_user hfull hspace.tree (prev_page ha) (by omega) hc' hu'.2, ok_bind, if_neg (kva_ne_zero hgman.small),
    v2p_kva, framesAreIdentical_frames hfull hgman hman, ok_bind]
  have hsame : samePage (s.mem g) (s.mem f) = true := samePage_iff.mpr heq
  have hsums : pageSum (s.mem g) = pageSum (s.mem f) := pageSum_congr heq
  simp only [hsumg', hsumf]
  rw [if_pos (by simp [hsums, hsame])]

section

variable (ha : a.toNat = n * 4096) (hn : n < 2 ^ 35) (hv : v.toNat = 4096) (hsum : Summed s r n)
include ha hn hv hsum

/-- A turn merges two equal pages or leaves memory and the books alone. -/
theorem dedupPage_cases (hw : walk s.mem r (pagePath n) ≠ none)
    (hprev : ∀ k, n = k + 1 → walk s.mem r (pagePath k) ≠ none) :
    ∃ s', dedupPage m (kva r) v s a = .ok s' ∧ Space s' kpdpt r rest ∧ Summed s' r (n + 1) ∧
      ((∃ c, s' = { s with checksum := c } ∧ ∀ k, n = k + 1 → ¬ Twins s.mem r k) ∨
        ∃ k c, n = k + 1 ∧ Twins s.mem r k ∧ Merged { s with checksum := c } s' r k rest) := by
  by_cases htwins : ∃ k, n = k + 1 ∧ Twins s.mem r k
  · obtain ⟨k, rfl, ht⟩ := htwins
    obtain ⟨c, hrun, hsumk⟩ := dedupPage_twins hfull h ha hn hv hsum ht
    have hspace : Space { s with checksum := c } kpdpt r rest := h.congr (fun _ _ => rfl) rfl rfl
    have hc' := ht.2.1.child
    obtain ⟨s', hmerge, hspace', hmerged⟩ := mergePages_space hfull hspace ha hn hc' ht.2.2.1.child
    refine ⟨s', hrun.trans hmerge, hspace', ?_, .inr ⟨k, c, rfl, ht, hmerged⟩⟩
    rintro j hj huj
    obtain rfl : j = k + 1 := by omega
    have hnew : child (entry s'.mem r (k + 1)) = some (frameOf (entry s.mem r k)) := by
      rw [hmerged.map (k + 1) (by omega), if_pos rfl]
      exact child_mergedEntry hc'
    have hsame : s'.mem (frameOf (entry s.mem r k)) = s.mem (frameOf (entry s.mem r k)) :=
      hmerged.contents _ (by simp [hspace'.tree.leaf_mem rfl hnew]) (h.tree.leaf_not_table rfl hc')
    rw [(child_eq_some.mp hnew).2, hmerged.checksum, hsame]
    exact hsumk
  · have hno : ∀ k, n = k + 1 → ¬ Twins s.mem r k := fun k hk ht => htwins ⟨k, hk, ht⟩
    obtain ⟨c, hrun, hsummed⟩ := dedupPage_idle hfull h ha hn hv hsum hw hprev hno
    exact ⟨_, hrun, h.congr (fun _ _ => rfl) rfl rfl, hsummed, .inl ⟨c, rfl, hno⟩⟩

theorem dedupPage_turn (hw : walk s.mem r (pagePath n) ≠ none)
    (hprev : ∀ k, n = k + 1 → walk s.mem r (pagePath k) ≠ none) :
    ∃ s', dedupPage m (kva r) v s a = .ok s' ∧ Space s' kpdpt r rest ∧ Turn s s' r n rest ∧
      Summed s' r (n + 1) := by
  obtain ⟨s', hrun, hspace', hsummed, ⟨c, rfl, hno⟩ | ⟨k, c, rfl, ht, hmerged⟩⟩ :=
    dedupPage_cases hfull h ha hn hv hsum hw hprev
  · exact ⟨_, hrun, hspace', turn_idle rfl (fun k hk hpos hu hu' heq =>
      hno k hk ⟨hpos, hu, hk ▸ hu', hk ▸ heq⟩), hsummed⟩
  · have hspace : Space { s with checksum := c } kpdpt r rest := h.congr (fun _ _ => rfl) rfl rfl
    have hturn := hmerged.turn hspace hspace' ht.1 hn ht.2.1 ht.2.2.1 ht.2.2.2
    exact ⟨s', hrun, hspace', ⟨hturn.view, hturn.others, hturn.here, hturn.merged, hturn.contents,
      hturn.kept⟩, hsummed⟩

end

end

theorem dedupPage_missing (hfull : m.Full) (h : Tree s.mem kpdpt r) (ha : a.toNat = n * 4096) (hn : n < 2 ^ 35)
    (hw : walk s.mem r (pagePath n) = none) : dedupPage m (kva r) v s a = .error .nullDeref := by
  rw [dedupPage, uva2ka_missing hfull h ha hn hw]
  rfl

/-- After the turns at the pages below `hi`: the process sees the same pages, neighbours that
were equal share a frame, and every frame comes from a page at or below its own. -/
structure Deduped (s s' : State) (r hi : Nat) (rest : List Nat) : Prop where
  view : SameView s.mem s'.mem r
  origin : ∀ n f, n < 2 ^ 35 → child (entry s'.mem r n) = some f → ∃ n', n' ≤ n ∧ child (entry s.mem r n') = some f
  later : ∀ n, n < 2 ^ 35 → hi ≤ n → child (entry s'.mem r n) = child (entry s.mem r n)
  merged : ∀ k, 0 < k → k + 1 < hi → UserPage s.mem r k → UserPage s.mem r (k + 1) →
    SameContents s.mem r k (k + 1) →
    child (entry s'.mem r (k + 1)) = child (entry s'.mem r k)
  contents : ∀ g ∈ rest, s'.mem g = s.mem g
  kept : ∀ k, k < 2 ^ 35 → (∀ j, j + 1 < hi → Twins s.mem r j → k ≠ j ∧ k ≠ j + 1) →
    entry s'.mem r k = entry s.mem r k

theorem Deduped.refl (s : State) (r : Nat) (rest : List Nat) : Deduped s s r 0 rest :=
  ⟨SameView.refl s.mem r, fun n _ _ hc => ⟨n, Nat.le_refl n, hc⟩, fun _ _ _ => rfl, fun _ _ h => by
    omega, fun _ _ => rfl,
    fun _ _ _ => rfl⟩

section

variable (h : SameView mem mem' r) (hn : n < 2 ^ 35)
include h hn

theorem UserPage.view (hu : UserPage mem r n) : UserPage mem' r n :=
  ⟨(h.present n hn).trans hu.1, (h.user n hn hu.1).trans hu.2⟩

theorem SameContents.view (hk : k < 2 ^ 35) (hu : UserPage mem r n)
    (hu' : UserPage mem r k) (heq : SameContents mem r n k) : SameContents mem' r n k := by
  intro i hi
  rw [h.contents n _ _ hn hu.child (hu.view h hn).child i hi,
    h.contents k _ _ hk hu'.child (hu'.view h hk).child i hi]
  exact heq i hi

theorem UserPage.of_view (hu : UserPage mem' r n) : UserPage mem r n := by
  have hp := (h.present n hn).symm.trans hu.1
  exact ⟨hp, (h.user n hn hp).symm.trans hu.2⟩

end

theorem Twins.of_view (h : SameView mem mem' r) (hk : k + 1 < 2 ^ 35) (ht : Twins mem' r k) : Twins mem r k := by
  obtain ⟨hpos, hu', hv', heq⟩ := ht
  have hu := hu'.of_view h (by omega)
  have hv := hv'.of_view h hk
  refine ⟨hpos, hu, hv, ?_⟩
  intro i hi
  rw [← h.contents k _ _ (by omega) hu.child hu'.child i hi, ← h.contents (k + 1) _ _ hk hv.child hv'.child i hi]
  exact heq i hi

theorem Deduped.turn (h : Deduped s s₁ r n rest) (ht : Turn s₁ s' r n rest) (hn : n < 2 ^ 35) :
    Deduped s s' r (n + 1) rest := by
  refine ⟨h.view.trans ht.view, ?_, ?_, ?_, fun g hg => (ht.contents g hg).trans (h.contents g hg), ?_⟩
  · intro k f hk hc
    by_cases he : k = n
    · subst he
      rcases ht.here with hh | ⟨j, rfl, hh⟩
      · rw [hh] at hc
        exact h.origin k f hk hc
      · rw [hh] at hc
        obtain ⟨n', hle, hn'⟩ := h.origin j f (by omega) hc
        exact ⟨n', by omega, hn'⟩
    · rw [ht.others k hk he] at hc
      exact h.origin k f hk hc
  · intro k hk hle
    rw [ht.others k hk (by omega), h.later k hk (by omega)]
  · intro k hpos hlt hu hu' heq
    by_cases he : k + 1 = n
    · subst he
      exact ht.merged k rfl hpos (hu.view h.view (by omega)) (hu'.view h.view hn)
        (heq.view h.view (by omega) hn hu hu')
    · rw [ht.others (k + 1) (by omega) he, ht.others k (by omega) (by omega)]
      exact h.merged k hpos (by omega) hu hu' heq
  · intro k hk hno
    rw [ht.kept k hk ?_]
    · exact h.kept k hk (fun j hj => hno j (by omega))
    · intro j hj htwins
      exact hno j (by omega) (htwins.of_view h.view (by omega))

theorem dedupLoop_ends (hfull : m.Full) (hv : v.toNat = 4096) (j : Nat) {s₀ : State} (h : Space s kpdpt r rest)
    (ha : a.toNat = n * 4096) (hn : n + j ≤ 2 ^ 35) (hd : Deduped s₀ s r n rest) (hsum : Summed s r n)
    (hpast : ∀ k < n, walk s₀.mem r (pagePath k) ≠ none) :
    Ends (dedupLoop m (kva r) v j s a)
      (fun e => e = .nullDeref ∧ ∃ k < n + j, walk s₀.mem r (pagePath k) = none)
      (fun s' => Space s' kpdpt r rest ∧ Deduped s₀ s' r (n + j) rest ∧
        ∀ k < n + j, walk s₀.mem r (pagePath k) ≠ none) := by
  induction j generalizing s a n with
  | zero => exact ⟨h, hd, hpast⟩
  | succ j ih =>
    have hwalk : ∀ k, walk s.mem r (pagePath k) = walk s₀.mem r (pagePath k) :=
      fun k => hd.view.walk_eq _ (by simp)
    rw [dedupLoop]
    by_cases hw : walk s₀.mem r (pagePath n) = none
    · rw [dedupPage_missing hfull h.tree ha (by omega) (by rw [hwalk, hw])]
      exact ⟨rfl, n, by omega, hw⟩
    · obtain ⟨s₁, hrun, hspace, hturn, hsum₁⟩ := dedupPage_turn hfull h ha (by omega) hv hsum (by rwa [hwalk])
        (fun k hk => by rw [hwalk]; exact hpast k (by omega))
      rw [hrun, ok_bind, show n + (j + 1) = n + 1 + j by omega]
      refine ih hspace (next_page ha (by omega)) (by omega) (hd.turn hturn (by omega)) hsum₁ ?_
      intro k hk
      by_cases he : k = n
      · exact he ▸ hw
      · exact hpast k (by omega)

/-- `dedup(0, sz)` takes a turn at each page below the size. -/
theorem dedup_loop {sz : Word} (hsz : pages sz ≤ 2 ^ 35) : ∃ v a : Word, v.toNat = 4096 ∧ a.toNat = 0 * 4096 ∧
    ∀ s, dedup m s (kva r) 0 sz = dedupLoop m (kva r) v (pages sz) s a := by
  have hsmall : sz.toNat + 4095 < 2 ^ 64 := by
    rw [pages] at hsz
    omega
  have hzero : (pgRoundDown 0).toNat = 0 * 4096 := by
    rw [pgRoundDown_toNat]
    rfl
  have hv : (pgRoundDown 0 + 0x1000).toNat = 4096 := by
    rw [next_page hzero (by omega)]
  have hcount : pageCount (pgRoundDown 0) (pgRoundUp sz) = pages sz := by
    rw [pageCount, hzero, pgRoundUp_page hsmall, pgSize]
    omega
  refine ⟨_, _, hv, hzero, fun s => ?_⟩
  simp only [dedup, hcount]

/-- `dedup(0, sz)` reads through a null pointer if a page below the size has no table, and
otherwise merges what it should and changes nothing the process can see. -/
theorem dedup_ends (hfull : m.Full) {sz : Word} (h : Space s kpdpt r rest) (hsz : pages sz ≤ 2 ^ 35) :
    Ends (dedup m s (kva r) 0 sz)
      (fun e => e = .nullDeref ∧ ∃ k < pages sz, walk s.mem r (pagePath k) = none)
      (fun s' => Space s' kpdpt r rest ∧ Deduped s s' r (pages sz) rest ∧
        ∀ k < pages sz, walk s.mem r (pagePath k) ≠ none) := by
  obtain ⟨v, a, hv, ha, hloop⟩ := @dedup_loop m r sz hsz
  have hends := dedupLoop_ends hfull hv (pages sz) h ha (by omega) (Deduped.refl s r rest)
    (fun k hk => by omega) (fun k hk => by omega)
  rw [Nat.zero_add] at hends
  rw [hloop]
  exact hends

end Xv6.Dedup
