import Xv6.PageTable

/-!
# Growing a page table

`walkpgdir` with its `alloc` flag takes fresh frames for the tables that are missing.
`Extends` describes the outcome: the tables that were there stay, the added ones are empty,
and so the map from pages to entries is what it was. `mapPage` then fills one slot.
-/
namespace Xv6.TableGrowth

open Words Mmu Memory Kalloc Vm Outcome RadixTree PageTable Function

variable {new rest : List Nat} {s₁ s₂ : State} {u : Nat} {a : Word}

variable {m : Machine} {P : Nat → Prop} {s s' : State} {mem mem' : Mem} {kpdpt r t f i j : Nat}
  {p q : List Nat} {va e : Word} {held : List Nat}

/-- The tables of the tree at `r` are among the references the allocator counts. -/
def TablesIn (mem : Mem) (r : Nat) (held : List Nat) : Prop :=
  ∀ p t, p.length < 4 → walk mem r p = some t → t ∈ held

/-- The fresh frames `new` were taken and made into empty tables of the tree at `r`, which
leaves the map of its pages as it was. If `low` holds they are in the part that `freevm` visits. -/
structure Extends (low : Prop) (s s' : State) (r : Nat) (new : List Nat) : Prop where
  mono : ∀ p t, p.length < 4 → walk s.mem r p = some t → walk s'.mem r p = some t
  tables : ∀ p t, p.length < 4 → walk s'.mem r p = some t →
    walk s.mem r p = some t ∨ (t ∈ new ∧ (∀ i ∈ p, i < 512) ∧ (low → Inside width 4 p))
  map : ∀ p i, p.length = 3 → pte s'.mem r p i = pte s.mem r p i
  frame : ∀ g, g ∉ new → (∀ p, p.length < 3 → walk s.mem r p ≠ some g) → s'.mem g = s.mem g
  refs : low → (treeRefs s'.mem r).Perm (new ++ treeRefs s.mem r)
  free : s.freelist = new.reverse ++ s'.freelist
  checksum : s'.checksum = s.checksum

theorem Extends.rfl' (low : Prop) (s : State) (r : Nat) : Extends low s s r [] :=
  ⟨fun _ _ _ h => h, fun _ _ _ h => .inl h, fun _ _ _ => rfl, fun _ _ _ => rfl, fun _ => .refl _, by simp, rfl⟩

theorem Extends.trans {low : Prop} {s₃ : State} {new' : List Nat} (h₁ : Extends low s₁ s₂ r new)
    (h₂ : Extends low s₂ s₃ r new') : Extends low s₁ s₃ r (new' ++ new) := by
  refine ⟨?_, ?_, ?_, ?_, ?_, ?_, ?_⟩
  · intro p t hp hw
    exact h₂.mono p t hp (h₁.mono p t hp hw)
  · intro p t hp hw
    rcases h₂.tables p t hp hw with hw | ⟨hn, hidx⟩
    · rcases h₁.tables p t hp hw with hw | ⟨hn, hidx⟩
      · exact .inl hw
      · exact .inr ⟨List.mem_append_right new' hn, hidx⟩
    · exact .inr ⟨List.mem_append_left new hn, hidx⟩
  · intro p i hp
    rw [h₂.map p i hp, h₁.map p i hp]
  · intro g hg htab
    simp only [List.mem_append, not_or] at hg
    rw [h₂.frame g hg.1 ?_, h₁.frame g hg.2 htab]
    intro p hp hw
    rcases h₁.tables p g (by omega) hw with hw | ⟨hn, -⟩
    · exact htab p hp hw
    · exact hg.2 hn
  · intro hlow
    rw [List.append_assoc]
    exact (h₂.refs hlow).trans ((h₁.refs hlow).append_left new')
  · rw [h₁.free, h₂.free]
    simp
  · rw [h₂.checksum, h₁.checksum]

section AddTable

variable {low : Prop} (h : Shape mem kpdpt r) (hlen : p.length < 3) (hw : walk mem r p = some t)
  (hnone : walk mem r (p ++ [i]) = none) (hk : p = [] → i ≠ 256) (hf : Managed f)
  (hfresh : ∀ q, q.length < 4 → walk mem r q ≠ some f)
include h hlen hw hnone hk hf hfresh

/-- Memory after `walkpgdir` has cleared frame `f` and stored its entry at index `i` of `t`. -/
theorem walk_addTable (q : List Nat) (hq : q.length ≤ 4) :
    walk (setWord (setPage mem f (fun _ => 0)) t i (tableEntry f)) r q =
      if q = p ++ [i] then some f else walk mem r q := by
  have hne : ∀ q t', q.length < 4 → walk mem r q = some t' → t' ≠ f := by
    rintro q t' hq hw' rfl
    exact hfresh q hq hw'
  have hslot : t ≠ r ∨ i ≠ 256 := by
    by_cases hp : p = []
    · exact .inr (hk hp)
    · exact .inl (h.ne_root (by omega) hw hp)
  have htf : t ≠ f := hne p t (by omega) hw
  have hrf : r ≠ f := hne [] r (by simp) rfl
  have hentry : userMem (setWord (setPage mem f (fun _ => 0)) t i (tableEntry f)) r t i = tableEntry f := by
    rw [userMem_of_ne hslot, setWord_same]
  have hchild := child_tableEntry (f := f) (by have := hf.small; omega)
  have hset := follow_set (userMem mem r)
    (userMem (setWord (setPage mem f (fun _ => 0)) t i (tableEntry f)) r) 4 i hw
    (fun q hq hq' => h.uniq q p t hq (by omega) hq' hw) ?_ ?_ ?_ q hq
  · rw [hentry, hchild] at hset
    exact hset
  · intro q t' i' hq hq' hor
    have ht' := hne q t' hq hq'
    by_cases hroot : t' = r ∧ i' = 256
    · obtain ⟨rfl, rfl⟩ := hroot
      simp
    · have hor' : t' ≠ r ∨ i' ≠ 256 := by
        by_cases ht : t' = r
        · exact .inr (fun hi => hroot ⟨ht, hi⟩)
        · exact .inl ht
      rw [userMem_of_ne hor', userMem_of_ne hor', setWord_of_ne hor, setPage_other ht']
  · intro _
    rw [walk_snoc, hw] at hnone
    exact hnone
  · intro _ u hu i'
    rw [hentry, hchild] at hu
    obtain rfl := Option.some.inj hu
    rw [userMem_frame hrf.symm, setWord_other htf.symm, setPage_same]
    exact child_zero

theorem shape_addTable : Shape (setWord (setPage mem f (fun _ => 0)) t i (tableEntry f)) kpdpt r := by
  have hwalk := walk_addTable h hlen hw hnone hk hf hfresh
  have hslot : t ≠ r ∨ i ≠ 256 := by
    by_cases hp : p = []
    · exact .inr (hk hp)
    · exact .inl (h.ne_root (by omega) hw hp)
  have hne : ∀ q t', q.length < 4 → walk mem r q = some t' → t' ≠ f := by
    rintro q t' hq hw' rfl
    exact hfresh q hq hw'
  have hrf : r ≠ f := hne [] r (by simp) rfl
  have htf : t ≠ f := hne p t (by omega) hw
  refine ⟨?_, ?_, ?_, ?_⟩
  · have hor : r ≠ t ∨ 256 ≠ i := by
      rcases hslot with ht | hi
      · exact .inl ht.symm
      · exact .inr hi.symm
    rw [setWord_of_ne hor, setPage_other hrf, h.kernel]
  · intro q u hq hu
    rw [hwalk q (by omega)] at hu
    split at hu
    · obtain rfl := Option.some.inj hu
      exact hf
    · exact h.managed q u hq hu
  · intro q q' u hq hq' hu hu'
    rw [hwalk q (by omega)] at hu
    rw [hwalk q' (by omega)] at hu'
    by_cases he : q = p ++ [i] <;> by_cases he' : q' = p ++ [i]
    · rw [he, he']
    · rw [if_pos he] at hu
      rw [if_neg he', ← hu] at hu'
      exact absurd hu' (hfresh q' hq')
    · rw [if_neg he] at hu
      rw [if_pos he', ← hu] at hu'
      exact absurd hu'.symm (hfresh q hq)
    · rw [if_neg he] at hu
      rw [if_neg he'] at hu'
      exact h.uniq q q' u hq hq' hu hu'
  · intro q u j hq hu hpres
    rw [hwalk q (by omega)] at hu
    split at hu
    · obtain rfl := Option.some.inj hu
      rw [userMem_frame hrf.symm, setWord_other htf.symm, setPage_same] at hpres
      simp at hpres
    · have huf := hne q u (by omega) hu
      by_cases hkern : u = r ∧ j = 256
      · obtain ⟨rfl, rfl⟩ := hkern
        simp at hpres
      · have hor : u ≠ r ∨ j ≠ 256 := by
          by_cases hur : u = r
          · exact .inr (fun hj => hkern ⟨hur, hj⟩)
          · exact .inl hur
        by_cases hsame : u = t ∧ j = i
        · obtain ⟨rfl, rfl⟩ := hsame
          rw [userMem_of_ne hor, setWord_same]
          have hfr : frameOf (tableEntry f) = f :=
            (child_eq_some.mp (child_tableEntry (f := f) (by have := hf.small; omega))).2
          rw [hfr]
        · have hor' : u ≠ t ∨ j ≠ i := by
            by_cases hut : u = t
            · exact .inr (fun hj => hsame ⟨hut, hj⟩)
            · exact .inl hut
          rw [userMem_of_ne hor, setWord_of_ne hor', setPage_other huf] at hpres ⊢
          have huser : userMem mem r u j = mem u j := userMem_of_ne hor
          rw [← huser] at hpres ⊢
          exact h.entry q u j hq hu hpres

end AddTable

/-- The step of a walk that adds a table. -/
theorem extends_addTable (low : Prop) {refs : Nat → Int} (h : Shape s.mem kpdpt r)
    (hlen : p.length < 3) (hw : walk s.mem r p = some t) (hnone : walk s.mem r (p ++ [i]) = none)
    (hk : p = [] → i ≠ 256) (hf : Managed f) (hfresh : ∀ q, q.length < 4 → walk s.mem r q ≠ some f)
    (hfree : s.freelist = f :: rest) (hidx : ∀ j ∈ p ++ [i], j < 512) (hin : low → Inside width 4 (p ++ [i])) :
    Extends low s ⟨setWord (setPage s.mem f (fun _ => 0)) t i (tableEntry f), refs, s.checksum, rest⟩ r [f] := by
  have hwalk := walk_addTable h hlen hw hnone hk hf hfresh
  have hne : ∀ q, walk s.mem r q ≠ none → q ≠ p ++ [i] := by
    rintro q hq rfl
    exact hq hnone
  refine ⟨?_, ?_, ?_, ?_, ?_, by simpa using hfree, rfl⟩
  · intro q u hq hu
    rw [hwalk q (by omega), if_neg (hne q (by simp [hu])), hu]
  · intro q u hq hu
    rw [hwalk q (by omega)] at hu
    split at hu
    · rename_i he
      exact .inr ⟨by simpa using hu.symm, by rw [he]; exact hidx, by rw [he]; exact hin⟩
    · exact .inl hu
  · intro q j hq
    simp only [pte, hwalk q (by omega)]
    by_cases he : q = p ++ [i]
    · have htf : f ≠ t := by
        rintro rfl
        exact hfresh p (by omega) hw
      rw [if_pos he, he, hnone]
      simp only [setWord_other htf, setPage_same]
    · rw [if_neg he]
      cases hu : walk s.mem r q with
      | none => rfl
      | some u =>
        have hut : u ≠ t := by
          rintro rfl
          have := h.uniq q p u (by omega) (by omega) hu hw
          rw [this] at hq
          omega
        have huf : u ≠ f := by
          rintro rfl
          exact hfresh q (by omega) hu
        simp only [setWord_other hut, setPage_other huf]
  · intro g hg htab
    have hgt : g ≠ t := by
      rintro rfl
      exact htab p hlen hw
    have hgf : g ≠ f := by simpa using hg
    simp only [setWord_other hgt, setPage_other hgf]
  · intro hlow
    refine (nodes_insert (by simp) (hin hlow) hnone ?_ ?_).map Prod.snd
    · simpa [walk] using hwalk (p ++ [i]) (by simp; omega)
    · intro q hq hqne
      exact (hwalk q hq).trans (if_neg hqne)

def absent (mem : Mem) (r : Nat) (p : List Nat) : Nat := if walk mem r p = none then 1 else 0

def missing (mem : Mem) (r : Nat) (va : Word) : Nat :=
  absent mem r [pmx va] + absent mem r [pmx va, pdpx va] + absent mem r (path va)

theorem absent_le (mem : Mem) (r : Nat) (p : List Nat) : absent mem r p ≤ 1 := by
  rw [absent]
  split <;> omega

theorem missing_le (mem : Mem) (r : Nat) (va : Word) : missing mem r va ≤ 3 := by
  have h₁ := absent_le mem r [pmx va]
  have h₂ := absent_le mem r [pmx va, pdpx va]
  have h₃ := absent_le mem r (path va)
  rw [missing]
  omega

theorem absent_congr (h : walk mem' r p = walk mem r p) : absent mem' r p = absent mem r p := by
  rw [absent, absent, h]

/-- A table whose page is found has the tables above it. -/
theorem missing_of_walk (h : walk mem r (path va) ≠ none) : missing mem r va = 0 := by
  have h₂ : walk mem r [pmx va, pdpx va] ≠ none := by
    intro hnone
    apply h
    rw [path, walk_three, hnone]
    rfl
  have h₁ : walk mem r [pmx va] ≠ none := by
    intro hnone
    apply h₂
    rw [walk_two, hnone]
    rfl
  rw [missing, absent, absent, absent, if_neg h, if_neg h₁, if_neg h₂]

structure Stepped (P : Nat → Prop) (low : Prop) (s s' : State) (kpdpt r : Nat) (held : List Nat)
    (p : List Nat) (u : Nat)
    (new : List Nat) : Prop where
  found : walk s'.mem r p = some u
  shape : Shape s'.mem kpdpt r
  owned : Owned P s' (new ++ held)
  length : new.length = absent s.mem r p
  extend : Extends low s s' r new
  made : ∀ t ∈ new, t = u
  others : ∀ q, q.length ≤ 4 → q ≠ p → walk s'.mem r q = walk s.mem r q
  same : walk s.mem r p ≠ none → s' = s

theorem nextTable_ends (m : Machine) (low : Prop) (hfull : m.Full) (h : Shape s.mem kpdpt r)
    (hown : Owned P s held) (htab : TablesIn s.mem r held) (hlen : p.length < 3) (hw : walk s.mem r p = some t)
    (hidx : ∀ j ∈ p ++ [i], j < 512) (hk : p = [] → i ≠ 256) (hin : low → Inside width 4 (p ++ [i])) :
    Ends (nextTable m s (entryPtr (kva t) i) true)
      (fun e => Exhausted m e ∧ s.freelist = [] ∧ walk s.mem r (p ++ [i]) = none) (fun x =>
        (x = (s, none) ∧ m.oom = .null ∧ s.freelist = [] ∧ walk s.mem r (p ++ [i]) = none) ∨
        ∃ u new, x.2 = some (kva u) ∧ Stepped P low s x.1 kpdpt r held (p ++ [i]) u new) := by
  have hman := h.managed p t (by omega) hw
  have hi : i < 512 := hidx i (by simp)
  have hstep : walk s.mem r (p ++ [i]) = child (s.mem t i) := by
    rw [walk_snoc, hw, Option.bind_some, h.slot (by omega) hw hk]
  rw [nextTable, read_entryPtr hman.small (hman.ram hfull) hi, ok_bind]
  by_cases hp : has (s.mem t i) pteP = true
  · have hsome : walk s.mem r (p ++ [i]) = some (frameOf (s.mem t i)) := by rw [hstep, child, if_pos hp]
    rw [if_pos hp, p2v_pteAddr]
    refine .inr ⟨_, [], rfl, hsome, h, hown, ?_, Extends.rfl' low s r, by simp, fun _ _ _ => rfl, fun _ => rfl⟩
    rw [absent, hsome]
    rfl
  · have hnone : walk s.mem r (p ++ [i]) = none := by rw [hstep, child, if_neg hp]
    rw [if_neg hp, if_neg (by simp)]
    refine (kalloc_any m hown).seq (fun e he => ⟨he.1, he.2, hnone⟩) ?_
    rintro x (⟨rfl, hnull, hnil⟩ | ⟨f, rest, hfree, hf, hnot, rfl, hown'⟩)
    · simp only [↓reduceIte]
      exact .inl ⟨rfl, hnull, hnil, hnone⟩
    · have hfresh : ∀ q, q.length < 4 → walk s.mem r q ≠ some f := fun q hq hq' => hnot (htab q f hq hq')
      simp only [if_neg (kva_ne_zero hf.small)]
      rw [memset_kva hf.small (hf.ram hfull), ok_bind, write_entryPtr hman.small
        (hman.ram hfull) hi, ok_bind, v2p_kva]
      have hwalk := walk_addTable h hlen hw hnone hk hf hfresh
      refine .inr ⟨f, [f], rfl, ?_, shape_addTable h hlen hw hnone hk hf hfresh, hown'.congr rfl rfl, ?_,
        extends_addTable low h hlen hw hnone hk hf hfresh hfree hidx hin, by simp, ?_, fun hne => absurd hnone hne⟩
      · exact (hwalk _ (by simp; omega)).trans (if_pos rfl)
      · rw [absent, if_pos hnone]
        rfl
      · intro q hq hne
        exact (hwalk q hq).trans (if_neg hne)

theorem TablesIn.extends {low : Prop} (h : TablesIn s.mem r held) (he : Extends low s s' r new) :
    TablesIn s'.mem r (new ++ held) := by
  intro p t hp hw
  rcases he.tables p t hp hw with hw | ⟨hn, -⟩
  · exact List.mem_append_right new (h p t hp hw)
  · exact List.mem_append_left held hn

/-- The frames taken so far are tables. -/
def AreTables (mem : Mem) (r : Nat) (new : List Nat) : Prop :=
  ∀ t ∈ new, ∃ q, q.length < 4 ∧ walk mem r q = some t

/-- The walk ran out of frames before the last table; the tables it made stay. -/
structure Stuck (m : Machine) (P : Nat → Prop) (low : Prop) (s s' : State) (kpdpt r : Nat)
    (held : List Nat) (va : Word)
    (new : List Nat) : Prop where
  null : m.oom = .null
  short : s.freelist.length < missing s.mem r va
  empty : s'.freelist = []
  shape : Shape s'.mem kpdpt r
  owned : Owned P s' (new ++ held)
  made : AreTables s'.mem r new
  extend : Extends low s s' r new
  others : ∀ q, q.length ≤ 4 → q ≠ [pmx va] → q ≠ [pmx va, pdpx va] → walk s'.mem r q = walk s.mem r q

structure Found (P : Nat → Prop) (low : Prop) (s s' : State) (kpdpt r : Nat) (held : List Nat)
    (va : Word) (t : Nat)
    (new : List Nat) : Prop where
  found : walk s'.mem r (path va) = some t
  shape : Shape s'.mem kpdpt r
  owned : Owned P s' (new ++ held)
  length : new.length = missing s.mem r va
  made : AreTables s'.mem r new
  extend : Extends low s s' r new
  same : walk s.mem r (path va) ≠ none → s' = s
  others : ∀ q, q.length ≤ 4 → q ≠ [pmx va] → q ≠ [pmx va, pdpx va] → q ≠ path va →
    walk s'.mem r q = walk s.mem r q

/-- A step of a walk that has taken `new₁` before. -/
theorem Stepped.more {low : Prop} {new₁ new₂ : List Nat} (hm : AreTables s₁.mem r new₁)
    (he : Extends low s s₁ r new₁) (hp : p.length < 4) (h : Stepped P low s₁ s₂ kpdpt r (new₁ ++ held) p u new₂) :
    Owned P s₂ ((new₂ ++ new₁) ++ held) ∧ Extends low s s₂ r (new₂ ++ new₁) ∧ AreTables s₂.mem r
    (new₂ ++ new₁) := by
  refine ⟨?_, he.trans h.extend, ?_⟩
  · rw [List.append_assoc]
    exact h.owned
  · intro t ht
    rcases List.mem_append.mp ht with ht | ht
    · exact ⟨p, hp, by rw [h.made t ht, h.found]⟩
    · obtain ⟨q, hq, hw⟩ := hm t ht
      exact ⟨q, hq, h.extend.mono q t hq hw⟩

/-- The free frames before a step of a walk. -/
theorem Stepped.free_length {low : Prop} (h : Stepped P low s s' kpdpt r held p u new) :
    s.freelist.length = absent s.mem r p + s'.freelist.length := by
  rw [h.extend.free, List.length_append, List.length_reverse, h.length]

/-- `walkpgdir(pgdir, va, 1)` on any machine. -/
theorem walkpgdir_ends (m : Machine) (low : Prop) (hfull : m.Full) (h : Shape s.mem kpdpt r)
    (hown : Owned P s held) (htab : TablesIn s.mem r held) (hva : pmx va ≠ 256) (hlow : low → pmx va < 256) :
    Ends (walkpgdir m s (kva r) va true) (fun e => Exhausted m e ∧
      s.freelist.length < missing s.mem r va) (fun x =>
      (x.2 = none ∧ ∃ new, Stuck m P low s x.1 kpdpt r held va new) ∨
      ∃ t new, x.2 = some (entryPtr (kva t) (ptx va)) ∧ Found P low s x.1 kpdpt r held va t new) := by
  have hin : low → pmx va < 256 ∧ pdpx va < 512 ∧ pdx va < 512 := fun hl => ⟨hlow hl, pdpx_lt va, pdx_lt va⟩
  have hshort (q : List Nat) (hq : walk s.mem r q = none) : absent s.mem r q = 1 := if_pos hq
  have hmissing : missing s.mem r va = absent s.mem r [pmx va] + absent s.mem r
    [pmx va, pdpx va] + absent s.mem r (path va) :=
    rfl
  rw [walkpgdir]
  refine (nextTable_ends m low (p := []) hfull h hown htab (by simp) walk_nil
    (by simpa using pmx_lt va) (fun _ => hva)
    (fun hl => by simpa [Inside, width] using (hin hl).1)).seq ?_ ?_
  · rintro e ⟨he, hnil, hnone⟩
    have hone := hshort _ hnone
    exact ⟨he, by rw [hnil]; simp at hone ⊢; omega⟩
  rintro ⟨s₁, _⟩ (⟨heq, hnull, hnil, hnone⟩ | ⟨t₁, new₁, rfl, h₁⟩)
  · cases heq
    have hone := hshort _ hnone
    exact .inl ⟨rfl, [], hnull, by rw [hnil]; simp at hone ⊢; omega, hnil, h, hown,
      by simp [AreTables], Extends.rfl' low s r,
      fun _ _ _ _ => rfl⟩
  have hlen₁ := h₁.free_length
  have hmade₁ : AreTables s₁.mem r new₁ := fun t ht => ⟨_, by simp, (h₁.made t ht) ▸ h₁.found⟩
  have hsame₁ : walk s₁.mem r [pmx va, pdpx va] = walk s.mem r [pmx va, pdpx va] := h₁.others _ (by simp) (by simp)
  have hsame₂ : walk s₁.mem r (path va) = walk s.mem r (path va) := h₁.others _ (by simp [path]) (by simp [path])
  refine (nextTable_ends m low (p := [pmx va]) hfull h₁.shape h₁.owned (htab.extends h₁.extend) (by simp) h₁.found
    (by simpa using ⟨pmx_lt va, pdpx_lt va⟩) (by simp)
    (fun hl => by simpa [Inside, width] using ⟨(hin hl).1, (hin hl).2.1⟩)).seq ?_ ?_
  · rintro e ⟨he, hnil, hnone⟩
    have hone := hshort _ (hsame₁ ▸ hnone)
    rw [hnil] at hlen₁
    exact ⟨he, by simp at hlen₁ hone ⊢; omega⟩
  rintro ⟨s₂, _⟩ (⟨heq, hnull, hnil, hnone⟩ | ⟨t₂, new₂, rfl, h₂⟩)
  · cases heq
    have hone := hshort _ (hsame₁ ▸ hnone)
    rw [hnil] at hlen₁
    exact .inl ⟨rfl, new₁, hnull, by simp at hlen₁ hone ⊢; omega, hnil, h₁.shape, h₁.owned, hmade₁,
      h₁.extend, fun q hq hne _ => h₁.others q hq hne⟩
  have hlen₂ := h₂.free_length
  have habs₂ : absent s₁.mem r [pmx va, pdpx va] = absent s.mem r [pmx va, pdpx va] := absent_congr hsame₁
  have hsame₃ : walk s₂.mem r (path va) = walk s₁.mem r (path va) := h₂.others _ (by simp [path]) (by simp [path])
  obtain ⟨hown₂, hext₂, hmade₂⟩ := h₂.more hmade₁ h₁.extend (by simp)
  refine (nextTable_ends m low (p := [pmx va, pdpx va]) hfull h₂.shape hown₂ (htab.extends hext₂)
    (by simp) h₂.found
    (by simpa using ⟨pmx_lt va, pdpx_lt va, pdx_lt va⟩) (by simp)
    (fun hl => by simpa [Inside, width] using hin hl)).seq ?_ ?_
  · rintro e ⟨he, hnil, hnone⟩
    have hone := hshort (path va) ((hsame₃.trans hsame₂) ▸ hnone)
    rw [hnil] at hlen₂
    exact ⟨he, by simp at hlen₁ hlen₂ habs₂ ⊢; omega⟩
  rintro ⟨s₃, _⟩ (⟨heq, hnull, hnil, hnone⟩ | ⟨t₃, new₃, rfl, h₃⟩)
  · cases heq
    have hone := hshort (path va) ((hsame₃.trans hsame₂) ▸ hnone)
    rw [hnil] at hlen₂
    exact .inl ⟨rfl, new₂ ++ new₁, hnull, by simp at hlen₁ hlen₂ habs₂ ⊢; omega, hnil, h₂.shape, hown₂, hmade₂,
      hext₂, fun q hq hne₁ hne₂ => (h₂.others q hq hne₂).trans (h₁.others q hq hne₁)⟩
  · obtain ⟨hown₃, hext₃, hmade₃⟩ := h₃.more hmade₂ hext₂ (by simp)
    have habs₃ : absent s₂.mem r (path va) = absent s.mem r (path va) := absent_congr (hsame₃.trans hsame₂)
    refine .inr ⟨t₃, new₃ ++ (new₂ ++ new₁), rfl, h₃.found, h₃.shape, hown₃, ?_, hmade₃, hext₃, ?_, ?_⟩
    · have hl₁ := h₁.length
      have hl₂ := h₂.length
      have hl₃ : new₃.length = absent s₂.mem r (path va) := h₃.length
      simp only [List.nil_append, List.cons_append] at hl₁ hl₂
      rw [List.length_append, List.length_append, hl₁, hl₂, hl₃, habs₂, habs₃]
      omega
    · intro hne
      have hzero := missing_of_walk hne
      have hpos (q : List Nat) (hq : absent s.mem r q = 0) : walk s.mem r q ≠ none := by
        intro hnone
        rw [hshort q hnone] at hq
        cases hq
      obtain rfl : s₁ = s := h₁.same (hpos _ (by simp only [List.nil_append]; omega))
      obtain rfl : s₂ = s₁ := h₂.same (hpos _ (by simp only [List.cons_append, List.nil_append]; omega))
      exact h₃.same hne
    · intro q hq hne₁ hne₂ hne₃
      exact (h₃.others q hq hne₃).trans ((h₂.others q hq hne₂).trans (h₁.others q hq hne₁))

/-- One turn of `mappages` on any machine: the slot is filled, or a table could not be had. -/
theorem mapPage_any (m : Machine) (low : Prop) (perm pa : Word) (hfull : m.Full)
    (h : Shape s.mem kpdpt r) (hown : Owned P s held) (htab : TablesIn s.mem r held) (ha : pmx a ≠ 256)
    (hlow : low → pmx a < 256) :
    Ends (mapPage m s (kva r) perm a pa)
      (fun e => (Exhausted m e ∧ s.freelist.length < missing s.mem r a) ∨
        (e = .panic "remap" ∧ has (pte s.mem r (path a) (ptx a)) pteP = true))
      (fun x => (x.2 = -1 ∧ ∃ new, Stuck m P low s x.1 kpdpt r held a new) ∨
        ∃ s₁ t new, x = ({ s₁ with mem := setWord s₁.mem t (ptx a) (pa ||| perm ||| pteP) }, 0) ∧
          has (pte s.mem r (path a) (ptx a)) pteP = false ∧ Found P low s s₁ kpdpt r held a t new) := by
  rw [mapPage]
  refine (walkpgdir_ends m low hfull h hown htab ha hlow).seq (fun e he => .inl he) ?_
  rintro ⟨s₁, _⟩ (⟨rfl, new, hstuck⟩ | ⟨t, new, rfl, hf⟩)
  · exact .inl ⟨rfl, new, hstuck⟩
  · have hman := hf.shape.managed _ t (by simp [path]) hf.found
    have hpte : pte s.mem r (path a) (ptx a) = s₁.mem t (ptx a) := by
      rw [← hf.extend.map _ _ rfl, pte_of_walk hf.found]
    simp only
    rw [read_entryPtr hman.small (hman.ram hfull) (ptx_lt a), ok_bind, ← hpte]
    by_cases hp : has (pte s.mem r (path a) (ptx a)) pteP = true
    · rw [if_pos hp]
      exact .inr ⟨rfl, hp⟩
    · rw [if_neg hp, write_entryPtr hman.small (hman.ram hfull) (ptx_lt a), ok_bind]
      exact .inr ⟨s₁, t, new, rfl, by simpa using hp, hf⟩

/-- One turn of `mappages`: the missing tables are added, then the empty slot is filled. -/
theorem mapPage_ends (low : Prop) (perm pa : Word) (hm : m.oom ≠ .null) (hfull : m.Full)
    (h : Shape s.mem kpdpt r) (hown : Owned P s held) (htab : TablesIn s.mem r held) (ha : pmx a ≠ 256)
    (hlow : low → pmx a < 256) :
    Ends (mapPage m s (kva r) perm a pa)
      (fun e => (Exhausted m e ∧ s.freelist.length < 3) ∨
        (e = .panic "remap" ∧ has (pte s.mem r (path a) (ptx a)) pteP = true))
      (fun x => ∃ s₁ t new, x = ({ s₁ with mem := setWord s₁.mem t (ptx a) (pa ||| perm ||| pteP) }, 0) ∧
        has (pte s.mem r (path a) (ptx a)) pteP = false ∧ walk s₁.mem r (path a) = some t ∧
        Shape s₁.mem kpdpt r ∧ Owned P s₁ (new ++ held) ∧ new.length ≤ 3 ∧ Extends low s s₁ r new ∧
        (walk s.mem r (path a) ≠ none → s₁ = s)) := by
  have hle := missing_le s.mem r a
  refine (mapPage_any m low perm pa hfull h hown htab ha hlow).mono ?_ ?_
  · rintro e (⟨he, hlt⟩ | he)
    · exact .inl ⟨he, by omega⟩
    · exact .inr he
  · rintro x (⟨-, new, hstuck⟩ | ⟨s₁, t, new, rfl, hp, hf⟩)
    · exact absurd hstuck.null hm
    · exact ⟨s₁, t, new, rfl, hp, hf.found, hf.shape, hf.owned, by rw [hf.length]; omega, hf.extend, hf.same⟩

def emptyMap (kpdpt : Nat) : Nat → Word := update (fun _ => 0) 256 (kernelEntry kpdpt)

theorem walk_emptyMap (hr : mem r = emptyMap kpdpt) (hne : p ≠ []) : walk mem r p = none := by
  cases p with
  | nil => exact absurd rfl hne
  | cons i p =>
    have hzero : userMem mem r r i = 0#64 := by
      by_cases hi : i = 256
      · rw [hi, userMem_kernel]
      · rw [userMem_of_ne (.inr hi), hr, emptyMap, update_of_ne hi]
        rfl
    rw [walk, follow, hzero, child_zero]
    rfl

theorem shape_emptyMap (hr : mem r = emptyMap kpdpt) (hman : Managed r) : Shape mem kpdpt r := by
  have hnil : ∀ p t, walk mem r p = some t → p = [] ∧ t = r := by
    intro p t hw
    by_cases hp : p = []
    · subst hp
      exact ⟨rfl, (Option.some.inj hw).symm⟩
    · rw [walk_emptyMap hr hp] at hw
      cases hw
  refine ⟨by rw [hr, emptyMap, update_self], ?_, ?_, ?_⟩
  · intro p t _ hw
    rw [(hnil p t hw).2]
    exact hman
  · intro p q t _ _ hw hw'
    rw [(hnil p t hw).1, (hnil q t hw').1]
  · intro p t i _ hw hpres
    obtain ⟨rfl, rfl⟩ := hnil p t hw
    have hchild : child (userMem mem t t i) = none := by
      have := walk_emptyMap (p := [i]) hr (by simp)
      simpa [walk, follow] using this
    rw [child_eq_none.mp hchild] at hpres
    cases hpres

/-- `setupkvm` when there is a frame for the page map. -/
theorem setupkvm_cons (m : Machine) (kpdpt : Nat) (hfull : m.Full) (hown : Owned P s held)
    (hfree : s.freelist = r :: rest) :
    ∃ s', setupkvm m (kva kpdpt) s = .ok (s', kva r) ∧ r ∉ held ∧ s'.mem r = emptyMap kpdpt ∧ Managed r ∧
      (∀ g, g ≠ r → s'.mem g = s.mem g) ∧ s'.freelist = rest ∧ s'.checksum = s.checksum ∧
      Owned P s' (r :: held) := by
  have hin : r ∈ s.freelist := by simp [hfree]
  have hman : Managed r := hown.managed r ((hown.counted.mem_free r).mp hin).1
  have hcount := hown.counted
  rw [hfree] at hcount
  rw [setupkvm, kalloc_cons hfree hman, ok_bind]
  dsimp only
  rw [memset_kva hman.small (hman.ram hfull), ok_bind, write_entryPtr hman.small (hman.ram hfull)
    (by omega), ok_bind,
    v2p_kva]
  refine ⟨_, rfl, hown.counted.not_mem_held hin, ?_, hman, ?_, rfl, rfl, ⟨hcount.alloc, hown.managed⟩⟩
  · simp only [setWord, setPage_same]
    rfl
  · intro g hg
    simp only [setWord_other hg, setPage_other hg]

theorem setupkvm_ends (kpdpt : Nat) (hm : m.oom ≠ .null) (hfull : m.Full) (hown : Owned P s held) :
    Ends (setupkvm m (kva kpdpt) s) (fun e => Exhausted m e ∧ s.freelist = []) (fun x => ∃ r rest,
      s.freelist = r :: rest ∧ r ∉ held ∧ x.2 = kva r ∧ x.1.mem r = emptyMap kpdpt ∧ Managed r ∧
      (∀ g, g ≠ r → x.1.mem g = s.mem g) ∧ x.1.freelist = rest ∧ x.1.checksum = s.checksum ∧
      Owned P x.1 (r :: held)) := by
  cases hfree : s.freelist with
  | nil =>
    rw [setupkvm]
    refine (kalloc_ends hm hown).seq (fun e he => ⟨he.1, rfl⟩) ?_
    rintro x ⟨r, rest, hcons, -⟩
    rw [hfree] at hcons
    cases hcons
  | cons r rest =>
    obtain ⟨s', hrun, hnot, hmap, hman, hmem, hrest, hsum, hown'⟩ := setupkvm_cons m kpdpt hfull hown hfree
    rw [hrun]
    exact ⟨r, rest, rfl, hnot, rfl, hmap, hman, hmem, hrest, hsum, hown'⟩

end Xv6.TableGrowth
