import Xv6.RadixTree
import Xv6.Vm

/-!
# The page table as a tree

A page table is a radix tree in memory. The slot of the kernel is masked out, so that `walk` follows
the user part only: a path of one, two or three indices leads to a table and one of four to a mapped
frame. `pte` reads the tree as a map from pages to entries, with 0 where a table is missing.

`Shape` is what `setupkvm` and `mappages` keep up: the tables form a tree without sharing and the
entries above the last level all have the same three flags.
-/
namespace Xv6.PageTable

open Words Mmu Memory Kalloc Vm RadixTree Function

def child (e : Word) : Option Nat := if has e pteP then some (frameOf e) else none

/-- `freevm` visits the lower half of the page map and every entry below it. -/
def width (h : Nat) : Nat := if h = 4 then 256 else 512

/-- Memory without the kernel's slot of the page map at `r`. -/
def userMem (mem : Mem) (r : Nat) : Mem := setWord mem r 256 0

def walk (mem : Mem) (r : Nat) (p : List Nat) : Option Nat := follow child (userMem mem r) r p

def treeRefs (mem : Mem) (r : Nat) : List Nat := refs child width (userMem mem r) 4 r

/-- The entry at index `i` of the last-level table at path `p`. -/
def pte (mem : Mem) (r : Nat) (p : List Nat) (i : Nat) : Word :=
  match walk mem r p with
  | none => 0
  | some t => mem t i

def path (va : Word) : List Nat := [pmx va, pdpx va, pdx va]

def tableEntry (f : Nat) : Word := frameAddr f ||| pteP ||| pteW ||| pteU

def kernelEntry (kpdpt : Nat) : Word := frameAddr kpdpt ||| pteP ||| pteW

structure Shape (mem : Mem) (kpdpt r : Nat) : Prop where
  kernel : mem r 256 = kernelEntry kpdpt
  managed : ∀ p t, p.length < 4 → walk mem r p = some t → Managed t
  uniq : ∀ p q t, p.length < 4 → q.length < 4 → walk mem r p = some t → walk mem r q = some t → p = q
  entry : ∀ p t i, p.length < 3 → walk mem r p = some t → has (userMem mem r t i) pteP = true →
    userMem mem r t i = tableEntry (frameOf (userMem mem r t i))

variable {m : Machine} {P : Nat → Prop} {s s' : State} {mem mem' : Mem} {kpdpt r t f i j : Nat}
  {p q : List Nat} {va e : Word} {held : List Nat}

@[simp] theorem child_zero : child 0#64 = none := by
  simp [child]

theorem child_eq_some : child e = some f ↔ has e pteP = true ∧ frameOf e = f := by
  by_cases h : has e pteP = true <;> simp [child, h]

theorem child_eq_none : child e = none ↔ has e pteP = false := by
  by_cases h : has e pteP = true <;> simp [child, h]

theorem child_mkEntry {w : Word} (hf : f < 2 ^ 52) (hw : IsFlags w) (hp : has w pteP = true) :
    child (frameAddr f ||| w) = some f := by
  rw [child_eq_some, has_frameAddr_or f w isFlags_pteP, frameOf_or hw, frameOf_frameAddr hf]
  exact ⟨hp, rfl⟩

theorem tableEntry_eq (f : Nat) : tableEntry f = frameAddr f ||| (pteP ||| (pteW ||| pteU)) := by
  rw [tableEntry, BitVec.or_assoc, BitVec.or_assoc]

theorem isFlags_table : IsFlags (pteP ||| (pteW ||| pteU)) := isFlags_of_lt (by decide)

theorem child_tableEntry (hf : f < 2 ^ 52) : child (tableEntry f) = some f := by
  rw [tableEntry_eq]
  exact child_mkEntry hf isFlags_table (by decide)

theorem has_kernelEntry (f : Nat) : has (kernelEntry f) pteP = true := by
  rw [kernelEntry, BitVec.or_assoc, has_frameAddr_or f _ (isFlags_of_lt (by decide))]
  decide

theorem child_kernelEntry (hf : f < 2 ^ 52) : child (kernelEntry f) = some f := by
  rw [kernelEntry, BitVec.or_assoc]
  exact child_mkEntry hf (isFlags_of_lt (by decide)) (by decide)

theorem userMem_of_ne (h : t ≠ r ∨ i ≠ 256) : userMem mem r t i = mem t i := setWord_of_ne h 0

theorem userMem_frame (h : t ≠ r) : userMem mem r t = mem t := setWord_other h 256 0

@[simp] theorem userMem_kernel : userMem mem r r 256 = 0#64 := setWord_same mem r 256 0

@[simp] theorem walk_nil : walk mem r [] = some r := rfl

theorem walk_snoc : walk mem r (p ++ [i]) = (walk mem r p).bind (fun t => child (userMem mem r t i)) :=
  follow_snoc r p i

/-- A walk reads nothing but the tables it goes through. -/
theorem walk_congr (p : List Nat) (h : ∀ q t, q.length < p.length → walk mem r q = some t → mem' t = mem t) :
    walk mem' r p = walk mem r p := by
  apply follow_congr
  intro q t hlen hf
  have ht := h q t hlen hf
  by_cases he : t = r
  · subst he
    simp only [userMem, setWord, ht, setPage_same]
  · rw [userMem_frame he, userMem_frame he, ht]

section

variable (h : Shape mem kpdpt r)
include h

theorem Shape.root : Managed r := h.managed [] r (by simp) rfl

/-- The page map is reached by the empty path only. -/
theorem Shape.ne_root (hlen : p.length < 4) (hw : walk mem r p = some t) (hne : p ≠ []) :
    t ≠ r := by
  rintro rfl
  exact hne (h.uniq p [] t hlen (by simp) hw rfl)

theorem Shape.slot (hlen : p.length < 4) (hw : walk mem r p = some t)
    (hi : p = [] → i ≠ 256) : userMem mem r t i = mem t i := by
  apply userMem_of_ne
  by_cases hp : p = []
  · exact .inr (hi hp)
  · exact .inl (h.ne_root hlen hw hp)

/-- The shape of a table depends on its pages only. -/
theorem Shape.congr
    (hsame : ∀ p t, p.length < 4 → walk mem r p = some t → mem' t = mem t) : Shape mem' kpdpt r := by
  have hwalk : ∀ p, p.length ≤ 4 → walk mem' r p = walk mem r p :=
    fun p hp => walk_congr p (fun q t hq hw => hsame q t (by omega) hw)
  have huser : ∀ p t i, p.length < 4 → walk mem r p = some t → userMem mem' r t i = userMem mem r t i := by
    intro p t i hp hw
    have ht := hsame p t hp hw
    by_cases he : t = r
    · subst he
      simp only [userMem, setWord, ht, setPage_same]
    · rw [userMem_frame he, userMem_frame he, ht]
  refine ⟨?_, ?_, ?_, ?_⟩
  · rw [hsame [] r (by simp) rfl, h.kernel]
  · intro p t hp hw
    rw [hwalk p (by omega)] at hw
    exact h.managed p t hp hw
  · intro p q t hp hq hw hw'
    rw [hwalk p (by omega)] at hw
    rw [hwalk q (by omega)] at hw'
    exact h.uniq p q t hp hq hw hw'
  · intro p t i hp hw hpres
    rw [hwalk p (by omega)] at hw
    rw [huser p t i (by omega) hw] at hpres ⊢
    exact h.entry p t i hp hw hpres

end

theorem pte_of_walk (h : walk mem r p = some t) : pte mem r p i = mem t i := by
  simp [pte, h]

theorem pte_of_none (h : walk mem r p = none) : pte mem r p i = 0 := by
  simp [pte, h]

/-- The machine has the memory that holds the tables. -/
def Reaches (m : Machine) (mem : Mem) (r : Nat) : Prop :=
  ∀ p t, p.length < 4 → walk mem r p = some t → m.ram t = true

theorem Shape.reaches (h : Shape mem kpdpt r) (hfull : m.Full) : Reaches m mem r :=
  fun p t hp hw => (h.managed p t hp hw).ram hfull

theorem nextTable_false (hram : Reaches m s.mem r) (h : Shape s.mem kpdpt r) (hlen : p.length < 3)
    (hw : walk s.mem r p = some t) (hi : i < 512) (hk : p = [] → i ≠ 256) :
    nextTable m s (entryPtr (kva t) i) false = .ok (s, (walk s.mem r (p ++ [i])).map kva) := by
  have hman := h.managed p t (by omega) hw
  rw [nextTable, read_entryPtr hman.small (hram p t (by omega) hw) hi, ok_bind, walk_snoc, hw, Option.bind_some,
    h.slot (by omega) hw hk, child]
  by_cases hp : has (s.mem t i) pteP = true
  · simp [hp, p2v_pteAddr, pure, Except.pure]
  · simp [hp, pure, Except.pure]

theorem walk_two (a b : Nat) : walk mem r [a, b] = (walk mem r [a]).bind (fun t => child (userMem mem r t b)) :=
  walk_snoc (p := [a])

theorem walk_three (a b c : Nat) :
    walk mem r [a, b, c] = (walk mem r [a, b]).bind (fun t => child (userMem mem r t c)) :=
  walk_snoc (p := [a, b])

section

variable (hram : Reaches m s.mem r) (h : Shape s.mem kpdpt r) (hva : pmx va ≠ 256)
include hram h hva

/-- `walkpgdir(pgdir, va, 0)` returns the slot of the last-level table, if there is one. -/
theorem walkpgdir_false :
    walkpgdir m s (kva r) va false =
      .ok (s, (walk s.mem r (path va)).map (fun t => entryPtr (kva t) (ptx va))) := by
  have n₁ : nextTable m s (entryPtr (kva r) (pmx va)) false = .ok (s, (walk s.mem r [pmx va]).map kva) :=
    nextTable_false hram h (p := []) (by simp) walk_nil (pmx_lt va) (fun _ => hva)
  rw [walkpgdir, n₁, ok_bind, path]
  cases h₁ : walk s.mem r [pmx va] with
  | none =>
    rw [walk_three, walk_two, h₁]
    rfl
  | some t₁ =>
    have n₂ : nextTable m s (entryPtr (kva t₁) (pdpx va)) false =
        .ok (s, (walk s.mem r [pmx va, pdpx va]).map kva) :=
      nextTable_false hram h (by simp) h₁ (pdpx_lt va) (by simp)
    simp only [Option.map_some]
    rw [n₂, ok_bind]
    cases h₂ : walk s.mem r [pmx va, pdpx va] with
    | none =>
      rw [walk_three, h₂]
      rfl
    | some t₂ =>
      have n₃ : nextTable m s (entryPtr (kva t₂) (pdx va)) false =
          .ok (s, (walk s.mem r [pmx va, pdpx va, pdx va]).map kva) :=
        nextTable_false hram h (by simp) h₂ (pdx_lt va) (by simp)
      simp only [Option.map_some]
      rw [n₃, ok_bind]
      cases h₃ : walk s.mem r [pmx va, pdpx va, pdx va] with
      | none => rfl
      | some t₃ => rfl

/-- `uva2ka` dereferences the null pointer when a table is missing. -/
theorem uva2ka_none
    (hw : walk s.mem r (path va) = none) : uva2ka m s (kva r) va = .error .nullDeref := by
  rw [uva2ka, walkpgdir_false hram h hva, hw]
  rfl

theorem uva2ka_some
    (hw : walk s.mem r (path va) = some t) :
    uva2ka m s (kva r) va = .ok (if has (s.mem t (ptx va)) pteP = true ∧ has (s.mem t (ptx va)) pteU = true
      then kva (frameOf (s.mem t (ptx va))) else 0) := by
  have hman := h.managed _ t (by simp [path]) hw
  rw [uva2ka, walkpgdir_false hram h hva, hw, ok_bind, Option.map_some]
  simp only
  rw [read_entryPtr hman.small (hram _ t (by simp [path]) hw) (ptx_lt va), ok_bind, p2v_pteAddr]
  by_cases hp : has (s.mem t (ptx va)) pteP = true
  · by_cases hu : has (s.mem t (ptx va)) pteU = true
    · simp only [hp, hu, Bool.true_eq_false, ↓reduceIte, and_self]
      rfl
    · simp only [hp, hu, Bool.true_eq_false, ↓reduceIte]
      rfl
  · simp only [hp, ↓reduceIte]
    rfl

end

theorem Shape.walk_leaf (h : Shape mem kpdpt r) (hp : p.length = 3) :
    walk mem r (p ++ [i]) = child (pte mem r p i) := by
  rw [walk_snoc, pte]
  cases hw : walk mem r p with
  | none => simp
  | some t => rw [Option.bind_some, h.slot (by omega) hw (by rintro rfl; simp at hp)]

section SetPte

variable (h : Shape mem kpdpt r) (hp : p.length = 3) (hw : walk mem r p = some t)
include h hp hw

theorem walk_setPte (q : List Nat) (hq : q.length ≤ 4) :
    walk (setWord mem t i e) r q = if q = p ++ [i] then child e else walk mem r q := by
  have htr : t ≠ r := h.ne_root (by omega) hw (by rintro rfl; simp at hp)
  have hentry : userMem (setWord mem t i e) r t i = e := by
    rw [userMem_frame htr, setWord_same]
  have hset := follow_set (userMem mem r) (userMem (setWord mem t i e) r) 4 i hw (fun q hq hq' =>
    h.uniq q p t hq (by omega) hq' hw) ?_ (by omega) (by omega) q hq
  · rw [hentry] at hset
    exact hset
  · intro q t' i' _ _ hor
    by_cases hkern : t' = r ∧ i' = 256
    · obtain ⟨rfl, rfl⟩ := hkern
      simp
    · have hor' : t' ≠ r ∨ i' ≠ 256 := by
        by_cases ht : t' = r
        · exact .inr (fun hi => hkern ⟨ht, hi⟩)
        · exact .inl ht
      rw [userMem_of_ne hor', userMem_of_ne hor', setWord_of_ne hor]

/-- The tables stay where they are. -/
theorem walk_setPte_table (q : List Nat) (hq : q.length < 4) :
    walk (setWord mem t i e) r q = walk mem r q := by
  rw [walk_setPte h hp hw q (by omega), if_neg]
  rintro rfl
  simp [hp] at hq

theorem shape_setPte : Shape (setWord mem t i e) kpdpt r := by
  have hwalk := fun q hq => walk_setPte_table (i := i) (e := e) h hp hw q hq
  have htr : t ≠ r := h.ne_root (by omega) hw (by rintro rfl; simp at hp)
  refine ⟨?_, ?_, ?_, ?_⟩
  · rw [setWord_other htr.symm, h.kernel]
  · intro q u hq hu
    rw [hwalk q hq] at hu
    exact h.managed q u hq hu
  · intro q q' u hq hq' hu hu'
    rw [hwalk q hq] at hu
    rw [hwalk q' hq'] at hu'
    exact h.uniq q q' u hq hq' hu hu'
  · intro q u j hq hu hpres
    rw [hwalk q (by omega)] at hu
    have hut : u ≠ t := by
      rintro rfl
      have := h.uniq q p u (by omega) (by omega) hu hw
      rw [this] at hq
      omega
    have hsame : userMem (setWord mem t i e) r u j = userMem mem r u j := by
      by_cases hur : u = r
      · subst hur
        simp only [userMem, setWord, setPage_same, setPage_other hut]
      · rw [userMem_frame hur, userMem_frame hur, setWord_other hut]
    rw [hsame] at hpres ⊢
    exact h.entry q u j hq hu hpres

theorem pte_setPte (q : List Nat) (hq : q.length = 3) (j : Nat) :
    pte (setWord mem t i e) r q j = if q = p ∧ j = i then e else pte mem r q j := by
  simp only [pte, walk_setPte_table h hp hw q (by omega)]
  by_cases he : q = p
  · subst he
    simp only [hw, true_and]
    by_cases hj : j = i
    · subst hj
      simp [setWord_same]
    · simp [hj, setWord_slot hj]
  · simp only [he, false_and, if_false]
    cases hu : walk mem r q with
    | none => rfl
    | some u =>
      have hut : u ≠ t := by
        rintro rfl
        exact he (h.uniq q p u (by omega) (by omega) hu hw)
      simp only [setWord_other hut]

/-- Filling an empty slot adds what the new entry refers to. -/
theorem treeRefs_fill (hin : Inside width 4 (p ++ [i])) (hold : child (pte mem r p i) = none) :
    (treeRefs (setWord mem t i e) r).Perm ((child e).toList ++ treeRefs mem r) := by
  have hwalk := fun q hq => walk_setPte (i := i) (e := e) h hp hw q hq
  have hnone : walk mem r (p ++ [i]) = none := by rw [h.walk_leaf hp, hold]
  cases hc : child e with
  | none =>
    refine (nodes_perm ?_).map Prod.snd
    intro q _ hq
    have hq' := hwalk q hq.length_le
    rw [hc] at hq'
    refine hq'.trans ?_
    by_cases he : q = p ++ [i]
    · rw [if_pos he, he]
      exact hnone.symm
    · rw [if_neg he]
      rfl
  | some f =>
    refine (nodes_insert (by simp) hin hnone ?_ ?_).map Prod.snd
    · have := hwalk (p ++ [i]) (by simp [hp])
      rw [if_pos rfl, hc] at this
      exact this
    · intro q hq hqne
      exact (hwalk q hq).trans (if_neg hqne)

/-- A store exchanges what the old entry refers to for what the new one does. -/
theorem treeRefs_setPte (hin : Inside width 4 (p ++ [i])) :
    (treeRefs (setWord mem t i e) r ++ (child (pte mem r p i)).toList).Perm
      (treeRefs mem r ++ (child e).toList) := by
  have hs₀ := shape_setPte (i := i) (e := 0) h hp hw
  have hw₀ : walk (setWord mem t i 0) r p = some t := by rw [walk_setPte_table h hp hw p (by omega), hw]
  have hold₀ : child (pte (setWord mem t i 0) r p i) = none := by
    rw [pte_setPte h hp hw p hp i, if_pos ⟨rfl, rfl⟩]
    exact child_zero
  have htwice : ∀ w, setWord (setWord mem t i 0) t i w = setWord mem t i w := by
    intro w
    simp only [setWord, setPage, update_self, update_idem]
  have hback : setWord mem t i (mem t i) = mem := by
    simp only [setWord, setPage, update_eq_self]
  have hnew := treeRefs_fill (e := e) hs₀ hp hw₀ hin hold₀
  have hold := treeRefs_fill (e := mem t i) hs₀ hp hw₀ hin hold₀
  rw [htwice] at hnew hold
  rw [hback] at hold
  rw [pte_of_walk hw]
  have h₁ := hnew.append_right (child (mem t i)).toList
  have h₂ := hold.append_right (child e).toList
  refine h₁.trans (List.Perm.trans ?_ h₂.symm)
  rw [List.perm_iff_count]
  intro a
  simp only [List.count_append]
  omega

end SetPte

end Xv6.PageTable
