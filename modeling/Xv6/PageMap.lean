import Xv6.AllocUvm
import Xv6.CopyUvm

/-!
# The page table as a finite map

A table that `setupkvm` made and `mappages`, `deallocuvm` and `clearpteu` have changed in any order,
while frames are taken and given back and memory outside of its tables is written. Each operation
has one equation for the entries of all pages.
-/
namespace Xv6.PageMap

open Words Mmu Memory Kalloc Vm Outcome RadixTree PageTable TableGrowth AddressSpace PageNumber
open UserPages AnyTable CopyUvm Function

variable {m : Machine} {s s' : State} {mem mem' : Mem} {kpdpt r t f n lo k : Nat} {a va size pa perm : Word}
  {held new : List Nat} {map : Nat → Word}

def mappedEntry (pa perm : Word) (i : Nat) : Word := (pa + BitVec.ofNat 64 (i * 4096)) ||| perm ||| pteP

def bindRange (map : Nat → Word) (lo k : Nat) (pa perm : Word) (n : Nat) : Word :=
  if lo ≤ n ∧ n < lo + k then mappedEntry pa perm (n - lo) else map n

theorem mappedEntry_succ (pa perm : Word) (i : Nat) : mappedEntry (pa + 0x1000) perm i =
    mappedEntry pa perm (i + 1) := by
  have hadd : pa + 0x1000 + BitVec.ofNat 64 (i * 4096) = pa + BitVec.ofNat 64 ((i + 1) * 4096) := by
    rw [BitVec.add_assoc, show (0x1000 : Word) = BitVec.ofNat 64 4096 from rfl, ← BitVec.ofNat_add]
    congr 2
    omega
  rw [mappedEntry, mappedEntry, hadd]

theorem bindRange_succ (map : Nat → Word) (lo k : Nat) (pa perm : Word) (n : Nat) :
    bindRange (update map lo (pa ||| perm ||| pteP)) (lo + 1) k (pa + 0x1000) perm n =
    bindRange map lo (k + 1) pa perm n := by
  rw [bindRange, bindRange]
  by_cases hn : n = lo
  · subst hn
    rw [if_neg (by omega), if_pos (by omega), update_self, mappedEntry]
    simp
  · by_cases hin : lo + 1 ≤ n ∧ n < lo + 1 + k
    · rw [if_pos hin, if_pos (by omega), mappedEntry_succ, show n - (lo + 1) + 1 = n - lo by omega]
    · rw [if_neg hin, if_neg (by omega), update_of_ne hn]

/-- The loop of `mappages` on any machine. -/
theorem mapLoop_booked (m : Machine) (hfull : m.Full) (k : Nat) (h : Booked s kpdpt r held)
    (ha : a.toNat = lo * 4096)
    (hhi : lo + k ≤ 2 ^ 35) (pa perm : Word) :
    Ends (mapLoop m (kva r) perm k s a pa)
      (fun e => (Exhausted m e ∧ s.freelist.length < 3 * k) ∨
        (e = .panic "remap" ∧ ∃ n, lo ≤ n ∧ n < lo + k ∧ has (entry s.mem r n) pteP = true))
      (fun x => (x.2 = -1 ∧ m.oom = .null ∧ s.freelist.length < 3 * k) ∨
        (x.2 = 0 ∧ (∀ n, lo ≤ n → n < lo + k → has (entry s.mem r n) pteP = false) ∧
          ∃ new, Booked x.1 kpdpt r (new ++ held) ∧ Widened s x.1 r
            (bindRange (entry s.mem r) lo k pa perm) new)) := by
  induction k generalizing s a pa lo held with
  | zero =>
    refine .inr ⟨rfl, fun n h₁ h₂ => by omega, [], h, ?_⟩
    have hw := Widened.refl s r
    refine ⟨fun n hn => ?_, hw.mono, hw.tables, hw.made, hw.contents, hw.free⟩
    rw [bindRange, if_neg (by omega)]
  | succ k ih =>
    rw [mapLoop]
    refine (mapPage_booked hfull h ha (by omega) pa perm).seq ?_ ?_
    · rintro e (⟨hex, hlen⟩ | ⟨he, hpres⟩)
      · have := missing_le s.mem r a
        exact .inl ⟨hex, by omega⟩
      · exact .inr ⟨he, lo, Nat.le_refl _, by omega, hpres⟩
    rintro ⟨s₁, v⟩ ⟨new, hmap⟩
    have hmiss := missing_le s.mem r a
    obtain ⟨hv, hnull, hlen, -, -⟩ | ⟨hv, hold, hlen, hw⟩ := hmap.ends
    · obtain rfl : v = -1 := hv
      exact .inl ⟨rfl, hnull, by omega⟩
    obtain rfl : v = 0 := hv
    have hbooked := hmap.booked
    dsimp only at hw hbooked ⊢
    rw [if_neg (by decide)]
    have hfree := congrArg List.length hw.free
    rw [List.length_append, List.length_reverse] at hfree
    have hother (n : Nat) (h₁ : lo + 1 ≤ n) (h₂ : n < lo + 1 + k) : entry s₁.mem r n = entry s.mem r n := by
      rw [hw.entries n (by omega), update_of_ne (by omega)]
    refine (ih hbooked (next_page ha (by omega)) (by omega) (pa + 0x1000)).mono ?_ ?_
    · rintro e (⟨hex, hlen'⟩ | ⟨he, n, h₁, h₂, hpres⟩)
      · exact .inl ⟨hex, by omega⟩
      · exact .inr ⟨he, n, by omega, by omega, hother n h₁ h₂ ▸ hpres⟩
    · rintro x (⟨hx, hnull, hlen'⟩ | ⟨hx, hnone, new', hb, hw'⟩)
      · exact .inl ⟨hx, hnull, by omega⟩
      · refine .inr ⟨hx, ?_, new' ++ new, by rwa [List.append_assoc], ?_⟩
        · intro n h₁ h₂
          by_cases hn : n = lo
          · rw [hn]
            exact hold
          · rw [← hother n (by omega) (by omega)]
            exact hnone n (by omega) (by omega)
        · have htrans := hw.trans hw'
          refine ⟨fun n hn => ?_, htrans.mono, htrans.tables, htrans.made, htrans.contents, htrans.free⟩
          rw [htrans.entries n hn, ← bindRange_succ]
          simp only [bindRange]
          split
          · rfl
          · exact hw.entries n hn

/-- The number of pages that `[va, va + size)` meets, for a range that is not empty. -/
def spanned (va size : Word) : Nat := (va.toNat + size.toNat - 1) / 4096 - va.toNat / 4096 + 1

theorem mappages_eq (hpos : 0 < size.toNat) (hrange : va.toNat + size.toNat ≤ 2 ^ 47) (pgdir : Word) :
    mappages m s pgdir va size pa perm = mapLoop m pgdir perm (spanned va size) s (pgRoundDown va) pa := by
  have hsum : (va + size - 1).toNat = va.toNat + size.toNat - 1 := by
    rw [BitVec.toNat_sub, BitVec.toNat_add, show (1 : Word).toNat = 1 from rfl]
    omega
  have hlast : (pgRoundDown (va + size - 1)).toNat = (va.toNat + size.toNat - 1) / 4096 * 4096 := by
    rw [pgRoundDown_toNat, hsum]
  have hcount : (pgRoundDown (va + size - 1) - pgRoundDown va).toNat / pgSize + 1 = spanned va size := by
    rw [BitVec.toNat_sub, hlast, pgRoundDown_toNat, spanned, pgSize]
    omega
  rw [mappages]
  simp only [hcount]

/-- `mappages` of a range below the kernel. -/
theorem mappages_range (m : Machine) (hfull : m.Full) (h : Booked s kpdpt r held) (hpos : 0 < size.toNat)
    (hrange : va.toNat + size.toNat ≤ 2 ^ 47) (pa perm : Word) :
    Ends (mappages m s (kva r) va size pa perm)
      (fun e => (Exhausted m e ∧ s.freelist.length < 3 * spanned va size) ∨ (e = .panic "remap" ∧
        ∃ n, va.toNat / 4096 ≤ n ∧ n < va.toNat / 4096 + spanned va size ∧ has (entry s.mem r n) pteP = true))
      (fun x => (x.2 = -1 ∧ m.oom = .null ∧ s.freelist.length < 3 * spanned va size) ∨
        (x.2 = 0 ∧ (∀ n, va.toNat / 4096 ≤ n → n < va.toNat / 4096 + spanned va size →
          has (entry s.mem r n) pteP = false) ∧
          ∃ new, Booked x.1 kpdpt r (new ++ held) ∧
            Widened s x.1 r (bindRange (entry s.mem r) (va.toNat / 4096) (spanned va size) pa perm) new)) := by
  rw [mappages_eq hpos hrange]
  exact mapLoop_booked m hfull _ h (pgRoundDown_toNat va) (by rw [spanned]; omega) pa perm

theorem frames_append (mem : Mem) (r lo j k : Nat) :
    frames mem r lo (j + k) = frames mem r lo j ++ frames mem r (lo + j) k := by
  rw [frames, frames, frames, ← List.filterMap_append, List.range'_append_1]

def leaves (mem : Mem) (r : Nat) : List Nat := frames mem r 0 (2 ^ 35)

theorem leaves_split (mem : Mem) (r : Nat) (h : lo + k ≤ 2 ^ 35) :
    leaves mem r = frames mem r 0 lo ++ (frames mem r lo k ++ frames mem r (lo + k) (2 ^ 35 - (lo + k))) := by
  have hall := frames_append mem r 0 lo (k + (2 ^ 35 - (lo + k)))
  rw [Nat.zero_add, frames_append mem r lo k] at hall
  rw [← hall, leaves, show lo + (k + (2 ^ 35 - (lo + k))) = 2 ^ 35 by omega]

theorem leaves_congr (h : ∀ n < 2 ^ 35, child (entry mem' r n) = child (entry mem r n)) :
    leaves mem' r = leaves mem r := by
  rw [leaves, leaves, frames, frames]
  refine List.filterMap_congr fun n hn => ?_
  rw [List.mem_range'_1] at hn
  exact h n (by omega)

/-- The tables and the mapped frames of the allocator are held once for each time they are referred
to. -/
structure Linked (s : State) (kpdpt r : Nat) (held : List Nat) : Prop where
  shape : Shape s.mem kpdpt r
  books : ∃ tables, (∀ t, t ∈ tables ↔ IsTable s.mem r t) ∧
    Owned Managed s (tables ++ ((leaves s.mem r).filter Managed ++ held))

/-- The books of a table are about the references `refs` that it stands for. -/
theorem Linked.booked (h : Linked s kpdpt r held) : ∃ tables, (∀ t, t ∈ tables ↔ IsTable s.mem r t) ∧
    Booked s kpdpt r (tables ++ ((leaves s.mem r).filter Managed ++ held)) := by
  obtain ⟨tables, htab, hown⟩ := h.books
  exact ⟨tables, htab, h.shape, hown, fun p t hp hw => List.mem_append_left _ ((htab t).mpr ⟨p, hp, hw⟩)⟩

/-- Memory outside of the tables is written, and others change what they hold. -/
theorem Linked.others {held' : List Nat} (h : Linked s kpdpt r held)
    (hmem : ∀ t, IsTable s.mem r t → s'.mem t = s.mem t)
    (hown : ∀ refs, (∀ t, IsTable s.mem r t → t ∈ refs) → Owned Managed s (refs ++ held) →
      Owned Managed s' (refs ++ held')) :
    Linked s' kpdpt r held' := by
  obtain ⟨tables, htab, hbooks⟩ := h.books
  have hwalk (p : List Nat) (hp : p.length < 4) : walk s'.mem r p = walk s.mem r p := walk_tables hmem (by omega)
  have hleaves : leaves s'.mem r = leaves s.mem r := leaves_congr fun n _ => by
    rw [entry, pte_tables hmem rfl, ← entry]
  refine ⟨h.shape.congr (fun p t hp hw => hmem t ⟨p, hp, hw⟩), tables, fun t => ?_, ?_⟩
  · rw [htab, isTable_congr hwalk]
  · rw [hleaves, ← List.append_assoc]
    rw [← List.append_assoc] at hbooks
    exact hown _ (fun t ht => List.mem_append_left _ ((htab t).mpr ht)) hbooks

theorem linked_setup (hown : Owned Managed s' (r :: held)) (hmap : s'.mem r = emptyMap kpdpt)
    (hman : Managed r) : Linked s' kpdpt r held := by
  have hzero (n : Nat) : child (entry s'.mem r n) = none := by
    rw [entry, pte_of_none (walk_emptyMap hmap (by simp [pagePath]))]
    exact child_zero
  have hnil : leaves s'.mem r = [] := by
    rw [leaves, frames]
    simp [hzero]
  refine ⟨shape_emptyMap hmap hman, [r], fun t => ?_, ?_⟩
  · rw [List.mem_singleton]
    constructor
    · rintro rfl
      exact ⟨[], by simp, walk_nil⟩
    · rintro ⟨p, -, hw⟩
      by_cases hp : p = []
      · subst hp
        exact (Option.some.inj (walk_nil.symm.trans hw)).symm
      · rw [walk_emptyMap hmap hp] at hw
        cases hw
  · rw [hnil]
    exact hown

/-- The frames of the allocator that a call of `mappages` maps: the caller hands a reference over
for each. -/
def handed (va size pa perm : Word) : List Nat :=
  ((List.range (spanned va size)).filterMap (fun i => child (mappedEntry pa perm i))).filter Managed

theorem frames_bindRange {map : Nat → Word} (h : ∀ n < 2 ^ 36, entry mem r n = bindRange map lo k pa perm n)
    (hhi : lo + k ≤ 2 ^ 35) : frames mem r lo k = (List.range k).filterMap
    (fun i => child (mappedEntry pa perm i)) := by
  rw [frames, List.range'_eq_map_range, List.filterMap_map]
  refine List.filterMap_congr fun i hi => ?_
  rw [List.mem_range] at hi
  simp only [comp]
  rw [h (lo + i) (by omega), bindRange, if_pos (by omega), Nat.add_sub_cancel_left]

theorem Linked.mapped {x : State × Int} (hfull : m.Full) (hm : m.oom ≠ .null)
    (h : Linked s kpdpt r (handed va size pa perm ++ held)) (hpos : 0 < size.toNat)
    (hrange : va.toNat + size.toNat ≤ 2 ^ 47)
    (hrun : mappages m s (kva r) va size pa perm = .ok x) : Linked x.1 kpdpt r held := by
  obtain ⟨tables, htab, hb⟩ := h.booked
  obtain ⟨-, hnull, -⟩ | ⟨-, hnone, new, hb', hw⟩ := (mappages_range m hfull hb hpos hrange pa perm).of_ok hrun
  · exact absurd hnull hm
  have hhi : va.toNat / 4096 + spanned va size ≤ 2 ^ 35 := by
    rw [spanned]
    omega
  have hout (n : Nat) (hn : n < 2 ^ 36) (hne : ¬ (va.toNat / 4096 ≤ n ∧ n < va.toNat / 4096 + spanned va size)) :
      entry x.1.mem r n = entry s.mem r n := by
    rw [hw.entries n hn, bindRange, if_neg hne]
  have hbefore : frames s.mem r (va.toNat / 4096) (spanned va size) = [] := by
    refine List.filterMap_eq_nil_iff.mpr fun n hn => ?_
    rw [List.mem_range'_1] at hn
    exact AllocUvm.child_eq_none_of_has (hnone n hn.1 hn.2)
  have hafter := frames_bindRange hw.entries hhi
  have hleaves : (leaves x.1.mem r).filter Managed =
      (frames s.mem r 0 (va.toNat / 4096)).filter Managed ++ (handed va size pa perm ++
        (frames s.mem r (va.toNat / 4096 + spanned va size)
          (2 ^ 35 - (va.toNat / 4096 + spanned va size))).filter Managed) := by
    rw [leaves_split _ _ hhi, hafter, frames_congr (fun n _ _ => hout n (by omega) (by omega)),
      frames_congr (fun n _ _ => hout n (by omega) (by omega)), List.filter_append, List.filter_append]
    rfl
  refine ⟨hb'.shape, new ++ tables, fun t => ?_, ?_⟩
  · rw [List.mem_append, htab]
    constructor
    · rintro (ht | ht)
      · exact hw.made t ht
      · exact hw.mono t ht
    · intro ht
      exact (hw.tables t ht).symm
  · have hown := hb'.owned
    rw [leaves_split _ _ hhi, hbefore, List.nil_append, List.filter_append] at hown
    rw [hleaves]
    refine hown.perm ?_
    rw [List.perm_iff_count]
    intro g
    simp only [List.count_append]
    omega

theorem Linked.unmapped {x : State × Word} {oldsz newsz : Word} (hfull : m.Full) (h : Linked s kpdpt r held)
    (hold : oldsz.toNat ≤ 2 ^ 47) (hrun : deallocuvm m s (kva r) oldsz newsz = .ok x) :
    Linked x.1 kpdpt r held := by
  by_cases hle : oldsz.toNat ≤ newsz.toNat
  · rw [deallocuvm, if_pos hle] at hrun
    cases hrun
    exact h
  obtain ⟨tables, htab, hown⟩ := h.books
  have hmono := pages_mono (Nat.le_of_not_le hle)
  have hpages : pages oldsz ≤ 2 ^ 35 := by
    rw [pages]
    omega
  have hhi : pages newsz + (pages oldsz - pages newsz) ≤ 2 ^ 35 := by omega
  let rest := tables ++ ((frames s.mem r 0 (pages newsz)).filter Managed ++ ((frames s.mem r
    (pages newsz + (pages oldsz - pages newsz))
      (2 ^ 35 - (pages newsz + (pages oldsz - pages newsz)))).filter Managed ++ held))
  have hbooks : Owned Managed s ((frames s.mem r (pages newsz)
    (pages oldsz - pages newsz)).filter Managed ++ rest) := by
    rw [leaves_split _ _ hhi, List.filter_append, List.filter_append] at hown
    refine hown.perm ?_
    rw [List.perm_iff_count]
    intro g
    simp only [rest, List.count_append]
    omega
  have htabs : TablesIn s.mem r rest := fun p t hp hw => List.mem_append_left _ ((htab t).mpr ⟨p, hp, hw⟩)
  obtain ⟨-, hb, hclear⟩ := (deallocuvm_ends m hfull h.shape htabs hbooks hpages).of_ok hrun
  have hout (n : Nat) (hn : n < 2 ^ 36) (hne : ¬ (pages newsz ≤ n ∧
    n < pages newsz + (pages oldsz - pages newsz))) :
      entry x.1.mem r n = entry s.mem r n := by
    rw [hclear.entries n hn]
    exact if_neg fun hin => hne ⟨hin.1, hin.2.1⟩
  have hgone : frames x.1.mem r (pages newsz) (pages oldsz - pages newsz) = [] := by
    refine List.filterMap_eq_nil_iff.mpr fun n hn => ?_
    rw [List.mem_range'_1] at hn
    rw [hclear.entries n (by omega)]
    split
    case isTrue => exact child_zero
    case isFalse hne =>
      by_contra hsome
      exact hne ⟨hn.1, hn.2, hsome⟩
  refine ⟨hb.shape, tables, fun t => ?_, ?_⟩
  · rw [htab, isTable_congr hclear.walk_eq]
  · rw [leaves_split _ _ hhi, hgone, frames_congr (fun n _ _ => hout n (by omega) (by omega)),
      frames_congr (fun n _ _ => hout n (by omega) (by omega)), List.nil_append, List.filter_append,
        List.append_assoc]
    exact hb.owned

theorem pmx_user (hva : va.toNat < 2 ^ 47) : pmx va < 256 := by
  rw [pmx_eq]
  omega

theorem Linked.cleared {uva : Word} (hfull : m.Full) (h : Linked s kpdpt r held) (hva : uva.toNat < 2 ^ 47)
    (hrun : clearpteu m s (kva r) uva = .ok s') : Linked s' kpdpt r held := by
  have hn : uva.toNat / 4096 < 2 ^ 35 := by omega
  have hpmx := pmx_user hva
  rw [clearpteu, walkpgdir_false (h.shape.reaches hfull) h.shape (by omega), ok_bind, path_page, ptx_page] at hrun
  cases hw : walk s.mem r (pagePath (uva.toNat / 4096)) with
  | none =>
    rw [hw] at hrun
    cases hrun
  | some t =>
    have htm : Managed t := h.shape.managed _ t (by simp) hw
    simp only [hw, Option.map_some] at hrun
    rw [read_slot hfull h.shape hw, ok_bind, write_entry hfull htm] at hrun
    cases hrun
    have hst : Stored s.mem (setWord s.mem t (uva.toNat / 4096 % 512)
      (entry s.mem r (uva.toNat / 4096) &&& ~~~pteU)) r
        (uva.toNat / 4096) (entry s.mem r (uva.toNat / 4096) &&& ~~~pteU) := stored_setWord h.shape hn hw
    obtain ⟨tables, htab, hown⟩ := h.books
    refine ⟨shape_setPte h.shape rfl hw, tables, fun t => ?_, ?_⟩
    · rw [htab, isTable_congr hst.walk_eq]
    · have hleaves : leaves (setWord s.mem t (uva.toNat / 4096 % 512)
        (entry s.mem r (uva.toNat / 4096) &&& ~~~pteU)) r =
          leaves s.mem r := by
        refine leaves_congr fun n hn' => ?_
        rw [hst.entry_eq (by omega) (by omega)]
        split
        case isTrue he => rw [he, child_clearU]
        case isFalse => rfl
      rw [hleaves]
      exact hown.congr rfl rfl

/-- The tables that `setupkvm`, `mappages`, `deallocuvm` and `clearpteu` build below the kernel;
`held` are the references of others, who take frames, give them back, hand them over to `mappages`,
and write memory outside of the tables. -/
inductive Built (m : Machine) (kpdpt : Nat) : State → Nat → List Nat → Prop
  | setup {s s' : State} {r : Nat} {held : List Nat} (hown : Owned Managed s held) (hr : Managed r)
      (hrun : setupkvm m (kva kpdpt) s = .ok (s', kva r)) : Built m kpdpt s' r held
  | map {s s' : State} {r : Nat} {held : List Nat} {va size pa perm : Word} {v : Int}
      (h : Built m kpdpt s r (handed va size pa perm ++ held)) (hpos : 0 < size.toNat)
      (hrange : va.toNat + size.toNat ≤ 2 ^ 47)
        (hrun : mappages m s (kva r) va size pa perm = .ok (s', v)) : Built m kpdpt s' r held
  | dealloc {s s' : State} {r : Nat} {held : List Nat} {oldsz newsz v : Word} (h : Built m kpdpt s r held)
      (hold : oldsz.toNat ≤ 2 ^ 47) (hrun : deallocuvm m s (kva r) oldsz newsz = .ok (s', v)) :
      Built m kpdpt s' r held
  | clear {s s' : State} {r : Nat} {held : List Nat} {uva : Word} (h : Built m kpdpt s r held)
      (hva : uva.toNat < 2 ^ 47)
      (hrun : clearpteu m s (kva r) uva = .ok s') : Built m kpdpt s' r held
  | take {s s' : State} {r f : Nat} {held : List Nat} (h : Built m kpdpt s r held) (hf : Managed f)
      (hrun : kalloc m s = .ok (s', kva f)) : Built m kpdpt s' r (f :: held)
  | give {s s' : State} {r f : Nat} {held : List Nat} (h : Built m kpdpt s r (f :: held))
      (hrun : krelease m s (kva f) = .ok s') : Built m kpdpt s' r held
  | store {s : State} {r : Nat} {held : List Nat} {mem : Mem} (h : Built m kpdpt s r held)
      (hmem : ∀ t, IsTable s.mem r t → mem t = s.mem t) : Built m kpdpt { s with mem := mem } r held

theorem Built.linked (hfull : m.Full) (hm : m.oom ≠ .null) (h : Built m kpdpt s r held) :
    Linked s kpdpt r held := by
  induction h with
  | setup hown hr hrun =>
    obtain ⟨r', rest, -, -, hptr, hmap, hman, -, -, -, hown'⟩ := (setupkvm_ends kpdpt hm hfull hown).of_ok hrun
    obtain rfl := kva_injective hr.small hman.small hptr
    exact linked_setup hown' hmap hman
  | map _ hpos hrange hrun ih => exact ih.mapped hfull hm hpos hrange hrun
  | dealloc _ hold hrun ih => exact ih.unmapped hfull hold hrun
  | clear _ hva hrun ih => exact ih.cleared hfull hva hrun
  | @take s s' r f held _ hf hrun ih =>
    have htake {refs : List Nat} (hown : Owned Managed s (refs ++ held)) :
        s'.mem = s.mem ∧ Owned Managed s' (refs ++ f :: held) := by
      obtain ⟨f', rest, -, hman, -, hres, hown'⟩ := (kalloc_ends hm hown).of_ok hrun
      obtain ⟨rfl, hptr⟩ := Prod.mk.inj hres
      obtain rfl := kva_injective hf.small hman.small hptr
      exact ⟨rfl, hown'.perm List.perm_middle.symm⟩
    obtain ⟨tables, -, hown⟩ := ih.books
    rw [← List.append_assoc] at hown
    exact ih.others (fun t _ => by rw [(htake hown).1]) fun refs _ hbooks => (htake hbooks).2
  | @give s s' r f held _ hrun ih =>
    have hgive {refs : List Nat} (hown : Owned Managed s (refs ++ f :: held)) :
        Owned Managed s' (refs ++ held) ∧ ∀ g ∈ refs, s'.mem g = s.mem g := by
      obtain ⟨s'', hrun', hown', hmem, -, -⟩ := krelease_kva hfull (hown.perm List.perm_middle)
      obtain rfl : s' = s'' := Except.ok.inj (hrun.symm.trans hrun')
      refine ⟨hown', fun g hg => hmem g ?_⟩
      by_cases hgf : g = f
      · exact .inr (List.mem_append_left _ (hgf ▸ hg))
      · exact .inl hgf
    obtain ⟨tables, htab, hown⟩ := ih.books
    rw [← List.append_assoc] at hown
    exact ih.others (fun t ht => (hgive hown).2 t (List.mem_append_left _ ((htab t).mpr ht)))
      fun refs _ hbooks => (hgive hbooks).1
  | store _ hmem ih => exact ih.others hmem fun refs _ hown => hown.congr rfl rfl

/-- A store through `walkpgdir(pgdir, va, 1)` changes the page of `va` and no other. -/
theorem walkpgdir_store (m : Machine) (hfull : m.Full) (h : Booked s kpdpt r held) (hva : va.toNat < 2 ^ 47)
    (hfree : missing s.mem r va ≤ s.freelist.length) (e : Word) :
    ∃ s₁ slot s₂, walkpgdir m s (kva r) va true = .ok (s₁, some slot) ∧ write m s₁ slot e = .ok s₂ ∧
      ∀ n < 2 ^ 35, entry s₂.mem r n = if n = va.toNat / 4096 then e else entry s.mem r n := by
  have hpmx := pmx_user hva
  obtain ⟨⟨s₁, slot⟩, hrun, hend⟩ := (walkpgdir_ends m True hfull h.shape h.owned h.tables
    (by omega) (fun _ => hpmx)).returns (by
    rintro e ⟨-, hshort⟩
    omega)
  obtain ⟨-, new, hstuck⟩ | ⟨t, new, hslot, hfound⟩ := hend
  · have := hstuck.short
    omega
  obtain rfl : slot = some (entryPtr (kva t) (ptx va)) := hslot
  have hw : walk s₁.mem r (pagePath (va.toNat / 4096)) = some t := path_page va ▸ hfound.found
  have htm : Managed t := hfound.shape.managed _ t (by simp) hw
  have hst : Stored s₁.mem (setWord s₁.mem t (va.toNat / 4096 % 512) e) r (va.toNat / 4096) e :=
    stored_setWord hfound.shape (by omega) hw
  refine ⟨s₁, _, { s₁ with mem := setWord s₁.mem t (va.toNat / 4096 % 512) e }, hrun, ?_, ?_⟩
  · rw [ptx_page]
    exact write_entry hfull htm e
  · intro n hn
    rw [hst.entry_eq (by omega) (by omega), entry, entry, hfound.extend.map _ _ rfl]

/-- Where `walkpgdir(pgdir, va, 0)` finds a slot, `walkpgdir(pgdir, va, 1)` finds the same and
changes nothing. -/
theorem walkpgdir_agrees (m : Machine) {slot : Word} (hfull : m.Full) (h : Booked s kpdpt r held)
    (hva : va.toNat < 2 ^ 47)
    (hrun : walkpgdir m s (kva r) va false = .ok (s', some slot)) :
    walkpgdir m s (kva r) va true = .ok (s', some slot) := by
  have hpmx := pmx_user hva
  rw [walkpgdir_false (h.shape.reaches hfull) h.shape (by omega)] at hrun
  obtain ⟨rfl, hslot⟩ := Prod.mk.inj (Except.ok.inj hrun)
  obtain ⟨t, hw, hptr⟩ := Option.map_eq_some_iff.mp hslot
  have hne : walk s.mem r (path va) ≠ none := by simp [hw]
  have hzero := missing_of_walk hne
  obtain ⟨⟨s₁, slot'⟩, hrun', hend⟩ := (walkpgdir_ends m True hfull h.shape h.owned h.tables
    (by omega) (fun _ => hpmx)).returns (by
    rintro e ⟨-, hshort⟩
    omega)
  obtain ⟨-, new, hstuck⟩ | ⟨t', new, hslot', hfound⟩ := hend
  · have := hstuck.short
    omega
  obtain rfl : s₁ = s := hfound.same hne
  obtain rfl : t = t' := Option.some.inj (hw.symm.trans hfound.found)
  rw [hrun', ← hptr]
  exact congrArg _ (Prod.ext rfl hslot')

/-- A page table is a map from pages to entries: its tables are a tree, a store changes one page,
the two ways to walk agree, and `mappages` binds the pages of its range. -/
theorem page_table_is_map (hfull : m.Full) (hm : m.oom ≠ .null) (h : Built m kpdpt s r held) :
    (∀ p q t, p.length < 4 → q.length < 4 → walk s.mem r p = some t → walk s.mem r q = some t → p = q) ∧
    (∀ va e, va.toNat < 2 ^ 47 → missing s.mem r va ≤ s.freelist.length →
      ∃ s₁ slot s₂, walkpgdir m s (kva r) va true = .ok (s₁, some slot) ∧ write m s₁ slot e = .ok s₂ ∧
        ∀ n < 2 ^ 35, entry s₂.mem r n = if n = va.toNat / 4096 then e else entry s.mem r n) ∧
    (∀ va s' slot, va.toNat < 2 ^ 47 → walkpgdir m s (kva r) va false = .ok (s', some slot) →
      walkpgdir m s (kva r) va true = .ok (s', some slot)) ∧
    ∀ va size pa perm, 0 < size.toNat → va.toNat + size.toNat ≤ 2 ^ 47 →
      ((∀ n, va.toNat / 4096 ≤ n → n * 4096 < va.toNat + size.toNat → has (entry s.mem r n) pteP = false) →
        3 * spanned va size ≤ s.freelist.length → ∃ s', mappages m s (kva r) va size pa perm = .ok (s', 0)) ∧
      ∀ s', mappages m s (kva r) va size pa perm = .ok (s', 0) →
        ∀ n < 2 ^ 35, entry s'.mem r n = if va.toNat / 4096 ≤ n ∧ n * 4096 < va.toNat + size.toNat then
          (pa + BitVec.ofNat 64 ((n - va.toNat / 4096) * 4096)) ||| perm ||| pteP else entry s.mem r n := by
  have hlinked := h.linked hfull hm
  obtain ⟨tables, -, hb⟩ := hlinked.booked
  refine ⟨hb.shape.uniq, fun va e hva hfree => walkpgdir_store m hfull hb hva hfree e,
    fun va s' slot hva => walkpgdir_agrees m hfull hb hva, ?_⟩
  intro va size pa perm hpos hrange
  have hends := mappages_range m hfull hb hpos hrange pa perm
  refine ⟨fun hnone hfree => ?_, fun s' hrun n hn => ?_⟩
  · obtain ⟨⟨s', v⟩, hrun, ⟨-, hnull, -⟩ | ⟨rfl, -⟩⟩ := hends.returns (by
      rintro e (⟨-, hshort⟩ | ⟨-, n, h₁, h₂, hpres⟩)
      · omega
      · rw [spanned] at h₂
        rw [hnone n h₁ (by omega)] at hpres
        cases hpres)
    · exact absurd hnull hm
    · exact ⟨s', hrun⟩
  · obtain ⟨hv, -⟩ | ⟨-, -, new, -, hw⟩ := hends.of_ok hrun
    · cases hv
    rw [hw.entries n (by omega), bindRange]
    refine if_congr ?_ rfl rfl
    rw [spanned]
    omega

/-- A table without a page and with frames to spare. -/
theorem exists_built : ∃ s r held, Built pc 0x1fb s r held ∧ (∀ n, entry s.mem r n = 0) ∧ 3 ≤
    s.freelist.length := by
  have hfree : PageWalk.bare.freelist = 0x1fc :: List.range' 0x1fd 56835 := rfl
  obtain ⟨s, hrun, -, hmap, hman, -, hrest, -, -⟩ := setupkvm_cons pc 0x1fb pc_full PageWalk.bare_owned hfree
  refine ⟨s, 0x1fc, [0x1fb], .setup PageWalk.bare_owned hman hrun, ?_, ?_⟩
  · intro n
    rw [entry, pte_of_none (walk_emptyMap hmap (by simp [pagePath]))]
  · rw [hrest, List.length_range']
    omega

theorem page_table_is_map_fresh : ∃ s r held, Built pc 0x1fb s r held ∧
    ∃ s', mappages pc s (kva r) 0x1000 0x1000 0x200000 pteW = .ok (s', 0) ∧
      entry s'.mem r 1 = 0x200000 ||| pteW ||| pteP := by
  obtain ⟨s, r, held, hb, hzero, hfree⟩ := exists_built
  obtain ⟨-, -, -, hmap⟩ := page_table_is_map pc_full PageWalk.pc_oom hb
  obtain ⟨hruns, hentry⟩ := hmap 0x1000 0x1000 0x200000 pteW (by decide) (by decide)
  obtain ⟨s', hrun⟩ := hruns (fun n _ _ => by rw [hzero]; rfl) hfree
  refine ⟨s, r, held, hb, s', hrun, ?_⟩
  rw [hentry s' hrun 1 (by omega), if_pos (by decide)]
  decide

/-- The range `[0x1001, 0x1001)` is empty, but `mappages` binds the page of its address. -/
theorem mappages_empty_range : ∃ s r held, Built pc 0x1fb s r held ∧ (∀ n, entry s.mem r n = 0) ∧
    3 ≤ s.freelist.length ∧
    ∃ s', mappages pc s (kva r) 0x1001 0 0x200000 pteW = .ok (s', 0) ∧ entry s'.mem r 1 ≠ entry s.mem r 1 := by
  obtain ⟨s, r, held, hbuilt, hzero, hfree⟩ := exists_built
  obtain ⟨tables, -, hb⟩ := (hbuilt.linked pc_full PageWalk.pc_oom).booked
  have heq : mappages pc s (kva r) 0x1001 0 0x200000 pteW = mapLoop pc (kva r) pteW 1 s 0x1000 0x200000 := by
    rw [mappages]
    rfl
  have hpage : (0x1000 : Word).toNat = 1 * 4096 := rfl
  obtain ⟨⟨s', v⟩, hrun, hend⟩ := (mapLoop_booked pc pc_full 1 hb hpage (by omega) 0x200000 pteW).returns (by
    rintro e (⟨-, hshort⟩ | ⟨-, n, -, -, hpres⟩)
    · omega
    · rw [hzero] at hpres
      cases hpres)
  obtain ⟨-, hnull, -⟩ | ⟨hv, -, new, -, hw⟩ := hend
  · exact absurd hnull PageWalk.pc_oom
  obtain rfl : v = 0 := hv
  refine ⟨s, r, held, hbuilt, hzero, hfree, s', heq.trans hrun, ?_⟩
  rw [hw.entries 1 (by omega), hzero, bindRange, if_pos (by omega)]
  decide

end Xv6.PageMap
