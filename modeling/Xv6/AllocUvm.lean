import Xv6.AnyTable
import Xv6.FreeVm
import Xv6.PageWalk

/-!
# `allocuvm` grows a table or leaves it

On a machine whose `kalloc` returns 0 when no frame is left. `Growing` is what the loop of
`allocuvm` has reached at page `n`. A failure hands the whole range to `deallocuvm`, which finds the
pages that were added and no others.
-/
namespace Xv6.AllocUvm

open Words Mmu Memory Kalloc Vm Outcome RadixTree PageTable TableGrowth AddressSpace PageNumber
open UserPages AnyTable FreeVm PageWalk Function

variable {mem : Mem} {new' : List Nat}

variable {m : Machine} {s s' s₁ : State} {kpdpt r t f g n lo hi k : Nat} {a oldsz newsz : Word}
  {held new : List Nat}

/-- The table between two turns of the loop that started at page `lo` of `s` and has come to page
`n`. -/
structure Growing (s s' : State) (kpdpt r lo n : Nat) (held new : List Nat) : Prop where
  shape : Shape s'.mem kpdpt r
  tables : TablesIn s'.mem r (new ++ held)
  owned : Owned Managed s' (frames s'.mem r lo (n - lo) ++ (new ++ held))
  nodup : (frames s'.mem r lo (n - lo)).Nodup
  apart : ∀ f ∈ frames s'.mem r lo (n - lo), f ∉ new ++ held
  fresh : ∀ k, lo ≤ k → k < n → ∃ f ∈ s.freelist, Managed f ∧ entry s'.mem r k = freshEntry f ∧
    s'.mem f = fun _ => 0
  made : ∀ t ∈ new, t ∈ s.freelist ∧ IsTable s'.mem r t
  free : ∀ f ∈ s'.freelist, f ∈ s.freelist

def SameOutside (s s' : State) (r lo n : Nat) : Prop :=
  ∀ k < 2 ^ 36, k < lo ∨ n ≤ k → entry s'.mem r k = entry s.mem r k

theorem growing_start (h : Booked s kpdpt r held) (lo : Nat) : Growing s s kpdpt r lo lo held [] := by
  have hnil : frames s.mem r lo (lo - lo) = [] := by simp [frames]
  refine ⟨h.shape, h.tables, ?_, ?_, ?_, fun k h₁ h₂ => by omega, by simp, fun _ hf => hf⟩
  all_goals rw [hnil]
  · exact h.owned
  · exact List.nodup_nil
  · simp

theorem Growing.mem_frames (h : Growing s s' kpdpt r lo n held new) (h₁ : lo ≤ k) (h₂ : k < n) :
    ∃ f ∈ frames s'.mem r lo (n - lo), f ∈ s.freelist ∧ entry s'.mem r k = freshEntry f ∧
      child (entry s'.mem r k) = some f ∧ s'.mem f = fun _ => 0 := by
  obtain ⟨f, hf, hman, he, hz⟩ := h.fresh k h₁ h₂
  have hc : child (entry s'.mem r k) = some f := by
    rw [he]
    exact child_freshEntry hman
  exact ⟨f, List.mem_filterMap.mpr ⟨k, List.mem_range'_1.mpr ⟨h₁, by omega⟩, hc⟩, hf, he, hc, hz⟩

/-- A table whose frames are among `held` when more is held. -/
theorem Growing.booked (h : Growing s s' kpdpt r lo n held new) :
    Booked s' kpdpt r (frames s'.mem r lo (n - lo) ++ (new ++ held)) :=
  ⟨h.shape, h.owned, fun p t hp hw => List.mem_append_right _ (h.tables p t hp hw)⟩

theorem frames_snoc (mem : Mem) (r lo k : Nat) :
    frames mem r lo (k + 1) = frames mem r lo k ++ (child (entry mem r (lo + k))).toList := by
  rw [frames, frames, List.range'_concat, List.filterMap_append]
  simp only [Nat.one_mul]
  cases hc : child (entry mem r (lo + k)) <;> simp [hc]

theorem tables_setPage (h : ¬ IsTable mem r f) (page : Page) :
    ∀ t, IsTable mem r t → setPage mem f page t = mem t := by
  intro t ht
  refine setPage_other ?_ page
  rintro rfl
  exact h ht

theorem entry_setPage (h : ¬ IsTable mem r f) (page : Page) (k : Nat) :
    entry (setPage mem f page) r k = entry mem r k :=
  pte_tables (tables_setPage h page) rfl

/-- A frame that is taken and cleared, before it is mapped. -/
theorem Growing.take {rest : List Nat} (h : Growing s s' kpdpt r lo n held new) (hfree : s'.freelist = f :: rest)
    (refs : Nat → Int) (hown : Owned Managed ⟨s'.mem, refs, s'.checksum,
      rest⟩ (f :: (frames s'.mem r lo (n - lo) ++ (new ++ held)))) :
    Growing s ⟨setPage s'.mem f (fun _ => 0), refs, s'.checksum, rest⟩ kpdpt r lo n (f :: held) new := by
  have hnot : f ∉ frames s'.mem r lo (n - lo) ++ (new ++ held) := h.owned.counted.not_mem_held (by simp [hfree])
  rw [List.mem_append, not_or] at hnot
  have htab : ¬ IsTable s'.mem r f := by
    rintro ⟨p, hp, hw⟩
    exact hnot.2 (h.tables p f hp hw)
  have hsame := tables_setPage htab (fun _ => 0)
  have hentry := entry_setPage htab (fun _ => 0)
  have hframes : frames (setPage s'.mem f (fun _ => 0)) r lo (n - lo) = frames s'.mem r lo (n - lo) :=
    frames_congr (fun k _ _ => hentry k)
  have hperm : (f :: (frames s'.mem r lo (n - lo) ++ (new ++ held))).Perm
      (frames s'.mem r lo (n - lo) ++ (new ++ f :: held)) := by
    rw [List.perm_iff_count]
    intro g
    simp only [List.count_append, List.count_cons]
    omega
  constructor
  case shape => exact h.shape.congr (fun p t hp hw => hsame t ⟨p, hp, hw⟩)
  case tables =>
    intro p t hp hw
    have hw' : walk s'.mem r p = some t := (walk_tables hsame (by omega)).symm.trans hw
    have hin := h.tables p t hp hw'
    simp only [List.mem_append, List.mem_cons] at hin ⊢
    tauto
  case owned =>
    show Owned Managed _ (frames (setPage s'.mem f fun _ => 0) r lo (n - lo) ++ (new ++ f :: held))
    rw [hframes]
    exact (hown.perm hperm).congr rfl rfl
  case nodup =>
    show (frames (setPage s'.mem f fun _ => 0) r lo (n - lo)).Nodup
    rw [hframes]
    exact h.nodup
  case apart =>
    show ∀ g ∈ frames (setPage s'.mem f fun _ => 0) r lo (n - lo), g ∉ new ++ f :: held
    rw [hframes]
    intro g hg
    have hgf : g ≠ f := by
      rintro rfl
      exact hnot.1 hg
    have hin := h.apart g hg
    simp only [List.mem_append, List.mem_cons] at hin ⊢
    tauto
  case fresh =>
    intro k h₁ h₂
    obtain ⟨f', hmem, hf', he, -, hz⟩ := h.mem_frames h₁ h₂
    have hne : f' ≠ f := by
      rintro rfl
      exact hnot.1 hmem
    exact ⟨f', hf', h.owned.of_held (List.mem_append_left _ hmem), (hentry k).trans he,
      (setPage_other hne _).trans hz⟩
  case made =>
    intro t ht
    obtain ⟨hfr, p, hp, hw⟩ := h.made t ht
    exact ⟨hfr, p, hp, (walk_tables hsame (by omega)).trans hw⟩
  case free =>
    intro g hg
    exact h.free g (by rw [hfree]; exact List.mem_cons_of_mem f hg)

/-- Neither tables that are made nor an entry from page `n` on disturb what has been reached. -/
theorem Growing.widen {map : Nat → Word} (h : Growing s s' kpdpt r lo n held new)
    (hb : Booked s₁ kpdpt r (new' ++ (frames s'.mem r lo (n - lo) ++ (new ++ held)))) (hn : n ≤ 2 ^ 36)
    (hw : Widened s' s₁ r map new') (hmap : ∀ k < n, map k = entry s'.mem r k) :
    Growing s s₁ kpdpt r lo n held (new' ++ new) := by
  have hentry (k : Nat) (hk : k < n) : entry s₁.mem r k = entry s'.mem r k :=
    (hw.entries k (by omega)).trans (hmap k hk)
  have hframes : frames s₁.mem r lo (n - lo) = frames s'.mem r lo (n - lo) :=
    frames_congr (fun k h₁ h₂ => hentry k (by omega))
  have htaken (f : Nat) (hf : f ∈ new') : f ∉ frames s'.mem r lo (n - lo) ++ (new ++ held) :=
    h.owned.counted.not_mem_held (hw.taken hf)
  have hnotTable (f : Nat) (hf : f ∈ frames s'.mem r lo (n - lo)) : ¬ IsTable s'.mem r f := by
    rintro ⟨p, hp, hwp⟩
    exact h.apart f hf (h.tables p f hp hwp)
  have hperm : (new' ++ (frames s'.mem r lo (n - lo) ++ (new ++ held))).Perm
      (frames s'.mem r lo (n - lo) ++ ((new' ++ new) ++ held)) := by
    rw [List.perm_iff_count]
    intro g
    simp only [List.count_append]
    omega
  constructor
  case shape => exact hb.shape
  case tables =>
    intro p t hp hwp
    rw [List.append_assoc]
    rcases hw.tables t ⟨p, hp, hwp⟩ with ⟨q, hq, hwq⟩ | ht
    · exact List.mem_append_right _ (h.tables q t hq hwq)
    · exact List.mem_append_left _ ht
  case owned =>
    rw [hframes]
    exact hb.owned.perm hperm
  case nodup =>
    rw [hframes]
    exact h.nodup
  case apart =>
    rw [hframes]
    intro g hg hin
    rw [List.append_assoc] at hin
    rcases List.mem_append.mp hin with hin | hin
    · exact htaken g hin (List.mem_append_left _ hg)
    · exact h.apart g hg hin
  case fresh =>
    intro k h₁ h₂
    obtain ⟨f, hmem, hf, he, -, hz⟩ := h.mem_frames h₁ h₂
    have hnew : f ∉ new' := fun hin => htaken f hin (List.mem_append_left _ hmem)
    exact ⟨f, hf, h.owned.of_held (List.mem_append_left _ hmem), (hentry k h₂).trans he,
      (hw.contents f hnew (hnotTable f hmem)).trans hz⟩
  case made =>
    intro t ht
    rcases List.mem_append.mp ht with ht | ht
    · exact ⟨h.free t (hw.taken ht), hw.made t ht⟩
    · exact ⟨(h.made t ht).1, hw.mono t (h.made t ht).2⟩
  case free =>
    intro g hg
    refine h.free g ?_
    rw [hw.free]
    exact List.mem_append_right _ hg

/-- Page `n` now refers to the frame that was held for it. -/
theorem Growing.next (h : Growing s s' kpdpt r lo n (f :: held) new) (hlo : lo ≤ n) (hfree : f ∈ s.freelist)
    (hnot : f ∉ new ++ held) (htab : ¬ IsTable s'.mem r f) (he : entry s'.mem r n = freshEntry f)
    (hz : s'.mem f = fun _ => 0) : Growing s s' kpdpt r lo (n + 1) held new := by
  have hman : Managed f := h.owned.of_held (by simp)
  have hframes : frames s'.mem r lo (n + 1 - lo) = frames s'.mem r lo (n - lo) ++ [f] := by
    rw [show n + 1 - lo = n - lo + 1 by omega, frames_snoc, show lo + (n - lo) = n by omega, he,
      child_freshEntry hman]
    rfl
  have hperm : (frames s'.mem r lo (n - lo) ++ (new ++ f :: held)).Perm
      (frames s'.mem r lo (n - lo) ++ [f] ++ (new ++ held)) := by
    rw [List.perm_iff_count]
    intro g
    simp only [List.count_append, List.count_cons, List.count_nil]
    omega
  constructor
  case shape => exact h.shape
  case tables =>
    intro p t hp hw
    have hne : t ≠ f := by
      rintro rfl
      exact htab ⟨p, hp, hw⟩
    have hin := h.tables p t hp hw
    simp only [List.mem_append, List.mem_cons] at hin ⊢
    tauto
  case owned =>
    rw [hframes]
    exact h.owned.perm hperm
  case nodup =>
    rw [hframes]
    refine List.nodup_append.mpr ⟨h.nodup, List.nodup_singleton f, ?_⟩
    rintro g hg _ (- | ⟨_, ⟨⟩⟩) rfl
    exact h.apart g hg (by simp)
  case apart =>
    rw [hframes]
    intro g hg hin
    rcases List.mem_append.mp hg with hg | hg
    · have hout := h.apart g hg
      simp only [List.mem_append, List.mem_cons] at hin hout
      tauto
    · rw [List.mem_singleton.mp hg] at hin
      exact hnot hin
  case fresh =>
    intro k h₁ h₂
    rcases Nat.lt_or_ge k n with hk | hk
    · exact h.fresh k h₁ hk
    · obtain rfl : k = n := by omega
      exact ⟨f, hfree, hman, he, hz⟩
  case made => exact h.made
  case free => exact h.free

/-- `mappages` at page `n` either made only tables or took the loop one page further. -/
theorem Growing.mapped {x : State × Int} (h : Growing s s' kpdpt r lo n (f :: held) new)
    (hsame : SameOutside s s' r lo n) (hfree : f ∈ s.freelist) (hnot : f ∉ new ++ held)
    (htab : ¬ IsTable s'.mem r f)
    (hz : s'.mem f = fun _ => 0) (hlo : lo ≤ n) (hn : n < 2 ^ 35)
    (hmap : Mapping m s' x kpdpt r (frames s'.mem r lo (n - lo) ++ (new ++ f :: held)) a n (freshEntry f) new') :
    (x.2 = -1 ∧ Growing s x.1 kpdpt r lo n (f :: held) (new' ++ new) ∧ SameOutside s x.1 r lo n ∧
      f ∉ new' ++ new ++ held ∧ ¬ IsTable x.1.mem r f) ∨
    (x.2 = 0 ∧ Growing s x.1 kpdpt r lo (n + 1) held (new' ++ new) ∧ SameOutside s x.1 r lo (n + 1)) := by
  have hnew {map : Nat → Word} (hw : Widened s' x.1 r map new') : f ∉ new' := by
    intro hin
    exact h.owned.counted.not_mem_held (hw.taken hin) (by simp)
  have hout {map : Nat → Word} (hw : Widened s' x.1 r map new') : f ∉ new' ++ new ++ held := by
    rw [List.append_assoc, List.mem_append, not_or]
    exact ⟨hnew hw, hnot⟩
  have htab' {map : Nat → Word} (hw : Widened s' x.1 r map new') : ¬ IsTable x.1.mem r f := by
    intro ht
    rcases hw.tables f ht with ht | ht
    · exact htab ht
    · exact hnew hw ht
  obtain ⟨hx, -, -, -, hw⟩ | ⟨hx, -, -, hw⟩ := hmap.ends
  · refine .inl ⟨hx, h.widen hmap.booked (by omega) hw (fun _ _ => rfl), ?_, hout hw, htab' hw⟩
    exact fun k hk hk' => (hw.entries k hk).trans (hsame k hk hk')
  · have hgrow := h.widen hmap.booked (by omega) hw (fun k hk => update_of_ne (by omega) _ _)
    have he : entry x.1.mem r n = freshEntry f := (hw.entries n (by omega)).trans (update_self ..)
    refine .inr ⟨hx, hgrow.next hlo hfree (hout hw) (htab' hw) he ((hw.contents f (hnew hw) htab).trans hz), ?_⟩
    intro k hk hk'
    rw [hw.entries k hk, update_of_ne (by omega)]
    exact hsame k hk (by omega)

def mapping (mem : Mem) (r n : Nat) : Option Word :=
  if has (entry mem r n) pteP then some (entry mem r n) else none

theorem mapping_congr {mem' : Mem} (h : entry mem' r n = entry mem r n) :
    mapping mem' r n = mapping mem r n := by
  rw [mapping, mapping, h]

theorem mapping_eq_none : mapping mem r n = none ↔ has (entry mem r n) pteP = false := by
  rw [mapping]
  cases has (entry mem r n) pteP <;> simp

theorem child_eq_none_of_has {e : Word} (h : has e pteP = false) : child e = none := by
  rw [child, h]
  rfl

/-- Every page below the kernel is mapped as it was, with as many references to its frame, and the
frames that are not free any more are tables. -/
structure Undone (s s' : State) (r : Nat) : Prop where
  mapping : ∀ n < 2 ^ 35, mapping s'.mem r n = mapping s.mem r n
  refs : ∀ n < 2 ^ 35, ∀ f, child (entry s.mem r n) = some f → s'.refs f = s.refs f
  free : ∀ f ∈ s.freelist, f ∈ s'.freelist ∨ IsTable s'.mem r f

def LeavesIn (s : State) (r : Nat) (held : List Nat) : Prop :=
  ∀ n < 2 ^ 35, ∀ f, child (entry s.mem r n) = some f → f ∈ held

theorem undone_of_books {s₂ : State} (hown : Owned Managed s held) (hleaf : LeavesIn s r held)
    (hown' : Owned Managed s₂ (new ++ held)) (hmade : ∀ t ∈ new, t ∈ s.freelist ∧ IsTable s₂.mem r t)
    (hmap : ∀ n < 2 ^ 35, mapping s₂.mem r n = mapping s.mem r n) : Undone s s₂ r := by
  have hdisj (f : Nat) (hf : f ∈ s.freelist) : f ∉ held := hown.counted.not_mem_held hf
  refine ⟨hmap, ?_, ?_⟩
  · intro n hn f hc
    have hin := hleaf n hn f hc
    have hnew : new.count f = 0 := List.count_eq_zero.mpr (fun hf => hdisj f (hmade f hf).1 hin)
    rw [hown'.counted.count f (List.mem_append_right _ hin), hown.counted.count f hin,
      List.count_append, hnew, Nat.zero_add]
  · intro f hf
    by_cases hnew : f ∈ new
    · exact .inr (hmade f hnew).2
    · refine .inl ((hown'.counted.mem_free f).mpr ⟨((hown.counted.mem_free f).mp hf).1, ?_⟩)
      simp [hnew, hdisj f hf]

theorem frames_of_none {j : Nat} (hk : k ≤ j)
    (h : ∀ n, lo + k ≤ n → n < lo + j → child (entry mem r n) = none) : frames mem r lo j = frames mem r lo k := by
  induction j, hk using Nat.le_induction with
  | base => rfl
  | succ j hk ih =>
    rw [frames_snoc, ih (fun n h₁ h₂ => h n h₁ (by omega)), h (lo + j) (by omega) (by omega)]
    simp

/-- Up to the kernel, the pages of the range are those that were added. -/
theorem SameOutside.frames_eq (hsame : SameOutside s s' r lo n) (hlo : lo ≤ n)
    (hn : n ≤ hi) (hhi : hi ≤ 2 ^ 35) (hnone : ∀ k, lo ≤ k → k < 2 ^ 35 → has (entry s.mem r k) pteP = false) :
    frames s'.mem r lo (hi - lo) = frames s'.mem r lo (n - lo) := by
  refine frames_of_none (by omega) (fun k h₁ h₂ => ?_)
  rw [hsame k (by omega) (by omega)]
  exact child_eq_none_of_has (hnone k (by omega) (by omega))

/-- The rollback clears the pages that were added, and the tables stay. -/
theorem Growing.undo (hfull : m.Full) (h : Growing s s' kpdpt r (pages oldsz) n held new)
    (hsame : SameOutside s s' r (pages oldsz) n) (hlo : pages oldsz ≤ n) (hn : n ≤ pages newsz)
    (hhi : pages newsz ≤ 2 ^ 35)
    (hnone : ∀ k, pages oldsz ≤ k → k < 2 ^ 35 → has (entry s.mem r k) pteP = false) :
    ∃ s₂ v, deallocuvm m s' (kva r) newsz oldsz = .ok (s₂, v) ∧ Booked s₂ kpdpt r (new ++ held) ∧
      (∀ t, IsTable s₂.mem r t ↔ IsTable s'.mem r t) ∧ ∀ k < 2 ^ 35, mapping s₂.mem r k = mapping s.mem r k := by
  have hframes := hsame.frames_eq hlo hn hhi hnone
  obtain ⟨s₂, hrun, hb, hclear⟩ := deallocuvm_booked hfull h.shape h.tables (hframes ▸ h.owned) hhi
  refine ⟨s₂, _, hrun, hb, ?_, ?_⟩
  · intro t
    constructor
    · rintro ⟨p, hp, hw⟩
      exact ⟨p, hp, (hclear.walk_eq p hp).symm.trans hw⟩
    · rintro ⟨p, hp, hw⟩
      exact ⟨p, hp, (hclear.walk_eq p hp).trans hw⟩
  · intro k hk
    by_cases hin : pages oldsz ≤ k ∧ k < n
    · obtain ⟨f, -, -, -, hc, -⟩ := h.mem_frames hin.1 hin.2
      have he : entry s₂.mem r k = 0 := by
        rw [hclear.entries k (by omega), if_pos ⟨hin.1, by omega, by simp [hc]⟩]
      rw [mapping_eq_none.mpr (hnone k hin.1 hk), mapping_eq_none, he]
      rfl
    · have hold := hsame k (by omega) (by omega)
      refine mapping_congr ?_
      rw [hclear.entries k (by omega), hold]
      refine if_neg ?_
      rintro ⟨h₁, -, h₂⟩
      exact h₂ (child_eq_none_of_has (hnone k h₁ hk))

/-- `allocuvm` has returned `v` with the memory grown up to `newsz`, or 0 with nothing changed but
tables. -/
def AllOrNothing (s s' : State) (kpdpt r : Nat) (held : List Nat) (oldsz newsz v : Word) : Prop :=
  (v = newsz ∧ ∃ new, Growing s s' kpdpt r (pages oldsz) (pages newsz) held new ∧
    SameOutside s s' r (pages oldsz) (pages newsz)) ∨
  (v = 0 ∧ 0 < newsz.toNat ∧ s.freelist.length < 4 * (pages newsz - pages oldsz) ∧ Undone s s' r)

theorem not_exhausted (hm : m.oom = .null) (e : Trap) : ¬ Exhausted m e := by
  rintro (⟨h, -⟩ | ⟨h, -⟩) <;> simp [h] at hm

/-- A failing turn gives the frame of its page back after the rollback. -/
theorem Growing.fail (hfull : m.Full) (h : Growing s s' kpdpt r (pages oldsz) n (f :: held) new)
    (hsame : SameOutside s s' r (pages oldsz) n) (hown : Owned Managed s held) (hleaf : LeavesIn s r held)
    (hnot : f ∉ new ++ held) (htab : ¬ IsTable s'.mem r f)
    (hlo : pages oldsz ≤ n) (hn : n ≤ pages newsz) (hhi : pages newsz ≤ 2 ^ 35)
    (hnone : ∀ k, pages oldsz ≤ k → k < 2 ^ 35 → has (entry s.mem r k) pteP = false) :
    ∃ s₂ v s₃, deallocuvm m s' (kva r) newsz oldsz = .ok (s₂, v) ∧ krelease m s₂ (kva f) = .ok s₃ ∧
      Undone s s₃ r := by
  obtain ⟨s₂, v, hrun, hb, htabs, hmap⟩ := h.undo hfull hsame hlo hn hhi hnone
  obtain ⟨s₃, hrel, hown₃, hmem, -, -⟩ := krelease_kva hfull (hb.owned.perm List.perm_middle)
  have hkept : ∀ t, IsTable s₂.mem r t → s₃.mem t = s₂.mem t := by
    intro t ht
    refine hmem t (.inl ?_)
    rintro rfl
    exact htab ((htabs t).mp ht)
  refine ⟨s₂, v, s₃, hrun, hrel, undone_of_books hown hleaf hown₃ ?_ ?_⟩
  · intro t ht
    obtain ⟨hfree, htable⟩ := h.made t ht
    obtain ⟨p, hp, hw⟩ := (htabs t).mpr htable
    exact ⟨hfree, p, hp, (walk_tables hkept (by omega)).trans hw⟩
  · intro k hk
    exact (mapping_congr (pte_tables hkept rfl)).trans (hmap k hk)

/-- One turn of the loop: no frame is left for the page, or it is taken and cleared, and then
`mappages` returns with the page mapped or with tables only. -/
theorem Growing.turn (hfull : m.Full) (hm : m.oom = .null)
    (hnone : ∀ k, lo ≤ k → k < 2 ^ 35 → has (entry s.mem r k) pteP = false)
    (h : Growing s s' kpdpt r lo n held new) (hsame : SameOutside s s' r lo n)
    (ha : a.toNat = n * 4096) (hlo : lo ≤ n)
    (hn : n < 2 ^ 35) :
    (kalloc m s' = .ok (s', 0) ∧ s'.freelist = []) ∨
    ∃ f s₁ s₂ x, kalloc m s' = .ok (s₁, kva f) ∧ Managed f ∧ memset m s₁ (kva f) 0 = .ok s₂ ∧
      mappages m s₂ (kva r) a 0x1000 (v2p (kva f)) (pteW ||| pteU) = .ok x ∧
      (s'.freelist.length ≤ x.1.freelist.length + 4 ∧ (x.2 = -1 → s'.freelist.length < 4)) ∧
      (∀ k < n, entry x.1.mem r k = entry s'.mem r k) ∧ ∃ new',
        (x.2 = -1 ∧ Growing s x.1 kpdpt r lo n (f :: held) new' ∧ SameOutside s x.1 r lo n ∧ f ∉ new' ++ held ∧
          ¬ IsTable x.1.mem r f) ∨
        (x.2 = 0 ∧ Growing s x.1 kpdpt r lo (n + 1) held new' ∧ SameOutside s x.1 r lo (n + 1) ∧
          entry x.1.mem r n = freshEntry f) := by
  obtain ⟨x, hk, ⟨rfl, -, hnil⟩ | ⟨f, rest, hfree, hman, hnot, rfl, hown'⟩⟩ :=
    (kalloc_any m h.owned).returns (fun e he => not_exhausted hm e he.1)
  · exact .inl ⟨hk, hnil⟩
  have hsfree : f ∈ s.freelist := h.free f (by simp [hfree])
  have hnot' : f ∉ new ++ held := fun hin => hnot (List.mem_append_right _ hin)
  have htake := h.take hfree _ hown'
  have htab' : ¬ IsTable s'.mem r f := by
    rintro ⟨p, hp, hw⟩
    exact hnot' (h.tables p f hp hw)
  have htab : ¬ IsTable (setPage s'.mem f fun _ => 0) r f := by
    rintro ⟨p, hp, hw⟩
    exact htab' ⟨p, hp, (walk_tables (tables_setPage htab' _) (by omega)).symm.trans hw⟩
  have hsame' : SameOutside s ⟨setPage s'.mem f fun _ => 0, update s'.refs f 1, s'.checksum, rest⟩ r lo n :=
    fun k hk hout => (entry_setPage htab' _ k).trans (hsame k hk hout)
  have habsent := hnone n hlo hn
  rw [← hsame' n (by omega) (.inr (Nat.le_refl n))] at habsent
  have hz : setPage s'.mem f (fun _ => 0) f = fun _ => 0 := setPage_same ..
  obtain ⟨x, hmaps, new', hmap⟩ :=
    (mappages_booked hfull htake.booked ha hn (frameAddr f) (pteW ||| pteU)).returns (by
      rintro e (⟨hex, -⟩ | ⟨-, hpres⟩)
      · exact not_exhausted hm e hex
      · exact Bool.noConfusion (habsent.symm.trans hpres))
  have hbelow (k : Nat) (hk : k < n) : entry x.1.mem r k = entry s'.mem r k := by
    obtain ⟨-, -, -, -, hw⟩ | ⟨-, -, -, hw⟩ := hmap.ends
    · exact (hw.entries k (by omega)).trans (entry_setPage htab' _ k)
    · rw [hw.entries k (by omega), update_of_ne (by omega)]
      exact entry_setPage htab' _ k
  have htaken : s'.freelist.length ≤ x.1.freelist.length + 4 ∧ (x.2 = -1 → s'.freelist.length < 4) := by
    have hle := missing_le (setPage s'.mem f fun _ => 0) r a
    rw [hfree, List.length_cons]
    obtain ⟨-, -, hshort, -⟩ | ⟨hv, -, hlen, hw⟩ := hmap.ends
    · dsimp only at hshort
      omega
    · have hsplit := congrArg List.length hw.free
      rw [List.length_append, List.length_reverse] at hsplit
      dsimp only at hsplit hlen
      omega
  refine .inr ⟨f, _, _, x, hk, hman, memset_kva hman.small (hman.ram hfull) 0,
    (v2p_kva f).symm ▸ hmaps, htaken, hbelow, new' ++ new, ?_⟩
  refine (htake.mapped hsame' hsfree hnot' htab hz hlo hn hmap).imp id ?_
  rintro ⟨hv, hgrow, hsame₁⟩
  refine ⟨hv, hgrow, hsame₁, ?_⟩
  obtain ⟨hv', -⟩ | ⟨-, -, -, hw⟩ := hmap.ends
  · rw [hv] at hv'
    cases hv'
  · rw [hw.entries n (by omega), update_self]
    rfl

theorem allocLoop_all (hfull : m.Full) (hm : m.oom = .null) (hown : Owned Managed s held)
    (hleaf : LeavesIn s r held)
    (hhi : pages newsz ≤ 2 ^ 35) (hnone : ∀ k, pages oldsz ≤ k → k < 2 ^ 35 → has (entry s.mem r k) pteP = false)
    (j : Nat) (h : Growing s s' kpdpt r (pages oldsz) n held new) (hsame : SameOutside s s' r (pages oldsz) n)
    (hlen : s.freelist.length ≤ s'.freelist.length + 4 * (n - pages oldsz))
    (ha : a.toNat = n * 4096) (hlo : pages oldsz ≤ n) (hj : n + j = pages newsz) :
    Ends (allocLoop m (kva r) oldsz newsz j s' a) (fun _ => False)
      (fun x => AllOrNothing s x.1 kpdpt r held oldsz newsz x.2) := by
  induction j generalizing s' n new a with
  | zero =>
    obtain rfl : n = pages newsz := hj
    exact .inl ⟨rfl, new, h, hsame⟩
  | succ j ih =>
    have hpos : 0 < newsz.toNat := by
      rw [pages] at hj
      omega
    rw [allocLoop]
    obtain ⟨hk, hnil⟩ | ⟨f, s₁, s₂, ⟨s₃, v⟩, hk, hman, hset, hmaps, ⟨htaken, hfew⟩, -, new', hend⟩ :=
      h.turn hfull hm hnone hsame ha hlo (by omega)
    · rw [hnil, List.length_nil] at hlen
      obtain ⟨s₂, v, hrun, hb, htabs, hmap⟩ := h.undo hfull hsame hlo (by omega) hhi hnone
      rw [hk, ok_bind]
      simp only [↓reduceIte, hrun]
      have hmade (t : Nat) (ht : t ∈ new) : t ∈ s.freelist ∧ IsTable s₂.mem r t :=
        ⟨(h.made t ht).1, (htabs t).mpr (h.made t ht).2⟩
      exact .inr ⟨rfl, hpos, by omega, undone_of_books hown hleaf hb.owned hmade hmap⟩
    · rw [hk, ok_bind]
      dsimp only
      rw [if_neg (kva_ne_zero hman.small), hset, ok_bind, hmaps, ok_bind]
      dsimp only at htaken hend ⊢
      obtain ⟨rfl, hgrow, hsame₁, hnot₁, htab₁⟩ | ⟨rfl, hgrow, hsame₁, -⟩ := hend
      · obtain ⟨s₄, v, s₅, hrun, hrel, hundone⟩ :=
          hgrow.fail hfull hsame₁ hown hleaf hnot₁ htab₁ hlo (by omega) hhi hnone
        rw [if_pos (by decide), hrun, ok_bind]
        dsimp only
        rw [hrel]
        have := hfew rfl
        exact .inr ⟨rfl, hpos, by omega, hundone⟩
      · rw [if_neg (by decide)]
        exact ih hgrow hsame₁ (by omega) (next_page ha (by omega)) (by omega) (by omega)

/-- The pages from `lo` to `hi` are mapped, each to its own frame, free before and now zero, and no
other page has changed. -/
structure Grew (s s' : State) (r lo hi : Nat) : Prop where
  fresh : ∀ n, lo ≤ n → n < hi → ∃ f ∈ s.freelist, mapping s'.mem r n = some (freshEntry f) ∧
    s'.mem f = (fun _ => 0) ∧
    ¬ IsTable s'.mem r f
  own : ∀ n n', lo ≤ n → n < n' → n' < hi → mapping s'.mem r n ≠ mapping s'.mem r n'
  others : ∀ n < 2 ^ 35, n < lo ∨ hi ≤ n → mapping s'.mem r n = mapping s.mem r n

theorem has_fresh : has (freshEntry f) pteP = true := by
  rw [has_freshEntry (isFlags_of_lt (by decide))]
  decide

theorem Growing.grew (h : Growing s s' kpdpt r lo hi held new) (hsame : SameOutside s s' r lo hi) :
    Grew s s' r lo hi := by
  have hmap (n : Nat) (h₁ : lo ≤ n) (h₂ : n < hi) : mapping s'.mem r n = some (entry s'.mem r n) := by
    obtain ⟨f, -, -, he, -, -⟩ := h.mem_frames h₁ h₂
    rw [mapping, he, if_pos has_fresh]
  constructor
  case fresh =>
    intro n h₁ h₂
    obtain ⟨f, hmem, hfree, he, -, hz⟩ := h.mem_frames h₁ h₂
    refine ⟨f, hfree, (hmap n h₁ h₂).trans (congrArg some he), hz, ?_⟩
    rintro ⟨p, hp, hw⟩
    exact h.apart f hmem (h.tables p f hp hw)
  case own =>
    intro n n' h₁ h₂ h₃ heq
    rw [hmap n h₁ (by omega), hmap n' (by omega) h₃, Option.some.injEq] at heq
    obtain ⟨f, -, -, -, hc, -⟩ := h.mem_frames h₁ (by omega : n < hi)
    have hpair := List.pairwise_iff_getElem.mp (List.pairwise_filterMap.mp h.nodup) (n - lo) (n' - lo)
      (by rw [List.length_range']; omega) (by rw [List.length_range']; omega) (by omega)
    simp only [List.getElem_range', Nat.one_mul, show lo + (n - lo) = n by omega,
      show lo + (n' - lo) = n' by omega] at hpair
    exact hpair f hc f (heq ▸ hc) rfl
  case others => exact fun n hn hout => mapping_congr (hsame n (by omega) hout)

/-- `allocuvm` maps every page it was asked for, and `deallocuvm` undoes it, or it maps none, which
it does only with less than four frames left for each page. -/
theorem allocuvm_all_or_nothing (hfull : m.Full) (hm : m.oom = .null) (h : Booked s kpdpt r held)
    (hleaf : LeavesIn s r held)
    (hle : oldsz.toNat ≤ newsz.toNat) (hmax : newsz.toNat ≤ 2 ^ 47)
    (hnone : ∀ n, pages oldsz ≤ n → n < 2 ^ 35 → mapping s.mem r n = none) :
    ∃ s' v, allocuvm m s (kva r) oldsz newsz = .ok (s', v) ∧
      ((v = newsz ∧ Grew s s' r (pages oldsz) (pages newsz) ∧
        ∃ s₂ v₂, deallocuvm m s' (kva r) newsz oldsz = .ok (s₂, v₂) ∧ Undone s s₂ r ∧
          ∀ n, pages oldsz ≤ n → n < pages newsz → ∀ f, child (entry s'.mem r n) = some f → f ∈ s₂.freelist) ∨
      (v = 0 ∧ 0 < newsz.toNat ∧ s.freelist.length < 4 * (pages newsz - pages oldsz) ∧ Undone s s' r)) := by
  have hhi : pages newsz ≤ 2 ^ 35 := by
    rw [pages]
    omega
  have habsent (k : Nat) (h₁ : pages oldsz ≤ k) (h₂ : k < 2 ^ 35) : has (entry s.mem r k) pteP = false :=
    mapping_eq_none.mp (hnone k h₁ h₂)
  have hkern : kernBase.toNat = 0xFFFF800000000000 := rfl
  have hmono := pages_mono hle
  obtain ⟨⟨s', v⟩, hrun, hend⟩ := (allocLoop_all hfull hm h.owned hleaf hhi habsent (pages newsz - pages oldsz)
    (growing_start h (pages oldsz)) (fun _ _ _ => rfl) (by omega) (pgRoundUp_page (by omega))
      (Nat.le_refl _) (by omega)).returns
    (fun _ he => he)
  refine ⟨s', v, ?_, ?_⟩
  · rw [allocuvm, if_neg (by omega), if_neg (by omega)]
    simp only
    rw [pageCount_pages (by omega)]
    exact hrun
  obtain ⟨hv, new, hgrow, hsame⟩ | hundone := hend
  · obtain ⟨s₂, v₂, hrun₂, hb, htabs, hmap⟩ := hgrow.undo hfull hsame hmono (Nat.le_refl _) hhi habsent
    have hundone : Undone s s₂ r := undone_of_books h.owned hleaf hb.owned
      (fun t ht => ⟨(hgrow.made t ht).1, (htabs t).mpr (hgrow.made t ht).2⟩) hmap
    have hgrew := hgrow.grew hsame
    refine .inl ⟨hv, hgrew, s₂, v₂, hrun₂, hundone, ?_⟩
    intro n h₁ h₂ f hc
    obtain ⟨f', hmem, hfree, -, hc', -⟩ := hgrow.mem_frames h₁ h₂
    obtain rfl : f' = f := Option.some.inj (hc'.symm.trans hc)
    refine (hundone.free f' hfree).resolve_right ?_
    intro ht
    obtain ⟨p, hp, hw⟩ := (htabs f').mp ht
    exact hgrow.apart f' hmem (hgrow.tables p f' hp hw)
  · exact .inr hundone

/-- A table without a page, as `setupkvm` leaves it. -/
theorem exists_booked_empty : ∃ s r held, Booked s 0x1fb r held ∧ (∀ n, entry s.mem r n = 0) ∧
    8 ≤ s.freelist.length := by
  obtain ⟨⟨s, p⟩, -, r, -, -, hspace, hmade⟩ :=
    (@setupkvm_space pc bare 0x1fb [0x1fb] pc_oom pc_full bare_owned).returns (by
      rintro e ⟨-, hnil⟩
      have := congrArg List.length hnil
      simp [bare] at this)
  refine ⟨s, r, treeRefs s.mem r ++ r :: [0x1fb], ⟨hspace.tree.shape, hspace.owned, ?_⟩, hmade.entry_eq, ?_⟩
  · intro p t hp hw
    have hin := hspace.tree.table_mem ⟨p, hp, hw⟩
    simp only [List.mem_cons, List.mem_append] at hin ⊢
    tauto
  · have hlen := congrArg List.length hmade.free
    rw [bare, List.length_range', List.length_cons] at hlen
    dsimp only at hlen
    omega

/-- Two pages for a table without a page, and back. -/
theorem allocuvm_first_pages : ∃ s r s', allocuvm ⟨directMap, .null⟩ s (kva r) 0 0x2000 = .ok (s', 0x2000) ∧
    Grew s s' r 0 2 ∧ ∃ s₂ v, deallocuvm ⟨directMap, .null⟩ s' (kva r) 0x2000 0 = .ok (s₂, v) ∧ Undone s s₂ r := by
  obtain ⟨s, r, held, hb, hzero, hfree⟩ := exists_booked_empty
  have hchild (n : Nat) : child (entry s.mem r n) = none := by
    rw [hzero]
    rfl
  obtain ⟨s', v, hrun, ⟨rfl, hgrew, s₂, v₂, hback, hundone, -⟩ | ⟨-, -, hfew, -⟩⟩ :=
    @allocuvm_all_or_nothing ⟨directMap, .null⟩ s 0x1fb r 0 0x2000 held pc_full rfl hb
      (fun n _ f hc => by simp [hchild] at hc) (by decide) (by decide)
      (fun n _ _ => mapping_eq_none.mpr (by rw [hzero]; rfl))
  · exact ⟨s, r, s', hrun, hgrew, s₂, v₂, hback, hundone⟩
  · rw [show pages (0x2000 : Word) - pages 0 = 2 from rfl] at hfew
    omega

end Xv6.AllocUvm
