import Xv6.AllocUvm
import Xv6.CopyUvm

/-!
# When memory runs out in `copyuvm`

The copy is built page by page, and `cost n` is the exact number of frames that its first `n` pages
need with the tables above them. Running out on a data page, the code frees all it has built;
running out on a table, it has a frame in hand that the new table does not refer to yet, and
`freevm` cannot find it.
-/
namespace Xv6.CopyFail

open Words Mmu Memory Kalloc Vm Outcome RadixTree PageTable TableGrowth AddressSpace PageNumber
open UserPages FreeVm AnyTable AllocUvm PageWalk

variable {s₁ : State} {t : Nat} {p hand : List Nat}

variable {m : Machine} {s₀ s s' : State} {mem : Mem} {kpdpt r pr d f g n k : Nat} {a e : Word}
  {held rest new : List Nat}

/-- The frames for the pages from 1 to `n` and the tables above them. -/
def cost (n : Nat) : Nat := if n = 0 then 0 else n + (n / 2 ^ 9 + 1) + (n / 2 ^ 18 + 1) + (n / 2 ^ 27 + 1)

theorem cost_lt (n : Nat) : cost n < cost (n + 1) := by
  simp only [cost, Nat.succ_ne_zero, if_false]
  split <;> omega

theorem cost_strictMono : StrictMono cost := strictMono_nat_of_lt_succ cost_lt

def TablesUpTo (mem : Mem) (d n : Nat) : Prop :=
  ∀ p, p ≠ [] → p.length < 4 → (walk mem d p ≠ none ↔ ∃ k, 1 ≤ k ∧ k ≤ n ∧ p = (pagePath k).take p.length)

/-- A table above page `n + 1` is there if it is above page `n`. -/
theorem TablesUpTo.absent_next (h : TablesUpTo mem d n) (hp : p ≠ []) (hlen : p.length < 4) (q : Nat)
    (hq : ∀ k ≤ n, p = (pagePath k).take p.length ↔ k / q = (n + 1) / q) :
    absent mem d p = if 1 ≤ n ∧ n / q = (n + 1) / q then 0 else 1 := by
  have hiff : walk mem d p ≠ none ↔ 1 ≤ n ∧ n / q = (n + 1) / q := by
    rw [h p hp hlen]
    constructor
    · rintro ⟨k, h₁, h₂, h₃⟩
      have hk := (hq k h₂).mp h₃
      refine ⟨by omega, Nat.le_antisymm (Nat.div_le_div_right (by omega)) ?_⟩
      rw [← hk]
      exact Nat.div_le_div_right h₂
    · rintro ⟨h₁, h₂⟩
      exact ⟨n, h₁, Nat.le_refl n, (hq n (Nat.le_refl n)).mpr h₂⟩
  rw [absent]
  by_cases hw : walk mem d p = none
  · rw [if_pos hw, if_neg (fun hn => hiff.mpr hn hw)]
  · rw [if_neg hw, if_pos (hiff.mp hw)]

theorem TablesUpTo.missing_next (h : TablesUpTo mem d n) (ha : a.toNat = (n + 1) * 4096) (hn : n + 1 < 2 ^ 35) :
    cost (n + 1) = cost n + 1 + missing mem d a := by
  have hpath : path a = pagePath (n + 1) := path_of_page ha
  have hpath' : [pmx a, pdpx a, pdx a] = pagePath (n + 1) := hpath
  simp only [pagePath, List.cons.injEq, and_true] at hpath'
  have h₁ := h.absent_next (p := [pmx a]) (by simp) (by simp) (2 ^ 27) (by
    intro k hk
    simp only [List.length_singleton, pagePath, List.take_succ_cons, List.take_zero,
      List.cons.injEq, and_true, hpath'.1]
    omega)
  have h₂ := h.absent_next (p := [pmx a, pdpx a]) (by simp) (by simp) (2 ^ 18) (by
    intro k hk
    simp only [List.length_cons, List.length_nil, pagePath, List.take_succ_cons, List.take_zero,
      List.cons.injEq, and_true,
      hpath'.1, hpath'.2.1]
    omega)
  have h₃ := h.absent_next (p := path a) (by simp [path]) (by simp [path]) (2 ^ 9) (by
    intro k hk
    rw [hpath, pagePath_length, List.take_of_length_le (by simp)]
    simp only [pagePath, List.cons.injEq, and_true]
    omega)
  rw [missing, h₁, h₂, h₃]
  rcases Nat.eq_zero_or_pos n with rfl | hpos
  · decide
  · have hq₁ : (n + 1) / 2 ^ 27 = n / 2 ^ 27 + if 1 ≤ n ∧ n / 2 ^ 27 = (n + 1) / 2 ^ 27 then 0 else 1 := by
      split <;> omega
    have hq₂ : (n + 1) / 2 ^ 18 = n / 2 ^ 18 + if 1 ≤ n ∧ n / 2 ^ 18 = (n + 1) / 2 ^ 18 then 0 else 1 := by
      split <;> omega
    have hq₃ : (n + 1) / 2 ^ 9 = n / 2 ^ 9 + if 1 ≤ n ∧ n / 2 ^ 9 = (n + 1) / 2 ^ 9 then 0 else 1 :=
      by split <;> omega
    rw [cost, cost, if_neg (Nat.succ_ne_zero n), if_neg (by omega)]
    omega

/-- The table at `d` has come to page `n`, with the frames `hand` taken that it does not refer to;
`s₀` is the state before the call and `held` what others hold. -/
structure Copying (s₀ s : State) (kpdpt d n : Nat) (hand held : List Nat) : Prop where
  shape : Shape s.mem kpdpt d
  owned : Owned Managed s (hand ++ (treeRefs s.mem d ++ d :: held))
  sep : ∀ g ∈ hand ++ held, ¬ IsTable s.mem d g
  tables : TablesUpTo s.mem d n
  tablesIn : TablesIn s.mem d (treeRefs s.mem d ++ d :: held)
  pages : ∀ k, 1 ≤ k → k ≤ n → has (entry s.mem d k) pteP = true
  rest : ∀ k, n < k → k < 2 ^ 35 → has (entry s.mem d k) pteP = false
  same : ∀ g ∈ held, s.mem g = s₀.mem g
  free : s₀.freelist.length = s.freelist.length + hand.length + 1 + cost n

theorem Copying.apart (h : Copying s₀ s kpdpt d n hand held) : d ∉ hand ++ held :=
  fun hd => h.sep d hd ⟨[], by simp, walk_nil⟩

/-- A frame is taken and filled. -/
theorem Copying.take {rest : List Nat} (h : Copying s₀ s kpdpt d n [] held) (hfree : s.freelist = f :: rest)
    (hnot : f ∉ treeRefs s.mem d ++ d :: held) (page : Page) (refs : Nat → Int)
    (hown : Owned Managed ⟨s.mem, refs, s.checksum, rest⟩ (f :: (treeRefs s.mem d ++ d :: held))) :
    Copying s₀ ⟨setPage s.mem f page, refs, s.checksum, rest⟩ kpdpt d n [f] held := by
  have htab : ¬ IsTable s.mem d f := by
    rintro ⟨p, hp, hw⟩
    exact hnot (h.tablesIn p f hp hw)
  have hsame := tables_setPage htab page
  have hrefs : treeRefs (setPage s.mem f page) d = treeRefs s.mem d := treeRefs_tables hsame
  constructor
  case shape => exact h.shape.congr (fun p t hp hw => hsame t ⟨p, hp, hw⟩)
  case owned =>
    show Owned Managed _ (f :: (treeRefs (setPage s.mem f page) d ++ d :: held))
    rw [hrefs]
    exact hown.congr rfl rfl
  case sep =>
    rintro g hg ⟨p, hp, hw⟩
    have ht : IsTable s.mem d g := ⟨p, hp, (walk_tables hsame (by omega)).symm.trans hw⟩
    rcases List.mem_append.mp hg with hg | hg
    · exact htab (List.mem_singleton.mp hg ▸ ht)
    · exact h.sep g hg ht
  case tables =>
    intro p hp hlen
    rw [walk_tables hsame (by omega)]
    exact h.tables p hp hlen
  case tablesIn =>
    intro p t hp hw
    show t ∈ treeRefs (setPage s.mem f page) d ++ d :: held
    rw [hrefs]
    exact h.tablesIn p t hp ((walk_tables hsame (by omega)).symm.trans hw)
  case pages =>
    intro k h₁ h₂
    rw [entry_setPage htab]
    exact h.pages k h₁ h₂
  case rest =>
    intro k h₁ h₂
    rw [entry_setPage htab]
    exact h.rest k h₁ h₂
  case same =>
    intro g hg
    refine (setPage_other ?_ page).trans (h.same g hg)
    rintro rfl
    exact hnot (by simp [hg])
  case free =>
    have := h.free
    rw [hfree] at this
    simp only [List.length_cons, List.length_nil] at this ⊢
    omega

/-- What the copy has taken goes back, but for the frames in hand. -/
theorem freevm_hand (hfull : m.Full) (hshape : Shape s.mem kpdpt d)
    (hown : Owned Managed s (hand ++ (treeRefs s.mem d ++ d :: held))) (hapart : d ∉ hand ++ held) :
    ∃ s₂, freevm m s (kva d) = .ok s₂ ∧ Owned Managed s₂ (hand ++ held) ∧ ∀ g ∈ held, s₂.mem g = s.mem g := by
  have hperm : (hand ++ (treeRefs s.mem d ++ d :: held)).Perm (treeRefs s.mem d ++ d :: (hand ++ held)) := by
    rw [List.perm_iff_count]
    intro g
    simp only [List.count_append, List.count_cons]
    omega
  obtain ⟨s₂, hrun, hown₂, hmem⟩ := freevm_books hfull hshape (hown.perm hperm) hapart
  exact ⟨s₂, hrun, hown₂, fun g hg => hmem g (List.mem_append_right _ hg)⟩

/-- The tables that were made for a page are references of the copy. -/
theorem owned_extends (hown : Owned Managed s₁ (new ++ f :: (treeRefs s.mem d ++ d :: held)))
    (hext : Extends True s s₁ d new) : Owned Managed s₁ ([f] ++ (treeRefs s₁.mem d ++ d :: held)) := by
  refine hown.perm ?_
  have hrefs := List.perm_iff_count.mp (hext.refs trivial)
  rw [List.perm_iff_count]
  intro g
  have hg := hrefs g
  simp only [List.count_append, List.count_cons, List.count_nil] at hg ⊢
  omega

section

variable (h : Copying s₀ s kpdpt d n [f] held) (hext : Extends True s s₁ d new)
include h hext

theorem Copying.not_new
    (hg : g ∈ [f] ++ held) : g ∉ new := by
  intro hin
  refine h.owned.counted.not_mem_held (a := g) (by simp [hext.free, hin]) ?_
  simp only [List.mem_append, List.mem_cons] at hg ⊢
  tauto

theorem Copying.same_extends : ∀ g ∈ held, s₁.mem g = s₀.mem g := by
  intro g hg
  have hmem : g ∈ [f] ++ held := List.mem_append_right _ hg
  rw [hext.frame g (h.not_new hext hmem) (fun p hp hw => h.sep g hmem ⟨p, by omega, hw⟩)]
  exact h.same g hg

end

/-- No table could be had: the copy is given up, but the frame in hand is still held. -/
theorem Copying.give_up (hfull : m.Full) (h : Copying s₀ s kpdpt d n [f] held)
    (hstuck : Stuck m Managed True s s₁ kpdpt d (f :: (treeRefs s.mem d ++ d :: held)) a new) :
    ∃ s₂, freevm m s₁ (kva d) = .ok s₂ ∧ Owned Managed s₂ (f :: held) ∧ ∀ g ∈ held, s₂.mem g = s₀.mem g := by
  obtain ⟨s₂, hrun, hown, hmem⟩ := freevm_hand hfull hstuck.shape
    (owned_extends hstuck.owned hstuck.extend) h.apart
  exact ⟨s₂, hrun, hown, fun g hg => (hmem g hg).trans (h.same_extends hstuck.extend g hg)⟩

theorem walk_left {q : List Nat} (h : walk mem d (p ++ q) = some t) : walk mem d p ≠ none := by
  intro hnone
  rw [walk, follow_append, ← walk, hnone] at h
  cases h

theorem TablesUpTo.next (h : TablesUpTo s.mem d n) {l : List Nat} (ha : a.toNat = (n + 1) * 4096)
    (hfound : Found Managed True s s₁ kpdpt d l a t new) : TablesUpTo s₁.mem d (n + 1) := by
  have hpath : path a = pagePath (n + 1) := path_of_page ha
  intro p hp hlen
  constructor
  · intro hw
    by_cases hold : walk s.mem d p = none
    · refine ⟨n + 1, by omega, Nat.le_refl _, ?_⟩
      rw [← hpath]
      by_contra hne
      refine hw ((hfound.others p (by omega) ?_ ?_ ?_).trans hold)
      all_goals
        rintro rfl
        exact hne rfl
    · obtain ⟨k, h₁, h₂, h₃⟩ := (h p hp hlen).mp hold
      exact ⟨k, h₁, by omega, h₃⟩
  · rintro ⟨k, h₁, h₂, h₃⟩
    rcases Nat.lt_or_ge n k with hk | hk
    · obtain rfl : k = n + 1 := by omega
      have hall := hfound.found
      rw [hpath, ← List.take_append_drop p.length (pagePath (n + 1)), ← h₃] at hall
      exact walk_left hall
    · obtain ⟨u, hu⟩ := Option.ne_none_iff_exists'.mp ((h p hp hlen).mpr ⟨k, h₁, hk, h₃⟩)
      simp [hfound.extend.mono p u hlen hu]

/-- The page has its entry. -/
theorem Copying.mapped (h : Copying s₀ s kpdpt d n [f] held) (hn : n + 1 < 2 ^ 35)
    (ha : a.toNat = (n + 1) * 4096) (flags : Word) (hflags : IsFlags flags)
    (hfound : Found Managed True s s₁ kpdpt d (f :: (treeRefs s.mem d ++ d :: held)) a t new) :
    Copying s₀ { s₁ with mem := setWord s₁.mem t (ptx a) (frameAddr f ||| flags ||| pteP) } kpdpt d
    (n + 1) [] held := by
  have hman : Managed f := h.owned.of_held (by simp)
  have hw : walk s₁.mem d (pagePath (n + 1)) = some t := path_of_page ha ▸ hfound.found
  have hst := stored_setWord (e := frameAddr f ||| flags ||| pteP) hfound.shape hn hw
  have hptx := ptx_of_page ha
  rw [← hptx] at hst
  have hshape := shape_setPte (i := ptx a) (e := frameAddr f ||| flags ||| pteP) hfound.shape
    (pagePath_length _) hw
  have hold : child (entry s₁.mem d (n + 1)) = none := by
    rw [entry, hfound.extend.map _ _ rfl]
    exact child_eq_none_of_has (h.rest (n + 1) (by omega) hn)
  have hperm : (treeRefs (setWord s₁.mem t (ptx a) (frameAddr f ||| flags ||| pteP)) d).Perm
    (f :: treeRefs s₁.mem d) := by
    have := hst.refs
    rw [hold, child_fresh hman hflags] at this
    simpa using this.trans List.perm_append_comm
  have hsep : ∀ g ∈ [f] ++ held, ¬ IsTable s₁.mem d g := by
    rintro g hg ⟨p, hp, hwp⟩
    rcases hfound.extend.tables p g hp hwp with hwp | ⟨hin, -⟩
    · exact h.sep g hg ⟨p, hp, hwp⟩
    · exact h.not_new hfound.extend hg hin
  constructor
  case shape => exact hshape
  case owned =>
    have hown := owned_extends hfound.owned hfound.extend
    refine (hown.perm ?_).congr rfl rfl
    exact (List.Perm.append_right _ hperm).symm
  case sep =>
    rintro g hg ⟨p, hp, hwp⟩
    exact hsep g (List.mem_append_right _ hg) ⟨p, hp, (hst.walk_eq p hp).symm.trans hwp⟩
  case tables =>
    intro p hp hlen
    rw [hst.walk_eq p hlen]
    exact h.tables.next ha hfound p hp hlen
  case tablesIn =>
    intro p u hp hwp
    rw [hst.walk_eq p hp] at hwp
    have hmem : u ∈ new ++ treeRefs s.mem d ∨ u ∈ d :: held := by
      rcases hfound.extend.tables p u hp hwp with hwp | ⟨hin, -⟩
      · exact (List.mem_append.mp (h.tablesIn p u hp hwp)).imp (List.mem_append_right _) id
      · exact .inl (List.mem_append_left _ hin)
    refine List.mem_append.mpr (hmem.imp (fun hin => ?_) id)
    exact hperm.mem_iff.mpr (List.mem_cons_of_mem f ((hfound.extend.refs trivial).mem_iff.mpr hin))
  case pages =>
    intro k h₁ h₂
    rw [hst.entry_eq (by omega) (by omega)]
    split
    · exact (child_eq_some.mp (child_fresh hman hflags)).1
    · rw [entry, hfound.extend.map _ _ rfl]
      exact h.pages k h₁ (by omega)
  case rest =>
    intro k h₁ h₂
    rw [hst.entry_eq (by omega) (by omega), if_neg (by omega), entry, hfound.extend.map _ _ rfl]
    exact h.rest k (by omega) h₂
  case same =>
    intro g hg
    exact (hst.frame g (hsep g (List.mem_append_right _ hg))).trans (h.same_extends hfound.extend g hg)
  case free =>
    have hlen := congrArg List.length hfound.extend.free
    rw [List.length_append, List.length_reverse, hfound.length] at hlen
    have hcost := h.tables.missing_next ha hn
    have hfree := h.free
    simp only [List.length_cons, List.length_nil] at hfree ⊢
    omega

/-- `mappages` of the frame in hand: the copy has one page more, or a table is missing. -/
theorem Copying.mappages_ends (hfull : m.Full) (h : Copying s₀ s kpdpt d n [f] held)
    (ha : a.toNat = (n + 1) * 4096)
    (hn : n + 1 < 2 ^ 35) (flags : Word) (hflags : IsFlags flags) :
    Ends (mappages m s (kva d) a 0x1000 (frameAddr f) flags)
      (fun e => Exhausted m e ∧ s.freelist.length < missing s.mem d a)
      (fun x => (x.2 = -1 ∧ m.oom = .null ∧ s.freelist.length < missing s.mem d a ∧ ∃ s₂,
        freevm m x.1 (kva d) = .ok s₂ ∧
          Owned Managed s₂ (f :: held) ∧ ∀ g ∈ held, s₂.mem g = s₀.mem g) ∨
        (x.2 = 0 ∧ Copying s₀ x.1 kpdpt d (n + 1) [] held)) := by
  have hpmx : pmx a < 256 := pmx_of_page ha hn
  rw [mappages_one ha (by omega)]
  refine (mapPage_any m True flags (frameAddr f) hfull h.shape h.owned
    (fun p t hp hw => List.mem_cons_of_mem f (h.tablesIn p t hp hw)) (by omega) (fun _ => hpmx)).seq ?_ ?_
  · rintro e (hex | ⟨-, hpres⟩)
    · exact hex
    · rw [entry_page ha, h.rest (n + 1) (by omega) hn] at hpres
      cases hpres
  · rintro ⟨s₁, v⟩ (⟨hv, new, hstuck⟩ | ⟨s₂, t, new, hx, -, hfound⟩)
    · obtain rfl : v = -1 := hv
      exact .inl ⟨rfl, hstuck.null, hstuck.short, h.give_up hfull hstuck⟩
    · cases hx
      exact .inr ⟨rfl, h.mapped hn ha flags hflags hfound⟩

def RunsOutAt (s₀ : State) (k : Nat) : Prop := cost k < s₀.freelist.length ∧ s₀.freelist.length ≤ cost (k + 1)

/-- The copy is given up at page `k + 1`: a frame that was left over is lost. -/
def GivenUp (s₀ s : State) (k : Nat) (held : List Nat) : Prop :=
  (∀ g ∈ held, s.mem g = s₀.mem g) ∧
    ((s₀.freelist.length = cost k + 1 ∧ Owned Managed s held) ∨
      (s₀.freelist.length ≠ cost k + 1 ∧ ∃ f, f ∉ held ∧ Owned Managed s (f :: held)))

def PresentFrom (s₀ : State) (pr lo hi : Nat) : Prop := ∀ k, lo ≤ k → k ≤ hi → has (entry s₀.mem pr k) pteP = true

theorem copyLoop_any (m : Machine) (hfull : m.Full) (hparent : Booked s₀ kpdpt pr held)
    (hleaf : LeavesIn s₀ pr held) (j : Nat)
    (h : Copying s₀ s kpdpt d n [] held) (ha : a.toNat = (n + 1) * 4096) (hn : n + j < 2 ^ 35) :
    Ends (copyLoop m (kva pr) (kva d) j s a)
      (fun e => (Exhausted m e ∧ ∃ k, n ≤ k ∧ k < n + j ∧ RunsOutAt s₀ k ∧ PresentFrom s₀ pr (n + 1) (k + 1)) ∨
        ∃ msg k, e = .panic msg ∧ n ≤ k ∧ cost k < s₀.freelist.length ∧ has (entry s₀.mem pr (k + 1)) pteP = false)
      (fun x => (x.2 = 0 ∧ m.oom = .null ∧ ∃ k, n ≤ k ∧ RunsOutAt s₀ k ∧ GivenUp s₀ x.1 k held) ∨
        (x.2 = kva d ∧ cost (n + j) < s₀.freelist.length)) := by
  have hfreeLen := h.free
  induction j generalizing s n a with
  | zero =>
    refine .inr ⟨rfl, ?_⟩
    simp only [List.length_nil, Nat.add_zero] at hfreeLen ⊢
    omega
  | succ j ih =>
    have hentry : entry s.mem pr (n + 1) = entry s₀.mem pr (n + 1) :=
      pte_tables (fun t ht => h.same t (hparent.table ht)) rfl
    have hshape : Shape s.mem kpdpt pr :=
      hparent.shape.congr (fun p t hp hw => h.same t (hparent.table ⟨p, hp, hw⟩))
    have hcost : cost n < s₀.freelist.length := by
      simp only [List.length_nil] at hfreeLen
      omega
    rw [copyLoop, walkpgdir_slot hfull hshape ha (by omega), ok_bind]
    cases hw : walk s.mem pr (pagePath (n + 1)) with
    | none =>
      refine .inr ⟨_, n, rfl, Nat.le_refl n, hcost, ?_⟩
      rw [← hentry, entry, pte_of_none hw]
      rfl
    | some t =>
      dsimp only [Option.map_some]
      rw [read_slot hfull hshape hw, ok_bind, hentry]
      cases hpres : has (entry s₀.mem pr (n + 1)) pteP with
      | false => exact .inr ⟨_, n, rfl, Nat.le_refl n, hcost, hpres⟩
      | true =>
        have hc : child (entry s₀.mem pr (n + 1)) = some (frameOf (entry s₀.mem pr (n + 1))) := if_pos hpres
        generalize frameOf (entry s₀.mem pr (n + 1)) = g at hc
        have hgheld : g ∈ held := hleaf (n + 1) (by omega) g hc
        have hgman : Managed g := hparent.owned.of_held hgheld
        have hhere : PresentFrom s₀ pr (n + 1) (n + 1) := by
          intro k h₁ h₂
          obtain rfl : k = n + 1 := by omega
          exact hpres
        rw [if_neg (by simp)]
        refine (kalloc_any m h.owned).seq ?_ ?_
        · rintro e ⟨hex, hnil⟩
          refine .inl ⟨hex, n, Nat.le_refl n, by omega, ⟨hcost, ?_⟩, hhere⟩
          have := cost_lt n
          rw [hnil] at hfreeLen
          simp only [List.length_nil] at hfreeLen
          omega
        rintro x (⟨rfl, hnull, hnil⟩ | ⟨f, rest, hfree, hman, hnot, rfl, hown⟩)
        · -- the frames ended with the last page, and all of them go back
          obtain ⟨s₂, hrun, hown, hmem⟩ := freevm_hand hfull h.shape h.owned h.apart
          dsimp only
          rw [if_pos rfl, hrun]
          have hlen : s₀.freelist.length = cost n + 1 := by
            rw [hnil] at hfreeLen
            simp only [List.length_nil] at hfreeLen
            omega
          refine .inl ⟨rfl, hnull, n, Nat.le_refl n, ⟨hcost, ?_⟩, fun g hg =>
            (hmem g hg).trans (h.same g hg), .inl ⟨hlen, hown⟩⟩
          have := cost_lt n
          omega
        · dsimp only
          rw [if_neg (kva_ne_zero hman.small), p2v_entry hc,
            memmovePage_kva hman.small (hman.ram hfull) hgman.small (hgman.ram hfull), ok_bind, v2p_kva]
          have htake := h.take hfree hnot (s.mem g) (Function.update s.refs f 1) hown
          have hnext := htake.tables.missing_next ha (by omega)
          have hlen := htake.free
          have hshort (hl : rest.length < missing (setPage s.mem f (s.mem g)) d a) :
              RunsOutAt s₀ n ∧ s₀.freelist.length ≠ cost n + 1 := by
            simp only [List.length_singleton] at hlen hnext
            refine ⟨⟨hcost, ?_⟩, ?_⟩ <;> omega
          refine (htake.mappages_ends hfull ha (by omega) _ (isFlags_pteFlags _)).seq ?_ ?_
          · rintro e ⟨hex, hl⟩
            exact .inl ⟨hex, n, Nat.le_refl n, by omega, (hshort hl).1, hhere⟩
          · rintro ⟨s₁, v⟩ (⟨hv, hnull, hl, s₂, hrun, hown₂, hmem⟩ | ⟨hv, hcopy⟩)
            · obtain rfl : v = -1 := hv
              dsimp only
              rw [if_pos (by decide), hrun]
              refine .inl ⟨rfl, hnull, n, Nat.le_refl n, (hshort hl).1, hmem, .inr ⟨(hshort hl).2, f, ?_, hown₂⟩⟩
              exact fun hin => hnot (by simp [hin])
            · obtain rfl : v = 0 := hv
              dsimp only at hcopy ⊢
              rw [if_neg (by decide)]
              refine (ih hcopy (next_page ha (by omega)) (by omega) hcopy.free).mono ?_ ?_
              · rintro e (⟨hex, k, h₁, h₂, h₃, h₄⟩ | ⟨msg, k, he, h₁, h₂, h₃⟩)
                · refine .inl ⟨hex, k, by omega, by omega, h₃, fun i hi₁ hi₂ => ?_⟩
                  rcases Nat.lt_or_ge (n + 1) i with hi | hi
                  · exact h₄ i hi hi₂
                  · exact hhere i hi₁ hi
                · exact .inr ⟨msg, k, he, by omega, h₂, h₃⟩
              · rintro x (⟨hx, hnull, k, h₁, h₂, h₃⟩ | ⟨hx, h₁⟩)
                · exact .inl ⟨hx, hnull, k, by omega, h₂, h₃⟩
                · exact .inr ⟨hx, by rwa [show n + (j + 1) = n + 1 + j by omega]⟩

theorem copying_start {rest : List Nat} (hown : Owned Managed s₁ (d :: held)) (hnot : d ∉ held)
    (hmap : s₁.mem d = emptyMap kpdpt) (hman : Managed d) (hmem : ∀ g, g ≠ d → s₁.mem g = s₀.mem g)
    (hrest : s₁.freelist = rest) (hfree : s₀.freelist = d :: rest) : Copying s₀ s₁ kpdpt d 0 [] held := by
  have hnil : treeRefs s₁.mem d = [] := treeRefs_emptyMap hmap
  have htable : ∀ g, IsTable s₁.mem d g → g = d := by
    rintro g ⟨p, -, hw⟩
    by_cases hp : p = []
    · subst hp
      exact (Option.some.inj (walk_nil.symm.trans hw)).symm
    · rw [walk_emptyMap hmap hp] at hw
      cases hw
  constructor
  case shape => exact shape_emptyMap hmap hman
  case owned =>
    rw [hnil]
    exact hown
  case sep => exact fun g hg ht => hnot (htable g ht ▸ hg)
  case tables =>
    intro p hp _
    rw [walk_emptyMap hmap hp]
    constructor
    · intro hne
      exact absurd rfl hne
    · rintro ⟨k, h₁, h₂, -⟩
      omega
  case tablesIn =>
    intro p t hp hw
    rw [htable t ⟨p, hp, hw⟩]
    simp
  case pages => exact fun k h₁ h₂ => by omega
  case rest =>
    intro k _ _
    rw [entry, pte_of_none (walk_emptyMap hmap (by simp [pagePath]))]
    rfl
  case same =>
    intro g hg
    refine hmem g ?_
    rintro rfl
    exact hnot hg
  case free =>
    rw [hfree, hrest]
    rfl

/-- `copyuvm` when there is a frame for the page map of the child. -/
theorem copyuvm_any (m : Machine) (hfull : m.Full) (h : Booked s kpdpt pr held)
    (hleaf : LeavesIn s pr held) (sz : BitVec 32)
    (hne : s.freelist ≠ []) :
    Ends (copyuvm m (kva kpdpt) s (kva pr) sz)
      (fun e => (Exhausted m e ∧ ∃ k < pageCount 0x1000 (sz.setWidth 64),
        RunsOutAt s k ∧ PresentFrom s pr 1 (k + 1)) ∨
        ∃ msg k, e = .panic msg ∧ cost k < s.freelist.length ∧ has (entry s.mem pr (k + 1)) pteP = false)
      (fun x => (x.2 = 0 ∧ m.oom = .null ∧ ∃ k, RunsOutAt s k ∧ GivenUp s x.1 k held) ∨
        (x.2 ≠ 0 ∧ cost (pageCount 0x1000 (sz.setWidth 64)) < s.freelist.length)) := by
  obtain ⟨d, rest, hfree⟩ := List.exists_cons_of_ne_nil hne
  obtain ⟨s₁, hrun, hnot, hmap, hman, hmem, hrest, -, hown⟩ := setupkvm_cons m kpdpt hfull h.owned hfree
  have hcount : pageCount 0x1000 (sz.setWidth 64) < 2 ^ 35 := by
    have hsz := (sz.setWidth 64).isLt
    have hlt := sz.isLt
    rw [pageCount, BitVec.toNat_setWidth, Nat.mod_eq_of_lt (by omega), pgSize]
    omega
  rw [copyuvm, hrun, ok_bind]
  dsimp only
  rw [if_neg (kva_ne_zero hman.small)]
  refine (copyLoop_any m hfull h hleaf _ (copying_start hown hnot hmap hman hmem hrest hfree) rfl
    (by omega)).mono ?_ ?_
  · rintro e (⟨hex, k, -, h₁, h₂, h₃⟩ | ⟨msg, k, he, -, h₁, h₂⟩)
    · exact .inl ⟨hex, k, by omega, h₂, h₃⟩
    · exact .inr ⟨msg, k, he, h₁, h₂⟩
  · rintro x (⟨hx, hnull, k, -, h₁, h₂⟩ | ⟨hx, h₁⟩)
    · exact .inl ⟨hx, hnull, k, h₁, h₂⟩
    · exact .inr ⟨hx ▸ kva_ne_zero hman.small, by rwa [Nat.zero_add] at h₁⟩

/-- The machine that stops where memory runs out marks the calls on which the other one has to give
up. -/
theorem copyuvm_gives_up (hfull : m.Full) (h : Booked s kpdpt pr held) (hleaf : LeavesIn s pr held)
    (sz : BitVec 32)
    (hne : s.freelist ≠ [])
    (hout : copyuvm { m with oom := .stop } (kva kpdpt) s (kva pr) sz = .error .outOfMemory) :
    ∃ k s', RunsOutAt s k ∧ copyuvm { m with oom := .null } (kva kpdpt) s (kva pr) sz =
      .ok (s', 0) ∧ GivenUp s s' k held := by
  have hstop := (copyuvm_any { m with oom := .stop } hfull h hleaf sz hne).of_error hout
  obtain ⟨-, k, hk, hrun, hpres⟩ | ⟨msg, k, he, -⟩ := hstop
  · have hmono := cost_strictMono
    obtain ⟨⟨s', v⟩, hres, hend⟩ := (copyuvm_any { m with oom := .null } hfull h hleaf sz hne).returns (by
      rintro e (⟨hex, -⟩ | ⟨msg, k', -, h₁, h₂⟩)
      · exact not_exhausted rfl e hex
      · have hle : k' + 1 ≤ k + 1 := hmono.lt_iff_lt.mp (Nat.lt_of_lt_of_le h₁ hrun.2)
        rw [hpres (k' + 1) (by omega) hle] at h₂
        cases h₂)
    obtain ⟨hv, -, k', hrun', hup⟩ | ⟨-, h₁⟩ := hend
    · obtain rfl : v = 0 := hv
      exact ⟨k', s', hrun', hres, hup⟩
    · have := hmono.lt_iff_lt.mp (Nat.lt_of_lt_of_le h₁ hrun.2)
      omega
  · cases he

/-- After the call every frame that was free is free, and what others hold is as it was. -/
def Clean (s s' : State) (held : List Nat) : Prop := (∀ f ∈ s.freelist, f ∈ s'.freelist) ∧
    ∀ g ∈ held, s'.mem g = s.mem g

theorem GivenUp.clean_iff (h : GivenUp s s' k held) (hown : Owned Managed s held) :
    Clean s s' held ↔ s.freelist.length = cost k + 1 := by
  obtain ⟨hmem, ⟨hlen, hown'⟩ | ⟨hlen, f, hnot, hown'⟩⟩ := h
  · refine iff_of_true ⟨fun f hf => ?_, hmem⟩ hlen
    exact (hown'.counted.mem_free f).mpr ((hown.counted.mem_free f).mp hf)
  · refine iff_of_false (fun hclean => ?_) hlen
    have hfree : f ∈ s.freelist := (hown.counted.mem_free f).mpr ⟨hown'.of_held (by simp), hnot⟩
    exact hown'.counted.not_mem_held (hclean.1 f hfree) (by simp)

/-- A call of `copyuvm` that has to give up for want of memory leaks nothing exactly if the free
frames are those of the page map and of whole pages with their tables. -/
theorem copyuvm_clean_iff (hfull : m.Full) (h : Booked s kpdpt pr held) (hleaf : LeavesIn s pr held)
    (sz : BitVec 32)
    (hne : s.freelist ≠ [])
    (hout : copyuvm { m with oom := .stop } (kva kpdpt) s (kva pr) sz = .error .outOfMemory) :
    (∃ s', copyuvm { m with oom := .null } (kva kpdpt) s (kva pr) sz = .ok (s', 0) ∧ Clean s s' held) ↔
      ∃ n, s.freelist.length = 1 + cost n := by
  obtain ⟨k, s', ⟨h₁, h₂⟩, hrun, hup⟩ := copyuvm_gives_up hfull h hleaf sz hne hout
  constructor
  · rintro ⟨s'', hrun', hclean⟩
    rw [hrun] at hrun'
    cases hrun'
    exact ⟨k, by rw [(hup.clean_iff h.owned).mp hclean, Nat.add_comm]⟩
  · rintro ⟨n, hn⟩
    have hle : k < n + 1 := cost_strictMono.lt_iff_lt.mp (by have := cost_lt n; omega)
    have hge : n < k + 1 := cost_strictMono.lt_iff_lt.mp (by omega)
    obtain rfl : n = k := by omega
    exact ⟨s', hrun, (hup.clean_iff h.owned).mpr (by omega)⟩

def short (k : Nat) : State where
  mem := bare.mem
  refs := fun f => if 0x1fc ≤ f ∧ f < 0x1fc + k then 0 else 1
  checksum := fun _ => 0
  freelist := List.range' 0x1fc k

theorem short_owned (hk : k ≤ 56836) : Owned Managed (short k) (0x1fb :: List.range' (0x1fc + k) (56836 - k)) := by
  refine ⟨⟨List.nodup_range', ?_, ?_, ?_⟩, fun _ h => h⟩
  · intro a
    simp only [short, List.mem_range'_1, Managed, nframes_eq, List.mem_cons]
    omega
  · intro a ha
    simp only [List.mem_range'_1, Managed, nframes_eq, List.mem_cons] at ha ⊢
    omega
  · intro a ha
    have hnodup : (0x1fb :: List.range' (0x1fc + k) (56836 - k)).Nodup := by
      refine List.nodup_cons.mpr ⟨?_, List.nodup_range'⟩
      rw [List.mem_range'_1]
      omega
    rw [List.count_eq_one_of_mem hnodup ha]
    simp only [List.mem_range'_1, List.mem_cons] at ha
    simp only [short]
    rw [if_neg (by omega)]
    rfl

/-- A process with one page, when `k` frames are left. -/
theorem exists_parent (hk : k + 5 ≤ 56836) : ∃ s pr held, Booked s 0x1fb pr held ∧ LeavesIn s pr held ∧
    has (entry s.mem pr 1) pteP = true ∧ s.freelist.length = k := by
  have hown := short_owned hk
  have hfree : (short (k + 5)).freelist = 0x1fc :: List.range' 0x1fd (k + 4) := rfl
  obtain ⟨s₁, -, hnot, hmap, hman, hmem, hrest, -, hown₁⟩ := setupkvm_cons pc 0x1fb pc_full hown hfree
  have hstart := copying_start hown₁ hnot hmap hman hmem hrest hfree
  obtain ⟨x, -, hx⟩ := (kalloc_any pc hstart.owned).returns (by
    rintro e ⟨-, hnil⟩
    rw [hrest] at hnil
    cases hnil)
  obtain ⟨-, hnull, -⟩ | ⟨f, rest, hcons, -, hnot', rfl, hown₂⟩ := hx
  · cases hnull
  have htake := hstart.take hcons hnot' (fun _ => 0) _ hown₂
  have hlen := htake.free
  have hcount : (short (k + 5)).freelist.length = k + 5 := List.length_range'
  have hzero : cost 0 = 0 := rfl
  obtain ⟨⟨s₃, v⟩, -, hv⟩ := (htake.mappages_ends (a := 0x1000) pc_full rfl (by omega)
    (pteW ||| pteU) isFlags_fresh).returns (by
    rintro e ⟨-, hshort⟩
    have hle := missing_le (setPage s₁.mem f fun _ => 0) 0x1fc 0x1000
    simp only [List.length_singleton] at hlen hshort
    omega)
  obtain ⟨-, hnull, -⟩ | ⟨-, hcopy⟩ := hv
  · cases hnull
  refine ⟨s₃, 0x1fc, treeRefs s₃.mem 0x1fc ++ 0x1fc :: _, ⟨hcopy.shape, hcopy.owned, hcopy.tablesIn⟩, ?_,
    hcopy.pages 1 (by omega) (by omega), ?_⟩
  · intro n hn f hc
    exact List.mem_append_left _ (leaf_mem_treeRefs hcopy.shape hn hc)
  · have hone : cost 1 = 4 := rfl
    have hfinal := hcopy.free
    simp only [List.length_nil, Nat.zero_add] at hfinal
    omega

/-- Its child needs four frames beside the page map. -/
theorem copyuvm_stops {s : State} {pr : Nat} {held : List Nat} (h : Booked s 0x1fb pr held)
    (hleaf : LeavesIn s pr held)
    (hpres : has (entry s.mem pr 1) pteP = true) (hpos : 0 < s.freelist.length) (hfew : s.freelist.length ≤ 4) :
    copyuvm ⟨directMap, .stop⟩ (kva 0x1fb) s (kva pr) 0x2000 = .error .outOfMemory := by
  have hone : cost 1 = 4 := rfl
  have hcount : pageCount 0x1000 ((0x2000 : BitVec 32).setWidth 64) = 1 := by decide
  have hends := copyuvm_any ⟨directMap, .stop⟩ pc_full h hleaf 0x2000 (List.ne_nil_of_length_pos hpos)
  rw [hcount] at hends
  cases hrun : copyuvm ⟨directMap, .stop⟩ (kva 0x1fb) s (kva pr) 0x2000 with
  | error e =>
    obtain ⟨⟨hstore, -⟩ | ⟨-, he⟩, -⟩ | ⟨msg, k, -, h₁, h₂⟩ := hends.of_error hrun
    · cases hstore
    · rw [he]
    · obtain rfl : k = 0 := by
        have := cost_strictMono.lt_iff_lt.mp (Nat.lt_of_lt_of_le h₁ (hfew.trans hone.ge))
        omega
      rw [hpres] at h₂
      cases h₂
  | ok x =>
    obtain ⟨-, hnull, -⟩ | ⟨-, h₁⟩ := hends.of_ok hrun
    · cases hnull
    · omega

theorem copyuvm_clean_one_frame : ∃ s pr held, s.freelist.length = 1 ∧
    ((∃ s', copyuvm ⟨directMap, .null⟩ (kva 0x1fb) s (kva pr) 0x2000 = .ok (s', 0) ∧ Clean s s' held) ↔
      ∃ n, s.freelist.length = 1 + cost n) := by
  obtain ⟨s, pr, held, hb, hleaf, hpres, hlen⟩ := exists_parent (k := 1) (by omega)
  exact ⟨s, pr, held, hlen, copyuvm_clean_iff (m := ⟨directMap, .null⟩) pc_full hb hleaf 0x2000
    (List.ne_nil_of_length_pos (by omega)) (copyuvm_stops hb hleaf hpres (by omega) (by omega))⟩

/-- With two frames left the child gets a page map and a frame for its page; that frame is lost when
no table can be had. -/
theorem copyuvm_loses_a_frame : ∃ s pr held, Booked s 0x1fb pr held ∧ LeavesIn s pr held ∧ s.freelist.length = 2 ∧
    copyuvm ⟨directMap, .stop⟩ (kva 0x1fb) s (kva pr) 0x2000 = .error .outOfMemory ∧
    ∃ s', copyuvm ⟨directMap, .null⟩ (kva 0x1fb) s (kva pr) 0x2000 = .ok (s', 0) ∧ ¬ Clean s s' held := by
  obtain ⟨s, pr, held, hb, hleaf, hpres, hlen⟩ := exists_parent (k := 2) (by omega)
  have hstop := copyuvm_stops hb hleaf hpres (by omega) (by omega)
  obtain ⟨k, s', hout, hrun, hup⟩ := copyuvm_gives_up (m := ⟨directMap, .null⟩) pc_full hb hleaf 0x2000
    (List.ne_nil_of_length_pos (by omega)) hstop
  refine ⟨s, pr, held, hb, hleaf, hlen, hstop, s', hrun, fun hclean => ?_⟩
  have hcost := (hup.clean_iff hb.owned).mp hclean
  have hmono := cost_strictMono
  have hone : cost 1 = 4 := rfl
  obtain rfl : k = 0 := by
    have := hmono.lt_iff_lt.mp (show cost k < cost 1 by omega)
    omega
  have hzero : cost 0 = 0 := rfl
  omega

end Xv6.CopyFail
