import Xv6.GrowTrace

/-!
# Where growing stays within its range

Up to `2 ^ 47` every event of `allocuvm` is inside the range that was asked for. For a larger size
both the loop and the rollback go on to page `2 ^ 35`, whose entry in the page map is the kernel's,
and from page `2 ^ 36` on the page numbers come round to the low pages.
-/
namespace Xv6.GrowWithin

open Words Mmu Memory Kalloc Vm RadixTree PageTable TableGrowth PageNumber UserPages AnyTable
open AllocUvm Trace GrowTrace

variable {m : Machine} {s s₀ s' : State} {kpdpt r f n lo hi k : Nat}
  {a va p pa perm oldsz newsz : Word} {held new : List Nat}
  {T : Nat → Prop} {alloc : Bool}

/-- No entry of a page below `lo` is read or written, no entry of the kernel's half of the page map
is followed, and only frames that were taken are released. -/
def Stays (lo : Nat) (events : List Event) : Prop :=
  (∀ n, .pte n ∈ events → lo ≤ n) ∧ (∀ i, .follow i ∈ events → i < 256) ∧ ∀ f, .release f ∈ events →
    .take f ∈ events

def Ok (lo : Nat) (T : Nat → Prop) : Event → Prop
  | .follow i => i < 256
  | .pte n => lo ≤ n
  | .take _ => True
  | .release f => T f

def Takes (T : Nat → Prop) : Event → Prop
  | .take f => T f
  | _ => True

theorem stays_of_runs {α : Type} {x : Run α} {Q : α → Prop}
    (h : ∀ T, Runs x (Takes T) (Ok lo T) Q) : Stays lo x.events := by
  have hall := (h (fun f => .take f ∈ x.events) (by
    intro e he
    cases e with
    | take f => exact he
    | follow i | pte n => trivial
    | release f => trivial)).1
  exact ⟨fun n hn => hall _ hn, fun i hi => hall _ hi, fun f hf => hall _ hf⟩

theorem runs_take (f : Nat) : Runs (emit (.take f) : Run Unit) (Takes T) (Ok lo T) (fun _ => T f) :=
  runs_emit fun hT => ⟨trivial, hT⟩

/-- An event that stays, whatever is assumed. -/
theorem runs_event {e : Event} (h : Ok lo T e) : Runs (emit e : Run Unit) (Takes T) (Ok lo T) (fun _ => True) :=
  runs_emit fun _ => ⟨h, trivial⟩

theorem runs_kalloc (m : Machine) (s : State) :
    Runs (kallocT m s) (Takes T) (Ok lo T) (fun x => kalloc m s = .ok x ∧ (x.2 = 0 ∨ T (ptrFrame x.2))) := by
  refine (Runs.result (P := fun x => x.2 = 0 ∨ T (ptrFrame x.2)) ?_).imp
    (fun x hx => ⟨kallocT_result m s ▸ hx.1, hx.2⟩)
  refine (runs_quiet _).bind fun x _ => ?_
  obtain ⟨s₁, p⟩ := x
  dsimp only
  split
  · exact runs_pure (.inl ‹_›)
  · exact (runs_take _).bind fun _ hT => runs_pure (.inr hT)

theorem runs_krelease (m : Machine) (s : State) (hf : f < 2 ^ 35) (hT : T f) :
    Runs (kreleaseT m s (kva f)) (Takes T) (Ok lo T) (fun s' => krelease m s (kva f) = .ok s') := by
  refine Runs.bind (runs_event (e := .release (ptrFrame (kva f))) ?_) fun _ _ => runs_quiet _
  show T (ptrFrame (kva f))
  rw [ptrFrame_kva hf]
  exact hT

theorem runs_nextTable (m : Machine) (s : State) (entry : Word) (alloc : Bool) :
    Runs (nextTableT m s entry alloc) (Takes T) (Ok lo T) (fun _ => True) := by
  refine (runs_quiet _).bind fun e _ => ?_
  split
  · exact runs_pure trivial
  split
  · exact runs_pure trivial
  refine (runs_kalloc m s).bind fun x _ => ?_
  obtain ⟨s₁, table⟩ := x
  dsimp only
  split
  · exact runs_pure trivial
  · exact (runs_quiet _).bind fun s₂ _ => (runs_quiet _).bind fun s₃ _ => runs_pure trivial

theorem runs_walk (m : Machine) (s : State) (pml4 : Word) (alloc : Bool) (hva : pmx va < 256) :
    Runs (walkpgdirT m s pml4 va alloc) (Takes T) (Ok lo T) (fun x => walkpgdir m s pml4 va alloc = .ok x) := by
  refine (Runs.result (P := fun _ => True) ?_).imp (fun x hx => walkpgdirT_result m s pml4 va alloc ▸ hx.1)
  refine (runs_nextTable m s _ alloc).bind fun x _ => ?_
  obtain ⟨s₁, _ | pdp⟩ := x
  · exact runs_pure trivial
  refine Runs.bind (runs_event hva) fun _ _ => ?_
  refine (runs_nextTable m s₁ _ alloc).bind fun x _ => ?_
  obtain ⟨s₂, _ | pd⟩ := x
  · exact runs_pure trivial
  refine (runs_nextTable m s₂ _ alloc).bind fun x _ => ?_
  obtain ⟨s₃, _ | pgtab⟩ := x
  · exact runs_pure trivial
  · exact runs_pure trivial

theorem runs_mapPage (m : Machine) (s : State) (pgdir perm pa : Word) (ha : pmx a < 256) (hlo : lo ≤ pageOf a) :
    Runs (mapPageT m s pgdir perm a pa) (Takes T) (Ok lo T) (fun x => mapPage m s pgdir perm a pa = .ok x) := by
  refine (Runs.result (P := fun _ => True) ?_).imp (fun x hx => mapPageT_result m s pgdir perm a pa ▸ hx.1)
  refine (runs_walk m s pgdir true ha).bind fun x _ => ?_
  obtain ⟨s₁, _ | pte⟩ := x
  · exact runs_pure trivial
  refine Runs.bind (runs_event hlo) fun _ _ => (runs_quiet _).bind fun e _ => ?_
  split
  · exact (runs_quiet _).imp fun _ _ => trivial
  · exact (runs_quiet _).bind fun s₂ _ => runs_pure trivial

/-- `mappages` at one page is one turn of its loop. -/
theorem mappagesT_one (ha : a.toNat % 4096 = 0) (pgdir pa : Word) :
    mappagesT m s pgdir a 0x1000 pa perm = (do
      let x ← mapPageT m s pgdir perm a pa
      if x.2 < 0 then return (x.1, -1) else return (x.1, 0)) := by
  have hlt := a.isLt
  have hround : pgRoundDown a = a := by
    apply BitVec.eq_of_toNat_eq
    rw [pgRoundDown_toNat]
    omega
  have hlast : pgRoundDown (a + 0x1000 - 1) = a := by
    apply BitVec.eq_of_toNat_eq
    rw [pgRoundDown_toNat, BitVec.toNat_sub, BitVec.toNat_add, show (1 : Word).toNat = 1 from rfl,
      show (0x1000 : Word).toNat = 4096 from rfl]
    omega
  have hzero : (a - a).toNat / pgSize = 0 := by
    rw [BitVec.sub_self]
    rfl
  simp only [mappagesT, hround, hlast, hzero, mapLoopT]

theorem runs_mappages (m : Machine) (s : State) (pgdir perm pa : Word) (ha : a.toNat = n * 4096)
    (hn : n < 2 ^ 35) (hlo : lo ≤ n) :
    Runs (mappagesT m s pgdir a 0x1000 pa perm) (Takes T) (Ok lo T)
    (fun x => mappages m s pgdir a 0x1000 pa perm = .ok x) := by
  refine (Runs.result (P := fun _ => True) ?_).imp (fun x hx => mappagesT_result m s pgdir a 0x1000 pa perm ▸ hx.1)
  have hpage : pageOf a = n := by
    rw [pageOf, ha]
    omega
  rw [mappagesT_one (by omega)]
  refine (runs_mapPage m s pgdir perm pa (pmx_of_page ha hn) (by omega)).bind fun x _ => ?_
  split <;> exact runs_pure trivial

theorem runs_deallocLoop (hfull : m.Full) (k : Nat) (h : Shape s.mem kpdpt r) (htab : TablesIn s.mem r held)
    (hown : Owned Managed s (frames s.mem r n k ++ held)) (ha : a.toNat = n * 4096)
    (hhi : n + k ≤ 2 ^ 35) (hlo : lo ≤ n)
    (hT : ∀ f ∈ frames s.mem r n k, T f) :
    Runs (deallocLoopT m (kva r) k s a) (Takes T) (Ok lo T) (fun s' => deallocLoop m (kva r) k s a = .ok s') := by
  refine (Runs.result (P := fun _ => True) ?_).imp (fun x hx => deallocLoopT_result m (kva r) k s a ▸ hx.1)
  induction k generalizing s a n with
  | zero => exact runs_pure trivial
  | succ k ih =>
    have hpage : pageOf a = n := by
      rw [pageOf, ha]
      omega
    have hnext := next_page ha (by omega)
    rw [frames_succ] at hown hT
    refine (runs_walk m s (kva r) false (pmx_of_page ha (by omega))).bind fun x hx => ?_
    rw [walkpgdir_slot hfull h ha (by omega)] at hx
    obtain rfl := Except.ok.inj hx
    have hskip (hnone : child (entry s.mem r n) = none) :
        Runs (deallocLoopT m (kva r) k s (a + 0x1000)) (Takes T) (Ok lo T) (fun _ => True) := by
      rw [hnone] at hown hT
      exact ih h htab hown hnext (by omega) (by omega) hT
    cases hw : walk s.mem r (pagePath n) with
    | none =>
      refine hskip ?_
      rw [entry, pte_of_none hw]
      exact child_zero
    | some t =>
      dsimp only [Option.map_some]
      refine Runs.bind (runs_event (show lo ≤ pageOf a by omega)) fun _ _ => (runs_quiet _).bind fun e he => ?_
      rw [read_slot hfull h hw] at he
      obtain rfl := Except.ok.inj he
      cases hc : child (entry s.mem r n) with
      | none =>
        rw [if_neg (by rw [child_eq_none.mp hc]; simp)]
        exact hskip hc
      | some f =>
        rw [hc] at hown hT
        have hman : Managed f := hown.of_held (by simp)
        have htm : Managed t := h.managed _ t (by simp) hw
        rw [if_pos (child_eq_some.mp hc).1, if_neg (pteAddr_ne_zero hc hman), p2v_entry hc]
        have htab' : TablesIn s.mem r (frames s.mem r (n + 1) k ++ held) :=
          fun p u hp hu => List.mem_append_right _ (htab p u hp hu)
        have hown' : Owned Managed s ([f].filter Managed ++ (frames s.mem r (n + 1) k ++ held)) := by
          rw [List.filter_cons_of_pos (by simpa using hman)]
          exact hown
        refine (runs_krelease m s hman.small (hT f (by simp))).bind fun s₁ hrel => ?_
        obtain ⟨hbooked₁, hclear₁⟩ := (release_slot m hfull h htab' hown' (by omega) hw hc).of_ok hrel
        refine (runs_quiet _).bind fun s₂ hs₂ => ?_
        rw [write_entry hfull htm] at hs₂
        obtain rfl := Except.ok.inj hs₂
        have hframes : frames (setWord s₁.mem t (n % 512) 0) r (n + 1) k = frames s.mem r (n + 1) k := by
          refine frames_congr fun n' h₁ h₂ => ?_
          exact (hclear₁.entries n' (by omega)).trans (if_neg (by omega))
        have hown₁ := hbooked₁.owned
        rw [← hframes] at hown₁
        refine ih hbooked₁.shape (fun p u hp hu => htab p u hp
          ((hclear₁.walk_eq p hp).symm.trans hu)) hown₁ hnext (by omega)
          (by omega) ?_
        intro g hg
        exact hT g (List.mem_append_right _ (hframes ▸ hg))

/-- The rollback of a loop that has come to page `n`. -/
theorem runs_rollback (hfull : m.Full) (h : Growing s₀ s kpdpt r (pages oldsz) n held new)
    (hsame : SameOutside s₀ s r (pages oldsz) n) (hlo : pages oldsz ≤ n) (hn : n ≤ pages newsz)
    (hhi : pages newsz ≤ 2 ^ 35)
    (hnone : ∀ k, pages oldsz ≤ k → k < 2 ^ 35 → has (entry s₀.mem r k) pteP = false)
    (hT : ∀ f ∈ frames s.mem r (pages oldsz) (n - pages oldsz), T f) :
    Runs (deallocuvmT m s (kva r) newsz oldsz) (Takes T) (Ok (pages oldsz) T) (fun _ => True) := by
  have hframes := hsame.frames_eq hlo hn hhi hnone
  have hsmall : oldsz.toNat + 4095 < 2 ^ 64 := by
    rw [pages] at hlo
    omega
  rw [deallocuvmT]
  split
  · exact runs_pure trivial
  · simp only [pageCount_pages hsmall]
    exact (runs_deallocLoop hfull _ h.shape h.tables (hframes ▸ h.owned) (pgRoundUp_page hsmall)
      (by omega) (Nat.le_refl _)
      (hframes ▸ hT)).bind fun _ _ => runs_pure trivial

theorem runs_allocLoop (hfull : m.Full) (hm : m.oom = .null) (hhi : pages newsz ≤ 2 ^ 35)
    (hnone : ∀ k, pages oldsz ≤ k → k < 2 ^ 35 → has (entry s₀.mem r k) pteP = false)
    (j : Nat) (h : Growing s₀ s kpdpt r (pages oldsz) n held new) (hsame : SameOutside s₀ s r (pages oldsz) n)
    (hT : ∀ f ∈ frames s.mem r (pages oldsz) (n - pages oldsz), T f)
    (ha : a.toNat = n * 4096) (hlo : pages oldsz ≤ n) (hj : n + j = pages newsz) :
    Runs (allocLoopT m (kva r) oldsz newsz j s a) (Takes T) (Ok (pages oldsz) T) (fun _ => True) := by
  induction j generalizing s n new a with
  | zero => exact runs_pure trivial
  | succ j ih =>
    rw [allocLoopT]
    refine (runs_kalloc m s).bind ?_
    rintro x ⟨hx, hxT⟩
    obtain ⟨hk, -⟩ | ⟨f, s₁, s₂, ⟨s₃, v⟩, hk, hman, hset, hmaps, -, hbelow, new', hend⟩ :=
      h.turn hfull hm hnone hsame ha hlo (by omega)
    · obtain rfl := Except.ok.inj (hk.symm.trans hx)
      exact (runs_rollback hfull h hsame hlo (by omega) hhi hnone hT).bind fun _ _ => runs_pure trivial
    · obtain rfl := Except.ok.inj (hk.symm.trans hx)
      have hfT : T f := by
        have := hxT.resolve_left (kva_ne_zero hman.small)
        rwa [ptrFrame_kva hman.small] at this
      have hframes : frames s₃.mem r (pages oldsz) (n - pages oldsz) = frames s.mem r (pages oldsz)
        (n - pages oldsz) :=
        frames_congr fun k _ hk => hbelow k (by omega)
      dsimp only
      rw [if_neg (kva_ne_zero hman.small)]
      refine (runs_quiet _).bind fun s₂' hs₂ => ?_
      obtain rfl := Except.ok.inj (hset.symm.trans hs₂)
      refine (runs_mappages m s₂ (kva r) _ _ ha (by omega) hlo).bind fun x hx₃ => ?_
      obtain rfl := Except.ok.inj (hmaps.symm.trans hx₃)
      dsimp only at hend ⊢
      obtain ⟨rfl, hgrow, hsame₁, -, -⟩ | ⟨rfl, hgrow, hsame₁, he⟩ := hend
      · rw [if_pos (by decide)]
        refine (runs_rollback hfull hgrow hsame₁ hlo (by omega) hhi hnone (hframes ▸ hT)).bind fun _ _ => ?_
        exact (runs_krelease m _ hman.small hfT).bind fun _ _ => runs_pure trivial
      · rw [if_neg (by decide)]
        refine ih hgrow hsame₁ ?_ (next_page ha (by omega)) (by omega) (by omega)
        intro g hg
        rw [show n + 1 - pages oldsz = n - pages oldsz + 1 by omega, frames_snoc, hframes,
          show pages oldsz + (n - pages oldsz) = n by omega, he, child_freshEntry hman] at hg
        rcases List.mem_append.mp hg with hg | hg
        · exact hT g hg
        · obtain rfl : g = f := by simpa using hg
          exact hfT

end Xv6.GrowWithin
