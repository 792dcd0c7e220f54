import Xv6.GrowWithin

/-!
# Growing into the kernel's half

A size above `2 ^ 47` passes the test of `allocuvm`. From the kernel's page on, a turn of either
loop that finds a table on its way is outside of the range; only a call that starts above it, runs
out of frames at once and meets no table while it rolls back has no such turn.
-/
namespace Xv6.GrowBeyond

open Words Mmu Memory Kalloc Vm RadixTree PageTable TableGrowth AddressSpace PageNumber UserPages
open AnyTable AllocUvm Trace GrowTrace GrowWithin

variable {m : Machine} {s s₀ s₁ s₂ s₃ s' : State} {mem mem' : Mem} {kpdpt r f n lo hi j k : Nat}
  {a va pgdir oldsz newsz t : Word} {held new : List Nat} {T : Nat → Prop} {B : Event → Prop} {alloc : Bool}

def Strays (lo : Nat) : Event → Prop
  | .follow i => 256 ≤ i
  | .pte n => n < lo
  | _ => False

theorem not_stays {α : Type} {x : Run α} (h : Hits x (Strays lo)) : ¬ Stays lo x.events := by
  rintro ⟨hpte, hfollow, -⟩
  obtain ⟨e, he, hs⟩ := h
  cases e with
  | follow i => exact absurd (hfollow i he) (Nat.not_lt.mpr hs)
  | pte n => exact absurd (hpte n he) (Nat.not_le.mpr hs)
  | take f | release f => exact hs

theorem hits_follow (hres : nextTable m s (entryPtr pgdir (pmx va)) alloc = .ok (s', some t))
    (hva : 256 ≤ pmx va) :
    Hits (walkpgdirT m s pgdir va alloc) (Strays lo) := by
  rw [walkpgdirT]
  exact .right ((nextTableT_result ..).trans hres) (.left (hits_emit hva))

theorem nextTable_present (hfull : m.Full) (hr : Managed r) {i : Nat} (hi : i < 512)
    (hp : has (s.mem r i) pteP = true) :
    nextTable m s (entryPtr (kva r) i) alloc = .ok (s, some (p2v (pteAddr (s.mem r i)))) := by
  rw [nextTable, read_entryPtr hr.small (hr.ram hfull) hi, ok_bind, if_pos hp]
  rfl

/-- The kernel's entry, and any other that is present in its half, is followed. -/
theorem hits_walk (hfull : m.Full) (h : Shape s.mem kpdpt r) (hva : 256 ≤ pmx va)
    (hw : pmx va = 256 ∨ walk s.mem r [pmx va] ≠ none) : Hits (walkpgdirT m s (kva r) va alloc) (Strays lo) := by
  refine hits_follow (nextTable_present hfull h.root (pmx_lt va) ?_) hva
  by_cases hk : pmx va = 256
  · rw [hk, h.kernel]
    exact has_kernelEntry kpdpt
  · have hsome := hw.resolve_left hk
    rw [show [pmx va] = [] ++ [pmx va] from rfl, walk_snoc, walk_nil, Option.bind_some,
      userMem_of_ne (.inr hk)] at hsome
    rw [← Bool.not_eq_false]
    exact fun hp => hsome (child_eq_none.mpr hp)

/-- Page `n` is not in the range but a walk to it finds a table: one of the kernel's half or the
last one. -/
def Touched (mem : Mem) (r n : Nat) : Prop :=
  n / 2 ^ 27 % 512 = 256 ∨ (256 < n / 2 ^ 27 % 512 ∧ walk mem r [n / 2 ^ 27 % 512] ≠ none) ∨
    (n / 2 ^ 27 % 512 < 256 ∧ walk mem r (pagePath n) ≠ none)

theorem pmx_page (ha : a.toNat = n * 4096) : pmx a = n / 2 ^ 27 % 512 := by
  rw [pmx_eq, ha]
  omega

theorem pageOf_page (ha : a.toNat = n * 4096) : pageOf a = n % 2 ^ 36 := by
  rw [pageOf, ha]
  omega

theorem hits_touched (hfull : m.Full) (h : Shape s.mem kpdpt r) (ha : a.toNat = n * 4096) (hlo : 2 ^ 35 < lo)
    (ht : Touched s.mem r n) : Hits (deallocLoopT m (kva r) (k + 1) s a) (Strays lo) := by
  have hpmx := pmx_page ha
  rw [deallocLoopT]
  obtain h₁ | ⟨h₁, h₂⟩ | ⟨h₁, h₂⟩ := ht
  · exact .left (hits_walk hfull h (by omega) (.inl (by omega)))
  · exact .left (hits_walk hfull h (by omega) (.inr (hpmx ▸ h₂)))
  · obtain ⟨u, hu⟩ := Option.ne_none_iff_exists'.mp h₂
    have hres := walkpgdir_false (h.reaches hfull) h (show pmx a ≠ 256 by omega)
    rw [path_of_page ha, hu] at hres
    refine .right ((walkpgdirT_result ..).trans hres) (.left (hits_emit ?_))
    show pageOf a < lo
    rw [pageOf_page ha]
    omega

theorem walk_untouched (hfull : m.Full) (h : Shape s.mem kpdpt r) (ha : a.toNat = n * 4096)
    (ht : ¬ Touched s.mem r n) :
    walkpgdir m s (kva r) a false = .ok (s, none) := by
  have hpmx := pmx_page ha
  simp only [Touched, not_or, not_and, not_not] at ht
  obtain ⟨h₁, h₂, h₃⟩ := ht
  have hnone : walk s.mem r (pagePath n) = none := by
    rcases Nat.lt_or_gt_of_ne h₁ with hlt | hgt
    · exact h₃ hlt
    · rw [pagePath, show [n / 2 ^ 27 % 512, n / 2 ^ 18 % 512, n / 2 ^ 9 % 512] =
        [n / 2 ^ 27 % 512, n / 2 ^ 18 % 512] ++ [n / 2 ^ 9 % 512] from rfl, walk_snoc, walk_two, h₂ hgt]
      rfl
  rw [walkpgdir_false (h.reaches hfull) h (by omega), path_of_page ha, hnone]
  rfl

/-- A walk that stops at the page map, or that is below the kernel, has no event outside of the
range. -/
theorem runs_walk_none (hres : walkpgdir m s pgdir va alloc = .ok (s', none))
    (h : pmx va < 256 ∨ nextTable m s (entryPtr pgdir (pmx va)) alloc = .ok (s', none)) :
    Runs (walkpgdirT m s pgdir va alloc) (Takes T) (Ok lo T) (fun x => x = (s', none)) := by
  refine (Runs.result (P := fun _ => True) ?_).imp fun x hx =>
    Except.ok.inj (hx.1.symm.trans ((walkpgdirT_result ..).trans hres))
  rcases h with h | h
  · exact (runs_walk m s pgdir alloc h).imp fun _ _ => trivial
  · rw [walkpgdirT]
    refine (runs_nextTable m s _ alloc).result.bind fun x hx => ?_
    obtain rfl := Except.ok.inj (((nextTableT_result ..).trans h).symm.trans hx.1)
    exact runs_pure trivial

theorem runs_untouched (hfull : m.Full) (h : Shape s.mem kpdpt r) (k : Nat)
    (ha : a.toNat = n * 4096) (hn : n + k < 2 ^ 52)
    (ht : ∀ i, n ≤ i → i < n + k → ¬ Touched s.mem r i) :
    Runs (deallocLoopT m (kva r) k s a) (Takes T) (Ok lo T) (fun _ => True) := by
  induction k generalizing a n with
  | zero => exact runs_pure trivial
  | succ k ih =>
    have hnot := ht n (Nat.le_refl n) (by omega)
    have hpmx := pmx_page ha
    rw [deallocLoopT]
    refine (runs_walk_none (walk_untouched hfull h ha hnot) ?_).bind fun x hx => ?_
    · rcases Nat.lt_or_ge (pmx a) 256 with hlt | hge
      · exact .inl hlt
      · simp only [Touched, not_or, not_and, not_not] at hnot
        refine .inr ?_
        rw [nextTable_false (h.reaches hfull) h (p := []) (by simp) walk_nil (pmx_lt a) (fun _ => by omega)]
        rw [show ([] : List Nat) ++ [pmx a] = [pmx a] from rfl, hpmx, hnot.2.1 (by omega)]
        rfl
    · rw [hx]
      exact ih (next_page ha (by omega)) (by omega) (fun i h₁ h₂ => ht i (by omega) (by omega))

theorem hits_some_touched (hfull : m.Full) (h : Shape s.mem kpdpt r) (hlo : 2 ^ 35 < lo) (k : Nat)
    (ha : a.toNat = n * 4096)
    (hn : n + k < 2 ^ 52) {i : Nat} (h₁ : n ≤ i) (h₂ : i < n + k) (ht : Touched s.mem r i) :
    Hits (deallocLoopT m (kva r) k s a) (Strays lo) := by
  induction k generalizing a n with
  | zero => omega
  | succ k ih =>
    by_cases hnow : Touched s.mem r n
    · exact hits_touched hfull h ha hlo hnow
    · have hne : i ≠ n := by
        rintro rfl
        exact hnow ht
      rw [deallocLoopT]
      exact .right ((walkpgdirT_result ..).trans (walk_untouched hfull h ha hnow))
        (ih (next_page ha (by omega)) (by omega) (by omega) (by omega))

theorem hits_full (hk : kalloc m s = .ok (s', 0)) (h : Hits (deallocuvmT m s' pgdir newsz oldsz) B) :
    Hits (allocLoopT m pgdir oldsz newsz (j + 1) s a) B := by
  rw [allocLoopT]
  exact .right ((kallocT_result m s).trans hk) h.left

section Taken

variable (hk : kalloc m s = .ok (s₁, kva f)) (hf : f < 2 ^ 35) (hset : memset m s₁ (kva f) 0 = .ok s₂)
include hk hf hset

theorem hits_mapping (h : Hits (mappagesT m s₂ pgdir a 0x1000 (v2p (kva f)) (pteW ||| pteU)) B) :
    Hits (allocLoopT m pgdir oldsz newsz (j + 1) s a) B := by
  rw [allocLoopT]
  refine .right ((kallocT_result m s).trans hk) ?_
  dsimp only
  rw [if_neg (kva_ne_zero hf)]
  exact .right hset h.left

theorem hits_stuck (hmaps : mappages m s₂ pgdir a 0x1000 (v2p (kva f)) (pteW ||| pteU) = .ok (s₃, -1))
    (h : Hits (deallocuvmT m s₃ pgdir newsz oldsz) B) : Hits (allocLoopT m pgdir oldsz newsz (j + 1) s a) B := by
  rw [allocLoopT]
  refine .right ((kallocT_result m s).trans hk) ?_
  dsimp only
  rw [if_neg (kva_ne_zero hf)]
  exact .right hset (.right ((mappagesT_result ..).trans hmaps) h.left)

theorem hits_next (hmaps : mappages m s₂ pgdir a 0x1000 (v2p (kva f)) (pteW ||| pteU) = .ok (s₃, 0))
    (h : Hits (allocLoopT m pgdir oldsz newsz j s₃ (a + 0x1000)) B) :
    Hits (allocLoopT m pgdir oldsz newsz (j + 1) s a) B := by
  rw [allocLoopT]
  refine .right ((kallocT_result m s).trans hk) ?_
  dsimp only
  rw [if_neg (kva_ne_zero hf)]
  exact .right hset (.right ((mappagesT_result ..).trans hmaps) h)

end Taken

theorem hits_mappages (ha : a.toNat % 4096 = 0) {pa perm : Word} (h : Hits (mapPageT m s pgdir perm a pa) B) :
    Hits (mappagesT m s pgdir a 0x1000 pa perm) B := by
  rw [mappagesT_one ha]
  exact h.left

/-- The rollback over the range from `oldsz` to `newsz`. -/
theorem hits_deallocuvm (hlt : pages oldsz < pages newsz) (hmax : newsz.toNat + 4095 < 2 ^ 64)
    (h : Hits (deallocLoopT m pgdir (pages newsz - pages oldsz) s (pgRoundUp oldsz)) B) :
    Hits (deallocuvmT m s pgdir newsz oldsz) B := by
  have hsize : oldsz.toNat < newsz.toNat := by
    rw [pages, pages] at hlt
    omega
  rw [deallocuvmT, if_neg (by omega)]
  simp only [pageCount_pages (show oldsz.toNat + 4095 < 2 ^ 64 by omega)]
  exact h.left

theorem hits_deallocLoop (hfull : m.Full) (h : Shape s.mem kpdpt r) (htab : TablesIn s.mem r held)
    (hown : Owned Managed s (frames s.mem r n (2 ^ 35 - n) ++ held)) (ha : a.toNat = n * 4096) (hn : n ≤ 2 ^ 35)
    (hk : 2 ^ 35 < n + k) : Hits (deallocLoopT m (kva r) k s a) (Strays lo) := by
  obtain ⟨s₁, hrun, hb, -⟩ :=
    (deallocLoop_ends m hfull (2 ^ 35 - n) h htab (hown.filter_managed.symm ▸ hown) ha (by omega)).returns (by
      rintro e ⟨f, hf, hbad⟩
      exact hbad (hown.of_held (List.mem_append_left _ hf)))
  have hstop : (a + BitVec.ofNat 64 ((2 ^ 35 - n) * 4096)).toNat = 2 ^ 35 * 4096 := by
    rw [BitVec.toNat_add, BitVec.toNat_ofNat, ha]
    omega
  have hpmx := pmx_page hstop
  obtain ⟨k', rfl⟩ : ∃ k', k = (2 ^ 35 - n) + (k' + 1) := ⟨k - (2 ^ 35 - n) - 1, by omega⟩
  rw [deallocLoopT_add]
  refine .right ((deallocLoopT_result ..).trans hrun) ?_
  rw [deallocLoopT]
  exact .left (hits_walk hfull hb.shape (by omega) (.inl hpmx))

/-- The rollback of a loop that has come to page `n` below the kernel goes on to the kernel's page.
-/
theorem hits_rollback (hfull : m.Full) (h : Growing s₀ s kpdpt r (pages oldsz) n held new)
    (hsame : SameOutside s₀ s r (pages oldsz) n) (hlo : pages oldsz ≤ n) (hn : n ≤ 2 ^ 35)
    (hhi : 2 ^ 35 < pages newsz)
    (hmax : newsz.toNat + 4095 < 2 ^ 64)
    (hnone : ∀ k, pages oldsz ≤ k → k < 2 ^ 35 → has (entry s₀.mem r k) pteP = false) :
    Hits (deallocuvmT m s (kva r) newsz oldsz) (Strays lo) := by
  have hsmall : oldsz.toNat + 4095 < 2 ^ 64 := by
    rw [pages] at hlo
    omega
  refine hits_deallocuvm (by omega) hmax (hits_deallocLoop hfull h.shape h.tables ?_
    (pgRoundUp_page hsmall) (by omega) (by omega))
  rw [hsame.frames_eq hlo hn (Nat.le_refl _) hnone]
  exact h.owned

theorem hits_allocLoop (hfull : m.Full) (hm : m.oom = .null) (hhi : 2 ^ 35 < pages newsz)
    (hmax : newsz.toNat + 4095 < 2 ^ 64)
    (hnone : ∀ k, pages oldsz ≤ k → k < 2 ^ 35 → has (entry s₀.mem r k) pteP = false)
    (j : Nat) (h : Growing s₀ s kpdpt r (pages oldsz) n held new) (hsame : SameOutside s₀ s r (pages oldsz) n)
    (ha : a.toNat = n * 4096) (hlo : pages oldsz ≤ n) (hn : n ≤ 2 ^ 35) (hj : 2 ^ 35 < n + j) :
    Hits (allocLoopT m (kva r) oldsz newsz j s a) (Strays lo) := by
  induction j generalizing s n new a with
  | zero => omega
  | succ j ih =>
    obtain rfl | hlt := Nat.eq_or_lt_of_le hn
    · -- the kernel's page: without a frame the rollback comes to it, with one the walk does
      obtain ⟨x, hk, ⟨rfl, -, -⟩ | ⟨f, rest, hfree, hman, hnot, rfl, hown'⟩⟩ :=
        (kalloc_any m h.owned).returns (fun e he => not_exhausted hm e he.1)
      · exact hits_full hk (hits_rollback hfull h hsame hlo hn hhi hmax hnone)
      · have hpmx := pmx_page ha
        have hshape := (h.take hfree _ hown').shape
        refine hits_mapping hk hman.small (memset_kva hman.small (hman.ram hfull) 0)
          (hits_mappages (by omega) (.left ?_))
        exact hits_walk hfull hshape (by omega) (.inl hpmx)
    · obtain ⟨hk, -⟩ | ⟨f, s₁, s₂, ⟨s₃, v⟩, hk, hman, hset, hmaps, -, -, new', hend⟩ :=
        h.turn hfull hm hnone hsame ha hlo hlt
      · exact hits_full hk (hits_rollback hfull h hsame hlo hn hhi hmax hnone)
      · obtain ⟨rfl, hgrow, hsame₁, -, -⟩ | ⟨rfl, hgrow, hsame₁, -⟩ := hend
        · exact hits_stuck hk hman.small hset hmaps (hits_rollback hfull hgrow hsame₁ hlo hn hhi hmax hnone)
        · exact hits_next hk hman.small hset hmaps (ih hgrow hsame₁ (next_page ha (by omega))
            (by omega) (by omega) (by omega))

theorem touched_congr (h : ∀ q, q.length = 3 ∨ (∃ i, 256 < i ∧ q = [i]) → walk mem' r q = walk mem r q) :
    Touched mem' r n ↔ Touched mem r n := by
  refine or_congr Iff.rfl (or_congr (and_congr_right fun hi => ?_) (and_congr_right fun _ => ?_))
  · rw [h _ (.inr ⟨_, hi, rfl⟩)]
  · rw [h _ (.inl rfl)]

/-- The frame for the first page, taken and cleared. -/
theorem take_frame (hfull : m.Full) (hm : m.oom = .null) (h : Booked s kpdpt r held) (hfree : s.freelist ≠ []) :
    ∃ f s₁ s₂, kalloc m s = .ok (s₁, kva f) ∧ Managed f ∧ memset m s₁ (kva f) 0 = .ok s₂ ∧
      s₂.freelist.length + 1 = s.freelist.length ∧ Booked s₂ kpdpt r (f :: held) ∧
      ∀ q, q.length ≤ 4 → walk s₂.mem r q = walk s.mem r q := by
  obtain ⟨x, hk, ⟨rfl, -, hnil⟩ | ⟨f, rest, hcons, hman, hnot, rfl, hown'⟩⟩ :=
    (kalloc_any m h.owned).returns (fun e he => not_exhausted hm e he.1)
  · exact absurd hnil hfree
  have htab : ¬ IsTable s.mem r f := fun ht => hnot (h.table ht)
  have hb : Booked ⟨setPage s.mem f fun _ => 0, Function.update s.refs f 1, s.checksum,
    rest⟩ kpdpt r (f :: held) :=
    ((growing_start h 0).take hcons _ hown').booked
  exact ⟨f, _, _, hk, hman, memset_kva hman.small (hman.ram hfull) 0, by simp [hcons], hb,
    fun q hq => walk_tables (tables_setPage htab _) hq⟩

theorem missing_congr (h : ∀ q, q.length ≤ 4 → walk mem' r q = walk mem r q) : missing mem' r a =
    missing mem r a := by
  rw [missing, missing, absent_congr (h _ (by simp)), absent_congr (h _ (by simp)),
    absent_congr (h _ (by simp [path]))]

/-- With more free frames than this, the first turn at `a` comes to an entry, or to a table of the
kernel's half. -/
def spare (mem : Mem) (r : Nat) (a : Word) : Nat := if pmx a < 256 then missing mem r a else 1

section

variable (hfull : m.Full) (hm : m.oom = .null) (h : Booked s kpdpt r held) (ha : a.toNat = n * 4096)
include hfull hm h ha

/-- Below the kernel's half a turn with frames for all tables comes to the entry of its page. -/
theorem hits_low (hlo : 2 ^ 35 < lo)
    (hpmx : pmx a < 256) (hmany : missing s.mem r a < s.freelist.length) :
    Hits (allocLoopT m (kva r) oldsz newsz (j + 1) s a) (Strays lo) := by
  obtain ⟨f, s₁, s₂, hk, hman, hset, hlen, hb, hwalk⟩ :=
    take_frame hfull hm h (by rintro hnil; simp [hnil] at hmany)
  refine hits_mapping hk hman.small hset (hits_mappages (by omega) ?_)
  obtain ⟨⟨s₃, v⟩, hres, ⟨-, new, hstuck⟩ | ⟨t, new, hv, -⟩⟩ :=
    (walkpgdir_ends m False hfull hb.shape hb.owned hb.tables (Nat.ne_of_lt hpmx) False.elim).returns
      (fun e he => not_exhausted hm e he.1)
  · have hshort := hstuck.short
    rw [missing_congr hwalk] at hshort
    omega
  · obtain rfl : v = _ := hv
    have hpage := pmx_page ha
    rw [mapPageT]
    refine .right ((walkpgdirT_result ..).trans hres) (.left (hits_emit ?_))
    show pageOf a < lo
    rw [pageOf_page ha]
    omega

theorem hits_high
    (hpmx : 256 < pmx a) (hmany : 1 < s.freelist.length) :
    Hits (allocLoopT m (kva r) oldsz newsz (j + 1) s a) (Strays lo) := by
  obtain ⟨f, s₁, s₂, hk, hman, hset, hlen, hb, -⟩ := take_frame hfull hm h (by rintro hnil; simp [hnil] at hmany)
  refine hits_mapping hk hman.small hset (hits_mappages (by omega) (.left ?_))
  obtain ⟨⟨s₃, v⟩, hres, ⟨-, -, hnil, -⟩ | ⟨u, new, hv, -⟩⟩ :=
    (nextTable_ends m False hfull hb.shape hb.owned hb.tables (p := []) (by simp) walk_nil
      (by simpa using pmx_lt a) (fun _ => by omega) False.elim).returns (fun e he => not_exhausted hm e he.1)
  · simp [hnil] at hlen
    omega
  · obtain rfl : v = _ := hv
    exact hits_follow hres (by omega)

/-- When frames run out in the first turn, no table that a walk outside of the range could find has
been added. -/
theorem first_turn
    (ht : ¬ Touched s.mem r n) (hfew : s.freelist.length ≤ spare s.mem r a) :
    kalloc m s = .ok (s, 0) ∨ ∃ f s₁ s₂ s₃, kalloc m s = .ok (s₁, kva f) ∧ Managed f ∧
    memset m s₁ (kva f) 0 = .ok s₂ ∧
      walkpgdir m s₂ (kva r) a true = .ok (s₃, none) ∧
      (pmx a < 256 ∨ nextTable m s₂ (entryPtr (kva r) (pmx a)) true = .ok (s₃, none)) ∧ Shape s₃.mem kpdpt r ∧
      ∀ i, Touched s₃.mem r i ↔ Touched s.mem r i := by
  by_cases hfree : s.freelist = []
  · obtain ⟨x, hk, ⟨rfl, -, -⟩ | ⟨f, rest, hcons, -⟩⟩ := (kalloc_any m h.owned).returns
      (fun e he => not_exhausted hm e he.1)
    · exact .inl hk
    · rw [hfree] at hcons
      cases hcons
  obtain ⟨f, s₁, s₂, hk, hman, hset, hlen, hb, hwalk⟩ := take_frame hfull hm h hfree
  have hpage := pmx_page ha
  rcases Nat.lt_or_ge (pmx a) 256 with hlow | hhigh
  · rw [spare, if_pos hlow, ← missing_congr hwalk] at hfew
    obtain ⟨⟨s₃, v⟩, hres, ⟨hv, new, hstuck⟩ | ⟨t, new, hv, hfound⟩⟩ :=
      (walkpgdir_ends m False hfull hb.shape hb.owned hb.tables (Nat.ne_of_lt hlow) False.elim).returns
        (fun e he => not_exhausted hm e he.1)
    · obtain rfl : v = none := hv
      refine .inr ⟨f, s₁, s₂, s₃, hk, hman, hset, hres, .inl hlow, hstuck.shape, fun i => touched_congr ?_⟩
      rintro q (hq | ⟨i, hi, rfl⟩)
      · refine (hstuck.others q (by omega) ?_ ?_).trans (hwalk q (by omega)) <;> (rintro rfl; simp at hq)
      · refine (hstuck.others _ (by simp) ?_ (by simp)).trans (hwalk _ (by simp))
        simp only [ne_eq, List.cons.injEq, and_true]
        omega
    · have hfreed := congrArg List.length hfound.extend.free
      have hnew := hfound.length
      rw [List.length_append, List.length_reverse] at hfreed
      omega
  · rw [spare, if_neg (by omega)] at hfew
    simp only [Touched, not_or, not_and, not_not] at ht
    have hnone : walk s₂.mem r [pmx a] = none := (hwalk _ (by simp)).trans (hpage ▸ ht.2.1 (by omega))
    obtain ⟨x, hres, ⟨rfl, -⟩ | ⟨u, new, -, hstep⟩⟩ :=
      (nextTable_ends m False hfull hb.shape hb.owned hb.tables (p := []) (by simp) walk_nil
        (by simpa using pmx_lt a) (fun _ => by omega) False.elim).returns (fun e he => not_exhausted hm e he.1)
    · refine .inr ⟨f, s₁, s₂, s₂, hk, hman, hset, ?_, .inr hres, hb.shape, fun i => touched_congr ?_⟩
      · rw [walkpgdir, hres]
        rfl
      · rintro q (hq | ⟨i, -, rfl⟩)
        · exact hwalk q (by omega)
        · exact hwalk _ (by simp)
    · have hlong := hstep.free_length
      rw [absent, List.nil_append, if_pos hnone] at hlong
      omega

end

section

variable (ha : a.toNat % 4096 = 0) (hw : walkpgdir m s pgdir a true = .ok (s', none))
include ha hw

theorem mappages_stuck (pa perm : Word) :
    mappages m s pgdir a 0x1000 pa perm = .ok (s', -1) := by
  rw [← mappagesT_result, mappagesT_one ha, result_bind, mapPageT_result, mapPage, hw]
  rfl

theorem runs_mappages_stuck
    (h : pmx a < 256 ∨ nextTable m s (entryPtr pgdir (pmx a)) true = .ok (s', none)) (pa perm : Word) :
    Runs (mappagesT m s pgdir a 0x1000 pa perm) (Takes T) (Ok lo T) (fun x => x = (s', -1)) := by
  rw [mappagesT_one ha, mapPageT, bind_assoc]
  refine (runs_walk_none hw h).bind ?_
  rintro x rfl
  exact runs_pure rfl

end

theorem sizes (hmax : newsz.toNat < kernBase.toNat) (hlt : pages oldsz < pages newsz) :
    oldsz.toNat + 4095 < 2 ^ 64 ∧ pages newsz < 2 ^ 52 ∧ newsz.toNat + 4095 < 2 ^ 64 := by
  have hkern : kernBase.toNat = 0xFFFF800000000000 := rfl
  rw [pages, pages] at *
  omega

section

variable (hfull : m.Full) (h : Shape s.mem kpdpt r) (hmax : newsz.toNat < kernBase.toNat)
include hfull h hmax

theorem runs_rollback_untouched
    (hlt : pages oldsz < pages newsz) (ht : ∀ i, pages oldsz ≤ i → i < pages newsz → ¬ Touched s.mem r i) :
    Runs (deallocuvmT m s (kva r) newsz oldsz) (Takes T) (Ok lo T) (fun _ => True) := by
  have hsize := sizes hmax hlt
  rw [deallocuvmT]
  split
  · exact runs_pure trivial
  · simp only [pageCount_pages hsize.1]
    refine (runs_untouched hfull h _ (pgRoundUp_page hsize.1) (by omega) ?_).bind fun _ _ => runs_pure trivial
    exact fun i h₁ h₂ => ht i h₁ (by omega)

theorem hits_rollback_touched
    (hlo : 2 ^ 35 < pages oldsz) (h₁ : pages oldsz ≤ n) (h₂ : n < pages newsz) (ht : Touched s.mem r n) :
    Hits (deallocuvmT m s (kva r) newsz oldsz) (Strays (pages oldsz)) := by
  have hsize := sizes hmax (show pages oldsz < pages newsz by omega)
  exact hits_deallocuvm (by omega) hsize.2.2
    (hits_some_touched hfull h hlo _ (pgRoundUp_page hsize.1) (by omega) h₁ (by omega) ht)

end

section

variable (hfull : m.Full) (hm : m.oom = .null) (h : Booked s kpdpt r held) (hmax : newsz.toNat < kernBase.toNat)
include hfull hm h hmax

/-- A first page that is touched is met by the growth loop or, without a frame, by the rollback. -/
theorem hits_first
    (hlo : 2 ^ 35 < pages oldsz) (hlt : pages oldsz < pages newsz) (ht : Touched s.mem r (pages oldsz))
    (ha : a.toNat = pages oldsz * 4096) :
    Hits (allocLoopT m (kva r) oldsz newsz (j + 1) s a) (Strays (pages oldsz)) := by
  have hpmx := pmx_page ha
  by_cases hfree : s.freelist = []
  · obtain ⟨x, hk, ⟨rfl, -, -⟩ | ⟨f, rest, hcons, -⟩⟩ := (kalloc_any m h.owned).returns
      (fun e he => not_exhausted hm e he.1)
    · exact hits_full hk (hits_rollback_touched hfull h.shape hmax hlo (Nat.le_refl _) hlt ht)
    · rw [hfree] at hcons
      cases hcons
  obtain ⟨f, s₁, s₂, hk, hman, hset, -, hb, hwalk⟩ := take_frame hfull hm h hfree
  obtain h₁ | ⟨h₁, h₂⟩ | ⟨h₁, h₂⟩ := ht
  · exact hits_mapping hk hman.small hset (hits_mappages (by omega)
      (.left (hits_walk hfull hb.shape (by omega) (.inl (by omega)))))
  · refine hits_mapping hk hman.small hset (hits_mappages (by omega)
      (.left (hits_walk hfull hb.shape (by omega) (.inr ?_))))
    rwa [hwalk _ (by simp), hpmx]
  · refine hits_low hfull hm h ha hlo (by omega) ?_
    rw [missing_of_walk (by rwa [path_of_page ha])]
    exact List.length_pos_iff.mpr hfree

/-- The call adds no page, or it ends below the kernel, or it starts above the kernel's page, runs
out of frames in the first turn, and no page of the range is touched. -/
def Within (s : State) (r : Nat) (oldsz newsz : Word) : Prop :=
  pages newsz ≤ pages oldsz ∨ pages newsz ≤ 2 ^ 35 ∨
    (2 ^ 35 < pages oldsz ∧ s.freelist.length ≤ spare s.mem r (pgRoundUp oldsz) ∧
      ∀ n, pages oldsz ≤ n → n < pages newsz → ¬ Touched s.mem r n)

theorem runs_beyond
    (hlt : pages oldsz < pages newsz) (ha : a.toNat = pages oldsz * 4096)
    (hfew : s.freelist.length ≤ spare s.mem r a) (ht : ∀ n, pages oldsz ≤ n → n < pages newsz →
      ¬ Touched s.mem r n) :
    Runs (allocLoopT m (kva r) oldsz newsz (j + 1) s a) (Takes T) (Ok lo T) (fun _ => True) := by
  rw [allocLoopT]
  refine (runs_kalloc m s).bind ?_
  rintro x ⟨hx, hxT⟩
  obtain hk | ⟨f, s₁, s₂, s₃, hk, hman, hset, hw, hpmx, hshape, htouch⟩ :=
    first_turn hfull hm h ha (ht _ (Nat.le_refl _) hlt) hfew
  · obtain rfl := Except.ok.inj (hk.symm.trans hx)
    exact (runs_rollback_untouched hfull h.shape hmax hlt ht).bind fun _ _ => runs_pure trivial
  · obtain rfl := Except.ok.inj (hk.symm.trans hx)
    have hfT : T f := by
      have := hxT.resolve_left (kva_ne_zero hman.small)
      rwa [ptrFrame_kva hman.small] at this
    dsimp only
    rw [if_neg (kva_ne_zero hman.small)]
    refine (runs_quiet _).bind fun s₂' hs₂ => ?_
    obtain rfl := Except.ok.inj (hset.symm.trans hs₂)
    refine (runs_mappages_stuck (by omega) hw hpmx _ _).bind ?_
    rintro x rfl
    dsimp only
    rw [if_pos (by decide)]
    refine (runs_rollback_untouched hfull hshape hmax hlt fun i h₁ h₂ =>
      (htouch i).not.mpr (ht i h₁ h₂)).bind fun _ _ => ?_
    exact (runs_krelease m _ hman.small hfT).bind fun _ _ => runs_pure trivial

theorem hits_beyond
    (hlo : 2 ^ 35 < pages oldsz) (hlt : pages oldsz < pages newsz) (ha : a.toNat = pages oldsz * 4096)
    (hbad : ¬ (s.freelist.length ≤ spare s.mem r a ∧ ∀ n, pages oldsz ≤ n → n < pages newsz →
      ¬ Touched s.mem r n)) :
    Hits (allocLoopT m (kva r) oldsz newsz (j + 1) s a) (Strays (pages oldsz)) := by
  by_cases hfirst : Touched s.mem r (pages oldsz)
  · exact hits_first hfull hm h hmax hlo hlt hfirst ha
  have hpmx := pmx_page ha
  by_cases hfew : s.freelist.length ≤ spare s.mem r a
  · have hsome : ∃ n, pages oldsz ≤ n ∧ n < pages newsz ∧ Touched s.mem r n := by
      by_contra hno
      exact hbad ⟨hfew, fun n h₁ h₂ ht => hno ⟨n, h₁, h₂, ht⟩⟩
    obtain ⟨n, h₁, h₂, ht⟩ := hsome
    obtain hk | ⟨f, s₁, s₂, s₃, hk, hman, hset, hw, -, hshape, htouch⟩ := first_turn hfull hm h ha hfirst hfew
    · exact hits_full hk (hits_rollback_touched hfull h.shape hmax hlo h₁ h₂ ht)
    · exact hits_stuck hk hman.small hset (mappages_stuck (by omega) hw _ _)
        (hits_rollback_touched hfull hshape hmax hlo h₁ h₂ ((htouch n).mpr ht))
  · rw [spare] at hfew
    split at hfew
    · exact hits_low hfull hm h ha hlo ‹_› (by omega)
    · refine hits_high hfull hm h ha ?_ (by omega)
      have : pmx a ≠ 256 := fun heq => hfirst (.inl (hpmx.symm.trans heq))
      omega

/-- A call whose range crosses into the kernel's half strays. -/
theorem strays_across
    (hnone : ∀ n, pages oldsz ≤ n → n < 2 ^ 35 → mapping s.mem r n = none) (hlo : pages oldsz ≤ 2 ^ 35)
    (hhi : 2 ^ 35 < pages newsz) : ¬ Stays (pages oldsz) (allocuvmT m s (kva r) oldsz newsz).events := by
  have hsize := sizes hmax (show pages oldsz < pages newsz by omega)
  have hlt : oldsz.toNat < newsz.toNat := by
    rw [pages] at hlo hhi
    omega
  rw [allocuvmT, if_neg (by omega), if_neg (by omega)]
  simp only [pageCount_pages hsize.1]
  exact not_stays (hits_allocLoop hfull hm hhi hsize.2.2 (fun k h₁ h₂ => mapping_eq_none.mp (hnone k h₁ h₂)) _
    (growing_start h (pages oldsz)) (fun _ _ _ => rfl) (pgRoundUp_page hsize.1) (Nat.le_refl _) hlo (by omega))

end

/-- Every event of `allocuvm` is inside of the range that was asked for exactly if `Within` holds
before the call. -/
theorem allocuvm_stays_iff (hfull : m.Full) (hm : m.oom = .null) (h : Booked s kpdpt r held)
    (hle : oldsz.toNat ≤ newsz.toNat) (hmax : newsz.toNat < kernBase.toNat)
    (hnone : ∀ n, pages oldsz ≤ n → n < 2 ^ 35 → mapping s.mem r n = none) :
    Stays (pages oldsz) (allocuvmT m s (kva r) oldsz newsz).events ↔ Within s r oldsz newsz := by
  have hkern : kernBase.toNat = 0xFFFF800000000000 := rfl
  have hsmall : oldsz.toNat + 4095 < 2 ^ 64 := by omega
  have ha := pgRoundUp_page hsmall
  have hloop : allocuvmT m s (kva r) oldsz newsz =
      allocLoopT m (kva r) oldsz newsz (pages newsz - pages oldsz) s (pgRoundUp oldsz) := by
    rw [allocuvmT, if_neg (by omega), if_neg (by omega), ← pageCount_pages hsmall]
  rcases Nat.lt_or_ge (pages oldsz) (pages newsz) with hlt | hge
  · rcases Nat.lt_or_ge (2 ^ 35) (pages newsz) with hhi | hhi
    · rcases Nat.lt_or_ge (2 ^ 35) (pages oldsz) with hlo | hlo
      · obtain ⟨j, hj⟩ : ∃ j, pages newsz - pages oldsz = j + 1 := ⟨pages newsz - pages oldsz - 1, by omega⟩
        have hwithin : Within s r oldsz newsz ↔ s.freelist.length ≤ spare s.mem r (pgRoundUp oldsz) ∧
            ∀ n, pages oldsz ≤ n → n < pages newsz → ¬ Touched s.mem r n := by
          rw [Within, or_iff_right (by omega), or_iff_right (by omega), and_iff_right hlo]
        rw [hloop, hj, hwithin]
        constructor
        · intro hstays
          by_contra hbad
          exact not_stays (hits_beyond hfull hm h hmax hlo hlt ha hbad) hstays
        · rintro ⟨hfew, ht⟩
          exact stays_of_runs fun T => runs_beyond hfull hm h hmax hlt ha hfew ht
      · refine iff_of_false (strays_across hfull hm h hmax hnone hlo hhi) ?_
        rw [Within]
        omega
    · rw [hloop]
      have habsent (k : Nat) (h₁ : pages oldsz ≤ k) (h₂ : k < 2 ^ 35) : has (entry s.mem r k) pteP = false :=
        mapping_eq_none.mp (hnone k h₁ h₂)
      exact iff_of_true (stays_of_runs fun T => runs_allocLoop hfull hm hhi habsent _
        (growing_start h (pages oldsz))
        (fun _ _ _ => rfl) (by simp [frames]) ha (Nat.le_refl _) (by omega)) (.inr (.inl hhi))
  · rw [hloop, Nat.sub_eq_zero_of_le hge]
    exact iff_of_true (stays_of_runs fun T => runs_pure (P := fun _ => True) trivial) (.inl hge)

/-- Pages 1 and 2: no event is on page 0. -/
theorem allocuvm_stays_two_pages : ∃ s r, Stays 1 (allocuvmT ⟨directMap,
    .null⟩ s (kva r) 0x1000 0x3000).events := by
  obtain ⟨s, r, held, hb, hzero, -⟩ := exists_booked_empty
  refine ⟨s, r, ?_⟩
  exact (@allocuvm_stays_iff ⟨directMap, .null⟩ s 0x1fb r 0x1000 0x3000 held pc_full rfl hb (by decide) (by decide)
    (fun n _ _ => mapping_eq_none.mpr (by rw [hzero]; rfl))).mpr (.inr (.inl (by decide)))

/-- A process without pages that asks for one page more than `2 ^ 47` bytes: the call comes to the
kernel's page map entry. -/
theorem allocuvm_strays : ∃ s r held, Booked s 0x1fb r held ∧ (∀ n, mapping s.mem r n = none) ∧
    ¬ Stays 0 (allocuvmT ⟨directMap, .null⟩ s (kva r) 0 0x800000001000).events := by
  obtain ⟨s, r, held, hb, hzero, -⟩ := exists_booked_empty
  have hnone (n : Nat) : mapping s.mem r n = none := mapping_eq_none.mpr (by rw [hzero]; rfl)
  exact ⟨s, r, held, hb, hnone, @strays_across ⟨directMap,
    .null⟩ s 0x1fb r 0 0x800000001000 held pc_full rfl hb (by decide)
    (fun n _ _ => hnone n) (by decide) (by decide)⟩

end Xv6.GrowBeyond
