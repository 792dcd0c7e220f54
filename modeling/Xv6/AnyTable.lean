import Xv6.UserPages

/-!
# Pages of any table

The same operations on a table of which nothing is known but that its tables form a tree and are
among the references that the allocator counts, on any machine.
-/
namespace Xv6.AnyTable

open Words Mmu Memory Kalloc Vm Outcome PageTable TableGrowth AddressSpace PageNumber UserPages
open Function

variable {m : Machine} {s s' s₁ : State} {mem mem' : Mem} {kpdpt r t f g i n n' lo hi k : Nat}
  {p q : List Nat} {a e pa : Word} {held rest new : List Nat} {map : Nat → Word}

structure Booked (s : State) (kpdpt r : Nat) (held : List Nat) : Prop where
  shape : Shape s.mem kpdpt r
  owned : Owned Managed s held
  tables : TablesIn s.mem r held

theorem Booked.table (h : Booked s kpdpt r held) (ht : IsTable s.mem r t) : t ∈ held := by
  obtain ⟨p, hp, hw⟩ := ht
  exact h.tables p t hp hw

theorem read_slot (hfull : m.Full) (h : Shape s.mem kpdpt r) (hw : walk s.mem r (pagePath n) = some t) :
    Xv6.Memory.read m s (entryPtr (kva t) (n % 512)) = .ok (entry s.mem r n) := by
  have hman := h.managed _ t (by simp) hw
  rw [read_entryPtr hman.small (hman.ram hfull) (by omega), entry, pte_of_walk hw]

theorem walkpgdir_slot (hfull : m.Full) (h : Shape s.mem kpdpt r) (ha : a.toNat = n * 4096) (hn : n < 2 ^ 35) :
    walkpgdir m s (kva r) a false =
      .ok (s, (walk s.mem r (pagePath n)).map (fun t => entryPtr (kva t) (n % 512))) := by
  have hpm := pmx_of_page ha hn
  rw [walkpgdir_false (h.reaches hfull) h (by omega), path_of_page ha, ptx_of_page ha]

/-- The table at `r` has the entries `map`, and the frames `new` have become tables of it. -/
structure Widened (s s' : State) (r : Nat) (map : Nat → Word) (new : List Nat) : Prop where
  entries : ∀ n < 2 ^ 36, entry s'.mem r n = map n
  mono : ∀ t, IsTable s.mem r t → IsTable s'.mem r t
  tables : ∀ t, IsTable s'.mem r t → IsTable s.mem r t ∨ t ∈ new
  made : ∀ t ∈ new, IsTable s'.mem r t
  contents : ∀ g, g ∉ new → ¬ IsTable s.mem r g → s'.mem g = s.mem g
  free : s.freelist = new.reverse ++ s'.freelist

theorem Widened.refl (s : State) (r : Nat) : Widened s s r (entry s.mem r) [] :=
  ⟨fun _ _ => rfl, fun _ ht => ht, fun _ ht => .inl ht, by simp, fun _ _ _ => rfl, by simp⟩

theorem Widened.trans {s₂ : State} {map' : Nat → Word} {new' : List Nat} (h : Widened s s₁ r map new)
    (h' : Widened s₁ s₂ r map' new') : Widened s s₂ r map' (new' ++ new) := by
  refine ⟨h'.entries, fun t ht => h'.mono t (h.mono t ht), ?_, ?_, ?_, by rw [h.free, h'.free]; simp⟩
  · intro t ht
    rcases h'.tables t ht with ht | ht
    · exact (h.tables t ht).imp_right (List.mem_append_right new')
    · exact .inr (List.mem_append_left new ht)
  · intro t ht
    rcases List.mem_append.mp ht with ht | ht
    · exact h'.made t ht
    · exact h'.mono t (h.made t ht)
  · intro g hg hgt
    rw [List.mem_append, not_or] at hg
    rw [h'.contents g hg.1 (fun ht => (h.tables g ht).elim hgt hg.2), h.contents g hg.2 hgt]

theorem Widened.taken (h : Widened s s' r map new) (ht : t ∈ new) : t ∈ s.freelist := by
  rw [h.free]
  exact List.mem_append_left _ (List.mem_reverse.mpr ht)

/-- Tables alone do not change what is mapped. -/
theorem widened_extends (hm : AreTables s'.mem r new) (he : Extends True s s' r new) :
    Widened s s' r (entry s.mem r) new := by
  refine ⟨fun n _ => he.map _ _ rfl, ?_, ?_, hm, ?_, he.free⟩
  · rintro t ⟨p, hp, hw⟩
    exact ⟨p, hp, he.mono p t hp hw⟩
  · rintro t ⟨p, hp, hw⟩
    rcases he.tables p t hp hw with hw | ⟨hn, -⟩
    · exact .inl ⟨p, hp, hw⟩
    · exact .inr hn
  · intro g hg hgt
    exact he.frame g hg (fun p hp hw => hgt ⟨p, by omega, hw⟩)

/-- A store to the entry of a page. -/
theorem widened_setEntry (h : Shape s.mem kpdpt r) (hw : walk s.mem r (pagePath n) = some t)
    (hn : n < 2 ^ 35) (e : Word) :
    Shape (setWord s.mem t (n % 512) e) kpdpt r ∧
      Widened s { s with mem := setWord s.mem t (n % 512) e } r (update (entry s.mem r) n e) [] := by
  have hst : Stored s.mem (setWord s.mem t (n % 512) e) r n e := stored_setWord h hn hw
  refine ⟨shape_setPte h rfl hw, ?_, ?_, ?_, by simp, ?_, by simp⟩
  · intro n' hn'
    rw [update_apply]
    exact hst.entry_eq (by omega) hn'
  · rintro u ⟨p, hp, hu⟩
    exact ⟨p, hp, (hst.walk_eq p hp).trans hu⟩
  · rintro u ⟨p, hp, hu⟩
    exact .inl ⟨p, hp, (hst.walk_eq p hp).symm.trans hu⟩
  · intro g _ hgt
    exact hst.frame g hgt

/-- How `mapPage` ends at page `n`: the page has its entry, or frames ran out on the way to it. -/
structure Mapping (m : Machine) (s : State) (x : State × Int) (kpdpt r : Nat) (held : List Nat)
    (a : Word) (n : Nat)
    (e : Word) (new : List Nat) : Prop where
  booked : Booked x.1 kpdpt r (new ++ held)
  ends : (x.2 = -1 ∧ m.oom = .null ∧ s.freelist.length < missing s.mem r a ∧ x.1.freelist = [] ∧
      Widened s x.1 r (entry s.mem r) new) ∨
    (x.2 = 0 ∧ has (entry s.mem r n) pteP = false ∧ new.length = missing s.mem r a ∧
      Widened s x.1 r (update (entry s.mem r) n e) new)

section

variable (hfull : m.Full) (h : Booked s kpdpt r held) (ha : a.toNat = n * 4096) (hn : n < 2 ^ 35)
include hfull h ha hn

theorem mapPage_booked
    (pa perm : Word) : Ends (mapPage m s (kva r) perm a pa)
      (fun e => (Exhausted m e ∧ s.freelist.length < missing s.mem r a) ∨
        (e = .panic "remap" ∧ has (entry s.mem r n) pteP = true))
      (fun x => ∃ new, Mapping m s x kpdpt r held a n (pa ||| perm ||| pteP) new) := by
  have hpm := pmx_of_page ha hn
  have hpage : pte s.mem r (path a) (ptx a) = entry s.mem r n := entry_page ha
  rw [← hpage]
  refine (mapPage_any m True perm pa hfull h.shape h.owned h.tables (by omega) (fun _ => hpm)).imp ?_
  rintro x (⟨hx, new, hs⟩ | ⟨s₁, t, new, rfl, hold, hf⟩)
  · exact ⟨new, ⟨hs.shape, hs.owned, h.tables.extends hs.extend⟩,
      .inl ⟨hx, hs.null, hs.short, hs.empty, widened_extends hs.made hs.extend⟩⟩
  · have hfound := hf.found
    rw [path_of_page ha] at hfound
    have hwide := widened_extends hf.made hf.extend
    obtain ⟨hshape, hset⟩ := widened_setEntry hf.shape hfound hn (pa ||| perm ||| pteP)
    rw [entry_page ha] at hold
    rw [ptx_of_page ha]
    have hmap : ∀ n' < 2 ^ 36, update (entry s₁.mem r) n (pa ||| perm ||| pteP) n' =
        update (entry s.mem r) n (pa ||| perm ||| pteP) n' := by
      intro n' hn'
      rw [update_apply, update_apply, hwide.entries n' hn']
    refine ⟨new, ⟨hshape, hf.owned.congr rfl rfl, ?_⟩, .inr ⟨rfl, hold, hf.length, ?_⟩⟩
    · intro p u hp hu
      have hwalk := walk_setPte_table (i := n % 512) (e := pa ||| perm ||| pteP) hf.shape rfl hfound p hp
      exact h.tables.extends hf.extend p u hp (hwalk.symm.trans hu)
    · have htrans := hwide.trans hset
      rw [List.nil_append] at htrans
      exact ⟨fun n' hn' => (htrans.entries n' hn').trans (hmap n' hn'), htrans.mono, htrans.tables, htrans.made,
        htrans.contents, htrans.free⟩

theorem mappages_booked
    (pa perm : Word) : Ends (mappages m s (kva r) a 0x1000 pa perm)
      (fun e => (Exhausted m e ∧ s.freelist.length < missing s.mem r a) ∨
        (e = .panic "remap" ∧ has (entry s.mem r n) pteP = true))
      (fun x => ∃ new, Mapping m s x kpdpt r held a n (pa ||| perm ||| pteP) new) := by
  rw [mappages_one ha (by omega)]
  refine (mapPage_booked hfull h ha hn pa perm).bind ?_
  rintro ⟨s₁, v⟩ ⟨new, hmap⟩
  obtain ⟨hv, -⟩ | ⟨hv, -⟩ := hmap.ends
  · obtain rfl : v = -1 := hv
    exact ⟨new, hmap⟩
  · obtain rfl : v = 0 := hv
    exact ⟨new, hmap⟩

end

theorem frame_lt (hc : child e = some f) : f < 2 ^ 52 := by
  rw [← (child_eq_some.mp hc).2, frameOf_eq]
  have := e.isLt
  omega

def frames (mem : Mem) (r lo k : Nat) : List Nat :=
  (List.range' lo k).filterMap (fun n => child (entry mem r n))

theorem frames_succ (mem : Mem) (r lo k : Nat) :
    frames mem r lo (k + 1) = (child (entry mem r lo)).toList ++ frames mem r (lo + 1) k := by
  rw [frames, List.range'_succ, List.filterMap_cons]
  cases child (entry mem r lo) <;> rfl

theorem frames_congr (h : ∀ n, lo ≤ n → n < lo + k → entry mem' r n = entry mem r n) :
    frames mem' r lo k = frames mem r lo k := by
  refine List.filterMap_congr fun n hn => ?_
  rw [List.mem_range'_1] at hn
  rw [h n hn.1 hn.2]

/-- The pages from `lo` to `lo + k` are gone, and nothing else has changed for those who hold
references. -/
structure Cleared (s s' : State) (r lo k : Nat) (held : List Nat) : Prop where
  entries : ∀ n < 2 ^ 36, entry s'.mem r n =
    if lo ≤ n ∧ n < lo + k ∧ child (entry s.mem r n) ≠ none then 0 else entry s.mem r n
  walk_eq : ∀ p, p.length < 4 → walk s'.mem r p = walk s.mem r p
  contents : ∀ g ∈ held, ¬ IsTable s.mem r g → s'.mem g = s.mem g

theorem Cleared.refl (s : State) (r lo : Nat) (held : List Nat) : Cleared s s r lo 0 held :=
  ⟨fun n _ => by rw [if_neg (by omega)], fun _ _ => rfl, fun _ _ _ => rfl⟩

theorem Cleared.skip (h : Cleared s s' r (lo + 1) k held) (hnone : child (entry s.mem r lo) = none) :
    Cleared s s' r lo (k + 1) held := by
  refine ⟨fun n hn => ?_, h.walk_eq, h.contents⟩
  rw [h.entries n hn]
  by_cases hlo : n = lo
  · rw [hlo, if_neg (by omega), if_neg (by simp [hnone])]
  · by_cases hin : lo + 1 ≤ n ∧ n < lo + 1 + k ∧ child (entry s.mem r n) ≠ none
    · rw [if_pos hin, if_pos ⟨by omega, by omega, hin.2.2⟩]
    · rw [if_neg hin, if_neg]
      rintro ⟨h₁, h₂, h₃⟩
      exact hin ⟨by omega, by omega, h₃⟩

/-- One page is released and its entry cleared; the tables stay because they are held. -/
theorem release_slot (m : Machine) (hfull : m.Full) (h : Shape s.mem kpdpt r) (htab : TablesIn s.mem r held)
    (hown : Owned Managed s ([f].filter Managed ++ held)) (hn : n < 2 ^ 35)
    (hw : walk s.mem r (pagePath n) = some t)
    (hc : child (entry s.mem r n) = some f) :
    Ends (krelease m s (kva f)) (fun _ => ¬ Managed f)
      (fun s₁ => Booked { s₁ with mem := setWord s₁.mem t (n % 512) 0 } kpdpt r held ∧
        Cleared s { s₁ with mem := setWord s₁.mem t (n % 512) 0 } r n 1 held) := by
  refine (krelease_any m hfull (frame_lt hc) hown).imp ?_
  rintro s₁ ⟨hown₁, hheld⟩
  have hsame : ∀ u, IsTable s.mem r u → s₁.mem u = s.mem u := by
    rintro u ⟨p, hp, hu⟩
    exact hheld u (htab p u hp hu)
  have h₁ : Shape s₁.mem kpdpt r := h.congr (fun p t hp hw => hsame t ⟨p, hp, hw⟩)
  have hwalk₁ : ∀ p, p.length < 4 → walk s₁.mem r p = walk s.mem r p := fun p hp => walk_tables hsame (by omega)
  have hentry₁ : ∀ n, entry s₁.mem r n = entry s.mem r n := fun n => pte_tables hsame rfl
  have hw₁ : walk s₁.mem r (pagePath n) = some t := by rw [hwalk₁ _ (by simp), hw]
  have hst : Stored s₁.mem (setWord s₁.mem t (n % 512) 0) r n 0 := stored_setWord h₁ hn hw₁
  refine ⟨⟨shape_setPte h₁ rfl hw₁, hown₁.congr rfl rfl, ?_⟩, ?_, ?_, ?_⟩
  · intro p u hp hu
    exact htab p u hp ((hwalk₁ p hp).symm.trans ((hst.walk_eq p hp).symm.trans hu))
  · intro n' hn'
    refine (hst.entry_eq (by omega) hn').trans ?_
    rw [hentry₁]
    by_cases hnn : n' = n
    · rw [hnn, if_pos rfl, if_pos ⟨Nat.le_refl _, by omega, by simp [hc]⟩]
    · rw [if_neg hnn, if_neg (by omega)]
  · exact fun p hp => (hst.walk_eq p hp).trans (hwalk₁ p hp)
  · intro g hg hgt
    exact (hst.frame g (fun ht => hgt ((isTable_congr hwalk₁).mp ht))).trans (hheld g hg)

theorem Cleared.cons (h : Cleared s s₁ r lo 1 held) (h' : Cleared s₁ s' r (lo + 1) k held) :
    Cleared s s' r lo (k + 1) held := by
  refine ⟨fun n hn => ?_, fun p hp => (h'.walk_eq p hp).trans (h.walk_eq p hp), fun g hg hgt => ?_⟩
  · have hold := h.entries n hn
    rw [h'.entries n hn]
    by_cases hlo : n = lo
    · subst hlo
      rw [if_neg (by omega), hold]
      refine if_congr ?_ rfl rfl
      constructor <;> rintro ⟨h₁, h₂, h₃⟩ <;> exact ⟨by omega, by omega, h₃⟩
    · rw [if_neg (by omega)] at hold
      rw [hold]
      refine if_congr ?_ rfl rfl
      constructor <;> rintro ⟨h₁, h₂, h₃⟩ <;> exact ⟨by omega, by omega, h₃⟩
  · rw [h'.contents g hg (fun ht => hgt ((isTable_congr h.walk_eq).mp ht)), h.contents g hg hgt]

theorem pteAddr_ne_zero (hc : child e = some f) (hf : Managed f) : pteAddr e ≠ 0 := by
  intro h0
  have hz := congrArg BitVec.toNat (pteAddr_eq e)
  rw [h0, (child_eq_some.mp hc).2, frameAddr_toNat (by have := hf.small; omega)] at hz
  have hge := hf.1
  simp at hz
  omega

/-- The loop of `deallocuvm`, on pages whose frames are held once for each of them if the allocator
manages them. -/
theorem deallocLoop_ends (m : Machine) (hfull : m.Full) (k : Nat) (h : Shape s.mem kpdpt r)
    (htab : TablesIn s.mem r held)
    (hown : Owned Managed s ((frames s.mem r lo k).filter Managed ++ held)) (ha : a.toNat = lo * 4096)
    (hhi : lo + k ≤ 2 ^ 35) :
    Ends (deallocLoop m (kva r) k s a) (fun _ => ∃ f ∈ frames s.mem r lo k, ¬ Managed f)
      (fun s' => Booked s' kpdpt r held ∧ Cleared s s' r lo k held) := by
  induction k generalizing s a lo with
  | zero => exact ⟨⟨h, by simpa [frames] using hown, htab⟩, Cleared.refl s r lo held⟩
  | succ k ih =>
    have hnext := next_page ha (by omega)
    rw [frames_succ, List.filter_append, List.append_assoc] at hown
    rw [deallocLoop, walkpgdir_slot hfull h ha (by omega), ok_bind, frames_succ]
    have hskip (hnone : child (entry s.mem r lo) = none) :
        Ends (deallocLoop m (kva r) k s (a + 0x1000))
          (fun _ => ∃ f ∈ (child (entry s.mem r lo)).toList ++ frames s.mem r (lo + 1) k, ¬ Managed f)
          (fun s' => Booked s' kpdpt r held ∧ Cleared s s' r lo (k + 1) held) := by
      rw [hnone] at hown ⊢
      exact (ih h htab hown hnext (by omega)).imp fun s' hs' => ⟨hs'.1, hs'.2.skip hnone⟩
    cases hw : walk s.mem r (pagePath lo) with
    | none =>
      refine hskip ?_
      rw [entry, pte_of_none hw]
      exact child_zero
    | some t =>
      simp only [Option.map_some]
      rw [read_slot hfull h hw, ok_bind]
      cases hc : child (entry s.mem r lo) with
      | none =>
        rw [if_neg (by rw [child_eq_none.mp hc]; simp)]
        rw [hc] at hskip
        exact hskip rfl
      | some f =>
        rw [hc] at hown
        have htm : Managed t := h.managed _ t (by simp) hw
        rw [if_pos (child_eq_some.mp hc).1]
        by_cases hzero : pteAddr (entry s.mem r lo) = 0
        · rw [if_pos hzero]
          exact ⟨f, by simp, fun hman => pteAddr_ne_zero hc hman hzero⟩
        rw [if_neg hzero, p2v_entry hc]
        have htab' : TablesIn s.mem r ((frames s.mem r (lo + 1) k).filter Managed ++ held) :=
          fun p u hp hu => List.mem_append_right _ (htab p u hp hu)
        refine ((release_slot m hfull h htab' hown (by omega) hw hc).mono (fun e hbad => ⟨f, by simp, hbad⟩)
          (fun _ hx => hx)).bind ?_
        rintro s₁ ⟨hbooked₁, hclear₁⟩
        have hframes : frames (setWord s₁.mem t (lo % 512) 0) r (lo + 1) k = frames s.mem r (lo + 1) k := by
          refine frames_congr fun n h₁ h₂ => ?_
          exact (hclear₁.entries n (by omega)).trans (if_neg (by omega))
        have hown₁ := hbooked₁.owned
        rw [← hframes] at hown₁
        have hclear₁' : Cleared s { s₁ with mem := setWord s₁.mem t (lo % 512) 0 } r lo 1 held :=
          ⟨hclear₁.entries, hclear₁.walk_eq, fun g hg => hclear₁.contents g (List.mem_append_right _ hg)⟩
        rw [write_entry hfull htm, ok_bind]
        refine (ih hbooked₁.shape (fun p u hp hu => htab p u hp ((hclear₁.walk_eq p hp).symm.trans hu)) hown₁ hnext
          (by omega)).mono ?_ (fun s' hs' => ⟨hs'.1, hclear₁'.cons hs'.2⟩)
        rintro e ⟨g, hg, hbad⟩
        exact ⟨g, List.mem_append_right _ (hframes ▸ hg), hbad⟩

/-- `deallocuvm` on any table. -/
theorem deallocuvm_ends (m : Machine) (hfull : m.Full) {oldsz newsz : Word} (h : Shape s.mem kpdpt r)
    (htab : TablesIn s.mem r held)
    (hown : Owned Managed s ((frames s.mem r (pages newsz) (pages oldsz - pages newsz)).filter Managed ++ held))
    (hold : pages oldsz ≤ 2 ^ 35) :
    Ends (deallocuvm m s (kva r) oldsz newsz)
      (fun _ => ∃ f ∈ frames s.mem r (pages newsz) (pages oldsz - pages newsz), ¬ Managed f)
      (fun x => x.2 = (if oldsz.toNat ≤ newsz.toNat then oldsz else newsz) ∧ Booked x.1 kpdpt r held ∧
        Cleared s x.1 r (pages newsz) (pages oldsz - pages newsz) held) := by
  rw [deallocuvm]
  by_cases hle : oldsz.toNat ≤ newsz.toNat
  · have hzero : pages oldsz - pages newsz = 0 := by
      have hmono := pages_mono hle
      omega
    rw [hzero] at hown ⊢
    rw [if_pos hle, if_pos hle]
    exact ⟨rfl, ⟨h, by simpa [frames] using hown, htab⟩, Cleared.refl s r _ held⟩
  · have hmono := pages_mono (Nat.le_of_not_le hle)
    have hsmall : newsz.toNat + 4095 < 2 ^ 64 := by
      rw [pages] at hold
      omega
    simp only [if_neg hle, pageCount_pages hsmall]
    refine (deallocLoop_ends m hfull (pages oldsz - pages newsz) h htab hown (pgRoundUp_page hsmall)
      (by omega)).bind ?_
    exact fun s' hs' => ⟨rfl, hs'⟩

/-- `deallocuvm` of pages whose references are held once for each of them. -/
theorem deallocuvm_booked (hfull : m.Full) {oldsz newsz : Word} (h : Shape s.mem kpdpt r)
    (htab : TablesIn s.mem r held)
    (hown : Owned Managed s (frames s.mem r (pages newsz) (pages oldsz - pages newsz) ++ held))
    (hold : pages oldsz ≤ 2 ^ 35) :
    ∃ s', deallocuvm m s (kva r) oldsz newsz = .ok (s', if oldsz.toNat ≤ newsz.toNat then oldsz else newsz) ∧
      Booked s' kpdpt r held ∧ Cleared s s' r (pages newsz) (pages oldsz - pages newsz) held := by
  obtain ⟨⟨s', v⟩, hrun, hv, hbooked, hclear⟩ := (deallocuvm_ends m hfull h htab
    (hown.filter_managed.symm ▸ hown) hold).returns (by
    rintro e ⟨f, hf, hbad⟩
    exact hbad (hown.of_held (List.mem_append_left _ hf)))
  exact ⟨s', hrun.trans (by rw [← hv]), hbooked, hclear⟩

end Xv6.AnyTable
