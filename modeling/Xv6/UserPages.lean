import Xv6.PageNumber

/-!
# Growing and shrinking user memory

`allocuvm` takes frames until they run out, so the pages it can reach are bounded by the
length of the free list, and that bound keeps it out of the kernel's slot whatever size is
asked for. `deallocuvm` returns the frames of its pages and keeps the tables.
-/
namespace Xv6.UserPages

open Words Mmu Memory Kalloc Vm Outcome RadixTree PageTable AddressSpace PageNumber

variable {m : Machine} {s s' s₁ : State} {mem mem' : Mem} {kpdpt r t f g i j n n' lo hi k : Nat}
  {p q : List Nat} {a va e perm : Word} {held rest : List Nat} {page : Page}

/-- Page `n` was not mapped and now maps the frame `f`, taken from the free list, which holds
`page`. -/
structure Added (s s' : State) (r n f : Nat) (e : Word) (page : Page) : Prop where
  old : has (entry s.mem r n) pteP = false
  map : ∀ n', n' < 2 ^ 36 → entry s'.mem r n' = if n' = n then e else entry s.mem r n'
  frame : child e = some f
  mono : ∀ p t, p.length < 4 → walk s.mem r p = some t → walk s'.mem r p = some t
  tables : ∀ t, IsTable s'.mem r t → IsTable s.mem r t ∨ t ∈ s.freelist
  contents : ∀ g, g ∉ s.freelist → ¬ IsTable s.mem r g → s'.mem g = s.mem g
  page : s'.mem f = page
  free : ∃ new, s.freelist = f :: new ++ s'.freelist ∧ new.length ≤ 3 ∧
    (walk s.mem r (pagePath n) ≠ none → new = [])
  checksum : s'.checksum = s.checksum

/-- `mappages` at one page-aligned page is one turn of its loop. -/
theorem mappages_one (ha : a.toNat = n * 4096) (hn : n < 2 ^ 36) (pgdir pa : Word) :
    mappages m s pgdir a 0x1000 pa perm = (do
      let x ← mapPage m s pgdir perm a pa
      if x.2 < 0 then .ok (x.1, -1) else .ok (x.1, 0)) := by
  have hround : pgRoundDown a = a := by
    apply BitVec.eq_of_toNat_eq
    rw [pgRoundDown_toNat, ha]
    omega
  have hlast : pgRoundDown (a + 0x1000 - 1) = a := by
    apply BitVec.eq_of_toNat_eq
    rw [pgRoundDown_toNat, BitVec.toNat_sub, next_page ha (by omega), ha, show (1 : Word).toNat = 1 from rfl]
    omega
  have hzero : (a - a).toNat / pgSize = 0 := by
    rw [BitVec.sub_self]
    rfl
  simp only [mappages, hround, hlast, hzero, mapLoop]
  rfl

/-- Mapping a frame that was just taken from the free list and filled. -/
theorem mappages_added (n : Nat) (page : Page) (refs : Nat → Int) {rest' : List Nat}
    (hm : m.oom ≠ .null) (hfull : m.Full)
    (h : Space s kpdpt r rest) (hfree : s.freelist = f :: rest')
    (hown : Owned Managed ⟨s.mem, refs, s.checksum, rest'⟩ (f :: (treeRefs s.mem r ++ r :: rest)))
    (ha : a.toNat = n * 4096) (hn : 0 < n) (hn' : n < 2 ^ 35) (hperm : IsFlags perm)
    (hleaf : LeafOk (frameAddr f ||| perm ||| pteP)) :
    Ends (mappages m ⟨setPage s.mem f page, refs, s.checksum, rest'⟩ (kva r) a 0x1000 (frameAddr f) perm)
      (fun e => (Exhausted m e ∧ s.freelist.length < 4) ∨
        (e = .panic "remap" ∧ has (entry s.mem r n) pteP = true))
      (fun x => x.2 = 0 ∧ Space x.1 kpdpt r rest ∧ Added s x.1 r n f (frameAddr f ||| perm ||| pteP) page) := by
  have hfmem : f ∈ s.freelist := by simp [hfree]
  have hf : f ∉ treeRefs s.mem r ++ r :: rest := h.owned.counted.not_mem_held hfmem
  have htable : ∀ t, IsTable s.mem r t → t ≠ f := by
    rintro t ht rfl
    have := h.tree.table_mem ht
    simp only [List.mem_append, List.mem_cons, not_or] at hf this
    tauto
  have hsame : ∀ t, IsTable s.mem r t → setPage s.mem f page t = s.mem t :=
    fun t ht => setPage_other (htable t ht) page
  have hrefs := treeRefs_tables hsame
  have hwalk : ∀ p, p.length ≤ 4 → walk (setPage s.mem f page) r p = walk s.mem r p :=
    fun p hp => walk_tables hsame hp
  have hpte : ∀ p i, p.length = 3 → pte (setPage s.mem f page) r p i = pte s.mem r p i :=
    fun p i hp => pte_tables hsame hp
  have hIs : ∀ t, IsTable (setPage s.mem f page) r t ↔ IsTable s.mem r t :=
    fun t => isTable_congr (fun p hp => hwalk p (by omega))
  have hnull : path a ≠ [0, 0, 0] ∨ ptx a ≠ 0 := by
    rw [path_of_page ha, ptx_of_page ha]
    by_contra hc
    simp only [not_or, not_not] at hc
    have := pagePath_inj (by omega : n < 2 ^ 36) (by omega : 0 < 2 ^ 36)
      (hc.1.trans (by simp [pagePath])) (by omega)
    omega
  rw [mappages_one ha (by omega)]
  have hpage := mapPage_fresh (s := ⟨setPage s.mem f page, refs, s.checksum, rest'⟩) (a := a) hm hfull
    (h.tree.congr hsame) (by rw [hrefs]; exact hown.congr rfl rfl) (by rw [hrefs]; exact h.apart)
      (by rw [hrefs]; exact hf)
    (pmx_of_page ha hn') hnull hperm hleaf
  refine hpage.seq ?_ ?_
  · rintro e (⟨hex, hlen⟩ | ⟨he, hpres⟩)
    · refine .inl ⟨hex, ?_⟩
      rw [hfree]
      exact Nat.succ_lt_succ hlen
    · refine .inr ⟨he, ?_⟩
      rwa [hpte _ _ rfl, entry_page ha] at hpres
  · rintro ⟨s', x⟩ ⟨rfl, hspace, hfill⟩
    rw [if_neg (by simp)]
    refine ⟨rfl, hspace, ?_⟩
    obtain ⟨new, hnew, hlen, hnil⟩ := hfill.free
    have hfreshtab : ¬ IsTable (setPage s.mem f page) r f := fun ht => htable f ((hIs f).mp ht) rfl
    have hfrest : f ∉ rest' := (List.nodup_cons.mp (hfree ▸ h.owned.counted.nodup)).1
    refine ⟨?_, ?_, child_fresh (hown.of_held (by simp)) hperm, ?_, ?_, ?_, ?_, ⟨new, ?_, hlen, ?_⟩,
      hfill.checksum⟩
    · rw [← entry_page ha, ← hpte _ _ rfl]
      exact hfill.old
    · intro n' hn2
      rw [entry, hfill.map _ _ rfl, hpte _ _ rfl, path_of_page ha, ptx_of_page ha]
      by_cases he : n' = n
      · subst he
        simp
      · rw [if_neg he, if_neg]
        · rfl
        · rintro ⟨h₁, h₂⟩
          exact he (pagePath_inj hn2 (by omega) h₁ h₂)
    · intro p t hp hw
      exact hfill.mono p t hp (by rw [hwalk p (by omega), hw])
    · intro t ht
      rcases hfill.tables t ht with ht | ht
      · exact .inl ((hIs t).mp ht)
      · refine .inr ?_
        rw [hfree]
        exact List.mem_cons_of_mem f ht
    · intro g hg hgt
      have hgf : g ≠ f := by
        rintro rfl
        exact hg hfmem
      rw [hfill.contents g (by rw [hfree] at hg; simp only [List.mem_cons, not_or] at hg; exact hg.2)
        (fun ht => hgt ((hIs g).mp ht))]
      exact setPage_other hgf page
    · rw [hfill.contents f hfrest hfreshtab]
      exact setPage_same s.mem f page
    · rw [hfree]
      simp only [List.cons_append, List.cons.injEq, true_and]
      exact hnew
    · intro hne
      exact hnil (by rw [hwalk _ (by simp [path]), path_of_page ha]; exact hne)

def pages (sz : Word) : Nat := (sz.toNat + 4095) / 4096

def freshEntry (f : Nat) : Word := frameAddr f ||| (pteW ||| pteU) ||| pteP

def Zeroed (_ f : Nat) (e : Word) (page : Page) : Prop := e = freshEntry f ∧ page = fun _ => 0

/-- The pages from `lo` to `hi` are new, with entries and contents as `New` says; their frames,
and those of the new tables, came from the free list. -/
structure Grown (New : Nat → Nat → Word → Page → Prop) (s s' : State) (r lo hi : Nat) : Prop where
  new : ∀ n, lo ≤ n → n < hi → ∃ f ∈ s.freelist, child (entry s'.mem r n) = some f ∧
    New n f (entry s'.mem r n) (s'.mem f)
  old : ∀ n, n < 2 ^ 36 → (n < lo ∨ hi ≤ n) → entry s'.mem r n = entry s.mem r n
  mono : ∀ p t, p.length < 4 → walk s.mem r p = some t → walk s'.mem r p = some t
  tables : ∀ t, IsTable s'.mem r t → IsTable s.mem r t ∨ t ∈ s.freelist
  contents : ∀ g, g ∉ s.freelist → ¬ IsTable s.mem r g → s'.mem g = s.mem g
  free : ∃ used, s.freelist = used ++ s'.freelist ∧ hi - lo ≤ used.length ∧ used.length ≤ 4 * (hi - lo) ∧
    ((∀ n, lo ≤ n → n < hi → walk s.mem r (pagePath n) ≠ none) → used.length = hi - lo)
  checksum : s'.checksum = s.checksum

variable {New : Nat → Nat → Word → Page → Prop}

theorem Grown.nil (s : State) (r lo hi : Nat) (h : hi ≤ lo) : Grown New s s r lo hi :=
  ⟨fun n h₁ h₂ => by omega, fun _ _ _ => rfl, fun _ _ _ hw => hw, fun _ ht => .inl ht, fun _ _ _ => rfl,
    ⟨[], rfl, by simp; omega, by simp, fun _ => by simp; omega⟩, rfl⟩

theorem isFlags_fresh : IsFlags (pteW ||| pteU) := isFlags_of_lt (by decide)

theorem has_freshEntry {bit : Word} (hbit : IsFlags bit) :
    has (freshEntry f) bit = has (pteW ||| pteU ||| pteP) bit := by
  rw [freshEntry, BitVec.or_assoc, has_frameAddr_or f _ hbit]

theorem leafOk_fresh : LeafOk (freshEntry f) := by
  intro _ _ hw
  rw [has_freshEntry isFlags_pteW] at hw
  exact absurd hw (by decide)

theorem child_freshEntry (hf : Managed f) : child (freshEntry f) = some f := child_fresh hf isFlags_fresh

theorem Added.grown (h : Added s s₁ r lo f e page) (hnew : New lo f e page) (hlo : lo < 2 ^ 36)
    (h₁ : Space s₁ kpdpt r rest) (hnodup : s.freelist.Nodup) (h' : Grown New s₁ s' r (lo + 1) hi) (hhi : lo < hi) :
    Grown New s s' r lo hi := by
  obtain ⟨new, hfree, hnewlen, hnil⟩ := h.free
  obtain ⟨used, hused, hlen, hlen', hexact⟩ := h'.free
  have hsub : ∀ g, g ∈ s₁.freelist → g ∈ s.freelist := by
    intro g hg
    rw [hfree]
    simp [hg]
  have hf : f ∉ s₁.freelist := by
    rw [hfree, List.cons_append, List.nodup_cons] at hnodup
    exact fun hmem => hnodup.1 (by simp [hmem])
  have hentry : entry s₁.mem r lo = e := by rw [h.map lo hlo, if_pos rfl]
  have hleaf : ¬ IsTable s₁.mem r f := h₁.tree.leaf_not_table rfl
    (hentry ▸ h.frame : child (entry s₁.mem r lo) = some f)
  refine ⟨?_, ?_, ?_, ?_, ?_, ⟨f :: new ++ used, ?_, ?_, ?_, ?_⟩, h'.checksum.trans h.checksum⟩
  · intro n h₂ h₃
    by_cases he : n = lo
    · subst he
      rw [h'.old n hlo (by omega), hentry]
      refine ⟨f, by simp [hfree], h.frame, ?_⟩
      rw [h'.contents f hf hleaf, h.page]
      exact hnew
    · obtain ⟨g, hg, hgn⟩ := h'.new n (by omega) h₃
      exact ⟨g, hsub g hg, hgn⟩
  · intro n hn hout
    rw [h'.old n hn (by omega), h.map n hn, if_neg (by omega)]
  · intro p t hp hw
    exact h'.mono p t hp (h.mono p t hp hw)
  · intro t ht
    rcases h'.tables t ht with ht | ht
    · exact h.tables t ht
    · exact .inr (hsub t ht)
  · intro g hg hgt
    have hgt₁ : ¬ IsTable s₁.mem r g := by
      intro ht
      rcases h.tables g ht with ht | ht
      · exact hgt ht
      · exact hg ht
    rw [h'.contents g (fun hmem => hg (hsub g hmem)) hgt₁, h.contents g hg hgt]
  · rw [hfree, hused]
    simp
  · simp only [List.cons_append, List.length_cons, List.length_append]
    omega
  · simp only [List.cons_append, List.length_cons, List.length_append]
    omega
  · intro hall
    have hne : walk s.mem r (pagePath lo) ≠ none := hall lo (by omega) hhi
    have hrest : used.length = hi - (lo + 1) := by
      refine hexact (fun n h₂ h₃ => ?_)
      obtain ⟨t, ht⟩ := Option.ne_none_iff_exists'.mp (hall n (by omega) h₃)
      rw [h.mono _ t (by simp) ht]
      simp
    rw [hnil hne]
    simp only [List.cons_append, List.nil_append, List.length_cons]
    omega

theorem allocLoop_ends (hm : m.oom ≠ .null) (hfull : m.Full) (oldsz newsz : Word) (k : Nat)
    (h : Space s kpdpt r rest) (ha : a.toNat = lo * 4096) (hlo : 0 < lo)
    (hroom : lo + s.freelist.length + 1 ≤ 2 ^ 35) :
    Ends (allocLoop m (kva r) oldsz newsz k s a)
      (fun e => (Exhausted m e ∧ s.freelist.length < 4 * k) ∨
        (e = .panic "remap" ∧ ∃ n, lo ≤ n ∧ n < lo + k ∧ n < 2 ^ 35 ∧ has (entry s.mem r n) pteP = true))
      (fun x => x.2 = newsz ∧ Space x.1 kpdpt r rest ∧ Grown Zeroed s x.1 r lo (lo + k)) := by
  induction k generalizing s a lo with
  | zero => exact ⟨rfl, h, Grown.nil s r lo (lo + 0) (by omega)⟩
  | succ k ih =>
    rw [allocLoop]
    refine (kalloc_ends hm h.owned).seq ?_ ?_
    · rintro e ⟨hex, hnil⟩
      exact .inl ⟨hex, by rw [hnil]; simp⟩
    · rintro x ⟨f, rest', hfree, hman, -, rfl, hown⟩
      simp only
      rw [if_neg (kva_ne_zero hman.small), memset_kva hman.small (hman.ram hfull), ok_bind, v2p_kva]
      have hadd := mappages_added lo (fun _ => 0) (Function.update s.refs f 1) hm hfull h hfree
        (hown.congr rfl rfl) ha hlo (by omega) isFlags_fresh (leafOk_fresh (f := f))
      refine hadd.seq ?_ ?_
      · rintro e (⟨hex, hlen⟩ | ⟨he, hpres⟩)
        · exact .inl ⟨hex, by omega⟩
        · exact .inr ⟨he, lo, by omega, by omega, by omega, hpres⟩
      · rintro ⟨s₁, x⟩ ⟨rfl, h₁, hadded⟩
        dsimp only at h₁ hadded ⊢
        rw [if_neg (by simp)]
        obtain ⟨new, hnew, hlen, -⟩ := hadded.free
        have hcount : s₁.freelist.length + 1 ≤ s.freelist.length ∧ s.freelist.length ≤ s₁.freelist.length + 4 := by
          rw [hnew]
          simp only [List.cons_append, List.length_cons, List.length_append]
          omega
        refine (ih h₁ (next_page ha (by omega)) (by omega) (by omega)).mono ?_ ?_
        · rintro e (⟨hex, hlen'⟩ | ⟨he, n, h₂, h₃, h₄, hpres⟩)
          · exact .inl ⟨hex, by omega⟩
          · refine .inr ⟨he, n, by omega, by omega, h₄, ?_⟩
            rwa [hadded.map n (by omega), if_neg (by omega)] at hpres
        · rintro x ⟨hx, hspace, hgrown⟩
          refine ⟨hx, hspace, ?_⟩
          rw [show lo + 1 + k = lo + (k + 1) by omega] at hgrown
          exact hadded.grown ⟨rfl, rfl⟩ (by omega) h₁ h.owned.counted.nodup hgrown (by omega)

/-- The first page that a loop starting at `PGROUNDUP(sz)` visits. -/
theorem pgRoundUp_page {sz : Word} (h : sz.toNat + 4095 < 2 ^ 64) : (pgRoundUp sz).toNat = pages sz * 4096 := by
  rw [pgRoundUp_toNat h, pages]

theorem pageCount_pages {sz sz' : Word} (h : sz.toNat + 4095 < 2 ^ 64) :
    pageCount (pgRoundUp sz) sz' = pages sz' - pages sz := by
  rw [pageCount, pgRoundUp_page h, pages, pages, pgSize]
  omega

theorem pages_mono {sz sz' : Word} (h : sz.toNat ≤ sz'.toNat) : pages sz ≤ pages sz' := by
  rw [pages, pages]
  omega

/-- `allocuvm` fails without effect, returns the old size, or has added the pages. -/
theorem allocuvm_ends (hm : m.oom ≠ .null) (hfull : m.Full) {oldsz newsz : Word} (h : Space s kpdpt r rest)
    (hpos : 0 < oldsz.toNat) (hroom : pages oldsz + s.freelist.length + 1 ≤ 2 ^ 35) :
    Ends (allocuvm m s (kva r) oldsz newsz)
      (fun e => (Exhausted m e ∧ s.freelist.length < 4 * (pages newsz - pages oldsz)) ∨
        (e = .panic "remap" ∧ ∃ n, pages oldsz ≤ n ∧ n < pages newsz ∧ n < 2 ^ 35 ∧
          has (entry s.mem r n) pteP = true))
      (fun x => (x = (s, 0) ∧ kernBase.toNat ≤ newsz.toNat) ∨
        (x = (s, oldsz) ∧ newsz.toNat < oldsz.toNat) ∨
        (x.2 = newsz ∧ oldsz.toNat ≤ newsz.toNat ∧ Space x.1 kpdpt r rest ∧
          Grown Zeroed s x.1 r (pages oldsz) (pages newsz))) := by
  rw [allocuvm]
  by_cases hk : kernBase.toNat ≤ newsz.toNat
  · rw [if_pos hk]
    exact .inl ⟨rfl, hk⟩
  · rw [if_neg hk]
    by_cases hlt : newsz.toNat < oldsz.toNat
    · rw [if_pos hlt]
      exact .inr (.inl ⟨rfl, hlt⟩)
    · rw [if_neg hlt]
      have hsmall : oldsz.toNat + 4095 < 2 ^ 64 := by
        rw [pages] at hroom
        omega
      have hle := pages_mono (Nat.not_lt.mp hlt)
      have hpos' : 0 < pages oldsz := by
        rw [pages]
        omega
      simp only [pageCount_pages hsmall]
      refine (allocLoop_ends hm hfull oldsz newsz _ h (pgRoundUp_page hsmall) hpos' hroom).mono ?_ ?_
      · rintro e (hex | ⟨he, n, h₁, h₂, hn, hpres⟩)
        · exact .inl hex
        · exact .inr ⟨he, n, h₁, by omega, hn, hpres⟩
      · rintro x ⟨hx, hspace, hgrown⟩
        rw [show pages oldsz + (pages newsz - pages oldsz) = pages newsz by omega] at hgrown
        exact .inr (.inr ⟨hx, Nat.not_lt.mp hlt, hspace, hgrown⟩)

/-- The pages from `lo` to `hi` are gone; the tables stay, and no frame that is still in use
changed. -/
structure Shrunk (s s' : State) (r lo hi : Nat) (rest : List Nat) : Prop where
  gone : ∀ n, lo ≤ n → n < hi → child (entry s'.mem r n) = none
  old : ∀ n, n < 2 ^ 36 → (n < lo ∨ hi ≤ n) → entry s'.mem r n = entry s.mem r n
  walk_eq : ∀ p, p.length < 4 → walk s'.mem r p = walk s.mem r p
  sub : ∀ g ∈ treeRefs s'.mem r, g ∈ treeRefs s.mem r
  contents : ∀ g ∈ treeRefs s'.mem r ++ r :: rest, ¬ IsTable s.mem r g → s'.mem g = s.mem g
  outside : ∀ g, ¬ Managed g → s'.mem g = s.mem g
  checksum : s'.checksum = s.checksum

theorem Shrunk.nil (s : State) (r lo hi : Nat) (rest : List Nat) (h : hi ≤ lo) : Shrunk s s r lo hi rest :=
  ⟨fun n h₁ h₂ => by omega, fun _ _ _ => rfl, fun _ _ => rfl, fun _ hg => hg, fun _ _ _ => rfl,
    fun _ _ => rfl, rfl⟩

theorem Shrunk.skip (h : Shrunk s s' r (lo + 1) hi rest) (hlo : lo < 2 ^ 36)
    (hnone : child (entry s.mem r lo) = none) :
    Shrunk s s' r lo hi rest := by
  refine ⟨?_, fun n hn hout => h.old n hn (by omega), h.walk_eq, h.sub, h.contents, h.outside,
    h.checksum⟩
  intro n h₁ h₂
  by_cases he : n = lo
  · subst he
    rw [h.old n hlo (by omega), hnone]
  · exact h.gone n (by omega) h₂

theorem Shrunk.trans (h : Shrunk s s₁ r lo k rest) (h' : Shrunk s₁ s' r k hi rest) (h₁ : lo ≤ k) (h₂ : k ≤ hi)
    (hk : k < 2 ^ 36) : Shrunk s s' r lo hi rest := by
  refine ⟨?_, ?_, ?_, fun g hg => h.sub g (h'.sub g hg), ?_,
    fun g hg => (h'.outside g hg).trans (h.outside g hg), h'.checksum.trans h.checksum⟩
  · intro n h₃ h₄
    by_cases he : n < k
    · rw [h'.old n (by omega) (.inl he), h.gone n h₃ he]
    · exact h'.gone n (by omega) h₄
  · intro n hn hout
    rw [h'.old n hn (by omega), h.old n hn (by omega)]
  · intro p hp
    rw [h'.walk_eq p hp, h.walk_eq p hp]
  · intro g hg hgt
    have hg₁ : g ∈ treeRefs s₁.mem r ++ r :: rest := by
      simp only [List.mem_append] at hg ⊢
      exact hg.imp_left (h'.sub g)
    rw [h'.contents g hg (fun ht => hgt ((isTable_congr h.walk_eq).mp ht)), h.contents g hg₁ hgt]

/-- Releasing the frame of a page and then clearing its entry. -/
theorem release_entry (hfull : m.Full) (h : Space s kpdpt r rest) (hn : n < 2 ^ 35)
    (hw : walk s.mem r (pagePath n) = some t) (hc : child (entry s.mem r n) = some f) :
    ∃ s₁, krelease m s (kva f) = .ok s₁ ∧ Space { s₁ with mem := setWord s₁.mem t (n % 512) 0 } kpdpt r rest ∧
      Shrunk s { s₁ with mem := setWord s₁.mem t (n % 512) 0 } r n (n + 1) rest := by
  have hmem : f ∈ treeRefs s.mem r := h.tree.leaf_mem rfl hc
  obtain ⟨R, hR⟩ : ∃ R, (treeRefs s.mem r).Perm (f :: R) := ⟨_, List.perm_cons_erase hmem⟩
  have hown : Owned Managed s (f :: (R ++ r :: rest)) := h.owned.perm (hR.append_right (r :: rest))
  obtain ⟨s₁, hrun, hown₁, hmem₁, hsum, -⟩ := krelease_kva hfull hown
  have hsame : ∀ u, IsTable s.mem r u → s₁.mem u = s.mem u := by
    intro u hu
    refine hmem₁ u (.inl ?_)
    rintro rfl
    exact h.tree.leaf_not_table rfl hc hu
  have htree₁ := h.tree.congr hsame
  have hrefs₁ := treeRefs_tables hsame
  have hwalk₁ : ∀ p, p.length < 4 → walk s₁.mem r p = walk s.mem r p := fun p hp => walk_tables hsame (by omega)
  have hentry₁ : ∀ n, entry s₁.mem r n = entry s.mem r n := fun n => pte_tables hsame rfl
  have hw₁ : walk s₁.mem r (pagePath n) = some t := by rw [hwalk₁ _ (by simp), hw]
  have hst : Stored s₁.mem (setWord s₁.mem t (n % 512) 0) r n 0 := stored_setWord htree₁.shape hn hw₁
  have hrefs := hst.exchange (by rw [hentry₁, hc]) (hrefs₁ ▸ hR)
  have hsub : ∀ g ∈ R, g ∈ treeRefs s.mem r :=
    fun g hg => hR.mem_iff.mpr (List.mem_cons_of_mem f hg)
  have htree : Tree (setWord s₁.mem t (n % 512) 0) kpdpt r :=
    tree_setEntry htree₁ hn hw₁ (by simp) (fun hp => by simp at hp) (by simp) (by simp)
  refine ⟨s₁, hrun, Space.exchange h.apart htree hrefs hsub (by simp) ?_, ?_⟩
  · rw [show child 0 = none from child_zero]
    exact hown₁.congr rfl rfl
  · refine ⟨?_, ?_, ?_, ?_, ?_, ?_, hsum⟩
    · intro n' h₁ h₂
      rw [hst.entry_eq (by omega) (by omega), if_pos (by omega)]
      exact child_zero
    · intro n' hn' hout
      rw [hst.entry_eq (by omega) hn', if_neg (by omega), hentry₁]
    · intro p hp
      rw [hst.walk_eq p hp, hwalk₁ p hp]
    · intro g hg
      exact hsub g (by simpa using hrefs.mem_iff.mp hg)
    · intro g hg hgt
      refine (hst.frame g (fun ht => hgt ((isTable_congr hwalk₁).mp ht))).trans ?_
      rw [List.mem_append, hrefs.mem_iff] at hg
      exact kept_of_held hmem₁ (by simpa using hg)
    · intro g hg
      refine (hst.frame g ?_).trans (hmem₁ g (.inl ?_))
      · rintro ⟨p, hp, hwp⟩
        exact hg (htree₁.shape.managed p g hp hwp)
      · rintro rfl
        exact hg (h.owned.of_held (List.mem_append_left _ hmem))

theorem deallocLoop_space (hfull : m.Full) (k : Nat) (h : Space s kpdpt r rest) (ha : a.toNat = lo * 4096)
    (hhi : lo + k ≤ 2 ^ 35) :
    ∃ s', deallocLoop m (kva r) k s a = .ok s' ∧ Space s' kpdpt r rest ∧ Shrunk s s' r lo (lo + k) rest := by
  induction k generalizing s a lo with
  | zero => exact ⟨s, rfl, h, Shrunk.nil s r lo (lo + 0) rest (by omega)⟩
  | succ k ih =>
    have hnext := next_page ha (by omega)
    have hshift : lo + 1 + k = lo + (k + 1) := by omega
    rw [deallocLoop, walkpgdir_page hfull h.tree ha (by omega), ok_bind]
    cases hw : walk s.mem r (pagePath lo) with
    | none =>
      obtain ⟨s', hrun, hspace, hsh⟩ := ih h hnext (by omega)
      rw [hshift] at hsh
      exact ⟨s', hrun, hspace, hsh.skip (by omega) (by rw [entry, pte_of_none hw]; exact child_zero)⟩
    | some t =>
      simp only [Option.map_some]
      rw [read_entry hfull h.tree hw, ok_bind]
      cases hc : child (entry s.mem r lo) with
      | none =>
        obtain ⟨s', hrun, hspace, hsh⟩ := ih h hnext (by omega)
        rw [hshift] at hsh
        rw [if_neg (by rw [child_eq_none.mp hc]; simp)]
        exact ⟨s', hrun, hspace, hsh.skip (by omega) hc⟩
      | some f =>
        have hman : Managed f := h.owned.of_held (List.mem_append_left _ (h.tree.leaf_mem rfl hc))
        have hne : pteAddr (entry s.mem r lo) ≠ 0 := by
          intro h0
          have hz := congrArg BitVec.toNat (pteAddr_eq (entry s.mem r lo))
          rw [h0, (child_eq_some.mp hc).2, frameAddr_toNat (by have := hman.small; omega)] at hz
          have := hman.1
          simp at hz
          omega
        rw [if_pos (child_eq_some.mp hc).1, if_neg hne, p2v_entry hc]
        obtain ⟨s₁, hrel, hspace₁, hsh₁⟩ := release_entry hfull h (by omega) hw hc
        obtain ⟨s', hrun, hspace, hsh⟩ := ih hspace₁ hnext (by omega)
        rw [hshift] at hsh
        rw [hrel, ok_bind, write_entry hfull (table_managed h.tree hw), ok_bind]
        exact ⟨s', hrun, hspace, hsh₁.trans hsh (by omega) (by omega) (by omega)⟩

/-- `deallocuvm` always returns. -/
theorem deallocuvm_space (hfull : m.Full) {oldsz newsz : Word} (h : Space s kpdpt r rest)
    (hold : pages oldsz ≤ 2 ^ 35) :
    ∃ x, deallocuvm m s (kva r) oldsz newsz = .ok x ∧ Space x.1 kpdpt r rest ∧
      ((x = (s, oldsz) ∧ oldsz.toNat ≤ newsz.toNat) ∨
        (x.2 = newsz ∧ newsz.toNat < oldsz.toNat ∧ Shrunk s x.1 r (pages newsz) (pages oldsz) rest)) := by
  rw [deallocuvm]
  by_cases hle : oldsz.toNat ≤ newsz.toNat
  · rw [if_pos hle]
    exact ⟨(s, oldsz), rfl, h, .inl ⟨rfl, hle⟩⟩
  · have hmono := pages_mono (Nat.le_of_not_le hle)
    have hsmall : newsz.toNat + 4095 < 2 ^ 64 := by
      rw [pages] at hold
      omega
    simp only [if_neg hle, pageCount_pages hsmall]
    obtain ⟨s', hrun, hspace, hsh⟩ := deallocLoop_space hfull (pages oldsz - pages newsz) h
      (pgRoundUp_page hsmall) (by omega)
    rw [show pages newsz + (pages oldsz - pages newsz) = pages oldsz by omega] at hsh
    simp only [hrun, ok_bind]
    exact ⟨(s', newsz), rfl, hspace, .inr ⟨rfl, by omega, hsh⟩⟩

end Xv6.UserPages
