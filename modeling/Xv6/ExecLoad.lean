import Xv6.Exec
import Xv6.FrameBooks

/-!
# Loading a program

While `exec` builds a page table, pages 1 to `n` of it are there, with frames from the free list,
and page 0 is not. The loader does not check that a segment starts at page 1 or above: `loaduvm`
then finds no table for page 0 and panics, or takes the address 0 out of an empty entry and stores
the file there.
-/
namespace Xv6.ExecLoad

open Words Mmu Memory Kalloc Vm Outcome PageTable AddressSpace PageNumber UserPages FreeVm Kernel
open KernelInv KernelStep Boot FrameBooks PageWalk Interleaving Exec

variable {off : BitVec 32} {bs b : List Byte} {size w : Word} {f : Nat} {P : Prop} {ph : Proghdr}
  {vm : State}

variable {m : Machine} {s₀ s s' : State} {kpdpt r n k q : Nat} {held : List Nat} {x : Image} {c : List Byte}
  {addr : Word} {offset sz i : BitVec 32}

def readable (c : List Byte) (offset sz : BitVec 32) : Nat → BitVec 32 → Bool
  | 0, _ => true
  | k + 1, i => (readExact c (offset + i) (chunk sz i)).isSome && readable c offset sz k (i + 0x1000)

def fileOff (ph : Proghdr) : BitVec 32 := ph.off.setWidth 32

def fileSize (ph : Proghdr) : BitVec 32 := ph.filesz.setWidth 32

def Loads (c : List Byte) (ph : Proghdr) : Bool :=
  readable c (fileOff ph) (fileSize ph) (((fileSize ph).toNat + (pgSize - 1)) / pgSize) 0

def sizeAfter (ph : Proghdr) (sz : Word) : Option Word :=
  let new := ph.vaddr + ph.memsz
  if ph.memsz.toNat < ph.filesz.toNat ∨ new.toNat < ph.vaddr.toNat ∨ kernBase.toNat ≤ new.toNat ∨
      ph.vaddr.toNat % pgSize ≠ 0 then none
  else some (if new.toNat < sz.toNat then sz else new)

/-- The size of the whole image, unless a check fails. -/
def layout (c : List Byte) : Nat → BitVec 32 → Word → Option Word
  | 0, _, sz => some sz
  | n + 1, off, sz =>
    match readExact c off 56 with
    | none => none
    | some b =>
      if (proghdr b).type ≠ elfProgLoad then layout c n (off + 56) sz
      else match sizeAfter (proghdr b) sz with
        | none => none
        | some sz => if Loads c (proghdr b) then layout c n (off + 56) sz else none

def Stores (c : List Byte) (offset sz i : BitVec 32) : Prop :=
  ∃ b bs, readi c (offset + i) (chunk sz i) = some (b :: bs)

/-- Bytes of the file are to go to page 0: there is no page table yet, or there is a byte to store.
-/
def Harmful (c : List Byte) (ph : Proghdr) (sz : Word) : Prop :=
  ph.vaddr = 0 ∧ fileSize ph ≠ 0 ∧ (sz.toNat ≤ 4096 ∨ Stores c (fileOff ph) (fileSize ph) 0)

/-- No header that the loop comes to does harm. -/
def Harmless (c : List Byte) : Nat → BitVec 32 → Word → Prop
  | 0, _, _ => True
  | n + 1, off, sz =>
    match readExact c off 56 with
    | none => True
    | some b =>
      if (proghdr b).type ≠ elfProgLoad then Harmless c n (off + 56) sz
      else match sizeAfter (proghdr b) sz with
        | none => True
        | some sz => ¬ Harmful c (proghdr b) sz ∧ (Loads c (proghdr b) = true → Harmless c n (off + 56) sz)

theorem chunk_le : (chunk sz i).toNat ≤ 4096 := by
  unfold chunk
  split
  · rename_i h
    rw [pgSize] at h
    omega
  · decide

theorem readi_length {n : BitVec 32} (h : readi c off n = some bs) : bs.length ≤ n.toNat := by
  simp only [readi] at h
  split at h
  · cases h
  · rename_i hno
    obtain rfl := Option.some.inj h
    rw [List.length_take]
    split
    · rename_i hlt
      refine (Nat.min_le_left _ _).trans ?_
      rw [BitVec.toNat_sub]
      rw [BitVec.toNat_add] at hlt hno
      have := (BitVec.ofNat 32 c.length).isLt
      have := off.isLt
      have := n.isLt
      omega
    · exact Nat.min_le_left _ _

theorem readExact_isSome {n : BitVec 32} (h : readi c off n = some bs) :
    (readExact c off n).isSome = decide (bs.length = n.toNat) := by
  rw [readExact, h, Option.filter_some]
  split <;> simp_all

theorem readExact_inside {n : BitVec 32} (hc : c.length < 2 ^ 32) (h : off.toNat + n.toNat ≤ c.length) :
    readExact c off n = some ((c.drop off.toNat).take n.toNat) := by
  have hsize : (BitVec.ofNat 32 c.length).toNat = c.length := Nat.mod_eq_of_lt hc
  have hadd : (off + n).toNat = off.toNat + n.toNat := by
    rw [BitVec.toNat_add]
    omega
  rw [readExact, readi]
  simp only [hsize, hadd]
  rw [if_neg (by omega), if_neg (by omega), Option.filter_some, if_pos]
  simp only [List.length_take, List.length_drop, decide_eq_true_eq]
  omega

/-- A new table with the pages from 1 to `n`; the frames are from the free list of `s₀`, and nothing
else that is in use has changed. -/
structure Building (s₀ s : State) (kpdpt r n : Nat) (held : List Nat) : Prop where
  space : Space s kpdpt r held
  pos : 0 < n
  page : ∀ k, 0 < k → k < n → ∃ f ∈ s₀.freelist, child (entry s.mem r k) = some f ∧ entry s.mem r k = freshEntry f
  other : ∀ k, k < 2 ^ 36 → (k = 0 ∨ n ≤ k) → entry s.mem r k = 0
  empty : n = 1 → walk s.mem r (pagePath 0) = none
  kept : ∀ g ∈ held, s.mem g = s₀.mem g
  sub : ∀ f ∈ s.freelist, f ∈ s₀.freelist
  few : n + s.freelist.length ≤ nframes + 1

theorem building_setup (h : Space s kpdpt r held) (hmade : Made s₀ s r) : Building s₀ s kpdpt r 1 held := by
  have hlen := owned_length h.owned
  refine ⟨h, by omega, fun k h₁ h₂ => by omega, fun k _ _ => hmade.entry_eq k, fun _ =>
    hmade.walk_eq _ (by simp [pagePath]), ?_, ?_,
    by omega⟩
  · intro g hg
    refine hmade.contents g ?_
    rintro rfl
    exact h.apart g (by simp) hg
  · intro f hf
    rw [hmade.free]
    exact List.mem_cons_of_mem r hf

def Good (s₀ s : State) (r : Nat) (w : Word) : Prop :=
  ∃ k f, k < 2 ^ 36 ∧ child (entry s.mem r k) = some f ∧ f ∈ s₀.freelist ∧ w = kva f

def Clean (s₀ : State) (r : Nat) (x : Image) : Prop := ∀ w ∈ x.written, Good s₀ x.vm r w

theorem Building.good_mono (h : Building s₀ s kpdpt r n held) (hg : Good s₀ s r w)
    (hsame : ∀ k, k < n → entry s'.mem r k = entry s.mem r k) : Good s₀ s' r w := by
  obtain ⟨k, f, hk, hc, hf, rfl⟩ := hg
  refine ⟨k, f, hk, ?_, hf, rfl⟩
  rw [hsame k]
  · exact hc
  · by_contra hge
    rw [h.other k hk (.inr (by omega))] at hc
    simp at hc

theorem not_managed_zero : ¬ Managed 0 := fun h => absurd h.1 (by decide)

/-- The physical page 0 is no frame of the image. -/
theorem not_good (hown : Owned Managed s₀ held) : ¬ Good s₀ s r (kva 0) := by
  rintro ⟨k, f, -, -, hf, he⟩
  have hman : Managed f := hown.managed f ((hown.counted.mem_free f).mp hf).1
  obtain rfl := kva_injective (by omega) hman.small he
  exact not_managed_zero hman

/-- A store to a frame that is neither a table of the image nor in use elsewhere. -/
theorem Building.store (page : Page) (h : Building s₀ s kpdpt r n held) (hf : ¬ IsTable s.mem r f)
    (hheld : f ∉ held) : Building s₀ { s with mem := setPage s.mem f page } kpdpt r n held ∧
      ∀ k, entry (setPage s.mem f page) r k = entry s.mem r k := by
  have hsame : ∀ t, IsTable s.mem r t → setPage s.mem f page t = s.mem t := by
    intro t ht
    refine setPage_other ?_ page
    rintro rfl
    exact hf ht
  have hentry : ∀ k, entry (setPage s.mem f page) r k = entry s.mem r k := fun k => pte_tables hsame rfl
  refine ⟨⟨h.space.congr hsame rfl rfl, h.pos, ?_, ?_, ?_, ?_, h.sub, h.few⟩, hentry⟩
  · intro k h₁ h₂
    show ∃ f' ∈ s₀.freelist, child (entry (setPage s.mem f page) r k) = some f' ∧ _
    rw [hentry k]
    exact h.page k h₁ h₂
  · intro k hk hout
    exact (hentry k).trans (h.other k hk hout)
  · intro hn
    exact (walk_tables hsame (by simp [pagePath])).trans (h.empty hn)
  · intro g hg
    refine (setPage_other ?_ page).trans (h.kept g hg)
    rintro rfl
    exact hheld hg

/-- No table is added where no page is. -/
theorem empty_grown {New : Nat → Nat → Word → Page → Prop} (h' : Space s' kpdpt r held)
    (hg : Grown New s s' r n n) (hnone : walk s.mem r (pagePath 0) = none) :
    walk s'.mem r (pagePath 0) = none := by
  cases hw : walk s'.mem r (pagePath 0) with
  | none => rfl
  | some t =>
    obtain ⟨used, hused, -, hlen, -⟩ := hg.free
    obtain rfl : used = [] := List.length_eq_zero_iff.mp (by omega)
    have ht : IsTable s'.mem r t := ⟨_, by simp [pagePath], hw⟩
    rcases hg.tables t ht with ⟨p, hp, hold⟩ | hfree
    · have hpath := h'.tree.shape.uniq p (pagePath 0) t hp (by simp [pagePath]) (hg.mono p t hp hold) hw
      rw [hpath, hnone] at hold
      cases hold
    · rw [hused, List.nil_append] at hfree
      have hheld := h'.tree.table_mem ht
      refine absurd hfree (fun hf => h'.owned.counted.not_mem_held hf ?_)
      simp only [List.mem_cons] at hheld
      rcases hheld with rfl | hheld
      · simp
      · exact List.mem_append_left _ hheld

theorem Building.grown {n' : Nat} (h : Building s₀ s kpdpt r n held) (h' : Space s' kpdpt r held)
    (hg : Grown Zeroed s s' r n n') (hle : n ≤ n') : Building s₀ s' kpdpt r n' held := by
  have hpos := h.pos
  obtain ⟨used, hused, hlen, -⟩ := hg.free
  have hlength := congrArg List.length hused
  rw [List.length_append] at hlength
  have hfew := h.few
  have hmax := nframes_eq
  refine ⟨h', by omega, ?_, ?_, ?_, ?_, ?_, by omega⟩
  · intro k h₁ h₂
    by_cases hk : k < n
    · rw [hg.old k (by omega) (.inl hk)]
      exact h.page k h₁ hk
    · obtain ⟨f, hf, hc, he, -⟩ := hg.new k (by omega) h₂
      exact ⟨f, h.sub f hf, hc, he⟩
  · intro k hk hout
    rw [hg.old k hk (by omega)]
    exact h.other k hk (by omega)
  · rintro rfl
    obtain rfl : n = 1 := by omega
    exact empty_grown h' hg (h.empty rfl)
  · intro g hgh
    obtain ⟨hfree, htab⟩ := h.space.other hgh
    rw [hg.contents g hfree htab]
    exact h.kept g hgh
  · intro f hf
    refine h.sub f ?_
    rw [hused]
    exact List.mem_append_right used hf

/-- `allocuvm` on the table: it refuses a size in the kernel's half, and otherwise the pages below
the larger of the two sizes are there. -/
theorem Building.allocuvm {oldsz : Word} (newsz : Word) (hm : m.oom ≠ .null) (hfull : m.Full)
    (h : Building s₀ s kpdpt r (pages oldsz) held) (hpos : 0 < oldsz.toNat) :
    Ends (allocuvm m s (kva r) oldsz newsz) (Exhausted m) (fun y =>
      if kernBase.toNat ≤ newsz.toNat then y = (s, 0) else
        y.2 = (if newsz.toNat < oldsz.toNat then oldsz else newsz) ∧ y.2 ≠ 0 ∧
          Building s₀ y.1 kpdpt r (pages y.2) held ∧ ∀ k < pages oldsz, entry y.1.mem r k = entry s.mem r k) := by
  have hfew := h.few
  have hmax := nframes_eq
  have hkern : kernBase.toNat = 0xFFFF800000000000 := rfl
  have hold : oldsz.toNat < 2 ^ 32 := by
    rw [pages] at hfew
    omega
  refine (allocuvm_ends hm hfull h.space hpos (by omega)).mono ?_ ?_
  · rintro e (⟨hex, -⟩ | ⟨-, k, h₁, -, hk, hp⟩)
    · exact hex
    · rw [h.other k (by omega) (.inr h₁)] at hp
      simp at hp
  · rintro ⟨s', sz⟩ (⟨heq, hk⟩ | ⟨heq, hlt⟩ | ⟨hsz, hle, hspace, hg⟩)
    · rw [if_pos hk]
      exact heq
    · obtain ⟨rfl, rfl⟩ := Prod.mk.inj heq
      rw [if_neg (by omega), if_pos hlt]
      refine ⟨rfl, ?_, h, fun _ _ => rfl⟩
      rintro rfl
      simp at hpos
    · have hsz : sz = newsz := hsz
      subst hsz
      obtain ⟨used, hused, hlen, -⟩ := hg.free
      have hlength := congrArg List.length hused
      rw [List.length_append] at hlength
      have hsmall : sz.toNat < 2 ^ 32 := by
        have : pages sz ≤ 2 ^ 17 := by omega
        rw [pages] at this
        omega
      rw [if_neg (by omega), if_neg (by omega)]
      refine ⟨rfl, ?_, h.grown hspace hg (pages_mono hle), fun k hk => hg.old k (by omega) (.inl hk)⟩
      rintro rfl
      simp at hle
      omega

/-- `loaduvm` stores to the frame that an entry names: a page of the image, or the physical page 0.
-/
theorem Building.memmove (hfull : m.Full) (h : Building s₀ s kpdpt r n held) (hq : q < n)
    (hlen : bs.length ≤ 4096) :
    ∃ f s', p2v (pteAddr (entry s.mem r q)) = kva f ∧ memmove m s (kva f) bs = .ok s' ∧
      Building s₀ s' kpdpt r n held ∧ (∀ k, entry s'.mem r k = entry s.mem r k) ∧
      s' = { s with mem := setPage s.mem f (putBytes (s.mem f) 0 bs) } ∧ ¬ IsTable s.mem r f ∧
      if q = 0 then f = 0 else child (entry s.mem r q) = some f ∧ f ∈ s₀.freelist := by
  have hmove : ∀ f, f + 1 < 2 ^ 35 → m.ram f = true →
      Memory.memmove m s (kva f) bs = .ok { s with mem := setPage s.mem f (putBytes (s.mem f) 0 bs) } :=
    fun f hf hram => memmove_frame hf hram bs (kva_toNat (by omega)) (by omega)
  by_cases h0 : q = 0
  · have htable : ¬ IsTable s.mem r 0 := by
      rintro ⟨p, hp, hw⟩
      exact not_managed_zero (h.space.tree.shape.managed p 0 hp hw)
    have hheld : 0 ∉ held := fun hmem => not_managed_zero (h.space.owned.of_held (by simp [hmem]))
    obtain ⟨hb, hentry⟩ := h.store (putBytes (s.mem 0) 0 bs) htable hheld
    refine ⟨0, _, ?_, hmove 0 (by omega) (hfull 0 (by decide)), hb, hentry, rfl, htable, by rw [if_pos h0]⟩
    rw [h0, h.other 0 (by omega) (.inl rfl)]
    rfl
  · obtain ⟨f, hf, hc, -⟩ := h.page q (by omega) hq
    have hmem := h.space.tree.leaf_mem rfl hc
    have hman : Managed f := h.space.owned.of_held (by simp [hmem])
    obtain ⟨hb, hentry⟩ := h.store (putBytes (s.mem f) 0 bs) (h.space.tree.leaf_not_table rfl hc)
      (h.space.apart f (by simp [hmem]))
    refine ⟨f, _, p2v_entry hc, hmove f hman.small' (hman.ram hfull), hb, hentry, rfl,
      h.space.tree.leaf_not_table rfl hc, ?_⟩
    rw [if_neg h0]
    exact ⟨hc, hf⟩

theorem Building.table (h : Building s₀ s kpdpt r n held) (hn : 1 < n) (hq : q < n) :
    ∃ t, walk s.mem r (pagePath q) = some t := by
  by_cases h0 : q = 0
  · obtain ⟨f, -, hc, -⟩ := h.page 1 (by omega) hn
    subst h0
    exact walk_of_pte hc
  · obtain ⟨f, -, hc, -⟩ := h.page q (by omega) hq
    exact walk_of_pte hc

structure LoadedTo (s₀ : State) (kpdpt r n q : Nat) (held : List Nat) (stores : Prop) (x x' : Image) : Prop where
  building : Building s₀ x'.vm kpdpt r n held
  entries : ∀ k, entry x'.vm.mem r k = entry x.vm.mem r k
  mono : ∀ w ∈ x.written, w ∈ x'.written
  good : ∀ w ∈ x'.written, w ∈ x.written ∨ Good s₀ x.vm r w ∨ (q = 0 ∧ stores)
  null : q = 0 → stores → kva 0 ∈ x'.written
  free : x'.vm.freelist = x.vm.freelist
  kept : ∀ g, IsTable x.vm.mem r g ∨ (g = 0 ∧ ¬ (q = 0 ∧ stores)) → x'.vm.mem g = x.vm.mem g

theorem LoadedTo.refl (h : Building s₀ x.vm kpdpt r n held) (stores : Prop) (hno : q = 0 → ¬ stores) :
    LoadedTo s₀ kpdpt r n q held stores x x :=
  ⟨h, fun _ => rfl, fun _ hw => hw, fun _ hw => .inl hw, fun h0 hs => absurd hs (hno h0), rfl, fun _ _ => rfl⟩

theorem Good.congr (h : Good s₀ s r w) (hsame : ∀ k, entry s'.mem r k = entry s.mem r k) : Good s₀ s' r w := by
  obtain ⟨k, f, hk, hc, hf, rfl⟩ := h
  exact ⟨k, f, hk, by rw [hsame]; exact hc, hf, rfl⟩

/-- One turn of the loop, at page `q`. -/
theorem loaded_turn (hb : Building s₀ s' kpdpt r n held)
    (hentry : ∀ k, entry s'.mem r k = entry x.vm.mem r k) (hn : n ≤ 2 ^ 36) (hq : q < n)
    (hframe : if q = 0 then f = 0 else child (entry x.vm.mem r q) = some f ∧ f ∈ s₀.freelist) (hP : P ↔ bs ≠ [])
    (hs' : s' = { x.vm with mem := setPage x.vm.mem f (putBytes (x.vm.mem f) 0 bs) })
    (htable : ¬ IsTable x.vm.mem r f)
    (hne : q ≠ 0 → f ≠ 0) :
    LoadedTo s₀ kpdpt r n q held P x ⟨s', if bs = [] then x.written else kva f :: x.written⟩ := by
  by_cases hnil : bs = []
  · have hsame : s' = x.vm := by
      rw [hs', hnil]
      simp [putBytes, setPage]
    simp only [hnil, ↓reduceIte, hsame]
    exact .refl (hsame ▸ hb) P fun _ h => hP.mp h hnil
  · simp only [hnil, ↓reduceIte]
    refine ⟨hb, hentry, fun _ hw => List.mem_cons_of_mem _ hw, ?_, ?_, by rw [hs'], ?_⟩
    · intro w hw
      rcases List.mem_cons.mp hw with rfl | hw
      · by_cases h0 : q = 0
        · exact .inr (.inr ⟨h0, hP.mpr hnil⟩)
        · rw [if_neg h0] at hframe
          exact .inr (.inl ⟨q, f, by omega, hframe.1, hframe.2, rfl⟩)
      · exact .inl hw
    · intro h0 _
      rw [if_pos h0] at hframe
      simp [hframe]
    · intro g hg
      rw [hs']
      refine setPage_other ?_ _
      rintro rfl
      rcases hg with ht | ⟨rfl, hno⟩
      · exact htable ht
      · exact hne (fun h0 => hno ⟨h0, hP.mpr hnil⟩) rfl

/-- A turn and the rest of the loop. -/
theorem LoadedTo.trans {P' : Prop} {x₁ x' : Image} (h : LoadedTo s₀ kpdpt r n q held P x x₁)
    (h' : LoadedTo s₀ kpdpt r n (q + 1) held P' x₁ x') : LoadedTo s₀ kpdpt r n q held P x x' := by
  refine ⟨h'.building, fun k => (h'.entries k).trans (h.entries k), fun w hw => h'.mono w (h.mono w hw), ?_,
    fun h0 hP => h'.mono _ (h.null h0 hP), h'.free.trans h.free, ?_⟩
  · intro w hw
    rcases h'.good w hw with hold | hgood | ⟨h0, -⟩
    · exact h.good w hold
    · exact .inr (.inl (hgood.congr (fun k => (h.entries k).symm)))
    · omega
  · intro g hg
    refine (h'.kept g ?_).trans (h.kept g hg)
    rcases hg with ht | ⟨rfl, -⟩
    · have hwalk (p : List Nat) (hp : p.length < 4) : walk x₁.vm.mem r p = walk x.vm.mem r p :=
        walk_tables (fun t ht => h.kept t (.inl ht)) (by omega)
      exact .inl ((isTable_congr hwalk).mpr ht)
    · exact .inr ⟨rfl, fun h0 => absurd h0.1 (by omega)⟩

theorem loadLoop_returns (hfull : m.Full) (k : Nat) (h : Building s₀ x.vm kpdpt r n held) (hn : 0 < k → 1 < n)
    (ha : addr.toNat + i.toNat = q * 4096) (hq : q + k ≤ n) :
    ∃ x', loadLoop m (kva r) addr c offset sz k x i = .ok (x', if readable c offset sz k i then 0 else -1) ∧
      LoadedTo s₀ kpdpt r n q held (0 < k ∧ Stores c offset sz i) x x' := by
  induction k generalizing x q i with
  | zero =>
    exact ⟨x, rfl, .refl h _ fun _ hs => absurd hs.1 (by omega)⟩
  | succ k ih =>
    have hfew := h.few
    have hmax := nframes_eq
    have hva : (addr + i.setWidth 64).toNat = q * 4096 := by
      rw [BitVec.toNat_add, BitVec.toNat_setWidth]
      omega
    have hnext : (i + 0x1000).toNat = i.toNat + 4096 := by
      rw [BitVec.toNat_add, show (0x1000 : BitVec 32).toNat = 4096 from rfl]
      omega
    obtain ⟨t, hw⟩ := h.table (hn (by omega)) (show q < n by omega)
    rw [loadLoop, walkpgdir_page hfull h.space.tree hva (by omega), ok_bind, hw]
    simp only [Option.map_some, read_entry hfull h.space.tree hw, ok_bind, readable]
    cases hr : readi c (offset + i) (chunk sz i) with
    | none =>
      refine ⟨x, by simp [readExact, hr, pure, Except.pure], .refl h _ ?_⟩
      rintro - ⟨-, b, bs, hs⟩
      rw [hr] at hs
      cases hs
    | some bs =>
      obtain ⟨f, vm', hptr, hmove, hb, hentry, hvm, htable, hframe⟩ :=
        h.memmove hfull (show q < n by omega) ((readi_length hr).trans chunk_le)
      have hstores : (0 < k + 1 ∧ Stores c offset sz i) ↔ bs ≠ [] := by
        simp only [Stores, hr, Option.some.injEq, Nat.succ_pos, true_and]
        cases bs <;> simp
      have hne : q ≠ 0 → f ≠ 0 := by
        rintro h0 rfl
        rw [if_neg h0] at hframe
        exact not_managed_zero (h.space.owned.of_held (List.mem_append_left _
          (h.space.tree.leaf_mem rfl hframe.1)))
      have hturn := loaded_turn hb hentry (by omega) (show q < n by omega) hframe hstores hvm htable hne
      simp only [hptr, hmove, ok_bind, readExact_isSome hr]
      by_cases hlen : bs.length = (chunk sz i).toNat
      · obtain ⟨x', hrun, hrest⟩ := ih (x := ⟨vm', if bs = [] then x.written else kva f :: x.written⟩) (q := q + 1)
          (i := i + 0x1000) hb (fun _ => hn (by omega)) (by omega) (by omega)
        exact ⟨x', by simpa [hlen] using hrun, hturn.trans hrest⟩
      · exact ⟨_, by simp [hlen, pure, Except.pure], hturn⟩

/-- Page 0 has no table while the image is no larger than a page. -/
theorem loaduvm_panics (hfull : m.Full) (h : Building s₀ x.vm kpdpt r 1 held) (hsz : sz ≠ 0) :
    loaduvm m x (kva r) 0 c offset sz = .error (.panic "loaduvm: address should exist") := by
  obtain ⟨k, hk⟩ : ∃ k, (sz.toNat + (pgSize - 1)) / pgSize = k + 1 := by
    refine ⟨_, (Nat.succ_pred_eq_of_pos ?_).symm⟩
    rw [← BitVec.toNat_ne_iff_ne] at hsz
    have hpos : sz.toNat ≠ 0 := hsz
    rw [pgSize]
    omega
  have hva : ((0 : Word) + (0 : BitVec 32).setWidth 64).toNat = 0 * 4096 := rfl
  rw [loaduvm, if_neg (by simp), hk, loadLoop, walkpgdir_page hfull h.space.tree hva (by omega),
    ok_bind, h.empty rfl]
  rfl

/-- `loaduvm` of a range below page `n`. -/
theorem loaduvm_ends (hfull : m.Full) (h : Building s₀ x.vm kpdpt r n held) (hal : addr.toNat % pgSize = 0)
    (hend : addr.toNat + sz.toNat ≤ n * 4096) :
    Ends (loaduvm m x (kva r) addr c offset sz) (fun _ => addr = 0 ∧ sz ≠ 0 ∧ n = 1) (fun y =>
      ¬ (addr = 0 ∧ sz ≠ 0 ∧ n = 1) ∧
      y.2 = (if readable c offset sz ((sz.toNat + (pgSize - 1)) / pgSize) 0 then 0 else -1) ∧
      LoadedTo s₀ kpdpt r n (addr.toNat / 4096) held (sz ≠ 0 ∧ Stores c offset sz 0) x y.1) := by
  rw [pgSize] at hal
  have hpos := h.pos
  have hturns : 0 < (sz.toNat + (pgSize - 1)) / pgSize ↔ sz ≠ 0 := by
    rw [pgSize, ← BitVec.toNat_ne_iff_ne]
    show 0 < (sz.toNat + 4095) / 4096 ↔ sz.toNat ≠ 0
    omega
  have hstart : addr.toNat + (0 : BitVec 32).toNat = addr.toNat / 4096 * 4096 := by
    rw [show (0 : BitVec 32).toNat = 0 from rfl]
    omega
  have hcount : addr.toNat / 4096 + (sz.toNat + (pgSize - 1)) / pgSize ≤ n := by
    rw [pgSize]
    omega
  by_cases hbad : addr = 0 ∧ sz ≠ 0 ∧ n = 1
  · obtain ⟨rfl, hsz, rfl⟩ := hbad
    rw [loaduvm_panics hfull h hsz]
    exact ⟨rfl, hsz, rfl⟩
  · have hn : 0 < (sz.toNat + (pgSize - 1)) / pgSize → 1 < n := by
      intro hk
      by_contra hle
      refine hbad ⟨?_, hturns.mp hk, by omega⟩
      apply BitVec.eq_of_toNat_eq
      show addr.toNat = 0
      omega
    obtain ⟨x', hrun, hloaded⟩ := loadLoop_returns hfull _ h hn hstart hcount
    rw [loaduvm, if_neg (by rw [pgSize]; omega), hrun]
    refine ⟨hbad, rfl, ?_⟩
    rw [hturns] at hloaded
    exact hloaded

theorem pages_eq_one (hsize : 0x1000 ≤ size.toNat) : pages size = 1 ↔ size.toNat ≤ 4096 := by
  rw [pages]
  omega

theorem fileSize_below (hend : ph.vaddr.toNat + ph.filesz.toNat ≤ size.toNat) :
    ph.vaddr.toNat + (fileSize ph).toNat ≤ pages size * 4096 := by
  have hcut : (fileSize ph).toNat ≤ ph.filesz.toNat := by
    rw [fileSize, BitVec.toNat_setWidth]
    exact Nat.mod_le _ _
  rw [pages]
  omega

/-- One segment, once `allocuvm` has made room for it. -/
theorem segment_ends (ph : Proghdr) (hfull : m.Full) (h : Building s₀ x.vm kpdpt r (pages size) held)
    (hsize : 0x1000 ≤ size.toNat) (hal : ph.vaddr.toNat % pgSize = 0)
    (hend : ph.vaddr.toNat + ph.filesz.toNat ≤ size.toNat) :
    Ends (loaduvm m x (kva r) ph.vaddr c (ph.off.setWidth 32) (ph.filesz.setWidth 32)) (fun _ => Harmful c ph size)
      (fun y => y.2 = (if Loads c ph then 0 else -1) ∧ Building s₀ y.1.vm kpdpt r (pages size) held ∧
        (∀ w ∈ x.written, w ∈ y.1.written) ∧ (¬ Harmful c ph size → Clean s₀ r x → Clean s₀ r y.1) ∧
        (Harmful c ph size → kva 0 ∈ y.1.written)) := by
  have hone := pages_eq_one hsize
  refine (loaduvm_ends hfull h hal (fileSize_below hend)).mono ?_ ?_
  · rintro e ⟨h₁, h₂, h₃⟩
    exact ⟨h₁, h₂, .inl (hone.mp h₃)⟩
  · rintro ⟨x', ret⟩ ⟨hno, hret, hloaded⟩
    refine ⟨hret, hloaded.building, hloaded.mono, ?_, ?_⟩
    · intro hharm hclean w hw
      rcases hloaded.good w hw with hold | hgood | ⟨h0, hne, hstores⟩
      · exact (hclean w hold).congr hloaded.entries
      · exact hgood.congr hloaded.entries
      · refine absurd ⟨?_, hne, .inr hstores⟩ hharm
        apply BitVec.eq_of_toNat_eq
        show ph.vaddr.toNat = 0
        rw [pgSize] at hal
        omega
    · rintro ⟨h₁, h₂, h₃⟩
      refine hloaded.null (by rw [h₁]; rfl) ⟨h₂, h₃.resolve_left ?_⟩
      intro hle
      exact hno ⟨h₁, h₂, hone.mpr hle⟩

structure Segments (s₀ : State) (kpdpt r : Nat) (held : List Nat) (harmless : Prop) (x y : Image)
    (size : Option Word) :
    Prop where
  building : ∃ n, Building s₀ y.vm kpdpt r n held ∧ ∀ sz, size = some sz → n = pages sz ∧ 0x1000 ≤ sz.toNat
  mono : ∀ w ∈ x.written, w ∈ y.written
  clean : harmless → Clean s₀ r x → Clean s₀ r y
  null : ¬ harmless → kva 0 ∈ y.written

theorem segments_stop {harmless : Prop} {y : Image} (h : Building s₀ y.vm kpdpt r n held)
    (hmono : ∀ w ∈ x.written, w ∈ y.written)
    (hclean : harmless → Clean s₀ r x → Clean s₀ r y) (hnull : ¬ harmless → kva 0 ∈ y.written) :
    Segments s₀ kpdpt r held harmless x y none :=
  ⟨⟨n, h, by simp⟩, hmono, hclean, hnull⟩

theorem sizeAfter_eq (h₁ : ¬ ph.memsz.toNat < ph.filesz.toNat)
    (h₂ : ¬ (ph.vaddr + ph.memsz).toNat < ph.vaddr.toNat) : sizeAfter ph size =
      if kernBase.toNat ≤ (ph.vaddr + ph.memsz).toNat ∨ ph.vaddr.toNat % pgSize ≠ 0 then none
      else some (if (ph.vaddr + ph.memsz).toNat < size.toNat then size else ph.vaddr + ph.memsz) := by
  simp only [sizeAfter, h₁, h₂, false_or]

theorem loadSegments_ends (hm : m.oom ≠ .null) (hfull : m.Full) (j : Nat)
    (h : Building s₀ x.vm kpdpt r (pages size) held) (hsize : 0x1000 ≤ size.toNat) :
    Ends (loadSegments m (kva r) c j x off size) (fun e => Exhausted m e ∨ ¬ Harmless c j off size) (fun y =>
      y.2 = layout c j off size ∧ Segments s₀ kpdpt r held (Harmless c j off size) x y.1 y.2) := by
  induction j generalizing x off size with
  | zero => exact ⟨rfl, ⟨_, h, by rintro _ ⟨⟩; exact ⟨rfl, hsize⟩⟩, fun _ hw => hw, fun _ hc =>
      hc, fun hn => absurd trivial hn⟩
  | succ j ih =>
    simp only [loadSegments, layout, Harmless]
    cases readExact c off 56 with
    | none => exact ⟨rfl, segments_stop h (fun _ hw => hw) (fun _ hc => hc) (by simp)⟩
    | some b =>
      simp only
      generalize proghdr b = ph
      by_cases htype : ph.type ≠ elfProgLoad
      · simp only [htype, ne_eq, not_false_eq_true, ↓reduceIte]
        exact ih h hsize
      simp only [htype, ↓reduceIte]
      by_cases h₁ : ph.memsz.toNat < ph.filesz.toNat
      · simp only [sizeAfter, h₁, true_or, ↓reduceIte]
        exact ⟨rfl, segments_stop h (fun _ hw => hw) (fun _ hc => hc) (by simp)⟩
      by_cases h₂ : (ph.vaddr + ph.memsz).toNat < ph.vaddr.toNat
      · simp only [sizeAfter, h₁, h₂, true_or, or_true, ↓reduceIte]
        exact ⟨rfl, segments_stop h (fun _ hw => hw) (fun _ hc => hc) (by simp)⟩
      simp only [h₁, h₂, ↓reduceIte]
      refine ((h.allocuvm (ph.vaddr + ph.memsz) hm hfull (by omega)).mono (fun e he =>
        .inl he) (fun _ hy => hy)).bind ?_
      rintro ⟨vm, size'⟩ hy
      rw [sizeAfter_eq h₁ h₂]
      by_cases hk : kernBase.toNat ≤ (ph.vaddr + ph.memsz).toNat
      · rw [if_pos hk] at hy
        obtain ⟨rfl, rfl⟩ := Prod.mk.inj hy
        simp only [hk, true_or, ↓reduceIte]
        exact ⟨rfl, segments_stop h (fun _ hw => hw) (fun _ hc => hc) (by simp)⟩
      rw [if_neg hk] at hy
      obtain ⟨hnew, hne, hb, hsame⟩ := hy
      dsimp only at hnew hne hb hsame
      have hgood : Clean s₀ r x → Clean s₀ r ⟨vm, x.written⟩ := fun hc w hw => h.good_mono (hc w hw) hsame
      simp only [hne, ↓reduceIte]
      by_cases hal : ph.vaddr.toNat % pgSize ≠ 0
      · simp only [hal, or_true, ne_eq, not_false_eq_true, ↓reduceIte]
        exact ⟨rfl, segments_stop hb (fun _ hw => hw) (fun _ hc => hgood hc) (by simp)⟩
      simp only [hk, hal, or_self, ↓reduceIte, ← hnew]
      have hlarge : size.toNat ≤ size'.toNat ∧ ph.vaddr.toNat + ph.filesz.toNat ≤ size'.toNat := by
        have hadd := BitVec.toNat_add ph.vaddr ph.memsz
        have := ph.vaddr.isLt
        have := ph.memsz.isLt
        rw [hnew]
        split <;> omega
      refine ((segment_ends (x := ⟨vm, x.written⟩) (c := c) ph hfull hb (by omega)
        (not_not.mp hal) hlarge.2).mono ?_
        (fun _ hy => hy)).bind ?_
      · intro e hharm
        exact .inr (fun hno => hno.1 hharm)
      · rintro ⟨x', ret⟩ ⟨hret, hb', hmono, hclean, hnull⟩
        dsimp only at hret hb' hmono hclean hnull
        subst hret
        by_cases hloads : Loads c ph = true
        · simp only [hloads, ↓reduceIte, Int.lt_irrefl, forall_const]
          refine (ih hb' (by omega)).mono ?_ ?_
          · rintro e (he | he)
            · exact .inl he
            · exact .inr (fun hno => he hno.2)
          · rintro ⟨y, size''⟩ ⟨hlayout, hrest⟩
            refine ⟨hlayout, hrest.building, fun w hw => hrest.mono w (hmono w hw),
              fun hno hc => hrest.clean hno.2 (hclean hno.1 (hgood hc)), ?_⟩
            intro hno
            by_cases hharm : Harmful c ph size'
            · exact hrest.mono _ (hnull hharm)
            · exact hrest.null (fun hno' => hno ⟨hharm, hno'⟩)
        · simp only [hloads, Bool.false_eq_true, ↓reduceIte, false_implies, and_true, not_not]
          exact ⟨rfl, segments_stop hb' hmono (fun hno hc => hclean hno (hgood hc)) (fun hharm =>
            hnull (not_not.mp hharm))⟩

/-- The loop at a header that passes the checks. -/
theorem loadSegments_load {size' : Word} {j : Nat}
    (hb : readExact c off 56 = some b) (hph : proghdr b = ph) (htype : ph.type = elfProgLoad)
    (h₁ : ph.filesz.toNat ≤ ph.memsz.toNat) (h₂ : ph.vaddr.toNat ≤ (ph.vaddr + ph.memsz).toNat)
    (halloc : allocuvm m x.vm (kva r) size (ph.vaddr + ph.memsz) = .ok (vm, size')) (hne : size' ≠ 0)
    (hal : ph.vaddr.toNat % pgSize = 0) :
    loadSegments m (kva r) c (j + 1) x off size = (do
      let (x, ret) ← loaduvm m ⟨vm, x.written⟩ (kva r) ph.vaddr c (ph.off.setWidth 32) (ph.filesz.setWidth 32)
      if ret < 0 then return (x, none) else loadSegments m (kva r) c j x (off + 56) size') := by
  rw [loadSegments, hb]
  simp only [hph, htype, ne_eq, not_true_eq_false, if_false, if_neg (Nat.not_lt.mpr h₁),
    if_neg (Nat.not_lt.mpr h₂), halloc,
    ok_bind, if_neg hne, hal]

def HarmlessFile (c : List Byte) : Prop :=
  ∀ b, readExact c 0 64 = some b → (elfhdr b).magic = elfMagic →
    Harmless c (elfhdr b).phnum ((elfhdr b).phoff.setWidth 32) 0x1000

def program (c : List Byte) : Option (Word × Word) :=
  match readExact c 0 64 with
  | none => none
  | some b =>
    if (elfhdr b).magic ≠ elfMagic then none
    else (layout c (elfhdr b).phnum ((elfhdr b).phoff.setWidth 32) 0x1000).map (fun sz => (sz, (elfhdr b).entry))

/-- What `loadProgram` leaves: nothing was done, or there is a new table. -/
def LoadedFrom (s : State) (kpdpt : Nat) (held : List Nat) (c : List Byte) (l : Loaded) : Prop :=
  (l.image = ⟨s, []⟩ ∧ l.pgdir = 0 ∧ l.program = none ∧ HarmlessFile c) ∨
    ∃ r vm, l.pgdir = kva r ∧ Managed r ∧ Segments s kpdpt r held (HarmlessFile c) ⟨vm, []⟩ l.image
      (l.program.map Prod.fst)

theorem loadProgram_ends (hm : m.oom ≠ .null) (hfull : m.Full) (hown : Owned Managed s held)
    (kpdpt : Nat) (c : List Byte) :
    Ends (loadProgram m (kva kpdpt) s c) (fun e => Exhausted m e ∨ ¬ HarmlessFile c) (fun l =>
      l.program = program c ∧ LoadedFrom s kpdpt held c l) := by
  rw [loadProgram, program]
  cases hb : readExact c 0 64 with
  | none =>
    refine ⟨rfl, .inl ⟨rfl, rfl, rfl, ?_⟩⟩
    intro b' hb'
    rw [hb] at hb'
    cases hb'
  | some b =>
    by_cases hmagic : (elfhdr b).magic ≠ elfMagic
    · simp only [hmagic, ne_eq, not_false_eq_true, ↓reduceIte]
      refine ⟨rfl, .inl ⟨rfl, rfl, rfl, ?_⟩⟩
      rintro b' hb' hm'
      rw [hb] at hb'
      obtain rfl := Option.some.inj hb'
      exact absurd hm' hmagic
    · have hharm : HarmlessFile c ↔ Harmless c (elfhdr b).phnum ((elfhdr b).phoff.setWidth 32) 0x1000 := by
        simp only [HarmlessFile, hb, Option.some.injEq, forall_eq']
        exact ⟨fun hc => hc (not_not.mp hmagic), fun hc _ => hc⟩
      simp only [hmagic, ↓reduceIte, hharm]
      refine ((setupkvm_space hm hfull hown).mono (fun e he => .inl he.1) (fun _ hy => hy)).bind ?_
      rintro ⟨vm, v⟩ ⟨r, hv, hman, hspace, hmade⟩
      dsimp only at hv hspace hmade
      simp only [hv, kva_ne_zero hman.small, ↓reduceIte]
      have hone : pages (0x1000 : Word) = 1 := rfl
      have hload : Ends (loadSegments m (kva r) c (elfhdr b).phnum ⟨vm,
        []⟩ ((elfhdr b).phoff.setWidth 32) 0x1000) _ _ :=
        loadSegments_ends (x := ⟨vm, []⟩) hm hfull _ (by rw [hone]; exact building_setup hspace hmade) (by decide)
      refine hload.bind ?_
      rintro ⟨y, size⟩ ⟨hlayout, hseg⟩
      dsimp only at hlayout hseg
      refine ⟨by rw [hlayout], .inr ⟨r, vm, rfl, hman, ?_⟩⟩
      have hsize : (size.map (fun sz => (sz, (elfhdr b).entry))).map Prod.fst = size := by
        cases size <;> rfl
      simp only [hharm, hsize]
      exact hseg

/-- The loader after an ELF header and `setupkvm`. -/
theorem loadProgram_header {kp p : Word} (hb : readExact c 0 64 = some b)
    (hmagic : (elfhdr b).magic = elfMagic) (hset : setupkvm m kp s = .ok (vm, p)) (hne : p ≠ 0) :
    loadProgram m kp s c = (do
      let (x, sz) ← loadSegments m p c (elfhdr b).phnum ⟨vm, []⟩ ((elfhdr b).phoff.setWidth 32) 0x1000
      return ⟨x, p, sz.map (fun sz => (sz, (elfhdr b).entry))⟩) := by
  rw [loadProgram, hb]
  simp only [if_neg (not_not.mpr hmagic), hset, ok_bind, if_neg hne]

/-- The table, if there is one, is as `freevm` needs it. -/
theorem LoadedFrom.space {l : Loaded} (h : LoadedFrom s kpdpt held c l) (hne : l.pgdir ≠ 0) :
    ∃ r, l.pgdir = kva r ∧ Space l.image.vm kpdpt r held := by
  rcases h with ⟨-, h0, -⟩ | ⟨r, vm, hr, -, hseg⟩
  · exact absurd h0 hne
  · obtain ⟨n, hb, -⟩ := hseg.building
    exact ⟨r, hr, hb.space⟩

/-- The loader returns, the way out over `bad` is open, and every address that `readi` stored to is
that of a frame from the free list that a page of the new table maps. -/
def LoadsSafely (m : Machine) (kpdpt : Word) (s : State) (c : List Byte) : Prop :=
  ∃ l, loadProgram m kpdpt s c = .ok l ∧ (l.pgdir ≠ 0 → ∃ vm, freevm m l.image.vm l.pgdir = .ok vm) ∧
    Clean s (ptrFrame l.pgdir) l.image

/-- While memory lasts the loader is safe for exactly the files without a byte for page 0. -/
theorem load_safe_iff (hown : Owned Managed s held) (c : List Byte)
    (hmem : ∀ e, Exhausted pc e → loadProgram pc (kva kpdpt) s c ≠ .error e) :
    LoadsSafely pc (kva kpdpt) s c ↔ HarmlessFile c := by
  have hends := loadProgram_ends pc_oom pc_full hown kpdpt c
  constructor
  · rintro ⟨l, hl, -, hclean⟩
    obtain ⟨-, hfrom⟩ := hends.of_ok hl
    by_contra hharm
    rcases hfrom with ⟨-, -, -, hno⟩ | ⟨r, vm, -, -, hseg⟩
    · exact hharm hno
    · exact not_good hown (hclean _ (hseg.null hharm))
  · intro hharm
    cases hl : loadProgram pc (kva kpdpt) s c with
    | error e =>
      rcases hends.of_error hl with he | he
      · exact absurd hl (hmem e he)
      · exact absurd hharm he
    | ok l =>
      obtain ⟨-, hfrom⟩ := hends.of_ok hl
      refine ⟨l, hl, ?_, ?_⟩
      · intro hne
        obtain ⟨r, hr, hspace⟩ := hfrom.space hne
        obtain ⟨vm, hrun, -⟩ := freevm_space pc_full hspace
        exact ⟨vm, by rw [hr]; exact hrun⟩
      · rcases hfrom with ⟨himage, -⟩ | ⟨r, vm, hr, hman, hseg⟩
        · simp [Clean, himage]
        · rw [hr, ptrFrame_kva hman.small]
          exact hseg.clean hharm (by simp [Clean])

/-- A program of one byte in the file and `n` in memory, at page `v / 16`. -/
def oneByte (v n : Byte) : List Byte :=
  [0x7f, 0x45, 0x4c, 0x46] ++ List.replicate 28 0 ++ [64] ++ List.replicate 23 0 ++ [1] ++
    List.replicate 7 0 ++ [1] ++
    List.replicate 16 0 ++ [v] ++ List.replicate 14 0 ++ [1] ++ List.replicate 7 0 ++ [n] ++ List.replicate 15 0

theorem oneByte_elfhdr (v n : Byte) : ∃ b, readExact (oneByte v n) 0 64 = some b ∧ elfhdr b =
    ⟨elfMagic, 0, 64, 1⟩ := by
  have hlen : (oneByte v n).length = 120 := rfl
  have h0 : (0 : BitVec 32).toNat = 0 := rfl
  have h64 : (64 : BitVec 32).toNat = 64 := rfl
  have htake : (oneByte v n).take 64 = (oneByte 0 0).take 64 := rfl
  refine ⟨(oneByte v n).take 64, ?_, ?_⟩
  · rw [readExact_inside (by omega) (by omega), h0, h64, List.drop_zero]
  · rw [htake]
    rfl

theorem oneByte_proghdr (v n : Byte) : readExact (oneByte v n) 64 56 = some (((oneByte v n).drop 64).take 56) := by
  have hlen : (oneByte v n).length = 120 := rfl
  have h64 : (64 : BitVec 32).toNat = 64 := rfl
  have h56 : (56 : BitVec 32).toNat = 56 := rfl
  rw [readExact_inside (by omega) (by omega), h64, h56]

theorem oneByte_zero : proghdr (((oneByte 0 1).drop 64).take 56) = ⟨elfProgLoad, 0, 0, 1, 1⟩ := rfl

theorem oneByte_one : proghdr (((oneByte 0x10 1).drop 64).take 56) = ⟨elfProgLoad, 0, 0x1000, 1, 1⟩ := rfl

/-- The loader comes to the one program header with an empty table. -/
theorem loadProgram_oneByte (v n : Byte) (hm : m.oom ≠ .null) (hfull : m.Full) (hown : Owned Managed s held)
    (hfree : s.freelist ≠ []) : ∃ vm r, Building s vm kpdpt r 1 held ∧ vm.freelist = s.freelist.tail ∧
      loadProgram m (kva kpdpt) s (oneByte v n) = (do
        let (x, sz) ← loadSegments m (kva r) (oneByte v n) 1 ⟨vm, []⟩ 64 0x1000
        return ⟨x, kva r, sz.map (fun sz => (sz, 0))⟩) := by
  have hends : Ends (setupkvm m (kva kpdpt) s) _ _ := setupkvm_space hm hfull hown
  obtain ⟨⟨vm, p⟩, hset, r, hp, hman, hspace, hmade⟩ := hends.returns (fun e he => hfree he.2)
  obtain ⟨b, hb, helf⟩ := oneByte_elfhdr v n
  dsimp only at hp hspace hmade
  subst hp
  refine ⟨vm, r, building_setup hspace hmade, by rw [hmade.free, List.tail_cons], ?_⟩
  rw [loadProgram_header hb (by rw [helf]) hset (kva_ne_zero hman.small), helf]
  rfl

/-- There is room for the page that the byte goes to. -/
theorem loadProgram_page_one (hown : Owned Managed s held) (hfree : 5 ≤ s.freelist.length) :
    ∃ l, loadProgram pc (kva kpdpt) s (oneByte 0x10 1) = .ok l := by
  obtain ⟨vm, r, hb, hvm, hload⟩ : ∃ vm r, Building s vm kpdpt r 1 held ∧ _ ∧ loadProgram pc (kva kpdpt) s _ = _ :=
    loadProgram_oneByte 0x10 1 pc_oom pc_full hown (by rintro h; simp [h] at hfree)
  have hlen := congrArg List.length hvm
  rw [List.length_tail] at hlen
  have hsum : (0x1000 + 1 : Word) = 0x1001 := rfl
  have hone : pages (0x1000 : Word) = 1 := rfl
  have htwo : pages (0x1001 : Word) = 2 := rfl
  have hmax := nframes_eq
  have hfew := hb.few
  have hends : Ends (allocuvm pc vm (kva r) 0x1000 0x1001) _ _ :=
    allocuvm_ends pc_oom pc_full hb.space (by decide) (by omega)
  obtain ⟨⟨vm', size'⟩, halloc, -⟩ := hends.returns (by
    rintro e (⟨-, hlt⟩ | ⟨-, n, h₁, h₂, h₃, hp⟩)
    · omega
    · rw [hb.other n (by omega) (by omega)] at hp
      simp at hp)
  have hbuilt : Ends (allocuvm pc vm (kva r) 0x1000 0x1001) _ _ :=
    Building.allocuvm 0x1001 pc_oom pc_full hb (by decide)
  have hsize := hbuilt.of_ok halloc
  rw [if_neg (by decide), if_neg (by decide)] at hsize
  obtain ⟨hsz, -, hb', -⟩ := hsize
  dsimp only at hsz hb'
  subst hsz
  have hno : ¬ Harmful (oneByte 0x10 1) ⟨elfProgLoad, 0, 0x1000, 1, 1⟩ 0x1001 := fun h => absurd h.1 (by decide)
  obtain ⟨⟨x', ret⟩, hseg, -⟩ := (segment_ends (x := ⟨vm', []⟩) (c := oneByte 0x10 1)
    ⟨elfProgLoad, 0, 0x1000, 1, 1⟩ pc_full hb' (by decide) (by decide) (by decide)).returns (fun _ => hno)
  rw [hload, loadSegments_load (oneByte_proghdr 0x10 1) oneByte_one rfl (by decide)
    (by decide) halloc (by decide) (by decide),
    hseg]
  by_cases hret : ret < 0
  · exact ⟨_, by simp only [ok_bind, if_pos hret]; rfl⟩
  · exact ⟨_, by simp only [ok_bind, if_neg hret]; rfl⟩

theorem load_safe_page_one : ∃ s : Sys, Reach (system pc) Plain s ∧
    LoadsSafely pc (kva s.kpdpt) s.vm (oneByte 0x10 1) := by
  obtain ⟨s, d, hreach, hinv, hfirst⟩ := exists_first_plain
  have hafter : sizeAfter ⟨elfProgLoad, 0, 0x1000, 1, 1⟩ 0x1000 = some 0x1001 := rfl
  have hno : ¬ Harmful (oneByte 0x10 1) ⟨elfProgLoad, 0, 0x1000, 1, 1⟩ 0x1001 := fun h => absurd h.1 (by decide)
  refine ⟨s, hreach, (load_safe_iff hinv.owned (oneByte 0x10 1) ?_).mpr ?_⟩
  · intro e _ herror
    obtain ⟨l, hl⟩ : ∃ l, loadProgram pc (kva s.kpdpt) s.vm (oneByte 0x10 1) = .ok l :=
      loadProgram_page_one hinv.owned (by have := hfirst.free; omega)
    rw [hl] at herror
    cases herror
  · intro b hb _
    obtain ⟨b', hb', helf⟩ := oneByte_elfhdr 0x10 1
    rw [hb] at hb'
    obtain rfl := Option.some.inj hb'
    have hoff : (64 : Word).setWidth 32 = (64 : BitVec 32) := rfl
    rw [helf]
    simp only [hoff, Harmless, oneByte_proghdr, oneByte_one, hafter, hno]
    simp

/-- What stops the loader stops `exec`. -/
theorem exec_error {k : Task} {c : List Byte} {e : Trap} (path : List Byte) (argv : List (List Byte))
    (h : loadProgram m k.kpdpt k.vm c = .error e) : exec m k path (some c) argv = .error e := by
  have hop : loadProgram m k.beginOp.namei.ilock.kpdpt k.beginOp.namei.ilock.vm c = .error e := h
  simp only [exec, hop]
  rfl

/-- A file with a byte for page 0 stops the kernel. -/
theorem zero_page_panics : ∃ s : Sys, Reach (system pc) Plain s ∧ 56830 ≤ s.vm.freelist.length ∧
    loadProgram pc (kva s.kpdpt) s.vm (oneByte 0 1) =
      .error (.panic "loaduvm: address should exist") ∧
    ∀ (k : Task) (path : List Byte) (argv : List (List Byte)), k.kpdpt = kva s.kpdpt → k.vm = s.vm →
      exec pc k path (some (oneByte 0 1)) argv =
        .error (.panic "loaduvm: address should exist") := by
  obtain ⟨s, d, hreach, hinv, hfirst⟩ := exists_first_plain
  have hfree := hfirst.free
  obtain ⟨vm, r, hb, -, hload⟩ : ∃ vm r, Building s.vm vm s.kpdpt r 1 _ ∧ _ ∧
    loadProgram pc (kva s.kpdpt) s.vm _ = _ :=
    loadProgram_oneByte 0 1 pc_oom pc_full hinv.owned (by rintro h; simp [h] at hfree)
  suffices hstop : loadProgram pc (kva s.kpdpt) s.vm (oneByte 0 1) = _ from
    ⟨s, hreach, hfree, hstop, fun k path argv hk hvm => exec_error path argv (by rw [hk, hvm, hstop])⟩
  have halloc : allocuvm pc vm (kva r) 0x1000 (0 + 1) = .ok (vm, 0x1000) := by
    rw [allocuvm, if_neg (by decide), if_pos (by decide)]
  have hpanic : loaduvm pc ⟨vm, []⟩ (kva r) 0 (oneByte 0 1) 0 1 =
    .error (.panic "loaduvm: address should exist") :=
    loaduvm_panics pc_full hb (by decide)
  have hcut : (1 : Word).setWidth 32 = (1 : BitVec 32) := rfl
  have hcut' : (0 : Word).setWidth 32 = (0 : BitVec 32) := rfl
  rw [hload, loadSegments_load (oneByte_proghdr 0 1) oneByte_zero rfl (by decide) (by decide) halloc
    (by decide) (by decide)]
  simp only [hcut, hcut', hpanic]
  rfl

end Xv6.ExecLoad
