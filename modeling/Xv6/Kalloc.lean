import Xv6.Memory
import Xv6.Outcome
import Xv6.RefCount

/-!
# The frame allocator

`kalloc.c`: a free list, kept as the list of its frames, and `frameinfo` with a reference count and
a checksum for each frame. The link word that `kfree` stores in a freed page is stored too, since
the page keeps it until its next owner clears it.

`Owned P s held` says that the books are right when the allocator manages the frames `P` and `held`
lists every reference.
-/
namespace Xv6.Kalloc

open Words Mmu Memory Outcome RefCount Function

def nframes : Nat := physTop / pgSize

/-- The linker symbol `end`, the first address after the kernel. -/
def kernelEnd : Word := 0xffff8000001fb000

theorem nframes_eq : nframes = 57344 := by decide

theorem kernelEnd_toNat : kernelEnd.toNat = 0xffff8000001fb000 := by decide

def getRefs (s : State) (i : Nat) : Except Trap Int :=
  if i < nframes then .ok (s.refs i) else .error (.frameinfoIndex i)

def setRefs (s : State) (i : Nat) (n : Int) : Except Trap State :=
  if i < nframes then .ok { s with refs := update s.refs i n } else .error (.frameinfoIndex i)

/-- The word `kmem.freelist`: a pointer to the first free page, or null. -/
def headPtr : List Nat → Word
  | [] => 0
  | f :: _ => kva f

/-- A word of bytes with the value 1, which `kfree` fills a page with. -/
def junk : Word := 0x0101010101010101

def kfree (m : Machine) (s : State) (v : Word) : Except Trap State := do
  if v.toNat % pgSize ≠ 0 ∨ v.toNat < kernelEnd.toNat ∨ physTop ≤ (v2p v).toNat then
    .error (.panic "kfree")
  else
    let s ← memset m s v junk
    let s ← write m s v (headPtr s.freelist)
    return { s with freelist := ptrFrame v :: s.freelist }

def kalloc (m : Machine) (s : State) : Except Trap (State × Word) :=
  if s.freelist = [] ∧ m.oom = .null then .ok (s, 0)
  else if s.freelist = [] ∧ m.oom = .stop then .error .outOfMemory
  else do
    let r := headPtr s.freelist
    let s ← setRefs { s with freelist := s.freelist.tail } (pgIndex (v2p r)) 1
    return (s, r)

def krelease (m : Machine) (s : State) (v : Word) : Except Trap State := do
  let frame := v2p v
  let n ← getRefs s (pgIndex frame)
  let s ← setRefs s (pgIndex frame) (n - 1)
  if n - 1 = 0 then kfree m s (p2v frame) else return s

def kretain (s : State) (v : Word) : Except Trap State := do
  let frame := v2p v
  let n ← getRefs s (pgIndex frame)
  setRefs s (pgIndex frame) (n + 1)

def krefcount (s : State) (v : Word) : Except Trap Int := getRefs s (pgIndex (v2p v))

def pageSum (page : Page) : Word :=
  (List.range npdEntries).foldl (fun sum i => sum + page i) 0

def updateChecksum (m : Machine) (s : State) (frame : Word) : Except Trap State := do
  if nframes ≤ pgIndex frame then .error (.frameinfoIndex (pgIndex frame))
  else
    let page ← readPage m s (p2v frame)
    return { s with checksum := update s.checksum (pgIndex frame) (pageSum page) }

def samePage (p q : Page) : Bool := (List.range npdEntries).all (fun i => p i == q i)

def framesAreIdentical (m : Machine) (s : State) (frame1 frame2 : Word) : Except Trap Bool := do
  if nframes ≤ pgIndex frame1 then .error (.frameinfoIndex (pgIndex frame1))
  else if nframes ≤ pgIndex frame2 then .error (.frameinfoIndex (pgIndex frame2))
  else if s.checksum (pgIndex frame1) ≠ s.checksum (pgIndex frame2) then return false
  else
    let p ← readPage m s (p2v frame1)
    let q ← readPage m s (p2v frame2)
    return samePage p q

def kfreepagecount (s : State) : Nat := s.freelist.length

/-- The loop of `freerange`, over the pages that end at or before `vend`. -/
def freePages (m : Machine) (p : Word) : State → Nat → Except Trap State
  | s, 0 => .ok s
  | s, n + 1 => do
    let s ← kfree m s p
    freePages m (p + 0x1000) s n

def freerange (m : Machine) (s : State) (vstart vend : Word) : Except Trap State :=
  let p := pgRoundUp vstart
  freePages m p s ((vend.toNat - p.toNat) / pgSize)

def kinit1 (m : Machine) (s : State) (vstart vend : Word) : Except Trap State :=
  freerange m { s with refs := fun _ => 0, checksum := fun _ => 0, freelist := [] } vstart vend

def kinit2 (m : Machine) (s : State) (vstart vend : Word) : Except Trap State := freerange m s vstart vend

/-- A frame the kernel may hand out. -/
def Managed (f : Nat) : Prop := 0x1fb ≤ f ∧ f < nframes

instance : DecidablePred Managed := fun f => inferInstanceAs (Decidable (0x1fb ≤ f ∧ f < nframes))

theorem Managed.lt {f : Nat} (h : Managed f) : f < nframes := h.2

theorem Managed.small {f : Nat} (h : Managed f) : f < 2 ^ 35 := by
  have := h.2
  rw [nframes_eq] at this
  omega

theorem Managed.small' {f : Nat} (h : Managed f) : f + 1 < 2 ^ 35 := by
  have := h.2
  rw [nframes_eq] at this
  omega

theorem Managed.ram {f : Nat} (h : Managed f) {m : Machine} (hm : m.Full) : m.ram f = true := hm f h.2

structure Owned (P : Nat → Prop) (s : State) (held : List Nat) : Prop where
  counted : Counted P s.freelist s.refs held
  managed : ∀ f, P f → Managed f

variable {P : Nat → Prop} {m : Machine} {s s' : State} {held held' : List Nat} {f : Nat}

theorem Owned.perm (h : Owned P s held) (hp : held.Perm held') : Owned P s held' :=
  ⟨h.counted.perm hp, h.managed⟩

theorem Owned.of_held (h : Owned P s held) (hf : f ∈ held) : Managed f :=
  h.managed f (h.counted.managed_held f hf)

/-- The books say nothing about the contents of memory. -/
theorem Owned.congr (h : Owned P s held) (hfree : s'.freelist = s.freelist) (hrefs : s'.refs = s.refs) :
    Owned P s' held := by
  refine ⟨?_, h.managed⟩
  rw [hfree, hrefs]
  exact h.counted

def Exhausted (m : Machine) (t : Trap) : Prop :=
  (m.oom = .store ∧ t = .frameinfoIndex (2 ^ 35)) ∨ (m.oom = .stop ∧ t = .outOfMemory)

theorem kalloc_cons {rest : List Nat} (hs : s.freelist = f :: rest) (hf : Managed f) :
    kalloc m s = .ok ({ s with freelist := rest, refs := update s.refs f 1 }, kva f) := by
  have hidx : pgIndex (v2p (kva f)) = f := ptrFrame_kva hf.small
  simp only [kalloc, hs, reduceCtorEq, false_and, ↓reduceIte, headPtr, hidx, setRefs, if_pos hf.lt, List.tail_cons]
  rfl

/-- On an empty list the code computes an index past the end of `frameinfo`. -/
theorem kalloc_nil (hs : s.freelist = []) :
    kalloc m s = match m.oom with
      | .store => .error (.frameinfoIndex (2 ^ 35))
      | .null => .ok (s, 0)
      | .stop => .error .outOfMemory := by
  have hidx : pgIndex (v2p 0) = 2 ^ 35 := by decide
  cases hm : m.oom with
  | null | stop => simp [kalloc, hs, hm]
  | store =>
    simp only [kalloc, hs, hm, reduceCtorEq, and_false, ↓reduceIte, headPtr, hidx, setRefs]
    rw [if_neg (by decide)]
    rfl

/-- `kalloc` on any machine: a null pointer is a result where the machine says so. -/
theorem kalloc_any (m : Machine) (h : Owned P s held) :
    Ends (kalloc m s) (fun t => Exhausted m t ∧ s.freelist = []) (fun r =>
      (r = (s, 0) ∧ m.oom = .null ∧ s.freelist = []) ∨ ∃ f rest,
        s.freelist = f :: rest ∧ Managed f ∧ f ∉ held ∧
        r = ({ s with freelist := rest, refs := update s.refs f 1 }, kva f) ∧
        Owned P r.1 (f :: held)) := by
  cases hs : s.freelist with
  | nil =>
    rw [kalloc_nil hs]
    cases ho : m.oom with
    | store => exact ⟨.inl ⟨ho, rfl⟩, rfl⟩
    | null => exact .inl ⟨rfl, rfl, rfl⟩
    | stop => exact ⟨.inr ⟨ho, rfl⟩, rfl⟩
  | cons f rest =>
    have hfree : f ∈ s.freelist := by simp [hs]
    have hf : Managed f := h.managed f ((h.counted.mem_free f).mp hfree).1
    rw [kalloc_cons hs hf]
    refine .inr ⟨f, rest, rfl, hf, h.counted.not_mem_held hfree, rfl, ?_, h.managed⟩
    have hc := h.counted
    rw [hs] at hc
    exact hc.alloc

theorem kalloc_ends (hm : m.oom ≠ .null) (h : Owned P s held) :
    Ends (kalloc m s) (fun t => Exhausted m t ∧ s.freelist = []) (fun r => ∃ f rest,
      s.freelist = f :: rest ∧ Managed f ∧ f ∉ held ∧
      r = ({ s with freelist := rest, refs := update s.refs f 1 }, kva f) ∧
      Owned P r.1 (f :: held)) :=
  (kalloc_any m h).imp (fun _ hr => hr.resolve_left (fun hnull => hm hnull.2.1))

/-- `kfree` accepts the pages of the managed frames. -/
theorem kfree_guard (hf : Managed f) :
    ¬ ((kva f).toNat % pgSize ≠ 0 ∨ (kva f).toNat < kernelEnd.toNat ∨ physTop ≤ (v2p (kva f)).toNat) := by
  have halign : (kva f).toNat % pgSize = 0 := by
    rw [kva_toNat hf.small, pgSize]
    omega
  have hend : kernelEnd.toNat ≤ (kva f).toNat := by
    have hge := hf.1
    rw [kva_toNat hf.small, kernelEnd_toNat]
    omega
  have htop : (v2p (kva f)).toNat < physTop := by
    have hlt := hf.2
    rw [nframes_eq] at hlt
    rw [v2p_kva, frameAddr_toNat (by omega), physTop]
    omega
  rintro (h | h | h)
  · exact h halign
  · exact Nat.not_lt.mpr hend h
  · exact Nat.not_le.mpr htop h

theorem kfree_kva (hfull : m.Full) (hf : Managed f) :
    ∃ page, kfree m s (kva f) = .ok { s with mem := setPage s.mem f page, freelist := f :: s.freelist } := by
  have hsmall := hf.small
  have hram := hf.ram hfull
  have hmem : setWord (setPage s.mem f fun _ => junk) f 0 (headPtr s.freelist) =
      setPage s.mem f (update (fun _ => junk) 0 (headPtr s.freelist)) := by
    rw [setWord, setPage_same, setPage, setPage, setPage, update_idem]
  refine ⟨update (fun _ => junk) 0 (headPtr s.freelist), ?_⟩
  rw [kfree, if_neg (kfree_guard hf), memset_kva hsmall hram, ok_bind, write_kva hsmall hram, ok_bind,
    ptrFrame_kva hsmall]
  simp only [hmem]
  rfl

theorem krelease_kva (hfull : m.Full) (h : Owned P s (f :: held)) :
    ∃ s', krelease m s (kva f) = .ok s' ∧ Owned P s' held ∧
      (∀ g, g ≠ f ∨ f ∈ held → s'.mem g = s.mem g) ∧ s'.checksum = s.checksum ∧
      s'.freelist = (if f ∈ held then s.freelist else f :: s.freelist) := by
  have hf : Managed f := h.of_held (by simp)
  have hidx : pgIndex (v2p (kva f)) = f := ptrFrame_kva hf.small
  have hzero := h.counted.release_zero_iff
  simp only [krelease, hidx, getRefs, if_pos hf.lt, ok_bind, setRefs, p2v_v2p]
  by_cases hin : f ∈ held
  · rw [if_neg (by rw [hzero]; simpa using hin)]
    exact ⟨_, rfl, ⟨h.counted.release_shared hin, h.managed⟩, fun g _ => rfl, rfl, by rw [if_pos hin]⟩
  · rw [if_pos (hzero.mpr hin)]
    obtain ⟨page, hk⟩ := kfree_kva (s := { s with refs := update s.refs f (s.refs f - 1) }) hfull hf
    refine ⟨_, hk, ⟨h.counted.release_last hin, h.managed⟩, ?_, rfl, by rw [if_neg hin]⟩
    intro g hg
    exact setPage_other (hg.resolve_right hin) page

/-- Frames that are held are managed. -/
theorem Owned.filter_managed {new : List Nat} (h : Owned P s (new ++ held)) : new.filter Managed = new :=
  List.filter_eq_self.mpr fun f hf => by simpa using h.of_held (List.mem_append_left held hf)

/-- `krelease` of any frame below the end of the address space: one that the allocator does not
manage is not freed. -/
theorem krelease_any (m : Machine) (hfull : m.Full) (hf : f < 2 ^ 52)
    (h : Owned Managed s ([f].filter Managed ++ held)) :
    Ends (krelease m s (kva f)) (fun _ => ¬ Managed f)
      (fun s' => Owned Managed s' held ∧ ∀ g ∈ held, s'.mem g = s.mem g) := by
  by_cases hman : Managed f
  · rw [List.filter_cons_of_pos (by simpa using hman), List.filter_nil] at h
    obtain ⟨s', hrun, hown, hmem, -, -⟩ := krelease_kva hfull h
    rw [hrun]
    refine ⟨hown, fun g hg => hmem g ?_⟩
    by_cases hgf : g = f
    · exact .inr (hgf ▸ hg)
    · exact .inl hgf
  · rw [List.filter_cons_of_neg (by simpa using hman), List.filter_nil, List.nil_append] at h
    have hidx : pgIndex (v2p (kva f)) = f := by
      rw [v2p_kva, pgIndex, frameAddr_toNat hf, pgSize]
      omega
    rw [krelease]
    simp only [hidx, getRefs, setRefs]
    by_cases hlt : f < nframes
    · have hlow : f < 0x1fb := by
        by_contra hge
        exact hman ⟨by omega, hlt⟩
      simp only [if_pos hlt, ok_bind, p2v_v2p]
      split
      · have hguard : (kva f).toNat < kernelEnd.toNat := by
          rw [kva_toNat (by omega), kernelEnd_toNat]
          omega
        rw [kfree, if_pos (.inr (.inl hguard))]
        exact hman
      · refine ⟨⟨⟨h.counted.nodup, h.counted.mem_free, h.counted.managed_held, fun g hg => ?_⟩,
          h.managed⟩, fun _ _ => rfl⟩
        have hgf : g ≠ f := by
          rintro rfl
          exact hman (h.of_held hg)
        exact (update_of_ne hgf _ _).trans (h.counted.count g hg)
    · rw [if_neg hlt]
      exact hman

theorem kept_of_held {mem mem' : Mem} {g : Nat}
    (hmem : ∀ g, g ≠ f ∨ f ∈ held → mem' g = mem g) (hg : g ∈ held) : mem' g = mem g := by
  by_cases he : g = f
  · exact hmem g (.inr (he ▸ hg))
  · exact hmem g (.inl he)

theorem kretain_kva (h : Owned P s held) (hf : f ∈ held) :
    kretain s (kva f) = .ok { s with refs := update s.refs f (s.refs f + 1) } ∧
      Owned P { s with refs := update s.refs f (s.refs f + 1) } (f :: held) := by
  have hm := h.of_held hf
  have hidx : pgIndex (v2p (kva f)) = f := ptrFrame_kva hm.small
  refine ⟨?_, h.counted.retain hf, h.managed⟩
  simp only [kretain, hidx, getRefs, if_pos hm.lt, ok_bind, setRefs]

theorem updateChecksum_frame (hfull : m.Full) (hf : Managed f) :
    updateChecksum m s (frameAddr f) =
      .ok { s with checksum := update s.checksum f (pageSum (s.mem f)) } := by
  have hidx : pgIndex (frameAddr f) = f := pgIndex_frameAddr (by have := hf.small; omega)
  have hlt : ¬ nframes ≤ f := Nat.not_le.mpr hf.lt
  simp only [updateChecksum, hidx, if_neg hlt]
  rw [show p2v (frameAddr f) = kva f from rfl, readPage_kva hf.small (hf.ram hfull)]
  rfl

theorem framesAreIdentical_frames (hfull : m.Full) {g : Nat} (hf : Managed f) (hg : Managed g) :
    framesAreIdentical m s (frameAddr f) (frameAddr g) =
      .ok (decide (s.checksum f = s.checksum g) && samePage (s.mem f) (s.mem g)) := by
  have hidx : pgIndex (frameAddr f) = f := pgIndex_frameAddr (by have := hf.small; omega)
  have hidy : pgIndex (frameAddr g) = g := pgIndex_frameAddr (by have := hg.small; omega)
  simp only [framesAreIdentical, hidx, hidy, if_neg (Nat.not_le.mpr hf.lt), if_neg (Nat.not_le.mpr hg.lt)]
  by_cases hc : s.checksum f = s.checksum g
  · rw [if_neg (by simpa using hc), show p2v (frameAddr f) = kva f from rfl,
      show p2v (frameAddr g) = kva g from rfl,
      readPage_kva hf.small (hf.ram hfull), readPage_kva hg.small (hg.ram hfull)]
    simp [hc, pure, Except.pure]
  · rw [if_pos hc]
    simp [hc, pure, Except.pure]

theorem samePage_iff {p q : Page} : samePage p q = true ↔ ∀ i < 512, p i = q i := by
  simp [samePage, npdEntries]

end Xv6.Kalloc
