import Xv6.UmallocMalloc

/-!
# Programs that allocate

In every run of a program that frees what it got, once, and stores to its blocks only, the blocks of
the program and the free blocks are what `sbrk` has given, byte for byte, as long as that is fewer
headers than a `uint` can count. When everything is freed, memory that was given in one piece is one
block again.
-/
namespace Xv6.Umalloc

open Interleaving RangeLayout Function

variable {env : Env} {h h' : Heap} {F A L : List Range} {r : Range} {w w' : World} {ap n k : Nat}

def blockOf (h : Heap) (x : Nat × Nat) : Range := ⟨x.1 - 16, 16 * (h.mem (x.1 - 16)).size⟩

/-- The heap of a program has not been used, or it is as `malloc` and `free` keep it. -/
def Kept (env : Env) (w : World) : Prop :=
  (w.heap.freep = 0 ∧ w.heap.got = [] ∧ w.live = []) ∨
    (w.heap.freep ≠ 0 ∧ (∃ F, Books env w.heap F (w.live.map (blockOf w.heap))) ∧
      ∀ x ∈ w.live, 16 ≤ x.1 ∧ x.2 + 16 ≤ (blockOf w.heap x).len)

theorem books_start (h0 : h.freep = 0) (hgot : h.got = []) : Books env (start env h) [⟨env.base, 0⟩] [] := by
  rw [start, if_pos h0]
  refine ⟨⟨rfl, ?_, ?_, by simp⟩, ⟨List.pairwise_singleton _ _, ?_, ?_⟩, by simp, by simp, by simp, ?_, ?_⟩
  · show (update h.mem env.base ⟨env.base, 0⟩ env.base).ptr = env.base
    rw [update_self]
  · simp
  all_goals simp [hgot, allBytes, total, Range.bytes]

theorem Kept.books (hk : Kept env w) : ∃ F, Books env (start env w.heap) F (w.live.map (blockOf w.heap)) := by
  rcases hk with ⟨h0, hgot, hlive⟩ | ⟨hne, hbooks, -⟩
  · rw [hlive]
    exact ⟨_, books_start h0 hgot⟩
  · rw [start, if_neg hne]
    exact hbooks

theorem malloc_returns (hfew : env.Few) (hk : Kept env w) (nbytes : BitVec 32) : ∃ F h' ap,
    Books env (start env w.heap) F (w.live.map (blockOf w.heap)) ∧
    (∃ N, ∀ fuel, N ≤ fuel → malloc env fuel w.heap nbytes = some (h', ap)) ∧
    Allocates env (start env w.heap) F (w.live.map (blockOf w.heap)) (nunits nbytes) h' ap := by
  obtain ⟨F, hb⟩ := hk.books
  obtain ⟨h', ap, hrun, hall⟩ := mallocLoop_returns hfew hb (n := nunits nbytes) (by rw [nunits_eq]; omega)
  exact ⟨F, h', ap, hb, hrun, hall⟩

theorem blockOf_eq {x : Nat × Nat} (hsize : 16 * (h'.mem (blockOf h x).addr).size = (blockOf h x).len) :
    blockOf h' x = blockOf h x := by
  rw [blockOf, show x.1 - 16 = (blockOf h x).addr from rfl, hsize]

/-- The blocks of a program do not notice what happens to the rest of the heap. -/
theorem Books.blocks_eq {L : List (Nat × Nat)} (hb : Books env h' F A) (hsub : ∀ r ∈ L.map (blockOf h), r ∈ A) :
    ∀ x ∈ L, blockOf h' x = blockOf h x :=
  fun _ hx => blockOf_eq (hb.sizes _ (hsub _ (List.mem_map_of_mem hx)))

theorem Kept.large (hk : Kept env w) : ∀ x ∈ w.live, 16 ≤ x.1 ∧ x.2 + 16 ≤ (blockOf w.heap x).len := by
  rcases hk with ⟨-, -, hlive⟩ | ⟨-, -, hlarge⟩
  · simp [hlive]
  · exact hlarge

/-- The heap has the blocks of the program, whatever it has besides. -/
theorem kept_of_books {L : List (Nat × Nat)} (hb : Books env h' F (L.map (blockOf h)))
    (hlarge : ∀ x ∈ L, 16 ≤ x.1 ∧ x.2 + 16 ≤ (blockOf h x).len) : Kept env ⟨h', L⟩ := by
  have hsame := hb.blocks_eq (L := L) fun r hr => hr
  refine .inr ⟨hb.freep_ne, ⟨F, ?_⟩, fun x hx => ?_⟩
  · rw [List.map_congr_left hsame]
    exact hb
  · dsimp only
    rw [hsame x hx]
    exact hlarge x hx

theorem kept_malloc (hfew : env.Few) (hk : Kept env w) {nbytes : BitVec 32}
    (hrun : malloc env k w.heap nbytes = some (h', ap)) :
    Kept env ⟨h', if ap = 0 then w.live else (ap, nbytes.toNat) :: w.live⟩ := by
  obtain ⟨F, h₁, ap₁, hb, ⟨N, hret⟩, hall⟩ := malloc_returns hfew hk nbytes
  have hmono := mallocLoop_mono hrun (Nat.le_max_left k N)
  rw [show mallocLoop _ _ _ _ _ _ = _ from hret _ (Nat.le_max_right k N)] at hmono
  cases hmono
  by_cases h0 : ap = 0
  · obtain ⟨rfl, -, -⟩ := hall.refused h0
    rw [if_pos h0]
    obtain ⟨hl, hlay, hs, hf, hu, ha, hfw⟩ := hb
    exact kept_of_books ⟨hl, hlay, hs, hf, hu, ha, hfw⟩ hk.large
  · obtain ⟨a, F', rfl, hb'⟩ := hall.given h0
    rw [if_neg h0]
    have hsize := hb'.sizes ⟨a, 16 * nunits nbytes⟩ (by simp)
    have hnew : blockOf h' (a + 16, nbytes.toNat) = ⟨a, 16 * nunits nbytes⟩ := by
      rw [blockOf, Nat.add_sub_cancel, hsize]
    have hsame := hb'.blocks_eq (L := w.live) fun r hr => List.mem_cons_of_mem _ hr
    refine kept_of_books (h := h') (F := F') ?_ ?_
    · rw [List.map_cons, hnew, List.map_congr_left hsame]
      exact hb'
    · rw [List.forall_mem_cons, hnew, nunits_eq]
      refine ⟨⟨by dsimp only; omega, by dsimp only; omega⟩, fun x hx => ?_⟩
      rw [hsame x hx]
      exact hk.large x hx

theorem Books.perm {A' : List Range} (hb : Books env h F A) (hperm : A.Perm A') : Books env h F A' := by
  refine ⟨hb.linked, ⟨hb.layout.ordered, ?_, hb.layout.nodup⟩, fun r hr =>
    hb.sizes r (hperm.mem_iff.mpr hr), hb.free,
    fun r hr => hb.used r (hperm.mem_iff.mpr hr), hb.above, hb.few⟩
  rw [← hb.layout.bytes, allBytes, allBytes, allBytes, (hperm.map Range.bytes).sum_eq]

theorem kept_free (hk : Kept env w) (hlive : (ap, n) ∈ w.live) (hrun : free k w.heap ap = some h') :
    Kept env ⟨h', w.live.erase (ap, n)⟩ := by
  rcases hk with ⟨-, -, hnil⟩ | ⟨-, ⟨F, hb⟩, hlarge⟩
  · simp [hnil] at hlive
  have hperm := List.perm_cons_erase hlive
  have hb' := hb.perm (hperm.map (blockOf w.heap))
  rw [List.map_cons] at hb'
  obtain ⟨h₁, F', hret, hb₁, -, -⟩ := free_books hb'
  have hap : (blockOf w.heap (ap, n)).addr + 16 = ap := by
    have := (hlarge _ hlive).1
    rw [blockOf]
    dsimp only at this ⊢
    omega
  have hmono := free_mono hrun (Nat.le_max_left k F.length)
  have hend := hret _ (Nat.le_max_right k F.length)
  rw [hap, hmono] at hend
  cases hend
  exact kept_of_books hb₁ fun x hx => hlarge x (List.mem_of_mem_erase hx)

/-- A program stores to none of the headers. -/
theorem kept_store (hk : Kept env w) (hlive : (ap, n) ∈ w.live) {i : Nat} (hi : 16 * i < n) (v : Header) :
    Kept env ⟨{ w.heap with mem := update w.heap.mem (ap + 16 * i) v }, w.live⟩ := by
  rcases hk with ⟨-, -, hnil⟩ | ⟨-, ⟨F, hb⟩, hlarge⟩
  · simp [hnil] at hlive
  obtain ⟨hap, hroom⟩ := hlarge _ hlive
  have hmem : blockOf w.heap (ap, n) ∈ w.live.map (blockOf w.heap) := List.mem_map_of_mem hlive
  have hin : ap + 16 * i ∈ (blockOf w.heap (ap, n)).bytes := by
    rw [mem_bytes, Range.limit]
    dsimp only [blockOf] at hap hroom ⊢
    omega
  have hblock := hb.used _ hmem
  have hneF : ∀ r ∈ F, r.addr ≠ ap + 16 * i := by
    intro r hr heq
    by_cases hbase : r.addr = env.base
    · have := hb.base_lt (.inr hmem)
      dsimp only [blockOf] at this
      omega
    · refine hb.layout.disjoint hr hmem (hb.free r hr hbase).addr_mem ?_
      rw [heq]
      exact hin
  have hneA : ∀ r ∈ w.live.map (blockOf w.heap), r.addr ≠ ap + 16 * i := by
    intro r hr heq
    have hperm := List.perm_cons_erase hmem
    rcases List.mem_cons.mp (hperm.mem_iff.mp hr) with rfl | hr'
    · dsimp only [blockOf] at heq hap
      omega
    · refine (hb.perm hperm).layout.used_disjoint hr' hin ?_
      rw [← heq]
      exact (hb.used r hr).addr_mem
  refine kept_of_books (h := w.heap) (F := F) ⟨⟨hb.linked.head, ?_, fun r hr =>
    ?_, hb.linked.freep⟩, hb.layout, fun r hr => ?_,
    hb.free, hb.used, hb.above, hb.few⟩ hlarge
  · refine hb.linked.circle.congr (List.forall_mem_map.mpr fun r hr => ?_)
    dsimp only
    rw [update_of_ne (hneF r hr)]
  · dsimp only
    rw [update_of_ne (hneF r hr)]
    exact hb.linked.sizes r hr
  · dsimp only
    rw [update_of_ne (hneA r hr)]
    exact hb.sizes r hr

theorem kept_reachable (hfew : env.Few) (hr : Reachable (allocator env) w) : Kept env w := by
  refine hr.invariant (fun w hw => .inl hw) fun w a w' hk hs => ?_
  cases hs with
  | malloc hrun => exact kept_malloc hfew hk hrun
  | free hlive hrun => exact kept_free hk hlive hrun
  | store hlive hi => exact kept_store hk hlive hi _

/-- The free blocks `L` in the order of their addresses; there is no list before the first call of
`malloc`. -/
def FreeBlocks (env : Env) (h : Heap) (L : List Range) : Prop :=
  (h.freep = 0 ∧ L = []) ∨ Linked env h.mem h.freep (⟨env.base, 0⟩ :: L)

/-- The heap of a program. No two free blocks are adjacent. -/
structure Sound (env : Env) (w : World) (L : List Range) : Prop where
  list : FreeBlocks env w.heap L
  ordered : (⟨env.base, 0⟩ :: L).Pairwise Apart
  aligned : ∀ x ∈ w.live, x.1 % 16 = 0
  large : ∀ x ∈ w.live, x.2 + 16 ≤ (blockOf w.heap x).len
  apart : (allBytes (L ++ w.live.map (blockOf w.heap))).Nodup
  given : allBytes (L ++ w.live.map (blockOf w.heap)) = allBytes w.heap.got
  units : total L + total (w.live.map (blockOf w.heap)) = total w.heap.got

theorem Books.head_eq (hb : Books env h F A) : ∃ L, F = ⟨env.base, 0⟩ :: L := by
  have hhead := hb.linked.head
  cases F with
  | nil => cases hhead
  | cons r L => exact ⟨L, by rw [Option.some.inj hhead]⟩

theorem base_bytes (env : Env) (L : List Range) : allBytes (⟨env.base, 0⟩ :: L) = allBytes L := by
  rw [allBytes_cons]
  exact Multiset.zero_add _

/-- A process whose memory begins at the end of the data segment and grows without gaps. -/
def growing : Env where
  base := 0x1000
  dataEnd := 0x2000
  sbrk _ got n :=
    let p := (got.head?.map Range.limit).getD 0x2000
    if p % 16 = 0 ∧ 0x2000 ≤ p ∧ (∀ g ∈ got, g.limit ≤ p) ∧ total got + n < 16 * 2 ^ 32 then some p else none
  base_pos := by decide
  base_below := by decide
  aligned k got n p h := by
    dsimp only at h
    split at h
    · rename_i hc
      cases h
      exact hc.1
    · cases h
  above k got n p h := by
    dsimp only at h
    split at h
    · rename_i hc
      cases h
      exact hc.2.1
    · cases h
  fresh k got n p h := by
    dsimp only at h
    split at h
    · rename_i hc
      cases h
      exact hc.2.2.1
    · cases h

theorem growing_few : growing.Few := by
  intro k got n p h
  dsimp only [growing] at h
  split at h
  · rename_i hc
    exact hc.2.2.2
  · cases h

def unused : World := ⟨⟨fun _ => ⟨0, 0⟩, 0, [], 0⟩, []⟩

/-- The heap after the first block: what `sbrk` gave, the number of its calls, the free block after
`base`, and its size in headers. -/
def summary (h : Heap) : List Range × Nat × Nat × Nat × Nat :=
  (h.got, h.calls, h.freep, (h.mem 0x1000).ptr, (h.mem 0x2000).size)

/-- A program with one block. -/
theorem one_block : ∃ h, Reachable (allocator growing) ⟨h, [(0x11f90, 100)]⟩ ∧
    summary h = ([⟨0x2000, 0x10000⟩], 1, 0x1000, 0x2000, 4088) := by
  have hrun : ((malloc growing 2 unused.heap 100).map fun x => (summary x.1, x.2)) =
      some (([⟨0x2000, 0x10000⟩], 1, 0x1000, 0x2000, 4088), 0x11f90) := by
    decide
  obtain ⟨⟨h, ap⟩, hmalloc, heq⟩ := Option.map_eq_some_iff.mp hrun
  obtain ⟨hsum, rfl⟩ := Prod.mk.inj heq
  refine ⟨h, ?_, hsum⟩
  have hinit : (allocator growing).init unused := ⟨rfl, rfl, rfl⟩
  exact Reachable.next (Reach.init hinit) (Step.malloc hmalloc)

theorem heap_sound (hfew : env.Few) (w : World) (hr : Reachable (allocator env) w) : ∃ L, Sound env w L := by
  rcases kept_reachable hfew hr with ⟨h0, hgot, hlive⟩ | ⟨-, ⟨F, hb⟩, hlarge⟩
  · refine ⟨[], .inl ⟨h0, rfl⟩, List.pairwise_singleton _ _, ?_, ?_, ?_, ?_, ?_⟩
    all_goals simp [hgot, hlive, total]
  · obtain ⟨L, rfl⟩ := hb.head_eq
    have hbytes := hb.layout.bytes
    rw [base_bytes, ← allBytes_append] at hbytes
    refine ⟨L, .inr hb.linked, hb.layout.ordered, fun x hx => ?_, fun x hx => (hlarge x hx).2, ?_, hbytes, ?_⟩
    · have hblock := (hb.used _ (List.mem_map_of_mem hx)).2
      have := (hlarge x hx).1
      dsimp only [blockOf] at hblock
      omega
    · rw [hbytes]
      exact hb.layout.nodup
    · have htotal := hb.layout.total
      rwa [total, List.map_cons, List.sum_cons, Nat.zero_add] at htotal

theorem heap_sound_one : ∃ w L, w.live = [(0x11f90, 100)] ∧ Reachable (allocator growing) w ∧
    Sound growing w L := by
  obtain ⟨h, hr, -⟩ := one_block
  obtain ⟨L, hs⟩ := heap_sound growing_few _ hr
  exact ⟨_, L, rfl, hr, hs⟩

/-- `malloc` returns, and takes a free block if there is one that is large enough, without a call of
`sbrk`. It returns 0 only if there is none and `sbrk` refuses, and the free blocks are then as
before. -/
theorem malloc_decides (hfew : env.Few) (w : World) (hr : Reachable (allocator env) w)
    (nbytes : BitVec 32) :
    ∃ L h' ap, FreeBlocks env w.heap L ∧
      (∃ N, ∀ fuel, N ≤ fuel → malloc env fuel w.heap nbytes = some (h', ap)) ∧
      (ap = 0 ↔ (∀ r ∈ L, r.len < 16 * nunits nbytes) ∧
        env.sbrk w.heap.calls w.heap.got (asked (nunits nbytes) * 16) = none) ∧
      (ap = 0 → FreeBlocks env h' L) ∧
      ((∃ r ∈ L, 16 * nunits nbytes ≤ r.len) →
        h'.calls = w.heap.calls ∧ h'.got = w.heap.got) := by
  have hk := kept_reachable hfew hr
  obtain ⟨F, h', ap, hb, hret, hall⟩ := malloc_returns hfew hk nbytes
  obtain ⟨L, rfl⟩ := hb.head_eq
  have hsame : (start env w.heap).calls = w.heap.calls ∧ (start env w.heap).got = w.heap.got := by
    rw [start]
    split <;> exact ⟨rfl, rfl⟩
  have hunits : 0 < nunits nbytes := by
    rw [nunits_eq]
    omega
  have hsmall : (∀ r ∈ L, r.len < 16 * nunits nbytes) ↔ ∀ r ∈ (⟨env.base, 0⟩ :: L : List Range),
    r.len < 16 * nunits nbytes := by
    rw [List.forall_mem_cons]
    exact ⟨fun hL => ⟨by dsimp only; omega, hL⟩, And.right⟩
  refine ⟨L, h', ap, ?_, hret, ⟨fun h0 => ?_, fun hno => ?_⟩, fun h0 => ?_, ?_⟩
  · rcases hk with ⟨h0, hgot, -⟩ | ⟨hne, -⟩
    · -- nothing was given, so there is no block
      refine .inl ⟨h0, List.eq_nil_iff_forall_not_mem.mpr fun r hr => ?_⟩
      have hlt := (List.pairwise_cons.mp hb.layout.ordered).1 r hr
      have hblock := hb.free r (by simp [hr]) (Nat.ne_of_gt hlt.addr_lt)
      obtain ⟨g, hg, -⟩ := hb.layout.mem_given (.inl (by simp [hr])) hblock.addr_mem
      rw [hsame.2, hgot] at hg
      cases hg
    · have hl := hb.linked
      rw [start, if_neg hne] at hl
      exact .inr hl
  · obtain ⟨-, hlen, hs⟩ := hall.refused h0
    rw [hsame.1, hsame.2] at hs
    exact ⟨hsmall.mpr hlen, hs⟩
  · refine hall.denied ?_ (hsmall.mp hno.1)
    rw [hsame.1, hsame.2]
    exact hno.2
  · obtain ⟨rfl, -, -⟩ := hall.refused h0
    exact .inr hb.linked
  · rintro ⟨r, hr, hle⟩
    obtain ⟨-, hgot, hcalls⟩ := hall.fits ⟨r, List.mem_cons_of_mem _ hr, hle⟩
    exact ⟨hcalls.trans hsame.1, hgot.trans hsame.2⟩

/-- A second block comes out of the rest of the memory, without a call of `sbrk`. -/
theorem malloc_decides_second : ∃ h h' ap, Reachable (allocator growing) ⟨h, [(0x11f90, 100)]⟩ ∧
    (∃ N, ∀ fuel, N ≤ fuel → malloc growing fuel h 200 = some (h', ap)) ∧
    ap ≠ 0 ∧ h'.calls = 1 ∧ h'.got = [⟨0x2000, 0x10000⟩] := by
  obtain ⟨h, hr, hsum⟩ := one_block
  simp only [summary, Prod.mk.injEq] at hsum
  obtain ⟨hgot, hcalls, hfreep, hnext, hsize⟩ := hsum
  obtain ⟨L, h', ap, hL, hret, hzero, -, hfit⟩ := malloc_decides growing_few _ hr 200
  have hlarge : ∃ r ∈ L, 16 * nunits 200 ≤ r.len := by
    obtain ⟨h0, -⟩ | hlinked := hL
    · rw [show h.freep = 0 from h0] at hfreep
      cases hfreep
    cases L with
    | nil =>
      have hcircle : (h.mem 0x1000).ptr = 0x1000 := hlinked.circle
      rw [hnext] at hcircle
      cases hcircle
    | cons r L =>
      have haddr : (h.mem 0x1000).ptr = r.addr := hlinked.circle.1
      have hlen : 16 * (h.mem r.addr).size = r.len := hlinked.sizes r (by simp)
      rw [← haddr, hnext, hsize] at hlen
      exact ⟨r, by simp, by rw [← hlen]; decide⟩
  obtain ⟨hcalls', hgot'⟩ := hfit hlarge
  refine ⟨h, h', ap, hr, hret, fun h0 => ?_, hcalls'.trans hcalls, hgot'.trans hgot⟩
  obtain ⟨r, hmem, hle⟩ := hlarge
  have hlt := (hzero.mp h0).1 r hmem
  omega

/-- Each answer of `sbrk` begins where the one before ended. -/
def Env.Contiguous (env : Env) : Prop := ∀ k g got n p, env.sbrk k (g :: got) n = some p → p = g.limit

theorem onePiece_reachable (hc : env.Contiguous) (hr : Reachable (allocator env) w) :
    InOnePiece w.heap.got ∧ ∀ g ∈ w.heap.got, 0 < g.len := by
  refine hr.invariant (I := fun w => InOnePiece w.heap.got ∧ ∀ g ∈ w.heap.got, 0 < g.len)
    (fun w hw => ?_) fun w a w' hI hs => ?_
  · rw [hw.2.1]
    exact ⟨List.IsChain.nil, by simp⟩
  · cases hs with
    | malloc hrun =>
      have hstart : (start env w.heap).got = w.heap.got := by
        rw [start]
        split <;> rfl
      refine mallocLoop_got (P := fun got => InOnePiece got ∧ ∀ g ∈ got, 0 < g.len)
        (fun k got n p hn hgot hs => ?_)
        (by rw [hstart]; exact hI) hrun
      refine ⟨?_, by rw [List.forall_mem_cons]; exact ⟨hn, hgot.2⟩⟩
      cases got with
      | nil => exact List.isChain_singleton _
      | cons g got => exact List.isChain_cons_cons.mpr ⟨(hc k g got n p hs).symm, hgot.1⟩
    | free hlive hrun =>
      dsimp only
      rw [free_got hrun]
      exact hI
    | store hlive hi => exact hI

/-- When a program has freed everything, all memory that it got in one piece is one free block. -/
theorem all_freed (hfew : env.Few) (hc : env.Contiguous) (w : World)
    (hr : Reachable (allocator env) w) (hlive : w.live = [])
    (g : Range) (got : List Range) (hgot : w.heap.got = g :: got) :
    FreeBlocks env w.heap [⟨((g :: got).getLast (by simp)).addr, total (g :: got)⟩] := by
  obtain ⟨hpiece, hpos⟩ := onePiece_reachable hc hr
  rw [hgot] at hpiece hpos
  obtain ⟨hle, hin⟩ := mem_onePiece hpiece
  rcases kept_reachable hfew hr with ⟨-, hnil, -⟩ | ⟨-, ⟨F, hb⟩, -⟩
  · rw [hgot] at hnil
    cases hnil
  · obtain ⟨L, rfl⟩ := hb.head_eq
    have hord := List.pairwise_cons.mp hb.layout.ordered
    have hbytes := hb.layout.bytes
    have htotal := hb.layout.total
    rw [hlive, List.map_nil, hgot] at hbytes htotal
    rw [base_bytes, allBytes_nil, Multiset.add_zero] at hbytes
    rw [total, List.map_cons, List.sum_cons, Nat.zero_add, ← total] at htotal
    have hg := hpos g (by simp)
    have hone := eq_singleton hord.2 (fun r hr => (hb.free r (by simp [hr])
      (Nat.ne_of_gt (hord.1 r hr).addr_lt)).1)
      (fun a => by rw [hbytes]; exact hin a) (by rw [Range.limit]; omega)
    have hl := hb.linked
    rw [hone] at hl htotal
    simp only [total, List.map_cons, List.map_nil, List.sum_cons, List.sum_nil, Nat.add_zero] at htotal
    rw [htotal] at hl
    exact .inr hl

theorem growing_contiguous : growing.Contiguous := by
  intro k g got n p h
  dsimp only [growing] at h
  split at h
  · cases h
    rfl
  · cases h

/-- After the only block is freed, all 4096 headers are one block. -/
theorem all_freed_one : ∃ w, w.live = [] ∧ Reachable (allocator growing) w ∧
    FreeBlocks growing w.heap [⟨0x2000, 0x10000⟩] := by
  obtain ⟨h, hr, hsum⟩ := one_block
  have hgot : h.got = [⟨0x2000, 0x10000⟩] := congrArg Prod.fst hsum
  rcases kept_reachable growing_few hr with ⟨-, hnil, -⟩ | ⟨-, ⟨F, hb⟩, -⟩
  · rw [hgot] at hnil
    cases hnil
  · obtain ⟨h', F', hret, -, hsame, -⟩ := free_books hb
    have hfree : free F.length h 0x11f90 = some h' := hret F.length (Nat.le_refl _)
    have hstep : Step growing ⟨h, [(0x11f90, 100)]⟩ (.free 0x11f90) ⟨h', [(0x11f90, 100)].erase (0x11f90, 100)⟩ :=
      .free (by simp) hfree
    have hnext : Reachable (allocator growing) ⟨h', []⟩ := hr.next hstep
    exact ⟨_, rfl, hnext, all_freed growing_few growing_contiguous _ hnext rfl ⟨0x2000,
      0x10000⟩ [] (hsame.trans hgot)⟩

end Xv6.Umalloc
