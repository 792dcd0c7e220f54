import Xv6.Umalloc

/-!
# Freeing a block

What the allocator knows of its memory, and that `free` keeps it: the loop finds the place of the
block in the circle, wherever `freep` is, and the block is joined with the free blocks that it
meets.
-/
namespace Xv6.Umalloc

open CircularList RangeLayout Function

variable {env : Env} {h : Heap} {mem mem₁ mem₂ : Nat → Header} {F A G us vs : List Range}
  {p b r : Range} {U V : List Nat}
  {a q bp n : Nat}

/-- The free blocks `F` in the order of their addresses, with `base` in front. -/
structure Linked (env : Env) (mem : Nat → Header) (freep : Nat) (F : List Range) : Prop where
  head : F.head? = some ⟨env.base, 0⟩
  circle : Circle (fun a => (mem a).ptr) (F.map Range.addr)
  sizes : ∀ r ∈ F, 16 * (mem r.addr).size = r.len
  freep : freep ∈ F.map Range.addr

def IsBlock (r : Range) : Prop := 0 < r.len ∧ r.addr % 16 = 0

structure Books (env : Env) (h : Heap) (F A : List Range) : Prop where
  linked : Linked env h.mem h.freep F
  layout : Layout F A h.got
  sizes : ∀ r ∈ A, 16 * (h.mem r.addr).size = r.len
  free : ∀ r ∈ F, r.addr ≠ env.base → IsBlock r
  used : ∀ r ∈ A, IsBlock r
  above : ∀ g ∈ h.got, env.dataEnd ≤ g.addr
  few : total h.got < 16 * 2 ^ 32

theorem IsBlock.addr_mem (hr : IsBlock r) : r.addr ∈ r.bytes := by
  rw [mem_bytes, Range.limit]
  exact ⟨Nat.le_refl _, by have := hr.1; omega⟩

/-- `base` is below all blocks. -/
theorem Books.base_lt (hb : Books env h F A) (hr : r ∈ F ∧ r.addr ≠ env.base ∨ r ∈ A) : env.base < r.addr := by
  have hbelow := env.base_below
  have hmem : r ∈ F ∨ r ∈ A := hr.imp And.left id
  have hblock : IsBlock r := hr.elim (fun hr => hb.free r hr.1 hr.2) (hb.used r)
  obtain ⟨g, hg, hin⟩ := hb.layout.mem_given hmem hblock.addr_mem
  have := hb.above g hg
  have := (mem_bytes.mp hin).1
  omega

/-- A block in use is not free. -/
theorem Books.addr_ne (hb : Books env h F A) (hp : p ∈ F) (hr : r ∈ A) : p.addr ≠ r.addr := by
  intro heq
  have hlt := hb.base_lt (.inr hr)
  have hblock := hb.free p hp (by omega)
  refine hb.layout.disjoint hp hr hblock.addr_mem ?_
  rw [heq]
  exact (hb.used r hr).addr_mem

/-- The loop of `free` ends at the block before the place, and at no other. -/
theorem stops_iff (hc : Circle (fun a => (mem a).ptr) (U ++ a :: V))
    (hord : (U ++ a :: V).Pairwise (· < ·)) (ha : a < bp)
    (hV : ∀ v ∈ V, bp < v) {x : Nat} (hx : x ∈ U ++ a :: V) : Stops mem bp x ↔ x = a := by
  have hU : ∀ u ∈ U, u < a := fun u hu => (List.pairwise_append.mp hord).2.2 u hu a (by simp)
  have habove : ∀ z ∈ U ++ a :: V, a < z → bp < z := by
    intro z hz hlt
    rcases List.mem_append.mp hz with hz | hz
    · exact absurd (hU z hz) (by omega)
    rcases List.mem_cons.mp hz with rfl | hz
    · omega
    · exact hV z hz
  have hmem : a ∈ U ++ a :: V := by simp
  have hfirst : ∀ z, (U ++ a :: V).head? = some z → z ≤ a := by
    intro z hz
    cases U with
    | nil => exact Nat.le_of_eq (Option.some.inj hz).symm
    | cons u U =>
      cases hz
      exact Nat.le_of_lt (hU z (by simp))
  generalize U ++ a :: V = L at *
  obtain ⟨xs, ys, rfl⟩ := List.append_of_mem hx
  rw [List.pairwise_append, List.pairwise_cons] at hord
  obtain ⟨-, ⟨hys, hordys⟩, hxs⟩ := hord
  have hbefore : a ∈ xs → a < x := fun hin => hxs a hin x (by simp)
  cases ys with
  | nil =>
    have hlast := hc.next_last
    have hle := hfirst _ hlast
    have hax : a ≤ x := by
      rcases List.mem_append.mp hmem with hin | hin
      · exact Nat.le_of_lt (hbefore hin)
      · exact Nat.le_of_eq (List.mem_singleton.mp hin)
    have hxa := habove x hx
    rw [Stops]
    omega
  | cons y ys =>
    have hnext : (mem x).ptr = y := hc.next_eq
    have hxy := hys y (by simp)
    have hy := habove y (by simp)
    have hxa := habove x hx
    have hcases : a < x ∨ a = x ∨ y ≤ a := by
      rcases List.mem_append.mp hmem with hin | hin
      · exact .inl (hbefore hin)
      rcases List.mem_cons.mp hin with rfl | hin
      · exact .inr (.inl rfl)
      rcases List.mem_cons.mp hin with rfl | hin
      · exact .inr (.inr (Nat.le_refl _))
      · exact .inr (.inr (Nat.le_of_lt ((List.pairwise_cons.mp hordys).1 a hin)))
    rw [Stops, hnext]
    omega

/-- The block `b` is ready to be put between `p` and the blocks `vs`, and leads on to the one that
`p` is to lead to without it. -/
structure Ready (mem mem₁ : Nat → Header) (us vs : List Range) (p b : Range) (A G : List Range) : Prop where
  size : 16 * (mem₁ b.addr).size = b.len
  other : ∀ x, x ≠ b.addr → mem₁ x = mem x
  circle : ∀ next, next p.addr = (mem₁ b.addr).ptr → (∀ r ∈ us ++ vs, next r.addr = (mem r.addr).ptr) →
    Circle next ((us ++ p :: vs).map Range.addr)
  layout : Layout (us ++ p :: vs) (b :: A) G
  apart : ∀ v ∈ vs, Apart b v

/-- Two blocks have no more units than there are. -/
theorem Books.no_overflow (hb : Books env h F A) (hp : p ∈ F) (hr : r ∈ A) : p.len + r.len < 16 * 2 ^ 32 := by
  have := hb.few
  have := hb.layout.total
  have := len_le_total hp
  have := len_le_total hr
  omega

/-- The last free block leads to `base`. -/
theorem Linked.next_last (hl : Linked env mem n (us ++ [p])) : (mem p.addr).ptr = env.base := by
  have hc := hl.circle
  rw [List.map_append] at hc
  have hlast := hc.next_last
  rw [← List.map_singleton, ← List.map_append, List.head?_map, hl.head] at hlast
  exact (Option.some.inj hlast).symm

theorem Linked.next_eq (hl : Linked env mem n (us ++ p :: r :: vs)) : (mem p.addr).ptr = r.addr := by
  have hc := hl.circle
  rw [List.map_append] at hc
  exact hc.next_eq

theorem joinUpper_ready (hb : Books env h (us ++ p :: vs) (b :: A)) (hvs : ∀ v ∈ vs, b.addr < v.addr) :
    ∃ vs' b', Ready h.mem (joinUpper h.mem b.addr p.addr) us vs' p b' A h.got ∧ b'.addr = b.addr ∧ b.len ≤ b'.len ∧
      vs'.Sublist vs := by
  have hsize := hb.sizes b (by simp)
  have hbase := hb.base_lt (.inr (List.mem_cons_self (a := b)))
  have hblock (v : Range) (hv : v ∈ vs) : IsBlock v := hb.free v (by simp [hv]) (by have := hvs v hv; omega)
  have hord := (List.pairwise_cons.mp (List.pairwise_append.mp hb.layout.ordered).2.1).2
  by_cases hmeet : b.addr + 16 * (h.mem b.addr).size = (h.mem p.addr).ptr
  · cases vs with
    | nil =>
      rw [hb.linked.next_last] at hmeet
      omega
    | cons v vs =>
      rw [hb.linked.next_eq] at hmeet
      have hv := hvs v (by simp)
      have hsizev := hb.linked.sizes v (by simp)
      have hover := hb.no_overflow (p := v) (r := b) (by simp) (by simp)
      have hlimit : b.limit = v.addr := by
        rw [Range.limit]
        omega
      have hjoin : joinUpper h.mem b.addr p.addr =
          setPtr (setSize h.mem b.addr ((h.mem b.addr).size + (h.mem v.addr).size)) b.addr (h.mem v.addr).ptr := by
        rw [joinUpper, if_pos (by rw [hb.linked.next_eq]; exact hmeet), hb.linked.next_eq,
          Nat.mod_eq_of_lt (by omega)]
        dsimp only
        rw [setSize_ptr, setSize_ptr, hb.linked.next_eq]
      refine ⟨vs, ⟨b.addr, b.len + v.len⟩, ⟨?_, ?_, ?_, ?_, ?_⟩, rfl, Nat.le_add_right _ _,
        List.sublist_cons_self _ _⟩
      · rw [hjoin]
        simp
        omega
      · intro x hx
        rw [hjoin, setPtr_other hx, setSize_other hx]
      · intro next hnext hsame
        rw [hjoin, setPtr_same] at hnext
        have hc := hb.linked.circle
        rw [List.map_append, List.map_cons, List.map_cons] at hc
        rw [List.map_append, List.map_cons]
        rw [List.forall_mem_append] at hsame
        exact hc.remove hnext (List.forall_mem_map.mpr hsame.1) (List.forall_mem_map.mpr hsame.2)
      · have hlayout := hb.layout
        rw [show us ++ p :: v :: vs = (us ++ [p]) ++ v :: vs by simp] at hlayout
        have habsorb := hlayout.absorb hlimit
        rwa [List.append_assoc] at habsorb
      · intro v' hv'
        have := (List.pairwise_cons.mp hord).1 v' hv'
        rw [Apart, Range.limit] at *
        dsimp only
        omega
  · have hjoin : joinUpper h.mem b.addr p.addr = setPtr h.mem b.addr (h.mem p.addr).ptr := by
      rw [joinUpper, if_neg hmeet]
    refine ⟨vs, b, ⟨?_, ?_, ?_, hb.layout, ?_⟩, rfl, Nat.le_refl _, List.Sublist.refl _⟩
    · rw [hjoin, setPtr_size]
      exact hsize
    · intro x hx
      rw [hjoin, setPtr_other hx]
    · intro next hnext hsame
      rw [hjoin, setPtr_same] at hnext
      refine hb.linked.circle.congr (List.forall_mem_map.mpr ?_)
      rw [List.forall_mem_append] at hsame ⊢
      rw [List.forall_mem_cons]
      exact ⟨hsame.1, hnext, hsame.2⟩
    · cases vs with
      | nil => simp
      | cons v vs =>
        have hle := hb.layout.below (r := v) (b := b) (by simp) (by simp) (hblock v (by simp)).1 (hvs v (by simp))
        rw [hb.linked.next_eq] at hmeet
        rw [List.forall_mem_cons]
        have hlt : Apart b v := by
          rw [Apart, Range.limit] at *
          omega
        refine ⟨hlt, fun v' hv' => ?_⟩
        exact Nat.lt_trans hlt ((List.pairwise_cons.mp hord).1 v' hv').addr_lt

theorem joinLower_other (h : a ≠ q) : joinLower mem bp q a = mem a := by
  rw [joinLower]
  split
  · rw [setPtr_other h, setSize_other h]
  · rw [setPtr_other h]

/-- The block is in the list `F` of the free ones, by itself or as a part of one of them. -/
structure Freed (env : Env) (h : Heap) (mem : Nat → Header) (p b : Range) (A F : List Range) : Prop where
  linked : Linked env mem p.addr F
  layout : Layout F A h.got
  free : ∀ r ∈ F, r.addr ≠ env.base → IsBlock r
  large : ∃ r ∈ F, b.len ≤ r.len

section Lower

variable {vs' : List Range} {b' : Range} (hb : Books env h (us ++ p :: vs) (b :: A))
  (hp : p.addr < b.addr) (hr : Ready h.mem mem₁ us vs' p b' A h.got) (haddr : b'.addr = b.addr)
  (hlen : b.len ≤ b'.len) (hsub : vs'.Sublist vs)

include hp hr haddr in
theorem far_of_ready : ∀ r ∈ us ++ vs', r.addr ≠ p.addr ∧ r.addr ≠ b.addr := by
  rw [List.forall_mem_append]
  refine ⟨fun u hu => ?_, fun v hv => ?_⟩
  · have := ((List.pairwise_append.mp hr.layout.ordered).2.2 u hu p (by simp)).addr_lt
    omega
  · have := (hr.apart v hv).addr_lt
    omega

include hr haddr in
theorem joinLower_same {x : Nat} (hxp : x ≠ p.addr) (hxb : x ≠ b.addr) :
    joinLower mem₁ b.addr p.addr x = h.mem x := by
  rw [joinLower_other hxp, hr.other x (haddr ▸ hxb)]

include hp hr haddr in
theorem around_same : ∀ r ∈ us ++ vs', joinLower mem₁ b.addr p.addr r.addr = h.mem r.addr :=
  fun r hmem => joinLower_same hr haddr (far_of_ready hp hr haddr r hmem).1
    (far_of_ready hp hr haddr r hmem).2

include hsub in
theorem around_mem : ∀ r ∈ us ++ vs', r ∈ us ++ p :: vs := by
  rw [List.forall_mem_append]
  exact ⟨fun u hu => by simp [hu], fun v hv => by simp [hsub.mem hv]⟩

include hb hp hr haddr hsub in
theorem around_sizes : ∀ r ∈ us ++ vs', 16 * (joinLower mem₁ b.addr p.addr r.addr).size = r.len := by
  intro r hmem
  rw [around_same hp hr haddr r hmem]
  exact hb.linked.sizes r (around_mem hsub r hmem)

include hb hp hr haddr hlen hsub in
/-- The block meets the one below it, which is not `base`, and becomes a part of it. -/
theorem joinLower_merges (hmeet : p.addr + 16 * (h.mem p.addr).size = b.addr) :
    Freed env h (joinLower mem₁ b.addr p.addr) p b A (us ++ ⟨p.addr, p.len + b'.len⟩ :: vs') := by
  have hmemp : mem₁ p.addr = h.mem p.addr := hr.other _ (by omega)
  have hsizep := hb.linked.sizes p (by simp)
  have hsizeb := hr.size
  have hbase := hb.base_lt (.inr (List.mem_cons_self (a := b)))
  have hover : p.len + b'.len < 16 * 2 ^ 32 := by
    have := hb.few
    have := hr.layout.total
    have := len_le_total (r := p) (L := us ++ p :: vs') (by simp)
    have := len_le_total (r := b') (L := b' :: A) (by simp)
    omega
  rw [haddr] at hsizeb
  have hjoin : joinLower mem₁ b.addr p.addr = setPtr (setSize mem₁ p.addr
      ((h.mem p.addr).size + (mem₁ b.addr).size)) p.addr (mem₁ b.addr).ptr := by
    rw [joinLower, if_pos (hmemp ▸ hmeet), hmemp, Nat.mod_eq_of_lt (by omega)]
    dsimp only
    rw [setSize_ptr]
  have hsizes := around_sizes hb hp hr haddr hsub
  have hfree := fun r hmem => hb.free r (around_mem (p := p) hsub r hmem)
  rw [List.forall_mem_append] at hsizes hfree
  have hlimit : p.limit = b'.addr := by
    rw [Range.limit]
    omega
  have hblock := hb.used b (by simp)
  refine ⟨⟨?_, ?_, ?_, by simp⟩, hr.layout.merge hlimit hr.apart, ?_,
    ⟨⟨p.addr, p.len + b'.len⟩, by simp, by dsimp only; omega⟩⟩
  · cases us with
    | nil =>
      have hhead := Option.some.inj hb.linked.head
      rw [hhead] at hmeet hsizep
      dsimp only at hmeet hsizep
      omega
    | cons u us => exact hb.linked.head
  · have hc := hr.circle (fun a => (joinLower mem₁ b.addr p.addr a).ptr)
      (by rw [hjoin, setPtr_same, haddr]) (fun r hmem => by rw [around_same hp hr haddr r hmem])
    rw [List.map_append] at hc ⊢
    exact hc
  · rw [List.forall_mem_append, List.forall_mem_cons]
    refine ⟨hsizes.1, ?_, hsizes.2⟩
    rw [hjoin, setPtr_size, setSize_same]
    dsimp only
    omega
  · rw [List.forall_mem_append, List.forall_mem_cons]
    refine ⟨hfree.1, fun hne => ?_, hfree.2⟩
    exact ⟨by dsimp only; have := hblock.1; omega, (hb.free p (by simp) hne).2⟩

include hb hp hr haddr hlen hsub in
theorem joinLower_inserts (hmeet : p.addr + 16 * (h.mem p.addr).size ≠ b.addr) :
    Freed env h (joinLower mem₁ b.addr p.addr) p b A (us ++ p :: b' :: vs') := by
  have hmemp : mem₁ p.addr = h.mem p.addr := hr.other _ (by omega)
  have hsizep := hb.linked.sizes p (by simp)
  have hjoin : joinLower mem₁ b.addr p.addr = setPtr mem₁ p.addr b.addr := by
    rw [joinLower, if_neg (hmemp ▸ hmeet)]
  have hfar := far_of_ready hp hr haddr
  have hsame := around_same hp hr haddr
  have hsizes := around_sizes hb hp hr haddr hsub
  have hfree := fun r hmem => hb.free r (around_mem (p := p) hsub r hmem)
  rw [List.forall_mem_append] at hsizes hfree
  have hblock := hb.used b (by simp)
  have hlow := hb.layout.above (r := p) (b := b) (by simp) (by simp) hblock.1 hp
  have hpb : Apart p b' := by
    rw [Apart, Range.limit] at *
    omega
  have hapart : ∀ u ∈ us ++ [p], Apart u b' := by
    rw [List.forall_mem_append, List.forall_mem_singleton]
    refine ⟨fun u hu => ?_, hpb⟩
    have hup := (List.pairwise_append.mp hr.layout.ordered).2.2 u hu p (by simp)
    exact Nat.lt_trans hup hpb.addr_lt
  have hlayout := hr.layout
  rw [List.append_cons] at hlayout
  have hinsert := hlayout.insert hapart hr.apart
  rw [← List.append_cons] at hinsert
  refine ⟨⟨?_, ?_, ?_, by simp⟩, hinsert, ?_, ⟨b', by simp, hlen⟩⟩
  · simpa using hb.linked.head
  · have hc := hr.circle (update (fun a => (h.mem a).ptr) p.addr (mem₁ b.addr).ptr)
      (by rw [update_self, haddr]) (fun r hr => update_of_ne (hfar r hr).1 _ _)
    rw [List.forall_mem_append] at hsame hfar
    rw [List.map_append, List.map_cons] at hc
    rw [List.map_append, List.map_cons, List.map_cons]
    refine hc.insert ?_ ?_ (List.forall_mem_map.mpr fun u hu => ?_)
      (List.forall_mem_map.mpr fun v hv => ?_)
    · rw [hjoin, setPtr_same, haddr]
    · rw [hjoin, haddr, setPtr_other (by omega), update_self]
    · rw [update_of_ne (hfar.1 u hu).1, hsame.1 u hu]
    · rw [update_of_ne (hfar.2 v hv).1, hsame.2 v hv]
  · rw [List.forall_mem_append, List.forall_mem_cons, List.forall_mem_cons]
    refine ⟨hsizes.1, ?_, ?_, hsizes.2⟩
    · rw [hjoin, setPtr_same, hmemp]
      exact hsizep
    · rw [hjoin, setPtr_other (by omega)]
      exact hr.size
  · rw [List.forall_mem_append, List.forall_mem_cons, List.forall_mem_cons]
    refine ⟨hfree.1, hb.free p (by simp), fun _ => ⟨?_, ?_⟩, hfree.2⟩
    · have := hblock.1
      omega
    · rw [haddr]
      exact hblock.2

include hb hp hr haddr hlen hsub in
/-- Either way the block gets into the list. -/
theorem joinLower_linked : ∃ F, Freed env h (joinLower mem₁ b.addr p.addr) p b A F := by
  by_cases hmeet : p.addr + 16 * (h.mem p.addr).size = b.addr
  · exact ⟨_, joinLower_merges hb hp hr haddr hlen hsub hmeet⟩
  · exact ⟨_, joinLower_inserts hb hp hr haddr hlen hsub hmeet⟩

end Lower

/-- The place of a block in use among the free ones. -/
theorem Books.place (hb : Books env h F (b :: A)) : ∃ us p vs, F = us ++ p :: vs ∧ p.addr < b.addr ∧
    (∀ v ∈ vs, b.addr < v.addr) ∧
    ∀ fuel, F.length ≤ fuel → seek (fun a => (h.mem a).ptr) (Stops h.mem b.addr) fuel h.freep = some p.addr := by
  have hord : F.Pairwise fun r r' => r.addr < r'.addr := hb.layout.ordered.imp Apart.addr_lt
  have hlt := hb.base_lt (.inr (List.mem_cons_self (a := b)))
  obtain ⟨L, hF⟩ : ∃ L, F = ⟨env.base, 0⟩ :: L := by
    have hhead := hb.linked.head
    cases F with
    | nil => cases hhead
    | cons r L => exact ⟨L, by rw [Option.some.inj hhead]⟩
  obtain ⟨us, p, vs, hsplit, -, hp, hvs⟩ := exists_place (hF ▸ hord) hlt
    (fun r hr => hb.addr_ne (by rw [hF]; simp [hr]) (by simp))
  obtain rfl : F = us ++ p :: vs := hF.trans hsplit
  refine ⟨us, p, vs, rfl, hp, hvs, fun fuel hfuel => ?_⟩
  have hc := hb.linked.circle
  have hsorted := List.pairwise_map.mpr hord
  rw [List.map_append, List.map_cons] at hc hsorted
  have hstop {x : Nat} := stops_iff (x := x) hc hsorted hp (List.forall_mem_map.mpr hvs)
  have hfreep := hb.linked.freep
  rw [List.map_append, List.map_cons] at hfreep
  exact hc.seek hfreep (by simp) ((hstop (by simp)).mpr rfl) (fun x hx => (hstop hx).mp) (by simpa using hfuel)

/-- `free` returns, and the block is free. -/
theorem free_books (hb : Books env h F (b :: A)) : ∃ h' F',
    (∀ fuel, F.length ≤ fuel → free fuel h (b.addr + 16) = some h') ∧
    Books env h' F' A ∧ h'.got = h.got ∧ ∃ r ∈ F', b.len ≤ r.len := by
  obtain ⟨us, p, vs, rfl, hp, hvs, hseek⟩ := hb.place
  obtain ⟨vs', b', hready, haddr, hlen, hsub⟩ := joinUpper_ready hb hvs
  obtain ⟨F', hfreed⟩ := joinLower_linked hb hp hready haddr hlen hsub
  refine ⟨{ h with mem := joinLower (joinUpper h.mem b.addr p.addr) b.addr p.addr, freep := p.addr }, F',
    fun fuel hfuel => ?_, ⟨hfreed.linked, hfreed.layout, fun r hr => ?_, hfreed.free,
      fun r hr => hb.used r (by simp [hr]), hb.above, hb.few⟩, rfl, hfreed.large⟩
  · rw [free, Nat.add_sub_cancel, hseek fuel hfuel]
    rfl
  · have hne : r.addr ≠ b.addr := by
      intro heq
      refine hb.layout.used_disjoint hr (hb.used b (by simp)).addr_mem ?_
      rw [← heq]
      exact (hb.used r (by simp [hr])).addr_mem
    dsimp only
    rw [joinLower_same hready haddr (hb.addr_ne (by simp) (by simp [hr])).symm hne]
    exact hb.sizes r (by simp [hr])

end Xv6.Umalloc
