import Xv6.UmallocFree

/-!
# Allocating a block

`malloc` goes once round the circle from `freep` on. It takes the first block that is large enough,
or its end; if there is none it asks for more memory, frees that, and goes round again, this time
with success.
-/
namespace Xv6.Umalloc

open CircularList RangeLayout

variable {env : Env} {h h' : Heap} {F A us vs : List Range} {b c r : Range} {a n prev : Nat} {xs : List Nat}

theorem Linked.base_size {mem : Nat → Header} (hl : Linked env mem n F) : (mem env.base).size = 0 := by
  have hsize := hl.sizes ⟨env.base, 0⟩ (List.mem_of_mem_head? hl.head)
  dsimp only at hsize
  omega

/-- A block of the right size leaves the list. -/
theorem take_whole (hb : Books env h (us ++ c :: r :: vs) A) (hblock : IsBlock r) :
    Books env { h with mem := setPtr h.mem c.addr (h.mem r.addr).ptr, freep := c.addr }
    (us ++ c :: vs) (r :: A) := by
  have hord := List.pairwise_append.mp hb.layout.ordered
  have hordc := List.pairwise_cons.mp hord.2.1
  have hsub : ∀ r' ∈ us ++ c :: vs, r' ∈ us ++ c :: r :: vs := by
    intro r' hr'
    simp only [List.mem_append, List.mem_cons] at hr' ⊢
    tauto
  have hlayout := hb.layout
  rw [List.append_cons] at hlayout
  have htake := hlayout.take
  rw [← List.append_cons] at htake
  refine ⟨⟨?_, ?_, ?_, by simp⟩, htake, ?_, fun r' hr' => hb.free r' (hsub r' hr'), ?_, hb.above, hb.few⟩
  · simpa using hb.linked.head
  · have hc := hb.linked.circle
    rw [List.map_append, List.map_cons, List.map_cons] at hc
    rw [List.map_append, List.map_cons]
    refine hc.remove ?_ (List.forall_mem_map.mpr fun u hu => ?_) (List.forall_mem_map.mpr fun v hv => ?_)
    · dsimp only
      rw [setPtr_same]
    · have := (hord.2.2 u hu c (by simp)).addr_lt
      dsimp only
      rw [setPtr_other (by omega)]
    · have := (hordc.1 v (by simp [hv])).addr_lt
      dsimp only
      rw [setPtr_other (by omega)]
  · intro r' hr'
    rw [setPtr_size]
    exact hb.linked.sizes r' (hsub r' hr')
  · rw [List.forall_mem_cons]
    refine ⟨?_, fun r' hr' => ?_⟩
    · rw [setPtr_size]
      exact hb.linked.sizes r (by simp)
    · rw [setPtr_size]
      exact hb.sizes r' hr'
  · rw [List.forall_mem_cons]
    exact ⟨hblock, hb.used⟩

/-- The end of a larger block is taken. -/
theorem take_end {m : Nat} (hb : Books env h (us ++ ⟨a, 16 * m + 16 * n⟩ :: vs) A)
    (ha : a ≠ env.base) (hm : 0 < m) (hn : 0 < n)
    (hc : c ∈ us) : Books env { h with mem := setSize (setSize h.mem a m) (a + 16 * m) n, freep := c.addr }
      (us ++ ⟨a, 16 * m⟩ :: vs) (⟨a + 16 * m, 16 * n⟩ :: A) := by
  have hord := List.pairwise_append.mp hb.layout.ordered
  have hvs := (List.pairwise_cons.mp hord.2.1).1
  have hblock := hb.free ⟨a, 16 * m + 16 * n⟩ (by simp) ha
  have hsame (x : Nat) (h₁ : x ≠ a) (h₂ : x ≠ a + 16 * m) : setSize (setSize h.mem a m)
    (a + 16 * m) n x = h.mem x := by
    rw [setSize_other h₂, setSize_other h₁]
  have hfar : ∀ r ∈ us ++ vs, r.addr ≠ a ∧ r.addr ≠ a + 16 * m := by
    rw [List.forall_mem_append]
    refine ⟨fun u hu => ?_, fun v hv => ?_⟩
    · have := (hord.2.2 u hu ⟨a, 16 * m + 16 * n⟩ (by simp)).addr_lt
      dsimp only at this
      omega
    · have := hvs v hv
      rw [Apart, Range.limit] at this
      dsimp only at this
      omega
  have hsizes : ∀ r ∈ us ++ vs, 16 * (setSize (setSize h.mem a m) (a + 16 * m) n r.addr).size = r.len := by
    intro r hr
    rw [hsame _ (hfar r hr).1 (hfar r hr).2]
    refine hb.linked.sizes r ?_
    simp only [List.mem_append, List.mem_cons] at hr ⊢
    tauto
  rw [List.forall_mem_append] at hsizes
  refine ⟨⟨?_, ?_, ?_, ?_⟩, hb.layout.split, ?_, ?_, ?_, hb.above, hb.few⟩
  · cases us with
    | nil => cases hc
    | cons u us => exact hb.linked.head
  · have hc := hb.linked.circle
    rw [List.map_append] at hc ⊢
    refine hc.congr fun x _ => ?_
    simp
  · rw [List.forall_mem_append, List.forall_mem_cons]
    refine ⟨hsizes.1, ?_, hsizes.2⟩
    dsimp only
    rw [setSize_other (by omega), setSize_same]
  · exact List.mem_map_of_mem (by simp [hc])
  · rw [List.forall_mem_cons]
    refine ⟨?_, fun r hr => ?_⟩
    · dsimp only
      rw [setSize_same]
    · have hnot (x : Nat) (h₁ : a ≤ x) (h₂ : x < a + 16 * m + 16 * n) : r.addr ≠ x := by
        rintro rfl
        refine hb.layout.disjoint (r := ⟨a, 16 * m + 16 * n⟩) (by simp) hr ?_ (hb.used r hr).addr_mem
        rw [mem_bytes, Range.limit]
        dsimp only
        omega
      dsimp only
      rw [hsame _ (hnot _ (by omega) (by omega)) (hnot _ (by omega) (by omega))]
      exact hb.sizes r hr
  · intro r hr hne
    rw [List.mem_append, List.mem_cons] at hr
    rcases hr with hr | rfl | hr
    · exact hb.free r (by simp [hr]) hne
    · exact ⟨by dsimp only; omega, hblock.2⟩
    · exact hb.free r (by simp [hr]) hne
  · rw [List.forall_mem_cons]
    refine ⟨⟨by dsimp only; omega, ?_⟩, hb.used⟩
    have := hblock.2
    dsimp only at this ⊢
    omega

theorem take_books (hb : Books env h F A) (hprev : prev ∈ F.map Range.addr) (hn : 0 < n)
    (hfit : n ≤ (h.mem (h.mem prev).ptr).size) :
    ∃ a F', (take h n prev (h.mem prev).ptr).2 = a + 16 ∧
      Books env (take h n prev (h.mem prev).ptr).1 F' (⟨a, 16 * n⟩ :: A) := by
  obtain ⟨c, hc, rfl⟩ := List.mem_map.mp hprev
  obtain ⟨us, vs, rfl⟩ := List.append_of_mem hc
  cases vs with
  | nil =>
    rw [hb.linked.next_last, hb.linked.base_size] at hfit
    omega
  | cons r vs =>
    rw [hb.linked.next_eq] at hfit ⊢
    have hsize := hb.linked.sizes r (by simp)
    have hne : r.addr ≠ env.base := by
      intro heq
      rw [heq, hb.linked.base_size] at hfit
      omega
    by_cases heq : (h.mem r.addr).size = n
    · rw [take, if_pos heq]
      refine ⟨r.addr, us ++ c :: vs, rfl, ?_⟩
      rw [show Range.mk r.addr (16 * n) = r by rw [← heq, hsize]]
      exact take_whole hb (hb.free r (by simp) hne)
    · rw [take, if_neg heq]
      dsimp only
      rw [setSize_same]
      refine ⟨r.addr + 16 * ((h.mem r.addr).size - n),
        (us ++ [c]) ++ ⟨r.addr, 16 * ((h.mem r.addr).size - n)⟩ :: vs, rfl, ?_⟩
      have hcut : r = ⟨r.addr, 16 * ((h.mem r.addr).size - n) + 16 * n⟩ := by
        rw [← Nat.mul_add, Nat.sub_add_cancel hfit, hsize]
      rw [List.append_cons, hcut] at hb
      exact take_end hb hne (by omega) hn (by simp)

/-- The memory that `sbrk` gives is a block in use at first. -/
theorem Books.grant (hfew : env.Few) (hb : Books env h F A) {nu hp : Nat} (hnu : 0 < nu)
    (hs : env.sbrk h.calls h.got (nu * 16) = some hp) :
    Books env ⟨setSize h.mem hp nu, h.freep, ⟨hp, nu * 16⟩ :: h.got, h.calls + 1⟩ F (⟨hp, nu * 16⟩ :: A) := by
  have hbelow := env.base_below
  have habove := env.above _ _ _ _ hs
  have hfresh := env.fresh _ _ _ _ hs
  have hold : ∀ r, r ∈ F ∨ r ∈ A → IsBlock r → r.addr < hp := by
    intro r hr hblock
    obtain ⟨g, hg, hin⟩ := hb.layout.mem_given hr hblock.addr_mem
    have := hfresh g hg
    have := (mem_bytes.mp hin).2
    omega
  have hne : ∀ r ∈ F, r.addr ≠ hp := by
    intro r hr
    by_cases hbase : r.addr = env.base
    · omega
    · exact Nat.ne_of_lt (hold r (.inl hr) (hb.free r hr hbase))
  refine ⟨⟨hb.linked.head, ?_, fun r hr => ?_, hb.linked.freep⟩, hb.layout.grant hfresh, ?_, hb.free, ?_, ?_, ?_⟩
  · exact hb.linked.circle.congr fun x _ => setSize_ptr
  · dsimp only
    rw [setSize_other (hne r hr)]
    exact hb.linked.sizes r hr
  · rw [List.forall_mem_cons]
    refine ⟨?_, fun r hr => ?_⟩
    · dsimp only
      rw [setSize_same, Nat.mul_comm]
    · dsimp only
      rw [setSize_other (Nat.ne_of_lt (hold r (.inr hr) (hb.used r hr)))]
      exact hb.sizes r hr
  · rw [List.forall_mem_cons]
    exact ⟨⟨Nat.mul_pos hnu (by decide), env.aligned _ _ _ _ hs⟩, hb.used⟩
  · rw [List.forall_mem_cons]
    exact ⟨habove, hb.above⟩
  · have := hfew _ _ _ _ hs
    rw [total, List.map_cons, List.sum_cons, ← total]
    dsimp only
    omega

def asked (nu : Nat) : Nat := if nu < 4096 then 4096 else nu

theorem morecore_refused (nu : Nat) (hs : env.sbrk h.calls h.got (asked nu * 16) = none) (fuel : Nat) :
    morecore env fuel h nu = some ({ h with calls := h.calls + 1 }, 0) := by
  rw [asked] at hs
  rw [morecore, hs]

theorem morecore_books (hfew : env.Few) (hb : Books env h F A) (nu : Nat) {hp : Nat}
    (hs : env.sbrk h.calls h.got (asked nu * 16) = some hp) :
    ∃ h' F', (∀ fuel, F.length ≤ fuel → morecore env fuel h nu = some (h', h'.freep)) ∧ Books env h' F' A ∧
      ∃ r ∈ F', 16 * nu ≤ r.len := by
  have hpos : nu ≤ asked nu ∧ 0 < asked nu := by
    rw [asked]
    split <;> omega
  obtain ⟨h', F', hrun, hb', -, r, hr, hlen⟩ := free_books (hb.grant hfew hpos.2 hs)
  refine ⟨h', F', fun fuel hfuel => ?_, hb', r, hr, ?_⟩
  · rw [asked] at hs hrun
    rw [morecore]
    dsimp only at hrun ⊢
    rw [hs]
    dsimp only
    rw [hrun fuel hfuel]
    rfl
  · dsimp only at hlen
    omega

def more (env : Env) (n fuel : Nat) (h : Heap) : Option (Heap × Nat) := do
  let (h, p) ← morecore env fuel h n
  if p = 0 then return (h, 0) else mallocLoop env n fuel h p (h.mem p).ptr

/-- The loop from `a` on to `freep`: the first block that is large enough is taken, or there is
none. -/
theorem mallocLoop_path (env : Env) (n : Nat) (hpath : Path (fun a => (h.mem a).ptr) a xs h.freep)
    (hno : h.freep ∉ xs) :
    (∃ prev ∈ a :: xs, (h.mem prev).ptr ∈ xs ++ [h.freep] ∧ n ≤ (h.mem (h.mem prev).ptr).size ∧
      ∀ fuel, xs.length < fuel →
      mallocLoop env n fuel h a (h.mem a).ptr = some (take h n prev (h.mem prev).ptr)) ∨
    ((∀ x ∈ xs ++ [h.freep], (h.mem x).size < n) ∧ ∀ fuel,
      mallocLoop env n (fuel + xs.length + 1) h a (h.mem a).ptr = more env n fuel h) := by
  induction xs generalizing a with
  | nil =>
    have hnext : (h.mem a).ptr = h.freep := hpath
    by_cases hfit : n ≤ (h.mem h.freep).size
    · refine .inl ⟨a, by simp, by simp [hnext], by rw [hnext]; exact hfit, fun fuel hfuel => ?_⟩
      obtain ⟨fuel, rfl⟩ := Nat.exists_eq_add_of_lt hfuel
      rw [mallocLoop, hnext, if_pos hfit]
    · refine .inr ⟨by simpa using hfit, fun fuel => ?_⟩
      rw [List.length_nil, mallocLoop, hnext, if_neg hfit, if_pos rfl]
      rfl
  | cons x xs ih =>
    have hnext : (h.mem a).ptr = x := hpath.1
    rw [List.mem_cons, not_or] at hno
    by_cases hfit : n ≤ (h.mem x).size
    · refine .inl ⟨a, by simp, by simp [hnext], by rw [hnext]; exact hfit, fun fuel hfuel => ?_⟩
      obtain ⟨fuel, rfl⟩ := Nat.exists_eq_add_of_lt hfuel
      rw [mallocLoop, hnext, if_pos hfit]
    · rcases ih hpath.2 hno.2 with ⟨prev, hprev, hmem, hlarge, hrun⟩ | ⟨hsmall, hrun⟩
      · refine .inl ⟨prev, List.mem_cons_of_mem a hprev, List.mem_cons_of_mem x hmem, hlarge, fun fuel hfuel => ?_⟩
        rw [List.length_cons] at hfuel
        obtain ⟨fuel, rfl⟩ : ∃ k, fuel = k + 1 := ⟨fuel - 1, by omega⟩
        rw [mallocLoop, hnext, if_neg hfit, if_neg (Ne.symm hno.1)]
        exact hrun fuel (by omega)
      · refine .inr ⟨?_, fun fuel => ?_⟩
        · rw [List.cons_append, List.forall_mem_cons]
          exact ⟨by omega, hsmall⟩
        · rw [List.length_cons, ← Nat.add_assoc, mallocLoop, hnext, if_neg hfit, if_neg (Ne.symm hno.1)]
          exact hrun fuel

/-- One round from `freep`. -/
theorem mallocLoop_round (hb : Books env h F A) (n : Nat) :
    (∃ prev ∈ F.map Range.addr, (∃ r ∈ F, 16 * n ≤ r.len) ∧ n ≤ (h.mem (h.mem prev).ptr).size ∧
      ∀ fuel, F.length ≤ fuel →
      mallocLoop env n fuel h h.freep (h.mem h.freep).ptr = some (take h n prev (h.mem prev).ptr)) ∨
    ((∀ r ∈ F, r.len < 16 * n) ∧ ∀ fuel,
      mallocLoop env n (fuel + F.length) h h.freep (h.mem h.freep).ptr = more env n fuel h) := by
  obtain ⟨xs, hpath, hperm⟩ := hb.linked.circle.from_mem hb.linked.freep
  have hnodup : (F.map Range.addr).Nodup := by
    refine List.pairwise_map.mpr (hb.layout.ordered.imp fun hapart => ?_)
    exact Nat.ne_of_lt hapart.addr_lt
  have hno : h.freep ∉ xs := (List.nodup_cons.mp (hperm.nodup_iff.mpr hnodup)).1
  have hlen := hperm.length_eq
  rw [List.length_cons, List.length_map] at hlen
  rcases mallocLoop_path env n hpath hno with ⟨prev, hprev, hmem, hfit, hrun⟩ | ⟨hsmall, hrun⟩
  · refine .inl ⟨prev, hperm.mem_iff.mp hprev, ?_, hfit, fun fuel hfuel => hrun fuel (by omega)⟩
    obtain ⟨r, hr, heq⟩ := List.mem_map.mp (hperm.mem_iff.mp
      (show (h.mem prev).ptr ∈ h.freep :: xs by simpa [or_comm] using hmem))
    have hsize := hb.linked.sizes r hr
    rw [heq] at hsize
    exact ⟨r, hr, by omega⟩
  · refine .inr ⟨fun r hr => ?_, fun fuel => ?_⟩
    · have hin := hperm.mem_iff.mpr (List.mem_map_of_mem (f := Range.addr) hr)
      have hsize := hb.linked.sizes r hr
      have := hsmall r.addr (by simpa [or_comm] using hin)
      omega
    · rw [← hlen]
      exact hrun fuel

theorem Books.freep_ne (hb : Books env h F A) : h.freep ≠ 0 := by
  obtain ⟨r, hr, heq⟩ := List.mem_map.mp hb.linked.freep
  have := env.base_pos
  by_cases hbase : r.addr = env.base
  · omega
  · have := hb.base_lt (.inl ⟨hr, hbase⟩)
    omega

/-- How `malloc` ends, for `n` headers and the free blocks `F`: it returns 0 if there is no block
that is large enough and `sbrk` refuses, and otherwise a new block in use. It asks `sbrk` only if no
block is large enough. -/
structure Allocates (env : Env) (h : Heap) (F A : List Range) (n : Nat) (h' : Heap) (ap : Nat) : Prop where
  refused : ap = 0 → h' = { h with calls := h.calls + 1 } ∧ (∀ r ∈ F, r.len < 16 * n) ∧
    env.sbrk h.calls h.got (asked n * 16) = none
  given : ap ≠ 0 → ∃ a F', ap = a + 16 ∧ Books env h' F' (⟨a, 16 * n⟩ :: A)
  fits : (∃ r ∈ F, 16 * n ≤ r.len) → ap ≠ 0 ∧ h'.got = h.got ∧ h'.calls = h.calls
  denied : env.sbrk h.calls h.got (asked n * 16) = none → (∀ r ∈ F, r.len < 16 * n) → ap = 0

theorem take_fst (h : Heap) (n prev a : Nat) : (take h n prev a).1.got = h.got ∧
    (take h n prev a).1.calls = h.calls := by
  rw [take]
  split <;> exact ⟨rfl, rfl⟩

theorem mallocLoop_returns (hfew : env.Few) (hb : Books env h F A) (hn : 0 < n) :
    ∃ h' ap, (∃ N, ∀ fuel, N ≤ fuel → mallocLoop env n fuel h h.freep (h.mem h.freep).ptr = some (h', ap)) ∧
      Allocates env h F A n h' ap := by
  rcases mallocLoop_round hb n with ⟨prev, hprev, ⟨r, hr, hlarge⟩, hfit, hrun⟩ | ⟨hsmall, hrun⟩
  · obtain ⟨a, F', hap, hb'⟩ := take_books hb hprev hn hfit
    have hne : (take h n prev (h.mem prev).ptr).2 ≠ 0 := by omega
    refine ⟨(take h n prev (h.mem prev).ptr).1, (take h n prev (h.mem prev).ptr).2,
      ⟨F.length, hrun⟩, fun h0 => absurd h0 hne,
      fun _ => ⟨a, F', hap, hb'⟩, fun _ => ⟨hne, take_fst h n prev _⟩, fun _ hsmall => ?_⟩
    have := hsmall r hr
    omega
  have hnone : ¬ ∃ r ∈ F, 16 * n ≤ r.len := by
    rintro ⟨r, hr, hle⟩
    have := hsmall r hr
    omega
  cases hs : env.sbrk h.calls h.got (asked n * 16) with
  | none =>
    refine ⟨{ h with calls := h.calls + 1 }, 0, ⟨F.length, fun fuel hfuel => ?_⟩, fun _ =>
      ⟨rfl, hsmall, hs⟩, fun h0 => absurd rfl h0,
      fun hfit => absurd hfit hnone, fun _ _ => rfl⟩
    obtain ⟨fuel, rfl⟩ := Nat.exists_eq_add_of_le' hfuel
    rw [hrun, more, morecore_refused n hs]
    rfl
  | some hp =>
    obtain ⟨h₁, F₁, hmore, hb₁, r, hr, hlarge⟩ := morecore_books hfew hb n hs
    rcases mallocLoop_round hb₁ n with ⟨prev, hprev, -, hfit, hrun₁⟩ | ⟨hsmall₁, -⟩
    · obtain ⟨a, F', hap, hb'⟩ := take_books hb₁ hprev hn hfit
      refine ⟨(take h₁ n prev (h₁.mem prev).ptr).1, (take h₁ n prev (h₁.mem prev).ptr).2,
        ⟨F.length + F.length + F₁.length, fun fuel hfuel => ?_⟩, fun h0 => ?_, fun _ => ⟨a, F', hap, hb'⟩,
        fun hfit => absurd hfit hnone, fun hno => by rw [hs] at hno; cases hno⟩
      · obtain ⟨fuel, rfl⟩ : ∃ k, fuel = k + F.length := ⟨fuel - F.length, by omega⟩
        rw [hrun, more, hmore fuel (by omega)]
        simp only [Option.bind_eq_bind, Option.bind_some, if_neg hb₁.freep_ne]
        exact hrun₁ fuel (by omega)
      · rw [hap] at h0
        omega
    · have := hsmall₁ r hr
      omega

end Xv6.Umalloc
