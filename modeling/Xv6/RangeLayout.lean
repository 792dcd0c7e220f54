import Mathlib.Algebra.BigOperators.Group.Multiset.Basic
import Mathlib.Data.Multiset.UnionInter
import Mathlib.Tactic.Abel

/-!
# Ranges of memory

A heap has its free ranges in the order of their addresses, no two of them adjacent, and the ranges
in use. Together they are what the heap was given, byte for byte: nothing is lost and nothing is
handed out twice. Ranges are cut and joined, and change from one side to the other.
-/
namespace Xv6.RangeLayout

structure Range where
  addr : Nat
  len : Nat
  deriving DecidableEq

def Range.limit (r : Range) : Nat := r.addr + r.len

def Range.bytes (r : Range) : Multiset Nat := (List.range' r.addr r.len : List Nat)

def allBytes (L : List Range) : Multiset Nat := (L.map Range.bytes).sum

def total (L : List Range) : Nat := (L.map Range.len).sum

variable {r r' b p v : Range} {F L L' A G us vs : List Range} {a m n : Nat}

theorem mem_bytes : a ∈ r.bytes ↔ r.addr ≤ a ∧ a < r.limit := by
  simp [Range.bytes, Range.limit, List.mem_range'_1]

@[simp] theorem allBytes_nil : allBytes [] = 0 := rfl

@[simp] theorem allBytes_cons : allBytes (r :: L) = r.bytes + allBytes L := rfl

@[simp] theorem allBytes_append : allBytes (L ++ L') = allBytes L + allBytes L' := by
  rw [allBytes, List.map_append, List.sum_append]
  rfl

theorem mem_allBytes : a ∈ allBytes L ↔ ∃ r ∈ L, a ∈ r.bytes := by
  induction L with
  | nil => simp
  | cons r L ih => simp [ih]

theorem card_allBytes : (allBytes L).card = total L := by
  induction L with
  | nil => rfl
  | cons r L ih => simp [ih, total, Range.bytes]

/-- Two ranges that meet are one. -/
theorem bytes_join (r r' : Range) (h : r.limit = r'.addr) :
    (Range.mk r.addr (r.len + r'.len)).bytes = r.bytes + r'.bytes := by
  rw [Range.bytes, Range.bytes, Range.bytes, ← h, Range.limit, Multiset.coe_add, List.range'_append_1]

def Apart (r r' : Range) : Prop := r.limit < r'.addr

theorem Apart.addr_lt (h : Apart r r') : r.addr < r'.addr := Nat.lt_of_le_of_lt (Nat.le_add_right _ _) h

/-- The free ranges `F` and the ranges `A` in use, of the ranges `G` that were given. -/
structure Layout (F A G : List Range) : Prop where
  ordered : F.Pairwise Apart
  bytes : allBytes F + allBytes A = allBytes G
  nodup : (allBytes G).Nodup

theorem Layout.total (h : Layout F A G) : total F + total A = total G := by
  have hcard := congrArg Multiset.card h.bytes
  rwa [Multiset.card_add, card_allBytes, card_allBytes, card_allBytes] at hcard

theorem Layout.disjoint (h : Layout F A G) (hr : r ∈ F) (hb : b ∈ A) (ha : a ∈ r.bytes) : a ∉ b.bytes := by
  have hn := h.nodup
  rw [← h.bytes, Multiset.nodup_add] at hn
  intro hab
  exact Multiset.disjoint_left.mp hn.2.2 (mem_allBytes.mpr ⟨r, hr, ha⟩) (mem_allBytes.mpr ⟨b, hb, hab⟩)

theorem Layout.used_disjoint (h : Layout F (b :: A) G) (hr : r ∈ A) (ha : a ∈ b.bytes) : a ∉ r.bytes := by
  have hn := h.nodup
  rw [← h.bytes, allBytes_cons, Multiset.nodup_add, Multiset.nodup_add] at hn
  intro har
  exact Multiset.disjoint_left.mp hn.2.1.2.2 ha (mem_allBytes.mpr ⟨r, hr, har⟩)

theorem len_le_total (hr : r ∈ L) : r.len ≤ total L := by
  obtain ⟨us, vs, rfl⟩ := List.append_of_mem hr
  rw [RangeLayout.total, List.map_append, List.sum_append, List.map_cons, List.sum_cons]
  omega

/-- A range in use lies past the free ones with lower addresses. -/
theorem Layout.above (h : Layout F A G) (hr : r ∈ F) (hb : b ∈ A) (hpos : 0 < b.len) (hlt : r.addr < b.addr) :
    r.limit ≤ b.addr := by
  by_contra hno
  exact h.disjoint hr hb (a := b.addr) (mem_bytes.mpr (by omega)) (mem_bytes.mpr (by rw [Range.limit]; omega))

theorem Layout.below (h : Layout F A G) (hr : r ∈ F) (hb : b ∈ A) (hpos : 0 < r.len) (hlt : b.addr < r.addr) :
    b.limit ≤ r.addr := by
  by_contra hno
  exact h.disjoint hr hb (a := r.addr) (mem_bytes.mpr (by rw [Range.limit]; omega)) (mem_bytes.mpr (by omega))

theorem Layout.mem_given (h : Layout F A G) (hr : r ∈ F ∨ r ∈ A) (ha : a ∈ r.bytes) : ∃ g ∈ G, a ∈ g.bytes := by
  rw [← mem_allBytes, ← h.bytes, Multiset.mem_add, mem_allBytes, mem_allBytes]
  exact hr.imp (fun hr => ⟨r, hr, ha⟩) (fun hr => ⟨r, hr, ha⟩)

/-- The place of an address among ordered ranges that begin below it. -/
theorem exists_place (hord : (r :: L).Pairwise fun r r' => r.addr < r'.addr) (hr : r.addr < a)
    (hne : ∀ r' ∈ L, r'.addr ≠ a) :
    ∃ us p vs, r :: L = us ++ p :: vs ∧ (∀ u ∈ us, u.addr < p.addr) ∧ p.addr < a ∧ ∀ v ∈ vs, a < v.addr := by
  induction L generalizing r with
  | nil => exact ⟨[], r, [], rfl, by simp, hr, by simp⟩
  | cons x L ih =>
    rw [List.pairwise_cons] at hord
    rw [List.forall_mem_cons] at hne
    by_cases hx : x.addr < a
    · obtain ⟨us, p, vs, heq, hus, hp, hvs⟩ := ih hord.2 hx hne.2
      refine ⟨r :: us, p, vs, by rw [heq]; rfl, ?_, hp, hvs⟩
      rw [List.forall_mem_cons]
      refine ⟨hord.1 p ?_, hus⟩
      rw [heq]
      simp
    · refine ⟨[], r, x :: L, rfl, by simp, hr, ?_⟩
      rw [List.forall_mem_cons]
      refine ⟨by omega, fun v hv => ?_⟩
      have := (List.pairwise_cons.mp hord.2).1 v hv
      omega

/-- A range in use takes over the free range past its end. -/
theorem Layout.absorb (h : Layout (us ++ v :: vs) (b :: A) G) (hmeet : b.limit = v.addr) :
    Layout (us ++ vs) (⟨b.addr, b.len + v.len⟩ :: A) G := by
  refine ⟨h.ordered.sublist (by simp), ?_, h.nodup⟩
  rw [← h.bytes]
  simp only [allBytes_append, allBytes_cons, bytes_join b v hmeet]
  abel

theorem Layout.insert (h : Layout (us ++ vs) (b :: A) G) (hus : ∀ u ∈ us, Apart u b) (hvs : ∀ v ∈ vs, Apart b v) :
    Layout (us ++ b :: vs) A G := by
  refine ⟨?_, ?_, h.nodup⟩
  · have hord := List.pairwise_append.mp h.ordered
    rw [List.pairwise_append, List.pairwise_cons]
    refine ⟨hord.1, ⟨hvs, hord.2.1⟩, fun u hu => ?_⟩
    rw [List.forall_mem_cons]
    exact ⟨hus u hu, hord.2.2 u hu⟩
  · rw [← h.bytes]
    simp only [allBytes_append, allBytes_cons]
    abel

/-- A free range takes over the range in use past its end. -/
theorem Layout.merge (h : Layout (us ++ p :: vs) (b :: A) G) (hmeet : p.limit = b.addr)
    (hvs : ∀ v ∈ vs, Apart b v) :
    Layout (us ++ ⟨p.addr, p.len + b.len⟩ :: vs) A G := by
  have hlimit : (Range.mk p.addr (p.len + b.len)).limit = b.limit := by
    rw [Range.limit, Range.limit] at *
    dsimp only
    omega
  refine ⟨?_, ?_, h.nodup⟩
  · have hord := List.pairwise_append.mp h.ordered
    rw [List.pairwise_append, List.pairwise_cons]
    refine ⟨hord.1, ⟨fun v hv => ?_, (List.pairwise_cons.mp hord.2.1).2⟩, fun u hu => ?_⟩
    · rw [Apart, hlimit]
      exact hvs v hv
    · have hu := hord.2.2 u hu
      rw [List.forall_mem_cons] at hu ⊢
      exact hu
  · rw [← h.bytes]
    simp only [allBytes_append, allBytes_cons, bytes_join p b hmeet]
    abel

theorem Layout.take (h : Layout (us ++ b :: vs) A G) : Layout (us ++ vs) (b :: A) G := by
  refine ⟨h.ordered.sublist (by simp), ?_, h.nodup⟩
  rw [← h.bytes]
  simp only [allBytes_append, allBytes_cons]
  abel

/-- The end of a free range is taken. -/
theorem Layout.split (h : Layout (us ++ ⟨a, m + n⟩ :: vs) A G) : Layout (us ++ ⟨a, m⟩ :: vs)
    (⟨a + m, n⟩ :: A) G := by
  refine ⟨?_, ?_, h.nodup⟩
  · have hord := List.pairwise_append.mp h.ordered
    have hvs := List.pairwise_cons.mp hord.2.1
    rw [List.pairwise_append, List.pairwise_cons]
    refine ⟨hord.1, ⟨fun v hv => ?_, hvs.2⟩, fun u hu => ?_⟩
    · have := hvs.1 v hv
      rw [Apart, Range.limit] at *
      dsimp only at *
      omega
    · have hu := hord.2.2 u hu
      rw [List.forall_mem_cons] at hu ⊢
      exact hu
  · have hjoin : (Range.mk a (m + n)).bytes = (Range.mk a m).bytes + (Range.mk (a + m) n).bytes :=
      bytes_join ⟨a, m⟩ ⟨a + m, n⟩ rfl
    rw [← h.bytes]
    simp only [allBytes_append, allBytes_cons, hjoin]
    abel

/-- A new range past all that were given before. -/
theorem Layout.grant (h : Layout F A G) (hnew : ∀ g ∈ G, g.limit ≤ r.addr) : Layout F (r :: A) (r :: G) := by
  refine ⟨h.ordered, ?_, ?_⟩
  · rw [allBytes_cons, allBytes_cons, ← h.bytes]
    abel
  · rw [allBytes_cons, Multiset.nodup_add]
    refine ⟨List.nodup_range', h.nodup, Multiset.disjoint_left.mpr ?_⟩
    intro a ha hG
    obtain ⟨g, hg, hag⟩ := mem_allBytes.mp hG
    have := hnew g hg
    rw [mem_bytes] at ha hag
    omega

/-- The ranges, the last one first, with nothing between them. -/
def InOnePiece (G : List Range) : Prop := G.IsChain fun g g' => g'.limit = g.addr

theorem mem_onePiece {g : Range} (h : InOnePiece (g :: G)) : ((g :: G).getLast (by simp)).addr ≤ g.addr ∧
    ∀ a, a ∈ allBytes (g :: G) ↔ ((g :: G).getLast (by simp)).addr ≤ a ∧ a < g.limit := by
  induction G generalizing g with
  | nil =>
    refine ⟨Nat.le_refl _, fun a => ?_⟩
    rw [mem_allBytes]
    simp [mem_bytes]
  | cons g' G ih =>
    obtain ⟨hmeet, hrest⟩ := List.isChain_cons_cons.mp h
    obtain ⟨hle, hin⟩ := ih hrest
    have hg : g'.addr ≤ g.addr := by
      rw [← hmeet]
      exact Nat.le_add_right _ _
    have hlast : (g :: g' :: G).getLast (by simp) = (g' :: G).getLast (by simp) := List.getLast_cons (by simp)
    have hg' : g.addr ≤ g.limit := Nat.le_add_right _ _
    rw [hlast]
    refine ⟨by omega, fun a => ?_⟩
    rw [allBytes_cons, Multiset.mem_add, mem_bytes, hin, hmeet]
    omega

/-- Ranges that are apart and make up one piece are one range. -/
theorem eq_singleton {s e : Nat} (hord : L.Pairwise Apart) (hpos : ∀ r ∈ L, 0 < r.len)
    (hbytes : ∀ a, a ∈ allBytes L ↔ s ≤ a ∧ a < e) (hne : s < e) : L = [⟨s, e - s⟩] := by
  have hin (a : Nat) (h₁ : s ≤ a) (h₂ : a < e) : ∃ r ∈ L, r.addr ≤ a ∧ a < r.limit := by
    obtain ⟨r, hr, ha⟩ := mem_allBytes.mp ((hbytes a).mpr ⟨h₁, h₂⟩)
    exact ⟨r, hr, mem_bytes.mp ha⟩
  have hends (r : Range) (hr : r ∈ L) : s ≤ r.addr ∧ r.limit ≤ e ∧ r.addr < r.limit := by
    have hp := hpos r hr
    have hfirst := (hbytes r.addr).mp (mem_allBytes.mpr ⟨r, hr, mem_bytes.mpr (by rw [Range.limit]; omega)⟩)
    have hlast := (hbytes (r.limit - 1)).mp (mem_allBytes.mpr ⟨r, hr, mem_bytes.mpr (by rw [Range.limit]; omega)⟩)
    rw [Range.limit] at *
    omega
  cases L with
  | nil =>
    obtain ⟨r, hr, -⟩ := hin s (Nat.le_refl s) hne
    cases hr
  | cons r L =>
    rw [List.pairwise_cons] at hord
    obtain ⟨h₁, h₂, h₃⟩ := hends r (by simp)
    have hstart : r.addr = s := by
      obtain ⟨r', hr', ha, hlt⟩ := hin s (Nat.le_refl s) hne
      rcases List.mem_cons.mp hr' with rfl | hr'
      · omega
      · have := hord.1 r' hr'
        rw [Apart] at this
        omega
    have hend : r.limit = e := by
      by_contra hno
      obtain ⟨r', hr', ha, hlt⟩ := hin r.limit (by omega) (by omega)
      rcases List.mem_cons.mp hr' with rfl | hr'
      · omega
      · have := hord.1 r' hr'
        rw [Apart] at this
        omega
    have hnil : L = [] := by
      refine List.eq_nil_iff_forall_not_mem.mpr fun r' hr' => ?_
      have := hord.1 r' hr'
      have := hends r' (by simp [hr'])
      rw [Apart] at *
      omega
    rw [hnil]
    have hlen : r.len = e - s := by
      rw [Range.limit] at hend
      omega
    rw [← hstart] at hlen ⊢
    rw [← hlen]

end Xv6.RangeLayout
