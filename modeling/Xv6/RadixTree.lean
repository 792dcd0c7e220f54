import Mathlib.Data.List.Induction
import Mathlib.Data.List.Nodup
import Mathlib.Data.List.Perm.Basic

/-!
# Radix trees in a memory of tables

A memory holds tables of entries, and an entry may point to a further table. A path of indices from
a root is followed entry by entry. `nodes h t` lists what the tree of height `h` under table `t`
refers to, each with its path, a node after everything below it. The list has no path twice, so two
memories with the same `follow` have the same nodes up to order.
-/
namespace Xv6.RadixTree

open Function

variable {h t u r : Nat} {p : List Nat}

variable {E : Type} (child : E → Option Nat) (width : Nat → Nat)

def follow (mem : Nat → Nat → E) : Nat → List Nat → Option Nat
  | t, [] => some t
  | t, i :: p => (child (mem t i)).bind (fun u => follow mem u p)

/-- The path stays within the tables of a tree of the given height. -/
def Inside : Nat → List Nat → Prop
  | _, [] => True
  | h, i :: p => 0 < h ∧ i < width h ∧ Inside (h - 1) p

def nodes (mem : Nat → Nat → E) : Nat → Nat → List (List Nat × Nat)
  | 0, _ => []
  | h + 1, t => (List.range (width (h + 1))).flatMap (fun i =>
      match child (mem t i) with
      | none => []
      | some u => (nodes mem h u).map (fun n => (i :: n.1, n.2)) ++ [([i], u)])

/-- The tables and objects the tree refers to, in the order of `nodes`. -/
def refs (mem : Nat → Nat → E) (h t : Nat) : List Nat := (nodes child width mem h t).map Prod.snd

variable {child width} {mem mem' : Nat → Nat → E}

@[simp] theorem follow_nil (t : Nat) : follow child mem t [] = some t := rfl

theorem follow_append (t : Nat) (p q : List Nat) :
    follow child mem t (p ++ q) = (follow child mem t p).bind (fun u => follow child mem u q) := by
  induction p generalizing t with
  | nil => rfl
  | cons i p ih =>
    simp only [List.cons_append, follow, Option.bind_assoc]
    congr 1
    funext u
    exact ih u

theorem follow_snoc (t : Nat) (p : List Nat) (i : Nat) :
    follow child mem t (p ++ [i]) = (follow child mem t p).bind (fun u => child (mem u i)) := by
  rw [follow_append]
  congr 1
  funext u
  simp [follow]

@[simp] theorem inside_nil (h : Nat) : Inside width h [] := trivial

theorem inside_succ {i : Nat} :
    Inside width (h + 1) (i :: p) ↔ i < width (h + 1) ∧ Inside width h p := by
  simp [Inside]

theorem Inside.length_le (hp : Inside width h p) : p.length ≤ h := by
  induction p generalizing h with
  | nil => simp
  | cons i p ih =>
    obtain ⟨hpos, -, hp⟩ := hp
    have := ih hp
    simp only [List.length_cons]
    omega

theorem mem_nodes :
    (p, u) ∈ nodes child width mem h t ↔
      p ≠ [] ∧ Inside width h p ∧ follow child mem t p = some u := by
  induction h generalizing t p with
  | zero => cases p <;> simp [nodes, Inside]
  | succ h ih =>
    simp only [nodes, List.mem_flatMap, List.mem_range]
    cases p with
    | nil =>
      simp only [ne_eq, not_true_eq_false, false_and, iff_false, not_exists, not_and]
      intro i _
      cases child (mem t i) <;> simp
    | cons j p =>
      simp only [ne_eq, reduceCtorEq, not_false_eq_true, true_and, inside_succ, follow]
      constructor
      · rintro ⟨i, hi, hm⟩
        cases hc : child (mem t i) with
        | none => simp [hc] at hm
        | some v =>
          simp only [hc, List.mem_append, List.mem_map, Prod.mk.injEq, List.cons.injEq,
            List.mem_singleton, Prod.exists] at hm
          rcases hm with ⟨q, w, hq, ⟨rfl, rfl⟩, rfl⟩ | ⟨⟨rfl, rfl⟩, rfl⟩
          · have hq := ih.mp hq
            exact ⟨⟨hi, hq.2.1⟩, by simpa [hc] using hq.2.2⟩
          · exact ⟨⟨hi, inside_nil h⟩, by simp [hc]⟩
      · rintro ⟨⟨hj, hp⟩, hf⟩
        refine ⟨j, hj, ?_⟩
        cases hc : child (mem t j) with
        | none => simp [hc] at hf
        | some v =>
          simp only [hc, Option.bind_some] at hf
          cases p with
          | nil =>
            obtain rfl : v = u := by simpa using hf
            simp
          | cons k p =>
            simp only [List.mem_append, List.mem_map, Prod.mk.injEq, List.cons.injEq, Prod.exists]
            exact .inl ⟨k :: p, u, ih.mpr ⟨by simp, hp, hf⟩, ⟨trivial, rfl⟩, rfl⟩

theorem paths_nodup (h t : Nat) : ((nodes child width mem h t).map Prod.fst).Nodup := by
  induction h generalizing t with
  | zero => simp [nodes]
  | succ h ih =>
    simp only [nodes, List.map_flatMap]
    have hhead : ∀ i p, p ∈ List.map Prod.fst (match child (mem t i) with
        | none => []
        | some u => (nodes child width mem h u).map (fun n => (i :: n.1, n.2)) ++ [([i], u)]) →
        p.head? = some i := by
      intro i p hp
      cases hc : child (mem t i) with
      | none => simp [hc] at hp
      | some u =>
        simp only [hc, List.map_append, List.map_map, List.mem_append, List.mem_map] at hp
        rcases hp with ⟨n, _, rfl⟩ | hp
        · simp
        · obtain rfl : [i] = p := by simpa using hp
          rfl
    rw [List.nodup_flatMap]
    refine ⟨?_, ?_⟩
    · intro i _
      cases hc : child (mem t i) with
      | none => simp
      | some u =>
        have hcons : List.map Prod.fst ((nodes child width mem h u).map (fun n => (i :: n.1, n.2))) =
            ((nodes child width mem h u).map Prod.fst).map (i :: ·) := by
          simp [comp_def]
        rw [List.map_append, hcons]
        refine List.nodup_append.mpr ⟨(ih u).map (List.cons_injective), by simp, ?_⟩
        intro p hp q hq
        obtain ⟨p', hp', rfl⟩ := List.mem_map.mp hp
        obtain ⟨n, hn, rfl⟩ := List.mem_map.mp hp'
        have hne := (mem_nodes.mp hn).1
        simp only [List.map_cons, List.map_nil, List.mem_singleton] at hq
        rw [hq]
        simpa using hne
    · refine List.nodup_range.imp_of_mem ?_
      intro i j _ _ hij p hpi hpj
      have h₁ := hhead i p hpi
      have h₂ := hhead j p hpj
      rw [h₁] at h₂
      exact hij (Option.some.inj h₂)

theorem nodes_nodup (h t : Nat) : (nodes child width mem h t).Nodup :=
  (paths_nodup h t).of_map

theorem mem_refs :
    u ∈ refs child width mem h t ↔ ∃ p, p ≠ [] ∧ Inside width h p ∧ follow child mem t p = some u := by
  simp only [refs, List.mem_map, Prod.exists, mem_nodes]
  constructor
  · rintro ⟨p, v, hp, rfl⟩
    exact ⟨p, hp⟩
  · rintro ⟨p, hp⟩
    exact ⟨p, u, hp, rfl⟩

theorem refs_zero (t : Nat) : refs child width mem 0 t = [] := rfl

theorem refs_succ (h t : Nat) : refs child width mem (h + 1) t =
    (List.range (width (h + 1))).flatMap (fun i =>
      match child (mem t i) with
      | none => []
      | some u => refs child width mem h u ++ [u]) := by
  simp only [refs, nodes, List.map_flatMap]
  congr 1
  funext i
  cases child (mem t i) with
  | none => rfl
  | some u => simp [comp_def]

/-- The nodes depend on the entries of the tree's tables only. -/
theorem nodes_congr (ht : ∀ i < width h, mem' t i = mem t i)
    (hsub : ∀ p u, p ≠ [] → p.length < h → Inside width h p → follow child mem t p = some u →
      ∀ i, mem' u i = mem u i) :
    nodes child width mem' h t = nodes child width mem h t := by
  induction h generalizing t with
  | zero => rfl
  | succ h ih =>
    simp only [nodes]
    refine List.flatMap_congr ?_
    intro i hi
    rw [List.mem_range] at hi
    rw [ht i hi]
    cases hc : child (mem t i) with
    | none => rfl
    | some u =>
      have hfol : ∀ p, follow child mem t (i :: p) = follow child mem u p := by
        intro p
        simp [follow, hc]
      cases h with
      | zero => rfl
      | succ h =>
        have heq := ih (t := u)
          (fun j _ => hsub [i] u (by simp) (by simp) (inside_succ.mpr ⟨hi, inside_nil _⟩) (hfol []) j)
          (fun p v hne hlen hin hf =>
            hsub (i :: p) v (by simp) (by simpa using hlen) (inside_succ.mpr ⟨hi, hin⟩) (by rw [hfol, hf]))
        simp only [heq]

/-- The references of a tree depend on the tables and objects it refers to. -/
theorem refs_congr (hsame : ∀ u ∈ t :: refs child width mem h t, mem' u = mem u) :
    refs child width mem' h t = refs child width mem h t := by
  rw [refs, nodes_congr, refs]
  · intro i _
    rw [hsame t (by simp)]
  · intro p u hne _ hin hf i
    rw [hsame u (List.mem_cons_of_mem t (mem_refs.mpr ⟨p, hne, hin, hf⟩))]

theorem follow_congr (p : List Nat)
    (hsub : ∀ q u, q.length < p.length → follow child mem t q = some u → mem' u = mem u) :
    follow child mem' t p = follow child mem t p := by
  induction p using List.reverseRecOn with
  | nil => rfl
  | append_singleton q i ih =>
    have hq := ih (fun q' u hlen hf => hsub q' u (by simp; omega) hf)
    rw [follow_snoc, follow_snoc, hq]
    cases hf : follow child mem t q with
    | none => rfl
    | some u => simp [hsub q u (by simp) hf]

/-- Changing one entry of a table with one path, either at the bottom or between an absent
entry and an empty table, changes where that one path leads and nothing else. -/
theorem follow_set (mem mem' : Nat → Nat → E) (H i₀ : Nat) {t₀ : Nat} {p₀ : List Nat}
    (hp₀ : follow child mem r p₀ = some t₀)
    (huniq : ∀ p, p.length < H → follow child mem r p = some t₀ → p = p₀)
    (hsame : ∀ p t i, p.length < H → follow child mem r p = some t → (t ≠ t₀ ∨ i ≠ i₀) → mem' t i = mem t i)
    (hold : p₀.length + 1 < H → child (mem t₀ i₀) = none)
    (hnew : p₀.length + 1 < H → ∀ u, child (mem' t₀ i₀) = some u → ∀ i, child (mem' u i) = none)
    (p : List Nat) (hp : p.length ≤ H) :
    follow child mem' r p = if p = p₀ ++ [i₀] then child (mem' t₀ i₀) else follow child mem r p := by
  induction p using List.reverseRecOn with
  | nil => simp
  | append_singleton q i ih =>
    simp only [List.length_append, List.length_singleton] at hp
    have hq := ih (by omega)
    rw [follow_snoc, hq]
    by_cases he : q = p₀ ++ [i₀]
    · have hlen : p₀.length + 1 < H := by
        have := congrArg List.length he
        simp at this
        omega
      have hne : q ++ [i] ≠ p₀ ++ [i₀] := by
        intro hc
        have h₁ := congrArg List.length hc
        have h₂ := congrArg List.length he
        simp at h₁ h₂
        omega
      rw [if_pos he, if_neg hne, follow_snoc, he, follow_snoc, hp₀]
      simp only [Option.bind_some, hold hlen, Option.bind_none]
      cases hc : child (mem' t₀ i₀) with
      | none => rfl
      | some u => simpa using hnew hlen u hc i
    · rw [if_neg he]
      cases hf : follow child mem r q with
      | none =>
        have hne : q ++ [i] ≠ p₀ ++ [i₀] := by
          intro hc
          have := (List.append_inj' hc rfl).1
          rw [this, hp₀] at hf
          cases hf
        rw [if_neg hne, follow_snoc, hf]
        rfl
      | some t =>
        simp only [Option.bind_some]
        by_cases hqp : q = p₀
        · obtain rfl : t = t₀ := by
            rw [hqp, hp₀] at hf
            exact (Option.some.inj hf).symm
          by_cases hi : i = i₀
          · subst hqp hi
            simp
          · have hne : q ++ [i] ≠ p₀ ++ [i₀] := by
              intro hc
              exact hi (by simpa using (List.append_inj' hc rfl).2)
            rw [if_neg hne, follow_snoc, hf, hsame q t i (by omega) hf (.inr hi)]
            rfl
        · have ht : t ≠ t₀ := by
            rintro rfl
            exact hqp (huniq q (by omega) hf)
          have hne : q ++ [i] ≠ p₀ ++ [i₀] := by
            intro hc
            exact hqp (List.append_inj' hc rfl).1
          rw [if_neg hne, follow_snoc, hf, hsame q t i (by omega) hf (.inl ht)]
          rfl

theorem nodes_perm {r' : Nat}
    (heq : ∀ p, p ≠ [] → Inside width h p → follow child mem' r' p = follow child mem r p) :
    (nodes child width mem' h r').Perm (nodes child width mem h r) := by
  rw [List.perm_ext_iff_of_nodup (nodes_nodup h r') (nodes_nodup h r)]
  rintro ⟨p, u⟩
  rw [mem_nodes, mem_nodes]
  constructor
  · rintro ⟨hne, hin, hf⟩
    exact ⟨hne, hin, by rw [← heq p hne hin, hf]⟩
  · rintro ⟨hne, hin, hf⟩
    exact ⟨hne, hin, by rw [heq p hne hin, hf]⟩

/-- A memory that differs by one more path has one more node. -/
theorem nodes_insert {p₁ : List Nat} (hne₁ : p₁ ≠ []) (hin₁ : Inside width h p₁)
    (hold : follow child mem r p₁ = none) (hnew : follow child mem' r p₁ = some u)
    (heq : ∀ p, p.length ≤ h → p ≠ p₁ → follow child mem' r p = follow child mem r p) :
    (nodes child width mem' h r).Perm ((p₁, u) :: nodes child width mem h r) := by
  have hnot : (p₁, u) ∉ nodes child width mem h r := by
    rw [mem_nodes, hold]
    simp
  rw [List.perm_ext_iff_of_nodup (nodes_nodup h r) (List.nodup_cons.mpr ⟨hnot, nodes_nodup h r⟩)]
  rintro ⟨p, v⟩
  rw [List.mem_cons, mem_nodes, mem_nodes, Prod.mk.injEq]
  by_cases he : p = p₁
  · subst he
    rw [hnew, hold]
    simp only [hne₁, ne_eq, not_false_eq_true, hin₁, Option.some.injEq, true_and, reduceCtorEq, and_false,
      or_false]
    exact eq_comm
  · simp only [he, false_and, false_or]
    constructor
    · rintro ⟨hne, hin, hf⟩
      exact ⟨hne, hin, by rw [← heq p hin.length_le he, hf]⟩
    · rintro ⟨hne, hin, hf⟩
      exact ⟨hne, hin, by rw [heq p hin.length_le he, hf]⟩

end Xv6.RadixTree
