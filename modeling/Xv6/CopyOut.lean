import Mathlib.Data.List.GetD
import Xv6.Transparency

/-!
# Copying to user memory

`copyout` stores a buffer page by page. Where every page has a frame of its own, what it leaves is
the old bytes with the buffer over them, and it succeeds exactly where all pages that it comes to
are the user's.
-/
namespace Xv6.CopyOut

open Words Mmu Memory Kalloc Vm Outcome PageTable AddressSpace PageNumber CopyOnWrite Dedup
open KernelStep Transparency

variable {m : Machine} {s s₁ s' : State} {mem : Mem} {kpdpt r f n o a : Nat} {rest : List Nat} {va : Word}
  {bs bs' : List Byte}

theorem pageByte_putBytes (page : Page) (o : Nat) (bs : List Byte) (o' : Nat) :
    pageByte (putBytes page o bs) o' =
    if o ≤ o' ∧ o' < o + bs.length then bs.getD (o' - o) 0 else pageByte page o' := by
  induction bs generalizing page o with
  | nil => rw [putBytes, if_neg (by simp)]
  | cons b bs ih =>
    rw [putBytes, ih, pageByte_putPageByte, List.length_cons]
    by_cases heq : o' = o
    · subst heq
      rw [if_neg (by omega), if_pos rfl, if_pos (by omega), Nat.sub_self, List.getD_cons_zero]
    · by_cases hin : o ≤ o' ∧ o' < o + (bs.length + 1)
      · rw [if_pos (by omega), if_pos hin, show o' - o = (o' - (o + 1)) + 1 by omega, List.getD_cons_succ]
      · rw [if_neg (by omega), if_neg heq, if_neg hin]

def Unshared (mem : Mem) (r : Nat) : Prop :=
  ∀ n n' f, n < 2 ^ 35 → n' < 2 ^ 35 → child (entry mem r n) = some f → child (entry mem r n') = some f → n = n'

theorem Unshared.congr {mem' : Mem} (h : Unshared mem r) (hsame : ∀ k, entry mem' r k = entry mem r k) :
    Unshared mem' r := by
  intro n n' f hn hn' hc hc'
  rw [hsame] at hc hc'
  exact h n n' f hn hn' hc hc'

/-- A page that is stored to, and the others. -/
theorem userByte_setPage (h : Tree mem kpdpt r) (hun : Unshared mem r) (hn : n < 2 ^ 35) (hu : UserPage mem r n)
    (page : Page) (v : Word) : userByte (setPage mem (frameOf (entry mem r n)) page) r v =
      if v.toNat / 4096 = n then some (pageByte page (v.toNat % 4096)) else userByte mem r v := by
  have hentry : ∀ k, entry (setPage mem (frameOf (entry mem r n)) page) r k = entry mem r k := by
    intro k
    refine pte_tables (fun t ht => setPage_other ?_ page) rfl
    rintro rfl
    exact h.leaf_not_table rfl hu.child ht
  by_cases hv : v.toNat / 4096 = n
  · rw [if_pos hv, userByte_of_page (by omega) (by rw [UserPage, hentry, hv]; exact hu), hentry, hv, setPage_same]
  rw [if_neg hv]
  by_cases huv : v.toNat < 2 ^ 47 ∧ UserPage mem r (v.toNat / 4096)
  · have hother : frameOf (entry mem r (v.toNat / 4096)) ≠ frameOf (entry mem r n) := by
      intro heq
      refine hv (hun _ _ _ (by omega) hn huv.2.child ?_)
      rw [heq]
      exact hu.child
    rw [userByte_of_page huv.1 (by rw [UserPage, hentry]; exact huv.2), userByte_of_page huv.1 huv.2, hentry,
      setPage_other hother]
  · rw [userByte_none huv, userByte_none (by rw [UserPage, hentry]; exact huv)]

/-- The bytes `bs` have been stored at `a`, and nothing else that the table or the rest of the
kernel has is different. -/
structure Copied (s s' : State) (kpdpt r : Nat) (rest : List Nat) (a : Nat) (bs : List Byte) : Prop where
  space : Space s' kpdpt r rest
  entries : ∀ k, entry s'.mem r k = entry s.mem r k
  bytes : ∀ v : Word, userByte s'.mem r v =
    if a ≤ v.toNat ∧ v.toNat < a + bs.length then some (bs.getD (v.toNat - a) 0) else userByte s.mem r v
  kept : ∀ g ∈ rest, s'.mem g = s.mem g
  free : s'.freelist = s.freelist

theorem Copied.nil (h : Space s kpdpt r rest) (a : Nat) : Copied s s kpdpt r rest a [] :=
  ⟨h, fun _ => rfl, fun v => by rw [if_neg (by simp)], fun _ _ => rfl, rfl⟩

theorem Copied.trans (h : Copied s s₁ kpdpt r rest a bs) (h' : Copied s₁ s' kpdpt r rest (a + bs.length) bs') :
    Copied s s' kpdpt r rest a (bs ++ bs') := by
  refine ⟨h'.space, fun k => (h'.entries k).trans (h.entries k), fun v => ?_, fun g hg =>
    (h'.kept g hg).trans (h.kept g hg),
    h'.free.trans h.free⟩
  rw [h'.bytes, h.bytes, List.length_append]
  by_cases h₁ : a ≤ v.toNat ∧ v.toNat < a + bs.length
  · rw [if_neg (by omega), if_pos h₁, if_pos (by omega), List.getD_append _ _ _ _ (by omega)]
  by_cases h₂ : a + bs.length ≤ v.toNat ∧ v.toNat < a + bs.length + bs'.length
  · rw [if_pos h₂, if_pos (by omega), List.getD_append_right _ _ _ _ (by omega), Nat.sub_add_eq]
  · rw [if_neg h₂, if_neg h₁, if_neg (by omega)]

/-- A copy within one page. -/
theorem memmove_copied (hfull : m.Full) (h : Space s kpdpt r rest) (hun : Unshared s.mem r) (hn : n < 2 ^ 35)
    (hu : UserPage s.mem r n) {dst : Word} (hdst : dst.toNat = (kva (frameOf (entry s.mem r n))).toNat + o)
    (hlen : o + bs.length ≤ 4096) :
    ∃ s', memmove m s dst bs = .ok s' ∧ Copied s s' kpdpt r rest (n * 4096 + o) bs := by
  have hmem := h.tree.leaf_mem rfl hu.child
  have hman : Managed (frameOf (entry s.mem r n)) := h.owned.of_held (by simp [hmem])
  have htable := h.tree.leaf_not_table rfl hu.child
  rw [kva_toNat hman.small] at hdst
  have hsame (t : Nat) (ht : t ≠ frameOf (entry s.mem r n)) (page : Page) :
      setPage s.mem (frameOf (entry s.mem r n)) page t = s.mem t := setPage_other ht page
  have htables (page : Page) (t : Nat) (ht : IsTable s.mem r t) :
      setPage s.mem (frameOf (entry s.mem r n)) page t = s.mem t := by
    refine hsame t ?_ page
    rintro rfl
    exact htable ht
  refine ⟨_, memmove_frame hman.small' (hman.ram hfull) bs hdst hlen, h.congr (htables _) rfl rfl,
    fun k => pte_tables (htables _) rfl, fun v => ?_, fun g hg => hsame g ?_ _, rfl⟩
  · rw [userByte_setPage h.tree hun hn hu, pageByte_putBytes]
    by_cases hv : v.toNat / 4096 = n
    · rw [if_pos hv, userByte_of_page (by omega) (by rw [hv]; exact hu), hv]
      by_cases hin : n * 4096 + o ≤ v.toNat ∧ v.toNat < n * 4096 + o + bs.length
      · rw [if_pos (by omega), if_pos hin, show v.toNat % 4096 - o = v.toNat - (n * 4096 + o) by omega]
      · rw [if_neg (by omega), if_neg hin]
    · rw [if_neg hv, if_neg (by omega)]
  · rintro rfl
    exact h.apart _ (by simp [hmem]) hg

def Usable (mem : Mem) (r a n : Nat) : Prop := ∀ b, a ≤ b → b < a + n → UserPage mem r (b / 4096)

theorem Usable.congr {mem' : Mem} (hsame : ∀ k, entry mem' r k = entry mem r k) :
    Usable mem' r a n ↔ Usable mem r a n := by
  simp only [Usable, UserPage, hsame]

theorem usable_nil (mem : Mem) (r a : Nat) : Usable mem r a 0 :=
  fun b h₁ h₂ => absurd h₂ (by omega)

/-- Up to the end of a page, and beyond. -/
theorem usable_add {k : Nat} (hk : 0 < k) (hpage : a % 4096 + k ≤ 4096) :
    Usable mem r a (k + n) ↔ UserPage mem r (a / 4096) ∧ Usable mem r (a + k) n := by
  constructor
  · exact fun h => ⟨h a (Nat.le_refl a) (by omega), fun b h₁ h₂ => h b (by omega) (by omega)⟩
  · rintro ⟨hu, h⟩ b h₁ h₂
    by_cases hb : b < a + k
    · rwa [show b / 4096 = a / 4096 by omega]
    · exact h b (by omega) (by omega)

def CopyEnds (s : State) (kpdpt r : Nat) (rest : List Nat) (a : Nat) (bs : List Byte)
    (x : Except Trap (State × Int)) : Prop :=
  Ends x (fun _ => ¬ Usable s.mem r a bs.length) (fun y =>
    (y.2 = 0 ∧ Usable s.mem r a bs.length ∧ Copied s y.1 kpdpt r rest a bs) ∨
      (y.2 = -1 ∧ ¬ Usable s.mem r a bs.length))

theorem copyEnds_nil (h : Space s kpdpt r rest) (a : Nat) : CopyEnds s kpdpt r rest a [] (.ok (s, 0)) :=
  .inl ⟨rfl, usable_nil _ _ _, .nil h a⟩

/-- One turn, and the rest of the loop after it. -/
theorem CopyEnds.cons {x : Except Trap (State × Int)} (h : Copied s s₁ kpdpt r rest a bs)
    (hu : UserPage s.mem r (a / 4096))
    (hpos : 0 < bs.length) (hpage : a % 4096 + bs.length ≤ 4096)
    (hx : CopyEnds s₁ kpdpt r rest (a + bs.length) bs' x) :
    CopyEnds s kpdpt r rest a (bs ++ bs') x := by
  have husable : Usable s.mem r a (bs ++ bs').length ↔ Usable s₁.mem r (a + bs.length) bs'.length := by
    rw [List.length_append, usable_add hpos hpage, Usable.congr h.entries, and_iff_right hu]
  rw [CopyEnds, husable]
  refine hx.imp fun y hy => ?_
  rcases hy with ⟨hret, hall, hcopied⟩ | hy
  · exact .inl ⟨hret, hall, h.trans hcopied⟩
  · exact .inr hy

def turnLength (va : Word) (bs : List Byte) : Nat := min (4096 - va.toNat % 4096) bs.length

/-- One turn of the loop at a page of the user. -/
theorem copyoutLoop_turn (hfull : m.Full) (fuel : Nat) (h : Space s kpdpt r rest) (hun : Unshared s.mem r)
    (hva : va.toNat < 2 ^ 47) (hbs : bs ≠ []) (hu : UserPage s.mem r (va.toNat / 4096)) :
    ∃ s₁, Copied s s₁ kpdpt r rest va.toNat (bs.take (turnLength va bs)) ∧ copyoutLoop m (kva r)
      (fuel + 1) s va bs =
      copyoutLoop m (kva r) fuel s₁ (pgRoundDown va + 0x1000) (bs.drop (turnLength va bs)) := by
  have hpage := pgRoundDown_page va
  have hn : va.toNat / 4096 < 2 ^ 35 := by omega
  have hman : Managed (frameOf (entry s.mem r (va.toNat / 4096))) :=
    h.owned.of_held (by simp [h.tree.leaf_mem rfl hu.child])
  have hoff : (va - pgRoundDown va).toNat = va.toNat % 4096 := by
    rw [BitVec.toNat_sub, hpage]
    omega
  have hdst : (kva (frameOf (entry s.mem r (va.toNat / 4096))) + (va - pgRoundDown va)).toNat =
      (kva (frameOf (entry s.mem r (va.toNat / 4096)))).toNat + va.toNat % 4096 := by
    have := hman.small'
    rw [BitVec.toNat_add, hoff, kva_toNat hman.small, Nat.mod_eq_of_lt (by omega)]
  have hlen : va.toNat % 4096 + (bs.take (turnLength va bs)).length ≤ 4096 := by
    rw [List.length_take, turnLength]
    omega
  obtain ⟨s₁, hmove, hcopied⟩ := memmove_copied hfull h hun hn hu hdst hlen
  rw [show va.toNat / 4096 * 4096 + va.toNat % 4096 = va.toNat by omega] at hcopied
  refine ⟨s₁, hcopied, ?_⟩
  rw [copyoutLoop, if_neg hbs]
  dsimp only
  rw [uva2ka_user hfull h.tree hpage hn hu.child hu.2, ok_bind, if_neg (kva_ne_zero hman.small), hoff,
    show min (pgSize - va.toNat % 4096) bs.length = turnLength va bs from rfl, hmove, ok_bind]

theorem copyoutLoop_nil (fuel : Nat) (s : State) (va : Word) :
    copyoutLoop m (kva r) fuel s va [] = .ok (s, 0) := by
  cases fuel with
  | zero => rfl
  | succ fuel => rw [copyoutLoop, if_pos rfl]; rfl

theorem copyoutLoop_ends (hfull : m.Full) (fuel : Nat) (h : Space s kpdpt r rest) (hun : Unshared s.mem r)
    (hva : va.toNat + bs.length ≤ 2 ^ 47) (hfuel : bs.length ≤ fuel) :
    CopyEnds s kpdpt r rest va.toNat bs (copyoutLoop m (kva r) fuel s va bs) := by
  induction fuel generalizing s va bs with
  | zero =>
    obtain rfl : bs = [] := List.length_eq_zero_iff.mp (by omega)
    exact copyEnds_nil h _
  | succ fuel ih =>
    by_cases hnil : bs = []
    · subst hnil
      rw [copyoutLoop_nil]
      exact copyEnds_nil h _
    have hpos := List.length_pos_of_ne_nil hnil
    have hpage := pgRoundDown_page va
    have hn : va.toNat / 4096 < 2 ^ 35 := by omega
    by_cases hu : UserPage s.mem r (va.toNat / 4096)
    · obtain ⟨s₁, hcopied, hturn⟩ := copyoutLoop_turn hfull fuel h hun (by omega) hnil hu
      rw [hturn]
      have hlen : (bs.take (turnLength va bs)).length = turnLength va bs := by
        rw [List.length_take, turnLength]
        omega
      have hturnpos : 0 < turnLength va bs := by
        rw [turnLength]
        omega
      have hdrop : (bs.drop (turnLength va bs)).length = bs.length - turnLength va bs := List.length_drop
      have hrest : CopyEnds s₁ kpdpt r rest (va.toNat + (bs.take (turnLength va bs)).length)
        (bs.drop (turnLength va bs))
          (copyoutLoop m (kva r) fuel s₁ (pgRoundDown va + 0x1000) (bs.drop (turnLength va bs))) := by
        by_cases hlast : bs.length ≤ turnLength va bs
        · rw [List.drop_eq_nil_of_le hlast, copyoutLoop_nil]
          exact copyEnds_nil hcopied.space _
        · have hnext : (pgRoundDown va + 0x1000).toNat = va.toNat + turnLength va bs := by
            rw [next_page hpage (by omega)]
            rw [turnLength] at hlast ⊢
            omega
          rw [hlen, ← hnext]
          exact ih hcopied.space (hun.congr hcopied.entries) (by omega) (by omega)
      have hcons := CopyEnds.cons hcopied hu (by omega) (by rw [hlen, turnLength]; omega) hrest
      rwa [List.take_append_drop] at hcons
    · have hno : ¬ Usable s.mem r va.toNat bs.length := fun hall => hu (hall va.toNat (Nat.le_refl _) (by omega))
      rw [copyoutLoop, if_neg hnil]
      dsimp only
      cases hw : walk s.mem r (pagePath (va.toNat / 4096)) with
      | none =>
        rw [uva2ka_missing hfull h.tree hpage hn hw]
        exact hno
      | some t =>
        rw [uva2ka_denied hfull h.tree hpage hn hw hu]
        exact .inr ⟨rfl, hno⟩

/-- `copyout` to addresses of the user's half. -/
theorem copyout_ends (va : Word) (bs : List Byte) (hfull : m.Full) (h : Space s kpdpt r rest)
    (hun : Unshared s.mem r)
    (hva : va.toNat + bs.length ≤ 2 ^ 47) : CopyEnds s kpdpt r rest va.toNat bs (copyout m s (kva r) va bs) :=
  copyoutLoop_ends hfull bs.length h hun hva (Nat.le_refl _)

/-- Above the kernel's part of the address space there are no tables. -/
theorem copyout_above (hfull : m.Full) (h : Space s kpdpt r rest) (hva : 2 ^ 64 - 2 ^ 39 ≤ va.toNat)
    (hbs : bs ≠ []) :
    copyout m s (kva r) va bs = .error .nullDeref := by
  obtain ⟨b, bs, rfl⟩ := List.exists_cons_of_ne_nil hbs
  have hpm : 256 < pmx (pgRoundDown va) := by
    rw [pmx_eq, pgRoundDown_page]
    omega
  rw [copyout, List.length_cons, copyoutLoop, if_neg hbs]
  dsimp only
  rw [uva2ka, walkpgdir_above hfull h.tree hpm]
  rfl

end Xv6.CopyOut
