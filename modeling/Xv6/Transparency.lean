import Xv6.FaultPaths
import Xv6.FrameBooks

/-!
# What a process sees of deduplication

A process reads and writes bytes and calls `sys_dedup`; a store that faults runs `copyonwrite` and
is tried again. Against it stands a plain memory, which a store changes at its own address and
`sys_dedup` not at all. The two agree exactly for the processes that have a page table for each page
below their size.
-/
namespace Xv6.Transparency

open Words Mmu Memory Kalloc Vm Outcome PageTable AddressSpace PageNumber UserPages CopyOnWrite
open PageWalk Dedup SizeBound Kernel KernelInv KernelStep Boot Interleaving FrameBooks FaultPaths
open Function

variable {d : Pgdir} {tries k : Nat}

/-- The machine, with the run ended where `kalloc` finds the free list empty. -/
def roomyPc : Machine := ⟨directMap, .stop⟩

/-- The byte at each user address, seen through the entries of the table. -/
def userByte (mem : Mem) (r : Nat) (v : Word) : Option Byte :=
  if v.toNat < 2 ^ 47 ∧
      has (entry mem r (v.toNat / 4096)) pteP = true ∧ has (entry mem r (v.toNat / 4096)) pteU = true
  then some (pageByte (mem (frameOf (entry mem r (v.toNat / 4096)))) (v.toNat % 4096)) else none

/-- Why the process does not go on: the kernel has stopped, or the access faults and no handler
repairs it. -/
inductive Stop where
  | trap (t : Trap)
  | fault
  deriving DecidableEq, Repr

def load (s : State) (r : Nat) (v : Word) : Except Stop Byte :=
  match hwWalk s.mem r v with
  | some pg => if pg.user then .ok (pageByte (s.mem pg.frame) (v.toNat % 4096)) else .error .fault
  | none => .error .fault

/-- A store as the processor makes it, if it does not fault. -/
def attempt (r : Nat) (v : Word) (b : Byte) (s : State) : Option State :=
  match hwWalk s.mem r v with
  | some pg =>
    if pg.user && pg.writable then
      some { s with mem := setPage s.mem pg.frame (putPageByte (s.mem pg.frame) (v.toNat % 4096) b) }
    else none
  | none => none

/-- A store, tried again after a fault as often as `tries` says. -/
def store (r : Nat) (v : Word) (b : Byte) : Nat → State → Except Stop State
  | 0, s => (attempt r v b s).elim (.error .fault) .ok
  | tries + 1, s => (attempt r v b s).elim (do
      let (s, ret) ← (copyonwrite roomyPc s (kva r) v).mapError .trap
      if ret = 0 then .error .fault else store r v b tries s) .ok

inductive UserOp where
  | read (v : Word)
  | write (v : Word) (b : Byte)
  | dedup
  deriving DecidableEq, Repr

def userOp (tries : Nat) (d : Pgdir) (s : State) : UserOp → Except Stop (State × List Byte)
  | .read v => do
    let b ← load s d.root v
    return (s, [b])
  | .write v b => do
    let s ← store d.root v b tries s
    return (s, [])
  | .dedup => do
    let s ← (dedup roomyPc s (kva d.root) 0 d.sz).mapError .trap
    return (s, [])

def userOps (tries : Nat) (d : Pgdir) (s : State) : List UserOp → Except Stop (State × List Byte)
  | [] => .ok (s, [])
  | op :: ops => do
    let (s, out) ← userOp tries d s op
    let (s, outs) ← userOps tries d s ops
    return (s, out ++ outs)

/-- The plain memory: stores change their own address. -/
def plainOp (M : Word → Option Byte) : UserOp → (Word → Option Byte) × List Byte
  | .read v => (M, (M v).toList)
  | .write v b => (update M v (some b), [])
  | .dedup => (M, [])

def plainOps (M : Word → Option Byte) : List UserOp → (Word → Option Byte) × List Byte
  | [] => (M, [])
  | op :: ops => ((plainOps (plainOp M op).1 ops).1, (plainOp M op).2 ++ (plainOps (plainOp M op).1 ops).2)

def Within (M : Word → Option Byte) : UserOp → Prop
  | .read v | .write v _ => M v ≠ none
  | .dedup => True

/-- Whatever the process does, it sees the plain memory, unless the free list runs empty. -/
def Invisible (s : Sys) (d : Pgdir) : Prop :=
  ∀ tries, 0 < tries → ∀ ops, (∀ op ∈ ops, Within (userByte s.vm.mem d.root) op) →
    Ends (userOps tries d s.vm ops) (fun e => e = .trap .outOfMemory) (fun x =>
      x.2 = (plainOps (userByte s.vm.mem d.root) ops).2 ∧
        userByte x.1.mem d.root = (plainOps (userByte s.vm.mem d.root) ops).1)

variable {s s' : State} {mem mem' : Mem} {kpdpt r n : Nat} {rest : List Nat} {v v' : Word} {b : Byte}
  {M : Word → Option Byte} {op : UserOp}

theorem roomyPc_full : roomyPc.Full := pc_full

theorem roomyPc_oom : roomyPc.oom ≠ .null := by simp [roomyPc]

theorem exhausted_roomyPc {t : Trap} (h : Exhausted roomyPc t) : t = .outOfMemory := by
  rcases h with ⟨h, -⟩ | ⟨-, h⟩
  · cases h
  · exact h

theorem ends_mapError {α : Type} {x : Except Trap α} {E : Trap → Prop} {Q : α → Prop} (h : Ends x E Q)
    (hE : ∀ t, E t → t = .outOfMemory) : Ends (x.mapError Stop.trap) (fun e => e = .trap .outOfMemory) Q := by
  cases x with
  | error t =>
    show Stop.trap t = .trap .outOfMemory
    rw [hE t h]
  | ok a => exact h

theorem byteOf_putByte {j : Nat} (hj : j < 8) (hk : k < 8) (w : Word) (b : Byte) :
    byteOf (putByte w k b) j = if j = k then b else byteOf w j := by
  apply BitVec.eq_of_getLsbD_eq
  intro i hi
  have hones : (0xFF : Word) = (BitVec.allOnes 8).setWidth 64 := by decide
  simp only [byteOf, putByte, hones, BitVec.getLsbD_setWidth, BitVec.getLsbD_ushiftRight, BitVec.getLsbD_or,
    BitVec.getLsbD_and, BitVec.getLsbD_not, BitVec.getLsbD_shiftLeft, BitVec.getLsbD_allOnes]
  by_cases he : j = k
  · subst he
    simp [hi, show 8 * j + i < 64 by omega, show i < 64 by omega]
  · rw [if_neg he]
    simp only [BitVec.getLsbD_setWidth, BitVec.getLsbD_ushiftRight]
    rcases Nat.lt_or_gt_of_ne he with h | h
    · simp [hi, show 8 * j + i < 8 * k by omega, show 8 * j + i < 64 by omega]
    · simp [hi, show ¬ (8 * j + i < 8 * k) by omega, show 8 * j + i < 64 by omega,
        show ¬ (8 * j + i - 8 * k < 8) by omega, BitVec.getLsbD_of_ge b _ (show 8 ≤ 8 * j + i - 8 * k by omega)]

theorem pageByte_putPageByte (page : Page) (o o' : Nat) (b : Byte) :
    pageByte (putPageByte page o b) o' = if o' = o then b else pageByte page o' := by
  rw [pageByte, putPageByte]
  by_cases hw : o' / 8 = o / 8
  · rw [if_pos hw, byteOf_putByte (by omega) (by omega)]
    by_cases he : o' = o
    · simp [he]
    · rw [if_neg he, if_neg (by omega), pageByte]
  · rw [if_neg hw, if_neg (by rintro rfl; exact hw rfl), pageByte]

theorem userByte_of_page (hv : v.toNat < 2 ^ 47) (hu : UserPage mem r (v.toNat / 4096)) :
    userByte mem r v = some (pageByte (mem (frameOf (entry mem r (v.toNat / 4096)))) (v.toNat % 4096)) :=
  if_pos ⟨hv, hu⟩

theorem userByte_none (h : ¬ (v.toNat < 2 ^ 47 ∧ UserPage mem r (v.toNat / 4096))) : userByte mem r v = none :=
  if_neg h

theorem page_of_userByte (h : userByte mem r v ≠ none) : v.toNat < 2 ^ 47 ∧ UserPage mem r (v.toNat / 4096) := by
  by_contra hno
  exact h (userByte_none hno)

/-- Operations that keep the view of the pages keep the bytes. -/
theorem userByte_view (h : SameView mem mem' r) : userByte mem' r = userByte mem r := by
  funext v
  by_cases hv : v.toNat < 2 ^ 47
  · have hn : v.toNat / 4096 < 2 ^ 35 := by omega
    by_cases hu : UserPage mem r (v.toNat / 4096)
    · have hu' := hu.view h hn
      rw [userByte_of_page hv hu, userByte_of_page hv hu', pageByte, pageByte,
        h.contents _ _ _ hn hu.child hu'.child _ (by omega)]
    · rw [userByte_none (fun hx => hu hx.2), userByte_none (fun hx => hu (hx.2.of_view h hn))]
  · rw [userByte_none (fun hx => hv hx.1), userByte_none (fun hx => hv hx.1)]

theorem hwWalk_user (h : Tree mem kpdpt r) (hv : v.toNat < 2 ^ 47) (hu : UserPage mem r (v.toNat / 4096)) :
    hwWalk mem r v = some ⟨frameOf (entry mem r (v.toNat / 4096)), 1, true,
      has (entry mem r (v.toNat / 4096)) pteW⟩ := by
  obtain ⟨t, hw⟩ := walk_of_pte hu.child
  rw [hwWalk_page h.shape hv hw, if_pos hu.1, hu.2]

structure Kept (s s' : State) (kpdpt r : Nat) (rest : List Nat) : Prop where
  space : Space s' kpdpt r rest
  walk_eq : ∀ p, p.length < 4 → walk s'.mem r p = walk s.mem r p

theorem load_ends (h : Space s kpdpt r rest) (hv : userByte s.mem r v ≠ none) :
    ∃ b, load s r v = .ok b ∧ userByte s.mem r v = some b := by
  obtain ⟨hlt, hu⟩ := page_of_userByte hv
  refine ⟨_, ?_, userByte_of_page hlt hu⟩
  simp only [load, hwWalk_user h.tree hlt hu, ↓reduceIte]

/-- A store through a writable page. -/
theorem store_writable (h : Space s kpdpt r rest) (hv : v.toNat < 2 ^ 47) (hu : UserPage s.mem r (v.toNat / 4096))
    (hw : has (entry s.mem r (v.toNat / 4096)) pteW = true) (tries : Nat) :
    ∃ s', store r v b tries s = .ok s' ∧ Kept s s' kpdpt r rest ∧
      userByte s'.mem r = update (userByte s.mem r) v (some b) := by
  have hhw := hwWalk_user h.tree hv hu
  rw [hw] at hhw
  have hleaf := h.tree.leaf_not_table rfl hu.child
  generalize hf : frameOf (entry s.mem r (v.toNat / 4096)) = f at hhw hleaf
  let page := putPageByte (s.mem f) (v.toNat % 4096) b
  have htables : ∀ t, IsTable s.mem r t → setPage s.mem f page t = s.mem t := by
    intro t ht
    refine setPage_other ?_ page
    rintro rfl
    exact hleaf ht
  have hentry : ∀ k, entry (setPage s.mem f page) r k = entry s.mem r k := fun k => pte_tables htables rfl
  refine ⟨{ s with mem := setPage s.mem f page }, ?_, ⟨h.congr htables rfl rfl, fun p hp =>
    walk_tables htables (by omega)⟩, ?_⟩
  · have hattempt : attempt r v b s = some { s with mem := setPage s.mem f page } := by
      rw [attempt, hhw]
      rfl
    cases tries with
    | zero | succ tries => rw [store, hattempt, Option.elim_some]
  funext v'
  have hother : ∀ (hv' : v'.toNat < 2 ^ 47) (hu' : UserPage s.mem r (v'.toNat / 4096)),
      v'.toNat / 4096 ≠ v.toNat / 4096 → frameOf (entry s.mem r (v'.toNat / 4096)) ≠ f := by
    intro hv' hu' hne hf'
    refine absurd (h.tree.shared _ _ (pagePath (v'.toNat / 4096)) (v'.toNat / 4096 % 512) f rfl rfl
      (hu.child.trans (by rw [hf])) (hu'.child.trans (by rw [hf'])) ?_).2 (by rw [← entry, hw]; decide)
    rw [or_iff_not_imp_left, not_not]
    intro hp hi
    exact hne (pagePath_inj (by omega) (by omega) hp hi).symm
  have hpage' : ∀ k, UserPage (setPage s.mem f page) r k ↔ UserPage s.mem r k := fun k => by
    simp only [UserPage, hentry]
  show userByte (setPage s.mem f page) r v' = _
  by_cases hu' : v'.toNat < 2 ^ 47 ∧ UserPage s.mem r (v'.toNat / 4096)
  · obtain ⟨hv', hu'⟩ := hu'
    rw [userByte_of_page hv' ((hpage' _).mpr hu'), hentry]
    by_cases hsame : v'.toNat / 4096 = v.toNat / 4096
    · rw [hsame, hf, setPage_same, pageByte_putPageByte]
      by_cases he : v' = v
      · subst he
        rw [update_self, if_pos rfl]
      · have hoff : v'.toNat % 4096 ≠ v.toNat % 4096 := by
          intro hoff
          exact he (BitVec.eq_of_toNat_eq (by omega))
        rw [update_of_ne he, if_neg hoff, userByte_of_page hv' hu', hsame, hf]
    · have he : v' ≠ v := by
        rintro rfl
        exact hsame rfl
      rw [update_of_ne he, setPage_other (hother hv' hu' hsame), userByte_of_page hv' hu']
  · have he : v' ≠ v := by
      rintro rfl
      exact hu' ⟨hv, hu⟩
    rw [update_of_ne he, userByte_none hu', userByte_none (fun hx => hu' ⟨hx.1, (hpage' _).mp hx.2⟩)]

/-- A store that faults is tried once more. -/
theorem store_ends (h : Space s kpdpt r rest) (hv : userByte s.mem r v ≠ none) (htries : 0 < tries) :
    Ends (store r v b tries s) (fun e => e = .trap .outOfMemory) (fun s' => Kept s s' kpdpt r rest ∧
      userByte s'.mem r = update (userByte s.mem r) v (some b)) := by
  obtain ⟨hlt, hu⟩ := page_of_userByte hv
  have hn : v.toNat / 4096 < 2 ^ 35 := by omega
  cases hw : has (entry s.mem r (v.toNat / 4096)) pteW with
  | true =>
    obtain ⟨s', hrun, hkept⟩ := store_writable h hlt hu hw tries
    rw [hrun]
    exact hkept
  | false =>
    obtain ⟨tries, rfl⟩ : ∃ k, tries = k + 1 := ⟨tries - 1, by omega⟩
    have hhw := hwWalk_user h.tree hlt hu
    rw [hw] at hhw
    have hattempt : attempt r v b s = none := by
      rw [attempt, hhw]
      rfl
    have hcow := copyonwrite_cow roomyPc_oom roomyPc_full h hn hu.child hu.2 (h.tree.leaf _ _ rfl hu.1 hu.2 hw)
    rw [store, hattempt, Option.elim_none]
    refine (ends_mapError hcow (fun t ht => exhausted_roomyPc ht.1)).bind ?_
    rintro ⟨s₁, ret⟩ ⟨hret, h₁, f', hrenew⟩
    have hview := hrenew.sameView hn h h₁ hu.child hu.2
    have hw₁ : has (entry s₁.mem r (v.toNat / 4096)) pteW = true := by
      rw [hrenew.map _ (by omega), if_pos rfl, has_ownEntry isFlags_pteW]
      decide
    obtain ⟨s', hrun, hkept, hbyte⟩ := store_writable (b := b) h₁ hlt (hu.view hview hn) hw₁ tries
    have hret : ret ≠ 0 := by
      rw [show ret = 1 from hret]
      decide
    simp only [if_neg hret, hrun]
    refine ⟨⟨hkept.space, fun p hp => (hkept.walk_eq p hp).trans (hview.walk_eq p hp)⟩, ?_⟩
    rw [hbyte, userByte_view hview]

/-- One operation agrees with the plain memory. -/
theorem userOp_ends (h : Space s kpdpt d.root rest) (hsz : pages d.sz ≤ 2 ^ 35)
    (htab : ∀ k < pages d.sz, walk s.mem d.root (pagePath k) ≠ none)
    (hop : Within (userByte s.mem d.root) op) (htries : 0 < tries) :
    Ends (userOp tries d s op) (fun e => e = .trap .outOfMemory) (fun x => Kept s x.1 kpdpt d.root rest ∧
      x.2 = (plainOp (userByte s.mem d.root) op).2 ∧ userByte x.1.mem d.root =
      (plainOp (userByte s.mem d.root) op).1) := by
  cases op with
  | read v =>
    obtain ⟨b, hrun, hb⟩ := load_ends h hop
    have hread : userOp tries d s (.read v) = .ok (s, [b]) := by
      rw [userOp, hrun]
      rfl
    rw [hread]
    exact ⟨⟨h, fun _ _ => rfl⟩, by simp [plainOp, hb], rfl⟩
  | write v b =>
    refine (store_ends h hop htries).bind ?_
    intro s' hs'
    exact ⟨hs'.1, rfl, hs'.2⟩
  | dedup =>
    have hdedup := dedup_ends roomyPc_full h hsz
    refine (ends_mapError hdedup ?_).bind ?_
    · rintro t ⟨-, k, hk, hmissing⟩
      exact absurd hmissing (htab k hk)
    · rintro s' ⟨h', hd, -⟩
      exact ⟨⟨h', hd.view.walk_eq⟩, rfl, userByte_view hd.view⟩

/-- The addresses of the process stay the same. -/
theorem within_plainOp {op' : UserOp} (hop : Within M op) (hop' : Within M op') : Within (plainOp M op).1 op' := by
  have hdom : ∀ v, M v ≠ none → (plainOp M op).1 v ≠ none := by
    intro v hv
    cases op with
    | read w => exact hv
    | write w b =>
      by_cases he : v = w
      · simp [plainOp, he]
      · simpa [plainOp, update_of_ne he] using hv
    | dedup => exact hv
  cases op' with
  | read w | write w b => exact hdom w hop'
  | dedup => trivial

theorem userOps_ends (htries : 0 < tries) (hsz : pages d.sz ≤ 2 ^ 35) (ops : List UserOp)
    (h : Space s kpdpt d.root rest) (htab : ∀ k < pages d.sz, walk s.mem d.root (pagePath k) ≠ none)
    (hops : ∀ op ∈ ops, Within (userByte s.mem d.root) op) :
    Ends (userOps tries d s ops) (fun e => e = .trap .outOfMemory) (fun x =>
      x.2 = (plainOps (userByte s.mem d.root) ops).2 ∧ userByte x.1.mem d.root =
      (plainOps (userByte s.mem d.root) ops).1) := by
  induction ops generalizing s with
  | nil => exact ⟨rfl, rfl⟩
  | cons op ops ih =>
    have hop := hops op (by simp)
    refine (userOp_ends h hsz htab hop htries).bind ?_
    rintro ⟨s₁, out⟩ ⟨hkept, hout, hbyte⟩
    dsimp only at hkept hout hbyte
    have htab₁ : ∀ k < pages d.sz, walk s₁.mem d.root (pagePath k) ≠ none := by
      intro k hk
      rw [hkept.walk_eq _ (by simp)]
      exact htab k hk
    have hops₁ : ∀ op' ∈ ops, Within (userByte s₁.mem d.root) op' := by
      intro op' hop'
      rw [hbyte]
      exact within_plainOp hop (hops op' (by simp [hop']))
    refine (ih hkept.space htab₁ hops₁).bind ?_
    rintro ⟨s₂, outs⟩ ⟨houts, hbyte₂⟩
    dsimp only at houts hbyte₂
    rw [hbyte] at houts hbyte₂
    refine ⟨?_, hbyte₂⟩
    show out ++ outs = _
    rw [hout, houts]
    rfl

theorem pages_small {s : Sys} (h : KernelInv.Inv s) (hd : d ∈ s.pgdirs) : pages d.sz ≤ 2 ^ 35 := by
  have hbound := pages_bound h hd
  have hmax := maxTabled_lt
  omega

/-- Where a page table is missing, `sys_dedup` reads through the null pointer. -/
theorem dedup_missing {s : Sys} (h : KernelInv.Inv s) (hd : d ∈ s.pgdirs) (hk : k < pages d.sz)
    (hmissing : walk s.vm.mem d.root (pagePath k) = none) (tries : Nat) :
    userOps tries d s.vm [.dedup] = .error (.trap .nullDeref) := by
  have hends := dedup_ends roomyPc_full (h.space hd) (pages_small h hd)
  cases hrun : dedup roomyPc s.vm (kva d.root) 0 d.sz with
  | ok vm' => exact absurd hmissing ((hends.of_ok hrun).2.2 k hk)
  | error t =>
    obtain ⟨rfl, -⟩ := hends.of_error hrun
    simp only [userOps, userOp, hrun]
    rfl

theorem not_invisible {s : Sys} (h : userOps 1 d s.vm [.dedup] = .error (.trap .nullDeref)) :
    ¬ Invisible s d := by
  intro hinvis
  have hends := hinvis 1 (by omega) [.dedup] (by simp [Within])
  rw [h] at hends
  cases hends

/-- Deduplication and copying are invisible to a process exactly when every page below its size
has a page table. -/
theorem dedup_invisible_iff {s : Sys} {d : Pgdir} (h : Reach (system pc) Plain s) (hd : d ∈ s.pgdirs) :
    Invisible s d ↔ ∀ k < pages d.sz, walk s.vm.mem d.root (pagePath k) ≠ none := by
  have hinv := inv_plain h
  constructor
  · intro hinvis k hk hmissing
    exact not_invisible (dedup_missing hinv hd hk hmissing 1) hinvis
  · intro htab tries htries ops hops
    exact userOps_ends htries (pages_small hinv hd) ops (hinv.space hd) htab hops

end Xv6.Transparency
