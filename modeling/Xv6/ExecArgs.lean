import Xv6.ExecCommit

/-!
# The arguments of a new program

`exec` pushes the strings from the end of the stack page downwards, each at a multiple of eight, and
the array of their addresses below them. A string that does not fit into the stack page would have
to be copied across the guard page, where `copyout` gives up; so a program that starts finds all of
it in the stack page.
-/
namespace Xv6.ExecArgs

open Words Mmu Memory Kalloc Vm Outcome PageNumber Dedup Kernel KernelInv UserPages FreeVm Boot
open ExecStack PageWalk Transparency CopyOut Exec ExecLoad Exhaustion ExecCommit

variable {i top : Nat} {a : List Byte} {sys : Sys} {q : Word} {d : Pgdir}

variable {m : Machine} {s₀ s s' : State} {mem : Mem} {kpdpt r n : Nat} {held : List Nat}
  {M M' : Word → Option Byte}  {bs : List Byte} {v sp sp' size start : Word}
    {argv : List (List Byte)} {ptrs ptrs' : List Word} {vm₁ vm₂ vm₃ : State}
  {k k' : Task}

def BytesAt (M : Word → Option Byte) (v : Word) (bs : List Byte) : Prop :=
  ∀ i b, bs[i]? = some b → M (v + BitVec.ofNat 64 i) = some b

theorem toNat_add_ofNat (h : v.toNat + i < 2 ^ 64) : (v + BitVec.ofNat 64 i).toNat = v.toNat + i := by
  rw [BitVec.toNat_add, BitVec.toNat_ofNat]
  omega

theorem BytesAt.congr (h : BytesAt M v bs) (hv : v.toNat + bs.length ≤ 2 ^ 64)
    (hsame : ∀ w : Word, v.toNat ≤ w.toNat → w.toNat < v.toNat + bs.length → M' w = M w) : BytesAt M' v bs := by
  intro i b hb
  have hi : i < bs.length := (List.getElem?_eq_some_iff.mp hb).1
  have hnat := toNat_add_ofNat (v := v) (i := i) (by omega)
  rw [hsame _ (by omega) (by omega)]
  exact h i b hb

theorem bytesAt_copied (h : Copied s s' kpdpt r held v.toNat bs) (hv : v.toNat + bs.length ≤ 2 ^ 64) :
    BytesAt (userByte s'.mem r) v bs := by
  intro i b hb
  have hi : i < bs.length := (List.getElem?_eq_some_iff.mp hb).1
  have hnat := toNat_add_ofNat (v := v) (i := i) (by omega)
  rw [h.bytes, if_pos (by omega), hnat, Nat.add_sub_cancel_left, List.getD_eq_getElem?_getD, hb]
  rfl

/-- The strings stand at the pointers, each of them below the one before and the first below `top`.
-/
def Strings (M : Word → Option Byte) : Nat → List (List Byte) → List Word → Prop
  | _, [], [] => True
  | top, a :: argv, p :: ptrs => p.toNat + (a.length + 1) ≤ top ∧ BytesAt M p (a ++ [0]) ∧
      Strings M p.toNat argv ptrs
  | _, _, _ => False

theorem Strings.congr (h : Strings M top argv ptrs) (htop : top ≤ 2 ^ 64) {lo : Nat}
    (hlo : ∀ p ∈ ptrs, lo ≤ p.toNat) (hsame : ∀ w : Word, lo ≤ w.toNat → w.toNat < top →
      M' w = M w) : Strings M' top argv ptrs := by
  induction argv generalizing top ptrs with
  | nil =>
    cases ptrs with
    | nil => trivial
    | cons p ptrs => cases h
  | cons a argv ih =>
    cases ptrs with
    | nil => cases h
    | cons p ptrs =>
      obtain ⟨hp, hbytes, hrest⟩ := h
      obtain ⟨hlo₁, hlo₂⟩ := List.forall_mem_cons.mp hlo
      have hlen : (a ++ [0]).length = a.length + 1 := List.length_append
      refine ⟨hp, hbytes.congr (by omega) fun w h₁ h₂ => hsame w (by omega) (by omega), ?_⟩
      exact ih hrest (by omega) hlo₂ fun w h₁ h₂ => hsame w h₁ (by omega)

theorem and_not_seven (w : Word) : (w &&& ~~~7).toNat = w.toNat / 8 * 8 := by
  apply Nat.eq_of_testBit_eq
  intro i
  have hseven : (7 : Word) = (BitVec.allOnes 3).setWidth 64 := by decide
  rw [show w.toNat / 8 * 8 = w.toNat / 2 ^ 3 * 2 ^ 3 from rfl, Nat.testBit_mul_two_pow, Nat.testBit_div_two_pow,
    BitVec.testBit_toNat, BitVec.testBit_toNat, BitVec.getLsbD_and, BitVec.getLsbD_not, hseven,
      BitVec.getLsbD_setWidth,
    BitVec.getLsbD_allOnes]
  by_cases hi : 3 ≤ i
  · rw [Nat.sub_add_cancel hi]
    by_cases h64 : i < 64
    · simp [hi, h64]
    · simp [BitVec.getLsbD_of_ge w i (by omega)]
  · simp [show i < 3 by omega, show i < 64 by omega, hi]

/-- A string that `exec` has pushed. -/
theorem push_one (hfull : m.Full) (h : Programmed s₀ s kpdpt r n held) {w : Word} {z : Int}
    (hsp : (n + 1) * 4096 ≤ sp.toNat) (htop : sp.toNat ≤ (n + 2) * 4096) (hw : strlenSucc a = .ok w)
    (hrun : copyout m s (kva r) ((sp - w) &&& ~~~7) (a ++ [0]) = .ok (s', z)) (hz : ¬ z < 0) :
    (n + 1) * 4096 ≤ ((sp - w) &&& ~~~7).toNat ∧ ((sp - w) &&& ~~~7).toNat + (a.length + 1) ≤ sp.toNat ∧
      Copied s s' kpdpt r held ((sp - w) &&& ~~~7).toNat (a ++ [0]) := by
  have hlow := h.low
  have hlen : (a ++ [0]).length = a.length + 1 := List.length_append
  rw [strlenSucc] at hw
  split at hw
  · rename_i hshort
    obtain rfl : BitVec.ofNat 64 (a.length + 1) = w := Except.ok.inj hw
    have hsub := BitVec.toNat_sub sp (BitVec.ofNat 64 (a.length + 1))
    rw [BitVec.toNat_ofNat, Nat.mod_eq_of_lt (show a.length + 1 < 2 ^ 64 by omega)] at hsub
    have hmask := and_not_seven (sp - BitVec.ofNat 64 (a.length + 1))
    generalize (sp - BitVec.ofNat 64 (a.length + 1)) &&& ~~~7 = q at *
    by_cases hfit : a.length + 1 ≤ sp.toNat
    · have hends := copyout_ends q (a ++ [0]) hfull h.space h.unshared (by omega)
      rw [CopyEnds, hrun] at hends
      rcases hends with ⟨-, hu, hcopied⟩ | ⟨hneg, -⟩
      · rw [hlen] at hu
        exact ⟨h.in_stack (by omega) (by omega) (by omega) hu, by omega, hcopied⟩
      · exact absurd (by rw [show z = -1 from hneg]; decide) hz
    · rw [copyout_above hfull h.space (by omega) (by simp)] at hrun
      cases hrun
  · cases hw

structure Pushed (s₀ s s' : State) (kpdpt r n : Nat) (held : List Nat) (argv : List (List Byte)) (sp sp' : Word)
    (ptrs : List Word) : Prop where
  program : Programmed s₀ s' kpdpt r n held
  length : ptrs.length = argv.length
  strings : Strings (userByte s'.mem r) sp.toNat argv ptrs
  above : ∀ p ∈ ptrs, sp'.toNat ≤ p.toNat
  bottom : (n + 1) * 4096 ≤ sp'.toNat
  top : sp'.toNat ≤ sp.toNat
  others : ∀ w : Word, w.toNat < sp'.toNat ∨ sp.toNat ≤ w.toNat → userByte s'.mem r w = userByte s.mem r w

theorem pushArgs_ok (hfull : m.Full) (h : Programmed s₀ s kpdpt r n held) (hsp : (n + 1) * 4096 ≤ sp.toNat)
    (htop : sp.toNat ≤ (n + 2) * 4096) (hptrs : ptrs.length ≤ maxArg)
    (hrun : pushArgs m (kva r) argv s sp ptrs = .ok (s', some (sp', ptrs'))) :
    ptrs'.length ≤ maxArg ∧ ∃ new, ptrs' = ptrs ++ new ∧ Pushed s₀ s s' kpdpt r n held argv sp sp' new := by
  have hlow := h.low
  induction argv generalizing s sp ptrs with
  | nil =>
    cases hrun
    exact ⟨hptrs, [], by simp, h, rfl, trivial, by simp, hsp, Nat.le_refl _, fun _ _ => rfl⟩
  | cons a argv ih =>
    rw [pushArgs] at hrun
    split at hrun
    · cases hrun
    rename_i hroom
    obtain ⟨w, hw, hrun⟩ := bind_eq_ok.mp hrun
    obtain ⟨⟨s₁, z⟩, hcopy, hrun⟩ := bind_eq_ok.mp hrun
    dsimp only at hrun
    split at hrun
    · cases hrun
    rename_i hz
    obtain ⟨hbottom, hfit, hcopied⟩ := push_one hfull h hsp htop hw hcopy hz
    generalize (sp - w) &&& ~~~7 = q at *
    have hlen : (a ++ [0]).length = a.length + 1 := List.length_append
    obtain ⟨hcount, new, rfl, hpush⟩ := ih (h.copied hcopied) hbottom (by omega)
      (by rw [List.length_append, List.length_singleton]; omega) hrun
    have hq := hpush.top
    refine ⟨hcount, q :: new, by simp, hpush.program, by rw [List.length_cons, hpush.length,
      List.length_cons], ?_, ?_,
      hpush.bottom, by omega, fun v hv => ?_⟩
    · have hbytes := (bytesAt_copied hcopied (by omega)).congr (by omega) fun v h₁ _ => hpush.others v (.inr h₁)
      exact ⟨hfit, hbytes, hpush.strings⟩
    · exact List.forall_mem_cons.mpr ⟨hq, hpush.above⟩
    · rw [hpush.others v (by omega), hcopied.bytes, if_neg (by omega)]

def WordsAt (M : Word → Option Byte) (v : Word) (ws : List Word) : Prop := BytesAt M v (ws.flatMap wordBytes)

structure ArgsPassed (mem : Mem) (r : Nat) (p : Proc) (argv : List (List Byte)) (ptrs : List Word) : Prop where
  rdi : (p.tf .rdi).toNat = argv.length
  words : WordsAt (userByte mem r) (p.tf .rsp) [0xffffffff, p.tf .rdi, p.tf .rsi]
  rsi : (p.tf .rsi).toNat = (p.tf .rsp).toNat + 24
  array : WordsAt (userByte mem r) (p.tf .rsi) (ptrs ++ [0])
  length : ptrs.length = argv.length
  strings : ∀ (i : Nat) a q, argv[i]? = some a → ptrs[i]? = some q → BytesAt (userByte mem r) q (a ++ [0])
  aligned : p.sz.toNat % 4096 = 0
  stack : UserPage mem r (p.sz.toNat / 4096 - 1)
  guard : has (entry mem r (p.sz.toNat / 4096 - 2)) pteP = true ∧
    has (entry mem r (p.sz.toNat / 4096 - 2)) pteU = false
  bottom : p.sz.toNat - 4096 ≤ (p.tf .rsp).toNat
  top : (p.tf .rsi).toNat + 8 * (argv.length + 1) ≤ p.sz.toNat ∧
    ∀ (i : Nat) a q, argv[i]? = some a → ptrs[i]? = some q → q.toNat + (a.length + 1) ≤ p.sz.toNat
  below : ∀ (i : Nat) q, ptrs[i]? = some q → (p.tf .rsi).toNat + 8 * (argv.length + 1) ≤ q.toNat
  apart : ∀ (i j : Nat) a q q', i < j → argv[j]? = some a → ptrs[j]? = some q → ptrs[i]? = some q' →
    q.toNat + (a.length + 1) ≤ q'.toNat

theorem wordBytes_length (w : Word) : (wordBytes w).length = 8 := by simp [wordBytes]

theorem flatMap_wordBytes_length (ws : List Word) : (ws.flatMap wordBytes).length = 8 * ws.length := by
  induction ws with
  | nil => rfl
  | cons w ws ih =>
    rw [List.flatMap_cons, List.length_append, ih, wordBytes_length, List.length_cons]
    omega

theorem WordsAt.of_append {ws ws' : List Word} (h : WordsAt M v (ws ++ ws')) :
    WordsAt M v ws ∧ WordsAt M (v + BitVec.ofNat 64 (8 * ws.length)) ws' := by
  rw [WordsAt, List.flatMap_append] at h
  refine ⟨fun i b hb => h i b ?_, fun i b hb => ?_⟩
  · rw [List.getElem?_append_left (List.getElem?_eq_some_iff.mp hb).1]
    exact hb
  · rw [← flatMap_wordBytes_length, BitVec.add_assoc, ← BitVec.ofNat_add]
    refine h _ b ?_
    rw [List.getElem?_append_right (Nat.le_add_right _ _), Nat.add_sub_cancel_left]
    exact hb

theorem Strings.at_index (h : Strings M top argv ptrs)
    (ha : argv[i]? = some a) (hq : ptrs[i]? = some q) : q.toNat + (a.length + 1) ≤ top ∧
    BytesAt M q (a ++ [0]) := by
  induction argv generalizing top ptrs i with
  | nil => cases ha
  | cons a' argv ih =>
    cases ptrs with
    | nil => cases hq
    | cons p ptrs =>
      obtain ⟨hp, hbytes, hrest⟩ := h
      cases i with
      | zero =>
        cases ha
        cases hq
        exact ⟨hp, hbytes⟩
      | succ i =>
        obtain ⟨hle, hb⟩ := ih hrest ha hq
        exact ⟨by omega, hb⟩

theorem Strings.apart (h : Strings M top argv ptrs) {j : Nat} {q' : Word} (hij : i < j)
    (ha : argv[j]? = some a) (hq : ptrs[j]? = some q) (hq' : ptrs[i]? = some q') :
    q.toNat + (a.length + 1) ≤ q'.toNat := by
  induction argv generalizing top ptrs i j with
  | nil => cases ha
  | cons a' argv ih =>
    cases ptrs with
    | nil => cases hq
    | cons p ptrs =>
      obtain ⟨-, -, hrest⟩ := h
      obtain ⟨j, rfl⟩ : ∃ j', j = j' + 1 := ⟨j - 1, by omega⟩
      cases i with
      | zero =>
        cases hq'
        exact (hrest.at_index ha hq).1
      | succ i => exact ih hrest (by omega) ha hq hq'

structure Running (s₀ vm₁ vm₃ : State) (kpdpt r n : Nat) (held : List Nat) (argv : List (List Byte)) (p : Proc)
    (ptrs : List Word) : Prop where
  program : Programmed s₀ vm₃ kpdpt r n held
  size : p.sz.toNat = (n + 2) * 4096
  args : ArgsPassed vm₃.mem r p argv ptrs
  others : ∀ w : Word, w.toNat < (n + 1) * 4096 → userByte vm₃.mem r w = userByte vm₁.mem r w

theorem ustackPtr_toNat (h : 8 * (ptrs.length + 4) ≤ sp.toNat) :
    (ustackPtr sp ptrs).toNat = sp.toNat - 8 * (ptrs.length + 4) := by
  have := sp.isLt
  have hmul : ((3 + BitVec.ofNat 64 ptrs.length + 1) * 8 : Word).toNat = 8 * (ptrs.length + 4) := by
    rw [BitVec.toNat_mul, BitVec.toNat_add, BitVec.toNat_add, BitVec.toNat_ofNat,
      show (3 : Word).toNat = 3 from rfl,
      show (1 : Word).toNat = 1 from rfl, show (8 : Word).toNat = 8 from rfl]
    omega
  rw [ustackPtr, BitVec.toNat_sub, hmul]
  omega

theorem argvPtr_toNat (h : 8 * (ptrs.length + 4) ≤ sp.toNat) :
    (argvPtr sp ptrs).toNat = sp.toNat - 8 * (ptrs.length + 1) := by
  have := sp.isLt
  have hmul : ((BitVec.ofNat 64 ptrs.length + 1) * 8 : Word).toNat = 8 * (ptrs.length + 1) := by
    rw [BitVec.toNat_mul, BitVec.toNat_add, BitVec.toNat_ofNat, show (1 : Word).toNat = 1 from rfl,
      show (8 : Word).toNat = 8 from rfl]
    omega
  rw [argvPtr, BitVec.toNat_sub, hmul]
  omega

theorem entered_running (hfull : m.Full) (h : Programmed s₀ vm₁ kpdpt r n held)
    (hsize : k'.proc.sz.toNat = (n + 2) * 4096)
    (he : Entered m k argv (kva r) size start vm₁ vm₂ vm₃ sp ptrs k') :
    Running s₀ vm₁ vm₃ kpdpt r n held argv k'.proc ptrs := by
  have hlow := h.low
  have hpos := h.pos
  obtain ⟨hcount, new, hnew, hpush⟩ := pushArgs_ok hfull h (by omega) (by omega) (by simp [maxArg]) he.push
  obtain rfl : ptrs = new := hnew
  have hbottom := hpush.bottom
  have htop := hpush.top
  rw [maxArg] at hcount
  have hroom : 8 * (ptrs.length + 4) ≤ sp.toNat := by omega
  have hsp := ustackPtr_toNat hroom
  have hargv := argvPtr_toNat hroom
  have hlen : ((ustack sp ptrs).flatMap wordBytes).length = 8 * (ptrs.length + 4) := by
    rw [flatMap_wordBytes_length, ustack]
    simp
  obtain ⟨z, hcopy, hz⟩ := he.copy
  have hends := copyout_ends (ustackPtr sp ptrs) ((ustack sp ptrs).flatMap wordBytes) hfull hpush.program.space
    hpush.program.unshared (by omega)
  rw [CopyEnds, hcopy] at hends
  rcases hends with ⟨-, hu, hcopied⟩ | ⟨hneg, -⟩
  · rw [hlen] at hu
    have hin := hpush.program.in_stack (by omega) (by omega) (by omega) hu
    have hprog := hpush.program.copied hcopied
    have hbytes : BytesAt (userByte vm₃.mem r) (ustackPtr sp ptrs) ((ustack sp ptrs).flatMap wordBytes) :=
      bytesAt_copied hcopied (by omega)
    have hwords : WordsAt (userByte vm₃.mem r) (k'.proc.tf .rsp)
        ([0xffffffff, k'.proc.tf .rdi, k'.proc.tf .rsi] ++ (ptrs ++ [0])) := by
      rw [he.rsp, he.rdi, he.rsi, ← List.append_assoc]
      exact hbytes
    have hstrings : Strings (userByte vm₃.mem r) k'.proc.sz.toNat argv ptrs := by
      refine hpush.strings.congr (by omega) hpush.above fun w h₁ h₂ => ?_
      rw [hcopied.bytes, if_neg (by omega)]
    have hnext : (k'.proc.tf .rsi).toNat = (k'.proc.tf .rsp).toNat + 24 := by
      rw [he.rsi, he.rsp]
      omega
    have hrsi : k'.proc.tf .rsp + BitVec.ofNat 64 24 = k'.proc.tf .rsi := by
      apply BitVec.eq_of_toNat_eq
      rw [toNat_add_ofNat (by omega), hnext]
    have harray : (k'.proc.tf .rsi).toNat + 8 * (argv.length + 1) = sp.toNat := by
      rw [he.rsi, ← hpush.length]
      omega
    obtain ⟨hthree, hrest⟩ := hwords.of_append
    refine ⟨hprog, hsize, ⟨?_, hthree, hnext, ?_, hpush.length, fun i a q ha hq =>
      (hstrings.at_index ha hq).2, by omega,
      ?_, ?_, ?_, ⟨by omega, fun i a q ha hq => (hstrings.at_index ha hq).1⟩, fun i q hq => ?_,
      fun i j a q q' hij ha hq hq' => ?_⟩, fun w hw => ?_⟩
    · rw [he.rdi, BitVec.toNat_ofNat, ← hpush.length]
      omega
    · rw [← hrsi]
      exact hrest
    · rw [hsize, hprog.userPage (by omega)]
      omega
    · rw [hsize, show (n + 2) * 4096 / 4096 - 2 = n by omega, hprog.present n (by omega)]
      refine ⟨by omega, ?_⟩
      by_contra hu
      exact (hprog.user n hpos (by omega)).mp (by simpa using hu) rfl
    · rw [he.rsp]
      omega
    · rw [harray]
      exact hpush.above q (List.mem_of_getElem? hq)
    · exact hstrings.apart hij ha hq hq'
    · rw [hcopied.bytes, if_neg (by omega)]
      exact hpush.others w (.inl (by omega))
  · exact absurd (by rw [show z = -1 from hneg]; decide) hz

theorem ArgsPassed.congr {mem' : Mem} {p : Proc} (h : ArgsPassed mem r p argv ptrs)
    (hentry : ∀ j, entry mem' r j = entry mem r j) (hbytes : userByte mem' r = userByte mem r) :
    ArgsPassed mem' r p argv ptrs := by
  obtain ⟨h₁, h₂, h₃, h₄, h₅, h₆, h₇, h₈, h₉, h₁₀, h₁₁, h₁₂, h₁₃⟩ := h
  refine ⟨h₁, ?_, h₃, ?_, h₅, ?_, h₇, ?_, ?_, h₁₀, h₁₁, h₁₂, h₁₃⟩
  · rwa [hbytes]
  · rwa [hbytes]
  · rwa [hbytes]
  · rwa [UserPage, hentry]
  · rwa [hentry]

/-- A call of `exec` that has returned 0, from the loader to the end. -/
structure Execed (m : Machine) (sys : Sys) (argv : List (List Byte)) (c : List Byte) (l : Loaded)
    (r : Nat) (size start : Word)
    (vm₁ vm₃ : State) (ptrs : List Word) (k' : Task) : Prop where
  load : loadProgram m (kva sys.kpdpt) sys.vm c = .ok l
  program : l.program = some (size, start)
  loaded : l.pgdir = kva r
  building : Building sys.vm l.image.vm sys.kpdpt r (pages size) (heldBy sys)
  stacked : Stacked l.image.vm vm₁ r (pages size)
  running : Running sys.vm vm₁ vm₃ sys.kpdpt r (pages size) (heldBy sys) argv k'.proc ptrs
  pgdir : ptrFrame k'.proc.pgdir = r
  entries : ∀ j, entry k'.vm.mem r j = entry vm₃.mem r j
  bytes : userByte k'.vm.mem r = userByte vm₃.mem r
  rip : k'.proc.tf .rip = start
  rcx : k'.proc.tf .rcx = start

section

variable (hm : m.oom ≠ .null) (hfull : m.Full)
include hm hfull

theorem execStack_programmed (h : Building s₀ s kpdpt r (pages size) held)
    (hsize : 0x1000 ≤ size.toNat) :
    Ends (execStack m s ⟨r, size, false⟩) (fun e => Exhausted m e ∧ s.freelist.length < 8) (fun x =>
      x.2.toNat = (pages size + 2) * 4096 ∧ Stacked s x.1 r (pages size) ∧ Programmed s₀ x.1 kpdpt r
      (pages size) held) := by
  have hfew := h.few
  rw [nframes_eq] at hfew
  have hends : Ends (execStack m s ⟨r, size, false⟩) _ _ :=
    execStack_space hm hfull h.space (show 0 < size.toNat by omega)
      (show pages size + s.freelist.length + 2 ≤ 2 ^ 35 by omega)
  refine hends.mono (fun e he => ?_) fun x hx => ⟨hx.1, hx.2.2, programmed_of_stacked h hx.2.1 hx.2.2⟩
  rcases he with he | ⟨-, j, h₁, h₂, hp⟩
  · exact he
  · rw [h.other j (by dsimp only at h₂; omega) (.inr h₁)] at hp
    exact absurd hp (by decide)

theorem program_building {c : List Byte} {l : Loaded} (h : Inv sys)
    (hload : loadProgram m (kva sys.kpdpt) sys.vm c = .ok l) (hprog : l.program = some (size, start)) :
    ∃ r, l.pgdir = kva r ∧ Managed r ∧
      Building sys.vm l.image.vm sys.kpdpt r (pages size) (heldBy sys) ∧ 0x1000 ≤ size.toNat := by
  obtain ⟨-, hfrom⟩ := (loadProgram_ends hm hfull h.owned sys.kpdpt c).of_ok hload
  obtain ⟨-, -, hnone, -⟩ | ⟨r, vm, hr, hman, hseg⟩ := hfrom
  · rw [hprog] at hnone
    cases hnone
  obtain ⟨n, hb, hn⟩ := hseg.building
  obtain ⟨rfl, hsize⟩ := hn size (by rw [hprog]; rfl)
  exact ⟨r, hr, hman, hb, hsize⟩

theorem exec_execed {path : List Byte} {file : Option (List Byte)}
    (h : Inv sys) (hd : d ∈ sys.pgdirs) (hrun : exec m (taskOf sys d k) path file argv = .ok (k', 0)) :
    ∃ c l r size start vm₁ vm₃ ptrs, file = some c ∧ Execed m sys argv c l r size start vm₁ vm₃ ptrs k' := by
  obtain ⟨c, l, size, start, rfl, hload, hprog, henter⟩ := exec_ok hrun
  obtain ⟨r, hr, hman, hb, hsize⟩ := program_building hm hfull h hload hprog
  rw [hr] at henter
  obtain ⟨vm₁, vm₂, vm₃, sp, ptrs, he⟩ := enterProgram_ok henter
  have hstack := he.stack
  rw [ptrFrame_kva hman.small] at hstack
  obtain ⟨hsz, hst, hprogrammed⟩ := (execStack_programmed hm hfull hb hsize).of_ok hstack
  have hrunning := entered_running hfull hprogrammed hsz he
  obtain ⟨s', hfree, hsame⟩ := freevm_other hfull h hd hrunning.program.space hrunning.program.kept
  rw [show freevm m vm₃ (kva d.root) = .ok k'.vm from he.free] at hfree
  cases hfree
  obtain ⟨hentries, hbytes⟩ := userByte_kept hrunning.program.space.tree hsame
  exact ⟨c, l, r, size, start, vm₁, vm₃, ptrs, rfl, hload, hprog, hr, hb, hst, hrunning,
    by rw [he.pgdir, ptrFrame_kva hman.small], hentries, hbytes, he.rip, he.rcx⟩

end

def room (argv : List (List Byte)) : Nat := (argv.map fun a => a.length + 8).sum

/-- A copy into the stack page succeeds. -/
theorem copyout_stack (v : Word) (bs : List Byte) (hfull : m.Full)
    (h : Programmed s₀ s kpdpt r n held) (hv : (n + 1) * 4096 ≤ v.toNat)
    (hend : v.toNat + bs.length ≤ (n + 2) * 4096) :
    ∃ s', copyout m s (kva r) v bs = .ok (s', 0) ∧ Copied s s' kpdpt r held v.toNat bs := by
  have hlow := h.low
  have hu : Usable s.mem r v.toNat bs.length := by
    intro b h₁ h₂
    rw [h.userPage (by omega)]
    omega
  obtain ⟨⟨s', z⟩, hrun, hends⟩ := (copyout_ends v bs hfull h.space h.unshared
    (by omega)).returns fun _ hno => hno hu
  rcases hends with ⟨rfl, -, hcopied⟩ | ⟨-, hno⟩
  · exact ⟨s', hrun, hcopied⟩
  · exact absurd hu hno

theorem pushArgs_returns (extra : Nat) (hfull : m.Full) (h : Programmed s₀ s kpdpt r n held)
    (hsp : (n + 1) * 4096 + extra + room argv ≤ sp.toNat) (htop : sp.toNat ≤ (n + 2) * 4096)
    (hcount : ptrs.length + argv.length ≤ maxArg) :
    ∃ s' sp' ptrs', pushArgs m (kva r) argv s sp ptrs = .ok (s', some (sp', ptrs')) ∧
      (n + 1) * 4096 + extra ≤ sp'.toNat := by
  have hlow := h.low
  induction argv generalizing s sp ptrs with
  | nil => exact ⟨s, sp, ptrs, rfl, by simpa [room] using hsp⟩
  | cons a argv ih =>
    rw [room, List.map_cons, List.sum_cons, ← room] at hsp
    rw [List.length_cons] at hcount
    have hlen : (a ++ [0]).length = a.length + 1 := List.length_append
    have hsub := BitVec.toNat_sub sp (BitVec.ofNat 64 (a.length + 1))
    rw [BitVec.toNat_ofNat, Nat.mod_eq_of_lt (show a.length + 1 < 2 ^ 64 by omega)] at hsub
    have hmask := and_not_seven (sp - BitVec.ofNat 64 (a.length + 1))
    rw [pushArgs, if_neg (by omega), strlenSucc, if_pos (by omega), ok_bind]
    dsimp only
    generalize (sp - BitVec.ofNat 64 (a.length + 1)) &&& ~~~7 = q at *
    obtain ⟨s₁, hcopy, hcopied⟩ := copyout_stack q (a ++ [0]) hfull h (by omega) (by omega)
    rw [hcopy, ok_bind]
    dsimp only
    rw [if_neg (by decide)]
    exact ih (h.copied hcopied) (by omega) (by omega) (by rw [List.length_append, List.length_singleton]; omega)

/-- Both steps on the stack succeed. -/
theorem args_return (argv : List (List Byte)) {sz : Word} (hfull : m.Full) (h : Programmed s₀ s kpdpt r n held)
    (hsz : sz.toNat = (n + 2) * 4096) (hcount : argv.length ≤ maxArg)
    (hroom : 8 * (argv.length + 4) + room argv ≤ 4096) :
    ∃ s₂ sp ptrs s₃, pushArgs m (kva r) argv s sz [] = .ok (s₂, some (sp, ptrs)) ∧
      copyout m s₂ (kva r) (ustackPtr sp ptrs) ((ustack sp ptrs).flatMap wordBytes) = .ok (s₃, 0) ∧
      Programmed s₀ s₃ kpdpt r n held := by
  have hcount₀ : ([] : List Word).length + argv.length ≤ maxArg := by simpa using hcount
  have hbottom : (n + 1) * 4096 ≤ sz.toNat := by omega
  have hfit : (n + 1) * 4096 + 8 * (argv.length + 4) + room argv ≤ sz.toNat := by
    rw [hsz, Nat.succ_mul (n + 1), Nat.add_assoc]
    exact Nat.add_le_add_left hroom _
  obtain ⟨s₂, sp, ptrs, hpush, hsp⟩ := pushArgs_returns (8 * (argv.length + 4)) hfull h hfit
    (Nat.le_of_eq hsz) hcount₀
  obtain ⟨-, new, hnew, hpushed⟩ := pushArgs_ok hfull h hbottom (Nat.le_of_eq hsz) (Nat.zero_le _) hpush
  obtain rfl : ptrs = new := hnew
  have htop := hpushed.top
  rw [← hpushed.length] at hsp
  have hptr := ustackPtr_toNat (Nat.le_trans (Nat.le_add_left _ _) hsp)
  have hlen : ((ustack sp ptrs).flatMap wordBytes).length = 8 * (ptrs.length + 4) := by
    rw [flatMap_wordBytes_length, ustack]
    simp
  obtain ⟨s₃, hcopy, hcopied⟩ := copyout_stack (ustackPtr sp ptrs) ((ustack sp ptrs).flatMap wordBytes) hfull
    hpushed.program (by rw [hptr]; exact Nat.le_sub_of_add_le hsp)
    (by rw [hptr, hlen, Nat.sub_add_cancel (Nat.le_trans (Nat.le_add_left _ _) hsp)];
        exact htop.trans (Nat.le_of_eq hsz))
  exact ⟨s₂, sp, ptrs, s₃, hpush, hcopy, hpushed.program.copied hcopied⟩

/-- `exec` starts a program that the loader accepts, with arguments that fit and eight frames left.
-/
theorem exec_returns (argv : List (List Byte)) {c : List Byte} {l : Loaded} (hm : m.oom ≠ .null)
    (hfull : m.Full) (h : Inv sys)
    (hd : d ∈ sys.pgdirs) (hload : loadProgram m (kva sys.kpdpt) sys.vm c = .ok l)
    (hprog : l.program = some (size, start))
    (hfree : 8 ≤ l.image.vm.freelist.length) (hcount : argv.length ≤ maxArg)
    (hroom : 8 * (argv.length + 4) + room argv ≤ 4096) (k : Task) (path : List Byte) :
    ∃ k', exec m (taskOf sys d k) path (some c) argv = .ok (k', 0) := by
  obtain ⟨r, hr, hman, hb, hsize⟩ := program_building hm hfull h hload hprog
  obtain ⟨⟨vm₁, sz⟩, hstack, hsz, -, hp₁⟩ := (execStack_programmed hm hfull hb hsize).returns fun e he => by omega
  obtain ⟨vm₂, sp, ptrs, vm₃, hpush, hcopy, hp₃⟩ := args_return argv hfull hp₁ hsz hcount hroom
  obtain ⟨vm₄, hfreevm, -⟩ := freevm_other hfull h hd hp₃.space hp₃.kept
  have hne : sz ≠ 0 := by
    rintro rfl
    simp at hsz
  have hframe : execStack m l.image.vm ⟨ptrFrame l.pgdir, size, false⟩ = .ok (vm₁, sz) := by
    rw [hr, ptrFrame_kva hman.small]
    exact hstack
  rw [← hr] at hpush hcopy
  exact exec_zero hload hprog (enterProgram_zero hframe hne hpush hcopy hfreevm)

/-- A program that `exec` has started finds its arguments on its stack. -/
theorem exec_passes_args {sys : Sys} {d : Pgdir} (h : Inv sys) (hd : d ∈ sys.pgdirs) (k : Task) (path : List Byte)
    (file : Option (List Byte)) (argv : List (List Byte)) (k' : Task)
    (hrun : exec pc (taskOf sys d k) path file argv = .ok (k', 0)) :
    ∃ ptrs, ArgsPassed k'.vm.mem (ptrFrame k'.proc.pgdir) k'.proc argv ptrs := by
  obtain ⟨c, l, r, size, start, vm₁, vm₃, ptrs, -, he⟩ := exec_execed pc_oom pc_full h hd hrun
  rw [he.pgdir]
  exact ⟨ptrs, he.running.args.congr he.entries he.bytes⟩

def headerOnly : List Byte := [0x7f, 0x45, 0x4c, 0x46] ++ List.replicate 60 0

theorem loadProgram_headerOnly (hm : m.oom ≠ .null) (hfull : m.Full) (h : Inv sys) (hfree : sys.vm.freelist ≠ []) :
    ∃ l, loadProgram m (kva sys.kpdpt) sys.vm headerOnly = .ok l ∧ l.program = some (0x1000, 0) ∧
      l.image.vm.freelist = sys.vm.freelist.tail := by
  have hends : Ends (setupkvm m (kva sys.kpdpt) sys.vm) _ _ := setupkvm_space hm hfull h.owned
  obtain ⟨⟨vm, p⟩, hset, r, hp, hman, hspace, hmade⟩ := hends.returns (fun e he => hfree he.2)
  dsimp only at hp hmade
  subst hp
  have hread : readExact headerOnly 0 64 = some headerOnly := by decide
  have hhead : elfhdr headerOnly = ⟨elfMagic, 0, 0, 0⟩ := rfl
  refine ⟨⟨⟨vm, []⟩, kva r, some (0x1000, 0)⟩, ?_, rfl, by rw [hmade.free]; rfl⟩
  rw [loadProgram_header hread (by rw [hhead]) hset (kva_ne_zero hman.small), hhead]
  rfl

/-- The first process starts a program with the arguments `a` and `bc`. -/
theorem exec_passes_args_first : ∃ sys d k k', First sys d ∧
    exec pc (taskOf sys d k) [] (some headerOnly) [[0x61], [0x62, 0x63]] = .ok (k', 0) ∧
    ∃ ptrs, ArgsPassed k'.vm.mem (ptrFrame k'.proc.pgdir) k'.proc [[0x61], [0x62, 0x63]] ptrs := by
  obtain ⟨sys, d, -, hinv, hfirst⟩ := exists_first_any
  have hfree := hfirst.free
  obtain ⟨l, hload, hprog, htail⟩ := loadProgram_headerOnly pc_oom pc_full hinv (by rintro h; simp [h] at hfree)
  let k : Task := ⟨sys.vm, 0, ⟨0, 0, [], fun _ => 0⟩, 0, 0, 0, false⟩
  obtain ⟨k', hrun⟩ := exec_returns [[0x61], [0x62, 0x63]] pc_oom pc_full hinv hfirst.mem hload hprog
    (by rw [htail, List.length_tail]; omega) (by decide) (by decide) k []
  exact ⟨sys, d, k, k', hfirst, hrun, exec_passes_args hinv hfirst.mem k [] _ _ k' hrun⟩

end Xv6.ExecArgs
