import Xv6.FaultPaths
import Xv6.LargeFork

/-!
# Cached translations

Each processor runs in user mode on one page table or is in the scheduler, and has a cache of
entries of that table. Loading `cr3` in `switchuvm` and `switchkvm` empties it, and a page fault
drops the entry of its page.

`growproc` and `exec` load `cr3` after they have changed the table, and `copyonwrite` changes the
entry of the page that faulted. `sys_dedup` changes entries and loads nothing, and neither does
`growproc` when it has removed all pages. Other runs have no stale entry.
-/
namespace Xv6.Tlb

open Words Mmu Memory Kalloc Vm PageTable AddressSpace PageNumber UserPages PageWalk Dedup SizeBound
open Kernel KernelInv KernelStep Boot Interleaving FaultPaths FrameBooks LargeFork Function

variable {r : Nat} {e : Option Word}

/-- The table in `cr3`, none while in the scheduler, and the cached entries by page. -/
structure Cpu where
  pgdir : Option Nat
  tlb : Nat → Option Word

structure Hw where
  sys : Sys
  cpu : Nat → Cpu

def Hw.setCpu (h : Hw) (c : Nat) (x : Cpu) : Hw := { h with cpu := update h.cpu c x }

def Cpu.put (x : Cpu) (n : Nat) (e : Option Word) : Cpu := ⟨x.pgdir, update x.tlb n e⟩

def lcr3 (pgdir : Option Nat) : Cpu := ⟨pgdir, fun _ => none⟩

inductive Event where
  | access (c n : Nat)
  | fault (c : Nat) (d : Pgdir) (v : Word)
  | sbrk (c : Nat) (d : Pgdir) (n : Word)
  | dedup (c : Nat) (d : Pgdir)
  | exec (c : Nat) (d d' : Pgdir)
  | switchuvm (c : Nat) (d : Pgdir)
  | switchkvm (c : Nat)
  | kernel (a : Act)

/-- Processor `c` runs the process in user mode: there is a page, or a cached entry, to run on. -/
def Runs (h : Hw) (c : Nat) (d : Pgdir) : Prop :=
  (h.cpu c).pgdir = some d.root ∧ d ∈ h.sys.pgdirs ∧ d.live = true ∧
    (Alive h.sys.vm.mem d ∨ ∃ n, (h.cpu c).tlb n ≠ none)

/-- The translation that the processor uses for a store at `v` does not allow it. -/
def FaultAt (h : Hw) (c : Nat) (d : Pgdir) (v : Word) : Prop :=
  match (h.cpu c).tlb (v.toNat / 4096) with
  | some e => ¬ (has e pteU = true ∧ has e pteW = true)
  | none => WriteFault h.sys.vm.mem d.root v

inductive Step : Hw → Event → Hw → Prop
  | access {h : Hw} {c n r : Nat} (hr : (h.cpu c).pgdir = some r) (hn : n < 2 ^ 35)
      (hu : UserPage h.sys.vm.mem r n) :
      Step h (.access c n) (h.setCpu c ((h.cpu c).put n (some (entry h.sys.vm.mem r n))))
  | fault {h : Hw} {c : Nat} {d : Pgdir} {v : Word} {s : Sys} (hruns : Runs h c d) (hf : FaultAt h c d v)
      (hrun : run pc h.sys (.copyonwrite d v) = .ok s) :
      Step h (.fault c d v) ({ h with sys := s }.setCpu c ((h.cpu c).put (v.toNat / 4096) none))
  | sbrk {h : Hw} {c : Nat} {d : Pgdir} {n sz : Word} {vm : State} {ret : Int} (hruns : Runs h c d)
      (hrun : growproc pc h.sys.vm (kva d.root) d.sz n = .ok (vm, sz, ret)) :
      Step h (.sbrk c d n) ({ h with sys := h.sys.update vm d { d with sz := sz } }.setCpu c
        (if ret = 0 then lcr3 (some d.root) else h.cpu c))
  | dedup {h : Hw} {c : Nat} {d : Pgdir} {s : Sys} (hruns : Runs h c d) (hrun : run pc h.sys (.dedup d) = .ok s) :
      Step h (.dedup c d) { h with sys := s }
  | exec {h : Hw} {c : Nat} {d d' : Pgdir} {s : Sys} (hruns : Runs h c d) (hd : d' ∈ h.sys.pgdirs)
      (hnew : d'.live = false) (hrun : run pc h.sys (.commit d') = .ok s) :
      Step h (.exec c d d') ({ h with sys := s }.setCpu c (lcr3 (some d'.root)))
  | switchuvm {h : Hw} {c : Nat} {d : Pgdir} (hidle : (h.cpu c).pgdir = none) (hd : d ∈ h.sys.pgdirs)
      (hlive : d.live = true) (hother : ∀ c', (h.cpu c').pgdir ≠ some d.root) :
      Step h (.switchuvm c d) (h.setCpu c (lcr3 (some d.root)))
  | switchkvm {h : Hw} {c : Nat} : Step h (.switchkvm c) (h.setCpu c (lcr3 none))
  | kernel {h : Hw} {a : Act} {s : Sys} (ha : Allowed h.sys a) (hno : ∀ d v, a ≠ .copyonwrite d v)
      (hother : ∀ d, subject a = some d → ∀ c, (h.cpu c).pgdir ≠ some d.root) (hrun : run pc h.sys a = .ok s) :
      Step h (.kernel a) { h with sys := s }

def processors : System Hw Event where
  init h := Booted pc h.sys ∧ ∀ c, h.cpu c = lcr3 none
  step := Step

/-- No cached entry names another frame than the table, or grants a write that the table denies. -/
def NoStale (h : Hw) : Prop :=
  ∀ c r n e, (h.cpu c).pgdir = some r → (h.cpu c).tlb n = some e →
    child (entry h.sys.vm.mem r n) = some (frameOf e) ∧
      (has e pteW = true → has (entry h.sys.vm.mem r n) pteW = true)

/-- The steps that leave no stale entry: `sys_dedup` when no page with a cached entry has the
contents of a neighbour, `sbrk` to another size than 0, faults outside of the large pages. -/
def Careful (h : Hw) : Event → Prop
  | .fault _ d v => Mild h.sys (.copyonwrite d v)
  | .sbrk _ d n => d.sz + n ≠ 0
  | .dedup c d => ∀ n, (h.cpu c).tlb n ≠ none → ∀ j, j + 1 < pages d.sz →
      Twins h.sys.vm.mem d.root j → n ≠ j ∧ n ≠ j + 1
  | _ => True

structure Cached (h : Hw) : Prop where
  inv : KernelInv.Inv h.sys
  running : ∀ c r, (h.cpu c).pgdir = some r → ∃ d ∈ h.sys.pgdirs, d.root = r ∧ d.live = true
  alone : ∀ c c' r, (h.cpu c).pgdir = some r → (h.cpu c').pgdir = some r → c = c'
  exact : ∀ c r n e, (h.cpu c).pgdir = some r → (h.cpu c).tlb n = some e →
    n < 2 ^ 35 ∧ UserPage h.sys.vm.mem r n ∧ e = entry h.sys.vm.mem r n

variable {h h' : Hw} {s s' : Sys} {c c' n : Nat} {d d' : Pgdir} {v : Word} {a : Act} {x : Cpu}
  {ok : Hw → Event → Prop}

@[simp] theorem setCpu_sys : (h.setCpu c x).sys = h.sys := rfl

theorem setCpu_cpu : (h.setCpu c x).cpu c' = if c' = c then x else h.cpu c' := by
  simp only [Hw.setCpu, update_apply]

@[simp] theorem put_same : (x.put n e).tlb n = e := update_self ..

theorem put_other {k : Nat} (hk : k ≠ n) : (x.put n e).tlb k = x.tlb k := update_of_ne hk ..

theorem Cached.noStale (h₀ : Cached h) : NoStale h := by
  intro c r n e hr he
  obtain ⟨-, hu, rfl⟩ := h₀.exact c r n e hr he
  exact ⟨hu.child, id⟩

/-- A page table has one process. -/
theorem same_root (h₀ : KernelInv.Inv s) (hd : d ∈ s.pgdirs) (hd' : d' ∈ s.pgdirs)
    (he : d'.root = d.root) : d' = d := by
  by_contra hne
  have hout := (h₀.world_cons hd).apart_rest (List.mem_cons_self : d.root ∈ piece s.vm.mem d)
  refine hout (mem_held.mpr (.inl ⟨d', (List.mem_erase_of_ne hne).mpr hd', ?_⟩))
  rw [← he]
  exact List.mem_cons_self

/-- The process that runs has a page. -/
theorem Runs.alive (h₀ : Cached h) (hruns : Runs h c d) : Alive h.sys.vm.mem d := by
  obtain ⟨hr, -, -, halive | ⟨n, hn⟩⟩ := hruns
  · exact halive
  · obtain ⟨e, he⟩ := Option.ne_none_iff_exists'.mp hn
    obtain ⟨hlt, hu, -⟩ := h₀.exact c _ n e hr he
    exact ⟨n, hlt, hu⟩

/-- A step that caches nothing, and keeps the entries that stay cached. -/
theorem Cached.mono (h₀ : Cached h) (hinv : KernelInv.Inv h'.sys)
    (hrunning : ∀ c r, (h'.cpu c).pgdir = some r → ∃ d ∈ h'.sys.pgdirs, d.root = r ∧ d.live = true)
    (halone : ∀ c c' r, (h'.cpu c).pgdir = some r → (h'.cpu c').pgdir = some r → c = c')
    (hkeep : ∀ c r n e, (h'.cpu c).pgdir = some r → (h'.cpu c).tlb n = some e → (h.cpu c).pgdir = some r ∧
      (h.cpu c).tlb n = some e ∧ entry h'.sys.vm.mem r n = entry h.sys.vm.mem r n) : Cached h' := by
  refine ⟨hinv, hrunning, halone, ?_⟩
  intro c r n e hr he
  obtain ⟨hr₀, he₀, hsame⟩ := hkeep c r n e hr he
  obtain ⟨hlt, hu, rfl⟩ := h₀.exact c r n e hr₀ he₀
  exact ⟨hlt, by rw [UserPage, hsame]; exact hu, hsame.symm⟩

/-- A call that does not work on the table of a process leaves the process there. -/
theorem run_keeps (ha : Allowed s a) (hrun : run pc s a = .ok s') (hd : d ∈ s.pgdirs) (hlive : d.live = true)
    (hother : subject a ≠ some d) : d ∈ s'.pgdirs := by
  have hupdate : ∀ vm (d₀ d₁ : Pgdir), d₀ ≠ d → d ∈ (s.update vm d₀ d₁).pgdirs := fun vm d₀ d₁ hne =>
    List.mem_cons_of_mem _ ((List.mem_erase_of_ne (Ne.symm hne)).mpr hd)
  have hne : ∀ d₀, subject a = some d₀ → d₀ ≠ d := by
    rintro d₀ hs rfl
    exact hother hs
  cases a with
  | kalloc | krelease f | dedup d₀ | copyonwrite d₀ v =>
    simp only [run] at hrun
    obtain ⟨x, -, hrun⟩ := bind_eq_ok.mp hrun
    obtain rfl := Except.ok.inj hrun
    exact hd
  | scratch f page | store d₀ n page =>
    obtain rfl := Except.ok.inj hrun
    exact hd
  | setupkvm =>
    simp only [run] at hrun
    obtain ⟨x, -, hrun⟩ := bind_eq_ok.mp hrun
    obtain rfl := Except.ok.inj hrun
    exact List.mem_cons_of_mem _ hd
  | inituvm d₀ init | allocuvm d₀ newsz | stack d₀ | deallocuvm d₀ newsz =>
    simp only [run] at hrun
    obtain ⟨x, -, hrun⟩ := bind_eq_ok.mp hrun
    obtain rfl := Except.ok.inj hrun
    exact hupdate _ _ _ (hne d₀ rfl)
  | commit d₀ =>
    obtain rfl := Except.ok.inj hrun
    refine hupdate _ _ _ ?_
    rintro rfl
    exact absurd ha.2 (by simp [hlive])
  | copyuvm d₀ =>
    simp only [run] at hrun
    obtain ⟨x, -, hrun⟩ := bind_eq_ok.mp hrun
    split at hrun
    · obtain rfl := Except.ok.inj hrun
      exact hd
    · obtain rfl := Except.ok.inj hrun
      exact List.mem_cons_of_mem _ hd
  | freevm d₀ =>
    simp only [run] at hrun
    obtain ⟨x, -, hrun⟩ := bind_eq_ok.mp hrun
    obtain rfl := Except.ok.inj hrun
    exact (List.mem_erase_of_ne (Ne.symm (hne d₀ rfl))).mpr hd

section

variable (h₀ : Cached h)
include h₀

/-- What a call on the table `d`, or on no table, leaves of the tables in use. -/
theorem Cached.steady {o : Option Pgdir} (hs : Steady h.sys s o)
    (hr : (h.cpu c).pgdir = some r) (hne : ∀ d, o = some d → r ≠ d.root) :
    entry s.vm.mem r n = entry h.sys.vm.mem r n := by
  obtain ⟨d₁, hd₁, rfl, -⟩ := h₀.running c r hr
  refine hs d₁ hd₁ ?_ n
  intro he
  exact hne d₁ he.symm rfl

theorem Cached.elsewhere (hruns : Runs h c d) (hr : (h.cpu c').pgdir = some r) (hc : c' ≠ c) :
    r ≠ d.root := by
  rintro rfl
  exact hc (h₀.alone c' c _ hr hruns.1)

theorem Cached.others (hruns : Runs h c d) (hs : Steady h.sys s (some d))
    (hr : (h.cpu c').pgdir = some r) (hc : c' ≠ c) :
    entry s.vm.mem r n = entry h.sys.vm.mem r n := by
  refine h₀.steady hs hr ?_
  rintro d₁ ⟨⟩
  exact h₀.elsewhere hruns hr hc

theorem cached_access (hr : (h.cpu c).pgdir = some r) (hn : n < 2 ^ 35)
    (hu : UserPage h.sys.vm.mem r n) :
    Cached (h.setCpu c ((h.cpu c).put n (some (entry h.sys.vm.mem r n)))) := by
  have hpgdir : ∀ c', ((h.setCpu c ((h.cpu c).put n (some (entry h.sys.vm.mem r n)))).cpu c').pgdir =
      (h.cpu c').pgdir := by
    intro c'
    rw [setCpu_cpu]
    split
    · rename_i he
      rw [he]
      rfl
    · rfl
  refine ⟨h₀.inv, ?_, ?_, ?_⟩
  · intro c' r' hr'
    exact h₀.running c' r' ((hpgdir c').symm.trans hr')
  · intro c₁ c₂ r' h₁ h₂
    exact h₀.alone c₁ c₂ r' ((hpgdir c₁).symm.trans h₁) ((hpgdir c₂).symm.trans h₂)
  · intro c' r' n' e hr' he
    rw [hpgdir] at hr'
    rw [setCpu_cpu] at he
    by_cases hc : c' = c
    · subst hc
      obtain rfl : r = r' := Option.some.inj (hr.symm.trans hr')
      rw [if_pos rfl] at he
      by_cases hn' : n' = n
      · subst hn'
        rw [put_same] at he
        exact ⟨hn, hu, (Option.some.inj he).symm⟩
      · rw [put_other hn'] at he
        exact h₀.exact c' r n' e hr he
    · rw [if_neg hc] at he
      exact h₀.exact c' r' n' e hr' he

/-- A processor loads `cr3` or keeps its table and some of its entries. -/
theorem Cached.reload (hinv : KernelInv.Inv s)
    (hpgdirs : ∀ c r, (h.cpu c).pgdir = some r → ∃ d ∈ s.pgdirs, d.root = r ∧ d.live = true)
    (hnew : ∀ r, x.pgdir = some r → (h.cpu c).pgdir = some r ∨
      ((∃ d ∈ s.pgdirs, d.root = r ∧ d.live = true) ∧ ∀ c', (h.cpu c').pgdir ≠ some r))
    (hother : ∀ c' r n, c' ≠ c → (h.cpu c').pgdir = some r → entry s.vm.mem r n = entry h.sys.vm.mem r n)
    (hhere : ∀ r n e, x.pgdir = some r → x.tlb n = some e → (h.cpu c).pgdir = some r ∧ (h.cpu c).tlb n = some e ∧
      entry s.vm.mem r n = entry h.sys.vm.mem r n) : Cached ({ h with sys := s }.setCpu c x) := by
  have hcpu : ∀ c', ({ h with sys := s }.setCpu c x).cpu c' = if c' = c then x else h.cpu c' :=
    fun c' => setCpu_cpu
  refine h₀.mono hinv ?_ ?_ ?_
  · intro c' r hr
    rw [hcpu] at hr
    split at hr
    · rcases hnew r hr with hold | ⟨hd, -⟩
      · exact hpgdirs c r hold
      · exact hd
    · exact hpgdirs c' r hr
  · intro c₁ c₂ r h₁ h₂
    rw [hcpu] at h₁ h₂
    by_cases hc₁ : c₁ = c
    · by_cases hc₂ : c₂ = c
      · rw [hc₁, hc₂]
      · rw [if_pos hc₁] at h₁
        rw [if_neg hc₂] at h₂
        rcases hnew r h₁ with hold | ⟨-, hfree⟩
        · rw [hc₁]
          exact h₀.alone c c₂ r hold h₂
        · exact absurd h₂ (hfree c₂)
    · by_cases hc₂ : c₂ = c
      · rw [if_neg hc₁] at h₁
        rw [if_pos hc₂] at h₂
        rcases hnew r h₂ with hold | ⟨-, hfree⟩
        · rw [hc₂]
          exact h₀.alone c₁ c r h₁ hold
        · exact absurd h₁ (hfree c₁)
      · rw [if_neg hc₁] at h₁
        rw [if_neg hc₂] at h₂
        exact h₀.alone c₁ c₂ r h₁ h₂
  · intro c' r n e hr he
    rw [hcpu] at hr he
    by_cases hc : c' = c
    · subst hc
      rw [if_pos rfl] at hr he
      exact hhere r n e hr he
    · rw [if_neg hc] at hr he
      exact ⟨hr, he, hother c' r n hc hr⟩

theorem allowed_fault (hruns : Runs h c d) (hf : FaultAt h c d v) :
    Allowed h.sys (.copyonwrite d v) := by
  refine ⟨hruns.2.1, hruns.2.2.1, ?_⟩
  unfold FaultAt at hf
  split at hf
  · rename_i e he
    obtain ⟨hlt, hu, rfl⟩ := h₀.exact c _ _ e hruns.1 he
    have hv : v.toNat < 2 ^ 47 := by omega
    obtain ⟨t, hw⟩ := walk_of_pte hu.child
    refine ⟨canonical_of_lt hv, ?_⟩
    intro pg hpg
    rw [hwWalk_page (h₀.inv.sound hruns.2.1).tree.shape hv hw, if_pos hu.1] at hpg
    cases hpg
    exact hf
  · exact hf

/-- Every running process is still there if the call leaves the tables as they are. -/
theorem Cached.same_pgdirs (hp : s.pgdirs = h.sys.pgdirs) (c r : Nat) (hr : (h.cpu c).pgdir = some r) :
    ∃ d ∈ s.pgdirs, d.root = r ∧ d.live = true := by
  rw [hp]
  exact h₀.running c r hr

theorem cached_fault (hruns : Runs h c d) (hf : FaultAt h c d v)
    (hmild : Mild h.sys (.copyonwrite d v)) (hrun : run pc h.sys (.copyonwrite d v) = .ok s) :
    Cached ({ h with sys := s }.setCpu c ((h.cpu c).put (v.toNat / 4096) none)) := by
  obtain ⟨hinv, hsteady, hpages, hpgdirs, -⟩ :=
    (copyonwrite_step pc_oom pc_full h₀.inv (allowed_fault h₀ hruns hf) hmild).of_ok hrun
  refine h₀.reload hinv (h₀.same_pgdirs hpgdirs) (fun r hr => .inl hr) ?_ ?_
  · intro c' r n hc hr
    exact h₀.others hruns hsteady hr hc
  · intro r n e hr he
    by_cases hn : n = v.toNat / 4096
    · rw [hn, put_same] at he
      cases he
    · rw [put_other hn] at he
      obtain rfl : d.root = r := Option.some.inj (hruns.1.symm.trans hr)
      exact ⟨hr, he, hpages n (h₀.exact c _ n e hr he).1 hn⟩

theorem cached_dedup (hruns : Runs h c d) (hcare : Careful h (.dedup c d))
    (hrun : run pc h.sys (.dedup d) = .ok s) : Cached { h with sys := s } := by
  have hallowed : Allowed h.sys (.dedup d) := ⟨hruns.2.1, hruns.2.2.1, Runs.alive h₀ hruns⟩
  obtain ⟨hinv, hsteady⟩ := (step_ends pc_oom pc_full h₀.inv hallowed trivial).of_ok hrun
  simp only [run] at hrun
  obtain ⟨vm, hdedup, hrun⟩ := bind_eq_ok.mp hrun
  obtain rfl := Except.ok.inj hrun
  have hbound := pages_bound h₀.inv hruns.2.1
  have hmax := maxTabled_lt
  obtain ⟨-, hded, -⟩ := (dedup_ends pc_full (h₀.inv.space hruns.2.1) (by omega)).of_ok hdedup
  refine h₀.mono hinv (h₀.same_pgdirs rfl) h₀.alone ?_
  intro c' r n e hr he
  refine ⟨hr, he, ?_⟩
  by_cases hc : c' = c
  · subst hc
    obtain rfl : d.root = r := Option.some.inj (hruns.1.symm.trans hr)
    exact hded.kept n (h₀.exact c' _ n e hr he).1 (hcare n (by rw [he]; simp))
  · exact h₀.others hruns hsteady hr hc

end

theorem growproc_returns {vm vm' : State} {new sz : Word} {ret : Int}
    (hret : (if new = 0 then pure (vm', d.sz, -1) else pure (vm', new, 0) :
      Except Trap (State × Word × Int)) = .ok (vm, sz, ret)) :
    vm' = vm ∧ (if new = 0 then d else { d with sz := new }) = { d with sz := sz } ∧
      (ret ≠ 0 → new = 0) := by
  split at hret <;> cases hret
  · exact ⟨rfl, if_pos ‹_›, fun _ => ‹_›⟩
  · exact ⟨rfl, if_neg ‹_›, fun h => absurd rfl h⟩

section

variable {n sz : Word} {vm : State} {ret : Int} (h₀ : Cached h) (hruns : Runs h c d)
  (hne : d.sz + n ≠ 0) (hrun : growproc pc h.sys.vm (kva d.root) d.sz n = .ok (vm, sz, ret))
include h₀ hruns hne hrun

/-- What `growproc` does when it is not to size 0: where it does not get to `switchuvm`, the table
has not changed. -/
theorem growproc_ends :
    KernelInv.Inv (h.sys.update vm d { d with sz := sz }) ∧
      Steady h.sys (h.sys.update vm d { d with sz := sz }) (some d) ∧ (ret ≠ 0 → vm = h.sys.vm) := by
  have halive := Runs.alive h₀ hruns
  obtain ⟨-, hd, hlive, -⟩ := hruns
  have hbound := pages_bound h₀.inv hd
  have hmax := maxTabled_lt
  have hlen := freelist_length h₀.inv
  have hpos := (h₀.inv.sound hd).pos
  rw [growproc] at hrun
  split at hrun
  · obtain ⟨⟨vm, new⟩, halloc, hret⟩ := bind_eq_ok.mp hrun
    obtain ⟨rfl, hd', hzero⟩ := growproc_returns hret
    rw [← hd']
    have hallowed : Allowed h.sys (.allocuvm d (d.sz + n)) := ⟨hd, fun _ => halive⟩
    obtain ⟨hinv, hsteady⟩ := (step_ends pc_oom pc_full h₀.inv hallowed trivial).of_ok
      (by simp only [run, halloc, ok_bind]; rfl)
    refine ⟨hinv, hsteady, fun hret => ?_⟩
    rcases (allocuvm_ends pc_oom pc_full (h₀.inv.space hd) hpos (by omega)).of_ok halloc with
      ⟨he, -⟩ | ⟨he, -⟩ | ⟨he, -⟩
    · exact congrArg Prod.fst he
    · exact congrArg Prod.fst he
    · exact absurd (he.symm.trans (hzero hret)) hne
  · split at hrun
    · obtain ⟨⟨vm, new⟩, hdealloc, hret⟩ := bind_eq_ok.mp hrun
      obtain ⟨rfl, hd', hzero⟩ := growproc_returns hret
      rw [← hd']
      have hallowed : Allowed h.sys (.deallocuvm d (d.sz + n)) := ⟨hd, hlive, halive⟩
      obtain ⟨hinv, hsteady⟩ := (step_ends pc_oom pc_full h₀.inv hallowed trivial).of_ok
        (by simp only [run, hdealloc, ok_bind]; rfl)
      refine ⟨hinv, hsteady, fun hret => ?_⟩
      obtain ⟨x, hx, -, hcase⟩ : ∃ x, deallocuvm pc h.sys.vm (kva d.root) d.sz (d.sz + n) = .ok x ∧ _ :=
        deallocuvm_space pc_full (h₀.inv.space hd) (by omega)
      obtain rfl := Except.ok.inj (hdealloc.symm.trans hx)
      rcases hcase with ⟨he, -⟩ | ⟨he, -⟩
      · exact congrArg Prod.fst he
      · exact absurd (he.symm.trans (hzero hret)) hne
    · cases hrun
      exact ⟨h₀.inv.update hd (h₀.inv.space hd) (fun _ _ => rfl) (h₀.inv.sound hd), fun _ _ _ _ => rfl,
        fun _ => rfl⟩

theorem cached_sbrk :
    Cached ({ h with sys := h.sys.update vm d { d with sz := sz } }.setCpu c
      (if ret = 0 then lcr3 (some d.root) else h.cpu c)) := by
  obtain ⟨hinv, hsteady, hsame⟩ := growproc_ends h₀ hruns hne hrun
  refine h₀.reload hinv ?_ ?_ ?_ ?_
  · intro c' r hr
    obtain ⟨d₁, hd₁, rfl, hlive⟩ := h₀.running c' r hr
    by_cases he : d₁ = d
    · exact ⟨_, List.mem_cons_self, by rw [he], hruns.2.2.1⟩
    · exact ⟨d₁, List.mem_cons_of_mem _ ((List.mem_erase_of_ne he).mpr hd₁), rfl, hlive⟩
  · intro r hr
    split at hr
    · obtain rfl : d.root = r := Option.some.inj hr
      exact .inl hruns.1
    · exact .inl hr
  · intro c' r n hc hr
    exact h₀.others hruns hsteady hr hc
  · intro r n e hr he
    by_cases hret : ret = 0
    · rw [if_pos hret] at he
      cases he
    · rw [if_neg hret] at hr he
      exact ⟨hr, he, by rw [show (h.sys.update vm d _).vm = vm from rfl, hsame hret]⟩

end

theorem cached_exec (h₀ : Cached h) (hd : d' ∈ h.sys.pgdirs) (hnew : d'.live = false)
    (hrun : run pc h.sys (.commit d') = .ok s) : Cached ({ h with sys := s }.setCpu c (lcr3 (some d'.root))) := by
  have hallowed : Allowed h.sys (.commit d') := ⟨hd, hnew⟩
  obtain ⟨hinv, hsteady⟩ := (step_ends pc_oom pc_full h₀.inv hallowed trivial).of_ok hrun
  refine h₀.reload hinv ?_ ?_ ?_ ?_
  · intro c' r hr
    obtain ⟨d₁, hd₁, rfl, hlive⟩ := h₀.running c' r hr
    exact ⟨d₁, run_keeps hallowed hrun hd₁ hlive (by simp [subject]), rfl, hlive⟩
  · intro r hr
    obtain rfl : d'.root = r := Option.some.inj hr
    refine .inr ⟨⟨{ d' with live := true }, ?_, rfl, rfl⟩, ?_⟩
    · obtain rfl := Except.ok.inj hrun
      exact List.mem_cons_self
    · intro c' hr'
      obtain ⟨d₁, hd₁, hroot, hlive⟩ := h₀.running c' _ hr'
      rw [same_root h₀.inv hd hd₁ hroot, hnew] at hlive
      cases hlive
  · intro c' r n _ hr
    exact h₀.steady hsteady hr (by simp [subject])
  · intro r n e _ he
    cases he

theorem cached_kernel (h₀ : Cached h) (ha : Allowed h.sys a) (hno : ∀ d v, a ≠ .copyonwrite d v)
    (hother : ∀ d, subject a = some d → ∀ c, (h.cpu c).pgdir ≠ some d.root) (hrun : run pc h.sys a = .ok s) :
    Cached { h with sys := s } := by
  have hmild : Mild h.sys a := by
    cases a with
    | copyonwrite d v => exact absurd rfl (hno d v)
    | _ => trivial
  obtain ⟨hinv, hsteady⟩ := (step_ends pc_oom pc_full h₀.inv ha hmild).of_ok hrun
  refine h₀.mono hinv ?_ h₀.alone ?_
  · intro c r hr
    obtain ⟨d₁, hd₁, rfl, hlive⟩ := h₀.running c r hr
    refine ⟨d₁, run_keeps ha hrun hd₁ hlive ?_, rfl, hlive⟩
    intro hs
    exact hother d₁ hs c hr
  · intro c r n e hr he
    refine ⟨hr, he, h₀.steady hsteady hr ?_⟩
    rintro d₁ hs rfl
    exact hother d₁ hs c hr

theorem cached_step {ev : Event} (h₀ : Cached h) (hcare : Careful h ev) (hs : Step h ev h') : Cached h' := by
  cases hs with
  | access hr hn hu => exact cached_access h₀ hr hn hu
  | fault hruns hf hrun => exact cached_fault h₀ hruns hf hcare hrun
  | sbrk hruns hrun => exact cached_sbrk h₀ hruns hcare hrun
  | dedup hruns hrun => exact cached_dedup h₀ hruns hcare hrun
  | exec hruns hd hnew hrun => exact cached_exec h₀ hd hnew hrun
  | switchuvm hidle hd hlive hother =>
    refine h₀.reload h₀.inv h₀.running ?_ (fun _ _ _ _ _ => rfl) (fun _ _ _ _ he => by cases he)
    intro r hr
    obtain rfl := Option.some.inj hr
    exact .inr ⟨⟨_, hd, rfl, hlive⟩, hother⟩
  | switchkvm =>
    exact h₀.reload h₀.inv h₀.running (fun _ hr => by cases hr) (fun _ _ _ _ _ => rfl)
      (fun _ _ _ _ he => by cases he)
  | kernel ha hno hother hrun => exact cached_kernel h₀ ha hno hother hrun

theorem cached_init (hinit : processors.init h) : Cached h := by
  obtain ⟨hboot, hcpu⟩ := hinit
  refine ⟨inv_booted pc_oom pc_full hboot, ?_, ?_, ?_⟩
  · intro c r hr
    rw [hcpu c] at hr
    cases hr
  · intro c c' r hr
    rw [hcpu c] at hr
    cases hr
  · intro c r n e hr
    rw [hcpu c] at hr
    cases hr

/-- A run of careful steps has no stale entry in any state. -/
theorem no_stale (hreach : Reach processors Careful h) : NoStale h :=
  (hreach.invariant (fun _ hinit => cached_init hinit) (fun _ _ _ h₀ hcare hs => cached_step h₀ hcare hs)).noStale

def single (s : Sys) (x : Cpu) : Hw := ⟨s, update (fun _ => lcr3 none) 0 x⟩

@[simp] theorem single_cpu : (single s x).cpu 0 = x := by
  simp [single]

@[simp] theorem single_setCpu {y : Cpu} : (single s x).setCpu 0 y = single s y := by
  simp [single, Hw.setCpu]

/-- Calls of the kernel while all processors are in the scheduler. -/
theorem reach_idle (hok : ∀ h a, ok h (.kernel a)) (hreach : Reach (system pc) Unfaulted s) :
    Reach processors ok ⟨s, fun _ => lcr3 none⟩ := by
  induction hreach with
  | init hboot => exact .init ⟨hboot, fun _ => rfl⟩
  | step _ hno hs ih =>
    refine ih.step (hok _ _) (.kernel hs.1 ?_ (fun d _ c => by simp [lcr3]) hs.2)
    rintro d v rfl
    exact hno

/-- The first process runs. -/
theorem exists_running (hkernel : ∀ h a, ok h (.kernel a))
    (hswitch : ∀ h c d, ok h (.switchuvm c d)) :
    ∃ s d, First s d ∧ Reach (system pc) Unfaulted s ∧ Reach processors ok (single s (lcr3 (some d.root))) := by
  obtain ⟨s, d, hreach, -, hfirst⟩ := exists_first_unfaulted
  exact ⟨s, d, hfirst, hreach, (reach_idle hkernel hreach).step (hswitch _ 0 d)
    (.switchuvm rfl hfirst.mem hfirst.live (fun c => by simp [lcr3]))⟩

theorem single_access (hr : x.pgdir = some r) (hn : n < 2 ^ 35) (hu : UserPage s.vm.mem r n) :
    Step (single s x) (.access 0 n) (single s (x.put n (some (entry s.vm.mem r n)))) := by
  have hstep := Step.access (h := single s x) (c := 0) (by rw [single_cpu]; exact hr) hn hu
  rwa [single_cpu, single_setCpu] at hstep

theorem no_stale_first : ∃ h d, First h.sys d ∧
    (h.cpu 0).tlb 1 = some (entry h.sys.vm.mem d.root 1) ∧ NoStale h := by
  obtain ⟨s, d, hfirst, -, hreach⟩ : ∃ s d, First s d ∧ _ ∧ Reach processors Careful
    (single s (lcr3 (some d.root))) :=
    exists_running (fun _ _ => trivial) (fun _ _ _ => trivial)
  have haccess := single_access (x := lcr3 (some d.root)) rfl (show 1 < 2 ^ 35 by omega) hfirst.user
  exact ⟨_, d, hfirst, by rw [single_cpu, put_same]; rfl,
    no_stale (hreach.step (a := .access 0 1) trivial haccess)⟩

/-- A zero page is cached as writable, and `sys_dedup` shares it. -/
theorem stale_dedup (h₁ : Zeros s d n) (hn : 3 ≤ n) (hw : has (entry s.vm.mem d.root 2) pteW = true)
    (hreach : Reachable processors (single s (lcr3 (some d.root)))) : ∃ h, Reachable processors h ∧
    ¬ NoStale h := by
  have hpage := (h₁.zero 2 (by omega) (by omega)).1
  have haccess := single_access (x := lcr3 (some d.root)) rfl (show 2 < 2 ^ 35 by omega) hpage
  obtain ⟨vm', hdedup, h₂, -, hshared⟩ := h₁.merge (by omega)
  have hrun : run pc s (.dedup d) = .ok { s with vm := vm' } := by
    simp only [run, hdedup, ok_bind]
    rfl
  have hruns : Runs (single s ((lcr3 (some d.root)).put 2 (some (entry s.vm.mem d.root 2)))) 0 d :=
    ⟨by rw [single_cpu]; rfl, h₁.mem, h₁.live, .inl (h₁.alive (by omega))⟩
  refine ⟨_, (hreach.next haccess).next (.dedup hruns hrun), ?_⟩
  intro hfresh
  have hnow : has (entry vm'.mem d.root 2) pteW = true :=
    (hfresh 0 d.root 2 (entry s.vm.mem d.root 2) (by simp [single, Cpu.put, lcr3]) (by simp [single])).2 hw
  have hmap₂ : Maps { s with vm := vm' } d 2 (frameOf (entry vm'.mem d.root 2)) :=
    ⟨h₂.mem, by omega, (h₂.zero 2 (by omega) (by omega)).1.child⟩
  have hmap₁ : Maps { s with vm := vm' } d 1 (frameOf (entry vm'.mem d.root 2)) :=
    ⟨h₂.mem, by omega, (hshared 2 (by omega) (by omega)).symm.trans hmap₂.2.2⟩
  have hfrozen : has (entry vm'.mem d.root 2) pteW = false := (hmap₂.frozen h₂.inv hmap₁ (by omega)).2
  exact absurd hnow (by simp [hfrozen])

/-- A process grows to three zero pages, touches the second and calls `sys_dedup`: the cache still
lets it write a page that is now shared. -/
theorem dedup_leaves_stale : ∃ h, Reachable processors h ∧ ¬ NoStale h := by
  obtain ⟨s, d, hfirst, hplain, hreach⟩ : ∃ s d, First s d ∧ Reach (system pc) Unfaulted s ∧
      Reachable processors (single s (lcr3 (some d.root))) :=
    exists_running (fun _ _ => trivial) (fun _ _ _ => trivial)
  have hfree := hfirst.free
  obtain ⟨vm', halloc, h₁, hgrown⟩ :=
    (zeros_first hfirst hplain).grow (Nat.le_refl 2) (show 2 ≤ 4 by omega) (by omega) (by omega)
  have hgrow : growproc pc s.vm (kva d.root) d.sz 0x2000 = .ok (vm', sizeFor 4, 0) := by
    have hsz : d.sz + 0x2000 = sizeFor 4 := by
      rw [hfirst.sz]
      rfl
    rw [growproc, if_pos (by decide), hsz, halloc, ok_bind]
    exact if_neg (by decide)
  have hruns : Runs (single s (lcr3 (some d.root))) 0 d :=
    ⟨by rw [single_cpu]; rfl, hfirst.mem, hfirst.live, .inl hfirst.alive⟩
  have hsbrk := Step.sbrk hruns hgrow
  rw [if_pos rfl, show (single s _).sys = s from rfl, Sys.update, hfirst.pgdirs, List.erase_cons_head] at hsbrk
  refine stale_dedup h₁ (by omega) (Grown.writable hgrown (fun _ _ _ _ hz => hz.1) (Nat.le_refl 2) (by omega)) ?_
  have hnext := hreach.next hsbrk
  rwa [show ({ single s (lcr3 (some d.root)) with
    sys := { s with vm := vm', pgdirs := [{ d with sz := sizeFor 4 }] } } : Hw) =
      single _ (lcr3 (some d.root)) from rfl,
    single_setCpu] at hnext

end Xv6.Tlb
