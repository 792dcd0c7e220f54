import Mathlib.Algebra.Group.Action.Defs
import Mathlib.Algebra.Order.BigOperators.Group.Finset
import Mathlib.Data.Finset.Card
import Mathlib.Data.List.Dedup
import Mathlib.Logic.Relation
import Xv6.LogMachine

/-!
# The reservation made by `begin_op`

The steps of the log with the contract that its callers keep: between `begin_op` and `end_op` a
process passes at most `maxOpBlocks` distinct blocks to `log_write`. `begin_op` reserves for
`logSize` blocks, but `log_write` refuses when `size - 1` are logged, and it looks before it takes
the lock and before it absorbs a block that is logged already.
-/
namespace Xv6.LogReserve

open Words RedoLog Interleaving LogMachine Function

/-- The machine, and for each process the blocks it has passed to `log_write` since `begin_op`. -/
structure Ops (N : Nat) where
  machine : LogMachine.State N
  called : Fin N → Finset BlockNo

variable {N : Nat}

def note (called : Fin N → Finset BlockNo) : Act N → Fin N → Finset BlockNo
  | .begin p => update called p ∅
  | .write p b => update called p (insert b (called p))
  | _ => called

/-- The log starts as `initlog` leaves it with the superblock of `mkfs`. -/
def system (N : Nat) : System (Ops N) (Act N) where
  init s := Initial s.machine ∧ s.machine.log.size = logSize ∧ ∀ p, s.called p = ∅
  step s a s' := LogMachine.Step s.machine a s'.machine ∧ s'.called = note s.called a

/-- A process passes at most `maxOpBlocks` distinct blocks to `log_write` in an operation. -/
def Contract (s : Ops N) : Act N → Prop
  | .write p b => (insert b (s.called p)).card ≤ maxOpBlocks
  | _ => True

def tooBig : Trap := .panic "too big a transaction"

/-- A call of `log_write` that has a test of the size before it. -/
def calling : Pc → Bool
  | .looking _ look => look.trap = tooBig
  | _ => false

/-- The next step of a process is `panic("too big a transaction")`. -/
def TooBig (s : LogMachine.State N) : Prop :=
  ∃ p b look, s.procs p = .looking b look ∧ look.trap = tooBig ∧ passes s.log look = false

def Looks (p : Fin N) : LogMachine.State N → LogMachine.State N → Prop :=
  Relation.ReflTransGen fun s t => LogMachine.Step s (.look p) t

/-- `log_write` is not called when `logSize - 1` distinct blocks are logged, and no block is logged
as the last of so many while another call still has a test of the size before it. -/
def Roomy (s : Ops N) : Act N → Prop
  | .write _ _ => s.machine.seen.dedup.length < logSize - 1
  | .store p => ∀ b q, s.machine.procs p = .logging b → calling (s.machine.procs q) = true →
      (s.machine.seen ++ [b]).dedup.length < logSize - 1
  | _ => True

variable {s s' : Ops N} {m m' : LogMachine.State N} {a : Act N} {p q : Fin N} {b : BlockNo}
  {ok : Ops N → Act N → Prop} {procs : Fin N → Pc} {pc : Pc}

theorem machine_reachable (h : Reach (system N) ok s) :
    Reachable (LogMachine.system N) s.machine := by
  induction h with
  | init h => exact .init h.1
  | step _ _ hs ih => exact ih.next hs.1

theorem endOp_same {l l' : Log} (h : endOp l = .ok l') : l'.size = l.size ∧ l'.lh = l.lh := by
  simp only [endOp] at h
  split at h
  · cases h
  · split at h <;> cases h <;> exact ⟨rfl, rfl⟩

theorem step_size (hs : LogMachine.Step m a m') : m'.log.size = m.log.size := by
  cases hs with
  | enter _ htest => rw [(beginOp_some htest).2]
  | store => rw [absorb_eq]
  | last _ hend | finish _ hend => exact (endOp_same hend).1
  | clear => rw [commit_fst]
  | _ => rfl

theorem size_reach (h : Reach (system N) ok s) : s.machine.log.size = logSize :=
  h.invariant (I := fun s => s.machine.log.size = (logSize : Int)) (fun _ hi => hi.2.1)
    (fun _ _ _ hI _ hs => (step_size hs.1).trans hI)

/-- The header has each block logged since the last commit once. -/
theorem length_lh (h : LogMachine.Inv m) : m.log.lh.length = m.seen.dedup.length := by
  apply List.Perm.length_eq
  rw [List.perm_ext_iff_of_nodup h.nodup (List.nodup_dedup _)]
  intro b
  rw [List.mem_dedup, h.mem b]

/-- No call that has a test of the size before it will fail it. -/
def Clear (m : LogMachine.State N) : Prop :=
  ∀ q, calling (m.procs q) = true → m.seen.dedup.length < logSize - 1

theorem calling_goto (hpc : calling pc = false) (h : calling (goto procs p pc q) = true) :
    q ≠ p ∧ calling (procs q) = true := by
  by_cases hq : q = p
  · subst hq
    rw [goto_self, hpc] at h
    cases h
  · rw [goto_other hq] at h
    exact ⟨hq, h⟩

theorem calling_wakeup (procs : Fin N → Pc) (p : Fin N) :
    calling (wakeup procs p) = calling (procs p) := by
  rw [wakeup]
  split
  · rename_i h
    rw [h]
    rfl
  · rfl

/-- A process that is in no call does not disturb the others. -/
theorem Clear.goto (h : Clear m) (l : Log) (hpc : calling pc = false) :
    Clear ⟨l, LogMachine.goto m.procs p pc, m.seen⟩ :=
  fun q hq => h q (calling_goto hpc hq).2

theorem Clear.wakeup (h : Clear m) (l : Log) (hpc : calling pc = false) :
    Clear ⟨l, LogMachine.goto (LogMachine.wakeup m.procs) p pc, m.seen⟩ := by
  intro q hq
  have hold := (calling_goto hpc hq).2
  rw [calling_wakeup] at hold
  exact h q hold

theorem Clear.look {look : Look} (h : Clear m) (hpc : m.procs p = .looking b look) :
    Clear ⟨m.log, LogMachine.goto m.procs p (look.next b), m.seen⟩ := by
  intro q hq
  by_cases hqp : q = p
  · subst hqp
    simp only [goto_self] at hq
    refine h q ?_
    rw [hpc]
    cases look with
    | block | size => rfl
    | outstanding => cases hq
  · simp only [goto_other hqp] at hq
    exact h q hq

/-- A step is roomy if and only if no call is left that will fail. -/
theorem clear_step (h : Clear s.machine) (hs : (system N).step s a s') :
    Clear s'.machine ↔ Roomy s a := by
  obtain ⟨m, called⟩ := s
  obtain ⟨m', called'⟩ := s'
  obtain ⟨hstep, -⟩ := hs
  dsimp only at h hstep ⊢
  cases hstep with
  | enter | wait | kill => exact iff_of_true (h.goto _ rfl) trivial
  | @write p b hpc =>
    constructor
    · intro hclear
      refine hclear p ?_
      simp only [goto_self]
      rfl
    · intro hroom _ _
      exact hroom
  | look hpc => exact iff_of_true (h.look hpc) trivial
  | @store p b hpc =>
    constructor
    · intro hclear b' q hb' hq
      rw [hpc, Pc.logging.injEq] at hb'
      subst hb'
      have hqp : q ≠ p := by
        rintro rfl
        rw [hpc] at hq
        cases hq
      refine hclear q ?_
      simp only [goto_other hqp]
      exact hq
    · intro hroom q hq
      exact hroom b q hpc (calling_goto rfl hq).2
  | last => exact iff_of_true (h.goto _ rfl) trivial
  | finish => exact iff_of_true (h.wakeup _ rfl) trivial
  | clear => exact iff_of_true (fun _ _ => Nat.succ_pos 28) trivial
  | done => exact iff_of_true (h.wakeup _ rfl) trivial

theorem Clear.not_tooBig (h : Clear m) (hinv : LogMachine.Inv m) (hsize : m.log.size = logSize) :
    ¬ TooBig m := by
  rintro ⟨p, b, look, hpc, hof, hfail⟩
  have hlt := h p (by rw [hpc]; exact decide_eq_true hof)
  have hlen := length_lh hinv
  cases look with
  | block => simp only [passes, Bool.not_eq_false', decide_eq_true_eq] at hfail; omega
  | size =>
    simp only [passes, hsize, Bool.not_eq_false', decide_eq_true_eq] at hfail
    simp only [logSize, maxOpBlocks] at hfail hlt
    omega
  | outstanding => exact absurd hof (by decide)

/-- The tests of one process leave the machine clear. -/
theorem Clear.looks (h : Clear m) (hinv : LogMachine.Inv m) (hsize : m.log.size = logSize)
    (hrun : Looks p m m') : Clear m' ∧ LogMachine.Inv m' ∧ m'.log.size = logSize := by
  induction hrun with
  | refl => exact ⟨h, hinv, hsize⟩
  | tail _ hs ih =>
    refine ⟨?_, LogMachine.inv_step ih.2.1 hs, (step_size hs).trans ih.2.2⟩
    cases hs with
    | look hpc => exact ih.1.look hpc

/-- A call with a test of the size before it and `logSize - 1` blocks in the header comes to the
panic by itself: at the first test, or at the second. -/
theorem tooBig_of_full (hinv : LogMachine.Inv m) (hsize : m.log.size = logSize)
    (hcall : calling (m.procs q) = true) (hfull : logSize - 1 ≤ m.seen.dedup.length) :
    ∃ t, Looks q m t ∧ TooBig t := by
  have hlen := length_lh hinv
  have hlast : passes m.log .size = false := by
    simp only [passes, hsize, Bool.not_eq_false', decide_eq_true_eq]
    simp only [logSize, maxOpBlocks] at hfull ⊢
    omega
  cases hpc : m.procs q with
  | looking b look =>
    rw [hpc] at hcall
    cases look with
    | outstanding => simp [calling, Look.trap, tooBig] at hcall
    | size => exact ⟨m, .refl, q, b, .size, hpc, rfl, hlast⟩
    | block =>
      cases hfirst : passes m.log .block with
      | false => exact ⟨m, .refl, q, b, .block, hpc, rfl, hfirst⟩
      | true =>
        refine ⟨_, .single (.look hpc hfirst), q, b, .size, ?_, rfl, hlast⟩
        exact goto_self
  | _ => rw [hpc] at hcall; cases hcall

theorem clear_reach (h : Reach (system N) (fun s a => Contract s a ∧ Roomy s a) s) :
    Clear s.machine := by
  refine h.invariant (I := fun s => Clear s.machine) (fun s hi q hq => ?_) ?_
  · rw [hi.1.outside q] at hq
    cases hq
  · intro s a s' hI hok hs
    exact (clear_step hI hs).mpr hok.2

/-- As long as the steps are roomy `log_write` does not find the transaction too big, and the first
step that is not leaves a process that does when it goes on. -/
theorem log_write_fits_iff (h : Reach (system N) (fun s a => Contract s a ∧ Roomy s a) s) :
    ¬ TooBig s.machine ∧ ∀ a s', (system N).step s a s' → Contract s a →
      (Roomy s a ↔ ∀ p t, Looks p s'.machine t → ¬ TooBig t) := by
  have hinv := LogMachine.inv_reachable (machine_reachable h)
  have hsize := size_reach h
  have hclear := clear_reach h
  refine ⟨hclear.not_tooBig hinv hsize, fun a s' hs _ => ?_⟩
  have hinv' := LogMachine.inv_step hinv hs.1
  have hsize' := (step_size hs.1).trans hsize
  rw [← clear_step hclear hs]
  constructor
  · intro hclear' p t hrun
    obtain ⟨ht, hinvt, hsizet⟩ := hclear'.looks hinv' hsize' hrun
    exact ht.not_tooBig hinvt hsizet
  · intro hpass q hq
    by_contra hfull
    obtain ⟨t, hrun, hbig⟩ := tooBig_of_full hinv' hsize' hq (Nat.le_of_not_lt hfull)
    exact hpass q t hrun hbig

theorem reach_begin {l : Log} (h : Reach (system N) ok s) (hpc : s.machine.procs p = .outside)
    (htest : beginOp s.machine.log = some l) (hcalled : s.called p = ∅) (hok : ok s (.begin p)) :
    Reach (system N) ok ⟨⟨l, goto s.machine.procs p .op, s.machine.seen⟩, s.called⟩ :=
  .step h hok ⟨.enter (.inl hpc) htest, by rw [note, ← hcalled, update_eq_self]⟩

/-- A call of `log_write` by a process that is not disturbed. -/
theorem reach_write (h : Reach (system N) ok s) (hpc : s.machine.procs p = .op)
    (hfit : s.machine.log.lh.length < logSize - 1) (hwrite : ok s (.write p b))
    (hlook : ∀ t, ok t (.look p))
    (hstore : ∀ t : Ops N, t.machine.seen = s.machine.seen →
      t.machine.procs = goto s.machine.procs p (.logging b) → ok t (.store p)) :
    Reach (system N) ok ⟨⟨absorb s.machine.log b, s.machine.procs, s.machine.seen ++ [b]⟩,
      update s.called p (insert b (s.called p))⟩ := by
  have hsize := size_reach h
  have hbusy := ((inv_reachable (machine_reachable h)).busy (p := p) (by rw [hpc]; rfl)).1
  obtain ⟨m, called⟩ := s
  dsimp only at hpc hfit hsize hbusy ⊢
  have htwice (x y : Pc) : goto (goto m.procs p x) p y = goto m.procs p y :=
    update_idem ..
  have hnext {look : Look} {called' : Fin N → Finset BlockNo}
      (hr : Reach (system N) ok ⟨⟨m.log, goto m.procs p (.looking b look), m.seen⟩, called'⟩)
      (hpass : passes m.log look = true) :
      Reach (system N) ok ⟨⟨m.log, goto m.procs p (look.next b), m.seen⟩, called'⟩ := by
    refine .step hr (hlook _) ⟨?_, rfl⟩
    have hstep := LogMachine.Step.look (s := ⟨m.log, goto m.procs p (.looking b look), m.seen⟩)
      (p := p) goto_self hpass
    rwa [htwice] at hstep
  have hcall : Reach (system N) ok ⟨⟨m.log, goto m.procs p (.looking b .block), m.seen⟩,
      update called p (insert b (called p))⟩ := .step h hwrite ⟨.write hpc, rfl⟩
  have hlogging := hnext (hnext (hnext hcall ?_) ?_) ?_
  · refine .step hlogging (hstore _ rfl rfl) ⟨?_, rfl⟩
    have hstep := LogMachine.Step.store (s := ⟨m.log, goto m.procs p (.logging b), m.seen⟩)
      (p := p) goto_self
    rwa [htwice, show goto m.procs p .op = m.procs from hpc ▸ update_eq_self ..] at hstep
  · simp only [passes, Bool.not_eq_true', decide_eq_false_iff_not]
    omega
  · simp only [passes, hsize, Bool.not_eq_true', decide_eq_false_iff_not]
    simp only [logSize, maxOpBlocks] at hfit ⊢
    omega
  · simp only [passes, Bool.not_eq_true', decide_eq_false_iff_not]
    omega

structure Logged (s : Ops N) (p : Fin N) (bs : List BlockNo) (s' : Ops N) : Prop where
  log : s'.machine.log = { s.machine.log with lh := s.machine.log.lh ++ bs }
  procs : s'.machine.procs = s.machine.procs
  seen : s'.machine.seen = s.machine.seen ++ bs
  called : s'.called = update s.called p (s.called p ∪ bs.toFinset)

/-- A process logs new blocks that the header and its own reservation have room for. -/
theorem reach_writes (bs : List BlockNo)
    (h : Reach (system N) (fun s a => Contract s a ∧ Roomy s a) s) (hpc : s.machine.procs p = .op)
    (hnew : (s.machine.seen ++ bs).Nodup) (hroom : (s.machine.seen ++ bs).length < logSize - 1)
    (hcard : (s.called p ∪ bs.toFinset).card ≤ maxOpBlocks) :
    ∃ s', Reach (system N) (fun s a => Contract s a ∧ Roomy s a) s' ∧ Logged s p bs s' := by
  induction bs generalizing s with
  | nil => exact ⟨s, h, by simp, rfl, by simp, by simp⟩
  | cons b bs ih =>
    have hinv := inv_reachable (machine_reachable h)
    have hsplit : s.machine.seen ++ b :: bs = s.machine.seen ++ [b] ++ bs := by simp
    have hfirst : (s.machine.seen ++ [b]).Nodup :=
      (hsplit ▸ hnew).sublist (List.sublist_append_left ..)
    have hseen : s.machine.seen.Nodup := hfirst.sublist (List.sublist_append_left ..)
    have hlen := length_lh hinv
    rw [hseen.dedup] at hlen
    simp only [List.length_append, List.length_cons] at hroom
    have hfresh : b ∉ s.machine.log.lh := by
      rw [hinv.mem]
      intro hb
      exact (List.nodup_append.mp hfirst).2.2 b hb b (by simp) rfl
    have hstore (t : Ops N) (ht : t.machine.seen = s.machine.seen)
        (hprocs : t.machine.procs = goto s.machine.procs p (.logging b)) : Roomy t (.store p) := by
      intro c q hc _
      rw [hprocs, goto_self, Pc.logging.injEq] at hc
      rw [ht, ← hc, hfirst.dedup, List.length_append, List.length_singleton]
      omega
    have hone := reach_write (b := b) h hpc (by omega) ⟨?_, ?_⟩ (fun _ => ⟨trivial, trivial⟩)
      (fun t ht hprocs => ⟨trivial, hstore t ht hprocs⟩)
    · obtain ⟨s', hr, hlog, hprocs, hseen', hcalled⟩ := ih hone hpc (hsplit ▸ hnew)
        (by simp only [List.length_append, List.length_singleton]; omega) (by simpa using hcard)
      refine ⟨s', hr, ?_, hprocs, by rw [hseen']; simp, ?_⟩
      · rw [hlog, absorb_eq]
        simp [hfresh]
      · rw [hcalled]
        simp only [update_self, update_idem, List.toFinset_cons]
        congr 1
        ext c
        simp
    · refine (Finset.card_le_card fun c hc => ?_).trans hcard
      rcases Finset.mem_insert.mp hc with rfl | hc
      · simp
      · exact Finset.mem_union_left _ hc
    · show s.machine.seen.dedup.length < logSize - 1
      rw [hseen.dedup]
      omega

def idle : Ops 3 := ⟨⟨⟨2, logSize, 0, false, []⟩, fun _ => .outside, []⟩, fun _ => ∅⟩

def admitted : Ops 3 := ⟨⟨⟨2, logSize, 3, false, []⟩, fun _ => .op, []⟩, fun _ => ∅⟩

theorem reach_admitted : Reach (system 3) (fun s a => Contract s a ∧ Roomy s a) admitted := by
  have hidle : Reach (system 3) (fun s a => Contract s a ∧ Roomy s a) idle :=
    .init ⟨⟨rfl, rfl, rfl, fun _ => rfl, rfl⟩, rfl, fun _ => rfl⟩
  have hprocs :
      goto (goto (goto idle.machine.procs 0 .op) 1 .op) 2 .op = admitted.machine.procs := by decide
  have h₀ := reach_begin (p := 0) (l := ⟨2, logSize, 1, false, []⟩) hidle rfl (by decide) rfl
    ⟨trivial, trivial⟩
  have h₁ := reach_begin (p := 1) (l := ⟨2, logSize, 2, false, []⟩) h₀ rfl (by decide) rfl
    ⟨trivial, trivial⟩
  have h₂ := reach_begin (p := 2) (l := ⟨2, logSize, 3, false, []⟩) h₁ rfl (by decide) rfl
    ⟨trivial, trivial⟩
  dsimp only at h₂
  rwa [hprocs] at h₂

def blocksFrom (first count : Nat) : List BlockNo :=
  (List.range count).map fun i => BitVec.ofNat 32 (first + i)

def blocksOf : Fin 3 → List BlockNo
  | 0 => blocksFrom 100 10
  | 1 => blocksFrom 200 10
  | 2 => blocksFrom 300 9

structure Full (s : Ops 3) : Prop where
  log : s.machine.log = ⟨2, logSize, 3, false, blocksOf 0 ++ blocksOf 1 ++ blocksOf 2⟩
  procs : s.machine.procs = fun _ => .op
  seen : s.machine.seen = blocksOf 0 ++ blocksOf 1 ++ blocksOf 2
  called : ∀ p, s.called p = (blocksOf p).toFinset

theorem reach_full :
    ∃ s : Ops 3, Reach (system 3) (fun s a => Contract s a ∧ Roomy s a) s ∧ Full s := by
  obtain ⟨s₀, h₀, hlog₀, hprocs₀, hseen₀, hcalled₀⟩ :=
    reach_writes (p := 0) (blocksFrom 100 10) reach_admitted rfl (by decide) (by decide) (by decide)
  obtain ⟨s₁, h₁, hlog₁, hprocs₁, hseen₁, hcalled₁⟩ :=
    reach_writes (p := 1) (blocksFrom 200 10) h₀ (by rw [hprocs₀]; rfl) (by rw [hseen₀]; decide)
      (by rw [hseen₀]; decide) (by rw [hcalled₀]; decide)
  obtain ⟨s₂, h₂, hlog₂, hprocs₂, hseen₂, hcalled₂⟩ :=
    reach_writes (p := 2) (blocksFrom 300 8) h₁ (by rw [hprocs₁, hprocs₀]; rfl)
      (by rw [hseen₁, hseen₀]; decide) (by rw [hseen₁, hseen₀]; decide)
      (by rw [hcalled₁, hcalled₀]; decide)
  have hop : s₂.machine.procs = fun _ => .op := by
    rw [hprocs₂, hprocs₁, hprocs₀]
    rfl
  have hlast := reach_write (p := 2) (b := 308) h₂ (by rw [hop])
    (by rw [hlog₂, hlog₁, hlog₀]; decide) ⟨?_, ?_⟩ (fun _ => ⟨trivial, trivial⟩)
    (fun t _ ht => ⟨trivial, fun b q _ hq => ?_⟩)
  · refine ⟨_, hlast, ?_, hop, ?_, ?_⟩
    · dsimp only
      rw [hlog₂, hlog₁, hlog₀]
      decide
    · dsimp only
      rw [hseen₂, hseen₁, hseen₀]
      decide
    · dsimp only
      rw [hcalled₂, hcalled₁, hcalled₀]
      decide
  · show (insert _ (s₂.called 2)).card ≤ maxOpBlocks
    rw [hcalled₂, hcalled₁, hcalled₀]
    decide
  · show s₂.machine.seen.dedup.length < logSize - 1
    rw [hseen₂, hseen₁, hseen₀]
    decide
  · rw [ht, hop] at hq
    by_cases hq2 : q = 2
    · subst hq2
      rw [goto_self] at hq
      cases hq
    · rw [goto_other hq2] at hq
      cases hq

def tenth (s : Ops 3) : Ops 3 :=
  ⟨⟨s.machine.log, goto s.machine.procs 2 (.looking 309 .block), s.machine.seen⟩,
    note s.called (.write 2 309)⟩

theorem step_tenth {s : Ops 3} (h : Full s) :
    (system 3).step s (.write 2 309) (tenth s) ∧ Contract s (.write 2 309) := by
  refine ⟨⟨.write (by rw [h.procs]), rfl⟩, ?_⟩
  show (insert _ (s.called 2)).card ≤ maxOpBlocks
  rw [h.called]
  decide

/-- With 29 blocks logged no one panics, a process may end its operation, and a call of `log_write`
panics when it goes on. -/
theorem log_write_fits_full : ∃ s : Ops 3, Full s ∧
    Reach (system 3) (fun s a => Contract s a ∧ Roomy s a) s ∧ ¬ TooBig s.machine ∧
    (∀ s', (system 3).step s (.finish 0) s' → ∀ p t, Looks p s'.machine t → ¬ TooBig t) ∧
    ∃ p t, Looks p (tenth s).machine t ∧ TooBig t := by
  obtain ⟨s, h, hfull⟩ := reach_full
  obtain ⟨hpass, hnext⟩ := log_write_fits_iff h
  refine ⟨s, hfull, h, hpass, fun s' hs => (hnext _ s' hs trivial).mp trivial, ?_⟩
  have hroom : ¬ Roomy s (.write 2 309) := by
    show ¬ s.machine.seen.dedup.length < logSize - 1
    rw [hfull.seen]
    decide
  obtain ⟨hs, hcontract⟩ := step_tenth hfull
  rw [hnext _ _ hs hcontract] at hroom
  simpa using hroom

/-- Three operations, admitted together, of ten distinct blocks each: the call for the last of their
blocks finds the transaction too big. -/
theorem threeMaximal_panics : ∃ s : Ops 3, Reach (system 3) Contract s ∧
    (∀ p, (s.called p).card = maxOpBlocks) ∧ TooBig s.machine := by
  obtain ⟨s, h, hfull⟩ := reach_full
  obtain ⟨hs, hcontract⟩ := step_tenth hfull
  have htenth : Reach (system 3) Contract (tenth s) :=
    .step (h.mono fun _ _ => And.left) hcontract hs
  have hpass : passes (tenth s).machine.log .block = true := by
    show passes s.machine.log .block = true
    rw [hfull.log]
    decide
  have hlook : LogMachine.Step (tenth s).machine (.look 2)
      ⟨s.machine.log, goto (tenth s).machine.procs 2 (.looking 309 .size), s.machine.seen⟩ :=
    .look (by simp only [tenth, goto_self]) hpass
  refine ⟨⟨_, (tenth s).called⟩, .step (a := .look 2) htenth trivial ⟨hlook, rfl⟩, ?_, 2, 309,
    .size, by simp only [goto_self], rfl, ?_⟩
  · have hcalled : s.called = fun p => (blocksOf p).toFinset := funext hfull.called
    simp only [tenth, note, hcalled]
    decide
  · rw [hfull.log]
    decide

end Xv6.LogReserve
