import Xv6.BufferCache

/-!
# Coherence of the buffer cache

What holds of one buffer, with the processes that wait for it, hold it or put it back, and what
holds of all of them. A clean buffer agrees with the disk and a block without a buffer is on the
disk as it should be, so a buffer can be recycled once it is clean and no one has a use for it.
-/
namespace Xv6.BufferCoherence

open BlockStore Interleaving LinkedRing RedoLog BufferCache Function

variable {s s' : State} {p q : Nat} {b c : BufNo} {buf : Buf} {dev : BitVec 32} {n m : BlockNo} {pc : Pc}
  {procs procs' : Nat → Pc} {e e' k k' : Block}

def About (b : BufNo) : Pc → Prop
  | .waiting _ _ c | .filling _ _ c | .returned _ _ c | .releasing c => c = b
  | .ready => False

/-- What holds of buffer `b`, whose block should hold `e` and has `k` on the disk. -/
structure BufInv (b : BufNo) (buf : Buf) (procs : Nat → Pc) (e k : Block) : Prop where
  count : buf.refcnt = (if buf.lock = none then 0 else 1) + buf.pending.length
  nodup : buf.pending.Nodup
  pending : ∀ p, p ∈ buf.pending ↔ (∃ dev n, procs p = .waiting dev n b) ∨ procs p = .releasing b
  waiting : ∀ p dev n, procs p = .waiting dev n b → buf.dev = dev ∧ buf.blockno = n
  filling : ∀ p dev n, procs p = .filling dev n b →
    buf.lock = some p ∧ buf.dev = dev ∧ buf.blockno = n ∧ buf.valid = false
  returned : ∀ p dev n, procs p = .returned dev n b →
    buf.lock = some p ∧ buf.dev = dev ∧ buf.blockno = n ∧ buf.valid = true ∧ buf.touched = false
  locked : ∀ p, buf.lock = some p → buf.valid = true ∨ ∃ dev n, procs p = .filling dev n b
  dev : buf.valid = true → buf.dev = 1
  dirty : buf.dirty = true → buf.valid = true
  touched : buf.touched = true → buf.lock ≠ none ∧ buf.valid = true
  data : buf.valid = true → buf.touched = false → buf.data = e
  clean : buf.dirty = false → buf.dev = 1 → k = e

theorem BufInv.frame (h : BufInv b buf procs e k)
    (hpc : ∀ q, procs' q = procs q ∨ (¬ About b (procs q) ∧ ¬ About b (procs' q))) : BufInv b buf procs' e k := by
  have hsame : ∀ (c : Pc), About b c → ∀ q, procs' q = c ↔ procs q = c := by
    intro c hc q
    rcases hpc q with he | ⟨h₁, h₂⟩
    · rw [he]
    · exact iff_of_false (fun he => h₂ (by rw [he]; exact hc)) (fun he => h₁ (by rw [he]; exact hc))
  have hwaiting : ∀ q dev n, procs' q = .waiting dev n b ↔ procs q = .waiting dev n b :=
    fun q dev n => hsame (.waiting dev n b) rfl q
  have hfilling : ∀ q dev n, procs' q = .filling dev n b ↔ procs q = .filling dev n b :=
    fun q dev n => hsame (.filling dev n b) rfl q
  have hreturned : ∀ q dev n, procs' q = .returned dev n b ↔ procs q = .returned dev n b :=
    fun q dev n => hsame (.returned dev n b) rfl q
  have hreleasing : ∀ q, procs' q = .releasing b ↔ procs q = .releasing b := fun q => hsame (.releasing b) rfl q
  refine ⟨h.count, h.nodup, ?_, ?_, ?_, ?_, ?_, h.dev, h.dirty, h.touched, h.data, h.clean⟩ <;>
    simp only [hwaiting, hfilling, hreturned, hreleasing]
  · exact h.pending
  · exact h.waiting
  · exact h.filling
  · exact h.returned
  · exact h.locked

def goto (procs : Nat → Pc) (p : Nat) (pc : Pc) : Nat → Pc := update procs p pc

@[grind =] theorem goto_apply : goto procs p pc q = if q = p then pc else procs q := update_apply ..

theorem goto_ready (hpc : procs p = .ready) : goto procs p .ready = procs := by
  rw [goto, ← hpc, update_eq_self]

section

variable (h : BufInv b buf procs e k)
include h

theorem buf_hit (hpc : procs p = .ready) (hdev : buf.dev = dev) (hno : buf.blockno = n) :
    BufInv b { buf with refcnt := buf.refcnt + 1, pending := p :: buf.pending }
    (goto procs p (.waiting dev n b)) e k := by
  have hnew : p ∉ buf.pending := by
    rw [h.pending, hpc]
    simp
  cases h
  constructor <;> grind

theorem buf_acquire (hpc : procs p = .waiting dev n b) (hfree : buf.lock = none) :
    BufInv b { buf with lock := some p, pending := buf.pending.erase p }
      (goto procs p (if buf.valid then .returned dev n b else .filling dev n b)) e k := by
  have hmem : p ∈ buf.pending := (h.pending p).mpr (.inl ⟨dev, n, hpc⟩)
  have hlen := List.length_erase_of_mem hmem
  have hpos := List.length_pos_of_mem hmem
  have herase : ∀ x, x ∈ buf.pending.erase p ↔ x ≠ p ∧ x ∈ buf.pending := fun x => h.nodup.mem_erase_iff
  have hnodup := h.nodup.erase p
  have hothers : ∀ q pc', q ≠ p → goto procs p pc' q = procs q := fun q pc' hq => by simp [goto, hq]
  have hself : ∀ pc', goto procs p pc' p = pc' := fun pc' => by simp [goto]
  have hunlocked : ∀ q, buf.lock ≠ some q := by simp [hfree]
  have hcount := h.count
  obtain ⟨hdev, hno⟩ := h.waiting p dev n hpc
  refine ⟨?_, hnodup, ?_, ?_, ?_, ?_, ?_, h.dev, h.dirty, fun ht => ((h.touched ht).1 hfree).elim, h.data, h.clean⟩
  · rw [if_pos hfree] at hcount
    simp only [reduceCtorEq, ↓reduceIte]
    omega
  · intro q
    rw [herase, h.pending]
    by_cases hq : q = p
    · rw [hq, hself]
      split <;> simp
    · simp [hothers q _ hq, hq]
  all_goals intro q
  · intro dev' n' hq
    by_cases hqp : q = p
    · rw [hqp, hself] at hq
      split at hq <;> cases hq
    · rw [hothers q _ hqp] at hq
      exact h.waiting q dev' n' hq
  · intro dev' n' hq
    by_cases hqp : q = p
    · rw [hqp, hself] at hq
      split at hq <;> cases hq
      exact ⟨by rw [hqp], hdev, hno, by simp_all⟩
    · rw [hothers q _ hqp] at hq
      exact absurd (h.filling q dev' n' hq).1 (hunlocked q)
  · intro dev' n' hq
    by_cases hqp : q = p
    · rw [hqp, hself] at hq
      split at hq <;> cases hq
      exact ⟨by rw [hqp], hdev, hno, by simp_all, by_contra fun ht => (h.touched (by simpa using ht)).1 hfree⟩
    · rw [hothers q _ hqp] at hq
      exact absurd (h.returned q dev' n' hq).1 (hunlocked q)
  · intro hq
    cases hq
    cases hv : buf.valid with
    | true => exact .inl rfl
    | false => exact .inr ⟨dev, n, by rw [hself]; simp⟩

theorem buf_fill (hpc : procs p = .filling dev n b) (hdev : buf.dev = 1) :
    BufInv b { buf with data := k, valid := true } (goto procs p (.returned dev n b)) e k := by
  cases h
  constructor <;> grind

theorem buf_resume (hpc : procs p = .returned dev n b) :
    BufInv b buf (goto procs p .ready) e k := by
  cases h
  constructor <;> grind

section

variable (hpc : procs p = .ready) (hlock : buf.lock = some p)
include hpc hlock

theorem buf_modify (d : Block) :
    BufInv b { buf with data := d, touched := true } procs e k := by
  cases h
  constructor <;> grind

theorem buf_logWrite :
    BufInv b { buf with dirty := true, touched := false } procs buf.data k := by
  cases h
  constructor <;> grind

theorem buf_bwrite :
    BufInv b { buf with dirty := false, touched := false, valid := true } procs buf.data buf.data := by
  cases h
  constructor <;> grind

theorem buf_brelse
    (hdone : buf.touched = false) :
    BufInv b { buf with lock := none, pending := p :: buf.pending } (goto procs p (.releasing b)) e k := by
  have hnew : p ∉ buf.pending := by
    rw [h.pending, hpc]
    simp
  cases h
  constructor <;> grind

end

theorem buf_putBack (hpc : procs p = .releasing b) :
    BufInv b { buf with refcnt := buf.refcnt - 1, pending := buf.pending.erase p } (goto procs p .ready) e k := by
  have hmem : p ∈ buf.pending := (h.pending p).mpr (.inr hpc)
  have hlen := List.length_erase_of_mem hmem
  have hpos := List.length_pos_of_mem hmem
  have herase : ∀ x, x ∈ buf.pending.erase p ↔ x ≠ p ∧ x ∈ buf.pending := fun x => h.nodup.mem_erase_iff
  have hnodup := h.nodup.erase p
  cases h
  constructor <;> grind

/-- A buffer that no one uses and that is clean becomes the buffer of another block. -/
theorem buf_recycle (hfree : buf.refcnt = 0)
    (hsame : dev = 1 → k' = e') :
    BufInv b { buf with dev := dev, blockno := n, valid := false, dirty := false, refcnt := 1, pending := [p] }
      (goto procs p (.waiting dev n b)) e' k' := by
  have hcount := h.count
  have hlock : buf.lock = none := by
    by_contra hne
    rw [if_neg hne] at hcount
    omega
  have hempty : buf.pending = [] := by
    apply List.length_eq_zero_iff.mp
    omega
  have hidle : ∀ q, ¬((∃ dev n, procs q = .waiting dev n b) ∨ procs q = .releasing b) := by
    intro q
    rw [← h.pending, hempty]
    exact List.not_mem_nil
  cases h
  constructor <;> grind

/-- A buffer of another device has no data. -/
theorem BufInv.other (hdev : buf.dev ≠ 1) : BufInv b buf procs e' k' := by
  refine ⟨h.count, h.nodup, h.pending, h.waiting, h.filling, h.returned, h.locked, h.dev, h.dirty,
    h.touched, ?_, ?_⟩
  · intro hvalid
    exact absurd (h.dev hvalid) hdev
  · intro _ hone
    exact absurd hone hdev

end

structure Inv (s : State) : Prop where
  buf : ∀ b, BufInv b (s.bufs b) s.procs (contents s (s.bufs b).blockno) (s.disk (s.bufs b).blockno)
  uniq : ∀ b c, (s.bufs b).dev ≠ 0 → (s.bufs b).dev = (s.bufs c).dev →
    (s.bufs b).blockno = (s.bufs c).blockno → b = c
  uncached : ∀ n, (∀ b, ¬((s.bufs b).dev = 1 ∧ (s.bufs b).blockno = n)) → s.disk n = contents s n
  list : ∃ bs, Listed s.links bs

/-- The other buffers do not notice process `p`. -/
theorem Inv.frame (h : Inv s) (hc : ¬ About c (s.procs p)) (hpc : ¬ About c pc) :
    BufInv c (s.bufs c) (goto s.procs p pc) (contents s (s.bufs c).blockno) (s.disk (s.bufs c).blockno) := by
  apply (h.buf c).frame
  intro q
  by_cases hq : q = p
  · rw [hq, goto_apply, if_pos rfl]
    exact .inr ⟨hc, hpc⟩
  · rw [goto_apply, if_neg hq]
    exact .inl rfl

/-- A step of process `p` on buffer `b` that leaves it the buffer of the same block. -/
theorem inv_update (h : Inv s) (hbufs : s'.bufs = update s.bufs b buf) (hprocs : s'.procs = goto s.procs p pc)
    (hdev : buf.dev = (s.bufs b).dev) (hno : buf.blockno = (s.bufs b).blockno)
    (habout : ∀ c, c ≠ b → ¬ About c (s.procs p) ∧ ¬ About c pc)
    (hframe : ∀ m, (m = (s.bufs b).blockno ∧ (s.bufs b).dev = 1) ∨
      (s'.disk m = s.disk m ∧ contents s' m = contents s m))
    (hbuf : BufInv b buf (goto s.procs p pc) (contents s' (s.bufs b).blockno) (s'.disk (s.bufs b).blockno))
    (hlist : ∃ bs, Listed s'.links bs) : Inv s' := by
  have hother : ∀ c, c ≠ b → s'.bufs c = s.bufs c := by
    intro c hc
    rw [hbufs, update_of_ne hc]
  have hthis : s'.bufs b = buf := by rw [hbufs, update_self]
  have hsame : ∀ c, (s'.bufs c).dev = (s.bufs c).dev ∧ (s'.bufs c).blockno = (s.bufs c).blockno := by
    intro c
    by_cases hc : c = b
    · rw [hc, hthis]
      exact ⟨hdev, hno⟩
    · rw [hother c hc]
      exact ⟨rfl, rfl⟩
  refine ⟨?_, ?_, ?_, hlist⟩
  · intro c
    by_cases hc : c = b
    · rw [hc, hthis, hno, hprocs]
      exact hbuf
    · rw [hother c hc, hprocs]
      have hold := h.frame (habout c hc).1 (habout c hc).2
      rcases hframe (s.bufs c).blockno with ⟨hm, hone⟩ | ⟨hd, hcontents⟩
      · apply hold.other
        intro hcone
        exact hc (h.uniq c b (by rw [hcone]; decide) (hcone.trans hone.symm) hm)
      · rw [hd, hcontents]
        exact hold
  · intro c d hc he hn
    rw [(hsame c).1] at hc he
    rw [(hsame d).1] at he
    rw [(hsame c).2, (hsame d).2] at hn
    exact h.uniq c d hc he hn
  · intro n hn
    rcases hframe n with ⟨hm, hone⟩ | ⟨hd, hcontents⟩
    · exact absurd ⟨(hsame b).1.trans hone, (hsame b).2.trans hm.symm⟩ (hn b)
    · rw [hd, hcontents]
      apply h.uncached n
      intro c hc
      exact hn c ⟨(hsame c).1.trans hc.1, (hsame c).2.trans hc.2⟩

/-- The test of the second loop of `bget` has found a buffer. -/
theorem inv_recycle (h : Inv s) (hpc : s.procs p = .ready) (hfree : (s.bufs b).refcnt = 0)
    (hclean : (s.bufs b).dirty = false) (hnone : ∀ c, ¬((s.bufs c).dev = dev ∧ (s.bufs c).blockno = n)) :
    Inv (act s p b { s.bufs b with
      dev := dev, blockno := n, valid := false, dirty := false, refcnt := 1, pending := [p] }
      (.waiting dev n b)) := by
  set s' := act s p b
    { s.bufs b with dev := dev, blockno := n, valid := false, dirty := false, refcnt := 1, pending := [p] }
    (.waiting dev n b)
  have hother : ∀ c, c ≠ b → s'.bufs c = s.bufs c := by
    intro c hc
    simp [s', act, hc]
  have hthis : (s'.bufs b).dev = dev ∧ (s'.bufs b).blockno = n := by simp [s', act]
  have hready : ∀ c, ¬ About c (s.procs p) := by
    intro c
    rw [hpc]
    exact id
  refine ⟨?_, ?_, ?_, h.list⟩
  · intro c
    by_cases hc : c = b
    · subst hc
      have hsame : dev = 1 → s.disk n = contents s n := by
        intro hone
        apply h.uncached
        intro d hd
        exact hnone d (by rw [hone]; exact hd)
      have hnew := buf_recycle (p := p) (n := n) (h.buf c) hfree hsame
      have hb : s'.bufs c = { s.bufs c with
          dev := dev, blockno := n, valid := false, dirty := false, refcnt := 1, pending := [p] } := by
        simp [s', act]
      rw [hb]
      exact hnew
    · rw [hother c hc]
      exact h.frame (hready c) (fun he => hc he.symm)
  · intro c d hc he hn
    by_cases hcb : c = b <;> by_cases hdb : d = b
    · rw [hcb, hdb]
    · rw [hcb, hthis.1, hother d hdb] at he
      rw [hcb, hthis.2, hother d hdb] at hn
      exact absurd ⟨he.symm, hn.symm⟩ (hnone d)
    · rw [hdb, hthis.1, hother c hcb] at he
      rw [hdb, hthis.2, hother c hcb] at hn
      exact absurd ⟨he, hn⟩ (hnone c)
    · rw [hother c hcb] at hc he hn
      rw [hother d hdb] at he hn
      exact h.uniq c d hc he hn
  · intro m hm
    change s.disk m = contents s m
    by_cases hold : (s.bufs b).dev = 1 ∧ (s.bufs b).blockno = m
    · have := (h.buf b).clean hclean hold.1
      rwa [hold.2] at this
    · apply h.uncached m
      intro c hc
      by_cases hcb : c = b
      · rw [hcb] at hc
        exact hold hc
      · have := hm c
        rw [hother c hcb] at this
        exact this hc

/-- The cases of `bget`: the block has a buffer, or one that is free and clean is recycled. -/
theorem bget_cases (h : Inv s) {r : BufNo × Buf} (hget : bget s p dev n = some r) :
    ((s.bufs r.1).dev = dev ∧ (s.bufs r.1).blockno = n ∧
      r.2 = { s.bufs r.1 with refcnt := (s.bufs r.1).refcnt + 1, pending := p :: (s.bufs r.1).pending }) ∨
    ((∀ c, ¬((s.bufs c).dev = dev ∧ (s.bufs c).blockno = n)) ∧ (s.bufs r.1).refcnt = 0 ∧
      (s.bufs r.1).dirty = false ∧ r.2 = { s.bufs r.1 with
        dev := dev, blockno := n, valid := false, dirty := false, refcnt := 1, pending := [p] }) := by
  obtain ⟨bs, hlist⟩ := h.list
  rw [bget, findNext_eq hlist, findPrev_eq hlist] at hget
  split at hget
  · rename_i b hfind
    have hhit := List.find?_some hfind
    simp only [Bool.and_eq_true, beq_iff_eq] at hhit
    cases hget
    exact .inl ⟨hhit.1, hhit.2, rfl⟩
  · rename_i hfind
    have hmiss : ∀ c, ¬((s.bufs c).dev = dev ∧ (s.bufs c).blockno = n) := by
      intro c hc
      have := List.find?_eq_none.mp hfind c (hlist.mem c)
      simp [hc] at this
    split at hget
    · rename_i b hfree
      have htest := List.find?_some hfree
      simp only [Bool.and_eq_true, beq_iff_eq, Bool.not_eq_true'] at htest
      cases hget
      exact .inr ⟨hmiss, htest.1, htest.2, rfl⟩
    · cases hget

/-- What `iderw` does when it does not panic. -/
theorem iderw_some {disksize : Nat} {disk : BlockNo → Block} {r : Buf × (BlockNo → Block)}
    (h : iderw disksize disk buf = some r) : buf.dev = 1 ∧
      ((buf.dirty = true ∧ r = ({ buf with dirty := false, valid := true }, put disk buf.blockno buf.data)) ∨
        (buf.dirty = false ∧ r = ({ buf with data := disk buf.blockno, valid := true }, disk))) := by
  rw [iderw] at h
  split_ifs at h with hlock hidle hdev hrange hdirty
  · cases h
    exact ⟨not_not.mp hdev, .inl ⟨hdirty, rfl⟩⟩
  · cases h
    exact ⟨not_not.mp hdev, .inr ⟨by simpa using hdirty, rfl⟩⟩

theorem about_ready (h : s.procs p = .ready) (c : BufNo) : ¬ About c (s.procs p) ∧ ¬ About c .ready := by
  rw [h]
  exact ⟨id, id⟩

theorem inv_init (h : Initial s) : Inv s := by
  have hcontents : ∀ n, contents s n = s.disk n := by
    intro n
    rw [contents, h.first, h.history]
    rfl
  refine ⟨?_, ?_, ?_, listed_init h⟩
  · intro b
    obtain ⟨hvalid, hdirty, hdev, hlock, href, hpending, htouched⟩ := h.buf b
    constructor <;> simp [hvalid, hdirty, hdev, hlock, href, hpending, htouched, h.ready]
  · intro b c hb
    exact absurd (h.buf b).2.2.1 hb
  · intro n _
    exact (hcontents n).symm

theorem contents_append {d : Block} (hs : s'.first = s.first) (hh : s'.history = s.history ++ [(n, d)]) :
    contents s' n = d ∧ ∀ m, m ≠ n → contents s' m = contents s m := by
  rw [contents, hs, hh, writes_append]
  simp only [writes_cons, writes_nil, contents]
  refine ⟨put_same _ _ _, ?_⟩
  intro m hm
  exact put_other _ d hm

/-- A buffer in use has been read, so it is one of the disk. -/
theorem Inv.held_dev (h : Inv s) (hpc : s.procs p = .ready) (hlock : (s.bufs b).lock = some p) :
    (s.bufs b).dev = 1 := by
  rcases (h.buf b).locked p hlock with hvalid | ⟨dev, n, hfill⟩
  · exact (h.buf b).dev hvalid
  · rw [hpc] at hfill
    cases hfill

/-- The holder of a buffer hands its data to `log_write` or `bwrite`. -/
theorem inv_write (h : Inv s) (hpc : s.procs p = .ready) (hlock : (s.bufs b).lock = some p)
    (hbufs : s'.bufs = update s.bufs b buf) (hprocs : s'.procs = goto s.procs p .ready)
    (hdev : buf.dev = (s.bufs b).dev) (hno : buf.blockno = (s.bufs b).blockno) (hfirst : s'.first = s.first)
    (hhistory : s'.history = s.history ++ [((s.bufs b).blockno, (s.bufs b).data)])
    (hdisk : ∀ m, m ≠ (s.bufs b).blockno → s'.disk m = s.disk m)
    (hbuf : BufInv b buf s.procs (s.bufs b).data (s'.disk (s.bufs b).blockno))
    (hlist : ∃ bs, Listed s'.links bs) : Inv s' := by
  obtain ⟨hthis, hothers⟩ := contents_append hfirst hhistory
  refine inv_update h hbufs hprocs hdev hno (fun c _ => about_ready hpc c) ?_ ?_ hlist
  · intro m
    by_cases hm : m = (s.bufs b).blockno
    · exact .inl ⟨hm, h.held_dev hpc hlock⟩
    · exact .inr ⟨hdisk m hm, hothers m hm⟩
  · rwa [goto_ready hpc, hthis]

theorem inv_step {disksize : Nat} {a : Act} (h : Inv s) (hs : Step disksize s a s') : Inv s' := by
  cases hs with
  | @bread p dev n b buf hpc hget =>
    rcases bget_cases h hget with ⟨hdev, hno, heq⟩ | ⟨hmiss, href, hclean, heq⟩
    · simp only at hdev hno heq
      subst heq
      exact inv_update h rfl rfl rfl rfl (fun c hc => ⟨(about_ready hpc c).1, fun he => hc he.symm⟩)
        (fun m => .inr ⟨rfl, rfl⟩) (buf_hit (h.buf b) hpc hdev hno) h.list
    · simp only at href hclean heq
      subst heq
      exact inv_recycle h hpc href hclean hmiss
  | @acquire p dev n b hpc hfree =>
    refine inv_update h rfl rfl rfl rfl ?_ (fun m => .inr ⟨rfl, rfl⟩) (buf_acquire (h.buf b) hpc hfree) h.list
    intro c hc
    rw [hpc]
    refine ⟨fun he => hc he.symm, ?_⟩
    split <;> exact fun he => hc he.symm
  | @fill p dev n b buf disk hpc hrw =>
    obtain ⟨hone, ⟨hdirty, heq⟩ | ⟨-, heq⟩⟩ := iderw_some hrw
    · have := (h.buf b).dirty hdirty
      rw [((h.buf b).filling p dev n hpc).2.2.2] at this
      cases this
    · cases heq
      refine inv_update h rfl rfl rfl rfl ?_ (fun m => .inr ⟨rfl, rfl⟩) (buf_fill (h.buf b) hpc hone) h.list
      intro c hc
      rw [hpc]
      exact ⟨fun he => hc he.symm, fun he => hc he.symm⟩
  | @resume p dev n b hpc =>
    refine inv_update h rfl rfl rfl rfl ?_ (fun m => .inr ⟨rfl, rfl⟩) (buf_resume (h.buf b) hpc) h.list
    intro c hc
    rw [hpc]
    exact ⟨fun he => hc he.symm, id⟩
  | @modify p b d hpc hlock =>
    refine inv_update h rfl rfl rfl rfl (fun c _ => about_ready hpc c) (fun m => .inr ⟨rfl, rfl⟩) ?_ h.list
    rw [goto_ready hpc]
    exact buf_modify (h.buf b) hpc hlock d
  | @logWrite p b hpc hlock =>
    exact inv_write h hpc hlock rfl rfl rfl rfl rfl rfl (fun _ _ => rfl) (buf_logWrite (h.buf b) hpc hlock) h.list
  | @bwrite p b buf disk hpc hlock hrw =>
    obtain ⟨-, ⟨-, heq⟩ | ⟨hdirty, -⟩⟩ := iderw_some hrw
    · cases heq
      refine inv_write h hpc hlock rfl rfl rfl rfl rfl rfl (fun m hm => put_other _ _ hm) ?_ h.list
      simp only [put_same]
      exact buf_bwrite (h.buf b) hpc hlock
    · cases hdirty
  | @brelse p b hpc hlock hdone =>
    exact inv_update h rfl rfl rfl rfl (fun c hc => ⟨(about_ready hpc c).1, fun he => hc he.symm⟩)
      (fun m => .inr ⟨rfl, rfl⟩) (buf_brelse (h.buf b) hpc hlock hdone) h.list
  | @putBack p b hpc =>
    refine inv_update h rfl rfl rfl rfl ?_ (fun m => .inr ⟨rfl, rfl⟩) (buf_putBack (h.buf b) hpc) ?_
    · intro c hc
      rw [hpc]
      exact ⟨fun he => hc he.symm, id⟩
    · obtain ⟨bs, hlist⟩ := h.list
      dsimp only
      split
      · exact hlist.move b
      · exact ⟨bs, hlist⟩

theorem inv_reachable {disksize : Nat} (h : Reachable (system disksize) s) : Inv s :=
  h.invariant (fun _ => inv_init) (fun _ _ _ => inv_step)

/-- `refcnt`, a `uint` of the source, is at most one more than the processes in the cache. -/
theorem refcnt_le {disksize nproc : Nat} (h : Reachable (system disksize) s)
    (hprocs : ∀ p, s.procs p ≠ .ready → p < nproc) : (s.bufs b).refcnt ≤ nproc + 1 := by
  have hbuf := (inv_reachable h).buf b
  have hsub : (s.bufs b).pending ⊆ List.range nproc := by
    intro p hp
    refine List.mem_range.mpr (hprocs p ?_)
    rcases (hbuf.pending p).mp hp with ⟨dev, n, hpc⟩ | hpc <;> simp [hpc]
  have hlen := (List.subperm_of_subset hbuf.nodup hsub).length_le
  rw [List.length_range] at hlen
  have hcount := hbuf.count
  split at hcount <;> omega

/-- A buffer that is in use or dirty stays the buffer of its block. -/
theorem step_keeps {disksize : Nat} {a : Act} (h : Inv s) (hs : Step disksize s a s')
    (hb : 0 < (s.bufs b).refcnt ∨ (s.bufs b).dirty = true) :
    (s'.bufs b).dev = (s.bufs b).dev ∧ (s'.bufs b).blockno = (s.bufs b).blockno := by
  have hact : ∀ {c : BufNo} {buf : Buf}, buf.dev = (s.bufs c).dev → buf.blockno = (s.bufs c).blockno →
      (update s.bufs c buf b).dev = (s.bufs b).dev ∧
        (update s.bufs c buf b).blockno = (s.bufs b).blockno := by
    intro c buf hdev hno
    by_cases hbc : b = c
    · subst hbc
      simp [hdev, hno]
    · simp [hbc]
  cases hs with
  | @bread p dev n c buf hpc hget =>
    rcases bget_cases h hget with ⟨-, -, heq⟩ | ⟨-, href, hclean, heq⟩
    · simp only at heq
      subst heq
      exact hact rfl rfl
    · simp only at href hclean
      have hbc : b ≠ c := by
        rintro rfl
        rw [href, hclean] at hb
        simp at hb
      simp [act, hbc]
  | fill hpc hrw | bwrite hpc hlock hrw =>
    obtain ⟨-, ⟨-, heq⟩ | ⟨-, heq⟩⟩ := iderw_some hrw <;> cases heq <;> exact hact rfl rfl
  | acquire | resume | modify | logWrite | brelse | putBack => exact hact rfl rfl

/-- The buffer cache is one copy of the disk: a block has one buffer, the list of buffers is
whole, what is used or dirty is not recycled, and `bread` returns what was last written. -/
theorem cache_coherent {disksize : Nat} (h : Reachable (system disksize) s) :
    (∀ b c, 1 ≤ (s.bufs b).dev.toNat → (s.bufs b).dev = (s.bufs c).dev →
      (s.bufs b).blockno = (s.bufs c).blockno → b = c) ∧
    (∃ bs : List BufNo, Ring s.links none (bs.map some) ∧ bs.Perm (List.finRange nbuf)) ∧
    (∀ a s' b, Step disksize s a s' → (0 < (s.bufs b).refcnt ∨ (s.bufs b).dirty = true) →
      (s'.bufs b).dev = (s.bufs b).dev ∧ (s'.bufs b).blockno = (s.bufs b).blockno) ∧
    ∀ p dev n b, s.procs p = .returned dev n b → (s.bufs b).lock = some p ∧ (s.bufs b).dev = dev ∧
      (s.bufs b).blockno = n ∧ (s.bufs b).data = writes s.first s.history n := by
  have hinv := inv_reachable h
  refine ⟨?_, ?_, ?_, ?_⟩
  · intro b c hb
    refine hinv.uniq b c ?_
    intro hz
    rw [hz] at hb
    exact absurd hb (by decide)
  · obtain ⟨bs, hlist⟩ := hinv.list
    exact ⟨bs, hlist.ring, hlist.perm⟩
  · intro a s' b hs hb
    exact step_keeps hinv hs hb
  · intro p dev n b hpc
    obtain ⟨hlock, hdev, hno, hvalid, htouched⟩ := (hinv.buf b).returned p dev n hpc
    have hdata := (hinv.buf b).data hvalid htouched
    rw [hno] at hdata
    exact ⟨hlock, hdev, hno, hdata⟩

def start : State where
  bufs := fun _ => ⟨false, false, 0, 0, none, 0, fun _ => 0, [], false⟩
  links := binit ⟨fun _ => none, fun _ => none⟩ (List.finRange nbuf)
  disk := fun _ _ => 0
  procs := fun _ => .ready
  first := fun _ _ => 0
  history := []

theorem start_initial : Initial start := by
  refine ⟨⟨⟨fun _ => none, fun _ => none⟩, ?_⟩, fun _ => ⟨rfl, rfl, rfl, rfl, rfl, rfl, rfl⟩,
    fun _ => rfl, rfl, rfl⟩
  simp [start, Links.setPrev, Links.setNext]

/-- At the start every buffer is free, and the first block read gets one of them. -/
theorem bget_start (h : Initial s) (hdev : dev ≠ 0) : ∃ b, bget s p dev n = some (b, { s.bufs b with
    dev := dev, blockno := n, valid := false, dirty := false, refcnt := 1, pending := [p] }) := by
  obtain ⟨bs, hlist⟩ := listed_init h
  have hmiss : bs.find? (fun b => (s.bufs b).dev == dev && (s.bufs b).blockno == n) = none := by
    rw [List.find?_eq_none]
    intro b _
    simp only [(h.buf b).2.2.1, Bool.and_eq_true, beq_iff_eq, not_and]
    exact fun he => absurd he.symm hdev
  have hfree : ∃ b, bs.reverse.find? (fun b => (s.bufs b).refcnt == 0 && !(s.bufs b).dirty) = some b := by
    rw [← Option.isSome_iff_exists, List.find?_isSome]
    exact ⟨⟨0, by decide⟩, List.mem_reverse.mpr (hlist.mem _), by simp [h.buf]⟩
  obtain ⟨b, hb⟩ := hfree
  refine ⟨b, ?_⟩
  rw [bget, findNext_eq hlist, findPrev_eq hlist, hmiss, hb]

/-- A block that has a buffer is found in it. -/
theorem bget_found (h : Inv s) (hdev : (s.bufs b).dev = dev) (hno : (s.bufs b).blockno = n) (hne : dev ≠ 0) :
    bget s p dev n = some (b, { s.bufs b with
      refcnt := (s.bufs b).refcnt + 1, pending := p :: (s.bufs b).pending }) := by
  obtain ⟨bs, hlist⟩ := h.list
  have hfind : bs.find? (fun c => (s.bufs c).dev == dev && (s.bufs c).blockno == n) = some b := by
    obtain ⟨c, hc⟩ : ∃ c, bs.find? (fun c => (s.bufs c).dev == dev && (s.bufs c).blockno == n) = some c := by
      rw [← Option.isSome_iff_exists, List.find?_isSome]
      exact ⟨b, hlist.mem b, by simp [hdev, hno]⟩
    have hsame := List.find?_some hc
    rw [Bool.and_eq_true, beq_iff_eq, beq_iff_eq] at hsame
    rw [hc, h.uniq b c (hdev ▸ hne) (hdev.trans hsame.1.symm) (hno.trans hsame.2.symm)]
  rw [bget, findNext_eq hlist, hfind]

/-- A process reads a block, writes and releases it, and another one reads what it wrote. -/
theorem cache_coherent_second : ∃ s b, Reachable (system 1000) s ∧ s.procs 1 = .returned 1 7 b ∧
    (s.bufs b).data = fun _ => 1 := by
  obtain ⟨b, hget⟩ := bget_start (p := 0) (n := 7) start_initial (show (1 : BitVec 32) ≠ 0 by decide)
  have h0 : Reachable (system 1000) start := Reach.init start_initial
  have h1 := h0.next (Step.bread rfl hget)
  have h2 := h1.next (Step.acquire (p := 0) (n := 7) (b := b) rfl (by simp [act, start]))
  have hrw : iderw 1000 start.disk ⟨false, false, 1, 7, some 0, 1, fun _ => 0, [], false⟩ =
      some (⟨true, false, 1, 7, some 0, 1, fun _ => 0, [], false⟩, start.disk) := rfl
  have h3 := h2.next (Step.fill (p := 0) (show _ = Pc.filling 1 7 b by simp [act])
    (by simpa [act, start] using hrw))
  have h4 := h3.next (Step.resume (p := 0) (n := 7) (b := b) rfl)
  have h5 := h4.next (Step.modify (p := 0) (b := b) (d := fun _ => 1) rfl (by simp [act]))
  have h6 := h5.next (Step.logWrite (p := 0) (b := b) rfl (by simp [act]))
  have h7 := h6.next (Step.brelse (p := 0) (b := b) rfl (by simp [act]) (by simp [act]))
  have h8 := h7.next (Step.bread (p := 1) rfl
    (bget_found (b := b) (n := 7) (inv_reachable h7) (by simp [act]; rfl) (by simp [act]) (by decide)))
  have h9 := h8.next (Step.acquire (p := 1) (n := 7) (b := b) rfl (by simp [act]))
  refine ⟨_, b, h9, by simp [act], ((cache_coherent h9).2.2.2 1 1 7 b (by simp [act])).2.2.2.trans ?_⟩
  simp [act, start, writes]

end Xv6.BufferCoherence
