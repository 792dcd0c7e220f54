import Xv6.DiskErrors

/-!
# Valid data when reads fail

The holder of a buffer in the queue is in `bread` or in `bwrite`, and no one else changes the buffer
until `ideintr` is done with it. Where no read fails, a valid buffer has the data of its block or
data of its holder, in every state of every run.
-/
namespace Xv6.DiskErrors

open Xv6.BlockStore Xv6.Interleaving Xv6.LinkedRing Xv6.RedoLog Xv6.BufferCache Xv6.BufferCoherence
open Xv6.Ide (fssize)
open Function

variable {buf : Buf} {b' : BufNo} {rest : List BufNo} {failed : Bool} {d : Block} {a : Act}

variable {c c' : BufferCache.State} {s s' : State} {D : BlockNo → Block} {p q : Nat} {b : BufNo} {n : BlockNo}

theorem finish_read (hdirty : buf.dirty = false) (failed : Bool) (data : Block) :
    finish buf failed data = { buf with data := if failed = false then data else buf.data, valid := true } := by
  simp [finish, hdirty]

theorem finish_write (hdirty : buf.dirty = true) (failed : Bool) (data : Block) :
    finish buf failed data = { buf with valid := true, dirty := false } := by
  simp [finish, hdirty]

/-- A read ends, whatever data the buffer has then. -/
theorem used_fill (h : Used c) (hpc : c.procs p = .filling rootdev n b) (hno : n.toNat < fssize) (x : Block) :
    Used (act c p b { c.bufs b with data := x, valid := true } (.returned rootdev n b)) := by
  obtain ⟨D, hinv⟩ := h
  obtain ⟨hlock, hdev, hblock, hvalid⟩ := (hinv.buf b).filling p rootdev n hpc
  have hclean : (c.bufs b).dirty = false := by
    by_contra hne
    have hv := (hinv.buf b).dirty (eq_true_of_ne_false hne)
    rw [hvalid] at hv
    cases hv
  have hrw : iderw fssize (put D (c.bufs b).blockno x) (c.bufs b) =
      some ({ c.bufs b with data := x, valid := true }, put D (c.bufs b).blockno x) := by
    rw [iderw, if_neg (by rw [show (c.bufs b).lock = some p from hlock]; simp),
      if_neg (by rw [show (c.bufs b).valid = false from hvalid]; simp), if_neg
        (not_not.mpr (show (c.bufs b).dev = 1 from hdev)),
      if_neg (by rw [show (c.bufs b).blockno = n from hblock]; omega), if_neg (by simp [hclean]), put_same]
  have hstep : BufferCache.Step fssize (onDisk c (put D (c.bufs b).blockno x)) (.fill p) _ := .fill hpc hrw
  have hused := used_of_inv (inv_step (onDisk_put hinv hdev hvalid x) hstep)
  exact hused

/-- A write ends. -/
theorem used_bwrite (h : Used c) (hpc : c.procs p = .ready) (hlock : (c.bufs b).lock = some p)
    (hdirty : (c.bufs b).dirty = true) (htouched : (c.bufs b).touched = false)
    (hno : (c.bufs b).blockno.toNat < fssize) :
    Used (act c p b { c.bufs b with valid := true, dirty := false } .ready) := by
  obtain ⟨D, hinv⟩ := h
  have hdev : (c.bufs b).dev = 1 := hinv.held_dev hpc hlock
  have hsame : { c.bufs b with dirty := true, touched := false } = c.bufs b := by
    rw [← hdirty, ← htouched]
  have hrw : iderw fssize D { c.bufs b with dirty := true, touched := false } =
      some ({ c.bufs b with valid := true, dirty := false }, put D (c.bufs b).blockno (c.bufs b).data) := by
    rw [hsame, iderw, if_neg (by rw [hlock]; simp), if_neg (by rw [hdirty]; simp),
      if_neg (not_not.mpr hdev), if_neg (by omega),
      if_pos hdirty]
  have hstep : BufferCache.Step fssize (onDisk c D) (.bwrite p b) _ := .bwrite hpc hlock hrw
  have hused := used_of_inv (inv_step hinv hstep)
  exact hused

structure Queued (c : BufferCache.State) (b : BufNo) (p : Nat) : Prop where
  onDisk : (c.bufs b).blockno.toNat < fssize
  lock : (c.bufs b).lock = some p
  call : (∃ n, c.procs p = .filling rootdev n b) ∨
    (c.procs p = .ready ∧ (c.bufs b).dirty = true ∧ (c.bufs b).touched = false)

structure Kept (s : State) : Prop where
  used : Used s.cache
  nodup : s.queue.Nodup
  queued : ∀ b ∈ s.queue, ∃ p, Queued s.cache b p

theorem kept_booted (h : Booted s) : Kept s := by
  refine ⟨used_of_inv (inv_init h.cache), ?_, ?_⟩
  · rw [h.queue]
    exact List.nodup_nil
  · rw [h.queue]
    simp

theorem Queued.same (h : Queued c b q) (huse : SameUse (c.bufs b) (c'.bufs b)) (hprocs : c'.procs q = c.procs q) :
    Queued c' b q := by
  refine ⟨?_, huse.lock.trans h.lock, ?_⟩
  · rw [huse.blockno]
    exact h.onDisk
  · rw [hprocs, huse.dirty, huse.touched]
    exact h.call

/-- A step on another buffer, by a process that stays where it is or has no other request. -/
theorem Queued.act {pc : Pc} (h : Queued c b' q) (hne : b' ≠ b) (hpc : q = p → pc = c.procs p) :
    Queued (act c p b buf pc) b' q := by
  refine h.same ?_ ?_
  · have hbuf : (BufferCache.act c p b buf pc).bufs b' = c.bufs b' := update_of_ne hne ..
    rw [hbuf]
    exact .refl _
  · by_cases hq : q = p
    · subst hq
      exact (update_self ..).trans (hpc rfl)
    · exact update_of_ne hq ..

theorem queue_append {queue : List BufNo} (h : queue.Nodup) (hb : b ∉ queue) : (queue ++ [b]).Nodup := by
  rw [List.nodup_append]
  refine ⟨h, List.nodup_singleton b, ?_⟩
  intro x hx y hy
  rw [List.mem_singleton.mp hy]
  rintro rfl
  exact hb hx

theorem kept_bwrite (h : Kept s) (hpc : s.cache.procs p = .ready)
    (hlock : (s.cache.bufs b).lock = some p) (hidle : Idle s p)
    (hno : (s.cache.bufs b).blockno.toNat < fssize) (written : BufNo → Bool) :
    Kept ⟨act s.cache p b { s.cache.bufs b with dirty := true, touched := false } .ready,
      s.queue ++ [b], written⟩ := by
  have hnot : b ∉ s.queue := fun hb => hidle b hb hlock
  have hused := used_step h.used ⟨.logWrite p b, rfl⟩ (.logWrite hpc hlock)
  refine ⟨hused, queue_append h.nodup hnot, fun b' hb' => ?_⟩
  rcases List.mem_append.mp hb' with hold | hnew
  · obtain ⟨q, hq⟩ := h.queued b' hold
    have hne : b' ≠ b := by
      rintro rfl
      exact hnot hold
    exact ⟨q, hq.act hne fun _ => hpc.symm⟩
  · obtain rfl := List.mem_singleton.mp hnew
    have hbuf : (act s.cache p b' { s.cache.bufs b' with dirty := true, touched := false } .ready).bufs b' =
        { s.cache.bufs b' with dirty := true, touched := false } := update_self ..
    refine ⟨p, ?_, ?_, .inr ⟨update_self .., ?_, ?_⟩⟩ <;> dsimp only <;> rw [hbuf]
    · exact hno
    · exact hlock

theorem kept_intr (h : Kept s) (hqueue : s.queue = b :: rest)
    (hlock : (s.cache.bufs b).lock = some p) : Kept (intr s p b rest failed d) := by
  obtain ⟨q, hq⟩ := h.queued b (by simp [hqueue])
  obtain rfl : q = p := Option.some.inj (hq.lock.symm.trans hlock)
  have hnodup := h.nodup
  rw [hqueue, List.nodup_cons] at hnodup
  have hused : Used (act s.cache q b (finish (s.cache.bufs b) failed (s.cache.disk (s.cache.bufs b).blockno))
      (served (s.cache.procs q))) := by
    rcases hq.call with ⟨n, hfill⟩ | ⟨hready, hdirty, htouched⟩
    · obtain ⟨D, hinv⟩ := h.used
      obtain ⟨-, -, hblock, hvalid⟩ := (hinv.buf b).filling q rootdev n hfill
      have hclean : (s.cache.bufs b).dirty = false := by
        by_contra hne
        have hv := (hinv.buf b).dirty (eq_true_of_ne_false hne)
        rw [hvalid] at hv
        cases hv
      have hno := hq.onDisk
      rw [show (s.cache.bufs b).blockno = n from hblock] at hno
      rw [finish_read hclean, hfill]
      exact used_fill h.used hfill hno _
    · rw [finish_write hdirty, hready]
      exact used_bwrite h.used hready hlock hdirty htouched hq.onDisk
  refine ⟨hused, hnodup.2, fun b' hb' => ?_⟩
  obtain ⟨q', hq'⟩ := h.queued b' (by rw [hqueue]; exact List.mem_cons_of_mem b hb')
  have hne : b' ≠ b := by
    rintro rfl
    exact hnodup.1 hb'
  have hpc : q' = q → served (s.cache.procs q) = s.cache.procs q := by
    rintro rfl
    rcases hq'.call with ⟨n, hfill⟩ | ⟨hready, -⟩
    · rcases hq.call with ⟨n', hfill'⟩ | ⟨hready, -⟩
      · rw [hfill] at hfill'
        cases hfill'
        exact absurd rfl hne
      · rw [hready]
        rfl
    · rw [hready]
      rfl
  exact ⟨q', (hq'.act hne hpc).same (.refl _) rfl⟩

theorem kept_step (h : Kept s) (hs : Step s a s') : Kept s' := by
  cases hs with
  | @cache _ p a' cache ha hidle hs =>
    have hin := inCache_step h.used ha hs
    refine ⟨used_step h.used ⟨a, ha⟩ hs, h.nodup, fun b hb => ?_⟩
    obtain ⟨q, hq⟩ := h.queued b hb
    have hne : q ≠ p := by
      rintro rfl
      exact hidle b hb hq.lock
    exact ⟨q, hq.same (hin.held b q hq.lock hne) (hin.procs q hne)⟩
  | @read p n b hpc hidle hno =>
    obtain ⟨D, hinv⟩ := h.used
    obtain ⟨hlock, -, hblock, -⟩ := (hinv.buf b).filling p rootdev n hpc
    refine ⟨h.used, queue_append h.nodup fun hb => hidle b hb hlock, fun b' hb' => ?_⟩
    rcases List.mem_append.mp hb' with hold | hnew
    · exact h.queued b' hold
    · rw [List.mem_singleton.mp hnew]
      refine ⟨p, ?_, hlock, .inl ⟨n, hpc⟩⟩
      rw [show (s.cache.bufs b).blockno = n from hblock]
      exact hno
  | bwrite hpc hlock hidle hno => exact kept_bwrite h hpc hlock hidle hno _
  | intr hqueue hlock => exact kept_intr h hqueue hlock

/-- Two buffers with data do not stand for one block. -/
theorem Kept.uniq (h : Kept s) {b : BufNo} (hv : (s.cache.bufs b).valid = true)
    (hv' : (s.cache.bufs b').valid = true)
    (hno : (s.cache.bufs b).blockno = (s.cache.bufs b').blockno) : b = b' := by
  obtain ⟨D, hinv⟩ := h.used
  have hdev := (hinv.buf b).dev hv
  have hdev' := (hinv.buf b').dev hv'
  refine hinv.uniq b b' ?_ (hdev.trans hdev'.symm) hno
  rw [hdev]
  decide

/-- What is valid is on the disk or its holder's, and so is what is being written. -/
structure Data (s : State) : Prop where
  valid : ∀ b, (s.cache.bufs b).valid = true →
    (s.cache.bufs b).data = s.cache.disk (s.cache.bufs b).blockno ∨ s.written b = true
  writing : ∀ b ∈ s.queue, (s.cache.bufs b).dirty = true → s.written b = true

theorem Kept.valid_of_dirty (h : Kept s) (hdirty : (s.cache.bufs b).dirty = true) :
    (s.cache.bufs b).valid = true := by
  obtain ⟨D, hinv⟩ := h.used
  exact (hinv.buf b).dirty hdirty

theorem intr_bufs (s : State) (p : Nat) (b b' : BufNo) (rest : List BufNo) (failed : Bool) (d : Block) :
    (intr s p b rest failed d).cache.bufs b' =
      if b' = b then finish (s.cache.bufs b) failed (s.cache.disk (s.cache.bufs b).blockno) else s.cache.bufs b' :=
  update_apply ..

theorem data_intr (h : Kept s) (hdata : Data s) (hqueue : s.queue = b :: rest)
    (hok : (s.cache.bufs b).dirty = false → failed = false) : Data (intr s p b rest failed d) := by
  have hnodup := h.nodup
  rw [hqueue, List.nodup_cons] at hnodup
  constructor
  · intro b' hv
    by_cases hb : b' = b
    · rw [intr_bufs, if_pos hb]
      cases hdirty : (s.cache.bufs b).dirty with
      | true =>
        refine .inr ?_
        rw [hb]
        exact hdata.writing b (by simp [hqueue]) hdirty
      | false =>
        refine .inl ?_
        rw [finish_read hdirty, hok hdirty]
        simp only [↓reduceIte, intr, diskAfter, hdirty, Bool.false_eq_true]
    · rw [intr_bufs, if_neg hb] at hv ⊢
      refine (hdata.valid b' hv).imp_left fun hsame => hsame.trans ?_
      simp only [intr, diskAfter]
      split
      · rename_i hdirty
        rw [put_other]
        exact fun hno => hb (h.uniq hv (h.valid_of_dirty hdirty) hno)
      · rfl
  · intro b' hb' hdirty
    have hne : b' ≠ b := by
      rintro rfl
      exact hnodup.1 hb'
    rw [intr_bufs, if_neg hne] at hdirty
    exact hdata.writing b' (by rw [hqueue]; exact List.mem_cons_of_mem b hb') hdirty

theorem data_step (h : Kept s) (hdata : Data s) (hok : ReadsSucceed s a) (hs : Step s a s') : Data s' := by
  have hkept := kept_step h hs
  cases hs with
  | @cache _ p a' cache ha hidle hs =>
    have hin := inCache_step h.used ha hs
    constructor
    · intro b hv
      obtain ⟨hold, hno, hwrite⟩ := hin.valid b hv
      show (cache.bufs b).data = cache.disk _ ∨ ((s.written b || decide (a.writes = some b)) &&
        (cache.bufs b).valid) = true
      rw [hno, hin.disk, show (cache.bufs b).valid = true from hv, Bool.and_true]
      rcases hwrite with hsame | hwrite
      · rw [hsame]
        exact (hdata.valid b hold).imp_right fun hw => by rw [hw, Bool.true_or]
      · exact .inr (by rw [decide_eq_true hwrite, Bool.or_true])
    · intro b hb hdirty
      obtain ⟨q, hq⟩ := h.queued b hb
      have hne : q ≠ p := by
        rintro rfl
        exact hidle b hb hq.lock
      have hold : (s.cache.bufs b).dirty = true := (hin.held b q hq.lock hne).dirty ▸ hdirty
      show ((s.written b || decide (a.writes = some b)) && (cache.bufs b).valid) = true
      rw [hdata.writing b hb hold, show (cache.bufs b).valid = true from hkept.valid_of_dirty hdirty]
      rfl
  | @read p n b hpc hidle hno =>
    obtain ⟨D, hinv⟩ := h.used
    have hvalid := ((hinv.buf b).filling p rootdev n hpc).2.2.2
    refine ⟨hdata.valid, fun b' hb' hdirty => ?_⟩
    rcases List.mem_append.mp hb' with hold | hnew
    · exact hdata.writing b' hold hdirty
    · rw [List.mem_singleton.mp hnew] at hdirty
      have hv := h.valid_of_dirty hdirty
      rw [show (s.cache.bufs b).valid = false from hvalid] at hv
      cases hv
  | @bwrite p b hpc hlock hidle hno =>
    have hwritten (b' : BufNo) : update s.written b true b' = if b' = b then true else s.written b' :=
      update_apply ..
    have hbufs (b' : BufNo) : (act s.cache p b { s.cache.bufs b with
      dirty := true, touched := false } .ready).bufs b' =
        if b' = b then { s.cache.bufs b with dirty := true, touched := false } else s.cache.bufs
          b' := update_apply ..
    constructor
    · intro b' hv
      dsimp only at hv ⊢
      rw [hwritten]
      by_cases hb : b' = b
      · exact .inr (if_pos hb)
      · rw [hbufs, if_neg hb] at hv ⊢
        rw [if_neg hb]
        exact hdata.valid b' hv
    · intro b' hb' hdirty
      dsimp only at hb' hdirty ⊢
      rw [hwritten]
      by_cases hb : b' = b
      · exact if_pos hb
      · rw [hbufs, if_neg hb] at hdirty
        rw [if_neg hb]
        rcases List.mem_append.mp hb' with hold | hnew
        · exact hdata.writing b' hold hdirty
        · exact absurd (List.mem_singleton.mp hnew) hb
  | @intr p b rest failed d hqueue hlock => exact data_intr h hdata hqueue (hok b rest hqueue)

theorem data_booted (h : Booted s) : Data s := by
  constructor
  · intro b hv
    rw [(h.cache.buf b).1] at hv
    cases hv
  · rw [h.queue]
    simp

/-- In a run without an error of a read, valid data is on the disk or its holder's. -/
theorem data_genuine (h : Reach system ReadsSucceed s) : Genuine s := by
  obtain ⟨hkept, hdata⟩ := h.invariant (I := fun s => Kept s ∧ Data s) (fun _ hboot =>
    ⟨kept_booted hboot, data_booted hboot⟩)
    fun _ _ _ hinv hok hstep => ⟨kept_step hinv.1 hstep, data_step hinv.1 hinv.2 hok hstep⟩
  refine ⟨hdata.valid, fun p dev n b hpc => ?_⟩
  obtain ⟨D, hinv⟩ := hkept.used
  obtain ⟨-, hdev, hno, hvalid, -⟩ := (hinv.buf b).returned p dev n hpc
  refine ⟨hvalid, hdev, hno, ?_⟩
  have hsound := hdata.valid b hvalid
  rw [show (s.cache.bufs b).blockno = n from hno] at hsound
  exact hsound

def boot : State := ⟨{ start with disk := fun _ _ => 1, first := fun _ _ => 1 }, [], fun _ => false⟩

theorem boot_booted : Booted boot :=
  ⟨⟨start_initial.links, start_initial.buf, start_initial.ready, rfl, rfl⟩, rfl, fun _ => rfl⟩

/-- Process 0 reads block 7. -/
theorem first_read (failed : Bool) (ok : State → Act → Prop)
    (hok : ∀ s a, (∀ f d, a = .intr f d → f = failed) → ok s a) :
    ∃ s b, Reach system ok s ∧ s.cache.procs 0 = .returned 1 7 b ∧ (s.cache.bufs b).valid = true ∧
      (s.cache.bufs b).data = (if failed = false then fun _ => 1 else fun _ => 0) ∧ s.cache.disk 7 = (fun _ => 1) ∧
      s.written b = false := by
  obtain ⟨b, hget⟩ := bget_start (p := 0) (n := 7) boot_booted.cache (show (1 : BitVec 32) ≠ 0 by decide)
  have h0 : Reach system ok boot := .init boot_booted
  have hidle (s : State) (p : Nat) (hq : s.queue = []) : Idle s p := by
    intro b hb
    rw [hq] at hb
    cases hb
  have h1 := h0.step (a := .bread 0 7) (hok _ _ (by simp)) (Step.cache rfl (hidle _ _ rfl) (.bread rfl hget))
  have h2 := h1.step (a := .acquire 0) (hok _ _ (by simp))
    (Step.cache rfl (hidle _ _ rfl) (.acquire (p := 0) (n := 7) (b := b) rfl (by simp [act, boot, start])))
  obtain ⟨s, hs, hpc, hbuf, hqueue, hdisk, hwritten⟩ : ∃ s, Reach system ok s ∧ s.cache.procs 0 =
    .filling rootdev 7 b ∧
      s.cache.bufs b = ⟨false, false, 1, 7, some 0, 1, fun _ => 0, [], false⟩ ∧ s.queue = [] ∧
      s.cache.disk 7 = (fun _ => 1) ∧ s.written b = false := by
    refine ⟨_, h2, ?_, ?_, rfl, rfl, ?_⟩ <;> simp [act, boot, start, mark, Act.writes, rootdev]
  have hread : system.step s (.read 0) { s with queue := s.queue ++ [b] } :=
    Step.read hpc (hidle s 0 hqueue) (by decide)
  have hintr : system.step { s with queue := s.queue ++ [b] } (.intr failed fun _ => 0) _ :=
    Step.intr (p := 0) (show (s.queue ++ [b]) = b :: [] by rw [hqueue]; rfl) (by simp [hbuf])
  have h3 := hs.step (hok _ _ (by simp)) hread
  have h4 := h3.step (hok _ _ (by simp)) hintr
  refine ⟨_, b, h4, ?_, ?_, ?_, ?_, ?_⟩
  · simp [intr, act, served, hpc, rootdev]
  · simp [intr, act, finish]
  · cases failed with
    | false => simpa [intr, act, finish, hbuf] using hdisk
    | true => simp [intr, act, finish, hbuf]
  · simpa [intr, diskAfter, hbuf] using hdisk
  · simpa [intr] using hwritten

theorem data_genuine_first : ∃ s b, s.cache.procs 0 = .returned 1 7 b ∧ Genuine s := by
  obtain ⟨s, b, hs, hpc, -⟩ := first_read false ReadsSucceed (fun s a ha => by
    cases a with
    | intr failed d => exact fun _ _ _ _ => ha failed d rfl
    | _ => trivial)
  exact ⟨s, b, hpc, data_genuine hs⟩

/-- A read fails, and `bread` returns the zeros of the buffer for a block of ones. -/
theorem failed_read_is_valid : ∃ s b, Reachable system s ∧ s.cache.procs 0 = .returned 1 7 b ∧
    (s.cache.bufs b).valid = true ∧ (s.cache.bufs b).data ≠ s.cache.disk 7 ∧ s.written b = false ∧
    ¬ Genuine s := by
  obtain ⟨s, b, hs, hpc, hvalid, hdata, hdisk, hwritten⟩ := first_read true (fun _ _ => True)
    (fun _ _ _ => trivial)
  have hne : (s.cache.bufs b).data ≠ s.cache.disk 7 := by
    rw [hdata, hdisk]
    intro heq
    have hbyte := congrFun heq 0
    revert hbyte
    decide
  refine ⟨s, b, hs, hpc, hvalid, hne, hwritten, fun h => ?_⟩
  rcases (h.bread 0 1 7 b hpc).2.2.2 with hsame | hw
  · exact hne hsame
  · rw [hwritten] at hw
    cases hw

end Xv6.DiskErrors
