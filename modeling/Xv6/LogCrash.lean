import Mathlib.Data.List.Dedup
import Xv6.RedoLog

/-!
# Crash atomicity of the redo log

The logical contents of a disk are what a complete recovery would leave outside the log area.
Recovery keeps them at every one of its writes. Of the writes of `commit` only the first `writeHead`
changes them, from the contents before the group of operations to the contents after it.
-/
namespace Xv6.LogCrash

open Words BlockStore RedoLog Function

variable {l : Log} {d f A B : BlockNo → Block} {bs : List BlockNo} {s s' : Log × Dev}
  {t : List (BlockNo × Block)} {start b : BlockNo} {i tail : Nat}

def bwrites (d : Dev) (ws : List (BlockNo × Block)) : Dev :=
  ⟨writes d.disk ws, writes d.cache ws, d.issued ++ ws⟩

@[simp] theorem bwrites_disk (d : Dev) (ws : List (BlockNo × Block)) :
    (bwrites d ws).disk = writes d.disk ws := rfl
@[simp] theorem bwrites_cache (d : Dev) (ws : List (BlockNo × Block)) :
    (bwrites d ws).cache = writes d.cache ws := rfl
@[simp] theorem bwrites_issued (d : Dev) (ws : List (BlockNo × Block)) :
    (bwrites d ws).issued = d.issued ++ ws := rfl
@[simp] theorem bwrites_nil (d : Dev) : bwrites d [] = d := by simp [bwrites]

theorem bwrites_append (d : Dev) (ws vs : List (BlockNo × Block)) :
    bwrites (bwrites d ws) vs = bwrites d (ws ++ vs) := by
  simp [bwrites, writes_append]

theorem bwrite_eq (d : Dev) (b : BlockNo) (v : Block) : d.bwrite b v = bwrites d [(b, v)] := rfl

def slot (start : BlockNo) (i : Nat) : BlockNo := start + BitVec.ofNat 32 (i + 1)

/-- The writes of `write_log` for the entries from `tail` on, with the contents `f`. -/
def logCopies (start : BlockNo) (f : BlockNo → Block) : Nat → List BlockNo → List (BlockNo × Block)
  | _, [] => []
  | tail, b :: bs => (slot start tail, f b) :: logCopies start f (tail + 1) bs

/-- The writes of `install_trans` for the entries from `tail` on, reading log blocks from `f`. -/
def homeCopies (start : BlockNo) (f : BlockNo → Block) : Nat → List BlockNo → List (BlockNo × Block)
  | _, [] => []
  | tail, b :: bs => (b, f (slot start tail)) :: homeCopies start f (tail + 1) bs

theorem mem_logCopies {x : BlockNo}
    (h : x ∈ (logCopies start f tail bs).map Prod.fst) : ∃ i < bs.length, x = slot start (tail + i) := by
  induction bs generalizing tail with
  | nil => simp [logCopies] at h
  | cons b bs ih =>
    simp only [logCopies, List.map_cons, List.mem_cons] at h
    rcases h with rfl | h
    · exact ⟨0, by simp, rfl⟩
    · obtain ⟨i, hi, rfl⟩ := ih h
      exact ⟨i + 1, by simpa using hi, by rw [show tail + 1 + i = tail + (i + 1) by omega]⟩

@[simp] theorem map_fst_homeCopies (start : BlockNo) (f : BlockNo → Block) (tail : Nat) (bs : List BlockNo) :
    (homeCopies start f tail bs).map Prod.fst = bs := by
  induction bs generalizing tail with
  | nil => rfl
  | cons b bs ih => simp [homeCopies, ih]

@[simp] theorem length_logCopies (start : BlockNo) (f : BlockNo → Block) (tail : Nat) (bs : List BlockNo) :
    (logCopies start f tail bs).length = bs.length := by
  induction bs generalizing tail with
  | nil => rfl
  | cons b bs ih => simp [logCopies, ih]

/-- Only the log blocks of the entries are read. -/
theorem homeCopies_congr {g : BlockNo → Block}
    (h : ∀ i < bs.length, f (slot start (tail + i)) = g (slot start (tail + i))) :
    homeCopies start f tail bs = homeCopies start g tail bs := by
  induction bs generalizing tail with
  | nil => rfl
  | cons b bs ih =>
    simp only [homeCopies]
    rw [show f (slot start tail) = g (slot start tail) from h 0 (by simp), ih]
    intro i hi
    have := h (i + 1) (by simpa using hi)
    rwa [show tail + 1 + i = tail + (i + 1) by omega]

theorem slot_injective {j : Nat} (hi : i < logSize) (hj : j < logSize)
    (h : slot start i = slot start j) : i = j := by
  have hn := congrArg BitVec.toNat h
  have := start.isLt
  simp only [slot, BitVec.toNat_add, BitVec.toNat_ofNat] at hn
  simp only [logSize, maxOpBlocks] at hi hj
  omega

theorem slot_ne_start (hi : i < logSize) : slot start i ≠ start := by
  intro h
  have hn := congrArg BitVec.toNat h
  have := start.isLt
  simp only [slot, BitVec.toNat_add, BitVec.toNat_ofNat] at hn
  simp only [logSize, maxOpBlocks] at hi
  omega

/-- Reading back the log blocks just written gives the contents they were copied from. -/
theorem writes_logCopies (start : BlockNo) (f d : BlockNo → Block) (tail : Nat) (bs : List BlockNo)
    (hlen : tail + bs.length ≤ logSize) :
    homeCopies start (writes d (logCopies start f tail bs)) tail bs = bs.map (fun b => (b, f b)) := by
  induction bs generalizing d tail with
  | nil => rfl
  | cons b bs ih =>
    simp only [List.length_cons] at hlen
    simp only [homeCopies, logCopies, writes_cons, List.map_cons]
    have hhead : writes (put d (slot start tail) (f b)) (logCopies start f (tail + 1) bs)
      (slot start tail) = f b := by
      rw [writes_frame, put_same]
      intro hmem
      obtain ⟨i, hi, he⟩ := mem_logCopies hmem
      have := slot_injective (by omega) (by omega) he
      omega
    rw [hhead, ih _ _ (by omega)]

/-- Entries the log can hold: they fit in the header and in the log area, and none of
them names a block of that area. -/
structure Entries (l : Log) (bs : List BlockNo) : Prop where
  fits : bs.length ≤ logSize
  room : (bs.length : Int) ≤ l.size - 1
  home : ∀ b ∈ bs, ¬ InLog l b

theorem slot_inLog (h : (i : Int) < l.size - 1) : InLog l (slot l.start i) :=
  ⟨i + 1, by push_cast; omega, rfl⟩

theorem start_inLog (h : 1 ≤ l.size) : InLog l l.start := ⟨0, by push_cast; omega, by simp⟩

theorem Entries.slot_notMem (h : Entries l bs)
    (hi : i < bs.length) : slot l.start i ∉ bs := by
  intro hmem
  have := h.room
  exact h.home _ hmem (slot_inLog (by omega))

theorem writeLogFrom_eq (start : BlockNo) (tail : Nat) (bs : List BlockNo) (d : Dev)
    (h : ∀ i < bs.length, slot start (tail + i) ∉ bs) :
    writeLogFrom start tail bs d = bwrites d (logCopies start d.cache tail bs) := by
  induction bs generalizing tail d with
  | nil => simp [writeLogFrom, logCopies]
  | cons b bs ih =>
    have hhead : slot start tail ∉ b :: bs := h 0 (by simp)
    simp only [List.mem_cons, not_or] at hhead
    have hcache : ∀ c ∈ bs, put d.cache (slot start tail) (d.cache b) c = d.cache c := by
      intro c hc
      apply put_other
      rintro rfl
      exact hhead.2 hc
    have hcongr : ∀ (cs : List BlockNo) (k : Nat), (∀ c ∈ cs, c ∈ bs) →
        logCopies start (put d.cache (slot start tail) (d.cache b)) k cs = logCopies start d.cache k cs := by
      intro cs
      induction cs with
      | nil => intro k _; rfl
      | cons c cs ihc =>
        intro k hcs
        simp only [logCopies]
        rw [hcache c (hcs c (by simp)), ihc (k + 1) (by intro x hx; exact hcs x (by simp [hx]))]
    change writeLogFrom start (tail + 1) bs (d.bwrite (slot start tail) (d.cache b)) = _
    rw [ih]
    · rw [bwrite_eq, bwrites_append]
      change bwrites d ([_] ++ logCopies start (put d.cache (slot start tail) (d.cache b)) (tail + 1) bs) = _
      rw [hcongr bs (tail + 1) (by intro x hx; exact hx)]
      rfl
    · intro i hi
      have := h (i + 1) (by simpa using hi)
      rw [show tail + 1 + i = tail + (i + 1) by omega]
      exact fun hm => this (List.mem_cons_of_mem b hm)

theorem installTransFrom_eq (start : BlockNo) (tail : Nat) (bs : List BlockNo) (d : Dev)
    (h : ∀ i < bs.length, slot start (tail + i) ∉ bs) :
    installTransFrom start tail bs d = bwrites d (homeCopies start d.cache tail bs) := by
  induction bs generalizing tail d with
  | nil => simp [installTransFrom, homeCopies]
  | cons b bs ih =>
    have hrest : ∀ i < bs.length, slot start (tail + 1 + i) ∉ b :: bs := by
      intro i hi
      rw [show tail + 1 + i = tail + (i + 1) by omega]
      exact h (i + 1) (by simpa using hi)
    change installTransFrom start (tail + 1) bs (d.bwrite b (d.cache (slot start tail))) = _
    rw [ih]
    · rw [bwrite_eq, bwrites_append]
      change bwrites d ([_] ++ homeCopies start (put d.cache b (d.cache (slot start tail))) (tail + 1) bs) = _
      rw [homeCopies_congr (g := d.cache)]
      · rfl
      · intro i hi
        apply put_other
        intro he
        exact hrest i hi (by rw [he]; simp)
    · intro i hi hm
      exact hrest i hi (List.mem_cons_of_mem b hm)

/-- The writes a recovery of disk `d` still has to make outside the log area. -/
def pending (l : Log) (d : BlockNo → Block) : List (BlockNo × Block) :=
  homeCopies l.start d 0 (getHead (d l.start))

/-- What a complete recovery of disk `d` leaves outside the log area. -/
def logical (l : Log) (d : BlockNo → Block) : BlockNo → Block := writes d (pending l d)

/-- The state in which `initlog` calls `recover_from_log`. -/
def rebooted (l : Log) (d : BlockNo → Block) : Log × Dev :=
  ({ start := l.start, size := l.size, outstanding := 0, committing := false, lh := [] }, ⟨d, d, []⟩)

def recover (l : Log) (d : BlockNo → Block) : Log × Dev :=
  recoverFromLog (rebooted l d).1 (rebooted l d).2

theorem recover_eq (hsize : 1 ≤ l.size)
    (h : Entries l (getHead (d l.start))) :
    recover l d = ((rebooted l d).1,
      bwrites ⟨d, d, []⟩ (pending l d ++ [(l.start, putHead (d l.start) [])])) := by
  have hinst := installTransFrom_eq l.start 0 (getHead (d l.start)) ⟨d, d, []⟩ (by
    intro i hi
    rw [Nat.zero_add]
    exact h.slot_notMem hi)
  have hstart : writes d (pending l d) l.start = d l.start := by
    apply writes_frame
    rw [pending, map_fst_homeCopies]
    exact fun hm => h.home _ hm (start_inLog hsize)
  simp only [recover, rebooted, recoverFromLog, readHead, Dev.bread, installTrans, writeHead]
  rw [hinst]
  change (_, (bwrites ⟨d, d, []⟩ (pending l d)).bwrite l.start
    (putHead (writes d (pending l d) l.start) [])) = _
  rw [hstart, bwrite_eq, bwrites_append]

/-- A disk keeps its pending writes as long as the log area is untouched. -/
theorem pending_congr {e : BlockNo → Block} (h : Entries l (getHead (d l.start)))
    (hsize : 1 ≤ l.size) (he : ∀ b, InLog l b → e b = d b) : pending l e = pending l d := by
  have hroom := h.room
  simp only [pending]
  rw [he _ (start_inLog hsize)]
  apply homeCopies_congr
  intro i hi
  apply he
  rw [Nat.zero_add]
  exact slot_inLog (by omega)

theorem inLog_notMem_home (h : Entries l bs) (f : BlockNo → Block)
    {ws : List (BlockNo × Block)} (hsub : ws.Sublist (homeCopies l.start f 0 bs))
    (hb : InLog l b) : b ∉ ws.map Prod.fst := by
  intro hm
  have hmem := (hsub.map Prod.fst).subset hm
  rw [map_fst_homeCopies] at hmem
  exact h.home _ hmem hb

/-- A disk whose header is empty is its own logical contents. -/
theorem logical_of_empty (h : getHead (d l.start) = []) :
    logical l d = d := by
  simp [logical, pending, h, homeCopies]

theorem entries_nil (hsize : 1 ≤ l.size) : Entries l [] :=
  ⟨by simp, by simpa using hsize, by simp⟩

/-- Outside the log area, replacing one block of that area changes nothing. -/
theorem put_home {a : BlockNo} {v : Block} (ha : InLog l a)
    (hb : ¬ InLog l b) : put d a v b = d b :=
  put_other d v (by rintro rfl; exact hb ha)

/-- A recovery cut after any number of its writes leaves a disk with the same logical
contents, from which recovery can start again. -/
theorem crash_in_recovery (hsize : 1 ≤ l.size)
    (h : Entries l (getHead (d l.start))) (k : Nat) (e : BlockNo → Block)
    (he : e = writes d ((recover l d).2.issued.take k)) :
    Entries l (getHead (e l.start)) ∧ ∀ b, ¬ InLog l b → logical l e b = logical l d b := by
  have hissued : (recover l d).2.issued = pending l d ++ [(l.start, putHead (d l.start) [])] := by
    rw [recover_eq hsize h]; rfl
  rw [hissued] at he
  by_cases hk : k ≤ (pending l d).length
  · rw [List.take_append_of_le_length hk] at he
    have hlog : ∀ b, InLog l b → e b = d b := by
      intro b hb
      rw [he]
      exact writes_frame (inLog_notMem_home h d (List.take_sublist k _) hb)
    refine ⟨by rw [hlog _ (start_inLog hsize)]; exact h, ?_⟩
    intro b _
    rw [logical, pending_congr h hsize hlog, he,
      writes_replay _ _ _ ((List.take_sublist k _).map Prod.fst).subset, logical]
  · have hall : e = put (logical l d) l.start (putHead (d l.start) []) := by
      rw [he, List.take_of_length_le (by simp; omega), writes_append]
      rfl
    have hempty : getHead (e l.start) = [] := by
      rw [hall, put_same]
      exact getHead_putHead _ _ (by simp)
    refine ⟨by rw [hempty]; exact entries_nil hsize, ?_⟩
    intro b hb
    rw [logical_of_empty hempty, hall]
    exact put_home (start_inLog hsize) hb

/-- The buffers a group of operations modifies and logs, in order. -/
def logWrites : List (BlockNo × Block) → Log × Dev → Except Trap (Log × Dev)
  | [], s => .ok s
  | w :: ws, s => do
    let l ← logWrite s.1 w.1
    logWrites ws (l, s.2.modify w.1 w.2)

/-- From the first admitted `begin_op` of a group to the `end_op` that commits it. -/
def group (t : List (BlockNo × Block)) (s : Log × Dev) : Except Trap (Log × Dev) := do
  let s ← logWrites t ({ s.1 with outstanding := s.1.outstanding + 1 }, s.2)
  let s := commit { s.1 with outstanding := s.1.outstanding - 1, committing := true } s.2
  return ({ s.1 with committing := false }, s.2)

/-- What logging does to the header and to the cache; nothing reaches the disk. -/
structure Logged (t : List (BlockNo × Block)) (s s' : Log × Dev) : Prop where
  log : s'.1 = { s.1 with lh := s'.1.lh }
  dev : s'.2 = { s.2 with cache := writes s.2.cache t }
  nodup : s.1.lh.Nodup → s'.1.lh.Nodup
  mem : ∀ b, b ∈ s'.1.lh ↔ b ∈ s.1.lh ∨ b ∈ t.map Prod.fst
  room : s.1.lh.length ≤ logSize → (s.1.lh.length : Int) ≤ s.1.size - 1 →
    s'.1.lh.length ≤ logSize ∧ (s'.1.lh.length : Int) ≤ s.1.size - 1

theorem logWrites_logged
    (h : logWrites t s = .ok s') : Logged t s s' := by
  induction t generalizing s with
  | nil =>
    obtain rfl : s = s' := by simpa [logWrites] using h
    exact ⟨rfl, rfl, id, by simp, by intro h₁ h₂; exact ⟨h₁, h₂⟩⟩
  | cons w ws ih =>
    simp only [logWrites, bind_eq_ok] at h
    obtain ⟨l, hl, hrest⟩ := h
    obtain ⟨hfit, hroom, -, rfl⟩ := logWrite_eq_ok.mp hl
    have hr := ih hrest
    refine ⟨hr.log, hr.dev, ?_, ?_, ?_⟩
    · intro hn
      apply hr.nodup
      by_cases hw : w.1 ∈ s.1.lh
      · simpa [hw] using hn
      · simp only [hw, ↓reduceIte]
        exact List.nodup_append.mpr ⟨hn, by simp, by
          intro a ha b hb
          obtain rfl : b = w.1 := by simpa using hb
          rintro rfl
          exact hw ha⟩
    · intro b
      rw [hr.mem]
      by_cases hw : w.1 ∈ s.1.lh
      · simp only [hw, ↓reduceIte, List.map_cons, List.mem_cons]
        constructor
        · rintro (hb | hb)
          · exact .inl hb
          · exact .inr (.inr hb)
        · rintro (hb | rfl | hb)
          · exact .inl hb
          · exact .inl hw
          · exact .inr hb
      · simp only [hw, ↓reduceIte, List.map_cons, List.mem_cons, List.mem_append, or_assoc,
          List.not_mem_nil, or_false]
    · intro _ _
      apply hr.room
      · by_cases hw : w.1 ∈ s.1.lh <;> simp [hw] <;> omega
      · by_cases hw : w.1 ∈ s.1.lh <;> simp [hw] <;> omega

/-- Between groups: nothing logged, the cache agrees with the disk, the header is empty. -/
structure Idle (s : Log × Dev) : Prop where
  size : 1 ≤ s.1.size
  outstanding : s.1.outstanding = 0
  committing : s.1.committing = false
  lh : s.1.lh = []
  cache : s.2.cache = s.2.disk
  empty : getHead (s.2.disk s.1.start) = []

/-- The writes of `commit`, in the order they are issued. -/
def commitWrites (l : Log) (bs : List BlockNo) (f : BlockNo → Block) : List (BlockNo × Block) :=
  logCopies l.start f 0 bs ++ (l.start, putHead (f l.start) bs) ::
    (bs.map (fun b => (b, f b)) ++ [(l.start, putHead (putHead (f l.start) bs) [])])

theorem commit_eq {d : Dev} (hsize : 1 ≤ l.size) (h : Entries l l.lh) (hne : l.lh ≠ []) :
    commit l d = ({ l with lh := [] }, bwrites d (commitWrites l l.lh d.cache)) := by
  have hslot : ∀ i < l.lh.length, slot l.start (0 + i) ∉ l.lh := by
    intro i hi
    rw [Nat.zero_add]
    exact h.slot_notMem hi
  have hwrite := writeLogFrom_eq l.start 0 l.lh d hslot
  have hstart : writes d.cache (logCopies l.start d.cache 0 l.lh) l.start = d.cache l.start := by
    apply writes_frame
    intro hm
    obtain ⟨i, hi, he⟩ := mem_logCopies hm
    have := h.fits
    rw [Nat.zero_add] at he
    exact slot_ne_start (by omega : i < logSize) he.symm
  let d₁ := bwrites d (logCopies l.start d.cache 0 l.lh ++ [(l.start, putHead (d.cache l.start) l.lh)])
  have hinst := installTransFrom_eq l.start 0 l.lh d₁ hslot
  have hhomes : homeCopies l.start d₁.cache 0 l.lh = l.lh.map (fun b => (b, d.cache b)) := by
    rw [← writes_logCopies l.start d.cache d.cache 0 l.lh (by have := h.fits; omega)]
    apply homeCopies_congr
    intro i hi
    have := h.fits
    rw [Nat.zero_add]
    simp only [d₁, bwrites_cache, writes_append, writes_cons, writes_nil]
    exact put_other _ _ (slot_ne_start (by omega))
  have hhead : (bwrites d₁ (l.lh.map (fun b => (b, d.cache b)))).cache l.start =
      putHead (d.cache l.start) l.lh := by
    rw [bwrites_cache, writes_frame]
    · simp [d₁, writes_append]
    · intro hm
      simp only [List.map_map, comp_def, List.map_id'] at hm
      exact h.home _ hm (start_inLog hsize)
  have hpos : 0 < l.lh.length := List.length_pos_iff.mpr hne
  simp only [commit, hpos, ↓reduceIte, writeLog, installTrans, writeHead, Dev.bread]
  have hd₁ : (bwrites d (logCopies l.start d.cache 0 l.lh)).bwrite l.start
    (putHead (d.cache l.start) l.lh) = d₁ := by
    rw [bwrite_eq, bwrites_append]
  rw [hwrite, bwrites_cache, hstart, hd₁, hinst, hhomes, hhead, bwrite_eq, bwrites_append, bwrites_append]
  simp [commitWrites]

/-- A commit cut after any number of its writes: up to the last log block the logical
contents are those before the group, from the header on those after it. -/
theorem crash_in_commit (hsize : 1 ≤ l.size)
    (h : Entries l bs) (hempty : getHead (d l.start) = []) (k : Nat) (e : BlockNo → Block)
    (he : e = writes d ((commitWrites l bs f).take k)) :
    Entries l (getHead (e l.start)) ∧ ∀ b, ¬ InLog l b →
      logical l e b = if k ≤ bs.length then d b else if b ∈ bs then f b else d b := by
  have hfits := h.fits
  have hroom := h.room
  by_cases hk : k ≤ bs.length
  · have htake : e = writes d ((logCopies l.start f 0 bs).take k) := by
      rw [he, commitWrites, List.take_append_of_le_length (by simpa using hk)]
    have hframe : ∀ b, (∀ i < bs.length, b ≠ slot l.start i) → e b = d b := by
      intro b hb
      rw [htake]
      apply writes_frame
      intro hm
      obtain ⟨i, hi, hslot⟩ := mem_logCopies (((List.take_sublist k _).map Prod.fst).subset hm)
      rw [Nat.zero_add] at hslot
      exact hb i hi hslot
    have hhead : getHead (e l.start) = [] := by
      rw [hframe _ (by intro i hi; exact (slot_ne_start (by omega)).symm)]
      exact hempty
    refine ⟨by rw [hhead]; exact entries_nil hsize, ?_⟩
    intro b hb
    rw [if_pos hk, logical_of_empty hhead]
    apply hframe
    rintro i hi rfl
    exact hb (slot_inLog (by omega))
  · let homes := bs.map (fun b => (b, f b))
    let d₁ := put (writes d (logCopies l.start f 0 bs)) l.start (putHead (f l.start) bs)
    have hfst : homes.map Prod.fst = bs := by simp [homes, comp_def]
    have hd₁ : ∀ b, ¬ InLog l b → d₁ b = d b := by
      intro b hb
      simp only [d₁]
      rw [put_home (start_inLog hsize) hb]
      apply writes_frame
      intro hm
      obtain ⟨i, hi, rfl⟩ := mem_logCopies hm
      exact hb (slot_inLog (by omega))
    have hafter : ∀ b, ¬ InLog l b → writes d₁ homes b = if b ∈ bs then f b else d b := by
      intro b hb
      rw [writes_map, hd₁ b hb]
    have htake : e = writes d₁ ((homes ++ [(l.start, putHead (putHead (f l.start) bs) [])]).take
        (k - bs.length - 1)) := by
      rw [he, commitWrites, List.take_append, List.take_of_length_le (by simp; omega), length_logCopies,
        show k - bs.length = (k - bs.length - 1) + 1 by omega, List.take_succ_cons, writes_append]
      rfl
    by_cases hm : k - bs.length - 1 ≤ bs.length
    · rw [List.take_append_of_le_length (by simpa [homes] using hm)] at htake
      have hlog : ∀ b, InLog l b → e b = d₁ b := by
        intro b hb
        rw [htake]
        apply writes_frame
        intro hmem
        have := ((List.take_sublist (k - bs.length - 1) homes).map Prod.fst).subset hmem
        rw [hfst] at this
        exact h.home _ this hb
      have hhead : getHead (e l.start) = bs := by
        rw [hlog _ (start_inLog hsize)]
        simp only [d₁, put_same]
        exact getHead_putHead _ _ (by simp only [logSize, maxOpBlocks] at hfits; omega)
      have hpending : pending l e = homes := by
        change homeCopies l.start e 0 (getHead (e l.start)) = bs.map (fun b => (b, f b))
        rw [hhead, ← writes_logCopies l.start f d 0 bs (by omega)]
        apply homeCopies_congr
        intro i hi
        rw [Nat.zero_add, hlog _ (slot_inLog (by omega))]
        exact put_other _ _ (slot_ne_start (by omega))
      refine ⟨by rw [hhead]; exact h, ?_⟩
      intro b hb
      rw [if_neg hk, logical, hpending, htake,
        writes_replay _ _ _ ((List.take_sublist _ _).map Prod.fst).subset]
      exact hafter b hb
    · have hall : e = put (writes d₁ homes) l.start (putHead (putHead (f l.start) bs) []) := by
        rw [htake, List.take_of_length_le (by simp [homes]; omega), writes_append]
        rfl
      have hhead : getHead (e l.start) = [] := by
        rw [hall, put_same]
        exact getHead_putHead _ _ (by simp)
      refine ⟨by rw [hhead]; exact entries_nil hsize, ?_⟩
      intro b hb
      rw [if_neg hk, logical_of_empty hhead, hall, put_home (start_inLog hsize) hb]
      exact hafter b hb

/-- One step of a history: a group that runs to the end, or one whose commit is cut
after `k` writes, with recoveries cut after each of `ks` writes before one completes. -/
inductive Event where
  | group (t : List (BlockNo × Block))
  | crash (t : List (BlockNo × Block)) (k : Nat) (ks : List Nat)

def Event.logged : Event → List (BlockNo × Block)
  | .group t => t
  | .crash t _ _ => t

/-- The disk after recoveries that are each cut short. -/
def reboots (l : Log) : List Nat → (BlockNo → Block) → BlockNo → Block
  | [], d => d
  | k :: ks, d => reboots l ks (writes d ((recover l d).2.issued.take k))

def fresh (s : Log × Dev) : Log × Dev := (s.1, ⟨s.2.disk, s.2.cache, []⟩)

def step (s : Log × Dev) : Event → Except Trap (Log × Dev)
  | .group t => group t (fresh s)
  | .crash t k ks => do
    let s' ← group t (fresh s)
    return recover s.1 (reboots s.1 ks (writes s.2.disk (s'.2.issued.take k)))

def run (s : Log × Dev) : List Event → Except Trap (Log × Dev)
  | [] => .ok s
  | e :: es => do
    let s ← step s e
    run s es

/-- The contents a history may leave: a group is all there or, when its commit was cut
before the last of its writes, all absent. -/
inductive Outcome : List Event → (BlockNo → Block) → (BlockNo → Block) → Prop where
  | nil (A : BlockNo → Block) : Outcome [] A A
  | group {t : List (BlockNo × Block)} {es : List Event} {A B : BlockNo → Block} :
      Outcome es (writes A t) B → Outcome (.group t :: es) A B
  | kept {t : List (BlockNo × Block)} {k : Nat} {ks : List Nat} {es : List Event} {A B : BlockNo → Block} :
      Outcome es (writes A t) B → Outcome (.crash t k ks :: es) A B
  | lost {t : List (BlockNo × Block)} {k : Nat} {ks : List Nat} {es : List Event} {A B : BlockNo → Block} :
      k < 2 * (t.map Prod.fst).dedup.length + 2 → Outcome es A B → Outcome (.crash t k ks :: es) A B

variable {es : List Event}

theorem outcome_frame (h : Outcome es A B)
    (hb : ∀ e ∈ es, b ∉ e.logged.map Prod.fst) : B b = A b := by
  induction h with
  | nil => rfl
  | group _ ih | kept _ ih =>
    rw [ih (by intro e he; exact hb e (by simp [he]))]
    exact writes_frame (hb _ (List.mem_cons_self))
  | lost _ _ ih => exact ih (by intro e he; exact hb e (by simp [he]))

/-- The logged contents as one function: the last write of the group, else the old block. -/
theorem ite_mem_eq_writes
    (hmem : ∀ b, b ∈ bs ↔ b ∈ t.map Prod.fst) (b : BlockNo) :
    (if b ∈ bs then writes d t b else d b) = writes d t b := by
  by_cases hb : b ∈ bs
  · rw [if_pos hb]
  · rw [if_neg hb, writes_frame ((not_congr (hmem b)).mp hb)]

section

variable (hs : Idle s) (hout : ∀ w ∈ t, ¬ InLog s.1 w.1) (h : group t (fresh s) = .ok s')
include hs hout h

/-- A group from an idle state: the writes it issues and the state it ends in. -/
theorem group_spec :
    ∃ bs, Entries s.1 bs ∧ bs.length = (t.map Prod.fst).dedup.length ∧
      (∀ b, b ∈ bs ↔ b ∈ t.map Prod.fst) ∧ s'.1 = s.1 ∧
      s'.2.issued = (if bs = [] then [] else commitWrites s.1 bs (writes s.2.disk t)) ∧
      s'.2.disk = writes s.2.disk s'.2.issued ∧ s'.2.cache = s'.2.disk := by
  simp only [group, bind_eq_ok] at h
  obtain ⟨m, hm, hret⟩ := h
  have hl := logWrites_logged hm
  have hmem : ∀ b, b ∈ m.1.lh ↔ b ∈ t.map Prod.fst := by
    intro b
    rw [hl.mem b]
    simp [fresh, hs.lh]
  have hsize := hs.size
  obtain ⟨hfits, hroom⟩ := hl.room (by simp [fresh, hs.lh]) (by simp [fresh, hs.lh]; omega)
  have hentries : Entries s.1 m.1.lh := by
    refine ⟨hfits, hroom, ?_⟩
    intro b hb
    obtain ⟨w, hw, rfl⟩ := List.mem_map.mp ((hmem b).mp hb)
    exact hout w hw
  have hlen : m.1.lh.length = (t.map Prod.fst).dedup.length := by
    apply List.Perm.length_eq
    rw [List.perm_ext_iff_of_nodup (hl.nodup (by simp [fresh, hs.lh])) (List.nodup_dedup _)]
    intro b
    rw [List.mem_dedup]
    exact hmem b
  have hm2 : m.2 = ⟨s.2.disk, writes s.2.disk t, []⟩ := by
    rw [hl.dev]
    simp [fresh, hs.cache]
  refine ⟨m.1.lh, hentries, hlen, hmem, ?_⟩
  have hlog : s.1 = { m.1 with outstanding := m.1.outstanding - 1, committing := false, lh := [] } := by
    rw [hl.log]
    obtain ⟨⟨st, sz, o, c, lh⟩, d⟩ := s
    have h₁ := hs.committing
    have h₂ := hs.lh
    simp only at h₁ h₂
    subst h₁ h₂
    simp [fresh]
  by_cases hne : m.1.lh = []
  · have ht : t = [] := by
      cases t with
      | nil => rfl
      | cons w ws =>
        have := (hmem w.1).mpr (by simp)
        rw [hne] at this
        simp at this
    subst ht
    simp only [commit, hne, List.length_nil, lt_irrefl, ↓reduceIte, pure, Except.pure,
      Except.ok.injEq] at hret
    subst hret
    refine ⟨?_, ?_, ?_, ?_⟩
    · conv_rhs => rw [hlog]
    · simp [hne, hm2]
    · simp [hm2]
    · simp [hm2]
  · have hcommit := commit_eq (l := { m.1 with outstanding := m.1.outstanding - 1, committing := true })
      (d := m.2) (by rw [hl.log]; exact hsize)
      (by
        refine ⟨hfits, by rw [hl.log]; exact hroom, ?_⟩
        intro b hb hin
        apply hentries.home b hb
        rw [hl.log] at hin
        exact hin) hne
    rw [hcommit] at hret
    simp only [pure, Except.pure, Except.ok.injEq] at hret
    subst hret
    have hstart : m.1.start = s.1.start := (congrArg Log.start hl.log).trans rfl
    have hws : commitWrites { m.1 with outstanding := m.1.outstanding - 1, committing := true } m.1.lh
        m.2.cache = commitWrites s.1 m.1.lh (writes s.2.disk t) := by
      rw [hm2]
      simp only [commitWrites, hstart]
    refine ⟨?_, ?_, ?_, ?_⟩
    · conv_rhs => rw [hlog]
    · simp only [bwrites_issued, hne, ↓reduceIte]
      rw [hws, hm2]
      simp
    · simp [hm2]
    · simp only [bwrites_cache, bwrites_disk]
      rw [hws, hm2]
      apply writes_replay
      intro b hb
      have := (hmem b).mpr hb
      simp only [commitWrites, List.map_append, List.map_cons, List.map_map, comp_def,
        List.map_id', List.mem_append, List.mem_cons]
      exact .inr (.inr (.inl this))

/-- The disk of an idle state whose next group is cut after `k` of its writes. -/
theorem group_cut (k : Nat) (cut : BlockNo → Block)
    (hcut : cut = writes s.2.disk (s'.2.issued.take k)) :
    Entries s.1 (getHead (cut s.1.start)) ∧ ∀ b, ¬ InLog s.1 b → logical s.1 cut b =
      if k ≤ (t.map Prod.fst).dedup.length then s.2.disk b else writes s.2.disk t b := by
  obtain ⟨bs, hbs, hlen, hmem, -, hissued, -, -⟩ := group_spec hs hout h
  rw [← hlen]
  by_cases hnil : bs = []
  · have hnone : ∀ b, b ∉ t.map Prod.fst := by
      intro b hb
      have := (hmem b).mpr hb
      rw [hnil] at this
      simp at this
    have hsame : cut = s.2.disk := by simp [hcut, hissued, hnil]
    rw [hsame, hs.empty]
    refine ⟨entries_nil hs.size, ?_⟩
    intro b _
    rw [logical_of_empty hs.empty, writes_frame (hnone b), ite_self]
  · rw [if_neg hnil] at hissued
    obtain ⟨hent, hlogical⟩ := crash_in_commit hs.size hbs hs.empty k cut (by rw [hcut, hissued])
    refine ⟨hent, ?_⟩
    intro b hb
    rw [hlogical b hb, ite_mem_eq_writes hmem]

/-- A completed group leaves an idle state whose home blocks hold all of the group. -/
theorem group_complete :
    Idle s' ∧ s'.1 = s.1 ∧ ∀ b, ¬ InLog s.1 b → s'.2.disk b = writes s.2.disk t b := by
  obtain ⟨bs, hbs, hlen, hmem, hlog, hissued, hdisk, hcache⟩ := group_spec hs hout h
  have hhead : getHead (s'.2.disk s.1.start) = [] := by
    rw [hdisk, hissued]
    by_cases hnil : bs = []
    · simp [hnil, hs.empty]
    · rw [if_neg hnil, commitWrites, writes_append, writes_cons, writes_append, writes_cons, writes_nil, put_same]
      exact getHead_putHead _ _ (by simp)
  refine ⟨⟨by rw [hlog]; exact hs.size, by rw [hlog]; exact hs.outstanding, by rw [hlog]; exact hs.committing,
    by rw [hlog]; exact hs.lh, hcache, by rw [hlog]; exact hhead⟩, hlog, ?_⟩
  intro b hb
  have hcut := (group_cut hs hout h s'.2.issued.length s'.2.disk (by rw [List.take_length, hdisk])).2 b hb
  rw [logical_of_empty hhead] at hcut
  by_cases hnil : bs = []
  · have ht : b ∉ t.map Prod.fst := by
      intro hmem'
      have := (hmem b).mpr hmem'
      rw [hnil] at this
      simp at this
    rw [hcut, writes_frame ht, ite_self]
  · rw [hcut, if_neg]
    rw [hissued, if_neg hnil, ← hlen]
    simp [commitWrites]

end

theorem reboots_spec (hsize : 1 ≤ l.size) (ks : List Nat)
    (h : Entries l (getHead (d l.start))) :
    Entries l (getHead (reboots l ks d l.start)) ∧
      ∀ b, ¬ InLog l b → logical l (reboots l ks d) b = logical l d b := by
  induction ks generalizing d with
  | nil => exact ⟨h, by intro b _; rfl⟩
  | cons k ks ih =>
    obtain ⟨hent, hlog⟩ := crash_in_recovery hsize h k _ rfl
    obtain ⟨hent', hlog'⟩ := ih hent
    refine ⟨hent', ?_⟩
    intro b hb
    rw [← hlog b hb]
    exact hlog' b hb

/-- A completed recovery leaves the logical contents on the disk, and an idle log. -/
theorem recover_spec (hsize : 1 ≤ l.size)
    (h : Entries l (getHead (d l.start))) :
    Idle (recover l d) ∧ (recover l d).1 = (rebooted l d).1 ∧
      ∀ b, ¬ InLog l b → (recover l d).2.disk b = logical l d b := by
  rw [recover_eq hsize h]
  have hdisk : writes d (pending l d ++ [(l.start, putHead (d l.start) [])]) =
      put (logical l d) l.start (putHead (d l.start) []) := by
    rw [writes_append]
    rfl
  refine ⟨⟨hsize, rfl, rfl, rfl, rfl, ?_⟩, rfl, ?_⟩
  · simp only [bwrites_disk, hdisk, rebooted, put_same]
    exact getHead_putHead _ _ (by simp)
  · intro b hb
    simp only [bwrites_disk, hdisk]
    exact put_home (start_inLog hsize) hb

theorem rebooted_of_idle (hs : Idle s) (d : BlockNo → Block) : (rebooted s.1 d).1 = s.1 := by
  obtain ⟨⟨st, sz, o, c, lh⟩, dev⟩ := s
  have h₁ := hs.outstanding
  have h₂ := hs.committing
  have h₃ := hs.lh
  simp only at h₁ h₂ h₃
  subst h₁ h₂ h₃
  rfl

/-- One step of a history, from idle state to idle state: the home blocks it leaves are
those of a group performed in full or not at all. -/
theorem step_spec {e : Event} (hs : Idle s)
    (hout : ∀ w ∈ e.logged, ¬ InLog s.1 w.1) (h : step s e = .ok s') :
    Idle s' ∧ s'.1 = s.1 ∧ ∃ A, (∀ b, ¬ InLog s.1 b → s'.2.disk b = A b) ∧
      ∀ es B, Outcome es A B → Outcome (e :: es) s.2.disk B := by
  cases e with
  | group t =>
    obtain ⟨hidle, hlog, hdisk⟩ := group_complete hs hout h
    exact ⟨hidle, hlog, writes s.2.disk t, hdisk, by intro es B hB; exact .group hB⟩
  | crash t k ks =>
    simp only [step, bind_eq_ok, pure, Except.pure, Except.ok.injEq] at h
    obtain ⟨m, hm, rfl⟩ := h
    obtain ⟨hcut, hcontents⟩ := group_cut (t := t) hs hout hm k _ rfl
    obtain ⟨hent, hlogical⟩ := reboots_spec hs.size ks hcut
    obtain ⟨hidle, hlog, hfinal⟩ := recover_spec hs.size hent
    refine ⟨hidle, hlog.trans (rebooted_of_idle hs _), ?_⟩
    by_cases hk : k ≤ (t.map Prod.fst).dedup.length
    · refine ⟨s.2.disk, ?_, by intro es B hB; exact .lost (by omega) hB⟩
      intro b hb
      rw [hfinal b hb, hlogical b hb, hcontents b hb, if_pos hk]
    · refine ⟨writes s.2.disk t, ?_, by intro es B hB; exact .kept hB⟩
      intro b hb
      rw [hfinal b hb, hlogical b hb, hcontents b hb, if_neg hk]

/-- Two contents that agree outside the log area have outcomes that agree there. -/
theorem outcome_congr {A' : BlockNo → Block} (h : Outcome es A B)
    (hA : ∀ b, ¬ InLog l b → A b = A' b) : ∃ B', Outcome es A' B' ∧ ∀ b, ¬ InLog l b → B b = B' b := by
  have hwrites : ∀ {C C' : BlockNo → Block} (t : List (BlockNo × Block)),
      (∀ b, ¬ InLog l b → C b = C' b) → ∀ b, ¬ InLog l b → writes C t b = writes C' t b := by
    intro C C' t hC b hb
    exact writes_congr (fun _ => hC b hb)
  induction h generalizing A' with
  | nil A => exact ⟨A', .nil A', hA⟩
  | group _ ih =>
    obtain ⟨B', hB', he⟩ := ih (hwrites _ hA)
    exact ⟨B', .group hB', he⟩
  | kept _ ih =>
    obtain ⟨B', hB', he⟩ := ih (hwrites _ hA)
    exact ⟨B', .kept hB', he⟩
  | lost hk _ ih =>
    obtain ⟨B', hB', he⟩ := ih hA
    exact ⟨B', .lost hk hB', he⟩

/-- Crash atomicity over whole histories: whatever the crash points, the blocks outside
the log area hold every completed group in full, each interrupted group in full or not
at all, and no block changes that no group logged. -/
theorem crash_atomicity (s s' : Log × Dev) (es : List Event) (hs : Idle s)
    (hout : ∀ e ∈ es, ∀ w ∈ e.logged, ¬ InLog s.1 w.1) (hrun : run s es = .ok s') :
    (∃ B, Outcome es s.2.disk B ∧ ∀ b, ¬ InLog s.1 b → s'.2.disk b = B b) ∧
      ∀ b, ¬ InLog s.1 b → (∀ e ∈ es, b ∉ e.logged.map Prod.fst) → s'.2.disk b = s.2.disk b := by
  have hmain : ∃ B, Outcome es s.2.disk B ∧ ∀ b, ¬ InLog s.1 b → s'.2.disk b = B b := by
    induction es generalizing s with
    | nil =>
      obtain rfl : s = s' := by simpa [run] using hrun
      exact ⟨s.2.disk, .nil _, by intro b _; rfl⟩
    | cons e es ih =>
      simp only [run, bind_eq_ok] at hrun
      obtain ⟨m, hm, hrest⟩ := hrun
      obtain ⟨hidle, hlog, A, hA, hstep⟩ := step_spec hs (hout e (by simp)) hm
      rw [← hlog] at hout hA ⊢
      obtain ⟨B, hB, hdisk⟩ := ih m hidle (by intro e' he'; exact hout e' (by simp [he'])) hrest
      obtain ⟨B', hB', he⟩ := outcome_congr hB hA
      refine ⟨B', hstep es B' hB', ?_⟩
      intro b hb
      rw [hdisk b hb, he b hb]
  obtain ⟨B, hB, hdisk⟩ := hmain
  refine ⟨⟨B, hB, hdisk⟩, ?_⟩
  intro b hb hlogged
  rw [hdisk b hb, outcome_frame hB hlogged]

def zeroDisk : Log × Dev :=
  ({ start := 2, size := logSize, outstanding := 0, committing := false, lh := [] },
    ⟨fun _ _ => 0, fun _ _ => 0, []⟩)

/-- One group that completes and one whose commit is cut after its header write, the
first recovery being cut as well. -/
def twoGroups : List Event :=
  [.group [(40, fun _ => 1), (41, fun _ => 2)], .crash [(40, fun _ => 3)] 2 [1]]

theorem crash_atomicity_twoGroups : ∃ s', run zeroDisk twoGroups = .ok s' ∧
    ∃ B, Outcome twoGroups zeroDisk.2.disk B ∧ ∀ b, ¬ InLog zeroDisk.1 b → s'.2.disk b = B b := by
  have hidle : Idle zeroDisk := by
    refine ⟨by decide, rfl, rfl, rfl, rfl, ?_⟩
    decide
  have hout : ∀ e ∈ twoGroups, ∀ w ∈ e.logged, ¬ InLog zeroDisk.1 w.1 := by
    have hfar : ∀ b : BlockNo, 32 ≤ b.toNat → ¬ InLog zeroDisk.1 b := by
      rintro b hb ⟨i, hi, rfl⟩
      have htwo : (2 : BlockNo).toNat = 2 := rfl
      simp only [zeroDisk, logSize, maxOpBlocks, BitVec.toNat_add, BitVec.toNat_ofNat, htwo] at hb hi
      omega
    intro e he w hw
    apply hfar
    simp only [twoGroups, List.mem_cons, List.not_mem_nil, or_false] at he
    rcases he with rfl | rfl
    · simp only [Event.logged, List.mem_cons, List.not_mem_nil, or_false] at hw
      rcases hw with rfl | rfl <;> decide
    · simp only [Event.logged, List.mem_cons, List.not_mem_nil, or_false] at hw
      subst hw
      decide
  obtain ⟨s', hrun⟩ : ∃ s', run zeroDisk twoGroups = .ok s' := ⟨_, rfl⟩
  exact ⟨s', hrun, (crash_atomicity zeroDisk s' twoGroups hidle hout hrun).1⟩

end Xv6.LogCrash
