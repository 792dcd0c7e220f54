import Xv6.Bytes
import Xv6.BlockStore

/-!
# The redo log

`log.c` on a disk of blocks with atomic single-block writes. `bwrite` appends to the list of writes
issued, so a crash after any number of writes is a prefix of that list. A reboot forgets the cache
and the in-memory header and runs `recoverFromLog`, which may itself be cut short any number of
times.
-/
namespace Xv6.RedoLog

open Words Bytes BlockStore

abbrev BlockNo := BitVec 32
abbrev Block := Buffer

scoped instance (b : BlockNo) (bs : List BlockNo) : Decidable (b ∈ bs) := inferInstance

/-- `param.h`: the most blocks one file-system operation writes. -/
def maxOpBlocks : Nat := 10

/-- `param.h`: the most data blocks in the on-disk log. -/
def logSize : Nat := maxOpBlocks * 3

/-- `struct log`, with `lh.block[0..lh.n)` as a list. -/
structure Log where
  start : BlockNo
  size : Int
  outstanding : Int
  committing : Bool
  lh : List BlockNo
  deriving DecidableEq, Repr

/-- The disk, the buffer cache's contents of each block, and the writes issued so far. -/
structure Dev where
  disk : BlockNo → Block
  cache : BlockNo → Block
  issued : List (BlockNo × Block)

def Dev.bread (d : Dev) (b : BlockNo) : Block := d.cache b

def Dev.bwrite (d : Dev) (b : BlockNo) (v : Block) : Dev :=
  ⟨put d.disk b v, put d.cache b v, d.issued ++ [(b, v)]⟩

/-- A holder of the buffer changes its data; nothing reaches the disk yet. -/
def Dev.modify (d : Dev) (b : BlockNo) (v : Block) : Dev := { d with cache := put d.cache b v }

/-- The test of `begin_op`'s loop; `none` is the branch that sleeps. -/
def beginOp (l : Log) : Option Log :=
  if l.committing then none
  else if l.lh.length + (l.outstanding + 1) * maxOpBlocks > logSize then none
  else some { l with outstanding := l.outstanding + 1 }

/-- The part of `end_op` under `log.lock`; the caller commits when `committing` is set. -/
def endOp (l : Log) : Except Trap Log :=
  let l := { l with outstanding := l.outstanding - 1 }
  if l.committing then .error (.panic "log.committing")
  else if l.outstanding = 0 then .ok { l with committing := true }
  else .ok l

/-- `log_write`: the size check comes before the absorption of a block already logged. -/
def logWrite (l : Log) (b : BlockNo) : Except Trap Log :=
  if logSize ≤ l.lh.length ∨ l.size - 1 ≤ l.lh.length then .error (.panic "too big a transaction")
  else if l.outstanding < 1 then .error (.panic "log_write outside of trans")
  else
    let i := l.lh.findIdx (· == b)
    if i = l.lh.length then .ok { l with lh := l.lh ++ [b] }
    else .ok { l with lh := l.lh.set i b }

/-- The loop of `write_log` from `tail` on: cache blocks to log blocks. -/
def writeLogFrom (start : BlockNo) : Nat → List BlockNo → Dev → Dev
  | _, [], d => d
  | tail, b :: bs, d =>
    writeLogFrom start (tail + 1) bs (d.bwrite (start + BitVec.ofNat 32 (tail + 1)) (d.bread b))

def writeLog (l : Log) (d : Dev) : Dev := writeLogFrom l.start 0 l.lh d

/-- The loop of `install_trans` from `tail` on: log blocks to their home locations. -/
def installTransFrom (start : BlockNo) : Nat → List BlockNo → Dev → Dev
  | _, [], d => d
  | tail, b :: bs, d =>
    installTransFrom start (tail + 1) bs (d.bwrite b (d.bread (start + BitVec.ofNat 32 (tail + 1))))

def installTrans (l : Log) (d : Dev) : Dev := installTransFrom l.start 0 l.lh d

def putBlocks (buf : Block) : Nat → List BlockNo → Block
  | _, [] => buf
  | i, b :: bs => putBlocks (putLE buf (4 + 4 * i) 4 b.toNat) (i + 1) bs

/-- A header block after `write_head` has stored `n` and the first `n` entries in it. -/
def putHead (buf : Block) (bs : List BlockNo) : Block := putBlocks (putLE buf 0 4 bs.length) 0 bs

/-- The entries `read_head` copies: none when the stored `int` is negative. -/
def getHead (buf : Block) : List BlockNo :=
  (List.range (BitVec.ofNat 32 (getLE buf 0 4)).toInt.toNat).map
    (fun i => BitVec.ofNat 32 (getLE buf (4 + 4 * i) 4))

def readHead (l : Log) (d : Dev) : Log := { l with lh := getHead (d.bread l.start) }

def writeHead (l : Log) (d : Dev) : Dev := d.bwrite l.start (putHead (d.bread l.start) l.lh)

def recoverFromLog (l : Log) (d : Dev) : Log × Dev :=
  let l := readHead l d
  let d := installTrans l d
  let l := { l with lh := [] }
  (l, writeHead l d)

def commit (l : Log) (d : Dev) : Log × Dev :=
  if 0 < l.lh.length then
    let d := writeLog l d
    let d := writeHead l d
    let d := installTrans l d
    let l := { l with lh := [] }
    (l, writeHead l d)
  else (l, d)

/-- In memory a commit only empties the header. -/
theorem commit_fst (l : Log) (d : Dev) : (commit l d).1 = { l with lh := [] } := by
  simp only [commit]
  split
  · rfl
  · rename_i h
    have hnil : l.lh = [] := List.length_eq_zero_iff.mp (by omega)
    cases l
    simp_all

def InLog (l : Log) (b : BlockNo) : Prop :=
  ∃ i : Nat, (i : Int) < l.size ∧ b = l.start + BitVec.ofNat 32 i

theorem getLE_putBlocks_before (buf : Block) (i o : Nat) (bs : List BlockNo) (h : o + 4 ≤ 4 + 4 * i) :
    getLE (putBlocks buf i bs) o 4 = getLE buf o 4 := by
  induction bs generalizing buf i with
  | nil => rfl
  | cons b bs ih =>
    simp only [putBlocks]
    rw [ih _ (i + 1) (by omega), getLE_putLE_other (by omega)]

theorem getBlocks_putBlocks (buf : Block) (i : Nat) (bs : List BlockNo) :
    (List.range bs.length).map
      (fun j => BitVec.ofNat 32 (getLE (putBlocks buf i bs) (4 + 4 * (i + j)) 4)) = bs := by
  induction bs generalizing buf i with
  | nil => rfl
  | cons b bs ih =>
    have hb := b.isLt
    rw [List.length_cons, List.range_succ_eq_map, List.map_cons, List.map_map]
    congr 1
    · simp only [putBlocks, Nat.add_zero]
      rw [getLE_putBlocks_before _ (i + 1) _ _ (by omega), getLE_putLE_same, Nat.mod_eq_of_lt (by omega)]
      simp
    · have h := ih (putLE buf (4 + 4 * i) 4 b.toNat) (i + 1)
      have he : ∀ j, i + 1 + j = i + (j + 1) := by intro j; omega
      simpa only [putBlocks, Function.comp_def, he] using h

/-- What `read_head` finds after `write_head` is what was in memory. -/
theorem getHead_putHead (buf : Block) (bs : List BlockNo) (h : bs.length < 2 ^ 31) :
    getHead (putHead buf bs) = bs := by
  have hn : getLE (putHead buf bs) 0 4 = bs.length := by
    rw [putHead, getLE_putBlocks_before _ _ _ _ (by omega), getLE_putLE_same, Nat.mod_eq_of_lt (by omega)]
  have hint : (BitVec.ofNat 32 bs.length).toInt.toNat = bs.length := by
    rw [BitVec.toInt_eq_toNat_cond, BitVec.toNat_ofNat, Nat.mod_eq_of_lt (by omega)]
    split <;> omega
  have hmap := getBlocks_putBlocks (putLE buf 0 4 bs.length) 0 bs
  simp only [Nat.zero_add] at hmap
  rw [getHead, hn, hint]
  exact hmap

/-- The part of `log_write` under `log.lock`. -/
def absorb (l : Log) (b : BlockNo) : Log :=
  let i := l.lh.findIdx (· == b)
  if i = l.lh.length then { l with lh := l.lh ++ [b] } else { l with lh := l.lh.set i b }

theorem findIdx_eq_length {bs : List BlockNo} {b : BlockNo} : bs.findIdx (· == b) = bs.length ↔ b ∉ bs := by
  rw [List.findIdx_eq_length]
  constructor
  · intro h hb
    have := h b hb
    simp at this
  · intro h x hx
    have hne : x ≠ b := by
      rintro rfl
      exact h hx
    simpa using hne

/-- Absorption: the list of logged blocks gains the block unless it is there already. -/
theorem absorb_eq (l : Log) (b : BlockNo) :
    absorb l b = { l with lh := if b ∈ l.lh then l.lh else l.lh ++ [b] } := by
  by_cases hb : b ∈ l.lh
  · have hlt : l.lh.findIdx (· == b) < l.lh.length := List.findIdx_lt_length_of_exists ⟨b, hb, by simp⟩
    have hget : l.lh[l.lh.findIdx (· == b)] = b := by simpa using List.findIdx_getElem (w := hlt)
    have hself := List.set_getElem_self hlt
    rw [hget] at hself
    simp only [absorb, Nat.ne_of_lt hlt, hb, ↓reduceIte, hself]
  · simp only [absorb, findIdx_eq_length.mpr hb, hb, ↓reduceIte]

/-- A `log_write` that nothing interrupts is its two checks and the absorption. -/
theorem logWrite_eq_ok {l l' : Log} {b : BlockNo} :
    logWrite l b = .ok l' ↔ l.lh.length < logSize ∧ (l.lh.length : Int) < l.size - 1 ∧
      1 ≤ l.outstanding ∧ l' = { l with lh := if b ∈ l.lh then l.lh else l.lh ++ [b] } := by
  have hlocked : logWrite l b = if logSize ≤ l.lh.length ∨ l.size - 1 ≤ l.lh.length then
      .error (.panic "too big a transaction")
    else if l.outstanding < 1 then .error (.panic "log_write outside of trans") else .ok (absorb l b) := by
    simp only [logWrite, absorb]
    split_ifs <;> rfl
  rw [hlocked, ← absorb_eq]
  split_ifs with hsize hout
  · simp only [false_iff]
    omega
  · simp only [false_iff]
    omega
  · simp only [Except.ok.injEq]
    constructor
    · rintro rfl
      exact ⟨by omega, by omega, by omega, rfl⟩
    · rintro ⟨-, -, -, rfl⟩
      rfl

end Xv6.RedoLog
