import Xv6.RedoLog

/-!
# The file system on the disk

`fs.c` below the inode cache, on the disk as the buffer cache shows it. Every change goes through
`log_write`. A function gets the inode it works on as its caller has it in memory and returns what
it made of it. The scan of `balloc` over the bitmap blocks is a scan over the block numbers; `readi`
and `writei` are those of an inode that is no device.
-/
namespace Xv6.FileSystem

open Words Bytes RedoLog Function

def bsize : Nat := 512
def ndirect : Nat := 12
def nindirect : Nat := 128
def maxfile : Nat := ndirect + nindirect

def bpb : Nat := bsize * 8
def ipb : Nat := 8

structure Superblock where
  size : Nat
  nblocks : Nat
  ninodes : Nat
  inodestart : Nat
  bmapstart : Nat
  deriving DecidableEq, Repr

structure Dinode where
  type : BitVec 16
  major : BitVec 16
  minor : BitVec 16
  nlink : BitVec 16
  size : Nat
  addrs : Nat → Nat

structure Fs where
  sb : Superblock
  bitmap : Nat → Bool
  dinodes : Nat → Dinode
  data : Nat → Buffer
  log : Log

def bblock (sb : Superblock) (b : Nat) : Nat := b / bpb + sb.bmapstart
def iblock (sb : Superblock) (inum : Nat) : Nat := inum / ipb + sb.inodestart

def bno (b : Nat) : BlockNo := BitVec.ofNat 32 b

def logWrite (fs : Fs) (b : Nat) : Except Trap Fs := do
  let l ← RedoLog.logWrite fs.log (bno b)
  .ok { fs with log := l }

def setBlock (fs : Fs) (b : Nat) (v : Buffer) : Fs := { fs with data := update fs.data b v }

def bzero (fs : Fs) (b : Nat) : Except Trap Fs := logWrite (setBlock fs b (fun _ => 0)) b

def setBit (fs : Fs) (b : Nat) (v : Bool) : Fs := { fs with bitmap := update fs.bitmap b v }

def balloc (fs : Fs) : Except Trap (Fs × Nat) :=
  match (List.range fs.sb.size).find? (fun b => !fs.bitmap b) with
  | none => .error (.panic "balloc: out of blocks")
  | some b => do
    let fs ← logWrite (setBit fs b true) (bblock fs.sb b)
    let fs ← bzero fs b
    .ok (fs, b)

def bfree (fs : Fs) (b : Nat) : Except Trap Fs :=
  if fs.bitmap b = false then .error (.panic "freeing free block")
  else logWrite (setBit fs b false) (bblock fs.sb b)

def iupdate (fs : Fs) (inum : Nat) (ip : Dinode) : Except Trap Fs :=
  logWrite { fs with dinodes := update fs.dinodes inum ip } (iblock fs.sb inum)

def freshInode (type : BitVec 16) : Dinode := ⟨type, 0, 0, 0, 0, fun _ => 0⟩

def ialloc (fs : Fs) (type : BitVec 16) : Except Trap (Fs × Nat) :=
  match (List.range fs.sb.ninodes).find? (fun inum => 1 ≤ inum ∧ (fs.dinodes inum).type = 0) with
  | none => .error (.panic "ialloc: no inodes")
  | some inum => do
    let fs ← iupdate fs inum (freshInode type)
    .ok (fs, inum)

/-- `a[j]` of a block read as an array of `uint`. -/
def word (v : Buffer) (j : Nat) : Nat := getLE v (4 * j) 4
def setWord (v : Buffer) (j a : Nat) : Buffer := putLE v (4 * j) 4 a

def setAddr (ip : Dinode) (k b : Nat) : Dinode := { ip with addrs := update ip.addrs k b }

/-- A block for entry `k` of `addrs` if there is none. -/
def addrAt (fs : Fs) (ip : Dinode) (k : Nat) : Except Trap (Fs × Dinode × Nat) :=
  if ip.addrs k = 0 then do
    let (fs, b) ← balloc fs
    .ok (fs, setAddr ip k b, b)
  else .ok (fs, ip, ip.addrs k)

def bmap (fs : Fs) (ip : Dinode) (bn : Nat) : Except Trap (Fs × Dinode × Nat) :=
  if bn < ndirect then addrAt fs ip bn
  else if bn - ndirect < nindirect then do
    let (fs, ip, ind) ← addrAt fs ip ndirect
    if word (fs.data ind) (bn - ndirect) = 0 then do
      let (fs, b) ← balloc fs
      let fs ← logWrite (setBlock fs ind (setWord (fs.data ind) (bn - ndirect) b)) ind
      .ok (fs, ip, b)
    else .ok (fs, ip, word (fs.data ind) (bn - ndirect))
  else .error (.panic "bmap: out of range")

def truncDirect : List Nat → Fs → Dinode → Except Trap (Fs × Dinode)
  | [], fs, ip => .ok (fs, ip)
  | i :: rest, fs, ip =>
    if ip.addrs i = 0 then truncDirect rest fs ip
    else do
      let fs ← bfree fs (ip.addrs i)
      truncDirect rest fs (setAddr ip i 0)

def truncIndirect (a : Buffer) : List Nat → Fs → Except Trap Fs
  | [], fs => .ok fs
  | j :: rest, fs =>
    if word a j = 0 then truncIndirect a rest fs
    else do
      let fs ← bfree fs (word a j)
      truncIndirect a rest fs

def itrunc (fs : Fs) (inum : Nat) (ip : Dinode) : Except Trap (Fs × Dinode) := do
  let (fs, ip) ← truncDirect (List.range ndirect) fs ip
  let (fs, ip) ←
    if ip.addrs ndirect = 0 then .ok (fs, ip)
    else do
      let fs ← truncIndirect (fs.data (ip.addrs ndirect)) (List.range nindirect) fs
      let fs ← bfree fs (ip.addrs ndirect)
      .ok (fs, setAddr ip ndirect 0)
  let ip := { ip with size := 0 }
  let fs ← iupdate fs inum ip
  .ok (fs, ip)

def store (v : Buffer) (o : Nat) (src : List Byte) : Buffer :=
    fun i => if o ≤ i then (src[i - o]?).getD (v i) else v i

def slice (v : Buffer) (o m : Nat) : List Byte := (List.range m).map (fun i => v (o + i))

/-- How far an access at `off` goes in its block. -/
def span (off n : Nat) : Nat := min n (bsize - off % bsize)

theorem span_pos (off : Nat) {n : Nat} (h : 0 < n) : 0 < span off n := by
  have hlt : off % bsize < bsize := Nat.mod_lt _ (by decide)
  simp only [span]
  omega

def readLoop (fs : Fs) (ip : Dinode) (off n : Nat) : Except Trap (Fs × Dinode × List Byte) :=
  if _h : 0 < n then do
    let (fs, ip, b) ← bmap fs ip (off / bsize)
    let (fs', ip', dst) ← readLoop fs ip (off + span off n) (n - span off n)
    .ok (fs', ip', slice (fs.data b) (off % bsize) (span off n) ++ dst)
  else .ok (fs, ip, [])
termination_by n
decreasing_by
  have hpos := span_pos off _h
  omega

/-- `readi`; `none` is the result -1. -/
def readi (fs : Fs) (ip : Dinode) (off n : Nat) : Except Trap (Fs × Dinode × Option (List Byte)) :=
  if ip.size < off ∨ (off + n) % 2 ^ 32 < off then .ok (fs, ip, none)
  else do
    let n := if ip.size < (off + n) % 2 ^ 32 then ip.size - off else n
    let (fs, ip, dst) ← readLoop fs ip off n
    .ok (fs, ip, some dst)

def writeLoop (fs : Fs) (ip : Dinode) (off : Nat) (src : List Byte) : Except Trap (Fs × Dinode) :=
  if _h : 0 < src.length then do
    let (fs, ip, b) ← bmap fs ip (off / bsize)
    let m := span off src.length
    let fs ← logWrite (setBlock fs b (store (fs.data b) (off % bsize) (src.take m))) b
    writeLoop fs ip (off + m) (src.drop m)
  else .ok (fs, ip)
termination_by src.length
decreasing_by
  have hpos := span_pos off _h
  simp only [List.length_drop]
  omega

def writei (fs : Fs) (inum : Nat) (ip : Dinode) (src : List Byte) (off : Nat) : Except Trap (Fs × Dinode × Int) :=
  if ip.size < off ∨ (off + src.length) % 2 ^ 32 < off then .ok (fs, ip, -1)
  else if maxfile * bsize < (off + src.length) % 2 ^ 32 then .ok (fs, ip, -1)
  else do
    let (fs, ip) ← writeLoop fs ip off src
    if 0 < src.length ∧ ip.size < off + src.length then do
      let ip := { ip with size := off + src.length }
      let fs ← iupdate fs inum ip
      .ok (fs, ip, src.length)
    else .ok (fs, ip, src.length)

end Xv6.FileSystem
