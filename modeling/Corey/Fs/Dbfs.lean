import Corey.Lib.Bytes
import Corey.Lib.System
import Corey.Mem.Page

/-!
The disk file system (`fs/dbfs.c`).

A block is 4096 bytes. Block 0 is the superblock, a bitmap of the blocks in use. An inode is a
block too, with the length of the file at byte 8 and the numbers of its data blocks, `DBLOCKS`
= 256 of them, from byte 16 on; block 1 is the inode of the root directory. A directory entry
is 72 bytes, a name of `FS_NAME_LEN` = 64 bytes and an inode number. The disk reads back what
was written to it. An index beyond `dblocks` and a copy of a negative length stop the program
(`Stop.gone`).
-/

namespace Corey.Fs.Dbfs

open Corey.Comp

abbrev Disk := Bytes
abbrev DM := Comp Errno Disk

/-- A sector number has 28 bits. -/
def capacity : ℕ := 2 ^ 37

def echeck {α : Type} (m : DM α) : DM α := do
  match ← attempt m with
  | .ok a => pure a
  | .error _ => halt .panic

def nblocks (i : ℕ) : ℕ := (i + 4095) % 2 ^ 64 / 4096

def diskRead (offset nbytes : ℕ) : DM Bytes :=
  if offset % 512 ≠ 0 ∨ nbytes % 512 ≠ 0 then raise .inval
  else if capacity < offset + nbytes then raise .io
  else do return (← state).start offset

def diskWrite (offset nbytes : ℕ) (buf : Bytes) : DM Unit :=
  if offset % 512 ≠ 0 ∨ nbytes % 512 ≠ 0 then raise .inval
  else if capacity < offset + nbytes then raise .io
  else change fun d => d.put offset buf nbytes

def address (block off : ℕ) : ℕ := (4096 * block + off) % 2 ^ 64

def readInode (inode : ℕ) : DM Bytes := echeck (diskRead (address inode 0) 4096)

/-- `memcpy` with a length that may be negative. -/
def memcpy (dst : Bytes) (i : ℕ) (src : Bytes) (count : ℤ) : DM Bytes :=
  if count < 0 then halt .gone else pure (dst.put i src count.toNat)

/-- Reads to `buf + pos`. -/
def readBlock (block : ℕ) (buf : Bytes) (pos off : ℕ) (count : ℤ) : DM Bytes := do
  require (off ≤ 4096 ∧ count ≤ 4096)
  if off % 512 = 0 ∧ count % 512 = 0 then
    memcpy buf pos (← diskRead (address block off) count.toNat) count
  else
    memcpy buf pos (← echeck (diskRead (address block off) 4096)) count

def writeBlock (block : ℕ) (buf : Bytes) (off : ℕ) (count : ℤ) : DM Unit := do
  require (off ≤ 4096 ∧ count ≤ 4096)
  if off % 512 = 0 ∧ count % 512 = 0 then
    if count < 0 then halt .gone
    else echeck (diskWrite (address block off) count.toNat buf)
  else do
    let tmp ← echeck (readBlock block (fun _ => 0) 0 0 4096)
    let tmp ← memcpy tmp off buf count
    echeck (diskWrite (address block 0) 4096 tmp)

def used (superblock : Bytes) (k : ℕ) : Bool := (superblock (k / 8)).getLsbD (k % 8)

def mark (superblock : Bytes) (k : ℕ) : Bytes :=
  Function.update superblock (k / 8) (superblock (k / 8) ||| 1#8 <<< (k % 8))

def allocBlock : DM ℕ := do
  let superblock ← echeck (diskRead 0 4096)
  match (List.range' 0 (4096 * 8)).find? fun k => !used superblock k with
  | none => raise .noSpace
  | some k => do
    echeck (diskWrite 0 4096 (mark superblock k))
    pure k

def inodeLen (ino : Bytes) : ℕ := ino.word 8

def dblock (ino : Bytes) (i : ℕ) : ℕ := ino.word (16 + 8 * i)

/-- The loop of `dbfs_truncate`, `k` more rounds. -/
def growLoop : ℕ → ℕ → Bytes → DM Bytes
  | 0, _, ino => pure ino
  | k + 1, i, ino => do
    let block ← echeck allocBlock
    if i < 256 then growLoop k (i + 1) (ino.putWord (16 + 8 * i) block) else halt .gone

/-- The branch of `dbfs_truncate` for a larger size. -/
def grow (ino : Bytes) (newSize : ℕ) : DM Bytes :=
  if inodeLen ino < newSize then
    growLoop (nblocks newSize - nblocks (inodeLen ino)) (nblocks (inodeLen ino)) ino
  else pure ino

def truncate (inode newSize : ℕ) : DM Unit := do
  let ino ← readInode inode
  if newSize < inodeLen ino then raise .inval
  else do
    let ino ← grow ino newSize
    writeBlock inode (ino.putWord 8 newSize) 0 4096

/-- The macro `DO_BLOCKS`, `k` more rounds: `op` gets the block, the position in the caller's
buffer, and the piece of the block. -/
def doBlocks {β : Type} (op : ℕ → ℕ → ℕ → ℤ → β → DM β) (ino : Bytes) (off fin : ℕ) :
    ℕ → ℕ → ℕ → β → DM β
  | 0, _, _, r => pure r
  | k + 1, i, pos, r => do
    let blkoff := if i = off / 4096 then off % 4096 else 0
    let blklen : ℤ := (min (fin - i * 4096) 4096 : ℕ) - (blkoff : ℤ)
    if i < 256 then do
      let r ← echeck (op (dblock ino i) pos blkoff blklen r)
      doBlocks op ino off fin k (i + 1) (pos + blklen.toNat) r
    else halt .gone

def pread (inode : ℕ) (buf : Bytes) (count off : ℕ) : DM (ℕ × Bytes) := do
  let ino ← readInode inode
  let fin := min (inodeLen ino) ((off + count) % 2 ^ 64)
  let len := (fin + 2 ^ 64 - off) % 2 ^ 64
  require (len ≤ count)
  let buf ← doBlocks (fun block pos blkoff blklen r => readBlock block r pos blkoff blklen)
    ino off fin (nblocks fin - off / 4096) (off / 4096) 0 buf
  return (len, buf)

/-- The first part of `dbfs_file_pwrite`: a file that is too short grows. -/
def extend (inode fin : ℕ) : DM Bytes := do
  let ino ← readInode inode
  if inodeLen ino < fin then do
    echeck (truncate inode fin)
    readInode inode
  else pure ino

@[irreducible] def pwrite (inode : ℕ) (buf : Bytes) (count off : ℕ) : DM ℕ := do
  let fin := (off + count) % 2 ^ 64
  let ino ← extend inode fin
  doBlocks (fun block pos blkoff blklen _ => writeBlock block (buf.start pos) blkoff blklen)
    ino off fin (nblocks fin - off / 4096) (off / 4096) 0 ()
  return count

def cstring (fn : List Byte) : Bytes := fun k => fn[k]?.getD 0

/-- `struct dbfs_dent` -/
def dent (fn : List Byte) (inode : ℕ) : Bytes :=
  Bytes.putWord (fun k => if k < 63 then cstring fn k else 0) 64 inode

/-- `junk` is what the new inode held on the stack. -/
@[irreducible] def create (dir : ℕ) (fn : List Byte) (junk : Bytes) : DM ℕ := do
  let ino ← readInode dir
  let inode ← attempt allocBlock
  -- the error number `E_NO_SPACE` is not looked at
  let inode := match inode with
    | .ok k => k
    | .error _ => 2 ^ 64 - 8
  let _ ← echeck (pwrite dir (dent fn inode) 72 (inodeLen ino))
  writeBlock inode (junk.putWord 8 0) 0 4096
  return inode

/-- `0 == strcmp(b, fn)`, of a name without zero bytes -/
def strEq (b : Bytes) (fn : List Byte) : Bool :=
  (List.range (fn.length + 1)).all fun k => b k == cstring fn k

/-- The entry with a name in block `i` of a directory. -/
def findDent (dir : Bytes) (len i : ℕ) (fn : List Byte) : Option ℕ :=
  (List.range (4096 / 72)).find? fun j =>
    4096 * i + 72 * j < len && strEq (dir.start (72 * j)) fn

def dirLookupLoop (ino : Bytes) (fn : List Byte) : ℕ → ℕ → DM ℕ
  | 0, _ => raise .notFound
  | k + 1, i =>
    if i < 256 then do
      let dir ← echeck (readBlock (dblock ino i) (fun _ => 0) 0 0 4096)
      match findDent dir (inodeLen ino) i fn with
      | some j => pure (dir.word (72 * j + 64))
      | none => dirLookupLoop ino fn k (i + 1)
    else halt .gone

def dirLookup (inode : ℕ) (fn : List Byte) : DM ℕ := do
  let ino ← readInode inode
  dirLookupLoop ino fn (nblocks (inodeLen ino)) 0

/-- `dbfs_init` with `reset` -/
def init (junk : Bytes) : DM Unit := do
  echeck (diskWrite 0 4096 fun k => if k = 0 then 3 else 0)
  writeBlock 1 (junk.putWord 8 0) 0 4096

end Corey.Fs.Dbfs
