import Xv6.Ownership

/-!
# Blocks of files

The lower half of `fs.c`: the free map, the on-disk inodes, and the functions that find and add the
blocks of one inode. `Store` is what the buffer cache shows: inode blocks as slots of
`struct dinode`, map blocks as bits, and every other block as its contents. A block holds bytes of a
file or the words of an indirect block, and `balloc` clears it in between, so one map serves both.

A panic is an error with the message of the source; that of `log_write` is for a call outside of an
operation. The functions below run with the inode locked.
-/
namespace Xv6.FileBlocks
open Function (update)

def BSIZE : ℕ := 512

def NDIRECT : ℕ := 12

def NINDIRECT : ℕ := 128

def MAXFILE : ℕ := NDIRECT+NINDIRECT

def IPB : ℕ := 8

def BPB : ℕ := BSIZE*8

def MAXOPBLOCKS : ℕ := 10

/-- The type of an inode. A free inode has type zero. -/
inductive InodeType
  | free
  | dir
  | file
  | dev
  deriving DecidableEq,Repr

structure Superblock where
  size : ℕ
  nblocks : ℕ
  ninodes : ℕ
  inodestart : ℕ
  bmapstart : ℕ

/-- The fields of `struct dinode`, which `struct inode` repeats. The entries of
`addrs` up to `NDIRECT` are in use. -/
structure Dinode where
  type : InodeType
  major : ℤ
  minor : ℤ
  nlink : ℤ
  size : ℕ
  addrs : ℕ → ℕ

def Dinode.zero : Dinode := ⟨.free,0,0,0,0,fun _ => 0⟩

/-- The contents of the blocks, and the number of open operations of the log. -/
structure Store where
  outstanding : ℕ
  inodes : ℕ → ℕ → Dinode
  bits : ℕ → ℕ → Bool
  data : ℕ → ℕ → ℕ

/-- The first block of the data area: `mkfs` makes it `size-nblocks`. -/
def Superblock.dataStart (sb : Superblock) : ℕ := sb.size-sb.nblocks

def IBLOCK (sb : Superblock) (i : ℕ) : ℕ := i/IPB+sb.inodestart

def BBLOCK (sb : Superblock) (b : ℕ) : ℕ := b/BPB+sb.bmapstart

variable (sb : Superblock)

def Store.dinode (st : Store) (i : ℕ) : Dinode := st.inodes (IBLOCK sb i) (i%IPB)

def Store.setDinode (st : Store) (i : ℕ) (di : Dinode) : Store :=
  let slots := update (st.inodes (IBLOCK sb i)) (i%IPB) di
  {st with inodes := update st.inodes (IBLOCK sb i) slots}

def Store.used (st : Store) (b : ℕ) : Bool := st.bits (BBLOCK sb b) (b%BPB)

def Store.mark (st : Store) (b : ℕ) (v : Bool) : Store :=
  let bits := update (st.bits (BBLOCK sb b)) (b%BPB) v
  {st with bits := update st.bits (BBLOCK sb b) bits}

def Store.fill (st : Store) (b : ℕ) (c : ℕ → ℕ) : Store := {st with data := update st.data b c}

def logWrite (st : Store) : Except String Store :=
  if st.outstanding < 1 then .error "log_write outside of trans" else .ok st

/-- `balloc`: the two loops visit the blocks in order. -/
def balloc (st : Store) : Except String (ℕ×Store) :=
  match (List.range sb.size).find? fun b => !st.used sb b with
  | none => .error "balloc: out of blocks"
  | some b => do
      let st ← logWrite (st.mark sb b true)
      .ok (b,st.fill b fun _ => 0)

/-- `iupdate`: copy the in-memory inode to its slot. -/
def iupdate (st : Store) (i : ℕ) (di : Dinode) : Except String Store :=
  logWrite (st.setDinode sb i di)

def fillAddr (st : Store) (di : Dinode) (k : ℕ) : Except String (ℕ×Dinode×Store) :=
  if di.addrs k = 0 then do
    let (a,st) ← balloc sb st
    .ok (a,{di with addrs := update di.addrs k a},st)
  else .ok (di.addrs k,di,st)

def fillWord (st : Store) (ind j : ℕ) : Except String (ℕ×Store) :=
  if st.data ind j = 0 then do
    let (a,st) ← balloc sb st
    let st ← logWrite (st.fill ind (update (st.data ind) j a))
    .ok (a,st)
  else .ok (st.data ind j,st)

def bmap (st : Store) (di : Dinode) (bn : ℕ) : Except String (ℕ×Dinode×Store) :=
  if bn < NDIRECT then fillAddr sb st di bn
  else if bn-NDIRECT < NINDIRECT then do
    let (ind,di,st) ← fillAddr sb st di NDIRECT
    let (a,st) ← fillWord sb st ind (bn-NDIRECT)
    .ok (a,di,st)
  else .error "bmap: out of range"

def readLoop : ℕ → Store → Dinode → ℕ → ℕ → Except String (List ℕ×Dinode×Store)
  | 0,st,di,_,_ => .ok ([],di,st)
  | fuel+1,st,di,off,n =>
    if n = 0 then .ok ([],di,st) else do
      let (a,di,st) ← bmap sb st di (off/BSIZE)
      let m := min n (BSIZE-off%BSIZE)
      let bytes := (List.range m).map fun j => st.data a (off%BSIZE+j)
      let (rest,di,st) ← readLoop fuel st di (off+m) (n-m)
      .ok (bytes++rest,di,st)

/-- `readi` of a file or directory. The result is the bytes read, or nothing for
-1. -/
def readi (st : Store) (di : Dinode) (off n : ℕ) : Except String (Option (List ℕ)×Dinode×Store) :=
  if off > di.size ∨ (off+n)%2^32 < off then .ok (none,di,st)
  else do
    let n := if (off+n)%2^32 > di.size then di.size-off else n
    let (bytes,di,st) ← readLoop sb n st di off n
    .ok (some bytes,di,st)

/-- The contents of a block after `memmove(bp->data + o, src, m)`. -/
def splice (c : ℕ → ℕ) (o m : ℕ) (src : List ℕ) (j : ℕ) : ℕ :=
  if o ≤ j ∧ j < o+m then src.getD (j-o) 0 else c j

def writeLoop : ℕ → Store → Dinode → ℕ → List ℕ → Except String (Dinode×Store)
  | 0,st,di,_,_ => .ok (di,st)
  | fuel+1,st,di,off,src =>
    if src = [] then .ok (di,st) else do
      let (a,di,st) ← bmap sb st di (off/BSIZE)
      let m := min src.length (BSIZE-off%BSIZE)
      let st ← logWrite (st.fill a (splice (st.data a) (off%BSIZE) m src))
      writeLoop fuel st di (off+m) (src.drop m)

/-- `writei` of a file or directory. The result is the number of bytes written, or
nothing for -1. -/
def writei (st : Store) (i : ℕ) (di : Dinode) (off : ℕ) (src : List ℕ) :
    Except String (Option ℕ×Dinode×Store) :=
  if off > di.size ∨ (off+src.length)%2^32 < off then .ok (none,di,st)
  else if (off+src.length)%2^32 > MAXFILE*BSIZE then .ok (none,di,st)
  else do
    let (di,st) ← writeLoop sb src.length st di off src
    if 0 < src.length ∧ off+src.length > di.size then do
      let di := {di with size := off+src.length}
      let st ← iupdate sb st i di
      .ok (some src.length,di,st)
    else .ok (some src.length,di,st)

end Xv6.FileBlocks
