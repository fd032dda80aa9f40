import Xv6.Directory

/-!
# The disk in bytes

The file system as it lies on the disk: a block is its 512 bytes, numbers are stored with their low
byte first, and `struct dinode`, the free map and indirect blocks have the layout of `fs.h`.
`Image.store` is the kernel's view of an image. An indirect block of an inode is read as words and
every other block as bytes.
-/
namespace Xv6.FileBlocks

abbrev Image := ℕ → ℕ → ℕ

def byteOf (x j : ℕ) : ℕ := x/256^j%256

def half (buf : ℕ → ℕ) (o : ℕ) : ℕ := buf o+256*buf (o+1)

def word (buf : ℕ → ℕ) (o : ℕ) : ℕ := half buf o+65536*half buf (o+2)

variable {buf : ℕ → ℕ} {o : ℕ}

theorem half_eq {x : ℕ} (h : ∀ j < 2, buf (o+j) = byteOf x j) (hx : x < 2^16) :
    half buf o = x := by
  have h0 := h 0 (by decide)
  have h1 := h 1 (by decide)
  simp only [byteOf,Nat.add_zero] at h0 h1
  simp only [half,h0,h1]
  omega

theorem word_eq {x : ℕ} (h : ∀ j < 4, buf (o+j) = byteOf x j) (hx : x < 2^32) :
    word buf o = x := by
  have h0 := h 0 (by decide)
  have h1 := h 1 (by decide)
  have h2 := h 2 (by decide)
  have h3 := h 3 (by decide)
  simp only [byteOf,Nat.add_zero] at h0 h1 h2 h3
  simp only [word,half,Nat.add_assoc,Nat.reduceAdd,h0,h1,h2,h3]
  omega

variable {buf' : ℕ → ℕ}

theorem half_congr (h : ∀ j < 2, buf' (o+j) = buf (o+j)) :
    half buf' o = half buf o := by
  have h0 := h 0 (by decide)
  have h1 := h 1 (by decide)
  simp only [Nat.add_zero] at h0
  simp only [half,h0,h1]

theorem word_congr (h : ∀ j < 4, buf' (o+j) = buf (o+j)) :
    word buf' o = word buf o := by
  have hlow : half buf' o = half buf o := half_congr fun j hj => h j (by omega)
  have hhigh : half buf' (o+2) = half buf (o+2) := half_congr fun j hj => by
    have := h (2+j) (by omega)
    rwa [← Nat.add_assoc] at this
  simp only [word,hlow,hhigh]

/-! ## Inodes -/

def InodeType.code : InodeType → ℕ
  | .free => 0
  | .dir => 1
  | .file => 2
  | .dev => 3

def InodeType.ofCode : ℕ → InodeType
  | 1 => .dir
  | 2 => .file
  | 3 => .dev
  | _ => .free

theorem InodeType.ofCode_code (t : InodeType) : ofCode t.code = t := by
  cases t <;> rfl

/-- A `short` as the half word it is stored in. -/
def shortCode (x : ℤ) : ℕ := (x%2^16).toNat

def shortOf (x : ℕ) : ℤ := if x < 2^15 then x else x-2^16

theorem shortOf_shortCode {x : ℤ} (h : -2^15 ≤ x ∧ x < 2^15) : shortOf (shortCode x) = x := by
  unfold shortOf shortCode
  split_ifs <;> omega

theorem shortCode_lt (x : ℤ) : shortCode x < 2^16 := by
  unfold shortCode
  omega

def DISIZE : ℕ := 64

def Dinode.byte (di : Dinode) (j : ℕ) : ℕ :=
  if j < 2 then byteOf di.type.code j
  else if j < 4 then byteOf (shortCode di.major) (j-2)
  else if j < 6 then byteOf (shortCode di.minor) (j-4)
  else if j < 8 then byteOf (shortCode di.nlink) (j-6)
  else if j < 12 then byteOf di.size (j-8)
  else byteOf (di.addrs ((j-12)/4)) ((j-12)%4)

/-- The `struct dinode` at an offset of a block. -/
def Dinode.ofBytes (buf : ℕ → ℕ) (o : ℕ) : Dinode :=
  let addrs := (List.range (NDIRECT+1)).map fun k => word buf (o+12+4*k)
  { type := .ofCode (half buf o)
    major := shortOf (half buf (o+2))
    minor := shortOf (half buf (o+4))
    nlink := shortOf (half buf (o+6))
    size := word buf (o+8)
    addrs := fun k => addrs.getD k 0 }

theorem Dinode.ofBytes_addrs (buf : ℕ → ℕ) (o k : ℕ) :
    ((List.range (NDIRECT+1)).map fun k => word buf (o+12+4*k)).getD k 0 =
      if k ≤ NDIRECT then word buf (o+12+4*k) else 0 := by
  by_cases hk : k < NDIRECT+1
  · simp [hk,Nat.lt_succ_iff.mp hk]
  · rw [if_neg (by omega)]
    simp [hk]

/-- The fields of an inode fit into their places. -/
structure Dinode.Fits (di : Dinode) : Prop where
  major : -2^15 ≤ di.major ∧ di.major < 2^15
  minor : -2^15 ≤ di.minor ∧ di.minor < 2^15
  nlink : -2^15 ≤ di.nlink ∧ di.nlink < 2^15
  size : di.size < 2^32
  addrs : ∀ k, di.addrs k < 2^32
  rest : ∀ k, NDIRECT < k → di.addrs k = 0

theorem Dinode.ofBytes_byte {di : Dinode} (h : di.Fits)
    (hb : ∀ j < DISIZE, buf (o+j) = di.byte j) : Dinode.ofBytes buf o = di := by
  have hhalf : ∀ p x, p+2 ≤ DISIZE → x < 2^16 → (∀ j < 2, di.byte (p+j) = byteOf x j) →
      half buf (o+p) = x := fun p x hp hx hbyte => half_eq (fun j hj => by
    rw [Nat.add_assoc,hb (p+j) (by omega),hbyte j hj]) hx
  have hword : ∀ p x, p+4 ≤ DISIZE → x < 2^32 → (∀ j < 4, di.byte (p+j) = byteOf x j) →
      word buf (o+p) = x := fun p x hp hx hbyte => word_eq (fun j hj => by
    rw [Nat.add_assoc,hb (p+j) (by omega),hbyte j hj]) hx
  have htype := hhalf 0 di.type.code (by decide) (by cases di.type <;> decide) fun j hj => by
    rw [Dinode.byte,if_pos (by omega),Nat.zero_add]
  have hmajor := hhalf 2 (shortCode di.major) (by decide) (shortCode_lt _) fun j hj => by
    rw [Dinode.byte,if_neg (by omega),if_pos (by omega),Nat.add_sub_cancel_left]
  have hminor := hhalf 4 (shortCode di.minor) (by decide) (shortCode_lt _) fun j hj => by
    rw [Dinode.byte,if_neg (by omega),if_neg (by omega),if_pos (by omega),Nat.add_sub_cancel_left]
  have hnlink := hhalf 6 (shortCode di.nlink) (by decide) (shortCode_lt _) fun j hj => by
    rw [Dinode.byte,if_neg (by omega),if_neg (by omega),if_neg (by omega),if_pos (by omega),
      Nat.add_sub_cancel_left]
  have hsize := hword 8 di.size (by decide) h.size fun j hj => by
    rw [Dinode.byte,if_neg (by omega),if_neg (by omega),if_neg (by omega),if_neg (by omega),
      if_pos (by omega),Nat.add_sub_cancel_left]
  have haddr : ∀ k, (if k ≤ NDIRECT then word buf (o+12+4*k) else 0) = di.addrs k := by
    intro k
    split_ifs with hk
    · rw [Nat.add_assoc]
      refine hword (12+4*k) _ (by simp only [NDIRECT,DISIZE] at *; omega) (h.addrs k) fun j hj => ?_
      have hdiv : (12+4*k+j-12)/4 = k := by omega
      have hmod : (12+4*k+j-12)%4 = j := by omega
      rw [Dinode.byte,if_neg (by omega),if_neg (by omega),if_neg (by omega),if_neg (by omega),
        if_neg (by omega),hdiv,hmod]
    · exact (h.rest k (not_le.mp hk)).symm
  rw [Nat.add_zero] at htype
  cases di with
  | mk type major minor nlink =>
    simp only [Dinode.ofBytes,Dinode.ofBytes_addrs,htype,hmajor,hminor,hnlink,hsize,haddr]
    congr 1
    · exact InodeType.ofCode_code _
    · exact shortOf_shortCode h.major
    · exact shortOf_shortCode h.minor
    · exact shortOf_shortCode h.nlink

theorem Dinode.ofBytes_congr (h : ∀ j < DISIZE, buf' (o+j) = buf (o+j)) :
    Dinode.ofBytes buf' o = Dinode.ofBytes buf o := by
  have hhalf : ∀ p, p+2 ≤ DISIZE → half buf' (o+p) = half buf (o+p) := fun p hp =>
    half_congr fun j hj => by
      rw [Nat.add_assoc]
      exact h (p+j) (by omega)
  have hword : ∀ p, p+4 ≤ DISIZE → word buf' (o+p) = word buf (o+p) := fun p hp =>
    word_congr fun j hj => by
      rw [Nat.add_assoc]
      exact h (p+j) (by omega)
  have haddr : (fun k => if k ≤ NDIRECT then word buf' (o+12+4*k) else 0) =
      fun k => if k ≤ NDIRECT then word buf (o+12+4*k) else 0 := by
    funext k
    split_ifs with hk
    · rw [Nat.add_assoc]
      exact hword (12+4*k) (by simp only [NDIRECT,DISIZE] at *; omega)
    · rfl
  have h0 := hhalf 0 (by decide)
  rw [Nat.add_zero] at h0
  simp only [Dinode.ofBytes,Dinode.ofBytes_addrs,h0,hhalf 2 (by decide),hhalf 4 (by decide),hhalf 6 (by decide),
    hword 8 (by decide),haddr]

/-! ## The kernel's view -/

/-- `readsb`: the fields are words in the order of `struct superblock`. -/
def readsb (img : Image) : Superblock where
  size := word (img 1) 0
  nblocks := word (img 1) 4
  ninodes := word (img 1) 8
  inodestart := word (img 1) 20
  bmapstart := word (img 1) 24

def Image.dinode (sb : Superblock) (img : Image) (i : ℕ) : Dinode :=
  .ofBytes (img (IBLOCK sb i)) (DISIZE*(i%IPB))

def Image.indirects (sb : Superblock) (img : Image) : List ℕ :=
  (List.range sb.ninodes).map fun i => (img.dinode sb i).addrs NDIRECT

/-- What the buffer cache shows of an image, with `n` operations open. -/
def Image.store (sb : Superblock) (img : Image) (n : ℕ) : Store :=
  let indirects := img.indirects sb
  { outstanding := n
    inodes := fun b k => .ofBytes (img b) (DISIZE*k)
    bits := fun b k => (img b (k/8)).testBit (k%8)
    data := fun b j => if b ∈ indirects then word (img b) (4*j) else img b j }

end Xv6.FileBlocks
