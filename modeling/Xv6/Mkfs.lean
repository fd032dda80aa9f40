import Xv6.DiskFormat

/-!
# mkfs

`mkfs.c` writes the first file system image. It allocates inodes and blocks by counting upwards,
appends to files with `iappend`, and writes the free map at the end. The image is bytes, and `rsect`
and `wsect` move whole blocks of it. A failed assertion ends `mkfs` without an image.
-/
namespace Xv6.FileBlocks
open Function (update update_self update_of_ne)

/-! ## The program -/

def NINODES : ℕ := 200

def FSSIZE : ℕ := 1000

def nlog : ℕ := MAXOPBLOCKS*3

def nbitmap : ℕ := FSSIZE/(BSIZE*8)+1

def ninodeblocks : ℕ := NINODES/IPB+1

def nmeta : ℕ := 2+nlog+ninodeblocks+nbitmap

/-- The fields of `sb` that the kernel reads back. -/
def mkfsSb : Superblock where
  size := FSSIZE
  nblocks := FSSIZE-nmeta
  ninodes := NINODES
  inodestart := 2+nlog
  bmapstart := 2+nlog+ninodeblocks

def xshort (x : ℕ) : ℕ := byteOf x 0+256*byteOf x 1

def xint (x : ℕ) : ℕ := byteOf x 0+256*byteOf x 1+65536*(byteOf x 2+256*byteOf x 3)

structure Mk where
  img : Image
  freeinode : ℕ
  freeblock : ℕ

def Mk.wsect (m : Mk) (sec : ℕ) (buf : ℕ → ℕ) : Mk := {m with img := update m.img sec buf}

/-- The image has `FSSIZE` blocks, and a read behind its end fails. -/
def Mk.rsect (m : Mk) (sec : ℕ) : Option (ℕ → ℕ) := if sec < FSSIZE then some (m.img sec) else none

def Mk.block (m : Mk) : ℕ × Mk := (m.freeblock,{m with freeblock := m.freeblock+1})

def rinode (m : Mk) (inum : ℕ) : Option Dinode := do
  let buf ← m.rsect (IBLOCK mkfsSb inum)
  some (.ofBytes buf (DISIZE*(inum%IPB)))

def putDinode (buf : ℕ → ℕ) (k : ℕ) (di : Dinode) (j : ℕ) : ℕ :=
  if j/DISIZE = k then di.byte (j%DISIZE) else buf j

def winode (m : Mk) (inum : ℕ) (di : Dinode) : Option Mk := do
  let buf ← m.rsect (IBLOCK mkfsSb inum)
  some (m.wsect (IBLOCK mkfsSb inum) (putDinode buf (inum%IPB) di))

def mkIalloc (m : Mk) (type : InodeType) : Option (ℕ × Mk) := do
  let inum := m.freeinode
  let din := {Dinode.zero with type := type, nlink := xshort 1, size := xint 0}
  let m ← winode {m with freeinode := m.freeinode+1} inum din
  some (inum,m)

def putWord (buf : ℕ → ℕ) (k x : ℕ) (j : ℕ) : ℕ := if j/4 = k then byteOf x (j%4) else buf j

def fileAddr (m : Mk) (din : Dinode) (k : ℕ) : ℕ × Dinode × Mk :=
  if xint (din.addrs k) = 0 then
    let (a,m) := m.block
    let din := {din with addrs := update din.addrs k (xint a)}
    (xint (din.addrs k),din,m)
  else (xint (din.addrs k),din,m)

def fileWord (m : Mk) (ind k : ℕ) : Option (ℕ × Mk) := do
  let indirect ← m.rsect ind
  if word indirect (4*k) = 0 then
    let (a,m) := m.block
    let m := m.wsect ind (putWord indirect k (xint a))
    some (xint (xint a),m)
  else some (xint (word indirect (4*k)),m)

/-- The block of `iappend` for a block of the file. -/
def fileBlock (m : Mk) (din : Dinode) (fbn : ℕ) : Option (ℕ × Dinode × Mk) :=
  if fbn < NDIRECT then some (fileAddr m din fbn)
  else do
    let (ind,din,m) := fileAddr m din NDIRECT
    let (x,m) ← fileWord m ind (fbn-NDIRECT)
    some (x,din,m)

def iappendLoop : ℕ → Mk → Dinode → ℕ → List ℕ → Option (Dinode × Mk)
  | 0,m,din,_,_ => some (din,m)
  | fuel+1,m,din,off,src =>
    if src = [] then some (din,m)
    else
      let fbn := off/BSIZE
      if fbn < MAXFILE then do
        let (x,din,m) ← fileBlock m din fbn
        let n1 := min src.length ((fbn+1)*BSIZE-off)
        let buf ← m.rsect x
        let m := m.wsect x (splice buf (off-fbn*BSIZE) n1 src)
        iappendLoop fuel m din (off+n1) (src.drop n1)
      else none

def iappend (m : Mk) (inum : ℕ) (src : List ℕ) : Option Mk := do
  let din ← rinode m inum
  let off := xint din.size
  let (din,m) ← iappendLoop src.length m din off src
  winode m inum {din with size := xint (off+src.length)}

/-- The free map: the first `used` bits are set. -/
def mkBalloc (m : Mk) (used : ℕ) : Option Mk :=
  if used < BSIZE*8 then
    let buf := (List.range used).foldl
      (fun buf i => update buf (i/8) (buf (i/8) ||| (1 <<< (i%8)))) fun _ => 0
    some (m.wsect mkfsSb.bmapstart buf)
  else none

/-- A file to be copied: its name and what the calls of `read` return. -/
structure InputFile where
  name : List ℕ
  chunks : List (List ℕ)

def InputFile.target (f : InputFile) : List ℕ := if f.name.headD 0 = 95 then f.name.tail else f.name

def InputFile.contents (f : InputFile) : List ℕ := f.chunks.flatten

/-- The bytes of a cleared `struct dirent` with its two fields set. -/
def direntBytes (inum : ℕ) (name : List ℕ) : List ℕ :=
  Dirent.bytes ⟨xshort inum,strncpy DIRSIZ name⟩

def addFile (m : Mk) (f : InputFile) : Option Mk :=
  if 47 ∈ f.name then none
  else do
    let (inum,m) ← mkIalloc m .file
    let m ← iappend m ROOTINO (direntBytes inum f.target)
    f.chunks.foldlM (fun m buf => iappend m inum buf) m

def superBytes : ℕ → ℕ :=
  [FSSIZE,FSSIZE-nmeta,NINODES,nlog,2,2+nlog,2+nlog+ninodeblocks].zipIdx.foldl
    (fun buf x => putWord buf x.2 (xint x.1)) fun _ => 0

def mkfs (files : List InputFile) : Option Image := do
  let m : Mk := ⟨fun _ _ => 0,1,nmeta⟩
  let m := m.wsect 1 superBytes
  let (rootino,m) ← mkIalloc m .dir
  if rootino ≠ ROOTINO then none
  let m ← iappend m rootino (direntBytes rootino dot)
  let m ← iappend m rootino (direntBytes rootino dotdot)
  let m ← files.foldlM addFile m
  -- the root directory ends at the next block boundary
  let din ← rinode m rootino
  let off := (xint din.size/BSIZE+1)*BSIZE
  let m ← winode m rootino {din with size := xint off}
  let m ← mkBalloc m m.freeblock
  some m.img

/-! ## Bytes and the kernel's view -/

theorem xshort_eq {x : ℕ} (h : x < 2^16) : xshort x = x := by
  simp only [xshort,byteOf]
  omega

theorem xint_eq {x : ℕ} (h : x < 2^32) : xint x = x := by
  simp only [xint,byteOf]
  omega

theorem wsect_img (m : Mk) (sec : ℕ) (buf : ℕ → ℕ) : (m.wsect sec buf).img = update m.img sec buf := rfl

theorem rsect_eq {m : Mk} {sec : ℕ} (h : sec < FSSIZE) : m.rsect sec = some (m.img sec) := if_pos h

/-- The kernel's view of the blocks while `mkfs` runs: `node` has the inodes as they are in
memory, and the blocks from `freeblock` on are free and clear. -/
structure Rel (m : Mk) (node : ℕ → Dinode) (st : Store) : Prop where
  bits : ∀ b < FSSIZE, st.used mkfsSb b = decide (b < m.freeblock)
  low : nmeta ≤ m.freeblock
  high : m.freeblock ≤ FSSIZE
  clear : ∀ b, m.freeblock ≤ b → b < FSSIZE → (∀ j, st.data b j = 0) ∧ ∀ j, m.img b j = 0
  bytes : ∀ b, nmeta ≤ b → b < FSSIZE → (∀ i < NINODES, (node i).addrs NDIRECT ≠ b) →
    ∀ j < BSIZE, m.img b j = st.data b j
  words : ∀ b, nmeta ≤ b → b < FSSIZE → (∃ i < NINODES, (node i).addrs NDIRECT = b) →
    ∀ j < NINDIRECT, word (m.img b) (4*j) = st.data b j
  addrs : ∀ i < NINODES, ∀ k, (node i).addrs k < m.freeblock
  rest : ∀ i < NINODES, ∀ k, NDIRECT < k → (node i).addrs k = 0
  free : ∀ i < NINODES, (node i).type = .free → (node i).addrs NDIRECT = 0
  opened : 1 ≤ st.outstanding

/-- `mkfs` has not touched the blocks in front of the data. -/
structure Ext (m m' : Mk) : Prop where
  front : ∀ b < nmeta, m'.img b = m.img b
  freeinode : m'.freeinode = m.freeinode

theorem Ext.refl (m : Mk) : Ext m m := ⟨fun _ _ => rfl,rfl⟩

theorem Ext.trans {m m' m'' : Mk} (h : Ext m m') (h' : Ext m' m'') : Ext m m'' :=
  ⟨fun b hb => (h'.front b hb).trans (h.front b hb),h'.freeinode.trans h.freeinode⟩

/-- The store after the kernel's `balloc` has given out block `a`. -/
def Store.took (st : Store) (a : ℕ) : Store := (st.mark mkfsSb a true).fill a fun _ => 0

section
variable {m : Mk} {node : ℕ → Dinode} {st : Store} {i : ℕ} {mapped : ℕ → ℕ}

theorem Rel.balloc (h : Rel m node st) (hroom : m.freeblock < FSSIZE) :
    balloc mkfsSb st = .ok (m.freeblock,st.took m.freeblock) := by
  have hfind : (List.range mkfsSb.size).find? (fun b => !st.used mkfsSb b) = some m.freeblock := by
    rw [List.find?_range_eq_some]
    refine ⟨?_,List.mem_range.mpr hroom,fun j hj => ?_⟩
    · simp [h.bits _ hroom]
    · simp [h.bits j (hj.trans hroom),hj]
  have hlog : logWrite (st.mark mkfsSb m.freeblock true) = .ok (st.mark mkfsSb m.freeblock true) :=
    if_neg (not_lt.mpr h.opened)
  simp only [FileBlocks.balloc,hfind]
  rw [hlog]
  rfl

theorem took_used (a b : ℕ) : (st.took a).used mkfsSb b = if b = a then true else st.used mkfsSb b :=
  mark_used mkfsSb st a true b

theorem Rel.block (h : Rel m node st) (hroom : m.freeblock < FSSIZE) :
    Rel m.block.2 node (st.took m.freeblock) := by
  have hdata : ∀ b j, (st.took m.freeblock).data b j = st.data b j := by
    intro b j
    by_cases hb : b = m.freeblock
    · subst hb
      simp [Store.took,Store.fill,(h.clear _ le_rfl hroom).1]
    · simp [Store.took,Store.fill,Store.mark,hb]
  refine ⟨fun b hb => ?_,h.low.trans (Nat.le_succ _),hroom,fun b hb hlt => ?_,fun b hb hlt hi j hj => ?_,
    fun b hb hlt hi j hj => ?_,fun i hi k => (h.addrs i hi k).trans (Nat.lt_succ_self _),h.rest,h.free,
    h.opened⟩
  · rw [took_used,h.bits b hb]
    simp only [Mk.block]
    by_cases he : b = m.freeblock
    · simp [he]
    · rw [if_neg he]
      exact decide_eq_decide.mpr (by omega)
  · have hle : m.freeblock ≤ b := (Nat.le_succ _).trans hb
    exact ⟨fun j => (hdata b j).trans ((h.clear b hle hlt).1 j),(h.clear b hle hlt).2⟩
  · exact (h.bytes b hb hlt hi j hj).trans (hdata b j).symm
  · exact (h.words b hb hlt hi j hj).trans (hdata b j).symm

theorem Rel.point (h : Rel m node st) (hi : i < NINODES) {k a : ℕ} (hk : k ≤ NDIRECT)
    (ha : a < m.freeblock) (hdata : ∀ j, st.data a j = 0) (himg : ∀ j, m.img a j = 0)
    (hzero : (node i).addrs k = 0) (htype : (node i).type ≠ .free) :
    Rel m (update node i {node i with addrs := update (node i).addrs k a}) st := by
  set node' := update node i {node i with addrs := update (node i).addrs k a} with hnode'
  have hother : ∀ j, j ≠ i → node' j = node j := fun j hj => update_of_ne hj _ _
  have hself : ∀ l, (node' i).addrs l = if l = k then a else (node i).addrs l := by
    intro l
    by_cases hl : l = k
    · simp [hnode',hl]
    · simp [hnode',hl]
  refine ⟨h.bits,h.low,h.high,h.clear,fun b hb hlt hno j hj => ?_,fun b hb hlt hex j hj => ?_,
    fun j hj l => ?_,fun j hj l hl => ?_,fun j hj ht => ?_,h.opened⟩
  · refine h.bytes b hb hlt (fun j' hj' he => hno j' hj' ?_) j hj
    by_cases hji : j' = i
    · subst hji
      rw [hself]
      split_ifs with hN
      · rw [← hN,he] at hzero
        simp only [nmeta] at hb
        omega
      · exact he
    · rwa [hother j' hji]
  · obtain ⟨j',hj',he⟩ := hex
    by_cases hji : j' = i
    · subst hji
      rw [hself] at he
      split_ifs at he with hN
      · subst he
        simp [word,half,himg,hdata]
      · exact h.words b hb hlt ⟨j',hj',he⟩ j hj
    · rw [hother j' hji] at he
      exact h.words b hb hlt ⟨j',hj',he⟩ j hj
  · by_cases hji : j = i
    · subst hji
      rw [hself]
      split_ifs
      · exact ha
      · exact h.addrs j hj l
    · rw [hother j hji]
      exact h.addrs j hj l
  · by_cases hji : j = i
    · subst hji
      rw [hself,if_neg (by omega)]
      exact h.rest j hj l hl
    · rw [hother j hji]
      exact h.rest j hj l hl
  · by_cases hji : j = i
    · subst hji
      exact absurd (by simpa [hnode'] using ht) htype
    · rw [hother j hji] at ht ⊢
      exact h.free j hj ht

theorem Rel.fileAddr (h : Rel m node st) (hi : i < NINODES) (htype : (node i).type ≠ .free) {k : ℕ}
    (hk : k ≤ NDIRECT) (hroom : (node i).addrs k = 0 → m.freeblock < FSSIZE) :
    ∃ a di' st' m', fillAddr mkfsSb st (node i) k = .ok (a,di',st') ∧
      fileAddr m (node i) k = (a,di',m') ∧ Rel m' (update node i di') st' ∧ Ext m m' ∧
      di'.addrs k = a ∧
      ((node i).addrs k = 0 → a = m.freeblock ∧ m'.freeblock = m.freeblock+1 ∧ ∀ j, st'.data a j = 0) ∧
      ((node i).addrs k ≠ 0 → a = (node i).addrs k ∧ m'.freeblock = m.freeblock ∧ st' = st) := by
  have hlt : (node i).addrs k < 2^32 := by
    have hb := h.addrs i hi k
    have hh := h.high
    simp only [FSSIZE] at hh
    omega
  by_cases h0 : (node i).addrs k = 0
  · have hr := hroom h0
    have hfb : xint m.freeblock = m.freeblock := xint_eq (by simp only [FSSIZE] at hr; omega)
    refine ⟨m.freeblock,{node i with addrs := update (node i).addrs k m.freeblock},
      st.took m.freeblock,m.block.2,?_,?_,?_,⟨fun _ _ => rfl,rfl⟩,update_self _ _ _,
      fun _ => ⟨rfl,rfl,fun j => by simp [Store.took,Store.fill]⟩,fun hne => absurd h0 hne⟩
    · rw [fillAddr,if_pos h0,h.balloc hr]
      rfl
    · rw [FileBlocks.fileAddr,if_pos (by rw [h0]; rfl)]
      simp [Mk.block,hfb]
    · refine (h.block hr).point hi hk (Nat.lt_succ_self _) (fun j => ?_) (fun j => ?_) h0 htype
      · simp [Store.took,Store.fill]
      · exact (h.clear _ le_rfl hr).2 j
  · refine ⟨(node i).addrs k,node i,st,m,if_neg h0,?_,?_,.refl m,rfl,fun hz => absurd hz h0,
      fun _ => ⟨rfl,rfl,rfl⟩⟩
    · rw [FileBlocks.fileAddr,xint_eq hlt,if_neg h0]
    · rwa [Function.update_eq_self]

theorem word_putWord {buf : ℕ → ℕ} {k x : ℕ} (hx : x < 2^32) (j : ℕ) :
    word (putWord buf k x) (4*j) = if j = k then x else word buf (4*j) := by
  split_ifs with hj
  · refine word_eq (fun l hl => ?_) hx
    have hdiv : (4*j+l)/4 = k := by omega
    have hmod : (4*j+l)%4 = l := by omega
    rw [putWord,if_pos hdiv,hmod]
  · refine word_congr fun l hl => ?_
    rw [putWord,if_neg (by omega)]

theorem Rel.fileWord (h : Rel m node st) (hi : i < NINODES) {ind k : ℕ}
    (hind : (node i).addrs NDIRECT = ind) (hlow : nmeta ≤ ind) (hk : k < NINDIRECT)
    (hlt : st.data ind k < 2^32) (hroom : st.data ind k = 0 → m.freeblock < FSSIZE) :
    ∃ a st' m', fillWord mkfsSb st ind k = .ok (a,st') ∧ fileWord m ind k = some (a,m') ∧
      Rel m' node st' ∧ Ext m m' ∧
      m'.freeblock = m.freeblock+if st.data ind k = 0 then 1 else 0 := by
  have hlt' : ind < m.freeblock := hind ▸ h.addrs i hi NDIRECT
  have hsize : ind < FSSIZE := hlt'.trans_le h.high
  have hword := h.words ind hlow hsize ⟨i,hi,hind⟩ k hk
  by_cases h0 : st.data ind k = 0
  · have hr := hroom h0
    have hfb : xint m.freeblock = m.freeblock := xint_eq (by simp only [FSSIZE] at hr; omega)
    have hfb' : m.freeblock < 2^32 := by simp only [FSSIZE] at hr; omega
    have hB := h.block hr
    set t := st.took m.freeblock with ht
    have htind : t.data ind = st.data ind := by
      simp [ht,Store.took,Store.fill,Store.mark,hlt'.ne]
    refine ⟨m.freeblock,t.fill ind (update (t.data ind) k m.freeblock),
      m.block.2.wsect ind (putWord (m.img ind) k m.freeblock),?_,?_,?_,⟨fun b hb => ?_,rfl⟩,
      by simp [h0,Mk.block,Mk.wsect]⟩
    · have hlog : logWrite (t.fill ind (update (t.data ind) k m.freeblock)) =
          .ok (t.fill ind (update (t.data ind) k m.freeblock)) := if_neg (not_lt.mpr hB.opened)
      rw [fillWord,if_pos h0,h.balloc hr]
      simp only [bind,Except.bind]
      rw [hlog]
    · rw [FileBlocks.fileWord]
      simp only [rsect_eq hsize,Option.bind_eq_bind,Option.bind_some,hword,h0,if_true,Mk.block,hfb]
    · refine ⟨hB.bits,hB.low,hB.high,fun b hb hbs => ?_,fun b hb hbs hno j hj => ?_,
        fun b hb hbs hex j hj => ?_,hB.addrs,hB.rest,hB.free,hB.opened⟩
      · have hne : b ≠ ind := fun he => by
          rw [he] at hb
          exact absurd hlt' (not_lt.mpr ((Nat.le_succ _).trans hb))
        simpa [Store.fill,Mk.wsect,hne] using hB.clear b hb hbs
      · have hne : b ≠ ind := fun he => hno i hi (hind.trans he.symm)
        simpa [Store.fill,Mk.wsect,hne] using hB.bytes b hb hbs hno j hj
      · by_cases hb' : b = ind
        · subst hb'
          have hold := h.words b hlow hsize ⟨i,hi,hind⟩ j hj
          simp only [Mk.wsect,Store.fill,update_self]
          rw [word_putWord hfb',hold,htind]
          by_cases hjk : j = k
          · simp [hjk]
          · simp [hjk]
        · simpa [Store.fill,Mk.wsect,hb'] using hB.words b hb hbs hex j hj
    · have hne : b ≠ ind := by omega
      simp [Mk.wsect,Mk.block,hne]
  · refine ⟨st.data ind k,st,m,if_neg h0,?_,h,.refl m,by simp [h0]⟩
    rw [FileBlocks.fileWord]
    simp only [rsect_eq hsize,Option.bind_eq_bind,Option.bind_some,hword,if_neg h0,xint_eq hlt]

/-- The blocks that a file of `n` blocks needs, with its indirect block. -/
def cost (n : ℕ) : ℕ := n+if NDIRECT < n then 1 else 0

theorem cost_mono {n n' : ℕ} (h : n ≤ n') : cost n ≤ cost n' := by
  simp only [cost]
  split_ifs <;> omega

theorem cost_succ {n : ℕ} (h : n ≠ NDIRECT) : cost (n+1) = cost n+1 := by
  simp only [cost]
  split_ifs <;> omega

theorem cost_indirect : cost (NDIRECT+1) = cost NDIRECT+2 := by decide

theorem Owned.slot_bounds (h : Owned mkfsSb node st) (hi : Alloc mkfsSb node i) {k : ℕ}
    (hk : k ≤ MAXFILE) (h0 : slot st.data (node i) k ≠ 0) :
    nmeta ≤ slot st.data (node i) k ∧ slot st.data (node i) k < FSSIZE :=
  h.exact.inside (x := (i,k)) ⟨hi,hk,rfl,h0⟩

theorem Rel.fileBlock (h : Rel m node st) (hw : Wf mkfsSb node mapped st) (hi : Alloc mkfsSb node i)
    {bn : ℕ} (hbn : bn ≤ mapped i) (hlt : bn < MAXFILE)
    (hroom : m.freeblock+cost (max (mapped i) (bn+1)) ≤ FSSIZE+cost (mapped i)) :
    ∃ a di' st' m', bmap mkfsSb st (node i) bn = .ok (a,di',st') ∧
      fileBlock m (node i) bn = some (a,di',m') ∧ Rel m' (update node i di') st' ∧ Ext m m' ∧
      m'.freeblock+cost (mapped i) = m.freeblock+cost (max (mapped i) (bn+1)) := by
  have hf := hw.filled i hi
  have hslot := hf.slots bn hlt
  have hmax : mapped i = bn → max (mapped i) (bn+1) = bn+1 := fun he => by omega
  have hnew : slot st.data (node i) bn = 0 → mapped i = bn := fun h0 => by
    by_contra hne
    exact hslot.mpr (lt_of_le_of_ne hbn (Ne.symm hne)) h0
  have hold : slot st.data (node i) bn ≠ 0 → max (mapped i) (bn+1) = mapped i := fun h0 =>
    max_eq_left (hslot.mp h0)
  by_cases hd : bn < NDIRECT
  · have haddr : slot st.data (node i) bn = (node i).addrs bn := by simp [slot,hd]
    rw [haddr] at hnew hold
    have hcost : cost (bn+1) = cost bn+1 := cost_succ hd.ne
    obtain ⟨a,di',st',m',hk,hm,hR,hE,-,hz,hnz⟩ := h.fileAddr hi.1 hi.2 hd.le fun h0 => by
      rw [hmax (hnew h0),hnew h0] at hroom
      omega
    refine ⟨a,di',st',m',?_,?_,hR,hE,?_⟩
    · rw [bmap,if_pos hd]
      exact hk
    · rw [FileBlocks.fileBlock,if_pos hd,hm]
    · by_cases h0 : (node i).addrs bn = 0
      · rw [hmax (hnew h0),hnew h0,(hz h0).2.1]
        omega
      · rw [hold h0,(hnz h0).2.1]
  · have hj : bn-NDIRECT < NINDIRECT := by
      simp only [MAXFILE] at hlt
      omega
    have hind : (node i).addrs NDIRECT = 0 → bn = NDIRECT ∧ mapped i = NDIRECT := fun h0 => by
      have hle : ¬NDIRECT < mapped i := fun hlt' => hf.indirect.mpr hlt' h0
      omega
    obtain ⟨ind,di',t,m₁,hk,hm,hR,hE,hdi,hz,hnz⟩ := h.fileAddr hi.1 hi.2 le_rfl fun h0 => by
      obtain ⟨rfl,hmap⟩ := hind h0
      rw [hmax hmap,hmap,cost_indirect] at hroom
      omega
    -- the word of the indirect block, which is new and clear or holds the slot
    have hword : t.data ind (bn-NDIRECT) = slot st.data (node i) bn := by
      by_cases h0 : (node i).addrs NDIRECT = 0
      · rw [(hz h0).2.2]
        simp [slot,hd,hlt,h0]
      · obtain ⟨rfl,-,rfl⟩ := hnz h0
        simp [slot,hd,hlt,h0]
    have hlow : nmeta ≤ ind := by
      by_cases h0 : (node i).addrs NDIRECT = 0
      · rw [(hz h0).1]
        exact h.low
      · rw [(hnz h0).1]
        have hb := hw.owned.slot_bounds hi le_rfl (by rwa [slot_indirect])
        rw [slot_indirect] at hb
        exact hb.1
    have hlt32 : t.data ind (bn-NDIRECT) < 2^32 := by
      rw [hword]
      by_cases h0 : slot st.data (node i) bn = 0
      · rw [h0]
        decide
      · have hb := (hw.owned.slot_bounds hi hlt.le h0).2
        simp only [FSSIZE] at hb
        omega
    have hself : (update node i di' i).addrs NDIRECT = ind := by rw [update_self,hdi]
    have hcost : bn ≠ NDIRECT → cost (bn+1) = cost bn+1 := cost_succ
    have hroom' : slot st.data (node i) bn = 0 → m₁.freeblock < FSSIZE := fun hs0 => by
      rw [hmax (hnew hs0),hnew hs0] at hroom
      by_cases h0 : (node i).addrs NDIRECT = 0
      · obtain ⟨rfl,-⟩ := hind h0
        rw [(hz h0).2.1]
        rw [cost_indirect] at hroom
        omega
      · rw [(hnz h0).2.1]
        have hne : bn ≠ NDIRECT := fun he => by
          have hpos := hf.indirect.mp h0
          have hmap := hnew hs0
          omega
        rw [hcost hne] at hroom
        omega
    obtain ⟨a,st',m',hk',hm',hR',hE',hfb⟩ :=
      hR.fileWord hi.1 hself hlow hj hlt32 (by rwa [hword])
    refine ⟨a,di',st',m',?_,?_,hR',hE.trans hE',?_⟩
    · rw [bmap,if_neg hd,if_pos hj,hk]
      simp only [bind,Except.bind]
      rw [hk']
    · rw [FileBlocks.fileBlock,if_neg hd,hm]
      simp only [hm',Option.bind_eq_bind,Option.bind_some]
    · rw [hfb,hword]
      by_cases hs0 : slot st.data (node i) bn = 0
      · rw [if_pos hs0,hmax (hnew hs0),hnew hs0]
        by_cases h0 : (node i).addrs NDIRECT = 0
        · obtain ⟨rfl,-⟩ := hind h0
          rw [(hz h0).2.1,cost_indirect]
          omega
        · have hne : bn ≠ NDIRECT := fun he => by
            have hpos := hf.indirect.mp h0
            have hmap := hnew hs0
            omega
          rw [(hnz h0).2.1,hcost hne]
          omega
      · have h0 : (node i).addrs NDIRECT ≠ 0 := fun h0 => hs0 (by simp [slot,hd,hlt,h0])
        rw [if_neg hs0,hold hs0,(hnz h0).2.1,Nat.add_zero]

theorem Rel.slot_ne_indirect (h : Rel m node st) (hw : Owned mkfsSb node st) (hi : Alloc mkfsSb node i)
    {bn : ℕ} (hlt : bn < MAXFILE) (h0 : slot st.data (node i) bn ≠ 0) :
    ∀ j < NINODES, (node j).addrs NDIRECT ≠ slot st.data (node i) bn := by
  intro j hj he
  by_cases ht : (node j).type = .free
  · rw [h.free j hj ht] at he
    exact h0 he.symm
  · have hown : Owns mkfsSb st.data node (slot st.data (node i) bn) (j,MAXFILE) :=
      ⟨⟨hj,ht⟩,le_rfl,(slot_indirect _ _).trans he,h0⟩
    have heq := hw.exact.unique hown (y := (i,bn)) ⟨hi,hlt.le,rfl,h0⟩
    exact hlt.ne (congrArg Prod.snd heq).symm

theorem Rel.write (h : Rel m node st) (hw : Owned mkfsSb node st) (hi : Alloc mkfsSb node i)
    {bn : ℕ} (hlt : bn < MAXFILE) (h0 : slot st.data (node i) bn ≠ 0) (o n : ℕ) (src : List ℕ) :
    Rel (m.wsect (slot st.data (node i) bn) (splice (m.img (slot st.data (node i) bn)) o n src)) node
      (st.fill (slot st.data (node i) bn) (splice (st.data (slot st.data (node i) bn)) o n src)) ∧
    Ext m (m.wsect (slot st.data (node i) bn) (splice (m.img (slot st.data (node i) bn)) o n src)) := by
  obtain ⟨hlow,hhigh⟩ := hw.slot_bounds hi hlt.le h0
  have hused := hw.exact.used_of_owns (x := (i,bn)) ⟨hi,hlt.le,rfl,h0⟩
  have hno := h.slot_ne_indirect hw hi hlt h0
  set x := slot st.data (node i) bn
  have hxlt : x < m.freeblock := by
    rw [h.bits x hhigh] at hused
    exact of_decide_eq_true hused
  refine ⟨⟨h.bits,h.low,h.high,fun b hb hbs => ?_,fun b hb hbs hnb j hj => ?_,
    fun b hb hbs hex j hj => ?_,h.addrs,h.rest,h.free,h.opened⟩,⟨fun b hb => ?_,rfl⟩⟩
  · have hne : b ≠ x := fun he => absurd (he ▸ hxlt) (not_lt.mpr hb)
    simpa [Store.fill,Mk.wsect,hne] using h.clear b hb hbs
  · by_cases hbx : b = x
    · subst hbx
      simp only [Mk.wsect,Store.fill,update_self,splice]
      rw [h.bytes _ hb hbs hnb j hj]
    · simpa [Store.fill,Mk.wsect,hbx] using h.bytes b hb hbs hnb j hj
  · have hne : b ≠ x := fun he => by
      obtain ⟨j',hj',hadd⟩ := hex
      exact hno j' hj' (hadd.trans he)
    simpa [Store.fill,Mk.wsect,hne] using h.words b hb hbs hex j hj
  · have hne : b ≠ x := by omega
    simp [Mk.wsect,hne]

theorem Rel.appended_nil {off : ℕ} (h : Rel m node st) (hoff : off ≤ BSIZE*mapped i) :
    Rel m (update node i (node i)) st ∧ Ext m m ∧ m.freeblock+cost (mapped i) =
      m.freeblock+cost (max (mapped i) (blocks (off+([] : List ℕ).length))) := by
  have hle : blocks (off+([] : List ℕ).length) ≤ mapped i := by
    simp only [blocks,BSIZE,List.length_nil] at *
    omega
  exact ⟨by rwa [Function.update_eq_self],.refl m,by rw [max_eq_left hle]⟩

theorem Rel.iappendLoop {fuel off : ℕ} {src : List ℕ} (h : Rel m node st)
    (hw : Wf mkfsSb node mapped st) (hi : Alloc mkfsSb node i) (hoff : off ≤ BSIZE*mapped i)
    (hmax : off+src.length ≤ MAXFILE*BSIZE)
    (hroom : m.freeblock+cost (max (mapped i) (blocks (off+src.length))) ≤ FSSIZE+cost (mapped i))
    (hfuel : src.length ≤ fuel) :
    ∃ di' st' m', writeLoop mkfsSb fuel st (node i) off src = .ok (di',st') ∧
      iappendLoop fuel m (node i) off src = some (di',m') ∧ Rel m' (update node i di') st' ∧
      Ext m m' ∧ m'.freeblock+cost (mapped i) =
        m.freeblock+cost (max (mapped i) (blocks (off+src.length))) := by
  induction fuel generalizing m node st mapped off src with
  | zero =>
    obtain rfl : src = [] := List.length_eq_zero_iff.mp (by omega)
    exact ⟨_,_,_,rfl,rfl,h.appended_nil hoff⟩
  | succ fuel ih =>
    rw [writeLoop,FileBlocks.iappendLoop]
    by_cases hsrc : src = []
    · subst hsrc
      exact ⟨_,_,_,if_pos rfl,if_pos rfl,h.appended_nil hoff⟩
    have hlen : 0 < src.length := List.length_pos_iff.mpr hsrc
    have hbn : off/BSIZE ≤ mapped i := by
      simp only [BSIZE] at *
      omega
    have hlt : off/BSIZE < MAXFILE := by
      simp only [BSIZE,MAXFILE,NDIRECT,NINDIRECT] at *
      omega
    have hle : max (mapped i) (off/BSIZE+1) ≤ max (mapped i) (blocks (off+src.length)) := by
      refine max_le_max le_rfl ?_
      simp only [blocks,BSIZE]
      omega
    obtain ⟨a,di,t,m₁,hk,hm,hR,hE,hfb⟩ := h.fileBlock hw hi hbn hlt
      ((Nat.add_le_add_left (cost_mono hle) _).trans hroom)
    have hmp := bmap_ok hw hi hbn hlt hk
    have hself : update node i di i = di := update_self ..
    have hty : di.type = (node i).type := (congrArg Dinode.type hmp.fields).trans rfl
    have hi' : Alloc mkfsSb (update node i di) i := (alloc_update hty i).mpr hi
    have hslot : slot t.data (update node i di i) (off/BSIZE) = a := by rw [hself,hmp.slot_eq]
    have h0 : slot t.data (update node i di i) (off/BSIZE) ≠ 0 := by rw [hslot]; exact hmp.ne
    have hn1 : min src.length ((off/BSIZE+1)*BSIZE-off) = min src.length (BSIZE-off%BSIZE) := by
      simp only [BSIZE]
      omega
    have hmod : off-off/BSIZE*BSIZE = off%BSIZE := by
      simp only [BSIZE]
      omega
    set n := min src.length (BSIZE-off%BSIZE) with hn
    have hwf := hmp.wf.fill (splice (t.data a) (off%BSIZE) n src) hi' hlt h0
    obtain ⟨hR',hE'⟩ := hR.write hmp.wf.owned hi' hlt h0 (off%BSIZE) n src
    have hasize := (hmp.wf.owned.slot_bounds hi' hlt.le h0).2
    rw [hslot] at hwf hR' hE' hasize
    have hmapped : update mapped i (max (mapped i) (off/BSIZE+1)) i = max (mapped i) (off/BSIZE+1) :=
      update_self ..
    have hend : off+n ≤ BSIZE*max (mapped i) (off/BSIZE+1) := by
      have : off+n ≤ BSIZE*(off/BSIZE+1) := by
        simp only [BSIZE] at *
        omega
      exact this.trans (Nat.mul_le_mul_left _ (le_max_right _ _))
    have hlast : off+n+(src.drop n).length = off+src.length := by
      simp only [List.length_drop]
      omega
    have hmost : max (max (mapped i) (off/BSIZE+1)) (blocks (off+src.length)) =
        max (mapped i) (blocks (off+src.length)) := by
      have : off/BSIZE+1 ≤ blocks (off+src.length) := by
        simp only [blocks,BSIZE]
        omega
      omega
    have hnpos : 0 < n := by
      simp only [BSIZE] at *
      omega
    have hfree : (m₁.wsect a (splice (m₁.img a) (off%BSIZE) n src)).freeblock = m₁.freeblock := rfl
    obtain ⟨di',st',m',hk',hm',hR'',hE'',hfb'⟩ := @ih _ _ _ _ (off+n) (src.drop n) hR' hwf hi'
      (by rwa [hmapped]) (by rwa [hlast])
      (by rw [hlast,hmapped,hmost,hfree]; omega) (by simp only [List.length_drop]; omega)
    rw [hself] at hk' hm'
    rw [hlast,hmapped,hmost,hfree] at hfb'
    rw [Function.update_idem] at hR''
    refine ⟨di',st',m',?_,?_,hR'',(hE.trans hE').trans hE'',by omega⟩
    · rw [if_neg hsrc,hk]
      simp only [bind,Except.bind]
      rw [show logWrite _ = _ from if_neg (not_lt.mpr hR'.opened)]
      exact hk'
    · rw [if_neg hsrc]
      simp only [if_pos hlt,hm,Option.bind_eq_bind,Option.bind_some,rsect_eq hasize,hn1,hmod]
      exact hm'

end

end Xv6.FileBlocks
