import Mathlib.Data.List.GetD
import Xv6.Mkfs
import Xv6.Tally

/-!
# The image of mkfs

A run of `mkfs` builds the contents of inodes: `file i` is what inode `i` holds so far. `Built`
joins it with the image, and every call of `mkfs.c` keeps it: `ialloc` opens an empty file,
`iappend` appends to one. At the end the bitmap is written from the counter and the kernel finds on
the image the files that were built.
-/
namespace Xv6.FileBlocks
open List
open Function (update update_self update_of_ne)
open Tally (sum_change)

def total (file : ℕ → List ℕ) : ℕ := ∑ i : Fin NINODES, cost (blocks (file i).length)

variable {i j : ℕ}

theorem total_update (file : ℕ → List ℕ) (hi : i < NINODES) (l : List ℕ) :
    total (update file i l)+cost (blocks (file i).length) = total file+cost (blocks l.length) := by
  have hother : ∀ j : Fin NINODES, j ≠ ⟨i,hi⟩ →
      cost (blocks (update file i l j).length) = cost (blocks (file j).length) := fun j hj => by
    rw [update_of_ne fun he => hj (Fin.ext he)]
  have hsum := sum_change (⟨i,hi⟩ : Fin NINODES) hother
  rwa [update_self] at hsum

theorem total_mono {file file' : ℕ → List ℕ} (h : ∀ i, file i <+: file' i) : total file ≤ total file' :=
  Finset.sum_le_sum fun i _ => cost_mono (by
    have hlen := (h i).length_le
    simp only [blocks,BSIZE]
    omega)

/-! ## Inodes on the image -/

structure Stored (m : Mk) (i : ℕ) (di : Dinode) (m' : Mk) : Prop where
  self : m'.img.dinode mkfsSb i = di
  others : ∀ j < NINODES, j ≠ i → m'.img.dinode mkfsSb j = m.img.dinode mkfsSb j
  super : m'.img 1 = m.img 1
  data : ∀ b, nmeta ≤ b → m'.img b = m.img b
  freeinode : m'.freeinode = m.freeinode
  freeblock : m'.freeblock = m.freeblock

theorem iblock_lt (hi : i < NINODES) : 1 < IBLOCK mkfsSb i ∧ IBLOCK mkfsSb i < nmeta := by
  have hn : nmeta = 59 := rfl
  have hb : IBLOCK mkfsSb i = i/8+32 := rfl
  simp only [NINODES] at hi
  omega

theorem putDinode_self (buf : ℕ → ℕ) (k : ℕ) (di : Dinode) (hj : j < DISIZE) :
    putDinode buf k di (DISIZE*k+j) = di.byte j := by
  have hdiv : (DISIZE*k+j)/DISIZE = k := by
    simp only [DISIZE] at *
    omega
  rw [putDinode,if_pos hdiv,Nat.mul_add_mod,Nat.mod_eq_of_lt hj]

theorem putDinode_other (buf : ℕ → ℕ) {k l : ℕ} (di : Dinode) (h : l ≠ k) (hj : j < DISIZE) :
    putDinode buf k di (DISIZE*l+j) = buf (DISIZE*l+j) := by
  have hdiv : (DISIZE*l+j)/DISIZE = l := by
    simp only [DISIZE] at *
    omega
  rw [putDinode,if_neg (by rwa [hdiv])]

theorem rinode_eq {m : Mk} (hi : i < NINODES) : rinode m i = some (m.img.dinode mkfsSb i) := by
  have hb : IBLOCK mkfsSb i < FSSIZE := (iblock_lt hi).2.trans (by decide)
  rw [rinode,rsect_eq hb]
  rfl

theorem winode_ok (m : Mk) (hi : i < NINODES) {di : Dinode} (hf : di.Fits) :
    ∃ m', winode m i di = some m' ∧ Stored m i di m' := by
  obtain ⟨hlow,hhigh⟩ := iblock_lt hi
  have hb : IBLOCK mkfsSb i < FSSIZE := hhigh.trans (by decide)
  refine ⟨m.wsect (IBLOCK mkfsSb i) (putDinode (m.img (IBLOCK mkfsSb i)) (i%IPB) di),
    by rw [winode,rsect_eq hb]; rfl,?_,fun j hj hji => ?_,?_,fun b hb => ?_,rfl,rfl⟩
  · refine Dinode.ofBytes_byte hf fun j hj => ?_
    rw [wsect_img,update_self,putDinode_self _ _ _ hj]
  · by_cases hblock : IBLOCK mkfsSb j = IBLOCK mkfsSb i
    · have hmod : j%IPB ≠ i%IPB := fun hm => hji (by
        simp only [IBLOCK,IPB] at *
        omega)
      refine Dinode.ofBytes_congr fun l hl => ?_
      rw [wsect_img,hblock,update_self,putDinode_other _ _ hmod hl]
    · simp only [Image.dinode,wsect_img,update_of_ne hblock]
  · rw [wsect_img,update_of_ne hlow.ne]
  · rw [wsect_img,update_of_ne (by omega)]

/-! ## The files built so far -/

/-- Inode `i` without contents, when the inodes below `n` are allocated. -/
def blank (n i : ℕ) : Dinode :=
  if 1 ≤ i ∧ i < n then {Dinode.zero with type := if i = ROOTINO then .dir else .file, nlink := 1}
  else .zero

/-- The image holds the inodes `node`, and inode `i` holds `file i`. -/
structure Built (m : Mk) (node : ℕ → Dinode) (st : Store) (file : ℕ → List ℕ) : Prop where
  rel : Rel m node st
  sound : Sound mkfsSb node st
  disk : ∀ i < NINODES, m.img.dinode mkfsSb i = node i
  super : m.img 1 = superBytes
  shape : ∀ i, node i = {blank m.freeinode i with addrs := (node i).addrs, size := (node i).size}
  clean : ∀ i, ¬(1 ≤ i ∧ i < m.freeinode) → node i = .zero ∧ file i = []
  size : ∀ i, (node i).size = (file i).length
  bytes : ∀ i, 1 ≤ i → i < m.freeinode → ∀ o < (file i).length,
    byteAt st.data (node i) o = (file i).getD o 0
  count : m.freeinode ≤ NINODES
  taken : m.freeblock = nmeta+total file

section
variable {m : Mk} {node : ℕ → Dinode} {st : Store} {file full : ℕ → List ℕ} {i : ℕ}

theorem Rel.congr {m' : Mk} {node' : ℕ → Dinode} (h : Rel m node st)
    (hfree : m'.freeblock = m.freeblock) (himg : ∀ b, nmeta ≤ b → m'.img b = m.img b)
    (haddr : ∀ i < NINODES, (node' i).addrs = (node i).addrs)
    (htype : ∀ i < NINODES, (node' i).type = .free → (node i).type = .free) : Rel m' node' st where
  bits b hb := by rw [hfree,h.bits b hb]
  low := hfree ▸ h.low
  high := hfree ▸ h.high
  clear b hb hs := by
    rw [hfree] at hb
    rw [himg b (h.low.trans hb)]
    exact h.clear b hb hs
  bytes b hb hs hno j hj := by
    rw [himg b hb]
    exact h.bytes b hb hs (fun i hi => haddr i hi ▸ hno i hi) j hj
  words b hb hs hex j hj := by
    obtain ⟨i,hi,he⟩ := hex
    rw [himg b hb]
    exact h.words b hb hs ⟨i,hi,haddr i hi ▸ he⟩ j hj
  addrs i hi k := by
    rw [hfree,haddr i hi]
    exact h.addrs i hi k
  rest i hi k hk := by
    rw [haddr i hi]
    exact h.rest i hi k hk
  free i hi ht := by
    rw [haddr i hi]
    exact h.free i hi (htype i hi ht)
  opened := h.opened

theorem Built.alloc_iff (h : Built m node st file) (i : ℕ) :
    Alloc mkfsSb node i ↔ 1 ≤ i ∧ i < m.freeinode := by
  have htype : (node i).type = (blank m.freeinode i).type := (congrArg Dinode.type (h.shape i)).trans rfl
  have hcount := h.count
  unfold Alloc
  rw [htype,blank]
  split_ifs with hi hr
  · exact ⟨fun _ => hi,fun _ => ⟨hi.2.trans_le hcount,nofun⟩⟩
  · exact ⟨fun _ => hi,fun _ => ⟨hi.2.trans_le hcount,nofun⟩⟩
  · exact ⟨fun ha => absurd rfl ha.2,fun ha => absurd ha hi⟩

theorem blank_fits {n : ℕ} (di : Dinode) (hdi : di = {blank n i with addrs := di.addrs, size := di.size})
    (hsize : di.size < 2^32) (haddr : ∀ k, di.addrs k < 2^32)
    (hrest : ∀ k, NDIRECT < k → di.addrs k = 0) : di.Fits := by
  have hmajor : di.major = (blank n i).major := (congrArg Dinode.major hdi).trans rfl
  have hminor : di.minor = (blank n i).minor := (congrArg Dinode.minor hdi).trans rfl
  have hnlink : di.nlink = (blank n i).nlink := (congrArg Dinode.nlink hdi).trans rfl
  refine ⟨?_,?_,?_,hsize,haddr,hrest⟩
  · rw [hmajor,blank]
    split_ifs <;> decide
  · rw [hminor,blank]
    split_ifs <;> decide
  · rw [hnlink,blank]
    split_ifs <;> decide

theorem Built.mkIalloc (h : Built m node st file) (hfree : m.freeinode < NINODES)
    (hpos : 1 ≤ m.freeinode) {type : InodeType}
    (htype : type = if m.freeinode = ROOTINO then .dir else .file) :
    ∃ m' node', mkIalloc m type = some (m.freeinode,m') ∧ Built m' node' st file ∧
      m'.freeinode = m.freeinode+1 := by
  set n := m.freeinode with hn
  set din : Dinode := {Dinode.zero with type := type, nlink := 1, size := 0} with hdin
  have hblank : din = blank (n+1) n := by
    rw [blank,if_pos ⟨hpos,Nat.lt_succ_self n⟩,← htype]
    rfl
  obtain ⟨hzero,hempty⟩ := h.clean n (by omega)
  obtain ⟨m',hw,hs⟩ := winode_ok {m with freeinode := n+1} hfree (blank_fits (i := n) (n := n+1) din
    (by rw [hblank]) (show 0 < 2^32 by decide) (fun _ => by simp [hdin,Dinode.zero]) fun _ _ => rfl)
  have hfi : m'.freeinode = n+1 := hs.freeinode
  have haddr : ∀ j, (update node n din j).addrs = (node j).addrs := fun j => by
    by_cases hj : j = n
    · rw [hj,update_self,hzero]
    · rw [update_of_ne hj]
  have hblank' : ∀ j, j ≠ n → blank (n+1) j = blank n j := fun j hj => by
    have hiff : (1 ≤ j ∧ j < n+1) ↔ 1 ≤ j ∧ j < n := by omega
    simp only [blank,hiff]
  refine ⟨m',update node n din,?_,⟨?_,?_,fun j hj => ?_,?_,fun j => ?_,fun j hj => ?_,fun j => ?_,
    fun j h1 h2 o ho => ?_,?_,?_⟩,hfi⟩
  · rw [FileBlocks.mkIalloc]
    have hx : (xshort 1 : ℤ) = 1 := rfl
    have hx' : xint 0 = 0 := rfl
    simp only [hx,hx',← hn]
    rw [hw]
    rfl
  · refine h.rel.congr hs.freeblock hs.data (fun j _ => haddr j) fun j _ ht => ?_
    by_cases hj : j = n
    · rw [hj,hzero]
      rfl
    · rwa [update_of_ne hj] at ht
  · refine h.sound.replace (fun ha => ?_) (fun k => ?_) rfl rfl
    · exact absurd ((h.alloc_iff n).mp ha) (by omega)
    · simp [slot,hdin,Dinode.zero]
  · by_cases hjn : j = n
    · rw [hjn,update_self,hs.self]
    · rw [update_of_ne hjn,hs.others j hj hjn]
      exact h.disk j hj
  · exact hs.super.trans h.super
  · rw [hfi]
    by_cases hj : j = n
    · rw [hj,update_self,← hblank]
    · rw [update_of_ne hj,hblank' j hj]
      exact h.shape j
  · rw [hfi] at hj
    rw [update_of_ne (by omega)]
    exact h.clean j (by omega)
  · by_cases hj : j = n
    · rw [hj,update_self,hempty]
      rfl
    · rw [update_of_ne hj]
      exact h.size j
  · by_cases hj : j = n
    · rw [hj,hempty] at ho
      exact absurd ho (Nat.not_lt_zero o)
    · rw [update_of_ne hj]
      exact h.bytes j h1 (by omega) o ho
  · rw [hfi]
    exact hfree
  · rw [hs.freeblock]
    exact h.taken

theorem Built.iappend (h : Built m node st file) (hi : 1 ≤ i ∧ i < m.freeinode) {src : List ℕ}
    (hsize : (file i++src).length ≤ MAXFILE*BSIZE)
    (hroom : nmeta+total (update file i (file i++src)) ≤ FSSIZE) :
    ∃ m' node' st', iappend m i src = some m' ∧ Built m' node' st' (update file i (file i++src)) ∧
      m'.freeinode = m.freeinode := by
  have hal : Alloc mkfsSb node i := (h.alloc_iff i).mpr hi
  have hin : i < NINODES := hal.1
  have hsz := h.size i
  have hlen : (file i++src).length = (node i).size+src.length := by rw [length_append,hsz]
  have hblocks : blocks (node i).size ≤ blocks ((node i).size+src.length) := by
    simp only [blocks,BSIZE]
    omega
  have htot := total_update file hin (file i++src)
  rw [hlen,← hsz] at htot
  have htaken := h.taken
  have hoff : (node i).size ≤ BSIZE*blocks (node i).size := by
    simp only [blocks,BSIZE]
    omega
  have hmax : (node i).size+src.length ≤ MAXFILE*BSIZE := hlen ▸ hsize
  obtain ⟨di,st',m₁,hk,hm,hR,hE,hfb⟩ := h.rel.iappendLoop h.sound hal hoff hmax
    (by rw [max_eq_right hblocks]; omega) le_rfl
  have w := writeLoop_ok h.sound hal le_rfl hoff hmax hk
  set di' : Dinode := {di with size := (node i).size+src.length} with hdi'
  have hself : update node i di i = di := update_self ..
  have htype : di.type = (node i).type := (congrArg Dinode.type w.fields).trans rfl
  have hshape : di' = {blank m.freeinode i with addrs := di'.addrs, size := di'.size} := by
    have hs := h.shape i
    rw [hdi',w.fields,hs]
  have haddr : ∀ j, (update node i di' j).addrs = (update node i di j).addrs := fun j => by
    by_cases hj : j = i
    · rw [hj,update_self,update_self]
    · rw [update_of_ne hj,update_of_ne hj]
  have htypes : ∀ j, (update node i di' j).type = (update node i di j).type := fun j => by
    by_cases hj : j = i
    · rw [hj,update_self,update_self]
    · rw [update_of_ne hj,update_of_ne hj]
  have hbound : di'.Fits := by
    refine blank_fits di' hshape ?_ (fun k => ?_) fun k hk => ?_
    · simp only [hdi',MAXFILE,BSIZE,NDIRECT,NINDIRECT] at *
      omega
    · have hb := hR.addrs i hin k
      have hh := hR.high
      rw [hself] at hb
      simp only [FSSIZE] at hh
      exact hb.trans (by omega)
    · have hr := hR.rest i hin k hk
      rwa [hself] at hr
  obtain ⟨m',hw,hs⟩ := winode_ok m₁ hin hbound
  have hfi : m'.freeinode = m.freeinode := hs.freeinode.trans hE.freeinode
  have hsrc : di'.size = (file i++src).length := hlen.symm
  refine ⟨m',update node i di',st',?_,⟨?_,?_,fun j hj => ?_,?_,fun j => ?_,fun j hj => ?_,fun j => ?_,
    fun j h1 h2 o ho => ?_,?_,?_⟩,hfi⟩
  · have hxs : xint (node i).size = (node i).size := xint_eq (by
      simp only [MAXFILE,BSIZE,NDIRECT,NINDIRECT] at *
      omega)
    have hxs' : xint ((node i).size+src.length) = (node i).size+src.length := xint_eq hbound.size
    rw [FileBlocks.iappend,rinode_eq hin,h.disk i hin]
    simp only [Option.bind_eq_bind,Option.bind_some,hxs,hm,hxs']
    exact hw
  · exact hR.congr hs.freeblock hs.data (fun j _ => haddr j) fun j _ ht => (htypes j).symm.trans ht
  · refine w.wf.congr rfl (fun _ => rfl) (fun j => ?_) haddr fun j _ => ?_
    · unfold Alloc
      rw [htypes]
    · by_cases hj : j = i
      · rw [hj,update_self,update_self,max_eq_right hblocks]
      · rw [update_of_ne hj,update_of_ne hj]
  · by_cases hji : j = i
    · rw [hji,update_self,hs.self]
    · rw [update_of_ne hji,hs.others j hj hji]
      have hfront := hE.front _ (iblock_lt hj).2
      exact (congrArg (fun buf => Dinode.ofBytes buf (DISIZE*(j%IPB))) hfront).trans (h.disk j hj)
  · exact hs.super.trans ((hE.front 1 (by decide)).trans h.super)
  · rw [hfi]
    by_cases hj : j = i
    · rw [hj,update_self]
      exact hshape
    · rw [update_of_ne hj]
      exact h.shape j
  · rw [hfi] at hj
    have hji : j ≠ i := fun he => hj (he ▸ hi)
    rw [update_of_ne hji,update_of_ne hji]
    exact h.clean j hj
  · by_cases hj : j = i
    · rw [hj,update_self,update_self]
      exact hsrc
    · rw [update_of_ne hj,update_of_ne hj]
      exact h.size j
  · rw [hfi] at h2
    by_cases hj : j = i
    · subst hj
      rw [update_self] at ho ⊢
      rw [update_self]
      by_cases hold : o < (file j).length
      · have hkept := w.kept o (lt_blocks (by omega)) (by omega)
        rw [getD_append _ _ _ _ hold,← h.bytes j h1 h2 o hold]
        exact hkept
      · have hnew := w.written o (by omega) (by omega)
        rw [getD_append_right _ _ _ _ (not_lt.mp hold),← hsz]
        exact hnew
    · rw [update_of_ne hj] at ho ⊢
      rw [update_of_ne hj]
      have hsame := w.others j ((h.alloc_iff j).mpr ⟨h1,h2⟩) hj o (lt_blocks (by rw [h.size j]; exact ho))
      rw [hsame]
      exact h.bytes j h1 h2 o ho
  · rw [hfi]
    exact h.count
  · rw [hs.freeblock]
    rw [max_eq_right hblocks] at hfb
    omega

structure Room (full : ℕ → List ℕ) : Prop where
  each : ∀ i, (full i).length ≤ MAXFILE*BSIZE
  all : nmeta+total full ≤ FSSIZE

theorem Built.grow (h : Built m node st file) (hi : 1 ≤ i ∧ i < m.freeinode) (hfull : Room full)
    {src : List ℕ} (hle : ∀ j, update file i (file i++src) j <+: full j) :
    ∃ m' node' st', FileBlocks.iappend m i src = some m' ∧
      Built m' node' st' (update file i (file i++src)) ∧ m'.freeinode = m.freeinode := by
  have hlen := (hle i).length_le
  rw [update_self] at hlen
  exact h.iappend hi (hlen.trans (hfull.each i))
    ((Nat.add_le_add_left (total_mono hle) nmeta).trans hfull.all)

theorem Built.appendAll (h : Built m node st file) (hi : 1 ≤ i ∧ i < m.freeinode) (hfull : Room full)
    (chunks : List (List ℕ)) (hle : ∀ j, update file i (file i++chunks.flatten) j <+: full j) :
    ∃ m' node' st', chunks.foldlM (fun m buf => FileBlocks.iappend m i buf) m = some m' ∧
      Built m' node' st' (update file i (file i++chunks.flatten)) ∧ m'.freeinode = m.freeinode := by
  induction chunks generalizing m node st file with
  | nil =>
    refine ⟨m,node,st,rfl,?_,rfl⟩
    rwa [flatten_nil,append_nil,Function.update_eq_self]
  | cons c cs ih =>
    have hfirst : ∀ j, update file i (file i++c) j <+: full j := fun j => by
      refine List.IsPrefix.trans ?_ (hle j)
      by_cases hj : j = i
      · rw [hj,update_self,update_self,flatten_cons,← append_assoc]
        exact prefix_append _ _
      · rw [update_of_ne hj,update_of_ne hj]
    obtain ⟨m₁,node₁,st₁,hm₁,hB,hfi⟩ := h.grow hi hfull hfirst
    have hsplit : update (update file i (file i++c)) i (update file i (file i++c) i++cs.flatten) =
        update file i (file i++(c::cs).flatten) := by
      rw [update_self,Function.update_idem,flatten_cons,append_assoc]
    obtain ⟨m',node',st',hm',hB',hfi'⟩ := ih hB (hfi.symm ▸ hi) (by rwa [hsplit])
    rw [hsplit] at hB'
    refine ⟨m',node',st',?_,hB',hfi'.trans hfi⟩
    rw [foldlM_cons,hm₁]
    exact hm'

/-! ## The files of the arguments -/

def rootEntries (files : List InputFile) : List Dirent :=
  ⟨ROOTINO,strncpy DIRSIZ dot⟩::⟨ROOTINO,strncpy DIRSIZ dotdot⟩::
    files.mapIdx fun k f => ⟨2+k,strncpy DIRSIZ f.target⟩

/-- What the inodes hold when the arguments `files` are done. -/
def made (files : List InputFile) (i : ℕ) : List ℕ :=
  if i = ROOTINO then (rootEntries files).flatMap Dirent.bytes
  else if 2 ≤ i then files[i-2]?.elim [] InputFile.contents
  else []

theorem made_file (files : List InputFile) (k : ℕ) :
    made files (2+k) = files[k]?.elim [] InputFile.contents := by
  rw [made,if_neg (by simp only [ROOTINO]; omega),if_pos (by omega),Nat.add_sub_cancel_left]

theorem made_grows (done rest : List InputFile) (i : ℕ) : made done i <+: made (done++rest) i := by
  unfold made
  split_ifs with hroot hfile
  · rw [rootEntries,rootEntries,mapIdx_append,← cons_append,← cons_append, flatMap_append]
    exact prefix_append _ _
  · by_cases hlt : i-2 < done.length
    · rw [getElem?_append_left hlt]
    · rw [getElem?_eq_none (not_lt.mp hlt)]
      exact nil_prefix
  · exact prefix_rfl

theorem made_concat (done : List InputFile) (f : InputFile) (hcount : 2+done.length < NINODES) :
    made (done++[f]) = update
      (update (made done) ROOTINO (made done ROOTINO++direntBytes (2+done.length) f.target))
      (2+done.length) f.contents := by
  have hshort : xshort (2+done.length) = 2+done.length := xshort_eq (by
    simp only [NINODES] at hcount
    omega)
  funext i
  by_cases hlast : i = 2+done.length
  · rw [hlast,update_self,made_file,getElem?_append_right le_rfl,Nat.sub_self]
    rfl
  rw [update_of_ne hlast]
  by_cases hroot : i = ROOTINO
  · rw [hroot,update_self,direntBytes,hshort,made,made,if_pos rfl,if_pos rfl,rootEntries,rootEntries,
      mapIdx_append,← cons_append,← cons_append,flatMap_append]
    simp [mapIdx_cons,Nat.add_assoc,Nat.add_comm]
  · rw [update_of_ne hroot,made,made,if_neg hroot,if_neg hroot]
    split_ifs with hfile
    · by_cases hlt : i-2 < done.length
      · rw [getElem?_append_left hlt]
      · rw [getElem?_eq_none (not_lt.mp hlt),getElem?_eq_none]
        simp only [length_append,length_singleton]
        omega
    · rfl

theorem Built.addFile {done : List InputFile} (h : Built m node st (made done))
    (hfi : m.freeinode = 2+done.length) (hfull : Room full) (f : InputFile)
    (hle : ∀ j, made (done++[f]) j <+: full j) (hslash : 47 ∉ f.name)
    (hcount : 2+done.length < NINODES) :
    ∃ m' node' st', addFile m f = some m' ∧ Built m' node' st' (made (done++[f])) ∧
      m'.freeinode = 2+done.length+1 := by
  have hroot : ROOTINO ≠ 2+done.length := by
    simp only [ROOTINO]
    omega
  have htype : InodeType.file = if m.freeinode = ROOTINO then .dir else .file := by
    rw [hfi,if_neg hroot.symm]
  obtain ⟨m₁,node₁,hm₁,hB₁,hfi₁⟩ := h.mkIalloc (by rwa [hfi]) (by rw [hfi]; omega) htype
  rw [hfi] at hm₁ hfi₁
  set n := 2+done.length with hn
  have hempty : made done n = [] := by
    rw [hn,made_file,getElem?_eq_none le_rfl]
    rfl
  have hmade := made_concat done f hcount
  have hle₂ : ∀ j, update (made done) ROOTINO (made done ROOTINO++direntBytes n f.target) j <+:
      full j := fun j => by
    refine List.IsPrefix.trans ?_ (hle j)
    rw [hmade]
    by_cases hj : j = n
    · rw [hj,update_of_ne hroot.symm,hempty]
      exact nil_prefix
    · rw [update_of_ne hj]
  have hin : 1 ≤ ROOTINO ∧ ROOTINO < m₁.freeinode := ⟨le_rfl,by simp only [ROOTINO]; omega⟩
  obtain ⟨m₂,node₂,st₂,hm₂,hB₂,hfi₂⟩ := hB₁.grow hin hfull hle₂
  have hmade' : update (update (made done) ROOTINO (made done ROOTINO++direntBytes n f.target)) n
      (update (made done) ROOTINO (made done ROOTINO++direntBytes n f.target) n++f.chunks.flatten) =
      made (done++[f]) := by
    rw [hmade,update_of_ne hroot.symm,hempty]
    rfl
  obtain ⟨m₃,node₃,st₃,hm₃,hB₃,hfi₃⟩ := hB₂.appendAll (i := n) ⟨by omega,by omega⟩ hfull f.chunks
    (by rwa [hmade'])
  rw [hmade'] at hB₃
  refine ⟨m₃,node₃,st₃,?_,hB₃,by omega⟩
  rw [FileBlocks.addFile,if_neg hslash,hm₁]
  simp only [Option.bind_eq_bind,Option.bind_some,hm₂]
  exact hm₃

theorem Built.addFiles {done : List InputFile} (rest : List InputFile)
    (h : Built m node st (made done)) (hfi : m.freeinode = 2+done.length)
    (hfull : Room (made (done++rest))) (hslash : ∀ f ∈ rest, 47 ∉ f.name)
    (hcount : 2+(done++rest).length ≤ NINODES) :
    ∃ m' node' st', rest.foldlM FileBlocks.addFile m = some m' ∧
      Built m' node' st' (made (done++rest)) ∧ m'.freeinode = 2+(done++rest).length := by
  induction rest generalizing m node st done with
  | nil =>
    rw [append_nil] at hfull ⊢
    exact ⟨m,node,st,rfl,h,hfi⟩
  | cons f rest ih =>
    have happ : done++f::rest = (done++[f])++rest := by simp
    rw [happ] at hfull hcount ⊢
    simp only [length_append,length_singleton] at hcount
    obtain ⟨m₁,node₁,st₁,hm₁,hB,hfi₁⟩ := h.addFile hfi hfull f (made_grows _ _)
      (hslash f (mem_cons_self ..)) (by omega)
    obtain ⟨m',node',st',hm',hB',hfi'⟩ := ih hB (by simp [hfi₁,Nat.add_assoc]) hfull
      (fun g hg => hslash g (mem_cons_of_mem _ hg))
      (by simp only [length_append,length_singleton]; omega)
    refine ⟨m',node',st',?_,hB',hfi'⟩
    rw [foldlM_cons,hm₁]
    exact hm'

theorem rootEntries_bytes (files : List InputFile) : ∀ de ∈ rootEntries files,
    de.bytes.length = DESIZE := by
  intro de hde
  rcases mem_cons.mp hde with rfl | hde
  · rfl
  rcases mem_cons.mp hde with rfl | hde
  · rfl
  obtain ⟨k,hk,rfl⟩ := mem_mapIdx.mp hde
  exact bytes_length _ _

theorem made_root_length (files : List InputFile) :
    (made files ROOTINO).length = DESIZE*(2+files.length) := by
  have hmap : (rootEntries files).map (fun de => de.bytes.length) =
      replicate (2+files.length) DESIZE := by
    rw [eq_replicate_iff]
    refine ⟨by simp [rootEntries]; omega,fun n hn => ?_⟩
    obtain ⟨de,hde,rfl⟩ := mem_map.mp hn
    exact rootEntries_bytes files de hde
  rw [made,if_pos rfl,length_flatMap,hmap,sum_replicate_nat,Nat.mul_comm]

def need (files : List InputFile) : ℕ :=
  cost (blocks (DESIZE*(2+files.length)))+(files.map fun f => cost (blocks f.contents.length)).sum

theorem total_made (files : List InputFile) (h : 2+files.length ≤ NINODES) :
    total (made files) = need files := by
  induction files using reverseRecOn with
  | nil => decide +kernel
  | append_singleton done f ih =>
    rw [length_append,length_singleton] at h
    have hlt : 2+done.length < NINODES := by omega
    have hroot : 2+done.length ≠ ROOTINO := by
      simp only [ROOTINO]
      omega
    have hold := ih (by omega)
    have hlen := made_root_length done
    have hlen' : (made done ROOTINO++direntBytes (2+done.length) f.target).length =
        DESIZE*(2+(done.length+1)) := by
      rw [length_append,hlen,direntBytes,bytes_length]
      simp only [DESIZE]
      omega
    have hempty : made done (2+done.length) = [] := by
      rw [made_file,getElem?_eq_none le_rfl]
      rfl
    have h1 := total_update (made done) (i := ROOTINO) (by decide)
      (made done ROOTINO++direntBytes (2+done.length) f.target)
    have h2 := total_update (update (made done) ROOTINO
      (made done ROOTINO++direntBytes (2+done.length) f.target)) hlt f.contents
    have hnil : cost (blocks ([] : List ℕ).length) = 0 := by decide
    rw [hlen,hlen'] at h1
    rw [update_of_ne hroot,hempty,hnil] at h2
    rw [made_concat done f hlt]
    simp only [need,length_append,length_singleton,map_append,map_singleton,
      sum_append,sum_singleton] at *
    omega

/-! ## The beginning and the end of the run -/

def startStore : Store where
  outstanding := 1
  inodes _ _ := .zero
  bits _ k := decide (k < nmeta)
  data _ _ := 0

theorem startStore_used {b : ℕ} (hb : b < FSSIZE) : startStore.used mkfsSb b = decide (b < nmeta) := by
  have hmod : b%BPB = b := Nat.mod_eq_of_lt (hb.trans (by decide))
  rw [Store.used,hmod]
  rfl

theorem start_built : Built (Mk.wsect ⟨fun _ _ => 0,1,nmeta⟩ 1 superBytes) (fun _ => .zero) startStore
    fun _ => [] := by
  have hnone : ∀ i, ¬Alloc mkfsSb (fun _ => .zero) i := fun i hi => hi.2 rfl
  have himg : ∀ b, 1 < b → ∀ j, (Mk.wsect ⟨fun _ _ => 0,1,nmeta⟩ 1 superBytes).img b j = 0 :=
    fun b hb j => by rw [wsect_img,update_of_ne hb.ne']
  have hmeta : nmeta = 59 := rfl
  refine ⟨⟨fun b hb => startStore_used hb,le_rfl,by decide,fun b hb _ => ⟨fun _ => rfl,?_⟩,
    fun b hb _ _ j _ => ?_,fun b hb _ _ j _ => ?_,fun _ _ _ => show 0 < nmeta by decide,fun _ _ _ _ => rfl,
    fun _ _ _ => rfl,le_rfl⟩,⟨⟨⟨?_,?_,?_⟩,?_,by decide⟩,fun i hi => absurd hi (hnone i)⟩,
    fun i hi => ?_,rfl,fun i => ?_,fun i _ => ⟨rfl,rfl⟩,fun _ => rfl,fun i h1 h2 => ?_,by decide,?_⟩
  · exact himg b (by simp only [Mk.wsect] at hb; omega)
  · exact himg b (by omega) j
  · have hz := himg b (by omega)
    simp only [word,half,hz]
    rfl
  · intro b x hx
    exact absurd hx.1 (hnone x.1)
  · intro b x y hx
    exact absurd hx.1 (hnone x.1)
  · intro b hb
    rw [startStore_used hb.2,decide_eq_true_eq]
    exact ⟨fun hlt => absurd hlt (not_lt.mpr hb.1),fun hx => hx.elim fun x hx => absurd hx.1 (hnone x.1)⟩
  · intro b hb
    have hlt : b < nmeta := hb
    rw [startStore_used (hlt.trans (by decide))]
    exact decide_eq_true hlt
  · have hb := (iblock_lt hi).1
    have hz := himg _ hb
    refine Dinode.ofBytes_byte ⟨by decide,by decide,by decide,by decide,fun _ => show 0 < 2^32 by decide,
      fun _ _ => rfl⟩ fun j _ => ?_
    rw [hz]
    simp only [Dinode.byte,Dinode.zero]
    split_ifs <;> simp [byteOf,shortCode,InodeType.code]
  · have hblank : blank 1 i = .zero := if_neg (by omega)
    change Dinode.zero = {blank 1 i with addrs := Dinode.zero.addrs, size := Dinode.zero.size}
    rw [hblank]
  · exact absurd h2 (by simp only [Mk.wsect]; omega)
  · simp [Mk.wsect,total,blocks,cost,BSIZE]

theorem bitmap_testBit (used b : ℕ) :
    (((range used).foldl (fun buf i => update buf (i/8) (buf (i/8) ||| (1 <<< (i%8))))
      fun _ => 0) (b/8)).testBit (b%8) = decide (b < used) := by
  induction used with
  | zero => simp
  | succ n ih =>
    rw [range_succ,foldl_append,foldl_cons,foldl_nil]
    by_cases hdiv : b/8 = n/8
    · rw [hdiv] at ih ⊢
      rw [update_self,Nat.testBit_or,ih,Nat.one_shiftLeft,Nat.testBit_two_pow,Bool.or_eq_decide]
      simp only [decide_eq_true_eq]
      exact decide_eq_decide.mpr (by omega)
    · rw [update_of_ne hdiv,ih]
      exact decide_eq_decide.mpr (by omega)

/-- The image that is left, over the last state of the loop. -/
structure Finished (m : Mk) (node : ℕ → Dinode) (img : Image) : Prop where
  super : img 1 = superBytes
  root : img.dinode mkfsSb ROOTINO = {node ROOTINO with size := ((node ROOTINO).size/BSIZE+1)*BSIZE}
  others : ∀ i < NINODES, i ≠ ROOTINO → img.dinode mkfsSb i = node i
  data : ∀ b, nmeta ≤ b → img b = m.img b
  bits : ∀ b < FSSIZE, (img mkfsSb.bmapstart (b/8)).testBit (b%8) = decide (b < m.freeblock)

theorem Built.finish (h : Built m node st file) (hroot : ROOTINO < m.freeinode) : ∃ img, (do
      let din ← rinode m ROOTINO
      let m ← winode m ROOTINO {din with size := xint ((xint din.size/BSIZE+1)*BSIZE)}
      let m ← mkBalloc m m.freeblock
      some m.img) = some img ∧ Finished m node img := by
  have hal : Alloc mkfsSb node ROOTINO := (h.alloc_iff _).mpr ⟨le_rfl,hroot⟩
  have hsize := h.sound.size_le hal
  have hhigh := h.rel.high
  set di : Dinode := {node ROOTINO with size := ((node ROOTINO).size/BSIZE+1)*BSIZE} with hdi
  have hfits : di.Fits := by
    refine blank_fits (n := m.freeinode) (i := ROOTINO) di ?_ ?_ (fun k => ?_) fun k hk => ?_
    · rw [hdi,h.shape ROOTINO]
    · simp only [hdi,MAXFILE,BSIZE,NDIRECT,NINDIRECT] at *
      omega
    · have hb := h.rel.addrs _ hal.1 k
      simp only [FSSIZE] at hhigh
      exact hb.trans (by omega)
    · exact h.rel.rest _ hal.1 k hk
  obtain ⟨m',hw,hs⟩ := winode_ok m hal.1 hfits
  have hused : m'.freeblock < BSIZE*8 := by
    rw [hs.freeblock]
    simp only [FSSIZE,BSIZE] at *
    omega
  have hx : xint (node ROOTINO).size = (node ROOTINO).size := xint_eq (by
    simp only [MAXFILE,BSIZE,NDIRECT,NINDIRECT] at *
    omega)
  have hx' : xint (((node ROOTINO).size/BSIZE+1)*BSIZE) = ((node ROOTINO).size/BSIZE+1)*BSIZE :=
    xint_eq hfits.size
  have hother : ∀ i < NINODES, IBLOCK mkfsSb i ≠ mkfsSb.bmapstart := fun i hi => by
    have hb : IBLOCK mkfsSb i = i/8+32 := rfl
    have hb' : mkfsSb.bmapstart = 58 := rfl
    simp only [NINODES] at hi
    omega
  rw [rinode_eq hal.1,h.disk _ hal.1]
  simp only [Option.bind_eq_bind,Option.bind_some,hx,hx',← hdi,hw,mkBalloc,if_pos hused]
  refine ⟨_,rfl,?_,?_,fun i hi hne => ?_,fun b hb => ?_,fun b hb => ?_⟩
  · rw [wsect_img,update_of_ne (by decide),hs.super,h.super]
  · refine Eq.trans ?_ hs.self
    rw [Image.dinode,wsect_img,update_of_ne (hother _ hal.1)]
    rfl
  · rw [← h.disk i hi,← hs.others i hi hne,Image.dinode,wsect_img,update_of_ne (hother i hi)]
    rfl
  · have hne : b ≠ mkfsSb.bmapstart := fun he => by
      rw [he] at hb
      exact absurd hb (by decide)
    rw [wsect_img,update_of_ne hne,hs.data b hb]
  · rw [wsect_img,update_self,bitmap_testBit,hs.freeblock]

end

/-! ## What the kernel finds -/

section
variable {sb : Superblock} {st : Store} {di : Dinode} {k : ℕ}

theorem readi_filled (hf : Filled st.data di k) {off n : ℕ} (hend : off+n ≤ BSIZE*k)
    (hsize : off+n ≤ di.size) (hlt : di.size < 2^32) :
    readi sb st di off n = .ok (some ((range n).map fun j => byteAt st.data di (off+j)),di,st) := by
  have hmod : (off+n)%2^32 = off+n := Nat.mod_eq_of_lt (by omega)
  have hc : ¬(off > di.size ∨ off+n < off) := by omega
  rw [readi,hmod,if_neg hc,if_neg (not_lt.mpr hsize)]
  dsimp only
  rw [readLoop_ok hf le_rfl hend]
  rfl

theorem scan_hit (hf : Filled st.data di k) (hlt : di.size < 2^32) {test : Dirent → Bool} (msg : String)
    {last : ℕ} (hend : DESIZE*(last+1) ≤ BSIZE*k) (hsize : DESIZE*(last+1) ≤ di.size)
    (hmiss : ∀ l < last, test (direntAt st.data di l) = false)
    (hhit : test (direntAt st.data di last) = true) {fuel l : ℕ} (hl : l ≤ last)
    (hfuel : last < fuel+l) :
    scan sb test msg fuel st di (DESIZE*l) =
      .ok ((DESIZE*last,some (direntAt st.data di last)),di,st) := by
  induction fuel generalizing l with
  | zero => omega
  | succ fuel ih =>
    have hstep : DESIZE*l+DESIZE ≤ DESIZE*(last+1) := by
      rw [← Nat.mul_succ]
      exact Nat.mul_le_mul_left _ (Nat.succ_le_succ hl)
    have hread : readi sb st di (DESIZE*l) DESIZE = .ok (some ((range DESIZE).map fun j =>
        byteAt st.data di (DESIZE*l+j)),di,st) :=
      readi_filled hf (hstep.trans hend) (hstep.trans hsize) hlt
    have hoff : DESIZE*l < di.size := by
      simp only [DESIZE] at *
      omega
    rw [scan,if_pos hoff,hread]
    simp only [bind,Except.bind,length_map,length_range,ne_eq,not_true,if_false]
    change ite (test (direntAt st.data di l) = true) _ _ = _
    by_cases he : l = last
    · rw [he,if_pos hhit]
      rfl
    · rw [hmiss l (lt_of_le_of_ne hl he),if_neg Bool.false_ne_true]
      exact ih (l := l+1) (by omega) (by omega)

end

section
variable {m : Mk} {node : ℕ → Dinode} {st : Store} {file : ℕ → List ℕ} {img : Image} {i : ℕ}

theorem Finished.readsb (h : Finished m node img) : readsb img = mkfsSb := by
  rw [FileBlocks.readsb,h.super]
  rfl

theorem Finished.fields (h : Finished m node img) (hi : i < NINODES) :
    (img.dinode mkfsSb i).addrs = (node i).addrs ∧ (img.dinode mkfsSb i).type = (node i).type := by
  by_cases hroot : i = ROOTINO
  · rw [hroot,h.root]
    exact ⟨rfl,rfl⟩
  · rw [h.others i hi hroot]
    exact ⟨rfl,rfl⟩

theorem Finished.alloc_iff (h : Finished m node img) (i : ℕ) :
    Alloc mkfsSb (img.dinode mkfsSb) i ↔ Alloc mkfsSb node i :=
  and_congr_right fun hi => by rw [(h.fields hi).2]

theorem Finished.mem_indirects (h : Finished m node img) (b : ℕ) :
    b ∈ img.indirects mkfsSb ↔ ∃ i < NINODES, (node i).addrs NDIRECT = b := by
  simp only [Image.indirects,mem_map,mem_range]
  refine exists_congr fun i => and_congr_right fun hi => ?_
  rw [(h.fields hi).1]

variable (n : ℕ) {b : ℕ}

theorem Finished.used (h : Finished m node img) (hb : b < FSSIZE) :
    (img.store mkfsSb n).used mkfsSb b = decide (b < m.freeblock) := by
  have hmod : b%BPB = b := Nat.mod_eq_of_lt (hb.trans (by decide))
  have hdiv : b/BPB = 0 := Nat.div_eq_of_lt (hb.trans (by decide))
  have hblock : BBLOCK mkfsSb b = mkfsSb.bmapstart := by rw [BBLOCK,hdiv,Nat.zero_add]
  rw [Store.used,hmod,hblock]
  exact h.bits b hb

theorem Finished.bytes (h : Finished m node img) (hB : Built m node st file)
    (hb : nmeta ≤ b ∧ b < FSSIZE) (hno : ∀ i < NINODES, (node i).addrs NDIRECT ≠ b)
    (hj : j < BSIZE) : (img.store mkfsSb n).data b j = st.data b j := by
  have hmem : b ∉ img.indirects mkfsSb := fun hmem => by
    obtain ⟨i,hi,he⟩ := (h.mem_indirects b).mp hmem
    exact hno i hi he
  rw [← hB.rel.bytes b hb.1 hb.2 hno j hj,← h.data b hb.1]
  exact if_neg hmem

theorem Finished.words (h : Finished m node img) (hB : Built m node st file)
    (hb : nmeta ≤ b ∧ b < FSSIZE) (hi : i < NINODES) (he : (node i).addrs NDIRECT = b)
    (hj : j < NINDIRECT) : (img.store mkfsSb n).data b j = st.data b j := by
  rw [← hB.rel.words b hb.1 hb.2 ⟨i,hi,he⟩ j hj,← h.data b hb.1]
  exact if_pos ((h.mem_indirects b).mpr ⟨i,hi,he⟩)

theorem Finished.slot_eq (h : Finished m node img) (hB : Built m node st file)
    (hi : Alloc mkfsSb node i) (k : ℕ) :
    slot (img.store mkfsSb n).data (node i) k = slot st.data (node i) k := by
  unfold slot
  split_ifs with hd hk h0
  · rfl
  · rfl
  · have hb := hB.sound.owned.slot_bounds hi le_rfl (by rwa [slot_indirect])
    rw [slot_indirect] at hb
    exact h.words n hB hb hi.1 rfl (by simp only [MAXFILE] at hk; omega)
  · rfl

theorem Finished.sound (h : Finished m node img) (hB : Built m node st file) :
    Sound mkfsSb node (img.store mkfsSb n) := by
  have hown : ∀ b x, Owns mkfsSb (img.store mkfsSb n).data node b x ↔ Owns mkfsSb st.data node b x :=
    fun b x => and_congr_right fun hi => by rw [h.slot_eq n hB hi]
  have hused : ∀ b < FSSIZE, (img.store mkfsSb n).used mkfsSb b = st.used mkfsSb b := fun b hb => by
    rw [h.used n hb,hB.rel.bits b hb]
  refine ⟨⟨hB.sound.owned.exact.congr hown fun b hb => by rw [hused b hb.2],fun b hb => ?_,
    hB.sound.owned.start⟩,fun i hi => ?_⟩
  · have hlt : b < nmeta := hb
    rw [hused b (hlt.trans (by decide))]
    exact hB.sound.owned.system b hb
  · have hf := hB.sound.filled i hi
    exact ⟨fun k hk => by rw [h.slot_eq n hB hi]; exact hf.slots k hk,hf.indirect,hf.most⟩

theorem Finished.owns_iff (h : Finished m node img) (b : ℕ) (x : ℕ×ℕ) :
    Owns mkfsSb (img.store mkfsSb n).data (img.dinode mkfsSb) b x ↔
      Owns mkfsSb (img.store mkfsSb n).data node b x := by
  unfold Owns
  rw [h.alloc_iff]
  refine and_congr_right fun hi => ?_
  simp only [slot,(h.fields hi.1).1]

theorem Finished.byteAt_eq (h : Finished m node img) (hB : Built m node st file)
    (hi : 1 ≤ i ∧ i < m.freeinode) {o : ℕ} (ho : o < (file i).length) :
    byteAt (img.store mkfsSb n).data (node i) o = (file i).getD o 0 := by
  have hal := (hB.alloc_iff i).mpr hi
  have hf := hB.sound.filled i hal
  have hlt : o/BSIZE < blocks (node i).size := by
    rw [hB.size i]
    simp only [blocks,BSIZE]
    omega
  have hmax : o/BSIZE < MAXFILE := hlt.trans_le hf.most
  have h0 := (hf.slots _ hmax).mpr hlt
  rw [← hB.bytes i hi.1 hi.2 o ho,byteAt,byteAt,h.slot_eq n hB hal]
  exact h.bytes n hB (hB.sound.owned.slot_bounds hal hmax.le h0)
    (hB.rel.slot_ne_indirect hB.sound.owned hal hmax h0) (Nat.mod_lt o (by decide))

theorem Finished.readi_eq (h : Finished m node img) (hB : Built m node st file)
    (hi : 1 ≤ i ∧ i < m.freeinode) (hne : i ≠ ROOTINO) {off len : ℕ} (hoff : off ≤ (file i).length)
    (hlen : off+len < 2^32) :
    readi mkfsSb (img.store mkfsSb n) (img.dinode mkfsSb i) off len =
      .ok (some (((file i).drop off).take len),img.dinode mkfsSb i,img.store mkfsSb n) := by
  have hal := (hB.alloc_iff i).mpr hi
  have hread := @readi_ok _ _ _ _ len off (h.sound n hB) hal (by omega)
  have hc : ¬(off > (node i).size ∨ (off+len)%2^32 < off) := by
    rw [hB.size i,Nat.mod_eq_of_lt hlen]
    omega
  have hbytes : (range (min len ((node i).size-off))).map
      (fun j => byteAt (img.store mkfsSb n).data (node i) (off+j)) = ((file i).drop off).take len := by
    rw [hB.size i]
    apply ext_getElem
    · simp
    intro j h1 h2
    simp only [length_map,length_range] at h1
    have hlt : off+j < (file i).length := by omega
    rw [getElem_map,getElem_range,h.byteAt_eq n hB hi hlt,getElem_take,
      getElem_drop,getD_eq_getElem _ _ hlt]
  rw [h.others i hal.1 hne,hread,if_neg hc,hbytes]

end

theorem flatMap_bytes {es : List Dirent} (hes : ∀ de ∈ es, de.bytes.length = DESIZE) {k : ℕ}
    {de : Dirent} (hk : es[k]? = some de) (hj : j < DESIZE) :
    (es.flatMap Dirent.bytes).getD (DESIZE*k+j) 0 = de.bytes.getD j 0 := by
  induction es generalizing k with
  | nil => cases hk
  | cons e es ih =>
    have he := hes e (mem_cons_self ..)
    rw [flatMap_cons]
    cases k with
    | zero =>
      obtain rfl : e = de := Option.some.inj hk
      rw [Nat.mul_zero,Nat.zero_add,getD_append _ _ _ _ (by rwa [he])]
    | succ =>
      rw [getD_append_right _ _ _ _ (by rw [he]; simp only [DESIZE]; omega),he,
        ← ih (fun d hd => hes d (mem_cons_of_mem _ hd)) hk]
      congr 1
      simp only [DESIZE]
      omega

section
variable {m : Mk} {node : ℕ → Dinode} {st : Store} {files : List InputFile} {img : Image} (n : ℕ)

theorem Finished.direntAt_eq (h : Finished m node img) (hB : Built m node st (made files))
    (hroot : ROOTINO < m.freeinode) (hcount : 2+files.length ≤ NINODES) {k : ℕ} {de : Dirent}
    (hk : (rootEntries files)[k]? = some de) :
    direntAt (img.store mkfsSb n).data (node ROOTINO) k = de := by
  have hde : de ∈ rootEntries files := mem_of_getElem? hk
  have hlen := rootEntries_bytes files de hde
  have hklt : k < 2+files.length := by
    have hlt := (List.getElem?_eq_some_iff.mp hk).1
    simp only [rootEntries,length_cons,length_mapIdx] at hlt
    omega
  have hinum : de.inum < 2^16 := by
    rcases mem_cons.mp hde with rfl | hde
    · decide
    rcases mem_cons.mp hde with rfl | hde
    · decide
    obtain ⟨l,hl,rfl⟩ := mem_mapIdx.mp hde
    simp only [NINODES] at hcount
    show 2+l < 2^16
    omega
  rw [direntAt,← ofBytes_bytes hinum]
  congr 1
  apply ext_getElem
  · rw [hlen,length_map,length_range]
  intro j h1 h2
  have hj : j < DESIZE := hlen ▸ h2
  have hin : DESIZE*k+j < (made files ROOTINO).length := by
    rw [made_root_length]
    simp only [DESIZE] at *
    omega
  have hbytes := flatMap_bytes (rootEntries_bytes files) hk hj
  have hone : 1 ≤ ROOTINO ∧ ROOTINO < m.freeinode := ⟨le_rfl,hroot⟩
  rw [getElem_map,getElem_range,h.byteAt_eq n hB hone hin,made,if_pos rfl,hbytes, getD_eq_getElem _ _ h2]

/-- `dirlookup` in the root finds the first entry with the name. -/
theorem Finished.dirlookup_eq (h : Finished m node img) (hB : Built m node st (made files))
    (hroot : ROOTINO < m.freeinode) (hcount : 2+files.length ≤ NINODES) {name : List ℕ} {k : ℕ}
    {de : Dirent} (hk : (rootEntries files)[k]? = some de) (hhit : de.named name = true)
    (hmiss : ∀ l < k, ∀ e, (rootEntries files)[l]? = some e → e.named name = false) :
    dirlookup mkfsSb (img.store mkfsSb n) (img.dinode mkfsSb ROOTINO) name =
      .ok (some (DESIZE*k,de.inum),img.dinode mkfsSb ROOTINO,img.store mkfsSb n) := by
  have hal : Alloc mkfsSb node ROOTINO := (hB.alloc_iff _).mpr ⟨le_rfl,hroot⟩
  have hf := (h.sound n hB).filled _ hal
  have hsz := hB.size ROOTINO
  rw [made_root_length] at hsz
  have hlt := (List.getElem?_eq_some_iff.mp hk).1
  have hklt : k < 2+files.length := by
    simp only [rootEntries,length_cons,length_mapIdx] at hlt
    omega
  set di : Dinode := {node ROOTINO with size := ((node ROOTINO).size/BSIZE+1)*BSIZE} with hdi
  have hfdi : Filled (img.store mkfsSb n).data di (blocks (node ROOTINO).size) :=
    ⟨hf.slots,hf.indirect,hf.most⟩
  have hent : ∀ {l e}, (rootEntries files)[l]? = some e →
      direntAt (img.store mkfsSb n).data di l = e := fun hl => h.direntAt_eq n hB hroot hcount hl
  have hdsize : di.size = ((node ROOTINO).size/BSIZE+1)*BSIZE := rfl
  have hlt32 : di.size < 2^32 := by
    simp only [hdsize,hsz,DESIZE,BSIZE,NINODES] at *
    omega
  have hend : DESIZE*(k+1) ≤ BSIZE*blocks (node ROOTINO).size := by
    simp only [hsz,blocks,DESIZE,BSIZE]
    omega
  have hend' : DESIZE*(k+1) ≤ di.size := by
    simp only [hdsize,hsz,DESIZE,BSIZE]
    omega
  have hbefore : ∀ l < k, Dirent.named name (direntAt (img.store mkfsSb n).data di l) = false := by
    intro l hl
    obtain ⟨e,he⟩ : ∃ e, (rootEntries files)[l]? = some e :=
      ⟨_,getElem?_eq_getElem (hl.trans hlt)⟩
    rw [hent he]
    exact hmiss l hl e he
  have hfuel : k < di.size+0 := by
    simp only [DESIZE] at hend'
    omega
  have hscan : scan mkfsSb (Dirent.named name) "dirlookup read" di.size (img.store mkfsSb n) di
      (DESIZE*0) = _ :=
    scan_hit hfdi hlt32 "dirlookup read" hend hend' hbefore (by rwa [hent hk]) (Nat.zero_le k) hfuel
  have htype : di.type = .dir := by
    have hs : di.type = (blank m.freeinode ROOTINO).type :=
      (congrArg Dinode.type (hB.shape ROOTINO)).trans rfl
    rw [hs,blank,if_pos ⟨le_rfl,hroot⟩]
    rfl
  rw [h.root,← hdi,dirlookup,if_neg (by simp [htype])]
  change Except.bind (scan mkfsSb (Dirent.named name) "dirlookup read" di.size
    (img.store mkfsSb n) di (DESIZE*0)) _ = _
  rw [hscan,hent hk]
  rfl

end

/-! ## mkfs and the kernel -/

/-- The arguments that fit on the image: strings without slashes that name different files, each
of them small enough, and together within the inodes and the data blocks. -/
structure Arguments (files : List InputFile) : Prop where
  strings : ∀ f ∈ files, 0 ∉ f.name ∧ 47 ∉ f.name
  distinct : (files.map fun f => f.target.take DIRSIZ).Nodup
  each : ∀ f ∈ files, f.contents.length ≤ MAXFILE*BSIZE
  inodes : 2+files.length ≤ NINODES
  blocks : need files ≤ mkfsSb.nblocks

def Found (img : Image) (f : InputFile) : Prop :=
  ∀ n, ∃ off inum,
    dirlookup (readsb img) (img.store (readsb img) n) (img.dinode (readsb img) ROOTINO) f.target =
      .ok (some (off,inum),img.dinode (readsb img) ROOTINO,img.store (readsb img) n) ∧
    (img.dinode (readsb img) inum).type = .file ∧
    (img.dinode (readsb img) inum).size = f.contents.length ∧
    ∀ o len, o ≤ f.contents.length → o+len < 2^32 →
      readi (readsb img) (img.store (readsb img) n) (img.dinode (readsb img) inum) o len =
        .ok (some ((f.contents.drop o).take len),img.dinode (readsb img) inum, img.store (readsb img) n)

/-- Block `b` is stored in slot `x.2` of inode `x.1`, which need not be allocated. -/
def Records (img : Image) (b : ℕ) (x : ℕ×ℕ) : Prop :=
  x.1 < (readsb img).ninodes ∧ x.2 ≤ MAXFILE ∧
    slot (img.store (readsb img) 0).data (img.dinode (readsb img) x.1) x.2 = b ∧ b ≠ 0

/-- The blocks stored on the image are those that its free map has in use. -/
structure Exactly (img : Image) : Prop where
  inside : ∀ b x, Records img b x → area (readsb img) b
  unique : ∀ b x y, Records img b x → Records img b y → x = y
  used : ∀ b < (readsb img).size, (img.store (readsb img) 0).used (readsb img) b = true ↔
    b < (readsb img).dataStart ∨ ∃ x, Records img b x

section
variable {files : List InputFile} {f : InputFile}

theorem Arguments.room (h : Arguments files) : Room (made files) where
  each i := by
    unfold made
    split_ifs with hroot hfile
    · have hlen := made_root_length files
      rw [made,if_pos rfl] at hlen
      have hcount := h.inodes
      rw [hlen]
      simp only [DESIZE,MAXFILE,BSIZE,NDIRECT,NINDIRECT,NINODES] at *
      omega
    · cases hget : files[i-2]? with
      | none => exact Nat.zero_le _
      | some f => exact h.each f (mem_of_getElem? hget)
    · exact Nat.zero_le _
  all := by
    rw [total_made files h.inodes]
    have hb := h.blocks
    have hn : mkfsSb.nblocks = FSSIZE-nmeta := rfl
    have hle : nmeta ≤ FSSIZE := by decide
    omega

theorem made_nil : made [] = update (update (fun _ => []) ROOTINO (direntBytes ROOTINO dot)) ROOTINO
    (direntBytes ROOTINO dot++direntBytes ROOTINO dotdot) := by
  funext i
  rw [Function.update_idem]
  by_cases hi : i = ROOTINO
  · rw [hi,update_self]
    rfl
  · rw [update_of_ne hi,made,if_neg hi]
    split_ifs
    · rfl
    · rfl

theorem Arguments.mkfs (h : Arguments files) :
    ∃ img m node st, mkfs files = some img ∧ Built m node st (made files) ∧
      m.freeinode = 2+files.length ∧ Finished m node img := by
  have hroom := h.room
  have hgrows := made_grows [] files
  rw [nil_append] at hgrows
  obtain ⟨m₁,node₁,hm₁,hB₁,hfi₁⟩ :=
    start_built.mkIalloc (by decide) le_rfl (show InodeType.dir = _ from rfl)
  have hin : 1 ≤ ROOTINO ∧ ROOTINO < m₁.freeinode := ⟨le_rfl,by rw [hfi₁]; decide⟩
  have hdot : ∀ j, update (fun _ => []) ROOTINO ([]++direntBytes ROOTINO dot) j <+: made files j :=
    fun j => by
      refine List.IsPrefix.trans ?_ (hgrows j)
      rw [made_nil]
      by_cases hj : j = ROOTINO
      · rw [hj,update_self,update_self]
        exact prefix_append _ _
      · rw [update_of_ne hj,update_of_ne hj,update_of_ne hj]
  obtain ⟨m₂,node₂,st₂,hm₂,hB₂,hfi₂⟩ := hB₁.grow hin hroom hdot
  have hnil : update (update (fun _ => []) ROOTINO ([]++direntBytes ROOTINO dot)) ROOTINO
      (update (fun _ => []) ROOTINO ([]++direntBytes ROOTINO dot) ROOTINO++
        direntBytes ROOTINO dotdot) = made [] := by
    rw [made_nil,update_self]
    rfl
  obtain ⟨m₃,node₃,st₃,hm₃,hB₃,hfi₃⟩ := hB₂.grow (by rwa [hfi₂]) hroom (by rwa [hnil])
  rw [hnil] at hB₃
  have hfi : m₃.freeinode = 2+([] : List InputFile).length := by rw [hfi₃,hfi₂,hfi₁]; rfl
  obtain ⟨m₄,node₄,st₄,hm₄,hB₄,hfi₄⟩ := hB₃.addFiles files hfi (by rwa [nil_append])
    (fun f hf => (h.strings f hf).2) h.inodes
  rw [nil_append] at hB₄ hfi₄
  obtain ⟨img,himg,hF⟩ := hB₄.finish (by rw [hfi₄,ROOTINO]; omega)
  refine ⟨img,m₄,node₄,st₄,?_,hB₄,hfi₄,hF⟩
  have hone : (Mk.wsect ⟨fun _ _ => 0,1,nmeta⟩ 1 superBytes).freeinode = ROOTINO := rfl
  rw [hone] at hm₁
  rw [FileBlocks.mkfs]
  simp only [Option.bind_eq_bind] at himg ⊢
  simp only [hm₁,Option.bind_some,ne_eq,not_true,if_false,hm₂,hm₃,hm₄]
  exact himg

theorem rootEntries_file {k : ℕ} (hk : files[k]? = some f) :
    (rootEntries files)[2+k]? = some ⟨2+k,strncpy DIRSIZ f.target⟩ := by
  rw [Nat.add_comm,rootEntries,getElem?_cons_succ,getElem?_cons_succ,getElem?_mapIdx,hk, Nat.add_comm]
  rfl

theorem target_string (h : 0 ∉ f.name) : 0 ∉ f.target := by
  unfold InputFile.target
  split_ifs
  · exact fun hm => h (mem_of_mem_tail hm)
  · exact h

theorem Arguments.miss (h : Arguments files) {k : ℕ} (hk : files[k]? = some f)
    (hdots : f.target ≠ dot ∧ f.target ≠ dotdot) {l : ℕ} (hl : l < 2+k) {e : Dirent}
    (he : (rootEntries files)[l]? = some e) : e.named f.target = false := by
  have hf : f ∈ files := mem_of_getElem? hk
  have hstr := target_string (h.strings f hf).1
  -- the stored names are equal only if the first bytes are
  have hname : ∀ {inum t}, 0 ∉ t → t.take DIRSIZ ≠ f.target.take DIRSIZ →
      Dirent.named f.target ⟨inum,strncpy DIRSIZ t⟩ = false := fun {inum t} ht hne => by
    rw [Bool.eq_false_iff]
    intro hnamed
    have heq := ((named_iff (strncpy_idem _ _)).mp hnamed).2
    exact hne ((strncpy_eq_iff ht hstr).mp heq)
  have hshort : ∀ t : List ℕ, t.length < DIRSIZ → f.target ≠ t → t.take DIRSIZ ≠ f.target.take DIRSIZ := by
    intro t ht hne heq
    have hlen := congrArg List.length heq
    rw [length_take,length_take] at hlen
    rw [take_of_length_le (by omega),take_of_length_le (by omega)] at heq
    exact hne heq.symm
  match l with
  | 0 =>
    obtain rfl := Option.some.inj he
    exact hname (by decide) (hshort dot (by decide) hdots.1)
  | 1 =>
    obtain rfl := Option.some.inj he
    exact hname (by decide) (hshort dotdot (by decide) hdots.2)
  | l+2 =>
    have hlt : l < k := by omega
    have hlen := (List.getElem?_eq_some_iff.mp hk).1
    obtain ⟨g,hg⟩ : ∃ g, files[l]? = some g := ⟨_,getElem?_eq_getElem (hlt.trans hlen)⟩
    have hent := rootEntries_file hg
    rw [Nat.add_comm,he] at hent
    obtain rfl := Option.some.inj hent
    refine hname (target_string (h.strings g (mem_of_getElem? hg)).1) fun heq => ?_
    have hnd := List.nodup_iff_getElem?_ne_getElem?.mp h.distinct l k hlt (by rwa [length_map])
    refine hnd ?_
    rw [getElem?_map,getElem?_map,hg,hk,Option.map_some,Option.map_some,heq]

theorem Arguments.found (h : Arguments files) {m : Mk} {node : ℕ → Dinode} {st : Store} {img : Image}
    (hB : Built m node st (made files)) (hfi : m.freeinode = 2+files.length)
    (hF : Finished m node img) (hf : f ∈ files)
    (hdots : f.target ≠ dot ∧ f.target ≠ dotdot) : Found img f := by
  intro n
  obtain ⟨k,hk⟩ := mem_iff_getElem?.mp hf
  have hklt := (List.getElem?_eq_some_iff.mp hk).1
  have hroot : ROOTINO < m.freeinode := by
    simp only [ROOTINO]
    omega
  have hne : 2+k ≠ ROOTINO := by
    simp only [ROOTINO]
    omega
  have hin : 1 ≤ 2+k ∧ 2+k < m.freeinode := by omega
  have hfile : made files (2+k) = f.contents := by
    rw [made_file,hk]
    rfl
  have hnode := hF.others (2+k) (hin.2.trans_le hB.count) hne
  have hnamed : Dirent.named f.target ⟨2+k,strncpy DIRSIZ f.target⟩ = true :=
    (named_iff (strncpy_idem _ _)).mpr ⟨by simp,rfl⟩
  have hlook := hF.dirlookup_eq n hB hroot h.inodes (rootEntries_file hk) hnamed
    fun l hl e he => h.miss hk hdots hl he
  rw [hF.readsb]
  refine ⟨_,_,hlook,?_,?_,fun o len ho hlen => ?_⟩
  · have htype : (node (2+k)).type = (blank m.freeinode (2+k)).type :=
      (congrArg Dinode.type (hB.shape (2+k))).trans rfl
    rw [hnode,htype,blank,if_pos hin,if_neg hne]
  · rw [hnode,hB.size,hfile]
  · rw [← hfile] at ho ⊢
    exact hF.readi_eq n hB hin hne ho hlen

theorem Finished.exactly {m : Mk} {node : ℕ → Dinode} {st : Store} {file : ℕ → List ℕ} {img : Image}
    (hF : Finished m node img) (hB : Built m node st file) : Exactly img := by
  have hS := hF.sound 0 hB
  -- an inode that is not allocated has no blocks
  have hrec : ∀ b x, Records img b x ↔ Owns mkfsSb (img.store mkfsSb 0).data node b x := by
    intro b x
    rw [← hF.owns_iff,Records,hF.readsb]
    constructor
    · rintro ⟨hx,hk,hs,hb⟩
      refine ⟨⟨hx,fun ht => ?_⟩,hk,hs,hb⟩
      have hal : ¬Alloc mkfsSb node x.1 := fun hal => hal.2 ((hF.fields hx).2 ▸ ht)
      have hzero := (hB.clean x.1 (fun hc => hal ((hB.alloc_iff x.1).mpr hc))).1
      have haddr := (hF.fields hx).1
      rw [hzero] at haddr
      refine hb (hs.symm.trans ?_)
      simp [slot,haddr,Dinode.zero]
    · rintro ⟨hx,hk,hs,hb⟩
      exact ⟨hx.1,hk,hs,hb⟩
  have hsb := hF.readsb
  refine ⟨fun b x hx => ?_,fun b x y hx hy => ?_,fun b hb => ?_⟩
  · rw [hsb]
    exact hS.owned.exact.inside ((hrec b x).mp hx)
  · exact hS.owned.exact.unique ((hrec b x).mp hx) ((hrec b y).mp hy)
  · simp only [hrec]
    rw [hsb] at hb ⊢
    by_cases hlow : b < mkfsSb.dataStart
    · exact ⟨fun _ => .inl hlow,fun _ => hS.owned.system b hlow⟩
    · rw [hS.owned.exact.used_iff ⟨not_lt.mp hlow,hb⟩]
      exact ⟨.inr,fun hor => hor.resolve_left hlow⟩

/-- The kernel reads the image as `mkfs` wrote it, when no argument takes the name of one of the
two entries that every directory has. -/
theorem mkfs_agrees (h : Arguments files) (hdots : ∀ f ∈ files, f.target ≠ dot ∧ f.target ≠ dotdot) :
    ∃ img, FileBlocks.mkfs files = some img ∧ (∀ f ∈ files, Found img f) ∧ Exactly img := by
  obtain ⟨img,m,node,st,himg,hB,hfi,hF⟩ := h.mkfs
  exact ⟨img,himg,fun f hf => h.found hB hfi hF hf (hdots f hf),hF.exactly hB⟩

end

def twoFiles : List InputFile := [⟨[95,99,97,116],[[1,2,3]]⟩,⟨[114],[[4],[5,6]]⟩]

theorem twoFiles_arguments : Arguments twoFiles where
  strings := by decide
  distinct := by decide
  each := by decide
  inodes := by decide
  blocks := by decide

theorem twoFiles_agree : ∃ img, mkfs twoFiles = some img ∧ (∀ f ∈ twoFiles, Found img f) ∧ Exactly img :=
  mkfs_agrees twoFiles_arguments (by decide)

/-- A file whose name is `.` after the underscore. -/
def dotFile : InputFile := ⟨[95,46],[[7]]⟩

/-- The entry of the root itself comes first, and the lookup of the file ends there. -/
theorem dotFile_hidden : Arguments [dotFile] ∧ ∃ img, mkfs [dotFile] = some img ∧ ¬Found img dotFile := by
  have hargs : Arguments [dotFile] := ⟨by decide,by decide,by decide,by decide,by decide⟩
  refine ⟨hargs,?_⟩
  obtain ⟨img,m,node,st,himg,hB,hfi,hF⟩ := hargs.mkfs
  refine ⟨img,himg,fun hfound => ?_⟩
  obtain ⟨off,inum,hlook,htype,-⟩ := hfound 0
  have hroot : ROOTINO < m.freeinode := by
    rw [hfi]
    decide
  have hhit : Dirent.named dotFile.target ⟨ROOTINO,strncpy DIRSIZ dot⟩ = true := by decide
  have hdot := hF.dirlookup_eq 0 hB hroot hargs.inodes (k := 0) rfl hhit
    fun l hl => absurd hl (Nat.not_lt_zero l)
  rw [hF.readsb,hdot] at hlook
  simp only [Except.ok.injEq,Prod.mk.injEq,Option.some.injEq] at hlook
  obtain ⟨⟨-,rfl⟩,-⟩ := hlook
  have hdir : (node ROOTINO).type = (blank m.freeinode ROOTINO).type :=
    (congrArg Dinode.type (hB.shape ROOTINO)).trans rfl
  rw [hF.readsb,hF.root] at htype
  change (node ROOTINO).type = .file at htype
  rw [hdir,blank,if_pos ⟨le_rfl,hroot⟩] at htype
  cases htype

end Xv6.FileBlocks
