import Mathlib.Data.List.GetD
import Xv6.FreeBlocks

/-!
# Files as byte arrays

`contents` is the byte array that a file stands for. `readi` returns a piece of it and `writei`
replaces one, or both refuse and change nothing. `filewrite` cuts what it is given into pieces of
`chunk` bytes, each a transaction that writes at the offset of the open file and moves it on: a call
that fails has kept the pieces before, and calls that share the file write one behind the other.
-/
namespace Xv6.FileBlocks
open Function (update update_self)
open Machine List

def contents (data : ℕ → ℕ → ℕ) (di : Dinode) : List ℕ := (range di.size).map (byteAt data di)

def overwrite (l : List ℕ) (off : ℕ) (src : List ℕ) : List ℕ := l.take off++src++l.drop (off+src.length)

@[simp] theorem contents_length (data : ℕ → ℕ → ℕ) (di : Dinode) :
    (contents data di).length = di.size := by simp [contents]

theorem contents_getElem? {data : ℕ → ℕ → ℕ} {di : Dinode} {o : ℕ} (h : o < di.size) :
    (contents data di)[o]? = some (byteAt data di o) := by simp [contents,h]

variable {off n : ℕ}

theorem overwrite_length {l : List ℕ} (src : List ℕ) (h : off ≤ l.length) :
    (overwrite l off src).length = max l.length (off+src.length) := by
  simp only [overwrite,length_append,length_take,length_drop]
  omega

theorem overwrite_getElem? {l : List ℕ} (src : List ℕ) (h : off ≤ l.length) (o : ℕ) :
    (overwrite l off src)[o]? = if off ≤ o ∧ o < off+src.length then src[o-off]? else l[o]? := by
  have htake : (l.take off).length = off := by rw [length_take,min_eq_left h]
  rw [overwrite,append_assoc]
  by_cases hlow : o < off
  · rw [getElem?_append_left (by rwa [htake]),getElem?_take_of_lt hlow,if_neg (by omega)]
  rw [getElem?_append_right (by omega),htake]
  by_cases hhigh : o < off+src.length
  · rw [getElem?_append_left (by omega),if_pos ⟨by omega,hhigh⟩]
  · rw [getElem?_append_right (by omega),if_neg (by omega),getElem?_drop]
    congr 1
    omega

theorem overwrite_end (l src : List ℕ) : overwrite l l.length src = l++src := by
  rw [overwrite,take_length,drop_eq_nil_of_le (by omega),append_nil]

/-! ## A disk with one large file -/

def largeSb : Superblock := ⟨200,150,2,2,3⟩

/-- Inode 1 is a file of `n` bytes with all its blocks: 50 to 61, the indirect block 62, and 63 to
190 behind it. -/
def largeNode (n : ℕ) (i : ℕ) : Dinode := if i = 1 then ⟨.file,0,0,1,n,fun k => 50+k⟩ else .zero

def largeStore (n : ℕ) : Store where
  outstanding := 0
  inodes _ k := largeNode n k
  bits _ b := b ≤ 190
  data b j := if b = 62 then 63+j else 0

def largeSlot (k : ℕ) : ℕ := if k < 12 then 50+k else if k < 140 then 51+k else 62

theorem large_slot (n k : ℕ) : slot (largeStore n).data (largeNode n 1) k = largeSlot k := by
  have hind : (largeNode n 1).addrs NDIRECT = 62 := rfl
  unfold slot largeSlot
  by_cases h1 : k < 12
  · rw [if_pos (show k < NDIRECT from h1),if_pos h1]
    rfl
  rw [if_neg (show ¬k < NDIRECT from h1),if_neg h1]
  by_cases h2 : k < 140
  · rw [if_pos (show k < MAXFILE from h2),if_pos h2,hind,if_neg (by omega)]
    change 63+(k-12) = 51+k
    omega
  · rw [if_neg (show ¬k < MAXFILE from h2),if_neg h2,hind]

theorem large_alloc (n : ℕ) {i : ℕ} : Alloc largeSb (largeNode n) i ↔ i = 1 := by
  constructor
  · rintro ⟨-,htype⟩
    by_contra hi
    exact htype (by rw [largeNode,if_neg hi]; rfl)
  · rintro rfl
    exact ⟨by decide,nofun⟩

theorem large_owns {b i k : ℕ} (h : Owns largeSb (largeStore n).data (largeNode n) b (i,k)) :
    i = 1 ∧ k ≤ 140 ∧ largeSlot k = b := by
  obtain ⟨hi,hk,hs,-⟩ := h
  obtain rfl := (large_alloc n).mp hi
  exact ⟨rfl,hk,by rw [← large_slot n k,hs]⟩

theorem large_used (n b : ℕ) (hb : b < 4096) : (largeStore n).used largeSb b = true ↔ b ≤ 190 := by
  have hmod : b%BPB = b := Nat.mod_eq_of_lt hb
  simp only [Store.used,hmod,largeStore,decide_eq_true_eq]

theorem large_sound (h : blocks n = MAXFILE) : Sound largeSb (largeNode n) (largeStore n) := by
  refine ⟨⟨⟨?_,?_,?_⟩,?_,by decide⟩,?_⟩
  · rintro b ⟨i,k⟩ hb
    obtain ⟨-,hk,rfl⟩ := large_owns hb
    simp only [area,Superblock.dataStart,largeSb,largeSlot]
    split_ifs <;> omega
  · rintro b ⟨i,k⟩ ⟨j,l⟩ hb hc
    obtain ⟨rfl,hk,hbk⟩ := large_owns hb
    obtain ⟨rfl,hl,hbl⟩ := large_owns hc
    have hkl : k = l := by
      unfold largeSlot at hbk hbl
      split_ifs at hbk hbl <;> omega
    rw [hkl]
  · intro b hb
    simp only [area,Superblock.dataStart,largeSb] at hb
    rw [large_used n b (by omega)]
    constructor
    · intro hu
      refine ⟨(1,if b < 62 then b-50 else if b = 62 then 140 else b-51),
        (large_alloc n).mpr rfl,?_,?_,by omega⟩
      · change _ ≤ 140
        dsimp only
        split_ifs <;> omega
      · rw [large_slot,largeSlot]
        split_ifs <;> omega
    · rintro ⟨⟨i,k⟩,hb⟩
      obtain ⟨-,hk,rfl⟩ := large_owns hb
      unfold largeSlot
      split_ifs <;> omega
  · intro b hb
    simp only [Superblock.dataStart,largeSb] at hb
    rw [large_used n b (by omega)]
    omega
  · intro j hj
    obtain rfl := (large_alloc n).mp hj
    have hsize : (largeNode n 1).size = n := rfl
    rw [hsize,h]
    constructor
    · intro k hk
      rw [large_slot]
      simp only [hk,iff_true,largeSlot]
      split_ifs <;> omega
    · exact iff_of_true nofun (by decide)
    · exact le_rfl

/-! ## readi and writei -/

section
variable {sb : Superblock} {node : ℕ → Dinode} {st st' : Store} {i off : ℕ} {src : List ℕ}
  {di' di : Dinode}

theorem contents_congr {data data' : ℕ → ℕ → ℕ}
    (h : ∀ o < di.size, byteAt data' di o = byteAt data di o) : contents data' di = contents data di :=
  map_congr_left fun o ho => h o (mem_range.mp ho)

theorem Written.contents_eq (w : Written sb node st i off src di' st') (hoff : off ≤ (node i).size) :
    contents st'.data di' = overwrite (contents st.data (node i)) off src := by
  have hoff' : off ≤ (contents st.data (node i)).length := by rwa [contents_length]
  apply ext_getElem?
  intro o
  rw [overwrite_getElem? src hoff']
  by_cases ho : o < di'.size
  · rw [contents_getElem? ho,w.bytes o ho]
    have hsize := w.size
    split_ifs with hin
    · rw [getD_eq_getElem?_getD,getElem?_eq_getElem (by omega)]
      rfl
    · rw [contents_getElem? (by omega)]
  · have hsize := w.size
    rw [getElem?_eq_none (by rw [contents_length]; omega),if_neg (by omega),
      getElem?_eq_none (by rw [contents_length]; omega)]

theorem read_contents (data : ℕ → ℕ → ℕ) (di : Dinode) (off n : ℕ) :
    (range (min n (di.size-off))).map (fun j => byteAt data di (off+j)) =
      ((contents data di).drop off).take n := by
  apply ext_getElem
  · simp
  · intro j h1 h2
    simp [contents]

theorem Sound.outstanding (h : Sound sb node st) (n : ℕ) : Sound sb node {st with outstanding := n} :=
  Wf.congr h rfl (fun _ => rfl) (fun _ => Iff.rfl) (fun _ => rfl) fun _ _ => rfl

def Accepts (di : Dinode) (off n : ℕ) : Prop := off ≤ di.size ∧ off+n < 2^32 ∧ off+n ≤ MAXFILE*BSIZE

theorem writei_accepts {r : Option ℕ} (hc : Accepts di off src.length)
    (hr : writei sb st i di off src = .ok (r,di',st')) : r = some src.length := by
  obtain ⟨h1,h2,h3⟩ := hc
  unfold writei at hr
  rw [if_neg (by omega),if_neg (by omega)] at hr
  obtain ⟨⟨di₁,t⟩,-,hr⟩ := bind_ok.mp hr
  dsimp only at hr
  split_ifs at hr
  · obtain ⟨u,-,hr⟩ := bind_ok.mp hr
    cases hr
    rfl
  · cases hr
    rfl

theorem writei_refuses (hoff : off < 2^32) (hsrc : src.length < 2^32)
    (hc : ¬Accepts di off src.length) : writei sb st i di off src = .ok (none,di,st) := by
  unfold Accepts at hc
  unfold writei
  by_cases hrefuse : off > di.size ∨ (off+src.length)%2^32 < off
  · rw [if_pos hrefuse]
  · rw [if_neg hrefuse,if_pos (by omega)]

end

/-! ## filewrite -/

def chunk : ℕ := ((MAXOPBLOCKS-1-1-2)/2)*512

/-- What a write through an open file works on: the offset of the open file, the inodes in
memory and the disk. -/
structure Opened where
  off : ℕ
  node : ℕ → Dinode
  store : Store

variable (sb : Superblock) (i : ℕ)

/-- One transaction of `filewrite` on inode `i`, from `begin_op` to `end_op`. -/
def transact (s : Opened) (src : List ℕ) : Except String (Option ℕ×Opened) := do
  let (r,di,st) ← writei sb {s.store with outstanding := s.store.outstanding+1} i (s.node i) s.off src
  let off := match r with
    | some r => if r > 0 then (s.off+r)%2^32 else s.off
    | none => s.off
  .ok (r,⟨off,update s.node i di,{st with outstanding := st.outstanding-1}⟩)

/-- The loop of `filewrite`. It returns what is left when it ends. -/
def filewriteLoop : ℕ → Opened → List ℕ → Except String (List ℕ×Opened)
  | 0,s,src => .ok (src,s)
  | fuel+1,s,src =>
    if src = [] then .ok (src,s) else do
      let (r,s) ← transact sb i s (src.take chunk)
      match r with
      | none => .ok (src,s)
      | some r =>
        if r ≠ (src.take chunk).length then .error "short filewrite"
        else filewriteLoop fuel s (src.drop r)

/-- `filewrite` of an open file that refers to an inode. The result is the number of bytes, or
nothing for -1. -/
def filewrite (writable : Bool) (s : Opened) (src : List ℕ) : Except String (Option ℕ×Opened) :=
  if writable = false then .ok (none,s)
  else do
    let (rest,s) ← filewriteLoop sb i src.length s src
    .ok (if rest = [] then some src.length else none,s)

variable {sb i}

/-- An open file of inode `i` on a sound disk, with its offset inside the file. -/
structure Opened.Ready (sb : Superblock) (i : ℕ) (s : Opened) : Prop where
  sound : Sound sb s.node s.store
  alloc : Alloc sb s.node i
  off : s.off ≤ (s.node i).size

def Opened.bytes (s : Opened) (i : ℕ) : List ℕ := contents s.store.data (s.node i)

structure Took (sb : Superblock) (i : ℕ) (s : Opened) (src : List ℕ) (s' : Opened) : Prop where
  ready : s'.Ready sb i
  off : s'.off = s.off+src.length
  bytes : s'.bytes i = overwrite (s.bytes i) s.off src

/-- The open file of the large file, with its offset at `off`. -/
def large (n off : ℕ) : Opened := ⟨off,largeNode n,largeStore n⟩

theorem large_ready (h : blocks n = MAXFILE) (hoff : off ≤ n) : (large n off).Ready largeSb 1 :=
  ⟨large_sound h,(large_alloc n).mpr rfl,hoff⟩

section
variable {s s' : Opened} {src : List ℕ} {fuel : ℕ}

theorem Opened.Ready.off_lt (h : s.Ready sb i) : s.off < 2^17 := by
  have hsize := h.sound.size_le h.alloc
  have hoff := h.off
  simp only [MAXFILE,BSIZE,NDIRECT,NINDIRECT] at hsize
  omega

theorem Opened.Ready.accepts_iff (h : s.Ready sb i) (hsrc : src.length < 2^31) :
    Accepts (s.node i) s.off src.length ↔ s.off+src.length ≤ MAXFILE*BSIZE := by
  have hlt := h.off_lt
  have hoff := h.off
  constructor
  · exact fun hc => hc.2.2
  · exact fun hc => ⟨hoff,by omega,hc⟩

theorem transact_refuses (h : s.Ready sb i) (hsrc : src.length < 2^31)
    (hmax : MAXFILE*BSIZE < s.off+src.length) : transact sb i s src = .ok (none,s) := by
  have hlt := h.off_lt
  have haccepts := h.accepts_iff hsrc
  unfold transact
  rw [writei_refuses (by omega) (by omega) (mt haccepts.mp (Nat.not_le.mpr hmax))]
  cases s with
  | mk =>
    simp only [Function.update_eq_self,Nat.add_sub_cancel,bind,Except.bind]

theorem transact_ok (h : s.Ready sb i) (hsrc : src.length < 2^31) {r : Option ℕ}
    (hr : transact sb i s src = .ok (r,s')) :
    if s.off+src.length ≤ MAXFILE*BSIZE then r = some src.length ∧ Took sb i s src s'
    else r = none ∧ s' = s := by
  have hlt := h.off_lt
  have haccepts := h.accepts_iff hsrc
  have hS := h.sound.outstanding (s.store.outstanding+1)
  split_ifs with hmax
  · obtain ⟨⟨r',di,t⟩,hw,hr⟩ := bind_ok.mp hr
    obtain rfl := writei_accepts (haccepts.mpr hmax) hw
    rcases writei_ok hS h.alloc (by omega) hw with ⟨hnone,-,-⟩ | ⟨-,-,w⟩
    · cases hnone
    cases hr
    have hnew : (if src.length > 0 then (s.off+src.length)%2^32 else s.off) = s.off+src.length := by
      split_ifs
      · exact Nat.mod_eq_of_lt (by omega)
      · omega
    have htype : di.type = (s.node i).type := (congrArg Dinode.type w.fields).trans rfl
    have hself : update s.node i di i = di := update_self ..
    refine ⟨rfl,⟨⟨w.sound.outstanding _,(alloc_update htype i).mpr h.alloc,?_⟩,hnew,?_⟩⟩
    · have hsize := w.size
      change (if src.length > 0 then (s.off+src.length)%2^32 else s.off) ≤ (update s.node i di i).size
      rw [hself,hnew]
      omega
    · have hbytes := w.contents_eq h.off
      simp only [Opened.bytes,hself]
      exact hbytes
  · rw [transact_refuses h hsrc (Nat.not_le.mp hmax)] at hr
    cases hr
    exact ⟨rfl,rfl⟩

theorem transact_error (h : s.Ready sb i) (hsrc : src.length < 2^31) {m : String}
    (hr : transact sb i s src = .error m) : m = "balloc: out of blocks" := by
  have hlt := h.off_lt
  rcases bind_error.mp hr with hr | ⟨⟨r',di,t⟩,-,hr⟩
  · rcases writei_error (by omega) (by omega) hr with hm | ⟨-,hopen⟩
    · exact hm
    · exact absurd hopen (Nat.not_lt.mpr (Nat.le_add_left 1 _))
  · cases hr

theorem overwrite_append {l : List ℕ} (a b : List ℕ) (h : off ≤ l.length) :
    overwrite (overwrite l off a) (off+a.length) b = overwrite l off (a++b) := by
  have h1 := overwrite_length a h
  apply ext_getElem?
  intro o
  rw [overwrite_getElem? b (by omega),overwrite_getElem? a h,overwrite_getElem? (a++b) h, length_append]
  by_cases hb : off+a.length ≤ o ∧ o < off+a.length+b.length
  · rw [if_pos hb,if_pos (by omega),getElem?_append_right (by omega)]
    congr 1
    omega
  · rw [if_neg hb]
    by_cases ha : off ≤ o ∧ o < off+a.length
    · rw [if_pos ha,if_pos (by omega),getElem?_append_left (by omega)]
    · rw [if_neg ha,if_neg (by omega)]

/-- What the loop of `filewrite` does: it writes all, or it stops at the first piece that would
end behind the largest file. -/
theorem filewriteLoop_ok (h : s.Ready sb i) (hsrc : src.length < 2^31)
    (hfuel : src.length ≤ fuel) {rest : List ℕ} (hr : filewriteLoop sb i fuel s src = .ok (rest,s')) :
    if s.off+src.length ≤ MAXFILE*BSIZE then rest = [] ∧ Took sb i s src s'
    else rest ≠ [] ∧ (MAXFILE*BSIZE < s.off+min src.length chunk → s' = s) := by
  have hdone : ∀ {s : Opened}, s.Ready sb i → Took sb i s [] s := fun {s} h => by
    refine ⟨h,rfl,?_⟩
    rw [overwrite,append_nil,length_nil,Nat.add_zero,take_append_drop]
  have hmax0 := h.sound.size_le h.alloc
  have hoff := h.off
  induction fuel generalizing s src with
  | zero =>
    obtain rfl : src = [] := length_eq_zero_iff.mp (by omega)
    cases hr
    rw [if_pos (by simp only [length_nil]; omega)]
    exact ⟨rfl,hdone h⟩
  | succ fuel ih =>
    unfold filewriteLoop at hr
    split_ifs at hr with hnil
    · subst hnil
      cases hr
      rw [if_pos (by simp only [length_nil]; omega)]
      exact ⟨rfl,hdone h⟩
    have hpos : 0 < src.length := length_pos_iff.mpr hnil
    have hchunk : chunk = 1536 := rfl
    have htake : (src.take chunk).length = min src.length chunk := by
      rw [length_take,Nat.min_comm]
    obtain ⟨⟨r,s₁⟩,ht,hnext⟩ := bind_ok.mp hr
    have hstep := transact_ok h (by omega) ht
    by_cases hfit : s.off+(src.take chunk).length ≤ MAXFILE*BSIZE
    · rw [if_pos hfit] at hstep
      obtain ⟨rfl,w⟩ := hstep
      dsimp only at hnext
      rw [if_neg (not_not.mpr rfl)] at hnext
      have hlen : (src.drop (src.take chunk).length).length = src.length-min src.length chunk := by
        rw [length_drop,htake]
      have hw := w.off
      have hih := ih w.ready (by omega) (by omega) hnext (w.ready.sound.size_le w.ready.alloc) w.ready.off
      have hsplit : src.take chunk++src.drop (src.take chunk).length = src := by
        rw [htake]
        by_cases hle : src.length ≤ chunk
        · rw [min_eq_left hle,drop_length,append_nil,take_of_length_le hle]
        · rw [min_eq_right (by omega),take_append_drop]
      by_cases hall : s.off+src.length ≤ MAXFILE*BSIZE
      · rw [if_pos hall]
        rw [if_pos (by omega)] at hih
        obtain ⟨rfl,w'⟩ := hih
        refine ⟨rfl,w'.ready,?_,?_⟩
        · rw [w'.off,hw,Nat.add_assoc,← length_append,hsplit]
        · have hin : s.off ≤ (s.bytes i).length := by rwa [Opened.bytes,contents_length]
          rw [w'.bytes,w.bytes,hw,overwrite_append _ _ hin,hsplit]
      · rw [if_neg hall]
        rw [if_neg (by omega)] at hih
        exact ⟨hih.1,fun hlt => by omega⟩
    · rw [if_neg hfit] at hstep
      obtain ⟨rfl,rfl⟩ := hstep
      cases hnext
      rw [if_neg (by omega)]
      exact ⟨hnil,fun _ => rfl⟩

theorem filewriteLoop_error (h : s.Ready sb i) (hsrc : src.length < 2^31) {m : String}
    (hr : filewriteLoop sb i fuel s src = .error m) : m = "balloc: out of blocks" := by
  induction fuel generalizing s src with
  | zero => cases hr
  | succ fuel ih =>
    unfold filewriteLoop at hr
    split_ifs at hr with hnil
    have htake : (src.take chunk).length ≤ src.length := by
      rw [length_take]
      exact Nat.min_le_right _ _
    rcases bind_error.mp hr with hfail | ⟨⟨r,s₁⟩,ht,hnext⟩
    · exact transact_error h (by omega) hfail
    have hstep := transact_ok h (by omega) ht
    split_ifs at hstep with hfit
    · obtain ⟨rfl,w⟩ := hstep
      dsimp only at hnext
      rw [if_neg (not_not.mpr rfl)] at hnext
      exact ih w.ready (by rw [length_drop]; omega) hnext
    · obtain ⟨rfl,rfl⟩ := hstep
      cases hnext

theorem filewriteLoop_refuses (h : s.Ready sb i) (hsrc : src.length < 2^31)
    (hpos : 0 < src.length) (hfuel : src.length ≤ fuel)
    (hmax : MAXFILE*BSIZE < s.off+min src.length chunk) :
    filewriteLoop sb i fuel s src = .ok (src,s) := by
  obtain ⟨fuel,rfl⟩ : ∃ k, fuel = k+1 := ⟨fuel-1,by omega⟩
  have htake : (src.take chunk).length = min src.length chunk := by
    rw [length_take,Nat.min_comm]
  unfold filewriteLoop
  rw [if_neg (length_pos_iff.mp hpos),transact_refuses h (by omega) (by omega)]
  rfl

theorem transact_takes (h : s.Ready sb i) (hmax : s.off+src.length ≤ MAXFILE*BSIZE) :
    Takes sb s.store (needs (blocks (s.node i).size) (blocks (s.off+src.length)))
      (transact sb i s src) (·.2.store) := by
  have hS := h.sound.outstanding (s.store.outstanding+1)
  have hw : Takes sb s.store (needs (blocks (s.node i).size) (blocks (s.off+src.length)))
      (writei sb {s.store with outstanding := s.store.outstanding+1} i (s.node i) s.off src) (·.2.2) :=
    writei_takes hS h.alloc h.off hmax
  refine hw.bind (e := 0) fun r _ => ?_
  exact .ok fun _ => rfl

theorem Took.size (w : Took sb i s src s') (h : s.Ready sb i) :
    (s'.node i).size = max (s.node i).size (s.off+src.length) := by
  have hin : s.off ≤ (s.bytes i).length := by
    rw [Opened.bytes,contents_length]
    exact h.off
  have hlen := congrArg List.length w.bytes
  rwa [overwrite_length src hin,Opened.bytes,Opened.bytes,contents_length,contents_length] at hlen

theorem filewriteLoop_takes (h : s.Ready sb i) (hfuel : src.length ≤ fuel)
    (hmax : s.off+src.length ≤ MAXFILE*BSIZE) :
    Takes sb s.store (needs (blocks (s.node i).size) (blocks (s.off+src.length)))
      (filewriteLoop sb i fuel s src) (·.2.store) := by
  have hdone : ∀ {s : Opened}, s.Ready sb i →
      Takes sb s.store (needs (blocks (s.node i).size) (blocks (s.off+([] : List ℕ).length)))
        (.ok (([] : List ℕ),s)) (·.2.store) := fun h =>
    (Takes.ok fun _ => rfl).congr (needs_self (blocks_mono h.off)).symm
  induction fuel generalizing s src with
  | zero =>
    obtain rfl : src = [] := length_eq_zero_iff.mp (by omega)
    exact hdone h
  | succ fuel ih =>
    unfold filewriteLoop
    split_ifs with hnil
    · subst hnil
      exact hdone h
    have hpos : 0 < src.length := length_pos_iff.mpr hnil
    have hchunk : chunk = 1536 := rfl
    have htake : (src.take chunk).length = min src.length chunk := by
      rw [length_take,Nat.min_comm]
    have hlast : max (blocks (s.off+(src.take chunk).length)) (blocks (s.off+src.length)) =
        blocks (s.off+src.length) := max_eq_right (blocks_mono (by omega))
    rw [← hlast,← needs_trans]
    refine (transact_takes h (by omega)).bind fun r hr => ?_
    obtain ⟨r,s₁⟩ := r
    have hlt := h.off_lt
    have hmaxlt : MAXFILE*BSIZE < 2^31 := by decide
    have hstep := transact_ok h (by omega) hr
    rw [if_pos (by omega)] at hstep
    obtain ⟨rfl,w⟩ := hstep
    have hlen : (src.drop (src.take chunk).length).length = src.length-min src.length chunk := by
      rw [length_drop,htake]
    have hend : s₁.off+(src.drop (src.take chunk).length).length = s.off+src.length := by
      rw [w.off,hlen]
      omega
    have hfuel' : (src.drop (src.take chunk).length).length ≤ fuel := by omega
    have hrest := ih w.ready hfuel' (by omega)
    rw [hend,w.size h,blocks_mono.map_max] at hrest
    dsimp only
    rw [if_neg (not_not.mpr rfl)]
    exact hrest

end

/-! ## Calls that share an open file -/

/-- A running call of `filewrite`: what it was given, what is left, and whether it has failed. -/
structure Call where
  src : List ℕ
  rest : List ℕ
  failed : Bool
  deriving DecidableEq,Repr

/-- An open file and the calls that have been made through it. -/
structure Shared where
  file : Opened
  calls : List Call

inductive Turn
  | call (src : List ℕ)
  | turn (k : ℕ)
  deriving DecidableEq,Repr

variable (sb i) in
/-- A process starts a call, or call `k` goes once through the loop of `filewrite`. A panic ends
the run. -/
def Shared.step (s : Shared) : Turn → Option Shared
  | .call src =>
    if src.length < 2^31 then some {s with calls := s.calls++[⟨src,src,false⟩]} else none
  | .turn k =>
    match s.calls[k]? with
    | none => none
    | some c =>
      if c.rest = [] ∨ c.failed then none
      else match transact sb i s.file (c.rest.take chunk) with
      | .error _ => none
      | .ok (none,f) => some ⟨f,s.calls.set k {c with failed := true}⟩
      | .ok (some r,f) =>
        if r ≠ (c.rest.take chunk).length then none
        else some ⟨f,s.calls.set k {c with rest := c.rest.drop r}⟩

def cut (src : List ℕ) : List (List ℕ) :=
  (range ((src.length+chunk-1)/chunk)).map fun j => (src.drop (j*chunk)).take chunk

/-- The pieces of call `k` in a list of pieces with their calls. -/
def ofCall (log : List (ℕ×List ℕ)) (k : ℕ) : List (List ℕ) := (log.filter (·.1 = k)).map Prod.snd

/-- `m` pieces of the call are written, `done` in order. -/
structure Call.Cut (c : Call) (done : List (List ℕ)) (m : ℕ) : Prop where
  small : c.src.length < 2^31
  rest : c.rest = c.src.drop (m*chunk)
  done : done = (cut c.src).take m
  most : m ≤ (cut c.src).length

structure Shared.Grown (sb : Superblock) (i : ℕ) (old : List ℕ) (s : Shared)
    (log : List (ℕ×List ℕ)) : Prop where
  ready : s.file.Ready sb i
  off : s.file.off = (s.file.node i).size
  bytes : s.file.bytes i = old++(log.map Prod.snd).flatten
  calls : ∀ k (c : Call), s.calls[k]? = some c → ∃ m, c.Cut (ofCall log k) m
  known : ∀ x ∈ log, x.1 < s.calls.length
  total : (s.file.node i).size = old.length+(s.calls.map fun c => c.src.length-c.rest.length).sum

section
variable {s s' : Shared} {a : Turn} {log : List (ℕ×List ℕ)} {old : List ℕ} {m : ℕ}

theorem Shared.step_cases (h : s.step sb i a = some s') :
    (∃ src, src.length < 2^31 ∧ s' = {s with calls := s.calls++[⟨src,src,false⟩]}) ∨
    ∃ k c r f, s.calls[k]? = some c ∧ c.rest ≠ [] ∧
      transact sb i s.file (c.rest.take chunk) = .ok (r,f) ∧
      (r = none ∧ s' = ⟨f,s.calls.set k {c with failed := true}⟩ ∨ r = some (c.rest.take chunk).length ∧
          s' = ⟨f,s.calls.set k {c with rest := c.rest.drop (c.rest.take chunk).length}⟩) := by
  cases a with
  | call src =>
    simp only [Shared.step] at h
    split_ifs at h with hsrc
    cases h
    exact .inl ⟨src,hsrc,rfl⟩
  | turn k =>
    simp only [Shared.step] at h
    split at h
    · cases h
    rename_i c hc
    split_ifs at h with hend
    rw [not_or] at hend
    split at h
    · cases h
    · rename_i f ht
      cases h
      exact .inr ⟨k,c,none,f,hc,hend.1,ht,.inl ⟨rfl,rfl⟩⟩
    · rename_i r f ht
      split_ifs at h with hr
      cases h
      rw [not_not] at hr
      subst hr
      exact .inr ⟨k,c,_,f,hc,hend.1,ht,.inr ⟨rfl,rfl⟩⟩

theorem cut_length (src : List ℕ) : (cut src).length = (src.length+1535)/1536 := by
  have hchunk : chunk = 1536 := rfl
  rw [cut,length_map,length_range,hchunk]
  omega

theorem cut_getElem? {src : List ℕ} (h : m < (cut src).length) :
    (cut src)[m]? = some ((src.drop (m*chunk)).take chunk) := by
  rw [cut,length_map,length_range] at h
  simp [cut,h]

theorem Call.Cut.next {c : Call} {done : List (List ℕ)} (h : c.Cut done m) (hrest : c.rest ≠ []) :
    ({c with rest := c.rest.drop (c.rest.take chunk).length} : Call).Cut
      (done++[c.rest.take chunk]) (m+1) := by
  have hchunk : chunk = 1536 := rfl
  have hpos := length_pos_iff.mpr hrest
  rw [h.rest,length_drop,hchunk] at hpos
  have hm : m < (cut c.src).length := by
    rw [cut_length]
    omega
  refine ⟨h.small,?_,?_,hm⟩
  · change c.rest.drop _ = _
    rw [length_take]
    by_cases hle : chunk ≤ c.rest.length
    · rw [min_eq_left hle,h.rest,drop_drop,Nat.succ_mul]
    · rw [min_eq_right (by omega),drop_length]
      rw [h.rest,length_drop,hchunk] at hle
      exact (drop_eq_nil_of_le (by rw [hchunk]; dsimp only; omega)).symm
  · rw [h.done,take_add_one,cut_getElem? hm,h.rest]
    rfl

theorem Call.Cut.all {c : Call} {done : List (List ℕ)} (h : c.Cut done m) (hrest : c.rest = []) :
    done = cut c.src := by
  have hchunk : chunk = 1536 := rfl
  have hlen := congrArg List.length h.rest
  rw [hrest,length_drop,length_nil,hchunk] at hlen
  rw [h.done,take_of_length_le]
  rw [cut_length]
  omega

theorem ofCall_append (k j : ℕ) (piece : List ℕ) :
    ofCall (log++[(k,piece)]) j = if k = j then ofCall log j++[piece] else ofCall log j := by
  simp only [ofCall,filter_append,map_append]
  split_ifs with h
  · simp [h]
  · simp [h]

theorem sum_set {β : Type} (w : β → ℕ) {l : List β} {k : ℕ} {x y : β} (h : l[k]? = some x) :
    ((l.set k y).map w).sum+w x = (l.map w).sum+w y := by
  induction l generalizing k with
  | nil => cases h
  | cons z l ih =>
    cases k with
    | zero =>
      cases h
      simp only [set_cons_zero,map_cons,sum_cons]
      omega
    | succ =>
      have := ih h
      simp only [set_cons_succ,map_cons,sum_cons]
      omega

theorem Shared.Grown.start {f : Opened} (hf : f.Ready sb i) (hend : f.off = (f.node i).size) :
    (⟨f,[]⟩ : Shared).Grown sb i (f.bytes i) [] where
  ready := hf
  off := hend
  bytes := (append_nil _).symm
  calls _ _ h := by cases h
  known _ h := by cases h
  total := by simp [Opened.bytes]

theorem Shared.Grown.step (h : s.Grown sb i old log) (hs : s.step sb i a = some s') :
    ∃ log', s'.Grown sb i old log' := by
  rcases Shared.step_cases hs with ⟨src,hsrc,rfl⟩ | ⟨k,c,r,f,hc,hrest,ht,hs⟩
  · refine ⟨log,h.ready,h.off,h.bytes,?_,?_,?_⟩
    · intro j d hd
      by_cases hj : j < s.calls.length
      · rw [getElem?_append_left hj] at hd
        exact h.calls j d hd
      · rw [getElem?_append_right (by omega),getElem?_singleton] at hd
        split_ifs at hd with hzero
        cases hd
        have hnone : ofCall log j = [] := by
          rw [ofCall,map_eq_nil_iff,filter_eq_nil_iff]
          intro x hx hxj
          have := h.known x hx
          rw [decide_eq_true_eq] at hxj
          omega
        exact ⟨0,hsrc,by simp,by simp [hnone],Nat.zero_le _⟩
    · intro x hx
      have := h.known x hx
      simp only [length_append]
      omega
    · rw [h.total]
      simp
  · obtain ⟨m,hcut⟩ := h.calls k c hc
    have hk : k < s.calls.length := (List.getElem?_eq_some_iff.mp hc).1
    have hlen : (c.rest.take chunk).length = min chunk c.rest.length := length_take
    have hle : c.rest.length ≤ c.src.length := by
      rw [hcut.rest,length_drop]
      omega
    have hstep := transact_ok h.ready (by have := hcut.small; omega) ht
    rcases hs with ⟨rfl,rfl⟩ | ⟨rfl,rfl⟩
    · -- the call has failed without effect
      obtain rfl : f = s.file := by
        split_ifs at hstep
        · cases hstep.1
        · exact hstep.2
      refine ⟨log,h.ready,h.off,h.bytes,?_,?_,?_⟩
      · intro j d hd
        rw [getElem?_set] at hd
        split_ifs at hd with hjk
        · cases hd
          subst hjk
          exact ⟨m,hcut.small,hcut.rest,hcut.done,hcut.most⟩
        · exact h.calls j d hd
      · intro x hx
        rw [length_set]
        exact h.known x hx
      · have hsum := sum_set (fun c : Call => c.src.length-c.rest.length) (y := {c with failed := true}) hc
        have htotal := h.total
        dsimp only at hsum ⊢
        omega
    · have w : Took sb i s.file (c.rest.take chunk) f := by
        split_ifs at hstep
        · exact hstep.2
        · cases hstep.1
      have hold : s.file.off = (s.file.bytes i).length := by rw [h.off,Opened.bytes,contents_length]
      have hbytes : f.bytes i = s.file.bytes i++c.rest.take chunk := by
        rw [w.bytes,hold,overwrite_end]
      have hsize : (f.node i).size = (s.file.node i).size+(c.rest.take chunk).length := by
        have := congrArg List.length hbytes
        rwa [length_append,Opened.bytes,contents_length,Opened.bytes,contents_length] at this
      refine ⟨log++[(k,c.rest.take chunk)],w.ready,?_,?_,?_,?_,?_⟩
      · rw [w.off,hsize,h.off]
      · rw [hbytes,h.bytes]
        simp
      · intro j d hd
        rw [getElem?_set] at hd
        rw [ofCall_append]
        split_ifs at hd with hjk
        · cases hd
          subst hjk
          rw [if_pos rfl]
          exact ⟨m+1,hcut.next hrest⟩
        · rw [if_neg hjk]
          exact h.calls j d hd
      · intro x hx
        rw [length_set]
        rcases List.mem_append.mp hx with hx | hx
        · exact h.known x hx
        · rw [mem_singleton.mp hx]
          exact hk
      · have hsum := sum_set (fun c : Call => c.src.length-c.rest.length)
          (y := {c with rest := c.rest.drop (c.rest.take chunk).length}) hc
        have htotal := h.total
        dsimp only at hsum ⊢
        rw [length_drop] at hsum
        omega

/-- Calls that share an open file at the end of the file append their pieces, one behind the
other and those of each call in order. -/
theorem shared_appends {f : Opened} (hf : f.Ready sb i) (hend : f.off = (f.node i).size)
    (h : Reach (Shared.step sb i) (fun _ _ => True) ⟨f,[]⟩ s) :
    ∃ log : List (ℕ×List ℕ), s.file.bytes i = f.bytes i++(log.map Prod.snd).flatten ∧
      (∀ x ∈ log, x.1 < s.calls.length) ∧
      (∀ k c, s.calls[k]? = some c → ofCall log k <+: cut c.src ∧
        (c.rest = [] → ofCall log k = cut c.src)) ∧
      (s.file.node i).size = (f.node i).size+(s.calls.map fun c => c.src.length-c.rest.length).sum := by
  obtain ⟨log,hg⟩ := h.invariant (I := fun s => ∃ log, s.Grown sb i (f.bytes i) log)
    ⟨[],.start hf hend⟩ fun s a s' ⟨log,hg⟩ _ hs => hg.step hs
  refine ⟨log,hg.bytes,hg.known,fun k c hc => ?_,?_⟩
  · obtain ⟨m,hcut⟩ := hg.calls k c hc
    exact ⟨by rw [hcut.done]; exact take_prefix ..,hcut.all⟩
  · rw [hg.total,Opened.bytes,contents_length]

/-- Two calls through one open file, of which the second writes first. -/
theorem shared_large : ∃ s : Shared, s.calls.map Call.rest = [[],[]] ∧ ∃ log : List (ℕ×List ℕ),
      s.file.bytes 1 = (large 71200 71200).bytes 1++(log.map Prod.snd).flatten ∧
      (∀ x ∈ log, x.1 < s.calls.length) ∧
      (∀ k c, s.calls[k]? = some c → ofCall log k <+: cut c.src ∧
        (c.rest = [] → ofCall log k = cut c.src)) ∧
      (s.file.node 1).size = 71200+(s.calls.map fun c => c.src.length-c.rest.length).sum := by
  have hrun : (run (guarded (Shared.step largeSb 1) fun _ _ => True) ⟨large 71200 71200,[]⟩
      [.call [7,7,7],.call [1,2],.turn 1,.turn 0]).any
      (fun s => s.calls.map Call.rest = [[],[]]) = true := by decide +kernel
  obtain ⟨s,hs,hp⟩ := (Option.any_eq_true _ _).mp hrun
  exact ⟨s,of_decide_eq_true hp,shared_appends (large_ready (by decide) le_rfl) rfl
    (Reach.refl.of_run hs)⟩

end

end Xv6.FileBlocks
