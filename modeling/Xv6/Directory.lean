import Xv6.BlockOwners

/-!
# Directories

A directory is a file of `struct dirent`, read entry by entry through `readi` and changed by one
`writei`. `entries` is the list the file stands for, and on a file without holes the loops of
`dirlookup` and `dirlink` are searches in it. `namex` passes on at most `DIRSIZ` bytes of a name and
the entry keeps as many, so two names are the same when they agree there.
-/
namespace Xv6.FileBlocks
open List
open Machine (bind_ok bind_error)

def ROOTINO : ℕ := 1

def DIRSIZ : ℕ := 14

def DESIZE : ℕ := 16

structure Dirent where
  inum : ℕ
  name : List ℕ
  deriving DecidableEq,Repr

def Dirent.bytes (de : Dirent) : List ℕ := [de.inum%256,de.inum/256%256]++de.name

def Dirent.ofBytes (bytes : List ℕ) : Dirent := ⟨bytes.getD 0 0+256*bytes.getD 1 0,bytes.drop 2⟩

/-- `strncmp`. Reading past the end of a string finds its terminator. -/
def strncmp : ℕ → List ℕ → List ℕ → ℤ
  | 0,_,_ => 0
  | n+1,p,q =>
    if p.headD 0 ≠ 0 ∧ p.headD 0 = q.headD 0 then strncmp n p.tail q.tail
    else (p.headD 0 : ℤ)-q.headD 0

/-- `strncpy`: after the terminator the rest of the buffer is cleared. -/
def strncpy : ℕ → List ℕ → List ℕ
  | 0,_ => []
  | n+1,t => t.headD 0::strncpy n (if t.headD 0 = 0 then [] else t.tail)

def namecmp (s t : List ℕ) : ℤ := strncmp DIRSIZ s t

variable (sb : Superblock)

/-- The loop over the entries from offset `off` on, up to one that passes the test.
It returns the offset it stopped at. -/
def scan (test : Dirent → Bool) (msg : String) :
    ℕ → Store → Dinode → ℕ → Except String ((ℕ×Option Dirent)×Dinode×Store)
  | 0,st,di,off => .ok ((off,none),di,st)
  | fuel+1,st,di,off =>
    if off < di.size then do
      let (r,di,st) ← readi sb st di off DESIZE
      match r with
      | none => .error msg
      | some bytes =>
        if bytes.length ≠ DESIZE then .error msg
        else if test (.ofBytes bytes) then .ok ((off,some (.ofBytes bytes)),di,st)
        else scan test msg fuel st di (off+DESIZE)
    else .ok ((off,none),di,st)

/-- The search of `dirlookup`: the offset and the inode number of the entry. -/
def dirlookup (st : Store) (di : Dinode) (name : List ℕ) : Except String (Option (ℕ×ℕ)×Dinode×Store) :=
  if di.type ≠ .dir then .error "dirlookup not DIR"
  else do
    let ((off,r),di,st) ← scan sb (fun de => de.inum ≠ 0 ∧ namecmp name de.name = 0)
      "dirlookup read" di.size st di 0
    .ok (r.map fun de => (off,de.inum),di,st)

/-- `dirlink`: the inode found under the name, or nothing when the entry was
added. -/
def dirlink (st : Store) (i : ℕ) (di : Dinode) (name : List ℕ) (inum : ℕ) :
    Except String (Option ℕ×Dinode×Store) := do
  let (r,di,st) ← dirlookup sb st di name
  match r with
  | some (_,found) => .ok (some found,di,st)
  | none => do
      let ((off,_),di,st) ← scan sb (fun de => de.inum = 0) "dirlink read" di.size st di 0
      let (r,di,st) ← writei sb st i di off (Dirent.bytes ⟨inum,strncpy DIRSIZ name⟩)
      if r ≠ some DESIZE then .error "dirlink" else .ok (none,di,st)

def eraseEntry (st : Store) (i : ℕ) (di : Dinode) (off : ℕ) : Except String (Dinode×Store) := do
  let (r,di,st) ← writei sb st i di off (replicate DESIZE 0)
  if r ≠ some DESIZE then .error "unlink: writei" else .ok (di,st)

def direntAt (data : ℕ → ℕ → ℕ) (di : Dinode) (k : ℕ) : Dirent :=
  .ofBytes ((range DESIZE).map fun j => byteAt data di (DESIZE*k+j))

def entries (data : ℕ → ℕ → ℕ) (di : Dinode) : List Dirent :=
  (range (di.size/DESIZE)).map (direntAt data di)

/-- The first entry of a list that passes a test, with its index counted from `k`. -/
def seek (test : Dirent → Bool) : List Dirent → ℕ → ℕ×Option Dirent
  | [],k => (k,none)
  | de::es,k => if test de then (k,some de) else seek test es (k+1)

variable {sb} {node : ℕ → Dinode} {st st' : Store} {i : ℕ}

theorem ofBytes_bytes {de : Dirent} (h : de.inum < 2^16) : Dirent.ofBytes de.bytes = de := by
  cases de with
  | mk inum =>
    have h : inum < 2^16 := h
    simp only [Dirent.ofBytes,Dirent.bytes]
    simp
    omega

@[simp] theorem strncpy_length (n : ℕ) (t : List ℕ) : (strncpy n t).length = n := by
  induction n generalizing t with
  | zero => rfl
  | succ n ih => simp [strncpy,ih]

@[simp] theorem entries_length (data : ℕ → ℕ → ℕ) (di : Dinode) :
    (entries data di).length = di.size/DESIZE := by simp [entries]

theorem entries_getElem? {data : ℕ → ℕ → ℕ} {di : Dinode} {k : ℕ} (hk : k < di.size/DESIZE) :
    (entries data di)[k]? = some (direntAt data di k) := by
  simp [entries,hk]

theorem scan_ok (h : Sound sb node st) (hi : Alloc sb node i) (hd : DESIZE ∣ (node i).size)
    (test : Dirent → Bool) (msg : String) {fuel k : ℕ} (hfuel : (node i).size ≤ fuel+DESIZE*k) :
    scan sb test msg fuel st (node i) (DESIZE*k) =
      .ok (((DESIZE*(seek test ((entries st.data (node i)).drop k) k).1),
        (seek test ((entries st.data (node i)).drop k) k).2),node i,st) := by
  obtain ⟨n,hn⟩ := hd
  have hlen : (node i).size/DESIZE = n := by
    rw [hn]
    exact Nat.mul_div_cancel_left n (by decide)
  induction fuel generalizing k with
  | zero =>
    have : (entries st.data (node i)).drop k = [] := by
      apply drop_eq_nil_of_le
      rw [entries_length,hlen]
      simp only [DESIZE] at *
      omega
    simp [scan,this,seek]
  | succ fuel ih =>
    unfold scan
    split_ifs with hoff
    · have hk : k < n := by
        simp only [DESIZE] at *
        omega
      have hsz := h.size_le hi
      have hread := @readi_ok _ _ _ _ DESIZE (DESIZE*k) h hi (by decide)
      have hcond : ¬ (DESIZE*k > (node i).size ∨ (DESIZE*k+DESIZE)%2^32 < DESIZE*k) := by
        simp only [DESIZE,MAXFILE,BSIZE,NDIRECT,NINDIRECT] at *
        omega
      have hmin : min DESIZE ((node i).size-DESIZE*k) = DESIZE := by
        simp only [DESIZE] at *
        omega
      rw [if_neg hcond,hmin] at hread
      rw [hread]
      have hdrop : (entries st.data (node i)).drop k =
          direntAt st.data (node i) k::(entries st.data (node i)).drop (k+1) := by
        rw [drop_eq_getElem_cons (by rw [entries_length,hlen]; exact hk)]
        congr 1
        simp [entries]
      rw [hdrop,seek]
      simp only [bind,Except.bind,length_map,length_range,ne_eq,not_true,if_false]
      change ite (test (direntAt st.data (node i) k) = true) _ _ = _
      by_cases ht : test (direntAt st.data (node i) k) = true
      · rw [if_pos ht,if_pos ht]
        rfl
      · rw [if_neg ht,if_neg ht]
        have := ih (k := k+1) (by simp only [DESIZE] at *; omega)
        rw [Nat.mul_add,Nat.mul_one] at this
        exact this
    · have : (entries st.data (node i)).drop k = [] := by
        apply drop_eq_nil_of_le
        rw [entries_length,hlen]
        simp only [DESIZE] at *
        omega
      simp [this,seek]

theorem seek_none {test : Dirent → Bool} {es : List Dirent} {k j : ℕ} (h : seek test es k = (j,none)) :
    j = k+es.length ∧ ∀ de ∈ es, test de = false := by
  induction es generalizing k with
  | nil =>
    cases h
    simp
  | cons de es ih =>
    unfold seek at h
    split_ifs at h with ht
    · cases h
    · obtain ⟨hj,hall⟩ := ih h
      refine ⟨by simp only [length_cons]; omega,fun d hd => ?_⟩
      rcases mem_cons.mp hd with rfl | hd
      · simpa using ht
      · exact hall d hd

theorem seek_some {test : Dirent → Bool} {es : List Dirent} {k j : ℕ} {de : Dirent}
    (h : seek test es k = (j,some de)) :
    k ≤ j ∧ es[j-k]? = some de ∧ test de = true := by
  induction es generalizing k with
  | nil => cases h
  | cons d es ih =>
    unfold seek at h
    split_ifs at h with ht
    · cases h
      simp [ht]
    · obtain ⟨hj,hget,htest⟩ := ih h
      refine ⟨by omega,?_,htest⟩
      obtain ⟨m,hm⟩ : ∃ m, j-k = m+1 := ⟨j-(k+1),by omega⟩
      rw [hm,getElem?_cons_succ,← hget]
      congr 1
      omega

def Dirent.named (name : List ℕ) (de : Dirent) : Bool := de.inum ≠ 0 ∧ namecmp name de.name = 0

def find (es : List Dirent) (name : List ℕ) : Option (ℕ×ℕ) :=
  (seek (Dirent.named name) es 0).2.map fun de => ((seek (Dirent.named name) es 0).1,de.inum)

def freeSlot (es : List Dirent) : ℕ := (seek (fun de => de.inum = 0) es 0).1

def setEntry (es : List Dirent) (k : ℕ) (de : Dirent) : List Dirent :=
  if k < es.length then es.set k de else es++[de]

theorem dirlookup_ok (h : Sound sb node st) (hi : Alloc sb node i) (ht : (node i).type = .dir)
    (hd : DESIZE ∣ (node i).size) (name : List ℕ) :
    dirlookup sb st (node i) name =
      .ok ((find (entries st.data (node i)) name).map fun p => (DESIZE*p.1,p.2),node i,st) := by
  have hs := @scan_ok _ _ _ _ h hi hd (Dirent.named name) "dirlookup read" (node i).size 0 (by simp)
  rw [Nat.mul_zero,drop_zero] at hs
  unfold dirlookup
  rw [if_neg (by simp [ht])]
  change Except.bind (scan sb (Dirent.named name) "dirlookup read" (node i).size st (node i) 0) _ = _
  rw [hs]
  simp [Except.bind,find,Function.comp_def]

theorem freeSlot_le (es : List Dirent) : freeSlot es ≤ es.length := by
  unfold freeSlot
  cases hr : seek (fun de => decide (de.inum = 0)) es 0 with
  | mk j r =>
    cases r with
    | none =>
      have := (seek_none hr).1
      simp only
      omega
    | some =>
      have hlt := (List.getElem?_eq_some_iff.mp (seek_some hr).2.1).1
      simp only
      omega

theorem freeSlot_free {es : List Dirent} {de : Dirent} (h : es[freeSlot es]? = some de) : de.inum = 0 := by
  unfold freeSlot at h
  cases hr : seek (fun de => decide (de.inum = 0)) es 0 with
  | mk j r =>
    rw [hr] at h
    cases r with
    | none =>
      have := (seek_none hr).1
      have hlt := (List.getElem?_eq_some_iff.mp h).1
      simp only at hlt
      omega
    | some =>
      obtain ⟨-,hget,htest⟩ := seek_some hr
      simp only [Nat.sub_zero] at hget h
      rw [hget] at h
      cases h
      simpa using htest

theorem setEntry_getElem? {es : List Dirent} {k : ℕ} (hk : k ≤ es.length) (de : Dirent) (m : ℕ) :
    (setEntry es k de)[m]? = if m = k then some de else es[m]? := by
  unfold setEntry
  split_ifs with h1 h2 h2
  · subst h2
    simp [h1]
  · exact getElem?_set_ne (Ne.symm h2)
  · subst h2
    rw [getElem?_append_right (by omega)]
    have : m-es.length = 0 := by omega
    simp [this]
  · obtain rfl : k = es.length := by omega
    by_cases hm : m < es.length
    · rw [getElem?_append_left hm]
    · rw [getElem?_eq_none (by simp; omega),getElem?_eq_none (by omega)]

theorem Written.entries_eq {k : ℕ} {de : Dirent} {di' : Dinode}
    (w : Written sb node st i (DESIZE*k) de.bytes di' st') (hd : DESIZE ∣ (node i).size)
    (hk : DESIZE*k ≤ (node i).size) (hn : de.inum < 2^16) (hlen : de.name.length = DIRSIZ) :
    entries st'.data di' = setEntry (entries st.data (node i)) k de ∧ DESIZE ∣ di'.size := by
  obtain ⟨n,hn'⟩ := hd
  have hlen16 : de.bytes.length = DESIZE := by simp [Dirent.bytes,hlen,DIRSIZ,DESIZE]
  have hsize : di'.size = DESIZE*max n (k+1) := by
    rw [w.size,hlen16,hn',← Nat.mul_succ,← Nat.mul_max_mul_left]
  have hdiv : di'.size/DESIZE = max n (k+1) := by
    rw [hsize]
    exact Nat.mul_div_cancel_left _ (by decide)
  have hdiv0 : (node i).size/DESIZE = n := by
    rw [hn']
    exact Nat.mul_div_cancel_left _ (by decide)
  have hkn : k ≤ n := by
    simp only [DESIZE] at *
    omega
  have hk' : k ≤ (entries st.data (node i)).length := by rwa [entries_length,hdiv0]
  refine ⟨?_,⟨_,hsize⟩⟩
  have hat : ∀ m < max n (k+1), direntAt st'.data di' m =
      if m = k then de else direntAt st.data (node i) m := by
    intro m hm
    split_ifs with hmk
    · subst hmk
      rw [direntAt,← ofBytes_bytes hn]
      congr 1
      apply ext_getElem
      · simp [hlen16]
      · intro j h1 h2
        simp only [length_map,length_range] at h1
        rw [getElem_map,getElem_range,w.bytes,if_pos]
        · rw [getD_eq_getElem?_getD,Nat.add_sub_cancel_left,getElem?_eq_getElem h2]
          rfl
        · rw [hlen16]
          omega
        · rw [hsize]
          simp only [DESIZE] at *
          omega
    · rw [direntAt,direntAt]
      congr 1
      apply map_congr_left
      intro j hj
      have hj := mem_range.mp hj
      rw [w.bytes,if_neg]
      · rw [hlen16]
        simp only [DESIZE] at *
        omega
      · rw [hsize]
        simp only [DESIZE] at *
        omega
  apply ext_getElem?
  intro m
  rw [setEntry_getElem? hk']
  by_cases hm : m < max n (k+1)
  · rw [entries_getElem? (by rwa [hdiv]),hat m hm]
    split_ifs with hmk
    · rfl
    · rw [entries_getElem? (by rw [hdiv0]; omega)]
  · rw [getElem?_eq_none (by rw [entries_length,hdiv]; omega),if_neg (by omega),
      getElem?_eq_none (by rw [entries_length,hdiv0]; omega)]

theorem dirlink_hit (h : Sound sb node st) (hi : Alloc sb node i) (ht : (node i).type = .dir)
    (hd : DESIZE ∣ (node i).size) {name : List ℕ} {k n : ℕ} (inum : ℕ)
    (hf : find (entries st.data (node i)) name = some (k,n)) :
    dirlink sb st i (node i) name inum = .ok (some n,node i,st) := by
  unfold dirlink
  rw [dirlookup_ok h hi ht hd,hf]
  rfl

theorem dirlink_miss (h : Sound sb node st) (hi : Alloc sb node i) (ht : (node i).type = .dir)
    (hd : DESIZE ∣ (node i).size) {name : List ℕ} (inum : ℕ)
    (hf : find (entries st.data (node i)) name = none) :
    dirlink sb st i (node i) name inum =
      (writei sb st i (node i) (DESIZE*freeSlot (entries st.data (node i)))
        (Dirent.bytes ⟨inum,strncpy DIRSIZ name⟩)).bind fun x =>
          if x.1 ≠ some DESIZE then .error "dirlink" else .ok (none,x.2.1,x.2.2) := by
  have hs := @scan_ok _ _ _ _ h hi hd (fun de => de.inum = 0) "dirlink read" (node i).size 0 (by simp)
  rw [Nat.mul_zero,drop_zero] at hs
  unfold dirlink
  rw [dirlookup_ok h hi ht hd,hf]
  change Except.bind (scan sb (fun de => de.inum = 0) "dirlink read" (node i).size st (node i) 0) _ = _
  rw [hs]
  rfl

theorem bytes_length (inum : ℕ) (name : List ℕ) :
    (Dirent.bytes ⟨inum,strncpy DIRSIZ name⟩).length = DESIZE := by
  simp [Dirent.bytes,DIRSIZ,DESIZE]

theorem freeSlot_size {data : ℕ → ℕ → ℕ} {di : Dinode} (hd : DESIZE ∣ di.size) :
    DESIZE*freeSlot (entries data di) ≤ di.size := by
  have hslot := freeSlot_le (entries data di)
  rw [entries_length] at hslot
  obtain ⟨n,hn⟩ := hd
  rw [hn] at hslot ⊢
  rw [Nat.mul_div_cancel_left _ (by decide)] at hslot
  exact Nat.mul_le_mul_left _ hslot

theorem dirlink_ok (h : Sound sb node st) (hi : Alloc sb node i) (ht : (node i).type = .dir)
    (hd : DESIZE ∣ (node i).size) {name : List ℕ} {inum : ℕ} {r : Option ℕ} {di' : Dinode}
    (hr : dirlink sb st i (node i) name inum = .ok (r,di',st')) :
    (∃ k n, find (entries st.data (node i)) name = some (k,n) ∧ r = some n ∧ di' = node i ∧ st' = st) ∨
    (find (entries st.data (node i)) name = none ∧ r = none ∧
      Written sb node st i (DESIZE*freeSlot (entries st.data (node i)))
        (Dirent.bytes ⟨inum,strncpy DIRSIZ name⟩) di' st') := by
  cases hf : find (entries st.data (node i)) name with
  | some p =>
    obtain ⟨k,n⟩ := p
    rw [dirlink_hit h hi ht hd inum hf] at hr
    cases hr
    exact .inl ⟨k,n,rfl,rfl,rfl,rfl⟩
  | none =>
    rw [dirlink_miss h hi ht hd inum hf] at hr
    obtain ⟨⟨r',di,t⟩,hw,hr⟩ := bind_ok.mp hr
    dsimp only at hr
    split_ifs at hr with hne
    cases hr
    rcases writei_ok h hi (by rw [bytes_length]; decide) hw with ⟨rfl,-⟩ | ⟨-,-,w⟩
    · exact absurd (by simp) hne
    · exact .inr ⟨rfl,rfl,w⟩

/-- Below the largest size of a file `dirlink` panics only for want of space. -/
theorem dirlink_error (h : Sound sb node st) (hi : Alloc sb node i) (ht : (node i).type = .dir)
    (hd : DESIZE ∣ (node i).size) (hmax : (node i).size < MAXFILE*BSIZE) {name : List ℕ} {inum : ℕ}
    {m : String} (hr : dirlink sb st i (node i) name inum = .error m) : Exhausted m := by
  have hoff := @freeSlot_size st.data _ hd
  cases hf : find (entries st.data (node i)) name with
  | some =>
    rw [dirlink_hit h hi ht hd inum hf] at hr
    cases hr
  | none =>
    rw [dirlink_miss h hi ht hd inum hf] at hr
    rcases bind_error.mp hr with hr | ⟨⟨r',di,t⟩,hw,hr⟩
    · refine (writei_error (by rw [bytes_length]; decide) ?_ hr).exhausted
      simp only [MAXFILE,BSIZE,NDIRECT,NINDIRECT] at *
      omega
    · dsimp only at hr
      split_ifs at hr with hne
      refine absurd ?_ hne
      -- the write is refused only behind the largest offset
      obtain ⟨n,hn⟩ := hd
      rw [writei,if_neg,if_neg] at hw
      · obtain ⟨⟨di1,t1⟩,-,hw⟩ := bind_ok.mp hw
        rw [← bytes_length inum name]
        dsimp only at hw
        split_ifs at hw
        · obtain ⟨u,-,hw⟩ := bind_ok.mp hw
          cases hw
          rfl
        · cases hw
          rfl
      · rw [bytes_length]
        simp only [DESIZE,MAXFILE,BSIZE,NDIRECT,NINDIRECT] at *
        omega
      · rw [bytes_length]
        simp only [DESIZE,MAXFILE,BSIZE,NDIRECT,NINDIRECT] at *
        omega

def Dirent.zero : Dirent := ⟨0,replicate DIRSIZ 0⟩

theorem eraseEntry_ok (h : Sound sb node st) (hi : Alloc sb node i) {off : ℕ} {di' : Dinode}
    (hr : eraseEntry sb st i (node i) off = .ok (di',st')) :
    off ≤ (node i).size ∧ Written sb node st i off Dirent.zero.bytes di' st' := by
  obtain ⟨⟨r,di,t⟩,hw,hr⟩ := bind_ok.mp hr
  dsimp only at hr
  split_ifs at hr with hne
  cases hr
  rcases writei_ok h hi (by decide) hw with ⟨rfl,-⟩ | ⟨-,hoff,w⟩
  · exact absurd (by simp) hne
  · exact ⟨hoff,w⟩

/-- Comparing names is comparing their first `n` bytes up to the terminator. -/
theorem strncmp_eq_zero (n : ℕ) (p q : List ℕ) : strncmp n p q = 0 ↔ strncpy n p = strncpy n q := by
  induction n generalizing p q with
  | zero => simp [strncmp,strncpy]
  | succ n ih =>
    simp only [strncmp,strncpy,List.cons.injEq]
    by_cases hp : p.headD 0 = 0
    · rw [if_neg fun h => h.1 hp,if_pos hp]
      constructor
      · intro h
        have hq : q.headD 0 = 0 := by omega
        rw [if_pos hq]
        exact ⟨hp.trans hq.symm,rfl⟩
      · rintro ⟨h,-⟩
        omega
    · by_cases hq : p.headD 0 = q.headD 0
      · rw [if_pos ⟨hp,hq⟩,if_neg hp,if_neg (hq ▸ hp),ih]
        simp only [hq,true_and]
      · rw [if_neg fun h => hq h.2]
        constructor
        · intro h
          omega
        · exact fun h => absurd h.1 hq

theorem strncpy_idem (n : ℕ) (t : List ℕ) : strncpy n (strncpy n t) = strncpy n t := by
  induction n generalizing t with
  | zero => rfl
  | succ n ih =>
    simp only [strncpy,headD_cons,tail_cons,List.cons.injEq,true_and]
    split_ifs with h
    · rfl
    · exact ih _

theorem strncpy_eq_iff {n : ℕ} {a b : List ℕ} (ha : 0 ∉ a) (hb : 0 ∉ b) :
    strncpy n a = strncpy n b ↔ a.take n = b.take n := by
  induction n generalizing a b with
  | zero => simp [strncpy]
  | succ n ih =>
    cases a with
    | nil =>
      cases b with
      | nil => simp
      | cons y =>
        have hy : y ≠ 0 := fun h => hb (by simp [h])
        simp [strncpy,hy.symm]
    | cons x =>
      have hx : x ≠ 0 := fun h => ha (by simp [h])
      cases b with
      | nil => simp [strncpy,hx]
      | cons y =>
        have hy : y ≠ 0 := fun h => hb (by simp [h])
        simp only [strncpy,headD_cons,tail_cons,hx,hy,if_false,take_succ_cons, List.cons.injEq]
        rw [ih (fun h => ha (by simp [h])) (fun h => hb (by simp [h]))]

theorem named_iff {name : List ℕ} {de : Dirent} (h : strncpy DIRSIZ de.name = de.name) :
    de.named name = true ↔ de.inum ≠ 0 ∧ de.name = strncpy DIRSIZ name := by
  simp only [Dirent.named,namecmp,strncmp_eq_zero,h,decide_eq_true_eq]
  exact and_congr_right fun _ => eq_comm

def dot : List ℕ := [46]

def dotdot : List ℕ := [46,46]

/-- A directory as `create` and `mkfs` build it and the calls keep it: the entries
in use have different names and the first two are `.` and `..`. -/
structure DirWf (es : List Dirent) : Prop where
  self : ∃ n, n ≠ 0 ∧ es[0]? = some ⟨n,strncpy DIRSIZ dot⟩
  parent : ∃ n, n ≠ 0 ∧ es[1]? = some ⟨n,strncpy DIRSIZ dotdot⟩
  names : ∀ de ∈ es, de.inum ≠ 0 → strncpy DIRSIZ de.name = de.name
  distinct : ∀ {j k : ℕ} {d e : Dirent}, es[j]? = some d → es[k]? = some e → d.inum ≠ 0 → e.inum ≠ 0 →
    d.name = e.name → j = k

section
variable {es : List Dirent} {name name' : List ℕ} {k n : ℕ}

theorem DirWf.find_eq_some (h : DirWf es) :
    find es name = some (k,n) ↔ es[k]? = some ⟨n,strncpy DIRSIZ name⟩ ∧ n ≠ 0 := by
  unfold find
  cases hs : seek (Dirent.named name) es 0 with
  | mk j r =>
    cases r with
    | none =>
      have hall := (seek_none hs).2
      simp only [Option.map_none,reduceCtorEq,false_iff,not_and,not_not]
      intro hk
      by_contra hn
      have hmem := mem_of_getElem? hk
      have := hall _ hmem
      rw [Bool.eq_false_iff,ne_eq,named_iff (strncpy_idem _ _)] at this
      exact this ⟨hn,rfl⟩
    | some de =>
      obtain ⟨-,hget,htest⟩ := seek_some hs
      have hmem := mem_of_getElem? hget
      have hn0 : de.inum ≠ 0 := by
        simp only [Dirent.named,decide_eq_true_eq] at htest
        exact htest.1
      obtain ⟨-,hname⟩ := (named_iff (h.names de hmem hn0)).mp htest
      simp only [Option.map_some,Option.some.injEq,Prod.mk.injEq]
      constructor
      · rintro ⟨rfl,rfl⟩
        refine ⟨?_,hn0⟩
        rw [← hname]
        exact hget
      · rintro ⟨hk,hn⟩
        have hjk := h.distinct hget hk hn0 hn hname
        simp only [Nat.sub_zero] at hjk hget
        subst hjk
        rw [hget] at hk
        cases hk
        exact ⟨rfl,rfl⟩

theorem DirWf.find_eq_none (h : DirWf es) :
    find es name = none ↔ ∀ k n : ℕ, es[k]? = some ⟨n,strncpy DIRSIZ name⟩ → n = 0 := by
  constructor
  · intro hf k n hk
    by_contra hn
    rw [h.find_eq_some.mpr ⟨hk,hn⟩] at hf
    cases hf
  · intro hall
    cases hf : find es name with
    | none => rfl
    | some =>
      obtain ⟨hk,hn⟩ := h.find_eq_some.mp hf
      exact absurd (hall _ _ hk) hn

theorem find_congr (h : strncpy DIRSIZ name = strncpy DIRSIZ name') : find es name = find es name' := by
  have : Dirent.named name = Dirent.named name' := by
    funext de
    simp only [Dirent.named,namecmp,strncmp_eq_zero,h]
  unfold find
  rw [this]

theorem dot_ne_dotdot : strncpy DIRSIZ dot ≠ strncpy DIRSIZ dotdot := by decide

theorem DirWf.new {self parent : ℕ} (hs : self ≠ 0) (hp : parent ≠ 0) :
    DirWf [⟨self,strncpy DIRSIZ dot⟩,⟨parent,strncpy DIRSIZ dotdot⟩] where
  self := ⟨self,hs,rfl⟩
  parent := ⟨parent,hp,rfl⟩
  names de hde _ := by
    simp only [mem_cons,not_mem_nil,or_false] at hde
    rcases hde with rfl | rfl <;> exact strncpy_idem _ _
  distinct {j k d e} hj hk _ _ hde := by
    have hne := dot_ne_dotdot
    rcases j with _ | _ | j <;> rcases k with _ | _ | k <;> simp_all
    · obtain rfl := hj
      obtain rfl := hk
      exact hne hde
    · obtain rfl := hj
      obtain rfl := hk
      exact hne hde.symm

theorem DirWf.link (h : DirWf es) (hf : find es name = none) :
    DirWf (setEntry es (freeSlot es) ⟨n,strncpy DIRSIZ name⟩) := by
  have hle := freeSlot_le es
  have hget := setEntry_getElem? hle ⟨n,strncpy DIRSIZ name⟩
  have hnew := h.find_eq_none.mp hf
  -- the slot is not one of the first two
  have hslot : ∀ {k d}, es[k]? = some d → d.inum ≠ 0 → k ≠ freeSlot es := by
    rintro k d hk hd rfl
    exact hd (freeSlot_free hk)
  constructor
  · obtain ⟨m,hm,h0⟩ := h.self
    exact ⟨m,hm,by rw [hget,if_neg (hslot h0 hm),h0]⟩
  · obtain ⟨m,hm,h1⟩ := h.parent
    exact ⟨m,hm,by rw [hget,if_neg (hslot h1 hm),h1]⟩
  · intro de hde hd
    obtain ⟨k,hk⟩ := mem_iff_getElem?.mp hde
    rw [hget] at hk
    split_ifs at hk
    · cases hk
      exact strncpy_idem _ _
    · exact h.names de (mem_of_getElem? hk) hd
  · intro j k d e hj hk hd he hde
    rw [hget] at hj hk
    split_ifs at hj with h1
    · split_ifs at hk with h2
      · exact h1.trans h2.symm
      · cases hj
        refine absurd (hnew k e.inum ?_) he
        rw [hk]
        simp only at hde
        rw [hde]
    · split_ifs at hk with h2
      · cases hk
        refine absurd (hnew j d.inum ?_) hd
        rw [hj]
        simp only at hde
        rw [← hde]
      · exact h.distinct hj hk hd he hde

theorem DirWf.find_link (h : DirWf es) (hf : find es name = none) (hn : n ≠ 0) (name' : List ℕ) :
    find (setEntry es (freeSlot es) ⟨n,strncpy DIRSIZ name⟩) name' =
      if strncpy DIRSIZ name' = strncpy DIRSIZ name then some (freeSlot es,n) else find es name' := by
  have h' := h.link (n := n) hf
  have hget := setEntry_getElem? (freeSlot_le es) ⟨n,strncpy DIRSIZ name⟩
  split_ifs with hname
  · rw [h'.find_eq_some,hget,if_pos rfl,hname]
    exact ⟨rfl,hn⟩
  · cases hf' : find es name' with
    | none =>
      rw [h'.find_eq_none]
      intro k m hk
      rw [hget] at hk
      split_ifs at hk
      · injection hk with hk
        injection hk with _ hk
        exact absurd hk.symm hname
      · exact h.find_eq_none.mp hf' k m hk
    | some p =>
      obtain ⟨k,m⟩ := p
      obtain ⟨hk,hm⟩ := h.find_eq_some.mp hf'
      rw [h'.find_eq_some,hget,if_neg]
      · exact ⟨hk,hm⟩
      · rintro rfl
        exact hm (freeSlot_free hk)

theorem DirWf.erase (h : DirWf es) (hk : 2 ≤ k) (hlt : k < es.length) : DirWf (setEntry es k .zero) := by
  have hget := setEntry_getElem? hlt.le .zero
  constructor
  · obtain ⟨m,hm,h0⟩ := h.self
    exact ⟨m,hm,by rw [hget,if_neg (by omega),h0]⟩
  · obtain ⟨m,hm,h1⟩ := h.parent
    exact ⟨m,hm,by rw [hget,if_neg (by omega),h1]⟩
  · intro de hde hd
    obtain ⟨j,hj⟩ := mem_iff_getElem?.mp hde
    rw [hget] at hj
    split_ifs at hj
    · cases hj
      exact absurd rfl hd
    · exact h.names de (mem_of_getElem? hj) hd
  · intro j l d e hj hl hd he hde
    rw [hget] at hj hl
    split_ifs at hj
    · cases hj
      exact absurd rfl hd
    · split_ifs at hl
      · cases hl
        exact absurd rfl he
      · exact h.distinct hj hl hd he hde

theorem DirWf.find_erase (h : DirWf es) (hf : find es name = some (k,n)) (hk : 2 ≤ k) (name' : List ℕ) :
    find (setEntry es k .zero) name' =
      if strncpy DIRSIZ name' = strncpy DIRSIZ name then none else find es name' := by
  obtain ⟨hkn,hn⟩ := h.find_eq_some.mp hf
  have hlt : k < es.length := (List.getElem?_eq_some_iff.mp hkn).1
  have h' := h.erase hk hlt
  have hget := setEntry_getElem? hlt.le .zero
  split_ifs with hname
  · rw [h'.find_eq_none]
    intro j m hj
    rw [hget] at hj
    split_ifs at hj with hjk
    · injection hj with hj
      injection hj with hj
      exact hj.symm
    · by_contra hm
      exact hjk (h.distinct hj hkn hm hn hname)
  · cases hf' : find es name' with
    | none =>
      rw [h'.find_eq_none]
      intro j m hj
      rw [hget] at hj
      split_ifs at hj
      · injection hj with hj
        injection hj with hj
        exact hj.symm
      · exact h.find_eq_none.mp hf' j m hj
    | some p =>
      obtain ⟨j,m⟩ := p
      obtain ⟨hj,hm⟩ := h.find_eq_some.mp hf'
      rw [h'.find_eq_some,hget,if_neg]
      · exact ⟨hj,hm⟩
      · rintro rfl
        rw [hj] at hkn
        injection hkn with hkn
        injection hkn with _ hkn
        exact hname hkn

/-- What `sys_unlink` looks up is neither of the first two entries. -/
theorem DirWf.two_le_of_find (h : DirWf es) (hf : find es name = some (k,n))
    (hdot : namecmp name dot ≠ 0) (hdots : namecmp name dotdot ≠ 0) : 2 ≤ k := by
  obtain ⟨hk,hn⟩ := h.find_eq_some.mp hf
  obtain ⟨m,hm,h0⟩ := h.self
  obtain ⟨l,hl,h1⟩ := h.parent
  rw [ne_eq,namecmp,strncmp_eq_zero] at hdot hdots
  by_contra hlt
  have : k = 0 ∨ k = 1 := by omega
  rcases this with rfl | rfl
  · rw [h0] at hk
    injection hk with hk
    injection hk with _ hk
    exact hdot hk.symm
  · rw [h1] at hk
    injection hk with hk
    injection hk with _ hk
    exact hdots hk.symm

end

end Xv6.FileBlocks
