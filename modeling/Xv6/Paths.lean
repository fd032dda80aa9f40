import Mathlib.Data.List.TakeWhile
import Xv6.DirectoryMap
import Xv6.Links

/-!
# Path names

`skipelem` takes one element off a path, and `namex` looks the elements up one after another. A path
is a string of bytes without its terminator: reading behind its end finds a zero. `name` is the
buffer of `DIRSIZ` bytes for the elements, which keeps what was behind the terminator. Inodes are
named by their numbers and stay as they are while a path is followed.
-/
namespace Xv6.FileBlocks
open Function (update)
open Links List

def slash : ℕ := 47

/-- `skipelem`: the rest of the path and the buffer, or nothing. -/
def skipelem (path name : List ℕ) : Option (List ℕ×List ℕ) :=
  let path := path.dropWhile (· = slash)
  if path.headD 0 = 0 then none
  else
    let s := path.takeWhile fun c => c ≠ slash ∧ c ≠ 0
    let path := path.dropWhile fun c => c ≠ slash ∧ c ≠ 0
    let name :=
      if s.length ≥ DIRSIZ then s.take DIRSIZ++name.drop DIRSIZ
      else s++0::name.drop (s.length+1)
    some (path.dropWhile (· = slash),name)

def cstr (name : List ℕ) : List ℕ := (name.take DIRSIZ).takeWhile (· ≠ 0)

def elements : ℕ → List ℕ → List ℕ → Option (List (List ℕ))
  | 0,_,_ => none
  | fuel+1,path,name =>
    match skipelem path name with
    | none => some []
    | some (path,name) => (elements fuel path name).map (cstr name::·)

section
variable (sb : Superblock)

def namexLoop (parent : Bool) : ℕ → (ℕ → Dinode) → Store → ℕ → List ℕ → List ℕ →
    Except String ((Option ℕ×List ℕ)×(ℕ → Dinode)×Store)
  | 0,_,_,_,_,_ => .error "namex"
  | fuel+1,node,st,ip,path,name =>
    match skipelem path name with
    | none => .ok ((if parent then none else some ip,name),node,st)
    | some (path,name) =>
      if (node ip).type = .free then .error "ilock: no type"
      else if (node ip).type ≠ .dir then .ok ((none,name),node,st)
      else if parent ∧ path.headD 0 = 0 then .ok ((some ip,name),node,st)
      else do
        let (r,di,st) ← dirlookup sb st (node ip) name
        match r with
        | none => .ok ((none,name),update node ip di,st)
        | some (_,next) => namexLoop parent fuel (update node ip di) st next path name

def startOf (cwd : ℕ) (path : List ℕ) : ℕ := if path.headD 0 = slash then ROOTINO else cwd

/-- `namex`: every round takes at least one byte off the path. -/
def namex (node : ℕ → Dinode) (st : Store) (cwd : ℕ) (path : List ℕ) (parent : Bool) (name : List ℕ) :
    Except String ((Option ℕ×List ℕ)×(ℕ → Dinode)×Store) :=
  namexLoop sb parent (path.length+1) node st (startOf cwd path) path name

/-- `namei`. What its buffer holds at the start is an argument. -/
def namei (node : ℕ → Dinode) (st : Store) (cwd : ℕ) (path name : List ℕ) :
    Except String (Option ℕ×(ℕ → Dinode)×Store) := do
  let ((r,_),node,st) ← namex sb node st cwd path false name
  .ok (r,node,st)

def nameiparent (node : ℕ → Dinode) (st : Store) (cwd : ℕ) (path name : List ℕ) :
    Except String ((Option ℕ×List ℕ)×(ℕ → Dinode)×Store) :=
  namex sb node st cwd path true name

end

/-! ## Elements -/

def runs (path : List ℕ) : List (List ℕ) := (path.splitOn slash).filter (· ≠ [])

def components (path : List ℕ) : List (List ℕ) := (runs path).map (·.take DIRSIZ)

theorem runs_nil : runs [] = [] := rfl

theorem runs_slash (path : List ℕ) : runs (slash::path) = runs path := by
  have h : (slash::path).splitOn slash = []::path.splitOn slash := by
    simp [splitOn,splitOnP_cons_eq_if_modifyHead]
  rw [runs,h]
  simp [runs]

theorem runs_dropWhile (path : List ℕ) : runs (path.dropWhile (· = slash)) = runs path := by
  induction path with
  | nil => rfl
  | cons c path ih =>
    rw [dropWhile_cons]
    by_cases hc : c = slash
    · subst hc
      rw [if_pos (by simp),ih,runs_slash]
    · rw [if_neg (by simpa using hc)]

theorem runs_word {s rest : List ℕ} (hs : s ≠ []) (hword : ∀ c ∈ s, c ≠ slash)
    (hrest : rest = [] ∨ ∃ r, rest = slash::r) : runs (s++rest) = s::runs rest := by
  have hno : ∀ c ∈ s, (c == slash) = false := fun c hc => by simpa using hword c hc
  rcases hrest with rfl | ⟨r,rfl⟩
  · rw [append_nil,runs,splitOn,splitOnP_eq_singleton hno]
    simp [hs,runs_nil]
  · rw [runs_slash,runs,splitOn,splitOnP_append_cons_of_forall_mem hno slash (by simp)]
    simp [hs,runs,splitOn]

variable {path name : List ℕ}

theorem headD_eq_zero (h : 0 ∉ path) : path.headD 0 = 0 ↔ path = [] := by
  cases path with
  | nil => simp
  | cons c =>
    have hc : c ≠ 0 := fun he => h (by simp [he])
    simp [hc]

theorem not_mem_dropWhile {p : ℕ → Bool} (h : 0 ∉ path) : 0 ∉ path.dropWhile p :=
  fun hm => h ((dropWhile_sublist p).subset hm)

theorem dropWhile_cons_false {p : ℕ → Bool} {r : List ℕ} {c : ℕ} (h : path.dropWhile p = c::r) :
    p c = false := by
  have hhead := head?_dropWhile_not p path
  rw [h] at hhead
  exact hhead

theorem runs_split (hz : 0 ∉ path) (hne : path ≠ []) (hhead : path.head? ≠ some slash) :
    path.takeWhile (fun c => c ≠ slash ∧ c ≠ 0) ≠ [] ∧
      runs path = path.takeWhile (fun c => c ≠ slash ∧ c ≠ 0)::
        runs (path.dropWhile fun c => c ≠ slash ∧ c ≠ 0) := by
  have hs : path.takeWhile (fun c => c ≠ slash ∧ c ≠ 0) ≠ [] := by
    cases path with
    | nil => exact absurd rfl hne
    | cons c =>
      have hc : c ≠ slash := fun he => hhead (by simp [he])
      have hc0 : c ≠ 0 := fun he => hz (by simp [he])
      simp [hc,hc0]
  refine ⟨hs,?_⟩
  have hrest : path.dropWhile (fun c => c ≠ slash ∧ c ≠ 0) = [] ∨
      ∃ r, path.dropWhile (fun c => c ≠ slash ∧ c ≠ 0) = slash::r := by
    cases hR : path.dropWhile (fun c => c ≠ slash ∧ c ≠ 0) with
    | nil => exact .inl rfl
    | cons c r =>
      have hc0 : c ≠ 0 := by
        rintro rfl
        have hmem : 0 ∉ path.dropWhile fun c => c ≠ slash ∧ c ≠ 0 := not_mem_dropWhile hz
        rw [hR] at hmem
        exact hmem mem_cons_self
      have hstop := dropWhile_cons_false hR
      simp only [ne_eq,decide_eq_false_iff_not,not_and_or,not_not] at hstop
      exact .inr ⟨r,by rw [hstop.resolve_right hc0]⟩
  have hword := runs_word hs (fun c hc => by
    have hin := mem_takeWhile_imp hc
    exact (of_decide_eq_true hin).1) hrest
  rwa [takeWhile_append_dropWhile] at hword

theorem runs_eq_nil (hz : 0 ∉ path) (hhead : path.head? ≠ some slash) :
    path.headD 0 = 0 ↔ runs path = [] := by
  rw [headD_eq_zero hz]
  constructor
  · rintro rfl
    rfl
  · intro hr
    by_contra hne
    rw [(runs_split hz hne hhead).2] at hr
    cases hr

theorem dropWhile_head? (path : List ℕ) : (path.dropWhile (· = slash)).head? ≠ some slash := by
  intro hhead
  cases hd : path.dropWhile (· = slash) with
  | nil =>
    rw [hd] at hhead
    cases hhead
  | cons =>
    rw [hd] at hhead
    cases hhead
    simpa using dropWhile_cons_false hd

/-- What `skipelem` returns for a path with the runs `c::cs`. -/
structure Skipped (path c : List ℕ) (cs : List (List ℕ)) (rest name : List ℕ) : Prop where
  runs : runs rest = cs
  zero : 0 ∉ rest
  short : rest.length < path.length
  last : rest.headD 0 = 0 ↔ cs = []
  cstr : cstr name = c.take DIRSIZ
  length : name.length = DIRSIZ

theorem skipelem_none (hp : 0 ∉ path) (name : List ℕ) (hr : runs path = []) :
    skipelem path name = none := by
  rw [← runs_dropWhile] at hr
  exact if_pos ((runs_eq_nil (not_mem_dropWhile hp) (dropWhile_head? path)).mpr hr)

theorem cstr_copy {s : List ℕ} (hs : 0 ∉ s) (hname : name.length = DIRSIZ) :
    cstr (if s.length ≥ DIRSIZ then s.take DIRSIZ++name.drop DIRSIZ else s++0::name.drop (s.length+1)) =
        s.take DIRSIZ ∧
      (if s.length ≥ DIRSIZ then s.take DIRSIZ++name.drop DIRSIZ
        else s++0::name.drop (s.length+1)).length = DIRSIZ := by
  have hwhole : s.takeWhile (· ≠ 0) = s := takeWhile_eq_self_iff.mpr fun c hc => by
    simpa using fun he : c = 0 => hs (he ▸ hc)
  split_ifs with hlen
  · rw [drop_eq_nil_of_le (by omega),append_nil]
    refine ⟨?_,by rw [length_take]; omega⟩
    rw [cstr,take_take,min_self]
    refine takeWhile_eq_self_iff.mpr fun c hc => ?_
    simpa using fun he : c = 0 => hs (he ▸ mem_of_mem_take hc)
  · have hfull : (s++0::name.drop (s.length+1)).length = DIRSIZ := by
      rw [length_append,length_cons,length_drop]
      omega
    refine ⟨?_,hfull⟩
    rw [cstr,take_of_length_le hfull.le,take_of_length_le (by omega),takeWhile_append, hwhole,if_pos rfl]
    simp

theorem skipelem_some {c : List ℕ} {cs : List (List ℕ)} (hp : 0 ∉ path)
    (hname : name.length = DIRSIZ) (hr : runs path = c::cs) :
    ∃ rest name', skipelem path name = some (rest,name') ∧ Skipped path c cs rest name' := by
  have hzero : 0 ∉ path.dropWhile (· = slash) := not_mem_dropWhile hp
  have hhead := dropWhile_head? path
  have hle : (path.dropWhile (· = slash)).length ≤ path.length := (dropWhile_sublist _).length_le
  rw [← runs_dropWhile] at hr
  unfold skipelem
  revert hzero hhead hr hle
  generalize path.dropWhile (· = slash) = P
  intro hr hzero hhead hle
  have hne : P ≠ [] := by
    rintro rfl
    cases hr
  obtain ⟨hs,hruns⟩ := runs_split hzero hne hhead
  rw [hr] at hruns
  obtain ⟨hc,hcs⟩ := List.cons.inj hruns
  have hsplit : (P.takeWhile fun c => c ≠ slash ∧ c ≠ 0)++P.dropWhile (fun c => c ≠ slash ∧ c ≠ 0) = P :=
    takeWhile_append_dropWhile
  have hzero' : 0 ∉ (P.dropWhile fun c => c ≠ slash ∧ c ≠ 0).dropWhile (· = slash) :=
    not_mem_dropWhile (not_mem_dropWhile hzero)
  have hs0 : 0 ∉ P.takeWhile fun c => c ≠ slash ∧ c ≠ 0 :=
    fun hm => hzero ((takeWhile_sublist _).subset hm)
  obtain ⟨hcstr,hlength⟩ := cstr_copy hs0 hname
  dsimp only
  rw [if_neg (by rwa [headD_eq_zero hzero])]
  refine ⟨_,_,rfl,?_,hzero',?_,?_,?_,hlength⟩
  · rw [runs_dropWhile,hcs]
  · have hlen := congrArg List.length hsplit
    have hpos := length_pos_iff.mpr hs
    have hdrop : ((P.dropWhile fun c => c ≠ slash ∧ c ≠ 0).dropWhile (· = slash)).length ≤
        (P.dropWhile fun c => c ≠ slash ∧ c ≠ 0).length := (dropWhile_sublist _).length_le
    rw [length_append] at hlen
    omega
  · rw [runs_eq_nil hzero' (dropWhile_head? _),runs_dropWhile,hcs]
  · rw [hcstr,hc]

/-- Repeated calls of `skipelem` yield the elements and end. -/
theorem elements_halts (hp : 0 ∉ path) (hname : name.length = DIRSIZ) :
    Halts (fun fuel => elements fuel path name) (components path) := by
  obtain ⟨cs,hcs⟩ : ∃ cs, runs path = cs := ⟨_,rfl⟩
  rw [components,hcs]
  induction cs generalizing path name with
  | nil =>
    refine .last rfl fun n => ?_
    rw [elements,skipelem_none hp name hcs]
    rfl
  | cons c cs ih =>
    obtain ⟨rest,name',hskip,h⟩ := skipelem_some hp hname hcs
    rw [map_cons,← h.cstr]
    refine ((ih h.zero h.length h.runs).map (cstr name'::·)).round rfl fun n => ?_
    rw [elements,hskip]

/-! ## Resolution -/

section
variable (node : ℕ → Dinode) (data : ℕ → ℕ → ℕ)

def lookup (i : ℕ) (c : List ℕ) : Option ℕ :=
  if (node i).type = .dir then (find (entries data (node i)) c).map Prod.snd else none

def resolve : ℕ → List (List ℕ) → Option ℕ
  | i,[] => some i
  | i,c::cs => (lookup node data i c).bind fun j => resolve j cs

def follow (parent : Bool) : ℕ → List (List ℕ) → Option ℕ
  | i,[] => if parent then none else some i
  | i,c::cs =>
    if (node i).type ≠ .dir then none
    else if parent ∧ cs = [] then some i
    else (lookup node data i c).bind fun j => follow parent j cs

end

/-- A directory tree: the entries of directories lead to inodes. -/
structure Tree (sb : Superblock) (node : ℕ → Dinode) (st : Store) : Prop where
  sound : Sound sb node st
  size : ∀ i, Alloc sb node i → (node i).type = .dir → DESIZE ∣ (node i).size
  entry : ∀ i, Alloc sb node i → (node i).type = .dir →
    ∀ de ∈ entries st.data (node i), de.inum ≠ 0 → Alloc sb node de.inum

section
variable {sb : Superblock} {node : ℕ → Dinode} {st : Store} {data : ℕ → ℕ → ℕ} {i cwd : ℕ}
  {c name path : List ℕ} {cs : List (List ℕ)}

theorem strncpy_takeWhile (n : ℕ) (l : List ℕ) : strncpy n (l.takeWhile (· ≠ 0)) = strncpy n l := by
  induction n generalizing l with
  | zero => rfl
  | succ n ih =>
    cases l with
    | nil => rfl
    | cons x =>
      by_cases hx : x = 0
      · subst hx
        rfl
      · rw [takeWhile_cons_of_pos (by simpa using hx),strncpy,strncpy,headD_cons,
          headD_cons,if_neg hx,if_neg hx,tail_cons,tail_cons,ih]

theorem find_cstr (es : List Dirent) (h : name.length = DIRSIZ) :
    find es name = find es (cstr name) := by
  refine find_congr ?_
  rw [cstr,take_of_length_le h.le,strncpy_takeWhile]

theorem mem_of_find {es : List Dirent} {k n : ℕ} (h : find es c = some (k,n)) :
    ∃ de ∈ es, de.inum = n ∧ n ≠ 0 := by
  unfold find at h
  obtain ⟨de,hde,he⟩ := Option.map_eq_some_iff.mp h
  have hseek : seek (Dirent.named c) es 0 = ((seek (Dirent.named c) es 0).1,some de) := Prod.ext rfl hde
  obtain ⟨-,hget,htest⟩ := seek_some hseek
  cases he
  exact ⟨de,mem_of_getElem? hget,rfl,(of_decide_eq_true htest).1⟩

theorem Tree.lookup_alloc (h : Tree sb node st) (hi : Alloc sb node i) {j : ℕ}
    (hj : lookup node st.data i c = some j) : Alloc sb node j := by
  unfold lookup at hj
  split_ifs at hj with ht
  obtain ⟨⟨k,n⟩,hf,rfl⟩ := Option.map_eq_some_iff.mp hj
  obtain ⟨de,hde,rfl,hne⟩ := mem_of_find hf
  exact h.entry i hi ht de hde hne

theorem Tree.dirlookup_eq (h : Tree sb node st) (hi : Alloc sb node i) (ht : (node i).type = .dir) (hname : name.length = DIRSIZ) :
    ∃ r, dirlookup sb st (node i) name = .ok (r,node i,st) ∧
      r.map Prod.snd = lookup node st.data i (cstr name) ∧ ∀ k j, r = some (k,j) → Alloc sb node j := by
  have hr : ((find (entries st.data (node i)) name).map fun p => (DESIZE*p.1,p.2)).map Prod.snd =
      lookup node st.data i (cstr name) := by
    rw [lookup,if_pos ht,find_cstr _ hname,Option.map_map]
    rfl
  refine ⟨_,dirlookup_ok h.sound hi ht (h.size i hi ht) name,hr,fun k j hj => ?_⟩
  rw [hj] at hr
  exact h.lookup_alloc hi hr.symm

/-- The loop of `namex` walks along the elements and leaves the last one in the buffer. -/
theorem namexLoop_ok (h : Tree sb node st) (parent : Bool) {fuel : ℕ}
    (hi : Alloc sb node i) (hp : 0 ∉ path) (hname : name.length = DIRSIZ) (hfuel : path.length < fuel) :
    ∃ name', namexLoop sb parent fuel node st i path name =
        .ok ((follow node st.data parent i (components path),name'),node,st) ∧ name'.length = DIRSIZ ∧
      (parent → follow node st.data parent i (components path) ≠ none →
        some (cstr name') = (components path).getLast?) := by
  obtain ⟨cs,hcs⟩ : ∃ cs, runs path = cs := ⟨_,rfl⟩
  rw [components,hcs]
  induction cs generalizing path name fuel i with
  | nil =>
    obtain ⟨fuel,rfl⟩ : ∃ k, fuel = k+1 := ⟨fuel-1,by omega⟩
    rw [namexLoop,skipelem_none hp name hcs]
    exact ⟨name,rfl,hname,fun hpar hne => absurd (by simp [follow,hpar]) hne⟩
  | cons c cs ih =>
    obtain ⟨fuel,rfl⟩ : ∃ k, fuel = k+1 := ⟨fuel-1,by omega⟩
    obtain ⟨rest,name',hskip,hs⟩ := skipelem_some hp hname hcs
    rw [namexLoop,hskip]
    dsimp only
    rw [if_neg hi.2,map_cons,follow,← hs.cstr]
    by_cases ht : (node i).type = .dir
    · have hlast : (parent = true ∧ rest.headD 0 = 0) ↔
          (parent = true ∧ cs.map (·.take DIRSIZ) = []) := by
        rw [hs.last,map_eq_nil_iff]
      rw [if_neg (not_not.mpr ht),if_neg (not_not.mpr ht)]
      by_cases hstop : parent = true ∧ rest.headD 0 = 0
      · rw [if_pos hstop,if_pos (hlast.mp hstop),(hlast.mp hstop).2]
        exact ⟨name',rfl,hs.length,fun _ _ => rfl⟩
      · rw [if_neg hstop,if_neg (hlast.not.mp hstop)]
        obtain ⟨r,hr,hlookup,hnext⟩ := h.dirlookup_eq hi ht hs.length
        rw [hr,← hlookup]
        cases r with
        | none => exact ⟨name',by simp [bind,Except.bind],hs.length,fun _ hne => absurd rfl hne⟩
        | some kj =>
          obtain ⟨k,j⟩ := kj
          have hshort : rest.length < fuel := by
            have := hs.short
            omega
          obtain ⟨name'',hj,hlen,hname''⟩ := ih (hnext k j rfl) hs.zero hs.length hshort hs.runs
          refine ⟨name'',?_,hlen,fun hpar hne => ?_⟩
          · simp only [bind,Except.bind,Function.update_eq_self,Option.map_some,Option.bind_some]
            exact hj
          · have hne' : cs.map (·.take DIRSIZ) ≠ [] := fun he => hlast.not.mp hstop ⟨hpar,he⟩
            rw [hname'' hpar hne,getLast?_cons_of_ne_nil hne']
    · rw [if_pos ht,if_pos ht]
      exact ⟨name',rfl,hs.length,fun _ hne => absurd rfl hne⟩

theorem follow_false : follow node data false i cs = resolve node data i cs := by
  induction cs generalizing i with
  | nil => rfl
  | cons c cs ih =>
    rw [follow,resolve]
    by_cases ht : (node i).type = .dir
    · simp [ht,ih]
    · simp [ht,lookup]

theorem follow_true : follow node data true i (cs++[c]) =
    (resolve node data i cs).filter fun dp => (node dp).type = .dir := by
  induction cs generalizing i with
  | nil => by_cases ht : (node i).type = .dir <;> simp [follow,resolve,ht,Option.filter]
  | cons d cs ih =>
    rw [cons_append,follow,resolve]
    by_cases ht : (node i).type = .dir
    · cases hl : lookup node data i d <;> simp [ht,ih]
    · simp [ht,lookup]

theorem resolve_append (ds : List (List ℕ)) : resolve node data i (cs++ds) =
    (resolve node data i cs).bind fun j => resolve node data j ds := by
  induction cs generalizing i with
  | nil => rfl
  | cons c cs ih => simp only [cons_append,resolve,ih,Option.bind_assoc]

theorem lookup_eq_none : lookup node data i c = none ↔
    (node i).type ≠ .dir ∨ find (entries data (node i)) c = none := by
  unfold lookup
  by_cases ht : (node i).type = .dir <;> simp [ht]

theorem resolve_alloc (h : Tree sb node st) (hi : Alloc sb node i) {j : ℕ}
    (hj : resolve node st.data i cs = some j) : Alloc sb node j := by
  induction cs generalizing i with
  | nil =>
    cases hj
    exact hi
  | cons c cs ih =>
    obtain ⟨k,hk,hj⟩ := Option.bind_eq_some_iff.mp hj
    exact ih (h.lookup_alloc hi hk) hj

theorem resolve_eq_none : resolve node data i cs = none ↔
    ∃ as c bs, cs = as++c::bs ∧ ∃ j, resolve node data i as = some j ∧ lookup node data j c = none := by
  constructor
  · induction cs generalizing i with
    | nil => exact fun h => nomatch h
    | cons c cs ih =>
      intro h
      rw [resolve] at h
      cases hl : lookup node data i c with
      | none => exact ⟨[],c,cs,rfl,i,rfl,hl⟩
      | some =>
        rw [hl] at h
        obtain ⟨as,d,bs,rfl,k,hk,hd⟩ := ih h
        exact ⟨c::as,d,bs,rfl,k,by rw [resolve,hl]; exact hk,hd⟩
  · rintro ⟨as,c,bs,rfl,j,hj,hl⟩
    rw [resolve_append,hj,Option.bind_some,resolve,hl]
    rfl

theorem startOf_alloc (hroot : Alloc sb node ROOTINO) (hcwd : Alloc sb node cwd)
    (path : List ℕ) : Alloc sb node (startOf cwd path) := by
  unfold startOf
  split
  · exact hroot
  · exact hcwd

theorem namei_ok (h : Tree sb node st) (hi : Alloc sb node (startOf cwd path))
    (hp : 0 ∉ path) (hname : name.length = DIRSIZ) :
    namei sb node st cwd path name =
      .ok (resolve node st.data (startOf cwd path) (components path),node,st) := by
  obtain ⟨name',hloop,-,-⟩ := namexLoop_ok h false hi hp hname (Nat.lt_succ_self path.length)
  rw [namei,namex,hloop,follow_false]
  rfl

theorem nameiparent_ok (h : Tree sb node st)
    (hi : Alloc sb node (startOf cwd path)) (hp : 0 ∉ path) (hname : name.length = DIRSIZ)
    (hc : components path = cs++[c]) :
    ∃ name', nameiparent sb node st cwd path name =
        .ok (((resolve node st.data (startOf cwd path) cs).filter fun dp => (node dp).type = .dir,name'),
          node,st) ∧ name'.length = DIRSIZ ∧
      ∀ dp, resolve node st.data (startOf cwd path) cs = some dp → (node dp).type = .dir → cstr name' = c := by
  obtain ⟨name',hloop,hlen,hlast⟩ := namexLoop_ok h true hi hp hname (Nat.lt_succ_self path.length)
  rw [hc,follow_true] at hloop hlast
  refine ⟨name',hloop,hlen,fun dp hdp ht => ?_⟩
  have hne : (resolve node st.data (startOf cwd path) cs).filter (fun dp => (node dp).type = .dir) ≠ none := by
    simp [hdp,ht,Option.filter]
  simpa using hlast rfl hne

/-- Repeated calls of `skipelem` yield the runs between the slashes, cut to `DIRSIZ` bytes. `namei` looks
them up one after another. `nameiparent` does so for all but the last, leaves that one in `name`, and
then agrees with `namei` about it. -/
theorem path_resolution (h : Tree sb node st)
    (hroot : Alloc sb node ROOTINO) (hcwd : Alloc sb node cwd) (hp : 0 ∉ path)
    (hname : name.length = DIRSIZ) :
    Halts (fun fuel => elements fuel path name) ((runs path).map (·.take DIRSIZ)) ∧
      namei sb node st cwd path name =
        .ok (resolve node st.data (startOf cwd path) (components path),node,st) ∧
      (namei sb node st cwd path name = .ok (none,node,st) ↔ ∃ cs c ds, components path = cs++c::ds ∧
          ∃ i, resolve node st.data (startOf cwd path) cs = some i ∧
            ((node i).type ≠ .dir ∨ find (entries st.data (node i)) c = none)) ∧
      (components path = [] → nameiparent sb node st cwd path name = .ok ((none,name),node,st)) ∧
      (∀ cs c, components path = cs++[c] → ∃ name', nameiparent sb node st cwd path name =
            .ok (((resolve node st.data (startOf cwd path) cs).filter fun dp => (node dp).type = .dir,
              name'),node,st) ∧
          ∀ dp, resolve node st.data (startOf cwd path) cs = some dp → (node dp).type = .dir →
            cstr name' = c) ∧
      ∀ dp name', nameiparent sb node st cwd path name = .ok ((some dp,name'),node,st) →
        ∃ r, dirlookup sb st (node dp) name' = .ok (r,node dp,st) ∧
          namei sb node st cwd path name = .ok (r.map Prod.snd,node,st) := by
  have hi := startOf_alloc hroot hcwd path
  have hlast := fun hpath : components path ≠ [] =>
    nameiparent_ok h hi hp hname (dropLast_append_getLast hpath).symm
  have hnone (hpath : components path = []) :
      nameiparent sb node st cwd path name = .ok ((none,name),node,st) := by
    rw [nameiparent,namex,namexLoop,skipelem_none hp name (map_eq_nil_iff.mp hpath)]
    rfl
  refine ⟨elements_halts hp hname,namei_ok h hi hp hname,?_,hnone,fun cs c hc => ?_,fun dp name' hdp => ?_⟩
  · rw [namei_ok h hi hp hname,Except.ok.injEq,Prod.mk.injEq,and_iff_left rfl,resolve_eq_none]
    simp only [lookup_eq_none]
  · obtain ⟨name',hpar,-,hcstr⟩ := nameiparent_ok h hi hp hname hc
    exact ⟨name',hpar,hcstr⟩
  · have hpath : components path ≠ [] := by
      intro he
      rw [hnone he] at hdp
      cases hdp
    obtain ⟨name'',hpar,hlen,hcstr⟩ := hlast hpath
    rw [hdp] at hpar
    obtain ⟨⟨hres,rfl⟩,-⟩ := Prod.mk.inj (Except.ok.inj hpar) |>.imp_left Prod.mk.inj
    obtain ⟨hinit,ht⟩ := Option.filter_eq_some_iff.mp hres.symm
    have ht := of_decide_eq_true ht
    have hdp' := resolve_alloc h hi hinit
    obtain ⟨r,hr,hlookup,-⟩ := h.dirlookup_eq hdp' ht hlen
    refine ⟨r,hr,?_⟩
    rw [namei_ok h hi hp hname,hlookup,hcstr dp hinit ht]
    conv_lhs => rw [← dropLast_append_getLast hpath]
    rw [resolve_append,hinit]
    simp [resolve]

end

theorem bareDir_tree : Tree bareSb bareDir.1 bareDir.2 := by
  refine ⟨bareDir_sound.sound,fun i hi _ => ?_,fun i hi _ de hde _ => ?_⟩
  · obtain ⟨rfl,-⟩ := bareDir_slot (k := 0) hi
    exact bareDir_sound.size
  · obtain ⟨rfl,-⟩ := bareDir_slot (k := 0) hi
    have hinum : ∀ de ∈ entries bareDir.2.data (bareDir.1 1), de.inum = 1 := by decide
    rw [hinum de hde]
    exact bareDir_sound.alloc

/-- `//.///../` leads to the root, and `nameiparent` leaves `..` in the buffer. -/
theorem path_resolution_root :
    ∃ name', namei bareSb bareDir.1 bareDir.2 1 [47,47,46,47,47,47,46,46,47] (replicate 14 7) =
        .ok (some 1,bareDir.1,bareDir.2) ∧
      nameiparent bareSb bareDir.1 bareDir.2 1 [47,47,46,47,47,47,46,46,47] (replicate 14 7) =
        .ok ((some 1,name'),bareDir.1,bareDir.2) ∧ cstr name' = [46,46] := by
  obtain ⟨-,hnamei,-,-,hparent,-⟩ := path_resolution bareDir_tree bareDir_sound.alloc bareDir_sound.alloc
    (show 0 ∉ [47,47,46,47,47,47,46,46,47] by decide) (show (replicate 14 7).length = DIRSIZ from rfl)
  obtain ⟨name',hpar,hname⟩ := hparent [[46]] [46,46] (by decide)
  have hdot : resolve bareDir.1 bareDir.2.data (startOf 1 [47,47,46,47,47,47,46,46,47]) [[46]] = some 1 := by
    decide
  have hall : resolve bareDir.1 bareDir.2.data (startOf 1 [47,47,46,47,47,47,46,46,47])
      (components [47,47,46,47,47,47,46,46,47]) = some 1 := by decide
  rw [hall] at hnamei
  rw [hdot] at hpar
  exact ⟨name',hnamei,hpar,hname 1 hdot rfl⟩

end Xv6.FileBlocks
