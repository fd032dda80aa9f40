import Xv6.Umalloc
import Xv6.PageTable

/-!
# The heap and the size of the process

`morecore` multiplies its units back to bytes, and `sbrk` takes the product as a signed number. So
`malloc` fails when its units have wrapped around or their bytes are not a positive number. Below
both the answers of `sbrk` are fresh memory, and the blocks stay between the size of the process
before the first call and its size now.
-/
namespace Xv6.Umalloc
open Function Machine Links PageTable List

/-! ## The size of a process -/

def signed (w : ℕ) : ℤ := Int.bmod w (2^32)

/-- The result of `allocuvm`; `frames` tells if it finds the frames that it needs. -/
def allocSize (oldsz newsz : ℕ) (frames : Bool) : ℕ :=
  if newsz ≥ KERNBASE then 0 else if newsz < oldsz then oldsz else if frames then newsz else 0

def deallocSize (oldsz newsz : ℕ) : ℕ := if newsz ≥ oldsz then oldsz else newsz

/-- The size after `growproc`, or nothing for -1. -/
def growSize (sz : ℕ) (n : ℤ) (frames : Bool) : Option ℕ :=
  if n > 0 then
    let sz' := allocSize sz (addInt sz n) frames
    if sz' = 0 then none else some sz'
  else if n < 0 then
    let sz' := deallocSize sz (addInt sz n)
    if sz' = 0 then none else some sz'
  else some sz

variable {kend d oldsz newsz r : ℕ} {m m' : Mem}

theorem allocLoop_size {fuel a : ℕ}
    (h : allocLoop kend d oldsz newsz fuel m a = .ok (r,m')) : r = newsz ∨ r = 0 := by
  induction fuel generalizing m a with
  | zero =>
    cases h
    exact .inl rfl
  | succ fuel ih =>
    rw [allocLoop] at h
    split_ifs at h
    · split at h
      · obtain ⟨x,-,h⟩ := bind_ok.mp h
        cases h
        exact .inr rfl
      · obtain ⟨x,-,h⟩ := bind_ok.mp h
        dsimp only at h
        split_ifs at h
        · obtain ⟨y,-,h⟩ := bind_ok.mp h
          obtain ⟨z,-,h⟩ := bind_ok.mp h
          cases h
          exact .inr rfl
        · exact ih h
    · cases h
      exact .inl rfl

theorem allocuvm_size (h : allocuvm kend m d oldsz newsz = .ok (r,m')) :
    ∃ frames, r = allocSize oldsz newsz frames := by
  unfold allocuvm at h
  unfold allocSize
  split_ifs at h with hk ho
  · cases h
    exact ⟨true,(if_pos hk).symm⟩
  · cases h
    exact ⟨true,by rw [if_neg hk,if_pos ho]⟩
  · rcases allocLoop_size h with rfl | rfl
    · exact ⟨true,by rw [if_neg hk,if_neg ho,if_pos rfl]⟩
    · exact ⟨false,by simp [hk,ho]⟩

theorem deallocuvm_size
    (h : deallocuvm kend m d oldsz newsz = .ok (r,m')) : r = deallocSize oldsz newsz := by
  unfold deallocuvm at h
  unfold deallocSize
  split_ifs at h ⊢
  · cases h
    rfl
  · obtain ⟨x,-,h⟩ := bind_ok.mp h
    cases h
    rfl

/-- The size is the one that `growproc` leaves with the page table of the process. -/
theorem growproc_size {sz sz' : ℕ} {n r : ℤ} (h : growproc kend m d sz n = .ok (r,sz',m')) :
    ∃ frames, (r,sz') = match growSize sz n frames with
      | none => (-1,sz)
      | some t => (0,t) := by
  unfold growproc at h
  unfold growSize
  split_ifs at h with hp hn
  · obtain ⟨⟨t,m₁⟩,ht,h⟩ := bind_ok.mp h
    obtain ⟨frames,rfl⟩ := allocuvm_size ht
    refine ⟨frames,?_⟩
    dsimp only at h
    rw [if_pos hp]
    split_ifs at h with h0 <;> cases h <;> simp [h0]
  · obtain ⟨⟨t,m₁⟩,ht,h⟩ := bind_ok.mp h
    obtain rfl := deallocuvm_size ht
    refine ⟨true,?_⟩
    dsimp only at h
    rw [if_neg hp,if_pos hn]
    split_ifs at h with h0 <;> cases h <;> simp [h0]
  · cases h
    exact ⟨true,by rw [if_neg hp,if_neg hn]⟩

/-- No frame is free for one more page. -/
theorem growproc_size_full : ∃ frames, ((-1,4096) : ℤ×ℕ) = match growSize 4096 4096 frames with
    | none => (-1,4096)
    | some t => (0,t) :=
  growproc_size (show growproc 1 ⟨[],fun _ _ => 0⟩ 1 4096 4096 = .ok (-1,4096,_) from rfl)

/-- The sizes before and after the calls of `sbrk` with one argument, up to the first that fails. -/
def sizes (n : ℤ) : ℕ → List Bool → List ℕ
  | sz,[] => [sz]
  | sz,f::fs => sz::match growSize sz n f with
    | none => []
    | some sz' => sizes n sz' fs

/-- What `morecore` passes to `sbrk` for a request of `nbytes` bytes. -/
def increment (nbytes : ℕ) : ℤ := signed (request (unitsOf nbytes)*8)

/-- What the calls of `sbrk` return: the size before each that succeeds. -/
def answers (sz nbytes : ℕ) (frames : List Bool) : List (Option ℕ) :=
  (sizes (increment nbytes) sz frames).dropLast.map some

structure Process extends State where
  sz : ℕ

/-- `malloc` in a process, with the pointer that it returns. Each new region is a call of `sbrk`
that has succeeded. -/
def Process.malloc (base fuel : ℕ) (s : Process) (nbytes : ℕ) (frames : List Bool) :
    Option (Process × ℕ) :=
  (Umalloc.malloc base fuel s.heap (answers s.sz nbytes frames) nbytes).map fun (h,p) =>
    (⟨if p = 0 then {s.toState with heap := h} else ⟨h,(p,nbytes)::s.live⟩,
      (sizes (increment nbytes) s.sz frames).getD (h.regions.length-s.heap.regions.length) s.sz⟩,p)

/-- The calls of a program; `frames` tells for each call of `sbrk` if there are frames left. -/
inductive Op where
  | malloc (nbytes : ℕ) (frames : List Bool)
  | free (ap : ℕ)
  | store (ap i ptr size : ℕ)

def Process.step (base fuel : ℕ) (s : Process) : Op → Option Process
  | .malloc nbytes frames => (s.malloc base fuel nbytes frames).map Prod.fst
  | .free ap => (Umalloc.step base fuel s.toState (.free ap)).map fun t => ⟨t,s.sz⟩
  | .store ap i ptr size =>
    (Umalloc.step base fuel s.toState (.store ap i ptr size)).map fun t => ⟨t,s.sz⟩

def Process.Allowed (s : Process) : Op → Prop
  | .malloc nbytes _ => nbytes ≤ 2^31-16
  | .free ap => ∃ b ∈ s.live, b.1 = ap
  | .store ap i _ _ => ∃ b ∈ s.live, b.1 = ap ∧ 8*i < b.2

def Heap.usable (h : Heap) (p : ℕ) : ℕ := 8*(h.size (p-8)-1)

section
variable {base lo fuel p bp : ℕ} {h h' : Heap} {S : Set ℕ}

/-! ## Where blocks begin

`malloc` and `free` write no address into the list but those that are on it and those that they
get from `sbrk`. So the blocks of the list stay above any bound below the answers of `sbrk`.
-/

/-- The list runs through `S`, and all of `S` but `base` lies above `lo`. -/
structure Rooted (base lo : ℕ) (h : Heap) (S : Set ℕ) : Prop where
  start : base ∈ S
  freep : h.freep ∈ S
  closed : ∀ w ∈ S, h.ptr w ∈ S
  above : ∀ w ∈ S, w = base ∨ lo ≤ w
  size : h.size base = 0

theorem search_mem {next : ℕ → ℕ} {accept : ℕ → Bool} (hclosed : ∀ w ∈ S, next w ∈ S) {x w : ℕ}
    (hx : x ∈ S) (hw : search next accept fuel x = some w) : w ∈ S := by
  induction fuel generalizing x with
  | zero => cases hw
  | succ fuel ih =>
    rw [search] at hw
    split_ifs at hw
    · cases hw
      exact hx
    · exact ih (hclosed x hx) hw

theorem linked_mem {next : ℕ → ℕ} (hclosed : ∀ w ∈ S, next w ∈ S) {x : ℕ} {l : List ℕ}
    (hl : Linked next (x::l)) (hx : x ∈ S) : ∀ w ∈ x::l, w ∈ S := by
  induction l generalizing x with
  | nil => simpa using hx
  | cons y l ih =>
    obtain ⟨hy,hl⟩ := linked_cons_cons.mp hl
    intro w hw
    rcases mem_cons.mp hw with rfl | hw
    · exact hx
    · exact ih hl (hy ▸ hclosed x hx) w hw

theorem Rooted.congr (hr : Rooted base lo h S) (hf : h'.freep = h.freep)
    (hp : ∀ w ∈ S, h'.ptr w = h.ptr w) (hs : h'.size base = h.size base) : Rooted base lo h' S :=
  ⟨hr.start,hf ▸ hr.freep,fun w hw => hp w hw ▸ hr.closed w hw,hr.above,hs.trans hr.size⟩

theorem Rooted.redirect {q f : ℕ} {size : ℕ → ℕ} (hr : Rooted base lo h S) (hq : q ∈ S)
    (hf : f ∈ S) (hsize : size base = 0) :
    Rooted base lo {h with ptr := update h.ptr p q, size := size, freep := f} S where
  start := hr.start
  freep := hf
  closed w hw := by
    by_cases hwp : w = p
    · simpa [hwp] using hq
    · simpa [hwp] using hr.closed w hw
  above := hr.above
  size := hsize

theorem Rooted.joinUpper (hr : Rooted base lo h S) (hbp : bp ≠ base) (hlo : lo ≤ bp)
    (hp : p ∈ S) : Rooted base lo (h.joinUpper bp p) (insert bp S) := by
  have hset : ∀ q ∈ S, ∀ size : ℕ → ℕ, size base = 0 →
      Rooted base lo {h with ptr := update h.ptr bp q, size := size} (insert bp S) := by
    intro q hq size hsize
    refine ⟨.inr hr.start,.inr hr.freep,fun w hw => ?_,fun w hw => ?_,hsize⟩
    · by_cases hwb : w = bp
      · simpa [hwb] using .inr hq
      · simpa [hwb] using .inr (hr.closed w (hw.resolve_left hwb))
    · exact hw.elim (fun hwb => .inr (hwb ▸ hlo)) (hr.above w)
  unfold Heap.joinUpper
  split_ifs
  · exact hset _ (hr.closed _ (hr.closed p hp)) _ ((update_of_ne hbp.symm _ _).trans hr.size)
  · exact hset _ (hr.closed p hp) _ hr.size

theorem Rooted.joinLower (hr : Rooted base lo h S) (hbp : bp ≠ base) (hb : bp ∈ S)
    (hp : p ∈ S) : Rooted base lo {h.joinLower bp p with freep := p} S := by
  unfold Heap.joinLower
  split_ifs with htouch
  · have hpb : base ≠ p := by
      rintro rfl
      rw [hr.size] at htouch
      exact hbp htouch.symm
    exact hr.redirect (hr.closed bp hb) hp ((update_of_ne hpb _ _).trans hr.size)
  · exact hr.redirect hb hp hr.size

theorem Rooted.free (hr : Rooted base lo h S) (hbase : base < lo) (hbp : lo ≤ bp)
    (hfree : free fuel h (after bp 1) = some h') : ∃ S', Rooted base lo h' S' := by
  obtain ⟨p,hp,rfl⟩ := Option.map_eq_some_iff.mp hfree
  have hbp' : after bp 1-8 = bp := by simp [after]
  simp only [hbp'] at hp ⊢
  have hpS := search_mem hr.closed hr.freep hp
  have hne : bp ≠ base := by omega
  exact ⟨_,(hr.joinUpper hne hbp hpS).joinLower hne (.inl rfl) (.inr hpS)⟩

theorem Rooted.take {n prevp : ℕ} (hr : Rooted base lo h S) (hbase : base < lo) (hn : 0 < n)
    (hprev : prevp ∈ S) (hp : p ∈ S) (hsize : n ≤ h.size p) :
    Rooted base lo (h.take n prevp p).1 S ∧ after lo 1 ≤ (h.take n prevp p).2 := by
  have hpb : p ≠ base := by
    rintro rfl
    rw [hr.size] at hsize
    omega
  have hlo := (hr.above p hp).resolve_left hpb
  unfold Heap.take
  split_ifs
  · exact ⟨hr.redirect (hr.closed p hp) hprev hr.size,by simp only [after]; omega⟩
  · have hq : after p (h.size p-n) ≠ base := by
      simp only [after]
      omega
    refine ⟨⟨hr.start,hprev,hr.closed,hr.above,?_⟩,by simp only [after]; omega⟩
    exact (update_of_ne hq.symm _ _).trans ((update_of_ne hpb.symm _ _).trans hr.size)

theorem Rooted.mallocLoop {n prevp : ℕ} {sbrk : List (Option ℕ)} (hr : Rooted base lo h S)
    (hbase : base < lo) (hn : 0 < n) (hsbrk : ∀ a, some a ∈ sbrk → lo ≤ a) (hprev : prevp ∈ S)
    (hp : p ∈ S) (hm : mallocLoop n fuel h sbrk prevp p = some (h',r)) :
    (∃ S', Rooted base lo h' S') ∧ (r = 0 ∨ after lo 1 ≤ r) := by
  induction fuel generalizing h S sbrk prevp p with
  | zero => cases hm
  | succ fuel ih =>
    rw [Umalloc.mallocLoop] at hm
    split_ifs at hm with hsize hlast
    · obtain ⟨hr',hlo⟩ := hr.take hbase hn hprev hp hsize
      rw [Option.some_inj.mp hm] at hr' hlo
      exact ⟨⟨S,hr'⟩,.inr hlo⟩
    · obtain ⟨⟨h₁,p₁⟩,hcore,hm⟩ := Option.bind_eq_some_iff.mp hm
      cases hs : sbrk.headD none with
      | none =>
        rw [hs] at hcore
        cases hcore
        cases hm
        exact ⟨⟨S,hr⟩,.inl rfl⟩
      | some a =>
        rw [hs] at hcore
        obtain ⟨h₂,hfree,he⟩ := Option.map_eq_some_iff.mp hcore
        cases he
        cases sbrk with
        | nil => cases hs
        | cons x =>
          obtain rfl : x = some a := hs
          have ha : lo ≤ a := hsbrk a (by simp)
          have hext : Rooted base lo (h.extend a (request n)) S :=
            ⟨hr.start,hr.freep,hr.closed,hr.above,(update_of_ne (by omega) _ _).trans hr.size⟩
          obtain ⟨S₁,hr₁⟩ := hext.free hbase ha hfree
          dsimp only at hm
          split_ifs at hm
          · cases hm
            exact ⟨⟨S₁,hr₁⟩,.inl rfl⟩
          · exact ih hr₁ (fun b hb => hsbrk b (mem_cons_of_mem _ hb)) hr₁.freep
              (hr₁.closed _ hr₁.freep) hm
    · exact ih hr hsbrk hp (hr.closed p hp) hm

theorem Rooted.malloc {nbytes : ℕ} {sbrk : List (Option ℕ)}
    (hr : h.freep = 0 ∨ ∃ S, Rooted base lo h S) (hbase : base < lo)
    (hsbrk : ∀ a, some a ∈ sbrk → lo ≤ a) (hm : malloc base fuel h sbrk nbytes = some (h',r)) :
    (∃ S', Rooted base lo h' S') ∧ (r = 0 ∨ after lo 1 ≤ r) := by
  obtain ⟨S,hr⟩ : ∃ S, Rooted base lo (h.init base) S := by
    unfold Heap.init
    split_ifs with h0
    · exact ⟨{base},rfl,rfl,by simp,by simp,by simp⟩
    · exact hr.resolve_left h0
  exact hr.mallocLoop hbase (unitsOf_pos nbytes) hsbrk hr.freep (hr.closed _ hr.freep) hm

theorem Owns.rooted {B live : List Block} (ho : Owns base h B live) (hr : Rooted base lo h S) :
    Rooted base lo h {w | w ∈ B.map Prod.fst} := by
  obtain ⟨B',rfl⟩ := head?_eq_some_iff.mp ho.head
  have hmem := linked_mem hr.closed ho.linked hr.start
  refine ⟨by simp,ho.freep,fun w hw => ?_,fun w hw => hr.above w (hmem w ?_),hr.size⟩
  · have hnext := ho.linked.next_mem hw
    simp only [map_cons,List.mem_append,mem_cons,not_mem_nil,or_false] at hnext
    simp only [Set.mem_ofPred_eq,map_cons,mem_cons]
    tauto
  · exact mem_append_left _ hw

end

/-! ## Requests below half of memory -/

section
variable {base lo sz nbytes : ℕ} {n : ℤ} {frames : List Bool} {s : Process}

theorem increment_eq (hn : nbytes ≤ 2^31-16) :
    increment nbytes = 8*request (unitsOf nbytes) ∧ 0 < increment nbytes ∧ increment nbytes < 2^31 := by
  have hu : 8*request (unitsOf nbytes) < 2^31 := by
    unfold request unitsOf
    split_ifs <;> omega
  have hpos := request_pos (unitsOf nbytes)
  have hi : increment nbytes = 8*request (unitsOf nbytes) := by
    unfold increment signed
    rw [Int.bmod_def]
    omega
  exact ⟨hi,by omega,by omega⟩

theorem growSize_pos {f : Bool} {t : ℕ} (h0 : 0 < n) (hn : n < 2^31) (hsz : sz < KERNBASE)
    (h : growSize sz n f = some t) : (t : ℤ) = sz+n ∧ t < KERNBASE := by
  have hadd : (addInt sz n : ℤ) = sz+n := by
    unfold addInt
    rw [KERNBASE] at hsz
    omega
  rw [growSize,if_pos h0] at h
  simp only [allocSize] at h
  split_ifs at h <;> cases h <;> omega

theorem sizes_zero : (sizes n sz frames).getD 0 sz = sz := by cases frames <;> simp [sizes]

theorem le_of_mem_sizes (h0 : 0 < n) (hn : n < 2^31) (hsz : sz < KERNBASE) :
    ∀ a ∈ sizes n sz frames, sz ≤ a := by
  induction frames generalizing sz with
  | nil => simp [sizes]
  | cons f fs ih =>
    intro a ha
    rw [sizes] at ha
    rcases mem_cons.mp ha with rfl | ha
    · exact le_rfl
    · cases hg : growSize sz n f with
      | none => simp [hg] at ha
      | some =>
        obtain ⟨ht,hk⟩ := growSize_pos h0 hn hsz hg
        rw [hg] at ha
        have hta := ih hk a ha
        omega

theorem sizes_head {p : ℕ} (h0 : 0 < n) (hn : n < 2^31) (hsz : sz < KERNBASE)
    (hp : p ∈ ((sizes n sz frames).dropLast.map some).headD none) :
    p = sz ∧ ∃ t : ℕ, t = sz+n ∧ t < KERNBASE ∧ (sizes n sz frames).getD 1 sz = t := by
  cases frames with
  | nil => simp [sizes] at hp
  | cons f fs =>
    cases hg : growSize sz n f with
    | none => simp [sizes,hg] at hp
    | some t =>
      obtain ⟨ht,hk⟩ := growSize_pos h0 hn hsz hg
      obtain ⟨l,hl⟩ : ∃ l, sizes n t fs = t::l := by cases fs <;> simp [sizes]
      simp only [sizes,hg,hl,dropLast_cons_cons,map_cons,headD_cons,
        Option.mem_def,Option.some.injEq] at hp
      exact ⟨hp.symm,t,ht,hk,by simp [sizes,hg,hl]⟩

theorem answers_head {p : ℕ} (hn : nbytes ≤ 2^31-16) (hsz : sz < KERNBASE)
    (hp : p ∈ (answers sz nbytes frames).headD none) :
    p = sz ∧ after sz (request (unitsOf nbytes)) < KERNBASE ∧
      (sizes (increment nbytes) sz frames).getD 1 sz = after sz (request (unitsOf nbytes)) := by
  obtain ⟨hi,hpos,hlt⟩ := increment_eq hn
  obtain ⟨rfl,t,ht,hk,hget⟩ := sizes_head hpos hlt hsz hp
  have hgrow : t = after p (request (unitsOf nbytes)) := by
    rw [hi] at ht
    rw [after]
    omega
  exact ⟨rfl,hgrow ▸ hk,hget.trans hgrow⟩

/-- The heap lies between the first size of the process and its size now. -/
structure Fits (base lo : ℕ) (s : Process) : Prop where
  inv : Inv base s.toState
  rooted : s.heap.freep = 0 ∨ ∃ S, Rooted base lo s.heap S
  live : ∀ b ∈ s.live, after lo 1 ≤ b.1
  top : top base s.heap.regions ≤ s.sz
  low : lo ≤ s.sz
  size : s.sz < KERNBASE

theorem Fits.malloc (hs : Fits base lo s) (hb : 0 < base) (hbase : after base 1 ≤ lo)
    (hn : nbytes ≤ 2^31-16) (frames : List Bool) :
    ∃ s' p, Halts (fun fuel => s.malloc base fuel nbytes frames) (s',p) ∧ Fits base lo s' ∧
      s'.live = if p = 0 then s.live else (p,nbytes)::s.live := by
  obtain ⟨-,hpos,hlt⟩ := increment_eq hn
  have hlow : base < lo := by
    rw [after] at hbase
    omega
  have hfresh : Fresh base (request (unitsOf nbytes)) s.heap.regions (answers s.sz nbytes frames) := by
    intro p hp
    obtain ⟨rfl,hk,-⟩ := answers_head hn hs.size hp
    exact ⟨hs.top,by rw [KERNBASE] at hk; omega⟩
  have hsbrk : ∀ a, some a ∈ answers s.sz nbytes frames → lo ≤ a := by
    intro a ha
    obtain ⟨b,hb,he⟩ := mem_map.mp ha
    cases he
    exact hs.low.trans (le_of_mem_sizes hpos hlt hs.size a (mem_of_mem_dropLast hb))
  obtain ⟨h',p,hhalts,hinv,hgrown⟩ := hs.inv.malloc hb (by omega) hfresh
  obtain ⟨k,hk⟩ := hhalts.enough
  obtain ⟨hrooted,hp⟩ := Rooted.malloc hs.rooted hlow hsbrk (hk k le_rfl)
  -- the size has grown with the regions
  obtain ⟨sz',hsz',htop,hge,hlt'⟩ : ∃ sz', (sizes (increment nbytes) s.sz frames).getD
      (h'.regions.length-s.heap.regions.length) s.sz = sz' ∧ Umalloc.top base h'.regions ≤ sz' ∧
      s.sz ≤ sz' ∧ sz' < KERNBASE := by
    rcases hgrown with hreg | ⟨a,ha,hreg⟩
    · refine ⟨s.sz,?_,hreg ▸ hs.top,le_rfl,hs.size⟩
      rw [hreg,Nat.sub_self]
      exact sizes_zero
    · obtain ⟨rfl,hk,hget⟩ := answers_head hn hs.size ha
      refine ⟨_,?_,?_,?_,hk⟩
      · rw [hreg,length_cons,Nat.add_sub_cancel_left]
        exact hget
      · rw [hreg]
        exact max_le le_rfl (hs.top.trans (Nat.le_add_right _ _))
      · exact Nat.le_add_right _ _
  have hmalloc := hhalts.map fun (r : Heap × ℕ) =>
    ((⟨if r.2 = 0 then {s.toState with heap := r.1} else ⟨r.1,(r.2,nbytes)::s.live⟩,
      (sizes (increment nbytes) s.sz frames).getD (r.1.regions.length-s.heap.regions.length) s.sz⟩ :
        Process),r.2)
  refine ⟨_,_,hmalloc,?_,?_⟩
  · simp only [hsz']
    split_ifs at hinv ⊢ with h0
    · exact ⟨hinv,.inr hrooted,hs.live,htop,hs.low.trans hge,hlt'⟩
    · exact ⟨hinv,.inr hrooted,by simpa using ⟨hp.resolve_left h0,fun b c => hs.live (b,c)⟩,htop,
        hs.low.trans hge,hlt'⟩
  · simp only
    split_ifs <;> rfl

theorem Fits.free (hs : Fits base lo s) (hb : 0 < base) (hbase : after base 1 ≤ lo) {fuel ap : ℕ}
    {t : State} (hap : ∃ b ∈ s.live, b.1 = ap)
    (ht : Umalloc.step base fuel s.toState (.free ap) = some t) : Fits base lo ⟨t,s.sz⟩ := by
  obtain ⟨t',hhalts,hinv⟩ := hs.inv.free hap
  obtain rfl := hhalts.eq ht
  obtain ⟨h',hfree,rfl⟩ := Option.map_eq_some_iff.mp ht
  obtain ⟨b,hmem,rfl⟩ := hap
  have hlow := hs.live b hmem
  simp only [after] at hbase hlow
  have hap : b.1 = after (b.1-8) 1 := by
    rw [after]
    omega
  obtain ⟨S,hrooted⟩ : ∃ S, Rooted base lo s.heap S := by
    refine hs.rooted.resolve_left fun h0 => ?_
    obtain ⟨⟨-,hnil,-⟩ | ⟨B,blocks,ho,-⟩,-⟩ := hs.inv
    · simp [hnil] at hmem
    · exact ho.freep_pos hb h0
  have hreg : h'.regions = s.heap.regions := by
    obtain ⟨p,-,rfl⟩ := Option.map_eq_some_iff.mp hfree
    exact (joinLower_regions _ _).trans (joinUpper_regions _ _)
  rw [hap] at hfree
  refine ⟨hinv,.inr (hrooted.free (by omega) (by omega) hfree),fun c hc => ?_,?_,hs.low,hs.size⟩
  · exact hs.live c (mem_of_mem_eraseP hc)
  · rw [hreg]
    exact hs.top

theorem Fits.store (hs : Fits base lo s) (fuel : ℕ) {ap i ptr size : ℕ} {t : State}
    (hap : ∃ b ∈ s.live, b.1 = ap ∧ 8*i < b.2)
    (ht : Umalloc.step base fuel s.toState (.store ap i ptr size) = some t) :
    Fits base lo ⟨t,s.sz⟩ := by
  obtain ⟨t',hhalts,hinv⟩ := hs.inv.store hap
  obtain rfl := hhalts.eq ht
  cases ht
  refine ⟨hinv,hs.rooted.imp_right fun ⟨S,hr⟩ => ?_,hs.live,hs.top,hs.low,hs.size⟩
  obtain ⟨b,hmem,rfl,hi⟩ := hap
  obtain ⟨⟨-,hnil,-⟩ | ⟨B,blocks,ho,hserves⟩,-⟩ := hs.inv
  · simp [hnil] at hmem
  have hne : ∀ w ∈ B.map Prod.fst, w ≠ after b.1 i := by
    intro w hw
    obtain ⟨z,hz,rfl⟩ := mem_map.mp hw
    exact ho.misses hserves hmem hi z (mem_append_left _ hz)
  have hr' := ho.rooted hr
  exact ⟨_,hr'.congr rfl (fun w hw => update_of_ne (hne w hw) _ _)
    (update_of_ne (hne base hr'.start) _ _)⟩

theorem Fits.step (hs : Fits base lo s) (hb : 0 < base) (hbase : after base 1 ≤ lo) {fuel : ℕ}
    {op : Op} {s' : Process} (hok : s.Allowed op) (hstep : s.step base fuel op = some s') :
    Fits base lo s' := by
  cases op with
  | malloc nbytes frames =>
    obtain ⟨s₁,p,hhalts,hs₁,-⟩ := hs.malloc hb hbase hok frames
    obtain ⟨⟨s₂,p₂⟩,hm,rfl⟩ := Option.map_eq_some_iff.mp hstep
    cases hhalts.eq hm
    exact hs₁
  | free =>
    obtain ⟨t,ht,rfl⟩ := Option.map_eq_some_iff.mp hstep
    exact hs.free hb hbase hok ht
  | store =>
    cases hstep
    exact hs.store fuel hok rfl

abbrev Running (base : ℕ) (s₀ s : Process) : Prop :=
  Reach (fun s (a : ℕ × Op) => s.step base a.1 a.2) (fun s a => s.Allowed a.2) s₀ s

/-- From every state `malloc` returns null or a block of at least the bytes asked for, apart from all
other blocks, between the size that the process had at first and its size now. -/
theorem malloc_enough {heap₀ : Heap} (hb : 0 < base) (hbase : after base 1 ≤ lo)
    (hlo : lo < KERNBASE) (h0 : heap₀.freep = 0) (hr : heap₀.regions = [])
    (h : Running base ⟨⟨heap₀,[]⟩,lo⟩ s) (hn : nbytes ≤ 2^31-16) (frames : List Bool) :
    ∃ k s' p, (∀ fuel, k ≤ fuel → s.malloc base fuel nbytes frames = some (s',p)) ∧
      (p = 0 ∨ nbytes ≤ s'.heap.usable p ∧ after lo 1 ≤ p ∧ p+s'.heap.usable p ≤ s'.sz ∧
        ∀ b ∈ s.live, Apart (s'.heap.block (p-8)) (s'.heap.block (b.1-8))) := by
  have hfits₀ : Fits base lo ⟨⟨heap₀,[]⟩,lo⟩ := by
    refine ⟨⟨.inl ⟨h0,rfl,hr⟩,?_⟩,.inl h0,by simp,?_,le_rfl,hlo⟩
    · rw [KERNBASE] at hlo
      simp only [hr,top,foldr_nil]
      omega
    · simpa [hr,top] using hbase
  have hfits : Fits base lo s :=
    h.invariant (I := Fits base lo) hfits₀ fun _ _ _ hs hok hstep => hs.step hb hbase hok hstep
  obtain ⟨s',p,hhalts,hs',hlive⟩ := hfits.malloc hb hbase hn frames
  obtain ⟨k,hk⟩ := hhalts.enough
  refine ⟨k,s',p,hk,or_iff_not_imp_left.mpr fun hp => ?_⟩
  rw [if_neg hp] at hlive
  obtain ⟨⟨-,hnil,-⟩ | ⟨B,blocks,ho,hserves⟩,hbound⟩ := hs'.inv
  · simp [hlive] at hnil
  obtain ⟨free,hint⟩ := ho.integrity hserves hbound
  have hmem : (p,nbytes) ∈ s'.live := by simp [hlive]
  obtain ⟨h8,hbytes⟩ := hint.bytes (p,nbytes) hmem
  obtain ⟨-,hpos,hstop⟩ := hint.within (p-8)
    (mem_append_right _ (mem_map_of_mem (f := fun b : ℕ × ℕ => b.1-8) hmem))
  have htop := hs'.top
  have happrt := hint.live
  rw [hlive] at happrt
  simp only [Heap.usable,Heap.block,Block.stop,after] at hbytes hstop ⊢
  exact ⟨by omega,hs'.live _ hmem,by omega,(pairwise_cons.mp happrt).1⟩

instance decidableAllowed (s : Process) : ∀ op, Decidable (s.Allowed op)
  | .malloc nbytes _ => inferInstanceAs (Decidable (nbytes ≤ 2^31-16))
  | .free ap => inferInstanceAs (Decidable (∃ b ∈ s.live, b.1 = ap))
  | .store ap i _ _ => inferInstanceAs (Decidable (∃ b ∈ s.live, b.1 = ap ∧ 8*i < b.2))

def threePages : Process := ⟨⟨zeroHeap,[]⟩,12288⟩

/-- A small block, a request that `sbrk` turns down, and the small block given back. -/
def refusedOnce : List (ℕ × Op) :=
  [(9,.malloc 10 [true]),(9,.malloc 2000000000 [false]),(9,.malloc 24 []),(9,.free 45040)]

theorem refusedOnce_enough : ∃ s, Running 8 threePages s ∧ s.live = [(45008,24)] ∧ s.sz = 45056 ∧
    ∃ k s' p, (∀ fuel, k ≤ fuel → s.malloc 8 fuel 100000000 [true] = some (s',p)) ∧
      (p = 0 ∨ 100000000 ≤ s'.heap.usable p ∧ after 12288 1 ≤ p ∧ p+s'.heap.usable p ≤ s'.sz ∧
        ∀ b ∈ s.live, Apart (s'.heap.block (p-8)) (s'.heap.block (b.1-8))) := by
  have hrun : (run (guarded (fun s (a : ℕ × Op) => s.step 8 a.1 a.2) fun s a => s.Allowed a.2)
      threePages refusedOnce).any (fun s => s.live = [(45008,24)] ∧ s.sz = 45056) = true := by
    decide +kernel
  obtain ⟨s,hs,hp⟩ := (Option.any_eq_true _ _).mp hrun
  obtain ⟨hlive,hsz⟩ := of_decide_eq_true hp
  have hreach : Running 8 threePages s := Reach.refl.of_run hs
  exact ⟨s,hreach,hlive,hsz,
    malloc_enough (by decide) (by decide) (by decide) rfl rfl hreach (by decide) [true]⟩

/-- The units of the largest request wrap around to one: the first call of a process returns a
block without a byte behind its header. -/
theorem malloc_largest_empty : ∃ s' p, threePages.malloc 8 9 (2^32-1) [true] = some (s',p) ∧
    p ≠ 0 ∧ s'.heap.usable p = 0 ∧ s'.sz < p+(2^32-1) := by
  have hrun : (threePages.malloc 8 9 (2^32-1) [true]).any (fun r =>
      r.2 ≠ 0 ∧ r.1.heap.usable r.2 = 0 ∧ r.1.sz < r.2+(2^32-1)) = true := by decide +kernel
  obtain ⟨⟨s',p⟩,hs,hp⟩ := (Option.any_eq_true _ _).mp hrun
  exact ⟨s',p,hs,of_decide_eq_true hp⟩

end

end Xv6.Umalloc
