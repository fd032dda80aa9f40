import Xv6.Links
import Xv6.Machine

/-!
# The user heap

`umalloc.c` keeps the free blocks of a process on a circular list that starts at the static header
`base`. A header is eight bytes long and sizes are counted in headers. `free` and `malloc` search
from the roving pointer `freep`, with a bound on the blocks they look at; `none` is a search that
has passed it. Addresses and sizes are natural numbers: that no sum wraps around in 32 bits is part
of what is proved.
-/
namespace Xv6.Umalloc
open Function Machine Links List

/-! ## The allocator -/

/-- The headers in memory and the roving pointer; address zero is null. `regions` is
the history of what `sbrk` gave: the start and the number of units of each region. -/
structure Heap where
  ptr : ℕ → ℕ
  size : ℕ → ℕ
  freep : ℕ
  regions : List (ℕ × ℕ)

def after (p n : ℕ) : ℕ := p+8*n

/-- Does the search of `free` for the place of `bp` end at `p`? -/
def Heap.place (h : Heap) (bp p : ℕ) : Bool :=
  (p < bp && bp < h.ptr p) || (h.ptr p ≤ p && (p < bp || bp < h.ptr p))

/-- Put `bp` in front of the block behind `p`, or join the two. -/
def Heap.joinUpper (h : Heap) (bp p : ℕ) : Heap :=
  if after bp (h.size bp) = h.ptr p then
    {h with
      size := update h.size bp (h.size bp+h.size (h.ptr p))
      ptr := update h.ptr bp (h.ptr (h.ptr p))}
  else {h with ptr := update h.ptr bp (h.ptr p)}

def Heap.joinLower (h : Heap) (bp p : ℕ) : Heap :=
  if after p (h.size p) = bp then
    {h with
      size := update h.size p (h.size p+h.size bp)
      ptr := update h.ptr p (h.ptr bp)}
  else {h with ptr := update h.ptr p bp}

def free (fuel : ℕ) (h : Heap) (ap : ℕ) : Option Heap :=
  let bp := ap-8
  (search h.ptr (h.place bp) fuel h.freep).map fun p =>
    {(h.joinUpper bp p).joinLower bp p with freep := p}

def request (nu : ℕ) : ℕ := if nu < 4096 then 4096 else nu

def Heap.extend (h : Heap) (p nu : ℕ) : Heap :=
  {h with size := update h.size p nu, regions := (p,nu)::h.regions}

/-- `none` as the answer of `sbrk` is -1. The second result is the returned pointer. -/
def morecore (fuel : ℕ) (h : Heap) (nu : ℕ) (sbrk : Option ℕ) : Option (Heap × ℕ) :=
  match sbrk with
  | none => some (h,0)
  | some p =>
    (free fuel (h.extend p (request nu)) (after p 1)).map fun h' => (h',h'.freep)

/-- Take `nunits` from the block `p` behind `prevp`: all of it, or its tail. -/
def Heap.take (h : Heap) (nunits prevp p : ℕ) : Heap × ℕ :=
  if h.size p = nunits then
    ({h with ptr := update h.ptr prevp (h.ptr p), freep := prevp},after p 1)
  else
    let rest := h.size p-nunits
    let q := after p rest
    ({h with size := update (update h.size p rest) q nunits, freep := prevp},after q 1)

/-- The loop of `malloc`; `sbrk` lists the answers it is going to get. -/
def mallocLoop (nunits : ℕ) : ℕ → Heap → List (Option ℕ) → ℕ → ℕ → Option (Heap × ℕ)
  | 0,_,_,_,_ => none
  | fuel+1,h,sbrk,prevp,p =>
    if nunits ≤ h.size p then some (h.take nunits prevp p)
    else if p = h.freep then
      (morecore fuel h nunits (sbrk.headD none)).bind fun (h',p') =>
        if p' = 0 then some (h',0)
        else mallocLoop nunits fuel h' sbrk.tail p' (h'.ptr p')
    else mallocLoop nunits fuel h sbrk p (h.ptr p)

def unitsOf (nbytes : ℕ) : ℕ := (nbytes+8-1)%2^32/8+1

/-- The list of `base` alone, made by the first call. -/
def Heap.init (base : ℕ) (h : Heap) : Heap :=
  if h.freep = 0 then
    {h with ptr := update h.ptr base base, size := update h.size base 0, freep := base}
  else h

def malloc (base fuel : ℕ) (h : Heap) (sbrk : List (Option ℕ)) (nbytes : ℕ) : Option (Heap × ℕ) :=
  let h := h.init base
  mallocLoop (unitsOf nbytes) fuel h sbrk h.freep (h.ptr h.freep)

/-! ## Blocks

A block is an address and a number of units. `base` counts as a block of no units, so
that the list of free blocks has one at its head that never changes.
-/

abbrev Block := ℕ × ℕ

def Block.stop (x : Block) : ℕ := after x.1 x.2

def Apart (x y : Block) : Prop := (x.stop ≤ y.1 ∨ y.stop ≤ x.1) ∧ x.1 ≠ y.1

theorem Apart.symm {x y : Block} (h : Apart x y) : Apart y x := ⟨h.1.symm,h.2.symm⟩

def Gap (x y : Block) : Prop := x.stop < y.1

/-- The blocks of `L` are `base` and parts of the memory between it and `hi`. -/
structure Tiles (base hi units : ℕ) (L : List Block) : Prop where
  apart : L.Pairwise Apart
  sound : ∀ x ∈ L, x = (base,0) ∨ 0 < x.2 ∧ after base 1 ≤ x.1 ∧ x.stop ≤ hi
  total : (L.map Prod.snd).sum = units

section
variable {base hi units : ℕ} {L L' : List Block} {x y : Block}

theorem Tiles.perm (h : Tiles base hi units L) (hp : L.Perm L') : Tiles base hi units L' where
  apart := hp.pairwise h.apart fun hxy => hxy.symm
  sound x hx := h.sound x (hp.mem_iff.mpr hx)
  total := (hp.map _).sum_eq.symm.trans h.total

theorem Tiles.start_nodup (h : Tiles base hi units L) : (L.map Prod.fst).Nodup :=
  pairwise_map.mpr (h.apart.imp fun hxy => hxy.2)

theorem Tiles.merge (h : Tiles base hi units (x::y::L)) (hx : x ≠ (base,0)) (hy : y ≠ (base,0))
    (hxy : x.stop = y.1) : Tiles base hi units ((x.1,x.2+y.2)::L) := by
  obtain ⟨hax,hap⟩ := pairwise_cons.mp h.apart
  obtain ⟨hay,haL⟩ := pairwise_cons.mp hap
  obtain ⟨hxp,hxb,-⟩ := (h.sound x (by simp)).resolve_left hx
  obtain ⟨hyp,-,hyh⟩ := (h.sound y (by simp)).resolve_left hy
  refine ⟨pairwise_cons.mpr ⟨fun z hz => ?_,haL⟩,?_,?_⟩
  · have hxz := hax z (mem_cons_of_mem _ hz)
    have hyz := hay z hz
    have hz' := h.sound z (by simp [hz])
    simp only [Apart,Block.stop,after] at *
    refine ⟨?_,hxz.2⟩
    rcases hz' with rfl | hz' <;> omega
  · intro z hz
    rcases mem_cons.mp hz with rfl | hz
    · refine .inr ⟨by simp only; omega,hxb,?_⟩
      simp only [Block.stop,after] at *
      omega
    · exact h.sound z (by simp [hz])
  · have ht := h.total
    simp only [map_cons,sum_cons] at ht ⊢
    omega

theorem Tiles.cut {m n : ℕ} (h : Tiles base hi units (x::L)) (hm : 0 < m) (hn : 0 < n)
    (hx : x.2 = m+n) : Tiles base hi units ((x.1,m)::(after x.1 m,n)::L) := by
  obtain ⟨hax,haL⟩ := pairwise_cons.mp h.apart
  have hx0 : x ≠ (base,0) := by
    rintro rfl
    simp only at hx
    omega
  obtain ⟨-,hxb,hxh⟩ := (h.sound x (by simp)).resolve_left hx0
  have hcut : ∀ z ∈ L, Apart (x.1,m) z ∧ Apart (after x.1 m,n) z := by
    intro z hz
    have hxz := hax z hz
    have hz' := h.sound z (by simp [hz])
    simp only [Apart,Block.stop,after] at *
    rcases hz' with rfl | hz' <;> omega
  refine ⟨pairwise_cons.mpr ⟨fun z hz => ?_,pairwise_cons.mpr
    ⟨fun z hz => (hcut z hz).2,haL⟩⟩,?_,?_⟩
  · rcases mem_cons.mp hz with rfl | hz
    · simp only [Apart,Block.stop,after]
      omega
    · exact (hcut z hz).1
  · intro z hz
    simp only [mem_cons] at hz
    simp only [Block.stop,after] at hxb hxh ⊢
    rcases hz with rfl | rfl | hz
    · exact .inr ⟨hm,hxb,by simp only; omega⟩
    · exact .inr ⟨hn,by simp only [after]; omega,by simp only [after]; omega⟩
    · exact h.sound z (by simp [hz])
  · have ht := h.total
    simp only [map_cons,sum_cons] at ht ⊢
    omega

theorem Tiles.grow {a n : ℕ} (h : Tiles base hi units L) (hn : 0 < n) (hb : after base 1 ≤ hi)
    (ha : hi ≤ a) : Tiles base (after a n) (units+n) ((a,n)::L) where
  apart := by
    refine pairwise_cons.mpr ⟨fun z hz => ?_,h.apart⟩
    have hz' := h.sound z hz
    simp only [Apart,Block.stop,after] at *
    rcases hz' with rfl | hz' <;> omega
  sound z hz := by
    rcases mem_cons.mp hz with rfl | hz
    · exact .inr ⟨hn,hb.trans ha,le_rfl⟩
    · refine (h.sound z hz).imp_right fun ⟨hp,hl,hh⟩ => ⟨hp,hl,?_⟩
      simp only [Block.stop,after] at *
      omega
  total := by
    have ht := h.total
    simp only [map_cons,sum_cons]
    omega

theorem Tiles.start_ne (h : Tiles base hi units (x::L)) {z : Block} (hz : z ∈ L) : z.1 ≠ x.1 :=
  (((pairwise_cons.mp h.apart).1 z hz).2).symm

end

/-! ## The free list -/

/-- The heap has the free blocks `B`, which begin with `base`, and the live blocks `live`. -/
structure Holds (base hi units : ℕ) (h : Heap) (B live : List Block) : Prop where
  linked : Linked h.ptr (B.map Prod.fst++[base])
  head : B.head? = some (base,0)
  freep : h.freep ∈ B.map Prod.fst
  sizes : ∀ x ∈ B++live, h.size x.1 = x.2
  gaps : B.Pairwise Gap
  tiles : Tiles base hi units (B++live)

/-- Between the two halves of `free`: `c` points to the blocks above it, and the blocks
below it end with `x`. -/
structure Between (base hi units : ℕ) (h : Heap) (a : List Block) (x c : Block)
    (r live : List Block) : Prop where
  lower : Linked h.ptr (a.map Prod.fst++[x.1])
  upper : Linked h.ptr (c.1::r.map Prod.fst++[base])
  head : (a++[x]).head? = some (base,0)
  sizes : ∀ y ∈ x::c::(a++(r++live)), h.size y.1 = y.2
  below : (a++[x]).Pairwise Gap
  above : (c::r).Pairwise Gap
  order : x.stop ≤ c.1
  tiles : Tiles base hi units (x::c::(a++(r++live)))
  ne : c ≠ (base,0)

section
variable {base hi units n : ℕ} {h : Heap} {B live a r : List Block} {x b c y : Block}

theorem Block.start_le (x : Block) : x.1 ≤ x.stop := by
  simp only [Block.stop,after]
  omega

theorem Gap.lt (hxy : Gap x y) : x.1 < y.1 := lt_of_le_of_lt x.start_le hxy

theorem Apart.stop_le (h : Apart x y) (hxy : x.1 < y.1) : x.stop ≤ y.1 := by
  have hy := y.start_le
  have h := h.1
  omega

theorem Gap.trans_start {z : Block} (hxy : Gap x y) (hyz : Gap y z) : Gap x z := by
  have hy := y.start_le
  simp only [Gap] at *
  omega

/-- A walk from below `bp` passes the place of `bp` before it is back at `base`. -/
theorem exists_place {bp p : ℕ} {l : List ℕ} (hl : Linked h.ptr (p::l++[base])) (hp : p < bp)
    (hb : base ≤ p) (hn : bp ∉ l) : ∃ w ∈ p::l, h.place bp w := by
  induction l generalizing p with
  | nil =>
    have hnext : h.ptr p = base := (linked_cons_cons.mp hl).1
    exact ⟨p,by simp,by simp [Heap.place,hnext,hp,hb]⟩
  | cons q l ih =>
    obtain ⟨hnext,hl⟩ := linked_cons_cons.mp hl
    simp only [mem_cons,not_or] at hn
    by_cases hq : p < q ∧ q < bp
    · obtain ⟨w,hw,hplace⟩ := ih hl hq.2 (by omega) hn.2
      exact ⟨w,mem_cons_of_mem _ hw,hplace⟩
    · refine ⟨p,by simp,?_⟩
      simp only [Heap.place,hnext,Bool.or_eq_true,Bool.and_eq_true,decide_eq_true_eq]
      omega

/-- The search of `free` stops at the last free block below `b`. -/
theorem Holds.place (hh : Holds base hi units h B (b::live)) (hb : b ≠ (base,0)) :
    ∃ a x r, B = a++x::r ∧ x.1 < b.1 ∧ (∀ y ∈ r, b.1 < y.1) ∧
      Halts (fun fuel => search h.ptr (h.place b.1) fuel h.freep) x.1 := by
  obtain ⟨B',rfl⟩ : ∃ B', B = (base,0)::B' := by
    obtain ⟨B',hB⟩ := head?_eq_some_iff.mp hh.head
    exact ⟨B',hB⟩
  have hbase : base < b.1 := by
    have hs := ((hh.tiles.sound b (by simp)).resolve_left hb).2.1
    simp only [after] at hs
    omega
  have hfresh : ∀ y ∈ (base,0)::B', y.1 ≠ b.1 := fun y hy =>
    (hh.tiles.perm perm_middle).start_ne (mem_append_left _ hy)
  -- the walk starts at the roving pointer, so the ring is turned to it first
  have hring : Linked h.ptr (base::B'.map Prod.fst++[base]) := hh.linked
  obtain ⟨l,hl,hrot⟩ := hring.rotate hh.freep
  have hex : ∃ w ∈ h.freep::l, h.place b.1 w := by
    obtain ⟨w,hw,hplace⟩ := exists_place hring hbase le_rfl fun hmem => by
      obtain ⟨y,hy,hyb⟩ := mem_map.mp hmem
      exact hfresh y (mem_cons_of_mem _ hy) hyb
    exact ⟨w,hrot.mem_iff.mpr hw,hplace⟩
  obtain ⟨w,hw,hplace,hhalts⟩ := hl.init.search_halts hex
  obtain ⟨x,hx,rfl⟩ := mem_map.mp (show w ∈ ((base,0)::B').map Prod.fst from hrot.mem_iff.mp hw)
  obtain ⟨a,r,hB⟩ := append_of_mem hx
  suffices hpos : x.1 < b.1 ∧ ∀ y ∈ r, b.1 < y.1 from ⟨a,x,r,hB,hpos.1,hpos.2,hhalts⟩
  have hlx : Linked h.ptr (x.1::(r.map Prod.fst++[base])) := by
    have hl := hh.linked
    rw [hB,map_append,map_cons,append_assoc,cons_append] at hl
    exact (linked_split.mp hl).2
  have hgaps := hh.gaps
  rw [hB] at hgaps
  obtain ⟨hxr,hr⟩ := pairwise_cons.mp (pairwise_append.mp hgaps).2.1
  simp only [Heap.place,Bool.or_eq_true,Bool.and_eq_true,decide_eq_true_eq] at hplace
  cases r with
  | nil =>
    have hnext : h.ptr x.1 = base := (linked_cons_cons.mp hlx).1
    exact ⟨by omega,by simp⟩
  | cons y r =>
    have hnext : h.ptr x.1 = y.1 := (linked_cons_cons.mp hlx).1
    have hxy : x.1 < y.1 := (hxr y (by simp)).lt
    refine ⟨by omega,fun z hz => ?_⟩
    have hy : b.1 < y.1 := by omega
    rcases mem_cons.mp hz with rfl | hz
    · exact hy
    · exact hy.trans ((pairwise_cons.mp hr).1 z hz).lt

theorem perm_freed : (a++x::r++b::live).Perm (b::x::(a++(r++live))) := by
  refine perm_middle.trans (.cons _ ?_)
  rw [append_assoc]
  exact perm_middle

theorem perm_one : (a++x::r++live).Perm (x::(a++(r++live))) := by
  rw [append_assoc]
  exact perm_middle

theorem perm_two : (a++x::c::r++live).Perm (x::c::(a++(r++live))) := by
  refine perm_one.trans (.cons _ ?_)
  exact perm_middle

/-- The freed block, or what it has grown to, takes over the pointer of `q`. -/
theorem Holds.between {r' : List Block} {q : ℕ} (hh : Holds base hi units h (a++x::r) (b::live))
    (hx : x.1 < b.1) (hc : c.1 = b.1) (hc0 : c ≠ (base,0)) (hr : ∀ y ∈ r', y ∈ r)
    (hl : Linked h.ptr (q::r'.map Prod.fst++[base])) (hgap : (c::r').Pairwise Gap)
    (ht : Tiles base hi units (c::x::(a++(r'++live)))) :
    Between base hi units
      {h with ptr := update h.ptr b.1 (h.ptr q), size := update h.size b.1 c.2} a x c r' live := by
  have hlink := hh.linked
  simp only [map_append,map_cons,append_assoc,cons_append] at hlink
  have hgaps := hh.gaps
  rw [← singleton_append,← append_assoc] at hgaps
  have hne : ∀ y ∈ x::(a++(r'++live)), y.1 ≠ b.1 := fun y hy => hc ▸ ht.start_ne hy
  refine ⟨(linked_split.mp hlink).1.congr ?_,?_,?_,fun y hy => ?_,(pairwise_append.mp hgaps).1,
    hgap,?_,ht.perm (.swap _ _ _),hc0⟩
  · intro w hw
    obtain ⟨y,hy,rfl⟩ := mem_map.mp hw
    exact update_of_ne (hne y (by simp [hy])) _ _
  · rw [hc]
    refine hl.redirect fun hw => ?_
    obtain ⟨y,hy,hyb⟩ := mem_map.mp hw
    exact hne y (by simp [hy]) hyb
  · have hhead := hh.head
    cases a <;> exact hhead
  · rcases mem_cons.mp ((List.Perm.swap _ _ _).mem_iff.mp hy) with rfl | hy
    · simp [hc]
    · refine (update_of_ne (hne y hy) _ _).trans (hh.sizes y (perm_freed.mem_iff.mpr ?_))
      simp only [mem_cons,List.mem_append] at hy ⊢
      have hyr := hr y
      tauto
  · exact ((pairwise_cons.mp ht.apart).1 x (by simp)).symm.stop_le (hc ▸ hx)

theorem Holds.joinUpper (hh : Holds base hi units h (a++x::r) (b::live)) (hb : b ≠ (base,0))
    (hx : x.1 < b.1) (hr : ∀ y ∈ r, b.1 < y.1) :
    ∃ c r', c.1 = b.1 ∧ b.2 ≤ c.2 ∧ Between base hi units (h.joinUpper b.1 x.1) a x c r' live := by
  have ht := hh.tiles.perm perm_freed
  have hl := hh.linked
  simp only [map_append,map_cons,append_assoc,cons_append] at hl
  have hlx := (linked_split.mp hl).2
  obtain ⟨hgx,hgr⟩ := pairwise_cons.mp (pairwise_append.mp hh.gaps).2.1
  have hsize : h.size b.1 = b.2 := hh.sizes b (by simp)
  have hstop : ∀ y ∈ r, b.stop ≤ y.1 := fun y hy =>
    ((pairwise_cons.mp ht.apart).1 y (by simp [hy])).stop_le (hr y hy)
  have hbase := ((ht.sound b (by simp)).resolve_left hb).2.1
  by_cases hjoin : after b.1 (h.size b.1) = h.ptr x.1
  · cases r with
    | nil =>
      have hnext : h.ptr x.1 = base := (linked_cons_cons.mp hlx).1
      simp only [after] at hbase hjoin
      omega
    | cons y r =>
      obtain ⟨hnext,hly⟩ := linked_cons_cons.mp hlx
      have hy0 : y ≠ (base,0) := by
        rintro rfl
        have hby := hr (base,0) (by simp)
        simp only [after] at hbase hby
        omega
      have hsy : h.size y.1 = y.2 := hh.sizes y (by simp)
      have htouch : b.stop = y.1 := by
        rw [← hnext,← hjoin,hsize]
        rfl
      have hm : Tiles base hi units ((b.1,b.2+y.2)::x::(a++(r++live))) :=
        (ht.perm (.cons _ (by
          refine List.Perm.trans (.cons _ ?_) (.swap y x _)
          exact perm_middle))).merge hb hy0 htouch
      refine ⟨(b.1,b.2+y.2),r,rfl,Nat.le_add_right _ _,?_⟩
      have hbt := hh.between (q := y.1) (c := (b.1,b.2+y.2)) hx rfl ?_
        (fun z hz => mem_cons_of_mem _ hz) hly ?_ hm
      · rw [Heap.joinUpper,if_pos hjoin,hnext,hsize,hsy]
        exact hbt
      · intro he
        have hb1 : b.1 = base := congrArg Prod.fst he
        simp only [after] at hbase
        omega
      · obtain ⟨hyr,hgr⟩ := pairwise_cons.mp hgr
        refine pairwise_cons.mpr ⟨fun z hz => ?_,hgr⟩
        have hyz := hyr z hz
        simp only [Gap,Block.stop,after] at hyz htouch ⊢
        omega
  · refine ⟨b,r,rfl,le_rfl,?_⟩
    have hbt := hh.between (q := x.1) hx rfl hb (fun _ hz => hz) hlx ?_ ht
    · rw [Heap.joinUpper,if_neg hjoin]
      rwa [← hsize,update_eq_self] at hbt
    · refine pairwise_cons.mpr ⟨fun z hz => ?_,hgr⟩
      cases r with
      | nil => cases hz
      | cons y r =>
        have hnext : h.ptr x.1 = y.1 := (linked_cons_cons.mp hlx).1
        have hby : Gap b y := lt_of_le_of_ne (hstop y (by simp)) fun he =>
          hjoin ((congrArg _ hsize).trans (he.trans hnext.symm))
        rcases mem_cons.mp hz with rfl | hz
        · exact hby
        · exact hby.trans_start ((pairwise_cons.mp hgr).1 z hz)

theorem Between.joinLower (hm : Between base hi units h a x c r live) :
    ∃ B, Holds base hi units {h.joinLower c.1 x.1 with freep := x.1} B live ∧ ∃ z ∈ B, c.2 ≤ z.2 := by
  have hsx : h.size x.1 = x.2 := hm.sizes x (by simp)
  have hsc : h.size c.1 = c.2 := hm.sizes c (by simp)
  have hne : ∀ y ∈ c::(a++(r++live)), y.1 ≠ x.1 := fun y hy => hm.tiles.start_ne hy
  obtain ⟨hga,-,hax⟩ := pairwise_append.mp hm.below
  have hax : ∀ u ∈ a, Gap u x := fun u hu => hax u hu x (by simp)
  obtain ⟨hcr,hgr⟩ := pairwise_cons.mp hm.above
  have hbase := ((hm.tiles.sound c (by simp)).resolve_left hm.ne).2.1
  have hlower : ∀ v, Linked (update h.ptr x.1 v) (a.map Prod.fst++[x.1]) := fun v =>
    hm.lower.congr fun w hw => by
      obtain ⟨y,hy,rfl⟩ := mem_map.mp hw
      exact update_of_ne (hne y (by simp [hy])) _ _
  have hxc : x.1 < c.1 := lt_of_le_of_ne (x.start_le.trans hm.order) (hne c (by simp)).symm
  by_cases hjoin : after x.1 (h.size x.1) = c.1
  · have hx0 : x ≠ (base,0) := by
      rintro rfl
      rw [hsx] at hjoin
      simp only [after] at hbase hjoin
      omega
    rw [Heap.joinLower,if_pos hjoin,hsx,hsc]
    refine ⟨a++(x.1,x.2+c.2)::r,⟨?_,?_,by simp,fun y hy => ?_,?_,?_⟩,(x.1,x.2+c.2),by simp,
      Nat.le_add_left _ _⟩
    · simp only [map_append,map_cons,append_assoc,cons_append]
      refine linked_split.mpr ⟨hlower _,hm.upper.redirect fun hw => ?_⟩
      obtain ⟨y,hy,hyx⟩ := mem_map.mp hw
      exact hne y (by simp [hy]) hyx
    · have hhead := hm.head
      cases a with
      | nil => exact absurd (Option.some_injective _ hhead) hx0
      | cons => exact hhead
    · rcases mem_cons.mp (perm_one.mem_iff.mp hy) with rfl | hy
      · exact update_self _ _ _
      · have hy : y ∈ c::(a++(r++live)) := mem_cons_of_mem _ hy
        exact (update_of_ne (hne y hy) _ _).trans (hm.sizes y (mem_cons_of_mem _ hy))
    · have hstop : Block.stop (x.1,x.2+c.2) = c.stop := by
        rw [hsx] at hjoin
        simp only [Block.stop,after] at hjoin ⊢
        omega
      refine pairwise_append.mpr ⟨hga,pairwise_cons.mpr ⟨fun z hz => ?_,hgr⟩,
        fun u hu z hz => ?_⟩
      · exact hstop.trans_lt (hcr z hz)
      · rcases mem_cons.mp hz with rfl | hz
        · exact hax u hu
        · exact lt_trans (hax u hu) (hxc.trans (hcr z hz).lt)
    · refine (hm.tiles.merge hx0 hm.ne ?_).perm perm_one.symm
      rwa [hsx] at hjoin
  · rw [Heap.joinLower,if_neg hjoin]
    refine ⟨a++x::c::r,⟨?_,?_,by simp,fun y hy => ?_,?_,?_⟩,c,by simp,le_rfl⟩
    · simp only [map_append,map_cons,append_assoc,cons_append]
      refine linked_split.mpr ⟨hlower _,linked_cons_cons.mpr ⟨update_self _ _ _,?_⟩⟩
      refine Linked.congr (l := c.1::r.map Prod.fst) hm.upper fun w hw => ?_
      obtain ⟨y,hy,rfl⟩ := mem_map.mp (show w ∈ (c::r).map Prod.fst from hw)
      exact update_of_ne (hne y (by
        simp only [mem_cons,List.mem_append] at hy ⊢
        tauto)) _ _
    · have hhead := hm.head
      cases a <;> exact hhead
    · exact hm.sizes y (perm_two.mem_iff.mp hy)
    · have hgap : Gap x c := lt_of_le_of_ne hm.order fun he => hjoin ((congrArg _ hsx).trans he)
      refine pairwise_append.mpr ⟨hga,pairwise_cons.mpr ⟨fun z hz => ?_,hm.above⟩,
        fun u hu z hz => ?_⟩
      · rcases mem_cons.mp hz with rfl | hz
        · exact hgap
        · exact hgap.trans_start (hcr z hz)
      · simp only [mem_cons] at hz
        rcases hz with rfl | rfl | hz
        · exact hax u hu
        · exact (hax u hu).trans_start hgap
        · exact (hax u hu).trans_start (hgap.trans_start (hcr z hz))
    · exact hm.tiles.perm perm_two.symm

theorem joinUpper_regions (bp p : ℕ) : (h.joinUpper bp p).regions = h.regions := by
  unfold Heap.joinUpper
  split_ifs <;> rfl

theorem joinLower_regions (bp p : ℕ) : (h.joinLower bp p).regions = h.regions := by
  unfold Heap.joinLower
  split_ifs <;> rfl

/-- `free` of a live block returns, and the block is on the list, alone or as a part of another. -/
theorem free_halts (hh : Holds base hi units h B (b::live)) (hb : b ≠ (base,0)) :
    ∃ h' B', Halts (fun fuel => free fuel h (after b.1 1)) h' ∧ h'.regions = h.regions ∧
      Holds base hi units h' B' live ∧ ∃ z ∈ B', b.2 ≤ z.2 := by
  obtain ⟨a,x,r,rfl,hx,hr,hhalts⟩ := hh.place hb
  obtain ⟨c,r',hc,hbc,hm⟩ := hh.joinUpper hb hx hr
  obtain ⟨B',hB',z,hz,hcz⟩ := hm.joinLower
  have hbp : after b.1 1-8 = b.1 := by simp [after]
  refine ⟨_,B',?_,?_,hB',z,hz,hbc.trans hcz⟩
  · have hmap := hhalts.map fun p => {(h.joinUpper b.1 p).joinLower b.1 p with freep := p}
    simpa only [free,hbp,hc] using hmap
  · exact (joinLower_regions _ _).trans (joinUpper_regions _ _)

theorem Holds.extend {p : ℕ} (hh : Holds base hi units h B live) (hn : 0 < n)
    (hb : after base 1 ≤ hi) (hp : hi ≤ p) :
    Holds base (after p n) (units+n) (h.extend p n) B ((p,n)::live) := by
  have ht := hh.tiles.grow hn hb hp
  refine ⟨hh.linked,hh.head,hh.freep,fun y hy => ?_,hh.gaps,ht.perm perm_middle.symm⟩
  rcases mem_cons.mp (perm_middle.mem_iff.mp hy) with rfl | hy
  · exact update_self _ _ _
  · exact (update_of_ne (ht.start_ne hy) _ _).trans (hh.sizes y hy)

theorem Holds.ring (hh : Holds base hi units h B live) :
    ∃ l, Linked h.ptr (h.freep::l++[h.freep]) ∧ (h.freep::l).IsRotated (B.map Prod.fst) := by
  obtain ⟨B',rfl⟩ := head?_eq_some_iff.mp hh.head
  exact Linked.rotate hh.linked hh.freep

theorem Holds.take {prevp : ℕ} (hh : Holds base hi units h B live) (hn : 0 < n)
    (hprev : prevp ∈ B.map Prod.fst) (hsize : n ≤ h.size (h.ptr prevp)) :
    ∃ B' q, (h.take n prevp (h.ptr prevp)).2 = after q 1 ∧
      (h.take n prevp (h.ptr prevp)).1.regions = h.regions ∧
      Holds base hi units (h.take n prevp (h.ptr prevp)).1 B' ((q,n)::live) := by
  obtain ⟨x,hx,rfl⟩ := mem_map.mp hprev
  obtain ⟨a,r,rfl⟩ := append_of_mem hx
  have hl := hh.linked
  simp only [map_append,map_cons,append_assoc,cons_append] at hl
  obtain ⟨hla,hlx⟩ := linked_split.mp hl
  cases r with
  | nil =>
    -- the block behind the last one is `base`, which has no units
    have hnext : h.ptr x.1 = base := (linked_cons_cons.mp hlx).1
    have hzero : h.size base = 0 :=
      hh.sizes (base,0) (mem_append_left _ (mem_of_head? hh.head))
    rw [hnext,hzero] at hsize
    omega
  | cons y r =>
    obtain ⟨hnext,hly⟩ := linked_cons_cons.mp hlx
    have hsy : h.size y.1 = y.2 := hh.sizes y (by simp)
    have hperm : (a++x::y::r++live).Perm (y::x::(a++(r++live))) := perm_two.trans (.swap _ _ _)
    have ht := hh.tiles.perm hperm
    have hgaps := hh.gaps
    rw [hnext,hsy] at hsize
    rw [Heap.take,hnext,hsy]
    split_ifs with he
    · refine ⟨a++x::r,y.1,rfl,rfl,?_,?_,by simp,fun z hz => ?_,?_,?_⟩
      · have hne : ∀ z ∈ a++r, z.1 ≠ x.1 := fun z hz =>
          (ht.perm (.swap _ _ _)).start_ne (by
            simp only [List.mem_append,mem_cons] at hz ⊢
            tauto)
        simp only [map_append,map_cons,append_assoc,cons_append]
        refine linked_split.mpr ⟨hla.congr fun w hw => ?_,Linked.redirect hly fun hw => ?_⟩
        · obtain ⟨z,hz,rfl⟩ := mem_map.mp hw
          exact update_of_ne (hne z (by simp [hz])) _ _
        · obtain ⟨z,hz,hzx⟩ := mem_map.mp hw
          exact hne z (by simp [hz]) hzx
      · have hhead := hh.head
        cases a <;> exact hhead
      · refine hh.sizes z ?_
        rw [← he] at hz
        simp only [List.mem_append,mem_cons] at hz ⊢
        tauto
      · exact hgaps.sublist ((List.Sublist.refl a).append (.cons_cons _ (.cons _ (.refl _))))
      · rw [← he]
        exact ht.perm ((perm_middle.trans (.cons _ perm_one)).symm)
    · have hcut := ht.cut (m := y.2-n) (n := n) (by omega) hn (by omega)
      have hq := hcut.perm (.swap _ _ _)
      refine ⟨a++x::(y.1,y.2-n)::r,after y.1 (y.2-n),rfl,rfl,?_,?_,?_,fun z hz => ?_,?_,?_⟩
      · simpa only [map_append,map_cons] using hh.linked
      · have hhead := hh.head
        cases a <;> exact hhead
      · simp
      · have hz : z ∈ (after y.1 (y.2-n),n)::(y.1,y.2-n)::x::(a++(r++live)) := by
          simp only [List.mem_append,mem_cons] at hz ⊢
          tauto
        rcases mem_cons.mp hz with rfl | hz
        · exact update_self _ _ _
        refine (update_of_ne (hq.start_ne hz) _ _).trans ?_
        rcases mem_cons.mp hz with rfl | hz
        · exact update_self _ _ _
        · refine (update_of_ne (ht.start_ne hz) _ _).trans (hh.sizes z ?_)
          exact hperm.mem_iff.mpr (mem_cons_of_mem _ hz)
      · obtain ⟨hga,hgx,hcross⟩ := pairwise_append.mp hgaps
        obtain ⟨hxy,hgy⟩ := pairwise_cons.mp hgx
        obtain ⟨hyr,hgr⟩ := pairwise_cons.mp hgy
        have hshort : Block.stop (y.1,y.2-n) ≤ Block.stop y := by
          simp only [Block.stop,after]
          omega
        refine pairwise_append.mpr ⟨hga,pairwise_cons.mpr ⟨fun z hz => ?_,
          pairwise_cons.mpr ⟨fun z hz => hshort.trans_lt (hyr z hz),hgr⟩⟩,fun u hu z hz => ?_⟩
        · rcases mem_cons.mp hz with rfl | hz
          · exact hxy y (by simp)
          · exact hxy z (by simp [hz])
        · simp only [mem_cons] at hz
          rcases hz with rfl | rfl | hz
          · exact hcross u hu z (by simp)
          · exact hcross u hu y (by simp)
          · exact hcross u hu z (by simp [hz])
      · refine hq.perm ?_
        exact (perm_middle.trans (.cons _ (perm_two.trans (.swap _ _ _)))).symm

/-- One pass of `malloc` around the list: a block is taken, or all are too small and the
pass ends where it has to ask for more memory. -/
theorem Holds.pass (hh : Holds base hi units h B live) (hn : 0 < n)
    (sbrk : List (Option ℕ)) {prevp : ℕ} {l : List ℕ} (hl : Linked h.ptr (prevp::l++[h.freep]))
    (hmem : ∀ w ∈ prevp::l, w ∈ B.map Prod.fst) (hfresh : h.freep ∉ l) :
    (∃ h' B' q, Halts (fun fuel => mallocLoop n fuel h sbrk prevp (h.ptr prevp)) (h',after q 1) ∧
      h'.regions = h.regions ∧ Holds base hi units h' B' ((q,n)::live)) ∨
    (∀ w ∈ l++[h.freep], h.size w < n) ∧ ∀ res,
      Halts (fun fuel => (morecore fuel h n (sbrk.headD none)).bind fun (h',p') =>
        if p' = 0 then some (h',0)
        else mallocLoop n fuel h' sbrk.tail p' (h'.ptr p')) res →
      Halts (fun fuel => mallocLoop n fuel h sbrk prevp (h.ptr prevp)) res := by
  induction l generalizing prevp with
  | nil =>
    have hnext : h.ptr prevp = h.freep := (linked_cons_cons.mp hl).1
    by_cases hsize : n ≤ h.size (h.ptr prevp)
    · obtain ⟨B',q,hq,hreg,hB'⟩ := hh.take hn (hmem prevp (by simp)) hsize
      refine .inl ⟨_,B',q,.last rfl fun m => ?_,hreg,hB'⟩
      rw [mallocLoop,if_pos hsize,← hq]
    · refine .inr ⟨fun w hw => ?_,fun res hres => hres.round rfl fun m => ?_⟩
      · rw [nil_append,mem_singleton] at hw
        rw [hw,← hnext]
        omega
      · rw [mallocLoop,if_neg hsize,if_pos hnext]
  | cons p l ih =>
    obtain ⟨hnext,hl'⟩ := linked_cons_cons.mp hl
    by_cases hsize : n ≤ h.size (h.ptr prevp)
    · obtain ⟨B',q,hq,hreg,hB'⟩ := hh.take hn (hmem prevp (by simp)) hsize
      refine .inl ⟨_,B',q,.last rfl fun m => ?_,hreg,hB'⟩
      rw [mallocLoop,if_pos hsize,← hq]
    · have hp : h.ptr prevp ≠ h.freep := by
        rw [hnext]
        exact fun he => hfresh (by simp [he])
      have hround : ∀ m, mallocLoop n (m+1) h sbrk prevp (h.ptr prevp) =
          mallocLoop n m h sbrk p (h.ptr p) := fun m => by
        rw [mallocLoop,if_neg hsize,if_neg hp,hnext]
      rcases ih hl' (fun w hw => hmem w (mem_cons_of_mem _ hw))
        (fun hw => hfresh (mem_cons_of_mem _ hw)) with
        ⟨h',B',q,hhalts,hreg,hB'⟩ | ⟨hsmall,hrest⟩
      · exact .inl ⟨h',B',q,hhalts.round rfl hround,hreg,hB'⟩
      · refine .inr ⟨fun w hw => ?_,fun res hres => (hrest res hres).round rfl hround⟩
        rcases mem_cons.mp hw with rfl | hw
        · rw [hnext] at hsize
          omega
        · exact hsmall w hw

end

/-- The end of the highest region; `base` lies below all of them. -/
def top (base : ℕ) (regions : List (ℕ × ℕ)) : ℕ :=
  regions.foldr (fun r t => max (after r.1 r.2) t) (after base 1)

def obtained (regions : List (ℕ × ℕ)) : ℕ := (regions.map Prod.snd).sum

def Owns (base : ℕ) (h : Heap) (B live : List Block) : Prop :=
  Holds base (top base h.regions) (obtained h.regions) h B live

section
variable {base n : ℕ} {h : Heap} {B live : List Block}

theorem base_le_top (base : ℕ) (regions : List (ℕ × ℕ)) : after base 1 ≤ top base regions := by
  induction regions with
  | nil => exact le_rfl
  | cons r regions ih => exact ih.trans (le_max_right _ _)

theorem request_pos (nu : ℕ) : 0 < request nu := by
  unfold request
  split_ifs <;> omega

theorem le_request (nu : ℕ) : nu ≤ request nu := by
  unfold request
  split_ifs <;> omega

theorem Owns.of_regions {h' : Heap} {B' live' : List Block} (hr : h'.regions = h.regions)
    (hh : Holds base (top base h.regions) (obtained h.regions) h' B' live') :
    Owns base h' B' live' := by
  unfold Owns
  rwa [hr]

theorem Owns.freep_pos (hh : Owns base h B live) (hb : 0 < base) : h.freep ≠ 0 := by
  obtain ⟨x,hx,he⟩ := mem_map.mp hh.freep
  have hs := hh.tiles.sound x (mem_append_left _ hx)
  rw [← he]
  rcases hs with rfl | ⟨-,hs,-⟩
  · exact hb.ne'
  · simp only [after] at hs
    omega

/-- The answer of `sbrk` to a request for `n` units is above everything before it. -/
def Fresh (base n : ℕ) (regions : List (ℕ × ℕ)) (sbrk : List (Option ℕ)) : Prop :=
  ∀ p ∈ sbrk.headD none, top base regions ≤ p ∧ after p n < 2^32

theorem Owns.extend {p : ℕ} (hh : Owns base h B live) (hn : 0 < n)
    (hp : top base h.regions ≤ p) : Owns base (h.extend p n) B ((p,n)::live) := by
  have hgrow := Holds.extend hh hn (base_le_top base _) hp
  have htop : top base ((p,n)::h.regions) = after p n :=
    max_eq_left (hp.trans (Nat.le_add_right _ _))
  have hsum : obtained ((p,n)::h.regions) = obtained h.regions+n := by
    simp only [obtained,map_cons,sum_cons]
    omega
  unfold Owns
  rwa [show (h.extend p n).regions = (p,n)::h.regions from rfl,htop,hsum]

/-- What a call of `malloc` leaves: no block and null, or one more live block. -/
def Served (base n : ℕ) (live : List Block) (res : Heap × ℕ) : Prop :=
  (res.2 = 0 ∧ ∃ B, Owns base res.1 B live) ∨ ∃ B q, res.2 = after q 1 ∧ Owns base res.1 B ((q,n)::live)

/-- A call of `malloc` obtains at most one region. -/
def Grown (n : ℕ) (sbrk : List (Option ℕ)) (regions regions' : List (ℕ × ℕ)) : Prop :=
  regions' = regions ∨ ∃ p ∈ sbrk.headD none, regions' = (p,request n)::regions

theorem Grown.top_lt {sbrk : List (Option ℕ)} {regions regions' : List (ℕ × ℕ)}
    (h : Grown n sbrk regions regions') (hfresh : Fresh base (request n) regions sbrk)
    (hbound : top base regions < 2^32) : top base regions' < 2^32 := by
  rcases h with rfl | ⟨p,hp,rfl⟩
  · exact hbound
  · exact max_lt (hfresh p hp).2 hbound

theorem mallocLoop_halts {sbrk : List (Option ℕ)} (hh : Owns base h B live) (hb : 0 < base)
    (hn : 0 < n) (hfresh : Fresh base (request n) h.regions sbrk) :
    ∃ res, Halts (fun fuel => mallocLoop n fuel h sbrk h.freep (h.ptr h.freep)) res ∧
      Served base n live res ∧ Grown n sbrk h.regions res.1.regions := by
  obtain ⟨l,hl,hrot⟩ := Holds.ring hh
  have hmem : ∀ w ∈ h.freep::l, w ∈ B.map Prod.fst := fun w hw => hrot.mem_iff.mp hw
  have hnodup : (h.freep::l).Nodup := hrot.nodup_iff.mpr
    ((map_append ▸ hh.tiles.start_nodup).of_append_left)
  rcases Holds.pass hh hn sbrk hl hmem (nodup_cons.mp hnodup).1 with
    ⟨h',B',q,hhalts,hreg,hB'⟩ | ⟨hsmall,hrest⟩
  · exact ⟨_,hhalts,.inr ⟨B',q,rfl,.of_regions hreg hB'⟩,.inl hreg⟩
  · cases hs : sbrk.headD none with
    | none =>
      refine ⟨(h,0),hrest _ ?_,.inl ⟨rfl,B,hh⟩,.inl rfl⟩
      rw [hs]
      exact .const _
    | some p =>
      have hx := hh.extend (request_pos n) (hfresh p (Option.mem_def.mpr hs)).1
      have hp0 : (p,request n) ≠ (base,0) := fun he =>
        (request_pos n).ne' (congrArg Prod.snd he)
      obtain ⟨h₁,B₁,hfree,hreg,hB₁,z,hz,hlarge⟩ := free_halts hx hp0
      have ho : Owns base h₁ B₁ live := .of_regions hreg hB₁
      -- the second pass meets the block that has been freed
      obtain ⟨l₁,hl₁,hrot₁⟩ := Holds.ring ho
      have hnodup₁ : (h₁.freep::l₁).Nodup := hrot₁.nodup_iff.mpr
        ((map_append ▸ ho.tiles.start_nodup).of_append_left)
      have hcore : Halts (fun fuel => morecore fuel h n (some p)) (h₁,h₁.freep) :=
        hfree.map fun h' => (h',h'.freep)
      rcases Holds.pass ho hn sbrk.tail hl₁ (fun w hw => hrot₁.mem_iff.mp hw)
        (nodup_cons.mp hnodup₁).1 with ⟨h',B',q,hhalts,hreg',hB'⟩ | ⟨hsmall,-⟩
      · refine ⟨(h',after q 1),hrest _ ?_,.inr ⟨B',q,rfl,.of_regions hreg' hB'⟩,
          .inr ⟨p,hs,hreg'.trans hreg⟩⟩
        rw [hs]
        refine hcore.bind ?_
        simpa only [if_neg (ho.freep_pos hb)] using hhalts
      · have hzmem : z.1 ∈ l₁++[h₁.freep] := by
          have hzr := hrot₁.mem_iff.mpr (mem_map_of_mem hz)
          simp only [mem_cons,List.mem_append,not_mem_nil,or_false] at hzr ⊢
          exact hzr.symm
        have hzsmall := hsmall z.1 hzmem
        rw [ho.sizes z (mem_append_left _ hz)] at hzsmall
        have hle := le_request n
        simp only at hlarge
        omega

theorem unitsOf_pos (nbytes : ℕ) : 0 < unitsOf nbytes := Nat.succ_pos _

theorem le_unitsOf {nbytes : ℕ} (hn : nbytes+7 < 2^32) : nbytes+8 ≤ 8*unitsOf nbytes := by
  unfold unitsOf
  omega

theorem init_owns (h0 : h.freep = 0) (hr : h.regions = []) : Owns base (h.init base) [(base,0)] [] := by
  rw [Heap.init,if_pos h0]
  refine ⟨?_,rfl,by simp,by simp,by simp,by simp,by simp,?_⟩
  · exact linked_cons_cons.mpr ⟨update_self _ _ _,linked_singleton⟩
  · simp [hr,obtained]

end

/-! ## Programs that use the heap -/

/-- The heap and the history of the live blocks: the pointer and the bytes asked for. -/
structure State where
  heap : Heap
  live : List (ℕ × ℕ)

/-- `store` is a write of the program into a block it has: the eight bytes from `ap+8*i`
on, which read `ptr` and `size` as a header. -/
inductive Call where
  | malloc (nbytes : ℕ) (sbrk : List (Option ℕ))
  | free (ap : ℕ)
  | store (ap i ptr size : ℕ)

def step (base fuel : ℕ) (s : State) : Call → Option State
  | .malloc nbytes sbrk =>
    (malloc base fuel s.heap sbrk nbytes).map fun (h,p) =>
      if p = 0 then {s with heap := h} else ⟨h,(p,nbytes)::s.live⟩
  | .free ap =>
    (free fuel s.heap ap).map fun h => ⟨h,s.live.eraseP fun b => b.1 = ap⟩
  | .store ap i ptr size =>
    some {s with heap := {s.heap with
      ptr := update s.heap.ptr (after ap i) ptr
      size := update s.heap.size (after ap i) size}}

/-- The calls of a program that respects the interface, with an `sbrk` that gives fresh memory. -/
def Legal (base : ℕ) (s : State) : Call → Prop
  | .malloc nbytes sbrk =>
    nbytes < 2^30 ∧ Fresh base (request (unitsOf nbytes)) s.heap.regions sbrk
  | .free ap => ∃ b ∈ s.live, b.1 = ap
  | .store ap i _ _ => ∃ b ∈ s.live, b.1 = ap ∧ 8*i < b.2

def Serves (b : ℕ × ℕ) (x : Block) : Prop := b.1 = after x.1 1 ∧ b.2+8 ≤ 8*x.2

def Inv (base : ℕ) (s : State) : Prop :=
  (s.heap.freep = 0 ∧ s.live = [] ∧ s.heap.regions = [] ∨
    ∃ B blocks, Owns base s.heap B blocks ∧ List.Forall₂ Serves s.live blocks) ∧
  top base s.heap.regions < 2^32

section
variable {base ap : ℕ} {s s' : State} {B blocks : List Block} {live : List (ℕ × ℕ)}

theorem Holds.perm {hi units : ℕ} {h : Heap} {live live' : List Block}
    (hh : Holds base hi units h B live) (hp : live.Perm live') : Holds base hi units h B live' :=
  ⟨hh.linked,hh.head,hh.freep,fun x hx => hh.sizes x ((hp.append_left B).mem_iff.mpr hx),hh.gaps,
    hh.tiles.perm (hp.append_left B)⟩

theorem serves_erase (h : List.Forall₂ Serves live blocks) (hap : ∃ b ∈ live, b.1 = ap) :
    ∃ x blocks', blocks.Perm (x::blocks') ∧ ap = after x.1 1 ∧ 0 < x.2 ∧
      List.Forall₂ Serves (live.eraseP fun b => b.1 = ap) blocks' := by
  induction h with
  | nil => simp at hap
  | @cons b x live blocks hb h ih =>
    by_cases he : b.1 = ap
    · refine ⟨x,blocks,.refl _,he ▸ hb.1,by have := hb.2; omega,?_⟩
      simpa [he] using h
    · have hap : ∃ b ∈ live, b.1 = ap := by
        obtain ⟨b',hb',hap⟩ := hap
        rcases mem_cons.mp hb' with rfl | hb'
        · exact absurd hap he
        · exact ⟨b',hb',hap⟩
      obtain ⟨y,blocks',hp,hy,hpos,hrest⟩ := ih hap
      refine ⟨y,x::blocks',(hp.cons x).trans (.swap _ _ _),hy,hpos,?_⟩
      simpa [he] using List.Forall₂.cons hb hrest

theorem serves_mem {b : ℕ × ℕ}
    (h : List.Forall₂ Serves live blocks) (hb : b ∈ live) : ∃ x ∈ blocks, Serves b x := by
  induction h with
  | nil => cases hb
  | @cons b' x live blocks hbx h ih =>
    rcases mem_cons.mp hb with rfl | hb
    · exact ⟨x,by simp,hbx⟩
    · obtain ⟨y,hy,hby⟩ := ih hb
      exact ⟨y,mem_cons_of_mem _ hy,hby⟩

theorem Inv.malloc (hs : Inv base s) (hb : 0 < base) {nbytes : ℕ} {sbrk : List (Option ℕ)}
    (hn : nbytes+7 < 2^32) (hfresh : Fresh base (request (unitsOf nbytes)) s.heap.regions sbrk) :
    ∃ h' p, Halts (fun fuel => malloc base fuel s.heap sbrk nbytes) (h',p) ∧
      Inv base (if p = 0 then {s with heap := h'} else ⟨h',(p,nbytes)::s.live⟩) ∧
      Grown (unitsOf nbytes) sbrk s.heap.regions h'.regions := by
  obtain ⟨hcase,hbound⟩ := hs
  obtain ⟨B,blocks,ho,hserves,hreg⟩ : ∃ B blocks, Owns base (s.heap.init base) B blocks ∧
      List.Forall₂ Serves s.live blocks ∧ (s.heap.init base).regions = s.heap.regions := by
    rcases hcase with ⟨h0,hl,hr⟩ | ⟨B,blocks,ho,hserves⟩
    · refine ⟨_,[],init_owns h0 hr,by simp [hl],?_⟩
      rw [Heap.init,if_pos h0]
    · have hi : s.heap.init base = s.heap := if_neg (ho.freep_pos hb)
      exact ⟨B,blocks,hi.symm ▸ ho,hserves,congrArg _ hi⟩
  obtain ⟨⟨h',p⟩,hhalts,hserved,hgrown⟩ :=
    mallocLoop_halts ho hb (unitsOf_pos nbytes) (hreg.symm ▸ hfresh)
  rw [hreg] at hgrown
  have hbound' := hgrown.top_lt hfresh hbound
  refine ⟨h',p,hhalts,?_,hgrown⟩
  rcases hserved with ⟨hp,B',hB'⟩ | ⟨B',q,hp,hB'⟩
  · rw [if_pos hp]
    exact ⟨.inr ⟨B',blocks,hB',hserves⟩,hbound'⟩
  · have hp0 : p ≠ 0 := by
      rw [show p = after q 1 from hp,after]
      omega
    rw [if_neg hp0]
    exact ⟨.inr ⟨B',_,hB',.cons ⟨hp,le_unitsOf hn⟩ hserves⟩,hbound'⟩

theorem Inv.free (hs : Inv base s) (hok : Legal base s (.free ap)) :
    ∃ s', Halts (fun fuel => step base fuel s (.free ap)) s' ∧ Inv base s' := by
  obtain ⟨⟨-,hl,-⟩ | ⟨B,blocks,ho,hserves⟩,hbound⟩ := hs
  · obtain ⟨b,hb,-⟩ := hok
    rw [hl] at hb
    cases hb
  · obtain ⟨x,blocks',hp,rfl,hpos,hrest⟩ := serves_erase hserves hok
    have hx0 : x ≠ (base,0) := by
      rintro rfl
      exact lt_irrefl _ hpos
    obtain ⟨h',B',hhalts,hreg,hB',-⟩ := free_halts (Holds.perm ho hp) hx0
    have hstep := hhalts.map fun h => State.mk h (s.live.eraseP fun b => b.1 = after x.1 1)
    exact ⟨_,hstep,.inr ⟨B',blocks',.of_regions hreg hB',hrest⟩,hreg ▸ hbound⟩

theorem Owns.misses {b : ℕ × ℕ} {i : ℕ} (ho : Owns base s.heap B blocks)
    (hserves : List.Forall₂ Serves s.live blocks) (hb : b ∈ s.live) (hi : 8*i < b.2) :
    ∀ z ∈ B++blocks, z.1 ≠ after b.1 i := by
  obtain ⟨x,hx,hbx,hsize⟩ := serves_mem hserves hb
  obtain ⟨L,hperm⟩ : ∃ L, (B++blocks).Perm (x::L) :=
    ⟨_,perm_cons_erase (mem_append_right _ hx)⟩
  have ht := ho.tiles.perm hperm
  intro z hz
  rw [hbx]
  rcases mem_cons.mp (hperm.mem_iff.mp hz) with rfl | hzL
  · simp only [after]
    omega
  · have hap := (pairwise_cons.mp ht.apart).1 z hzL
    have hstart := z.start_le
    simp only [Apart,Block.stop,after] at hap hstart ⊢
    omega

theorem Inv.store (hs : Inv base s) {i ptr size : ℕ} (hok : Legal base s (.store ap i ptr size)) :
    ∃ s', Halts (fun fuel => step base fuel s (.store ap i ptr size)) s' ∧ Inv base s' := by
  obtain ⟨b,hb,rfl,hi⟩ := hok
  obtain ⟨⟨-,hl,-⟩ | ⟨B,blocks,ho,hserves⟩,hbound⟩ := hs
  · rw [hl] at hb
    cases hb
  · have hne := ho.misses hserves hb hi
    refine ⟨_,.const _,.inr ⟨B,blocks,⟨?_,ho.head,ho.freep,fun z hz => ?_,ho.gaps,ho.tiles⟩,hserves⟩,
      hbound⟩
    · refine ho.linked.congr fun w hw => ?_
      obtain ⟨z,hz,rfl⟩ := mem_map.mp hw
      exact update_of_ne (hne z (mem_append_left _ hz)) _ _
    · exact (update_of_ne (hne z hz) _ _).trans (ho.sizes z hz)

theorem Inv.step_halts (hs : Inv base s) (hb : 0 < base) {c : Call} (hok : Legal base s c) :
    ∃ s', Halts (fun fuel => step base fuel s c) s' ∧ Inv base s' := by
  cases c with
  | malloc nbytes =>
    obtain ⟨hn,hfresh⟩ := hok
    obtain ⟨h',p,hhalts,hs',-⟩ := hs.malloc hb (by omega) hfresh
    have hstep := hhalts.map fun (hp : Heap × ℕ) =>
      if hp.2 = 0 then {s with heap := hp.1} else State.mk hp.1 ((hp.2,nbytes)::s.live)
    exact ⟨_,hstep,hs'⟩
  | free => exact hs.free hok
  | store => exact hs.store hok

abbrev Reachable (base : ℕ) (s₀ s : State) : Prop :=
  Reach (fun s (a : ℕ × Call) => step base a.1 s a.2) (fun s a => Legal base s a.2) s₀ s

theorem Inv.of_reach {s₀ : State} (h : Reachable base s₀ s) (h0 : Inv base s₀) (hb : 0 < base) :
    Inv base s := by
  refine h.invariant h0 fun s a s' hs hok hstep => ?_
  obtain ⟨t,hhalts,ht⟩ := hs.step_halts hb hok
  obtain rfl := hhalts.eq hstep
  exact ht

def Heap.block (h : Heap) (p : ℕ) : Block := (p,h.size p)

/-- The heap of a process, with `free` for the addresses of the free blocks but `base`. -/
structure Integrity (base : ℕ) (s : State) (free : List ℕ) : Prop where
  /-- The list reached from the roving pointer is the circle through `base` and `free`. -/
  ring : ∃ l, Linked s.heap.ptr (s.heap.freep::l++[s.heap.freep]) ∧
    (s.heap.freep::l).IsRotated (base::free)
  /-- From `base` on the addresses ascend; the only descent leads back to `base`. -/
  ascending : (base::free).Pairwise (· < ·)
  coalesced : free.Pairwise fun p q => Gap (s.heap.block p) (s.heap.block q)
  freeLive : ∀ p ∈ free, ∀ b ∈ s.live, Apart (s.heap.block p) (s.heap.block (b.1-8))
  live : s.live.Pairwise fun b c => Apart (s.heap.block (b.1-8)) (s.heap.block (c.1-8))
  bytes : ∀ b ∈ s.live, 8 ≤ b.1 ∧ b.1+b.2 ≤ (s.heap.block (b.1-8)).stop
  total : (free.map s.heap.size).sum+(s.live.map fun b => s.heap.size (b.1-8)).sum =
    obtained s.heap.regions
  /-- Every block lies between `base` and the end of the memory obtained, so that no sum
  of an address and a size wraps around. -/
  within : ∀ p ∈ free++s.live.map fun b => b.1-8,
    after base 1 ≤ p ∧ 0 < s.heap.size p ∧ (s.heap.block p).stop ≤ top base s.heap.regions
  bounded : top base s.heap.regions < 2^32

theorem serves_blocks {h : Heap}
    (hs : List.Forall₂ Serves live blocks) (hsize : ∀ x ∈ blocks, h.size x.1 = x.2) :
    blocks = live.map fun b => h.block (b.1-8) := by
  induction hs with
  | nil => rfl
  | @cons b x live blocks hb hs ih =>
    rw [map_cons,← ih fun y hy => hsize y (mem_cons_of_mem _ hy)]
    have hx : b.1-8 = x.1 := by simp [hb.1,after]
    rw [hx,Heap.block,hsize x (by simp)]

theorem Owns.integrity (ho : Owns base s.heap B blocks)
    (hs : List.Forall₂ Serves s.live blocks) (hbound : top base s.heap.regions < 2^32) :
    ∃ free, Integrity base s free := by
  obtain ⟨B',rfl⟩ := head?_eq_some_iff.mp ho.head
  have hfree : B' = (B'.map Prod.fst).map s.heap.block := by
    rw [map_map]
    refine (map_id B').symm.trans (map_congr_left fun x hx => ?_)
    exact Prod.ext rfl (ho.sizes x (by simp [hx])).symm
  have hlive := serves_blocks hs fun x hx => ho.sizes x (mem_append_right _ hx)
  obtain ⟨hbg,hgaps⟩ := pairwise_cons.mp ho.gaps
  obtain ⟨-,hab,hcross⟩ := pairwise_append.mp ho.tiles.apart
  refine ⟨B'.map Prod.fst,Holds.ring ho,?_,?_,?_,?_,?_,?_,?_,hbound⟩
  · exact pairwise_map.mpr (ho.gaps.imp fun hxy => hxy.lt)
  · rw [hfree,pairwise_map] at hgaps
    exact hgaps
  · intro p hp b hb
    refine hcross _ (mem_cons_of_mem _ ?_) _ ?_
    · rw [hfree]
      exact mem_map_of_mem hp
    · rw [hlive]
      exact mem_map_of_mem hb
  · rw [hlive,pairwise_map] at hab
    exact hab
  · intro b hb
    obtain ⟨x,hx,hbx,hsize⟩ := serves_mem hs hb
    have hx1 : b.1-8 = x.1 := by simp [hbx,after]
    rw [hx1,Heap.block,ho.sizes x (mem_append_right _ hx)]
    simp only [Block.stop,after] at hbx ⊢
    omega
  · have ht := ho.tiles.total
    rw [hfree,hlive] at ht
    simpa [map_map,Function.comp_def,Heap.block] using ht
  · intro p hp
    have hx : s.heap.block p ∈ B'++blocks := by
      rcases List.mem_append.mp hp with hp | hp
      · rw [hfree]
        exact mem_append_left _ (mem_map_of_mem hp)
      · obtain ⟨b,hb,rfl⟩ := mem_map.mp hp
        rw [hlive]
        exact mem_append_right _ (mem_map_of_mem hb)
    have hne : s.heap.block p ≠ (base,0) := fun he => by
      rcases List.mem_append.mp hx with hx | hx
      · exact lt_irrefl _ (he ▸ hbg _ hx : Gap (base,0) (base,0)).lt
      · exact (hcross (base,0) (by simp) _ hx).2 (congrArg Prod.fst he).symm
    obtain ⟨hpos,hlow,hhigh⟩ := (ho.tiles.sound _ (mem_cons_of_mem _ hx)).resolve_left hne
    exact ⟨hlow,hpos,hhigh⟩

/-- From the first call on the heap of a process is intact in every state, and every call
returns: the loops of `malloc` and `free` end. -/
theorem heap_integrity {heap₀ : Heap} (hb : 0 < base) (hbase : after base 1 < 2^32)
    (h0 : heap₀.freep = 0) (hr : heap₀.regions = []) (h : Reachable base ⟨heap₀,[]⟩ s) :
    (s.heap.freep = 0 ∧ s.live = [] ∧ s.heap.regions = [] ∨ ∃ free, Integrity base s free) ∧
      ∀ c, Legal base s c → ∃ k s', ∀ fuel, k ≤ fuel → step base fuel s c = some s' := by
  have hinv : Inv base s := Inv.of_reach h ⟨.inl ⟨h0,rfl,hr⟩,by simpa [hr,top] using hbase⟩ hb
  refine ⟨?_,fun c hok => ?_⟩
  · obtain ⟨hstart | ⟨B,blocks,ho,hserves⟩,hbound⟩ := hinv
    · exact .inl hstart
    · exact .inr (ho.integrity hserves hbound)
  · obtain ⟨s',hhalts,-⟩ := hinv.step_halts hb hok
    obtain ⟨k,hk⟩ := hhalts.enough
    exact ⟨k,s',hk⟩

instance decidableLegal (base : ℕ) (s : State) : ∀ c, Decidable (Legal base s c)
  | .malloc nbytes sbrk =>
    inferInstanceAs (Decidable (nbytes < 2^30 ∧ ∀ p ∈ sbrk.headD none, _))
  | .free ap => inferInstanceAs (Decidable (∃ b ∈ s.live, b.1 = ap))
  | .store ap i _ _ => inferInstanceAs (Decidable (∃ b ∈ s.live, b.1 = ap ∧ 8*i < b.2))

def zeroHeap : Heap := ⟨fun _ => 0,fun _ => 0,0,[]⟩

def shortProgram : List (ℕ × Call) :=
  [(9,.malloc 10 [some 4096]),(9,.malloc 20 []),(9,.store 36816 2 5 7),
    (9,.malloc 40000 [some 65536]),(9,.free 36848)]

theorem shortProgram_integrity : ∃ s, Reachable 8 ⟨zeroHeap,[]⟩ s ∧
    s.live = [(65544,40000),(36816,20)] ∧ ∃ free, Integrity 8 s free := by
  have hrun : (run (guarded (fun s (a : ℕ × Call) => step 8 a.1 s a.2) fun s a => Legal 8 s a.2)
      ⟨zeroHeap,[]⟩ shortProgram).any
        (fun s => s.live = [(65544,40000),(36816,20)] ∧ s.heap.freep ≠ 0) = true := by
    decide +kernel
  obtain ⟨s,hs,hp⟩ := (Option.any_eq_true _ _).mp hrun
  obtain ⟨hlive,hfreep⟩ := of_decide_eq_true hp
  have hreach : Reachable 8 ⟨zeroHeap,[]⟩ s := Reach.refl.of_run hs
  refine ⟨s,hreach,hlive,?_⟩
  exact (heap_integrity (by decide) (by decide) rfl rfl hreach).1.resolve_left
    fun hstart => hfreep hstart.1

end

end Xv6.Umalloc
