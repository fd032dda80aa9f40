import Xv6.PageAlloc

/-!
# The kernel's part of a directory

`setupkvm` makes a directory with the mappings of the kernel and `freevm` takes a directory apart.
Between them a set of frames is either all free, which is a `Pool`, or it holds one tree and what is
free beside it, which is `Stands`: nothing is lost from one to the other.
-/
namespace Xv6.PageTable
open List
open Function (update update_self update_of_ne)

/-- The frames of `D` are free; the others are as in `out`. -/
structure Pool (kend : ℕ) (D : ℕ → Prop) (out : ℕ → ℕ → ℕ) (m : Mem) : Prop where
  kernel : 0 < kend
  free : ∀ f, f ∈ m.free ↔ D f
  nodup : m.free.Nodup
  range : ∀ f, D f → kend ≤ f ∧ f*PGSIZE < PHYSTOP
  out : ∀ f, ¬D f → m.cells f = out f

/-- The frames of `D` are those of a tree and the free ones. -/
def Stands (top kend : ℕ) (D : ℕ → Prop) (out : ℕ → ℕ → ℕ) (m : Mem) (d : ℕ) (E : ℕ → Option ℕ)
    (V : ℕ → Option (ℕ → ℕ)) : Prop :=
  ∃ W, (∀ f, W f ≠ some .hand) ∧ (∀ f, W f ≠ none ↔ D f) ∧ Tree top kend W out m d E V

section
variable {top kend data d : ℕ} {D : ℕ → Prop} {W W' : ℕ → Option Place} {out : ℕ → ℕ → ℕ}
  {m m' : Mem} {E E' : ℕ → Option ℕ} {V V' : ℕ → Option (ℕ → ℕ)} {T : ℕ → Prop}

/-! ## freevm -/

theorem Tree.pool (h : Tree top kend W out m d E V) : Pool kend (· ∈ m.free) m.cells m :=
  ⟨h.kernel,fun _ => Iff.rfl,h.nodup,fun f hf => h.range f (by rw [h.mem_free.mp hf]; nofun),
    fun _ _ => rfl⟩

/-- After the first `i` tables have been freed. -/
structure Freeing (W : ℕ → Option Place) (out : ℕ → ℕ → ℕ) (m : Mem) (d i : ℕ) (m' : Mem) : Prop where
  root : m'.cells d = m.cells d
  free : ∀ f, f ∈ m'.free ↔ f ∈ m.free ∨ ∃ j < i, W f = some (.table j)
  nodup : m'.free.Nodup
  out : ∀ f, W f = none → m'.cells f = out f

theorem Tree.freeLoop {n i : ℕ} (h : Tree 1024 kend W out m d E V) (hi : i+n = 1024)
    (hm : Freeing W out m d i m') :
    ∃ m'', freeLoop kend d n m' i = .ok m'' ∧ Freeing W out m d 1024 m'' := by
  induction n generalizing m' i with
  | zero =>
    obtain rfl : i = 1024 := by omega
    exact ⟨m',rfl,hm⟩
  | succ n ih =>
    unfold PageTable.freeLoop
    rw [hm.root]
    by_cases hp : present (m.cells d i) = true
    · have ht := h.table (by omega) hp
      have htd : d ≠ frameOf (m.cells d i) := ne_of_place h.root ht nofun
      have hnot : frameOf (m.cells d i) ∉ m'.free := by
        rw [hm.free,h.mem_free,ht]
        rintro (he | ⟨j,hj,he⟩)
        · cases he
        · cases he
          exact lt_irrefl _ hj
      rw [if_pos hp,h.kfree_eq (by rw [ht]; nofun) m']
      refine ih (by omega) ⟨?_,fun f => ?_,nodup_cons.mpr ⟨hnot,hm.nodup⟩,fun f hf => ?_⟩
      · exact (update_of_ne htd ..).trans hm.root
      · rw [mem_cons,hm.free]
        constructor
        · rintro (rfl | hf | ⟨j,hj,hf⟩)
          · exact .inr ⟨i,by omega,ht⟩
          · exact .inl hf
          · exact .inr ⟨j,by omega,hf⟩
        · rintro (hf | ⟨j,hj,hf⟩)
          · exact .inr (.inl hf)
          · by_cases hji : j = i
            · subst hji
              exact .inl ((h.has f (.table j) nofun).mpr hf).2.2.symm
            · exact .inr (.inr ⟨j,by omega,hf⟩)
      · exact (update_of_ne (fun he => by simp [he,ht] at hf) ..).trans (hm.out f hf)
    · rw [if_neg hp]
      refine ih (by omega) ⟨hm.root,fun f => ?_,hm.nodup,hm.out⟩
      rw [hm.free]
      refine or_congr_right ⟨fun ⟨j,hj,hf⟩ => ⟨j,by omega,hf⟩,fun ⟨j,hj,hf⟩ => ⟨j,?_,hf⟩⟩
      by_contra hge
      obtain rfl : j = i := by omega
      exact hp ((h.has f (.table j) nofun).mpr hf).2.1

theorem Stands.freevm (h : Stands 1024 kend D out m d E V) :
    ∃ m', freevm kend m d = .ok m' ∧ Pool kend D out m' := by
  obtain ⟨W,hno,hD,h⟩ := h
  have hd0 : d ≠ 0 := by
    have hrange := h.range d (by rw [h.root]; nofun)
    have hkernel := h.kernel
    omega
  obtain ⟨m₁,hm₁,h₁⟩ := h.deallocuvm le_rfl (by decide : 0 < KERNBASE)
  set W₁ := freed (fun b => pages 0 ≤ b ∧ 4096*b < KERNBASE) W with hW₁
  obtain ⟨m₂,hm₂,h₂⟩ := h₁.freeLoop (n := NPDENTRIES) (i := 0) rfl ⟨rfl,fun f => by simp,h₁.nodup,h₁.out⟩
  have hd₂ : d ∉ m₂.free := by
    rw [h₂.free,h₁.mem_free,h₁.root]
    rintro (he | ⟨j,-,he⟩) <;> cases he
  have hdom : ∀ f, W₁ f ≠ none ↔ D f := by
    intro f
    rw [← hD f,hW₁]
    unfold freed
    split
    · rename_i a hf
      split_ifs <;> simp [hf]
    · exact Iff.rfl
  -- no page is left
  have hpage : ∀ f a, W₁ f ≠ some (.page a) := by
    intro f a hf
    obtain ⟨ha,w,hw,-⟩ := h₁.of_page hf
    have hlt : 4096*a < KERNBASE := by
      have hbase : KERNBASE = 4096*userPages := rfl
      omega
    have hle : pages 0 ≤ a := Nat.zero_le a
    simp [hle,hlt] at hw
  have hhand : ∀ f, W₁ f ≠ some .hand := by
    intro f hf
    rw [hW₁] at hf
    unfold freed at hf
    split at hf
    · split_ifs at hf <;> cases hf
    · exact hno f hf
  refine ⟨⟨d::m₂.free,update m₂.cells d fun _ => 0x01010101⟩,?_,⟨h.kernel,fun f => ?_,
    nodup_cons.mpr ⟨hd₂,h₂.nodup⟩,fun f hf => h.range f ((hD f).mpr hf),fun f hf => ?_⟩⟩
  · unfold PageTable.freevm
    rw [if_neg hd0,hm₁]
    change (PageTable.freeLoop kend d NPDENTRIES m₁ 0 >>= fun m => kfree kend m d) = _
    rw [hm₂]
    exact h.kfree_eq (by rw [h.root]; nofun) m₂
  · rw [mem_cons,h₂.free,h₁.mem_free,← hdom]
    constructor
    · rintro (rfl | hf | ⟨j,-,hf⟩)
      · rw [h₁.root]
        nofun
      · rw [hf]
        nofun
      · rw [hf]
        nofun
    · intro hf
      obtain ⟨x,hx⟩ := Option.ne_none_iff_exists'.mp hf
      cases x with
      | root => exact .inl ((h₁.has f .root nofun).mpr hx)
      | table i => exact .inr (.inr ⟨i,((h₁.has f (.table i) nofun).mpr hx).1,hx⟩)
      | page a => exact absurd hx (hpage f a)
      | free => exact .inr (.inl hx)
      | hand => exact absurd hx (hhand f)
  · have hf : W₁ f = none := by
      by_contra hne
      exact hf ((hdom f).mp hne)
    exact (update_of_ne (fun he => by simp [he,h₁.root] at hf) ..).trans (h₂.out f hf)

/-! ## setupkvm -/

/-- The loop of `mappages` over `n+1` pages of the kernel. -/
theorem Tree.mapRange {n k p perm fuel : ℕ} (h : Tree top kend W out m d E V) (hk : userPages ≤ k)
    (hkn : k+n < 1024*top) (hp : p+n < 2^20) (hE : ∀ c, k ≤ c → c ≤ k+n → E c = none)
    (hT : ∀ c, k ≤ c → c ≤ k+n → T (c/1024)) (hperm : perm < 4096) (hfuel : n < fuel) :
    ∃ r m' W', mapLoop d perm (4096*(k+n)) fuel m (4096*k) (p*PGSIZE) = .ok (r,m') ∧
      Grown T (fun _ => False) W W' ∧
      if r then Tree top kend W' out m' d
        (fun c => if k ≤ c ∧ c ≤ k+n then some ((p+(c-k))*4096+(perm ||| 1)) else E c) V
      else ∃ E', (∀ a < userPages, E' a = E a) ∧ Tree top kend W' out m' d E' V ∧ m'.free = [] := by
  induction n generalizing m W E k p fuel with
  | zero =>
    obtain ⟨fuel,rfl⟩ : ∃ fuel', fuel = fuel'+1 := ⟨fuel-1,by omega⟩
    simp only [Nat.add_zero] at hkn hE hT ⊢
    unfold mapLoop
    cases hw : walkpgdir m d (4096*k) true with
    | mk r m₁ =>
    obtain ⟨W',hgrown,h₁,-,⟨rfl,hnil⟩ | ⟨rfl,hpde⟩⟩ := h.walkpgdir_alloc hkn (hT k le_rfl le_rfl) hw
    · exact ⟨false,m₁,W',rfl,hgrown,E,fun _ _ => rfl,h₁,hnil⟩
    · dsimp only
      rw [if_neg (h₁.not_present hkn hpde (hE k le_rfl le_rfl)),if_pos rfl,pageEntry_eq hperm]
      refine ⟨true,_,W',rfl,hgrown,?_⟩
      have h₂ := h₁.mapKernel hk hkn hpde (present_entry (lor_one_mod perm) : present (p*4096+(perm ||| 1)))
      refine h₂.congr (fun c _ => ?_) fun _ _ => rfl
      by_cases hck : c = k
      · subst hck
        rw [if_pos ⟨le_rfl,le_rfl⟩,update_self,Nat.sub_self,Nat.add_zero]
      · rw [update_of_ne hck,if_neg (by omega)]
  | succ n ih =>
    obtain ⟨fuel,rfl⟩ : ∃ fuel', fuel = fuel'+1 := ⟨fuel-1,by omega⟩
    have hk' : k < 1024*top := by omega
    unfold mapLoop
    cases hw : walkpgdir m d (4096*k) true with
    | mk r m₁ =>
    obtain ⟨W₁,hgrown,h₁,-,⟨rfl,hnil⟩ | ⟨rfl,hpde⟩⟩ := h.walkpgdir_alloc hk' (hT k le_rfl (by omega)) hw
    · exact ⟨false,m₁,W₁,rfl,hgrown,E,fun _ _ => rfl,h₁,hnil⟩
    · dsimp only
      rw [if_neg (h₁.not_present hk' hpde (hE k le_rfl (by omega))),if_neg (by omega),pageEntry_eq hperm]
      have h₂ := h₁.mapKernel hk hk' hpde (present_entry (lor_one_mod perm) : present (p*4096+(perm ||| 1)))
      have hlt := h.pages_lt hkn
      have hnext : (4096*k+PGSIZE)%2^32 = 4096*(k+1) := by
        rw [PGSIZE]
        omega
      have hnextp : (p*PGSIZE+PGSIZE)%2^32 = (p+1)*PGSIZE := by
        rw [PGSIZE]
        omega
      rw [hnext,hnextp,show k+(n+1) = k+1+n by omega]
      obtain ⟨r,m',W',hm',hgrown',h'⟩ := ih (k := k+1) (p := p+1) h₂ (by omega) (by omega)
        (by omega) (fun c hc hcn => by
          rw [update_of_ne (by omega)]
          exact hE c (by omega) (by omega)) (fun c hc hcn => hT c (by omega) (by omega)) (by omega : n < fuel)
      refine ⟨r,m',W',hm',hgrown.trans hgrown',?_⟩
      cases r with
      | true =>
        refine Tree.congr (if_pos rfl ▸ h') (fun c _ => ?_) fun _ _ => rfl
        by_cases hck : c = k
        · subst hck
          rw [if_pos ⟨le_rfl,by omega⟩,if_neg (by omega),update_self,Nat.sub_self,Nat.add_zero]
        · by_cases hin : k ≤ c ∧ c ≤ k+1+n
          · rw [if_pos hin,if_pos (by omega),show p+(c-k) = p+1+(c-(k+1)) by omega]
          · rw [if_neg hin,if_neg (by omega),update_of_ne hck]
      | false =>
        obtain ⟨E',hE',h'⟩ := (if_neg Bool.false_ne_true ▸ h')
        refine ⟨E',fun a ha => ?_,h'⟩
        rw [hE' a ha,update_of_ne (by omega)]

theorem Tree.mapKernelPages {n k p perm : ℕ} (h : Tree 1024 kend W out m d E V) (hk : userPages ≤ k)
    (hkn : k+n < 2^20) (hp : p+n < 2^20) (hE : ∀ c, k ≤ c → c ≤ k+n → E c = none)
    (hT : ∀ c, k ≤ c → c ≤ k+n → T (c/1024)) (hperm : perm < 4096) :
    ∃ r m' W', PageTable.mappages m d (4096*k) (4096*(n+1)) (p*PGSIZE) perm = .ok (r,m') ∧
      Grown T (fun _ => False) W W' ∧
      if r then Tree 1024 kend W' out m' d
        (fun c => if k ≤ c ∧ c ≤ k+n then some ((p+(c-k))*4096+(perm ||| 1)) else E c) V
      else ∃ E', (∀ a < userPages, E' a = E a) ∧ Tree 1024 kend W' out m' d E' V ∧ m'.free = [] := by
  have hdown : PGROUNDDOWN (4096*k) = 4096*k := by
    simp only [PGROUNDDOWN,PGSIZE]
    omega
  have hlast : PGROUNDDOWN ((4096*k+4096*(n+1)-1)%2^32) = 4096*(k+n) := by
    have hmod : (4096*k+4096*(n+1)-1)%2^32 = 4096*(k+n)+4095 := by omega
    rw [PGROUNDDOWN,PGSIZE,hmod]
    omega
  unfold PageTable.mappages
  rw [hdown,hlast]
  exact h.mapRange hk (by omega) hp hE hT hperm (by rw [userPages] at hk; omega)

def KernelData (data : ℕ) : Prop := data%4096 = 0 ∧ KERNLINK < data ∧ data < KERNBASE+PHYSTOP

def kernelEntry (data a : ℕ) : Option ℕ :=
  if a < userPages then none
  else if 4096*a < KERNLINK then some ((a-userPages)*4096+3)
  else if 4096*a < data then some ((a-userPages)*4096+1)
  else if 4096*a < KERNBASE+PHYSTOP then some ((a-userPages)*4096+3)
  else if 4096*a < DEVSPACE then none
  else some (a*4096+3)

def kernelTable (i : ℕ) : Prop := 512 ≤ i ∧ i < 568 ∨ 1016 ≤ i ∧ i < 1024

/-- A line of `kmap` for `n+1` pages that have no entries yet. -/
structure Line (E : ℕ → Option ℕ) (l : Kmap) (k n p : ℕ) : Prop where
  virt : l.virt = 4096*k
  size : (l.physEnd+2^32-l.physStart)%2^32 = 4096*(n+1)
  phys : l.physStart = p*PGSIZE
  perm : l.perm < 4096
  user : userPages ≤ k
  high : k+n < 2^20
  physHigh : p+n < 2^20
  empty : ∀ c, k ≤ c → c ≤ k+n → E c = none
  tables : ∀ c, k ≤ c → c ≤ k+n → kernelTable (c/1024)

def Kmap.add (l : Kmap) (k n p : ℕ) (E : ℕ → Option ℕ) (c : ℕ) : Option ℕ :=
  if k ≤ c ∧ c ≤ k+n then some ((p+(c-k))*4096+(l.perm ||| 1)) else E c

/-- What `kmapLoop` leaves: the entries of the kernel, or a tree without a page and no free frame. -/
def Mapped (kend : ℕ) (W : ℕ → Option Place) (out : ℕ → ℕ → ℕ) (d : ℕ) (E : ℕ → Option ℕ) (r : Bool)
    (m' : Mem) : Prop :=
  ∃ W', Grown kernelTable (fun _ => False) W W' ∧
    if r then Tree 1024 kend W' out m' d E fun _ => none
    else ∃ E', (∀ a < userPages, E' a = none) ∧ Tree 1024 kend W' out m' d E' (fun _ => none) ∧ m'.free = []

theorem Tree.kmapLine {l : Kmap} {ls : List Kmap} {k n p : ℕ} (h : Tree 1024 kend W out m d E fun _ => none)
    (hl : Line E l k n p) (hE : ∀ a < userPages, E a = none)
    (hrest : ∀ {W' m'}, Tree 1024 kend W' out m' d (l.add k n p E) (fun _ => none) →
      ∃ r m'', PageTable.kmapLoop d ls m' = .ok (r,m'') ∧ Mapped kend W' out d E' r m'') :
    ∃ r m', PageTable.kmapLoop d (l::ls) m = .ok (r,m') ∧ Mapped kend W out d E' r m' := by
  obtain ⟨r,m₁,W₁,hm₁,hgrown,h₁⟩ := h.mapKernelPages hl.user hl.high hl.physHigh hl.empty hl.tables
    hl.perm
  unfold PageTable.kmapLoop
  rw [hl.virt,hl.size,hl.phys,hm₁]
  cases r with
  | true =>
    obtain ⟨r,m₂,hm₂,W₂,hgrown₂,h₂⟩ := hrest (if_pos rfl ▸ h₁)
    exact ⟨r,m₂,hm₂,W₂,hgrown.trans hgrown₂,h₂⟩
  | false =>
    obtain ⟨E₁,hE₁,h₁⟩ := (if_neg Bool.false_ne_true ▸ h₁)
    exact ⟨false,m₁,rfl,W₁,hgrown,E₁,fun a ha => (hE₁ a ha).trans (hE a ha),h₁⟩

theorem Tree.kmapLoop (hdata : KernelData data) (h : Tree 1024 kend W out m d (fun _ => none) fun _ => none) :
    ∃ r m', PageTable.kmapLoop d (kmap data) m = .ok (r,m') ∧ Mapped kend W out d (kernelEntry data) r m' := by
  obtain ⟨hmod,hlow,hhigh⟩ := hdata
  obtain ⟨t,rfl⟩ : ∃ t, data = 4096*t := ⟨data/4096,by omega⟩
  simp only [KERNLINK,KERNBASE,EXTMEM,PHYSTOP] at hlow hhigh
  have hV2P : V2P (4096*t) = (t-2^19)*PGSIZE := by
    rw [V2P,KERNBASE,PGSIZE]
    omega
  have huser : userPages = 2^19 := rfl
  have htable : ∀ k n, 2^19 ≤ k ∧ k+n < 2^19+0xE000 ∨ 0xFE000 ≤ k ∧ k+n < 2^20 → ∀ c, k ≤ c → c ≤ k+n →
      kernelTable (c/1024) := by
    intro k n hkn c hc hcn
    unfold kernelTable
    omega
  have hzero : (0 : ℕ) < 4096 := by decide
  have hwrite : PTE_W < 4096 := by decide
  refine h.kmapLine (k := 2^19) (n := 255) (p := 0)
    ⟨rfl,rfl,rfl,hwrite,le_rfl,by decide,by decide,fun _ _ _ => rfl,htable _ _ (by omega)⟩
    (fun _ _ => rfl) fun h₁ => ?_
  refine h₁.kmapLine (k := 2^19+256) (n := t-2^19-257) (p := 256)
    ⟨rfl,?_,rfl,hzero,by decide,by omega,by omega,fun c hc hcn => ?_,htable _ _ (by omega)⟩
    (fun a ha => ?_) fun h₂ => ?_
  · simp only [V2P,KERNLINK,KERNBASE,EXTMEM]
    omega
  · simp only [Kmap.add]
    rw [if_neg (by omega)]
  · simp only [Kmap.add]
    rw [if_neg (by omega)]
  refine h₂.kmapLine (k := t) (n := 2^19+0xE000-1-t) (p := t-2^19)
    ⟨rfl,?_,hV2P,hwrite,by omega,by omega,by omega,fun c hc hcn => ?_,htable _ _ (by omega)⟩
    (fun a ha => ?_) fun h₃ => ?_
  · simp only [hV2P,PHYSTOP,PGSIZE]
    omega
  · simp only [Kmap.add]
    rw [if_neg (by omega),if_neg (by omega)]
  · simp only [Kmap.add]
    rw [if_neg (by omega),if_neg (by omega)]
  refine h₃.kmapLine (k := 0xFE000) (n := 0x1FFF) (p := 0xFE000)
    ⟨rfl,rfl,rfl,hwrite,by decide,by decide,by decide,fun c hc hcn => ?_,htable _ _ (by omega)⟩
    (fun a ha => ?_) fun h₄ => ?_
  · simp only [Kmap.add]
    rw [if_neg (by omega),if_neg (by omega),if_neg (by omega)]
  · simp only [Kmap.add]
    rw [if_neg (by omega),if_neg (by omega),if_neg (by omega)]
  refine ⟨true,_,rfl,_,.refl _ _ _,h₄.congr (fun c hc => ?_) fun _ _ => rfl⟩
  have hperm : PTE_W ||| 1 = 3 := rfl
  have hperm' : 0 ||| 1 = 1 := rfl
  have hdev : DEVSPACE = 0xFE000000 := rfl
  simp only [Kmap.add,kernelEntry,huser,KERNLINK,KERNBASE,EXTMEM,PHYSTOP,hperm,hperm']
  by_cases h0 : c < 2^19
  · rw [if_pos h0,if_neg (by omega),if_neg (by omega),if_neg (by omega),if_neg (by omega)]
  rw [if_neg h0]
  by_cases h1 : c < 2^19+256
  · rw [if_pos (by omega),if_neg (by omega),if_neg (by omega),if_neg (by omega),if_pos (by omega)]
    exact congrArg some (by omega)
  rw [if_neg (by omega)]
  by_cases h2 : c < t
  · rw [if_pos (by omega),if_neg (by omega),if_neg (by omega),if_pos (by omega)]
    exact congrArg some (by omega)
  rw [if_neg (by omega)]
  by_cases h3 : c < 2^19+0xE000
  · rw [if_pos (by omega),if_neg (by omega),if_pos (by omega)]
    exact congrArg some (by omega)
  rw [if_neg (by omega)]
  by_cases h4 : 4096*c < DEVSPACE
  · rw [if_pos h4,if_neg (by omega),if_neg (by omega),if_neg (by omega),if_neg (by omega)]
  · rw [if_neg h4,if_pos (by omega)]
    exact congrArg some (by omega)

theorem Pool.newRoot (h : Pool kend D out m) (hr : kalloc m = some (d,m')) :
    ∃ W, (∀ f, W f ≠ some .hand) ∧ (∀ f, W f ≠ none ↔ D f) ∧ D d ∧
      Tree 1024 kend W out (m'.fill d 0) d (fun _ => none) fun _ => none := by
  classical
  obtain ⟨hfree,hcells⟩ := kalloc_free hr
  have hd : D d := (h.free d).mp (by simp [hfree])
  have hnodup := h.nodup
  rw [hfree,nodup_cons] at hnodup
  have hzero : (m'.fill d 0).cells d = fun _ => 0 := update_self ..
  have hpte : ∀ a, pte (m'.fill d 0) d a = none := by
    intro a
    rw [pte,hzero]
    rfl
  let W : ℕ → Option Place := fun f => if f = d then some .root else if D f then some .free else none
  refine ⟨W,fun f => ?_,fun f => ?_,hd,h.kernel,by decide,fun f x hx => ?_,hnodup.2,fun f hf => ?_,
    fun f hf => ?_,fun a _ => ?_,fun a _ => ?_⟩
  · simp only [W]
    split_ifs <;> simp
  · by_cases hfd : f = d
    · simp [W,hfd,hd]
    · simp [W,hfd]
  · cases x with
    | root =>
      by_cases hfd : f = d
      · simp [W,Has,hfd]
      · by_cases hDf : D f
        · simp [W,Has,hfd,hDf]
        · simp [W,Has,hfd,hDf]
    | table =>
      refine iff_of_false (fun hi => ?_) fun hi => ?_
      · have hp := hi.2.1
        rw [hzero] at hp
        cases hp
      · simp only [W] at hi
        split_ifs at hi <;> cases hi
    | page =>
      refine iff_of_false (fun ha => ?_) fun ha => ?_
      · obtain ⟨-,w,hw,-⟩ := ha
        simp [entry,hpte] at hw
      · simp only [W] at ha
        split_ifs at ha <;> cases ha
    | free =>
      have hmem : f ∈ m.free ↔ f = d ∨ f ∈ m'.free := by rw [hfree,mem_cons]
      by_cases hfd : f = d
      · subst hfd
        exact iff_of_false hnodup.1 (by simp [W])
      · have hiff : f ∈ m'.free ↔ D f := by
          rw [← h.free f,hmem]
          exact ⟨.inr,fun hf => hf.resolve_left hfd⟩
        by_cases hDf : D f
        · exact iff_of_true (hiff.mpr hDf) (by simp [W,hfd,hDf])
        · exact iff_of_false (fun hf => hDf (hiff.mp hf)) (by simp [W,hfd,hDf])
    | hand => exact absurd rfl hx
  · refine h.range f ?_
    by_cases hfd : f = d
    · exact hfd ▸ hd
    · by_contra hDf
      simp [W,hfd,hDf] at hf
  · have hfd : f ≠ d := fun he => by simp [W,he] at hf
    have hDf : ¬D f := fun hDf => by simp [W,hfd,hDf] at hf
    exact (update_of_ne hfd ..).trans ((congrFun hcells f).trans (h.out f hDf))
  · simp [entry,hpte]
  · simp [view,hpte]

/-- A call of `kalloc` in `setupkvm` finds no frame. -/
def Starved (data : ℕ) (m : Mem) : Prop :=
  match kalloc m with
  | none => True
  | some (d,m) => ∃ m', kmapLoop d (kmap data) (m.fill d 0) = .ok (false,m') ∧ kalloc m' = none

/-- `setupkvm` makes a directory with the entries of the kernel, or gives back what it has taken. -/
theorem Pool.setupkvm (h : Pool kend D out m) (hdata : KernelData data) :
    ∃ r m', setupkvm kend data m = .ok (r,m') ∧
      match r with
      | none => (Pool kend D out m' ∧ Starved data m) ∧ ∀ S : Finset ℕ, (∀ f ∈ S, D f) → S.card ≤ 1026
      | some d => m.free.head? = some d ∧ D d ∧
          Stands 1024 kend D out m' d (kernelEntry data) (fun _ => none) ∧
          ∀ i < 1024, present (m'.cells d i) → kernelTable i := by
  unfold PageTable.setupkvm
  cases hk : kalloc m with
  | none =>
    have hnil := kalloc_none hk
    refine ⟨none,m,rfl,⟨h,by simp [Starved,hk]⟩,fun S hS => ?_⟩
    have hempty : S = ∅ := by
      refine Finset.eq_empty_of_forall_notMem fun f hf => ?_
      have := (h.free f).mpr (hS f hf)
      simp [hnil] at this
    simp [hempty]
  | some dm =>
    obtain ⟨d,m₁⟩ := dm
    obtain ⟨W,hno,hD,hd,h₁⟩ := h.newRoot hk
    obtain ⟨r,m₂,hm₂,W₂,hgrown,h₂⟩ := h₁.kmapLoop hdata
    have hno₂ : ∀ f, W₂ f ≠ some .hand := hgrown.no_hand hno
    have hD₂ : ∀ f, W₂ f ≠ none ↔ D f := fun f => by rw [ne_eq,hgrown.none_iff f,← hD f]
    dsimp only
    rw [if_neg (by decide),hm₂]
    cases r with
    | true =>
      refine ⟨some d,m₂,rfl,by simp [(kalloc_free hk).1],hd,⟨W₂,hno₂,hD₂,h₂⟩,fun i hi hp => ?_⟩
      refine (h₁.table_grown h₂ hgrown hi hp).resolve_left fun hp₁ => ?_
      have hzero : (m₁.fill d 0).cells d = fun _ => 0 := update_self ..
      rw [hzero] at hp₁
      cases hp₁
    | false =>
      obtain ⟨E',hE',h₂,hnil⟩ := (if_neg Bool.false_ne_true ▸ h₂)
      obtain ⟨m₃,hm₃,h₃⟩ := Stands.freevm ⟨W₂,hno₂,hD₂,h₂⟩
      refine ⟨none,m₃,?_,⟨h₃,?_⟩,fun S hS => ?_⟩
      · change (freevm kend m₂ d >>= fun m => .ok (none,m)) = _
        rw [hm₃]
        rfl
      · rw [Starved,hk]
        exact ⟨m₂,hm₂,by rw [kalloc,hnil]⟩
      · exact h₂.exhausted (n := 0) hnil ⟨0,fun f hf => absurd hf (hno₂ f)⟩
          (fun a _ ha => hE' a ha) S fun f hf => (hD₂ f).mpr (hS f hf)

/-- The bytes of a line, as `setupkvm` computes them. -/
def Kmap.size (l : Kmap) : ℕ := (l.physEnd+2^32-l.physStart)%2^32

/-- Directory `d` maps the pages of `kmap` and no other. -/
structure KernelOnly (data : ℕ) (m : Mem) (d : ℕ) : Prop where
  maps : ∀ l ∈ kmap data, ∀ j, 4096*j < l.size → ∃ w, entry m d (l.virt/4096+j) = some w ∧
    frameOf w = l.physStart/4096+j ∧ PTE_FLAGS w = l.perm ||| PTE_P
  only : ∀ a < 2^20, ∀ w, entry m d a = some w → w &&& PTE_U = 0 ∧
    ∃ l ∈ kmap data, l.virt ≤ 4096*a ∧ 4096*a < l.virt+l.size

theorem kernelEntry_mem (hdata : KernelData data) {l : Kmap} (hl : l ∈ kmap data) {j : ℕ}
    (hj : 4096*j < l.size) : l.virt/4096+j < 2^20 ∧
    kernelEntry data (l.virt/4096+j) = some ((l.physStart/4096+j)*4096+(l.perm ||| PTE_P)) := by
  obtain ⟨hmod,hlow,hhigh⟩ := hdata
  obtain ⟨t,rfl⟩ : ∃ t, data = 4096*t := ⟨data/4096,by omega⟩
  have huser : userPages = 2^19 := rfl
  have hdev : DEVSPACE = 0xFE000000 := rfl
  simp only [KERNLINK,KERNBASE,EXTMEM,PHYSTOP] at hlow hhigh
  simp only [kmap,mem_cons,not_mem_nil,or_false] at hl
  obtain ⟨a,ha⟩ : ∃ a, l.virt/4096+j = a := ⟨_,rfl⟩
  rw [ha]
  simp only [kernelEntry,huser,KERNLINK,KERNBASE,EXTMEM,PHYSTOP]
  have hone : 0 ||| PTE_P = 1 := rfl
  have hthree : PTE_W ||| PTE_P = 3 := rfl
  rcases hl with rfl | rfl | rfl | rfl <;>
    simp only [Kmap.size,V2P,KERNLINK,KERNBASE,EXTMEM,PHYSTOP,hone,hthree] at hj ha ⊢ <;>
    refine ⟨by omega,?_⟩
  · rw [if_neg (by omega),if_pos (by omega)]
    exact congrArg some (by omega)
  · rw [if_neg (by omega),if_neg (by omega),if_pos (by omega)]
    exact congrArg some (by omega)
  · rw [if_neg (by omega),if_neg (by omega),if_neg (by omega),if_pos (by omega)]
    exact congrArg some (by omega)
  · rw [if_neg (by omega),if_neg (by omega),if_neg (by omega),if_neg (by omega),if_neg (by omega)]
    exact congrArg some (by omega)

theorem mem_of_kernelEntry (hdata : KernelData data) {a w : ℕ} (ha : a < 2^20)
    (hw : kernelEntry data a = some w) : ∃ l ∈ kmap data, l.virt ≤ 4096*a ∧ 4096*a < l.virt+l.size := by
  obtain ⟨hmod,hlow,hhigh⟩ := hdata
  have huser : userPages = 2^19 := rfl
  have hdev : DEVSPACE = 0xFE000000 := rfl
  simp only [KERNLINK,KERNBASE,EXTMEM,PHYSTOP] at hlow hhigh
  simp only [kernelEntry,huser,KERNLINK,KERNBASE,EXTMEM,PHYSTOP] at hw
  simp only [kmap,mem_cons,not_mem_nil,or_false,exists_eq_or_imp,exists_eq_left,Kmap.size,V2P,
    KERNLINK,KERNBASE,EXTMEM,PHYSTOP]
  split_ifs at hw <;> omega

theorem kernelOnly_of_entry (hdata : KernelData data) (h : ∀ a < 2^20, entry m d a = kernelEntry data a) :
    KernelOnly data m d := by
  have hperm : ∀ l ∈ kmap data, (l.perm ||| PTE_P) = 1 ∨ (l.perm ||| PTE_P) = 3 := by
    simp [kmap,PTE_P,PTE_W]
  refine ⟨fun l hl j hj => ?_,fun a ha w hw => ?_⟩
  · obtain ⟨hlt,he⟩ := kernelEntry_mem hdata hl hj
    have hp := hperm l hl
    refine ⟨_,(h _ hlt).trans he,?_,?_⟩
    · rw [frameOf,PGSIZE]
      omega
    · rw [PTE_FLAGS]
      omega
  · rw [h a ha] at hw
    obtain ⟨l,hl,hlow,hhigh⟩ := mem_of_kernelEntry hdata ha hw
    obtain ⟨j,rfl⟩ : ∃ j, a = l.virt/4096+j := ⟨a-l.virt/4096,by omega⟩
    have hvirt : l.virt%4096 = 0 := by
      have hmod := hdata.1
      simp only [kmap,mem_cons,not_mem_nil,or_false] at hl
      rcases hl with rfl | rfl | rfl | rfl <;> simp only [KERNLINK,KERNBASE,EXTMEM,DEVSPACE] <;> omega
    obtain ⟨-,he⟩ := kernelEntry_mem hdata hl (j := j) (by omega)
    rw [hw] at he
    refine ⟨?_,l,hl,hlow,hhigh⟩
    have hbit : w/4%2 = 0 := by
      have hp := hperm l hl
      have := Option.some_injective _ he
      omega
    rw [PTE_U,show 4 = 2^2 from rfl,Nat.and_two_pow,Nat.testBit_eq_decide_div_mod_eq]
    simp [hbit]

/-- Unless `kalloc` fails, `setupkvm` returns a directory that maps what `kmap` says; if it fails, every
frame is free again. -/
theorem setupkvm_maps (hkend : 0 < kend) (hnodup : m.free.Nodup)
    (hrange : ∀ f ∈ m.free, kend ≤ f ∧ f*PGSIZE < PHYSTOP) (hdata : KernelData data) :
    ∃ r m', setupkvm kend data m = .ok (r,m') ∧ (∀ f ∉ m.free, m'.cells f = m.cells f) ∧
      match r with
      | some d => d ∈ m.free ∧ KernelOnly data m' d
      | none => Starved data m ∧ m'.free.Nodup ∧ ∀ f, f ∈ m'.free ↔ f ∈ m.free := by
  have hpool : Pool kend (· ∈ m.free) m.cells m := ⟨hkend,fun _ => .rfl,hnodup,hrange,fun _ _ => rfl⟩
  obtain ⟨r,m',hm',hr⟩ := hpool.setupkvm hdata
  refine ⟨r,m',hm',?_⟩
  cases r with
  | none =>
    obtain ⟨⟨hfree,hstarved⟩,-⟩ := hr
    exact ⟨hfree.out,hstarved,hfree.nodup,hfree.free⟩
  | some d =>
    obtain ⟨-,hd,⟨W,-,hD,htree⟩,-⟩ := hr
    refine ⟨fun f hf => htree.out f (of_not_not fun hW => hf ((hD f).mp hW)),hd,?_⟩
    exact kernelOnly_of_entry hdata htree.entry

theorem setupkvm_maps_70 : ∃ r m', setupkvm 300 (KERNLINK+4096) ⟨range' 300 70,fun _ _ => 0⟩ = .ok (r,m') ∧
    (∀ f ∉ range' 300 70, m'.cells f = fun _ => 0) ∧
    match r with
    | some d => d ∈ range' 300 70 ∧ KernelOnly (KERNLINK+4096) m' d
    | none => Starved (KERNLINK+4096) ⟨range' 300 70,fun _ _ => 0⟩ ∧ m'.free.Nodup ∧
        ∀ f, f ∈ m'.free ↔ f ∈ range' 300 70 := by
  refine setupkvm_maps (by decide) nodup_range' (fun f hf => ?_) ⟨by decide,by decide,by decide⟩
  simp only [mem_range'_1,PGSIZE,PHYSTOP] at hf ⊢
  omega

end
end Xv6.PageTable
