import Xv6.PageTree

/-!
# The functions on trees

What `walkpgdir`, `mappages`, `deallocuvm` and `allocuvm` make of a tree. A call that takes frames
can run out of them at every point. `Grown` says where the frames have gone, and `Exhausted` that
there were not enough.
-/
namespace Xv6.PageTable
open Function (update update_self update_of_ne)

section
variable {top kend d f k a lo hi sz oldsz newsz n : ℕ} {W W' : ℕ → Option Place}
  {out out' : ℕ → ℕ → ℕ} {m m' : Mem} {E E' : ℕ → Option ℕ} {V V' : ℕ → Option (ℕ → ℕ)}
  {T P : ℕ → Prop} {W₀ : ℕ → Option Place} {E₀ : ℕ → Option ℕ} {V₀ : ℕ → Option (ℕ → ℕ)}

/-! ## walkpgdir and mappages -/

/-- Free frames have become tables of `T` and pages of `P`. -/
def Grown (T P : ℕ → Prop) (W W' : ℕ → Option Place) : Prop :=
  ∀ f, W' f = W f ∨
    W f = some .free ∧ ((∃ i, T i ∧ W' f = some (.table i)) ∨ ∃ a, P a ∧ W' f = some (.page a))

theorem Grown.refl (T P : ℕ → Prop) (W : ℕ → Option Place) : Grown T P W W := fun _ => .inl rfl

theorem Grown.keep (h : Grown T P W W') (hf : W f ≠ some .free) : W' f = W f :=
  (h f).resolve_right fun hg => hf hg.1

theorem Grown.trans {W'' : ℕ → Option Place} (h : Grown T P W W') (h' : Grown T P W' W'') :
    Grown T P W W'' := by
  intro f
  rcases h f with hf | ⟨hf,hplace⟩
  · rw [← hf]
    exact h' f
  · have hkeep : W'' f = W' f := h'.keep (by rcases hplace with ⟨i,-,hi⟩ | ⟨a,-,ha⟩ <;> simp [*])
    rw [hkeep]
    exact .inr ⟨hf,hplace⟩

theorem Grown.no_hand (h : Grown T P W W') (hno : ∀ f, W f ≠ some .hand) (f : ℕ) :
    W' f ≠ some .hand := by
  rcases h f with hf | ⟨-,⟨i,-,hi⟩ | ⟨a,-,ha⟩⟩
  · rw [hf]
    exact hno f
  · simp [hi]
  · simp [ha]

theorem pdx_page (hk : k < 2^20) : PDX (4096*k) = k/1024 := by
  simp only [PDX]
  omega

theorem ptx_page (k : ℕ) : PTX (4096*k) = k%1024 := by
  simp only [PTX]
  omega

theorem Tree.pages_lt (h : Tree top kend W out m d E V) (hk : k < 1024*top) : k < 2^20 := by
  have ht := h.tables.2
  omega

/-- `walkpgdir` finds the entry, or there is no table for it. -/
theorem walkpgdir_find (hk : k < 2^20) : (walkpgdir m d (4096*k) false).1 =
      if present (m.cells d (k/1024)) then some (tableOf m d k,k%1024) else none := by
  unfold walkpgdir
  rw [pdx_page hk,ptx_page]
  dsimp only
  by_cases hp : present (m.cells d (k/1024)) = true
  · rw [if_pos hp,if_pos hp]
    rfl
  · rw [if_neg hp,if_neg hp,if_pos rfl]

theorem walkpgdir_entry {w : ℕ} (hk : k < 2^20) (hw : entry m d k = some w) :
    (walkpgdir m d (4096*k) false).1 = some (tableOf m d k,k%1024) ∧
      m.cells (tableOf m d k) (k%1024) = w ∧ present w ∧ present (m.cells d (k/1024)) := by
  rw [entry,Option.filter_eq_some_iff] at hw
  obtain ⟨hpte,hp⟩ := hw
  unfold pte at hpte
  split_ifs at hpte with hpde
  exact ⟨by rw [walkpgdir_find hk,if_pos hpde],Option.some_injective _ hpte,hp,hpde⟩

/-- `walkpgdir` finds the entry, makes a table for it, or runs out of memory. -/
theorem Tree.walkpgdir_alloc (h : Tree top kend W out m d E V) (hk : k < 1024*top) (hT : T (k/1024))
    {r : Option (ℕ×ℕ)} (hr : walkpgdir m d (4096*k) true = (r,m')) :
    ∃ W', Grown T (fun _ => False) W W' ∧ Tree top kend W' out m' d E V ∧
      (∀ f, W f = some .hand → m'.cells f = m.cells f) ∧
      (r = none ∧ m'.free = [] ∨ r = some (tableOf m' d k,k%1024) ∧ present (m'.cells d (k/1024))) := by
  unfold walkpgdir at hr
  rw [pdx_page (h.pages_lt hk),ptx_page] at hr
  dsimp only at hr
  split_ifs at hr with hp hfalse
  · cases hr
    exact ⟨W,.refl _ _ _,h,fun _ _ => rfl,.inr ⟨rfl,hp⟩⟩
  · cases hfalse
  · split at hr
    · rename_i hkalloc
      cases hr
      refine ⟨W,.refl _ _ _,h,fun _ _ => rfl,.inl ⟨rfl,?_⟩⟩
      unfold PageTable.kalloc at hkalloc
      split at hkalloc
      · assumption
      · cases hkalloc
    · rename_i t m₁ hkalloc
      cases hr
      rw [tableEntry_eq]
      have hcells := (kalloc_free hkalloc).2
      obtain ⟨ht,h₁⟩ := h.kalloc hkalloc
      have h₂ := h₁.write (update_self ..) fun _ => 0
      have htd : d ≠ t := ne_of_place h.root ht (by simp)
      have hpde : present ((m₁.fill t 0).cells d (k/1024)) = false := by
        simp only [Mem.fill,update_of_ne htd,hcells]
        exact Bool.not_eq_true _ ▸ hp
      have hzero : (m₁.fill t 0).cells t = fun _ => 0 := update_self ..
      have h₃ := h₂.linkTable (by omega : k/1024 < top) hpde (update_self ..) hzero
      rw [Function.update_idem] at h₃
      have hentry : ((m₁.fill t 0).set d (k/1024) (t*4096+7)).cells d (k/1024) = t*4096+7 := by
        simp only [Mem.set,update_self]
      refine ⟨_,fun f => ?_,h₃,fun f hf => ?_,.inr ⟨?_,?_⟩⟩
      · by_cases hft : f = t
        · subst hft
          exact .inr ⟨ht,.inl ⟨_,hT,update_self ..⟩⟩
        · exact .inl (update_of_ne hft ..)
      · simp only [Mem.set,Mem.fill,update_of_ne (ne_of_place hf h.root (by simp)),
          update_of_ne (ne_of_place hf ht (by simp)),hcells]
      · rw [tableOf,hentry,frameOf_entry (by decide)]
      · rw [hentry]
        exact present_entry rfl

theorem Tree.not_present (h : Tree top kend W out m d E V) (hk : k < 1024*top)
    (hpde : present (m.cells d (k/1024))) (hE : E k = none) :
    ¬present (m.cells (tableOf m d k) (k%1024)) = true := by
  intro hp
  have hentry := h.entry k hk
  rw [hE,PageTable.entry,pte,if_pos hpde,← tableOf] at hentry
  simp [Option.filter,hp] at hentry

theorem Tree.mappages {perm : ℕ} (h : Tree top kend W out m d E V) (hf : W f = some .hand)
    (hk : k < userPages) (hT : T (k/1024)) (hE : E k = none) (hperm : perm < 4096) :
    ∃ r m' W', PageTable.mappages m d (4096*k) PGSIZE (f*PGSIZE) perm = .ok (r,m') ∧
      Grown T (fun _ => False) W W' ∧
      if r then Tree top kend (update W' f (some (.page k))) out m' d
        (update E k (some (f*4096+(perm ||| 1)))) (update V k (some (m.cells f)))
      else Tree top kend W' out m' d E V ∧ m'.free = [] := by
  have hdown : PGROUNDDOWN (4096*k) = 4096*k := by
    simp only [PGROUNDDOWN,PGSIZE]
    omega
  have hlast : PGROUNDDOWN ((4096*k+PGSIZE-1)%2^32) = 4096*k := by
    have hlt : k < 2^19 := hk
    have hmod : (4096*k+4096-1)%2^32 = 4096*k+4095 := by omega
    rw [PGROUNDDOWN,PGSIZE,hmod]
    omega
  obtain ⟨fuel,hfuel⟩ : ∃ fuel, 2^20 = fuel+1 := ⟨2^20-1,by norm_num⟩
  unfold PageTable.mappages
  rw [hdown,hlast,hfuel]
  unfold mapLoop
  cases hw : walkpgdir m d (4096*k) true with
  | mk r m₁ =>
  obtain ⟨W',hgrown,h₁,hcells,hres⟩ := h.walkpgdir_alloc (h.user hk) hT hw
  have hf₁ : W' f = some .hand := (hgrown.keep (by simp [hf])).trans hf
  rcases hres with ⟨rfl,hnil⟩ | ⟨rfl,hpde⟩
  · exact ⟨false,m₁,W',rfl,hgrown,h₁,hnil⟩
  · dsimp only
    rw [if_neg (h₁.not_present (h₁.user hk) hpde hE),if_pos rfl,pageEntry_eq hperm]
    refine ⟨true,_,W',rfl,hgrown,?_⟩
    rw [if_pos rfl,← hcells f hf]
    exact h₁.mapPage hf₁ hk hpde hE (Nat.or_lt_two_pow (n := 12) hperm (by decide)) (lor_one_mod perm)

theorem Tree.congr (h : Tree top kend W out m d E V) (hE : ∀ a < 1024*top, E' a = E a)
    (hV : ∀ a < userPages, V' a = V a) : Tree top kend W out m d E' V' :=
  ⟨h.kernel,h.tables,h.has,h.nodup,h.range,h.out,fun a ha => (h.entry a ha).trans (hE a ha).symm,
    fun a ha => (h.view a ha).trans (hV a ha).symm⟩

theorem Tree.table_grown {i : ℕ} (h : Tree top kend W out m d E V) (h' : Tree top kend W' out' m' d E' V')
    (hgrown : Grown T P W W') (hi : i < top) (hp : present (m'.cells d i)) :
    present (m.cells d i) = true ∨ T i := by
  have htable := h'.table hi hp
  rcases hgrown (frameOf (m'.cells d i)) with hsame | ⟨-,⟨j,hj,hf⟩ | ⟨a,-,hf⟩⟩
  · exact .inl ((h.has _ (.table i) nofun).mpr (hsame.symm.trans htable)).2.1
  · obtain rfl : i = j := Place.table.inj (Option.some_injective _ (htable.symm.trans hf))
    exact .inr hj
  · rw [htable] at hf
    cases hf

/-! ## deallocuvm -/

theorem next_page (hk : k < userPages) : (4096*k+PGSIZE)%2^32 = 4096*(k+1) := by
  have hlt : k < 2^19 := hk
  rw [PGSIZE]
  omega

theorem div_lt_of_user (ha : a < userPages) : a/1024 < 512 := by
  simp only [userPages] at ha
  omega

theorem user_lt (ha : a < userPages) : a < 2^20 := by
  simp only [userPages] at ha
  omega

theorem next_table (hk : k < userPages) :
    ((PGADDR (PDX (4096*k)+1)+2^32-PGSIZE)%2^32+PGSIZE)%2^32 = 4096*(1024*(k/1024+1)) := by
  have hlt := div_lt_of_user hk
  rw [pdx_page (user_lt hk),PGADDR,PGSIZE]
  omega

def freed (P : ℕ → Prop) [DecidablePred P] (W : ℕ → Option Place) (f : ℕ) : Option Place :=
  match W f with
  | some (.page a) => if P a then some .free else some (.page a)
  | x => x

theorem freed_of_not [DecidablePred P] (h : ∀ f a, W f = some (.page a) → ¬P a) : freed P W = W := by
  funext f
  unfold freed
  split
  · rename_i a hf
    rw [if_neg (h f a hf),hf]
  · rfl

theorem freed_freed {Q R : ℕ → Prop} [DecidablePred P] [DecidablePred Q] [DecidablePred R]
    (h : ∀ b, R b ↔ P b ∨ Q b) : freed Q (freed P W) = freed R W := by
  funext f
  unfold freed
  cases W f with
  | none => rfl
  | some x =>
    cases x with
    | page a => by_cases hp : P a <;> simp [h,hp]
    | root | table | free | hand => rfl

/-- One round of the loop of `deallocuvm`, without the jump. -/
def visit (kend d : ℕ) (m : Mem) (k : ℕ) : Except String Mem :=
  match (walkpgdir m d (4096*k) false).1 with
  | none => .ok m
  | some (t,i) =>
    if present (m.cells t i) then
      if frameOf (m.cells t i) = 0 then .error "kfree"
      else do
        let m ← kfree kend m (frameOf (m.cells t i))
        .ok (m.set t i 0)
    else .ok m

/-- Visits the pages from `lo` up to `hi`, one by one. -/
def visitAll (kend d lo hi : ℕ) (m : Mem) : Except String Mem :=
  (List.range' lo (hi-lo)).foldlM (visit kend d) m

theorem visitAll_of_le (h : hi ≤ lo) : visitAll kend d lo hi m = .ok m := by
  rw [visitAll,Nat.sub_eq_zero_of_le h]
  rfl

theorem visitAll_next (h : lo < hi) :
    visitAll kend d lo hi m = (visit kend d m lo).bind (visitAll kend d (lo+1) hi) := by
  rw [visitAll,show hi-lo = hi-(lo+1)+1 by omega,List.range'_succ,List.foldlM_cons]
  rfl

theorem visitAll_concat (h : lo ≤ hi) :
    visitAll kend d lo (hi+1) m = (visitAll kend d lo hi m).bind fun m => visit kend d m hi := by
  rw [visitAll,show hi+1-lo = hi-lo+1 by omega,List.range'_1_concat,List.foldlM_append,
    show lo+(hi-lo) = hi by omega]
  simp [visitAll]
  rfl

theorem visitAll_missing {j : ℕ} (hk : k ≤ j) (hj : j ≤ hi) (hhi : hi ≤ userPages)
    (h : ∀ b, k ≤ b → b < j → ¬ present (m.cells d (b/1024))) :
    visitAll kend d k hi m = visitAll kend d j hi m := by
  induction j, hk using Nat.le_induction with
  | base => rfl
  | succ j hk ih =>
    have hvisit : visit kend d m j = .ok m := by
      rw [visit,walkpgdir_find (user_lt (by omega)),if_neg (h j hk (by omega))]
    rw [ih (by omega) fun b hb hbk => h b hb (by omega),visitAll_next (by omega),hvisit]
    rfl

def pages (sz : ℕ) : ℕ := (sz+4095)/4096

theorem pgroundup_eq (h : sz < KERNBASE) : PGROUNDUP sz = 4096*pages sz := by
  simp only [KERNBASE] at h
  rw [PGROUNDUP,PGSIZE,pages]
  omega

theorem pages_le (h : sz < KERNBASE) : pages sz ≤ userPages := by
  simp only [KERNBASE] at h
  rw [pages,userPages]
  omega

theorem pages_le_iff : pages sz ≤ a ↔ sz ≤ 4096*a := by
  rw [pages]
  omega

theorem pages_le_user (h : sz ≤ KERNBASE) : pages sz ≤ userPages := by
  simp only [KERNBASE] at h
  rw [pages,userPages]
  omega

theorem pages_mono {sz' : ℕ} (h : sz ≤ sz') : pages sz ≤ pages sz' :=
  Nat.div_le_div_right (by omega)

theorem lt_pages_iff : a < pages sz ↔ 4096*a < sz := by
  rw [pages]
  omega

theorem deallocLoop_eq {fuel : ℕ} (hold : oldsz ≤ KERNBASE) (hk : k ≤ userPages)
    (hfuel : userPages ≤ k+fuel) :
    deallocLoop kend d oldsz fuel m (4096*k) = visitAll kend d k (pages oldsz) m := by
  have hhi := pages_le_user hold
  induction fuel generalizing m k with
  | zero => rw [visitAll_of_le (by omega),deallocLoop]
  | succ fuel ih =>
    unfold deallocLoop
    by_cases hlt : 4096*k < oldsz
    · have hkp := lt_pages_iff.mpr hlt
      have hku : k < userPages := by omega
      rw [if_pos hlt,walkpgdir_find (user_lt hku)]
      by_cases hp : present (m.cells d (k/1024)) = true
      · rw [if_pos hp,visitAll_next hkp,visit,walkpgdir_find (user_lt hku),if_pos hp]
        simp only [next_page hku,fun m => ih (m := m) (k := k+1) (by omega) (by omega)]
        split_ifs
        · rfl
        · cases kfree kend m (frameOf (m.cells (tableOf m d k) (k%1024))) <;> rfl
        · rfl
      · -- the jump goes to the first page of the next table, or beyond the last page
        have hdiv := div_lt_of_user hku
        have huser : userPages = 2^19 := rfl
        rw [if_neg hp]
        dsimp only
        rw [next_table hku,ih (by omega) (by omega)]
        have hmissing : ∀ b, k ≤ b → b < 1024*(k/1024+1) → ¬ present (m.cells d (b/1024)) := by
          intro b hkb hbk
          rwa [show b/1024 = k/1024 by omega]
        rcases Nat.le_total (1024*(k/1024+1)) (pages oldsz) with hle | hle
        · exact (visitAll_missing (by omega) hle hhi hmissing).symm
        · rw [visitAll_of_le hle,visitAll_missing (j := pages oldsz) (by omega) le_rfl hhi
            fun b hkb hbp => hmissing b hkb (by omega),visitAll_of_le le_rfl]
    · rw [if_neg hlt,visitAll_of_le (by have := pages_le_iff.mpr (not_lt.mp hlt); omega)]

theorem deallocuvm_eq (hold : oldsz ≤ KERNBASE) (hlt : newsz < oldsz) : deallocuvm kend m d oldsz newsz =
      (visitAll kend d (pages newsz) (pages oldsz) m).map fun m => (newsz,m) := by
  obtain ⟨fuel,hfuel⟩ : ∃ fuel, 2^20 = fuel := ⟨_,rfl⟩
  have huser : userPages ≤ fuel := by
    rw [← hfuel]
    decide
  rw [deallocuvm,if_neg (by omega),hfuel,pgroundup_eq (by omega),
    deallocLoop_eq hold (pages_le (by omega)) (huser.trans (Nat.le_add_left fuel _))]
  cases visitAll kend d (pages newsz) (pages oldsz) m <;> rfl

theorem Tree.visit (h : Tree top kend W out m d E V) (hk : k < userPages) :
    ∃ m', PageTable.visit kend d m k = .ok m' ∧ m'.free = ((E k).map frameOf).toList++m.free ∧
      (∀ b < 1024*top, pte m' d b = if b = k ∧ (E k).isSome then some 0 else pte m d b) ∧
      Tree top kend (freed (· = k) W) out m' d (fun b => if b = k then none else E b)
        (fun b => if b = k then none else V b) := by
  rw [PageTable.visit,walkpgdir_find (user_lt hk)]
  have hentry := h.entry k (h.user hk)
  rw [PageTable.entry,pte] at hentry
  -- without a page there is nothing to do
  have hskip : E k = none → Tree top kend (freed (· = k) W) out m d
      (fun b => if b = k then none else E b) fun b => if b = k then none else V b := by
    intro hE
    rw [freed_of_not fun f b hf hb => by
      obtain ⟨-,w,hw,-⟩ := h.of_page hf
      rw [hb,hE] at hw
      cases hw]
    refine h.congr (fun b _ => ?_) fun b hb => ?_
    · split_ifs with hbk
      · rw [hbk,hE]
      · rfl
    · split_ifs with hbk
      · rw [h.contents hb,hbk,hE]
        rfl
      · rfl
  by_cases hp : present (m.cells d (k/1024)) = true
  · rw [if_pos hp,← tableOf] at hentry
    rw [if_pos hp]
    dsimp only
    by_cases hw : present (m.cells (tableOf m d k) (k%1024)) = true
    · have hE : E k = some (m.cells (tableOf m d k) (k%1024)) := by
        rw [← hentry]
        simp [Option.filter,hw]
      have hne : ¬frameOf (m.cells (tableOf m d k) (k%1024)) = 0 := by
        have hrange := h.range _ (by rw [h.page hk hE]; simp)
        have hkernel := h.kernel
        omega
      obtain ⟨m₁,hm₁,hfree,hpte,h₁⟩ := h.unmapPage hk hp hE
      have hW : freed (· = k) W = update W (frameOf (m.cells (tableOf m d k) (k%1024))) (some .free) := by
        funext f
        rw [Function.update_apply]
        split_ifs with hf
        · simp [freed,hf,h.page hk hE]
        · have hno : W f ≠ some (.page k) := fun hfk => by
            obtain ⟨-,w,hw,hwf⟩ := h.of_page hfk
            rw [hE] at hw
            cases hw
            exact hf hwf.symm
          unfold freed
          split
          · rename_i b hfb
            rw [hfb,if_neg fun hb : b = k => hno (hb ▸ hfb)]
          · rfl
      rw [if_pos hw,if_neg hne,hm₁,hE,hW]
      refine ⟨_,rfl,hfree,fun b hb => (hpte b hb).trans (by simp),h₁.congr (fun b _ => ?_) fun b _ => ?_⟩
      · rw [Function.update_apply]
      · rw [Function.update_apply]
    · have hE : E k = none := by
        rw [← hentry]
        simp [Option.filter,hw]
      rw [if_neg hw,hE]
      exact ⟨m,rfl,rfl,by simp,hskip hE⟩
  · have hE : E k = none := by
      rw [← hentry,if_neg hp]
      rfl
    rw [if_neg hp,hE]
    exact ⟨m,rfl,rfl,by simp,hskip hE⟩

/-- The pages from `lo` up to `hi`, from the last to the first, that are there. -/
def presentFrames (E : ℕ → Option ℕ) (lo hi : ℕ) : List ℕ :=
  ((List.range' lo (hi-lo)).filterMap fun b => (E b).map frameOf).reverse

theorem Tree.visitAll (h : Tree top kend W out m d E V) (hlo : lo ≤ hi) (hhi : hi ≤ userPages) :
    ∃ m', PageTable.visitAll kend d lo hi m = .ok m' ∧ m'.free = presentFrames E lo hi++m.free ∧
      (∀ b < 1024*top, pte m' d b =
        if (lo ≤ b ∧ b < hi) ∧ (E b).isSome then some 0 else pte m d b) ∧
      Tree top kend (freed (fun b => lo ≤ b ∧ b < hi) W) out m' d
        (fun b => if lo ≤ b ∧ b < hi then none else E b)
        (fun b => if lo ≤ b ∧ b < hi then none else V b) := by
  induction hi, hlo using Nat.le_induction with
  | base =>
    have hno : ∀ b, ¬(lo ≤ b ∧ b < lo) := fun b => by omega
    refine ⟨m,visitAll_of_le le_rfl,by simp [presentFrames],fun b _ => by simp [hno b],?_⟩
    rw [freed_of_not fun f b _ => hno b]
    exact h.congr (fun b _ => if_neg (hno b)) fun b _ => if_neg (hno b)
  | succ hi hle ih =>
    obtain ⟨m₁,hm₁,hfree₁,hpte₁,h₁⟩ := ih (by omega)
    obtain ⟨m₂,hm₂,hfree₂,hpte₂,h₂⟩ := h₁.visit (k := hi) (by omega)
    have hor : ∀ b, (lo ≤ b ∧ b < hi+1) ↔ (lo ≤ b ∧ b < hi) ∨ b = hi := fun b => by omega
    have hin : ¬(lo ≤ hi ∧ hi < hi) := by omega
    refine ⟨m₂,?_,?_,fun b hb => ?_,?_⟩
    · rw [visitAll_concat hle,hm₁]
      exact hm₂
    · rw [hfree₂,hfree₁,if_neg hin,presentFrames,presentFrames,show hi+1-lo = hi-lo+1 by omega,
        List.range'_1_concat,show lo+(hi-lo) = hi by omega]
      cases hE : E hi <;> simp [hE]
    · rw [hpte₂ b hb,hpte₁ b hb,if_neg hin]
      by_cases hbk : b = hi
      · subst hbk
        simp [hle]
      · simp only [hor,hbk,or_false,false_and,if_false]
    · rw [freed_freed hor] at h₂
      simp only [hor]
      refine h₂.congr (fun b _ => ?_) fun b _ => ?_
      · by_cases hbk : b = hi <;> simp [hbk]
      · by_cases hbk : b = hi <;> simp [hbk]

/-- `deallocuvm` takes out the pages from the new size up to the old one. -/
theorem Tree.deallocuvm (h : Tree top kend W out m d E V) (hold : oldsz ≤ KERNBASE)
    (hlt : newsz < oldsz) :
    ∃ m', PageTable.deallocuvm kend m d oldsz newsz = .ok (newsz,m') ∧
      Tree top kend (freed (fun b => pages newsz ≤ b ∧ 4096*b < oldsz) W) out m' d
        (fun b => if pages newsz ≤ b ∧ 4096*b < oldsz then none else E b)
        (fun b => if pages newsz ≤ b ∧ 4096*b < oldsz then none else V b) := by
  obtain ⟨m',hm',-,-,h'⟩ := h.visitAll (pages_mono hlt.le) (pages_le_user hold)
  have hW : freed (fun b => pages newsz ≤ b ∧ 4096*b < oldsz) W =
      freed (fun b => pages newsz ≤ b ∧ b < pages oldsz) W := by
    funext f
    simp only [freed,lt_pages_iff]
  simp only [lt_pages_iff] at h'
  rw [deallocuvm_eq hold hlt,hm',hW]
  exact ⟨m',rfl,h'⟩

/-! ## Memory that has run out -/

def Exhausted (W : ℕ → Option Place) (n : ℕ) : Prop :=
  ∀ S : Finset ℕ, (∀ f ∈ S, W f ≠ none) → S.card ≤ n

theorem Grown.none_iff (h : Grown T P W W') (f : ℕ) : W' f = none ↔ W f = none := by
  rcases h f with hf | ⟨hf,⟨i,-,hi⟩ | ⟨a,-,ha⟩⟩
  · rw [hf]
  · simp [hf,hi]
  · simp [hf,ha]

theorem Exhausted.of_none_iff (h : Exhausted W' n) (hdom : ∀ f, W' f = none ↔ W f = none) :
    Exhausted W n := fun S hS => h S fun f hf hn => hS f hf ((hdom f).mp hn)

theorem Tree.frames_le (h : Tree top kend W out m d E V)
    (hhand : ∃ g, ∀ f, W f = some .hand → f = g) (hpages : ∀ a, n ≤ a → a < userPages → E a = none)
    (S : Finset ℕ) (hS : ∀ f ∈ S, W f ≠ none ∧ f ∉ m.free) : S.card ≤ 1026+n := by
  obtain ⟨g,hg⟩ := hhand
  have hsub : S ⊆ insert d (insert g ((Finset.range 1024).image (fun i => frameOf (m.cells d i)) ∪
      (Finset.range n).image fun a => frameOf ((E a).getD 0))) := by
    intro f hf
    obtain ⟨hne,hnot⟩ := hS f hf
    obtain ⟨x,hx⟩ := Option.ne_none_iff_exists'.mp hne
    simp only [Finset.mem_insert,Finset.mem_union,Finset.mem_image,Finset.mem_range]
    cases x with
    | root => exact .inl ((h.has f .root nofun).mpr hx)
    | hand => exact .inr (.inl (hg f hx))
    | free => exact absurd (h.mem_free.mpr hx) hnot
    | table i =>
      obtain ⟨hi,-,hfi⟩ := (h.has f (.table i) nofun).mpr hx
      exact .inr (.inr (.inl ⟨i,hi.trans_le h.tables.2,hfi⟩))
    | page a =>
      obtain ⟨ha,w,hw,hwf⟩ := h.of_page hx
      refine .inr (.inr (.inr ⟨a,?_,by rw [hw]; exact hwf⟩))
      by_contra hge
      simp [hpages a (by omega) ha] at hw
  calc
    S.card ≤ _ := Finset.card_le_card hsub
    _ ≤ (((Finset.range 1024).image (fun i => frameOf (m.cells d i)) ∪
        (Finset.range n).image fun a => frameOf ((E a).getD 0)).card+1)+1 :=
      (Finset.card_insert_le _ _).trans (Nat.add_le_add_right (Finset.card_insert_le _ _) 1)
    _ ≤ ((1024+n)+1)+1 := by
      gcongr
      refine (Finset.card_union_le _ _).trans (Nat.add_le_add ?_ ?_)
      · exact Finset.card_image_le.trans (Finset.card_range _).le
      · exact Finset.card_image_le.trans (Finset.card_range _).le
    _ = 1026+n := by omega

theorem Tree.exhausted (h : Tree top kend W out m d E V) (hnil : m.free = [])
    (hhand : ∃ g, ∀ f, W f = some .hand → f = g)
    (hpages : ∀ a, n ≤ a → a < userPages → E a = none) : Exhausted W (1026+n) :=
  fun S hS => h.frames_le hhand hpages S fun f hf => ⟨hS f hf,by simp [hnil]⟩

/-! ## allocuvm -/

/-- From `W`, `E` and `V` on the pages from `lo` up to `hi` have been added, with nothing in them. -/
structure Added (lo hi : ℕ) (W : ℕ → Option Place) (E : ℕ → Option ℕ) (V : ℕ → Option (ℕ → ℕ))
    (W' : ℕ → Option Place) (E' : ℕ → Option ℕ) (V' : ℕ → Option (ℕ → ℕ)) : Prop where
  places : Grown (· < 512) (fun a => lo ≤ a ∧ a < hi) W W'
  fresh : ∀ a, lo ≤ a → a < hi → ∃ f, W f = some .free ∧ E' a = some (f*4096+7) ∧ V' a = some fun _ => 0
  rest : ∀ a, ¬(lo ≤ a ∧ a < hi) → E' a = E a ∧ V' a = V a

theorem Added.next (h : Added lo k W₀ E₀ V₀ W E V) (hlo : lo ≤ k) (hf : W f = some .free)
    (hW : Grown (· < 512) (fun _ => False) (update W f (some .hand)) W') :
    Added lo (k+1) W₀ E₀ V₀ (update W' f (some (.page k))) (update E k (some (f*4096+7)))
      (update V k (some fun _ => 0)) where
  places g := by
    by_cases hgf : g = f
    · subst hgf
      rw [update_self]
      rcases h.places g with hg | ⟨-,⟨i,-,hg⟩ | ⟨a,-,hg⟩⟩
      · exact .inr ⟨hg.symm.trans hf,.inr ⟨k,⟨hlo,Nat.lt_succ_self k⟩,rfl⟩⟩
      · simp [hf] at hg
      · simp [hf] at hg
    · rw [update_of_ne hgf]
      rcases hW g with hg | ⟨hg,hi | ⟨a,ha,-⟩⟩
      · rw [update_of_ne hgf] at hg
        rw [hg]
        refine (h.places g).imp_right fun hplace => ⟨hplace.1,hplace.2.imp_right ?_⟩
        rintro ⟨a,⟨hla,hak⟩,hga⟩
        exact ⟨a,⟨hla,by omega⟩,hga⟩
      · rw [update_of_ne hgf] at hg
        rcases h.places g with hg' | ⟨-,⟨j,-,hg'⟩ | ⟨a,-,hg'⟩⟩
        · exact .inr ⟨hg'.symm.trans hg,.inl hi⟩
        · simp [hg] at hg'
        · simp [hg] at hg'
      · exact ha.elim
  fresh a hla hak := by
    by_cases hka : a = k
    · subst hka
      refine ⟨f,?_,update_self ..,update_self ..⟩
      rcases h.places f with hg | ⟨hg,-⟩
      · exact hg.symm.trans hf
      · exact hg
    · rw [update_of_ne hka,update_of_ne hka]
      exact h.fresh a hla (by omega)
  rest a ha := by
    have hka : a ≠ k := by omega
    rw [update_of_ne hka,update_of_ne hka]
    exact h.rest a (by omega)

theorem Added.refl (k : ℕ) (W : ℕ → Option Place) (E : ℕ → Option ℕ) (V : ℕ → Option (ℕ → ℕ)) :
    Added k k W E V W E V :=
  ⟨.refl _ _ _,fun a _ _ => by omega,fun _ _ => ⟨rfl,rfl⟩⟩

theorem Added.grow (h : Added lo hi W₀ E₀ V₀ W E V) (hW : Grown (· < 512) (fun _ => False) W W') :
    Added lo hi W₀ E₀ V₀ W' E V := by
  refine ⟨fun f => ?_,h.fresh,h.rest⟩
  rcases h.places f with hf | hf
  · rcases hW f with hf' | ⟨hfree,hi | ⟨a,ha,-⟩⟩
    · exact .inl (hf'.trans hf)
    · exact .inr ⟨hf.symm.trans hfree,.inl hi⟩
    · exact ha.elim
  · have hkeep : W' f = W f := hW.keep (by rcases hf.2 with ⟨i,-,hi⟩ | ⟨a,-,ha⟩ <;> simp [*])
    rw [hkeep]
    exact .inr hf

theorem Grown.putBack (h : Grown T (fun _ => False) (update W f (some .hand)) W')
    (hf : W f = some .free) : Grown T (fun _ => False) W (update W' f (some .free)) := by
  intro g
  by_cases hgf : g = f
  · subst hgf
    rw [update_self]
    exact .inl hf.symm
  · have hg := h g
    rw [update_of_ne hgf] at hg ⊢
    exact hg

theorem Added.rollback [DecidablePred P] (h : Added lo hi W₀ E₀ V₀ W E V)
    (hnone : ∀ f a, W₀ f = some (.page a) → ¬P a) (hP : ∀ a, lo ≤ a → a < hi → P a) :
    Grown (· < 512) (fun _ => False) W₀ (freed P W) := by
  intro f
  rcases h.places f with hf | ⟨hfree,⟨i,ht,hi⟩ | ⟨a,⟨hla,hah⟩,ha⟩⟩
  · refine .inl ?_
    unfold freed
    rw [hf]
    split
    · rename_i a hfa
      rw [if_neg (hnone f a hfa),hfa]
    · rfl
  · exact .inr ⟨hfree,.inl ⟨i,ht,by simp [freed,hi]⟩⟩
  · exact .inl (by simp [freed,ha,hP a hla hah,hfree])

theorem kalloc_none (h : kalloc m = none) : m.free = [] := by
  unfold kalloc at h
  split at h
  · assumption
  · cases h

/-- What a call of `allocuvm` leaves: the new pages, or the old ones. -/
def Alloced (top kend : ℕ) (out : ℕ → ℕ → ℕ) (d oldsz newsz : ℕ) (W : ℕ → Option Place)
    (E : ℕ → Option ℕ) (V : ℕ → Option (ℕ → ℕ)) (r : ℕ) (m' : Mem) : Prop :=
  (r = newsz ∧ ∃ W' E' V', Added (pages oldsz) (pages newsz) W E V W' E' V' ∧
    Tree top kend W' out m' d E' V') ∨
  r = 0 ∧ (∃ W', Grown (· < 512) (fun _ => False) W W' ∧ Tree top kend W' out m' d E V) ∧
    ((∀ f, W f ≠ some .hand) → Exhausted W (1026+pages newsz))

section
variable {k oldsz newsz : ℕ} {W₀ : ℕ → Option Place} {E₀ : ℕ → Option ℕ} {V₀ : ℕ → Option (ℕ → ℕ)}

theorem Added.in_range (hk : k ≤ pages newsz) (hla : pages oldsz ≤ a) (hak : a < k) :
    pages oldsz ≤ a ∧ 4096*a < newsz := by
  refine ⟨hla,?_⟩
  rw [pages] at hk
  omega

theorem Added.restore (hadd : Added (pages oldsz) k W₀ E₀ V₀ W E V) (hnew : newsz < KERNBASE)
    (hk : k ≤ pages newsz) (hnone : ∀ a, pages oldsz ≤ a → a < userPages → E₀ a = none ∧ V₀ a = none)
    (h : Tree top kend W' out m' d (fun a => if pages oldsz ≤ a ∧ 4096*a < newsz then none else E a)
      (fun a => if pages oldsz ≤ a ∧ 4096*a < newsz then none else V a)) :
    Tree top kend W' out m' d E₀ V₀ := by
  have hbase : KERNBASE = 4096*userPages := rfl
  refine h.congr (fun a ha => ?_) fun a ha => ?_
  · split_ifs with hin
    · exact (hnone a hin.1 (by omega)).1
    · exact ((hadd.rest a fun ha => hin (in_range hk ha.1 ha.2)).1).symm
  · split_ifs with hin
    · exact (hnone a hin.1 ha).2
    · exact ((hadd.rest a fun ha => hin (in_range hk ha.1 ha.2)).2).symm

theorem freed_update_free [DecidablePred P] (f : ℕ) :
    freed P (update W f (some .free)) = update (freed P W) f (some .free) := by
  funext g
  by_cases hgf : g = f
  · simp [freed,hgf]
  · simp [freed,update_of_ne hgf]

/-- The loop of `allocuvm` from page `k` on: it adds empty pages up to the new size, or takes out
what it has added. -/
theorem Tree.allocLoop {fuel : ℕ} (h : Tree top kend W out m d E V)
    (hadd : Added (pages oldsz) k W₀ E₀ V₀ W E V) (hnew : newsz < KERNBASE) (hold : oldsz ≤ newsz)
    (hk : pages oldsz ≤ k) (hkn : k ≤ pages newsz) (hfuel : userPages ≤ k+fuel)
    (hpages : ∀ f a, W₀ f = some (.page a) → a < pages oldsz)
    (hnone : ∀ a, pages oldsz ≤ a → a < userPages → E₀ a = none ∧ V₀ a = none) :
    ∃ r m', PageTable.allocLoop kend d oldsz newsz fuel m (4096*k) = .ok (r,m') ∧
      Alloced top kend out d oldsz newsz W₀ E₀ V₀ r m' := by
  have hbase : KERNBASE = 4096*userPages := rfl
  have hnewp := pages_le hnew
  induction fuel generalizing m W E V k with
  | zero =>
    have hkp : k = pages newsz := by omega
    subst hkp
    exact ⟨newsz,m,rfl,.inl ⟨rfl,W,E,V,hadd,h⟩⟩
  | succ fuel ih =>
    unfold PageTable.allocLoop
    by_cases hlt : 4096*k < newsz
    · have hku' : k < userPages := by omega
      have hlt' : oldsz < newsz := by
        rw [pages] at hk
        omega
      have hold' : ∀ f a, W₀ f = some (.page a) → ¬(pages oldsz ≤ a ∧ 4096*a < newsz) := by
        intro f a hf ha
        have hlt := hpages f a hf
        omega
      have hbelow : ∀ a, pages newsz ≤ a → a < userPages → E a = none := by
        intro a ha hau
        rw [(hadd.rest a (by omega)).1]
        exact (hnone a (by omega) hau).1
      rw [if_pos hlt]
      cases hkalloc : PageTable.kalloc m with
      | none =>
        obtain ⟨m',hm',h'⟩ := h.deallocuvm hnew.le hlt'
        refine ⟨0,m',?_,.inr ⟨rfl,⟨_,hadd.rollback hold' fun a => Added.in_range hkn,
          hadd.restore hnew hkn hnone h'⟩,fun h0 => ?_⟩⟩
        · dsimp only
          rw [hm']
          rfl
        · exact (h.exhausted (kalloc_none hkalloc)
            ⟨0,fun f hf => absurd hf (hadd.places.no_hand h0 f)⟩ hbelow).of_none_iff hadd.places.none_iff
      | some fm =>
        obtain ⟨f,m₁⟩ := fm
        obtain ⟨hf,h₁⟩ := h.kalloc hkalloc
        have h₂ := h₁.write (update_self ..) fun _ => 0
        have hEk : E k = none := by
          rw [(hadd.rest k (by omega)).1]
          exact (hnone k hk hku').1
        obtain ⟨r,m₃,W₃,hmap,hgrown,h₃⟩ := h₂.mappages (T := (· < 512)) (update_self ..) hku'
          (div_lt_of_user hku') hEk (by decide : PTE_W ||| PTE_U < 4096)
        dsimp only
        rw [show m₁.fill f 0 = {m₁ with cells := update m₁.cells f fun _ => 0} from rfl,hmap]
        cases r with
        | false =>
          obtain ⟨h₃,hnil⟩ := h₃
          have hf₃ : W₃ f = some .hand := (hgrown.keep (by simp)).trans (update_self ..)
          have hadd' := hadd.grow (hgrown.putBack hf)
          obtain ⟨m₄,hm₄,h₄⟩ := h₃.deallocuvm hnew.le hlt'
          obtain ⟨m₅,hm₅,h₅⟩ := h₄.kfree (f := f) (by simp [freed,hf₃])
          rw [← freed_update_free] at h₅
          refine ⟨0,m₅,?_,.inr ⟨rfl,⟨_,hadd'.rollback hold' fun a => Added.in_range hkn,
            hadd'.restore hnew hkn hnone h₅⟩,fun h0 => ?_⟩⟩
          · change (PageTable.deallocuvm kend m₃ d newsz oldsz >>= fun r =>
              PageTable.kfree kend r.2 f >>= fun m => .ok (0,m)) = _
            rw [hm₄]
            change (PageTable.kfree kend m₄ f >>= fun m => .ok (0,m)) = _
            rw [hm₅]
            rfl
          · refine (h₃.exhausted hnil ⟨f,fun g hg => ?_⟩ hbelow).of_none_iff fun g => ?_
            · by_contra hgf
              rcases hgrown g with hg' | ⟨-,⟨i,-,hi⟩ | ⟨a,ha,-⟩⟩
              · rw [update_of_ne hgf,hg] at hg'
                exact hadd.places.no_hand h0 g hg'.symm
              · simp [hg] at hi
              · exact ha
            · rw [hgrown.none_iff,← hadd.places.none_iff g]
              by_cases hgf : g = f
              · simp [hgf,hf]
              · rw [update_of_ne hgf]
        | true =>
          have hzero : ({m₁ with cells := update m₁.cells f fun _ => 0} : Mem).cells f = fun _ => 0 :=
            update_self ..
          rw [if_pos rfl,hzero] at h₃
          have hadd' := hadd.next hk hf hgrown
          obtain ⟨r,m',hm',h'⟩ := ih h₃ hadd' (by omega) (by rw [pages]; omega) (by omega)
          refine ⟨r,m',?_,h'⟩
          change PageTable.allocLoop kend d oldsz newsz fuel m₃ ((4096*k+PGSIZE)%2^32) = _
          rw [next_page hku',hm']
    · have hkp : k = pages newsz := by
        rw [pages] at hkn ⊢
        omega
      rw [if_neg hlt]
      subst hkp
      exact ⟨newsz,m,rfl,.inl ⟨rfl,W,E,V,hadd,h⟩⟩

/-- `allocuvm` adds the pages up to the new size, or changes nothing. -/
theorem Tree.allocuvm (h : Tree top kend W out m d E V) (hold : oldsz ≤ newsz)
    (hnone : ∀ a, pages oldsz ≤ a → a < userPages → E a = none) :
    ∃ r m', PageTable.allocuvm kend m d oldsz newsz = .ok (r,m') ∧
      (newsz < KERNBASE ∧ Alloced top kend out d oldsz newsz W E V r m' ∨
        KERNBASE ≤ newsz ∧ r = 0 ∧ m' = m) := by
  rw [PageTable.allocuvm]
  by_cases htop : newsz ≥ KERNBASE
  · rw [if_pos htop]
    exact ⟨0,m,rfl,.inr ⟨htop,rfl,rfl⟩⟩
  · obtain ⟨fuel,hfuel⟩ : ∃ fuel, 2^20 = fuel := ⟨_,rfl⟩
    have huser : userPages ≤ fuel := by
      rw [← hfuel]
      decide
    have hpages : ∀ f a, W f = some (.page a) → a < pages oldsz := by
      intro f a hf
      obtain ⟨ha,w,hw,-⟩ := h.of_page hf
      by_contra hge
      simp [hnone a (by omega) ha] at hw
    have hempty : ∀ a, pages oldsz ≤ a → a < userPages → E a = none ∧ V a = none := by
      intro a ha hau
      rw [h.contents hau,hnone a ha hau]
      exact ⟨rfl,rfl⟩
    rw [if_neg htop,if_neg (by omega),hfuel,pgroundup_eq (by omega)]
    obtain ⟨r,m',hm',h'⟩ := @Tree.allocLoop _ _ _ _ _ _ _ _ _ oldsz newsz _ _ _ fuel h
      (.refl (pages oldsz) W E V) (by omega) hold le_rfl (Nat.div_le_div_right (by omega)) (by omega)
      hpages hempty
    exact ⟨r,m',hm',.inl ⟨by omega,h'⟩⟩

end

end
end Xv6.PageTable
