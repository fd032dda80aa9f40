import Xv6.AddressSpace
import Xv6.KernelMap

/-!
# The copy of an address space

`copyuvm` walks the directory of the parent while it builds the one of the child. The frames of the
child come from the free list, where no frame of the parent is, so the parent is outside of the tree
that grows and stays as it is.
-/
namespace Xv6.PageTable
open Function (update update_self update_of_ne)

section
variable {kend data d pgdir sz : ℕ} {D : ℕ → Prop} {W W₀ : ℕ → Option Place} {out : ℕ → ℕ → ℕ}
  {m m₀ m' : Mem} {E E₀ : ℕ → Option ℕ} {V V₀ : ℕ → Option (ℕ → ℕ)}

theorem lor_one_of_odd {x : ℕ} (hx : x%2 = 1) : x ||| 1 = x := by
  apply Nat.eq_of_testBit_eq
  intro i
  rw [Nat.testBit_or]
  cases i with
  | zero => simp [Nat.testBit_zero,hx]
  | succ => simp [Nat.testBit_succ]

theorem flags_odd {w : ℕ} (hw : present w = true) : PTE_FLAGS w%2 = 1 := by
  simp only [present,decide_eq_true_eq] at hw
  rw [PTE_FLAGS]
  omega

theorem Tree.mapped_le {top n : ℕ} (h : Tree top kend W out m d E V) (hn : n ≤ userPages)
    (hmap : ∀ a < n, E a ≠ none) : n*PGSIZE ≤ PHYSTOP := by
  have hmaps : ∀ a ∈ Finset.range n, frameOf ((E a).getD 0) ∈ Finset.range (PHYSTOP/PGSIZE) := by
    intro a ha
    rw [Finset.mem_range] at ha ⊢
    obtain ⟨w,hw⟩ := Option.ne_none_iff_exists'.mp (hmap a ha)
    have hf := h.page (by omega) hw
    have hrange := (h.range _ (by rw [hf]; nofun)).2
    rw [hw,Option.getD_some]
    rw [PGSIZE] at hrange ⊢
    rw [PHYSTOP] at hrange ⊢
    omega
  have hinj : Set.InjOn (fun a => frameOf ((E a).getD 0)) (Finset.range n) := by
    intro a ha b hb he
    rw [Finset.coe_range,Set.mem_Iio] at ha hb
    obtain ⟨w,hw⟩ := Option.ne_none_iff_exists'.mp (hmap a ha)
    obtain ⟨v,hv⟩ := Option.ne_none_iff_exists'.mp (hmap b hb)
    simp only [hw,hv,Option.getD_some] at he
    have hfa := h.page (by omega) hw
    have hfb := h.page (by omega) hv
    rw [he,hfb] at hfa
    exact (Place.page.inj (Option.some_injective _ hfa)).symm
  have hcard := Finset.card_le_card_of_injOn _ hmaps hinj
  rw [Finset.card_range,Finset.card_range] at hcard
  simp only [PGSIZE,PHYSTOP] at hcard ⊢
  omega

/-- The first `k` pages of the child are copies, in frames of `D`, and no more are there. -/
structure Copied (data : ℕ) (D : ℕ → Prop) (E₀ : ℕ → Option ℕ) (V₀ : ℕ → Option (ℕ → ℕ)) (k : ℕ)
    (E : ℕ → Option ℕ) (V : ℕ → Option (ℕ → ℕ)) : Prop where
  kernel : ∀ a, userPages ≤ a → E a = kernelEntry data a
  copies : ∀ a < k, ∃ f w, D f ∧ E₀ a = some w ∧ E a = some (f*4096+PTE_FLAGS w) ∧ V a = V₀ a
  rest : ∀ a, k ≤ a → a < userPages → E a = none

theorem Tree.parent_entry (h₀ : Tree 512 kend W₀ m₀.cells m₀ pgdir E₀ V₀)
    (hsame : ∀ f x, W₀ f = some x → x.inTree → m.cells f = m₀.cells f) {k w : ℕ} (hk : k < userPages)
    (hw : E₀ k = some w) :
    ∃ t, (walkpgdir m pgdir (4096*k) false).1 = some (t,k%1024) ∧ m.cells t (k%1024) = w ∧ present w ∧
      V₀ k = some (m.cells (frameOf w)) := by
  have hentry := (h₀.unchanged hsame hk).1.trans ((h₀.entry k (h₀.user hk)).trans hw)
  obtain ⟨hwalk,hcell,hp,-⟩ := walkpgdir_entry (user_lt hk) hentry
  refine ⟨tableOf m pgdir k,hwalk,hcell,hp,?_⟩
  rw [h₀.contents hk,hw,Option.map_some,hsame _ _ (h₀.page hk hw) trivial]

def LoopDone (kend data : ℕ) (D : ℕ → Prop) (out : ℕ → ℕ → ℕ) (E₀ : ℕ → Option ℕ)
    (V₀ : ℕ → Option (ℕ → ℕ)) (d sz : ℕ) (r : Bool) (m' : Mem) : Prop :=
  ∃ E' V', Stands 1024 kend D out m' d E' V' ∧ (r = true → Copied data D E₀ V₀ (pages sz) E' V')

theorem Tree.copyLoop {fuel k : ℕ} (h : Tree 1024 kend W out m d E V) (hno : ∀ f, W f ≠ some .hand)
    (hD : ∀ f, W f ≠ none ↔ D f) (hc : Copied data D E₀ V₀ k E V)
    (h₀ : Tree 512 kend W₀ m₀.cells m₀ pgdir E₀ V₀)
    (hsame : ∀ f x, W₀ f = some x → x.inTree → ¬D f ∧ out f = m₀.cells f)
    (hmap : ∀ a < pages sz, E₀ a ≠ none) (hsz : sz < KERNBASE) (hk : k ≤ pages sz)
    (hfuel : userPages ≤ k+fuel) :
    ∃ r m', PageTable.copyLoop kend pgdir sz d fuel m (4096*k) = .ok (r,m') ∧
      LoopDone kend data D out E₀ V₀ d sz r m' := by
  have hpages := pages_le hsz
  induction fuel generalizing m W E V k with
  | zero =>
    obtain rfl : k = pages sz := by omega
    exact ⟨true,m,rfl,E,V,⟨W,hno,hD,h⟩,fun _ => hc⟩
  | succ fuel ih =>
    unfold PageTable.copyLoop
    by_cases hlt : 4096*k < sz
    · have hkp : k < pages sz := by
        rw [pages]
        omega
      have hku : k < userPages := by omega
      have hout : ∀ f x, W₀ f = some x → x.inTree → m.cells f = m₀.cells f := by
        intro f x hf hx
        obtain ⟨hDf,hcell⟩ := hsame f x hf hx
        exact (h.out f (by by_contra hne; exact hDf ((hD f).mp hne))).trans hcell
      obtain ⟨w,hw⟩ := Option.ne_none_iff_exists'.mp (hmap k hkp)
      obtain ⟨t,hwalk,hcell,hp,hV₀⟩ := h₀.parent_entry hout hku hw
      rw [if_pos hlt,hwalk]
      dsimp only
      rw [hcell,if_neg (by rw [hp]; simp)]
      cases hkalloc : PageTable.kalloc m with
      | none => exact ⟨false,m,rfl,E,V,⟨W,hno,hD,h⟩,by simp⟩
      | some fm =>
        obtain ⟨f,m₁⟩ := fm
        obtain ⟨hf,h₁⟩ := h.kalloc hkalloc
        have hcells := (kalloc_free hkalloc).2
        have h₂ := h₁.write (update_self ..) (m₁.cells (frameOf w))
        have hflags : PTE_FLAGS w < 4096 := Nat.mod_lt w (by decide)
        obtain ⟨r,m₃,W₃,hmap₃,hgrown,h₃⟩ := h₂.mappages (T := fun _ => True) (update_self ..) hku
          trivial (hc.rest k le_rfl hku) hflags
        have hf₃ : W₃ f = some .hand := (hgrown.keep (by simp)).trans (update_self ..)
        have hDf : D f := (hD f).mp (by rw [hf]; simp)
        have hplace : ∀ x : Place, x ≠ .hand → (∀ g, update W₃ f (some x) g ≠ some .hand) ∧
            ∀ g, update W₃ f (some x) g ≠ none ↔ D g := by
          intro x hx
          refine ⟨fun g => ?_,fun g => ?_⟩
          · by_cases hgf : g = f
            · simp [hgf,hx]
            · rw [update_of_ne hgf]
              rcases hgrown g with hg | ⟨-,⟨i,-,hi⟩ | ⟨a,ha,-⟩⟩
              · rw [hg,update_of_ne hgf]
                exact hno g
              · simp [hi]
              · exact ha.elim
          · by_cases hgf : g = f
            · simp [hgf,hDf]
            · rw [update_of_ne hgf,ne_eq,hgrown.none_iff,update_of_ne hgf]
              exact hD g
        dsimp only
        rw [show m₁.copy f (frameOf w) = {m₁ with cells := update m₁.cells f (m₁.cells (frameOf w))}
          from rfl,hmap₃]
        cases r with
        | false =>
          obtain ⟨h₃,-⟩ := h₃
          obtain ⟨m₄,hm₄,h₄⟩ := h₃.kfree hf₃
          obtain ⟨hno₄,hD₄⟩ := hplace .free (by simp)
          refine ⟨false,m₄,?_,E,V,⟨_,hno₄,hD₄,h₄⟩,by simp⟩
          change (PageTable.kfree kend m₃ f >>= fun m => .ok (false,m)) = _
          rw [hm₄]
          rfl
        | true =>
          obtain ⟨hno₄,hD₄⟩ := hplace (.page k) (by simp)
          rw [if_pos rfl,lor_one_of_odd (flags_odd hp)] at h₃
          have hcopy : ({m₁ with cells := update m₁.cells f (m₁.cells (frameOf w))} : Mem).cells f =
              m.cells (frameOf w) := (update_self ..).trans (by rw [hcells])
          rw [hcopy,← hV₀] at h₃
          have hc' : Copied data D E₀ V₀ (k+1) (update E k (some (f*4096+PTE_FLAGS w)))
              (update V k (V₀ k)) := by
            refine ⟨fun a ha => ?_,fun a ha => ?_,fun a hka hau => ?_⟩
            · rw [update_of_ne (by omega)]
              exact hc.kernel a ha
            · by_cases hak : a = k
              · subst hak
                exact ⟨f,w,hDf,hw,update_self ..,update_self ..⟩
              · rw [update_of_ne hak,update_of_ne hak]
                exact hc.copies a (by omega)
            · rw [update_of_ne (by omega)]
              exact hc.rest a (by omega) hau
          obtain ⟨r,m',hm',h'⟩ := ih h₃ hno₄ hD₄ hc' hkp (by omega)
          refine ⟨r,m',?_,h'⟩
          change PageTable.copyLoop kend pgdir sz d fuel m₃ ((4096*k+PGSIZE)%2^32) = _
          rw [next_page hku,hm']
    · obtain rfl : k = pages sz := by
        rw [pages] at hk ⊢
        omega
      rw [if_neg hlt]
      exact ⟨true,m,rfl,E,V,⟨W,hno,hD,h⟩,fun _ => hc⟩

def Mem.overwrite (m : Mem) (f : ℕ) (c : ℕ → ℕ) : Mem := {m with cells := update m.cells f c}

theorem Tree.unchanged_overwrite {top : ℕ} (h : Tree top kend W out m d E V) {f : ℕ}
    (hf : ∀ x : Place, x.inTree → W f ≠ some x) (c : ℕ → ℕ) {a : ℕ} (ha : a < userPages) :
    PageTable.view (m.overwrite f c) d a = PageTable.view m d a := by
  refine (h.unchanged (fun g x hg hx => update_of_ne ?_ ..) ha).2
  rintro rfl
  exact hf x hx hg

/-- `copyuvm` makes a directory for the pages below `sz`, on frames of their own and with the
contents and the flags of the parent, or it gives back every frame. All memory that was not free
stays as it is. -/
theorem copyuvm_copies (h : Space kend m pgdir (view m pgdir) none) (hdata : KernelData data)
    (hmap : ∀ a < pages sz, entry m pgdir a ≠ none) :
    ∃ r m', copyuvm kend data m pgdir sz = .ok (r,m') ∧ (∀ f ∉ m.free, m'.cells f = m.cells f) ∧
      (∀ a < userPages, entry m' pgdir a = entry m pgdir a ∧ view m' pgdir a = view m pgdir a) ∧
      match r with
      | none => ∀ f, f ∈ m'.free ↔ f ∈ m.free
      | some d =>
        (∀ a, userPages ≤ a → a < 2^20 → entry m' d a = kernelEntry data a) ∧
        (∀ a < pages sz, view m' d a = view m pgdir a ∧ ∃ f ∈ m.free, ∃ w, entry m pgdir a = some w ∧
          entry m' d a = some (f*4096+PTE_FLAGS w)) ∧
        (∀ a, pages sz ≤ a → a < userPages → entry m' d a = none) ∧
        (∀ a b w v, a < userPages → b < userPages → entry m' d a = some w → entry m' d b = some v →
          frameOf w = frameOf v → a = b) ∧
        ∀ a b w c, a < userPages → b < userPages →
          (entry m' d a = some w → view (m'.overwrite (frameOf w) c) pgdir b = view m' pgdir b) ∧
          (entry m' pgdir a = some w → view (m'.overwrite (frameOf w) c) d b = view m' d b) := by
  obtain ⟨W₀,-,h₀⟩ := h.tree
  have hsz : sz < KERNBASE := by
    by_contra hge
    have hle := h₀.mapped_le (n := userPages) le_rfl fun a ha => hmap a (by
      rw [KERNBASE] at hge
      rw [userPages] at ha
      rw [pages]
      omega)
    simp only [userPages,PGSIZE,PHYSTOP] at hle
    omega
  have hfree : ∀ f x, W₀ f = some x → x.inTree → f ∉ m.free := by
    intro f x hf hx hmem
    rw [h₀.mem_free,hf] at hmem
    cases hmem
    exact hx
  have hparent : ∀ {m' : Mem}, (∀ f ∉ m.free, m'.cells f = m.cells f) → ∀ a < userPages,
      entry m' pgdir a = entry m pgdir a ∧ view m' pgdir a = view m pgdir a :=
    fun hout a ha => h₀.unchanged (fun f x hf hx => hout f (hfree f x hf hx)) ha
  obtain ⟨r,m₁,hm₁,hr⟩ := h₀.pool.setupkvm hdata
  unfold copyuvm
  rw [hm₁]
  cases r with
  | none =>
    obtain ⟨⟨hpool,-⟩,-⟩ := hr
    exact ⟨none,m₁,rfl,hpool.out,hparent hpool.out,hpool.free⟩
  | some d =>
    obtain ⟨-,-,⟨W,hno,hD,h₁⟩,-⟩ := hr
    obtain ⟨fuel,hfuel⟩ : ∃ fuel, 2^20 = fuel := ⟨_,rfl⟩
    have hbig : userPages ≤ 0+fuel := by
      rw [← hfuel]
      decide
    have hc : Copied data (· ∈ m.free) (entry m pgdir) (view m pgdir) 0 (kernelEntry data) fun _ => none :=
      ⟨fun _ _ => rfl,fun a ha => absurd ha (Nat.not_lt_zero a),fun a _ ha => if_pos ha⟩
    obtain ⟨r,m₂,hm₂,E',V',hstands,hcopied⟩ := h₁.copyLoop hno hD hc h₀
      (fun f x hf hx => ⟨hfree f x hf hx,rfl⟩) hmap hsz (Nat.zero_le _) hbig
    change ∃ r m', (copyLoop kend pgdir sz d (2^20) m₁ 0 >>= fun p =>
      if p.1 = false then freevm kend p.2 d >>= fun m => .ok (none,m) else .ok (some d,p.2)) =
        .ok (r,m') ∧ _
    rw [Nat.mul_zero,← hfuel] at hm₂
    rw [hm₂]
    cases r with
    | false =>
      obtain ⟨m₃,hm₃,hpool⟩ := hstands.freevm
      refine ⟨none,m₃,?_,hpool.out,hparent hpool.out,hpool.free⟩
      change (freevm kend m₂ d >>= fun m => .ok (none,m)) = _
      rw [hm₃]
      rfl
    | true =>
      obtain ⟨W',hno',hD',h'⟩ := hstands
      have hcopied := hcopied rfl
      have hnone : ∀ f ∉ m.free, W' f = none := fun f hf => by
        by_contra hne
        exact hf ((hD' f).mp hne)
      have hout : ∀ f ∉ m.free, m₂.cells f = m.cells f := fun f hf => h'.out f (hnone f hf)
      refine ⟨some d,m₂,rfl,hout,hparent hout,fun a ha hlt => ?_,fun a ha => ?_,fun a ha hau => ?_,
        fun a b w v ha hb hw hv he => ?_,fun a b w c ha hb => ⟨fun hw => ?_,fun hw => ?_⟩⟩
      · exact (h'.entry a hlt).trans (hcopied.kernel a ha)
      · have hau : a < userPages := ha.trans_le (pages_le hsz)
        obtain ⟨f,w,hf,hw,hE,hV⟩ := hcopied.copies a ha
        exact ⟨(h'.view a hau).trans hV,f,hf,w,hw,(h'.entry a (h'.user hau)).trans hE⟩
      · exact (h'.entry a (h'.user hau)).trans (hcopied.rest a ha hau)
      · rw [h'.entry a (h'.user ha)] at hw
        rw [h'.entry b (h'.user hb)] at hv
        have hfa := h'.page ha hw
        rw [he,h'.page hb hv] at hfa
        exact (Place.page.inj (Option.some_injective _ hfa)).symm
      · rw [h'.entry a (h'.user ha)] at hw
        have hmem : frameOf w ∈ m.free := (hD' _).mp (by rw [h'.page ha hw]; simp)
        refine (h₀.unchanged (fun f x hf hx => ?_) hb).2.trans (hparent hout b hb).2.symm
        have hf := hfree f x hf hx
        have hne : f ≠ frameOf w := ne_of_mem_of_not_mem hmem hf |>.symm
        exact (update_of_ne hne ..).trans (hout f hf)
      · rw [(hparent hout a ha).1,h₀.entry a (h₀.user ha)] at hw
        refine h'.unchanged_overwrite (fun x _ => ?_) c hb
        rw [hnone _ (hfree _ _ (h₀.page ha hw) trivial)]
        simp

/-- One free frame is not enough for the kernel part. -/
theorem onePage_copied : ∃ r m', copyuvm 1 (KERNLINK+4096) onePage 10 4096 = .ok (r,m') ∧
    (∀ f ∉ onePage.free, m'.cells f = onePage.cells f) ∧
    (∀ a < userPages, entry m' 10 a = entry onePage 10 a ∧ view m' 10 a = view onePage 10 a) ∧
    match r with
    | none => ∀ f, f ∈ m'.free ↔ f ∈ onePage.free
    | some d =>
      (∀ a, userPages ≤ a → a < 2^20 → entry m' d a = kernelEntry (KERNLINK+4096) a) ∧
      (∀ a < pages 4096, view m' d a = view onePage 10 a ∧ ∃ f ∈ onePage.free, ∃ w,
        entry onePage 10 a = some w ∧ entry m' d a = some (f*4096+PTE_FLAGS w)) ∧
      (∀ a, pages 4096 ≤ a → a < userPages → entry m' d a = none) ∧
      (∀ a b w v, a < userPages → b < userPages → entry m' d a = some w → entry m' d b = some v →
        frameOf w = frameOf v → a = b) ∧
      ∀ a b w c, a < userPages → b < userPages →
        (entry m' d a = some w → view (m'.overwrite (frameOf w) c) 10 b = view m' 10 b) ∧
        (entry m' 10 a = some w → view (m'.overwrite (frameOf w) c) d b = view m' d b) := by
  refine copyuvm_copies onePage_space ⟨by decide,by decide,by decide⟩ fun a ha => ?_
  have hview := onePage_mapped.mpr ha
  rw [view_eq] at hview
  exact fun hnone => hview (by rw [hnone]; rfl)

end
end Xv6.PageTable
