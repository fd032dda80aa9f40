import Xv6.Machine
import Xv6.PageTable

/-!
# Trees of page tables

A page directory with its tables and pages is a tree of frames. `Tree top kend W out m d E V` says
that memory `m` holds such a tree below the directory `d`, up to table `top`: `W` is the place of
every frame that takes part, which is the directory, a table, a page of a process, the free list or
the hand of the running code. All other frames are as in `out`. The tree maps the pages with the
entries `E`, and the pages of the process have the contents `V`. The kernel's pages are mapped but
are not frames of the tree.
-/
namespace Xv6.PageTable
open Function (update update_self update_of_ne)

def userPages : ℕ := 2^19

inductive Place
  | root
  | table (i : ℕ)
  | page (a : ℕ)
  | free
  | hand
  deriving DecidableEq

def Place.inTree : Place → Prop
  | .root | .table _ | .page _ => True
  | .free | .hand => False

/-- The entry of page `a`, if its table is there. -/
def pte (m : Mem) (d a : ℕ) : Option ℕ :=
  if present (m.cells d (a/1024)) then some (m.cells (frameOf (m.cells d (a/1024))) (a%1024)) else none

def view (m : Mem) (d a : ℕ) : Option (ℕ → ℕ) :=
  match pte m d a with
  | none => none
  | some w => if present w then some (m.cells (frameOf w)) else none

/-- The entry of page `a`, if the page is there. -/
def entry (m : Mem) (d a : ℕ) : Option ℕ := (pte m d a).filter fun w => present w

def Has (top : ℕ) (m : Mem) (d f : ℕ) : Place → Prop
  | .root => f = d
  | .table i => i < top ∧ present (m.cells d i) ∧ frameOf (m.cells d i) = f
  | .page a => a < userPages ∧ ∃ w, entry m d a = some w ∧ frameOf w = f
  | .free => f ∈ m.free
  | .hand => False

structure Tree (top kend : ℕ) (W : ℕ → Option Place) (out : ℕ → ℕ → ℕ) (m : Mem) (d : ℕ)
    (E : ℕ → Option ℕ) (V : ℕ → Option (ℕ → ℕ)) : Prop where
  kernel : 0 < kend
  tables : 512 ≤ top ∧ top ≤ 1024
  has : ∀ f x, x ≠ .hand → (Has top m d f x ↔ W f = some x)
  nodup : m.free.Nodup
  range : ∀ f, W f ≠ none → kend ≤ f ∧ f*PGSIZE < PHYSTOP
  out : ∀ f, W f = none → m.cells f = out f
  entry : ∀ a < 1024*top, entry m d a = E a
  view : ∀ a < userPages, view m d a = V a

section
variable {top kend d a w f x : ℕ} {W W' : ℕ → Option Place} {out out' : ℕ → ℕ → ℕ} {m m' : Mem}
  {E E' : ℕ → Option ℕ} {V V' : ℕ → Option (ℕ → ℕ)}

theorem view_eq (m : Mem) (d a : ℕ) : view m d a = (entry m d a).map fun w => m.cells (frameOf w) := by
  unfold view entry
  cases pte m d a with
  | none => rfl
  | some w =>
    by_cases hw : present w = true
    · simp [Option.filter,hw]
    · simp [Option.filter,hw]

theorem Tree.root (h : Tree top kend W out m d E V) : W d = some .root :=
  (h.has d .root nofun).mp rfl

theorem Tree.table (h : Tree top kend W out m d E V) {i : ℕ} (hi : i < top)
    (hp : present (m.cells d i)) : W (frameOf (m.cells d i)) = some (.table i) :=
  (h.has _ (.table i) nofun).mp ⟨hi,hp,rfl⟩

theorem Tree.user (h : Tree top kend W out m d E V) (ha : a < userPages) : a < 1024*top := by
  have ht := h.tables.1
  rw [userPages] at ha
  omega

theorem Tree.page (h : Tree top kend W out m d E V) (ha : a < userPages)
    (hw : E a = some w) : W (frameOf w) = some (.page a) :=
  (h.has _ (.page a) nofun).mp ⟨ha,w,(h.entry a (h.user ha)).trans hw,rfl⟩

theorem Tree.of_page (h : Tree top kend W out m d E V) (hf : W f = some (.page a)) :
    a < userPages ∧ ∃ w, E a = some w ∧ frameOf w = f := by
  obtain ⟨ha,w,hw,hwf⟩ := (h.has f (.page a) nofun).mpr hf
  exact ⟨ha,w,(h.entry a (h.user ha)).symm.trans hw,hwf⟩

theorem Tree.mem_free (h : Tree top kend W out m d E V) : f ∈ m.free ↔ W f = some .free :=
  h.has f .free nofun

theorem ne_of_place {g : ℕ} {x y : Place} (hf : W f = some x) (hg : W g = some y) (hxy : x ≠ y) :
    f ≠ g := by
  rintro rfl
  exact hxy (Option.some_injective _ (hf.symm.trans hg))

theorem Tree.contents (h : Tree top kend W out m d E V) (ha : a < userPages) :
    V a = (E a).map fun w => m.cells (frameOf w) := by
  rw [← h.view a ha,view_eq,h.entry a (h.user ha)]

/-! ## Entries -/

theorem entry_eq (hx : x < 4096) : f*PGSIZE ||| x = f*4096+x := by
  have h := Nat.two_pow_add_eq_or_of_lt (i := 12) (b := x) hx f
  rw [Nat.mul_comm] at h
  exact h.symm

theorem tableEntry_eq (f : ℕ) : f*PGSIZE ||| PTE_P ||| PTE_W ||| PTE_U = f*4096+7 := by
  rw [Nat.lor_assoc,Nat.lor_assoc]
  exact entry_eq (by decide)

theorem pageEntry_eq {perm : ℕ} (hp : perm < 4096) :
    f*PGSIZE ||| perm ||| PTE_P = f*4096+(perm ||| 1) := by
  rw [Nat.lor_assoc]
  exact entry_eq (Nat.or_lt_two_pow (n := 12) hp (by decide))

theorem lor_one_mod (x : ℕ) : (x ||| 1)%2 = 1 := by
  rw [Nat.or_mod_two_eq_one]
  exact .inr rfl

theorem present_entry (hx : x%2 = 1) : present (f*4096+x) = true := by
  have h : (f*4096+x)%2 = 1 := by omega
  simp [present,h]

theorem frameOf_entry (hx : x < 4096) : frameOf (f*4096+x) = f := by
  simp only [frameOf,PGSIZE]
  omega

theorem pte_congr (hroot : m'.cells d = m.cells d) (htable : present (m.cells d (a/1024)) = true →
      m'.cells (frameOf (m.cells d (a/1024))) = m.cells (frameOf (m.cells d (a/1024)))) :
    pte m' d a = pte m d a := by
  unfold pte
  rw [hroot]
  split_ifs with hp
  · rw [htable hp]
  · rfl

/-! ## Frames outside of the tree -/

theorem Tree.reshape (h : Tree top kend W out m d E V)
    (hcells : ∀ f x, W f = some x → x = .root ∨ (∃ i, x = .table i) → m'.cells f = m.cells f)
    (hplace : ∀ f x, x.inTree → (W' f = some x ↔ W f = some x))
    (hfree : ∀ f, f ∈ m'.free ↔ W' f = some .free) (hnodup : m'.free.Nodup)
    (hrange : ∀ f, W' f ≠ none → kend ≤ f ∧ f*PGSIZE < PHYSTOP)
    (hout : ∀ f, W' f = none → m'.cells f = out' f)
    (hV : ∀ a < userPages, V' a = (E a).map fun w => m'.cells (frameOf w)) :
    Tree top kend W' out' m' d E V' := by
  have hroot : m'.cells d = m.cells d := hcells d .root h.root (.inl rfl)
  have hentry : ∀ a < 1024*top, PageTable.entry m' d a = PageTable.entry m d a := fun a ha => by
    unfold PageTable.entry
    rw [pte_congr hroot fun hp => hcells _ _ (h.table (by omega) hp) (.inr ⟨_,rfl⟩)]
  refine ⟨h.kernel,h.tables,fun f x hx => ?_,hnodup,hrange,hout,
    fun a ha => (hentry a ha).trans (h.entry a ha),fun a ha => ?_⟩
  · cases x with
    | root => exact (h.has f .root nofun).trans (hplace f .root trivial).symm
    | table i =>
      rw [hplace f (.table i) trivial,← h.has f _ hx]
      simp only [Has,hroot]
    | page a =>
      rw [hplace f (.page a) trivial,← h.has f _ hx]
      refine and_congr_right fun ha => ?_
      rw [hentry a (h.user ha)]
    | free => exact hfree f
    | hand => exact absurd rfl hx
  · rw [view_eq,hentry a (h.user ha),h.entry a (h.user ha),hV a ha]

theorem Tree.relocate (h : Tree top kend W out m d E V)
    (hcells : ∀ f x, W f = some x → x.inTree → m'.cells f = m.cells f)
    (hplace : ∀ f x, x.inTree → (W' f = some x ↔ W f = some x))
    (hfree : ∀ f, f ∈ m'.free ↔ W' f = some .free) (hnodup : m'.free.Nodup)
    (hrange : ∀ f, W' f ≠ none → kend ≤ f ∧ f*PGSIZE < PHYSTOP)
    (hout : ∀ f, W' f = none → m'.cells f = out' f) : Tree top kend W' out' m' d E V := by
  refine h.reshape (fun f x hf hx => hcells f x hf ?_) hplace hfree hnodup hrange hout fun a ha => ?_
  · rcases hx with rfl | ⟨i,rfl⟩ <;> exact trivial
  · rw [h.contents ha]
    exact Option.map_congr fun w hw => (hcells _ _ (h.page ha hw) trivial).symm

theorem Tree.unchanged (h : Tree top kend W out m d E V)
    (hcells : ∀ f x, W f = some x → x.inTree → m'.cells f = m.cells f) (ha : a < userPages) :
    PageTable.entry m' d a = PageTable.entry m d a ∧ PageTable.view m' d a = PageTable.view m d a := by
  have hroot : m'.cells d = m.cells d := hcells d .root h.root trivial
  have hentry : PageTable.entry m' d a = PageTable.entry m d a := by
    unfold PageTable.entry
    rw [pte_congr hroot fun hp => hcells _ _ (h.table (by have := h.user ha; omega) hp) trivial]
  refine ⟨hentry,?_⟩
  rw [view_eq,view_eq,hentry,h.entry a (h.user ha)]
  exact Option.map_congr fun w hw => hcells _ _ (h.page ha hw) trivial

theorem Tree.store (h : Tree top kend W out m d E V) (hf : W f = some (.page a)) (c : ℕ → ℕ) :
    Tree top kend W out {m with cells := update m.cells f c} d E (update V a (some c)) := by
  obtain ⟨ha,w,hw,rfl⟩ := h.of_page hf
  refine h.reshape (fun g x hg hx => update_of_ne (ne_of_place hg hf ?_) ..) (fun _ _ _ => Iff.rfl)
    (fun g => h.mem_free) h.nodup h.range (fun g hg => ?_) fun b hb => ?_
  · rcases hx with rfl | ⟨i,rfl⟩ <;> nofun
  · exact (update_of_ne (fun he => by simp [he,hf] at hg) ..).trans (h.out g hg)
  · by_cases hba : b = a
    · subst hba
      simp [hw]
    · rw [update_of_ne hba,h.contents hb]
      refine Option.map_congr fun v hv => (update_of_ne ?_ ..).symm
      exact ne_of_place (h.page hb hv) hf fun he => hba (Place.page.inj he)

theorem kalloc_free (hr : kalloc m = some (f,m')) : m.free = f::m'.free ∧ m'.cells = m.cells := by
  unfold kalloc at hr
  split at hr
  · cases hr
  · rename_i fs hfree
    cases hr
    exact ⟨hfree,rfl⟩

theorem Tree.moveOutside (h : Tree top kend W out m d E V) {b : ℕ} {x x₀ : Place} (hb : W b = some x₀)
    (hx₀ : ¬x₀.inTree) (hx : ¬x.inTree) (hcells : ∀ f, f ≠ b → m'.cells f = m.cells f)
    (hfree : ∀ f, f ∈ m'.free ↔ f = b ∧ x = .free ∨ f ∈ m.free ∧ f ≠ b) (hnodup : m'.free.Nodup) :
    Tree top kend (update W b (some x)) out m' d E V := by
  refine h.relocate (fun f y hy ht => hcells f ?_) (fun f y ht => ?_) (fun f => ?_) hnodup
    (fun f hf => ?_) (fun f hf => ?_)
  · rintro rfl
    rw [hb] at hy
    cases hy
    exact hx₀ ht
  · by_cases hfb : f = b
    · subst hfb
      rw [update_self,hb]
      constructor
      · rintro ⟨⟩
        exact absurd ht hx
      · rintro ⟨⟩
        exact absurd ht hx₀
    · rw [update_of_ne hfb]
  · rw [hfree,h.mem_free]
    by_cases hfb : f = b
    · simp [hfb]
    · simp [hfb]
  · by_cases hfb : f = b
    · subst hfb
      exact h.range f (by simp [hb])
    · rw [update_of_ne hfb] at hf
      exact h.range f hf
  · have hfb : f ≠ b := by
      rintro rfl
      simp at hf
    rw [update_of_ne hfb] at hf
    rw [hcells f hfb]
    exact h.out f hf

theorem Tree.kalloc (h : Tree top kend W out m d E V) (hr : PageTable.kalloc m = some (f,m')) :
    W f = some .free ∧ Tree top kend (update W f (some .hand)) out m' d E V := by
  obtain ⟨hfree,hcells⟩ := kalloc_free hr
  have hnodup := h.nodup
  rw [hfree,List.nodup_cons] at hnodup
  have hf : W f = some .free := h.mem_free.mp (by simp [hfree])
  refine ⟨hf,h.moveOutside hf id id (fun g _ => by rw [hcells]) (fun g => ?_) hnodup.2⟩
  rw [hfree,List.mem_cons]
  constructor
  · exact fun hg => .inr ⟨.inr hg,fun he => hnodup.1 (he ▸ hg)⟩
  · rintro (⟨-,⟨⟩⟩ | ⟨hg,hne⟩)
    exact hg.resolve_left hne

theorem Tree.write (h : Tree top kend W out m d E V) (hf : W f = some .hand) (c : ℕ → ℕ) :
    Tree top kend W out {m with cells := update m.cells f c} d E V := by
  have hmove : Tree top kend (update W f (some .hand)) out {m with cells := update m.cells f c} d E V := by
    refine h.moveOutside hf id id (fun g hg => update_of_ne hg ..) (fun g => ?_) h.nodup
    constructor
    · exact fun hg => .inr ⟨hg,ne_of_place (h.mem_free.mp hg) hf nofun⟩
    · rintro (⟨-,⟨⟩⟩ | ⟨hg,-⟩)
      exact hg
  rwa [← hf,Function.update_eq_self] at hmove

theorem Tree.kfree_eq (h : Tree top kend W out m d E V) (hf : W f ≠ none) (m' : Mem) :
    PageTable.kfree kend m' f = .ok ⟨f::m'.free,update m'.cells f fun _ => 0x01010101⟩ := by
  obtain ⟨h1,h2⟩ := h.range f hf
  unfold PageTable.kfree
  rw [if_neg (by omega)]
  rfl

theorem Tree.kfree (h : Tree top kend W out m d E V) (hf : W f = some .hand) :
    ∃ m', PageTable.kfree kend m f = .ok m' ∧ Tree top kend (update W f (some .free)) out m' d E V := by
  have hnot : f ∉ m.free := fun hg => ne_of_place (h.mem_free.mp hg) hf nofun rfl
  refine ⟨_,h.kfree_eq (by simp [hf]) m,h.moveOutside hf id id (fun g hg => update_of_ne hg ..)
    (fun g => ?_) (List.nodup_cons.mpr ⟨hnot,h.nodup⟩)⟩
  rw [List.mem_cons]
  constructor
  · rintro (rfl | hg)
    · exact .inl ⟨rfl,rfl⟩
    · exact .inr ⟨hg,fun he => hnot (he ▸ hg)⟩
  · rintro (⟨rfl,-⟩ | ⟨hg,-⟩)
    · exact .inl rfl
    · exact .inr hg

/-! ## Changes of the tree -/

def tableOf (m : Mem) (d a : ℕ) : ℕ := frameOf (m.cells d (a/1024))

theorem Tree.linkTable {i t : ℕ} (h : Tree top kend W out m d E V) (hi : i < top)
    (hpde : present (m.cells d i) = false) (ht : W t = some .hand) (hzero : m.cells t = fun _ => 0) :
    Tree top kend (update W t (some (.table i))) out (m.set d i (t*4096+7)) d E V := by
  have htd : t ≠ d := ne_of_place ht h.root nofun
  have hroot : ∀ j, (m.set d i (t*4096+7)).cells d j = if j = i then t*4096+7 else m.cells d j := by
    intro j
    simp only [Mem.set,update_self,Function.update_apply]
  have hcell : ∀ f, f ≠ d → (m.set d i (t*4096+7)).cells f = m.cells f := fun f hf => update_of_ne hf ..
  have hentry : ∀ a < 1024*top, PageTable.entry (m.set d i (t*4096+7)) d a = PageTable.entry m d a := by
    intro a ha
    unfold PageTable.entry pte
    rw [hroot]
    by_cases hai : a/1024 = i
    · rw [if_pos hai,if_pos (present_entry rfl),frameOf_entry (by decide),hcell t htd,hzero,hai,hpde]
      rfl
    · rw [if_neg hai]
      split_ifs with hp
      · rw [hcell _ (ne_of_place (h.table (by omega) hp) h.root nofun)]
      · rfl
  refine ⟨h.kernel,h.tables,fun f x hx => ?_,h.nodup,fun f hf => ?_,fun f hf => ?_,
    fun a ha => (hentry a ha).trans (h.entry a ha),fun a ha => ?_⟩
  · by_cases hft : f = t
    · subst hft
      rw [update_self,Option.some_inj]
      constructor
      · intro hx'
        cases x with
        | root => exact absurd hx' htd
        | table j =>
          obtain ⟨hj,hp,hf⟩ := hx'
          rw [hroot] at hp hf
          split_ifs at hp hf with hji
          · rw [hji]
          · exact absurd ((h.has f (.table j) nofun).mp ⟨hj,hp,hf⟩) (by simp [ht])
        | page a =>
          obtain ⟨ha,w,hw,hf⟩ := hx'
          rw [hentry a (h.user ha)] at hw
          exact absurd ((h.has f (.page a) nofun).mp ⟨ha,w,hw,hf⟩) (by simp [ht])
        | free => exact absurd (h.mem_free.mp hx') (by simp [ht])
        | hand => exact absurd rfl hx
      · rintro rfl
        refine ⟨hi,?_,?_⟩
        · rw [hroot,if_pos rfl]
          exact present_entry rfl
        · rw [hroot,if_pos rfl,frameOf_entry (by decide)]
    · rw [update_of_ne hft,← h.has f x hx]
      cases x with
      | root | free => rfl
      | table j =>
        by_cases hji : j = i
        · subst hji
          simp only [Has,hroot,if_pos,frameOf_entry (show 7 < 4096 by decide),hpde]
          exact iff_of_false (fun hf => hft hf.2.2.symm) fun hf => Bool.false_ne_true hf.2.1
        · simp only [Has,hroot,if_neg hji]
      | page a =>
        refine and_congr_right fun ha => ?_
        rw [hentry a (h.user ha)]
      | hand => exact absurd rfl hx
  · by_cases hft : f = t
    · exact hft ▸ h.range t (by simp [ht])
    · rw [update_of_ne hft] at hf
      exact h.range f hf
  · have hft : f ≠ t := by
      rintro rfl
      simp at hf
    rw [update_of_ne hft] at hf
    rw [hcell f (by rintro rfl; simp [h.root] at hf)]
    exact h.out f hf
  · rw [view_eq,hentry a (h.user ha),h.entry a (h.user ha),h.contents ha]
    cases hw : E a with
    | none => rfl
    | some => exact congrArg some (hcell _ (ne_of_place (h.page ha hw) h.root nofun))

theorem Tree.pte_set (h : Tree top kend W out m d E V) (ha : a < 1024*top)
    (hpde : present (m.cells d (a/1024))) (hroot : m'.cells d = m.cells d)
    (htable : m'.cells (tableOf m d a) = update (m.cells (tableOf m d a)) (a%1024) w)
    (hother : ∀ f i, W f = some (.table i) → f ≠ tableOf m d a → m'.cells f = m.cells f)
    {c : ℕ} (hc : c < 1024*top) : pte m' d c = if c = a then some w else pte m d c := by
  have htab := h.table (by omega) hpde
  unfold pte
  rw [hroot]
  by_cases hp : present (m.cells d (c/1024)) = true
  · rw [if_pos hp,if_pos hp]
    by_cases hdiv : c/1024 = a/1024
    · rw [hdiv,← tableOf,htable,Function.update_apply]
      have hmod : c%1024 = a%1024 ↔ c = a := by omega
      simp only [hmod]
      split_ifs <;> rfl
    · have hne : c ≠ a := fun he => hdiv (by rw [he])
      have hctab := h.table (by omega) hp
      rw [if_neg hne,hother _ _ hctab (ne_of_place hctab htab fun he => hdiv (Place.table.inj he))]
  · have hne : c ≠ a := by
      rintro rfl
      exact hp hpde
    rw [if_neg hp,if_neg hp,if_neg hne]

theorem Tree.setEntry (h : Tree top kend W out m d E V) (W' : ℕ → Option Place) (m' : Mem)
    (V' : ℕ → Option (ℕ → ℕ)) (ha : a < 1024*top) (hpde : present (m.cells d (a/1024)))
    (htable : m'.cells (tableOf m d a) = update (m.cells (tableOf m d a)) (a%1024) w)
    (hcells : ∀ f x, W f = some x → x = .root ∨ (∃ i, x = .table i) → f ≠ tableOf m d a →
      m'.cells f = m.cells f)
    (hplace : ∀ f x, x = .root ∨ (∃ i, x = .table i) → (W' f = some x ↔ W f = some x))
    (hpage : ∀ f c, (c < userPages ∧ ∃ v, update E a (if present w then some w else none) c = some v ∧
      frameOf v = f) ↔ W' f = some (.page c))
    (hfree : ∀ f, f ∈ m'.free ↔ W' f = some .free) (hnodup : m'.free.Nodup)
    (hdom : ∀ f, W' f = none ↔ W f = none) (hout : ∀ f, W f = none → m'.cells f = m.cells f)
    (hV : ∀ c < userPages, V' c = (update E a (if present w then some w else none) c).map fun v =>
      m'.cells (frameOf v)) :
    Tree top kend W' out m' d (update E a (if present w then some w else none)) V' := by
  have htab := h.table (by omega : a/1024 < top) hpde
  have hroot : m'.cells d = m.cells d :=
    hcells d .root h.root (.inl rfl) (ne_of_place h.root htab nofun)
  have hentry : ∀ c < 1024*top, PageTable.entry m' d c =
      update E a (if present w then some w else none) c := by
    intro c hc
    unfold PageTable.entry
    rw [h.pte_set ha hpde hroot htable (fun f i hf hne => hcells f _ hf (.inr ⟨i,rfl⟩) hne) hc,
      Function.update_apply]
    split_ifs with hca hw
    · simp [Option.filter,hw]
    · simp [Option.filter,hw]
    · exact h.entry c hc
  refine ⟨h.kernel,h.tables,fun f x hx => ?_,hnodup,fun f hf => h.range f fun hn => hf ((hdom f).mpr hn),
    fun f hf => ?_,hentry,fun c hc => ?_⟩
  · cases x with
    | root => exact (h.has f .root nofun).trans (hplace f .root (.inl rfl)).symm
    | table i =>
      rw [hplace f (.table i) (.inr ⟨i,rfl⟩),← h.has f _ hx]
      simp only [Has,hroot]
    | page c =>
      rw [← hpage]
      refine and_congr_right fun hc => ?_
      rw [hentry c (h.user hc)]
    | free => exact hfree f
    | hand => exact absurd rfl hx
  · have hf := (hdom f).mp hf
    exact (hout f hf).trans (h.out f hf)
  · rw [view_eq,hentry c (h.user hc),hV c hc]

theorem Tree.mapPage (h : Tree top kend W out m d E V) (hf : W f = some .hand)
    (ha : a < userPages) (hpde : present (m.cells d (a/1024))) (hE : E a = none) (hx : x < 4096)
    (hodd : x%2 = 1) :
    Tree top kend (update W f (some (.page a))) out (m.set (tableOf m d a) (a%1024) (f*4096+x)) d
      (update E a (some (f*4096+x))) (update V a (some (m.cells f))) := by
  have htab : W (tableOf m d a) = some (.table (a/1024)) :=
    h.table (by have := h.user ha; omega) hpde
  have hcell : ∀ g, g ≠ tableOf m d a →
      (m.set (tableOf m d a) (a%1024) (f*4096+x)).cells g = m.cells g := fun g hg => update_of_ne hg ..
  have hpresent : (if present (f*4096+x) = true then some (f*4096+x) else none) = some (f*4096+x) :=
    if_pos (present_entry hodd)
  have hset := h.setEntry (update W f (some (.page a))) (m.set (tableOf m d a) (a%1024) (f*4096+x))
    (update V a (some (m.cells f))) (h.user ha) hpde
    (update_self ..) (fun g _ _ _ hg => hcell g hg) (fun g y hy => ?_) (fun g c => ?_) (fun g => ?_)
    h.nodup (fun g => ?_) (fun g hg => ?_) (fun c hc => ?_)
  · rwa [hpresent] at hset
  · by_cases hgf : g = f
    · subst hgf
      rw [update_self,hf]
      rcases hy with rfl | ⟨i,rfl⟩ <;> simp
    · rw [update_of_ne hgf]
  · rw [hpresent]
    by_cases hca : c = a
    · subst hca
      by_cases hgf : g = f
      · simp [hgf,ha,frameOf_entry hx]
      · have hno : W g ≠ some (.page c) := fun hg => by
          obtain ⟨-,w,hw,-⟩ := h.of_page hg
          simp [hE] at hw
        simp [Ne.symm hgf,update_of_ne hgf,hno,frameOf_entry hx]
    · rw [update_of_ne hca]
      by_cases hgf : g = f
      · subst hgf
        rw [update_self]
        refine iff_of_false (fun ⟨hc,v,hv,hvg⟩ => ?_) fun he => hca ?_
        · exact ne_of_place (h.page hc hv) hf nofun hvg
        · cases he
          rfl
      · rw [update_of_ne hgf]
        exact ⟨fun ⟨hc,v,hv,hvg⟩ => hvg ▸ h.page hc hv,h.of_page⟩
  · rw [show (m.set (tableOf m d a) (a%1024) (f*4096+x)).free = m.free from rfl,h.mem_free]
    by_cases hgf : g = f
    · simp [hgf,hf]
    · rw [update_of_ne hgf]
  · by_cases hgf : g = f
    · simp [hgf,hf]
    · rw [update_of_ne hgf]
  · exact hcell g fun he => by simp [he,htab] at hg
  · rw [hpresent]
    by_cases hca : c = a
    · subst hca
      rw [update_self,update_self,Option.map_some,frameOf_entry hx,hcell f (ne_of_place hf htab nofun)]
    · rw [update_of_ne hca,update_of_ne hca,h.contents hc]
      refine Option.map_congr fun v hv => (hcell _ ?_).symm
      exact ne_of_place (h.page hc hv) htab nofun

theorem Tree.mapKernel (h : Tree top kend W out m d E V) (ha : userPages ≤ a)
    (hat : a < 1024*top) (hpde : present (m.cells d (a/1024))) (hw : present w) :
    Tree top kend W out (m.set (tableOf m d a) (a%1024) w) d (update E a (some w)) V := by
  have htab : W (tableOf m d a) = some (.table (a/1024)) := h.table (by omega) hpde
  have hcell : ∀ g, g ≠ tableOf m d a → (m.set (tableOf m d a) (a%1024) w).cells g = m.cells g :=
    fun g hg => update_of_ne hg ..
  have hset := h.setEntry W (m.set (tableOf m d a) (a%1024) w) V hat hpde
    (update_self ..) (fun g _ _ _ hg => hcell g hg) (fun _ _ _ => Iff.rfl) (fun g c => ?_)
    (fun g => h.mem_free) h.nodup (fun _ => Iff.rfl) (fun g hg => ?_) (fun c hc => ?_)
  · rwa [if_pos hw] at hset
  · constructor
    · rintro ⟨hc,v,hv,rfl⟩
      rw [update_of_ne (by omega)] at hv
      exact h.page hc hv
    · intro hg
      obtain ⟨hc,v,hv,hvg⟩ := h.of_page hg
      exact ⟨hc,v,by rwa [update_of_ne (by omega)],hvg⟩
  · exact hcell g fun he => by simp [he,htab] at hg
  · rw [update_of_ne (by omega),h.contents hc]
    exact Option.map_congr fun v hv => (hcell _ (ne_of_place (h.page hc hv) htab nofun)).symm

/-- The frame of page `a` is freed and its entry cleared. -/
theorem Tree.unmapPage (h : Tree top kend W out m d E V) (ha : a < userPages)
    (hpde : present (m.cells d (a/1024))) (hw : E a = some w) :
    ∃ m', PageTable.kfree kend m (frameOf w) = .ok m' ∧ m'.free = frameOf w::m.free ∧
      (∀ c < 1024*top, pte (m'.set (tableOf m d a) (a%1024) 0) d c =
        if c = a then some 0 else pte m d c) ∧
      Tree top kend (update W (frameOf w) (some .free)) out (m'.set (tableOf m d a) (a%1024) 0) d
        (update E a none) (update V a none) := by
  have htab : W (tableOf m d a) = some (.table (a/1024)) :=
    h.table (by have := h.user ha; omega) hpde
  have hf := h.page ha hw
  set f := frameOf w with hfw
  have htf : tableOf m d a ≠ f := ne_of_place htab hf nofun
  have hnot : f ∉ m.free := fun hg => ne_of_place (h.mem_free.mp hg) hf nofun rfl
  refine ⟨_,h.kfree_eq (by simp [hf]) m,rfl,?_⟩
  set m' : Mem := Mem.set ⟨f::m.free,update m.cells f fun _ => 0x01010101⟩ (tableOf m d a) (a%1024) 0
    with hm'
  have hcell : ∀ g, g ≠ tableOf m d a → g ≠ f → m'.cells g = m.cells g := by
    intro g hg hgf
    simp only [hm',Mem.set,update_of_ne hg,update_of_ne hgf]
  have htable : m'.cells (tableOf m d a) = update (m.cells (tableOf m d a)) (a%1024) 0 := by
    simp only [hm',Mem.set,update_self,update_of_ne htf]
  have hroot := hcell d (ne_of_place h.root htab nofun) (ne_of_place h.root hf nofun)
  refine ⟨fun c hc => h.pte_set (h.user ha) hpde hroot htable (fun g i hg hgt =>
    hcell g hgt (ne_of_place hg hf nofun)) hc,?_⟩
  have hset := h.setEntry (update W f (some .free)) m' (update V a none) (h.user ha) hpde htable
    (fun g y hg hy hgt => hcell g hgt (ne_of_place hg hf ?_)) (fun g y hy => ?_) (fun g c => ?_)
    (fun g => ?_) (List.nodup_cons.mpr ⟨hnot,h.nodup⟩) (fun g => ?_) (fun g hg => ?_) (fun c hc => ?_)
  · exact hset
  · rcases hy with rfl | ⟨i,rfl⟩ <;> nofun
  · by_cases hgf : g = f
    · subst hgf
      rw [update_self,hf]
      rcases hy with rfl | ⟨i,rfl⟩ <;> simp
    · rw [update_of_ne hgf]
  · change (c < userPages ∧ ∃ v, update E a none c = some v ∧ frameOf v = g) ↔ _
    by_cases hca : c = a
    · subst hca
      refine iff_of_false (by simp) fun hg => ?_
      by_cases hgf : g = f
      · simp [hgf] at hg
      · rw [update_of_ne hgf] at hg
        obtain ⟨-,v,hv,hvg⟩ := h.of_page hg
        rw [hw] at hv
        cases hv
        exact hgf hvg.symm
    · rw [update_of_ne hca]
      by_cases hgf : g = f
      · subst hgf
        rw [update_self]
        refine iff_of_false (fun ⟨hc,v,hv,hvg⟩ => ?_) (by simp)
        exact ne_of_place (h.page hc hv) hf (fun he => hca (Place.page.inj he)) hvg
      · rw [update_of_ne hgf]
        exact ⟨fun ⟨hc,v,hv,hvg⟩ => hvg ▸ h.page hc hv,h.of_page⟩
  · rw [show m'.free = f::m.free from rfl,List.mem_cons,h.mem_free]
    by_cases hgf : g = f
    · simp [hgf]
    · simp [hgf]
  · by_cases hgf : g = f
    · simp [hgf,hf]
    · rw [update_of_ne hgf]
  · exact hcell g (fun he => by simp [he,htab] at hg) fun he => by simp [he,hf] at hg
  · change _ = (update E a none c).map _
    by_cases hca : c = a
    · subst hca
      rw [update_self,update_self]
      rfl
    · rw [update_of_ne hca,update_of_ne hca,h.contents hc]
      refine Option.map_congr fun v hv => (hcell _ ?_ ?_).symm
      · exact ne_of_place (h.page hc hv) htab nofun
      · exact ne_of_place (h.page hc hv) hf fun he => hca (Place.page.inj he)

end
end Xv6.PageTable
