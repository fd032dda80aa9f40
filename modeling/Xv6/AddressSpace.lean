import Xv6.PageAlloc

/-!
# Address spaces

The user part of a page table stands for an address space, which gives every page its contents or
nothing. `Space m d V hand` says that the tree of frames below the directory `d` stands for `V`,
with every frame in at most one place: the directory, a table, a page, the free list or the hand of
the running code. It is the tree of the tables below `KERNBASE`, and `allocuvm` and `growproc` are
read off what they do to trees.
-/
namespace Xv6.PageTable

def Owns (m : Mem) (d : ℕ) (hand : Option ℕ) (f : ℕ) : Place → Prop
  | .root => f = d
  | .table i => i < 512 ∧ present (m.cells d i) ∧ frameOf (m.cells d i) = f
  | .page a => a < userPages ∧ ∃ w, pte m d a = some w ∧ present w ∧ frameOf w = f
  | .free => f ∈ m.free
  | .hand => hand = some f

structure Space (kend : ℕ) (m : Mem) (d : ℕ) (V : ℕ → Option (ℕ → ℕ)) (hand : Option ℕ) : Prop where
  kernel : 0 < kend
  unique : ∀ {f x y}, Owns m d hand f x → Owns m d hand f y → x = y
  nodup : m.free.Nodup
  range : ∀ {f x}, Owns m d hand f x → kend ≤ f ∧ f*PGSIZE < PHYSTOP
  view : ∀ a < userPages, view m d a = V a

section
variable {kend d : ℕ} {W : ℕ → Option Place} {out : ℕ → ℕ → ℕ} {m m' : Mem} {E : ℕ → Option ℕ}
  {V V' : ℕ → Option (ℕ → ℕ)}

theorem owns_iff (f : ℕ) (x : Place) : Owns m d none f x ↔ Has 512 m d f x := by
  cases x with
  | root | table | free => exact Iff.rfl
  | page =>
    refine and_congr_right fun _ => exists_congr fun w => ?_
    rw [entry,Option.filter_eq_some_iff,and_assoc]
  | hand => simp [Owns,Has]

theorem Space.tree (h : Space kend m d V none) : ∃ W, (∀ f, W f ≠ some .hand) ∧
    Tree 512 kend W m.cells m d (entry m d) V := by
  classical
  let W : ℕ → Option Place := fun f =>
    if hx : ∃ x, Owns m d none f x then some hx.choose else none
  have hW : ∀ f x, Owns m d none f x ↔ W f = some x := by
    intro f x
    by_cases hx : ∃ y, Owns m d none f y
    · simp only [W,dif_pos hx,Option.some_inj]
      exact ⟨h.unique hx.choose_spec,fun he => he ▸ hx.choose_spec⟩
    · simp only [W,dif_neg hx]
      exact iff_of_false (fun hf => hx ⟨x,hf⟩) nofun
  refine ⟨W,fun f hf => ?_,h.kernel,by decide,fun f x _ => (owns_iff f x).symm.trans (hW f x),h.nodup,
    fun f hf => ?_,fun _ _ => rfl,fun _ _ => rfl,h.view⟩
  · have := (hW f .hand).mpr hf
    cases this
  · obtain ⟨x,hx⟩ := Option.ne_none_iff_exists'.mp hf
    exact h.range ((hW f x).mpr hx)

theorem Tree.place_iff (h : Tree 512 kend W out m d E V) (hno : ∀ f, W f ≠ some .hand) (f : ℕ) (x : Place) :
    Owns m d none f x ↔ W f = some x := by
  by_cases hx : x = .hand
  · subst hx
    exact iff_of_false nofun (hno f)
  · exact (owns_iff f x).trans (h.has f x hx)

theorem Tree.space (h : Tree 512 kend W out m d E V) (hno : ∀ f, W f ≠ some .hand) :
    Space kend m d (PageTable.view m d) none := by
  have hiff := h.place_iff hno
  refine ⟨h.kernel,fun hx hy => ?_,h.nodup,fun hx => h.range _ ?_,fun _ _ => rfl⟩
  · exact Option.some_injective _ (((hiff _ _).mp hx).symm.trans ((hiff _ _).mp hy))
  · rw [(hiff _ _).mp hx]
    nofun

theorem freed_no_hand {P : ℕ → Prop} [DecidablePred P] (hno : ∀ f, W f ≠ some .hand) (f : ℕ) :
    freed P W f ≠ some .hand := by
  unfold freed
  split
  · split_ifs <;> nofun
  · exact hno f

/-! ## allocuvm -/

/-- `allocuvm` adds empty pages on frames of their own from the old size up to the new one, or it
leaves all pages as they are and gives back every frame that has not become a table. -/
theorem allocuvm_atomic {oldsz newsz : ℕ} (h : Space kend m d (view m d) none)
    (hold : oldsz ≤ newsz)
    (hnone : ∀ a < userPages, PGROUNDUP oldsz ≤ 4096*a → view m d a = none) :
    ∃ r m', allocuvm kend m d oldsz newsz = .ok (r,m') ∧ Space kend m' d (view m' d) none ∧
      (r = 0 ∨ r = newsz) ∧
      (r = 0 → (∀ a < userPages, entry m' d a = entry m d a ∧
          view m' d a = view m d a) ∧
        ∀ f ∈ m.free, f ∈ m'.free ∨ ∃ i, Owns m' d none f (.table i)) ∧
      (r = newsz → (∀ a < userPages, ¬(pages oldsz ≤ a ∧ 4096*a < newsz) →
          entry m' d a = entry m d a ∧ view m' d a = view m d a) ∧
        (∀ a < userPages, pages oldsz ≤ a → 4096*a < newsz → view m' d a = some (fun _ => 0) ∧
          ∃ f ∈ m.free, entry m' d a = some (f*4096+7)) ∧
        ∀ a b f, Owns m' d none f (.page a) → Owns m' d none f (.page b) → a = b) := by
  have hpos : 0 < KERNBASE := by decide
  obtain ⟨W,hno,ht⟩ := h.tree
  by_cases htop : newsz ≥ KERNBASE
  · refine ⟨0,m,if_pos htop,h,.inl rfl,fun _ => ⟨fun _ _ => ⟨rfl,rfl⟩,fun _ hf => .inl hf⟩,fun hr => ?_⟩
    omega
  have hnone' : ∀ a, pages oldsz ≤ a → a < userPages → entry m d a = none := by
    intro a ha hau
    have hview := hnone a hau (by rw [pgroundup_eq (by omega)]; omega)
    rwa [view_eq,Option.map_eq_none_iff] at hview
  obtain ⟨r,m',hm',⟨-,hres⟩ | ⟨hge,-⟩⟩ := ht.allocuvm hold hnone'
  · rcases hres with ⟨rfl,W',E',V',hadd,h'⟩ | ⟨rfl,⟨W',hgrown,h'⟩,-⟩
    · have hno' := hadd.places.no_hand hno
      have hpages : ∀ a, pages oldsz ≤ a ∧ a < pages r ↔ pages oldsz ≤ a ∧ 4096*a < r := fun a => by
        rw [pages,pages]
        omega
      have hrest : ∀ a < userPages, ¬(pages oldsz ≤ a ∧ 4096*a < r) →
          entry m' d a = entry m d a ∧ view m' d a = view m d a := by
        intro a ha hin
        rw [← hpages] at hin
        exact ⟨(h'.entry a ha).trans (hadd.rest a hin).1,(h'.view a ha).trans (hadd.rest a hin).2⟩
      have hspace := h'.space hno'
      refine ⟨r,m',hm',hspace,.inr rfl,fun hr => ⟨fun a ha => hrest a ha (by omega),fun f hf => ?_⟩,
        fun _ => ⟨hrest,fun a ha hla hlt => ?_,fun a b f hfa hfb => Place.page.inj (hspace.unique hfa hfb)⟩⟩
      · rcases hadd.places f with hf' | ⟨-,⟨i,-,hi⟩ | ⟨a,ha,-⟩⟩
        · exact .inl (h'.mem_free.mpr (hf'.trans (ht.mem_free.mp hf)))
        · exact .inr ⟨i,(h'.place_iff hno' f _).mpr hi⟩
        · rw [hpages,hr] at ha
          omega
      · obtain ⟨f,hf,hE,hV⟩ := hadd.fresh a hla ((hpages a).mpr ⟨hla,hlt⟩).2
        exact ⟨(h'.view a ha).trans hV,f,ht.mem_free.mpr hf,(h'.entry a ha).trans hE⟩
    · have hno' := hgrown.no_hand hno
      have hspace := h'.space hno'
      have hsame : ∀ a < userPages, entry m' d a = entry m d a ∧
          view m' d a = view m d a := fun a ha => ⟨h'.entry a ha,h'.view a ha⟩
      refine ⟨0,m',hm',hspace,.inl rfl,fun _ => ⟨hsame,fun f hf => ?_⟩,fun hr => ⟨fun a ha _ => hsame a ha,
        fun a _ _ _ => by omega,fun a b f hfa hfb => Place.page.inj (hspace.unique hfa hfb)⟩⟩
      rcases hgrown f with hf' | ⟨-,⟨i,-,hi⟩ | ⟨a,ha,-⟩⟩
      · exact .inl (h'.mem_free.mpr (hf'.trans (ht.mem_free.mp hf)))
      · exact .inr ⟨i,(h'.place_iff hno' f _).mpr hi⟩
      · exact ha.elim
  · omega

/-! ## growproc -/

theorem addInt_eq {sz k : ℕ} {n : ℤ} (h : (sz : ℤ)+n = k) (hk : k < 2^32) : addInt sz n = k := by
  rw [addInt,h,Int.emod_eq_of_lt (by omega) (by exact_mod_cast hk)]
  rfl

/-- A process with one page, in frame 12. The directory is in frame 10, the table in frame 11, and
frame 13 is free. -/
def onePage : Mem where
  free := [13]
  cells f i :=
    if f = 10 ∧ i = 0 then 11*4096+7
    else if f = 11 ∧ i = 0 then 12*4096+7
    else if f = 12 then 5
    else 0

theorem onePage_pte (a : ℕ) : pte onePage 10 a =
    if a/1024 = 0 then some (if a = 0 then 12*4096+7 else 0) else none := by
  have hroot : ∀ i, onePage.cells 10 i = if i = 0 then 11*4096+7 else 0 := by
    intro i
    by_cases hi : i = 0
    · simp [onePage,hi]
    · simp [onePage,hi]
  unfold pte
  rw [hroot]
  by_cases ha : a/1024 = 0
  · have hmod : a%1024 = 0 ↔ a = 0 := by omega
    rw [if_pos ha,if_pos ha,if_pos (present_entry rfl),frameOf_entry (by decide)]
    simp [onePage,hmod]
  · rw [if_neg ha,if_neg ha]
    rfl

def onePagePlaces : List (ℕ×Place) := [(10,.root),(11,.table 0),(12,.page 0),(13,.free)]

theorem onePage_owns {f : ℕ} {x : Place} (h : Owns onePage 10 none f x) : (f,x) ∈ onePagePlaces := by
  cases x with
  | root =>
    obtain rfl : f = 10 := h
    decide
  | table i =>
    obtain ⟨-,hp,hf⟩ := h
    by_cases hi : i = 0
    · subst hi
      obtain rfl : 11 = f := hf
      decide
    · simp [onePage,hi,present] at hp
  | page =>
    obtain ⟨-,w,hw,hp,hf⟩ := h
    rw [onePage_pte] at hw
    split_ifs at hw with hdiv ha
    · cases hw
      subst ha
      obtain rfl : 12 = f := hf
      decide
    · cases hw
      cases hp
  | free =>
    obtain rfl := List.mem_singleton.mp h
    decide
  | hand => cases h

theorem onePage_space : Space 1 onePage 10 (PageTable.view onePage 10) none where
  kernel := Nat.one_pos
  unique := by
    intro f x y hx hy
    have hall : ∀ u ∈ onePagePlaces, ∀ v ∈ onePagePlaces, u.1 = v.1 → u = v := by decide
    exact congrArg Prod.snd (hall _ (onePage_owns hx) _ (onePage_owns hy) rfl)
  nodup := by decide
  range := by
    intro f x hx
    have hall : ∀ u ∈ onePagePlaces, 1 ≤ u.1 ∧ u.1*PGSIZE < PHYSTOP := by decide
    exact hall _ (onePage_owns hx)
  view _ _ := rfl

theorem onePage_mapped {a : ℕ} : view onePage 10 a ≠ none ↔ a < pages 4096 := by
  have hpages : pages 4096 = 1 := rfl
  rw [hpages,view,onePage_pte]
  by_cases ha : a = 0
  · subst ha
    exact iff_of_true nofun Nat.one_pos
  · refine iff_of_false (not_not.mpr ?_) (by omega)
    split_ifs
    · rfl
    · rfl

/-- Two more pages than there are frames: the one that was added is taken out again. -/
theorem onePage_refused : ∃ r m', allocuvm 1 onePage 10 4096 12288 = .ok (r,m') ∧
    Space 1 m' 10 (view m' 10) none ∧ (r = 0 ∨ r = 12288) ∧
    (r = 0 → (∀ a < userPages, entry m' 10 a = entry onePage 10 a ∧
        view m' 10 a = view onePage 10 a) ∧
      ∀ f ∈ onePage.free, f ∈ m'.free ∨ ∃ i, Owns m' 10 none f (.table i)) ∧
    (r = 12288 → (∀ a < userPages, ¬(pages 4096 ≤ a ∧ 4096*a < 12288) →
        entry m' 10 a = entry onePage 10 a ∧ view m' 10 a = view onePage 10 a) ∧
      (∀ a < userPages, pages 4096 ≤ a → 4096*a < 12288 → view m' 10 a = some (fun _ => 0) ∧
        ∃ f ∈ onePage.free, entry m' 10 a = some (f*4096+7)) ∧
      ∀ a b f, Owns m' 10 none f (.page a) → Owns m' 10 none f (.page b) → a = b) := by
  refine allocuvm_atomic onePage_space (by decide) fun a _ hle => ?_
  have hup : PGROUNDUP 4096 = 4096 := rfl
  by_contra hview
  have hlt : a < 1 := onePage_mapped.mp hview
  omega

end
end Xv6.PageTable
