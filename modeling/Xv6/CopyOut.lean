import Xv6.KernelMap
import Xv6.Words

/-!
# Copies to user addresses

`copyout` writes page by page to a directory that need not be the current one, and `uva2ka` finds
the frame of each. It reads the entry that `walkpgdir` returns without a look at the pointer: where
the page has no table it reads the word at address zero of the process that is running.
-/
namespace Xv6.PageTable
open Function (update update_self update_of_ne)
open Words List

def user (w : ℕ) : Bool := w/4%2 = 1

def nullWord (m : Mem) (cur : ℕ) : Except String ℕ :=
  match view m cur 0 with
  | none => .error "trap"
  | some c => .ok (c 0)

def P2V (a : ℕ) : ℕ := (a+KERNBASE)%2^32

def userFrame (w : ℕ) : Option ℕ :=
  if present w = false then none
  else if user w = false then none
  else if P2V (frameOf w*PGSIZE) = 0 then none
  else some (frameOf w)

def uva2ka (m : Mem) (cur pgdir uva : ℕ) : Except String (Option ℕ) :=
  match (walkpgdir m pgdir uva false).1 with
  | none => do
      let w ← nullWord m cur
      .ok (userFrame w)
  | some (t,i) => .ok (userFrame (m.cells t i))

variable (data : ℕ)

/-- `memmove` to byte `o` of a frame. The text of the kernel is read only, and there is no memory
from `PHYSTOP` on. -/
def Mem.move (m : Mem) (f o : ℕ) (bs : List ℕ) : Except String Mem :=
  if PHYSTOP ≤ f*PGSIZE ∨ EXTMEM ≤ f*PGSIZE ∧ f*PGSIZE < V2P data then .error "trap"
  else .ok {m with cells := update m.cells f (putBytes (m.cells f) o bs)}

def copyoutLoop (cur pgdir : ℕ) : ℕ → Mem → ℕ → List ℕ → Except String (Bool×Mem)
  | 0,m,_,_ => .ok (true,m)
  | fuel+1,m,va,buf =>
    if buf.length > 0 then do
      let va0 := PGROUNDDOWN va
      let pa0 ← uva2ka m cur pgdir va0
      match pa0 with
      | none => .ok (false,m)
      | some f => do
          let n := PGSIZE-(va-va0)
          let n := if n > buf.length then buf.length else n
          let m ← m.move data f (va-va0) (buf.take n)
          copyoutLoop cur pgdir fuel m ((va0+PGSIZE)%2^32) (buf.drop n)
    else .ok (true,m)

/-- The result is false for -1. Less than `2^32` bytes are on at most `2^20+1` pages. -/
def copyout (m : Mem) (cur pgdir va : ℕ) (buf : List ℕ) : Except String (Bool×Mem) :=
  copyoutLoop data cur pgdir (2^20+1) m va buf

def userPage (E : ℕ → Option ℕ) (a : ℕ) : Bool := (E a).any user

def byteIn (V : ℕ → Option (ℕ → ℕ)) (x : ℕ) : Option ℕ := (V (x/4096)).map fun c => byteAt c (x%4096)

/-- The first `n` bytes of `bs` have been written, from address `va` on. -/
structure Sent (E : ℕ → Option ℕ) (V : ℕ → Option (ℕ → ℕ)) (m : Mem) (va : ℕ) (bs : List ℕ) (n : ℕ)
    (V' : ℕ → Option (ℕ → ℕ)) (m' : Mem) : Prop where
  le : n ≤ bs.length
  user : ∀ x, va ≤ x → x < va+n → x < KERNBASE ∧ userPage E (x/4096) = true
  bytes : ∀ x, byteIn V' x = if va ≤ x ∧ x < va+n then some (bs.getD (x-va) 0%256) else byteIn V x
  free : m'.free = m.free
  rest : ∀ f, (∀ x w, va ≤ x → x < va+n → E (x/4096) = some w → frameOf w ≠ f) → m'.cells f = m.cells f

section
variable {kend data d va a o n f cur fuel : ℕ} {D : ℕ → Prop} {W : ℕ → Option Place}
  {out : ℕ → ℕ → ℕ} {m m' m₁ : Mem} {E : ℕ → Option ℕ} {V V' V₁ : ℕ → Option (ℕ → ℕ)} {bs : List ℕ}

theorem Sent.refl (E : ℕ → Option ℕ) (V : ℕ → Option (ℕ → ℕ)) (m : Mem) (va : ℕ) (bs : List ℕ) :
    Sent E V m va bs 0 V m where
  le := Nat.zero_le _
  user x h1 h2 := by omega
  bytes x := (if_neg (by omega)).symm
  free := rfl
  rest _ _ := rfl

theorem byteIn_update {c : ℕ → ℕ} (hc : V a = some c) (hlen : o+bs.length ≤ 4096)
    (x : ℕ) : byteIn (update V a (some (putBytes c o bs))) x =
      if 4096*a+o ≤ x ∧ x < 4096*a+o+bs.length then some (bs.getD (x-(4096*a+o)) 0%256) else byteIn V x := by
  unfold byteIn
  by_cases ha : x/4096 = a
  · rw [ha,update_self,hc,Option.map_some,Option.map_some,byteAt_putBytes]
    by_cases hin : o ≤ x%4096 ∧ x%4096 < o+bs.length
    · rw [if_pos hin,if_pos (by omega),show x%4096-o = x-(4096*a+o) by omega]
    · rw [if_neg hin,if_neg (by omega)]
  · rw [update_of_ne ha,if_neg]
    rintro ⟨h1,h2⟩
    exact ha (by omega)

theorem Sent.next {k va' : ℕ} (h : Sent E V m va (bs.take n) n V₁ m₁)
    (h' : Sent E V₁ m₁ va' (bs.drop n) k V' m') (hva : va' = va+n ∨ k = 0) :
    Sent E V m va bs (n+k) V' m' where
  le := by
    have h1 := h.le
    have h2 := h'.le
    rw [length_take] at h1
    rw [length_drop] at h2
    omega
  user x h1 h2 := by
    by_cases hx : x < va+n
    · exact h.user x h1 hx
    · exact h'.user x (by omega) (by omega)
  bytes x := by
    have hn := h.le
    rw [length_take] at hn
    rw [h'.bytes x,h.bytes x]
    by_cases hx : va ≤ x ∧ x < va+n
    · rw [if_neg (by omega),if_pos hx,if_pos (by omega)]
      simp [getD_eq_getElem?_getD,show x-va < n by omega]
    · rw [if_neg hx]
      by_cases hx' : va ≤ x ∧ x < va+(n+k)
      · rw [if_pos (by omega),if_pos hx',show x-va = n+(x-va') by omega]
        simp [getD_eq_getElem?_getD,getElem?_drop]
      · rw [if_neg (by omega),if_neg hx']
  free := h'.free.trans h.free
  rest f hf := (h'.rest f fun x w h1 h2 => hf x w (by omega) (by omega)).trans
    (h.rest f fun x w h1 h2 => hf x w h1 (by omega))

theorem user_entry {x : ℕ} : user (f*4096+x) = user x := by
  unfold user
  exact decide_eq_decide.mpr (by omega)

theorem entry_of_table (hp : present (m.cells d (a/1024))) :
    entry m d a = if present (m.cells (tableOf m d a) (a%1024)) then
      some (m.cells (tableOf m d a) (a%1024)) else none := by
  rw [entry,pte,if_pos hp,← tableOf]
  simp [Option.filter]

/-- Where there is a table, `uva2ka` finds the frames of the user pages. -/
theorem uva2ka_find (ha : a < 2^20) (hp : present (m.cells d (a/1024)))
    (hrange : ∀ w, entry m d a = some w → user w = true → frameOf w*PGSIZE < PHYSTOP) (cur : ℕ) :
    uva2ka m cur d (4096*a) =
      .ok (if userPage (entry m d) a then (entry m d a).map frameOf else none) := by
  unfold uva2ka userPage
  rw [walkpgdir_find ha,if_pos hp]
  have hentry := entry_of_table hp
  dsimp only
  set w := m.cells (tableOf m d a) (a%1024)
  refine congrArg Except.ok ?_
  unfold userFrame
  by_cases hw : present w = true
  · rw [if_pos hw] at hentry
    rw [if_neg (by simp [hw]),hentry,Option.any_some]
    by_cases hu : user w = true
    · have hlt := hrange w hentry hu
      have hne : P2V (frameOf w*PGSIZE) ≠ 0 := by
        rw [P2V,KERNBASE]
        rw [PHYSTOP] at hlt
        omega
      rw [if_neg (by simp [hu]),if_neg hne,if_pos hu]
      rfl
    · rw [if_pos (Bool.not_eq_true _ ▸ hu),if_neg hu]
  · rw [if_neg hw] at hentry
    rw [if_pos (Bool.not_eq_true _ ▸ hw),hentry,Option.any_none,if_neg Bool.false_ne_true]

theorem uva2ka_null {c : ℕ → ℕ} (ha : a < 2^20) (hp : present (m.cells d (a/1024)) = false)
    (hc : view m cur 0 = some c) : uva2ka m cur d (4096*a) = .ok (userFrame (c 0)) := by
  unfold uva2ka
  rw [walkpgdir_find ha,if_neg (by simp [hp])]
  dsimp only
  rw [nullWord,hc]
  rfl

theorem userFrame_entry (hf : f*PGSIZE < PHYSTOP) : userFrame (f*4096+7) = some f := by
  have hne : P2V (frameOf (f*4096+7)*PGSIZE) ≠ 0 := by
    rw [frameOf_entry (by decide),P2V,KERNBASE]
    rw [PHYSTOP] at hf
    omega
  have hu : user (f*4096+7) = true := user_entry.trans (by decide)
  rw [userFrame,if_neg (by simp [present_entry]),if_neg (by simp [hu]),if_neg hne,frameOf_entry (by decide)]

def Guarded (E : ℕ → Option ℕ) : Prop := ∀ a, userPages ≤ a → a < 2^20 → userPage E a = false

theorem Guarded.lt (hE : Guarded E) (ha : a < 2^20) (hu : userPage E a = true) : a < userPages := by
  by_contra hge
  rw [hE a (by omega) ha] at hu
  cases hu

theorem Tree.uva2ka_eq (h : Tree 1024 kend W out m d E V) (hE : Guarded E) (ha : a < 2^20)
    (hp : present (m.cells d (a/1024))) (cur : ℕ) :
    uva2ka m cur d (4096*a) = .ok (if userPage E a then (E a).map frameOf else none) := by
  have hentry : PageTable.entry m d a = E a := h.entry a ha
  have hfind := uva2ka_find ha hp (fun w hw hu => ?_) cur
  · rwa [userPage,hentry,← userPage] at hfind
  · rw [hentry] at hw
    have hlt : a < userPages := hE.lt ha (by rw [userPage,hw]; exact hu)
    exact (h.range _ (by rw [h.page hlt hw]; nofun)).2

theorem Tree.sendPage {w : ℕ} (h : Tree 1024 kend W out m d E V) (ha : a < userPages)
    (hw : E a = some w) (hu : PageTable.user w = true) (hlen : o+bs.length ≤ 4096) (hbs : bs ≠ []) :
    Tree 1024 kend W out {m with cells := update m.cells (frameOf w) (putBytes (m.cells (frameOf w)) o bs)} d E
        (update V a (some (putBytes (m.cells (frameOf w)) o bs))) ∧
      Sent E V m (4096*a+o) bs bs.length (update V a (some (putBytes (m.cells (frameOf w)) o bs)))
        {m with cells := update m.cells (frameOf w) (putBytes (m.cells (frameOf w)) o bs)} := by
  have hbase : KERNBASE = 4096*userPages := rfl
  have hpos := length_pos_of_ne_nil hbs
  have hc : V a = some (m.cells (frameOf w)) := by
    rw [h.contents ha,hw]
    rfl
  refine ⟨h.store (h.page ha hw) _,le_rfl,fun x h1 h2 => ?_,byteIn_update hc hlen,rfl,fun f hf => ?_⟩
  · refine ⟨by omega,?_⟩
    rw [userPage,show x/4096 = a by omega,hw]
    exact hu
  · refine update_of_ne (hf (4096*a+o) w le_rfl (by omega) ?_).symm ..
    rwa [show (4096*a+o)/4096 = a by omega]

/-! ### Rounds of copyout -/

theorem copyoutLoop_nil (cur fuel : ℕ) (m : Mem) (va : ℕ) :
    copyoutLoop data cur d fuel m va [] = .ok (true,m) := by
  cases fuel with
  | zero | succ => rfl

theorem pgrounddown_eq (ho : o < 4096) : PGROUNDDOWN (4096*a+o) = 4096*a := by
  rw [PGROUNDDOWN,PGSIZE]
  omega

theorem copyoutLoop_refused (ho : o < 4096) (hbs : bs ≠ []) (hf : uva2ka m cur d (4096*a) = .ok none) :
    copyoutLoop data cur d (fuel+1) m (4096*a+o) bs = .ok (false,m) := by
  rw [copyoutLoop,if_pos (length_pos_of_ne_nil hbs),pgrounddown_eq ho]
  dsimp only
  rw [hf]
  rfl

theorem move_eq (hlow : V2P data ≤ f*PGSIZE) (hhigh : f*PGSIZE < PHYSTOP) (o : ℕ) (bs : List ℕ) :
    m.move data f o bs = .ok {m with cells := update m.cells f (putBytes (m.cells f) o bs)} :=
  if_neg (by omega)

theorem copyoutLoop_page (ho : o < 4096) (hbs : bs ≠ [])
    (hf : uva2ka m cur d (4096*a) = .ok (some f)) (hlow : V2P data ≤ f*PGSIZE) (hhigh : f*PGSIZE < PHYSTOP)
    (hn : n = min (4096-o) bs.length) :
    copyoutLoop data cur d (fuel+1) m (4096*a+o) bs =
      copyoutLoop data cur d fuel {m with cells := update m.cells f (putBytes (m.cells f) o (bs.take n))}
        ((4096*a+PGSIZE)%2^32) (bs.drop n) := by
  have hn' : (if PGSIZE-o > bs.length then bs.length else PGSIZE-o) = n := by
    rw [hn,PGSIZE]
    split_ifs with hgt
    · omega
    · omega
  rw [copyoutLoop,if_pos (length_pos_of_ne_nil hbs),pgrounddown_eq ho]
  dsimp only
  rw [hf,Nat.add_sub_cancel_left,hn']
  change (m.move data f o (bs.take n) >>= _) = _
  rw [move_eq hlow hhigh]
  rfl

def Tabled (E : ℕ → Option ℕ) (m : Mem) (d va n : ℕ) : Prop :=
  ∀ a < 2^20, va/4096 ≤ a → 4096*a < va+n → (∀ b, va/4096 ≤ b → b < a → userPage E b = true) →
    userPage E a = false → present (m.cells d (a/1024)) = true

theorem Tabled.next (h : Tabled E m d (4096*a+o) bs.length) (ho : o < 4096)
    (hu : userPage E a = true) (hroot : m'.cells d = m.cells d) (hn : n = min (4096-o) bs.length) :
    Tabled E m' d (4096*(a+1)) (bs.drop n).length := by
  intro b hb hab hbn hbelow hbu
  rw [length_drop] at hbn
  rw [hroot]
  refine h b hb (by omega) (by omega) (fun c hc hcb => ?_) hbu
  by_cases hca : c = a
  · rwa [hca]
  · exact hbelow c (by omega) hcb

/-- The loop of `copyout` writes up to the first page that is not a user page. -/
theorem Tree.copyoutLoop (h : Tree 1024 kend W out m d E V) (hE : Guarded E)
    (hkend : V2P data ≤ kend*PGSIZE) (hva : va < 2^32) (hfuel : va%4096+bs.length ≤ 4096*fuel)
    (htab : Tabled E m d va bs.length) :
    ∃ r m' V' n, (∀ cur, PageTable.copyoutLoop data cur d fuel m va bs = .ok (r,m')) ∧
      Tree 1024 kend W out m' d E V' ∧ Sent E V m va bs n V' m' ∧
      if r then n = bs.length
      else n < bs.length ∧ va+n < 2^32 ∧ userPage E ((va+n)/4096) = false := by
  induction fuel generalizing m V va bs with
  | zero =>
    have hnil : bs = [] := eq_nil_of_length_eq_zero (by omega)
    subst hnil
    exact ⟨true,m,V,0,fun _ => rfl,h,.refl ..,rfl⟩
  | succ fuel ih =>
    by_cases hbs : bs = []
    · subst hbs
      exact ⟨true,m,V,0,fun cur => copyoutLoop_nil ..,h,.refl ..,rfl⟩
    have hpos := length_pos_of_ne_nil hbs
    obtain ⟨a,o,ho,rfl⟩ : ∃ a o, o < 4096 ∧ va = 4096*a+o := ⟨va/4096,va%4096,by omega,by omega⟩
    have ha : a < 2^20 := by omega
    cases hu : userPage E a with
    | false =>
      have hp := htab a ha (by omega) (by omega) (fun b hb hba => by omega) hu
      refine ⟨false,m,V,0,fun cur => copyoutLoop_refused ho hbs ?_,h,.refl ..,hpos,hva,?_⟩
      · rw [h.uva2ka_eq hE ha hp,hu,if_neg Bool.false_ne_true]
      · rwa [Nat.add_zero,show (4096*a+o)/4096 = a by omega]
    | true =>
      have hau : a < userPages := hE.lt ha hu
      obtain ⟨w,hw,hwu⟩ := (Option.any_eq_true _ _).mp hu
      have hf := h.page hau hw
      obtain ⟨hlow,hhigh⟩ := h.range (frameOf w) (by rw [hf]; nofun)
      have hp := (walkpgdir_entry ha ((h.entry a ha).trans hw)).2.2.2
      have hfind : ∀ cur, uva2ka m cur d (4096*a) = .ok (some (frameOf w)) := fun cur => by
        rw [h.uva2ka_eq hE ha hp,if_pos hu,hw,Option.map_some]
      obtain ⟨n,hn⟩ : ∃ n, n = min (4096-o) bs.length := ⟨_,rfl⟩
      have hlen : (bs.take n).length = n := by
        rw [length_take]
        omega
      obtain ⟨h₁,hsent⟩ := h.sendPage (o := o) hau hw hwu (by omega : o+(bs.take n).length ≤ 4096)
        (ne_nil_of_length_pos (by omega))
      rw [hlen] at hsent
      have hroot : (update m.cells (frameOf w) (putBytes (m.cells (frameOf w)) o (bs.take n))) d =
          m.cells d := update_of_ne (ne_of_place h.root hf nofun) ..
      have hhigh' : 4096*(a+1) < 2^32 := by
        rw [userPages] at hau
        omega
      have hrest : (bs.drop n).length = bs.length-n := length_drop
      obtain ⟨r,m',V',k,hm',h',hsent',hr⟩ := ih h₁ hhigh' (by omega) (htab.next ho hu hroot hn)
      have hk := hsent'.le
      refine ⟨r,m',V',n+k,fun cur => ?_,h',hsent.next hsent' (by omega),?_⟩
      · rw [copyoutLoop_page ho hbs (hfind cur) (hkend.trans (Nat.mul_le_mul_right _ hlow)) hhigh hn,
          next_page hau]
        exact hm' cur
      · cases r with
        | true =>
          change k = (bs.drop n).length at hr
          change n+k = bs.length
          omega
        | false =>
          obtain ⟨h1,h2,h3⟩ := hr
          refine ⟨by omega,by omega,?_⟩
          rwa [show 4096*a+o+(n+k) = 4096*(a+1)+k by omega]

theorem Tree.copyout (h : Tree 1024 kend W out m d E V) (hE : Guarded E) (hkend : V2P data ≤ kend*PGSIZE)
    (hva : va < 2^32) (hlen : bs.length < 2^32) (htab : Tabled E m d va bs.length) :
    ∃ r m' V' n, (∀ cur, PageTable.copyout data m cur d va bs = .ok (r,m')) ∧
      Tree 1024 kend W out m' d E V' ∧ Sent E V m va bs n V' m' ∧
      if r then n = bs.length
      else n < bs.length ∧ va+n < 2^32 ∧ userPage E ((va+n)/4096) = false :=
  h.copyoutLoop hE hkend hva (by omega) htab

theorem kernelEntry_guarded (data : ℕ) : Guarded (kernelEntry data) := by
  intro a ha _
  have hread : ∀ f, (some (f*4096+1)).any user = false := fun f => user_entry.trans (by decide)
  have hwrite : ∀ f, (some (f*4096+3)).any user = false := fun f => user_entry.trans (by decide)
  unfold userPage kernelEntry
  rw [if_neg (by omega)]
  split_ifs
  · exact hwrite _
  · exact hread _
  · exact hwrite _
  · rfl
  · exact hwrite _

theorem kernelEntry_high (ha : DEVSPACE ≤ 4096*a) : kernelEntry data a ≠ none := by
  have hdev : DEVSPACE = 0xFE000000 := rfl
  unfold kernelEntry
  rw [if_neg (by rw [userPages]; omega)]
  split_ifs with h1 h2 h3 h4
  · simp
  · simp
  · simp
  · omega
  · simp

/-- `(sp - (strlen + 1)) & ~3`, the address of the next argument. -/
def pushed (sp len : ℕ) : ℕ := (sp+2^32-(len+1)%2^32)%2^32/4*4

/-- A directory of the kernel and of the pages below `sz`. -/
structure Whole (data : ℕ) (E : ℕ → Option ℕ) (sz : ℕ) : Prop where
  kernel : ∀ a, userPages ≤ a → a < 2^20 → E a = kernelEntry data a
  pages : ∀ a, 4096*a < sz → E a ≠ none
  size : sz < KERNBASE

theorem Whole.tabled_below {sz : ℕ} (h : Whole data E sz) (hE : ∀ a < 2^20, entry m d a = E a)
    (hle : va+n ≤ sz) : Tabled E m d va n := by
  intro a ha _ hlt _ _
  obtain ⟨w,hw⟩ := Option.ne_none_iff_exists'.mp (h.pages a (by omega))
  exact (walkpgdir_entry ha ((hE a ha).trans hw)).2.2.2

/-- The arguments of `exec` have tables, unless they are very long. -/
theorem Whole.tabled {sz sp len : ℕ} (h : Whole data E sz) (hE : ∀ a < 2^20, entry m d a = E a)
    (hsz : 2*PGSIZE ≤ sz) (hlow : sz ≤ sp+PGSIZE) (hsp : sp ≤ sz) (hlen : len < 2^25) :
    Tabled E m d (pushed sp len) (len+1) := by
  have hsize := h.size
  rw [KERNBASE] at hsize
  rw [PGSIZE] at hsz hlow
  by_cases hwrap : len+1 ≤ sp
  · exact h.tabled_below hE (by unfold pushed; omega)
  · intro a ha hle _ _ _
    unfold pushed at hle
    have hdev : DEVSPACE = 0xFE000000 := rfl
    have huser : userPages ≤ a := by
      rw [userPages]
      omega
    have hne : E a ≠ none := h.kernel a huser ha ▸ kernelEntry_high (by omega)
    obtain ⟨w,hw⟩ := Option.ne_none_iff_exists'.mp hne
    exact (walkpgdir_entry ha ((hE a ha).trans hw)).2.2.2

theorem Tree.byteIn_view (h : Tree 1024 kend W out m d E V) {x : ℕ} (hx : x < KERNBASE) :
    byteIn (PageTable.view m d) x = byteIn V x := by
  have hbase : KERNBASE = 4096*userPages := rfl
  rw [byteIn,h.view _ (by omega),byteIn]

theorem Stands.self (h : Stands 1024 kend D out m d E V) :
    Stands 1024 kend D out m d (entry m d) (view m d) := by
  obtain ⟨W,hno,hD,ht⟩ := h
  exact ⟨W,hno,hD,ht.congr ht.entry ht.view⟩

/-- Two thousand free frames, and a process with the directory in frame 400 whose first word is an
entry for frame 403. -/
def baited : Mem where
  free := range' 1000 2000
  cells f i :=
    if i = 0 ∧ f = 400 then 401*4096+7
    else if i = 0 ∧ f = 401 then 402*4096+7
    else if i = 0 ∧ f = 402 then 403*4096+7
    else 0

theorem baited_pool : Pool 300 (· ∈ baited.free) baited.cells baited where
  kernel := by decide
  free _ := Iff.rfl
  nodup := nodup_range'
  range f hf := by
    obtain ⟨i,hi,rfl⟩ := List.mem_range'.mp hf
    rw [PGSIZE,PHYSTOP]
    omega
  out _ _ := rfl

theorem baited_setupkvm : ∃ d m₁, setupkvm 300 (KERNLINK+4096) baited = .ok (some d,m₁) ∧
    Stands 1024 300 (· ∈ baited.free) baited.cells m₁ d (kernelEntry (KERNLINK+4096)) (fun _ => none) ∧
    ∀ i < 1024, present (m₁.cells d i) → kernelTable i := by
  have hdata : KernelData (KERNLINK+4096) := ⟨by decide,by decide,by decide⟩
  obtain ⟨r,m₁,hm₁,hr⟩ := baited_pool.setupkvm hdata
  cases r with
  | some d => exact ⟨d,m₁,hm₁,hr.2.2⟩
  | none =>
    have hcard := hr.2 baited.free.toFinset fun f hf => mem_toFinset.mp hf
    rw [toFinset_card_of_nodup baited_pool.nodup] at hcard
    simp [baited] at hcard

theorem baited_kernel
    (h : Stands 1024 300 (· ∈ baited.free) baited.cells m₁ d (kernelEntry (KERNLINK+4096)) fun _ => none) :
    ∀ a, userPages ≤ a → a < 2^20 → entry m₁ d a = kernelEntry (KERNLINK+4096) a := by
  obtain ⟨W,-,-,ht⟩ := h
  exact fun a _ ha => ht.entry a ha

theorem baited_cells
    (h : Stands 1024 300 (· ∈ baited.free) baited.cells m₁ d (kernelEntry (KERNLINK+4096)) fun _ => none)
    (hf : f < 1000) : m₁.cells f = baited.cells f := by
  obtain ⟨W,-,hD,ht⟩ := h
  refine ht.out f ?_
  by_contra hne
  obtain ⟨i,-,hi⟩ := List.mem_range'.mp ((hD f).mp hne)
  omega

theorem baited_view
    (h : Stands 1024 300 (· ∈ baited.free) baited.cells m₁ d (kernelEntry (KERNLINK+4096)) fun _ => none) :
    view m₁ 400 0 = some (baited.cells 402) := by
  have hpte : pte m₁ 400 0 = some (402*4096+7) := by
    rw [pte,baited_cells h (by decide)]
    exact congrArg some (congrFun (baited_cells h (by decide)) 0)
  rw [view,hpte]
  exact congrArg some (baited_cells h (by decide))

end
end Xv6.PageTable
