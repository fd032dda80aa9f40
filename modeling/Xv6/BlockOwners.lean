import Xv6.FileBlocks
import Xv6.Machine

/-!
# Owners of blocks

Every block pointer of an inode is a slot: the direct pointers, the words of the indirect block, and
last the indirect pointer. The free map is exact for these slots, and the filled slots of a file are
a prefix whose length follows from its size. `bmap` and `writei` keep both, and under them a read
finds all its blocks.
-/
namespace Xv6.FileBlocks
open Function (update update_self update_of_ne)
open Ownership List
open Machine (bind_ok bind_error)

section
variable (sb : Superblock) (st : Store)

@[simp] theorem mark_dinode (b : ℕ) (v : Bool) (i : ℕ) :
    (st.mark sb b v).dinode sb i = st.dinode sb i := rfl

@[simp] theorem mark_data (b : ℕ) (v : Bool) : (st.mark sb b v).data = st.data := rfl

@[simp] theorem fill_dinode (b : ℕ) (c : ℕ → ℕ) (i : ℕ) :
    (st.fill b c).dinode sb i = st.dinode sb i := rfl

@[simp] theorem fill_used (b : ℕ) (c : ℕ → ℕ) (a : ℕ) : (st.fill b c).used sb a = st.used sb a := rfl

@[simp] theorem setDinode_used (i : ℕ) (di : Dinode) (b : ℕ) :
    (st.setDinode sb i di).used sb b = st.used sb b := rfl

@[simp] theorem setDinode_data (i : ℕ) (di : Dinode) : (st.setDinode sb i di).data = st.data := rfl

@[simp] theorem setDinode_outstanding (i : ℕ) (di : Dinode) :
    (st.setDinode sb i di).outstanding = st.outstanding := rfl

theorem mark_used (b : ℕ) (v : Bool) (c : ℕ) :
    (st.mark sb b v).used sb c = if c = b then v else st.used sb c := by
  have hinj : BBLOCK sb c = BBLOCK sb b → c%BPB = b%BPB → c = b := by
    simp only [BBLOCK,BPB,BSIZE]
    omega
  simp only [Store.mark,Store.used,Function.update_apply]
  by_cases hcb : c = b
  · simp [hcb]
  · by_cases hB : BBLOCK sb c = BBLOCK sb b
    · have hne : c%BPB ≠ b%BPB := fun hm => hcb (hinj hB hm)
      simp [hcb,hB,hne]
    · simp [hcb,hB]

theorem setDinode_dinode (i : ℕ) (di : Dinode) (j : ℕ) :
    (st.setDinode sb i di).dinode sb j = if j = i then di else st.dinode sb j := by
  have hinj : IBLOCK sb j = IBLOCK sb i → j%IPB = i%IPB → j = i := by
    simp only [IBLOCK,IPB]
    omega
  simp only [Store.setDinode,Store.dinode,Function.update_apply]
  by_cases hji : j = i
  · simp [hji]
  · by_cases hB : IBLOCK sb j = IBLOCK sb i
    · have hne : j%IPB ≠ i%IPB := fun hm => hji (hinj hB hm)
      simp [hji,hB,hne]
    · simp [hji,hB]

theorem logWrite_ok {st' : Store} : logWrite st = .ok st' ↔ 1 ≤ st.outstanding ∧ st' = st := by
  unfold logWrite
  split_ifs with h
  · simp
    omega
  · simp
    constructor
    · rintro rfl
      exact ⟨by omega,rfl⟩
    · exact fun h => h.2.symm

end

/-- The block pointers of an inode. Slot `MAXFILE` is the indirect pointer. -/
def slot (data : ℕ → ℕ → ℕ) (di : Dinode) (k : ℕ) : ℕ :=
  if k < NDIRECT then di.addrs k
  else if k < MAXFILE then
    if di.addrs NDIRECT = 0 then 0 else data (di.addrs NDIRECT) (k-NDIRECT)
  else di.addrs NDIRECT

variable (sb : Superblock)

def Alloc (node : ℕ → Dinode) (i : ℕ) : Prop := i < sb.ninodes ∧ (node i).type ≠ .free

/-- Block `b` is recorded in a slot of an allocated inode. -/
def Owns (data : ℕ → ℕ → ℕ) (node : ℕ → Dinode) (b : ℕ) (x : ℕ×ℕ) : Prop :=
  Alloc sb node x.1 ∧ x.2 ≤ MAXFILE ∧ slot data (node x.1) x.2 = b ∧ b ≠ 0

def area (b : ℕ) : Prop := sb.dataStart ≤ b ∧ b < sb.size

/-- The free map is exact for the inodes `node`. -/
structure Owned (node : ℕ → Dinode) (st : Store) : Prop where
  exact : Exact (Owns sb st.data node) (fun b => st.used sb b = true) (area sb)
  system : ∀ b < sb.dataStart, st.used sb b = true
  start : 0 < sb.dataStart

/-- The first `n` blocks of a file are present and no others. -/
structure Filled (data : ℕ → ℕ → ℕ) (di : Dinode) (n : ℕ) : Prop where
  slots : ∀ k < MAXFILE, slot data di k ≠ 0 ↔ k < n
  indirect : di.addrs NDIRECT ≠ 0 ↔ NDIRECT < n
  most : n ≤ MAXFILE

variable {sb} {node : ℕ → Dinode} {st st' : Store} {i k a l j K n bn off fuel : ℕ}
  {data data' : ℕ → ℕ → ℕ} {di di' : Dinode} {node' : ℕ → Dinode} {mapped : ℕ → ℕ} {src : List ℕ}
  {m : String}

theorem slot_congr (k : ℕ)
    (h : di.addrs NDIRECT ≠ 0 → data' (di.addrs NDIRECT) = data (di.addrs NDIRECT)) :
    slot data' di k = slot data di k := by
  unfold slot
  by_cases h0 : di.addrs NDIRECT = 0
  · simp [h0]
  · simp [h0,h h0]

theorem slot_indirect (data : ℕ → ℕ → ℕ) (di : Dinode) : slot data di MAXFILE = di.addrs NDIRECT := by
  simp [slot,MAXFILE,NDIRECT,NINDIRECT]

theorem slot_direct (a l : ℕ) (hk : k < NDIRECT)
    (h : di.addrs NDIRECT ≠ 0 → data' (di.addrs NDIRECT) = data (di.addrs NDIRECT)) :
    slot data' {di with addrs := update di.addrs k a} l = if l = k then a else slot data di l := by
  rw [← slot_congr l h]
  by_cases hl : l = k
  · simp [slot,hl,hk]
  · simp [slot,hl,hk.ne']

theorem slot_newIndirect (hl : l ≤ MAXFILE) (h0 : di.addrs NDIRECT = 0) (h : data' a = fun _ => 0) :
    slot data' {di with addrs := update di.addrs NDIRECT a} l =
      if l = MAXFILE then a else slot data di l := by
  by_cases hd : l < NDIRECT
  · have hne : l ≠ MAXFILE := by
      simp only [MAXFILE,NDIRECT] at *
      omega
    simp [slot,hd,hd.ne,hne]
  · by_cases hm : l = MAXFILE
    · rw [hm,slot_indirect]
      simp
    · have hlt : l < MAXFILE := by omega
      simp [slot,hd,hm,hlt,h0,h]

theorem slot_word (a : ℕ) (hj : j < NINDIRECT) (hl : l ≤ MAXFILE) (h0 : di.addrs NDIRECT ≠ 0) :
    slot (update data (di.addrs NDIRECT) (update (data (di.addrs NDIRECT)) j a)) di l =
      if l = NDIRECT+j then a else slot data di l := by
  by_cases hd : l < NDIRECT
  · have hne : l ≠ NDIRECT+j := by omega
    simp [slot,hd,hne]
  · by_cases hm : l = MAXFILE
    · have hne : MAXFILE ≠ NDIRECT+j := by
        simp only [MAXFILE]
        omega
      simp [slot,hm,hne]
    · have hlt : l < MAXFILE := by omega
      have hiff : l-NDIRECT = j ↔ l = NDIRECT+j := by omega
      simp [slot,hd,hlt,h0,Function.update_apply,hiff]

theorem Owned.slot_ne (h : Owned sb node st) (hi : Alloc sb node i) (hj : Alloc sb node j)
    (hk : k ≤ MAXFILE) (hl : l ≤ MAXFILE) (hne : (i,k) ≠ (j,l)) (h0 : slot st.data (node i) k ≠ 0) :
    slot st.data (node j) l ≠ slot st.data (node i) k := by
  intro he
  exact hne (h.exact.unique ⟨hi,hk,rfl,h0⟩ ⟨hj,hl,he,h0⟩)

theorem Owned.slot_ne_fresh (h : Owned sb node st) (ha : st.used sb a = false) (h0 : a ≠ 0)
    (hj : Alloc sb node j) (hl : l ≤ MAXFILE) : slot st.data (node j) l ≠ a := by
  intro he
  have := h.exact.used_of_owns (x := (j,l)) ⟨hj,hl,he,h0⟩
  simp [ha] at this

theorem balloc_ok (h : Owned sb node st) (hr : balloc sb st = .ok (a,st')) :
    area sb a ∧ a ≠ 0 ∧ st.used sb a = false ∧ st' = (st.mark sb a true).fill a (fun _ => 0) := by
  unfold balloc at hr
  split at hr
  · cases hr
  · rename_i b hb
    obtain ⟨t,ht,hr⟩ := bind_ok.mp hr
    obtain ⟨-,rfl⟩ := (logWrite_ok _).mp ht
    cases hr
    have hfree : st.used sb a = false := by simpa using find?_some hb
    have hlt : a < sb.size := by simpa using mem_of_find?_eq_some hb
    have hge : sb.dataStart ≤ a := by
      by_contra hlt
      have := h.system a (by omega)
      simp [hfree] at this
    have hstart := h.start
    exact ⟨⟨hge,hlt⟩,by omega,hfree,rfl⟩

/-- What changes when slot `K` of inode `i`, empty before, takes block `a`. The
contents of all blocks of files stay. -/
structure Placed (sb : Superblock) (node : ℕ → Dinode) (st : Store) (i K a : ℕ) (di' : Dinode)
    (st' : Store) : Prop where
  owned : Owned sb (update node i di') st'
  fields : di' = {node i with addrs := di'.addrs}
  slots : ∀ l ≤ MAXFILE, slot st'.data di' l = if l = K then a else slot st.data (node i) l
  others : ∀ j, Alloc sb node j → j ≠ i → ∀ l, slot st'.data (node j) l = slot st.data (node j) l
  contents : ∀ j, Alloc sb node j → ∀ l < MAXFILE, slot st.data (node j) l ≠ 0 →
    st'.data (slot st.data (node j) l) = st.data (slot st.data (node j) l)
  inodes : st'.inodes = st.inodes
  outstanding : st'.outstanding = st.outstanding

theorem alloc_update (hf : di'.type = (node i).type) (j : ℕ) :
    Alloc sb (update node i di') j ↔ Alloc sb node j := by
  unfold Alloc
  by_cases hj : j = i
  · subst hj
    simp [hf]
  · simp [hj]

theorem Owned.place (h : Owned sb node st) (hi : Alloc sb node i)
    (hK : K ≤ MAXFILE) (ha : area sb a) (hfree : st.used sb a = false)
    (hempty : slot st.data (node i) K = 0) (hf : di'.type = (node i).type)
    (hu : ∀ b, st'.used sb b = if b = a then true else st.used sb b)
    (hs : ∀ l ≤ MAXFILE, slot st'.data di' l = if l = K then a else slot st.data (node i) l)
    (ho : ∀ j, Alloc sb node j → j ≠ i → ∀ l, slot st'.data (node j) l = slot st.data (node j) l) :
    Owned sb (update node i di') st' := by
  have h0 : a ≠ 0 := by
    have := h.start
    have := ha.1
    omega
  have howns : ∀ c y, Owns sb st'.data (update node i di') c y ↔
      Owns sb st.data node c y ∨ (c = a ∧ y = (i,K)) := by
    rintro c ⟨j,l⟩
    simp only [Owns,alloc_update hf,Prod.mk.injEq]
    by_cases hj : j = i
    · subst hj
      simp only [update_self]
      constructor
      · rintro ⟨hj,hl,he,hc⟩
        rw [hs l hl] at he
        split_ifs at he with hlK
        · exact .inr ⟨he.symm,trivial,hlK⟩
        · exact .inl ⟨hj,hl,he,hc⟩
      · rintro (⟨hj,hl,he,hc⟩ | ⟨rfl,-,rfl⟩)
        · refine ⟨hj,hl,?_,hc⟩
          rw [hs l hl,if_neg]
          · exact he
          · rintro rfl
            exact hc (he ▸ hempty)
        · exact ⟨hi,hK,by rw [hs l hK,if_pos rfl],h0⟩
    · simp only [ne_eq,hj,not_false_eq_true,update_of_ne,false_and,and_false,or_false]
      constructor
      · rintro ⟨hj',hl,he,hc⟩
        exact ⟨hj',hl,by rw [← ho j hj' hj]; exact he,hc⟩
      · rintro ⟨hj',hl,he,hc⟩
        exact ⟨hj',hl,by rw [ho j hj' hj]; exact he,hc⟩
  refine ⟨h.exact.claim ha (by simp [hfree]) howns ?_,?_,h.start⟩
  · intro c _
    rw [hu c]
    split_ifs with hc <;> simp [hc]
  · intro b hb
    rw [hu b]
    split_ifs
    · rfl
    · exact h.system b hb

def slotOf (k : ℕ) : ℕ := if k < NDIRECT then k else MAXFILE

theorem slot_slotOf (hk : k ≤ NDIRECT) (data : ℕ → ℕ → ℕ) (di : Dinode) :
    slot data di (slotOf k) = di.addrs k := by
  unfold slotOf
  split_ifs with h
  · simp [slot,h]
  · rw [slot_indirect]
    congr 1
    omega

theorem Owned.refl_place (h : Owned sb node st) (hK : slot st.data (node i) K = a) :
    Placed sb node st i K a (node i) st where
  owned := by simpa using h
  fields := rfl
  slots l _ := by
    split_ifs with hl
    · rw [hl,hK]
    · rfl
  others _ _ _ _ := rfl
  contents _ _ _ _ _ := rfl
  inodes := rfl
  outstanding := rfl

theorem fillAddr_ok (h : Owned sb node st) (hi : Alloc sb node i)
    (hk : k ≤ NDIRECT) (hr : fillAddr sb st (node i) k = .ok (a,di',st')) :
    Placed sb node st i (slotOf k) a di' st' ∧ a ≠ 0 ∧ di'.addrs = update (node i).addrs k a ∧
      ((node i).addrs k ≠ 0 → di' = node i ∧ st' = st) := by
  unfold fillAddr at hr
  split_ifs at hr with h0
  · obtain ⟨⟨b,t⟩,hb,hr⟩ := bind_ok.mp hr
    cases hr
    obtain ⟨ha,ha0,hfree,rfl⟩ := balloc_ok h hb
    have hne : ∀ j, Alloc sb node j → (node j).addrs NDIRECT ≠ a := by
      intro j hj
      rw [← slot_indirect st.data]
      exact h.slot_ne_fresh hfree ha0 hj le_rfl
    have hs : ∀ l ≤ MAXFILE, slot (update st.data a fun _ => 0)
        {node i with addrs := update (node i).addrs k a} l =
          if l = slotOf k then a else slot st.data (node i) l := by
      intro l hl
      rcases hk.lt_or_eq with hk | rfl
      · rw [slotOf,if_pos hk]
        exact slot_direct a l hk fun _ => update_of_ne (hne i hi) _ _
      · rw [slotOf,if_neg (lt_irrefl _)]
        exact slot_newIndirect hl h0 (update_self ..)
    have ho : ∀ j, Alloc sb node j → j ≠ i → ∀ l,
        slot (update st.data a fun _ => 0) (node j) l = slot st.data (node j) l := by
      intro j hj _ l
      exact slot_congr l fun _ => update_of_ne (hne j hj) _ _
    have hK : slotOf k ≤ MAXFILE := by
      unfold slotOf
      split_ifs with hk
      · exact hk.le.trans (Nat.le_add_right _ _)
      · exact le_rfl
    refine ⟨⟨?_,rfl,hs,ho,?_,rfl,rfl⟩,ha0,rfl,fun h => absurd h0 h⟩
    · refine h.place hi hK ha hfree ?_ rfl ?_ hs ho
      · rw [slot_slotOf hk,h0]
      · intro b
        rw [fill_used,mark_used]
    · intro j hj l hl _
      exact update_of_ne (h.slot_ne_fresh hfree ha0 hj hl.le) _ _
  · cases hr
    exact ⟨h.refl_place (slot_slotOf hk _ _),h0,by simp,fun _ => ⟨rfl,rfl⟩⟩

theorem fillWord_ok (h : Owned sb node st) (hi : Alloc sb node i)
    (hj : j < NINDIRECT) (hind : (node i).addrs NDIRECT ≠ 0)
    (hr : fillWord sb st ((node i).addrs NDIRECT) j = .ok (a,st')) :
    Placed sb node st i (NDIRECT+j) a (node i) st' ∧ a ≠ 0 ∧
      (st.data ((node i).addrs NDIRECT) j ≠ 0 → st' = st) := by
  have hslot : slot st.data (node i) (NDIRECT+j) = st.data ((node i).addrs NDIRECT) j := by
    simp [slot,hind,MAXFILE,hj]
  unfold fillWord at hr
  split_ifs at hr with h0
  · obtain ⟨⟨b,t⟩,hb,hr⟩ := bind_ok.mp hr
    obtain ⟨u,hu,hr⟩ := bind_ok.mp hr
    cases hr
    obtain ⟨-,rfl⟩ := (logWrite_ok _).mp hu
    obtain ⟨ha,ha0,hfree,rfl⟩ := balloc_ok h hb
    have hne : ∀ j, Alloc sb node j → ∀ l ≤ MAXFILE, slot st.data (node j) l ≠ a :=
      fun j hj l hl => h.slot_ne_fresh hfree ha0 hj hl
    have hind' : slot st.data (node i) MAXFILE ≠ 0 := by rwa [slot_indirect]
    -- neither the new block nor the indirect block is a block of a file
    have hdata : ∀ j, Alloc sb node j → ∀ l ≤ MAXFILE, (j,l) ≠ (i,MAXFILE) →
        ∀ c, update (update st.data a fun _ => 0) ((node i).addrs NDIRECT) c
          (slot st.data (node j) l) = st.data (slot st.data (node j) l) := by
      intro j hj l hl hjl c
      have h1 : slot st.data (node j) l ≠ (node i).addrs NDIRECT := by
        rw [← slot_indirect st.data]
        exact h.slot_ne hi hj le_rfl hl (Ne.symm hjl) hind'
      rw [update_of_ne h1,update_of_ne (hne j hj l hl)]
    have hai : (node i).addrs NDIRECT ≠ a := by
      rw [← slot_indirect st.data]
      exact hne i hi _ le_rfl
    have hs : ∀ l ≤ MAXFILE, slot (update (update st.data a fun _ => 0) ((node i).addrs NDIRECT)
        (update ((update st.data a fun _ => 0) ((node i).addrs NDIRECT)) j a)) (node i) l =
          if l = NDIRECT+j then a else slot st.data (node i) l := by
      intro l hl
      rw [slot_word a hj hl hind,slot_congr l fun _ => update_of_ne hai _ _]
    have ho : ∀ k, Alloc sb node k → k ≠ i → ∀ l,
        slot (update (update st.data a fun _ => 0) ((node i).addrs NDIRECT)
          (update ((update st.data a fun _ => 0) ((node i).addrs NDIRECT)) j a)) (node k) l =
            slot st.data (node k) l := by
      intro k hk hki l
      refine slot_congr l fun _ => ?_
      have := hdata k hk MAXFILE le_rfl (by simp [hki])
      rw [slot_indirect] at this
      exact this _
    refine ⟨⟨?_,rfl,hs,ho,?_,rfl,rfl⟩,ha0,fun h => absurd h0 h⟩
    · refine h.place hi (by simp only [MAXFILE]; omega) ha hfree (hslot.trans h0) rfl ?_ hs ho
      intro b
      rw [fill_used,fill_used,mark_used]
    · intro k hk l hl _
      exact hdata k hk l hl.le (by simp [hl.ne]) _
  · cases hr
    exact ⟨h.refl_place hslot,h0,fun _ => rfl⟩

def Keeps (sb : Superblock) (node : ℕ → Dinode) (st : Store) (node' : ℕ → Dinode) (st' : Store) : Prop :=
  ∀ j, Alloc sb node j → ∀ l < MAXFILE, slot st.data (node j) l ≠ 0 →
    slot st'.data (node' j) l = slot st.data (node j) l ∧
      st'.data (slot st.data (node j) l) = st.data (slot st.data (node j) l)

/-- The free map is exact, and inode `i` has its first `mapped i` blocks. -/
structure Wf (sb : Superblock) (node : ℕ → Dinode) (mapped : ℕ → ℕ) (st : Store) : Prop where
  owned : Owned sb node st
  filled : ∀ j, Alloc sb node j → Filled st.data (node j) (mapped j)

theorem Placed.keeps (h : Placed sb node st i K a di' st')
    (hi : Alloc sb node i) (hK : slot st.data (node i) K = 0 ∨ slot st.data (node i) K = a) :
    Keeps sb node st (update node i di') st' := by
  intro j hj l hl h0
  refine ⟨?_,h.contents j hj l hl h0⟩
  by_cases hji : j = i
  · subst hji
    rw [update_self,h.slots l hl.le]
    split_ifs with hlK
    · subst hlK
      rcases hK with hK | hK
      · exact absurd hK h0
      · exact hK.symm
    · rfl
  · rw [update_of_ne hji,h.others j hj hji]

theorem Keeps.trans {node'' : ℕ → Dinode} {st'' : Store} (h : Keeps sb node st node' st')
    (h' : Keeps sb node' st' node'' st'') (hal : ∀ j, Alloc sb node j → Alloc sb node' j) :
    Keeps sb node st node'' st'' := by
  intro j hj l hl h0
  obtain ⟨h1,h2⟩ := h j hj l hl h0
  obtain ⟨h3,h4⟩ := h' j (hal j hj) l hl (by rwa [h1])
  rw [h1] at h3 h4
  exact ⟨h3,h4.trans h2⟩

theorem Filled.congr (h : Filled data di n)
    (hs : ∀ l, slot data' di l = slot data di l) : Filled data' di n where
  slots k hk := by
    rw [hs k]
    exact h.slots k hk
  indirect := h.indirect
  most := h.most

/-- One more slot of inode `i` is filled and the files of the others stay. -/
theorem Placed.wf (h : Placed sb node st i K a di' st') (hf : Filled st'.data di' n)
    (hw : ∀ j, Alloc sb node j → j ≠ i → Filled st.data (node j) (mapped j)) :
    Wf sb (update node i di') (update mapped i n) st' where
  owned := h.owned
  filled j hj := by
    have hty : di'.type = (node i).type := (congrArg Dinode.type h.fields).trans rfl
    rw [alloc_update hty] at hj
    by_cases hji : j = i
    · subst hji
      simpa using hf
    · rw [update_of_ne hji,update_of_ne hji]
      exact (hw j hj hji).congr (h.others j hj hji)

/-- What `bmap` does for the block after the last one at most. -/
structure Mapped (sb : Superblock) (node : ℕ → Dinode) (mapped : ℕ → ℕ) (st : Store)
    (i bn a : ℕ) (di' : Dinode) (st' : Store) : Prop where
  wf : Wf sb (update node i di') (update mapped i (max (mapped i) (bn+1))) st'
  fields : di' = {node i with addrs := di'.addrs}
  slot_eq : slot st'.data di' bn = a
  ne : a ≠ 0
  keeps : Keeps sb node st (update node i di') st'
  same : bn < mapped i → di' = node i ∧ st' = st
  inodes : st'.inodes = st.inodes
  outstanding : st'.outstanding = st.outstanding

theorem bmap_ok (h : Wf sb node mapped st) (hi : Alloc sb node i) (hn : bn ≤ mapped i) (hlt : bn < MAXFILE)
    (hr : bmap sb st (node i) bn = .ok (a,di',st')) : Mapped sb node mapped st i bn a di' st' := by
  have hfi := h.filled i hi
  have hold : ∀ j, Alloc sb node j → j ≠ i → Filled st.data (node j) (mapped j) :=
    fun j hj _ => h.filled j hj
  unfold bmap at hr
  split_ifs at hr with hd hd'
  · obtain ⟨hp,ha,haddr,hsame⟩ := fillAddr_ok h.owned hi hd.le hr
    rw [slotOf,if_pos hd] at hp
    have hslot : slot st.data (node i) bn = (node i).addrs bn := by simp [slot,hd]
    have hzero : slot st.data (node i) bn = 0 ∨ slot st.data (node i) bn = a := by
      by_cases h0 : (node i).addrs bn = 0
      · exact .inl (hslot.trans h0)
      · obtain ⟨rfl,-⟩ := hsame h0
        right
        rw [hslot,haddr]
        simp
    refine ⟨hp.wf ⟨?_,?_,?_⟩ hold,hp.fields,?_,ha,hp.keeps hi hzero,?_,hp.inodes,hp.outstanding⟩
    · intro k hk
      rw [hp.slots k hk.le]
      have := hfi.slots k hk
      split_ifs with hkb
      · simp only [ne_eq,ha,not_false_eq_true,true_iff]
        omega
      · rw [this]
        omega
    · have h12 : di'.addrs NDIRECT = (node i).addrs NDIRECT := by
        rw [haddr,update_of_ne hd.ne']
      rw [h12,hfi.indirect]
      omega
    · have := hfi.most
      omega
    · rw [hp.slots bn hlt.le,if_pos rfl]
    · intro hb
      apply hsame
      rw [← hslot]
      exact (hfi.slots bn hlt).mpr hb
  · obtain ⟨⟨ind,di,t⟩,hr1,hr⟩ := bind_ok.mp hr
    obtain ⟨⟨b,u⟩,hr2,hr⟩ := bind_ok.mp hr
    cases hr
    obtain ⟨hp,hind0,haddr,hsame⟩ := fillAddr_ok h.owned hi le_rfl hr1
    rw [slotOf,if_neg (lt_irrefl _)] at hp
    have hind : di'.addrs NDIRECT = ind := by simp [haddr]
    have hty : di'.type = (node i).type := (congrArg Dinode.type hp.fields).trans rfl
    have hi' : Alloc sb (update node i di') i := (alloc_update hty i).mpr hi
    have hself : update node i di' i = di' := update_self ..
    have hr2' : fillWord sb t ((update node i di' i).addrs NDIRECT) (bn-NDIRECT) = .ok (a,st') := by
      rw [hself,hind]
      exact hr2
    obtain ⟨hq,ha,hsame'⟩ := fillWord_ok hp.owned hi' hd' (by rwa [hself,hind]) hr2'
    have hK : NDIRECT+(bn-NDIRECT) = bn := by omega
    rw [hK,hself] at hq
    have hbM : bn ≠ MAXFILE := hlt.ne
    -- the slots of the inode after both steps
    have hslots : ∀ l < MAXFILE, slot st'.data di' l = if l = bn then a else slot st.data (node i) l := by
      intro l hl
      rw [hq.slots l hl.le,hself,hp.slots l hl.le,if_neg hl.ne]
    have hzero1 : slot st.data (node i) MAXFILE = 0 ∨ slot st.data (node i) MAXFILE = ind := by
      rw [slot_indirect]
      by_cases h0 : (node i).addrs NDIRECT = 0
      · exact .inl h0
      · obtain ⟨rfl,-⟩ := hsame h0
        exact .inr hind
    have hslot_bn : slot t.data di' bn = slot st.data (node i) bn := by
      rw [hp.slots bn hlt.le,if_neg hbM]
    have hword : slot t.data di' bn = t.data (di'.addrs NDIRECT) (bn-NDIRECT) := by
      simp [slot,hd,hlt,hind,hind0]
    have hzero2 : slot t.data (update node i di' i) bn = 0 ∨
        slot t.data (update node i di' i) bn = a := by
      rw [hself]
      by_cases h0 : slot t.data di' bn = 0
      · exact .inl h0
      · have : st' = t := hsame' (by rwa [hself,← hword])
        subst this
        right
        rw [hq.slots bn hlt.le,if_pos rfl]
    have hnode : update (update node i di') i di' = update node i di' := by simp
    refine ⟨?_,hp.fields,?_,ha,?_,?_,hq.inodes.trans hp.inodes,hq.outstanding.trans hp.outstanding⟩
    · have hwf : _ → _ →
          Wf sb (update (update node i di') i di') (update mapped i (max (mapped i) (bn+1))) st' := hq.wf
      rw [hnode] at hwf
      refine hwf ⟨?_,?_,?_⟩ ?_
      · intro k hk
        rw [hslots k hk]
        have := hfi.slots k hk
        split_ifs with hkb
        · simp only [ne_eq,ha,not_false_eq_true,true_iff]
          omega
        · rw [this]
          omega
      · rw [hind]
        simp only [ne_eq,hind0,not_false_eq_true,true_iff]
        omega
      · have := hfi.most
        omega
      · intro j hj hji
        rw [update_of_ne hji]
        exact (hold j ((alloc_update hty j).mp hj) hji).congr (hp.others j ((alloc_update hty j).mp hj) hji)
    · rw [hslots bn hlt,if_pos rfl]
    · have h2 := hq.keeps hi' hzero2
      rw [hnode] at h2
      exact (hp.keeps hi hzero1).trans h2 fun j hj => (alloc_update hty j).mpr hj
    · intro hb
      have h12 : (node i).addrs NDIRECT ≠ 0 := hfi.indirect.mpr (by omega)
      obtain ⟨h1,h2⟩ := hsame h12
      refine ⟨h1,(hsame' ?_).trans h2⟩
      rw [hself,← hword,hslot_bn]
      exact (hfi.slots bn hlt).mpr hb

/-- The number of blocks of a file of `n` bytes. -/
def blocks (n : ℕ) : ℕ := (n+BSIZE-1)/BSIZE

def byteAt (data : ℕ → ℕ → ℕ) (di : Dinode) (off : ℕ) : ℕ := data (slot data di (off/BSIZE)) (off%BSIZE)

theorem Keeps.byteAt_eq (h : Keeps sb node st node' st')
    (hj : Alloc sb node j) (hf : Filled st.data (node j) n) (ho : off < BSIZE*n) :
    byteAt st'.data (node' j) off = byteAt st.data (node j) off := by
  have hb : off/BSIZE < n := Nat.div_lt_of_lt_mul ho
  have hlt : off/BSIZE < MAXFILE := hb.trans_le hf.most
  obtain ⟨h1,h2⟩ := h j hj _ hlt ((hf.slots _ hlt).mpr hb)
  simp only [byteAt,h1,h2]

section
variable {k : ℕ} (c : ℕ → ℕ)

theorem Owned.slot_fill (h : Owned sb node st) (hi : Alloc sb node i) (hk : k < MAXFILE)
    (h0 : slot st.data (node i) k ≠ 0) (hj : Alloc sb node j) (l : ℕ) :
    slot (update st.data (slot st.data (node i) k) c) (node j) l = slot st.data (node j) l := by
  refine slot_congr l fun _ => update_of_ne ?_ _ _
  rw [← slot_indirect st.data]
  exact h.slot_ne hi hj hk.le le_rfl (by simp [hk.ne]) h0

theorem Owned.fill (h : Owned sb node st) (hi : Alloc sb node i) (hk : k < MAXFILE)
    (h0 : slot st.data (node i) k ≠ 0) : Owned sb node (st.fill (slot st.data (node i) k) c) := by
  refine ⟨h.exact.congr ?_ fun _ _ => Iff.rfl,h.system,h.start⟩
  rintro b ⟨j,l⟩
  constructor
  · rintro ⟨hj,hl,he,hb⟩
    exact ⟨hj,hl,by rw [← h.slot_fill c hi hk h0 hj]; exact he,hb⟩
  · rintro ⟨hj,hl,he,hb⟩
    exact ⟨hj,hl,by rw [← he]; exact h.slot_fill c hi hk h0 hj l,hb⟩

theorem Wf.fill (h : Wf sb node mapped st) (hi : Alloc sb node i) (hk : k < MAXFILE)
    (h0 : slot st.data (node i) k ≠ 0) : Wf sb node mapped (st.fill (slot st.data (node i) k) c) where
  owned := h.owned.fill c hi hk h0
  filled j hj := (h.filled j hj).congr (h.owned.slot_fill c hi hk h0 hj)

theorem Owned.byteAt_fill (h : Owned sb node st) (hi : Alloc sb node i) (hk : k < MAXFILE)
    (h0 : slot st.data (node i) k ≠ 0) (hj : Alloc sb node j) (ho : off/BSIZE < MAXFILE) :
    byteAt (update st.data (slot st.data (node i) k) c) (node j) off =
      if j = i ∧ off/BSIZE = k then c (off%BSIZE) else byteAt st.data (node j) off := by
  simp only [byteAt,h.slot_fill c hi hk h0 hj]
  split_ifs with hjk
  · rw [hjk.1,hjk.2,update_self]
  · rw [update_of_ne]
    refine h.slot_ne hi hj hk.le ho.le ?_ h0
    rintro ⟨⟩
    exact hjk ⟨rfl,rfl⟩

end

/-- What the loop of `writei` does from offset `off` on. -/
structure Wrote (sb : Superblock) (node : ℕ → Dinode) (mapped : ℕ → ℕ) (st : Store) (i off : ℕ)
    (src : List ℕ) (di' : Dinode) (st' : Store) : Prop where
  wf : Wf sb (update node i di') (update mapped i (max (mapped i) (blocks (off+src.length)))) st'
  fields : di' = {node i with addrs := di'.addrs}
  written : ∀ o, off ≤ o → o < off+src.length → byteAt st'.data di' o = src.getD (o-off) 0
  kept : ∀ o < BSIZE*mapped i, ¬ (off ≤ o ∧ o < off+src.length) →
    byteAt st'.data di' o = byteAt st.data (node i) o
  others : ∀ j, Alloc sb node j → j ≠ i → ∀ o < BSIZE*mapped j,
    byteAt st'.data (node j) o = byteAt st.data (node j) o
  same : off+src.length ≤ BSIZE*mapped i → di' = node i
  inodes : st'.inodes = st.inodes
  outstanding : st'.outstanding = st.outstanding

theorem Wf.wrote_nil (h : Wf sb node mapped st) (ho : off ≤ BSIZE*mapped i) :
    Wrote sb node mapped st i off [] (node i) st where
  wf := by
    have : blocks off ≤ mapped i := by
      simp only [blocks,BSIZE] at *
      omega
    simpa [max_eq_left this] using h
  fields := rfl
  written o h1 h2 := absurd h2 (by simp; omega)
  kept _ _ _ := rfl
  others _ _ _ _ _ := rfl
  same _ := rfl
  inodes := rfl
  outstanding := rfl

theorem Mapped.wrote {m : ℕ} {t : Store}
    (hm : Mapped sb node mapped st i (off/BSIZE) a di t) (h : Wf sb node mapped st)
    (hi : Alloc sb node i) (hlt : off/BSIZE < MAXFILE) (hsrc : src ≠ [])
    (hmdef : m = min src.length (BSIZE-off%BSIZE))
    (w : Wrote sb (update node i di) (update mapped i (max (mapped i) (off/BSIZE+1)))
      (t.fill a (splice (t.data a) (off%BSIZE) m src)) i (off+m) (src.drop m) di' st') :
    Wrote sb node mapped st i off src di' st' := by
  have hlen : 0 < src.length := length_pos_iff.mpr hsrc
  have hself : update node i di i = di := update_self ..
  have hmapped : update mapped i (max (mapped i) (off/BSIZE+1)) i = max (mapped i) (off/BSIZE+1) :=
    update_self ..
  have hty : di.type = (node i).type := (congrArg Dinode.type hm.fields).trans rfl
  have hi' : Alloc sb (update node i di) i := (alloc_update hty i).mpr hi
  have hslot : slot t.data (update node i di i) (off/BSIZE) = a := by rw [hself,hm.slot_eq]
  have h0 : slot t.data (update node i di i) (off/BSIZE) ≠ 0 := by rw [hslot]; exact hm.ne
  have hlast : off+m+(src.drop m).length = off+src.length := by
    simp only [length_drop]
    omega
  have hmost := (h.filled i hi).most
  have hin : ∀ o < off+m, o < BSIZE*max (mapped i) (off/BSIZE+1) := by
    intro o ho
    have : o < BSIZE*(off/BSIZE+1) := by
      simp only [BSIZE] at *
      omega
    exact this.trans_le (Nat.mul_le_mul_left _ (le_max_right _ _))
  -- the bytes after the first block was written
  have hfirst : ∀ j, Alloc sb node j → ∀ o, o/BSIZE < MAXFILE →
      byteAt (t.fill a (splice (t.data a) (off%BSIZE) m src)).data (update node i di j) o =
        if j = i ∧ o/BSIZE = off/BSIZE then splice (t.data a) (off%BSIZE) m src (o%BSIZE)
        else byteAt t.data (update node i di j) o := by
    intro j hj o ho
    have := hm.wf.owned.byteAt_fill (splice (t.data a) (off%BSIZE) m src) hi' hlt h0
      ((alloc_update hty j).mpr hj) ho
    rwa [hslot] at this
  have hkeep : ∀ j, Alloc sb node j → ∀ o < BSIZE*mapped j,
      byteAt t.data (update node i di j) o = byteAt st.data (node j) o :=
    fun j hj o ho => hm.keeps.byteAt_eq hj (h.filled j hj) ho
  have hdiv : ∀ j, Alloc sb node j → ∀ o < BSIZE*mapped j, o/BSIZE < MAXFILE := fun j hj o ho =>
    (Nat.div_lt_of_lt_mul ho).trans_le (h.filled j hj).most
  constructor
  · have := w.wf
    rw [hlast,hmapped,Function.update_idem,Function.update_idem] at this
    have hmax : max (max (mapped i) (off/BSIZE+1)) (blocks (off+src.length)) =
        max (mapped i) (blocks (off+src.length)) := by
      have : off/BSIZE+1 ≤ blocks (off+src.length) := by
        simp only [blocks,BSIZE] at *
        omega
      omega
    rwa [hmax] at this
  · have h1 := w.fields
    rw [hself] at h1
    rw [h1,hm.fields]
  · intro o h1 h2
    by_cases ho : o < off+m
    · have hd : o/BSIZE = off/BSIZE := by
        simp only [BSIZE] at *
        omega
      have := w.kept o (by rw [hmapped]; exact hin o ho) (by omega)
      rw [this,hfirst i hi o (by rwa [hd]),if_pos ⟨rfl,hd⟩,splice,if_pos]
      · congr 1
        simp only [BSIZE] at *
        omega
      · simp only [BSIZE] at *
        omega
    · have := w.written o (by omega) (by rw [hlast]; exact h2)
      rw [this]
      simp only [getD_eq_getElem?_getD,getElem?_drop]
      congr 2
      omega
  · intro o ho hout
    have h1 : o < BSIZE*max (mapped i) (off/BSIZE+1) :=
      ho.trans_le (Nat.mul_le_mul_left _ (le_max_left _ _))
    have := w.kept o (by rwa [hmapped]) (by rw [hlast]; omega)
    rw [this,hfirst i hi o (hdiv i hi o ho),← hkeep i hi o ho]
    split_ifs with hd
    · rw [splice,if_neg]
      · rw [byteAt,hself,hd.2,hm.slot_eq]
      · simp only [BSIZE] at *
        omega
    · rfl
  · intro j hj hji o ho
    have hj' : Alloc sb (update node i di) j := (alloc_update hty j).mpr hj
    have := w.others j hj' hji o (by rwa [update_of_ne hji])
    rw [update_of_ne hji] at this
    have h2 := hfirst j hj o (hdiv j hj o ho)
    rw [if_neg (by simp [hji]),hkeep j hj o ho,update_of_ne hji] at h2
    exact this.trans h2
  · intro hle
    have hbn : off/BSIZE < mapped i := by
      simp only [BSIZE] at *
      omega
    obtain ⟨hdi,-⟩ := hm.same hbn
    have := w.same (by rw [hlast,hmapped]; exact hle.trans (Nat.mul_le_mul_left _ (le_max_left _ _)))
    rw [this,hself,hdi]
  · exact w.inodes.trans hm.inodes
  · exact w.outstanding.trans hm.outstanding

theorem Mapped.next {m : ℕ} {t : Store}
    (hm : Mapped sb node mapped st i (off/BSIZE) a di t) (hi : Alloc sb node i)
    (hlt : off/BSIZE < MAXFILE) (hsrc : src ≠ []) (hmdef : m = min src.length (BSIZE-off%BSIZE))
    (c : ℕ → ℕ) :
    Wf sb (update node i di) (update mapped i (max (mapped i) (off/BSIZE+1))) (t.fill a c) ∧
      Alloc sb (update node i di) i ∧
      off+m ≤ BSIZE*update mapped i (max (mapped i) (off/BSIZE+1)) i ∧
      off+m+(src.drop m).length = off+src.length ∧ (src.drop m).length < src.length := by
  have hlen : 0 < src.length := length_pos_iff.mpr hsrc
  have hself : update node i di i = di := update_self ..
  have hty : di.type = (node i).type := (congrArg Dinode.type hm.fields).trans rfl
  have hi' : Alloc sb (update node i di) i := (alloc_update hty i).mpr hi
  have hslot : slot t.data (update node i di i) (off/BSIZE) = a := by rw [hself,hm.slot_eq]
  have h0 : slot t.data (update node i di i) (off/BSIZE) ≠ 0 := by rw [hslot]; exact hm.ne
  have hwf := hm.wf.fill c hi' hlt h0
  rw [hslot] at hwf
  have hend : off+m ≤ BSIZE*(off/BSIZE+1) := by
    simp only [BSIZE] at *
    omega
  have hmpos : 0 < m := by
    simp only [BSIZE] at *
    omega
  refine ⟨hwf,hi',?_,?_,?_⟩
  · rw [update_self]
    exact hend.trans (Nat.mul_le_mul_left _ (le_max_right _ _))
  · simp only [length_drop]
    omega
  · simp only [length_drop]
    omega

theorem writeLoop_ok (h : Wf sb node mapped st) (hi : Alloc sb node i) (hfuel : src.length ≤ fuel)
    (hoff : off ≤ BSIZE*mapped i) (hmax : off+src.length ≤ MAXFILE*BSIZE)
    (hr : writeLoop sb fuel st (node i) off src = .ok (di',st')) :
    Wrote sb node mapped st i off src di' st' := by
  induction fuel generalizing node st mapped off src with
  | zero =>
    obtain rfl : src = [] := length_eq_zero_iff.mp (by omega)
    cases hr
    exact h.wrote_nil hoff
  | succ fuel ih =>
    unfold writeLoop at hr
    split_ifs at hr with hsrc
    · subst hsrc
      cases hr
      exact h.wrote_nil hoff
    obtain ⟨⟨a,di,t⟩,hb,hr⟩ := bind_ok.mp hr
    obtain ⟨u,hu,hr⟩ := bind_ok.mp hr
    obtain ⟨-,rfl⟩ := (logWrite_ok _).mp hu
    have hlen : 0 < src.length := length_pos_iff.mpr hsrc
    have hbn : off/BSIZE ≤ mapped i := by
      simp only [BSIZE] at *
      omega
    have hlt : off/BSIZE < MAXFILE := by
      simp only [BSIZE,MAXFILE,NDIRECT,NINDIRECT] at *
      omega
    have hm := bmap_ok h hi hbn hlt hb
    set m := min src.length (BSIZE-off%BSIZE) with hmdef
    set c := splice (t.data a) (off%BSIZE) m src with hc
    obtain ⟨hwf,hi',hend,hlast,hless⟩ := hm.next hi hlt hsrc hmdef c
    have hr' : writeLoop sb fuel (t.fill a c) (update node i di i) (off+m) (src.drop m) =
        .ok (di',st') := by
      rw [update_self]
      exact hr
    have w := ih hwf hi' (by omega) hend (by rwa [hlast]) hr'
    exact hm.wrote h hi hlt hsrc hmdef w

theorem bmap_present (h : Filled st.data di n) (hb : bn < n) :
    bmap sb st di bn = .ok (slot st.data di bn,di,st) := by
  have hlt : bn < MAXFILE := hb.trans_le h.most
  have h0 := (h.slots bn hlt).mpr hb
  unfold bmap
  split_ifs with hd hd'
  · have hs : slot st.data di bn = di.addrs bn := by simp [slot,hd]
    rw [hs] at h0 ⊢
    simp [fillAddr,h0]
  · have hind : di.addrs NDIRECT ≠ 0 := h.indirect.mpr (by omega)
    have hs : slot st.data di bn = st.data (di.addrs NDIRECT) (bn-NDIRECT) := by
      simp [slot,hd,hlt,hind]
    rw [hs] at h0 ⊢
    simp only [fillAddr,if_neg hind]
    change Except.bind (fillWord sb st (di.addrs NDIRECT) (bn-NDIRECT)) _ = _
    simp [fillWord,h0,Except.bind]
  · exact absurd (show bn-NDIRECT < NINDIRECT by simp only [MAXFILE] at hlt; omega) hd'

theorem readLoop_ok {m : ℕ} (h : Filled st.data di n) (hfuel : m ≤ fuel) (hend : off+m ≤ BSIZE*n) :
    readLoop sb fuel st di off m = .ok ((range m).map fun j => byteAt st.data di (off+j),di,st) := by
  induction fuel generalizing off m with
  | zero =>
    obtain rfl : m = 0 := by omega
    rfl
  | succ fuel ih =>
    unfold readLoop
    split_ifs with hm
    · simp [hm]
    have hb : off/BSIZE < n := by
      simp only [BSIZE] at *
      omega
    rw [bmap_present h hb]
    set l := min m (BSIZE-off%BSIZE) with hl
    have hl0 : 0 < l ∧ l ≤ m := by
      simp only [BSIZE] at *
      omega
    have hrest := @ih (off+l) (m-l) (by omega) (by omega)
    change Except.bind (readLoop sb fuel st di (off+l) (m-l)) _ = _
    rw [hrest]
    have hsplit : range m = range l++(range (m-l)).map (l+·) := by
      rw [← range_add]
      congr 1
      omega
    rw [hsplit]
    simp only [Except.bind,map_append,map_map]
    congr 3
    · apply map_congr_left
      intro j hj
      have hj : j < l := mem_range.mp hj
      have hd : (off+j)/BSIZE = off/BSIZE ∧ (off+j)%BSIZE = off%BSIZE+j := by
        simp only [BSIZE] at *
        omega
      rw [byteAt,hd.1,hd.2]
    · apply map_congr_left
      intro j _
      simp [Nat.add_assoc]

def Exhausted (m : String) : Prop := m = "balloc: out of blocks" ∨ m = "log_write outside of trans"

/-- The panic `m` in state `st`: the disk is full, or no operation is open. -/
def Fails (st : Store) (m : String) : Prop :=
  m = "balloc: out of blocks" ∨ m = "log_write outside of trans" ∧ st.outstanding < 1

theorem Fails.exhausted (h : Fails st m) : Exhausted m := h.imp_right And.left

theorem Fails.congr (h : Fails st' m) (ho : st'.outstanding = st.outstanding) :
    Fails st m := h.imp_right fun hm => ⟨hm.1,ho ▸ hm.2⟩

theorem logWrite_error (h : logWrite st = .error m) : Fails st m := by
  unfold logWrite at h
  split_ifs at h with ho
  exact .inr ⟨(Except.error.inj h).symm,ho⟩

theorem balloc_error (h : balloc sb st = .error m) : Fails st m := by
  unfold balloc at h
  split at h
  · exact .inl (Except.error.inj h).symm
  · rcases bind_error.mp h with h | ⟨t,-,h⟩
    · exact (logWrite_error h).congr rfl
    · cases h

theorem balloc_outstanding (h : balloc sb st = .ok (a,st')) : st'.outstanding = st.outstanding := by
  unfold balloc at h
  split at h
  · cases h
  · obtain ⟨t,ht,h⟩ := bind_ok.mp h
    obtain ⟨-,rfl⟩ := (logWrite_ok _).mp ht
    cases h
    rfl

theorem fillAddr_error (h : fillAddr sb st di k = .error m) : Fails st m := by
  unfold fillAddr at h
  split_ifs at h
  rcases bind_error.mp h with h | ⟨t,-,h⟩
  · exact balloc_error h
  · cases h

theorem fillAddr_outstanding (h : fillAddr sb st di k = .ok (a,di',st')) :
    st'.outstanding = st.outstanding := by
  unfold fillAddr at h
  split_ifs at h
  · obtain ⟨⟨b,t⟩,ht,h⟩ := bind_ok.mp h
    cases h
    exact balloc_outstanding ht
  · cases h
    rfl

theorem fillWord_error {ind : ℕ} (h : fillWord sb st ind j = .error m) : Fails st m := by
  unfold fillWord at h
  split_ifs at h
  rcases bind_error.mp h with h | ⟨⟨b,t⟩,ht,h⟩
  · exact balloc_error h
  · rcases bind_error.mp h with h | ⟨u,-,h⟩
    · have ho := balloc_outstanding ht
      exact (logWrite_error h).congr ho
    · cases h

theorem fillWord_outstanding {ind : ℕ} (h : fillWord sb st ind j = .ok (a,st')) :
    st'.outstanding = st.outstanding := by
  unfold fillWord at h
  split_ifs at h
  · obtain ⟨⟨b,t⟩,ht,h⟩ := bind_ok.mp h
    obtain ⟨u,hu,h⟩ := bind_ok.mp h
    obtain ⟨-,rfl⟩ := (logWrite_ok _).mp hu
    have ho := balloc_outstanding ht
    cases h
    exact ho
  · cases h
    rfl

theorem bmap_error (hbn : bn < MAXFILE) (h : bmap sb st di bn = .error m) : Fails st m := by
  unfold bmap at h
  split_ifs at h with h1 h2
  · exact fillAddr_error h
  · rcases bind_error.mp h with h | ⟨⟨b,di',t⟩,ht,h⟩
    · exact fillAddr_error h
    · rcases bind_error.mp h with h | ⟨u,-,h⟩
      · exact (fillWord_error h).congr (fillAddr_outstanding ht)
      · cases h
  · exact absurd (show bn-NDIRECT < NINDIRECT by simp only [MAXFILE] at hbn; omega) h2

theorem bmap_outstanding (h : bmap sb st di bn = .ok (a,di',st')) :
    st'.outstanding = st.outstanding := by
  unfold bmap at h
  split_ifs at h
  · exact fillAddr_outstanding h
  · obtain ⟨⟨b,di₁,t⟩,ht,h⟩ := bind_ok.mp h
    obtain ⟨⟨c,u⟩,hu,h⟩ := bind_ok.mp h
    cases h
    exact (fillWord_outstanding hu).trans (fillAddr_outstanding ht)

theorem writeLoop_outstanding
    (h : writeLoop sb fuel st di off src = .ok (di',st')) : st'.outstanding = st.outstanding := by
  induction fuel generalizing st di off src with
  | zero =>
    cases h
    rfl
  | succ fuel ih =>
    unfold writeLoop at h
    split_ifs at h with hsrc
    · cases h
      rfl
    obtain ⟨⟨a,di₁,t⟩,ht,h⟩ := bind_ok.mp h
    obtain ⟨u,hu,h⟩ := bind_ok.mp h
    obtain ⟨-,rfl⟩ := (logWrite_ok _).mp hu
    have ho := bmap_outstanding ht
    exact (ih h).trans ho

theorem writeLoop_error
    (hmax : off+src.length ≤ MAXFILE*BSIZE) (h : writeLoop sb fuel st di off src = .error m) :
    Fails st m := by
  induction fuel generalizing st di off src with
  | zero => cases h
  | succ fuel ih =>
    unfold writeLoop at h
    split_ifs at h with hsrc
    have hlen : 0 < src.length := length_pos_iff.mpr hsrc
    rcases bind_error.mp h with h | ⟨⟨a,di',t⟩,ht,h⟩
    · refine bmap_error ?_ h
      simp only [BSIZE,MAXFILE,NDIRECT,NINDIRECT] at *
      omega
    have ho := bmap_outstanding ht
    rcases bind_error.mp h with h | ⟨u,hu,h⟩
    · exact (logWrite_error h).congr ho
    · obtain ⟨-,rfl⟩ := (logWrite_ok _).mp hu
      refine (ih ?_ h).congr ho
      simp only [length_drop]
      omega

theorem writei_error (hn : src.length < 2^32)
    (hoff : off < 2^32) (h : writei sb st i di off src = .error m) : Fails st m := by
  unfold writei at h
  split_ifs at h with h1 h2
  rcases bind_error.mp h with h | ⟨⟨di',t⟩,ht,h⟩
  · refine writeLoop_error ?_ h
    simp only [BSIZE,MAXFILE,NDIRECT,NINDIRECT] at *
    omega
  · dsimp only at h
    split_ifs at h
    rcases bind_error.mp h with h | ⟨u,-,h⟩
    · have ho := writeLoop_outstanding ht
      exact (logWrite_error h).congr ho
    · cases h

def Sound (sb : Superblock) (node : ℕ → Dinode) (st : Store) : Prop :=
  Wf sb node (fun i => blocks (node i).size) st

theorem Sound.size_le (h : Sound sb node st) (hi : Alloc sb node i) : (node i).size ≤ MAXFILE*BSIZE := by
  have := (h.filled i hi).most
  simp only [blocks,BSIZE,MAXFILE,NDIRECT,NINDIRECT] at *
  omega

theorem readi_ok (h : Sound sb node st) (hi : Alloc sb node i) (hn : n < 2^32) :
    readi sb st (node i) off n = .ok (if off > (node i).size ∨ (off+n)%2^32 < off then none
        else some ((range (min n ((node i).size-off))).map fun j => byteAt st.data (node i) (off+j)),
        node i,st) := by
  have hsize := h.size_le hi
  unfold readi
  split_ifs with hc hs
  · rfl
  · have hmin : min n ((node i).size-off) = (node i).size-off := by
      simp only [MAXFILE,BSIZE,NDIRECT,NINDIRECT] at *
      omega
    dsimp only
    rw [hmin,readLoop_ok (h.filled i hi) le_rfl]
    · rfl
    · simp only [blocks,BSIZE] at *
      omega
  · have hmin : min n ((node i).size-off) = n := by
      simp only [MAXFILE,BSIZE,NDIRECT,NINDIRECT] at *
      omega
    dsimp only
    rw [hmin,readLoop_ok (h.filled i hi) le_rfl]
    · rfl
    · simp only [blocks,BSIZE,MAXFILE,NDIRECT,NINDIRECT] at *
      omega

structure Written (sb : Superblock) (node : ℕ → Dinode) (st : Store) (i off : ℕ) (src : List ℕ)
    (di' : Dinode) (st' : Store) : Prop where
  sound : Sound sb (update node i di') st'
  size : di'.size = max (node i).size (off+src.length)
  fields : di' = {node i with addrs := di'.addrs, size := di'.size}
  bytes : ∀ o < di'.size, byteAt st'.data di' o =
    if off ≤ o ∧ o < off+src.length then src.getD (o-off) 0 else byteAt st.data (node i) o
  others : ∀ j, Alloc sb node j → j ≠ i → ∀ o < (node j).size,
    byteAt st'.data (node j) o = byteAt st.data (node j) o
  disk : st'.dinode sb i = di' ∨ (di' = node i ∧ st'.dinode sb i = st.dinode sb i)
  disk_others : ∀ j, j ≠ i → st'.dinode sb j = st.dinode sb j
  outstanding : st'.outstanding = st.outstanding

theorem lt_blocks {o : ℕ} (h : o < n) : o < BSIZE*blocks n := by
  simp only [blocks,BSIZE]
  omega

theorem Owned.congr (h : Owned sb node st) (hd : st'.data = st.data)
    (hu : ∀ b, st'.used sb b = st.used sb b) (ht : ∀ j, Alloc sb node' j ↔ Alloc sb node j)
    (ha : ∀ j, (node' j).addrs = (node j).addrs) : Owned sb node' st' := by
  have hslot : ∀ j l, slot st'.data (node' j) l = slot st.data (node j) l := by
    intro j l
    simp only [slot,hd,ha]
  refine ⟨h.exact.congr ?_ fun b _ => by rw [hu b],fun b hb => ?_,h.start⟩
  · rintro b ⟨j,l⟩
    simp only [Owns,ht,hslot]
  · rw [hu]
    exact h.system b hb

theorem Wf.congr {mapped' : ℕ → ℕ} (h : Wf sb node mapped st)
    (hd : st'.data = st.data) (hu : ∀ b, st'.used sb b = st.used sb b)
    (ht : ∀ j, Alloc sb node' j ↔ Alloc sb node j) (ha : ∀ j, (node' j).addrs = (node j).addrs)
    (hm : ∀ j, Alloc sb node j → mapped' j = mapped j) : Wf sb node' mapped' st' where
  owned := h.owned.congr hd hu ht ha
  filled j hj := by
    have hf := h.filled j ((ht j).mp hj)
    have hslot : ∀ l, slot st'.data (node' j) l = slot st.data (node j) l := by
      intro l
      simp only [slot,hd,ha]
    rw [hm j ((ht j).mp hj)]
    refine ⟨?_,?_,hf.most⟩
    · intro k hk
      rw [hslot]
      exact hf.slots k hk
    · rw [ha]
      exact hf.indirect

theorem writei_ok (h : Sound sb node st) (hi : Alloc sb node i) {r : Option ℕ} (hn : src.length < 2^32)
    (hr : writei sb st i (node i) off src = .ok (r,di',st')) :
    (r = none ∧ di' = node i ∧ st' = st) ∨
      (r = some src.length ∧ off ≤ (node i).size ∧ Written sb node st i off src di' st') := by
  have hsize := h.size_le hi
  unfold writei at hr
  split_ifs at hr with h1 h2
  · cases hr
    exact .inl ⟨rfl,rfl,rfl⟩
  · cases hr
    exact .inl ⟨rfl,rfl,rfl⟩
  obtain ⟨⟨di,t⟩,hl,hr⟩ := bind_ok.mp hr
  right
  have hoff : off ≤ (node i).size := by omega
  have hmax : off+src.length ≤ MAXFILE*BSIZE := by
    simp only [MAXFILE,BSIZE,NDIRECT,NINDIRECT] at *
    omega
  have w := writeLoop_ok (i := i) h hi le_rfl (hoff.trans (by simp only [blocks,BSIZE]; omega)) hmax hl
  have hds : di.size = (node i).size := (congrArg Dinode.size w.fields).trans rfl
  have hty : di.type = (node i).type := (congrArg Dinode.type w.fields).trans rfl
  dsimp only at hr
  split_ifs at hr with hgrow
  · obtain ⟨u,hu,hr⟩ := bind_ok.mp hr
    obtain ⟨-,rfl⟩ := (logWrite_ok _).mp hu
    cases hr
    have hmax' : max (blocks (node i).size) (blocks (off+src.length)) = blocks (off+src.length) := by
      apply max_eq_right
      simp only [blocks,BSIZE] at *
      omega
    refine ⟨rfl,hoff,?_,?_,?_,?_,?_,.inl ?_,?_,w.outstanding⟩
    · refine w.wf.congr rfl (fun _ => rfl) (fun j => ?_) (fun j => ?_) (fun j _ => ?_)
      · unfold Alloc
        by_cases hj : j = i
        · simp [hj]
        · simp [hj]
      · by_cases hj : j = i
        · simp [hj]
        · simp [hj]
      · by_cases hj : j = i
        · subst hj
          simp [hmax']
        · simp [hj]
    · change off+src.length = _
      omega
    · rw [w.fields]
    · intro o ho
      change byteAt t.data di o = _
      split_ifs with hin
      · exact w.written o hin.1 hin.2
      · have ho : o < off+src.length := ho
        exact w.kept o (lt_blocks (by omega)) hin
    · intro j hj hji o ho
      exact w.others j hj hji o (lt_blocks ho)
    · rw [setDinode_dinode,if_pos rfl]
    · intro j hji
      rw [setDinode_dinode,if_neg hji]
      simp only [Store.dinode,w.inodes]
  · cases hr
    have hle : off+src.length ≤ (node i).size := by omega
    have hdi : di' = node i := w.same (hle.trans (by simp only [blocks,BSIZE]; omega))
    subst hdi
    refine ⟨rfl,hoff,?_,?_,rfl,?_,?_,.inr ⟨rfl,?_⟩,?_,w.outstanding⟩
    · refine w.wf.congr rfl (fun _ => rfl) (fun _ => Iff.rfl) (fun _ => rfl) (fun j _ => ?_)
      by_cases hj : j = i
      · subst hj
        have : blocks (off+src.length) ≤ blocks (node j).size := by
          simp only [blocks,BSIZE]
          omega
        simp [max_eq_left this]
      · simp [hj]
    · omega
    · intro o ho
      split_ifs with hin
      · exact w.written o hin.1 hin.2
      · exact w.kept o (lt_blocks ho) hin
    · intro j hj hji o ho
      exact w.others j hj hji o (lt_blocks ho)
    · simp only [Store.dinode,w.inodes]
    · intro j _
      simp only [Store.dinode,w.inodes]

theorem Sound.replace (h : Sound sb node st) (hold : Alloc sb node i → ∀ k, slot st.data (node i) k = 0)
    (hnew : ∀ k, slot st.data di k = 0) (hind : di.addrs NDIRECT = 0) (hsize : di.size = 0) :
    Sound sb (update node i di) st := by
  have hal : ∀ j, j ≠ i → (Alloc sb (update node i di) j ↔ Alloc sb node j) := by
    intro j hj
    simp [Alloc,hj]
  refine ⟨⟨h.owned.exact.congr ?_ fun _ _ => Iff.rfl,h.owned.system,h.owned.start⟩,fun j hj => ?_⟩
  · rintro b ⟨j,l⟩
    by_cases hj : j = i
    · subst hj
      simp only [Owns,update_self,hnew]
      constructor
      · rintro ⟨-,-,he,hb⟩
        exact absurd he.symm hb
      · rintro ⟨hj,-,he,hb⟩
        rw [hold hj] at he
        exact absurd he.symm hb
    · simp only [Owns,hal j hj,update_of_ne hj]
  · by_cases hji : j = i
    · subst hji
      simp only [update_self]
      refine ⟨fun k _ => ?_,?_,?_⟩
      · rw [hnew]
        simp [hsize,blocks,BSIZE]
      · simp [hind,hsize,blocks,BSIZE]
      · simp [hsize,blocks,BSIZE]
    · simp only [update_of_ne hji]
      exact h.filled j ((hal j hji).mp hj)

end Xv6.FileBlocks
