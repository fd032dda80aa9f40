import Mathlib.Data.Finset.Card
import Xv6.BlockOwners

/-!
# Free blocks

A call that allocates takes a number of free blocks that depends on the file alone, and runs out
only if there were fewer. `Takes` says so of one call and `Takes.bind` adds the numbers up: a write
needs as many free blocks as the file gains, and the block of addresses when it grows past its
direct blocks.
-/
namespace Xv6.FileBlocks
open Function (update_self)
open Machine (bind_ok bind_error)

variable (sb : Superblock)

def freeBlocks (st : Store) : ℕ := ((Finset.range sb.size).filter fun b => st.used sb b = false).card

/-- The blocks of the disk that a file of `n` blocks takes, with the one of addresses. -/
def held (n : ℕ) : ℕ := if n ≤ NDIRECT then n else n+1

/-- The blocks that a file of `m` blocks takes anew to have `n`. -/
def needs (m n : ℕ) : ℕ := held (max m n)-held m

/-- A call that takes `d` free blocks. It panics for want of one only if there are fewer. -/
def Takes {α : Type} (st : Store) (d : ℕ) (x : Except String α) (after : α → Store) : Prop :=
  (∀ r, x = .ok r → freeBlocks sb (after r)+d = freeBlocks sb st) ∧
    (x = .error "balloc: out of blocks" → freeBlocks sb st < d)

variable {sb} {node : ℕ → Dinode} {st st' : Store} {i : ℕ}

theorem held_mono : Monotone held := by
  intro m n h
  unfold held
  split_ifs <;> omega

theorem blocks_mono : Monotone blocks := by
  intro m n h
  simp only [blocks,BSIZE]
  omega

theorem needs_self {m n : ℕ} (h : n ≤ m) : needs m n = 0 := by rw [needs,max_eq_left h,Nat.sub_self]

theorem needs_trans (m n k : ℕ) : needs m n+needs (max m n) k = needs m (max n k) := by
  have h1 : held m ≤ held (max m n) := held_mono (le_max_left _ _)
  have h2 : held (max m n) ≤ held (max (max m n) k) := held_mono (le_max_left _ _)
  have h3 : max m (max n k) = max (max m n) k := (max_assoc _ _ _).symm
  unfold needs
  rw [h3]
  omega

theorem needs_succ (n : ℕ) : needs n (n+1) = (if n = NDIRECT then 1 else 0)+1 := by
  unfold needs held
  rw [max_eq_right (Nat.le_succ n)]
  split_ifs <;> omega

theorem freeBlocks_congr (h : ∀ b, st'.used sb b = st.used sb b) :
    freeBlocks sb st' = freeBlocks sb st := by simp only [freeBlocks,h]

/-! ## Calls one after the other -/

section
variable {α β : Type} {x : Except String α} {f : α → Except String β} {after : α → Store}
  {after' : β → Store} {d e : ℕ}

theorem Takes.bind (h : Takes sb st d x after)
    (hf : ∀ r, x = .ok r → Takes sb (after r) e (f r) after') :
    Takes sb st (d+e) (x >>= f) after' := by
  constructor
  · intro r' hr
    obtain ⟨r,hx,hr⟩ := bind_ok.mp hr
    have h1 := h.1 r hx
    have h2 := (hf r hx).1 r' hr
    omega
  · intro herr
    rcases bind_error.mp herr with hx | ⟨r,hx,herr⟩
    · have h1 := h.2 hx
      omega
    · have h1 := h.1 r hx
      have h2 := (hf r hx).2 herr
      omega

theorem Takes.ok {r : α} (h : ∀ b, (after r).used sb b = st.used sb b) :
    Takes sb st 0 (.ok r) after := by
  refine ⟨fun r' hr => ?_,fun herr => by cases herr⟩
  cases hr
  exact freeBlocks_congr h

theorem Takes.congr (h : Takes sb st d x after) (he : d = e) : Takes sb st e x after := he ▸ h

theorem Takes.enough (h : Takes sb st d x after) (hd : d ≤ freeBlocks sb st) :
    x ≠ .error "balloc: out of blocks" := fun herr => absurd (h.2 herr) (Nat.not_lt.mpr hd)

end

theorem logWrite_takes (h : ∀ b, st'.used sb b = st.used sb b) : Takes sb st 0 (logWrite st') id := by
  unfold logWrite
  split_ifs
  · exact ⟨fun r hr => (by cases hr),fun herr => absurd (Except.error.inj herr) (by decide)⟩
  · exact .ok h

theorem balloc_takes : Takes sb st 1 (balloc sb st) Prod.snd := by
  unfold balloc
  split
  · rename_i hnone
    refine ⟨fun r hr => (by cases hr),fun _ => ?_⟩
    have hall := List.find?_eq_none.mp hnone
    have hempty : (Finset.range sb.size).filter (fun b => st.used sb b = false) = ∅ := by
      refine Finset.filter_eq_empty_iff.mpr fun b hb hfree => ?_
      exact hall b (List.mem_range.mpr (Finset.mem_range.mp hb)) (by rw [hfree]; rfl)
    rw [freeBlocks,hempty]
    exact Nat.one_pos
  · rename_i b hb
    have hfree : st.used sb b = false := by simpa using List.find?_some hb
    have hlt : b < sb.size := by simpa using List.mem_of_find?_eq_some hb
    have hmark : freeBlocks sb (st.mark sb b true)+1 = freeBlocks sb st := by
      have hmem : b ∈ (Finset.range sb.size).filter fun c => st.used sb c = false :=
        Finset.mem_filter.mpr ⟨Finset.mem_range.mpr hlt,hfree⟩
      have herase : ((Finset.range sb.size).filter fun c => (st.mark sb b true).used sb c = false) =
          ((Finset.range sb.size).filter fun c => st.used sb c = false).erase b := by
        ext c
        rw [Finset.mem_erase,Finset.mem_filter,Finset.mem_filter,mark_used]
        by_cases hc : c = b
        · simp [hc]
        · simp [hc]
      rw [freeBlocks,herase]
      exact Finset.card_erase_add_one hmem
    have hrest : Takes sb (st.mark sb b true) (0+0)
        ((logWrite (st.mark sb b true)).bind fun t => .ok (b,t.fill b fun _ => 0)) Prod.snd :=
      (logWrite_takes fun _ => rfl).bind fun t _ => .ok fun _ => rfl
    refine ⟨fun r hr => ?_,fun herr => ?_⟩
    · have := hrest.1 r hr
      omega
    · have := hrest.2 herr
      omega

theorem fillAddr_takes (di : Dinode) (k : ℕ) :
    Takes sb st (if di.addrs k = 0 then 1 else 0) (fillAddr sb st di k) (·.2.2) := by
  unfold fillAddr
  split_ifs with h0
  · refine (balloc_takes.bind (e := 0) fun r _ => ?_)
    exact .ok fun _ => rfl
  · exact .ok fun _ => rfl

theorem fillWord_takes (ind j : ℕ) :
    Takes sb st (if st.data ind j = 0 then 1 else 0) (fillWord sb st ind j) Prod.snd := by
  unfold fillWord
  split_ifs with h0
  · refine balloc_takes.bind (e := 0) fun r _ => ?_
    refine (logWrite_takes fun _ => rfl).bind (e := 0) fun t _ => ?_
    exact .ok fun _ => rfl
  · exact .ok fun _ => rfl

/-! ## Writes -/

theorem bmap_takes {mapped : ℕ → ℕ} (h : Wf sb node mapped st) (hi : Alloc sb node i) {bn : ℕ}
    (hn : bn ≤ mapped i) (hlt : bn < MAXFILE) :
    Takes sb st (needs (mapped i) (bn+1)) (bmap sb st (node i) bn) (·.2.2) := by
  have hfi := h.filled i hi
  rcases hn.lt_or_eq with hb | hb
  · rw [bmap_present hfi hb]
    exact (Takes.ok fun _ => rfl).congr (needs_self hb).symm
  have hslot : slot st.data (node i) bn = 0 := by
    by_contra h0
    have := (hfi.slots bn hlt).mp h0
    omega
  rw [← hb,needs_succ]
  unfold bmap
  by_cases hd : bn < NDIRECT
  · have haddr : (node i).addrs bn = 0 := by
      rw [← hslot]
      simp [slot,hd]
    rw [if_pos hd,if_neg hd.ne]
    exact (fillAddr_takes _ _).congr (by rw [if_pos haddr])
  · have hword : bn-NDIRECT < NINDIRECT := by
      simp only [MAXFILE] at hlt
      omega
    have haddr : (node i).addrs NDIRECT = 0 ↔ bn = NDIRECT := by
      have := hfi.indirect
      rw [← not_iff_not,← ne_eq,this]
      omega
    rw [if_neg hd,if_pos hword]
    refine Takes.bind ((fillAddr_takes _ _).congr (by simp only [haddr])) fun r hr => ?_
    obtain ⟨ind,di,t⟩ := r
    obtain ⟨hp,hind0,hdi,-⟩ := fillAddr_ok h.owned hi le_rfl hr
    rw [slotOf,if_neg (lt_irrefl _)] at hp
    have hind : di.addrs NDIRECT = ind := by simp [hdi]
    -- the word is still zero, whether the block of addresses is new or not
    have hzero : t.data ind (bn-NDIRECT) = 0 := by
      have := hp.slots bn hlt.le
      rw [if_neg hlt.ne,hslot] at this
      simpa [slot,hd,hlt,hind,hind0] using this
    refine Takes.bind (e := 0) ((fillWord_takes _ _).congr (if_pos hzero)) fun r _ => ?_
    exact .ok fun _ => rfl

theorem writeLoop_takes {fuel : ℕ} {mapped : ℕ → ℕ} {off : ℕ} {src : List ℕ}
    (h : Wf sb node mapped st) (hi : Alloc sb node i) (hfuel : src.length ≤ fuel)
    (hoff : off ≤ BSIZE*mapped i) (hmax : off+src.length ≤ MAXFILE*BSIZE) :
    Takes sb st (needs (mapped i) (blocks (off+src.length)))
      (writeLoop sb fuel st (node i) off src) Prod.snd := by
  have hnil : ∀ {node : ℕ → Dinode} {mapped : ℕ → ℕ} {st : Store} {off : ℕ}, off ≤ BSIZE*mapped i →
      Takes sb st (needs (mapped i) (blocks (off+([] : List ℕ).length))) (.ok (node i,st)) Prod.snd := by
    intro node mapped st off hoff
    refine (Takes.ok fun _ => rfl).congr (needs_self ?_).symm
    simp only [blocks,BSIZE,List.length_nil] at *
    omega
  induction fuel generalizing node st mapped off src with
  | zero =>
    obtain rfl : src = [] := List.length_eq_zero_iff.mp (by omega)
    exact hnil hoff
  | succ fuel ih =>
    unfold writeLoop
    split_ifs with hsrc
    · subst hsrc
      exact hnil hoff
    have hlen : 0 < src.length := List.length_pos_iff.mpr hsrc
    have hbn : off/BSIZE ≤ mapped i := by
      simp only [BSIZE] at *
      omega
    have hlt : off/BSIZE < MAXFILE := by
      simp only [BSIZE,MAXFILE,NDIRECT,NINDIRECT] at *
      omega
    have hlast : max (off/BSIZE+1) (blocks (off+src.length)) = blocks (off+src.length) := by
      apply max_eq_right
      simp only [blocks,BSIZE] at *
      omega
    rw [← hlast,← needs_trans]
    refine (bmap_takes h hi hbn hlt).bind fun r hr => ?_
    obtain ⟨a,di,t⟩ := r
    have hm := bmap_ok h hi hbn hlt hr
    set m := min src.length (BSIZE-off%BSIZE) with hmdef
    set c := splice (t.data a) (off%BSIZE) m src with hc
    obtain ⟨hwf,hi',hend,hrest,hless⟩ := hm.next hi hlt hsrc hmdef c
    have hfuel' : (src.drop m).length ≤ fuel := by omega
    have hloop := ih hwf hi' hfuel' hend (by rwa [hrest])
    rw [hrest,update_self,update_self] at hloop
    refine ((logWrite_takes fun _ => rfl).bind fun u hu => ?_).congr (Nat.zero_add _)
    obtain ⟨-,rfl⟩ := (logWrite_ok _).mp hu
    exact hloop

theorem writei_takes (h : Sound sb node st) (hi : Alloc sb node i) {off : ℕ} {src : List ℕ}
    (hoff : off ≤ (node i).size) (hmax : off+src.length ≤ MAXFILE*BSIZE) :
    Takes sb st (needs (blocks (node i).size) (blocks (off+src.length)))
      (writei sb st i (node i) off src) (·.2.2) := by
  have hmod : (off+src.length)%2^32 = off+src.length := by
    apply Nat.mod_eq_of_lt
    simp only [MAXFILE,BSIZE,NDIRECT,NINDIRECT] at hmax
    omega
  unfold writei
  rw [hmod,if_neg (by omega),if_neg (by omega)]
  have hin : off ≤ BSIZE*blocks (node i).size := hoff.trans (by simp only [blocks,BSIZE]; omega)
  refine (writeLoop_takes h hi le_rfl hin hmax).bind (e := 0) fun r _ => ?_
  dsimp only
  split_ifs
  · refine (logWrite_takes fun _ => rfl).bind (e := 0) fun t _ => ?_
    exact .ok fun _ => rfl
  · exact .ok fun _ => rfl

end Xv6.FileBlocks
