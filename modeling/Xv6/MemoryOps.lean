import Mathlib.Logic.Function.Basic
import Mathlib.Tactic

/-!
# memmove and memset

The loops of `string.c` over the bytes of a 32-bit address space. The pointers wrap; the ranges do
not, though one may end at the address 0. A lemma for each loop says what every byte of memory is
afterwards.
-/
namespace Xv6.MemoryOps
open Function (update update_self update_of_ne)

abbrev Memory := BitVec 32 → BitVec 8

def copyUp : ℕ → Memory → BitVec 32 → BitVec 32 → Memory
  | 0,m,_,_ => m
  | n+1,m,d,s => copyUp n (update m d (m s)) (d+1) (s+1)

def copyDown : ℕ → Memory → BitVec 32 → BitVec 32 → Memory
  | 0,m,_,_ => m
  | n+1,m,d,s => copyDown n (update m (d-1) (m (s-1))) (d-1) (s-1)

def memmove (m : Memory) (dst src n : BitVec 32) : Memory :=
  if src < dst ∧ src+n > dst then copyDown n.toNat m (dst+n) (src+n) else copyUp n.toNat m dst src

def Within (d : BitVec 32) (n : ℕ) (a : BitVec 32) : Prop := d.toNat ≤ a.toNat ∧ a.toNat < d.toNat+n

instance (d : BitVec 32) (n : ℕ) (a : BitVec 32) : Decidable (Within d n a) :=
  inferInstanceAs (Decidable (_ ∧ _))

theorem not_within_zero (d a : BitVec 32) : ¬Within d 0 a := fun h => absurd h.2 (Nat.not_lt.mpr h.1)

section
variable {m : Memory} {dst src c : BitVec 32} {n : ℕ}

theorem copyUp_apply (hd : dst.toNat+n ≤ 2^32) (hs : src.toNat+n ≤ 2^32)
    (h : dst.toNat ≤ src.toNat ∨ src.toNat+n ≤ dst.toNat) (a : BitVec 32) :
    copyUp n m dst src a = if Within dst n a then m (src+(a-dst)) else m a := by
  induction n generalizing m dst src with
  | zero => exact (if_neg (not_within_zero dst a)).symm
  | succ n ih =>
    rw [copyUp,ih (by bv_omega) (by bv_omega) (by bv_omega)]
    by_cases had : a = dst
    · subst had
      have hout : ¬Within (a+1) n a := fun ha => by unfold Within at ha; bv_omega
      have hin : Within a (n+1) a := by unfold Within; omega
      rw [if_neg hout,if_pos hin,update_self,BitVec.sub_self,BitVec.add_zero]
    · have hiff : Within (dst+1) n a ↔ Within dst (n+1) a := by unfold Within; bv_omega
      by_cases ha : Within dst (n+1) a
      · -- the byte that is read is not the one just written
        have hne : src+1+(a-(dst+1)) ≠ dst := by unfold Within at ha; bv_omega
        rw [if_pos (hiff.mpr ha),if_pos ha,update_of_ne hne]
        congr 1
        bv_omega
      · rw [if_neg (mt hiff.mp ha),if_neg ha,update_of_ne had]

theorem copyDown_apply (hd : dst.toNat+n ≤ 2^32) (h : src.toNat ≤ dst.toNat) (a : BitVec 32) :
    copyDown n m (dst+BitVec.ofNat 32 n) (src+BitVec.ofNat 32 n) a =
      if Within dst n a then m (src+(a-dst)) else m a := by
  induction n generalizing m with
  | zero => exact (if_neg (not_within_zero dst a)).symm
  | succ n ih =>
    have hstep : ∀ p : BitVec 32, p+BitVec.ofNat 32 (n+1)-1 = p+BitVec.ofNat 32 n := by
      intro p
      bv_omega
    rw [copyDown,hstep,hstep,ih (by omega)]
    by_cases had : a = dst+BitVec.ofNat 32 n
    · have hout : ¬Within dst n a := fun ha => by unfold Within at ha; bv_omega
      have hin : Within dst (n+1) a := by unfold Within; bv_omega
      rw [if_neg hout,if_pos hin,had,update_self]
      congr 1
      bv_omega
    · have hiff : Within dst n a ↔ Within dst (n+1) a := by unfold Within; bv_omega
      by_cases ha : Within dst (n+1) a
      · have hne : src+(a-dst) ≠ dst+BitVec.ofNat 32 n := by unfold Within at ha; bv_omega
        rw [if_pos (hiff.mpr ha),if_pos ha,update_of_ne hne]
      · rw [if_neg (mt hiff.mp ha),if_neg ha,update_of_ne had]

/-- `memmove` leaves the old bytes of the source in the destination, and every other byte alone. -/
theorem memmove_moves {n : BitVec 32} (hd : dst.toNat+n.toNat ≤ 2^32) (hs : src.toNat+n.toNat ≤ 2^32)
    (a : BitVec 32) :
    memmove m dst src n a = if Within dst n.toNat a then m (src+(a-dst)) else m a := by
  unfold memmove
  by_cases h : src < dst ∧ src+n > dst
  · rw [if_pos h]
    have hdown := @copyDown_apply m dst src n.toNat hd (by bv_omega) a
    rwa [BitVec.ofNat_toNat,BitVec.setWidth_eq] at hdown
  · rw [if_neg h]
    refine copyUp_apply hd hs ?_ a
    rcases not_and_or.mp h with h | h
    · exact .inl (by bv_omega)
    · -- were `src+n` to wrap, the destination would too
      bv_omega

theorem memmove_moves_overlap : memmove (fun a => a.setWidth 8) 0xFFFFFFF0 0xFFFFFFE8 16 0xFFFFFFFF = 0xF7 := by
  rw [memmove_moves (by decide) (by decide)]
  decide

/-! ### memset -/

/-- `rep stosb`: the low byte of `data`, `cnt` times upward. -/
def stosb (m : Memory) (addr data : BitVec 32) : ℕ → Memory
  | 0 => m
  | cnt+1 => stosb (update m addr (data.setWidth 8)) (addr+1) data cnt

def storeWord (m : Memory) (addr data : BitVec 32) : Memory :=
  update (update (update (update m addr (data.setWidth 8)) (addr+1) ((data>>>8).setWidth 8))
    (addr+2) ((data>>>16).setWidth 8)) (addr+3) ((data>>>24).setWidth 8)

def stosl (m : Memory) (addr data : BitVec 32) : ℕ → Memory
  | 0 => m
  | cnt+1 => stosl (storeWord m addr data) (addr+4) data cnt

/-- The kernel's `memset`. The first remainder is one of `int`s. -/
def memset (m : Memory) (dst c n : BitVec 32) : Memory :=
  if dst.srem 4 = 0 ∧ n%4 = 0 then
    let c := c &&& 0xFF
    stosl m dst (c<<<24 ||| c<<<16 ||| c<<<8 ||| c) (n/4).toNat
  else stosb m dst c n.toNat

def memsetUser (m : Memory) (dst c n : BitVec 32) : Memory := stosb m dst c n.toNat

theorem stosb_apply (hd : dst.toNat+n ≤ 2^32) (a : BitVec 32) :
    stosb m dst c n a = if Within dst n a then c.setWidth 8 else m a := by
  induction n generalizing m dst with
  | zero => exact (if_neg (not_within_zero dst a)).symm
  | succ n ih =>
    rw [stosb,ih (by bv_omega)]
    by_cases had : a = dst
    · subst had
      have hin : Within a (n+1) a := by unfold Within; omega
      rw [if_pos hin,update_self,ite_self]
    · have hiff : Within (dst+1) n a ↔ Within dst (n+1) a := by unfold Within; bv_omega
      simp only [hiff,update_of_ne had]

theorem stosl_apply {b : BitVec 8} (h : ∀ k ∈ [0,8,16,24], (c>>>k).setWidth 8 = b)
    (hd : dst.toNat+4*n ≤ 2^32) (a : BitVec 32) :
    stosl m dst c n a = if Within dst (4*n) a then b else m a := by
  induction n generalizing m dst with
  | zero => exact (if_neg (not_within_zero dst a)).symm
  | succ n ih =>
    simp only [List.forall_mem_cons,BitVec.ushiftRight_zero] at h
    obtain ⟨h0,h1,h2,h3,-⟩ := h
    rw [stosl,ih (by bv_omega),storeWord,h0,h1,h2,h3]
    by_cases had : a = dst ∨ a = dst+1 ∨ a = dst+2 ∨ a = dst+3
    · have hin : Within dst (4*(n+1)) a := by unfold Within; bv_omega
      rw [if_pos hin]
      rcases had with rfl | rfl | rfl | rfl <;> simp [update]
    · have hiff : Within (dst+4) (4*n) a ↔ Within dst (4*(n+1)) a := by unfold Within; bv_omega
      simp only [not_or] at had
      simp only [hiff,update_of_ne had.2.2.2,update_of_ne had.2.2.1,update_of_ne had.2.1,
        update_of_ne had.1]

/-- The word `memset` builds has the byte in each of its places. -/
theorem word_bytes (c : BitVec 32) : ∀ k ∈ [0,8,16,24],
    (((c &&& 0xFF)<<<24 ||| (c &&& 0xFF)<<<16 ||| (c &&& 0xFF)<<<8 ||| (c &&& 0xFF))>>>k).setWidth 8 =
      c.setWidth 8 := by
  intro k hk
  apply BitVec.eq_of_getLsbD_eq
  intro i hi
  fin_cases hk <;> interval_cases i <;> simp

/-- On either path the kernel's `memset` sets the bytes of the range and no other, as `ulib.c` does. -/
theorem memset_fills {n : BitVec 32} (hd : dst.toNat+n.toNat ≤ 2^32) :
    (∀ a, memset m dst c n a = if Within dst n.toNat a then c.setWidth 8 else m a) ∧
    memset m dst c n = memsetUser m dst c n := by
  have hfill : ∀ a, memset m dst c n a = if Within dst n.toNat a then c.setWidth 8 else m a := by
    intro a
    unfold memset
    by_cases h : dst.srem 4 = 0 ∧ n%4 = 0
    · have hmod := congrArg BitVec.toNat h.2
      have hn : 4*(n/4).toNat = n.toNat := by
        rw [BitVec.toNat_umod] at hmod
        rw [BitVec.toNat_udiv]
        change n.toNat%4 = 0 at hmod
        change 4*(n.toNat/4) = n.toNat
        omega
      rw [if_pos h,stosl_apply (word_bytes c) (by omega),hn]
    · rw [if_neg h,stosb_apply hd]
  exact ⟨hfill,funext fun a => (hfill a).trans (stosb_apply hd a).symm⟩

theorem memset_fills_negative : (∀ a, memset (fun _ => 0) 0xFFFFFFF0 (-1) 16 a =
    if Within 0xFFFFFFF0 16 a then 0xFF else 0) ∧
    memset (fun _ => 0) 0xFFFFFFF0 (-1) 16 = memsetUser (fun _ => 0) 0xFFFFFFF0 (-1) 16 :=
  memset_fills (by decide)

end
end Xv6.MemoryOps
