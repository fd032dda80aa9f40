import Mathlib.Data.List.GetD
import Mathlib.Logic.Function.Basic
import Mathlib.Tactic

/-!
# Bytes in words

A memory of words that is read and written byte by byte. A word holds four bytes, the lowest first.
-/
namespace Xv6.Words
open Function (update update_self update_of_ne)

def byteOf (w k : ℕ) : ℕ := w/256^k%256

def setByte (w k b : ℕ) : ℕ := w%2^32/256^(k+1)*256^(k+1)+b%256*256^k+w%256^k

def byteAt (c : ℕ → ℕ) (o : ℕ) : ℕ := byteOf (c (o/4)) (o%4)

def putByte (c : ℕ → ℕ) (o b : ℕ) : ℕ → ℕ := update c (o/4) (setByte (c (o/4)) (o%4) b)

def putBytes : (ℕ → ℕ) → ℕ → List ℕ → ℕ → ℕ
  | c,_,[] => c
  | c,o,b::bs => putBytes (putByte c o b) (o+1) bs

theorem byteOf_setByte (w b : ℕ) {j k : ℕ} (hj : j < 4) (hk : k < 4) :
    byteOf (setByte w k b) j = if j = k then b%256 else byteOf w j := by
  unfold byteOf setByte
  interval_cases j <;> interval_cases k <;> simp <;> omega

theorem byteAt_putByte (c : ℕ → ℕ) (o b x : ℕ) :
    byteAt (putByte c o b) x = if x = o then b%256 else byteAt c x := by
  have hx : x%4 < 4 := Nat.mod_lt _ (by decide)
  have ho : o%4 < 4 := Nat.mod_lt _ (by decide)
  unfold byteAt putByte
  by_cases hdiv : x/4 = o/4
  · rw [hdiv,update_self,byteOf_setByte _ _ hx ho]
    exact if_congr (by omega) rfl rfl
  · rw [update_of_ne hdiv,if_neg fun he => hdiv (by rw [he])]

theorem byteAt_putBytes (c : ℕ → ℕ) (o : ℕ) (bs : List ℕ) (x : ℕ) : byteAt (putBytes c o bs) x =
      if o ≤ x ∧ x < o+bs.length then bs.getD (x-o) 0%256 else byteAt c x := by
  induction bs generalizing c o with
  | nil => rw [putBytes,if_neg (by simp)]
  | cons b bs ih =>
    rw [putBytes,ih,byteAt_putByte,List.length_cons]
    by_cases hx : x = o
    · subst hx
      rw [if_neg (by omega),if_pos rfl,if_pos (by omega),Nat.sub_self,List.getD_cons_zero]
    · by_cases hin : o+1 ≤ x ∧ x < o+1+bs.length
      · rw [if_pos hin,if_pos (by omega),show x-o = x-(o+1)+1 by omega,List.getD_cons_succ]
      · rw [if_neg hin,if_neg hx,if_neg (by omega)]

end Xv6.Words
