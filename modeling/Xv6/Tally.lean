import Mathlib.Tactic
import Mathlib.Algebra.BigOperators.Group.Finset.Basic

/-!
# Counting over lists and families

A weight on the elements of a list gives the list a weight. A family of natural numbers over a
finite index type has a sum, and a change at one index changes the sum by the difference there. Both
count obligations that are spread over the call stacks of several threads.
-/
namespace Xv6.Tally

section
variable {β : Type*}

def weight (w : β → ℕ) (l : List β) : ℕ := (l.map w).sum

@[simp] theorem weight_nil (w : β → ℕ) : weight w [] = 0 := rfl

@[simp] theorem weight_cons (w : β → ℕ) (x : β) (l : List β) :
    weight w (x::l) = w x+weight w l := by simp [weight]

theorem weight_le {w w' : β → ℕ} (h : ∀ x, w x ≤ w' x) (l : List β) : weight w l ≤ weight w' l := by
  induction l with
  | nil => simp
  | cons x =>
    have := h x
    simp only [weight_cons]
    omega

theorem weight_eq_zero {w : β → ℕ} {l : List β} (h : ∀ x ∈ l, w x = 0) : weight w l = 0 := by
  induction l with
  | nil => rfl
  | cons x l ih =>
    rw [weight_cons,h x (by simp),ih fun y hy => h y (by simp [hy])]

theorem le_weight_of_mem {w : β → ℕ} {x : β} {l : List β} (h : x ∈ l) : w x ≤ weight w l := by
  induction l with
  | nil => simp at h
  | cons y l ih =>
    rcases List.mem_cons.mp h with rfl | h
    · simp
    · have := ih h
      simp only [weight_cons]
      omega

theorem add_le_weight {w : β → ℕ} {x y : β} {l : List β} (hx : x ∈ l) (hy : y ∈ l) (hne : x ≠ y) :
    w x+w y ≤ weight w l := by
  induction l with
  | nil => cases hx
  | cons z l ih =>
    simp only [weight_cons]
    rcases List.mem_cons.mp hx with rfl | hxl
    · rcases List.mem_cons.mp hy with rfl | hyl
      · exact absurd rfl hne
      · have := le_weight_of_mem (w := w) hyl
        omega
    · rcases List.mem_cons.mp hy with rfl | hyl
      · have := le_weight_of_mem (w := w) hxl
        omega
      · have := ih hxl hyl
        omega

end

section
variable {ι : Type*} [Fintype ι]

theorem sum_change [DecidableEq ι] {f g : ι → ℕ} (i : ι) (h : ∀ j, j ≠ i → g j = f j) :
    (∑ j, g j)+f i = (∑ j, f j)+g i := by
  rw [← Finset.add_sum_erase _ f (Finset.mem_univ i), ← Finset.add_sum_erase _ g (Finset.mem_univ i)]
  have hrest : ∑ j ∈ Finset.univ.erase i, g j = ∑ j ∈ Finset.univ.erase i, f j :=
    Finset.sum_congr rfl fun j hj => h j (Finset.ne_of_mem_erase hj)
  omega

theorem le_sum (f : ι → ℕ) (i : ι) : f i ≤ ∑ j, f j :=
  Finset.single_le_sum (fun j _ => Nat.zero_le (f j)) (Finset.mem_univ i)

theorem add_le_sum [DecidableEq ι] (f : ι → ℕ) {i j : ι} (h : i ≠ j) : f i+f j ≤ ∑ k, f k := by
  rw [← Finset.add_sum_erase _ f (Finset.mem_univ i)]
  have hj : f j ≤ ∑ k ∈ Finset.univ.erase i, f k :=
    Finset.single_le_sum (fun k _ => Nat.zero_le (f k)) (Finset.mem_erase.mpr ⟨h.symm,Finset.mem_univ j⟩)
  omega

end
end Xv6.Tally
