import Mathlib.Logic.Relation
import Mathlib.Order.Basic

/-!
# Cycles of a relation

A cycle is a nonempty chain of edges from a point to itself. Every edge of it has one before and one
after it, so to exclude cycles it is enough to give a rank that increases along such edges.
-/
namespace Xv6.WaitFor
open Relation

section
variable {α : Type*} {R : α → α → Prop} {x y : α}

def Inner (R : α → α → Prop) (x y : α) : Prop := R x y ∧ (∃ w, R w x) ∧ ∃ z, R y z

theorem exists_last (h : TransGen R x y) : ∃ w, R w y := by
  cases h with
  | single h | tail _ h => exact ⟨_,h⟩

theorem inner_chain (h : TransGen R x y) (hx : ∃ w, R w x) (hy : ∃ z, R y z) :
    TransGen (Inner R) x y := by
  induction h with
  | single h => exact .single ⟨h,hx,hy⟩
  | tail hxy h ih => exact (ih ⟨_,h⟩).tail ⟨h,exists_last hxy,hy⟩

theorem inner_cycle (h : TransGen R x x) : TransGen (Inner R) x x := by
  refine inner_chain h (exists_last h) ?_
  obtain ⟨z,hz,-⟩ := TransGen.head'_iff.mp h
  exact ⟨z,hz⟩

theorem no_cycle {β : Type*} [Preorder β] (rank : α → β)
    (h : ∀ x y, Inner (Inner R) x y → rank x < rank y) (x : α) : ¬ TransGen R x x := by
  intro hc
  have hrank : TransGen (· < ·) (rank x) (rank x) := (inner_cycle (inner_cycle hc)).lift rank h
  rw [transGen_eq_self] at hrank
  exact lt_irrefl _ hrank

end
end Xv6.WaitFor
