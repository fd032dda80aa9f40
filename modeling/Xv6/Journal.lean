import Mathlib.Data.List.Chain
import Mathlib.Tactic

/-!
# Journals of state changes

A journal is a list of records, each with a key, the state before the change and the state after it.
It is continuous when, for every key, each record starts from the state its predecessor ended in.
What the next record of a key has to start from is `lastState`.
-/
namespace Xv6.Journal

section
variable {ρ κ σ : Type*} [DecidableEq κ] (key : ρ → κ) (prev next : ρ → σ)

def ofKey (l : List ρ) (k : κ) : List ρ := l.filter fun e => key e = k

def Continuous (l : List ρ) : Prop := ∀ k, (ofKey key l k).IsChain fun e e' => prev e' = next e

/-- The state that the journal says `k` is in; none before its first record. -/
def lastState (l : List ρ) (k : κ) : Option σ := (ofKey key l k).getLast?.map next

variable {key prev next}

theorem continuous_nil : Continuous key prev next [] := fun _ => .nil

theorem ofKey_concat (l : List ρ) (e : ρ) (k : κ) :
    ofKey key (l++[e]) k = if key e = k then ofKey key l k++[e] else ofKey key l k := by
  by_cases h : key e = k <;> simp [ofKey,h]

theorem lastState_concat (l : List ρ) (e : ρ) (k : κ) :
    lastState key next (l++[e]) k = if key e = k then some (next e) else lastState key next l k := by
  unfold lastState
  rw [ofKey_concat]
  split_ifs <;> simp

theorem lastState_eq_none {l : List ρ} {k : κ} (h : ∀ e ∈ l, key e ≠ k) :
    lastState key next l k = none := by
  have hnil : ofKey key l k = [] := by simpa [ofKey] using h
  simp [lastState,hnil]

theorem Continuous.concat {l : List ρ} {e : ρ} (h : Continuous key prev next l)
    (he : ∀ st, lastState key next l (key e) = some st → prev e = st) :
    Continuous key prev next (l++[e]) := by
  intro k
  rw [ofKey_concat]
  split_ifs with hk
  · subst hk
    refine List.isChain_append.mpr ⟨h _,.singleton _,?_⟩
    intro x hx y hy
    simp only [List.head?_cons,Option.mem_def,Option.some.injEq] at hx hy
    subst hy
    exact he _ (by simp [lastState,hx])
  · exact h k

end
end Xv6.Journal
