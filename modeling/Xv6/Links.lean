import Mathlib.Data.List.Rotate
import Mathlib.Data.List.Chain
import Mathlib.Tactic

/-!
# Singly linked rings

`Linked next l` says that each node of `l` points to the one behind it. A ring with the nodes `x::l`
is the chain `x::l++[x]`, which can be walked from any of its nodes. A search along it that some
node ends finds one within as many steps as there are nodes.

Loops without a bound take one as their first argument. `Halts f r` says that `f` has the result `r`
for every bound from some point on and none before it.
-/
namespace Xv6.Links
open List

section
variable {α β : Type*} {f : ℕ → Option α} {r : α}

/-- The result `r` once the bound is large enough. -/
def Halts (f : ℕ → Option α) (r : α) : Prop :=
  ∃ k, ∀ fuel, f fuel = if k ≤ fuel then some r else none

theorem Halts.eq {r' : α} {fuel : ℕ} (h : Halts f r) (hr : f fuel = some r') : r' = r := by
  obtain ⟨k,hk⟩ := h
  rw [hk] at hr
  split_ifs at hr
  exact (Option.some_injective _ hr).symm

theorem Halts.enough (h : Halts f r) : ∃ k, ∀ fuel, k ≤ fuel → f fuel = some r := by
  obtain ⟨k,hk⟩ := h
  exact ⟨k,fun fuel hfuel => (hk fuel).trans (if_pos hfuel)⟩

theorem Halts.last (h0 : f 0 = none) (hs : ∀ n, f (n+1) = some r) : Halts f r := by
  refine ⟨1,fun fuel => ?_⟩
  cases fuel with
  | zero => exact h0
  | succ n => simpa using hs n

theorem Halts.const (r : α) : Halts (fun _ => some r) r := ⟨0,fun _ => rfl⟩

theorem Halts.round {g : ℕ → Option α} (h : Halts g r) (h0 : f 0 = none)
    (hs : ∀ n, f (n+1) = g n) : Halts f r := by
  obtain ⟨k,hk⟩ := h
  refine ⟨k+1,fun fuel => ?_⟩
  cases fuel with
  | zero => simpa using h0
  | succ =>
    rw [hs,hk]
    simp only [Nat.add_le_add_iff_right]

theorem Halts.map (h : Halts f r) (g : α → β) : Halts (fun n => (f n).map g) (g r) := by
  obtain ⟨k,hk⟩ := h
  refine ⟨k,fun fuel => ?_⟩
  simp only [hk]
  split_ifs <;> rfl

theorem Halts.bind {g : ℕ → α → Option β} {r' : β} (h : Halts f r)
    (h' : Halts (fun n => g n r) r') : Halts (fun n => (f n).bind (g n)) r' := by
  obtain ⟨k,hk⟩ := h
  obtain ⟨k',hk'⟩ := h'
  refine ⟨max k k',fun fuel => ?_⟩
  simp only [hk,max_le_iff]
  by_cases hf : k ≤ fuel
  · simpa [hf] using hk' fuel
  · simp [hf]

end

section
variable {α : Type*} {next next' : α → α} {x y z : α} {l : List α}

def Linked (next : α → α) (l : List α) : Prop := l.IsChain fun u v => next u = v

theorem linked_split {a b : List α} :
    Linked next (a++x::b) ↔ Linked next (a++[x]) ∧ Linked next (x::b) := isChain_split

theorem linked_cons_cons : Linked next (x::y::l) ↔ next x = y ∧ Linked next (y::l) :=
  isChain_cons_cons

theorem linked_singleton : Linked next [x] := isChain_singleton x

theorem Linked.init (h : Linked next (l++[z])) : Linked next l := (isChain_append.mp h).1

theorem Linked.next_mem {w : α} (h : Linked next (l++[z])) (hw : w ∈ l) : next w ∈ l++[z] := by
  obtain ⟨a,b,rfl⟩ := append_of_mem hw
  rw [append_assoc,cons_append] at h ⊢
  have hl := (linked_split.mp h).2
  cases b with
  | nil | cons => simp [(linked_cons_cons.mp hl).1]

theorem Linked.congr (h : Linked next (l++[z])) (he : ∀ w ∈ l, next' w = next w) :
    Linked next' (l++[z]) := by
  induction l with
  | nil => exact linked_singleton
  | cons x l ih =>
    have hl := ih (h.tail) fun w hw => he w (mem_cons_of_mem _ hw)
    cases l with
    | nil | cons =>
      exact linked_cons_cons.mpr ⟨(he x (by simp)).trans (linked_cons_cons.mp h).1,hl⟩

theorem Linked.redirect [DecidableEq α] {b : α} (h : Linked next (x::l++[z])) (hb : b ∉ l) :
    Linked (Function.update next b (next x)) (b::l++[z]) := by
  have he : ∀ w ∈ l, Function.update next b (next x) w = next w :=
    fun w hw => Function.update_of_ne (fun hwb : w = b => hb (hwb ▸ hw)) _ _
  cases l with
  | nil =>
    have hx : next x = z := (linked_cons_cons.mp h).1
    exact linked_cons_cons.mpr ⟨by simp [hx],linked_singleton⟩
  | cons =>
    obtain ⟨hx,hl⟩ := linked_cons_cons.mp h
    exact linked_cons_cons.mpr ⟨by simp [hx],Linked.congr hl he⟩

theorem Linked.rotate (h : Linked next (x::l++[x])) (hy : y ∈ x::l) :
    ∃ l', Linked next (y::l'++[y]) ∧ (y::l').IsRotated (x::l) := by
  obtain ⟨a,b,hab⟩ := append_of_mem hy
  cases a with
  | nil =>
    cases hab
    exact ⟨l,h,.refl _⟩
  | cons x' a =>
    obtain ⟨rfl,rfl⟩ := List.cons.inj hab
    have h' : Linked next ((x::a)++y::(b++[x])) := by simpa using h
    obtain ⟨ha,hb⟩ := linked_split.mp h'
    refine ⟨b++x::a,?_,?_⟩
    · have hr : Linked next ((y::b)++x::(a++[y])) := linked_split.mpr ⟨hb,ha⟩
      simpa using hr
    · have hr : ((y::b)++(x::a)).IsRotated ((x::a)++(y::b)) :=
        ⟨(y::b).length,rotate_append_length_eq _ _⟩
      exact hr

variable (next) in
def search (accept : α → Bool) : ℕ → α → Option α
  | 0,_ => none
  | fuel+1,x => if accept x then some x else search accept fuel (next x)

theorem Linked.search_halts {accept : α → Bool} (h : Linked next (x::l)) (hy : ∃ w ∈ x::l, accept w) :
    ∃ w ∈ x::l, accept w ∧ Halts (fun fuel => search next accept fuel x) w := by
  induction l generalizing x with
  | nil =>
    obtain ⟨w,hw,ha⟩ := hy
    obtain rfl := mem_singleton.mp hw
    exact ⟨w,hw,ha,.last rfl fun n => if_pos ha⟩
  | cons y l ih =>
    obtain ⟨hxy,hl⟩ := linked_cons_cons.mp h
    by_cases hx : accept x
    · exact ⟨x,by simp,hx,.last rfl fun n => if_pos hx⟩
    · have hy : ∃ w ∈ y::l, accept w := by
        obtain ⟨w,hw,ha⟩ := hy
        rcases mem_cons.mp hw with rfl | hw
        · exact absurd ha hx
        · exact ⟨w,hw,ha⟩
      obtain ⟨w,hw,ha,hs⟩ := ih hl hy
      refine ⟨w,mem_cons_of_mem _ hw,ha,hs.round rfl fun n => ?_⟩
      rw [search,if_neg hx,hxy]

end
end Xv6.Links
