import Mathlib.Tactic

/-!
# Runs of a labelled machine

A machine is a partial step function on states and labels. `Reach` collects the states of the runs
whose every step meets a condition in the state it is taken in. `run` executes a list of labels, so
that a concrete run can be evaluated.
-/
namespace Xv6.Machine

section
variable {σ α : Type*} (step : σ → α → Option σ) (ok : σ → α → Prop)

/-- The states reached from `s₀` by steps that meet `ok`. -/
inductive Reach (s₀ : σ) : σ → Prop
  | refl : Reach s₀ s₀
  | tail {s s' : σ} {a : α} : Reach s₀ s → ok s a → step s a = some s' → Reach s₀ s'

variable {step ok}

theorem Reach.invariant {s₀ s : σ} {I : σ → Prop} (h : Reach step ok s₀ s) (h0 : I s₀)
    (hstep : ∀ s a s', I s → ok s a → step s a = some s' → I s') : I s := by
  induction h with
  | refl => exact h0
  | tail _ hok hs ih => exact hstep _ _ _ ih hok hs

variable (step) in
def run (s : σ) : List α → Option σ
  | [] => some s
  | a::as => (step s a).bind fun s' => run s' as

variable (step ok) in
def guarded [∀ s a, Decidable (ok s a)] (s : σ) (a : α) : Option σ :=
  if ok s a then step s a else none

theorem of_guarded [∀ s a, Decidable (ok s a)] {s s' : σ} {a : α} (h : guarded step ok s a = some s') :
    ok s a ∧ step s a = some s' := by
  unfold guarded at h
  split_ifs at h with hok
  exact ⟨hok,h⟩

theorem Reach.of_run [∀ s a, Decidable (ok s a)] {s₀ s s' : σ} {as : List α}
    (h : Reach step ok s₀ s) (hr : run (guarded step ok) s as = some s') : Reach step ok s₀ s' := by
  induction as generalizing s with
  | nil =>
    cases hr
    exact h
  | cons a as ih =>
    obtain ⟨t,ht,hr⟩ := Option.bind_eq_some_iff.mp hr
    obtain ⟨hok,ht⟩ := of_guarded ht
    exact ih (h.tail hok ht) hr

theorem guarded_true [∀ s a, Decidable (ok s a)] (h : ∀ s a, ok s a) : guarded step ok = step := by
  funext s a
  exact if_pos (h s a)

variable (step) in
/-- A run of `n` steps with all its states. What follows the last state is unused. -/
structure Trace (s₀ : σ) (n : ℕ) where
  state : ℕ → σ
  label : ℕ → α
  start : state 0 = s₀
  next : ∀ m < n, step (state m) (label m) = some (state (m+1))

theorem Trace.keeps {s₀ : σ} {n m k : ℕ} (t : Trace step s₀ n) {I : σ → Prop} (hmk : m ≤ k)
    (hk : k ≤ n) (h : I (t.state m))
    (hstep : ∀ j < n, I (t.state j) → I (t.state (j+1))) : I (t.state k) := by
  induction k,hmk using Nat.le_induction with
  | base => exact h
  | succ j _ ih => exact hstep j (by omega) (ih (by omega))

theorem Trace.reach {s₀ : σ} {n m : ℕ} (t : Trace step s₀ n) (hm : m ≤ n) :
    Reach step (fun _ _ => True) s₀ (t.state m) := by
  induction m with
  | zero =>
    rw [t.start]
    exact .refl
  | succ m ih => exact (ih (by omega)).tail trivial (t.next m (by omega))

def Trace.unguard [∀ s a, Decidable (ok s a)] {s₀ : σ} {n : ℕ} (t : Trace (guarded step ok) s₀ n) :
    Trace step s₀ n where
  state := t.state
  label := t.label
  start := t.start
  next m hm := (of_guarded (t.next m hm)).2

theorem Trace.checked [∀ s a, Decidable (ok s a)] {s₀ : σ} {n m : ℕ} (t : Trace (guarded step ok) s₀ n)
    (hm : m < n) : ok (t.state m) (t.label m) := (of_guarded (t.next m hm)).1

theorem run_append (s : σ) (as bs : List α) :
    run step s (as++bs) = (run step s as).bind fun s' => run step s' bs := by
  induction as generalizing s with
  | nil => rfl
  | cons a as ih =>
    simp only [List.cons_append,run,Option.bind_assoc]
    exact congrArg _ (funext ih)

def Trace.ofRun (s₀ : σ) (as : List α) (d : α) (h : (run step s₀ as).isSome) :
    Trace step s₀ as.length where
  state m := (run step s₀ (as.take m)).getD s₀
  label m := as.getD m d
  start := rfl
  next m hm := by
    have hsplit : as = as.take (m+1)++as.drop (m+1) := (as.take_append_drop _).symm
    rw [hsplit,run_append] at h
    obtain ⟨u,hu⟩ := Option.isSome_iff_exists.mp h
    obtain ⟨t,ht,-⟩ := Option.bind_eq_some_iff.mp hu
    have htake : as.take (m+1) = as.take m++[as.get ⟨m,hm⟩] := List.take_succ_eq_append_getElem hm
    have hstep := ht
    rw [htake,run_append] at hstep
    obtain ⟨v,hv,hw⟩ := Option.bind_eq_some_iff.mp hstep
    obtain ⟨w,hw,hwt⟩ := Option.bind_eq_some_iff.mp hw
    cases hwt
    simpa [hv,ht,List.getElem?_eq_getElem hm] using hw

theorem Trace.exists_of_run {s₀ s : σ} {as : List α} (h : run step s₀ as = some s) (d : α) :
    ∃ t : Trace step s₀ as.length, (∀ j, t.label j = as.getD j d) ∧ t.state as.length = s := by
  refine ⟨.ofRun s₀ as d (by simp [h]),fun _ => rfl,?_⟩
  simp [Trace.ofRun,h]

end

theorem bind_ok {α β : Type} {x : Except String α} {f : α → Except String β} {r : β} :
    x.bind f = .ok r ↔ ∃ a, x = .ok a ∧ f a = .ok r := by
  cases x <;> simp [Except.bind]

theorem bind_error {α β : Type} {x : Except String α} {f : α → Except String β} {m : String} :
    x.bind f = .error m ↔ x = .error m ∨ ∃ a, x = .ok a ∧ f a = .error m := by
  cases x <;> simp [Except.bind]

/-! ## Machines of a fixed size -/

instance neZero_one : NeZero 1 := ⟨Nat.one_ne_zero⟩

instance neZero_two : NeZero 2 := ⟨Nat.succ_ne_zero 1⟩

instance neZero_three : NeZero 3 := ⟨Nat.succ_ne_zero 2⟩

theorem three_pos : 0 < 3 := Nat.succ_pos 2

end Xv6.Machine
