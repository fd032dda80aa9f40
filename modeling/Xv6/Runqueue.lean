import Xv6.HandoffStep
import Xv6.Windows

/-!
# The runqueues

`Sound` is the invariant of the runs whose steps are orderly. Besides the handover invariant it
accounts for every process: the places where it is queued, taken off a queue or about to be queued
are no more than its being RUNNABLE, now or once the CPU that is waking it has done so.
-/
namespace Xv6.Runqueue
open KernelState KernelStep Tally Frames Handoff Windows

section
variable {cfg : Config}

def owed (s : State cfg) (d : Debt cfg) : ℕ := ∑ c, weight d.tok (code s c)

def queued (s : State cfg) (p : cfg.Slot) : ℕ := ∑ r, (s.runqueue r).queue.count p

def runnable (s : State cfg) (p : cfg.Slot) : ℕ := if (s.proc p).state = .runnable then 1 else 0

/-- The places where `p` is queued, taken off a queue or about to be queued. -/
def placed (s : State cfg) (p : cfg.Slot) : ℕ := queued s p+owed s (.fly p)+owed s (.enq p)

/-- Whether `p` is RUNNABLE or about to be made so by a CPU that has queued it. -/
def due (s : State cfg) (p : cfg.Slot) : ℕ := runnable s p+owed s (.set p)

/-- The invariant of the multiple-runqueue kernel. -/
structure Sound (s : State cfg) : Prop where
  core : Core true s
  alone : ∀ c d, s.lock .ptable = some c → d ≠ c → ¬ Handing (mode (code s d))
  untimed : ∀ c, Dispatched (mode (code s c)) → weight timerTok (code s c) = 0
  tally : ∀ p, placed s p ≤ due s p
  set : ∀ c p, weight (setTok p) (code s c) ≠ 0 → (s.proc p).state ≠ .runnable
  fly : ∀ c p, weight (flyTok p) (code s c) ≠ 0 → (s.proc p).state = .runnable ∧ ∀ d, ¬ On s d p
  head : ∀ c r p, weight (headTok r p) (code s c) ≠ 0 → (s.runqueue r).queue.head? = some p
  size : ∀ r, (s.runqueue r).size = (s.runqueue r).queue.length+owed s (.dec r)
  pgdir : ∀ c p, (s.cpu c).pgdir = some p → On s c p ∨ Taken s c p ∨ mode (code s c) = .back p

end

section
variable {cfg : Config} {s s' : State cfg} {c d : cfg.CpuId} {k : List (Pc cfg)} {p : cfg.Slot}

theorem owed_eq_zero {x : Debt cfg} (h : ∀ c, weight x.tok (code s c) = 0) : owed s x = 0 :=
  Finset.sum_eq_zero fun c _ => h c

/-- A CPU that is waking or yielding a process holds `ptable.lock`, so where another
one holds it nothing is waiting to be set. -/
theorem set_eq_zero (hC : Core true s) (hl : s.lock .ptable = some c)
    (hc : weight (setTok p) (code s c) = 0) : owed s (.set p) = 0 := by
  refine owed_eq_zero fun d => ?_
  by_contra hd
  have hlock := lock_of_setTok (hC.cpu d) hd
  rw [hl] at hlock
  cases hlock
  exact hd hc

theorem Sound.set_of_runnable (h : Sound s) (hp : (s.proc p).state = .runnable) :
    owed s (.set p) = 0 := by
  refine owed_eq_zero fun d => ?_
  by_contra hd
  exact h.set d p hd hp

/-- With `ptable.lock` held by another CPU, nobody is on the stack of a process that is not
RUNNING. -/
theorem Sound.off_stack (h : Sound s) (hl : s.lock .ptable = some c)
    (hm : mode (code s c) = .plain) (hp : (s.proc p).state ≠ .running) (d : cfg.CpuId) :
    ¬ On s d p := by
  intro hd
  rcases h.core.on_state hd with ⟨-,hr⟩ | ⟨⟨e,he⟩,-⟩
  · exact hp hr
  · have hdc : d ≠ c := by
      rintro rfl
      rw [hm] at he
      cases he
    cases e with
    | none =>
      obtain ⟨H,hh,hw⟩ := (h.core.cpu d).typed
      have hpt : Lock.ptable ∈ H := by
        by_contra hpt
        exact hw.entered hpt (by simpa using he)
      rw [(hh.locks _).mpr hpt] at hl
      exact hdc (Option.some.inj hl)
    | some =>
      refine h.alone c d hl hdc ?_
      rw [he]
      trivial

theorem Sound.placed_le_one (h : Sound s) (hp : (s.proc p).state = .runnable) : placed s p ≤ 1 := by
  have htally := h.tally p
  rwa [due,h.set_of_runnable hp,runnable,if_pos hp] at htally

theorem Sound.fly_unique (h : Sound s) (hc : weight (flyTok p) (code s c) ≠ 0)
    (hd : weight (flyTok p) (code s d) ≠ 0) : c = d := by
  by_contra hne
  have hplaced := h.placed_le_one (h.fly c p hc).1
  have hsum : _ ≤ owed s (.fly p) := add_le_sum (fun c => weight (flyTok p) (code s c)) hne
  simp only [placed] at hplaced
  omega

theorem flyTok_of_taking (hm : mode k = .taking p) : weight (flyTok p) k ≠ 0 := by
  induction k with
  | nil => cases hm
  | cons pc k ih =>
    rw [weight_cons]
    cases hpc : modeOf pc with
    | none =>
      have := ih (by simpa [hpc] using hm)
      omega
    | some m =>
      obtain rfl : m = .taking p := by simpa [hpc] using hm
      cases pc <;> simp [modeOf] at hpc
      subst hpc
      simp [flyTok]

theorem Sound.cond (h : Sound s) (c : cfg.CpuId) : Cond s c := by
  have hok := h.core.cpu c
  refine ⟨?_,?_,?_⟩
  · intro r p k hk
    obtain ⟨H,-,-,-,-,rfl⟩ := hok.rule hk
    have hfly : weight (flyTok p) (code s c) ≠ 0 := by simp [hk,flyTok]
    obtain ⟨hrun,hoff⟩ := h.fly c p hfly
    refine ⟨hrun,?_⟩
    rintro d (hd | hd | hd)
    · exact hoff d hd
    · obtain rfl := h.fly_unique hfly (flyTok_of_taking hd)
      rw [hk] at hd
      cases hd
    · rw [h.core.switching d p hd] at hrun
      cases hrun
  · intro p i b k q hk _ _ hq
    obtain ⟨H,hh,rfl,-,rfl⟩ := hok.rule hk
    exact h.off_stack ((hh.locks .ptable).mpr (by simp)) (by rw [hk]; rfl) (by simp [hq])
  · intro usr k p hk hp hr
    have htimer : weight timerTok (code s c) ≠ 0 := by simp [hk,timerTok]
    have hnd : ¬ Dispatched (mode (code s c)) := fun hd => htimer (h.untimed c hd)
    have hmode : mode (code s c) = mode k := by rw [hk]; rfl
    cases hst : (s.cpu c).stack with
    | kstack q =>
      have hq := hok.kproc q hst
      rw [hp] at hq
      cases hq
      rcases h.core.on_state hst with ⟨hm,-⟩ | ⟨-,hrest⟩
      · exact ⟨trivial,hmode ▸ hm⟩
      · rw [hr] at hrest
        exact hrest.elim
    | sched r =>
      -- on the scheduler stack `c->proc` is set only between taking and dropping a process
      have ht := hok.sproc r hst
      rw [hp] at ht
      cases hm : mode (code s c) with
      | plain | leaving => simp [hm,Mode.target] at ht
      | taking q =>
        obtain rfl : p = q := by simpa [hm,Mode.target] using ht
        rw [h.core.taking c p hm] at hr
        cases hr
      | switching | back | parted => exact absurd (by rw [hm]; trivial) hnd

end
end Xv6.Runqueue
