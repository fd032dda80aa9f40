import Xv6.RunqueueStep
import Xv6.RoundRobin

/-!
# The multiple-runqueue kernel

With `IS_MULTIPLE_RUNQUEUE` the kernel keeps neither its runqueues nor its stacks in order by
itself. `kill` queues the process it wakes nowhere; a process that `sched` is leaving can be taken
up, or reaped, by a CPU that gets `ptable.lock` before the `swtch`; and a timer interrupt can find a
scheduler that has marked a process RUNNING. Each is shown by a run. In runs of orderly steps, for
the first property without a `kill` of a sleeping process, the four properties hold in every state.
-/
namespace Xv6.MultiQueue
open KernelState KernelStep Tally Frames Typing Handoff Windows Runqueue Machine

section
variable {cfg : Config}

def OrderlyReach (cfg : Config) (s : State cfg) : Prop :=
  Reach (stepBy true) Orderly (boot cfg true) s

/-- The step of `c` is not that of a `kill` that finds a sleeping process. -/
def SparesAt (s : State cfg) : List (Pc cfg) → Prop
  | .killScan pid i::_ => ∀ p, slot? cfg i = some p → (s.proc p).pid = pid → (s.proc p).state ≠ .sleeping
  | _ => True

def Spares (s : State cfg) (a : Label cfg) : Prop := SparesAt s (code s a.cpu)

instance decidableSparesAt (s : State cfg) : (k : List (Pc cfg)) → Decidable (SparesAt s k)
  | [] => isTrue trivial
  | pc::k => by
      induction pc using Pc.casesOn
      case killScan =>
        change Decidable (∀ _, _)
        infer_instance
      all_goals exact isTrue trivial

instance (s : State cfg) (a : Label cfg) : Decidable (Spares s a) := decidableSparesAt s _

/-- `p` is on one runqueue, once, and on no other. -/
def OnOneQueue (s : State cfg) (p : cfg.Slot) : Prop :=
  ∃ r, (s.runqueue r).queue.count p = 1 ∧ ∀ t, t ≠ r → (s.runqueue t).queue.count p = 0

/-- One scheduler has dequeued `p` and not yet marked it RUNNING. -/
def Dequeued (s : State cfg) (p : cfg.Slot) : Prop := ∃! c, weight (flyTok p) (code s c) ≠ 0

instance (s : State cfg) (p : cfg.Slot) : Decidable (OnOneQueue s p) :=
  inferInstanceAs (Decidable (∃ _, _))

instance (s : State cfg) (p : cfg.Slot) : Decidable (Dequeued s p) :=
  inferInstanceAs (Decidable (∃ _, _))

instance (s : State cfg) (c : cfg.CpuId) (p : cfg.Slot) : Decidable (On s c p) :=
  inferInstanceAs (Decidable (_ = _))

/-- The process that `scheduler` is about to switch to. -/
def switchTarget : List (Pc cfg) → Option cfg.Slot
  | .mqSwtch _ p::_ => some p
  | _ => none

/-- The child whose stack and page directory `wait` is about to free. -/
def reapTarget (s : State cfg) : List (Pc cfg) → Option cfg.Slot
  | .waitScan p i _::_ =>
    (slot? cfg i).filter fun q => (s.proc q).parent = some p ∧ (s.proc q).state = .zombie
  | _ => none

/-- `trap` has got as far as the test for the timer's `yield`. -/
def timerTest : List (Pc cfg) → Bool
  | .trapYield true _::_ => true
  | _ => false

/-- `trap` is about to call `yield` for process `p`. -/
def TimerYields (s : State cfg) (c : cfg.CpuId) (p : cfg.Slot) : Prop :=
  timerTest (code s c) = true ∧ (s.cpu c).proc = some p ∧ (s.proc p).state = .running

end

section
variable {cfg : Config} {s : State cfg}

theorem OrderlyReach.sound (h : OrderlyReach cfg s) : Sound s :=
  h.invariant (Sound.boot cfg) fun _ _ _ hS ho hs => hS.step ho hs

/-- Without a `kill` of a sleeping process the accounts are equal. -/
theorem placed_eq_due (h : Reach (stepBy true) (fun s a => Orderly s a ∧ Spares s a) (boot cfg true) s) :
    Sound s ∧ ∀ p, placed s p = due s p := by
  refine h.invariant (I := fun s => Sound s ∧ ∀ p, placed s p = due s p) ⟨Sound.boot cfg,placed_boot⟩ ?_
  rintro s a s' ⟨hS,heq⟩ ⟨ho,hk⟩ hs
  refine ⟨hS.step ho hs,fun p => ?_⟩
  obtain ⟨x,he⟩ := Effects.step_effect (hS.core.cpu a.cpu).typed
    (Side.of_core hS.core (hS.cond a.cpu)) hs
  have hp := heq p
  rcases hS.ledger he hs p with hl | ⟨⟨pid,i,k,hc,hi,hpid,hst⟩,-⟩
  · omega
  · rw [Spares,hc] at hk
    exact absurd hst (hk p hi hpid)

theorem set_free (hS : Sound s) (hpt : s.lock .ptable = none) (p : cfg.Slot) : owed s (.set p) = 0 := by
  refine owed_eq_zero fun c => ?_
  by_contra hne
  have hl := lock_of_setTok (hS.core.cpu c) hne
  rw [hpt] at hl
  cases hl

/-- With `ptable.lock` and the runqueue locks free nothing is about to be queued. -/
theorem enq_free (hS : Sound s) (hpt : s.lock .ptable = none) (hrq : ∀ r, s.lock (.rq r) = none)
    (p : cfg.Slot) : owed s (.enq p) = 0 := by
  refine owed_eq_zero fun c => ?_
  obtain ⟨H,hh,hw⟩ := (hS.core.cpu c).typed
  have hun : weight (enqTok p) (unspin (code s c)) = weight (enqTok p) (code s c) := by
    cases code s c with
    | nil => rfl
    | cons pc => cases pc <;> rfl
  have hz := hw.queued (fun hm => ?_) (fun r hm => ?_) p
  · exact hun ▸ hz
  · have hl := (hh.locks _).mpr hm
    rw [hpt] at hl
    cases hl
  · have hl := (hh.locks _).mpr hm
    rw [hrq] at hl
    cases hl

theorem place_iff (p : cfg.Slot) (hle : queued s p+owed s (.fly p) ≤ 1) :
    (queued s p+owed s (.fly p) = 1 ↔ OnOneQueue s p ∨ Dequeued s p) ∧
      ¬ (OnOneQueue s p ∧ Dequeued s p) := by
  have hqueue : ∀ r, (s.runqueue r).queue.count p ≤ queued s p :=
    le_sum fun r => (s.runqueue r).queue.count p
  have hfly : ∀ c, weight (flyTok p) (code s c) ≤ owed s (.fly p) :=
    le_sum fun c => weight (flyTok p) (code s c)
  refine ⟨⟨fun h => ?_,fun h => ?_⟩,fun ⟨⟨r,hr,_⟩,c,hc,_⟩ => ?_⟩
  · by_cases hq : queued s p = 0
    · right
      obtain ⟨c,-,hc⟩ := Finset.exists_ne_zero_of_sum_ne_zero (f := fun c =>
        weight (flyTok p) (code s c)) (show owed s (.fly p) ≠ 0 by omega)
      refine ⟨c,hc,fun d hd => ?_⟩
      by_contra hne
      have hsum : _ ≤ owed s (.fly p) := add_le_sum (fun c => weight (flyTok p) (code s c)) hne
      omega
    · left
      obtain ⟨r,-,hr⟩ := Finset.exists_ne_zero_of_sum_ne_zero (f := fun r =>
        (s.runqueue r).queue.count p) hq
      refine ⟨r,by have := hqueue r; omega,fun t ht => ?_⟩
      have hsum : _ ≤ queued s p := add_le_sum (fun r => (s.runqueue r).queue.count p) ht
      omega
  · rcases h with ⟨r,hr,-⟩ | ⟨c,hc,-⟩
    · have := hqueue r
      omega
    · have := hfly c
      omega
  · have := hqueue r
    have := hfly c
    omega

/-- In every run of orderly steps in which no `kill` finds its process asleep, a process is
RUNNABLE exactly when it is on one runqueue once, or dequeued by one scheduler. -/
theorem runnable_iff_placed
    (h : Reach (stepBy true) (fun s a => Orderly s a ∧ Spares s a) (boot cfg true) s)
    (hpt : s.lock .ptable = none) (hrq : ∀ r, s.lock (.rq r) = none) (p : cfg.Slot) :
    ((s.proc p).state = .runnable ↔ OnOneQueue s p ∨ Dequeued s p) ∧
      ¬ (OnOneQueue s p ∧ Dequeued s p) := by
  obtain ⟨hS,heq⟩ := placed_eq_due h
  have hp := heq p
  rw [placed,due,set_free hS hpt,enq_free hS hpt hrq,runnable] at hp
  have hrun : queued s p+owed s (.fly p) = 1 ↔ (s.proc p).state = .runnable := by
    split_ifs at hp with hr
    · exact ⟨fun _ => hr,fun _ => by omega⟩
    · exact ⟨fun h1 => by omega,fun h1 => absurd h1 hr⟩
  rw [← hrun]
  exact place_iff p (by split_ifs at hp <;> omega)

theorem code_of_switchTarget {k : List (Pc cfg)} {p : cfg.Slot} (h : switchTarget k = some p) :
    ∃ r k', k = .mqSwtch r p::k' := by
  unfold switchTarget at h
  split at h
  · cases h
    exact ⟨_,_,rfl⟩
  · cases h

theorem code_of_reapTarget {k : List (Pc cfg)} {q : cfg.Slot} (h : reapTarget s k = some q) :
    ∃ p i kids k', k = .waitScan p i kids::k' ∧ slot? cfg i = some q ∧
      (s.proc q).parent = some p ∧ (s.proc q).state = .zombie := by
  unfold reapTarget at h
  split at h
  · obtain ⟨hi,hq⟩ := Option.filter_eq_some_iff.mp h
    simp only [decide_eq_true_eq] at hq
    exact ⟨_,_,_,_,rfl,hi,hq.1,hq.2⟩
  · cases h

theorem code_of_timerTest {k : List (Pc cfg)} (h : timerTest k = true) :
    ∃ usr k', k = .trapYield true usr::k' := by
  unfold timerTest at h
  split at h
  · exact ⟨_,_,rfl⟩
  · cases h

/-- No two CPUs are on one kernel stack, and `scheduler` switches to the context its process
saved last, with no CPU left on its stack. -/
theorem stacks_disjoint (h : OrderlyReach cfg s) : (∀ c d p, On s c p → On s d p → c = d) ∧
    ∀ c p, switchTarget (code s c) = some p →
      (s.proc p).context.stack = .kstack p ∧ (s.proc p).context.seq = (s.proc p).scheds ∧
        ∀ d, ¬ On s d p := by
  have hC := h.sound.core
  refine ⟨fun c d p hc hd => hC.single c d p (.inl hc) (.inl hd),fun c p hp => ?_⟩
  obtain ⟨r,k,hk⟩ := code_of_switchTarget hp
  obtain ⟨H,-,-,-,hst,-⟩ := (hC.cpu c).rule hk
  obtain rfl := (hC.cpu c).own r hst
  have hm : mode (code s r) = .switching p := by rw [hk]; rfl
  have hsaved := Core.resumes hC hm hst
  refine ⟨hsaved.stack,hsaved.fresh,fun d hd => ?_⟩
  obtain rfl := hC.single d r p (.inl hd) (.inr (.inr hm))
  rw [On,hst] at hd
  cases hd

/-- `wait` frees no stack that a CPU is on and no page directory that a CPU uses. -/
theorem reaped_unused (h : OrderlyReach cfg s) {c : cfg.CpuId} {q : cfg.Slot}
    (hr : reapTarget s (code s c) = some q) (d : cfg.CpuId) :
    ¬ On s d q ∧ (s.cpu d).pgdir ≠ some q := by
  obtain ⟨p,i,kids,k,hk,hi,hp,hz⟩ := code_of_reapTarget hr
  have hS := h.sound
  have hoff := (hS.cond c).reap p i kids k q hk hi hp hz
  refine ⟨hoff d,fun hpg => ?_⟩
  rcases hS.pgdir d q hpg with hon | (ht | ht) | hb
  · exact hoff d hon
  · rw [hS.core.taking d q ht] at hz
    cases hz
  · rw [hS.core.switching d q ht] at hz
    cases hz
  · obtain ⟨H,hh,rfl,-,rfl⟩ := (hS.core.cpu c).rule hk
    have hdc : d ≠ c := by
      rintro rfl
      rw [hk] at hb
      cases hb
    exact hS.alone c d ((hh.locks .ptable).mpr (by simp)) hdc (by rw [hb]; trivial)

/-- `trap` calls `yield` on the kernel stack of `myproc()` only. -/
theorem yield_on_kstack (h : OrderlyReach cfg s) {c : cfg.CpuId} {p : cfg.Slot}
    (hy : TimerYields s c p) : On s c p := by
  obtain ⟨hk,hp,hr⟩ := hy
  obtain ⟨usr,k,hk⟩ := code_of_timerTest hk
  have hS := h.sound
  obtain ⟨hst,-⟩ := (hS.cond c).timer usr k p hk hp hr
  obtain ⟨q,hon,hq⟩ := (hS.core.cpu c).on_of_isKstack hst
  rw [hp] at hq
  cases hq
  exact hon

end

section Both
variable {cfg : Config} {mq : Bool} {s s' : State cfg}

def Handled (mq : Bool) (s : State cfg) : Prop :=
  match mq with
  | true => Sound s
  | false => Core false s

def Ordered (mq : Bool) (s : State cfg) (a : Label cfg) : Prop := mq = true → Orderly s a

instance (s : State cfg) (a : Label cfg) : Decidable (Ordered mq s a) :=
  inferInstanceAs (Decidable (_ → _))

theorem Handled.boot (cfg : Config) (mq : Bool) : Handled mq (boot cfg mq) := by
  cases mq with
  | true => exact Sound.boot cfg
  | false => exact Core.boot cfg false

theorem Handled.core (h : Handled mq s) : Core mq s := by
  cases mq with
  | true => exact Sound.core h
  | false => exact h

theorem Handled.cond (h : Handled mq s) (c : cfg.CpuId) : Cond s c := by
  cases mq with
  | true => exact Sound.cond h c
  | false => exact .of_rr h c

theorem Handled.step {a : Label cfg} (h : Handled mq s) (ho : Ordered mq s a)
    (hs : stepBy mq s a = some s') : Handled mq s' := by
  cases mq with
  | true => exact Sound.step h (ho rfl) hs
  | false => exact Core.step h (.of_rr h a.cpu) hs

end Both

section Runs
open RoundRobin

def on (c : small.CpuId) (a : Act small) : Label small := ⟨c,a,⟨0,0⟩⟩

def gos (n : ℕ) (c : small.CpuId) : List (Label small) := List.replicate n (go c)

def dispatch : List (Label small) := gos 14 0++[on 0 .leave]

/-- A `fork` on CPU `c`, with the child queued. -/
def forks (c : small.CpuId) : List (Label small) :=
  on c (.user .fork)::gos 5 c++on c (.alloc true)::on c (.alloc true)::gos 12 c

/-- The process on CPU `c` calls `sleep` under a lock of its own. -/
def sleeps (c : small.CpuId) : List (Label small) :=
  on c (.user .other)::on c (.enter 5)::gos 2 c++[on c (.sleepOn (.addr 9))]

/-- A device interrupt on CPU `c` wakes the sleepers. -/
def wakes (c : small.CpuId) : List (Label small) :=
  on c (.intr (.dev 5))::gos 3 c++on c (.wake (.addr 9))::gos 12 c++[on c .leave]

def killRun : List (Label small) :=
  dispatch++forks 0++on 0 (.user .bufwrite)::gos 28 0++on 0 .leave::sleeps 0++gos 28 0++
    on 0 (.user (.kill 2))::gos 6 0

/-- The killed process is RUNNABLE, on no runqueue, and taken by no scheduler. -/
theorem killRun_lost : ∃ s, run (stepBy true) (boot small true) killRun = some s ∧
    s.lock .ptable = none ∧ (∀ r, s.lock (.rq r) = none) ∧ (s.proc 1).state = .runnable ∧
    ¬ (OnOneQueue s 1 ∨ Dequeued s 1) := by
  have hrun : (run (stepBy true) (boot small true) killRun).any (fun s =>
      s.lock .ptable = none ∧ (∀ r, s.lock (.rq r) = none) ∧ (s.proc 1).state = .runnable ∧
      ¬ (OnOneQueue s 1 ∨ Dequeued s 1)) = true := by decide +kernel
  obtain ⟨s,hs,hp⟩ := (Option.any_eq_true _ _).mp hrun
  exact ⟨s,hs,of_decide_eq_true hp⟩

/-- A forked child is RUNNABLE and has its place. -/
theorem forks_placed : ∃ s, run (guarded (stepBy true) fun s a => Orderly s a ∧ Spares s a)
      (boot small true) (dispatch++forks 0) = some s ∧ (s.proc 1).state = .runnable ∧
    (OnOneQueue s 1 ∨ Dequeued s 1) := by
  have hrun : (run (guarded (stepBy true) fun s a => Orderly s a ∧ Spares s a) (boot small true)
      (dispatch++forks 0)).any (fun s => s.lock .ptable = none ∧ (∀ r, s.lock (.rq r) = none) ∧
        (s.proc 1).state = .runnable) = true := by decide +kernel
  obtain ⟨s,hs,hp⟩ := (Option.any_eq_true _ _).mp hrun
  obtain ⟨hpt,hrq,hst⟩ := of_decide_eq_true hp
  exact ⟨s,hs,hst,(runnable_iff_placed (Reach.refl.of_run hs) hpt hrq 1).1.mp hst⟩

def moved : List (Label small) := dispatch++sleeps 0++gos 9 0++go 1::wakes 1++gos 24 1

/-- It sleeps again, and CPU 0 wakes and dispatches it before the `swtch` of CPU 1. -/
def wakeRun : List (Label small) :=
  moved++on 1 (.sleepOn (.addr 9))::gos 7 1++gos 2 0++wakes 0++gos 16 0

/-- `scheduler` switches to a context that was not saved last, while CPU 1 is on the stack of
the process, and then both are. -/
theorem wakeRun_shared : (∃ s, run (stepBy true) (boot small true) wakeRun = some s ∧
      switchTarget (code s 0) = some 0 ∧ (s.proc 0).context.seq ≠ (s.proc 0).scheds ∧
      On s 1 0) ∧
    ∃ s, run (stepBy true) (boot small true) (wakeRun++[go 0]) = some s ∧ On s 0 0 ∧ On s 1 0 := by
  have h₁ : (run (stepBy true) (boot small true) wakeRun).any (fun s =>
      switchTarget (code s 0) = some 0 ∧ (s.proc 0).context.seq ≠ (s.proc 0).scheds ∧
      On s 1 0) = true := by decide +kernel
  have h₂ : (run (stepBy true) (boot small true) (wakeRun++[go 0])).any (fun s =>
      On s 0 0 ∧ On s 1 0) = true := by decide +kernel
  obtain ⟨s,hs,hp⟩ := (Option.any_eq_true _ _).mp h₁
  obtain ⟨t,ht,hq⟩ := (Option.any_eq_true _ _).mp h₂
  exact ⟨⟨s,hs,of_decide_eq_true hp⟩,t,ht,of_decide_eq_true hq⟩

/-- The first dispatch of the first process. -/
theorem dispatch_switches : ∃ s, run (guarded (stepBy true) Orderly) (boot small true) (gos 12 0) =
      some s ∧ switchTarget (code s 0) = some 0 ∧ (s.proc 0).context.stack = .kstack 0 ∧
    ∀ d, ¬ On s d 0 := by
  have hrun : (run (guarded (stepBy true) Orderly) (boot small true) (gos 12 0)).any
      (fun s => switchTarget (code s 0) = some 0) = true := by decide +kernel
  obtain ⟨s,hs,hp⟩ := (Option.any_eq_true _ _).mp hrun
  have hp := of_decide_eq_true hp
  obtain ⟨hst,-,hoff⟩ := (stacks_disjoint (Reach.refl.of_run hs)).2 0 0 hp
  exact ⟨s,hs,hp,hst,hoff⟩

/-- The first process returns to user space on CPU 1 and forks; its child runs on CPU 0 and
exits, as far as the `release` of `sched`. -/
def exits : List (Label small) :=
  moved++on 1 .leave::go 1::on 1 .leave::go 1::forks 1++gos 15 0++
    on 0 .leave::on 0 (.user .exit)::go 0::on 0 .leave::gos 12 0

def waits : List (Label small) := on 1 (.user .wait)::gos 4 1

/-- `wait` is about to free the stack that CPU 0 is on and the page directory it uses. -/
theorem exits_reaped : ∃ s, run (stepBy true) (boot small true) (exits++waits) = some s ∧
    reapTarget s (code s 1) = some 1 ∧ On s 0 1 ∧ (s.cpu 0).pgdir = some 1 := by
  have hrun : (run (stepBy true) (boot small true) (exits++waits)).any (fun s =>
      reapTarget s (code s 1) = some 1 ∧ On s 0 1 ∧ (s.cpu 0).pgdir = some 1) = true := by
    decide +kernel
  obtain ⟨s,hs,hp⟩ := (Option.any_eq_true _ _).mp hrun
  exact ⟨s,hs,of_decide_eq_true hp⟩

/-- With the `swtch` and `switchkvm` done first the child is reaped safely. -/
theorem exits_unused : ∃ s, run (guarded (stepBy true) Orderly) (boot small true)
      (exits++gos 2 0++waits) = some s ∧ reapTarget s (code s 1) = some 1 ∧
    ∀ d, ¬ On s d 1 ∧ (s.cpu d).pgdir ≠ some 1 := by
  have hrun : (run (guarded (stepBy true) Orderly) (boot small true) (exits++gos 2 0++waits)).any
      (fun s => reapTarget s (code s 1) = some 1) = true := by decide +kernel
  obtain ⟨s,hs,hp⟩ := (Option.any_eq_true _ _).mp hrun
  have hp := of_decide_eq_true hp
  exact ⟨s,hs,hp,reaped_unused (Reach.refl.of_run hs) hp⟩

instance (s : State small) (c : small.CpuId) (p : small.Slot) : Decidable (TimerYields s c p) :=
  inferInstanceAs (Decidable (_ ∧ _ ∧ _))

/-- A timer interrupt between `p->state = RUNNING` and `swtch`. -/
def timerRun : List (Label small) := gos 12 0++on 0 (.intr .timer)::gos 13 0

/-- `trap` calls `yield` on the scheduler stack of CPU 0. -/
theorem timerRun_on_sched : ∃ s, run (stepBy true) (boot small true) timerRun = some s ∧
    TimerYields s 0 0 ∧ (s.cpu 0).stack = .sched 0 := by
  have hrun : (run (stepBy true) (boot small true) timerRun).any (fun s =>
      TimerYields s 0 0 ∧ (s.cpu 0).stack = .sched 0) = true := by decide +kernel
  obtain ⟨s,hs,hp⟩ := (Option.any_eq_true _ _).mp hrun
  exact ⟨s,hs,of_decide_eq_true hp⟩

/-- A timer interrupt in user space. -/
theorem userTick_on_kstack : ∃ s, run (guarded (stepBy true) Orderly) (boot small true)
      (dispatch++on 0 (.intr .timer)::gos 13 0) = some s ∧ TimerYields s 0 0 ∧ On s 0 0 := by
  have hrun : (run (guarded (stepBy true) Orderly) (boot small true)
      (dispatch++on 0 (.intr .timer)::gos 13 0)).any (fun s => TimerYields s 0 0) = true := by
    decide +kernel
  obtain ⟨s,hs,hp⟩ := (Option.any_eq_true _ _).mp hrun
  have hp := of_decide_eq_true hp
  exact ⟨s,hs,hp,yield_on_kstack (Reach.refl.of_run hs) hp⟩

end Runs
end Xv6.MultiQueue
