import Xv6.HandoffStep

/-!
# The round-robin kernel

In the shipped configuration a process acquires `ptable.lock` before it changes its state; the lock
is kept across `swtch` and released by whoever runs next. So the handover invariant holds in every
reachable state, with any number of CPUs and any table size, and with it the nesting of the locks.
Where the lock is free no handover is under way: the RUNNING processes are exactly those that some
CPU executes, each on one CPU, and every other process with a thread is off its stack with its
latest context saved.
-/
namespace Xv6.RoundRobin
open KernelState KernelStep Frames Handoff Machine

def Reachable (cfg : Config) (s : State cfg) : Prop :=
  Reach (stepBy false) (fun _ _ => True) (boot cfg false) s

section
variable {cfg : Config} {s : State cfg}

theorem Reachable.core (h : Reachable cfg s) : Core false s :=
  h.invariant (Core.boot cfg false) fun _ a _ hC _ hs => hC.step (.of_rr hC a.cpu) hs

theorem Reachable.of_run {as : List (Label cfg)}
    (h : run (stepBy false) (boot cfg false) as = some s) : Reachable cfg s :=
  Reach.refl.of_run (by rwa [guarded_true fun _ _ => trivial])

/-- What the kernel relies on while `ptable.lock` is free. -/
structure Consistent (s : State cfg) : Prop where
  running_iff : ∀ p, (s.proc p).state = .running ↔ ∃! c, (s.cpu c).proc = some p
  proc_running : ∀ c p, (s.cpu c).proc = some p → (s.proc p).state = .running
  switched : ∀ p, (s.proc p).state = .runnable ∨ (s.proc p).state = .sleeping →
    (∀ c, (s.cpu c).stack ≠ .kstack p) ∧ (s.proc p).context.stack = .kstack p ∧
      (s.proc p).context.seq = (s.proc p).scheds

theorem mode_plain (hC : Core false s) (hf : s.lock .ptable = none) (c : cfg.CpuId) :
    mode (code s c) = .plain := by
  by_contra hne
  have := lock_of_mode (hC.cpu c) hne
  rw [hf] at this
  cases this

/-- With no handover under way, `c->proc` is the process whose stack the CPU is on. -/
theorem on_iff_proc (hC : Core false s) (hf : s.lock .ptable = none) (c : cfg.CpuId)
    (p : cfg.Slot) : On s c p ↔ (s.cpu c).proc = some p := by
  refine ⟨(hC.cpu c).kproc p,fun hp => ?_⟩
  cases hst : (s.cpu c).stack with
  | kstack q =>
    have hq := (hC.cpu c).kproc q hst
    rw [hp] at hq
    cases hq
    exact hst
  | sched r =>
    have hn := (hC.cpu c).sproc r hst
    rw [mode_plain hC hf,hp] at hn
    cases hn

theorem at_iff_proc (hC : Core false s) (hf : s.lock .ptable = none) (c : cfg.CpuId)
    (p : cfg.Slot) : At s c p ↔ (s.cpu c).proc = some p := by
  rw [← on_iff_proc hC hf,At,Taken,mode_plain hC hf]
  simp

theorem Consistent.of_core (hC : Core false s) (hf : s.lock .ptable = none) : Consistent s := by
  have hrun : ∀ c p, (s.cpu c).proc = some p → (s.proc p).state = .running := by
    intro c p hp
    exact hC.runs c p ((on_iff_proc hC hf c p).mpr hp) (mode_plain hC hf c)
  refine ⟨fun p => ⟨fun hp => ?_,fun ⟨c,hc,_⟩ => hrun c p hc⟩,hrun,?_⟩
  · obtain ⟨c,hc⟩ := hC.run p hp
    refine ⟨c,(at_iff_proc hC hf c p).mp hc,fun d hd => ?_⟩
    exact hC.single d c p ((at_iff_proc hC hf d p).mpr hd) hc
  · intro p hp
    have hno : ∀ c, ¬ On s c p := by
      intro c hc
      have := hC.runs c p hc (mode_plain hC hf c)
      rw [this] at hp
      simp at hp
    have hs := hC.saved p (by rcases hp with hp | hp <;> (rw [hp]; trivial)) hno
    exact ⟨hno,hs.stack,hs.fresh⟩

theorem panic_not_sched (hC : Core false s) {c : cfg.CpuId} {msg : String} {k : List (Pc cfg)}
    (h : code s c = .panic msg::k) : msg ∉ schedPanics := by
  obtain ⟨H,-,hm,-⟩ := (hC.cpu c).rule h
  exact hm

end

/-- In every reachable state with `ptable.lock` free the process table agrees with
the CPUs, and the panics of `sched` are never reached. -/
theorem reachable_consistent {cfg : Config} {s : State cfg} (h : Reachable cfg s) :
    (s.lock .ptable = none → Consistent s) ∧
    ∀ c msg k, code s c = .panic msg::k → msg ∉ schedPanics :=
  ⟨Consistent.of_core h.core,fun _ _ _ => panic_not_sched h.core⟩

abbrev small : Config := ⟨2,2,Nat.two_pos,Nat.two_pos⟩

def go {cfg : Config} (c : cfg.CpuId) : Label cfg := ⟨c,.go,⟨0,0⟩⟩

def firstDispatch : List (Label small) :=
  [go 0,go 0,go 0,go 0,go 0,go 0,go 0,⟨0,.leave,⟨0,0⟩⟩]

theorem firstDispatch_consistent : ∃ s, run (stepBy false) (boot small false) firstDispatch = some s ∧
      s.lock .ptable = none ∧ (s.proc 0).state = .running ∧ Consistent s := by
  have hrun : (run (stepBy false) (boot small false) firstDispatch).any
      (fun s => s.lock .ptable = none ∧ (s.proc 0).state = .running) = true := by decide +kernel
  obtain ⟨s,hs,hp⟩ := (Option.any_eq_true _ _).mp hrun
  simp only [decide_eq_true_eq] at hp
  exact ⟨s,hs,hp.1,hp.2,(reachable_consistent (.of_run hs)).1 hp.1⟩

end Xv6.RoundRobin
