import Xv6.RoundRobin

/-!
# Fairness of the round-robin scheduler

A CPU's scan position is at the bottom of its scheduler stack, also while it runs a process or
serves an interrupt. Only the scheduler of that CPU moves it, one slot at a time, past a slot that
is not RUNNABLE or that it has just made RUNNING. So the scan cannot come back to a slot without
having stood at every other one.
-/
namespace Xv6.Fairness
open SchedLog KernelState KernelStep Frames Typing Effects Handoff Machine RoundRobin

section
variable {cfg : Config} {mq : Bool} {s s' : State cfg} {c d r : cfg.CpuId} {cl : Clock}
  {k : List (Pc cfg)} {pc : Pc cfg} {H : List (Lock cfg)}

def scanAt : Pc cfg → Option ℕ
  | .rrScan i => some i
  | .rrSwtch p | .rrBack p => some (p+1)
  | _ => none

def pos (s : State cfg) (c : cfg.CpuId) : Option ℕ := (s.frames (.sched c)).getLast?.bind scanAt

/-- CPU `c` stays on its stack, over the program points `k`. -/
structure Over (k : List (Pc cfg)) (s s' : State cfg) (c : cfg.CpuId) : Prop where
  stack : (s'.cpu c).stack = (s.cpu c).stack
  suffix : k <:+ code s' c

theorem Over.goto {s₁ : State cfg} (xs : List (Pc cfg))
    (hst : (s₁.cpu c).stack = (s.cpu c).stack) : Over k s (goto s₁ c (xs++k)) c :=
  ⟨hst,by rw [code_goto]; exact List.suffix_append _ _⟩

theorem Over.panic {s₁ : State cfg} {msg : String} (hst : (s₁.cpu c).stack = (s.cpu c).stack)
    (h : k <:+ code s₁ c) : Over k s (panic s₁ c msg) c := by
  refine ⟨by simpa [KernelStep.panic,KernelStep.goto,setCpu] using hst,?_⟩
  have hc : code (KernelStep.panic s₁ c msg) c = .panic msg::code s₁ c := by
    simp [KernelStep.panic,KernelStep.goto,setCpu,code]
  rw [hc]
  exact h.trans (List.suffix_cons _ _)

/-- On a scheduler stack every program point but those of the loop is part of an
interrupt handler or of a lock operation, and leaves what is under it alone. -/
theorem exec_over (hc : code s c = pc::k) (hw : Wf false (.sched r) H (unspin (pc::k))) (hk : k ≠ [])
    (h : exec false s c cl k pc = some s') : Over k s s' c := by
  have hsub : k <:+ code s c := hc ▸ List.suffix_cons pc k
  cases pc
  case spin l =>
    simp only [exec] at h
    split_ifs at h
    cases h
    exact .goto [] rfl
  case acquire l =>
    simp only [exec] at h
    have hst : ((setCpu s c pushcli).cpu c).stack = (s.cpu c).stack := by simp [setCpu,pushcli]
    split_ifs at h <;> cases h
    · refine .panic hst ?_
      rw [code,hst]
      exact hsub
    · exact .goto [_] hst
  case release l =>
    simp only [exec] at h
    split_ifs at h
    · cases h
      exact .panic rfl hsub
    · split at h <;> cases h
      · exact .panic rfl hsub
      · rename_i d hd
        refine .goto [] ?_
        simp only [popcli] at hd
        split_ifs at hd
        cases hd
        simp [setCpu,setLock]
  case trap irq usr =>
    cases irq with
    | timer =>
      simp only [exec] at h
      split_ifs at h <;> cases h
      · exact .goto [_,_,_] rfl
      · exact .goto [_] rfl
    | dev =>
      cases h
      exact .goto [_,_,_] rfl
  case trapKilled timer usr =>
    simp only [exec] at h
    split_ifs at h with hu
    · simp only [Bool.and_eq_true] at hu
      exact (Wf.isKstack_of_user hw.2.1 hu.2 hw.2.2).elim
    · cases h
      exact .goto [_] rfl
  case trapYield timer usr =>
    simp only [exec] at h
    split at h
    · cases h
      exact .goto [_] rfl
    · split_ifs at h <;> cases h
      · exact .goto [_,_] rfl
      · exact .goto [_] rfl
  case trapLast usr =>
    simp only [exec] at h
    split_ifs at h with hu
    · simp only [Bool.and_eq_true] at hu
      exact (Wf.isKstack_of_user hw.2.1 hu.2 hw.2.2).elim
    · cases h
      exact .goto [] rfl
  case wakeup ch =>
    simp only [exec] at h
    split_ifs at h <;> cases h
    · exact .panic rfl hsub
    · exact .goto [_,_,_] rfl
  case wakeup1 i ch =>
    simp only [exec] at h
    split at h <;> cases h
    · exact .goto [] rfl
    · simp only [wakeupSlot,Bool.false_eq_true,if_false]
      split_ifs
      · exact .goto [_] rfl
      · exact .goto [_] rfl
  case wakeupSet j ch =>
    cases h
    exact .goto [_] rfl
  case tick =>
    cases h
    exact .goto [_,_] rfl
  case iret =>
    cases h
    exact .goto [] (by simp [setCpu])
  case panic | locked => cases h
  case unlink r p thief => cases thief <;> exact absurd hw.1 (by simp)
  all_goals
    simp only [unspin,Wf_cons,Rule,isKstack] at hw
    simp_all

theorem loop_of_bare (hw : Wf false (.sched r) H (unspin [pc])) :
    pc = .rrLoop ∨ (∃ i, pc = .rrScan i) ∨ (∃ p, pc = .rrSwtch p) ∨ ∃ p, pc = .rrBack p := by
  cases pc
  case unlink r p thief => cases thief <;> exact absurd hw.1 (by simp)
  all_goals
    simp only [unspin,Wf_cons,Wf_nil,Rule,isKstack,sysTail,TrapTail] at hw
    simp_all

inductive Advance (s s' : State cfg) (c : cfg.CpuId) : Prop
  | same (h : pos s' c = pos s c)
  | start (h : pos s c = none) (h' : pos s' c = some 0)
  | wrap (i : ℕ) (h : pos s c = some i) (hi : cfg.nproc ≤ i) (h' : pos s' c = none)
  | next (p : cfg.Slot) (h : pos s c = some p.val) (h' : pos s' c = some (p.val+1))
      (hp : (s.proc p).state ≠ .runnable ∨ (s'.proc p).state ≠ .runnable)

theorem pos_of_code (hst : (s.cpu c).stack = .sched c) : pos s c = (code s c).getLast?.bind scanAt := by
  rw [pos,code,hst]

theorem Over.advance (h : Over k s s' c) (hst : (s.cpu c).stack = .sched c)
    (hc : code s c = pc::k) (hk : k ≠ []) : Advance s s' c := by
  refine .same ?_
  obtain ⟨xs,hxs⟩ := h.suffix
  rw [pos_of_code (h.stack.trans hst),pos_of_code hst,hc,← hxs,List.getLast?_append_of_ne_nil _ hk,
    List.getLast?_cons_of_ne_nil hk]

theorem exec_loop (hst : (s.cpu c).stack = .sched c) (hc : code s c = [pc])
    (hpc : pc = .rrLoop ∨ (∃ i, pc = .rrScan i) ∨ (∃ p, pc = .rrSwtch p) ∨ ∃ p, pc = .rrBack p)
    (h : exec false s c cl [] pc = some s') : Advance s s' c := by
  have hpos := pos_of_code hst
  rw [hc] at hpos
  rcases hpc with rfl | ⟨i,rfl⟩ | ⟨p,rfl⟩ | ⟨p,rfl⟩
  · cases h
    refine .start hpos ?_
    simp [pos,goto,setCpu,hst,scanAt]
  · simp only [exec] at h
    split at h
    · cases h
      rename_i hi
      refine .wrap i hpos ?_ (by simp [pos,goto,hst,scanAt])
      simpa [slot?] using hi
    · rename_i p hi
      have hip : i = p.val := by
        simp only [slot?] at hi
        split_ifs at hi
        cases hi
        rfl
      subst hip
      split_ifs at h <;> cases h
      · refine .next p hpos (by simp [pos,goto,takeProc,setCpu,hst,scanAt]) (.inr ?_)
        simp [goto]
      · rename_i hp
        exact .next p hpos (by simp [pos,goto,hst,scanAt]) (.inl hp)
  · cases h
    refine .same ?_
    rw [hpos]
    simp [pos,switchTo,goto,setCpu,hst,scanAt]
  · cases h
    refine .same ?_
    rw [hpos]
    simp [pos,goto,setCpu,hst,scanAt]

theorem choose_over {a : Act cfg} (hw : Wf false (.sched r) H (unspin (pc::k)))
    (h : choose s c cl k pc a = some s') : Over k s s' c ∧ k ≠ [] := by
  cases pc
  case locked l irq =>
    have hk : k ≠ [] := by
      rintro rfl
      exact hw.2.2
    refine ⟨?_,hk⟩
    cases irq with
    | false => exact (hw.2.1 rfl).1.elim
    | true =>
      cases a <;> cases h
      · exact .goto [_,_] rfl
      · exact .goto [_] rfl
  all_goals
    cases a <;> first
      | cases h; done
      | (simp only [unspin,Wf_cons,Rule,isKstack] at hw; simp_all)

theorem step_advance {a : Act cfg} (hC : Core false s) (h : step false s d cl a = some s')
    (c : cfg.CpuId) : Advance s s' c := by
  obtain ⟨x,he⟩ := step_effect (hC.cpu d).typed (Side.of_core hC (.of_rr hC d)) h
  have hl := Local.of_effect (hC.cpu d) he
  by_cases hst : (s.cpu d).stack = .sched c
  · obtain rfl := (hC.cpu d).own c hst
    obtain ⟨H,-,hw⟩ := (hC.cpu c).typed
    rw [hst] at hw
    cases hc : code s c with
    | nil =>
      rw [hc] at hw
      exact hw.elim
    | cons pc k =>
      rw [hc] at hw
      simp only [step,hc] at h
      cases a with
      | go =>
        simp only at h
        by_cases hk : k = []
        · subst hk
          exact exec_loop hst hc (loop_of_bare hw) h
        · exact (exec_over hc hw hk h).advance hst hc hk
      | intr =>
        refine .same ?_
        simp only [interrupt] at h
        split_ifs at h
        cases h
        rw [pos_of_code hst,hc]
        simp [pos,goto,setCpu,hst]
      | _ =>
        obtain ⟨ho,hk⟩ := choose_over hw h
        exact ho.advance hst hc hk
  · refine .same ?_
    rw [pos,pos,hl.frames _ (Ne.symm hst) (by simp)]

/-- The scan will come to slot `j` before it comes to slot `i`. -/
def Before (j i : ℕ) : Option ℕ → Prop
  | none => j < i
  | some x => i < x ∧ x ≤ j ∨ j < i ∧ (i < x ∨ x ≤ j)

theorem Advance.before {i : ℕ} {j : cfg.Slot} (h : Advance s s' c) (hb : Before j i (pos s c))
    (hj : (s.proc j).state = .runnable) (hj' : (s'.proc j).state = .runnable) :
    Before j i (pos s' c) := by
  have hlt := j.isLt
  cases h with
  | same h => rwa [h]
  | start h h' =>
    rw [h] at hb
    rw [h']
    exact .inr ⟨hb,.inr (Nat.zero_le _)⟩
  | wrap x h hx h' =>
    rw [h] at hb
    rw [h']
    simp only [Before] at hb ⊢
    omega
  | next p h h' hp =>
    have hne : p ≠ j := by
      rintro rfl
      exact hp.elim (fun hp => hp hj) fun hp => hp hj'
    have hval : p.val ≠ j.val := fun he => hne (Fin.ext he)
    rw [h] at hb
    rw [h']
    simp only [Before] at hb ⊢
    omega

/-- Step `n` of the run is the scheduler of `c` finding slot `i` RUNNABLE. -/
structure Dispatches {n : ℕ} (t : Trace (stepBy false) (boot cfg false) n) (c : cfg.CpuId)
    (i : cfg.Slot) (m : ℕ) : Prop where
  cpu : (t.label m).cpu = c
  act : (t.label m).act = .go
  found : code (t.state m) c = [.rrScan i]
  runnable : ((t.state m).proc i).state = .runnable

theorem Dispatches.pos {n m : ℕ} {t : Trace (stepBy false) (boot cfg false) n} {i : cfg.Slot}
    (h : Dispatches t c i m) (hm : m ≤ n) :
    ((t.state m).cpu c).stack = .sched c ∧ pos (t.state m) c = some i.val := by
  have hok := (Reachable.core (t.reach hm)).cpu c
  obtain ⟨H,-,-,-,⟨r,hst⟩,-⟩ := hok.rule h.found
  obtain rfl := hok.own r hst
  refine ⟨hst,?_⟩
  rw [pos_of_code hst,h.found]
  rfl

theorem Dispatches.pos_next {n m : ℕ} {t : Trace (stepBy false) (boot cfg false) n} {i : cfg.Slot}
    (h : Dispatches t c i m) (hm : m < n) : Fairness.pos (t.state (m+1)) c = some (i.val+1) := by
  have hst := (h.pos hm.le).1
  have hnext := t.next m hm
  simp only [stepBy,h.cpu,h.act,step,h.found,exec,slot?,i.isLt,dif_pos,Fin.eta,h.runnable,
    if_true,Option.some.injEq] at hnext
  rw [← hnext]
  simp [Fairness.pos,goto,takeProc,setCpu,hst,scanAt]

end

/-- Between two dispatches of slot `i` by one CPU every other slot is at some moment
not RUNNABLE. -/
theorem dispatch_twice {cfg : Config} {n t₁ t₂ : ℕ} {c : cfg.CpuId} {i j : cfg.Slot}
    (t : Trace (stepBy false) (boot cfg false) n) (h₁ : Dispatches t c i t₁)
    (h₂ : Dispatches t c i t₂) (hlt : t₁ < t₂) (hn : t₂ ≤ n) (hne : j ≠ i) :
    ∃ m, t₁ < m ∧ m ≤ t₂ ∧ ((t.state m).proc j).state ≠ .runnable := by
  by_contra hno
  simp only [not_exists,not_and,not_not] at hno
  have hval : j.val ≠ i.val := fun he => hne (Fin.ext he)
  have hbefore : ∀ m, t₁ < m → m ≤ t₂ → Before j i (pos (t.state m) c) := by
    intro m hm
    induction m, hm using Nat.le_induction with
    | base =>
      intro _
      rw [h₁.pos_next (by omega)]
      simp only [Before]
      omega
    | succ m hm ih =>
      intro hle
      have hadv : Advance (t.state m) (t.state (m+1)) c :=
        step_advance (Reachable.core (t.reach (by omega))) (t.next m (by omega)) c
      exact hadv.before (ih (by omega)) (hno m hm (by omega)) (hno (m+1) (by omega) hle)
  have hlast := hbefore t₂ hlt le_rfl
  rw [(h₂.pos hn).2] at hlast
  simp only [Before] at hlast
  omega

def yieldRun : List (Label small) :=
  firstDispatch++[⟨0,.user .bufwrite,⟨0,0⟩⟩]++List.replicate 15 (go 0)

theorem yieldRun_runs : (run (stepBy false) (boot small false) yieldRun).isSome := by
  decide +kernel

theorem yieldRun_dispatch_twice : ∃ m, 3 < m ∧ m ≤ 23 ∧
      (((Trace.ofRun _ yieldRun (go 0) yieldRun_runs).state m).proc 1).state ≠ .runnable :=
  dispatch_twice (i := 0) (j := 1) (c := 0) _
    ⟨rfl,rfl,rfl,by decide +kernel⟩ ⟨rfl,rfl,rfl,by decide +kernel⟩
    (by decide) (by decide) (by decide)

end Xv6.Fairness
