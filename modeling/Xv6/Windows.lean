import Xv6.Typing

/-!
# The two windows of the multiple-runqueue kernel

In the multiple-runqueue kernel `sched` releases `ptable.lock` before its `swtch`, and the scheduler
marks a process RUNNING and switches to it with no lock held and interrupts on. `Orderly` says that
no CPU acquires `ptable.lock` while another is between that `release` and `switchkvm`, and that no
timer interrupt arrives between `p->state = RUNNING` and `c->proc = 0`. Holding `ptable.lock` across
the switch would give both.
-/
namespace Xv6.Windows
open SchedLog KernelState KernelStep Tally Frames Typing

section
variable {cfg : Config}

/-- Between the `release` of `sched` and `switchkvm`. -/
def Handing : Mode cfg → Prop
  | .leaving (some _) | .back _ => True
  | _ => False

/-- Between `p->state = RUNNING` and `c->proc = 0`, off the process. -/
def Dispatched : Mode cfg → Prop
  | .switching _ | .back _ | .parted _ => True
  | _ => False

instance (m : Mode cfg) : Decidable (Handing m) :=
  match m with
  | .leaving (some _) | .back _ => isTrue trivial
  | .leaving none | .plain | .taking _ | .switching _ | .parted _ => isFalse id

instance (m : Mode cfg) : Decidable (Dispatched m) :=
  match m with
  | .switching _ | .back _ | .parted _ => isTrue trivial
  | .plain | .taking _ | .leaving _ => isFalse id

/-- The lock a CPU is waiting for in `acquire`. -/
def waitsFor : List (Pc cfg) → Option (Lock cfg)
  | .spin l::_ => some l
  | _ => none

/-- A step of `c` that leaves the two windows alone. -/
def OrderlyAt (s : State cfg) (c : cfg.CpuId) : Act cfg → Prop
  | .go => waitsFor (code s c) = some .ptable → ∀ d, d ≠ c → ¬ Handing (mode (code s d))
  | .intr .timer => ¬ Dispatched (mode (code s c))
  | _ => True

def Orderly (s : State cfg) (a : Label cfg) : Prop := OrderlyAt s a.cpu a.act

instance decidableOrderlyAt (s : State cfg) (c : cfg.CpuId) : (a : Act cfg) → Decidable (OrderlyAt s c a)
  | .go => inferInstanceAs (Decidable (_ → _))
  | .intr .timer => inferInstanceAs (Decidable (¬ _))
  | .intr (.dev _) | .user _ | .alloc _ | .enter _ | .wake _ | .sleepOn _ | .leave => isTrue trivial

instance (s : State cfg) (a : Label cfg) : Decidable (Orderly s a) :=
  decidableOrderlyAt s a.cpu a.act

/-- The part of a timer trap before its call of `yield`. -/
def timerTok : Pc cfg → ℕ
  | .trap .timer _ | .trapKilled true _ | .trapYield true _ => 1
  | _ => 0

/-- Steps that acquire no lock, start no timer trap and begin no wait for a lock. -/
structure Tame (s s' : State cfg) (c : cfg.CpuId) : Prop where
  lock : ∀ l, s'.lock l = some c → s.lock l = some c
  timer : (s'.cpu c).stack = (s.cpu c).stack → weight timerTok (code s' c) ≤ weight timerTok (code s c)
  spins : (s'.cpu c).stack = (s.cpu c).stack →
    waitsFor (code s' c) = none ∨ ∃ pc, code s c = pc::code s' c

end

section
variable {cfg : Config} {s s' s₁ : State cfg} {c : cfg.CpuId} {cl : Clock} {k : List (Pc cfg)}
  {p : cfg.Slot} {pc : Pc cfg} {l : Lock cfg} {a : Act cfg}

theorem waitsFor_of_spinning (h : spinning k = 0) : waitsFor k = none := by
  cases k with
  | nil => rfl
  | cons pc k =>
    cases pc
    case spin => cases h
    all_goals rfl

theorem Tame.jump (hl : s₁.lock = s.lock) (hk : weight timerTok k ≤ weight timerTok (code s c))
    (hw : waitsFor k = none) : Tame s (goto s₁ c k) c :=
  ⟨fun l h => by simpa only [goto,hl] using h,fun _ => by rwa [code_goto],
    fun _ => .inl (by rwa [code_goto])⟩

theorem Tame.pop (hl : ∀ l, s₁.lock l = some c → s.lock l = some c)
    (hk : code s c = pc::k) : Tame s (goto s₁ c k) c :=
  ⟨hl,fun _ => by rw [code_goto,hk]; simp,fun _ => .inr ⟨pc,by rw [code_goto,hk]⟩⟩

theorem Tame.panic (hl : s₁.lock = s.lock) (hk : code s₁ c = code s c) (msg : String) :
    Tame s (KernelStep.panic s₁ c msg) c :=
  .jump hl (by simp [hk,timerTok]) rfl

theorem Tame.withProc {f : cfg.Slot → State cfg} (hf : ∀ p, Tame s (f p) c) :
    Tame s (KernelStep.withProc s c f) c := by
  unfold KernelStep.withProc
  split
  · exact .panic rfl rfl _
  · exact hf _

theorem Tame.switch (k' : List (Pc cfg)) (hl : s'.lock = s.lock)
    (hf : s'.frames (s.cpu c).stack = k') (hk : weight timerTok k' ≤ weight timerTok (code s c))
    (hw : waitsFor k' = none) : Tame s s' c :=
  ⟨fun l h => by rwa [hl] at h,fun hst => by rwa [code,hst,hf], fun hst => .inl (by rwa [code,hst,hf])⟩

theorem Tame.dequeue {r : cfg.CpuId} {thief : Option cfg.CpuId}
    (hk : weight timerTok k ≤ weight timerTok (code s c))
    (h : KernelStep.dequeue s c r thief k = some s') : Tame s s' c := by
  rcases dequeue_cases h with ⟨p,-,rfl⟩ | rfl
  · exact .jump rfl (by simpa [timerTok] using hk) rfl
  · exact .panic rfl rfl _

theorem Tame.release (hk : code s c = .release l::k)
    (h : exec true s c cl k (.release l) = some s') : Tame s s' c := by
  have hlock : ∀ m, Function.update s.lock l none m = some c → s.lock m = some c := by
    intro m hm
    by_cases hml : m = l
    · simp [hml] at hm
    · simpa [hml] using hm
  simp only [exec] at h
  split_ifs at h
  · cases h
    exact .panic rfl rfl _
  · split at h <;> cases h
    · exact ⟨hlock,fun _ => by simp [KernelStep.panic,code,setLock,timerTok,goto,setCpu],
        fun _ => .inl (by simp [KernelStep.panic,waitsFor])⟩
    · exact .pop hlock hk

theorem exec_tame (hk : code s c = pc::k) (hpc : ∀ l, pc ≠ .spin l ∧ pc ≠ .acquire l)
    (h : exec true s c cl k pc = some s') : Tame s s' c := by
  cases pc
  case spin l => exact absurd rfl (hpc l).1
  case acquire l => exact absurd rfl (hpc l).2
  case release l => exact .release hk h
  all_goals simp only [exec,reduceCtorEq,if_true] at h
  case mqCheck r =>
    split_ifs at h
    · cases h
      exact .jump rfl (by simp [hk,timerTok]) rfl
    · exact .dequeue (by simp [hk]) h
  case stealCheck r t =>
    split_ifs at h
    · exact .dequeue (by simp [hk]) h
    · cases h
      exact .pop (fun _ h => h) hk
  case swtch p cur b =>
    cases h
    refine .switch (.acquire .ptable::.schedIntena cur b::k) rfl ?_ (by simp [hk,timerTok]) rfl
    simp [switchFrom,setCpu,setProc,goto]
  case mqSwtch r p =>
    cases h
    exact .switch (.mqBack r p::k) rfl (by simp [switchTo,setCpu,goto]) (by simp [hk,timerTok]) rfl
  case rrSwtch p =>
    cases h
    exact .switch (.rrBack p::k) rfl (by simp [switchTo,setCpu,goto]) (by simp [hk,timerTok]) rfl
  case execName =>
    cases h
    exact .withProc fun p => .pop (fun _ h => h) hk
  case yield | wait =>
    cases h
    exact .withProc fun p => .jump rfl (by simp [hk,timerTok]) rfl
  case exit =>
    cases h
    refine .withProc fun p => ?_
    split_ifs
    · exact .panic rfl rfl _
    · exact .jump rfl (by simp [hk,timerTok]) rfl
  case waitfork =>
    cases h
    refine .withProc fun p => ?_
    split_ifs <;> exact .jump rfl (by simp [hk,timerTok]) rfl
  case sched =>
    cases h
    unfold KernelStep.sched
    split
    · exact .panic rfl rfl _
    · split
      · exact .panic rfl rfl _
      · refine .withProc fun p => ?_
        split_ifs <;> first | exact .panic rfl rfl _ | exact .jump rfl (by simp [hk,timerTok]) rfl
  case mqMark r p =>
    cases h
    exact .jump (by simp) (by simp [hk,timerTok]) rfl
  case trap irq usr =>
    cases irq <;> simp only at h
    · split_ifs at h <;> cases h <;> exact .jump rfl (by simp [hk,timerTok]) rfl
    · cases h
      exact .jump rfl (by simp [hk,timerTok]) rfl
  case trapYield b usr =>
    split at h
    · cases h
      exact .jump rfl (by simp [hk,timerTok]) rfl
    · split_ifs at h <;> cases h <;> exact .jump rfl (by simp [hk,timerTok]) rfl
  case trapKilled b usr =>
    split_ifs at h <;> cases h
    · exact .jump rfl (by simp [timerTok]) rfl
    · exact .jump rfl (by cases b <;> simp [hk,timerTok]) rfl
  case zombieExit =>
    cases h
    exact .panic rfl rfl _
  case iret | schedIntena | sizeDec =>
    cases h
    exact .pop (fun _ h => h) hk
  case tick | forkRun | forkret | yieldLocked | yieldRunnable | sleepLocked | wakeupSet | exitClosed
      | exitLocked | mqLoop | mqTake | mqBack | mqIdle | rrLoop | rrBack =>
    cases h
    exact .jump rfl (by simp [hk,timerTok]) rfl
  case unlink r p thief =>
    cases h
    exact .jump rfl (by cases thief <;> simp [hk,unlinked,timerTok]) (by cases thief <;> rfl)
  case trapLast | sysret =>
    split_ifs at h <;> cases h
    · exact .jump rfl (by simp [timerTok]) rfl
    · exact .pop (fun _ h => h) hk
  case sleepAwake | waitforkLoop =>
    split_ifs at h <;> cases h
    · exact .pop (fun _ h => h) hk
    · exact .jump rfl (by simp [hk,timerTok]) rfl
  case enqueue =>
    split_ifs at h <;> cases h
    · exact .panic rfl rfl _
    · exact .pop (fun _ h => h) hk
  case wakeup =>
    split_ifs at h <;> cases h
    · exact .panic rfl rfl _
    · exact .jump rfl (by simp [hk,timerTok]) rfl
  case allocproc cur i =>
    split at h
    · cases h
      exact .jump rfl (by simp [hk,timerTok]) rfl
    · split_ifs at h <;> cases h <;> exact .jump rfl (by simp [hk,timerTok]) rfl
  case rrScan i =>
    split at h
    · cases h
      exact .jump rfl (by simp [hk,timerTok]) rfl
    · split_ifs at h <;> cases h
      · exact .jump (by simp [takeProc,setCpu]) (by simp [hk,timerTok]) rfl
      · exact .jump rfl (by simp [hk,timerTok]) rfl
  case forkSeek np i m target =>
    split at h
    · split_ifs at h <;> cases h <;> exact .jump rfl (by simp [hk,timerTok]) rfl
    · split at h <;> cases h
      · exact .panic rfl rfl _
      · exact .jump rfl (by simp [hk,timerTok]) rfl
  case sleep ch l =>
    split at h
    · cases h
      exact .panic rfl rfl _
    · split_ifs at h <;> cases h <;> exact .jump rfl (by simp [hk,timerTok]) rfl
  case wakeup1 i ch =>
    split at h <;> cases h
    · exact .pop (fun _ h => h) hk
    · unfold wakeupSlot
      split_ifs <;> exact .jump rfl (by simp [hk,timerTok]) rfl
  case killScan pid i =>
    split at h
    · cases h
      exact .jump rfl (by simp [hk,timerTok]) rfl
    · split_ifs at h <;> cases h <;> exact .jump rfl (by simp [hk,timerTok]) rfl
  case exitReparent p i =>
    split at h
    · split_ifs at h <;> cases h <;> exact .jump rfl (by simp [hk,timerTok]) rfl
    · cases h
      exact .jump rfl (by simp [hk,timerTok]) rfl
  case waitScan p i b =>
    split at h
    · cases h
      unfold waitSlot
      split_ifs <;> exact .jump rfl (by simp [hk,timerTok]) rfl
    · split_ifs at h <;> cases h <;> exact .jump rfl (by simp [hk,timerTok]) rfl
  case stealScan r i m target =>
    split at h
    · split_ifs at h <;> cases h <;> exact .jump rfl (by simp [hk,timerTok]) rfl
    · split at h
      · cases h
        exact .jump rfl (by simp [hk,timerTok]) rfl
      · split_ifs at h <;> cases h <;>
          first | exact .panic rfl rfl _ | exact .jump rfl (by simp [hk,timerTok]) rfl

theorem userOp_tame {op : Op} (hk : code s c = .user::k) : Tame s (userOp s c k p op) c := by
  unfold userOp
  split
  · exact .jump rfl (by simp [hk,timerTok]) rfl
  · split_ifs
    · exact .jump rfl (by simp [timerTok]) rfl
    · split <;> exact .jump rfl (by simp [hk,timerTok]) rfl

theorem choose_tame (hk : code s c = pc::k) (h : choose s c cl k pc a = some s') : Tame s s' c := by
  unfold choose at h
  split at h
  · cases h
    exact .withProc fun p => userOp_tame hk
  all_goals cases h <;> first
    | exact .pop (fun _ h => h) hk
    | exact .jump rfl (by simp [hk,timerTok]) rfl

/-- The steps of `acquire`: an `acquire` that begins to wait, a wait that ends, and the rest. -/
theorem step_cases (h : step true s c cl a = some s') :
    (∃ l k, a = .go ∧ code s c = .acquire l::k ∧ s' = goto (setCpu s c pushcli) c (.spin l::k)) ∨
    (∃ l k, a = .go ∧ code s c = .spin l::k ∧ s' = goto (setLock s l (some c)) c k) ∨
    (a = .intr .timer ∧ ∃ usr, s' = goto (setCpu s c fun d => {d with fl := false}) c
      (.trap .timer usr::.iret::code s c)) ∨ Tame s s' c := by
  unfold KernelStep.step at h
  split at h
  · cases h
  · rename_i pc k hk
    split at h
    · by_cases hspin : ∃ l, pc = .spin l
      · obtain ⟨l,rfl⟩ := hspin
        simp only [exec] at h
        split_ifs at h
        cases h
        exact .inr (.inl ⟨l,k,rfl,hk,rfl⟩)
      · by_cases hacq : ∃ l, pc = .acquire l
        · obtain ⟨l,rfl⟩ := hacq
          simp only [exec] at h
          split_ifs at h <;> cases h
          · have hlock : (setCpu s c pushcli).lock = s.lock := rfl
            have hcode : code (setCpu s c pushcli) c = code s c := by simp [code,setCpu,pushcli]
            exact .inr (.inr (.inr (.panic hlock hcode _)))
          · exact .inl ⟨l,k,rfl,hk,rfl⟩
        · exact .inr (.inr (.inr (exec_tame hk
            (fun l => ⟨fun he => hspin ⟨l,he⟩,fun he => hacq ⟨l,he⟩⟩) h)))
    · rename_i irq
      unfold interrupt at h
      split_ifs at h
      cases h
      cases irq with
      | timer => exact .inr (.inr (.inl ⟨rfl,_,rfl⟩))
      | dev => exact .inr (.inr (.inr (.jump rfl (by simp [timerTok]) rfl)))
    · exact .inr (.inr (.inr (choose_tame hk h)))

theorem step_acquired (h : step true s c cl a = some s') (hl : s'.lock l = some c) :
    s.lock l = some c ∨ a = .go ∧ waitsFor (code s c) = some l := by
  rcases step_cases h with ⟨m,k,-,-,rfl⟩ | ⟨m,k,rfl,hk,rfl⟩ | ⟨-,usr,rfl⟩ | ht
  · exact .inl hl
  · by_cases hm : l = m
    · subst hm
      exact .inr ⟨rfl,by rw [hk]; rfl⟩
    · exact .inl (by simpa [goto,setLock,hm] using hl)
  · exact .inl hl
  · exact .inl (ht.lock l hl)

theorem step_timer (h : step true s c cl a = some s') (ha : a ≠ .intr .timer)
    (hst : (s'.cpu c).stack = (s.cpu c).stack) :
    weight timerTok (code s' c) ≤ weight timerTok (code s c) := by
  rcases step_cases h with ⟨m,k,-,hk,rfl⟩ | ⟨m,k,-,hk,rfl⟩ | ⟨rfl,-⟩ | ht
  · rw [code_goto,hk]
    simp [timerTok]
  · rw [code_goto,hk]
    simp
  · exact absurd rfl ha
  · exact ht.timer hst

theorem step_waits (h : step true s c cl a = some s')
    (hst : (s'.cpu c).stack = (s.cpu c).stack) (hw : waitsFor (code s' c) = some l) :
    (∃ k, code s c = .acquire l::k) ∨ ∃ pc, code s c = pc::code s' c := by
  rcases step_cases h with ⟨m,k,-,hk,rfl⟩ | ⟨m,k,-,hk,rfl⟩ | ⟨-,usr,rfl⟩ | ht
  · rw [code_goto] at hw
    cases hw
    exact .inl ⟨k,hk⟩
  · exact .inr ⟨.spin m,by rw [code_goto,hk]⟩
  · rw [code_goto] at hw
    cases hw
  · rcases ht.spins hst with hn | hpop
    · rw [hn] at hw
      cases hw
    · exact .inr hpop

end
end Xv6.Windows
