import Xv6.Effects

/-!
# The handover between processes and schedulers

The invariant that both kernels need for `swtch` to be right. Each CPU is on its own scheduler stack
or on the kernel stack of `c->proc`; a process is on at most one CPU, counting a CPU whose scheduler
has taken it and not yet switched to it; its state agrees with how far its CPU is in the handover;
and a process that can be switched to has a context saved by its own latest `sched`, on a stack that
resumes with the locks `swtch` hands over.

The multiple-runqueue kernel does not keep this by itself: `Cond` names the three places where a
step can break it. In the round-robin kernel `ptable.lock` covers all three.
-/
namespace Xv6.Handoff
open SchedLog KernelState KernelStep Tally Frames Typing Effects

section
variable {cfg : Config}

/-- CPU `c` executes on the kernel stack of `p`. -/
def On (s : State cfg) (c : cfg.CpuId) (p : cfg.Slot) : Prop := (s.cpu c).stack = .kstack p

/-- The scheduler of `c` has taken `p` and not yet switched to it. -/
def Taken (s : State cfg) (c : cfg.CpuId) (p : cfg.Slot) : Prop :=
  mode (code s c) = .taking p ∨ mode (code s c) = .switching p

def At (s : State cfg) (c : cfg.CpuId) (p : cfg.Slot) : Prop := On s c p ∨ Taken s c p

def Resting : ProcState → Prop
  | .sleeping | .runnable | .zombie => True
  | _ => False

def Alive : ProcState → Prop
  | .sleeping | .runnable | .running => True
  | _ => False

def resumeLocks (mq : Bool) : List (Lock cfg) := if mq then [] else [.ptable]

/-- `p->context` is the one saved last, and its stack can be resumed. -/
structure Saved (mq : Bool) (s : State cfg) (p : cfg.Slot) : Prop where
  stack : (s.proc p).context.stack = .kstack p
  fresh : (s.proc p).context.seq = (s.proc p).scheds
  wf : Wf mq (.kstack p) (resumeLocks mq) (s.frames (.kstack p))
  calm : Calm (s.frames (.kstack p))

/-- Where the scheduler of `c` resumes when `p` leaves it. -/
def homeFrames (mq : Bool) (c : cfg.CpuId) (p : cfg.Slot) : List (Pc cfg) :=
  [if mq then .mqBack c p else .rrBack p]

structure CpuOk (mq : Bool) (s : State cfg) (c : cfg.CpuId) : Prop where
  typed : Typed mq s c
  own : ∀ r, (s.cpu c).stack = .sched r → r = c
  kproc : ∀ p, On s c p → (s.cpu c).proc = some p
  sproc : ∀ r, (s.cpu c).stack = .sched r → (s.cpu c).proc = (mode (code s c)).target
  home : ∀ p, On s c p → (s.cpu c).scheduler.stack = .sched c ∧ s.frames (.sched c) = homeFrames mq c p
  cur : ∀ d, mode (code s c) = .leaving (some d) → d = c

structure ForkOk (mq : Bool) (s : State cfg) : Prop where
  count : ∀ q, ∑ p, weight (forkTok q) (s.frames (.kstack p)) =
    if (s.proc q).state = .embryo then 1 else 0
  dead : ∀ p q, ¬ Alive (s.proc p).state → weight (forkTok q) (s.frames (.kstack p)) = 0
  built : ∀ p q, weight (builtTok q) (s.frames (.kstack p)) ≠ 0 → Saved mq s q

structure Core (mq : Bool) (s : State cfg) : Prop where
  cpu : ∀ c, CpuOk mq s c
  single : ∀ c d p, At s c p → At s d p → c = d
  runs : ∀ c p, On s c p → mode (code s c) = .plain → (s.proc p).state = .running
  rests : ∀ c p d, On s c p → mode (code s c) = .leaving d → Resting (s.proc p).state
  taking : ∀ c p, mode (code s c) = .taking p → (s.proc p).state = .runnable
  switching : ∀ c p, mode (code s c) = .switching p → (s.proc p).state = .running
  run : ∀ p, (s.proc p).state = .running → ∃ c, At s c p
  pend : ∀ c j, weight (wakeTok j) (code s c) ≠ 0 → (s.proc j).state = .sleeping
  saved : ∀ p, Alive (s.proc p).state → (∀ c, ¬ On s c p) → Saved mq s p
  fork : ForkOk mq s

structure Cond (s : State cfg) (c : cfg.CpuId) : Prop where
  take : ∀ r p k, code s c = .mqTake r p::k → (s.proc p).state = .runnable ∧ ∀ d, ¬ At s d p
  reap : ∀ p i b k q, code s c = .waitScan p i b::k → slot? cfg i = some q →
    (s.proc q).parent = some p → (s.proc q).state = .zombie → ∀ d, ¬ On s d q
  timer : ∀ usr k p, code s c = .trapYield true usr::k → (s.cpu c).proc = some p →
    (s.proc p).state = .running → isKstack (s.cpu c).stack ∧ mode k = .plain

/-- What a step of `c` leaves alone; `x` is the process whose stack is being set up. -/
structure Local (s s' : State cfg) (c : cfg.CpuId) (x : Option cfg.Slot) : Prop where
  apart : Apart s s' c
  view : ∀ d, d ≠ c → SameView (s.cpu d) (s'.cpu d)
  frames : ∀ st, st ≠ (s.cpu c).stack → (∀ q, x = some q → st ≠ .kstack q) → s'.frames st = s.frames st
  context : ∀ p, ¬ On s c p → x ≠ some p →
    (s'.proc p).context = (s.proc p).context ∧ (s'.proc p).scheds = (s.proc p).scheds

end

section
variable {cfg : Config} {mq : Bool} {s s' s₁ : State cfg} {c d : cfg.CpuId} {cl : Clock}
  {k : List (Pc cfg)} {p q : cfg.Slot} {x : Option cfg.Slot}

theorem CpuOk.rule {pc : Pc cfg} (hc : CpuOk mq s c) (hk : code s c = pc::k) :
    ∃ H, Held s c H ∧ Wf mq (s.cpu c).stack H (unspin (pc::k)) := by
  obtain ⟨H,hh,hw⟩ := hc.typed
  exact ⟨H,hh,hk ▸ hw⟩

theorem unspin_cons {pc : Pc cfg} (hpc : ∀ l, pc ≠ .spin l) : unspin (pc::k) = pc::k := by
  cases pc
  case spin l => exact absurd rfl (hpc l)
  all_goals rfl

theorem CpuOk.switchFrom_code (hok : CpuOk true s c) (hst : (s.cpu c).stack = .kstack p) :
    code (switchFrom s c p (s.cpu (if true = true then c else c)).scheduler k) c = [.mqBack c p] := by
  obtain ⟨hs,hf⟩ := hok.home p hst
  simpa [code,switchFrom,setCpu,setProc,goto,hst,hs,homeFrames] using hf

theorem Saved.switchTo_code (h : Saved true s p) (hst : (s.cpu c).stack = .sched c) :
    code (switchTo s c p k) c = s.frames (.kstack p) := by
  simp [code,switchTo,setCpu,goto,hst,h.stack]

theorem On.stack_eq (h : On s c p) : (s.cpu c).stack = .kstack p := h

theorem On.unique (h : On s c p) (h' : On s c q) : p = q := by
  unfold On at h h'
  rw [h] at h'
  exact Stack.kstack.inj h'

theorem CpuOk.on_of_isKstack (hc : CpuOk mq s c) (h : isKstack (s.cpu c).stack) :
    ∃ p, On s c p ∧ (s.cpu c).proc = some p := by
  cases hst : (s.cpu c).stack with
  | kstack p => exact ⟨p,hst,hc.kproc p hst⟩
  | sched => rw [hst] at h; exact h.elim

theorem Local.jump (hl : s₁.lock = s.lock) (hcpu : s₁.cpu = s.cpu) (hf : s₁.frames = s.frames)
    (hp : ∀ p, ¬ On s c p → (s₁.proc p).context = (s.proc p).context ∧
      (s₁.proc p).scheds = (s.proc p).scheds) : Local s (goto s₁ c k) c none := by
  refine ⟨⟨?_,?_,?_⟩,?_,?_,fun p hon _ => hp p hon⟩
  · intro l d _
    simp only [goto,hl]
  · intro d _
    simp only [goto,hcpu]
  · intro d _
    simp only [goto,hcpu]
  · intro d _
    simpa only [goto,hcpu] using .refl _
  · intro st hst _
    simp only [goto,hcpu,hf]
    exact Function.update_of_ne hst _ _

theorem Local.jumpCpu (hl : s₁.lock = s.lock) (hcpu : ∀ d, d ≠ c → s₁.cpu d = s.cpu d)
    (hst : (s₁.cpu c).stack = (s.cpu c).stack) (hf : s₁.frames = s.frames)
    (hp : ∀ p, (s₁.proc p).context = (s.proc p).context ∧
      (s₁.proc p).scheds = (s.proc p).scheds) : Local s (goto s₁ c k) c none := by
  refine ⟨⟨?_,?_,?_⟩,?_,?_,fun p _ _ => hp p⟩
  · intro l d _
    simp only [goto,hl]
  · intro d hd
    simp only [goto,hcpu d hd]
  · intro d hd
    simp only [goto,hcpu d hd]
  · intro d hd
    simpa only [goto,hcpu d hd] using .refl _
  · intro st hne _
    simp only [goto,hst,hf]
    exact Function.update_of_ne hne _ _

theorem Local.of_effect (hc : CpuOk mq s c) (he : Effect mq s c cl x s') : Local s s' c x := by
  cases he with
  | quiet hq =>
    obtain ⟨k,hf,-⟩ := hq.frames
    refine ⟨hq.apart,fun d _ => hq.cpu d,fun st hst _ => ?_,
      fun p _ _ => ⟨(hq.proc p).context,(hq.proc p).scheds⟩⟩
    rw [hf]
    exact Function.update_of_ne hst _ _
  | execName n k p | killHit pid i p =>
    refine .jump rfl rfl rfl fun q _ => ?_
    by_cases hq : q = p <;> simp [setProc,hq]
  | alloc cur i k p =>
    refine .jump rfl rfl rfl fun q _ => ?_
    by_cases hq : q = p <;> simp [allocSlot,setState,setProc,logProc,hq]
  | allocFail pc cur np =>
    refine .jump rfl rfl rfl fun q _ => ?_
    by_cases hq : q = np <;> simp [setState,setProc,hq]
  | allocOk cur np =>
    refine ⟨⟨fun _ _ _ => Iff.rfl,fun _ _ => rfl,fun _ _ => rfl⟩,fun _ _ => .refl _,?_,?_⟩
    · intro st hst hne
      have hnp : st ≠ .kstack np := hne np rfl
      simp [goto,buildStack,setProc,hst,hnp]
    · intro q _ hne
      have hq : q ≠ np := fun hq => hne (hq ▸ rfl)
      simp [goto,buildStack,setProc,hq]
  | forkCopy cur np =>
    refine .jump rfl rfl rfl fun q _ => ?_
    by_cases hq : q = np <;> simp [copyProc,logClock,setProc,hq]
  | forkRun np =>
    refine .jump rfl rfl rfl fun q _ => ?_
    by_cases hq : q = np <;> simp [setState,setProc,logProc,hq]
  | yieldRunnable p =>
    refine .jump rfl rfl rfl fun q _ => ?_
    by_cases hq : q = p <;> simp [setState,setProc,hq]
  | sched p k b hk hp =>
    refine .jump rfl rfl rfl fun q hq => ?_
    obtain ⟨H,-,hw⟩ := hc.rule hk
    obtain ⟨p',hon,hp'⟩ := hc.on_of_isKstack hw.2.1
    have hne : q ≠ p := by
      intro he
      rw [hp'] at hp
      cases hp
      exact hq (he ▸ hon)
    simp [setProc,hne]
  | swtch p cur b k hk =>
    obtain ⟨H,-,hw⟩ := hc.rule hk
    have hon : On s c p := hw.2.1
    refine ⟨⟨fun _ _ _ => Iff.rfl,?_,?_⟩,?_,?_,?_⟩
    · intro d hd
      simp [switchFrom,setCpu,setProc,goto,hd]
    · intro d hd
      simp [switchFrom,setCpu,setProc,goto,hd]
    · intro d hd
      simpa [switchFrom,setCpu,setProc,goto,hd] using .refl _
    · intro st hst _
      simp [switchFrom,setCpu,setProc,goto,hst]
    · intro q hq _
      have hne : q ≠ p := fun he => hq (he ▸ hon)
      simp [switchFrom,setCpu,setProc,goto,hne]
  | sleepLocked p =>
    refine .jump rfl rfl rfl fun q _ => ?_
    by_cases hq : q = p <;> simp [setState,setProc,logProc,hq]
  | wakeupSet j =>
    refine .jump rfl rfl rfl fun q _ => ?_
    by_cases hq : q = j <;> simp [setState,setProc,hq]
  | exitEnd p =>
    refine .jump rfl rfl rfl fun q _ => ?_
    by_cases hq : q = p <;> simp [setState,setProc,logProc,logClock,hq]
  | reap p i kids q =>
    refine .jump rfl rfl rfl fun r _ => ?_
    by_cases hr : r = q <;> simp [freeSlot,setProc,logProc,hr]
  | mqTake =>
    exact .jumpCpu rfl (fun d hd => by simp [takeProc,setCpu,hd]) (by simp [takeProc,setCpu]) rfl
      fun _ => ⟨rfl,rfl⟩
  | mqMark r p =>
    refine .jump (by simp) (by simp) (by simp) fun q _ => ?_
    by_cases hq : q = p <;> simp [hq]
  | mqSwtch | rrSwtch =>
    refine ⟨⟨fun _ _ _ => Iff.rfl,?_,?_⟩,?_,?_,fun _ _ _ => ⟨rfl,rfl⟩⟩
    · intro d hd
      simp [switchTo,setCpu,goto,hd]
    · intro d hd
      simp [switchTo,setCpu,goto,hd]
    · intro d hd
      simpa [switchTo,setCpu,goto,hd] using .refl _
    · intro st hst _
      simp [switchTo,setCpu,goto,hst]
  | mqBack | mqIdle | rrBack =>
    exact .jumpCpu rfl (fun d hd => by simp [setCpu,hd]) (by simp [setCpu]) rfl fun _ => ⟨rfl,rfl⟩
  | rrTake i p =>
    refine .jumpCpu (by simp [takeProc,setCpu]) (fun d hd => by simp [takeProc,setCpu,hd])
      (by simp [takeProc,setCpu]) (by simp [takeProc,setCpu]) fun q => ?_
    by_cases hq : q = p <;> simp [takeProc,setCpu,hq]
  | _ => exact .jump rfl rfl rfl fun _ _ => ⟨rfl,rfl⟩

@[simp] theorem mode_unspin (k : List (Pc cfg)) : mode (unspin k) = mode k := by
  cases k with
  | nil => rfl
  | cons pc => cases pc <;> rfl

theorem Core.on_state (hC : Core mq s) (h : On s c p) :
    mode (code s c) = .plain ∧ (s.proc p).state = .running ∨
    (∃ d, mode (code s c) = .leaving d) ∧ Resting (s.proc p).state := by
  obtain ⟨H,-,hw⟩ := (hC.cpu c).typed
  rw [h.stack_eq] at hw
  rcases hw.kstack_mode with hm | ⟨d,hm⟩
  · rw [mode_unspin] at hm
    exact .inl ⟨hm,hC.runs c p h hm⟩
  · rw [mode_unspin] at hm
    exact .inr ⟨⟨d,hm⟩,hC.rests c p d h hm⟩

theorem Core.not_on (hC : Core mq s) (hr : (s.proc p).state ≠ .running)
    (hn : ¬ Resting (s.proc p).state) : ¬ On s c p := by
  intro h
  rcases hC.on_state h with ⟨-,h⟩ | ⟨-,h⟩
  · exact hr h
  · exact hn h

theorem Core.embryo (hC : Core mq s) (hp : On s c p)
    (hq : weight (forkTok q) (code s c) ≠ 0) : (s.proc q).state = .embryo := by
  have hsum := hC.fork.count q
  have hle := le_sum (fun p => weight (forkTok q) (s.frames (.kstack p))) p
  have hcode : code s c = s.frames (.kstack p) := by rw [code,hp.stack_eq]
  rw [hcode] at hq
  by_contra hne
  rw [if_neg hne] at hsum
  simp only [hsum] at hle
  omega

theorem Core.allocating (hC : Core mq s) {cur : cfg.Slot} (hk : code s c = .allocStack cur q::k) :
    (s.proc q).state = .embryo := by
  obtain ⟨H,-,hw⟩ := (hC.cpu c).rule hk
  have hon : On s c cur := hw.2.1
  exact hC.embryo hon (by simp [hk,forkTok])

theorem Core.stack_ne (hC : Core mq s) (hd : d ≠ c) : (s.cpu d).stack ≠ (s.cpu c).stack := by
  intro he
  cases hst : (s.cpu c).stack with
  | kstack p => exact hd (hC.single d c p (.inl (he.trans hst)) (.inl hst))
  | sched r => exact hd (((hC.cpu d).own r (he.trans hst)).symm.trans ((hC.cpu c).own r hst))

theorem Core.code_other (hC : Core mq s) (hl : Local s s' c x)
    (hx : ∀ q, x = some q → (s.proc q).state = .embryo) (hd : d ≠ c) : code s' d = code s d := by
  unfold code
  rw [(hl.view d hd).stack]
  refine hl.frames _ (hC.stack_ne hd) ?_
  intro q hq hst
  have he := hx q hq
  exact hC.not_on (c := d) (p := q) (by simp [he]) (by simp [he,Resting]) hst

theorem Core.frames_sched (hC : Core mq s) (hl : Local s s' c x)
    (hd : d ≠ c) : s'.frames (.sched d) = s.frames (.sched d) := by
  refine hl.frames _ ?_ (by simp)
  intro he
  exact hd ((hC.cpu c).own d he.symm)

theorem Core.cpu_other (hC : Core mq s) (hl : Local s s' c x)
    (hx : ∀ q, x = some q → (s.proc q).state = .embryo) (hd : d ≠ c) : CpuOk mq s' d := by
  have hcode := hC.code_other hl hx hd
  have hv := hl.view d hd
  have hok := hC.cpu d
  refine ⟨?_,?_,?_,?_,?_,?_⟩
  · obtain ⟨H,hh,hw⟩ := hok.typed
    refine ⟨H,⟨fun l => (hl.apart.lock l d hd).trans (hh.locks l),hh.nodup,?_,?_⟩,?_⟩
    · rw [hl.apart.ncli d hd,hcode]
      exact hh.ncli
    · rw [hl.apart.ncli d hd,hl.apart.fl d hd]
      exact hh.off
    · rw [hv.stack,hcode]
      exact hw
  · rw [hv.stack]
    exact hok.own
  · unfold On
    rw [hv.stack,hv.proc]
    exact hok.kproc
  · rw [hv.stack,hv.proc,hcode]
    exact hok.sproc
  · unfold On
    rw [hv.stack,hv.scheduler,hC.frames_sched hl hd]
    exact hok.home
  · rw [hcode]
    exact hok.cur

theorem Saved.keep (h : Saved mq s p) (hl : Local s s' c x)
    (hon : ¬ On s c p) (hx : x ≠ some p) : Saved mq s' p := by
  obtain ⟨hctx,hsch⟩ := hl.context p hon hx
  have hf : s'.frames (.kstack p) = s.frames (.kstack p) := by
    refine hl.frames _ (fun he => hon he.symm) ?_
    rintro q hq he
    cases he
    exact hx hq
  exact ⟨hctx ▸ h.stack,by rw [hctx,hsch]; exact h.fresh,hf ▸ h.wf,hf ▸ h.calm⟩

end
end Xv6.Handoff
