import Xv6.Frames

/-!
# Every step keeps the call stacks well formed

A CPU is `Typed` when the locks that name it as holder are those its stack says it holds, and `ncli`
counts them. By `step_typed` a step keeps the CPU that moves typed, as long as it does not switch
stacks: what a CPU finds on the other stack after a `swtch` is a fact about the whole machine and
left to the invariants of the two kernels.
-/
namespace Xv6.Typing
open SchedLog KernelState KernelStep Frames

section
variable {cfg : Config} {mq : Bool} {s s' s₁ : State cfg} {c : cfg.CpuId} {cl : Clock}
  {H : List (Lock cfg)} {k : List (Pc cfg)} {pc : Pc cfg}

/-- CPU `c` holds exactly the locks `H`, with interrupts off while it holds one. -/
structure Held (s : State cfg) (c : cfg.CpuId) (H : List (Lock cfg)) : Prop where
  locks : ∀ l, s.lock l = some c ↔ l ∈ H
  nodup : H.Nodup
  ncli : (s.cpu c).ncli = H.length+spinning (code s c)
  off : (s.cpu c).ncli ≠ 0 → (s.cpu c).fl = false

def Typed (mq : Bool) (s : State cfg) (c : cfg.CpuId) : Prop :=
  ∃ H, Held s c H ∧ Wf mq (s.cpu c).stack H (unspin (code s c))

/-- What a step of `c` relies on besides its own stack. -/
structure Side (s : State cfg) (c : cfg.CpuId) : Prop where
  kproc : ∀ p, (s.cpu c).stack = .kstack p → (s.cpu c).proc = some p
  timer : ∀ usr k p, code s c = .trapYield true usr::k → (s.cpu c).proc = some p →
    (s.proc p).state = .running → isKstack (s.cpu c).stack ∧ mode k = .plain
  gone : ∀ k p, code s c = .sched::k → (s.cpu c).proc = some p → (s.proc p).state ≠ .running

def switches : Pc cfg → Bool
  | .swtch _ _ _ | .mqSwtch _ _ | .rrSwtch _ => true
  | _ => false

@[simp] theorem code_goto (s : State cfg) (c : cfg.CpuId) (k : List (Pc cfg)) :
    code (goto s c k) c = k := by simp [code,goto]

@[simp] theorem markRunning_lock (s : State cfg) (c : cfg.CpuId) (cl : Clock) (p : cfg.Slot) :
    (markRunning s c cl p).lock = s.lock := by
  unfold markRunning
  split_ifs <;> rfl

@[simp] theorem markRunning_cpu (s : State cfg) (c : cfg.CpuId) (cl : Clock) (p : cfg.Slot) :
    (markRunning s c cl p).cpu = s.cpu := by
  unfold markRunning
  split_ifs <;> rfl

@[simp] theorem markRunning_frames (s : State cfg) (c : cfg.CpuId) (cl : Clock) (p : cfg.Slot) :
    (markRunning s c cl p).frames = s.frames := by
  unfold markRunning
  split_ifs <;> rfl

@[simp] theorem markRunning_runqueue (s : State cfg) (c : cfg.CpuId) (cl : Clock) (p : cfg.Slot) :
    (markRunning s c cl p).runqueue = s.runqueue := by
  unfold markRunning
  split_ifs <;> rfl

@[simp] theorem markRunning_proc (s : State cfg) (c : cfg.CpuId) (cl : Clock) (p : cfg.Slot) :
    (markRunning s c cl p).proc = Function.update s.proc p {s.proc p with state := .running} := by
  unfold markRunning
  split_ifs <;> rfl

theorem markRunning_log (s : State cfg) (c : cfg.CpuId) (cl : Clock) (p : cfg.Slot) :
    (markRunning s c cl p).log = writelog s.log cl c.val (s.proc p).pid (s.proc p).name .tick
      (s.proc p).state .running := by
  unfold markRunning
  split_ifs <;> rfl

theorem markRunning_nextpid (s : State cfg) (c : cfg.CpuId) (cl : Clock) (p : cfg.Slot) :
    (markRunning s c cl p).nextpid = s.nextpid := by
  unfold markRunning
  split_ifs <;> rfl

/-- `s₁` differs from `s` in nothing that `Held` or the stack pointer of `c` depends on. -/
structure SameCpu (s s₁ : State cfg) (c : cfg.CpuId) : Prop where
  lock : s₁.lock = s.lock
  ncli : (s₁.cpu c).ncli = (s.cpu c).ncli
  fl : (s₁.cpu c).fl = (s.cpu c).fl
  stack : (s₁.cpu c).stack = (s.cpu c).stack

theorem Held.jump (hh : Held s c H) (hc : spinning (code s c) = 0) (hw : Wf mq (s.cpu c).stack H k)
    (hs : SameCpu s s₁ c := by exact ⟨rfl,rfl,rfl,rfl⟩) : Typed mq (goto s₁ c k) c := by
  refine ⟨H,⟨?_,hh.nodup,?_,?_⟩,?_⟩
  · intro l
    rw [show (goto s₁ c k).lock = s.lock from hs.lock]
    exact hh.locks l
  · have hn := hh.ncli
    rw [show ((goto s₁ c k).cpu c).ncli = (s.cpu c).ncli from hs.ncli,hn,hc,code_goto, hw.spinning.1]
  · intro hne
    have hn : ((goto s₁ c k).cpu c).ncli = (s.cpu c).ncli := hs.ncli
    rw [show ((goto s₁ c k).cpu c).fl = (s.cpu c).fl from hs.fl]
    exact hh.off (hn ▸ hne)
  · rw [show ((goto s₁ c k).cpu c).stack = (s.cpu c).stack from hs.stack,code_goto, hw.spinning.2]
    exact hw

theorem Held.flag (hh : Held s c []) (hl : s₁.lock = s.lock)
    (hn : (s₁.cpu c).ncli = (s.cpu c).ncli) (hst : (s₁.cpu c).stack = (s.cpu c).stack)
    (hc : spinning (code s c) = 0) (hw : Wf mq (s.cpu c).stack [] k) :
    Typed mq (goto s₁ c k) c := by
  have h0 : ((goto s₁ c k).cpu c).ncli = 0 := by
    have := hh.ncli
    rw [show ((goto s₁ c k).cpu c).ncli = (s.cpu c).ncli from hn,this,hc]
    rfl
  refine ⟨[],⟨?_,hh.nodup,?_,fun hne => absurd h0 hne⟩,?_⟩
  · intro l
    rw [show (goto s₁ c k).lock = s.lock from hl]
    exact hh.locks l
  · rw [h0,code_goto,hw.spinning.1]
    rfl
  · rw [show ((goto s₁ c k).cpu c).stack = (s.cpu c).stack from hst,code_goto,hw.spinning.2]
    exact hw

theorem Held.panic (hh : Held s c H) (hc : spinning (code s c) = 0) {msg : String}
    (hm : msg ∉ schedPanics) (hw : Wf mq (s.cpu c).stack H (code s c)) :
    Typed mq (panic s c msg) c := by
  have hn := hh.ncli
  rw [hc] at hn
  refine ⟨H,⟨hh.locks,hh.nodup,?_,fun _ => by simp [KernelStep.panic,goto,setCpu]⟩,?_⟩
  · simpa [KernelStep.panic,goto,setCpu,code,spinning] using hn
  · simpa [KernelStep.panic,goto,setCpu,code,unspin,Rule] using ⟨hm,hw⟩

theorem Held.acquire {l : Lock cfg} (hh : Held s c H) (hc : code s c = .acquire l::k)
    (hw : Wf mq (s.cpu c).stack H (.acquire l::k))
    (h : exec mq s c cl k (.acquire l) = some s') : Typed mq s' c := by
  have hl : s.lock l ≠ some c := fun hl => hw.1.fresh ((hh.locks l).mp hl)
  simp only [exec,if_neg hl,Option.some.injEq] at h
  subst h
  refine ⟨H,⟨hh.locks,hh.nodup,?_,?_⟩,?_⟩
  · have hn := hh.ncli
    simp only [hc,spinning] at hn
    simp [goto,setCpu,pushcli,code,spinning,hn]
  · simp [goto,setCpu,pushcli]
  · simpa [unspin,goto,setCpu,pushcli,code] using hw

theorem Held.spin {l : Lock cfg} (hh : Held s c H) (hc : code s c = .spin l::k)
    (hw : Wf mq (s.cpu c).stack H (.acquire l::k))
    (h : exec mq s c cl k (.spin l) = some s') : Typed mq s' c := by
  obtain ⟨he,hw⟩ := hw
  simp only [exec] at h
  split_ifs at h with hl
  simp only [Option.some.injEq] at h
  subst h
  have hn := hh.ncli
  simp only [hc,spinning] at hn
  refine ⟨l::H,⟨?_,List.nodup_cons.mpr ⟨he.fresh,hh.nodup⟩,?_,hh.off⟩,?_⟩
  · intro m
    by_cases hm : m = l
    · simp [goto,setLock,hm]
    · simpa [goto,setLock,hm] using hh.locks m
  · simp only [code_goto,hw.spinning.1,List.length_cons]
    exact hn
  · rw [code_goto,hw.spinning.2]
    exact hw

def unnest (d : Cpu cfg) : Cpu cfg :=
  {d with ncli := d.ncli-1, fl := d.ncli-1 = 0 && d.intena}

theorem Held.release_eq {l : Lock cfg} (hh : Held s c H) (hl : l ∈ H) (hsp : spinning (code s c) = 0) :
    exec mq s c cl k (.release l) = some (goto (setCpu (setLock s l none) c unnest) c k) := by
  have hn := hh.ncli
  rw [hsp,add_zero] at hn
  have hpos : H.length ≠ 0 := by
    intro h0
    rw [List.length_eq_zero_iff.mp h0] at hl
    simp at hl
  have hfl : (s.cpu c).fl = false := hh.off (by omega)
  have hpop : popcli (s.cpu c) = .ok (unnest (s.cpu c)) := by simp [popcli,unnest,hfl,hn,hpos]
  simp only [exec,(hh.locks l).mpr hl,ne_eq,not_true_eq_false,if_false,hpop]
  rfl

theorem Held.release {l : Lock cfg} (hh : Held s c H) (hc : code s c = .release l::k)
    (hw : Wf mq (s.cpu c).stack H (.release l::k))
    (h : exec mq s c cl k (.release l) = some s') : Typed mq s' c := by
  obtain ⟨hl,hw⟩ := hw
  have hsp : spinning (code s c) = 0 := by rw [hc]; rfl
  have hn := hh.ncli
  rw [hsp,add_zero] at hn
  rw [hh.release_eq hl hsp] at h
  cases h
  refine ⟨H.erase l,⟨?_,hh.nodup.erase l,?_,?_⟩,?_⟩
  · intro m
    rw [hh.nodup.mem_erase_iff]
    by_cases hm : m = l
    · simp [goto,setCpu,setLock,hm]
    · simpa [goto,setCpu,setLock,hm] using hh.locks m
  · simp [goto,setCpu,setLock,unnest,code,hw.spinning.1,List.length_erase_of_mem hl,hn]
  · simp only [goto,setCpu,setLock,unnest,Function.update_self]
    intro hne
    simp [hne]
  · simpa [goto,setCpu,setLock,unnest,code,hw.spinning.2] using hw

theorem SameCpu.intena (s : State cfg) (c d : cfg.CpuId) (b : Bool) :
    SameCpu s (setCpu s d fun e => {e with intena := b}) c := by
  by_cases hd : c = d
  · subst hd
    exact ⟨rfl,by simp [setCpu],by simp [setCpu],by simp [setCpu]⟩
  · exact ⟨rfl,by simp [setCpu,hd],by simp [setCpu,hd],by simp [setCpu,hd]⟩

theorem Side.owner (hs : Side s c) (h : isKstack (s.cpu c).stack) :
    ∃ p, (s.cpu c).stack = .kstack p ∧ (s.cpu c).proc = some p := by
  cases hst : (s.cpu c).stack with
  | kstack p => exact ⟨p,rfl,hs.kproc p hst⟩
  | sched => rw [hst] at h; exact h.elim

theorem dequeue_cases {r : cfg.CpuId} {thief : Option cfg.CpuId} (h : dequeue s c r thief k = some s') :
    (∃ p, (s.runqueue r).queue.head? = some p ∧ s' = goto s c (.acquire .ptable::.unlink r p thief::k)) ∨
    s' = panic s c "dequeue : empty runqueue" := by
  unfold dequeue at h
  split_ifs at h
  · cases h
    exact .inr rfl
  · split at h
    · cases h
    · rename_i p q hq
      cases h
      exact .inl ⟨p,by rw [hq]; rfl,rfl⟩

theorem exec_typed (hh : Held s c H) (hc : code s c = pc::k)
    (hw : Wf mq (s.cpu c).stack H (unspin (pc::k))) (hs : Side s c) (hns : switches pc = false)
    (h : exec mq s c cl k pc = some s') : Typed mq s' c := by
  have hcases : (∃ l, pc = .spin l) ∨ unspin (pc::k) = pc::k := by
    cases pc
    case spin l => exact .inl ⟨l,rfl⟩
    all_goals exact .inr rfl
  rcases hcases with ⟨l,rfl⟩ | hun
  · exact hh.spin hc hw h
  rw [hun] at hw
  clear hun
  have hsp : spinning (code s c) = 0 := by rw [hc]; exact hw.spinning.1
  have hwc : Wf mq (s.cpu c).stack H (code s c) := by rw [hc]; exact hw
  cases pc
  case acquire l => exact hh.acquire hc hw h
  case release l => exact hh.release hc hw h
  all_goals simp only [exec] at h
  case trap irq usr =>
    obtain ⟨rfl,ht,hk⟩ := hw
    cases irq with
    | timer =>
      simp only at h
      split_ifs at h
      · cases h
        exact hh.jump hsp
          ⟨Enter.over [.tick,.trapKilled true usr] rfl (by simp) (by simp) hk (by simp) (by simp) (by simp [tickslock]),
            rfl,rfl,ht,hk⟩
      · cases h
        exact hh.jump hsp ⟨rfl,ht,hk⟩
    | dev l =>
      cases h
      exact hh.jump hsp ⟨Enter.over [.locked l true,.trapKilled false usr] rfl (by simp) (by simp) hk
          (by simp) (by simp) (by simp),rfl,by simp,rfl,ht,hk⟩
  case tick =>
    obtain ⟨rfl,hk⟩ := hw
    cases h
    exact hh.jump hsp ⟨by simp [tickslock],by simp [tickslock],by simp,by simpa using hk⟩
  case trapKilled timer usr =>
    obtain ⟨rfl,ht,hk⟩ := hw
    split_ifs at h with hu
    · cases h
      simp only [Bool.and_eq_true] at hu
      exact hh.jump hsp ⟨rfl,Wf.isKstack_of_user ht hu.2 hk,rfl⟩
    · cases h
      exact hh.jump hsp ⟨rfl,ht,hk⟩
  case trapYield timer usr =>
    obtain ⟨rfl,ht,hk⟩ := hw
    have hlast : Wf mq (s.cpu c).stack [] (.trapLast usr::k) := ⟨rfl,ht,hk⟩
    split at h
    · cases h
      exact hh.jump hsp hlast
    · split_ifs at h with hr
      · cases h
        obtain ⟨hrun,rfl⟩ := hr
        obtain ⟨hst,hm⟩ := hs.timer usr k _ hc (by assumption) hrun
        exact hh.jump hsp ⟨rfl,hst,(hk.calm (by simp) (by simp) hm).append [.trapLast usr] rfl,hlast⟩
      · cases h
        exact hh.jump hsp hlast
  case trapLast usr =>
    obtain ⟨rfl,ht,hk⟩ := hw
    split_ifs at h with hu
    · cases h
      simp only [Bool.and_eq_true] at hu
      exact hh.jump hsp ⟨rfl,Wf.isKstack_of_user ht hu.2 hk,rfl⟩
    · cases h
      exact hh.jump hsp hk
  case iret =>
    obtain ⟨rfl,hk⟩ := hw
    cases h
    exact hh.flag rfl (by simp [setCpu]) (by simp [setCpu]) hsp hk
  case sysret =>
    obtain ⟨rfl,hst,rfl⟩ := hw
    split_ifs at h
    · cases h
      exact hh.jump hsp ⟨rfl,hst,rfl⟩
    · cases h
      exact hh.jump hsp ⟨rfl,hst,rfl⟩
  case execName n =>
    obtain ⟨rfl,hst,rfl⟩ := hw
    obtain ⟨p,-,hp⟩ := hs.owner hst
    simp only [withProc,hp] at h
    cases h
    exact hh.jump hsp ⟨rfl,hst,rfl⟩
  case allocproc cur i =>
    obtain ⟨rfl,hst,rfl⟩ := hw
    have hk : isKstack (s.cpu c).stack := by rw [hst]; trivial
    split at h
    · cases h
      exact hh.jump hsp ⟨by simp,by simp,hk,rfl⟩
    · split_ifs at h
      · cases h
        exact hh.jump hsp ⟨by simp,by simp,hst,rfl⟩
      · cases h
        exact hh.jump hsp ⟨rfl,hst,rfl⟩
  case forkRun np =>
    obtain ⟨rfl,hst,rfl⟩ := hw
    split_ifs at h with hmq
    · cases h
      exact hh.jump hsp ⟨hmq,rfl,hst,rfl⟩
    · cases h
      exact hh.jump hsp ⟨by simp,by simp,hst,rfl⟩
  case forkSeek np i min target =>
    obtain ⟨hmq,rfl,hst,rfl⟩ := hw
    split at h
    · split_ifs at h
      · cases h
        exact hh.jump hsp ⟨hmq,rfl,hst,rfl⟩
      · cases h
        exact hh.jump hsp ⟨hmq,rfl,hst,rfl⟩
    · split at h
      · cases h
        exact hh.panic hsp (by simp [schedPanics]) hwc
      · cases h
        exact hh.jump hsp
          ⟨Enter.queue (by simp) (by simp) hmq fun _ => rfl,hmq,by simp,by simp,by simp,by simp,
            by simp,hst,rfl⟩
  case enqueue r p =>
    obtain ⟨-,-,-,hk⟩ := hw
    split_ifs at h
    · cases h
      exact hh.panic hsp (by simp [schedPanics]) hwc
    · cases h
      exact hh.jump hsp hk
  case forkret =>
    obtain ⟨rfl,hst,rfl⟩ := hw
    split_ifs at h with hmq
    · cases h
      subst hmq
      exact hh.jump hsp ⟨rfl,hst,.bare [.user] rfl fun _ => rfl,rfl,hst,rfl⟩
    · cases h
      simp only [Bool.not_eq_true] at hmq
      subst hmq
      exact hh.jump hsp ⟨by simp,by simp,hst,.bare [.user] rfl fun _ => rfl,rfl,hst,rfl⟩
  case yield =>
    obtain ⟨rfl,hst,hca,hk⟩ := hw
    obtain ⟨p,hp,hp'⟩ := hs.owner hst
    simp only [withProc,hp'] at h
    cases h
    exact hh.jump hsp
      ⟨Enter.over [.yieldLocked p] rfl (by simp) (by simp) hk (by simp) (by simp) (by simp),rfl,hp,hca,hk⟩
  case yieldLocked p =>
    obtain ⟨rfl,hst,hca,hk⟩ := hw
    split_ifs at h with hmq
    · cases h
      exact hh.jump hsp ⟨Enter.queue (by simp) (by simp) hmq fun r => by
            simpa [heldTok] using hk.held (r := r) (by simp),
          hmq,by simp,by simp,by simp,by simp,hst,hca,hk⟩
    · cases h
      exact hh.jump hsp ⟨rfl,hst,hca,hk⟩
  case yieldRunnable p =>
    obtain ⟨rfl,hst,hca,hk⟩ := hw
    cases h
    exact hh.jump hsp
      ⟨rfl,by rw [hst]; trivial,hca.append [.release .ptable] rfl,by simp,by simpa using hk⟩
  case sched =>
    obtain ⟨rfl,hst,hca,hk⟩ := hw
    obtain ⟨p,hp,hp'⟩ := hs.owner hst
    have hn : (s.cpu c).ncli = 1 := by rw [hh.ncli,hsp]; rfl
    have hl : s.lock .ptable = some c := (hh.locks _).mpr (by simp)
    have hfl : (s.cpu c).fl = false := hh.off (by omega)
    simp only [KernelStep.sched,hl,hn,withProc,hp',if_neg (hs.gone k p hc hp'),hfl,ne_eq,
      not_true_eq_false,if_false,Bool.false_eq_true] at h
    split_ifs at h with hmq
    · cases h
      exact hh.jump hsp ⟨by simp,by simp [hmq],hp,hca,hk⟩
    · cases h
      exact hh.jump hsp ⟨by simp [hmq],hp,hca,hk⟩
  case swtch => simp [switches] at hns
  case schedIntena cur b =>
    obtain ⟨rfl,hst,hk⟩ := hw
    cases h
    exact hh.jump hsp hk (.intena s c _ b)
  case sleep ch l =>
    obtain ⟨rfl,hsl,hst,hca,hk⟩ := hw
    obtain ⟨p,hp,hp'⟩ := hs.owner hst
    simp only [hp'] at h
    split_ifs at h with hl
    · cases h
      subst hl
      exact hh.jump hsp ⟨rfl,hsl,hp,hca,hk⟩
    · cases h
      have hpt : Lock.ptable ∉ [l] := by simpa using Ne.symm hl
      have hrq : ∀ r, Lock.rq r ∉ [l] := by
        rintro r hr
        rw [List.mem_singleton] at hr
        subst hr
        exact hsl
      exact hh.jump hsp
        ⟨Enter.over [.release l,.sleepLocked p ch l] rfl hpt hrq hk hpt hrq (by simp),by simp,
          by simp [Ne.symm hl],hsl,hp,hca,hk⟩
  case sleepLocked p ch l =>
    obtain ⟨rfl,hsl,hst,hca,hk⟩ := hw
    cases h
    exact hh.jump hsp
      ⟨rfl,by rw [hst]; trivial,hca.toCalm.append [.sleepAwake p l] rfl,rfl,hsl,hst,hca,hk⟩
  case sleepAwake p l =>
    obtain ⟨rfl,hsl,hst,hca,hk⟩ := hw
    split_ifs at h with hl
    · cases h
      subst hl
      exact hh.jump hsp hk
    · cases h
      have hpt : Lock.ptable ∉ [l] := by simpa using Ne.symm hl
      have hrq : ∀ r, Lock.rq r ∉ [l] := by
        rintro r hr
        rw [List.mem_singleton] at hr
        subst hr
        exact hsl
      exact hh.jump hsp ⟨by simp,Enter.over [] rfl (by simp) (by simp) hk hpt hrq
          fun r hr => hrq r (by simp [hr]),by simpa using hk⟩
  case wakeup ch =>
    obtain ⟨hpt,hrq,hk⟩ := hw
    rw [if_neg fun hl => hpt ((hh.locks _).mp hl)] at h
    cases h
    exact hh.jump hsp ⟨Enter.over [.wakeup1 0 (some ch),.release .ptable] rfl hpt hrq hk hpt hrq (by simp),
        by simp,by simpa using hrq,by simpa [setTok] using (hk.quiet hpt).2,by simp,
        by simpa using hk⟩
  case wakeup1 i ch =>
    obtain ⟨hpt,hrq,hset,hk⟩ := hw
    split at h
    · cases h
      exact hh.jump hsp hk
    · unfold wakeupSlot at h
      split_ifs at h with hj hmq
      · cases h
        exact hh.jump hsp ⟨Enter.queue hpt hrq hmq fun r => by simpa [heldTok] using hk.held (hrq r),
            hmq,by simp [hpt],by simp,by simp,
            by simp [hpt],by simpa using hrq,hset,by simpa using hk⟩
      · cases h
        exact hh.jump hsp ⟨hpt,hrq,hset,hk⟩
      · cases h
        exact hh.jump hsp ⟨hpt,hrq,hset,hk⟩
  case wakeupSet j ch =>
    cases h
    exact hh.jump hsp hw
  case killScan pid i =>
    obtain ⟨rfl,hst,rfl⟩ := hw
    split at h
    · cases h
      exact hh.jump hsp ⟨by simp,by simp,hst,rfl⟩
    · split_ifs at h
      · cases h
        exact hh.jump hsp ⟨by simp,by simp,hst,rfl⟩
      · cases h
        exact hh.jump hsp ⟨rfl,hst,rfl⟩
  case exit =>
    obtain ⟨rfl,hst,rfl⟩ := hw
    obtain ⟨p,hp,hp'⟩ := hs.owner hst
    simp only [withProc,hp'] at h
    split_ifs at h
    · cases h
      exact hh.panic hsp (by simp [schedPanics]) hwc
    · cases h
      exact hh.jump hsp ⟨rfl,hst,.bare [.exitClosed p] rfl fun _ => rfl,rfl,hp,rfl⟩
  case exitClosed p =>
    obtain ⟨rfl,hst,rfl⟩ := hw
    cases h
    exact hh.jump hsp ⟨.bare [.exitLocked p] rfl (by simp) (by simp) fun _ => rfl,rfl,hst,rfl⟩
  case exitLocked p =>
    obtain ⟨rfl,hst,rfl⟩ := hw
    cases h
    exact hh.jump hsp ⟨by simp,by simp,fun _ => rfl,rfl,hst,rfl⟩
  case exitReparent p i =>
    obtain ⟨rfl,hst,rfl⟩ := hw
    split at h
    · split_ifs at h
      · cases h
        exact hh.jump hsp ⟨by simp,by simp,fun _ => rfl,rfl,hst,rfl⟩
      · cases h
        exact hh.jump hsp ⟨rfl,hst,rfl⟩
      · cases h
        exact hh.jump hsp ⟨rfl,hst,rfl⟩
    · cases h
      have hk : isKstack (s.cpu c).stack := by rw [hst]; trivial
      exact hh.jump hsp ⟨rfl,hk,.bare [.zombieExit] rfl,rfl,hk,rfl⟩
  case zombieExit =>
    cases h
    exact hh.panic hsp (by simp [schedPanics]) hwc
  case wait =>
    obtain ⟨rfl,hst,rfl⟩ := hw
    obtain ⟨p,hp,hp'⟩ := hs.owner hst
    simp only [withProc,hp'] at h
    cases h
    exact hh.jump hsp
      ⟨.bare [.waitScan p 0 false,.sysret,.user] rfl (by simp) (by simp) fun _ => rfl,rfl,hp,rfl⟩
  case waitScan p i kids =>
    obtain ⟨rfl,hst,rfl⟩ := hw
    have hk : isKstack (s.cpu c).stack := by rw [hst]; trivial
    split at h
    · unfold waitSlot at h
      split_ifs at h
      · cases h
        exact hh.jump hsp ⟨rfl,hst,rfl⟩
      · cases h
        exact hh.jump hsp ⟨by simp,by simp,hk,rfl⟩
      · cases h
        exact hh.jump hsp ⟨rfl,hst,rfl⟩
    · split_ifs at h
      · cases h
        exact hh.jump hsp ⟨by simp,by simp,hk,rfl⟩
      · cases h
        exact hh.jump hsp
          ⟨rfl,trivial,hk,.bare [.waitScan p 0 false,.sysret,.user] rfl fun _ => rfl,rfl,hst,rfl⟩
  case waitfork =>
    obtain ⟨rfl,hst,rfl⟩ := hw
    obtain ⟨p,hp,hp'⟩ := hs.owner hst
    simp only [withProc,hp'] at h
    split_ifs at h
    · cases h
      exact hh.jump hsp ⟨rfl,hst,rfl⟩
    · cases h
      exact hh.jump hsp ⟨rfl,hst,rfl⟩
  case waitforkLoop =>
    obtain ⟨rfl,hst,rfl⟩ := hw
    split_ifs at h
    · cases h
      exact hh.jump hsp ⟨rfl,hst,rfl⟩
    · cases h
      exact hh.jump hsp ⟨rfl,hst,.bare [.waitforkLoop,.sysret,.user] rfl,rfl,hst,rfl⟩
  case mqLoop r =>
    obtain ⟨hmq,rfl,hst,rfl⟩ := hw
    cases h
    exact hh.flag rfl (by simp [setCpu]) (by simp [setCpu]) hsp
      ⟨.bare [.mqCheck r] rfl (by simp) (by simp) fun _ => rfl,hmq,rfl,hst,rfl⟩
  case mqCheck r =>
    obtain ⟨hmq,rfl,hst,rfl⟩ := hw
    split_ifs at h
    · cases h
      exact hh.jump hsp ⟨hmq,rfl,hst,rfl,by simp⟩
    · obtain ⟨p,-,rfl⟩ | rfl := dequeue_cases h
      · exact hh.jump hsp ⟨.dequeue rfl (by simp) hmq,hmq,rfl,hst,rfl⟩
      · exact hh.panic hsp (by simp [schedPanics]) hwc
  case stealScan r i max target =>
    obtain ⟨hmq,rfl,hst,rfl,ht⟩ := hw
    split at h
    · split_ifs at h with hmax
      · cases h
        exact hh.jump hsp ⟨hmq,rfl,hst,rfl,by simpa using hmax.2⟩
      · cases h
        exact hh.jump hsp ⟨hmq,rfl,hst,rfl,ht⟩
    · split at h
      · cases h
        exact hh.jump hsp ⟨by simp,hmq,by simp,hst,rfl⟩
      · rename_i t
        split_ifs at h with hbsp htr
        · cases h
          exact hh.jump hsp ⟨by simp,hmq,by simp,hst,rfl⟩
        · exact absurd (congrArg some htr) ht
        · cases h
          exact hh.jump hsp ⟨⟨by simpa using htr,by simp,fun h => h.elim fun j hj => absurd rfl hj,by simp [hmq],by simp,
              fun t' ht' => .inr ⟨r,rfl,by cases ht'; rfl⟩,
              fun t' ht' => by cases ht'; simp [heldTok,htr]⟩,hmq,rfl,hst,htr,rfl⟩
  case stealCheck r t =>
    obtain ⟨hmq,rfl,hst,htr,rfl⟩ := hw
    split_ifs at h
    · obtain ⟨p,-,rfl⟩ | rfl := dequeue_cases h
      · exact hh.jump hsp ⟨.dequeue rfl (by simp) hmq,hmq,rfl,hst,htr,rfl⟩
      · exact hh.panic hsp (by simp [schedPanics]) hwc
    · cases h
      exact hh.jump hsp ⟨by simp,by simp,hmq,by simp,hst,rfl⟩
  case unlink r p thief =>
    cases thief with
    | none =>
      obtain ⟨hmq,rfl,hst,rfl⟩ := hw
      cases h
      exact hh.jump hsp ⟨by simp,hmq,by simp,by simp,⟨r,hst⟩,by simp,hmq,by simp,hst,rfl⟩
    | some t =>
      obtain ⟨hmq,rfl,hst,htr,rfl⟩ := hw
      cases h
      exact hh.jump hsp ⟨by simp,hmq,by simp,by simp,⟨t,hst⟩,
          ⟨by simp,fun _ _ => rfl,fun _ => .inr ⟨r,by simp⟩,by simp [hmq],by simp [modeOf],by simp,by simp⟩,
          hmq,by simp,by simp,by simp,by simp,by simp,hmq,by simp,hst,rfl⟩
  case sizeDec r =>
    obtain ⟨-,-,-,-,hk⟩ := hw
    cases h
    exact hh.jump hsp hk
  case mqTake r p =>
    cases h
    exact hh.jump hsp hw ⟨rfl,by simp [takeProc,setCpu],by simp [takeProc,setCpu],
      by simp [takeProc,setCpu]⟩
  case mqMark r p =>
    cases h
    exact hh.jump hsp hw ⟨by simp,by simp,by simp,by simp⟩
  case mqSwtch => simp [switches] at hns
  case mqBack r p =>
    cases h
    exact hh.jump hsp hw ⟨rfl,by simp [setCpu],by simp [setCpu],by simp [setCpu]⟩
  case mqIdle r p =>
    cases h
    exact hh.jump hsp hw ⟨rfl,by simp [setCpu],by simp [setCpu],by simp [setCpu]⟩
  case rrLoop =>
    obtain ⟨hmq,rfl,hst,rfl⟩ := hw
    cases h
    exact hh.flag rfl (by simp [setCpu]) (by simp [setCpu]) hsp
      ⟨.bare [.rrScan 0] rfl (by simp) (by simp) fun _ => rfl,hmq,rfl,hst,rfl⟩
  case rrScan i =>
    split at h
    · obtain ⟨hmq,rfl,hst,rfl⟩ := hw
      cases h
      exact hh.jump hsp ⟨by simp,hmq,by simp,hst,rfl⟩
    · split_ifs at h
      · cases h
        exact hh.jump hsp hw ⟨by simp [takeProc,setCpu],by simp [takeProc,setCpu],
          by simp [takeProc,setCpu],by simp [takeProc,setCpu]⟩
      · cases h
        exact hh.jump hsp hw
  case rrSwtch => simp [switches] at hns
  case rrBack p =>
    cases h
    exact hh.jump hsp hw ⟨rfl,by simp [setCpu],by simp [setCpu],by simp [setCpu]⟩
  case spin => exact hw.elim
  case panic | user | kernel | locked | allocStack | forkCopy => cases h

theorem userOp_typed {p : cfg.Slot} {op : Op} (hh : Held s c []) (hc : spinning (code s c) = 0)
    (hst : isKstack (s.cpu c).stack) (hp : (s.cpu c).stack = .kstack p) :
    Typed mq (userOp s c [] p op) c := by
  unfold userOp
  split
  · exact hh.flag rfl (by simp [setCpu,setProc]) (by simp [setCpu,setProc]) hc
      ⟨rfl,⟨rfl,fun _ => rfl⟩,rfl,rfl,hst,rfl⟩
  · split_ifs
    · exact hh.jump hc ⟨rfl,hst,rfl⟩
    · split
      · exact hh.jump hc
          ⟨.bare [.allocproc p 0,.sysret,.user] rfl (by simp) (by simp) fun _ => rfl,rfl,hp,rfl⟩
      · exact hh.jump hc ⟨rfl,hst,rfl⟩
      · exact hh.jump hc ⟨rfl,hst,rfl⟩
      · exact hh.jump hc ⟨rfl,hst,.bare [.sysret,.user] rfl,rfl,hst,rfl⟩
      · exact hh.jump hc ⟨rfl,hst,rfl⟩
      · rename_i pid _
        exact hh.jump hc
          ⟨.bare [.killScan pid 0,.sysret,.user] rfl (by simp) (by simp) fun _ => rfl,rfl,hst,rfl⟩
      · rename_i n _
        exact hh.jump hc ⟨rfl,hst,.bare [.execName n,.sysret,.user] rfl fun _ => rfl,rfl,hst,rfl⟩
      · exact hh.jump hc ⟨rfl,hst,.bare [.sysret,.user] rfl fun _ => rfl,rfl,hst,rfl⟩
      · exact hh.jump hc ⟨rfl,hst,.bare [.sysret,.user] rfl fun _ => rfl,rfl,hst,rfl⟩

theorem choose_typed {a : Act cfg} (hh : Held s c H) (hc : code s c = pc::k)
    (hw : Wf mq (s.cpu c).stack H (unspin (pc::k))) (hs : Side s c)
    (h : choose s c cl k pc a = some s') : Typed mq s' c := by
  have hsp : spinning (code s c) = 0 := by
    rw [hc]
    cases pc
    case spin => simp [choose] at h
    all_goals rfl
  unfold choose at h
  split at h
  · obtain ⟨rfl,hst,rfl⟩ := hw
    obtain ⟨p,hp,hp'⟩ := hs.owner hst
    simp only [withProc,hp'] at h
    cases h
    exact userOp_typed hh hsp hst hp
  · rename_i l
    obtain ⟨rfl,hst,hca,hk⟩ := hw
    cases h
    exact hh.jump hsp
      ⟨Enter.over [.locked l false,.kernel] rfl (by simp) (by simp) hk (by simp) (by simp) nofun,rfl,
        fun _ => ⟨hst,hca.cons rfl fun _ => rfl⟩,rfl,hst,hca,hk⟩
  · obtain ⟨rfl,hst,hca,hk⟩ := hw
    cases h
    exact hh.jump hsp ⟨by simp,by simp,rfl,hst,hca,hk⟩
  · obtain ⟨rfl,hst,hca,hk⟩ := hw
    cases h
    exact hh.jump hsp hk
  · obtain ⟨rfl,hst,hk⟩ := hw
    cases h
    exact hh.jump hsp ⟨by simp,by simp,rfl,hst,hk⟩
  · obtain ⟨rfl,hst,hk⟩ := hw
    cases h
    exact hh.jump hsp ⟨rfl,trivial,(hst rfl).1,(hst rfl).2.cons rfl fun _ => rfl,rfl,hst,hk⟩
  · obtain ⟨rfl,hst,hk⟩ := hw
    cases h
    exact hh.jump hsp ⟨by simp,by simpa using hk⟩
  · obtain ⟨rfl,hst,rfl⟩ := hw
    cases h
    exact hh.jump hsp ⟨rfl,by rw [hst]; trivial,rfl⟩
  · obtain ⟨rfl,hst,rfl⟩ := hw
    cases h
    exact hh.jump hsp ⟨rfl,hst,rfl⟩
  · obtain ⟨rfl,hst,rfl⟩ := hw
    cases h
    exact hh.jump hsp ⟨rfl,by rw [hst]; trivial,rfl⟩
  · rename_i np
    obtain ⟨rfl,hst,rfl⟩ := hw
    cases h
    exact hh.jump hsp
      ⟨.bare [.forkRun np,.sysret,.user] rfl (by simp) (by simp) fun _ => rfl,rfl,by rw [hst]; trivial,rfl⟩
  · cases h

theorem interrupt_typed {irq : Irq} (ht : Typed mq s c) (h : interrupt s c irq = some s') :
    Typed mq s' c := by
  obtain ⟨H,hh,hw⟩ := ht
  unfold interrupt at h
  split_ifs at h with hfl
  cases h
  have h0 : (s.cpu c).ncli = 0 := by
    by_contra hne
    simp [hh.off hne] at hfl
  have hn := hh.ncli
  rw [h0] at hn
  have hsp : spinning (code s c) = 0 := by omega
  have hH : H = [] := List.length_eq_zero_iff.mp (by omega)
  subst hH
  have hun : unspin (code s c) = code s c := by
    revert hsp
    generalize code s c = k
    intro hsp
    cases k with
    | nil => rfl
    | cons pc => cases pc <;> first | rfl | simp [spinning] at hsp
  rw [hun] at hw
  refine hh.flag rfl (by simp [setCpu]) (by simp [setCpu]) hsp ⟨rfl,⟨rfl,?_⟩,rfl,hw⟩
  intro husr
  split at husr
  · rename_i k hk
    rw [hk] at hw ⊢
    rw [hw.2.2]
  · simp at husr

theorem step_typed {a : Act cfg} (ht : Typed mq s c) (hs : Side s c)
    (hns : ∀ pc k, code s c = pc::k → switches pc = false ∨ a ≠ .go)
    (h : step mq s c cl a = some s') : Typed mq s' c := by
  have ht' := ht
  obtain ⟨H,hh,hw⟩ := ht'
  unfold step at h
  split at h
  · cases h
  · rename_i pc k hc
    rw [hc] at hw
    split at h
    · exact exec_typed hh hc hw hs ((hns pc k hc).resolve_right (by simp)) h
    · exact interrupt_typed ht h
    · exact choose_typed hh hc hw hs h

end
end Xv6.Typing
