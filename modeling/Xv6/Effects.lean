import Xv6.Typing

/-!
# What one step can do

`step_effect` is the inversion of `step`. Most steps are `Quiet`: they change the program points on
one stack and perhaps a lock, an interrupt flag or a field no invariant reads. The rest are listed
one by one, each with its program point, the guard that selects it and the state it leads to. The
invariants of the two kernels are proved over this list and never unfold `step` again.
-/
namespace Xv6.Effects
open SchedLog KernelState KernelStep Tally Frames Typing

section
variable {cfg : Config}

/-- Two stacks with the same mode and the same obligations. -/
structure SameDebt (k k' : List (Pc cfg)) : Prop where
  mode : mode k' = mode k
  debt : ∀ d : Debt cfg, weight d.tok k' = weight d.tok k

def idle : Pc cfg → Bool
  | .mqTake _ _ | .allocStack _ _ | .forkCopy _ _ | .forkRun _ | .sizeDec _ | .yieldLocked _
  | .unlink _ _ _ | .stealScan _ _ _ _ | .stealCheck _ _ => false
  | pc => !owes pc

theorem SameDebt.refl (k : List (Pc cfg)) : SameDebt k k := ⟨rfl,fun _ => rfl⟩

theorem SameDebt.symm {k k' : List (Pc cfg)} (h : SameDebt k k') : SameDebt k' k :=
  ⟨h.mode.symm,fun d => (h.debt d).symm⟩

theorem SameDebt.trans {k k' k'' : List (Pc cfg)} (h : SameDebt k k') (h' : SameDebt k' k'') :
    SameDebt k k'' :=
  ⟨h'.mode.trans h.mode,fun d => (h'.debt d).trans (h.debt d)⟩

theorem idle_tok {pc : Pc cfg} (h : idle pc = true) (d : Debt cfg) : d.tok pc = 0 := by
  cases pc <;> first
    | (exfalso; simp [idle,owes] at h; done)
    | (cases d <;> rfl)

theorem SameDebt.cons {pc : Pc cfg} (h : idle pc = true) (k : List (Pc cfg)) : SameDebt k (pc::k) := by
  refine ⟨?_,fun d => by rw [weight_cons,idle_tok h,Nat.zero_add]⟩
  cases pc <;> first | rfl | simp [idle,owes] at h

theorem SameDebt.append {xs : List (Pc cfg)} (h : xs.all idle = true) (k : List (Pc cfg)) :
    SameDebt k (xs++k) := by
  induction xs with
  | nil => exact .refl k
  | cons x xs ih =>
    simp only [List.all_cons,Bool.and_eq_true] at h
    exact (ih h.2).trans (.cons h.1 _)

theorem SameDebt.swap (ys xs : List (Pc cfg)) (hy : ys.all idle = true) (hx : xs.all idle = true)
    (k : List (Pc cfg)) : SameDebt (ys++k) (xs++k) :=
  (SameDebt.append hy k).symm.trans (.append hx k)

/-- Equal in the fields that the invariants read. -/
structure SameProc (p q : Proc cfg) : Prop where
  state : q.state = p.state
  pid : q.pid = p.pid
  name : q.name = p.name
  context : q.context = p.context
  scheds : q.scheds = p.scheds

structure SameView (d e : Cpu cfg) : Prop where
  stack : e.stack = d.stack
  proc : e.proc = d.proc
  scheduler : e.scheduler = d.scheduler
  pgdir : e.pgdir = d.pgdir

/-- A step of `c` takes no lock from another CPU and leaves its `ncli` alone. -/
structure Apart (s s' : State cfg) (c : cfg.CpuId) : Prop where
  lock : ∀ l d, d ≠ c → (s'.lock l = some d ↔ s.lock l = some d)
  ncli : ∀ d, d ≠ c → (s'.cpu d).ncli = (s.cpu d).ncli
  fl : ∀ d, d ≠ c → (s'.cpu d).fl = (s.cpu d).fl

structure Quiet (s s' : State cfg) (c : cfg.CpuId) : Prop where
  apart : Apart s s' c
  proc : ∀ p, SameProc (s.proc p) (s'.proc p)
  cpu : ∀ d, SameView (s.cpu d) (s'.cpu d)
  runqueue : s'.runqueue = s.runqueue
  nextpid : s'.nextpid = s.nextpid
  log : s'.log = s.log
  frames : ∃ k, s'.frames = Function.update s.frames (s.cpu c).stack k ∧ SameDebt (code s c) k

section
variable (mq : Bool) (s : State cfg) (c : cfg.CpuId) (cl : Clock)

/-- Everything one step of CPU `c` can do. The index is the process, if any, whose
kernel stack is set up by the step. -/
inductive Effect : Option cfg.Slot → State cfg → Prop
  | quiet {s' : State cfg} (h : Quiet s s' c) : Effect none s'
  | execName (n k p) (hc : code s c = .execName n::k) (hp : (s.cpu c).proc = some p) :
      Effect none (goto (setProc s p fun q => {q with name := n}) c k)
  | alloc (cur i k p) (hc : code s c = .allocproc cur i::k) (hi : slot? cfg i = some p)
      (hp : (s.proc p).state = .unused) :
      Effect none (goto (allocSlot s c cl p) c (.release .ptable::.allocStack cur p::k))
  | allocFail (pc cur np k) (hc : code s c = pc::k)
      (hpc : pc = .allocStack cur np ∨ pc = .forkCopy cur np) :
      Effect none (goto (setState s np .unused) c k)
  | allocOk (cur np k) (hc : code s c = .allocStack cur np::k) :
      Effect (some np) (goto (buildStack s np) c (.forkCopy cur np::k))
  | forkCopy (cur np k) (hc : code s c = .forkCopy cur np::k) :
      Effect none (goto (copyProc s cl cur np) c (.acquire .ptable::.forkRun np::k))
  | forkRun (np k) (hc : code s c = .forkRun np::k) :
      Effect none (goto (setState (logProc s c cl np .fork .runnable) np .runnable) c
        ((if mq then .forkSeek np 0 cfg.nproc none else .release .ptable)::k))
  | enqueue (r p k) (hc : code s c = .enqueue r p::k)
      (hq : ∀ q ∈ (s.runqueue r).queue, (s.proc q).pid ≠ (s.proc p).pid) :
      Effect none (goto (setRunqueue s r fun rq => ⟨rq.size+1,rq.queue++[p]⟩) c k)
  | yield (p k) (hc : code s c = .yield::k) (hp : (s.cpu c).proc = some p) :
      Effect none (goto (logProc s c cl p .yield .runnable) c (.acquire .ptable::.yieldLocked p::k))
  | yieldLocked (p k) (hc : code s c = .yieldLocked p::k) : Effect none (goto s c (if mq then
          .acquire (.rq c)::.enqueue c p::.release (.rq c)::.yieldRunnable p::k
        else .yieldRunnable p::k))
  | yieldRunnable (p k) (hc : code s c = .yieldRunnable p::k) :
      Effect none (giveUp s c p .runnable (.release .ptable::k))
  | sched (p k b) (hc : code s c = .sched::k) (hp : (s.cpu c).proc = some p) :
      Effect none (goto (setProc s p fun q => {q with scheds := q.scheds+1}) c
        (if mq then .release .ptable::.swtch p c b::k else .swtch p c b::k))
  | swtch (p cur b k) (hc : code s c = .swtch p cur b::k) :
      Effect none (switchFrom s c p (s.cpu (if mq then cur else c)).scheduler
        (if mq then .acquire .ptable::.schedIntena cur b::k else .schedIntena cur b::k))
  | sleepLocked (p ch l k) (hc : code s c = .sleepLocked p ch l::k) : Effect none (giveUp
        (logProc (setProc s p fun q => {q with chan := some ch}) c cl p .sleep .sleeping)
        c p .sleeping (.sleepAwake p l::k))
  | wakeHit (i ch j k) (hc : code s c = .wakeup1 i ch::k) (hi : slot? cfg i = some j)
      (hj : (s.proc j).state = .sleeping) :
      Effect none (goto (logProc s c cl j .wakeup .runnable) c
        (if mq then .acquire (.rq c)::.enqueue c j::.release (.rq c)::.wakeupSet j ch::k
        else .wakeupSet j ch::k))
  | wakeupSet (j ch k) (hc : code s c = .wakeupSet j ch::k) :
      Effect none (goto (setState s j .runnable) c (.wakeup1 (j+1) ch::k))
  | killHit (pid i p k) (hc : code s c = .killScan pid i::k) (hi : slot? cfg i = some p)
      (hp : (s.proc p).pid = pid) (hst : (s.proc p).state = .sleeping) :
      Effect none (goto (setProc s p fun q => {q with killed := true, state := .runnable}) c
        (.release .ptable::k))
  | exitEnd (p i k) (hc : code s c = .exitReparent p i::k) :
      Effect none (giveUp (logProc (logClock s cl p 2) c cl p .exit .zombie) c p .zombie
        (.zombieExit::k))
  | reap (p i kids q k) (hc : code s c = .waitScan p i kids::k) (hi : slot? cfg i = some q)
      (hq : (s.proc q).parent = some p) (hst : (s.proc q).state = .zombie) :
      Effect none (goto (freeSlot s c cl q) c (.release .ptable::k))
  | finished (k) (hc : code s c = .waitfork::k) :
      Effect none (goto {s with log := {s.log with finishedFork := true}} c (.waitforkLoop::k))
  | dequeue (pc r p thief k) (hc : code s c = pc::k)
      (hpc : pc = .mqCheck r ∧ thief = none ∨ ∃ t, pc = .stealCheck t r ∧ thief = some t)
      (hq : (s.runqueue r).queue.head? = some p) :
      Effect none (goto s c (.acquire .ptable::.unlink r p thief::k))
  | stealStart (r k) (hc : code s c = .mqCheck r::k) (hz : (s.runqueue r).size = 0) :
      Effect none (goto s c (.stealScan r 0 0 none::k))
  | stealAim (r i m target t k) (hc : code s c = .stealScan r i m target::k)
      (ht : 0 < (s.runqueue t).size) :
      Effect none (goto s c (.stealScan r (i+1) (s.runqueue t).size (some t)::k))
  | stealStop (r i m target k) (hc : code s c = .stealScan r i m target::k) :
      Effect none (goto s c (.release (.rq r)::.mqLoop r::k))
  | stealMiss (r t k) (hc : code s c = .stealCheck r t::k) : Effect none (goto s c k)
  | unlink (r p thief k) (hc : code s c = .unlink r p thief::k) :
      Effect none (goto (setRunqueue s r fun rq => {rq with queue := rq.queue.tail}) c
        (unlinked r p thief k))
  | sizeDec (r k) (hc : code s c = .sizeDec r::k) :
      Effect none (goto (setRunqueue s r fun rq => {rq with size := rq.size-1}) c k)
  | mqTake (r p k) (hc : code s c = .mqTake r p::k) :
      Effect none (goto (takeProc s c p) c (.mqMark r p::k))
  | mqMark (r p k) (hc : code s c = .mqMark r p::k) :
      Effect none (goto (markRunning s c cl p) c (.mqSwtch r p::k))
  | mqSwtch (r p k) (hc : code s c = .mqSwtch r p::k) : Effect none (switchTo s c p (.mqBack r p::k))
  | mqBack (r p k) (hc : code s c = .mqBack r p::k) :
      Effect none (goto (setCpu s c fun d => {d with pgdir := none}) c (.mqIdle r p::k))
  | mqIdle (r p k) (hc : code s c = .mqIdle r p::k) :
      Effect none (goto (setCpu s c fun d => {d with proc := none}) c (.mqLoop r::k))
  | rrTake (i p k) (hc : code s c = .rrScan i::k) (hi : slot? cfg i = some p)
      (hp : (s.proc p).state = .runnable) :
      Effect none (goto (markRunning (takeProc s c p) c cl p) c (.rrSwtch p::k))
  | rrSwtch (p k) (hc : code s c = .rrSwtch p::k) : Effect none (switchTo s c p (.rrBack p::k))
  | rrBack (p k) (hc : code s c = .rrBack p::k) :
      Effect none (goto (setCpu s c fun d => {d with pgdir := none, proc := none}) c (.rrScan (p+1)::k))

end

section
variable {mq : Bool} {s s' s₁ : State cfg} {c : cfg.CpuId} {cl : Clock} {H : List (Lock cfg)}
  {k k' : List (Pc cfg)} {pc : Pc cfg}

theorem SameProc.refl (p : Proc cfg) : SameProc p p := ⟨rfl,rfl,rfl,rfl,rfl⟩

theorem SameView.refl (d : Cpu cfg) : SameView d d := ⟨rfl,rfl,rfl,rfl⟩

theorem sameProc_setProc {f : Proc cfg → Proc cfg} (p : cfg.Slot) (hf : ∀ q, SameProc q (f q))
    (q : cfg.Slot) : SameProc (s.proc q) ((setProc s p f).proc q) := by
  by_cases hq : q = p
  · subst hq
    simpa [setProc] using hf (s.proc q)
  · simpa [setProc,hq] using .refl (s.proc q)

theorem sameView_setCpu {f : Cpu cfg → Cpu cfg} (d : cfg.CpuId) (hf : ∀ e, SameView e (f e))
    (e : cfg.CpuId) : SameView (s.cpu e) ((setCpu s d f).cpu e) := by
  by_cases he : e = d
  · subst he
    simpa [setCpu] using hf (s.cpu e)
  · simpa [setCpu,he] using .refl (s.cpu e)

theorem Quiet.jump (hd : SameDebt (code s c) k) : Quiet s (goto s c k) c :=
  ⟨⟨fun _ _ _ => Iff.rfl,fun _ _ => rfl,fun _ _ => rfl⟩,fun _ => .refl _,fun _ => .refl _,
    rfl,rfl,rfl,k,rfl,hd⟩

theorem Quiet.jumpProc {f : Proc cfg → Proc cfg} (p : cfg.Slot) (hf : ∀ q, SameProc q (f q))
    (hd : SameDebt (code s c) k) : Quiet s (goto (setProc s p f) c k) c :=
  ⟨⟨fun _ _ _ => Iff.rfl,fun _ _ => rfl,fun _ _ => rfl⟩,sameProc_setProc p hf,fun _ => .refl _,
    rfl,rfl,rfl,k,rfl,hd⟩

theorem Quiet.jumpCpu {f : Cpu cfg → Cpu cfg} (hf : ∀ e, SameView e (f e))
    (hd : SameDebt (code s c) k) : Quiet s (goto (setCpu s c f) c k) c :=
  ⟨⟨fun _ _ _ => Iff.rfl,fun d hd => by simp [goto,setCpu,hd], fun d hd => by simp [goto,setCpu,hd]⟩,
    fun _ => .refl _,sameView_setCpu c hf,rfl,rfl,rfl,k,
    by simp [goto,setCpu,(hf (s.cpu c)).stack],hd⟩

theorem Quiet.swap (ys xs : List (Pc cfg)) (hc : code s c = ys++k) (hy : ys.all idle = true)
    (hx : xs.all idle = true) : Quiet s (goto s c (xs++k)) c :=
  .jump (by rw [hc]; exact .swap ys xs hy hx k)

theorem Quiet.swapProc {f : Proc cfg → Proc cfg} (p : cfg.Slot) (hf : ∀ q, SameProc q (f q))
    (ys xs : List (Pc cfg)) (hc : code s c = ys++k) (hy : ys.all idle = true)
    (hx : xs.all idle = true) : Quiet s (goto (setProc s p f) c (xs++k)) c :=
  .jumpProc p hf (by rw [hc]; exact .swap ys xs hy hx k)

theorem Quiet.swapCpu {f : Cpu cfg → Cpu cfg} (hf : ∀ e, SameView e (f e))
    (ys xs : List (Pc cfg)) (hc : code s c = ys++k) (hy : ys.all idle = true)
    (hx : xs.all idle = true) : Quiet s (goto (setCpu s c f) c (xs++k)) c :=
  .jumpCpu hf (by rw [hc]; exact .swap ys xs hy hx k)

theorem Quiet.panic (msg : String) : Quiet s (panic s c msg) c :=
  .jumpCpu (by exact fun _ => ⟨rfl,rfl,rfl,rfl⟩) (.cons rfl _)

theorem Quiet.spin {l : Lock cfg} (hc : code s c = .spin l::k)
    (h : exec mq s c cl k (.spin l) = some s') : Quiet s s' c := by
  simp only [exec] at h
  split_ifs at h with hl
  cases h
  refine ⟨⟨?_,fun _ _ => rfl,fun _ _ => rfl⟩,fun _ => .refl _,fun _ => .refl _,rfl,rfl,rfl,k,rfl,
    by rw [hc]; exact (SameDebt.cons rfl k).symm⟩
  intro m d hd
  by_cases hm : m = l
  · subst hm
    simp [goto,setLock,hl,Ne.symm hd]
  · simp [goto,setLock,hm]

theorem Quiet.release {l : Lock cfg} (hh : Held s c H) (hl : l ∈ H)
    (hc : code s c = .release l::k) (h : exec mq s c cl k (.release l) = some s') :
    Quiet s s' c := by
  rw [hh.release_eq hl (by rw [hc]; rfl)] at h
  cases h
  have hlock := (hh.locks l).mpr hl
  refine ⟨⟨?_,fun e he => by simp [goto,setCpu,setLock,he],
      fun e he => by simp [goto,setCpu,setLock,he]⟩,fun _ => .refl _,
    sameView_setCpu c fun _ => ⟨rfl,rfl,rfl,rfl⟩,rfl,rfl,rfl,k,by simp [goto,setCpu,setLock,unnest],
    by rw [hc]; exact (SameDebt.cons rfl k).symm⟩
  intro m e he
  by_cases hm : m = l
  · subst hm
    simp [goto,setCpu,setLock,hlock,Ne.symm he]
  · simp [goto,setCpu,setLock,hm]

theorem exec_effect (hh : Held s c H) (hc : code s c = pc::k)
    (hw : Wf mq (s.cpu c).stack H (unspin (pc::k))) (hs : Side s c)
    (h : exec mq s c cl k pc = some s') : Effect mq s c cl none s' := by
  cases pc
  case spin l => exact .quiet (.spin hc h)
  case release l => exact .quiet (.release hh hw.1 hc h)
  all_goals simp only [exec] at h
  case acquire l =>
    rw [if_neg fun hl => hw.1.fresh ((hh.locks l).mp hl)] at h
    cases h
    exact .quiet (.swapCpu (by exact fun _ => ⟨rfl,rfl,rfl,rfl⟩) [.acquire l] [.spin l] hc rfl rfl)
  case trap irq usr =>
    cases irq with
    | timer =>
      simp only at h
      split_ifs at h
      · cases h
        exact .quiet (.swap [.trap .timer usr] [.acquire tickslock,.tick,.trapKilled true usr]
          hc rfl rfl)
      · cases h
        exact .quiet (.swap [.trap .timer usr] [.trapKilled true usr] hc rfl rfl)
    | dev l =>
      cases h
      exact .quiet (.swap [.trap (.dev l) usr]
        [.acquire (.other l),.locked l true,.trapKilled false usr] hc rfl rfl)
  case tick =>
    cases h
    exact .quiet (.swap [.tick] [.wakeup (.addr 0),.release tickslock] hc rfl rfl)
  case trapKilled timer usr =>
    obtain ⟨rfl,ht,hk⟩ := hw
    split_ifs at h with hu
    · cases h
      simp only [Bool.and_eq_true] at hu
      rw [ht.2 hu.2] at hc
      exact .quiet (.swap [.trapKilled timer usr,.iret,.user] [.exit] hc rfl rfl)
    · cases h
      exact .quiet (.swap [.trapKilled timer usr] [.trapYield timer usr] hc rfl rfl)
  case trapYield timer usr =>
    split at h
    · cases h
      exact .quiet (.swap [.trapYield timer usr] [.trapLast usr] hc rfl rfl)
    · split_ifs at h
      · cases h
        exact .quiet (.swap [.trapYield timer usr] [.yield,.trapLast usr] hc rfl rfl)
      · cases h
        exact .quiet (.swap [.trapYield timer usr] [.trapLast usr] hc rfl rfl)
  case trapLast usr =>
    obtain ⟨rfl,ht,hk⟩ := hw
    split_ifs at h with hu
    · cases h
      simp only [Bool.and_eq_true] at hu
      rw [ht.2 hu.2] at hc
      exact .quiet (.swap [.trapLast usr,.iret,.user] [.exit] hc rfl rfl)
    · cases h
      exact .quiet (.swap [.trapLast usr] [] hc rfl rfl)
  case iret =>
    cases h
    exact .quiet (.swapCpu (by exact fun _ => ⟨rfl,rfl,rfl,rfl⟩) [.iret] [] hc rfl rfl)
  case sysret =>
    obtain ⟨rfl,hst,rfl⟩ := hw
    split_ifs at h
    · cases h
      exact .quiet (.swap [.sysret,.user] [.exit] hc rfl rfl)
    · cases h
      exact .quiet (.swap [.sysret] [] hc rfl rfl)
  case execName n =>
    obtain ⟨rfl,hst,rfl⟩ := hw
    obtain ⟨p,-,hp⟩ := hs.owner hst
    simp only [withProc,hp] at h
    cases h
    exact .execName n _ p hc hp
  case allocproc cur i =>
    split at h
    · cases h
      exact .quiet (.swap [.allocproc cur i] [.release .ptable] hc rfl rfl)
    · rename_i p hi
      split_ifs at h with hp
      · cases h
        exact .alloc cur i k p hc hi hp
      · cases h
        exact .quiet (.swap [.allocproc cur i] [.allocproc cur (i+1)] hc rfl rfl)
  case forkRun np =>
    have he : Effect mq s c cl none _ := .forkRun np k hc
    split_ifs at h with hmq
    · cases h
      simpa [hmq] using he
    · cases h
      simpa [hmq] using he
  case forkSeek np i min target =>
    have hseek : ∀ i' m t, SameDebt (code s c) (.forkSeek np i' m t::k) := by
      intro i' m t
      rw [hc]
      exact ⟨rfl,fun d => by cases d <;> rfl⟩
    split at h
    · split_ifs at h
      · cases h
        exact .quiet (.jump (hseek _ _ _))
      · cases h
        exact .quiet (.jump (hseek _ _ _))
    · split at h
      · cases h
        exact .quiet (.panic _)
      · cases h
        refine .quiet (.jump ?_)
        rw [hc]
        exact ⟨rfl,fun d => by cases d <;> simp [Debt.tok,setTok,wakeTok,yieldTok,enqTok,flyTok,
          forkTok,rawTok,builtTok,decTok,headTok,stealTok,aimTok]⟩
  case enqueue r p =>
    split_ifs at h with hq
    · cases h
      exact .quiet (.panic _)
    · cases h
      exact .enqueue r p k hc fun q hm he => hq ⟨q,hm,he⟩
  case forkret =>
    split_ifs at h
    · cases h
      exact .quiet (.swap [.forkret] [.kernel] hc rfl rfl)
    · cases h
      exact .quiet (.swap [.forkret] [.release .ptable,.kernel] hc rfl rfl)
  case yield =>
    obtain ⟨rfl,hst,-⟩ := hw
    obtain ⟨p,-,hp⟩ := hs.owner hst
    simp only [withProc,hp] at h
    cases h
    exact .yield p k hc hp
  case yieldLocked p =>
    have he : Effect mq s c cl none _ := .yieldLocked p k hc
    split_ifs at h with hmq
    · cases h
      simpa [hmq] using he
    · cases h
      simpa [hmq] using he
  case yieldRunnable p =>
    cases h
    exact .yieldRunnable p k hc
  case sched =>
    obtain ⟨rfl,hst,-,-⟩ := hw
    obtain ⟨p,-,hp⟩ := hs.owner hst
    have hsp : spinning (code s c) = 0 := by rw [hc]; rfl
    have hn : (s.cpu c).ncli = 1 := by rw [hh.ncli,hsp]; rfl
    have hl : s.lock .ptable = some c := (hh.locks _).mpr (by simp)
    have hfl : (s.cpu c).fl = false := hh.off (by omega)
    have he : Effect mq s c cl none _ := .sched p k (s.cpu c).intena hc hp
    simp only [KernelStep.sched,hl,hn,withProc,hp,if_neg (hs.gone k p hc hp),hfl,ne_eq,
      not_true_eq_false,if_false,Bool.false_eq_true] at h
    split_ifs at h with hmq
    · cases h
      simpa [hmq] using he
    · cases h
      simpa [hmq] using he
  case swtch p cur b =>
    have he : Effect mq s c cl none _ := .swtch p cur b k hc
    split_ifs at h with hmq
    · cases h
      simpa [hmq] using he
    · cases h
      simpa [hmq] using he
  case schedIntena cur b =>
    cases h
    refine .quiet ⟨⟨fun _ _ _ => Iff.rfl,?_,?_⟩,fun _ => .refl _,?_,rfl,rfl,rfl,k,?_,
      by rw [hc]; exact (SameDebt.cons rfl k).symm⟩
    · exact fun d _ => (SameCpu.intena s d _ b).ncli
    · exact fun d _ => (SameCpu.intena s d _ b).fl
    · exact sameView_setCpu (f := fun d => {d with intena := b}) _ fun _ => ⟨rfl,rfl,rfl,rfl⟩
    · simp only [goto]
      rw [(SameCpu.intena s c _ b).stack]
      rfl
  case sleep ch l =>
    split at h
    · cases h
      exact .quiet (.panic _)
    · rename_i p _
      split_ifs at h
      · cases h
        exact .quiet (.swap [.sleep ch l] [.sleepLocked p ch l] hc rfl rfl)
      · cases h
        exact .quiet (.swap [.sleep ch l] [.acquire .ptable,.release l,.sleepLocked p ch l] hc rfl rfl)
  case sleepLocked p ch l =>
    cases h
    exact .sleepLocked p ch l k hc
  case sleepAwake p l =>
    split_ifs at h
    · cases h
      exact .quiet (.swapProc p (by exact fun _ => ⟨rfl,rfl,rfl,rfl,rfl⟩) [.sleepAwake p l] [] hc rfl rfl)
    · cases h
      exact .quiet (.swapProc p (by exact fun _ => ⟨rfl,rfl,rfl,rfl,rfl⟩) [.sleepAwake p l]
          [.release .ptable,.acquire l] hc rfl rfl)
  case wakeup ch =>
    split_ifs at h
    · cases h
      exact .quiet (.panic _)
    · cases h
      exact .quiet (.swap [.wakeup ch] [.acquire .ptable,.wakeup1 0 (some ch),.release .ptable]
        hc rfl rfl)
  case wakeup1 i ch =>
    split at h
    · cases h
      exact .quiet (.swap [.wakeup1 i ch] [] hc rfl rfl)
    · rename_i j hi
      unfold wakeupSlot at h
      split_ifs at h with hj hmq
      · cases h
        have he : Effect mq s c cl none _ := .wakeHit i ch j k hc hi hj.1
        simpa [hmq] using he
      · cases h
        have he : Effect mq s c cl none _ := .wakeHit i ch j k hc hi hj.1
        simpa [hmq] using he
      · cases h
        exact .quiet (.swap [.wakeup1 i ch] [.wakeup1 (j+1) ch] hc rfl rfl)
  case wakeupSet j ch =>
    cases h
    exact .wakeupSet j ch k hc
  case killScan pid i =>
    split at h
    · cases h
      exact .quiet (.swap [.killScan pid i] [.release .ptable] hc rfl rfl)
    · rename_i p hi
      split_ifs at h with hp
      · by_cases hst : (s.proc p).state = .sleeping
        · cases h
          have he : Effect mq s c cl none _ := .killHit pid i p k hc hi hp hst
          simpa [setProc,hst] using he
        · cases h
          have hsame : setProc s p (fun q => {q with
              killed := true, state := if q.state = .sleeping then .runnable else q.state}) =
              setProc s p fun q => {q with killed := true} := by simp [setProc,hst]
          rw [hsame]
          exact .quiet (.swapProc p (by exact fun _ => ⟨rfl,rfl,rfl,rfl,rfl⟩) [.killScan pid i]
          [.release .ptable] hc rfl rfl)
      · cases h
        exact .quiet (.swap [.killScan pid i] [.killScan pid (i+1)] hc rfl rfl)
  case exit =>
    obtain ⟨rfl,hst,rfl⟩ := hw
    obtain ⟨p,-,hp⟩ := hs.owner hst
    simp only [withProc,hp] at h
    split_ifs at h
    · cases h
      exact .quiet (.panic _)
    · cases h
      exact .quiet (.swap [.exit] [.kernel,.exitClosed p] hc rfl rfl)
  case exitClosed p =>
    cases h
    exact .quiet (.swap [.exitClosed p] [.acquire .ptable,.exitLocked p] hc rfl rfl)
  case exitLocked p =>
    cases h
    exact .quiet (.swap [.exitLocked p]
      [.wakeup1 0 ((s.proc p).parent.map .proc),.exitReparent p 0] hc rfl rfl)
  case exitReparent p i =>
    split at h
    · rename_i q _
      split_ifs at h
      · cases h
        exact .quiet (.swapProc q (by exact fun _ => ⟨rfl,rfl,rfl,rfl,rfl⟩) [.exitReparent p i]
          [.wakeup1 0 (some (.proc s.initproc)),.exitReparent p (i+1)] hc rfl rfl)
      · cases h
        exact .quiet (.swapProc q (by exact fun _ => ⟨rfl,rfl,rfl,rfl,rfl⟩) [.exitReparent p i]
          [.exitReparent p (i+1)] hc rfl rfl)
      · cases h
        exact .quiet (.swap [.exitReparent p i] [.exitReparent p (i+1)] hc rfl rfl)
    · cases h
      exact .exitEnd p i k hc
  case zombieExit =>
    cases h
    exact .quiet (.panic _)
  case wait =>
    obtain ⟨rfl,hst,rfl⟩ := hw
    obtain ⟨p,-,hp⟩ := hs.owner hst
    simp only [withProc,hp] at h
    cases h
    exact .quiet (.swap [.wait] [.acquire .ptable,.waitScan p 0 false] hc rfl rfl)
  case waitScan p i kids =>
    split at h
    · rename_i q hi
      unfold waitSlot at h
      split_ifs at h with hq hst
      · cases h
        exact .quiet (.swap [.waitScan p i kids] [.waitScan p (q+1) kids] hc rfl rfl)
      · cases h
        exact .reap p i kids q k hc hi (by simpa using hq) hst
      · cases h
        exact .quiet (.swap [.waitScan p i kids] [.waitScan p (q+1) true] hc rfl rfl)
    · split_ifs at h
      · cases h
        exact .quiet (.swap [.waitScan p i kids] [.release .ptable] hc rfl rfl)
      · cases h
        exact .quiet (.swap [.waitScan p i kids]
          [.sleep (.proc p) .ptable,.waitScan p 0 false] hc rfl rfl)
  case waitfork =>
    obtain ⟨rfl,hst,rfl⟩ := hw
    obtain ⟨p,-,hp⟩ := hs.owner hst
    simp only [withProc,hp] at h
    split_ifs at h
    · cases h
      exact .finished _ hc
    · cases h
      exact .quiet (.swap [.waitfork] [.waitforkLoop] hc rfl rfl)
  case waitforkLoop =>
    split_ifs at h
    · cases h
      exact .quiet (.swap [.waitforkLoop] [] hc rfl rfl)
    · cases h
      exact .quiet (.swap [.waitforkLoop] [.yield,.waitforkLoop] hc rfl rfl)
  case mqLoop r =>
    cases h
    exact .quiet (.swapCpu (by exact fun _ => ⟨rfl,rfl,rfl,rfl⟩) [.mqLoop r]
      [.acquire (.rq r),.mqCheck r] hc rfl rfl)
  case mqCheck r =>
    split_ifs at h with hz
    · cases h
      exact .stealStart r k hc hz
    · obtain ⟨p,hq,rfl⟩ | rfl := dequeue_cases h
      · exact .dequeue (.mqCheck r) r p none k hc (.inl ⟨rfl,rfl⟩) hq
      · exact .quiet (.panic _)
  case stealScan r i max target =>
    split at h
    · rename_i t _
      split_ifs at h with hmax
      · cases h
        exact .stealAim r i max target t k hc (by omega)
      · cases h
        refine .quiet (.jump ?_)
        rw [hc]
        exact ⟨rfl,fun d => by cases d <;> cases target <;> rfl⟩
    · split at h
      · cases h
        exact .stealStop r i max none k hc
      · rename_i t
        split_ifs at h
        · cases h
          exact .stealStop r i max (some t) k hc
        · cases h
          exact .quiet (.panic _)
        · cases h
          refine .quiet (.jump ?_)
          rw [hc]
          exact ⟨rfl,fun d => by cases d <;> simp [Debt.tok,setTok,wakeTok,yieldTok,enqTok,flyTok,
            forkTok,rawTok,builtTok,decTok,headTok,stealTok,aimTok]⟩
  case stealCheck r t =>
    split_ifs at h
    · obtain ⟨p,hq,rfl⟩ | rfl := dequeue_cases h
      · exact .dequeue (.stealCheck r t) t p (some r) k hc (.inr ⟨r,rfl,rfl⟩) hq
      · exact .quiet (.panic _)
    · cases h
      exact .stealMiss r t k hc
  case unlink r p thief =>
    cases h
    exact .unlink r p thief k hc
  case sizeDec r =>
    cases h
    exact .sizeDec r k hc
  case mqTake r p =>
    cases h
    exact .mqTake r p k hc
  case mqMark r p =>
    cases h
    exact .mqMark r p k hc
  case mqSwtch r p =>
    cases h
    exact .mqSwtch r p k hc
  case mqBack r p =>
    cases h
    exact .mqBack r p k hc
  case mqIdle r p =>
    cases h
    exact .mqIdle r p k hc
  case rrLoop =>
    cases h
    exact .quiet (.swapCpu (by exact fun _ => ⟨rfl,rfl,rfl,rfl⟩) [.rrLoop]
      [.acquire .ptable,.rrScan 0] hc rfl rfl)
  case rrScan i =>
    split at h
    · cases h
      exact .quiet (.swap [.rrScan i] [.release .ptable,.rrLoop] hc rfl rfl)
    · rename_i p hi
      split_ifs at h with hp
      · cases h
        exact .rrTake i p k hc hi hp
      · cases h
        exact .quiet (.swap [.rrScan i] [.rrScan (i+1)] hc rfl rfl)
  case rrSwtch p =>
    cases h
    exact .rrSwtch p k hc
  case rrBack p =>
    cases h
    exact .rrBack p k hc
  case panic | user | kernel | locked | allocStack | forkCopy => cases h

theorem userOp_quiet {p : cfg.Slot} {op : Op} (hc : code s c = [.user]) :
    Quiet s (userOp s c [] p op) c := by
  unfold userOp
  split
  · refine ⟨⟨fun _ _ _ => Iff.rfl,fun d hd => by simp [goto,setCpu,setProc,hd],
      fun d hd => by simp [goto,setCpu,setProc,hd]⟩,?_,?_,rfl,rfl,rfl,
      [.trapKilled false true,.iret,.user],by simp [goto,setCpu,setProc],
      by rw [hc]; exact .swap [] [.trapKilled false true,.iret] rfl rfl [.user]⟩
    · exact sameProc_setProc (f := fun q => {q with killed := true}) p fun _ => ⟨rfl,rfl,rfl,rfl,rfl⟩
    · exact sameView_setCpu (f := fun d => {d with fl := false}) c fun _ => ⟨rfl,rfl,rfl,rfl⟩
  · split_ifs
    · exact .swap [.user] [.exit] hc rfl rfl
    · split
      · exact .swap [] [.acquire .ptable,.allocproc p 0,.sysret] hc rfl rfl
      · exact .swap [.user] [.exit] hc rfl rfl
      · exact .swap [] [.wait,.sysret] hc rfl rfl
      · exact .swap [] [.yield,.sysret] hc rfl rfl
      · exact .swap [] [.waitfork,.sysret] hc rfl rfl
      · rename_i pid _
        exact .swap [] [.acquire .ptable,.killScan pid 0,.sysret] hc rfl rfl
      · rename_i n _
        exact .swap [] [.kernel,.execName n,.sysret] hc rfl rfl
      · exact .swap [] [.kernel,.sysret] hc rfl rfl
      · exact .swap [] [.kernel,.sysret] hc rfl rfl

theorem choose_effect {a : Act cfg} (hc : code s c = pc::k)
    (hw : Wf mq (s.cpu c).stack H (unspin (pc::k))) (hs : Side s c)
    (h : choose s c cl k pc a = some s') : ∃ x, Effect mq s c cl x s' := by
  unfold choose at h
  split at h
  · obtain ⟨rfl,hst,rfl⟩ := hw
    obtain ⟨p,-,hp⟩ := hs.owner hst
    simp only [withProc,hp] at h
    cases h
    exact ⟨_,.quiet (userOp_quiet hc)⟩
  · rename_i l
    cases h
    exact ⟨_,.quiet (.swap [.kernel] [.acquire (.other l),.locked l false,.kernel] hc rfl rfl)⟩
  · rename_i ch
    cases h
    exact ⟨_,.quiet (.swap [.kernel] [.wakeup ch,.kernel] hc rfl rfl)⟩
  · cases h
    exact ⟨_,.quiet (.swap [.kernel] [] hc rfl rfl)⟩
  · rename_i l irq ch
    cases h
    exact ⟨_,.quiet (.swap [.locked l irq] [.wakeup ch,.locked l irq] hc rfl rfl)⟩
  · rename_i l ch
    cases h
    exact ⟨_,.quiet (.swap [.locked l false] [.sleep ch (.other l),.locked l false] hc rfl rfl)⟩
  · rename_i l irq
    cases h
    exact ⟨_,.quiet (.swap [.locked l irq] [.release (.other l)] hc rfl rfl)⟩
  · rename_i cur np
    cases h
    exact ⟨_,.allocFail _ cur np k hc (.inl rfl)⟩
  · rename_i cur np
    cases h
    exact ⟨_,.allocOk cur np k hc⟩
  · rename_i cur np
    cases h
    exact ⟨_,.allocFail _ cur np k hc (.inr rfl)⟩
  · rename_i cur np
    cases h
    exact ⟨_,.forkCopy cur np k hc⟩
  · cases h

theorem interrupt_quiet {irq : Irq} (h : interrupt s c irq = some s') : Quiet s s' c := by
  unfold interrupt at h
  split_ifs at h
  cases h
  exact .swapCpu (by exact fun _ => ⟨rfl,rfl,rfl,rfl⟩) [] [.trap irq _,.iret] rfl rfl rfl

theorem step_effect {a : Act cfg} (ht : Typed mq s c) (hs : Side s c)
    (h : step mq s c cl a = some s') : ∃ x, Effect mq s c cl x s' := by
  obtain ⟨H,hh,hw⟩ := ht
  unfold step at h
  split at h
  · cases h
  · rename_i pc k hc
    rw [hc] at hw
    split at h
    · exact ⟨_,exec_effect hh hc hw hs h⟩
    · exact ⟨_,.quiet (interrupt_quiet h)⟩
    · exact choose_effect hc hw hs h

end

end
end Xv6.Effects
