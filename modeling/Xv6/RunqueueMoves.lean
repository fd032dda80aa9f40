import Xv6.Runqueue

/-!
# What a step does to the runqueues

The effects of a step are sorted by what they do to the handover (`Phase`), to the process states
(`StateChange`) and to the runqueues (`QueueChange`). All effects change the accounts of `placed`
and `due` by the same amount, except that `kill` makes a sleeping process RUNNABLE without placing
it anywhere.
-/
namespace Xv6.Runqueue
open SchedLog KernelState KernelStep Tally Frames Typing Effects Handoff Windows
open Function (update update_self)

section
variable {cfg : Config}

/-- What a step of `c` does to its own handover. -/
inductive Phase (s s' : State cfg) (c : cfg.CpuId) : Prop
  | same (hm : mode (code s' c) = mode (code s c)) (hst : (s'.cpu c).stack = (s.cpu c).stack)
      (hpg : (s'.cpu c).pgdir = (s.cpu c).pgdir)
  | giveUp (hm : mode (code s' c) = .leaving none) (hst : (s'.cpu c).stack = (s.cpu c).stack)
      (hpg : (s'.cpu c).pgdir = (s.cpu c).pgdir) (hk : isKstack (s.cpu c).stack)
  | sched (hl : s.lock .ptable = some c) (hm : mode (code s' c) = .leaving (some c))
      (hst : (s'.cpu c).stack = (s.cpu c).stack) (hpg : (s'.cpu c).pgdir = (s.cpu c).pgdir)
      (hk : isKstack (s.cpu c).stack)
  | swtch (p : cfg.Slot) (hm : mode (code s c) = .leaving (some c)) (hon : On s c p)
      (hk : code s' c = [.mqBack c p]) (hst : (s'.cpu c).stack = .sched c)
      (hpg : (s'.cpu c).pgdir = (s.cpu c).pgdir)
  | take (p : cfg.Slot) (hm : mode (code s' c) = .taking p)
      (hst : (s'.cpu c).stack = (s.cpu c).stack) (hpg : (s'.cpu c).pgdir = some p)
  | mark (r : cfg.CpuId) (p : cfg.Slot) (hm : mode (code s c) = .taking p)
      (hk : code s' c = [.mqSwtch r p]) (hst : (s'.cpu c).stack = (s.cpu c).stack)
      (hpg : (s'.cpu c).pgdir = (s.cpu c).pgdir)
  | resume (p : cfg.Slot) (hm : mode (code s c) = .switching p) (hm' : mode (code s' c) = .plain)
      (hon : On s' c p) (hst : (s.cpu c).stack = .sched c)
      (hpg : (s'.cpu c).pgdir = (s.cpu c).pgdir) (hw : waitsFor (code s' c) = none)
  | back (p : cfg.Slot) (hm : mode (code s c) = .back p) (hm' : mode (code s' c) = .parted p)
      (hst : (s'.cpu c).stack = (s.cpu c).stack) (hpg : (s'.cpu c).pgdir = none)
  | idle (p : cfg.Slot) (hm : mode (code s c) = .parted p) (hm' : mode (code s' c) = .plain)
      (hst : (s'.cpu c).stack = (s.cpu c).stack) (hpg : (s'.cpu c).pgdir = (s.cpu c).pgdir)

/-- A step of `c` changes the state of one process at most. A process becomes RUNNABLE under
`ptable.lock` only, and stops being so only where the scheduler marks it RUNNING. -/
inductive StateChange (s s' : State cfg) (c : cfg.CpuId) : Prop
  | same (h : ∀ q, (s'.proc q).state = (s.proc q).state) (hset : ∀ q, weight (setTok q) (code s' c) ≠ 0 →
        weight (setTok q) (code s c) ≠ 0 ∨ (s.proc q).state ≠ .runnable)
  | wake (p : cfg.Slot) (hl : s.lock .ptable = some c)
      (h : ∀ q, (s'.proc q).state = if q = p then .runnable else (s.proc q).state)
      (hset : ∀ q, weight (setTok q) (code s' c) = 0)
  | other (p : cfg.Slot) (st : ProcState) (hp : (s.proc p).state ≠ .runnable) (hst : st ≠ .runnable)
      (h : ∀ q, (s'.proc q).state = if q = p then st else (s.proc q).state)
      (hset : ∀ q, weight (setTok q) (code s' c) = 0)
  | mark (r : cfg.CpuId) (p : cfg.Slot) (hk : code s c = [.mqMark r p])
      (hk' : code s' c = [.mqSwtch r p])
      (h : ∀ q, (s'.proc q).state = if q = p then .running else (s.proc q).state)

/-- What two stacks owe to the runqueues. A process may have been marked RUNNING. -/
structure SameQueue (k k' : List (Pc cfg)) : Prop where
  fly : ∀ q, weight (flyTok q) k' ≤ weight (flyTok q) k
  head : ∀ r q, weight (headTok r q) k' = weight (headTok r q) k
  dec : ∀ r, weight (decTok r) k' = weight (decTok r) k

/-- What a step of `c` does to the runqueues and to its own obligations about them. -/
inductive QueueChange (s s' : State cfg) (c : cfg.CpuId) : Prop
  | same (hrq : s'.runqueue = s.runqueue) (hk : SameQueue (code s c) (code s' c))
  | enqueue (r : cfg.CpuId) (p : cfg.Slot) (hrq : s'.runqueue = update s.runqueue r
        ⟨(s.runqueue r).size+1,(s.runqueue r).queue++[p]⟩)
      (hk : SameQueue (code s c) (code s' c))
  | dequeue (r : cfg.CpuId) (p : cfg.Slot) (hrq : s'.runqueue = s.runqueue)
      (hq : (s.runqueue r).queue.head? = some p)
      (hfly : ∀ q, weight (flyTok q) (code s' c) = 0)
      (hhead : ∀ t q, weight (headTok t q) (code s' c) ≠ 0 → r = t ∧ p = q)
      (hdec : ∀ t, weight (decTok t) (code s' c) = weight (decTok t) (code s c))
  | unlink (r : cfg.CpuId) (p : cfg.Slot) (thief : Option cfg.CpuId) (k : List (Pc cfg))
      (hk : code s c = .unlink r p thief::k)
      (hrq : s'.runqueue = update s.runqueue r {s.runqueue r with queue := (s.runqueue r).queue.tail})
      (hfly : ∀ q, weight (flyTok q) (code s' c) ≠ 0 → p = q)
      (hhead : ∀ t q, weight (headTok t q) (code s' c) = 0)
      (hdec : ∀ t, weight (decTok t) (code s' c) = weight (decTok t) (code s c)+if r = t then 1 else 0)
  | sizeDec (r : cfg.CpuId) (hrq : s'.runqueue = update s.runqueue r
        {s.runqueue r with size := (s.runqueue r).size-1})
      (hfly : ∀ q, weight (flyTok q) (code s' c) = weight (flyTok q) (code s c))
      (hhead : ∀ t q, weight (headTok t q) (code s' c) = weight (headTok t q) (code s c))
      (hdec : ∀ t, weight (decTok t) (code s c) = weight (decTok t) (code s' c)+if r = t then 1 else 0)

end

section
variable {cfg : Config} {s s' s₁ : State cfg} {c d : cfg.CpuId} {cl : Clock} {k k' : List (Pc cfg)}
  {p q : cfg.Slot} {x : Option cfg.Slot}

theorem Phase.jump (hcpu : s₁.cpu = s.cpu) (hm : mode k = mode (code s c)) : Phase s (goto s₁ c k) c :=
  .same (by rw [code_goto,hm]) (by simp only [goto,hcpu]) (by simp only [goto,hcpu])

theorem Core.resumes (hC : Core true s) (hm : mode (code s c) = .switching p)
    (hst : (s.cpu c).stack = .sched c) : Saved true s p := by
  refine hC.saved p (by rw [hC.switching c p hm]; trivial) fun d hd => ?_
  obtain rfl := hC.single d c p (.inl hd) (.inr (.inr hm))
  rw [On,hst] at hd
  cases hd

theorem Phase.of_effect (hC : Core true s) (he : Effect true s c cl x s') : Phase s s' c := by
  have hok := hC.cpu c
  cases he with
  | quiet hq =>
    obtain ⟨k,hf,hd⟩ := hq.frames
    refine .same ?_ (hq.cpu c).stack (hq.cpu c).pgdir
    rw [← hd.mode,code,hf,(hq.cpu c).stack,update_self]
  | allocFail pc cur np k hk hpc =>
    rcases hpc with rfl | rfl <;> exact .jump rfl (by rw [hk]; rfl)
  | yieldRunnable p k hk | exitEnd p i k hk =>
    obtain ⟨H,-,-,hst,-⟩ := hok.rule hk
    exact .giveUp (by rw [KernelStep.giveUp,code_goto]; rfl) rfl rfl (by rw [hst]; trivial)
  | sched p k b hk =>
    obtain ⟨H,hh,rfl,hst,-⟩ := hok.rule hk
    exact .sched ((hh.locks _).mpr (by simp)) (by rw [code_goto]; rfl) rfl rfl hst
  | swtch p cur b k hk =>
    obtain ⟨H,-,-,hst,-⟩ := hok.rule hk
    have hm : mode (code s c) = .leaving (some cur) := by rw [hk]; rfl
    obtain rfl := hok.cur cur hm
    obtain ⟨hs,hf⟩ := hok.home p hst
    have hcpu : ((switchFrom s cur p (s.cpu (if true = true then cur else cur)).scheduler
        (if true = true then .acquire .ptable::.schedIntena cur b::k
          else .schedIntena cur b::k)).cpu cur).stack = .sched cur := by
      simp [switchFrom,setCpu,hs]
    refine .swtch p hm hst ?_ hcpu (by simp [switchFrom,setCpu,setProc,goto])
    rw [code,hcpu]
    simpa [switchFrom,setCpu,setProc,goto,hst,homeFrames] using hf
  | sleepLocked p ch l k hk =>
    obtain ⟨H,-,-,-,hst,-⟩ := hok.rule hk
    exact .giveUp (by rw [KernelStep.giveUp,code_goto]; rfl) rfl rfl (by rw [hst]; trivial)
  | dequeue pc r p thief k hk hpc =>
    rcases hpc with ⟨rfl,-⟩ | ⟨t,rfl,-⟩ <;> exact .jump rfl (by rw [hk]; rfl)
  | unlink r p thief k hk => exact .jump rfl (by rw [hk]; cases thief <;> rfl)
  | mqTake r p =>
    exact .take p (by rw [code_goto]; rfl) (by simp [goto,takeProc,setCpu])
      (by simp [goto,takeProc,setCpu])
  | mqMark r p k hk =>
    obtain ⟨H,-,-,-,-,rfl⟩ := hok.rule hk
    exact .mark r p (by rw [hk]; rfl) (by rw [code_goto]) (by simp [goto]) (by simp [goto])
  | mqSwtch r p k hk =>
    obtain ⟨H,-,-,-,hst,rfl⟩ := hok.rule hk
    obtain rfl := hok.own r hst
    have hm : mode (code s r) = .switching p := by rw [hk]; rfl
    have hsaved := Core.resumes hC hm hst
    have hcpu : ((switchTo s r p [.mqBack r p]).cpu r).stack = .kstack p := by
      simp [switchTo,setCpu,hsaved.stack]
    have hcode : code (switchTo s r p [.mqBack r p]) r = s.frames (.kstack p) := by
      rw [code,hcpu]
      simp [switchTo,setCpu,goto,hst]
    refine .resume p hm (by rw [hcode]; exact hsaved.calm.plain) hcpu hst
      (by simp [switchTo,setCpu,goto]) ?_
    rw [hcode]
    exact waitsFor_of_spinning hsaved.wf.spinning.1
  | mqBack r p k hk =>
    exact .back p (by rw [hk]; rfl) (by rw [code_goto]; rfl) (by simp [goto,setCpu])
      (by simp [goto,setCpu])
  | mqIdle r p k hk =>
    obtain ⟨H,-,-,-,-,rfl⟩ := hok.rule hk
    exact .idle p (by rw [hk]; rfl) (by rw [code_goto]; rfl) (by simp [goto,setCpu])
      (by simp [goto,setCpu])
  | rrTake i p k hk | rrSwtch p k hk | rrBack p k hk =>
    exact absurd (hok.rule hk) (by rintro ⟨H,-,h,-⟩; cases h)
  | _ => exact .jump rfl (by rw [‹code s c = _›]; rfl)

theorem StateChange.jump (h : ∀ q, (s₁.proc q).state = (s.proc q).state)
    (hk : ∀ q, weight (setTok q) k ≤ weight (setTok q) (code s c)) :
    StateChange s (goto s₁ c k) c := by
  refine .same h fun q hq => .inl ?_
  have := hk q
  rw [code_goto] at hq
  omega

theorem StateChange.of_effect (hC : Core true s) (he : Effect true s c cl x s') :
    StateChange s s' c := by
  have hok := hC.cpu c
  have hrun : ∀ {p}, On s c p → mode (code s c) = .plain → (s.proc p).state ≠ .runnable := by
    intro p hon hm
    simp [hC.runs c p hon hm]
  cases he with
  | quiet hq =>
    obtain ⟨k,hf,hd⟩ := hq.frames
    have hcode : code s' c = k := by rw [code,hf,(hq.cpu c).stack,update_self]
    refine .same (fun q => (hq.proc q).state) fun q hw => .inl ?_
    have hset : weight (setTok q) k = weight (setTok q) (code s c) := hd.debt (.set q)
    rwa [hcode,hset] at hw
  | execName n k p hk | sched p k b hk =>
    refine .jump (fun q => ?_) (by simp [hk,setTok])
    by_cases hq : q = p <;> simp [setProc,hq]
  | alloc cur i k p hk hi hp =>
    obtain ⟨H,-,-,-,rfl⟩ := hok.rule hk
    exact .other p .embryo (by simp [hp]) (by simp) (allocSlot_state s c cl p)
      fun _ => by rw [code_goto]; rfl
  | allocFail pc cur np k hk hpc =>
    have hst : (s.proc np).state = .embryo ∧ k = sysTail := by
      rcases hpc with rfl | rfl <;> obtain ⟨H,-,-,hst,hk'⟩ := hok.rule hk
      · exact ⟨hC.allocating hk,hk'⟩
      · exact ⟨hC.embryo hst (by simp [hk,forkTok]),hk'⟩
    obtain ⟨he,rfl⟩ := hst
    exact .other np .unused (by simp [he]) (by simp) (setState_state s np · .unused)
      fun _ => by rw [code_goto]; rfl
  | allocOk cur np k hk =>
    refine .jump (fun q => ?_) (by simp [hk,setTok])
    by_cases hq : q = np <;> simp [buildStack,setProc,hq]
  | forkCopy cur np k hk =>
    refine .jump (fun q => ?_) (by simp [hk,setTok])
    by_cases hq : q = np <;> simp [copyProc,logClock,setProc,hq]
  | forkRun np k hk =>
    obtain ⟨H,hh,rfl,-,rfl⟩ := hok.rule hk
    exact .wake np ((hh.locks _).mpr (by simp))
      (setState_state (logProc s c cl np .fork .runnable) np · .runnable)
      fun _ => by rw [code_goto]; rfl
  | yieldLocked p k hk =>
    obtain ⟨H,-,-,hst,hcalm,-⟩ := hok.rule hk
    refine .same (fun _ => rfl) fun q hq => .inr ?_
    obtain rfl : p = q := by
      by_contra hne
      simp [code_goto,setTok,hne,hcalm.settled q] at hq
    exact hrun hst (by rw [hk]; exact hcalm.plain)
  | yieldRunnable p k hk =>
    obtain ⟨H,hh,rfl,-,hcalm,-⟩ := hok.rule hk
    refine .wake p ((hh.locks _).mpr (by simp)) (setState_state s p · .runnable) fun q => ?_
    rw [KernelStep.giveUp,code_goto]
    simpa [setTok] using hcalm.settled q
  | swtch p cur b k hk =>
    obtain ⟨H,-,-,hst,-⟩ := hok.rule hk
    obtain rfl := hok.cur cur (by rw [hk]; rfl)
    refine .same (fun q => ?_) fun q hq => ?_
    · by_cases hqp : q = p <;> simp [switchFrom,setCpu,goto,setProc,hqp]
    · rw [hok.switchFrom_code hst] at hq
      exact absurd rfl hq
  | sleepLocked p ch l k hk =>
    obtain ⟨H,-,-,-,hst,hcalm,-⟩ := hok.rule hk
    refine .other p .sleeping (hrun hst (by rw [hk]; exact hcalm.plain)) (by simp) (fun q => ?_)
      fun q => ?_
    · by_cases hq : q = p <;> simp [KernelStep.giveUp,goto,setState,setProc,logProc,hq]
    · rw [KernelStep.giveUp,code_goto]
      simpa [setTok] using hcalm.settled q
  | wakeHit i ch j k hk hi hj =>
    obtain ⟨H,-,-,-,hset,-⟩ := hok.rule hk
    refine .same (fun _ => rfl) fun q hq => .inr ?_
    obtain rfl : j = q := by
      by_contra hne
      simp [code_goto,setTok,hne,hset q] at hq
    simp [hj]
  | wakeupSet j ch k hk =>
    obtain ⟨H,hh,hpt,-,hset,-⟩ := hok.rule hk
    refine .wake j ((hh.locks _).mpr hpt) (setState_state s j · .runnable) fun q => ?_
    rw [code_goto]
    simpa [setTok] using hset q
  | killHit pid i p k hk =>
    obtain ⟨H,hh,rfl,-,rfl⟩ := hok.rule hk
    refine .wake p ((hh.locks _).mpr (by simp)) (fun q => ?_) fun _ => by rw [code_goto]; rfl
    by_cases hq : q = p <;> simp [goto,setProc,hq]
  | exitEnd p i k hk =>
    obtain ⟨H,-,-,hst,rfl⟩ := hok.rule hk
    exact .other p .zombie (hrun hst (by rw [hk]; rfl)) (by simp)
      (setState_state (logProc (logClock s cl p 2) c cl p .exit .zombie) p · .zombie)
      fun _ => by rw [KernelStep.giveUp,code_goto]; rfl
  | reap p i kids q k hk hi hq hst =>
    obtain ⟨H,-,-,-,rfl⟩ := hok.rule hk
    exact .other q .unused (by simp [hst]) (by simp) (freeSlot_state s c cl q)
      fun _ => by rw [code_goto]; rfl
  | dequeue pc r p thief k hk hpc =>
    rcases hpc with ⟨rfl,-⟩ | ⟨t,rfl,-⟩ <;> exact .jump (fun _ => rfl) (by simp [hk,setTok])
  | stealMiss r t k hk | sizeDec r k hk => exact .jump (fun _ => rfl) (by simp [hk])
  | unlink r p thief k hk =>
    exact .jump (fun _ => rfl) (by cases thief <;> simp [hk,unlinked,setTok])
  | mqMark r p k hk =>
    obtain ⟨H,-,-,-,-,rfl⟩ := hok.rule hk
    refine .mark r p hk (by rw [code_goto]) fun q => ?_
    by_cases hq : q = p <;> simp [goto,hq]
  | mqSwtch r p k hk =>
    obtain ⟨H,-,-,-,hst,rfl⟩ := hok.rule hk
    obtain rfl := hok.own r hst
    have hsaved := Core.resumes hC (p := p) (by rw [hk]; rfl) hst
    refine .same (fun _ => rfl) fun q hq => ?_
    rw [hsaved.switchTo_code hst] at hq
    exact absurd (hsaved.calm.settled q) hq
  | rrTake i p k hk | rrSwtch p k hk | rrBack p k hk =>
    exact absurd (hok.rule hk) (by rintro ⟨H,-,h,-⟩; cases h)
  | _ => exact .jump (fun _ => rfl) (by simp [‹code s c = _›,setTok])

theorem embryo_of_effect (hC : Core true s) (he : Effect true s c cl x s') :
    ∀ q, x = some q → (s.proc q).state = .embryo := by
  rintro q rfl
  cases he with
  | allocOk cur np k hk => exact hC.allocating hk

theorem owed_change (hC : Core true s) (he : Effect true s c cl x s') (y : Debt cfg) :
    owed s' y+weight y.tok (code s c) = owed s y+weight y.tok (code s' c) :=
  sum_change (f := fun d => weight y.tok (code s d)) (g := fun d => weight y.tok (code s' d)) c
    fun _ hd => by rw [hC.code_other (Local.of_effect (hC.cpu c) he) (embryo_of_effect hC he) hd]

theorem queued_change {r : cfg.CpuId} (h : ∀ t, t ≠ r → s'.runqueue t = s.runqueue t) :
    queued s' q+(s.runqueue r).queue.count q = queued s q+(s'.runqueue r).queue.count q :=
  sum_change (f := fun t => (s.runqueue t).queue.count q)
    (g := fun t => (s'.runqueue t).queue.count q) r fun t ht => by rw [h t ht]

theorem weight_kstack {mq : Bool} {w : Pc cfg → ℕ} {H : List (Lock cfg)}
    (hw : Wf mq (.kstack p) H k) (h : ∀ pc, onSched pc = false → w pc = 0) : weight w k = 0 :=
  weight_eq_zero fun pc hm => h pc (hw.kstack_onSched pc hm)

theorem flyTok_onSched (q : cfg.Slot) (pc : Pc cfg) (h : onSched pc = false) : flyTok q pc = 0 := by
  cases pc <;> first | rfl | cases h

/-- The step of `c` changes `placed` and `due` of `q` by the same amount. -/
def Balanced (s s' : State cfg) (c : cfg.CpuId) (q : cfg.Slot) : Prop :=
  queued s' q+weight (flyTok q) (code s' c)+weight (enqTok q) (code s' c)+
    (runnable s q+weight (setTok q) (code s c)) =
  queued s q+weight (flyTok q) (code s c)+weight (enqTok q) (code s c)+
    (runnable s' q+weight (setTok q) (code s' c))

theorem Balanced.eq (h : Balanced s s' c q) (hC : Core true s) (he : Effect true s c cl x s') :
    placed s' q+due s q = placed s q+due s' q := by
  have hfly : owed s' (.fly q)+weight (flyTok q) (code s c) =
    owed s (.fly q)+weight (flyTok q) (code s' c) := owed_change hC he (.fly q)
  have henq : owed s' (.enq q)+weight (enqTok q) (code s c) =
    owed s (.enq q)+weight (enqTok q) (code s' c) := owed_change hC he (.enq q)
  have hset : owed s' (.set q)+weight (setTok q) (code s c) =
    owed s (.set q)+weight (setTok q) (code s' c) := owed_change hC he (.set q)
  simp only [Balanced] at h
  simp only [placed,due]
  omega

theorem queued_same (h : s'.runqueue = s.runqueue) : queued s' q = queued s q := by
  simp only [queued,h]

theorem runnable_same (h : (s'.proc q).state = (s.proc q).state) : runnable s' q = runnable s q := by
  simp only [runnable,h]

/-- Steps that touch neither the queues nor whether `q` is RUNNABLE. -/
theorem Balanced.jump (hrq : s₁.runqueue = s.runqueue)
    (hst : (s₁.proc q).state = .runnable ↔ (s.proc q).state = .runnable)
    (hk : weight (flyTok q) k+weight (enqTok q) k+weight (setTok q) (code s c) =
      weight (flyTok q) (code s c)+weight (enqTok q) (code s c)+weight (setTok q) k) :
    Balanced s (goto s₁ c k) c q := by
  have hq : queued (goto s₁ c k) q = queued s q := queued_same hrq
  have hr : runnable (goto s₁ c k) q = runnable s q := by simp only [runnable,goto,hst]
  simp only [Balanced,code_goto,hq,hr]
  omega

theorem Balanced.turn (st : ProcState) (hrq : s₁.runqueue = s.runqueue)
    (hst : ∀ q, (s₁.proc q).state = if q = p then st else (s.proc q).state)
    (hother : q ≠ p → weight (flyTok q) k+weight (enqTok q) k+weight (setTok q) (code s c) =
      weight (flyTok q) (code s c)+weight (enqTok q) (code s c)+weight (setTok q) k)
    (hself : weight (flyTok p) k+weight (enqTok p) k+(runnable s p+weight (setTok p) (code s c)) =
      weight (flyTok p) (code s c)+weight (enqTok p) (code s c)+
        ((if st = .runnable then 1 else 0)+weight (setTok p) k)) :
    Balanced s (goto s₁ c k) c q := by
  by_cases hq : q = p
  · subst hq
    have hqu : queued (goto s₁ c k) q = queued s q := queued_same hrq
    have hr : runnable (goto s₁ c k) q = if st = .runnable then 1 else 0 := by
      simp [runnable,goto,hst q]
    simp only [Balanced,code_goto,hqu,hr]
    omega
  · exact .jump hrq (by rw [hst q,if_neg hq]) (hother hq)

theorem runnable_eq_zero (h : (s.proc p).state ≠ .runnable) : runnable s p = 0 := if_neg h

theorem runnable_eq_one (h : (s.proc p).state = .runnable) : runnable s p = 1 := if_pos h

def Kills (s : State cfg) (c : cfg.CpuId) (q : cfg.Slot) : Prop :=
  ∃ pid i k, code s c = .killScan pid i::k ∧ slot? cfg i = some q ∧ (s.proc q).pid = pid ∧
    (s.proc q).state = .sleeping

/-- Switches between two stacks that owe nothing about `q`. -/
theorem Balanced.switch (k' : List (Pc cfg)) (hrq : s'.runqueue = s.runqueue)
    (hst : (s'.proc q).state = .runnable ↔ (s.proc q).state = .runnable) (hk' : code s' c = k')
    (hz : weight (flyTok q) (code s c) = 0 ∧ weight (enqTok q) (code s c) = 0 ∧
      weight (setTok q) (code s c) = 0)
    (hz' : weight (flyTok q) k' = 0 ∧ weight (enqTok q) k' = 0 ∧ weight (setTok q) k' = 0) :
    Balanced s s' c q := by
  have hq : queued s' q = queued s q := queued_same hrq
  have hr : runnable s' q = runnable s q := by simp only [runnable,hst]
  simp only [Balanced,hk',hq,hr,hz.1,hz.2.1,hz.2.2,hz'.1,hz'.2.1,hz'.2.2]

theorem Balanced.queue {r : cfg.CpuId} (hrq : ∀ t, t ≠ r → s₁.runqueue t = s.runqueue t)
    (hst : (s₁.proc q).state = (s.proc q).state)
    (hk : (s₁.runqueue r).queue.count q+weight (flyTok q) k+weight (enqTok q) k+
        weight (setTok q) (code s c) =
      (s.runqueue r).queue.count q+weight (flyTok q) (code s c)+weight (enqTok q) (code s c)+
        weight (setTok q) k) :
    Balanced s (goto s₁ c k) c q := by
  have hqu := queued_change (q := q) hrq
  have hq : queued (goto s₁ c k) q = queued s₁ q := rfl
  have hr : runnable (goto s₁ c k) q = runnable s q := by simp only [runnable,goto,hst]
  simp only [Balanced,code_goto,hq,hr]
  omega

theorem balanced_enqueue {r : cfg.CpuId} (hk : code s c = .enqueue r p::k) :
    Balanced s (goto (setRunqueue s r fun rq => ⟨rq.size+1,rq.queue++[p]⟩) c k) c q := by
  refine .queue (r := r) (fun t ht => by simp [setRunqueue,ht]) rfl ?_
  simp only [hk,setRunqueue,update_self,List.count_append,List.count_singleton,beq_iff_eq,
    weight_cons,flyTok,enqTok,setTok]
  omega

theorem balanced_unlink {r : cfg.CpuId} {thief : Option cfg.CpuId}
    (hk : code s c = .unlink r p thief::k) (hhead : (s.runqueue r).queue.head? = some p) :
    Balanced s (goto (setRunqueue s r fun rq => {rq with queue := rq.queue.tail}) c
      (unlinked r p thief k)) c q := by
  obtain ⟨tl,htl⟩ := List.head?_eq_some_iff.mp hhead
  refine .queue (r := r) (fun t ht => by simp [setRunqueue,ht]) rfl ?_
  cases thief <;> simp only [hk,setRunqueue,update_self,htl,List.tail_cons,List.count_cons,
    beq_iff_eq,unlinked,weight_cons,flyTok,enqTok,setTok] <;> omega

theorem balanced_of_effect (h : Sound s) (he : Effect true s c cl x s') (hq : ¬ Kills s c q) :
    Balanced s s' c q := by
  have hC := h.core
  have hok := hC.cpu c
  cases he with
  | quiet hqt =>
    obtain ⟨k,hf,hd⟩ := hqt.frames
    have hcode : code s' c = k := by rw [code,hf,(hqt.cpu c).stack,update_self]
    have hfly : weight (flyTok q) k = weight (flyTok q) (code s c) := hd.debt (.fly q)
    have henq : weight (enqTok q) k = weight (enqTok q) (code s c) := hd.debt (.enq q)
    have hset : weight (setTok q) k = weight (setTok q) (code s c) := hd.debt (.set q)
    have hqu : queued s' q = queued s q := queued_same hqt.runqueue
    have hr : runnable s' q = runnable s q := runnable_same (hqt.proc q).state
    simp only [Balanced,hcode,hqu,hr,hfly,henq,hset]
  | execName n k p hk | sched p k b hk =>
    refine .jump rfl ?_ (by simp [hk,flyTok,enqTok,setTok])
    by_cases hqp : q = p <;> simp [setProc,hqp]
  | alloc cur i k p hk hi hp =>
    refine .turn _ rfl (allocSlot_state s c cl p) (by simp [hk,flyTok,enqTok,setTok]) ?_
    simp [hk,flyTok,enqTok,setTok,runnable_eq_zero (s := s) (p := p) (by simp [hp])]
  | allocFail pc cur np k hk hpc =>
    have he : (s.proc np).state = .embryo := by
      rcases hpc with rfl | rfl
      · exact hC.allocating hk
      · obtain ⟨H,-,-,hst,-⟩ := hok.rule hk
        exact hC.embryo hst (by simp [hk,forkTok])
    have hz := runnable_eq_zero (s := s) (p := np) (by simp [he])
    rcases hpc with rfl | rfl <;>
      exact .turn _ rfl (setState_state s np · .unused) (by simp [hk,flyTok,enqTok,setTok])
        (by simp [hk,flyTok,enqTok,setTok,hz])
  | allocOk cur np k hk =>
    refine .jump rfl ?_ (by simp [hk,flyTok,enqTok,setTok])
    by_cases hqp : q = np <;> simp [buildStack,setProc,hqp]
  | forkCopy cur np k hk =>
    refine .jump rfl ?_ (by simp [hk,flyTok,enqTok,setTok])
    by_cases hqp : q = np <;> simp [copyProc,logClock,setProc,hqp]
  | forkRun np k hk =>
    obtain ⟨H,-,-,hst,rfl⟩ := hok.rule hk
    obtain ⟨cur,hon,-⟩ := hok.on_of_isKstack hst
    have he := hC.embryo hon (q := np) (by simp [hk,forkTok])
    have hz := runnable_eq_zero (s := s) (p := np) (by simp [he])
    refine .turn _ rfl (setState_state (logProc s c cl np .fork .runnable) np · .runnable) ?_ ?_
    · intro hne
      simp [hk,flyTok,enqTok,setTok,Ne.symm hne]
    · simp [hk,flyTok,enqTok,setTok,hz,sysTail]
  | enqueue r p k hk => exact balanced_enqueue hk
  | yieldLocked p k hk | wakeHit i ch j k hk =>
    refine .jump rfl Iff.rfl ?_
    simp only [hk,if_true,weight_cons,flyTok,enqTok,setTok]
    omega
  | yieldRunnable p k hk =>
    obtain ⟨H,-,-,hst,hcalm,-⟩ := hok.rule hk
    have hr := hC.runs c p hst (by rw [hk]; exact hcalm.plain)
    have hz := runnable_eq_zero (s := s) (p := p) (by simp [hr])
    refine .turn _ rfl (setState_state s p · .runnable) ?_ ?_
    · intro hne
      simp [hk,flyTok,enqTok,setTok,Ne.symm hne]
    · simp only [hk,weight_cons,flyTok,enqTok,setTok,hz,if_true]
      omega
  | swtch p cur b k hk =>
    obtain ⟨H,-,-,hst,hcalm,hw⟩ := hok.rule hk
    obtain rfl := hok.cur cur (by rw [hk]; rfl)
    obtain ⟨hs,hf⟩ := hok.home p hst
    have hfly : weight (flyTok q) k = 0 := by
      rw [hst] at hw
      exact weight_kstack hw (flyTok_onSched q)
    refine Balanced.switch [.mqBack cur p] rfl ?_ ?_ ?_ ?_
    · by_cases hqp : q = p <;> simp [switchFrom,setCpu,goto,setProc,hqp]
    · simpa [code,switchFrom,setCpu,setProc,goto,hst,hs,homeFrames] using hf
    · simp [hk,flyTok,enqTok,setTok,hfly,hcalm.settled q,hcalm.queued q]
    · simp [flyTok,enqTok,setTok]
  | sleepLocked p ch l k hk =>
    obtain ⟨H,-,-,-,hst,hcalm,-⟩ := hok.rule hk
    have hr := hC.runs c p hst (by rw [hk]; exact hcalm.plain)
    have hz := runnable_eq_zero (s := s) (p := p) (by simp [hr])
    refine .turn (p := p) .sleeping rfl ?_ (by simp [hk,flyTok,enqTok,setTok])
      (by simp [hk,flyTok,enqTok,setTok,hz])
    intro r
    by_cases hrp : r = p <;> simp [setState,setProc,logProc,hrp]
  | wakeupSet j ch k hk =>
    have hj := hC.pend c j (by simp [hk,wakeTok])
    have hz := runnable_eq_zero (s := s) (p := j) (by simp [hj])
    refine .turn _ rfl (setState_state s j · .runnable) ?_ ?_
    · intro hne
      simp [hk,flyTok,enqTok,setTok,Ne.symm hne]
    · simp only [hk,weight_cons,flyTok,enqTok,setTok,hz,if_true]
      omega
  | killHit pid i p k hk hi hp hst =>
    have hne : q ≠ p := by
      rintro rfl
      exact hq ⟨pid,i,k,hk,hi,hp,hst⟩
    exact .jump rfl (by simp [setProc,hne]) (by simp [hk,flyTok,enqTok,setTok])
  | exitEnd p i k hk =>
    obtain ⟨H,-,-,hst,rfl⟩ := hok.rule hk
    have hr := hC.runs c p hst (by rw [hk]; rfl)
    have hz := runnable_eq_zero (s := s) (p := p) (by simp [hr])
    exact .turn _ rfl (setState_state (logProc (logClock s cl p 2) c cl p .exit .zombie) p · .zombie)
      (by simp [hk,flyTok,enqTok,setTok]) (by simp [hk,flyTok,enqTok,setTok,hz])
  | reap p i kids r k hk hi hr hst =>
    have hz := runnable_eq_zero (s := s) (p := r) (by simp [hst])
    exact .turn _ rfl (freeSlot_state s c cl r) (by simp [hk,flyTok,enqTok,setTok])
      (by simp [hk,flyTok,enqTok,setTok,hz])
  | dequeue pc r p thief k hk hpc =>
    rcases hpc with ⟨rfl,-⟩ | ⟨t,rfl,-⟩ <;>
      exact .jump rfl Iff.rfl (by simp [hk,flyTok,enqTok,setTok])
  | unlink r p thief k hk =>
    exact balanced_unlink hk (h.head c r p (by simp [hk,headTok]))
  | sizeDec r k hk =>
    refine .queue (r := r) (fun t ht => by simp [setRunqueue,ht]) rfl ?_
    simp [hk,setRunqueue,flyTok,enqTok,setTok]
  | mqMark r p k hk =>
    have ho := runnable_eq_one (hC.taking c p (by rw [hk]; rfl))
    refine .turn (p := p) .running ?_ ?_ ?_ ?_
    · simp
    · intro r
      by_cases hrp : r = p <;> simp [hrp]
    · intro hne
      simp [hk,flyTok,enqTok,setTok,Ne.symm hne]
    · simp only [hk,weight_cons,flyTok,enqTok,setTok,ho,if_true,reduceCtorEq,if_false]
      omega
  | mqSwtch r p k hk =>
    obtain ⟨H,-,-,-,hst,rfl⟩ := hok.rule hk
    obtain rfl := hok.own r hst
    have hsaved := Core.resumes hC (p := p) (by rw [hk]; rfl) hst
    refine Balanced.switch (s.frames (.kstack p)) rfl Iff.rfl ?_ ?_ ?_
    · simp [code,switchTo,setCpu,goto,hst,hsaved.stack]
    · simp [hk,flyTok,enqTok,setTok]
    · simp [weight_kstack hsaved.wf (flyTok_onSched q),hsaved.calm.settled q,hsaved.calm.queued q]
  | rrTake i p k hk | rrSwtch p k hk | rrBack p k hk =>
    exact absurd (hok.rule hk) (by rintro ⟨H,-,h,-⟩; cases h)
  | _ => exact .jump rfl Iff.rfl (by simp [‹code s c = _›,flyTok,enqTok,setTok])

theorem headTok_onSched (r : cfg.CpuId) (q : cfg.Slot) (pc : Pc cfg) (h : onSched pc = false) :
    headTok r q pc = 0 := by
  cases pc <;> first | rfl | cases h

theorem decTok_onSched (r : cfg.CpuId) (pc : Pc cfg) (h : onSched pc = false) : decTok r pc = 0 := by
  cases pc <;> first | rfl | cases h

theorem weight_append_zero {w : Pc cfg → ℕ} {xs : List (Pc cfg)} (h : ∀ pc ∈ xs, w pc = 0) :
    weight w (xs++k) = weight w k := by
  induction xs with
  | nil => rfl
  | cons y xs ih =>
    rw [List.forall_mem_cons] at h
    simp only [List.cons_append,weight_cons,h.1,ih h.2,Nat.zero_add]

theorem SameQueue.swap (ys xs : List (Pc cfg)) (hy : ∀ pc ∈ ys, onSched pc = false)
    (hx : ∀ pc ∈ xs, onSched pc = false) : SameQueue (ys++k) (xs++k) := by
  refine ⟨fun q => ?_,fun r q => ?_,fun r => ?_⟩
  · rw [weight_append_zero fun pc h => flyTok_onSched q pc (hx pc h),
      weight_append_zero fun pc h => flyTok_onSched q pc (hy pc h)]
  · rw [weight_append_zero fun pc h => headTok_onSched r q pc (hx pc h),
      weight_append_zero fun pc h => headTok_onSched r q pc (hy pc h)]
  · rw [weight_append_zero fun pc h => decTok_onSched r pc (hx pc h),
      weight_append_zero fun pc h => decTok_onSched r pc (hy pc h)]

theorem QueueChange.jump {pc : Pc cfg} (xs : List (Pc cfg)) (hrq : s₁.runqueue = s.runqueue)
    (hk : code s c = pc::k) (hpc : onSched pc = false) (hx : ∀ pc ∈ xs, onSched pc = false) :
    QueueChange s (goto s₁ c (xs++k)) c :=
  .same hrq (by rw [code_goto,hk]; exact .swap [pc] xs (by simpa using hpc) hx)

theorem QueueChange.step (hrq : s₁.runqueue = s.runqueue) (hk : SameQueue (code s c) k) :
    QueueChange s (goto s₁ c k) c :=
  .same hrq (by rwa [code_goto])

theorem QueueChange.of_effect (hC : Core true s) (he : Effect true s c cl x s') :
    QueueChange s s' c := by
  have hok := hC.cpu c
  cases he with
  | quiet hq =>
    obtain ⟨k,hf,hd⟩ := hq.frames
    have hcode : code s' c = k := by rw [code,hf,(hq.cpu c).stack,update_self]
    refine .same hq.runqueue ?_
    rw [hcode]
    exact ⟨fun q => (hd.debt (.fly q)).le,fun r q => hd.debt (.head r q),fun r => hd.debt (.dec r)⟩
  | execName n k p hk => exact .jump [] rfl hk rfl (by simp)
  | alloc cur i k p hk =>
    exact .jump [.release .ptable,.allocStack cur p] rfl hk rfl (by simp [onSched])
  | allocFail pc cur np k hk hpc =>
    rcases hpc with rfl | rfl <;> exact .jump [] rfl hk rfl (by simp)
  | allocOk cur np k hk => exact .jump [.forkCopy cur np] rfl hk rfl (by simp [onSched])
  | forkCopy cur np k hk =>
    exact .jump [.acquire .ptable,.forkRun np] rfl hk rfl (by simp [onSched])
  | forkRun np k hk =>
    exact .jump [.forkSeek np 0 cfg.nproc none] rfl hk rfl (by simp [onSched])
  | enqueue r p k hk =>
    refine .enqueue r p rfl ?_
    rw [code_goto,hk]
    exact .swap [.enqueue r p] [] (by simp [onSched]) (by simp)
  | yield p k hk =>
    exact .jump [.acquire .ptable,.yieldLocked p] rfl hk rfl (by simp [onSched])
  | yieldLocked p k hk =>
    exact .jump [.acquire (.rq c),.enqueue c p,.release (.rq c),.yieldRunnable p] rfl hk rfl
      (by simp [onSched])
  | yieldRunnable p k hk => exact .jump [.sched,.release .ptable] rfl hk rfl (by simp [onSched])
  | sched p k b hk =>
    exact .jump [.release .ptable,.swtch p c b] rfl hk rfl (by simp [onSched])
  | swtch p cur b k hk =>
    obtain ⟨H,-,-,hst,hcalm,hw⟩ := hok.rule hk
    obtain rfl := hok.cur cur (by rw [hk]; rfl)
    rw [hst] at hw
    refine .same rfl ?_
    rw [hok.switchFrom_code hst,hk]
    refine ⟨fun q => by simp [flyTok],fun r q => ?_,fun r => ?_⟩
    · simp [headTok,weight_kstack hw (headTok_onSched r q)]
    · simp [decTok,weight_kstack hw (decTok_onSched r)]
  | sleepLocked p ch l k hk =>
    exact .jump [.sched,.sleepAwake p l] rfl hk rfl (by simp [onSched])
  | wakeHit i ch j k hk =>
    exact .jump [.acquire (.rq c),.enqueue c j,.release (.rq c),.wakeupSet j ch] rfl hk rfl
      (by simp [onSched])
  | wakeupSet j ch k hk => exact .jump [.wakeup1 (j+1) ch] rfl hk rfl (by simp [onSched])
  | killHit pid i p k hk | reap p i kids q k hk =>
    exact .jump [.release .ptable] rfl hk rfl (by simp [onSched])
  | exitEnd p i k hk => exact .jump [.sched,.zombieExit] rfl hk rfl (by simp [onSched])
  | finished k hk => exact .jump [.waitforkLoop] rfl hk rfl (by simp [onSched])
  | dequeue pc r p thief k hk hpc hq =>
    have hz : (∀ q, weight (flyTok q) k = 0) ∧ (∀ t q, weight (headTok t q) k = 0) := by
      rcases hpc with ⟨rfl,-⟩ | ⟨t,rfl,-⟩
      · obtain ⟨H,-,-,-,-,rfl⟩ := hok.rule hk
        simp
      · obtain ⟨H,-,-,-,-,-,rfl⟩ := hok.rule hk
        simp [flyTok,headTok]
    refine .dequeue r p rfl hq ?_ ?_ ?_
    · intro q
      simp [code_goto,flyTok,hz.1 q]
    · intro t q h
      simpa [code_goto,headTok,hz.2 t q] using h
    · intro t
      rcases hpc with ⟨rfl,-⟩ | ⟨u,rfl,-⟩ <;> simp [code_goto,hk,decTok]
  | unlink r p thief k hk =>
    have hz : (∀ q, weight (flyTok q) k = 0) ∧ (∀ t q, weight (headTok t q) k = 0) := by
      obtain ⟨H,-,hw⟩ := hok.rule hk
      cases thief with
      | none =>
        obtain ⟨-,-,-,rfl⟩ := hw
        simp
      | some =>
        obtain ⟨-,-,-,-,rfl⟩ := hw
        simp [flyTok,headTok]
    refine .unlink r p thief k hk rfl ?_ ?_ ?_
    · intro q h
      cases thief with
      | none => simpa [code_goto,unlinked,flyTok,hz.1 q] using h
      | some => simp [code_goto,unlinked,flyTok,hz.1 q] at h
    · intro t q
      cases thief <;> simp [code_goto,unlinked,headTok,hz.2 t q]
    · intro t
      cases thief <;> simp [code_goto,unlinked,hk,decTok,Nat.add_comm]
  | sizeDec r k hk =>
    refine .sizeDec r rfl ?_ ?_ ?_
    · simp [code_goto,hk,flyTok]
    · simp [code_goto,hk,headTok]
    · simp [code_goto,hk,decTok,Nat.add_comm]
  | mqMark r p k hk =>
    exact .step (by simp) (by rw [hk]; exact ⟨by simp [flyTok],by simp [headTok],by simp [decTok]⟩)
  | mqSwtch r p k hk =>
    obtain ⟨H,-,-,-,hst,rfl⟩ := hok.rule hk
    obtain rfl := hok.own r hst
    have hsaved := Core.resumes hC (p := p) (by rw [hk]; rfl) hst
    refine .same rfl ?_
    rw [hsaved.switchTo_code hst,hk]
    refine ⟨fun q => ?_,fun t q => ?_,fun t => ?_⟩
    · rw [weight_kstack hsaved.wf (flyTok_onSched q)]
      exact Nat.zero_le _
    · simp [headTok,weight_kstack hsaved.wf (headTok_onSched t q)]
    · simp [decTok,weight_kstack hsaved.wf (decTok_onSched t)]
  | rrTake i p k hk | rrSwtch p k hk | rrBack p k hk =>
    exact absurd (hok.rule hk) (by rintro ⟨H,-,h,-⟩; cases h)
  | _ =>
    exact .step rfl (by rw [‹code s c = _›]; exact ⟨by simp [flyTok],by simp [headTok],by simp [decTok]⟩)

end
end Xv6.Runqueue
