import Xv6.KernelState

/-!
# The steps of the scheduling kernel

One step executes one program point on one CPU. `mq` is `IS_MULTIPLE_RUNQUEUE`; the round-robin
configuration is `mq = false`. What the source leaves to its environment is an input of the step:
system calls, the success of an allocation, interrupts, the clock, and the locks of kernel code
outside `proc.c`.

`acquire` and `release` are those of `spinlock.c`; a CPU that waits has no step until the lock is
free. The balanced `pushcli`/`popcli` pairs of `myproc`, `mycpuid` and `holding` are left out, as is
`kmem.lock`, which nothing is acquired under. A function outside `proc.c` that takes a spin lock is
`locked`: under the lock it may call `wakeup`, or `sleep` on that lock, and then releases it.

`panic` pushes a program point that has no step. `exit` drops the frames of its caller. The arrays
that are indexed by a pid are taken without their bound.
-/
namespace Xv6.KernelStep
open SchedLog KernelState
open Function (update)

/-- What user code can do: a system call, as far as it concerns scheduling, or
an exception. -/
inductive Op where
  | fork | exit | wait | bufwrite | waitfork | other | fault
  | kill (pid : ℤ)
  | exec (name : Name)

inductive Act (cfg : Config) where
  | go
  | user (op : Op)
  | alloc (ok : Bool)
  | enter (l : ℕ)
  | wake (ch : Chan cfg)
  | sleepOn (ch : Chan cfg)
  | leave
  | intr (irq : Irq)

section
variable {cfg : Config}

/-- The program points still to run on the stack of CPU `c`. -/
def code (s : State cfg) (c : cfg.CpuId) : List (Pc cfg) := s.frames (s.cpu c).stack

/-- Replace what is still to run on the current stack of `c`. -/
def goto (s : State cfg) (c : cfg.CpuId) (k : List (Pc cfg)) : State cfg :=
  {s with frames := update s.frames (s.cpu c).stack k}

def setProc (s : State cfg) (p : cfg.Slot) (f : Proc cfg → Proc cfg) : State cfg :=
  {s with proc := update s.proc p (f (s.proc p))}

def setCpu (s : State cfg) (c : cfg.CpuId) (f : Cpu cfg → Cpu cfg) : State cfg :=
  {s with cpu := update s.cpu c (f (s.cpu c))}

def setLock (s : State cfg) (l : Lock cfg) (o : Option cfg.CpuId) : State cfg :=
  {s with lock := update s.lock l o}

def setRunqueue (s : State cfg) (r : cfg.CpuId) (f : Runqueue cfg → Runqueue cfg) : State cfg :=
  {s with runqueue := update s.runqueue r (f (s.runqueue r))}

def setState (s : State cfg) (p : cfg.Slot) (st : ProcState) : State cfg :=
  setProc s p fun q => {q with state := st}

def logProc (s : State cfg) (c : cfg.CpuId) (cl : Clock) (p : cfg.Slot) (ev : Event)
    (next : ProcState) : State cfg :=
  {s with log := writelog s.log cl c.val (s.proc p).pid (s.proc p).name ev (s.proc p).state next}

def logClock (s : State cfg) (cl : Clock) (p : cfg.Slot) (i : Fin 3) : State cfg :=
  let pid := (s.proc p).pid
  {s with clockLog := update s.clockLog pid (update (s.clockLog pid) i cl)}

/-- `panic` turns interrupts off and never returns. -/
def panic (s : State cfg) (c : cfg.CpuId) (msg : String) : State cfg :=
  goto (setCpu s c fun d => {d with fl := false}) c (.panic msg::code s c)

/-- A use of `myproc()`; through a null pointer it faults, and `trap` panics. -/
def withProc (s : State cfg) (c : cfg.CpuId) (f : cfg.Slot → State cfg) : State cfg :=
  match (s.cpu c).proc with
  | none => panic s c "trap : no proc"
  | some p => f p

def killed (s : State cfg) (c : cfg.CpuId) : Bool :=
  match (s.cpu c).proc with
  | none => false
  | some p => (s.proc p).killed

/-- The loops over the process table run `i` from 0 while there is a slot. -/
def slot? (cfg : Config) (i : ℕ) : Option cfg.Slot := if h : i < cfg.nproc then some ⟨i,h⟩ else none

def cpu? (cfg : Config) (i : ℕ) : Option cfg.CpuId := if h : i < cfg.ncpu then some ⟨i,h⟩ else none

def pushcli (c : Cpu cfg) : Cpu cfg :=
  {c with
    fl := false
    intena := if c.ncli = 0 then c.fl else c.intena
    ncli := c.ncli+1}

def popcli (c : Cpu cfg) : Except String (Cpu cfg) :=
  if c.fl then .error "popcli - interruptible"
  else if c.ncli = 0 then .error "popcli"
  else .ok {c with ncli := c.ncli-1, fl := c.ncli-1 = 0 && c.intena}

def incInt (n : ℤ) : ℤ := if n = 2^31-1 then -2^31 else n+1

/-- A hardware interrupt, taken with interrupts enabled on whatever stack the
CPU is on. The gate clears the interrupt flag; `iret` sets it again. -/
def interrupt (s : State cfg) (c : cfg.CpuId) (irq : Irq) : Option (State cfg) :=
  if (s.cpu c).fl then
    let usr := match code s c with
      | .user::_ => true
      | _ => false
    some (goto (setCpu s c fun d => {d with fl := false}) c (.trap irq usr::.iret::code s c))
  else none

/-- The part of `dequeue` before `acquire(&ptable.lock)`. The runqueue lock is
held, so the element read here is still the first one when it is unlinked. -/
def dequeue (s : State cfg) (c r : cfg.CpuId) (thief : Option cfg.CpuId) (k : List (Pc cfg)) :
    Option (State cfg) :=
  if (s.runqueue r).size = 0 then some (panic s c "dequeue : empty runqueue")
  else match (s.runqueue r).queue with
    | [] => none
    | p::_ => some (goto s c (.acquire .ptable::.unlink r p thief::k))

/-- What follows the unlinking of `p` from runqueue `r`: the rest of `dequeue`, and
then the scheduler that takes `p`, or the `enqueue` of the thief. -/
def unlinked (r : cfg.CpuId) (p : cfg.Slot) (thief : Option cfg.CpuId) (k : List (Pc cfg)) :
    List (Pc cfg) :=
  match thief with
  | none => .release .ptable::.sizeDec r::.release (.rq r)::.mqTake r p::k
  | some t => .release .ptable::.sizeDec r::.acquire .ptable::.enqueue t p::.release .ptable::k

/-- The part of `allocproc` after `found:` that runs under the lock. -/
def allocSlot (s : State cfg) (c : cfg.CpuId) (cl : Clock) (p : cfg.Slot) : State cfg :=
  let s₁ := setProc {s with nextpid := incInt s.nextpid} p fun q => {q with pid := s.nextpid}
  setState (logProc s₁ c cl p .allocproc .embryo) p .embryo

/-- The kernel stack that `allocproc` builds: `forkret`, then the return to user space. -/
def buildStack (s : State cfg) (np : cfg.Slot) : State cfg :=
  setProc {s with frames := update s.frames (.kstack np) [.forkret,.user]} np
    fun q => {q with context := ⟨.kstack np,0⟩, scheds := 0}

/-- The fields of the child that `fork` copies from `cur`. -/
def copyProc (s : State cfg) (cl : Clock) (cur np : cfg.Slot) : State cfg :=
  let s₁ := setProc s np fun q => {q with parent := some cur, name := (s.proc cur).name}
  logClock s₁ cl np 0

def freeSlot (s : State cfg) (c : cfg.CpuId) (cl : Clock) (q : cfg.Slot) : State cfg :=
  setProc (logProc s c cl q .wait .unused) q fun r =>
    {r with
      pid := 0
      parent := none
      name := r.name.set 0 0 name_pos
      killed := false
      state := .unused}

def takeProc (s : State cfg) (c : cfg.CpuId) (p : cfg.Slot) : State cfg :=
  setCpu s c fun d => {d with proc := some p, pgdir := some p}

/-- The bookkeeping of `scheduler` up to `p->state = RUNNING`. -/
def markRunning (s : State cfg) (c : cfg.CpuId) (cl : Clock) (p : cfg.Slot) : State cfg :=
  let s₁ := if s.isnotFirstRunning (s.proc p).pid then s
    else {logClock s cl p 1 with
      isnotFirstRunning := update s.isnotFirstRunning (s.proc p).pid true}
  setState (logProc s₁ c cl p .tick .running) p .running

/-- `swtch(&(c->scheduler), p->context)`; `k` is where the scheduler resumes. -/
def switchTo (s : State cfg) (c : cfg.CpuId) (p : cfg.Slot) (k : List (Pc cfg)) : State cfg :=
  setCpu (goto s c k) c fun d =>
    {d with scheduler := ⟨d.stack,d.scheduler.seq+1⟩, stack := (s.proc p).context.stack}

/-- `swtch(&p->context, ...->scheduler)`; `k` is where the process resumes. -/
def switchFrom (s : State cfg) (c : cfg.CpuId) (p : cfg.Slot) (ctx : Context cfg)
    (k : List (Pc cfg)) : State cfg :=
  setCpu (setProc (goto s c k) p fun q => {q with context := ⟨(s.cpu c).stack,q.scheds⟩})
    c fun d => {d with stack := ctx.stack}

def giveUp (s : State cfg) (c : cfg.CpuId) (p : cfg.Slot) (st : ProcState)
    (k : List (Pc cfg)) : State cfg :=
  goto (setState s p st) c (.sched::k)

end

section
variable {cfg : Config} (mq : Bool) (s : State cfg) (c : cfg.CpuId) (cl : Clock)

/-- One pass through the body of `wakeup1`'s loop. -/
def wakeupSlot (ch : Option (Chan cfg)) (k : List (Pc cfg)) (j : cfg.Slot) : State cfg :=
  if (s.proc j).state = .sleeping ∧ (s.proc j).chan = ch then
    let s₁ := logProc s c cl j .wakeup .runnable
    if mq then
      goto s₁ c (.acquire (.rq c)::.enqueue c j::.release (.rq c)::.wakeupSet j ch::k)
    else goto s₁ c (.wakeupSet j ch::k)
  else goto s c (.wakeup1 (j+1) ch::k)

/-- One pass through the loop of `wait` that looks for an exited child. -/
def waitSlot (p : cfg.Slot) (kids : Bool) (k : List (Pc cfg)) (q : cfg.Slot) : State cfg :=
  if (s.proc q).parent ≠ some p then goto s c (.waitScan p (q+1) kids::k)
  else if (s.proc q).state = .zombie then
    goto (freeSlot s c cl q) c (.release .ptable::k)
  else goto s c (.waitScan p (q+1) true::k)

/-- The checks of `sched`, in the order of the source, up to its `swtch`. -/
def sched (k : List (Pc cfg)) : State cfg :=
  if s.lock .ptable ≠ some c then panic s c "sched ptable.lock"
  else if (s.cpu c).ncli ≠ 1 then panic s c "sched locks"
  else withProc s c fun p =>
    if (s.proc p).state = .running then panic s c "sched running"
    else if (s.cpu c).fl then panic s c "sched interruptible"
    else
      let s₁ := setProc s p fun q => {q with scheds := q.scheds+1}
      if mq then goto s₁ c (.release .ptable::.swtch p c (s.cpu c).intena::k)
      else goto s₁ c (.swtch p c (s.cpu c).intena::k)

def exec (k : List (Pc cfg)) : Pc cfg → Option (State cfg)
  | .acquire l =>
    let s₁ := setCpu s c pushcli
    if s.lock l = some c then some (panic s₁ c "acquire") else some (goto s₁ c (.spin l::k))
  | .spin l => if s.lock l = none then some (goto (setLock s l (some c)) c k) else none
  | .release l =>
    if s.lock l ≠ some c then some (panic s c "release")
    else
      let s₁ := setLock s l none
      match popcli (s.cpu c) with
      | .error msg => some (panic s₁ c msg)
      | .ok d => some (goto (setCpu s₁ c fun _ => d) c k)
  | .panic _ => none
  | .trap .timer usr =>
    if c = cfg.bsp then some (goto s c (.acquire tickslock::.tick::.trapKilled true usr::k))
    else some (goto s c (.trapKilled true usr::k))
  | .trap (.dev l) usr =>
    some (goto s c (.acquire (.other l)::.locked l true::.trapKilled false usr::k))
  | .tick => some (goto s c (.wakeup (.addr 0)::.release tickslock::k))
  | .trapKilled timer usr =>
    if killed s c && usr then some (goto s c [.exit]) else some (goto s c (.trapYield timer usr::k))
  | .trapYield timer usr =>
    match (s.cpu c).proc with
    | none => some (goto s c (.trapLast usr::k))
    | some p =>
      if (s.proc p).state = .running ∧ timer then some (goto s c (.yield::.trapLast usr::k))
      else some (goto s c (.trapLast usr::k))
  | .trapLast usr => if killed s c && usr then some (goto s c [.exit]) else some (goto s c k)
  | .iret => some (goto (setCpu s c fun d => {d with fl := true}) c k)
  | .sysret => if killed s c then some (goto s c [.exit]) else some (goto s c k)
  | .user | .kernel | .locked _ _ | .allocStack _ _ | .forkCopy _ _ => none
  | .execName n => some (withProc s c fun p => goto (setProc s p fun q => {q with name := n}) c k)
  | .allocproc cur i =>
    match slot? cfg i with
    | none => some (goto s c (.release .ptable::k))
    | some p =>
      if (s.proc p).state = .unused then
        some (goto (allocSlot s c cl p) c (.release .ptable::.allocStack cur p::k))
      else some (goto s c (.allocproc cur (i+1)::k))
  | .forkRun np =>
    let s₁ := setState (logProc s c cl np .fork .runnable) np .runnable
    if mq then some (goto s₁ c (.forkSeek np 0 cfg.nproc none::k))
    else some (goto s₁ c (.release .ptable::k))
  | .forkSeek np i min target =>
    match cpu? cfg i with
    | some r =>
      if (s.runqueue r).size < min then
        some (goto s c (.forkSeek np (i+1) (s.runqueue r).size (some r)::k))
      else some (goto s c (.forkSeek np (i+1) min target::k))
    | none =>
      match target with
      | none => some (panic s c "target not exist")
      | some r =>
        some (goto s c (.acquire (.rq r)::.enqueue r np::.release (.rq r)::.release .ptable::k))
  | .enqueue r p =>
    if ∃ q ∈ (s.runqueue r).queue, (s.proc q).pid = (s.proc p).pid then
      some (panic s c "enqueue: push same pid")
    else
      some (goto (setRunqueue s r fun rq => ⟨rq.size+1,rq.queue++[p]⟩) c k)
  | .forkret =>
    if mq then some (goto s c (.kernel::k)) else some (goto s c (.release .ptable::.kernel::k))
  | .yield =>
    some (withProc s c fun p =>
      goto (logProc s c cl p .yield .runnable) c (.acquire .ptable::.yieldLocked p::k))
  | .yieldLocked p =>
    if mq then
      some (goto s c (.acquire (.rq c)::.enqueue c p::.release (.rq c)::.yieldRunnable p::k))
    else some (goto s c (.yieldRunnable p::k))
  | .yieldRunnable p => some (giveUp s c p .runnable (.release .ptable::k))
  | .sched => some (sched mq s c k)
  | .swtch p cur intena =>
    if mq then
      some (switchFrom s c p (s.cpu cur).scheduler (.acquire .ptable::.schedIntena cur intena::k))
    else some (switchFrom s c p (s.cpu c).scheduler (.schedIntena cur intena::k))
  | .schedIntena cur intena =>
    some (goto (setCpu s (if mq then cur else c) fun d => {d with intena := intena}) c k)
  | .sleep ch l =>
    match (s.cpu c).proc with
    | none => some (panic s c "sleep")
    | some p =>
      if l = .ptable then some (goto s c (.sleepLocked p ch l::k))
      else some (goto s c (.acquire .ptable::.release l::.sleepLocked p ch l::k))
  | .sleepLocked p ch l =>
    let s₁ := setProc s p fun q => {q with chan := some ch}
    some (giveUp (logProc s₁ c cl p .sleep .sleeping) c p .sleeping (.sleepAwake p l::k))
  | .sleepAwake p l =>
    let s₁ := setProc s p fun q => {q with chan := none}
    if l = .ptable then some (goto s₁ c k)
    else some (goto s₁ c (.release .ptable::.acquire l::k))
  | .wakeup ch =>
    if s.lock .ptable = some c then some (panic s c "already locked!\n")
    else some (goto s c (.acquire .ptable::.wakeup1 0 (some ch)::.release .ptable::k))
  | .wakeup1 i ch =>
    match slot? cfg i with
    | none => some (goto s c k)
    | some j => some (wakeupSlot mq s c cl ch k j)
  | .wakeupSet j ch => some (goto (setState s j .runnable) c (.wakeup1 (j+1) ch::k))
  | .killScan pid i =>
    match slot? cfg i with
    | none => some (goto s c (.release .ptable::k))
    | some p =>
      if (s.proc p).pid = pid then
        let s₁ := setProc s p fun q =>
          {q with
            killed := true
            state := if q.state = .sleeping then .runnable else q.state}
        some (goto s₁ c (.release .ptable::k))
      else some (goto s c (.killScan pid (i+1)::k))
  | .exit =>
    some (withProc s c fun p =>
      if p = s.initproc then panic s c "init exiting"
      else goto s c (.kernel::.exitClosed p::k))
  | .exitClosed p => some (goto s c (.acquire .ptable::.exitLocked p::k))
  | .exitLocked p =>
    some (goto s c (.wakeup1 0 ((s.proc p).parent.map .proc)::.exitReparent p 0::k))
  | .exitReparent p i =>
    match slot? cfg i with
    | some q =>
      if (s.proc q).parent = some p then
        let s₁ := setProc s q fun r => {r with parent := some s.initproc}
        if (s.proc q).state = .zombie then
          some (goto s₁ c (.wakeup1 0 (some (.proc s.initproc))::.exitReparent p (i+1)::k))
        else some (goto s₁ c (.exitReparent p (i+1)::k))
      else some (goto s c (.exitReparent p (i+1)::k))
    | none =>
      some (giveUp (logProc (logClock s cl p 2) c cl p .exit .zombie) c p .zombie (.zombieExit::k))
  | .zombieExit => some (panic s c "zombie exit")
  | .wait =>
    some (withProc s c fun p => goto s c (.acquire .ptable::.waitScan p 0 false::k))
  | .waitScan p i kids =>
    match slot? cfg i with
    | some q => some (waitSlot s c cl p kids k q)
    | none =>
      if ¬ kids ∨ (s.proc p).killed then some (goto s c (.release .ptable::k))
      else some (goto s c (.sleep (.proc p) .ptable::.waitScan p 0 false::k))
  | .waitfork =>
    some (withProc s c fun p =>
      if (s.proc p).pid = 3+32 then
        goto {s with log := {s.log with finishedFork := true}} c (.waitforkLoop::k)
      else goto s c (.waitforkLoop::k))
  | .waitforkLoop =>
    if s.log.finishedFork then some (goto s c k)
    else some (goto s c (.yield::.waitforkLoop::k))
  | .mqLoop r =>
    some (goto (setCpu s c fun d => {d with fl := true}) c (.acquire (.rq r)::.mqCheck r::k))
  | .mqCheck r =>
    if (s.runqueue r).size = 0 then some (goto s c (.stealScan r 0 0 none::k))
    else dequeue s c r none k
  | .stealScan r i max target =>
    match cpu? cfg i with
    | some t =>
      if max < (s.runqueue t).size ∧ t ≠ r then
        some (goto s c (.stealScan r (i+1) (s.runqueue t).size (some t)::k))
      else some (goto s c (.stealScan r (i+1) max target::k))
    | none =>
      match target with
      | none => some (goto s c (.release (.rq r)::.mqLoop r::k))
      | some t =>
        if t = cfg.bsp then some (goto s c (.release (.rq r)::.mqLoop r::k))
        else if t = r then some (panic s c "steal itself")
        else some (goto s c (.acquire (.rq t)::.stealCheck r t::.release (.rq t)::
            .release (.rq r)::.mqLoop r::k))
  | .stealCheck r t =>
    if (s.runqueue t).size ≠ 0 then dequeue s c t (some r) k else some (goto s c k)
  | .unlink r p thief =>
    some (goto (setRunqueue s r fun rq => {rq with queue := rq.queue.tail}) c (unlinked r p thief k))
  | .sizeDec r => some (goto (setRunqueue s r fun rq => {rq with size := rq.size-1}) c k)
  | .mqTake r p => some (goto (takeProc s c p) c (.mqMark r p::k))
  | .mqMark r p => some (goto (markRunning s c cl p) c (.mqSwtch r p::k))
  | .mqSwtch r p => some (switchTo s c p (.mqBack r p::k))
  | .mqBack r p => some (goto (setCpu s c fun d => {d with pgdir := none}) c (.mqIdle r p::k))
  | .mqIdle r _ => some (goto (setCpu s c fun d => {d with proc := none}) c (.mqLoop r::k))
  | .rrLoop =>
    some (goto (setCpu s c fun d => {d with fl := true}) c (.acquire .ptable::.rrScan 0::k))
  | .rrScan i =>
    match slot? cfg i with
    | none => some (goto s c (.release .ptable::.rrLoop::k))
    | some p =>
      if (s.proc p).state = .runnable then
        some (goto (markRunning (takeProc s c p) c cl p) c (.rrSwtch p::k))
      else some (goto s c (.rrScan (i+1)::k))
  | .rrSwtch p => some (switchTo s c p (.rrBack p::k))
  | .rrBack p =>
    some (goto (setCpu s c fun d => {d with pgdir := none, proc := none}) c (.rrScan (p+1)::k))

def userOp (k : List (Pc cfg)) (p : cfg.Slot) : Op → State cfg
  | .fault =>
    goto (setCpu (setProc s p fun q => {q with killed := true}) c fun d => {d with fl := false})
      c (.trapKilled false true::.iret::.user::k)
  | op =>
    if (s.proc p).killed then goto s c [.exit]
    else
      match op with
      | .fork => goto s c (.acquire .ptable::.allocproc p 0::.sysret::.user::k)
      | .exit => goto s c [.exit]
      | .wait => goto s c (.wait::.sysret::.user::k)
      | .bufwrite => goto s c (.yield::.sysret::.user::k)
      | .waitfork => goto s c (.waitfork::.sysret::.user::k)
      | .kill pid => goto s c (.acquire .ptable::.killScan pid 0::.sysret::.user::k)
      | .exec n => goto s c (.kernel::.execName n::.sysret::.user::k)
      | .other | .fault => goto s c (.kernel::.sysret::.user::k)

def choose (k : List (Pc cfg)) : Pc cfg → Act cfg → Option (State cfg)
  | .user,.user op => some (withProc s c fun p => userOp s c k p op)
  | .kernel,.enter l => some (goto s c (.acquire (.other l)::.locked l false::.kernel::k))
  | .kernel,.wake ch => some (goto s c (.wakeup ch::.kernel::k))
  | .kernel,.leave => some (goto s c k)
  | .locked l irq,.wake ch => some (goto s c (.wakeup ch::.locked l irq::k))
  | .locked l false,.sleepOn ch => some (goto s c (.sleep ch (.other l)::.locked l false::k))
  | .locked l _,.leave => some (goto s c (.release (.other l)::k))
  | .allocStack _ np,.alloc false => some (goto (setState s np .unused) c k)
  | .allocStack cur np,.alloc true => some (goto (buildStack s np) c (.forkCopy cur np::k))
  | .forkCopy _ np,.alloc false => some (goto (setState s np .unused) c k)
  | .forkCopy cur np,.alloc true =>
    some (goto (copyProc s cl cur np) c (.acquire .ptable::.forkRun np::k))
  | _,_ => none

def step (a : Act cfg) : Option (State cfg) :=
  match code s c with
  | [] => none
  | pc::k =>
    match a with
    | .go => exec mq s c cl k pc
    | .intr irq => interrupt s c irq
    | a => choose s c cl k pc a

end

/-- The label of a step: who moves, the choice, and the clock. -/
structure Label (cfg : Config) where
  cpu : cfg.CpuId
  act : Act cfg
  clock : Clock

def stepBy {cfg : Config} (mq : Bool) (s : State cfg) (a : Label cfg) : Option (State cfg) :=
  step mq s a.cpu a.clock a.act

/-- The state after `userinit`, when the CPUs enter `scheduler`. -/
def boot (cfg : Config) (mq : Bool) : State cfg where
  proc p :=
    if p.val = 0 then
      ⟨.runnable,1,none,none,false,.ofString "initcode",⟨.kstack p,0⟩,0⟩
    else ⟨.unused,0,none,none,false,.ofString "",⟨.kstack p,0⟩,0⟩
  cpu c := ⟨.sched c,none,⟨.sched c,0⟩,0,false,false,none⟩
  frames
    | .kstack p => if p.val = 0 then [.forkret,.user] else []
    | .sched c => if mq then [.mqLoop c] else [.rrLoop]
  lock _ := none
  runqueue r := if r = cfg.bsp then ⟨1,[⟨0,cfg.nproc_pos⟩]⟩ else ⟨0,[]⟩
  nextpid := 2
  initproc := ⟨0,cfg.nproc_pos⟩
  log := .boot
  clockLog _ _ := ⟨0,0⟩
  isnotFirstRunning _ := false

end Xv6.KernelStep
