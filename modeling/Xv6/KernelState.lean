import Xv6.SchedLog

/-!
# The state of the scheduling kernel

The process table, the CPUs, the spin locks and the runqueues of `proc.c`, with any table size and
any number of CPUs. Each kernel stack and each CPU's scheduler stack holds the list of the program
points still to be executed on it, innermost call first, and the stack pointer of a CPU names one of
these stacks. `swtch` only moves it, so whether two CPUs can be on one kernel stack is a question
about the code.

A program point stands before one piece of straight-line code without lock operations, or before one
lock operation or `swtch`. The pieces are cut further where an interrupt or another CPU could tell
the difference. The number of a `Context` and the counter `scheds` say whether the context is the
one saved by the latest `sched()`.
-/
namespace Xv6.KernelState
open SchedLog

structure Config where
  nproc : ℕ
  ncpu : ℕ
  nproc_pos : 0 < nproc
  ncpu_pos : 0 < ncpu

abbrev Config.Slot (cfg : Config) := Fin cfg.nproc

abbrev Config.CpuId (cfg : Config) := Fin cfg.ncpu

def Config.bsp (cfg : Config) : cfg.CpuId := ⟨0,cfg.ncpu_pos⟩

/-- `ptable.lock`, the runqueue locks, and all other spin locks of the kernel. -/
inductive Lock (cfg : Config) where
  | ptable
  | rq (r : cfg.CpuId)
  | other (n : ℕ)
  deriving DecidableEq

def tickslock {cfg : Config} : Lock cfg := .other 0

inductive Stack (cfg : Config) where
  | kstack (p : cfg.Slot)
  | sched (c : cfg.CpuId)
  deriving DecidableEq, Fintype

/-- Sleep channels: `wait` uses the address of the process, all other callers
addresses of their own, `&ticks` being the first. -/
inductive Chan (cfg : Config) where
  | proc (p : cfg.Slot)
  | addr (n : ℕ)
  deriving DecidableEq

/-- Hardware interrupts: the timer, and a device whose handler takes a lock. -/
inductive Irq where
  | timer
  | dev (l : ℕ)
  deriving DecidableEq

/-- Program points. A comment gives the function and what is about to run. -/
inductive Pc (cfg : Config) where
  -- spinlock.c: before `pushcli`, in the `xchg` loop, before `release`
  | acquire (l : Lock cfg)
  | spin (l : Lock cfg)
  | release (l : Lock cfg)
  | panic (msg : String)
  -- trap.c
  | trap (irq : Irq) (usr : Bool)
  | tick
  | trapKilled (timer usr : Bool)
  | trapYield (timer usr : Bool)
  | trapLast (usr : Bool)
  | iret
  | sysret
  -- user code, kernel code without a lock, kernel code under lock `l`
  | user
  | kernel
  | locked (l : ℕ) (irq : Bool)
  | execName (name : Name)
  -- fork and allocproc
  | allocproc (cur : cfg.Slot) (i : ℕ)
  | allocStack (cur np : cfg.Slot)
  | forkCopy (cur np : cfg.Slot)
  | forkRun (np : cfg.Slot)
  | forkSeek (np : cfg.Slot) (i min : ℕ) (target : Option cfg.CpuId)
  | enqueue (r : cfg.CpuId) (p : cfg.Slot)
  | forkret
  -- yield, sched
  | yield
  | yieldLocked (p : cfg.Slot)
  | yieldRunnable (p : cfg.Slot)
  | sched
  | swtch (p : cfg.Slot) (cur : cfg.CpuId) (intena : Bool)
  | schedIntena (cur : cfg.CpuId) (intena : Bool)
  -- sleep, wakeup, kill
  | sleep (ch : Chan cfg) (l : Lock cfg)
  | sleepLocked (p : cfg.Slot) (ch : Chan cfg) (l : Lock cfg)
  | sleepAwake (p : cfg.Slot) (l : Lock cfg)
  | wakeup (ch : Chan cfg)
  | wakeup1 (i : ℕ) (ch : Option (Chan cfg))
  | wakeupSet (j : cfg.Slot) (ch : Option (Chan cfg))
  | killScan (pid : ℤ) (i : ℕ)
  -- exit, wait, sys_waitfork
  | exit
  | exitClosed (p : cfg.Slot)
  | exitLocked (p : cfg.Slot)
  | exitReparent (p : cfg.Slot) (i : ℕ)
  | zombieExit
  | wait
  | waitScan (p : cfg.Slot) (i : ℕ) (havekids : Bool)
  | waitfork
  | waitforkLoop
  -- scheduler, multiple runqueues; work_steal and dequeue
  | mqLoop (r : cfg.CpuId)
  | mqCheck (r : cfg.CpuId)
  | stealScan (r : cfg.CpuId) (i max : ℕ) (target : Option cfg.CpuId)
  | stealCheck (r t : cfg.CpuId)
  | unlink (r : cfg.CpuId) (p : cfg.Slot) (thief : Option cfg.CpuId)
  | sizeDec (r : cfg.CpuId)
  | mqTake (r : cfg.CpuId) (p : cfg.Slot)
  | mqMark (r : cfg.CpuId) (p : cfg.Slot)
  | mqSwtch (r : cfg.CpuId) (p : cfg.Slot)
  | mqBack (r : cfg.CpuId) (p : cfg.Slot)
  | mqIdle (r : cfg.CpuId) (p : cfg.Slot)
  -- scheduler, round robin
  | rrLoop
  | rrScan (i : ℕ)
  | rrSwtch (p : cfg.Slot)
  | rrBack (p : cfg.Slot)

/-- `struct context *`: the stack it lies on, and which save it is. -/
structure Context (cfg : Config) where
  stack : Stack cfg
  seq : ℕ
  deriving DecidableEq

/-- The fields of `struct proc` that the scheduling code uses. -/
structure Proc (cfg : Config) where
  state : ProcState
  pid : ℤ
  parent : Option cfg.Slot
  chan : Option (Chan cfg)
  killed : Bool
  name : Name
  context : Context cfg
  scheds : ℕ

/-- `struct cpu`, with the registers that matter: the stack pointer, the
interrupt flag and the page directory in use (`none` for `kpgdir`). -/
structure Cpu (cfg : Config) where
  stack : Stack cfg
  proc : Option cfg.Slot
  scheduler : Context cfg
  ncli : ℕ
  intena : Bool
  fl : Bool
  pgdir : Option cfg.Slot

/-- `struct runqueue`: the linked list as the list of its elements. -/
structure Runqueue (cfg : Config) where
  size : ℕ
  queue : List cfg.Slot

structure State (cfg : Config) where
  proc : cfg.Slot → Proc cfg
  cpu : cfg.CpuId → Cpu cfg
  frames : Stack cfg → List (Pc cfg)
  lock : Lock cfg → Option cfg.CpuId
  runqueue : cfg.CpuId → Runqueue cfg
  nextpid : ℤ
  initproc : cfg.Slot
  log : Log
  clockLog : ℤ → Fin 3 → Clock
  isnotFirstRunning : ℤ → Bool

end Xv6.KernelState
