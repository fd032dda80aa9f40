import Xv6.Machine

/-!
# The scheduling event log

The types of `proc.h` that the log is made of, and `writelog` of `proc.c` taken as one uninterrupted
call. `bufsize.value` is incremented before the record is stored, so the array is a function of an
unbounded index and whether an index is inside `buf_log[BUFSIZE]` is a property to be proved, not a
type.

The calls `writelog(-1, "test", PTABLE_LOCK, ...)` around every use of `ptable.lock` never pass the
recording filter (`writelog_lock_event`), and the other modules leave them out.
-/
namespace Xv6.SchedLog

/-- `enum procstate`. A process is never in one of the last two values; they
are the lock states that the `PTABLE_LOCK` events were meant to show. -/
inductive ProcState where
  | unused | embryo | sleeping | runnable | running | zombie | acquired | released
  deriving DecidableEq, Repr

def ProcState.code : ProcState → ℤ
  | .unused => 0
  | .embryo => 1
  | .sleeping => 2
  | .runnable => 3
  | .running => 4
  | .zombie => 5
  | .acquired => 6
  | .released => 7

inductive Event where
  | allocproc | wakeup | yield | fork | tick | exit | wait | sleep | ptableLock | runqueueLock
  deriving DecidableEq, Repr

def Event.code : Event → ℤ
  | .allocproc => 0
  | .wakeup => 1
  | .yield => 2
  | .fork => 3
  | .tick => 4
  | .exit => 5
  | .wait => 6
  | .sleep => 7
  | .ptableLock => 8
  | .runqueueLock => 9

/-- The two halves of the timestamp counter that `rdtsc` returns. -/
structure Clock where
  hi : UInt32
  lo : UInt32
  deriving DecidableEq, Repr

abbrev Name := Vector UInt8 16

theorem name_pos : 0 < 16 := Nat.succ_pos 15

def Name.ofString (t : String) : Name :=
  Vector.ofFn fun i => (t.toList.map fun c => c.toNat.toUInt8).getD i.val 0

structure Entry where
  clock : Clock
  pid : ℤ
  name : Name
  eventName : Event
  prevPstate : ProcState
  nextPstate : ProcState
  cpu : ℕ
  deriving DecidableEq, Repr

def Entry.zero : Entry :=
  ⟨⟨0,0⟩,0,Vector.replicate 16 0,.allocproc,.unused,.unused,0⟩

def BUFSIZE : ℕ := 500

/-- The globals that `writelog` reads and writes. -/
structure Log where
  finishedFork : Bool
  bufsize : ℕ
  bufLog : ℕ → Entry
  endClock : Clock

def Log.boot : Log := ⟨false,0,fun _ => .zero,⟨0,0⟩⟩

def mystrcmp : List UInt8 → List UInt8 → ℤ
  | [],[] => 0
  | p::_,[] => p.toNat
  | [],q::_ => -q.toNat
  | p::ps,q::qs => if p ≠ 0 ∧ p = q then mystrcmp ps qs else (p.toNat : ℤ)-q.toNat

def bufwriteBytes : List UInt8 := [98,117,102,119,114,105,116,101,0]

def isBufwrite (pname : Name) : Bool := mystrcmp pname.toList bufwriteBytes == 0

def Log.records (b : Log) (pid : ℤ) (pname : Name) : Bool :=
  b.finishedFork && isBufwrite pname && pid != -1

/-- One whole call. `cpu` is what `mycpuid()` returns and `cl` what `rdtsc()`
returns; a full buffer still updates `end_clock`. -/
def writelog (b : Log) (cl : Clock) (cpu : ℕ) (pid : ℤ) (pname : Name)
    (ev : Event) (prev next : ProcState) : Log :=
  if b.records pid pname then
    if BUFSIZE ≤ b.bufsize then {b with endClock := cl}
    else
      {b with
        endClock := cl
        bufsize := b.bufsize+1
        bufLog := Function.update b.bufLog (b.bufsize+1) ⟨cl,pid,pname,ev,prev,next,cpu⟩}
  else b

@[simp] theorem writelog_finishedFork (b : Log) (cl : Clock) (cpu : ℕ) (pid : ℤ) (pname : Name)
    (ev : Event) (prev next : ProcState) :
    (writelog b cl cpu pid pname ev prev next).finishedFork = b.finishedFork := by
  unfold writelog
  split_ifs <;> rfl

end Xv6.SchedLog
