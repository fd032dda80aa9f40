import Xv6.KernelStep
import Xv6.Tally

/-!
# Well-formed call stacks

`Wf mq st H k` reads: the program points `k` may stand on stack `st` of a CPU that holds exactly the
locks `H`, innermost first. The rule of a program point says what it needs and with which locks it
returns, so one list describes the nest of `acquire` and `release` that the calls on the stack owe.
-/
namespace Xv6.Frames
open KernelState KernelStep Tally List

/-- How far a CPU is between a process and the scheduler. -/
inductive Mode (cfg : Config) where
  | plain
  -- scheduler: `c->proc` set; marked running; back from `swtch`; `switchkvm` done
  | taking (p : cfg.Slot)
  | switching (p : cfg.Slot)
  | back (p : cfg.Slot)
  | parted (p : cfg.Slot)
  -- process: inside `sched`, before `swtch`; once set, the CPU it is about to leave
  | leaving (cur : Option cfg.CpuId)
  deriving DecidableEq

section
variable {cfg : Config} {mq : Bool} {st : Stack cfg} {H : List (Lock cfg)} {k : List (Pc cfg)}
  {pc : Pc cfg}

def modeOf : Pc cfg → Option (Mode cfg)
  | .sched => some (.leaving none)
  | .swtch _ cur _ => some (.leaving (some cur))
  | .mqMark _ p => some (.taking p)
  | .mqSwtch _ p | .rrSwtch p => some (.switching p)
  | .mqBack _ p | .rrBack p => some (.back p)
  | .mqIdle _ p => some (.parted p)
  | _ => none

def mode : List (Pc cfg) → Mode cfg
  | [] => .plain
  | pc::k => (modeOf pc).getD (mode k)

/-- What `c->proc` is while the CPU is on its scheduler stack. -/
def Mode.target : Mode cfg → Option cfg.Slot
  | .taking p | .switching p | .back p | .parted p => some p
  | .plain | .leaving _ => none

def setTok (j : cfg.Slot) : Pc cfg → ℕ
  | .yieldRunnable p | .wakeupSet p _ => if p = j then 1 else 0
  | _ => 0

/-- A sleeping process that `wakeup1` is about to set to RUNNABLE. -/
def wakeTok (j : cfg.Slot) : Pc cfg → ℕ
  | .wakeupSet p _ => if p = j then 1 else 0
  | _ => 0

/-- A `yield` that has logged itself and not yet set the state. -/
def yieldTok (j : cfg.Slot) : Pc cfg → ℕ
  | .yieldLocked p | .yieldRunnable p => if p = j then 1 else 0
  | _ => 0

def enqTok (j : cfg.Slot) : Pc cfg → ℕ
  | .enqueue _ p | .forkSeek p _ _ _ => if p = j then 1 else 0
  | _ => 0

def flyTok (j : cfg.Slot) : Pc cfg → ℕ
  | .mqTake _ p | .mqMark _ p => if p = j then 1 else 0
  | _ => 0

/-- A slot that a `fork` has allocated and not yet made RUNNABLE. -/
def forkTok (j : cfg.Slot) : Pc cfg → ℕ
  | .allocStack _ p | .forkCopy _ p | .forkRun p => if p = j then 1 else 0
  | _ => 0

/-- A slot that `fork` has not yet given its name. -/
def rawTok (j : cfg.Slot) : Pc cfg → ℕ
  | .allocStack _ p | .forkCopy _ p => if p = j then 1 else 0
  | _ => 0

def builtTok (j : cfg.Slot) : Pc cfg → ℕ
  | .forkCopy _ p | .forkRun p => if p = j then 1 else 0
  | _ => 0

def decTok (r : cfg.CpuId) : Pc cfg → ℕ
  | .sizeDec t => if t = r then 1 else 0
  | _ => 0

/-- The first element of runqueue `r`, read by `dequeue` and not yet unlinked. -/
def headTok (r : cfg.CpuId) (j : cfg.Slot) : Pc cfg → ℕ
  | .unlink t p _ => if t = r ∧ p = j then 1 else 0
  | _ => 0

/-- A `work_steal` for runqueue `r`, before it has the lock of its target. -/
def stealTok (r : cfg.CpuId) : Pc cfg → ℕ
  | .stealScan t _ _ _ | .stealCheck t _ => if t = r then 1 else 0
  | _ => 0

def aimTok (r : cfg.CpuId) : Pc cfg → ℕ
  | .stealScan _ _ _ (some t) | .stealCheck _ t => if t = r then 1 else 0
  | _ => 0

/-- The kinds of obligation that a stack can carry. -/
inductive Debt (cfg : Config) where
  | set (j : cfg.Slot)
  | wake (j : cfg.Slot)
  | yields (j : cfg.Slot)
  | enq (j : cfg.Slot)
  | fly (j : cfg.Slot)
  | fork (j : cfg.Slot)
  | raw (j : cfg.Slot)
  | built (j : cfg.Slot)
  | dec (r : cfg.CpuId)
  | head (r : cfg.CpuId) (j : cfg.Slot)
  | steal (r : cfg.CpuId)
  | aim (r : cfg.CpuId)

def Debt.tok : Debt cfg → Pc cfg → ℕ
  | .set j => setTok j
  | .wake j => wakeTok j
  | .yields j => yieldTok j
  | .enq j => enqTok j
  | .fly j => flyTok j
  | .fork j => forkTok j
  | .raw j => rawTok j
  | .built j => builtTok j
  | .dec r => decTok r
  | .head r j => headTok r j
  | .steal r => stealTok r
  | .aim r => aimTok r

/-- Program points that run under the lock of runqueue `r`. -/
def heldTok (r : cfg.CpuId) : Pc cfg → ℕ
  | .unlink t _ _ | .stealScan t _ _ _ | .stealCheck t _ => if r = t then 1 else 0
  | _ => 0

def onSched : Pc cfg → Bool
  | .mqLoop _ | .mqCheck _ | .stealScan _ _ _ _ | .stealCheck _ _ | .unlink _ _ _ | .sizeDec _
  | .mqTake _ _ | .mqMark _ _ | .mqSwtch _ _ | .mqBack _ _ | .mqIdle _ _ => true
  | _ => false

/-- Waiting for a lock, with its `pushcli` done. -/
def spinning : List (Pc cfg) → ℕ
  | .spin _::_ => 1
  | _ => 0

/-- A waiting CPU is well formed as it was before its `pushcli`. -/
def unspin : List (Pc cfg) → List (Pc cfg)
  | .spin l::k => .acquire l::k
  | k => k

def isKstack : Stack cfg → Prop
  | .kstack _ => True
  | .sched _ => False

def schedPanics : List String :=
  ["sched ptable.lock","sched locks","sched running","sched interruptible"]

/-- `acquire` of `l` over `k` with the locks `H` held. Two runqueue locks are
only taken by `work_steal`. -/
structure Enter (mq : Bool) (l : Lock cfg) (H : List (Lock cfg)) (k : List (Pc cfg)) : Prop where
  fresh : l ∉ H
  settled : l = .ptable → ∀ j, weight (setTok j) k = 0
  queued : (∃ j, weight (enqTok j) k ≠ 0) → .ptable ∈ H ∨ ∃ r, .rq r ∈ H
  plain : mq = false → mode k = .plain
  entered : l = .ptable → mode k ≠ .leaving none
  steal : ∀ t, l = .rq t → (∀ r, .rq r ∉ H) ∨ ∃ r, H = [.rq r] ∧ k.head? = some (.stealCheck r t)
  own : ∀ r, l = .rq r → weight (heldTok r) k = 0

/-- Frames under which a process may give up the CPU. -/
structure Calm (k : List (Pc cfg)) : Prop where
  plain : mode k = .plain
  settled : ∀ j, weight (setTok j) k = 0
  queued : ∀ j, weight (enqTok j) k = 0

structure Steady (k : List (Pc cfg)) : Prop extends Calm k where
  unlogged : ∀ j, weight (yieldTok j) k = 0

def TrapTail (usr : Bool) (k : List (Pc cfg)) : Prop :=
  k.head? = some .iret ∧ (usr = true → k = [.iret,.user])

/-- The locks that code outside `proc.c` sleeps on, and `ptable.lock` for `wait`. -/
def Sleepable : Lock cfg → Prop
  | .rq _ => False
  | _ => True

def sysTail : List (Pc cfg) := [.sysret,.user]

/-- The rule of one program point over `k`; `W H'` says that `k` is well formed
for the locks `H'`. -/
def Rule (mq : Bool) (st : Stack cfg) (H : List (Lock cfg)) (k : List (Pc cfg))
    (W : List (Lock cfg) → Prop) : Pc cfg → Prop
  | .acquire l => Enter mq l H k ∧ W (l::H)
  | .spin _ => False
  | .release l => l ∈ H ∧ W (H.erase l)
  | .panic msg => msg ∉ schedPanics ∧ W H
  | .trap _ usr | .trapKilled _ usr | .trapYield _ usr | .trapLast usr =>
    H = [] ∧ TrapTail usr k ∧ W []
  | .tick => H = [tickslock] ∧ W []
  | .iret => H = [] ∧ W []
  | .sysret => H = [] ∧ isKstack st ∧ k = [.user]
  | .user => H = [] ∧ isKstack st ∧ k = []
  | .kernel => H = [] ∧ isKstack st ∧ Steady k ∧ W []
  | .locked l irq => H = [.other l] ∧ (irq = false → isKstack st ∧ Steady k) ∧ W []
  | .execName _ | .wait | .waitfork | .waitforkLoop =>
    H = [] ∧ isKstack st ∧ k = sysTail
  | .allocproc cur _ => H = [.ptable] ∧ st = .kstack cur ∧ k = sysTail
  | .allocStack cur _ | .forkCopy cur _ => H = [] ∧ st = .kstack cur ∧ k = sysTail
  | .forkRun _ => H = [.ptable] ∧ isKstack st ∧ k = sysTail
  | .forkSeek _ _ _ _ => mq = true ∧ H = [.ptable] ∧ isKstack st ∧ k = sysTail
  | .enqueue r _ => mq = true ∧ .ptable ∈ H ∧ .rq r ∈ H ∧ W H
  | .forkret => H = (if mq then [] else [.ptable]) ∧ isKstack st ∧ k = [.user]
  | .yield => H = [] ∧ isKstack st ∧ Calm k ∧ W []
  | .yieldLocked p | .yieldRunnable p =>
    H = [.ptable] ∧ st = .kstack p ∧ Calm k ∧ W []
  | .sched => H = [.ptable] ∧ isKstack st ∧ Calm k ∧ W [.ptable]
  | .swtch p _ _ =>
    H = (if mq then [] else [.ptable]) ∧ st = .kstack p ∧ Calm k ∧ W [.ptable]
  | .schedIntena _ _ => H = [.ptable] ∧ isKstack st ∧ W [.ptable]
  | .sleep _ l => H = [l] ∧ Sleepable l ∧ isKstack st ∧ Steady k ∧ W [l]
  | .sleepLocked p _ l | .sleepAwake p l =>
    H = [.ptable] ∧ Sleepable l ∧ st = .kstack p ∧ Steady k ∧ W [l]
  | .wakeup _ => .ptable ∉ H ∧ (∀ r, .rq r ∉ H) ∧ W H
  | .wakeup1 _ _ | .wakeupSet _ _ =>
    .ptable ∈ H ∧ (∀ r, .rq r ∉ H) ∧ (∀ j, weight (setTok j) k = 0) ∧ W H
  | .killScan _ _ => H = [.ptable] ∧ isKstack st ∧ k = sysTail
  | .exit => H = [] ∧ isKstack st ∧ k = []
  | .exitClosed p => H = [] ∧ st = .kstack p ∧ k = []
  | .exitLocked p | .exitReparent p _ => H = [.ptable] ∧ st = .kstack p ∧ k = []
  | .zombieExit => H = [.ptable] ∧ isKstack st ∧ k = []
  | .waitScan p _ _ => H = [.ptable] ∧ st = .kstack p ∧ k = sysTail
  | .mqLoop r | .mqTake r _ | .mqMark r _ | .mqSwtch r _ | .mqBack r _ | .mqIdle r _ =>
    mq = true ∧ H = [] ∧ st = .sched r ∧ k = []
  | .mqCheck r => mq = true ∧ H = [.rq r] ∧ st = .sched r ∧ k = []
  | .stealScan r _ _ target =>
    mq = true ∧ H = [.rq r] ∧ st = .sched r ∧ k = [] ∧ target ≠ some r
  | .stealCheck r t =>
    mq = true ∧ H = [.rq t,.rq r] ∧ st = .sched r ∧ t ≠ r ∧
      k = [.release (.rq t),.release (.rq r),.mqLoop r]
  | .unlink r _ none => mq = true ∧ H = [.ptable,.rq r] ∧ st = .sched r ∧ k = []
  | .unlink t _ (some r) =>
    mq = true ∧ H = [.ptable,.rq t,.rq r] ∧ st = .sched r ∧ t ≠ r ∧
      k = [.release (.rq t),.release (.rq r),.mqLoop r]
  | .sizeDec r => mq = true ∧ .ptable ∉ H ∧ .rq r ∈ H ∧ (∃ t, st = .sched t) ∧ W H
  | .rrLoop => mq = false ∧ H = [] ∧ (∃ r, st = .sched r) ∧ k = []
  | .rrScan _ | .rrSwtch _ | .rrBack _ =>
    mq = false ∧ H = [.ptable] ∧ (∃ r, st = .sched r) ∧ k = []

/-- The stack `k` is well formed for a CPU that holds `H`. -/
def Wf (mq : Bool) (st : Stack cfg) : List (Lock cfg) → List (Pc cfg) → Prop
  | _,[] => False
  | H,pc::k => Rule mq st H k (fun H' => Wf mq st H' k) pc

attribute [local simp] Rule

@[simp] theorem Wf_nil (mq : Bool) (st : Stack cfg) (H : List (Lock cfg)) :
    Wf mq st H [] ↔ False := Iff.rfl

@[simp] theorem Wf_cons (mq : Bool) (st : Stack cfg) (H : List (Lock cfg)) (pc : Pc cfg)
    (k : List (Pc cfg)) :
    Wf mq st H (pc::k) ↔ Rule mq st H k (fun H' => Wf mq st H' k) pc := Iff.rfl

@[simp] theorem mode_nil : mode ([] : List (Pc cfg)) = .plain := rfl

@[simp] theorem mode_cons (pc : Pc cfg) (k : List (Pc cfg)) :
    mode (pc::k) = (modeOf pc).getD (mode k) := rfl

theorem Wf.spinning (h : Wf mq st H k) : spinning k = 0 ∧ unspin k = k := by
  cases k with
  | nil => exact h.elim
  | cons pc k =>
    cases pc
    case spin => exact h.elim
    all_goals exact ⟨rfl,rfl⟩

theorem Wf.below (h : Wf mq st H (pc::k)) : Frames.spinning k = 0 := by
  cases pc
  all_goals simp only [Wf_cons,Rule] at h
  case acquire | release | panic | tick | iret => exact h.2.spinning.1
  case trap | trapKilled | trapYield | trapLast | locked | schedIntena | wakeup =>
    exact h.2.2.spinning.1
  case enqueue | wakeup1 | wakeupSet | kernel | yield | yieldLocked | yieldRunnable | sched
      | swtch => exact h.2.2.2.spinning.1
  case sleep | sleepLocked | sleepAwake | sizeDec => exact h.2.2.2.2.spinning.1
  case unlink r p thief =>
    cases thief with
    | none => rw [h.2.2.2]; rfl
    | some => rw [h.2.2.2.2]; rfl
  case stealCheck => rw [h.2.2.2.2]; rfl
  case stealScan => rw [h.2.2.2.1]; rfl
  case mqLoop | mqTake | mqMark | mqSwtch | mqBack | mqIdle | mqCheck | rrLoop | rrScan | rrSwtch
      | rrBack | forkSeek => rw [h.2.2.2]; rfl
  all_goals rw [h.2.2]; rfl

theorem Wf.tail (h : Wf mq st H (pc::k)) : k = [] ∨ ∃ H', Wf mq st H' k := by
  have hsys : isKstack st → Wf mq st [] (sysTail : List (Pc cfg)) := fun hst => ⟨rfl,hst,rfl⟩
  have huser : isKstack st → Wf mq st [] [.user] := fun hst => ⟨rfl,hst,rfl⟩
  have hsteal : ∀ r t, mq = true → st = .sched r → t ≠ r →
      Wf mq st [.rq t,.rq r] [.release (.rq t),.release (.rq r),.mqLoop r] := by
    intro r t hmq hst hne
    simp [Rule,hmq,hst]
  cases pc
  all_goals simp only [Wf_cons,Rule] at h
  case acquire | release | panic | tick | iret => exact .inr ⟨_,h.2⟩
  case trap | trapKilled | trapYield | trapLast | locked | schedIntena | wakeup =>
    exact .inr ⟨_,h.2.2⟩
  case enqueue | wakeup1 | wakeupSet | kernel | yield | yieldLocked | yieldRunnable | sched
      | swtch => exact .inr ⟨_,h.2.2.2⟩
  case sleep | sleepLocked | sleepAwake | sizeDec => exact .inr ⟨_,h.2.2.2.2⟩
  case unlink r p thief =>
    cases thief with
    | none => exact .inl h.2.2.2
    | some t =>
      obtain ⟨hmq,-,hst,hne,rfl⟩ := h
      exact .inr ⟨_,hsteal t r hmq hst hne⟩
  case stealCheck r t =>
    obtain ⟨hmq,-,hst,hne,rfl⟩ := h
    exact .inr ⟨_,hsteal r t hmq hst hne⟩
  case sysret | forkret =>
    rw [h.2.2]
    exact .inr ⟨_,huser h.2.1⟩
  case execName | wait | waitfork | waitforkLoop | forkRun | killScan =>
    rw [h.2.2]
    exact .inr ⟨_,hsys h.2.1⟩
  case forkSeek =>
    rw [h.2.2.2]
    exact .inr ⟨_,hsys h.2.2.1⟩
  case allocproc | allocStack | forkCopy | waitScan =>
    rw [h.2.2]
    exact .inr ⟨_,hsys (by rw [h.2.1]; trivial)⟩
  case stealScan => exact .inl h.2.2.2.1
  case mqLoop | mqTake | mqMark | mqSwtch | mqBack | mqIdle | mqCheck | rrLoop | rrScan | rrSwtch
      | rrBack => exact .inl h.2.2.2
  all_goals exact .inl h.2.2

theorem Wf.mem (h : Wf mq st H k) (hm : pc ∈ k) : ∃ H' k', Wf mq st H' (pc::k') ∧ (pc::k') <:+ k := by
  induction k generalizing H with
  | nil => cases hm
  | cons x k ih =>
    rcases mem_cons.mp hm with rfl | hm
    · exact ⟨H,k,h,suffix_rfl⟩
    · rcases h.tail with rfl | ⟨H',h'⟩
      · cases hm
      · obtain ⟨H₁,k₁,hw,hs⟩ := ih h' hm
        exact ⟨H₁,k₁,hw,hs.trans (suffix_cons x k)⟩

/-- Away from `ptable.lock` no state change is pending, and in the round-robin
kernel the CPU is in no handover. -/
theorem Wf.quiet (h : Wf mq st H k) (hH : .ptable ∉ H) :
    (mq = false → mode k = .plain) ∧ ∀ j, weight (setTok j) k = 0 := by
  induction k generalizing H with
  | nil => exact h.elim
  | cons pc k ih =>
    cases pc
    all_goals simp only [Wf_cons,Rule] at h
    case acquire l =>
      obtain ⟨he,hw⟩ := h
      by_cases hl : l = .ptable
      · exact ⟨fun hm => by simpa [modeOf] using he.plain hm,
          fun j => by simpa [setTok] using he.settled hl j⟩
      · simpa [modeOf,setTok] using ih hw (by simp [hH,Ne.symm hl])
    case release l =>
      simpa [modeOf,setTok] using ih h.2 fun hm => hH (mem_of_mem_erase hm)
    case trap | trapKilled | trapYield | trapLast | locked =>
      simpa [modeOf,setTok] using ih h.2.2 (by simp)
    case tick | iret => simpa [modeOf,setTok] using ih h.2 (by simp)
    case kernel | yield =>
      simpa [modeOf,setTok] using ih h.2.2.2 (by simp)
    case panic => simpa [modeOf,setTok] using ih h.2 hH
    case sleep ch l =>
      obtain ⟨rfl,-,-,-,hw⟩ := h
      simpa [modeOf,setTok] using ih hw hH
    case wakeup => simpa [modeOf,setTok] using ih h.2.2 hH
    case sizeDec => simpa [modeOf,setTok] using ih h.2.2.2.2 hH
    case enqueue => exact absurd h.2.1 hH
    case wakeup1 | wakeupSet => exact absurd h.1 hH
    case swtch =>
      obtain ⟨rfl,-,hk,-⟩ := h
      cases mq
      · simp at hH
      · exact ⟨by simp,fun j => by simpa [setTok] using hk.settled j⟩
    case unlink r p thief =>
      cases thief <;> simp_all [modeOf,setTok]
    case forkret =>
      obtain ⟨rfl,-,rfl⟩ := h
      cases mq <;> simp_all [modeOf,setTok]
    all_goals simp_all [modeOf,setTok,sysTail]

/-- Away from `ptable.lock` and the runqueue locks nothing is to be enqueued. -/
theorem Wf.queued (h : Wf mq st H k) (hH : .ptable ∉ H) (hR : ∀ r, .rq r ∉ H) (j : cfg.Slot) :
    weight (enqTok j) k = 0 := by
  induction k generalizing H with
  | nil => exact h.elim
  | cons pc k ih =>
    cases pc
    all_goals simp only [Wf_cons,Rule] at h
    case acquire l =>
      by_contra hne
      have hk : ∃ j, weight (enqTok j) k ≠ 0 := ⟨j,by simpa [enqTok] using hne⟩
      rcases h.1.queued hk with hm | ⟨r,hr⟩
      · exact hH hm
      · exact hR r hr
    case release l =>
      have hk := ih h.2 (fun hm => hH (mem_of_mem_erase hm)) fun r hr => hR r (mem_of_mem_erase hr)
      simpa [enqTok] using hk
    case trap | trapKilled | trapYield | trapLast | locked =>
      simpa [enqTok] using ih h.2.2 (by simp) (by simp)
    case tick | iret => simpa [enqTok] using ih h.2 (by simp) (by simp)
    case kernel | yield => simpa [enqTok] using h.2.2.1.queued j
    case panic => simpa [enqTok] using ih h.2 hH hR
    case sleep => simpa [enqTok] using h.2.2.2.1.queued j
    case swtch => simpa [enqTok] using h.2.2.1.queued j
    case wakeup => simpa [enqTok] using ih h.2.2 hH hR
    case sizeDec => exact absurd h.2.2.1 (hR _)
    case enqueue => exact absurd h.2.1 hH
    case wakeup1 | wakeupSet => exact absurd h.1 hH
    case unlink r p thief => cases thief <;> simp_all
    case forkret => simp_all [enqTok]
    all_goals simp_all [enqTok,sysTail]

theorem Wf.entered (h : Wf mq st H k) (hH : .ptable ∉ H) : mode k ≠ .leaving none := by
  induction k generalizing H with
  | nil => exact h.elim
  | cons pc k ih =>
    cases pc
    all_goals simp only [Wf_cons,Rule] at h
    case acquire l =>
      by_cases hl : l = .ptable
      · exact h.1.entered hl
      · exact ih h.2 (by simp [hH,Ne.symm hl])
    case release l => exact ih h.2 fun hm => hH (mem_of_mem_erase hm)
    case trap | trapKilled | trapYield | trapLast | locked => exact ih h.2.2 (by simp)
    case tick | iret => exact ih h.2 (by simp)
    case kernel | yield | yieldLocked | yieldRunnable =>
      exact fun hm => by simp [modeOf,h.2.2.1.plain] at hm
    case sleep | sleepLocked | sleepAwake =>
      exact fun hm => by simp [modeOf,h.2.2.2.1.plain] at hm
    case panic => exact ih h.2 hH
    case wakeup => exact ih h.2.2 hH
    case sizeDec => exact ih h.2.2.2.2 hH
    case enqueue => exact absurd h.2.1 hH
    case wakeup1 | wakeupSet => exact absurd h.1 hH
    case swtch => simp [modeOf]
    case unlink r p thief => cases thief <;> simp_all
    all_goals simp_all [modeOf,sysTail]

theorem Wf.held (h : Wf mq st H k) {r : cfg.CpuId} (hr : .rq r ∉ H) : weight (heldTok r) k = 0 := by
  induction k generalizing H with
  | nil => exact h.elim
  | cons pc k ih =>
    cases pc
    all_goals simp only [Wf_cons,Rule] at h
    case acquire l =>
      by_cases hl : l = .rq r
      · simpa [heldTok] using h.1.own r hl
      · simpa [heldTok] using ih h.2 (by simp [hr,Ne.symm hl])
    case release l => simpa [heldTok] using ih h.2 fun hm => hr (mem_of_mem_erase hm)
    case trap | trapKilled | trapYield | trapLast | locked =>
      simpa [heldTok] using ih h.2.2 (by simp)
    case tick | iret => simpa [heldTok] using ih h.2 (by simp)
    case kernel | yield | yieldLocked | yieldRunnable | sched | swtch =>
      simpa [heldTok] using ih h.2.2.2 (by simp)
    case schedIntena => simpa [heldTok] using ih h.2.2 (by simp)
    case panic => simpa [heldTok] using ih h.2 hr
    case sleep ch l =>
      obtain ⟨rfl,-,-,-,hw⟩ := h
      simpa [heldTok] using ih hw hr
    case sleepLocked p ch l =>
      obtain ⟨rfl,hl,-,-,hw⟩ := h
      simpa [heldTok] using ih hw (by rintro hm; rw [mem_singleton] at hm; subst hm; exact hl)
    case sleepAwake p l =>
      obtain ⟨rfl,hl,-,-,hw⟩ := h
      simpa [heldTok] using ih hw (by rintro hm; rw [mem_singleton] at hm; subst hm; exact hl)
    case wakeup => simpa [heldTok] using ih h.2.2 hr
    case enqueue | wakeup1 | wakeupSet => simpa [heldTok] using ih h.2.2.2 hr
    case sizeDec => simpa [heldTok] using ih h.2.2.2.2 hr
    case unlink t p thief =>
      cases thief <;> obtain ⟨-,rfl,-,h⟩ := h <;> simp_all [heldTok]
    case stealScan | stealCheck =>
      obtain ⟨-,rfl,-,h⟩ := h
      simp_all [heldTok]
    all_goals simp_all [heldTok,sysTail]

theorem Wf.kstack_onSched {p : cfg.Slot} (h : Wf mq (.kstack p) H k) : ∀ pc ∈ k, onSched pc = false := by
  induction k generalizing H with
  | nil => exact h.elim
  | cons pc k ih =>
    refine forall_mem_cons.mpr ?_
    cases pc
    all_goals simp only [Wf_cons,Rule] at h
    case acquire | release | panic | tick | iret => exact ⟨rfl,ih h.2⟩
    case trap | trapKilled | trapYield | trapLast | locked | schedIntena | wakeup =>
      exact ⟨rfl,ih h.2.2⟩
    case enqueue | wakeup1 | wakeupSet | kernel | yield | yieldLocked | yieldRunnable | sched
        | swtch => exact ⟨rfl,ih h.2.2.2⟩
    case sleep | sleepLocked | sleepAwake => exact ⟨rfl,ih h.2.2.2.2⟩
    case unlink r q thief => cases thief <;> simp_all
    all_goals simp_all [onSched,sysTail]

/-- On a kernel stack the only handover is that of `sched`. -/
theorem Wf.kstack_mode {p : cfg.Slot}
    (h : Wf mq (.kstack p) H k) : mode k = .plain ∨ ∃ d, mode k = .leaving d := by
  induction k generalizing H with
  | nil => exact h.elim
  | cons pc k ih =>
    cases pc
    all_goals simp only [Wf_cons,Rule] at h
    case sched | swtch => exact .inr ⟨_,rfl⟩
    case acquire | release | panic | tick | iret => exact ih h.2
    case trap | trapKilled | trapYield | trapLast | locked | schedIntena | wakeup =>
      exact ih h.2.2
    case enqueue | wakeup1 | wakeupSet => exact ih h.2.2.2
    case kernel | yield | yieldLocked | yieldRunnable => exact .inl h.2.2.1.plain
    case sleep | sleepLocked | sleepAwake => exact .inl h.2.2.2.1.plain
    case unlink r q thief => cases thief <;> simp_all
    all_goals simp_all [modeOf,sysTail]

theorem Wf.calm (h : Wf mq st H k) (hH : .ptable ∉ H) (hR : ∀ r, .rq r ∉ H) (hm : mode k = .plain) :
    Calm k := ⟨hm,(h.quiet hH).2,h.queued hH hR⟩

def owes : Pc cfg → Bool
  | .sched | .swtch _ _ _ | .mqMark _ _ | .mqSwtch _ _ | .mqBack _ _ | .mqIdle _ _ | .rrSwtch _
  | .rrBack _ | .yieldRunnable _ | .wakeupSet _ _ | .enqueue _ _ | .forkSeek _ _ _ _ => true
  | _ => false

theorem owes_false (h : owes pc = false) :
    modeOf pc = none ∧ (∀ j, setTok j pc = 0) ∧ ∀ j, enqTok j pc = 0 := by
  cases pc <;> first | exact ⟨rfl,fun _ => rfl,fun _ => rfl⟩ | simp [owes] at h

theorem owes_append {xs : List (Pc cfg)} (hx : xs.any owes = false) (k : List (Pc cfg)) :
    mode (xs++k) = mode k ∧ (∀ j, weight (setTok j) (xs++k) = weight (setTok j) k) ∧
    ∀ j, weight (enqTok j) (xs++k) = weight (enqTok j) k := by
  induction xs with
  | nil => simp
  | cons x xs ih =>
    simp only [any_cons,Bool.or_eq_false_iff] at hx
    obtain ⟨hm,hs,he⟩ := owes_false hx.1
    obtain ⟨hm',hs',he'⟩ := ih hx.2
    simp [hm,hs,he,hm',hs',he']

theorem Calm.append (hk : Calm k) (xs : List (Pc cfg)) (hx : xs.any owes = false) : Calm (xs++k) := by
  obtain ⟨hm,hs,he⟩ := owes_append hx k
  exact ⟨hm.trans hk.plain,fun j => (hs j).trans (hk.settled j), fun j => (he j).trans (hk.queued j)⟩

/-- `acquire` with no runqueue lock held, over a well-formed stack that owes nothing. -/
theorem Enter.over {l : Lock cfg} {H' : List (Lock cfg)} (xs : List (Pc cfg))
    (hx : xs.any owes = false) (hl : l ∉ H) (hR : ∀ r, .rq r ∉ H) (hw : Wf mq st H' k)
    (hH : .ptable ∉ H') (hR' : ∀ r, .rq r ∉ H') (ho : ∀ r, l ≠ .rq r) :
    Enter mq l H (xs++k) := by
  obtain ⟨hm,hs,he⟩ := owes_append hx k
  obtain ⟨hplain,hset⟩ := hw.quiet hH
  refine ⟨hl,fun _ j => (hs j).trans (hset j),?_,fun h => hm.trans (hplain h),
    fun _ => hm ▸ hw.entered hH,fun _ _ => .inl hR,fun r h => absurd h (ho r)⟩
  rintro ⟨j,hj⟩
  exact absurd ((he j).trans (hw.queued hH hR' j)) hj

/-- `acquire` over frames that are written out and owe nothing. -/
theorem Enter.bare {l : Lock cfg} (xs : List (Pc cfg))
    (hx : xs.any owes = false) (hl : l ∉ H) (hR : ∀ r, .rq r ∉ H)
    (ho : ∀ r, weight (heldTok r) xs = 0) : Enter mq l H xs := by
  obtain ⟨hm,hs,he⟩ := owes_append hx []
  rw [append_nil] at hm hs he
  exact ⟨hl,fun _ => hs,fun ⟨j,hj⟩ => absurd (he j) hj,fun _ => hm,fun _ => by simp [hm],
    fun _ _ => .inl hR,fun r _ => ho r⟩

theorem Calm.bare (xs : List (Pc cfg)) (hx : xs.any owes = false) : Calm xs := by
  obtain ⟨hm,hs,he⟩ := owes_append hx []
  rw [append_nil] at hm hs he
  exact ⟨hm,hs,he⟩

theorem Steady.bare (xs : List (Pc cfg)) (hx : xs.any owes = false)
    (hy : ∀ j, weight (yieldTok j) xs = 0) : Steady xs := ⟨.bare xs hx,hy⟩

theorem Steady.cons (hk : Steady k) (hx : owes pc = false)
    (hy : ∀ j, yieldTok j pc = 0) : Steady (pc::k) :=
  ⟨hk.toCalm.append [pc] (by simpa using hx),by simpa [hy] using hk.unlogged⟩

/-- With `ptable.lock` held, `acquire` of the one runqueue lock needed. -/
theorem Enter.queue {r : cfg.CpuId} (hH : .ptable ∈ H) (hR : ∀ r, .rq r ∉ H) (hmq : mq = true)
    (ho : ∀ r, weight (heldTok r) k = 0) : Enter mq (.rq r) H k :=
  ⟨hR r,nofun,fun _ => .inl hH,by simp [hmq],nofun,fun _ _ => .inl hR,fun r _ => ho r⟩

/-- The `acquire(&ptable.lock)` of `dequeue`, with a runqueue lock held. -/
theorem Enter.dequeue {xs : List (Pc cfg)}
    (hx : xs.any owes = false) (hl : .ptable ∉ H) (hmq : mq = true) : Enter mq .ptable H xs := by
  obtain ⟨hm,hs,he⟩ := owes_append hx []
  rw [append_nil] at hm hs he
  exact ⟨hl,fun _ => hs,fun ⟨j,hj⟩ => absurd (he j) hj,by simp [hmq],fun _ => by simp [hm],nofun, nofun⟩

theorem Wf.isKstack_of_user {usr : Bool} (ht : TrapTail usr k) (hu : usr = true)
    (hw : Wf mq st [] k) : isKstack st := by
  rw [ht.2 hu] at hw
  exact hw.2.2.1

end
end Xv6.Frames
