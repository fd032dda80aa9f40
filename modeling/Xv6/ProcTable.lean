import Xv6.Typing

/-!
# Writes to the process table

A second inversion of `step`, for the fields of `struct proc` that the handover does not depend on.
`Writes` lists every assignment to an entry of the table with the program point that makes it, and
`TableStep` says that a step makes at most one of them. `LockStep` and `FrameStep` do the same for
the spin locks and the stacks, and `Born` says how a program point of `fork`, `exit`, `sleep` or
`kill` gets onto a stack. The lemmas need no invariant and hold for both kernels.
-/
namespace Xv6.ProcTable
open SchedLog KernelState KernelStep Typing
open Function (update update_self)

section
variable {cfg : Config}

/-- The assignments to the entry of one process, apart from `allocproc`. -/
inductive Writes (s : State cfg) (c : cfg.CpuId) (a : Act cfg) :
    Pc cfg → cfg.Slot → (Proc cfg → Proc cfg) → Prop
  | execName (n p) (hp : (s.cpu c).proc = some p) :
      Writes s c a (.execName n) p fun q => {q with name := n}
  | fault (p) (hp : (s.cpu c).proc = some p) : Writes s c a .user p fun q => {q with killed := true}
  | allocFail (cur np) (ha : a = .alloc false) :
      Writes s c a (.allocStack cur np) np fun q => {q with state := .unused}
  | build (cur np) :
      Writes s c a (.allocStack cur np) np fun q => {q with context := ⟨.kstack np,0⟩, scheds := 0}
  | copyFail (cur np) (ha : a = .alloc false) :
      Writes s c a (.forkCopy cur np) np fun q => {q with state := .unused}
  | copy (cur np) (ha : a = .alloc true) : Writes s c a (.forkCopy cur np) np fun q =>
        {q with parent := some cur, name := (s.proc cur).name}
  | run (np) : Writes s c a (.forkRun np) np fun q => {q with state := .runnable}
  | yield (p) : Writes s c a (.yieldRunnable p) p fun q => {q with state := .runnable}
  | sched (p) (hp : (s.cpu c).proc = some p) :
      Writes s c a .sched p fun q => {q with scheds := q.scheds+1}
  | swtch (p cur b) :
      Writes s c a (.swtch p cur b) p fun q => {q with context := ⟨(s.cpu c).stack,q.scheds⟩}
  | sleep (p ch l) :
      Writes s c a (.sleepLocked p ch l) p fun q => {q with chan := some ch, state := .sleeping}
  | awake (p l) : Writes s c a (.sleepAwake p l) p fun q => {q with chan := none}
  | wake (j ch) : Writes s c a (.wakeupSet j ch) j fun q => {q with state := .runnable}
  | kill (pid i p) (hi : slot? cfg i = some p) (hp : (s.proc p).pid = pid) :
      Writes s c a (.killScan pid i) p fun q =>
        {q with killed := true, state := if q.state = .sleeping then .runnable else q.state}
  | reparent (p i q) (hi : slot? cfg i = some q) (hq : (s.proc q).parent = some p) :
      Writes s c a (.exitReparent p i) q fun r => {r with parent := some s.initproc}
  | zombie (p i) (hi : slot? cfg i = none) :
      Writes s c a (.exitReparent p i) p fun q => {q with state := .zombie}
  | free (p i kids q) (hi : slot? cfg i = some q) (hq : (s.proc q).parent = some p)
      (hz : (s.proc q).state = .zombie) :
      Writes s c a (.waitScan p i kids) q fun r =>
        {r with
          pid := 0
          parent := none
          name := r.name.set 0 0 name_pos
          killed := false
          state := .unused}
  | mark (r p) : Writes s c a (.mqMark r p) p fun q => {q with state := .running}
  | take (i p) (hi : slot? cfg i = some p) (hp : (s.proc p).state = .runnable) :
      Writes s c a (.rrScan i) p fun q => {q with state := .running}

/-- What a step does to the table and to `nextpid`. -/
inductive TableStep (s : State cfg) (c : cfg.CpuId) (a : Act cfg) (s' : State cfg) : Prop
  | same (hp : s'.proc = s.proc) (hn : s'.nextpid = s.nextpid)
  | alloc (cur i k p) (hc : code s c = .allocproc cur i::k) (hi : slot? cfg i = some p)
      (hu : (s.proc p).state = .unused)
      (hp : s'.proc = update s.proc p {s.proc p with pid := s.nextpid, state := .embryo})
      (hn : s'.nextpid = incInt s.nextpid)
  | write (pc k p f) (hc : code s c = pc::k) (hw : Writes s c a pc p f)
      (hp : s'.proc = update s.proc p (f (s.proc p))) (hn : s'.nextpid = s.nextpid)

def Born (s : State cfg) (c : cfg.CpuId) (a : Act cfg) : Pc cfg → Prop
  | .allocStack cur np => ∃ i k, code s c = .allocproc cur i::k ∧ slot? cfg i = some np ∧
      (s.proc np).state = .unused
  | .forkCopy cur np => ∃ k, code s c = .allocStack cur np::k ∧ a = .alloc true
  | .forkRun np => ∃ cur k, code s c = .forkCopy cur np::k ∧ a = .alloc true
  | .killScan pid i => (∃ k, code s c = .user::k ∧ a = .user (.kill pid) ∧ i = 0) ∨
      ∃ j k, code s c = .killScan pid j::k
  | .exitClosed p => ∃ k, code s c = .exit::k ∧ (s.cpu c).proc = some p ∧ p ≠ s.initproc
  | .exitLocked p => ∃ k, code s c = .exitClosed p::k
  | .exitReparent p i => (∃ k, code s c = .exitLocked p::k ∧ i = 0) ∨
      ∃ j k q, code s c = .exitReparent p j::k ∧ slot? cfg j = some q ∧ i = j+1
  | .sleepLocked p ch l => ∃ k, code s c = .sleep ch l::k ∧ (s.cpu c).proc = some p
  | .sleepAwake p l => ∃ ch k, code s c = .sleepLocked p ch l::k
  | .wakeup1 i ch => i = 0 ∨
      (∃ j k, code s c = .wakeup1 j ch::k ∧ (∃ q, slot? cfg j = some q ∧ i = q.val+1 ∧
        ¬ ((s.proc q).state = .sleeping ∧ (s.proc q).chan = ch))) ∨
      ∃ j k, code s c = .wakeupSet j ch::k ∧ i = j.val+1
  | .wakeupSet j ch => ∃ i k, code s c = .wakeup1 i ch::k ∧ slot? cfg i = some j
  | _ => True

/-- The index with which a step accesses `clock_log` or `isnot_first_running`. -/
def pidIndex (s : State cfg) : List (Pc cfg) → Act cfg → Option ℤ
  | .forkCopy _ np::_,.alloc true => some (s.proc np).pid
  | .exitReparent p i::_,.go => if slot? cfg i = none then some (s.proc p).pid else none
  | .mqMark _ p::_,.go => some (s.proc p).pid
  | .rrScan i::_,.go =>
    ((slot? cfg i).filter fun p => (s.proc p).state = .runnable).map fun p => (s.proc p).pid
  | _,_ => none

def ArraysKept (s s' : State cfg) (c : cfg.CpuId) (a : Act cfg) : Prop :=
  ∀ n, pidIndex s (code s c) a ≠ some n →
    s'.clockLog n = s.clockLog n ∧ s'.isnotFirstRunning n = s.isnotFirstRunning n

inductive LockStep (s : State cfg) (c : cfg.CpuId) (s' : State cfg) : Prop
  | same (hl : s'.lock = s.lock)
  | acquire (l k) (hc : code s c = .spin l::k) (hf : s.lock l = none)
      (hl : s'.lock = update s.lock l (some c))
  | release (l k) (hc : code s c = .release l::k) (hh : s.lock l = some c)
      (hl : s'.lock = update s.lock l none)

/-- Program points from which `exit` is called in place of the return to user space. -/
def drops : Pc cfg → Bool
  | .trapKilled _ usr | .trapLast usr => usr
  | .sysret | .user => true
  | _ => false

/-- What a step does to the stacks, apart from the stack pointer: the innermost program point is
replaced by new ones, or new ones are put on top of it, or `exit` is called, or a kernel stack is
set up. -/
inductive FrameStep (s : State cfg) (c : cfg.CpuId) (a : Act cfg) (s' : State cfg) : Prop
  | next (pc k xs) (hc : code s c = pc::k) (hx : ∀ x ∈ xs, x ∈ k ∨ Born s c a x)
      (hf : s'.frames = update s.frames (s.cpu c).stack (xs++k))
  | push (xs) (hx : ∀ x ∈ xs, Born s c a x)
      (hf : s'.frames = update s.frames (s.cpu c).stack (xs++code s c))
  | drop (pc k) (hc : code s c = pc::k) (hd : drops pc = true)
      (hf : s'.frames = update s.frames (s.cpu c).stack [.exit])
  | build (cur np k) (hc : code s c = .allocStack cur np::k) (ha : a = .alloc true)
      (hf : s'.frames = update (update s.frames (.kstack np) [.forkret,.user])
        (s.cpu c).stack (.forkCopy cur np::k))

/-- A step as the table, the arrays, the locks and the stacks see it. -/
structure Turn (s : State cfg) (c : cfg.CpuId) (a : Act cfg) (s' : State cfg) : Prop where
  table : TableStep s c a s'
  init : s'.initproc = s.initproc
  arrays : ArraysKept s s' c a
  locks : LockStep s c s'
  frames : FrameStep s c a s'

/-- What the straight-line part of a step keeps, whatever it does to the table. -/
structure Rest (s s₁ : State cfg) (c : cfg.CpuId) (a : Act cfg) : Prop where
  nextpid : s₁.nextpid = s.nextpid := by rfl
  init : s₁.initproc = s.initproc := by rfl
  frames : s₁.frames = s.frames := by rfl
  stack : (s₁.cpu c).stack = (s.cpu c).stack := by rfl
  arrays : ArraysKept s s₁ c a := by exact fun _ _ => ⟨rfl,rfl⟩
  locks : LockStep s c s₁ := by exact .same rfl

end

section
variable {cfg : Config} {mq : Bool} {s s' s₁ : State cfg} {c : cfg.CpuId} {cl : Clock} {a : Act cfg}
  {k k' : List (Pc cfg)} {pc : Pc cfg}

/-- What is new in `k'` against `k` is accounted for. -/
def Fresh (s : State cfg) (c : cfg.CpuId) (a : Act cfg) (k k' : List (Pc cfg)) : Prop :=
  ∀ x ∈ k', x ∈ k ∨ Born s c a x

def Ends (k k' : List (Pc cfg)) : Prop := k <:+ k'

/-- The frames `k'` are `k` with new program points on top. -/
def Over (s : State cfg) (c : cfg.CpuId) (a : Act cfg) (k k' : List (Pc cfg)) : Prop :=
  Ends k k' ∧ Fresh s c a k k'

@[simp] theorem over_iff : Over s c a k k' ↔ Ends k k' ∧ Fresh s c a k k' := Iff.rfl

@[simp] theorem fresh_self : Fresh s c a k k := fun _ hx => .inl hx

@[simp] theorem fresh_cons : Fresh s c a k (pc::k') ↔ (pc ∈ k ∨ Born s c a pc) ∧ Fresh s c a k k' := by
  simp [Fresh]

@[simp] theorem ends_self : Ends k k := List.suffix_rfl

@[simp] theorem ends_cons : Ends k (pc::k') ↔ k = pc::k' ∨ Ends k k' := List.suffix_cons_iff

theorem LockStep.goto (h : LockStep s c s₁) (k' : List (Pc cfg)) :
    LockStep s c (KernelStep.goto s₁ c k') := by
  cases h with
  | same hl => exact .same hl
  | acquire l k hc hf hl => exact .acquire l k hc hf hl
  | release l k hc hh hl => exact .release l k hc hh hl

theorem Rest.goto (h : Rest s s₁ c a) (k' : List (Pc cfg)) :
    (KernelStep.goto s₁ c k').frames = update s.frames (s.cpu c).stack k' := by
  simp only [KernelStep.goto,h.frames,h.stack]

theorem Rest.over (hk : code s c = pc::k) (h : Rest s s₁ c a) (hx : Over s c a k k') :
    FrameStep s c a (KernelStep.goto s₁ c k') := by
  obtain ⟨⟨xs,rfl⟩,hb⟩ := hx
  exact .next pc k xs hk (fun x hm => hb x (List.mem_append_left k hm)) (h.goto _)

theorem Turn.beside (hk : code s c = pc::k) (hp : s₁.proc = s.proc) (hr : Rest s s₁ c a)
    (hx : Over s c a k k') : Turn s c a (goto s₁ c k') :=
  ⟨.same hp hr.nextpid,hr.init,hr.arrays,hr.locks.goto k',hr.over hk hx⟩

theorem Turn.keep (hk : code s c = pc::k) (hx : Over s c a k k') : Turn s c a (goto s c k') :=
  .beside hk rfl {} hx

theorem Turn.drop (hk : code s c = pc::k) (hd : drops pc = true) : Turn s c a (goto s c [.exit]) :=
  ⟨.same rfl rfl,rfl,fun _ _ => ⟨rfl,rfl⟩,.same rfl,.drop pc k hk hd rfl⟩

theorem Turn.set {f : Proc cfg → Proc cfg} {p : cfg.Slot} (hk : code s c = pc::k)
    (hw : Writes s c a pc p f) (hp : s₁.proc = update s.proc p (f (s.proc p)))
    (hr : Rest s s₁ c a) (hx : Over s c a k k') : Turn s c a (goto s₁ c k') :=
  ⟨.write _ _ _ _ hk hw hp hr.nextpid,hr.init,hr.arrays,hr.locks.goto k',hr.over hk hx⟩

theorem Turn.panic (s₁ : State cfg) (hp : s₁.proc = s.proc) (hr : Rest s s₁ c a) (msg : String) :
    Turn s c a (KernelStep.panic s₁ c msg) := by
  have hcode : code s₁ c = code s c := by rw [code,hr.frames,hr.stack,code]
  refine ⟨.same hp hr.nextpid,hr.init,hr.arrays,?_,.push [.panic msg] (by simp [Born]) ?_⟩
  · cases hr.locks with
    | same hl => exact .same hl
    | acquire l k hc hf hl => exact .acquire l k hc hf hl
    | release l k hc hh hl => exact .release l k hc hh hl
  · simp [KernelStep.panic,goto,setCpu,hr.stack,hr.frames,hcode]

theorem Turn.stop (msg : String) : Turn s c a (KernelStep.panic s c msg) :=
  .panic s rfl {} msg

theorem Turn.withProc {f : cfg.Slot → State cfg} (hf : ∀ p, (s.cpu c).proc = some p → Turn s c a (f p)) :
    Turn s c a (KernelStep.withProc s c f) := by
  unfold KernelStep.withProc
  split
  · exact .stop _
  · exact hf _ (by assumption)

theorem Turn.dequeue {r : cfg.CpuId} {thief : Option cfg.CpuId} (hk : code s c = pc::k)
    (h : KernelStep.dequeue s c r thief k = some s') : Turn s c a s' := by
  rcases dequeue_cases h with ⟨p,-,rfl⟩ | rfl
  · exact .keep hk (by simp [Born])
  · exact .stop _

theorem arraysKept_update {n : ℤ} {v : Fin 3 → Clock} (h : pidIndex s (code s c) a = some n)
    (hl : s'.clockLog = update s.clockLog n v)
    (hr : s'.isnotFirstRunning = s.isnotFirstRunning) : ArraysKept s s' c a := by
  intro m hm
  have hne : m ≠ n := fun he => hm (he ▸ h)
  exact ⟨by simp [hl,hne],congrFun hr m⟩

theorem Rest.markRunning {p : cfg.Slot} (hs₁ : s₁.clockLog = s.clockLog)
    (hr : s₁.isnotFirstRunning = s.isnotFirstRunning) (h : Rest s s₁ c a)
    (hi : pidIndex s (code s c) a = some (s₁.proc p).pid) :
    Rest s (KernelStep.markRunning s₁ c cl p) c a := by
  refine ⟨(markRunning_nextpid _ _ _ _).trans h.nextpid,?_,by simpa using h.frames,
    by simpa using h.stack,fun n hn => ?_,?_⟩
  · unfold KernelStep.markRunning
    split_ifs <;> exact h.init
  · have hne : n ≠ (s₁.proc p).pid := fun he => hn (he ▸ hi)
    unfold KernelStep.markRunning
    split_ifs
    · exact ⟨congrFun hs₁ n,congrFun hr n⟩
    · exact ⟨by simp [setState,setProc,logProc,logClock,hne,hs₁],
        by simp [setState,setProc,logProc,hne,hr]⟩
  · cases h.locks with
    | same hl => exact .same (by simpa using hl)
    | acquire l k hc hf hl => exact .acquire l k hc hf (by simpa using hl)
    | release l k hc hh hl => exact .release l k hc hh (by simpa using hl)

theorem popcli_stack {d e : Cpu cfg} (h : popcli d = .ok e) : e.stack = d.stack := by
  unfold popcli at h
  split_ifs at h
  cases h
  rfl

theorem exec_turn (hk : code s c = pc::k) (h : exec mq s c cl k pc = some s') : Turn s c .go s' := by
  cases pc
  all_goals simp only [exec,reduceCtorEq] at h
  case acquire l =>
    have hst : ((setCpu s c pushcli).cpu c).stack = (s.cpu c).stack := by simp [setCpu,pushcli]
    split_ifs at h <;> cases h
    · exact .panic (s := s) (setCpu s c pushcli) rfl {stack := hst} _
    · exact .beside hk rfl {stack := hst} (by simp [Born])
  case spin l =>
    split_ifs at h with hf
    cases h
    exact .beside hk rfl {locks := .acquire l k hk hf rfl} (by simp)
  case release l =>
    split_ifs at h with hh
    · cases h
      exact .stop _
    · simp only [ne_eq,not_not] at hh
      split at h <;> cases h
      · exact .panic (s := s) (setLock s l none) rfl {locks := .release l k hk hh rfl} _
      · rename_i d hd
        exact .beside hk rfl {stack := by simpa [setCpu] using popcli_stack hd
                              locks := .release l k hk hh rfl} (by simp)
  case trap irq usr =>
    cases irq with
    | timer =>
      simp only at h
      split_ifs at h <;> cases h <;> exact .keep hk (by simp [Born])
    | dev =>
      cases h
      exact .keep hk (by simp [Born])
  case mqLoop | rrLoop | iret | mqTake | mqBack | mqIdle | rrBack =>
    cases h
    exact .beside hk rfl {stack := by simp [setCpu,takeProc]} (by simp [Born])
  case tick =>
    cases h
    exact .keep hk (by simp [Born])
  case exitClosed p =>
    cases h
    exact .keep hk (by simp [Born,hk])
  case exitLocked p =>
    cases h
    exact .keep hk (by simp [Born,hk])
  case forkret | yieldLocked | waitforkLoop =>
    split_ifs at h <;> cases h <;> exact .keep hk (by simp [Born])
  case trapKilled | trapLast =>
    split_ifs at h with hu <;> cases h
    · exact .drop hk (by simpa [drops] using (Bool.and_eq_true_iff.mp hu).2)
    · exact .keep hk (by simp [Born])
  case sysret =>
    split_ifs at h <;> cases h
    · exact .drop hk rfl
    · exact .keep hk (by simp)
  case trapYield b usr =>
    split at h
    · cases h
      exact .keep hk (by simp [Born])
    · split_ifs at h <;> cases h <;> exact .keep hk (by simp [Born])
  case wakeup ch =>
    split_ifs at h <;> cases h
    · exact .stop _
    · exact .keep hk (by simp [Born])
  case execName n =>
    cases h
    exact .withProc fun p hp => .set hk (.execName n p hp) rfl {} (by simp)
  case allocproc cur i =>
    split at h
    · cases h
      exact .keep hk (by simp [Born])
    · rename_i p hi
      split_ifs at h with hu <;> cases h
      · refine ⟨.alloc cur i k p hk hi hu ?_ rfl,rfl,fun _ _ => ⟨rfl,rfl⟩,.same rfl,
          .next _ k [.release .ptable,.allocStack cur p] hk (by simp [Born,hk,hi,hu]) rfl⟩
        simp [goto,allocSlot,setState,setProc,logProc]
      · exact .keep hk (by simp [Born])
  case forkRun np =>
    split_ifs at h <;> cases h <;>
      exact .set hk (.run np) rfl {} (by simp [Born])
  case forkSeek np i m target =>
    split at h
    · split_ifs at h <;> cases h <;> exact .keep hk (by simp [Born])
    · split at h <;> cases h
      · exact .stop _
      · exact .keep hk (by simp [Born])
  case enqueue r p =>
    split_ifs at h <;> cases h
    · exact .stop _
    · exact .beside hk rfl {} (by simp)
  case yield =>
    cases h
    exact .withProc fun p hp => .beside hk rfl {} (by simp [Born])
  case yieldRunnable p =>
    cases h
    exact .set hk (.yield p) rfl {} (by simp [Born])
  case sched =>
    cases h
    unfold KernelStep.sched
    split
    · exact .stop _
    · split
      · exact .stop _
      · refine .withProc fun p hp => ?_
        split_ifs <;> first
          | exact .stop _
          | exact .set hk (.sched p hp) rfl {} (by simp [Born])
  case swtch p cur b =>
    split_ifs at h <;> cases h
    · exact ⟨.write _ _ p _ hk (.swtch p cur b) rfl rfl,rfl,fun _ _ => ⟨rfl,rfl⟩,.same rfl,
        .next _ k [.acquire .ptable,.schedIntena cur b] hk (by simp [Born]) rfl⟩
    · exact ⟨.write _ _ p _ hk (.swtch p cur b) rfl rfl,rfl,fun _ _ => ⟨rfl,rfl⟩,.same rfl,
        .next _ k [.schedIntena cur b] hk (by simp [Born]) rfl⟩
  case schedIntena cur b =>
    cases h
    exact .beside hk rfl {stack := (SameCpu.intena s c _ b).stack} (by simp)
  case sleep ch l =>
    split at h
    · cases h
      exact .stop _
    · rename_i p hp
      split_ifs at h <;> cases h <;> exact .keep hk (by simp [Born,hk,hp])
  case sleepLocked p ch l =>
    cases h
    refine .set hk (.sleep p ch l) ?_ {} (by simp [Born,hk])
    simp [setState,setProc,logProc]
  case sleepAwake p l =>
    split_ifs at h <;> cases h <;> exact .set hk (.awake p l) rfl {} (by simp [Born])
  case wakeup1 i ch =>
    split at h <;> cases h
    · exact .keep hk (by simp)
    · rename_i j hi
      unfold wakeupSlot
      split_ifs with hj
      · exact .beside hk rfl {} (by simp [Born,hk,hi])
      · exact .beside hk rfl {} (by simp [Born,hk,hi])
      · have hb : Born s c .go (.wakeup1 (j+1) ch) := .inr (.inl ⟨i,k,hk,j,hi,rfl,hj⟩)
        exact .keep hk (by simp [hb])
  case wakeupSet j ch =>
    cases h
    exact .set hk (.wake j ch) rfl {} (by simp [Born,hk])
  case killScan pid i =>
    split at h
    · cases h
      exact .keep hk (by simp [Born])
    · rename_i p hi
      split_ifs at h with hp <;> cases h
      · exact .set hk (.kill pid i p hi hp) rfl {} (by simp [Born])
      · exact .keep hk (by simp [Born,hk])
  case exit =>
    cases h
    refine .withProc fun p hp => ?_
    split_ifs with hi
    · exact .stop _
    · exact .keep hk (by simp [Born,hk,hp,hi])
  case exitReparent p i =>
    split at h
    · rename_i q hi
      split_ifs at h with hq hz <;> cases h
      · exact .set hk (.reparent p i q hi hq) rfl {} (by simp [Born,hk,hi])
      · exact .set hk (.reparent p i q hi hq) rfl {} (by simp [Born,hk,hi])
      · exact .keep hk (by simp [Born,hk,hi])
    · rename_i hi
      cases h
      exact .set hk (.zombie p i hi) rfl {arrays := arraysKept_update (by simp [hk,pidIndex,hi]) rfl rfl}
        (by simp [Born])
  case zombieExit =>
    cases h
    exact .stop _
  case wait =>
    cases h
    exact .withProc fun p hp => .keep hk (by simp [Born])
  case waitScan p i kids =>
    split at h
    · rename_i q hi
      cases h
      unfold waitSlot
      split_ifs with hq hz
      · exact .keep hk (by simp [Born])
      · simp only [ne_eq,not_not] at hq
        exact .set hk (.free p i kids q hi hq hz) rfl {} (by simp [Born])
      · exact .keep hk (by simp [Born])
    · split_ifs at h <;> cases h <;> exact .keep hk (by simp [Born])
  case waitfork =>
    cases h
    refine .withProc fun p hp => ?_
    split_ifs
    · exact .beside hk rfl {} (by simp [Born])
    · exact .keep hk (by simp [Born])
  case mqCheck r =>
    split_ifs at h
    · cases h
      exact .keep hk (by simp [Born])
    · exact .dequeue hk h
  case stealScan r i m target =>
    split at h
    · split_ifs at h <;> cases h <;> exact .keep hk (by simp [Born])
    · split at h
      · cases h
        exact .keep hk (by simp [Born])
      · split_ifs at h <;> cases h <;> first
          | exact .stop _
          | exact .keep hk (by simp [Born])
  case stealCheck r t =>
    split_ifs at h
    · exact .dequeue hk h
    · cases h
      exact .keep hk (by simp)
  case unlink r p thief =>
    cases h
    cases thief <;> exact .beside hk rfl {} (by simp [unlinked,Born])
  case sizeDec r =>
    cases h
    exact .beside hk rfl {} (by simp)
  case mqMark r p =>
    cases h
    exact .set hk (.mark r p) (by simp) (.markRunning rfl rfl {} (by simp [hk,pidIndex])) (by simp [Born])
  case mqSwtch r p =>
    cases h
    exact ⟨.same rfl rfl,rfl,fun _ _ => ⟨rfl,rfl⟩,.same rfl,
      .next _ k [.mqBack r p] hk (by simp [Born]) rfl⟩
  case rrScan i =>
    split at h
    · cases h
      exact .keep hk (by simp [Born])
    · rename_i p hi
      split_ifs at h with hp <;> cases h
      · exact .set hk (.take i p hi hp) (by simp [takeProc,setCpu])
          (.markRunning rfl rfl {stack := by simp [takeProc,setCpu]}
            (by simp [hk,pidIndex,hi,Option.filter,hp,takeProc,setCpu])) (by simp [Born])
      · exact .keep hk (by simp [Born])
  case rrSwtch p =>
    cases h
    exact ⟨.same rfl rfl,rfl,fun _ _ => ⟨rfl,rfl⟩,.same rfl,
      .next _ k [.rrBack p] hk (by simp [Born]) rfl⟩

theorem userOp_turn {p : cfg.Slot} {op : Op} (hk : code s c = .user::k) (hp : (s.cpu c).proc = some p) :
    Turn s c (.user op) (userOp s c k p op) := by
  unfold userOp
  split
  · exact .set hk (.fault p hp) rfl {stack := by simp [setCpu,setProc]} (by simp [Born])
  · split_ifs
    · exact .drop hk rfl
    · split
      case h_2 => exact .drop hk rfl
      all_goals exact .keep hk (by simp [Born,hk])

theorem choose_turn (hk : code s c = pc::k) (h : choose s c cl k pc a = some s') : Turn s c a s' := by
  unfold choose at h
  split at h
  · cases h
    exact .withProc fun p hp => userOp_turn hk hp
  case h_8 cur np =>
    cases h
    exact .set hk (.allocFail cur np rfl) rfl {} (by simp)
  case h_9 cur np =>
    cases h
    exact ⟨.write _ k np _ hk (.build cur np) rfl rfl,rfl,fun _ _ => ⟨rfl,rfl⟩,.same rfl,
      .build cur np k hk rfl rfl⟩
  case h_10 cur np =>
    cases h
    exact .set hk (.copyFail cur np rfl) rfl {} (by simp)
  case h_11 cur np =>
    cases h
    exact .set hk (.copy cur np rfl) rfl {arrays := arraysKept_update (by simp [hk,pidIndex,setProc]) rfl rfl}
      (by simp [Born,hk])
  all_goals
    cases h
    try exact .keep hk (by simp [Born])

theorem Turn.trap (irq : Irq) (usr : Bool) : Turn s c a
    (goto (setCpu s c fun d => {d with fl := false}) c (.trap irq usr::.iret::code s c)) :=
  ⟨.same rfl rfl,rfl,fun _ _ => ⟨rfl,rfl⟩,.same rfl,
    .push [.trap irq usr,.iret] (by simp [Born]) (by simp [goto,setCpu])⟩

theorem step_turn (h : step mq s c cl a = some s') : Turn s c a s' := by
  unfold KernelStep.step at h
  split at h
  · cases h
  · rename_i pc k hk
    split at h
    · exact exec_turn hk h
    · unfold interrupt at h
      split_ifs at h
      cases h
      exact .trap _ _
    · exact choose_turn hk h

def Builds (s : State cfg) (c : cfg.CpuId) (a : Act cfg) (st : Stack cfg) : Prop :=
  ∃ cur np k, code s c = .allocStack cur np::k ∧ a = .alloc true ∧ st = .kstack np

theorem FrameStep.born (h : FrameStep s c a s') {st : Stack cfg} {x : Pc cfg}
    (hm : x ∈ s'.frames st) : x ∈ s.frames st ∨ st = (s.cpu c).stack ∧ Born s c a x ∨
      Builds s c a st ∧ (x = .forkret ∨ x = .user) := by
  by_cases hst : st = (s.cpu c).stack
  · subst hst
    have hcode : s.frames (s.cpu c).stack = code s c := rfl
    cases h with
    | next pc k xs hc hx hf =>
      rw [hf,update_self,List.mem_append] at hm
      rw [hcode,hc]
      rcases hm with hm | hm
      · exact (hx x hm).imp (.tail _) fun hb => .inl ⟨rfl,hb⟩
      · exact .inl (.tail _ hm)
    | push xs hx hf =>
      rw [hf,update_self,List.mem_append] at hm
      exact hm.symm.imp id fun hb => .inl ⟨rfl,hx x hb⟩
    | drop pc k hc hd hf =>
      rw [hf,update_self,List.mem_singleton] at hm
      subst hm
      exact .inr (.inl ⟨rfl,trivial⟩)
    | build cur np k hc ha hf =>
      rw [hf,update_self,List.mem_cons] at hm
      rw [hcode,hc]
      rcases hm with rfl | hm
      · exact .inr (.inl ⟨rfl,k,hc,ha⟩)
      · exact .inl (.tail _ hm)
  · cases h with
    | next pc k xs hc hx hf | push xs hx hf | drop pc k hc hd hf =>
      exact .inl (by simpa [hf,hst] using hm)
    | build cur np k hc ha hf =>
      by_cases hnp : st = .kstack np
      · refine .inr (.inr ⟨⟨cur,np,k,hc,ha,hnp⟩,?_⟩)
        subst hnp
        simpa [hf,hst] using hm
      · exact .inl (by simpa [hf,hst,hnp] using hm)

/-- A program point that leaves a stack was the innermost one, or was dropped by a call of `exit`,
or was on a kernel stack that is set up anew. -/
theorem FrameStep.kept (h : FrameStep s c a s') {st : Stack cfg} {x : Pc cfg}
    (hm : x ∈ s.frames st) : x ∈ s'.frames st ∨
      st = (s.cpu c).stack ∧ (∃ pc k, code s c = pc::k ∧ (pc = x ∨ drops pc = true)) ∨
      Builds s c a st := by
  by_cases hst : st = (s.cpu c).stack
  · subst hst
    have hcode : x ∈ code s c := hm
    cases h with
    | next pc k xs hc hx hf =>
      rw [hc] at hcode
      rcases List.mem_cons.mp hcode with rfl | hk
      · exact .inr (.inl ⟨rfl,x,k,hc,.inl rfl⟩)
      · exact .inl (by simp [hf,hk])
    | push xs hx hf => exact .inl (by simp [hf,hcode])
    | drop pc k hc hd => exact .inr (.inl ⟨rfl,pc,k,hc,.inr hd⟩)
    | build cur np k hc ha hf =>
      rw [hc] at hcode
      rcases List.mem_cons.mp hcode with rfl | hk
      · exact .inr (.inl ⟨rfl,_,k,hc,.inl rfl⟩)
      · exact .inl (by simp [hf,hk])
  · cases h with
    | next pc k xs hc hx hf | push xs hx hf | drop pc k hc hd hf =>
      exact .inl (by simpa [hf,hst] using hm)
    | build cur np k hc ha hf =>
      by_cases hnp : st = .kstack np
      · exact .inr (.inr ⟨cur,np,k,hc,ha,hnp⟩)
      · exact .inl (by simpa [hf,hst,hnp] using hm)

theorem FrameStep.other (h : FrameStep s c a s') {st : Stack cfg} (hst : st ≠ (s.cpu c).stack) :
    s'.frames st = s.frames st ∨ Builds s c a st ∧ s'.frames st = [.forkret,.user] := by
  cases h with
  | next pc k xs hc hx hf | push xs hx hf | drop pc k hc hd hf => exact .inl (by simp [hf,hst])
  | build cur np k hc ha hf =>
    by_cases hnp : st = .kstack np
    · exact .inr ⟨⟨cur,np,k,hc,ha,hnp⟩,by subst hnp; simp [hf,hst]⟩
    · exact .inl (by simp [hf,hst,hnp])

/-- What a step does to one process. -/
theorem TableStep.proc_cases (h : TableStep s c a s') (p : cfg.Slot) : s'.proc p = s.proc p ∨
    (∃ cur i k, code s c = .allocproc cur i::k ∧ slot? cfg i = some p ∧ (s.proc p).state = .unused ∧
      s'.proc p = {s.proc p with pid := s.nextpid, state := .embryo}) ∨
    ∃ pc k f, code s c = pc::k ∧ Writes s c a pc p f ∧ s'.proc p = f (s.proc p) := by
  cases h with
  | same hp => exact .inl (by rw [hp])
  | alloc cur i k q hc hi hu hp =>
    by_cases hpq : p = q
    · subst hpq
      exact .inr (.inl ⟨cur,i,k,hc,hi,hu,by rw [hp,update_self]⟩)
    · exact .inl (by simp [hp,hpq])
  | write pc k q f hc hw hp =>
    by_cases hpq : p = q
    · subst hpq
      exact .inr (.inr ⟨pc,k,f,hc,hw,by rw [hp,update_self]⟩)
    · exact .inl (by simp [hp,hpq])

theorem step_kinds (hk : code s c = pc::k) (h : step mq s c cl a = some s') :
    a = .go ∧ exec mq s c cl k pc = some s' ∨
    (∃ irq usr, a = .intr irq ∧ s' = goto (setCpu s c fun d => {d with fl := false}) c
      (.trap irq usr::.iret::code s c)) ∨ choose s c cl k pc a = some s' := by
  rw [KernelStep.step,hk] at h
  dsimp only at h
  split at h
  · exact .inl ⟨rfl,h⟩
  · unfold interrupt at h
    split_ifs at h
    cases h
    exact .inr (.inl ⟨_,_,rfl,rfl⟩)
  · exact .inr (.inr h)

end
end Xv6.ProcTable
