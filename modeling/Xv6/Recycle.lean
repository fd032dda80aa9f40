import Xv6.Lifecycle

/-!
# Recycled process slots

The kernel with the tables of open files. `fork` relies on what the last user of a slot left in it:
it sets neither `killed` nor `chan`, and copies only the open files of its parent. `wait`, `exit`
and the error paths of `fork` leave a slot clean. `kill` looks only at the pid of a slot, so
`kill(0)` finds one that is not in use, and the next process in it is born killed. When `kill` is
only called with pids of processes that have been made RUNNABLE, a process starts clean.
-/
namespace Xv6.Recycle
open SchedLog KernelState KernelStep Tally Frames Typing Handoff ProcTable Pids Lifecycle Machine
open Function (update update_of_ne update_self)
open MultiQueue

abbrev NOFILE : ℕ := 16

/-- The kernel and `ofile` of each process. Files are numbered. -/
structure FileState (cfg : Config) where
  kernel : State cfg
  ofile : cfg.Slot → Fin NOFILE → Option ℕ

/-- A step of the kernel, or an assignment to `myproc()->ofile[fd]`. -/
inductive FileLabel (cfg : Config) where
  | step (a : Label cfg)
  | assign (c : cfg.CpuId) (fd : Fin NOFILE) (file : Option ℕ)

section
variable {cfg : Config}

/-- The process whose `exit` is closing its files. -/
def closing : List (Pc cfg) → Option cfg.Slot
  | .kernel::k => k.findSome? fun
      | .exitClosed p => some p
      | _ => none
  | _ => none

def inSysfile : List (Pc cfg) → Bool
  | [.kernel,.sysret,.user] => true
  | _ => false

/-- `fork` copies the entries of the parent that are in use. -/
def copyFiles (ofile : cfg.Slot → Fin NOFILE → Option ℕ) (cur np : cfg.Slot) :
    cfg.Slot → Fin NOFILE → Option ℕ :=
  update ofile np fun fd =>
    match ofile cur fd with
    | some f => some f
    | none => ofile np fd

def nextFiles (s : FileState cfg) (a : Label cfg) : cfg.Slot → Fin NOFILE → Option ℕ :=
  match code s.kernel a.cpu,a.act with
  | .forkCopy cur np::_,.alloc true => copyFiles s.ofile cur np
  | _,_ => s.ofile

/-- The loop of `exit` that closes the files ends when there are none left. -/
def loopDone (s : FileState cfg) (a : Label cfg) : Bool :=
  match a.act,closing (code s.kernel a.cpu) with
  | .leave,some p => decide (∀ fd, s.ofile p fd = none)
  | _,_ => true

def fileStep (mq : Bool) (s : FileState cfg) : FileLabel cfg → Option (FileState cfg)
  | .step a =>
    if loopDone s a then (stepBy mq s.kernel a).map fun t => ⟨t,nextFiles s a⟩ else none
  | .assign c fd file =>
    match (s.kernel.cpu c).proc with
    | none => none
    | some p =>
      if inSysfile (code s.kernel c) ∨ closing (code s.kernel c) = some p ∧ file = none then
        some {s with ofile := update s.ofile p (update (s.ofile p) fd file)}
      else none

def start (cfg : Config) (mq : Bool) : FileState cfg := ⟨boot cfg mq,fun _ _ => none⟩

/-- What `kill` returns at this point of its scan, unless it goes on. -/
def killReturn (s : State cfg) : List (Pc cfg) → Option ℤ
  | .killScan pid i::_ =>
    match slot? cfg i with
    | none => some (-1)
    | some p => if (s.proc p).pid = pid then some 0 else none
  | _ => none

/-- The process that `fork` is about to make RUNNABLE. -/
def forkTarget : List (Pc cfg) → Option cfg.Slot
  | .forkRun np::_ => some np
  | _ => none

def Aimed (s : State cfg) (pid : ℤ) : Prop :=
  pid ≠ 0 ∧ pid < s.nextpid ∧ ∀ p, (s.proc p).pid = pid → ¬ Vacant (s.proc p).state

instance (s : State cfg) (pid : ℤ) : Decidable (Aimed s pid) :=
  inferInstanceAs (Decidable (_ ∧ _ ∧ _))

def KillsProcess (s : State cfg) : Act cfg → Prop
  | .user (.kill pid) => Aimed s pid
  | _ => True

instance decidableKillsProcess (s : State cfg) : (a : Act cfg) → Decidable (KillsProcess s a)
  | .user (.kill _) => inferInstanceAs (Decidable (Aimed _ _))
  | .user .fork | .user .exit | .user .wait | .user .bufwrite | .user .waitfork | .user .other
  | .user .fault | .user (.exec _) | .go | .alloc _ | .enter _ | .wake _ | .sleepOn _ | .leave
  | .intr _ => isTrue trivial

def Careful (mq : Bool) (s : FileState cfg) : FileLabel cfg → Prop
  | .step a => Ordered mq s.kernel a ∧ Unwrapped s.kernel a ∧ KillsProcess s.kernel a.act
  | .assign _ _ _ => True

instance decidableCareful (mq : Bool) (s : FileState cfg) :
    (a : FileLabel cfg) → Decidable (Careful mq s a)
  | .step _ => inferInstanceAs (Decidable (_ ∧ _ ∧ _))
  | .assign _ _ _ => isTrue trivial

/-- What the table and the stacks keep for the next user of a slot. -/
structure Clean (s : State cfg) : Prop where
  aimed : ∀ st pid i, .killScan pid i ∈ s.frames st → Aimed s pid
  vacant : ∀ p, Vacant (s.proc p).state → (s.proc p).killed = false ∧ (s.proc p).chan = none
  asleep : ∀ p, (s.proc p).chan ≠ none → ∃ l, .sleepAwake p l ∈ s.frames (.kstack p)
  zombie : ∀ p, (s.proc p).state = .zombie → (s.proc p).chan = none
  built : ∀ p cur np, .forkCopy cur np ∈ s.frames (.kstack p) ∨ .forkRun np ∈ s.frames (.kstack p) →
    s.frames (.kstack np) = [.forkret,.user]

/-- Program points of `exit` after its files are closed. -/
def closed (p : cfg.Slot) : Pc cfg → Bool
  | .exitLocked q | .exitReparent q _ => q = p
  | _ => false

structure FilesOk (s : FileState cfg) : Prop where
  unused : ∀ p, (s.kernel.proc p).state = .unused → s.ofile p = fun _ => none
  raw : ∀ p cur np, .allocStack cur np ∈ s.kernel.frames (.kstack p) ∨
    .forkCopy cur np ∈ s.kernel.frames (.kstack p) → s.ofile np = fun _ => none
  copied : ∀ cur np, .forkRun np ∈ s.kernel.frames (.kstack cur) →
    s.ofile np = s.ofile cur ∧ (s.kernel.proc np).parent = some cur
  closing : ∀ p, .exitClosed p ∈ s.kernel.frames (.kstack p) →
    .kernel ∈ s.kernel.frames (.kstack p) ∨ s.ofile p = fun _ => none
  closed : ∀ p pc, pc ∈ s.kernel.frames (.kstack p) → closed p pc = true → s.ofile p = fun _ => none
  zombie : ∀ p, (s.kernel.proc p).state = .zombie → s.ofile p = fun _ => none

end

section
variable {cfg : Config} {mq : Bool} {s s' : State cfg} {c : cfg.CpuId} {cl : Clock} {a : Act cfg}

theorem Aimed.step (hC : Core mq s) (ht : TableStep s c a s')
    (hu : allocTarget s (code s c) ≠ none → s.nextpid < 2^31-1) {pid : ℤ} (h : Aimed s pid) :
    Aimed s' pid := by
  obtain ⟨h0,hn,hp⟩ := h
  cases ht with
  | same hproc hnext => exact ⟨h0,hnext ▸ hn,fun p => by rw [hproc]; exact hp p⟩
  | alloc cur i k p hc hi hv hproc =>
    have hinc := incInt_of_lt (hu (by rw [hc,allocTarget_eq hi hv]; simp))
    refine ⟨h0,by omega,fun q hq => ?_⟩
    by_cases hqp : q = p
    · subst hqp
      simp only [hproc,update_self] at hq
      omega
    · simp only [hproc,update_of_ne hqp] at hq ⊢
      exact hp q hq
  | write pc k p f hc hw hproc hnext =>
    refine ⟨h0,hnext ▸ hn,fun q hq => ?_⟩
    by_cases hqp : q = p
    · subst hqp
      simp only [hproc,update_self] at hq ⊢
      cases hw
      case allocFail cur ha =>
        exact absurd (by rw [embryo_of_code hC hc (.inl rfl)]; trivial) (hp q hq)
      case copyFail cur ha =>
        exact absurd (by rw [embryo_of_code hC hc (.inr rfl)]; trivial) (hp q hq)
      case free => exact absurd hq.symm h0
      case kill i hi hpid =>
        dsimp only
        split_ifs
        · exact id
        · exact hp q hq
      case execName | fault | build | copy | sched | swtch | awake | reparent => exact hp q hq
      all_goals exact id
    · simp only [hproc,update_of_ne hqp] at hq ⊢
      exact hp q hq

theorem Clean.vacant_step (hC : Core mq s) (h : Clean s) (ht : TableStep s c a s') (p : cfg.Slot)
    (hv : Vacant (s'.proc p).state) : (s'.proc p).killed = false ∧ (s'.proc p).chan = none := by
  rcases ht.proc_cases p with hs | ⟨-,-,-,-,-,hu,hs⟩ | ⟨pc,k,f,hc,hw,hs⟩
  · rw [hs] at hv ⊢
    exact h.vacant p hv
  · rw [hs]
    exact h.vacant p (by rw [hu]; trivial)
  · rw [hs] at hv ⊢
    cases hw
    case execName | build | copy | sched | swtch | reparent => exact h.vacant p hv
    case fault hp =>
      rw [running_of_user hC hc hp] at hv
      exact hv.elim
    case allocFail cur ha =>
      exact h.vacant p (by rw [embryo_of_code hC hc (.inl rfl)]; trivial)
    case copyFail cur ha =>
      exact h.vacant p (by rw [embryo_of_code hC hc (.inr rfl)]; trivial)
    case awake l => exact ⟨(h.vacant p hv).1,rfl⟩
    case kill i hi hpid =>
      have hlive := (h.aimed _ _ i (mem_code hc)).2.2 p hpid
      dsimp only at hv
      split_ifs at hv
      · exact hv.elim
      · exact absurd hv hlive
    case free i kids hi hpar hz => exact ⟨rfl,h.zombie p hz⟩
    all_goals exact hv.elim

theorem sleepAwake_step {p : cfg.Slot} {l : Lock cfg} {k : List (Pc cfg)}
    (hk : code s c = .sleepAwake p l::k) (h : step mq s c cl a = some s') :
    (s'.proc p).chan = none ∨ ∀ st x, x ∈ s.frames st → x ∈ s'.frames st := by
  rcases step_kinds hk h with ⟨-,h⟩ | ⟨irq,usr,-,rfl⟩ | h
  · left
    simp only [exec] at h
    split_ifs at h <;> cases h <;> simp [goto,setProc]
  · right
    intro st x hx
    by_cases hst : st = (s.cpu c).stack
    · subst hst
      have hx : x ∈ code s c := hx
      simp [goto,setCpu,hx]
    · simpa [goto,setCpu,hst] using hx
  · cases h

theorem sleepLocked_step {p : cfg.Slot} {ch : Chan cfg} {l : Lock cfg} {k : List (Pc cfg)}
    (hk : code s c = .sleepLocked p ch l::k) (h : step mq s c cl a = some s') :
    (s'.proc p).chan = (s.proc p).chan ∨ .sleepAwake p l ∈ s'.frames (s.cpu c).stack := by
  rcases step_kinds hk h with ⟨-,h⟩ | ⟨irq,usr,-,rfl⟩ | h
  · right
    cases h
    simp [giveUp,goto,setState,setProc,logProc]
  · exact .inl rfl
  · cases h

theorem Clean.asleep_step (hC : Core mq s) (h : Clean s) (hs : step mq s c cl a = some s')
    (p : cfg.Slot) (hp : (s'.proc p).chan ≠ none) : ∃ l, .sleepAwake p l ∈ s'.frames (.kstack p) := by
  have ht := step_turn hs
  -- either the process was asleep before, or this is its own step into `sleep`
  have hold : (s'.proc p).chan = (s.proc p).chan ∨ ∃ ch l k, code s c = .sleepLocked p ch l::k := by
    rcases ht.table.proc_cases p with hsame | ⟨-,-,-,-,-,-,hsame⟩ | ⟨pc,k,f,hc,hw,hsame⟩
    · exact .inl (by rw [hsame])
    · exact .inl (by rw [hsame])
    · rw [hsame] at hp ⊢
      cases hw
      case sleep ch l => exact .inr ⟨ch,l,k,hc⟩
      case awake l => exact absurd rfl hp
      all_goals exact .inl rfl
  rcases hold with hold | ⟨ch,l,k,hk⟩
  · rw [hold] at hp
    obtain ⟨l,hl⟩ := h.asleep p hp
    rcases ht.frames.kept hl with hkeep | ⟨hst,pc,k,hk,rfl | hd⟩ | ⟨cur,np,k,hk,-,hst⟩
    · exact ⟨l,hkeep⟩
    · rcases sleepAwake_step hk hs with hn | hkeep
      · exact absurd (hold ▸ hn) hp
      · exact ⟨l,hkeep _ _ hl⟩
    · exact absurd (hst ▸ hl) (dropped hC hk hd (by simp) (by simp) (by rintro rfl; cases hd))
    · cases hst
      exact absurd (h.vacant p (by rw [embryo_of_code hC hk (.inl rfl)]; trivial)).2 hp
  · obtain ⟨H,-,hw⟩ := (hC.cpu c).rule hk
    have hst : (s.cpu c).stack = .kstack p := hw.2.2.1
    rcases sleepLocked_step hk hs with hn | hl
    · rw [hn] at hp
      obtain ⟨l',hl'⟩ := h.asleep p hp
      rcases ht.frames.kept hl' with hkeep | ⟨-,pc,k',hk',rfl | hd⟩ | ⟨cur,np,k',hk',-,-⟩
      · exact ⟨l',hkeep⟩
      · rw [hk] at hk'
        cases hk'
      · rw [hk] at hk'
        cases hk'
        cases hd
      · rw [hk] at hk'
        cases hk'
    · exact ⟨l,hst ▸ hl⟩

theorem Clean.zombie_step (hC : Core mq s) (h : Clean s) (ht : TableStep s c a s') (p : cfg.Slot)
    (hz : (s'.proc p).state = .zombie) : (s'.proc p).chan = none := by
  rcases ht.proc_cases p with hp | ⟨-,-,-,-,-,-,hp⟩ | ⟨pc,k,f,hc,hw,hp⟩
  · rw [hp] at hz ⊢
    exact h.zombie p hz
  · simp [hp] at hz
  · rw [hp] at hz ⊢
    cases hw
    case zombie i hi =>
      obtain ⟨H,-,-,hst,rfl⟩ := (hC.cpu c).rule hc
      by_contra hne
      obtain ⟨l,hl⟩ := h.asleep p hne
      have hcode : s.frames (.kstack p) = [.exitReparent p i] := by rw [← hst]; exact hc
      simp [hcode] at hl
    case kill i hi hpid =>
      dsimp only at hz ⊢
      split_ifs at hz
      exact h.zombie p hz
    case execName | fault | build | copy | sched | swtch | reparent => exact h.zombie p hz
    case awake => rfl
    all_goals cases hz

theorem Clean.built_step (hC : Core mq s) (h : Clean s) (hs : step mq s c cl a = some s')
    (p cur np : cfg.Slot) (hm : .forkCopy cur np ∈ s'.frames (.kstack p) ∨
      .forkRun np ∈ s'.frames (.kstack p)) : s'.frames (.kstack np) = [.forkret,.user] := by
  have ht := step_turn hs
  -- the stack of a slot under construction is nobody's, so a built one stays as it is
  have hkeep : (s.proc np).state = .embryo → s.frames (.kstack np) = [.forkret,.user] →
      s'.frames (.kstack np) = [.forkret,.user] := by
    intro he hb
    rcases ht.frames.other (stack_ne_vacant (c := c) hC (by rw [he]; trivial)) with hf | ⟨-,hf⟩
    · rw [hf,hb]
    · exact hf
  rcases hm with hm | hm
  · rcases ht.frames.born hm with hm | ⟨hst,k,hk,rfl⟩ | ⟨-,hm | hm⟩
    · exact hkeep (embryo_of_mem hC hm (by simp [forkTok])) (h.built p cur np (.inl hm))
    · have hne := stack_ne_vacant (c := c) hC (p := np)
        (by rw [embryo_of_code hC hk (.inl rfl)]; trivial)
      rcases step_kinds hk hs with ⟨ha,-⟩ | ⟨irq,usr,ha,-⟩ | h
      · cases ha
      · cases ha
      · cases h
        simp [goto,buildStack,setProc,hne]
    · cases hm
    · cases hm
  · rcases ht.frames.born hm with hm | ⟨hst,cur',k,hk,ha⟩ | ⟨-,hm | hm⟩
    · exact hkeep (embryo_of_mem hC hm (by simp [forkTok])) (h.built p cur np (.inr hm))
    · obtain ⟨H,-,hw⟩ := (hC.cpu c).rule hk
      have hst : (s.cpu c).stack = .kstack cur' := hw.2.1
      exact hkeep (embryo_of_code hC hk (.inr rfl)) (h.built cur' cur' np (.inl (hst ▸ mem_code hk)))
    · cases hm
    · cases hm

theorem Clean.step (hC : Core mq s) (h : Clean s) (hs : step mq s c cl a = some s')
    (hu : allocTarget s (code s c) ≠ none → s.nextpid < 2^31-1) (hk : KillsProcess s a) :
    Clean s' := by
  have ht := step_turn hs
  refine ⟨fun st pid i hm => ?_,h.vacant_step hC ht.table,h.asleep_step hC hs,
    h.zombie_step hC ht.table,h.built_step hC hs⟩
  refine Aimed.step hC ht.table hu ?_
  rcases ht.frames.born hm with hm | ⟨-,⟨k,-,rfl,-⟩ | ⟨j,k,hc⟩⟩ | ⟨-,hm | hm⟩
  · exact h.aimed st pid i hm
  · exact hk
  · exact h.aimed _ pid j (mem_code hc)
  · cases hm
  · cases hm

theorem Clean.boot (cfg : Config) (mq : Bool) : Clean (boot cfg mq) := by
  have hf := boot_frames cfg mq
  refine ⟨fun st pid i hm => ?_,fun p _ => ⟨(boot_proc cfg mq p).1,(boot_proc cfg mq p).2.1⟩,
    fun p hp => absurd (boot_proc cfg mq p).2.1 hp,fun p _ => (boot_proc cfg mq p).2.1,
    fun p cur np hm => ?_⟩
  · simpa using hf st _ hm
  · rcases hm with hm | hm
    · simpa using hf _ _ hm
    · simpa using hf _ _ hm

end

section Files
variable {cfg : Config} {mq : Bool} {s : FileState cfg} {t : State cfg} {a : Label cfg}
  {p : cfg.Slot} {k : List (Pc cfg)} {c : cfg.CpuId}

theorem nextFiles_cases (s : FileState cfg) (a : Label cfg) : nextFiles s a = s.ofile ∨
    ∃ cur np k, code s.kernel a.cpu = .forkCopy cur np::k ∧ a.act = .alloc true ∧
      nextFiles s a = copyFiles s.ofile cur np := by
  unfold nextFiles
  split
  · rename_i hk ha
    exact .inr ⟨_,_,_,hk,ha,rfl⟩
  · exact .inl rfl

theorem nextFiles_of_not_embryo (hC : Core mq s.kernel)
    (hp : (s.kernel.proc p).state ≠ .embryo) : nextFiles s a p = s.ofile p := by
  rcases nextFiles_cases s a with h | ⟨cur,np,k,hk,-,h⟩
  · rw [h]
  · have hne : p ≠ np := by
      rintro rfl
      exact hp (embryo_of_code hC hk (.inr rfl))
    rw [h,copyFiles,update_of_ne hne]

theorem copy_step {cur np : cfg.Slot}
    (hk : code s.kernel a.cpu = .forkCopy cur np::k) (ha : a.act = .alloc true)
    (hs : stepBy mq s.kernel a = some t) :
    t = goto (copyProc s.kernel a.clock cur np) a.cpu (.acquire .ptable::.forkRun np::k) ∧
      nextFiles s a = copyFiles s.ofile cur np := by
  constructor
  · rcases step_kinds hk hs with ⟨hg,-⟩ | ⟨irq,usr,hg,-⟩ | h
    · rw [ha] at hg
      cases hg
    · rw [ha] at hg
      cases hg
    · rw [ha] at h
      cases h
      rfl
  · simp [nextFiles,hk,ha]

theorem FilesOk.unused_step (hC : Core mq s.kernel) (h : FilesOk s)
    (hs : stepBy mq s.kernel a = some t) (p : cfg.Slot) (hu : (t.proc p).state = .unused) :
    nextFiles s a p = fun _ => none := by
  have hold : (s.kernel.proc p).state = .unused → nextFiles s a p = fun _ => none := by
    intro hp
    rw [nextFiles_of_not_embryo hC (by rw [hp]; simp)]
    exact h.unused p hp
  have hfail : ∀ pc cur k, code s.kernel a.cpu = pc::k →
      pc = .allocStack cur p ∨ pc = .forkCopy cur p → a.act = .alloc false →
      nextFiles s a p = fun _ => none := by
    intro pc cur k hk hpc ha
    have hnext : nextFiles s a = s.ofile := by
      rcases nextFiles_cases s a with h | ⟨cur,np,k,-,ht,-⟩
      · exact h
      · rw [ha] at ht
        cases ht
    obtain ⟨H,-,hw⟩ := (hC.cpu a.cpu).rule hk
    have hst : (s.kernel.cpu a.cpu).stack = .kstack cur := by
      rcases hpc with rfl | rfl <;> exact hw.2.1
    have hmem : pc ∈ s.kernel.frames (.kstack cur) := hst ▸ mem_code hk
    rw [hnext]
    exact h.raw cur cur p (by rcases hpc with rfl | rfl <;> simp [hmem])
  rcases (step_turn hs).table.proc_cases p with hp | ⟨-,-,-,-,-,-,hp⟩ | ⟨pc,k,f,hc,hw,hp⟩
  · exact hold (hp ▸ hu)
  · simp [hp] at hu
  · rw [hp] at hu
    cases hw
    case allocFail cur ha => exact hfail _ cur k hc (.inl rfl) ha
    case copyFail cur ha => exact hfail _ cur k hc (.inr rfl) ha
    case free i kids hi hpar hz =>
      rw [nextFiles_of_not_embryo hC (by rw [hz]; simp)]
      exact h.zombie p hz
    case kill i hi hpid =>
      dsimp only at hu
      split_ifs at hu
      exact hold hu
    case execName | fault | build | copy | sched | swtch | awake | reparent => exact hold hu
    all_goals cases hu

theorem FilesOk.raw_step (hC : Core mq s.kernel) (hC' : Core mq t) (h : FilesOk s)
    (hs : stepBy mq s.kernel a = some t) (p cur np : cfg.Slot)
    (hm : .allocStack cur np ∈ t.frames (.kstack p) ∨ .forkCopy cur np ∈ t.frames (.kstack p)) :
    nextFiles s a np = fun _ => none := by
  -- a copy to the slot would leave two program points that work on it
  have hkeep : s.ofile np = (fun _ => none) → nextFiles s a np = fun _ => none := by
    intro hnp
    rcases nextFiles_cases s a with hn | ⟨cur',np',k,hk,ha,hn⟩
    · rw [hn,hnp]
    · by_cases hne : np = np'
      · subst hne
        obtain ⟨rfl,-⟩ := copy_step hk ha hs
        obtain ⟨H,-,-,hst,-⟩ := (hC.cpu a.cpu).rule hk
        have hrun : .forkRun np ∈ (goto (copyProc s.kernel a.clock cur' np) a.cpu
            (.acquire .ptable::.forkRun np::k)).frames (.kstack cur') := by
          rw [← hst]
          simp [goto,copyProc,logClock,setProc]
        rcases hm with hm | hm
        · cases fork_unique hC' np hm hrun (by simp [forkTok]) (by simp [forkTok])
        · cases fork_unique hC' np hm hrun (by simp [forkTok]) (by simp [forkTok])
      · rw [hn,copyFiles,update_of_ne hne,hnp]
  have ht := (step_turn hs).frames
  rcases hm with hm | hm
  · rcases ht.born hm with hold | ⟨-,i,k,hk,hi,hu⟩ | ⟨-,hx | hx⟩
    · exact hkeep (h.raw p cur np (.inl hold))
    · exact hkeep (h.unused np hu)
    · cases hx
    · cases hx
  · rcases ht.born hm with hold | ⟨-,k,hk,ha⟩ | ⟨-,hx | hx⟩
    · exact hkeep (h.raw p cur np (.inr hold))
    · obtain ⟨H,-,-,hst,-⟩ := (hC.cpu a.cpu).rule hk
      exact hkeep (h.raw cur cur np (.inl (hst ▸ mem_code hk)))
    · cases hx
    · cases hx

theorem FilesOk.copied_step (hC : Core mq s.kernel) (h : FilesOk s)
    (hs : stepBy mq s.kernel a = some t) (cur np : cfg.Slot)
    (hm : .forkRun np ∈ t.frames (.kstack cur)) :
    nextFiles s a np = nextFiles s a cur ∧ (t.proc np).parent = some cur := by
  rcases (step_turn hs).frames.born hm with hold | ⟨hst,cur',k,hk,ha⟩ | ⟨-,hx | hx⟩
  · obtain ⟨hfile,hpar⟩ := h.copied cur np hold
    have hemb : (s.kernel.proc np).state = .embryo := embryo_of_mem hC hold (by simp [forkTok])
    have halive : (s.kernel.proc cur).state ≠ .embryo := by
      intro he
      have hz := hC.fork.dead cur np (by rw [he]; exact id)
      have := le_weight_of_mem (w := forkTok np) hold
      simp [forkTok,hz] at this
    -- the child has been copied to, and nothing else is
    have hkeep : nextFiles s a np = s.ofile np := by
      rcases nextFiles_cases s a with hn | ⟨cur',np',k,hk,ha,hn⟩
      · rw [hn]
      · have hne : np ≠ np' := by
          rintro rfl
          obtain ⟨H,-,-,hst,-⟩ := (hC.cpu a.cpu).rule hk
          cases fork_unique hC np hold (hst ▸ mem_code hk) (by simp [forkTok]) (by simp [forkTok])
        rw [hn,copyFiles,update_of_ne hne]
    refine ⟨by rw [hkeep,nextFiles_of_not_embryo hC halive,hfile],?_⟩
    rcases (step_turn hs).table.proc_cases np with hp | ⟨-,-,-,-,-,hv,-⟩ | ⟨pc,k,f,hc,hw,hp⟩
    · rw [hp,hpar]
    · rw [hemb] at hv
      cases hv
    · rw [hp]
      cases hw
      case copy cur' ha =>
        obtain ⟨H,-,-,hst,-⟩ := (hC.cpu a.cpu).rule hc
        cases fork_unique hC np hold (hst ▸ mem_code hc) (by simp [forkTok]) (by simp [forkTok])
      case reparent p i hi hq =>
        rw [hpar] at hq
        cases hq
        obtain ⟨H,-,-,hst,rfl⟩ := (hC.cpu a.cpu).rule hc
        have hcode : s.kernel.frames (.kstack cur) = [.exitReparent cur i] := by
          rw [← hst]
          exact hc
        simp [hcode] at hold
      case free p i kids hi hq hz =>
        rw [hemb] at hz
        cases hz
      all_goals exact hpar
  · obtain ⟨rfl,hn⟩ := copy_step hk ha hs
    obtain ⟨H,-,-,hst',-⟩ := (hC.cpu a.cpu).rule hk
    rw [hst'] at hst
    cases hst
    have hemb := embryo_of_code hC hk (.inr rfl)
    have hne : cur ≠ np := by
      rintro rfl
      exact stack_ne_vacant (c := a.cpu) hC (by rw [hemb]; trivial) hst'.symm
    have hraw := h.raw cur cur np (.inr (hst' ▸ mem_code hk))
    refine ⟨?_,by simp [goto,copyProc,logClock,setProc]⟩
    rw [hn,copyFiles,update_self,update_of_ne hne]
    funext fd
    cases hf : s.ofile cur fd with
    | none => simp [hraw]
    | some => rfl
  · cases hx
  · cases hx

theorem nextFiles_of_mem (hclean : Clean s.kernel) (hC : Core mq s.kernel) {x : Pc cfg}
    (hx : x ∈ s.kernel.frames (.kstack p)) (hf : x ≠ .forkret) (hu : x ≠ .user) :
    nextFiles s a p = s.ofile p := by
  rcases nextFiles_cases s a with h | ⟨cur,np,k,hk,-,h⟩
  · rw [h]
  · have hne : p ≠ np := by
      rintro rfl
      obtain ⟨H,-,-,hst,-⟩ := (hC.cpu a.cpu).rule hk
      rw [hclean.built cur cur p (.inl (hst ▸ mem_code hk))] at hx
      simp [hf,hu] at hx
    rw [h,copyFiles,update_of_ne hne]

/-- `exit` is only on the stack of the process that exits. -/
theorem closing_eq (hC : Core mq s.kernel)
    (hst : (s.kernel.cpu c).stack = .kstack p) (hk : code s.kernel c = .kernel::k)
    (hm : .exitClosed p ∈ k) : closing (code s.kernel c) = some p := by
  obtain ⟨H,-,hw⟩ := (hC.cpu c).rule hk
  rw [hk]
  simp only [closing]
  cases hf : k.findSome? (fun | .exitClosed p => some p | _ => none : Pc cfg → Option cfg.Slot) with
  | none =>
    have := List.findSome?_eq_none_iff.mp hf _ hm
    simp at this
  | some =>
    obtain ⟨x,hx,hq⟩ := List.exists_of_findSome?_eq_some hf
    cases x <;> simp only [reduceCtorEq,Option.some.injEq] at hq
    subst hq
    obtain ⟨H',k',hw',-⟩ := hw.mem (.tail _ hx)
    have : (s.kernel.cpu c).stack = _ := hw'.2.1
    rw [hst] at this
    cases this
    rfl

theorem kernel_step (hk : code s.kernel a.cpu = .kernel::k) (hs : stepBy mq s.kernel a = some t) :
    a.act = .leave ∨ .kernel ∈ t.frames (s.kernel.cpu a.cpu).stack := by
  rcases step_kinds hk hs with ⟨-,h⟩ | ⟨irq,usr,-,rfl⟩ | h
  · cases h
  · right
    simp [goto,setCpu,hk]
  · cases ha : a.act <;> rw [ha] at h <;> cases h
    · right
      simp [goto]
    · right
      simp [goto]
    · exact .inl rfl

theorem exit_step (hk : code s.kernel a.cpu = .exit::k)
    (hp : (s.kernel.cpu a.cpu).proc = some p) (hs : stepBy mq s.kernel a = some t)
    (hm : .exitClosed p ∈ t.frames (s.kernel.cpu a.cpu).stack) :
    .kernel ∈ t.frames (s.kernel.cpu a.cpu).stack ∨ .exitClosed p ∈ code s.kernel a.cpu := by
  rcases step_kinds hk hs with ⟨-,h⟩ | ⟨irq,usr,-,rfl⟩ | h
  · simp only [exec,withProc,hp] at h
    split_ifs at h <;> cases h
    · right
      simpa [KernelStep.panic,goto,setCpu] using hm
    · left
      simp [goto]
  · right
    simpa [goto,setCpu] using hm
  · cases h

theorem FilesOk.closing_step (hC : Core mq s.kernel) (hclean : Clean s.kernel) (h : FilesOk s)
    (hl : loopDone s a = true) (hs : stepBy mq s.kernel a = some t) (p : cfg.Slot)
    (hm : .exitClosed p ∈ t.frames (.kstack p)) :
    .kernel ∈ t.frames (.kstack p) ∨ nextFiles s a p = fun _ => none := by
  have ht := (step_turn hs).frames
  -- the loop goes on, or it has just ended, or it had ended before
  have hold : .exitClosed p ∈ s.kernel.frames (.kstack p) →
      .kernel ∈ t.frames (.kstack p) ∨ nextFiles s a p = fun _ => none := by
    intro hold
    have hkeep := nextFiles_of_mem (a := a) hclean hC hold (by simp) (by simp)
    rw [hkeep]
    rcases h.closing p hold with hker | hfile
    · rcases ht.kept hker with hker | ⟨hst,pc,k,hk,rfl | hd⟩ | ⟨cur,np,k,hk,ha,hst⟩
      · exact .inl hker
      · have hin : .exitClosed p ∈ code s.kernel a.cpu := by
          rw [code,← hst]
          exact hold
        rcases kernel_step hk hs with ha | hker
        · have hcl := closing_eq hC hst.symm hk (by simpa [hk] using hin)
          simp only [loopDone,ha,hcl,decide_eq_true_eq] at hl
          exact .inr (funext hl)
        · exact .inl (hst ▸ hker)
      · exact absurd (hst ▸ hold) (dropped hC hk hd (by simp) (by simp) (by rintro rfl; cases hd))
      · cases hst
        have hne := stack_ne_vacant (c := a.cpu) hC (p := p)
          (by rw [embryo_of_code hC hk (.inl rfl)]; trivial)
        rcases ht.other hne with hf | ⟨-,hf⟩
        · exact .inl (hf ▸ hker)
        · simp [hf] at hm
    · exact .inr hfile
  rcases ht.born hm with hm' | ⟨hst,k,hk,hp,-⟩ | ⟨-,hx | hx⟩
  · exact hold hm'
  · rcases exit_step hk hp hs (hst ▸ hm) with hker | hm'
    · exact .inl (hst ▸ hker)
    · exact hold (hst ▸ hm')
  · cases hx
  · cases hx

theorem FilesOk.closed_step (hC : Core mq s.kernel) (hclean : Clean s.kernel) (h : FilesOk s)
    (hs : stepBy mq s.kernel a = some t) (p : cfg.Slot) (pc : Pc cfg)
    (hm : pc ∈ t.frames (.kstack p)) (hc : Recycle.closed p pc = true) :
    nextFiles s a p = fun _ => none := by
  have hdone : ∀ x, x ∈ s.kernel.frames (.kstack p) → Recycle.closed p x = true →
      nextFiles s a p = fun _ => none := by
    intro x hx hcx
    rw [nextFiles_of_mem hclean hC hx (by rintro rfl; cases hcx) (by rintro rfl; cases hcx)]
    exact h.closed p x hx hcx
  rcases (step_turn hs).frames.born hm with hold | ⟨hst,hb⟩ | ⟨-,rfl | rfl⟩
  · exact hdone pc hold hc
  · cases pc <;> simp only [Recycle.closed,decide_eq_true_eq,Bool.false_eq_true] at hc
    case exitLocked q =>
      subst hc
      obtain ⟨k,hk⟩ := hb
      obtain ⟨H,-,-,hst',rfl⟩ := (hC.cpu a.cpu).rule hk
      have hcode : s.kernel.frames (.kstack q) = [.exitClosed q] := by
        rw [← hst']
        exact hk
      rw [nextFiles_of_mem hclean hC (x := .exitClosed q) (by simp [hcode]) (by simp) (by simp)]
      rcases h.closing q (by simp [hcode]) with hker | hfile
      · simp [hcode] at hker
      · exact hfile
    case exitReparent =>
      subst hc
      rcases hb with ⟨k,hk,-⟩ | ⟨j,k,q,hk,-⟩
      · exact hdone _ (hst ▸ mem_code hk) (by simp [Recycle.closed])
      · exact hdone _ (hst ▸ mem_code hk) (by simp [Recycle.closed])
  · cases hc
  · cases hc

theorem FilesOk.zombie_step (hC : Core mq s.kernel) (hclean : Clean s.kernel) (h : FilesOk s)
    (hs : stepBy mq s.kernel a = some t) (p : cfg.Slot) (hz : (t.proc p).state = .zombie) :
    nextFiles s a p = fun _ => none := by
  have hold : (s.kernel.proc p).state = .zombie → nextFiles s a p = fun _ => none := by
    intro hp
    rw [nextFiles_of_not_embryo hC (by rw [hp]; simp)]
    exact h.zombie p hp
  rcases (step_turn hs).table.proc_cases p with hp | ⟨-,-,-,-,-,-,hp⟩ | ⟨pc,k,f,hc,hw,hp⟩
  · exact hold (hp ▸ hz)
  · simp [hp] at hz
  · rw [hp] at hz
    cases hw
    case zombie i hi =>
      obtain ⟨H,-,-,hst,-⟩ := (hC.cpu a.cpu).rule hc
      have hm := hst ▸ mem_code hc
      rw [nextFiles_of_mem hclean hC hm (by simp) (by simp)]
      exact h.closed p _ hm (by simp [Recycle.closed])
    case kill i hi hpid =>
      dsimp only at hz
      split_ifs at hz
      exact hold hz
    case execName | fault | build | copy | sched | swtch | awake | reparent => exact hold hz
    all_goals cases hz

theorem FilesOk.step (hC : Core mq s.kernel) (hC' : Core mq t) (hclean : Clean s.kernel)
    (h : FilesOk s) (hl : loopDone s a = true) (hs : stepBy mq s.kernel a = some t) :
    FilesOk ⟨t,nextFiles s a⟩ :=
  ⟨h.unused_step hC hs,h.raw_step hC hC' hs,h.copied_step hC hs,h.closing_step hC hclean hl hs,
    h.closed_step hC hclean hs,h.zombie_step hC hclean hs⟩

/-- Under the closing of files in `exit` the only program point of `fork` or `exit` on the stack
is the one that comes next. -/
theorem closing_last (hC : Core mq s.kernel) {x : Pc cfg}
    (hcl : closing (code s.kernel c) = some p)
    (hx : (∃ np, x = .forkRun np) ∨ closed p x = true) :
    x ∉ code s.kernel c := by
  intro hm
  unfold closing at hcl
  split at hcl
  · rename_i k hk
    obtain ⟨H,-,hw⟩ := (hC.cpu c).rule hk
    obtain ⟨y,hy,hyp⟩ := List.exists_of_findSome?_eq_some hcl
    have hlast : ∀ z j, z::j <:+ .kernel::k → (Pc.kernel::k).getLast? = (z::j).getLast? := by
      rintro z j ⟨l,hl⟩
      rw [← hl,List.getLast?_append_cons]
    cases y <;> simp only [reduceCtorEq,Option.some.injEq] at hyp
    subst hyp
    obtain ⟨H₁,k₁,hw₁,hs₁⟩ := hw.mem (.tail _ hy)
    obtain ⟨H₂,k₂,hw₂,hs₂⟩ := hw.mem (hk ▸ hm)
    have hend := (hlast _ _ hs₁).symm.trans (hlast _ _ hs₂)
    rw [hw₁.2.2] at hend
    rcases hx with ⟨np,rfl⟩ | hx
    · rw [hw₂.2.2] at hend
      cases hend
    · cases x <;> simp only [closed,Bool.false_eq_true] at hx
      · rw [hw₂.2.2] at hend
        cases hend
      · rw [hw₂.2.2] at hend
        cases hend
  · cases hcl

theorem FilesOk.assign {fd : Fin NOFILE} {file : Option ℕ}
    (hC : Core mq s.kernel) (h : FilesOk s) (hp : (s.kernel.cpu c).proc = some p)
    (hok : inSysfile (code s.kernel c) = true ∨
      Recycle.closing (code s.kernel c) = some p ∧ file = none) :
    FilesOk {s with ofile := update s.ofile p (update (s.ofile p) fd file)} := by
  obtain ⟨k,hk⟩ : ∃ k, code s.kernel c = .kernel::k := by
    rcases hok with hok | ⟨hok,-⟩
    · unfold inSysfile at hok
      split at hok
      · rename_i hk
        exact ⟨_,hk⟩
      · cases hok
    · unfold Recycle.closing at hok
      split at hok
      · rename_i k hk
        exact ⟨k,hk⟩
      · cases hok
  obtain ⟨H,-,-,hst,hsteady,-⟩ := (hC.cpu c).rule hk
  obtain ⟨q,hon,hq⟩ := (hC.cpu c).on_of_isKstack hst
  cases hp.symm.trans hq
  have hrun := hC.runs c p hon (by rw [hk]; exact hsteady.plain)
  have hcode : s.kernel.frames (.kstack p) = code s.kernel c := by rw [code,hon]
  -- only the files of the running process change, and not where `fork` or `exit` relies on them
  have hkeep : ∀ q, (s.kernel.proc q).state ≠ .running →
      update s.ofile p (update (s.ofile p) fd file) q = s.ofile q := by
    intro q hne
    rw [update_of_ne]
    rintro rfl
    exact hne hrun
  have hne : ∀ x, (∃ np, x = .forkRun np) ∨ Recycle.closed p x = true →
      x ∉ s.kernel.frames (.kstack p) := by
    intro x hx hm
    rw [hcode] at hm
    rcases hok with hok | ⟨hok,-⟩
    · unfold inSysfile at hok
      split at hok
      · rename_i hk
        simp only [hk,List.mem_cons,List.not_mem_nil,or_false] at hm
        rcases hm with rfl | rfl | rfl <;> simp [Recycle.closed] at hx
      · cases hok
    · exact closing_last hC hok hx hm
  refine ⟨fun q hu => ?_,fun q cur np hm => ?_,fun cur np hm => ?_,fun q hm => ?_,
    fun q pc hm hc => ?_,fun q hz => ?_⟩
  · exact (hkeep q (by rw [hu]; simp)).trans (h.unused q hu)
  · have he : (s.kernel.proc np).state = .embryo := by
      rcases hm with hm | hm <;> exact embryo_of_mem hC hm (by simp [forkTok])
    exact (hkeep np (by rw [he]; simp)).trans (h.raw q cur np hm)
  · have hcp : cur ≠ p := by
      rintro rfl
      exact hne _ (.inl ⟨np,rfl⟩) hm
    have he : (s.kernel.proc np).state = .embryo := embryo_of_mem hC hm (by simp [forkTok])
    obtain ⟨hf,hpar⟩ := h.copied cur np hm
    refine ⟨?_,hpar⟩
    dsimp only
    rw [hkeep np (by rw [he]; simp),update_of_ne hcp,hf]
  · by_cases hqp : q = p
    · subst hqp
      refine .inl ?_
      dsimp only
      rw [hcode,hk]
      simp
    · dsimp only
      rw [update_of_ne hqp]
      exact h.closing q hm
  · have hqp : q ≠ p := by
      rintro rfl
      exact hne pc (.inr hc) hm
    dsimp only
    rw [update_of_ne hqp]
    exact h.closed q pc hm hc
  · exact (hkeep q (by rw [hz]; simp)).trans (h.zombie q hz)

theorem FilesOk.start (cfg : Config) (mq : Bool) : FilesOk (start cfg mq) := by
  have hf := boot_frames cfg mq
  refine ⟨fun p _ => rfl,fun p cur np _ => rfl,fun cur np hm => ?_,fun p _ => .inr rfl,
    fun p pc _ _ => rfl,fun p _ => rfl⟩
  simpa using hf _ _ hm

structure Tidy (mq : Bool) (s : FileState cfg) : Prop where
  handled : Handled mq s.kernel
  clean : Clean s.kernel
  files : FilesOk s

theorem Tidy.step {s' : FileState cfg} {b : FileLabel cfg} (h : Tidy mq s) (hb : Careful mq s b)
    (hs : fileStep mq s b = some s') : Tidy mq s' := by
  have hC := h.handled.core
  cases b with
  | step =>
    obtain ⟨ho,hu,hk⟩ := hb
    simp only [fileStep] at hs
    split_ifs at hs with hl
    obtain ⟨t,ht,rfl⟩ := Option.map_eq_some_iff.mp hs
    have hH := h.handled.step ho ht
    exact ⟨hH,h.clean.step hC ht hu hk,h.files.step hC hH.core h.clean hl ht⟩
  | assign c fd file =>
    simp only [fileStep] at hs
    split at hs
    · cases hs
    · rename_i p hp
      split_ifs at hs with hok
      cases hs
      exact ⟨h.handled,h.clean,h.files.assign hC hp hok⟩

theorem Tidy.of_reach (h : Reach (fileStep mq) (Careful mq) (start cfg mq) s) : Tidy mq s :=
  h.invariant ⟨.boot cfg mq,.boot cfg mq,.start cfg mq⟩ fun _ _ _ => Tidy.step

/-- The scan of `kill` over slots that do not have the pid changes nothing. -/
theorem kill_scan {s : State cfg} {cl : Clock} {pid : ℤ}
    (n : ℕ) (i : ℕ) (hn : i+n = cfg.nproc) (hk : code s c = .killScan pid i::k)
    (hp : ∀ p, (s.proc p).pid ≠ pid) :
    run (stepBy mq) s (List.replicate n ⟨c,.go,cl⟩) = some (goto s c (.killScan pid cfg.nproc::k)) := by
  induction n generalizing s i with
  | zero =>
    have hi : i = cfg.nproc := by omega
    subst hi
    simp [run,goto,← hk,code]
  | succ n ih =>
    have hi : slot? cfg i = some ⟨i,by omega⟩ := dif_pos (by omega)
    have hstep : stepBy mq s ⟨c,.go,cl⟩ = some (goto s c (.killScan pid (i+1)::k)) := by
      simp [stepBy,KernelStep.step,hk,exec,hi,hp]
    simp only [List.replicate_succ,run,hstep,Option.bind_some]
    have hih := ih (s := goto s c (.killScan pid (i+1)::k)) (i+1) (by omega) (code_goto _ _ _) hp
    simpa [goto] using hih

theorem forkTarget_eq {np : cfg.Slot} (h : forkTarget k = some np) : ∃ k', k = .forkRun np::k' := by
  unfold forkTarget at h
  split at h
  · cases h
    exact ⟨_,rfl⟩
  · cases h

/-- In every careful run `kill` finds no slot that is not in use; without a process of
that pid it returns -1 and changes nothing; and a process that `fork` is about to make RUNNABLE
has not been killed, waits on no channel and has the open files of its parent. -/
theorem recycled_clean (h : Reach (fileStep mq) (Careful mq) (start cfg mq) s) :
    (∀ c pid i k, code s.kernel c = .killScan pid i::k →
      (killReturn s.kernel (code s.kernel c) = some 0 →
        ∃ p, (s.kernel.proc p).pid = pid ∧ (s.kernel.proc p).state ≠ .unused) ∧
      (i = 0 → (∀ p, (s.kernel.proc p).state ≠ .unused → (s.kernel.proc p).pid ≠ pid) → ∀ cl,
        run (stepBy mq) s.kernel (List.replicate cfg.nproc ⟨c,.go,cl⟩) =
          some (goto s.kernel c (.killScan pid cfg.nproc::k)) ∧
        killReturn s.kernel (.killScan pid cfg.nproc::k) = some (-1))) ∧
    ∀ c np, forkTarget (code s.kernel c) = some np → ∃ cur, (s.kernel.cpu c).proc = some cur ∧
      (s.kernel.proc np).parent = some cur ∧ (s.kernel.proc np).killed = false ∧
      (s.kernel.proc np).chan = none ∧ s.ofile np = s.ofile cur := by
  have hT := Tidy.of_reach h
  have hC := hT.handled.core
  constructor
  · intro c pid i k hk
    have haim := (hT.clean.aimed _ pid i (mem_code hk)).2.2
    constructor
    · intro hr
      simp only [hk,killReturn] at hr
      split at hr
      · cases hr
      · rename_i p hi
        split_ifs at hr with hp
        refine ⟨p,hp,fun hu => haim p hp ?_⟩
        rw [hu]
        trivial
    · rintro rfl hnone cl
      have hmiss : ∀ p, (s.kernel.proc p).pid ≠ pid := by
        intro p hp
        refine hnone p (fun hu => haim p hp ?_) hp
        rw [hu]
        trivial
      exact ⟨kill_scan cfg.nproc 0 (by omega) hk hmiss,by simp [killReturn,slot?]⟩
  · intro c np hnp
    obtain ⟨k,hk⟩ := forkTarget_eq hnp
    obtain ⟨H,-,-,hst,-⟩ := (hC.cpu c).rule hk
    obtain ⟨cur,hon,hcur⟩ := (hC.cpu c).on_of_isKstack hst
    have hon : (s.kernel.cpu c).stack = .kstack cur := hon
    have hm : .forkRun np ∈ s.kernel.frames (.kstack cur) := hon ▸ mem_code hk
    have he : (s.kernel.proc np).state = .embryo := embryo_of_mem hC hm (by simp [forkTok])
    obtain ⟨hf,hpar⟩ := hT.files.copied cur np hm
    obtain ⟨hkill,hchan⟩ := hT.clean.vacant np (by rw [he]; trivial)
    exact ⟨cur,hcur,hpar,hkill,hchan,hf⟩

end Files

section Runs
open RoundRobin

def kernelRun (as : List (Label small)) : List (FileLabel small) := as.map .step

/-- The first process calls `kill(0)`, as far as the slot in which the pid is found. -/
def killZero : List (FileLabel small) :=
  kernelRun (firstDispatch++on 0 (.user (.kill 0))::gos 3 0)

def forkBegins : List (FileLabel small) :=
  kernelRun (on 0 (.user .fork)::gos 5 0++on 0 (.alloc true)::on 0 (.alloc true)::gos 2 0)

/-- `kill(0)` returns 0 without a process of pid 0, and the next child is born killed. -/
theorem killZero_found : (∃ s, run (fileStep false) (start small false) killZero = some s ∧
      killReturn s.kernel (code s.kernel 0) = some 0 ∧
      ∀ p, (s.kernel.proc p).state ≠ .unused → (s.kernel.proc p).pid ≠ 0) ∧
    ∃ s, run (fileStep false) (start small false) (killZero++kernelRun (gos 3 0)++forkBegins) =
      some s ∧ forkTarget (code s.kernel 0) = some 1 ∧ (s.kernel.proc 1).killed = true := by
  have h₁ : (run (fileStep false) (start small false) killZero).any (fun s =>
      killReturn s.kernel (code s.kernel 0) = some 0 ∧
      ∀ p, (s.kernel.proc p).state ≠ .unused → (s.kernel.proc p).pid ≠ 0) = true := by
    decide +kernel
  have h₂ : (run (fileStep false) (start small false)
      (killZero++kernelRun (gos 3 0)++forkBegins)).any (fun s =>
        forkTarget (code s.kernel 0) = some 1 ∧ (s.kernel.proc 1).killed = true) = true := by
    decide +kernel
  obtain ⟨s,hs,hp⟩ := (Option.any_eq_true _ _).mp h₁
  obtain ⟨t,ht,hq⟩ := (Option.any_eq_true _ _).mp h₂
  exact ⟨⟨s,hs,of_decide_eq_true hp⟩,t,ht,of_decide_eq_true hq⟩

def openForks : List (FileLabel small) :=
  kernelRun (firstDispatch++[on 0 (.user .other)])++
    .assign 0 3 (some 7)::kernelRun [on 0 .leave,go 0]++forkBegins

/-- The child has the file of its parent. -/
theorem openForks_clean : ∃ s, run (guarded (fileStep false) (Careful false))
      (start small false) openForks = some s ∧
    forkTarget (code s.kernel 0) = some 1 ∧ (s.kernel.proc 1).killed = false ∧
    (s.kernel.proc 1).chan = none ∧ s.ofile 1 3 = some 7 ∧ s.ofile 1 = s.ofile 0 := by
  have hrun : (run (guarded (fileStep false) (Careful false)) (start small false)
      openForks).any (fun s => forkTarget (code s.kernel 0) = some 1 ∧
        (s.kernel.cpu 0).proc = some 0 ∧ s.ofile 1 3 = some 7) = true := by decide +kernel
  obtain ⟨s,hs,hp⟩ := (Option.any_eq_true _ _).mp hrun
  obtain ⟨hf,hcpu,hfile⟩ := of_decide_eq_true hp
  obtain ⟨cur,hcur,-,hkill,hchan,hof⟩ := (recycled_clean (Reach.refl.of_run hs)).2 0 1 hf
  rw [hcpu] at hcur
  cases hcur
  exact ⟨s,hs,hf,hkill,hchan,hfile,hof⟩

end Runs
end Xv6.Recycle
