import Xv6.Lifecycle

/-!
# The start barrier of the workload

`yieldrepeat` forks `FORK_NUM` children, and each of them calls `waitfork` before it computes.
`sys_waitfork` waits for `finished_fork`, which is set by the caller whose pid is 3+32 and never
cleared. That no child passes before all are forked holds for the first workload of a system that
has given out three pids, when nothing else allocates a process and every `fork` succeeds.
-/
namespace Xv6.Waitfork
open KernelState KernelStep Frames Tally Typing Handoff Effects ProcTable Pids List
open Lifecycle Machine MultiQueue

def FORK_NUM : ℕ := 32

/-- The kernel, the children that one process has forked, and the pids of the processes that have
called `waitfork` and that have returned from it. -/
structure Watched (cfg : Config) where
  kernel : State cfg
  forked : List ℤ
  called : List ℤ
  returned : List ℤ

section
variable {cfg : Config}

def watch (s : State cfg) : Watched cfg := ⟨s,[],[],[]⟩

def note (w : cfg.Slot) (s : Watched cfg) (a : Label cfg) : Watched cfg :=
  match code s.kernel a.cpu,a.act,(s.kernel.cpu a.cpu).proc with
  | .forkRun np::_,.go,some p =>
    if p = w then {s with forked := s.forked++[(s.kernel.proc np).pid]} else s
  | .waitfork::_,.go,some p => {s with called := s.called++[(s.kernel.proc p).pid]}
  | .waitforkLoop::_,.go,some p =>
    if s.kernel.log.finishedFork then {s with returned := s.returned++[(s.kernel.proc p).pid]}
    else s
  | _,_,_ => s

def watchStep (mq : Bool) (w : cfg.Slot) (s : Watched cfg) (a : Label cfg) : Option (Watched cfg) :=
  (stepBy mq s.kernel a).map fun t => {note w s a with kernel := t}

def Barrier (s : Watched cfg) : Prop :=
  (∀ pid ∈ s.forked, pid ∈ s.returned → FORK_NUM ≤ s.forked.length) ∧
  (s.forked.length = FORK_NUM → (∀ pid ∈ s.forked, pid ∈ s.called) → s.kernel.log.finishedFork = true)

instance (s : Watched cfg) : Decidable (Barrier s) := inferInstanceAs (Decidable (_ ∧ _))

/-- Processes are allocated by the workload only, which forks at most `FORK_NUM` times and whose
allocations succeed. -/
def Undisturbed (mq : Bool) (w : cfg.Slot) (s : Watched cfg) (a : Label cfg) : Prop :=
  Ordered mq s.kernel a ∧
  (allocTarget s.kernel (code s.kernel a.cpu) ≠ none →
    (s.kernel.cpu a.cpu).proc = some w ∧ s.forked.length < FORK_NUM) ∧
  ((s.kernel.cpu a.cpu).proc = some w → fails a.act = false)
where
  fails : Act cfg → Bool
    | .alloc ok => !ok
    | _ => false

instance (mq : Bool) (w : cfg.Slot) (s : Watched cfg) (a : Label cfg) :
    Decidable (Undisturbed mq w s a) := inferInstanceAs (Decidable (_ ∧ _ ∧ _))

def Pending (s : State cfg) (w np : cfg.Slot) : Prop :=
  ∃ x ∈ s.frames (.kstack w), forkTok np x ≠ 0

structure Counting (w : cfg.Slot) (s : Watched cfg) : Prop where
  forked : s.forked = (range s.forked.length).map fun i : ℕ => (4+i : ℤ)
  bound : s.forked.length ≤ FORK_NUM
  next : (∀ np, ¬ Pending s.kernel w np) ∧ s.kernel.nextpid = 4+s.forked.length ∨
    ∃ np, Pending s.kernel w np ∧ (s.kernel.proc np).pid = 4+s.forked.length ∧
      s.kernel.nextpid = 5+s.forked.length ∧ s.forked.length < FORK_NUM
  flag : s.kernel.log.finishedFork = true → s.forked.length = FORK_NUM
  returned : ∀ pid ∈ s.returned, s.kernel.log.finishedFork = true
  called : 3+32 ∈ s.called → s.kernel.log.finishedFork = true

end

section
variable {cfg : Config} {mq : Bool} {s t : State cfg} {a : Label cfg} {w np : cfg.Slot}
  {k : List (Pc cfg)}

/-- `finished_fork` is only set by `sys_waitfork` for pid 35, and never cleared. -/
theorem flag_step (hH : Handled mq s) (hs : stepBy mq s a = some t) :
    t.log.finishedFork = s.log.finishedFork ∨
      t.log.finishedFork = true ∧ ∃ p k, code s a.cpu = .waitfork::k ∧ a.act = .go ∧
        (s.cpu a.cpu).proc = some p ∧ (s.proc p).pid = 3+32 := by
  obtain ⟨x,he⟩ := step_effect (hH.core.cpu a.cpu).typed (Side.of_core hH.core (hH.cond a.cpu)) hs
  cases he with
  | quiet h => exact .inl (by rw [h.log])
  | finished k hc =>
    rcases step_kinds hc hs with ⟨ha,he⟩ | ⟨irq,usr,-,he⟩ | he
    · simp only [exec,withProc] at he
      split at he
      · exact .inl (by rw [← Option.some.inj he]; rfl)
      · rename_i p hp
        split_ifs at he with hpid
        · exact .inr ⟨rfl,p,k,hc,ha,hp,hpid⟩
        · exact .inl (by rw [← Option.some.inj he]; rfl)
    · exact .inl (by rw [he]; rfl)
    · cases he
  | mqMark =>
    left
    unfold markRunning
    split_ifs <;> simp [goto,setState,setProc,logProc,logClock]
  | rrTake =>
    left
    unfold markRunning
    split_ifs <;> simp [goto,setState,setProc,logProc,logClock,takeProc,setCpu]
  | _ =>
    left
    simp [goto,setProc,setState,allocSlot,logProc,buildStack,copyProc,logClock,setRunqueue,giveUp,
      switchFrom,switchTo,setCpu,freeSlot,takeProc]

theorem forkTok_sysTail {x : Pc cfg} (hx : x ∈ (sysTail : List (Pc cfg))) : forkTok np x = 0 := by
  simp only [sysTail,mem_cons,not_mem_nil,or_false] at hx
  rcases hx with rfl | rfl <;> rfl

/-- A `fork` whose allocations succeed goes on until its child is RUNNABLE. -/
theorem fork_moves {x : Pc cfg} (hk : code s a.cpu = x::k)
    (hx : forkTok np x ≠ 0) (ha : Undisturbed.fails a.act = false) (hs : stepBy mq s a = some t) :
    (∃ y ∈ t.frames (s.cpu a.cpu).stack, forkTok np y ≠ 0) ∨ x = .forkRun np ∧ a.act = .go := by
  have hintr : ∀ irq usr, (∃ y ∈ (goto (setCpu s a.cpu fun d => {d with fl := false}) a.cpu
      (.trap irq usr::.iret::code s a.cpu)).frames (s.cpu a.cpu).stack, forkTok np y ≠ 0) := by
    intro irq usr
    exact ⟨x,by simp [goto,setCpu,hk],hx⟩
  cases x <;> simp only [forkTok,ne_eq,not_true_eq_false] at hx
  case allocStack cur q =>
    rcases step_kinds hk hs with ⟨-,h⟩ | ⟨irq,usr,-,rfl⟩ | h
    · cases h
    · exact .inl (hintr irq usr)
    · cases hact : a.act with
      | alloc ok =>
        rw [hact] at h ha
        cases ok <;> cases h
        · cases ha
        · exact .inl ⟨.forkCopy cur q,by simp [goto,buildStack,setProc],hx⟩
      | _ =>
        rw [hact] at h
        cases h
  case forkCopy cur q =>
    rcases step_kinds hk hs with ⟨-,h⟩ | ⟨irq,usr,-,rfl⟩ | h
    · cases h
    · exact .inl (hintr irq usr)
    · cases hact : a.act with
      | alloc ok =>
        rw [hact] at h ha
        cases ok <;> cases h
        · cases ha
        · exact .inl ⟨.forkRun q,by simp [goto,copyProc,setProc,logClock],hx⟩
      | _ =>
        rw [hact] at h
        cases h
  case forkRun q =>
    rcases step_kinds hk hs with ⟨ha,-⟩ | ⟨irq,usr,-,rfl⟩ | h
    · simp only [ite_eq_right_iff,not_forall] at hx
      obtain ⟨rfl,-⟩ := hx
      exact .inr ⟨rfl,ha⟩
    · exact .inl (hintr irq usr)
    · cases h

theorem Pending.kept (hC : Core mq s) (hs : stepBy mq s a = some t)
    (ha : (s.cpu a.cpu).proc = some w → Undisturbed.fails a.act = false) (h : Pending s w np) :
    Pending t w np ∨ ∃ k, code s a.cpu = .forkRun np::k ∧ a.act = .go ∧ On s a.cpu w := by
  obtain ⟨x,hm,hx⟩ := h
  rcases (step_turn hs).frames.kept hm with hm' | ⟨hst,pc,k,hk,rfl | hd⟩ | ⟨cur,q,k,hk,-,hst⟩
  · exact .inl ⟨x,hm',hx⟩
  · have hp := (hC.cpu a.cpu).kproc w hst.symm
    rcases fork_moves hk hx (ha hp) hs with hy | ⟨rfl,hgo⟩
    · rw [← hst] at hy
      exact .inl hy
    · exact .inr ⟨k,hk,hgo,hst.symm⟩
  · refine absurd (hst ▸ hm) (dropped hC hk hd ?_ ?_ ?_)
    · rintro rfl
      exact hx rfl
    · rintro rfl
      exact hx rfl
    · rintro rfl
      cases x <;> first | exact hx rfl | cases hd
  · cases hst
    have hdead := hC.fork.dead w np (by rw [embryo_of_code hC hk (.inl rfl)]; exact id)
    have := le_weight_of_mem (w := forkTok np) hm
    omega

theorem alloc_step {cur : cfg.Slot} {i : ℕ}
    (hk : code s a.cpu = .allocproc cur i::k) (hi : slot? cfg i = some np)
    (hu : (s.proc np).state = .unused) (hs : stepBy mq s a = some t) :
    t = goto (allocSlot s a.cpu a.clock np) a.cpu (.release .ptable::.allocStack cur np::k) ∨
      ∃ irq usr, t = goto (setCpu s a.cpu fun d => {d with fl := false}) a.cpu
        (.trap irq usr::.iret::code s a.cpu) := by
  rcases step_kinds hk hs with ⟨-,h⟩ | ⟨irq,usr,-,h⟩ | h
  · simp only [exec,hi,hu,if_true] at h
    cases h
    exact .inl rfl
  · exact .inr ⟨irq,usr,h⟩
  · cases h

theorem Pending.new (hs : stepBy mq s a = some t) (h : Pending t w np) :
    Pending s w np ∨ allocTarget s (code s a.cpu) ≠ none ∧ t.nextpid = incInt s.nextpid ∧
      (t.proc np).pid = s.nextpid := by
  obtain ⟨x,hm,hx⟩ := h
  rcases (step_turn hs).frames.born hm with hold | ⟨hst,hb⟩ | ⟨-,rfl | rfl⟩
  · exact .inl ⟨x,hold,hx⟩
  · cases x <;> simp only [forkTok,ne_eq,not_true_eq_false,ite_eq_right_iff,not_forall] at hx
    all_goals
      obtain ⟨rfl,-⟩ := hx
    case allocStack cur q =>
      obtain ⟨i,k,hk,hi,hu⟩ := hb
      rcases alloc_step hk hi hu hs with rfl | ⟨irq,usr,rfl⟩
      · refine .inr ⟨by simp [hk,allocTarget_eq hi hu],rfl,?_⟩
        simp [goto,allocSlot,setState,setProc,logProc]
      · rw [hst] at hm
        refine .inl ⟨.allocStack cur q,?_,by simp [forkTok]⟩
        simpa [goto,setCpu,hst,code] using hm
    case forkCopy cur =>
      obtain ⟨k,hk,-⟩ := hb
      exact .inl ⟨_,hst ▸ mem_code hk,by simp [forkTok]⟩
    case forkRun =>
      obtain ⟨cur,k,hk,-⟩ := hb
      exact .inl ⟨_,hst ▸ mem_code hk,by simp [forkTok]⟩
  · exact absurd rfl hx
  · exact absurd rfl hx

theorem Pending.alloc {cur : cfg.Slot} {i : ℕ} (hC : Core mq s)
    (hk : code s a.cpu = .allocproc cur i::k) (hi : slot? cfg i = some np)
    (hu : (s.proc np).state = .unused) (hn : t.nextpid ≠ s.nextpid) (hs : stepBy mq s a = some t) :
    On s a.cpu cur ∧ (∀ q, ¬ Pending s cur q) ∧ Pending t cur np ∧ (t.proc np).pid = s.nextpid := by
  obtain ⟨H,-,-,hst,rfl⟩ := (hC.cpu a.cpu).rule hk
  rcases alloc_step hk hi hu hs with rfl | ⟨irq,usr,rfl⟩
  · refine ⟨hst,?_,⟨.allocStack cur np,by simp [goto,allocSlot,setState,setProc,logProc,← hst],
      by simp [forkTok]⟩,by simp [goto,allocSlot,setState,setProc,logProc]⟩
    rintro q ⟨x,hm,hx⟩
    have hcode : s.frames (.kstack cur) = .allocproc cur i::sysTail := by
      rw [← hst]
      exact hk
    rw [hcode,mem_cons] at hm
    rcases hm with rfl | hm
    · exact hx rfl
    · exact hx (forkTok_sysTail hm)
  · exact absurd rfl hn

theorem pid_of_embryo (ht : TableStep s a.cpu a.act t) (hp : (s.proc np).state = .embryo) :
    (t.proc np).pid = (s.proc np).pid := by
  rcases pid_step ht np with h | ⟨hz,-⟩ | ⟨hu,-⟩
  · exact h
  · rw [hp] at hz
    cases hz
  · rw [hp] at hu
    cases hu

theorem Pending.embryo (hC : Core mq s) (h : Pending s w np) : (s.proc np).state = .embryo := by
  obtain ⟨x,hm,hx⟩ := h
  exact embryo_of_mem hC hm hx

/-- The step that makes the child RUNNABLE ends the `fork`. -/
theorem forkRun_step (hC : Core mq s) (hk : code s a.cpu = .forkRun np::k)
    (ha : a.act = .go) (hon : On s a.cpu w) (hs : stepBy mq s a = some t) :
    t.nextpid = s.nextpid ∧ t.log.finishedFork = s.log.finishedFork ∧ ∀ q, ¬ Pending t w q := by
  obtain ⟨H,-,-,-,rfl⟩ := (hC.cpu a.cpu).rule hk
  have hst : (s.cpu a.cpu).stack = .kstack w := hon
  rcases step_kinds hk hs with ⟨-,h⟩ | ⟨irq,usr,hg,-⟩ | h
  · simp only [exec] at h
    split_ifs at h
    all_goals
      cases h
      refine ⟨rfl,by simp [goto,setState,setProc,logProc],?_⟩
      rintro q ⟨x,hm,hx⟩
      simp only [goto,setState,setProc,logProc,hst,Function.update_self,mem_cons] at hm
      rcases hm with rfl | hm
      · exact hx rfl
      · exact hx (forkTok_sysTail hm)
  · rw [ha] at hg
    cases hg
  · cases h

theorem waitfork_step {p : cfg.Slot} (hk : code s a.cpu = .waitfork::k)
    (ha : a.act = .go) (hp : (s.cpu a.cpu).proc = some p) (hpid : (s.proc p).pid = 3+32)
    (hs : stepBy mq s a = some t) : t.log.finishedFork = true := by
  rcases step_kinds hk hs with ⟨-,h⟩ | ⟨irq,usr,hg,-⟩ | h
  · simp only [exec,withProc,hp,hpid,if_true] at h
    cases h
    rfl
  · rw [ha] at hg
    cases hg
  · cases h

end

section
variable {cfg : Config} {mq : Bool} {s : Watched cfg} {t : State cfg} {a : Label cfg} {w : cfg.Slot}

theorem note_cases (w : cfg.Slot) (s : Watched cfg) (a : Label cfg) :
    (∃ np k, code s.kernel a.cpu = .forkRun np::k ∧ a.act = .go ∧ (s.kernel.cpu a.cpu).proc = some w ∧
      note w s a = {s with forked := s.forked++[(s.kernel.proc np).pid]}) ∨
    (¬ ∃ np k, code s.kernel a.cpu = .forkRun np::k ∧ a.act = .go ∧ (s.kernel.cpu a.cpu).proc = some w) ∧
    ((∃ p k, code s.kernel a.cpu = .waitfork::k ∧ a.act = .go ∧ (s.kernel.cpu a.cpu).proc = some p ∧
        note w s a = {s with called := s.called++[(s.kernel.proc p).pid]}) ∨
      (∃ pid, s.kernel.log.finishedFork = true ∧ note w s a = {s with returned := s.returned++[pid]}) ∨
      note w s a = s) := by
  unfold note
  split
  · rename_i np k p hk ha hp
    split_ifs with hpw
    · subst hpw
      exact .inl ⟨np,k,hk,ha,hp,rfl⟩
    · refine .inr ⟨?_,.inr (.inr rfl)⟩
      rintro ⟨-,-,-,-,hp'⟩
      rw [hp] at hp'
      exact hpw (Option.some.inj hp')
  · rename_i k p hk ha hp
    refine .inr ⟨?_,.inl ⟨p,k,hk,ha,hp,rfl⟩⟩
    rintro ⟨np,k',hk',-⟩
    rw [hk] at hk'
    cases hk'
  · rename_i k p hk ha hp
    refine .inr ⟨?_,.inr ?_⟩
    · rintro ⟨np,k',hk',-⟩
      rw [hk] at hk'
      cases hk'
    · split_ifs with hf
      · exact .inl ⟨_,hf,rfl⟩
      · exact .inr rfl
  · rename_i hno _ _
    refine .inr ⟨?_,.inr (.inr rfl)⟩
    rintro ⟨np,k,hk,ha,hp⟩
    exact hno np k w hk ha hp

theorem Counting.next_step (hC : Core mq s.kernel) (h : Counting w s)
    (hu : Undisturbed mq w s a) (hs : stepBy mq s.kernel a = some t)
    (hno : ¬ ∃ np k, code s.kernel a.cpu = .forkRun np::k ∧ a.act = .go ∧
      (s.kernel.cpu a.cpu).proc = some w) :
    (∀ np, ¬ Pending t w np) ∧ t.nextpid = 4+s.forked.length ∨
    ∃ np, Pending t w np ∧ (t.proc np).pid = 4+s.forked.length ∧
      t.nextpid = 5+s.forked.length ∧ s.forked.length < FORK_NUM := by
  obtain ⟨-,halloc,hfail⟩ := hu
  have hbound := h.bound
  have hnum : FORK_NUM = 32 := rfl
  by_cases hn : t.nextpid = s.kernel.nextpid
  · rcases h.next with ⟨hnone,hnext⟩ | ⟨np,hpend,hpid,hnext,hlt⟩
    · refine .inl ⟨fun np hp => ?_,by rw [hn,hnext]⟩
      rcases hp.new hs with hp | ⟨-,hinc,-⟩
      · exact hnone np hp
      · rw [incInt_of_lt (by omega)] at hinc
        omega
    · refine .inr ⟨np,?_,?_,by rw [hn,hnext],hlt⟩
      · rcases hpend.kept hC hs hfail with hp | ⟨k,hk,ha,hon⟩
        · exact hp
        · exact absurd ⟨np,k,hk,ha,(hC.cpu a.cpu).kproc w hon⟩ hno
      · rw [pid_of_embryo (step_turn hs).table (hpend.embryo hC),hpid]
  · cases (step_turn hs).table with
    | same hproc hnext | write pc k q f hc hw hproc hnext => exact absurd hnext hn
    | alloc cur i k np hc hi hv hproc hnext =>
      obtain ⟨hon,hnone,hpend,hpid⟩ := Pending.alloc hC hc hi hv hn hs
      obtain ⟨hw,hlt⟩ := halloc (by simp [hc,allocTarget_eq hi hv])
      have hcur := (hC.cpu a.cpu).kproc cur hon
      rw [hw] at hcur
      cases hcur
      rcases h.next with ⟨-,hnx⟩ | ⟨q,hq,-⟩
      · refine .inr ⟨np,hpend,by rw [hpid,hnx],?_,hlt⟩
        rw [hnext,incInt_of_lt (by omega),hnx]
        ring
      · exact absurd hq (hnone q)

theorem Counting.flag_new (hC : Core mq s.kernel) (hD : Distinct s.kernel) (h : Counting w s)
    {p : cfg.Slot} {k : List (Pc cfg)} (hk : code s.kernel a.cpu = .waitfork::k)
    (hp : (s.kernel.cpu a.cpu).proc = some p) (hpid : (s.kernel.proc p).pid = 3+32) :
    s.forked.length = FORK_NUM := by
  have hbound := h.bound
  have hbelow := (hD.below p).2
  have hnum : FORK_NUM = 32 := rfl
  obtain ⟨H,-,-,hst,rfl⟩ := (hC.cpu a.cpu).rule hk
  obtain ⟨q,hon,hq⟩ := (hC.cpu a.cpu).on_of_isKstack hst
  cases hp.symm.trans hq
  have hrun := hC.runs a.cpu p hon (by rw [hk]; rfl)
  rcases h.next with ⟨-,hnext⟩ | ⟨np,hpend,hnp,hnext,hlt⟩
  · omega
  · -- the last child is not yet complete, so it is not the caller
    have heq := hD.inj p np (by omega) (by omega)
    subst heq
    rw [hpend.embryo hC] at hrun
    cases hrun

theorem Counting.step (hH : Handled mq s.kernel) (hD : Distinct s.kernel) (h : Counting w s)
    (hu : Undisturbed mq w s a) (hs : stepBy mq s.kernel a = some t) :
    Counting w {note w s a with kernel := t} := by
  have hC := hH.core
  have hnum : FORK_NUM = 32 := rfl
  have hmono : s.kernel.log.finishedFork = true → t.log.finishedFork = true := by
    intro hf
    rcases flag_step hH hs with hfl | ⟨hfl,-⟩
    · rw [hfl,hf]
    · exact hfl
  rcases note_cases w s a with ⟨np,k,hk,ha,hp,hnote⟩ | ⟨hno,hcases⟩
  · -- one more child is complete
    obtain ⟨H,-,-,hst,rfl⟩ := (hC.cpu a.cpu).rule hk
    obtain ⟨q,hon,hq⟩ := (hC.cpu a.cpu).on_of_isKstack hst
    cases hp.symm.trans hq
    obtain ⟨hnext,hflag,hnone⟩ := forkRun_step hC hk ha hon hs
    have hst : (s.kernel.cpu a.cpu).stack = .kstack w := hon
    have hmem : .forkRun np ∈ s.kernel.frames (.kstack w) := hst ▸ mem_code hk
    rcases h.next with ⟨hn,-⟩ | ⟨np',⟨x,hm,hx⟩,hpid,hnx,hlt⟩
    · exact absurd ⟨_,hmem,by simp [forkTok]⟩ (hn np)
    · have hcode : s.kernel.frames (.kstack w) = .forkRun np::sysTail := by
        rw [← hst]
        exact hk
      have hnp : np = np' := by
        rw [hcode,mem_cons] at hm
        rcases hm with rfl | hm
        · simpa [forkTok] using hx
        · exact absurd (forkTok_sysTail hm) hx
      subst hnp
      have hlen : (note w s a).forked.length = s.forked.length+1 := by simp [hnote]
      refine ⟨?_,by dsimp only; omega,.inl ⟨hnone,?_⟩,?_,?_,?_⟩
      · dsimp only
        rw [hlen,range_succ,map_append,← h.forked,hnote]
        simp [hpid]
      · dsimp only
        rw [hnext,hnx,hlen]
        push_cast
        ring
      · dsimp only
        intro hf
        have := h.flag (hflag ▸ hf)
        omega
      · simpa [hnote] using fun pid hm => hmono (h.returned pid hm)
      · simpa [hnote] using fun hm => hmono (h.called hm)
  · have hnext := h.next_step hC hu hs hno
    have hflag : t.log.finishedFork = true → s.forked.length = FORK_NUM := by
      intro hf
      rcases flag_step hH hs with hfl | ⟨-,p,k,hk,-,hp,hpid⟩
      · exact h.flag (hfl ▸ hf)
      · exact h.flag_new hC hD hk hp hpid
    rcases hcases with ⟨p,k,hk,ha,hp,hnote⟩ | ⟨pid,hf,hnote⟩ | hnote
    · rw [hnote]
      refine ⟨h.forked,h.bound,hnext,hflag,fun pid hm => hmono (h.returned pid hm),fun hm => ?_⟩
      rcases List.mem_append.mp hm with hm | hm
      · exact hmono (h.called hm)
      · exact waitfork_step hk ha hp (mem_singleton.mp hm).symm hs
    · rw [hnote]
      refine ⟨h.forked,h.bound,hnext,hflag,fun pid _ => hmono hf,fun hm => hmono (h.called hm)⟩
    · rw [hnote]
      exact ⟨h.forked,h.bound,hnext,hflag,fun pid hm => hmono (h.returned pid hm),
        fun hm => hmono (h.called hm)⟩

theorem Counting.of_reach {s₀ : State cfg} {c : cfg.CpuId}
    (h₀ : Reach (stepBy mq) (fun s a => Ordered mq s a ∧ Unwrapped s a) (boot cfg mq) s₀)
    (hw : (s₀.cpu c).proc = some w) (huser : inUser (code s₀ c) = true)
    (hflag : s₀.log.finishedFork = false) (hpid : s₀.nextpid = 4)
    (h : Reach (watchStep mq w) (Undisturbed mq w) (watch s₀) s) : Counting w s := by
  have hI₀ : Handled mq s₀ ∧ Distinct s₀ :=
    h₀.invariant (I := fun s => Handled mq s ∧ Distinct s) ⟨.boot cfg mq,.boot cfg mq⟩
      fun _ _ _ hI hok hs => ⟨hI.1.step hok.1 hs,hI.2.step (step_turn hs).table hok.2⟩
  have hstart : Counting w (watch s₀) := by
    have huser := inUser_eq huser
    obtain ⟨H,-,-,hst,-⟩ := (hI₀.1.core.cpu c).rule huser
    obtain ⟨q,hon,hq⟩ := (hI₀.1.core.cpu c).on_of_isKstack hst
    cases hw.symm.trans hq
    have hon : (s₀.cpu c).stack = .kstack w := hon
    refine ⟨rfl,Nat.zero_le _,.inl ⟨?_,by simp [watch,hpid]⟩,by simp [watch,hflag],by simp [watch],
      by simp [watch]⟩
    rintro np ⟨x,hm,hx⟩
    have hcode : (watch s₀).kernel.frames (.kstack w) = [.user] := by
      rw [← hon]
      exact huser
    rw [hcode,mem_singleton] at hm
    subst hm
    exact hx rfl
  refine (h.invariant (I := fun s => Handled mq s.kernel ∧ Distinct s.kernel ∧ Counting w s)
    ⟨hI₀.1,hI₀.2,hstart⟩ ?_).2.2
  rintro s a s' ⟨hH,hD,hcount⟩ hu hs
  obtain ⟨t,ht,rfl⟩ := Option.map_eq_some_iff.mp hs
  refine ⟨hH.step hu.1 ht,hD.step (step_turn ht).table fun ha => ?_,hcount.step hH hD hu ht⟩
  have hlt := (hu.2.1 ha).2
  have hnum : FORK_NUM = 32 := rfl
  rcases hcount.next with ⟨-,hn⟩ | ⟨-,-,-,hn,-⟩ <;> omega

/-- A workload that starts when three pids have been given out, and is not disturbed, has its
barrier. -/
theorem waitfork_barrier {s₀ : State cfg} {c : cfg.CpuId}
    (h₀ : Reach (stepBy mq) (fun s a => Ordered mq s a ∧ Unwrapped s a) (boot cfg mq) s₀)
    (hw : (s₀.cpu c).proc = some w) (huser : inUser (code s₀ c) = true)
    (hflag : s₀.log.finishedFork = false) (hpid : s₀.nextpid = 4)
    (h : Reach (watchStep mq w) (Undisturbed mq w) (watch s₀) s) : Barrier s := by
  have hcount := Counting.of_reach h₀ hw huser hflag hpid h
  constructor
  · intro pid _ hr
    rw [hcount.flag (hcount.returned pid hr)]
  · intro hlen hcalled
    refine hcount.called (hcalled _ ?_)
    -- the last of the children has the pid that is waited for
    rw [hcount.forked,hlen]
    exact mem_map.mpr ⟨31,by decide,by norm_num⟩

end

section Runs
open RoundRobin

/-- A `fork` on CPU 0 that fails after `allocproc`. -/
def failedFork : List (Label small) :=
  on 0 (.user .fork)::gos 5 0++[on 0 (.alloc false),go 0]

def history (fails : ℕ) : List (Label small) :=
  firstDispatch++(replicate fails failedFork).flatten

/-- It forks a child, which CPU 1 takes, and which calls `waitfork`. -/
def childWaits : List (Label small) :=
  on 0 (.user .fork)::gos 5 0++on 0 (.alloc true)::on 0 (.alloc true)::gos 4 0++
    gos 8 1++on 1 .leave::on 1 (.user .waitfork)::gos 2 1

/-- When the first child gets pid 35 it does not wait for the others. -/
theorem childWaits_early : ∃ s₀, run (stepBy false) (boot small false) (history 33) = some s₀ ∧
    inUser (code s₀ 0) = true ∧ s₀.log.finishedFork = false ∧ s₀.nextpid = 35 ∧
    ∃ s, run (watchStep false 0) (watch s₀) childWaits = some s ∧ s.forked = [35] ∧
      s.returned = [35] ∧ ¬ Barrier s := by
  have hrun : (run (stepBy false) (boot small false) (history 33)).any (fun s₀ =>
      inUser (code s₀ 0) = true ∧ s₀.log.finishedFork = false ∧ s₀.nextpid = 35 ∧
      (run (watchStep false 0) (watch s₀) childWaits).any (fun s =>
        s.forked = [35] ∧ s.returned = [35] ∧ ¬ Barrier s) = true) = true := by decide +kernel
  obtain ⟨s₀,h₀,hp⟩ := (Option.any_eq_true _ _).mp hrun
  obtain ⟨huser,hflag,hpid,hw⟩ := of_decide_eq_true hp
  obtain ⟨s,hs,hb⟩ := (Option.any_eq_true _ _).mp hw
  exact ⟨s₀,h₀,huser,hflag,hpid,s,hs,of_decide_eq_true hb⟩

/-- With two pids wasted the first child gets pid 4, and waits. -/
theorem childWaits_blocked :
    ∃ s₀, run (guarded (stepBy false) fun s a => Ordered false s a ∧ Unwrapped s a)
        (boot small false) (history 2) = some s₀ ∧
      ∃ s, run (guarded (watchStep false 0) (Undisturbed false 0)) (watch s₀) childWaits = some s ∧
        s.forked = [4] ∧ s.called = [4] ∧ Barrier s := by
  have hrun : (run (guarded (stepBy false) fun s a => Ordered false s a ∧ Unwrapped s a)
      (boot small false) (history 2)).any (fun s₀ =>
      (s₀.cpu 0).proc = some 0 ∧ inUser (code s₀ 0) = true ∧ s₀.log.finishedFork = false ∧
      s₀.nextpid = 4 ∧ (run (guarded (watchStep false 0) (Undisturbed false 0)) (watch s₀)
        childWaits).any (fun s => s.forked = [4] ∧ s.called = [4]) = true) = true := by
    decide +kernel
  obtain ⟨s₀,h₀,hp⟩ := (Option.any_eq_true _ _).mp hrun
  obtain ⟨hproc,huser,hflag,hpid,hw⟩ := of_decide_eq_true hp
  obtain ⟨s,hs,hb⟩ := (Option.any_eq_true _ _).mp hw
  obtain ⟨hf,hc⟩ := of_decide_eq_true hb
  exact ⟨s₀,h₀,s,hs,hf,hc,
    waitfork_barrier (Reach.refl.of_run h₀) hproc huser hflag hpid (Reach.refl.of_run hs)⟩

end Runs
end Xv6.Waitfork
