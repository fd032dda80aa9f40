import Xv6.Lifecycle

/-!
# The process tree

Every process but the first has a parent that has not exited: `fork` sets it to the process that is
running, and `exit` hands the children to `initproc` before the process becomes a ZOMBIE. The
argument is about the loop of `exit`: the slots it has passed have another parent, and a `fork` on
another CPU, which sets the parent without `ptable.lock`, cannot change that. Over a whole run,
`wait` returns a pid at most once, to the parent, and after the child called `exit`.
-/
namespace Xv6.ProcessTree
open SchedLog KernelState KernelStep Frames Handoff ProcTable Pids Lifecycle Machine
open MultiQueue

section
variable {cfg : Config}

/-- Program points of the `exit` of `p`, up to the change of its state. -/
def inExit (p : cfg.Slot) : Pc cfg → Bool
  | .exitClosed q | .exitLocked q | .exitReparent q _ => q = p
  | _ => false

structure Tree (s : State cfg) : Prop where
  init : Alive (s.proc s.initproc).state
  parent : ∀ j q, (s.proc j).parent = some q → Alive (s.proc q).state
  child : ∀ j, j ≠ s.initproc → ¬ Vacant (s.proc j).state → (s.proc j).parent ≠ none
  copied : ∀ cur np, .forkRun np ∈ s.frames (.kstack cur) → (s.proc np).parent = some cur
  exiting : ∀ p pc, pc ∈ s.frames (.kstack p) → inExit p pc = true →
    Alive (s.proc p).state ∧ p ≠ s.initproc
  passed : ∀ p i, .exitReparent p i ∈ s.frames (.kstack p) →
    ∀ j : cfg.Slot, j.val < i → (s.proc j).parent ≠ some p

end

section
variable {cfg : Config} {mq : Bool} {s t : State cfg} {c : cfg.CpuId} {cl : Clock} {a : Act cfg}

/-- The states of a process with a thread are left by `exit` only. -/
theorem alive_left (hC : Core mq s) (ht : TableStep s c a t) {q : cfg.Slot}
    (h : Alive (s.proc q).state) : Alive (t.proc q).state ∨
      ∃ i k, code s c = .exitReparent q i::k ∧ slot? cfg i = none := by
  have hm := moves hC ht q
  generalize (s.proc q).state = st at hm h
  generalize (t.proc q).state = st' at hm
  cases hm with
  | stay => exact .inl h
  | exit i k hk hi => exact .inr ⟨i,k,hk,hi⟩
  | yield | sleep | wake | take => exact .inl trivial
  | alloc | fail | run | free => exact h.elim

/-- A slot comes to hold a process at the end of `fork` only. -/
theorem vacant_left (hC : Core mq s) (ht : TableStep s c a t) {q : cfg.Slot}
    (h : ¬ Vacant (t.proc q).state) : ¬ Vacant (s.proc q).state ∨ ∃ k, code s c = .forkRun q::k := by
  have hm := moves hC ht q
  generalize (s.proc q).state = st at hm
  generalize (t.proc q).state = st' at hm h
  cases hm with
  | stay => exact .inl h
  | run k hk => exact .inr ⟨k,hk⟩
  | yield | sleep | wake | take | exit => exact .inl id
  | alloc | fail | free => exact absurd trivial h

/-- The frames on which the `exit` of `p` depends come from its own code. -/
theorem exiting_new (hC : Core mq s) (h : Tree s) (hs : step mq s c cl a = some t) {p : cfg.Slot}
    {pc : Pc cfg} (hm : pc ∈ t.frames (.kstack p)) (hx : inExit p pc = true) :
    Alive (s.proc p).state ∧ p ≠ s.initproc := by
  have hmem : ∀ x k, code s c = x::k → Stack.kstack p = (s.cpu c).stack →
      inExit p x = true → Alive (s.proc p).state ∧ p ≠ s.initproc := by
    intro x k hk hst hx
    exact h.exiting p x (hst ▸ mem_code hk) hx
  rcases (step_turn hs).frames.born hm with hold | ⟨hst,hb⟩ | ⟨-,rfl | rfl⟩
  · exact h.exiting p pc hold hx
  · cases pc <;> simp only [inExit,decide_eq_true_eq,Bool.false_eq_true] at hx
    all_goals subst hx
    case exitClosed =>
      obtain ⟨k,hk,hp,hne⟩ := hb
      obtain ⟨H,-,-,-,rfl⟩ := (hC.cpu c).rule hk
      have hrun := hC.runs c _ hst.symm (by rw [hk]; rfl)
      exact ⟨by rw [hrun]; trivial,hne⟩
    case exitLocked =>
      obtain ⟨k,hk⟩ := hb
      exact hmem _ k hk hst (by simp [inExit])
    case exitReparent =>
      rcases hb with ⟨k,hk,-⟩ | ⟨j,k,q,hk,-⟩
      · exact hmem _ k hk hst (by simp [inExit])
      · exact hmem _ k hk hst (by simp [inExit])
  · cases hx
  · cases hx

theorem reparent_step {p : cfg.Slot} {i : ℕ} {k : List (Pc cfg)}
    (hk : code s c = .exitReparent p i::k) (hs : step mq s c cl a = some t) :
    (slot? cfg i = none ∧ t.frames (s.cpu c).stack = .sched::.zombieExit::k) ∨
    (∃ q, slot? cfg i = some q ∧ ((t.proc q).parent = some p → p = s.initproc)) ∨
    t.proc = s.proc ∧ ∃ irq usr, t.frames (s.cpu c).stack = .trap irq usr::.iret::code s c := by
  rcases step_kinds hk hs with ⟨-,h⟩ | ⟨irq,usr,-,rfl⟩ | h
  · simp only [exec] at h
    split at h
    · rename_i q hi
      refine .inr (.inl ⟨q,hi,?_⟩)
      split_ifs at h with hq hz <;> cases h
      · intro he
        simpa [goto,setProc,eq_comm] using he
      · intro he
        simpa [goto,setProc,eq_comm] using he
      · exact fun he => absurd he hq
    · rename_i hi
      cases h
      exact .inl ⟨hi,by simp [giveUp,goto,setState,setProc,logProc,logClock]⟩
  · exact .inr (.inr ⟨rfl,irq,usr,by simp [goto,setCpu]⟩)
  · cases h

theorem Tree.exiting_step (hC : Core mq s) (h : Tree s) (hs : step mq s c cl a = some t)
    (p : cfg.Slot) (pc : Pc cfg) (hm : pc ∈ t.frames (.kstack p))
    (hx : inExit p pc = true) : Alive (t.proc p).state ∧ p ≠ t.initproc := by
  have ht := step_turn hs
  obtain ⟨halive,hne⟩ := exiting_new hC h hs hm hx
  refine ⟨?_,by rwa [ht.init]⟩
  rcases alive_left hC ht.table halive with hl | ⟨i,k,hk,hi⟩
  · exact hl
  · obtain ⟨H,-,-,hst,rfl⟩ := (hC.cpu c).rule hk
    rcases reparent_step hk hs with ⟨-,hf⟩ | ⟨q,hq,-⟩ | ⟨hp,-⟩
    · rw [← hst,hf] at hm
      simp only [List.mem_cons,List.not_mem_nil,or_false] at hm
      rcases hm with rfl | rfl <;> cases hx
    · rw [hi] at hq
      cases hq
    · rwa [hp]

/-- The loop of `exit` keeps the parents of the slots it has passed. -/
theorem Tree.passed_old (hC : Core mq s) (h : Tree s) (ht : TableStep s c a t) {p : cfg.Slot} {i : ℕ}
    (hm : .exitReparent p i ∈ s.frames (.kstack p)) {j : cfg.Slot}
    (hj : (s.proc j).parent ≠ some p) : (t.proc j).parent ≠ some p := by
  intro hpar
  rcases parent_new ht hpar with hold | ⟨k,hk,-⟩ | ⟨p',i',k,-,-,-,hinit⟩
  · exact hj hold
  · obtain ⟨H,-,-,hst,rfl⟩ := (hC.cpu c).rule hk
    have hcode : s.frames (.kstack p) = .forkCopy p j::sysTail := by
      rw [← hst]
      exact hk
    simp [hcode,sysTail] at hm
  · exact (h.exiting p _ hm (by simp [inExit])).2 hinit

theorem Tree.passed_step (hC : Core mq s) (h : Tree s) (hs : step mq s c cl a = some t)
    (p : cfg.Slot) (i : ℕ) (hm : .exitReparent p i ∈ t.frames (.kstack p)) (j : cfg.Slot)
    (hj : j.val < i) : (t.proc j).parent ≠ some p := by
  have ht := step_turn hs
  rcases ht.frames.born hm with hold | ⟨hst,⟨k,-,rfl⟩ | ⟨i',k,q,hk,hi,rfl⟩⟩ | ⟨-,hx | hx⟩
  · exact h.passed_old hC ht.table hold (h.passed p i hold j hj)
  · omega
  · have hold : .exitReparent p i' ∈ s.frames (.kstack p) := hst ▸ mem_code hk
    by_cases hlt : j.val < i'
    · exact h.passed_old hC ht.table hold (h.passed p i' hold j hlt)
    · have hq : q = j := by
        unfold slot? at hi
        split_ifs at hi
        cases hi
        exact Fin.ext (by dsimp only; omega)
      subst hq
      rcases reparent_step hk hs with ⟨hn,-⟩ | ⟨q',hq',hpar⟩ | ⟨-,irq,usr,hf⟩
      · rw [hi] at hn
        cases hn
      · rw [hi] at hq'
        cases hq'
        exact fun he => (h.exiting p _ hold (by simp [inExit])).2 (hpar he)
      · obtain ⟨H,-,-,-,rfl⟩ := (hC.cpu c).rule hk
        rw [hst,hf,hk] at hm
        simp at hm
  · cases hx
  · cases hx

theorem Tree.parent_step (hC : Core mq s) (h : Tree s) (hs : step mq s c cl a = some t)
    (j q : cfg.Slot) (hpar : (t.proc j).parent = some q) : Alive (t.proc q).state := by
  have ht := step_turn hs
  have halive : Alive (s.proc q).state := by
    rcases parent_new ht.table hpar with hold | ⟨k,hk,-⟩ | ⟨p,i,k,-,-,-,rfl⟩
    · exact h.parent j q hold
    · obtain ⟨H,-,-,hst,rfl⟩ := (hC.cpu c).rule hk
      rw [hC.runs c q hst (by rw [hk]; rfl)]
      trivial
    · exact h.init
  rcases alive_left hC ht.table halive with hl | ⟨i,k,hk,hi⟩
  · exact hl
  · -- at the end of its loop the exiting process is nobody's parent
    obtain ⟨H,-,-,hst,rfl⟩ := (hC.cpu c).rule hk
    have hold : .exitReparent q i ∈ s.frames (.kstack q) := hst ▸ mem_code hk
    have hlt : j.val < i := by
      unfold slot? at hi
      split_ifs at hi
      have := j.isLt
      omega
    exact absurd hpar (h.passed_old hC ht.table hold (h.passed q i hold j hlt))

theorem Tree.step (hC : Core mq s) (h : Tree s) (hs : step mq s c cl a = some t) : Tree t := by
  have ht := step_turn hs
  refine ⟨?_,h.parent_step hC hs,fun j hj hv => ?_,fun cur np hm => ?_,h.exiting_step hC hs,
    h.passed_step hC hs⟩
  · rw [ht.init]
    rcases alive_left hC ht.table h.init with hl | ⟨i,k,hk,-⟩
    · exact hl
    · obtain ⟨H,-,-,hst,-⟩ := (hC.cpu c).rule hk
      exact absurd rfl (h.exiting _ _ (hst ▸ mem_code hk) (by simp [inExit])).2
  · intro hn
    rw [ht.init] at hj
    rcases vacant_left hC ht.table hv with hold | ⟨k,hk⟩
    · rcases parent_lost ht.table hn with hn | ⟨-,hu⟩
      · exact h.child j hj hold hn
      · exact hv (by rw [hu]; trivial)
    · obtain ⟨H,-,-,hst,-⟩ := (hC.cpu c).rule hk
      obtain ⟨cur,hon,-⟩ := (hC.cpu c).on_of_isKstack hst
      have hon : (s.cpu c).stack = .kstack cur := hon
      have hm : .forkRun j ∈ s.frames (.kstack cur) := hon ▸ mem_code hk
      rw [parent_copied hC ht.table hm (h.copied cur j hm)] at hn
      cases hn
  · rcases ht.frames.born hm with hold | ⟨hst,cur',k,hk,ha⟩ | ⟨-,hx | hx⟩
    · exact parent_copied hC ht.table hold (h.copied cur np hold)
    · obtain ⟨H,-,-,hst',-⟩ := (hC.cpu c).rule hk
      rw [← hst] at hst'
      cases hst'
      rcases step_kinds hk hs with ⟨hg,-⟩ | ⟨irq,usr,hg,-⟩ | hs
      · rw [ha] at hg
        cases hg
      · rw [ha] at hg
        cases hg
      · rw [ha] at hs
        cases hs
        simp [goto,copyProc,logClock,setProc]
    · cases hx
    · cases hx

theorem Tree.boot (cfg : Config) (mq : Bool) : Tree (boot cfg mq) := by
  have hf := boot_frames cfg mq
  have hpar : ∀ j, ((KernelStep.boot cfg mq).proc j).parent = none := by
    intro j
    by_cases hj : j.val = 0 <;> simp [KernelStep.boot,hj]
  refine ⟨by simp [KernelStep.boot,Alive],fun j q hj => ?_,fun j hj hv => ?_,fun cur np hm => ?_,
    fun p pc hm hx => ?_,fun p i hm => ?_⟩
  · rw [hpar] at hj
    cases hj
  · have hne : j.val ≠ 0 := fun he => hj (Fin.ext he)
    exact absurd (by simp [KernelStep.boot,hne,Vacant]) hv
  · simpa using hf _ _ hm
  · rcases hf _ _ hm with rfl | rfl | rfl | ⟨r,rfl⟩ <;> cases hx
  · simpa using hf _ _ hm

def Leaving (s : State cfg) (q : cfg.Slot) : Prop :=
  (s.proc q).state = .zombie ∨ ∃ pc ∈ s.frames (.kstack q), inExit q pc = true

/-- A process is where it is after a call of `exit` since an earlier step, or from now on. -/
theorem leaving_new (hC : Core mq s) (hT : Tree s) (hs : step mq s c cl a = some t) {q : cfg.Slot}
    (h : Leaving t q) : (t.proc q).pid = (s.proc q).pid ∧
      (Leaving s q ∨ ∃ k, code s c = .exit::k ∧ (s.cpu c).proc = some q) := by
  have ht := step_turn hs
  rcases h with hz | ⟨pc,hm,hx⟩
  · have hpid : (s.proc q).state ≠ .unused → (t.proc q).pid = (s.proc q).pid := by
      intro hne
      rcases pid_step ht.table q with hp | ⟨-,hu⟩ | ⟨hu,-⟩
      · exact hp
      · rw [hz] at hu
        cases hu
      · exact absurd hu hne
    have hmove := moves hC ht.table q
    rw [hz] at hmove
    generalize hst : (s.proc q).state = st at hmove hpid
    cases hmove with
    | stay => exact ⟨hpid (by simp),.inl (.inl hst)⟩
    | exit i k hk =>
      obtain ⟨H,-,-,hst,-⟩ := (hC.cpu c).rule hk
      exact ⟨hpid (by simp),.inl (.inr ⟨_,hst ▸ mem_code hk,by simp [inExit]⟩)⟩
  · have halive := (exiting_new hC hT hs hm hx).1
    refine ⟨?_,?_⟩
    · rcases pid_step ht.table q with hp | ⟨hz,-⟩ | ⟨hu,-⟩
      · exact hp
      · rw [hz] at halive
        exact halive.elim
      · rw [hu] at halive
        exact halive.elim
    · rcases ht.frames.born hm with hold | ⟨hst,hb⟩ | ⟨-,rfl | rfl⟩
      · exact .inl (.inr ⟨pc,hold,hx⟩)
      · have hmem : ∀ x k, code s c = x::k → inExit q x = true → Leaving s q := by
          intro x k hk hx
          exact .inr ⟨x,hst ▸ mem_code hk,hx⟩
        cases pc <;> simp only [inExit,decide_eq_true_eq,Bool.false_eq_true] at hx
        all_goals subst hx
        case exitClosed =>
          obtain ⟨k,hk,hp,-⟩ := hb
          exact .inr ⟨k,hk,hp⟩
        case exitLocked =>
          obtain ⟨k,hk⟩ := hb
          exact .inl (hmem _ k hk (by simp [inExit]))
        case exitReparent =>
          rcases hb with ⟨k,hk,-⟩ | ⟨j,k,q,hk,-⟩
          · exact .inl (hmem _ k hk (by simp [inExit]))
          · exact .inl (hmem _ k hk (by simp [inExit]))
      · cases hx
      · cases hx

def Gone (pid : ℤ) (s : State cfg) : Prop := pid < s.nextpid ∧ ∀ p, (s.proc p).pid ≠ pid

theorem Gone.step {pid : ℤ} (h0 : pid ≠ 0) (h : Gone pid s) (ht : TableStep s c a t)
    (hu : allocTarget s (code s c) ≠ none → s.nextpid < 2^31-1) : Gone pid t := by
  obtain ⟨hlt,hp⟩ := h
  rcases pids_step ht with ⟨hn,hpid⟩ | ⟨p,hp',hn,hpid,hother⟩
  · refine ⟨by omega,fun q hq => ?_⟩
    rcases hpid q with he | he
    · exact hp q (he ▸ hq)
    · exact h0 (hq.symm.trans he)
  · rw [incInt_of_lt (hu (by simp [hp']))] at hn
    refine ⟨by omega,fun q hq => ?_⟩
    by_cases hqp : q = p
    · subst hqp
      omega
    · exact hp q ((hother q hqp).symm.trans hq)

def Numbered (s : State cfg) : Prop := ∀ p, (s.proc p).state ≠ .unused → (s.proc p).pid ≠ 0

theorem Numbered.step (hC : Core mq s) (hD : Distinct s) (h : Numbered s) (ht : TableStep s c a t) :
    Numbered t := by
  intro p hp
  have hmove := moves hC ht p
  have hpos := hD.pos
  rcases pid_step ht p with hpid | ⟨-,hu⟩ | ⟨-,hpid⟩
  · by_cases hu : (s.proc p).state = .unused
    · -- only `allocproc` takes an unused slot, and it gives the slot a pid
      have halloc : allocTarget s (code s c) = some p := by
        rw [hu] at hmove
        generalize (t.proc p).state = st at hmove hp
        cases hmove with
        | stay => exact absurd rfl hp
        | alloc hal => exact hal
      cases ht with
      | same hproc => exact absurd (hproc ▸ hu) hp
      | alloc cur i k q hc hi hv hproc =>
        rw [hc,allocTarget_eq hi hv] at halloc
        cases halloc
        rw [hproc,Function.update_self]
        dsimp only
        omega
      | write pc k q f hc hw =>
        rw [hc] at halloc
        cases hw <;> cases halloc
    · rw [hpid]
      exact h p hu
  · exact absurd hu hp
  · omega

theorem Numbered.boot (cfg : Config) (mq : Bool) : Numbered (boot cfg mq) := by
  intro p
  by_cases hp : p.val = 0 <;> simp [KernelStep.boot,hp]

/-- What holds while `nextpid` has not wrapped around. -/
structure Settled (s : State cfg) : Prop where
  core : Core false s
  tree : Tree s
  distinct : Distinct s
  numbered : Numbered s

theorem Settled.step {b : Label cfg} (h : Settled s) (hu : Unwrapped s b)
    (hs : stepBy false s b = some t) : Settled t :=
  ⟨h.core.step (.of_rr h.core b.cpu) hs,h.tree.step h.core hs,
    h.distinct.step (step_turn hs).table hu,h.numbered.step h.core h.distinct (step_turn hs).table⟩

theorem reap_step {b : Label cfg} (h : Settled s) {q : cfg.Slot}
    (hr : reapTarget s (code s b.cpu) = some q) (hb : b.act = .go)
    (hs : stepBy false s b = some t) : Gone (s.proc q).pid t := by
  obtain ⟨p,i,kids,k,hk,hi,hp,hz⟩ := code_of_reapTarget hr
  rcases step_kinds hk hs with ⟨-,he⟩ | ⟨irq,usr,hg,-⟩ | he
  · simp only [exec,hi,waitSlot,hp,hz,ne_eq,not_true_eq_false,if_false,if_true,Option.some.injEq] at he
    subst he
    have hpid := h.numbered q (by rw [hz]; simp)
    refine ⟨(h.distinct.below q).2,fun j hj => ?_⟩
    by_cases hjq : j = q
    · subst hjq
      simp only [goto,freeSlot,setProc,logProc,Function.update_self] at hj
      exact hpid hj.symm
    · simp only [goto,freeSlot,setProc,logProc,Function.update_of_ne hjq] at hj
      exact hjq (h.distinct.inj j q hj (hj ▸ hpid))
  · rw [hb] at hg
    cases hg
  · cases he

end

section Traces
variable {cfg : Config} {n : ℕ} (t : Trace (stepBy false) (boot cfg false) n)

/-- In step `m` of the run `wait` frees slot `q` and returns its pid. -/
def Reaps (m : ℕ) (q : cfg.Slot) : Prop :=
  m < n ∧ (t.label m).act = .go ∧ reapTarget (t.state m) (code (t.state m) (t.label m).cpu) = some q

/-- Before step `m` of the run a process with this pid was in `exit`. -/
def Exited (m : ℕ) (pid : ℤ) : Prop :=
  ∃ l < m, ∃ p k, code (t.state l) (t.label l).cpu = .exit::k ∧
    ((t.state l).cpu (t.label l).cpu).proc = some p ∧ ((t.state l).proc p).pid = pid

variable {t}

theorem Settled.of_trace (hu : ∀ m < n, Unwrapped (t.state m) (t.label m)) {m : ℕ} (hm : m ≤ n) :
    Settled (t.state m) := by
  refine t.keeps (Nat.zero_le m) hm ?_ fun j hj h => h.step (hu j hj) (t.next j hj)
  rw [t.start]
  exact ⟨.boot cfg false,.boot cfg false,.boot cfg false,.boot cfg false⟩

theorem exited_of_leaving (hu : ∀ m < n, Unwrapped (t.state m) (t.label m)) {m : ℕ} (hm : m ≤ n)
    {q : cfg.Slot} (h : Leaving (t.state m) q) : Exited t m ((t.state m).proc q).pid := by
  induction m with
  | zero =>
    rw [t.start] at h
    rcases h with hz | ⟨pc,hm,hx⟩
    · exact absurd hz (boot_proc cfg false q).2.2
    · rcases boot_frames cfg false _ _ hm with rfl | rfl | rfl | ⟨r,rfl⟩ <;> cases hx
  | succ m ih =>
    have hS := Settled.of_trace hu (by omega : m ≤ n)
    obtain ⟨hpid,hleft | ⟨k,hk,hp⟩⟩ := leaving_new hS.core hS.tree (t.next m (by omega)) h
    · obtain ⟨l,hl,hex⟩ := ih (by omega) hleft
      exact ⟨l,by omega,hpid ▸ hex⟩
    · exact ⟨m,by omega,q,k,hk,hp,hpid.symm⟩

theorem reaps_once (hu : ∀ m < n, Unwrapped (t.state m) (t.label m)) {m m' : ℕ} {q q' : cfg.Slot}
    (h : Reaps t m q) (h' : Reaps t m' q')
    (hpid : ((t.state m').proc q').pid = ((t.state m).proc q).pid) : m' ≤ m := by
  obtain ⟨hm,hgo,hr⟩ := h
  obtain ⟨hm',-,hr'⟩ := h'
  by_contra hlt
  have hS := Settled.of_trace hu hm.le
  obtain ⟨p,i,kids,k,hk,hi,hp,hz⟩ := code_of_reapTarget hr
  have hgone := t.keeps (I := Gone ((t.state m).proc q).pid) (by omega : m+1 ≤ m') hm'.le
    (reap_step hS hr hgo (t.next m hm)) fun j hj h =>
      h.step (hS.numbered q (by rw [hz]; simp)) (step_turn (t.next j hj)).table (hu j hj)
  exact hgone.2 q' hpid

end Traces

/-- In every reachable state each process but the first has a living parent. Over a whole run
`wait` returns a pid at most once, to the parent, and after the child called `exit`. -/
theorem tree_and_reaping (cfg : Config) :
    (∀ s : State cfg, RoundRobin.Reachable cfg s → ∀ p, p ≠ s.initproc →
      (s.proc p).state ≠ .unused → (s.proc p).state ≠ .embryo →
      ∃ q, (s.proc p).parent = some q ∧ Alive (s.proc q).state) ∧
    ∀ n (t : Trace (stepBy false) (boot cfg false) n),
      (∀ m < n, Unwrapped (t.state m) (t.label m)) → ∀ m q, Reaps t m q →
        Exited t m ((t.state m).proc q).pid ∧
        (∃ p, ((t.state m).cpu (t.label m).cpu).proc = some p ∧ ((t.state m).proc q).parent = some p) ∧
        ∀ m' q', Reaps t m' q' → ((t.state m').proc q').pid = ((t.state m).proc q).pid → m' = m := by
  constructor
  · intro s h p hp hu he
    have hT : Core false s ∧ Tree s :=
      h.invariant (I := fun s => Core false s ∧ Tree s) ⟨.boot cfg false,.boot cfg false⟩
        fun s b s' hI _ hs => ⟨hI.1.step (.of_rr hI.1 b.cpu) hs,hI.2.step hI.1 hs⟩
    have hv : ¬ Vacant (s.proc p).state := by
      cases hst : (s.proc p).state <;> simp_all [Vacant]
    cases hpar : (s.proc p).parent with
    | none => exact absurd hpar (hT.2.child p hp hv)
    | some q => exact ⟨q,rfl,hT.2.parent p q hpar⟩
  · intro n t hu m q hr
    have hS := Settled.of_trace hu hr.1.le
    obtain ⟨p,i,kids,k,hk,hi,hp,hz⟩ := code_of_reapTarget hr.2.2
    obtain ⟨H,-,-,hst,-⟩ := (hS.core.cpu _).rule hk
    refine ⟨exited_of_leaving hu hr.1.le (.inl hz),⟨p,(hS.core.cpu _).kproc p hst,hp⟩,
      fun m' q' hr' hpid => ?_⟩
    exact Nat.le_antisymm (reaps_once hu hr hr' hpid) (reaps_once hu hr' hr hpid.symm)

section Runs
open RoundRobin

def reapRun : List (Label small) :=
  firstDispatch++on 0 (.user .fork)::gos 5 0++on 0 (.alloc true)::on 0 (.alloc true)::gos 5 0++
    gos 8 1++on 1 .leave::on 1 (.user .exit)::go 1::on 1 .leave::gos 15 1++
    on 0 (.user .wait)::gos 5 0

theorem reapRun_runs : (run (stepBy false) (boot small false) reapRun).isSome := by
  decide +kernel

/-- The child is reaped in the last step of the run. -/
theorem reapRun_reaps : Reaps (Trace.ofRun _ reapRun (go 0) reapRun_runs) 53 1 ∧
    Exited (Trace.ofRun _ reapRun (go 0) reapRun_runs) 53 2 ∧
    ∃ q, (((Trace.ofRun _ reapRun (go 0) reapRun_runs).state 53).proc 1).parent = some q ∧
      Alive (((Trace.ofRun _ reapRun (go 0) reapRun_runs).state 53).proc q).state := by
  have hr : Reaps (Trace.ofRun _ reapRun (go 0) reapRun_runs) 53 1 :=
    ⟨by decide,rfl,by decide +kernel⟩
  have hpid : (((Trace.ofRun _ reapRun (go 0) reapRun_runs).state 53).proc 1).pid = 2 := by
    decide +kernel
  have hu : ∀ m < reapRun.length, Unwrapped ((Trace.ofRun _ reapRun (go 0) reapRun_runs).state m)
      ((Trace.ofRun _ reapRun (go 0) reapRun_runs).label m) := by decide +kernel
  have hex := ((tree_and_reaping small).2 _ _ hu 53 1 hr).1
  rw [hpid] at hex
  exact ⟨hr,hex,(tree_and_reaping small).1 _ (Trace.reach _ (by decide)) 1 (by decide +kernel)
    (by decide +kernel) (by decide +kernel)⟩

end Runs
end Xv6.ProcessTree
