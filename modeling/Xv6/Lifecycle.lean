import Xv6.MultiQueue
import Xv6.Pids

/-!
# The life of a process slot

The transitions of `p->state`. `Writes` says which program point writes a state; with the invariant
of the handover it also follows from which state. So each slot goes round UNUSED, EMBRYO, RUNNABLE,
RUNNING, SLEEPING, ZOMBIE as the comments of `proc.h` have it, for both kernels, and in the
round-robin kernel under `ptable.lock`. The other lemmas say what is on the stacks while a `fork` or
an `exit` is under way.
-/
namespace Xv6.Lifecycle
open SchedLog KernelState KernelStep Tally Frames Handoff ProcTable Pids Machine RoundRobin

section
variable {cfg : Config}

def Vacant : ProcState → Prop
  | .unused | .embryo => True
  | _ => False

instance : DecidablePred Vacant
  | .unused | .embryo => isTrue trivial
  | .sleeping | .runnable | .running | .zombie | .acquired | .released => isFalse id

/-- What a step of `c` can do to the state of slot `q`. -/
inductive Moves (s : State cfg) (c : cfg.CpuId) (q : cfg.Slot) : ProcState → ProcState → Prop
  | stay (st) : Moves s c q st st
  | alloc (h : allocTarget s (code s c) = some q) : Moves s c q .unused .embryo
  | fail (pc cur k) (h : code s c = pc::k) (hpc : pc = .allocStack cur q ∨ pc = .forkCopy cur q) :
      Moves s c q .embryo .unused
  | run (k) (h : code s c = .forkRun q::k) : Moves s c q .embryo .runnable
  | yield : Moves s c q .running .runnable
  | sleep : Moves s c q .running .sleeping
  | wake : Moves s c q .sleeping .runnable
  | exit (i k) (h : code s c = .exitReparent q i::k) (hi : slot? cfg i = none) :
      Moves s c q .running .zombie
  | free : Moves s c q .zombie .unused
  | take : Moves s c q .runnable .running

end

section
variable {cfg : Config} {mq : Bool} {s s' : State cfg} {c : cfg.CpuId} {a : Act cfg}
  {p np : cfg.Slot} {x pc : Pc cfg} {k : List (Pc cfg)}

/-- A slot is EMBRYO while a program point of its `fork` is on a kernel stack. -/
theorem embryo_of_mem (hC : Core mq s) (hx : x ∈ s.frames (.kstack p))
    (hw : forkTok np x ≠ 0) : (s.proc np).state = .embryo := by
  have hle := le_weight_of_mem (w := forkTok np) hx
  have hsum : _ ≤ ∑ q, weight (forkTok np) (s.frames (.kstack q)) :=
    le_sum (fun q => weight (forkTok np) (s.frames (.kstack q))) p
  rw [hC.fork.count np] at hsum
  by_contra hne
  rw [if_neg hne] at hsum
  omega

theorem mem_code (hk : code s c = x::k) : x ∈ s.frames (s.cpu c).stack := by
  have : s.frames (s.cpu c).stack = x::k := hk
  simp [this]

theorem stack_ne_vacant (hC : Core mq s) (hp : Vacant (s.proc p).state) :
    Stack.kstack p ≠ (s.cpu c).stack := by
  intro he
  have hon : On s c p := he.symm
  rcases hC.on_state hon with ⟨-,hr⟩ | ⟨-,hr⟩
  · rw [hr] at hp
    exact hp
  · revert hp hr
    cases (s.proc p).state <;> simp [Vacant,Resting]

theorem embryo_of_code (hC : Core mq s) {cur : cfg.Slot}
    (hk : code s c = pc::k) (hpc : pc = .allocStack cur np ∨ pc = .forkCopy cur np) :
    (s.proc np).state = .embryo := by
  obtain ⟨H,-,hw⟩ := (hC.cpu c).rule hk
  have hst : (s.cpu c).stack = .kstack cur := by
    rcases hpc with rfl | rfl <;> exact hw.2.1
  refine embryo_of_mem hC (p := cur) (hst ▸ mem_code hk) ?_
  rcases hpc with rfl | rfl <;> simp [forkTok]

theorem running_of_user (hC : Core mq s)
    (hk : code s c = .user::k) (hp : (s.cpu c).proc = some p) : (s.proc p).state = .running := by
  obtain ⟨H,-,-,hst,rfl⟩ := (hC.cpu c).rule hk
  obtain ⟨q,hon,hq⟩ := (hC.cpu c).on_of_isKstack hst
  rw [hp] at hq
  cases hq
  exact hC.runs c p hon (by rw [hk]; rfl)

/-- What a call of `exit` drops is the return to user space. -/
theorem dropped_tail (hC : Core mq s) (hk : code s c = pc::k)
    (hd : drops pc = true) : k = [] ∨ k = [.user] ∨ k = [.iret,.user] := by
  obtain ⟨H,-,hw⟩ := (hC.cpu c).rule hk
  cases pc
  case trapKilled timer usr => exact .inr (.inr (hw.2.1.2 hd))
  case trapLast usr => exact .inr (.inr (hw.2.1.2 hd))
  case sysret => exact .inr (.inl hw.2.2)
  case user => exact .inl hw.2.2
  all_goals cases hd

/-- Nothing else stands on a stack of which `exit` drops the frames. -/
theorem dropped (hC : Core mq s) (hk : code s c = pc::k)
    (hd : drops pc = true) (hu : x ≠ .user) (hi : x ≠ .iret) (hx : x ≠ pc) :
    x ∉ s.frames (s.cpu c).stack := by
  have hcode : s.frames (s.cpu c).stack = pc::k := hk
  rcases dropped_tail hC hk hd with rfl | rfl | rfl <;> simp [hcode,hu,hi,hx]

theorem boot_frames (cfg : Config) (mq : Bool) (st : Stack cfg) (x : Pc cfg)
    (hx : x ∈ (boot cfg mq).frames st) :
    x = .forkret ∨ x = .user ∨ x = .rrLoop ∨ ∃ r, x = .mqLoop r := by
  cases st with
  | kstack =>
    simp only [KernelStep.boot] at hx
    split_ifs at hx
    · simp only [List.mem_cons,List.not_mem_nil,or_false] at hx
      exact hx.imp id .inl
    · cases hx
  | sched r =>
    simp only [KernelStep.boot] at hx
    split_ifs at hx
    · exact .inr (.inr (.inr ⟨r,List.mem_singleton.mp hx⟩))
    · exact .inr (.inr (.inl (List.mem_singleton.mp hx)))

theorem boot_proc (cfg : Config) (mq : Bool) (p : cfg.Slot) :
    ((boot cfg mq).proc p).killed = false ∧ ((boot cfg mq).proc p).chan = none ∧
      ((boot cfg mq).proc p).state ≠ .zombie := by
  by_cases hp : p.val = 0 <;> simp [KernelStep.boot,hp]

theorem fork_unique (hC : Core mq s) (np : cfg.Slot) {q : cfg.Slot} {y : Pc cfg}
    (hx : x ∈ s.frames (.kstack p)) (hy : y ∈ s.frames (.kstack q)) (hwx : forkTok np x ≠ 0)
    (hwy : forkTok np y ≠ 0) : x = y := by
  by_contra hne
  have hsum := hC.fork.count np
  have hone : ∑ q, weight (forkTok np) (s.frames (.kstack q)) ≤ 1 := by
    rw [hsum]
    split_ifs <;> omega
  have hlx := le_weight_of_mem (w := forkTok np) hx
  have hly := le_weight_of_mem (w := forkTok np) hy
  by_cases hpq : p = q
  · subst hpq
    have hle : _ ≤ ∑ q, weight (forkTok np) (s.frames (.kstack q)) :=
      le_sum (fun q => weight (forkTok np) (s.frames (.kstack q))) p
    have htwo := add_le_weight (w := forkTok np) hx hy hne
    omega
  · have htwo : _ ≤ ∑ q, weight (forkTok np) (s.frames (.kstack q)) :=
      add_le_sum (fun q => weight (forkTok np) (s.frames (.kstack q))) hpq
    omega

theorem moves (hC : Core mq s) (ht : TableStep s c a s') (q : cfg.Slot) :
    Moves s c q (s.proc q).state (s'.proc q).state := by
  rcases ht.proc_cases q with hs | ⟨cur,i,k,hc,hi,hu,hs⟩ | ⟨pc,k,f,hc,hw,hs⟩ <;> rw [hs]
  · exact .stay _
  · rw [hu]
    exact .alloc (by rw [hc,allocTarget_eq hi hu])
  · cases hw
    case execName | fault | build | copy | sched | swtch | awake | reparent => exact .stay _
    case allocFail cur ha =>
      rw [embryo_of_code hC hc (.inl rfl)]
      exact .fail _ cur k hc (.inl rfl)
    case copyFail cur ha =>
      rw [embryo_of_code hC hc (.inr rfl)]
      exact .fail _ cur k hc (.inr rfl)
    case run =>
      obtain ⟨H,-,-,hst,-⟩ := (hC.cpu c).rule hc
      obtain ⟨cur,hon,-⟩ := (hC.cpu c).on_of_isKstack hst
      have hon : (s.cpu c).stack = .kstack cur := hon
      rw [embryo_of_mem hC (p := cur) (hon ▸ mem_code hc) (by simp [forkTok])]
      exact .run k hc
    case yield =>
      obtain ⟨H,-,-,hst,hcalm,-⟩ := (hC.cpu c).rule hc
      rw [hC.runs c q hst (by rw [hc]; exact hcalm.plain)]
      exact .yield
    case sleep ch l =>
      obtain ⟨H,-,-,-,hst,hst',-⟩ := (hC.cpu c).rule hc
      rw [hC.runs c q hst (by rw [hc]; exact hst'.plain)]
      exact .sleep
    case wake ch =>
      rw [hC.pend c q (by simp [hc,wakeTok])]
      exact .wake
    case kill pid i hi hp =>
      by_cases hsl : (s.proc q).state = .sleeping
      · simp only [hsl,if_true]
        exact .wake
      · simp only [hsl,if_false]
        exact .stay _
    case zombie i hi =>
      obtain ⟨H,-,-,hst,rfl⟩ := (hC.cpu c).rule hc
      rw [hC.runs c q hst (by rw [hc]; rfl)]
      exact .exit i [] hc hi
    case free p i kids hi hpar hz =>
      rw [hz]
      exact .free
    case mark r =>
      rw [hC.taking c q (by rw [hc]; rfl)]
      exact .take
    case take i hi hp =>
      rw [hp]
      exact .take

theorem parent_new (ht : TableStep s c a s') {j q : cfg.Slot} (h : (s'.proc j).parent = some q) :
    (s.proc j).parent = some q ∨ (∃ k, code s c = .forkCopy q j::k ∧ a = .alloc true) ∨
    ∃ p i k, code s c = .exitReparent p i::k ∧ slot? cfg i = some j ∧
      (s.proc j).parent = some p ∧ q = s.initproc := by
  rcases ht.proc_cases j with hp | ⟨-,-,-,-,-,-,hp⟩ | ⟨pc,k,f,hc,hw,hp⟩ <;> rw [hp] at h
  · exact .inl h
  · exact .inl h
  · cases hw
    case copy cur ha =>
      cases h
      exact .inr (.inl ⟨k,hc,ha⟩)
    case reparent p i hi hq =>
      cases h
      exact .inr (.inr ⟨p,i,k,hc,hi,hq,rfl⟩)
    case free => cases h
    all_goals exact .inl h

theorem parent_lost (ht : TableStep s c a s') {j : cfg.Slot} (h : (s'.proc j).parent = none) :
    (s.proc j).parent = none ∨ (s.proc j).state = .zombie ∧ (s'.proc j).state = .unused := by
  rcases ht.proc_cases j with hp | ⟨-,-,-,-,-,-,hp⟩ | ⟨pc,k,f,hc,hw,hp⟩ <;> rw [hp] at h ⊢
  · exact .inl h
  · exact .inl h
  · cases hw
    case copy | reparent => cases h
    case free p i kids hi hq hz => exact .inr ⟨hz,rfl⟩
    all_goals exact .inl h

/-- Nothing changes the parent that `fork` has set before the child is RUNNABLE. -/
theorem parent_copied (hC : Core mq s) (ht : TableStep s c a s') {cur : cfg.Slot}
    (hm : .forkRun np ∈ s.frames (.kstack cur)) (h : (s.proc np).parent = some cur) :
    (s'.proc np).parent = some cur := by
  have hemb : (s.proc np).state = .embryo := embryo_of_mem hC hm (by simp [forkTok])
  cases hpar : (s'.proc np).parent with
  | none =>
    rcases parent_lost ht hpar with hn | ⟨hz,-⟩
    · rw [h] at hn
      cases hn
    · rw [hemb] at hz
      cases hz
  | some =>
    rcases parent_new ht hpar with hq | ⟨k,hk,-⟩ | ⟨p,i,k,hk,-,hp,-⟩
    · exact hq.symm.trans h
    · obtain ⟨H,-,-,hst,-⟩ := (hC.cpu c).rule hk
      cases fork_unique hC np hm (hst ▸ mem_code hk) (by simp [forkTok]) (by simp [forkTok])
    · obtain ⟨H,-,-,hst,rfl⟩ := (hC.cpu c).rule hk
      rw [h] at hp
      cases hp
      have hcode : s.frames (.kstack cur) = [.exitReparent cur i] := by
        rw [← hst]
        exact hk
      simp [hcode] at hm

theorem writes_locked {f : Proc cfg → Proc cfg} (hC : Core false s) (hk : code s c = pc::k)
    (hw : Writes s c a pc p f) (hne : (f (s.proc p)).state ≠ (s.proc p).state) :
    s.lock .ptable = some c ∨ (s.proc p).state = .embryo ∧ (f (s.proc p)).state = .unused := by
  obtain ⟨H,hH,hr⟩ := (hC.cpu c).rule hk
  rw [hH.locks]
  cases hw
  case allocFail => exact .inr ⟨embryo_of_code hC hk (.inl rfl),rfl⟩
  case copyFail => exact .inr ⟨embryo_of_code hC hk (.inr rfl),rfl⟩
  all_goals simp_all [unspin,Rule]

/-- In every run of the round-robin kernel `p->state` changes as `Moves` says, by a CPU that holds
`ptable.lock`, but for the slot that a failing `fork` gives back. -/
theorem state_moves {t : State cfg} {b : Label cfg} (h : Reachable cfg s)
    (hs : stepBy false s b = some t) (q : cfg.Slot) (hne : (t.proc q).state ≠ (s.proc q).state) :
    Moves s b.cpu q (s.proc q).state (t.proc q).state ∧
    (s.lock .ptable = some b.cpu ∨ (s.proc q).state = .embryo ∧ (t.proc q).state = .unused) := by
  have ht := (step_turn hs).table
  refine ⟨moves h.core ht q,?_⟩
  rcases ht.proc_cases q with hp | ⟨cur,i,k,hk,-,-,hp⟩ | ⟨pc,k,f,hk,hw,hp⟩
  · exact absurd (by rw [hp]) hne
  · obtain ⟨H,hH,hr⟩ := (h.core.cpu b.cpu).rule hk
    exact .inl ((hH.locks _).mpr (by simp [hr.1]))
  · rw [hp] at hne ⊢
    exact writes_locked h.core hk hw hne

end

/-- The scheduler takes the first process. -/
theorem state_moves_dispatch : ∃ s t : State small, stepBy false s (go 0) = some t ∧
    Moves s 0 0 .runnable .running ∧ s.lock .ptable = some 0 := by
  have hrun : (run (stepBy false) (boot small false) (firstDispatch.take 3)).any
      (fun s => (stepBy false s (go 0)).any fun t =>
        (s.proc 0).state = .runnable ∧ (t.proc 0).state = .running) = true := by decide +kernel
  obtain ⟨s,hs,hp⟩ := (Option.any_eq_true _ _).mp hrun
  obtain ⟨t,ht,hp⟩ := (Option.any_eq_true _ _).mp hp
  obtain ⟨hst,htt⟩ := of_decide_eq_true hp
  have h := state_moves (.of_run hs) ht 0 (by rw [hst,htt]; nofun)
  rw [hst,htt] at h
  exact ⟨s,t,ht,h.1,h.2.resolve_right nofun⟩

end Xv6.Lifecycle
