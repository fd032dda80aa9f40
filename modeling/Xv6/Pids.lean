import Xv6.ProcTable
import Xv6.RoundRobin

/-!
# Process identifiers

`allocproc` takes a pid from `nextpid`, which only counts up, also for a `fork` that fails
afterwards. While it does not wrap around, the pids in use are distinct. `clock_log` and
`isnot_first_running` have one entry per slot of the process table and are indexed by pid: a process
that forks often enough leaves their bounds with any table.
-/
namespace Xv6.Pids
open SchedLog KernelState KernelStep Typing ProcTable Machine

section
variable {cfg : Config}

/-- The slot to which `allocproc` is about to give a pid. -/
def allocTarget (s : State cfg) : List (Pc cfg) → Option cfg.Slot
  | .allocproc _ i::_ => (slot? cfg i).filter fun p => (s.proc p).state = .unused
  | _ => none

/-- The indices of `clock_log` and `isnot_first_running`. -/
def InArrays (cfg : Config) (n : ℤ) : Prop := 0 ≤ n ∧ n < cfg.nproc

/-- `nextpid` is an index of the arrays when it is given out. -/
def PidsFit (s : State cfg) (a : Label cfg) : Prop :=
  allocTarget s (code s a.cpu) ≠ none → InArrays cfg s.nextpid

/-- `nextpid` has not reached the largest `int` when it is given out. -/
def Unwrapped (s : State cfg) (a : Label cfg) : Prop :=
  allocTarget s (code s a.cpu) ≠ none → s.nextpid < 2^31-1

instance (n : ℤ) : Decidable (InArrays cfg n) := inferInstanceAs (Decidable (_ ∧ _))

instance (s : State cfg) (a : Label cfg) : Decidable (PidsFit s a) :=
  inferInstanceAs (Decidable (_ → _))

instance (s : State cfg) (a : Label cfg) : Decidable (Unwrapped s a) :=
  inferInstanceAs (Decidable (_ → _))

def inUser : List (Pc cfg) → Bool
  | [.user] => true
  | _ => false

/-- Nonzero pids are distinct and below `nextpid`. -/
structure Distinct (s : State cfg) : Prop where
  pos : 0 < s.nextpid
  below : ∀ p, 0 ≤ (s.proc p).pid ∧ (s.proc p).pid < s.nextpid
  inj : ∀ p q, (s.proc p).pid = (s.proc q).pid → (s.proc p).pid ≠ 0 → p = q

end

section
variable {cfg : Config} {mq : Bool} {s s' : State cfg} {c : cfg.CpuId} {a : Act cfg}

theorem inUser_eq {k : List (Pc cfg)} (h : inUser k = true) : k = [.user] := by
  unfold inUser at h
  split at h
  · rfl
  · cases h

theorem allocTarget_eq {cur p : cfg.Slot} {i : ℕ} {k : List (Pc cfg)} (hi : slot? cfg i = some p)
    (hu : (s.proc p).state = .unused) : allocTarget s (.allocproc cur i::k) = some p := by
  simp [allocTarget,hi,Option.filter,hu]

theorem pid_of_writes {pc : Pc cfg} {p : cfg.Slot} {f : Proc cfg → Proc cfg}
    (h : Writes s c a pc p f) : (f (s.proc p)).pid = (s.proc p).pid ∨ (f (s.proc p)).pid = 0 := by
  cases h
  case free => exact .inr rfl
  all_goals exact .inl rfl

/-- A step keeps or clears pids, or is an `allocproc` that gives out `nextpid`. -/
theorem pids_step (h : TableStep s c a s') :
    (s'.nextpid = s.nextpid ∧ ∀ q, (s'.proc q).pid = (s.proc q).pid ∨ (s'.proc q).pid = 0) ∨
    ∃ p, allocTarget s (code s c) = some p ∧ s'.nextpid = incInt s.nextpid ∧
      (s'.proc p).pid = s.nextpid ∧ ∀ q, q ≠ p → (s'.proc q).pid = (s.proc q).pid := by
  cases h with
  | same hp hn => exact .inl ⟨hn,fun q => .inl (by rw [hp])⟩
  | alloc cur i k p hc hi hu hp hn =>
    refine .inr ⟨p,by rw [hc]; exact allocTarget_eq hi hu,hn,by simp [hp],fun q hq => ?_⟩
    simp [hp,hq]
  | write pc k p f hc hw hp hn =>
    refine .inl ⟨hn,fun q => ?_⟩
    by_cases hq : q = p
    · subst hq
      simpa [hp] using pid_of_writes hw
    · exact .inl (by simp [hp,hq])

/-- The pid of one slot is kept, cleared by `wait`, or given by `allocproc`. -/
theorem pid_step (h : TableStep s c a s') (p : cfg.Slot) : (s'.proc p).pid = (s.proc p).pid ∨
    (s.proc p).state = .zombie ∧ (s'.proc p).state = .unused ∨
    (s.proc p).state = .unused ∧ (s'.proc p).pid = s.nextpid := by
  rcases h.proc_cases p with hp | ⟨-,-,-,-,-,hu,hp⟩ | ⟨pc,k,f,hc,hw,hp⟩
  · exact .inl (by rw [hp])
  · exact .inr (.inr ⟨hu,by rw [hp]⟩)
  · rw [hp]
    cases hw
    case free i kids hi hq hz => exact .inr (.inl ⟨hz,rfl⟩)
    all_goals exact .inl rfl

theorem incInt_of_lt {n : ℤ} (h : n < 2^31-1) : incInt n = n+1 := if_neg (by omega)

theorem Distinct.boot (cfg : Config) (mq : Bool) : Distinct (boot cfg mq) := by
  refine ⟨by simp [KernelStep.boot],fun p => ?_,fun p q heq hp => ?_⟩
  · by_cases h : p.val = 0 <;> simp [KernelStep.boot,h]
  · by_cases h : p.val = 0 <;> by_cases h' : q.val = 0 <;> simp [KernelStep.boot,h,h'] at heq hp
    exact Fin.ext (h.trans h'.symm)

theorem Distinct.step (h : Distinct s) (ht : TableStep s c a s')
    (hu : allocTarget s (code s c) ≠ none → s.nextpid < 2^31-1) : Distinct s' := by
  obtain ⟨hpos,hbelow,hinj⟩ := h
  rcases pids_step ht with ⟨hn,hpid⟩ | ⟨p,hp,hn,hpid,hother⟩
  · refine ⟨by omega,fun q => ?_,fun q r heq hq => ?_⟩
    · have := hbelow q
      rcases hpid q with he | he <;> omega
    · rcases hpid q with he | he
      · rcases hpid r with hr | hr
        · exact hinj q r (by omega) (by omega)
        · omega
      · omega
  · rw [incInt_of_lt (hu (by simp [hp]))] at hn
    refine ⟨by omega,fun q => ?_,fun q r heq hq => ?_⟩
    · have := hbelow q
      by_cases hqp : q = p
      · subst hqp
        omega
      · have := hother q hqp
        omega
    · have hbq := hbelow q
      have hbr := hbelow r
      by_cases hqp : q = p <;> by_cases hrp : r = p
      · rw [hqp,hrp]
      · subst hqp
        have := hother r hrp
        omega
      · subst hrp
        have := hother q hqp
        omega
      · exact hinj q r (by rw [← hother q hqp,← hother r hrp]; exact heq) (by
          rw [← hother q hqp]; exact hq)

theorem pids_fit (hn : 1 < cfg.nproc) (h : Reach (stepBy mq) PidsFit (boot cfg mq) s) (p : cfg.Slot) :
    InArrays cfg (s.proc p).pid := by
  refine h.invariant (I := fun s => ∀ p, InArrays cfg (s.proc p).pid) (fun p => ?_) ?_ p
  · by_cases hp : p.val = 0
    · simpa [KernelStep.boot,hp,InArrays] using hn
    · simpa [KernelStep.boot,hp,InArrays] using cfg.nproc_pos
  · intro s a s' hI hfit hs q
    rcases pids_step (step_turn hs).table with ⟨-,hpid⟩ | ⟨p,hp,-,hpid,hother⟩
    · rcases hpid q with he | he
      · rw [he]
        exact hI q
      · rw [he]
        exact ⟨le_rfl,by exact_mod_cast cfg.nproc_pos⟩
    · by_cases hq : q = p
      · subst hq
        rw [hpid]
        exact hfit (by simp [hp])
      · rw [hother q hq]
        exact hI q

/-- As long as only pids inside the arrays are given out, every access is inside them. -/
theorem index_in_bounds (hn : 1 < cfg.nproc) (h : Reach (stepBy mq) PidsFit (boot cfg mq) s)
    {a : Label cfg} {n : ℤ} (hi : pidIndex s (code s a.cpu) a.act = some n) : InArrays cfg n := by
  have hpid := pids_fit hn h
  unfold pidIndex at hi
  split at hi
  · cases hi
    exact hpid _
  · split_ifs at hi
    cases hi
    exact hpid _
  · cases hi
    exact hpid _
  · obtain ⟨p,-,rfl⟩ := Option.map_eq_some_iff.mp hi
    exact hpid p
  · cases hi

end
section Forks
variable {cfg : Config} (mq : Bool) {s s' : State cfg} {z o : cfg.Slot} {k k' : List (Pc cfg)}
  {l : Option cfg.CpuId} {m : ℕ} {st : ProcState} {n : ℤ}

/-- On the boot CPU the process in slot `z` is at `k` in a `fork`. Slot `o` is the one that
`allocproc` finds; when it is EMBRYO it has the last pid given out. -/
structure Forking (s : State cfg) (z o : cfg.Slot) (k : List (Pc cfg)) (l : Option cfg.CpuId)
    (m : ℕ) (st : ProcState) (n : ℤ) : Prop where
  stack : (s.cpu cfg.bsp).stack = .kstack z
  proc : (s.cpu cfg.bsp).proc = some z
  ncli : (s.cpu cfg.bsp).ncli = m
  off : m ≠ 0 → (s.cpu cfg.bsp).fl = false
  frames : code s cfg.bsp = k
  lock : s.lock .ptable = l
  used : (s.proc z).state = .running
  alive : (s.proc z).killed = false
  slot : (s.proc o).state = st
  pid : st = .embryo → (s.proc o).pid = n-1
  nextpid : s.nextpid = n

theorem Forking.jump (h : Forking s z o k l m st n) : Forking (goto s cfg.bsp k') z o k' l m st n :=
  ⟨h.stack,h.proc,h.ncli,h.off,code_goto _ _ _,h.lock,h.used,h.alive,h.slot,h.pid,h.nextpid⟩

theorem Forking.call (h : Forking s z o [.user] l m st n) :
    ∃ s', step mq s cfg.bsp ⟨0,0⟩ (.user .fork) = some s' ∧
      Forking s' z o [.acquire .ptable,.allocproc z 0,.sysret,.user] l m st n := by
  refine ⟨_,?_,h.jump⟩
  simp only [KernelStep.step,h.frames,choose,withProc,h.proc]
  unfold userOp
  simp [h.alive]

theorem Forking.acquire (h : Forking s z o (.acquire .ptable::k) none 0 st n) :
    ∃ s', step mq s cfg.bsp ⟨0,0⟩ .go = some s' ∧ Forking s' z o (.spin .ptable::k) none 1 st n := by
  refine ⟨goto (setCpu s cfg.bsp pushcli) cfg.bsp (.spin .ptable::k),?_,?_⟩
  · simp [KernelStep.step,h.frames,exec,h.lock]
  · refine Forking.jump (k := .acquire .ptable::k)
      ⟨?_,?_,?_,?_,?_,h.lock,h.used,h.alive,h.slot,h.pid,h.nextpid⟩
    · simpa [setCpu,pushcli] using h.stack
    · simpa [setCpu,pushcli] using h.proc
    · simpa [setCpu,pushcli] using h.ncli
    · simp [setCpu,pushcli]
    · simpa [code,setCpu,pushcli] using h.frames

theorem Forking.spin (h : Forking s z o (.spin .ptable::k) none m st n) :
    ∃ s', step mq s cfg.bsp ⟨0,0⟩ .go = some s' ∧ Forking s' z o k (some cfg.bsp) m st n := by
  refine ⟨goto (setLock s .ptable (some cfg.bsp)) cfg.bsp k,?_,?_⟩
  · simp [KernelStep.step,h.frames,exec,h.lock]
  · exact Forking.jump (k := .spin .ptable::k) ⟨h.stack,h.proc,h.ncli,h.off,h.frames,by simp [setLock],
      h.used,h.alive,h.slot,h.pid,h.nextpid⟩

theorem Forking.pass (hz : slot? cfg 0 = some z) (h : Forking s z o (.allocproc z 0::k) l m st n) :
    ∃ s', step mq s cfg.bsp ⟨0,0⟩ .go = some s' ∧ Forking s' z o (.allocproc z 1::k) l m st n :=
  ⟨_,by simp [KernelStep.step,h.frames,exec,hz,h.used],h.jump⟩

theorem Forking.alloc (ho : slot? cfg 1 = some o) (hn : n < 2^31-1)
    (h : Forking s z o (.allocproc z 1::k) l m .unused n) :
    ∃ s', step mq s cfg.bsp ⟨0,0⟩ .go = some s' ∧
      Forking s' z o (.release .ptable::.allocStack z o::k) l m .embryo (n+1) := by
  have hne : z ≠ o := by
    rintro rfl
    have := h.used
    rw [h.slot] at this
    cases this
  refine ⟨goto (allocSlot s cfg.bsp ⟨0,0⟩ o) cfg.bsp (.release .ptable::.allocStack z o::k),?_,?_⟩
  · simp [KernelStep.step,h.frames,exec,ho,h.slot]
  · refine Forking.jump (k := .allocproc z 1::k) ⟨h.stack,h.proc,h.ncli,h.off,h.frames,h.lock,?_,?_,?_,?_,?_⟩
    · simpa [allocSlot,setState,setProc,logProc,hne] using h.used
    · simpa [allocSlot,setState,setProc,logProc,hne] using h.alive
    · simp [allocSlot,setState,setProc]
    · intro _
      simp [allocSlot,setState,setProc,logProc,h.nextpid]
    · simp [allocSlot,setState,setProc,logProc,h.nextpid,incInt_of_lt hn]

theorem Forking.release (h : Forking s z o (.release .ptable::k) (some cfg.bsp) 1 st n) :
    ∃ s', step mq s cfg.bsp ⟨0,0⟩ .go = some s' ∧ Forking s' z o k none 0 st n := by
  have hpop : popcli (s.cpu cfg.bsp) = .ok
      {s.cpu cfg.bsp with ncli := 0, fl := (s.cpu cfg.bsp).intena} := by
    simp [popcli,h.ncli,h.off one_ne_zero]
  refine ⟨goto (setCpu (setLock s .ptable none) cfg.bsp fun _ =>
    {s.cpu cfg.bsp with ncli := 0, fl := (s.cpu cfg.bsp).intena}) cfg.bsp k,?_,?_⟩
  · simp only [KernelStep.step,h.frames,exec,h.lock,hpop]
    simp
  · refine Forking.jump (k := .release .ptable::k)
      ⟨?_,?_,by simp [setCpu],by simp,?_,by simp [setCpu,setLock],h.used,h.alive,h.slot,h.pid,h.nextpid⟩
    · simpa [setCpu] using h.stack
    · simpa [setCpu] using h.proc
    · simpa [code,setCpu,setLock] using h.frames

theorem Forking.fail (hne : z ≠ o) (h : Forking s z o (.allocStack z o::k) l m st n) :
    ∃ s', step mq s cfg.bsp ⟨0,0⟩ (.alloc false) = some s' ∧ Forking s' z o k l m .unused n := by
  refine ⟨goto (setState s o .unused) cfg.bsp k,?_,?_⟩
  · simp [KernelStep.step,h.frames,choose]
  · refine Forking.jump (k := .allocStack z o::k) ⟨h.stack,h.proc,h.ncli,h.off,h.frames,h.lock,?_,?_,?_,?_,h.nextpid⟩
    · simpa [setState,setProc,hne] using h.used
    · simpa [setState,setProc,hne] using h.alive
    · simp [setState,setProc]
    · intro he
      cases he

theorem Forking.build (h : Forking s z o (.allocStack z o::k) l m .embryo n) :
    ∃ s', step mq s cfg.bsp ⟨0,0⟩ (.alloc true) = some s' ∧
      code s' cfg.bsp = .forkCopy z o::k ∧ (s'.proc o).pid = n-1 := by
  refine ⟨goto (buildStack s o) cfg.bsp (.forkCopy z o::k),?_,by simp,?_⟩
  · simp [KernelStep.step,h.frames,choose]
  · simpa [goto,buildStack,setProc] using h.pid rfl

theorem Forking.sysret (h : Forking s z o (.sysret::k) l m st n) :
    ∃ s', step mq s cfg.bsp ⟨0,0⟩ .go = some s' ∧ Forking s' z o k l m st n :=
  ⟨_,by simp [KernelStep.step,h.frames,exec,killed,h.proc,h.alive],h.jump⟩

def Reached (cfg : Config) (mq : Bool) (s : State cfg) : Prop :=
  Reach (stepBy mq) (fun _ _ => True) (boot cfg mq) s

variable {mq} in
theorem Reached.next {c : cfg.CpuId} {cl : Clock} {a : Act cfg} (hr : Reached cfg mq s)
    (h : step mq s c cl a = some s') : Reached cfg mq s' := Reach.tail (a := ⟨c,a,cl⟩) hr trivial h

theorem Forking.begins (hz : slot? cfg 0 = some z) (ho : slot? cfg 1 = some o) (hn : n < 2^31-1)
    (hr : Reached cfg mq s) (h : Forking s z o [.user] none 0 .unused n) :
    ∃ s', Reached cfg mq s' ∧ Forking s' z o [.allocStack z o,.sysret,.user] none 0 .embryo (n+1) := by
  obtain ⟨s₁,h₁,f₁⟩ := h.call mq
  obtain ⟨s₂,h₂,f₂⟩ := f₁.acquire mq
  obtain ⟨s₃,h₃,f₃⟩ := f₂.spin mq
  obtain ⟨s₄,h₄,f₄⟩ := f₃.pass mq hz
  obtain ⟨s₅,h₅,f₅⟩ := f₄.alloc mq ho hn
  obtain ⟨s₆,h₆,f₆⟩ := f₅.release mq
  exact ⟨s₆,(((((hr.next h₁).next h₂).next h₃).next h₄).next h₅).next h₆,f₆⟩

/-- Forks that fail after `allocproc` drive `nextpid` to any value. -/
theorem Forking.counts (hz : slot? cfg 0 = some z) (ho : slot? cfg 1 = some o) (hne : z ≠ o)
    (hr : Reached cfg mq s) (h : Forking s z o [.user] none 0 .unused n) (d : ℕ)
    (hd : n+d < 2^31-1) :
    ∃ s', Reached cfg mq s' ∧ Forking s' z o [.user] none 0 .unused (n+d) := by
  induction d with
  | zero => exact ⟨s,hr,by simpa using h⟩
  | succ d ih =>
    obtain ⟨s₁,r₁,f₁⟩ := ih (by push_cast at hd; omega)
    obtain ⟨s₂,r₂,f₂⟩ := f₁.begins mq hz ho (by push_cast at hd; omega) r₁
    obtain ⟨s₃,h₃,f₃⟩ := f₂.fail mq hne
    obtain ⟨s₄,h₄,f₄⟩ := f₃.sysret mq
    exact ⟨s₄,(r₂.next h₃).next h₄,by simpa [add_assoc] using f₄⟩

abbrev param : Config := ⟨15000,8,by decide,by decide⟩

def firstRun : List (Label param) :=
  List.replicate 7 (RoundRobin.go 0)++[⟨0,.leave,⟨0,0⟩⟩]

theorem firstRun_forking : ∃ s, Reached param false s ∧ Forking s 0 1 [.user] none 0 .unused 2 := by
  have hrun : (run (stepBy false) (boot param false) firstRun).any (fun s =>
      ((s.cpu 0).stack = .kstack 0 ∧ (s.cpu 0).proc = some 0 ∧ (s.cpu 0).ncli = 0 ∧
        inUser (code s 0) = true) ∧
      s.lock .ptable = none ∧ (s.proc 0).state = .running ∧ (s.proc 0).killed = false ∧
      (s.proc 1).state = .unused ∧ s.nextpid = 2) = true := by decide +kernel
  obtain ⟨s,hs,hp⟩ := (Option.any_eq_true _ _).mp hrun
  obtain ⟨⟨hst,hproc,hncli,hu⟩,hl,hr,ha,hf,hn⟩ := of_decide_eq_true hp
  exact ⟨s,RoundRobin.Reachable.of_run hs,hst,hproc,hncli,by simp,inUser_eq hu,hl,hr,ha,hf, by simp,hn⟩

/-- A process that forks 14999 times, the last time with success, has its child's
`clock_log` entry beyond the end of the array. -/
theorem forks_out_of_bounds : ∃ s a n, Reached param false s ∧ (stepBy false s a).isSome ∧
    pidIndex s (code s a.cpu) a.act = some n ∧ ¬ InArrays param n := by
  obtain ⟨s₁,r₁,f₁⟩ := firstRun_forking
  obtain ⟨s₂,r₂,f₂⟩ := f₁.counts false rfl rfl (by decide) r₁ 14998 (by norm_num)
  obtain ⟨s₃,r₃,f₃⟩ := f₂.begins false rfl rfl (by norm_num) r₂
  obtain ⟨s₄,h₄,hk,hpid⟩ := f₃.build false
  have hk : code s₄ 0 = _ := hk
  refine ⟨s₄,⟨0,.alloc true,⟨0,0⟩⟩,15000,r₃.next h₄,?_,?_,by decide⟩
  · simp [stepBy,KernelStep.step,hk,choose]
  · simp [hk,pidIndex,hpid]

/-- The first process is dispatched with the first pid. -/
theorem firstRun_in_bounds : ∃ s, run (guarded (stepBy false) PidsFit) (boot param false)
      (List.replicate 3 (RoundRobin.go 0)) = some s ∧
    pidIndex s (code s 0) .go = some 1 ∧ InArrays param 1 := by
  have hrun : (run (guarded (stepBy false) PidsFit) (boot param false)
      (List.replicate 3 (RoundRobin.go 0))).any (fun s => pidIndex s (code s 0) .go = some 1) =
      true := by decide +kernel
  obtain ⟨s,hs,hp⟩ := (Option.any_eq_true _ _).mp hrun
  have hp := of_decide_eq_true hp
  exact ⟨s,hs,hp,index_in_bounds (a := RoundRobin.go 0) (by decide) (Reach.refl.of_run hs) hp⟩

end Forks
end Xv6.Pids
