import Xv6.ProcTable

/-!
# What `sched` restores

`intena` says whether interrupts were on before the outermost `pushcli` of a CPU. `sched` saves it
when a thread gives up the CPU and puts it back when the thread goes on: in the multiple-runqueue
kernel into the CPU that the thread has left.
-/
namespace Xv6.SchedReturn
open SchedLog KernelState KernelStep Typing ProcTable Machine

section
variable {cfg : Config}

/-- A program point with property `P` stands right on top of `k`. -/
def Over (P : Pc cfg → Prop) (k : List (Pc cfg)) : List (Pc cfg) → Prop
  | [] => False
  | y::l => P y ∧ l = k ∨ Over P k l

/-- The program points of `sched` behind its checks. -/
def inSched : Pc cfg → Bool
  | .swtch _ _ _ | .schedIntena _ _ => true
  | _ => false

/-- The program points of a `sched` that has saved the flag `v` of CPU `a`. -/
def Saved (a : cfg.CpuId) (v : Bool) : Pc cfg → Prop
  | .swtch _ cur b | .schedIntena cur b => cur = a ∧ b = v
  | _ => False

/-- CPU `a` calls `sched` with step `m` of a run, and the call returns on CPU `b` with step `u`. The
frames of the caller are `k`. -/
structure Call {s₀ : State cfg} {n : ℕ} (t : Trace (stepBy true) s₀ n) (a b : cfg.CpuId) (m u : ℕ)
    (k : List (Pc cfg)) : Prop where
  order : m < u ∧ u < n
  enter : (t.label m).cpu = a ∧ code (t.state m) a = .sched::k
  inside : ∀ j, m < j → j ≤ u → Over (inSched ·) k ((t.state j).frames ((t.state m).cpu a).stack)
  on : (t.label u).cpu = b ∧ ((t.state u).cpu b).stack = ((t.state m).cpu a).stack
  leave : (∃ y, code (t.state u) b = y::k) ∧ (t.state (u+1)).frames ((t.state m).cpu a).stack = k

end

section
variable {cfg : Config} {P Q : Pc cfg → Prop} {k l : List (Pc cfg)}

theorem Over.length (h : Over P k l) : k.length < l.length := by
  induction l with
  | nil => exact h.elim
  | cons y l ih =>
    rcases h with ⟨-,rfl⟩ | h
    · exact Nat.lt_succ_self _
    · exact (ih h).trans (Nat.lt_succ_self _)

theorem Over.irrefl (h : Over P k k) : False := lt_irrefl _ h.length

theorem Over.append (xs : List (Pc cfg)) (h : Over P k l) : Over P k (xs++l) := by
  induction xs with
  | nil => exact h
  | cons x xs ih => exact .inr ih

end

section
variable {cfg : Config} {s s' s₀ : State cfg} {c a b : cfg.CpuId} {cl : Clock} {v : Bool}
  {act : Act cfg} {k l : List (Pc cfg)} {pc : Pc cfg} {st : Stack cfg} {n m u : ℕ}
  {t : Trace (stepBy true) s₀ n}

theorem goto_intena (d : cfg.CpuId) (b : Bool) :
    (goto (setCpu s d fun e => {e with intena := b}) c k).frames =
      Function.update s.frames (s.cpu c).stack k := by
  have hst : ((setCpu s d fun e => {e with intena := b}).cpu c).stack = (s.cpu c).stack :=
    (SameCpu.intena s c d b).stack
  simp only [goto,hst]
  rfl

/-- The step at a program point of `sched`, other than an interrupt. -/
theorem step_saved (h : step true s c cl act = some s') (hk : code s c = pc::k) (hpc : Saved a v pc) :
    Over (Saved a v) k (s'.frames (s.cpu c).stack) ∨
      pc = .schedIntena a v ∧ s' = goto (setCpu s a fun d => {d with intena := v}) c k := by
  rcases step_kinds hk h with ⟨rfl,hexec⟩ | ⟨irq,usr,-,rfl⟩ | hchoose
  · cases pc
    case swtch p cur b =>
      obtain ⟨rfl,rfl⟩ := hpc
      cases hexec
      refine .inl ?_
      simp [switchFrom,setCpu,setProc,goto,Over,Saved]
    case schedIntena cur b =>
      obtain ⟨rfl,rfl⟩ := hpc
      cases hexec
      exact .inr ⟨rfl,rfl⟩
    all_goals exact hpc.elim
  · refine .inl ?_
    simp [goto,setCpu,hk,Over,hpc]
  · cases pc
    case swtch => cases hchoose
    case schedIntena => cases hchoose
    all_goals exact hpc.elim

/-- A step keeps what is saved in the frame of a call of `sched`, unless the call returns. -/
theorem saved_step (h : step true s c cl act = some s') (hs : Over (Saved a v) k (s.frames st))
    (hs' : Over (inSched ·) k (s'.frames st)) : Over (Saved a v) k (s'.frames st) := by
  by_cases hst : st = (s.cpu c).stack
  · subst hst
    have hcode : s.frames (s.cpu c).stack = code s c := rfl
    rw [hcode] at hs
    cases (step_turn h).frames with
    | next pc k' xs hc hx hf =>
      rw [hc] at hs
      rcases hs with ⟨hpc,rfl⟩ | hs
      · rcases step_saved h hc hpc with hover | ⟨-,rfl⟩
        · exact hover
        · rw [goto_intena,Function.update_self] at hs'
          exact hs'.irrefl.elim
      · rw [hf,Function.update_self]
        exact hs.append xs
    | push xs hx hf =>
      rw [hf,Function.update_self]
      exact hs.append xs
    | drop pc k' hc hd hf =>
      rw [hf,Function.update_self] at hs'
      simp [Over,inSched] at hs'
    | build cur np k' hc ha hf =>
      rw [hc] at hs
      rcases hs with ⟨hpc,-⟩ | hs
      · exact hpc.elim
      · rw [hf,Function.update_self]
        exact .inr hs
  · rcases (step_turn h).frames.other hst with he | ⟨-,he⟩
    · rwa [he]
    · rw [he] at hs'
      simp [Over,inSched] at hs'

theorem saved_enter (h : step true s c cl act = some s') (hk : code s c = .sched::k)
    (hs' : Over (inSched ·) k (s'.frames (s.cpu c).stack)) :
    Over (Saved c (s.cpu c).intena) k (s'.frames (s.cpu c).stack) := by
  have hcaller : ¬ Over (inSched ·) k (.sched::k) := by
    rintro (⟨hno,-⟩ | hno)
    · cases hno
    · exact hno.irrefl
  have hpanic (msg : String) : ¬ Over (inSched ·) k ((KernelStep.panic s c msg).frames (s.cpu c).stack) := by
    simpa [KernelStep.panic,goto,setCpu,hk,Over,inSched] using hcaller
  rcases step_kinds hk h with ⟨rfl,hexec⟩ | ⟨irq,usr,-,rfl⟩ | hchoose
  · cases hexec
    revert hs'
    unfold sched
    split
    · exact fun hs' => absurd hs' (hpanic _)
    · split
      · exact fun hs' => absurd hs' (hpanic _)
      · unfold withProc
        split
        · exact fun hs' => absurd hs' (hpanic _)
        · simp only [if_true]
          split_ifs
          · exact fun hs' => absurd hs' (hpanic _)
          · exact fun hs' => absurd hs' (hpanic _)
          · exact fun _ => by simp [goto,setProc,Over,Saved]
  · refine absurd hs' ?_
    simpa [goto,setCpu,hk,Over,inSched] using hcaller
  · cases hchoose

/-- Along a call the frame of `sched` holds what was saved at its beginning. -/
theorem Call.saved {j : ℕ} (h : Call t a b m u k) (hmj : m < j) (hj : j ≤ u) :
    Over (Saved a ((t.state m).cpu a).intena) k ((t.state j).frames ((t.state m).cpu a).stack) := by
  obtain ⟨⟨hmu,hun⟩,⟨rfl,hcode⟩,hin,-,-⟩ := h
  induction j,hmj using Nat.le_induction with
  | base => exact saved_enter (t.next m (by omega)) hcode (hin _ (Nat.lt_succ_self m) hj)
  | succ j hmj ih =>
    exact saved_step (t.next j (by omega)) (ih (by omega)) (hin _ (by omega) hj)

theorem Call.returns (h : Call t a b m u k) : t.state (u+1) =
      goto (setCpu (t.state u) a fun d => {d with intena := ((t.state m).cpu a).intena}) b k := by
  have hsaved := h.saved h.order.1 le_rfl
  obtain ⟨⟨-,hun⟩,-,-,⟨rfl,hst⟩,⟨y,hy⟩,hback⟩ := h
  have hframes : (t.state u).frames ((t.state u).cpu (t.label u).cpu).stack = y::k := hy
  rw [← hst] at hsaved hback
  rw [hframes] at hsaved
  rcases hsaved with ⟨hpc,-⟩ | hover
  · rcases step_saved (t.next u hun) hy hpc with hover | ⟨-,hs⟩
    · rw [hback] at hover
      exact hover.irrefl.elim
    · exact hs
  · exact hover.irrefl.elim

/-- A call of `sched` that returns on the CPU on which it was made leaves there the flag that was
there when it was made, and the flags of the other CPUs alone. -/
theorem sched_keeps_intena (h : Call t a b m u k) (hb : b = a) :
    ((t.state (u+1)).cpu b).intena = ((t.state m).cpu a).intena ∧
      ∀ d, d ≠ b → ((t.state (u+1)).cpu d).intena = ((t.state u).cpu d).intena := by
  subst hb
  rw [h.returns]
  refine ⟨by simp [goto,setCpu],fun d hd => ?_⟩
  simp [goto,setCpu,hd]

end

/-! ## Two CPUs and one process -/

deriving instance DecidableEq for Pc

instance decidableOver {cfg : Config} (P : Pc cfg → Prop) [DecidablePred P] (k : List (Pc cfg)) :
    (l : List (Pc cfg)) → Decidable (Over P k l)
  | [] => isFalse id
  | y::l =>
    haveI := decidableOver P k l
    inferInstanceAs (Decidable (P y ∧ l = k ∨ Over P k l))

abbrev pair : Config := ⟨1,2,Nat.one_pos,Nat.two_pos⟩

def tick (n : UInt32) (c : pair.CpuId) (a : Act pair) : Label pair := ⟨c,a,⟨0,n⟩⟩

def goes (n : UInt32) (c : pair.CpuId) (steps : ℕ) : List (Label pair) := List.replicate steps (tick n c .go)

/-- The frames under a `sched` that is called in a timer trap. -/
def caller : List (Pc pair) := [.release .ptable,.trapLast true,.iret,.user]

/-- At time 1 the process calls `sched` on CPU `a` with the flag off, at time 2 it is inside, and at
time 3 it returns on CPU `b`. Just before that the flags of both are on. -/
def Watched (a b : pair.CpuId) (s : State pair) (l : Label pair) : Prop :=
  (l.clock.lo = 1 → l.cpu = a ∧ code s a = .sched::caller ∧ (s.cpu a).stack = .kstack 0 ∧
    (s.cpu a).intena = false) ∧
  (l.clock.lo = 2 ∨ l.clock.lo = 3 → Over (inSched ·) caller (s.frames (.kstack 0))) ∧
  (l.clock.lo = 3 → l.cpu = b ∧ (s.cpu b).stack = .kstack 0 ∧
    code s b = .schedIntena a false::caller ∧ (s.cpu a).intena = true ∧ (s.cpu b).intena = true)

instance (a b : pair.CpuId) (s : State pair) (l : Label pair) : Decidable (Watched a b s l) :=
  inferInstanceAs (Decidable (_ ∧ _ ∧ _))

theorem Call.of_watched {s₀ : State pair} {n m u : ℕ} {a b : pair.CpuId}
    (t : Trace (guarded (stepBy true) (Watched a b)) s₀ n) (hmu : m < u) (hun : u < n)
    (hm : (t.label m).clock.lo = 1) (hin : ∀ j, m < j → j < u → (t.label j).clock.lo = 2)
    (hu : t.label u = tick 3 b .go) :
    Call t.unguard a b m u caller ∧ ((t.unguard.state m).cpu a).intena = false ∧
      ((t.unguard.state u).cpu a).intena = true ∧ ((t.unguard.state u).cpu b).intena = true := by
  obtain ⟨hcpu,hcode,hst,hoff⟩ := (t.checked (by omega : m < n)).1 hm
  have hlo : (t.label u).clock.lo = 3 := by rw [hu]; rfl
  obtain ⟨hcpu',hst',hcode',hon⟩ := (t.checked hun).2.2 hlo
  have hnext := t.unguard.next u hun
  have hlabel : t.unguard.label u = tick 3 b .go := hu
  rw [hlabel] at hnext
  refine ⟨⟨⟨hmu,hun⟩,⟨hcpu,hcode⟩,fun j hj hju => ?_,⟨hcpu',hst'.trans hst.symm⟩,⟨_,hcode'⟩,?_⟩,hoff,hon⟩
  · have htime : (t.label j).clock.lo = 2 ∨ (t.label j).clock.lo = 3 := by
      rcases hju.lt_or_eq with hlt | rfl
      · exact .inl (hin j hj hlt)
      · exact .inr hlo
    have hover := (t.checked (by omega : j < n)).2.1 htime
    rwa [← hst] at hover
  · have hstep : exec true (t.state u) b ⟨0,3⟩ caller (.schedIntena a false) = some (t.state (u+1)) := by
      have hdef : step true (t.state u) b ⟨0,3⟩ .go = some (t.state (u+1)) := hnext
      rwa [step,hcode'] at hdef
    have hend : t.unguard.state (u+1) =
        goto (setCpu (t.state u) a fun d => {d with intena := false}) b caller :=
      (Option.some.inj hstep).symm
    have hsame : (t.unguard.state m |>.cpu a).stack = ((t.state u).cpu b).stack := hst.trans hst'.symm
    rw [hend,goto_intena,hsame,Function.update_self]

/-- The process sleeps on CPU 0 and is woken by a device interrupt on CPU 1. There a timer interrupt
makes it yield, and CPU 0 steals it. -/
def migrates : List (Label pair) :=
  goes 0 0 14++[tick 0 0 (.enter 1)]++goes 0 0 2++[tick 0 0 (.sleepOn (.addr 1))]++goes 0 0 8++
    goes 0 1 1++[tick 0 1 (.intr (.dev 1))]++goes 0 1 3++[tick 0 1 (.wake (.addr 1))]++goes 0 1 11++
    [tick 0 1 .leave]++goes 0 1 24++[tick 0 1 .leave]++goes 0 1 1++
    [tick 0 1 .leave,tick 0 1 (.intr .timer)]++goes 0 1 12++
    goes 1 1 1++goes 2 1 2++goes 2 0 38++goes 2 1 4++goes 3 0 1

/-- A process that has migrated returns from `sched` with the flag of its new CPU as that CPU's scheduler
had left it, and has switched off the flag of the CPU it came from, which is waiting for a lock. -/
theorem migrates_loses_intena :
    ∃ n, ∃ t : Trace (stepBy true) (boot pair true) n, ∃ m u k, Call t 1 0 m u k ∧
      ((t.state m).cpu 1).intena = false ∧ ((t.state (u+1)).cpu 0).intena = true ∧
      ((t.state u).cpu 1).intena = true ∧ ((t.state (u+1)).cpu 1).intena = false := by
  have hrun : (run (guarded (stepBy true) (Watched 1 0)) (boot pair true) migrates).isSome = true := by
    decide +kernel
  obtain ⟨s,hs⟩ := Option.isSome_iff_exists.mp hrun
  obtain ⟨t,hlabel,-⟩ := Trace.exists_of_run hs (tick 0 0 .go)
  have htimes : ∀ j < 129, 84 < j → (migrates.getD j (tick 0 0 .go)).clock.lo = 2 := by decide +kernel
  obtain ⟨hcall,hoff,hon,hon'⟩ := Call.of_watched (m := 84) (u := 129) t (by decide) (by decide +kernel)
    (by rw [hlabel]; decide +kernel) (fun j hj hju => by rw [hlabel]; exact htimes j hju hj)
    (by rw [hlabel]; rfl)
  refine ⟨_,t.unguard,84,129,caller,hcall,hoff,?_,hon,?_⟩
  · rw [hcall.returns]
    exact hon'
  · rw [hcall.returns]
    exact hoff

def returns : List (Label pair) :=
  goes 0 0 14++[tick 0 0 .leave,tick 0 0 (.intr .timer)]++goes 0 0 22++goes 1 0 1++goes 2 0 19++goes 3 0 1

theorem returns_keeps_intena :
    ∃ n, ∃ t : Trace (stepBy true) (boot pair true) n, ∃ m u k, Call t 0 0 m u k ∧
      ((t.state u).cpu 0).intena = true ∧ ((t.state (u+1)).cpu 0).intena = false ∧
      ((t.state (u+1)).cpu 1).intena = ((t.state u).cpu 1).intena := by
  have hrun : (run (guarded (stepBy true) (Watched 0 0)) (boot pair true) returns).isSome = true := by
    decide +kernel
  obtain ⟨s,hs⟩ := Option.isSome_iff_exists.mp hrun
  obtain ⟨t,hlabel,-⟩ := Trace.exists_of_run hs (tick 0 0 .go)
  have htimes : ∀ j < 58, 38 < j → (returns.getD j (tick 0 0 .go)).clock.lo = 2 := by decide +kernel
  obtain ⟨hcall,hoff,hon,-⟩ := Call.of_watched (m := 38) (u := 58) t (by decide) (by decide +kernel)
    (by rw [hlabel]; decide +kernel) (fun j hj hju => by rw [hlabel]; exact htimes j hju hj)
    (by rw [hlabel]; rfl)
  obtain ⟨hkeep,hother⟩ := sched_keeps_intena hcall rfl
  exact ⟨_,t.unguard,38,58,caller,hcall,hon,hkeep.trans hoff,hother 1 (by decide)⟩

end Xv6.SchedReturn
