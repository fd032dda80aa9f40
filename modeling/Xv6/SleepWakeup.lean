import Xv6.Lifecycle

/-!
# No lost wakeup

`sleep(chan, lk)` takes `ptable.lock` before it gives up `lk`, and keeps it until the process is
SLEEPING and switched away from; `wakeup` scans the table under `ptable.lock`. So a CPU that holds
`lk` and scans finds every process that tested the condition before. With `ptable.lock` itself as
`lk` the lock is handed over with the CPU.

The machine here is the round-robin kernel with data that a lock guards, and a condition on both.
`made` and `woke` say of a critical section whether it has made the condition true and finished a
`wakeup`.
-/
namespace Xv6.SleepWakeup
open SchedLog KernelState KernelStep Frames Typing Handoff Effects ProcTable Lifecycle Machine
open MultiQueue

/-- The kernel, guarded data, and what the critical section under way has done. -/
structure Monitor (cfg : Config) (δ : Type*) where
  kernel : State cfg
  data : δ
  made : Bool
  woke : Bool

/-- A step of the kernel, or an assignment to the data by the code that runs on a CPU. -/
inductive MonitorLabel (cfg : Config) (δ : Type*) where
  | step (a : Label cfg)
  | write (c : cfg.CpuId) (f : δ → δ)

section
variable {cfg : Config} {δ : Type*} (lk : Lock cfg) (ch : Chan cfg) (C : State cfg → δ → Bool)

/-- The next step ends a critical section of `lk`. -/
def ends : List (Pc cfg) → Act cfg → Bool
  | .release l::_,.go | .sleep _ l::_,.go => l = lk
  | .swtch _ _ _::_,.go | .rrSwtch _::_,.go => lk = .ptable
  | _,_ => false

/-- The next step ends the scan of a `wakeup` on `ch`. -/
def scanEnds : List (Pc cfg) → Act cfg → Bool
  | .wakeup1 i (some ch')::_,.go => ch' = ch ∧ slot? cfg i = none
  | _,_ => false

def monitorStep (s : Monitor cfg δ) : MonitorLabel cfg δ → Option (Monitor cfg δ)
  | .step a =>
    (stepBy false s.kernel a).map fun t =>
      if ends lk (code s.kernel a.cpu) a.act then ⟨t,s.data,false,false⟩
      else
        ⟨t,s.data,s.made || (!C s.kernel s.data && C t s.data),
          s.woke || (s.kernel.lock lk = some a.cpu && scanEnds ch (code s.kernel a.cpu) a.act)⟩
  | .write _ f =>
    some {s with
      data := f s.data
      made := s.made || (!C s.kernel s.data && C s.kernel (f s.data))}

/-- The condition becomes true only inside a critical section of `lk`, on the CPU that holds it. -/
def Guards (s : Monitor cfg δ) : MonitorLabel cfg δ → Prop
  | .step a => ∀ t ∈ stepBy false s.kernel a, C s.kernel s.data = false → C t s.data = true →
      s.kernel.lock lk = some a.cpu ∧ ends lk (code s.kernel a.cpu) a.act = false
  | .write c f => C s.kernel s.data = false → C s.kernel (f s.data) = true → s.kernel.lock lk = some c

def sleepCall : List (Pc cfg) → Option (Chan cfg × Lock cfg)
  | .sleep ch l::_ => some (ch,l)
  | _ => none

/-- `sleep` on `ch` is only called with `lk`, and while the condition is false. -/
def Waits (s : Monitor cfg δ) (k : List (Pc cfg)) : Prop :=
  ∀ x ∈ sleepCall k, x.1 = ch → x.2 = lk ∧ C s.kernel s.data = false

/-- A critical section that made the condition true has called `wakeup` when it ends. -/
def Wakes (s : Monitor cfg δ) : Prop := s.made = true → C s.kernel s.data = true → s.woke = true

def Protocol (s : Monitor cfg δ) (b : MonitorLabel cfg δ) : Prop :=
  Guards lk C s b ∧
  match b with
  | .step a => Waits lk ch C s (code s.kernel a.cpu) ∧
      (ends lk (code s.kernel a.cpu) a.act = true → Wakes C s)
  | .write _ _ => True

instance decidableGuards (s : Monitor cfg δ) : (b : MonitorLabel cfg δ) → Decidable (Guards lk C s b)
  | .step a => inferInstanceAs (Decidable (∀ t ∈ stepBy false s.kernel a, _))
  | .write _ _ => inferInstanceAs (Decidable (_ → _))

instance decidableProtocol (s : Monitor cfg δ) :
    (b : MonitorLabel cfg δ) → Decidable (Protocol lk ch C s b)
  | .step a => inferInstanceAs (Decidable (Guards lk C s (.step a) ∧
      (∀ x ∈ sleepCall (code s.kernel a.cpu), _) ∧
      (ends lk (code s.kernel a.cpu) a.act = true → s.made = true → _ → _)))
  | .write _ _ => inferInstanceAs (Decidable (_ ∧ True))

def SleepsOn (s : State cfg) (p : cfg.Slot) : Prop :=
  (s.proc p).state = .sleeping ∧ (s.proc p).chan = some ch

def Quiet (s : State cfg) : Prop :=
  (∀ p, ¬ SleepsOn ch s p) ∧ ∀ st p l, .sleepLocked p ch l ∉ s.frames st

def topmost : Pc cfg → Bool
  | .sleepLocked _ _ _ | .wakeupSet _ _ => true
  | .wakeup1 i _ => i ≠ 0
  | _ => false

def Clear (k : List (Pc cfg)) : Prop := ∀ x ∈ k, topmost x = false

/-- Where such program points stand: first, or under the locking of `sleep`. -/
inductive Topped : List (Pc cfg) → Prop
  | clear {k} (h : Clear k) : Topped k
  | acquire (p ch l) {k} (h : Clear k) : Topped (.acquire .ptable::.release l::.sleepLocked p ch l::k)
  | spin (p ch l) {k} (h : Clear k) : Topped (.spin .ptable::.release l::.sleepLocked p ch l::k)
  | release (p ch l) {k} (h : Clear k) : Topped (.release l::.sleepLocked p ch l::k)
  | sleepLocked (p ch l) {k} (h : Clear k) : Topped (.sleepLocked p ch l::k)
  | wakeup1 (i ch) {k} (h : Clear k) : Topped (.wakeup1 i ch::k)
  | wakeupSet (j ch) {k} (h : Clear k) : Topped (.wakeupSet j ch::k)

end

section
variable {cfg : Config} {s t : State cfg} {c : cfg.CpuId} {cl : Clock} {a : Act cfg} {pc : Pc cfg}
  {k : List (Pc cfg)} {l : Lock cfg} {p : cfg.Slot} {ch : Chan cfg}

@[simp] theorem clear_cons : Clear (pc::k) ↔ topmost pc = false ∧ Clear k := by simp [Clear]

theorem fl_of_held (hC : Core false s) (hl : s.lock l = some c) : (s.cpu c).fl = false := by
  obtain ⟨H,hh,-⟩ := (hC.cpu c).typed
  have hmem := (hh.locks l).mp hl
  refine hh.off ?_
  rw [hh.ncli]
  have := List.length_pos_of_mem hmem
  omega

/-- The code of a CPU in `sleep`, before the process is SLEEPING. -/
def InSleep (p : cfg.Slot) (ch : Chan cfg) (l : Lock cfg) (k : List (Pc cfg)) : Prop :=
  ∃ k', k = .acquire .ptable::.release l::.sleepLocked p ch l::k' ∨
    k = .spin .ptable::.release l::.sleepLocked p ch l::k' ∨
    k = .release l::.sleepLocked p ch l::k' ∨ k = .sleepLocked p ch l::k'

/-- In `sleep` a CPU holds the lock of its caller or `ptable.lock`. -/
theorem InSleep.held (hC : Core false s)
    (h : InSleep p ch l (code s c)) : ∃ l', s.lock l' = some c ∧ (l' = l ∨ l' = .ptable) := by
  obtain ⟨H,hh,hw⟩ := (hC.cpu c).typed
  obtain ⟨k,hk⟩ := h
  have hin : Wf false (s.cpu c).stack H (.acquire .ptable::.release l::.sleepLocked p ch l::k) →
      s.lock l = some c := by
    intro hw
    obtain ⟨he,hmem,hw'⟩ := hw
    rw [hh.locks l]
    rcases List.mem_cons.mp hmem with rfl | hl
    · have hH : H = [.ptable] := by simpa using hw'.1
      exact absurd (by simp [hH]) he.fresh
    · exact hl
  rcases hk with hk | hk | hk | hk
  · rw [hk] at hw
    exact ⟨l,hin hw,.inl rfl⟩
  · rw [hk] at hw
    exact ⟨l,hin hw,.inl rfl⟩
  · rw [hk] at hw
    have hH : H.erase l = [.ptable] := hw.2.1
    exact ⟨.ptable,(hh.locks _).mpr (List.mem_of_mem_erase (b := l) (by rw [hH]; simp)),.inr rfl⟩
  · rw [hk] at hw
    exact ⟨.ptable,(hh.locks _).mpr (by rw [hw.1]; simp),.inr rfl⟩

theorem scan_held (hC : Core false s) {ch : Option (Chan cfg)}
    (hk : code s c = pc::k) (hpc : (∃ i, pc = .wakeup1 i ch) ∨ ∃ j, pc = .wakeupSet j ch) :
    s.lock .ptable = some c := by
  rcases hpc with ⟨i,rfl⟩ | ⟨j,rfl⟩
  · obtain ⟨H,hh,hw⟩ := (hC.cpu c).rule hk
    exact (hh.locks _).mpr hw.1
  · obtain ⟨H,hh,hw⟩ := (hC.cpu c).rule hk
    exact (hh.locks _).mpr hw.1

def begins : Pc cfg → Bool
  | .sleep _ _ | .wakeup1 _ _ | .wakeupSet _ _ => true
  | _ => false

theorem clear_step (h : Clear (code s c)) (hk : code s c = pc::k)
    (hb : begins pc = false) (hs : step false s c cl a = some t) :
    Clear (t.frames (s.cpu c).stack) := by
  intro x hx
  by_contra hne
  rcases (step_turn hs).frames.born hx with hold | ⟨-,hborn⟩ | ⟨-,rfl | rfl⟩
  · exact hne (h x hold)
  · cases x <;> simp only [topmost,not_true_eq_false,ne_eq,decide_not,Bool.not_eq_false',
      decide_eq_true_eq] at hne
    case sleepLocked =>
      obtain ⟨k',hk',-⟩ := hborn
      rw [hk] at hk'
      cases hk'
      cases hb
    case wakeup1 i ch =>
      rcases hborn with rfl | ⟨j,k',hk',-⟩ | ⟨j,k',hk',-⟩
      · simp at hne
      · rw [hk] at hk'
        cases hk'
        cases hb
      · rw [hk] at hk'
        cases hk'
        cases hb
    case wakeupSet =>
      obtain ⟨i,k',hk',-⟩ := hborn
      rw [hk] at hk'
      cases hk'
      cases hb
  · exact hne rfl
  · exact hne rfl

theorem not_intr (hC : Core false s) (hl : s.lock l = some c) (hk : code s c = pc::k) (hs : step false s c cl a = some t) :
    a = .go ∧ exec false s c cl k pc = some t ∨ choose s c cl k pc a = some t := by
  rw [KernelStep.step,hk] at hs
  dsimp only at hs
  split at hs
  · exact .inl ⟨rfl,hs⟩
  · unfold interrupt at hs
    rw [fl_of_held hC hl] at hs
    cases hs
  · exact .inr hs

/-- One step through `sleep`, `wakeup1` and the locking between them. -/
theorem topped_step (hC : Core false s) (h : Topped (code s c))
    (hs : step false s c cl a = some t) : Topped (t.frames (s.cpu c).stack) := by
  obtain ⟨pc,k,hk⟩ : ∃ pc k, code s c = pc::k := by
    cases hk : code s c with
    | nil => simp [KernelStep.step,hk] at hs
    | cons pc k => exact ⟨pc,k,rfl⟩
  have hheld : ∀ p ch l, InSleep p ch l (code s c) →
      a = .go ∧ exec false s c cl k pc = some t ∨ choose s c cl k pc a = some t := by
    intro p ch l hin
    obtain ⟨l',hl',-⟩ := hin.held hC
    exact not_intr hC hl' hk hs
  by_cases hb : begins pc = true
  · -- a call of `sleep` or a pass of a scan
    have hclear : Clear k := by
      rw [hk] at h
      cases h with
      | clear h => exact (clear_cons.mp h).2
      | wakeup1 i ch h | wakeupSet j ch h => exact h
      | _ => cases hb
    cases pc <;> simp only [begins,Bool.false_eq_true] at hb
    case sleep ch l =>
      rcases step_kinds hk hs with ⟨-,he⟩ | ⟨irq,usr,-,rfl⟩ | he
      · simp only [exec] at he
        split at he
        · cases he
          refine .clear ?_
          simp [KernelStep.panic,goto,setCpu,hk,topmost,hclear]
        · split_ifs at he
          · cases he
            simpa [goto] using Topped.sleepLocked _ ch l hclear
          · cases he
            simpa [goto] using Topped.acquire _ ch l hclear
      · refine .clear ?_
        simp [goto,setCpu,hk,topmost,hclear]
      · cases he
    case wakeup1 i ch =>
      rcases not_intr hC (scan_held hC hk (.inl ⟨i,rfl⟩)) hk hs with ⟨-,he⟩ | he
      · simp only [exec] at he
        split at he
        · cases he
          exact .clear (by simpa [goto] using hclear)
        · cases he
          simp only [wakeupSlot,Bool.false_eq_true,if_false]
          split_ifs
          · simpa [goto,logProc] using Topped.wakeupSet _ ch hclear
          · simpa [goto] using Topped.wakeup1 _ ch hclear
      · cases he
    case wakeupSet j ch =>
      rcases not_intr hC (scan_held hC hk (.inr ⟨j,rfl⟩)) hk hs with ⟨-,he⟩ | he
      · cases he
        simpa [goto,setState,setProc] using Topped.wakeup1 _ ch hclear
      · cases he
  · simp only [Bool.not_eq_true] at hb
    rw [hk] at h
    cases h with
    | clear h => exact .clear (clear_step (hk ▸ h) hk hb hs)
    | acquire p ch l h =>
      rcases hheld p ch l ⟨_,.inl hk⟩ with ⟨-,he⟩ | he
      · obtain ⟨H,hh,hw⟩ := (hC.cpu c).rule hk
        simp only [exec,if_neg fun hl => hw.1.fresh ((hh.locks .ptable).mp hl)] at he
        cases he
        simpa [goto,setCpu,pushcli] using Topped.spin p ch l h
      · cases he
    | spin p ch l h =>
      rcases hheld p ch l ⟨_,.inr (.inl hk)⟩ with ⟨-,he⟩ | he
      · simp only [exec] at he
        split_ifs at he
        cases he
        simpa [goto,setLock] using Topped.release p ch l h
      · cases he
    | release p ch l h =>
      rcases hheld p ch l ⟨_,.inr (.inr (.inl hk))⟩ with ⟨-,he⟩ | he
      · obtain ⟨H,hh,hw⟩ := (hC.cpu c).rule hk
        rw [hh.release_eq hw.1 (by rw [hk]; rfl)] at he
        cases he
        simpa [goto,setCpu,setLock,unnest] using Topped.sleepLocked p ch l h
      · cases he
    | sleepLocked p ch l h =>
      rcases hheld p ch l ⟨_,.inr (.inr (.inr hk))⟩ with ⟨-,he⟩ | he
      · cases he
        refine .clear ?_
        simpa [giveUp,goto,setState,setProc,logProc,topmost] using h
      · cases he
    | wakeup1 | wakeupSet => cases hb

theorem stack_step (hC : Core false s) (hs : step false s c cl a = some t) :
    (∀ d, d ≠ c → (t.cpu d).stack = (s.cpu d).stack) ∧
    ((t.cpu c).stack = (s.cpu c).stack ∨ ∃ pc k, code s c = pc::k ∧ switches pc = true) := by
  obtain ⟨x,he⟩ := step_effect (hC.cpu c).typed (Side.of_core hC (.of_rr hC c)) hs
  cases he with
  | quiet h => exact ⟨fun d _ => (h.cpu d).stack,.inl (h.cpu c).stack⟩
  | swtch p cur b k hc =>
    refine ⟨fun d hd => ?_,.inr ⟨_,k,hc,rfl⟩⟩
    simp [switchFrom,setCpu,setProc,goto,hd]
  | rrSwtch p k hc | mqSwtch r p k hc =>
    refine ⟨fun d hd => ?_,.inr ⟨_,k,hc,rfl⟩⟩
    simp [switchTo,setCpu,goto,hd]
  | _ =>
    refine ⟨fun d hd => ?_,.inl ?_⟩
    · simp [goto,setProc,setState,allocSlot,logProc,buildStack,copyProc,logClock,setRunqueue,giveUp,
        setCpu,freeSlot,takeProc,hd]
    · simp [goto,setProc,setState,allocSlot,logProc,buildStack,copyProc,logClock,setRunqueue,giveUp,
        setCpu,freeSlot,takeProc]

/-- The stacks that CPUs are on, and the others. -/
structure Placed (s : State cfg) : Prop where
  on : ∀ c, Topped (code s c)
  off : ∀ st, (∀ c, (s.cpu c).stack ≠ st) → Clear (s.frames st)

theorem clear_built : Clear [Pc.forkret,(.user : Pc cfg)] := by
  simp [Clear,topmost]

theorem Placed.step (hC : Core false s) (hC' : Core false t) (h : Placed s)
    (hs : step false s c cl a = some t) : Placed t := by
  have hf := (step_turn hs).frames
  obtain ⟨hother,hown⟩ := stack_step hC hs
  have hoff : ∀ st, (∀ d, (s.cpu d).stack ≠ st) → Clear (t.frames st) := by
    intro st hst
    rcases hf.other (hst c).symm with he | ⟨-,he⟩
    · rw [he]
      exact h.off st hst
    · rw [he]
      exact clear_built
  constructor
  · intro d
    by_cases hd : d = c
    · subst hd
      rcases hown with hst | -
      · rw [code,hst]
        exact topped_step hC (h.on d) hs
      · by_cases hst : (t.cpu d).stack = (s.cpu d).stack
        · rw [code,hst]
          exact topped_step hC (h.on d) hs
        · -- the stack switched to was on no CPU
          refine .clear (hoff _ fun e he => ?_)
          by_cases hed : e = d
          · subst hed
            exact hst he.symm
          · exact hC'.stack_ne hed (by rw [hother e hed,he])
    · have hne : (t.cpu d).stack ≠ (s.cpu c).stack := by
        rw [hother d hd]
        exact hC.stack_ne hd
      rcases hf.other hne with he | ⟨-,he⟩
      · rw [code,he,hother d hd]
        exact h.on d
      · rw [code,he]
        exact .clear clear_built
  · intro st hst
    by_cases he : st = (s.cpu c).stack
    · subst he
      rcases hown with hsame | ⟨pc,k,hk,hsw⟩
      · exact absurd hsame (hst c)
      · have hclear : Clear (code s c) := by
          have hon := h.on c
          rw [hk] at hon ⊢
          cases hon with
          | clear h => exact h
          | _ => cases hsw
        refine clear_step hclear hk ?_ hs
        cases pc <;> first | rfl | cases hsw
    · refine hoff st fun d hd => ?_
      by_cases hdc : d = c
      · subst hdc
        exact he hd.symm
      · exact hst d (by rw [hother d hdc,hd])

theorem Placed.top (h : Placed s) {st : Stack cfg} {x : Pc cfg} (hx : x ∈ s.frames st)
    (ht : topmost x = true) : ∃ d, (s.cpu d).stack = st ∧
      ((∃ p ch l, x = .sleepLocked p ch l ∧ InSleep p ch l (code s d)) ∨
        (∃ k, code s d = x::k) ∧ ∀ p ch l, x ≠ .sleepLocked p ch l) := by
  have hon : ∃ d, (s.cpu d).stack = st := by
    by_contra hno
    have := h.off st (fun d hd => hno ⟨d,hd⟩) x hx
    rw [ht] at this
    cases this
  obtain ⟨d,hd⟩ := hon
  refine ⟨d,hd,?_⟩
  subst hd
  have hx : x ∈ code s d := hx
  have hclear : ∀ k, Clear k → x ∉ k := by
    intro k hk hm
    rw [hk x hm] at ht
    cases ht
  have htop := h.on d
  generalize code s d = k at hx htop
  cases htop with
  | clear h => exact absurd hx (hclear _ h)
  | acquire p ch l h =>
    simp only [List.mem_cons,hclear _ h,or_false] at hx
    rcases hx with rfl | rfl | rfl
    · cases ht
    · cases ht
    · exact .inl ⟨p,ch,l,rfl,_,.inl rfl⟩
  | spin p ch l h =>
    simp only [List.mem_cons,hclear _ h,or_false] at hx
    rcases hx with rfl | rfl | rfl
    · cases ht
    · cases ht
    · exact .inl ⟨p,ch,l,rfl,_,.inr (.inl rfl)⟩
  | release p ch l h =>
    simp only [List.mem_cons,hclear _ h,or_false] at hx
    rcases hx with rfl | rfl
    · cases ht
    · exact .inl ⟨p,ch,l,rfl,_,.inr (.inr (.inl rfl))⟩
  | sleepLocked p ch l h =>
    simp only [List.mem_cons,hclear _ h,or_false] at hx
    subst hx
    exact .inl ⟨p,ch,l,rfl,_,.inr (.inr (.inr rfl))⟩
  | wakeup1 i ch h | wakeupSet j ch h =>
    simp only [List.mem_cons,hclear _ h,or_false] at hx
    subst hx
    exact .inr ⟨⟨_,rfl⟩,by simp⟩

theorem Placed.boot (cfg : Config) : Placed (boot cfg false) := by
  have hclear : ∀ st, Clear ((KernelStep.boot cfg false).frames st) := by
    intro st x hx
    rcases boot_frames cfg false st x hx with rfl | rfl | rfl | ⟨r,rfl⟩ <;> rfl
  exact ⟨fun c => .clear (hclear _),fun st _ => hclear st⟩

theorem sleepsOn_new (ht : TableStep s c a t)
    (h : SleepsOn ch t p) : SleepsOn ch s p ∨ ∃ l k, code s c = .sleepLocked p ch l::k := by
  obtain ⟨hst,hch⟩ := h
  rcases ht.proc_cases p with hp | ⟨-,-,-,-,-,-,hp⟩ | ⟨pc,k,f,hc,hw,hp⟩ <;> rw [hp] at hst hch
  · exact .inl ⟨hst,hch⟩
  · cases hst
  · cases hw
    case sleep ch' l =>
      cases hch
      exact .inr ⟨l,k,hc⟩
    case awake => cases hch
    case kill =>
      dsimp only at hst
      split_ifs at hst
      exact .inl ⟨hst,hch⟩
    case execName | fault | build | copy | sched | swtch | reparent => exact .inl ⟨hst,hch⟩
    all_goals cases hst

/-- The slots that a scan of `wakeup1` has passed. -/
structure Scanned (ch : Chan cfg) (s : State cfg) : Prop where
  wakeup1 : ∀ st i, .wakeup1 i (some ch) ∈ s.frames st → ∀ j : cfg.Slot, j.val < i → ¬ SleepsOn ch s j
  wakeupSet : ∀ st q, .wakeupSet q (some ch) ∈ s.frames st → ∀ j : cfg.Slot, j < q → ¬ SleepsOn ch s j

theorem Placed.scan_alone (hC : Core false s) (h : Placed s) {st : Stack cfg} {x : Pc cfg}
    {ch : Option (Chan cfg)} (hx : x ∈ s.frames st) (ht : topmost x = true)
    (hpc : (∃ i, x = .wakeup1 i ch) ∨ ∃ j, x = .wakeupSet j ch) {ch' : Chan cfg} : code s c ≠ .sleepLocked p ch' l::k := by
  intro hk
  obtain ⟨d,-,⟨p',ch'',l',rfl,-⟩ | ⟨⟨k',hk'⟩,-⟩⟩ := h.top hx ht
  · simp at hpc
  · obtain ⟨H,hh,hw⟩ := (hC.cpu c).rule hk
    have hc : s.lock .ptable = some c := (hh.locks _).mpr (by rw [hw.1]; simp)
    have hd := scan_held hC hk' hpc
    rw [hc] at hd
    cases hd
    rw [hk] at hk'
    cases hk'
    simp at hpc

theorem val_of_slot {i : ℕ} {q : cfg.Slot} (h : slot? cfg i = some q) : q.val = i := by
  unfold slot? at h
  split_ifs at h
  cases h
  rfl

theorem Scanned.step (hC : Core false s) (hP : Placed s) (h : Scanned ch s)
    (hs : step false s c cl a = some t) : Scanned ch t := by
  have ht := step_turn hs
  constructor
  · intro st i hm j hj hsl
    rcases ht.frames.born hm with hold | ⟨hst,rfl | ⟨i',k,hk,q,hq,rfl,hno⟩ | ⟨q,k,hk,rfl⟩⟩ | ⟨-,hx | hx⟩
    · rcases sleepsOn_new ht.table hsl with hsl | ⟨l,k,hk⟩
      · exact h.wakeup1 st i hold j hj hsl
      · exact hP.scan_alone hC hold (by simp [topmost]; omega) (.inl ⟨i,rfl⟩) hk
    · omega
    · have hval := val_of_slot hq
      rcases sleepsOn_new ht.table hsl with hsl | ⟨l,k',hk'⟩
      · by_cases hjq : j = q
        · subst hjq
          exact hno hsl
        · refine h.wakeup1 _ i' (mem_code hk) j ?_ hsl
          have : j.val ≠ q.val := fun he => hjq (Fin.ext he)
          omega
      · rw [hk] at hk'
        cases hk'
    · rcases not_intr hC (scan_held hC hk (.inr ⟨q,rfl⟩)) hk hs with ⟨-,he⟩ | he
      · by_cases hjq : j = q
        · subst hjq
          cases he
          simp [SleepsOn,goto,setState,setProc] at hsl
        · rcases sleepsOn_new ht.table hsl with hsl | ⟨l,k',hk'⟩
          · refine h.wakeupSet _ q (mem_code hk) j ?_ hsl
            have : j.val ≠ q.val := fun he => hjq (Fin.ext he)
            exact Fin.lt_def.mpr (by omega)
          · rw [hk] at hk'
            cases hk'
      · cases he
    · cases hx
    · cases hx
  · intro st q hm j hj hsl
    rcases ht.frames.born hm with hold | ⟨hst,i,k,hk,hi⟩ | ⟨-,hx | hx⟩
    · rcases sleepsOn_new ht.table hsl with hsl | ⟨l,k,hk⟩
      · exact h.wakeupSet st q hold j hj hsl
      · exact hP.scan_alone hC hold rfl (.inr ⟨q,rfl⟩) hk
    · rcases sleepsOn_new ht.table hsl with hsl | ⟨l,k',hk'⟩
      · refine h.wakeup1 _ i (mem_code hk) j ?_ hsl
        rw [← val_of_slot hi]
        exact hj
      · rw [hk] at hk'
        cases hk'
    · cases hx
    · cases hx

theorem Scanned.boot (cfg : Config) (ch : Chan cfg) : Scanned ch (boot cfg false) := by
  have hf := boot_frames cfg false
  constructor
  · intro st i hm
    simpa using hf st _ hm
  · intro st q hm
    simpa using hf st _ hm

/-- Only a call of `sleep` on the channel ends the quiet. -/
theorem Quiet.step (h : Quiet ch s) (hs : step false s c cl a = some t) :
    Quiet ch t ∨ ∃ l k, code s c = .sleep ch l::k := by
  have ht := step_turn hs
  by_cases hk : ∃ l k, code s c = .sleep ch l::k
  · exact .inr hk
  · refine .inl ⟨fun p hp => ?_,fun st p l hm => ?_⟩
    · rcases sleepsOn_new ht.table hp with hp | ⟨l,k,hk⟩
      · exact h.1 p hp
      · exact h.2 _ p l (mem_code hk)
    · rcases ht.frames.born hm with hm | ⟨-,k,hk',-⟩ | ⟨-,hx | hx⟩
      · exact h.2 st p l hm
      · exact hk ⟨l,k,hk'⟩
      · cases hx
      · cases hx

theorem quiet_of_scanned {lk : Lock cfg} (hC : Core false s) (hP : Placed s)
    (hS : Scanned ch s) (honly : ∀ st p l, .sleepLocked p ch l ∈ s.frames st → l = lk)
    (hlk : s.lock lk = some c) (hsc : scanEnds ch (code s c) a = true) : Quiet ch s := by
  obtain ⟨i,k,hk,hi⟩ : ∃ i k, code s c = .wakeup1 i (some ch)::k ∧ slot? cfg i = none := by
    unfold scanEnds at hsc
    split at hsc
    · rename_i i ch' k hk
      obtain ⟨rfl,hi⟩ := of_decide_eq_true hsc
      exact ⟨i,k,hk,hi⟩
    · cases hsc
  constructor
  · intro p
    refine hS.wakeup1 _ i (mem_code hk) p ?_
    unfold slot? at hi
    split_ifs at hi
    have := p.isLt
    omega
  · intro st p l hm
    obtain ⟨d,-,⟨p',ch',l',hx,hin⟩ | ⟨-,hne⟩⟩ := hP.top hm rfl
    · cases hx
      cases honly st p l hm
      -- the sleeper would hold one of the two locks that this CPU holds
      obtain ⟨l',hl',rfl | rfl⟩ := hin.held hC
      · rw [hlk] at hl'
        cases hl'
        obtain ⟨k',hk' | hk' | hk' | hk'⟩ := hin <;> rw [hk] at hk' <;> cases hk'
      · rw [scan_held hC hk (.inl ⟨i,rfl⟩)] at hl'
        cases hl'
        obtain ⟨k',hk' | hk' | hk' | hk'⟩ := hin <;> rw [hk] at hk' <;> cases hk'
    · exact hne p ch l rfl

end

section
variable {cfg : Config} {δ : Type*} {lk : Lock cfg} {ch : Chan cfg} {C : State cfg → δ → Bool}
  {s s' : Monitor cfg δ} {t : State cfg} {a : Label cfg}

structure NoneLost (lk : Lock cfg) (ch : Chan cfg) (C : State cfg → δ → Bool)
    (s : Monitor cfg δ) : Prop where
  core : Core false s.kernel
  placed : Placed s.kernel
  scanned : Scanned ch s.kernel
  only : ∀ st p l, .sleepLocked p ch l ∈ s.kernel.frames st → l = lk
  waits : C s.kernel s.data = true → s.made = true ∨ Quiet ch s.kernel
  woken : s.woke = true → Quiet ch s.kernel
  free : s.kernel.lock lk = none → s.made = false ∧ s.woke = false

theorem ends_of_sleep {l : Lock cfg} {k : List (Pc cfg)} {a : Act cfg} (hl : l = lk)
    (ha : a = .go) : ends lk (.sleep ch l::k) a = true := by
  subst hl ha
  simp [ends]

theorem lock_kept (hs : stepBy false s.kernel a = some t)
    (he : ends lk (code s.kernel a.cpu) a.act = false) (hl : t.lock lk = none) :
    s.kernel.lock lk = none := by
  cases (step_turn hs).locks with
  | same h => rwa [h] at hl
  | acquire l k hc hf h =>
    by_cases hlk : lk = l
    · rw [hlk,h,Function.update_self] at hl
      cases hl
    · rwa [h,Function.update_of_ne hlk] at hl
  | release l k hc hh h =>
    by_cases hlk : lk = l
    · rcases step_kinds hc hs with ⟨ha,-⟩ | ⟨irq,usr,-,rfl⟩ | hch
      · simp [hc,ha,ends,hlk] at he
      · exact hl
      · cases hch
    · rwa [h,Function.update_of_ne hlk] at hl

theorem NoneLost.inside (h : NoneLost lk ch C s)
    (hp : Protocol lk ch C s (.step a)) (hs : stepBy false s.kernel a = some t)
    (he : ends lk (code s.kernel a.cpu) a.act = false) :
    (C t s.data = true → (s.made || (!C s.kernel s.data && C t s.data)) = true ∨ Quiet ch t) ∧
    ((s.woke || (s.kernel.lock lk = some a.cpu && scanEnds ch (code s.kernel a.cpu) a.act)) = true →
      Quiet ch t) ∧
    (t.lock lk = none → (s.made || (!C s.kernel s.data && C t s.data)) = false ∧
      (s.woke || (s.kernel.lock lk = some a.cpu &&
        scanEnds ch (code s.kernel a.cpu) a.act)) = false) := by
  obtain ⟨hg,hw,-⟩ := hp
  have hstay : Quiet ch s.kernel → Quiet ch t := by
    intro hq
    rcases hq.step hs with hq | ⟨l,k,hk⟩
    · exact hq
    · -- a call of `sleep` with this lock would end the section
      rw [hk] at hw he
      rcases step_kinds hk hs with ⟨ha,-⟩ | ⟨irq,usr,-,rfl⟩ | hch
      · rw [ends_of_sleep (hw _ rfl rfl).1 ha] at he
        cases he
      · refine ⟨hq.1,fun st p l' hm => ?_⟩
        by_cases hst : st = (s.kernel.cpu a.cpu).stack
        · subst hst
          have hm : .sleepLocked p ch l' ∈ code s.kernel a.cpu := by simpa [goto,setCpu] using hm
          exact hq.2 _ p l' hm
        · exact hq.2 st p l' (by simpa [goto,setCpu,hst] using hm)
      · cases hch
  refine ⟨fun hc => ?_,fun hwoke => ?_,fun hl => ?_⟩
  · cases hb : C s.kernel s.data with
    | false => simp [hc]
    | true =>
      rcases h.waits hb with hm | hq
      · simp [hm]
      · exact .inr (hstay hq)
  · simp only [Bool.or_eq_true,Bool.and_eq_true,decide_eq_true_eq] at hwoke
    rcases hwoke with hwoke | ⟨hlk,hsc⟩
    · exact hstay (h.woken hwoke)
    · exact hstay (quiet_of_scanned h.core h.placed h.scanned h.only hlk hsc)
  · have hfree := lock_kept hs he hl
    obtain ⟨hm,hwk⟩ := h.free hfree
    refine ⟨?_,by simp [hwk,hfree]⟩
    rw [hm,Bool.false_or]
    cases hb : C s.kernel s.data with
    | true => rfl
    | false =>
      cases hc : C t s.data with
      | false => rfl
      | true =>
        have := (hg t hs hb hc).1
        rw [hfree] at this
        cases this

theorem NoneLost.outside (h : NoneLost lk ch C s)
    (hp : Protocol lk ch C s (.step a)) (hs : stepBy false s.kernel a = some t)
    (he : ends lk (code s.kernel a.cpu) a.act = true) (hc : C t s.data = true) : Quiet ch t := by
  obtain ⟨hg,hw,hwakes⟩ := hp
  have hb : C s.kernel s.data = true := by
    by_contra hb
    have := (hg t hs (by simpa using hb) hc).2
    rw [he] at this
    cases this
  have hq : Quiet ch s.kernel := by
    rcases h.waits hb with hm | hq
    · exact h.woken (hwakes he hm hb)
    · exact hq
  rcases hq.step hs with hq | ⟨l,k,hk⟩
  · exact hq
  · rw [hk] at hw
    have := (hw _ rfl rfl).2
    rw [hb] at this
    cases this

theorem NoneLost.step {b : MonitorLabel cfg δ} (h : NoneLost lk ch C s)
    (hp : Protocol lk ch C s b) (hs : monitorStep lk ch C s b = some s') : NoneLost lk ch C s' := by
  cases b with
  | step a =>
    obtain ⟨t,ht,rfl⟩ := Option.map_eq_some_iff.mp hs
    have hC : Core false t := h.core.step (.of_rr h.core a.cpu) ht
    have honly : ∀ st p l, .sleepLocked p ch l ∈ t.frames st → l = lk := by
      intro st p l hm
      rcases (step_turn ht).frames.born hm with hold | ⟨-,k,hk,-⟩ | ⟨-,hx | hx⟩
      · exact h.only st p l hold
      · have hw := hp.2.1
        rw [hk] at hw
        exact (hw _ rfl rfl).1
      · cases hx
      · cases hx
    have hP := h.placed.step h.core hC ht
    have hS := h.scanned.step h.core h.placed ht
    split_ifs with he
    · exact ⟨hC,hP,hS,honly,fun hc => .inr (h.outside hp ht he hc),
        (fun hw => by cases hw),fun _ => ⟨rfl,rfl⟩⟩
    · simp only [Bool.not_eq_true] at he
      obtain ⟨hwaits,hwoken,hfree⟩ := h.inside hp ht he
      exact ⟨hC,hP,hS,honly,hwaits,hwoken,hfree⟩
  | write c f =>
    cases hs
    refine ⟨h.core,h.placed,h.scanned,h.only,fun hc => ?_,h.woken,fun hl => ?_⟩
    · dsimp only at hc ⊢
      cases hb : C s.kernel s.data with
      | false => simp [hc]
      | true =>
        rcases h.waits hb with hm | hq
        · simp [hm]
        · exact .inr hq
    · obtain ⟨hm,hwk⟩ := h.free hl
      refine ⟨?_,hwk⟩
      dsimp only
      rw [hm,Bool.false_or]
      cases hb : C s.kernel s.data with
      | true => rfl
      | false =>
        cases hc : C s.kernel (f s.data) with
        | false => rfl
        | true =>
          have := hp.1 hb hc
          rw [hl] at this
          cases this

def start (cfg : Config) (d : δ) : Monitor cfg δ := ⟨boot cfg false,d,false,false⟩

theorem NoneLost.start (d : δ) : NoneLost lk ch C (start cfg d) := by
  have hq : Quiet ch (SleepWakeup.start cfg d).kernel := by
    constructor
    · rintro p ⟨-,hch⟩
      have hch : ((boot cfg false).proc p).chan = some ch := hch
      rw [(boot_proc cfg false p).2.1] at hch
      cases hch
    · intro st p l hm
      simpa using boot_frames cfg false st _ hm
  exact ⟨.boot cfg false,.boot cfg,.boot cfg ch,fun st p l hm => absurd hm (hq.2 st p l),
    fun _ => .inr hq,fun _ => hq,fun _ => ⟨rfl,rfl⟩⟩

/-- Whenever the lock is free and the condition holds, nobody sleeps on the channel. -/
theorem no_lost_wakeup {d : δ}
    (h : Reach (monitorStep lk ch C) (Protocol lk ch C) (SleepWakeup.start cfg d) s)
    (hlk : s.kernel.lock lk = none) (hc : C s.kernel s.data = true) (p : cfg.Slot) :
    ¬ ((s.kernel.proc p).state = .sleeping ∧ (s.kernel.proc p).chan = some ch) := by
  have hN := h.invariant (I := NoneLost lk ch C) (.start d) fun _ _ _ => NoneLost.step
  rcases hN.waits hc with hm | hq
  · rw [(hN.free hlk).1] at hm
    cases hm
  · exact hq.1 p

end

section Runs
open RoundRobin

def kernelRun (as : List (Label small)) : List (MonitorLabel small Bool) := as.map .step

def flagWait : List (MonitorLabel small Bool) :=
  kernelRun (firstDispatch++sleeps 0++gos 11 0)

/-- An interrupt handler on CPU 1 sets the flag and calls `wakeup`. -/
def flagSet : List (MonitorLabel small Bool) :=
  kernelRun (go 1::on 1 (.intr (.dev 5))::gos 3 1)++.write 1 (fun _ => true)::
    kernelRun (on 1 (.wake (.addr 9))::gos 8 1++on 1 .leave::gos 1 1)

/-- The process sleeps while the flag is clear, and when the handler has set it and released the
lock nobody does. -/
theorem flagSet_wakes : (∃ s, run (guarded (monitorStep (.other 5) (.addr 9) fun _ d => d)
        (Protocol (.other 5) (.addr 9) fun _ d => d)) (start small false) flagWait = some s ∧
      (s.kernel.proc 0).state = .sleeping ∧ (s.kernel.proc 0).chan = some (.addr 9)) ∧
    ∃ s, run (guarded (monitorStep (.other 5) (.addr 9) fun _ d => d)
        (Protocol (.other 5) (.addr 9) fun _ d => d)) (start small false) (flagWait++flagSet) =
        some s ∧ s.kernel.lock (.other 5) = none ∧ s.data = true ∧
      ∀ p, ¬ ((s.kernel.proc p).state = .sleeping ∧ (s.kernel.proc p).chan = some (.addr 9)) := by
  have h₁ : (run (guarded (monitorStep (.other 5) (.addr 9) fun _ d => d)
      (Protocol (.other 5) (.addr 9) fun _ d => d)) (start small false) flagWait).any (fun s =>
      (s.kernel.proc 0).state = .sleeping ∧ (s.kernel.proc 0).chan = some (.addr 9)) = true := by
    decide +kernel
  have h₂ : (run (guarded (monitorStep (.other 5) (.addr 9) fun _ d => d)
      (Protocol (.other 5) (.addr 9) fun _ d => d)) (start small false) (flagWait++flagSet)).any
      (fun s => s.kernel.lock (.other 5) = none ∧ s.data = true) = true := by decide +kernel
  obtain ⟨s,hs,hp⟩ := (Option.any_eq_true _ _).mp h₁
  obtain ⟨t,ht,hq⟩ := (Option.any_eq_true _ _).mp h₂
  obtain ⟨hl,hd⟩ := of_decide_eq_true hq
  exact ⟨⟨s,hs,of_decide_eq_true hp⟩,t,ht,hl,hd,no_lost_wakeup (Reach.refl.of_run ht) hl hd⟩

end Runs
end Xv6.SleepWakeup
