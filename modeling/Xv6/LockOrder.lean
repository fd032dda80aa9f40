import Xv6.MultiQueue
import Xv6.WaitFor

/-!
# Waiting for scheduling locks

`fork`, `yield` and `wakeup1` acquire a runqueue lock with `ptable.lock` held; `dequeue` acquires
`ptable.lock` with a runqueue lock held. Two CPUs that do one each can wait for each other, as a run
shows. If whenever one CPU waits in the one order none begins to wait in the other, there is no
cycle of waiting CPUs of any length.

What is left then are cycles of thieves in `work_steal`. A thief has found its own runqueue empty
and its target not, so a target that is itself a thief became one later than the CPU that chose it.
-/
namespace Xv6.LockOrder
open SchedLog KernelState KernelStep Tally Frames Typing Effects Handoff Windows Runqueue MultiQueue
open Machine WaitFor

section
variable {cfg : Config}

def SchedLock : Lock cfg → Prop
  | .ptable | .rq _ => True
  | .other _ => False

/-- CPU `c` spins in `acquire` on a scheduling lock that `d` holds. -/
def Waits (s : State cfg) (c d : cfg.CpuId) : Prop :=
  ∃ l, SchedLock l ∧ waitsFor (code s c) = some l ∧ s.lock l = some d

def HoldsRq (s : State cfg) (c : cfg.CpuId) : Prop := ∃ r, s.lock (.rq r) = some c

/-- Waiting for `ptable.lock` with a runqueue lock held. -/
def Inward (s : State cfg) (c : cfg.CpuId) : Prop :=
  waitsFor (code s c) = some .ptable ∧ HoldsRq s c

/-- Waiting for a runqueue lock with `ptable.lock` held. -/
def Outward (s : State cfg) (c : cfg.CpuId) : Prop :=
  s.lock .ptable = some c ∧ ∃ r, waitsFor (code s c) = some (.rq r)

/-- An `acquire` in one order is not begun while a CPU waits in the other. -/
def UncrossedAt (s : State cfg) (c : cfg.CpuId) : List (Pc cfg) → Prop
  | .acquire .ptable::_ => HoldsRq s c → ∀ d, ¬ Outward s d
  | .acquire (.rq _)::_ => s.lock .ptable = some c → ∀ d, ¬ Inward s d
  | _ => True

def Uncrossed (s : State cfg) (a : Label cfg) : Prop := UncrossedAt s a.cpu (code s a.cpu)

instance (s : State cfg) (c : cfg.CpuId) : Decidable (HoldsRq s c) :=
  inferInstanceAs (Decidable (∃ _, _))

instance (s : State cfg) (c : cfg.CpuId) : Decidable (Inward s c) :=
  inferInstanceAs (Decidable (_ ∧ _))

instance (s : State cfg) (c : cfg.CpuId) : Decidable (Outward s c) :=
  inferInstanceAs (Decidable (_ ∧ _))

instance decidableUncrossedAt (s : State cfg) (c : cfg.CpuId) :
    (k : List (Pc cfg)) → Decidable (UncrossedAt s c k)
  | [] => isTrue trivial
  | pc::k => by
      induction pc using Pc.casesOn
      case acquire l =>
        cases l with
        | ptable | rq =>
          change Decidable (_ → _)
          infer_instance
        | other => exact isTrue trivial
      all_goals exact isTrue trivial

instance (s : State cfg) (a : Label cfg) : Decidable (Uncrossed s a) := decidableUncrossedAt s _ _

def Busy (k : List (Pc cfg)) : Prop :=
  (∃ p, weight (enqTok p) k ≠ 0) ∨ ∃ r, weight (decTok r) k ≠ 0

/-- A CPU in `work_steal`, before it has the lock of its target. -/
def Steals (s : State cfg) (c : cfg.CpuId) : Prop := weight (stealTok c) (code s c) ≠ 0

/-- What is known about the CPUs in `work_steal`. The rank is the order in which they began. -/
structure Thieves (s : State cfg) : Prop where
  own : ∀ c r, weight (stealTok r) (code s c) ≠ 0 → r = c
  empty : ∀ c, Steals s c → (s.runqueue c).size = 0
  free : ∀ c, Busy (code s c) → ¬ Steals s c
  ranked : ∃ rank : cfg.CpuId → ℕ, ∀ c t, weight (aimTok t) (code s c) ≠ 0 → Steals s t → rank c < rank t

/-- What a step of `c` does to its own `work_steal` and to the sizes of the runqueues. -/
inductive StealChange (s s' : State cfg) (c : cfg.CpuId) : Prop
  | less (hsize : ∀ r, (s'.runqueue r).size = (s.runqueue r).size)
      (hsteal : ∀ r, weight (stealTok r) (code s' c) ≤ weight (stealTok r) (code s c))
      (haim : ∀ t, weight (aimTok t) (code s' c) ≤ weight (aimTok t) (code s c))
      (hbusy : Busy (code s' c) → Busy (code s c) ∨ weight (stealTok c) (code s' c) = 0)
  | start (hsize : s'.runqueue = s.runqueue) (hz : (s.runqueue c).size = 0)
      (hk : code s' c = [.stealScan c 0 0 none])
  | aim (t : cfg.CpuId) (hsize : s'.runqueue = s.runqueue) (ht : 0 < (s.runqueue t).size)
      (hsteal : ∀ r, weight (stealTok r) (code s' c) = weight (stealTok r) (code s c))
      (haim : ∀ u, weight (aimTok u) (code s' c) ≠ 0 → u = t) (hbusy : ¬ Busy (code s' c))
  | resize (r : cfg.CpuId) (hl : s.lock (.rq r) = some c) (hb : Busy (code s c))
      (hsize : ∀ t, t ≠ r → (s'.runqueue t).size = (s.runqueue t).size)
      (hsteal : ∀ t, weight (stealTok t) (code s' c) = weight (stealTok t) (code s c))
      (haim : ∀ t, weight (aimTok t) (code s' c) = weight (aimTok t) (code s c))

def works : Pc cfg → Bool
  | .enqueue _ _ | .forkSeek _ _ _ _ | .sizeDec _ => true
  | _ => false

end

section
variable {cfg : Config} {s s' s₁ : State cfg} {c d : cfg.CpuId} {cl : Clock} {a : Act cfg}
  {k : List (Pc cfg)} {x : Option cfg.Slot}

theorem stealTok_onSched (r : cfg.CpuId) (pc : Pc cfg) (h : onSched pc = false) : stealTok r pc = 0 := by
  cases pc <;> first | rfl | cases h

theorem aimTok_onSched (r : cfg.CpuId) (pc : Pc cfg) (h : onSched pc = false) : aimTok r pc = 0 := by
  cases pc <;> first | rfl | cases h

theorem enqTok_works (p : cfg.Slot) (pc : Pc cfg) (h : works pc = false) : enqTok p pc = 0 := by
  cases pc <;> first | rfl | cases h

theorem decTok_works (r : cfg.CpuId) (pc : Pc cfg) (h : works pc = false) : decTok r pc = 0 := by
  cases pc <;> first | rfl | cases h

theorem Busy.of_append {xs : List (Pc cfg)} (hx : ∀ pc ∈ xs, works pc = false)
    (h : Busy (xs++k)) : Busy k := by
  rcases h with ⟨p,h⟩ | ⟨r,h⟩
  · rw [weight_append_zero fun pc hm => enqTok_works p pc (hx pc hm)] at h
    exact .inl ⟨p,h⟩
  · rw [weight_append_zero fun pc hm => decTok_works r pc (hx pc hm)] at h
    exact .inr ⟨r,h⟩

theorem Busy.cons {pc : Pc cfg} (h : Busy k) : Busy (pc::k) := by
  rcases h with ⟨p,h⟩ | ⟨r,h⟩
  · exact .inl ⟨p,by rw [weight_cons]; omega⟩
  · exact .inr ⟨r,by rw [weight_cons]; omega⟩

theorem steal_of_heldTok {pc : Pc cfg} (h : ∀ t, heldTok t pc = 0) (r : cfg.CpuId) :
    stealTok r pc = 0 ∧ aimTok r pc = 0 := by
  cases pc
  case stealScan t i m target => exact absurd (h t) (by simp [heldTok])
  case stealCheck t u => exact absurd (h t) (by simp [heldTok])
  all_goals exact ⟨rfl,rfl⟩

/-- With no runqueue lock held no `work_steal` is under way. -/
theorem steal_free {mq : Bool} {st : Stack cfg} {H : List (Lock cfg)} (hw : Wf mq st H k)
    (hR : ∀ r, .rq r ∉ H) (r : cfg.CpuId) :
    weight (stealTok r) k = 0 ∧ weight (aimTok r) k = 0 := by
  have hpc : ∀ pc ∈ k, ∀ t, heldTok t pc = 0 := by
    intro pc hm t
    have := le_weight_of_mem (w := heldTok t) hm
    rw [hw.held (hR t)] at this
    omega
  exact ⟨weight_eq_zero fun pc hm => (steal_of_heldTok (hpc pc hm) r).1,
    weight_eq_zero fun pc hm => (steal_of_heldTok (hpc pc hm) r).2⟩

theorem StealChange.jump {pc : Pc cfg} (xs : List (Pc cfg)) (hrq : s₁.runqueue = s.runqueue)
    (hk : code s c = pc::k) (hx : ∀ pc ∈ xs, onSched pc = false ∧ works pc = false) :
    StealChange s (goto s₁ c (xs++k)) c := by
  refine .less (fun r => by simp only [goto,hrq]) (fun r => ?_) (fun t => ?_) fun h => ?_
  · rw [code_goto,hk,weight_append_zero fun pc hm => stealTok_onSched r pc (hx pc hm).1,weight_cons]
    omega
  · rw [code_goto,hk,weight_append_zero fun pc hm => aimTok_onSched t pc (hx pc hm).1,weight_cons]
    omega
  · rw [code_goto] at h
    rw [hk]
    exact .inl (.cons (.of_append (fun pc hm => (hx pc hm).2) h))

theorem StealChange.none (hrq : ∀ r, (s'.runqueue r).size = (s.runqueue r).size)
    (hsteal : ∀ r, weight (stealTok r) (code s' c) = 0)
    (haim : ∀ t, weight (aimTok t) (code s' c) = 0) : StealChange s s' c :=
  .less hrq (fun r => by rw [hsteal]; exact Nat.zero_le _)
    (fun t => by rw [haim]; exact Nat.zero_le _) fun _ => .inr (hsteal c)

theorem StealChange.of_effect (hC : Core true s) (he : Effect true s c cl x s') :
    StealChange s s' c := by
  have hok := hC.cpu c
  cases he with
  | quiet hq =>
    obtain ⟨k,hf,hd⟩ := hq.frames
    have hcode : code s' c = k := by rw [code,hf,(hq.cpu c).stack,Function.update_self]
    refine .less (fun r => by rw [hq.runqueue]) (fun r => ?_) (fun t => ?_) fun h => ?_
    · rw [hcode]
      exact (hd.debt (.steal r)).le
    · rw [hcode]
      exact (hd.debt (.aim t)).le
    · rw [hcode] at h
      rcases h with ⟨p,h⟩ | ⟨r,h⟩
      · exact .inl (.inl ⟨p,fun hz => h ((hd.debt (.enq p)).trans hz)⟩)
      · exact .inl (.inr ⟨r,fun hz => h ((hd.debt (.dec r)).trans hz)⟩)
  | execName n k p hk | stealMiss r t k hk => exact .jump [] rfl hk (by simp)
  | alloc cur i k p hk =>
    exact .jump [.release .ptable,.allocStack cur p] rfl hk (by simp [onSched,works])
  | allocFail pc cur np k hk hpc =>
    rcases hpc with rfl | rfl <;> exact .jump [] rfl hk (by simp)
  | allocOk cur np k hk => exact .jump [.forkCopy cur np] rfl hk (by simp [onSched,works])
  | forkCopy cur np k hk =>
    exact .jump [.acquire .ptable,.forkRun np] rfl hk (by simp [onSched,works])
  | forkRun np k hk =>
    obtain ⟨H,-,-,-,rfl⟩ := hok.rule hk
    exact .none (fun _ => rfl) (fun _ => by rw [code_goto]; rfl) fun _ => by rw [code_goto]; rfl
  | enqueue r p k hk =>
    obtain ⟨H,hh,-,-,hr,-⟩ := hok.rule hk
    refine .resize r ((hh.locks _).mpr hr) (.inl ⟨p,by simp [hk,enqTok]⟩) ?_ ?_ ?_
    · intro t ht
      simp [goto,setRunqueue,ht]
    · simp [code_goto,hk,stealTok]
    · simp [code_goto,hk,aimTok]
  | yield p k hk =>
    exact .jump [.acquire .ptable,.yieldLocked p] rfl hk (by simp [onSched,works])
  | yieldLocked p k hk =>
    obtain ⟨H,-,-,hst,-,hw⟩ := hok.rule hk
    rw [hst] at hw
    refine .none (fun _ => rfl) (fun r => ?_) fun t => ?_
    · simp [code_goto,stealTok,weight_kstack hw (stealTok_onSched r)]
    · simp [code_goto,aimTok,weight_kstack hw (aimTok_onSched t)]
  | yieldRunnable p k hk => exact .jump [.sched,.release .ptable] rfl hk (by simp [onSched,works])
  | sched p k b hk =>
    exact .jump [.release .ptable,.swtch p c b] rfl hk (by simp [onSched,works])
  | swtch p cur b k hk =>
    obtain ⟨H,-,-,hst,-⟩ := hok.rule hk
    obtain rfl := hok.cur cur (by rw [hk]; rfl)
    exact .none (fun _ => rfl) (fun _ => by rw [hok.switchFrom_code hst]; rfl)
      fun _ => by rw [hok.switchFrom_code hst]; rfl
  | sleepLocked p ch l k hk =>
    exact .jump [.sched,.sleepAwake p l] rfl hk (by simp [onSched,works])
  | wakeHit i ch j k hk =>
    obtain ⟨H,-,-,hR,-,hw⟩ := hok.rule hk
    have hz := fun r => steal_free hw hR r
    refine .none (fun _ => rfl) (fun r => ?_) fun t => ?_
    · simp [code_goto,stealTok,(hz r).1]
    · simp [code_goto,aimTok,(hz t).2]
  | wakeupSet j ch k hk => exact .jump [.wakeup1 (j+1) ch] rfl hk (by simp [onSched,works])
  | killHit pid i p k hk | reap p i kids q k hk =>
    exact .jump [.release .ptable] rfl hk (by simp [onSched,works])
  | exitEnd p i k hk => exact .jump [.sched,.zombieExit] rfl hk (by simp [onSched,works])
  | finished k hk => exact .jump [.waitforkLoop] rfl hk (by simp [onSched,works])
  | dequeue pc r p thief k hk hpc =>
    refine .none (fun _ => rfl) ?_ ?_
    all_goals
      rcases hpc with ⟨rfl,-⟩ | ⟨t,rfl,-⟩
      · obtain ⟨H,-,-,-,-,rfl⟩ := hok.rule hk
        simp [code_goto,stealTok,aimTok]
      · obtain ⟨H,-,-,-,-,-,rfl⟩ := hok.rule hk
        simp [code_goto,stealTok,aimTok]
  | stealStart r k hk hz =>
    obtain ⟨H,-,-,-,hst,rfl⟩ := hok.rule hk
    obtain rfl := hok.own r hst
    exact .start rfl hz (by rw [code_goto])
  | stealAim r i m target t k hk ht =>
    obtain ⟨H,-,-,-,-,rfl,-⟩ := hok.rule hk
    refine .aim t rfl ht ?_ ?_ ?_
    · simp [code_goto,hk,stealTok]
    · intro u hu
      by_contra hne
      simp [code_goto,aimTok,Ne.symm hne] at hu
    · rintro (⟨p,h⟩ | ⟨r,h⟩)
      · exact h (by rw [code_goto]; rfl)
      · exact h (by rw [code_goto]; rfl)
  | stealStop r i m target k hk =>
    obtain ⟨H,-,-,-,-,rfl,-⟩ := hok.rule hk
    exact .none (fun _ => rfl) (fun _ => by rw [code_goto]; rfl) fun _ => by rw [code_goto]; rfl
  | unlink r p thief k hk =>
    obtain ⟨H,-,hw⟩ := hok.rule hk
    refine .none (fun t => ?_) ?_ ?_
    · by_cases ht : t = r <;> simp [goto,setRunqueue,ht]
    all_goals
      cases thief with
      | none =>
        obtain ⟨-,-,-,rfl⟩ := hw
        simp [code_goto,unlinked,stealTok,aimTok]
      | some =>
        obtain ⟨-,-,-,-,rfl⟩ := hw
        simp [code_goto,unlinked,stealTok,aimTok]
  | sizeDec r k hk =>
    obtain ⟨H,hh,-,-,hr,-⟩ := hok.rule hk
    refine .resize r ((hh.locks _).mpr hr) (.inr ⟨r,by simp [hk,decTok]⟩) ?_ ?_ ?_
    · intro t ht
      simp [goto,setRunqueue,ht]
    · simp [code_goto,hk,stealTok]
    · simp [code_goto,hk,aimTok]
  | mqTake r p k hk | mqBack r p k hk | mqIdle r p k hk =>
    obtain ⟨H,-,-,-,-,rfl⟩ := hok.rule hk
    exact .none (fun _ => rfl) (fun _ => by rw [code_goto]; rfl) fun _ => by rw [code_goto]; rfl
  | mqMark r p k hk =>
    obtain ⟨H,-,-,-,-,rfl⟩ := hok.rule hk
    exact .none (fun _ => by simp [goto]) (fun _ => by rw [code_goto]; rfl)
      fun _ => by rw [code_goto]; rfl
  | mqSwtch r p k hk =>
    obtain ⟨H,-,-,-,hst,rfl⟩ := hok.rule hk
    obtain rfl := hok.own r hst
    have hsaved := Core.resumes hC (p := p) (by rw [hk]; rfl) hst
    have hcode := hsaved.switchTo_code hst (k := [.mqBack r p])
    exact .none (fun _ => rfl) (fun t => by rw [hcode,weight_kstack hsaved.wf (stealTok_onSched t)])
      fun t => by rw [hcode,weight_kstack hsaved.wf (aimTok_onSched t)]
  | rrTake i p k hk | rrSwtch p k hk | rrBack p k hk =>
    exact absurd (hok.rule hk) (by rintro ⟨H,-,h,-⟩; cases h)

theorem lock_of_steal (hC : Core true s) (h : weight (stealTok d) (code s c) ≠ 0) :
    s.lock (.rq d) = some c := by
  have hle : ∀ pc : Pc cfg, stealTok d pc ≤ heldTok d pc := by
    intro pc
    cases pc
    case stealScan => simp only [stealTok,heldTok,eq_comm,le_refl]
    case stealCheck => simp only [stealTok,heldTok,eq_comm,le_refl]
    all_goals exact Nat.zero_le _
  have hun : weight (heldTok d) (unspin (code s c)) = weight (heldTok d) (code s c) := by
    cases code s c with
    | nil => rfl
    | cons pc => cases pc <;> rfl
  obtain ⟨H,hh,hw⟩ := (hC.cpu c).typed
  by_contra hne
  have hz := hw.held fun hm => hne ((hh.locks (.rq d)).mpr hm)
  have := weight_le hle (code s c)
  omega

theorem Thieves.step (h : Thieves s) (hS : Sound s) (he : Effect true s c cl x s') : Thieves s' := by
  have hcode : ∀ {d}, d ≠ c → code s' d = code s d := fun hd => code_same hS.core he hd
  have hother : ∀ {d}, d ≠ c → (Steals s' d ↔ Steals s d) := by
    intro d hd
    rw [Steals,hcode hd,Steals]
  obtain ⟨rank,hrank⟩ := h.ranked
  cases StealChange.of_effect hS.core he with
  | less hsize hsteal haim hbusy =>
    have hkeep : ∀ d, Steals s' d → Steals s d := by
      intro d hd
      by_cases hdc : d = c
      · subst hdc
        exact fun hz => hd (by have := hsteal d; omega)
      · exact (hother hdc).mp hd
    refine ⟨fun d r hd => ?_,fun d hd => ?_,fun d hb hd => ?_,rank,fun d t hd ht => ?_⟩
    · by_cases hdc : d = c
      · subst hdc
        exact h.own d r fun hz => hd (by have := hsteal r; omega)
      · exact h.own d r (hcode hdc ▸ hd)
    · rw [hsize]
      exact h.empty d (hkeep d hd)
    · by_cases hdc : d = c
      · subst hdc
        rcases hbusy hb with hb | hz
        · exact h.free d hb (hkeep d hd)
        · exact hd hz
      · exact h.free d (hcode hdc ▸ hb) (hkeep d hd)
    · refine hrank d t ?_ (hkeep t ht)
      by_cases hdc : d = c
      · subst hdc
        exact fun hz => hd (by have := haim t; omega)
      · exact hcode hdc ▸ hd
  | start hrq hz hk =>
    -- the new thief is ranked above all CPUs, and has no target yet
    refine ⟨fun d r hd => ?_,fun d hd => ?_,fun d hb hd => ?_,
      Function.update rank c ((∑ e, rank e)+1),fun d t hd ht => ?_⟩
    · by_cases hdc : d = c
      · subst hdc
        rw [hk] at hd
        by_contra hne
        simp [stealTok,Ne.symm hne] at hd
      · exact h.own d r (hcode hdc ▸ hd)
    · rw [hrq]
      by_cases hdc : d = c
      · subst hdc
        exact hz
      · exact h.empty d ((hother hdc).mp hd)
    · by_cases hdc : d = c
      · subst hdc
        rw [hk] at hb
        rcases hb with ⟨p,hb⟩ | ⟨r,hb⟩ <;> exact hb rfl
      · exact h.free d (hcode hdc ▸ hb) ((hother hdc).mp hd)
    · have hdc : d ≠ c := by
        rintro rfl
        rw [hk] at hd
        exact hd rfl
      rw [Function.update_of_ne hdc]
      by_cases htc : t = c
      · subst htc
        rw [Function.update_self]
        have := le_sum rank d
        omega
      · rw [Function.update_of_ne htc]
        exact hrank d t (hcode hdc ▸ hd) ((hother htc).mp ht)
  | aim u hrq hu hsteal haim hbusy =>
    have hkeep : ∀ d, Steals s' d → Steals s d := by
      intro d hd
      by_cases hdc : d = c
      · subst hdc
        rwa [Steals,hsteal d] at hd
      · exact (hother hdc).mp hd
    refine ⟨fun d r hd => ?_,fun d hd => ?_,fun d hb hd => ?_,rank,fun d t hd ht => ?_⟩
    · by_cases hdc : d = c
      · subst hdc
        exact h.own d r (hsteal r ▸ hd)
      · exact h.own d r (hcode hdc ▸ hd)
    · rw [hrq]
      exact h.empty d (hkeep d hd)
    · by_cases hdc : d = c
      · subst hdc
        exact hbusy hb
      · exact h.free d (hcode hdc ▸ hb) (hkeep d hd)
    · by_cases hdc : d = c
      · subst hdc
        -- the target was seen with a process, so it is no thief
        obtain rfl := haim t hd
        have := h.empty t (hkeep t ht)
        omega
      · exact hrank d t (hcode hdc ▸ hd) (hkeep t ht)
  | resize r hl hb hsize hsteal haim =>
    have hkeep : ∀ d, Steals s' d → Steals s d := by
      intro d hd
      by_cases hdc : d = c
      · subst hdc
        rwa [Steals,hsteal d] at hd
      · exact (hother hdc).mp hd
    refine ⟨fun d t hd => ?_,fun d hd => ?_,fun d hb' hd => ?_,rank,fun d t hd ht => ?_⟩
    · by_cases hdc : d = c
      · subst hdc
        exact h.own d t (hsteal t ▸ hd)
      · exact h.own d t (hcode hdc ▸ hd)
    · have hdr : d ≠ r := by
        intro hdr
        have hl' := lock_of_steal hS.core (hkeep d hd)
        rw [hdr,hl,Option.some.injEq,← hdr] at hl'
        exact h.free d (hl' ▸ hb) (hkeep d hd)
      rw [hsize d hdr]
      exact h.empty d (hkeep d hd)
    · by_cases hdc : d = c
      · subst hdc
        exact h.free d hb (hkeep d hd)
      · exact h.free d (hcode hdc ▸ hb') (hkeep d hd)
    · refine hrank d t ?_ (hkeep t ht)
      by_cases hdc : d = c
      · subst hdc
        exact haim t ▸ hd
      · exact hcode hdc ▸ hd

theorem Thieves.boot (cfg : Config) : Thieves (boot cfg true) := by
  have hcode : ∀ c, code (KernelStep.boot cfg true) c = [.mqLoop c] := fun _ => rfl
  refine ⟨fun c r h => ?_,fun c h => ?_,fun c _ h => ?_,fun _ => 0,fun c t h _ => ?_⟩
  · exact absurd rfl h
  · exact absurd rfl h
  · exact h rfl
  · exact absurd rfl h

theorem begins_to_wait {l : Lock cfg} (hS : Sound s) (he : Effect true s c cl x s')
    (hs : step true s c cl a = some s') (hw : waitsFor (code s' c) = some l) :
    ∃ k, code s c = .acquire l::k := by
  have hstack : (s'.cpu c).stack = (s.cpu c).stack := by
    cases Phase.of_effect hS.core he with
    | same hm hst | giveUp hm hst | sched hl hm hst | take p hm hst | mark r p hm hk hst
    | back p hm hm' hst | idle p hm hm' hst => exact hst
    | swtch p hm hon hk => rw [hk] at hw; cases hw
    | resume p hm hm' hon hst hpg hn => rw [hn] at hw; cases hw
  rcases step_waits hs hstack hw with hk | ⟨pc,hk⟩
  · exact hk
  · obtain ⟨H,-,hwf⟩ := (hS.core.cpu c).typed
    have hbelow : spinning (code s' c) = 0 := by
      rw [hk] at hwf
      cases pc
      case spin m => exact Wf.below hwf
      all_goals exact Wf.below hwf
    rw [waitsFor_of_spinning hbelow] at hw
    cases hw

def NoCross (s : State cfg) : Prop := ∀ c d, Inward s c → ¬ Outward s d

theorem NoCross.step (h : NoCross s) (hS : Sound s) (hu : UncrossedAt s c (code s c))
    (he : Effect true s c cl x s') (hs : step true s c cl a = some s') : NoCross s' := by
  intro e d hin hout
  have hapart := (Local.of_effect (hS.core.cpu c) he).apart
  have hinward : e ≠ c → Inward s e := by
    intro hec
    obtain ⟨hw,r,hr⟩ := hin
    exact ⟨code_same hS.core he hec ▸ hw,r,(hapart.lock _ e hec).mp hr⟩
  have houtward : d ≠ c → Outward s d := by
    intro hdc
    obtain ⟨hl,r,hw⟩ := hout
    exact ⟨(hapart.lock _ d hdc).mp hl,r,code_same hS.core he hdc ▸ hw⟩
  have hed : e ≠ d := by
    rintro rfl
    obtain ⟨-,r,hw⟩ := hout
    rw [hin.1] at hw
    cases hw
  by_cases hec : e = c
  · subst hec
    obtain ⟨hw,r,hr⟩ := hin
    obtain ⟨k,hk⟩ := begins_to_wait hS he hs hw
    rw [hk] at hu
    refine hu ⟨r,?_⟩ d (houtward (Ne.symm hed))
    rcases step_acquired hs hr with hr | ⟨-,hn⟩
    · exact hr
    · rw [hk] at hn
      cases hn
  · by_cases hdc : d = c
    · subst hdc
      obtain ⟨hl,r,hw⟩ := hout
      obtain ⟨k,hk⟩ := begins_to_wait hS he hs hw
      rw [hk] at hu
      refine hu ?_ e (hinward hec)
      rcases step_acquired hs hl with hl | ⟨-,hn⟩
      · exact hl
      · rw [hk] at hn
        cases hn
    · exact h e d (hinward hec) (houtward hdc)

theorem wait_rule {l : Lock cfg} (hC : Core true s) (hw : waitsFor (code s c) = some l) :
    s.lock l ≠ some c ∧ ∀ t r, l = .rq t → s.lock (.rq r) = some c →
      weight (stealTok r) (code s c) ≠ 0 ∧ weight (aimTok t) (code s c) ≠ 0 := by
  obtain ⟨H,hh,hwf⟩ := (hC.cpu c).typed
  obtain ⟨k,hk⟩ : ∃ k, code s c = .spin l::k := by
    unfold waitsFor at hw
    split at hw
    · cases hw
      rename_i k hk
      exact ⟨k,hk⟩
    · cases hw
  rw [hk] at hwf
  obtain ⟨hen,-⟩ := hwf
  refine ⟨fun hl => hen.fresh ((hh.locks l).mp hl),?_⟩
  rintro t r rfl hr
  rcases hen.steal t rfl with hno | ⟨r',rfl,hhead⟩
  · exact absurd ((hh.locks _).mp hr) (hno r)
  · have hrr := (hh.locks _).mp hr
    simp only [List.mem_singleton,Lock.rq.injEq] at hrr
    subst hrr
    obtain ⟨k',rfl⟩ := List.head?_eq_some_iff.mp hhead
    rw [hk]
    simp [stealTok,aimTok]

theorem inner_rq (hC : Core true s) (hx : NoCross s) (h : Inner (Waits s) c d) :
    ∃ t, waitsFor (code s c) = some (.rq t) ∧ s.lock (.rq t) = some d := by
  obtain ⟨⟨l,hl,hw,hd⟩,⟨b,m,hm,-,hmc⟩,e,n,hn,hwd,-⟩ := h
  cases l with
  | rq t => exact ⟨t,hw,hd⟩
  | other => exact hl.elim
  | ptable =>
    have hin : Inward s c := by
      refine ⟨hw,?_⟩
      cases m with
      | rq r => exact ⟨r,hmc⟩
      | other => exact hm.elim
      | ptable => exact absurd hmc (wait_rule hC hw).1
    have hout : Outward s d := by
      refine ⟨hd,?_⟩
      cases n with
      | rq r => exact ⟨r,hwd⟩
      | other => exact hn.elim
      | ptable => exact absurd hd (wait_rule hC hwd).1
    exact absurd hout (hx c d hin)

theorem inner_thieves (hC : Core true s) (hx : NoCross s) (hT : Thieves s)
    (h : Inner (Inner (Waits s)) c d) : weight (aimTok d) (code s c) ≠ 0 ∧ Steals s d := by
  obtain ⟨hcd,⟨b,hbc⟩,e,hde⟩ := h
  obtain ⟨r,-,hr⟩ := inner_rq hC hx hbc
  obtain ⟨t,hw,ht⟩ := inner_rq hC hx hcd
  obtain ⟨u,hwd,-⟩ := inner_rq hC hx hde
  have hthief := (wait_rule hC hw).2 t r rfl hr
  have hnext := (wait_rule hC hwd).2 u t rfl ht
  obtain rfl := hT.own d t hnext.1
  exact ⟨hthief.2,hnext.1⟩

/-- In every run of orderly steps in which the two orders are not crossed, no CPUs wait for
each other in a cycle. -/
theorem no_waiting_cycle
    (h : Reach (stepBy true) (fun s a => Orderly s a ∧ Uncrossed s a) (boot cfg true) s)
    (c : cfg.CpuId) : ¬ Relation.TransGen (Waits s) c c := by
  have hinv : Sound s ∧ Thieves s ∧ NoCross s := by
    refine h.invariant (I := fun s => Sound s ∧ Thieves s ∧ NoCross s)
      ⟨Sound.boot cfg,Thieves.boot cfg,fun _ _ hin => ?_⟩ ?_
    · cases hin.1
    · rintro s a s' ⟨hS,hT,hx⟩ ⟨ho,hu⟩ hs
      obtain ⟨x,he⟩ := step_effect (hS.core.cpu a.cpu).typed (Side.of_core hS.core (hS.cond a.cpu)) hs
      exact ⟨hS.step ho hs,hT.step hS he,hx.step hS hu he hs⟩
  obtain ⟨hS,hT,hx⟩ := hinv
  obtain ⟨rank,hrank⟩ := hT.ranked
  refine no_cycle rank (fun c d hcd => ?_) c
  obtain ⟨haim,hsteal⟩ := inner_thieves hS.core hx hT hcd
  exact hrank c d haim hsteal

end
section Runs
open RoundRobin

/-- The first process runs on CPU 1. Its child has run on CPU 0, is asleep, and is woken by an
interrupt on CPU 1, which queues it there. -/
def queuedAway : List (Label small) :=
  moved++on 1 .leave::go 1::on 1 .leave::go 1::forks 1++gos 15 0++on 0 .leave::sleeps 0++gos 9 0++
    wakes 1++gos 5 1

/-- CPU 0 steals the child as far as its `acquire(&ptable.lock)`, and the process on CPU 1 yields. -/
def crossRun : List (Label small) := queuedAway++gos 12 0++on 1 (.user .bufwrite)::gos 5 1

theorem crossRun_cycle : ∃ s, run (stepBy true) (boot small true) crossRun = some s ∧
    Waits s 0 1 ∧ Waits s 1 0 := by
  have hrun : (run (stepBy true) (boot small true) crossRun).any (fun s =>
      (waitsFor (code s 0) = some .ptable ∧ s.lock .ptable = some 1) ∧
      waitsFor (code s 1) = some (.rq 1) ∧ s.lock (.rq 1) = some 0) = true := by decide +kernel
  obtain ⟨s,hs,hp⟩ := (Option.any_eq_true _ _).mp hrun
  obtain ⟨h₀,h₁⟩ := of_decide_eq_true hp
  exact ⟨s,hs,⟨.ptable,trivial,h₀⟩,⟨.rq 1,trivial,h₁⟩⟩

/-- CPU 0 waits for `ptable.lock` while the process on CPU 1 is in `kill`. -/
theorem steal_no_waiting_cycle :
    ∃ s, run (guarded (stepBy true) fun s a => Orderly s a ∧ Uncrossed s a) (boot small true)
      (queuedAway++on 1 (.user (.kill 7))::gos 2 1++gos 12 0) = some s ∧
    waitsFor (code s 0) = some .ptable ∧ ¬ Relation.TransGen (Waits s) 0 0 := by
  have hrun : (run (guarded (stepBy true) fun s a => Orderly s a ∧ Uncrossed s a) (boot small true)
      (queuedAway++on 1 (.user (.kill 7))::gos 2 1++gos 12 0)).any
      (fun s => waitsFor (code s 0) = some .ptable) = true := by decide +kernel
  obtain ⟨s,hs,hp⟩ := (Option.any_eq_true _ _).mp hrun
  exact ⟨s,hs,of_decide_eq_true hp,no_waiting_cycle (Reach.refl.of_run hs) 0⟩

end Runs
end Xv6.LockOrder
