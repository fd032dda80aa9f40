import Xv6.Handoff

/-!
# The moves that keep the handover invariant

`Core.move` reduces the invariant after a step of one CPU to obligations about that CPU and the
processes whose state changed. The kinds of moves follow from it, each proved once.
-/
namespace Xv6.Handoff
open SchedLog KernelState KernelStep Tally Frames Typing Effects

section
variable {cfg : Config} {mq b : Bool} {s s' s₁ : State cfg} {c d : cfg.CpuId} {cl : Clock}
  {k : List (Pc cfg)} {p q cur : cfg.Slot} {x : Option cfg.Slot} {k' : List (Pc cfg)}

theorem wakeTok_le_setTok (j : cfg.Slot) (pc : Pc cfg) : wakeTok j pc ≤ setTok j pc := by
  cases pc <;> simp [wakeTok,setTok]

theorem builtTok_le_forkTok (j : cfg.Slot) (pc : Pc cfg) : builtTok j pc ≤ forkTok j pc := by
  cases pc <;> simp [builtTok,forkTok]

@[simp] theorem weight_unspin_setTok (j : cfg.Slot) (k : List (Pc cfg)) :
    weight (setTok j) (unspin k) = weight (setTok j) k := by
  cases k with
  | nil => rfl
  | cons pc => cases pc <;> rfl

/-- A CPU that is about to make a process RUNNABLE holds `ptable.lock`. -/
theorem lock_of_setTok (hc : CpuOk mq s c) (h : weight (setTok q) (code s c) ≠ 0) :
    s.lock .ptable = some c := by
  obtain ⟨H,hh,hw⟩ := hc.typed
  by_contra hne
  have hH : Lock.ptable ∉ H := fun hm => hne ((hh.locks _).mpr hm)
  exact h (by simpa using (hw.quiet hH).2 q)

theorem lock_of_wakeTok (hc : CpuOk mq s c) (h : weight (wakeTok q) (code s c) ≠ 0) :
    s.lock .ptable = some c := by
  have := weight_le (wakeTok_le_setTok q) (code s c)
  exact lock_of_setTok (q := q) hc (by omega)

theorem Core.built_embryo (hC : Core mq s)
    (h : weight (builtTok q) (s.frames (.kstack p)) ≠ 0) : (s.proc q).state = .embryo := by
  have hle := weight_le (builtTok_le_forkTok q) (s.frames (.kstack p))
  have hsum := hC.fork.count q
  have hle' := le_sum (fun p => weight (forkTok q) (s.frames (.kstack p))) p
  by_contra hne
  rw [if_neg hne] at hsum
  simp only [hsum] at hle'
  omega

theorem ForkOk.same (hC : Core mq s) (hl : Local s s' c none)
    (hf : ∀ q, weight (forkTok q) (s'.frames (s.cpu c).stack) = weight (forkTok q) (code s c))
    (hb : ∀ q, weight (builtTok q) (s'.frames (s.cpu c).stack) = weight (builtTok q) (code s c))
    (hemb : ∀ p, (s'.proc p).state = .embryo ↔ (s.proc p).state = .embryo)
    (hdead : ∀ p, ¬ Alive (s'.proc p).state → Alive (s.proc p).state →
      ∀ q, weight (forkTok q) (s'.frames (.kstack p)) = 0) : ForkOk mq s' := by
  have hframes : ∀ p, s'.frames (.kstack p) = s.frames (.kstack p) ∨ .kstack p = (s.cpu c).stack := by
    intro p
    by_cases hp : Stack.kstack p = (s.cpu c).stack
    · exact .inr hp
    · exact .inl (hl.frames _ hp (by simp))
  have htok : ∀ p q, weight (forkTok q) (s'.frames (.kstack p)) =
      weight (forkTok q) (s.frames (.kstack p)) := by
    intro p q
    rcases hframes p with hp | hp
    · rw [hp]
    · rw [hp,hf]
      rfl
  have hbuilt : ∀ p q, weight (builtTok q) (s'.frames (.kstack p)) =
      weight (builtTok q) (s.frames (.kstack p)) := by
    intro p q
    rcases hframes p with hp | hp
    · rw [hp]
    · rw [hp,hb]
      rfl
  refine ⟨?_,?_,?_⟩
  · intro q
    rw [Finset.sum_congr rfl fun p _ => htok p q,hC.fork.count q]
    simp only [hemb q]
  · intro p q hd
    by_cases ha : Alive (s.proc p).state
    · exact hdead p hd ha q
    · rw [htok]
      exact hC.fork.dead p q ha
  · intro p q hne
    rw [hbuilt] at hne
    have he := hC.built_embryo hne
    exact (hC.fork.built p q hne).keep hl (hC.not_on (by simp [he]) (by simp [he,Resting])) (by simp)

/-- What a move of `c` has to show; all of it is about `c` and the processes whose
state changes. -/
structure Move (mq : Bool) (s s' : State cfg) (c : cfg.CpuId) : Prop where
  cpu : CpuOk mq s' c
  claim : ∀ p, At s' c p → At s c p ∨ ∀ d, ¬ At s d p
  runs : ∀ p, On s' c p → mode (code s' c) = .plain → (s'.proc p).state = .running
  rests : ∀ p d, On s' c p → mode (code s' c) = .leaving d → Resting (s'.proc p).state
  taking : ∀ p, mode (code s' c) = .taking p → (s'.proc p).state = .runnable
  switching : ∀ p, mode (code s' c) = .switching p → (s'.proc p).state = .running
  state : ∀ p, (s'.proc p).state = (s.proc p).state ∨ (∀ d, d ≠ c → ¬ Taken s d p) ∧
    ∀ d, d ≠ c → On s d p → Resting (s.proc p).state ∧ Resting (s'.proc p).state
  run : ∀ p, (s'.proc p).state = .running → At s' c p ∨ (s.proc p).state = .running ∧ ¬ At s c p
  wake : ∀ j, weight (wakeTok j) (code s' c) ≠ 0 → (s'.proc j).state = .sleeping
  sleep : s.lock .ptable = some c ∨ ∀ j, (s.proc j).state = .sleeping → (s'.proc j).state = .sleeping
  saved : ∀ p, Alive (s'.proc p).state → (∀ d, ¬ On s' d p) →
    (s'.proc p).state ≠ (s.proc p).state ∨ On s c p → Saved mq s' p
  fork : ForkOk mq s'

theorem Core.move (hC : Core mq s) (hl : Local s s' c x)
    (hx : ∀ q, x = some q → (s.proc q).state = .embryo) (hm : Move mq s s' c) : Core mq s' := by
  have hon : ∀ d p, d ≠ c → (On s' d p ↔ On s d p) := by
    intro d p hd
    unfold On
    rw [(hl.view d hd).stack]
  have hmode : ∀ d, d ≠ c → mode (code s' d) = mode (code s d) := by
    intro d hd
    rw [hC.code_other hl hx hd]
  have hat : ∀ d p, d ≠ c → (At s' d p ↔ At s d p) := by
    intro d p hd
    unfold At Taken
    rw [hon d p hd,hmode d hd]
  refine ⟨?_,?_,?_,?_,?_,?_,?_,?_,?_,hm.fork⟩
  · intro d
    by_cases hd : d = c
    · exact hd ▸ hm.cpu
    · exact hC.cpu_other hl hx hd
  · have hsingle : ∀ b p, b ≠ c → At s' c p → ¬ At s' b p := by
      intro b p hb hc hbp
      rw [hat b p hb] at hbp
      rcases hm.claim p hc with h | h
      · exact hb (hC.single b c p hbp h)
      · exact h b hbp
    intro a b p ha hb
    by_cases hac : a = c
    · subst hac
      by_contra hne
      exact hsingle b p (Ne.symm hne) ha hb
    · by_cases hbc : b = c
      · subst hbc
        exact absurd ha (hsingle a p hac hb)
      · exact hC.single a b p ((hat a p hac).mp ha) ((hat b p hbc).mp hb)
  · intro d p hd hp
    by_cases hdc : d = c
    · subst hdc
      exact hm.runs p hd hp
    · rw [hon d p hdc] at hd
      rw [hmode d hdc] at hp
      have hr := hC.runs d p hd hp
      rcases hm.state p with h | ⟨-,h⟩
      · rw [h,hr]
      · have := (h d hdc hd).1
        rw [hr] at this
        exact this.elim
  · intro d p e hd he
    by_cases hdc : d = c
    · subst hdc
      exact hm.rests p e hd he
    · rw [hon d p hdc] at hd
      rw [hmode d hdc] at he
      rcases hm.state p with h | ⟨-,h⟩
      · rw [h]
        exact hC.rests d p e hd he
      · exact (h d hdc hd).2
  · intro d p hd
    by_cases hdc : d = c
    · subst hdc
      exact hm.taking p hd
    · rw [hmode d hdc] at hd
      rcases hm.state p with h | ⟨h,-⟩
      · rw [h]
        exact hC.taking d p hd
      · exact absurd (.inl hd) (h d hdc)
  · intro d p hd
    by_cases hdc : d = c
    · subst hdc
      exact hm.switching p hd
    · rw [hmode d hdc] at hd
      rcases hm.state p with h | ⟨h,-⟩
      · rw [h]
        exact hC.switching d p hd
      · exact absurd (.inr hd) (h d hdc)
  · intro p hp
    rcases hm.run p hp with h | ⟨h,hno⟩
    · exact ⟨c,h⟩
    · obtain ⟨d,hd⟩ := hC.run p h
      have hdc : d ≠ c := fun he => hno (he ▸ hd)
      exact ⟨d,(hat d p hdc).mpr hd⟩
  · intro d j hj
    by_cases hdc : d = c
    · subst hdc
      exact hm.wake j hj
    · rw [hC.code_other hl hx hdc] at hj
      rcases hm.sleep with hlock | hsl
      · have := lock_of_wakeTok (hC.cpu d) hj
        rw [hlock] at this
        exact absurd (Option.some.inj this).symm hdc
      · exact hsl j (hC.pend d j hj)
  · intro p hp hno
    by_cases hch : (s'.proc p).state ≠ (s.proc p).state ∨ On s c p
    · exact hm.saved p hp hno hch
    · rw [not_or,not_not] at hch
      rw [hch.1] at hp
      have hno' : ∀ d, ¬ On s d p := by
        intro d hd
        by_cases hdc : d = c
        · exact hch.2 (hdc ▸ hd)
        · exact hno d ((hon d p hdc).mpr hd)
      refine (hC.saved p hp hno').keep hl hch.2 ?_
      intro hxp
      rw [hx p hxp] at hp
      exact hp

structure Shift (mq : Bool) (s s' : State cfg) (p : cfg.Slot) : Prop where
  was : (s.proc p).state ≠ .running
  now : (s'.proc p).state ≠ .running
  free : ∀ d, ¬ Taken s d p
  on : ∀ d, On s d p → Resting (s.proc p).state ∧ Resting (s'.proc p).state
  ready : Alive (s'.proc p).state → (∀ d, ¬ On s d p) → Saved mq s' p

theorem Core.stay (hC : Core mq s) (hl : Local s s' c x)
    (hx : ∀ q, x = some q → (s.proc q).state = .embryo) (ht : Typed mq s' c)
    (hv : SameView (s.cpu c) (s'.cpu c)) (hm : mode (code s' c) = mode (code s c))
    (hst : ∀ p, (s'.proc p).state = (s.proc p).state ∨ Shift mq s s' p)
    (hw : ∀ j, weight (wakeTok j) (code s' c) ≠ 0 → (s'.proc j).state = .sleeping)
    (hsl : s.lock .ptable = some c ∨ ∀ j, (s.proc j).state = .sleeping → (s'.proc j).state = .sleeping)
    (hf : ForkOk mq s') : Core mq s' := by
  have hok := hC.cpu c
  have hon : ∀ p, On s' c p ↔ On s c p := by
    intro p
    unfold On
    rw [hv.stack]
  have hat : ∀ p, At s' c p ↔ At s c p := by
    intro p
    unfold At Taken
    rw [hon,hm]
  refine hC.move hl hx ⟨⟨ht,by rw [hv.stack]; exact hok.own,?_,?_,?_,by rw [hm]; exact hok.cur⟩,
    fun p hp => .inl ((hat p).mp hp),?_,?_,?_,?_,?_,?_,hw,hsl,?_,hf⟩
  · intro p hp
    rw [hv.proc]
    exact hok.kproc p ((hon p).mp hp)
  · intro r hr
    rw [hv.stack] at hr
    rw [hv.proc,hm]
    exact hok.sproc r hr
  · intro p hp
    have hp' := (hon p).mp hp
    rw [hv.scheduler,hl.frames _ (by rw [hp'.stack_eq]; simp) (by simp)]
    exact hok.home p hp'
  · intro p hp hpl
    have hr := hC.runs c p ((hon p).mp hp) (hm ▸ hpl)
    rcases hst p with h | h
    · rw [h,hr]
    · exact absurd hr h.was
  · intro p d hp hd
    rcases hst p with h | h
    · rw [h]
      exact hC.rests c p d ((hon p).mp hp) (hm ▸ hd)
    · exact (h.on c ((hon p).mp hp)).2
  · intro p hp
    rw [hm] at hp
    rcases hst p with h | h
    · rw [h]
      exact hC.taking c p hp
    · exact absurd (.inl hp) (h.free c)
  · intro p hp
    rw [hm] at hp
    rcases hst p with h | h
    · rw [h]
      exact hC.switching c p hp
    · exact absurd (.inr hp) (h.free c)
  · intro p
    rcases hst p with h | h
    · exact .inl h
    · exact .inr ⟨fun d _ => h.free d,fun d _ => h.on d⟩
  · intro p hp
    rcases hst p with h | h
    · rw [h] at hp
      by_cases hc : At s c p
      · exact .inl ((hat p).mpr hc)
      · exact .inr ⟨hp,hc⟩
    · exact absurd hp h.now
  · intro p hp hno hch
    rcases hst p with h | h
    · rcases hch with hch | hch
      · exact absurd h hch
      · exact absurd ((hon p).mpr hch) (hno c)
    · refine h.ready hp fun d hd => ?_
      by_cases hdc : d = c
      · subst hdc
        exact hno d ((hon p).mpr hd)
      · exact hno d (by unfold On; rw [(hl.view d hdc).stack]; exact hd)

theorem Core.built_keep (hC : Core mq s) (hl : Local s s' c x) (hx : x ≠ some q)
    (h : weight (builtTok q) (s.frames (.kstack p)) ≠ 0) : Saved mq s' q := by
  have he := hC.built_embryo h
  exact (hC.fork.built p q h).keep hl (hC.not_on (by simp [he]) (by simp [he,Resting])) hx

theorem ForkOk.change (hC : Core mq s) (hon : On s c p)
    (hcount : ∀ q, weight (forkTok q) (s'.frames (.kstack p))+
        (if (s.proc q).state = .embryo then 1 else 0) =
      weight (forkTok q) (code s c)+if (s'.proc q).state = .embryo then 1 else 0)
    (hframes : ∀ r, r ≠ p → ∀ q, weight (forkTok q) (s'.frames (.kstack r)) =
      weight (forkTok q) (s.frames (.kstack r)))
    (hdead : ∀ r, ¬ Alive (s'.proc r).state → r ≠ p ∧ ¬ Alive (s.proc r).state)
    (hbuilt : ∀ r q, weight (builtTok q) (s'.frames (.kstack r)) ≠ 0 → Saved mq s' q) :
    ForkOk mq s' := by
  have hcode : code s c = s.frames (.kstack p) := by rw [code,hon.stack_eq]
  refine ⟨?_,?_,hbuilt⟩
  · intro q
    have hsum := sum_change (f := fun r => weight (forkTok q) (s.frames (.kstack r)))
      (g := fun r => weight (forkTok q) (s'.frames (.kstack r))) p fun r hr => hframes r hr q
    have hq := hcount q
    rw [hcode] at hq
    simp only [hC.fork.count q] at hsum
    omega
  · intro r q hd
    obtain ⟨hr,ha⟩ := hdead r hd
    rw [hframes r hr]
    exact hC.fork.dead r q ha

theorem ForkOk.jump (hC : Core mq s)
    (hl : Local s (goto s₁ c k') c none) (hcpu : (s₁.cpu c).stack = (s.cpu c).stack)
    (hf : ∀ q, weight (forkTok q) k' = weight (forkTok q) (code s c))
    (hb : ∀ q, weight (builtTok q) k' = weight (builtTok q) (code s c))
    (hemb : ∀ p, (s₁.proc p).state = .embryo ↔ (s.proc p).state = .embryo)
    (hdead : ∀ p, ¬ Alive (s₁.proc p).state → ¬ Alive (s.proc p).state) :
    ForkOk mq (goto s₁ c k') := by
  have hfr : (goto s₁ c k').frames (s.cpu c).stack = k' := by simp [goto,hcpu]
  refine .same hC hl (fun q => ?_) (fun q => ?_) hemb fun p h ha => absurd ha (hdead p h)
  · rw [hfr,hf]
  · rw [hfr,hb]

theorem Core.jump (hC : Core mq s) (hl : Local s (goto s₁ c k') c none) (ht : Typed mq (goto s₁ c k') c)
    (hcpu : s₁.cpu = s.cpu) (hm : mode k' = mode (code s c))
    (hst : ∀ p, (s₁.proc p).state = (s.proc p).state ∨ Shift mq s (goto s₁ c k') p)
    (hw : ∀ j, weight (wakeTok j) k' ≠ 0 → (s₁.proc j).state = .sleeping)
    (hsl : s.lock .ptable = some c ∨ ∀ j, (s.proc j).state = .sleeping → (s₁.proc j).state = .sleeping)
    (hf : ForkOk mq (goto s₁ c k')) : Core mq (goto s₁ c k') := by
  have hv : SameView (s.cpu c) ((goto s₁ c k').cpu c) := by
    have : (goto s₁ c k').cpu = s.cpu := hcpu
    rw [this]
    exact .refl _
  refine hC.stay hl (by simp) ht hv (by rw [code_goto,hm]) hst ?_ hsl hf
  intro j hj
  rw [code_goto] at hj
  exact hw j hj

theorem Core.jump_same (hC : Core mq s)
    (hl : Local s (goto s₁ c k') c none) (ht : Typed mq (goto s₁ c k') c)
    (hcpu : s₁.cpu = s.cpu) (hm : mode k' = mode (code s c))
    (hst : ∀ p, (s₁.proc p).state = (s.proc p).state)
    (hw : ∀ j, weight (wakeTok j) k' ≤ weight (wakeTok j) (code s c))
    (hf : ∀ q, weight (forkTok q) k' = weight (forkTok q) (code s c))
    (hb : ∀ q, weight (builtTok q) k' = weight (builtTok q) (code s c)) :
    Core mq (goto s₁ c k') := by
  refine hC.jump hl ht hcpu hm (fun p => .inl (hst p)) ?_ (.inr fun j hj => by rw [hst,hj])
    (.jump hC hl (by rw [hcpu]) hf hb (fun p => by rw [hst]) fun p h => by rwa [hst] at h)
  intro j hj
  have := hw j
  rw [hst]
  exact hC.pend c j (by omega)

theorem Core.quiet (hC : Core mq s) (ht : Typed mq s' c) (hq : Quiet s s' c) : Core mq s' := by
  have hl : Local s s' c none := .of_effect (hC.cpu c) (.quiet hq : Effect mq s c ⟨0,0⟩ none s')
  obtain ⟨k,hf,hd⟩ := hq.frames
  have hfr : s'.frames (s.cpu c).stack = k := by simp [hf]
  have hcode : code s' c = k := by rw [code,(hq.cpu c).stack,hfr]
  refine hC.stay hl (by simp) ht (hq.cpu c) (by rw [hcode,hd.mode])
    (fun p => .inl (hq.proc p).state) ?_ (.inr fun j hj => by rw [(hq.proc j).state,hj]) ?_
  · intro j hj
    have hw : weight (wakeTok j) k = weight (wakeTok j) (code s c) := hd.debt (.wake j)
    rw [hcode,hw] at hj
    rw [(hq.proc j).state]
    exact hC.pend c j hj
  · refine .same hC hl (fun q => hfr ▸ hd.debt (.fork q)) (fun q => hfr ▸ hd.debt (.built q))
      (fun p => by rw [(hq.proc p).state]) fun p h ha => absurd ha ?_
    rwa [(hq.proc p).state] at h

theorem Core.not_taken (hC : Core mq s) (hr : (s.proc p).state ≠ .running)
    (hn : (s.proc p).state ≠ .runnable) : ¬ Taken s c p := by
  rintro (h | h)
  · exact hn (hC.taking c p h)
  · exact hr (hC.switching c p h)

theorem setState_state (s : State cfg) (p q : cfg.Slot) (st : ProcState) :
    ((setState s p st).proc q).state = if q = p then st else (s.proc q).state := by
  by_cases hq : q = p <;> simp [setState,setProc,hq]

theorem allocSlot_state (s : State cfg) (c : cfg.CpuId) (cl : Clock) (p q : cfg.Slot) :
    ((allocSlot s c cl p).proc q).state = if q = p then .embryo else (s.proc q).state := by
  by_cases hq : q = p <;> simp [allocSlot,logProc,setState,setProc,hq]

theorem freeSlot_state (s : State cfg) (c : cfg.CpuId) (cl : Clock) (p q : cfg.Slot) :
    ((freeSlot s c cl p).proc q).state = if q = p then .unused else (s.proc q).state := by
  by_cases hq : q = p <;> simp [freeSlot,logProc,setProc,hq]

/-- A step of `fork` on CPU `c` that changes the state of the slot `p` it works on. -/
theorem Core.forkStep {st : ProcState}
    (hC : Core mq s) (hl : Local s (goto s₁ c k') c none) (ht : Typed mq (goto s₁ c k') c)
    (hcpu : s₁.cpu = s.cpu) (hon : On s c cur) (hm : mode (code s c) = .plain)
    (hm' : mode k' = .plain) (hw : ∀ j, weight (wakeTok j) k' = 0)
    (hp : ¬ Alive (s.proc p).state) (hz : (s.proc p).state ≠ .zombie)
    (hstate : ∀ q, (s₁.proc q).state = if q = p then st else (s.proc q).state)
    (hr : st ≠ .running) (hready : Alive st → Saved mq (goto s₁ c k') p)
    (hcount : ∀ q, weight (forkTok q) k'+(if (s.proc q).state = .embryo then 1 else 0) =
      weight (forkTok q) (code s c)+if (s₁.proc q).state = .embryo then 1 else 0)
    (hb : ∀ q, weight (builtTok q) k' ≤ weight (builtTok q) (code s c)) :
    Core mq (goto s₁ c k') := by
  have hrun : (s.proc cur).state = .running := hC.runs c cur hon hm
  have hcur : cur ≠ p := by
    rintro rfl
    exact hp (by simp [hrun,Alive])
  have hnr : (s.proc p).state ≠ .running := fun h => hp (by simp [h,Alive])
  have hnb : (s.proc p).state ≠ .runnable := fun h => hp (by simp [h,Alive])
  have hns : (s.proc p).state ≠ .sleeping := fun h => hp (by simp [h,Alive])
  have hnrest : ¬ Resting (s.proc p).state := by
    intro h
    revert h hnb hns hz
    cases (s.proc p).state <;> simp [Resting]
  have hfr : (goto s₁ c k').frames (.kstack cur) = k' := by simp [goto,hcpu,hon.stack_eq]
  have hcode : code s c = s.frames (.kstack cur) := by rw [code,hon.stack_eq]
  have hother : ∀ r, r ≠ cur → (goto s₁ c k').frames (.kstack r) = s.frames (.kstack r) := by
    intro r hr
    exact hl.frames _ (by rw [hon.stack_eq]; simpa using hr) (by simp)
  refine hC.jump hl ht hcpu (by rw [hm,hm']) ?_ (fun j hj => absurd (hw j) hj) (.inr ?_) ?_
  · intro q
    by_cases hq : q = p
    · subst hq
      have hq' : ((goto s₁ c k').proc q).state = st := (hstate q).trans (if_pos rfl)
      refine .inr ⟨hnr,by rw [hq']; exact hr,fun d => hC.not_taken hnr hnb,
        fun d hd => absurd hd (hC.not_on hnr hnrest),fun ha _ => hready (hq' ▸ ha)⟩
    · exact .inl (by rw [hstate,if_neg hq])
  · intro j hj
    rw [hstate,if_neg]
    · exact hj
    · rintro rfl
      exact hns hj
  · refine .change hC hon (fun q => by rw [hfr]; exact hcount q) (fun r hr q => by rw [hother r hr])
      ?_ ?_
    · intro r hr
      have hr' : ¬ Alive (s₁.proc r).state := hr
      rw [hstate] at hr'
      by_cases hrp : r = p
      · subst hrp
        exact ⟨Ne.symm hcur,hp⟩
      · rw [if_neg hrp] at hr'
        refine ⟨?_,hr'⟩
        rintro rfl
        exact hr' (by simp [hrun,Alive])
    · intro r q hq
      have hq' : weight (builtTok q) (s.frames (.kstack r)) ≠ 0 := by
        by_cases hr : r = cur
        · subst hr
          rw [hfr] at hq
          have := hb q
          rw [hcode] at this
          omega
        · rwa [hother r hr] at hq
      exact hC.built_keep hl (by simp) hq'

theorem Core.alloc {i : ℕ} (hC : Core mq s)
    (hk : code s c = .allocproc cur i::k) (hp : (s.proc p).state = .unused)
    (hl : Local s (goto (allocSlot s c cl p) c (.release .ptable::.allocStack cur p::k)) c none)
    (ht : Typed mq (goto (allocSlot s c cl p) c (.release .ptable::.allocStack cur p::k)) c) :
    Core mq (goto (allocSlot s c cl p) c (.release .ptable::.allocStack cur p::k)) := by
  obtain ⟨H,-,-,hst,rfl⟩ := (hC.cpu c).rule hk
  refine hC.forkStep hl ht rfl hst (by rw [hk]; rfl) rfl (fun _ => rfl) (by simp [hp,Alive])
    (by simp [hp]) (allocSlot_state s c cl p) (by simp) (by simp [Alive]) ?_ ?_
  · intro q
    rw [hk,allocSlot_state]
    by_cases hq : q = p
    · subst hq
      simp [forkTok,sysTail,hp]
    · simp [forkTok,sysTail,hq,Ne.symm hq]
  · intro q
    simp [hk,builtTok]

theorem Core.allocFail {pc : Pc cfg} (hC : Core mq s) (hk : code s c = pc::k)
    (hpc : pc = .allocStack cur p ∨ pc = .forkCopy cur p)
    (hl : Local s (goto (setState s p .unused) c k) c none)
    (ht : Typed mq (goto (setState s p .unused) c k) c) :
    Core mq (goto (setState s p .unused) c k) := by
  have hrule : On s c cur ∧ k = sysTail ∧ mode (code s c) = .plain ∧
      ∀ q, weight (forkTok q) (code s c) = if p = q then 1 else 0 := by
    rcases hpc with rfl | rfl
    · obtain ⟨H,-,-,hst,rfl⟩ := (hC.cpu c).rule hk
      exact ⟨hst,rfl,by rw [hk]; rfl,fun q => by simp [hk,forkTok,sysTail]⟩
    · obtain ⟨H,-,-,hst,rfl⟩ := (hC.cpu c).rule hk
      exact ⟨hst,rfl,by rw [hk]; rfl,fun q => by simp [hk,forkTok,sysTail]⟩
  obtain ⟨hst,rfl,hm,htok⟩ := hrule
  have hp : (s.proc p).state = .embryo := hC.embryo hst (by simp [htok])
  refine hC.forkStep hl ht rfl hst hm rfl (fun _ => rfl) (by simp [hp,Alive]) (by simp [hp])
    (setState_state s p · .unused) (by simp) (by simp [Alive]) ?_ ?_
  · intro q
    rw [htok,setState_state]
    by_cases hq : q = p
    · subst hq
      simp [forkTok,sysTail,hp]
    · simp [forkTok,sysTail,hq,Ne.symm hq]
  · intro q
    simp [builtTok,sysTail]

theorem Core.forkRun (hC : Core mq s) (hk : code s c = .forkRun p::k)
    (hm : mode k' = .plain) (hw : ∀ j, weight (wakeTok j) k' = 0)
    (hf : ∀ q, weight (forkTok q) k' = 0) (hb : ∀ q, weight (builtTok q) k' = 0)
    (hl : Local s (goto (setState (logProc s c cl p .fork .runnable) p .runnable) c k') c none)
    (ht : Typed mq (goto (setState (logProc s c cl p .fork .runnable) p .runnable) c k') c) :
    Core mq (goto (setState (logProc s c cl p .fork .runnable) p .runnable) c k') := by
  obtain ⟨H,-,-,hst,rfl⟩ := (hC.cpu c).rule hk
  obtain ⟨cur,hon,-⟩ := (hC.cpu c).on_of_isKstack hst
  have hp : (s.proc p).state = .embryo := hC.embryo hon (by simp [hk,forkTok])
  have hbuilt : weight (builtTok p) (s.frames (.kstack cur)) ≠ 0 := by
    have hcode : code s c = s.frames (.kstack cur) := by rw [code,hon.stack_eq]
    rw [← hcode,hk]
    simp [builtTok]
  refine hC.forkStep hl ht rfl hon (by rw [hk]; rfl) hm hw (by simp [hp,Alive]) (by simp [hp])
    (setState_state _ p · .runnable) (by simp) (fun _ => hC.built_keep hl (by simp) hbuilt) ?_ ?_
  · intro q
    rw [hf,hk,setState_state]
    by_cases hq : q = p
    · subst hq
      simp [forkTok,sysTail,hp]
    · simp [forkTok,sysTail,hq,Ne.symm hq,logProc]
  · intro q
    rw [hb]
    exact Nat.zero_le _

theorem Core.allocOk (hC : Core mq s) (hk : code s c = .allocStack cur p::k)
    (hl : Local s (goto (buildStack s p) c (.forkCopy cur p::k)) c (some p))
    (ht : Typed mq (goto (buildStack s p) c (.forkCopy cur p::k)) c) :
    Core mq (goto (buildStack s p) c (.forkCopy cur p::k)) := by
  have hp := hC.allocating hk
  obtain ⟨H,-,-,hst,rfl⟩ := (hC.cpu c).rule hk
  have hon : On s c cur := hst
  have hrun : (s.proc cur).state = .running := hC.runs c cur hon (by rw [hk]; rfl)
  have hcur : cur ≠ p := by
    rintro rfl
    rw [hp] at hrun
    cases hrun
  have hstate : ∀ q, ((goto (buildStack s p) c (.forkCopy cur p::sysTail)).proc q).state =
      (s.proc q).state := by
    intro q
    by_cases hq : q = p <;> simp [goto,buildStack,setProc,hq]
  have hcode : code s c = s.frames (.kstack cur) := by rw [code,hst]
  have hfcur : (goto (buildStack s p) c (.forkCopy cur p::sysTail)).frames (.kstack cur) =
      .forkCopy cur p::sysTail := by simp [goto,buildStack,setProc,hst]
  have hfp : (goto (buildStack s p) c (.forkCopy cur p::sysTail)).frames (.kstack p) =
      [.forkret,.user] := by simp [goto,buildStack,setProc,hst,Ne.symm hcur]
  have hother : ∀ r, r ≠ cur → r ≠ p → (goto (buildStack s p) c
      (.forkCopy cur p::sysTail)).frames (.kstack r) = s.frames (.kstack r) := by
    intro r hr hrp
    exact hl.frames _ (by rw [hst]; simpa using hr) (by simpa using hrp)
  have hsaved : Saved mq (goto (buildStack s p) c (.forkCopy cur p::sysTail)) p := by
    refine ⟨by simp [goto,buildStack,setProc],by simp [goto,buildStack,setProc],?_,?_⟩
    · rw [hfp]
      exact ⟨rfl,trivial,rfl⟩
    · rw [hfp]
      exact .bare _ rfl
  refine hC.stay hl (by rintro q hq; cases hq; exact hp) ht (.refl _)
    (by rw [code_goto,hk]; rfl) (fun q => .inl (hstate q)) ?_ (.inr fun j hj => by rw [hstate,hj]) ?_
  · intro j hj
    simp [wakeTok,sysTail] at hj
  · refine .change hC hon ?_ ?_ ?_ ?_
    · intro q
      rw [hfcur,hk,hstate]
      simp [forkTok]
    · intro r hr q
      by_cases hrp : r = p
      · subst hrp
        rw [hfp,hC.fork.dead r q (by simp [hp,Alive])]
        rfl
      · rw [hother r hr hrp]
    · intro r hr
      rw [hstate] at hr
      refine ⟨?_,hr⟩
      rintro rfl
      exact hr (by simp [hrun,Alive])
    · intro r q hq
      by_cases hqp : q = p
      · exact hqp ▸ hsaved
      · have hq' : weight (builtTok q) (s.frames (.kstack r)) ≠ 0 := by
          by_cases hr : r = cur
          · subst hr
            rw [hfcur] at hq
            simp [builtTok,sysTail,Ne.symm hqp] at hq
          · by_cases hrp : r = p
            · subst hrp
              rw [hfp] at hq
              simp [builtTok] at hq
            · rwa [hother r hr hrp] at hq
        exact hC.built_keep hl (by simpa using Ne.symm hqp) hq'

/-- A sleeping process is set to RUNNABLE by a CPU that holds `ptable.lock`. It
may still be on its way to its scheduler. -/
theorem Core.wake (hC : Core mq s) (hl : Local s (goto s₁ c k') c none) (ht : Typed mq (goto s₁ c k') c)
    (hcpu : s₁.cpu = s.cpu) (hm : mode k' = mode (code s c))
    (hw : ∀ j, weight (wakeTok j) k' = 0) (hp : (s.proc p).state = .sleeping)
    (hlock : s.lock .ptable = some c)
    (hstate : ∀ q, (s₁.proc q).state = if q = p then .runnable else (s.proc q).state)
    (hf : ∀ q, weight (forkTok q) k' = weight (forkTok q) (code s c))
    (hb : ∀ q, weight (builtTok q) k' = weight (builtTok q) (code s c)) :
    Core mq (goto s₁ c k') := by
  refine hC.jump hl ht hcpu hm ?_ (fun j hj => absurd (hw j) hj) (.inl hlock)
    (.jump hC hl (by rw [hcpu]) hf hb ?_ ?_)
  · intro q
    by_cases hq : q = p
    · subst hq
      have hq' : ((goto s₁ c k').proc q).state = .runnable := (hstate q).trans (if_pos rfl)
      refine .inr ⟨by simp [hp],by simp [hq'],fun d => hC.not_taken (by simp [hp]) (by simp [hp]),
        fun d _ => by simp [hp,hq',Resting],fun _ hno => ?_⟩
      exact (hC.saved q (by simp [hp,Alive]) hno).keep hl (hno c) (by simp)
    · exact .inl (by rw [hstate,if_neg hq])
  · intro q
    rw [hstate]
    by_cases hq : q = p
    · subst hq
      simp [hp]
    · rw [if_neg hq]
  · intro q hq
    rw [hstate] at hq
    by_cases hqp : q = p
    · simp [hqp,Alive] at hq
    · rwa [if_neg hqp] at hq

theorem Core.reap {i : ℕ} (hC : Core mq s) (hk : code s c = .waitScan p i b::k)
    (hst : (s.proc q).state = .zombie) (hno : ∀ d, ¬ On s d q)
    (hl : Local s (goto (freeSlot s c cl q) c (.release .ptable::k)) c none)
    (ht : Typed mq (goto (freeSlot s c cl q) c (.release .ptable::k)) c) :
    Core mq (goto (freeSlot s c cl q) c (.release .ptable::k)) := by
  obtain ⟨H,-,-,-,rfl⟩ := (hC.cpu c).rule hk
  refine hC.jump hl ht rfl (by rw [hk]; rfl) ?_ (by simp [wakeTok,sysTail]) (.inr ?_)
    (.jump hC hl rfl (by simp [hk,forkTok]) (by simp [hk,builtTok]) ?_ ?_)
  · intro r
    by_cases hr : r = q
    · subst hr
      have hr' : ((goto (freeSlot s c cl r) c (.release .ptable::sysTail)).proc r).state =
          .unused := (freeSlot_state s c cl r r).trans (if_pos rfl)
      exact .inr ⟨by simp [hst],by simp [hr'],
        fun d => hC.not_taken (by simp [hst]) (by simp [hst]),fun d hd => absurd hd (hno d),
        fun ha => by simp [hr',Alive] at ha⟩
    · exact .inl (by rw [freeSlot_state,if_neg hr])
  · intro j hj
    rw [freeSlot_state,if_neg]
    · exact hj
    · rintro rfl
      rw [hst] at hj
      cases hj
  · intro r
    rw [freeSlot_state]
    by_cases hr : r = q
    · subst hr
      simp [hst]
    · rw [if_neg hr]
  · intro r hr
    rw [freeSlot_state] at hr
    by_cases hrq : r = q
    · subst hrq
      simp [hst,Alive]
    · rwa [if_neg hrq] at hr

/-- The running process gives up the CPU: it enters `sched` with its state changed. -/
theorem Core.enterSched {st : ProcState} (hC : Core mq s)
    (hl : Local s (giveUp s₁ c p st k') c none) (ht : Typed mq (giveUp s₁ c p st k') c)
    (hcpu : s₁.cpu = s.cpu) (hon : On s c p) (hm : mode (code s c) = .plain) (hr : Resting st)
    (hstate : ∀ q, (s₁.proc q).state = (s.proc q).state)
    (hw : ∀ j, weight (wakeTok j) k' = 0)
    (hf : ∀ q, weight (forkTok q) k' = weight (forkTok q) (code s c))
    (hb : ∀ q, weight (builtTok q) k' = weight (builtTok q) (code s c))
    (hz : ¬ Alive st → ∀ q, weight (forkTok q) k' = 0) : Core mq (giveUp s₁ c p st k') := by
  have hok := hC.cpu c
  have hrun : (s.proc p).state = .running := hC.runs c p hon hm
  have hc' : (giveUp s₁ c p st k').cpu = s.cpu := hcpu
  have hcode : code (giveUp s₁ c p st k') c = .sched::k' := code_goto _ _ _
  have hst' : ∀ q, ((giveUp s₁ c p st k').proc q).state = if q = p then st else (s.proc q).state := by
    intro q
    rw [← hstate q]
    exact setState_state s₁ p q st
  have hon' : ∀ q, On (giveUp s₁ c p st k') c q ↔ On s c q := by
    intro q
    unfold On
    rw [hc']
  have hat : ∀ q, At (giveUp s₁ c p st k') c q → q = p := by
    rintro q (h | h | h)
    · exact On.unique ((hon' q).mp h) hon
    · rw [hcode] at h
      cases h
    · rw [hcode] at h
      cases h
  have hfr : (giveUp s₁ c p st k').frames (s.cpu c).stack = .sched::k' := by
    rw [← hcode,code,hc']
  have hne : ∀ q, (s.proc q).state ≠ .running → q ≠ p := by
    rintro q hq rfl
    exact hq hrun
  refine hC.move hl (by simp) ⟨⟨ht,by rw [hc']; exact hok.own,?_,?_,?_,?_⟩,?_,?_,?_,?_,?_,?_,?_,?_,
    .inr ?_,?_,?_⟩
  · intro q hq
    rw [hc']
    exact hok.kproc q ((hon' q).mp hq)
  · intro r hr
    rw [hc',hon.stack_eq] at hr
    cases hr
  · intro q hq
    rw [hc',hl.frames _ (by rw [hon.stack_eq]; simp) (by simp)]
    exact hok.home q ((hon' q).mp hq)
  · intro d hd
    rw [hcode] at hd
    cases hd
  · intro q hq
    rw [hat q hq]
    exact .inl (.inl hon)
  · intro q _ hp
    rw [hcode] at hp
    cases hp
  · intro q d hq _
    rw [hst',if_pos (On.unique ((hon' q).mp hq) hon)]
    exact hr
  · intro q hq
    rw [hcode] at hq
    cases hq
  · intro q hq
    rw [hcode] at hq
    cases hq
  · intro q
    by_cases hq : q = p
    · subst hq
      refine .inr ⟨fun d hd ht => hd (hC.single d c q (.inr ht) (.inl hon)),fun d hd ho => ?_⟩
      exact absurd (hC.single d c q (.inl ho) (.inl hon)) hd
    · exact .inl (by rw [hst',if_neg hq])
  · intro q hq
    rw [hst'] at hq
    by_cases hqp : q = p
    · rw [if_pos hqp] at hq
      rw [hq] at hr
      exact hr.elim
    · rw [if_neg hqp] at hq
      refine .inr ⟨hq,?_⟩
      rintro (h | h | h)
      · exact hqp (On.unique h hon)
      · rw [hm] at h
        cases h
      · rw [hm] at h
        cases h
  · intro j hj
    rw [hcode] at hj
    exact absurd (hw j) (by simpa [wakeTok] using hj)
  · intro j hj
    rw [hst',if_neg (hne j (by simp [hj])),hj]
  · intro q _ hno hch
    have hqp : q ≠ p := by
      rintro rfl
      exact hno c ((hon' q).mpr hon)
    rcases hch with hch | hch
    · rw [hst',if_neg hqp] at hch
      exact absurd rfl hch
    · exact absurd (On.unique hch hon) hqp
  · refine .same hC hl (fun q => by rw [hfr]; simpa [forkTok] using hf q)
      (fun q => by rw [hfr]; simpa [builtTok] using hb q) ?_ ?_
    · intro q
      rw [hst']
      by_cases hq : q = p
      · subst hq
        rw [if_pos rfl,hrun]
        refine ⟨fun h => ?_,by simp⟩
        rw [h] at hr
        exact hr.elim
      · rw [if_neg hq]
    · intro q hq ha r
      rw [hst'] at hq
      by_cases hqp : q = p
      · rw [if_pos hqp] at hq
        rw [hqp,← hon.stack_eq,hfr]
        simpa [forkTok] using hz hq r
      · rw [if_neg hqp] at hq
        exact absurd ha hq

theorem Core.sched (hC : Core mq s) (hk : code s c = .sched::k)
    (hp : (s.cpu c).proc = some p) (hk' : k' = .swtch p c b::k ∨ k' = .release .ptable::.swtch p c b::k)
    (hl : Local s (goto (setProc s p fun q => {q with scheds := q.scheds+1}) c k') c none)
    (ht : Typed mq (goto (setProc s p fun q => {q with scheds := q.scheds+1}) c k') c) :
    Core mq (goto (setProc s p fun q => {q with scheds := q.scheds+1}) c k') := by
  have hok := hC.cpu c
  obtain ⟨H,-,-,hst,hcalm,-⟩ := hok.rule hk
  obtain ⟨p',hon,hp'⟩ := hok.on_of_isKstack hst
  have hpp : p' = p := by
    rw [hp'] at hp
    exact Option.some.inj hp
  subst hpp
  have hm : mode (code s c) = .leaving none := by rw [hk]; rfl
  have hm' : mode k' = .leaving (some c) := by rcases hk' with rfl | rfl <;> rfl
  have hstate : ∀ q, ((goto (setProc s p' fun q => {q with scheds := q.scheds+1}) c k').proc
      q).state = (s.proc q).state := by
    intro q
    by_cases hq : q = p' <;> simp [goto,setProc,hq]
  have htok : (∀ j, weight (wakeTok j) k' = weight (wakeTok j) k) ∧
      (∀ q, weight (forkTok q) k' = weight (forkTok q) (code s c)) ∧
      ∀ q, weight (builtTok q) k' = weight (builtTok q) (code s c) := by
    rw [hk]
    rcases hk' with rfl | rfl <;> simp [wakeTok,forkTok,builtTok]
  have hat : ∀ q, At (goto (setProc s p' fun q => {q with scheds := q.scheds+1}) c k') c q ↔
      At s c q := by
    intro q
    unfold At Taken
    rw [code_goto,hm,hm']
    simp [On,goto,setProc]
  refine hC.move hl (by simp) ⟨⟨ht,hok.own,hok.kproc,?_,?_,?_⟩,fun q hq => .inl ((hat q).mp hq),?_,
    ?_,?_,?_,fun q => .inl (hstate q),?_,?_,.inr fun j hj => by rw [hstate,hj],?_,?_⟩
  · intro r hr
    rw [show ((goto (setProc s p' fun q => {q with scheds := q.scheds+1}) c k').cpu c).stack =
      .kstack p' from hon] at hr
    cases hr
  · intro q hq
    rw [hl.frames _ (by rw [hon.stack_eq]; simp) (by simp)]
    exact hok.home q hq
  · intro d hd
    rw [code_goto,hm'] at hd
    cases hd
    rfl
  · intro q _ hq
    rw [code_goto,hm'] at hq
    cases hq
  · intro q d hq _
    rw [hstate]
    exact hC.rests c q none hq hm
  · intro q hq
    rw [code_goto,hm'] at hq
    cases hq
  · intro q hq
    rw [code_goto,hm'] at hq
    cases hq
  · intro q hq
    rw [hstate] at hq
    by_cases hc : At s c q
    · exact .inl ((hat q).mpr hc)
    · exact .inr ⟨hq,hc⟩
  · intro j hj
    have := weight_le (wakeTok_le_setTok j) k
    rw [code_goto,htok.1] at hj
    have hz := hcalm.settled j
    omega
  · intro q _ hno hch
    rcases hch with hch | hch
    · exact absurd (hstate q) hch
    · exact absurd hch (hno c)
  · exact .jump hC hl rfl htok.2.1 htok.2.2 (fun q => by rw [← hstate q]; rfl)
      fun q hq => by rw [← hstate q]; exact hq

theorem Core.schedMove (hC : Core mq s)
    (hl : Local s (goto s₁ c k') c none) (ht : Typed mq (goto s₁ c k') c)
    (hst : (s.cpu c).stack = .sched c) (hcpu : (s₁.cpu c).stack = (s.cpu c).stack)
    (hproc : (s₁.cpu c).proc = (mode k').target) (hcur : ∀ d, mode k' ≠ .leaving d)
    (hw : ∀ j, weight (wakeTok j) k' = 0)
    (hf : ∀ q, weight (forkTok q) k' = weight (forkTok q) (code s c))
    (hb : ∀ q, weight (builtTok q) k' = weight (builtTok q) (code s c))
    (hclaim : ∀ q, mode k' = .taking q ∨ mode k' = .switching q → Taken s c q ∨ ∀ d, ¬ At s d q)
    (htaking : ∀ q, mode k' = .taking q → (s₁.proc q).state = .runnable)
    (hswitching : ∀ q, mode k' = .switching q → (s₁.proc q).state = .running)
    (hstate : ∀ q, (s₁.proc q).state = (s.proc q).state ∨
      (s.proc q).state = .runnable ∧ (s₁.proc q).state = .running ∧ mode k' = .switching q)
    (hrun : ∀ q, (s.proc q).state = .running → Taken s c q → mode k' = .switching q) :
    Core mq (goto s₁ c k') := by
  have hst' : ((goto s₁ c k').cpu c).stack = .sched c := hcpu.trans hst
  have hnon : ∀ q, ¬ On (goto s₁ c k') c q := by
    intro q hq
    rw [On,hst'] at hq
    cases hq
  have hnon' : ∀ q, ¬ On s c q := by
    intro q hq
    rw [On,hst] at hq
    cases hq
  have hother : ∀ q d, d ≠ c → mode k' = .switching q → ¬ At s d q := by
    intro q d hd hm ha
    rcases hclaim q (.inr hm) with h | h
    · exact hd (hC.single d c q ha (.inr h))
    · exact h d ha
  refine hC.move hl (by simp) ⟨⟨ht,?_,fun q hq => absurd hq (hnon q),?_,
    fun q hq => absurd hq (hnon q),?_⟩,?_,fun q hq => absurd hq (hnon q),
    fun q _ hq => absurd hq (hnon q),?_,?_,?_,?_,?_,.inr ?_,?_,?_⟩
  · intro r hr
    rw [hst'] at hr
    cases hr
    rfl
  · intro r _
    rw [code_goto]
    exact hproc
  · intro d hd
    rw [code_goto] at hd
    exact absurd hd (hcur _)
  · rintro q (hq | hq)
    · exact absurd hq (hnon q)
    · unfold Taken at hq
      rw [code_goto] at hq
      exact (hclaim q hq).imp .inr id
  · intro q hq
    rw [code_goto] at hq
    exact htaking q hq
  · intro q hq
    rw [code_goto] at hq
    exact hswitching q hq
  · intro q
    rcases hstate q with h | ⟨-,-,h⟩
    · exact .inl h
    · exact .inr ⟨fun d hd ht => hother q d hd h (.inr ht),
        fun d hd ho => absurd (.inl ho) (hother q d hd h)⟩
  · intro q hq
    have hsw : mode k' = .switching q → At (goto s₁ c k') c q := by
      intro h
      exact .inr (.inr (by rw [code_goto,h]))
    rcases hstate q with h | ⟨-,-,h⟩
    · have hq' : (s.proc q).state = .running := h.symm.trans hq
      by_cases ha : At s c q
      · rcases ha with ha | ha
        · exact absurd ha (hnon' q)
        · exact .inl (hsw (hrun q hq' ha))
      · exact .inr ⟨hq',ha⟩
    · exact .inl (hsw h)
  · intro j hj
    rw [code_goto] at hj
    exact absurd (hw j) hj
  · intro j hj
    rcases hstate j with h | ⟨h,-,-⟩
    · exact h.trans hj
    · rw [hj] at h
      cases h
  · intro q _ hno hch
    rcases hch with hch | hch
    · rcases hstate q with h | ⟨h,-,-⟩
      · exact absurd h hch
      · refine (hC.saved q (by simp [h,Alive]) fun d hd => ?_).keep hl (hnon' q) (by simp)
        by_cases hdc : d = c
        · exact hnon' q (hdc ▸ hd)
        · exact hno d (by unfold On; rw [(hl.view d hdc).stack]; exact hd)
    · exact absurd hch (hnon' q)
  · refine .jump hC hl hcpu hf hb ?_ ?_
    · intro q
      rcases hstate q with h | ⟨h,h',-⟩
      · rw [h]
      · simp [h,h']
    · intro q hq
      rcases hstate q with h | ⟨-,h',-⟩
      · rwa [h] at hq
      · simp [h',Alive] at hq

theorem Core.resume {pc : Pc cfg} (hC : Core mq s) (hk : code s c = pc::k)
    (hpc : ∀ l, pc ≠ .spin l) (hm : mode (code s c) = .switching p)
    (hst : (s.cpu c).stack = .sched c)
    (hH : ∀ H, Wf mq (s.cpu c).stack H (pc::k) → H = resumeLocks mq)
    (hf : ∀ q, weight (forkTok q) (code s c) = 0) (hb : ∀ q, weight (builtTok q) (code s c) = 0)
    (hl : Local s (switchTo s c p (homeFrames mq c p)) c none) :
    Core mq (switchTo s c p (homeFrames mq c p)) := by
  have hok := hC.cpu c
  have hrun := hC.switching c p hm
  have hnon : ∀ q, ¬ On s c q := by
    intro q hq
    rw [On,hst] at hq
    cases hq
  have hsaved : Saved mq s p := by
    refine hC.saved p (by simp [hrun,Alive]) fun d hd => ?_
    have hdc := hC.single d c p (.inl hd) (.inr (.inr hm))
    exact hnon p (hdc ▸ hd)
  have hs' : ((switchTo s c p (homeFrames mq c p)).cpu c).stack = .kstack p := by
    simp [switchTo,setCpu,goto,hsaved.stack]
  have hcode : code (switchTo s c p (homeFrames mq c p)) c = s.frames (.kstack p) := by
    rw [code,hs']
    simp [switchTo,setCpu,goto,hst]
  have hfr : (switchTo s c p (homeFrames mq c p)).frames (.sched c) = homeFrames mq c p := by
    simp [switchTo,setCpu,goto,hst]
  have honp : ∀ q, On (switchTo s c p (homeFrames mq c p)) c q → q = p := by
    intro q hq
    rw [On,hs'] at hq
    exact (Stack.kstack.inj hq).symm
  obtain ⟨H,hh,hw⟩ := hok.rule hk
  rw [unspin_cons hpc] at hw
  have hHeq := hH H hw
  refine hC.move hl (by simp) ⟨⟨⟨H,⟨hh.locks,hh.nodup,?_,?_⟩,?_⟩,?_,?_,?_,?_,?_⟩,?_,?_,?_,?_,?_,
    fun _ => .inl rfl,?_,?_,.inr fun j hj => hj,?_,?_⟩
  · have hn := hh.ncli
    rw [hk,hw.spinning.1] at hn
    rw [hcode,hsaved.wf.spinning.1]
    simpa [switchTo,setCpu,goto] using hn
  · simpa [switchTo,setCpu,goto] using hh.off
  · rw [hs',hcode,hsaved.wf.spinning.2,hHeq]
    exact hsaved.wf
  · intro r hr
    rw [hs'] at hr
    cases hr
  · intro q hq
    have hp := hok.sproc c hst
    rw [hm] at hp
    rw [honp q hq]
    simpa [switchTo,setCpu,goto,Mode.target] using hp
  · intro r hr
    rw [hs'] at hr
    cases hr
  · intro q hq
    rw [honp q hq]
    exact ⟨by simp [switchTo,setCpu,goto,hst],hfr⟩
  · intro d hd
    rw [hcode,hsaved.calm.plain] at hd
    cases hd
  · rintro q (hq | hq)
    · rw [honp q hq]
      exact .inl (.inr (.inr hm))
    · rw [Taken,hcode,hsaved.calm.plain] at hq
      rcases hq with hq | hq <;> cases hq
  · intro q hq _
    rw [honp q hq]
    exact hrun
  · intro q d _ hd
    rw [hcode,hsaved.calm.plain] at hd
    cases hd
  · intro q hq
    rw [hcode,hsaved.calm.plain] at hq
    cases hq
  · intro q hq
    rw [hcode,hsaved.calm.plain] at hq
    cases hq
  · intro q hq
    by_cases hqp : q = p
    · rw [hqp]
      exact .inl (.inl hs')
    · refine .inr ⟨hq,?_⟩
      rintro (h | h | h)
      · exact hnon q h
      · rw [hm] at h
        cases h
      · rw [hm] at h
        exact hqp (Mode.switching.inj h).symm
  · intro j hj
    have := weight_le (wakeTok_le_setTok j) (s.frames (.kstack p))
    have hz := hsaved.calm.settled j
    rw [hcode] at hj
    omega
  · intro q _ _ hch
    rcases hch with hch | hch
    · exact absurd rfl hch
    · exact absurd hch (hnon q)
  · refine .same hC hl ?_ ?_ (fun _ => Iff.rfl) fun q h ha => absurd ha h
    · intro q
      rw [hst,hfr,hf]
      cases mq <;> rfl
    · intro q
      rw [hst,hfr,hb]
      cases mq <;> rfl

/-- The frames a process leaves behind in `sched`. -/
def leftFrames (mq : Bool) (cur : cfg.CpuId) (b : Bool) (k : List (Pc cfg)) : List (Pc cfg) :=
  if mq then .acquire .ptable::.schedIntena cur b::k else .schedIntena cur b::k

theorem leftFrames_calm {cur : cfg.CpuId} (hk : Calm k) : Calm (leftFrames mq cur b k) := by
  cases mq
  · exact hk.append [.schedIntena cur b] rfl
  · exact hk.append [.acquire .ptable,.schedIntena cur b] rfl

theorem leftFrames_wf {st : Stack cfg} {cur : cfg.CpuId} (hst : isKstack st)
    (hk : Calm k) (hw : Wf mq st [.ptable] k) : Wf mq st (resumeLocks mq) (leftFrames mq cur b k) := by
  have hc := hk.append [.schedIntena cur b] rfl
  cases mq
  · exact ⟨rfl,hst,hw⟩
  · exact ⟨⟨by simp [resumeLocks],fun _ => hc.settled,fun ⟨j,hj⟩ => absurd (hc.queued j) hj,by simp,
      fun _ => by simp [modeOf,hk.plain],nofun,nofun⟩,rfl,hst,hw⟩

/-- A process in `sched` switches to the scheduler of its CPU. -/
theorem Core.leave {cur : cfg.CpuId} (hC : Core mq s) (hk : code s c = .swtch p cur b::k)
    (hl : Local s (switchFrom s c p (s.cpu (if mq then cur else c)).scheduler
      (leftFrames mq cur b k)) c none) :
    Core mq (switchFrom s c p (s.cpu (if mq then cur else c)).scheduler (leftFrames mq cur b k)) := by
  have hok := hC.cpu c
  obtain ⟨H,hh,hw⟩ := hok.rule hk
  have hwk := hw
  obtain ⟨hH,hst,hcalm,hwk⟩ := hwk
  have hon : On s c p := hst
  have hm : mode (code s c) = .leaving (some cur) := by rw [hk]; rfl
  have hcur : (if mq then cur else c) = c := by rw [hok.cur cur hm]; simp
  rw [hcur] at hl ⊢
  obtain ⟨hsch,hhome⟩ := hok.home p hon
  have hrest := hC.rests c p (some cur) hon hm
  generalize hs' : switchFrom s c p (s.cpu c).scheduler (leftFrames mq cur b k) = s' at hl ⊢
  have hstack : (s'.cpu c).stack = .sched c := by
    simp [← hs',switchFrom,setCpu,goto,hsch]
  have hproc : (s'.cpu c).proc = some p := by
    simpa [← hs',switchFrom,setCpu,goto,setProc] using hok.kproc p hon
  have hcode : code s' c = homeFrames mq c p := by
    rw [code,hstack,← hhome]
    simp [← hs',switchFrom,setCpu,goto,setProc,hst]
  have hmode : mode (code s' c) = .back p := by
    rw [hcode]
    cases mq <;> rfl
  have hfr : s'.frames (.kstack p) = leftFrames mq cur b k := by
    simp [← hs',switchFrom,setCpu,goto,setProc,hst]
  have hstate : ∀ q, (s'.proc q).state = (s.proc q).state := by
    intro q
    by_cases hq : q = p <;> simp [← hs',switchFrom,setCpu,goto,setProc,hq]
  have hnon : ∀ q, ¬ On s' c q := by
    intro q hq
    rw [On,hstack] at hq
    cases hq
  have hnt : ∀ q, ¬ Taken s' c q := by
    rintro q (h | h)
    · rw [hmode] at h
      cases h
    · rw [hmode] at h
      cases h
  refine hC.move hl (by simp) ⟨⟨⟨H,⟨?_,hh.nodup,?_,?_⟩,?_⟩,?_,fun q hq => absurd hq (hnon q),?_,
    fun q hq => absurd hq (hnon q),?_⟩,?_,fun q hq => absurd hq (hnon q),
    fun q _ hq => absurd hq (hnon q),fun q hq => absurd (.inl hq) (hnt q),
    fun q hq => absurd (.inr hq) (hnt q),fun q => .inl (hstate q),?_,?_,
    .inr fun j hj => by rw [hstate,hj],?_,?_⟩
  · intro l
    rw [← hh.locks l,← hs']
    rfl
  · have hn := hh.ncli
    rw [hk,show spinning (.swtch p cur b::k) = 0 from rfl] at hn
    have hz : spinning (code s' c) = 0 := by
      rw [hcode]
      cases mq <;> rfl
    rw [hz,← hn,← hs']
    simp [switchFrom,setCpu,goto,setProc]
  · rw [← hs']
    simpa [switchFrom,setCpu,goto,setProc] using hh.off
  · rw [hstack,hcode,hH]
    cases mq
    · exact ⟨rfl,rfl,⟨c,rfl⟩,rfl⟩
    · exact ⟨rfl,rfl,rfl,rfl⟩
  · intro r hr
    rw [hstack] at hr
    exact (Stack.sched.inj hr).symm
  · intro r _
    rw [hmode,hproc]
    rfl
  · intro d hd
    rw [hmode] at hd
    cases hd
  · rintro q (hq | hq)
    · exact absurd hq (hnon q)
    · exact absurd hq (hnt q)
  · intro q hq
    rw [hstate] at hq
    refine .inr ⟨hq,?_⟩
    rintro (h | h | h)
    · rw [On.unique h hon] at hq
      rw [hq] at hrest
      exact hrest.elim
    · rw [hm] at h
      cases h
    · rw [hm] at h
      cases h
  · intro j hj
    rw [hcode] at hj
    cases mq <;> exact absurd rfl hj
  · intro q _ _ hch
    rcases hch with hch | hch
    · exact absurd (hstate q) hch
    · obtain rfl := On.unique hch hon
      refine ⟨?_,?_,?_,?_⟩
      · simp [← hs',switchFrom,setCpu,goto,setProc,hst]
      · simp [← hs',switchFrom,setCpu,goto,setProc]
      · rw [hfr]
        rw [hst] at hwk
        exact leftFrames_wf trivial hcalm hwk
      · rw [hfr]
        exact leftFrames_calm hcalm
  · refine .same hC hl ?_ ?_ (fun q => by rw [hstate]) fun q h ha => absurd ha (by rwa [hstate] at h)
    · intro q
      rw [hst,hfr,hk]
      cases mq <;> simp [leftFrames,forkTok]
    · intro q
      rw [hst,hfr,hk]
      cases mq <;> simp [leftFrames,builtTok]

end
end Xv6.Handoff
