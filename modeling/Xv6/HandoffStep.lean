import Xv6.HandoffMoves

/-!
# Every step keeps the handover invariant

`Core.step` names for each effect of a step the kind of move it is. In the round-robin kernel
`ptable.lock` is held through every handover, so the side conditions hold in every state.
-/
namespace Xv6.Handoff
open SchedLog KernelState KernelStep Tally Frames Typing Effects

section
variable {cfg : Config} {mq : Bool} {s s' : State cfg} {c d : cfg.CpuId} {cl : Clock}
  {k : List (Pc cfg)} {p q : cfg.Slot}

theorem Side.of_core (hC : Core mq s) (hcond : Cond s c) : Side s c := by
  refine ⟨(hC.cpu c).kproc,hcond.timer,?_⟩
  intro k p hk hp hr
  obtain ⟨H,-,-,hst,-⟩ := (hC.cpu c).rule hk
  obtain ⟨q,hon,hq⟩ := (hC.cpu c).on_of_isKstack hst
  rw [hq] at hp
  cases hp
  have := hC.rests c p none hon (by rw [hk]; rfl)
  rw [hr] at this
  exact this

/-- In the round-robin kernel a CPU in a handover holds `ptable.lock`. -/
theorem lock_of_mode (hc : CpuOk false s c) (h : mode (code s c) ≠ .plain) :
    s.lock .ptable = some c := by
  obtain ⟨H,hh,hw⟩ := hc.typed
  by_contra hne
  have hH : Lock.ptable ∉ H := fun hm => hne ((hh.locks _).mpr hm)
  exact h (by simpa using (hw.quiet hH).1 rfl)

theorem Core.rr_free (hC : Core false s) (hlock : s.lock .ptable = some c)
    (hm : mode (code s c) = .plain) (hp : (s.proc p).state = .runnable) : ∀ d, ¬ At s d p := by
  have hmode : ∀ d, mode (code s d) = .plain := by
    intro d
    by_contra hne
    have := lock_of_mode (hC.cpu d) hne
    rw [hlock] at this
    cases this
    exact hne hm
  rintro d (h | h | h)
  · have := hC.runs d p h (hmode d)
    rw [hp] at this
    cases this
  · rw [hmode] at h
    cases h
  · rw [hmode] at h
    cases h

theorem Core.mqSwtch {r : cfg.CpuId} (hC : Core mq s) (hk : code s c = .mqSwtch r p::k)
    (hl : Local s (switchTo s c p (.mqBack r p::k)) c none) :
    Core mq (switchTo s c p (.mqBack r p::k)) := by
  obtain ⟨H,-,hmq,-,hst,rfl⟩ := (hC.cpu c).rule hk
  obtain rfl := (hC.cpu c).own r hst
  subst hmq
  exact hC.resume hk (by simp) (by rw [hk]; rfl) hst (fun H hw => hw.2.1)
    (by simp [hk,forkTok]) (by simp [hk,builtTok]) hl

theorem Core.rrSwtch (hC : Core mq s) (hk : code s c = .rrSwtch p::k)
    (hl : Local s (switchTo s c p (.rrBack p::k)) c none) :
    Core mq (switchTo s c p (.rrBack p::k)) := by
  obtain ⟨H,-,hmq,-,⟨r,hst⟩,rfl⟩ := (hC.cpu c).rule hk
  obtain rfl := (hC.cpu c).own r hst
  subst hmq
  exact hC.resume hk (by simp) (by rw [hk]; rfl) hst (fun H hw => hw.2.1)
    (by simp [hk,forkTok]) (by simp [hk,builtTok]) hl

theorem Core.mqTake {r : cfg.CpuId} (hC : Core mq s) (hcond : Cond s c) (hk : code s c = .mqTake r p::k)
    (hl : Local s (goto (takeProc s c p) c (.mqMark r p::k)) c none)
    (ht : Typed mq (goto (takeProc s c p) c (.mqMark r p::k)) c) :
    Core mq (goto (takeProc s c p) c (.mqMark r p::k)) := by
  obtain ⟨H,-,hmq,-,hst,rfl⟩ := (hC.cpu c).rule hk
  obtain rfl := (hC.cpu c).own r hst
  obtain ⟨hrun,hfree⟩ := hcond.take r p _ hk
  refine hC.schedMove hl ht hst (by simp [takeProc,setCpu]) (by simp [takeProc,setCpu,modeOf,Mode.target])
    (by simp [modeOf]) (by simp [wakeTok]) (by simp [hk,forkTok]) (by simp [hk,builtTok]) ?_ ?_ ?_
    (fun q => .inl rfl) ?_
  · rintro q (h | h)
    · cases h
      exact .inr hfree
    · cases h
  · intro q h
    cases h
    exact hrun
  · intro q h
    cases h
  · rintro q - (h | h)
    · rw [hk] at h
      cases h
    · rw [hk] at h
      cases h

theorem Core.mqMark {r : cfg.CpuId} (hC : Core mq s) (hk : code s c = .mqMark r p::k)
    (hl : Local s (goto (markRunning s c cl p) c (.mqSwtch r p::k)) c none)
    (ht : Typed mq (goto (markRunning s c cl p) c (.mqSwtch r p::k)) c) :
    Core mq (goto (markRunning s c cl p) c (.mqSwtch r p::k)) := by
  obtain ⟨H,-,hmq,-,hst,rfl⟩ := (hC.cpu c).rule hk
  obtain rfl := (hC.cpu c).own r hst
  have hm : mode (code s r) = .taking p := by rw [hk]; rfl
  have hproc := (hC.cpu r).sproc r hst
  rw [hm] at hproc
  refine hC.schedMove hl ht hst (by simp) (by simpa [modeOf,Mode.target] using hproc)
    (by simp [modeOf]) (by simp [wakeTok]) (by simp [hk,forkTok]) (by simp [hk,builtTok]) ?_ ?_ ?_ ?_ ?_
  · rintro q (h | h)
    · cases h
    · cases h
      exact .inl (.inl hm)
  · intro q h
    cases h
  · intro q h
    cases h
    simp
  · intro q
    by_cases hq : q = p
    · subst hq
      exact .inr ⟨hC.taking r q hm,by simp,rfl⟩
    · exact .inl (by simp [hq])
  · rintro q hq (h | h)
    · rw [hm] at h
      cases h
      rfl
    · rw [hm] at h
      cases h

theorem Core.rrTake {i : ℕ} (hC : Core mq s) (hk : code s c = .rrScan i::k)
    (hp : (s.proc p).state = .runnable)
    (hl : Local s (goto (markRunning (takeProc s c p) c cl p) c (.rrSwtch p::k)) c none)
    (ht : Typed mq (goto (markRunning (takeProc s c p) c cl p) c (.rrSwtch p::k)) c) :
    Core mq (goto (markRunning (takeProc s c p) c cl p) c (.rrSwtch p::k)) := by
  obtain ⟨H,hh,hmq,rfl,⟨r,hst⟩,rfl⟩ := (hC.cpu c).rule hk
  obtain rfl := (hC.cpu c).own r hst
  subst hmq
  have hm : mode (code s r) = .plain := by rw [hk]; rfl
  have hfree := hC.rr_free ((hh.locks _).mpr (by simp)) hm hp
  refine hC.schedMove hl ht hst (by simp [takeProc,setCpu]) (by simp [takeProc,setCpu,modeOf,Mode.target])
    (by simp [modeOf]) (by simp [wakeTok]) (by simp [hk,forkTok]) (by simp [hk,builtTok]) ?_ ?_ ?_ ?_ ?_
  · rintro q (h | h)
    · cases h
    · cases h
      exact .inr hfree
  · intro q h
    cases h
  · intro q h
    cases h
    simp
  · intro q
    by_cases hq : q = p
    · subst hq
      exact .inr ⟨hp,by simp,rfl⟩
    · exact .inl (by simp [hq,takeProc,setCpu])
  · rintro q - (h | h)
    · rw [hm] at h
      cases h
    · rw [hm] at h
      cases h

theorem Core.drop {f : Cpu cfg → Cpu cfg} {pc : Pc cfg} (hC : Core mq s)
    (hst : (s.cpu c).stack = .sched c) (hf : ∀ d, (f d).stack = d.stack)
    (hproc : (f (s.cpu c)).proc = (mode [pc]).target)
    (hpc : (∃ r, pc = .mqIdle r p) ∨ (∃ r, pc = .mqLoop r) ∨ ∃ i, pc = .rrScan i)
    (hm : ∀ q, ¬ Taken s c q) (htok : ∀ q, weight (forkTok q) (code s c) = 0)
    (hl : Local s (goto (setCpu s c f) c [pc]) c none)
    (ht : Typed mq (goto (setCpu s c f) c [pc]) c) : Core mq (goto (setCpu s c f) c [pc]) := by
  have hmode : mode [pc] = .parted p ∨ mode [pc] = .plain := by
    rcases hpc with ⟨r,rfl⟩ | ⟨r,rfl⟩ | ⟨i,rfl⟩ <;> simp [modeOf]
  have hzero : (∀ j, weight (wakeTok j) [pc] = 0) ∧ (∀ j, weight (forkTok j) [pc] = 0) ∧
      ∀ j, weight (builtTok j) [pc] = 0 := by
    rcases hpc with ⟨r,rfl⟩ | ⟨r,rfl⟩ | ⟨i,rfl⟩ <;> simp [wakeTok,forkTok,builtTok]
  refine hC.schedMove hl ht hst (by simp [setCpu,hf]) (by simpa [setCpu] using hproc) ?_ hzero.1
    (fun q => by rw [hzero.2.1,htok]) ?_ ?_ ?_ ?_ (fun q => .inl rfl) fun q _ h => absurd h (hm q)
  · intro d h
    rcases hmode with hmode | hmode <;> (rw [hmode] at h; cases h)
  · intro q
    have := weight_le (builtTok_le_forkTok q) (code s c)
    rw [hzero.2.2]
    have := htok q
    omega
  · rintro q (h | h) <;> rcases hmode with hmode | hmode <;> (rw [hmode] at h; cases h)
  · intro q h
    rcases hmode with hmode | hmode <;> (rw [hmode] at h; cases h)
  · intro q h
    rcases hmode with hmode | hmode <;> (rw [hmode] at h; cases h)

theorem Core.effect {x : Option cfg.Slot} (hC : Core mq s) (hcond : Cond s c)
    (he : Effect mq s c cl x s') (ht : Typed mq s' c) : Core mq s' := by
  have hok := hC.cpu c
  have hl := Local.of_effect hok he
  cases he with
  | quiet hq => exact hC.quiet ht hq
  | execName n k p hk =>
    refine hC.jump_same hl ht rfl (by rw [hk]; rfl) ?_ (by simp [hk,wakeTok])
      (by simp [hk,forkTok]) (by simp [hk,builtTok])
    intro q
    by_cases hq : q = p <;> simp [setProc,hq]
  | alloc cur i k p hk hi hp => exact hC.alloc hk hp hl ht
  | allocFail pc cur np k hk hpc => exact hC.allocFail hk hpc hl ht
  | allocOk cur np k hk => exact hC.allocOk hk hl ht
  | forkCopy cur np k hk =>
    refine hC.jump_same hl ht rfl (by rw [hk]; rfl) ?_ (by simp [hk,wakeTok])
      (by simp [hk,forkTok]) (by simp [hk,builtTok])
    intro q
    by_cases hq : q = np <;> simp [copyProc,logClock,setProc,hq]
  | forkRun np k hk =>
    obtain ⟨H,-,-,-,rfl⟩ := hok.rule hk
    refine hC.forkRun hk ?_ ?_ ?_ ?_ hl ht
    · cases mq <;> rfl
    · cases mq <;> exact fun _ => rfl
    · cases mq <;> exact fun _ => rfl
    · cases mq <;> exact fun _ => rfl
  | yieldLocked p k hk =>
    refine hC.jump_same hl ht rfl ?_ (fun _ => rfl) ?_ ?_ ?_
    · rw [hk]
      cases mq <;> rfl
    · intro j
      cases mq <;> simp [hk,wakeTok]
    · intro j
      cases mq <;> simp [hk,forkTok]
    · intro j
      cases mq <;> simp [hk,builtTok]
  | yieldRunnable p k hk =>
    obtain ⟨H,-,-,hst,hcalm,-⟩ := hok.rule hk
    refine hC.enterSched hl ht rfl hst ?_ trivial (fun _ => rfl) ?_ (by simp [hk,forkTok])
      (by simp [hk,builtTok]) (by simp [Alive])
    · rw [hk]
      exact hcalm.plain
    · intro j
      have := weight_le (wakeTok_le_setTok j) k
      have hz := hcalm.settled j
      simp only [weight_cons,wakeTok]
      omega
  | sched p k b hk hp =>
    refine hC.sched (b := b) hk hp ?_ hl ht
    cases mq <;> simp
  | swtch p cur b k hk => exact hC.leave hk hl
  | sleepLocked p ch l k hk =>
    obtain ⟨H,-,-,-,hst,hcalm,-⟩ := hok.rule hk
    refine hC.enterSched hl ht rfl hst ?_ trivial ?_ ?_ (by simp [hk,forkTok])
      (by simp [hk,builtTok]) (by simp [Alive])
    · rw [hk]
      exact hcalm.plain
    · intro q
      by_cases hq : q = p <;> simp [logProc,setProc,hq]
    · intro j
      have := weight_le (wakeTok_le_setTok j) k
      have hz := hcalm.settled j
      simp only [weight_cons,wakeTok]
      omega
  | wakeHit i ch j k hk hi hj =>
    obtain ⟨H,-,-,-,hset,-⟩ := hok.rule hk
    refine hC.jump hl ht rfl ?_ (fun _ => .inl rfl) ?_ (.inr fun _ h => h) (.jump hC hl rfl ?_ ?_
      (fun _ => Iff.rfl) fun _ h => h)
    · rw [hk]
      cases mq <;> rfl
    · intro q hq
      have hz := hset q
      have := weight_le (wakeTok_le_setTok q) k
      by_cases hqj : j = q
      · subst hqj
        exact hj
      · exfalso
        cases mq <;> simp [wakeTok,hqj] at hq <;> omega
    · intro q
      cases mq <;> simp [hk,forkTok]
    · intro q
      cases mq <;> simp [hk,builtTok]
  | wakeupSet j ch k hk =>
    obtain ⟨H,hh,hpt,-,hset,-⟩ := hok.rule hk
    refine hC.wake hl ht rfl (by rw [hk]; rfl) ?_ (hC.pend c j (by simp [hk,wakeTok]))
      ((hh.locks _).mpr hpt) (setState_state s j · .runnable) (by simp [hk,forkTok])
      (by simp [hk,builtTok])
    intro q
    have := weight_le (wakeTok_le_setTok q) k
    have hz := hset q
    simp only [weight_cons,wakeTok]
    omega
  | killHit pid i p k hk hi hp hst =>
    obtain ⟨H,hh,rfl,-,rfl⟩ := hok.rule hk
    refine hC.wake hl ht rfl (by rw [hk]; rfl) (fun _ => rfl) hst ((hh.locks _).mpr (by simp)) ?_
      (by simp [hk,forkTok]) (by simp [hk,builtTok])
    intro q
    by_cases hq : q = p <;> simp [setProc,hq]
  | exitEnd p i k hk =>
    obtain ⟨H,-,-,hst,rfl⟩ := hok.rule hk
    exact hC.enterSched hl ht rfl hst (by rw [hk]; rfl) trivial (fun _ => rfl) (fun _ => rfl)
      (by simp [hk,forkTok]) (by simp [hk,builtTok]) fun _ _ => rfl
  | reap p i kids q k hk hi hq hst =>
    exact hC.reap hk hst (hcond.reap p i kids k q hk hi hq hst) hl ht
  | dequeue pc r p thief k hk hpc =>
    rcases hpc with ⟨rfl,-⟩ | ⟨t,rfl,-⟩ <;>
      exact hC.jump_same hl ht rfl (by rw [hk]; rfl) (fun _ => rfl) (by simp [hk,wakeTok])
        (by simp [hk,forkTok]) (by simp [hk,builtTok])
  | unlink r p thief k hk =>
    refine hC.jump_same hl ht rfl ?_ (fun _ => rfl) ?_ ?_ ?_
    · rw [hk]
      cases thief <;> rfl
    · intro j
      cases thief <;> simp [hk,unlinked,wakeTok]
    · intro j
      cases thief <;> simp [hk,unlinked,forkTok]
    · intro j
      cases thief <;> simp [hk,unlinked,builtTok]
  | mqTake r p k hk => exact hC.mqTake hcond hk hl ht
  | mqMark r p k hk => exact hC.mqMark hk hl ht
  | mqSwtch r p k hk => exact hC.mqSwtch hk hl
  | mqBack r p k hk =>
    obtain ⟨H,-,hmq,-,hst,rfl⟩ := hok.rule hk
    obtain rfl := hok.own r hst
    have hm : mode (code s r) = .back p := by rw [hk]; rfl
    have hproc := hok.sproc r hst
    rw [hm] at hproc
    exact hC.drop (p := p) hst (fun _ => rfl) hproc (.inl ⟨r,rfl⟩) (by simp [Taken,hm])
      (by simp [hk,forkTok]) hl ht
  | mqIdle r p k hk =>
    obtain ⟨H,-,hmq,-,hst,rfl⟩ := hok.rule hk
    obtain rfl := hok.own r hst
    have hm : mode (code s r) = .parted p := by rw [hk]; rfl
    exact hC.drop (p := p) hst (fun _ => rfl) rfl (.inr (.inl ⟨r,rfl⟩)) (by simp [Taken,hm])
      (by simp [hk,forkTok]) hl ht
  | rrTake i p k hk hi hp => exact hC.rrTake hk hp hl ht
  | rrSwtch p k hk => exact hC.rrSwtch hk hl
  | rrBack p k hk =>
    obtain ⟨H,-,hmq,-,⟨r,hst⟩,rfl⟩ := hok.rule hk
    obtain rfl := hok.own r hst
    have hm : mode (code s r) = .back p := by rw [hk]; rfl
    exact hC.drop (p := p) hst (fun _ => rfl) rfl (.inr (.inr ⟨_,rfl⟩)) (by simp [Taken,hm])
      (by simp [hk,forkTok]) hl ht
  | _ =>
    exact hC.jump_same hl ht rfl (by rw [‹code s c = _›]; rfl) (fun _ => rfl) (by simp [‹code s c = _›,wakeTok])
      (by simp [‹code s c = _›,forkTok]) (by simp [‹code s c = _›,builtTok])

theorem Core.step {a : Act cfg} (hC : Core mq s) (hcond : Cond s c)
    (h : step mq s c cl a = some s') : Core mq s' := by
  have hside := Side.of_core hC hcond
  obtain ⟨x,he⟩ := step_effect (hC.cpu c).typed hside h
  by_cases hns : ∀ pc k, code s c = pc::k → switches pc = false ∨ a ≠ .go
  · exact hC.effect hcond he (step_typed (hC.cpu c).typed hside hns h)
  · simp only [not_forall,not_or,Bool.not_eq_false,ne_eq,not_not] at hns
    obtain ⟨pc,k,hk,hsw,rfl⟩ := hns
    simp only [KernelStep.step,hk] at h
    cases pc
    case swtch p cur b =>
      have he : Effect mq s c cl none _ := .swtch p cur b k hk
      have hC' := hC.leave hk (Local.of_effect (hC.cpu c) he)
      cases mq <;> cases h <;> exact hC'
    case mqSwtch r p =>
      cases h
      exact hC.mqSwtch hk (Local.of_effect (hC.cpu c) (.mqSwtch r p k hk : Effect mq s c cl none _))
    case rrSwtch p =>
      cases h
      exact hC.rrSwtch hk (Local.of_effect (hC.cpu c) (.rrSwtch p k hk : Effect mq s c cl none _))
    all_goals simp [switches] at hsw

theorem Cond.of_rr (hC : Core false s) (c : cfg.CpuId) : Cond s c := by
  have hok := hC.cpu c
  refine ⟨?_,?_,?_⟩
  · intro r p k hk
    obtain ⟨H,-,hmq,-⟩ := hok.rule hk
    cases hmq
  · intro p i b k q hk _ _ hq d hd
    obtain ⟨H,hh,rfl,-,rfl⟩ := hok.rule hk
    have hlock := (hh.locks .ptable).mpr (by simp)
    rcases hC.on_state hd with ⟨-,h⟩ | ⟨⟨e,he⟩,-⟩
    · rw [hq] at h
      cases h
    · have hlock' := lock_of_mode (hC.cpu d) (by rw [he]; simp)
      rw [hlock] at hlock'
      cases hlock'
      rw [hk] at he
      cases he
  · intro usr k p hk hp _
    obtain ⟨H,-,rfl,-,hw⟩ := hok.rule hk
    have hm := (hw.quiet (by simp)).1 rfl
    refine ⟨?_,hm⟩
    cases hst : (s.cpu c).stack with
    | kstack => trivial
    | sched r =>
      have hn := hok.sproc r hst
      rw [hk,hp] at hn
      simp [modeOf,hm,Mode.target] at hn

theorem Core.boot (cfg : Config) (mq : Bool) : Core mq (boot cfg mq) := by
  have hcode : ∀ c, code (KernelStep.boot cfg mq) c = if mq then [.mqLoop c] else [.rrLoop] :=
    fun _ => rfl
  have hmode : ∀ c, mode (code (KernelStep.boot cfg mq) c) = .plain := by
    intro c
    rw [hcode]
    cases mq <;> rfl
  have hon : ∀ c p, ¬ On (KernelStep.boot cfg mq) c p := by
    intro c p h
    cases h
  have hat : ∀ c p, ¬ At (KernelStep.boot cfg mq) c p := by
    rintro c p (h | h | h)
    · exact hon c p h
    · rw [hmode] at h
      cases h
    · rw [hmode] at h
      cases h
  have hframes : ∀ p, (KernelStep.boot cfg mq).frames (.kstack p) = [.forkret,.user] ∨
      (KernelStep.boot cfg mq).frames (.kstack p) = [] := by
    intro p
    by_cases hp : p.val = 0 <;> simp [KernelStep.boot,hp]
  have hstate : ∀ p, ((KernelStep.boot cfg mq).proc p).state = .runnable ∧ p.val = 0 ∨
      ((KernelStep.boot cfg mq).proc p).state = .unused := by
    intro p
    by_cases hp : p.val = 0 <;> simp [KernelStep.boot,hp]
  refine ⟨?_,fun c d p h => absurd h (hat c p),fun c p h => absurd h (hon c p),
    fun c p d h => absurd h (hon c p),?_,?_,?_,?_,?_,?_,?_,?_⟩
  · intro c
    refine ⟨⟨[],⟨by simp [KernelStep.boot],by simp,?_,by simp [KernelStep.boot]⟩,?_⟩,?_,
      fun p h => absurd h (hon c p),?_,fun p h => absurd h (hon c p),?_⟩
    · rw [hcode]
      cases mq <;> rfl
    · rw [hcode]
      cases mq
      · exact ⟨rfl,rfl,⟨c,rfl⟩,rfl⟩
      · exact ⟨rfl,rfl,rfl,rfl⟩
    · intro r h
      cases h
      rfl
    · intro r _
      rw [hmode]
      rfl
    · intro d h
      rw [hmode] at h
      cases h
  · intro c p h
    rw [hmode] at h
    cases h
  · intro c p h
    rw [hmode] at h
    cases h
  · intro p h
    rcases hstate p with ⟨h',-⟩ | h' <;> (rw [h] at h'; cases h')
  · intro c j h
    rw [hcode] at h
    cases mq <;> exact absurd rfl h
  · intro p h _
    rcases hstate p with ⟨-,hp⟩ | h'
    · have hf : (KernelStep.boot cfg mq).frames (.kstack p) = [.forkret,.user] := by
        simp [KernelStep.boot,hp]
      refine ⟨by simp [KernelStep.boot,hp],by simp [KernelStep.boot,hp],?_,?_⟩
      · rw [hf]
        cases mq <;> exact ⟨rfl,trivial,rfl⟩
      · rw [hf]
        exact .bare _ rfl
    · rw [h'] at h
      exact h.elim
  · intro q
    have hz : ∀ p, weight (forkTok q) ((KernelStep.boot cfg mq).frames (.kstack p)) = 0 := by
      intro p
      rcases hframes p with h | h <;> (rw [h]; rfl)
    rw [Finset.sum_congr rfl fun p _ => hz p,if_neg]
    · simp
    · rcases hstate q with ⟨h,-⟩ | h <;> simp [h]
  · intro p q _
    rcases hframes p with h | h <;> (rw [h]; rfl)
  · intro p q h
    rcases hframes p with h' | h' <;> (rw [h'] at h; exact absurd rfl h)

end
end Xv6.Handoff
