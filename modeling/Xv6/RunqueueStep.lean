import Xv6.RunqueueMoves

/-!
# Every orderly step keeps the runqueue invariant

Each field of `Sound` survives a step by the classification of its effects. Only two need the step
to be orderly: that no CPU is in a handover while another one holds `ptable.lock`, and that a
scheduler that has dispatched a process has no timer trap under way.
-/
namespace Xv6.Runqueue
open SchedLog KernelState KernelStep Tally Frames Typing Effects Handoff Windows
open Function (update_of_ne update_self)

section
variable {cfg : Config} {s s' : State cfg} {c d : cfg.CpuId} {cl : Clock} {a : Act cfg}
  {k : List (Pc cfg)} {p q : cfg.Slot} {x : Option cfg.Slot}

theorem code_same (hC : Core true s) (he : Effect true s c cl x s') (hd : d ≠ c) :
    code s' d = code s d :=
  hC.code_other (Local.of_effect (hC.cpu c) he) (embryo_of_effect hC he) hd

theorem on_same (hC : Core true s) (he : Effect true s c cl x s') (hd : d ≠ c) :
    On s' d p ↔ On s d p := by
  rw [On,((Local.of_effect (hC.cpu c) he).view d hd).stack,On]

theorem mode_of_on (hC : Core true s) (hon : On s c p) :
    mode (code s c) = .plain ∨ ∃ e, mode (code s c) = .leaving e := by
  rcases hC.on_state hon with ⟨h,-⟩ | ⟨h,-⟩
  · exact .inl h
  · exact .inr h

theorem Sound.alone_step (h : Sound s) (he : Effect true s c cl x s')
    (hs : step true s c cl a = some s') (ho : OrderlyAt s c a) :
    ∀ e d, s'.lock .ptable = some e → d ≠ e → ¬ Handing (mode (code s' d)) := by
  intro e d hl hde hH
  have hapart := (Local.of_effect (h.core.cpu c) he).apart
  by_cases hdc : d = c
  · subst hdc
    have hl₀ := (hapart.lock .ptable e (Ne.symm hde)).mp hl
    have hn := h.alone e d hl₀ hde
    cases Phase.of_effect h.core he with
    | same hm => exact hn (hm ▸ hH)
    | giveUp hm | take p hm => rw [hm] at hH; exact hH
    | sched hld =>
      rw [hld] at hl₀
      exact hde (Option.some.inj hl₀)
    | swtch p hm | back p hm => exact hn (by rw [hm]; trivial)
    | mark r p hm hk => rw [hk] at hH; exact hH
    | resume p hm hm' | idle p hm hm' => rw [hm'] at hH; exact hH
  · rw [code_same h.core he hdc] at hH
    by_cases hec : e = c
    · subst hec
      rcases step_acquired hs hl with hl₀ | ⟨rfl,hw⟩
      · exact h.alone e d hl₀ hdc hH
      · exact ho hw d hdc hH
    · exact h.alone e d ((hapart.lock .ptable e hec).mp hl) hde hH

theorem Sound.untimed_step (h : Sound s) (he : Effect true s c cl x s')
    (hs : step true s c cl a = some s') (ho : OrderlyAt s c a) :
    ∀ d, Dispatched (mode (code s' d)) → weight timerTok (code s' d) = 0 := by
  have hkeep : Dispatched (mode (code s c)) → (s'.cpu c).stack = (s.cpu c).stack →
      weight timerTok (code s' c) = 0 := by
    intro hd hst
    have ha : a ≠ .intr .timer := by
      rintro rfl
      exact ho hd
    have hle := step_timer hs ha hst
    have hz := h.untimed c hd
    omega
  intro d hd
  by_cases hdc : d = c
  · subst hdc
    cases Phase.of_effect h.core he with
    | same hm hst => exact hkeep (hm ▸ hd) hst
    | giveUp hm | sched hl hm | take p hm => rw [hm] at hd; exact hd.elim
    | swtch p hm hon hk | mark r p hm hk => rw [hk]; rfl
    | resume p hm hm' | idle p hm hm' => rw [hm'] at hd; exact hd.elim
    | back p hm hm' hst => exact hkeep (by rw [hm]; trivial) hst
  · rw [code_same h.core he hdc] at hd ⊢
    exact h.untimed d hd

theorem Sound.pgdir_step (h : Sound s) (he : Effect true s c cl x s') :
    ∀ d p, (s'.cpu d).pgdir = some p → On s' d p ∨ Taken s' d p ∨ mode (code s' d) = .back p := by
  intro d p hp
  by_cases hdc : d = c
  · subst hdc
    have hkstack : isKstack (s.cpu d).stack → (s'.cpu d).stack = (s.cpu d).stack →
        (s'.cpu d).pgdir = (s.cpu d).pgdir → On s' d p := by
      intro hk hst hpg
      obtain ⟨q,hq,-⟩ := (h.core.cpu d).on_of_isKstack hk
      have hm := mode_of_on h.core hq
      rcases h.pgdir d p (hpg ▸ hp) with hon | (ht | ht) | ht
      · rwa [On,hst]
      all_goals
        rw [ht] at hm
        rcases hm with hm | ⟨e,hm⟩ <;> cases hm
    cases Phase.of_effect h.core he with
    | same hm hst hpg =>
      have := h.pgdir d p (hpg ▸ hp)
      rwa [On,hst,Taken,hm]
    | giveUp hm hst hpg hk | sched hl hm hst hpg hk => exact .inl (hkstack hk hst hpg)
    | swtch q hm hon hk hst hpg =>
      rcases h.pgdir d p (hpg ▸ hp) with hon' | (ht | ht) | ht
      · obtain rfl := hon.unique hon'
        exact .inr (.inr (by rw [hk]; rfl))
      all_goals
        rw [hm] at ht
        cases ht
    | take q hm hst hpg =>
      rw [hp] at hpg
      cases hpg
      exact .inr (.inl (.inl hm))
    | mark r q hm hk hst hpg =>
      rcases h.pgdir d p (hpg ▸ hp) with hon | (ht | ht) | ht
      · have hm' := mode_of_on h.core hon
        rw [hm] at hm'
        rcases hm' with hm' | ⟨e,hm'⟩ <;> cases hm'
      · rw [hm] at ht
        cases ht
        exact .inr (.inl (.inr (by rw [hk]; rfl)))
      all_goals
        rw [hm] at ht
        cases ht
    | resume q hm hm' hon hst hpg =>
      rcases h.pgdir d p (hpg ▸ hp) with hon' | (ht | ht) | ht
      · rw [On,hst] at hon'
        cases hon'
      · rw [hm] at ht
        cases ht
      · rw [hm] at ht
        cases ht
        exact .inl hon
      · rw [hm] at ht
        cases ht
    | back q hm hm' hst hpg =>
      rw [hp] at hpg
      cases hpg
    | idle q hm hm' hst hpg =>
      rcases h.pgdir d p (hpg ▸ hp) with hon | (ht | ht) | ht
      · have hm'' := mode_of_on h.core hon
        rw [hm] at hm''
        rcases hm'' with hm'' | ⟨e,hm''⟩ <;> cases hm''
      all_goals
        rw [hm] at ht
        cases ht
  · have hv := (Local.of_effect (h.core.cpu c) he).view d hdc
    rw [On,hv.stack,Taken,code_same h.core he hdc]
    exact h.pgdir d p (hv.pgdir ▸ hp)

theorem Sound.set_step (h : Sound s) (he : Effect true s c cl x s') :
    ∀ d p, weight (setTok p) (code s' d) ≠ 0 → (s'.proc p).state ≠ .runnable := by
  intro d p hw
  by_cases hdc : d = c
  · subst hdc
    cases StateChange.of_effect h.core he with
    | same hst hset =>
      rw [hst]
      rcases hset p hw with hw | hp
      · exact h.set d p hw
      · exact hp
    | wake q hl hst hset | other q st hq hne hst hset => exact absurd (hset p) hw
    | mark r q hk hk' =>
      rw [hk'] at hw
      exact absurd rfl hw
  · rw [code_same h.core he hdc] at hw
    have hp := h.set d p hw
    cases StateChange.of_effect h.core he with
    | same hst => rwa [hst]
    | wake q hl =>
      have hlock := lock_of_setTok (h.core.cpu d) hw
      rw [hl] at hlock
      exact absurd (Option.some.inj hlock).symm hdc
    | other q st hq hne hst =>
      rw [hst]
      split_ifs
      · exact hne
      · exact hp
    | mark r q hk hk' hst =>
      rw [hst]
      split_ifs
      · simp
      · exact hp

theorem Sound.free_step (h : Sound s) (he : Effect true s c cl x s')
    (hp : (s.proc p).state = .runnable) (hoff : ∀ d, ¬ On s d p)
    (hmark : ∀ r, code s c = [.mqMark r p] → code s' c ≠ [.mqSwtch r p]) :
    (s'.proc p).state = .runnable ∧ ∀ d, ¬ On s' d p := by
  refine ⟨?_,fun d hd => ?_⟩
  · cases StateChange.of_effect h.core he with
    | same hst => rw [hst,hp]
    | wake q hl hst => rw [hst,hp,ite_self]
    | other q st hq hne hst =>
      have hqp : p ≠ q := by
        rintro rfl
        exact hq hp
      rw [hst,if_neg hqp,hp]
    | mark r q hk hk' hst =>
      have hqp : p ≠ q := by
        rintro rfl
        exact hmark r hk hk'
      rw [hst,if_neg hqp,hp]
  · by_cases hdc : d = c
    · subst hdc
      have hsame : (s'.cpu d).stack ≠ (s.cpu d).stack := by
        intro hst
        rw [On,hst] at hd
        exact hoff d hd
      cases Phase.of_effect h.core he with
      | same hm hst | giveUp hm hst | sched hl hm hst | take q hm hst | mark r q hm hk hst
      | back q hm hm' hst | idle q hm hm' hst => exact hsame hst
      | swtch q hm hon hk hst =>
        rw [On,hst] at hd
        cases hd
      | resume q hm hm' hon =>
        obtain rfl := hd.unique hon
        rw [h.core.switching d p hm] at hp
        cases hp
    · exact hoff d ((on_same h.core he hdc).mp hd)

/-- The process `dequeue` is about to unlink is RUNNABLE, and no CPU is on its stack. -/
theorem Sound.unlink_free {r : cfg.CpuId} {thief : Option cfg.CpuId} (h : Sound s)
    (hk : code s c = .unlink r p thief::k) :
    (s.proc p).state = .runnable ∧ ∀ d, ¬ On s d p := by
  obtain ⟨H,hh,hw⟩ := (h.core.cpu c).rule hk
  have hfacts : Lock.ptable ∈ H ∧ mode (code s c) = .plain ∧ weight (setTok p) (code s c) = 0 := by
    cases thief with
    | none =>
      obtain ⟨-,rfl,-,rfl⟩ := hw
      exact ⟨by simp,by rw [hk]; rfl,by rw [hk]; rfl⟩
    | some =>
      obtain ⟨-,rfl,-,-,rfl⟩ := hw
      exact ⟨by simp,by rw [hk]; rfl,by rw [hk]; rfl⟩
  obtain ⟨hpt,hm,hset⟩ := hfacts
  have hl := (hh.locks _).mpr hpt
  have hrun : (s.proc p).state = .runnable := by
    obtain ⟨tl,htl⟩ := List.head?_eq_some_iff.mp (h.head c r p (by simp [hk,headTok]))
    have hcount : (s.runqueue r).queue.count p ≤ queued s p :=
      le_sum (fun t => (s.runqueue t).queue.count p) r
    have htally := h.tally p
    rw [due,set_eq_zero h.core hl hset] at htally
    rw [htl,List.count_cons_self] at hcount
    by_contra hne
    rw [runnable_eq_zero hne,placed] at htally
    omega
  exact ⟨hrun,h.off_stack hl hm (by simp [hrun])⟩

theorem Sound.fly_step (h : Sound s) (he : Effect true s c cl x s') :
    ∀ d p, weight (flyTok p) (code s' d) ≠ 0 → (s'.proc p).state = .runnable ∧ ∀ e, ¬ On s' e p := by
  intro d p hw
  by_cases hdc : d = c
  · subst hdc
    have hnew : weight (flyTok p) (code s d) ≠ 0 ∨ ∃ r thief k, code s d = .unlink r p thief::k := by
      cases QueueChange.of_effect h.core he with
      | same hrq hk | enqueue r q hrq hk => exact .inl fun hz => hw (by have := hk.fly p; omega)
      | dequeue r q hrq hq hfly => exact absurd (hfly p) hw
      | unlink r q thief k hk hrq hfly =>
        obtain rfl := hfly p hw
        exact .inr ⟨r,thief,k,hk⟩
      | sizeDec r hrq hfly => exact .inl (hfly p ▸ hw)
    have hmark : ∀ r, code s d = [.mqMark r p] → code s' d ≠ [.mqSwtch r p] := by
      intro r _ hk'
      rw [hk'] at hw
      exact hw rfl
    rcases hnew with hw₀ | ⟨r,thief,k,hk⟩
    · exact h.free_step he (h.fly d p hw₀).1 (h.fly d p hw₀).2 hmark
    · exact h.free_step he (h.unlink_free hk).1 (h.unlink_free hk).2 hmark
  · rw [code_same h.core he hdc] at hw
    obtain ⟨hp,hoff⟩ := h.fly d p hw
    refine h.free_step he hp hoff fun r hk _ => hdc ?_
    exact h.fly_unique hw (by simp [hk,flyTok])

theorem lock_of_headTok {r : cfg.CpuId} (hC : Core true s)
    (h : weight (headTok r p) (code s c) ≠ 0) : s.lock (.rq r) = some c := by
  have hle : ∀ pc : Pc cfg, headTok r p pc ≤ heldTok r pc := by
    intro pc
    cases pc
    case unlink t q thief =>
      simp only [headTok,heldTok]
      by_cases ht : t = r
      · rw [if_pos ht.symm]
        split_ifs <;> omega
      · rw [if_neg fun h => ht h.1]
        exact Nat.zero_le _
    all_goals exact Nat.zero_le _
  have hun : weight (heldTok r) (unspin (code s c)) = weight (heldTok r) (code s c) := by
    cases code s c with
    | nil => rfl
    | cons pc => cases pc <;> rfl
  obtain ⟨H,hh,hw⟩ := (hC.cpu c).typed
  by_contra hne
  have hz := hw.held fun hm => hne ((hh.locks (.rq r)).mpr hm)
  have := weight_le hle (code s c)
  omega

theorem Sound.head_step (h : Sound s) (he : Effect true s c cl x s') :
    ∀ d r p, weight (headTok r p) (code s' d) ≠ 0 → (s'.runqueue r).queue.head? = some p := by
  intro d r p hw
  have hother : d ≠ c → weight (headTok r p) (code s d) ≠ 0 := by
    intro hdc
    rwa [code_same h.core he hdc] at hw
  have hold : (SameQueue (code s c) (code s' c)) → (s.runqueue r).queue.head? = some p := by
    intro hk
    by_cases hdc : d = c
    · subst hdc
      exact h.head d r p (hk.head r p ▸ hw)
    · exact h.head d r p (hother hdc)
  cases QueueChange.of_effect h.core he with
  | same hrq hk => rw [hrq]; exact hold hk
  | enqueue t q hrq hk =>
    rw [hrq]
    by_cases ht : r = t
    · subst ht
      rw [update_self,List.head?_append,hold hk]
      rfl
    · rw [update_of_ne ht]
      exact hold hk
  | dequeue t q hrq hq hfly hhead =>
    rw [hrq]
    by_cases hdc : d = c
    · subst hdc
      obtain ⟨rfl,rfl⟩ := hhead r p hw
      exact hq
    · exact h.head d r p (hother hdc)
  | unlink t q thief k hk hrq hfly hhead =>
    by_cases hdc : d = c
    · subst hdc
      exact absurd (hhead r p) hw
    · have hrt : r ≠ t := by
        rintro rfl
        have hl := lock_of_headTok h.core (hother hdc)
        rw [lock_of_headTok h.core (c := c) (p := q) (by simp [hk,headTok])] at hl
        exact hdc (Option.some.inj hl).symm
      rw [hrq,update_of_ne hrt]
      exact h.head d r p (hother hdc)
  | sizeDec t hrq hfly hhead =>
    have hq : (s'.runqueue r).queue = (s.runqueue r).queue := by
      rw [hrq]
      by_cases ht : r = t
      · subst ht
        rw [update_self]
      · rw [update_of_ne ht]
    rw [hq]
    by_cases hdc : d = c
    · subst hdc
      exact h.head d r p (hhead r p ▸ hw)
    · exact h.head d r p (hother hdc)

theorem Sound.size_step (h : Sound s) (he : Effect true s c cl x s') :
    ∀ r, (s'.runqueue r).size = (s'.runqueue r).queue.length+owed s' (.dec r) := by
  intro r
  have hsize := h.size r
  have hdec : owed s' (.dec r)+weight (decTok r) (code s c) =
    owed s (.dec r)+weight (decTok r) (code s' c) := owed_change h.core he (.dec r)
  cases QueueChange.of_effect h.core he with
  | same hrq hk =>
    have := hk.dec r
    rw [hrq]
    omega
  | enqueue t q hrq hk =>
    have := hk.dec r
    rw [hrq]
    by_cases ht : r = t
    · subst ht
      rw [update_self,List.length_append,List.length_singleton]
      dsimp only
      omega
    · rw [update_of_ne ht]
      omega
  | dequeue t q hrq hq hfly hhead hd =>
    have := hd r
    rw [hrq]
    omega
  | unlink t q thief k hk hrq hfly hhead hd =>
    have hd := hd r
    rw [hrq]
    by_cases ht : r = t
    · subst ht
      obtain ⟨tl,htl⟩ := List.head?_eq_some_iff.mp (h.head c r q (by simp [hk,headTok]))
      rw [htl,List.length_cons] at hsize
      rw [if_pos rfl] at hd
      rw [update_self,htl,List.tail_cons]
      dsimp only
      omega
    · rw [if_neg (Ne.symm ht)] at hd
      rw [update_of_ne ht]
      omega
  | sizeDec t hrq hfly hhead hd =>
    have hd := hd r
    rw [hrq]
    by_cases ht : r = t
    · subst ht
      rw [if_pos rfl] at hd
      rw [update_self]
      dsimp only
      omega
    · rw [if_neg (Ne.symm ht)] at hd
      rw [update_of_ne ht]
      omega

theorem Kills.step (hC : Core true s) (hq : Kills s c q) (hs : step true s c cl a = some s') :
    ∃ pid i k, code s c = .killScan pid i::k ∧
      s' = goto (setProc s q fun r => {r with killed := true, state := .runnable}) c
        (.release .ptable::k) := by
  obtain ⟨pid,i,k,hk,hi,hp,hst⟩ := hq
  obtain ⟨H,hh,rfl,-⟩ := (hC.cpu c).rule hk
  refine ⟨pid,i,k,hk,?_⟩
  have hfl : (s.cpu c).fl = false := hh.off (by rw [hh.ncli]; simp)
  cases a <;> simp only [KernelStep.step,hk,exec,interrupt,choose,hfl,hi,hp,if_true,
    Bool.false_eq_true,if_false,reduceCtorEq,Option.some.injEq] at hs
  rw [← hs]
  simp only [setProc,hst,if_true]

theorem Sound.ledger (h : Sound s) (he : Effect true s c cl x s')
    (hs : step true s c cl a = some s') (q : cfg.Slot) :
    placed s' q+due s q = placed s q+due s' q ∨
      Kills s c q ∧ placed s' q+due s q+1 = placed s q+due s' q := by
  by_cases hq : Kills s c q
  · refine .inr ⟨hq,?_⟩
    have hz : runnable s q = 0 := by
      obtain ⟨pid,i,k,-,-,-,hst⟩ := hq
      exact runnable_eq_zero (by simp [hst])
    obtain ⟨pid,i,k,hk,rfl⟩ := hq.step h.core hs
    have ho : runnable (goto (setProc s q fun r => {r with killed := true, state := .runnable}) c
      (.release .ptable::k)) q = 1 := runnable_eq_one (by simp [goto,setProc])
    have hqu : queued (goto (setProc s q fun r => {r with killed := true, state := .runnable}) c
      (.release .ptable::k)) q = queued s q := rfl
    have hfly := owed_change h.core he (.fly q)
    have henq := owed_change h.core he (.enq q)
    have hset := owed_change h.core he (.set q)
    simp only [code_goto,hk,weight_cons,Debt.tok,flyTok,enqTok,setTok] at hfly henq hset
    simp only [placed,due,hz,ho,hqu]
    omega
  · exact .inl ((balanced_of_effect h he hq).eq h.core he)

theorem Sound.step (h : Sound s) (ho : OrderlyAt s c a) (hs : step true s c cl a = some s') :
    Sound s' := by
  have hcond := h.cond c
  obtain ⟨x,he⟩ := step_effect (h.core.cpu c).typed (Side.of_core h.core hcond) hs
  refine ⟨h.core.step hcond hs,h.alone_step he hs ho,h.untimed_step he hs ho,fun p => ?_,
    h.set_step he,h.fly_step he,h.head_step he,h.size_step he,h.pgdir_step he⟩
  have htally := h.tally p
  rcases h.ledger he hs p with hl | ⟨-,hl⟩ <;> omega

theorem queued_boot (p : cfg.Slot) : queued (boot cfg true) p = if p.val = 0 then 1 else 0 := by
  have hq : ∀ r, ((boot cfg true).runqueue r).queue.count p =
      if r = cfg.bsp then (if p.val = 0 then 1 else 0) else 0 := by
    intro r
    by_cases hr : r = cfg.bsp
    · by_cases hp : p.val = 0
      · simp [boot,hr,Fin.ext_iff,hp]
      · simp [boot,hr,Fin.ext_iff,hp,Ne.symm hp]
    · simp [boot,hr]
  simp only [queued,hq,Finset.sum_ite_eq',Finset.mem_univ,if_true]

theorem owed_boot (y : Debt cfg) : owed (boot cfg true) y = 0 := by
  refine owed_eq_zero fun c => ?_
  cases y <;> rfl

theorem placed_boot (p : cfg.Slot) : placed (boot cfg true) p = due (boot cfg true) p := by
  rw [placed,due,owed_boot,owed_boot,owed_boot,queued_boot,runnable]
  by_cases hp : p.val = 0 <;> simp [boot,hp]

theorem Sound.boot (cfg : Config) : Sound (boot cfg true) := by
  have hcode : ∀ c, code (KernelStep.boot cfg true) c = [.mqLoop c] := fun _ => rfl
  refine ⟨Core.boot cfg true,fun _ _ hl => ?_,fun c hd => ?_,fun p => (placed_boot p).le,fun c p hw => ?_,
    fun c p hw => ?_,fun c r p hw => ?_,fun r => ?_,fun c p hp => ?_⟩
  · cases hl
  · rw [hcode] at hd
    exact hd.elim
  · rw [hcode] at hw
    exact absurd rfl hw
  · rw [hcode] at hw
    exact absurd rfl hw
  · rw [hcode] at hw
    exact absurd rfl hw
  · rw [owed_boot]
    by_cases hr : r = cfg.bsp <;> simp [KernelStep.boot,hr]
  · cases hp

end
end Xv6.Runqueue
