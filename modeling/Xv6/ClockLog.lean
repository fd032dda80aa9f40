import Xv6.ProcessTree

/-!
# The clock log

`clock_log` has three entries for each pid, which `fork`, the scheduler and `exit` set to the
timestamp counter. `stamp` is the entry that a step writes. While pids do not repeat, the
round-robin kernel writes each at most once: that of `fork` while the slot is under construction,
that of the scheduler while `isnot_first_running` is off, and that of `exit` when the process
becomes a ZOMBIE.
-/
namespace Xv6.ClockLog
open SchedLog KernelState KernelStep Frames Handoff ProcTable Pids Lifecycle Machine
open Function (update update_of_ne update_self)
open ProcessTree

def tsc (c : Clock) : ℕ := c.hi.toNat*2^32+c.lo.toNat

section
variable {cfg : Config}

/-- The process whose entry of `clock_log` a step writes, and which of the three. -/
def stamp (s : State cfg) : List (Pc cfg) → Act cfg → Option (cfg.Slot×Fin 3)
  | .forkCopy _ np::_,.alloc true => some (np,0)
  | .mqMark _ p::_,.go => if s.isnotFirstRunning (s.proc p).pid then none else some (p,1)
  | .rrScan i::_,.go =>
    ((slot? cfg i).filter fun p => (s.proc p).state = .runnable ∧
      s.isnotFirstRunning (s.proc p).pid = false).map fun p => (p,1)
  | .exitReparent p i::_,.go => if slot? cfg i = none then some (p,2) else none
  | _,_ => none

def stampOf (s : State cfg) (a : Label cfg) : Option (cfg.Slot×Fin 3) := stamp s (code s a.cpu) a.act

def entry (s : State cfg) (a : Label cfg) : Option (ℤ×Fin 3) :=
  (stampOf s a).map fun e => ((s.proc e.1).pid,e.2)

/-- What is left behind by a step that writes entry `i` of process `p`. -/
structure Stamps (s : State cfg) (a : Label cfg) (p : cfg.Slot) (i : Fin 3) (t : State cfg) : Prop where
  log : t.clockLog = update s.clockLog (s.proc p).pid (update (s.clockLog (s.proc p).pid) i a.clock)
  flag : t.isnotFirstRunning =
    if i = 1 then update s.isnotFirstRunning (s.proc p).pid true else s.isnotFirstRunning
  off : i = 1 → s.isnotFirstRunning (s.proc p).pid = false
  running : i = 1 → (t.proc p).state = .running
  zombie : i = 2 → (t.proc p).state = .zombie

end

section
variable {cfg : Config} {mq : Bool} {s t : State cfg} {a : Label cfg} {p : cfg.Slot} {i : Fin 3}
  {k : List (Pc cfg)}

theorem pidIndex_of_stamp {act : Act cfg} (h : stamp s k act = some (p,i)) :
    pidIndex s k act = some (s.proc p).pid := by
  unfold stamp at h
  split at h
  · cases h
    rfl
  · split_ifs at h
    cases h
    rfl
  · obtain ⟨q,hq,he⟩ := Option.map_eq_some_iff.mp h
    cases he
    obtain ⟨hi,hst⟩ := Option.filter_eq_some_iff.mp hq
    simp only [decide_eq_true_eq] at hst
    simp [pidIndex,hi,Option.filter,hst.1]
  · split_ifs at h with hi
    cases h
    simp [pidIndex,hi]
  · cases h

theorem markRunning_again (c : cfg.CpuId) (cl : Clock) (hf : s.isnotFirstRunning (s.proc p).pid = true) :
    (markRunning s c cl p).clockLog = s.clockLog ∧
      (markRunning s c cl p).isnotFirstRunning = s.isnotFirstRunning := by
  unfold markRunning
  rw [if_pos hf]
  exact ⟨rfl,rfl⟩

theorem markRunning_first (c : cfg.CpuId) (cl : Clock)
    (hf : s.isnotFirstRunning (s.proc p).pid = false) :
    (markRunning s c cl p).clockLog = update s.clockLog (s.proc p).pid
        (update (s.clockLog (s.proc p).pid) 1 cl) ∧
      (markRunning s c cl p).isnotFirstRunning = update s.isnotFirstRunning (s.proc p).pid true := by
  unfold markRunning
  rw [if_neg (by simp [hf])]
  exact ⟨rfl,rfl⟩

/-- A step writes the entry that `stamp` says, and no other one. -/
theorem clock_step (h : stepBy mq s a = some t) :
    stampOf s a = none ∧ t.clockLog = s.clockLog ∧ t.isnotFirstRunning = s.isnotFirstRunning ∨
      ∃ p i, stampOf s a = some (p,i) ∧ Stamps s a p i t := by
  have harrays := (step_turn h).arrays
  unfold stampOf
  cases hpid : pidIndex s (code s a.cpu) a.act with
  | none =>
    refine .inl ⟨?_,funext fun n => (harrays n (by simp [hpid])).1,
      funext fun n => (harrays n (by simp [hpid])).2⟩
    by_contra hne
    obtain ⟨⟨p,i⟩,hs⟩ := Option.ne_none_iff_exists'.mp hne
    rw [pidIndex_of_stamp hs] at hpid
    cases hpid
  | some n =>
    unfold stepBy step at h
    unfold pidIndex at hpid
    split at hpid
    · rename_i cur np k hk ha
      rw [hk,ha] at h ⊢
      cases h
      refine .inr ⟨np,0,rfl,?_,rfl,fun hi => absurd hi (by decide),fun hi => absurd hi (by decide),
        fun hi => absurd hi (by decide)⟩
      simp [goto,copyProc,logClock,setProc]
    · rename_i p i k hk ha
      rw [hk,ha] at h ⊢
      split_ifs at hpid with hi
      simp only [exec,hi] at h
      cases h
      refine .inr ⟨p,2,by simp [stamp,hi],?_,rfl,fun hi => absurd hi (by decide),
        fun hi => absurd hi (by decide),fun _ => ?_⟩
      · simp [giveUp,goto,setState,setProc,logProc,logClock]
      · simp [giveUp,goto,setState,setProc,logProc,logClock]
    · rename_i r p k hk ha
      rw [hk,ha] at h ⊢
      cases h
      cases hf : s.isnotFirstRunning (s.proc p).pid with
      | true => exact .inl ⟨if_pos hf,markRunning_again a.cpu a.clock hf⟩
      | false =>
        obtain ⟨hlog,hflag⟩ := markRunning_first a.cpu a.clock hf
        exact .inr ⟨p,1,by simp [stamp,hf],hlog,hflag,fun _ => hf,fun _ => by simp [goto],
          fun hi => absurd hi (by decide)⟩
    · rename_i i k hk ha
      rw [hk,ha] at h ⊢
      obtain ⟨p,hp,-⟩ := Option.map_eq_some_iff.mp hpid
      obtain ⟨hi,hst⟩ := Option.filter_eq_some_iff.mp hp
      have hst := of_decide_eq_true hst
      simp only [exec,hi,if_pos hst] at h
      cases h
      cases hf : s.isnotFirstRunning (s.proc p).pid with
      | true =>
        exact .inl ⟨by simp [stamp,hi,Option.filter,hf],
          markRunning_again (s := takeProc s a.cpu p) a.cpu a.clock hf⟩
      | false =>
        obtain ⟨hlog,hflag⟩ := markRunning_first (s := takeProc s a.cpu p) a.cpu a.clock hf
        exact .inr ⟨p,1,by simp [stamp,hi,Option.filter,hst,hf],hlog,hflag,fun _ => hf,
          fun _ => by simp [goto],fun hi => absurd hi (by decide)⟩
    · cases hpid

theorem entry_eq {n : ℤ} : entry s a = some (n,i) ↔ ∃ p, stampOf s a = some (p,i) ∧ (s.proc p).pid = n := by
  unfold entry
  constructor
  · intro h
    obtain ⟨⟨p,j⟩,hp,he⟩ := Option.map_eq_some_iff.mp h
    cases he
    exact ⟨p,hp,rfl⟩
  · rintro ⟨p,hp,rfl⟩
    rw [hp]
    rfl

theorem stampOf_of_entry (hD : Distinct s) {q : cfg.Slot} (hq : (s.proc q).pid ≠ 0)
    (h : entry s a = some ((s.proc q).pid,i)) : stampOf s a = some (q,i) := by
  obtain ⟨p,hp,hpid⟩ := entry_eq.mp h
  rwa [hD.inj q p hpid.symm hq]

theorem pid_kept (ht : TableStep s a.cpu a.act t) {q : cfg.Slot} (h : (s.proc q).state ≠ .unused)
    (h' : (t.proc q).state ≠ .unused) : (t.proc q).pid = (s.proc q).pid := by
  rcases pid_step ht q with hpid | ⟨-,hu⟩ | ⟨hu,-⟩
  · exact hpid
  · exact absurd hu h'
  · exact absurd hu h

end

/-! ## What has been written -/

section
variable {cfg : Config}

/-- The entries `W` have been written when the kernel is in state `s`. -/
structure Progress (s : State cfg) (W : ℤ → Fin 3 → Prop) : Prop where
  below : ∀ n i, W n i → n < s.nextpid
  first : ∀ n, s.isnotFirstRunning n = true ↔ W n 1
  raw : ∀ p np x, x ∈ s.frames (.kstack p) → rawTok np x ≠ 0 → ∀ i, ¬ W (s.proc np).pid i
  copied : ∀ p np, .forkRun np ∈ s.frames (.kstack p) → W (s.proc np).pid 0 ∧ ¬ W (s.proc np).pid 2
  alive : ∀ p, Alive (s.proc p).state → (p ≠ s.initproc → W (s.proc p).pid 0) ∧ ¬ W (s.proc p).pid 2
  ran : ∀ p, (s.proc p).state = .running ∨ (s.proc p).state = .sleeping → W (s.proc p).pid 1
  exited : ∀ p, (s.proc p).state = .zombie → ∀ i, W (s.proc p).pid i
  init : (s.proc s.initproc).pid = 1
  forked : ∀ n, W n 1 → n = 1 ∨ W n 0

def after (s : State cfg) (a : Label cfg) (W : ℤ → Fin 3 → Prop) (n : ℤ) (i : Fin 3) : Prop :=
  W n i ∨ entry s a = some (n,i)

/-- What is known of a process when one of its entries is written. -/
inductive Due (s : State cfg) (a : Label cfg) (p : cfg.Slot) : Fin 3 → Prop
  | fork (cur k) (hk : code s a.cpu = .forkCopy cur p::k) (ha : a.act = .alloc true)
      (hst : (s.cpu a.cpu).stack = .kstack cur) (hp : (s.proc p).state = .embryo) : Due s a p 0
  | first (hp : (s.proc p).state = .runnable) (hf : s.isnotFirstRunning (s.proc p).pid = false) : Due s a p 1
  | exit (hp : (s.proc p).state = .running) (hinit : p ≠ s.initproc) : Due s a p 2

end

section
variable {cfg : Config} {s t : State cfg} {a : Label cfg} {p q np : cfg.Slot} {i : Fin 3}
  {W : ℤ → Fin 3 → Prop} {x : Pc cfg}

theorem due_of_stamp (hS : Settled s) (h : stampOf s a = some (p,i)) : Due s a p i := by
  unfold stampOf stamp at h
  split at h
  · rename_i cur np k hk ha
    cases h
    obtain ⟨H,-,-,hst,-⟩ := (hS.core.cpu a.cpu).rule hk
    exact .fork cur k hk ha hst (embryo_of_code hS.core hk (.inr rfl))
  · rename_i r q k hk ha
    obtain ⟨H,-,hmq,-⟩ := (hS.core.cpu a.cpu).rule hk
    cases hmq
  · obtain ⟨q,hq,he⟩ := Option.map_eq_some_iff.mp h
    cases he
    obtain ⟨-,hst⟩ := Option.filter_eq_some_iff.mp hq
    exact .first (of_decide_eq_true hst).1 (of_decide_eq_true hst).2
  · rename_i q j k hk ha
    split_ifs at h with hj
    cases h
    obtain ⟨H,-,-,hst,rfl⟩ := (hS.core.cpu a.cpu).rule hk
    refine .exit (hS.core.runs a.cpu p hst (by rw [hk]; rfl)) ?_
    exact (hS.tree.exiting p _ (hst ▸ mem_code hk) (by simp [inExit])).2
  · cases h

theorem Progress.due (hS : Settled s) (h : Progress s W) (hd : Due s a p i) : ¬ W (s.proc p).pid i ∧
    (i = 1 → (s.proc p).pid = 1 ∨ W (s.proc p).pid 0) ∧
    (i = 2 → (s.proc p).pid ≠ 1 ∧ W (s.proc p).pid 0 ∧ W (s.proc p).pid 1) := by
  cases hd with
  | fork cur k hk ha hst =>
    have hmem : .forkCopy cur p ∈ s.frames (.kstack cur) := hst ▸ mem_code hk
    exact ⟨h.raw cur p _ hmem (by simp [rawTok]) 0,fun hi => absurd hi (by decide),
      fun hi => absurd hi (by decide)⟩
  | first hp hf =>
    refine ⟨fun hw => ?_,fun _ => ?_,fun hi => absurd hi (by decide)⟩
    · rw [(h.first _).mpr hw] at hf
      cases hf
    · by_cases hinit : p = s.initproc
      · exact .inl (hinit ▸ h.init)
      · exact .inr ((h.alive p (by rw [hp]; trivial)).1 hinit)
  | exit hp hinit =>
    have halive := h.alive p (by rw [hp]; trivial)
    refine ⟨halive.2,fun hi => absurd hi (by decide),fun _ => ⟨fun hpid => ?_,halive.1 hinit,
      h.ran p (.inl hp)⟩⟩
    exact hinit (hS.distinct.inj p s.initproc (hpid.trans h.init.symm) (by omega))

theorem Progress.below_step (hS : Settled s) (h : Progress s W) (hu : Unwrapped s a)
    (hs : stepBy false s a = some t) (n : ℤ) (i : Fin 3) (hw : after s a W n i) : n < t.nextpid := by
  have hmono : s.nextpid ≤ t.nextpid := by
    rcases pids_step (step_turn hs).table with ⟨hn,-⟩ | ⟨p,hp,hn,-⟩
    · exact hn.ge
    · rw [hn,incInt_of_lt (hu (by simp [hp]))]
      omega
  rcases hw with hw | hw
  · exact (h.below n i hw).trans_le hmono
  · obtain ⟨p,-,rfl⟩ := entry_eq.mp hw
    exact (hS.distinct.below p).2.trans_le hmono

theorem Progress.first_step (h : Progress s W) (hs : stepBy false s a = some t) (n : ℤ) :
    t.isnotFirstRunning n = true ↔ after s a W n 1 := by
  unfold after entry
  rcases clock_step hs with ⟨hno,-,hflag⟩ | ⟨p,i,hp,hst⟩
  · rw [hno,hflag,h.first]
    simp
  · rw [hp,hst.flag]
    by_cases hi : i = 1
    · subst hi
      by_cases hn : n = (s.proc p).pid
      · simp [hn]
      · simp [hn,h.first,eq_comm]
    · simp [hi,h.first]

theorem Progress.alive_step (hS : Settled s) (h : Progress s W) (hs : stepBy false s a = some t)
    (p : cfg.Slot) (hp : Alive (t.proc p).state) :
    (p ≠ t.initproc → after s a W (t.proc p).pid 0) ∧ ¬ after s a W (t.proc p).pid 2 := by
  have ht := step_turn hs
  have hmove := moves hS.core ht.table p
  have hback : Alive (s.proc p).state ∨ ∃ k, code s a.cpu = .forkRun p::k := by
    generalize (s.proc p).state = st at hmove
    generalize (t.proc p).state = st' at hmove hp
    cases hmove with
    | stay => exact .inl hp
    | run k hk => exact .inr ⟨k,hk⟩
    | yield | sleep | wake | take => exact .inl trivial
    | alloc | fail | exit | free => exact hp.elim
  have hfacts : (s.proc p).state ≠ .unused ∧ (p ≠ s.initproc → W (s.proc p).pid 0) ∧
      ¬ W (s.proc p).pid 2 := by
    rcases hback with halive | ⟨k,hk⟩
    · exact ⟨fun hu => by rw [hu] at halive; exact halive,h.alive p halive⟩
    · obtain ⟨H,-,-,hst,-⟩ := (hS.core.cpu a.cpu).rule hk
      obtain ⟨cur,hon,-⟩ := (hS.core.cpu a.cpu).on_of_isKstack hst
      have hmem : .forkRun p ∈ s.frames (.kstack cur) := hon.stack_eq ▸ mem_code hk
      obtain ⟨hw,hno⟩ := h.copied cur p hmem
      exact ⟨by rw [embryo_of_mem hS.core hmem (by simp [forkTok])]; simp,fun _ => hw,hno⟩
  obtain ⟨hu,hw,hno⟩ := hfacts
  rw [pid_kept ht.table hu fun hu' => by rw [hu'] at hp; exact hp,ht.init]
  refine ⟨fun hinit => .inl (hw hinit),?_⟩
  rintro (hw2 | hnew)
  · exact hno hw2
  · have hstamp := stampOf_of_entry hS.distinct (hS.numbered p hu) hnew
    rcases clock_step hs with ⟨hnone,-⟩ | ⟨q,j,hq,hst⟩
    · rw [hnone] at hstamp
      cases hstamp
    · rw [hq] at hstamp
      cases hstamp
      rw [hst.zombie rfl] at hp
      exact hp

theorem taken (hS : Settled s) (hs : stepBy false s a = some t) (hp : (s.proc p).state = .runnable)
    (hp' : (t.proc p).state = .running) :
    s.isnotFirstRunning (s.proc p).pid = true ∨ stampOf s a = some (p,1) := by
  have hcode : ∃ j k, code s a.cpu = .rrScan j::k ∧ slot? cfg j = some p := by
    rcases (step_turn hs).table.proc_cases p with hsame | ⟨-,-,-,-,-,-,hsame⟩ | ⟨pc,k,f,hc,hw,hsame⟩ <;>
      rw [hsame] at hp'
    · rw [hp] at hp'
      cases hp'
    · cases hp'
    · cases hw
      case mark r =>
        obtain ⟨H,-,hmq,-⟩ := (hS.core.cpu a.cpu).rule hc
        cases hmq
      case take j hj hr => exact ⟨j,k,hc,hj⟩
      all_goals simp [hp] at hp'
  obtain ⟨j,k,hk,hj⟩ := hcode
  rcases step_kinds hk hs with ⟨hgo,-⟩ | ⟨irq,usr,-,rfl⟩ | hchoose
  · cases hf : s.isnotFirstRunning (s.proc p).pid with
    | true => exact .inl rfl
    | false =>
      refine .inr ?_
      rw [stampOf,hk,hgo]
      simp [stamp,hj,Option.filter,hp,hf]
  · have hsame : (s.proc p).state = .running := hp'
    rw [hp] at hsame
    cases hsame
  · cases hchoose

theorem Progress.ran_step (hS : Settled s) (h : Progress s W) (hs : stepBy false s a = some t)
    (p : cfg.Slot) (hp : (t.proc p).state = .running ∨ (t.proc p).state = .sleeping) :
    after s a W (t.proc p).pid 1 := by
  have ht := step_turn hs
  have hmove := moves hS.core ht.table p
  have hu' : (t.proc p).state ≠ .unused := by rcases hp with hp | hp <;> simp [hp]
  have hback : ((s.proc p).state = .running ∨ (s.proc p).state = .sleeping) ∨
      (s.proc p).state = .runnable ∧ (t.proc p).state = .running := by
    generalize (s.proc p).state = st at hmove
    generalize (t.proc p).state = st' at hmove hp
    cases hmove with
    | stay => exact .inl hp
    | take => exact .inr ⟨rfl,rfl⟩
    | sleep => exact .inl (.inl rfl)
    | alloc | fail | run | yield | wake | exit | free => simp at hp
  rcases hback with hold | ⟨hr,hr'⟩
  · rw [pid_kept ht.table (by rcases hold with ho | ho <;> simp [ho]) hu']
    exact .inl (h.ran p hold)
  · rw [pid_kept ht.table (by simp [hr]) hu']
    rcases taken hS hs hr hr' with hf | hstamp
    · exact .inl ((h.first _).mp hf)
    · exact .inr (entry_eq.mpr ⟨p,hstamp,rfl⟩)

theorem Progress.exited_step (hS : Settled s) (h : Progress s W) (hs : stepBy false s a = some t)
    (p : cfg.Slot) (hp : (t.proc p).state = .zombie) (i : Fin 3) : after s a W (t.proc p).pid i := by
  have ht := step_turn hs
  have hmove := moves hS.core ht.table p
  have hback : (s.proc p).state = .zombie ∨ (s.proc p).state = .running ∧
      ∃ j k, code s a.cpu = .exitReparent p j::k ∧ slot? cfg j = none := by
    rw [hp] at hmove
    generalize (s.proc p).state = st at hmove
    cases hmove with
    | stay => exact .inl rfl
    | exit j k hk hj => exact .inr ⟨rfl,j,k,hk,hj⟩
  rcases hback with hz | ⟨hr,j,k,hk,hj⟩
  · rw [pid_kept ht.table (by simp [hz]) (by simp [hp])]
    exact .inl (h.exited p hz i)
  · rw [pid_kept ht.table (by simp [hr]) (by simp [hp])]
    have hgo : a.act = .go := by
      rcases step_kinds hk hs with ⟨hgo,-⟩ | ⟨irq,usr,-,rfl⟩ | hchoose
      · exact hgo
      · have hsame : (s.proc p).state = .zombie := hp
        rw [hr] at hsame
        cases hsame
      · cases hchoose
    have hstamp : stampOf s a = some (p,2) := by
      rw [stampOf,hk,hgo]
      simp [stamp,hj]
    obtain ⟨-,-,hearlier⟩ := h.due hS (due_of_stamp hS hstamp)
    match i with
    | 0 => exact .inl (hearlier rfl).2.1
    | 1 => exact .inl (hearlier rfl).2.2
    | 2 => exact .inr (entry_eq.mpr ⟨p,hstamp,rfl⟩)

/-- A slot that a `fork` is working on is EMBRYO before and after a step that keeps it so. -/
theorem embryo_kept (hS : Settled s) (hS' : Settled t) (hs : stepBy false s a = some t)
    {y : Pc cfg} (hx : x ∈ s.frames (.kstack p)) (hwx : forkTok np x ≠ 0)
    (hy : y ∈ t.frames (.kstack q)) (hwy : forkTok np y ≠ 0) :
    (s.proc np).state = .embryo ∧ (t.proc np).state = .embryo ∧ (t.proc np).pid = (s.proc np).pid := by
  have he := embryo_of_mem hS.core hx hwx
  have he' := embryo_of_mem hS'.core hy hwy
  exact ⟨he,he',pid_kept (step_turn hs).table (by simp [he]) (by simp [he'])⟩

theorem forkTok_of_rawTok (h : rawTok np x ≠ 0) : forkTok np x ≠ 0 := by
  cases x
  case allocStack => exact h
  case forkCopy => exact h
  all_goals exact absurd rfl h

theorem raw_not_stamped (hS : Settled s) (hS' : Settled t) (hs : stepBy false s a = some t) (hx : x ∈ t.frames (.kstack p)) (hw : rawTok np x ≠ 0) (he : (s.proc np).state = .embryo) :
    entry s a ≠ some ((s.proc np).pid,i) := by
  intro hnew
  have hstamp := stampOf_of_entry hS.distinct (hS.numbered np (by simp [he])) hnew
  cases due_of_stamp hS hstamp with
  | fork cur k hk ha hst =>
    -- the copy would leave two program points that work on the slot
    have hrun : .forkRun np ∈ t.frames (.kstack cur) := by
      unfold stepBy step at hs
      rw [hk,ha] at hs
      cases hs
      rw [← hst]
      simp [goto,copyProc,logClock,setProc]
    cases fork_unique hS'.core np hx hrun (forkTok_of_rawTok hw) (by simp [forkTok])
    exact hw rfl
  | first hp | exit hp =>
    rw [he] at hp
    cases hp

theorem pid_of_alloc (ht : TableStep s a.cpu a.act t) (hu : (s.proc np).state = .unused)
    (he : (t.proc np).state = .embryo) : (t.proc np).pid = s.nextpid := by
  cases ht with
  | same hproc =>
    rw [hproc,hu] at he
    cases he
  | alloc cur j k q hc hj hv hproc =>
    by_cases hq : np = q
    · subst hq
      rw [hproc,update_self]
    · rw [hproc,update_of_ne hq,hu] at he
      cases he
  | write pc k q f hc hw hproc =>
    by_cases hq : np = q
    · subst hq
      rw [hproc,update_self] at he
      cases hw
      all_goals simp [hu] at he
    · rw [hproc,update_of_ne hq,hu] at he
      cases he

theorem Progress.raw_step (hS : Settled s) (hS' : Settled t) (h : Progress s W)
    (hs : stepBy false s a = some t) (p np : cfg.Slot) (x : Pc cfg) (hx : x ∈ t.frames (.kstack p))
    (hw : rawTok np x ≠ 0) (i : Fin 3) : ¬ after s a W (t.proc np).pid i := by
  have hold : ∀ y q, y ∈ s.frames (.kstack q) → rawTok np y ≠ 0 → ¬ after s a W (t.proc np).pid i := by
    intro y q hy hwy
    obtain ⟨he,-,hpid⟩ := embryo_kept hS hS' hs hy (forkTok_of_rawTok hwy) hx (forkTok_of_rawTok hw)
    rw [hpid]
    rintro (hin | hnew)
    · exact h.raw q np y hy hwy i hin
    · exact raw_not_stamped hS hS' hs hx hw he hnew
  rcases (step_turn hs).frames.born hx with hmem | ⟨hst,hb⟩ | ⟨-,rfl | rfl⟩
  · exact hold x p hmem hw
  · cases x
    case allocStack cur np' =>
      obtain rfl : np' = np := by
        by_contra hne
        exact hw (if_neg hne)
      obtain ⟨j,k,hk,hj,hu⟩ := hb
      have hnone : entry s a = none := by
        rw [entry,stampOf,hk]
        rfl
      have he := embryo_of_mem hS'.core hx (forkTok_of_rawTok hw)
      rw [pid_of_alloc (step_turn hs).table hu he]
      rintro (hin | hnew)
      · exact lt_irrefl _ (h.below _ _ hin)
      · rw [hnone] at hnew
        cases hnew
    case forkCopy cur np' =>
      obtain rfl : np' = np := by
        by_contra hne
        exact hw (if_neg hne)
      obtain ⟨k,hk,ha⟩ := hb
      obtain ⟨H,-,-,hst',-⟩ := (hS.core.cpu a.cpu).rule hk
      exact hold _ cur (hst' ▸ mem_code hk) (by simp [rawTok])
    all_goals exact absurd rfl hw
  · exact absurd rfl hw
  · exact absurd rfl hw

theorem Progress.copied_step (hS : Settled s) (hS' : Settled t) (h : Progress s W)
    (hs : stepBy false s a = some t) (p np : cfg.Slot) (hx : .forkRun np ∈ t.frames (.kstack p)) :
    after s a W (t.proc np).pid 0 ∧ ¬ after s a W (t.proc np).pid 2 := by
  have htok : forkTok np (.forkRun np : Pc cfg) ≠ 0 := by simp [forkTok]
  rcases (step_turn hs).frames.born hx with hmem | ⟨hst,cur,k,hk,ha⟩ | ⟨-,hx | hx⟩
  · obtain ⟨he,he',hpid⟩ := embryo_kept hS hS' hs hmem htok hx htok
    obtain ⟨hw,hno⟩ := h.copied p np hmem
    rw [hpid]
    refine ⟨.inl hw,?_⟩
    rintro (hw2 | hnew)
    · exact hno hw2
    · cases due_of_stamp hS (stampOf_of_entry hS.distinct (hS.numbered np (by simp [he])) hnew) with
      | exit hp =>
        rw [he] at hp
        cases hp
  · obtain ⟨H,-,-,hst',-⟩ := (hS.core.cpu a.cpu).rule hk
    have hmem : .forkCopy cur np ∈ s.frames (.kstack cur) := hst' ▸ mem_code hk
    obtain ⟨-,-,hpid⟩ := embryo_kept hS hS' hs hmem (by simp [forkTok]) hx htok
    have hentry : entry s a = some ((s.proc np).pid,0) := by
      rw [entry,stampOf,hk,ha]
      rfl
    rw [hpid]
    refine ⟨.inr hentry,?_⟩
    rintro (hw2 | hnew)
    · exact h.raw cur np _ hmem (by simp [rawTok]) 2 hw2
    · rw [hentry] at hnew
      cases hnew
  · cases hx
  · cases hx

theorem Progress.init_step (hS : Settled s) (hS' : Settled t) (h : Progress s W)
    (hs : stepBy false s a = some t) : (t.proc t.initproc).pid = 1 := by
  have ht := step_turn hs
  have halive := hS.tree.init
  have halive' := hS'.tree.init
  rw [ht.init] at halive' ⊢
  rw [pid_kept ht.table (fun hu => by rw [hu] at halive; exact halive)
    (fun hu => by rw [hu] at halive'; exact halive'),h.init]

theorem Progress.forked_step (hS : Settled s) (h : Progress s W) (n : ℤ) (hw : after s a W n 1) :
    n = 1 ∨ after s a W n 0 := by
  rcases hw with hw | hnew
  · exact (h.forked n hw).imp_right .inl
  · obtain ⟨p,hp,rfl⟩ := entry_eq.mp hnew
    exact ((h.due hS (due_of_stamp hS hp)).2.1 rfl).imp_right .inl

theorem Progress.step (hS : Settled s) (h : Progress s W) (hu : Unwrapped s a)
    (hs : stepBy false s a = some t) : Progress t (after s a W) :=
  have hS' := hS.step hu hs
  ⟨h.below_step hS hu hs,h.first_step hs,h.raw_step hS hS' hs,h.copied_step hS hS' hs,
    h.alive_step hS hs,h.ran_step hS hs,h.exited_step hS hs,h.init_step hS hS' hs,h.forked_step hS⟩

theorem Progress.boot (cfg : Config) : Progress (boot cfg false) fun _ _ => False := by
  have hframes := boot_frames cfg false
  refine ⟨fun _ _ hw => hw.elim,fun n => by simp [KernelStep.boot],fun _ _ _ _ _ _ => id,
    fun p np hx => ?_,fun p hp => ⟨fun hne => hne ?_,id⟩,fun p hp => ?_,fun p hp => ?_,rfl,
    fun _ hw => hw.elim⟩
  · rcases hframes _ _ hx with hx | hx | hx | ⟨r,hx⟩ <;> cases hx
  · by_contra hne
    have hval : p.val ≠ 0 := fun he => hne (Fin.ext he)
    simp [KernelStep.boot,hval,Alive] at hp
  · by_cases hval : p.val = 0 <;> simp [KernelStep.boot,hval] at hp
  · exact absurd hp (boot_proc cfg false p).2.2

end

section Traces
variable {cfg : Config} {n m : ℕ} (t : Trace (stepBy false) (boot cfg false) n)

def entryAt (m : ℕ) : Option (ℤ×Fin 3) := entry (t.state m) (t.label m)

/-- The entries that have been written before step `j`. -/
def written (j : ℕ) (pid : ℤ) (i : Fin 3) : Prop := ∃ m < j, entryAt t m = some (pid,i)

variable {t} {pid : ℤ}

theorem written_succ (j : ℕ) : written t (j+1) = after (t.state j) (t.label j) (written t j) := by
  funext pid i
  refine propext ⟨?_,?_⟩
  · rintro ⟨m,hm,he⟩
    rcases Nat.lt_succ_iff_lt_or_eq.mp hm with hlt | rfl
    · exact .inl ⟨m,hlt,he⟩
    · exact .inr he
  · rintro (⟨m,hm,he⟩ | he)
    · exact ⟨m,hm.trans (Nat.lt_succ_self j),he⟩
    · exact ⟨j,Nat.lt_succ_self j,he⟩

theorem progress (hu : ∀ m < n, Unwrapped (t.state m) (t.label m)) {j : ℕ} (hj : j ≤ n) :
    Progress (t.state j) (written t j) := by
  induction j with
  | zero =>
    have hnone : written t 0 = fun _ _ => False := by
      funext pid i
      exact propext ⟨fun ⟨m,hm,_⟩ => absurd hm (Nat.not_lt_zero m),False.elim⟩
    rw [hnone,t.start]
    exact .boot cfg
  | succ j ih =>
    rw [written_succ]
    exact (ih (by omega)).step (.of_trace hu (by omega)) (hu j (by omega)) (t.next j (by omega))

theorem entry_due (hu : ∀ m < n, Unwrapped (t.state m) (t.label m)) (hm : m < n)
    {i : Fin 3} (he : entryAt t m = some (pid,i)) : ¬ written t m pid i ∧
      (i = 1 → pid = 1 ∨ written t m pid 0) ∧
      (i = 2 → pid ≠ 1 ∧ written t m pid 0 ∧ written t m pid 1) := by
  have hS := Settled.of_trace hu hm.le
  obtain ⟨p,hp,rfl⟩ := entry_eq.mp he
  exact (progress hu hm.le).due hS (due_of_stamp hS hp)

theorem entry_once (hu : ∀ m < n, Unwrapped (t.state m) (t.label m)) {m' : ℕ} (hm : m < n) (hm' : m' < n)
    {e : ℤ×Fin 3} (he : entryAt t m = some e) (he' : entryAt t m' = some e) : m = m' := by
  rcases Nat.lt_trichotomy m m' with hlt | heq | hlt
  · exact absurd ⟨m,hlt,he⟩ (entry_due hu hm' he').1
  · exact heq
  · exact absurd ⟨m',hlt,he'⟩ (entry_due hu hm he).1

theorem clockLog_next (hm : m < n) (pid : ℤ) (i : Fin 3) : (t.state (m+1)).clockLog pid i =
    if entryAt t m = some (pid,i) then (t.label m).clock else (t.state m).clockLog pid i := by
  unfold entryAt entry
  rcases clock_step (t.next m hm) with ⟨hno,hlog,-⟩ | ⟨p,j,hp,hst⟩
  · rw [hno,hlog]
    simp
  · rw [hp,hst.log]
    by_cases hpid : pid = ((t.state m).proc p).pid
    · subst hpid
      by_cases hi : i = j
      · simp [hi]
      · simp [hi,Ne.symm hi]
    · simp [hpid,Ne.symm hpid]

theorem clockLog_kept (hu : ∀ m < n, Unwrapped (t.state m) (t.label m)) {j : ℕ} (hm : m < j) (hj : j ≤ n) {i : Fin 3} (he : entryAt t m = some (pid,i)) :
    (t.state j).clockLog pid i = (t.label m).clock := by
  induction j,hm using Nat.le_induction with
  | base => rw [clockLog_next (by omega),if_pos he]
  | succ j hmj ih =>
    rw [clockLog_next (by omega),if_neg fun he' => ?_,ih (by omega)]
    have := entry_once hu (by omega) (by omega) he he'
    omega

theorem entries_of_exit (hu : ∀ m < n, Unwrapped (t.state m) (t.label m)) (hm : m < n)
    (he : entryAt t m = some (pid,2)) :
    ∃ m₀ m₁, m₀ < m₁ ∧ m₁ < m ∧ entryAt t m₀ = some (pid,0) ∧ entryAt t m₁ = some (pid,1) := by
  obtain ⟨hne,-,m₁,hm₁,he₁⟩ := (entry_due hu hm he).2.2 rfl
  obtain hone | ⟨m₀,hm₀,he₀⟩ := (entry_due hu (hm₁.trans hm) he₁).2.1 rfl
  · exact absurd hone hne
  · exact ⟨m₀,m₁,hm₀,hm₁,he₀,he₁⟩

end Traces

/-- In a run of the round-robin kernel in which the timestamp counter never decreases and the pids
fit into the arrays, each entry of `clock_log` is written at most once, by a step that leaves the
entries of the other processes alone. When a process has exited its three entries are set and in order. -/
theorem clocks_ordered {cfg : Config} (hN : cfg.nproc < 2^31) {n : ℕ}
    (t : Trace (stepBy false) (boot cfg false) n) (hfit : ∀ m < n, PidsFit (t.state m) (t.label m))
    (hclock : ∀ m m', m ≤ m' → m' < n → tsc (t.label m).clock ≤ tsc (t.label m').clock) :
    (∀ m < n, ∀ m' < n, ∀ e, entryAt t m = some e → entryAt t m' = some e → m = m') ∧
    (∀ m < n, ∀ pid i, (t.state (m+1)).clockLog pid i =
      if entryAt t m = some (pid,i) then (t.label m).clock else (t.state m).clockLog pid i) ∧
    (∀ m < n, ∀ p i, stampOf (t.state m) (t.label m) = some (p,i) →
      ∀ q, q ≠ p → ((t.state m).proc q).pid ≠ 0 →
        (t.state (m+1)).clockLog ((t.state m).proc q).pid = (t.state m).clockLog ((t.state m).proc q).pid) ∧
    (∀ j ≤ n, ∀ p, ((t.state j).proc p).state = .zombie →
      ∃ m < j, entryAt t m = some (((t.state j).proc p).pid,2)) ∧
    ∀ m pid, m < n → entryAt t m = some (pid,2) → ∀ j, m < j → j ≤ n →
      ∃ m₀ m₁, m₀ < m₁ ∧ m₁ < m ∧ entryAt t m₀ = some (pid,0) ∧ entryAt t m₁ = some (pid,1) ∧
        (t.state j).clockLog pid 0 = (t.label m₀).clock ∧ (t.state j).clockLog pid 1 = (t.label m₁).clock ∧
        (t.state j).clockLog pid 2 = (t.label m).clock ∧
        tsc ((t.state j).clockLog pid 0) ≤ tsc ((t.state j).clockLog pid 1) ∧
        tsc ((t.state j).clockLog pid 1) ≤ tsc ((t.state j).clockLog pid 2) := by
  have hu : ∀ m < n, Unwrapped (t.state m) (t.label m) := by
    intro m hm halloc
    have hin := (hfit m hm halloc).2
    omega
  refine ⟨fun m hm m' hm' e => entry_once hu hm hm',fun m hm => clockLog_next hm,?_,
    fun j hj p hp => (progress hu hj).exited p hp 2,?_⟩
  · intro m hm p i hp q hq hpid
    funext l
    rw [clockLog_next hm,if_neg]
    intro he
    have hstamp := stampOf_of_entry (Settled.of_trace hu hm.le).distinct hpid he
    rw [hp] at hstamp
    cases hstamp
    exact hq rfl
  · intro m pid hm he j hmj hj
    obtain ⟨m₀,m₁,h01,h1m,he₀,he₁⟩ := entries_of_exit hu hm he
    have hlog0 := clockLog_kept hu (by omega : m₀ < j) hj he₀
    have hlog1 := clockLog_kept hu (by omega : m₁ < j) hj he₁
    have hlog2 := clockLog_kept hu hmj hj he
    refine ⟨m₀,m₁,h01,h1m,he₀,he₁,hlog0,hlog1,hlog2,?_,?_⟩
    · rw [hlog0,hlog1]
      exact hclock m₀ m₁ h01.le (by omega)
    · rw [hlog1,hlog2]
      exact hclock m₁ m h1m.le hm

section Run

abbrev three : Config := ⟨3,2,Machine.three_pos,Nat.two_pos⟩

def timed (c : three.CpuId) (a : Act three) (i : ℕ) : Label three := ⟨c,a,⟨0,.ofNat i⟩⟩

def goes (n : ℕ) : List (Act three) := List.replicate n .go

def forks : List (Act three) := goes 7++.leave::.user .fork::goes 5++.alloc true::.alloc true::goes 5

def exits : List (Act three) := goes 8++.leave::.user .exit::.go::.leave::goes 12

def childExits : List (Label three) :=
  (forks.map (timed 0)++exits.map (timed 1)).mapIdx fun i f => f i

theorem childExits_ordered : ∃ n, ∃ t : Trace (stepBy false) (boot three false) n,
      ((t.state n).proc 1).state = .zombie ∧ ((t.state n).proc 1).pid = 2 ∧
      tsc ((t.state n).clockLog 2 0) ≤ tsc ((t.state n).clockLog 2 1) ∧
      tsc ((t.state n).clockLog 2 1) ≤ tsc ((t.state n).clockLog 2 2) := by
  have hrun : (run (guarded (stepBy false) PidsFit) (boot three false) childExits).any
      (fun s => (s.proc 1).state = .zombie ∧ (s.proc 1).pid = 2) = true := by decide +kernel
  obtain ⟨s,hs,hp⟩ := (Option.any_eq_true _ _).mp hrun
  have hp := of_decide_eq_true hp
  obtain ⟨t,hlabel,rfl⟩ := Trace.exists_of_run hs ⟨0,.go,⟨0,0⟩⟩
  have hclock : ∀ m < childExits.length, ∀ m' < childExits.length, m ≤ m' →
      tsc (childExits.getD m ⟨0,.go,⟨0,0⟩⟩).clock ≤ tsc (childExits.getD m' ⟨0,.go,⟨0,0⟩⟩).clock := by
    decide +kernel
  obtain ⟨-,-,-,hexit,horder⟩ := clocks_ordered (by decide) t.unguard (fun m hm => t.checked hm)
    (fun m m' hle hm' => by
      rw [show t.unguard.label m = _ from hlabel m,show t.unguard.label m' = _ from hlabel m']
      exact hclock m (by omega) m' hm' hle)
  obtain ⟨m,hm,he⟩ := hexit _ le_rfl 1 hp.1
  rw [show ((t.unguard.state childExits.length).proc 1).pid = 2 from hp.2] at he
  obtain ⟨-,-,-,-,-,-,-,-,-,h01,h12⟩ := horder m 2 hm he _ hm le_rfl
  exact ⟨_,t.unguard,hp.1,hp.2,h01,h12⟩

end Run
end Xv6.ClockLog
