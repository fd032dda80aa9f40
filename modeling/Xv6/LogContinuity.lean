import Xv6.HandoffStep
import Xv6.Journal

/-!
# Continuity of the scheduling log

In the round-robin kernel every assignment to `p->state` is meant to come with one call of
`writelog`, which is one step here. Three things break the pairing: `kill` makes a SLEEPING process
RUNNABLE without a record; `yield` writes its record before it acquires `ptable.lock`, so a timer
interrupt in between makes the process yield, and log, twice; and `nextpid` wraps around. `Regular`
excludes the three, and no more.
-/
namespace Xv6.LogContinuity
open SchedLog KernelState KernelStep Tally Frames Typing Effects Handoff Machine Journal List

section
variable {cfg : Config}

def recorded (b : Log) : List Entry := (range b.bufsize).map fun i => b.bufLog (i+1)

def LogContinuous (b : Log) : Prop := Continuous Entry.pid Entry.prevPstate Entry.nextPstate (recorded b)

def logState (b : Log) (pid : ℤ) : Option ProcState :=
  lastState Entry.pid Entry.nextPstate (recorded b) pid

/-- What makes a step regular, by the program points `k` of the CPU that moves:
`kill` wakes no process that is being recorded, `yield` is not called for a
recorded process inside another `yield`, and `nextpid` does not wrap around. -/
def RegularAt (s : State cfg) (c : cfg.CpuId) : List (Pc cfg) → Prop
  | .killScan pid i::_ => ∀ p, slot? cfg i = some p → (s.proc p).pid = pid →
      (s.proc p).state = .sleeping → s.log.records pid (s.proc p).name = false
  | .yield::k => ∀ p, (s.cpu c).proc = some p → isBufwrite (s.proc p).name = true →
      weight (yieldTok p) k = 0
  | .allocproc _ i::_ => ∀ p, slot? cfg i = some p → (s.proc p).state = .unused → s.nextpid < 2^31-1
  | _ => True

def Regular (s : State cfg) (c : cfg.CpuId) : Prop := RegularAt s c (code s c)

instance decidableRegularAt (s : State cfg) (c : cfg.CpuId) :
    (k : List (Pc cfg)) → Decidable (RegularAt s c k)
  | [] => isTrue trivial
  | pc::k => by
      induction pc using Pc.casesOn
      case killScan | yield | allocproc =>
        change Decidable (∀ _, _)
        infer_instance
      all_goals exact isTrue trivial

instance (s : State cfg) (c : cfg.CpuId) : Decidable (Regular s c) :=
  decidableRegularAt s c (code s c)

/-- A `yield` of `p` is logged and not yet carried out. -/
def yields (s : State cfg) (p : cfg.Slot) : ℕ := weight (yieldTok p) (s.frames (.kstack p))

/-- A wakeup of `p` is logged and not yet carried out. -/
def Waking (s : State cfg) (p : cfg.Slot) : Prop := ∃ c, weight (wakeTok p) (code s c) ≠ 0

def Logged (s : State cfg) (p : cfg.Slot) : Prop := yields s p ≠ 0 ∨ Waking s p

/-- What the log says about `p`, if it says anything. -/
def Expects (s : State cfg) (p : cfg.Slot) (st : ProcState) : Prop :=
  if isBufwrite (s.proc p).name then
    Logged s p ∧ st = .runnable ∨ ¬ Logged s p ∧ st = (s.proc p).state
  else st = .running

/-- The states of a process that has been through `fork`. -/
def Present : ProcState → Prop
  | .unused | .embryo => False
  | _ => True

/-- What the log and the stacks say about process `p`. -/
structure ProcOk (s : State cfg) (p : cfg.Slot) : Prop where
  last : s.log.bufsize < BUFSIZE → Present (s.proc p).state → ∀ st,
    logState s.log (s.proc p).pid = some st → Expects s p st
  embryo : (s.proc p).state = .embryo → logState s.log (s.proc p).pid = none
  pid : (s.proc p).state ≠ .unused → 0 < (s.proc p).pid ∧ (s.proc p).pid < s.nextpid
  unnamed : (s.proc p).state = .unused → isBufwrite (s.proc p).name = false
  idle : ¬ Alive (s.proc p).state → yields s p = 0
  calm : isBufwrite (s.proc p).name = true → (s.proc p).state ≠ .running → yields s p = 0
  once : isBufwrite (s.proc p).name = true → yields s p ≤ 1

structure LogOk (s : State cfg) : Prop where
  continuous : LogContinuous s.log
  off : s.log.finishedFork = false → s.log.bufsize = 0
  old : ∀ e ∈ recorded s.log, e.pid < s.nextpid
  nextpid : 0 < s.nextpid
  proc : ∀ p, ProcOk s p
  inj : ∀ p q, (s.proc p).state ≠ .unused → (s.proc q).state ≠ .unused →
    (s.proc p).pid = (s.proc q).pid → p = q
  raw : ∀ p q, weight (rawTok q) (s.frames (.kstack p)) ≠ 0 → isBufwrite (s.proc q).name = false

end

section
variable {cfg : Config} {s s' : State cfg} {c d : cfg.CpuId} {cl : Clock} {k : List (Pc cfg)}
  {p q cur : cfg.Slot} {b : Log} {pid : ℤ} {pname : Name} {st : ProcState} {k' : List (Pc cfg)}
  {i : ℕ}

theorem recorded_of_bufsize (h : b.bufsize = 0) : recorded b = [] := by simp [recorded,h]

theorem recorded_writelog (b : Log) (cl : Clock) (cpu : ℕ) (pid : ℤ) (pname : Name) (ev : Event)
    (prev next : ProcState) :
    recorded (writelog b cl cpu pid pname ev prev next) =
      if b.records pid pname ∧ b.bufsize < BUFSIZE then
        recorded b++[⟨cl,pid,pname,ev,prev,next,cpu⟩]
      else recorded b := by
  unfold writelog
  by_cases hr : b.records pid pname <;> by_cases hb : BUFSIZE ≤ b.bufsize
  · simp [hr,hb,recorded]
  · have hb' : b.bufsize < BUFSIZE := by omega
    simp only [hr,hb,hb',if_true,if_false,true_and,recorded,range_succ,map_append,
      map_cons,map_nil,Function.update_self]
    congr 1
    refine map_congr_left fun i hi => Function.update_of_ne ?_ _ _
    have := mem_range.mp hi
    omega
  · simp [hr]
  · simp [hr]

theorem writelog_bufsize_le (b : Log) (cl : Clock) (cpu : ℕ) (pid : ℤ) (pname : Name) (ev : Event)
    (prev next : ProcState) : b.bufsize ≤ (writelog b cl cpu pid pname ev prev next).bufsize := by
  unfold writelog
  split_ifs <;> simp

theorem writelog_of_not_records (h : b.records pid pname = false)
    (cl : Clock) (cpu : ℕ) (ev : Event) (prev next : ProcState) :
    writelog b cl cpu pid pname ev prev next = b := by
  simp [writelog,h]

theorem records_false_of_name (h : isBufwrite pname = false) :
    b.records pid pname = false := by simp [Log.records,h]

/-- A step leaves process `p` as it is for the log. -/
structure Same (s s' : State cfg) (p : cfg.Slot) : Prop where
  state : (s'.proc p).state = (s.proc p).state
  pid : (s'.proc p).pid = (s.proc p).pid
  name : (s'.proc p).name = (s.proc p).name
  yields : yields s' p = yields s p
  waking : Waking s' p ↔ Waking s p

theorem Same.expects (h : Same s s' p) (st : ProcState) : Expects s' p st ↔ Expects s p st := by
  unfold Expects Logged
  rw [h.state,h.name,h.yields,h.waking]

theorem ProcOk.same (h : ProcOk s p) (hs : Same s s' p) (hlog : (s.proc p).state ≠ .unused →
      logState s'.log (s.proc p).pid = logState s.log (s.proc p).pid)
    (hsize : s.log.bufsize ≤ s'.log.bufsize) (hnext : s.nextpid ≤ s'.nextpid) : ProcOk s' p := by
  refine ⟨?_,?_,?_,?_,?_,?_,?_⟩
  · intro hb hp st hst
    rw [hs.state] at hp
    rw [hs.pid,hlog (by rintro he; rw [he] at hp; exact hp)] at hst
    exact (hs.expects st).mpr (h.last (by omega) hp st hst)
  · intro he
    rw [hs.state] at he
    rw [hs.pid,hlog (by simp [he])]
    exact h.embryo he
  · rw [hs.state,hs.pid]
    intro hu
    have := h.pid hu
    omega
  · rw [hs.state,hs.name]
    exact h.unnamed
  · rw [hs.state,hs.yields]
    exact h.idle
  · rw [hs.state,hs.name,hs.yields]
    exact h.calm
  · rw [hs.name,hs.yields]
    exact h.once

theorem LogOk.update (h : LogOk s) (q : cfg.Slot) (hother : ∀ p, p ≠ q → Same s s' p)
    (hcont : LogContinuous s'.log) (hoff : s'.log.finishedFork = false → s'.log.bufsize = 0)
    (hsize : s.log.bufsize ≤ s'.log.bufsize) (hnext : s.nextpid ≤ s'.nextpid)
    (hlog : ∀ p, p ≠ q → (s.proc p).state ≠ .unused →
      logState s'.log (s.proc p).pid = logState s.log (s.proc p).pid)
    (hold : ∀ e ∈ recorded s'.log, e.pid < s'.nextpid)
    (hinj : (s'.proc q).state ≠ .unused → ∀ p, p ≠ q → (s.proc p).state ≠ .unused →
      (s.proc p).pid ≠ (s'.proc q).pid)
    (hraw : ∀ p r, weight (rawTok r) (s'.frames (.kstack p)) ≠ 0 →
      isBufwrite (s'.proc r).name = false) (hq : ProcOk s' q) : LogOk s' := by
  refine ⟨hcont,hoff,hold,lt_of_lt_of_le h.nextpid hnext,?_,?_,hraw⟩
  · intro p
    by_cases hp : p = q
    · exact hp ▸ hq
    · exact (h.proc p).same (hother p hp) (hlog p hp) hsize hnext
  · intro p r hp hr he
    by_cases hpq : p = q <;> by_cases hrq : r = q
    · rw [hpq,hrq]
    · subst hpq
      rw [(hother r hrq).state] at hr
      rw [(hother r hrq).pid] at he
      exact absurd he.symm (hinj hp r hrq hr)
    · subst hrq
      rw [(hother p hpq).state] at hp
      rw [(hother p hpq).pid] at he
      exact absurd he (hinj hr p hpq hp)
    · rw [(hother p hpq).state] at hp
      rw [(hother r hrq).state] at hr
      rw [(hother p hpq).pid,(hother r hrq).pid] at he
      exact h.inj p r hp hr he

theorem LogOk.silent (h : LogOk s) (q : cfg.Slot) (hother : ∀ p, p ≠ q → Same s s' p)
    (hrec : recorded s'.log = recorded s.log) (hsize : s'.log.bufsize = s.log.bufsize)
    (hff : s'.log.finishedFork = false → s.log.finishedFork = false)
    (hnext : s'.nextpid = s.nextpid)
    (hpid : (s'.proc q).state ≠ .unused → (s.proc q).state ≠ .unused ∧ (s'.proc q).pid = (s.proc q).pid)
    (hraw : ∀ p r, weight (rawTok r) (s'.frames (.kstack p)) ≠ 0 → isBufwrite (s'.proc r).name = false)
    (hq : ProcOk s' q) : LogOk s' := by
  have hstate : ∀ pid, logState s'.log pid = logState s.log pid := by
    intro pid
    unfold logState
    rw [hrec]
  refine h.update q hother ?_ ?_ hsize.ge hnext.ge (fun p _ _ => hstate _) ?_ ?_ hraw hq
  · unfold LogContinuous
    rw [hrec]
    exact h.continuous
  · intro hf
    rw [hsize]
    exact h.off (hff hf)
  · rw [hrec,hnext]
    exact h.old
  · intro hu p hp hpu he
    obtain ⟨hu',hp'⟩ := hpid hu
    exact hp (h.inj p q hpu hu' (he.trans hp'))

theorem LogOk.still (h : LogOk s) (hsame : ∀ p, Same s s' p) (hlog : s'.log = s.log)
    (hnext : s'.nextpid = s.nextpid)
    (hraw : ∀ p r, weight (rawTok r) (s'.frames (.kstack p)) ≠ 0 →
      weight (rawTok r) (s.frames (.kstack p)) ≠ 0) : LogOk s' := by
  have hproc : ∀ p, ProcOk s' p := fun p =>
    (h.proc p).same (hsame p) (fun _ => by rw [hlog]) (by rw [hlog]) hnext.ge
  refine h.silent ⟨0,cfg.nproc_pos⟩ (fun p _ => hsame p) (by rw [hlog]) (by rw [hlog])
    (fun hf => by rwa [hlog] at hf) hnext ?_ ?_ (hproc _)
  · rw [(hsame _).state,(hsame _).pid]
    exact fun hu => ⟨hu,rfl⟩
  · intro p r hr
    rw [(hsame r).name]
    exact h.raw p r (hraw p r hr)

theorem logState_writelog {ev : Event} {cpu : ℕ} {prev next : ProcState} (pid' : ℤ) :
    logState (writelog b cl cpu pid pname ev prev next) pid' =
      if (b.records pid pname ∧ b.bufsize < BUFSIZE) ∧ pid = pid' then some next
      else logState b pid' := by
  unfold logState
  rw [recorded_writelog]
  split_ifs with h1 h2 h2
  · rw [lastState_concat,if_pos h2.2]
  · rw [lastState_concat,if_neg fun h => h2 ⟨h1,h⟩]
  · exact absurd h2.1 h1
  · rfl

theorem present_or_embryo (h : (s.proc p).state ≠ .unused) :
    Present (s.proc p).state ∨ (s.proc p).state = .embryo := by
  cases hst : (s.proc p).state <;> first | exact .inl trivial | exact .inr rfl | exact absurd hst h

theorem LogOk.agrees (h : LogOk s) (hb : s.log.bufsize < BUFSIZE) (hu : (s.proc q).state ≠ .unused)
    (hn : isBufwrite (s.proc q).name = true) (hl : Present (s.proc q).state → ¬ Logged s q) (hst : logState s.log (s.proc q).pid = some st) : (s.proc q).state = st := by
  rcases present_or_embryo hu with hp | he
  · have hexp := (h.proc q).last hb hp st hst
    rw [Expects,if_pos hn] at hexp
    rcases hexp with ⟨hl',-⟩ | ⟨-,hexp⟩
    · exact absurd hl' (hl hp)
    · exact hexp.symm
  · rw [(h.proc q).embryo he] at hst
    cases hst

theorem LogOk.unrecorded (h : LogOk s) (hb : s.log.bufsize < BUFSIZE) (hu : (s.proc q).state ≠ .unused)
    (hr : s.log.records (s.proc q).pid (s.proc q).name = false) (hst : logState s.log (s.proc q).pid = some st) :
    isBufwrite (s.proc q).name = false ∧ st = .running := by
  have hff : s.log.finishedFork = true := by
    by_contra hff
    have hnil := recorded_of_bufsize (h.off (by simpa using hff))
    simp [logState,hnil,lastState,ofKey] at hst
  have hpid := ((h.proc q).pid hu).1
  have hname : isBufwrite (s.proc q).name = false := by
    by_contra hne
    simp only [Log.records,hff,Bool.true_and,Bool.and_eq_false_iff,bne_eq_false_iff_eq] at hr
    rcases hr with hr | hr
    · exact hne hr
    · omega
  refine ⟨hname,?_⟩
  rcases present_or_embryo hu with hp | he
  · have hexp := (h.proc q).last hb hp st hst
    rwa [Expects,if_neg (by simp [hname])] at hexp
  · rw [(h.proc q).embryo he] at hst
    cases hst

theorem LogOk.record {ev : Event} {next : ProcState} {cpu : ℕ} (h : LogOk s) (q : cfg.Slot)
    (hother : ∀ p, p ≠ q → Same s s' p)
    (hlog : s'.log = writelog s.log cl cpu (s.proc q).pid (s.proc q).name ev (s.proc q).state next)
    (hnext : s'.nextpid = s.nextpid) (hu : (s.proc q).state ≠ .unused)
    (hclear : isBufwrite (s.proc q).name = true → Present (s.proc q).state → ¬ Logged s q)
    (hraw : ∀ p r, weight (rawTok r) (s'.frames (.kstack p)) ≠ 0 → isBufwrite (s'.proc r).name = false)
    (hcase : (s'.proc q).state = .unused ∧ isBufwrite (s'.proc q).name = false ∨
      Present (s'.proc q).state ∧ (s'.proc q).pid = (s.proc q).pid ∧
        (s'.proc q).name = (s.proc q).name ∧ (isBufwrite (s.proc q).name = true → Expects s' q next))
    (hidle : ¬ Alive (s'.proc q).state → yields s' q = 0)
    (hcalm : isBufwrite (s'.proc q).name = true → (s'.proc q).state ≠ .running → yields s' q = 0)
    (honce : isBufwrite (s'.proc q).name = true → yields s' q ≤ 1) : LogOk s' := by
  have hsize : s.log.bufsize ≤ s'.log.bufsize := by
    rw [hlog]
    exact writelog_bufsize_le ..
  have hbound := (h.proc q).pid hu
  refine h.update q hother ?_ ?_ hsize hnext.ge ?_ ?_ ?_ hraw ?_
  · rw [hlog,LogContinuous,recorded_writelog]
    split_ifs with hr
    · refine h.continuous.concat fun st hst => ?_
      have hn : isBufwrite (s.proc q).name = true := by
        simp only [Log.records,Bool.and_eq_true] at hr
        exact hr.1.1.2
      exact h.agrees hr.2 hu hn (hclear hn) hst
    · exact h.continuous
  · intro hff
    rw [hlog,writelog_finishedFork] at hff
    rw [hlog,writelog_of_not_records (by simp [Log.records,hff])]
    exact h.off hff
  · intro p hp hpu
    rw [hlog,logState_writelog,if_neg]
    rintro ⟨-,he⟩
    exact hp (h.inj q p hu hpu he).symm
  · rw [hlog,recorded_writelog,hnext]
    split_ifs with hr
    · intro e he
      rcases List.mem_append.mp he with he | he
      · exact h.old e he
      · rw [mem_singleton] at he
        subst he
        exact hbound.2
    · exact h.old
  · intro hu' p hp hpu he
    rcases hcase with ⟨hun,-⟩ | ⟨-,hpid,-⟩
    · exact hu' hun
    · exact hp (h.inj p q hpu hu (he.trans hpid))
  · rcases hcase with ⟨hun,hn⟩ | ⟨hpres,hpid,hname,hexp⟩
    · refine ⟨?_,by simp [hun],fun hne => absurd hun hne,fun _ => hn,hidle,hcalm,honce⟩
      rw [hun]
      exact fun _ hp => hp.elim
    · refine ⟨?_,?_,?_,?_,hidle,hcalm,honce⟩
      · intro hb _ st hst
        rw [hpid,hlog,logState_writelog] at hst
        split_ifs at hst with hr
        · cases hst
          simp only [Log.records,Bool.and_eq_true] at hr
          exact hexp hr.1.1.1.2
        · have hr' : s.log.records (s.proc q).pid (s.proc q).name = false := by
            by_contra hne
            exact hr ⟨⟨by simpa using hne,by omega⟩,rfl⟩
          obtain ⟨hn,rfl⟩ := h.unrecorded (by omega) hu hr' hst
          rw [Expects,hname,hn]
          rfl
      · intro he
        rw [he] at hpres
        exact hpres.elim
      · intro _
        rw [hpid,hnext]
        exact hbound
      · intro hun
        rw [hun] at hpres
        exact hpres.elim

theorem waking_iff {x : Option cfg.Slot} (hC : Core false s) (hl : Local s s' c x)
    (hx : ∀ q, x = some q → (s.proc q).state = .embryo)
    (hw : weight (wakeTok p) (code s' c) = weight (wakeTok p) (code s c)) :
    Waking s' p ↔ Waking s p := by
  refine exists_congr fun d => ?_
  by_cases hd : d = c
  · rw [hd,hw]
  · rw [hC.code_other hl hx hd]

theorem not_waking (hC : Core false s) (h : (s.proc p).state ≠ .sleeping) : ¬ Waking s p := by
  rintro ⟨c,hc⟩
  exact h (hC.pend c p hc)

theorem frames_jump (hf : s'.frames = Function.update s.frames (s.cpu c).stack k') (w : Pc cfg → ℕ)
    (hw : weight w k' = weight w (code s c)) (st : Stack cfg) :
    weight w (s'.frames st) = weight w (s.frames st) := by
  rw [hf]
  by_cases hst : st = (s.cpu c).stack
  · subst hst
    rw [Function.update_self,hw]
    rfl
  · rw [Function.update_of_ne hst]

theorem code_jump (hst : (s'.cpu c).stack = (s.cpu c).stack)
    (hf : s'.frames = Function.update s.frames (s.cpu c).stack k') : code s' c = k' := by
  rw [code,hst,hf,Function.update_self]

theorem Same.jump (hC : Core false s) (hl : Local s s' c none) (hst : (s'.cpu c).stack = (s.cpu c).stack)
    (hf : s'.frames = Function.update s.frames (s.cpu c).stack k')
    (hstate : (s'.proc p).state = (s.proc p).state) (hpid : (s'.proc p).pid = (s.proc p).pid)
    (hname : (s'.proc p).name = (s.proc p).name)
    (hy : weight (yieldTok p) k' = weight (yieldTok p) (code s c))
    (hw : weight (wakeTok p) k' = weight (wakeTok p) (code s c)) : Same s s' p := by
  refine ⟨hstate,hpid,hname,frames_jump hf _ hy _,waking_iff hC hl (by simp) ?_⟩
  rw [code_jump hst hf,hw]

theorem rawTok_le (q : cfg.Slot) (l : List (Pc cfg)) : weight (rawTok q) l ≤ weight (forkTok q) l := by
  refine weight_le (fun pc => ?_) l
  cases pc <;> simp [rawTok,forkTok]

theorem raw_embryo (hC : Core false s) (h : weight (rawTok q) (s.frames (.kstack p)) ≠ 0) :
    (s.proc q).state = .embryo := by
  have hle := rawTok_le q (s.frames (.kstack p))
  have hsum := le_sum (fun p => weight (forkTok q) (s.frames (.kstack p))) p
  have hcount := hC.fork.count q
  by_contra hne
  rw [if_neg hne] at hcount
  simp only [hcount] at hsum
  omega

theorem LogOk.raw_keep (h : LogOk s) (hname : ∀ r, (s'.proc r).name = (s.proc r).name)
    (hle : ∀ p r, weight (rawTok r) (s'.frames (.kstack p)) ≠ 0 →
      weight (rawTok r) (s.frames (.kstack p)) ≠ 0) (p r : cfg.Slot)
    (hr : weight (rawTok r) (s'.frames (.kstack p)) ≠ 0) : isBufwrite (s'.proc r).name = false := by
  rw [hname]
  exact h.raw p r (hle p r hr)

theorem raw_jump (hf : s'.frames = Function.update s.frames (s.cpu c).stack k')
    (hw : ∀ r, weight (rawTok r) k' = weight (rawTok r) (code s c)) (p r : cfg.Slot)
    (h : weight (rawTok r) (s'.frames (.kstack p)) ≠ 0) :
    weight (rawTok r) (s.frames (.kstack p)) ≠ 0 := by
  rwa [frames_jump hf _ (hw r)] at h

theorem LogOk.quiet (h : LogOk s) (hC : Core false s) (hl : Local s s' c none)
    (hq : Quiet s s' c) : LogOk s' := by
  obtain ⟨k',hf,hd⟩ := hq.frames
  refine h.still (fun p => ?_) hq.log hq.nextpid (raw_jump hf fun r => hd.debt (.raw r))
  exact .jump hC hl (hq.cpu c).stack hf (hq.proc p).state (hq.proc p).pid (hq.proc p).name
    (hd.debt (.yields p)) (hd.debt (.wake p))

theorem yields_on (h : On s c p) : yields s p = weight (yieldTok p) (code s c) := by
  rw [yields,code,h.stack_eq]

theorem yields_jump (hf : s'.frames = Function.update s.frames (s.cpu c).stack k') (hon : On s c p) :
    yields s' p = weight (yieldTok p) k' := by
  rw [yields,hf,← hon.stack_eq,Function.update_self]

theorem not_logged (hC : Core false s) (hy : yields s p = 0) (h : (s.proc p).state ≠ .sleeping) :
    ¬ Logged s p := by
  rintro (hne | hw)
  · exact hne hy
  · exact not_waking hC h hw

theorem expects_state (h : ¬ Logged s p) (hn : isBufwrite (s.proc p).name = true) :
    Expects s p (s.proc p).state := by
  rw [Expects,if_pos hn]
  exact .inr ⟨h,rfl⟩

theorem expects_runnable (h : Logged s p ∨ (s.proc p).state = .runnable)
    (hn : isBufwrite (s.proc p).name = true) : Expects s p .runnable := by
  rw [Expects,if_pos hn]
  by_cases hl : Logged s p
  · exact .inl ⟨hl,rfl⟩
  · exact .inr ⟨hl,(h.resolve_left hl).symm⟩

theorem expects_running (h : isBufwrite (s.proc p).name = false) : Expects s p .running := by
  rw [Expects,if_neg (by simp [h])]

theorem ProcOk.change (h : LogOk s) (hlog : s'.log = s.log) (hnext : s'.nextpid = s.nextpid)
    (hu : (s.proc q).state ≠ .unused) (hpid : (s'.proc q).pid = (s.proc q).pid)
    (hp : Alive (s'.proc q).state)
    (hexp : s.log.bufsize < BUFSIZE → ∀ st, logState s.log (s.proc q).pid = some st → Expects s' q st)
    (hcalm : isBufwrite (s'.proc q).name = true → (s'.proc q).state ≠ .running → yields s' q = 0)
    (honce : isBufwrite (s'.proc q).name = true → yields s' q ≤ 1) : ProcOk s' q := by
  refine ⟨?_,?_,?_,?_,fun hn => absurd hp hn,hcalm,honce⟩
  · intro hb _ st hst
    rw [hlog] at hb
    rw [hlog,hpid] at hst
    exact hexp hb st hst
  · intro he
    rw [he] at hp
    exact hp.elim
  · intro _
    rw [hpid,hnext]
    exact (h.proc q).pid hu
  · intro he
    rw [he] at hp
    exact hp.elim

theorem ProcOk.building (h : LogOk s) (hlog : s'.log = s.log) (hnext : s'.nextpid = s.nextpid)
    (he : (s.proc q).state = .embryo) (he' : (s'.proc q).state = .embryo)
    (hpid : (s'.proc q).pid = (s.proc q).pid) (hy : yields s' q = 0) : ProcOk s' q := by
  refine ⟨?_,?_,?_,?_,fun _ => hy,fun _ _ => hy,fun _ => hy.trans_le (Nat.zero_le 1)⟩
  · rw [he']
    exact fun _ hp => hp.elim
  · intro _
    rw [hlog,hpid]
    exact (h.proc q).embryo he
  · intro _
    rw [hpid,hnext]
    exact (h.proc q).pid (by simp [he])
  · simp [he']

/-- `exec` renames a process that is RUNNING, and the log has it RUNNING. -/
theorem LogOk.execName {n : Name} (h : LogOk s) (hC : Core false s)
    (hk : code s c = .execName n::k) (hp : (s.cpu c).proc = some p)
    (hl : Local s (goto (setProc s p fun q => {q with name := n}) c k) c none) :
    LogOk (goto (setProc s p fun q => {q with name := n}) c k) := by
  have hok := hC.cpu c
  obtain ⟨H,-,-,hst,rfl⟩ := hok.rule hk
  obtain ⟨q,hon,hq⟩ := hok.on_of_isKstack hst
  rw [hp] at hq
  cases hq
  have hrun := hC.runs c p hon (by rw [hk]; rfl)
  have hy : yields s p = 0 := by rw [yields_on hon,hk]; rfl
  have hnl := not_logged hC hy (by simp [hrun])
  have hsame : ∀ r, r ≠ p → Same s (goto (setProc s p fun q => {q with name := n}) c sysTail) r := by
    intro r hr
    exact .jump hC hl rfl rfl (by simp [goto,setProc,hr]) (by simp [goto,setProc,hr])
      (by simp [goto,setProc,hr]) (by simp [hk,yieldTok]) (by simp [hk,wakeTok])
  have hy' : yields (goto (setProc s p fun q => {q with name := n}) c sysTail) p = 0 := by
    rw [← hy]
    exact frames_jump rfl _ (by simp [hk,yieldTok]) _
  have hw' : ¬ Waking (goto (setProc s p fun q => {q with name := n}) c sysTail) p := by
    rw [waking_iff hC hl (by simp) (by simp [hk,wakeTok])]
    exact not_waking hC (by simp [hrun])
  have hraw : ∀ p' r, weight (rawTok r) (s.frames (.kstack p')) ≠ 0 → r ≠ p := by
    rintro p' r hr rfl
    have := raw_embryo hC hr
    rw [hrun] at this
    cases this
  refine h.silent p hsame rfl rfl (fun hf => hf) rfl ?_ ?_ ?_
  · intro _
    exact ⟨by simp [hrun],by simp [goto,setProc]⟩
  · intro p' r hr
    have hr' := raw_jump (s := s) (c := c) rfl (by simp [hk,rawTok]) p' r hr
    rw [(hsame r (hraw p' r hr')).name]
    exact h.raw p' r hr'
  · refine .change h rfl rfl (by simp [hrun]) (by simp [goto,setProc]) ?_ ?_ (fun _ _ => hy') ?_
    · simp [goto,setProc,hrun,Alive]
    · intro hb st hst
      have hst' : st = .running := by
        have := (h.proc p).last hb (by rw [hrun]; trivial) st hst
        unfold Expects at this
        split_ifs at this with hn
        · rcases this with ⟨hl',-⟩ | ⟨-,this⟩
          · exact absurd hl' hnl
          · rw [this,hrun]
        · exact this
      subst hst'
      rw [Expects]
      split_ifs
      · refine .inr ⟨?_,by simp [goto,setProc,hrun]⟩
        rintro (hne | hw)
        · exact hne hy'
        · exact hw' hw
      · rfl
    · intro _
      rw [hy']
      exact Nat.zero_le 1

theorem LogOk.alloc (h : LogOk s) (hC : Core false s) (hreg : Regular s c)
    (hk : code s c = .allocproc cur i::k) (hi : slot? cfg i = some p)
    (hp : (s.proc p).state = .unused)
    (hl : Local s (goto (allocSlot s c cl p) c (.release .ptable::.allocStack cur p::k)) c none) :
    LogOk (goto (allocSlot s c cl p) c (.release .ptable::.allocStack cur p::k)) := by
  have hn := (h.proc p).unnamed hp
  rw [Regular,hk] at hreg
  have hwrap := hreg p hi hp
  have hnext : (goto (allocSlot s c cl p) c (.release .ptable::.allocStack cur p::k)).nextpid =
      s.nextpid+1 := if_neg (by omega : s.nextpid ≠ 2^31-1)
  have hlog : (goto (allocSlot s c cl p) c (.release .ptable::.allocStack cur p::k)).log = s.log := by
    simp [goto,allocSlot,setState,setProc,logProc,writelog,records_false_of_name hn]
  have hy : ∀ r, yields (goto (allocSlot s c cl p) c (.release .ptable::.allocStack cur p::k)) r =
      yields s r := fun r => frames_jump rfl _ (by simp [hk,yieldTok]) _
  have hfresh : logState s.log s.nextpid = none :=
    lastState_eq_none fun e he => (h.old e he).ne
  generalize hs' : goto (allocSlot s c cl p) c (.release .ptable::.allocStack cur p::k) = s' at *
  have hproc : (s'.proc p).state = .embryo ∧ (s'.proc p).pid = s.nextpid ∧
      (s'.proc p).name = (s.proc p).name := by
    subst hs'
    simp [goto,allocSlot,setState,setProc,logProc]
  obtain ⟨hst',hpid',hname'⟩ := hproc
  have hsame : ∀ r, r ≠ p → Same s s' r := by
    intro r hr
    subst hs'
    exact .jump hC hl rfl rfl (by simp [goto,allocSlot,setState,setProc,logProc,hr])
      (by simp [goto,allocSlot,setState,setProc,logProc,hr])
      (by simp [goto,allocSlot,setState,setProc,logProc,hr]) (by simp [hk,yieldTok])
      (by simp [hk,wakeTok])
  refine h.update p hsame ?_ ?_ (by rw [hlog]) (by omega) (fun _ _ _ => by rw [hlog]) ?_ ?_ ?_ ?_
  · rw [hlog]
    exact h.continuous
  · rw [hlog]
    exact h.off
  · intro e he
    rw [hlog] at he
    have := h.old e he
    omega
  · intro _ r _ hr
    have := ((h.proc r).pid hr).2
    omega
  · intro p' r hr
    by_cases hrp : r = p
    · rw [hrp,hname']
      exact hn
    · rw [(hsame r hrp).name]
      refine h.raw p' r ?_
      subst hs'
      rwa [frames_jump (s := s) (c := c) rfl] at hr
      simp [hk,rawTok,Ne.symm hrp]
  · refine ⟨?_,?_,?_,?_,?_,?_,?_⟩
    · rw [hst']
      exact fun _ hp => hp.elim
    · intro _
      rw [hlog,hpid']
      exact hfresh
    · intro _
      have := h.nextpid
      omega
    · rw [hst']
      simp
    · intro _
      rw [hy]
      exact (h.proc p).idle (by simp [hp,Alive])
    · rw [hname',hn]
      simp
    · rw [hname',hn]
      simp

/-- `fork` gives an allocated slot back before it has named it. -/
theorem LogOk.allocFail {pc : Pc cfg} (h : LogOk s) (hC : Core false s)
    (hk : code s c = pc::k) (hpc : pc = .allocStack cur p ∨ pc = .forkCopy cur p)
    (hl : Local s (goto (setState s p .unused) c k) c none) :
    LogOk (goto (setState s p .unused) c k) := by
  have hok := hC.cpu c
  have hst : (s.cpu c).stack = .kstack cur := by
    rcases hpc with rfl | rfl <;> obtain ⟨H,-,-,hst,-⟩ := hok.rule hk <;> exact hst
  have hraw : weight (rawTok p) (s.frames (.kstack cur)) ≠ 0 := by
    rw [← hst,← code,hk]
    rcases hpc with rfl | rfl <;> simp [rawTok]
  have hn := h.raw cur p hraw
  have hembryo := raw_embryo hC hraw
  have htok : ∀ r, weight (yieldTok r) k = weight (yieldTok r) (code s c) ∧
      weight (wakeTok r) k = weight (wakeTok r) (code s c) ∧
      weight (rawTok r) k ≤ weight (rawTok r) (code s c) := by
    intro r
    rw [hk]
    rcases hpc with rfl | rfl <;> simp [yieldTok,wakeTok]
  have hsame : ∀ r, r ≠ p → Same s (goto (setState s p .unused) c k) r := by
    intro r hr
    exact .jump hC hl rfl rfl (by simp [goto,setState,setProc,hr])
      (by simp [goto,setState,setProc,hr]) (by simp [goto,setState,setProc,hr]) (htok r).1 (htok r).2.1
  refine h.silent p hsame rfl rfl (fun hf => hf) rfl ?_ ?_ ?_
  · simp [goto,setState,setProc]
  · intro p' r hr
    by_cases hrp : r = p
    · subst hrp
      simpa [goto,setState,setProc] using hn
    · rw [(hsame r hrp).name]
      refine h.raw p' r fun h0 => hr ?_
      by_cases hp' : Stack.kstack p' = (s.cpu c).stack
      · have := (htok r).2.2
        rw [code,← hp',h0] at this
        simpa [goto,setState,setProc,hp'] using this
      · simpa [goto,setState,setProc,hp'] using h0
  · have hy : yields (goto (setState s p .unused) c k) p = yields s p :=
      frames_jump rfl _ (htok p).1 _
    refine ⟨?_,?_,?_,?_,?_,?_,?_⟩
    · simp [goto,setState,setProc,Present]
    · simp [goto,setState,setProc]
    · simp [goto,setState,setProc]
    · simpa [goto,setState,setProc] using hn
    · intro _
      rw [hy]
      exact (h.proc p).idle (by simp [hembryo,Alive])
    · simp [goto,setState,setProc,hn]
    · simp [goto,setState,setProc,hn]

theorem LogOk.allocOk (h : LogOk s) (hC : Core false s) (hk : code s c = .allocStack cur p::k)
    (hl : Local s (goto (buildStack s p) c (.forkCopy cur p::k)) c (some p)) :
    LogOk (goto (buildStack s p) c (.forkCopy cur p::k)) := by
  have hembryo := hC.allocating hk
  obtain ⟨H,-,-,hst,rfl⟩ := (hC.cpu c).rule hk
  have hne : cur ≠ p := by
    rintro rfl
    exact hC.not_on (c := c) (by simp [hembryo]) (by simp [hembryo,Resting]) hst
  have hf : ∀ r, (goto (buildStack s p) c (.forkCopy cur p::sysTail)).frames (.kstack r) =
      if r = cur then .forkCopy cur p::sysTail else if r = p then [.forkret,.user]
      else s.frames (.kstack r) := by
    intro r
    simp only [goto,buildStack,setProc,hst,Function.update_apply,Stack.kstack.injEq]
  have hcur : s.frames (.kstack cur) = .allocStack cur p::sysTail := by rw [← hst]; exact hk
  have hsame : ∀ r, r ≠ p → Same s (goto (buildStack s p) c (.forkCopy cur p::sysTail)) r := by
    intro r hr
    refine ⟨by simp [goto,buildStack,setProc,hr],by simp [goto,buildStack,setProc,hr],
      by simp [goto,buildStack,setProc,hr],?_,waking_iff hC hl ?_ (by simp [hk,wakeTok])⟩
    · rw [yields,yields,hf]
      split_ifs with hrc
      · rw [hrc,hcur]
        simp [yieldTok]
      · rfl
    · rintro q hq
      cases hq
      exact hembryo
  refine h.silent p hsame rfl rfl (fun hf => hf) rfl ?_ ?_ ?_
  · intro _
    exact ⟨by simp [hembryo],by simp [goto,buildStack,setProc]⟩
  · refine h.raw_keep ?_ ?_
    · intro r
      by_cases hr : r = p
      · simp [goto,buildStack,setProc,hr]
      · exact (hsame r hr).name
    · intro p' r hr
      rw [hf] at hr
      split_ifs at hr with h1 h2
      · rw [h1,hcur]
        simpa [rawTok] using hr
      · simp [rawTok] at hr
      · exact hr
  · have hy : yields (goto (buildStack s p) c (.forkCopy cur p::sysTail)) p = 0 := by
      rw [yields,hf,if_neg hne.symm,if_pos rfl]
      rfl
    have hstate : ((goto (buildStack s p) c (.forkCopy cur p::sysTail)).proc p).state = .embryo := by
      simpa [goto,buildStack,setProc] using hembryo
    have hpid : ((goto (buildStack s p) c (.forkCopy cur p::sysTail)).proc p).pid = (s.proc p).pid := by
      simp [goto,buildStack,setProc]
    exact .building h rfl rfl hembryo hstate hpid hy

theorem LogOk.forkCopy (h : LogOk s) (hC : Core false s) (hk : code s c = .forkCopy cur p::k)
    (hl : Local s (goto (copyProc s cl cur p) c (.acquire .ptable::.forkRun p::k)) c none) :
    LogOk (goto (copyProc s cl cur p) c (.acquire .ptable::.forkRun p::k)) := by
  obtain ⟨H,-,-,hst,rfl⟩ := (hC.cpu c).rule hk
  have hcur : s.frames (.kstack cur) = .forkCopy cur p::sysTail := by rw [← hst]; exact hk
  have hembryo : (s.proc p).state = .embryo := hC.embryo (p := cur) hst (by simp [hk,forkTok])
  have hsame : ∀ r, r ≠ p →
      Same s (goto (copyProc s cl cur p) c (.acquire .ptable::.forkRun p::sysTail)) r := by
    intro r hr
    exact .jump hC hl rfl rfl (by simp [goto,copyProc,logClock,setProc,hr])
      (by simp [goto,copyProc,logClock,setProc,hr]) (by simp [goto,copyProc,logClock,setProc,hr])
      (by simp [hk,yieldTok]) (by simp [hk,wakeTok])
  refine h.silent p hsame rfl rfl (fun hf => hf) rfl ?_ ?_ ?_
  · intro _
    exact ⟨by simp [hembryo],by simp [goto,copyProc,logClock,setProc]⟩
  · intro p' r hr
    have hp' : p' ≠ cur := by
      rintro rfl
      simp [goto,copyProc,logClock,setProc,hst,rawTok,sysTail] at hr
    have hne : Stack.kstack p' ≠ (s.cpu c).stack := by
      rw [hst]
      exact fun he => hp' (Stack.kstack.inj he)
    have hr' : weight (rawTok r) (s.frames (.kstack p')) ≠ 0 := by
      simpa [goto,copyProc,logClock,setProc,hne] using hr
    by_cases hrp : r = p
    · exfalso
      subst hrp
      have hcount := hC.fork.count r
      rw [if_pos hembryo] at hcount
      have hle : weight (rawTok r) (s.frames (.kstack p')) ≤
          weight (forkTok r) (s.frames (.kstack p')) := rawTok_le _ _
      have hsum := add_le_sum (fun p => weight (forkTok r) (s.frames (.kstack p))) hp'
      have hone : weight (forkTok r) (s.frames (.kstack cur)) ≠ 0 := by simp [hcur,forkTok]
      simp only [hcount] at hsum
      omega
    · rw [(hsame r hrp).name]
      exact h.raw p' r hr'
  · refine .building h rfl rfl hembryo (by simpa [goto,copyProc,logClock,setProc] using hembryo)
      (by simp [goto,copyProc,logClock,setProc]) ?_
    rw [← (h.proc p).idle (by simp [hembryo,Alive])]
    exact frames_jump rfl _ (by simp [hk,yieldTok]) _

theorem LogOk.forkRun (h : LogOk s) (hC : Core false s) (hk : code s c = .forkRun p::k)
    (hl : Local s (goto (setState (logProc s c cl p .fork .runnable) p .runnable) c
      (.release .ptable::k)) c none) :
    LogOk (goto (setState (logProc s c cl p .fork .runnable) p .runnable) c (.release .ptable::k)) := by
  obtain ⟨H,-,-,hst,-⟩ := (hC.cpu c).rule hk
  obtain ⟨cur,hon,-⟩ := (hC.cpu c).on_of_isKstack hst
  have hembryo : (s.proc p).state = .embryo := hC.embryo hon (by simp [hk,forkTok])
  have hy : yields (goto (setState (logProc s c cl p .fork .runnable) p .runnable) c
      (.release .ptable::k)) p = 0 := by
    rw [← (h.proc p).idle (by simp [hembryo,Alive])]
    exact frames_jump rfl _ (by simp [hk,yieldTok]) _
  refine h.record p (fun r hr => ?_) rfl rfl (by simp [hembryo]) ?_ ?_ (.inr ⟨?_,?_,?_,?_⟩)
    (fun _ => hy) (fun _ _ => hy) fun _ => hy.trans_le (Nat.zero_le 1)
  · exact .jump hC hl rfl rfl (by simp [goto,setState,setProc,logProc,hr])
      (by simp [goto,setState,setProc,logProc,hr]) (by simp [goto,setState,setProc,logProc,hr])
      (by simp [hk,yieldTok]) (by simp [hk,wakeTok])
  · rw [hembryo]
    exact fun _ hp => hp.elim
  · refine h.raw_keep (fun r => ?_) (raw_jump rfl (by simp [hk,rawTok]))
    by_cases hr : r = p <;> simp [goto,setState,setProc,logProc,hr]
  · simp [goto,setState,setProc,Present]
  · simp [goto,setState,setProc,logProc]
  · simp [goto,setState,setProc,logProc]
  · intro hn
    exact expects_runnable (.inr (by simp [goto,setState,setProc]))
      (by simpa [goto,setState,setProc,logProc] using hn)

/-- `yield` logs a RUNNING process that has no other `yield` under way. -/
theorem LogOk.yield (h : LogOk s) (hC : Core false s) (hreg : Regular s c)
    (hk : code s c = .yield::k) (hp : (s.cpu c).proc = some p)
    (hl : Local s (goto (logProc s c cl p .yield .runnable) c
      (.acquire .ptable::.yieldLocked p::k)) c none) :
    LogOk (goto (logProc s c cl p .yield .runnable) c (.acquire .ptable::.yieldLocked p::k)) := by
  obtain ⟨H,-,-,hst,hcalm,-⟩ := (hC.cpu c).rule hk
  obtain ⟨q,hon,hq⟩ := (hC.cpu c).on_of_isKstack hst
  rw [hp] at hq
  cases hq
  have hrun := hC.runs c p hon (by rw [hk]; exact hcalm.plain)
  rw [Regular,hk] at hreg
  have hzero := hreg p hp
  have hy' : yields (goto (logProc s c cl p .yield .runnable) c
      (.acquire .ptable::.yieldLocked p::k)) p = 1+weight (yieldTok p) k := by
    rw [yields_jump (s := s) rfl hon]
    simp [yieldTok]
  refine h.record p (fun r hr => ?_) rfl rfl (by simp [hrun]) ?_ ?_ (.inr ⟨?_,rfl,rfl,?_⟩) ?_ ?_ ?_
  · exact .jump hC hl rfl rfl rfl rfl rfl (by simp [hk,yieldTok,Ne.symm hr]) (by simp [hk,wakeTok])
  · intro hn _
    refine not_logged hC ?_ (by simp [hrun])
    rw [yields_on hon,hk]
    simpa [yieldTok] using hzero hn
  · exact h.raw_keep (fun _ => rfl) (raw_jump rfl (by simp [hk,rawTok]))
  · simp [goto,logProc,hrun,Present]
  · intro hn
    exact expects_runnable (.inl (.inl (by omega))) hn
  · simp [goto,logProc,hrun,Alive]
  · simp [goto,logProc,hrun]
  · intro hn
    have := hzero hn
    omega

theorem LogOk.settle {s₁ : State cfg} (h : LogOk s) (hC : Core false s)
    (hl : Local s (goto s₁ c k') c none) (hs₁ : s₁ = setState s p .runnable)
    (hlogged : Logged s p) (hu : (s.proc p).state ≠ .unused)
    (htok : ∀ r, r ≠ p → weight (yieldTok r) k' = weight (yieldTok r) (code s c) ∧
      weight (wakeTok r) k' = weight (wakeTok r) (code s c))
    (hraw : ∀ r, weight (rawTok r) k' = weight (rawTok r) (code s c))
    (hy : isBufwrite (s.proc p).name = true → yields (goto s₁ c k') p = 0) :
    LogOk (goto s₁ c k') := by
  subst hs₁
  refine h.silent p (fun r hr => ?_) rfl rfl (fun hf => hf) rfl ?_ ?_ ?_
  · exact .jump hC hl rfl rfl (by simp [goto,setState,setProc,hr])
      (by simp [goto,setState,setProc,hr]) (by simp [goto,setState,setProc,hr]) (htok r hr).1
      (htok r hr).2
  · intro _
    exact ⟨hu,by simp [goto,setState,setProc]⟩
  · refine h.raw_keep (fun r => ?_) (raw_jump rfl hraw)
    by_cases hr : r = p <;> simp [goto,setState,setProc,hr]
  · have hname : ((goto (setState s p .runnable) c k').proc p).name = (s.proc p).name := by
      simp [goto,setState,setProc]
    refine .change h rfl rfl hu (by simp [goto,setState,setProc])
      (by simp [goto,setState,setProc,Alive]) ?_ ?_ ?_
    · intro hb st hst
      have hp : Present (s.proc p).state := by
        rcases present_or_embryo hu with hp | he
        · exact hp
        · rw [(h.proc p).embryo he] at hst
          cases hst
      have hexp := (h.proc p).last hb hp st hst
      by_cases hn : isBufwrite (s.proc p).name = true
      · rw [Expects,if_pos hn] at hexp
        have hst' : st = .runnable := by
          rcases hexp with ⟨-,hst'⟩ | ⟨hnl,-⟩
          · exact hst'
          · exact absurd hlogged hnl
        subst hst'
        exact expects_runnable (.inr (by simp [goto,setState,setProc])) (hname ▸ hn)
      · rw [Expects,if_neg hn] at hexp
        subst hexp
        exact expects_running (by rw [hname]; simpa using hn)
    · intro hn _
      exact hy (hname ▸ hn)
    · intro hn
      exact (hy (hname ▸ hn)).trans_le (Nat.zero_le 1)

theorem LogOk.yieldRunnable (h : LogOk s) (hC : Core false s) (hk : code s c = .yieldRunnable p::k)
    (hl : Local s (giveUp s c p .runnable (.release .ptable::k)) c none) :
    LogOk (giveUp s c p .runnable (.release .ptable::k)) := by
  obtain ⟨H,-,-,hst,hcalm,-⟩ := (hC.cpu c).rule hk
  have hon : On s c p := hst
  have hrun := hC.runs c p hon (by rw [hk]; exact hcalm.plain)
  have hy : yields s p = 1+weight (yieldTok p) k := by
    rw [yields_on hon,hk]
    simp [yieldTok]
  refine h.settle hC hl rfl (.inl (by omega)) (by simp [hrun]) (fun r hr => ?_) (by simp [hk,rawTok]) ?_
  · simp [hk,yieldTok,wakeTok,Ne.symm hr]
  · intro hn
    have hone := (h.proc p).once hn
    rw [yields_jump (s := s) rfl hon]
    simp only [weight_cons,yieldTok]
    omega

theorem LogOk.wakeupSet {ch : Option (Chan cfg)} (h : LogOk s) (hC : Core false s)
    (hk : code s c = .wakeupSet p ch::k)
    (hl : Local s (goto (setState s p .runnable) c (.wakeup1 (p+1) ch::k)) c none) :
    LogOk (goto (setState s p .runnable) c (.wakeup1 (p+1) ch::k)) := by
  have hpend := hC.pend c p (by simp [hk,wakeTok])
  refine h.settle hC hl rfl (.inr ⟨c,by simp [hk,wakeTok]⟩) (by simp [hpend]) (fun r hr => ?_)
    (by simp [hk,rawTok]) ?_
  · simp [hk,yieldTok,wakeTok,Ne.symm hr]
  · intro hn
    rw [← (h.proc p).calm hn (by simp [hpend])]
    exact frames_jump rfl _ (by simp [hk,yieldTok]) _

theorem LogOk.rest {s₁ : State cfg} (cl : Clock) (ev : Event)
    (h : LogOk s) (hC : Core false s) (hl : Local s (goto s₁ c k') c none) (hon : On s c p)
    (hm : mode (code s c) = .plain) (hst : st = .sleeping ∨ st = .zombie)
    (hcpu : s₁.cpu = s.cpu) (hf : s₁.frames = s.frames) (hnext : s₁.nextpid = s.nextpid)
    (hlog : s₁.log = writelog s.log cl c.val (s.proc p).pid (s.proc p).name ev (s.proc p).state st)
    (hproc : ∀ r, (s₁.proc r).state = (if r = p then st else (s.proc r).state) ∧
      (s₁.proc r).pid = (s.proc r).pid ∧ (s₁.proc r).name = (s.proc r).name)
    (htok : ∀ r, r ≠ p → weight (yieldTok r) k' = weight (yieldTok r) (code s c))
    (hwake : ∀ r, weight (wakeTok r) k' = weight (wakeTok r) (code s c))
    (hraw : ∀ r, weight (rawTok r) k' = weight (rawTok r) (code s c))
    (hy : weight (yieldTok p) (code s c) = 0) (hy' : weight (yieldTok p) k' = 0) :
    LogOk (goto s₁ c k') := by
  have hrun := hC.runs c p hon hm
  have hfr : (goto s₁ c k').frames = Function.update s.frames (s.cpu c).stack k' := by
    simp only [goto,hcpu,hf]
  have hstk : ((goto s₁ c k').cpu c).stack = (s.cpu c).stack := by simp only [goto,hcpu]
  have hyields : yields (goto s₁ c k') p = 0 := (yields_jump hfr hon).trans hy'
  have hstate : ((goto s₁ c k').proc p).state = st := (hproc p).1.trans (if_pos rfl)
  have hname : ∀ r, ((goto s₁ c k').proc r).name = (s.proc r).name := fun r => (hproc r).2.2
  refine h.record p (fun r hr => ?_) hlog hnext (by simp [hrun]) ?_ ?_
    (.inr ⟨?_,(hproc p).2.1,hname p,?_⟩) (fun _ => hyields) (fun _ _ => hyields)
    fun _ => hyields.trans_le (Nat.zero_le 1)
  · exact .jump hC hl hstk hfr ((hproc r).1.trans (if_neg hr)) (hproc r).2.1 (hname r) (htok r hr)
      (hwake r)
  · intro _ _
    exact not_logged hC ((yields_on hon).trans hy) (by simp [hrun])
  · exact h.raw_keep hname (raw_jump hfr hraw)
  · rw [hstate]
    rcases hst with rfl | rfl <;> trivial
  · intro hn
    have hw : ¬ Waking (goto s₁ c k') p := by
      rw [waking_iff hC hl (by simp) (by rw [code_jump hstk hfr,hwake])]
      exact not_waking hC (by simp [hrun])
    have := expects_state (s := goto s₁ c k') (p := p) ?_ (hname p ▸ hn)
    · rwa [hstate] at this
    · rintro (hne | hw')
      · exact hne hyields
      · exact hw hw'

theorem LogOk.sleepLocked {ch : Chan cfg} {l : Lock cfg} (h : LogOk s) (hC : Core false s)
    (hk : code s c = .sleepLocked p ch l::k)
    (hl : Local s (giveUp
      (logProc (setProc s p fun q => {q with chan := some ch}) c cl p .sleep .sleeping)
      c p .sleeping (.sleepAwake p l::k)) c none) :
    LogOk (giveUp (logProc (setProc s p fun q => {q with chan := some ch}) c cl p .sleep .sleeping)
      c p .sleeping (.sleepAwake p l::k)) := by
  obtain ⟨H,-,-,-,hst,hcalm,-⟩ := (hC.cpu c).rule hk
  have hy := hcalm.unlogged p
  refine LogOk.rest cl .sleep h hC hl hst (by rw [hk]; exact hcalm.plain) (.inl rfl) rfl rfl
    rfl ?_ (fun r => ?_) (fun r _ => by simp [hk,yieldTok]) (fun r => by simp [hk,wakeTok])
    (by simp [hk,rawTok]) (by simpa [hk,yieldTok] using hy) (by simpa [yieldTok] using hy)
  · simp [setState,setProc,logProc]
  · by_cases hr : r = p <;> simp [setState,setProc,logProc,hr]

theorem LogOk.exitEnd (h : LogOk s) (hC : Core false s) (hk : code s c = .exitReparent p i::k)
    (hl : Local s (giveUp (logProc (logClock s cl p 2) c cl p .exit .zombie) c p .zombie
      (.zombieExit::k)) c none) :
    LogOk (giveUp (logProc (logClock s cl p 2) c cl p .exit .zombie) c p .zombie (.zombieExit::k)) := by
  obtain ⟨H,-,-,hst,rfl⟩ := (hC.cpu c).rule hk
  refine LogOk.rest cl .exit h hC hl hst (by rw [hk]; rfl) (.inr rfl) rfl rfl rfl rfl
    (fun r => ?_) (fun r _ => by simp [hk,yieldTok]) (fun r => by simp [hk,wakeTok])
    (by simp [hk,rawTok]) (by simp [hk,yieldTok]) (by simp [yieldTok])
  by_cases hr : r = p <;> simp [setState,setProc,logProc,logClock,hr]

/-- `wakeup1` logs a SLEEPING process that no other CPU is waking. -/
theorem LogOk.wakeHit {ch : Option (Chan cfg)} (h : LogOk s) (hC : Core false s)
    (hk : code s c = .wakeup1 i ch::k) (hp : (s.proc p).state = .sleeping)
    (hl : Local s (goto (logProc s c cl p .wakeup .runnable) c (.wakeupSet p ch::k)) c none) :
    LogOk (goto (logProc s c cl p .wakeup .runnable) c (.wakeupSet p ch::k)) := by
  obtain ⟨H,hh,hpt,-,hset,-⟩ := (hC.cpu c).rule hk
  have hy : yields (goto (logProc s c cl p .wakeup .runnable) c (.wakeupSet p ch::k)) p = yields s p :=
    frames_jump rfl _ (by simp [hk,yieldTok]) _
  refine h.record p (fun r hr => ?_) rfl rfl (by simp [hp]) ?_ ?_ (.inr ⟨?_,rfl,rfl,?_⟩) ?_ ?_ ?_
  · exact .jump hC hl rfl rfl rfl rfl rfl (by simp [hk,yieldTok]) (by simp [hk,wakeTok,Ne.symm hr])
  · rintro hn - (hne | ⟨d,hd⟩)
    · exact hne ((h.proc p).calm hn (by simp [hp]))
    · have hlock := lock_of_wakeTok (hC.cpu d) hd
      rw [(hh.locks _).mpr hpt] at hlock
      cases hlock
      have := weight_le (wakeTok_le_setTok p) k
      have := hset p
      rw [hk] at hd
      simp only [weight_cons,wakeTok] at hd
      omega
  · exact h.raw_keep (fun _ => rfl) (raw_jump rfl (by simp [hk,rawTok]))
  · simp [goto,logProc,hp,Present]
  · intro hn
    exact expects_runnable (.inl (.inr ⟨c,by simp [wakeTok]⟩)) hn
  · simp [goto,logProc,hp,Alive]
  · intro hn hne
    rw [hy]
    exact (h.proc p).calm hn hne
  · intro hn
    rw [hy]
    exact (h.proc p).once hn

/-- `kill` changes the state of a process without a record, of a process that is
not recorded. -/
theorem LogOk.killHit (h : LogOk s) (hC : Core false s) (hreg : Regular s c)
    (hk : code s c = .killScan pid i::k) (hi : slot? cfg i = some p) (hpid : (s.proc p).pid = pid)
    (hp : (s.proc p).state = .sleeping)
    (hl : Local s (goto (setProc s p fun q => {q with killed := true, state := .runnable}) c
      (.release .ptable::k)) c none) :
    LogOk (goto (setProc s p fun q => {q with killed := true, state := .runnable}) c
      (.release .ptable::k)) := by
  rw [Regular,hk] at hreg
  have hr := hreg p hi hpid hp
  rw [← hpid] at hr
  have hy : yields (goto (setProc s p fun q => {q with killed := true, state := .runnable}) c
      (.release .ptable::k)) p = yields s p := frames_jump rfl _ (by simp [hk,yieldTok]) _
  refine h.silent p (fun r hr => ?_) rfl rfl (fun hf => hf) rfl ?_ ?_ ?_
  · exact .jump hC hl rfl rfl (by simp [goto,setProc,hr]) (by simp [goto,setProc,hr])
      (by simp [goto,setProc,hr]) (by simp [hk,yieldTok]) (by simp [hk,wakeTok])
  · intro _
    exact ⟨by simp [hp],by simp [goto,setProc]⟩
  · refine h.raw_keep (fun r => ?_) (raw_jump rfl (by simp [hk,rawTok]))
    by_cases hr : r = p <;> simp [goto,setProc,hr]
  · have hname : ((goto (setProc s p fun q => {q with killed := true, state := .runnable}) c
        (.release .ptable::k)).proc p).name = (s.proc p).name := by simp [goto,setProc]
    refine .change h rfl rfl (by simp [hp]) (by simp [goto,setProc])
      (by simp [goto,setProc,Alive]) ?_ ?_ ?_
    · intro hb st hst
      obtain ⟨hn,rfl⟩ := h.unrecorded hb (by simp [hp]) hr hst
      exact expects_running (hname ▸ hn)
    · intro hn _
      rw [hy]
      exact (h.proc p).calm (hname ▸ hn) (by simp [hp])
    · intro hn
      rw [hy]
      exact (h.proc p).once (hname ▸ hn)

theorem isBufwrite_set (n : Name) : isBufwrite (n.set 0 0 name_pos) = false := by
  have hlen : n.toList.length = 16 := by simp
  unfold isBufwrite
  rw [Vector.toList_set]
  cases hn : n.toList with
  | nil => simp [hn] at hlen
  | cons => simp [mystrcmp,bufwriteBytes]

theorem LogOk.reap {kids : Bool} (h : LogOk s) (hC : Core false s)
    (hk : code s c = .waitScan p i kids::k) (hq : (s.proc q).state = .zombie)
    (hl : Local s (goto (freeSlot s c cl q) c (.release .ptable::k)) c none) :
    LogOk (goto (freeSlot s c cl q) c (.release .ptable::k)) := by
  have hz := (h.proc q).idle (by simp [hq,Alive])
  have hy : yields (goto (freeSlot s c cl q) c (.release .ptable::k)) q = 0 := by
    rw [← hz]
    exact frames_jump rfl _ (by simp [hk,yieldTok]) _
  have hname : isBufwrite ((goto (freeSlot s c cl q) c (.release .ptable::k)).proc q).name = false := by
    simpa [goto,freeSlot,setProc,logProc] using isBufwrite_set (s.proc q).name
  have hsame : ∀ r, r ≠ q → Same s (goto (freeSlot s c cl q) c (.release .ptable::k)) r := by
    intro r hr
    exact .jump hC hl rfl rfl (by simp [goto,freeSlot,setProc,logProc,hr])
      (by simp [goto,freeSlot,setProc,logProc,hr]) (by simp [goto,freeSlot,setProc,logProc,hr])
      (by simp [hk,yieldTok]) (by simp [hk,wakeTok])
  refine h.record q hsame rfl rfl (by simp [hq]) ?_ ?_ (.inl ⟨?_,hname⟩) (fun _ => hy) (fun _ _ => hy)
    fun _ => hy.trans_le (Nat.zero_le 1)
  · intro _ _
    exact not_logged hC hz (by simp [hq])
  · intro p' r hr
    by_cases hrq : r = q
    · rw [hrq]
      exact hname
    · rw [(hsame r hrq).name]
      exact h.raw p' r (raw_jump rfl (by simp [hk,rawTok]) p' r hr)
  · simp [goto,freeSlot,setProc]

theorem LogOk.finished (h : LogOk s) (hC : Core false s) (hk : code s c = .waitfork::k)
    (hl : Local s (goto {s with log := {s.log with finishedFork := true}} c (.waitforkLoop::k)) c none) :
    LogOk (goto {s with log := {s.log with finishedFork := true}} c (.waitforkLoop::k)) := by
  have hsame : ∀ p, Same s (goto {s with log := {s.log with finishedFork := true}} c
      (.waitforkLoop::k)) p := fun p =>
    .jump hC hl rfl rfl rfl rfl rfl (by simp [hk,yieldTok]) (by simp [hk,wakeTok])
  refine h.silent ⟨0,cfg.nproc_pos⟩ (fun p _ => hsame p) rfl rfl (by simp [goto]) rfl
    (fun hu => ⟨hu,rfl⟩) ?_ ?_
  · exact h.raw_keep (fun _ => rfl) (raw_jump rfl (by simp [hk,rawTok]))
  · exact (h.proc _).same (hsame _) (fun _ => rfl) le_rfl le_rfl

theorem LogOk.rrTake (h : LogOk s) (hC : Core false s) (hk : code s c = .rrScan i::k)
    (hp : (s.proc p).state = .runnable)
    (hl : Local s (goto (markRunning (takeProc s c p) c cl p) c (.rrSwtch p::k)) c none) :
    LogOk (goto (markRunning (takeProc s c p) c cl p) c (.rrSwtch p::k)) := by
  have hstk : ((goto (markRunning (takeProc s c p) c cl p) c (.rrSwtch p::k)).cpu c).stack =
      (s.cpu c).stack := by simp [goto,takeProc,setCpu]
  have hfr : (goto (markRunning (takeProc s c p) c cl p) c (.rrSwtch p::k)).frames =
      Function.update s.frames (s.cpu c).stack (.rrSwtch p::k) := by simp [goto,takeProc,setCpu]
  have hproc : ∀ r, ((goto (markRunning (takeProc s c p) c cl p) c (.rrSwtch p::k)).proc r).state =
      (if r = p then .running else (s.proc r).state) ∧
      ((goto (markRunning (takeProc s c p) c cl p) c (.rrSwtch p::k)).proc r).pid = (s.proc r).pid ∧
      ((goto (markRunning (takeProc s c p) c cl p) c (.rrSwtch p::k)).proc r).name =
        (s.proc r).name := by
    intro r
    by_cases hr : r = p <;> simp [goto,takeProc,setCpu,hr]
  have hlog : (goto (markRunning (takeProc s c p) c cl p) c (.rrSwtch p::k)).log =
      writelog s.log cl c.val (s.proc p).pid (s.proc p).name .tick (s.proc p).state .running :=
    markRunning_log _ c cl p
  have hnext : (goto (markRunning (takeProc s c p) c cl p) c (.rrSwtch p::k)).nextpid = s.nextpid :=
    markRunning_nextpid _ c cl p
  generalize goto (markRunning (takeProc s c p) c cl p) c (.rrSwtch p::k) = s' at *
  have hstate : (s'.proc p).state = .running := (hproc p).1.trans (if_pos rfl)
  have hy : yields s' p = yields s p := frames_jump hfr _ (by simp [hk,yieldTok]) _
  have hw : ¬ Waking s' p := by
    rw [waking_iff hC hl (by simp) (by simp [code_jump hstk hfr,hk,wakeTok])]
    exact not_waking hC (by simp [hp])
  refine h.record p (fun r hr => ?_) hlog hnext (by simp [hp]) ?_ ?_
    (.inr ⟨?_,(hproc p).2.1,(hproc p).2.2,?_⟩) ?_ ?_ ?_
  · exact .jump hC hl hstk hfr ((hproc r).1.trans (if_neg hr)) (hproc r).2.1 (hproc r).2.2
      (by simp [hk,yieldTok]) (by simp [hk,wakeTok])
  · intro hn _
    exact not_logged hC ((h.proc p).calm hn (by simp [hp])) (by simp [hp])
  · exact h.raw_keep (fun r => (hproc r).2.2) (raw_jump hfr (by simp [hk,rawTok]))
  · rw [hstate]
    trivial
  · intro hn
    rw [← hstate]
    refine expects_state ?_ ((hproc p).2.2 ▸ hn)
    rintro (hne | hw')
    · exact hne (hy.trans ((h.proc p).calm hn (by simp [hp])))
    · exact hw hw'
  · rw [hstate]
    exact fun hn => absurd trivial hn
  · exact fun _ hne => absurd hstate hne
  · rw [(hproc p).2.2,hy]
    exact (h.proc p).once

theorem LogOk.swtch {cur : cfg.CpuId} {b : Bool} (h : LogOk s) (hC : Core false s)
    (hk : code s c = .swtch p cur b::k)
    (hl : Local s (switchFrom s c p (s.cpu c).scheduler (.schedIntena cur b::k)) c none) :
    LogOk (switchFrom s c p (s.cpu c).scheduler (.schedIntena cur b::k)) := by
  obtain ⟨H,-,-,hst,hcalm,-⟩ := (hC.cpu c).rule hk
  obtain ⟨hhome,hframes⟩ := (hC.cpu c).home p hst
  have hfr : (switchFrom s c p (s.cpu c).scheduler (.schedIntena cur b::k)).frames =
      Function.update s.frames (s.cpu c).stack (.schedIntena cur b::k) := rfl
  have hcode : code (switchFrom s c p (s.cpu c).scheduler (.schedIntena cur b::k)) c = [.rrBack p] := by
    simp [code,switchFrom,setCpu,setProc,goto,hhome,hst,hframes,homeFrames]
  refine h.still (fun r => ⟨?_,?_,?_,frames_jump hfr _ (by simp [hk,yieldTok]) _,?_⟩) rfl rfl
    (raw_jump hfr (by simp [hk,rawTok]))
  · by_cases hr : r = p <;> simp [switchFrom,setCpu,setProc,goto,hr]
  · by_cases hr : r = p <;> simp [switchFrom,setCpu,setProc,goto,hr]
  · by_cases hr : r = p <;> simp [switchFrom,setCpu,setProc,goto,hr]
  · refine waking_iff hC hl (by simp) ?_
    have := weight_le (wakeTok_le_setTok r) k
    have := hcalm.settled r
    rw [hcode,hk]
    simp only [weight_cons,weight_nil,wakeTok]
    omega

theorem LogOk.rrSwtch (h : LogOk s) (hC : Core false s) (hk : code s c = .rrSwtch p::k)
    (hl : Local s (switchTo s c p (.rrBack p::k)) c none) :
    LogOk (switchTo s c p (.rrBack p::k)) := by
  obtain ⟨H,-,-,-,⟨r,hst⟩,rfl⟩ := (hC.cpu c).rule hk
  have hm : mode (code s c) = .switching p := by rw [hk]; rfl
  have hrun := hC.switching c p hm
  have hsaved : Saved false s p := by
    refine hC.saved p (by rw [hrun]; trivial) fun d hd => ?_
    have hdc := hC.single d c p (.inl hd) (.inr (.inr hm))
    subst hdc
    rw [hd.stack_eq] at hst
    cases hst
  have hfr : (switchTo s c p [.rrBack p]).frames =
      Function.update s.frames (s.cpu c).stack [.rrBack p] := rfl
  have hcode : code (switchTo s c p [.rrBack p]) c = s.frames (.kstack p) := by
    simp [code,switchTo,setCpu,goto,hsaved.stack,hst]
  refine h.still (fun q => ⟨rfl,rfl,rfl,frames_jump hfr _ (by simp [hk,yieldTok]) _,?_⟩) rfl rfl
    (raw_jump hfr (by simp [hk,rawTok]))
  refine waking_iff hC hl (by simp) ?_
  have := weight_le (wakeTok_le_setTok q) (s.frames (.kstack p))
  have := hsaved.calm.settled q
  rw [hcode,hk]
  simp only [weight_cons,weight_nil,wakeTok]
  omega

theorem LogOk.effect {x : Option cfg.Slot} (h : LogOk s) (hC : Core false s) (hreg : Regular s c)
    (he : Effect false s c cl x s') : LogOk s' := by
  have hok := hC.cpu c
  have hl := Local.of_effect hok he
  cases he with
  | quiet hq => exact h.quiet hC hl hq
  | execName n k p hk hp => exact h.execName hC hk hp hl
  | alloc cur i k p hk hi hp => exact h.alloc hC hreg hk hi hp hl
  | allocFail pc cur np k hk hpc => exact h.allocFail hC hk hpc hl
  | allocOk cur np k hk => exact h.allocOk hC hk hl
  | forkCopy cur np k hk => exact h.forkCopy hC hk hl
  | forkRun np k hk => exact h.forkRun hC hk hl
  | yield p k hk hp => exact h.yield hC hreg hk hp hl
  | yieldLocked p k hk =>
    exact h.still (fun r => .jump hC hl rfl rfl rfl rfl rfl (by simp [hk,yieldTok])
      (by simp [hk,wakeTok])) rfl rfl (raw_jump rfl (by simp [hk,rawTok]))
  | yieldRunnable p k hk => exact h.yieldRunnable hC hk hl
  | sched p k b hk =>
    refine h.still (fun r => .jump hC hl rfl rfl ?_ ?_ ?_ (by simp [hk,yieldTok])
      (by simp [hk,wakeTok])) rfl rfl (raw_jump rfl (by simp [hk,rawTok])) <;>
      by_cases hr : r = p <;> simp [goto,setProc,hr]
  | swtch p cur b k hk => exact h.swtch hC hk hl
  | sleepLocked p ch l k hk => exact h.sleepLocked hC hk hl
  | wakeHit i ch j k hk hi hj => exact h.wakeHit hC hk hj hl
  | wakeupSet j ch k hk => exact h.wakeupSet hC hk hl
  | killHit pid i p k hk hi hp hst => exact h.killHit hC hreg hk hi hp hst hl
  | exitEnd p i k hk => exact h.exitEnd hC hk hl
  | reap p i kids q k hk hi hq hst => exact h.reap hC hk hst hl
  | finished k hk => exact h.finished hC hk hl
  | rrTake i p k hk hi hp => exact h.rrTake hC hk hp hl
  | rrSwtch p k hk => exact h.rrSwtch hC hk hl
  | rrBack p k hk =>
    have hfr : (goto (setCpu s c fun d => {d with pgdir := none, proc := none}) c
        (.rrScan (p+1)::k)).frames =
        Function.update s.frames (s.cpu c).stack (.rrScan (p+1)::k) := by simp [goto,setCpu]
    exact h.still (fun r => .jump hC hl (by simp [goto,setCpu]) hfr rfl rfl rfl
      (by simp [hk,yieldTok]) (by simp [hk,wakeTok])) rfl rfl (raw_jump hfr (by simp [hk,rawTok]))
  | dequeue pc r p thief k hk hpc =>
    rcases hpc with ⟨rfl,-⟩ | ⟨t,rfl,-⟩ <;>
    · obtain ⟨H,-,hmq,-⟩ := hok.rule hk
      cases hmq
  | unlink r p thief k hk =>
    obtain ⟨H,-,hw⟩ := hok.rule hk
    cases thief <;> cases hw.1
  | _ =>
    obtain ⟨H,-,hmq,-⟩ := hok.rule ‹code s c = _›
    cases hmq

end

theorem LogOk.boot (cfg : Config) : LogOk (boot cfg false) := by
  have hnil : recorded (KernelStep.boot cfg false).log = [] := rfl
  have hframes : ∀ p, (KernelStep.boot cfg false).frames (.kstack p) = [.forkret,.user] ∨
      (KernelStep.boot cfg false).frames (.kstack p) = [] := by
    intro p
    by_cases hp : p.val = 0 <;> simp [KernelStep.boot,hp]
  have hy : ∀ p, yields (KernelStep.boot cfg false) p = 0 := by
    intro p
    rw [yields]
    rcases hframes p with h | h <;> (rw [h]; rfl)
  have hlast : ∀ pid, logState (KernelStep.boot cfg false).log pid = none := fun _ => rfl
  have hproc : ∀ p, p.val = 0 ∧ ((KernelStep.boot cfg false).proc p).state = .runnable ∧
        ((KernelStep.boot cfg false).proc p).pid = 1 ∨
      ((KernelStep.boot cfg false).proc p).state = .unused ∧
        ((KernelStep.boot cfg false).proc p).name = .ofString "" := by
    intro p
    by_cases hp : p.val = 0 <;> simp [KernelStep.boot,hp]
  refine ⟨?_,fun _ => rfl,?_,(by decide : (0 : ℤ) < 2),?_,?_,?_⟩
  · rw [LogContinuous,hnil]
    exact continuous_nil
  · simp [hnil]
  · intro p
    refine ⟨?_,fun _ => hlast _,?_,?_,fun _ => hy p,fun _ _ => hy p,
      fun _ => (hy p).trans_le (Nat.zero_le 1)⟩
    · intro _ _ st hst
      rw [hlast] at hst
      cases hst
    · intro hu
      rcases hproc p with ⟨-,-,hpid⟩ | ⟨hst,-⟩
      · rw [hpid]
        exact ⟨by decide,(by decide : (1 : ℤ) < 2)⟩
      · exact absurd hst hu
    · intro hu
      rcases hproc p with ⟨-,hst,-⟩ | ⟨-,hn⟩
      · rw [hu] at hst
        cases hst
      · rw [hn]
        decide +kernel
  · intro p q hp hq _
    rcases hproc p with ⟨hp0,-⟩ | ⟨hst,-⟩
    · rcases hproc q with ⟨hq0,-⟩ | ⟨hst,-⟩
      · exact Fin.ext (hp0.trans hq0.symm)
      · exact absurd hst hq
    · exact absurd hst hp
  · intro p q h
    exfalso
    rcases hframes p with hf | hf <;> (rw [hf] at h; exact h rfl)

abbrev uni : Config := ⟨2,1,Nat.two_pos,Nat.one_pos⟩

def act (a : Act uni) : Label uni := ⟨0,a,⟨0,0⟩⟩

def go (n : ℕ) : List (Label uni) := replicate n (act .go)

/-- A `fork` that gets no kernel stack uses up a pid. -/
def failedFork : List (Label uni) := act (.user .fork)::go 5++act (.alloc false)::go 1

def fork35 : List (Label uni) :=
  go 7++[act .leave,act (.user (.exec (.ofString "bufwrite"))),act .leave]++go 2++
    (replicate 33 failedFork).flatten++
    (act (.user .fork)::go 5++[act (.alloc true),act (.alloc true)]++go 5)

/-- The process calls `yield` and the scheduler looks at the next slot. -/
def yieldAway : List (Label uni) := act (.user .bufwrite)::go 8

/-- The child sets `finished_fork` and goes to sleep, and the parent runs again. -/
def childSleeps : List (Label uni) :=
  fork35++yieldAway++go 4++[act .leave]++(act (.user .waitfork)::go 3)++
    [act (.user .other),act (.enter 1)]++go 2++act (.sleepOn (.addr 1))::go 18

def killRun : List (Label uni) := childSleeps++act (.user (.kill 35))::go 6++yieldAway++go 1

def wakeRun : List (Label uni) :=
  childSleeps++[act (.user .other),act (.wake (.addr 1))]++go 8++[act .leave]++go 1++yieldAway++go 1

end Xv6.LogContinuity
