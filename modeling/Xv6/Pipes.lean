import Xv6.Monitor

/-!
# Pipes

`pipewrite`, `piperead` and `pipeclose` on one pipe, by any number of processes. The two counters
run freely modulo `2^32` and index the buffer modulo `PIPESIZE`. A call on an end of the pipe is
made through an open file of that end, so none begins or is under way when the end is closed.

Two histories are kept beside `struct pipe`: the bytes that `pipewrite` has stored, and the bytes
that calls of `piperead` have returned.
-/
namespace Xv6.Pipes
open Machine Monitor Function List

def PIPESIZE : ℕ := 512

structure Pipe where
  data : ℕ → ℕ
  nread : ℕ
  nwrite : ℕ
  readopen : Bool
  writeopen : Bool
  freed : Bool
  stored : List ℕ
  returned : List ℕ

inductive Chan where
  | nread
  | nwrite
deriving DecidableEq

/-- Points of the code after `acquire(&p->lock)`. A writer also carries how many of its
bytes it has announced by a `wakeup` of the readers. -/
inductive Point where
  | pipewrite (addr : ℕ → ℕ) (n : ℤ) (i told : ℕ)
  | full (addr : ℕ → ℕ) (n : ℤ) (i told : ℕ)
  | pause (addr : ℕ → ℕ) (n : ℤ) (i : ℕ)
  | wrote (n : ℤ)
  | piperead (n : ℤ)
  | copy (n : ℤ) (got : List ℕ)
  | copied (n : ℤ) (got : List ℕ)
  | pipeclose (writable : Bool)
  | closing (writable : Bool)
  | closed (writable : Bool)

/-- The buffer is full: `nwrite == nread + PIPESIZE` in 32 bits. -/
def Pipe.full (p : Pipe) : Prop := p.nwrite = (p.nread+PIPESIZE)%2^32

instance (p : Pipe) : Decidable p.full := inferInstanceAs (Decidable (_ = _))

def Pipe.put (p : Pipe) (b : ℕ) : Pipe :=
  {p with
    data := update p.data (p.nwrite%PIPESIZE) b
    nwrite := (p.nwrite+1)%2^32
    stored := p.stored++[b]}

def code (p : Pipe) (killed : Bool) : Point → Act Pipe Point Chan ℤ
  | .pipewrite addr n i told =>
    if i < n then
      if p.full then .goto p (.full addr n i told)
      else .goto (p.put (addr i)) (.pipewrite addr n (i+1) told)
    else .wakeup .nread (.wrote n)
  | .full addr n i _ =>
    if p.readopen = false ∨ killed then .leave p (-1)
    else .wakeup .nread (.pause addr n i)
  | .pause addr n i => .sleep .nwrite (.pipewrite addr n i i)
  | .wrote n => .leave p n
  | .piperead n =>
    if p.nread = p.nwrite ∧ p.writeopen then
      if killed then .leave p (-1) else .sleep .nread (.piperead n)
    else .goto p (.copy n [])
  | .copy n got =>
    if got.length < n ∧ p.nread ≠ p.nwrite then
      .goto {p with nread := (p.nread+1)%2^32} (.copy n (got++[p.data (p.nread%PIPESIZE)]))
    else .wakeup .nwrite (.copied n got)
  | .copied _ got => .leave {p with returned := p.returned++got} got.length
  | .pipeclose writable =>
    .goto (if writable then {p with writeopen := false} else {p with readopen := false})
      (.closing writable)
  | .closing writable => .wakeup (if writable then .nread else .nwrite) (.closed writable)
  | .closed _ => .leave {p with freed := p.freed || (!p.readopen && !p.writeopen)} 0

inductive Call where
  | use (writable : Bool)
  | close (writable : Bool)
deriving DecidableEq

def Point.call : Point → Call
  | .pipewrite _ _ _ _ | .full _ _ _ _ | .pause _ _ _ | .wrote _ => .use true
  | .piperead _ | .copy _ _ | .copied _ _ => .use false
  | .pipeclose w | .closing w | .closed w => .close w

def Point.reads : Point → Option ℤ
  | .piperead n | .copy n _ | .copied n _ => some n
  | _ => none

def Pipe.isOpen (p : Pipe) (writable : Bool) : Bool := if writable then p.writeopen else p.readopen

section
variable {n : ℕ}

abbrev PipeState (n : ℕ) := State (Fin n) Pipe Point Chan

def calls (s : PipeState n) (t : Fin n) : Option Call := (s.thread t).point.map Point.call

def enabled (s : PipeState n) (_ : Fin n) : Point → Bool
  | .pipewrite _ _ 0 0 => s.data.writeopen ∧ ∀ u, calls s u ≠ some (.close true)
  | .piperead _ => s.data.readopen ∧ ∀ u, calls s u ≠ some (.close false)
  | .pipeclose w => s.data.isOpen w ∧ ∀ u, calls s u ≠ some (.use w) ∧ calls s u ≠ some (.close w)
  | _ => false

def system (n : ℕ) : System (Fin n) Pipe Point Chan ℤ Empty where
  code := code
  enabled := enabled
  env _ e := nomatch e

/-- A pipe as `pipealloc` leaves it, on a page with arbitrary contents. -/
def init (n : ℕ) (junk : ℕ → ℕ) : PipeState n where
  data := ⟨junk,0,0,true,true,false,[],[]⟩
  lock := none
  ptable := none
  thread _ := .out
  killed _ := false

/-! ### First in, first out -/

/-- The bytes stored are those returned, those a reader has in hand, and the buffer. -/
structure Fifo (p : Pipe) (got : List ℕ) : Prop where
  lt : p.nread < 2^32
  contents : ∃ buf : List ℕ, p.stored = p.returned++got++buf ∧ buf.length ≤ PIPESIZE ∧
    p.nwrite = (p.nread+buf.length)%2^32 ∧
    ∀ j (hj : j < buf.length), p.data ((p.nread+j)%PIPESIZE) = buf[j]

theorem Fifo.put {p : Pipe} {got : List ℕ} (h : Fifo p got) (hf : ¬ p.full) (b : ℕ) :
    Fifo (p.put b) got := by
  obtain ⟨hlt,buf,hs,hlen,hw,hbuf⟩ := h
  have hroom : buf.length < PIPESIZE := by
    refine lt_of_le_of_ne hlen fun he => hf ?_
    rw [Pipe.full,hw,he]
  refine ⟨hlt,buf++[b],by simp [Pipe.put,hs],by simpa using hroom,?_,?_⟩
  · simp only [Pipe.put,hw,length_append,length_singleton]
    omega
  · intro j hj
    have hidx : p.nwrite%PIPESIZE = (p.nread+buf.length)%PIPESIZE := by
      rw [hw]
      simp only [PIPESIZE]
      omega
    simp only [Pipe.put,hidx]
    by_cases hjb : j = buf.length
    · subst hjb
      simp
    · have hj : j < buf.length := by
        simp only [length_append,length_singleton] at hj
        omega
      have hne : (p.nread+j)%PIPESIZE ≠ (p.nread+buf.length)%PIPESIZE := by
        simp only [PIPESIZE] at hroom ⊢
        omega
      rw [update_of_ne hne,getElem_append_left hj]
      exact hbuf j hj

theorem Fifo.take {p : Pipe} {got : List ℕ} (h : Fifo p got) (hne : p.nread ≠ p.nwrite) :
    Fifo {p with nread := (p.nread+1)%2^32} (got++[p.data (p.nread%PIPESIZE)]) := by
  obtain ⟨hlt,buf,hs,hlen,hw,hbuf⟩ := h
  cases buf with
  | nil =>
    refine absurd ?_ hne
    rw [hw]
    simp only [length_nil]
    omega
  | cons b buf =>
    have hb : p.data (p.nread%PIPESIZE) = b := hbuf 0 (by simp)
    refine ⟨by simp only; omega,buf,by simp [hs,hb],?_,?_,?_⟩
    · simp only [length_cons] at hlen
      omega
    · simp only [hw,length_cons]
      omega
    · intro j hj
      have hidx : ((p.nread+1)%2^32+j)%PIPESIZE = (p.nread+(j+1))%PIPESIZE := by
        simp only [PIPESIZE]
        omega
      simp only [hidx]
      exact hbuf (j+1) (by simpa using hj)

def assertions : Assertions Unit Pipe Point Chan where
  free p := Fifo p []
  holds
    | .pipewrite _ _ i told,p => Fifo p [] ∧ told ≤ i
    | .full _ _ i told,p => Fifo p [] ∧ told ≤ i ∧ p.full
    | .pause _ _ _,p => Fifo p [] ∧ p.full ∧ p.readopen = true
    | .copy _ got,p => Fifo p got ∧ (got = [] → p.nread = p.nwrite → p.writeopen = false)
    | .copied n got,p => Fifo p got ∧ (got = [] → 0 < n → p.nread = p.nwrite ∧ p.writeopen = false)
    | _,p => Fifo p []
  waiting
    | .pipewrite _ _ i told,_ => told ≤ i
    | .piperead _,_ | .pipeclose _,_ => True
    | _,_ => False
  sleeping
    | .nwrite,.pipewrite _ _ i told,_ => told ≤ i
    | .nread,.piperead _,_ => True
    | _,_,_ => False
  claims _ _ := False

theorem frame (others : Point → Prop) (mine : Unit → Prop) (p p' : Pipe) :
    assertions.Frame others mine p p' := by
  refine ⟨fun l _ h => ?_,fun c l _ h => ?_,fun _ h => h.elim⟩
  · cases l <;> exact h
  · cases c <;> cases l <;> exact h

theorem system_spec : Spec (system n) shared assertions fun _ _ _ => True where
  keeps := keeps_shared _
  exclusive _ _ l _ _ m _ := apart_shared l m
  enter s t l he _ := by
    cases l with
    | pipewrite addr m i told =>
      cases i <;> cases told <;> first | exact le_rfl | cases he
    | piperead | pipeclose => trivial
    | _ => cases he
  acquire p l hf hw := by
    cases l with
    | pipewrite => exact ⟨hf,hw⟩
    | piperead | pipeclose => exact hf
    | _ => exact hw.elim
  goto p k l p' l' h _ hc := by
    refine ⟨?_,frame _ _ p p'⟩
    cases l with
    | pipewrite addr m i =>
      simp only [system,code] at hc
      split_ifs at hc with hi hfull
      · cases hc
        exact ⟨h.1,h.2,hfull⟩
      · cases hc
        exact ⟨h.1.put hfull _,h.2.trans (Nat.le_succ i)⟩
    | full =>
        simp only [system,code] at hc
        split_ifs at hc
    | piperead =>
      simp only [system,code] at hc
      split_ifs at hc with he
      cases hc
      refine ⟨h,fun _ hrw => ?_⟩
      simpa [hrw] using he
    | copy =>
      simp only [system,code] at hc
      split_ifs at hc with hcond
      cases hc
      exact ⟨h.1.take hcond.2,by simp⟩
    | pipeclose w =>
      simp only [system,code] at hc
      cases hc
      cases w <;> exact ⟨h.lt,h.contents⟩
    | _ => cases hc
  wakeup p k l c l' h hc := by
    cases l with
    | pipewrite =>
      simp only [system,code] at hc
      split_ifs at hc
      cases hc
      exact h.1
    | full =>
      simp only [system,code] at hc
      split_ifs at hc with hcond
      cases hc
      exact ⟨h.1,h.2.2,by simpa using fun hr => hcond (.inl hr)⟩
    | piperead =>
      simp only [system,code] at hc
      split_ifs at hc
    | copy =>
      simp only [system,code] at hc
      split_ifs at hc with hcond
      cases hc
      refine ⟨h.1,fun hg hm => ?_⟩
      subst hg
      have hrw : p.nread = p.nwrite := by
        by_contra hne
        exact hcond ⟨by simpa using hm,hne⟩
      exact ⟨hrw,h.2 rfl hrw⟩
    | closing =>
      cases hc
      exact h
    | _ => cases hc
  sleep p k l c l' h hc := by
    cases l with
    | pipewrite | copy | full =>
      simp only [system,code] at hc
      split_ifs at hc
    | pause addr m i =>
      cases hc
      exact ⟨h.1,le_refl i⟩
    | piperead =>
      simp only [system,code] at hc
      split_ifs at hc
      cases hc
      exact ⟨h,trivial⟩
    | _ => cases hc
  woken p c l h := by
    cases c <;> cases l <;> first | exact h | trivial
  leave p k l p' r h hc := by
    refine ⟨?_,frame _ _ p p',fun _ _ h => h⟩
    cases l with
    | pipewrite | copy =>
      simp only [system,code] at hc
      split_ifs at hc
    | full =>
      simp only [system,code] at hc
      split_ifs at hc
      cases hc
      exact h.1
    | wrote =>
      cases hc
      exact h
    | piperead =>
      simp only [system,code] at hc
      split_ifs at hc
      cases hc
      exact h
    | copied =>
      cases hc
      obtain ⟨buf,hs,hrest⟩ := h.1.contents
      exact ⟨h.1.lt,buf,by simpa using hs,hrest⟩
    | closed =>
      cases hc
      exact ⟨h.lt,h.contents⟩
    | _ => cases hc
  env _ e := nomatch e

theorem init_hold (junk : ℕ → ℕ) : assertions.Hold shared (init n junk) where
  held t := by simp [init,Status.holding]
  apart _ _ l m _ _ _ := apart_shared l m
  claimed _ h := h.elim
  free _ := ⟨by simp [init],[],by simp [init]⟩
  thread t := trivial

variable {s : PipeState n}

theorem fifo_of_hold (h : assertions.Hold shared s) : ∃ got, Fifo s.data got := by
  cases hl : s.lock with
  | none => exact ⟨[],h.free hl⟩
  | some t =>
    have hh := (h.held t).mp hl
    have ht := h.thread t
    have hfifo : ∀ l, assertions.holds l s.data → ∃ got, Fifo s.data got := by
      intro l hp
      cases l with
      | pipewrite | full | pause | copy | copied => exact ⟨_,hp.1⟩
      | _ => exact ⟨_,hp⟩
    cases hst : s.thread t with
    | inside l | wake c l =>
      rw [hst] at ht
      exact hfifo l ht
    | sleep =>
      rw [hst] at ht
      exact ⟨[],ht.1⟩
    | _ => simp [hst,Status.holding] at hh

/-- In every run, whatever calls overlap: what the readers have returned is the first part
of what the writers have stored, the counters are at most `PIPESIZE` apart, and a reader
that asked for bytes returns 0 only at the end of a closed pipe. -/
theorem pipe_fifo {junk : ℕ → ℕ} (h : Reach (step (system n)) (fun _ _ => True) (init n junk) s) :
    s.data.returned <+: s.data.stored ∧
    (s.data.nwrite+2^32-s.data.nread)%2^32 ≤ PIPESIZE ∧
    ∀ t l m p, s.thread t = .inside l → l.reads = some m → 0 < m →
      code s.data (s.killed t) l = .leave p 0 →
      s.data.nread = s.data.nwrite ∧ s.data.writeopen = false := by
  have hI := system_spec.of_reach (fun s a _ => meets_true s a) h (init_hold junk)
  obtain ⟨got,hlt,buf,hs,hlen,hw,-⟩ := fifo_of_hold hI
  refine ⟨⟨got++buf,by simp [hs]⟩,?_,?_⟩
  · rw [hw]
    simp only [PIPESIZE] at hlen ⊢
    omega
  · intro t l m p ht hm hpos hc
    have hloc := hI.thread t
    rw [ht] at hloc
    cases l with
    | piperead =>
      simp only [code] at hc
      split_ifs at hc
      simp at hc
    | copy =>
      simp only [code] at hc
      split_ifs at hc
    | copied =>
      cases hm
      simp only [code,Act.leave.injEq] at hc
      exact hloc.2 (length_eq_zero_iff.mp (by exact_mod_cast hc.2)) hpos
    | _ => cases hm

/-- Three bytes are written and two of them read. -/
theorem shortRun_fifo : ∃ s, Reach (step (system 2)) (fun _ _ => True) (init 2 fun _ => 0) s ∧
    s.data.stored = [65,66,67] ∧ s.data.returned = [65,66] ∧ s.data.returned <+: s.data.stored := by
  have hrun : (run (guarded (step (system 2)) fun _ _ => True) (init 2 fun _ => 0) (flatten
      [[.enter 1 (.pipewrite (fun i => 65+i) 3 0 0)],replicate 7 (.run 1),
        [.enter 0 (.piperead 2)],replicate 7 (.run 0)])).any
      (fun s => s.data.stored = [65,66,67] ∧ s.data.returned = [65,66]) = true := by decide +kernel
  obtain ⟨s,hs,hp⟩ := (Option.any_eq_true _ _).mp hrun
  have hr := Reach.refl.of_run hs
  have hp := of_decide_eq_true hp
  exact ⟨s,hr,hp.1,hp.2,(pipe_fifo hr).1⟩

/-! ### Sleeping readers and writers -/

/-- What a process waits for on a channel has not happened. A closed read end has no
reader, so nothing is said about sleeping readers then. -/
def Waits : Chan → Pipe → Prop
  | .nread,p => p.readopen = false ∨ p.nread = p.nwrite ∧ p.writeopen = true
  | .nwrite,p => p.full ∧ p.readopen = true

/-- Bytes stored without a `wakeup`, bytes taken without one, or an end closed without one. -/
def Owes : Chan → Point → Pipe → Prop
  | .nread,.pipewrite _ _ i told,_ | .nread,.full _ _ i told,_ => told < i
  | .nread,.closing true,_ => True
  | .nwrite,.copy _ got,_ => got ≠ []
  | .nwrite,.closing false,_ => True
  | _,_,_ => False

def Announced (p : Pipe) (killed : Bool) : Point → Prop
  | .full _ _ i told => killed = true → p.readopen = true → told = i
  | _ => True

instance (p : Pipe) (killed : Bool) : (l : Point) → Decidable (Announced p killed l)
  | .full _ _ i told => inferInstanceAs (Decidable (_ = true → _ = true → told = i))
  | .pipewrite _ _ _ _ | .pause _ _ _ | .wrote _ | .piperead _ | .copy _ _ | .copied _ _
  | .pipeclose _ | .closing _ | .closed _ => isTrue trivial

theorem system_discipline : Discipline Waits Owes (system n) assertions Announced where
  goto p k l p' l' c h hg hc hw := by
    cases l with
    | pipewrite =>
      simp only [system,code] at hc
      split_ifs at hc with hi hfull
      · cases hc
        cases c <;> exact hw
      · cases hc
        cases c with
        | nread => exact .inr (Nat.lt_succ_of_le h.2)
        | nwrite => exact absurd hw (by simp [Waits,Owes,hfull])
    | full =>
      simp only [system,code] at hc
      split_ifs at hc
    | piperead =>
      simp only [system,code] at hc
      split_ifs at hc with he
      cases hc
      cases c <;> simpa [Owes] using hw
    | copy =>
      simp only [system,code] at hc
      split_ifs at hc with hcond
      cases hc
      cases c with
      | nread =>
        simp only [Waits,hcond.2,false_and,or_false,Owes] at hw
        exact .inl (.inl hw)
      | nwrite => exact .inr (by simp [Owes])
    | pipeclose w =>
      cases hc
      cases w <;> cases c <;> simp_all [Waits,Owes,Pipe.full]
    | _ => cases hc
  wakeup p k l c' l' c h hc hne ho := by
    cases l with
    | pipewrite | full | copy =>
      simp only [system,code] at hc
      split_ifs at hc
      cases hc
      cases c <;> simp_all [Owes]
    | piperead =>
      simp only [system,code] at hc
      split_ifs at hc
    | closing w =>
      cases hc
      cases w <;> cases c <;> simp_all [Owes]
    | _ => cases hc
  sleep p k l c' l' c h hc ho := by
    cases l with
    | pipewrite | full | copy =>
      simp only [system,code] at hc
      split_ifs at hc
    | pause =>
      cases hc
      cases c with
      | nread => simp [Owes] at ho
      | nwrite => exact ⟨h.2.1,h.2.2⟩
    | piperead =>
      simp only [system,code] at hc
      split_ifs at hc with he
      cases hc
      cases c with
      | nread => exact .inr he
      | nwrite => simp [Owes] at ho
    | _ => cases hc
  leave p k l p' r c h hg hc hw := by
    cases l with
    | pipewrite | copy =>
      simp only [system,code] at hc
      split_ifs at hc
    | full =>
      simp only [system,code] at hc
      split_ifs at hc with hcond
      cases hc
      cases c with
      | nread =>
        by_cases hr : p.readopen = false
        · exact .inl hr
        · have htold := hg (hcond.resolve_left hr) (by simpa using hr)
          simpa [Owes,htold] using hw
      | nwrite => simpa [Owes] using hw
    | piperead =>
      simp only [system,code] at hc
      split_ifs at hc
      cases hc
      cases c <;> simpa [Owes] using hw
    | wrote | copied | closed =>
      cases hc
      cases c <;> simpa [Owes,Waits,Pipe.full] using hw
    | _ => cases hc
  env _ e := nomatch e

theorem code_keeps : Keeps (system n) Point.call := by
  intro p k l
  cases l with
  | pipewrite | full | copy | piperead =>
    simp only [system,code]
    split_ifs <;> simp [Point.call]
  | pause | closing | pipeclose => rfl
  | _ => trivial

/-- An end that is closed or being closed is in no other use. -/
structure Files (s : PipeState n) : Prop where
  apart : ∀ w t u, calls s t = some (.close w) → calls s u ≠ some (.use w)
  shut : ∀ w u, s.data.isOpen w = false → calls s u ≠ some (.use w)

variable {s' : PipeState n} {a : Label (Fin n) Point Empty}

theorem isOpen_step (hs : Moves (system n) s a s') (w : Bool) :
    s'.data.isOpen w = s.data.isOpen w ∨ ∃ t, calls s t = some (.close w) := by
  cases hs with
  | @goto t l p l' ht hc =>
    cases l with
    | pipewrite | full | copy | piperead =>
      simp only [system,code] at hc
      split_ifs at hc
      all_goals
        cases hc
        exact .inl rfl
    | pipeclose w' =>
      cases hc
      by_cases hw : w' = w
      · exact .inr ⟨t,by simp [calls,ht,Status.point,Point.call,hw]⟩
      · refine .inl ?_
        cases w <;> cases w' <;> simp_all [Pipe.isOpen]
    | _ => cases hc
  | @leave t l p r ht hc =>
    refine .inl ?_
    cases l with
    | pipewrite | full | copy | piperead =>
      simp only [system,code] at hc
      split_ifs at hc
      all_goals
        cases hc
        rfl
    | wrote | copied | closed =>
      cases hc
      rfl
    | _ => cases hc
  | @env e _ _ => cases e
  | _ => exact .inl rfl

theorem calls_step (hs : Moves (system n) s a s') {u : Fin n} {c : Call} (hu : calls s' u = some c) :
    calls s u = some c ∨ ∃ l, a = .enter u l ∧ enabled s u l = true ∧ l.call = c := by
  rcases code_keeps.step hs u with he | hn | ⟨l,rfl⟩
  · exact .inl (he.symm.trans hu)
  · simp [calls,hn] at hu
  · cases hs with
    | enter ht hen =>
      refine .inr ⟨l,rfl,hen,?_⟩
      simpa [calls,Status.point] using hu

theorem Files.step (h : Files s) (hs : Moves (system n) s a s') : Files s' := by
  have huse : ∀ {u : Fin n} {l : Point} {w : Bool}, enabled s u l = true → l.call = .use w →
      s.data.isOpen w = true ∧ ∀ v, calls s v ≠ some (.close w) := by
    intro u l w he hl
    cases l with
    | pipewrite addr m i told =>
      cases i <;> cases told <;> cases hl <;> simp_all [enabled,Pipe.isOpen]
    | piperead =>
      cases hl
      simpa [enabled,Pipe.isOpen] using he
    | pipeclose => cases hl
    | _ => simp [enabled] at he
  have hclose : ∀ {u : Fin n} {l : Point} {w : Bool}, enabled s u l = true → l.call = .close w →
      ∀ v, calls s v ≠ some (.use w) := by
    intro u l w he hl v
    cases l with
    | pipewrite | piperead => cases hl
    | pipeclose =>
      cases hl
      simp only [enabled,decide_eq_true_eq] at he
      exact (he.2 v).1
    | _ => simp [enabled] at he
  refine ⟨fun w t u ht hu => ?_,fun w u hw hu => ?_⟩
  · rcases calls_step hs ht with ht | ⟨l,rfl,hen,hl⟩ <;> rcases calls_step hs hu with hu | ⟨l',ha,hen',hl'⟩
    · exact h.apart w t u ht hu
    · exact (huse hen' hl').2 t ht
    · exact hclose hen hl u hu
    · cases ha
      simp [hl] at hl'
  · rcases calls_step hs hu with hu | ⟨l,rfl,hen,hl⟩
    · rcases isOpen_step hs w with ho | ⟨t,ht⟩
      · exact h.shut w u (ho.symm.trans hw) hu
      · exact h.apart w t u ht hu
    · have ho : s'.data.isOpen w = s.data.isOpen w := by
        cases hs
        rfl
      rw [ho,(huse hen hl).1] at hw
      cases hw

/-- In every run in which a killed writer that finds the buffer full has announced what it
stored: while `p->lock` is free no reader sleeps on a pipe with bytes in it or a closed
write end, and no writer on one with room or a closed read end. -/
theorem no_stale_sleeper {junk : ℕ → ℕ}
    (h : Reach (step (system n)) (Meets Announced) (init n junk) s) (hl : s.lock = none)
    (t : Fin n) (c : Chan) (l : Point) (ht : s.thread t = .asleep c l) :
    (l.call = .use false → s.data.nread = s.data.nwrite ∧ s.data.writeopen = true) ∧
    (l.call = .use true → s.data.full ∧ s.data.readopen = true) := by
  have h0 := init_hold (n := n) junk
  have hw0 : Awake Waits Owes (init n junk) :=
    ⟨fun t => by simp [init,Status.parked],fun t c hc => by simp [init,Status.chan] at hc⟩
  have hw := system_discipline.waits_of_asleep (system_spec.mono fun _ _ _ _ => trivial) h h0 hw0 hl ht
  have hloc := (system_spec.of_reach (fun s a _ => meets_true s a) h h0).thread t
  rw [ht] at hloc
  have hfiles : Files s := h.invariant ⟨fun _ _ _ hc => by simp [calls,init,Status.point] at hc,
      fun _ _ _ => by simp [calls,init,Status.point]⟩
    fun _ _ _ hI _ hs => hI.step (step_moves hs)
  cases c with
  | nread =>
    cases l with
    | piperead =>
      refine ⟨fun _ => ?_,(fun hk => by cases hk)⟩
      refine hw.resolve_left fun hr => ?_
      exact hfiles.shut false t (by simpa [Pipe.isOpen] using hr)
        (by simp [calls,ht,Status.point,Point.call])
    | _ => exact hloc.elim
  | nwrite =>
    cases l with
    | pipewrite => exact ⟨(fun hk => by cases hk),fun _ => hw⟩
    | _ => exact hloc.elim

def sleepsReading : Status Point Chan → Bool
  | .asleep .nread (.piperead _) => true
  | _ => false

theorem eq_of_sleepsReading {st : Status Point Chan} (h : sleepsReading st = true) :
    ∃ m, st = .asleep .nread (.piperead m) := by
  unfold sleepsReading at h
  split at h
  · exact ⟨_,rfl⟩
  · cases h

/-- A reader on an empty pipe sleeps. -/
theorem lateWriter_waits : ∃ (s : PipeState 2) (m : ℤ),
    Reach (step (system 2)) (Meets Announced) (init 2 fun _ => 0) s ∧
    s.thread 0 = .asleep .nread (.piperead m) ∧ s.data.nread = s.data.nwrite := by
  have hrun : (run (guarded (step (system 2)) (Meets Announced)) (init 2 fun _ => 0)
      (.enter 0 (.piperead 1)::replicate 4 (.run 0))).any
      (fun s => s.lock = none ∧ sleepsReading (s.thread 0) = true) = true := by decide +kernel
  obtain ⟨s,hs,hp⟩ := (Option.any_eq_true _ _).mp hrun
  have hr := Reach.refl.of_run hs
  obtain ⟨hl,hsl⟩ := of_decide_eq_true hp
  obtain ⟨m,hm⟩ := eq_of_sleepsReading hsl
  exact ⟨s,m,hr,hm,((no_stale_sleeper hr hl 0 _ _ hm).1 rfl).1⟩

/-- A reader sleeps; a writer fills the buffer, is killed, and returns without a `wakeup`. -/
theorem killedWriter_reader_sleeps : ∃ (s : PipeState 2) (m : ℤ),
    Reach (step (system 2)) (fun _ _ => True) (init 2 fun _ => 0) s ∧ s.lock = none ∧
    s.thread 0 = .asleep .nread (.piperead m) ∧ s.data.nread ≠ s.data.nwrite := by
  have hrun : (run (guarded (step (system 2)) fun _ _ => True) (init 2 fun _ => 0) (flatten
      [[.enter 0 (.piperead 1)],replicate 4 (.run 0),
        [.enter 1 (.pipewrite (fun _ => 7) 513 0 0)],replicate 514 (.run 1),
        [.kill 1,.run 1]])).any
      (fun s => s.lock = none ∧ sleepsReading (s.thread 0) = true ∧ s.data.nread ≠ s.data.nwrite) =
        true := by decide +kernel
  obtain ⟨s,hs,hp⟩ := (Option.any_eq_true _ _).mp hrun
  have hr := Reach.refl.of_run hs
  obtain ⟨hl,hsl,hne⟩ := of_decide_eq_true hp
  obtain ⟨m,hm⟩ := eq_of_sleepsReading hsl
  exact ⟨s,m,hr,hl,hm,hne⟩

end
end Xv6.Pipes
