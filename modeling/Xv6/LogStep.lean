import Xv6.FsMachine

/-!
# What a step does to the log

The admission protocol needs of a process only the part of the code it is in, its operation, and
whether it sleeps in `begin_op`. `Turn` lists what a step can do to these and to the counters of the
log.
-/
namespace Xv6.LogStep
open FsMachine
open Function (update update_of_ne update_self)

variable {cfg : Config}

/-- Parts of the code. In `committed` and `recovered`, `log.lh.n` is 0 again. -/
inductive Kind where
  | user | begin | inOp | commit | committed | recover | recovered
  deriving DecidableEq

def kindOfCopy : Copy → Kind
  | .writeLog | .install => .commit
  | .recover => .recover

def kindOfHead : Head → Kind
  | .commit => .commit
  | .erase => .committed
  | .recover => .recovered

def kind : Pc cfg → Kind
  | .user => .user
  | .beginOp => .begin
  | .endOp | .logWrite _ | .logAppend _ => .inOp
  | .commit => .commit
  | .endCommit => .committed
  | .copy w _ | .copyLog w _ | .copyNext w _ _ | .copyHome w _ _ | .copyMove w _ _ _
  | .copyRelse w _ _ _ | .copyEnd w _ _ => kindOfCopy w
  | .clear r => if r then .recover else .commit
  | .writeHead k | .writeHeadRead k | .writeHeadPut k _ | .writeHeadEnd k _ => kindOfHead k
  | .readHead | .readHeadRead | .readHeadCopy _ => .recover
  | .initDone => .recovered

@[simp] theorem kind_got (pc : Pc cfg) (b : cfg.BufId) : kind (pc.got b) = kind pc := by
  cases pc <;> rfl

/-- A process goes on in the same part of the code, or is woken up. -/
structure Keeps (q q' : Proc cfg) : Prop where
  kind : kind q'.pc = kind q.pc
  op : q'.op = q.op
  asleep : q'.asleep = true → q.asleep = true

theorem Keeps.refl (q : Proc cfg) : Keeps q q := ⟨rfl,rfl,id⟩

/-- The fields of the log that the protocol reads, but `lh`. -/
structure SameCounts (s s' : State cfg) : Prop where
  outstanding : s'.outstanding = s.outstanding
  committing : s'.committing = s.committing
  up : s'.up = s.up

structure SameWrites (s s' : State cfg) : Prop where
  ops : s'.book.ops = s.book.ops
  writes : s'.book.writes = s.book.writes

/-- No room for another operation, in the words of `begin_op`. -/
def Full (s : State cfg) : Prop :=
  s.committing = true ∨ LOGSIZE < s.lh.length+(s.outstanding+1)*MAXOPBLOCKS

inductive Turn (s s' : State cfg) : Prop
  | quiet : s'.lh = s.lh → SameCounts s s' → SameWrites s s' → (∀ r, Keeps (s.proc r) (s'.proc r)) →
      Turn s s'
  | readHead (p : cfg.ProcId) : kind (s.proc p).pc = .recover → SameCounts s s' → SameWrites s s' →
      (∀ r, Keeps (s.proc r) (s'.proc r)) → Turn s s'
  | enter (p : cfg.ProcId) : kind (s.proc p).pc = .user → s.up = true → s'.lh = s.lh →
      SameCounts s s' → SameWrites s s' → (∀ r, r ≠ p → s'.proc r = s.proc r) →
      (kind (s'.proc p).pc = .begin ∧ (s.proc p).op = none ∨
        kind (s'.proc p).pc = .inOp ∧ (s.proc p).op.isSome = true) →
      (s'.proc p).op = (s.proc p).op → (s'.proc p).asleep = (s.proc p).asleep → Turn s s'
  | sleep (p : cfg.ProcId) : kind (s.proc p).pc = .begin → Full s → s'.lh = s.lh →
      SameCounts s s' → SameWrites s s' →
      s'.proc = update s.proc p {s.proc p with asleep := true} → Turn s s'
  | begun (p : cfg.ProcId) : kind (s.proc p).pc = .begin → ¬Full s → (s.proc p).asleep = false →
      s'.lh = s.lh → s'.outstanding = s.outstanding+1 → s'.committing = s.committing →
      s'.up = s.up → s'.book.ops = s.book.ops+1 → s'.book.writes = s.book.writes →
      s'.proc = update s.proc p {s.proc p with pc := .user, op := some s.book.ops} →
      Turn s s'
  | append (p : cfg.ProcId) (i : cfg.BufId) : (s.proc p).pc = .logAppend i →
      s'.lh = absorb s.lh (s.buf i).key.2 → SameCounts s s' → s'.book.ops = s.book.ops →
      s'.book.writes = s.book.writes++entries s p i →
      s'.proc = update s.proc p {s.proc p with pc := .user} → Turn s s'
  | endPanic (p : cfg.ProcId) : kind (s.proc p).pc = .inOp → s.committing = true → Turn s s'
  | endMore (p : cfg.ProcId) : kind (s.proc p).pc = .inOp → s.committing = false →
      s.outstanding-1 ≠ 0 → s'.lh = s.lh → s'.outstanding = s.outstanding-1 →
      s'.committing = s.committing → s'.up = s.up → SameWrites s s' →
      (s'.proc = fun r => {update s.proc p {s.proc p with pc := .user, op := none} r with
        asleep := false}) → Turn s s'
  | endLast (p : cfg.ProcId) : kind (s.proc p).pc = .inOp → s.committing = false →
      s.outstanding-1 = 0 → s'.lh = s.lh → s'.outstanding = 0 → s'.committing = true →
      s'.up = s.up → SameWrites s s' →
      s'.proc = update s.proc p {s.proc p with pc := .commit, op := none} → Turn s s'
  | cleared (p : cfg.ProcId) (pc : Pc cfg) : (kind (s.proc p).pc = .commit ∧ kind pc = .committed ∨
        kind (s.proc p).pc = .recover ∧ kind pc = .recovered) → s'.lh = [] → SameCounts s s' →
      SameWrites s s' → s'.proc = update s.proc p {s.proc p with pc := pc} → Turn s s'
  | endCommit (p : cfg.ProcId) : kind (s.proc p).pc = .committed → s'.lh = s.lh →
      s'.outstanding = s.outstanding → s'.committing = false → s'.up = s.up → SameWrites s s' →
      (s'.proc = fun r => {update s.proc p {s.proc p with pc := .user} r with
        asleep := false}) → Turn s s'
  | initDone (p : cfg.ProcId) : kind (s.proc p).pc = .recovered → s'.lh = s.lh →
      s'.outstanding = s.outstanding → s'.committing = s.committing → s'.up = true →
      SameWrites s s' → s'.proc = update s.proc p {s.proc p with pc := .user} → Turn s s'
  | crash : s' = boot s.disk s.book → Turn s s'

section
variable {s s' t : State cfg} {p r : cfg.ProcId} {q : Proc cfg} {i : cfg.BufId} {msg : String}

theorem keeps_update (hk : kind q.pc = kind (s.proc p).pc) (ho : q.op = (s.proc p).op)
    (ha : q.asleep = (s.proc p).asleep) (r : cfg.ProcId) :
    Keeps (s.proc r) (update s.proc p q r) := by
  by_cases hr : r = p
  · subst hr
    simpa only [update_self] using ⟨hk,ho,fun h => ha ▸ h⟩
  · simpa only [update_of_ne hr] using .refl _

theorem quiet_setProc (hk : kind q.pc = kind (s.proc p).pc)
    (ho : q.op = (s.proc p).op) (ha : q.asleep = (s.proc p).asleep) : Turn s (setProc s p q) :=
  .quiet rfl ⟨rfl,rfl,rfl⟩ ⟨rfl,rfl⟩ (keeps_update hk ho ha)

theorem quiet_goto {pc : Pc cfg} (hk : kind pc = kind (s.proc p).pc) : Turn s (goto s p pc) :=
  quiet_setProc hk rfl rfl

theorem quiet_bread {pc : Pc cfg} {k : Key} (hk : kind pc = kind (s.proc p).pc) :
    Turn s (bread s p pc k) := quiet_setProc hk rfl rfl

theorem quiet_store (i : cfg.BufId) (v : Block) : Turn s (store s i v) :=
  .quiet rfl ⟨rfl,rfl,rfl⟩ ⟨rfl,rfl⟩ fun _ => .refl _

theorem quiet_bwrite (ht : t.lh = s.lh)
    (hc : SameCounts s t) (hw : SameWrites s t) (hproc : t.proc = s.proc)
    (hk : kind q.pc = kind (s.proc p).pc) (ho : q.op = (s.proc p).op)
    (ha : q.asleep = (s.proc p).asleep) : Turn s (bwrite t p i q) := by
  have hkeeps : ∀ r, Keeps (s.proc r) ((bwrite t p i q).proc r) := by
    intro r
    rw [bwrite_proc,hproc]
    split_ifs
    · exact keeps_update (by rfl) (by rfl) (by rfl) r
    · exact keeps_update (by exact hk) (by exact ho) (by exact ha) r
  rw [bwrite_eq] at *
  split_ifs at *
  · exact .quiet ht ⟨hc.1,hc.2,hc.3⟩ ⟨hw.1,hw.2⟩ hkeeps
  · exact .quiet ht ⟨hc.1,hc.2,hc.3⟩ ⟨hw.1,hw.2⟩ hkeeps

theorem quiet_brelse (hk : kind q.pc = kind (s.proc p).pc)
    (ho : q.op = (s.proc p).op) (ha : q.asleep = (s.proc p).asleep) : Turn s (brelse s p i q) := by
  unfold brelse
  split_ifs
  · exact quiet_setProc rfl rfl rfl
  · exact .quiet rfl ⟨rfl,rfl,rfl⟩ ⟨rfl,rfl⟩ (keeps_update hk ho ha)

theorem turn_bioStep (h : bioStep s p = some s') : Turn s s' := by
  obtain ⟨hlog,q,hq,hproc⟩ := bioStep_frame h
  refine .quiet hlog.lh ⟨hlog.outstanding,hlog.committing,hlog.up⟩ ⟨hlog.ops,hlog.writes⟩ ?_
  rw [hproc]
  cases hq with
  | move | panic => exact keeps_update rfl rfl rfl
  | deliver => exact keeps_update (kind_got _ _) rfl rfl

theorem turn_beginOp (hpc : (s.proc p).pc = .beginOp) (ha : (s.proc p).asleep = false) :
    Turn s (beginOp s p) := by
  have hk : kind (s.proc p).pc = .begin := by rw [hpc]; rfl
  unfold beginOp
  split_ifs with hfull
  · exact .sleep p hk hfull rfl ⟨rfl,rfl,rfl⟩ ⟨rfl,rfl⟩ rfl
  · exact .begun p hk hfull ha rfl rfl rfl rfl rfl rfl rfl

theorem turn_endOp (hpc : (s.proc p).pc = .endOp) : Turn s (endOp s p) := by
  have hk : kind (s.proc p).pc = .inOp := by rw [hpc]; rfl
  unfold endOp
  split_ifs with hc h0
  · exact .endPanic p hk hc
  · exact .endLast p hk (by simpa using hc) h0 rfl h0 rfl rfl ⟨rfl,rfl⟩ rfl
  · exact .endMore p hk (by simpa using hc) h0 rfl rfl rfl rfl ⟨rfl,rfl⟩ rfl

theorem turn_logWrite (hpc : (s.proc p).pc = .logWrite i) : Turn s (logWrite s p i) := by
  unfold logWrite
  split_ifs
  · exact quiet_setProc rfl rfl rfl
  · exact quiet_setProc rfl rfl rfl
  · exact quiet_goto (by rw [hpc]; rfl)

theorem turn_pcStep (ha : (s.proc p).asleep = false) (h : pcStep s p = some s') : Turn s s' := by
  unfold pcStep at h
  cases hpc : (s.proc p).pc <;> rw [hpc] at h <;> cases h
  case beginOp => exact turn_beginOp hpc ha
  case endOp => exact turn_endOp hpc
  case logWrite i => exact turn_logWrite hpc
  case logAppend i => exact .append p i hpc rfl ⟨rfl,rfl,rfl⟩ rfl rfl rfl
  case commit =>
      split_ifs with h0
      · exact quiet_goto (by rw [hpc]; rfl)
      · have hnil : s.lh = [] := List.eq_nil_of_length_eq_zero (by omega)
        exact .cleared p .endCommit (.inl ⟨by rw [hpc]; rfl,rfl⟩) hnil ⟨rfl,rfl,rfl⟩ ⟨rfl,rfl⟩ rfl
  case endCommit => exact .endCommit p (by rw [hpc]; rfl) rfl rfl rfl rfl ⟨rfl,rfl⟩ rfl
  case copy w t =>
      split_ifs
      · exact quiet_bread (by rw [hpc]; rfl)
      · exact quiet_goto (by rw [hpc]; cases w <;> rfl)
  case copyNext w t l => exact quiet_bread (by rw [hpc]; rfl)
  case copyMove w t l h =>
      exact quiet_bwrite rfl ⟨rfl,rfl,rfl⟩ ⟨rfl,rfl⟩ rfl (by rw [hpc]; rfl) rfl rfl
  case copyRelse w t l h => exact quiet_brelse (by rw [hpc]; rfl) rfl rfl
  case copyEnd w t b => exact quiet_brelse (by rw [hpc]; rfl) rfl rfl
  case clear r =>
      refine .cleared p _ ?_ rfl ⟨rfl,rfl,rfl⟩ ⟨rfl,rfl⟩ rfl
      rw [hpc]
      cases r
      · exact .inl ⟨rfl,rfl⟩
      · exact .inr ⟨rfl,rfl⟩
  case writeHead k => exact quiet_bread (by rw [hpc]; rfl)
  case writeHeadPut k b =>
      exact quiet_bwrite rfl ⟨rfl,rfl,rfl⟩ ⟨rfl,rfl⟩ rfl (by rw [hpc]; rfl) rfl rfl
  case writeHeadEnd k b => exact quiet_brelse (by rw [hpc]; cases k <;> rfl) rfl rfl
  case readHead => exact quiet_bread (by rw [hpc]; rfl)
  case readHeadCopy b =>
      have hproc := brelse_proc {s with lh := readHeader (s.buf b).data} p b
        {s.proc p with pc := .copy .recover 0}
      refine .readHead p (by rw [hpc]; rfl) ?_ ?_ fun r => ?_
      · unfold brelse
        split_ifs <;> exact ⟨rfl,rfl,rfl⟩
      · unfold brelse
        split_ifs <;> exact ⟨rfl,rfl⟩
      · rw [hproc]
        split_ifs
        · exact keeps_update (by rfl) (by rfl) (by rfl) r
        · exact keeps_update (by rw [hpc]; rfl) (by rfl) (by rfl) r
  case initDone => exact .initDone p (by rw [hpc]; rfl) rfl rfl rfl rfl ⟨rfl,rfl⟩ rfl

theorem turn_callStep {c : Call cfg} (hpc : (s.proc p).pc = .user) (hup : s.up = true)
    (h : callStep s p c = some s') : Turn s s' := by
  have hk : kind (s.proc p).pc = .user := by rw [hpc]; rfl
  have hother : ∀ (pc : Pc cfg) r, r ≠ p → (goto s p pc).proc r = s.proc r := fun pc r hr => by
    simp [goto,setProc,hr]
  have hself : ∀ pc : Pc cfg, (goto s p pc).proc p = {s.proc p with pc := pc} := fun pc => by
    simp [goto,setProc]
  cases c with
  | bread =>
    cases h
    exact quiet_bread (by rw [hpc])
  | modify i v =>
    simp only [callStep] at h
    split_ifs at h
    cases h
    exact quiet_store i v
  | bwrite =>
    simp only [callStep] at h
    split_ifs at h
    cases h
    exact quiet_bwrite rfl ⟨rfl,rfl,rfl⟩ ⟨rfl,rfl⟩ rfl rfl rfl rfl
  | logWrite =>
    simp only [callStep] at h
    split_ifs at h with hi
    cases h
    exact .enter p hk hup rfl ⟨rfl,rfl,rfl⟩ ⟨rfl,rfl⟩ (hother _) (.inr (by simp [hself,kind,hi.2]))
      (by rw [hself]) (by rw [hself])
  | brelse =>
    simp only [callStep] at h
    split_ifs at h
    cases h
    exact quiet_brelse rfl rfl rfl
  | beginOp =>
    simp only [callStep] at h
    split_ifs at h with ho
    cases h
    exact .enter p hk hup rfl ⟨rfl,rfl,rfl⟩ ⟨rfl,rfl⟩ (hother _)
      (.inl (by simpa [hself,kind] using ho)) (by rw [hself]) (by rw [hself])
  | endOp =>
    simp only [callStep] at h
    split_ifs at h with ho
    cases h
    exact .enter p hk hup rfl ⟨rfl,rfl,rfl⟩ ⟨rfl,rfl⟩ (hother _) (.inr (by simp [hself,kind,ho]))
      (by rw [hself]) (by rw [hself])

theorem turn_ideintr (h : ideintr s = some s') : Turn s s' := by
  unfold ideintr at h
  split at h
  · cases h
  · split_ifs at h <;> cases h
    · refine .quiet rfl ⟨rfl,rfl,rfl⟩ ?_ fun _ => .refl _
      simp only [Book.written]
      constructor <;> (split_ifs <;> rfl)
    · exact .quiet rfl ⟨rfl,rfl,rfl⟩ ⟨rfl,rfl⟩ fun _ => .refl _

theorem step_turn {a : Label cfg} (h : step s a = some s') : Turn s s' := by
  cases step_runs h with
  | bio p _ _ _ hs => exact turn_bioStep hs
  | pc p _ _ ha hs => exact turn_pcStep ha hs
  | call p c _ _ hpc hup hs => exact turn_callStep hpc hup hs
  | intr hs => exact turn_ideintr hs
  | rouse p hs =>
    subst hs
    refine .quiet rfl ⟨rfl,rfl,rfl⟩ ⟨rfl,rfl⟩ fun r => ?_
    by_cases hr : r = p
    · subst hr
      simpa [setProc] using ⟨rfl,rfl,by simp⟩
    · simpa [setProc,hr] using .refl _
  | crash hs => exact .crash hs

inductive Panics (s : State cfg) (r : cfg.ProcId) : String → Prop
  | tooBig (i : cfg.BufId) : (s.proc r).pc = .logWrite i →
      LOGSIZE ≤ s.lh.length ∨ cfg.size-1 ≤ s.lh.length → Panics s r "too big a transaction"
  | outside (i : cfg.BufId) : (s.proc r).pc = .logWrite i → s.outstanding < 1 →
      Panics s r "log_write outside of trans"
  | committing : (s.proc r).pc = .endOp → s.committing = true → Panics s r "log.committing"
  | bio {msg : String} : msg ∈ bioPanics → Panics s r msg

theorem panicked_update (h : (update s.proc p q r).panicked = some msg)
    (hq : q.panicked = (s.proc p).panicked ∨ ∃ m, q.panicked = some m ∧ Panics s p m) :
    (s.proc r).panicked = some msg ∨ Panics s r msg := by
  by_cases hr : r = p
  · subst hr
    rw [update_self] at h
    rcases hq with hq | ⟨m,hm,hp⟩
    · exact .inl (hq ▸ h)
    · rw [hm] at h
      cases h
      exact .inr hp
  · rw [update_of_ne hr] at h
    exact .inl h

theorem panicked_bwrite (h : ((bwrite t p i q).proc r).panicked = some msg) (ht : t.proc = s.proc)
    (hq : q.panicked = (s.proc p).panicked) :
    (s.proc r).panicked = some msg ∨ Panics s r msg := by
  rw [bwrite_proc,ht] at h
  refine panicked_update h ?_
  split_ifs
  · exact .inr ⟨_,rfl,.bio (by decide)⟩
  · exact .inl hq

theorem panicked_brelse (h : ((brelse t p i q).proc r).panicked = some msg) (ht : t.proc = s.proc)
    (hq : q.panicked = (s.proc p).panicked) :
    (s.proc r).panicked = some msg ∨ Panics s r msg := by
  rw [brelse_proc,ht] at h
  refine panicked_update h ?_
  split_ifs
  · exact .inr ⟨_,rfl,.bio (by decide)⟩
  · exact .inl hq

theorem panicked_pcStep (h : pcStep s p = some s')
    (hp : (s'.proc r).panicked = some msg) : (s.proc r).panicked = some msg ∨ Panics s r msg := by
  unfold pcStep at h
  cases hpc : (s.proc p).pc <;> rw [hpc] at h <;> cases h
  case beginOp =>
      unfold beginOp at hp
      split_ifs at hp
      · exact panicked_update hp (.inl rfl)
      · exact panicked_update hp (.inl rfl)
  case endOp =>
      unfold endOp at hp
      split_ifs at hp with hc
      · exact panicked_update hp (.inr ⟨_,rfl,.committing hpc hc⟩)
      · exact panicked_update hp (.inl rfl)
      · exact panicked_update hp (.inl rfl)
  case logWrite i =>
      unfold logWrite at hp
      split_ifs at hp with hbig hout
      · exact panicked_update hp (.inr ⟨_,rfl,.tooBig i hpc hbig⟩)
      · exact panicked_update hp (.inr ⟨_,rfl,.outside i hpc hout⟩)
      · exact panicked_update hp (.inl rfl)
  case copy w t =>
      split_ifs at hp
      · exact panicked_update hp (.inl rfl)
      · exact panicked_update hp (.inl rfl)
  case copyMove | writeHeadPut => exact panicked_bwrite hp rfl rfl
  case copyRelse | copyEnd | writeHeadEnd | readHeadCopy => exact panicked_brelse hp rfl rfl
  all_goals exact panicked_update hp (.inl rfl)

theorem panicked_callStep {c : Call cfg} (h : callStep s p c = some s')
    (hp : (s'.proc r).panicked = some msg) : (s.proc r).panicked = some msg ∨ Panics s r msg := by
  cases c with
  | bread =>
    cases h
    exact panicked_update hp (.inl rfl)
  | modify =>
    simp only [callStep] at h
    split_ifs at h
    cases h
    exact .inl hp
  | bwrite =>
    simp only [callStep] at h
    split_ifs at h
    cases h
    exact panicked_bwrite hp rfl rfl
  | brelse =>
    simp only [callStep] at h
    split_ifs at h
    cases h
    exact panicked_brelse hp rfl rfl
  | logWrite | beginOp | endOp =>
    simp only [callStep] at h
    split_ifs at h
    cases h
    exact panicked_update hp (.inl rfl)

theorem panicked_new {a : Label cfg} (h : step s a = some s')
    (hp : (s'.proc r).panicked = some msg) : (s.proc r).panicked = some msg ∨ Panics s r msg := by
  cases step_runs h with
  | bio p _ _ _ hs =>
    obtain ⟨-,q,hq,hproc⟩ := bioStep_frame hs
    rw [hproc] at hp
    refine panicked_update hp ?_
    cases hq with
    | panic m hm => exact .inr ⟨m,rfl,.bio hm⟩
    | move | deliver => exact .inl rfl
  | pc p _ _ _ hs => exact panicked_pcStep hs hp
  | call p c _ _ _ _ hs => exact panicked_callStep hs hp
  | intr hs =>
    unfold ideintr at hs
    split at hs
    · cases hs
    · split_ifs at hs <;> cases hs <;> exact .inl hp
  | rouse p hs =>
    subst hs
    exact panicked_update hp (.inl rfl)
  | crash hs =>
    subst hs
    simp [boot] at hp

end

end Xv6.LogStep
