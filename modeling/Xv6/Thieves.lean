import Mathlib.Data.Fintype.Lattice
import Xv6.Machine
import Xv6.WaitFor

/-!
# Thieves and the runqueue locks

Any number of CPUs run the loop of the multiple runqueue scheduler with `work_steal`. A CPU with an
empty runqueue keeps its lock while it looks for a runqueue to steal from and waits for the lock of
that one. The sizes are read without a lock, twice in each round. Other code takes a lock, enqueues
and gives the lock back. Nobody else can fill the runqueue of a thief: thieves that wait for each
other are ranked by the time at which they became thieves.
-/
namespace Xv6.Thieves
open Function (update update_apply update_of_ne)
open Machine WaitFor Relation

section
variable {n : ℕ}

/-- Where a CPU is in `scheduler` and `work_steal`. The arguments are the local variables that
are in use there. -/
inductive Pc (n : ℕ)
  | acquireOwn
  | testOwn
  | compare (i : ℕ) (target : Option (Fin n)) (maxSize : ℕ) (stealid : ℤ)
  | store (i : Fin n)
  | chosen (target : Option (Fin n)) (stealid : ℤ)
  | acquireTarget (v : Fin n)
  | testTarget (v : Fin n)
  | dequeueTarget (v : Fin n)
  | enqueueOwn (v : Fin n)
  | releaseTarget (v : Fin n)
  | releaseOwn
  | dequeueOwn
  | releaseRun
  | runProcess
  deriving DecidableEq

/-- Who holds a lock: a CPU in its scheduler, or other code. -/
inductive Owner (n : ℕ) (E : Type)
  | cpu (c : Fin n)
  | other (e : E)
  deriving DecidableEq

structure State (n : ℕ) (E : Type) where
  pc : Fin n → Pc n
  lock : Fin n → Option (Owner n E)
  size : Fin n → ℕ

inductive Label (n : ℕ) (E : Type)
  | cpu (c : Fin n)
  | take (e : E) (r : Fin n)
  | enqueue (e : E) (r : Fin n)
  | give (e : E) (r : Fin n)
  deriving DecidableEq

variable {E : Type}

def State.start : State n E := ⟨fun _ => .acquireOwn,fun _ => none,fun _ => 0⟩

def State.go (s : State n E) (c : Fin n) (p : Pc n) : State n E := {s with pc := update s.pc c p}

def State.setLock (s : State n E) (r : Fin n) (o : Option (Owner n E)) : State n E :=
  {s with lock := update s.lock r o}

def State.setSize (s : State n E) (r : Fin n) (k : ℕ) : State n E := {s with size := update s.size r k}

def cpuStep (s : State n E) (c : Fin n) : Option (State n E) :=
  match s.pc c with
  | .acquireOwn =>
    if (s.lock c).isSome then none else some ((s.setLock c (some (.cpu c))).go c .testOwn)
  | .testOwn =>
    if s.size c = 0 then some (s.go c (.compare 0 none 0 (-1))) else some (s.go c .dequeueOwn)
  | .compare i target maxSize stealid =>
    if h : i < n then
      if s.size ⟨i,h⟩ > maxSize ∧ ⟨i,h⟩ ≠ c then some (s.go c (.store ⟨i,h⟩))
      else some (s.go c (.compare (i+1) target maxSize stealid))
    else some (s.go c (.chosen target stealid))
  | .store i => some (s.go c (.compare (i+1) (some i) (s.size i) i))
  | .chosen target stealid =>
    match target with
    | none => some (s.go c .releaseOwn)
    | some v =>
      if stealid = 0 then some (s.go c .releaseOwn)
      else if v = c then none
      else some (s.go c (.acquireTarget v))
  | .acquireTarget v =>
    if (s.lock v).isSome then none else some ((s.setLock v (some (.cpu c))).go c (.testTarget v))
  | .testTarget v =>
    if s.size v ≠ 0 then some (s.go c (.dequeueTarget v)) else some (s.go c (.releaseTarget v))
  | .dequeueTarget v =>
    if s.size v = 0 then none else some ((s.setSize v (s.size v-1)).go c (.enqueueOwn v))
  | .enqueueOwn v => some ((s.setSize c (s.size c+1)).go c (.releaseTarget v))
  | .releaseTarget v => some ((s.setLock v none).go c .releaseOwn)
  | .releaseOwn => some ((s.setLock c none).go c .acquireOwn)
  | .dequeueOwn =>
    if s.size c = 0 then none else some ((s.setSize c (s.size c-1)).go c .releaseRun)
  | .releaseRun => some ((s.setLock c none).go c .runProcess)
  | .runProcess => some (s.go c .acquireOwn)

def step [DecidableEq E] (s : State n E) : Label n E → Option (State n E)
  | .cpu c => cpuStep s c
  | .take e r => if (s.lock r).isSome then none else some (s.setLock r (some (.other e)))
  | .enqueue e r => if s.lock r = some (.other e) then some (s.setSize r (s.size r+1)) else none
  | .give e r => if s.lock r = some (.other e) then some (s.setLock r none) else none

/-! ## Invariants -/

def Pc.inside : Pc n → Bool
  | .acquireOwn => false
  | .runProcess => false
  | _ => true

def Pc.second : Pc n → Option (Fin n)
  | .testTarget v => some v
  | .dequeueTarget v => some v
  | .enqueueOwn v => some v
  | .releaseTarget v => some v
  | _ => none

def Pc.thief : Pc n → Bool
  | .compare .. => true
  | .store _ => true
  | .chosen .. => true
  | .acquireTarget _ => true
  | _ => false

def Pc.target : Pc n → Option (Fin n)
  | .compare _ target _ _ => target
  | .store i => some i
  | .chosen target _ => target
  | .acquireTarget v => some v
  | _ => none

def Pc.Holds (p : Pc n) (c r : Fin n) : Prop := p.inside = true ∧ r = c ∨ p.second = some r

structure Safe (s : State n E) : Prop where
  locks : ∀ r c, s.lock r = some (.cpu c) ↔ (s.pc c).Holds c r
  empty : ∀ c, (s.pc c).thief = true → s.size c = 0
  apart : ∀ c v, (s.pc c).target = some v ∨ (s.pc c).second = some v → v ≠ c
  ranked : ∃ rank : Fin n → ℕ, ∀ c v, (s.pc c).target = some v → (s.pc v).thief = true → rank c < rank v

variable {s s' : State n E} {c r : Fin n} {p : Pc n}

theorem thief_inside (h : p.thief = true) : p.inside = true := by
  cases p <;> first | rfl | cases h

theorem Safe.thief_lock (h : Safe s) (ht : (s.pc c).thief = true) : s.lock c = some (.cpu c) :=
  (h.locks c c).mpr (.inl ⟨thief_inside ht,rfl⟩)

def LocksAfter (s : State n E) (c : Fin n) (p : Pc n) (lock : Fin n → Option (Owner n E)) : Prop :=
  ∀ r d, lock r = some (.cpu d) ↔ if d = c then p.Holds c r else s.lock r = some (.cpu d)

theorem Safe.locks_same (h : Safe s) (hp : ∀ r, p.Holds c r ↔ (s.pc c).Holds c r) :
    LocksAfter s c p s.lock := by
  intro r d
  split_ifs with hd
  · subst hd
    rw [h.locks,hp]
  · rfl

theorem Safe.locks_take (h : Safe s) {v : Fin n} (hv : s.lock v = none)
    (hp : ∀ r, p.Holds c r ↔ (s.pc c).Holds c r ∨ r = v) :
    LocksAfter s c p (update s.lock v (some (.cpu c))) := by
  intro r d
  rw [update_apply]
  by_cases hr : r = v
  · subst hr
    rw [if_pos rfl,hv]
    split_ifs with hd
    · subst hd
      exact iff_of_true rfl ((hp r).mpr (.inr rfl))
    · refine iff_of_false (fun he => hd ?_) nofun
      cases he
      rfl
  · rw [if_neg hr]
    split_ifs with hd
    · subst hd
      rw [h.locks,hp]
      exact ⟨.inl,fun hh => hh.resolve_right hr⟩
    · rfl

theorem Safe.locks_drop (h : Safe s) {v : Fin n} (hv : (s.pc c).Holds c v)
    (hp : ∀ r, p.Holds c r ↔ (s.pc c).Holds c r ∧ r ≠ v) : LocksAfter s c p (update s.lock v none) := by
  intro r d
  rw [update_apply]
  by_cases hr : r = v
  · subst hr
    rw [if_pos rfl]
    split_ifs with hd
    · exact iff_of_false nofun fun hh => ((hp r).mp hh).2 rfl
    · refine iff_of_false nofun fun he => hd ?_
      rw [(h.locks r c).mpr hv] at he
      cases he
      rfl
  · rw [if_neg hr]
    split_ifs with hd
    · subst hd
      rw [h.locks,hp]
      exact ⟨fun hh => ⟨hh,hr⟩,And.left⟩
    · rfl

/-- A step of CPU `c` to `p`. It changes only sizes of runqueues whose locks it holds. If it has
a target afterwards, it was a thief before and had that target, or has just seen it nonempty. -/
theorem Safe.move (h : Safe s) {lock : Fin n → Option (Owner n E)} {size : Fin n → ℕ}
    (hlock : LocksAfter s c p lock) (hsize : ∀ d, size d = s.size d ∨ (s.pc c).Holds c d)
    (hempty : p.thief = true → size c = 0) (hapart : ∀ v, p.target = some v ∨ p.second = some v → v ≠ c)
    (hrank : p.target = none ∨ (s.pc c).thief = true ∧
      ∀ v, p.target = some v → (s.pc c).target = some v ∨ s.size v ≠ 0) :
    Safe (⟨update s.pc c p,lock,size⟩ : State n E) := by
  have hpc : ∀ d, update s.pc c p d = if d = c then p else s.pc d := fun d => update_apply ..
  refine ⟨fun r d => ?_,fun d hd => ?_,fun d v hd => ?_,?_⟩
  · rw [hlock r d]
    dsimp only
    rw [hpc]
    split_ifs with hd
    · rw [hd]
    · exact h.locks r d
  · dsimp only at hd ⊢
    rw [hpc] at hd
    split_ifs at hd with hdc
    · rw [hdc]
      exact hempty hd
    · rcases hsize d with he | he
      · rw [he]
        exact h.empty d hd
      · -- the lock of a thief is its own
        have hlock := h.thief_lock hd
        rw [(h.locks d c).mpr he] at hlock
        cases hlock
        exact absurd rfl hdc
  · dsimp only at hd
    rw [hpc] at hd
    split_ifs at hd with hdc
    · rw [hdc]
      exact hapart v hd
    · exact h.apart d v hd
  · obtain ⟨rank,hr⟩ := h.ranked
    rcases hrank with hnone | ⟨hthief,htarget⟩
    · -- the CPU goes behind all others
      refine ⟨update rank c ((Finset.univ.sup rank)+1),fun d v hd hv => ?_⟩
      dsimp only at hd hv
      rw [hpc] at hd hv
      by_cases hdc : d = c
      · rw [if_pos hdc,hnone] at hd
        cases hd
      · rw [if_neg hdc] at hd
        rw [update_of_ne hdc,update_apply]
        split_ifs at hv ⊢ with hvc
        · exact Nat.lt_succ_of_le (Finset.le_sup (Finset.mem_univ d))
        · exact hr d v hd hv
    · refine ⟨rank,fun d v hd hv => ?_⟩
      dsimp only at hd hv
      rw [hpc] at hd hv
      have hv' : (s.pc v).thief = true := by
        split_ifs at hv with hvc
        · rw [hvc]
          exact hthief
        · exact hv
      split_ifs at hd with hdc
      · rcases htarget v hd with ht | ht
        · rw [hdc]
          exact hr c v ht hv'
        · exact absurd (h.empty v hv') ht
      · exact hr d v hd hv'

theorem Safe.start : Safe (.start : State n E) where
  locks r c := by simp [State.start,Pc.Holds,Pc.inside,Pc.second]
  empty _ h := by cases h
  apart _ _ h := by rcases h with h | h <;> cases h
  ranked := ⟨fun _ => 0,fun _ _ h => by cases h⟩

theorem Safe.go {p₀ : Pc n} (h : Safe s) (hp : s.pc c = p₀) (hin : p.inside = p₀.inside)
    (hsecond : p.second = p₀.second) (hempty : p.thief = true → s.size c = 0)
    (htarget : ∀ v, p.target = some v → v ≠ c)
    (hrank : p.target = none ∨ p₀.thief = true ∧
      ∀ v, p.target = some v → p₀.target = some v ∨ s.size v ≠ 0) : Safe (s.go c p) := by
  subst hp
  refine h.move (h.locks_same fun r => ?_) (fun d => .inl rfl) hempty (fun v hv => ?_) hrank
  · rw [Pc.Holds,Pc.Holds,hin,hsecond]
  · rcases hv with hv | hv
    · exact htarget v hv
    · exact h.apart c v (.inr (hsecond ▸ hv))

theorem Safe.go_thief {p₀ : Pc n} (h : Safe s) (hp : s.pc c = p₀) (h₀ : p₀.thief = true)
    (hin : p.inside = p₀.inside) (hsecond : p.second = p₀.second) (htarget : p.target = p₀.target) :
    Safe (s.go c p) := by
  refine h.go hp hin hsecond (fun _ => h.empty c (hp ▸ h₀)) (fun v hv => ?_) (.inr ⟨h₀,fun v hv => .inl ?_⟩)
  · exact h.apart c v (.inl (by rw [hp,← htarget,hv]))
  · rw [← htarget,hv]

theorem Safe.cpuStep (h : Safe s) (hs : Thieves.cpuStep s c = some s') : Safe s' := by
  unfold Thieves.cpuStep at hs
  have happart := h.apart c
  have hempty := h.empty c
  cases hp : s.pc c with
  | acquireOwn =>
    simp only [hp] at hs
    split_ifs at hs with hl
    cases hs
    rw [Option.not_isSome_iff_eq_none] at hl
    refine h.move (h.locks_take hl fun r => ?_) (fun d => .inl rfl) nofun nofun (.inl rfl)
    simp [hp,Pc.Holds,Pc.inside,Pc.second]
  | testOwn =>
    simp only [hp] at hs
    split_ifs at hs with hsize
    · cases hs
      exact h.go hp rfl rfl (fun _ => hsize) nofun (.inl rfl)
    · cases hs
      exact h.go hp rfl rfl nofun nofun (.inl rfl)
  | compare =>
    rw [hp] at hempty
    simp only [hp] at hs
    split_ifs at hs with hi hmore
    · -- the size has just been read
      cases hs
      refine h.go hp rfl rfl (fun _ => hempty rfl) ?_ (.inr ⟨rfl,?_⟩)
      · intro v hv
        cases hv
        exact hmore.2
      · intro v hv
        cases hv
        exact .inr (by omega)
    · cases hs
      exact h.go_thief hp rfl rfl rfl rfl
    · cases hs
      exact h.go_thief hp rfl rfl rfl rfl
  | store =>
    simp only [hp] at hs
    cases hs
    exact h.go_thief hp rfl rfl rfl rfl
  | chosen target =>
    simp only [hp] at hs
    cases target with
    | none =>
      cases hs
      exact h.go hp rfl rfl nofun nofun (.inl rfl)
    | some =>
      dsimp only at hs
      split_ifs at hs with hid hself
      · cases hs
        exact h.go hp rfl rfl nofun nofun (.inl rfl)
      · cases hs
        exact h.go_thief hp rfl rfl rfl rfl
  | acquireTarget =>
    rw [hp] at happart
    simp only [hp] at hs
    split_ifs at hs with hl
    cases hs
    rw [Option.not_isSome_iff_eq_none] at hl
    refine h.move (h.locks_take hl fun r => ?_) (fun d => .inl rfl) nofun ?_ (.inl rfl)
    · simp [hp,Pc.Holds,Pc.inside,Pc.second,eq_comm]
    · rintro w (hw | hw)
      · cases hw
      · exact happart w (.inl hw)
  | testTarget =>
    simp only [hp] at hs
    split_ifs at hs with hsize
    · cases hs
      exact h.go hp rfl rfl nofun nofun (.inl rfl)
    · cases hs
      exact h.go hp rfl rfl nofun nofun (.inl rfl)
  | dequeueTarget v =>
    rw [hp] at happart
    simp only [hp] at hs
    split_ifs at hs with hsize
    cases hs
    refine h.move (h.locks_same fun r => ?_) (fun d => ?_) nofun ?_ (.inl rfl)
    · rw [hp]
      rfl
    · by_cases hd : d = v
      · rw [hp,hd]
        exact .inr (.inr rfl)
      · exact .inl (update_of_ne hd ..)
    · rintro w (hw | hw)
      · cases hw
      · exact happart w (.inr hw)
  | enqueueOwn =>
    rw [hp] at happart
    simp only [hp] at hs
    cases hs
    refine h.move (h.locks_same fun r => ?_) (fun d => ?_) nofun ?_ (.inl rfl)
    · rw [hp]
      rfl
    · by_cases hd : d = c
      · rw [hp,hd]
        exact .inr (.inl ⟨rfl,rfl⟩)
      · exact .inl (update_of_ne hd ..)
    · rintro w (hw | hw)
      · cases hw
      · exact happart w (.inr hw)
  | releaseTarget v =>
    rw [hp] at happart
    have hv : v ≠ c := happart v (.inr rfl)
    simp only [hp] at hs
    cases hs
    refine h.move (h.locks_drop (v := v) (by rw [hp]; exact .inr rfl) fun r => ?_)
      (fun d => .inl rfl) nofun nofun (.inl rfl)
    simp only [hp,Pc.Holds,Pc.inside,Pc.second,true_and,reduceCtorEq,or_false,Option.some.injEq]
    constructor
    · rintro rfl
      exact ⟨.inl rfl,hv.symm⟩
    · rintro ⟨hr | hr,hne⟩
      · exact hr
      · exact absurd hr.symm hne
  | releaseOwn | releaseRun =>
    simp only [hp] at hs
    cases hs
    refine h.move (h.locks_drop (v := c) (by rw [hp]; exact .inl ⟨rfl,rfl⟩) fun r => ?_)
      (fun d => .inl rfl) nofun nofun (.inl rfl)
    simp [hp,Pc.Holds,Pc.inside,Pc.second]
  | dequeueOwn =>
    simp only [hp] at hs
    split_ifs at hs with hsize
    cases hs
    refine h.move (h.locks_same fun r => ?_) (fun d => ?_) nofun nofun (.inl rfl)
    · rw [hp]
      rfl
    · by_cases hd : d = c
      · rw [hp,hd]
        exact .inr (.inl ⟨rfl,rfl⟩)
      · exact .inl (update_of_ne hd ..)
  | runProcess =>
    simp only [hp] at hs
    cases hs
    exact h.go hp rfl rfl nofun nofun (.inl rfl)

theorem Safe.other (h : Safe s) {lock : Fin n → Option (Owner n E)} {size : Fin n → ℕ}
    (hlock : ∀ r c, lock r = some (.cpu c) ↔ s.lock r = some (.cpu c))
    (hsize : ∀ d, size d = s.size d ∨ ∀ c, s.lock d ≠ some (.cpu c)) :
    Safe (⟨s.pc,lock,size⟩ : State n E) where
  locks r c := (hlock r c).trans (h.locks r c)
  empty c hc := by
    rcases hsize c with he | he
    · exact he.trans (h.empty c hc)
    · exact absurd (h.thief_lock hc) (he c)
  apart := h.apart
  ranked := h.ranked

theorem Safe.step [DecidableEq E] (h : Safe s) {a : Label n E} (hs : Thieves.step s a = some s') : Safe s' := by
  cases a with
  | cpu => exact h.cpuStep hs
  | take =>
    simp only [Thieves.step] at hs
    split_ifs at hs with hl
    cases hs
    rw [Option.not_isSome_iff_eq_none] at hl
    refine h.other (fun r' c => ?_) fun d => .inl rfl
    rw [update_apply]
    split_ifs with hr
    · rw [hr,hl]
      exact iff_of_false nofun nofun
    · rfl
  | enqueue e r =>
    simp only [Thieves.step] at hs
    split_ifs at hs with hl
    cases hs
    refine h.other (fun r' c => Iff.rfl) fun d => ?_
    by_cases hd : d = r
    · refine .inr fun c => ?_
      rw [hd,hl]
      exact nofun
    · exact .inl (update_of_ne hd ..)
  | give =>
    simp only [Thieves.step] at hs
    split_ifs at hs with hl
    cases hs
    refine h.other (fun r' c => ?_) fun d => .inl rfl
    rw [update_apply]
    split_ifs with hr
    · rw [hr,hl]
      exact iff_of_false nofun nofun
    · rfl

/-- CPU `c` holds its own lock inside `work_steal` and waits for a lock that CPU `d` holds. -/
def Waits (s : State n E) (c d : Fin n) : Prop :=
  s.lock c = some (.cpu c) ∧ ∃ v, s.pc c = .acquireTarget v ∧ s.lock v = some (.cpu d)

/-- Thieves never wait for each other in a circle. -/
theorem no_thief_cycle [DecidableEq E] (h : Reach step (fun _ _ => True) (.start : State n E) s) (c : Fin n) :
    ¬TransGen (Waits s) c c := by
  have hs : Safe s := h.invariant (I := Safe) .start fun s a s' hs _ hstep => hs.step hstep
  obtain ⟨rank,hr⟩ := hs.ranked
  refine no_cycle rank (fun x y hxy => ?_) c
  obtain ⟨⟨⟨-,v,hx,hv⟩,-,z,-,w,hy,-⟩,-,-⟩ := hxy
  -- a CPU that waits holds no lock but its own
  obtain rfl : v = y := by
    rcases (hs.locks v y).mp hv with ⟨-,hvy⟩ | hsecond
    · exact hvy
    · rw [hy] at hsecond
      cases hsecond
  exact hr x v (by rw [hx]; rfl) (by rw [hy]; rfl)

def oneThief : List (Label 3 Unit) :=
  [.take () 2,.enqueue () 2,.give () 2]++List.replicate 8 (.cpu 1)++[.cpu 2]

theorem oneThief_waits : ∃ s : State 3 Unit, Waits s 1 2 ∧ ¬TransGen (Waits s) 1 1 := by
  have hrun : (run (guarded step fun _ _ => True) (.start : State 3 Unit) oneThief).any
      (fun s => s.lock 1 = some (.cpu 1) ∧ s.pc 1 = .acquireTarget 2 ∧ s.lock 2 = some (.cpu 2)) = true := by
    decide +kernel
  obtain ⟨s,hs,hp⟩ := (Option.any_eq_true _ _).mp hrun
  obtain ⟨h1,hpc,h2⟩ := of_decide_eq_true hp
  exact ⟨s,⟨h1,2,hpc,h2⟩,no_thief_cycle (Reach.refl.of_run hs) 1⟩

end
end Xv6.Thieves
