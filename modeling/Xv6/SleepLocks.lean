import Xv6.Monitor

/-!
# Sleep locks

`acquiresleep`, `releasesleep` and `holdingsleep` on one lock, by any number of processes with pids
of their own, each of which makes one call at a time. Beside `struct sleeplock` is kept which
processes are between their `acquiresleep` and `releasesleep`: from the store of 1 in `locked` to
that of 0.
-/
namespace Xv6.SleepLocks
open Machine Monitor Function

structure Sleeplock (n : ℕ) where
  locked : Bool
  pid : ℕ
  between : Fin n → Bool

/-- Points of the code after `acquire(&lk->lk)`, with the process. -/
inductive Point (n : ℕ) where
  | acquiresleep (p : Fin n)
  | releasesleep (p : Fin n)
  | wakeup (p : Fin n)
  | release (p : Fin n)
  | holdingsleep (p : Fin n)

section
variable {n : ℕ} (pid : Fin n ↪ ℕ)

def Point.proc : Point n → Fin n
  | .acquiresleep p | .releasesleep p | .wakeup p | .release p | .holdingsleep p => p

def Sleeplock.holding (lk : Sleeplock n) (p : Fin n) : Bool := lk.locked && lk.pid = pid p

def code (lk : Sleeplock n) (_ : Bool) : Point n → Act (Sleeplock n) (Point n) Unit Bool
  | .acquiresleep p =>
    if lk.locked then .sleep () (.acquiresleep p)
    else .leave ⟨true,pid p,update lk.between p true⟩ true
  | .releasesleep p => .goto ⟨false,0,update lk.between p false⟩ (.wakeup p)
  | .wakeup p => .wakeup () (.release p)
  | .release _ => .leave lk true
  | .holdingsleep p => .leave lk (lk.holding pid p)

abbrev LockState (n : ℕ) := State (Fin n) (Sleeplock n) (Point n) Unit

def Point.begins (lk : Sleeplock n) : Point n → Bool
  | .acquiresleep p => !lk.between p
  | .releasesleep p => lk.between p
  | .holdingsleep _ => true
  | _ => false

def enabled (s : LockState n) (p : Fin n) (l : Point n) : Bool :=
  l.proc = p ∧ (∀ q, (s.thread q).point.map Point.proc ≠ some p) ∧ l.begins s.data

def system : System (Fin n) (Sleeplock n) (Point n) Unit Bool Empty where
  code := code pid
  enabled := enabled
  env _ e := nomatch e

def init (n : ℕ) : LockState n := ⟨⟨false,0,fun _ => false⟩,none,none,fun _ => .out,fun _ => false⟩

def Right (lk : Sleeplock n) : Prop := ∀ p, lk.between p = lk.holding pid p

def Point.owner (lk : Sleeplock n) : Point n → Prop
  | .releasesleep p => lk.between p = true
  | _ => True

def assertions : Assertions (Fin n) (Sleeplock n) (Point n) Unit where
  free := Right pid
  holds l lk := Right pid lk ∧ l.owner lk
  waiting l lk := l.owner lk
  sleeping _ l _ := ∃ p, l = .acquiresleep p
  claims _ _ := False

variable {pid} {lk : Sleeplock n} {p : Fin n} {s : LockState n}

theorem Right.acquire (h : Right pid lk) (hl : lk.locked = false) :
    Right pid ⟨true,pid p,update lk.between p true⟩ := by
  intro q
  by_cases hq : q = p
  · simp [hq,Sleeplock.holding]
  · have hne : pid p ≠ pid q := fun he => hq (pid.injective he).symm
    simp [Sleeplock.holding,h q,hl,hq,hne]

theorem Right.unique (h : Right pid lk) {q : Fin n} (hp : lk.between p = true)
    (hq : lk.between q = true) : p = q := by
  rw [h] at hp hq
  simp only [Sleeplock.holding,Bool.and_eq_true,decide_eq_true_eq] at hp hq
  exact pid.injective (hp.2.symm.trans hq.2)

theorem Right.release (h : Right pid lk) (hp : lk.between p = true) :
    Right pid ⟨false,0,update lk.between p false⟩ := by
  intro q
  by_cases hq : q = p
  · simp [hq,Sleeplock.holding]
  · have hout : lk.between q = false := Bool.eq_false_iff.mpr fun hb => hq (h.unique hb hp)
    simp [Sleeplock.holding,hq,hout]

/-- A change of `between` at one process leaves what is said of the others. -/
theorem frame {b : Bool} {x : Bool} {k : ℕ} {mine : Fin n → Prop} (l : Point n) (hl : l.proc = p) :
    (assertions pid).Frame (Apart (some ∘ Point.proc) l) mine lk ⟨x,k,update lk.between p b⟩ := by
  refine ⟨fun m hm h => ?_,fun _ _ _ h => h,fun _ h => h.elim⟩
  cases m with
  | releasesleep q =>
    have hq : q ≠ p := fun he => hm p (by simp [hl]) (by simp [Point.proc,he])
    exact (update_of_ne hq ..).trans h
  | _ => trivial

theorem system_spec : Spec (system pid) (some ∘ Point.proc) (assertions pid) fun _ _ _ => True where
  keeps lk k l := by
    cases l with
    | acquiresleep p => by_cases h : lk.locked <;> simp [system,code,h,Point.proc]
    | _ => simp [system,code,Point.proc]
  exclusive s t l he u m hm k hk hmk := by
    simp only [system,enabled,decide_eq_true_eq] at he
    cases hk
    refine he.2.1 u ?_
    rw [hm,← he.1]
    exact hmk
  enter s t l he _ := by
    simp only [system,enabled,decide_eq_true_eq] at he
    cases l with
    | releasesleep => exact he.2.2
    | _ => trivial
  acquire _ _ h hw := ⟨h,hw⟩
  goto lk k l lk' l' h _ hc := by
    cases l with
    | acquiresleep =>
      simp only [system,code] at hc
      split_ifs at hc
    | releasesleep =>
      cases hc
      exact ⟨⟨h.1.release h.2,trivial⟩,frame _ rfl⟩
    | _ => cases hc
  wakeup lk k l c l' h hc := by
    cases l with
    | acquiresleep =>
      simp only [system,code] at hc
      split_ifs at hc
    | wakeup =>
      cases hc
      exact h
    | _ => cases hc
  sleep lk k l c l' h hc := by
    cases l with
    | acquiresleep p =>
      simp only [system,code] at hc
      split_ifs at hc
      cases hc
      exact ⟨h.1,p,rfl⟩
    | _ => cases hc
  woken lk c l h := by
    obtain ⟨p,rfl⟩ := h
    trivial
  leave lk k l lk' r h hc := by
    cases l with
    | acquiresleep =>
      simp only [system,code] at hc
      split_ifs at hc with hl
      cases hc
      exact ⟨h.1.acquire (Bool.eq_false_iff.mpr hl),frame _ rfl,fun _ _ h => h⟩
    | release | holdingsleep =>
      cases hc
      exact ⟨h.1,.refl _ _ _ _,fun _ _ h => h⟩
    | _ => cases hc
  env _ e := nomatch e

def Waits (_ : Unit) (lk : Sleeplock n) : Prop := lk.locked = true

def Owes (_ : Unit) (l : Point n) (_ : Sleeplock n) : Prop := ∃ p, l = .wakeup p

theorem system_discipline : Discipline Waits Owes (system pid) (assertions pid) fun _ _ _ => True where
  goto lk k l lk' l' c _ _ hc _ := by
    cases l with
    | acquiresleep =>
      simp only [system,code] at hc
      split_ifs at hc
    | releasesleep p =>
      cases hc
      exact .inr ⟨p,rfl⟩
    | _ => cases hc
  wakeup _ _ _ _ _ _ _ _ hne := absurd rfl hne
  sleep lk k l c' l' c _ hc _ := by
    cases l with
    | acquiresleep =>
      simp only [system,code] at hc
      split_ifs at hc with hl
      exact hl
    | _ => cases hc
  leave lk k l lk' r c _ _ hc hw := by
    cases l with
    | acquiresleep =>
      simp only [system,code] at hc
      split_ifs at hc
      cases hc
      rfl
    | release | holdingsleep =>
      cases hc
      exact hw.resolve_right nofun
    | _ => cases hc
  env _ e := nomatch e

theorem init_hold : (assertions pid).Hold (some ∘ Point.proc) (init n) where
  held t := by simp [init,Status.holding]
  apart t u l m _ ht := by simp [init,Status.point] at ht
  claimed _ h := h.elim
  free _ p := rfl
  thread t := trivial

theorem right_of_hold (h : (assertions pid).Hold (some ∘ Point.proc) s) : Right pid s.data := by
  cases hl : s.lock with
  | none => exact h.free hl
  | some t =>
    have hh := (h.held t).mp hl
    have ht := h.thread t
    cases hst : s.thread t with
    | inside | wake | sleep =>
      rw [hst] at ht
      exact ht.1
    | _ => simp [hst,Status.holding] at hh

/-- In every run: at most one process is between the calls, `holdingsleep` says which, and nobody
sleeps on a lock that is free. -/
theorem sleeplock_exclusive (h : Reach (step (system pid)) (fun _ _ => True) (init n) s) :
    (∀ p q, s.data.between p = true → s.data.between q = true → p = q) ∧
    (∀ p, s.data.holding pid p = s.data.between p) ∧
    (s.lock = none → s.data.locked = false → ∀ p c l, s.thread p ≠ .asleep c l) := by
  have hright := right_of_hold (system_spec.of_reach (fun s a _ => meets_true s a) h init_hold)
  refine ⟨fun p q => hright.unique,fun p => (hright p).symm,fun hl hfree p c l hp => ?_⟩
  have h' : Reach (step (system pid)) (Meets fun _ _ _ => True) (init n) s :=
    h.invariant .refl fun s a _ hr _ hs => hr.tail (meets_true s a) hs
  have hw0 : Awake Waits Owes (init n) :=
    ⟨fun t => by simp [init,Status.parked],fun t c hc => by simp [init,Status.chan] at hc⟩
  have hw := system_discipline.waits_of_asleep system_spec h' init_hold hw0 hl hp
  rw [Waits,hfree] at hw
  cases hw

/-- A process that sleeps on the lock is killed, sleeps again and is woken by the `releasesleep` of
the other. -/
theorem twoProcs_exclusive : ∃ s : LockState 2,
    Reach (step (system Fin.valEmbedding)) (fun _ _ => True) (init 2) s ∧ s.lock = none ∧
    s.data.locked = false ∧ (s.thread 1).point.isSome ∧ ∀ p c l, s.thread p ≠ .asleep c l := by
  have hrun : (run (guarded (step (system Fin.valEmbedding)) fun _ _ => True) (init 2) (List.flatten
      [[.enter 0 (.acquiresleep 0),.run 0,.run 0,.enter 1 (.acquiresleep 1)],List.replicate 4 (.run 1),
        [.kill 1],List.replicate 4 (.run 1),[.enter 0 (.releasesleep 0)],List.replicate 5 (.run 0)])).any
      (fun s => s.lock = none ∧ s.data.locked = false ∧ (s.thread 1).point.isSome) = true := by
    decide +kernel
  obtain ⟨s,hs,hp⟩ := (Option.any_eq_true _ _).mp hrun
  have hr := Reach.refl.of_run hs
  obtain ⟨hl,hfree,hpoint⟩ := of_decide_eq_true hp
  exact ⟨s,hr,hl,hfree,hpoint,(sleeplock_exclusive hr).2.2 hl hfree⟩

end
end Xv6.SleepLocks
