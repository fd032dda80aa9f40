import Xv6.Machine

/-!
# Data behind one spinlock, with sleep and wakeup

A monitor is data that a spinlock guards, and threads whose code works on it. A thread that holds
the lock computes on the data, calls `wakeup(c)` or `sleep(c, lock)`, or releases the lock and
returns. `sleep` holds `ptable.lock` from before it gives up the lock until the thread is SLEEPING,
and `wakeup` while it makes the threads that are SLEEPING on `c` runnable. A woken thread first
takes the lock again.

`Spec` is the rule for what holds of the data: an invariant while the lock is free, and an assertion
for each point of the code that has it. `Discipline` is the rule for waiting: whoever makes a
condition true that others may wait for owes a `wakeup`, and does not release the lock with a debt.
Then nobody is found SLEEPING on a true condition.
-/
namespace Xv6.Monitor
open Machine Function

/-- What a thread does next while it holds the lock. -/
inductive Act (σ ι χ ρ : Type*) where
  | goto (d : σ) (l : ι)
  | wakeup (c : χ) (l : ι)
  | sleep (c : χ) (l : ι)
  | leave (d : σ) (r : ρ)

/-- Where a thread is. The threads in `inside`, `wake` and `sleep` hold the lock, the
last two spin for `ptable.lock`; a thread in `park` holds `ptable.lock` and has
released the lock. -/
inductive Status (ι χ : Type*) where
  | out
  | acquire (l : ι)
  | inside (l : ι)
  | wake (c : χ) (l : ι)
  | sleep (c : χ) (l : ι)
  | park (c : χ) (l : ι)
  | asleep (c : χ) (l : ι)

structure State (τ σ ι χ : Type*) where
  data : σ
  lock : Option τ
  ptable : Option τ
  thread : τ → Status ι χ
  killed : τ → Bool

inductive Label (τ ι ε : Type*) where
  | enter (t : τ) (l : ι)
  | run (t : τ)
  | kill (t : τ)
  | env (e : ε)

/-- The code of the threads, the calls they may begin, and what happens to the data
without the lock. -/
structure System (τ σ ι χ ρ ε : Type*) where
  code : σ → Bool → ι → Act σ ι χ ρ
  enabled : State τ σ ι χ → τ → ι → Bool
  env : State τ σ ι χ → ε → Option σ

/-- What holds while the lock is free, at each point of a thread that has it, and of the
points at which threads wait for the lock or sleep. The data may claim the keys of
calls that are under way. -/
structure Assertions (κ σ ι χ : Type*) where
  free : σ → Prop
  holds : ι → σ → Prop
  waiting : ι → σ → Prop
  sleeping : χ → ι → σ → Prop
  claims : κ → σ → Prop

section
variable {τ κ σ ι χ ρ ε : Type*} {st : Status ι χ} {c : χ} {s s' : State τ σ ι χ} {t u : τ}
  {S : System τ σ ι χ ρ ε} {key : ι → Option κ} {A : Assertions κ σ ι χ}
  {good : σ → Bool → ι → Prop} {d : σ} {Waits : χ → σ → Prop} {Owes : χ → ι → σ → Prop}

def Status.point : Status ι χ → Option ι
  | .out => none
  | .acquire l | .inside l | .wake _ l | .sleep _ l | .park _ l | .asleep _ l => some l

def Status.holding : Status ι χ → Option ι
  | .inside l | .wake _ l | .sleep _ l => some l
  | _ => none

def Status.chan : Status ι χ → Option χ
  | .sleep c _ | .park c _ | .asleep c _ => some c
  | _ => none

def Status.parked : Status ι χ → Bool
  | .park _ _ => true
  | _ => false

def Status.running : Status ι χ → Option ι
  | .inside l => some l
  | _ => none

def Status.roused : Status ι χ → Status ι χ
  | .asleep _ l => .acquire l
  | st => st

@[simp] theorem roused_holding (st : Status ι χ) : st.roused.holding = st.holding := by
  cases st <;> rfl

@[simp] theorem roused_point (st : Status ι χ) : st.roused.point = st.point := by
  cases st <;> rfl

@[simp] theorem roused_parked (st : Status ι χ) : st.roused.parked = st.parked := by
  cases st <;> rfl

theorem chan_of_roused (h : st.roused.chan = some c) : st.chan = some c := by
  cases st with
  | asleep => cases h
  | _ => exact h

def Held (s : State τ σ ι χ) : Prop := ∀ t, s.lock = some t ↔ (s.thread t).holding.isSome

def Parked (s : State τ σ ι χ) : Prop := ∀ t, s.ptable = some t ↔ (s.thread t).parked

theorem Held.lock_eq (h : Held s) (ht : (s.thread t).holding.isSome) : s.lock = some t :=
  (h t).mpr ht

theorem Held.others (h : Held s) (ht : (s.thread t).holding.isSome) (hu : u ≠ t) :
    (s.thread u).holding = none := by
  by_contra hn
  have := (h.lock_eq ht).symm.trans (h.lock_eq (Option.isSome_iff_ne_none.mpr hn))
  exact hu (Option.some_injective _ this).symm

theorem Held.out_of_none (h : Held s) (hl : s.lock = none) (t : τ) : (s.thread t).holding = none := by
  simpa [hl] using h t

/-! ### Assertions -/

@[simp] def Assertions.Local (A : Assertions κ σ ι χ) (d : σ) : Status ι χ → Prop
  | .out => True
  | .acquire l => A.waiting l d
  | .inside l | .wake _ l => A.holds l d
  | .sleep c l => A.free d ∧ A.sleeping c l d
  | .park c l | .asleep c l => A.sleeping c l d

def Keeps (S : System τ σ ι χ ρ ε) (kind : ι → κ) : Prop :=
  ∀ d k l, match S.code d k l with
    | .goto _ l' | .wakeup _ l' | .sleep _ l' => kind l' = kind l
    | .leave _ _ => True

def Apart (key : ι → Option κ) (l m : ι) : Prop := ∀ k ∈ key l, key m ≠ some k

def shared (_ : ι) : Option Unit := none

theorem apart_shared (l m : ι) : Apart shared l m := fun _ hk => by cases hk

theorem keeps_shared (S : System τ σ ι χ ρ ε) : Keeps S shared := by
  intro d k l
  cases S.code d k l <;> trivial

structure Assertions.Hold (A : Assertions κ σ ι χ) (key : ι → Option κ) (s : State τ σ ι χ) : Prop where
  held : Held s
  apart : ∀ t u l m, t ≠ u → (s.thread t).point = some l → (s.thread u).point = some m → Apart key l m
  claimed : ∀ k, A.claims k s.data → ∃ t l, (s.thread t).point = some l ∧ key l = some k
  free : s.lock = none → A.free s.data
  thread : ∀ t, A.Local s.data (s.thread t)

/-- A change of the data that leaves what is said of the threads at other points, and
claims no keys but `mine`. -/
structure Assertions.Frame (A : Assertions κ σ ι χ) (others : ι → Prop) (mine : κ → Prop) (d d' : σ) :
    Prop where
  waiting : ∀ l, others l → A.waiting l d → A.waiting l d'
  sleeping : ∀ c l, others l → A.sleeping c l d → A.sleeping c l d'
  claims : ∀ k, A.claims k d' → A.claims k d ∨ mine k

/-- The code keeps the assertions in steps that meet `good`. Calls with the same key never
overlap. -/
structure Spec (S : System τ σ ι χ ρ ε) (key : ι → Option κ) (A : Assertions κ σ ι χ)
    (good : σ → Bool → ι → Prop) : Prop where
  keeps : Keeps S key
  exclusive : ∀ (s : State τ σ ι χ) t l, S.enabled s t l →
    ∀ u m, (s.thread u).point = some m → Apart key l m
  enter : ∀ (s : State τ σ ι χ) t l, S.enabled s t l → (∀ k ∈ key l, ¬ A.claims k s.data) →
    A.waiting l s.data
  acquire : ∀ d l, A.free d → A.waiting l d → A.holds l d
  goto : ∀ d k l d' l', A.holds l d → good d k l → S.code d k l = .goto d' l' →
    A.holds l' d' ∧ A.Frame (Apart key l) (key l = some ·) d d'
  wakeup : ∀ d k l c l', A.holds l d → S.code d k l = .wakeup c l' → A.holds l' d
  sleep : ∀ d k l c l', A.holds l d → S.code d k l = .sleep c l' → A.free d ∧ A.sleeping c l' d
  woken : ∀ d c l, A.sleeping c l d → A.waiting l d
  leave : ∀ d k l d' r, A.holds l d → S.code d k l = .leave d' r →
    A.free d' ∧ A.Frame (Apart key l) (fun _ => False) d d' ∧ ∀ k ∈ key l, ¬ A.claims k d'
  env : ∀ (s : State τ σ ι χ) e d', S.env s e = some d' →
    (A.free s.data → A.free d') ∧ (∀ l, A.holds l s.data → A.holds l d') ∧
      A.Frame (fun _ => True) (fun _ => False) s.data d'

theorem Spec.mono {good' : σ → Bool → ι → Prop} (hS : Spec S key A good)
    (h : ∀ d k l, good' d k l → good d k l) : Spec S key A good' :=
  {hS with goto := fun d k l d' l' ha hg => hS.goto d k l d' l' ha (h d k l hg)}

theorem Assertions.Frame.refl (A : Assertions κ σ ι χ) (others : ι → Prop) (mine : κ → Prop) (d : σ) :
    A.Frame others mine d d :=
  ⟨fun _ _ h => h,fun _ _ _ h => h,fun _ h => .inl h⟩

theorem Assertions.Local.frame {d' : σ} {others : ι → Prop} {mine : κ → Prop}
    (h : A.Local d st) (hst : st.holding = none) (hs : A.Frame others mine d d')
    (ho : ∀ m, st.point = some m → others m) : A.Local d' st := by
  cases st with
  | out => trivial
  | acquire l => exact hs.waiting l (ho l rfl) h
  | park c l | asleep c l => exact hs.sleeping c l (ho l rfl) h
  | _ => simp [Status.holding] at hst

theorem Spec.local_roused (hS : Spec S key A good) (h : A.Local d st) : A.Local d st.roused := by
  cases st with
  | asleep => exact hS.woken _ _ _ h
  | _ => exact h

theorem Spec.local_env (hS : Spec S key A good) {e : ε} (he : S.env s e = some d)
    (h : A.Local s.data st) : A.Local d st := by
  obtain ⟨hf,hl,hs⟩ := hS.env _ _ _ he
  cases st with
  | inside | wake => exact hl _ h
  | sleep c l => exact ⟨hf h.1,hs.sleeping c l trivial h.2⟩
  | _ => exact h.frame rfl hs fun _ _ => trivial

/-! ### Waiting -/

section
variable (Waits : χ → σ → Prop) (Owes : χ → ι → σ → Prop)

@[simp] def owesAt (c : χ) (d : σ) : Status ι χ → Prop
  | .inside l => Owes c l d
  | .wake c' l => c = c' ∨ Owes c l d
  | _ => False

/-- Whoever sleeps on `c` has a reason to, or somebody is about to wake them. -/
structure Awake (s : State τ σ ι χ) : Prop where
  parked : Parked s
  waits : ∀ t c, (s.thread t).chan = some c → Waits c s.data ∨ ∃ u, owesAt Owes c s.data (s.thread u)

/-- Debts arise with the conditions others wait for, and end with a `wakeup`. The
rule is about the steps that meet `good`. -/
structure Discipline (S : System τ σ ι χ ρ ε) (A : Assertions κ σ ι χ) (good : σ → Bool → ι → Prop) :
    Prop where
  goto : ∀ d k l d' l' c, A.holds l d → good d k l → S.code d k l = .goto d' l' →
    Waits c d ∨ Owes c l d → Waits c d' ∨ Owes c l' d'
  wakeup : ∀ d k l c' l' c, A.holds l d → S.code d k l = .wakeup c' l' → c ≠ c' →
    Owes c l d → Owes c l' d
  sleep : ∀ d k l c' l' c, A.holds l d → S.code d k l = .sleep c' l' → c = c' ∨ Owes c l d → Waits c d
  leave : ∀ d k l d' r c, A.holds l d → good d k l → S.code d k l = .leave d' r →
    Waits c d ∨ Owes c l d → Waits c d'
  env : ∀ (s : State τ σ ι χ) e d' c, S.env s e = some d' →
    (Waits c s.data → Waits c d') ∧ ∀ l, Owes c l s.data → Owes c l d'

end

theorem holding_of_owesAt (h : owesAt Owes c d st) : st.holding.isSome := by
  cases st with
  | inside | wake => rfl
  | _ => exact h.elim

theorem Awake.holder (h : Awake Waits Owes s) (hh : Held s)
    (ht : (s.thread t).holding.isSome) (hu : (s.thread u).chan = some c) :
    Waits c s.data ∨ owesAt Owes c s.data (s.thread t) := by
  rcases h.waits u c hu with hw | ⟨v,hv⟩
  · exact .inl hw
  · by_cases hvt : v = t
    · exact .inr (hvt ▸ hv)
    · have hs := holding_of_owesAt hv
      simp [hh.others ht hvt] at hs

theorem Awake.free (h : Awake Waits Owes s) (hh : Held s) (hl : s.lock = none)
    (hu : (s.thread u).chan = some c) : Waits c s.data := by
  rcases h.waits u c hu with hw | ⟨v,hv⟩
  · exact hw
  · have hs := holding_of_owesAt hv
    simp [hh.out_of_none hl v] at hs

def Meets (good : σ → Bool → ι → Prop) (s : State τ σ ι χ) : Label τ ι ε → Prop
  | .run t => ∀ l ∈ (s.thread t).running, good s.data (s.killed t) l
  | _ => True

instance decidableMeets (good : σ → Bool → ι → Prop) [∀ d k l, Decidable (good d k l)]
    (s : State τ σ ι χ) : (a : Label τ ι ε) → Decidable (Meets good s a)
  | .run t => inferInstanceAs (Decidable (∀ l ∈ (s.thread t).running, good s.data (s.killed t) l))
  | .enter _ _ | .kill _ | .env _ => isTrue trivial

theorem meets_true (s : State τ σ ι χ) (a : Label τ ι ε) : Meets (fun _ _ _ => True) s a := by
  cases a with
  | run => exact fun _ _ => trivial
  | _ => trivial

end

/-! ### The machine -/

section
variable {τ κ σ ι χ ρ ε : Type*} [DecidableEq τ] [DecidableEq χ]

def Status.woken (c : χ) : Status ι χ → Status ι χ
  | .asleep c' l => if c' = c then .acquire l else .asleep c' l
  | st => st

variable (S : System τ σ ι χ ρ ε)

/-- A step of a thread. The lock and `ptable.lock` are taken only while they are free. -/
def runThread (s : State τ σ ι χ) (t : τ) : Option (State τ σ ι χ) :=
  match s.thread t with
  | .out | .asleep _ _ => none
  | .acquire l =>
    if s.lock.isSome then none
    else some {s with lock := some t, thread := update s.thread t (.inside l)}
  | .inside l =>
    match S.code s.data (s.killed t) l with
    | .goto d l' => some {s with data := d, thread := update s.thread t (.inside l')}
    | .wakeup c l' => some {s with thread := update s.thread t (.wake c l')}
    | .sleep c l' => some {s with thread := update s.thread t (.sleep c l')}
    | .leave d _ => some {s with data := d, lock := none, thread := update s.thread t .out}
  | .wake c l =>
    if s.ptable.isSome then none
    else some {s with thread := update (fun u => (s.thread u).woken c) t (.inside l)}
  | .sleep c l =>
    if s.ptable.isSome then none
    else some {s with lock := none, ptable := some t, thread := update s.thread t (.park c l)}
  | .park c l => some {s with ptable := none, thread := update s.thread t (.asleep c l)}

def step (s : State τ σ ι χ) : Label τ ι ε → Option (State τ σ ι χ)
  | .enter t l =>
    match s.thread t with
    | .out => if S.enabled s t l then some {s with thread := update s.thread t (.acquire l)} else none
    | _ => none
  | .run t => runThread S s t
  | .kill t =>
    if s.ptable.isSome then none
    else some {s with
      killed := update s.killed t true
      thread := update s.thread t (s.thread t).roused}
  | .env e => (S.env s e).map fun d => {s with data := d}

inductive Moves (s : State τ σ ι χ) : Label τ ι ε → State τ σ ι χ → Prop
  | enter {t l} : s.thread t = .out → S.enabled s t l →
      Moves s (.enter t l) {s with thread := update s.thread t (.acquire l)}
  | acquire {t l} : s.thread t = .acquire l → s.lock = none →
      Moves s (.run t) {s with lock := some t, thread := update s.thread t (.inside l)}
  | goto {t l d l'} : s.thread t = .inside l → S.code s.data (s.killed t) l = .goto d l' →
      Moves s (.run t) {s with data := d, thread := update s.thread t (.inside l')}
  | wakeup {t l c l'} : s.thread t = .inside l → S.code s.data (s.killed t) l = .wakeup c l' →
      Moves s (.run t) {s with thread := update s.thread t (.wake c l')}
  | sleep {t l c l'} : s.thread t = .inside l → S.code s.data (s.killed t) l = .sleep c l' →
      Moves s (.run t) {s with thread := update s.thread t (.sleep c l')}
  | leave {t l d r} : s.thread t = .inside l → S.code s.data (s.killed t) l = .leave d r →
      Moves s (.run t) {s with data := d, lock := none, thread := update s.thread t .out}
  | scan {t c l} : s.thread t = .wake c l → s.ptable = none →
      Moves s (.run t) {s with thread := update (fun u => (s.thread u).woken c) t (.inside l)}
  | park {t c l} : s.thread t = .sleep c l → s.ptable = none → Moves s (.run t)
        {s with lock := none, ptable := some t, thread := update s.thread t (.park c l)}
  | settle {t c l} : s.thread t = .park c l →
      Moves s (.run t) {s with ptable := none, thread := update s.thread t (.asleep c l)}
  | kill {t} : s.ptable = none → Moves s (.kill t) {s with
        killed := update s.killed t true
        thread := update s.thread t (s.thread t).roused}
  | env {e d} : S.env s e = some d → Moves s (.env e) {s with data := d}

variable {S} {s s' : State τ σ ι χ} {a : Label τ ι ε} {t : τ}
  {key : ι → Option κ} {A : Assertions κ σ ι χ} {good : σ → Bool → ι → Prop} {Waits : χ → σ → Prop}
  {Owes : χ → ι → σ → Prop}

theorem runThread_moves (h : runThread S s t = some s') : Moves S s (.run t) s' := by
  unfold runThread at h
  cases ht : s.thread t with
  | out | asleep => simp [ht] at h
  | acquire =>
    simp only [ht] at h
    split_ifs at h with hl
    cases h
    exact .acquire ht (Option.not_isSome_iff_eq_none.mp hl)
  | inside l =>
    cases hc : S.code s.data (s.killed t) l with
    | goto =>
      simp only [ht,hc,Option.some.injEq] at h
      exact h ▸ .goto ht hc
    | wakeup =>
      simp only [ht,hc,Option.some.injEq] at h
      exact h ▸ .wakeup ht hc
    | sleep =>
      simp only [ht,hc,Option.some.injEq] at h
      exact h ▸ .sleep ht hc
    | leave =>
      simp only [ht,hc,Option.some.injEq] at h
      exact h ▸ .leave ht hc
  | wake =>
    simp only [ht] at h
    split_ifs at h with hp
    cases h
    exact .scan ht (Option.not_isSome_iff_eq_none.mp hp)
  | sleep =>
    simp only [ht] at h
    split_ifs at h with hp
    cases h
    exact .park ht (Option.not_isSome_iff_eq_none.mp hp)
  | park =>
    simp only [ht,Option.some.injEq] at h
    exact h ▸ .settle ht

theorem step_moves (h : step S s a = some s') : Moves S s a s' := by
  cases a with
  | enter t l =>
    simp only [step] at h
    split at h
    · rename_i ht
      split_ifs at h with he
      cases h
      exact .enter ht he
    · cases h
  | run => exact runThread_moves h
  | kill =>
    simp only [step] at h
    split_ifs at h with hp
    cases h
    exact .kill (Option.not_isSome_iff_eq_none.mp hp)
  | env =>
    simp only [step] at h
    obtain ⟨d,hd,rfl⟩ := Option.map_eq_some_iff.mp h
    exact .env hd

section
omit [DecidableEq χ]

variable {t : τ} {st : Status ι χ}

theorem Held.update_same (h : Held s)
    (hst : st.holding.isSome = (s.thread t).holding.isSome) (d : σ) (p : Option τ) (k : τ → Bool) :
    Held (⟨d,s.lock,p,update s.thread t st,k⟩ : State τ σ ι χ) := by
  intro u
  by_cases hu : u = t
  · subst hu
    simpa [hst] using h u
  · simpa [hu] using h u

theorem Held.update_none (h : Held s) (ht : (s.thread t).holding.isSome)
    (hst : st.holding = none) (d : σ) (p : Option τ) (k : τ → Bool) :
    Held (⟨d,none,p,update s.thread t st,k⟩ : State τ σ ι χ) := by
  intro u
  by_cases hu : u = t
  · subst hu
    simp [hst]
  · simp [hu,h.others ht hu]

theorem Parked.update_same (h : Parked s)
    (hst : st.parked = (s.thread t).parked) (d : σ) (p : Option τ) (k : τ → Bool) :
    Parked (⟨d,p,s.ptable,update s.thread t st,k⟩ : State τ σ ι χ) := by
  intro u
  by_cases hu : u = t
  · subst hu
    simpa [hst] using h u
  · simpa [hu] using h u

theorem Assertions.Hold.update (h : A.Hold key s) (hst : A.Local s.data st) (u : τ) : A.Local s.data (update s.thread t st u) := by
  by_cases hu : u = t
  · subst hu
    simpa using hst
  · simpa [hu] using h.thread u

theorem Assertions.Hold.update_data (h : A.Hold key s) {d : σ} {l : ι} (ht : s.thread t = .inside l)
    (hst : A.Local d st) {mine : κ → Prop} (hs : A.Frame (Apart key l) mine s.data d) (u : τ) :
    A.Local d (Function.update s.thread t st u) := by
  by_cases hu : u = t
  · subst hu
    simpa using hst
  · have hn := h.held.others (t := t) (by simp [ht,Status.holding]) hu
    simpa [hu] using (h.thread u).frame hn hs fun m hm =>
      h.apart t u l m (Ne.symm hu) (by simp [ht,Status.point]) hm

end

section
omit [DecidableEq τ]

@[simp] theorem woken_holding (c : χ) (st : Status ι χ) : (st.woken c).holding = st.holding := by
  cases st with
  | asleep =>
    simp only [Status.woken]
    split_ifs <;> rfl
  | _ => rfl

@[simp] theorem woken_point (c : χ) (st : Status ι χ) : (st.woken c).point = st.point := by
  cases st with
  | asleep =>
    simp only [Status.woken]
    split_ifs <;> rfl
  | _ => rfl

@[simp] theorem woken_parked (c : χ) (st : Status ι χ) : (st.woken c).parked = st.parked := by
  cases st with
  | asleep =>
    simp only [Status.woken]
    split_ifs <;> rfl
  | _ => rfl

theorem chan_of_woken {c c' : χ} {st : Status ι χ} (h : (st.woken c).chan = some c') :
    st.chan = some c' ∧ (st.holding = none → st.parked = false → c' ≠ c) := by
  cases st with
  | asleep =>
    simp only [Status.woken] at h
    split_ifs at h with hc
    · cases h
    · cases h
      exact ⟨rfl,fun _ _ => hc⟩
  | sleep => exact ⟨h,by simp [Status.holding]⟩
  | park => exact ⟨h,by simp [Status.parked]⟩
  | _ => cases h

theorem Spec.local_woken (hS : Spec S key A good) (c : χ) {d : σ} {st : Status ι χ}
    (h : A.Local d st) : A.Local d (st.woken c) := by
  cases st with
  | asleep =>
    simp only [Status.woken]
    split_ifs
    · exact hS.woken _ _ _ h
    · exact h
  | _ => exact h

end

theorem Held.step (h : Held s) (hs : Moves S s a s') : Held s' := by
  cases hs with
  | enter ht | goto ht | wakeup ht | sleep ht | settle ht =>
    exact h.update_same (by simp [ht,Status.holding]) _ _ _
  | @acquire t l ht hl =>
    intro u
    by_cases hu : u = t
    · subst hu
      simp [Status.holding]
    · have hn := h.out_of_none hl u
      simp [hu,hn,Ne.symm hu]
  | leave ht | park ht => exact h.update_none (by simp [ht,Status.holding]) rfl _ _ _
  | @scan t c l ht _ =>
    intro u
    by_cases hu : u = t
    · subst hu
      simpa [ht,Status.holding] using h u
    · simpa [hu] using h u
  | kill => exact h.update_same (by simp) _ _ _
  | env => exact h

theorem Parked.step (h : Parked s) (hs : Moves S s a s') : Parked s' := by
  cases hs with
  | enter ht | acquire ht | goto ht | wakeup ht | sleep ht | leave ht =>
    exact h.update_same (by simp [ht,Status.parked]) _ _ _
  | @scan t c l ht _ =>
    intro u
    by_cases hu : u = t
    · subst hu
      simpa [ht,Status.parked] using h u
    · simpa [hu] using h u
  | @park t c l ht hp =>
    intro u
    by_cases hu : u = t
    · subst hu
      simp [Status.parked]
    · have hn := h u
      simp only [hp,reduceCtorEq,false_iff] at hn
      simp [hu,hn,Ne.symm hu]
  | @settle t c l ht =>
    have hp : s.ptable = some t := (h t).mpr (by simp [ht,Status.parked])
    intro u
    by_cases hu : u = t
    · subst hu
      simp [Status.parked]
    · have hn := h u
      rw [hp] at hn
      simp only [Option.some.injEq,Ne.symm hu,false_iff] at hn
      simp [hu,hn]
  | kill => exact h.update_same (by simp) _ _ _
  | env => exact h

theorem Keeps.step {kind : ι → κ} (hk : Keeps S kind) (hs : Moves S s a s') (u : τ) :
    (s'.thread u).point.map kind = (s.thread u).point.map kind ∨ (s'.thread u).point = none ∨
      ∃ l, a = .enter u l := by
  have hput : ∀ {t : τ} {st : Status ι χ}, (u = t → st.point.map kind = (s.thread t).point.map kind) →
      (update s.thread t st u).point.map kind = (s.thread u).point.map kind := by
    intro t st hst
    by_cases hu : u = t
    · subst hu
      simpa using hst rfl
    · simp [hu]
  cases hs with
  | @enter t l ht _ =>
    by_cases hu : u = t
    · exact .inr (.inr ⟨l,by rw [hu]⟩)
    · exact .inl (by simp [hu])
  | acquire ht | park ht | settle ht => exact .inl (hput fun _ => by rw [ht]; rfl)
  | @goto t l d l' ht hc | @wakeup t l c l' ht hc | @sleep t l c l' ht hc =>
    have hkind := hk s.data (s.killed t) l
    rw [hc] at hkind
    exact .inl (hput fun _ => by simp [ht,Status.point,hkind])
  | @leave t l d r ht hc =>
    by_cases hu : u = t
    · exact .inr (.inl (by simp [hu,Status.point]))
    · exact .inl (by simp [hu])
  | @scan t c l ht _ =>
    by_cases hu : u = t
    · subst hu
      exact .inl (by simp [ht,Status.point])
    · exact .inl (by simp [hu])
  | kill => exact .inl (hput fun _ => by simp)
  | env => exact .inl rfl

theorem Spec.apart_step (hS : Spec S key A good) (h : A.Hold key s) (hs : Moves S s a s') (t u : τ)
    (l m : ι) (htu : t ≠ u) (ht : (s'.thread t).point = some l) (hu : (s'.thread u).point = some m) :
    Apart key l m := by
  have hback : ∀ {v : τ} {l : ι}, (s'.thread v).point = some l →
      (∃ l₀, (s.thread v).point = some l₀ ∧ key l₀ = key l) ∨
      a = .enter v l ∧ S.enabled s v l ∧ ∀ w, w ≠ v → s'.thread w = s.thread w := by
    intro v l hv
    rcases hS.keeps.step hs v with he | hn | ⟨l₁,rfl⟩
    · rw [hv] at he
      obtain ⟨l₀,h₀,hk⟩ := Option.map_eq_some_iff.mp he.symm
      exact .inl ⟨l₀,h₀,hk⟩
    · simp [hn] at hv
    · cases hs with
      | enter _ hen =>
        obtain rfl : l₁ = l := by simpa [Status.point] using hv
        exact .inr ⟨rfl,hen,fun w hw => by simp [hw]⟩
  rcases hback ht with ⟨l₀,ht₀,hkl⟩ | ⟨ha,hen,hw⟩
  · rcases hback hu with ⟨m₀,hu₀,hkm⟩ | ⟨ha,hen,hw⟩
    · have := h.apart t u l₀ m₀ htu ht₀ hu₀
      simpa only [Apart,hkl,hkm] using this
    · rw [hw t htu] at ht
      intro k hk hmk
      exact hS.exclusive s u m hen t l ht k hmk hk
  · rw [hw u (Ne.symm htu)] at hu
    exact hS.exclusive s t l hen u m hu

theorem Spec.claimed_step (hS : Spec S key A good) (h : A.Hold key s) (hok : Meets good s a)
    (hs : Moves S s a s') {k : κ} (hk : A.claims k s'.data) :
    ∃ t l, (s'.thread t).point = some l ∧ key l = some k := by
  -- a call stays, unless this is the step in which it returns
  have hstay : ∀ {u l}, (s.thread u).point = some l → key l = some k → (s'.thread u).point ≠ none →
      ∃ t l, (s'.thread t).point = some l ∧ key l = some k := by
    intro u l hu hl hne
    rcases hS.keeps.step hs u with he | hn | ⟨l₁,rfl⟩
    · rw [hu,Option.map_some,hl] at he
      obtain ⟨l',hu',hl'⟩ := Option.map_eq_some_iff.mp he
      exact ⟨u,l',hu',hl'⟩
    · exact absurd hn hne
    · cases hs with
      | enter ht => simp [ht,Status.point] at hu
  cases hs with
  | @goto t l d l' ht hc =>
    have ha : A.holds l s.data := by simpa [ht] using h.thread t
    obtain ⟨-,hf⟩ := hS.goto _ _ _ _ _ ha (hok l (by simp [ht,Status.running])) hc
    rcases hf.claims k hk with hk | hl
    · obtain ⟨u,m,hu,hm⟩ := h.claimed k hk
      refine hstay hu hm ?_
      by_cases hut : u = t
      · simp [hut,Status.point]
      · simp [hut,hu]
    · exact hstay (u := t) (by simp [ht,Status.point]) hl (by simp [Status.point])
  | @leave t l d r ht hc =>
    have ha : A.holds l s.data := by simpa [ht] using h.thread t
    obtain ⟨-,hf,hnone⟩ := hS.leave _ _ _ _ _ ha hc
    obtain ⟨u,m,hu,hm⟩ := h.claimed k ((hf.claims k hk).resolve_right id)
    refine hstay hu hm ?_
    by_cases hut : u = t
    · subst hut
      obtain rfl : l = m := by simpa [ht,Status.point] using hu
      exact absurd hk (hnone k hm)
    · simp [hut,hu]
  | env he =>
    obtain ⟨-,-,hf⟩ := hS.env _ _ _ he
    exact h.claimed k ((hf.claims k hk).resolve_right id)
  | @enter t l ht _ | @acquire t l ht _ | @wakeup t l _ _ ht _ | @sleep t l _ _ ht _
  | @park t _ l ht _ | @settle t _ l ht | @scan t c l ht _ =>
    obtain ⟨u,m,hu,hm⟩ := h.claimed k hk
    refine hstay hu hm ?_
    by_cases hut : u = t
    · simp [hut,Status.point]
    · simp [hut,hu]
  | @kill t _ =>
    obtain ⟨u,m,hu,hm⟩ := h.claimed k hk
    refine hstay hu hm ?_
    by_cases hut : u = t
    · subst hut
      simp [hu]
    · simp [hut,hu]

theorem Spec.step (hS : Spec S key A good) (h : A.Hold key s) (hok : Meets good s a)
    (hs : Moves S s a s') : A.Hold key s' := by
  have hheld := h.held.step hs
  have hapart := hS.apart_step h hs
  have hclaim := fun k => hS.claimed_step h hok hs (k := k)
  cases hs with
  | @enter t l ht he =>
    refine ⟨hheld,hapart,hclaim,h.free,h.update (hS.enter _ _ _ he fun k hk hcl => ?_)⟩
    obtain ⟨u,m,hu,hm⟩ := h.claimed k hcl
    exact hS.exclusive _ _ _ he u m hu k hk hm
  | @acquire t l ht hl =>
    have hw : A.waiting l s.data := by simpa [ht] using h.thread t
    exact ⟨hheld,hapart,hclaim,by simp,h.update (hS.acquire _ _ (h.free hl) hw)⟩
  | @goto t l d l' ht hc =>
    have ha : A.holds l s.data := by simpa [ht] using h.thread t
    have hl : s.lock = some t := h.held.lock_eq (by simp [ht,Status.holding])
    obtain ⟨ha',hf⟩ := hS.goto _ _ _ _ _ ha (hok l (by simp [ht,Status.running])) hc
    exact ⟨hheld,hapart,hclaim,by simp [hl],h.update_data ht ha' hf⟩
  | @wakeup t l c l' ht hc =>
    have ha : A.holds l s.data := by simpa [ht] using h.thread t
    exact ⟨hheld,hapart,hclaim,h.free,h.update (hS.wakeup _ _ _ _ _ ha hc)⟩
  | @sleep t l c l' ht hc =>
    have ha : A.holds l s.data := by simpa [ht] using h.thread t
    exact ⟨hheld,hapart,hclaim,h.free,h.update (hS.sleep _ _ _ _ _ ha hc)⟩
  | @leave t l d r ht hc =>
    have ha : A.holds l s.data := by simpa [ht] using h.thread t
    obtain ⟨hfree,hf,-⟩ := hS.leave _ _ _ _ _ ha hc
    exact ⟨hheld,hapart,hclaim,fun _ => hfree,h.update_data ht trivial hf⟩
  | @scan t c l ht _ =>
    have ha : A.holds l s.data := by simpa [ht] using h.thread t
    refine ⟨hheld,hapart,hclaim,h.free,fun u => ?_⟩
    by_cases hu : u = t
    · subst hu
      simpa using ha
    · simpa [hu] using hS.local_woken c (h.thread u)
  | @park t c l ht _ =>
    obtain ⟨hf,hsl⟩ : A.free s.data ∧ A.sleeping c l s.data := by simpa [ht] using h.thread t
    exact ⟨hheld,hapart,hclaim,fun _ => hf,h.update hsl⟩
  | @settle t c l ht =>
    have hsl : A.sleeping c l s.data := by simpa [ht] using h.thread t
    exact ⟨hheld,hapart,hclaim,h.free,h.update hsl⟩
  | @kill t _ => exact ⟨hheld,hapart,hclaim,h.free,h.update (hS.local_roused (h.thread t))⟩
  | env he =>
    exact ⟨hheld,hapart,hclaim,fun hl => (hS.env _ _ _ he).1 (h.free hl),
      fun u => hS.local_env he (h.thread u)⟩

theorem Spec.of_reach (hS : Spec S key A good) {ok : State τ σ ι χ → Label τ ι ε → Prop}
    (hok : ∀ s a, ok s a → Meets good s a) {s₀ : State τ σ ι χ} (h : Reach (Monitor.step S) ok s₀ s)
    (h0 : A.Hold key s₀) : A.Hold key s :=
  h.invariant h0 fun s a _ hI hsa hs => hS.step hI (hok s a hsa) (step_moves hs)

/-! ### Nobody sleeps on a true condition -/

omit [DecidableEq χ] in
theorem Awake.move (h : Awake Waits Owes s) {st : Status ι χ}
    (hchan : ∀ c, st.chan = some c → (s.thread t).chan = some c ∨ Waits c s.data)
    (howe : ∀ c, owesAt Owes c s.data (s.thread t) → owesAt Owes c s.data st ∨ Waits c s.data)
    (u : τ) (c : χ) (hu : (update s.thread t st u).chan = some c) :
    Waits c s.data ∨ ∃ v, owesAt Owes c s.data (update s.thread t st v) := by
  have hold : Waits c s.data ∨ ∃ v, owesAt Owes c s.data (s.thread v) := by
    by_cases hut : u = t
    · subst hut
      rw [update_self] at hu
      exact (hchan c hu).elim (h.waits u c) .inl
    · rw [update_of_ne hut] at hu
      exact h.waits u c hu
  rcases hold with hw | ⟨v,hv⟩
  · exact .inl hw
  · by_cases hvt : v = t
    · subst hvt
      rcases howe c hv with ho | hw
      · exact .inr ⟨v,by simpa using ho⟩
      · exact .inl hw
    · exact .inr ⟨v,by simpa [hvt] using hv⟩

omit [DecidableEq χ] in
theorem Awake.change (h : Awake Waits Owes s) (hh : Held s) {st : Status ι χ} {d : σ}
    (ht : (s.thread t).holding.isSome) (hst : st.chan = none)
    (hw : ∀ c, Waits c s.data ∨ owesAt Owes c s.data (s.thread t) → Waits c d ∨ owesAt Owes c d st)
    (u : τ) (c : χ) (hu : (update s.thread t st u).chan = some c) :
    Waits c d ∨ ∃ v, owesAt Owes c d (update s.thread t st v) := by
  by_cases hut : u = t
  · subst hut
    simp [hst] at hu
  · rw [update_of_ne hut] at hu
    exact (hw c (h.holder hh ht hu)).imp_right fun ho => ⟨t,by simpa using ho⟩

theorem Discipline.step (hD : Discipline Waits Owes S A good) (hA : A.Hold key s)
    (h : Awake Waits Owes s) (hok : Meets good s a) (hs : Moves S s a s') : Awake Waits Owes s' := by
  refine ⟨h.parked.step hs,?_⟩
  cases hs with
  | @enter t l ht _ | @acquire t l ht _ => exact h.move (by simp [Status.chan]) (by simp [ht])
  | @goto t l d l' ht hc =>
    have ha : A.holds l s.data := by simpa [ht] using hA.thread t
    have hg : good s.data (s.killed t) l := hok l (by simp [ht,Status.running])
    refine h.change hA.held (by simp [ht,Status.holding]) rfl fun c hw => ?_
    rw [ht] at hw
    exact hD.goto _ _ _ _ _ c ha hg hc hw
  | @wakeup t l c l' ht hc =>
    have ha : A.holds l s.data := by simpa [ht] using hA.thread t
    refine h.move (by simp [Status.chan]) fun c' ho => .inl ?_
    rw [ht] at ho
    by_cases hcc : c' = c
    · exact .inl hcc
    · exact .inr (hD.wakeup _ _ _ _ _ c' ha hc hcc ho)
  | @sleep t l c l' ht hc =>
    have ha : A.holds l s.data := by simpa [ht] using hA.thread t
    refine h.move (fun c' hc' => .inr ?_) fun c' ho => .inr ?_
    · cases hc'
      exact hD.sleep _ _ _ _ _ c ha hc (.inl rfl)
    · rw [ht] at ho
      exact hD.sleep _ _ _ _ _ c' ha hc (.inr ho)
  | @leave t l d r ht hc =>
    have ha : A.holds l s.data := by simpa [ht] using hA.thread t
    have hg : good s.data (s.killed t) l := hok l (by simp [ht,Status.running])
    refine h.change hA.held (by simp [ht,Status.holding]) rfl fun c hw => .inl ?_
    rw [ht] at hw
    exact hD.leave _ _ _ _ _ c ha hg hc hw
  | @scan t c l ht hp =>
    -- nobody parks while `ptable.lock` is free, so the scan finds all who wait for `c`
    intro u c' hu
    by_cases hut : u = t
    · subst hut
      simp [Status.chan] at hu
    simp only [update_of_ne hut] at hu
    have hholds : (s.thread t).holding.isSome := by simp [ht,Status.holding]
    have hpark : (s.thread u).parked = false := by
      simpa [hp] using h.parked u
    obtain ⟨hchan,hne⟩ := chan_of_woken hu
    have hne := hne (hA.held.others hholds hut) hpark
    rcases h.holder hA.held hholds hchan with hw | ho
    · exact .inl hw
    · rw [ht] at ho
      exact .inr ⟨t,by simpa using ho.resolve_left hne⟩
  | @park t c l ht _ | @settle t c l ht => exact h.move (by simp [ht,Status.chan]) (by simp [ht])
  | @kill t _ =>
    refine h.move (fun c hc => .inl (chan_of_roused hc)) fun c ho => .inl ?_
    cases hst : s.thread t with
    | inside | wake => simpa [hst,Status.roused] using ho
    | _ => simp [hst] at ho
  | env he =>
    intro u c hu
    obtain ⟨hw,ho⟩ := hD.env _ _ _ c he
    refine (h.waits u c hu).imp hw fun ⟨v,hv⟩ => ⟨v,?_⟩
    cases hst : s.thread v with
    | inside l =>
      rw [hst] at hv
      exact ho l hv
    | wake c' l =>
      rw [hst] at hv
      exact hv.imp_right (ho l)
    | _ => simp [hst] at hv

theorem Discipline.waits_of_asleep (hS : Spec S key A good) (hD : Discipline Waits Owes S A good)
    {s₀ : State τ σ ι χ} (h : Reach (Monitor.step S) (Meets good) s₀ s) (h0 : A.Hold key s₀)
    (hw0 : Awake Waits Owes s₀) (hl : s.lock = none) {c : χ} {l : ι}
    (ht : s.thread t = .asleep c l) : Waits c s.data := by
  have hI : A.Hold key s ∧ Awake Waits Owes s :=
    h.invariant (I := fun s => A.Hold key s ∧ Awake Waits Owes s) ⟨h0,hw0⟩ fun _ _ _ hI hok hs =>
      ⟨hS.step hI.1 hok (step_moves hs),hD.step hI.1 hI.2 hok (step_moves hs)⟩
  exact hI.2.free hI.1.held hl (u := t) (by simp [ht,Status.chan])

end
end Xv6.Monitor
