import Xv6.SchedLog
import Mathlib.Data.Finset.Card
import Mathlib.Order.Interval.Finset.Nat

/-!
# Overlapping calls of `writelog`

`writelog` takes no lock: the `acquire` and `release` of `bufsize.lock` in it are commented out. A
recording call is cut here into its accesses to shared memory: the full test reads `bufsize.value`,
the increment writes it, and each field store reads it again to find its slot. Any call may take the
next step, on another CPU or in a timer interrupt inside `yield`.

Memory keeps, for every field of every slot, the call that stored it last. The interleavings that
lose nothing are exactly those in which no call increments while another is between its increment
and its last store.
-/
namespace Xv6.WritelogRace
open SchedLog
open Function (update update_of_ne update_self)

/-- The parts of a `struct schedlog`, one per assignment of `writelog`. -/
inductive Field where
  | clock | pid | eventName | prevPstate | nextPstate | cpu
  | name (i : Fin 16)
  deriving DecidableEq

def fields : List Field :=
  [.clock,.pid,.eventName,.prevPstate,.nextPstate,.cpu]++(List.finRange 16).map .name

theorem fields_nodup : fields.Nodup := by decide

theorem mem_fields (f : Field) : f ∈ fields := by
  cases f <;> simp [fields]

/-- How far a call has come. `store []` is a call that has returned after its
last store, `dropped` one that found the buffer full. -/
inductive Phase where
  | test
  | incr
  | store (todo : List Field)
  | dropped
  deriving DecidableEq

structure Shared (ι : Type) where
  value : ℕ
  slot : ℕ → Field → Option ι
  phase : ι → Phase

section
variable {ι : Type} [DecidableEq ι] {v : ℕ} {s : Shared ι} {i : ι}

/-- Nothing of these calls is stored yet; `v` records are already there. -/
def start (ι : Type) (v : ℕ) : Shared ι := ⟨v,fun _ _ => none,fun _ => .test⟩

def step (s : Shared ι) (i : ι) : Shared ι :=
  match s.phase i with
  | .test =>
    {s with phase := update s.phase i (if BUFSIZE ≤ s.value then .dropped else .incr)}
  | .incr =>
    {s with value := s.value+1, phase := update s.phase i (.store fields)}
  | .store (f::todo) =>
    {s with
      slot := update s.slot s.value (update (s.slot s.value) f (some i))
      phase := update s.phase i (.store todo)}
  | .store [] => s
  | .dropped => s

/-- The state after the calls have been stepped in the order of `sched`. -/
def run (s : Shared ι) (sched : List ι) : Shared ι := sched.foldl step s

/-- Call `i` is after its increment and before its last store. -/
def Storing (s : Shared ι) (i : ι) : Prop := ∃ f todo, s.phase i = .store (f::todo)

instance (s : Shared ι) (i : ι) : Decidable (Storing s i) :=
  match h : s.phase i with
  | .store (f::todo) => isTrue ⟨f,todo,h⟩
  | .store [] => isFalse (by rintro ⟨f,todo,hh⟩; simp [h] at hh)
  | .test => isFalse (by rintro ⟨f,todo,hh⟩; simp [h] at hh)
  | .incr => isFalse (by rintro ⟨f,todo,hh⟩; simp [h] at hh)
  | .dropped => isFalse (by rintro ⟨f,todo,hh⟩; simp [h] at hh)

/-- If the next access of `i` is the increment, no call is storing. -/
def Quiet (s : Shared ι) (i : ι) : Prop := s.phase i = .incr → ∀ j, ¬ Storing s j

def NoOverlap : Shared ι → List ι → Prop
  | _,[] => True
  | s,i::sched => Quiet s i ∧ NoOverlap (step s i) sched

instance [Fintype ι] (s : Shared ι) (i : ι) : Decidable (Quiet s i) :=
  inferInstanceAs (Decidable (_ → ∀ _, ¬ _))

instance decidableNoOverlap [Fintype ι] : (s : Shared ι) → (sched : List ι) →
    Decidable (NoOverlap s sched)
  | _,[] => isTrue trivial
  | s,i::sched =>
    @instDecidableAnd _ _ inferInstance (decidableNoOverlap (step s i) sched)

def OwnSlots (s : Shared ι) : Prop :=
  (∀ i, s.phase i = .store [] → ∃ n, ∀ f, s.slot n f = some i) ∧
    ∀ n f i, s.slot n f = some i → ∀ g, s.slot n g = some i

/-- What every interleaving keeps: the counter counts the increments, and only
slots above the start and up to the counter have been touched. -/
structure Counted (v : ℕ) (s : Shared ι) : Prop where
  writers : ∃ w : Finset ι, (∀ i, i ∈ w ↔ ∃ todo, s.phase i = .store todo) ∧ v+w.card = s.value
  slots : ∀ n f i, s.slot n f = some i → v < n ∧ n ≤ s.value

omit [DecidableEq ι] in
theorem counted_start (v : ℕ) : Counted v (start ι v) :=
  ⟨⟨∅,by simp [start],by simp [start]⟩,by simp [start]⟩

theorem Counted.step (h : Counted v s) (i : ι) : Counted v (step s i) := by
  obtain ⟨⟨w,hw,hc⟩,hs⟩ := h
  unfold WritelogRace.step
  split
  next hp =>
    refine ⟨⟨w,?_,hc⟩,hs⟩
    intro j
    by_cases hj : j = i
    · subst j
      rw [hw]
      simp only [hp,update_self]
      split_ifs <;> simp
    · simp [hw,hj]
  next hp =>
    have hi : i ∉ w := by rw [hw]; simp [hp]
    refine ⟨⟨insert i w,?_,?_⟩,?_⟩
    · intro j
      by_cases hj : j = i
      · subst j; simp
      · simp [hw,hj]
    · simp only [Finset.card_insert_of_notMem hi]
      omega
    · intro n f j hn
      have := hs n f j hn
      simp only
      omega
  next f todo hp =>
    have hi : i ∈ w := by rw [hw]; exact ⟨_,hp⟩
    have hpos : 0 < w.card := Finset.card_pos.mpr ⟨i,hi⟩
    refine ⟨⟨w,?_,hc⟩,?_⟩
    · intro j
      by_cases hj : j = i
      · subst j
        simp [hi]
      · simp [hw,hj]
    · intro n g j hn
      by_cases hv : n = s.value
      · subst n
        simp only
        omega
      · simp only [update_of_ne hv] at hn
        exact hs n g j hn
  next => exact ⟨⟨w,hw,hc⟩,hs⟩
  next => exact ⟨⟨w,hw,hc⟩,hs⟩

/-- While no increment has overlapped, at most one call is storing. Its slot is
the newest one and holds exactly the fields it has stored; every other finished
call has filled an older slot alone. -/
inductive Clean (v : ℕ) (s : Shared ι) : Prop
  | idle : (∀ j, ¬ Storing s j) → OwnSlots s → Clean v s
  | busy (a : ι) (todo : List Field) :
      s.phase a = .store todo → todo ≠ [] → todo.Nodup → (∀ j, Storing s j → j = a) →
      v < s.value → (∀ f, s.slot s.value f = if f ∈ todo then none else some a) →
      (∀ i, s.phase i = .store [] → ∃ n, n < s.value ∧ ∀ f, s.slot n f = some i) →
      (∀ n f i, n < s.value → s.slot n f = some i → ∀ g, s.slot n g = some i) → Clean v s

def Broken (v : ℕ) (s : Shared ι) : Prop :=
  ∃ n f, v < n ∧ n < s.value ∧ s.slot n f = none

theorem Broken.step (h : Broken v s) (i : ι) : Broken v (step s i) := by
  obtain ⟨n,f,hv,hn,hf⟩ := h
  unfold WritelogRace.step
  split
  · exact ⟨n,f,hv,hn,hf⟩
  · exact ⟨n,f,hv,by simp only; omega,hf⟩
  · refine ⟨n,f,hv,hn,?_⟩
    simp only
    rw [update_of_ne (by omega)]
    exact hf
  · exact ⟨n,f,hv,hn,hf⟩
  · exact ⟨n,f,hv,hn,hf⟩

theorem Clean.overlap (h : Clean v s) (hq : ¬ Quiet s i) : Broken v (step s i) := by
  simp only [Quiet,not_forall,not_not] at hq
  obtain ⟨hi,j,hj⟩ := hq
  cases h with
  | idle hnone => exact (hnone j hj).elim
  | busy a todo hp hne _ _ hv hslot =>
    obtain ⟨f,rest,rfl⟩ := List.exists_cons_of_ne_nil hne
    refine ⟨s.value,f,hv,?_,?_⟩
    · simp [WritelogRace.step,hi]
    · simp [WritelogRace.step,hi,hslot]

/-- Taking a call from `test` to `incr` or `dropped` touches nothing shared. -/
theorem Clean.tested (h : Clean v s) (hi : s.phase i = .test)
    (q : Phase) (hq : ∀ todo, q ≠ .store todo) :
    Clean v {s with phase := update s.phase i q} := by
  have hstore : ∀ j todo, update s.phase i q j = .store todo → s.phase j = .store todo := by
    intro j todo hj
    by_cases hji : j = i
    · subst j
      rw [update_self] at hj
      exact (hq todo hj).elim
    · rwa [update_of_ne hji] at hj
  cases h with
  | idle hnone hown =>
    refine .idle ?_ ⟨fun j hj => hown.1 j (hstore j _ hj),hown.2⟩
    rintro j ⟨f,todo,hj⟩
    exact hnone j ⟨f,todo,hstore j _ hj⟩
  | busy a todo hp hne hnd honly hv hslot hdone hmix =>
    have ha : a ≠ i := by
      rintro rfl
      simp [hp] at hi
    refine .busy a todo (by simpa [ha] using hp) hne hnd ?_ hv hslot ?_ hmix
    · rintro j ⟨f,rest,hj⟩
      exact honly j ⟨f,rest,hstore j _ hj⟩
    · exact fun j hj => hdone j (hstore j _ hj)

theorem Clean.incremented (h : Clean v s) (hc : Counted v s)
    (hi : s.phase i = .incr) (hq : ∀ j, ¬ Storing s j) : Clean v (step s i) := by
  have hfresh : ∀ f, s.slot (s.value+1) f = none := by
    intro f
    by_contra hf
    obtain ⟨j,hj⟩ := Option.ne_none_iff_exists'.mp hf
    have := hc.slots _ _ _ hj
    omega
  have hv : v ≤ s.value := by
    obtain ⟨w,_,hw⟩ := hc.writers
    omega
  cases h with
  | busy a todo hp hne =>
    obtain ⟨f,rest,rfl⟩ := List.exists_cons_of_ne_nil hne
    exact (hq a ⟨f,rest,hp⟩).elim
  | idle _ hown =>
    simp only [WritelogRace.step,hi]
    refine .busy i fields (by simp) (by decide) fields_nodup ?_ (by simp only; omega) ?_ ?_ ?_
    · rintro j ⟨f,todo,hj⟩
      by_contra hji
      simp only [update_of_ne hji] at hj
      exact hq j ⟨f,todo,hj⟩
    · intro f
      simp [hfresh,mem_fields]
    · intro j hj
      have hji : j ≠ i := by
        rintro rfl
        simp [fields] at hj
      simp only [update_of_ne hji] at hj
      obtain ⟨n,hn⟩ := hown.1 j hj
      have := (hc.slots n .pid j (hn .pid)).2
      exact ⟨n,by simp only; omega,hn⟩
    · exact fun n f j _ hj => hown.2 n f j hj

theorem Clean.stored (h : Clean v s) (hc : Counted v s) {f : Field}
    {todo : List Field} (hi : s.phase i = .store (f::todo)) : Clean v (step s i) := by
  cases h with
  | idle hnone => exact (hnone i ⟨f,todo,hi⟩).elim
  | busy a rest hp hne hnd honly hv hslot hdone hmix =>
    obtain rfl := honly i ⟨f,todo,hi⟩
    obtain rfl : rest = f::todo := by simpa [hi] using hp.symm
    have hnew : ∀ g, update (s.slot s.value) f (some i) g =
        if g ∈ todo then none else some i := by
      intro g
      by_cases hg : g = f
      · subst g
        simp [(List.nodup_cons.mp hnd).1]
      · simp [hg,hslot]
    have hold : ∀ n, n < s.value → update s.slot s.value
        (update (s.slot s.value) f (some i)) n = s.slot n :=
      fun n hn => update_of_ne (by omega) _ _
    have hothers : ∀ j, j ≠ i → ∀ t, update s.phase i (.store todo) j = .store t →
        s.phase j = .store t := by
      intro j hj t ht
      rwa [update_of_ne hj] at ht
    simp only [WritelogRace.step,hi]
    cases todo with
    | cons g todo =>
      refine .busy i (g::todo) (by simp) (by simp) (List.nodup_cons.mp hnd).2 ?_ hv ?_ ?_ ?_
      · rintro j ⟨k,t,hj⟩
        by_contra hji
        exact hji (honly j ⟨k,t,hothers j hji _ hj⟩)
      · intro k
        simpa using hnew k
      · intro j hj
        have hji : j ≠ i := by
          rintro rfl
          simp at hj
        obtain ⟨n,hn,hf⟩ := hdone j (hothers j hji _ hj)
        exact ⟨n,hn,fun k => by simpa [hold n hn] using hf k⟩
      · intro n k j hn hj
        simp only [hold n hn] at hj ⊢
        exact hmix n k j hn hj
    | nil =>
      have hfull : ∀ g, update (s.slot s.value) f (some i) g = some i := by
        simpa using hnew
      refine .idle ?_ ⟨?_,?_⟩
      · rintro j ⟨k,t,hj⟩
        by_cases hji : j = i
        · subst j
          simp at hj
        · exact hji (honly j ⟨k,t,hothers j hji _ hj⟩)
      · intro j hj
        by_cases hji : j = i
        · subst j
          exact ⟨s.value,by simpa using hfull⟩
        · obtain ⟨n,hn,hf⟩ := hdone j (hothers j hji _ hj)
          exact ⟨n,fun k => by simpa [hold n hn] using hf k⟩
      · intro n k j hj g
        rcases lt_trichotomy n s.value with hn | rfl | hn
        · simp only [hold n hn] at hj ⊢
          exact hmix n k j hn hj g
        · simp only [update_self,hfull] at hj ⊢
          exact hj
        · simp only [update_of_ne hn.ne'] at hj
          have := (hc.slots n k j hj).2
          omega

theorem Clean.step (h : Clean v s) (hc : Counted v s) (hq : Quiet s i) : Clean v (step s i) := by
  cases hi : s.phase i with
  | test =>
    simp only [WritelogRace.step,hi]
    exact h.tested hi _ (by intro todo; split_ifs <;> simp)
  | incr => exact h.incremented hc hi (hq hi)
  | store todo =>
    cases todo with
    | cons => exact h.stored hc hi
    | nil => simpa only [WritelogRace.step,hi] using h
  | dropped => simpa only [WritelogRace.step,hi] using h

theorem run_cons (s : Shared ι) (i : ι) (sched : List ι) : run s (i::sched) = run (step s i) sched := rfl

theorem Broken.run (h : Broken v s) (sched : List ι) : Broken v (run s sched) := by
  induction sched generalizing s with
  | nil => exact h
  | cons i sched ih => exact ih (h.step i)

theorem Counted.run (h : Counted v s) (sched : List ι) : Counted v (run s sched) := by
  induction sched generalizing s with
  | nil => exact h
  | cons i sched ih => exact ih (h.step i)

theorem Clean.run (h : Clean v s) (hc : Counted v s) (sched : List ι) :
    (NoOverlap s sched ∧ Clean v (run s sched)) ∨ (¬ NoOverlap s sched ∧ Broken v (run s sched)) := by
  induction sched generalizing s with
  | nil => exact .inl ⟨trivial,h⟩
  | cons i sched ih =>
    by_cases hq : Quiet s i
    · rcases ih (h.step hc hq) (hc.step i) with ⟨hn,hr⟩ | ⟨hn,hr⟩
      · exact .inl ⟨⟨hq,hn⟩,hr⟩
      · exact .inr ⟨fun hh => hn hh.2,hr⟩
    · exact .inr ⟨fun hh => hq hh.1,(h.overlap hq).run sched⟩

theorem step_phase_of_ne (s : Shared ι) {j : ι} (h : j ≠ i) : (step s i).phase j = s.phase j := by
  unfold WritelogRace.step
  split <;> simp [h]

theorem run_phase_of_notMem (s : Shared ι) (sched : List ι) (h : i ∉ sched) :
    (run s sched).phase i = s.phase i := by
  induction sched generalizing s with
  | nil => rfl
  | cons j sched ih =>
    rw [List.mem_cons,not_or] at h
    rw [run_cons,ih _ h.2,step_phase_of_ne s h.1]

omit [DecidableEq ι] in
theorem not_ownSlots_of_broken (hb : Broken v s) (hc : Counted v s)
    (hd : ∀ i todo, s.phase i = .store todo → todo = []) : ¬ OwnSlots s := by
  intro hown
  obtain ⟨n₀,f₀,hv₀,hn₀,hf₀⟩ := hb
  obtain ⟨w,hw,hcard⟩ := hc.writers
  have hslot : ∀ i ∈ w, ∃ n, ∀ f, s.slot n f = some i := by
    intro i hi
    obtain ⟨todo,ht⟩ := (hw i).mp hi
    obtain rfl := hd i todo ht
    exact hown.1 i ht
  choose! own hown' using hslot
  have hmaps : ∀ i ∈ w, own i ∈ (Finset.Ioc v s.value).erase n₀ := by
    intro i hi
    rw [Finset.mem_erase,Finset.mem_Ioc]
    refine ⟨?_,hc.slots _ .pid i (hown' i hi .pid)⟩
    intro he
    have := hown' i hi f₀
    rw [he,hf₀] at this
    cases this
  have hinj : Set.InjOn own w := by
    intro i hi j hj he
    have h₁ := hown' i hi .pid
    rw [he,hown' j hj .pid] at h₁
    exact (Option.some.inj h₁).symm
  have hle := Finset.card_le_card_of_injOn own hmaps hinj
  rw [Finset.card_erase_of_mem (Finset.mem_Ioc.mpr ⟨hv₀,hn₀.le⟩),Nat.card_Ioc] at hle
  omega

omit [DecidableEq ι] in
theorem Clean.ownSlots (h : Clean v s)
    (hd : ∀ i todo, s.phase i = .store todo → todo = []) : OwnSlots s := by
  cases h with
  | idle _ hown => exact hown
  | busy a todo hp hne => exact (hne (hd a todo hp)).elim

/-- When every call of the schedule has finished and none was dropped, each
record has its own unmixed slot exactly if no increment fell between another
call's increment and its last store. -/
theorem ownSlots_iff_noOverlap (v : ℕ) (sched : List ι)
    (hdone : ∀ i ∈ sched, (run (start ι v) sched).phase i = .store []) :
    OwnSlots (run (start ι v) sched) ↔ NoOverlap (start ι v) sched := by
  have hd : ∀ i todo, (run (start ι v) sched).phase i = .store todo → todo = [] := by
    intro i todo hi
    by_cases hm : i ∈ sched
    · rw [hdone i hm] at hi
      cases hi
      rfl
    · rw [run_phase_of_notMem _ _ hm] at hi
      cases hi
  have hclean : Clean v (start ι v) :=
    .idle (by rintro j ⟨f,todo,hj⟩; cases hj) ⟨by simp [start],by simp [start]⟩
  rcases hclean.run (counted_start v) sched with ⟨hn,hr⟩ | ⟨hn,hr⟩
  · exact ⟨fun _ => hn,fun _ => hr.ownSlots hd⟩
  · exact ⟨fun hown => (not_ownSlots_of_broken hr ((counted_start v).run sched) hd hown).elim,
      fun hh => (hn hh).elim⟩

def sequential : List Bool := List.replicate 24 false++List.replicate 24 true

theorem sequential_ownSlots : OwnSlots (run (start Bool 0) sequential) :=
  (ownSlots_iff_noOverlap 0 sequential (by decide +kernel)).mpr (by decide +kernel)

def crossed : List Bool :=
  [false,false,true,true]++List.replicate 22 false++List.replicate 22 true

theorem crossed_not_ownSlots : (∀ i, (run (start Bool 0) crossed).phase i = .store []) ∧
    ¬ OwnSlots (run (start Bool 0) crossed) := by
  have hd : ∀ i, (run (start Bool 0) crossed).phase i = .store [] := by decide +kernel
  refine ⟨hd,not_ownSlots_of_broken (v := 0) ?_ ((counted_start 0).run crossed) ?_⟩
  · exact ⟨1,.pid,by decide,by decide +kernel,by decide +kernel⟩
  · intro i todo hi
    rw [hd i] at hi
    cases hi
    rfl

end
end Xv6.WritelogRace
