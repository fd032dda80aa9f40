import Mathlib.Tactic

/-!
# The evaluation scripts

The loops of `rate.py`, `plotrate.py` and `plot.py` over the rows of the event table in which a
process gets or leaves a CPU. A script that stops with an exception gives `none`. What they should
compute is said with the consecutive rows of one CPU or of one process.
-/
namespace Xv6.Scripts
open List
open Function (update update_of_ne update_self)

/-- The columns that the scripts keep of a row. -/
structure Row where
  clock : ℤ
  cpu : ℤ
  pid : ℤ
  prev : ℤ
  next : ℤ
  deriving DecidableEq, Repr

/-- The place that `l[i]` means in a list of `n` places; a negative index
counts from the end, and beyond that it is an `IndexError`. -/
def index (n : ℕ) (i : ℤ) : Option ℕ :=
  if 0 ≤ i ∧ i < n then some i.toNat
  else if -n ≤ i ∧ i < 0 then some (i+n).toNat
  else none

theorem index_natCast {n i : ℕ} (hi : i < n) : index n i = some i := by
  rw [index,if_pos ⟨Int.natCast_nonneg i,by exact_mod_cast hi⟩,Int.toNat_natCast]

/-! ## Loops over rows -/

section Loops

variable {α σ : Type*} {step : σ → α → Option σ} {I : List α → σ → Prop}

theorem foldlM_upTo {rows : List α} {s s' : σ}
    (hstep : ∀ done r rest, rows = done++r::rest → ∀ s s', I done s → step s r = some s' →
      I (done++[r]) s') (h : rows.foldlM step s = some s') (hs : I [] s) : I rows s' := by
  have loop : ∀ rest done s, rows = done++rest → I done s → rest.foldlM step s = some s' →
      I rows s' := by
    intro rest
    induction rest with
    | nil =>
      intro done s hrows hs h
      cases h
      simpa [hrows] using hs
    | cons r rest ih =>
      intro done s hrows hs h
      obtain ⟨s1,h1,h2⟩ := Option.bind_eq_some_iff.mp h
      exact ih (done++[r]) s1 (by simp [hrows]) (hstep done r rest hrows s s1 hs h1) h2
  exact loop rows [] s rfl hs h

theorem foldlM_returns {rows : List α} {s : σ}
    (hstep : ∀ done r rest, rows = done++r::rest → ∀ s, I done s →
      ∃ s', step s r = some s' ∧ I (done++[r]) s') (hs : I [] s) :
    ∃ s', rows.foldlM step s = some s' ∧ I rows s' := by
  have loop : ∀ rest done s, rows = done++rest → I done s →
      ∃ s', rest.foldlM step s = some s' ∧ I rows s' := by
    intro rest
    induction rest with
    | nil => exact fun done s hrows hs => ⟨s,rfl,by simpa [hrows] using hs⟩
    | cons r rest ih =>
      intro done s hrows hs
      obtain ⟨s1,h1,hs1⟩ := hstep done r rest hrows s hs
      obtain ⟨s',h2,hs'⟩ := ih (done++[r]) s1 (by simp [hrows]) hs1
      exact ⟨s',Option.bind_eq_some_iff.mpr ⟨s1,h1,h2⟩,hs'⟩
  exact loop rows [] s rfl hs

def pairs (l : List α) : List (α×α) := l.zip l.tail

theorem pairs_concat (l : List α) (x : α) :
    pairs (l++[x]) = pairs l++l.getLast?.toList.map fun y => (y,x) := by
  induction l with
  | nil => rfl
  | cons a l ih =>
    cases l with
    | nil => rfl
    | cons => simpa [pairs] using ih

theorem mem_pairs {l rest : List α} {x y : α} (hy : y ∈ l.getLast?) : (y,x) ∈ pairs (l++x::rest) := by
  obtain ⟨l,rfl⟩ : ∃ l', l = l'++[y] := by
    obtain ⟨_,rfl⟩ := mem_getLast?_eq_getLast hy
    exact ⟨_,(dropLast_append_getLast _).symm⟩
  induction l with
  | nil => simp [pairs]
  | cons a l ih =>
    have := ih (by simp)
    cases l with
    | nil => simp [pairs]
    | cons => exact mem_cons_of_mem _ this

end Loops

def spans (a b : Row → Prop) [DecidablePred a] [DecidablePred b] (l : List Row) : ℤ :=
  (((pairs l).filter fun p => a p.1 ∧ b p.2).map fun p => p.2.clock-p.1.clock).sum

section Spans

variable {a b : Row → Prop} [DecidablePred a] [DecidablePred b] {l : List Row} {q r : Row}

theorem spans_concat (hq : q ∈ l.getLast?) :
    spans a b (l++[r]) = spans a b l+if a q ∧ b r then r.clock-q.clock else 0 := by
  rw [spans,pairs_concat,Option.mem_def.mp hq]
  by_cases h : a q ∧ b r <;> simp [spans,h]

theorem spans_first (hl : l.getLast? = none) : spans a b (l++[r]) = spans a b l := by
  rw [spans,pairs_concat,hl]
  simp [spans]

end Spans

/-! ## Usage of the CPUs -/

def Row.Dispatch (r : Row) : Prop := r.prev = 3 ∧ r.next = 4

def Row.Departure (r : Row) : Prop := r.prev = 4 ∧ (r.next = 2 ∨ r.next = 3 ∨ r.next = 5)

instance : DecidablePred Row.Dispatch := fun _ => inferInstanceAs (Decidable (_ ∧ _))

instance : DecidablePred Row.Departure := fun _ => inferInstanceAs (Decidable (_ ∧ _))

structure Rate where
  running : ℕ → ℤ
  notRunning : ℕ → ℤ
  start : ℕ → ℤ

namespace Rate

def NCPU : ℕ := 8

def initial : Rate := ⟨fun _ => 0,fun _ => 0,fun _ => -1⟩

def step (s : Rate) (r : Row) : Option Rate := do
  let c ← index NCPU r.cpu
  let s :=
    if r.prev = 3 ∧ r.next = 4 ∧ s.start c ≠ -1 then
      {s with notRunning := update s.notRunning c (s.notRunning c+(r.clock-s.start c))}
    else if r.prev = 4 ∧ r.next = 3 ∧ s.start c ≠ -1 then
      {s with running := update s.running c (s.running c+(r.clock-s.start c))}
    else s
  some {s with start := update s.start c r.clock}

def loop (rows : List Row) : Option Rate := rows.foldlM step initial

end Rate

def onCpu (rows : List Row) (c : ℕ) : List Row := rows.filter fun r => r.cpu = c

/-- On each CPU the rows are in the order of the clock, and a dispatch and the
departure of the running process alternate. -/
structure Events (rows : List Row) : Prop where
  cpus : ∀ r ∈ rows, ∃ c < Rate.NCPU, r.cpu = (c : ℕ)
  kinds : ∀ r ∈ rows, r.Dispatch ∨ r.Departure
  ordered : ∀ c < Rate.NCPU, ∀ p ∈ pairs (onCpu rows c), p.1.clock ≤ p.2.clock
  alternate : ∀ c < Rate.NCPU, ∀ p ∈ pairs (onCpu rows c),
    (p.1.Dispatch ∧ p.2.Departure ∧ p.1.pid = p.2.pid) ∨ (p.1.Departure ∧ p.2.Dispatch)

/-- The loop ends with the time in which each CPU runs a process and the time
in which it does not, and the two make up the time of its rows. -/
def Usage (rows : List Row) : Prop :=
  ∃ s, Rate.loop rows = some s ∧ ∀ c < Rate.NCPU,
    s.running c = spans Row.Dispatch Row.Departure (onCpu rows c) ∧
    s.notRunning c = spans Row.Departure Row.Dispatch (onCpu rows c) ∧
    ∀ f ∈ (onCpu rows c).head?, ∀ q ∈ (onCpu rows c).getLast?,
      s.running c+s.notRunning c = q.clock-f.clock

namespace Rate

def Inv (done : List Row) (s : Rate) : Prop :=
  ∀ c, s.running c = spans Row.Dispatch Row.Departure (onCpu done c) ∧
    s.notRunning c = spans Row.Departure Row.Dispatch (onCpu done c) ∧
    s.start c = ((onCpu done c).getLast?.map Row.clock).getD (-1)

end Rate

variable {r : Row} {done rows : List Row}

theorem Row.Departure.not_dispatch (h : r.Departure) : ¬ r.Dispatch := by
  rintro ⟨h1,_⟩
  have := h.1
  omega

theorem onCpu_concat_of_eq {c : ℕ} (hr : r.cpu = c) : onCpu (done++[r]) c = onCpu done c++[r] := by
  simp [onCpu,hr]

theorem onCpu_concat_of_ne {c : ℕ} (hr : r.cpu ≠ c) : onCpu (done++[r]) c = onCpu done c := by
  simp [onCpu,hr]

theorem Rate.Inv.step {rest : List Row} {s : Rate} (h : Events rows)
    (hd : ∀ r ∈ rows, r.Departure → r.next = 3) (hc : ∀ r ∈ rows, r.clock ≠ -1)
    (hrows : rows = done++r::rest) (hs : Inv done s) :
    ∃ s', s.step r = some s' ∧ Inv (done++[r]) s' := by
  have hr : r ∈ rows := by simp [hrows]
  obtain ⟨c,hlt,hcpu⟩ := h.cpus r hr
  rw [Rate.step,hcpu,index_natCast hlt]
  refine ⟨_,rfl,fun c' => ?_⟩
  obtain ⟨hrun,hnot,hstart⟩ := hs c'
  by_cases hcc : c' = c
  · subst hcc
    rw [onCpu_concat_of_eq hcpu]
    cases hlast : (onCpu done c').getLast? with
    | none =>
      rw [hlast] at hstart
      simp only [Option.map_none,Option.getD_none] at hstart
      simp [hstart,spans_first hlast,hrun,hnot]
    | some q =>
      have hq : q ∈ onCpu done c' := mem_of_getLast? hlast
      have hqr : q ∈ rows := by
        rw [hrows]
        exact mem_append_left _ (mem_of_mem_filter hq)
      have hpair : (q,r) ∈ pairs (onCpu rows c') := by
        have : onCpu rows c' = onCpu done c'++r::onCpu rest c' := by simp [onCpu,hrows,hcpu]
        exact this ▸ mem_pairs hlast
      have hne := hc q hqr
      rw [hlast] at hstart
      simp only [Option.map_some,Option.getD_some] at hstart
      rw [spans_concat hlast,spans_concat hlast]
      obtain ⟨h1,h2,_⟩ | ⟨h1,h2⟩ : (q.Dispatch ∧ r.Departure ∧ _) ∨ (q.Departure ∧ r.Dispatch) :=
        h.alternate c' hlt _ hpair
      · have hnext := hd r hr h2
        have hq4 : ¬ q.Departure := fun hq => hq.not_dispatch h1
        simp [h1,h2,hq4,h2.1,hnext,hstart,hne,hrun,hnot]
      · simp [h1,h2,h1.not_dispatch,h2.1,h2.2,hstart,hne,hrun,hnot]
  · have hne : r.cpu ≠ c' := by
      rw [hcpu]
      exact_mod_cast Ne.symm hcc
    rw [onCpu_concat_of_ne hne]
    split_ifs <;> simp [hcc,hrun,hnot,hstart]

theorem spans_add {l : List Row} {f q : Row}
    (h : ∀ p ∈ pairs l, (p.1.Dispatch ∧ p.2.Departure ∧ p.1.pid = p.2.pid) ∨
      (p.1.Departure ∧ p.2.Dispatch)) (hf : f ∈ l.head?) (hq : q ∈ l.getLast?) :
    spans Row.Dispatch Row.Departure l+spans Row.Departure Row.Dispatch l = q.clock-f.clock := by
  induction l generalizing f with
  | nil => cases hf
  | cons a l ih =>
    cases hf
    cases l with
    | nil =>
      cases hq
      simp [spans,pairs]
    | cons b l =>
      have hpairs : pairs (a::b::l) = (a,b)::pairs (b::l) := rfl
      rw [hpairs] at h
      have htail := ih (fun p hp => h p (mem_cons_of_mem _ hp)) rfl (by simpa using hq)
      unfold spans at htail ⊢
      rw [hpairs]
      rcases h _ mem_cons_self with ⟨h1,h2,_⟩ | ⟨h1,h2⟩
      · have hno : ¬ a.Departure := fun ha => ha.not_dispatch h1
        simp [h1,h2,hno] at htail ⊢
        linarith
      · have hno := h1.not_dispatch
        simp [h1,h2,hno] at htail ⊢
        linarith

def yieldRows : List Row := [⟨5,0,4,3,4⟩,⟨8,0,4,4,3⟩,⟨10,0,6,3,4⟩,⟨14,0,6,4,3⟩]

theorem events_yieldRows : Events yieldRows where
  cpus r hr := ⟨0,by decide,by revert r; decide⟩
  kinds := by decide
  ordered := by decide
  alternate := by decide

def sleepRows : List Row := [⟨0,0,4,3,4⟩,⟨10,0,4,4,2⟩]

/-! ## Shares of the processes -/

def ofPid (rows : List Row) (p : ℤ) : List Row := rows.filter fun r => r.pid = p

theorem ofPid_concat_of_eq {p : ℤ} (hr : r.pid = p) : ofPid (done++[r]) p = ofPid done p++[r] := by
  simp [ofPid,hr]

theorem ofPid_concat_of_ne {p : ℤ} (hr : r.pid ≠ p) : ofPid (done++[r]) p = ofPid done p := by
  simp [ofPid,hr]

theorem ofPid_concat_other {p p' : ℕ} (hr : r.pid = p) (h : p' ≠ p) :
    ofPid (done++[r]) p' = ofPid done p' :=
  ofPid_concat_of_ne (by omega)

theorem mem_pairs_ofPid {rest : List Row} {q : Row} (hq : q ∈ (ofPid done r.pid).getLast?) :
    (q,r) ∈ pairs (ofPid (done++r::rest) r.pid) := by
  have : ofPid (done++r::rest) r.pid = ofPid done r.pid++r::ofPid rest r.pid := by simp [ofPid]
  exact this ▸ mem_pairs hq

def Row.In (r : Row) : Prop := r.next = 4

def Row.Out (r : Row) : Prop := r.prev = 4

instance : DecidablePred Row.In := fun _ => inferInstanceAs (Decidable (_ = _))

instance : DecidablePred Row.Out := fun _ => inferInstanceAs (Decidable (_ = _))

structure Share where
  total : ℤ
  sum : ℕ → ℤ
  start : ℕ → ℤ
  x : ℕ → List ℤ
  y : ℕ → List ℚ

namespace Share

def NPROC : ℕ := 36

def initial : Share := ⟨0,fun _ => 0,fun _ => 0,fun _ => [],fun _ => []⟩

def below (sum : ℕ → ℤ) (i : ℕ) : ℤ := ∑ j ∈ Finset.range NPROC, if j ≤ i then sum j else 0

/-- One round of the loop, for a row that the query keeps: one of its states
is 4, so the lists are indexed. A total of 0 is a `ZeroDivisionError`. -/
def step (s : Share) (r : Row) : Option Share :=
  if r.pid = 0 then some s
  else if r.pid = -1 then some s
  else do
    let p ← index NPROC r.pid
    let s := if r.next = 4 then {s with start := update s.start p r.clock} else s
    if r.prev = 4 then
      if s.start p = 0 then some s
      else
        let d := r.clock-s.start p
        let sum := update s.sum p (s.sum p+d)
        let total := s.total+d
        if total = 0 then none
        else some {s with
          sum := sum
          total := total
          x := fun i => if i < NPROC then s.x i++[r.clock] else s.x i
          y := fun i => if i < NPROC then s.y i++[(below sum i : ℚ)/total*100] else s.y i}
    else some s

def loop (rows : List Row) : Option Share := rows.foldlM step initial

end Share

/-- Rows in the order of the clock from 0 on, in which each process gets and
leaves a CPU in turns. -/
structure Schedule (rows : List Row) : Prop where
  pids : ∀ r ∈ rows, ∃ p < Share.NPROC, 0 < p ∧ r.pid = (p : ℕ)
  kinds : ∀ r ∈ rows, (r.In ∧ ¬ r.Out) ∨ (r.Out ∧ ¬ r.In)
  ordered : rows.Pairwise fun q r => q.clock ≤ r.clock
  first : ∀ r ∈ rows.head?, r.clock = 0
  alternate : ∀ p < Share.NPROC, ∀ q ∈ pairs (ofPid rows p), (q.1.In ∧ q.2.Out) ∨ (q.1.Out ∧ q.2.In)

/-- The state has the time of each process and the total, and the points
plotted for one row do not fall from series to series and end at 100. -/
structure Shared (rows : List Row) (s : Share) : Prop where
  sum : ∀ p < Share.NPROC, s.sum p = spans Row.In Row.Out (ofPid rows p)
  total : s.total = ∑ p ∈ Finset.range Share.NPROC, s.sum p
  mono : ∀ i j, i ≤ j → j < Share.NPROC → List.Forall₂ (· ≤ ·) (s.y i) (s.y j)
  last : ∀ v ∈ s.y (Share.NPROC-1), v = 100

def Positive (rows : List Row) : Prop :=
  ∀ p < Share.NPROC, ∀ q ∈ pairs (ofPid rows p), q.1.In → q.2.Out → q.1.clock < q.2.clock

def Shares (rows : List Row) : Prop :=
  (∀ s, Share.loop rows = some s → Shared rows s) ∧ (Positive rows → ∃ s, Share.loop rows = some s)

namespace Share

structure Inv (done : List Row) (s : Share) : Prop extends Shared done s where
  nonneg : ∀ p, 0 ≤ s.sum p
  unset : ∀ p < NPROC, (ofPid done p).getLast? = none → s.start p = 0
  set : ∀ p < NPROC, ∀ q ∈ (ofPid done p).getLast?, q.In → s.start p = q.clock

theorem below_mono {sum : ℕ → ℤ} (h : ∀ p, 0 ≤ sum p) {i j : ℕ} (hij : i ≤ j) :
    below sum i ≤ below sum j := by
  refine Finset.sum_le_sum fun k _ => ?_
  have := h k
  split_ifs <;> omega

theorem below_last (sum : ℕ → ℤ) : below sum (NPROC-1) = ∑ p ∈ Finset.range NPROC, sum p := by
  refine Finset.sum_congr rfl fun k hk => if_pos ?_
  have := Finset.mem_range.mp hk
  omega

theorem inv_initial : Inv [] initial where
  sum _ _ := rfl
  total := rfl
  mono _ _ _ _ := .nil
  last _ hv := by cases hv
  nonneg _ := le_rfl
  unset _ _ _ := rfl
  set _ _ _ hq := by cases hq

variable {done : List Row} {s : Share} {r : Row} {p : ℕ}

theorem Inv.enter (hs : Inv done s) (hr : r.pid = p) (hout : ¬ r.Out) :
    Inv (done++[r]) {s with start := update s.start p r.clock} where
  sum p' hp' := by
    by_cases h : r.pid = p'
    · rw [ofPid_concat_of_eq h]
      cases hl : (ofPid done p').getLast? with
      | none => rw [spans_first hl,← hs.sum p' hp']
      | some => simp [spans_concat hl,hout,hs.sum p' hp']
    · rw [ofPid_concat_of_ne h,← hs.sum p' hp']
  total := hs.total
  mono := hs.mono
  last := hs.last
  nonneg := hs.nonneg
  unset p' hp' h := by
    by_cases hpp : p' = p
    · rw [hpp,ofPid_concat_of_eq hr] at h
      simp at h
    · rw [ofPid_concat_other hr hpp] at h
      simpa [hpp] using hs.unset p' hp' h
  set p' hp' q hq hin := by
    by_cases hpp : p' = p
    · rw [hpp,ofPid_concat_of_eq hr] at hq
      simp at hq
      simp [hpp,hq]
    · rw [ofPid_concat_other hr hpp] at hq
      simpa [hpp] using hs.set p' hp' q hq hin

theorem Inv.leave {s' : Share} (hs : Inv done s) (hin : ¬ r.In)
    (hstart : s'.start = s.start) (hshared : Shared (done++[r]) s') (hpos : ∀ p, 0 ≤ s'.sum p) :
    Inv (done++[r]) s' where
  toShared := hshared
  nonneg := hpos
  unset p' hp' h := by
    by_cases hpp : r.pid = p'
    · rw [ofPid_concat_of_eq hpp] at h
      simp at h
    · rw [ofPid_concat_of_ne hpp] at h
      exact hstart ▸ hs.unset p' hp' h
  set p' hp' q hq h := by
    by_cases hpp : r.pid = p'
    · rw [ofPid_concat_of_eq hpp] at hq
      simp at hq
      exact absurd (hq ▸ h) hin
    · rw [ofPid_concat_of_ne hpp] at hq
      exact hstart ▸ hs.set p' hp' q hq h

theorem Shared.skip (hs : Shared done s) (hl : (ofPid done r.pid).getLast? = none) :
    Shared (done++[r]) s where
  sum p hp := by
    rw [hs.sum p hp]
    by_cases h : r.pid = p
    · rw [ofPid_concat_of_eq h,spans_first (h ▸ hl)]
    · rw [ofPid_concat_of_ne h]
  total := hs.total
  mono := hs.mono
  last := hs.last

theorem Inv.count {q : Row} (hs : Inv done s) (hp : p < NPROC) (hr : r.pid = p) (hin : ¬ r.In)
    (hout : r.Out) (hl : q ∈ (ofPid done p).getLast?) (hq : q.In) (hle : q.clock ≤ r.clock)
    (hne : s.total+(r.clock-q.clock) ≠ 0) :
    let sum := update s.sum p (s.sum p+(r.clock-q.clock))
    let total := s.total+(r.clock-q.clock)
    Inv (done++[r]) {s with
      sum := sum
      total := total
      x := fun i => if i < NPROC then s.x i++[r.clock] else s.x i
      y := fun i => if i < NPROC then s.y i++[(below sum i : ℚ)/total*100] else s.y i} := by
  intro sum total
  have hpos : ∀ p', 0 ≤ sum p' := by
    intro p'
    have h1 := hs.nonneg p
    have h2 := hs.nonneg p'
    by_cases h : p' = p <;> simp [sum,h] <;> omega
  have htotal : total = ∑ p' ∈ Finset.range NPROC, sum p' := by
    rw [Finset.sum_update_of_mem (Finset.mem_range.mpr hp)]
    have hsplit := Finset.add_sum_erase (Finset.range NPROC) s.sum (Finset.mem_range.mpr hp)
    rw [Finset.sdiff_singleton_eq_erase]
    have := hs.total
    omega
  have hsum0 : 0 ≤ total := htotal ▸ Finset.sum_nonneg fun p' _ => hpos p'
  have hlt : (0 : ℚ) < total := by exact_mod_cast lt_of_le_of_ne hsum0 hne.symm
  refine hs.leave hin rfl ⟨fun p' hp' => ?_,htotal,fun i j hij hj => ?_,fun v hv => ?_⟩ hpos
  · by_cases h : p' = p
    · subst h
      rw [ofPid_concat_of_eq hr,spans_concat hl,if_pos ⟨hq,hout⟩,← hs.sum p' hp']
      exact update_self ..
    · rw [ofPid_concat_other hr h,← hs.sum p' hp']
      exact update_of_ne h ..
  · have hval : (below sum i : ℚ)/total*100 ≤ (below sum j : ℚ)/total*100 := by
      have := below_mono hpos hij
      gcongr
    simpa [hj,hij.trans_lt hj] using rel_append (hs.mono i j hij hj) (.cons hval .nil)
  · simp only [NPROC,Nat.reduceSub,Nat.reduceLT,if_true] at hv
    rcases List.mem_append.mp hv with hv | hv
    · exact hs.last v hv
    · have hb : (below sum 35 : ℚ) = total := by exact_mod_cast (below_last sum).trans htotal.symm
      rw [mem_singleton.mp hv,hb,div_self hlt.ne',one_mul]

theorem Inv.step {rest : List Row} (h : Schedule rows)
    (hz : ∀ r ∈ rows, r.In → r.clock ≠ 0) (hrows : rows = done++r::rest) (hs : Inv done s) :
    (∃ s', s.step r = some s' ∧ Inv (done++[r]) s') ∨ (s.step r = none ∧ ¬ Positive rows) := by
  have hr : r ∈ rows := by simp [hrows]
  obtain ⟨p,hp,hpos,hpid⟩ := h.pids r hr
  have h0 : r.pid ≠ 0 := by omega
  have h1 : r.pid ≠ -1 := by omega
  have hidx : index NPROC r.pid = some p := by rw [hpid,index_natCast hp]
  rw [Share.step,if_neg h0,if_neg h1,hidx]
  rcases h.kinds r hr with ⟨hin,hout⟩ | ⟨hout,hin⟩
  · refine .inl ⟨_,?_,hs.enter hpid hout⟩
    simp [show r.next = 4 from hin,show r.prev ≠ 4 from hout]
  · have hprev : r.prev = 4 := hout
    have hnext : r.next ≠ 4 := hin
    cases hl : (ofPid done p).getLast? with
    | none =>
      refine .inl ⟨s,?_,hs.leave hin rfl (Shared.skip hs.toShared (hpid ▸ hl)) hs.nonneg⟩
      simp [hprev,hnext,hs.unset p hp hl]
    | some q =>
      have hpair : (q,r) ∈ pairs (ofPid rows p) := hpid ▸ hrows ▸ mem_pairs_ofPid (hpid ▸ hl)
      have hq : q.In := ((h.alternate p hp _ hpair).resolve_right fun hw => hin hw.2).1
      have hmem : q ∈ done := mem_of_mem_filter (mem_of_getLast? hl)
      have hle : q.clock ≤ r.clock :=
        (pairwise_append.mp (hrows ▸ h.ordered)).2.2 q hmem r mem_cons_self
      have hq0 : q.clock ≠ 0 := hz q (by simp [hrows,hmem]) hq
      by_cases hne : s.total+(r.clock-q.clock) = 0
      · refine .inr ⟨by simp [hprev,hnext,hs.set p hp q hl hq,hq0,hne],fun hw => ?_⟩
        have hlt : q.clock < r.clock := hw p hp _ hpair hq hout
        have hnn : 0 ≤ s.total := hs.total ▸ Finset.sum_nonneg fun p' _ => hs.nonneg p'
        omega
      · refine .inl ⟨_,?_,hs.count hp hpid hin hout hl hq hle hne⟩
        simp [hprev,hnext,hs.set p hp q hl hq,hq0,hne]

end Share

def lateRows : List Row := [⟨0,0,4,4,3⟩,⟨3,0,5,3,4⟩,⟨9,0,5,4,3⟩]

theorem schedule_lateRows : Schedule lateRows where
  pids r hr := ⟨r.pid.toNat,by revert r; decide,by revert r; decide,by revert r; decide⟩
  kinds := by decide
  ordered := by decide
  first := by decide
  alternate := by decide

def firstRows : List Row := [⟨0,0,5,3,4⟩,⟨10,0,5,4,3⟩]

theorem schedule_firstRows : Schedule firstRows where
  pids r hr := ⟨r.pid.toNat,by revert r; decide,by revert r; decide,by revert r; decide⟩
  kinds := by decide
  ordered := by decide
  first := by decide
  alternate := by decide

/-! ## Segments of the figure -/

/-- The variables of `plot.py`; `lines` are the segments drawn, each with the
two rows it joins. -/
structure Plot where
  startPoint : List Row
  spIdx : ℕ → ℤ
  idx : ℤ
  lines : List (Row×Row)

def Joined (l : Row×Row) : Prop := l.1.cpu = l.2.cpu ∧ l.1.next = 4 ∧ l.2.prev = 4

instance : DecidablePred Joined := fun _ => inferInstanceAs (Decidable (_ ∧ _ ∧ _))

namespace Plot

def NPROC : ℕ := 100

def initial : Plot := ⟨[],fun _ => 0,-1,[]⟩

def join (s : Plot) (p : ℕ) (sp ep : Row) : Option Plot := do
  let lines :=
    if sp.cpu = ep.cpu ∧ sp.next = 4 ∧ ep.prev = 4 then s.lines++[(sp,ep)] else s.lines
  let k ← index s.startPoint.length (s.spIdx p)
  some {s with lines := lines, startPoint := s.startPoint.set k ep}

/-- `for sp in start_point` reads the list as it is in that round; its length
does not change, and bounds the rounds. -/
def scan (ep : Row) (p : ℕ) : ℕ → ℕ → Plot → Bool → Option (Plot×Bool)
  | 0,_,s,found => some (s,found)
  | n+1,i,s,found =>
    match s.startPoint[i]? with
    | none => some (s,found)
    | some sp =>
      if sp.pid = ep.pid then (s.join p sp ep).bind fun s => scan ep p n (i+1) s true
      else scan ep p n (i+1) s found

def step (s : Plot) (ep : Row) : Option Plot :=
  if ep.pid = 0 then some s
  else if ep.pid = -1 then some s
  else do
    let p ← index NPROC ep.pid
    let (s,found) ← scan ep p s.startPoint.length 0 s false
    if found then some s
    else some {s with
      startPoint := s.startPoint++[ep]
      idx := s.idx+1
      spIdx := update s.spIdx p (s.idx+1)}

def loop (rows : List Row) : Option Plot := rows.foldlM step initial

end Plot

/-- There is one start point for each process seen, its latest row, at the
index that `sp_idx` has for it. -/
structure Plot.Points (done : List Row) (s : Plot) : Prop where
  latest : ∀ p : ℕ, ∀ q ∈ (ofPid done p).getLast?, ∃ k : ℕ, s.spIdx p = k ∧ s.startPoint[k]? = some q
  only : ∀ (k : ℕ) sp, s.startPoint[k]? = some sp →
    ∃ p : ℕ, sp.pid = p ∧ s.spIdx p = k ∧ sp ∈ (ofPid done p).getLast?

namespace Plot

structure Inv (done : List Row) (s : Plot) : Prop extends Points done s where
  idx : s.idx+1 = s.startPoint.length
  lines : ∀ p : ℤ, s.lines.filter (fun l => l.2.pid = p) = (pairs (ofPid done p)).filter Joined

variable {done : List Row} {s : Plot} {ep q : Row} {p : ℕ}

theorem scan_missing {n i : ℕ} {b : Bool}
    (h : ∀ j sp, i ≤ j → s.startPoint[j]? = some sp → sp.pid ≠ ep.pid) :
    scan ep p n i s b = some (s,b) := by
  induction n generalizing i with
  | zero => rfl
  | succ n ih =>
    rw [scan]
    cases hi : s.startPoint[i]? with
    | none => rfl
    | some sp =>
      simp only [if_neg (h i sp le_rfl hi)]
      exact ih fun j sp hj => h j sp (by omega)

/-- With one entry of the process, at the index `sp_idx` has for it, the inner
loop joins that entry once: the entries after it are of other processes. -/
theorem scan_found {n i k : ℕ} {b : Bool} (hk : s.spIdx p = k)
    (hq : s.startPoint[k]? = some q) (hpid : q.pid = ep.pid)
    (h : ∀ j sp, j ≠ k → s.startPoint[j]? = some sp → sp.pid ≠ ep.pid) (hi : i ≤ k)
    (hn : k < i+n) :
    scan ep p n i s b = some ({s with
      lines := s.lines++if Joined (q,ep) then [(q,ep)] else []
      startPoint := s.startPoint.set k ep},true) := by
  induction n generalizing i with
  | zero => omega
  | succ n ih =>
    rw [scan]
    obtain hlt | rfl := Nat.lt_or_eq_of_le hi
    · have hlen : i < s.startPoint.length := hlt.trans (List.getElem?_eq_some_iff.mp hq).1
      rw [getElem?_eq_getElem hlen]
      simp only [if_neg (h i _ hlt.ne (getElem?_eq_getElem hlen))]
      exact ih hlt (by omega)
    · have hlen := (List.getElem?_eq_some_iff.mp hq).1
      have hjoin : s.join p q ep = some {s with
          lines := s.lines++if Joined (q,ep) then [(q,ep)] else []
          startPoint := s.startPoint.set i ep} := by
        rw [join,hk,index_natCast hlen]
        by_cases hj : Joined (q,ep)
        · simp [hj,show q.cpu = ep.cpu ∧ q.next = 4 ∧ ep.prev = 4 from hj]
        · simp [hj,show ¬ (q.cpu = ep.cpu ∧ q.next = 4 ∧ ep.prev = 4) from hj]
      simp only [hq,hpid,if_true,hjoin,Option.bind_some]
      refine scan_missing fun j sp hj hsp => h j sp (by omega) ?_
      rwa [getElem?_set_ne (by omega)] at hsp

theorem inv_initial : Inv [] initial where
  latest _ _ hq := by cases hq
  only _ _ h := by cases h
  idx := rfl
  lines _ := rfl

theorem mem_getLast?_pid {p : ℤ} (hq : q ∈ (ofPid done p).getLast?) : q.pid = p :=
  of_decide_eq_true (List.mem_filter.mp (mem_of_getLast? hq)).2

theorem Inv.append (hs : Inv done s) (hpid : ep.pid = p) (hl : (ofPid done p).getLast? = none) :
    Inv (done++[ep]) {s with
      startPoint := s.startPoint++[ep]
      idx := s.idx+1
      spIdx := update s.spIdx p (s.idx+1)} where
  idx := by simp [hs.idx]
  lines p' := by
    rw [hs.lines]
    by_cases h : ep.pid = p'
    · have hl' : (ofPid done p').getLast? = none := by rwa [← h,hpid]
      rw [ofPid_concat_of_eq h,pairs_concat,hl']
      simp
    · rw [ofPid_concat_of_ne h]
  latest p' q hq := by
    by_cases h : p' = p
    · rw [h,ofPid_concat_of_eq hpid] at hq
      simp at hq
      exact ⟨s.startPoint.length,by simp [h,hs.idx],by simp [hq]⟩
    · rw [ofPid_concat_other hpid h] at hq
      obtain ⟨k,hk,hsp⟩ := hs.latest p' q hq
      refine ⟨k,by simp [h,hk],?_⟩
      rwa [getElem?_append_left (List.getElem?_eq_some_iff.mp hsp).1]
  only k sp hk := by
    rcases Nat.lt_trichotomy k s.startPoint.length with hlt | rfl | hgt
    · rw [getElem?_append_left hlt] at hk
      obtain ⟨p',hp',hidx,hlast⟩ := hs.only k sp hk
      have hne : p' ≠ p := by
        rintro rfl
        rw [hl] at hlast
        cases hlast
      refine ⟨p',hp',by simp [hne,hidx],?_⟩
      rwa [ofPid_concat_other hpid hne]
    · simp at hk
      subst hk
      exact ⟨p,hpid,by simp [hs.idx],by simp [ofPid_concat_of_eq hpid]⟩
    · rw [getElem?_eq_none (by simp; omega)] at hk
      cases hk

theorem Inv.replace {k : ℕ} (hs : Inv done s) (hpid : ep.pid = p)
    (hl : q ∈ (ofPid done p).getLast?) (hk : s.spIdx p = k) (hq : s.startPoint[k]? = some q) :
    Inv (done++[ep]) {s with
      lines := s.lines++if Joined (q,ep) then [(q,ep)] else []
      startPoint := s.startPoint.set k ep} where
  idx := by simp [hs.idx]
  lines p' := by
    rw [filter_append,hs.lines]
    by_cases h : ep.pid = p'
    · have hl' : (ofPid done p').getLast? = some q := by rwa [← h,hpid]
      rw [ofPid_concat_of_eq h,pairs_concat,hl',filter_append]
      by_cases hj : Joined (q,ep) <;> simp [hj,h]
    · rw [ofPid_concat_of_ne h]
      by_cases hj : Joined (q,ep) <;> simp [hj,h]
  latest p' q' hq' := by
    by_cases h : p' = p
    · rw [h,ofPid_concat_of_eq hpid] at hq'
      simp at hq'
      exact ⟨k,h ▸ hk,by simp [hq',(List.getElem?_eq_some_iff.mp hq).1]⟩
    · rw [ofPid_concat_other hpid h] at hq'
      obtain ⟨k',hk',hsp⟩ := hs.latest p' q' hq'
      refine ⟨k',hk',?_⟩
      rw [getElem?_set_ne]
      · exact hsp
      · rintro rfl
        have heq := hq.symm.trans hsp
        cases heq
        have := mem_getLast?_pid hl
        have := mem_getLast?_pid hq'
        omega
  only k' sp hsp := by
    by_cases h : k' = k
    · subst h
      rw [getElem?_set_self (List.getElem?_eq_some_iff.mp hq).1] at hsp
      cases hsp
      exact ⟨p,hpid,hk,by simp [ofPid_concat_of_eq hpid]⟩
    · rw [getElem?_set_ne (Ne.symm h)] at hsp
      obtain ⟨p',hp',hidx,hlast⟩ := hs.only k' sp hsp
      have hne : p' ≠ p := by
        rintro rfl
        rw [hk] at hidx
        exact h (by exact_mod_cast hidx.symm)
      refine ⟨p',hp',hidx,?_⟩
      rwa [ofPid_concat_other hpid hne]

theorem Inv.step (hs : Inv done s) (hp : p < NPROC) (hpos : 0 < p) (hpid : ep.pid = p) :
    ∃ s', s.step ep = some s' ∧ Inv (done++[ep]) s' := by
  have h0 : ep.pid ≠ 0 := by omega
  have h1 : ep.pid ≠ -1 := by omega
  have hidx : index NPROC ep.pid = some p := by rw [hpid,index_natCast hp]
  rw [Plot.step,if_neg h0,if_neg h1,hidx]
  cases hl : (ofPid done p).getLast? with
  | none =>
    refine ⟨_,?_,hs.append hpid hl⟩
    have hscan : scan ep p s.startPoint.length 0 s false = some (s,false) := by
      refine scan_missing fun j sp _ hsp heq => ?_
      obtain ⟨p',hp',_,hlast⟩ := hs.only j sp hsp
      have : p' = p := by omega
      subst this
      rw [hl] at hlast
      cases hlast
    simp [hscan]
  | some q =>
    obtain ⟨k,hk,hq⟩ := hs.latest p q hl
    refine ⟨_,?_,hs.replace hpid hl hk hq⟩
    have hscan := scan_found (n := s.startPoint.length) (i := 0) (b := false) hk hq
      ((mem_getLast?_pid hl).trans hpid.symm) (fun j sp hj hsp heq => ?_) (Nat.zero_le k)
      (by simpa using (List.getElem?_eq_some_iff.mp hq).1)
    · simp [hscan]
    · obtain ⟨p',hp',hidx,_⟩ := hs.only j sp hsp
      have : p' = p := by omega
      subst this
      omega

end Plot

/-- After any number of rows the start points are the latest rows of the
processes seen, and the segments drawn for a process are its consecutive rows
on one CPU of which the first gets and the second leaves the CPU. -/
theorem plot_lines (rows : List Row)
    (h : ∀ r ∈ rows, ∃ p < Plot.NPROC, 0 < p ∧ r.pid = (p : ℕ)) (n : ℕ) :
    ∃ s, Plot.loop (rows.take n) = some s ∧ Plot.Points (rows.take n) s ∧
      ∀ p : ℤ, s.lines.filter (fun l => l.2.pid = p) = (pairs (ofPid (rows.take n) p)).filter fun l =>
          l.1.cpu = l.2.cpu ∧ l.1.next = 4 ∧ l.2.prev = 4 := by
  have hstep : ∀ done r rest, rows.take n = done++r::rest → ∀ s, Plot.Inv done s →
      ∃ s', s.step r = some s' ∧ Plot.Inv (done++[r]) s' := by
    intro done r rest hrows s hs
    have hr : r ∈ rows.take n := by simp [hrows]
    obtain ⟨p,hp,hpos,hpid⟩ := h r (mem_of_mem_take hr)
    exact hs.step hp hpos hpid
  obtain ⟨s,hs,hinv⟩ := foldlM_returns hstep Plot.inv_initial
  exact ⟨s,hs,hinv.toPoints,hinv.lines⟩

theorem yieldRows_lines : ∃ s, Plot.loop yieldRows = some s ∧ Plot.Points yieldRows s ∧
    ∀ p : ℤ, s.lines.filter (fun l => l.2.pid = p) = (pairs (ofPid yieldRows p)).filter fun l =>
        l.1.cpu = l.2.cpu ∧ l.1.next = 4 ∧ l.2.prev = 4 :=
  plot_lines yieldRows
    (fun r hr => ⟨r.pid.toNat,by revert r; decide,by revert r; decide,by revert r; decide⟩) 4

end Xv6.Scripts
