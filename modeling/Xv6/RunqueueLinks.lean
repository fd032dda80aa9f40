import Mathlib.Data.Fintype.Basic
import Xv6.Links
import Xv6.Machine
import Xv6.Rings

/-!
# Runqueues as linked lists

`enqueue`, `dequeue` and `work_steal` on the pointers of the process structures. The head of a
runqueue is itself a process structure, and all runqueues are threaded through the same table.
Following a null pointer is an error like a panic. `scan` is the loop of `enqueue`, with a bound
that every label of a run carries. `Lists` is what the runqueues are for: a list of processes for
each CPU. Every run on the pointers is a run on the lists.
-/
namespace Xv6.RunqueueLinks
open Function (update update_self update_of_ne)
open Machine Rings Links List

/-- A process structure: the head of a runqueue or one of the process table. -/
inductive Node (n : ℕ) (P : Type)
  | head (r : Fin n)
  | proc (p : P)
  deriving DecidableEq

structure Queues (n : ℕ) (P : Type) where
  ptrs : Pointers (Node n P)
  pid : Node n P → ℤ
  size : Fin n → ℕ

def trap : String := "null pointer"

section
variable {n : ℕ} {P : Type}

def Queues.zero : Queues n P := ⟨⟨fun _ => none,fun _ => none⟩,fun _ => 0,fun _ => 0⟩

/-- The loop of `enqueue` that looks for the pid. -/
def scan (q : Queues n P) [DecidableEq P] (h : Node n P) (pid : ℤ) :
    ℕ → Option (Node n P) → Option (Except String Unit)
  | 0,_ => none
  | _+1,none => some (.error trap)
  | fuel+1,some e =>
    if e = h then some (.ok ())
    else if q.pid e = pid then some (.error "enqueue: push same pid")
    else scan q h pid fuel (q.ptrs.next e)

variable [DecidableEq P]

def initQueue (q : Queues n P) (i : Fin n) : Queues n P where
  ptrs := ⟨update q.ptrs.next (.head i) (some (.head i)),update q.ptrs.prev (.head i) (some (.head i))⟩
  pid := update q.pid (.head i) (-1*(i+1))
  size := update q.size i 0

def runqueueinit (q : Queues n P) : Queues n P := (finRange n).foldl initQueue q

def link (q : Queues n P) (r : Fin n) (p : Node n P) : Except String (Queues n P) :=
  match q.ptrs.prev (.head r) with
  | none => .error trap
  | some tail =>
    .ok {q with ptrs := q.ptrs.append (.head r) tail p,size := update q.size r (q.size r+1)}

/-- `enqueue`, with a bound on the rounds of its loop. -/
def enqueue (q : Queues n P) (r : Fin n) (p : Node n P) (fuel : ℕ) : Option (Except String (Queues n P)) :=
  (scan q (.head r) (q.pid p) fuel (q.ptrs.next (.head r))).map fun found => do
    found
    link q r p

def dequeue (q : Queues n P) (r : Fin n) : Except String (Node n P×Queues n P) :=
  if q.size r = 0 then .error "dequeue : empty runqueue"
  else match q.ptrs.next (.head r) with
  | none => .error trap
  | some p =>
    match q.ptrs.next p with
    | none => .error trap
    | some y =>
      .ok (p,{q with ptrs := q.ptrs.takeFirst (.head r) p y,size := update q.size r (q.size r-1)})

/-- The part of `work_steal` that holds the lock of its target `v`. -/
def stealFrom (q : Queues n P) (cur v : Fin n) (fuel : ℕ) : Option (Except String (Queues n P)) :=
  if q.size v ≠ 0 then
    match dequeue q v with
    | .error m => some (.error m)
    | .ok (p,q) => enqueue q cur p fuel
  else some (.ok q)

/-- What the loop of `work_steal` keeps: `steal_target`, `max_rqsize` and `stealid`. -/
structure Target (n : ℕ) where
  target : Option (Fin n)
  maxSize : ℕ
  stealid : ℤ

def seekStep (q : Queues n P) (cur : Fin n) (t : Target n) (i : Fin n) : Target n :=
  if q.size i > t.maxSize ∧ i ≠ cur then ⟨some i,q.size i,i⟩ else t

def seek (q : Queues n P) (cur : Fin n) : Target n := (finRange n).foldl (seekStep q cur) ⟨none,0,-1⟩

def workSteal (q : Queues n P) (cur : Fin n) (fuel : ℕ) : Option (Except String (Queues n P)) :=
  match (seek q cur).target with
  | none => some (.ok q)
  | some v =>
    if (seek q cur).stealid = 0 then some (.ok q)
    else if v = cur then some (.error "steal itself")
    else stealFrom q cur v fuel

/-! ## Runs -/

/-- `steal` is what `work_steal` does with the target that it has chosen, which need not be
what it would choose now. Other code gives processes their pids. -/
inductive Op (n : ℕ) (P : Type)
  | enqueue (r : Fin n) (p : P)
  | dequeue (r : Fin n)
  | steal (cur v : Fin n)
  | setPid (p : P) (pid : ℤ)
  deriving DecidableEq

/-- One operation, with the bound for the loop of `enqueue`. A panic ends the run. -/
def Queues.step (q : Queues n P) (a : Op n P×ℕ) : Option (Queues n P) :=
  match a.1 with
  | .enqueue r p =>
    match enqueue q r (.proc p) a.2 with
    | some (.ok q') => some q'
    | _ => none
  | .dequeue r =>
    match dequeue q r with
    | .ok (_,q') => some q'
    | .error _ => none
  | .steal cur v =>
    match stealFrom q cur v a.2 with
    | some (.ok q') => some q'
    | _ => none
  | .setPid p pid => some {q with pid := update q.pid (.proc p) pid}

end

section
variable {n : ℕ} {P : Type}

def OnQueue (q : Queues n P) (p : P) : Prop :=
  ∃ r, Relation.ReflTransGen (fun a b => q.ptrs.next a = some b) (.head r) (.proc p)

def Allowed (q : Queues n P) (a : Op n P×ℕ) : Prop :=
  match a.1 with
  | .enqueue _ p => ¬OnQueue q p
  | .dequeue r => q.size r > 0
  | .steal cur v => v ≠ cur
  | .setPid .. => True

/-! ## Lists -/

structure Lists (n : ℕ) (P : Type) where
  pid : P → ℤ
  queue : Fin n → List P

def Lists.Taken (a : Lists n P) (r : Fin n) (pid : ℤ) : Prop := ∃ x ∈ a.queue r, a.pid x = pid

instance (a : Lists n P) (r : Fin n) (pid : ℤ) : Decidable (a.Taken r pid) :=
  inferInstanceAs (Decidable (∃ x ∈ a.queue r, a.pid x = pid))

def Lists.set (a : Lists n P) (r : Fin n) (l : List P) : Lists n P := {a with queue := update a.queue r l}

def Lists.append (a : Lists n P) (r : Fin n) (p : P) : Lists n P := a.set r (a.queue r++[p])

def Lists.step [DecidableEq P] (a : Lists n P) : Op n P → Option (Lists n P)
  | .enqueue r p => if a.Taken r (a.pid p) then none else some (a.append r p)
  | .dequeue r =>
    match a.queue r with
    | [] => none
    | _::l => some (a.set r l)
  | .steal cur v =>
    match a.queue v with
    | [] => some a
    | p::l => if a.Taken cur (a.pid p) then none else some ((a.set v l).append cur p)
  | .setPid p pid => some {a with pid := update a.pid p pid}

/-- The rings of `q` are the lists of `a`, no process is on two of them or twice on one, and the
pointers of the processes on none are null. -/
structure Refines (q : Queues n P) (a : Lists n P) : Prop where
  ring : ∀ r, Ring q.ptrs (.head r) ((a.queue r).map .proc)
  size : ∀ r, q.size r = (a.queue r).length
  pid : ∀ p, q.pid (.proc p) = a.pid p
  nodup : ∀ r, (a.queue r).Nodup
  apart : ∀ {r r' p}, p ∈ a.queue r → p ∈ a.queue r' → r = r'
  clear : ∀ p, (∀ r, p ∉ a.queue r) → q.ptrs.next (.proc p) = none ∧ q.ptrs.prev (.proc p) = none

variable {q q' : Queues n P} {a : Lists n P} {r : Fin n} {p : P} {l : List P}

theorem Lists.set_queue (a : Lists n P) (r : Fin n) (l : List P) (r' : Fin n) :
    (a.set r l).queue r' = if r' = r then l else a.queue r' := Function.update_apply ..

theorem Lists.mem_append {x : P} {r r' : Fin n} :
    x ∈ (a.append r p).queue r' ↔ x ∈ a.queue r' ∨ r' = r ∧ x = p := by
  simp only [Lists.append,Lists.set_queue]
  split_ifs with hr
  · subst hr
    simp
  · simp [hr]

theorem Lists.mem_set {x : P} {r r' : Fin n} {l : List P} (ha : a.queue r = p::l) (hp : p ∉ l)
    (hone : ∀ r', p ∈ a.queue r' → r' = r) :
    x ∈ (a.set r l).queue r' ↔ x ∈ a.queue r' ∧ x ≠ p := by
  simp only [Lists.set_queue]
  split_ifs with hr
  · subst hr
    rw [ha,mem_cons]
    constructor
    · exact fun hx => ⟨.inr hx,fun he => hp (he ▸ hx)⟩
    · exact fun ⟨hx,hne⟩ => hx.resolve_left hne
  · constructor
    · exact fun hx => ⟨hx,fun he => hr (hone r' (he ▸ hx))⟩
    · exact And.left

theorem Lists.steal_mem {x : P} {cur v : Fin n} {l : List P} (ha : a.queue v = p::l) (hp : p ∉ l)
    (hone : ∀ r, p ∈ a.queue r → r = v) :
    (∃ r, x ∈ ((a.set v l).append cur p).queue r) ↔ ∃ r, x ∈ a.queue r := by
  simp only [Lists.mem_append,Lists.mem_set ha hp hone]
  by_cases hx : x = p
  · subst hx
    have hv : x ∈ a.queue v := by
      rw [ha]
      exact mem_cons_self
    exact iff_of_true ⟨cur,.inr ⟨rfl,rfl⟩⟩ ⟨v,hv⟩
  · simp [hx]

theorem Refines.node_nodup (h : Refines q a) (r : Fin n) :
    ((Node.head r : Node n P)::(a.queue r).map .proc).Nodup := by
  rw [nodup_cons]
  refine ⟨by simp,(h.nodup r).map fun x y he => ?_⟩
  cases he
  rfl

theorem Refines.first (h : Refines q a) (ha : a.queue r = p::l) :
    p ∉ l ∧ ∀ r', p ∈ a.queue r' → r' = r := by
  have hd := h.nodup r
  have hp : p ∈ a.queue r := by
    rw [ha]
    exact mem_cons_self
  rw [ha,nodup_cons] at hd
  exact ⟨hd.1,fun r' hp' => h.apart hp' hp⟩

theorem Refines.onQueue_iff (h : Refines q a) : OnQueue q p ↔ ∃ r, p ∈ a.queue r := by
  constructor
  · rintro ⟨r,hr⟩
    have hmem : ∀ y, Relation.ReflTransGen (fun a b => q.ptrs.next a = some b) (.head r) y →
        y ∈ Node.head r::(a.queue r).map .proc := by
      intro y hy
      induction hy with
      | refl => exact mem_cons_self
      | tail _ hyz ih => exact (h.ring r).next_mem ih hyz
    exact ⟨r,by simpa using hmem _ hr⟩
  · rintro ⟨r,hr⟩
    exact ⟨r,(h.ring r).reach (by simp [hr])⟩

theorem Refines.node_apart (h : Refines q a) {r r' : Fin n} (hne : r' ≠ r) {y : Node n P}
    (hy : y ∈ Node.head r'::(a.queue r').map .proc) : y ∉ Node.head r::(a.queue r).map .proc := by
  intro hy'
  cases y with
  | head =>
    simp only [mem_cons,Node.head.injEq,mem_map,reduceCtorEq,and_false,exists_false, or_false] at hy hy'
    exact hne (hy.symm.trans hy')
  | proc =>
    simp only [mem_cons,reduceCtorEq,mem_map,Node.proc.injEq,exists_eq_right, false_or] at hy hy'
    exact hne (h.apart hy hy')

end

section
variable {n : ℕ} {P : Type} [DecidableEq P] {q q' : Queues n P} {a : Lists n P} {r : Fin n} {p : P}
  {l : List P}

/-- The loop of `enqueue` ends at the head or at the pid. -/
theorem scan_halts {b : Node n P} {l : List P} (pid : ℤ)
    (hc : ((b::l.map Node.proc)++[Node.head r]).IsChain (Joined q.ptrs)) :
    Halts (fun fuel => scan q (.head r) pid fuel (q.ptrs.next b))
      (if ∃ x ∈ l, q.pid (.proc x) = pid then .error "enqueue: push same pid" else .ok ()) := by
  induction l generalizing b with
  | nil =>
    have hb : q.ptrs.next b = some (.head r) := (isChain_cons_cons.mp hc).1.1
    rw [hb,if_neg (by simp)]
    exact .last rfl fun n => if_pos rfl
  | cons x l ih =>
    obtain ⟨⟨hb,-⟩,hc⟩ := isChain_cons_cons.mp hc
    rw [hb]
    by_cases hx : q.pid (.proc x) = pid
    · rw [if_pos ⟨x,by simp,hx⟩]
      refine .last rfl fun n => ?_
      rw [scan,if_neg (by simp),if_pos hx]
    · have hiff : (∃ y ∈ x::l, q.pid (.proc y) = pid) ↔ ∃ y ∈ l, q.pid (.proc y) = pid := by
        simp [hx]
      simp only [hiff]
      refine (ih hc).round rfl fun n => ?_
      rw [scan,if_neg (by simp),if_neg hx]

/-- The assignments of `enqueue` append a process that is on no runqueue. -/
theorem link_ok (h : Refines q a) (hp : ∀ r, p ∉ a.queue r) (r : Fin n) :
    ∃ q', link q r (.proc p) = .ok q' ∧ Refines q' (a.append r p) := by
  obtain ⟨k,t,hk⟩ : ∃ k t, Node.head r::(a.queue r).map Node.proc = k++[t] :=
    ⟨_,_,(dropLast_append_getLast (cons_ne_nil _ _)).symm⟩
  have htail := (h.ring r).last hk
  have hnode := h.node_nodup r
  have hfresh : ∀ r', Node.proc p ∉ Node.head r'::(a.queue r').map Node.proc := by
    intro r'
    simpa using hp r'
  have htr : ∀ {r'}, r' ≠ r → ∀ {y}, y ∈ Node.head r'::(a.queue r').map Node.proc → y ≠ t := by
    rintro r' hne y hy rfl
    exact h.node_apart hne hy (by rw [hk]; simp)
  refine ⟨{q with ptrs := q.ptrs.append (.head r) t (.proc p),size := update q.size r (q.size r+1)},
    by rw [link,htail],?_,?_,h.pid,?_,?_,?_⟩
  · intro r'
    simp only [Lists.append,Lists.set_queue]
    split_ifs with hr
    · subst hr
      rw [map_append]
      exact (h.ring r').append hnode (hfresh r') hk
    · refine (h.ring r').congr (fun y hy => ?_) fun y hy => ?_
      · exact append_next_of_ne (fun he => hfresh r' (he ▸ hy)) (htr hr hy)
      · refine append_prev_of_ne (fun he => hfresh r' (he ▸ hy)) ?_
        rintro rfl
        exact h.node_apart hr hy mem_cons_self
  · intro r'
    simp only [Lists.append,Lists.set_queue,Function.update_apply]
    split_ifs with hr
    · subst hr
      rw [h.size,length_append,length_singleton]
    · exact h.size r'
  · intro r'
    simp only [Lists.append,Lists.set_queue]
    split_ifs with hr
    · rw [nodup_append]
      refine ⟨h.nodup r,by simp,fun x hx y hy => ?_⟩
      rw [mem_singleton.mp hy]
      exact fun he => hp r (he ▸ hx)
    · exact h.nodup r'
  · intro r₁ r₂ x h1 h2
    rcases Lists.mem_append.mp h1 with hx | ⟨rfl,rfl⟩
    · rcases Lists.mem_append.mp h2 with hx' | ⟨rfl,rfl⟩
      · exact h.apart hx hx'
      · exact absurd hx (hp r₁)
    · rcases Lists.mem_append.mp h2 with hx' | ⟨rfl,-⟩
      · exact absurd hx' (hp r₂)
      · rfl
  · intro x hx
    have hxp : Node.proc x ≠ (Node.proc p : Node n P) := by
      intro he
      cases he
      exact hx r (Lists.mem_append.mpr (.inr ⟨rfl,rfl⟩))
    have hxa : ∀ r, x ∉ a.queue r := fun r hxr => hx r (Lists.mem_append.mpr (.inl hxr))
    have hxt : Node.proc x ≠ t := by
      rintro rfl
      have hmem : Node.proc x ∈ Node.head r::(a.queue r).map Node.proc := by
        rw [hk]
        simp
      exact hxa r (by simpa using hmem)
    rw [append_next_of_ne hxp hxt,append_prev_of_ne hxp (by simp)]
    exact h.clear x hxa

/-- `enqueue` of a process on no runqueue appends it, or panics for its pid. -/
theorem enqueue_ok (h : Refines q a) (hp : ∀ r, p ∉ a.queue r) (r : Fin n) :
    ∃ q', Refines q' (a.append r p) ∧ Halts (enqueue q r (.proc p))
      (if a.Taken r (a.pid p) then .error "enqueue: push same pid" else .ok q') := by
  obtain ⟨q',hlink,hq'⟩ := link_ok h hp r
  have hscan := (scan_halts (q.pid (.proc p)) (h.ring r)).map fun found => found.bind fun _ => link q r (.proc p)
  have hiff : (∃ x ∈ a.queue r, q.pid (.proc x) = q.pid (.proc p)) ↔ a.Taken r (a.pid p) := by
    simp only [h.pid]
    exact Iff.rfl
  simp only [hiff] at hscan
  refine ⟨q',hq',?_⟩
  split_ifs at hscan ⊢
  · exact hscan
  · rw [← hlink]
    exact hscan

theorem dequeue_ok (h : Refines q a) (ha : a.queue r = p::l) :
    ∃ q', dequeue q r = .ok (.proc p,q') ∧ Refines q' (a.set r l) := by
  have hring := h.ring r
  have hnode := h.node_nodup r
  have hd := h.nodup r
  rw [ha,map_cons] at hring hnode
  rw [ha,nodup_cons] at hd
  have hmem : ∀ {x r'}, x ∈ (a.set r l).queue r' ↔ x ∈ a.queue r' ∧ x ≠ p :=
    Lists.mem_set ha (h.first ha).1 (h.first ha).2
  obtain ⟨y,hy,hnext,hring'⟩ := hring.takeFirst hnode
  have hsize : ¬q.size r = 0 := by
    rw [h.size,ha]
    simp
  have hyr : y ∈ Node.head r::(a.queue r).map Node.proc := by
    rw [ha]
    rcases mem_cons.mp hy with hy | hy
    · exact mem_cons.mpr (.inl hy)
    · simp only [map_cons,mem_cons]
      exact .inr (.inr hy)
  have hpr : Node.proc p ∈ Node.head r::(a.queue r).map Node.proc := by simp [ha]
  refine ⟨{q with ptrs := q.ptrs.takeFirst (.head r) (.proc p) y,size := update q.size r (q.size r-1)},
    ?_,?_,?_,h.pid,?_,?_,?_⟩
  · rw [dequeue,if_neg hsize,hring.first]
    dsimp only
    rw [hnext]
  · intro r'
    simp only [Lists.set_queue]
    split_ifs with hr
    · subst hr
      exact hring'
    · have hother : ∀ {z}, z ∈ Node.head r'::(a.queue r').map Node.proc →
          z ≠ .proc p ∧ z ≠ .head r ∧ z ≠ y := by
        intro z hz
        have hz := h.node_apart hr hz
        refine ⟨?_,?_,?_⟩
        · rintro rfl
          exact hz hpr
        · rintro rfl
          exact hz mem_cons_self
        · rintro rfl
          exact hz hyr
      exact (h.ring r').congr (fun z hz => takeFirst_next_of_ne (hother hz).1 (hother hz).2.1)
        fun z hz => takeFirst_prev_of_ne (hother hz).1 (hother hz).2.2
  · intro r'
    simp only [Lists.set_queue,Function.update_apply]
    split_ifs with hr
    · rw [h.size,ha,length_cons,Nat.add_sub_cancel]
    · exact h.size r'
  · intro r'
    simp only [Lists.set_queue]
    split_ifs with hr
    · exact hd.2
    · exact h.nodup r'
  · intro r₁ r₂ x h1 h2
    exact h.apart (hmem.mp h1).1 (hmem.mp h2).1
  · intro x hx
    by_cases hxp : x = p
    · subst hxp
      rw [takeFirst_next,takeFirst_prev]
      exact ⟨update_self ..,update_self ..⟩
    · have hxa : ∀ r', x ∉ a.queue r' := fun r' hxr => hx r' (hmem.mpr ⟨hxr,hxp⟩)
      have hxy : Node.proc x ≠ y := by
        rintro rfl
        exact hxa r (by simpa using hyr)
      have hne : (Node.proc x : Node n P) ≠ .proc p := fun he => hxp (Node.proc.inj he)
      rw [takeFirst_next_of_ne hne (by simp),takeFirst_prev_of_ne hne hxy]
      exact h.clear x hxa

theorem stealFrom_ok (h : Refines q a) {cur v : Fin n} (hne : v ≠ cur) (ha : a.queue v = p::l) :
    ∃ q', Refines q' ((a.set v l).append cur p) ∧ Halts (stealFrom q cur v)
      (if a.Taken cur (a.pid p) then .error "enqueue: push same pid" else .ok q') := by
  obtain ⟨q₁,hd,h₁⟩ := dequeue_ok h ha
  have hp : ∀ r, p ∉ (a.set v l).queue r := fun r hr =>
    ((Lists.mem_set ha (h.first ha).1 (h.first ha).2).mp hr).2 rfl
  obtain ⟨q₂,h₂,he⟩ := enqueue_ok h₁ hp cur
  have hsize : q.size v ≠ 0 := by
    rw [h.size,ha]
    simp
  have hiff : (a.set v l).Taken cur ((a.set v l).pid p) ↔ a.Taken cur (a.pid p) := by
    simp only [Lists.Taken,Lists.set_queue,if_neg hne.symm]
    exact Iff.rfl
  simp only [hiff] at he
  refine ⟨q₂,h₂,?_⟩
  have hfun : stealFrom q cur v = enqueue q₁ cur (.proc p) := by
    funext fuel
    rw [stealFrom,if_pos hsize,hd]
  rwa [hfun]

theorem initQueue_of_ne (q : Queues n P) (i : Fin n) {y : Node n P} (hy : y ≠ .head i) :
    (initQueue q i).ptrs.next y = q.ptrs.next y ∧ (initQueue q i).ptrs.prev y = q.ptrs.prev y ∧
      (initQueue q i).pid y = q.pid y :=
  ⟨update_of_ne hy _ q.ptrs.next,update_of_ne hy _ q.ptrs.prev,update_of_ne hy _ q.pid⟩

/-- The heads that the loop of `runqueueinit` has met point at themselves. -/
theorem initQueue_fold (is : List (Fin n)) (q : Queues n P) :
    (∀ i, i ∈ is ∨ Joined q.ptrs (.head i) (.head i) ∧ q.size i = 0 →
      Joined (is.foldl initQueue q).ptrs (.head i) (.head i) ∧ (is.foldl initQueue q).size i = 0) ∧
    ∀ p, (is.foldl initQueue q).ptrs.next (.proc p) = q.ptrs.next (.proc p) ∧
      (is.foldl initQueue q).ptrs.prev (.proc p) = q.ptrs.prev (.proc p) ∧
      (is.foldl initQueue q).pid (.proc p) = q.pid (.proc p) := by
  induction is generalizing q with
  | nil => exact ⟨fun i hi => hi.resolve_left not_mem_nil,fun p => ⟨rfl,rfl,rfl⟩⟩
  | cons j is ih =>
    obtain ⟨hheads,hprocs⟩ := ih (initQueue q j)
    refine ⟨fun i hi => hheads i ?_,fun p => ?_⟩
    · by_cases hij : i = j
      · subst hij
        exact .inr ⟨⟨update_self ..,update_self ..⟩,update_self ..⟩
      · rcases hi with hi | ⟨⟨hn,hp⟩,hs⟩
        · exact .inl ((mem_cons.mp hi).resolve_left hij)
        · have hne : (Node.head i : Node n P) ≠ .head j := fun he => hij (Node.head.inj he)
          obtain ⟨hn',hp',-⟩ := initQueue_of_ne q j hne
          exact .inr ⟨⟨hn'.trans hn,hp'.trans hp⟩,(update_of_ne hij _ q.size).trans hs⟩
    · obtain ⟨hn,hp,hpid⟩ := hprocs p
      obtain ⟨hn',hp',hpid'⟩ := initQueue_of_ne q j (nofun : (Node.proc p : Node n P) ≠ .head j)
      exact ⟨hn.trans hn',hp.trans hp',hpid.trans hpid'⟩

theorem runqueueinit_ok : Refines (runqueueinit (.zero : Queues n P)) ⟨fun _ => 0,fun _ => []⟩ := by
  obtain ⟨hheads,hprocs⟩ := initQueue_fold (finRange n) (.zero : Queues n P)
  refine ⟨fun r => ?_,fun r => ?_,fun p => (hprocs p).2.2,fun r => nodup_nil,?_,fun p _ => ?_⟩
  · exact isChain_cons_cons.mpr ⟨(hheads r (.inl (mem_finRange r))).1,isChain_singleton _⟩
  · exact (hheads r (.inl (mem_finRange r))).2
  · intro r r' p hp
    cases hp
  · exact ⟨(hprocs p).1,(hprocs p).2.1⟩

theorem Refines.step {x : Op n P×ℕ} (h : Refines q a) (hok : Allowed q x) (hs : q.step x = some q') :
    ∃ a', a.step x.1 = some a' ∧ Refines q' a' := by
  obtain ⟨op,fuel⟩ := x
  cases op with
  | enqueue r p =>
    have hp : ∀ r, p ∉ a.queue r := fun r hr => hok (h.onQueue_iff.mpr ⟨r,hr⟩)
    obtain ⟨q₁,h₁,he⟩ := enqueue_ok h hp r
    simp only [Queues.step] at hs
    split at hs
    · rename_i q₂ hq₂
      cases hs
      have heq := he.eq hq₂
      split_ifs at heq with ht
      cases heq
      exact ⟨_,if_neg ht,h₁⟩
    · cases hs
  | dequeue r =>
    cases ha : a.queue r with
    | nil =>
      have hpos : q.size r > 0 := hok
      rw [h.size,ha] at hpos
      exact absurd hpos (by simp)
    | cons =>
      obtain ⟨q₁,hd,h₁⟩ := dequeue_ok h ha
      simp only [Queues.step,hd] at hs
      cases hs
      exact ⟨_,by simp only [Lists.step,ha],h₁⟩
  | steal cur v =>
    cases ha : a.queue v with
    | nil =>
      have hzero : q.size v = 0 := by
        rw [h.size,ha]
        rfl
      simp only [Queues.step,stealFrom,hzero,ne_eq,not_true_eq_false,if_false] at hs
      cases hs
      exact ⟨a,by simp only [Lists.step,ha],h⟩
    | cons p l =>
      obtain ⟨q₁,h₁,he⟩ := stealFrom_ok h hok ha
      simp only [Queues.step] at hs
      split at hs
      · rename_i q₂ hq₂
        cases hs
        have heq := he.eq hq₂
        split_ifs at heq with ht
        cases heq
        exact ⟨_,by simp only [Lists.step,ha,if_neg ht],h₁⟩
      · cases hs
  | setPid p pid =>
    cases hs
    refine ⟨_,rfl,h.ring,h.size,fun p' => ?_,h.nodup,h.apart,h.clear⟩
    simp only [Function.update_apply,Node.proc.injEq]
    split_ifs
    · rfl
    · exact h.pid p'

def listsAfter (op : ℕ → Op n P) : ℕ → Lists n P
  | 0 => ⟨fun _ => 0,fun _ => []⟩
  | m+1 => ((listsAfter op m).step (op m)).getD (listsAfter op m)

theorem listsAfter_refines {m : ℕ} (t : Trace Queues.step (runqueueinit (.zero : Queues n P)) m)
    (hok : ∀ j < m, Allowed (t.state j) (t.label j)) {j : ℕ} (hj : j ≤ m) :
    Refines (t.state j) (listsAfter (fun i => (t.label i).1) j) := by
  induction j with
  | zero =>
    rw [t.start]
    exact runqueueinit_ok
  | succ j ih =>
    obtain ⟨a',ha,h⟩ := (ih (by omega)).step (hok j (by omega)) (t.next j (by omega))
    rw [listsAfter,ha]
    exact h

/-- Runqueues are FIFO lists, in every run and for any number of CPUs. -/
theorem runqueues_fifo {m : ℕ} (t : Trace Queues.step (runqueueinit (.zero : Queues n P)) m)
    (hok : ∀ j < m, Allowed (t.state j) (t.label j)) :
    ∃ a : ℕ → Lists n P, (a 0 = ⟨fun _ => 0,fun _ => []⟩) ∧
      (∀ j < m, (a j).step (t.label j).1 = some (a (j+1))) ∧
      ∀ j ≤ m, Refines (t.state j) (a j) ∧
        (∀ r p, ¬OnQueue (t.state j) p → ∃ q', Refines q' ((a j).append r p) ∧
          Halts (enqueue (t.state j) r (.proc p))
            (if (a j).Taken r ((a j).pid p) then .error "enqueue: push same pid" else .ok q')) ∧
        (∀ r p l, (a j).queue r = p::l → ∃ q', dequeue (t.state j) r = .ok (.proc p,q') ∧
          Refines q' ((a j).set r l) ∧ q'.ptrs.next (.proc p) = none ∧ q'.ptrs.prev (.proc p) = none) ∧
        ∀ cur v p l, v ≠ cur → (a j).queue v = p::l → ∃ q', Refines q' (((a j).set v l).append cur p) ∧
          Halts (stealFrom (t.state j) cur v)
            (if (a j).Taken cur ((a j).pid p) then .error "enqueue: push same pid" else .ok q') ∧
          ∀ x, (∃ r, x ∈ (((a j).set v l).append cur p).queue r) ↔ ∃ r, x ∈ (a j).queue r := by
  have href := fun {j} (hj : j ≤ m) => listsAfter_refines t hok hj
  refine ⟨listsAfter fun i => (t.label i).1,rfl,fun j hj => ?_,fun j hj => ⟨href hj,?_,?_,?_⟩⟩
  · obtain ⟨a',ha,-⟩ := (href hj.le).step (hok j hj) (t.next j hj)
    rw [ha,listsAfter,ha]
    rfl
  · intro r p hp
    exact enqueue_ok (href hj) (fun r hr => hp ((href hj).onQueue_iff.mpr ⟨r,hr⟩)) r
  · intro r p l hl
    obtain ⟨q',hd,h'⟩ := dequeue_ok (href hj) hl
    obtain ⟨hp,hone⟩ := (href hj).first hl
    exact ⟨q',hd,h',h'.clear p fun r' hr' => ((Lists.mem_set hl hp hone).mp hr').2 rfl⟩
  · intro cur v p l hne hl
    obtain ⟨q',h',hs⟩ := stealFrom_ok (href hj) hne hl
    obtain ⟨hp,hone⟩ := (href hj).first hl
    exact ⟨q',h',hs,fun x => Lists.steal_mem hl hp hone⟩

def handedOn : List (Op 2 ℕ×ℕ) := [(.enqueue 0 7,1),(.steal 1 0,1),(.dequeue 1,0)]

theorem handedOn_fifo : ∃ t : Trace Queues.step (runqueueinit (.zero : Queues 2 ℕ)) 3,
    ∃ a : ℕ → Lists 2 ℕ, a 0 = ⟨fun _ => 0,fun _ => []⟩ ∧
      (∀ j < 3, (a j).step (t.label j).1 = some (a (j+1))) ∧ ∀ j ≤ 3, Refines (t.state j) (a j) := by
  have hrun : (run Queues.step (runqueueinit (.zero : Queues 2 ℕ)) handedOn).isSome = true := by
    decide +kernel
  let t : Trace Queues.step (runqueueinit (.zero : Queues 2 ℕ)) 3 :=
    Trace.ofRun _ handedOn (.dequeue 0,0) hrun
  have hok : ∀ j < 3, Allowed (t.state j) (t.label j) := by
    intro j hj
    match j with
    | 0 =>
      intro hq
      obtain ⟨r,hr⟩ := (runqueueinit_ok (n := 2) (P := ℕ)).onQueue_iff.mp hq
      cases hr
    | 1 =>
      change (0 : Fin 2) ≠ 1
      decide
    | 2 =>
      change ((run Queues.step (runqueueinit (.zero : Queues 2 ℕ)) (handedOn.take 2)).getD
        (runqueueinit .zero)).size 1 > 0
      decide +kernel
  obtain ⟨a,h0,hsteps,hall⟩ := runqueues_fifo t hok
  exact ⟨t,a,h0,hsteps,fun j hj => (hall j hj).1⟩

/-! ## The choice of work_steal -/

/-- The loop of `work_steal` has met the runqueues `seen` and kept a longest one. -/
structure Best (q : Queues n P) (cur : Fin n) (seen : List (Fin n)) (t : Target n) : Prop where
  none : t.target = none → t.maxSize = 0
  some : ∀ v, t.target = some v → v ≠ cur ∧ t.maxSize = q.size v ∧ 0 < q.size v ∧ t.stealid = v
  most : ∀ i ∈ seen, i ≠ cur → q.size i ≤ t.maxSize

omit [DecidableEq P] in
theorem Best.step {cur i : Fin n} {seen : List (Fin n)} {t : Target n} (h : Best q cur seen t) :
    Best q cur (seen++[i]) (seekStep q cur t i) := by
  unfold seekStep
  split_ifs with hi
  · refine ⟨nofun,fun v hv => ?_,fun j hj hne => ?_⟩
    · cases hv
      exact ⟨hi.2,rfl,by omega,rfl⟩
    · rcases List.mem_append.mp hj with hj | hj
      · have := h.most j hj hne
        dsimp only
        omega
      · rw [mem_singleton.mp hj]
  · refine ⟨h.none,h.some,fun j hj hne => ?_⟩
    rcases List.mem_append.mp hj with hj | hj
    · exact h.most j hj hne
    · rw [mem_singleton.mp hj] at hne ⊢
      by_contra hlt
      exact hi ⟨by omega,hne⟩

omit [DecidableEq P] in
theorem Best.fold {cur : Fin n} {seen is : List (Fin n)} {t : Target n} (h : Best q cur seen t) :
    Best q cur (seen++is) (is.foldl (seekStep q cur) t) := by
  induction is generalizing seen t with
  | nil =>
    rw [append_nil]
    exact h
  | cons i is ih =>
    have hi := ih (h.step (i := i))
    rwa [append_assoc,singleton_append] at hi

omit [DecidableEq P] in
theorem seek_best (q : Queues n P) (cur : Fin n) : Best q cur (finRange n) (seek q cur) := by
  have hstart : Best q cur [] ⟨none,0,-1⟩ := ⟨fun _ => rfl,nofun,fun _ h => absurd h not_mem_nil⟩
  exact hstart.fold

end
end Xv6.RunqueueLinks
