import Xv6.Monitor

/-!
# The disk driver

`iderw` puts a buffer on `idequeue`, starts the disk if the queue was empty, and sleeps until the
buffer is in step with the disk; `ideintr` completes the request at the head of the queue and starts
the next one. The device executes its command without error and then raises one interrupt. The
function of `memide.c` copies the block at once.

What the caller has stored in its locked buffer is an argument of `iderw`. A block is a sector. A
`panic` is a call that ends with its message. Beside the driver's data are kept the requests in
their order, the commands started, the requests completed and the one that `ideintr` is serving.
-/
namespace Xv6.Ide
open Machine Monitor Function List

def FSSIZE : ℕ := 1000

abbrev Block := ℕ → ℕ

abbrev Disk := ℕ → Block

structure Buf where
  valid : Bool
  dirty : Bool
  dev : ℕ
  blockno : ℕ
  data : Block

/-- `(b->flags & (B_VALID|B_DIRTY)) == B_VALID`. -/
def Buf.inSync (b : Buf) : Prop := b.valid = true ∧ b.dirty = false

instance (b : Buf) : Decidable b.inSync := inferInstanceAs (Decidable (_ ∧ _))

def memIderw (disksize : ℕ) (locked : Bool) (memdisk : Disk) (b : Buf) : Except String (Buf×Disk) :=
  if ¬ locked then .error "iderw: buf not locked"
  else if b.inSync then .error "iderw: nothing to do"
  else if b.dev ≠ 1 then .error "iderw: request not for disk 1"
  else if b.blockno ≥ disksize then .error "iderw: block out of range"
  else if b.dirty then .ok ({b with dirty := false, valid := true},update memdisk b.blockno b.data)
  else .ok ({b with data := memdisk b.blockno, valid := true},memdisk)

/-! ### The device -/

structure Command where
  write : Bool
  drive : ℕ
  sector : ℕ
  data : Block

/-- `cmd` is the command under way, `reg` the sector a read has fetched, `irq` an
interrupt that is not served yet. -/
structure Device where
  disk : ℕ → Disk
  cmd : Option Command
  reg : Block
  irq : Bool

def Device.finish (v : Device) : Option Device :=
  v.cmd.map fun c =>
    if c.write then
      {v with disk := update v.disk c.drive (update (v.disk c.drive) c.sector c.data), cmd := none, irq := true}
    else {v with reg := v.disk c.drive c.sector, cmd := none, irq := true}

/-! ### The driver -/

section
variable {n m : ℕ}

structure Driver (m : ℕ) where
  buf : Fin m → Buf
  qnext : Fin m → Option (Fin m)
  idequeue : Option (Fin m)
  device : Device
  requests : List (Fin m×Buf)
  started : List (Fin m)
  completed : List (Fin m×Buf×Buf)
  serving : Option (Fin m)

/-- The end of the queue: `for(pp=&idequeue; *pp; pp=&(*pp)->qnext)`. -/
def lastFrom (qnext : Fin m → Option (Fin m)) : ℕ → Fin m → Fin m
  | 0,b => b
  | fuel+1,b => match qnext b with
    | none => b
    | some c => lastFrom qnext fuel c

def Driver.append (d : Driver m) (b : Fin m) : Driver m :=
  let qnext := update d.qnext b none
  match d.idequeue with
  | none => {d with qnext := qnext, idequeue := some b}
  | some h => {d with qnext := update qnext (lastFrom qnext m h) (some b)}

def Driver.request (d : Driver m) (b : Fin m) (c : Buf) : Driver m :=
  {d.append b with buf := update d.buf b c, requests := d.requests++[(b,c)]}

def command (b : Buf) : Command := ⟨b.dirty,b.dev%2,b.blockno%2^28,b.data⟩

def Driver.idestart (d : Driver m) (b : Fin m) : Driver m :=
  {d with
    device := {d.device with cmd := some (command (d.buf b))}
    started := d.started++[b]}

def Driver.complete (d : Driver m) (b : Fin m) (data : Block) : Driver m :=
  let after := {d.buf b with data := data, valid := true, dirty := false}
  {d with buf := update d.buf b after, completed := d.completed++[(b,d.buf b,after)], serving := none}

/-- Points of the code after `acquire(&idelock)`; `iderw` carries the contents of its buffer. -/
inductive Point (m : ℕ) where
  | iderw (b : Fin m) (c : Buf)
  | check (b : Fin m)
  | start (b : Fin m)
  | wait (b : Fin m)
  | ideintr
  | transfer (b : Fin m)
  | finish (b : Fin m)
  | next
  | restart (b : Fin m)
  | done

/-- `idestart(b)`, which waits while the device is busy, and then `l`. -/
def starting (d : Driver m) (b : Fin m) (self l : Point m) :
    Act (Driver m) (Point m) (Fin m) (Except String Unit) :=
  if (d.buf b).blockno ≥ FSSIZE then .leave d (.error "incorrect blockno")
  else if d.device.cmd.isSome then .goto d self
  else .goto (d.idestart b) l

def code (d : Driver m) (_ : Bool) : Point m → Act (Driver m) (Point m) (Fin m) (Except String Unit)
  | .iderw b c =>
    if c.inSync then .leave d (.error "iderw: nothing to do")
    else .goto (d.request b c) (.check b)
  | .check b => if d.idequeue = some b then .goto d (.start b) else .goto d (.wait b)
  | .start b => starting d b (.start b) (.wait b)
  | .wait b => if (d.buf b).inSync then .leave d (.ok ()) else .sleep b (.wait b)
  | .ideintr => match d.idequeue with
    | none => .leave d (.ok ())
    | some b =>
      .goto {d with idequeue := d.qnext b, serving := some b, device := {d.device with irq := false}}
        (.transfer b)
  | .transfer b =>
    if (d.buf b).dirty then .goto (d.complete b (d.buf b).data) (.finish b)
    else if d.device.cmd.isSome then .goto d (.transfer b)
    else .goto (d.complete b d.device.reg) (.finish b)
  | .finish b => .wakeup b .next
  | .next => match d.idequeue with
    | none => .goto d .done
    | some b => .goto d (.restart b)
  | .restart b => starting d b (.restart b) .done
  | .done => .leave d (.ok ())

def Point.key : Point m → Option (Fin m)
  | .iderw b _ | .check b | .start b | .wait b => some b
  | _ => none

abbrev IdeState (n m : ℕ) := State (Fin n) (Driver m) (Point m) (Fin m)

def Pending (c : Buf) : Prop := ¬ c.inSync ∧ c.dev = 1 ∧ c.blockno < FSSIZE

instance (c : Buf) : Decidable (Pending c) := inferInstanceAs (Decidable (_ ∧ _))

def enabled (s : IdeState n m) (_ : Fin n) : Point m → Bool
  | .iderw b c => Pending c ∧ ∀ u, (s.thread u).point.bind Point.key ≠ some b
  | .ideintr => true
  | _ => false

def system (n m : ℕ) : System (Fin n) (Driver m) (Point m) (Fin m) (Except String Unit) Unit where
  code := code
  enabled := enabled
  env s _ := s.data.device.finish.map fun v => {s.data with device := v}

def Genuine (d : Driver m) (_ : Bool) : Point m → Prop
  | .ideintr => d.idequeue.isSome → d.device.irq = true
  | _ => True

instance (d : Driver m) (k : Bool) : (l : Point m) → Decidable (Genuine d k l)
  | .ideintr => inferInstanceAs (Decidable (_ → _))
  | .iderw _ _ | .check _ | .start _ | .wait _ | .transfer _ | .finish _ | .next | .restart _ | .done =>
    isTrue trivial

def init (n : ℕ) (buf : Fin m → Buf) (disk : ℕ → Disk) : IdeState n m where
  data := ⟨buf,fun _ => none,none,⟨disk,none,fun _ => 0,false⟩,[],[],[],none⟩
  lock := none
  ptable := none
  thread _ := .out
  killed _ := false

/-! ### The queue -/

def Linked (qnext : Fin m → Option (Fin m)) : Option (Fin m) → List (Fin m) → Prop
  | p,[] => p = none
  | p,b::q => p = some b ∧ Linked qnext (qnext b) q

variable {qnext : Fin m → Option (Fin m)} {p : Option (Fin m)} {q : List (Fin m)}

theorem Linked.unique {q' : List (Fin m)} (h : Linked qnext p q) (h' : Linked qnext p q') : q = q' := by
  induction q generalizing p q' with
  | nil =>
    cases q' with
    | nil => rfl
    | cons => simp [Linked] at h h'; simp [h] at h'
  | cons b q ih =>
    cases q' with
    | nil => simp [Linked] at h h'; simp [h'] at h
    | cons c =>
      obtain rfl : b = c := Option.some_injective _ (h.1.symm.trans h'.1)
      rw [ih h.2 h'.2]

theorem Linked.eq_nil (h : Linked qnext none q) : q = [] := by
  cases q with
  | nil => rfl
  | cons => cases h.1

variable {b : Fin m}

theorem Linked.eq_cons (h : Linked qnext (some b) q) : ∃ q', q = b::q' := by
  cases q with
  | nil => cases h
  | cons c q => exact ⟨q,by rw [Option.some_injective _ h.1]⟩

theorem Linked.congr {qnext' : Fin m → Option (Fin m)}
    (h : Linked qnext p q) (he : ∀ b ∈ q, qnext' b = qnext b) : Linked qnext' p q := by
  induction q generalizing p with
  | nil => exact h
  | cons b q ih =>
    refine ⟨h.1,?_⟩
    rw [he b (by simp)]
    exact ih h.2 fun c hc => he c (by simp [hc])

theorem Linked.getLast?_eq {x : Fin m} {fuel : ℕ}
    (hl : Linked qnext (some x) q) (hfuel : q.length ≤ fuel+1) :
    q.getLast? = some (lastFrom qnext fuel x) := by
  induction q generalizing x fuel with
  | nil => cases hl
  | cons c q ih =>
    obtain ⟨hc,hl⟩ := hl
    obtain rfl : x = c := Option.some_injective _ hc
    cases q with
    | nil =>
      cases fuel with
      | zero => rfl
      | succ fuel =>
        rw [lastFrom,show qnext x = none from hl]
        rfl
    | cons c q =>
      cases fuel with
      | zero => simp at hfuel
      | succ fuel =>
        have hnext : qnext x = some c := hl.1
        rw [hnext] at hl
        rw [lastFrom,hnext,getLast?_cons_cons]
        exact ih hl (by simpa using hfuel)

theorem Linked.concat {x : Fin m} (hl : Linked qnext p q) (hnd : q.Nodup) (hx : q.getLast? = some x) (hb : b ∉ q)
    (hnone : qnext b = none) : Linked (update qnext x (some b)) p (q++[b]) := by
  induction q generalizing p with
  | nil => cases hx
  | cons c q ih =>
    refine ⟨hl.1,?_⟩
    cases q with
    | nil =>
      obtain rfl : c = x := by simpa using hx
      have hbc : b ≠ c := by simpa using hb
      simp [Linked,hbc,hnone]
    | cons =>
      rw [getLast?_cons_cons] at hx
      have hcx : c ≠ x := fun he =>
        (nodup_cons.mp hnd).1 (he ▸ mem_of_getLast? hx)
      rw [update_of_ne hcx]
      exact ih hl.2 hnd.of_cons hx fun hm => hb (mem_cons_of_mem _ hm)

variable {d : Driver m}

theorem Linked.append (hl : Linked d.qnext d.idequeue q)
    (hnd : q.Nodup) (hb : b ∉ q) : Linked (d.append b).qnext (d.append b).idequeue (q++[b]) := by
  have hl' : Linked (update d.qnext b none) d.idequeue q :=
    hl.congr fun c hc => update_of_ne (fun he : c = b => hb (he ▸ hc)) _ _
  unfold Driver.append
  cases hq : d.idequeue with
  | none =>
    rw [hq] at hl'
    cases q with
    | nil => exact ⟨rfl,by simp [Linked]⟩
    | cons => cases hl'.1
  | some =>
    rw [hq] at hl'
    have hlen : q.length ≤ m+1 := by
      have := hnd.length_le_card
      simp only [Fintype.card_fin] at this
      omega
    exact hl'.concat hnd (hl'.getLast?_eq hlen) hb (by simp)

/-! ### What the driver knows -/

/-- The requests completed so far, served by `memide.c` one after the other. -/
inductive Replays (disk : Disk) : List (Fin m×Buf×Buf) → Disk → Prop
  | nil : Replays disk [] disk
  | snoc {l d b before after d'} : Replays disk l d →
      memIderw FSSIZE true d before = .ok (after,d') → Replays disk (l++[(b,before,after)]) d'

def effect (c : Buf) (disk : Disk) : Disk := if c.dirty then update disk c.blockno c.data else disk

variable {c : Buf}

theorem memIderw_ok (h : Pending c) (disk : Disk) : memIderw FSSIZE true disk c =
    .ok ({c with data := if c.dirty then c.data else disk c.blockno, valid := true, dirty := false},
      effect c disk) := by
  obtain ⟨hsync,hdev,hblock⟩ := h
  unfold memIderw
  rw [if_neg (by simp),if_neg hsync,if_neg (by simp [hdev]),if_neg (by simpa using hblock)]
  unfold effect
  cases hd : c.dirty <;> simp

/-- The device has nothing to do, works for buffer `c`, or has done so. -/
inductive Phase (v : Device) (disk : Disk) : Option Buf → Prop
  | idle : v.cmd = none → v.irq = false → v.disk 1 = disk → Phase v disk none
  | busy {c : Buf} : v.cmd = some (command c) → v.irq = false → v.disk 1 = disk → Phase v disk (some c)
  | finished {c : Buf} : v.cmd = none → v.irq = true → v.disk 1 = effect c disk →
      (c.dirty = false → v.reg = disk c.blockno) → Phase v disk (some c)

/-- The queue `q`, behind the request that is being served, with `run` of them started. -/
structure Queue (disk₀ : Disk) (d : Driver m) (q run : List (Fin m)) (disk : Disk) : Prop where
  linked : Linked d.qnext d.idequeue q
  nodup : (d.serving.toList++q).Nodup
  pending : ∀ b ∈ d.serving.toList++q, Pending (d.buf b)
  requests : d.requests =
    d.completed.map (fun e => (e.1,e.2.1))++(d.serving.toList++q).map fun b => (b,d.buf b)
  started : d.started = d.completed.map (fun e => e.1)++run
  replays : Replays disk₀ d.completed disk

def Stopped (disk₀ : Disk) (d : Driver m) (q : List (Fin m)) : Prop :=
  ∃ disk, d.serving = none ∧ Queue disk₀ d q [] disk ∧ Phase d.device disk none

def Free (disk₀ : Disk) (d : Driver m) : Prop :=
  ∃ q disk, d.serving = none ∧ Queue disk₀ d q (q.take 1) disk ∧ Phase d.device disk (q.head?.map d.buf)

def Queued (d : Driver m) (b : Fin m) : Prop :=
  d.serving = some b ∨ ∃ q, Linked d.qnext d.idequeue q ∧ b ∈ q

def Served (d : Driver m) (b : Fin m) : Prop :=
  Queued d b ∨ (d.buf b).inSync ∧ ∃ before, (b,before,d.buf b) ∈ d.completed

def assertions (disk₀ : Disk) : Assertions (Fin m) (Driver m) (Point m) (Fin m) where
  free := Free disk₀
  holds
    | .iderw b c,d => Free disk₀ d ∧ Pending c ∧ ¬ Queued d b
    | .check b,d => Stopped disk₀ d [b] ∨ Free disk₀ d ∧ d.idequeue ≠ some b ∧ Served d b
    | .start b,d => Stopped disk₀ d [b]
    | .wait b,d => Free disk₀ d ∧ Served d b
    | .ideintr,d | .done,d => Free disk₀ d
    | .transfer b,d => ∃ q disk, d.serving = some b ∧ Queue disk₀ d q [b] disk ∧ d.device.cmd = none ∧
        d.device.irq = false ∧ d.device.disk 1 = effect (d.buf b) disk ∧
        ((d.buf b).dirty = false → d.device.reg = disk (d.buf b).blockno)
    | .finish _,d | .next,d => ∃ q, Stopped disk₀ d q
    | .restart b,d => ∃ q, Stopped disk₀ d (b::q)
  waiting
    | .iderw b c,d => Pending c ∧ ¬ Queued d b
    | .wait b,d => Served d b
    | .ideintr,_ => True
    | _,_ => False
  sleeping
    | c,.wait b,d => c = b ∧ Served d b
    | _,_,_ => False
  claims b d := Queued d b

variable {disk₀ disk : Disk} {run : List (Fin m)}

theorem queued_iff
    (h : Queue disk₀ d q run disk) (b : Fin m) : Queued d b ↔ d.serving = some b ∨ b ∈ q := by
  refine or_congr_right ⟨fun ⟨q',hl,hb⟩ => ?_,fun hb => ⟨q,h.linked,hb⟩⟩
  rwa [← hl.unique h.linked]

theorem Queue.not_inSync (h : Queue disk₀ d q run disk) (hb : Queued d b) : ¬ (d.buf b).inSync := by
  refine (h.pending b ?_).1
  rcases (queued_iff h b).mp hb with hs | hm
  · simp [hs]
  · simp [hm]

/-- The frame of a step that changes only the queue and the buffers of `mine`. -/
theorem frame_of {others : Point m → Prop} {mine : Fin m → Prop} {d' : Driver m}
    (hserved : ∀ b, others (.wait b) → Served d b → Served d' b)
    (hqueued : ∀ b, Queued d' b → Queued d b ∨ mine b)
    (hmine : ∀ b c, others (.iderw b c) → ¬ mine b) :
    (assertions disk₀).Frame others mine d d' := by
  refine ⟨fun l ho hl => ?_,fun c l ho hl => ?_,hqueued⟩
  · cases l with
    | iderw b c => exact ⟨hl.1,fun hq => (hqueued b hq).elim hl.2 (hmine b c ho)⟩
    | wait b => exact hserved b ho hl
    | _ => exact hl
  · cases l with
    | wait b => exact ⟨hl.1,hserved b ho hl.2⟩
    | _ => exact hl

theorem append_eq (d : Driver m) (b : Fin m) : d.append b =
    {d with qnext := (d.append b).qnext, idequeue := (d.append b).idequeue} := by
  unfold Driver.append
  cases d.idequeue <;> rfl

theorem Queue.request (h : Queue disk₀ d q run disk) (hs : d.serving = none) (hc : Pending c)
    (hb : b ∉ q) : (d.request b c).serving = none ∧ Queue disk₀ (d.request b c) (q++[b]) run disk := by
  have hserv : (d.request b c).serving = none := by
    rw [Driver.request,append_eq]
    exact hs
  have hnd : q.Nodup := by simpa [hs] using h.nodup
  have hbuf : ∀ b', (d.request b c).buf b' = update d.buf b c b' := fun _ => rfl
  have hold : ∀ b' ∈ q, (d.request b c).buf b' = d.buf b' := fun b' hb' => by
    rw [hbuf,update_of_ne fun he : b' = b => hb (he ▸ hb')]
  refine ⟨hserv,h.linked.append hnd hb,?_,?_,?_,?_,?_⟩
  · rw [hserv]
    simpa using nodup_append.mpr ⟨hnd,nodup_singleton b,by
      rintro x hx y hy rfl
      exact hb (mem_singleton.mp hy ▸ hx)⟩
  · rw [hserv]
    intro b' hb'
    have hb' : b' ∈ q ∨ b' = b := by simpa using hb'
    rcases hb' with hm | rfl
    · rw [hold b' hm]
      exact h.pending b' (by simp [hm])
    · rw [hbuf,update_self]
      exact hc
  · have hreq : (d.request b c).requests = d.requests++[(b,c)] := rfl
    have hcomp : (d.request b c).completed = d.completed := by
      rw [Driver.request,append_eq]
    have hmap : q.map (fun b' => (b',(d.request b c).buf b')) = q.map fun b' => (b',d.buf b') :=
      map_congr_left fun b' hb' => by rw [hold b' hb']
    rw [hreq,hcomp,hserv,h.requests,hs]
    simp only [Option.toList_none,nil_append,map_append,hmap]
    simp [hbuf]
  · rw [Driver.request,append_eq]
    exact h.started
  · rw [Driver.request,append_eq]
    exact h.replays

theorem request_ok (h : Free disk₀ d) (hc : Pending c) (hb : ¬ Queued d b) :
    (assertions disk₀).holds (.check b) (d.request b c) ∧
      (assertions disk₀).Frame (Apart Point.key (.iderw b c)) (fun k => some b = some k) d
        (d.request b c) := by
  obtain ⟨q,disk,hs,hq,hph⟩ := h
  have hbq : b ∉ q := fun hm => hb ((queued_iff hq b).mpr (.inr hm))
  obtain ⟨hs',hq'⟩ := hq.request hs hc hbq
  have hdev : (d.request b c).device = d.device := by
    rw [Driver.request,append_eq]
  refine ⟨?_,frame_of ?_ ?_ ?_⟩
  · cases q with
    | nil => exact .inl ⟨disk,hs',hq',by rw [hdev]; exact hph⟩
    | cons x q =>
      have hbx : b ≠ x := fun he => hbq (by simp [he])
      refine .inr ⟨⟨(x::q)++[b],disk,hs',hq',?_⟩,?_,.inl (.inr ⟨_,hq'.linked,by simp⟩)⟩
      · have hx : (d.request b c).buf x = d.buf x := update_of_ne (Ne.symm hbx) _ _
        rw [hdev]
        simpa [hx] using hph
      · rw [show (d.request b c).idequeue = some x from hq'.linked.1]
        simpa using Ne.symm hbx
  · intro b' ho hserved
    have hne : b' ≠ b := fun he => ho b rfl (by rw [he]; rfl)
    have hbuf : (d.request b c).buf b' = d.buf b' := update_of_ne hne _ _
    rcases hserved with hqd | ⟨hsync,before,hmem⟩
    · refine .inl ((queued_iff hq' b').mpr (.inr ?_))
      have := (queued_iff hq b').mp hqd
      simp only [hs,reduceCtorEq,false_or] at this
      simp [this]
    · refine .inr ⟨by rwa [hbuf],before,?_⟩
      rw [hbuf]
      have hcomp : (d.request b c).completed = d.completed := by
        rw [Driver.request,append_eq]
      rwa [hcomp]
  · intro b' hqd
    rcases (queued_iff hq' b').mp hqd with hserv | hm
    · rw [hs'] at hserv
      cases hserv
    · rcases List.mem_append.mp hm with hm | hm
      · exact .inl ((queued_iff hq b').mpr (.inr hm))
      · exact .inr (by rw [mem_singleton.mp hm])
  · intro b' c' ho he
    exact ho b rfl he.symm

theorem idestart_ok (h : Stopped disk₀ d (b::q)) : Free disk₀ (d.idestart b) := by
  obtain ⟨disk,hs,hq,hph⟩ := h
  refine ⟨b::q,disk,hs,⟨hq.linked,hq.nodup,hq.pending,hq.requests,?_,hq.replays⟩,?_⟩
  · change d.started++[b] = _
    rw [hq.started]
    simp [Driver.idestart]
  · cases hph with
    | idle _ hirq hdisk => exact .busy rfl hirq hdisk

theorem frame_same {others : Point m → Prop} {mine : Fin m → Prop} {d' : Driver m}
    (hq : d'.qnext = d.qnext) (hh : d'.idequeue = d.idequeue) (hs : d'.serving = d.serving)
    (hb : d'.buf = d.buf) (hc : d'.completed = d.completed) :
    (assertions disk₀).Frame others mine d d' := by
  have hqueued : ∀ b, Queued d' b ↔ Queued d b := fun b => by rw [Queued,Queued,hq,hh,hs]
  have hserved : ∀ b, Served d' b ↔ Served d b := fun b => by rw [Served,Served,hqueued,hb,hc]
  refine ⟨fun l _ hl => ?_,fun c l _ hl => ?_,fun b h => .inl ((hqueued b).mp h)⟩
  · cases l with
    | iderw b => exact ⟨hl.1,fun h => hl.2 ((hqueued b).mp h)⟩
    | wait b => exact (hserved b).mpr hl
    | _ => exact hl
  · cases l with
    | wait b => exact ⟨hl.1,(hserved b).mpr hl.2⟩
    | _ => exact hl

theorem dequeue_ok (h : Free disk₀ d) (hb : d.idequeue = some b) (hirq : d.device.irq = true) :
    let d' := {d with idequeue := d.qnext b, serving := some b, device := {d.device with irq := false}}
    (assertions disk₀).holds (.transfer b) d' ∧
      (assertions disk₀).Frame (Apart Point.key .ideintr) (fun k => none = some k) d d' := by
  obtain ⟨q,disk,hs,hq,hph⟩ := h
  cases q with
  | nil =>
    rw [show d.idequeue = none from hq.linked] at hb
    cases hb
  | cons x q =>
    obtain rfl : x = b := Option.some_injective _ (hq.linked.1.symm.trans hb)
    have hq' : Queue disk₀ {d with
        idequeue := d.qnext x, serving := some x, device := {d.device with irq := false}}
        q [x] disk := by
      refine ⟨hq.linked.2,?_,?_,?_,hq.started,hq.replays⟩
      · simpa [hs] using hq.nodup
      · simpa [hs] using hq.pending
      · simpa [hs] using hq.requests
    have hqueued : ∀ b', Queued {d with
        idequeue := d.qnext x, serving := some x, device := {d.device with irq := false}} b' ↔
        Queued d b' := by
      intro b'
      rw [queued_iff hq',queued_iff hq,hs]
      simp [eq_comm]
    refine ⟨⟨q,disk,rfl,hq',?_⟩,frame_of ?_ ?_ ?_⟩
    · cases hph with
      | busy _ hirq' => simp [hirq] at hirq'
      | finished hcmd _ hdisk hreg => exact ⟨hcmd,rfl,hdisk,hreg⟩
    · intro b' _ hserved
      exact hserved.imp_left (hqueued b').mpr
    · exact fun b' hb' => .inl ((hqueued b').mp hb')
    · intro b' c _ he
      cases he

/-- The request is completed as `memide.c` would have served it. -/
theorem complete_ok {data : Block} (h : (assertions disk₀).holds (.transfer b) d)
    (hdata : data = if (d.buf b).dirty then (d.buf b).data else d.device.reg) :
    (assertions disk₀).holds (.finish b) (d.complete b data) ∧
      (assertions disk₀).Frame (Apart Point.key (.transfer b)) (fun k => none = some k) d
        (d.complete b data) := by
  obtain ⟨q,disk,hs,hq,hcmd,hirq,hdisk,hreg⟩ := h
  have hnd : b ∉ q := by
    have := hq.nodup
    simp only [hs,Option.toList_some,singleton_append,nodup_cons] at this
    exact this.1
  have hpend : Pending (d.buf b) := hq.pending b (by simp [hs])
  have hother : ∀ b', b' ≠ b → (d.complete b data).buf b' = d.buf b' := fun b' hb' =>
    update_of_ne hb' _ _
  have hmem : memIderw FSSIZE true disk (d.buf b) =
      .ok ({d.buf b with data := data, valid := true, dirty := false},effect (d.buf b) disk) := by
    rw [memIderw_ok hpend,hdata]
    cases hdirty : (d.buf b).dirty with
    | true => simp
    | false => simp [hreg hdirty]
  have hq' : Queue disk₀ (d.complete b data) q [] (effect (d.buf b) disk) := by
    refine ⟨hq.linked,?_,?_,?_,?_,hq.replays.snoc hmem⟩
    · simpa [Driver.complete,hs] using (hq.nodup.of_append_right)
    · intro b' hb'
      have hb' : b' ∈ q := by simpa [Driver.complete] using hb'
      rw [hother b' fun he => hnd (he ▸ hb')]
      exact hq.pending b' (by simp [hb'])
    · have hmap : q.map (fun b' => (b',(d.complete b data).buf b')) = q.map fun b' => (b',d.buf b') :=
        map_congr_left fun b' hb' => by rw [hother b' fun he => hnd (he ▸ hb')]
      change d.requests = _
      rw [hq.requests]
      simp only [Driver.complete,hs] at hmap ⊢
      simp [hmap]
    · change d.started = _
      rw [hq.started]
      simp [Driver.complete]
  refine ⟨⟨q,_,rfl,hq',.idle hcmd hirq hdisk⟩,frame_of ?_ ?_ ?_⟩
  · intro b' _ hserved
    by_cases hb' : b' = b
    · subst hb'
      refine .inr ⟨?_,d.buf b',?_⟩
      · simp [Driver.complete,Buf.inSync]
      · simp [Driver.complete]
    · rcases hserved with hqd | ⟨hsync,before,hcomp⟩
      · refine .inl ((queued_iff hq' b').mpr (.inr ?_))
        have := (queued_iff hq b').mp hqd
        simpa [hs,Ne.symm hb'] using this
      · refine .inr ⟨by rwa [hother b' hb'],before,?_⟩
        rw [hother b' hb']
        exact mem_append_left _ hcomp
  · intro b' hqd
    have := (queued_iff hq' b').mp hqd
    simp only [Driver.complete,reduceCtorEq,false_or] at this
    exact .inl ((queued_iff hq b').mpr (.inr this))
  · intro b' c _ he
    cases he

theorem finish_ok {v : Device} (h : Free disk₀ d)
    (hv : d.device.finish = some v) : Free disk₀ {d with device := v} := by
  obtain ⟨q,disk,hs,hq,hph⟩ := h
  refine ⟨q,disk,hs,⟨hq.linked,hq.nodup,hq.pending,hq.requests,hq.started,hq.replays⟩,?_⟩
  cases q with
  | nil =>
    cases hph with
    | idle hcmd => simp [Device.finish,hcmd] at hv
  | cons b =>
    have hpend : Pending (d.buf b) := hq.pending b (by simp)
    have hdrive : (command (d.buf b)).drive = 1 := by simp [command,hpend.2.1]
    have hsector : (command (d.buf b)).sector = (d.buf b).blockno := by
      have := hpend.2.2
      simp only [FSSIZE] at this
      simp only [command]
      omega
    cases hph with
    | busy hcmd hirq hdisk =>
      simp only [Device.finish,hcmd,Option.map_some,Option.some.injEq,hdrive,hsector] at hv
      cases hdirty : (d.buf b).dirty with
      | true =>
        rw [if_pos (by simp [command,hdirty])] at hv
        subst hv
        refine .finished rfl rfl ?_ (by simp [hdirty])
        simp [effect,hdirty,command,hdisk]
      | false =>
        rw [if_neg (by simp [command,hdirty])] at hv
        subst hv
        refine .finished rfl rfl ?_ fun _ => ?_
        · simpa [effect,hdirty] using hdisk
        · simp [hdisk]
    | finished hcmd => simp [Device.finish,hcmd] at hv

theorem system_spec (disk₀ : Disk) : Spec (system n m) Point.key (assertions disk₀) Genuine where
  keeps d k l := by
    cases l with
    | iderw | check | wait | transfer =>
      simp only [system,code]
      split_ifs <;> trivial
    | start | restart =>
      simp only [system,code,starting]
      split_ifs <;> trivial
    | ideintr | next =>
      simp only [system,code]
      cases d.idequeue <;> trivial
    | finish | done => trivial
  exclusive s t l he u l' hu := by
    cases l with
    | iderw =>
      simp only [system,enabled,decide_eq_true_eq] at he
      intro k hk hl'
      cases hk
      exact he.2 u (by simp [hu,hl'])
    | _ => intro k hk; cases hk <;> cases he
  enter s t l he hclaim := by
    cases l with
    | iderw b =>
      simp only [system,enabled,decide_eq_true_eq] at he
      exact ⟨he.1,hclaim b rfl⟩
    | ideintr => trivial
    | _ => cases he
  acquire d l hf hw := by
    cases l with
    | iderw | wait => exact ⟨hf,hw⟩
    | ideintr => exact hf
    | _ => exact hw.elim
  goto d k l d' l' h hg hc := by
    cases l with
    | iderw =>
      simp only [system,code,if_neg h.2.1.1,Act.goto.injEq] at hc
      obtain ⟨rfl,rfl⟩ := hc
      exact request_ok h.1 h.2.1 h.2.2
    | check =>
      simp only [system,code] at hc
      split_ifs at hc with hb
      · cases hc
        exact ⟨h.resolve_right fun h' => h'.2.1 hb,.refl _ _ _ _⟩
      · cases hc
        refine ⟨?_,.refl _ _ _ _⟩
        rcases h with ⟨disk,hs,hq,-⟩ | h
        · exact absurd hq.linked.1 hb
        · exact ⟨h.1,h.2.2⟩
    | start b =>
      obtain ⟨disk,hs,hq,hph⟩ := id h
      simp only [system,code,starting] at hc
      split_ifs at hc with hblock hcmd
      · cases hph with
        | idle hnone => simp [hnone] at hcmd
      · cases hc
        exact ⟨⟨idestart_ok h,.inl (.inr ⟨[b],hq.linked,by simp⟩)⟩,frame_same rfl rfl rfl rfl rfl⟩
    | wait =>
      simp only [system,code] at hc
      split_ifs at hc
    | ideintr =>
      simp only [system,code] at hc
      cases hq : d.idequeue with
      | none => simp [hq] at hc
      | some =>
        simp only [hq,Act.goto.injEq] at hc
        obtain ⟨rfl,rfl⟩ := hc
        exact dequeue_ok h hq (hg (by simp [hq]))
    | transfer =>
      simp only [system,code] at hc
      split_ifs at hc with hdirty hcmd
      · cases hc
        exact complete_ok h (by simp [hdirty])
      · obtain ⟨q,disk,hs,hq,hnone,-⟩ := h
        simp [hnone] at hcmd
      · cases hc
        exact complete_ok h (by simp [hdirty])
    | next =>
      obtain ⟨q,hq⟩ := h
      simp only [system,code] at hc
      cases hidle : d.idequeue with
      | none =>
        simp only [hidle,Act.goto.injEq] at hc
        obtain ⟨rfl,rfl⟩ := hc
        refine ⟨?_,.refl _ _ _ _⟩
        obtain ⟨disk,hs,hq,hph⟩ := hq
        obtain rfl := (hidle ▸ hq.linked).eq_nil
        exact ⟨[],disk,hs,hq,hph⟩
      | some =>
        simp only [hidle,Act.goto.injEq] at hc
        obtain ⟨rfl,rfl⟩ := hc
        obtain ⟨disk,hs,hqueue,-⟩ := id hq
        obtain ⟨q',rfl⟩ := (hidle ▸ hqueue.linked).eq_cons
        exact ⟨⟨q',hq⟩,.refl _ _ _ _⟩
    | restart =>
      obtain ⟨q,hst⟩ := h
      obtain ⟨disk,hs,hq,hph⟩ := id hst
      simp only [system,code,starting] at hc
      split_ifs at hc with hblock hcmd
      · cases hph with
        | idle hnone => simp [hnone] at hcmd
      · cases hc
        exact ⟨idestart_ok hst,frame_same rfl rfl rfl rfl rfl⟩
    | finish | done => cases hc
  wakeup d k l c l' h hc := by
    cases l with
    | iderw | check | wait | transfer =>
      simp only [system,code] at hc
      split_ifs at hc
    | start | restart =>
      simp only [system,code,starting] at hc
      split_ifs at hc
    | ideintr | next =>
      simp only [system,code] at hc
      cases hidle : d.idequeue <;> simp [hidle] at hc
    | finish =>
      cases hc
      exact h
    | done => cases hc
  sleep d k l c l' h hc := by
    cases l with
    | iderw | check | transfer =>
      simp only [system,code] at hc
      split_ifs at hc
    | wait =>
      simp only [system,code] at hc
      split_ifs at hc
      cases hc
      exact ⟨h.1,rfl,h.2⟩
    | start | restart =>
      simp only [system,code,starting] at hc
      split_ifs at hc
    | ideintr | next =>
      simp only [system,code] at hc
      cases hidle : d.idequeue <;> simp [hidle] at hc
    | finish | done => cases hc
  woken d c l h := by
    cases l with
    | wait => exact h.2
    | _ => exact h.elim
  leave d k l d' r h hc := by
    cases l with
    | iderw =>
      simp only [system,code,if_neg h.2.1.1] at hc
      cases hc
    | check | transfer =>
      simp only [system,code] at hc
      split_ifs at hc
    | wait =>
      simp only [system,code] at hc
      split_ifs at hc with hsync
      cases hc
      refine ⟨h.1,.refl _ _ _ _,fun b' hb' hq => ?_⟩
      cases hb'
      obtain ⟨q,disk,-,hqueue,-⟩ := h.1
      exact hqueue.not_inSync hq hsync
    | start b =>
      obtain ⟨disk,hs,hq,-⟩ := h
      simp only [system,code,starting] at hc
      split_ifs at hc with hblock
      exact absurd hblock (not_le.mpr (hq.pending b (by simp)).2.2)
    | restart b =>
      obtain ⟨q,disk,hs,hq,-⟩ := h
      simp only [system,code,starting] at hc
      split_ifs at hc with hblock
      exact absurd hblock (not_le.mpr (hq.pending b (by simp)).2.2)
    | ideintr =>
      simp only [system,code] at hc
      cases hidle : d.idequeue with
      | none =>
        simp only [hidle,Act.leave.injEq] at hc
        obtain ⟨rfl,-⟩ := hc
        exact ⟨h,.refl _ _ _ _,fun _ hk => by cases hk⟩
      | some => simp [hidle] at hc
    | next =>
      simp only [system,code] at hc
      cases hidle : d.idequeue <;> simp [hidle] at hc
    | finish => cases hc
    | done =>
      cases hc
      exact ⟨h,.refl _ _ _ _,fun _ hk => by cases hk⟩
  env s e d' he := by
    obtain ⟨v,hv,rfl⟩ := Option.map_eq_some_iff.mp he
    have hstop : ∀ {q}, Stopped disk₀ s.data q → False := fun ⟨_,_,_,hph⟩ => by
      cases hph with
      | idle hcmd => simp [Device.finish,hcmd] at hv
    refine ⟨fun hf => finish_ok hf hv,fun l hl => ?_,frame_same rfl rfl rfl rfl rfl⟩
    cases l with
    | iderw | wait => exact ⟨finish_ok hl.1 hv,hl.2⟩
    | check => exact .inr (hl.elim (fun h => (hstop h).elim) fun h => ⟨finish_ok h.1 hv,h.2⟩)
    | ideintr | done => exact finish_ok hl hv
    | start => exact (hstop hl).elim
    | finish | next | restart =>
      obtain ⟨q,hq⟩ := hl
      exact (hstop hq).elim
    | transfer =>
      obtain ⟨q,disk,hs,hq,hcmd,-⟩ := hl
      simp [Device.finish,hcmd] at hv

/-! ### Sleeping callers -/

def Waits (b : Fin m) (d : Driver m) : Prop := ¬ (d.buf b).inSync

def Owes : Fin m → Point m → Driver m → Prop
  | b,.finish b',_ => b = b'
  | _,_,_ => False

theorem system_discipline (disk₀ : Disk) :
    Discipline Waits Owes (system n m) (assertions disk₀) Genuine where
  goto d k l d' l' b h _ hc hw := by
    cases l with
    | iderw b' =>
      simp only [system,code,if_neg h.2.1.1,Act.goto.injEq] at hc
      obtain ⟨rfl,rfl⟩ := hc
      refine .inl ?_
      by_cases hb : b = b'
      · subst hb
        simpa [Waits,Driver.request] using h.2.1.1
      · simpa [Waits,Driver.request,hb] using hw.resolve_right id
    | transfer b' =>
      have hdone : ∀ data, Waits b (d.complete b' data) ∨ Owes b (.finish b') (d.complete b' data) := by
        intro data
        by_cases hb : b = b'
        · exact .inr hb
        · exact .inl (by simpa [Waits,Driver.complete,hb] using hw.resolve_right id)
      simp only [system,code] at hc
      split_ifs at hc
      · cases hc
        exact hdone _
      · cases hc
        exact hw
      · cases hc
        exact hdone _
    | start | restart =>
      simp only [system,code,starting] at hc
      split_ifs at hc <;> cases hc <;> exact .inl (hw.resolve_right id)
    | check | wait =>
      simp only [system,code] at hc
      split_ifs at hc <;> cases hc <;> exact .inl (hw.resolve_right id)
    | ideintr | next =>
      simp only [system,code] at hc
      cases hidle : d.idequeue <;> simp only [hidle,reduceCtorEq,Act.goto.injEq] at hc <;>
        obtain ⟨rfl,rfl⟩ := hc <;> exact .inl (hw.resolve_right id)
    | finish | done => cases hc
  wakeup d k l b' l' b h hc hne ho := by
    cases l with
    | finish =>
      cases hc
      exact absurd ho hne
    | _ => exact ho.elim
  sleep d k l b' l' b h hc ho := by
    cases l with
    | wait =>
      simp only [system,code] at hc
      split_ifs at hc with hsync
      cases hc
      rw [ho.resolve_right id]
      exact hsync
    | iderw | check | transfer =>
      simp only [system,code] at hc
      split_ifs at hc
    | start | restart =>
      simp only [system,code,starting] at hc
      split_ifs at hc
    | ideintr | next =>
      simp only [system,code] at hc
      cases hidle : d.idequeue <;> simp [hidle] at hc
    | finish | done => cases hc
  leave d k l d' r b h _ hc hw := by
    cases l with
    | iderw | check | transfer | wait =>
      simp only [system,code] at hc
      split_ifs at hc <;> cases hc <;> exact hw.resolve_right id
    | start | restart =>
      simp only [system,code,starting] at hc
      split_ifs at hc <;> cases hc <;> exact hw.resolve_right id
    | ideintr =>
      simp only [system,code] at hc
      cases hidle : d.idequeue <;> simp only [hidle,reduceCtorEq,Act.leave.injEq] at hc
      obtain ⟨rfl,-⟩ := hc
      exact hw.resolve_right id
    | next =>
      simp only [system,code] at hc
      cases hidle : d.idequeue <;> simp [hidle] at hc
    | finish => cases hc
    | done =>
      cases hc
      exact hw.resolve_right id
  env s e d' b he := by
    obtain ⟨v,-,rfl⟩ := Option.map_eq_some_iff.mp he
    refine ⟨id,fun l hl => ?_⟩
    cases l <;> exact hl

theorem init_hold (buf : Fin m → Buf) (disk : ℕ → Disk) :
    (assertions (disk 1)).Hold Point.key (init n buf disk) where
  held t := by simp [init,Status.holding]
  apart t u l l' _ ht := by simp [init,Status.point] at ht
  claimed b hb := by
    rcases hb with hs | ⟨q,hl,hq⟩
    · cases hs
    · rw [Linked.eq_nil hl] at hq
      cases hq
  free _ := ⟨[],disk 1,rfl,⟨rfl,by simp [init],by simp [init],rfl,rfl,.nil⟩,.idle rfl rfl rfl⟩
  thread t := trivial

/-- In every run of calls and interrupts, of which those that find a request were raised by
the device: requests are started and completed once each and in their order, while the
lock is free the head of the queue is what the device works on, and the disk and the
completed buffers are those of `memide.c` on the same requests; a call returns with its
buffer in step, as its request left it, and nobody sleeps on a completed request. -/
theorem ide_refines_memide {buf : Fin m → Buf} {disk : ℕ → Disk} {s : IdeState n m}
    (h : Reach (step (system n m)) (Meets Genuine) (init n buf disk) s) :
    (s.lock = none → ∃ q mem, Linked s.data.qnext s.data.idequeue q ∧
      s.data.requests = s.data.completed.map (fun e => (e.1,e.2.1))++q.map (fun b => (b,s.data.buf b)) ∧
      s.data.started = s.data.completed.map (fun e => e.1)++q.take 1 ∧
      Replays (disk 1) s.data.completed mem ∧
      Phase s.data.device mem (q.head?.map s.data.buf)) ∧
    (∀ t l d r, s.thread t = .inside l → code s.data (s.killed t) l = .leave d r →
      r = .ok () ∧ ∀ b ∈ l.key, (s.data.buf b).inSync ∧
        ∃ before, (b,before,s.data.buf b) ∈ s.data.completed) ∧
    (s.lock = none → ∀ t b l, s.thread t = .asleep b l → ¬ (s.data.buf b).inSync) := by
  have hI := (system_spec (disk 1)).of_reach (fun _ _ h => h) h (init_hold buf disk)
  refine ⟨fun hl => ?_,fun t l d r ht hc => ?_,fun hl t b l ht => ?_⟩
  · obtain ⟨q,mem,hs,hq,hph⟩ := hI.free hl
    exact ⟨q,mem,hq.linked,by simpa [hs] using hq.requests,hq.started,hq.replays,hph⟩
  · have ha : (assertions (disk 1)).holds l s.data := by simpa [ht] using hI.thread t
    cases l with
    | wait =>
      simp only [code] at hc
      split_ifs at hc with hsync
      cases hc
      refine ⟨rfl,fun b' hb' => ?_⟩
      cases hb'
      refine ⟨hsync,?_⟩
      obtain ⟨q,mem,-,hq,-⟩ := ha.1
      rcases ha.2 with hqd | ⟨-,hdone⟩
      · exact absurd hsync (hq.not_inSync hqd)
      · exact hdone
    | iderw =>
      simp only [code,if_neg ha.2.1.1] at hc
      cases hc
    | check | transfer =>
      simp only [code] at hc
      split_ifs at hc
    | start b =>
      obtain ⟨mem,-,hq,-⟩ := ha
      simp only [code,starting] at hc
      split_ifs at hc with hblock
      exact absurd hblock (not_le.mpr (hq.pending b (by simp)).2.2)
    | restart b =>
      obtain ⟨q,mem,-,hq,-⟩ := ha
      simp only [code,starting] at hc
      split_ifs at hc with hblock
      exact absurd hblock (not_le.mpr (hq.pending b (by simp)).2.2)
    | ideintr =>
      simp only [code] at hc
      cases hidle : s.data.idequeue <;> simp only [hidle,reduceCtorEq,Act.leave.injEq] at hc
      exact ⟨hc.2.symm,fun _ hb => by cases hb⟩
    | next =>
      simp only [code] at hc
      cases hidle : s.data.idequeue <;> simp [hidle] at hc
    | finish => cases hc
    | done =>
      cases hc
      exact ⟨rfl,fun _ hb => by cases hb⟩
  · have hw0 : Awake Waits Owes (init n buf disk) :=
      ⟨fun t => by simp [init,Status.parked],fun t c hc => by simp [init,Status.chan] at hc⟩
    exact (system_discipline (disk 1)).waits_of_asleep (system_spec (disk 1)) h (init_hold buf disk) hw0 hl ht

/-- Two processes write and read the same block. -/
theorem writeThenRead_replays : ∃ s : IdeState 3 2,
    Reach (step (system 3 2)) (Meets Genuine) (init 3 (fun _ => ⟨false,false,1,7,fun _ => 0⟩)
      fun _ _ _ => 0) s ∧
    s.data.completed.length = 2 ∧ (s.data.buf 1).data 0 = 5 ∧
    ∃ mem, Replays (fun _ _ => 0) s.data.completed mem := by
  have hrun : (run (guarded (step (system 3 2)) (Meets Genuine))
      (init 3 (fun _ => ⟨false,false,1,7,fun _ => 0⟩) fun _ _ _ => 0) (flatten
      [[.enter 0 (.iderw 0 ⟨true,true,1,7,fun _ => 5⟩),.enter 1 (.iderw 1 ⟨false,false,1,7,fun _ => 0⟩)],
        replicate 7 (.run 0),replicate 6 (.run 1),[.env (),.enter 2 .ideintr],
        replicate 8 (.run 2),[.env (),.enter 2 .ideintr],replicate 7 (.run 2)])).any
      (fun s => s.lock = none ∧ s.data.completed.length = 2 ∧ (s.data.buf 1).data 0 = 5) = true := by
    decide +kernel
  obtain ⟨s,hs,hp⟩ := (Option.any_eq_true _ _).mp hrun
  have hr := Reach.refl.of_run hs
  obtain ⟨hl,hlen,hdata⟩ := of_decide_eq_true hp
  obtain ⟨q,mem,-,-,-,hrep,-⟩ := (ide_refines_memide hr).1 hl
  exact ⟨s,hr,hlen,hdata,mem,hrep⟩

end
end Xv6.Ide
