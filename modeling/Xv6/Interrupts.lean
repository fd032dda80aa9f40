import Mathlib.Tactic

/-!
# pushcli and popcli

One CPU: its interrupt flag, the fields of `struct cpu` that `pushcli` and `popcli` use, and its
locks. `acquire` and `release` leave `pushcli` open until later; `holding` and `myproc` open and
close it. While no call is open the flag may change by itself, as with `sti` in the scheduler.
-/
namespace Xv6.Interrupts

structure Cpu (ι : Type*) where
  ncli : ℤ
  intena : Bool
  fl : Bool
  held : List ι

inductive Call (ι : Type*) where
  | pushcli
  | popcli
  | acquire (l : ι)
  | release (l : ι)
  | flag (b : Bool)

/-- The calls that are open: the locks held, the calls of `pushcli` without a lock, and the flag
before the outermost of them. -/
structure Opened (ι : Type*) where
  locks : List ι
  pushes : ℕ
  before : Bool

section
variable {ι : Type*} {c : Cpu ι} {o o' : Opened ι} {hs ls : List ι} {k : ℕ}

def mycpu (c : Cpu ι) : Except String (Cpu ι) :=
  if c.fl then .error "mycpu called with interrupts enabled\n" else .ok c

def pushcli (c : Cpu ι) : Except String (Cpu ι) := do
  let eflags := c.fl
  let c ← mycpu {c with fl := false}
  let c := if c.ncli = 0 then {c with intena := eflags} else c
  .ok {c with ncli := c.ncli+1}

def popcli (c : Cpu ι) : Except String (Cpu ι) := do
  if c.fl then .error "popcli - interruptible"
  else
    let c ← mycpu {c with ncli := c.ncli-1}
    if c.ncli < 0 then .error "popcli"
    else if c.ncli = 0 ∧ c.intena then .ok {c with fl := true} else .ok c

def Opened.count (o : Opened ι) : ℕ := o.locks.length+o.pushes

structure Balanced (o : Opened ι) (c : Cpu ι) : Prop where
  held : c.held = o.locks
  ncli : c.ncli = o.count
  off : 0 < o.count → c.fl = false ∧ c.intena = o.before
  restored : o.count = 0 → c.fl = o.before

def Cpu.pushed (c : Cpu ι) : Cpu ι :=
  {c with ncli := c.ncli+1, intena := if c.ncli = 0 then c.fl else c.intena, fl := false}

def Cpu.popped (c : Cpu ι) : Cpu ι := {c with ncli := c.ncli-1, fl := c.ncli = 1 ∧ c.intena}

theorem pushcli_eq (c : Cpu ι) : pushcli c = .ok c.pushed := by
  unfold pushcli Cpu.pushed
  by_cases h : c.ncli = 0
  · simp [mycpu,h,bind,Except.bind]
  · simp [mycpu,h,bind,Except.bind]

theorem popcli_eq (hfl : c.fl = false) (hn : 0 < c.ncli) : popcli c = .ok c.popped := by
  have hneg : ¬c.ncli-1 < 0 := by omega
  have hone : c.ncli-1 = 0 ↔ c.ncli = 1 := by omega
  unfold popcli Cpu.popped
  by_cases h : c.ncli = 1 ∧ c.intena
  · simp [mycpu,hfl,h,bind,Except.bind]
  · simp [mycpu,hfl,hneg,hone,h,bind,Except.bind]

theorem Balanced.opens (h : Balanced o c) (he : hs = ls) (hk : ls.length+k = o.count+1) :
    Balanced ⟨ls,k,o.before⟩ {c.pushed with held := hs} := by
  have hn := h.ncli
  refine ⟨he,?_,fun _ => ⟨rfl,?_⟩,fun h0 => absurd (hk.symm.trans h0) (Nat.succ_ne_zero _)⟩
  · simp only [Cpu.pushed,Opened.count]
    omega
  · simp only [Cpu.pushed]
    by_cases h0 : o.count = 0
    · rw [if_pos (by omega),h.restored h0]
    · rw [if_neg (by omega),(h.off (by omega)).2]

theorem Balanced.closes (h : Balanced o c) (he : hs = ls) (hk : ls.length+k+1 = o.count) :
    Balanced ⟨ls,k,o.before⟩ {c.popped with held := hs} := by
  obtain ⟨hfl,hin⟩ := h.off (by omega)
  have hn := h.ncli
  refine ⟨he,?_,fun hpos => ⟨?_,hin⟩,fun h0 => ?_⟩
  · simp only [Cpu.popped,Opened.count]
    omega
  · have hne : c.ncli ≠ 1 := by
      simp only [Opened.count] at hpos
      omega
    simp [Cpu.popped,hne]
  · have hone : c.ncli = 1 := by
      simp only [Opened.count] at h0
      omega
    simp [Cpu.popped,hone,hin]

variable [DecidableEq ι] {l : ι}

def holding (c : Cpu ι) (l : ι) : Except String (Bool×Cpu ι) := do
  let c ← pushcli c
  let r := decide (l ∈ c.held)
  let c ← popcli c
  .ok (r,c)

/-- The lock is free for this CPU once its loop on `xchg` ends. -/
def acquire (c : Cpu ι) (l : ι) : Except String (Cpu ι) := do
  let c ← pushcli c
  let (r,c) ← holding c l
  if r then .error "acquire"
  else
    let c ← mycpu c
    .ok {c with held := l::c.held}

def release (c : Cpu ι) (l : ι) : Except String (Cpu ι) := do
  let (r,c) ← holding c l
  if !r then .error "release" else popcli {c with held := c.held.erase l}

def exec (c : Cpu ι) : Call ι → Except String (Cpu ι)
  | .pushcli => pushcli c
  | .popcli => popcli c
  | .acquire l => acquire c l
  | .release l => release c l
  | .flag b => .ok {c with fl := b}

/-- A lock is released once after it is acquired, and `popcli` closes a `pushcli`. -/
def Opened.next (o : Opened ι) : Call ι → Option (Opened ι)
  | .pushcli => some {o with pushes := o.pushes+1}
  | .popcli => if 0 < o.pushes then some {o with pushes := o.pushes-1} else none
  | .acquire l => if l ∈ o.locks then none else some {o with locks := l::o.locks}
  | .release l => if l ∈ o.locks then some {o with locks := o.locks.erase l} else none
  | .flag b => if o.count = 0 then some {o with before := b} else none

/-- Under an open `pushcli`, `holding` changes nothing. -/
theorem holding_eq (hfl : c.fl = false) (hn : 0 < c.ncli) (l : ι) :
    holding c l = .ok (decide (l ∈ c.held),c) := by
  have hpop : c.pushed.popped = c := by
    have h0 : c.ncli ≠ 0 := by omega
    cases c
    simp_all [Cpu.pushed,Cpu.popped]
  unfold holding
  rw [pushcli_eq]
  change (popcli c.pushed >>= fun c' => .ok (decide (l ∈ c.held),c')) = _
  rw [popcli_eq rfl (by change 0 < c.ncli+1; omega),hpop]
  rfl

theorem acquire_eq (hn : 0 ≤ c.ncli) (hl : l ∉ c.held) :
    acquire c l = .ok {c.pushed with held := l::c.held} := by
  unfold acquire
  rw [pushcli_eq]
  change (holding c.pushed l >>= fun (r,c) => _) = _
  rw [holding_eq rfl (by change 0 < c.ncli+1; omega),show decide (l ∈ c.pushed.held) = false from decide_eq_false hl]
  rfl

theorem release_eq (hfl : c.fl = false) (hn : 0 < c.ncli) (hl : l ∈ c.held) :
    release c l = .ok {c.popped with held := c.held.erase l} := by
  unfold release
  rw [holding_eq hfl hn,decide_eq_true hl]
  exact popcli_eq hfl hn

/-- One call: neither panic of `popcli` is reached, and the CPU stays balanced. -/
theorem Balanced.step (h : Balanced o c) {a : Call ι} (ha : o.next a = some o') :
    ∃ c', exec c a = .ok c' ∧ Balanced o' c' := by
  have hn := h.ncli
  have hheld := h.held
  have hcount : o.count = o.locks.length+o.pushes := rfl
  cases a with
  | pushcli =>
    cases ha
    exact ⟨_,pushcli_eq c,h.opens hheld (by omega)⟩
  | popcli =>
    simp only [Opened.next] at ha
    split_ifs at ha with hp
    cases ha
    exact ⟨_,popcli_eq (h.off (by omega)).1 (by omega),h.closes hheld (by omega)⟩
  | acquire l =>
    simp only [Opened.next] at ha
    split_ifs at ha with hl
    cases ha
    refine ⟨_,acquire_eq (by omega) (hheld ▸ hl),h.opens (by rw [hheld]) ?_⟩
    rw [List.length_cons]
    omega
  | release l =>
    simp only [Opened.next] at ha
    split_ifs at ha with hl
    cases ha
    have hlen := List.length_pos_of_mem hl
    refine ⟨_,release_eq (h.off (by omega)).1 (by omega) (hheld ▸ hl),h.closes (by rw [hheld]) ?_⟩
    rw [List.length_erase_of_mem hl]
    omega
  | flag b =>
    simp only [Opened.next] at ha
    split_ifs at ha with h0
    cases ha
    exact ⟨_,rfl,hheld,hn,fun hpos => absurd h0 hpos.ne',fun _ => rfl⟩

theorem calls_balanced {as : List (Call ι)} (h : Balanced o c) (ha : as.foldlM Opened.next o = some o') :
    ∃ c', as.foldlM exec c = .ok c' ∧ Balanced o' c' := by
  induction as generalizing o c with
  | nil =>
    cases ha
    exact ⟨c,rfl,h⟩
  | cons a as ih =>
    obtain ⟨o₁,ho₁,ha⟩ := Option.bind_eq_some_iff.mp ha
    obtain ⟨c₁,hc₁,h₁⟩ := h.step ho₁
    obtain ⟨c',hc',h'⟩ := ih h₁ ha
    refine ⟨c',?_,h'⟩
    rw [List.foldlM_cons,hc₁]
    exact hc'

/-- In any sequence of calls that closes what it has opened `ncli` counts the open ones, interrupts
are off under them, and the flag is as before the outermost when there is none. -/
theorem cli_nested {as : List (Call ι)} (h0 : c.ncli = 0) (hheld : c.held = [])
    (ha : as.foldlM Opened.next ⟨[],0,c.fl⟩ = some o) :
    ∃ c', as.foldlM exec c = .ok c' ∧ c'.ncli = o.count ∧ (0 < c'.ncli → c'.fl = false) ∧
      (c'.ncli = 0 → c'.fl = o.before) := by
  have hstart : Balanced ⟨[],0,c.fl⟩ c := ⟨hheld,h0,fun hpos => absurd hpos (lt_irrefl 0),fun _ => rfl⟩
  obtain ⟨c',hc',h⟩ := calls_balanced hstart ha
  have hn := h.ncli
  exact ⟨c',hc',hn,fun hpos => (h.off (by omega)).1,fun hz => h.restored (by omega)⟩

theorem cli_nested_crossed : ∃ c', [Call.acquire 0,.acquire 1,.pushcli,.popcli,.release 0,.release 1].foldlM
    exec (⟨0,false,true,[]⟩ : Cpu ℕ) = .ok c' ∧ c'.ncli = Opened.count ⟨([] : List ℕ),0,true⟩ ∧
    (0 < c'.ncli → c'.fl = false) ∧ (c'.ncli = 0 → c'.fl = true) :=
  cli_nested rfl rfl (o := ⟨[],0,true⟩) rfl

end
end Xv6.Interrupts
