import Xv6.PageTable

/-!
# Arguments of system calls

`fetchint`, `fetchstr`, `argint`, `argptr` and `argstr` check the addresses that a process passes
before they use them, with arithmetic on 32 bits that can wrap around. The checks accept exactly
what lies in the memory of the process when sizes and addresses are taken as numbers.
-/
namespace Xv6.SyscallArgs
open PageTable (KERNBASE)

abbrev Word := BitVec 32

/-- The process that calls: its size, its saved stack pointer and its memory. -/
structure Caller where
  sz : Word
  esp : Word
  mem : Word → BitVec 8

variable (p : Caller)

def Caller.word (addr : Word) : Word :=
  p.mem (addr+3)++p.mem (addr+2)++p.mem (addr+1)++p.mem addr

def fetchint (addr : Word) : Option Word :=
  if addr ≥ p.sz ∨ addr+4 > p.sz then none else some (p.word addr)

/-- The loop of `fetchstr`. There are `2^32` addresses. -/
def strLoop (ep : Word) : ℕ → Word → Option Word
  | 0,_ => none
  | n+1,s => if s < ep then if p.mem s = 0 then some s else strLoop ep n (s+1) else none

def fetchstr (addr : Word) : Option (Word×Word) :=
  if addr ≥ p.sz then none
  else (strLoop p p.sz (2^32) addr).map fun s => (addr,s-addr)

def argint (n : Word) : Option Word := fetchint p (p.esp+4+4*n)

def argptr (n size : Word) : Option Word := do
  let i ← argint p n
  if size.slt 0 ∨ i ≥ p.sz ∨ i+size > p.sz then none else some i

def argstr (n : Word) : Option (Word×Word) := do
  let addr ← argint p n
  fetchstr p addr

def Caller.byte (a : ℕ) : BitVec 8 := p.mem (BitVec.ofNat 32 a)

/-- The string at `a` has `k` characters, and it ends inside the memory of the process. -/
structure IsString (a k : ℕ) : Prop where
  inside : a+k < p.sz.toNat
  ends : p.byte (a+k) = 0
  chars : ∀ j < k, p.byte (a+j) ≠ 0

variable {p}

theorem fetchint_iff (hsz : p.sz.toNat < KERNBASE) {addr v : Word} :
    fetchint p addr = some v ↔ addr.toNat+4 ≤ p.sz.toNat ∧ v = p.word addr := by
  have hbase : KERNBASE = 2^31 := rfl
  have hcheck : (addr ≥ p.sz ∨ addr+4 > p.sz) ↔ ¬addr.toNat+4 ≤ p.sz.toNat := by
    simp only [ge_iff_le,gt_iff_lt,BitVec.le_def,BitVec.lt_def,BitVec.toNat_add]
    have h4 : (4 : Word).toNat = 4 := rfl
    rw [h4]
    omega
  unfold fetchint
  simp only [hcheck,ite_not]
  split_ifs with h
  · simp [h,eq_comm]
  · simp [h]

theorem argptr_iff (hsz : p.sz.toNat < KERNBASE) {n size q : Word} : argptr p n size = some q ↔
      argint p n = some q ∧ 0 ≤ size.toInt ∧ q.toNat < p.sz.toNat ∧ q.toNat+size.toInt ≤ p.sz.toNat := by
  have hbase : KERNBASE = 2^31 := rfl
  have hcheck : ∀ i : Word, (size.slt 0 ∨ i ≥ p.sz ∨ i+size > p.sz) ↔
      ¬(0 ≤ size.toInt ∧ i.toNat < p.sz.toNat ∧ i.toNat+size.toInt ≤ p.sz.toNat) := by
    intro i
    have h0 : (0 : Word).toInt = 0 := rfl
    simp only [ge_iff_le,gt_iff_lt,BitVec.le_def,BitVec.lt_def,BitVec.toNat_add,BitVec.slt_iff_toInt_lt,h0]
    have hsize := BitVec.toInt_eq_toNat_cond size
    split_ifs at hsize <;> omega
  unfold argptr
  cases hi : argint p n with
  | none => simp
  | some =>
    simp only [Option.bind_eq_bind,Option.bind_some,hcheck,ite_not,Option.some.injEq]
    constructor
    · intro hq
      split_ifs at hq with hc
      cases hq
      exact ⟨rfl,hc⟩
    · rintro ⟨rfl,hc⟩
      rw [if_pos hc]

theorem byte_toNat (s : Word) : p.byte s.toNat = p.mem s := by
  rw [Caller.byte,BitVec.ofNat_toNat,BitVec.setWidth_eq]

theorem isString_zero {a : ℕ} : IsString p a 0 ↔ a < p.sz.toNat ∧ p.byte a = 0 :=
  ⟨fun h => ⟨h.inside,h.ends⟩,fun h => ⟨h.1,h.2,fun _ hj => absurd hj (Nat.not_lt_zero _)⟩⟩

theorem isString_succ {a k : ℕ} : IsString p a (k+1) ↔ p.byte a ≠ 0 ∧ IsString p (a+1) k := by
  have hadd : ∀ j, a+(j+1) = a+1+j := fun j => by omega
  constructor
  · intro h
    refine ⟨h.chars 0 (by omega),?_,?_,fun j hj => ?_⟩
    · rw [← hadd]
      exact h.inside
    · rw [← hadd]
      exact h.ends
    · rw [← hadd]
      exact h.chars (j+1) (by omega)
  · rintro ⟨h0,h⟩
    refine ⟨?_,?_,fun j hj => ?_⟩
    · rw [hadd]
      exact h.inside
    · rw [hadd]
      exact h.ends
    · cases j with
      | zero => exact h0
      | succ j =>
        rw [hadd]
        exact h.chars j (by omega)

theorem strLoop_iff (hsz : p.sz.toNat < KERNBASE) {n : ℕ} {s t : Word} (hn : p.sz.toNat ≤ s.toNat+n) :
    strLoop p p.sz n s = some t ↔ ∃ k, IsString p s.toNat k ∧ t.toNat = s.toNat+k := by
  have hbase : KERNBASE = 2^31 := rfl
  induction n generalizing s with
  | zero =>
    refine iff_of_false nofun ?_
    rintro ⟨k,h,-⟩
    have := h.inside
    omega
  | succ n ih =>
    simp only [strLoop,BitVec.lt_def,← byte_toNat s]
    split_ifs with hlt hzero
    · constructor
      · intro hs
        cases hs
        exact ⟨0,isString_zero.mpr ⟨hlt,hzero⟩,rfl⟩
      · rintro ⟨k,h,ht⟩
        cases k with
        | zero => exact congrArg some (BitVec.eq_of_toNat_eq ht.symm)
        | succ => exact absurd hzero (isString_succ.mp h).1
    · have hnext : (s+1).toNat = s.toNat+1 := by
        have h1 : (1 : Word).toNat = 1 := rfl
        rw [BitVec.toNat_add,h1]
        omega
      have hrest := ih (s := s+1) (by omega)
      rw [hnext] at hrest
      refine hrest.trans ?_
      constructor
      · rintro ⟨k,h,ht⟩
        exact ⟨k+1,isString_succ.mpr ⟨hzero,h⟩,by omega⟩
      · rintro ⟨k,h,ht⟩
        cases k with
        | zero => exact absurd (isString_zero.mp h).2 hzero
        | succ k => exact ⟨k,(isString_succ.mp h).2,by omega⟩
    · refine iff_of_false nofun ?_
      rintro ⟨k,h,-⟩
      have := h.inside
      omega

theorem fetchstr_iff (hsz : p.sz.toNat < KERNBASE) {addr q k : Word} :
    fetchstr p addr = some (q,k) ↔ q = addr ∧ IsString p addr.toNat k.toNat := by
  have hsub : ∀ {s : Word} {j : ℕ}, s.toNat = addr.toNat+j → (s-addr).toNat = j := by
    intro s j hs
    have hs' := s.isLt
    rw [BitVec.toNat_sub,hs]
    omega
  unfold fetchstr
  split_ifs with hge
  · refine iff_of_false nofun ?_
    rintro ⟨-,h⟩
    have := h.inside
    rw [ge_iff_le,BitVec.le_def] at hge
    omega
  · rw [Option.map_eq_some_iff]
    constructor
    · rintro ⟨s,hs,he⟩
      obtain ⟨j,hj,hsj⟩ := (strLoop_iff hsz (by omega)).mp hs
      obtain ⟨rfl,rfl⟩ := Prod.mk.inj he
      rw [hsub hsj]
      exact ⟨rfl,hj⟩
    · rintro ⟨rfl,h⟩
      have hlt := k.isLt
      have hin := h.inside
      have hend : (q+k).toNat = q.toNat+k.toNat := by
        rw [BitVec.toNat_add]
        simp only [KERNBASE] at hsz
        omega
      refine ⟨q+k,(strLoop_iff hsz (by omega)).mpr ⟨k.toNat,h,hend⟩,?_⟩
      rw [BitVec.eq_of_toNat_eq (hsub hend)]

/-- Each check accepts exactly what lies in the memory of the process. -/
theorem checks_exact (hsz : p.sz.toNat < KERNBASE) (n size : Word) :
    (∀ addr v, fetchint p addr = some v ↔ addr.toNat+4 ≤ p.sz.toNat ∧ v = p.word addr) ∧
    (∀ v, argint p n = some v ↔ (p.esp+4+4*n).toNat+4 ≤ p.sz.toNat ∧ v = p.word (p.esp+4+4*n)) ∧
    (∀ q, argptr p n size = some q ↔
      argint p n = some q ∧ 0 ≤ size.toInt ∧ q.toNat < p.sz.toNat ∧ q.toNat+size.toInt ≤ p.sz.toNat) ∧
    (∀ addr q k, fetchstr p addr = some (q,k) ↔ q = addr ∧ IsString p addr.toNat k.toNat) ∧
    ∀ q k, argstr p n = some (q,k) ↔ argint p n = some q ∧ IsString p q.toNat k.toNat := by
  refine ⟨fun _ _ => fetchint_iff hsz,fun _ => fetchint_iff hsz,fun _ => argptr_iff hsz,
    fun _ _ _ => fetchstr_iff hsz,fun q k => ?_⟩
  unfold argstr
  rw [Option.bind_eq_bind,Option.bind_eq_some_iff]
  constructor
  · rintro ⟨addr,ha,hs⟩
    obtain ⟨rfl,hk⟩ := (fetchstr_iff hsz).mp hs
    exact ⟨ha,hk⟩
  · rintro ⟨ha,hk⟩
    exact ⟨q,ha,(fetchstr_iff hsz).mpr ⟨rfl,hk⟩⟩

def zeros : Caller := ⟨8192,8000,fun _ => 0⟩

/-- The first argument is a pointer to four bytes of it. -/
theorem checks_exact_zeros : zeros.sz.toNat < KERNBASE ∧ argptr zeros 0 4 = some 0 :=
  ⟨by decide,((checks_exact (p := zeros) (by decide) 0 4).2.2.1 0).mpr
    ⟨rfl,by decide,by decide,by decide⟩⟩

end Xv6.SyscallArgs
