import Mathlib.Tactic

/-!
# The table of the processors

`mpinit` of `mp.c` on a configuration table that `mpconfig` has accepted. The table is the memory
from `conf` on, and `p` is the offset of the cursor in it. An entry of a known type moves the cursor
by its size, and an entry of another type leaves it in place, because `break` there leaves the
`switch` and not the loop.
-/
namespace Xv6.Mp

def NCPU : ℕ := 8

abbrev Table := ℕ → UInt8

def length (conf : Table) : ℕ := (conf 4).toNat+256*(conf 5).toNat

def sum (conf : Table) (len : ℕ) : ℕ := (∑ i ∈ Finset.range len, (conf i).toNat)%256

/-- The tests of `mpconfig`: the signature, the version and the checksum. -/
def Accepted (conf : Table) : Prop :=
  (conf 0 = 80 ∧ conf 1 = 67 ∧ conf 2 = 77 ∧ conf 3 = 80) ∧ (conf 6 = 1 ∨ conf 6 = 4) ∧
    sum conf (length conf) = 0

instance : DecidablePred Accepted := fun _ => inferInstanceAs (Decidable (_ ∧ _ ∧ _))

def MPPROC : UInt8 := 0

def MPIOAPIC : UInt8 := 2

/-- The cursor, the globals, `ismp`, and the indices used for `cpus[]`. -/
structure State where
  p : ℕ
  ncpu : ℕ
  apicid : ℕ → UInt8
  ioapicid : UInt8
  ismp : Bool
  used : List ℕ

/-- One round of the loop; `sizeof(struct mpproc)` is 20. -/
def round (conf : Table) (s : State) : State :=
  if s.p < length conf then
    if conf s.p = MPPROC then
      if s.ncpu < NCPU then
        {s with
          apicid := Function.update s.apicid s.ncpu (conf (s.p+1))
          used := s.used++[s.ncpu]
          ncpu := s.ncpu+1
          p := s.p+20}
      else {s with p := s.p+20}
    else if conf s.p = MPIOAPIC then {s with ioapicid := conf (s.p+1), p := s.p+8}
    else if conf s.p = 1 ∨ conf s.p = 3 ∨ conf s.p = 4 then {s with p := s.p+8}
    else {s with ismp := false}
  else s

/-- The state before the loop; `sizeof(struct mpconf)` is 44. -/
def start : State := ⟨44,0,fun _ => 0,0,true,[]⟩

def run (conf : Table) (n : ℕ) : State := (round conf)^[n] start

theorem run_succ (conf : Table) (n : ℕ) : run conf (n+1) = round conf (run conf n) :=
  Function.iterate_succ_apply' ..

inductive Outcome where
  | running
  | panic (msg : String)
  | done
  deriving DecidableEq

/-- How far `mpinit` is after `n` rounds of the loop. -/
def mpinit (conf : Table) (n : ℕ) : Outcome :=
  if ¬ Accepted conf then .panic "Expect to run on an SMP"
  else if (run conf n).p < length conf then .running
  else if ¬ (run conf n).ismp then .panic "Didn't find a suitable machine"
  else .done

def entry (conf : Table) : ℕ → ℕ
  | 0 => 44
  | i+1 => entry conf i+if conf (entry conf i) = MPPROC then 20 else 8

theorem le_entry (conf : Table) (i : ℕ) : 44+8*i ≤ entry conf i := by
  induction i with
  | zero => exact le_rfl
  | succ =>
    rw [entry]
    split_ifs <;> omega

theorem round_used {conf : Table} {s : State} (hn : s.ncpu ≤ NCPU) (hu : ∀ i ∈ s.used, i < NCPU) :
    (round conf s).ncpu ≤ NCPU ∧ ∀ i ∈ (round conf s).used, i < NCPU := by
  unfold round
  split_ifs with _ _ hlt
  · refine ⟨hlt,fun i hi => ?_⟩
    rcases List.mem_append.mp hi with hi | hi
    · exact hu i hi
    · exact List.mem_singleton.mp hi ▸ hlt
  all_goals exact ⟨hn,hu⟩

theorem run_used (conf : Table) (n : ℕ) :
    (run conf n).ncpu ≤ NCPU ∧ ∀ i ∈ (run conf n).used, i < NCPU := by
  induction n with
  | zero => exact ⟨Nat.zero_le _,by simp [run,start]⟩
  | succ n ih =>
    rw [run_succ]
    exact round_used ih.1 ih.2

theorem round_known {conf : Table} {s : State} {i : ℕ} (hp : s.p = entry conf i)
    (hlt : s.p < length conf) (h : conf s.p ≤ 4) : (round conf s).p = entry conf (i+1) := by
  have htypes : conf s.p = 0 ∨ conf s.p = 2 ∨ conf s.p = 1 ∨ conf s.p = 3 ∨ conf s.p = 4 := by
    simp only [← UInt8.toNat_inj,UInt8.le_iff_toNat_le] at h ⊢
    simp only [UInt8.toNat_ofNat] at h ⊢
    omega
  rw [entry,← hp,round,if_pos hlt]
  by_cases h0 : conf s.p = MPPROC
  · rw [if_pos h0,if_pos h0]
    split_ifs <;> rfl
  · rw [if_neg h0,if_neg h0]
    split_ifs with h2 h1
    · rfl
    · rfl
    · exact absurd htypes (by simp_all [MPPROC,MPIOAPIC])

theorem run_known {conf : Table}
    (h : ∀ i, entry conf i < length conf → conf (entry conf i) ≤ 4) (n : ℕ) :
    length conf ≤ (run conf n).p ∨ (run conf n).p = entry conf n := by
  induction n with
  | zero => exact .inr rfl
  | succ n ih =>
    rw [run_succ]
    by_cases hlt : (run conf n).p < length conf
    · have hp := ih.resolve_left (not_le.mpr hlt)
      exact .inr (round_known hp hlt (hp ▸ h n (hp ▸ hlt)))
    · left
      rw [round,if_neg hlt]
      exact not_lt.mp hlt

def oneCpu : Table := fun i => [80,67,77,80,64,0,1,143].getD i 0

def unknownEntry : Table := fun i => if i = 44 then 5 else [80,67,77,80,45,0,1,157].getD i 0

end Xv6.Mp
