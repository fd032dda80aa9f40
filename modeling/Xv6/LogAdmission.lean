import Xv6.LogStep
import Xv6.Tally
import Xv6.Machine

/-!
# Admission to the log

`outstanding` counts the operations under way. A commit starts when it falls to 0 and no operation
is admitted until it is over, so the process in `commit` has the log for itself, as the one that
recovers has before the file system is up. Whatever may make room for another operation wakes up all
that sleep in `begin_op`.
-/
namespace Xv6.LogAdmission
open FsMachine LogStep Tally Machine

variable {cfg : Config}

/-- The process runs `commit` or `recover_from_log`. -/
def Busy : Kind → Prop
  | .commit | .committed | .recover | .recovered => True
  | _ => False

def Fits (s : State cfg) : Kind → Prop
  | .user => True
  | .begin => s.up = true
  | .inOp => s.up = true ∧ s.committing = false
  | .commit => s.up = true ∧ s.committing = true
  | .committed => s.up = true ∧ s.committing = true ∧ s.lh = []
  | .recover => s.up = false
  | .recovered => s.up = false ∧ s.lh = []

def inOp (q : Proc cfg) : ℕ := if q.op.isSome then 1 else 0

/-- The log between two steps, whatever the processes do. -/
structure Counts (s : State cfg) : Prop where
  alone : s.committing = true → s.outstanding = 0
  down : s.up = false → s.outstanding = 0 ∧ s.committing = false
  nodup : s.up = true → s.lh.Nodup
  idle : s.up = true → s.committing = false → s.outstanding = 0 → s.lh = []

theorem absorb_nodup {l : List ℕ} (h : l.Nodup) (b : ℕ) : (absorb l b).Nodup := by
  unfold absorb
  split_ifs with hb
  · exact h
  · simpa using h.concat hb

theorem length_le_absorb (l : List ℕ) (b : ℕ) : l.length ≤ (absorb l b).length := by
  unfold absorb
  split_ifs <;> simp

theorem mem_absorb {l : List ℕ} {b x : ℕ} : x ∈ absorb l b ↔ x = b ∨ x ∈ l := by
  unfold absorb
  split_ifs with hb
  · exact ⟨.inr,fun hx => hx.elim (fun he => he ▸ hb) id⟩
  · simp [or_comm]

structure Admission (s : State cfg) : Prop extends Counts s where
  count : s.outstanding = ∑ p, inOp (s.proc p)
  op_some : ∀ p, kind (s.proc p).pc = .inOp → (s.proc p).op.isSome = true
  op_none : ∀ p, kind (s.proc p).pc ≠ .inOp → kind (s.proc p).pc ≠ .user → (s.proc p).op = none
  fits : ∀ p, Fits s (kind (s.proc p).pc)
  sole : ∀ p q, Busy (kind (s.proc p).pc) → Busy (kind (s.proc q).pc) → p = q
  asleep : ∀ p, (s.proc p).asleep = true → kind (s.proc p).pc = .begin ∧ Full s

namespace Admission

section
variable {s s' : State cfg} {p : cfg.ProcId}

theorem no_op (h : Admission s) (h0 : s.outstanding = 0) (p : cfg.ProcId) : (s.proc p).op = none := by
  have hle : inOp (s.proc p) ≤ _ := le_sum (fun p => inOp (s.proc p)) p
  rw [← h.count,h0] at hle
  unfold inOp at hle
  cases ho : (s.proc p).op with
  | none => rfl
  | some => simp [ho] at hle

theorem outstanding_pos (h : Admission s) (hp : kind (s.proc p).pc = .inOp) : 0 < s.outstanding := by
  by_contra h0
  have hsome := h.op_some p hp
  rw [h.no_op (by omega) p] at hsome
  cases hsome

theorem fit (h : Admission s) {k : Kind} (hp : kind (s.proc p).pc = k) : Fits s k := hp ▸ h.fits p

/-- Nobody is in `commit` or recovering while an operation may be under way. -/
theorem not_busy (h : Admission s) (hup : s.up = true) (hc : s.committing = false)
    (q : cfg.ProcId) : ¬Busy (kind (s.proc q).pc) := by
  intro hb
  have hf := h.fits q
  cases hk : kind (s.proc q).pc <;> simp_all [Busy,Fits]

theorem awake_of_down (h : Admission s) (hup : s.up = false) (q : cfg.ProcId) :
    (s.proc q).asleep = false := by
  by_contra ha
  have hf : s.up = true := h.fit (h.asleep q (by simpa using ha)).1
  simp [hup] at hf

theorem full_same (hlh : s'.lh = s.lh) (hc : SameCounts s s') (hf : Full s) : Full s' := by
  unfold Full at *
  rwa [hlh,hc.committing,hc.outstanding]

theorem fits_same (hc : SameCounts s s') (hlh : s'.lh = s.lh) (k : Kind) : Fits s k → Fits s' k := by
  cases k <;> simp [Fits,hc.up,hc.committing,hlh]

/-- The process `p` goes on, the others are at most woken up. -/
theorem turn (h : Admission s) (hother : ∀ r, r ≠ p → Keeps (s.proc r) (s'.proc r)) (hcounts : Counts s')
    (hcount : s'.outstanding+inOp (s.proc p) = s.outstanding+inOp (s'.proc p))
    (hsome : kind (s'.proc p).pc = .inOp → (s'.proc p).op.isSome = true)
    (hnone : kind (s'.proc p).pc ≠ .inOp → kind (s'.proc p).pc ≠ .user → (s'.proc p).op = none)
    (hfits : ∀ r, r ≠ p → Fits s (kind (s.proc r).pc) → Fits s' (kind (s.proc r).pc))
    (hfit : Fits s' (kind (s'.proc p).pc))
    (hsole : Busy (kind (s'.proc p).pc) → ∀ r, r ≠ p → ¬Busy (kind (s.proc r).pc))
    (hfull : ∀ r, r ≠ p → (s'.proc r).asleep = true → Full s → Full s')
    (hasleep : (s'.proc p).asleep = true → kind (s'.proc p).pc = .begin ∧ Full s') : Admission s' where
  toCounts := hcounts
  count := by
    have hsum : (∑ r, inOp (s'.proc r))+inOp (s.proc p) = (∑ r, inOp (s.proc r))+inOp (s'.proc p) :=
      sum_change (f := fun r => inOp (s.proc r)) p fun r hr => by simp only [inOp,(hother r hr).op]
    have := h.count
    omega
  op_some r hr := by
    by_cases hrp : r = p
    · exact hrp ▸ hsome (hrp ▸ hr)
    · rw [(hother r hrp).kind] at hr
      rw [(hother r hrp).op]
      exact h.op_some r hr
  op_none r hr hr' := by
    by_cases hrp : r = p
    · exact hrp ▸ hnone (hrp ▸ hr) (hrp ▸ hr')
    · rw [(hother r hrp).kind] at hr hr'
      rw [(hother r hrp).op]
      exact h.op_none r hr hr'
  fits r := by
    by_cases hrp : r = p
    · exact hrp ▸ hfit
    · rw [(hother r hrp).kind]
      exact hfits r hrp (h.fits r)
  sole r q hr hq := by
    by_cases hrp : r = p
    · subst hrp
      by_contra hne
      rw [(hother q (Ne.symm hne)).kind] at hq
      exact hsole hr q (Ne.symm hne) hq
    · rw [(hother r hrp).kind] at hr
      by_cases hqp : q = p
      · subst hqp
        exact absurd hr (hsole hq r hrp)
      · rw [(hother q hqp).kind] at hq
        exact h.sole r q hr hq
  asleep r hr := by
    by_cases hrp : r = p
    · exact hrp ▸ hasleep (hrp ▸ hr)
    · rw [(hother r hrp).kind]
      obtain ⟨hk,hf⟩ := h.asleep r ((hother r hrp).asleep hr)
      exact ⟨hk,hfull r hrp hr hf⟩

theorem keep (h : Admission s) (hk : ∀ r, Keeps (s.proc r) (s'.proc r)) (hcounts : Counts s')
    (hout : s'.outstanding = s.outstanding)
    (hfits : ∀ r, Fits s (kind (s.proc r).pc) → Fits s' (kind (s.proc r).pc))
    (hfull : ∀ r, (s'.proc r).asleep = true → Full s → Full s') : Admission s' := by
  let p := cfg.init
  refine h.turn (p := p) (fun r _ => hk r) hcounts ?_ ?_ ?_ (fun r _ => hfits r) ?_ ?_
    (fun r _ => hfull r) ?_
  · simp only [inOp,(hk p).op,hout]
  all_goals rw [(hk p).kind]
  · rw [(hk p).op]
    exact h.op_some p
  · rw [(hk p).op]
    exact h.op_none p
  · exact hfits p (h.fits p)
  · exact fun hb r hr hb' => hr (h.sole r p hb' hb)
  · intro ha
    obtain ⟨hbegin,hf⟩ := h.asleep p ((hk p).asleep ha)
    exact ⟨hbegin,hfull p ha hf⟩

theorem counts_same (h : Admission s) (hlh : s'.lh = s.lh) (hc : SameCounts s s') : Counts s' := by
  constructor
  all_goals simp only [hlh,hc.outstanding,hc.committing,hc.up]
  · exact h.alone
  · exact h.down
  · exact h.nodup
  · exact h.idle

theorem readHead (h : Admission s) (hp : kind (s.proc p).pc = .recover) (hc : SameCounts s s')
    (hk : ∀ r, Keeps (s.proc r) (s'.proc r)) : Admission s' := by
  have hup : s.up = false := h.fit hp
  refine h.keep hk ⟨?_,?_,?_,?_⟩ hc.outstanding ?_ ?_
  · rw [hc.committing,hc.outstanding]
    exact h.alone
  · rw [hc.up,hc.committing,hc.outstanding]
    exact h.down
  · simp [hc.up,hup]
  · simp [hc.up,hup]
  · intro r hf
    -- another process with an empty log would recover too
    cases hr : kind (s.proc r).pc with
    | committed => simp [hr,Fits,hup] at hf
    | recovered =>
      cases h.sole r p (by rw [hr]; trivial) (by rw [hp]; trivial)
      simp [hp] at hr
    | _ => simp_all [Fits,hc.up]
  · intro r ha
    exact absurd ((hk r).asleep ha) (by simp [h.awake_of_down hup r])

theorem enter (h : Admission s) (hp : kind (s.proc p).pc = .user) (hup : s.up = true)
    (hlh : s'.lh = s.lh) (hc : SameCounts s s') (hother : ∀ r, r ≠ p → s'.proc r = s.proc r)
    (hk : kind (s'.proc p).pc = .begin ∧ (s.proc p).op = none ∨
      kind (s'.proc p).pc = .inOp ∧ (s.proc p).op.isSome = true)
    (hop : (s'.proc p).op = (s.proc p).op) (ha : (s'.proc p).asleep = (s.proc p).asleep) :
    Admission s' := by
  have hcom : (s.proc p).op.isSome = true → s.committing = false := by
    intro ho
    by_contra hcom
    simp [h.no_op (h.alone (by simpa using hcom)) p] at ho
  refine h.turn (p := p) (fun r hr => hother r hr ▸ .refl _) (h.counts_same hlh hc) ?_ ?_ ?_
    (fun r _ => fits_same hc hlh _) ?_ ?_ (fun r _ _ => full_same hlh hc) ?_
  · simp only [inOp,hop,hc.outstanding]
  · rw [hop]
    rcases hk with ⟨hk,-⟩ | ⟨-,ho⟩
    · simp [hk]
    · exact fun _ => ho
  · rw [hop]
    rcases hk with ⟨-,ho⟩ | ⟨hk,-⟩
    · exact fun _ _ => ho
    · simp [hk]
  · rcases hk with ⟨hk,-⟩ | ⟨hk,ho⟩
    · rw [hk]
      exact hc.up.trans hup
    · rw [hk]
      exact ⟨hc.up.trans hup,hc.committing.trans (hcom ho)⟩
  · rcases hk with ⟨hk,-⟩ | ⟨hk,-⟩ <;> simp [hk,Busy]
  · rw [ha]
    intro hs
    have hbegin := (h.asleep p hs).1
    rw [hp] at hbegin
    cases hbegin

/-- The process `p` alone goes on, between two places outside `commit` and recovery. -/
theorem update {q : Proc cfg} (h : Admission s) (hproc : s'.proc = Function.update s.proc p q)
    (hcounts : Counts s') (hcount : s'.outstanding+inOp (s.proc p) = s.outstanding+inOp q)
    (hsome : kind q.pc = .inOp → q.op.isSome = true)
    (hnone : kind q.pc ≠ .inOp → kind q.pc ≠ .user → q.op = none)
    (hfits : ∀ r, r ≠ p → Fits s (kind (s.proc r).pc) → Fits s' (kind (s.proc r).pc))
    (hfit : Fits s' (kind q.pc))
    (hsole : Busy (kind q.pc) → ∀ r, r ≠ p → ¬Busy (kind (s.proc r).pc))
    (hfull : ∀ r, r ≠ p → (s.proc r).asleep = true → Full s → Full s')
    (hasleep : q.asleep = true → kind q.pc = .begin ∧ Full s') : Admission s' := by
  have hself : s'.proc p = q := by simp [hproc]
  have hother : ∀ r, r ≠ p → s'.proc r = s.proc r := fun r hr => by simp [hproc,hr]
  refine h.turn (p := p) (fun r hr => hother r hr ▸ .refl _) hcounts ?_ ?_ ?_ hfits ?_ ?_
    (fun r hr ha => hfull r hr (hother r hr ▸ ha)) ?_
  all_goals rwa [hself]

/-- The process `p` alone goes on, and then all are woken up. -/
theorem wake {q : Proc cfg} (h : Admission s)
    (hproc : s'.proc = fun r => {Function.update s.proc p q r with asleep := false})
    (hcounts : Counts s') (hcount : s'.outstanding+inOp (s.proc p) = s.outstanding+inOp q)
    (hk : kind q.pc = .user)
    (hfits : ∀ r, r ≠ p → Fits s (kind (s.proc r).pc) → Fits s' (kind (s.proc r).pc)) :
    Admission s' := by
  have hself : s'.proc p = {q with asleep := false} := by simp [hproc]
  have hother : ∀ r, r ≠ p → s'.proc r = {s.proc r with asleep := false} := fun r hr => by
    simp [hproc,hr]
  have hawake : ∀ r, (s'.proc r).asleep = false := fun r => by rw [hproc]
  refine h.turn (p := p) ?_ hcounts ?_ ?_ ?_ hfits ?_ ?_ ?_ ?_
  · intro r hr
    rw [hother r hr]
    exact ⟨rfl,rfl,by simp⟩
  · rw [hself]
    exact hcount
  · simp [hself,hk]
  · simp [hself,hk]
  · rw [hself,hk]
    trivial
  · simp [hself,hk,Busy]
  · simp [hawake]
  · simp [hawake]

theorem begun (h : Admission s) (hp : kind (s.proc p).pc = .begin) (hroom : ¬Full s)
    (ha : (s.proc p).asleep = false) (hlh : s'.lh = s.lh) (hout : s'.outstanding = s.outstanding+1)
    (hcom : s'.committing = s.committing) (hup : s'.up = s.up) {o : ℕ}
    (hproc : s'.proc = Function.update s.proc p {s.proc p with pc := .user, op := some o}) :
    Admission s' := by
  have hfree : s.committing = false := by
    simpa using fun hc => hroom (.inl hc)
  have hsup : s.up = true := h.fit hp
  have hop : (s.proc p).op = none := h.op_none p (by simp [hp]) (by simp [hp])
  refine h.update hproc ⟨?_,?_,?_,?_⟩ ?_ ?_ ?_ ?_ ?_ ?_ ?_ ?_
  · simp [hcom,hfree]
  · simp [hup,hsup]
  · rw [hup,hlh]
    exact h.nodup
  · simp [hout]
  · simp [hout,inOp,hop]
  · simp [kind]
  · simp [kind]
  · intro r _ hf
    cases hr : kind (s.proc r).pc <;> simp_all [Fits]
  · trivial
  · simp [kind,Busy]
  · intro r _ _ hf
    exact absurd hf hroom
  · simp [ha]

theorem append {i : cfg.BufId} (h : Admission s) (hp : (s.proc p).pc = .logAppend i)
    (hlh : s'.lh = absorb s.lh (s.buf i).key.2) (hc : SameCounts s s')
    (hproc : s'.proc = Function.update s.proc p {s.proc p with pc := .user}) : Admission s' := by
  have hk : kind (s.proc p).pc = .inOp := by rw [hp]; rfl
  have hin : s.up = true ∧ s.committing = false := h.fit hk
  have hpos := h.outstanding_pos hk
  refine h.update hproc ⟨?_,?_,?_,?_⟩ ?_ ?_ ?_ ?_ ?_ ?_ ?_ ?_
  · simp [hc.committing,hin.2]
  · simp [hc.up,hin.1]
  · intro _
    rw [hlh]
    exact absorb_nodup (h.nodup hin.1) _
  · rw [hc.outstanding]
    omega
  · rw [hc.outstanding]
    rfl
  · simp [kind]
  · simp [kind]
  · intro r _ hf
    -- nobody else relies on an empty log during an operation
    cases hr : kind (s.proc r).pc <;> simp [hr,Fits,hc.up,hc.committing,hin] at hf ⊢
  · trivial
  · simp [kind,Busy]
  · intro r _ _ hf
    unfold Full at *
    have := length_le_absorb s.lh (s.buf i).key.2
    rw [hlh,hc.committing,hc.outstanding]
    rcases hf with hf | hf
    · exact .inl hf
    · exact .inr (by omega)
  · intro ha
    have hbegin := (h.asleep p ha).1
    rw [hk] at hbegin
    cases hbegin

theorem sleep (h : Admission s) (hp : kind (s.proc p).pc = .begin) (hf : Full s)
    (hlh : s'.lh = s.lh) (hc : SameCounts s s')
    (hproc : s'.proc = Function.update s.proc p {s.proc p with asleep := true}) : Admission s' := by
  refine h.update hproc (h.counts_same hlh hc) ?_ (h.op_some p) (h.op_none p)
    (fun r _ => fits_same hc hlh _) (fits_same hc hlh _ (h.fits p)) ?_
    (fun r _ _ => full_same hlh hc) fun _ => ⟨hp,full_same hlh hc hf⟩
  · rw [hc.outstanding]
    rfl
  · simp [hp,Busy]

theorem inOp_of_kind (h : Admission s) (hp : kind (s.proc p).pc = .inOp) : inOp (s.proc p) = 1 := by
  simp [inOp,h.op_some p hp]

theorem endMore (h : Admission s) (hp : kind (s.proc p).pc = .inOp) (hne : s.outstanding-1 ≠ 0)
    (hlh : s'.lh = s.lh) (hout : s'.outstanding = s.outstanding-1)
    (hcom : s'.committing = s.committing) (hup : s'.up = s.up)
    (hproc : s'.proc = fun r => {Function.update s.proc p {s.proc p with pc := .user, op := none} r with
      asleep := false}) : Admission s' := by
  have hin : s.up = true ∧ s.committing = false := h.fit hp
  have hone := h.inOp_of_kind hp
  refine h.wake hproc ⟨?_,?_,?_,?_⟩ ?_ rfl ?_
  · simp [hcom,hin.2]
  · simp [hup,hin.1]
  · rw [hup,hlh]
    exact h.nodup
  · rw [hout]
    exact fun _ _ h0 => absurd h0 hne
  · have hzero : inOp {s.proc p with pc := .user, op := none} = 0 := rfl
    omega
  · intro r _ hf
    cases hr : kind (s.proc r).pc <;> simp_all [Fits]

theorem endLast (h : Admission s) (hp : kind (s.proc p).pc = .inOp) (h0 : s.outstanding-1 = 0)
    (hlh : s'.lh = s.lh) (hout : s'.outstanding = 0) (hcom : s'.committing = true)
    (hup : s'.up = s.up)
    (hproc : s'.proc = Function.update s.proc p {s.proc p with pc := .commit, op := none}) :
    Admission s' := by
  have hin : s.up = true ∧ s.committing = false := h.fit hp
  have hone := h.inOp_of_kind hp
  have hpos := h.outstanding_pos hp
  -- the operation that ends is the only one
  have halone : ∀ r, r ≠ p → kind (s.proc r).pc ≠ .inOp := by
    intro r hr hk
    have hle : inOp (s.proc r)+inOp (s.proc p) ≤ _ := add_le_sum (fun q => inOp (s.proc q)) hr
    have := h.inOp_of_kind hk
    have := h.count
    omega
  refine h.update hproc ⟨?_,?_,?_,?_⟩ ?_ ?_ ?_ ?_ ?_ ?_ ?_ ?_
  · exact fun _ => hout
  · simp [hup,hin.1]
  · rw [hup,hlh]
    exact h.nodup
  · simp [hcom]
  · have hzero : inOp {s.proc p with pc := .commit, op := none} = 0 := rfl
    omega
  · simp [kind]
  · exact fun _ _ => rfl
  · intro r hr hf
    cases hk : kind (s.proc r).pc with
    | inOp => exact absurd hk (halone r hr)
    | _ => simp_all [Fits]
  · exact ⟨hup.trans hin.1,hcom⟩
  · exact fun _ r _ => h.not_busy hin.1 hin.2 r
  · exact fun _ _ _ _ => .inl hcom
  · intro ha
    have hbegin := (h.asleep p ha).1
    rw [hp] at hbegin
    cases hbegin

theorem cleared {pc : Pc cfg} (h : Admission s)
    (hk : kind (s.proc p).pc = .commit ∧ kind pc = .committed ∨
      kind (s.proc p).pc = .recover ∧ kind pc = .recovered) (hlh : s'.lh = [])
    (hc : SameCounts s s') (hproc : s'.proc = Function.update s.proc p {s.proc p with pc := pc}) :
    Admission s' := by
  have hop : (s.proc p).op = none := by
    rcases hk with ⟨hk,-⟩ | ⟨hk,-⟩ <;> exact h.op_none p (by simp [hk]) (by simp [hk])
  have hbusy : Busy (kind (s.proc p).pc) := by
    rcases hk with ⟨hk,-⟩ | ⟨hk,-⟩ <;> simp [hk,Busy]
  refine h.update hproc ⟨?_,?_,?_,?_⟩ ?_ ?_ ?_ ?_ ?_ ?_ ?_ ?_
  · rw [hc.committing,hc.outstanding]
    exact h.alone
  · rw [hc.up,hc.committing,hc.outstanding]
    exact h.down
  · simp [hlh]
  · simp [hlh]
  · rw [hc.outstanding]
    rfl
  · rcases hk with ⟨-,hk⟩ | ⟨-,hk⟩ <;> simp [hk]
  · exact fun _ _ => hop
  · intro r _ hf
    cases hr : kind (s.proc r).pc <;> simp [hr,Fits,hc.up,hc.committing,hlh] at hf ⊢ <;> simp [hf]
  · have hf := h.fits p
    rcases hk with ⟨hk,hk'⟩ | ⟨hk,hk'⟩
    · rw [hk] at hf
      rw [hk']
      exact ⟨hc.up.trans hf.1,hc.committing.trans hf.2,hlh⟩
    · rw [hk] at hf
      rw [hk']
      exact ⟨hc.up.trans hf,hlh⟩
  · exact fun _ r hr hb => hr (h.sole r p hb hbusy)
  · intro r _ ha hf
    -- a sleeper waits for the end of the commit
    have hbegin := (h.asleep r ha).1
    rcases hk with ⟨hk,-⟩ | ⟨hk,-⟩
    · have hcom : s.up = true ∧ s.committing = true := h.fit hk
      exact .inl (hc.committing.trans hcom.2)
    · have hdown : s.up = false := h.fit hk
      exact absurd ha (by simp [h.awake_of_down hdown r])
  · intro ha
    have hbegin := (h.asleep p ha).1
    rcases hk with ⟨hk,-⟩ | ⟨hk,-⟩ <;> (rw [hk] at hbegin; cases hbegin)

theorem endCommit (h : Admission s) (hp : kind (s.proc p).pc = .committed) (hlh : s'.lh = s.lh)
    (hout : s'.outstanding = s.outstanding) (hcom : s'.committing = false) (hup : s'.up = s.up)
    (hproc : s'.proc = fun r => {Function.update s.proc p {s.proc p with pc := .user} r with
      asleep := false}) : Admission s' := by
  have hf : s.up = true ∧ s.committing = true ∧ s.lh = [] := h.fit hp
  have hbusy : Busy (kind (s.proc p).pc) := by simp [hp,Busy]
  refine h.wake hproc ⟨?_,?_,?_,?_⟩ ?_ rfl ?_
  · simp [hcom]
  · simp [hup,hf.1]
  · simp [hlh,hf.2.2]
  · simp [hlh,hf.2.2]
  · rw [hout]
    rfl
  · intro r hr hfr
    cases hk : kind (s.proc r).pc with
    | commit | committed => exact absurd (h.sole r p (by simp [hk,Busy]) hbusy) hr
    | _ => simp_all [Fits]

theorem initDone (h : Admission s) (hp : kind (s.proc p).pc = .recovered) (hlh : s'.lh = s.lh)
    (hout : s'.outstanding = s.outstanding) (hcom : s'.committing = s.committing)
    (hup : s'.up = true) (hproc : s'.proc = Function.update s.proc p {s.proc p with pc := .user}) :
    Admission s' := by
  have hf : s.up = false ∧ s.lh = [] := h.fit hp
  have hbusy : Busy (kind (s.proc p).pc) := by simp [hp,Busy]
  refine h.update hproc ⟨?_,?_,?_,?_⟩ ?_ ?_ ?_ ?_ ?_ ?_ ?_ ?_
  · rw [hcom,hout]
    exact h.alone
  · simp [hup]
  · simp [hlh,hf.2]
  · simp [hlh,hf.2]
  · rw [hout]
    rfl
  · simp [kind]
  · simp [kind]
  · intro r hr hfr
    cases hk : kind (s.proc r).pc with
    | recover | recovered => exact absurd (h.sole r p (by simp [hk,Busy]) hbusy) hr
    | _ => simp_all [Fits]
  · trivial
  · simp [kind,Busy]
  · intro r _ ha
    exact absurd ha (by simp [h.awake_of_down hf.1 r])
  · intro ha
    exact absurd ha (by simp [h.awake_of_down hf.1 p])

theorem boot (disk : Key → Block) (bk : Book cfg) : Admission (boot disk bk) where
  alone _ := rfl
  down _ := ⟨rfl,rfl⟩
  nodup h := by simp [FsMachine.boot] at h
  idle h := by simp [FsMachine.boot] at h
  count := by simp [FsMachine.boot,inOp]
  op_some p h := by
    by_cases hp : p = cfg.init <;> simp [FsMachine.boot,hp,kind] at h
  op_none p _ _ := rfl
  fits p := by
    by_cases hp : p = cfg.init <;> simp [FsMachine.boot,hp,kind,Fits]
  sole p q hp hq := by
    have hinit : ∀ r, Busy (kind ((FsMachine.boot disk bk).proc r).pc) → r = cfg.init := by
      intro r hr
      by_contra hne
      simp [FsMachine.boot,hne,kind,Busy] at hr
    rw [hinit p hp,hinit q hq]
  asleep p h := by simp [FsMachine.boot] at h

theorem step {a : Label cfg} (h : Admission s) (hs : step s a = some s') : Admission s' := by
  cases step_turn hs with
  | quiet hlh hc _ hk =>
    exact h.keep hk (h.counts_same hlh hc) hc.outstanding (fun r => fits_same hc hlh _)
      fun r _ => full_same hlh hc
  | readHead p hp hc _ hk => exact h.readHead hp hc hk
  | enter p hp hup hlh hc _ hother hk hop ha => exact h.enter hp hup hlh hc hother hk hop ha
  | sleep p hp hf hlh hc _ hproc => exact h.sleep hp hf hlh hc hproc
  | begun p hp hroom ha hlh hout hcom hup _ _ hproc => exact h.begun hp hroom ha hlh hout hcom hup hproc
  | append p i hp hlh hc _ _ hproc => exact h.append hp hlh hc hproc
  | endPanic p hp hcom =>
    have hin : s.up = true ∧ s.committing = false := h.fit hp
    simp [hin.2] at hcom
  | endMore p hp _ hne hlh hout hcom hup _ hproc => exact h.endMore hp hne hlh hout hcom hup hproc
  | endLast p hp _ h0 hlh hout hcom hup _ hproc => exact h.endLast hp h0 hlh hout hcom hup hproc
  | cleared p pc hk hlh hc _ hproc => exact h.cleared hk hlh hc hproc
  | endCommit p hp hlh hout hcom hup _ hproc => exact h.endCommit hp hlh hout hcom hup hproc
  | initDone p hp hlh hout hcom hup _ hproc => exact h.initDone hp hlh hout hcom hup hproc
  | crash hs =>
    subst hs
    exact .boot _ _

theorem of_reach {ok : State cfg → Label cfg → Prop} {disk : Key → Block}
    (h : Reach FsMachine.step ok (start cfg disk) s) : Admission s :=
  h.invariant (.boot disk _) fun _ _ _ hI _ hs => hI.step hs

end

end Admission

structure Ids (s : State cfg) : Prop where
  below : ∀ p, ∀ o ∈ (s.proc p).op, o < s.book.ops
  distinct : ∀ p q, ∀ o ∈ (s.proc p).op, o ∈ (s.proc q).op → p = q
  old : ∀ e ∈ s.book.writes, e.op < s.book.ops

namespace Ids

section
variable {s s' : State cfg} {p : cfg.ProcId}

theorem keep (h : Ids s) (hw : SameWrites s s') (hop : ∀ r, ∀ o ∈ (s'.proc r).op, o ∈ (s.proc r).op) :
    Ids s' where
  below r o ho := by
    rw [hw.ops]
    exact h.below r o (hop r o ho)
  distinct r q o hr hq := h.distinct r q o (hop r o hr) (hop q o hq)
  old := by
    rw [hw.writes,hw.ops]
    exact h.old

theorem begun (h : Ids s) (hops : s'.book.ops = s.book.ops+1) (hw : s'.book.writes = s.book.writes)
    (hself : (s'.proc p).op = some s.book.ops) (hother : ∀ r, r ≠ p → (s'.proc r).op = (s.proc r).op) :
    Ids s' := by
  have hold : ∀ r, ∀ o ∈ (s'.proc r).op, r = p ∧ o = s.book.ops ∨ o ∈ (s.proc r).op := by
    intro r o ho
    by_cases hr : r = p
    · subst hr
      rw [hself] at ho
      exact .inl ⟨rfl,by simpa [eq_comm] using ho⟩
    · exact .inr (hother r hr ▸ ho)
  refine ⟨?_,?_,?_⟩
  · intro r o ho
    rw [hops]
    rcases hold r o ho with ⟨-,rfl⟩ | ho
    · omega
    · have := h.below r o ho
      omega
  · intro r q o hr hq
    rcases hold r o hr with ⟨rfl,rfl⟩ | hr <;> rcases hold q _ hq with ⟨rfl,ho⟩ | hq
    · rfl
    · exact absurd (h.below q _ hq) (lt_irrefl _)
    · exact absurd (ho ▸ h.below r _ hr) (lt_irrefl _)
    · exact h.distinct r q o hr hq
  · intro e he
    rw [hw] at he
    have := h.old e he
    omega

theorem append {i : cfg.BufId} (h : Ids s) (hops : s'.book.ops = s.book.ops)
    (hw : s'.book.writes = s.book.writes++entries s p i)
    (hop : ∀ r, (s'.proc r).op = (s.proc r).op) : Ids s' where
  below r o ho := by
    rw [hops]
    exact h.below r o (hop r ▸ ho)
  distinct r q o hr hq := h.distinct r q o (hop r ▸ hr) (hop q ▸ hq)
  old e he := by
    rw [hops]
    rw [hw,List.mem_append] at he
    rcases he with he | he
    · exact h.old e he
    · simp only [entries,List.mem_map,Option.mem_toList] at he
      obtain ⟨o,ho,rfl⟩ := he
      exact h.below p o ho

theorem boot (disk : Key → Block) (bk : Book cfg) (h : ∀ e ∈ bk.writes, e.op < bk.ops) :
    Ids (boot disk bk) where
  below p o ho := by simp [FsMachine.boot] at ho
  distinct p q o hp := by simp [FsMachine.boot] at hp
  old := h

theorem step {a : Label cfg} (h : Ids s) (hA : Admission s) (hs : step s a = some s') : Ids s' := by
  cases step_turn hs with
  | quiet _ _ hw hk | readHead p _ _ hw hk => exact h.keep hw fun r o ho => (hk r).op ▸ ho
  | enter p _ _ _ _ hw hother _ hop =>
    refine h.keep hw fun r o ho => ?_
    by_cases hr : r = p
    · subst hr
      exact hop ▸ ho
    · exact hother r hr ▸ ho
  | begun p _ _ _ _ _ _ _ hops hw hproc =>
    exact h.begun (p := p) hops hw (by simp [hproc]) fun r hr => by simp [hproc,hr]
  | append p i _ _ _ hops hw hproc =>
    refine h.append (p := p) (i := i) hops hw fun r => ?_
    by_cases hr : r = p <;> simp [hproc,hr]
  | endPanic p hp hcom =>
    have hin : s.up = true ∧ s.committing = false := hA.fit hp
    simp [hin.2] at hcom
  | sleep p _ _ _ _ hw hproc | cleared p _ _ _ _ hw hproc | initDone p _ _ _ _ _ hw hproc
  | endLast p _ _ _ _ _ _ _ hw hproc | endMore p _ _ _ _ _ _ _ hw hproc
  | endCommit p _ _ _ _ _ hw hproc =>
    refine h.keep hw fun r o ho => ?_
    rw [hproc] at ho
    by_cases hr : r = p <;> simp_all
  | crash hs =>
    subst hs
    exact .boot _ _ h.old

end

end Ids

/-- In every run: nobody is in an operation during a commit, nobody logs then or
finds `log.committing` set at the end of an operation; the log has every block
once; and who sleeps in `begin_op` could not be admitted. -/
theorem admission_protocol {disk : Key → Block} {s : State cfg}
    (h : Reach step (fun _ _ => True) (start cfg disk) s) :
    (s.committing = true → s.outstanding = 0 ∧ ∀ p i, (s.proc p).op = none ∧
      (s.proc p).pc ≠ .logWrite i ∧ (s.proc p).pc ≠ .logAppend i) ∧
    (∀ p, (s.proc p).panicked ≠ some "log.committing") ∧
    (s.up = true → s.lh.Nodup) ∧
    ∀ p, (s.proc p).asleep = true →
      s.committing = true ∨ LOGSIZE < s.lh.length+(s.outstanding+1)*MAXOPBLOCKS := by
  have hA := Admission.of_reach h
  have hno : s.committing = true → ∀ p, kind (s.proc p).pc ≠ .inOp := by
    intro hc p hk
    have hin : s.up = true ∧ s.committing = false := hA.fit hk
    simp [hin.2] at hc
  refine ⟨fun hc => ⟨hA.alone hc,fun p i => ⟨hA.no_op (hA.alone hc) p,?_,?_⟩⟩,?_,hA.nodup,?_⟩
  · intro hpc
    exact hno hc p (by rw [hpc]; rfl)
  · intro hpc
    exact hno hc p (by rw [hpc]; rfl)
  · -- a panic has its cause in the state before
    have hboth : Admission s ∧ ∀ p, (s.proc p).panicked ≠ some "log.committing" := by
      refine h.invariant (I := fun t => Admission t ∧ ∀ p, (t.proc p).panicked ≠ some "log.committing")
        ⟨.boot disk _,fun p => by simp [start,boot]⟩ fun t a t' hI _ hs => ?_
      refine ⟨hI.1.step hs,fun p hp => ?_⟩
      rcases panicked_new hs hp with hold | hnew
      · exact hI.2 p hold
      · generalize hm : "log.committing" = m at hnew
        cases hnew with
        | committing hpc hc =>
          have hk : kind (t.proc p).pc = .inOp := by rw [hpc]; rfl
          have hin : t.up = true ∧ t.committing = false := hI.1.fit hk
          simp [hin.2] at hc
        | tooBig | outside => simp at hm
        | bio hmem =>
          subst hm
          revert hmem
          decide
    exact hboth.2
  · exact fun p ha => (hA.asleep p ha).2

abbrev four : Config := ⟨4,3,1,2,LOGSIZE,by decide⟩

def fullHouse : List (Label four) :=
  bootRun four++[.call (0 : Fin 4) .beginOp,.go (0 : Fin 4),.call (1 : Fin 4) .beginOp,.go (1 : Fin 4),
    .call (2 : Fin 4) .beginOp,.go (2 : Fin 4),.call (3 : Fin 4) .beginOp,.go (3 : Fin 4)]

theorem fullHouse_sleeps : ∃ s, Reach step (fun _ _ => True) (start four blankDisk) s ∧
    s.up = true ∧ s.lh.Nodup ∧ (s.proc (3 : Fin 4)).asleep = true ∧ s.outstanding = 3 ∧
    LOGSIZE < s.lh.length+(s.outstanding+1)*MAXOPBLOCKS := by
  have hrun : (run (guarded step fun _ _ => True) (start four blankDisk) fullHouse).any (fun s =>
      s.up = true ∧ (s.proc (3 : Fin 4)).asleep = true ∧ s.outstanding = 3 ∧
        s.committing = false) = true := by decide +kernel
  obtain ⟨s,hs,hp⟩ := (Option.any_eq_true _ _).mp hrun
  obtain ⟨hup,ha,hout,hc⟩ := of_decide_eq_true hp
  have hreach := Reach.refl.of_run hs
  obtain ⟨-,-,hnodup,hfull⟩ := admission_protocol hreach
  exact ⟨s,hreach,hup,hnodup hup,ha,hout,(hfull 3 ha).resolve_left (by simp [hc])⟩

end Xv6.LogAdmission
