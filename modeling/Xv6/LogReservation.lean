import Xv6.LogAdmission
import Xv6.Coherence

/-!
# The reservation of log blocks

`begin_op` counts `MAXOPBLOCKS` blocks for each operation under way and compares with `LOGSIZE`;
`log_write` compares with `log.size-1`, the number of blocks behind the header. With
`log.size = LOGSIZE`, as `mkfs` sets it, the last block of three operations of `MAXOPBLOCKS` blocks
finds no place. With one block less for each operation, the blocks in the log and those that may
still be added are always below the limit.
-/
namespace Xv6.LogReservation
open FsMachine LogStep LogAdmission CacheStep Coherence Tally Machine

variable {cfg : Config}

/-- The distinct blocks that an operation has passed to `log_write`. -/
def passed (ws : List Entry) (o : ℕ) : Finset ℕ :=
  ((ws.filter fun e => e.op = o).map Entry.block).toFinset

/-- Every operation passes at most `n` distinct blocks to `log_write`. -/
def Within (n : ℕ) (s : State cfg) : Label cfg → Prop
  | .call p (.logWrite i) =>
    ∀ o ∈ (s.proc p).op, (insert (s.buf i).key.2 (passed s.book.writes o)).card ≤ n
  | _ => True

instance (n : ℕ) (s : State cfg) (a : Label cfg) : Decidable (Within n s a) :=
  match a with
  | .call p (.logWrite i) => inferInstanceAs
      (Decidable (∀ o ∈ (s.proc p).op, (insert (s.buf i).key.2 (passed s.book.writes o)).card ≤ n))
  | .call _ (.bread _) | .call _ (.modify ..) | .call _ (.bwrite _) | .call _ (.brelse _)
  | .call _ .beginOp | .call _ .endOp | .go _ | .intr | .rouse _ | .crash => .isTrue trivial

/-- The blocks that an operation of at most `n` blocks may still add to the log. -/
def slack (n : ℕ) (s : State cfg) (p : cfg.ProcId) : ℕ :=
  ((s.proc p).op.map fun o => n-(passed s.book.writes o).card).getD 0

/-- Who is in `log_write` has passed its block already. -/
def passing (s : State cfg) (p : cfg.ProcId) : Finset ℕ :=
  match (s.proc p).pc with
  | .logWrite i | .logAppend i => {(s.buf i).key.2}
  | _ => ∅

/-- The blocks in the log and those that the operations under way may add. -/
structure Room (n : ℕ) (s : State cfg) : Prop where
  logged : ∀ p, ∀ o ∈ (s.proc p).op, ∀ b ∈ passed s.book.writes o, b ∈ s.lh
  few : ∀ p, ∀ o ∈ (s.proc p).op, (passing s p ∪ passed s.book.writes o).card ≤ n
  room : s.up = true → s.lh.length+∑ p, slack n s p ≤ LOGSIZE-2

namespace Room

section
variable {n o : ℕ} {s s' : State cfg} {p : cfg.ProcId} {a : Label cfg} {ws : List Entry}

theorem slack_none (h : (s.proc p).op = none) : slack n s p = 0 := by simp [slack,h]

theorem slack_some (h : (s.proc p).op = some o) :
    slack n s p = n-(passed s.book.writes o).card := by simp [slack,h]

theorem slack_same (hop : (s'.proc p).op = (s.proc p).op) (hw : s'.book.writes = s.book.writes) :
    slack n s' p = slack n s p := by simp only [slack,hop,hw]

theorem slack_le (s : State cfg) (p : cfg.ProcId) : slack n s p ≤ n*inOp (s.proc p) := by
  cases ho : (s.proc p).op with
  | none => simp [slack_none ho]
  | some => simp [slack_some ho,inOp,ho]

theorem passing_of {i : cfg.BufId} (h : (s.proc p).pc = .logWrite i ∨ (s.proc p).pc = .logAppend i) :
    passing s p = {(s.buf i).key.2} := by
  rcases h with h | h <;> simp [passing,h]

theorem passing_of_user (h : (s.proc p).pc = .user) : passing s p = ∅ := by simp [passing,h]

theorem passing_step (hW : Wired s) (hs : step s a = some s') (q : cfg.ProcId) :
    passing s' q ⊆ passing s q ∨ ∃ i, a = .call q (.logWrite i) ∧ passing s' q = {(s.buf i).key.2} := by
  by_cases hlog : ∃ i, (s'.proc q).pc = .logWrite i ∨ (s'.proc q).pc = .logAppend i
  · obtain ⟨i,hi⟩ := hlog
    have hcrash : a ≠ .crash := by
      rintro rfl
      cases hs
      by_cases hq : q = cfg.init <;> simp [FsMachine.boot,hq] at hi
    rw [passing_of hi]
    rcases logs_new hs hi with hold | rfl
    · rw [passing_of hold,hW.key_step hs hcrash (.inl (hW.refcnt_held (hW.logs q i hold)))]
      exact .inl subset_rfl
    · refine .inr ⟨i,rfl,?_⟩
      cases step_runs hs with
      | call _ _ _ _ _ _ hc => rw [callStep_key hc i]
  · left
    have hnone : passing s' q = ∅ := by
      unfold passing
      split
      · exact absurd ⟨_,.inl ‹_›⟩ hlog
      · exact absurd ⟨_,.inr ‹_›⟩ hlog
      · rfl
    simp [hnone]

theorem few_step (h : Room n s) (hW : Wired s) (hok : Within n s a)
    (hs : FsMachine.step s a = some s') (q : cfg.ProcId) (hop : (s'.proc q).op = (s.proc q).op)
    (hw : ∀ o ∈ (s.proc q).op, passed s'.book.writes o = passed s.book.writes o) :
    ∀ o ∈ (s'.proc q).op, (passing s' q ∪ passed s'.book.writes o).card ≤ n := by
  intro o ho
  rw [hop] at ho
  rw [hw o ho]
  rcases passing_step hW hs q with hsub | ⟨i,rfl,hi⟩
  · exact (Finset.card_le_card (Finset.union_subset_union_left hsub)).trans (h.few q o ho)
  · rw [hi]
    exact hok o ho

theorem keep (h : Room n s) (hW : Wired s) (hok : Within n s a)
    (hs : FsMachine.step s a = some s') (hop : ∀ r, (s'.proc r).op = (s.proc r).op)
    (hw : SameWrites s s') (hlh : s'.lh = s.lh) (hup : s'.up = s.up) : Room n s' where
  logged p o ho := by
    rw [hw.writes,hlh]
    exact h.logged p o (hop p ▸ ho)
  few p := h.few_step hW hok hs p (hop p) fun o _ => by rw [hw.writes]
  room := by
    rw [hup,hlh,Finset.sum_congr rfl fun r _ => slack_same (hop r) hw.writes]
    exact h.room

theorem of_none (hop : ∀ r, (s'.proc r).op = none) (hlh : s'.up = true → s'.lh = []) : Room n s' where
  logged p o ho := by simp [hop p] at ho
  few p o ho := by simp [hop p] at ho
  room hup := by
    rw [hlh hup,Finset.sum_eq_zero fun r _ => slack_none (hop r)]
    simp

theorem passed_of_old (h : ∀ e ∈ ws, e.op < o) : passed ws o = ∅ := by
  have hnil : ws.filter (fun e => e.op = o) = [] := by
    rw [List.filter_eq_nil_iff]
    intro e he
    have := h e he
    simp only [decide_eq_true_eq]
    omega
  simp [passed,hnil]

theorem sum_slack_le (hA : Admission s) : ∑ p, slack n s p ≤ n*s.outstanding := by
  rw [hA.count,Finset.mul_sum]
  exact Finset.sum_le_sum fun p _ => slack_le s p

theorem begun (h : Room (MAXOPBLOCKS-1) s) (hW : Wired s) (hA : Admission s) (hI : Ids s)
    (hok : Within (MAXOPBLOCKS-1) s a) (hs : FsMachine.step s a = some s')
    (hp : kind (s.proc p).pc = .begin) (hroom : ¬Full s)
    (hlh : s'.lh = s.lh) (hw : s'.book.writes = s.book.writes)
    (hproc : s'.proc = Function.update s.proc p {s.proc p with pc := .user, op := some s.book.ops}) :
    Room (MAXOPBLOCKS-1) s' := by
  have hself : s'.proc p = {s.proc p with pc := .user, op := some s.book.ops} := by simp [hproc]
  have hother : ∀ r, r ≠ p → s'.proc r = s.proc r := fun r hr => by simp [hproc,hr]
  have hnew : passed s.book.writes s.book.ops = ∅ := passed_of_old hI.old
  have hopp : (s'.proc p).op = some s.book.ops := by rw [hself]
  have hold : ∀ r, ∀ o ∈ (s'.proc r).op, r = p ∧ o = s.book.ops ∨ r ≠ p ∧ o ∈ (s.proc r).op := by
    intro r o ho
    by_cases hr : r = p
    · subst hr
      rw [hopp] at ho
      exact .inl ⟨rfl,by simpa [eq_comm] using ho⟩
    · exact .inr ⟨hr,hother r hr ▸ ho⟩
  refine ⟨?_,?_,fun _ => ?_⟩
  · intro r o ho
    rw [hw,hlh]
    rcases hold r o ho with ⟨-,rfl⟩ | ⟨-,ho⟩
    · simp [hnew]
    · exact h.logged r o ho
  · intro r o ho
    rcases hold r o ho with ⟨rfl,rfl⟩ | ⟨hr,-⟩
    · rw [hw,hnew,passing_of_user (by rw [hself])]
      simp
    · exact h.few_step hW hok hs r (by rw [hother r hr]) (fun o _ => by rw [hw]) o ho
  · have hsum : (∑ r, slack (MAXOPBLOCKS-1) s' r)+slack (MAXOPBLOCKS-1) s p
        = (∑ r, slack (MAXOPBLOCKS-1) s r)+slack (MAXOPBLOCKS-1) s' p :=
      sum_change p fun r hr => slack_same (by rw [hother r hr]) hw
    have hfirst : slack (MAXOPBLOCKS-1) s' p ≤ MAXOPBLOCKS-1 := by
      rw [slack_some hopp]
      exact Nat.sub_le _ _
    have hle := sum_slack_le (n := MAXOPBLOCKS-1) hA
    have hup : s.up = true := hA.fit hp
    unfold Full at hroom
    push Not at hroom
    -- the first operation finds an empty log
    have hempty := hA.idle hup (by simpa using hroom.1)
    have hlen : s.outstanding = 0 → s.lh.length = 0 := fun h0 => by rw [hempty h0]; rfl
    rw [hlh]
    simp only [MAXOPBLOCKS,LOGSIZE] at *
    omega

theorem passed_append (b : ℕ) (d : Block) : passed (ws++[⟨o,b,d⟩]) o = insert b (passed ws o) := by
  ext x
  simp [passed]

theorem passed_append_ne {o' : ℕ} (b : ℕ) (d : Block) (h : o' ≠ o) :
    passed (ws++[⟨o,b,d⟩]) o' = passed ws o' := by
  simp [passed,Ne.symm h]

theorem append {i : cfg.BufId} (h : Room n s) (hW : Wired s) (hA : Admission s)
    (hI : Ids s) (hok : Within n s a) (hs : FsMachine.step s a = some s') (hp : (s.proc p).pc = .logAppend i)
    (hlh : s'.lh = absorb s.lh (s.buf i).key.2) (hup : s'.up = s.up)
    (hw : s'.book.writes = s.book.writes++entries s p i)
    (hproc : s'.proc = Function.update s.proc p {s.proc p with pc := .user}) : Room n s' := by
  have hself : s'.proc p = {s.proc p with pc := .user} := by simp [hproc]
  have hop : ∀ r, (s'.proc r).op = (s.proc r).op := fun r => by
    by_cases hr : r = p <;> simp [hproc,hr]
  obtain ⟨o,ho⟩ := Option.isSome_iff_exists.mp (hA.op_some p (by rw [hp]; rfl))
  have hpass : passing s p = {(s.buf i).key.2} := passing_of (.inr hp)
  have hfew := h.few p o ho
  rw [hpass,Finset.singleton_union] at hfew
  have hmine : passed s'.book.writes o = insert (s.buf i).key.2 (passed s.book.writes o) := by
    rw [hw,entries,ho]
    exact passed_append _ _
  have hothers : ∀ r, r ≠ p → ∀ o' ∈ (s.proc r).op,
      passed s'.book.writes o' = passed s.book.writes o' := by
    intro r hr o' ho'
    have hne : o' ≠ o := by
      rintro rfl
      exact hr (hI.distinct r p o' ho' ho)
    rw [hw,entries,ho]
    exact passed_append_ne _ _ hne
  refine ⟨?_,?_,?_⟩
  · intro r o' ho' b hb
    rw [hop r] at ho'
    rw [hlh,mem_absorb]
    by_cases hr : r = p
    · subst hr
      cases ho.symm.trans ho'
      rw [hmine,Finset.mem_insert] at hb
      exact hb.imp id (h.logged r o ho b)
    · rw [hothers r hr o' ho'] at hb
      exact .inr (h.logged r o' ho' b hb)
  · intro r o' ho'
    by_cases hr : r = p
    · subst hr
      rw [hop r] at ho'
      cases ho.symm.trans ho'
      rwa [passing_of_user (by rw [hself]),hmine,Finset.empty_union]
    · exact h.few_step hW hok hs r (hop r) (hothers r hr) o' ho'
  · rw [hup,hlh]
    intro hu
    have hroom := h.room hu
    have hsum : (∑ r, slack n s' r)+slack n s p = (∑ r, slack n s r)+slack n s' p := by
      refine sum_change p fun r hr => ?_
      cases hor : (s.proc r).op with
      | none => rw [slack_none hor,slack_none ((hop r).trans hor)]
      | some o' => rw [slack_some hor,slack_some ((hop r).trans hor),hothers r hr o' hor]
    rw [slack_some ho,slack_some ((hop p).trans ho),hmine] at hsum
    -- a block that the operation has passed before is in the log already
    by_cases hb : (s.buf i).key.2 ∈ passed s.book.writes o
    · rw [Finset.insert_eq_of_mem hb] at hsum
      rw [absorb,if_pos (h.logged p o ho _ hb)]
      omega
    · rw [Finset.card_insert_of_notMem hb] at hsum hfew
      have hgrow : (absorb s.lh (s.buf i).key.2).length ≤ s.lh.length+1 := by
        unfold absorb
        split_ifs <;> simp
      omega

theorem ended (h : Room n s) (hW : Wired s) (hok : Within n s a)
    (hs : FsMachine.step s a = some s') (hself : (s'.proc p).op = none)
    (hother : ∀ r, r ≠ p → (s'.proc r).op = (s.proc r).op) (hw : SameWrites s s')
    (hlh : s'.lh = s.lh) (hup : s'.up = s.up) : Room n s' := by
  have hold : ∀ r, ∀ o ∈ (s'.proc r).op, r ≠ p ∧ o ∈ (s.proc r).op := by
    intro r o ho
    have hr : r ≠ p := by
      rintro rfl
      simp [hself] at ho
    exact ⟨hr,hother r hr ▸ ho⟩
  refine ⟨?_,?_,?_⟩
  · intro r o ho
    rw [hw.writes,hlh]
    exact h.logged r o (hold r o ho).2
  · intro r o ho
    have hr := (hold r o ho).1
    exact h.few_step hW hok hs r (hother r hr) (fun o _ => by rw [hw.writes]) o ho
  · rw [hup,hlh]
    intro hu
    have hroom := h.room hu
    have hsum : (∑ r, slack n s' r)+slack n s p = (∑ r, slack n s r)+slack n s' p :=
      sum_change p fun r hr => slack_same (hother r hr) hw.writes
    rw [slack_none hself] at hsum
    omega

theorem boot (disk : Key → Block) (bk : Book cfg) : Room n (boot disk bk) where
  logged p o ho := by simp [FsMachine.boot] at ho
  few p o ho := by simp [FsMachine.boot] at ho
  room hup := by simp [FsMachine.boot] at hup

theorem step (h : Room (MAXOPBLOCKS-1) s) (hW : Wired s) (hA : Admission s) (hI : Ids s)
    (hok : Within (MAXOPBLOCKS-1) s a) (hs : step s a = some s') : Room (MAXOPBLOCKS-1) s' := by
  have hnone : s.outstanding = 0 → ∀ r, (s.proc r).op = none := fun h0 r => hA.no_op h0 r
  cases step_turn hs with
  | quiet hlh hc hw hk => exact h.keep hW hok hs (fun r => (hk r).op) hw hlh hc.up
  | readHead p hp hc hw hk =>
    have hdown : s.up = false := hA.fit hp
    refine of_none (fun r => ?_) fun hup => ?_
    · rw [(hk r).op]
      exact hnone (hA.down hdown).1 r
    · simp [hc.up,hdown] at hup
  | enter p hp hup hlh hc hw hother hk hop =>
    refine h.keep hW hok hs (fun r => ?_) hw hlh hc.up
    by_cases hr : r = p
    · rw [hr,hop]
    · rw [hother r hr]
  | sleep p hp hf hlh hc hw hproc =>
    refine h.keep hW hok hs (fun r => ?_) hw hlh hc.up
    by_cases hr : r = p <;> simp [hproc,hr]
  | begun p hp hroom ha hlh hout hcom hup hops hw hproc =>
    exact h.begun hW hA hI hok hs hp hroom hlh hw hproc
  | append p i hp hlh hc hops hw hproc => exact h.append hW hA hI hok hs hp hlh hc.up hw hproc
  | endPanic p hp hcom =>
    have hin : s.up = true ∧ s.committing = false := hA.fit hp
    simp [hin.2] at hcom
  | endMore p hp _ hne hlh hout hcom hup hw hproc | endLast p hp _ h0 hlh hout hcom hup hw hproc =>
    exact h.ended hW hok hs (p := p) (by simp [hproc]) (fun r hr => by simp [hproc,hr]) hw hlh hup
  | cleared p pc hk hlh hc hw hproc =>
    have h0 : s.outstanding = 0 := by
      rcases hk with ⟨hk,-⟩ | ⟨hk,-⟩
      · have hf : s.up = true ∧ s.committing = true := hA.fit hk
        exact hA.alone hf.2
      · exact (hA.down (hA.fit hk)).1
    refine of_none (fun r => ?_) fun _ => hlh
    by_cases hr : r = p <;> simp [hproc,hr,hnone h0]
  | endCommit p hp hlh hout hcom hup hw hproc =>
    have hf : s.up = true ∧ s.committing = true ∧ s.lh = [] := hA.fit hp
    refine of_none (fun r => ?_) fun _ => hlh.trans hf.2.2
    by_cases hr : r = p <;> simp [hproc,hr,hnone (hA.alone hf.2.1)]
  | initDone p hp hlh hout hcom hup hw hproc =>
    have hf : s.up = false ∧ s.lh = [] := hA.fit hp
    refine of_none (fun r => ?_) fun _ => hlh.trans hf.2
    by_cases hr : r = p <;> simp [hproc,hr,hnone (hA.down hf.1).1]
  | crash hs =>
    subst hs
    exact .boot _ _

end

end Room

/-- With at most `MAXOPBLOCKS-1` distinct blocks for each operation, the log that
`mkfs` builds has room for every `log_write`. -/
theorem reservation_sufficient {nproc : ℕ} {hpos : 0 < nproc} {disk : Key → Block}
    {s : State (.mkfs nproc hpos)}
    (h : Reach step (Within (MAXOPBLOCKS-1)) (start (.mkfs nproc hpos) disk) s) (p) :
    (s.proc p).panicked ≠ some "too big a transaction" := by
  have hall : (Wired s ∧ Admission s ∧ Ids s ∧ Room (MAXOPBLOCKS-1) s) ∧
      ∀ p, (s.proc p).panicked ≠ some "too big a transaction" := by
    refine h.invariant (I := fun t => (Wired t ∧ Admission t ∧ Ids t ∧ Room (MAXOPBLOCKS-1) t) ∧
      ∀ p, (t.proc p).panicked ≠ some "too big a transaction") ?_ ?_
    · refine ⟨⟨.boot disk _,.boot disk _,.boot disk _ ?_,.boot disk _⟩,fun p => by simp [start,boot]⟩
      simp [Book.blank]
    rintro t a t' ⟨⟨hW,hA,hI,hR⟩,hno⟩ hok hs
    refine ⟨⟨hW.step hs,hA.step hs,hI.step hA hs,hR.step hW hA hI hok hs⟩,fun p hp => ?_⟩
    rcases panicked_new hs hp with hold | hnew
    · exact hno p hold
    · generalize hm : "too big a transaction" = m at hnew
      cases hnew with
      | tooBig i hpc hbig =>
        have hk : kind (t.proc p).pc = .inOp := by rw [hpc]; rfl
        have hin : t.up = true ∧ t.committing = false := hA.fit hk
        have hroom := hR.room hin.1
        simp only [Config.mkfs,LOGSIZE,MAXOPBLOCKS] at hbig hroom
        omega
      | committing | outside => simp at hm
      | bio hmem =>
        subst hm
        revert hmem
        decide
  exact hall.2 p

/-- Three processes on the file system that `mkfs` builds. -/
abbrev trio : Config := .mkfs 3 Machine.three_pos

/-- The process reads the block into the buffer and calls `log_write`. -/
def logRun (p : Fin 3) (b : ℕ) (i : Fin 30) : List (Label trio) :=
  @missRun trio p (1,b)++[.call p (.logWrite i),.go p]

/-- All three begin an operation. The first `n` of thirty blocks, ten for each
operation, are in the log. -/
def logRuns (n : ℕ) : List (Label trio) :=
  bootRun trio++((List.finRange 3).flatMap fun p : Fin 3 => [.call p .beginOp,.go p])++
    ((List.finRange 30).take n).flatMap fun k : Fin 30 =>
      logRun ⟨k/10,by omega⟩ (100+k) (k+1)++[.go (⟨k/10,by omega⟩ : Fin 3)]

theorem reservation_sufficient_nine : ∃ s : State trio,
    Reach step (Within (MAXOPBLOCKS-1)) (start trio blankDisk) s ∧ s.lh.length = 9 ∧
    (s.proc (0 : Fin 3)).panicked ≠ some "too big a transaction" := by
  have hrun : (run (guarded step (Within (MAXOPBLOCKS-1))) (start trio blankDisk) (logRuns 9)).any
      (fun s => s.lh.length = 9) = true := by decide +kernel
  obtain ⟨s,hs,hp⟩ := (Option.any_eq_true _ _).mp hrun
  have hreach := Reach.refl.of_run hs
  exact ⟨s,hreach,of_decide_eq_true hp,reservation_sufficient hreach (0 : Fin 3)⟩

/-- Three operations of `MAXOPBLOCKS` blocks: the thirtieth `log_write` panics. -/
theorem reservation_falls_short : ∃ s : State trio,
    Reach step (Within MAXOPBLOCKS) (start trio blankDisk) s ∧
    (s.proc (2 : Fin 3)).panicked = some "too big a transaction" := by
  have hrun : (run (guarded step (Within MAXOPBLOCKS)) (start trio blankDisk)
      (logRuns 29++logRun 2 129 0)).any
      (fun s => (s.proc (2 : Fin 3)).panicked = some "too big a transaction") = true := by
    decide +kernel
  obtain ⟨s,hs,hp⟩ := (Option.any_eq_true _ _).mp hrun
  exact ⟨s,Reach.refl.of_run hs,of_decide_eq_true hp⟩

end Xv6.LogReservation
