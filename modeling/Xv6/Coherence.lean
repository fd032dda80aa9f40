import Xv6.BufferCache
import Xv6.Machine

/-!
# Coherence of the buffer cache

`book.last` is what a holder stored last in a block. A buffer with contents has that data, and so
does the disk unless a buffer owes it: one that is dirty, or whose holder has stored into it and not
yet called `bwrite` or `log_write`. That a holder does so before `brelse` is all the cache asks of
its clients, the log among them.
-/
namespace Xv6.Coherence
open LinkedRing FsMachine CacheStep BufferCache Machine
open Function (update_of_ne update_self)

variable {cfg : Config}

structure Coherent (c : Cache cfg) : Prop where
  tidy : ∀ i, c.unsaved i = true → ∃ p, i ∈ c.mine p
  data : ∀ i, (c.buf i).valid = true → (c.buf i).data = c.last (c.buf i).key
  disk : ∀ k, c.disk k = c.last k ∨
    ∃ i, (c.buf i).key = k ∧ ((c.buf i).dirty = true ∨ c.unsaved i = true)

namespace Coherent

section
variable {c c' : Cache cfg} {i j : cfg.BufId}

theorem start (disk : Key → Block) : Coherent (fresh cfg disk) where
  tidy i h := by simp [fresh] at h
  data i h := by simp [fresh] at h
  disk k := .inl rfl

theorem active_of_unsaved (h : Coherent c) (hI : Inv c) (hu : c.unsaved i = true) :
    Active (c.buf i) := by
  obtain ⟨p,hp⟩ := h.tidy i hu
  exact hI.active_of_mine hp

theorem tidy_step (h : Coherent c) (hc : Change True c c') (i : cfg.BufId) (hu : c'.unsaved i = true) :
    ∃ p, i ∈ c'.mine p := by
  cases hc with
  | store p b v hb hm =>
    by_cases hib : i = b
    · exact ⟨p,hib ▸ hm⟩
    · exact h.tidy i (by simpa [hib] using hu)
  | logged p b =>
    by_cases hib : i = b
    · simp [hib] at hu
    · exact h.tidy i (by simpa [hib] using hu)
  | bwrite p b =>
    by_cases hib : i = b
    · simp [hib] at hu
    · obtain ⟨q,hq⟩ := h.tidy i (by simpa [hib] using hu)
      exact ⟨q,by simpa [Cache.setBuf,Cache.turn] using hq⟩
  | given p k b l hb hv hp =>
    obtain ⟨q,hq⟩ := h.tidy i hu
    refine ⟨q,?_⟩
    by_cases hqp : q = p
    · subst hqp
      simpa [Cache.turn] using hp.mem_iff.mpr (List.mem_cons_of_mem b hq)
    · simpa [Cache.turn,hqp] using hq
  | brelse p b l hb hs hp =>
    have hib : i ≠ b := by
      rintro rfl
      exact Bool.false_ne_true ((hs trivial).symm.trans hu)
    obtain ⟨q,hq⟩ := h.tidy i hu
    refine ⟨q,?_⟩
    by_cases hqp : q = p
    · subst hqp
      have hm : i ∈ l := by simpa [hib] using hp.mem_iff.mp hq
      simpa [Cache.setBuf,Cache.turn] using hm
    · simpa [Cache.setBuf,Cache.turn,hqp] using hq
  | crash => simp [fresh] at hu
  | write | read => exact h.tidy i hu
  | _ =>
    obtain ⟨q,hq⟩ := h.tidy i hu
    exact ⟨q,by simpa [Cache.setBuf,Cache.turn] using hq⟩

theorem data_step (h : Coherent c) (hI : Inv c) (hc : Change True c c') (i : cfg.BufId)
    (hv : (c'.buf i).valid = true) : (c'.buf i).data = c'.last (c'.buf i).key := by
  cases hc with
  | store p b v hb hm =>
    by_cases hib : i = b
    · simp [Cache.setBuf,hib]
    · have hv : (c.buf i).valid = true := by simpa [Cache.setBuf,hib] using hv
      have hk : (c.buf i).key ≠ (c.buf b).key := fun hk =>
        hib (hI.unique (.inr (.inl hv)) (hI.active_of_mine hm) hk)
      simpa [Cache.setBuf,hib,hk] using h.data i hv
  | recycle p k b =>
    by_cases hib : i = b
    · simp [Cache.setBuf,hib] at hv
    · simp only [Cache.setBuf,Cache.turn,update_of_ne hib] at hv ⊢
      exact h.data i hv
  | read b r hr hd =>
    by_cases hib : i = b
    · -- a block that is read from the disk is owed by no other buffer
      subst hib
      simp only [Cache.setBuf,update_self]
      rcases h.disk (c.buf i).key with hdisk | ⟨j,hk,hj⟩
      · exact hdisk
      · have hact : Active (c.buf j) := by
          rcases hj with hj | hj
          · exact .inr (.inr hj)
          · exact h.active_of_unsaved hI hj
        have hqueued : i ∈ c.idequeue := by simp [hr]
        have hij := hI.unique hact (hI.active_of_queued hqueued) hk
        subst hij
        have hinv := hI.invalid_of_queued hqueued hd
        rcases hj with hj | hj
        · simp [hd] at hj
        · obtain ⟨p,hp⟩ := h.tidy j hj
          simp [hI.valid p j hp] at hinv
    · simp only [Cache.setBuf,update_of_ne hib] at hv ⊢
      exact h.data i hv
  | crash => simp [fresh] at hv
  | write b r hr hd =>
    by_cases hib : i = b
    · subst hib
      simpa [Cache.setBuf] using h.data i (hI.valid_of_dirty hd)
    · simp only [Cache.setBuf,update_of_ne hib] at hv ⊢
      exact h.data i hv
  | hit p k b | lock p k b | bwrite p b | logged p b | brelse p b | put p b | putLast p b =>
    by_cases hib : i = b
    · subst hib
      simp only [Cache.setBuf,Cache.turn,update_self] at hv ⊢
      exact h.data i hv
    · simp only [Cache.setBuf,Cache.turn,update_of_ne hib] at hv ⊢
      exact h.data i hv
  | _ => exact h.data i hv

theorem disk_step (h : Coherent c) (hI : Inv c) (hc : Change True c c') (k : Key) :
    c'.disk k = c'.last k ∨
      ∃ i, (c'.buf i).key = k ∧ ((c'.buf i).dirty = true ∨ c'.unsaved i = true) := by
  cases hc with
  | store p b =>
    by_cases hk : (c.buf b).key = k
    · exact .inr ⟨b,by simp [Cache.setBuf,hk]⟩
    · rcases h.disk k with hd | ⟨i,hik,hi⟩
      · exact .inl (by simpa [Cache.setBuf,Ne.symm hk] using hd)
      · have hib : i ≠ b := fun he => hk (he ▸ hik)
        exact .inr ⟨i,by simp [Cache.setBuf,hib,hik],by simpa [Cache.setBuf,hib] using hi⟩
  | recycle p k' b hb hl hv =>
    rcases h.disk k with hd | ⟨i,hik,hi⟩
    · exact .inl hd
    · have hib : i ≠ b := by
        rintro rfl
        have hfree := hI.victim_free hv
        rcases hi with hi | hi
        · simp [hfree.2] at hi
        · obtain ⟨q,hq⟩ := h.tidy i hi
          have hpos := hI.refcnt_pos (mem_uses hq)
          omega
      exact .inr ⟨i,by simp [Cache.setBuf,Cache.turn,hib,hik],
        by simpa [Cache.setBuf,Cache.turn,hib] using hi⟩
  | bwrite p b | logged p b =>
    rcases h.disk k with hd | ⟨i,hik,hi⟩
    · exact .inl hd
    · right
      by_cases hib : i = b
      · subst hib
        exact ⟨i,by simp [Cache.setBuf,hik],.inl (by simp [Cache.setBuf])⟩
      · exact ⟨i,by simp [Cache.setBuf,Cache.turn,hib,hik],
          by simpa [Cache.setBuf,Cache.turn,hib] using hi⟩
  | write b r hr hd =>
    by_cases hk : k = (c.buf b).key
    · subst hk
      exact .inl (by simpa [Cache.setBuf] using h.data b (hI.valid_of_dirty hd))
    · rcases h.disk k with hd | ⟨i,hik,hi⟩
      · exact .inl (by simpa [Cache.setBuf,hk] using hd)
      · have hib : i ≠ b := fun he => hk (he ▸ hik.symm)
        exact .inr ⟨i,by simp [Cache.setBuf,hib,hik],by simpa [Cache.setBuf,hib] using hi⟩
  | crash => exact .inl rfl
  | hit p k' b | lock p k' b | brelse p b | put p b | putLast p b | read b =>
    rcases h.disk k with hd | ⟨i,hik,hi⟩
    · exact .inl hd
    · right
      by_cases hib : i = b
      · subst hib
        exact ⟨i,by simp [Cache.setBuf,hik],by simpa [Cache.setBuf,Cache.turn] using hi⟩
      · exact ⟨i,by simp [Cache.setBuf,Cache.turn,hib,hik],
          by simpa [Cache.setBuf,Cache.turn,hib] using hi⟩
  | _ => exact h.disk k

theorem step (h : Coherent c) (hI : Inv c) (hc : Change True c c') : Coherent c' where
  tidy := h.tidy_step hc
  data := h.data_step hI hc
  disk := h.disk_step hI hc

end

end Coherent

/-- `log_write` is called on a buffer that its caller holds, and the cache is in order. -/
structure Wired (s : State cfg) : Prop where
  logs : ∀ p i, (s.proc p).pc = .logWrite i ∨ (s.proc p).pc = .logAppend i → i ∈ (s.proc p).held
  inv : Inv (cache s)

/-- What is stored in a buffer is written or logged by its holder, never by another. -/
structure Sound (s : State cfg) : Prop extends Wired s where
  stored : ∀ i, s.book.unsaved i = true → ∃ p, i ∈ (s.proc p).held
  coherent : Coherent (cache s)

section
variable {s s' : State cfg} {p : cfg.ProcId} {i : cfg.BufId} {a : Label cfg}

theorem not_held_of_refs (h : Inv (cache s)) (hr : i ∈ (s.proc p).pc.refs) (q : cfg.ProcId) :
    i ∉ (s.proc q).held := by
  intro hq
  have hp : i ∈ (cache s).mine p := by simp [cache,mine,hr]
  have hown := h.owner (mem_owns hp) (mem_owns (p := q) (by simp [cache,mine,hq]))
  subst hown
  have hcount : (owns (cache s) p).count i ≤ 1 := by
    rw [h.lock p i]
    split_ifs <;> omega
  have hone : 1 ≤ (s.proc p).pc.refs.count i := List.count_pos_iff.mpr hr
  have htwo : 1 ≤ (s.proc p).held.count i := List.count_pos_iff.mpr hq
  simp only [owns,cache,mine,List.count_append] at hcount
  omega

theorem Wired.lock_of_refs (h : Wired s) (hi : i ∈ (s.proc p).pc.refs) : (s.buf i).lock = some p :=
  h.inv.lock_of_owns (mem_owns (by simp [cache,mine,hi]))

theorem Wired.lock_of_held (h : Wired s) (hi : i ∈ (s.proc p).held) : (s.buf i).lock = some p :=
  h.inv.lock_of_owns (mem_owns (by simp [cache,mine,hi]))

theorem Sound.saved (h : Sound s) (p : cfg.ProcId) (i : cfg.BufId) (hi : i ∈ (s.proc p).pc.refs) :
    s.book.unsaved i = false := by
  by_contra hu
  obtain ⟨q,hq⟩ := h.stored i (by simpa using hu)
  exact not_held_of_refs h.inv hi q hq

theorem Sound.cache_step (h : Sound s) (hok : Saves s a) (hs : step s a = some s') :
    Coherent (cache s') := by
  have hchanges := step_changes (S := True) h.logs (fun _ => h.saved) (fun _ => hok) hs
  have hboth := Changes.keeps (I := fun c => Inv c ∧ Coherent c) hchanges ⟨h.inv,h.coherent⟩
    fun c c' hI hc => ⟨hI.1.step hc,hI.2.step hI.1 hc⟩
  exact hboth.2

theorem got_logs (pc : Pc cfg) (b : cfg.BufId)
    (h : pc.got b = .logWrite i ∨ pc.got b = .logAppend i) : pc = .logWrite i ∨ pc = .logAppend i := by
  cases pc <;> simp_all [Pc.got]

theorem mem_keep (pc : Pc cfg) {held : List cfg.BufId} (b : cfg.BufId) (h : i ∈ held) :
    i ∈ pc.keep b held := by
  cases pc <;> simp [Pc.keep,h]

theorem Copy.after_logs (w : Copy) :
    (w.after : Pc cfg) ≠ .logWrite i ∧ (w.after : Pc cfg) ≠ .logAppend i := by
  cases w <;> simp [Copy.after]

theorem Head.after_logs (k : Head) :
    (k.after : Pc cfg) ≠ .logWrite i ∧ (k.after : Pc cfg) ≠ .logAppend i := by
  cases k <;> simp [Head.after]

/-- What `log.c` does to a process concerns neither the buffers its caller holds
nor the argument of `log_write`. -/
theorem pcStep_held (h : pcStep s p = some s') (q : cfg.ProcId) :
    (s'.proc q).held = (s.proc q).held ∧ ∀ i, (s'.proc q).pc = .logWrite i ∨
      (s'.proc q).pc = .logAppend i → (s.proc q).pc = .logWrite i ∨ (s.proc q).pc = .logAppend i := by
  unfold pcStep at h
  by_cases hq : q = p
  · subst hq
    cases hpc : (s.proc q).pc <;> rw [hpc] at h <;> cases h
    all_goals simp only [beginOp,endOp,logWrite,logAppend,bwrite_proc,brelse_proc,bread,goto,setProc,
      FsMachine.panic,wakeup,markDirty,setBuf,store]
    all_goals (try split_ifs) <;> simp [hpc,Copy.after_logs,Head.after_logs]
  · cases hpc : (s.proc p).pc <;> rw [hpc] at h <;> cases h
    all_goals simp only [beginOp,endOp,logWrite,logAppend,bwrite_proc,brelse_proc,bread,goto,setProc,
      FsMachine.panic,wakeup,markDirty,setBuf,store]
    all_goals (try split_ifs) <;> simp [hq]

/-- `log.c` writes or logs what it stores in the same step. -/
theorem pcStep_unsaved (hlock : ∀ i ∈ (s.proc p).pc.refs, (s.buf i).lock = some p)
    (h : pcStep s p = some s') (hu : s'.book.unsaved i = true) : s.book.unsaved i = true := by
  -- a store that is written at once
  have hwrite : ∀ (b : cfg.BufId) (v : Block) (q : Proc cfg), b ∈ (s.proc p).pc.refs →
      (bwrite (store s b v) p b q).book.unsaved i = true → s.book.unsaved i = true := by
    intro b v q hb
    have hl : ((store s b v).buf b).lock = some p := by simpa [store,setBuf] using hlock b hb
    rw [bwrite_eq,if_neg (not_not.mpr hl)]
    by_cases hib : i = b <;> simp [setProc,markDirty,setBuf,store,hib]
  have hrelse : ∀ (t : State cfg) (b : cfg.BufId) (q : Proc cfg), (brelse t p b q).book = t.book := by
    intro t b q
    unfold brelse
    split_ifs <;> rfl
  unfold pcStep at h
  cases hpc : (s.proc p).pc <;> rw [hpc] at h <;> cases h
  case copyMove w t l h =>
      exact hwrite _ _ _ (by cases w <;> simp [hpc,Pc.refs,Copy.dst]) hu
  case writeHeadPut k b => exact hwrite _ _ _ (by simp [hpc,Pc.refs]) hu
  case copyRelse | copyEnd | writeHeadEnd | readHeadCopy => rwa [hrelse] at hu
  case logAppend b =>
      by_cases hib : i = b
      · simp [logAppend,goto,setProc,markDirty,hib] at hu
      · simpa [logAppend,goto,setProc,markDirty,setBuf,hib] using hu
  case beginOp =>
      unfold beginOp at hu
      split_ifs at hu <;> exact hu
  case endOp =>
      unfold endOp at hu
      split_ifs at hu <;> exact hu
  case logWrite b =>
      unfold logWrite at hu
      split_ifs at hu <;> exact hu
  case copy w t => split_ifs at hu <;> exact hu
  all_goals exact hu

theorem ideintr_proc (h : ideintr s = some s') : s'.proc = s.proc ∧
    s'.book.unsaved = s.book.unsaved := by
  unfold ideintr at h
  split at h
  · cases h
  · split_ifs at h <;> cases h
    · refine ⟨rfl,?_⟩
      simp only [Book.written]
      split_ifs <;> rfl
    · exact ⟨rfl,rfl⟩

theorem callStep_held {c : Call cfg} (h : callStep s p c = some s') (hpc : (s.proc p).pc = .user) :
    (∀ q, q ≠ p → s'.proc q = s.proc q) ∧
      (∀ i, (s'.proc p).pc = .logWrite i ∨ (s'.proc p).pc = .logAppend i →
        c = .logWrite i ∧ i ∈ (s'.proc p).held) ∧
      (∀ i ∈ (s.proc p).held, c ≠ .brelse i → i ∈ (s'.proc p).held) ∧
      ∀ i, s'.book.unsaved i = true → s.book.unsaved i = true ∨ i ∈ (s'.proc p).held := by
  cases c with
  | bread =>
    cases h
    exact ⟨fun q hq => by simp [bread,setProc,hq],by simp [bread,setProc],by simp [bread,setProc],
      fun i => .inl⟩
  | modify b =>
    simp only [callStep] at h
    split_ifs at h with hb
    cases h
    refine ⟨fun q hq => rfl,by simp [store,setBuf,hpc],fun i hi _ => hi,fun i hu => ?_⟩
    by_cases hib : i = b
    · exact .inr (hib ▸ hb)
    · exact .inl (by simpa [store,hib] using hu)
  | bwrite b =>
    simp only [callStep] at h
    split_ifs at h
    cases h
    rw [bwrite_proc]
    refine ⟨fun q hq => by simp [hq],?_,?_,fun i hu => .inl ?_⟩
    · split_ifs <;> simp [hpc]
    · split_ifs <;> simp
    · rw [bwrite_eq] at hu
      split_ifs at hu
      · exact hu
      · by_cases hib : i = b <;> simp_all [setProc,markDirty,setBuf]
  | logWrite =>
    simp only [callStep] at h
    split_ifs at h with hb
    cases h
    refine ⟨fun q hq => by simp [goto,setProc,hq],?_,by simp [goto,setProc],fun i => .inl⟩
    simp only [goto,setProc,update_self,Pc.logWrite.injEq,reduceCtorEq,or_false]
    rintro i rfl
    exact ⟨rfl,hb.1⟩
  | brelse b =>
    simp only [callStep] at h
    split_ifs at h
    cases h
    rw [brelse_proc]
    refine ⟨fun q hq => by simp [hq],?_,?_,fun i hu => .inl ?_⟩
    · split_ifs <;> simp [hpc]
    · intro i hi hne
      have hib : i ≠ b := fun he => hne (he ▸ rfl)
      split_ifs <;> simp [hi,(List.mem_erase_of_ne hib)]
    · unfold brelse at hu
      split_ifs at hu <;> exact hu
  | beginOp | endOp =>
    simp only [callStep] at h
    split_ifs at h
    cases h
    exact ⟨fun q hq => by simp [goto,setProc,hq],by simp [goto,setProc],by simp [goto,setProc],
      fun i => .inl⟩

theorem logs_new (hs : step s a = some s') {q : cfg.ProcId}
    (hq : (s'.proc q).pc = .logWrite i ∨ (s'.proc q).pc = .logAppend i) :
    ((s.proc q).pc = .logWrite i ∨ (s.proc q).pc = .logAppend i) ∨ a = .call q (.logWrite i) := by
  cases step_runs hs with
  | bio p _ _ _ hb =>
    obtain ⟨-,x,hx,hproc⟩ := bioStep_frame hb
    rw [hproc] at hq
    by_cases hqp : q = p
    · subst hqp
      simp only [update_self] at hq
      cases hx with
      | move | panic => exact .inl hq
      | deliver j => exact .inl (got_logs _ j hq)
    · simp only [update_of_ne hqp] at hq
      exact .inl hq
  | pc p _ _ _ hp => exact .inl ((pcStep_held hp q).2 i hq)
  | call p c _ _ hpc _ hc =>
    obtain ⟨hother,hself,-⟩ := callStep_held hc hpc
    by_cases hqp : q = p
    · subst hqp
      rw [(hself i hq).1]
      exact .inr rfl
    · rw [hother q hqp] at hq
      exact .inl hq
  | intr hi =>
    rw [(ideintr_proc hi).1] at hq
    exact .inl hq
  | rouse p hr =>
    subst hr
    by_cases hqp : q = p
    · subst hqp
      simp only [setProc,update_self] at hq
      exact .inl hq
    · simp only [setProc,update_of_ne hqp] at hq
      exact .inl hq
  | crash hc =>
    subst hc
    by_cases hp : q = cfg.init <;> simp [boot,hp] at hq

theorem Wired.logs_step (h : Wired s) (hs : step s a = some s') (q : cfg.ProcId)
    (i : cfg.BufId) (hq : (s'.proc q).pc = .logWrite i ∨ (s'.proc q).pc = .logAppend i) :
    i ∈ (s'.proc q).held := by
  cases step_runs hs with
  | bio p _ _ _ hb =>
    obtain ⟨-,x,hx,hproc⟩ := bioStep_frame hb
    rw [hproc] at hq ⊢
    by_cases hqp : q = p
    · subst hqp
      simp only [update_self] at hq ⊢
      cases hx with
      | move | panic => exact h.logs q i hq
      | deliver j => exact mem_keep _ j (h.logs q i (got_logs _ j hq))
    · simp only [update_of_ne hqp] at hq ⊢
      exact h.logs q i hq
  | pc p _ _ _ hp =>
    obtain ⟨hheld,hpc⟩ := pcStep_held hp q
    exact hheld ▸ h.logs q i (hpc i hq)
  | call p c _ _ hpc _ hc =>
    obtain ⟨hother,hself,-,-⟩ := callStep_held hc hpc
    by_cases hqp : q = p
    · exact hqp ▸ (hself i (hqp ▸ hq)).2
    · rw [hother q hqp] at hq ⊢
      exact h.logs q i hq
  | intr hi =>
    rw [(ideintr_proc hi).1] at hq ⊢
    exact h.logs q i hq
  | rouse p =>
    have hlogs := h.logs q i
    by_cases hqp : q = p <;> simp_all [setProc]
  | crash hc =>
    subst hc
    by_cases hp : q = cfg.init <;> simp [boot,hp] at hq

theorem Wired.key_step (h : Wired s) (hs : step s a = some s') (ha : a ≠ .crash)
    (hi : 0 < (s.buf i).refcnt ∨ (s.buf i).dirty = true) : (s'.buf i).key = (s.buf i).key := by
  rcases step_key hs ha i with hk | hv
  · exact hk
  · obtain ⟨hr,hd⟩ := Inv.victim_free (c := cache s) hv h.inv
    simp only [cache] at hr hd
    rcases hi with hi | hi
    · omega
    · simp [hd] at hi

theorem Wired.refcnt_held (h : Wired s) (hi : i ∈ (s.proc p).held) : 0 < (s.buf i).refcnt :=
  h.inv.refcnt_pos (mem_uses (p := p) (by simp [cache,mine,hi]))

theorem Wired.refcnt_refs (h : Wired s) (hi : i ∈ (s.proc p).pc.refs) : 0 < (s.buf i).refcnt :=
  h.inv.refcnt_pos (mem_uses (p := p) (by simp [cache,mine,hi]))

theorem Sound.stored_step (h : Sound s) (hok : Saves s a) (hs : step s a = some s')
    (i : cfg.BufId) (hu : s'.book.unsaved i = true) : ∃ q, i ∈ (s'.proc q).held := by
  cases step_runs hs with
  | bio p _ _ _ hb =>
    obtain ⟨hlog,x,hx,hproc⟩ := bioStep_frame hb
    rw [hlog.unsaved] at hu
    obtain ⟨q,hq⟩ := h.stored i hu
    refine ⟨q,?_⟩
    rw [hproc]
    by_cases hqp : q = p
    · subst hqp
      simp only [update_self]
      cases hx with
      | move | panic => exact hq
      | deliver j => exact mem_keep _ j hq
    · simpa only [update_of_ne hqp] using hq
  | pc p _ _ _ hp =>
    obtain ⟨q,hq⟩ := h.stored i (pcStep_unsaved (fun j hj => h.lock_of_refs hj) hp hu)
    exact ⟨q,(pcStep_held hp q).1 ▸ hq⟩
  | call p c _ _ hpc _ hc =>
    obtain ⟨hother,-,hkeep,hnew⟩ := callStep_held hc hpc
    rcases hnew i hu with hu | hp
    · obtain ⟨q,hq⟩ := h.stored i hu
      refine ⟨q,?_⟩
      by_cases hqp : q = p
      · subst hqp
        apply hkeep i hq
        rintro rfl
        exact Bool.false_ne_true (hok.symm.trans hu)
      · rwa [hother q hqp]
    · exact ⟨p,hp⟩
  | intr hi =>
    obtain ⟨hproc,hsame⟩ := ideintr_proc hi
    rw [hsame] at hu
    rw [hproc]
    exact h.stored i hu
  | rouse p hr =>
    subst hr
    obtain ⟨q,hq⟩ := h.stored i hu
    exact ⟨q,by by_cases hqp : q = p <;> simp_all [setProc]⟩
  | crash hc =>
    subst hc
    simp [boot] at hu

theorem Wired.step (h : Wired s) (hs : step s a = some s') : Wired s' where
  logs := h.logs_step hs
  inv := (step_changes (S := False) h.logs False.elim False.elim hs).keeps h.inv
    fun _ _ hI hc => hI.step hc

theorem Sound.step (h : Sound s) (hok : Saves s a) (hs : step s a = some s') : Sound s' where
  toWired := h.toWired.step hs
  stored := h.stored_step hok hs
  coherent := h.cache_step hok hs

theorem Wired.boot (disk : Key → Block) (bk : Book cfg) : Wired (boot disk bk) where
  logs p i h := by by_cases hp : p = cfg.init <;> simp [FsMachine.boot,hp] at h
  inv := cache_boot disk bk ▸ Inv.start disk

theorem Sound.boot (disk : Key → Block) (bk : Book cfg) : Sound (boot disk bk) where
  toWired := .boot disk bk
  stored i h := by simp [FsMachine.boot] at h
  coherent := cache_boot disk bk ▸ Coherent.start disk

theorem Sound.of_reach {disk : Key → Block} (h : Reach FsMachine.step Saves (start cfg disk) s) :
    Sound s :=
  h.invariant (Sound.boot disk _) fun _ _ _ hI hok hs => hI.step hok hs

end

/-- The next step of `p` returns `i` from its call of `bread`. -/
def Returning (s : State cfg) (p : cfg.ProcId) (k : Key) (i : cfg.BufId) : Prop :=
  (s.proc p).bio = .check k i ∧ (s.buf i).valid = true ∨
    (s.proc p).bio = .readWait k i ∧ (s.buf i).valid = true ∧ (s.buf i).dirty = false

instance (s : State cfg) (p : cfg.ProcId) (k : Key) (i : cfg.BufId) : Decidable (Returning s p k i) :=
  inferInstanceAs (Decidable (_ ∨ _))

/-- In every run whose callers save what they store before they release a buffer:
a block has at most one buffer in use or with contents; it has at most one
holder; `bread` returns what was stored in the block last; and the list has
every buffer once, the later released ones first. -/
theorem cache_coherent {disk : Key → Block} {s : State cfg} (h : Reach step Saves (start cfg disk) s) :
    (∀ i j, Active (s.buf i) → Active (s.buf j) → (s.buf i).key = (s.buf j).key → i = j) ∧
    (∀ p q i j, (s.buf i).lock = some p → (s.buf j).lock = some q →
      (s.buf i).key = (s.buf j).key → i = j ∧ p = q) ∧
    (∀ p k i, Returning s p k i → (s.buf i).key = k ∧ (s.buf i).data = s.book.last k) ∧
    ∃ l, Holds s.ring l ∧ (∀ i, l.count i = 1) ∧
      (l.filter fun i => (s.buf i).refcnt = 0).Pairwise fun i j =>
        s.book.stamp j ≠ 0 → s.book.stamp j < s.book.stamp i := by
  have hS := Sound.of_reach h
  have hunique : ∀ i j, Active (s.buf i) → Active (s.buf j) → (s.buf i).key = (s.buf j).key → i = j :=
    fun i j hi hj hk => hS.inv.unique hi hj hk
  refine ⟨hunique,?_,?_,?_⟩
  · intro p q i j hp hq hk
    have hact : ∀ i p, (s.buf i).lock = some p → Active (s.buf i) := fun i p hl => by
      have hpos := hS.inv.refcnt_pos (owns_subset_uses (hS.inv.owns_of_lock hl))
      exact .inl (by simp only [cache] at hpos; omega)
    have hij := hunique i j (hact i p hp) (hact j q hq) hk
    subst hij
    exact ⟨rfl,Option.some.inj (hp.symm.trans hq)⟩
  · intro p k i hret
    have hkey : (s.buf i).key = k := by
      apply hS.inv.key p k i
      rcases hret with ⟨hb,-⟩ | ⟨hb,-⟩ <;> simp [cache,hb,target]
    refine ⟨hkey,?_⟩
    have hv : (s.buf i).valid = true := by
      rcases hret with ⟨-,hv⟩ | ⟨-,hv,-⟩ <;> exact hv
    rw [← hkey]
    exact hS.coherent.data i hv
  · obtain ⟨l,hl⟩ := hS.inv.order
    refine ⟨l,hl.holds,fun i => ?_,hl.recent.sublist List.filter_sublist⟩
    exact List.count_eq_one_of_mem hl.holds.nodup (hl.all i)

abbrev pair : Config := ⟨2,3,1,2,LOGSIZE,Nat.two_pos⟩

def handOver : List (Label pair) :=
  bootRun pair++missRun (0 : Fin 2) (1,50)++
    [.call (0 : Fin 2) (.modify (1 : Fin 3) fun _ => 7),.call (0 : Fin 2) (.bwrite (1 : Fin 3)),.intr,
      .go (0 : Fin 2),.call (0 : Fin 2) (.brelse (1 : Fin 3)),.go (0 : Fin 2),
      .call (1 : Fin 2) (.bread (1,50)),.go (1 : Fin 2),.go (1 : Fin 2)]

theorem handOver_read : ∃ s, Reach step Saves (start pair blankDisk) s ∧
    Returning s (1 : Fin 2) (1,50) (1 : Fin 3) ∧ (s.buf (1 : Fin 3)).data 0 = 7 := by
  have hrun : (run (guarded step Saves) (start pair blankDisk) handOver).any (fun s =>
      Returning s (1 : Fin 2) (1,50) (1 : Fin 3) ∧ s.book.last (1,50) 0 = 7) = true := by decide +kernel
  obtain ⟨s,hs,hp⟩ := (Option.any_eq_true _ _).mp hrun
  obtain ⟨hret,hlast⟩ := of_decide_eq_true hp
  have hreach := Reach.refl.of_run hs
  obtain ⟨-,-,hread,-⟩ := cache_coherent hreach
  exact ⟨s,hreach,hret,(congrFun (hread _ _ _ hret).2 0).trans hlast⟩

end Xv6.Coherence
