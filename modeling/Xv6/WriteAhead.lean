import Xv6.LogPlace

/-!
# The write-ahead rule

Every step of a machine whose file system code keeps to the log keeps `Rule`: the places of `log.c`
are as described, and outside `commit` and recovery the header on disk is empty and the dirty
buffers are those of the logged blocks. A home block is written in `install_trans` only, when the
header on disk lists it.
-/
namespace Xv6.WriteAhead
open FsMachine LogStep LogAdmission CacheStep BufferCache Coherence LogPlace Machine List
open Function (update update_of_ne update_self)

variable {cfg : Config} {disk : Key → Block} {s : State cfg}

structure Rule (s : State cfg) : Prop where
  place : ∀ p, Place (view s) (tag s) (s.proc p).bio (s.proc p).pc
  calm : s.up = true → s.committing = false → (view s).hdr = [] ∧ s.book.pinned = s.lh
  owner : ∀ i, s.book.unsaved i = true → Home cfg (s.buf i).key ∧
    ∃ p, i ∈ (s.proc p).held ∧ (s.proc p).op.isSome = true
  ending : ∀ p, (s.proc p).pc = .endOp → ∀ i ∈ (s.proc p).held, s.book.unsaved i = false
  nodup : s.lh.Nodup
  home : ∀ b ∈ s.lh, ¬cfg.InLog b
  hdrNodup : (view s).hdr.Nodup
  hdrHome : ∀ b ∈ (view s).hdr, ¬cfg.InLog b
  hdrLength : (view s).hdr.length < cfg.size
  pinned : ∀ b ∈ s.book.pinned, ∃ i, (s.buf i).dirty = true ∧ (s.buf i).key = (cfg.dev,b)
  dirty : ∀ i, (s.buf i).dirty = true → (s.buf i).key.1 = cfg.dev ∧ (s.buf i).key.2 ∈ s.book.pinned ∨
    ∃ p, (s.proc p).bio = .writeWait i
  pend : ∀ e ∈ s.book.pend, e.block ∈ s.lh

section
variable {s s' : State cfg} {p : cfg.ProcId}

namespace Rule

theorem saved (h : Rule s) (hA : Admission s) (hp : Busy (kind (s.proc p).pc)) (i : cfg.BufId) :
    s.book.unsaved i = false := by
  by_contra hu
  obtain ⟨-,q,-,hq⟩ := h.owner i (by simpa using hu)
  simp [op_of_busy hA hp q] at hq

variable {k : Key} {i l : cfg.BufId} {pc : Pc cfg} {w : Copy} {t : ℕ} {q : List cfg.BufId}

theorem disk_last (h : Rule s) (hS : Sound s) (hA : Admission s) (hp : Busy (kind (s.proc p).pc)) (hk : ∀ i, (s.buf i).key = k → (s.buf i).dirty = false) : s.disk k = s.book.last k := by
  rcases hS.coherent.disk k with hd | ⟨i,hik,hi⟩
  · exact hd
  · exfalso
    rcases hi with hi | hi
    · exact Bool.false_ne_true ((hk i hik).symm.trans hi)
    · exact Bool.false_ne_true ((h.saved hA hp i).symm.trans hi)

theorem clean (h : Rule s) (hA : Admission s) (hp : Busy (kind (s.proc p).pc))
    (hw : ∀ i, (s.proc p).bio ≠ .writeWait i) (hpin : s.book.pinned = []) (i : cfg.BufId) :
    (s.buf i).dirty = false := by
  by_contra hd
  rcases h.dirty i (by simpa using hd) with ⟨-,hi⟩ | ⟨q,hq⟩
  · simp [hpin] at hi
  · have hqp : q = p := hA.sole q p (busy_of_waits (hq ▸ h.place q)) hp
    exact hw i (hqp ▸ hq)

theorem room (h : Rule s) (hpin : s.book.pinned = s.lh)
    (hi : (s.buf i).key.1 = cfg.dev → cfg.InLog (s.buf i).key.2) : s.lh.length < cfg.nbuf := by
  let A : Finset cfg.BufId := {j | (s.buf j).key.1 = cfg.dev ∧ (s.buf j).key.2 ∈ s.lh}
  have hsub : s.lh.toFinset ⊆ A.image fun j => (s.buf j).key.2 := by
    intro b hb
    rw [mem_toFinset] at hb
    obtain ⟨j,-,hj⟩ := h.pinned b (hpin ▸ hb)
    exact Finset.mem_image.mpr ⟨j,by simp [A,hj,hb],by simp [hj]⟩
  have hA : A.card < Fintype.card cfg.BufId := by
    refine Finset.card_lt_univ_of_notMem (x := i) ?_
    simp only [A,Finset.mem_filter,Finset.mem_univ,true_and,not_and]
    exact fun hd hb => h.home _ hb (hi hd)
  calc s.lh.length = s.lh.toFinset.card := (toFinset_card_of_nodup h.nodup).symm
    _ ≤ (A.image fun j => (s.buf j).key.2).card := Finset.card_le_card hsub
    _ ≤ A.card := Finset.card_image_le
    _ < cfg.nbuf := by simpa using hA

theorem keep (h : Rule s) (hview : view s' = view s) (hu : s'.book.unsaved = s.book.unsaved)
    (hcalm : s'.up = true → s'.committing = false → (view s).hdr = [] ∧ s.book.pinned = s.lh)
    (hdirty : ∀ i, (s'.buf i).dirty = (s.buf i).dirty)
    (hkey : ∀ i, (s.buf i).dirty = true ∨ s.book.unsaved i = true → (s'.buf i).key = (s.buf i).key)
    (hheld : ∀ q i, i ∈ (s.proc q).held → (s.proc q).op.isSome = true → s.book.unsaved i = true →
      i ∈ (s'.proc q).held ∧ (s'.proc q).op.isSome = true)
    (hending : ∀ q, (s'.proc q).pc = .endOp → ∀ i ∈ (s'.proc q).held, s.book.unsaved i = false)
    (hwait : ∀ q i, (s.proc q).bio = .writeWait i → (s.buf i).dirty = true →
      (s'.proc q).bio = .writeWait i)
    (hplace : ∀ q, Place (view s) (tag s') (s'.proc q).bio (s'.proc q).pc) : Rule s' := by
  have hlh : s'.lh = s.lh := congrArg View.lh hview
  have hpin : s'.book.pinned = s.book.pinned := congrArg View.pinned hview
  have hpend : s'.book.pend = s.book.pend := congrArg View.pend hview
  refine ⟨?_,?_,?_,?_,?_,?_,?_,?_,?_,?_,?_,?_⟩
  · rw [hview]
    exact hplace
  · intro hup hc
    rw [hview,hpin,hlh]
    exact hcalm hup hc
  · intro i hi
    rw [hu] at hi
    obtain ⟨hhome,q,hq,ho⟩ := h.owner i hi
    rw [hkey i (.inr hi)]
    exact ⟨hhome,q,hheld q i hq ho hi⟩
  · rw [hu]
    exact hending
  · rw [hlh]
    exact h.nodup
  · rw [hlh]
    exact h.home
  · rw [hview]
    exact h.hdrNodup
  · rw [hview]
    exact h.hdrHome
  · rw [hview]
    exact h.hdrLength
  · intro b hb
    obtain ⟨i,hd,hk⟩ := h.pinned b (hpin ▸ hb)
    exact ⟨i,(hdirty i).trans hd,(hkey i (.inl hd)).trans hk⟩
  · intro i hd
    rw [hdirty] at hd
    rw [hkey i (.inl hd),hpin]
    exact (h.dirty i hd).imp_right fun ⟨q,hq⟩ => ⟨q,hwait q i hq hd⟩
  · rw [hpend,hlh]
    exact h.pend

theorem place_other {q : cfg.ProcId} (h : Rule s) (hS : Sound s)
    (hdirty : ∀ i, (s'.buf i).dirty = (s.buf i).dirty)
    (hkey : ∀ i, 0 < (s.buf i).refcnt → (s'.buf i).key = (s.buf i).key) :
    Place (view s) (tag s') (s.proc q).bio (s.proc q).pc := by
  refine place_congr (h.place q) (fun i hi => ?_) fun i hi => ?_
  · simp only [tag,hdirty,hkey i (hS.refcnt_refs hi)]
  · exact hkey i (hS.refcnt_held (hS.logs q i hi))

theorem place_deliver (h : Rule s) (hL : Laid cfg) {f : cfg.BufId → Key × Bool} {b : Bio cfg} (hp : Place (view s) f b pc) (hb : Asks b k)
    (hi : (f i).1 = k) (hs : (s.buf i).key = k) : Place (view s) f .idle (pc.got i) := by
  have hidle : b ≠ .idle := by
    rintro rfl
    simp [Asks] at hb
  cases pc with
  | user => simp [Place,Pc.got]
  | copyLog w t =>
    obtain ⟨ha,hlt,hloop⟩ := hp
    cases asks_key hb ha
    refine ⟨rfl,hloop,hlt,fun hw => ?_,hi⟩
    -- the first log block is in a buffer of its own
    by_cases ht : t = 0
    · refine h.room ?_ (i := i) fun _ => ?_
      · have hpin := hloop.pinned
        rwa [hw] at hpin
      · have := hL.size
        rw [hs,ht]
        simp only [Config.slot,Config.InLog]
        omega
    · exact hloop.small hw (by omega)
  | copyHome =>
    obtain ⟨ha,hloop,hhave⟩ := hp
    cases asks_key hb ha
    exact ⟨rfl,hloop,hhave,hi⟩
  | writeHeadRead =>
    obtain ⟨ha,hready⟩ := hp
    cases asks_key hb ha
    exact ⟨rfl,hready,hi⟩
  | readHeadRead =>
    obtain ⟨ha,hblank⟩ := hp
    cases asks_key hb ha
    exact ⟨rfl,hblank,hi⟩
  | beginOp | endOp => exact absurd hp hidle
  | endCommit | initDone | copy | copyEnd | clear | writeHead =>
    exact absurd hb (not_asks_of_resting hp.1)
  | copyRelse =>
    rcases hp.2.2 with ⟨rfl,-⟩ | ⟨rfl | hb',-⟩
    · exact absurd hb not_asks_writeWait
    · exact absurd hb not_asks_writeWait
    · exact absurd hb' hidle
  | writeHeadEnd =>
    rcases hp.2 with ⟨rfl,-⟩ | ⟨rfl | hb',-⟩
    · exact absurd hb not_asks_writeWait
    · exact absurd hb not_asks_writeWait
    · exact absurd hb' hidle
  | _ =>
    exact absurd hp.1 hidle

theorem bioStep (h : Rule s) (hL : Laid cfg) (hS : Sound s) (hs : bioStep s p = some s') : Rule s' := by
  obtain ⟨hlog,-⟩ := bioStep_frame hs
  obtain ⟨q,hq,hproc⟩ := bioStep_moves hs
  have hdirty := bioStep_dirty hS.inv hs
  have hkey : ∀ i, (s.buf i).dirty = true ∨ 0 < (s.buf i).refcnt → (s'.buf i).key = (s.buf i).key := by
    intro i hi
    rcases bioStep_key hs i with hk | hv
    · exact hk
    · obtain ⟨hr,hd⟩ := Inv.victim_free (c := cache s) hv hS.inv
      simp only [cache] at hr hd
      rcases hi with hi | hi
      · simp [hd] at hi
      · omega
  have hself : s'.proc p = q := by simp [hproc]
  have hother : ∀ r, r ≠ p → s'.proc r = s.proc r := fun r hr => by simp [hproc,hr]
  have hplace := h.place_other (q := p) hS hdirty fun i hi => hkey i (.inr hi)
  have hidle : (s.proc p).bio ≠ .idle := by
    intro hb
    simp [FsMachine.bioStep,hb] at hs
  refine h.keep (view_same hlog) hlog.unsaved
    (fun hup hc => h.calm (hlog.up ▸ hup) (hlog.committing ▸ hc)) hdirty (fun i hi => hkey i ?_) ?_ ?_ ?_ ?_
  · refine hi.imp_right fun hi => ?_
    obtain ⟨-,r,hr,-⟩ := h.owner i hi
    exact hS.refcnt_held hr
  · intro r i hi ho _
    by_cases hr : r = p
    · subst hr
      rw [hself]
      cases hq with
      | deliver k j => exact ⟨mem_keep _ j hi,ho⟩
      | _ => exact ⟨hi,ho⟩
    · rw [hother r hr]
      exact ⟨hi,ho⟩
  · intro r hpc
    by_cases hr : r = p
    · subst hr
      exfalso
      have hend : (s.proc r).pc = .endOp := by
        rw [hself] at hpc
        cases hq with
        | deliver k j =>
          have hgot : (s.proc r).pc.got j = .endOp := hpc
          cases hc : (s.proc r).pc <;> simp_all [Pc.got]
        | _ => exact hpc
      have hp := h.place r
      rw [hend] at hp
      exact hidle hp
    · rw [hother r hr] at hpc ⊢
      exact h.ending r hpc
  · intro r i hb hd
    by_cases hr : r = p
    · subst hr
      rw [hself]
      cases hq with
      | asks k b ha => simp [hb,Asks] at ha
      | put j hj => simp [hb] at hj
      | wrote j hj hdj =>
        rw [hb] at hj
        cases hj
        simp [hd] at hdj
      | panic => exact hb
      | deliver k j ht => simp [hb,target] at ht
    · rw [hother r hr]
      exact hb
  · intro r
    by_cases hr : r = p
    · subst hr
      rw [hself]
      cases hq with
      | asks k b ha hb => exact place_asks hplace ha hb
      | put j hj => exact place_put (hj ▸ hplace)
      | wrote j hj hd => exact place_wrote (hj ▸ hplace) ((hdirty j).trans hd)
      | panic => exact hplace
      | deliver k j ht =>
        have hk : (s.buf j).key = k := hS.inv.key r k j ht
        have huse : 0 < (s.buf j).refcnt := hS.inv.refcnt_pos (Inv.mem_uses_of_target (q := r) ht)
        exact h.place_deliver hL hplace (asks_of_target ht) ((hkey j (.inr huse)).trans hk) hk
    · rw [hother r hr]
      exact h.place_other hS hdirty fun i hi => hkey i (.inr hi)

theorem turn (h : Rule s) (hS : Sound s) (hview : view s' = view s)
    (hu : s'.book.unsaved = s.book.unsaved) (htag : tag s' = tag s)
    (hcalm : s'.up = true → s'.committing = false → (view s).hdr = [] ∧ s.book.pinned = s.lh)
    (hother : ∀ r, r ≠ p → Stays (s.proc r) (s'.proc r)) (hb : (s.proc p).bio = .idle)
    (hheld : ∀ i ∈ (s.proc p).held, (s.proc p).op.isSome = true → s.book.unsaved i = true →
      i ∈ (s'.proc p).held ∧ (s'.proc p).op.isSome = true)
    (hending : (s'.proc p).pc = .endOp → ∀ i ∈ (s'.proc p).held, s.book.unsaved i = false)
    (hplace : Place (view s) (tag s) (s'.proc p).bio (s'.proc p).pc) : Rule s' := by
  have hdirty : ∀ i, (s'.buf i).dirty = (s.buf i).dirty := fun i => congrArg Prod.snd (congrFun htag i)
  have hkey : ∀ i, (s'.buf i).key = (s.buf i).key := fun i => congrArg Prod.fst (congrFun htag i)
  refine h.keep hview hu hcalm hdirty (fun i _ => hkey i) ?_ ?_ ?_ ?_
  · intro r i hi ho hui
    by_cases hr : r = p
    · subst hr
      exact hheld i hi ho hui
    · rw [(hother r hr).held,(hother r hr).op]
      exact ⟨hi,ho⟩
  · intro r hpc
    by_cases hr : r = p
    · subst hr
      exact hending hpc
    · rw [(hother r hr).pc] at hpc
      rw [(hother r hr).held]
      exact h.ending r hpc
  · intro r i hw _
    have hr : r ≠ p := by
      rintro rfl
      simp [hb] at hw
    rw [(hother r hr).bio]
    exact hw
  · intro r
    by_cases hr : r = p
    · subst hr
      rw [htag]
      exact hplace
    · rw [(hother r hr).bio,(hother r hr).pc]
      exact h.place_other hS hdirty fun i _ => hkey i

theorem work (h : Rule s) (hA : Admission s) (hp : Busy (kind (s.proc p).pc))
    (hb : (s.proc p).bio = .idle) (hother : ∀ r, r ≠ p → s'.proc r = s.proc r)
    (hdisk : s'.disk = s.disk) (hup : s'.up = s.up) (hcom : s'.committing = s.committing)
    (hu : ∀ i, s'.book.unsaved i = true → s.book.unsaved i = true)
    (hkey : ∀ i, (s'.buf i).key = (s.buf i).key) (hpin : s'.book.pinned = s.book.pinned)
    (hdirty : ∀ i, (s'.buf i).dirty = (s.buf i).dirty ∨
      (s'.buf i).dirty = true ∧ (s'.proc p).bio = .writeWait i)
    (hnodup : s'.lh.Nodup) (hhome : ∀ b ∈ s'.lh, ¬cfg.InLog b)
    (hpend : ∀ e ∈ s'.book.pend, e.block ∈ s'.lh) (hend : (s'.proc p).pc ≠ .endOp)
    (hplace : Place (view s') (tag s') (s'.proc p).bio (s'.proc p).pc) : Rule s' := by
  have hsaved : ∀ i, s'.book.unsaved i = false := by
    intro i
    by_contra hi
    exact absurd (hu i (by simpa using hi)) (by simp [h.saved hA hp i])
  have hhdr : (view s').hdr = (view s).hdr := by simp only [View.hdr,view,hdisk]
  refine ⟨?_,?_,?_,?_,hnodup,hhome,?_,?_,?_,?_,?_,hpend⟩
  · intro r
    by_cases hr : r = p
    · subst hr
      exact hplace
    · rw [hother r hr]
      exact place_calm (h.place r) (fun hb => hr (hA.sole r p hb hp)) fun i _ => hkey i
  · intro hu' hc'
    exact absurd hp (hA.not_busy (hup ▸ hu') (hcom ▸ hc') p)
  · intro i hi
    simp [hsaved i] at hi
  · exact fun _ _ i _ => hsaved i
  · rw [hhdr]
    exact h.hdrNodup
  · rw [hhdr]
    exact h.hdrHome
  · rw [hhdr]
    exact h.hdrLength
  · intro b hb'
    obtain ⟨i,hd,hk⟩ := h.pinned b (hpin ▸ hb')
    refine ⟨i,?_,(hkey i).trans hk⟩
    rcases hdirty i with hi | ⟨hi,-⟩
    · exact hi.trans hd
    · exact hi
  · intro i hd
    rw [hkey i,hpin]
    rcases hdirty i with hi | ⟨-,hi⟩
    · refine (h.dirty i (hi ▸ hd)).imp_right (Exists.imp fun q hq => ?_)
      have hqp : q ≠ p := by
        rintro rfl
        simp [hb] at hq
      rw [hother q hqp]
      exact hq
    · exact .inr ⟨p,hi⟩

theorem tag_brelse (t : State cfg) (i : cfg.BufId) (q : Proc cfg) : tag (brelse t p i q) = tag t := by
  funext j
  unfold brelse
  split_ifs
  · rfl
  · exact Prod.ext (update_key (by rfl) j) (update_dirty (by rfl) j)

theorem brelse_eq {t : State cfg} (q : Proc cfg) (hl : (t.buf i).lock = some p) :
    brelse t p i q = setProc (setBuf t i {t.buf i with lock := none}) p {q with bio := .put i} :=
  if_neg (not_not.mpr hl)

theorem goOn {q : Proc cfg} (h : Rule s) (hS : Sound s) (hb : (s.proc p).bio = .idle)
    (hview : view s' = view s) (hu : s'.book.unsaved = s.book.unsaved) (htag : tag s' = tag s)
    (hcalm : s'.up = true → s'.committing = false → (view s).hdr = [] ∧ s.book.pinned = s.lh)
    (hproc : s'.proc = update s.proc p q) (hheld : q.held = (s.proc p).held)
    (hop : q.op = (s.proc p).op) (hend : q.pc ≠ .endOp) (hplace : Place (view s) (tag s) q.bio q.pc) :
    Rule s' := by
  have hself : s'.proc p = q := by simp [hproc]
  refine h.turn hS (p := p) hview hu htag hcalm (fun r hr => ?_) hb ?_ ?_ ?_
  · rw [hproc]
    exact stays_update r hr
  · rw [hself,hheld,hop]
    exact fun i hi ho _ => ⟨hi,ho⟩
  · rw [hself]
    exact fun hpc => absurd hpc hend
  · rw [hself]
    exact hplace

theorem goto (h : Rule s) (hS : Sound s) (hb : (s.proc p).bio = .idle)
    (hend : pc ≠ .endOp) (hplace : Place (view s) (tag s) .idle pc) : Rule (goto s p pc) :=
  h.goOn hS hb rfl rfl rfl h.calm rfl rfl rfl hend (by rw [hb]; exact hplace)

theorem bread (h : Rule s) (hS : Sound s) (hb : (s.proc p).bio = .idle)
    (hend : pc ≠ .endOp) (hplace : Place (view s) (tag s) (.bget k) pc) : Rule (bread s p pc k) :=
  h.goOn hS hb rfl rfl rfl h.calm rfl rfl rfl hend hplace

theorem brelse (h : Rule s) (hS : Sound s)
    (hb : (s.proc p).bio = .idle) (hi : (s.buf i).lock = some p) (hend : pc ≠ .endOp)
    (hplace : Place (view s) (tag s) (.put i) pc) :
    Rule (FsMachine.brelse s p i {s.proc p with pc := pc}) := by
  have htag := tag_brelse (p := p) s i {s.proc p with pc := pc}
  rw [brelse_eq _ hi] at *
  exact h.goOn hS hb rfl rfl htag h.calm rfl rfl rfl hend hplace

theorem beginOp (h : Rule s) (hS : Sound s) (hb : (s.proc p).bio = .idle)
    (hpc : (s.proc p).pc = .beginOp) : Rule (beginOp s p) := by
  unfold FsMachine.beginOp
  split_ifs
  · refine h.goOn hS hb rfl rfl rfl h.calm rfl rfl rfl (by simp [hpc]) ?_
    simp only [hb,hpc]
    rfl
  · refine h.turn hS (p := p) rfl rfl rfl h.calm stays_update hb ?_ ?_ ?_
    · simp +contextual [setProc]
    · simp [setProc]
    · simp [setProc,Place,hb]

theorem endOp (h : Rule s) (hS : Sound s) (hA : Admission s) (hb : (s.proc p).bio = .idle)
    (hpc : (s.proc p).pc = .endOp) : Rule (endOp s p) := by
  have hin : s.up = true ∧ s.committing = false := hA.fit (p := p) (k := .inOp) (by rw [hpc]; rfl)
  have hsaved : ∀ i ∈ (s.proc p).held, ¬s.book.unsaved i = true := fun i hi => by
    simp [h.ending p hpc i hi]
  unfold FsMachine.endOp
  rw [if_neg (by simp [hin.2])]
  split_ifs
  · refine h.turn hS (p := p) rfl rfl rfl (by simp) stays_update hb ?_ ?_ ?_
    · exact fun i hi _ hu => absurd hu (hsaved i hi)
    · simp [setProc]
    · have hcalm : (view s).hdr = [] ∧ (view s).pinned = (view s).lh := h.calm hin.1 hin.2
      simpa [setProc,Place,hb] using hcalm
  · refine h.turn hS (p := p) rfl rfl rfl h.calm (fun r hr => ?_) hb ?_ ?_ ?_
    · have hr := stays_update (s := s) (p := p) (q := {s.proc p with pc := .user, op := none}) r hr
      exact ⟨hr.bio,hr.pc,hr.held,hr.op⟩
    · exact fun i hi _ hu => absurd hu (hsaved i hi)
    · simp [setProc,wakeup]
    · simp [setProc,wakeup,Place,hb]

theorem logWrite (h : Rule s) (hS : Sound s) (hb : (s.proc p).bio = .idle)
    (hpc : (s.proc p).pc = .logWrite i) : Rule (logWrite s p i) := by
  have hp := h.place p
  rw [hb,hpc] at hp
  have hpanic : ∀ msg, Rule (FsMachine.panic s p msg) := fun msg =>
    h.goOn hS hb rfl rfl rfl h.calm rfl rfl rfl (by simp [hpc]) (by simpa only [hb,hpc] using hp)
  unfold FsMachine.logWrite
  split_ifs
  · exact hpanic _
  · exact hpanic _
  · exact h.goto hS hb (by simp) hp

theorem commit (h : Rule s) (hS : Sound s) (hb : (s.proc p).bio = .idle)
    (hpc : (s.proc p).pc = .commit) :
    Rule (FsMachine.goto s p (if 0 < s.lh.length then .copy .writeLog 0 else .endCommit)) := by
  have hp := h.place p
  rw [hb,hpc] at hp
  obtain ⟨-,hhdr,hpin⟩ := hp
  split_ifs with hn
  · refine h.goto hS hb (by simp) ⟨.inl rfl,Nat.zero_le _,by simpa using hhdr,by simp,hpin,?_,?_,?_⟩
    · simp [copied]
    · simp
    · exact fun _ => ne_nil_of_length_pos hn
  · have hnil : s.lh = [] := eq_nil_of_length_eq_zero (by omega)
    have hpend : s.book.pend = [] := by
      by_contra hne
      obtain ⟨e,he⟩ := exists_mem_of_ne_nil _ hne
      simpa [hnil] using h.pend e he
    exact h.goto hS hb (by simp) ⟨.inl rfl,⟨hnil,hpend,hpin.trans hnil⟩,hhdr⟩

theorem copy (h : Rule s) (hS : Sound s) (hb : (s.proc p).bio = .idle)
    (hpc : (s.proc p).pc = .copy w t) :
    Rule (if t < s.lh.length then FsMachine.bread s p (.copyLog w t) (cfg.slot t)
      else FsMachine.goto s p w.after) := by
  have hp := h.place p
  rw [hpc] at hp
  obtain ⟨-,hloop⟩ := hp
  split_ifs with ht
  · exact h.bread hS hb (by simp) ⟨.inl rfl,ht,hloop⟩
  · have hle : t ≤ s.lh.length := hloop.bound
    have hend : t = s.lh.length := by omega
    subst hend
    cases w with
    | writeLog | install | recover => exact h.goto hS hb (by simp [Copy.after]) ⟨.inl rfl,hloop⟩

theorem copyNext (h : Rule s) (hS : Sound s)
    (hb : (s.proc p).bio = .idle) (hpc : (s.proc p).pc = .copyNext w t l) :
    Rule (FsMachine.bread s p (.copyHome w t l) (cfg.dev,s.lh.getD t 0)) := by
  have hp := h.place p
  rw [hpc] at hp
  exact h.bread hS hb (by simp) ⟨.inl rfl,hp.2⟩

theorem copyRelse (h : Rule s) (hS : Sound s)
    (hb : (s.proc p).bio = .idle) (hpc : (s.proc p).pc = .copyRelse w t l i) :
    Rule (FsMachine.brelse s p (w.src l i) {s.proc p with pc := .copyEnd w t (w.dst l i)}) := by
  have hp := h.place p
  rw [hpc,hb] at hp
  have hsrc : w.src l i ∈ (s.proc p).pc.refs := by
    rw [hpc]
    cases w <;> simp [Pc.refs,Copy.src]
  refine h.brelse hS hb (hS.lock_of_refs hsrc) (by simp) ?_
  rcases hp.2.2 with ⟨hw,-⟩ | ⟨-,-,hloop⟩
  · cases hw
  · exact ⟨.inr ⟨_,rfl⟩,hloop⟩

theorem copyEnd (h : Rule s) (hS : Sound s)
    (hb : (s.proc p).bio = .idle) (hpc : (s.proc p).pc = .copyEnd w t i) :
    Rule (FsMachine.brelse s p i {s.proc p with pc := .copy w (t+1)}) := by
  have hp := h.place p
  rw [hpc] at hp
  exact h.brelse hS hb (hS.lock_of_refs (by simp [hpc,Pc.refs])) (by simp) ⟨.inr ⟨_,rfl⟩,hp.2⟩

theorem writeHeadEnd {k : Head} (h : Rule s) (hS : Sound s)
    (hb : (s.proc p).bio = .idle) (hpc : (s.proc p).pc = .writeHeadEnd k i) :
    Rule (FsMachine.brelse s p i {s.proc p with pc := k.after}) := by
  have hp := h.place p
  rw [hpc,hb] at hp
  refine h.brelse hS hb (hS.lock_of_refs (by simp [hpc,Pc.refs])) (by cases k <;> simp [Head.after]) ?_
  rcases hp.2 with ⟨hw,-⟩ | ⟨-,-,hdone⟩
  · cases hw
  · cases k with
    | commit | erase | recover => exact ⟨.inr ⟨_,rfl⟩,hdone⟩

/-- `commit` or `recover_from_log` is done, the log is open again. -/
theorem reopen (h : Rule s) (hS : Sound s) (hb : (s.proc p).bio = .idle)
    (hpc : (s.proc p).pc = .endCommit ∨ (s.proc p).pc = .initDone) (hview : view s' = view s)
    (hu : s'.book.unsaved = s.book.unsaved) (htag : tag s' = tag s)
    (hother : ∀ r, r ≠ p → Stays (s.proc r) (s'.proc r)) (hbio : (s'.proc p).bio = .idle)
    (hpc' : (s'.proc p).pc = .user) (hheld : (s'.proc p).held = (s.proc p).held)
    (hop : (s'.proc p).op = (s.proc p).op) : Rule s' := by
  have hp : Blank (view s) ∧ (view s).hdr = [] := by
    have hp := h.place p
    rcases hpc with hpc | hpc <;> rw [hpc] at hp <;> exact hp.2
  refine h.turn hS (p := p) hview hu htag (fun _ _ => ⟨hp.2,?_⟩) hother hb ?_ ?_ ?_
  · exact hp.1.pinned.trans hp.1.lh.symm
  · rw [hheld,hop]
    exact fun i hi ho _ => ⟨hi,ho⟩
  · simp [hpc']
  · simp [hpc',hbio,Place]

/-- A process of `log.c` stores into a buffer it has locked, and waits for its write. -/
theorem bwrite_store_eq (x : Block) (q : Proc cfg) (hl : (s.buf i).lock = some p) :
    bwrite (store s i x) p i q = setProc {markDirty (store s i x) i with
      idequeue := s.idequeue++[i]} p {q with bio := .writeWait i} := by
  rw [bwrite_eq,if_neg (not_not.mpr ?_)]
  · rfl
  · simpa [store,setBuf] using hl

theorem storeWrite {x : Block} (h : Rule s) (hS : Sound s)
    (hA : Admission s) (hp : Busy (kind (s.proc p).pc)) (hb : (s.proc p).bio = .idle)
    (hi : i ∈ (s.proc p).pc.refs) (hend : pc ≠ .endOp)
    (hplace : Place {view s with last := update s.book.last (s.buf i).key x}
      (update (tag s) i ((s.buf i).key,true)) (.writeWait i) pc) :
    Rule (bwrite (store s i x) p i {s.proc p with pc := pc}) := by
  rw [bwrite_store_eq x _ (hS.lock_of_refs hi)]
  have htag : tag (setProc {markDirty (store s i x) i with idequeue := s.idequeue++[i]} p
      {s.proc p with pc := pc, bio := .writeWait i}) = update (tag s) i ((s.buf i).key,true) := by
    funext j
    by_cases hj : j = i
    · subst hj
      simp [tag,setProc,markDirty,setBuf,store]
    · simp [tag,setProc,markDirty,setBuf,store,hj]
  refine h.work hA hp hb ?_ rfl rfl rfl ?_ ?_ rfl ?_ h.nodup h.home h.pend ?_ ?_
  · exact fun r hr => by simp [setProc,markDirty,setBuf,store,hr]
  · intro j hj
    by_cases hji : j = i
    · simp [setProc,markDirty,setBuf,store,hji] at hj
    · simpa [setProc,markDirty,setBuf,store,hji] using hj
  · intro j
    exact (update_key (by rfl) j).trans (store_key s i x j)
  · intro j
    by_cases hji : j = i
    · subst hji
      exact .inr (by simp [setProc,markDirty,setBuf,store])
    · exact .inl (by simp [setProc,markDirty,setBuf,store,hji])
  · simpa [setProc] using hend
  · rw [htag]
    simp only [setProc,update_self]
    exact hplace

theorem slot_lt {v : View cfg} (hL : Laid cfg) (hloop : Loop v w t)
    (hlt : t < v.lh.length) (hroom : w = .writeLog → v.lh.length < cfg.nbuf)
    (hhdr : v.hdr.length < cfg.size) : t+1 < cfg.size := by
  by_cases hw : w = .writeLog
  · have := hroom hw
    have := hL.fits
    omega
  · rw [hloop.hdr,if_neg hw] at hhdr
    omega

theorem pins_moved (lh : List ℕ) (t : ℕ) (w : Copy) : pins lh (moved t w) w = pins lh t w := by
  cases w <;> rfl

theorem getD_mem {l : List ℕ} (h : t < l.length) : l.getD t 0 ∈ l := by
  simp [h]

theorem getD_ne {l : List ℕ} {j : ℕ} (hl : l.Nodup) (hj : j < l.length) (ht : t < l.length)
    (h : j ≠ t) : l.getD j 0 ≠ l.getD t 0 := by
  simpa [hj,ht] using fun he => h (hl.getElem_inj_iff.mp he)

/-- The blocks that agree once the copy of round `t` is in memory. -/
theorem done_moved {v : View cfg} {x : Block} (hL : Laid cfg) (hloop : Loop v w t)
    (hlt : t < v.lh.length) (hroom : w = .writeLog → v.lh.length < cfg.nbuf)
    (hhdr : v.hdr.length < cfg.size) (hnodup : v.lh.Nodup) (hhome : ∀ b ∈ v.lh, ¬cfg.InLog b)
    (hx : x = if w = .writeLog then v.last (cfg.dev,v.lh.getD t 0) else v.last (cfg.slot t))
    (j : ℕ) (hj : j < copied v.lh (moved t w) w) :
    let last := update v.last (if w = .writeLog then cfg.slot t else (cfg.dev,v.lh.getD t 0)) x
    last (cfg.slot j) = last (cfg.dev,v.lh.getD j 0) := by
  have hsize := slot_lt hL hloop hlt hroom hhdr
  have hne : ∀ b ∈ v.lh, cfg.slot t ≠ (cfg.dev,b) := fun b hb => slot_ne_home hsize (hhome b hb)
  cases w with
  | writeLog =>
    have hj : j < t+1 := hj
    have hjl : j < v.lh.length := by omega
    simp only [if_true] at hx ⊢
    rw [update_of_ne (hne _ (getD_mem hjl)).symm]
    by_cases hjt : j = t
    · rw [hjt,update_self,hx]
    · rw [update_of_ne (slot_ne_slot hjt)]
      exact hloop.done j (show j < t by omega)
  | install =>
    have hsame : x = v.last (cfg.dev,v.lh.getD t 0) := by
      rw [hx,if_neg (by simp)]
      exact hloop.done t hlt
    simp only [reduceCtorEq,if_false,hsame,Function.update_eq_self]
    exact hloop.done j hj
  | recover =>
    have hj : j < t+1 := hj
    have hjl : j < v.lh.length := by omega
    have hslot : cfg.slot j ≠ (cfg.dev,v.lh.getD t 0) :=
      slot_ne_home (by omega) (hhome _ (getD_mem hlt))
    simp only [reduceCtorEq,if_false] at hx ⊢
    rw [update_of_ne hslot]
    by_cases hjt : j = t
    · rw [hjt,update_self,hx]
    · have hdiff : (cfg.dev,v.lh.getD j 0) ≠ (cfg.dev,v.lh.getD t 0) := by
        simpa using getD_ne hnodup hjl hlt hjt
      rw [update_of_ne hdiff]
      exact hloop.done j (show j < t by omega)

theorem copyMove (h : Rule s) (hL : Laid cfg) (hS : Sound s)
    (hA : Admission s) (hb : (s.proc p).bio = .idle) (hpc : (s.proc p).pc = .copyMove w t l i) :
    Rule (bwrite (store s (w.dst l i) (s.buf (w.src l i)).data) p (w.dst l i)
      {s.proc p with pc := .copyRelse w t l i}) := by
  have hp := h.place p
  rw [hpc] at hp
  obtain ⟨-,hloop,hhave,hhome⟩ := hp
  have hrefs : ∀ j, j = l ∨ j = i → j ∈ (s.proc p).pc.refs := fun j hj => by
    rw [hpc]
    simpa [Pc.refs] using hj
  have hdata : ∀ j, j = l ∨ j = i → (s.buf j).data = s.book.last (s.buf j).key := fun j hj =>
    hS.coherent.data j (hS.inv.valid p j (by simp [cache,mine,hrefs j hj]))
  have hkl : (s.buf l).key = cfg.slot t := hhave.key
  have hki : (s.buf i).key = (cfg.dev,s.lh.getD t 0) := hhome
  have hdst : (s.buf (w.dst l i)).key
      = if w = .writeLog then cfg.slot t else (cfg.dev,s.lh.getD t 0) := by
    cases w <;> simp [Copy.dst,hkl,hki]
  have hx : (s.buf (w.src l i)).data = if w = .writeLog then
      (view s).last (cfg.dev,(view s).lh.getD t 0) else (view s).last (cfg.slot t) := by
    cases w <;> simp [Copy.src,hdata,hkl,hki,view]
  -- the tags of both buffers but for the flag
  have hkeys : ∀ j, (update (tag s) (w.dst l i) ((s.buf (w.dst l i)).key,true) j).1
      = (tag s j).1 := fun j => by
    by_cases hj : j = w.dst l i
    · rw [hj,update_self]
      rfl
    · rw [update_of_ne hj]
  refine h.storeWrite hS hA (by rw [hpc]; exact busy_copy w) hb
    (hrefs _ (by cases w <;> simp [Copy.dst])) (by simp) ⟨⟨hhave.lt,hhave.room,?_⟩,?_,.inl ⟨rfl,?_,?_⟩⟩
  · rw [hkeys]
    exact hhave.key
  · rw [hkeys]
    exact hhome
  · rw [update_self]
  · refine ⟨?_,hloop.hdr,hloop.pend,?_,?_,fun hw _ => hhave.room hw,hloop.some⟩
    · have hlt : t < s.lh.length := hhave.lt
      cases w <;> simp only [moved,view] <;> omega
    · exact hloop.pinned.trans (pins_moved _ _ _).symm
    · intro j hj
      have hdone := done_moved hL hloop hhave.lt hhave.room h.hdrLength h.nodup h.home hx j hj
      rw [hdst]
      exact hdone

theorem clear {r : Bool} (h : Rule s) (hS : Sound s) (hA : Admission s)
    (hb : (s.proc p).bio = .idle) (hpc : (s.proc p).pc = .clear r) :
    Rule {FsMachine.goto s p (.writeHead (if r then .recover else .erase)) with lh := []} := by
  have hp := h.place p
  rw [hpc] at hp
  obtain ⟨-,hloop⟩ := hp
  have hbusy : Busy (kind (s.proc p).pc) := by
    rw [hpc]
    cases r <;> trivial
  have hw : (if r then Copy.recover else .install) ≠ .writeLog := by cases r <;> simp
  have hpin : s.book.pinned = [] := by
    have hpins := hloop.pinned
    cases r <;> simpa [pins,view] using hpins
  have hpend : s.book.pend = [] := hloop.pend hw
  have hhdr : (view s).hdr = s.lh := by
    rw [hloop.hdr,if_neg hw]
    rfl
  have hdisk : ∀ k, s.disk k = s.book.last k := fun k => h.disk_last hS hA hbusy fun i _ =>
    h.clean hA hbusy (by simp [hb]) hpin i
  have hready : ∀ j < (view s).hdr.length,
      s.disk (cfg.dev,(view s).hdr.getD j 0) = s.disk (cfg.slot j) := by
    intro j hj
    rw [hhdr] at hj ⊢
    rw [hdisk,hdisk]
    exact (hloop.done j (by cases r <;> exact hj)).symm
  refine h.work hA hbusy hb ?_ rfl rfl rfl (fun _ => id) (fun _ => rfl) rfl (fun _ => .inl rfl)
    (by simp) (by simp) ?_ ?_ ?_
  · exact fun r hr => by simp [FsMachine.goto,setProc,hr]
  · simp [FsMachine.goto,setProc,hpend]
  · simp [FsMachine.goto,setProc]
  · simp only [FsMachine.goto,setProc,update_self]
    have hblank : Blank ({view s with lh := []} : View cfg) := ⟨rfl,hpend,hpin⟩
    refine ⟨.inl hb,?_⟩
    cases r with
    | false | true => exact ⟨hblank,hready⟩

theorem writeHeadPut {k : Head} (h : Rule s) (hL : Laid cfg) (hS : Sound s)
    (hA : Admission s) (hb : (s.proc p).bio = .idle) (hpc : (s.proc p).pc = .writeHeadPut k i) :
    Rule (bwrite (store s i (writeHeader s.lh (s.buf i).data)) p i
      {s.proc p with pc := .writeHeadEnd k i}) := by
  have hp := h.place p
  rw [hpc] at hp
  obtain ⟨-,hready,hkey⟩ := hp
  have hki : (s.buf i).key = cfg.head := hkey
  have hsize := hL.size
  refine h.storeWrite hS hA (by rw [hpc]; exact busy_head k) hb (by simp [hpc,Pc.refs]) (by simp)
    ⟨?_,.inl ⟨rfl,?_,?_,?_⟩⟩
  · rw [update_self]
    exact hki
  · rw [update_self]
  · cases k with
    | commit =>
      refine ⟨hready.bound,hready.hdr,hready.pend,hready.pinned,?_,hready.small,hready.some⟩
      intro j hj
      have hhome : cfg.head ≠ (cfg.dev,s.lh.getD j 0) :=
        head_ne_home (by omega) (h.home _ (getD_mem hj))
      have hdone := hready.done j hj
      simp only [hki,view] at hdone ⊢
      rw [update_of_ne slot_ne_head,update_of_ne hhome.symm]
      exact hdone
    | erase | recover => exact ⟨⟨hready.1.lh,hready.1.pend,hready.1.pinned⟩,hready.2⟩
  · simp only [hki,update_self]
    exact readHeader_writeHeader _ _

theorem readHeadCopy (h : Rule s) (hS : Sound s) (hA : Admission s)
    (hb : (s.proc p).bio = .idle) (hpc : (s.proc p).pc = .readHeadCopy i) :
    Rule (FsMachine.brelse {s with lh := readHeader (s.buf i).data} p i
      {s.proc p with pc := .copy .recover 0}) := by
  have hp := h.place p
  rw [hpc] at hp
  obtain ⟨-,hblank,hkey⟩ := hp
  have hki : (s.buf i).key = cfg.head := hkey
  have hbusy : Busy (kind (s.proc p).pc) := by
    rw [hpc]
    trivial
  have hrefs : i ∈ (s.proc p).pc.refs := by simp [hpc,Pc.refs]
  have hread : readHeader (s.buf i).data = (view s).hdr := by
    have hdisk : s.disk cfg.head = s.book.last cfg.head := h.disk_last hS hA hbusy fun j _ =>
      h.clean hA hbusy (by simp [hb]) hblank.pinned j
    have hdata := hS.coherent.data i (hS.inv.valid p i (by simp [cache,mine,hrefs]))
    simp only [cache,hki] at hdata
    rw [View.hdr,hdata,← hdisk]
    rfl
  have htag := tag_brelse (p := p) {s with lh := readHeader (s.buf i).data} i
    {s.proc p with pc := .copy .recover 0}
  have hlock : (s.buf i).lock = some p := hS.lock_of_refs hrefs
  rw [brelse_eq _ (by exact hlock)] at *
  refine h.work hA hbusy hb ?_ rfl rfl rfl (fun _ => id) ?_ rfl ?_ ?_ ?_ ?_ ?_ ?_
  · exact fun r hr => by simp [setProc,setBuf,hr]
  · exact fun j => congrArg Prod.fst (congrFun htag j)
  · exact fun j => .inl (congrArg Prod.snd (congrFun htag j))
  · simpa [setProc,setBuf,hread] using h.hdrNodup
  · simpa [setProc,setBuf,hread] using h.hdrHome
  · have hpend : s.book.pend = [] := hblank.pend
    simp [setProc,setBuf,hpend]
  · simp [setProc]
  · simp only [setProc,setBuf,update_self]
    refine ⟨.inr ⟨i,rfl⟩,Nat.zero_le _,?_,fun _ => hblank.pend,hblank.pinned,?_,by simp,by simp⟩
    · rw [if_neg (by simp)]
      exact hread.symm
    · simp [copied]

theorem not_busy_of_op (hA : Admission s) (ho : (s.proc p).op.isSome = true) (q : cfg.ProcId) :
    ¬Busy (kind (s.proc q).pc) := by
  intro hq
  simp [op_of_busy hA hq p] at ho

theorem operate (h : Rule s) (hS : Sound s) (hA : Admission s)
    (ho : (s.proc p).op.isSome = true) (hi : i ∈ (s.proc p).held) (hhome : Home cfg (s.buf i).key)
    (hother : ∀ r, r ≠ p → s'.proc r = s.proc r) (hself : (s'.proc p).held = (s.proc p).held)
    (hop : (s'.proc p).op = (s.proc p).op) (hbio : (s'.proc p).bio = .idle)
    (hpc : (s'.proc p).pc = .user) (hdisk : s'.disk = s.disk)
    (hcalm : s'.up = true → s'.committing = false → s'.book.pinned = s'.lh)
    (hup : s'.up = s.up) (hcom : s'.committing = s.committing)
    (hu : ∀ j, j ≠ i → s'.book.unsaved j = s.book.unsaved j)
    (hkey : ∀ j, (s'.buf j).key = (s.buf j).key)
    (hnodup : s'.lh.Nodup) (hlh : ∀ b ∈ s'.lh, ¬cfg.InLog b)
    (hpin : ∀ b ∈ s'.book.pinned, ∃ j, (s'.buf j).dirty = true ∧ (s.buf j).key = (cfg.dev,b))
    (hdirty : ∀ j, (s'.buf j).dirty = true → (s.buf j).key.1 = cfg.dev ∧
      (s.buf j).key.2 ∈ s'.book.pinned)
    (hpend : ∀ e ∈ s'.book.pend, e.block ∈ s'.lh) : Rule s' := by
  have hheld : ∀ r, (s'.proc r).held = (s.proc r).held ∧ (s'.proc r).op = (s.proc r).op := by
    intro r
    by_cases hr : r = p
    · rw [hr]
      exact ⟨hself,hop⟩
    · rw [hother r hr]
      exact ⟨rfl,rfl⟩
  have hhdr : (view s').hdr = (view s).hdr := by simp only [View.hdr,view,hdisk]
  have hnb := not_busy_of_op hA ho
  refine ⟨?_,?_,?_,?_,hnodup,hlh,?_,?_,?_,?_,?_,hpend⟩
  · intro r
    by_cases hr : r = p
    · subst hr
      simp [hpc,hbio,Place]
    · rw [hother r hr]
      exact place_calm (h.place r) (hnb r) fun j _ => hkey j
  · intro hup' hcom'
    rw [hhdr]
    exact ⟨(h.calm (hup ▸ hup') (hcom ▸ hcom')).1,hcalm hup' hcom'⟩
  · intro j hj
    rw [hkey]
    by_cases hji : j = i
    · subst hji
      exact ⟨hhome,p,by rwa [hself],by rwa [hop]⟩
    · rw [hu j hji] at hj
      obtain ⟨hh,r,hr,hor⟩ := h.owner j hj
      exact ⟨hh,r,by rwa [(hheld r).1],by rwa [(hheld r).2]⟩
  · intro r hend j hj
    have hr : r ≠ p := by
      rintro rfl
      simp [hpc] at hend
    rw [hother r hr] at hend hj
    have hji : j ≠ i := by
      rintro rfl
      have hown := hS.lock_of_held hj
      rw [hS.lock_of_held hi] at hown
      exact hr (Option.some.inj hown).symm
    rw [hu j hji]
    exact h.ending r hend j hj
  · rw [hhdr]
    exact h.hdrNodup
  · rw [hhdr]
    exact h.hdrHome
  · rw [hhdr]
    exact h.hdrLength
  · intro b hb
    obtain ⟨j,hd,hk⟩ := hpin b hb
    exact ⟨j,hd,(hkey j).trans hk⟩
  · intro j hd
    rw [hkey]
    exact .inl (hdirty j hd)

/-- Outside `commit` and recovery the dirty buffers are those of the logged blocks. -/
theorem dirty_pinned (h : Rule s) (hnb : ∀ q, ¬Busy (kind (s.proc q).pc)) (hd : (s.buf i).dirty = true) :
    (s.buf i).key.1 = cfg.dev ∧ (s.buf i).key.2 ∈ s.book.pinned := by
  rcases h.dirty i hd with hi | ⟨q,hq⟩
  · exact hi
  · exact absurd (busy_of_waits (hq ▸ h.place q)) (hnb q)

theorem logAppend (h : Rule s) (hS : Sound s) (hA : Admission s)
    (hb : (s.proc p).bio = .idle) (hpc : (s.proc p).pc = .logAppend i) : Rule (logAppend s p i) := by
  have hk : kind (s.proc p).pc = .inOp := by
    rw [hpc]
    rfl
  have ho := hA.op_some p hk
  have hin : s.up = true ∧ s.committing = false := hA.fit hk
  have hp := h.place p
  rw [hpc] at hp
  have hhome : Home cfg (s.buf i).key := hp.2
  have hheld : i ∈ (s.proc p).held := hS.logs p i (.inr hpc)
  have hpin := (h.calm hin.1 hin.2).2
  have hdirty : ∀ j, j ≠ i → ((FsMachine.logAppend s p i).buf j).dirty = (s.buf j).dirty := fun j hj => by
    simp [FsMachine.logAppend,FsMachine.goto,setProc,markDirty,setBuf,hj]
  have hset : ((FsMachine.logAppend s p i).buf i).dirty = true := by
    simp [FsMachine.logAppend,FsMachine.goto,setProc,markDirty,setBuf]
  refine h.operate hS hA ho hheld hhome ?_ ?_ ?_ ?_ ?_ rfl ?_ rfl rfl ?_ ?_ ?_ ?_ ?_ ?_ ?_
  · exact fun r hr => by simp [FsMachine.logAppend,FsMachine.goto,setProc,markDirty,setBuf,hr]
  · simp [FsMachine.logAppend,FsMachine.goto,setProc,markDirty,setBuf]
  · simp [FsMachine.logAppend,FsMachine.goto,setProc,markDirty,setBuf]
  · simpa [FsMachine.logAppend,FsMachine.goto,setProc,markDirty,setBuf] using hb
  · simp [FsMachine.logAppend,FsMachine.goto,setProc]
  · intro _ _
    simp [FsMachine.logAppend,hpin]
  · intro j hj
    simp [FsMachine.logAppend,FsMachine.goto,setProc,markDirty,hj]
  · exact fun j => update_key (by rfl) j
  · exact absorb_nodup h.nodup _
  · intro b hb
    rcases mem_absorb.mp hb with rfl | hb
    · exact hhome.2
    · exact h.home b hb
  · intro b hb
    rcases mem_absorb.mp hb with rfl | hb
    · exact ⟨i,hset,Prod.ext hhome.1 rfl⟩
    · obtain ⟨j,hd,hk⟩ := h.pinned b hb
      by_cases hji : j = i
      · exact ⟨j,by rw [hji,hset],hk⟩
      · exact ⟨j,(hdirty j hji).trans hd,hk⟩
  · intro j hd
    by_cases hji : j = i
    · subst hji
      exact ⟨hhome.1,mem_absorb.mpr (.inl rfl)⟩
    · rw [hdirty j hji] at hd
      obtain ⟨h1,h2⟩ := h.dirty_pinned (not_busy_of_op hA ho) hd
      exact ⟨h1,mem_absorb.mpr (.inr h2)⟩
  · intro e he
    rcases List.mem_append.mp he with he | he
    · exact mem_absorb.mpr (.inr (h.pend e he))
    · simp only [entries,mem_map] at he
      obtain ⟨o,-,rfl⟩ := he
      exact mem_absorb.mpr (.inl rfl)

theorem modify (x : Block) (h : Rule s) (hS : Sound s) (hA : Admission s)
    (hb : (s.proc p).bio = .idle) (hpc : (s.proc p).pc = .user) (ho : (s.proc p).op.isSome = true)
    (hi : i ∈ (s.proc p).held) (hhome : Home cfg (s.buf i).key) : Rule (store s i x) := by
  have hdirty : ∀ j, ((store s i x).buf j).dirty = (s.buf j).dirty := fun j =>
    update_dirty (by rfl) j
  refine h.operate hS hA ho hi hhome (fun r _ => rfl) rfl rfl hb hpc rfl
    (fun hup hc => (h.calm hup hc).2) rfl rfl ?_ (store_key s i x) h.nodup h.home ?_ ?_ h.pend
  · intro j hj
    simp [store,hj]
  · intro b hb
    obtain ⟨j,hd,hk⟩ := h.pinned b hb
    exact ⟨j,(hdirty j).trans hd,hk⟩
  · exact fun j hd => h.dirty_pinned (not_busy_of_op hA ho) ((hdirty j) ▸ hd)

theorem callStep {c : Call cfg} (h : Rule s) (hS : Sound s) (hA : Admission s)
    (hb : (s.proc p).bio = .idle) (hpc : (s.proc p).pc = .user)
    (hok : Transactional s (.call p c)) (hs : callStep s p c = some s') : Rule s' := by
  cases c with
  | bread =>
    cases hs
    exact h.bread hS hb (by simp) (by simp [Place])
  | modify i x =>
    simp only [FsMachine.callStep] at hs
    split_ifs at hs with hi
    cases hs
    exact h.modify x hS hA hb hpc hok.1 hi hok.2
  | bwrite => exact hok.elim
  | logWrite =>
    simp only [FsMachine.callStep] at hs
    split_ifs at hs
    cases hs
    exact h.goto hS hb (by simp) ⟨rfl,hok⟩
  | brelse i =>
    simp only [FsMachine.callStep] at hs
    split_ifs at hs with hi
    cases hs
    have hlock := hS.lock_of_held hi
    have htag := tag_brelse (p := p) s i {s.proc p with held := (s.proc p).held.erase i}
    rw [brelse_eq _ hlock] at *
    have hself : ∀ q : Proc cfg, (setProc (setBuf s i {s.buf i with lock := none}) p q).proc p = q :=
      fun q => by simp [setProc]
    refine h.turn hS (p := p) rfl rfl htag h.calm stays_update hb ?_ ?_ ?_
    · rw [hself]
      intro j hj ho hu
      have hji : j ≠ i := by
        rintro rfl
        exact Bool.false_ne_true (hok.symm.trans hu)
      exact ⟨(mem_erase_of_ne hji).mpr hj,ho⟩
    · rw [hself]
      simp [hpc]
    · rw [hself]
      simp [hpc,Place]
  | beginOp =>
    simp only [FsMachine.callStep] at hs
    split_ifs at hs
    cases hs
    exact h.goto hS hb (by simp) rfl
  | endOp =>
    simp only [FsMachine.callStep] at hs
    split_ifs at hs
    cases hs
    have hself : (FsMachine.goto s p .endOp).proc p = {s.proc p with pc := .endOp} := by
      simp [FsMachine.goto,setProc]
    refine h.turn hS (p := p) rfl rfl rfl h.calm stays_update hb ?_ ?_ ?_
    · rw [hself]
      exact fun i hi ho _ => ⟨hi,ho⟩
    · rw [hself]
      exact fun _ => hok
    · rw [hself]
      exact hb

theorem pcStep (h : Rule s) (hL : Laid cfg) (hS : Sound s) (hA : Admission s)
    (hb : (s.proc p).bio = .idle) (hs : pcStep s p = some s') : Rule s' := by
  have hp := h.place p
  unfold FsMachine.pcStep at hs
  cases hpc : (s.proc p).pc <;> rw [hpc] at hs hp <;> cases hs
  case beginOp => exact h.beginOp hS hb hpc
  case endOp => exact h.endOp hS hA hb hpc
  case logWrite => exact h.logWrite hS hb hpc
  case logAppend => exact h.logAppend hS hA hb hpc
  case commit => exact h.commit hS hb hpc
  case copy => exact h.copy hS hb hpc
  case copyNext => exact h.copyNext hS hb hpc
  case copyMove => exact h.copyMove hL hS hA hb hpc
  case copyRelse => exact h.copyRelse hS hb hpc
  case copyEnd => exact h.copyEnd hS hb hpc
  case clear => exact h.clear hS hA hb hpc
  case writeHead => exact h.bread hS hb (by simp) ⟨.inl rfl,hp.2⟩
  case writeHeadPut => exact h.writeHeadPut hL hS hA hb hpc
  case writeHeadEnd => exact h.writeHeadEnd hS hb hpc
  case readHead => exact h.bread hS hb (by simp) ⟨.inl rfl,hp.2⟩
  case readHeadCopy => exact h.readHeadCopy hS hA hb hpc
  case endCommit =>
      refine h.reopen hS hb (.inl hpc) rfl rfl rfl (fun r hr => ?_) ?_ ?_ ?_ ?_
      · have hr := stays_update (s := s) (p := p) (q := {s.proc p with pc := .user}) r hr
        exact ⟨hr.bio,hr.pc,hr.held,hr.op⟩
      all_goals simp [wakeup,FsMachine.goto,setProc,hb]
  case initDone =>
      refine h.reopen hS hb (.inr hpc) rfl rfl rfl stays_update ?_ ?_ ?_ ?_
      all_goals simp [FsMachine.goto,setProc,hb]

def written (s : State cfg) (i : cfg.BufId) (q : List cfg.BufId) : State cfg :=
  {setBuf s i {s.buf i with valid := true, dirty := false} with
    idequeue := q
    disk := update s.disk (s.buf i).key (s.buf i).data
    book := s.book.written (s.buf i).key (s.buf i).data}

theorem writer (hS : Sound s) (hi : i ∈ s.idequeue) (hd : (s.buf i).dirty = true) :
    ∃ p, (s.proc p).bio = .writeWait i := by
  obtain ⟨p,hp⟩ := hS.inv.waiter i hi
  refine ⟨p,?_⟩
  cases hb : (s.proc p).bio <;> simp [cache,hb,waits] at hp
  case readWait k j =>
      subst hp
      have hclean := (hS.inv.reading p k j hb).1
      exact absurd hd (by simpa [cache] using hclean)
  case writeWait j => rw [hp]

theorem unsaved_written (bk : Book cfg) (k : Key) (x : Block) :
    (bk.written k x).unsaved = bk.unsaved ∧ (bk.written k x).last = bk.last := by
  unfold Book.written
  split_ifs <;> exact ⟨rfl,rfl⟩

theorem of_written (h : Rule s) (hS : Sound s)
    (hA : Admission s) (hp : (s.proc p).bio = .writeWait i) (hd : (s.buf i).dirty = true)
    (hnodup : (view (written s i q)).hdr.Nodup) (hhome : ∀ b ∈ (view (written s i q)).hdr, ¬cfg.InLog b)
    (hlength : (view (written s i q)).hdr.length < cfg.size)
    (hpin : ∀ b, b ∈ (written s i q).book.pinned ↔ b ∈ s.book.pinned ∧ (s.buf i).key ≠ (cfg.dev,b))
    (hpend : ∀ e ∈ (written s i q).book.pend, e.block ∈ s.lh)
    (hplace : Place (view (written s i q)) (update (tag s) i ((s.buf i).key,false))
      (.writeWait i) (s.proc p).pc) : Rule (written s i q) := by
  have hbusy : Busy (kind (s.proc p).pc) := busy_of_waits (hp ▸ h.place p)
  have htag : tag (written s i q) = update (tag s) i ((s.buf i).key,false) := by
    funext j
    by_cases hj : j = i
    · subst hj
      simp [tag,written,setBuf]
    · simp [tag,written,setBuf,hj]
  have hkey : ∀ j, ((written s i q).buf j).key = (s.buf j).key := fun j => update_key (by rfl) j
  have hdirty : ∀ j, j ≠ i → ((written s i q).buf j).dirty = (s.buf j).dirty := fun j hj => by
    simp [written,setBuf,hj]
  have hclean : ((written s i q).buf i).dirty = false := by simp [written,setBuf]
  have hsaved : ∀ j, (written s i q).book.unsaved j = false := by
    intro j
    have hu : (written s i q).book.unsaved = s.book.unsaved := (unsaved_written _ _ _).1
    rw [hu]
    exact h.saved hA hbusy j
  refine ⟨?_,?_,?_,?_,h.nodup,h.home,hnodup,hhome,hlength,?_,?_,hpend⟩
  · intro r
    by_cases hr : r = p
    · subst hr
      rw [htag]
      exact hp ▸ hplace
    · exact place_calm (h.place r) (fun hb => hr (hA.sole r p hb hbusy)) fun j _ => hkey j
  · exact fun hup hc => absurd hbusy (hA.not_busy hup hc p)
  · intro j hj
    simp [hsaved j] at hj
  · exact fun _ _ j _ => hsaved j
  · intro b hb
    obtain ⟨hb,hne⟩ := (hpin b).mp hb
    obtain ⟨j,hj,hk⟩ := h.pinned b hb
    have hji : j ≠ i := by
      rintro rfl
      exact hne hk
    exact ⟨j,(hdirty j hji).trans hj,(hkey j).trans hk⟩
  · intro j hj
    have hji : j ≠ i := by
      rintro rfl
      simp [hclean] at hj
    rw [hdirty j hji] at hj
    rw [hkey]
    rcases h.dirty j hj with ⟨hdev,hmem⟩ | ⟨r,hr⟩
    · refine .inl ⟨hdev,(hpin _).mpr ⟨hmem,fun hk => hji ?_⟩⟩
      have hkj : (s.buf j).key = (cfg.dev,(s.buf j).key.2) := Prod.ext hdev rfl
      exact hS.inv.unique (.inr (.inr hj)) (.inr (.inr hd)) (hkj.trans hk.symm)
    · have hrp : r = p := hA.sole r p (busy_of_waits (hr ▸ h.place r)) hbusy
      subst hrp
      rw [hp] at hr
      cases hr
      exact absurd rfl hji

theorem erase_getD {l : List ℕ} (ht : t < l.length) : (l.drop t).erase (l.getD t 0) = l.drop (t+1) := by
  have hget : l.getD t 0 = l[t] := by simp [ht]
  rw [drop_eq_getElem_cons ht,hget,erase_cons_head]

theorem pins_erase {lh : List ℕ} {b : ℕ} (hlt : t < lh.length)
    (hb : if w = .writeLog then b ∉ lh else b = lh.getD t 0) :
    (pins lh t w).erase b = pins lh (t+1) w := by
  cases w with
  | writeLog =>
    rw [if_pos rfl] at hb
    exact erase_of_not_mem hb
  | install =>
    rw [if_neg (by simp)] at hb
    rw [hb]
    exact erase_getD hlt
  | recover => rfl

theorem nodup_pins {l : List ℕ} (h : l.Nodup) (t : ℕ) (w : Copy) : (pins l t w).Nodup := by
  cases w with
  | writeLog => exact h
  | install => exact h.sublist (drop_sublist t l)
  | recover => exact nodup_nil

theorem copyWritten {j : cfg.BufId} (h : Rule s)
    (hL : Laid cfg) (hS : Sound s) (hA : Admission s) (hpc : (s.proc p).pc = .copyRelse w t l j)
    (hb : (s.proc p).bio = .writeWait (w.dst l j)) (hd : (s.buf (w.dst l j)).dirty = true) :
    Rule (written s (w.dst l j) q) := by
  have hp := h.place p
  rw [hpc,hb] at hp
  obtain ⟨hhave,hhome,hw⟩ := hp
  have hloop : Loop (view s) w (moved t w) := by
    rcases hw with ⟨-,-,hloop⟩ | ⟨-,hclean,-⟩
    · exact hloop
    · exact absurd hd (by simpa [tag] using hclean)
  have hkl : (s.buf l).key = cfg.slot t := hhave.key
  have hkj : (s.buf j).key = (cfg.dev,s.lh.getD t 0) := hhome
  have hlt : t < s.lh.length := hhave.lt
  have hmem := getD_mem hlt
  have hsize : t+1 < cfg.size := by
    by_cases hw : w = .writeLog
    · have hroom : s.lh.length < cfg.nbuf := hhave.room hw
      have := hL.fits
      omega
    · have hlen : (view s).hdr.length = s.lh.length := by
        rw [hloop.hdr,if_neg hw]
        rfl
      have := h.hdrLength
      omega
  have hdev : (s.buf (w.dst l j)).key.1 = cfg.dev := by cases w <;> simp [Copy.dst,hkl,hkj,Config.slot]
  have hne : (s.buf (w.dst l j)).key ≠ cfg.head := by
    cases w with
    | writeLog => simpa [Copy.dst,hkl] using slot_ne_head
    | install | recover =>
      simpa [Copy.dst,hkj] using (head_ne_home (by omega) (h.home _ hmem)).symm
  have hbook : s.book.written (s.buf (w.dst l j)).key (s.buf (w.dst l j)).data
      = {s.book with pinned := s.book.pinned.erase (s.buf (w.dst l j)).key.2} := by
    rw [Book.written,if_neg hne,if_pos hdev]
  have hhdr : (view (written s (w.dst l j) q)).hdr = (view s).hdr := by
    simp only [View.hdr,view,written,update_of_ne hne.symm]
  have hpinned : (written s (w.dst l j) q).book.pinned = s.book.pinned.erase (s.buf (w.dst l j)).key.2 := by
    rw [written,hbook]
  have hpins : s.book.pinned = pins s.lh t w := hloop.pinned.trans (pins_moved _ _ _)
  refine h.of_written hS hA hb hd (hhdr ▸ h.hdrNodup) (hhdr ▸ h.hdrHome) (hhdr ▸ h.hdrLength) ?_ ?_ ?_
  · intro b
    have hnd : s.book.pinned.Nodup := hpins ▸ nodup_pins h.nodup t w
    rw [hpinned,hnd.mem_erase_iff,and_comm]
    refine and_congr_right fun _ => not_congr ⟨fun hbk => ?_,fun hk => ?_⟩
    · exact Prod.ext hdev hbk.symm
    · rw [hk]
  · rw [written,hbook]
    exact h.pend
  · rw [hpc]
    have hkeys : ∀ i, (update (tag s) (w.dst l j) ((s.buf (w.dst l j)).key,false) i).1
        = (tag s i).1 := fun i => by
      by_cases hi : i = w.dst l j
      · rw [hi,update_self]
        rfl
      · rw [update_of_ne hi]
    refine ⟨⟨hlt,hhave.room,?_⟩,?_,.inr ⟨.inl rfl,by rw [update_self],?_⟩⟩
    · rw [hkeys]
      exact hhave.key
    · rw [hkeys]
      exact hhome
    · have hlast : (view (written s (w.dst l j) q)).last = s.book.last := (unsaved_written _ _ _).2
      have hpend : (view (written s (w.dst l j) q)).pend = s.book.pend := by
        simp only [view,written,hbook]
      refine ⟨hlt,?_,?_,?_,?_,fun hw _ => hhave.room hw,hloop.some⟩
      · rw [hhdr]
        exact hloop.hdr
      · rw [hpend]
        exact hloop.pend
      · refine hpinned.trans ?_
        rw [hpins]
        refine pins_erase hlt ?_
        cases w with
        | writeLog =>
          simp only [if_true,Copy.dst,hkl]
          exact fun hm => slot_ne_home hsize (h.home _ hm) rfl
        | install | recover => simp [Copy.dst,hkj]
      · intro i hi
        rw [hlast]
        refine hloop.done i ?_
        cases w <;> exact hi

theorem headWritten {k : Head} (h : Rule s)
    (hL : Laid cfg) (hS : Sound s) (hA : Admission s) (hpc : (s.proc p).pc = .writeHeadEnd k i)
    (hb : (s.proc p).bio = .writeWait i) (hd : (s.buf i).dirty = true) : Rule (written s i q) := by
  have hp := h.place p
  rw [hpc,hb] at hp
  obtain ⟨hkey,hw⟩ := hp
  have hki : (s.buf i).key = cfg.head := hkey
  obtain ⟨hready,hlast⟩ : Ready (view s) k ∧ readHeader (s.book.last cfg.head) = s.lh := by
    rcases hw with ⟨-,-,hready⟩ | ⟨-,hclean,-⟩
    · exact hready
    · exact absurd hd (by simpa [tag] using hclean)
  have hdata : (s.buf i).data = s.book.last cfg.head := by
    have hdata := hS.coherent.data i (hS.inv.valid_of_dirty hd)
    simpa only [cache,hki] using hdata
  have hhdr : (view (written s i q)).hdr = s.lh := by
    simp only [View.hdr,view,written,hki,update_self,hdata,hlast]
  have hbook : s.book.written (s.buf i).key (s.buf i).data
      = if s.lh = [] then s.book else {s.book with commits := s.book.commits++[s.book.pend], pend := []} := by
    rw [Book.written,if_pos hki,hdata,hlast]
  have hpinned : (written s i q).book.pinned = s.book.pinned := by
    rw [written,hbook]
    split_ifs <;> rfl
  have hlen : s.lh.length < cfg.size := by
    have := hL.fits
    have := hL.size
    cases k with
    | commit =>
      by_cases h0 : 0 < s.lh.length
      · have hsmall : s.lh.length < cfg.nbuf := hready.small rfl h0
        omega
      · omega
    | erase | recover =>
      have hnil : s.lh = [] := hready.1.lh
      rw [hnil]
      simp only [length_nil]
      omega
  have hpin : ∀ b ∈ s.book.pinned, (s.buf i).key ≠ (cfg.dev,b) := by
    intro b hb
    have := hL.size
    rw [hki]
    cases k with
    | commit =>
      have hpin : s.book.pinned = s.lh := hready.pinned
      exact head_ne_home (by omega) (h.home b (hpin ▸ hb))
    | erase | recover =>
      have hnil : s.book.pinned = [] := hready.1.pinned
      simp [hnil] at hb
  refine h.of_written hS hA hb hd (hhdr ▸ h.nodup) (hhdr ▸ h.home) (hhdr ▸ hlen) ?_ ?_ ?_
  · intro b
    rw [hpinned]
    exact ⟨fun hb => ⟨hb,hpin b hb⟩,And.left⟩
  · rw [written,hbook]
    split_ifs
    · exact h.pend
    · simp
  · rw [hpc]
    refine ⟨by rw [update_self]; exact hki,.inr ⟨.inl rfl,by rw [update_self],?_⟩⟩
    have hlast' : (view (written s i q)).last = s.book.last := (unsaved_written _ _ _).2
    cases k with
    | commit =>
      have hne : s.lh ≠ [] := hready.some rfl
      refine ⟨Nat.zero_le _,?_,?_,?_,?_,by simp,by simp⟩
      · rw [hhdr,if_neg (by simp)]
        rfl
      · intro _
        simp only [view,written,hbook,if_neg hne]
      · exact hpinned.trans hready.pinned
      · rw [hlast']
        exact hready.done
    | erase | recover =>
      have hnil : s.lh = [] := hready.1.lh
      refine ⟨⟨hnil,?_,hpinned.trans hready.1.pinned⟩,hhdr.trans hnil⟩
      simp only [view,written,hbook,if_pos hnil]
      exact hready.1.pend

theorem ideintr (h : Rule s) (hL : Laid cfg) (hS : Sound s) (hA : Admission s)
    (hs : ideintr s = some s') : Rule s' := by
  unfold FsMachine.ideintr at hs
  split at hs
  · cases hs
  · rename_i i q hq
    split_ifs at hs with hd <;> cases hs
    · obtain ⟨p,hp⟩ := writer hS (by simp [hq]) hd
      rcases place_waits (hp ▸ h.place p) with ⟨w,t,l,j,hpc,rfl⟩ | ⟨k,hpc⟩
      · exact h.copyWritten hL hS hA hpc hp hd
      · exact h.headWritten hL hS hA hpc hp hd
    · have hdirty : ∀ j, (update s.buf i {s.buf i with
          valid := true, data := s.disk (s.buf i).key} j).dirty = (s.buf j).dirty :=
        fun j => update_dirty (by rfl) j
      have hkey : ∀ j, (update s.buf i {s.buf i with
          valid := true, data := s.disk (s.buf i).key} j).key = (s.buf j).key :=
        fun j => update_key (by rfl) j
      exact h.keep rfl rfl h.calm hdirty (fun j _ => hkey j) (fun _ _ hj ho _ => ⟨hj,ho⟩) h.ending
        (fun _ _ hw _ => hw) fun r => h.place_other hS hdirty fun j _ => hkey j

theorem boot (disk : Key → Block) (bk : Book cfg) (hnodup : (readHeader (disk cfg.head)).Nodup)
    (hhome : ∀ b ∈ readHeader (disk cfg.head), ¬cfg.InLog b)
    (hlength : (readHeader (disk cfg.head)).length < cfg.size) : Rule (boot disk bk) where
  place p := by
    by_cases hp : p = cfg.init
    · simp only [FsMachine.boot,hp,if_true]
      exact ⟨rfl,rfl,rfl,rfl⟩
    · simp [FsMachine.boot,hp,Place]
  calm h := by simp [FsMachine.boot] at h
  owner i h := by simp [FsMachine.boot] at h
  ending p h := by by_cases hp : p = cfg.init <;> simp [FsMachine.boot,hp] at h
  nodup := nodup_nil
  home b h := by simp [FsMachine.boot] at h
  hdrNodup := hnodup
  hdrHome := hhome
  hdrLength := hlength
  pinned b h := by simp [FsMachine.boot] at h
  dirty i h := by simp [FsMachine.boot] at h
  pend e h := by simp [FsMachine.boot] at h

theorem step {a : Label cfg} (h : Rule s) (hL : Laid cfg) (hS : Sound s) (hA : Admission s)
    (hok : Transactional s a) (hs : step s a = some s') : Rule s' := by
  cases step_runs hs with
  | bio p _ _ _ hr => exact h.bioStep hL hS hr
  | pc p hb _ _ hr => exact h.pcStep hL hS hA hb hr
  | call p c hb _ hpc _ hr => exact h.callStep hS hA hb hpc hok hr
  | intr hr => exact h.ideintr hL hS hA hr
  | rouse p hr =>
    subst hr
    have hstay : ∀ r, Stays (s.proc r) ((setProc s p {s.proc p with asleep := false}).proc r) := by
      intro r
      by_cases hr : r = p
      · subst hr
        simpa [setProc] using ⟨rfl,rfl,rfl,rfl⟩
      · simpa [setProc,hr] using ⟨rfl,rfl,rfl,rfl⟩
    refine h.keep rfl rfl h.calm (fun _ => rfl) (fun _ _ => rfl) ?_ ?_ ?_ ?_
    · intro r i hi ho _
      rw [(hstay r).held,(hstay r).op]
      exact ⟨hi,ho⟩
    · intro r
      rw [(hstay r).pc,(hstay r).held]
      exact h.ending r
    · intro r i hw _
      rw [(hstay r).bio]
      exact hw
    · intro r
      rw [(hstay r).bio,(hstay r).pc]
      exact h.place r
  | crash hr =>
    subst hr
    exact .boot _ _ h.hdrNodup h.hdrHome h.hdrLength

end Rule

end

structure GoodHeader (cfg : Config) (l : List ℕ) : Prop where
  nodup : l.Nodup
  home : ∀ b ∈ l, ¬cfg.InLog b
  length : l.length < cfg.size

/-- What holds in every run of file system code that keeps to the log. -/
structure Logged (s : State cfg) : Prop where
  sound : Sound s
  admission : Admission s
  rule : Rule s

theorem Logged.start (h : GoodHeader cfg (readHeader (disk cfg.head))) : Logged (start cfg disk) :=
  ⟨.boot disk _,.boot disk _,.boot disk _ h.nodup h.home h.length⟩

theorem Logged.step {s' : State cfg} {a : Label cfg} (h : Logged s) (hL : Laid cfg)
    (hok : Transactional s a) (hs : step s a = some s') : Logged s' :=
  ⟨h.sound.step hok.saves hs,h.admission.step hs,h.rule.step hL h.sound h.admission hok hs⟩

theorem Logged.of_reach (hL : Laid cfg) (hdisk : GoodHeader cfg (readHeader (disk cfg.head)))
    (h : Reach FsMachine.step Transactional (FsMachine.start cfg disk) s) : Logged s :=
  h.invariant (.start hdisk) fun _ _ _ hI hok hs => hI.step hL hok hs

section
variable {s s' : State cfg} {p : cfg.ProcId}

/-- Outside `commit` and recovery a buffer is dirty if and only if its block is logged. -/
theorem dirty_iff (hL : Laid cfg) (h : Logged s) (hup : s.up = true) (hc : s.committing = false)
    (i : cfg.BufId) : (s.buf i).dirty = true ↔ (s.buf i).key.1 = cfg.dev ∧ (s.buf i).key.2 ∈ s.lh := by
  have hpin := (h.rule.calm hup hc).2
  constructor
  · intro hd
    rw [← hpin]
    exact h.rule.dirty_pinned (h.admission.not_busy hup hc) hd
  · rintro ⟨hdev,hb⟩
    obtain ⟨j,hd,hk⟩ := h.rule.pinned _ (hpin ▸ hb)
    have hkey : (s.buf i).key = (s.buf j).key := by
      rw [hk]
      exact Prod.ext hdev rfl
    have hactive : Active (s.buf i) := by
      rcases h.sound.inv.named i with ha | h0
      · exact ha
      · have h0 : (s.buf i).key = (0,0) := h0
        rw [h0] at hdev
        exact absurd hdev.symm hL.dev
    rw [h.sound.inv.unique hactive (.inr (.inr hd)) hkey]
    exact hd

/-- `bget` recycles no buffer of a logged block that is not installed. -/
theorem victim_not_pinned (hL : Laid cfg) (h : Logged s) {i : cfg.BufId} (hv : victim s = some i)
    {b : ℕ} (hb : b ∈ s.book.pinned) : (s.buf i).key ≠ (cfg.dev,b) := by
  intro hk
  obtain ⟨j,hd,hkj⟩ := h.rule.pinned b hb
  have hfree := Inv.victim_free (c := cache s) hv h.sound.inv
  have hactive : Active (s.buf i) := by
    rcases h.sound.inv.named i with ha | h0
    · exact ha
    · have h0 : (s.buf i).key = (0,0) := h0
      rw [h0] at hk
      exact absurd (congrArg Prod.fst hk).symm hL.dev
  have hij := h.sound.inv.unique hactive (.inr (.inr hd)) (hk.trans hkj.symm)
  subst hij
  exact absurd hd (by simpa [cache] using hfree.2)

/-- Neither the disk nor the list of commits is changed. -/
def Still (s s' : State cfg) : Prop := s'.disk = s.disk ∧ s'.book.commits = s.book.commits

theorem still_brelse (t : State cfg) (i : cfg.BufId) (q : Proc cfg) : Still t (brelse t p i q) := by
  unfold brelse
  split_ifs <;> exact ⟨rfl,rfl⟩

theorem pcStep_still (h : pcStep s p = some s') : Still s s' := by
  have hwrite : ∀ (t : State cfg) (i : cfg.BufId) (q : Proc cfg), Still t (bwrite t p i q) := by
    intro t i q
    rw [bwrite_eq]
    split_ifs <;> exact ⟨rfl,rfl⟩
  unfold pcStep at h
  cases hpc : (s.proc p).pc <;> rw [hpc] at h <;> cases h
  case beginOp => unfold beginOp; split_ifs <;> exact ⟨rfl,rfl⟩
  case endOp => unfold endOp; split_ifs <;> exact ⟨rfl,rfl⟩
  case logWrite => unfold logWrite; split_ifs <;> exact ⟨rfl,rfl⟩
  case copy => split_ifs <;> exact ⟨rfl,rfl⟩
  case copyMove | writeHeadPut => exact hwrite _ _ _
  case copyRelse | copyEnd | writeHeadEnd | readHeadCopy => exact still_brelse _ _ _
  all_goals exact ⟨rfl,rfl⟩

theorem callStep_still {c : Call cfg} (hok : Transactional s (.call p c))
    (h : callStep s p c = some s') : Still s s' := by
  cases c with
  | bread =>
    cases h
    exact ⟨rfl,rfl⟩
  | bwrite => exact hok.elim
  | brelse =>
    simp only [callStep] at h
    split_ifs at h
    cases h
    exact still_brelse _ _ _
  | modify | logWrite | beginOp | endOp =>
    simp only [callStep] at h
    split_ifs at h
    cases h
    exact ⟨rfl,rfl⟩

/-- The disk changes when it has served a process of `log.c`. -/
theorem disk_step {a : Label cfg} (h : Logged s) (hok : Transactional s a) (hs : step s a = some s') :
    s'.disk = s.disk ∨ ∃ p i q, (s.proc p).bio = .writeWait i ∧ (s.buf i).dirty = true ∧
      a = .intr ∧ s' = Rule.written s i q := by
  cases step_runs hs with
  | bio p _ _ _ hr => exact .inl (bioStep_frame hr).1.disk
  | pc p _ _ _ hr => exact .inl (pcStep_still hr).1
  | call p c _ _ _ _ hr => exact .inl (callStep_still hok hr).1
  | intr hr =>
    unfold ideintr at hr
    split at hr
    · cases hr
    · rename_i i q hq
      split_ifs at hr with hd <;> cases hr
      · obtain ⟨p,hp⟩ := Rule.writer h.sound (by simp [hq]) hd
        exact .inr ⟨p,i,q,hp,hd,rfl,rfl⟩
      · exact .inl rfl
  | rouse p hr | crash hr =>
    subst hr
    exact .inl rfl

theorem written_home (hL : Laid cfg) (h : Logged s) {i : cfg.BufId} {b : ℕ}
    (hp : (s.proc p).bio = .writeWait i) (hd : (s.buf i).dirty = true) (hb : ¬cfg.InLog b)
    (hk : (s.buf i).key = (cfg.dev,b)) : ∃ w t l j, (s.proc p).pc = .copyRelse w t l j ∧
      w ≠ .writeLog ∧ t < s.lh.length ∧ s.lh.getD t 0 = b ∧ readHeader (s.disk cfg.head) = s.lh := by
  have hplace := h.rule.place p
  have hsize := hL.size
  rw [hp] at hplace
  rcases place_waits hplace with ⟨w,t,l,j,hpc,rfl⟩ | ⟨k,hpc⟩
  · rw [hpc] at hplace
    obtain ⟨hhave,hhome,hwr⟩ := hplace
    have hkl : (s.buf l).key = cfg.slot t := hhave.key
    have hkj : (s.buf j).key = (cfg.dev,s.lh.getD t 0) := hhome
    have hlt : t < s.lh.length := hhave.lt
    have hloop : Loop (view s) w (moved t w) := by
      rcases hwr with ⟨-,-,hloop⟩ | ⟨-,hclean,-⟩
      · exact hloop
      · exact absurd hd (by simpa [tag] using hclean)
    have hw : w ≠ .writeLog := by
      rintro rfl
      -- a slot of the log is in the log area
      have hroom : s.lh.length < cfg.nbuf := hhave.room rfl
      have := hL.fits
      refine slot_ne_home (t := t) (by omega) hb (hkl.symm.trans ?_)
      simpa [Copy.dst] using hk
    have hj : w.dst l j = j := by simp [Copy.dst,hw]
    rw [hj,hkj] at hk
    refine ⟨w,t,l,j,hpc,hw,hlt,congrArg Prod.snd hk,?_⟩
    have hhdr := hloop.hdr
    rwa [if_neg hw] at hhdr
  · rw [hpc] at hplace
    have hki : (s.buf i).key = cfg.head := hplace.1
    exact absurd (hki.symm.trans hk) (head_ne_home (by omega) hb)

end

/-- In every run of file system code that keeps to the log: outside a commit, a
buffer is dirty if and only if its block is in the log; `bget` recycles no buffer
of a block that is logged and not installed; and a block outside the log area
changes on disk only in `install_trans`, when the header on disk lists it. -/
theorem write_ahead (hL : Laid cfg) (hdisk : GoodHeader cfg (readHeader (disk cfg.head)))
    (h : Reach step Transactional (start cfg disk) s) :
    (s.up = true → s.committing = false → s.book.pinned = s.lh ∧
      ∀ i, (s.buf i).dirty = true ↔ (s.buf i).key.1 = cfg.dev ∧ (s.buf i).key.2 ∈ s.lh) ∧
    (∀ i, victim s = some i → ∀ b ∈ s.book.pinned, (s.buf i).key ≠ (cfg.dev,b)) ∧
    ∀ a s', Transactional s a → step s a = some s' → ∀ b, ¬cfg.InLog b →
      s'.disk (cfg.dev,b) ≠ s.disk (cfg.dev,b) → ∃ p w t l j, (s.proc p).pc = .copyRelse w t l j ∧
        w ≠ .writeLog ∧ s.lh.getD t 0 = b ∧ b ∈ readHeader (s.disk cfg.head) := by
  have hI := Logged.of_reach hL hdisk h
  refine ⟨fun hup hc => ⟨(hI.rule.calm hup hc).2,dirty_iff hL hI hup hc⟩,
    fun i hv b hb => victim_not_pinned hL hI hv hb,fun a s' hok hs b hb hne => ?_⟩
  rcases disk_step hI hok hs with hsame | ⟨p,i,q,hp,hd,-,rfl⟩
  · exact absurd (congrFun hsame _) hne
  · have hk : (s.buf i).key = (cfg.dev,b) := by
      by_contra hk
      exact hne (update_of_ne (Ne.symm hk) _ _)
    obtain ⟨w,t,l,j,hpc,hw,hlt,hget,hhdr⟩ := written_home hL hI hp hd hb hk
    exact ⟨p,w,t,l,j,hpc,hw,hget,by rw [hhdr,← hget]; exact Rule.getD_mem hlt⟩

abbrev solo : Config := ⟨1,3,1,2,LOGSIZE,Nat.one_pos⟩

def logOne : List (Label solo) :=
  let p : Fin 1 := 0
  bootRun solo++[.call p .beginOp,.go p]++@missRun solo p (1,50)++
    [.call p (.modify (1 : Fin 3) fun _ => 7),.call p (.logWrite (1 : Fin 3)),.go p,.go p]

theorem logOne_dirty : ∃ s : State solo, Reach step Transactional (start solo blankDisk) s ∧
    s.lh = [50] ∧ (s.buf (1 : Fin 3)).key = (1,50) ∧ (s.buf (1 : Fin 3)).dirty = true := by
  have hrun : (run (guarded step Transactional) (start solo blankDisk) logOne).any (fun s =>
      s.up = true ∧ s.committing = false ∧ s.lh = [50] ∧ (s.buf (1 : Fin 3)).key = (1,50)) = true := by
    decide +kernel
  obtain ⟨s,hs,hp⟩ := (Option.any_eq_true _ _).mp hrun
  obtain ⟨hup,hc,hlh,hkey⟩ := of_decide_eq_true hp
  have hreach := Reach.refl.of_run hs
  obtain ⟨hcalm,-,-⟩ := write_ahead ⟨by decide,by decide,by decide⟩ ⟨by decide,by decide,by decide⟩ hreach
  refine ⟨s,hreach,hlh,hkey,((hcalm hup hc).2 (1 : Fin 3)).mpr ?_⟩
  simp [hkey,hlh]

end Xv6.WriteAhead
