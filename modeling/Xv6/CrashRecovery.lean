import Xv6.WriteAhead
import Xv6.RedoLog

/-!
# Crash recovery

The home blocks as recovery would leave them are, at any time, the first contents changed by the
commits whose header reached the disk. This depends on the disk alone, so neither a crash nor one
during recovery matters. After recovery or a commit the header on disk is empty and the home blocks
have these contents. A commit takes the calls of `log_write` of whole operations, and when none is
under way all that was stored is on the disk.
-/
namespace Xv6.CrashRecovery
open FsMachine LogStep LogAdmission CacheStep Coherence LogPlace WriteAhead Machine RedoLog List
open Function (update update_of_ne update_self)

variable {cfg : Config}

def writesOf (es : List Entry) : List (ℕ × Block) := es.map fun e => (e.block,e.data)

def contents (base : ℕ → Block) (commits : List (List Entry)) : ℕ → Block :=
  applyAll (commits.map writesOf) base

def recovered (cfg : Config) (disk : Key → Block) : ℕ → Block :=
  replay (readHeader (disk cfg.head)) (fun j => disk (cfg.slot j)) fun b => disk (cfg.dev,b)

structure History (base : ℕ → Block) (s : State cfg) : Prop where
  value : ∀ b, ¬cfg.InLog b → recovered cfg s.disk b = contents base s.book.commits b
  fresh : s.up = true → ∀ b, ¬cfg.InLog b →
    (∀ i, (s.buf i).key = (cfg.dev,b) → s.book.unsaved i = false) →
    s.book.last (cfg.dev,b) = apply (writesOf s.book.pend) (contents base s.book.commits) b
  live : ∀ p, ∀ o ∈ (s.proc p).op, own Entry.op o s.book.pend = own Entry.op o s.book.writes ∧
    ∀ t ∈ s.book.commits, own Entry.op o t = []
  pending : ∀ o, own Entry.op o s.book.pend ≠ [] →
    own Entry.op o s.book.pend = own Entry.op o s.book.writes ∧
      ∀ t ∈ s.book.commits, own Entry.op o t = []
  whole : ∀ o, AllOrNone Entry.op o s.book.writes s.book.commits

section
variable {s : State cfg} {p : cfg.ProcId} {i : cfg.BufId}

theorem header_data {k : Head} (h : Logged s) (hpc : (s.proc p).pc = .writeHeadEnd k i)
    (hb : (s.proc p).bio = .writeWait i) (hd : (s.buf i).dirty = true) :
    (s.buf i).key = cfg.head ∧ Ready (view s) k ∧ readHeader (s.buf i).data = s.lh := by
  have hp := h.rule.place p
  rw [hpc,hb] at hp
  have hki : (s.buf i).key = cfg.head := hp.1
  obtain ⟨hready,hlast⟩ : Ready (view s) k ∧ readHeader (s.book.last cfg.head) = s.lh := by
    rcases hp.2 with ⟨-,-,hready⟩ | ⟨-,hclean,-⟩
    · exact hready
    · exact absurd hd (by simpa [tag] using hclean)
  have hdata := h.sound.coherent.data i (h.sound.inv.valid_of_dirty hd)
  simp only [cache,hki] at hdata
  exact ⟨hki,hready,by rw [hdata,hlast]⟩

theorem header_written (hL : Laid cfg) (h : Logged s) (hb : (s.proc p).bio = .writeWait i)
    (hd : (s.buf i).dirty = true) (hk : (s.buf i).key = cfg.head) :
    ∃ k, Ready (view s) k ∧ readHeader (s.buf i).data = s.lh := by
  rcases place_waits (hb ▸ h.rule.place p) with ⟨w,t,l,j,hpc,rfl⟩ | ⟨k,hpc⟩
  · have hp := h.rule.place p
    have hsize := hL.size
    rw [hpc] at hp
    have hkl : (s.buf l).key = cfg.slot t := hp.1.key
    have hkj : (s.buf j).key = (cfg.dev,s.lh.getD t 0) := hp.2.1
    cases w with
    | writeLog => exact absurd (hkl.symm.trans hk) slot_ne_head
    | install | recover =>
      exact absurd (hk.symm.trans hkj) (head_ne_home (by omega) (h.rule.home _ (Rule.getD_mem hp.1.lt)))
  · exact ⟨k,(header_data h hpc hb hd).2⟩

end

namespace History

section
variable {base : ℕ → Block} {s s' : State cfg} {p : cfg.ProcId} {q : Proc cfg} {i : cfg.BufId}
  {x : Block}

theorem keep (h : History base s) (hdisk : s'.disk = s.disk)
    (hcommits : s'.book.commits = s.book.commits) (hpend : s'.book.pend = s.book.pend)
    (hwrites : s'.book.writes = s.book.writes) (hup : s'.up = true → s.up = true)
    (hlast : s.up = true → ∀ b, ¬cfg.InLog b → s'.book.last (cfg.dev,b) = s.book.last (cfg.dev,b))
    (hu : ∀ i, s.book.unsaved i = true → s'.book.unsaved i = true ∧ (s'.buf i).key = (s.buf i).key)
    (hop : ∀ r, ∀ o ∈ (s'.proc r).op, o ∈ (s.proc r).op) : History base s' := by
  refine ⟨?_,?_,?_,?_,?_⟩
  · rw [hdisk,hcommits]
    exact h.value
  · intro hup' b hb hsaved
    rw [hlast (hup hup') b hb,hpend,hcommits]
    refine h.fresh (hup hup') b hb fun i hk => ?_
    by_contra hi
    obtain ⟨hi',hkey⟩ := hu i (by simpa using hi)
    exact absurd hi' (by simp [hsaved i (hkey.trans hk)])
  · intro r o ho
    rw [hpend,hwrites,hcommits]
    exact h.live r o (hop r o ho)
  · rw [hpend,hwrites,hcommits]
    exact h.pending
  · rw [hwrites,hcommits]
    exact h.whole

theorem stay (h : History base s) (hbook : s'.book = s.book) (hdisk : s'.disk = s.disk)
    (hup : s'.up = true → s.up = true) (hkey : ∀ i, (s'.buf i).key = (s.buf i).key)
    (hop : ∀ r, ∀ o ∈ (s'.proc r).op, o ∈ (s.proc r).op) : History base s' :=
  h.keep hdisk (by rw [hbook]) (by rw [hbook]) (by rw [hbook]) hup (fun _ _ _ => by rw [hbook])
    (fun i hi => ⟨by rwa [hbook],hkey i⟩) hop

theorem op_update (hq : q.op = (s.proc p).op ∨ q.op = none) (r : cfg.ProcId) (o : ℕ)
    (ho : o ∈ (update s.proc p q r).op) : o ∈ (s.proc r).op := by
  by_cases hr : r = p
  · subst hr
    rw [update_self] at ho
    rcases hq with hq | hq <;> simp_all
  · rwa [update_of_ne hr] at ho

theorem brelse {t : State cfg} (h : History base s)
    (hbook : t.book = s.book) (hdisk : t.disk = s.disk) (hup : t.up = s.up) (hbuf : t.buf = s.buf)
    (hproc : t.proc = s.proc) (hq : q.op = (s.proc p).op) : History base (brelse t p i q) := by
  refine h.stay ?_ ?_ ?_ ?_ ?_
  · rw [← hbook]
    unfold FsMachine.brelse
    split_ifs <;> rfl
  · rw [← hdisk]
    unfold FsMachine.brelse
    split_ifs <;> rfl
  · rw [← hup]
    unfold FsMachine.brelse
    split_ifs <;> exact id
  · intro j
    rw [brelse_key,hbuf]
  · rw [brelse_proc,hproc]
    split_ifs
    · exact op_update (.inl rfl)
    · exact op_update (.inl hq)

theorem storeWrite (h : History base s) (hI : Logged s)
    (hp : Busy (kind (s.proc p).pc)) (hi : i ∈ (s.proc p).pc.refs)
    (hx : s.up = true → ∀ b, ¬cfg.InLog b → (s.buf i).key = (cfg.dev,b) → x = s.book.last (cfg.dev,b))
    (hq : q.op = (s.proc p).op) : History base (bwrite (store s i x) p i q) := by
  rw [Rule.bwrite_store_eq x _ (hI.sound.lock_of_refs hi)]
  refine h.keep rfl rfl rfl rfl id ?_ ?_ ?_
  · intro hup b hb
    by_cases hk : (cfg.dev,b) = (s.buf i).key
    · simpa [setProc,markDirty,setBuf,store,hk] using (hx hup b hb hk.symm).trans (by rw [hk])
    · simp [setProc,markDirty,setBuf,store,hk]
  · intro j hj
    exact absurd hj (by simp [hI.rule.saved hI.admission hp j])
  · exact op_update (.inl hq)

theorem copyMove {w : Copy} {t : ℕ} {l j : cfg.BufId} (h : History base s)
    (hL : Laid cfg) (hI : Logged s) (hpc : (s.proc p).pc = .copyMove w t l j)
    (hq : q.op = (s.proc p).op) :
    History base (bwrite (store s (w.dst l j) (s.buf (w.src l j)).data) p (w.dst l j) q) := by
  have hp := hI.rule.place p
  rw [hpc] at hp
  obtain ⟨-,hloop,hhave,hhome⟩ := hp
  have hkl : (s.buf l).key = cfg.slot t := hhave.key
  have hkj : (s.buf j).key = (cfg.dev,s.lh.getD t 0) := hhome
  have hlt : t < s.lh.length := hhave.lt
  have hbusy : Busy (kind (s.proc p).pc) := by
    rw [hpc]
    exact busy_copy w
  refine h.storeWrite hI hbusy (by rw [hpc]; cases w <;> simp [Pc.refs,Copy.dst]) ?_ hq
  intro hup b hb hk
  cases w with
  | writeLog =>
    have hroom : s.lh.length < cfg.nbuf := hhave.room rfl
    have := hL.fits
    exact absurd (hkl.symm.trans hk) (slot_ne_home (by omega) hb)
  | install =>
    -- `install_trans` stores what the home block has already
    have hdata := hI.sound.coherent.data l (hI.sound.inv.valid p l (by simp [cache,mine,hpc,Pc.refs]))
    have hdone : s.book.last (cfg.slot t) = s.book.last (cfg.dev,s.lh.getD t 0) := hloop.done t hlt
    have hkb : (cfg.dev,s.lh.getD t 0) = (cfg.dev,b) := hkj.symm.trans hk
    simp only [cache,hkl] at hdata
    rw [← hkb,← hdone]
    exact hdata
  | recover =>
    have hdown : s.up = false := hI.admission.fit (p := p) (k := .recover) (by rw [hpc]; rfl)
    simp [hdown] at hup

theorem writeHeadPut {k : Head} (h : History base s)
    (hL : Laid cfg) (hI : Logged s) (hpc : (s.proc p).pc = .writeHeadPut k i)
    (hq : q.op = (s.proc p).op) : History base (bwrite (store s i x) p i q) := by
  have hp := hI.rule.place p
  rw [hpc] at hp
  have hki : (s.buf i).key = cfg.head := hp.2.2
  have hsize := hL.size
  have hbusy : Busy (kind (s.proc p).pc) := by
    rw [hpc]
    exact busy_head k
  refine h.storeWrite hI hbusy (by simp [hpc,Pc.refs]) (fun _ b hb hk => ?_) hq
  exact absurd (hki.symm.trans hk) (head_ne_home (by omega) hb)

theorem begun (h : History base s) (hids : Ids s) (hbook : s'.book.commits = s.book.commits ∧
      s'.book.pend = s.book.pend ∧ s'.book.writes = s.book.writes ∧ s'.book.last = s.book.last ∧
      s'.book.unsaved = s.book.unsaved) (hdisk : s'.disk = s.disk) (hup : s'.up = s.up)
    (hbuf : s'.buf = s.buf) (hop : ∀ r, ∀ o ∈ (s'.proc r).op, o ∈ (s.proc r).op ∨ o = s.book.ops) :
    History base s' := by
  obtain ⟨hcommits,hpend,hwrites,hlast,hunsaved⟩ := hbook
  have hnew : own Entry.op s.book.ops s.book.writes = [] := by
    rw [own,filter_eq_nil_iff]
    intro e he
    have := hids.old e he
    simp only [decide_eq_true_eq]
    omega
  have hfresh : own Entry.op s.book.ops s.book.pend = [] := by
    by_contra hne
    exact hne ((h.pending _ hne).1.trans hnew)
  have hnone : ∀ t ∈ s.book.commits, own Entry.op s.book.ops t = [] := by
    rcases h.whole s.book.ops with hnone | ⟨l,t,r,hts,ht,hothers⟩
    · exact hnone
    · intro t' ht'
      rw [hts] at ht'
      simp only [List.mem_append,mem_cons] at ht'
      rcases ht' with ht' | rfl | ht'
      · exact hothers t' (by simp [ht'])
      · exact ht.trans hnew
      · exact hothers t' (by simp [ht'])
  refine ⟨?_,?_,?_,?_,?_⟩
  · rw [hdisk,hcommits]
    exact h.value
  · rw [hup,hbuf,hlast,hpend,hcommits,hunsaved]
    exact h.fresh
  · intro r o ho
    rw [hpend,hwrites,hcommits]
    rcases hop r o ho with ho | rfl
    · exact h.live r o ho
    · exact ⟨hfresh.trans hnew.symm,hnone⟩
  · rw [hpend,hwrites,hcommits]
    exact h.pending
  · rw [hwrites,hcommits]
    exact h.whole

theorem beginOp (h : History base s) (hids : Ids s) : History base (beginOp s p) := by
  unfold FsMachine.beginOp
  split_ifs
  · exact h.stay rfl rfl id (fun _ => rfl) (op_update (.inl rfl))
  · refine h.begun hids ⟨rfl,rfl,rfl,rfl,rfl⟩ rfl rfl rfl fun r o ho => ?_
    by_cases hr : r = p
    · subst hr
      exact .inr (by simpa [setProc,eq_comm] using ho)
    · exact .inl (by simpa [setProc,hr] using ho)

theorem endOp (h : History base s) : History base (endOp s p) := by
  unfold FsMachine.endOp
  split_ifs
  · exact h.stay rfl rfl id (fun _ => rfl) (op_update (.inl rfl))
  · exact h.stay rfl rfl id (fun _ => rfl) (op_update (.inr rfl))
  · exact h.stay rfl rfl id (fun _ => rfl) (op_update (.inr rfl))

theorem own_singleton_of_ne {o o' : ℕ} {b : ℕ} (h : o' ≠ o) :
    own Entry.op o' [⟨o,b,x⟩] = [] := by simp [own,Ne.symm h]

theorem logAppend (h : History base s) (hI : Logged s)
    (hpc : (s.proc p).pc = .logAppend i) : History base (logAppend s p i) := by
  obtain ⟨o,ho⟩ := Option.isSome_iff_exists.mp (hI.admission.op_some p (by rw [hpc]; rfl))
  have hp := hI.rule.place p
  rw [hpc] at hp
  have hhome : Home cfg (s.buf i).key := hp.2
  have hkey : (s.buf i).key = (cfg.dev,(s.buf i).key.2) := Prod.ext hhome.1 rfl
  have hheld := hI.sound.logs p i (.inr hpc)
  have hdata : (s.buf i).data = s.book.last (s.buf i).key :=
    hI.sound.coherent.data i (hI.sound.inv.valid p i (by simp [cache,mine,hheld]))
  have hentries : entries s p i = [⟨o,(s.buf i).key.2,(s.buf i).data⟩] := by simp [entries,ho]
  have hpend : (FsMachine.logAppend s p i).book.pend
      = s.book.pend++[⟨o,(s.buf i).key.2,(s.buf i).data⟩] := by rw [← hentries]; rfl
  have hwrites : (FsMachine.logAppend s p i).book.writes
      = s.book.writes++[⟨o,(s.buf i).key.2,(s.buf i).data⟩] := by rw [← hentries]; rfl
  have hop : ∀ r, ∀ o' ∈ ((FsMachine.logAppend s p i).proc r).op, o' ∈ (s.proc r).op :=
    op_update (.inl rfl)
  have hlive := h.live p o ho
  refine ⟨h.value,?_,?_,?_,?_⟩
  · intro hup b hb hsaved
    rw [hpend,writesOf,map_append,map_singleton,apply_concat]
    by_cases hbi : b = (s.buf i).key.2
    · subst hbi
      rw [update_self]
      exact (hdata.trans (congrArg s.book.last hkey)).symm
    · rw [update_of_ne hbi]
      refine h.fresh hup b hb fun j hj => ?_
      have hji : j ≠ i := by
        rintro rfl
        exact hbi (by rw [hj])
      have hk : ((FsMachine.logAppend s p i).buf j).key = (cfg.dev,b) :=
        (update_key (by rfl) j).trans hj
      have hu := hsaved j hk
      simpa [FsMachine.logAppend,FsMachine.goto,setProc,markDirty,hji] using hu
  · intro r o' ho'
    rw [hpend,hwrites,own_append,own_append]
    have hold := h.live r o' (hop r o' ho')
    exact ⟨by rw [hold.1],hold.2⟩
  · intro o' hne
    rw [hpend,hwrites,own_append,own_append] at *
    by_cases hoo : o' = o
    · subst hoo
      exact ⟨by rw [hlive.1],hlive.2⟩
    · rw [own_singleton_of_ne hoo,append_nil] at *
      rw [append_nil]
      exact h.pending o' hne
  · intro o'
    rw [hwrites]
    refine (h.whole o').write ?_
    by_cases hoo : o' = o
    · subst hoo
      exact .inr hlive.2
    · exact .inl (own_singleton_of_ne hoo)

theorem disk_of_hdr (h : History base s) (hhdr : (view s).hdr = []) {b : ℕ} (hb : ¬cfg.InLog b) :
    s.disk (cfg.dev,b) = contents base s.book.commits b := by
  have hvalue := h.value b hb
  have hread : readHeader (s.disk cfg.head) = [] := hhdr
  rwa [recovered,hread] at hvalue

theorem initDone (h : History base s) (hI : Logged s) (hb : (s.proc p).bio = .idle)
    (hpc : (s.proc p).pc = .initDone) :
    History base ({goto s p .user with up := true} : State cfg) := by
  have hp := hI.rule.place p
  rw [hpc] at hp
  obtain ⟨-,hblank,hhdr⟩ := hp
  have hbusy : Busy (kind (s.proc p).pc) := by
    rw [hpc]
    trivial
  have hpend : s.book.pend = [] := hblank.pend
  refine ⟨h.value,fun _ b hbl _ => ?_,fun r o ho => ?_,h.pending,h.whole⟩
  · have hlast := hI.rule.disk_last hI.sound hI.admission hbusy (k := (cfg.dev,b)) fun i _ =>
      hI.rule.clean hI.admission hbusy (by simp [hb]) hblank.pinned i
    have hdisk := h.disk_of_hdr hhdr hbl
    simp only [FsMachine.goto,setProc,hpend,writesOf,map_nil,apply_nil]
    exact hlast.symm.trans hdisk
  · exact h.live r o (op_update (p := p) (q := {s.proc p with pc := .user}) (.inl rfl) r o ho)

theorem pcStep (h : History base s) (hL : Laid cfg) (hI : Logged s) (hids : Ids s)
    (hb : (s.proc p).bio = .idle) (hs : pcStep s p = some s') : History base s' := by
  have hgo : ∀ pc, History base (FsMachine.goto s p pc) := fun pc =>
    h.stay rfl rfl id (fun _ => rfl) (op_update (.inl rfl))
  have hread : ∀ pc k, History base (bread s p pc k) := fun pc k =>
    h.stay rfl rfl id (fun _ => rfl) (op_update (.inl rfl))
  unfold FsMachine.pcStep at hs
  cases hpc : (s.proc p).pc <;> rw [hpc] at hs <;> cases hs
  case beginOp => exact h.beginOp hids
  case endOp => exact h.endOp
  case logWrite =>
      unfold logWrite
      split_ifs
      · exact h.stay rfl rfl id (fun _ => rfl) (op_update (.inl rfl))
      · exact h.stay rfl rfl id (fun _ => rfl) (op_update (.inl rfl))
      · exact hgo _
  case logAppend => exact h.logAppend hI hpc
  case commit => exact hgo _
  case copy =>
      split_ifs
      · exact hread _ _
      · exact hgo _
  case copyNext | writeHead | readHead => exact hread _ _
  case copyMove => exact h.copyMove hL hI hpc rfl
  case writeHeadPut => exact h.writeHeadPut hL hI hpc rfl
  case copyRelse | copyEnd | writeHeadEnd | readHeadCopy => exact h.brelse rfl rfl rfl rfl rfl rfl
  case clear => exact h.stay rfl rfl id (fun _ => rfl) (op_update (.inl rfl))
  case endCommit => exact h.stay rfl rfl id (fun _ => rfl) (op_update (.inl rfl))
  case initDone => exact h.initDone hI hb hpc

theorem modify (h : History base s) (x : Block) : History base (store s i x) := by
  refine ⟨h.value,?_,h.live,h.pending,h.whole⟩
  intro hup b hb hsaved
  have hne : (cfg.dev,b) ≠ (s.buf i).key := by
    intro hk
    have hu := hsaved i ((store_key s i x i).trans hk.symm)
    simp [store] at hu
  have hold := h.fresh hup b hb fun j hj => by
    have hji : j ≠ i := by
      rintro rfl
      exact hne hj.symm
    have hu := hsaved j ((store_key s i x j).trans hj)
    simpa [store,hji] using hu
  simpa [store,hne] using hold

theorem callStep {c : Call cfg} (h : History base s) (hok : Transactional s (.call p c))
    (hs : callStep s p c = some s') : History base s' := by
  cases c with
  | bread =>
    cases hs
    exact h.stay rfl rfl id (fun _ => rfl) (op_update (.inl rfl))
  | modify i x =>
    simp only [FsMachine.callStep] at hs
    split_ifs at hs
    cases hs
    exact h.modify x
  | bwrite => exact hok.elim
  | brelse =>
    simp only [FsMachine.callStep] at hs
    split_ifs at hs
    cases hs
    exact h.brelse rfl rfl rfl rfl rfl rfl
  | logWrite | beginOp | endOp =>
    simp only [FsMachine.callStep] at hs
    split_ifs at hs
    cases hs
    exact h.stay rfl rfl id (fun _ => rfl) (op_update (.inl rfl))

theorem written_same {q : List cfg.BufId} (h : History base s)
    (hbook : (Rule.written s i q).book.commits = s.book.commits ∧
      (Rule.written s i q).book.pend = s.book.pend ∧ (Rule.written s i q).book.writes = s.book.writes)
    (hsame : ∀ b, ¬cfg.InLog b → recovered cfg (Rule.written s i q).disk b = recovered cfg s.disk b) :
    History base (Rule.written s i q) := by
  obtain ⟨hcommits,hpend,hwrites⟩ := hbook
  have hframe := Rule.unsaved_written s.book (s.buf i).key (s.buf i).data
  have hlast : (Rule.written s i q).book.last = s.book.last := hframe.2
  have hu : (Rule.written s i q).book.unsaved = s.book.unsaved := hframe.1
  have hkey : ∀ j, ((Rule.written s i q).buf j).key = (s.buf j).key := fun j => update_key (by rfl) j
  refine ⟨fun b hb => ?_,fun hup b hb hsaved => ?_,fun r o ho => ?_,?_,?_⟩
  · rw [hsame b hb,hcommits]
    exact h.value b hb
  · rw [hlast,hpend,hcommits]
    exact h.fresh hup b hb fun j hj => by rw [← hu]; exact hsaved j ((hkey j).trans hj)
  · rw [hpend,hwrites,hcommits]
    exact h.live r o ho
  · rw [hpend,hwrites,hcommits]
    exact h.pending
  · rw [hwrites,hcommits]
    exact h.whole

theorem copyWritten {w : Copy} {t : ℕ} {l j : cfg.BufId} {q : List cfg.BufId} (h : History base s)
    (hL : Laid cfg) (hI : Logged s) (hpc : (s.proc p).pc = .copyRelse w t l j)
    (hb : (s.proc p).bio = .writeWait (w.dst l j)) (hd : (s.buf (w.dst l j)).dirty = true) :
    History base (Rule.written s (w.dst l j) q) := by
  have hp := hI.rule.place p
  rw [hpc,hb] at hp
  obtain ⟨hhave,hhome,hw⟩ := hp
  have hloop : Loop (view s) w (moved t w) := by
    rcases hw with ⟨-,-,hloop⟩ | ⟨-,hclean,-⟩
    · exact hloop
    · exact absurd hd (by simpa [tag] using hclean)
  have hkl : (s.buf l).key = cfg.slot t := hhave.key
  have hkj : (s.buf j).key = (cfg.dev,s.lh.getD t 0) := hhome
  have hlt : t < s.lh.length := hhave.lt
  have hmem := Rule.getD_mem hlt
  have hfits := hL.fits
  have hsize := hL.size
  have hne : (s.buf (w.dst l j)).key ≠ cfg.head := by
    cases w with
    | writeLog => simpa [Copy.dst,hkl] using slot_ne_head
    | install | recover =>
      simpa [Copy.dst,hkj] using (head_ne_home (by omega) (hI.rule.home _ hmem)).symm
  have hhead : (Rule.written s (w.dst l j) q).disk cfg.head = s.disk cfg.head :=
    update_of_ne hne.symm _ _
  refine h.written_same ?_ fun b hbl => ?_
  · simp only [Rule.written,Book.written,if_neg hne]
    split_ifs <;> exact ⟨rfl,rfl,rfl⟩
  · unfold recovered
    rw [hhead]
    have hhdr : readHeader (s.disk cfg.head) = if w = .writeLog then [] else s.lh := hloop.hdr
    have hlen : (readHeader (s.disk cfg.head)).length < cfg.size := hI.rule.hdrLength
    refine replay_congr (fun i hi => ?_) fun hnot => ?_
    · -- a home block is written, or no slot counts
      refine update_of_ne ?_ _ _
      cases w with
      | writeLog => simp [hhdr] at hi
      | install | recover =>
        simpa [Copy.dst,hkj] using slot_ne_home (by omega) (hI.rule.home _ hmem)
    · refine update_of_ne ?_ _ _
      cases w with
      | writeLog =>
        have hroom : s.lh.length < cfg.nbuf := hhave.room rfl
        simpa [Copy.dst,hkl] using (slot_ne_home (by omega) hbl).symm
      | install | recover =>
        rw [hhdr,if_neg (by simp)] at hnot
        simp only [Copy.dst,reduceCtorEq,if_false,hkj]
        intro hk
        have hbt : b = s.lh.getD t 0 := congrArg Prod.snd hk
        exact hnot (hbt ▸ hmem)

theorem committed {q : List cfg.BufId} (h : History base s) (hL : Laid cfg)
    (hI : Logged s) (hp : Busy (kind (s.proc p).pc)) (hb : (s.proc p).bio = .writeWait i)
    (hup : s.up = true) (hki : (s.buf i).key = cfg.head) (hready : Ready (view s) .commit)
    (hdata : readHeader (s.buf i).data = s.lh) : History base (Rule.written s i q) := by
  have hsize := hL.size
  have hne : s.lh ≠ [] := hready.some rfl
  have hhdr : readHeader (s.disk cfg.head) = [] := hready.hdr
  have hbook : (Rule.written s i q).book
      = {s.book with commits := s.book.commits++[s.book.pend], pend := []} := by
    simp only [Rule.written,Book.written,if_pos hki,hdata,if_neg hne]
  have hsaved := hI.rule.saved hI.admission hp
  have hsum : ∀ b, contents base (s.book.commits++[s.book.pend]) b
      = apply (writesOf s.book.pend) (contents base s.book.commits) b := by
    intro b
    rw [contents,map_append,map_singleton,applyAll_concat]
    rfl
  -- every slot has reached the disk
  have hslot : ∀ j < s.lh.length, s.disk (cfg.slot j) = s.book.last (cfg.slot j) := by
    intro j hj
    have hsmall : s.lh.length < cfg.nbuf := hready.small rfl (by change 0 < s.lh.length; omega)
    have := hL.fits
    refine hI.rule.disk_last hI.sound hI.admission hp fun i' hk => ?_
    by_contra hd
    rcases hI.rule.dirty i' (by simpa using hd) with ⟨hdev,hmem⟩ | ⟨r,hr⟩
    · have hpin : s.book.pinned = s.lh := hready.pinned
      exact slot_ne_home (by omega) (hI.rule.home _ (hpin ▸ hmem)) (hk.symm.trans (Prod.ext hdev rfl))
    · have hrp : r = p := hI.admission.sole r p (busy_of_waits (hr ▸ hI.rule.place r)) hp
      subst hrp
      rw [hb] at hr
      cases hr
      exact slot_ne_head (hk.symm.trans hki)
  have hlast : (Rule.written s i q).book.last = s.book.last := by rw [hbook]
  refine ⟨fun b hbl => ?_,fun _ b hbl _ => ?_,fun r o ho => ?_,?_,fun o => ?_⟩
  · have hhead : readHeader ((Rule.written s i q).disk cfg.head) = s.lh := by
      simp only [Rule.written,hki,update_self,hdata]
    have hdisk : ∀ k, k ≠ cfg.head → (Rule.written s i q).disk k = s.disk k := fun k hk => by
      simp only [Rule.written,hki,update_of_ne hk]
    rw [hbook,recovered,hhead]
    simp only
    rw [hsum]
    by_cases hmem : b ∈ s.lh
    · have hlt := List.idxOf_lt_length_iff.mpr hmem
      have hget : s.lh.getD (s.lh.idxOf b) 0 = b := by simp [hlt]
      have hdone : s.book.last (cfg.slot (s.lh.idxOf b)) = s.book.last (cfg.dev,s.lh.getD (s.lh.idxOf b) 0) :=
        hready.done _ hlt
      rw [replay_of_mem hmem,hdisk _ slot_ne_head,hslot _ hlt,hdone,hget]
      exact h.fresh hup b hbl fun j _ => hsaved j
    · rw [replay_of_notMem hmem,hdisk _ (head_ne_home (by omega) hbl).symm,h.disk_of_hdr hhdr hbl,
        apply_of_notMem]
      intro w hw
      obtain ⟨e,he,rfl⟩ := mem_map.mp hw
      exact fun hk => hmem (hk ▸ hI.rule.pend e he)
  · rw [hbook]
    simp only [writesOf,map_nil,apply_nil]
    rw [hsum]
    exact h.fresh hup b hbl fun j _ => hsaved j
  · have ho : o ∈ (s.proc r).op := ho
    simp [op_of_busy hI.admission hp r] at ho
  · rw [hbook]
    intro o hne
    exact absurd rfl hne
  · rw [hbook]
    exact (h.whole o).commit (h.pending o)

theorem headWritten {k : Head} {q : List cfg.BufId} (h : History base s)
    (hL : Laid cfg) (hI : Logged s) (hpc : (s.proc p).pc = .writeHeadEnd k i)
    (hb : (s.proc p).bio = .writeWait i) (hd : (s.buf i).dirty = true) :
    History base (Rule.written s i q) := by
  have hbusy : Busy (kind (s.proc p).pc) := busy_of_waits (hb ▸ hI.rule.place p)
  have hsize := hL.size
  obtain ⟨hki,hready,hdata⟩ := header_data hI hpc hb hd
  have herase : k ≠ .commit → History base (Rule.written s i q) := by
    intro hk
    obtain ⟨hblank,hinst⟩ : Blank (view s) ∧ ∀ j < (view s).hdr.length,
        s.disk (cfg.dev,(view s).hdr.getD j 0) = s.disk (cfg.slot j) := by
      cases k with
      | commit => exact absurd rfl hk
      | erase | recover => exact hready
    have hnil : s.lh = [] := hblank.lh
    refine h.written_same ?_ fun b hbl => ?_
    · simp only [Rule.written,Book.written,if_pos hki,hdata,if_pos hnil,and_self]
    · have hhead : readHeader ((Rule.written s i q).disk cfg.head) = [] := by
        simp only [Rule.written,hki,update_self,hdata,hnil]
      have hhome : (Rule.written s i q).disk (cfg.dev,b) = s.disk (cfg.dev,b) := by
        simp only [Rule.written,hki,update_of_ne (head_ne_home (by omega) hbl).symm]
      have hinst' : recovered cfg s.disk b = s.disk (cfg.dev,b) := replay_installed 0 hinst
      rw [hinst',recovered,hhead,replay_nil,hhome]
  cases k with
  | commit =>
    have hf : s.up = true ∧ s.committing = true :=
      hI.admission.fit (p := p) (k := .commit) (by rw [hpc]; rfl)
    exact h.committed hL hI hbusy hb hf.1 hki hready hdata
  | erase | recover => exact herase (by simp)

theorem boot (h : History base s) : History base (boot s.disk s.book) where
  value := h.value
  fresh hup := by simp [FsMachine.boot] at hup
  live p o ho := by simp [FsMachine.boot] at ho
  pending o ho := by simp [FsMachine.boot,own] at ho
  whole := h.whole

theorem step {a : Label cfg} (h : History base s) (hL : Laid cfg) (hI : Logged s) (hids : Ids s)
    (hok : Transactional s a) (hs : step s a = some s') : History base s' := by
  cases step_runs hs with
  | bio p _ _ _ hr =>
    obtain ⟨hlog,q,hq,hproc⟩ := bioStep_frame hr
    refine h.keep hlog.disk hlog.commits hlog.pend hlog.writes (fun hup => hlog.up ▸ hup)
      (fun _ _ _ => by rw [hlog.last]) (fun i hi => ⟨hlog.unsaved ▸ hi,?_⟩) ?_
    · obtain ⟨-,r,hr',-⟩ := hI.rule.owner i hi
      exact hI.sound.key_step hs (by simp) (.inl (hI.sound.refcnt_held hr'))
    · rw [hproc]
      refine op_update (.inl ?_)
      cases hq <;> rfl
  | pc p hb _ _ hr => exact h.pcStep hL hI hids hb hr
  | call p c _ _ _ _ hr => exact h.callStep hok hr
  | intr hr =>
    unfold ideintr at hr
    split at hr
    · cases hr
    · rename_i i q hq
      split_ifs at hr with hd <;> cases hr
      · obtain ⟨p,hp⟩ := Rule.writer hI.sound (by simp [hq]) hd
        rcases place_waits (hp ▸ hI.rule.place p) with ⟨w,t,l,j,hpc,rfl⟩ | ⟨k,hpc⟩
        · exact h.copyWritten hL hI hpc hp hd
        · exact h.headWritten hL hI hpc hp hd
      · exact h.stay rfl rfl id (fun j => update_key (by rfl) j) fun _ _ => id
  | rouse p hr =>
    subst hr
    exact h.stay rfl rfl id (fun _ => rfl) (op_update (.inl rfl))
  | crash hr =>
    subst hr
    exact h.boot

theorem start (disk : Key → Block) : History (recovered cfg disk) (start cfg disk) where
  value _ _ := rfl
  fresh hup := by simp [FsMachine.start,FsMachine.boot] at hup
  live p o ho := by simp [FsMachine.start,FsMachine.boot] at ho
  pending o ho := by simp [FsMachine.start,FsMachine.boot,own] at ho
  whole o := .inl (by simp [FsMachine.start,FsMachine.boot,Book.blank])

end

end History

section
variable {s s' : State cfg} {p : cfg.ProcId}

/-- The commits are the writes of a header with `n > 0` over an empty one. -/
theorem commits_step {a : Label cfg} (hL : Laid cfg) (h : Logged s) (hok : Transactional s a)
    (hs : step s a = some s') : s'.book.commits =
      if readHeader (s.disk cfg.head) = [] ∧ readHeader (s'.disk cfg.head) ≠ [] then
        s.book.commits++[s.book.pend] else s.book.commits := by
  have hquiet : s'.disk = s.disk → s'.book.commits = s.book.commits → s'.book.commits =
      if readHeader (s.disk cfg.head) = [] ∧ readHeader (s'.disk cfg.head) ≠ [] then
        s.book.commits++[s.book.pend] else s.book.commits := by
    intro hdisk hc
    rw [hdisk,if_neg (fun hh => hh.2 hh.1)]
    exact hc
  cases step_runs hs with
  | bio p _ _ _ hr =>
    have hlog := (bioStep_frame hr).1
    exact hquiet hlog.disk hlog.commits
  | pc p _ _ _ hr => exact hquiet (pcStep_still hr).1 (pcStep_still hr).2
  | call p c _ _ _ _ hr => exact hquiet (callStep_still hok hr).1 (callStep_still hok hr).2
  | intr hr =>
    unfold ideintr at hr
    split at hr
    · cases hr
    · rename_i i q hq
      split_ifs at hr with hd <;> cases hr
      · by_cases hk : (s.buf i).key = cfg.head
        · obtain ⟨p,hp⟩ := Rule.writer h.sound (by simp [hq]) hd
          obtain ⟨k,hready,hlh⟩ := header_written hL h hp hd hk
          simp only [hk,update_self,Book.written,if_true,hlh]
          cases k with
          | commit =>
            have hhdr : readHeader (s.disk cfg.head) = [] := hready.hdr
            have hne : s.lh ≠ [] := hready.some rfl
            simp [hhdr,hne]
          | erase | recover =>
            have hnil : s.lh = [] := hready.1.lh
            simp [hnil]
        · have hno : ¬(readHeader (s.disk cfg.head) = [] ∧ readHeader (s.disk cfg.head) ≠ []) :=
            fun hh => hh.2 hh.1
          simp only [update_of_ne (Ne.symm hk),Book.written,if_neg hk,if_neg hno]
          split_ifs <;> rfl
      · exact hquiet rfl rfl
  | rouse p hr | crash hr =>
    subst hr
    exact hquiet rfl rfl

end

/-- In every run of file system code that keeps to the log, with crashes at any
time: after a recovery, and outside commits, the home blocks have the contents
after the commits so far; these are the commits whose header with `n > 0` was
written; and an operation has all its calls of `log_write` in one of them or none
in any. -/
theorem crash_atomic {disk : Key → Block} {s : State cfg} (hL : Laid cfg)
    (hdisk : GoodHeader cfg (readHeader (disk cfg.head)))
    (h : Reach step Transactional (start cfg disk) s) :
    ((∃ p, (s.proc p).pc = .initDone) ∨ s.up = true ∧ s.committing = false → ∀ b, ¬cfg.InLog b →
      s.disk (cfg.dev,b) = contents (recovered cfg disk) s.book.commits b) ∧
    (∀ a s', Transactional s a → step s a = some s' → s'.book.commits =
      if readHeader (s.disk cfg.head) = [] ∧ readHeader (s'.disk cfg.head) ≠ [] then
        s.book.commits++[s.book.pend] else s.book.commits) ∧
    ∀ o, AllOrNone Entry.op o s.book.writes s.book.commits := by
  obtain ⟨hI,hids,hH⟩ : Logged s ∧ Ids s ∧ History (recovered cfg disk) s := by
    refine h.invariant (I := fun t => Logged t ∧ Ids t ∧ History (recovered cfg disk) t)
      ⟨.start hdisk,.boot disk _ (by simp [Book.blank]),.start disk⟩ ?_
    rintro t a t' ⟨hI,hids,hH⟩ hok hs
    exact ⟨hI.step hL hok hs,hids.step hI.admission hs,hH.step hL hI hids hok hs⟩
  refine ⟨fun hdone b hb => ?_,fun a s' hok hs => commits_step hL hI hok hs,hH.whole⟩
  refine hH.disk_of_hdr ?_ hb
  rcases hdone with ⟨p,hp⟩ | ⟨hup,hc⟩
  · have hplace := hI.rule.place p
    rw [hp] at hplace
    exact hplace.2.2
  · exact (hI.rule.calm hup hc).1

/-- An operation logs a block, and its commit is cut short when the header is on
disk. The process then recovers. -/
def cutShort : List (Label solo) :=
  let p : Fin 1 := 0
  let go (n : ℕ) : List (Label solo) := replicate n (.go p)
  let disk : List (Label solo) := [.intr]
  flatten [logOne,[.call p (.brelse (1 : Fin 3)),.go p,.call p .endOp],go 6,disk,go 6,disk,go 11,
    disk,[.crash],go 4,disk,go 7,disk,go 5,disk,go 2,disk,go 12,disk,go 3]

theorem cutShort_recovers : ∃ s : State solo, Reach step Transactional (start solo blankDisk) s ∧
    (s.proc (0 : Fin 1)).pc = .initDone ∧ s.book.commits.length = 1 ∧ s.disk (1,50) 0 = 7 := by
  have hrun : (run (guarded step Transactional) (start solo blankDisk) cutShort).any (fun s =>
      (s.proc (0 : Fin 1)).pc = .initDone ∧ s.book.commits.length = 1 ∧
        contents (recovered solo blankDisk) s.book.commits 50 0 = 7) = true := by decide +kernel
  obtain ⟨s,hs,hp⟩ := (Option.any_eq_true _ _).mp hrun
  obtain ⟨hpc,hlen,hcontents⟩ := of_decide_eq_true hp
  have hreach := Reach.refl.of_run hs
  obtain ⟨hdone,-,-⟩ := crash_atomic ⟨by decide,by decide,by decide⟩ ⟨by decide,by decide,by decide⟩ hreach
  have hdisk : s.disk (1,50) = contents (recovered solo blankDisk) s.book.commits 50 :=
    hdone (.inl ⟨0,hpc⟩) 50 (by decide)
  exact ⟨s,hreach,hpc,hlen,by rw [hdisk]; exact hcontents⟩

/-- In every such run, when the file system is up and no operation and no commit is under way, a home
block has on disk what was stored in it last, and a recovery would leave it there. -/
theorem quiet_durable {disk : Key → Block} {s : State cfg} (hL : Laid cfg)
    (hdisk : GoodHeader cfg (readHeader (disk cfg.head)))
    (h : Reach step Transactional (start cfg disk) s) (hup : s.up = true)
    (hc : s.committing = false) (hout : s.outstanding = 0) {b : ℕ} (hb : ¬cfg.InLog b) :
    s.disk (cfg.dev,b) = s.book.last (cfg.dev,b) ∧
      recovered cfg s.disk b = s.book.last (cfg.dev,b) := by
  obtain ⟨hI,-,hH⟩ : Logged s ∧ Ids s ∧ History (recovered cfg disk) s := by
    refine h.invariant (I := fun t => Logged t ∧ Ids t ∧ History (recovered cfg disk) t)
      ⟨.start hdisk,.boot disk _ (by simp [Book.blank]),.start disk⟩ ?_
    rintro t a t' ⟨hI,hids,hH⟩ hok hs
    exact ⟨hI.step hL hok hs,hids.step hI.admission hs,hH.step hL hI hids hok hs⟩
  have hpend : s.book.pend = [] := eq_nil_iff_forall_not_mem.mpr fun e he => by
    have := hI.rule.pend e he
    rw [hI.admission.idle hup hc hout] at this
    cases this
  have hlast : s.book.last (cfg.dev,b) = contents (recovered cfg disk) s.book.commits b := by
    rw [hH.fresh hup b hb fun i _ => ?_,hpend]
    · rfl
    · by_contra hu
      obtain ⟨-,p,-,hp⟩ := hI.rule.owner i (by simpa using hu)
      rw [hI.admission.no_op hout p] at hp
      cases hp
  rw [hlast,hH.value b hb,hH.disk_of_hdr (hI.rule.calm hup hc).1 hb]
  exact ⟨rfl,rfl⟩

theorem cutShort_durable : ∃ s : State solo, Reach step Transactional (start solo blankDisk) s ∧
    s.up = true ∧ recovered solo s.disk 50 0 = 7 := by
  have hrun : (run (guarded step Transactional) (start solo blankDisk) (cutShort++[.go (0 : Fin 1)])).any
      (fun s => s.up = true ∧ s.committing = false ∧ s.outstanding = 0 ∧ s.book.last (1,50) 0 = 7) =
        true := by decide +kernel
  obtain ⟨s,hs,hp⟩ := (Option.any_eq_true _ _).mp hrun
  obtain ⟨hup,hc,hout,hlast⟩ := of_decide_eq_true hp
  have hreach := Reach.refl.of_run hs
  have h := quiet_durable ⟨by decide,by decide,by decide⟩ ⟨by decide,by decide,by decide⟩ hreach hup hc
    hout (b := 50) (by decide)
  exact ⟨s,hreach,hup,(congrFun h.2 0).trans hlast⟩

end Xv6.CrashRecovery
