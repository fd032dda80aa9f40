import Xv6.LogAdmission
import Xv6.Coherence

/-!
# The places of `log.c`

File system code changes a block only inside an operation, hands it to `log_write`, and leaves
writing to `commit`. Then the dirty buffers are those of the logged blocks that are not installed
yet, and the one that `log.c` waits for. What `log.c` has done so far is a property of the place of
the process that commits or recovers: `Place` says which blocks are copied there, what the header on
disk lists and which buffers are at hand.
-/
namespace Xv6.LogPlace
open FsMachine LogStep LogAdmission CacheStep BufferCache Coherence

variable {cfg : Config}

def Home (cfg : Config) (k : Key) : Prop := k.1 = cfg.dev ∧ ¬cfg.InLog k.2

instance (cfg : Config) (k : Key) : Decidable (Home cfg k) := inferInstanceAs (Decidable (_ ∧ _))

/-- Blocks outside the log are stored into within an operation only, which logs
them before it releases the buffer or ends. Nothing is written around the log. -/
def Transactional (s : State cfg) : Label cfg → Prop
  | .call p (.modify i _) => (s.proc p).op.isSome = true ∧ Home cfg (s.buf i).key
  | .call _ (.bwrite _) => False
  | .call _ (.logWrite i) => Home cfg (s.buf i).key
  | .call _ (.brelse i) => s.book.unsaved i = false
  | .call p .endOp => ∀ i ∈ (s.proc p).held, s.book.unsaved i = false
  | _ => True

instance (s : State cfg) (a : Label cfg) : Decidable (Transactional s a) :=
  match a with
  | .call p (.modify ..) => inferInstanceAs (Decidable ((s.proc p).op.isSome = true ∧ _))
  | .call _ (.bwrite _) => .isFalse id
  | .call _ (.logWrite i) => inferInstanceAs (Decidable (Home cfg (s.buf i).key))
  | .call _ (.brelse i) => inferInstanceAs (Decidable (s.book.unsaved i = false))
  | .call p .endOp => inferInstanceAs (Decidable (∀ i ∈ (s.proc p).held, s.book.unsaved i = false))
  | .call _ (.bread _) | .call _ .beginOp | .go _ | .intr | .rouse _ | .crash => .isTrue trivial

theorem Transactional.saves {s : State cfg} {a : Label cfg} (h : Transactional s a) : Saves s a := by
  match a,h with
  | .call _ (.brelse i),h => exact h
  | .call _ (.bread _),_ | .call _ (.modify ..),_ | .call _ (.logWrite _),_ | .call _ .beginOp,_
  | .call _ .endOp,_ | .go _,_ | .intr,_ | .rouse _,_ | .crash,_ => trivial

/-- What the layout of `mkfs` gives: block numbers of the root device are not those
of an unused buffer, and the log area has a block for every buffer. -/
structure Laid (cfg : Config) : Prop where
  dev : cfg.dev ≠ 0
  size : 1 < cfg.size
  fits : cfg.nbuf ≤ cfg.size

section
variable {t j b : ℕ}

theorem slot_ne_home (ht : t+1 < cfg.size) (hb : ¬cfg.InLog b) : cfg.slot t ≠ (cfg.dev,b) := by
  intro h
  have hb' : cfg.start+t+1 = b := congrArg Prod.snd h
  exact hb ⟨by omega,by omega⟩

theorem head_ne_home (hs : 0 < cfg.size) (hb : ¬cfg.InLog b) : cfg.head ≠ (cfg.dev,b) := by
  intro h
  have hb' : cfg.start = b := congrArg Prod.snd h
  exact hb ⟨by omega,by omega⟩

theorem slot_ne_slot (h : j ≠ t) : cfg.slot j ≠ cfg.slot t := by
  simp only [Config.slot,ne_eq,Prod.mk.injEq,true_and]
  omega

theorem slot_ne_head : cfg.slot t ≠ cfg.head := by
  simp only [Config.slot,Config.head,ne_eq,Prod.mk.injEq,true_and]
  omega

theorem readHeader_writeHeader (lh : List ℕ) (v : Block) : readHeader (writeHeader lh v) = lh := by
  apply List.ext_getElem
  · simp [readHeader,writeHeader]
  · intro n h1 h2
    simp [readHeader,writeHeader,h2]

end

structure View (cfg : Config) where
  lh : List ℕ
  disk : Key → Block
  last : Key → Block
  pinned : List ℕ
  pend : List Entry

def view (s : State cfg) : View cfg := ⟨s.lh,s.disk,s.book.last,s.book.pinned,s.book.pend⟩

def View.hdr (v : View cfg) : List ℕ := readHeader (v.disk cfg.head)

def tag (s : State cfg) (i : cfg.BufId) : Key × Bool := ((s.buf i).key,(s.buf i).dirty)

/-- The blocks that are logged and not installed when a loop is at `t`. -/
def pins (lh : List ℕ) (t : ℕ) : Copy → List ℕ
  | .writeLog => lh
  | .install => lh.drop t
  | .recover => []

/-- The blocks of which log and home copy agree when a loop is at `t`. -/
def copied (lh : List ℕ) (t : ℕ) : Copy → ℕ
  | .install => lh.length
  | _ => t

/-- The loops of `write_log` and `install_trans` before round `t`. -/
structure Loop (v : View cfg) (w : Copy) (t : ℕ) : Prop where
  bound : t ≤ v.lh.length
  hdr : v.hdr = if w = .writeLog then [] else v.lh
  pend : w ≠ .writeLog → v.pend = []
  pinned : v.pinned = pins v.lh t w
  done : ∀ j < copied v.lh t w, v.last (cfg.slot j) = v.last (cfg.dev,v.lh.getD j 0)
  small : w = .writeLog → 0 < t → v.lh.length < cfg.nbuf
  some : w = .writeLog → v.lh ≠ []

structure Have (v : View cfg) (f : cfg.BufId → Key × Bool) (w : Copy) (t : ℕ) (l : cfg.BufId) :
    Prop where
  lt : t < v.lh.length
  room : w = .writeLog → v.lh.length < cfg.nbuf
  key : (f l).1 = cfg.slot t

/-- How far a loop is once the copy of round `t` is in memory. -/
def moved (t : ℕ) : Copy → ℕ
  | .install => t
  | _ => t+1

structure Blank (v : View cfg) : Prop where
  lh : v.lh = []
  pend : v.pend = []
  pinned : v.pinned = []

def Ready (v : View cfg) : Head → Prop
  | .commit => Loop v .writeLog v.lh.length
  | .erase | .recover => Blank v ∧ ∀ j < v.hdr.length,
      v.disk (cfg.dev,v.hdr.getD j 0) = v.disk (cfg.slot j)

def Done (v : View cfg) : Head → Prop
  | .commit => Loop v .install 0
  | .erase | .recover => Blank v ∧ v.hdr = []

def Asks (b : Bio cfg) (k : Key) : Prop :=
  b = .bget k ∨ ∃ i, b = .acquire k i ∨ b = .check k i ∨ b = .readWait k i

def Resting (b : Bio cfg) : Prop := b = .idle ∨ ∃ i, b = .put i

/-- The buffer is being written and `P` holds, or it is written and `Q` holds. -/
def Writing (f : cfg.BufId → Key × Bool) (b : Bio cfg) (i : cfg.BufId) (P Q : Prop) : Prop :=
  b = .writeWait i ∧ (f i).2 = true ∧ P ∨ (b = .writeWait i ∨ b = .idle) ∧ (f i).2 = false ∧ Q

def Place (v : View cfg) (f : cfg.BufId → Key × Bool) (b : Bio cfg) : Pc cfg → Prop
  | .user => ∀ i, b ≠ .writeWait i
  | .beginOp | .endOp => b = .idle
  | .logWrite i | .logAppend i => b = .idle ∧ Home cfg (f i).1
  | .commit => b = .idle ∧ v.hdr = [] ∧ v.pinned = v.lh
  | .endCommit | .initDone => Resting b ∧ Blank v ∧ v.hdr = []
  | .copy w t => Resting b ∧ Loop v w t
  | .copyLog w t => Asks b (cfg.slot t) ∧ t < v.lh.length ∧ Loop v w t
  | .copyNext w t l => b = .idle ∧ Loop v w t ∧ Have v f w t l
  | .copyHome w t l => Asks b (cfg.dev,v.lh.getD t 0) ∧ Loop v w t ∧ Have v f w t l
  | .copyMove w t l h => b = .idle ∧ Loop v w t ∧ Have v f w t l ∧ (f h).1 = (cfg.dev,v.lh.getD t 0)
  | .copyRelse w t l h => Have v f w t l ∧ (f h).1 = (cfg.dev,v.lh.getD t 0) ∧
      Writing f b (w.dst l h) (Loop v w (moved t w)) (Loop v w (t+1))
  | .copyEnd w t _ => Resting b ∧ Loop v w (t+1)
  | .clear r => Resting b ∧ Loop v (if r then .recover else .install) v.lh.length
  | .writeHead k => Resting b ∧ Ready v k
  | .writeHeadRead k => Asks b cfg.head ∧ Ready v k
  | .writeHeadPut k i => b = .idle ∧ Ready v k ∧ (f i).1 = cfg.head
  | .writeHeadEnd k i => (f i).1 = cfg.head ∧
      Writing f b i (Ready v k ∧ readHeader (v.last cfg.head) = v.lh) (Done v k)
  | .readHead => b = .idle ∧ Blank v
  | .readHeadRead => Asks b cfg.head ∧ Blank v
  | .readHeadCopy i => b = .idle ∧ Blank v ∧ (f i).1 = cfg.head

section
variable {v v' : View cfg} {f f' : cfg.BufId → Key × Bool} {b : Bio cfg} {pc : Pc cfg} {i : cfg.BufId}

theorem place_congr (h : Place v f b pc) (hf : ∀ i ∈ pc.refs, f' i = f i)
    (hlog : ∀ i, pc = .logWrite i ∨ pc = .logAppend i → (f' i).1 = (f i).1) : Place v f' b pc := by
  have hhave : ∀ {w t l}, f' l = f l → Have v f w t l → Have v f' w t l :=
    fun hl h => ⟨h.lt,h.room,hl ▸ h.key⟩
  cases pc with
  | logWrite i | logAppend i => exact ⟨h.1,by rw [hlog i (by simp)]; exact h.2⟩
  | copyNext w t l | copyHome w t l => exact ⟨h.1,h.2.1,hhave (hf l (by simp [Pc.refs])) h.2.2⟩
  | copyMove w t l i =>
    refine ⟨h.1,h.2.1,hhave (hf l (by simp [Pc.refs])) h.2.2.1,?_⟩
    rw [hf i (by simp [Pc.refs])]
    exact h.2.2.2
  | copyRelse w t l i =>
    have hd : f' (w.dst l i) = f (w.dst l i) := hf _ (by cases w <;> simp [Pc.refs,Copy.dst])
    refine ⟨hhave (hf l (by simp [Pc.refs])) h.1,?_,?_⟩
    · rw [hf i (by simp [Pc.refs])]
      exact h.2.1
    · unfold Writing
      rw [hd]
      exact h.2.2
  | writeHeadPut k i | readHeadCopy i =>
    rw [Place,hf i (by simp [Pc.refs])]
    exact h
  | writeHeadEnd k i =>
    rw [Place,Writing,hf i (by simp [Pc.refs])]
    exact h
  | _ => exact h

/-- Outside `commit` and recovery a place asks for nothing but the block to log. -/
theorem place_calm (h : Place v f b pc) (hk : ¬Busy (kind pc))
    (hlog : ∀ i, pc = .logWrite i ∨ pc = .logAppend i → (f' i).1 = (f i).1) : Place v' f' b pc := by
  cases pc with
  | user | beginOp | endOp => exact h
  | logWrite i | logAppend i => exact ⟨h.1,by rw [hlog i (by simp)]; exact h.2⟩
  | clear r => cases r <;> simp [kind,Busy] at hk
  | copy w | copyLog w | copyNext w | copyHome w | copyMove w | copyRelse w | copyEnd w =>
    cases w <;> simp [kind,kindOfCopy,Busy] at hk
  | writeHead k | writeHeadRead k | writeHeadPut k | writeHeadEnd k =>
    cases k <;> simp [kind,kindOfHead,Busy] at hk
  | _ => simp [kind,Busy] at hk

theorem not_asks_writeWait {k : Key} : ¬Asks (.writeWait i : Bio cfg) k := by
  simp [Asks]

theorem not_resting_writeWait : ¬Resting (.writeWait i : Bio cfg) := by
  simp [Resting]

theorem place_waits (h : Place v f (.writeWait i) pc) :
    (∃ w t l j, pc = .copyRelse w t l j ∧ i = w.dst l j) ∨ ∃ k, pc = .writeHeadEnd k i := by
  cases pc with
  | user => exact absurd rfl (h i)
  | beginOp | endOp => cases h
  | copyRelse w t l j =>
    left
    rcases h.2.2 with ⟨hb,-⟩ | ⟨hb | hb,-⟩ <;> cases hb
    · exact ⟨w,t,l,j,rfl,rfl⟩
    · exact ⟨w,t,l,j,rfl,rfl⟩
  | writeHeadEnd k =>
    right
    rcases h.2 with ⟨hb,-⟩ | ⟨hb | hb,-⟩ <;> cases hb
    · exact ⟨k,rfl⟩
    · exact ⟨k,rfl⟩
  | copyLog | copyHome | writeHeadRead | readHeadRead => exact absurd h.1 not_asks_writeWait
  | endCommit | initDone | copy | copyEnd | clear | writeHead => exact absurd h.1 not_resting_writeWait
  | _ =>
    cases h.1

theorem busy_copy (w : Copy) : Busy (kindOfCopy w) := by cases w <;> trivial

theorem busy_head (k : Head) : Busy (kindOfHead k) := by cases k <;> trivial

theorem busy_of_waits (h : Place v f (.writeWait i) pc) : Busy (kind pc) := by
  rcases place_waits h with ⟨w,t,l,j,rfl,-⟩ | ⟨k,rfl⟩
  · exact busy_copy w
  · exact busy_head k

end

inductive Moves (s : State cfg) (q : Proc cfg) : Proc cfg → Prop
  | asks (k : Key) (b : Bio cfg) : Asks q.bio k → Asks b k → Moves s q {q with bio := b}
  | put (i : cfg.BufId) : q.bio = .put i → Moves s q {q with bio := .idle}
  | wrote (i : cfg.BufId) : q.bio = .writeWait i → (s.buf i).dirty = false →
      Moves s q {q with bio := .idle}
  | panic (msg : String) : Moves s q {q with panicked := some msg}
  | deliver (k : Key) (i : cfg.BufId) : target q.bio = some (k,i) → Moves s q (q.deliver i)

section
variable {s s' : State cfg} {p : cfg.ProcId} {b : Bio cfg} {k : Key} {i : cfg.BufId} {v : View cfg}
  {f : cfg.BufId → Key × Bool} {pc : Pc cfg}

theorem bioStep_moves (h : bioStep s p = some s') :
    ∃ q, Moves s (s.proc p) q ∧ s'.proc = Function.update s.proc p q := by
  unfold bioStep at h
  split at h
  · cases h
  · rename_i k hb
    cases h
    unfold bget
    split
    · exact ⟨_,.asks k _ (.inl hb) (.inr ⟨_,.inl rfl⟩),rfl⟩
    · split
      · exact ⟨_,.asks k _ (.inl hb) (.inr ⟨_,.inl rfl⟩),rfl⟩
      · exact ⟨_,.panic _,rfl⟩
  · rename_i k i hb
    split_ifs at h
    cases h
    exact ⟨_,.asks k _ (.inr ⟨i,.inl hb⟩) (.inr ⟨i,.inr (.inl rfl)⟩),rfl⟩
  · rename_i k i hb
    split_ifs at h <;> cases h
    · exact ⟨_,.deliver k i (by rw [hb]; rfl),rfl⟩
    · unfold iderw
      split_ifs
      · exact ⟨_,.panic _,rfl⟩
      · exact ⟨_,.panic _,rfl⟩
      · exact ⟨_,.asks k _ (.inr ⟨i,.inr (.inl hb)⟩) (.inr ⟨i,.inr (.inr rfl)⟩),rfl⟩
  · rename_i k i hb
    split_ifs at h
    cases h
    exact ⟨_,.deliver k i (by rw [hb]; rfl),rfl⟩
  · rename_i i hb
    split_ifs at h with hd
    cases h
    exact ⟨_,.wrote i hb hd.2,rfl⟩
  · rename_i i hb
    cases h
    unfold put
    split_ifs
    · exact ⟨_,.put i hb,rfl⟩
    · exact ⟨_,.put i hb,rfl⟩

theorem update_dirty {g : cfg.BufId → Buf cfg} {j : cfg.BufId} {b : Buf cfg}
    (h : b.dirty = (g j).dirty) (i : cfg.BufId) : (Function.update g j b i).dirty = (g i).dirty := by
  by_cases hij : i = j
  · subst hij
    simpa using h
  · simp [hij]

theorem bioStep_dirty (hI : Inv (cache s)) (h : bioStep s p = some s') (i : cfg.BufId) :
    (s'.buf i).dirty = (s.buf i).dirty := by
  unfold bioStep at h
  split at h
  · cases h
  · cases h
    unfold bget
    split
    · exact update_dirty (by rfl) i
    · split
      · rename_i j hj
        have hfree : (s.buf j).refcnt = 0 ∧ (s.buf j).dirty = false :=
          Inv.victim_free (c := cache s) hj hI
        exact update_dirty hfree.2.symm i
      · rfl
  · split_ifs at h
    cases h
    exact update_dirty (by rfl) i
  · split_ifs at h <;> cases h
    · rfl
    · unfold iderw
      split_ifs <;> rfl
  · split_ifs at h
    cases h
    rfl
  · split_ifs at h
    cases h
    rfl
  · cases h
    unfold put
    split_ifs <;> exact update_dirty (by rfl) i

theorem outstanding_of_busy (hA : Admission s) (hp : Busy (kind (s.proc p).pc)) : s.outstanding = 0 := by
  have hf := hA.fits p
  cases hk : kind (s.proc p).pc <;> rw [hk] at hp hf
  case commit => exact hA.alone hf.2
  case committed => exact hA.alone hf.2.1
  case recover => exact (hA.down hf).1
  case recovered => exact (hA.down hf.1).1
  all_goals exact hp.elim

theorem op_of_busy (hA : Admission s) (hp : Busy (kind (s.proc p).pc)) (q : cfg.ProcId) :
    (s.proc q).op = none := hA.no_op (outstanding_of_busy hA hp) q

theorem view_same (h : SameLog s s') : view s' = view s := by
  simp only [view,h.lh,h.disk,h.last,h.pinned,h.pend]

theorem asks_key {k' : Key} (h : Asks b k) (h' : Asks b k') : k' = k := by
  rcases h with rfl | ⟨i,rfl | rfl | rfl⟩ <;> simpa [Asks,eq_comm] using h'

theorem asks_of_target (h : target b = some (k,i)) : Asks b k := by
  cases b <;> simp [target] at h <;> simp [Asks,h]

theorem not_asks_of_resting (h : Resting b) : ¬Asks b k := by
  rcases h with rfl | ⟨i,rfl⟩ <;> simp [Asks]

theorem place_asks {b' : Bio cfg}
    (h : Place v f b pc) (hb : Asks b k) (hb' : Asks b' k) : Place v f b' pc := by
  have hidle : b ≠ .idle := by
    rintro rfl
    simp [Asks] at hb
  cases pc with
  | user =>
    rintro i rfl
    exact not_asks_writeWait hb'
  | beginOp | endOp => exact absurd h hidle
  | copyLog | copyHome | writeHeadRead | readHeadRead => exact ⟨asks_key hb h.1 ▸ hb',h.2⟩
  | endCommit | initDone | copy | copyEnd | clear | writeHead =>
    exact absurd hb (not_asks_of_resting h.1)
  | copyRelse =>
    rcases h.2.2 with ⟨rfl,-⟩ | ⟨rfl | hi,-⟩
    · exact absurd hb not_asks_writeWait
    · exact absurd hb not_asks_writeWait
    · exact absurd hi hidle
  | writeHeadEnd =>
    rcases h.2 with ⟨rfl,-⟩ | ⟨rfl | hi,-⟩
    · exact absurd hb not_asks_writeWait
    · exact absurd hb not_asks_writeWait
    · exact absurd hi hidle
  | _ =>
    exact absurd h.1 hidle

theorem place_put (h : Place v f (.put i) pc) : Place v f .idle pc := by
  cases pc with
  | user => simp [Place]
  | beginOp | endOp => cases h
  | endCommit | initDone | copy | copyEnd | clear | writeHead => exact ⟨.inl rfl,h.2⟩
  | copyRelse => rcases h.2.2 with ⟨hb,-⟩ | ⟨hb | hb,-⟩ <;> cases hb
  | writeHeadEnd => rcases h.2 with ⟨hb,-⟩ | ⟨hb | hb,-⟩ <;> cases hb
  | copyLog | copyHome | writeHeadRead | readHeadRead => simp [Place,Asks] at h
  | _ =>
    cases h.1

theorem writing_wrote {j : cfg.BufId} {P Q : Prop}
    (h : Writing f (.writeWait i) j P Q) (hi : (f i).2 = false) : Writing f .idle j P Q := by
  rcases h with ⟨hb,hd,-⟩ | ⟨hb | hb,hd,hQ⟩
  · cases hb
    simp [hi] at hd
  · exact .inr ⟨.inr rfl,hd,hQ⟩
  · cases hb

theorem place_wrote (h : Place v f (.writeWait i) pc) (hi : (f i).2 = false) : Place v f .idle pc := by
  rcases place_waits h with ⟨w,t,l,j,rfl,-⟩ | ⟨k,rfl⟩
  · exact ⟨h.1,h.2.1,writing_wrote h.2.2 hi⟩
  · exact ⟨h.1,writing_wrote h.2 hi⟩

structure Stays (x y : Proc cfg) : Prop where
  bio : y.bio = x.bio
  pc : y.pc = x.pc
  held : y.held = x.held
  op : y.op = x.op

theorem stays_update {q : Proc cfg} (r : cfg.ProcId) (hr : r ≠ p) :
    Stays (s.proc r) (Function.update s.proc p q r) := by
  rw [Function.update_of_ne hr]
  exact ⟨rfl,rfl,rfl,rfl⟩

end

end Xv6.LogPlace
