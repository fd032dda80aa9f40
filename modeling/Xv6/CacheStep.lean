import Xv6.FsMachine
import Mathlib.Logic.Relation

/-!
# What a step does to the buffer cache

The cache sees of a process only where it is in `bio.c` and which buffers it has locked. `CacheStep`
lists the changes that any client can make to it, and every step of the machine is a sequence of
such changes: what they keep holds whatever code calls the cache.
-/
namespace Xv6.CacheStep
open LinkedRing FsMachine
open Function (update)

variable {cfg : Config}

def mine (q : Proc cfg) : List cfg.BufId := q.pc.refs++q.held

/-- The cache, the disk, and what the processes do with them. -/
structure Cache (cfg : Config) where
  buf : cfg.BufId → Buf cfg
  ring : Links cfg.BufId
  idequeue : List cfg.BufId
  disk : Key → Block
  bio : cfg.ProcId → Bio cfg
  mine : cfg.ProcId → List cfg.BufId
  last : Key → Block
  unsaved : cfg.BufId → Bool
  stamp : cfg.BufId → ℕ
  now : ℕ

def cache (s : State cfg) : Cache cfg where
  buf := s.buf
  ring := s.ring
  idequeue := s.idequeue
  disk := s.disk
  bio p := (s.proc p).bio
  mine p := mine (s.proc p)
  last := s.book.last
  unsaved := s.book.unsaved
  stamp := s.book.stamp
  now := s.book.now

namespace Cache

def setBuf (c : Cache cfg) (i : cfg.BufId) (b : Buf cfg) : Cache cfg :=
  {c with buf := update c.buf i b}

def turn (c : Cache cfg) (p : cfg.ProcId) (bio : Bio cfg) (mine : List cfg.BufId) : Cache cfg :=
  {c with bio := update c.bio p bio, mine := update c.mine p mine}

end Cache

def fresh (cfg : Config) (disk : Key → Block) : Cache cfg where
  buf _ := ⟨(0,0),false,false,none,0,fun _ => 0⟩
  ring := (List.finRange cfg.nbuf).foldl Links.pushHead .empty
  idequeue := []
  disk := disk
  bio _ := .idle
  mine _ := []
  last := disk
  unsaved _ := false
  stamp _ := 0
  now := 0

/-- One change, named after the code that makes it. With `S`, a buffer is released only
if what was stored in it has been written or logged. -/
inductive Change (S : Prop) (c : Cache cfg) : Cache cfg → Prop
  | bread (p : cfg.ProcId) (k : Key) : c.bio p = .idle → Change S c (c.turn p (.bget k) (c.mine p))
  | hit (p : cfg.ProcId) (k : Key) (i : cfg.BufId) : c.bio p = .bget k →
      scan c.ring.next (fun i => (c.buf i).key = k) cfg.nbuf (c.ring.next none) = some i →
      Change S c ((c.turn p (.acquire k i) (c.mine p)).setBuf i
        {c.buf i with refcnt := (c.buf i).refcnt+1})
  | recycle (p : cfg.ProcId) (k : Key) (i : cfg.BufId) : c.bio p = .bget k →
      scan c.ring.next (fun i => (c.buf i).key = k) cfg.nbuf (c.ring.next none) = none →
      scan c.ring.prev (fun i => (c.buf i).refcnt = 0 ∧ (c.buf i).dirty = false) cfg.nbuf
        (c.ring.prev none) = some i →
      Change S c ((c.turn p (.acquire k i) (c.mine p)).setBuf i
        {c.buf i with key := k, valid := false, dirty := false, refcnt := 1})
  | lock (p : cfg.ProcId) (k : Key) (i : cfg.BufId) : c.bio p = .acquire k i → (c.buf i).lock = none →
      Change S c ((c.turn p (.check k i) (c.mine p)).setBuf i {c.buf i with lock := some p})
  | request (p : cfg.ProcId) (k : Key) (i : cfg.BufId) : c.bio p = .check k i → (c.buf i).valid = false →
      Change S c {c.turn p (.readWait k i) (c.mine p) with idequeue := c.idequeue++[i]}
  | given (p : cfg.ProcId) (k : Key) (i : cfg.BufId) (l : List cfg.BufId) :
      c.bio p = .check k i ∨ c.bio p = .readWait k i → (c.buf i).valid = true →
      l.Perm (i::c.mine p) → Change S c (c.turn p .idle l)
  | store (p : cfg.ProcId) (i : cfg.BufId) (v : Block) : c.bio p = .idle → i ∈ c.mine p →
      Change S c {c.setBuf i {c.buf i with data := v} with
        last := update c.last (c.buf i).key v
        unsaved := update c.unsaved i true}
  | bwrite (p : cfg.ProcId) (i : cfg.BufId) : c.bio p = .idle → i ∈ c.mine p →
      Change S c {(c.turn p (.writeWait i) (c.mine p)).setBuf i {c.buf i with dirty := true} with
        idequeue := c.idequeue++[i]
        unsaved := update c.unsaved i false}
  | wrote (p : cfg.ProcId) (i : cfg.BufId) : c.bio p = .writeWait i → (c.buf i).dirty = false →
      Change S c (c.turn p .idle (c.mine p))
  | logged (p : cfg.ProcId) (i : cfg.BufId) : c.bio p = .idle → i ∈ c.mine p →
      Change S c {c.setBuf i {c.buf i with dirty := true} with
        unsaved := update c.unsaved i false}
  | brelse (p : cfg.ProcId) (i : cfg.BufId) (l : List cfg.BufId) : c.bio p = .idle →
      (S → c.unsaved i = false) → (c.mine p).Perm (i::l) →
      Change S c ((c.turn p (.put i) l).setBuf i {c.buf i with lock := none})
  | put (p : cfg.ProcId) (i : cfg.BufId) : c.bio p = .put i → (c.buf i).refcnt-1 ≠ 0 →
      Change S c ((c.turn p .idle (c.mine p)).setBuf i {c.buf i with refcnt := (c.buf i).refcnt-1})
  | putLast (p : cfg.ProcId) (i : cfg.BufId) : c.bio p = .put i → (c.buf i).refcnt-1 = 0 →
      Change S c {(c.turn p .idle (c.mine p)).setBuf i {c.buf i with refcnt := (c.buf i).refcnt-1} with
        ring := (c.ring.unlink i).pushHead i
        stamp := update c.stamp i (c.now+1)
        now := c.now+1}
  | write (i : cfg.BufId) (q : List cfg.BufId) : c.idequeue = i::q → (c.buf i).dirty = true →
      Change S c {c.setBuf i {c.buf i with valid := true, dirty := false} with
        idequeue := q
        disk := update c.disk (c.buf i).key (c.buf i).data}
  | read (i : cfg.BufId) (q : List cfg.BufId) : c.idequeue = i::q → (c.buf i).dirty = false →
      Change S c {c.setBuf i {c.buf i with valid := true, data := c.disk (c.buf i).key} with
        idequeue := q}
  | crash : Change S c (fresh cfg c.disk)

abbrev Changes (S : Prop) : Cache cfg → Cache cfg → Prop := Relation.ReflTransGen (Change S)

theorem Changes.keeps {S : Prop} {I : Cache cfg → Prop} {c c' : Cache cfg} (h : Changes S c c') (hI : I c)
    (hstep : ∀ c c', I c → Change S c c' → I c') : I c' := by
  induction h with
  | refl => exact hI
  | tail _ hc ih => exact hstep _ _ ih hc

theorem mine_deliver (q : Proc cfg) (i : cfg.BufId) : (mine (q.deliver i)).Perm (i::mine q) := by
  unfold mine Proc.deliver
  cases q.pc with
  | copyHome => exact List.Perm.swap _ _ _
  | copyLog | writeHeadRead | readHeadRead => exact List.Perm.refl _
  | _ => exact List.perm_middle

section
variable {S : Prop} (s : State cfg) (p : cfg.ProcId) {q : Proc cfg} {k : Key} {i : cfg.BufId}

theorem cache_setProc (q : Proc cfg) : cache (setProc s p q) = (cache s).turn p q.bio (mine q) := by
  have hbio : (fun p' => (update s.proc p q p').bio) = update (fun p' => (s.proc p').bio) p q.bio :=
    Function.comp_update Proc.bio s.proc p q
  have hmine : (fun p' => mine (update s.proc p q p'))
      = update (fun p' => mine (s.proc p')) p (mine q) :=
    Function.comp_update mine s.proc p q
  simp only [cache,setProc,Cache.turn,hbio,hmine]

theorem cache_setProc_mine (h : mine q = mine (s.proc p)) :
    cache (setProc s p q) = (cache s).turn p q.bio ((cache s).mine p) := by
  rw [cache_setProc,h]
  rfl

theorem cache_setProc_same (h : mine q = mine (s.proc p))
    (hb : q.bio = (s.proc p).bio) : cache (setProc s p q) = cache s := by
  rw [cache_setProc_mine s p h,hb]
  simp [Cache.turn,cache]

theorem cache_panic (msg : String) : cache (panic s p msg) = cache s :=
  cache_setProc_same s p rfl rfl

theorem changes_iderw (hb : (s.proc p).bio = .check k i) (hv : (s.buf i).valid = false) :
    Changes S (cache s) (cache (iderw s p i {s.proc p with bio := .readWait k i})) := by
  unfold iderw
  split_ifs
  · rw [cache_panic]
  · rw [cache_panic]
  · have h := Change.request (S := S) (c := cache s) p k i hb hv
    convert Relation.ReflTransGen.single h
    exact cache_setProc_mine _ _ rfl

theorem changes_store (v : Block) (hb : (s.proc p).bio = .idle)
    (hi : i ∈ mine (s.proc p)) : Change S (cache s) (cache (store s i v)) :=
  Change.store (S := S) (c := cache s) p i v hb hi

theorem changes_bwrite (hb : (s.proc p).bio = .idle)
    (hi : i ∈ mine (s.proc p)) (hq : mine q = mine (s.proc p)) :
    Changes S (cache s) (cache (bwrite s p i q)) := by
  rw [bwrite_eq]
  split_ifs
  · rw [cache_panic]
  · have h := Change.bwrite (S := S) (c := cache s) p i hb hi
    convert Relation.ReflTransGen.single h
    exact cache_setProc_mine _ _ hq

theorem changes_brelse (hb : (s.proc p).bio = .idle)
    (hs : S → s.book.unsaved i = false) (hq : (mine (s.proc p)).Perm (i::mine q)) :
    Changes S (cache s) (cache (brelse s p i q)) := by
  unfold brelse
  split_ifs
  · rw [cache_panic]
  · have h := Change.brelse (S := S) (c := cache s) p i (mine q) hb hs hq
    convert Relation.ReflTransGen.single h
    exact cache_setProc _ _ _

theorem changes_bget (hb : (s.proc p).bio = .bget k) : Changes S (cache s) (cache (bget s p k)) := by
  unfold bget
  cases hl : lookup s k with
  | some i =>
    have h := Change.hit (S := S) (c := cache s) p k i hb hl
    convert Relation.ReflTransGen.single h
    exact cache_setProc_mine _ _ rfl
  | none =>
    cases hv : victim s with
    | some i =>
      have h := Change.recycle (S := S) (c := cache s) p k i hb hl hv
      convert Relation.ReflTransGen.single h
      exact cache_setProc_mine _ _ rfl
    | none =>
      simp only []
      rw [cache_panic]

theorem changes_put (hb : (s.proc p).bio = .put i) : Changes S (cache s) (cache (put s p i)) := by
  unfold put
  split_ifs with h0
  · have h := Change.putLast (S := S) (c := cache s) p i hb h0
    convert Relation.ReflTransGen.single h
    exact cache_setProc_mine _ _ rfl
  · have h := Change.put (S := S) (c := cache s) p i hb h0
    convert Relation.ReflTransGen.single h
    exact cache_setProc_mine _ _ rfl

theorem changes_deliver (hb : (s.proc p).bio = .check k i ∨ (s.proc p).bio = .readWait k i)
    (hv : (s.buf i).valid = true) : Change S (cache s) (cache (setProc s p ((s.proc p).deliver i))) := by
  rw [cache_setProc]
  exact .given p k i _ hb hv (mine_deliver _ i)

end

section
variable {S : Prop} {s s' : State cfg} {p : cfg.ProcId}

theorem changes_bioStep (h : bioStep s p = some s') : Changes S (cache s) (cache s') := by
  unfold bioStep at h
  split at h
  · cases h
  · rename_i k hb
    cases h
    exact changes_bget s p hb
  · rename_i k i hb
    split_ifs at h with hl
    cases h
    have h := Change.lock (S := S) (c := cache s) p k i hb hl
    convert Relation.ReflTransGen.single h
    exact cache_setProc_mine _ _ rfl
  · rename_i k i hb
    split_ifs at h with hv
    · cases h
      exact .single (changes_deliver s p (.inl hb) hv)
    · cases h
      exact changes_iderw s p hb (by simpa using hv)
  · rename_i k i hb
    split_ifs at h with hv
    cases h
    exact .single (changes_deliver s p (.inr hb) hv.1)
  · rename_i i hb
    split_ifs at h with hv
    cases h
    have h := Change.wrote (S := S) (c := cache s) p i hb hv.2
    convert Relation.ReflTransGen.single h
    exact cache_setProc_mine _ _ rfl
  · rename_i i hb
    cases h
    exact changes_put s p hb

theorem changes_endOp (s : State cfg) (p : cfg.ProcId) (hpc : (s.proc p).pc = .endOp) :
    cache (endOp s p) = cache s := by
  unfold endOp
  split_ifs
  · exact cache_panic s p _
  · exact cache_setProc_same s p (by simp [mine,hpc,Pc.refs]) rfl
  · exact cache_setProc_same s p (by simp [mine,hpc,Pc.refs]) rfl

theorem changes_beginOp (s : State cfg) (p : cfg.ProcId) (hpc : (s.proc p).pc = .beginOp) :
    cache (beginOp s p) = cache s := by
  unfold beginOp
  split_ifs
  · exact cache_setProc_same s p rfl rfl
  · exact cache_setProc_same s p (by simp [mine,hpc,Pc.refs]) rfl

theorem changes_logWrite (s : State cfg) (p : cfg.ProcId) (i : cfg.BufId)
    (hpc : (s.proc p).pc = .logWrite i) : cache (logWrite s p i) = cache s := by
  unfold logWrite
  split_ifs
  · exact cache_panic s p _
  · exact cache_panic s p _
  · exact cache_setProc_same s p (by simp [mine,hpc,Pc.refs]) rfl

theorem changes_goto {pc : Pc cfg} (h : pc.refs = (s.proc p).pc.refs) :
    cache (goto s p pc) = cache s := cache_setProc_same s p (by simp [mine,h]) rfl

theorem changes_bread {pc : Pc cfg} {k : Key} (hb : (s.proc p).bio = .idle)
    (h : pc.refs = (s.proc p).pc.refs) : Change S (cache s) (cache (bread s p pc k)) := by
  convert Change.bread (S := S) (c := cache s) p k hb
  exact cache_setProc_mine s p (by simp [mine,h])

theorem changes_logAppend {i : cfg.BufId} (hb : (s.proc p).bio = .idle)
    (hpc : (s.proc p).pc = .logAppend i) (hi : i ∈ mine (s.proc p)) :
    Change S (cache s) (cache (logAppend s p i)) := by
  convert Change.logged (S := S) (c := cache s) p i hb hi
  have h := cache_setProc_same (markDirty s i) p (q := {s.proc p with pc := .user})
    (by simp [mine,hpc,Pc.refs,markDirty,setBuf]) rfl
  exact h

theorem changes_pcStep (hb : (s.proc p).bio = .idle)
    (hlog : ∀ i, (s.proc p).pc = .logAppend i → i ∈ (s.proc p).held)
    (hsaved : S → ∀ i ∈ (s.proc p).pc.refs, s.book.unsaved i = false) (h : pcStep s p = some s') :
    Changes S (cache s) (cache s') := by
  have hmine : ∀ i, i ∈ (s.proc p).pc.refs → i ∈ mine (s.proc p) := fun i hi => by simp [mine,hi]
  unfold pcStep at h
  cases hpc : (s.proc p).pc <;> rw [hpc] at h <;> cases h
  case beginOp => rw [changes_beginOp s p hpc]
  case endOp => rw [changes_endOp s p hpc]
  case logWrite i => rw [changes_logWrite s p i hpc]
  case logAppend i => exact .single (changes_logAppend hb hpc (by simp [mine,hlog i hpc]))
  case commit =>
      rw [changes_goto]
      split_ifs <;> simp [hpc,Pc.refs]
  case endCommit =>
      have h : cache (goto s p .user) = cache s := changes_goto (by simp [hpc,Pc.refs])
      exact h ▸ .refl
  case copy w tail =>
      split_ifs
      · exact .single (changes_bread hb (by simp [hpc,Pc.refs]))
      · rw [changes_goto]
        cases w <;> simp [hpc,Pc.refs,Copy.after]
  case copyNext w tail l => exact .single (changes_bread hb (by simp [hpc,Pc.refs]))
  case copyMove w tail l h =>
      have hd : w.dst l h ∈ mine (s.proc p) := hmine _ (by cases w <;> simp [hpc,Pc.refs,Copy.dst])
      refine .head (changes_store s p _ hb hd) (changes_bwrite _ p hb hd ?_)
      simp [mine,hpc,Pc.refs,store,setBuf]
  case copyRelse w tail l h =>
      refine changes_brelse s p hb (fun hS => hsaved hS _ ?_) ?_
      all_goals cases w <;> simp [mine,hpc,Pc.refs,Copy.src,Copy.dst,List.Perm.swap]
  case copyEnd w tail b =>
      exact changes_brelse s p hb (fun hS => hsaved hS b (by simp [hpc,Pc.refs])) (by simp [mine,hpc,Pc.refs])
  case clear r =>
      have h : cache (goto s p (.writeHead (if r then .recover else .erase))) = cache s :=
        changes_goto (by simp [hpc,Pc.refs])
      exact h ▸ .refl
  case writeHead k => exact .single (changes_bread hb (by simp [hpc,Pc.refs]))
  case writeHeadPut k b =>
      have hd : b ∈ mine (s.proc p) := hmine _ (by simp [hpc,Pc.refs])
      refine .head (changes_store s p _ hb hd) (changes_bwrite _ p hb hd ?_)
      simp [mine,hpc,Pc.refs,store,setBuf]
  case writeHeadEnd k b =>
      refine changes_brelse s p hb (fun hS => hsaved hS b (by simp [hpc,Pc.refs])) ?_
      cases k <;> simp [mine,hpc,Pc.refs,Head.after]
  case readHead => exact .single (changes_bread hb (by simp [hpc,Pc.refs]))
  case readHeadCopy b =>
      have h := changes_brelse {s with lh := readHeader (s.buf b).data} p (i := b)
        (q := {s.proc p with pc := .copy .recover 0}) hb (fun hS => hsaved hS b (by simp [hpc,Pc.refs]))
        (by simp [mine,hpc,Pc.refs])
      exact h
  case initDone =>
      have h : cache (goto s p .user) = cache s := changes_goto (by simp [hpc,Pc.refs])
      exact h ▸ .refl

theorem changes_callStep {c : Call cfg} (hb : (s.proc p).bio = .idle) (hpc : (s.proc p).pc = .user)
    (hsaved : S → ∀ i, c = .brelse i → s.book.unsaved i = false) (h : callStep s p c = some s') :
    Changes S (cache s) (cache s') := by
  have hmine : ∀ i, i ∈ (s.proc p).held → i ∈ mine (s.proc p) := fun i hi => by simp [mine,hi]
  cases c with
  | bread =>
    cases h
    exact .single (changes_bread hb (by simp [hpc]))
  | modify i v =>
    simp only [callStep] at h
    split_ifs at h with hi
    cases h
    exact .single (changes_store s p v hb (hmine i hi))
  | bwrite i =>
    simp only [callStep] at h
    split_ifs at h with hi
    cases h
    exact changes_bwrite s p hb (hmine i hi) rfl
  | logWrite =>
    simp only [callStep] at h
    split_ifs at h with hi
    cases h
    rw [changes_goto (by simp [hpc,Pc.refs])]
  | brelse i =>
    simp only [callStep] at h
    split_ifs at h with hi
    cases h
    apply changes_brelse s p hb fun hS => hsaved hS i rfl
    simpa [mine,hpc,Pc.refs] using List.perm_cons_erase hi
  | beginOp | endOp =>
    simp only [callStep] at h
    split_ifs at h with ho
    cases h
    rw [changes_goto (by simp [hpc,Pc.refs])]

theorem changes_ideintr (h : ideintr s = some s') : Change S (cache s) (cache s') := by
  unfold ideintr at h
  split at h
  · cases h
  · rename_i i q hq
    split_ifs at h with hd <;> cases h
    · have h := Change.write (S := S) (c := cache s) i q hq hd
      convert h using 1
      simp only [cache,Book.written]
      split_ifs <;> rfl
    · have hd : (s.buf i).dirty = false := by simpa using hd
      exact Change.read (S := S) (c := cache s) i q hq hd

end

theorem cache_boot (disk : Key → Block) (bk : Book cfg) : cache (boot disk bk) = fresh cfg disk := by
  have hmine : (fun p : cfg.ProcId => mine ((boot disk bk).proc p)) = fun _ => [] := by
    funext p
    by_cases hp : p = cfg.init <;> simp [mine,boot,hp,Pc.refs]
  simp only [cache,hmine,fresh]
  rfl

def Saves (s : State cfg) : Label cfg → Prop
  | .call _ (.brelse i) => s.book.unsaved i = false
  | _ => True

instance (s : State cfg) (a : Label cfg) : Decidable (Saves s a) :=
  match a with
  | .call _ (.brelse i) => inferInstanceAs (Decidable (s.book.unsaved i = false))
  | .call _ (.bread _) | .call _ (.modify ..) | .call _ (.bwrite _) | .call _ (.logWrite _)
  | .call _ .beginOp | .call _ .endOp | .go _ | .intr | .rouse _ | .crash => .isTrue trivial

/-- The changes of a step, if `log_write` is called on buffers that its caller holds. -/
theorem step_changes {S : Prop} {s s' : State cfg} {a : Label cfg}
    (hlogs : ∀ p i, (s.proc p).pc = .logWrite i ∨ (s.proc p).pc = .logAppend i → i ∈ (s.proc p).held)
    (hsaved : S → ∀ p, ∀ i ∈ (s.proc p).pc.refs, s.book.unsaved i = false)
    (hok : S → Saves s a) (h : step s a = some s') : Changes S (cache s) (cache s') := by
  cases step_runs h with
  | bio p _ _ _ hs => exact changes_bioStep hs
  | pc p hb _ _ hs =>
    exact changes_pcStep hb (fun i hi => hlogs p i (.inr hi)) (fun hS => hsaved hS p) hs
  | call p c hb _ hpc _ hs =>
    refine changes_callStep hb hpc ?_ hs
    rintro hS i rfl
    exact hok hS
  | intr hs => exact .single (changes_ideintr hs)
  | rouse p hs =>
    have hsame : cache (setProc s p {s.proc p with asleep := false}) = cache s :=
      cache_setProc_same s p rfl rfl
    rw [hs,hsame]
  | crash hs =>
    rw [hs,cache_boot]
    exact .single .crash

section
variable {s s' : State cfg} {p : cfg.ProcId}

theorem update_key {f : cfg.BufId → Buf cfg} {j : cfg.BufId} {b : Buf cfg} (h : b.key = (f j).key)
    (i : cfg.BufId) : (update f j b i).key = (f i).key := by
  by_cases hij : i = j
  · subst hij
    simpa using h
  · simp [hij]

theorem bwrite_key (t : State cfg) (j : cfg.BufId) (q : Proc cfg) (i : cfg.BufId) :
    ((bwrite t p j q).buf i).key = (t.buf i).key := by
  rw [bwrite_eq]
  split_ifs
  · rfl
  · exact update_key (by rfl) i

theorem brelse_key (t : State cfg) (j : cfg.BufId) (q : Proc cfg) (i : cfg.BufId) :
    ((brelse t p j q).buf i).key = (t.buf i).key := by
  unfold brelse
  split_ifs
  · rfl
  · exact update_key (by rfl) i

theorem store_key (t : State cfg) (j : cfg.BufId) (v : Block) (i : cfg.BufId) :
    ((store t j v).buf i).key = (t.buf i).key := update_key (by rfl) i

theorem pcStep_key (h : pcStep s p = some s') (i : cfg.BufId) : (s'.buf i).key = (s.buf i).key := by
  unfold pcStep at h
  cases hpc : (s.proc p).pc <;> rw [hpc] at h <;> cases h
  case beginOp => unfold beginOp; split_ifs <;> rfl
  case endOp => unfold endOp; split_ifs <;> rfl
  case logWrite => unfold logWrite; split_ifs <;> rfl
  case logAppend => exact update_key (by rfl) i
  case copy => split_ifs <;> rfl
  case copyMove | writeHeadPut => rw [bwrite_key,store_key]
  case copyRelse | copyEnd | writeHeadEnd | readHeadCopy => rw [brelse_key]
  all_goals rfl

theorem callStep_key {c : Call cfg} (h : callStep s p c = some s') (i : cfg.BufId) :
    (s'.buf i).key = (s.buf i).key := by
  cases c with
  | bread =>
    cases h
    rfl
  | modify =>
    simp only [callStep] at h
    split_ifs at h
    cases h
    rw [store_key]
  | bwrite =>
    simp only [callStep] at h
    split_ifs at h
    cases h
    rw [bwrite_key]
  | brelse =>
    simp only [callStep] at h
    split_ifs at h
    cases h
    rw [brelse_key]
  | logWrite | beginOp | endOp =>
    simp only [callStep] at h
    split_ifs at h
    cases h
    rfl

theorem bioStep_key (h : bioStep s p = some s') (i : cfg.BufId) :
    (s'.buf i).key = (s.buf i).key ∨ victim s = some i := by
  unfold bioStep at h
  split at h
  · cases h
  · cases h
    unfold bget
    split
    · exact .inl (update_key (by rfl) i)
    · split
      · rename_i j hj
        by_cases hij : i = j
        · exact .inr (hij ▸ hj)
        · exact .inl (by simp [setBio,setProc,setBuf,hij])
      · exact .inl rfl
  · split_ifs at h
    cases h
    exact .inl (update_key (by rfl) i)
  · split_ifs at h <;> cases h
    · exact .inl rfl
    · left
      unfold iderw
      split_ifs <;> rfl
  · split_ifs at h
    cases h
    exact .inl rfl
  · split_ifs at h
    cases h
    exact .inl rfl
  · cases h
    left
    unfold put
    split_ifs <;> exact update_key (by rfl) i

theorem step_key {a : Label cfg} (h : step s a = some s') (ha : a ≠ .crash) (i : cfg.BufId) :
    (s'.buf i).key = (s.buf i).key ∨ victim s = some i := by
  cases step_runs h with
  | bio p _ _ _ hs => exact bioStep_key hs i
  | pc p _ _ _ hs => exact .inl (pcStep_key hs i)
  | call p c _ _ _ _ hs => exact .inl (callStep_key hs i)
  | intr hs =>
    left
    unfold ideintr at hs
    split at hs
    · cases hs
    · split_ifs at hs <;> cases hs <;> exact update_key (by rfl) i
  | rouse p hs =>
    subst hs
    exact .inl rfl
  | crash => exact absurd rfl ha

end

end Xv6.CacheStep
