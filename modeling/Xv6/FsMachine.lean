import Xv6.LinkedRing

/-!
# The buffer cache, the disk driver and the log

`bio.c`, `sleeplock.c`, the queue of `ide.c` and `log.c`, for any number of processes and buffers. A
process is in file system code, which calls the functions below in any order its own state allows,
or inside one of them: `Bio` is the place in `bio.c` and `Pc` the place in its caller.

What runs under `bcache.lock`, `idelock` or `log.lock` is one step, and so is what a process does to
a buffer it has locked before it takes one of these locks. The two unlocked tests of `log_write` are
a step of their own. Waiting for a buffer lock or for the disk is a step that cannot be taken yet;
the sleep of `begin_op` is in the state. A process that panics takes no further step.

A crash keeps the disk only, and the first process then runs `recover_from_log`. No step reads
`Book`.
-/
namespace Xv6.FsMachine
open LinkedRing
open Function (update)

def MAXOPBLOCKS : ℕ := 10

def LOGSIZE : ℕ := MAXOPBLOCKS*3

def NBUF : ℕ := MAXOPBLOCKS*3

/-- The number of processes and of buffers, and what `initlog` reads from the
superblock: `log.dev`, `log.start` and `log.size`. -/
structure Config where
  nproc : ℕ
  nbuf : ℕ
  dev : ℕ
  start : ℕ
  size : ℕ
  nproc_pos : 0 < nproc

/-- The file system that `mkfs` builds on `ROOTDEV`: `nlog = LOGSIZE` blocks of
log behind the boot block and the superblock. -/
def Config.mkfs (nproc : ℕ) (h : 0 < nproc) : Config := ⟨nproc,NBUF,1,2,LOGSIZE,h⟩

abbrev Config.BufId (cfg : Config) := Fin cfg.nbuf

abbrev Config.ProcId (cfg : Config) := Fin cfg.nproc

def Config.init (cfg : Config) : cfg.ProcId := ⟨0,cfg.nproc_pos⟩

abbrev Key := ℕ × ℕ

abbrev Block := ℕ → ℕ

def Config.head (cfg : Config) : Key := (cfg.dev,cfg.start)

def Config.slot (cfg : Config) (tail : ℕ) : Key := (cfg.dev,cfg.start+tail+1)

/-- The log area: the header and `size-1` blocks behind it. -/
def Config.InLog (cfg : Config) (blockno : ℕ) : Prop :=
  cfg.start ≤ blockno ∧ blockno < cfg.start+cfg.size

instance (cfg : Config) (blockno : ℕ) : Decidable (cfg.InLog blockno) :=
  inferInstanceAs (Decidable (_ ∧ _))

/-- `n` and `block[0..n)` of a `struct logheader`. -/
def readHeader (b : Block) : List ℕ := (List.range (b 0)).map fun i => b (i+1)

/-- The words of a block after `n` and `block[0..n)` are stored over them. -/
def writeHeader (lh : List ℕ) (b : Block) : Block := fun i =>
  if i = 0 then lh.length else if i ≤ lh.length then lh.getD (i-1) 0 else b i

/-- `struct buf` without the links; `lock` names the holder of the sleep lock. -/
structure Buf (cfg : Config) where
  key : Key
  valid : Bool
  dirty : Bool
  lock : Option cfg.ProcId
  refcnt : ℕ
  data : Block

/-- The two loops over the log, `install_trans` having two callers. -/
inductive Copy where
  | writeLog | install | recover
  deriving DecidableEq

inductive Head where
  | commit | erase | recover
  deriving DecidableEq

inductive Bio (cfg : Config) where
  | idle
  | bget (k : Key)
  | acquire (k : Key) (b : cfg.BufId)
  | check (k : Key) (b : cfg.BufId)
  | readWait (k : Key) (b : cfg.BufId)
  | writeWait (b : cfg.BufId)
  | put (b : cfg.BufId)
  deriving DecidableEq

/-- Places in `log.c`, and `user` for its callers. -/
inductive Pc (cfg : Config) where
  | user
  | beginOp
  | endOp
  | logWrite (b : cfg.BufId)
  | logAppend (b : cfg.BufId)
  | commit
  | endCommit
  -- write_log and install_trans: the loop test, `bread` of the log block, `bread`
  -- of the home block, `memmove` and `bwrite`, the two calls of `brelse`
  | copy (w : Copy) (tail : ℕ)
  | copyLog (w : Copy) (tail : ℕ)
  | copyNext (w : Copy) (tail : ℕ) (l : cfg.BufId)
  | copyHome (w : Copy) (tail : ℕ) (l : cfg.BufId)
  | copyMove (w : Copy) (tail : ℕ) (l h : cfg.BufId)
  | copyRelse (w : Copy) (tail : ℕ) (l h : cfg.BufId)
  | copyEnd (w : Copy) (tail : ℕ) (b : cfg.BufId)
  -- `log.lh.n = 0`
  | clear (recovering : Bool)
  -- write_head and read_head
  | writeHead (k : Head)
  | writeHeadRead (k : Head)
  | writeHeadPut (k : Head) (b : cfg.BufId)
  | writeHeadEnd (k : Head) (b : cfg.BufId)
  | readHead
  | readHeadRead
  | readHeadCopy (b : cfg.BufId)
  | initDone
  deriving DecidableEq

/-- A process: the buffers its file system code has locked, and the number of
the operation it is in. -/
structure Proc (cfg : Config) where
  bio : Bio cfg
  pc : Pc cfg
  held : List cfg.BufId
  op : Option ℕ
  asleep : Bool
  panicked : Option String

/-- One `log_write`: by which operation, of which block, with which data. -/
structure Entry where
  op : ℕ
  block : ℕ
  data : Block

structure Book (cfg : Config) where
  -- what a holder stored last in a block
  last : Key → Block
  -- stored in a buffer since its last `bwrite` or `log_write`
  unsaved : cfg.BufId → Bool
  -- when `refcnt` last became 0
  stamp : cfg.BufId → ℕ
  now : ℕ
  -- logged and not yet written to their home
  pinned : List ℕ
  ops : ℕ
  writes : List Entry
  -- the calls of `log_write` that belong to no commit yet, and the commits
  pend : List Entry
  commits : List (List Entry)

structure State (cfg : Config) where
  buf : cfg.BufId → Buf cfg
  ring : Links cfg.BufId
  idequeue : List cfg.BufId
  disk : Key → Block
  lh : List ℕ
  outstanding : ℕ
  committing : Bool
  proc : cfg.ProcId → Proc cfg
  up : Bool
  book : Book cfg

section
variable {cfg : Config}

/-- The buffers that the local variables of `log.c` point to. -/
def Pc.refs : Pc cfg → List cfg.BufId
  | .copyNext _ _ l | .copyHome _ _ l => [l]
  | .copyMove _ _ l h | .copyRelse _ _ l h => [l,h]
  | .copyEnd _ _ b | .writeHeadPut _ b | .writeHeadEnd _ b | .readHeadCopy b => [b]
  | _ => []

/-- `write_log` copies from the home block to the log, `install_trans` back. -/
def Copy.src (w : Copy) (l h : cfg.BufId) : cfg.BufId := if w = .writeLog then h else l

def Copy.dst (w : Copy) (l h : cfg.BufId) : cfg.BufId := if w = .writeLog then l else h

def Copy.after : Copy → Pc cfg
  | .writeLog => .writeHead .commit
  | .install => .clear false
  | .recover => .clear true

def Head.after : Head → Pc cfg
  | .commit => .copy .install 0
  | .erase => .endCommit
  | .recover => .initDone

/-- `bread` returns `b` to its caller in `log.c`. -/
def Pc.got (b : cfg.BufId) : Pc cfg → Pc cfg
  | .copyLog w tail => .copyNext w tail b
  | .copyHome w tail l => .copyMove w tail l b
  | .writeHeadRead k => .writeHeadPut k b
  | .readHeadRead => .readHeadCopy b
  | pc => pc

def Pc.keep (b : cfg.BufId) (held : List cfg.BufId) : Pc cfg → List cfg.BufId
  | .copyLog .. | .copyHome .. | .writeHeadRead .. | .readHeadRead => held
  | _ => b::held

def Proc.deliver (q : Proc cfg) (b : cfg.BufId) : Proc cfg :=
  {q with bio := .idle, pc := q.pc.got b, held := q.pc.keep b q.held}

def setProc (s : State cfg) (p : cfg.ProcId) (q : Proc cfg) : State cfg :=
  {s with proc := update s.proc p q}

def setBuf (s : State cfg) (i : cfg.BufId) (b : Buf cfg) : State cfg :=
  {s with buf := update s.buf i b}

def goto (s : State cfg) (p : cfg.ProcId) (pc : Pc cfg) : State cfg :=
  setProc s p {s.proc p with pc := pc}

def setBio (s : State cfg) (p : cfg.ProcId) (bio : Bio cfg) : State cfg :=
  setProc s p {s.proc p with bio := bio}

def panic (s : State cfg) (p : cfg.ProcId) (msg : String) : State cfg :=
  setProc s p {s.proc p with panicked := some msg}

def wakeup (s : State cfg) : State cfg :=
  {s with proc := fun p => {s.proc p with asleep := false}}

/-- Call `bread`, whose result is used at `pc`. -/
def bread (s : State cfg) (p : cfg.ProcId) (pc : Pc cfg) (k : Key) : State cfg :=
  setProc s p {s.proc p with bio := .bget k, pc := pc}

/-- The two scans of `bget`: the cached buffer, or the one to recycle. -/
def lookup (s : State cfg) (k : Key) : Option cfg.BufId :=
  scan s.ring.next (fun i => (s.buf i).key = k) cfg.nbuf (s.ring.next none)

def victim (s : State cfg) : Option cfg.BufId :=
  scan s.ring.prev (fun i => (s.buf i).refcnt = 0 ∧ (s.buf i).dirty = false) cfg.nbuf (s.ring.prev none)

def bget (s : State cfg) (p : cfg.ProcId) (k : Key) : State cfg :=
  match lookup s k with
  | some i => setBio (setBuf s i {s.buf i with refcnt := (s.buf i).refcnt+1}) p (.acquire k i)
  | none =>
    match victim s with
    | some i =>
      setBio (setBuf s i {s.buf i with key := k, valid := false, dirty := false, refcnt := 1}) p
        (.acquire k i)
    | none => panic s p "bget: no buffers"

def markDirty (s : State cfg) (i : cfg.BufId) : State cfg :=
  {setBuf s i {s.buf i with dirty := true} with
    book := {s.book with unsaved := update s.book.unsaved i false}}

/-- `iderw` up to its `sleep`. Here and below, `q` is the process as it is once
the call is under way. -/
def iderw (s : State cfg) (p : cfg.ProcId) (i : cfg.BufId) (q : Proc cfg) : State cfg :=
  if (s.buf i).lock ≠ some p then panic s p "iderw: buf not locked"
  else if (s.buf i).valid ∧ (s.buf i).dirty = false then panic s p "iderw: nothing to do"
  else setProc {s with idequeue := s.idequeue++[i]} p q

def bwrite (s : State cfg) (p : cfg.ProcId) (i : cfg.BufId) (q : Proc cfg) : State cfg :=
  if (s.buf i).lock ≠ some p then panic s p "bwrite"
  else iderw (markDirty s i) p i {q with bio := .writeWait i}

theorem bwrite_eq (s : State cfg) (p : cfg.ProcId) (i : cfg.BufId) (q : Proc cfg) :
    bwrite s p i q = if (s.buf i).lock ≠ some p then panic s p "bwrite"
      else setProc {markDirty s i with idequeue := s.idequeue++[i]} p {q with bio := .writeWait i} := by
  unfold bwrite
  split_ifs with h
  · rfl
  · have hl : ((markDirty s i).buf i).lock = (s.buf i).lock := by simp [markDirty,setBuf]
    have hd : ((markDirty s i).buf i).dirty = true := by simp [markDirty,setBuf]
    rw [iderw,hl,hd,if_neg h,if_neg (by simp)]
    rfl

/-- `brelse` with its `releasesleep`, up to `acquire(&bcache.lock)`. -/
def brelse (s : State cfg) (p : cfg.ProcId) (i : cfg.BufId) (q : Proc cfg) : State cfg :=
  if (s.buf i).lock ≠ some p then panic s p "brelse"
  else setProc (setBuf s i {s.buf i with lock := none}) p {q with bio := .put i}

theorem bwrite_proc (s : State cfg) (p : cfg.ProcId) (i : cfg.BufId) (q : Proc cfg) :
    (bwrite s p i q).proc = update s.proc p (if (s.buf i).lock ≠ some p then
      {s.proc p with panicked := some "bwrite"} else {q with bio := .writeWait i}) := by
  rw [bwrite_eq]
  split_ifs <;> rfl

theorem brelse_proc (s : State cfg) (p : cfg.ProcId) (i : cfg.BufId) (q : Proc cfg) :
    (brelse s p i q).proc = update s.proc p (if (s.buf i).lock ≠ some p then
      {s.proc p with panicked := some "brelse"} else {q with bio := .put i}) := by
  unfold brelse
  split_ifs <;> rfl

def put (s : State cfg) (p : cfg.ProcId) (i : cfg.BufId) : State cfg :=
  let s' := setBuf s i {s.buf i with refcnt := (s.buf i).refcnt-1}
  if (s.buf i).refcnt-1 = 0 then
    setBio {s' with
      ring := (s.ring.unlink i).pushHead i
      book := {s.book with
        now := s.book.now+1
        stamp := update s.book.stamp i (s.book.now+1)}} p .idle
  else setBio s' p .idle

def store (s : State cfg) (i : cfg.BufId) (v : Block) : State cfg :=
  {setBuf s i {s.buf i with data := v} with
    book := {s.book with
      last := update s.book.last (s.buf i).key v
      unsaved := update s.book.unsaved i true}}

/-- The next step of a process inside `bio.c` or `ide.c`. -/
def bioStep (s : State cfg) (p : cfg.ProcId) : Option (State cfg) :=
  match (s.proc p).bio with
  | .idle => none
  | .bget k => some (bget s p k)
  | .acquire k i =>
    if (s.buf i).lock = none then
      some (setBio (setBuf s i {s.buf i with lock := some p}) p (.check k i))
    else none
  | .check k i =>
    if (s.buf i).valid then some (setProc s p ((s.proc p).deliver i))
    else some (iderw s p i {s.proc p with bio := .readWait k i})
  | .readWait _ i =>
    if (s.buf i).valid ∧ (s.buf i).dirty = false then some (setProc s p ((s.proc p).deliver i))
    else none
  | .writeWait i =>
    if (s.buf i).valid ∧ (s.buf i).dirty = false then some (setBio s p .idle) else none
  | .put i => some (put s p i)

def beginOp (s : State cfg) (p : cfg.ProcId) : State cfg :=
  if s.committing ∨ LOGSIZE < s.lh.length+(s.outstanding+1)*MAXOPBLOCKS then
    setProc s p {s.proc p with asleep := true}
  else
    {setProc s p {s.proc p with pc := .user, op := some s.book.ops} with
      outstanding := s.outstanding+1
      book := {s.book with ops := s.book.ops+1}}

def endOp (s : State cfg) (p : cfg.ProcId) : State cfg :=
  if s.committing then {panic s p "log.committing" with outstanding := s.outstanding-1}
  else if s.outstanding-1 = 0 then
    {setProc s p {s.proc p with pc := .commit, op := none} with
      outstanding := s.outstanding-1
      committing := true}
  else
    wakeup {setProc s p {s.proc p with pc := .user, op := none} with
      outstanding := s.outstanding-1}

def logWrite (s : State cfg) (p : cfg.ProcId) (i : cfg.BufId) : State cfg :=
  if LOGSIZE ≤ s.lh.length ∨ cfg.size-1 ≤ s.lh.length then panic s p "too big a transaction"
  else if s.outstanding < 1 then panic s p "log_write outside of trans"
  else goto s p (.logAppend i)

def absorb (l : List ℕ) (blockno : ℕ) : List ℕ := if blockno ∈ l then l else l++[blockno]

/-- What an operation that calls `log_write` on the buffer adds to the history. -/
def entries (s : State cfg) (p : cfg.ProcId) (i : cfg.BufId) : List Entry :=
  (s.proc p).op.toList.map fun o => ⟨o,(s.buf i).key.2,(s.buf i).data⟩

def logAppend (s : State cfg) (p : cfg.ProcId) (i : cfg.BufId) : State cfg :=
  let s' := goto (markDirty s i) p .user
  {s' with
    lh := absorb s.lh (s.buf i).key.2
    book := {s'.book with
      pinned := absorb s.book.pinned (s.buf i).key.2
      writes := s.book.writes++entries s p i
      pend := s.book.pend++entries s p i}}

def pcStep (s : State cfg) (p : cfg.ProcId) : Option (State cfg) :=
  match (s.proc p).pc with
  | .beginOp => some (beginOp s p)
  | .endOp => some (endOp s p)
  | .logWrite i => some (logWrite s p i)
  | .logAppend i => some (logAppend s p i)
  | .commit => some (goto s p (if 0 < s.lh.length then .copy .writeLog 0 else .endCommit))
  | .endCommit => some (wakeup {goto s p .user with committing := false})
  | .copy w tail =>
    some (if tail < s.lh.length then bread s p (.copyLog w tail) (cfg.slot tail)
      else goto s p w.after)
  | .copyNext w tail l => some (bread s p (.copyHome w tail l) (cfg.dev,s.lh.getD tail 0))
  | .copyMove w tail l h =>
    some (bwrite (store s (w.dst l h) (s.buf (w.src l h)).data) p (w.dst l h)
      {s.proc p with pc := .copyRelse w tail l h})
  | .copyRelse w tail l h =>
    some (brelse s p (w.src l h) {s.proc p with pc := .copyEnd w tail (w.dst l h)})
  | .copyEnd w tail b => some (brelse s p b {s.proc p with pc := .copy w (tail+1)})
  | .clear r => some {goto s p (.writeHead (if r then .recover else .erase)) with lh := []}
  | .writeHead k => some (bread s p (.writeHeadRead k) cfg.head)
  | .writeHeadPut k b =>
    some (bwrite (store s b (writeHeader s.lh (s.buf b).data)) p b
      {s.proc p with pc := .writeHeadEnd k b})
  | .writeHeadEnd k b => some (brelse s p b {s.proc p with pc := k.after})
  | .readHead => some (bread s p .readHeadRead cfg.head)
  | .readHeadCopy b =>
    some (brelse {s with lh := readHeader (s.buf b).data} p b {s.proc p with pc := .copy .recover 0})
  | .initDone => some {goto s p .user with up := true}
  | .user | .copyLog .. | .copyHome .. | .writeHeadRead .. | .readHeadRead => none

/-- What file system code can do: call a function of the kernel, or store into a
buffer it holds. -/
inductive Call (cfg : Config) where
  | bread (k : Key)
  | modify (b : cfg.BufId) (v : Block)
  | bwrite (b : cfg.BufId)
  | logWrite (b : cfg.BufId)
  | brelse (b : cfg.BufId)
  | beginOp
  | endOp

def callStep (s : State cfg) (p : cfg.ProcId) : Call cfg → Option (State cfg)
  | .bread k => some (bread s p .user k)
  | .modify i v => if i ∈ (s.proc p).held then some (store s i v) else none
  | .bwrite i => if i ∈ (s.proc p).held then some (bwrite s p i (s.proc p)) else none
  | .logWrite i =>
    if i ∈ (s.proc p).held ∧ (s.proc p).op.isSome then some (goto s p (.logWrite i)) else none
  | .brelse i =>
    if i ∈ (s.proc p).held then
      some (brelse s p i {s.proc p with held := (s.proc p).held.erase i})
    else none
  | .beginOp => if (s.proc p).op.isNone then some (goto s p .beginOp) else none
  | .endOp => if (s.proc p).op.isSome then some (goto s p .endOp) else none

/-- The history when a block has been written. The write of a header with
`n > 0` is the commit of the pending calls. -/
def Book.written (bk : Book cfg) (k : Key) (v : Block) : Book cfg :=
  if k = cfg.head then
    if readHeader v = [] then bk else {bk with commits := bk.commits++[bk.pend], pend := []}
  else if k.1 = cfg.dev then {bk with pinned := bk.pinned.erase k.2} else bk

def ideintr (s : State cfg) : Option (State cfg) :=
  match s.idequeue with
  | [] => none
  | i::q =>
    if (s.buf i).dirty then
      some {setBuf s i {s.buf i with valid := true, dirty := false} with
        idequeue := q
        disk := update s.disk (s.buf i).key (s.buf i).data
        book := s.book.written (s.buf i).key (s.buf i).data}
    else
      some {setBuf s i {s.buf i with valid := true, data := s.disk (s.buf i).key} with idequeue := q}

/-- `binit`, and the first process about to recover the log. -/
def boot (disk : Key → Block) (bk : Book cfg) : State cfg where
  buf _ := ⟨(0,0),false,false,none,0,fun _ => 0⟩
  ring := (List.finRange cfg.nbuf).foldl Links.pushHead .empty
  idequeue := []
  disk := disk
  lh := []
  outstanding := 0
  committing := false
  proc p := ⟨.idle,if p = cfg.init then .readHead else .user,[],none,false,none⟩
  up := false
  book := {bk with
    last := disk
    unsaved := fun _ => false
    stamp := fun _ => 0
    now := 0
    pinned := []
    pend := []}

def Book.blank (disk : Key → Block) : Book cfg :=
  ⟨disk,fun _ => false,fun _ => 0,0,[],0,[],[],[]⟩

def start (cfg : Config) (disk : Key → Block) : State cfg := boot disk (.blank disk)

inductive Label (cfg : Config) where
  | go (p : cfg.ProcId)
  | call (p : cfg.ProcId) (c : Call cfg)
  | intr
  | rouse (p : cfg.ProcId)
  | crash

def step (s : State cfg) : Label cfg → Option (State cfg)
  | .go p =>
    if (s.proc p).panicked.isSome ∨ (s.proc p).asleep then none
    else
      match (s.proc p).bio with
      | .idle => pcStep s p
      | _ => bioStep s p
  | .call p c =>
    if s.up ∧ (s.proc p).panicked = none then
      match (s.proc p).bio,(s.proc p).pc with
      | .idle,.user => callStep s p c
      | _,_ => none
    else none
  | .intr => ideintr s
  | .rouse p => some (setProc s p {s.proc p with asleep := false})
  | .crash => some (boot s.disk s.book)

/-- Nothing of the log, the disk and the contents of blocks changes. -/
structure SameLog (s s' : State cfg) : Prop where
  lh : s'.lh = s.lh
  outstanding : s'.outstanding = s.outstanding
  committing : s'.committing = s.committing
  up : s'.up = s.up
  disk : s'.disk = s.disk
  last : s'.book.last = s.book.last
  unsaved : s'.book.unsaved = s.book.unsaved
  pinned : s'.book.pinned = s.book.pinned
  ops : s'.book.ops = s.book.ops
  writes : s'.book.writes = s.book.writes
  pend : s'.book.pend = s.book.pend
  commits : s'.book.commits = s.book.commits

/-- The messages of the panics in `bio.c` and `ide.c`. -/
def bioPanics : List String :=
  ["bget: no buffers","iderw: buf not locked","iderw: nothing to do","bwrite","brelse"]

/-- How a process goes on inside `bio.c`: it may return a buffer to its caller. -/
inductive InBio (q : Proc cfg) : Proc cfg → Prop
  | move (bio : Bio cfg) : InBio q {q with bio := bio}
  | panic (msg : String) : msg ∈ bioPanics → InBio q {q with panicked := some msg}
  | deliver (i : cfg.BufId) (k : Key) : q.bio = .check k i ∨ q.bio = .readWait k i →
      InBio q (q.deliver i)

theorem bioStep_frame {s s' : State cfg} {p : cfg.ProcId} (h : bioStep s p = some s') :
    SameLog s s' ∧ ∃ q, InBio (s.proc p) q ∧ s'.proc = update s.proc p q := by
  unfold bioStep at h
  split at h
  · cases h
  · cases h
    unfold bget
    split
    · exact ⟨by constructor <;> rfl,_,.move _,rfl⟩
    · split
      · exact ⟨by constructor <;> rfl,_,.move _,rfl⟩
      · exact ⟨by constructor <;> rfl,_,.panic _ (by decide),rfl⟩
  · split_ifs at h
    cases h
    exact ⟨by constructor <;> rfl,_,.move _,rfl⟩
  · rename_i k i hb
    split_ifs at h <;> cases h
    · exact ⟨by constructor <;> rfl,_,.deliver i k (.inl hb),rfl⟩
    · unfold iderw
      split_ifs
      · exact ⟨by constructor <;> rfl,_,.panic _ (by decide),rfl⟩
      · exact ⟨by constructor <;> rfl,_,.panic _ (by decide),rfl⟩
      · exact ⟨by constructor <;> rfl,_,.move _,rfl⟩
  · rename_i k i hb
    split_ifs at h
    cases h
    exact ⟨by constructor <;> rfl,_,.deliver i k (.inr hb),rfl⟩
  · split_ifs at h
    cases h
    exact ⟨by constructor <;> rfl,_,.move _,rfl⟩
  · cases h
    unfold put
    split_ifs
    · exact ⟨by constructor <;> rfl,_,.move _,rfl⟩
    · exact ⟨by constructor <;> rfl,_,.move _,rfl⟩

inductive Runs (s s' : State cfg) : Label cfg → Prop
  | bio (p : cfg.ProcId) : (s.proc p).bio ≠ .idle → (s.proc p).panicked = none →
      (s.proc p).asleep = false → bioStep s p = some s' → Runs s s' (.go p)
  | pc (p : cfg.ProcId) : (s.proc p).bio = .idle → (s.proc p).panicked = none →
      (s.proc p).asleep = false → pcStep s p = some s' → Runs s s' (.go p)
  | call (p : cfg.ProcId) (c : Call cfg) : (s.proc p).bio = .idle → (s.proc p).panicked = none →
      (s.proc p).pc = .user → s.up = true → callStep s p c = some s' → Runs s s' (.call p c)
  | intr : ideintr s = some s' → Runs s s' .intr
  | rouse (p : cfg.ProcId) : s' = setProc s p {s.proc p with asleep := false} → Runs s s' (.rouse p)
  | crash : s' = boot s.disk s.book → Runs s s' .crash

theorem step_runs {s s' : State cfg} {a : Label cfg} (h : step s a = some s') : Runs s s' a := by
  cases a with
  | go p =>
    simp only [step] at h
    split_ifs at h with hp
    have hpan : (s.proc p).panicked = none := by
      cases hq : (s.proc p).panicked <;> simp [hq] at hp ⊢
    have hslp : (s.proc p).asleep = false := by
      cases hq : (s.proc p).asleep <;> simp [hq] at hp ⊢
    cases hb : (s.proc p).bio with
    | idle =>
      rw [hb] at h
      exact .pc p hb hpan hslp h
    | _ =>
      rw [hb] at h
      exact .bio p (by simp [hb]) hpan hslp h
  | call p c =>
    simp only [step] at h
    split_ifs at h with hp
    split at h
    · rename_i hb hpc
      exact .call p c hb hp.2 hpc hp.1 h
    · cases h
  | intr => exact .intr h
  | rouse p => exact .rouse p (Option.some.inj h).symm
  | crash => exact .crash (Option.some.inj h).symm

/-- The labels of a boot on a disk with an empty log, and of a `bread` that misses. -/
def bootRun (cfg : Config) : List (Label cfg) :=
  let go := Label.go cfg.init
  [go,go,go,go,.intr,go,go,go,go,go,go,go,go,go,go,.intr,go,go,go,go]

def missRun (p : cfg.ProcId) (k : Key) : List (Label cfg) :=
  [.call p (.bread k),.go p,.go p,.go p,.intr,.go p]

def blankDisk : Key → Block := fun _ _ => 0

end
end Xv6.FsMachine
