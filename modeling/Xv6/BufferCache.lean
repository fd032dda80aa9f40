import Xv6.CacheStep
import Xv6.Tally

/-!
# The structure of the buffer cache

`refcnt` counts the processes that use a buffer and the sleep lock names the one that has it. From
these two accounts follows what the code relies on without a check: a buffer in use is not recycled,
and the data and flags of a locked buffer are its holder's.
-/
namespace Xv6.BufferCache
open LinkedRing CacheStep Tally List
open FsMachine hiding setBuf
open CacheStep.Cache (setBuf turn)
open Function (update update_of_ne update_self)

variable {cfg : Config}

/-- The buffer a call of `bio.c` has counted itself in. -/
def counted : Bio cfg → List cfg.BufId
  | .acquire _ i | .check _ i | .readWait _ i | .put i => [i]
  | _ => []

/-- The buffer a call of `bread` has locked for its caller. -/
def locking : Bio cfg → List cfg.BufId
  | .check _ i | .readWait _ i => [i]
  | _ => []

def waits : Bio cfg → Option cfg.BufId
  | .readWait _ i | .writeWait i => some i
  | _ => none

/-- The key that `bread` was called with and the buffer found for it. -/
def target : Bio cfg → Option (Key × cfg.BufId)
  | .acquire k i | .check k i | .readWait k i => some (k,i)
  | _ => none

def uses (c : Cache cfg) (p : cfg.ProcId) : List cfg.BufId := counted (c.bio p)++c.mine p

def owns (c : Cache cfg) (p : cfg.ProcId) : List cfg.BufId := locking (c.bio p)++c.mine p

def Active (b : Buf cfg) : Prop := b.refcnt ≠ 0 ∨ b.valid = true ∨ b.dirty = true

structure Ordered (c : Cache cfg) (l : List cfg.BufId) : Prop where
  holds : Holds c.ring l
  all : ∀ i, i ∈ l
  first : l.Pairwise fun i j => (c.buf i).key = (c.buf j).key → ¬Active (c.buf j)
  recent : l.Pairwise fun i j => c.stamp j ≠ 0 → c.stamp j < c.stamp i

structure Inv (c : Cache cfg) : Prop where
  refcnt : ∀ i, (c.buf i).refcnt = ∑ p, (uses c p).count i
  lock : ∀ p i, (owns c p).count i = if (c.buf i).lock = some p then 1 else 0
  key : ∀ p k i, target (c.bio p) = some (k,i) → (c.buf i).key = k
  valid : ∀ p, ∀ i ∈ c.mine p, (c.buf i).valid = true
  clean : ∀ i, (c.buf i).valid = false → (c.buf i).dirty = false
  queue : c.idequeue.Nodup
  waiter : ∀ i ∈ c.idequeue, ∃ p, waits (c.bio p) = some i
  reading : ∀ p k i, c.bio p = .readWait k i →
    (c.buf i).dirty = false ∧ (i ∈ c.idequeue ↔ (c.buf i).valid = false)
  writing : ∀ p i, c.bio p = .writeWait i → i ∈ c.mine p ∧ (i ∈ c.idequeue ↔ (c.buf i).dirty = true)
  order : ∃ l, Ordered c l
  stamp : ∀ i, c.stamp i ≤ c.now
  released : ∀ p i, c.bio p = .put i → (c.buf i).valid = true
  named : ∀ i, Active (c.buf i) ∨ (c.buf i).key = (0,0)

section
variable {S : Prop} {c c' : Cache cfg} {p q : cfg.ProcId} {i j : cfg.BufId}

theorem owns_subset_uses (h : i ∈ owns c p) : i ∈ uses c p := by
  unfold owns uses at *
  cases hb : c.bio p <;> simp_all [locking,counted]

theorem mem_owns (h : i ∈ c.mine p) : i ∈ owns c p := by simp [owns,h]

theorem mem_uses (h : i ∈ c.mine p) : i ∈ uses c p := by simp [uses,h]

theorem ordered_fresh (disk : Key → Block) : ∃ l, Ordered (fresh cfg disk) l := by
  have hh : Holds (fresh cfg disk).ring ((finRange cfg.nbuf).reverse++[]) :=
    holds_empty.foldl_pushHead (nodup_finRange _) (by simp)
  refine ⟨_,hh,by simp,pairwise_of_forall ?_,pairwise_of_forall ?_⟩
  · intro i j _ ha
    simp [fresh,Active] at ha
  · exact fun i j hs => absurd rfl hs

namespace Inv

theorem start (disk : Key → Block) : Inv (fresh cfg disk) where
  refcnt _ := by simp [fresh,uses,counted]
  lock _ _ := by simp [fresh,owns,locking]
  key _ _ _ h := by simp [fresh,target] at h
  valid _ _ h := by simp [fresh] at h
  clean _ _ := rfl
  queue := nodup_nil
  waiter _ h := by simp [fresh] at h
  reading _ _ _ h := by simp [fresh] at h
  writing _ _ h := by simp [fresh] at h
  order := ordered_fresh disk
  stamp _ := by simp [fresh]
  released _ _ h := by simp [fresh] at h
  named _ := .inr rfl

theorem refcnt_pos (h : Inv c) (hi : i ∈ uses c p) : 0 < (c.buf i).refcnt := by
  rw [h.refcnt i]
  have hle : (uses c p).count i ≤ _ := le_sum (fun p => (uses c p).count i) p
  have hpos := count_pos_iff.mpr hi
  omega

theorem lock_of_owns (h : Inv c) (hi : i ∈ owns c p) : (c.buf i).lock = some p := by
  have hl := h.lock p i
  have := count_pos_iff.mpr hi
  by_contra hne
  rw [if_neg hne] at hl
  omega

theorem owns_of_lock (h : Inv c) (hl : (c.buf i).lock = some p) : i ∈ owns c p := by
  have hc := h.lock p i
  rw [if_pos hl] at hc
  exact count_pos_iff.mp (by omega)

theorem owner (h : Inv c) (hp : i ∈ owns c p) (hq : i ∈ owns c q) : p = q :=
  Option.some.inj ((h.lock_of_owns hp).symm.trans (h.lock_of_owns hq))

theorem owns_of_waits (h : Inv c) (hw : waits (c.bio p) = some i) : i ∈ owns c p := by
  cases hb : c.bio p with
  | readWait =>
    simp only [hb,waits,Option.some.injEq] at hw
    simp [owns,hb,locking,hw]
  | writeWait j =>
    simp only [hb,waits,Option.some.injEq] at hw
    exact mem_owns (hw ▸ (h.writing p j hb).1)
  | _ => simp [hb,waits] at hw

theorem not_queued (h : Inv c) (hi : i ∈ owns c p) (hw : waits (c.bio p) ≠ some i) : i ∉ c.idequeue := by
  intro hq
  obtain ⟨q,hq⟩ := h.waiter i hq
  cases h.owner hi (h.owns_of_waits hq)
  exact hw hq

theorem unique (h : Inv c) (hi : Active (c.buf i)) (hj : Active (c.buf j))
    (hk : (c.buf i).key = (c.buf j).key) : i = j := by
  obtain ⟨l,hl⟩ := h.order
  by_contra hne
  have hsym : Std.Symm fun i j => (c.buf i).key = (c.buf j).key →
      ¬(Active (c.buf i) ∧ Active (c.buf j)) := ⟨fun i j h hk hb => h hk.symm hb.symm⟩
  have hpair := hl.first.imp (S := fun i j => (c.buf i).key = (c.buf j).key →
    ¬(Active (c.buf i) ∧ Active (c.buf j))) fun hf hk hb => hf hk hb.2
  exact hpair.forall (hl.all i) (hl.all j) hne hk ⟨hi,hj⟩

theorem refcnt_turn (h : Inv c) {b : Bio cfg} {m : List cfg.BufId}
    (hbio : c'.bio = update c.bio p b) (hmine : c'.mine = update c.mine p m)
    (hp : ∀ j, (c'.buf j).refcnt+(counted (c.bio p)++c.mine p).count j
      = (c.buf j).refcnt+(counted b++m).count j) (i : cfg.BufId) :
    (c'.buf i).refcnt = ∑ q, (uses c' q).count i := by
  have hself : uses c' p = counted b++m := by simp [uses,hbio,hmine]
  have hother : ∀ q, q ≠ p → uses c' q = uses c q := fun q hq => by simp [uses,hbio,hmine,hq]
  have hsum : (∑ q, (uses c' q).count i)+(uses c p).count i = _+(uses c' p).count i :=
    sum_change p fun q hq => congrArg (List.count i) (hother q hq)
  have hold := h.refcnt i
  have hnew := hp i
  rw [hself] at hsum
  unfold uses at *
  omega

theorem refcnt_same (h : Inv c) (hbio : c'.bio = c.bio) (hmine : c'.mine = c.mine)
    (hb : ∀ j, (c'.buf j).refcnt = (c.buf j).refcnt) (i : cfg.BufId) :
    (c'.buf i).refcnt = ∑ q, (uses c' q).count i := by
  rw [hb,h.refcnt i]
  simp only [uses,hbio,hmine]

theorem victim_free {k : cfg.BufId} (hv : scan c.ring.prev
      (fun i => (c.buf i).refcnt = 0 ∧ (c.buf i).dirty = false) cfg.nbuf (c.ring.prev none) = some k)
    (h : Inv c) : (c.buf k).refcnt = 0 ∧ (c.buf k).dirty = false := by
  obtain ⟨l,hl⟩ := h.order
  have hlen : l.length ≤ cfg.nbuf := by simpa using hl.holds.nodup.length_le_card
  rw [hl.holds.scan_prev hlen] at hv
  simpa using find?_some hv

theorem refcnt_step (h : Inv c) (hc : Change S c c') (i : cfg.BufId) :
    (c'.buf i).refcnt = ∑ q, (uses c' q).count i := by
  cases hc with
  | bread p k hb | request p k b hb | wrote p b hb =>
    exact h.refcnt_turn rfl rfl (fun j => by simp [turn,hb,counted]) i
  | hit p k b hb | put p b hb =>
    refine h.refcnt_turn rfl rfl (fun j => ?_) i
    rcases eq_or_ne b j with rfl | hj
    · simp [setBuf,hb,counted]
      omega
    · simp [setBuf,turn,hb,counted,hj,hj.symm]
  | recycle p k b hb hl hv =>
    have hfree := h.victim_free hv
    refine h.refcnt_turn rfl rfl (fun j => ?_) i
    rcases eq_or_ne b j with rfl | hj
    · simp [setBuf,hb,counted,hfree]
      omega
    · simp [setBuf,turn,hb,counted,hj,hj.symm]
  | lock p k b hb | bwrite p b hb =>
    refine h.refcnt_turn rfl rfl (fun j => ?_) i
    by_cases hj : j = b <;> simp [turn,setBuf,hb,counted,hj]
  | given p k b l hb hv hm =>
    refine h.refcnt_turn rfl rfl (fun j => ?_) i
    rcases hb with hb | hb <;> simp [turn,hb,counted,hm.count_eq]
  | store p b | logged p b | write b | read b =>
    exact h.refcnt_same (by rfl) (by rfl) (fun j => by by_cases hj : j = b <;> simp [setBuf,hj]) i
  | brelse p b l hb hs hm =>
    refine h.refcnt_turn rfl rfl (fun j => ?_) i
    by_cases hj : j = b <;> simp [turn,setBuf,hb,counted,hm.count_eq,hj]
  | putLast p b hb =>
    have hpos := h.refcnt_pos (p := p) (i := b) (by simp [uses,hb,counted])
    refine h.refcnt_turn rfl rfl (fun j => ?_) i
    rcases eq_or_ne b j with rfl | hj
    · simp [setBuf,hb,counted]
      omega
    · simp [setBuf,turn,hb,counted,hj,hj.symm]
  | crash => simp [fresh,uses,counted]

theorem lock_turn (h : Inv c) {b : Bio cfg} {m : List cfg.BufId}
    (hbio : c'.bio = update c.bio p b) (hmine : c'.mine = update c.mine p m)
    (hother : ∀ q, q ≠ p → ∀ j, (c'.buf j).lock = some q ↔ (c.buf j).lock = some q)
    (hp : ∀ j, (locking (c.bio p)++c.mine p).count j = (if (c.buf j).lock = some p then 1 else 0) →
      (locking b++m).count j = if (c'.buf j).lock = some p then 1 else 0)
    (q : cfg.ProcId) (i : cfg.BufId) :
    (owns c' q).count i = if (c'.buf i).lock = some q then 1 else 0 := by
  rcases eq_or_ne q p with rfl | hq
  · have hself : owns c' q = locking b++m := by simp [owns,hbio,hmine]
    rw [hself]
    exact hp i (h.lock q i)
  · have hsame : owns c' q = owns c q := by simp [owns,hbio,hmine,hq]
    rw [hsame,h.lock q i]
    simp only [hother q hq i]

theorem lock_same (h : Inv c) (hbio : c'.bio = c.bio) (hmine : c'.mine = c.mine)
    (hb : ∀ j, (c'.buf j).lock = (c.buf j).lock) (q : cfg.ProcId) (i : cfg.BufId) :
    (owns c' q).count i = if (c'.buf i).lock = some q then 1 else 0 := by
  rw [hb,← h.lock q i]
  simp only [owns,hbio,hmine]

theorem lock_step (h : Inv c) (hc : Change S c c') (q : cfg.ProcId) (i : cfg.BufId) :
    (owns c' q).count i = if (c'.buf i).lock = some q then 1 else 0 := by
  cases hc with
  | bread p k hb | request p k b hb | wrote p b hb =>
    exact h.lock_turn rfl rfl (fun _ _ _ => by rfl) (fun j => by simp [turn,hb,locking]) q i
  | hit p k b hb | recycle p k b hb | bwrite p b hb | put p b hb
  | putLast p b hb =>
    refine h.lock_turn rfl rfl (fun q hq j => ?_) (fun j => ?_) q i
    all_goals by_cases hj : j = b <;> simp [setBuf,turn,hb,locking,hj]
  | lock p k b hb hl =>
    refine h.lock_turn rfl rfl (fun q hq j => ?_) (fun j => ?_) q i
    · by_cases hj : j = b <;> simp [setBuf,turn,hj,hl,hq.symm]
    · by_cases hj : j = b
      · subst hj
        simp [setBuf,hb,locking,hl]
      · simp [setBuf,turn,hb,locking,hj,Ne.symm hj]
  | given p k b l hb hv hm =>
    refine h.lock_turn rfl rfl (fun _ _ _ => by rfl) (fun j hj => ?_) q i
    have hcount : (locking .idle++l).count j = (locking (c.bio p)++c.mine p).count j := by
      rcases hb with hb | hb <;> simp [hb,locking,hm.count_eq]
    exact hcount.trans hj
  | store p b | logged p b | write b | read b =>
    exact h.lock_same (by rfl) (by rfl) (fun j => by by_cases hj : j = b <;> simp [setBuf,hj]) q i
  | brelse p b l hb hs hm =>
    have hown : (c.buf b).lock = some p := h.lock_of_owns (mem_owns (hm.mem_iff.mpr (by simp)))
    refine h.lock_turn rfl rfl (fun q hq j => ?_) (fun j => ?_) q i
    · by_cases hj : j = b <;> simp [setBuf,turn,hj,hown,hq.symm]
    · by_cases hj : j = b
      · subst hj
        simp [setBuf,hb,locking,hm.count_eq,hown]
      · simp [setBuf,turn,hb,locking,hm.count_eq,hj,Ne.symm hj]
  | crash => simp [fresh,owns,locking]

theorem hit_first (h : Inv c) {k : Key}
    (hl : scan c.ring.next (fun i => (c.buf i).key = k) cfg.nbuf (c.ring.next none) = some i) :
    (c.buf i).key = k ∧ ∃ l₁ l₂, Ordered c (l₁++i::l₂) ∧ ∀ j ∈ l₁, (c.buf j).key ≠ k := by
  obtain ⟨l,ho⟩ := h.order
  have hlen : l.length ≤ cfg.nbuf := by simpa using ho.holds.nodup.length_le_card
  rw [ho.holds.scan_next hlen,find?_eq_some_iff_append] at hl
  obtain ⟨hk,l₁,l₂,rfl,hl₁⟩ := hl
  exact ⟨by simpa using hk,l₁,l₂,ho,fun j hj => by simpa using hl₁ j hj⟩

theorem miss_all (h : Inv c) {k : Key}
    (hl : scan c.ring.next (fun i => (c.buf i).key = k) cfg.nbuf (c.ring.next none) = none)
    (j : cfg.BufId) : (c.buf j).key ≠ k := by
  obtain ⟨l,ho⟩ := h.order
  have hlen : l.length ≤ cfg.nbuf := by simpa using ho.holds.nodup.length_le_card
  rw [ho.holds.scan_next hlen,find?_eq_none] at hl
  simpa using hl j (ho.all j)

theorem used_keep (h : Inv c) (hc : Change S c c') (hi : 0 < (c.buf i).refcnt) : c' = fresh cfg c.disk ∨
      (c'.buf i).key = (c.buf i).key ∧ ((c.buf i).valid = true → (c'.buf i).valid = true) := by
  cases hc with
  | recycle p k b hb hl hv =>
    have hfree := h.victim_free hv
    have hib : i ≠ b := by
      rintro rfl
      omega
    exact .inr (by simp [setBuf,turn,hib])
  | crash => exact .inl rfl
  | hit p k b | lock p k b | store p b | bwrite p b | logged p b | brelse p b | put p b
  | putLast p b | write b | read b =>
    right
    by_cases hib : i = b <;> simp +contextual [setBuf,turn,hib]
  | _ => exact .inr ⟨rfl,id⟩

theorem waiting_keep (h : Inv c) (hc : Change S c c') (hi : i ∈ owns c q) (hbio : c'.bio q = c.bio q)
    (hq : c.bio q ≠ .idle) : c' = fresh cfg c.disk ∨
      ((c'.buf i).key = (c.buf i).key ∧ (c'.buf i).valid = (c.buf i).valid ∧
        (c'.buf i).dirty = (c.buf i).dirty ∧ (c'.buf i).data = (c.buf i).data ∧
        (i ∈ c'.idequeue ↔ i ∈ c.idequeue)) ∨
      ∃ r, c.idequeue = i::r ∧ c'.idequeue = r ∧ (c'.buf i).key = (c.buf i).key ∧
        (c'.buf i).valid = true ∧ (c'.buf i).dirty = false := by
  -- a holder that is not waiting is someone else, so the buffer is another one
  have hne : ∀ p b, c.bio p = .idle → b ∈ c.mine p → i ≠ b := by
    rintro p _ hb hm rfl
    cases h.owner hi (mem_owns hm)
    exact hq hb
  cases hc with
  | recycle p k b hb hl hv =>
    have hpos := h.refcnt_pos (owns_subset_uses hi)
    have hfree := h.victim_free hv
    have hib : i ≠ b := by
      rintro rfl
      omega
    exact .inr (.inl (by simp [setBuf,turn,hib]))
  | request p k b hb =>
    have hib : i ≠ b := by
      rintro rfl
      cases h.owner hi (show i ∈ owns c p by simp [owns,hb,locking])
      simp [turn,hb] at hbio
    exact .inr (.inl (by simp [turn,hib]))
  | store p b v hb hm | logged p b hb hm => exact .inr (.inl (by simp [setBuf,hne p b hb hm]))
  | bwrite p b hb hm =>
    exact .inr (.inl (by simp [setBuf,turn,hne p b hb hm]))
  | write b r hr hd | read b r hr hd =>
    right
    by_cases hib : i = b
    · subst hib
      exact .inr ⟨r,hr,rfl,by simp [setBuf],by simp [setBuf],by simp [setBuf,hd]⟩
    · exact .inl (by simp [setBuf,hib,hr])
  | crash => exact .inl rfl
  | hit p k b | lock p k b | brelse p b | put p b | putLast p b =>
    right
    left
    by_cases hib : i = b <;> simp [setBuf,turn,hib]
  | _ => exact .inr (.inl ⟨rfl,rfl,rfl,rfl,Iff.rfl⟩)

theorem mem_uses_of_target {k : Key} (ht : target (c.bio q) = some (k,i)) : i ∈ uses c q := by
  cases hb : c.bio q <;> simp_all [target,uses,counted]

theorem target_new (h : Inv c) (hc : Change S c c') {k : Key} (ht : target (c'.bio q) = some (k,i)) :
    target (c.bio q) = some (k,i) ∨ (c'.buf i).key = k := by
  cases hc with
  | hit p k' b hb hl =>
    rcases eq_or_ne q p with rfl | hq
    · simp only [setBuf,turn,update_self,target,Option.some.injEq, Prod.mk.injEq] at ht
      obtain ⟨rfl,rfl⟩ := ht
      exact .inr (by simpa [setBuf] using (h.hit_first hl).1)
    · exact .inl (by simpa [setBuf,turn,hq] using ht)
  | recycle p =>
    rcases eq_or_ne q p with rfl | hq
    · simp only [setBuf,turn,update_self,target,Option.some.injEq, Prod.mk.injEq] at ht
      obtain ⟨rfl,rfl⟩ := ht
      exact .inr (by simp [setBuf])
    · exact .inl (by simpa [setBuf,turn,hq] using ht)
  | lock p _ _ hb | request p _ _ hb =>
    rcases eq_or_ne q p with rfl | hq
    · exact .inl (by simpa [setBuf,turn,target,hb] using ht)
    · exact .inl (by simpa [setBuf,turn,hq] using ht)
  | bread p | given p | bwrite p | wrote p | brelse p | put p | putLast p =>
    rcases eq_or_ne q p with rfl | hq
    · simp [setBuf,turn,target] at ht
    · exact .inl (by simpa [setBuf,turn,hq] using ht)
  | crash => simp [fresh,target] at ht
  | _ => exact .inl ht

theorem key_step (h : Inv c) (hc : Change S c c') (q : cfg.ProcId) (k : Key) (i : cfg.BufId)
    (ht : target (c'.bio q) = some (k,i)) : (c'.buf i).key = k := by
  rcases h.target_new hc ht with hold | hk
  · rcases h.used_keep hc (h.refcnt_pos (mem_uses_of_target hold)) with rfl | hkeep
    · simp [fresh,target] at ht
    · exact hkeep.1.trans (h.key q k i hold)
  · exact hk

theorem mine_new (hc : Change S c c') (hm : i ∈ c'.mine q) : i ∈ c.mine q ∨ (c'.buf i).valid = true := by
  cases hc with
  | given p k b l hb hv hp =>
    rcases eq_or_ne q p with rfl | hq
    · have hm : i ∈ l := by simpa [turn] using hm
      rcases mem_cons.mp (hp.mem_iff.mp hm) with rfl | hm
      · exact .inr hv
      · exact .inl hm
    · exact .inl (by simpa [turn,hq] using hm)
  | brelse p b l hb hs hp =>
    rcases eq_or_ne q p with rfl | hq
    · have hm : i ∈ l := by simpa [setBuf,turn] using hm
      exact .inl (hp.mem_iff.mpr (mem_cons_of_mem b hm))
    · exact .inl (by simpa [setBuf,turn,hq] using hm)
  | crash => simp [fresh] at hm
  | store | logged | write | read => exact .inl hm
  | _ => exact .inl (by simpa [setBuf,turn] using hm)

theorem valid_step (h : Inv c) (hc : Change S c c') (q : cfg.ProcId) (i : cfg.BufId)
    (hm : i ∈ c'.mine q) : (c'.buf i).valid = true := by
  rcases mine_new hc hm with hold | hv
  · rcases h.used_keep hc (h.refcnt_pos (mem_uses hold)) with rfl | hkeep
    · simp [fresh] at hm
    · exact hkeep.2 (h.valid q i hold)
  · exact hv

theorem clean_step (h : Inv c) (hc : Change S c c') (i : cfg.BufId)
    (hv : (c'.buf i).valid = false) : (c'.buf i).dirty = false := by
  cases hc with
  | bwrite p b hb hm | logged p b hb hm =>
    have hvb := h.valid p b hm
    by_cases hib : i = b
    · subst hib
      simp [setBuf,hvb] at hv
    · simp only [setBuf,turn,update_of_ne hib] at hv ⊢
      exact h.clean i hv
  | hit p k b | lock p k b | store p b | brelse p b | put p b | putLast p b =>
    by_cases hib : i = b
    · subst hib
      simp only [setBuf,update_self] at hv ⊢
      exact h.clean i hv
    · simp only [setBuf,turn,update_of_ne hib] at hv ⊢
      exact h.clean i hv
  | recycle p k b | write b | read b =>
    by_cases hib : i = b
    · subst hib
      simp_all [setBuf]
    · simp only [setBuf,turn,update_of_ne hib] at hv ⊢
      exact h.clean i hv
  | crash => rfl
  | _ => exact h.clean i hv

theorem queue_step (h : Inv c) (hc : Change S c c') : c'.idequeue.Nodup := by
  have happend : ∀ p b, b ∈ owns c p → waits (c.bio p) ≠ some b → (c.idequeue++[b]).Nodup := by
    intro p b hb hw
    have hnot := h.not_queued hb hw
    rw [nodup_append]
    exact ⟨h.queue,by simp,fun x hx y hy => by rintro rfl; simp_all⟩
  cases hc with
  | request p k b hb => exact happend p b (by simp [owns,hb,locking]) (by simp [hb,waits])
  | bwrite p b hb hm => exact happend p b (mem_owns hm) (by simp [hb,waits])
  | write b r hr | read b r hr => exact (nodup_cons.mp (hr ▸ h.queue)).2
  | crash => exact nodup_nil
  | _ => exact h.queue

theorem waits_end (h : Inv c) (hc : Change S c c') (hw : waits (c.bio q) = some i) :
    c' = fresh cfg c.disk ∨ c'.bio q = c.bio q ∨ i ∉ c.idequeue := by
  cases hc with
  | given p k b l hb hv hm =>
    rcases eq_or_ne q p with rfl | hq
    · rcases hb with hb | hb
      · simp [hb,waits] at hw
      · simp only [hb,waits,Option.some.injEq] at hw
        subst hw
        exact .inr (.inr fun hm => by simpa [hv] using (h.reading q k b hb).2.mp hm)
    · exact .inr (.inl (by simp [turn,hq]))
  | wrote p b hb hd =>
    rcases eq_or_ne q p with rfl | hq
    · simp only [hb,waits,Option.some.injEq] at hw
      subst hw
      exact .inr (.inr fun hm => by simpa [hd] using (h.writing q b hb).2.mp hm)
    · exact .inr (.inl (by simp [turn,hq]))
  | bread p _ hb | hit p _ _ hb | recycle p _ _ hb | lock p _ _ hb | request p _ _ hb
  | bwrite p _ hb | brelse p _ _ hb | put p _ hb | putLast p _ hb =>
    rcases eq_or_ne q p with rfl | hq
    · simp [hb,waits] at hw
    · exact .inr (.inl (by simp [setBuf,turn,hq]))
  | crash => exact .inl rfl
  | _ => exact .inr (.inl rfl)

theorem waiter_step (h : Inv c) (hc : Change S c c') (i : cfg.BufId) (hi : i ∈ c'.idequeue) :
    ∃ q, waits (c'.bio q) = some i := by
  have hold : i ∈ c.idequeue → ∃ q, waits (c'.bio q) = some i := by
    intro hm
    obtain ⟨q,hq⟩ := h.waiter i hm
    rcases h.waits_end hc hq with rfl | hsame | hnot
    · simp [fresh] at hi
    · exact ⟨q,hsame ▸ hq⟩
    · exact absurd hm hnot
  cases hc with
  | request p =>
    rcases List.mem_append.mp hi with hm | hm
    · exact hold hm
    · cases mem_singleton.mp hm
      exact ⟨p,by simp [turn,waits]⟩
  | bwrite p =>
    rcases List.mem_append.mp hi with hm | hm
    · exact hold hm
    · cases mem_singleton.mp hm
      exact ⟨p,by simp [setBuf,turn,waits]⟩
  | write b r hr | read b r hr => exact hold (hr ▸ mem_cons_of_mem b hi)
  | crash => simp [fresh] at hi
  | _ => exact hold hi

theorem readWait_new (hc : Change S c c') {k : Key} (hb : c'.bio q = .readWait k i) :
    c.bio q = .readWait k i ∨
      c.bio q = .check k i ∧ (c.buf i).valid = false ∧ c'.buf = c.buf ∧ c'.idequeue = c.idequeue++[i] := by
  cases hc with
  | request p k' b hb' hv =>
    rcases eq_or_ne q p with rfl | hq
    · simp only [turn,update_self,Bio.readWait.injEq] at hb
      obtain ⟨rfl,rfl⟩ := hb
      exact .inr ⟨hb',hv,rfl,rfl⟩
    · exact .inl (by simpa [turn,hq] using hb)
  | bread p | hit p | recycle p | lock p | given p | bwrite p | wrote p | brelse p | put p
  | putLast p =>
    rcases eq_or_ne q p with rfl | hq
    · simp [setBuf,turn] at hb
    · exact .inl (by simpa [setBuf,turn,hq] using hb)
  | crash => simp [fresh] at hb
  | _ => exact .inl hb

theorem reading_step (h : Inv c) (hc : Change S c c') (q : cfg.ProcId) (k : Key) (i : cfg.BufId)
    (hb : c'.bio q = .readWait k i) :
    (c'.buf i).dirty = false ∧ (i ∈ c'.idequeue ↔ (c'.buf i).valid = false) := by
  rcases readWait_new hc hb with hold | ⟨-,hv,hbuf,hqueue⟩
  · have hown : i ∈ owns c q := h.owns_of_waits (by rw [hold]; rfl)
    obtain ⟨hd,hiff⟩ := h.reading q k i hold
    rcases h.waiting_keep hc hown (hb.trans hold.symm) (by simp [hold]) with
      rfl | ⟨-,hv,hd',-,hq⟩ | ⟨r,hr,hr',-,hv,hd'⟩
    · simp [fresh] at hb
    · rw [hd',hq,hv]
      exact ⟨hd,hiff⟩
    · have hnot : i ∉ r := (nodup_cons.mp (hr ▸ h.queue)).1
      rw [hd',hr',hv]
      exact ⟨rfl,by simp [hnot]⟩
  · rw [hbuf,hqueue]
    exact ⟨h.clean i hv,by simp [hv]⟩

theorem writeWait_new (hc : Change S c c') (hb : c'.bio q = .writeWait i) :
    c.bio q = .writeWait i ∧ c'.mine q = c.mine q ∨
      i ∈ c'.mine q ∧ i ∈ c'.idequeue ∧ (c'.buf i).dirty = true := by
  cases hc with
  | bwrite p b hb' hm =>
    rcases eq_or_ne q p with rfl | hq
    · simp only [setBuf,turn,update_self,Bio.writeWait.injEq] at hb
      subst hb
      exact .inr (by simp [setBuf,turn,hm])
    · exact .inl (by simpa [setBuf,turn,hq] using hb)
  | bread p | hit p | recycle p | lock p | request p | given p | wrote p | brelse p | put p
  | putLast p =>
    rcases eq_or_ne q p with rfl | hq
    · simp [setBuf,turn] at hb
    · exact .inl (by simpa [setBuf,turn,hq] using hb)
  | crash => simp [fresh] at hb
  | _ => exact .inl ⟨hb,rfl⟩

theorem writing_step (h : Inv c) (hc : Change S c c') (q : cfg.ProcId) (i : cfg.BufId)
    (hb : c'.bio q = .writeWait i) :
    i ∈ c'.mine q ∧ (i ∈ c'.idequeue ↔ (c'.buf i).dirty = true) := by
  rcases writeWait_new hc hb with ⟨hold,hmine⟩ | ⟨hm,hq,hd⟩
  · obtain ⟨hm,hiff⟩ := h.writing q i hold
    refine ⟨hmine ▸ hm,?_⟩
    rcases h.waiting_keep hc (mem_owns hm) (hb.trans hold.symm) (by simp [hold]) with
      rfl | ⟨-,-,hd,-,hq⟩ | ⟨r,hr,hr',-,-,hd⟩
    · simp [fresh] at hb
    · rw [hd,hq]
      exact hiff
    · have hnot : i ∉ r := (nodup_cons.mp (hr ▸ h.queue)).1
      simp [hr',hd,hnot]
  · exact ⟨hm,by simp [hq,hd]⟩

theorem stamp_step (h : Inv c) (hc : Change S c c') (i : cfg.BufId) : c'.stamp i ≤ c'.now := by
  have hi := h.stamp i
  cases hc with
  | putLast p b =>
    by_cases hib : i = b
    · simp [hib]
    · simp only [update_of_ne hib]
      omega
  | crash => simp [fresh]
  | _ => exact hi

theorem order_keep (h : Inv c) (hring : c'.ring = c.ring) (hstamp : c'.stamp = c.stamp)
    (hkey : ∀ j, (c'.buf j).key = (c.buf j).key) (hact : ∀ j, Active (c'.buf j) → Active (c.buf j)) :
    ∃ l, Ordered c' l := by
  obtain ⟨l,hl⟩ := h.order
  refine ⟨l,hring ▸ hl.holds,hl.all,hl.first.imp fun hf hk ha => ?_,hstamp ▸ hl.recent⟩
  rw [hkey,hkey] at hk
  exact hf hk (hact _ ha)

theorem active_of_mine (h : Inv c) (hm : i ∈ c.mine p) : Active (c.buf i) :=
  .inr (.inl (h.valid p i hm))

theorem active_of_queued (h : Inv c) (hq : i ∈ c.idequeue) : Active (c.buf i) := by
  obtain ⟨p,hp⟩ := h.waiter i hq
  have hpos := h.refcnt_pos (owns_subset_uses (h.owns_of_waits hp))
  exact .inl (by omega)

theorem invalid_of_queued (h : Inv c) (hq : i ∈ c.idequeue) (hd : (c.buf i).dirty = false) :
    (c.buf i).valid = false := by
  obtain ⟨p,hp⟩ := h.waiter i hq
  cases hb : c.bio p with
  | readWait k j =>
    simp only [hb,waits,Option.some.injEq] at hp
    subst hp
    exact (h.reading p k j hb).2.mp hq
  | writeWait j =>
    simp only [hb,waits,Option.some.injEq] at hp
    subst hp
    exact absurd ((h.writing p j hb).2.mp hq) (by simp [hd])
  | _ => simp [hb,waits] at hp

theorem valid_of_dirty (h : Inv c) (hd : (c.buf i).dirty = true) : (c.buf i).valid = true := by
  by_contra hv
  have hclean := h.clean i (by simpa using hv)
  simp [hd] at hclean

theorem order_hit (h : Inv c) {k : Key}
    (hl : scan c.ring.next (fun i => (c.buf i).key = k) cfg.nbuf (c.ring.next none) = some i)
    (bio : Bio cfg) (m : List cfg.BufId) :
    ∃ l, Ordered ((c.turn p bio m).setBuf i {c.buf i with refcnt := (c.buf i).refcnt+1}) l := by
  obtain ⟨hk,l₁,l₂,hl,hfirst⟩ := h.hit_first hl
  have hkey : ∀ j, (((c.turn p bio m).setBuf i {c.buf i with refcnt := (c.buf i).refcnt+1}).buf j).key
      = (c.buf j).key := by
    intro j
    by_cases hj : j = i <;> simp [setBuf,turn,hj]
  refine ⟨_,hl.holds,hl.all,?_,hl.recent⟩
  have hd := hl.holds.nodup
  have hf := hl.first
  simp only [hkey]
  -- only pairs whose second buffer is the found one are new, and those have other keys
  rw [pairwise_append,pairwise_cons] at hf ⊢
  rw [nodup_append,nodup_cons] at hd
  have hsame : ∀ j, j ≠ i → ((c.turn p bio m).setBuf i
      {c.buf i with refcnt := (c.buf i).refcnt+1}).buf j = c.buf j := fun j hj => by
    simp [setBuf,turn,hj]
  have hne₁ : ∀ j ∈ l₁, j ≠ i := fun j hj => hd.2.2 j hj i (by simp)
  have hne₂ : ∀ j ∈ l₂, j ≠ i := fun j hj he => hd.2.1.1 (he ▸ hj)
  refine ⟨?_,⟨?_,?_⟩,?_⟩
  · exact hf.1.imp_of_mem fun ha hb hr => by rwa [hsame _ (hne₁ _ hb)]
  · intro j hj
    rw [hsame j (hne₂ j hj)]
    exact hf.2.1.1 j hj
  · exact hf.2.1.2.imp_of_mem fun ha hb hr => by rwa [hsame _ (hne₂ _ hb)]
  · intro a ha b hb
    rcases mem_cons.mp hb with rfl | hb
    · exact fun he => absurd (he.trans hk) (hfirst a ha)
    · rw [hsame b (hne₂ b hb)]
      exact hf.2.2 a ha b (mem_cons_of_mem _ hb)

theorem order_recycle (h : Inv c) {k : Key}
    (hl : scan c.ring.next (fun i => (c.buf i).key = k) cfg.nbuf (c.ring.next none) = none)
    (bio : Bio cfg) (m : List cfg.BufId) {b : Buf cfg} (hb : b.key = k) :
    ∃ l, Ordered ((c.turn p bio m).setBuf i b) l := by
  have hmiss := h.miss_all hl
  obtain ⟨l,hl⟩ := h.order
  refine ⟨l,hl.holds,hl.all,?_,hl.recent⟩
  refine (hl.first.and hl.holds.nodup).imp fun {x y} hxy => ?_
  obtain ⟨hf,hne⟩ := hxy
  by_cases hx : x = i
  · subst hx
    have hyx : y ≠ x := Ne.symm hne
    simp only [setBuf,turn,update_self,update_of_ne hyx,hb]
    exact fun he => absurd he.symm (hmiss y)
  · by_cases hy : y = i
    · subst hy
      simp only [setBuf,turn,update_self,update_of_ne hx,hb]
      exact fun he => absurd he (hmiss x)
    · simpa only [setBuf,turn,update_of_ne hx,update_of_ne hy] using hf

theorem order_put (h : Inv c) (hi : Active (c.buf i)) (bio : Bio cfg) (m : List cfg.BufId) :
    ∃ l, Ordered {(c.turn p bio m).setBuf i {c.buf i with refcnt := (c.buf i).refcnt-1} with
      ring := (c.ring.unlink i).pushHead i
      stamp := update c.stamp i (c.now+1)
      now := c.now+1} l := by
  have hunique := fun j => h.unique (i := i) (j := j) hi
  obtain ⟨l,hl⟩ := h.order
  have hsame : ∀ j ∈ l.erase i, j ≠ i := fun j hj => by
    rintro rfl
    exact hl.holds.nodup.not_mem_erase hj
  refine ⟨i::l.erase i,hl.holds.toFront (hl.all i),fun j => ?_,?_,?_⟩
  · by_cases hj : j = i
    · simp [hj]
    · exact mem_cons_of_mem _ ((mem_erase_of_ne hj).mpr (hl.all j))
  · rw [pairwise_cons]
    refine ⟨fun j hj hk ha => hsame j hj ?_,?_⟩
    · simp only [setBuf,turn,update_self,update_of_ne (hsame j hj)] at hk ha
      exact (hunique j ha hk).symm
    · refine (hl.first.sublist erase_sublist).imp_of_mem fun {x y} hx hy hf => ?_
      simpa only [setBuf,turn,update_of_ne (hsame x hx), update_of_ne (hsame y hy)] using hf
  · rw [pairwise_cons]
    refine ⟨fun j hj _ => ?_,?_⟩
    · have := h.stamp j
      simp only [update_self,update_of_ne (hsame j hj)]
      omega
    · refine (hl.recent.sublist erase_sublist).imp_of_mem fun {x y} hx hy hf => ?_
      simpa only [update_of_ne (hsame x hx),update_of_ne (hsame y hy)] using hf

theorem order_step (h : Inv c) (hc : Change S c c') : ∃ l, Ordered c' l := by
  cases hc with
  | hit p k b hb hl => exact h.order_hit hl _ _
  | recycle p k b hb hl => exact h.order_recycle hl _ _ rfl
  | putLast p b hb =>
    have hpos := h.refcnt_pos (p := p) (i := b) (by simp [uses,hb,counted])
    exact h.order_put (.inl (by omega)) _ _
  | bwrite p b hb hm | logged p b hb hm =>
    refine h.order_keep (by rfl) (by rfl) (fun j => ?_) fun j => ?_
    · by_cases hj : j = b <;> simp [setBuf,turn,hj]
    · by_cases hj : j = b
      · exact fun _ => hj ▸ h.active_of_mine hm
      · simp [setBuf,turn,hj]
  | write b r hr | read b r hr =>
    refine h.order_keep (by rfl) (by rfl) (fun j => ?_) fun j => ?_
    · by_cases hj : j = b <;> simp [setBuf,hj]
    · by_cases hj : j = b
      · exact fun _ => hj ▸ h.active_of_queued (by simp [hr])
      · simp [setBuf,hj]
  | lock p k b | store p b | brelse p b =>
    refine h.order_keep (by rfl) (by rfl) (fun j => ?_) fun j => ?_
    all_goals by_cases hj : j = b <;> simp [setBuf,turn,hj,Active]
  | put p b =>
    refine h.order_keep (by rfl) (by rfl) (fun j => ?_) fun j => ?_
    · by_cases hj : j = b <;> simp [setBuf,turn,hj]
    · by_cases hj : j = b
      · exact fun _ => .inl (by subst hj; omega)
      · simp [setBuf,turn,hj]
  | crash => exact ordered_fresh c.disk
  | _ => exact h.order_keep (by rfl) (by rfl) (fun _ => rfl) fun _ => id

theorem put_new (hc : Change S c c') (hb : c'.bio q = .put i) : c.bio q = .put i ∨ i ∈ c.mine q := by
  cases hc with
  | brelse p b l hb' hs hp =>
    rcases eq_or_ne q p with rfl | hq
    · have hib : b = i := by simpa [setBuf,turn] using hb
      exact .inr (hp.mem_iff.mpr (by simp [hib]))
    · exact .inl (by simpa [setBuf,turn,hq] using hb)
  | crash => simp [fresh] at hb
  | store | logged | write | read => exact .inl hb
  | bread p | hit p | recycle p | lock p | request p | given p | bwrite p | wrote p | put p
  | putLast p =>
    rcases eq_or_ne q p with rfl | hq
    · simp [setBuf,turn] at hb
    · exact .inl (by simpa [setBuf,turn,hq] using hb)

theorem released_step (h : Inv c) (hc : Change S c c') (q : cfg.ProcId) (i : cfg.BufId)
    (hb : c'.bio q = .put i) : (c'.buf i).valid = true := by
  have hold : (c.buf i).valid = true ∧ 0 < (c.buf i).refcnt := by
    rcases put_new hc hb with hb | hm
    · exact ⟨h.released q i hb,h.refcnt_pos (p := q) (by simp [uses,counted,hb])⟩
    · exact ⟨h.valid q i hm,h.refcnt_pos (mem_uses hm)⟩
  rcases h.used_keep hc hold.2 with rfl | hkeep
  · simp [fresh] at hb
  · exact hkeep.2 hold.1

theorem named_step (h : Inv c) (hc : Change S c c') (i : cfg.BufId) :
    Active (c'.buf i) ∨ (c'.buf i).key = (0,0) := by
  have hold := h.named i
  cases hc with
  | crash => exact .inr rfl
  | putLast p b hb =>
    by_cases hib : i = b
    · subst hib
      exact .inl (.inr (.inl (by simpa [setBuf,turn] using h.released p i hb)))
    · simpa [setBuf,turn,hib] using hold
  | hit p k b | recycle p k b | put p b | write b | read b =>
    by_cases hib : i = b
    · subst hib
      left
      simp_all [setBuf,turn,Active]
    · simpa [setBuf,turn,hib] using hold
  | lock p k b | store p b | bwrite p b | logged p b | brelse p b =>
    by_cases hib : i = b
    · subst hib
      simp only [setBuf,turn,update_self]
      exact hold.imp_left fun ha => by simp_all [Active]
    · simpa [setBuf,turn,hib] using hold
  | _ => exact hold

theorem step (h : Inv c) (hc : Change S c c') : Inv c' where
  refcnt := h.refcnt_step hc
  lock := h.lock_step hc
  key := h.key_step hc
  valid := h.valid_step hc
  clean := h.clean_step hc
  queue := h.queue_step hc
  waiter := h.waiter_step hc
  reading := h.reading_step hc
  writing := h.writing_step hc
  order := h.order_step hc
  stamp := h.stamp_step hc
  released := h.released_step hc
  named := h.named_step hc

end Inv

end

end Xv6.BufferCache
