import Mathlib.Data.List.Nodup
import Mathlib.Logic.Function.Basic
import Mathlib.Tactic

/-!
# Circular doubly linked lists

The list is threaded through two pointer maps. A node is an element or the head, written `none`.
`Seg` says that a stretch can be walked in both directions, and `Holds` that the whole ring is a
given list without repetitions. The operations are pointer assignments in the order in which a
program makes them, so an element may only be unlinked from a ring that it is in.
-/
namespace Xv6.LinkedRing
open List
open Function (update update_of_ne update_self)

section
variable {α : Type*}

structure Links (α : Type*) where
  next : Option α → Option α
  prev : Option α → Option α

def Links.empty : Links α := ⟨fun _ => none,fun _ => none⟩

section
variable [DecidableEq α]

/-- `b->next = head.next; b->prev = &head; head.next->prev = b; head.next = b`. -/
def Links.pushHead (r : Links α) (b : α) : Links α :=
  let next := update r.next (some b) (r.next none)
  let prev := update r.prev (some b) none
  ⟨update next none (some b),update prev (next none) (some b)⟩

/-- `b->next->prev = b->prev; b->prev->next = b->next`. -/
def Links.unlink (r : Links α) (b : α) : Links α :=
  let prev := update r.prev (r.next (some b)) (r.prev (some b))
  ⟨update r.next (prev (some b)) (r.next (some b)),prev⟩

end

/-- Follow one pointer map from a node until an element is accepted or the head
is met. The first argument bounds the number of elements looked at. -/
def scan (follow : Option α → Option α) (accept : α → Bool) : ℕ → Option α → Option α
  | 0,_ => none
  | _+1,none => none
  | n+1,some b => if accept b then some b else scan follow accept n (follow (some b))

/-- From node `a` the ring goes through `l` to node `c`. -/
inductive Seg (r : Links α) : Option α → List α → Option α → Prop
  | nil {a c : Option α} : r.next a = c → r.prev c = a → Seg r a [] c
  | cons {a c : Option α} {b : α} {l : List α} : r.next a = some b → r.prev (some b) = a →
      Seg r (some b) l c → Seg r a (b::l) c

/-- The ring is the list `l`, from the head's `next` on. -/
structure Holds (r : Links α) (l : List α) : Prop where
  seg : Seg r none l none
  nodup : l.Nodup

variable {r r' : Links α} {a c : Option α} {b : α} {l l₁ l₂ : List α}

/-- A stretch depends on the `next` of its nodes but the last and the `prev` of
its nodes but the first. -/
theorem Seg.congr (h : Seg r a l c) (hnext : r'.next a = r.next a)
    (hnexts : ∀ x ∈ l, r'.next (some x) = r.next (some x))
    (hprevs : ∀ x ∈ l, r'.prev (some x) = r.prev (some x)) (hprev : r'.prev c = r.prev c) :
    Seg r' a l c := by
  induction h with
  | nil hn hp => exact .nil (hnext.trans hn) (hprev.trans hp)
  | cons hn hp _ ih =>
    refine .cons (hnext.trans hn) ((hprevs _ (by simp)).trans hp) (ih (hnexts _ (by simp)) ?_ ?_ hprev)
    · exact fun x hx => hnexts x (by simp [hx])
    · exact fun x hx => hprevs x (by simp [hx])

theorem Seg.split (h : Seg r a (l₁++b::l₂) c) : Seg r a l₁ (some b) ∧ Seg r (some b) l₂ c := by
  induction l₁ generalizing a with
  | nil =>
    cases h with
    | cons hn hp h => exact ⟨.nil hn hp,h⟩
  | cons x l₁ ih =>
    cases h with
    | cons hn hp h => exact ⟨.cons hn hp (ih h).1,(ih h).2⟩

theorem Seg.prev_end (h : Seg r a l c) : r.prev c = a ∧ l = [] ∨ ∃ x ∈ l, r.prev c = some x := by
  induction h with
  | nil _ hp => exact .inl ⟨hp,rfl⟩
  | @cons _ _ b _ _ _ _ ih =>
    rcases ih with ⟨hp,-⟩ | ⟨x,hx,hp⟩
    · exact .inr ⟨b,by simp,hp⟩
    · exact .inr ⟨x,by simp [hx],hp⟩

section
variable [DecidableEq α]

/-- The assignments of `unlink` join the two stretches around an element. -/
theorem Seg.unlink (h₁ : Seg r a l₁ (some b)) (h₂ : Seg r (some b) l₂ none)
    (hd : (l₁++b::l₂).Nodup) (ha : ∀ x ∈ l₁++b::l₂, a ≠ some x) :
    Seg (r.unlink b) a (l₁++l₂) none := by
  have hself : r.next (some b) ≠ some b := by
    intro hn
    cases h₂ with
    | nil hn' => simp [hn] at hn'
    | cons hn' =>
      rw [hn] at hn'
      cases hn'
      simp [nodup_append] at hd
  have hnext : (r.unlink b).next = update r.next (r.prev (some b)) (r.next (some b)) := by
    simp only [Links.unlink]
    rw [update_of_ne hself.symm]
  have hprev : (r.unlink b).prev = update r.prev (r.next (some b)) (r.prev (some b)) := rfl
  induction l₁ generalizing a with
  | nil =>
    cases h₁ with
    | nil hn hp =>
      cases h₂ with
      | nil hn' =>
        apply Seg.nil
        · rw [hnext,hp,update_self,hn']
        · rw [hprev,hn',update_self,hp]
      | cons hn' hp' h =>
        rename_i y l
        simp only [nil_append,nodup_cons,mem_cons,not_or] at hd
        apply Seg.cons
        · rw [hnext,hp,update_self,hn']
        · rw [hprev,hn',update_self,hp]
        · have hay : some y ≠ a := (ha y (by simp)).symm
          apply h.congr
          · rw [hnext,hp,update_of_ne hay]
          · intro x hx
            rw [hnext,hp,update_of_ne (ha x (by simp [hx])).symm]
          · intro x hx
            have hxy : some x ≠ some y := fun he => hd.2.1 (Option.some.inj he ▸ hx)
            rw [hprev,hn',update_of_ne hxy]
          · rw [hprev,hn',update_of_ne (by simp)]
  | cons x l₁ ih =>
    cases h₁ with
    | cons hn hp h₁ =>
      simp only [cons_append,nodup_cons] at hd
      apply Seg.cons
      · have hne : a ≠ r.prev (some b) := by
          rcases h₁.prev_end with ⟨he,-⟩ | ⟨z,hz,he⟩
          · rw [he]
            exact ha x (by simp)
          · rw [he]
            exact ha z (by simp [hz])
        rw [hnext,update_of_ne hne,hn]
      · have hne : some x ≠ r.next (some b) := by
          intro he
          cases h₂ with
          | nil hn' => simp [hn'] at he
          | cons hn' =>
            rw [hn'] at he
            cases he
            simp at hd
        rw [hprev,update_of_ne hne,hp]
      · exact ih h₁ hd.2 fun z hz he => hd.1 (Option.some.inj he ▸ hz)

theorem Holds.unlink (h : Holds r l) (hb : b ∈ l) : Holds (r.unlink b) (l.erase b) := by
  obtain ⟨l₁,l₂,rfl⟩ := append_of_mem hb
  obtain ⟨h₁,h₂⟩ := h.seg.split
  have hb₁ : b ∉ l₁ := by
    have hd := h.nodup
    simp only [nodup_append,mem_cons] at hd
    exact fun hm => hd.2.2 b hm b (.inl rfl) rfl
  rw [erase_append_right _ hb₁,erase_cons_head]
  refine ⟨h₁.unlink h₂ h.nodup (by simp),h.nodup.sublist ?_⟩
  simp

theorem Holds.pushHead (h : Holds r l) (hb : b ∉ l) : Holds (r.pushHead b) (b::l) := by
  refine ⟨?_,nodup_cons.mpr ⟨hb,h.nodup⟩⟩
  have hfirst : update r.next (some b) (r.next none) none = r.next none :=
    update_of_ne (by simp) _ _
  have hnext : (r.pushHead b).next = update (update r.next (some b) (r.next none)) none (some b) := rfl
  have hprev : (r.pushHead b).prev = update (update r.prev (some b) none) (r.next none) (some b) := by
    simp only [Links.pushHead,hfirst]
  obtain ⟨hseg,hd⟩ := h
  cases hseg with
  | nil hn =>
    apply Seg.cons
    · simp [hnext]
    · simp [hprev,hn]
    · exact .nil (by simp [hnext,hn]) (by simp [hprev,hn])
  | cons hn hp h =>
    rename_i y l
    simp only [mem_cons,not_or] at hb
    have hby : some b ≠ some y := by simpa using hb.1
    apply Seg.cons
    · simp [hnext]
    · simp [hprev,hn,hb.1]
    · apply Seg.cons
      · simp [hnext,hn]
      · simp [hprev,hn]
      · apply h.congr
        · simp [hnext,Ne.symm hb.1]
        · intro x hx
          have hxb : x ≠ b := fun he => hb.2 (he ▸ hx)
          simp [hnext,hxb]
        · intro x hx
          have hxb : x ≠ b := fun he => hb.2 (he ▸ hx)
          have hxy : x ≠ y := fun he => (nodup_cons.mp hd).1 (he ▸ hx)
          simp [hprev,hn,hxb,hxy]
        · simp [hprev,hn]

theorem Holds.toFront (h : Holds r l) (hb : b ∈ l) : Holds ((r.unlink b).pushHead b) (b::l.erase b) :=
  (h.unlink hb).pushHead h.nodup.not_mem_erase

end

theorem holds_empty : Holds (Links.empty : Links α) [] := ⟨.nil rfl rfl,nodup_nil⟩

theorem Holds.foldl_pushHead [DecidableEq α] {xs : List α} (h : Holds r l) (hd : xs.Nodup)
    (hx : ∀ x ∈ xs, x ∉ l) : Holds (xs.foldl Links.pushHead r) (xs.reverse++l) := by
  induction xs generalizing r l with
  | nil => simpa using h
  | cons x xs ih =>
    rw [nodup_cons] at hd
    simp only [foldl_cons,reverse_cons,append_assoc,singleton_append]
    apply ih (h.pushHead (hx x (by simp))) hd.2
    intro y hy
    simp only [mem_cons,not_or]
    exact ⟨fun he => hd.1 (he ▸ hy),hx y (by simp [hy])⟩

/-- Walking along `next` finds the first accepted element of the list. -/
theorem Seg.scan_next {p : α → Bool} {n : ℕ} (h : Seg r a l none) (hn : l.length ≤ n) :
    scan r.next p n (r.next a) = l.find? p := by
  induction l generalizing a n with
  | nil =>
    cases h with
    | nil hnext => cases n <;> simp [hnext,scan]
  | cons b l ih =>
    cases h with
    | cons hnext _ h =>
      cases n with
      | zero => simp at hn
      | succ =>
        simp only [hnext,scan,find?_cons]
        cases hp : p b with
        | true => simp
        | false => simpa using ih h (by simpa using hn)

def Links.flip (r : Links α) : Links α := ⟨r.prev,r.next⟩

theorem Seg.snoc (h : Seg r a l (some b)) (hn : r.next (some b) = c) (hp : r.prev c = some b) :
    Seg r a (l++[b]) c := by
  generalize hx : some b = x at h
  induction h with
  | nil hn' hp' =>
    subst hx
    exact .cons hn' hp' (.nil hn hp)
  | cons hn' hp' _ ih => exact .cons hn' hp' (ih hx)

theorem Seg.flip (h : Seg r a l c) : Seg r.flip c l.reverse a := by
  induction h with
  | nil hn hp => exact .nil hp hn
  | cons hn hp _ ih =>
    rw [reverse_cons]
    exact ih.snoc hp hn

theorem Holds.scan_next {p : α → Bool} {n : ℕ} (h : Holds r l) (hn : l.length ≤ n) :
    scan r.next p n (r.next none) = l.find? p := h.seg.scan_next hn

theorem Holds.scan_prev {p : α → Bool} {n : ℕ} (h : Holds r l) (hn : l.length ≤ n) :
    scan r.prev p n (r.prev none) = l.reverse.find? p :=
  h.seg.flip.scan_next (by simpa using hn)

end
end Xv6.LinkedRing
