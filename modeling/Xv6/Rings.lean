import Mathlib.Data.List.Chain
import Mathlib.Data.List.Nodup
import Mathlib.Tactic

/-!
# Doubly linked rings in one pool of nodes

Every node has two pointers that may be null, and any number of rings run through the same nodes.
`Ring s h l` says that the ring with the head `h` is the list `l`: neighbours point at each other.
The two operations append a node in front of the head and take out the first node. Both change
pointers of one ring only, so the rings apart from it stay as they are.
-/
namespace Xv6.Rings
open List
open Function (update update_self update_of_ne)

section
variable {N : Type*}

structure Pointers (N : Type*) where
  next : N → Option N
  prev : N → Option N

def Joined (s : Pointers N) (a b : N) : Prop := s.next a = some b ∧ s.prev b = some a

def Ring (s : Pointers N) (h : N) (l : List N) : Prop := ((h::l)++[h]).IsChain (Joined s)

variable {s s' : Pointers N} {h x t : N} {l : List N}

/-- A chain depends on the `next` of its nodes but the last and the `prev` of its nodes but the
first. -/
theorem chain_congr {a : N} (hc : (a::l).IsChain (Joined s))
    (hn : ∀ y ∈ (a::l).dropLast, s'.next y = s.next y) (hp : ∀ y ∈ l, s'.prev y = s.prev y) :
    (a::l).IsChain (Joined s') := by
  induction l generalizing a with
  | nil => exact isChain_singleton a
  | cons b l ih =>
    obtain ⟨⟨hab,hba⟩,hl⟩ := isChain_cons_cons.mp hc
    refine isChain_cons_cons.mpr ⟨⟨?_,?_⟩,ih hl ?_ ?_⟩
    · rw [hn a (by simp),hab]
    · rw [hp b (by simp),hba]
    · exact fun y hy => hn y (by simp only [dropLast_cons_cons,mem_cons]; exact .inr hy)
    · exact fun y hy => hp y (mem_cons_of_mem _ hy)

theorem Ring.congr (hr : Ring s h l) (hn : ∀ y ∈ h::l, s'.next y = s.next y)
    (hp : ∀ y ∈ h::l, s'.prev y = s.prev y) : Ring s' h l := by
  refine chain_congr (a := h) hr (fun y hy => hn y ?_) fun y hy => hp y ?_
  · have hlast : ((h::l)++[h]).dropLast = h::l := dropLast_concat
    exact hlast ▸ hy
  · rcases List.mem_append.mp hy with hy | hy
    · exact mem_cons_of_mem _ hy
    · exact mem_cons.mpr (.inl (mem_singleton.mp hy))

theorem Ring.next_mem (hr : Ring s h l) {a b : N} (ha : a ∈ h::l) (hab : s.next a = some b) : b ∈ h::l := by
  obtain ⟨u,v,huv⟩ := append_of_mem ha
  unfold Ring at hr
  rw [huv,append_assoc,cons_append] at hr
  cases v with
  | nil =>
    have hj : s.next a = some h := (isChain_cons_cons.mp (isChain_split.mp hr).2).1.1
    cases hab.symm.trans hj
    exact mem_cons_self
  | cons c v =>
    have hj : s.next a = some c := (isChain_cons_cons.mp (isChain_split.mp hr).2).1.1
    cases hab.symm.trans hj
    rw [huv]
    simp

theorem Ring.reach (hr : Ring s h l) {a : N} (ha : a ∈ h::l) :
    Relation.ReflTransGen (fun x y => s.next x = some y) h a := by
  have hc : (h::l).IsChain (Joined s) := (isChain_append.mp hr).1
  clear hr
  induction l generalizing h with
  | nil =>
    rw [mem_singleton.mp ha]
  | cons b l ih =>
    obtain ⟨hj,hc⟩ := isChain_cons_cons.mp hc
    rcases mem_cons.mp ha with rfl | ha
    · exact .refl
    · exact .head hj.1 (ih ha hc)

theorem Ring.first (hr : Ring s h (x::l)) : s.next h = some x := (isChain_cons_cons.mp hr).1.1

theorem Ring.last {k : List N} (hr : Ring s h l) (hk : h::l = k++[t]) : s.prev h = some t := by
  unfold Ring at hr
  rw [hk,append_assoc,singleton_append] at hr
  exact (isChain_cons_cons.mp (isChain_split.mp hr).2).1.2

section
variable [DecidableEq N]

/-- `x->prev = t; x->next = h; h->prev = x; t->next = x`. -/
def Pointers.append (s : Pointers N) (h t x : N) : Pointers N :=
  let next := update s.next x (some h)
  let prev := update s.prev x (some t)
  ⟨update next t (some x),update prev h (some x)⟩

/-- `h->next = x->next; x->next->prev = h; x->next = 0; x->prev = 0`, where `y` is `x->next`. -/
def Pointers.takeFirst (s : Pointers N) (h x y : N) : Pointers N :=
  let next := update s.next h (some y)
  let prev := update s.prev y (some h)
  ⟨update next x none,update prev x none⟩

variable {y z : N}

theorem append_next : (s.append h t x).next = update (update s.next x (some h)) t (some x) := rfl

theorem append_prev : (s.append h t x).prev = update (update s.prev x (some t)) h (some x) := rfl

theorem takeFirst_next : (s.takeFirst h x y).next = update (update s.next h (some y)) x none := rfl

theorem takeFirst_prev : (s.takeFirst h x y).prev = update (update s.prev y (some h)) x none := rfl

theorem append_next_of_ne (hx : z ≠ x) (ht : z ≠ t) : (s.append h t x).next z = s.next z := by
  rw [append_next,update_of_ne ht,update_of_ne hx]

theorem append_prev_of_ne (hx : z ≠ x) (hh : z ≠ h) : (s.append h t x).prev z = s.prev z := by
  rw [append_prev,update_of_ne hh,update_of_ne hx]

theorem takeFirst_next_of_ne (hx : z ≠ x) (hh : z ≠ h) : (s.takeFirst h x y).next z = s.next z := by
  rw [takeFirst_next,update_of_ne hx,update_of_ne hh]

theorem takeFirst_prev_of_ne (hx : z ≠ x) (hy : z ≠ y) : (s.takeFirst h x y).prev z = s.prev z := by
  rw [takeFirst_prev,update_of_ne hx,update_of_ne hy]

theorem Ring.append {k : List N} (hr : Ring s h l) (hd : (h::l).Nodup) (hx : x ∉ h::l)
    (hk : h::l = k++[t]) : Ring (s.append h t x) h (l++[x]) := by
  have hcons : (h::(l++[x]))++[h] = k++t::[x,h] := by
    rw [← cons_append,hk]
    simp
  have ht : t ∉ k := by
    rw [hk] at hd
    exact fun htk => (nodup_append.mp hd).2.2 t htk t (by simp) rfl
  have hxt : x ≠ t := fun he => hx (by rw [hk,he]; simp)
  have hxh : x ≠ h := fun he => hx (by rw [he]; simp)
  unfold Ring
  rw [hcons]
  refine isChain_split.mpr ⟨?_,?_⟩
  · -- the old nodes, up to the last one
    rw [← hk]
    refine chain_congr (s := s) (isChain_append.mp hr).1 (fun y hy => ?_) fun y hy => ?_
    · rw [hk,dropLast_concat] at hy
      exact append_next_of_ne (fun he => hx (by rw [hk,← he]; simp [hy])) fun he => ht (he ▸ hy)
    · have hyh : y ≠ h := fun he => (nodup_cons.mp hd).1 (he ▸ hy)
      exact append_prev_of_ne (fun he => hx (by rw [← he]; exact mem_cons_of_mem _ hy)) hyh
  · refine isChain_cons_cons.mpr ⟨⟨?_,?_⟩,isChain_cons_cons.mpr ⟨⟨?_,?_⟩, isChain_singleton h⟩⟩
    · exact update_self ..
    · rw [append_prev,update_of_ne hxh,update_self]
    · rw [append_next,update_of_ne hxt,update_self]
    · exact update_self ..

theorem Ring.takeFirst (hr : Ring s h (x::l)) (hd : (h::x::l).Nodup) :
    ∃ y ∈ h::l, s.next x = some y ∧ Ring (s.takeFirst h x y) h l := by
  obtain ⟨hhx,hd⟩ := nodup_cons.mp hd
  obtain ⟨hxl,hdl⟩ := nodup_cons.mp hd
  rw [mem_cons,not_or] at hhx
  have hend : (l++[h]).Nodup := by
    rw [nodup_append]
    refine ⟨hdl,by simp,fun a ha b hb => ?_⟩
    rw [mem_singleton.mp hb]
    exact fun he => hhx.2 (he ▸ ha)
  have hxend : x ∉ l++[h] := by
    rw [List.mem_append,mem_singleton,not_or]
    exact ⟨hxl,fun he => hhx.1 he.symm⟩
  obtain ⟨y,m,hym⟩ : ∃ y m, l++[h] = y::m := exists_cons_of_ne_nil (by simp)
  have hc : (h::x::(y::m)).IsChain (Joined s) := by
    rw [← hym]
    exact hr
  obtain ⟨-,hc⟩ := isChain_cons_cons.mp hc
  obtain ⟨⟨hxy,-⟩,hc⟩ := isChain_cons_cons.mp hc
  have hyl : y ∈ h::l := by
    have hy : y ∈ l++[h] := by
      rw [hym]
      exact mem_cons_self
    rcases List.mem_append.mp hy with hy | hy
    · exact mem_cons_of_mem _ hy
    · exact mem_cons.mpr (.inl (mem_singleton.mp hy))
  have hyx : y ≠ x := fun he => hxend (by rw [hym,he]; exact mem_cons_self)
  refine ⟨y,hyl,hxy,?_⟩
  unfold Ring
  rw [cons_append,hym]
  refine isChain_cons_cons.mpr ⟨⟨?_,?_⟩,chain_congr hc (fun z hz => ?_) fun z hz => ?_⟩
  · rw [takeFirst_next,update_of_ne hhx.1,update_self]
  · rw [takeFirst_prev,update_of_ne hyx,update_self]
  · rw [← hym,dropLast_concat] at hz
    exact takeFirst_next_of_ne (fun he => hxl (he ▸ hz)) fun he => hhx.2 (he ▸ hz)
  · have hzm : z ∈ l++[h] := by
      rw [hym]
      exact mem_cons_of_mem _ hz
    rw [hym] at hend
    exact takeFirst_prev_of_ne (fun he => hxend (he ▸ hzm)) fun he => (nodup_cons.mp hend).1 (he ▸ hz)

end
end
end Xv6.Rings
