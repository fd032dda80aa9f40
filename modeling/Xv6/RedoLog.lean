import Mathlib.Tactic

/-!
# Redo logs

A redo log keeps new contents of some blocks in slots, and a header that lists the blocks. Recovery
makes `replay` of a disk: the slot for a block that the header lists, its home copy for any other.
Filling a slot that no header lists, installing a listed block and dropping a header whose blocks
are all installed leave it unchanged. A transaction is a list of writes, applied in order.
-/
namespace Xv6.RedoLog

section
variable {β ν : Type*} [DecidableEq β] {header : List β} {slot slot' : ℕ → ν} {home home' : β → ν}
  {b : β}

def replay (header : List β) (slot : ℕ → ν) (home : β → ν) (b : β) : ν :=
  if b ∈ header then slot (header.idxOf b) else home b

@[simp] theorem replay_nil : replay [] slot home b = home b := rfl

theorem replay_of_notMem (h : b ∉ header) : replay header slot home b = home b := if_neg h

theorem replay_of_mem (h : b ∈ header) : replay header slot home b = slot (header.idxOf b) := if_pos h

theorem replay_congr (hslot : ∀ j < header.length, slot' j = slot j)
    (hhome : b ∉ header → home' b = home b) :
    replay header slot' home' b = replay header slot home b := by
  by_cases hb : b ∈ header
  · rw [replay_of_mem hb,replay_of_mem hb,hslot _ (List.idxOf_lt_length_iff.mpr hb)]
  · rw [replay_of_notMem hb,replay_of_notMem hb,hhome hb]

theorem replay_installed (d : β) (h : ∀ j < header.length, home (header.getD j d) = slot j) :
    replay header slot home b = home b := by
  by_cases hb : b ∈ header
  · have hlt := List.idxOf_lt_length_iff.mpr hb
    have hget : header.getD (header.idxOf b) d = b := by simp [hlt]
    rw [replay_of_mem hb,← h _ hlt,hget]
  · exact replay_of_notMem hb

def apply (ws : List (β × ν)) (f : β → ν) : β → ν := ws.foldl (fun f w => Function.update f w.1 w.2) f

@[simp] theorem apply_nil (f : β → ν) : apply [] f = f := rfl

theorem apply_concat (ws : List (β × ν)) (w : β × ν) (f : β → ν) :
    apply (ws++[w]) f = Function.update (apply ws f) w.1 w.2 := by simp [apply]

theorem apply_of_notMem {ws : List (β × ν)} (h : ∀ w ∈ ws, w.1 ≠ b) (f : β → ν) :
    apply ws f b = f b := by
  induction ws using List.reverseRecOn with
  | nil => rfl
  | append_singleton ws w ih =>
    rw [apply_concat,Function.update_of_ne (h w (by simp)).symm]
    exact ih fun x hx => h x (by simp [hx])

def applyAll (ts : List (List (β × ν))) (f : β → ν) : β → ν := ts.foldl (fun f ws => apply ws f) f

@[simp] theorem applyAll_nil (f : β → ν) : applyAll [] f = f := rfl

theorem applyAll_concat (ts : List (List (β × ν))) (ws : List (β × ν)) (f : β → ν) :
    applyAll (ts++[ws]) f = apply ws (applyAll ts f) := by simp [applyAll]

end

/-! ## Groups of writes

Writes belong to owners, and a transaction takes all pending writes at once. -/

section
variable {ε ο : Type*} [DecidableEq ο] (owner : ε → ο)

def own (o : ο) (es : List ε) : List ε := es.filter fun e => owner e = o

/-- One transaction has all of `ws`, the writes of `o`, or none has any. -/
def AllOrNone (o : ο) (ws : List ε) (ts : List (List ε)) : Prop :=
  (∀ t ∈ ts, own owner o t = []) ∨
    ∃ l t r, ts = l++t::r ∧ own owner o t = own owner o ws ∧ ∀ t' ∈ l++r, own owner o t' = []

variable {owner} {o : ο} {ws pend : List ε} {ts : List (List ε)}

theorem own_append (es es' : List ε) : own owner o (es++es') = own owner o es++own owner o es' := by
  simp [own]

theorem AllOrNone.commit (h : AllOrNone owner o ws ts) (hlive : own owner o pend ≠ [] →
    own owner o pend = own owner o ws ∧ ∀ t ∈ ts, own owner o t = []) :
    AllOrNone owner o ws (ts++[pend]) := by
  by_cases hp : own owner o pend = []
  · rcases h with hnone | ⟨l,t,r,rfl,ht,hothers⟩
    · left
      intro t ht
      rcases List.mem_append.mp ht with ht | ht
      · exact hnone t ht
      · rwa [List.mem_singleton.mp ht]
    · right
      refine ⟨l,t,r++[pend],by simp,ht,fun t' ht' => ?_⟩
      rw [← List.append_assoc,List.mem_append] at ht'
      rcases ht' with ht' | ht'
      · exact hothers t' ht'
      · rwa [List.mem_singleton.mp ht']
  · obtain ⟨hall,hnone⟩ := hlive hp
    exact .inr ⟨ts,pend,[],rfl,hall,by simpa using hnone⟩

/-- Another owner writes, or `o` writes before any transaction has its writes. -/
theorem AllOrNone.write {es : List ε} (h : AllOrNone owner o ws ts)
    (hes : own owner o es = [] ∨ ∀ t ∈ ts, own owner o t = []) :
    AllOrNone owner o (ws++es) ts := by
  rcases hes with hes | hnone
  · refine h.imp_right ?_
    rintro ⟨l,t,r,rfl,ht,hothers⟩
    exact ⟨l,t,r,rfl,by rw [own_append,hes,List.append_nil,ht],hothers⟩
  · exact .inl hnone

end

end Xv6.RedoLog
